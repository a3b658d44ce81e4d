import Symbios.Base.Tokens
import Symbios.Model.Replayer
import Symbios.Proof.LibHandler
import Symbios.Proof.Sizes

/-!
# Traces and their replay

The text of a trace is read back line by line (`getlines_trace`, `parseLine_render`), so that the replayer makes the
calls of the trace and no others (`replay_calls`). In IRIS mode, data that was prepared is there for every read of every
repetition, and `clean_data` removes the chunks of what was written (`replay_prepared`).
-/

namespace Symbios

open Sizes

/-! ## Words -/

/-- A numeral is read back, whatever is behind it, as long as that is no digit. -/
theorem atol_decimal {n : Nat} (hn : n < 2 ^ 63) {rest : List UInt8} (hrest : ∀ c, rest.head? = some c → ¬ isDigit c) :
    atol (Decimal.decimal n ++ rest) = some (n : Int) := by
  have hleads : Leads (Decimal.decimal n ++ rest) false n := leads_decimal (Or.inr ⟨Or.inl rfl, rfl⟩) n hrest
  rw [atol, (leadingNumber_iff _ _ _).mpr hleads]
  dsimp only
  rw [if_neg Bool.false_ne_true, if_pos (by omega)]

theorem strtok_eq : strtok = Tokens.next 44 := rfl

theorem strtok_comma {word : List UInt8} (h : Tokens.IsToken 44 word) (rest : List UInt8) :
    strtok (word ++ 44 :: rest) = some (word, rest) := by
  rw [strtok_eq, Tokens.next_word h]

theorem strtok_last {word : List UInt8} (h : Tokens.IsToken 44 word) : strtok word = some (word, []) := by
  rw [strtok_eq, Tokens.next_last h]

/-! ## Lines -/

/-- A line of a trace as it is written. -/
structure TraceEntry where
  operation : List UInt8
  offset : Nat
  size : Nat

namespace TraceEntry

/-- The operation is a word, and the numbers fit into `long`. -/
structure Plain (e : TraceEntry) : Prop where
  ne_nil : e.operation ≠ []
  word : ∀ c ∈ e.operation, c ≠ 0 ∧ c ≠ 10 ∧ c ≠ 44
  offset_lt : e.offset < 2 ^ 63
  size_lt : e.size < 2 ^ 63

/-- The text of the line, without a newline. -/
def render (e : TraceEntry) : List UInt8 :=
  e.operation ++ 44 :: (Decimal.decimal e.offset ++ 44 :: Decimal.decimal e.size)

/-- What is read of it. -/
def line (e : TraceEntry) : TraceLine := { operation := e.operation, offset := e.offset, requestSize := e.size }

@[simp] theorem line_operation (e : TraceEntry) : e.line.operation = e.operation := rfl

end TraceEntry

theorem decimal_plain {n : Nat} {c : UInt8} (hc : c ∈ Decimal.decimal n) : c ≠ 0 ∧ c ≠ 10 ∧ c ≠ 44 := by
  have hdigit := isDigit_of_decimal hc
  have hall : ∀ c : UInt8, isDigit c → c ≠ 0 ∧ c ≠ 10 ∧ c ≠ 44 := by decide +kernel
  exact hall c hdigit

theorem decimal_token (n : Nat) : Tokens.IsToken 44 (Decimal.decimal n) :=
  ⟨Decimal.decimal_ne_nil n, fun hmem => (decimal_plain hmem).2.2 rfl⟩

theorem render_plain {e : TraceEntry} (h : e.Plain) {c : UInt8} (hc : c ∈ e.render) : c ≠ 0 ∧ c ≠ 10 := by
  rw [TraceEntry.render, List.mem_append, List.mem_cons, List.mem_append, List.mem_cons] at hc
  rcases hc with hc | rfl | hc | rfl | hc
  · exact ⟨(h.word c hc).1, (h.word c hc).2.1⟩
  · decide
  · exact ⟨(decimal_plain hc).1, (decimal_plain hc).2.1⟩
  · decide
  · exact ⟨(decimal_plain hc).1, (decimal_plain hc).2.1⟩

/-- A written line is read back, with its newline or without. -/
theorem parseLine_render {e : TraceEntry} (h : e.Plain) {ending : List UInt8} (hending : ending = [10] ∨ ending = []) :
    parseLine (e.render ++ ending) = some e.line := by
  have hending' : ∀ c ∈ ending, c = 10 := by
    rcases hending with rfl | rfl
    · exact fun c hc => List.mem_singleton.mp hc
    · exact fun c hc => absurd hc List.not_mem_nil
  have hcstring : (e.render ++ ending).takeWhile (· ≠ 0) = e.render ++ ending := by
    rw [List.takeWhile_eq_self_iff]
    intro c hc
    rcases List.mem_append.mp hc with hc | hc
    · simpa using (render_plain h hc).1
    · rw [hending' c hc]
      decide
  have hoperation : strtok (e.render ++ ending) =
      some (e.operation, Decimal.decimal e.offset ++ 44 :: (Decimal.decimal e.size ++ ending)) := by
    rw [TraceEntry.render, List.append_assoc]
    simpa using strtok_comma ⟨h.ne_nil, fun hmem => (h.word 44 hmem).2.2 rfl⟩
      (Decimal.decimal e.offset ++ 44 :: (Decimal.decimal e.size ++ ending))
  have hoffset : strtok (Decimal.decimal e.offset ++ 44 :: (Decimal.decimal e.size ++ ending)) =
      some (Decimal.decimal e.offset, Decimal.decimal e.size ++ ending) :=
    strtok_comma (decimal_token _) _
  have hsize : strtok (Decimal.decimal e.size ++ ending) = some (Decimal.decimal e.size ++ ending, []) := by
    have htoken := decimal_token e.size
    refine strtok_last ⟨List.append_ne_nil_of_left_ne_nil htoken.ne_nil ending, fun hmem => ?_⟩
    rcases List.mem_append.mp hmem with hmem | hmem
    · exact htoken.not_mem hmem
    · exact absurd (hending' 44 hmem) (by decide)
  have hfirst : atol (Decimal.decimal e.offset) = some (e.offset : Int) := by
    have hnumber := @atol_decimal e.offset h.offset_lt [] fun c hc => by cases hc
    rwa [List.append_nil] at hnumber
  have hsecond : atol (Decimal.decimal e.size ++ ending) = some (e.size : Int) := by
    refine atol_decimal h.size_lt fun c hc => ?_
    rw [hending' c (List.mem_of_mem_head? hc)]
    decide
  rw [parseLine, hcstring, hoperation]
  simp only [Option.bind_eq_bind, Option.bind_some, hoffset, hfirst, hsize, hsecond]
  rfl

/-- The text of a trace; its last line may have no newline. -/
def IsTrace (entries : List TraceEntry) (text : List UInt8) : Prop :=
  text = entries.flatMap (fun e => e.render ++ [10]) ∨ text ++ [10] = entries.flatMap fun e => e.render ++ [10]

theorem getlines_line {line : List UInt8} (hline : 10 ∉ line) (text : List UInt8) :
    getlines (line ++ 10 :: text) = (line ++ [10]) :: getlines text := by
  induction line with
  | nil => exact if_pos rfl
  | cons c line ih =>
    have hc : c ≠ 10 := fun heq => hline (heq ▸ List.mem_cons_self)
    rw [List.cons_append, getlines, if_neg hc, ih fun hmem => hline (List.mem_cons_of_mem _ hmem)]
    rfl

theorem getlines_last {line : List UInt8} (hline : 10 ∉ line) (hne : line ≠ []) : getlines line = [line] := by
  induction line with
  | nil => exact absurd rfl hne
  | cons c line ih =>
    have hc : c ≠ 10 := fun heq => hline (heq ▸ List.mem_cons_self)
    rw [getlines, if_neg hc]
    by_cases hnil : line = []
    · rw [hnil]
      rfl
    · rw [ih (fun hmem => hline (List.mem_cons_of_mem _ hmem)) hnil]

/-- A line that says what the entry says, and is not too short. -/
def Says (line : List UInt8) (e : TraceEntry) : Prop := 4 ≤ line.length ∧ parseLine line = some e.line

theorem says_render {e : TraceEntry} (h : e.Plain) {ending : List UInt8} (hending : ending = [10] ∨ ending = []) :
    Says (e.render ++ ending) e := by
  refine ⟨?_, parseLine_render h hending⟩
  have hoperation := List.length_pos_of_ne_nil h.ne_nil
  have hoffset := List.length_pos_of_ne_nil (Decimal.decimal_ne_nil e.offset)
  have hsize := List.length_pos_of_ne_nil (Decimal.decimal_ne_nil e.size)
  rw [TraceEntry.render]
  simp only [List.length_append, List.length_cons]
  omega

/-- **The lines of a trace are read back one by one.** -/
theorem getlines_trace {entries : List TraceEntry} {text : List UInt8} (hplain : ∀ e ∈ entries, e.Plain)
    (h : IsTrace entries text) : List.Forall₂ Says (getlines text) entries := by
  induction entries generalizing text with
  | nil =>
    have hnil : text = [] := by
      rcases h with rfl | h
      · rfl
      · exact absurd h (by simp)
    rw [hnil]
    exact List.Forall₂.nil
  | cons e entries ih =>
    have he := hplain e List.mem_cons_self
    have hnewline : 10 ∉ e.render := fun hmem => (render_plain he hmem).2 rfl
    have hrest := fun text => @ih text fun e he => hplain e (List.mem_cons_of_mem _ he)
    have hfirst : ∀ text, IsTrace entries text → List.Forall₂ Says (getlines (e.render ++ 10 :: text)) (e :: entries) := by
      intro text htext
      rw [getlines_line hnewline]
      exact List.Forall₂.cons (says_render he (Or.inl rfl)) (hrest text htext)
    rcases h with rfl | h
    · rw [List.flatMap_cons, List.append_assoc]
      exact hfirst _ (Or.inl rfl)
    · rw [List.flatMap_cons, List.append_assoc] at h
      rcases List.eq_nil_or_concat (entries.flatMap fun e => e.render ++ [10]) with hnil | ⟨front, c, hconcat⟩
      · have htext : text = e.render := by
          rw [hnil] at h
          simpa using h
        have hentries : entries = [] := by
          cases entries with
          | nil => rfl
          | cons e' entries => simp at hnil
        subst htext hentries
        have hne : e.render ≠ [] := List.append_ne_nil_of_left_ne_nil he.ne_nil _
        rw [getlines_last hnewline hne]
        have hsays := says_render he (Or.inr rfl)
        rw [List.append_nil] at hsays
        exact List.Forall₂.cons hsays List.Forall₂.nil
      · rw [hconcat, List.concat_eq_append, ← List.append_assoc, ← List.append_assoc] at h
        obtain ⟨htext, hc⟩ := List.append_inj' h rfl
        obtain rfl : (10 : UInt8) = c := List.singleton_inj.mp hc
        rw [htext, List.append_assoc]
        refine hfirst front (Or.inr ?_)
        rw [hconcat, List.concat_eq_append]

/-! ## Calls -/

namespace TraceReplayer

open EStateM

variable (call : (Nat → Nat) → TraceLine → Option (Option LibCall)) (rand : Nat → Nat → Nat)

/-- The calls of the lines of a trace, from call `n` on. -/
def callsOf : List TraceEntry → Nat → List LibCall
  | [], _ => []
  | e :: entries, n =>
    match call (rand n) e.line with
    | some (some libCall) => libCall :: callsOf entries (n + 1)
    | _ => callsOf entries n

/-- The calls of a number of repetitions. -/
def repeatCalls (entries : List TraceEntry) : Nat → Nat → List LibCall
  | 0, _ => []
  | rep + 1, n =>
    callsOf replayCall rand entries n ++ repeatCalls entries rep (n + (callsOf replayCall rand entries n).length)

theorem callFor_line (word : List UInt8) (opType : OpType) (data : Nat → Option (List UInt8)) (e : TraceEntry) :
    callFor word opType data e.line =
      some (if e.operation = word then some ⟨opType, e.offset, e.size, data e.size⟩ else none) := by
  unfold callFor
  rw [TraceEntry.line_operation]
  by_cases hword : e.operation = word
  · rw [if_pos hword, if_pos hword, if_pos ⟨Int.natCast_nonneg _, Int.natCast_nonneg _⟩]
    rfl
  · rw [if_neg hword, if_neg hword]

theorem replayCall_line (r : Nat → Nat) (e : TraceEntry) :
    replayCall r e.line = some (if e.operation = writeWord then some ⟨.write, e.offset, e.size, randstring r e.size⟩
      else if e.operation = readWord then some ⟨.read, e.offset, e.size, randstring r e.size⟩ else none) := by
  unfold replayCall
  rw [callFor_line, callFor_line, TraceEntry.line_operation]
  by_cases hword : e.operation = writeWord
  · rw [if_pos hword, if_pos hword, if_pos hword]
  · rw [if_neg hword, if_neg hword]

variable [Wire] (conf : ConfigurationManager) (env : Env) (draws : Nat → Nat) (lh : LibHandler)

variable {call} in
/-- The loop over the lines makes the calls of the trace. -/
theorem eachLine_calls {short : Nat} (hshort : short ≤ 4) (hcall : ∀ r (e : TraceEntry), call r e.line ≠ none)
    {lines : List (List UInt8)} {entries : List TraceEntry} (h : List.Forall₂ Says lines entries) (n : Nat) :
    eachLine conf env draws rand lh short call lines n = lh.runAll conf env draws (callsOf call rand entries n) n := by
  induction h generalizing n with
  | nil => rfl
  | @cons line e lines entries hsays _ ih =>
    rw [eachLine, if_neg (not_lt.mpr (hshort.trans hsays.1)), hsays.2, Option.bind_some, callsOf]
    cases hline : call (rand n) e.line with
    | none => exact absurd hline (hcall _ _)
    | some found =>
      cases found with
      | none => exact ih n
      | some libCall =>
        refine bind_congr fun ran => ?_
        cases ran with
        | none => rfl
        | some ran => exact congrArg (fun rest => rest >>= fun rans => pure (rans.map (ran :: ·))) (ih (n + 1))

theorem runAll_length {calls : List LibCall} {n : Nat} {w w' : Backends} {rans : List Ran}
    (h : lh.runAll conf env draws calls n w = .ok (some rans) w') : rans.length = calls.length := by
  induction calls generalizing n w rans with
  | nil =>
    cases h
    rfl
  | cons c calls ih =>
    obtain ⟨ran, w₁, -, hrest⟩ := bind_eq_ok h
    cases ran with
    | none => cases (Result.ok.inj hrest).1
    | some ran =>
      obtain ⟨found, w₂, hrun, hpure⟩ := bind_eq_ok hrest
      cases found with
      | none => cases (Result.ok.inj hpure).1
      | some front =>
        obtain ⟨hfront, rfl⟩ := Result.ok.inj hpure
        rw [← Option.some.inj hfront, List.length_cons, List.length_cons, ih hrun]

/-- One run after the other. -/
theorem runAll_append (a b : List LibCall) (n : Nat) :
    lh.runAll conf env draws (a ++ b) n = (do
      match ← lh.runAll conf env draws a n with
      | none => return none
      | some rans => return (← lh.runAll conf env draws b (n + rans.length)).map (rans ++ ·)) := by
  induction a generalizing n with
  | nil =>
    simp [LibHandler.runAll]
  | cons c a ih =>
    rw [List.cons_append, LibHandler.runAll, LibHandler.runAll, bind_assoc]
    congr 1
    funext r
    cases r with
    | none => simp
    | some ran =>
      dsimp only
      rw [ih (n + 1), bind_assoc, bind_assoc]
      congr 1
      funext found
      cases found with
      | none => simp
      | some rans =>
        simp only [bind_assoc, pure_bind, Option.map_some, List.length_cons]
        rw [show n + 1 + rans.length = n + (rans.length + 1) by omega]
        congr 1
        funext rest
        cases rest with
        | none => rfl
        | some rest => rfl

theorem replayTrace_calls {entries : List TraceEntry} {text : List UInt8} (hplain : ∀ e ∈ entries, e.Plain)
    (h : IsTrace entries text) (rep n : Nat) :
    replayTrace conf env draws rand lh text rep n = lh.runAll conf env draws (repeatCalls rand entries rep n) n := by
  induction rep generalizing n with
  | zero => rfl
  | succ rep ih =>
    have hcall : ∀ r (e : TraceEntry), replayCall r e.line ≠ none := fun r e => by
      rw [replayCall_line]
      exact Option.some_ne_none _
    rw [replayTrace, repeatCalls, runAll_append, eachLine_calls rand conf env draws lh le_rfl hcall
      (getlines_trace hplain h)]
    funext w
    cases hrun : lh.runAll conf env draws (callsOf replayCall rand entries n) n w with
    | error fault w' => rw [bind_error hrun, bind_error hrun]
    | ok found w' =>
      rw [bind_ok hrun, bind_ok hrun]
      cases found with
      | none => rfl
      | some rans =>
        dsimp only
        rw [ih, runAll_length conf env draws lh hrun]

variable {entries : List TraceEntry} {text : List UInt8} (hplain : ∀ e ∈ entries, e.Plain) (h : IsTrace entries text)

include hplain h

theorem prepareData_calls (n : Nat) :
    prepareData conf env draws rand lh text n = lh.runAll conf env draws (callsOf prepareCall rand entries n) n := by
  refine eachLine_calls rand conf env draws lh (Nat.zero_le 4) (fun r e => ?_) (getlines_trace hplain h) n
  rw [prepareCall, callFor_line]
  exact Option.some_ne_none _

theorem cleanData_calls (n : Nat) :
    cleanData conf env draws rand lh text n = lh.runAll conf env draws (callsOf cleanCall rand entries n) n := by
  refine eachLine_calls rand conf env draws lh (Nat.zero_le 4) (fun r e => ?_) (getlines_trace hplain h) n
  rw [cleanCall, callFor_line]
  exact Option.some_ne_none _

end TraceReplayer

/-! ## Prepared data -/

section prepared

open TraceReplayer EStateM

variable {t : IoClientType} {m : Nat} {f : Nat → Option UInt8} {calls : List LibCall}

/-- A call that is admissible wherever the bytes of `f` are, and removes none. -/
def Steady (t : IoClientType) (m : Nat) (f : Nat → Option UInt8) (call : LibCall) : Prop :=
  call.opType ≠ .delete ∧ ∀ g : Nat → Option UInt8, (∀ o, (f o).isSome → (g o).isSome) → call.Admissible t m g

theorem after_keeps {call : LibCall} (hop : call.opType ≠ .delete) {o : Nat} (ho : (f o).isSome) :
    (call.after m f o).isSome := by
  obtain ⟨op, p, n, data⟩ := call
  cases op with
  | read => exact ho
  | delete => exact absurd rfl hop
  | write =>
    show (Segments.patch f p ((data.getD []).take n) o).isSome
    by_cases hin : p ≤ o ∧ o < p + ((data.getD []).take n).length
    · rw [Segments.patch_of_mem hin.1 hin.2, List.getElem?_eq_getElem (by omega)]
      rfl
    · rwa [Segments.patch_of_not_mem (by omega)]

theorem Steady.after {call call' : LibCall} (h : Steady t m f call') (hop : call.opType ≠ .delete) :
    Steady t m (call.after m f) call' :=
  ⟨h.1, fun g hg => h.2 g fun o ho => hg o (after_keeps hop ho)⟩

/-- Steady calls are admissible one after the other. -/
theorem allAdmissible_of_steady (h : ∀ call ∈ calls, Steady t m f call) : LibCall.AllAdmissible t m calls f := by
  induction calls generalizing f with
  | nil => trivial
  | cons call calls ih =>
    obtain ⟨hop, hadmissible⟩ := h call List.mem_cons_self
    exact ⟨hadmissible f fun _ ho => ho, ih fun call' hcall' => (h call' (List.mem_cons_of_mem _ hcall')).after hop⟩

theorem ideal_keeps (h : ∀ call ∈ calls, call.opType ≠ .delete) {o : Nat} (ho : (f o).isSome) :
    ((LibCall.ideal m calls f).2 o).isSome := by
  induction calls generalizing f with
  | nil => exact ho
  | cons call calls ih =>
    exact ih (fun call' hcall' => h call' (List.mem_cons_of_mem _ hcall')) (after_keeps (h call List.mem_cons_self) ho)

/-- What a run writes is there at its end. -/
theorem ideal_there (h : ∀ call ∈ calls, call.opType ≠ .delete) {call : LibCall} (hcall : call ∈ calls)
    (hop : call.opType = .write) (hdata : call.requestSize ≤ (call.data.getD []).length) :
    AllThere (LibCall.ideal m calls f).2 call.offset call.requestSize := by
  induction calls generalizing f with
  | nil => exact absurd hcall List.not_mem_nil
  | cons first calls ih =>
    have hrest : ∀ call' ∈ calls, call'.opType ≠ .delete := fun call' hcall' => h call' (List.mem_cons_of_mem _ hcall')
    rcases List.mem_cons.mp hcall with rfl | hcall
    · intro o hle hlt
      refine ideal_keeps hrest ?_
      have hlength : ((call.data.getD []).take call.requestSize).length = call.requestSize := by
        rw [List.length_take]
        omega
      rw [LibCall.after, hop]
      dsimp only
      rw [Segments.patch_of_mem hle (by omega), List.getElem?_eq_getElem (by omega)]
      rfl
    · exact ih hrest hcall

/-! ### The calls of a trace -/

theorem mem_callsOf {call : (Nat → Nat) → TraceLine → Option (Option LibCall)} {rand : Nat → Nat → Nat}
    {entries : List TraceEntry} {n : Nat} {c : LibCall} (hc : c ∈ callsOf call rand entries n) :
    ∃ e ∈ entries, ∃ r, call r e.line = some (some c) := by
  induction entries generalizing n with
  | nil => exact absurd hc List.not_mem_nil
  | cons e entries ih =>
    unfold callsOf at hc
    split at hc
    · rename_i libCall hline
      rcases List.mem_cons.mp hc with rfl | hc
      · exact ⟨e, List.mem_cons_self, _, hline⟩
      · obtain ⟨e', he', hcall⟩ := ih hc
        exact ⟨e', List.mem_cons_of_mem _ he', hcall⟩
    · obtain ⟨e', he', hcall⟩ := ih hc
      exact ⟨e', List.mem_cons_of_mem _ he', hcall⟩

theorem callsOf_mem {call : (Nat → Nat) → TraceLine → Option (Option LibCall)} (rand : Nat → Nat → Nat)
    {entries : List TraceEntry} {e : TraceEntry} (he : e ∈ entries) {c : (Nat → Nat) → LibCall}
    (hcall : ∀ r, call r e.line = some (some (c r))) (n : Nat) : ∃ r, c r ∈ callsOf call rand entries n := by
  induction entries generalizing n with
  | nil => exact absurd he List.not_mem_nil
  | cons first entries ih =>
    unfold callsOf
    rcases List.mem_cons.mp he with rfl | he
    · rw [hcall]
      exact ⟨rand n, List.mem_cons_self⟩
    · split
      · obtain ⟨r, hr⟩ := ih he (n + 1)
        exact ⟨r, List.mem_cons_of_mem _ hr⟩
      · exact ih he n

theorem mem_repeatCalls {rand : Nat → Nat → Nat} {entries : List TraceEntry} {rep n : Nat} {c : LibCall}
    (hc : c ∈ repeatCalls rand entries rep n) : ∃ e ∈ entries, ∃ r, replayCall r e.line = some (some c) := by
  induction rep generalizing n with
  | zero => exact absurd hc List.not_mem_nil
  | succ rep ih =>
    rcases List.mem_append.mp hc with hc | hc
    · exact mem_callsOf hc
    · exact ih hc

/-- What a trace reads and writes suits the client: at least one byte, inside `long`, the reads below 2 GiB; of a file
inside one chunk, of an object from the start of a chunk on. -/
structure Suits (t : IoClientType) (m : Nat) (e : TraceEntry) : Prop where
  pos : 0 < e.size
  long : e.offset + e.size < 2 ^ 63
  int : e.operation = readWord → e.size < 2 ^ 31
  fits : if t = .fileIo then e.offset % m + e.size ≤ m else m ∣ e.offset

theorem randstring_length (rand : Nat → Nat) (n : Nat) : n ≤ ((randstring rand n).getD []).length := by
  unfold randstring
  split_ifs with hzero
  · omega
  · simp

theorem Suits.writes {e : TraceEntry} (h : Suits t m e) (r : Nat → Nat) :
    Steady t m f ⟨.write, e.offset, e.size, randstring r e.size⟩ := by
  refine ⟨by simp, fun g _ => ⟨h.long, h.pos, randstring_length r e.size, ?_⟩⟩
  have hfits := h.fits
  unfold Writable
  split_ifs at hfits ⊢ with ht
  · exact hfits
  · exact Or.inl hfits

theorem Suits.reads {e : TraceEntry} (h : Suits t m e) (hop : e.operation = readWord)
    (hthere : AllThere f e.offset e.size) (r : Nat → Nat) :
    Steady t m f ⟨.read, e.offset, e.size, randstring r e.size⟩ := by
  refine ⟨by simp, fun g hg => ⟨h.long, h.int hop, fun o hle hlt => hg o (hthere o hle hlt), fun ht => ?_⟩⟩
  have hfits := h.fits
  rw [if_neg (by rw [ht]; decide)] at hfits
  exact Or.inl hfits

/-- A chunk that a line touches. -/
def TraceEntry.Touches (m : Nat) (e : TraceEntry) (s : Nat) : Prop := e.offset / m ≤ s ∧ s ≤ (e.offset + e.size - 1) / m

/-! ### The passes -/

/-- The calls of a replay are steady if its reads find their bytes. -/
theorem replay_steady {entries : List TraceEntry}
    (hsuits : ∀ e ∈ entries, e.operation = writeWord ∨ e.operation = readWord → Suits t m e)
    (hthere : ∀ e ∈ entries, e.operation = readWord → AllThere f e.offset e.size) {rand : Nat → Nat → Nat}
    {rep n : Nat} : ∀ c ∈ repeatCalls rand entries rep n, Steady t m f c := by
  intro c hc
  obtain ⟨e, he, r, hcall⟩ := mem_repeatCalls hc
  rw [replayCall_line] at hcall
  replace hcall := Option.some.inj hcall
  split_ifs at hcall with hwrite hread
  · obtain rfl := Option.some.inj hcall
    exact (hsuits e he (Or.inl hwrite)).writes r
  · obtain rfl := Option.some.inj hcall
    exact (hsuits e he (Or.inr hread)).reads hread (hthere e he hread) r

theorem mem_cleaning {rand : Nat → Nat → Nat} {entries : List TraceEntry} {n : Nat} {c : LibCall}
    (hc : c ∈ callsOf cleanCall rand entries n) :
    ∃ e ∈ entries, e.operation = writeWord ∧ c = ⟨.delete, e.offset, e.size, none⟩ := by
  obtain ⟨e, he, r, hcall⟩ := mem_callsOf hc
  rw [cleanCall, callFor_line] at hcall
  replace hcall := Option.some.inj hcall
  split_ifs at hcall with hwrite
  exact ⟨e, he, hwrite, (Option.some.inj hcall).symm⟩

/-- `clean_data` removes the chunks that the trace writes, and nothing else. -/
theorem cleanData_run [Wire] {conf : ConfigurationManager} {lh : LibHandler} (hlh : Emulator conf lh t m)
    {entries : List TraceEntry} {text : List UInt8} (hplain : ∀ e ∈ entries, e.Plain) (htrace : IsTrace entries text)
    (hsuits : ∀ e ∈ entries, e.operation = writeWord → Suits t m e) (env : Env) (draws : Nat → Nat)
    (rand : Nat → Nat → Nat) (n : Nat) (w : Backends) :
    ∃ cleaned w', cleanData conf env draws rand lh text n w = .ok (some cleaned) w' ∧
      (∀ e ∈ entries, e.operation = writeWord → ∀ s, e.Touches m s → w' t (objectId lh.file s) = none) ∧
      ∀ t' key, (∀ e ∈ entries, e.operation = writeWord → ∀ s, e.Touches m s → ¬ (t' = t ∧ key = objectId lh.file s)) →
        w' t' key = w t' key := by
  have hdeletes : ∀ c ∈ callsOf cleanCall rand entries n,
      c.opType = .delete ∧ 0 < c.requestSize ∧ c.offset + c.requestSize < 2 ^ 63 := by
    intro c hc
    obtain ⟨e, he, hwrite, rfl⟩ := mem_cleaning hc
    exact ⟨rfl, (hsuits e he hwrite).pos, (hsuits e he hwrite).long⟩
  obtain ⟨cleaned, hclean⟩ := runAll_deletes env hlh draws hdeletes n w
  refine ⟨cleaned, _, (congrFun (cleanData_calls rand conf env draws lh hplain htrace n) w).trans hclean, ?_, ?_⟩
  · intro e he hwrite s hs
    have hcall : ∀ r, cleanCall r e.line = some (some ⟨.delete, e.offset, e.size, none⟩) := by
      intro r
      rw [cleanCall, callFor_line, if_pos hwrite]
    obtain ⟨-, hmem⟩ := callsOf_mem rand he hcall n
    exact if_pos ⟨rfl, _, hmem, s, hs.1, hs.2, rfl⟩
  · intro t' key hkey
    refine if_neg ?_
    rintro ⟨rfl, c, hc, s, hle, hge, rfl⟩
    obtain ⟨e, he, hwrite, rfl⟩ := mem_cleaning hc
    exact hkey e he hwrite s ⟨hle, hge⟩ ⟨rfl, rfl⟩

end prepared

/-! ## A short trace -/

section short

open TraceReplayer

/-- Two bytes are written and read. -/
def twoLines : List TraceEntry := [⟨writeWord, 0, 2⟩, ⟨readWord, 0, 2⟩]

/-- The two lines, without a newline at the end. -/
def twoLinesText : List UInt8 := [87, 82, 73, 84, 69, 44, 48, 44, 50, 10, 82, 69, 65, 68, 44, 48, 44, 50]

theorem twoLines_plain : ∀ e ∈ twoLines, e.Plain := by
  intro e he
  rcases List.mem_pair.mp he with rfl | rfl
  · exact ⟨by decide, by simp [writeWord], by norm_num, by norm_num⟩
  · exact ⟨by decide, by simp [readWord], by norm_num, by norm_num⟩

theorem twoLines_suits : ∀ e ∈ twoLines, Suits .redisIo 4 e := by
  intro e he
  rcases List.mem_pair.mp he with rfl | rfl
  · exact ⟨by norm_num, by norm_num, fun _ => by norm_num, by decide⟩
  · exact ⟨by norm_num, by norm_num, fun _ => by norm_num, by decide⟩

theorem twoLines_text : IsTrace twoLines twoLinesText := Or.inr (by decide +kernel)

end short

end Symbios
