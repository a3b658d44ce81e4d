import Mathlib

/-!
# Replacing a stored value without a lock

Two writers replace the value that a store has under one key. A writer looks at the value, makes its own from what it
finds, and puts it; with a store that keeps what it has (`clears`), it clears what it found before. The steps of the
two are interleaved in any order. What a writer finds (`found`) and what the store has at the end (`Run.final`) follow
from the order of the steps alone.
-/

namespace Replace

/-! ## The order of a history -/

section before

variable {ε : Type} [DecidableEq ε] {l : List ε} {x y e : ε}

/-- The event `x` comes before the first `y` of the history. -/
def Before (l : List ε) (x y : ε) : Prop := y ∈ l ∧ x ∈ l.takeWhile (· ≠ y)

instance : Decidable (Before l x y) := inferInstanceAs (Decidable (_ ∧ _))

theorem Before.mem (h : Before l x y) : x ∈ l ∧ y ∈ l := ⟨(List.takeWhile_sublist _).subset h.2, h.1⟩

theorem takeWhile_ne_append (h : y ∈ l) (r : List ε) : (l ++ r).takeWhile (· ≠ y) = l.takeWhile (· ≠ y) := by
  induction l with
  | nil => simp at h
  | cons a l ih =>
    by_cases hay : a = y
    · simp [hay]
    · have hmem : y ∈ l := by simpa [Ne.symm hay] using h
      simpa [hay] using ih hmem

/-- What was before `y` stays before it. -/
theorem before_concat (h : y ∈ l) : Before (l ++ [e]) x y ↔ Before l x y := by
  simp only [Before, takeWhile_ne_append h, List.mem_append, h, true_or, true_and]

theorem before_concat_ne (h : e ≠ y) : Before (l ++ [e]) x y ↔ Before l x y := by
  by_cases hy : y ∈ l
  · exact before_concat hy
  · have hnew : y ∉ l ++ [e] := by simp [hy, h.symm]
    exact ⟨fun hb => absurd hb.1 hnew, fun hb => absurd hb.1 hy⟩

/-- Everything is before an event that is new. -/
theorem before_concat_new (h : e ∉ l) : Before (l ++ [e]) x e ↔ x ∈ l := by
  have htake : (l ++ [e]).takeWhile (· ≠ e) = l := by
    rw [List.takeWhile_append_of_pos]
    · simp
    · intro a ha
      simpa using fun hae : a = e => h (hae ▸ ha)
  simp only [Before, htake, List.mem_append, List.mem_singleton, or_true, true_and]

theorem Before.irrefl : ¬ Before l x x := by
  intro h
  have hne := List.mem_takeWhile_imp h.2
  simp at hne

theorem Before.trans {z : ε} (hxy : Before l x y) (hyz : Before l y z) : Before l x z := by
  refine ⟨hyz.1, ?_⟩
  have htake : l.takeWhile (· ≠ y) = (l.takeWhile (· ≠ z)).takeWhile (· ≠ y) := by
    rw [← takeWhile_ne_append hyz.2 (l.dropWhile (· ≠ z)), List.takeWhile_append_dropWhile]
  have hx := hxy.2
  rw [htake] at hx
  exact (List.takeWhile_sublist _).subset hx

theorem before_total (hx : x ∈ l) (hy : y ∈ l) (hne : x ≠ y) : Before l x y ∨ Before l y x := by
  induction l with
  | nil => simp at hx
  | cons a l ih =>
    by_cases hax : a = x
    · exact .inl ⟨hy, by simp [hax, hne]⟩
    · by_cases hay : a = y
      · exact .inr ⟨hx, by simp [hay, Ne.symm hne]⟩
      · have hx' : x ∈ l := by simpa [Ne.symm hax] using hx
        have hy' : y ∈ l := by simpa [Ne.symm hay] using hy
        rcases ih hx' hy' with hb | hb
        · refine .inl ⟨hy, ?_⟩
          rw [List.takeWhile_cons_of_pos (by simpa using hay)]
          exact List.mem_cons_of_mem a hb.2
        · refine .inr ⟨hx, ?_⟩
          rw [List.takeWhile_cons_of_pos (by simpa using hax)]
          exact List.mem_cons_of_mem a hb.2

end before

/-! ## The writers -/

/-- The steps of a writer. -/
inductive Turn where
  | look | clear | put
deriving DecidableEq, Repr

/-- What a writer does next, and the value it has made. -/
inductive Phase (α : Type) where
  | look
  | clear (value : α)
  | put (value : α)
  | done (value : α)

/-- A store seen from one key. With `clears` a put is added to the values that are there and a writer that finds one
clears them first; without, a put replaces the value. -/
structure Store (σ α : Type) where
  values : σ → List α
  look : σ → Option α
  clear : σ → σ
  put : α → σ → σ
  clears : Bool
  look_eq : ∀ s, look s = (values s).head?
  values_clear : clears = true → ∀ s, values (clear s) = []
  values_put : ∀ v s, values (put v s) = if clears then values s ++ [v] else [v]

/-- The store and the two writers. -/
structure State (σ α : Type) where
  store : σ
  phase : Bool → Phase α

/-- Nobody has made a step. -/
def start {σ α : Type} (s : σ) : State σ α := ⟨s, fun _ => .look⟩

variable {σ α : Type} (S : Store σ α) (f : Bool → Option α → Option α)

/-- A step, where it is the next one of its writer. A writer that cannot make a value makes no step. -/
def move (c : State σ α) (e : Bool × Turn) : Option (State σ α) :=
  match e.2, c.phase e.1 with
  | .look, .look =>
    (f e.1 (S.look c.store)).map fun value =>
      ⟨c.store, Function.update c.phase e.1
        (if S.clears && (S.look c.store).isSome then .clear value else .put value)⟩
  | .clear, .clear value => some ⟨S.clear c.store, Function.update c.phase e.1 (.put value)⟩
  | .put, .put value => some ⟨S.put value c.store, Function.update c.phase e.1 (.done value)⟩
  | _, _ => none

/-- The steps of a history. -/
def perform (l : List (Bool × Turn)) (c : State σ α) : Option (State σ α) := l.foldlM (move S f) c

/-- Both writers are done. -/
def State.Complete (c : State σ α) : Prop := ∀ t, ∃ value, c.phase t = .done value

/-- What a writer finds, where the store has `old` at first and `v t` is the value writer `t` makes. -/
def found (old : Option α) (v : Bool → α) (l : List (Bool × Turn)) (t : Bool) : Option α :=
  if Before l (!t, .put) (t, .look) then some (v !t)
  else if Before l (!t, .clear) (t, .look) then none
  else old

/-- The value a writer has made. -/
def Phase.value : Phase α → Option α
  | .look => none
  | .clear value => some value
  | .put value => some value
  | .done value => some value

variable {S f} {s : σ} {l : List (Bool × Turn)} {c c' : State σ α}

/-- The histories from a store `s`. -/
inductive Run (S : Store σ α) (f : Bool → Option α → Option α) (s : σ) : List (Bool × Turn) → State σ α → Prop
  | start : Run S f s [] (start s)
  | step {l c e c'} : Run S f s l c → move S f c e = some c' → Run S f s (l ++ [e]) c'

theorem Run.perform {r : List (Bool × Turn)} (h : Run S f s l c) (hperform : perform S f r c = some c') : Run S f s (l ++ r) c' := by
  induction r generalizing l c with
  | nil =>
    cases hperform
    rwa [List.append_nil]
  | cons e r ih =>
    obtain ⟨d, hd, hrest⟩ := Option.bind_eq_some_iff.mp hperform
    have hnext := ih (h.step hd) hrest
    rwa [List.append_assoc] at hnext

/-- What a step does. -/
theorem move_cases {t : Bool} {op : Turn} (h : move S f c (t, op) = some c') :
    (op = .look ∧ c.phase t = .look ∧ ∃ value, f t (S.look c.store) = some value ∧
      c' = ⟨c.store, Function.update c.phase t
        (if S.clears && (S.look c.store).isSome then .clear value else .put value)⟩) ∨
    (op = .clear ∧ ∃ value, c.phase t = .clear value ∧
      c' = ⟨S.clear c.store, Function.update c.phase t (.put value)⟩) ∨
    (op = .put ∧ ∃ value, c.phase t = .put value ∧
      c' = ⟨S.put value c.store, Function.update c.phase t (.done value)⟩) := by
  unfold move at h
  split at h
  next hop hphase =>
    obtain ⟨value, hvalue, hc⟩ := Option.map_eq_some_iff.mp h
    exact .inl ⟨hop, hphase, value, hvalue, hc.symm⟩
  next value hop hphase => exact .inr (.inl ⟨hop, value, hphase, (Option.some.inj h).symm⟩)
  next value hop hphase => exact .inr (.inr ⟨hop, value, hphase, (Option.some.inj h).symm⟩)
  next => cases h

/-! ## What a history says about the state -/

variable {old : Option α} {v : Bool → α} {t : Bool}

/-- A writer that has looked keeps what it found. -/
theorem found_concat (h : (t, Turn.look) ∈ l) (e : Bool × Turn) : found old v (l ++ [e]) t = found old v l t := by
  simp only [found, before_concat h]

theorem mem_concat_other {op op' : Turn} : (!t, op') ∈ l ++ [(t, op)] ↔ (!t, op') ∈ l := by simp

/-- The steps of writer `t` in the history, by what it does next. -/
def Phase.At (S : Store σ α) (f : Bool → Option α → Option α) (old : Option α) (v : Bool → α) (l : List (Bool × Turn))
    (t : Bool) : Phase α → Prop
  | .look => ∀ op, (t, op) ∉ l
  | .clear _ => (t, .look) ∈ l ∧ (t, .clear) ∉ l ∧ (t, .put) ∉ l ∧ (S.clears && (found old v l t).isSome) = true ∧
      f t (found old v l t) = some (v t)
  | .put _ => (t, .look) ∈ l ∧ (t, .put) ∉ l ∧ ((t, .clear) ∈ l ↔ (S.clears && (found old v l t).isSome) = true) ∧
      f t (found old v l t) = some (v t)
  | .done _ => (t, .look) ∈ l ∧ (t, .put) ∈ l ∧ ((t, .clear) ∈ l ↔ (S.clears && (found old v l t).isSome) = true) ∧
      f t (found old v l t) = some (v t)

/-- The steps of the other writer change nothing of that. -/
theorem Phase.At.concat_other {phase : Phase α} (h : phase.At S f old v l (!t)) (op : Turn) :
    phase.At S f old v (l ++ [(t, op)]) (!t) := by
  cases phase with
  | look => exact fun op' hmem => h op' (mem_concat_other.mp hmem)
  | clear value =>
    have hfound : found old v (l ++ [(t, op)]) (!t) = found old v l !t := found_concat h.1 _
    simpa only [Phase.At, hfound, mem_concat_other] using h
  | put value =>
    have hfound : found old v (l ++ [(t, op)]) (!t) = found old v l !t := found_concat h.1 _
    simpa only [Phase.At, hfound, mem_concat_other] using h
  | done value =>
    have hfound : found old v (l ++ [(t, op)]) (!t) = found old v l !t := found_concat h.1 _
    simpa only [Phase.At, hfound, mem_concat_other] using h

/-- The state after a history, where the store has `old` at first and writer `t` makes `v t`. -/
structure History (S : Store σ α) (f : Bool → Option α → Option α) (old : Option α) (v : Bool → α)
    (l : List (Bool × Turn)) (c : State σ α) : Prop where
  phase : ∀ t, (c.phase t).At S f old v l t
  ordered : ∀ t op, op ≠ .look → (t, op) ∈ l → Before l (t, .look) (t, op)
  noPut : (∀ t, (t, .put) ∉ l) → S.values c.store = if ∃ t, (t, .clear) ∈ l then [] else old.toList
  onePut : ∀ t, (t, .put) ∈ l → (!t, .put) ∉ l →
    S.values c.store = if Before l (t, .put) (!t, .clear) then [] else [v t]
  bothPut : ∀ t, Before l (!t, .put) (t, .put) →
    S.values c.store = if S.clears ∧ ¬ Before l (!t, .put) (t, .clear) then [v !t, v t] else [v t]

/-- A writer that has not looked would find what the history says. -/
theorem History.look_eq (h : History S f old v l c) (hphase : c.phase t = .look) :
    S.look c.store = found old v (l ++ [(t, .look)]) t := by
  have hnone : ∀ op, (t, op) ∉ l := by
    have hat := h.phase t
    rwa [hphase] at hat
  simp only [found, before_concat_new (hnone .look), S.look_eq]
  by_cases hput : (!t, Turn.put) ∈ l
  · have hvalues := h.onePut (!t) hput (by simpa using hnone .put)
    have hnot : ¬ Before l (!t, .put) (!!t, .clear) := fun hb => hnone .clear (by simpa using hb.mem.2)
    rw [if_neg hnot] at hvalues
    rw [hvalues, if_pos hput]
    rfl
  · have hno : ∀ u, (u, Turn.put) ∉ l := by
      intro u
      rcases Bool.eq_or_eq_not u t with hu | hu
      · rw [hu]
        exact hnone .put
      · rwa [hu]
    have hclear : (∃ u, (u, Turn.clear) ∈ l) ↔ (!t, Turn.clear) ∈ l := by
      constructor
      · rintro ⟨u, hu⟩
        rcases Bool.eq_or_eq_not u t with hut | hut
        · exact absurd (hut ▸ hu) (hnone .clear)
        · rwa [← hut]
      · exact fun hu => ⟨_, hu⟩
    rw [h.noPut hno, if_neg hput]
    by_cases hcleared : (!t, Turn.clear) ∈ l
    · rw [if_pos (hclear.mpr hcleared), if_pos hcleared]
      rfl
    · rw [if_neg (mt hclear.mp hcleared), if_neg hcleared]
      cases old <;> rfl

/-- Before a step of one kind is what was before it, when a step of another kind is added. -/
theorem before_concat_op {op op' : Turn} (h : op ≠ op') (u : Bool) (x : Bool × Turn) :
    Before (l ++ [(t, op)]) x (u, op') ↔ Before l x (u, op') := before_concat_ne (by simp [h])

/-- A fact for the writer that makes the step and one for the other make a fact for both. -/
theorem forall_writers {P : Bool → Prop} (t : Bool) (hself : P t) (hother : P !t) : ∀ u, P u := by
  intro u
  rcases Bool.eq_or_eq_not u t with hu | hu
  · rwa [hu]
  · rwa [hu]

/-- A new step of a writer that has looked comes after the look. -/
theorem History.ordered_concat (h : History S f old v l c) (hlooked : (t, Turn.look) ∈ l) {op : Turn}
    (hnew : (t, op) ∉ l) : ∀ u op', op' ≠ .look → (u, op') ∈ l ++ [(t, op)] →
      Before (l ++ [(t, op)]) (u, .look) (u, op') := by
  intro u op' hop hmem
  by_cases hu : (u, op') ∈ l
  · exact (before_concat hu).mpr (h.ordered u op' hop hu)
  · have heq : (u, op') = (t, op) := by simpa [hu] using hmem
    rw [heq, Prod.mk.inj heq |>.1]
    exact (before_concat_new hnew).mpr hlooked

theorem History.concat_look (h : History S f old v l c) (hphase : c.phase t = .look)
    (hmade : f t (S.look c.store) = some (v t)) :
    History S f old v (l ++ [(t, .look)]) ⟨c.store, Function.update c.phase t
      (if S.clears && (S.look c.store).isSome then .clear (v t) else .put (v t))⟩ := by
  have hnone : ∀ op, (t, op) ∉ l := by
    have hat := h.phase t
    rwa [hphase] at hat
  have hput : ∀ u, (u, Turn.put) ∈ l ++ [(t, Turn.look)] ↔ (u, Turn.put) ∈ l := by simp
  have hclear : ∀ u, (u, Turn.clear) ∈ l ++ [(t, Turn.look)] ↔ (u, Turn.clear) ∈ l := by simp
  have hlook := h.look_eq hphase
  refine ⟨forall_writers t ?_ ?_, ?_, ?_, ?_, ?_⟩
  · dsimp only
    rw [hlook] at hmade ⊢
    rw [Function.update_self]
    split_ifs with hfound
    · exact ⟨by simp, mt (hclear t).mp (hnone .clear), mt (hput t).mp (hnone .put), hfound, hmade⟩
    · exact ⟨by simp, mt (hput t).mp (hnone .put),
        ⟨fun hmem => absurd ((hclear t).mp hmem) (hnone .clear), fun hsome => absurd hsome hfound⟩, hmade⟩
  · dsimp only
    rw [Function.update_of_ne (Bool.not_ne_self t)]
    exact (h.phase !t).concat_other .look
  · intro u op hop hmem
    rw [before_concat_op hop.symm]
    exact h.ordered u op hop (by simpa [hop] using hmem)
  · simpa only [hput, hclear] using h.noPut
  · intro u
    simp (disch := decide) only [hput, before_concat_op]
    exact h.onePut u
  · intro u
    simp (disch := decide) only [before_concat_op]
    exact h.bothPut u

theorem History.concat_clear (h : History S f old v l c) {value : α} (hphase : c.phase t = .clear value) :
    History S f old v (l ++ [(t, .clear)]) ⟨S.clear c.store, Function.update c.phase t (.put value)⟩ := by
  have hat := h.phase t
  rw [hphase] at hat
  obtain ⟨hlooked, hnew, hnoPut, hclears, hmade⟩ := hat
  have hput : ∀ u, (u, Turn.put) ∈ l ++ [(t, Turn.clear)] ↔ (u, Turn.put) ∈ l := by simp
  have hvalues : S.values (S.clear c.store) = [] := S.values_clear (Bool.and_eq_true_iff.mp hclears).1 _
  refine ⟨forall_writers t ?_ ?_, h.ordered_concat hlooked hnew, ?_, ?_, ?_⟩
  · dsimp only
    rw [Function.update_self]
    refine ⟨by simp [hlooked], mt (hput t).mp hnoPut, ?_, ?_⟩
    · rw [found_concat hlooked]
      exact ⟨fun _ => hclears, fun _ => by simp⟩
    · rwa [found_concat hlooked]
  · dsimp only
    rw [Function.update_of_ne (Bool.not_ne_self t)]
    exact (h.phase !t).concat_other .clear
  · intro _
    rw [if_pos ⟨t, by simp⟩, hvalues]
  · refine forall_writers t (fun hmem => absurd ((hput t).mp hmem) hnoPut) ?_
    intro hmem _
    rw [hput] at hmem
    rw [Bool.not_not, if_pos ((before_concat_new hnew).mpr hmem), hvalues]
  · refine forall_writers t ?_ ?_
    · intro hb
      rw [before_concat_op (by decide)] at hb
      exact absurd hb.mem.2 hnoPut
    · intro hb
      rw [before_concat_op (by decide), Bool.not_not] at hb
      exact absurd hb.mem.1 hnoPut

/-- A writer that clears what it finds puts its value into an empty store, unless the other one has put before. -/
theorem History.values_put (h : History S f old v l c) {value : α} (hphase : c.phase t = .put value)
    (hother : (!t, Turn.put) ∉ l) : S.values (S.put (v t) c.store) = [v t] := by
  have hat := h.phase t
  rw [hphase] at hat
  obtain ⟨hlooked, hnoPut, hcleared, -⟩ := hat
  rw [S.values_put]
  split_ifs with hclears
  · have hno : ∀ u, (u, Turn.put) ∉ l := forall_writers t hnoPut hother
    rw [h.noPut hno]
    split_ifs with hany
    · rfl
    · -- nobody has cleared, so the writer has found nothing, and there was nothing
      have hfound : found old v l t = old := by
        rw [found, if_neg fun hb => hother hb.mem.1, if_neg fun hb => hany ⟨_, hb.mem.1⟩]
      have hnothing : ¬ (S.clears && (found old v l t).isSome) = true := mt hcleared.mpr fun hmem => hany ⟨_, hmem⟩
      rw [hfound, hclears, Bool.true_and, Option.not_isSome_iff_eq_none] at hnothing
      rw [hnothing]
      rfl
  · rfl

theorem History.concat_put (h : History S f old v l c) (hphase : c.phase t = .put (v t)) :
    History S f old v (l ++ [(t, .put)]) ⟨S.put (v t) c.store, Function.update c.phase t (.done (v t))⟩ := by
  have hat := h.phase t
  rw [hphase] at hat
  obtain ⟨hlooked, hnoPut, hcleared, hmade⟩ := hat
  have hclear : ∀ u, (u, Turn.clear) ∈ l ++ [(t, Turn.put)] ↔ (u, Turn.clear) ∈ l := by simp
  have hself : (t, Turn.put) ∈ l ++ [(t, Turn.put)] := by simp
  refine ⟨forall_writers t ?_ ?_, h.ordered_concat hlooked hnoPut, fun hno => absurd hself (hno t), forall_writers t ?_ ?_, forall_writers t ?_ ?_⟩
  · dsimp only
    rw [Function.update_self]
    refine ⟨by simp [hlooked], hself, ?_, ?_⟩
    · rwa [found_concat hlooked, hclear]
    · rwa [found_concat hlooked]
  · dsimp only
    rw [Function.update_of_ne (Bool.not_ne_self t)]
    exact (h.phase !t).concat_other .put
  · intro _ hother
    have hbefore : ¬ Before (l ++ [(t, Turn.put)]) (t, .put) (!t, .clear) := by
      rw [before_concat_op (by decide)]
      exact fun hb => hnoPut hb.mem.1
    rw [if_neg hbefore]
    exact h.values_put hphase (mt mem_concat_other.mpr hother)
  · intro _ hother
    exact absurd hself (by simpa only [Bool.not_not] using hother)
  · intro hb
    have hother : (!t, Turn.put) ∈ l := (before_concat_new hnoPut).mp hb
    have hvalues := h.onePut (!t) hother (by rwa [Bool.not_not])
    rw [Bool.not_not] at hvalues
    simp (disch := decide) only [before_concat_op, S.values_put, hvalues]
    by_cases hclears : S.clears = true
    · by_cases hbefore : Before l (!t, .put) (t, .clear)
      · simp [hbefore]
      · simp [hclears, hbefore]
    · simp [hclears]
  · intro hb
    rw [Bool.not_not, before_concat_ne (by simp)] at hb
    exact absurd hb.mem.1 hnoPut

/-! ## Whole histories -/

/-- Every history says what the state after it is. -/
theorem Run.history (hold : S.values s = old.toList) (h : Run S f s l c)
    (hv : ∀ t value, (c.phase t).value = some value → v t = value) : History S f old v l c := by
  induction h with
  | start => exact ⟨fun t op => by simp, fun t op _ hmem => by simp at hmem, fun _ => by simp [Replace.start, hold], fun t ht => by simp at ht,
      fun t hb => by simpa using hb.1⟩
  | @step l c e c' _ hmove ih =>
    obtain ⟨t, op⟩ := e
    -- the values that are made by then are made by now
    have hother : ∀ phase, c'.phase = Function.update c.phase t phase →
        ∀ value, (c.phase !t).value = some value → v (!t) = value := by
      intro phase hphase value hvalue
      apply hv
      rwa [hphase, Function.update_of_ne (Bool.not_ne_self t)]
    rcases move_cases hmove with ⟨rfl, hphase, value, hmade, rfl⟩ | ⟨rfl, value, hphase, rfl⟩ |
      ⟨rfl, value, hphase, rfl⟩
    · have hvalue : v t = value := by
        apply hv
        simp only [Function.update_self]
        split_ifs <;> rfl
      have hbefore := ih (forall_writers t (by simp [hphase, Phase.value]) (hother _ rfl))
      rw [← hvalue] at hmade ⊢
      exact hbefore.concat_look hphase hmade
    · have hvalue : v t = value := by
        apply hv
        simp [Phase.value]
      exact (ih (forall_writers t (by simp [hphase, Phase.value, hvalue]) (hother _ rfl))).concat_clear hphase
    · have hvalue : v t = value := by
        apply hv
        simp [Phase.value]
      have hbefore := ih (forall_writers t (by simp [hphase, Phase.value, hvalue]) (hother _ rfl))
      rw [← hvalue] at hphase ⊢
      exact hbefore.concat_put hphase

/-- A writer that looks after the other one has put finds the value that one has made of the old one. -/
theorem History.found_serial (h : History S f old v l c) {b : Bool} (hput : (!b, Turn.put) ∈ l)
    (hserial : Before l (!b, .put) (b, .look)) : found old v l b = some (v !b) ∧ found old v l (!b) = old := by
  refine ⟨if_pos hserial, ?_⟩
  -- a step of `b` before the other one looks would come before its own look
  have hno : ∀ op, op ≠ .look → ¬ Before l (b, op) (!b, .look) := by
    intro op hop hb
    have hcycle := (h.ordered b op hop hb.mem.1).trans (hb.trans ((h.ordered (!b) .put (by decide) hput).trans hserial))
    exact hcycle.irrefl
  rw [found, Bool.not_not, if_neg (hno .put (by decide)), if_neg (hno .clear (by decide))]

/-- When both writers are done, each has made its value of what it found, and the store has the value of the one that
put last; a store that keeps what it has has the other one too, unless the last writer cleared it. A last writer that
looks after the other one has put leaves what the two leave one after the other. -/
theorem Run.final (hold : S.values s = old.toList) (h : Run S f s l c) (hdone : c.Complete) :
    ∃ b v, Before l (!b, .put) (b, .put) ∧ (∀ t, f t (found old v l t) = some (v t)) ∧
      S.values c.store = (if S.clears ∧ ¬ Before l (!b, .put) (b, .clear) then [v !b, v b] else [v b]) ∧
      (Before l (!b, .put) (b, .look) →
        f (!b) old = some (v !b) ∧ f b (some (v !b)) = some (v b) ∧ S.values c.store = [v b]) := by
  choose v hphase using hdone
  have hhistory : History S f old v l c := h.history hold fun t value hvalue => by
    rw [hphase t] at hvalue
    exact Option.some.inj hvalue
  have hat : ∀ t, (Phase.done (v t)).At S f old v l t := by
    intro t
    rw [← hphase t]
    exact hhistory.phase t
  have hlast : ∃ b, Before l (!b, Turn.put) (b, Turn.put) := by
    rcases before_total (hat false).2.1 (hat true).2.1 (by decide) with hb | hb
    · exact ⟨true, hb⟩
    · exact ⟨false, hb⟩
  obtain ⟨b, hb⟩ := hlast
  have hvalues := hhistory.bothPut b hb
  refine ⟨b, v, hb, fun t => (hat t).2.2.2, hvalues, ?_⟩
  intro hserial
  obtain ⟨hself, hother⟩ := hhistory.found_serial hb.mem.1 hserial
  refine ⟨by simpa only [hother] using (hat !b).2.2.2, by simpa only [hself] using (hat b).2.2.2, ?_⟩
  rw [hvalues, if_neg]
  rintro ⟨hclears, hbefore⟩
  have hcleared : (b, Turn.clear) ∈ l := (hat b).2.2.1.mpr (by simp [hclears, hself])
  exact hbefore (hserial.trans (hhistory.ordered b .clear (by decide) hcleared))

end Replace
