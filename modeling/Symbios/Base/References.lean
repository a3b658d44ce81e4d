import Mathlib.Data.List.Infix
import Mathlib.Data.List.TakeWhile

/-!
# References in a text

A reference is `$`, a name in braces, and nothing else: what the regular expression `\$\{.*?\}` matches. `search` finds
the first match, from the left and as short as possible; `.` is no line terminator. `replaceAll` puts an output in the
place of every match. Of a format string the output is `format`, by the rules of ECMAScript; what a group stands for
that the expression does not have is left to the implementation (`absent`). The text before a match starts behind the
match before it.
-/

namespace References

/-- A line feed or a carriage return. -/
def isLineTerminator (c : UInt8) : Bool := c = 10 || c = 13

/-- The reference to a name. -/
def reference (name : List UInt8) : List UInt8 := 36 :: 123 :: (name ++ [125])

/-! ## Search -/

/-- A match at the start of a text: the name, and what comes behind the reference. -/
def matchAt : List UInt8 → Option (List UInt8 × List UInt8)
  | c :: d :: s =>
    if c = 36 ∧ d = 123 then
      let name := s.takeWhile fun e => e ≠ 125 && !isLineTerminator e
      match s.drop name.length with
      | [] => none
      | e :: rest => if e = 125 then some (name, rest) else none
    else none
  | _ => none

/-- The first match: what comes before it, its name, and what comes behind it. -/
def search : List UInt8 → Option (List UInt8 × List UInt8 × List UInt8)
  | [] => none
  | c :: s =>
    match matchAt (c :: s) with
    | some (name, rest) => some ([], name, rest)
    | none => (search s).map fun found => (c :: found.1, found.2)

theorem matchAt_length {s name rest : List UInt8} (h : matchAt s = some (name, rest)) : rest.length < s.length := by
  unfold matchAt at h
  split at h
  next c d s =>
    dsimp only at h
    split_ifs at h
    split at h
    next => cases h
    next e rest' hdrop =>
      split_ifs at h
      cases h
      have hlength := congrArg List.length hdrop
      rw [List.length_drop, List.length_cons] at hlength
      simp only [List.length_cons]
      omega
  next => cases h

theorem search_length {s before name rest : List UInt8} (h : search s = some (before, name, rest)) :
    rest.length < s.length := by
  induction s generalizing before with
  | nil => cases h
  | cons c s ih =>
    rw [search] at h
    split at h
    next name' rest' hmatch =>
      cases h
      exact matchAt_length hmatch
    next =>
      obtain ⟨⟨before', name', rest'⟩, hfound, heq⟩ := Option.map_eq_some_iff.mp h
      cases heq
      exact (ih hfound).trans (Nat.lt_succ_self _)

/-! ## Replacement -/

/-- Every match is replaced by the output for its name, what is before it and what is behind it. -/
def replaceAll (output : List UInt8 → List UInt8 → List UInt8 → List UInt8) (s : List UInt8) : List UInt8 :=
  match _h : search s with
  | none => s
  | some (before, name, rest) => before ++ (output name before rest ++ replaceAll output rest)
termination_by s.length
decreasing_by exact search_length _h

def isDigit (c : UInt8) : Bool := 48 ≤ c && c ≤ 57

/-- The group of a format string: the only one is the whole match. -/
def group (absent : List UInt8 → List UInt8 → List UInt8) (whole digits : List UInt8) : List UInt8 :=
  if digits = [49] ∨ digits = [48, 49] then whole else absent digits whole

/-- The output of a format string for a match. -/
def format (absent : List UInt8 → List UInt8 → List UInt8) (whole before after : List UInt8) : List UInt8 → List UInt8
  | [] => []
  | c :: fmt =>
    if c = 36 then
      match fmt with
      | [] => [36]
      | d :: fmt' =>
        if d = 36 then 36 :: format absent whole before after fmt'
        else if d = 38 then whole ++ format absent whole before after fmt'
        else if d = 96 then before ++ format absent whole before after fmt'
        else if d = 39 then after ++ format absent whole before after fmt'
        else if isDigit d then
          match fmt' with
          | [] => group absent whole [d]
          | e :: fmt'' =>
            if isDigit e then group absent whole [d, e] ++ format absent whole before after fmt''
            else group absent whole [d] ++ format absent whole before after (e :: fmt'')
        else 36 :: format absent whole before after (d :: fmt')
    else c :: format absent whole before after fmt

/-! ## Texts with references -/

/-- A text without the start of a reference. -/
def Literal (t : List UInt8) : Prop := ¬ [36, 123] <:+: t

/-- A name without braces. -/
def BraceFree (name : List UInt8) : Prop := ∀ c ∈ name, c ≠ 123 ∧ c ≠ 125

/-- A name that the expression matches. -/
def Matchable (name : List UInt8) : Prop := ∀ c ∈ name, isLineTerminator c = false

instance (name : List UInt8) : Decidable (BraceFree name) := inferInstanceAs (Decidable (∀ c ∈ name, _))

instance (name : List UInt8) : Decidable (Matchable name) := inferInstanceAs (Decidable (∀ c ∈ name, _))

/-- A text with references: what is before the first, and each reference with what is behind it. -/
def render (text : List UInt8) (parts : List (List UInt8 × List UInt8)) : List UInt8 :=
  text ++ parts.flatMap fun part => reference part.1 ++ part.2

section search

variable {name s t : List UInt8}

theorem matchAt_none (h : ∀ rest, s ≠ 36 :: 123 :: rest) : matchAt s = none := by
  match s with
  | [] => rfl
  | [_] => rfl
  | c :: d :: rest =>
    have hne : ¬ (c = 36 ∧ d = 123) := by
      rintro ⟨rfl, rfl⟩
      exact h rest rfl
    exact if_neg hne

/-- A literal text is passed over, unless a reference starts with its last character. -/
theorem search_literal (ht : Literal t) (hlast : t.getLast? = some 36 → s.head? ≠ some 123) :
    search (t ++ s) = (search s).map fun found => (t ++ found.1, found.2) := by
  induction t with
  | nil => simp
  | cons c t ih =>
    have hrest : Literal t := fun h => ht (h.trans (List.suffix_cons c t).isInfix)
    have hnone : matchAt (c :: (t ++ s)) = none := by
      apply matchAt_none
      intro rest heq
      cases t with
      | nil =>
        rw [List.nil_append] at heq
        obtain ⟨rfl, hs⟩ := List.cons.inj heq
        exact hlast rfl (by rw [hs]; rfl)
      | cons d t =>
        obtain ⟨rfl, htail⟩ := List.cons.inj heq
        obtain ⟨rfl, -⟩ := List.cons.inj htail
        exact ht ⟨[], t, rfl⟩
    have hlast' : t.getLast? = some 36 → s.head? ≠ some 123 := by
      intro h
      apply hlast
      rw [List.getLast?_cons, h]
      rfl
    rw [List.cons_append, search, hnone, ih hrest hlast', Option.map_map]
    rfl

/-- The first reference is found. -/
theorem search_reference (hbrace : BraceFree name) (hname : Matchable name) :
    search (reference name ++ s) = some ([], name, s) := by
  have htake : (name ++ 125 :: s).takeWhile (fun e => e ≠ 125 && !isLineTerminator e) = name := by
    rw [List.takeWhile_append_of_pos]
    · simp
    · intro c hc
      simp [(hbrace c hc).2, hname c hc]
  have hmatch : matchAt (reference name ++ s) = some (name, s) := by
    rw [reference, List.cons_append, List.cons_append, List.append_assoc, List.singleton_append, matchAt,
      if_pos ⟨rfl, rfl⟩, htake]
    simp
  rw [reference, List.cons_append, search, ← List.cons_append, ← reference, hmatch]

/-- The first line break of a name. -/
theorem split_broken (hname : ¬ Matchable name) : ∃ front e back, name = front ++ e :: back ∧ Matchable front ∧
    isLineTerminator e = true := by
  induction name with
  | nil => exact absurd (fun c hc => absurd hc List.not_mem_nil) hname
  | cons c name ih =>
    by_cases hc : isLineTerminator c = true
    · exact ⟨[], c, name, rfl, fun c hc => absurd hc List.not_mem_nil, hc⟩
    · have hrest : ¬ Matchable name := fun h => hname (List.forall_mem_cons.mpr ⟨Bool.eq_false_iff.mpr hc, h⟩)
      obtain ⟨front, e, back, rfl, hfront, he⟩ := ih hrest
      exact ⟨c :: front, e, back, rfl, List.forall_mem_cons.mpr ⟨Bool.eq_false_iff.mpr hc, hfront⟩, he⟩

theorem matchAt_broken (hbrace : BraceFree name) (hname : ¬ Matchable name) : matchAt (reference name ++ s) = none := by
  obtain ⟨front, e, back, rfl, hfront, he⟩ := split_broken hname
  have hne : e ≠ 125 := by
    rintro rfl
    exact absurd he (by decide)
  have htext : front ++ e :: back ++ [125] ++ s = front ++ e :: (back ++ 125 :: s) := by simp
  have htake : (front ++ e :: (back ++ 125 :: s)).takeWhile (fun e => e ≠ 125 && !isLineTerminator e) = front := by
    rw [List.takeWhile_append_of_pos]
    · simp [he]
    · intro c hc
      simp [(hbrace c (List.mem_append_left _ hc)).2, hfront c hc]
  rw [reference, List.cons_append, List.cons_append, htext, matchAt, if_pos ⟨rfl, rfl⟩, htake]
  dsimp only
  rw [List.drop_left]
  exact if_neg hne

/-- The reference to a name with a line break is passed over. -/
theorem search_broken (hbrace : BraceFree name) (hname : ¬ Matchable name) :
    search (reference name ++ s) = (search s).map fun found => (reference name ++ found.1, found.2) := by
  have hbody : Literal (123 :: (name ++ [125])) := by
    rintro ⟨a, b, heq⟩
    cases a with
    | nil =>
      have hhead := (List.cons.inj heq).1
      exact absurd hhead (by decide)
    | cons c a =>
      have hmem : 123 ∈ name ++ [125] := by
        rw [← (List.cons.inj heq).2]
        simp
      rcases List.mem_append.mp hmem with hin | hlast
      · exact (hbrace 123 hin).1 rfl
      · exact absurd (List.mem_singleton.mp hlast) (by decide)
  have hlast : (123 :: (name ++ [125])).getLast? = some 36 → s.head? ≠ some 123 := by
    intro h
    rw [← List.cons_append, List.getLast?_concat] at h
    cases h
  have hnone := matchAt_broken (s := s) hbrace hname
  have hrest := search_literal hbody hlast
  rw [reference, List.cons_append] at hnone ⊢
  rw [search, hnone, hrest, Option.map_map]
  rfl

end search

section render

variable {output : List UInt8 → List UInt8 → List UInt8 → List UInt8} {text s name : List UInt8}
  {parts : List (List UInt8 × List UInt8)}

theorem render_cons (text name t : List UInt8) (parts : List (List UInt8 × List UInt8)) :
    render text ((name, t) :: parts) = text ++ (reference name ++ render t parts) := by
  rw [render, List.flatMap_cons, render, List.append_assoc]

/-- What may come behind a literal text. -/
theorem search_text (htext : Literal text) (parts : List (List UInt8 × List UInt8)) :
    search (render text parts) = (search (parts.flatMap fun part => reference part.1 ++ part.2)).map
      fun found => (text ++ found.1, found.2) := by
  apply search_literal htext
  intro _
  cases parts with
  | nil => simp
  | cons part parts => simp [reference]

/-- The names and the texts of a configuration. -/
def WellFormed (parts : List (List UInt8 × List UInt8)) : Prop := ∀ part ∈ parts, BraceFree part.1 ∧ Literal part.2

theorem search_render_cons {t : List UInt8} (htext : Literal text) (hbrace : BraceFree name) :
    search (render text ((name, t) :: parts)) =
      if Matchable name then some (text, name, render t parts)
      else (search (render t parts)).map fun found => (text ++ (reference name ++ found.1), found.2) := by
  rw [search_text htext, List.flatMap_cons, List.append_assoc, ← render]
  split_ifs with hname
  · rw [search_reference hbrace hname]
    simp
  · rw [search_broken hbrace hname, Option.map_map]
    rfl

/-- Without a name that matches nothing is found. -/
theorem search_render_none (htext : Literal text) (hparts : WellFormed parts)
    (hnames : ∀ part ∈ parts, ¬ Matchable part.1) : search (render text parts) = none := by
  induction parts generalizing text with
  | nil =>
    rw [search_text htext]
    rfl
  | cons part parts ih =>
    obtain ⟨⟨hbrace, ht⟩, hparts⟩ := List.forall_mem_cons.mp hparts
    obtain ⟨hname, hnames⟩ := List.forall_mem_cons.mp hnames
    rw [search_render_cons htext hbrace, if_neg hname, ih ht hparts hnames]
    rfl

/-- The first name that matches is found. -/
theorem search_render_some {us ws : List (List UInt8 × List UInt8)} {t : List UInt8} (htext : Literal text)
    (hparts : WellFormed (us ++ (name, t) :: ws)) (hus : ∀ part ∈ us, ¬ Matchable part.1) (hname : Matchable name) :
    search (render text (us ++ (name, t) :: ws)) = some (render text us, name, render t ws) := by
  induction us generalizing text with
  | nil =>
    obtain ⟨⟨hbrace, -⟩, -⟩ := List.forall_mem_cons.mp hparts
    rw [List.nil_append, search_render_cons htext hbrace, if_pos hname]
    simp [render]
  | cons part us ih =>
    obtain ⟨name', t'⟩ := part
    rw [List.cons_append] at hparts
    obtain ⟨⟨hbrace, ht⟩, hparts⟩ := List.forall_mem_cons.mp hparts
    obtain ⟨hpart, hus⟩ := List.forall_mem_cons.mp hus
    rw [List.cons_append, search_render_cons htext hbrace, if_neg hpart, ih ht hparts hus, Option.map_some, render_cons]

theorem replaceAll_of_none (h : search s = none) : replaceAll output s = s := by
  rw [replaceAll]
  split
  next => rfl
  next hfound => cases h.symm.trans hfound

theorem replaceAll_of_some {before rest : List UInt8} (h : search s = some (before, name, rest)) :
    replaceAll output s = before ++ (output name before rest ++ replaceAll output rest) := by
  rw [replaceAll]
  split
  next hfound => cases h.symm.trans hfound
  next hfound =>
    cases h.symm.trans hfound
    rfl

/-- What the search passes over stays, where the output does not depend on it. -/
theorem replaceAll_skip {x v : List UInt8} (h : search (x ++ s) = (search s).map fun found => (x ++ found.1, found.2)) :
    replaceAll (fun _ _ _ => v) (x ++ s) = x ++ replaceAll (fun _ _ _ => v) s := by
  cases hs : search s with
  | none =>
    rw [hs] at h
    rw [replaceAll_of_none h, replaceAll_of_none hs]
  | some found =>
    obtain ⟨before, name, rest⟩ := found
    rw [hs] at h
    rw [replaceAll_of_some h, replaceAll_of_some hs, List.append_assoc]

/-- Every reference whose name matches is replaced by the same output, and the others stay. -/
theorem replaceAll_render (v : List UInt8) (htext : Literal text) (hparts : WellFormed parts) :
    replaceAll (fun _ _ _ => v) (render text parts) =
      text ++ parts.flatMap fun part => (if Matchable part.1 then v else reference part.1) ++ part.2 := by
  induction parts generalizing text with
  | nil =>
    rw [replaceAll_of_none (search_render_none htext hparts (by simp))]
    rfl
  | cons part parts ih =>
    obtain ⟨name, t⟩ := part
    obtain ⟨⟨hbrace, ht⟩, hparts⟩ := List.forall_mem_cons.mp hparts
    rw [List.flatMap_cons]
    by_cases hname : Matchable name
    · have hfound := @search_render_cons _ _ parts t htext hbrace
      rw [if_pos hname] at hfound
      rw [replaceAll_of_some hfound, ih ht hparts, if_pos hname, List.append_assoc]
    · have hskip : search ((text ++ reference name) ++ render t parts) = (search (render t parts)).map
          fun found => ((text ++ reference name) ++ found.1, found.2) := by
        rw [List.append_assoc, ← render_cons, search_render_cons htext hbrace, if_neg hname]
        simp
      rw [render_cons, ← List.append_assoc, replaceAll_skip hskip, ih ht hparts, if_neg hname]
      simp

/-- A text that starts with something else than a `$`. -/
def Opens (s : List UInt8) : Prop := ∃ c rest, s = c :: rest ∧ c ≠ 36

theorem Opens.append (h : Opens s) (t : List UInt8) : Opens (s ++ t) := by
  obtain ⟨c, rest, rfl, hc⟩ := h
  exact ⟨c, rest ++ t, rfl, hc⟩

/-- The start of a text that no reference starts with stays. -/
theorem Opens.replaceAll (h : Opens s) : Opens (replaceAll output s) := by
  obtain ⟨c, tail, rfl, hc⟩ := h
  have hmatch : matchAt (c :: tail) = none := matchAt_none fun rest heq => hc (List.cons.inj heq).1
  cases hs : search (c :: tail) with
  | none =>
    rw [replaceAll_of_none hs]
    exact ⟨c, tail, rfl, hc⟩
  | some found =>
    have hsearch := hs
    rw [search, hmatch] at hsearch
    obtain ⟨⟨before, name, rest⟩, -, rfl⟩ := Option.map_eq_some_iff.mp hsearch
    rw [replaceAll_of_some hs]
    exact ⟨c, _, rfl, hc⟩

end render

/-! ## Format strings -/

/-- The characters that mean something behind a `$`. -/
def Special (d : UInt8) : Prop := d = 36 ∨ d = 38 ∨ d = 96 ∨ d = 39 ∨ isDigit d = true

/-- A format string that stands for itself. -/
def Plain (v : List UInt8) : Prop := ∀ d, [36, d] <:+: v → ¬ Special d

section format

variable {absent : List UInt8 → List UInt8 → List UInt8} {whole before after fmt : List UInt8} {c d : UInt8}

theorem Plain.tail (h : Plain (c :: fmt)) : Plain fmt :=
  fun d hd => h d (hd.trans (List.suffix_cons c fmt).isInfix)

theorem Plain.head (h : Plain (36 :: d :: fmt)) : ¬ Special d := h d ⟨[], fmt, rfl⟩

theorem Plain.cons (hc : c ≠ 36) (h : Plain fmt) : Plain (c :: fmt) := by
  intro d hd
  rcases List.infix_cons_iff.mp hd with hprefix | hinfix
  · obtain ⟨rest, hrest⟩ := hprefix
    exact absurd (List.cons.inj hrest).1.symm hc
  · exact h d hinfix

theorem Plain.dollar (hd : ¬ Special d) (h : Plain (d :: fmt)) : Plain (36 :: d :: fmt) := by
  intro d' hd'
  rcases List.infix_cons_iff.mp hd' with hprefix | hinfix
  · obtain ⟨rest, hrest⟩ := hprefix
    obtain rfl := (List.cons.inj (List.cons.inj hrest).2).1
    exact hd
  · exact h d' hinfix

theorem format_other (hc : c ≠ 36) :
    format absent whole before after (c :: fmt) = c :: format absent whole before after fmt := by
  rw [format.eq_def]
  dsimp only
  rw [if_neg hc]

theorem format_literal (hd : ¬ Special d) :
    format absent whole before after (36 :: d :: fmt) = 36 :: format absent whole before after (d :: fmt) := by
  unfold Special at hd
  push Not at hd
  obtain ⟨h₁, h₂, h₃, h₄, h₅⟩ := hd
  rw [format.eq_def]
  dsimp only
  rw [if_pos rfl, if_neg h₁, if_neg h₂, if_neg h₃, if_neg h₄, if_neg h₅]

theorem format_dollar :
    format absent whole before after (36 :: 36 :: fmt) = 36 :: format absent whole before after fmt := by
  rw [format.eq_def]
  dsimp only
  rw [if_pos rfl, if_pos rfl]

theorem format_plain {v : List UInt8} (h : Plain v) : format absent whole before after v = v := by
  induction v with
  | nil => rfl
  | cons c v ih =>
    by_cases hc : c = 36
    · subst hc
      cases v with
      | nil => rfl
      | cons d v => rw [format_literal h.head, ih h.tail]
    · rw [format_other hc, ih h.tail]

/-- What stands for the match before and behind it, and for its groups, cannot be mistaken for the format string. -/
theorem format_special (hbody : ∃ body, whole = 36 :: 123 :: body) (hbefore : Opens before) (hafter : Opens after)
    (habsent : ∀ digits, Opens (absent digits whole)) (hd : Special d) (hne : d ≠ 36) {e : UInt8} (he : e = 36 ∨ e = d)
    (r rest : List UInt8) : format absent whole before after (36 :: d :: fmt) ++ r ≠ 36 :: e :: rest := by
  have hbrace : e ≠ 123 := by
    rintro rfl
    rcases he with he | rfl
    · exact absurd he (by decide)
    · exact absurd hd (by unfold Special; decide)
  have hopens : ∀ {s : List UInt8} (t : List UInt8), Opens s → s ++ t ++ r ≠ 36 :: e :: rest := by
    rintro s t ⟨c, tail, rfl, hc⟩ heq
    exact hc (List.cons.inj heq).1
  have hwhole : ∀ t : List UInt8, whole ++ t ++ r ≠ 36 :: e :: rest := by
    intro t heq
    obtain ⟨body, rfl⟩ := hbody
    exact hbrace (List.cons.inj (List.cons.inj heq).2).1.symm
  have hgroup : ∀ digits t : List UInt8, group absent whole digits ++ t ++ r ≠ 36 :: e :: rest := by
    intro digits t
    unfold group
    split_ifs
    · exact hwhole t
    · exact hopens t (habsent digits)
  rw [format.eq_def]
  dsimp only
  rw [if_pos rfl, if_neg hne]
  split_ifs with h₁ h₂ h₃ h₄
  · exact hwhole _
  · exact hopens _ hbefore
  · exact hopens _ hafter
  · cases fmt with
    | nil => simpa using hgroup [d] []
    | cons f fmt =>
      dsimp only
      split_ifs
      · exact hgroup [d, f] _
      · exact hgroup [d] _
  · rcases hd with hd | hd | hd | hd | hd
    · exact absurd hd hne
    · exact absurd hd h₁
    · exact absurd hd h₂
    · exact absurd hd h₃
    · exact absurd hd h₄

/-- A run of dollars before a dollar starts with one. -/
theorem dollars_front (j : Nat) (t : List UInt8) : List.replicate j 36 ++ 36 :: t = 36 :: (List.replicate j 36 ++ t) := by
  rw [List.append_cons, ← List.replicate_succ', List.replicate_succ, List.cons_append]

/-- The output has no more dollars at its front than the format string. -/
theorem format_dollars (hbody : ∃ body, whole = 36 :: 123 :: body) (hbefore : Opens before) (hafter : Opens after)
    (habsent : ∀ digits, Opens (absent digits whole)) {r : List UInt8} (hr : Opens r) (s : List UInt8) :
    ∀ (k : Nat) (fmt : List UInt8), fmt.length ≤ k → ∀ j,
      format absent whole before after fmt ++ r ≠ 36 :: (List.replicate j 36 ++ (fmt ++ s)) := by
  obtain ⟨x, tail, rfl, hx⟩ := hr
  intro k
  induction k with
  | zero =>
    intro fmt hfmt j heq
    obtain rfl := List.length_eq_zero_iff.mp (Nat.le_zero.mp hfmt)
    exact hx (List.cons.inj heq).1
  | succ k ih =>
    intro fmt hfmt j heq
    cases fmt with
    | nil => exact hx (List.cons.inj heq).1
    | cons c fmt =>
      by_cases hc : c = 36
      · subst hc
        cases fmt with
        | nil =>
          have hrest := (List.cons.inj heq).2
          rw [List.singleton_append, dollars_front] at hrest
          exact hx (List.cons.inj hrest).1
        | cons d fmt =>
          by_cases hd : Special d
          · by_cases hdollar : d = 36
            · -- two dollars stand for one: one more is missing now
              subst hdollar
              rw [format_dollar] at heq
              apply ih fmt (by simp only [List.length_cons] at hfmt; omega) (j + 1)
              have hrest : format absent whole before after fmt ++ x :: tail =
                  List.replicate j 36 ++ 36 :: 36 :: (fmt ++ s) := (List.cons.inj heq).2
              rw [hrest, dollars_front, dollars_front]
              rfl
            · rw [List.cons_append, dollars_front] at heq
              exact format_special hbody hbefore hafter habsent hd hdollar (Or.inl rfl) _ _ heq
          · rw [format_literal hd] at heq
            have hdollar : d ≠ 36 := fun h => hd (Or.inl h)
            have hrest : format absent whole before after (d :: fmt) ++ x :: tail =
                List.replicate j 36 ++ 36 :: (d :: fmt ++ s) := (List.cons.inj heq).2
            rw [format_other hdollar, dollars_front] at hrest
            exact hdollar (List.cons.inj hrest).1
      · rw [format_other hc] at heq
        exact hc (List.cons.inj heq).1

/-- What is marked in a format string is not kept. -/
theorem format_active (hbody : ∃ body, whole = 36 :: 123 :: body) (hbefore : Opens before) (hafter : Opens after)
    (habsent : ∀ digits, Opens (absent digits whole)) {r : List UInt8} (hr : Opens r) (hd : Special d) (s : List UInt8) :
    format absent whole before after (36 :: d :: fmt) ++ r ≠ 36 :: d :: (fmt ++ s) := by
  by_cases hdollar : d = 36
  · subst hdollar
    rw [format_dollar]
    intro heq
    exact format_dollars hbody hbefore hafter habsent hr s fmt.length fmt le_rfl 0 (List.cons.inj heq).2
  · exact format_special hbody hbefore hafter habsent hd hdollar (Or.inr rfl) _ _

/-- A format string that its output repeats stands for itself. -/
theorem plain_of_format (hbody : ∃ body, whole = 36 :: 123 :: body) (hbefore : Opens before) (hafter : Opens after)
    (habsent : ∀ digits, Opens (absent digits whole)) {r s v : List UInt8} (hr : Opens r)
    (h : format absent whole before after v ++ r = v ++ s) : Plain v := by
  induction v with
  | nil => exact fun d hd => absurd (List.infix_nil.mp hd) (List.cons_ne_nil _ _)
  | cons c v ih =>
    by_cases hc : c = 36
    · subst hc
      cases v with
      | nil =>
        intro d hd
        have hlength := hd.length_le
        simp at hlength
      | cons d v =>
        have hd : ¬ Special d := fun hd => format_active hbody hbefore hafter habsent hr hd s h
        rw [format_literal hd] at h
        exact (ih (List.cons.inj h).2).dollar hd
    · rw [format_other hc] at h
      exact (ih (List.cons.inj h).2).cons hc

end format

end References
