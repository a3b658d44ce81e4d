import Symbios.Base.Markers
import Symbios.Model.Configuration

/-!
# Environment expansion

`replaceEnvVariable` looks up the first reference only and puts its value in the place of all of them, as a format
string. For which names and environments that expands every reference to its own value, whatever the text around them
is, is `PerVariable` (`expands_iff`).
-/

namespace Symbios

open References ConfigurationManager

/-- What a configuration string should become: each reference the value of its own variable. -/
def expand (getenv : List UInt8 → Option (List UInt8)) (text : List UInt8) (parts : List (List UInt8 × List UInt8)) :
    List UInt8 := text ++ parts.flatMap fun part => (getenv part.1).getD [] ++ part.2

/-- A configuration string is expanded if all its names are defined, and otherwise refused. -/
def ExpandsTo (absent : List UInt8 → List UInt8 → List UInt8) (getenv : List UInt8 → Option (List UInt8))
    (text : List UInt8) (parts : List (List UInt8 × List UInt8)) : Prop :=
  if ∀ part ∈ parts, (getenv part.1).isSome then
    replaceEnvVariable absent getenv (render text parts) = .ok (expand getenv text parts)
  else ∃ name, replaceEnvVariable absent getenv (render text parts) = .error (undefinedEnvVariable, name)

/-- So is every string with these names, whatever the literal text around them is, and whatever an implementation does
where the rules for format strings leave it free. -/
def Expands (getenv : List UInt8 → Option (List UInt8)) (names : List (List UInt8)) : Prop :=
  ∀ absent text parts, Literal text → (∀ part ∈ parts, Literal part.2) → parts.map Prod.fst = names →
    ExpandsTo absent getenv text parts

/-- If all names are defined, those without a line break have one value, in which no `$` means anything, and one with a
line break is its own value. If not, the first name without a line break is there and not defined. -/
def PerVariable (getenv : List UInt8 → Option (List UInt8)) (names : List (List UInt8)) : Prop :=
  if ∀ name ∈ names, (getenv name).isSome then
    (∀ name ∈ names, ¬ Matchable name → getenv name = some (reference name)) ∧
      ∃ v, Plain v ∧ ∀ name ∈ names, Matchable name → getenv name = some v
  else ∃ name, names.find? (fun name => Matchable name) = some name ∧ getenv name = none

section steps

variable {absent : List UInt8 → List UInt8 → List UInt8} {getenv : List UInt8 → Option (List UInt8)}
  {s before name rest : List UInt8}

theorem variableSet_of_some (h : search s = some (before, name, rest)) : variableSet s = [name] := by
  have hname : ((reference name).drop 2).take ((reference name).length - 3) = name := by
    simp [reference]
  rw [variableSet, h]
  dsimp only
  rw [List.map_cons, List.map_singleton, hname]
  simp [List.dedup_cons_of_mem]

theorem replaceEnvVariable_none (h : search s = none) : replaceEnvVariable absent getenv s = .ok s := by
  rw [replaceEnvVariable, variableSet, h]
  rfl

theorem replaceEnvVariable_undefined (h : search s = some (before, name, rest)) (hname : getenv name = none) :
    replaceEnvVariable absent getenv s = .error (undefinedEnvVariable, name) := by
  rw [replaceEnvVariable, variableSet_of_some h, List.foldlM_cons, hname]
  rfl

theorem replaceEnvVariable_some (h : search s = some (before, name, rest)) {v : List UInt8} (hname : getenv name = some v) :
    replaceEnvVariable absent getenv s =
      .ok (replaceAll (fun found before rest => format absent (reference found) before rest v) s) := by
  rw [replaceEnvVariable, variableSet_of_some h, List.foldlM_cons, hname]
  rfl

end steps

section expands

variable {getenv : List UInt8 → Option (List UInt8)} {names : List (List UInt8)} {name : List UInt8}
  {parts : List (List UInt8 × List UInt8)}

/-- The parts up to the first name that matches. -/
theorem find?_parts (hnames : parts.map Prod.fst = names) :
    (names.find? (fun name => Matchable name) = none ∧ ∀ part ∈ parts, ¬ Matchable part.1) ∨
      ∃ us name t ws, names.find? (fun name => Matchable name) = some name ∧ parts = us ++ (name, t) :: ws ∧
        Matchable name ∧ ∀ part ∈ us, ¬ Matchable part.1 := by
  subst hnames
  rw [List.find?_map]
  cases hfind : parts.find? ((fun name => decide (Matchable name)) ∘ Prod.fst) with
  | none =>
    left
    rw [List.find?_eq_none] at hfind
    exact ⟨rfl, fun part hpart hmatch => hfind part hpart (by simpa using hmatch)⟩
  | some part =>
    obtain ⟨name, t⟩ := part
    obtain ⟨hmatch, us, ws, rfl, hus⟩ := List.find?_eq_some_iff_append.mp hfind
    exact Or.inr ⟨us, name, t, ws, rfl, rfl, by simpa using hmatch, fun part hpart => by simpa using hus part hpart⟩

theorem wellFormed_of (hbrace : ∀ name ∈ names, BraceFree name) (hnames : parts.map Prod.fst = names)
    (hliteral : ∀ part ∈ parts, Literal part.2) : WellFormed parts := by
  subst hnames
  exact fun part hpart => ⟨hbrace part.1 (List.mem_map_of_mem hpart), hliteral part hpart⟩

/-- A value in which nothing is marked is put in as it is. -/
theorem replaceAll_plain {v text : List UInt8} (hv : Plain v) (absent : List UInt8 → List UInt8 → List UInt8)
    (htext : Literal text) (hparts : WellFormed parts) :
    replaceAll (fun found before rest => format absent (reference found) before rest v) (render text parts) =
      text ++ parts.flatMap fun part => (if Matchable part.1 then v else reference part.1) ++ part.2 := by
  have hconst : (fun found before rest => format absent (reference found) before rest v) = fun _ _ _ => v := by
    funext found before rest
    exact format_plain hv
  rw [hconst, replaceAll_render v htext hparts]

theorem forall_isSome_map (hnames : parts.map Prod.fst = names) :
    (∀ part ∈ parts, (getenv part.1).isSome) ↔ ∀ name ∈ names, (getenv name).isSome := by
  subst hnames
  simp

theorem flatMap_values {f g : List UInt8 × List UInt8 → List UInt8} (h : ∀ part ∈ parts, f part = g part) :
    parts.flatMap f = parts.flatMap g := by
  rw [List.flatMap_def, List.flatMap_def, List.map_congr_left h]

/-- The condition is enough, for every string. -/
theorem PerVariable.expandsTo (hbrace : ∀ name ∈ names, BraceFree name) (h : PerVariable getenv names)
    (absent : List UInt8 → List UInt8 → List UInt8) {text : List UInt8} (htext : Literal text)
    (hliteral : ∀ part ∈ parts, Literal part.2) (hnames : parts.map Prod.fst = names) :
    ExpandsTo absent getenv text parts := by
  have hparts := wellFormed_of hbrace hnames hliteral
  have hdefined : (∀ part ∈ parts, (getenv part.1).isSome) ↔ ∀ name ∈ names, (getenv name).isSome :=
    forall_isSome_map hnames
  unfold ExpandsTo
  unfold PerVariable at h
  by_cases hall : ∀ name ∈ names, (getenv name).isSome
  · rw [if_pos hall] at h
    rw [if_pos (hdefined.mpr hall)]
    obtain ⟨hbroken, v, hv, hvalue⟩ := h
    have hvalues : ∀ part ∈ parts, (if Matchable part.1 then v else reference part.1) ++ part.2 =
        (getenv part.1).getD [] ++ part.2 := by
      intro part hpart
      have hmem : part.1 ∈ names := hnames ▸ List.mem_map_of_mem hpart
      split_ifs with hmatch
      · rw [hvalue _ hmem hmatch, Option.getD_some]
      · rw [hbroken _ hmem hmatch, Option.getD_some]
    rcases find?_parts hnames with ⟨-, hnone⟩ | ⟨us, name, t, ws, hfind, rfl, hmatch, hus⟩
    · rw [replaceEnvVariable_none (search_render_none htext hparts hnone), expand, render, ← flatMap_values hvalues]
      congr 2
      exact flatMap_values fun part hpart => by rw [if_neg (hnone part hpart)]
    · have hmem : name ∈ names := hnames ▸ List.mem_map_of_mem (f := Prod.fst) (by simp : (name, t) ∈ us ++ (name, t) :: ws)
      rw [replaceEnvVariable_some (search_render_some htext hparts hus hmatch) (hvalue name hmem hmatch),
        replaceAll_plain hv absent htext hparts, expand, flatMap_values hvalues]
  · rw [if_neg hall] at h
    rw [if_neg (fun hparts => hall (hdefined.mp hparts))]
    obtain ⟨name, hname, hundefined⟩ := h
    rcases find?_parts hnames with ⟨hnone, -⟩ | ⟨us, name', t, ws, hfind, rfl, hmatch, hus⟩
    · rw [hnone] at hname
      cases hname
    · obtain rfl := Option.some.inj (hfind.symm.trans hname)
      exact ⟨name', replaceEnvVariable_undefined (search_render_some htext hparts hus hmatch) hundefined⟩

/-! ## Marked strings -/

/-- The references to the names with a run of `c` behind each. -/
def marked (n : Nat) (c : UInt8) (names : List (List UInt8)) : List (List UInt8 × List UInt8) :=
  names.map fun name => (name, List.replicate n c)

theorem marked_names (n : Nat) (c : UInt8) (names : List (List UInt8)) : (marked n c names).map Prod.fst = names := by
  rw [marked, List.map_map]
  exact List.map_id names

theorem literal_replicate {c : UInt8} (hc : c ≠ 36) (n : Nat) : Literal (List.replicate n c) := by
  intro h
  have hmem : (36 : UInt8) ∈ List.replicate n c := h.subset List.mem_cons_self
  exact hc (List.eq_of_mem_replicate hmem).symm

theorem literal_marked {c : UInt8} (hc : c ≠ 36) (n : Nat) (names : List (List UInt8)) :
    ∀ part ∈ marked n c names, Literal part.2 := by
  intro part hpart
  obtain ⟨name, -, rfl⟩ := List.mem_map.mp hpart
  exact literal_replicate hc n

theorem opens_replicate {c : UInt8} (hc : c ≠ 36) (n : Nat) : Opens (List.replicate (n + 1) c) :=
  ⟨c, List.replicate n c, List.replicate_succ, hc⟩

theorem flatMap_marked (f : List UInt8 → List UInt8) (n : Nat) (c : UInt8) (names : List (List UInt8)) :
    (marked n c names).flatMap (fun part => f part.1 ++ part.2) = names.flatMap fun name => f name ++ List.replicate n c := by
  rw [marked, List.flatMap_map]

/-- The expansion of a string with marks. -/
theorem Expands.replaced (h : Expands getenv names) (hdefined : ∀ name ∈ names, (getenv name).isSome) {c : UInt8}
    (hc : c ≠ 36) (n : Nat) (absent : List UInt8 → List UInt8 → List UInt8) :
    replaceEnvVariable absent getenv (render (List.replicate n c) (marked n c names)) =
      .ok (expand getenv (List.replicate n c) (marked n c names)) := by
  have hmarked := h absent (List.replicate n c) (marked n c names) (literal_replicate hc n) (literal_marked hc n names)
    (marked_names n c names)
  unfold ExpandsTo at hmarked
  rwa [if_pos ((forall_isSome_map (marked_names n c names)).mpr hdefined)] at hmarked

/-- A bound for the lengths of the names and their values. -/
theorem exists_bound (l : List (List UInt8)) (f : List UInt8 → List UInt8) : ∃ n, ∀ a ∈ l, (f a).length ≤ n := by
  refine ⟨(l.map fun a => (f a).length).sum, fun a ha => ?_⟩
  exact List.single_le_sum (by simp) _ (List.mem_map_of_mem ha)

theorem mark_ne {c : UInt8} (hc : c = 120 ∨ c = 121) : c ≠ 36 := by
  rcases hc with rfl | rfl <;> decide

/-- What is put in the place of the references can be read off the strings with marks. -/
theorem Expands.values_eq (h : Expands getenv names) (hdefined : ∀ name ∈ names, (getenv name).isSome)
    {out : List UInt8 → List UInt8}
    (hout : ∀ n c, c ≠ 36 → replaceEnvVariable (fun _ _ => []) getenv (render (List.replicate n c) (marked n c names)) =
      .ok (List.replicate n c ++ (marked n c names).flatMap fun part => out part.1 ++ part.2)) :
    ∀ name ∈ names, out name = (getenv name).getD [] := by
  obtain ⟨n₁, hn₁⟩ := exists_bound names out
  obtain ⟨n₂, hn₂⟩ := exists_bound names fun name => (getenv name).getD []
  refine (Markers.parts_eq (x := (120 : UInt8)) (y := 121) (n := n₁ + n₂) (by decide)
    (fun name hname => (hn₁ name hname).trans (Nat.le_add_right _ _))
    (fun name hname => (hn₂ name hname).trans (Nat.le_add_left _ _)) (r := fun _ => []) (s := fun _ => [])
    fun c hc => ?_).1
  have hexpand := h.replaced hdefined (mark_ne hc) (n₁ + n₂) fun _ _ => []
  rw [hout _ _ (mark_ne hc), Except.ok.injEq, expand] at hexpand
  have hparts := List.append_cancel_left hexpand
  rw [flatMap_marked, flatMap_marked fun name => (getenv name).getD []] at hparts
  rw [hparts]

theorem wellFormed_marked (hbrace : ∀ name ∈ names, BraceFree name) {c : UInt8} (hc : c ≠ 36) (n : Nat) :
    WellFormed (marked n c names) :=
  wellFormed_of hbrace (marked_names n c names) (literal_marked hc n names)

/-- Where no name matches the string stays as it is, so every reference has to be its own value. -/
theorem Expands.broken (hbrace : ∀ name ∈ names, BraceFree name) (h : Expands getenv names)
    (hdefined : ∀ name ∈ names, (getenv name).isSome) (hnone : ∀ name ∈ names, ¬ Matchable name) :
    ∀ name ∈ names, reference name = (getenv name).getD [] := by
  apply h.values_eq hdefined
  intro n c hc
  apply replaceEnvVariable_none
  apply search_render_none (literal_replicate hc n) (wellFormed_marked hbrace hc n)
  intro part hpart
  obtain ⟨name, hname, rfl⟩ := List.mem_map.mp hpart
  exact hnone name hname

/-- The first name that matches, among marks. -/
theorem search_marked {us ws : List (List UInt8)} (hbrace : ∀ u ∈ us ++ name :: ws, BraceFree u)
    (hus : ∀ u ∈ us, ¬ Matchable u) (hname : Matchable name) {c : UInt8} (hc : c ≠ 36) (n : Nat) :
    search (render (List.replicate n c) (marked n c (us ++ name :: ws))) =
      some (render (List.replicate n c) (marked n c us), name, render (List.replicate n c) (marked n c ws)) := by
  have hwell := wellFormed_marked hbrace hc n
  have hsplit : marked n c (us ++ name :: ws) = marked n c us ++ (name, List.replicate n c) :: marked n c ws := by
    simp [marked]
  rw [hsplit] at hwell ⊢
  apply search_render_some (literal_replicate hc n) hwell _ hname
  intro part hpart
  obtain ⟨u, hu, rfl⟩ := List.mem_map.mp hpart
  exact hus u hu

/-- In the value of the first name that matches nothing is marked. -/
theorem Expands.plain {us ws : List (List UInt8)} {v : List UInt8}
    (hbrace : ∀ u ∈ us ++ name :: ws, BraceFree u) (h : Expands getenv (us ++ name :: ws))
    (hdefined : ∀ u ∈ us ++ name :: ws, (getenv u).isSome) (hus : ∀ u ∈ us, ¬ Matchable u) (hname : Matchable name)
    (hv : getenv name = some v) : Plain v := by
  obtain ⟨n₁, hn₁⟩ := exists_bound us reference
  obtain ⟨n₂, hn₂⟩ := exists_bound us fun name => (getenv name).getD []
  -- an implementation that puts a mark for the groups there are not
  let output := fun found before rest => format (fun _ _ => [120]) (reference found) before rest v
  let mark := fun c : UInt8 => List.replicate (n₁ + n₂ + 1) c
  let parts := fun c : UInt8 => marked (n₁ + n₂ + 1) c
  have hrest := (Markers.parts_eq (x := (120 : UInt8)) (y := 121) (n := n₁ + n₂ + 1) (l := us) (by decide)
    (fun u hu => (hn₁ u hu).trans (by omega)) (fun u hu => (hn₂ u hu).trans (by omega))
    (r := fun c => output name (render (mark c) (parts c us)) (render (mark c) (parts c ws)) ++
      replaceAll output (render (mark c) (parts c ws)))
    (s := fun c => v ++ (mark c ++ (parts c ws).flatMap fun part => (getenv part.1).getD [] ++ part.2))
    fun c hc => ?_).2 120 (Or.inl rfl)
  · apply @plain_of_format _ (reference name) _ _ ⟨_, rfl⟩ _ _ (fun digits => ⟨120, [], rfl, by decide⟩) _ _ _ _ hrest
    · exact (opens_replicate (by decide) _).append _
    · exact (opens_replicate (by decide) _).append _
    · exact ((opens_replicate (by decide) _).append _).replaceAll
  · have hsearch := search_marked hbrace hus hname (mark_ne hc) (n₁ + n₂ + 1)
    have hexpand := h.replaced hdefined (mark_ne hc) (n₁ + n₂ + 1) fun _ _ => [120]
    rw [replaceEnvVariable_some hsearch hv, Except.ok.injEq, replaceAll_of_some hsearch, expand] at hexpand
    have hsplit : parts c (us ++ name :: ws) = parts c us ++ (name, mark c) :: parts c ws := by
      simp [parts, mark, marked]
    have hout : (parts c us).flatMap (fun part => reference part.1 ++ part.2) ++
        (output name (render (mark c) (parts c us)) (render (mark c) (parts c ws)) ++
          replaceAll output (render (mark c) (parts c ws))) =
        (parts c us).flatMap (fun part => (getenv part.1).getD [] ++ part.2) ++
          (v ++ (mark c ++ (parts c ws).flatMap fun part => (getenv part.1).getD [] ++ part.2)) := by
      apply @List.append_cancel_left _ (mark c)
      rw [← List.append_assoc, ← render]
      refine hexpand.trans ?_
      change mark c ++ (parts c (us ++ name :: ws)).flatMap (fun part => (getenv part.1).getD [] ++ part.2) = _
      rw [hsplit, List.flatMap_append, List.flatMap_cons, hv, Option.getD_some, List.append_assoc]
    rw [flatMap_marked, flatMap_marked fun name => (getenv name).getD []] at hout
    exact hout

/-- With a value in which nothing is marked, every name that matches has it. -/
theorem Expands.same {us ws : List (List UInt8)} {v : List UInt8}
    (hbrace : ∀ u ∈ us ++ name :: ws, BraceFree u) (h : Expands getenv (us ++ name :: ws))
    (hdefined : ∀ u ∈ us ++ name :: ws, (getenv u).isSome) (hus : ∀ u ∈ us, ¬ Matchable u) (hname : Matchable name)
    (hv : getenv name = some v) (hplain : Plain v) :
    ∀ u ∈ us ++ name :: ws, (if Matchable u then v else reference u) = (getenv u).getD [] := by
  apply h.values_eq hdefined
  intro n c hc
  rw [replaceEnvVariable_some (search_marked hbrace hus hname hc n) hv,
    replaceAll_plain hplain _ (literal_replicate hc n) (wellFormed_marked hbrace hc n)]

/-- Where a name is not defined, one is looked up and is not. -/
theorem Expands.undefined (hbrace : ∀ name ∈ names, BraceFree name) (h : Expands getenv names)
    (hundefined : ¬ ∀ name ∈ names, (getenv name).isSome) :
    ∃ name, names.find? (fun name => Matchable name) = some name ∧ getenv name = none := by
  have hc : (120 : UInt8) ≠ 36 := by decide
  have htext : Literal [] := literal_replicate hc 0
  have hnames := marked_names 0 120 names
  obtain ⟨_, herror⟩ : ∃ name, replaceEnvVariable (fun _ _ => []) getenv (render [] (marked 0 120 names)) =
      .error (undefinedEnvVariable, name) := by
    have hrefused := h (fun _ _ => []) [] (marked 0 120 names) htext (literal_marked hc 0 names) hnames
    unfold ExpandsTo at hrefused
    rwa [if_neg (fun hall => hundefined ((forall_isSome_map hnames).mp hall))] at hrefused
  have hwell := wellFormed_marked hbrace hc 0
  rcases find?_parts hnames with ⟨-, hnone⟩ | ⟨us, name, t, ws, hfind, hparts, hmatch, hus⟩
  · rw [replaceEnvVariable_none (search_render_none htext hwell hnone)] at herror
    cases herror
  · refine ⟨name, hfind, ?_⟩
    have hsearch := search_render_some htext (hparts ▸ hwell) hus hmatch
    rw [← hparts] at hsearch
    by_contra hsome
    obtain ⟨v, hv⟩ := Option.ne_none_iff_exists'.mp hsome
    rw [replaceEnvVariable_some hsearch hv] at herror
    cases herror

theorem Expands.perVariable (hbrace : ∀ name ∈ names, BraceFree name) (h : Expands getenv names) :
    PerVariable getenv names := by
  unfold PerVariable
  split_ifs with hdefined
  · have hvalue : ∀ {u w}, u ∈ names → w = (getenv u).getD [] → getenv u = some w := by
      intro u w hu hw
      obtain ⟨w', hw'⟩ := Option.isSome_iff_exists.mp (hdefined u hu)
      rw [hw, hw', Option.getD_some]
    cases hfind : names.find? fun name => Matchable name with
    | none =>
      have hnone : ∀ name ∈ names, ¬ Matchable name := by simpa using hfind
      have hbroken := h.broken hbrace hdefined hnone
      refine ⟨fun name hname _ => hvalue hname (hbroken name hname), [], ?_, fun name hname hmatch =>
        absurd hmatch (hnone name hname)⟩
      exact fun d hd => absurd (List.infix_nil.mp hd) (List.cons_ne_nil _ _)
    | some name =>
      obtain ⟨hmatch, us, ws, rfl, hus⟩ := List.find?_eq_some_iff_append.mp hfind
      obtain ⟨v, hv⟩ := Option.isSome_iff_exists.mp (hdefined name (by simp))
      have hname : Matchable name := by simpa using hmatch
      have hfirst : ∀ u ∈ us, ¬ Matchable u := fun u hu => by simpa using hus u hu
      have hplain := h.plain hbrace hdefined hfirst hname hv
      have hsame := h.same hbrace hdefined hfirst hname hv hplain
      refine ⟨fun u hu hbroken => hvalue hu ?_, v, hplain, fun u hu hmatch => hvalue hu ?_⟩
      · rw [← hsame u hu, if_neg hbroken]
      · rw [← hsame u hu, if_pos hmatch]
  · exact h.undefined hbrace hdefined

end expands

/-- Environment expansion is per variable, whatever the text is, exactly under the condition. -/
theorem expands_iff (getenv : List UInt8 → Option (List UInt8)) (names : List (List UInt8))
    (hbrace : ∀ name ∈ names, BraceFree name) : Expands getenv names ↔ PerVariable getenv names := by
  constructor
  · exact Expands.perVariable hbrace
  · intro h absent text parts htext hliteral hnames
    exact h.expandsTo hbrace absent htext hliteral hnames

theorem plain_of_no_dollar {v : List UInt8} (h : 36 ∉ v) : Plain v := by
  intro d hd
  exact absurd (hd.subset List.mem_cons_self) h

/-- The one reference of a shipped configuration. -/
theorem expands_one : Expands (fun _ => some [118]) [[65]] := by
  apply (expands_iff (fun _ => some [118]) [[65]] (by decide +kernel)).mpr
  unfold PerVariable
  rw [if_pos (by simp)]
  exact ⟨by decide +kernel, [118], plain_of_no_dollar (by decide), by simp⟩

/-- `${A}${B}` with `A` defined as `1` and `B` as `2` becomes `11`. -/
theorem two_variables : ¬ ∀ absent getenv text parts, Literal text → WellFormed parts →
    ExpandsTo absent getenv text parts := by
  intro h
  let getenv : List UInt8 → Option (List UInt8) := fun name => if name = [65] then some [49] else some [50]
  have hnil : Literal [] := literal_replicate (c := 120) (by decide) 0
  have hwell : WellFormed [([65], []), ([66], [])] := by
    intro part hpart
    simp only [List.mem_cons, List.not_mem_nil, or_false] at hpart
    rcases hpart with rfl | rfl
    · exact ⟨by decide +kernel, hnil⟩
    · exact ⟨by decide +kernel, hnil⟩
  have hsearch : search (render [] [([65], []), ([66], [])]) = some ([], [65], render [] [([66], [])]) := by
    decide +kernel
  have htwo := h (fun _ _ => []) getenv [] [([65], []), ([66], [])] hnil hwell
  unfold ExpandsTo at htwo
  rw [if_pos (by simp [getenv]), replaceEnvVariable_some hsearch (show getenv [65] = some [49] from rfl),
    replaceAll_plain (plain_of_no_dollar (by decide)) _ hnil hwell] at htwo
  revert htwo
  decide +kernel

end Symbios
