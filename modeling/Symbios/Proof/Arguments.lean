import Mathlib.Data.List.Induction
import Symbios.Model.Arguments

/-!
# Parsing a command line, and options after a rejected value

One turn of `ArgIter` takes one occurrence of an option off the command line and adds its value to that option alone
(`iter_occurrence`); by induction a rendered command line is parsed back (`argIter_render`). `Add` drops the default
before it looks at the value, so what a rejected value leaves is the option as it was only if there was no default
left to drop (`settles_iff`).
-/

namespace Symbios

open UnorderedMap ArgMap

/-! ## One option -/

namespace Arg

variable (stof : List UInt8 → Except ArgFault UInt32)

/-- How an option with values converts them. -/
def convert (a : Arg) (arg : List UInt8) : Except ArgFault Value :=
  match a.type with
  | .kNone => .error .thrown
  | .kString => .ok (.string arg)
  | .kStringMap => convertStringMap a.argMap arg
  | .kInt => (stoi arg).map .int
  | .kFloat => (stof arg).map .float
  | .kSize => (toSizeArg arg).map .size

/-- An option as its constructors leave it, without a default or with one. -/
def Fresh (a : Arg) : Prop :=
  (a.isSet = false ∧ a.useDefault = false ∧ a.args = []) ∨
    (a.type ≠ .kNone ∧ a.isSet = true ∧ a.useDefault = true ∧ ∃ dval, a.args = [dval])

/-- The option once its default is dropped. -/
def dropDefault (a : Arg) : Arg := if a.useDefault then { a with args := a.args.tail, useDefault := false } else a

section add

variable {stof} {a : Arg} {arg : List UInt8}

theorem add_eq (htype : a.type ≠ .kNone) (arg : List UInt8) : a.add stof arg = a.addValue (a.convert stof) arg := by
  unfold add
  split
  next h => exact absurd h htype
  next h => simp only [addString, addValue, convert, h]
  next h => simp only [addStringMap, addValue, convert, h]
  next h => simp only [addInt, addValue, convert, h]
  next h => simp only [addFloat, addValue, convert, h]
  next h => simp only [addSize, addValue, convert, h]

theorem add_error (htype : a.type ≠ .kNone) {fault : ArgFault} (h : a.convert stof arg = .error fault) :
    a.add stof arg = (.error fault, a.dropDefault) := by
  rw [add_eq htype, addValue, h]
  rfl

theorem add_ok (htype : a.type ≠ .kNone) {value : Value} (h : a.convert stof arg = .ok value) :
    a.add stof arg = (.ok 1, { a.dropDefault with args := a.dropDefault.args ++ [value], isSet := true }) := by
  rw [add_eq htype, addValue, h]
  rfl

@[simp] theorem dropDefault_type (a : Arg) : a.dropDefault.type = a.type := by
  unfold dropDefault
  split_ifs <;> rfl

@[simp] theorem dropDefault_argMap (a : Arg) : a.dropDefault.argMap = a.argMap := by
  unfold dropDefault
  split_ifs <;> rfl

@[simp] theorem dropDefault_useDefault (a : Arg) : a.dropDefault.useDefault = false := by
  unfold dropDefault
  split_ifs with h
  · rfl
  · exact Bool.eq_false_iff.mpr h

theorem dropDefault_of_not (h : a.useDefault = false) : a.dropDefault = a := by
  rw [dropDefault, h]
  rfl

theorem Fresh.dropDefault_args (h : a.Fresh) : a.dropDefault.args = [] := by
  unfold dropDefault
  rcases h with ⟨-, hdefault, hargs⟩ | ⟨-, -, hdefault, dval, hargs⟩
  · rw [hdefault]
    exact hargs
  · rw [if_pos hdefault, hargs]
    rfl

theorem convert_congr {a' : Arg} (htype : a'.type = a.type) (hmap : a'.argMap = a.argMap) :
    a'.convert stof = a.convert stof := by
  funext arg
  rw [convert, convert, htype, hmap]

end add

end Arg

/-! ## Command lines -/

/-- An occurrence of an option on the command line. -/
inductive Occurrence where
  | flag (name : List UInt8)
  | value (name value : List UInt8)

namespace Occurrence

variable (stof : List UInt8 → Except ArgFault UInt32) (m : ArgMap)

def opt : Occurrence → List UInt8
  | .flag opt => opt
  | .value opt _ => opt

/-- The arguments of an occurrence. -/
def render : Occurrence → List (List UInt8)
  | .flag opt => [opt]
  | .value opt arg => [opt, arg]

/-- The value of an occurrence of `name`. -/
def valueOf? (name : List UInt8) : Occurrence → Option (List UInt8)
  | .flag _ => none
  | .value opt arg => if opt = name then some arg else none

/-- The option is registered with or without values as it occurs, and to convert the value is defined. -/
def Registered : Occurrence → Prop
  | .flag opt => ∃ a, m.lookup opt = some a ∧ a.type = .kNone
  | .value opt arg => ∃ a, m.lookup opt = some a ∧ a.type ≠ .kNone ∧ a.convert stof arg ≠ .error .undefined

/-- And its type converts the value. -/
def Converts : Occurrence → Prop
  | .flag opt => ∃ a, m.lookup opt = some a ∧ a.type = .kNone
  | .value opt arg => ∃ a, m.lookup opt = some a ∧ a.type ≠ .kNone ∧ ∃ x, a.convert stof arg = .ok x

end Occurrence

/-- The options of a map, as `AddOpt` makes them, under names that start with a minus. -/
def Registry (m : ArgMap) : Prop := ∀ name a, m.lookup name = some a → name.head? = some 45 ∧ a.Fresh

theorem Registry.empty : Registry ∅ := by
  intro name a h
  cases h

theorem Registry.addOpt {m : ArgMap} (h : Registry m) {opt : List UInt8} {a : Arg} (hopt : opt.head? = some 45)
    (ha : a.Fresh) : Registry (m.addOpt opt a) :=
  insertNew_forall (P := fun (name : List UInt8) (a : Arg) => name.head? = some 45 ∧ a.Fresh) h ⟨hopt, ha⟩

theorem Arg.Fresh.withDefault {type : ArgType} (htype : type ≠ .kNone) (dval : Value) :
    (Arg.withDefault type dval).Fresh := Or.inr ⟨htype, rfl, rfl, dval, rfl⟩

/-- The maps of string options are filled in before the command line is read. -/
theorem Registry.addStringMapVal {m m' : ArgMap} (h : Registry m) {opt val : List UInt8} {id : Int32}
    (hadd : m.addStringMapVal opt val id = .ok m') : Registry m' := by
  unfold ArgMap.addStringMapVal at hadd
  cases hopt : m.lookup opt with
  | none =>
    rw [hopt] at hadd
    cases hadd
  | some a =>
    rw [hopt] at hadd
    unfold Arg.addStringMapVal at hadd
    by_cases htype : a.type = .kStringMap
    · dsimp only at hadd
      rw [if_pos htype] at hadd
      cases hadd
      obtain ⟨hminus, hfresh⟩ := h opt a hopt
      exact insert_forall (P := fun (name : List UInt8) (a : Arg) => name.head? = some 45 ∧ a.Fresh) h ⟨hminus, hfresh⟩
    · dsimp only at hadd
      rw [if_neg htype] at hadd
      cases hadd

/-! ### Turns of the loop -/

section turns

variable {stof : List UInt8 → Except ArgFault UInt32} {m : ArgMap} {opt : List UInt8} {a : Arg}

theorem argStr_of_minus (hopt : opt.head? = some 45) : argStr opt = opt := if_pos hopt

theorem iter_flag (hopt : opt.head? = some 45) (h : m.lookup opt = some a) (htype : a.type = .kNone)
    (argv : List (List UInt8)) :
    argIterFrom stof m (opt :: argv) = argIterFrom stof (m.insert opt { a with isSet := true }) argv := by
  rw [argIterFrom, argStr_of_minus hopt, h]
  dsimp only
  rw [if_neg (fun hand => hand.1 htype), if_pos htype]
  rfl

theorem iter_value_ok (hopt : opt.head? = some 45) (h : m.lookup opt = some a) (htype : a.type ≠ .kNone)
    {arg : List UInt8} {x : Value} (hx : a.convert stof arg = .ok x) (argv : List (List UInt8)) :
    argIterFrom stof m (opt :: arg :: argv) =
      argIterFrom stof (m.insert opt { a.dropDefault with args := a.dropDefault.args ++ [x], isSet := true }) argv := by
  rw [argIterFrom, argStr_of_minus hopt, h]
  dsimp only
  rw [if_pos ⟨htype, Nat.succ_pos _⟩, List.headD_cons, Arg.add_ok htype hx]
  rfl

theorem iter_value_error (hopt : opt.head? = some 45) (h : m.lookup opt = some a) (htype : a.type ≠ .kNone)
    {arg : List UInt8} {fault : ArgFault} (hx : a.convert stof arg = .error fault) (argv : List (List UInt8)) :
    argIterFrom stof m (opt :: arg :: argv) = (.error fault, m.insert opt a.dropDefault) := by
  rw [argIterFrom, argStr_of_minus hopt, h]
  dsimp only
  rw [if_pos ⟨htype, Nat.succ_pos _⟩, List.headD_cons, Arg.add_error htype hx]

theorem iter_without_value (hopt : opt.head? = some 45) (h : m.lookup opt = some a) (htype : a.type ≠ .kNone) :
    argIterFrom stof m [opt] = (.error .thrown, m) := by
  rw [argIterFrom, argStr_of_minus hopt, h]
  dsimp only
  rw [if_neg (fun hand => absurd hand.2 (Nat.lt_irrefl 0)), if_neg htype]

theorem iter_unregistered (h : m.lookup (argStr opt) = none) (argv : List (List UInt8)) :
    argIterFrom stof m (opt :: argv) = (.error .thrown, m) := by
  rw [argIterFrom, h]

end turns

/-! ### Runs of the loop -/

/-- What the occurrences make of an option: it is set if it occurs or has a default; if it occurs, its values are those
of its occurrences, converted, in their order and without the default; and if not, it is what it was. -/
structure After (stof : List UInt8 → Except ArgFault UInt32) (occs : List Occurrence) (name : List UInt8)
    (a a' : Arg) : Prop where
  type : a'.type = a.type
  argMap : a'.argMap = a.argMap
  isSet : a'.isSet = true ↔ (∃ o ∈ occs, o.opt = name) ∨ a.useDefault = true
  values : (∃ o ∈ occs, o.opt = name) → a'.useDefault = false ∧
    List.Forall₂ (fun arg x => a.convert stof arg = .ok x) (occs.filterMap (Occurrence.valueOf? name)) a'.args
  unused : (¬ ∃ o ∈ occs, o.opt = name) → a' = a

section runs

variable {stof : List UInt8 → Except ArgFault UInt32} {occs : List Occurrence} {name : List UInt8} {a a' : Arg}

theorem valueOf?_other {o : Occurrence} (h : o.opt ≠ name) : o.valueOf? name = none := by
  cases o with
  | flag => rfl
  | value opt arg => exact if_neg h

/-- Of an option that does not occur there are no values. -/
theorem values_unused (h : ¬ ∃ o ∈ occs, o.opt = name) : occs.filterMap (Occurrence.valueOf? name) = [] := by
  rw [List.filterMap_eq_nil_iff]
  intro o ho
  exact valueOf?_other fun heq => h ⟨o, ho, heq⟩

theorem After.start (h : a.Fresh) : After stof [] name a a where
  type := rfl
  argMap := rfl
  isSet := by
    rcases h with ⟨hset, hdefault, -⟩ | ⟨-, hset, hdefault, -⟩ <;> simp [hset, hdefault]
  values := by simp
  unused := fun _ => rfl

/-- The values are there once the default is dropped, whether the option has occurred or not. -/
theorem After.dropped (h : After stof occs name a a') (hfresh : a.Fresh) :
    List.Forall₂ (fun arg x => a.convert stof arg = .ok x) (occs.filterMap (Occurrence.valueOf? name))
      a'.dropDefault.args := by
  by_cases hoccurs : ∃ o ∈ occs, o.opt = name
  · obtain ⟨hdefault, hvalues⟩ := h.values hoccurs
    rwa [Arg.dropDefault_of_not hdefault]
  · rw [values_unused hoccurs, h.unused hoccurs, hfresh.dropDefault_args]
    exact .nil

theorem After.other (h : After stof occs name a a') {o : Occurrence} (ho : o.opt ≠ name) :
    After stof (occs ++ [o]) name a a' := by
  have hoccurs : (∃ o' ∈ occs ++ [o], o'.opt = name) ↔ ∃ o' ∈ occs, o'.opt = name := by
    simp [ho]
  refine ⟨h.type, h.argMap, by rw [hoccurs]; exact h.isSet, fun hused => ?_, fun hunused => ?_⟩
  · rw [List.filterMap_append, List.filterMap_cons_none (valueOf?_other ho), List.filterMap_nil, List.append_nil]
    exact h.values (hoccurs.mp hused)
  · exact h.unused fun hused => hunused (hoccurs.mpr hused)

theorem After.flag (h : After stof occs name a a') (hfresh : a.Fresh) (htype : a.type = .kNone) :
    After stof (occs ++ [.flag name]) name a { a' with isSet := true } := by
  have hoccurs : ∃ o' ∈ occs ++ [.flag name], o'.opt = name := ⟨.flag name, by simp, rfl⟩
  have hdefault : a'.useDefault = false := by
    by_cases hused : ∃ o' ∈ occs, o'.opt = name
    · exact (h.values hused).1
    · rw [h.unused hused]
      rcases hfresh with ⟨-, hdefault, -⟩ | ⟨hvalued, -⟩
      · exact hdefault
      · exact absurd htype hvalued
  have hdropped := h.dropped hfresh
  rw [Arg.dropDefault_of_not hdefault] at hdropped
  refine ⟨h.type, h.argMap, iff_of_true rfl (Or.inl hoccurs), fun _ => ⟨hdefault, ?_⟩,
    fun hunused => absurd hoccurs hunused⟩
  rw [List.filterMap_append, List.filterMap_cons_none rfl, List.filterMap_nil, List.append_nil]
  exact hdropped

theorem After.value (h : After stof occs name a a') (hfresh : a.Fresh) {arg : List UInt8} {x : Value}
    (hx : a.convert stof arg = .ok x) :
    After stof (occs ++ [.value name arg]) name a
      { a'.dropDefault with args := a'.dropDefault.args ++ [x], isSet := true } := by
  have hoccurs : ∃ o' ∈ occs ++ [.value name arg], o'.opt = name := ⟨.value name arg, by simp, rfl⟩
  refine ⟨by simp [h.type], by simp [h.argMap], iff_of_true rfl (Or.inl hoccurs), fun _ => ⟨by simp, ?_⟩,
    fun hunused => absurd hoccurs hunused⟩
  have hvalue : (Occurrence.value name arg).valueOf? name = some arg := if_pos rfl
  rw [List.filterMap_append, List.filterMap_cons_some hvalue, List.filterMap_nil]
  exact List.rel_append (h.dropped hfresh) (.cons hx .nil)

/-- The options of a map, each as the occurrences leave it. -/
def Parsed (stof : List UInt8 → Except ArgFault UInt32) (m : ArgMap) (occs : List Occurrence) (m' : ArgMap) : Prop :=
  (∀ name, name ∈ m' ↔ name ∈ m) ∧
    ∀ name a, m.lookup name = some a → ∃ a', m'.lookup name = some a' ∧ After stof occs name a a'

variable {m m' : ArgMap}

theorem Parsed.start (hm : Registry m) : Parsed stof m [] m :=
  ⟨fun _ => Iff.rfl, fun _ a h => ⟨a, h, .start (hm _ _ h).2⟩⟩

/-- One option changes as its occurrence says, and the others stay as they are. -/
theorem Parsed.insert (h : Parsed stof m occs m') {o : Occurrence} (hlookup : m.lookup o.opt = some a) {b : Arg}
    (hb : After stof (occs ++ [o]) o.opt a b) : Parsed stof m (occs ++ [o]) (m'.insert o.opt b) := by
  refine ⟨fun name => ?_, fun name a₁ ha₁ => ?_⟩
  · rw [AList.mem_insert, h.1]
    constructor
    · rintro (rfl | hname)
      · exact AList.lookup_isSome.mp (by rw [hlookup]; rfl)
      · exact hname
    · exact Or.inr
  · by_cases hname : name = o.opt
    · subst hname
      obtain rfl : a = a₁ := Option.some.inj (hlookup.symm.trans ha₁)
      exact ⟨b, AList.lookup_insert _, hb⟩
    · obtain ⟨a', ha', hafter⟩ := h.2 name a₁ ha₁
      exact ⟨a', by rw [AList.lookup_insert_ne hname, ha'], hafter.other (Ne.symm hname)⟩

/-- A turn of the loop for an occurrence that converts. -/
theorem iter_occurrence (hm : Registry m) (h : Parsed stof m occs m') {o : Occurrence} (ho : o.Converts stof m) :
    ∃ m'', Parsed stof m (occs ++ [o]) m'' ∧
      ∀ argv, argIterFrom stof m' (o.render ++ argv) = argIterFrom stof m'' argv := by
  cases o with
  | flag opt =>
    obtain ⟨a, hlookup, htype⟩ := ho
    obtain ⟨hminus, hfresh⟩ := hm opt a hlookup
    obtain ⟨a', hlookup', hafter⟩ := h.2 opt a hlookup
    exact ⟨_, h.insert (o := .flag opt) hlookup (hafter.flag hfresh htype),
      iter_flag hminus hlookup' (hafter.type.trans htype)⟩
  | value opt arg =>
    obtain ⟨a, hlookup, htype, x, hx⟩ := ho
    obtain ⟨hminus, hfresh⟩ := hm opt a hlookup
    obtain ⟨a', hlookup', hafter⟩ := h.2 opt a hlookup
    have hconvert : a'.convert stof arg = .ok x := by
      rw [Arg.convert_congr hafter.type hafter.argMap, hx]
    exact ⟨_, h.insert (o := .value opt arg) hlookup (hafter.value hfresh hx),
      iter_value_ok hminus hlookup' (fun heq => htype (hafter.type.symm.trans heq)) hconvert⟩

/-- A rendered command line is parsed to its end, whatever follows it. -/
theorem iter_render (hm : Registry m) (occs : List Occurrence) (hoccs : ∀ o ∈ occs, o.Converts stof m) :
    ∃ m', Parsed stof m occs m' ∧
      ∀ argv, argIterFrom stof m (occs.flatMap Occurrence.render ++ argv) = argIterFrom stof m' argv := by
  induction occs using List.reverseRecOn with
  | nil => exact ⟨m, .start hm, fun _ => rfl⟩
  | append_singleton occs o ih =>
    obtain ⟨m', hparsed, hrun⟩ := ih fun o' ho' => hoccs o' (List.mem_append_left _ ho')
    obtain ⟨m'', hparsed', hturn⟩ := iter_occurrence hm hparsed (hoccs o (List.mem_append_right _ (List.mem_singleton_self o)))
    refine ⟨m'', hparsed', fun argv => ?_⟩
    rw [List.flatMap_append, List.flatMap_singleton, List.append_assoc, hrun, hturn]

/-- The loop ends in an exception. -/
def Rejected (result : Except ArgFault Unit × ArgMap) : Prop := ∃ fault, result.1 = .error fault ∧ fault ≠ .undefined

/-- A value that its type does not convert ends the loop. Before it the command line is parsed. -/
theorem iter_registered (hm : Registry m) (occs : List Occurrence) (hoccs : ∀ o ∈ occs, o.Registered stof m)
    (argv : List (List UInt8)) : Rejected (argIterFrom stof m (occs.flatMap Occurrence.render ++ argv)) ∨
      ∃ m', Parsed stof m occs m' ∧
        argIterFrom stof m (occs.flatMap Occurrence.render ++ argv) = argIterFrom stof m' argv := by
  induction occs using List.reverseRecOn generalizing argv with
  | nil => exact Or.inr ⟨m, .start hm, rfl⟩
  | append_singleton occs o ih =>
    rw [List.flatMap_append, List.flatMap_singleton, List.append_assoc]
    rcases ih (fun o' ho' => hoccs o' (List.mem_append_left _ ho')) (o.render ++ argv) with hrejected | ⟨m', hparsed, hrun⟩
    · exact Or.inl hrejected
    · rw [hrun]
      have ho := hoccs o (List.mem_append_right _ (List.mem_singleton_self o))
      by_cases hconverts : o.Converts stof m
      · obtain ⟨m'', hparsed', hturn⟩ := iter_occurrence hm hparsed hconverts
        exact Or.inr ⟨m'', hparsed', hturn argv⟩
      · cases o with
        | flag opt => exact absurd ho hconverts
        | value opt arg =>
          obtain ⟨a, hlookup, htype, hdefined⟩ := ho
          obtain ⟨a', hlookup', hafter⟩ := hparsed.2 opt a hlookup
          cases hx : a.convert stof arg with
          | ok x => exact absurd ⟨a, hlookup, htype, x, hx⟩ hconverts
          | error fault =>
            have hconvert : a'.convert stof arg = .error fault := by
              rw [Arg.convert_congr hafter.type hafter.argMap, hx]
            refine Or.inl ⟨fault, ?_, fun hundefined => hdefined (by rw [hx, hundefined])⟩
            exact congrArg Prod.fst (iter_value_error (hm opt a hlookup).1 hlookup'
              (fun heq => htype (hafter.type.symm.trans heq)) hconvert argv)

end runs

/-- Command line parsing inverts rendering, and rejects an option without its value and a name that is not registered. -/
theorem argIter_render (stof : List UInt8 → Except ArgFault UInt32) (m : ArgMap) (hm : Registry m)
    (program : List UInt8) (occs : List Occurrence) :
    ((∀ o ∈ occs, o.Converts stof m) →
      ∃ m', argIter stof m (program :: occs.flatMap Occurrence.render) = (.ok (), m') ∧ Parsed stof m occs m') ∧
    ((∀ o ∈ occs, o.Registered stof m) →
      (∀ opt a, m.lookup opt = some a → a.type ≠ .kNone →
        Rejected (argIter stof m (program :: (occs.flatMap Occurrence.render ++ [opt])))) ∧
      ∀ opt argv, opt ∉ m →
        Rejected (argIter stof m (program :: (occs.flatMap Occurrence.render ++ opt :: argv)))) := by
  constructor
  · intro hoccs
    obtain ⟨m', hparsed, hrun⟩ := iter_render hm occs hoccs
    have hend := hrun []
    rw [List.append_nil, argIterFrom] at hend
    exact ⟨m', hend, hparsed⟩
  · intro hoccs
    constructor
    · intro opt a hlookup htype
      rcases iter_registered hm occs hoccs [opt] with hrejected | ⟨m', hparsed, hrun⟩
      · exact hrejected
      · obtain ⟨a', hlookup', hafter⟩ := hparsed.2 opt a hlookup
        have hlast : argIterFrom stof m' [opt] = (.error .thrown, m') :=
          iter_without_value (hm opt a hlookup).1 hlookup' fun heq => htype (hafter.type.symm.trans heq)
        exact ⟨.thrown, congrArg Prod.fst (hrun.trans hlast), by decide⟩
    · intro opt argv hopt
      rcases iter_registered hm occs hoccs (opt :: argv) with hrejected | ⟨m', hparsed, hrun⟩
      · exact hrejected
      · have hmissing : m'.lookup (argStr opt) = none := by
          rw [AList.lookup_eq_none, hparsed.1, argStr]
          split_ifs
          · exact hopt
          · -- no name is empty
            intro hnil
            obtain ⟨a, ha⟩ := exists_lookup hnil
            cases (hm [] a ha).1
        exact ⟨.thrown, congrArg Prod.fst (hrun.trans (iter_unregistered hmissing argv)), by decide⟩

/-- `-b` takes the value `-5` here. -/
theorem argIter_render_minus : ∃ m', argIter (fun _ => .ok 0) ((∅ : ArgMap).addOpt [45, 98] { type := .kInt })
    [[], [45, 98], [45, 53]] = (.ok (), m') := by
  obtain ⟨hparsed, -⟩ := argIter_render (fun _ => .ok 0) ((∅ : ArgMap).addOpt [45, 98] { type := .kInt })
    (Registry.empty.addOpt rfl (Or.inl ⟨rfl, rfl, rfl⟩)) [] [.value [45, 98] [45, 53]]
  obtain ⟨m', hrun, -⟩ := hparsed fun o ho => by
    obtain rfl := List.mem_singleton.mp ho
    exact ⟨{ type := .kInt }, rfl, by decide, .int (-5), by decide +kernel⟩
  exact ⟨m', hrun⟩

/-! ## Rejected values -/

/-- One `Add` after the other; what they throw is caught. -/
def adds (stof : List UInt8 → Except ArgFault UInt32) (a : Arg) (values : List (List UInt8)) : Arg :=
  values.foldl (fun a arg => (a.add stof arg).2) a

/-- No `Add` is undefined, one that throws leaves the option as it was, and in every state a set option has a value for
its getter. -/
structure Settles (stof : List UInt8 → Except ArgFault UInt32) (a : Arg) (values : List (List UInt8)) : Prop where
  kept : ∀ front arg, front ++ [arg] <+: values → ∀ fault, ((adds stof a front).add stof arg).1 = .error fault →
    fault ≠ .undefined ∧ ((adds stof a front).add stof arg).2 = adds stof a front
  nonempty : ∀ front, front <+: values → (adds stof a front).isSet = true → (adds stof a front).args ≠ []
  getOpt : ∀ front, front <+: values → (adds stof a front).getOpt ≠ .error .undefined

/-- No conversion is undefined, and if there is a default the first value converts. -/
def FirstConverts (stof : List UInt8 → Except ArgFault UInt32) (a : Arg) (values : List (List UInt8)) : Prop :=
  (∀ arg ∈ values, a.convert stof arg ≠ .error .undefined) ∧
    (a.useDefault = true → ∀ arg, values.head? = some arg → ∃ x, a.convert stof arg = .ok x)

section settles

variable {stof : List UInt8 → Except ArgFault UInt32} {a : Arg}

theorem adds_concat (a : Arg) (front : List (List UInt8)) (arg : List UInt8) :
    adds stof a (front ++ [arg]) = ((adds stof a front).add stof arg).2 := by
  rw [adds, List.foldl_append]
  rfl

theorem getOpt_defined (h : a.isSet = true → a.args ≠ []) : a.getOpt ≠ .error .undefined := by
  unfold Arg.getOpt
  split_ifs with hset
  · obtain ⟨value, hvalue⟩ := Option.isSome_iff_exists.mp (List.getLast?_isSome.mpr (h hset))
    rw [hvalue]
    simp
  · simp

theorem add_same (htype : a.type ≠ .kNone) (arg : List UInt8) :
    (a.add stof arg).2.type = a.type ∧ (a.add stof arg).2.argMap = a.argMap ∧ (a.add stof arg).2.useDefault = false := by
  cases hx : a.convert stof arg with
  | error fault =>
    rw [Arg.add_error htype hx]
    simp
  | ok x =>
    rw [Arg.add_ok htype hx]
    simp

/-- What the calls leave: an option of the same kind, without a default once there was a call. -/
theorem adds_same (htype : a.type ≠ .kNone) (values : List (List UInt8)) :
    (adds stof a values).type = a.type ∧ (adds stof a values).argMap = a.argMap ∧
      (values ≠ [] → (adds stof a values).useDefault = false) := by
  induction values using List.reverseRecOn with
  | nil => exact ⟨rfl, rfl, fun h => absurd rfl h⟩
  | append_singleton values arg ih =>
    obtain ⟨htype', hmap', -⟩ := ih
    have hkind : (adds stof a values).type ≠ .kNone := fun heq => htype (htype'.symm.trans heq)
    rw [adds_concat]
    obtain ⟨hsame, hmap, hdefault⟩ := @add_same stof _ hkind arg
    exact ⟨hsame.trans htype', hmap.trans hmap', fun _ => hdefault⟩

theorem adds_convert (htype : a.type ≠ .kNone) (values : List (List UInt8)) :
    (adds stof a values).convert stof = a.convert stof :=
  Arg.convert_congr (adds_same htype values).1 (adds_same htype values).2.1

theorem adds_error (htype : a.type ≠ .kNone) (front : List (List UInt8)) {arg : List UInt8} {fault : ArgFault}
    (h : a.convert stof arg = .error fault) :
    (adds stof a front).add stof arg = (.error fault, (adds stof a front).dropDefault) := by
  have hsame : (adds stof a front).type = a.type := (adds_same htype front).1
  exact Arg.add_error (fun heq => htype (hsame.symm.trans heq)) (by rw [adds_convert htype, h])

/-- A call that throws keeps the option, under the condition. -/
theorem adds_kept (htype : a.type ≠ .kNone) {values : List (List UInt8)} (h : FirstConverts stof a values)
    {front : List (List UInt8)} {arg : List UInt8} (hfront : front ++ [arg] <+: values) {fault : ArgFault}
    (hfault : a.convert stof arg = .error fault) : (adds stof a front).dropDefault = adds stof a front := by
  apply Arg.dropDefault_of_not
  cases front with
  | cons first rest => exact (adds_same htype (first :: rest)).2.2 (List.cons_ne_nil first rest)
  | nil =>
    obtain ⟨rest, rfl⟩ := hfront
    by_contra hdefault
    obtain ⟨x, hx⟩ := h.2 (Bool.not_eq_false _ ▸ hdefault) arg rfl
    rw [hfault] at hx
    cases hx

theorem adds_nonempty (hfresh : a.Fresh) (htype : a.type ≠ .kNone) {values : List (List UInt8)}
    (h : FirstConverts stof a values) : ∀ front, front <+: values →
      (adds stof a front).isSet = true → (adds stof a front).args ≠ [] := by
  intro front
  induction front using List.reverseRecOn with
  | nil =>
    rintro - hset
    rcases hfresh with ⟨hunset, -⟩ | ⟨-, -, -, dval, hargs⟩
    · exact absurd (hunset.symm.trans hset) (by decide)
    · rw [adds, List.foldl_nil, hargs]
      simp
  | append_singleton front arg ih =>
    intro hfront hset
    rw [adds_concat] at hset ⊢
    cases hx : a.convert stof arg with
    | error fault =>
      rw [adds_error htype front hx, adds_kept htype h hfront hx] at hset ⊢
      exact ih ((List.prefix_append _ _).trans hfront) hset
    | ok x =>
      have hsame : (adds stof a front).type = a.type := (adds_same htype front).1
      rw [Arg.add_ok (fun heq => htype (hsame.symm.trans heq)) (by rw [adds_convert htype, hx])]
      simp

/-- A rejected value leaves the option usable if and only if no default is left when it comes. -/
theorem settles_iff (stof : List UInt8 → Except ArgFault UInt32) (a : Arg) (hfresh : a.Fresh) (htype : a.type ≠ .kNone)
    (values : List (List UInt8)) : Settles stof a values ↔ FirstConverts stof a values := by
  constructor
  · intro h
    constructor
    · intro arg harg hundefined
      obtain ⟨front, rest, rfl⟩ := List.append_of_mem harg
      have hadd := adds_error htype front hundefined
      exact (h.kept front arg ⟨rest, by simp⟩ .undefined (congrArg Prod.fst hadd)).1 rfl
    · intro hdefault arg hhead
      cases hx : a.convert stof arg with
      | ok x => exact ⟨x, rfl⟩
      | error fault =>
        obtain ⟨rest, rfl⟩ := List.head?_eq_some_iff.mp hhead
        have hadd := adds_error htype [] hx
        obtain ⟨-, hkept⟩ := h.kept [] arg ⟨rest, rfl⟩ fault (congrArg Prod.fst hadd)
        rw [hadd] at hkept
        have hdropped := congrArg Arg.useDefault hkept
        rw [Arg.dropDefault_useDefault] at hdropped
        exact absurd (hdropped.trans hdefault) (by decide)
  · intro h
    refine ⟨fun front arg hfront fault hfault => ?_, adds_nonempty hfresh htype h, fun front hfront =>
      getOpt_defined (adds_nonempty hfresh htype h front hfront)⟩
    cases hx : a.convert stof arg with
    | ok x =>
      have hsame : (adds stof a front).type = a.type := (adds_same htype front).1
      rw [Arg.add_ok (fun heq => htype (hsame.symm.trans heq)) (by rw [adds_convert htype, hx])] at hfault
      cases hfault
    | error fault' =>
      rw [adds_error htype front hx] at hfault ⊢
      cases hfault
      exact ⟨fun hundefined => h.1 arg (hfront.subset (by simp)) (by rw [hx, hundefined]), adds_kept htype h hfront hx⟩

theorem settles_without_default : Settles (fun _ => .ok 0) { type := .kInt } [[120]] :=
  (settles_iff (fun _ => .ok 0) { type := .kInt } (Or.inl ⟨rfl, rfl, rfl⟩) (by decide) [[120]]).mpr
    ⟨by decide +kernel, fun hdefault => absurd hdefault (by decide)⟩

end settles

/-- An `int` option with the default 24245, and the value `x`: the option is set and has no value. -/
theorem rejected_default : ¬ ∀ (stof : List UInt8 → Except ArgFault UInt32) (a : Arg), a.Fresh → a.type ≠ .kNone →
    ∀ values, Settles stof a values := by
  intro h
  have hsettles := h (fun _ => .ok 0) (.withDefault .kInt (.int 24245)) (.withDefault (by decide) _) (by decide) [[120]]
  exact hsettles.nonempty [[120]] (List.prefix_refl _) rfl rfl

end Symbios
