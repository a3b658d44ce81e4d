import Symbios.Model.Programs
import Symbios.Proof.Arguments

/-!
# What the programs read is there

An option that is set has a value of its class, and one with a string map a value of the map, after every command line
that is read to its end (`argIterFrom_filled`). So what `VerifyArgs` asserts is enough for everything that `main` reads:
neither program throws or is undefined once its arguments are accepted (`replay_reads`, `benchmark_reads`).
-/

namespace Symbios

open UnorderedMap ArgMap

/-! ## Options with values of their class -/

/-- The value is one of the class. -/
def Value.Fits : ArgType → Value → Prop
  | .kString, .string _ => True
  | .kStringMap, .int _ => True
  | .kInt, .int _ => True
  | .kFloat, .float _ => True
  | .kSize, .size _ => True
  | _, _ => False

namespace Arg

/-- An option that is set has a value, all its values are of its class, and those of a string map are in the map. -/
structure Sound (a : Arg) : Prop where
  filled : a.type ≠ .kNone → a.isSet = true → a.args ≠ []
  fits : ∀ v ∈ a.args, v.Fits a.type
  mapped : a.type = .kStringMap → ∀ v ∈ a.args, ∃ val id, a.argMap.lookup val = some id ∧ v = .int id

variable {stof : List UInt8 → Except ArgFault UInt32} {a : Arg} {arg : List UInt8}

theorem dropDefault_subset (a : Arg) : ∀ v ∈ a.dropDefault.args, v ∈ a.args := by
  unfold dropDefault
  split_ifs
  · exact fun v hv => List.mem_of_mem_tail hv
  · exact fun v hv => hv

/-- What is converted is of the class. -/
theorem convert_fits {x : Value} (h : a.convert stof arg = .ok x) :
    x.Fits a.type ∧ (a.type = .kStringMap → ∃ val id, a.argMap.lookup val = some id ∧ x = .int id) := by
  have hmap : ∀ {α : Type} {r : Except ArgFault α} {f : α → Value}, r.map f = .ok x → ∃ y, x = f y := by
    intro α r f hr
    cases r with
    | error fault => cases hr
    | ok y => exact ⟨y, (Except.ok.inj hr).symm⟩
  unfold convert at h
  cases htype : a.type with
  | kNone =>
    rw [htype] at h
    cases h
  | kString =>
    rw [htype] at h
    rw [← Except.ok.inj h]
    exact ⟨trivial, fun h => by cases h⟩
  | kStringMap =>
    rw [htype] at h
    dsimp only at h
    unfold convertStringMap at h
    cases hlookup : a.argMap.lookup arg with
    | none =>
      rw [hlookup] at h
      cases h
    | some id =>
      rw [hlookup] at h
      rw [← Except.ok.inj h]
      exact ⟨trivial, fun _ => ⟨arg, id, hlookup, rfl⟩⟩
  | kInt =>
    rw [htype] at h
    obtain ⟨y, rfl⟩ := hmap h
    exact ⟨trivial, fun h => by cases h⟩
  | kFloat =>
    rw [htype] at h
    obtain ⟨y, rfl⟩ := hmap h
    exact ⟨trivial, fun h => by cases h⟩
  | kSize =>
    rw [htype] at h
    obtain ⟨y, rfl⟩ := hmap h
    exact ⟨trivial, fun h => by cases h⟩

/-- Step: an `Add` that returns. -/
theorem Sound.add (h : a.Sound) (htype : a.type ≠ .kNone) {n : Nat} (hadd : (a.add stof arg).1 = .ok n) :
    (a.add stof arg).2.Sound ∧ (a.add stof arg).2.isSet = true ∧ (a.add stof arg).2.type = a.type ∧
      (a.add stof arg).2.argMap = a.argMap := by
  cases hconvert : a.convert stof arg with
  | error fault =>
    rw [add_error htype hconvert] at hadd
    cases hadd
  | ok x =>
    rw [add_ok htype hconvert]
    obtain ⟨hfits, hmapped⟩ := convert_fits hconvert
    refine ⟨⟨fun _ _ => by simp, fun v hv => ?_, fun hstring v hv => ?_⟩, rfl, dropDefault_type a, dropDefault_argMap a⟩
    · show v.Fits a.dropDefault.type
      rw [dropDefault_type]
      rcases List.mem_append.mp hv with hv | hv
      · exact h.fits v (dropDefault_subset a v hv)
      · rwa [List.mem_singleton.mp hv]
    · replace hstring : a.dropDefault.type = .kStringMap := hstring
      rw [dropDefault_type] at hstring
      show ∃ val id, a.dropDefault.argMap.lookup val = some id ∧ v = .int id
      rw [dropDefault_argMap]
      rcases List.mem_append.mp hv with hv | hv
      · exact h.mapped hstring v (dropDefault_subset a v hv)
      · rw [List.mem_singleton.mp hv]
        exact hmapped hstring

/-- Step: a flag. -/
theorem Sound.set (h : a.Sound) (htype : a.type = .kNone) : ({ a with isSet := true } : Arg).Sound :=
  ⟨fun hne => absurd htype hne, h.fits, h.mapped⟩

end Arg

/-! ## Command lines -/

/-- Every option is sound. -/
def AllSound (m : ArgMap) : Prop := ∀ name a, m.lookup name = some a → a.Sound

/-- What an option is registered as. -/
def ArgMap.shape (m : ArgMap) (name : List UInt8) : Option (ArgType × AList fun _ : List UInt8 => Int32) :=
  (m.lookup name).map fun a => (a.type, a.argMap)

/-- `m'` is `m` with values read into it. -/
structure Filled (m m' : ArgMap) : Prop where
  sound : AllSound m'
  shape : m'.shape = m.shape
  set : ∀ opt, m.optIsSet opt = true → m'.optIsSet opt = true

namespace Filled

variable {m m' m'' : ArgMap}

theorem refl (h : AllSound m) : Filled m m := ⟨h, rfl, fun _ h => h⟩

theorem trans (h : Filled m m') (h' : Filled m' m'') : Filled m m'' :=
  ⟨h'.sound, h'.shape.trans h.shape, fun opt hopt => h'.set opt (h.set opt hopt)⟩

/-- Step: one option has a value more. -/
theorem insert (h : AllSound m) {name : List UInt8} {a b : Arg} (hlookup : m.lookup name = some a)
    (hsound : b.Sound) (hset : b.isSet = true) (htype : b.type = a.type) (hmap : b.argMap = a.argMap) :
    Filled m (m.insert name b) := by
  refine ⟨insert_forall (P := fun (_ : List UInt8) (a : Arg) => a.Sound) h hsound, ?_, fun opt hopt => ?_⟩
  · funext name'
    unfold ArgMap.shape
    by_cases hname : name' = name
    · rw [hname, AList.lookup_insert, hlookup, Option.map_some, Option.map_some, htype, hmap]
    · rw [AList.lookup_insert_ne hname]
  · unfold ArgMap.optIsSet at hopt ⊢
    by_cases hname : opt = name
    · rw [hname, AList.lookup_insert]
      exact hset
    · rwa [AList.lookup_insert_ne hname]

end Filled

/-- Run: a command line that is read to its end. -/
theorem argIterFrom_filled {stof : List UInt8 → Except ArgFault UInt32} {m : ArgMap} (h : AllSound m)
    (argv : List (List UInt8)) (hok : (argIterFrom stof m argv).1 = .ok ()) :
    Filled m (argIterFrom stof m argv).2 := by
  fun_induction argIterFrom stof m argv
  · exact .refl h
  · cases hok
  · cases hok
  · next m arg argv a hlookup htype result n hadd ih =>
      obtain ⟨hsound, hset, htype', hmap'⟩ := Arg.Sound.add (h _ a hlookup) htype.1 hadd
      have hstep := Filled.insert h hlookup hsound hset htype' hmap'
      exact hstep.trans (ih hstep.sound hok)
  · cases hok
  · next m arg argv a hlookup _ htype result n hadd ih =>
      have hstep := Filled.insert h hlookup (Arg.Sound.set (h _ a hlookup) htype) rfl rfl rfl
      exact hstep.trans (ih hstep.sound hok)
  · cases hok

/-! ## What is set is read -/

section getters

variable {m : ArgMap} {opt : List UInt8}

/-- A set option that has values has a last one, of its class. -/
theorem getOpt_ok (h : AllSound m) (hset : m.optIsSet opt = true) {type : ArgType}
    {ids : AList fun _ : List UInt8 => Int32} (hshape : m.shape opt = some (type, ids)) (htype : type ≠ .kNone) :
    ∃ a v, m.lookup opt = some a ∧ a.type = type ∧ a.isSet = true ∧ a.getOpt = .ok v ∧ v.Fits type ∧
      (type = .kStringMap → ∃ val id, ids.lookup val = some id ∧ v = .int id) := by
  unfold ArgMap.shape at hshape
  unfold ArgMap.optIsSet at hset
  cases hlookup : m.lookup opt with
  | none =>
    rw [hlookup] at hset
    cases hset
  | some a =>
    rw [hlookup] at hset hshape
    obtain ⟨rfl, rfl⟩ : a.type = type ∧ a.argMap = ids := Prod.mk.inj (Option.some.inj hshape)
    have ha : a.Sound := h opt a hlookup
    obtain ⟨v, hlast⟩ : ∃ v, a.args.getLast? = some v :=
      ⟨_, List.getLast?_eq_some_getLast (ha.filled htype hset)⟩
    have hmem : v ∈ a.args := List.mem_of_getLast? hlast
    refine ⟨a, v, rfl, rfl, hset, ?_, ha.fits v hmem, fun hstring => ha.mapped hstring v hmem⟩
    unfold Arg.getOpt
    rw [if_pos hset, hlast]

theorem getOpt_run {α : Type} {get : Arg → Except ArgFault α} {a : Arg} (hlookup : m.lookup opt = some a)
    (hset : a.isSet = true) : ArgMap.getOpt get m opt = get a := by
  unfold ArgMap.getOpt
  rw [hlookup]
  exact if_pos hset

/-- A getter that reads the values of its class reads the option. -/
theorem read_ok {α : Type} {get : Arg → Except ArgFault α} (h : AllSound m) (hset : m.optIsSet opt = true)
    {type : ArgType} {ids : AList fun _ : List UInt8 => Int32} (hshape : m.shape opt = some (type, ids))
    (htype : type ≠ .kNone)
    (hget : ∀ a v, a.type = type → a.getOpt = .ok v → v.Fits type → ∃ x, get a = .ok x) :
    ∃ x, ArgMap.getOpt get m opt = .ok x := by
  obtain ⟨a, v, hlookup, ha, hisSet, hv, hfits, -⟩ := getOpt_ok h hset hshape htype
  rw [getOpt_run hlookup hisSet]
  exact hget a v ha hv hfits

theorem getStringOpt_ok (h : AllSound m) (hset : m.optIsSet opt = true)
    {ids : AList fun _ : List UInt8 => Int32} (hshape : m.shape opt = some (.kString, ids)) :
    ∃ s, m.getStringOpt opt = .ok s := by
  refine read_ok h hset hshape (by decide) fun a v htype hget hfits => ?_
  cases v with
  | string s => exact ⟨s, by rw [Arg.getStringOpt, if_pos htype, hget]⟩
  | int i => exact hfits.elim
  | float bits => exact hfits.elim
  | size n => exact hfits.elim

theorem getFloatOpt_ok (h : AllSound m) (hset : m.optIsSet opt = true)
    {ids : AList fun _ : List UInt8 => Int32} (hshape : m.shape opt = some (.kFloat, ids)) :
    ∃ bits, m.getFloatOpt opt = .ok bits := by
  refine read_ok h hset hshape (by decide) fun a v htype hget hfits => ?_
  cases v with
  | float bits => exact ⟨bits, by rw [Arg.getFloatOpt, if_pos htype, hget]⟩
  | string s => exact hfits.elim
  | int i => exact hfits.elim
  | size n => exact hfits.elim

theorem getSizeOpt_ok (h : AllSound m) (hset : m.optIsSet opt = true)
    {ids : AList fun _ : List UInt8 => Int32} (hshape : m.shape opt = some (.kSize, ids)) :
    ∃ n, m.getSizeOpt opt = .ok n := by
  refine read_ok h hset hshape (by decide) fun a v htype hget hfits => ?_
  cases v with
  | size n => exact ⟨n, by rw [Arg.getSizeOpt, if_pos htype, hget]⟩
  | string s => exact hfits.elim
  | int i => exact hfits.elim
  | float bits => exact hfits.elim

theorem getIntOpt_ok (h : AllSound m) (hset : m.optIsSet opt = true)
    {ids : AList fun _ : List UInt8 => Int32} (hshape : m.shape opt = some (.kInt, ids)) :
    ∃ i, m.getIntOpt opt = .ok i := by
  refine read_ok h hset hshape (by decide) fun a v htype hget hfits => ?_
  cases v with
  | int i => exact ⟨i, by rw [Arg.getIntOpt, if_pos (Or.inr htype), hget]⟩
  | string s => exact hfits.elim
  | float bits => exact hfits.elim
  | size n => exact hfits.elim

/-- A string map gives one of its ids. -/
theorem getIntOpt_mapped (h : AllSound m) (hset : m.optIsSet opt = true)
    {ids : AList fun _ : List UInt8 => Int32} (hshape : m.shape opt = some (.kStringMap, ids)) :
    ∃ val id, ids.lookup val = some id ∧ m.getIntOpt opt = .ok id := by
  obtain ⟨a, v, hlookup, htype, ha, hget, -, hmapped⟩ := getOpt_ok h hset hshape (by decide)
  obtain ⟨val, id, hid, rfl⟩ := hmapped rfl
  refine ⟨val, id, hid, (getOpt_run hlookup ha).trans ?_⟩
  rw [Arg.getIntOpt, if_pos (Or.inl htype), hget]

/-- What is read where it is set is read in either case. -/
theorem getOptional_ok {α : Type} {get : ArgMap → List UInt8 → Except ArgFault α}
    (h : m.optIsSet opt = true → ∃ x, get m opt = .ok x) : ∃ x, m.getOptional get opt = .ok x := by
  unfold ArgMap.getOptional
  split_ifs with hset
  · obtain ⟨x, hx⟩ := h hset
    rw [hx]
    exact ⟨some x, rfl⟩
  · exact ⟨none, rfl⟩

theorem ok_bind {α β : Type} (a : α) (k : α → Except ArgFault β) : ((.ok a : Except ArgFault α) >>= k) = k a := rfl

theorem ok_of_bind {α β : Type} {x : Except ArgFault α} {k : α → Except ArgFault β} {y : β} (h : (x >>= k) = .ok y) :
    ∃ a, x = .ok a ∧ k a = .ok y := by
  cases x with
  | error fault => cases h
  | ok a => exact ⟨a, rfl, h⟩

theorem assert_bind {α : Type} {k : Unit → Except ArgFault α} {x : α} :
    (m.assertOptIsSet opt >>= k) = .ok x ↔ m.optIsSet opt = true ∧ k () = .ok x := by
  unfold ArgMap.assertOptIsSet
  by_cases hset : m.optIsSet opt = true
  · rw [if_pos hset]
    exact (and_iff_right hset).symm
  · rw [if_neg hset]
    exact ⟨fun h => (by cases h), fun h => absurd h.1 hset⟩

theorem assert_ok : m.assertOptIsSet opt = .ok () ↔ m.optIsSet opt = true := by
  unfold ArgMap.assertOptIsSet
  by_cases hset : m.optIsSet opt = true
  · rw [if_pos hset]
    exact iff_of_true rfl hset
  · rw [if_neg hset]
    exact iff_of_false (fun h => by cases h) hset

end getters

/-! ## Registered options -/

/-- The option is registered with the type. -/
def Registers (m : ArgMap) (opt : List UInt8) (type : ArgType) : Prop := ∃ ids, m.shape opt = some (type, ids)

/-- The option is registered with a string map, of these ids. -/
def RegistersMap (m : ArgMap) (opt : List UInt8) (allowed : List Int32) : Prop :=
  ∃ ids, m.shape opt = some (.kStringMap, ids) ∧ ∀ val id, ids.lookup val = some id → id ∈ allowed

section registered

variable {m : ArgMap} {opt : List UInt8}

/-- An option as a program registers it: without a value, or with an integer for its default. -/
def Arg.plain (a : Arg) : Bool := !a.isSet && decide (a.args = []) || decide (a.type = .kInt ∧ a.args = [.int 0])

theorem Arg.sound_of_plain {a : Arg} (h : a.plain = true) : a.Sound := by
  unfold Arg.plain at h
  rw [Bool.or_eq_true, Bool.and_eq_true, Bool.not_eq_true', decide_eq_true_iff, decide_eq_true_iff] at h
  rcases h with ⟨hset, hargs⟩ | ⟨htype, hargs⟩
  · refine ⟨fun _ h => absurd h (by rw [hset]; decide), ?_, fun _ => ?_⟩ <;> rw [hargs] <;> intro v hv <;> cases hv
  · refine ⟨fun _ _ => by rw [hargs]; decide, ?_, fun h => absurd (htype.symm.trans h) (by decide)⟩
    rw [hargs, htype]
    intro v hv
    rw [List.mem_singleton.mp hv]
    trivial

/-- The checks of a map that are run once. -/
def ArgMap.plain (m : ArgMap) : Bool := m.entries.all fun e => e.2.plain

theorem allSound_of_plain (h : m.plain = true) : AllSound m := by
  intro name a hlookup
  exact Arg.sound_of_plain (List.all_eq_true.mp h ⟨name, a⟩ (AList.mem_lookup_iff.mp hlookup))

def registers (m : ArgMap) (opt : List UInt8) (type : ArgType) : Bool := (m.lookup opt).any fun a => a.type = type

theorem registers_of (type : ArgType) (h : registers m opt type = true) : Registers m opt type := by
  obtain ⟨a, hlookup, htype⟩ := (Option.any_eq_true ..).mp h
  exact ⟨a.argMap, by rw [ArgMap.shape, hlookup, ← of_decide_eq_true htype]; rfl⟩

def registersMap (m : ArgMap) (opt : List UInt8) (allowed : List Int32) : Bool :=
  (m.lookup opt).any fun a => decide (a.type = .kStringMap) && a.argMap.entries.all fun e => decide (e.2 ∈ allowed)

theorem registersMap_of (allowed : List Int32) (h : registersMap m opt allowed = true) :
    RegistersMap m opt allowed := by
  obtain ⟨a, hlookup, ha⟩ := (Option.any_eq_true ..).mp h
  obtain ⟨htype, hids⟩ := Bool.and_eq_true_iff.mp ha
  refine ⟨a.argMap, by rw [ArgMap.shape, hlookup, ← of_decide_eq_true htype]; rfl, fun val id hid => ?_⟩
  exact of_decide_eq_true (List.all_eq_true.mp hids ⟨val, id⟩ (AList.mem_lookup_iff.mp hid))

theorem toOption_any {α : Type} {x : Except ArgFault α} {p : α → Bool} (h : x.toOption.any p = true) :
    ∃ a, x = .ok a ∧ p a = true := by
  cases x with
  | error fault => cases h
  | ok a => exact ⟨a, rfl, h⟩

theorem Filled.registers {m m' : ArgMap} (h : Filled m m') {type : ArgType} (hm : Registers m opt type) :
    Registers m' opt type := by
  unfold Registers
  rw [h.shape]
  exact hm

theorem Filled.registersMap {m m' : ArgMap} (h : Filled m m') {allowed : List Int32}
    (hm : RegistersMap m opt allowed) : RegistersMap m' opt allowed := by
  unfold RegistersMap
  rw [h.shape]
  exact hm

/-- A program that is constructed has read its command line to the end, and its `VerifyArgs` has returned. -/
theorem construct_filled {stof : List UInt8 → Except ArgFault UInt32} {options : Except ArgFault ArgMap}
    {verifyArgs : ArgMap → Except ArgFault Unit} {argv : List (List UInt8)} {m m' : ArgMap}
    (hoptions : options = .ok m) (hm : AllSound m)
    (h : ArgMap.construct stof options verifyArgs argv = .ok m') : Filled m m' ∧ verifyArgs m' = .ok () := by
  have hfilled : (argIterFrom stof m (argv.drop 1)).1 = .ok () → Filled m (argIterFrom stof m (argv.drop 1)).2 :=
    argIterFrom_filled hm (argv.drop 1)
  rw [ArgMap.construct, hoptions, ok_bind, ArgMap.argIter] at h
  cases hiter : argIterFrom stof m (argv.drop 1) with
  | mk result m'' =>
    rw [hiter] at h hfilled
    cases result with
    | error fault => cases h
    | ok u =>
      replace h : (verifyArgs m'' >>= fun _ => pure m'') = Except.ok m' := h
      cases hverify : verifyArgs m'' with
      | error fault =>
        rw [hverify] at h
        cases h
      | ok u' =>
        rw [hverify] at h
        obtain rfl : m'' = m' := Except.ok.inj h
        exact ⟨hfilled rfl, hverify⟩

end registered

/-! ## `ReplayArgs` -/

namespace ReplayArgs

/-- What the program registers. -/
structure Registered (m : ArgMap) : Prop where
  mode : RegistersMap m (literal "-m") [0, 1, 2, 3]
  storType : RegistersMap m (literal "-s") [0, 1, 2]
  tracePath : Registers m (literal "-t") .kString
  outputPath : Registers m (literal "-o") .kString
  symbiosConf : Registers m (literal "-f") .kString
  out : Registers m (literal "-out") .kString
  reps : Registers m (literal "-r") .kInt
  chunk : Registers m (literal "-c") .kInt

theorem registered : ∃ m, options = .ok m ∧ AllSound m ∧ Registered m := by
  have hcheck : (options.toOption.any fun m => m.plain && (registersMap m (literal "-m") [0, 1, 2, 3] &&
      (registersMap m (literal "-s") [0, 1, 2] && (registers m (literal "-t") .kString &&
      (registers m (literal "-o") .kString && (registers m (literal "-f") .kString &&
      (registers m (literal "-out") .kString && (registers m (literal "-r") .kInt &&
      registers m (literal "-c") .kInt)))))))) = true := by decide +kernel
  obtain ⟨m, hm, h⟩ := toOption_any hcheck
  simp only [Bool.and_eq_true] at h
  obtain ⟨hplain, hmode, hstor, ht, ho, hf, hout, hr, hc⟩ := h
  exact ⟨m, hm, allSound_of_plain hplain, registersMap_of _ hmode, registersMap_of _ hstor, registers_of _ ht,
    registers_of _ ho, registers_of _ hf, registers_of _ hout, registers_of _ hr, registers_of _ hc⟩

theorem Registered.filled {m m' : ArgMap} (h : Registered m) (hfilled : Filled m m') : Registered m' :=
  ⟨hfilled.registersMap h.mode, hfilled.registersMap h.storType, hfilled.registers h.tracePath,
    hfilled.registers h.outputPath, hfilled.registers h.symbiosConf, hfilled.registers h.out,
    hfilled.registers h.reps, hfilled.registers h.chunk⟩

theorem verifyArgs_ok {m : ArgMap} : verifyArgs m = .ok () ↔
    ∀ opt ∈ [literal "-r", literal "-m", literal "-s", literal "-t", literal "-o", literal "-c", literal "-f"],
      m.optIsSet opt = true := by
  simp only [verifyArgs, assert_bind, assert_ok, List.forall_mem_cons]
  simp only [List.not_mem_nil, false_imp_iff, implies_true, and_true]

/-- **What a replay application reads is there**: once its arguments are accepted, `main` neither throws nor is
undefined, and the mode and the storage are among those it knows. -/
theorem replay_reads (stof : List UInt8 → Except ArgFault UInt32) (argv : List (List UInt8)) (rank : Nat)
    {m : ArgMap} (h : construct stof argv = .ok m) :
    ∃ r, main m rank = .ok r ∧ r.mode ∈ [0, 1, 2, 3] ∧ r.storType ∈ [0, 1, 2] := by
  obtain ⟨m₀, hoptions, hsound, hregistered⟩ := registered
  obtain ⟨hfilled, hverify⟩ := construct_filled hoptions hsound h
  have hm := hregistered.filled hfilled
  have hset := verifyArgs_ok.mp hverify
  obtain ⟨ids, hids, hmodes⟩ := hm.mode
  obtain ⟨val, mode, hval, hmode⟩ := getIntOpt_mapped hfilled.sound (hset _ (by simp)) hids
  obtain ⟨ids', hids', hstors⟩ := hm.storType
  obtain ⟨val', storType, hval', hstor⟩ := getIntOpt_mapped hfilled.sound (hset _ (by simp)) hids'
  obtain ⟨reps, hreps⟩ := getIntOpt_ok hfilled.sound (hset _ (by simp)) hm.reps.choose_spec
  obtain ⟨chunk, hchunk⟩ := getIntOpt_ok hfilled.sound (hset _ (by simp)) hm.chunk.choose_spec
  obtain ⟨tracePath, htrace⟩ := getStringOpt_ok hfilled.sound (hset _ (by simp)) hm.tracePath.choose_spec
  obtain ⟨outputPath, houtput⟩ := getStringOpt_ok hfilled.sound (hset _ (by simp)) hm.outputPath.choose_spec
  obtain ⟨conf, hconf⟩ := getStringOpt_ok hfilled.sound (hset _ (by simp)) hm.symbiosConf.choose_spec
  obtain ⟨out, hout⟩ : ∃ out, (if rank = 0 then m.getOptional ArgMap.getStringOpt (literal "-out") else .ok none) =
      Except.ok out := by
    split_ifs
    · exact getOptional_ok fun hout => getStringOpt_ok hfilled.sound hout hm.out.choose_spec
    · exact ⟨none, rfl⟩
  refine ⟨⟨reps, mode, storType, chunk, tracePath, outputPath, conf, out⟩, ?_, hmodes val mode hval,
    hstors val' storType hval'⟩
  simp only [main, hreps, hmode, hstor, hchunk, htrace, houtput, hconf, ok_bind]
  by_cases hrank : rank = 0
  · rw [if_pos hrank] at hout ⊢
    rw [hout]
    rfl
  · rw [if_neg hrank] at hout ⊢
    rw [← Except.ok.inj hout]
    rfl

theorem replay_reads_symbios : ∃ m, construct (fun _ => .error .invalidArgument) (["wrf", "-r", "2", "-m", "SYMBIOS",
      "-s", "REDIS", "-t", "traces", "-o", "data", "-c", "65536", "-f", "conf.json"].map literal) = .ok m ∧
    ∃ r, main m 0 = .ok r ∧ r.mode ∈ [0, 1, 2, 3] ∧ r.storType ∈ [0, 1, 2] := by
  refine Exists.imp (fun m hm => ⟨hm.1, replay_reads _ _ 0 hm.1⟩) (toOption_any (p := fun _ => true) ?_)
  decide +kernel

end ReplayArgs

/-! ## `BenchmarkArgs` -/

namespace BenchmarkArgs

/-- What the program registers; the port has a default. -/
structure Registered (m : ArgMap) : Prop where
  workload : RegistersMap m (literal "-w") [0, 1, 2]
  storageService : RegistersMap m (literal "-s") [0, 1, 2]
  accessPattern : RegistersMap m (literal "-ap") [0, 4]
  strings : ∀ opt ∈ [literal "-caddr", literal "-path", literal "-config", literal "-out"], Registers m opt .kString
  ints : ∀ opt ∈ [literal "-cport", literal "-md_depth", literal "-seed"], Registers m opt .kInt
  floats : ∀ opt ∈ [literal "-rfrac", literal "-wfrac"], Registers m opt .kFloat
  sizes : ∀ opt ∈ [literal "-bs", literal "-fs", literal "-tot", literal "-md_fcnt"], Registers m opt .kSize
  port : m.optIsSet (literal "-cport") = true

theorem registered : ∃ m, options = .ok m ∧ AllSound m ∧ Registered m := by
  have hcheck : (options.toOption.any fun m => m.plain && (registersMap m (literal "-w") [0, 1, 2] &&
      (registersMap m (literal "-s") [0, 1, 2] && (registersMap m (literal "-ap") [0, 4] &&
      ([literal "-caddr", literal "-path", literal "-config", literal "-out"].all (registers m · .kString) &&
      ([literal "-cport", literal "-md_depth", literal "-seed"].all (registers m · .kInt) &&
      ([literal "-rfrac", literal "-wfrac"].all (registers m · .kFloat) &&
      ([literal "-bs", literal "-fs", literal "-tot", literal "-md_fcnt"].all (registers m · .kSize) &&
      m.optIsSet (literal "-cport"))))))))) = true := by decide +kernel
  obtain ⟨m, hm, h⟩ := toOption_any hcheck
  simp only [Bool.and_eq_true] at h
  obtain ⟨hplain, hw, hs, hap, hstrings, hints, hfloats, hsizes, hport⟩ := h
  have hall : ∀ {opts : List (List UInt8)} {type : ArgType}, opts.all (registers m · type) = true →
      ∀ opt ∈ opts, Registers m opt type := fun h opt hopt => registers_of _ (List.all_eq_true.mp h opt hopt)
  exact ⟨m, hm, allSound_of_plain hplain, registersMap_of _ hw, registersMap_of _ hs, registersMap_of _ hap,
    hall hstrings, hall hints, hall hfloats, hall hsizes, hport⟩

theorem Registered.filled {m m' : ArgMap} (h : Registered m) (hfilled : Filled m m') : Registered m' where
  workload := hfilled.registersMap h.workload
  storageService := hfilled.registersMap h.storageService
  accessPattern := hfilled.registersMap h.accessPattern
  strings := fun opt hopt => hfilled.registers (h.strings opt hopt)
  ints := fun opt hopt => hfilled.registers (h.ints opt hopt)
  floats := fun opt hopt => hfilled.registers (h.floats opt hopt)
  sizes := fun opt hopt => hfilled.registers (h.sizes opt hopt)
  port := hfilled.set _ h.port

section reads

variable {m : ArgMap} (hsound : AllSound m) (h : Registered m)
include hsound h

theorem string_ok {opt : List UInt8} (hopt : opt ∈ [literal "-caddr", literal "-path", literal "-config", literal "-out"])
    (hset : m.optIsSet opt = true) : ∃ s, m.getStringOpt opt = .ok s :=
  getStringOpt_ok hsound hset (h.strings opt hopt).choose_spec

theorem int_ok {opt : List UInt8} (hopt : opt ∈ [literal "-cport", literal "-md_depth", literal "-seed"])
    (hset : m.optIsSet opt = true) : ∃ i, m.getIntOpt opt = .ok i :=
  getIntOpt_ok hsound hset (h.ints opt hopt).choose_spec

theorem float_ok {opt : List UInt8} (hopt : opt ∈ [literal "-rfrac", literal "-wfrac"])
    (hset : m.optIsSet opt = true) : ∃ bits, m.getFloatOpt opt = .ok bits :=
  getFloatOpt_ok hsound hset (h.floats opt hopt).choose_spec

theorem size_ok {opt : List UInt8} (hopt : opt ∈ [literal "-bs", literal "-fs", literal "-tot", literal "-md_fcnt"])
    (hset : m.optIsSet opt = true) : ∃ n, m.getSizeOpt opt = .ok n :=
  getSizeOpt_ok hsound hset (h.sizes opt hopt).choose_spec

/-- The access pattern has a class, and a seed is read if there is one. -/
theorem createDist_ok : ∃ dist, createDist m = .ok dist := by
  obtain ⟨ids, hids, -⟩ := h.accessPattern
  obtain ⟨ap, hap⟩ : ∃ ap, m.getOptional ArgMap.getIntOpt (literal "-ap") = .ok ap :=
    getOptional_ok fun hset => (getIntOpt_mapped hsound hset hids).elim fun _ ⟨id, _, hid⟩ => ⟨id, hid⟩
  obtain ⟨seed, hseed⟩ : ∃ seed, m.getOptional ArgMap.getIntOpt (literal "-seed") = .ok seed :=
    getOptional_ok (int_ok hsound h (by simp))
  simp only [createDist, hap, ok_bind]
  by_cases huniform : ap.getD 0 = 4
  · rw [if_pos huniform, hseed]
    exact ⟨_, rfl⟩
  · rw [if_neg huniform]
    exact ⟨_, rfl⟩

/-- `-config` is there where `-out` is. -/
theorem stats_ok (hverify : verifyOut m = .ok ()) (rank : Nat) : ∃ s, stats m rank = .ok s := by
  unfold verifyOut at hverify
  unfold stats
  by_cases hout : m.optIsSet (literal "-out") = true
  · rw [if_pos hout] at hverify ⊢
    obtain ⟨conf, hconf⟩ := string_ok hsound h (by simp) (assert_ok.mp hverify)
    obtain ⟨output, houtput⟩ := string_ok hsound h (by simp) hout
    rw [hconf, houtput]
    by_cases hrank : rank = 0
    · rw [if_pos hrank]
      exact ⟨_, rfl⟩
    · rw [if_neg hrank]
      exact ⟨_, rfl⟩
  · rw [if_neg hout]
    exact ⟨_, rfl⟩

/-- A storage that is known has an address and a client. -/
theorem storage_ok {service : Int32} (hservice : service ∈ [(0 : Int32), 1, 2])
    (hverify : verifyStorageService m service = .ok ()) :
    (∃ addr, m.getStringOpt (literal "-caddr") = .ok addr) ∧ ∃ io, getIoClient service = .ok io := by
  have hcaddr : m.optIsSet (literal "-caddr") = true ∧ ∃ io, getIoClient service = .ok io := by
    rw [List.mem_cons, List.mem_cons, List.mem_singleton] at hservice
    rcases hservice with rfl | rfl | rfl
    · exact ⟨assert_ok.mp hverify, .kOrangefs, rfl⟩
    · exact ⟨(assert_bind.mp hverify).1, .kMongo, rfl⟩
    · exact ⟨(assert_bind.mp hverify).1, .kRedis, rfl⟩
  exact ⟨string_ok hsound h (by simp) hcaddr.1, hcaddr.2⟩

/-- What is asserted for a workload is what it reads. -/
theorem workload_ok {w : Int32} (hw : w ∈ [(0 : Int32), 1, 2]) (hverify : verifyWorkload m w = .ok ()) (rank : Nat) :
    ∃ x, workload m rank w = .ok x ∧ x ≠ .none := by
  rw [List.mem_cons, List.mem_cons, List.mem_singleton] at hw
  rcases hw with rfl | rfl | rfl
  · obtain ⟨hpath, hfs⟩ := assert_bind.mp hverify
    obtain ⟨path, hpath⟩ := string_ok hsound h (by simp) hpath
    obtain ⟨fileSize, hfs⟩ := size_ok hsound h (by simp) (assert_ok.mp hfs)
    refine ⟨.prealloc path fileSize, ?_, Workload.noConfusion⟩
    rw [workload, if_pos rfl, hpath, hfs]
    rfl
  · replace hverify : (do
        m.assertOptIsSet (literal "-path"); m.assertOptIsSet (literal "-rfrac")
        m.assertOptIsSet (literal "-wfrac"); m.assertOptIsSet (literal "-bs"); m.assertOptIsSet (literal "-fs")
        m.assertOptIsSet (literal "-tot"); verifyOut m : Except ArgFault Unit) = .ok () := hverify
    simp only [assert_bind] at hverify
    obtain ⟨hpath, hrfrac, hwfrac, hbs, hfs, htot, hout⟩ := hverify
    obtain ⟨path, hpath⟩ := string_ok hsound h (by simp) hpath
    obtain ⟨rfrac, hrfrac⟩ := float_ok hsound h (by simp) hrfrac
    obtain ⟨wfrac, hwfrac⟩ := float_ok hsound h (by simp) hwfrac
    obtain ⟨blockSize, hbs⟩ := size_ok hsound h (by simp) hbs
    obtain ⟨fileSize, hfs⟩ := size_ok hsound h (by simp) hfs
    obtain ⟨totBytes, htot⟩ := size_ok hsound h (by simp) htot
    obtain ⟨dist, hdist⟩ := createDist_ok hsound h
    obtain ⟨s, hs⟩ := stats_ok hsound h hout rank
    refine ⟨.ioOnlyFs path rfrac wfrac blockSize fileSize totBytes (m.optIsSet (literal "-direct")) dist s, ?_,
      Workload.noConfusion⟩
    rw [workload, if_neg (by decide), if_pos rfl, hpath, hrfrac, hwfrac, hbs, hfs, htot, hdist, hs]
    rfl
  · replace hverify : (do
        m.assertOptIsSet (literal "-md_depth"); m.assertOptIsSet (literal "-md_fcnt")
        m.assertOptIsSet (literal "-path"); verifyOut m : Except ArgFault Unit) = .ok () := hverify
    simp only [assert_bind] at hverify
    obtain ⟨hdepth, hfcnt, hpath, hout⟩ := hverify
    obtain ⟨depth, hdepth⟩ := int_ok hsound h (by simp) hdepth
    obtain ⟨fcnt, hfcnt⟩ := size_ok hsound h (by simp) hfcnt
    obtain ⟨path, hpath⟩ := string_ok hsound h (by simp) hpath
    obtain ⟨s, hs⟩ := stats_ok hsound h hout rank
    refine ⟨.mdFs fcnt depth path s, ?_, Workload.noConfusion⟩
    rw [workload, if_neg (by decide), if_neg (by decide), if_pos rfl, hfcnt, hdepth, hpath, hs]
    rfl

end reads

/-- **What the benchmark reads is there**: once its arguments are accepted, no getter of `main` or of the workload
throws or is undefined, the storage has a client, and a workload runs. -/
theorem benchmark_reads (stof : List UInt8 → Except ArgFault UInt32) (argv : List (List UInt8)) (rank : Nat)
    {m : ArgMap} (h : construct stof argv = .ok m) :
    ∃ io addr port w, main m rank = .ok (io, addr, port, w) ∧ w ≠ .none := by
  obtain ⟨m₀, hoptions, hsound, hregistered⟩ := registered
  obtain ⟨hfilled, hverify⟩ := construct_filled hoptions hsound h
  have hm := hregistered.filled hfilled
  obtain ⟨port, hport⟩ := int_ok hfilled.sound hm (by simp) hm.port
  rw [verifyArgs, assert_bind] at hverify
  obtain ⟨hs, hverify⟩ := hverify
  obtain ⟨ids, hids, hservices⟩ := hm.storageService
  obtain ⟨val, service, hval, hservice⟩ := getIntOpt_mapped hfilled.sound hs hids
  rw [hservice, ok_bind] at hverify
  obtain ⟨u, hstorage, hverify⟩ := ok_of_bind hverify
  obtain ⟨⟨addr, haddr⟩, io, hio⟩ := storage_ok hfilled.sound hm (hservices val service hval) hstorage
  obtain ⟨hw, hverify⟩ := assert_bind.mp hverify
  obtain ⟨ids', hids', hworkloads⟩ := hm.workload
  obtain ⟨val', w, hval', hw⟩ := getIntOpt_mapped hfilled.sound hw hids'
  rw [hw, ok_bind] at hverify
  obtain ⟨x, hx, hne⟩ := workload_ok hfilled.sound hm (hworkloads val' w hval') hverify rank
  refine ⟨io, addr, port, x, ?_, hne⟩
  rw [main, hservice, ok_bind, hio, haddr, hport, hw]
  simp only [ok_bind, hx]
  rfl

theorem benchmark_reads_metadata : ∃ m, construct (fun _ => .error .invalidArgument) (["benchmark", "-s", "orangefs",
      "-caddr", "mnt", "-w", "md-fs", "-md_depth", "3", "-md_fcnt", "1k", "-path", "dir", "-out", "out.csv", "-config",
      "two"].map literal) = .ok m ∧
    ∃ io addr port w, main m 0 = .ok (io, addr, port, w) ∧ w ≠ .none := by
  refine Exists.imp (fun m hm => ⟨hm.1, benchmark_reads _ _ 0 hm.1⟩) (toOption_any (p := fun _ => true) ?_)
  decide +kernel

end BenchmarkArgs

end Symbios
