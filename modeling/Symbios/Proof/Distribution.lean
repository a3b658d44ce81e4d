import Mathlib.Data.Int.CardIntervalMod
import Symbios.Model.Distribution

/-!
# Every placement is complete

A table that `config` has built has the keys `0..n-1` (`config_lookup`), the remainder modulo its size comes through the
`int16_t` unchanged (`index_toNat`), and what `HeuristicsDDE` keeps in its map, entries inserted on a miss included, are
keys of the table (`Selects`). So no call inserts into the table, along any run (`run_usable`). Over consecutive values
of the sequence the round robin is balanced (`roundRobin_balanced`).
-/

namespace Symbios

open StorageSolutions UnorderedMap

/-! ## The table -/

theorem config_concat (types : List (Option IoClientType)) (type : Option IoClientType) :
    config (types ++ [type]) = insertNew (config types) (UInt16.ofNat types.length) type := by
  rw [config, List.zipIdx_append, List.foldl_append, Nat.zero_add]
  rfl

/-- The key of the next entry is not in the table. -/
theorem next_notMem {types : List (Option IoClientType)} (hlength : types.length < 2 ^ 16)
    (hlookup : ∀ key : UInt16, (config types).lookup key = types[key.toNat]?) :
    UInt16.ofNat types.length ∉ config types := by
  rw [← AList.lookup_eq_none, hlookup, UInt16.toNat_ofNat_of_lt' hlength, List.getElem?_eq_none_iff]

/-- Key `i` of the table is entry `i` of the file. -/
theorem config_lookup (types : List (Option IoClientType)) (hlength : types.length ≤ 2 ^ 16) (key : UInt16) :
    (config types).lookup key = types[key.toNat]? := by
  induction types using List.reverseRecOn generalizing key with
  | nil => rfl
  | append_singleton types type ih =>
    rw [List.length_append, List.length_singleton] at hlength
    have hword : (UInt16.ofNat types.length).toNat = types.length := UInt16.toNat_ofNat_of_lt' hlength
    rw [config_concat, insertNew_miss (next_notMem hlength (ih (by omega)))]
    by_cases hkey : key = UInt16.ofNat types.length
    · rw [hkey, AList.lookup_insert, hword, List.getElem?_concat_length]
    · have hne : key.toNat ≠ types.length := by
        intro h
        exact hkey (by rw [← h, UInt16.ofNat_toNat])
      rw [AList.lookup_insert_ne hkey, ih (by omega)]
      rcases Nat.lt_or_gt_of_ne hne with hlt | hgt
      · rw [List.getElem?_append_left hlt]
      · rw [List.getElem?_eq_none hgt.le, List.getElem?_eq_none]
        rw [List.length_append, List.length_singleton]
        omega

theorem config_length (types : List (Option IoClientType)) (hlength : types.length ≤ 2 ^ 16) :
    (config types).entries.length = types.length := by
  induction types using List.reverseRecOn with
  | nil => rfl
  | append_singleton types type ih =>
    rw [List.length_append, List.length_singleton] at hlength
    have hnew := next_notMem hlength (config_lookup types (by omega))
    rw [config_concat, insertNew_miss hnew, AList.entries_insert_of_notMem hnew, List.length_cons, ih (by omega),
      List.length_append, List.length_singleton]

/-- A table that `config` has built of these entries, in whatever order it is iterated. -/
structure Configured (types : List (Option IoClientType)) (table : StorageSolutions) : Prop where
  entries : table.entries.Perm (config types).entries
  pos : 0 < types.length
  le : types.length ≤ 2 ^ 16

namespace Configured

variable {types : List (Option IoClientType)} {table : StorageSolutions}

theorem lookup (h : Configured types table) (key : UInt16) : table.lookup key = types[key.toNat]? := by
  rw [AList.perm_lookup h.entries, config_lookup types h.le]

theorem size_toNat (h : Configured types table) : table.size.toNat = types.length := by
  have hle := h.le
  rw [StorageSolutions.size, h.entries.length_eq, config_length types h.le,
    UInt64.toNat_ofNat_of_lt' (by simp [UInt64.size]; omega)]

/-- A remainder modulo the size comes through the `int16_t`. -/
theorem index_toNat (h : Configured types table) (value : UInt64) :
    (value % table.size).toUInt16.toInt16.toUInt16.toNat = value.toNat % types.length := by
  have hlt := Nat.mod_lt value.toNat h.pos
  have hle := h.le
  rw [UInt16.toUInt16_toInt16, UInt64.toNat_toUInt16, UInt64.toNat_mod, h.size_toNat, Nat.mod_eq_of_lt (by omega)]

end Configured

/-! ## One call -/

/-- A usable result: one distribution, which is the request with a configured storage as its destination. -/
def Usable (table : StorageSolutions) (source destination : Data) (result : List DataDistribution) : Prop :=
  ∃ (key : UInt16) (type : IoClientType), table.lookup key = some (some type) ∧
    result = [{ sourceData := source, destinationData := { destination with storageIndex := key.toNat },
                storageIndex := source.storageIndex }]

section call

variable {types : List (Option IoClientType)} {table : StorageSolutions}

/-- A known key: nothing is inserted. -/
theorem distributeTo_known {index : Int16} {value : Option IoClientType} (h : table.lookup index.toUInt16 = some value)
    (source destination : Data) :
    distributeTo index table source destination =
      ([{ sourceData := source, destinationData := { destination with storageIndex := index.toUInt16.toNat },
          storageIndex := source.storageIndex }], table) := by
  rw [distributeTo, subscript_hit h]

/-- A remainder modulo the size is a known key. -/
theorem Configured.lookup_index (h : Configured types table) (value : UInt64) :
    ∃ type, table.lookup (value % table.size).toUInt16.toInt16.toUInt16 = some type ∧ type ∈ types := by
  have hlt := Nat.mod_lt value.toNat h.pos
  rw [h.lookup, h.index_toNat]
  exact ⟨_, List.getElem?_eq_getElem hlt, List.getElem_mem hlt⟩

/-- The indices that `maps` holds are keys of storages. -/
def Selects (table : StorageSolutions) (maps : HeuristicsDDE) : Prop :=
  ∀ t entry, maps.lookup t = some entry → ∃ type, table.lookup entry.1 = some (some type)

/-- What the constructor does with entries that are all in the table. -/
theorem heuristics_foldlM (hnull : ∀ key, table.lookup key ≠ some none) :
    ∀ (entries : List (Sigma fun _ : UInt16 => Option IoClientType)) (maps : HeuristicsDDE),
      (∀ entry ∈ entries, table.lookup entry.1 = some entry.2) → Selects table maps →
      ∃ maps', entries.foldlM (fun maps entry => entry.2.map fun type => insertNew maps type (entry.1, entry.2)) maps =
        some maps' ∧ Selects table maps' := by
  intro entries
  induction entries with
  | nil => exact fun maps _ hmaps => ⟨maps, rfl, hmaps⟩
  | cons entry entries ih =>
    intro maps hentries hmaps
    obtain ⟨key, pointer⟩ := entry
    have hkey := hentries _ List.mem_cons_self
    cases pointer with
    | none => exact absurd hkey (hnull key)
    | some type =>
      rw [List.foldlM_cons]
      exact ih _ (fun entry h => hentries entry (List.mem_cons_of_mem _ h)) (insertNew_forall hmaps ⟨type, hkey⟩)

theorem heuristics_new (hnull : ∀ key, table.lookup key ≠ some none) :
    ∃ maps, HeuristicsDDE.new table = some maps ∧ Selects table maps := by
  apply heuristics_foldlM hnull
  · intro entry hentry
    exact AList.mem_lookup_iff.mpr hentry
  · intro t entry h
    cases h

/-- A call of the heuristics, with the preferred backend configured or not. -/
theorem heuristics_distribute (hzero : ∃ type, table.lookup 0 = some (some type)) {maps : HeuristicsDDE}
    (hmaps : Selects table maps) (source destination : Data) :
    Usable table source destination (maps.distribute table source destination).1 ∧
      Selects table (maps.distribute table source destination).2.1 ∧
      (maps.distribute table source destination).2.2 = table := by
  have hentry : (∃ type, table.lookup (subscript (0, none) maps (HeuristicsDDE.preferred destination)).1.1 =
      some (some type)) ∧ Selects table (subscript (0, none) maps (HeuristicsDDE.preferred destination)).2 := by
    cases hlookup : maps.lookup (HeuristicsDDE.preferred destination) with
    | some entry =>
      rw [subscript_hit hlookup]
      exact ⟨hmaps _ _ hlookup, hmaps⟩
    | none =>
      -- the default entry has index 0, which is a key as well
      rw [subscript_miss hlookup]
      exact ⟨hzero, insert_forall hmaps hzero⟩
  obtain ⟨⟨type, htype⟩, hmaps'⟩ := hentry
  have hindex : table.lookup
      (subscript (0, none) maps (HeuristicsDDE.preferred destination)).1.1.toInt16.toUInt16 = some (some type) := by
    rw [UInt16.toUInt16_toInt16, htype]
  have hdistribute := distributeTo_known hindex source destination
  rw [HeuristicsDDE.distribute]
  dsimp only
  rw [hdistribute]
  exact ⟨⟨_, type, hindex, rfl⟩, hmaps', rfl⟩

end call

/-! ## Runs -/

/-- What the engines keep: the map of the heuristics holds keys of the table. -/
def Engine.Sound (table : StorageSolutions) : Engine → Prop
  | random => True
  | roundRobin => True
  | heuristics maps => Selects table maps
  | dynamicProgramming => False

section run

variable {types : List (Option IoClientType)} {table : StorageSolutions}

theorem distributeTo_usable (h : Configured types table) (hknown : none ∉ types) (value : UInt64)
    (source destination : Data) :
    Usable table source destination (distributeTo (value % table.size).toUInt16.toInt16 table source destination).1 ∧
      (distributeTo (value % table.size).toUInt16.toInt16 table source destination).2 = table := by
  obtain ⟨pointer, hlookup, hmem⟩ := h.lookup_index value
  obtain ⟨type, rfl⟩ := Option.ne_none_iff_exists'.mp fun hnone => hknown (hnone ▸ hmem)
  rw [distributeTo_known hlookup]
  exact ⟨⟨_, type, hlookup, rfl⟩, rfl⟩

theorem Configured.not_null (h : Configured types table) (hknown : none ∉ types) (key : UInt16) :
    table.lookup key ≠ some none := by
  intro hnull
  rw [h.lookup] at hnull
  exact hknown (List.mem_of_getElem? hnull)

theorem Configured.lookup_zero (h : Configured types table) (hknown : none ∉ types) :
    ∃ type, table.lookup 0 = some (some type) := by
  obtain ⟨type, rest, rfl⟩ := List.exists_cons_of_ne_nil (List.length_pos_iff.mp h.pos)
  obtain ⟨type, rfl⟩ := Option.ne_none_iff_exists'.mp fun hnone => hknown (hnone ▸ List.mem_cons_self)
  exact ⟨type, by rw [h.lookup]; rfl⟩

theorem Engine.new_sound (h : Configured types table) (hknown : none ∉ types) {policy : DataDistributionPolicy}
    (hpolicy : policy ≠ .dynamicProgrammingPolicy) : ∃ engine, Engine.new table policy = some engine ∧
      engine.Sound table := by
  cases policy with
  | randomPolicy => exact ⟨_, rfl, trivial⟩
  | roundRobinPolicy => exact ⟨_, rfl, trivial⟩
  | heuristicsPolicy =>
    obtain ⟨maps, hmaps, hselects⟩ := heuristics_new (h.not_null hknown)
    exact ⟨.heuristics maps, by rw [Engine.new, hmaps]; rfl, hselects⟩
  | dynamicProgrammingPolicy => exact absurd rfl hpolicy

/-- One call. -/
theorem Engine.distribute_usable (h : Configured types table) (hknown : none ∉ types) {engine : Engine}
    (hsound : engine.Sound table) (call : Call) :
    Usable table call.source call.destination (engine.distribute table call).1 ∧
      (engine.distribute table call).2.1.Sound table ∧ (engine.distribute table call).2.2 = table := by
  cases engine with
  | random =>
    obtain ⟨husable, htable⟩ := distributeTo_usable h hknown call.randomNumber.toInt64.toUInt64 call.source call.destination
    exact ⟨husable, trivial, htable⟩
  | roundRobin =>
    obtain ⟨husable, htable⟩ := distributeTo_usable h hknown call.nextValue call.source call.destination
    exact ⟨husable, trivial, htable⟩
  | heuristics maps => exact heuristics_distribute (h.lookup_zero hknown) hsound call.source call.destination
  | dynamicProgramming => exact hsound.elim

theorem Engine.run_sound (h : Configured types table) (hknown : none ∉ types) (calls : List Call) :
    ∀ engine : Engine, engine.Sound table →
      List.Forall₂ (fun call => Usable table call.source call.destination) calls (engine.run table calls).1 ∧
        (engine.run table calls).2.2 = table := by
  induction calls with
  | nil => exact fun engine _ => ⟨.nil, rfl⟩
  | cons call calls ih =>
    intro engine hsound
    obtain ⟨husable, hsound', htable⟩ := Engine.distribute_usable h hknown hsound call
    rw [Engine.run]
    dsimp only
    rw [htable]
    obtain ⟨hrest, htable'⟩ := ih _ hsound'
    exact ⟨.cons husable hrest, htable'⟩

end run

/-- Every implemented policy returns a usable, complete placement, call after call, and leaves the table as it is. -/
theorem Engine.run_usable (types : List IoClientType) (table : StorageSolutions)
    (htable : Configured (types.map some) table) (policy : DataDistributionPolicy)
    (hpolicy : policy ≠ .dynamicProgrammingPolicy) (calls : List Call) :
    ∃ engine, Engine.new table policy = some engine ∧
      List.Forall₂ (fun call => Usable table call.source call.destination) calls (engine.run table calls).1 ∧
      (engine.run table calls).2.2 = table := by
  have hknown : none ∉ types.map some := by simp
  obtain ⟨engine, hnew, hsound⟩ := Engine.new_sound htable hknown hpolicy
  exact ⟨engine, hnew, Engine.run_sound htable hknown calls engine hsound⟩

theorem Engine.run_usable_file : ∃ engine, Engine.new (config [some .fileIo]) .heuristicsPolicy = some engine ∧
    (engine.run (config [some .fileIo]) [⟨0, 0, {}, {}⟩]).2.2 = config [some .fileIo] := by
  obtain ⟨engine, hnew, -, htable⟩ := Engine.run_usable [.fileIo] (config [some .fileIo])
    ⟨.refl _, by decide, by decide⟩ .heuristicsPolicy (by decide) [⟨0, 0, {}, {}⟩]
  exact ⟨engine, hnew, htable⟩

/-! ## The round robin -/

/-- The storages that were selected, one call after the other. -/
def selections (results : List (List DataDistribution)) : List Nat :=
  results.flatten.map fun d => d.destinationData.storageIndex

section roundRobin

variable {types : List (Option IoClientType)} {table : StorageSolutions}

theorem roundRobin_call (h : Configured types table) (call : Call) :
    Engine.roundRobin.distribute table call =
      ([{ sourceData := call.source
          destinationData := { call.destination with storageIndex := call.nextValue.toNat % types.length }
          storageIndex := call.source.storageIndex }], Engine.roundRobin, table) := by
  obtain ⟨pointer, hlookup, -⟩ := h.lookup_index call.nextValue
  rw [Engine.distribute, RoundRobinDDE.distribute, distributeTo_known hlookup, h.index_toNat]

theorem selections_roundRobin (h : Configured types table) (calls : List Call) :
    selections (Engine.roundRobin.run table calls).1 = calls.map fun call => call.nextValue.toNat % types.length := by
  induction calls with
  | nil => rfl
  | cons call calls ih =>
    rw [Engine.run, roundRobin_call h]
    exact congrArg (_ :: ·) ih

end roundRobin

/-! ## The engines of the server -/

section server

variable {conf : ConfigurationManager} {types : List (Option IoClientType)} {table : StorageSolutions}

/-- The constructor keeps the first storage of a type. -/
theorem heuristics_first {t : IoClientType} :
    ∀ (entries : List (Sigma fun _ : UInt16 => Option IoClientType)) (maps maps' : HeuristicsDDE),
      entries.foldlM (fun maps entry => entry.2.map fun type => insertNew maps type (entry.1, entry.2)) maps =
        some maps' →
      maps'.lookup t = (maps.lookup t).or ((entries.find? fun entry => entry.2 = some t).map fun entry => (entry.1, entry.2)) := by
  intro entries
  induction entries with
  | nil =>
    intro maps maps' h
    cases h
    simp
  | cons entry entries ih =>
    intro maps maps' h
    obtain ⟨key, pointer⟩ := entry
    cases pointer with
    | none => cases h
    | some type =>
      rw [List.foldlM_cons] at h
      rw [ih _ _ h, List.find?_cons]
      by_cases htype : type = t
      · rw [htype]
        by_cases hmem : t ∈ maps
        · obtain ⟨value, hvalue⟩ := exists_lookup hmem
          simp [insertNew_hit hmem, hvalue]
        · simp [insertNew_miss hmem, AList.lookup_eq_none.mpr hmem]
      · have hlookup : (insertNew maps type (key, some type)).lookup t = maps.lookup t := by
          unfold insertNew
          split_ifs
          · rfl
          · exact AList.lookup_insert_ne (Ne.symm htype)
        simp [hlookup, htype]

/-- With a table in the order of the configuration, the round robin is the engine of the server. -/
theorem roundRobin_eq (h : Configured types table) (hconf : types.length = conf.storageSolutions.length)
    (hpolicy : conf.dataDistributionPolicy = .roundRobinPolicy) (call : Call) :
    (Engine.roundRobin.distribute table call).1 =
      DataDistributionEngine.distribute conf call.nextValue.toNat call.source call.destination := by
  have hlt := Nat.mod_lt call.nextValue.toNat conf.solutions_pos
  have hle := conf.solutions_le
  rw [roundRobin_call h, DataDistributionEngine.distribute, if_neg (by rw [hpolicy]; decide),
    DataDistributionEngine.selectedIndex, hpolicy, hconf]
  dsimp only
  rw [Nat.mod_eq_of_lt (show call.nextValue.toNat % conf.storageSolutions.length < 2 ^ 16 by omega)]

/-- The index that the heuristics have for a type. -/
theorem heuristicsIndex_eq (htable : table.entries = conf.storageSolutions.map fun s => ⟨.ofNat s.1, some s.2⟩)
    {maps : HeuristicsDDE} (hmaps : HeuristicsDDE.new table = some maps) (t : IoClientType) :
    (subscript (0, none) maps t).1.1 = UInt16.ofNat (DataDistributionEngine.heuristicsIndex conf t) := by
  have hfirst := heuristics_first (t := t) _ _ _ hmaps
  rw [AList.lookup_empty, Option.none_or, htable, List.find?_map] at hfirst
  rw [subscript_value, hfirst, DataDistributionEngine.heuristicsIndex]
  have hsame : ((fun entry : Sigma fun _ : UInt16 => Option IoClientType => decide (entry.2 = some t)) ∘
      fun s : Nat × IoClientType => ⟨UInt16.ofNat s.1, some s.2⟩) = fun s : Nat × IoClientType => decide (s.2 = t) := by
    funext s
    simp
  rw [hsame]
  cases conf.storageSolutions.find? fun s => decide (s.2 = t) with
  | none => rfl
  | some s => rfl

/-- A new engine of the heuristics is the engine of the server. -/
theorem heuristics_eq (htable : table.entries = conf.storageSolutions.map fun s => ⟨.ofNat s.1, some s.2⟩)
    (hpolicy : conf.dataDistributionPolicy = .heuristicsPolicy) {maps : HeuristicsDDE}
    (hmaps : HeuristicsDDE.new table = some maps) (call : Call) (draw : Nat) :
    ((Engine.heuristics maps).distribute table call).1 =
      DataDistributionEngine.distribute conf draw call.source call.destination := by
  have hindex : (UInt16.ofNat (DataDistributionEngine.heuristicsIndex conf (HeuristicsDDE.preferred call.destination))).toNat =
      DataDistributionEngine.selectedIndex conf draw call.destination := by
    rw [UInt16.toNat_ofNat', DataDistributionEngine.selectedIndex, hpolicy, HeuristicsDDE.preferred]
    dsimp only
    split_ifs <;> first | rfl | omega
  rw [Engine.distribute, HeuristicsDDE.distribute, DataDistributionEngine.distribute, if_neg (by rw [hpolicy]; decide)]
  dsimp only [distributeTo]
  rw [heuristicsIndex_eq htable hmaps, UInt16.toUInt16_toInt16, hindex]

end server

/-! ## Consecutive values -/

/-- How often a remainder occurs among `m` consecutive numbers. -/
theorem count_mod {n : Nat} (hn : 0 < n) (s m i : Nat) (hi : i < n) : ∃ v,
    ((List.range m).map fun k => (s + k) % n).count i = m / n + if v % n < m % n then 1 else 0 := by
  refine ⟨i + (n - s % n), ?_⟩
  have hcount := Nat.count_modEq_card m hn (i + (n - s % n))
  have hs := Nat.mod_lt s hn
  have hcongr : ∀ k, (k ≡ i + (n - s % n) [MOD n]) ↔ (s + k) % n = i := by
    intro k
    have hsum : s + (i + (n - s % n)) = i + n * (s / n + 1) := by
      have hdiv := Nat.div_add_mod s n
      rw [Nat.mul_add]
      omega
    have hmod : (s + (i + (n - s % n))) % n = i := by
      rw [hsum, Nat.add_mul_mod_self_left, Nat.mod_eq_of_lt hi]
    constructor
    · intro hk
      have hleft : (s + k) % n = (s + (i + (n - s % n))) % n := Nat.ModEq.add_left s hk
      rw [hleft, hmod]
    · intro hk
      exact Nat.ModEq.add_left_cancel' s (hk.trans hmod.symm)
  rw [← hcount, Nat.count, List.count, List.countP_map]
  apply List.countP_congr
  intro k _
  simp [hcongr]

/-- Any two remainders occur equally often among consecutive numbers, but for one. -/
theorem count_mod_balanced {n : Nat} (hn : 0 < n) (s m : Nat) {i j : Nat} (hi : i < n) (hj : j < n) :
    ((List.range m).map fun k => (s + k) % n).count i ≤ ((List.range m).map fun k => (s + k) % n).count j + 1 := by
  obtain ⟨v, hv⟩ := count_mod hn s m i hi
  obtain ⟨v', hv'⟩ := count_mod hn s m j hj
  rw [hv, hv']
  split_ifs <;> omega

/-- In a full cycle every remainder occurs once. -/
theorem count_mod_cycle {n : Nat} (hn : 0 < n) (s : Nat) {i : Nat} (hi : i < n) :
    ((List.range n).map fun k => (s + k) % n).count i = 1 := by
  obtain ⟨v, hv⟩ := count_mod hn s n i hi
  rw [hv, Nat.div_self hn, Nat.mod_self, if_neg (Nat.not_lt_zero _)]

/-- Round robin is balanced over consecutive values of the sequence, and any full cycle selects each storage once. -/
theorem roundRobin_balanced (types : List (Option IoClientType)) (table : StorageSolutions)
    (htable : Configured types table) (calls : List Call) (s : Nat)
    (hsequence : ∀ k (hk : k < calls.length), (calls[k]).nextValue.toNat = s + k) :
    (∀ i < types.length, ∀ j < types.length,
      (selections (Engine.roundRobin.run table calls).1).count i ≤
        (selections (Engine.roundRobin.run table calls).1).count j + 1) ∧
      ∀ a, a + types.length ≤ calls.length → ∀ i < types.length,
        (((selections (Engine.roundRobin.run table calls).1).drop a).take types.length).count i = 1 := by
  have hselections : selections (Engine.roundRobin.run table calls).1 =
      (List.range calls.length).map fun k => (s + k) % types.length := by
    rw [selections_roundRobin htable]
    apply List.ext_getElem
    · simp
    · intro k hk hk'
      rw [List.length_map] at hk
      simp [hsequence k hk]
  rw [hselections]
  constructor
  · intro i hi j hj
    exact count_mod_balanced htable.pos s calls.length hi hj
  · intro a ha i hi
    have hwindow : (((List.range calls.length).map fun k => (s + k) % types.length).drop a).take types.length =
        (List.range types.length).map fun k => (s + a + k) % types.length := by
      apply List.ext_getElem
      · simp
        omega
      · intro k hk hk'
        simp [Nat.add_assoc]
    rw [hwindow]
    exact count_mod_cycle htable.pos (s + a) hi

theorem roundRobin_balanced_two :
    (selections (Engine.roundRobin.run (config [none, none]) [⟨0, 7, {}, {}⟩, ⟨0, 8, {}, {}⟩]).1).count 1 = 1 := by
  obtain ⟨-, hcycle⟩ := roundRobin_balanced [none, none] (config [none, none]) ⟨.refl _, by decide, by decide⟩
    [⟨0, 7, {}, {}⟩, ⟨0, 8, {}, {}⟩] 7 (by decide)
  exact hcycle 0 (by decide) 1 (by decide)

end Symbios
