import Mathlib.Data.List.AList

/-!
# Unordered maps with insertion on a miss

`operator[]` and `insert` of `std::unordered_map`, over association lists: the entries are in iteration order, and a
look-up that finds nothing inserts the default value.
-/

namespace UnorderedMap

variable {κ α : Type} [DecidableEq κ]

/-- `operator[]`: a key that is not there is inserted with the default value. -/
def subscript (default : α) (map : AList fun _ : κ => α) (key : κ) : α × AList fun _ : κ => α :=
  match map.lookup key with
  | some value => (value, map)
  | none => (default, map.insert key default)

/-- `insert`: a key that is there keeps its value. -/
def insertNew (map : AList fun _ : κ => α) (key : κ) (value : α) : AList fun _ : κ => α :=
  if key ∈ map then map else map.insert key value

/-- A call of a method of `map[key]`, which is inserted first if it is not there. -/
def modify (default : α) (map : AList fun _ : κ => α) (key : κ) (f : α → α) : AList fun _ : κ => α :=
  let entry := subscript default map key
  entry.2.insert key (f entry.1)

section lemmas

variable {default value : α} {map : AList fun _ : κ => α} {key : κ}

theorem exists_lookup (h : key ∈ map) : ∃ value, map.lookup key = some value :=
  Option.isSome_iff_exists.mp (AList.lookup_isSome.mpr h)

theorem subscript_hit (h : map.lookup key = some value) : subscript default map key = (value, map) := by
  rw [subscript, h]

theorem subscript_miss (h : map.lookup key = none) : subscript default map key = (default, map.insert key default) := by
  rw [subscript, h]

theorem subscript_value (default : α) (map : AList fun _ : κ => α) (key : κ) :
    (subscript default map key).1 = (map.lookup key).getD default := by
  cases h : map.lookup key with
  | some value => rw [subscript_hit h, Option.getD_some]
  | none => rw [subscript_miss h, Option.getD_none]

theorem lookup_subscript (default : α) (map : AList fun _ : κ => α) (key k : κ) :
    (subscript default map key).2.lookup k = if k = key then some ((map.lookup key).getD default) else map.lookup k := by
  cases h : map.lookup key with
  | some value =>
    rw [subscript_hit h, Option.getD_some]
    split_ifs with hk
    · rw [hk, h]
    · rfl
  | none =>
    rw [subscript_miss h, Option.getD_none]
    split_ifs with hk
    · rw [hk, AList.lookup_insert]
    · rw [AList.lookup_insert_ne hk]

theorem lookup_modify (default : α) (map : AList fun _ : κ => α) (key : κ) (f : α → α) (k : κ) :
    (modify default map key f).lookup k = if k = key then some (f ((map.lookup key).getD default)) else map.lookup k := by
  rw [modify, subscript_value]
  split_ifs with hk
  · rw [hk, AList.lookup_insert]
  · rw [AList.lookup_insert_ne hk, lookup_subscript, if_neg hk]

theorem mem_subscript (default : α) (map : AList fun _ : κ => α) (key k : κ) :
    k ∈ (subscript default map key).2 ↔ k = key ∨ k ∈ map := by
  rw [← AList.lookup_isSome, lookup_subscript]
  split_ifs with hk
  · simp [hk]
  · simp [hk, AList.lookup_isSome]

theorem mem_modify (default : α) (map : AList fun _ : κ => α) (key : κ) (f : α → α) (k : κ) :
    k ∈ modify default map key f ↔ k = key ∨ k ∈ map := by
  rw [← AList.lookup_isSome, lookup_modify]
  split_ifs with hk
  · simp [hk]
  · simp [hk, AList.lookup_isSome]

theorem insertNew_hit (h : key ∈ map) : insertNew map key value = map := if_pos h

theorem insertNew_miss (h : key ∉ map) : insertNew map key value = map.insert key value := if_neg h

/-- What holds of all values of a map holds after one more is inserted. -/
theorem insert_forall {P : κ → α → Prop} (hmap : ∀ k v, map.lookup k = some v → P k v) (hvalue : P key value) :
    ∀ k v, (map.insert key value).lookup k = some v → P k v := by
  intro k v h
  by_cases hk : k = key
  · subst hk
    rw [AList.lookup_insert] at h
    cases h
    exact hvalue
  · rw [AList.lookup_insert_ne hk] at h
    exact hmap k v h

theorem insertNew_forall {P : κ → α → Prop} (hmap : ∀ k v, map.lookup k = some v → P k v) (hvalue : P key value) :
    ∀ k v, (insertNew map key value).lookup k = some v → P k v := by
  unfold insertNew
  split_ifs
  · exact hmap
  · exact insert_forall hmap hvalue

end lemmas

end UnorderedMap
