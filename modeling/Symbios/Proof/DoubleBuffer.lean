import Symbios.Model.Predictor

/-!
# Double buffers neither lose nor duplicate

A `push` appends to one of the two lists (`push_eq`), and a pop takes the front of one of them or finds both empty
(`pop_takes`, `pop_none`). So along any run what was pushed into a list is what was popped from it, in the same order, and
what is still in it (`run_lists`).
-/

namespace Symbios

namespace DoubleBuffer

/-! ## One call -/

variable {α : Type} {q q' : DoubleBuffer α} {tid : Bool} {obj : α}

/-- What is in the two lists. -/
def items (q : DoubleBuffer α) : List α := q.lists false ++ q.lists true

/-- `q'` is `q` with one more item in one of its lists. -/
def Pushed (q q' : DoubleBuffer α) (obj : α) : Prop := ∃ tid, q' = q.append tid obj

theorem append_items (q : DoubleBuffer α) (tid : Bool) (obj : α) : (q.append tid obj).items.Perm (q.items ++ [obj]) := by
  cases tid with
  | false =>
    simp only [items, append, Function.update_self, Function.update_of_ne (show true ≠ false by decide), List.append_assoc]
    exact (List.perm_append_comm).append_left _
  | true => simp [items, append]

theorem push_eq (q : DoubleBuffer α) (locks : TryLocks) (tid : Bool) (obj : α) :
    q.push locks tid obj = q.append (landed locks tid) obj := by
  unfold push landed
  split_ifs <;> rfl

theorem push_pushed (q : DoubleBuffer α) (locks : TryLocks) (tid : Bool) (obj : α) :
    q.Pushed (q.push locks tid obj) obj :=
  ⟨_, q.push_eq locks tid obj⟩

theorem push_items (q : DoubleBuffer α) (locks : TryLocks) (tid : Bool) (obj : α) :
    (q.push locks tid obj).items.Perm (q.items ++ [obj]) := by
  obtain ⟨tid', htid⟩ := q.push_pushed locks tid obj
  rw [htid]
  exact q.append_items tid' obj

theorem items_length (q : DoubleBuffer α) : q.items.length = q.size := List.length_append

/-- An item off the front of a list. -/
theorem items_of_front {rest : List α} (h : q.lists tid = obj :: rest) :
    q.items.Perm (obj :: ({ lists := Function.update q.lists tid rest } : DoubleBuffer α).items) := by
  cases tid with
  | false => simp [items, h]
  | true =>
    simp only [items, Function.update_self, Function.update_of_ne (show false ≠ true by decide), h]
    exact List.perm_middle

/-- A pop takes the front of its source. -/
theorem pop_takes (h : q.pop tid = some (obj, q')) :
    ∃ rest, q.lists (q.source tid) = obj :: rest ∧ q' = { lists := Function.update q.lists (q.source tid) rest } := by
  unfold pop at h
  split at h
  next front rest hlist =>
    have hsource : q.source tid = tid := by
      rw [source, hlist]
      rfl
    cases h
    rw [hsource]
    exact ⟨rest, hlist, rfl⟩
  next hlist =>
    have hsource : q.source tid = !tid := by
      rw [source, hlist]
      rfl
    split at h
    next front rest hlist' =>
      cases h
      rw [hsource]
      exact ⟨rest, hlist', rfl⟩
    next => cases h

theorem pop_some (h : q.pop tid = some (obj, q')) : q.items.Perm (obj :: q'.items) := by
  obtain ⟨rest, hlist, rfl⟩ := pop_takes h
  exact items_of_front hlist

theorem pop_none (h : q.pop tid = none) : q.items = [] := by
  unfold pop at h
  split at h
  next => cases h
  next hlist =>
    split at h
    next => cases h
    next hlist' => cases tid <;> simp_all [items]

/-- As many turns as there are items take them all. -/
theorem popAll_spec (tid : Bool) (turns : Nat) (q : DoubleBuffer α) (hturns : q.size ≤ turns) :
    (popAll (·.pop tid) turns q).1.Perm q.items ∧ (popAll (·.pop tid) turns q).2.items = [] := by
  induction turns generalizing q with
  | zero =>
    have hnil : q.items = [] := by
      rw [← List.length_eq_zero_iff, items_length]
      omega
    rw [popAll, hnil]
    exact ⟨.refl _, rfl⟩
  | succ turns ih =>
    rw [popAll]
    cases hpop : q.pop tid with
    | none =>
      rw [pop_none hpop]
      exact ⟨.refl _, rfl⟩
    | some result =>
      obtain ⟨obj, q'⟩ := result
      have hperm := pop_some hpop
      have hlength := hperm.length_eq
      rw [List.length_cons, items_length, items_length] at hlength
      obtain ⟨htaken, hleft⟩ := ih q' (by omega)
      exact ⟨(htaken.cons obj).trans hperm.symm, hleft⟩

/-! ## Runs -/

/-- The item a call pushes. -/
def Call.obj? : Call α → Option α
  | .push _ _ obj => some obj
  | _ => none

/-- And the list it goes to. -/
def Call.entered? : Call α → Option (Bool × α)
  | .push locks tid obj => some (landed locks tid, obj)
  | _ => none

/-- What went into the list `b`, or came out of it. -/
def ofList (b : Bool) (l : List (Bool × α)) : List α := (l.filter fun e => e.1 = b).map Prod.snd

theorem ofList_append (b : Bool) (l l' : List (Bool × α)) : ofList b (l ++ l') = ofList b l ++ ofList b l' := by
  rw [ofList, List.filter_append, List.map_append]
  rfl

theorem ofList_perm (l : List (Bool × α)) : (l.map Prod.snd).Perm (ofList false l ++ ofList true l) := by
  rw [ofList, ofList, ← List.map_append]
  apply List.Perm.map
  have hsplit := List.filter_append_perm (fun e : Bool × α => decide (e.1 = false)) l
  simpa using hsplit.symm

theorem lists_append (q : DoubleBuffer α) (tid : Bool) (obj : α) (b : Bool) :
    (q.append tid obj).lists b = q.lists b ++ if tid = b then [obj] else [] := by
  unfold append
  by_cases hb : tid = b
  · subst hb
    simp
  · rw [if_neg hb, List.append_nil]
    exact Function.update_of_ne (Ne.symm hb) ..

theorem pop_lists (h : q.pop tid = some (obj, q')) (b : Bool) :
    q.lists b = (if q.source tid = b then [obj] else []) ++ q'.lists b := by
  obtain ⟨rest, hlist, rfl⟩ := pop_takes h
  split_ifs with hb
  · subst hb
    simp [hlist]
  · exact (Function.update_of_ne (Ne.symm hb) ..).symm

theorem taken_lists (q : DoubleBuffer α) (tid b : Bool) :
    q.lists b = ofList b (q.taken tid (q.pop tid)).1 ++ (q.taken tid (q.pop tid)).2.lists b := by
  cases hpop : q.pop tid with
  | none => rfl
  | some result =>
    obtain ⟨obj, q'⟩ := result
    rw [pop_lists hpop b]
    by_cases hb : q.source tid = b <;> simp [taken, ofList, hb]

/-- A list before a call, with what the call pushes into it, is what the call takes from it and the list behind it. -/
theorem step_lists (q : DoubleBuffer α) (call : Call α) (b : Bool) :
    q.lists b ++ ofList b call.entered?.toList = ofList b (q.step call).1 ++ (q.step call).2.lists b := by
  cases call with
  | push locks tid obj =>
    rw [step, push_eq, lists_append]
    by_cases hb : landed locks tid = b <;> simp [Call.entered?, ofList, hb]
  | pop tid =>
    rw [step, ← taken_lists]
    exact List.append_nil _
  | popSync =>
    rw [step, popSync, ← taken_lists]
    exact List.append_nil _

theorem run_concat (calls : List (Call α)) (call : Call α) :
    run (calls ++ [call]) = ((run calls).1 ++ ((run calls).2.step call).1, ((run calls).2.step call).2) := by
  rw [run, List.foldl_append]
  rfl

/-- What went into a list came out of it in the same order, or is still in it. -/
theorem run_lists (calls : List (Call α)) (b : Bool) :
    ofList b (calls.filterMap Call.entered?) = ofList b (run calls).1 ++ (run calls).2.lists b := by
  induction calls using List.reverseRecOn with
  | nil => rfl
  | append_singleton calls call ih =>
    have hcall : [call].filterMap Call.entered? = call.entered?.toList := by
      cases call <;> rfl
    rw [List.filterMap_append, ofList_append, ih, run_concat, ofList_append, List.append_assoc, List.append_assoc, hcall,
      step_lists]

theorem entered_snd (calls : List (Call α)) :
    (calls.filterMap Call.entered?).map Prod.snd = calls.filterMap Call.obj? := by
  rw [List.map_filterMap]
  congr 1
  funext call
  cases call <;> rfl

theorem pop_eq_none_iff (q : DoubleBuffer α) (tid : Bool) :
    q.pop tid = none ↔ q.lists false = [] ∧ q.lists true = [] := by
  constructor
  · intro h
    exact List.append_eq_nil_iff.mp (pop_none h)
  · rintro ⟨hfalse, htrue⟩
    cases tid <;> simp [pop, hfalse, htrue]

/-- **Double buffers** after any calls: nothing is lost or duplicated, a pop returns false exactly on two empty lists, and
each list is first in, first out. -/
theorem run_conserves (calls : List (Call α)) :
    ((calls.filterMap Call.obj? : List α) : Multiset α) = ((run calls).1.map Prod.snd : List α) +
      ((run calls).2.lists false + (run calls).2.lists true : Multiset α) ∧
    (∀ tid, (run calls).2.pop tid = none ↔ (run calls).2.lists false = [] ∧ (run calls).2.lists true = []) ∧
    ((run calls).2.popSync = none ↔ (run calls).2.lists false = [] ∧ (run calls).2.lists true = []) ∧
    ∀ b, ofList b (calls.filterMap Call.entered?) = ofList b (run calls).1 ++ (run calls).2.lists b := by
  refine ⟨?_, pop_eq_none_iff _, pop_eq_none_iff _ false, run_lists calls⟩
  rw [← entered_snd, Multiset.coe_eq_coe.mpr (ofList_perm _), Multiset.coe_eq_coe.mpr (ofList_perm (run calls).1),
    run_lists, run_lists]
  simp only [← Multiset.coe_add]
  abel

end DoubleBuffer

end Symbios
