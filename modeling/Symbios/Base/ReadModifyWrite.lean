import Mathlib

/-!
# Unlocked read, modify, write

Threads share one value. The first turn of a thread copies the value, its second turn writes back what its update
makes of the copy, and its later turns leave the value alone. Nothing orders the turns of different threads, so a
write overwrites whatever came between the copy and itself: the final value is the update of the last writer,
applied to the value it had read (`run_lastWriter`).
-/

namespace ReadModifyWrite

variable {ι α : Type} [DecidableEq ι]

/-- The shared value, the copies, and the number of turns each thread has had. -/
structure State (ι α : Type) where
  value : α
  seen : ι → α
  turns : ι → Nat

/-- Nobody has had a turn. -/
def start (value : α) : State ι α := ⟨value, fun _ => value, fun _ => 0⟩

variable (f : ι → α → α)

/-- One turn of thread `i`. -/
def step (s : State ι α) (i : ι) : State ι α :=
  match s.turns i with
  | 0 => { s with seen := Function.update s.seen i s.value, turns := Function.update s.turns i 1 }
  | 1 => { s with value := f i (s.seen i), turns := Function.update s.turns i 2 }
  | n + 2 => { s with turns := Function.update s.turns i (n + 3) }

/-- The turns of a schedule. -/
def run (schedule : List ι) (s : State ι α) : State ι α := schedule.foldl (step f) s

variable {f} {s : State ι α} {i j : ι}

/-! ## One turn -/

theorem step_read (h : s.turns i = 0) :
    step f s i = { s with seen := Function.update s.seen i s.value, turns := Function.update s.turns i 1 } := by
  simp only [step, h]

theorem step_write (h : s.turns i = 1) :
    step f s i = { s with value := f i (s.seen i), turns := Function.update s.turns i 2 } := by
  simp only [step, h]

theorem step_idle (h : 2 ≤ s.turns i) :
    step f s i = { s with turns := Function.update s.turns i (s.turns i + 1) } := by
  obtain ⟨n, hn⟩ := Nat.exists_eq_add_of_le' h
  simp only [step, hn]

theorem step_turns (s : State ι α) (i : ι) :
    (step f s i).turns = Function.update s.turns i (s.turns i + 1) := by
  unfold step
  split <;> simp [*]

theorem step_seen (s : State ι α) (h : j ≠ i) : (step f s i).seen j = s.seen j := by
  unfold step
  split <;> simp [h]

theorem step_value (h : s.turns i ≠ 1) : (step f s i).value = s.value := by
  unfold step
  split
  · rfl
  · contradiction
  · rfl

/-! ## Runs -/

@[simp] theorem run_nil (s : State ι α) : run f [] s = s := rfl

@[simp] theorem run_cons (i : ι) (schedule : List ι) (s : State ι α) :
    run f (i :: schedule) s = run f schedule (step f s i) := rfl

theorem run_append (a b : List ι) (s : State ι α) : run f (a ++ b) s = run f b (run f a s) :=
  List.foldl_append

theorem run_turns (schedule : List ι) (s : State ι α) (j : ι) :
    (run f schedule s).turns j = s.turns j + schedule.count j := by
  induction schedule generalizing s with
  | nil => simp
  | cons i schedule ih =>
    rw [run_cons, ih, step_turns, List.count_cons]
    by_cases h : j = i
    · subst h
      simp
      omega
    · simp [h, Ne.symm h]

/-- A thread that has no turn keeps its copy. -/
theorem run_seen {schedule : List ι} (h : j ∉ schedule) (s : State ι α) :
    (run f schedule s).seen j = s.seen j := by
  induction schedule generalizing s with
  | nil => rfl
  | cons i schedule ih =>
    rw [List.mem_cons, not_or] at h
    rw [run_cons, ih h.2, step_seen s h.1]

/-- Threads that have written leave the value alone. -/
theorem run_idle {schedule : List ι} (h : ∀ i ∈ schedule, 2 ≤ s.turns i) : (run f schedule s).value = s.value := by
  induction schedule generalizing s with
  | nil => rfl
  | cons i schedule ih =>
    have hi := h i (by simp)
    rw [run_cons, ih, step_value (by omega)]
    intro j hj
    have hj' := h j (by simp [hj])
    rw [step_turns, Function.update_apply]
    split_ifs <;> omega

/-- The run of one thread alone. -/
theorem run_alone (x : α) (n : Nat) :
    (run f (List.replicate n i) (start x)).value = if 2 ≤ n then f i x else x := by
  match n with
  | 0 => rfl
  | 1 => rfl
  | n + 2 =>
    rw [if_pos (by omega), List.replicate_succ, List.replicate_succ, run_cons, run_cons,
      step_read (s := start x) rfl, step_write (Function.update_self ..)]
    rw [run_idle]
    · simp [start]
    · intro j hj
      rw [List.eq_of_mem_replicate hj]
      simp

/-- When `b` is the last thread to write, the value is its update of what it had read. -/
theorem run_lastWriter {a c e : List ι} {b : ι} (x : α) (ha : b ∉ a) (hc : b ∉ c)
    (hlast : ∀ i ∈ e, i ≠ b → 2 ≤ (a ++ c).count i) :
    (run f (a ++ b :: c ++ b :: e) (start x)).value = f b (run f a (start x)).value := by
  have hzero : (run f a (start x)).turns b = 0 := by simp [run_turns, start, List.count_eq_zero_of_not_mem ha]
  have hone : (run f (a ++ b :: c) (start x)).turns b = 1 := by
    simp [run_turns, start, List.count_eq_zero_of_not_mem ha, List.count_eq_zero_of_not_mem hc]
  have hseen : (run f (a ++ b :: c) (start x)).seen b = (run f a (start x)).value := by
    rw [run_append, run_cons, run_seen hc, step_read hzero]
    exact Function.update_self ..
  rw [run_append, run_cons, run_idle, step_write hone, hseen]
  intro i hi
  rw [step_turns, Function.update_apply]
  split_ifs with hb
  · omega
  · have hcount := hlast i hi hb
    rw [run_turns]
    simp only [List.count_append, List.count_cons] at hcount ⊢
    omega

/-- A machine whose every step is a turn runs as the threads do. -/
theorem run_simulates {σ : Type} {move : σ → ι → Option σ} {R : State ι α → σ → Prop}
    (hstep : ∀ s c i c', R s c → move c i = some c' → R (step f s i) c') {schedule : List ι} {c c' : σ} (h : R s c)
    (hrun : schedule.foldlM move c = some c') : R (run f schedule s) c' := by
  induction schedule generalizing s c with
  | nil =>
    cases hrun
    exact h
  | cons i schedule ih =>
    obtain ⟨d, hd, hrest⟩ := Option.bind_eq_some_iff.mp hrun
    exact ih (hstep s c i d h hd) hrest

/-! ## Two threads -/

/-- One of two threads that both write is the last to do so. -/
theorem exists_lastWriter {schedule : List Bool} (h : ∀ i, 2 ≤ schedule.count i) :
    ∃ b a c e, schedule = a ++ b :: c ++ b :: e ∧ b ∉ a ∧ b ∉ c ∧ 2 ≤ (a ++ c).count !b := by
  induction schedule using List.reverseRecOn with
  | nil => simpa using h true
  | append_singleton l j ih =>
    by_cases hl : ∀ i, 2 ≤ l.count i
    · obtain ⟨b, a, c, e, rfl, ha, hc, hcount⟩ := ih hl
      exact ⟨b, a, c, e ++ [j], by simp, ha, hc, hcount⟩
    · -- the turn `j` is its thread's second one
      have hother : 2 ≤ l.count !j := by simpa using h !j
      have hj : l.count j = 1 := by
        have hle : 2 ≤ l.count j + 1 := by simpa using h j
        have hlt : l.count j < 2 := by
          by_contra hge
          apply hl
          intro i
          rcases Bool.eq_or_eq_not i j with rfl | rfl <;> omega
        omega
      have hmem : j ∈ l := List.count_pos_iff.mp (by omega)
      obtain ⟨a, c, rfl, ha⟩ := List.eq_append_cons_of_mem hmem
      have hc : c.count j = 0 := by
        simp only [List.count_append, List.count_cons_self, List.count_eq_zero_of_not_mem ha] at hj
        omega
      refine ⟨j, a, c, [], rfl, ha, List.count_eq_zero.mp hc, ?_⟩
      simpa using hother

/-- The value after both threads have written: the last writer's update, on top of the other one's exactly when
that had been written before the last writer read. -/
theorem run_twoThreads {f : Bool → α → α} {a c e : List Bool} {b : Bool} (x : α) (ha : b ∉ a) (hc : b ∉ c)
    (hlast : 2 ≤ (a ++ c).count !b) :
    (run f (a ++ b :: c ++ b :: e) (start x)).value = f b (if 2 ≤ a.count !b then f (!b) x else x) := by
  have hother : ∀ i, i ≠ b → i = !b := fun i hi => by cases i <;> cases b <;> simp_all
  rw [run_lastWriter x ha hc fun i _ hi => hother i hi ▸ hlast]
  have hall : a = List.replicate a.length !b := by
    apply List.eq_replicate_of_mem
    intro i hi
    exact hother i fun h => ha (h ▸ hi)
  rw [hall, run_alone, List.count_replicate_self]

end ReadModifyWrite
