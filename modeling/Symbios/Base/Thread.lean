import Symbios.Base.Confined

/-!
# Threads over a shared state

A thread has ended, or it makes one atomic step and goes on with what it saw in that step. `program` is the program
that the thread is when nobody interrupts it, and `program_bind`, `program_attempt` and `program_atom` say that threads
compose as programs do. A pool is a shared state with one thread for each name, and a schedule is the list of the
names in the order of their turns.

`Thread.Confined I K W P` is `EStateM.Confined` for every single step: from a state in `I` the thread keeps `I`,
observes keys of `K` alone and changes keys of `W` alone. A thread whose keys nobody else writes runs as if it were
alone (`exec_alone`), ends after as many turns (`exec_ends`), and an invariant that the steps of all threads keep holds
under every schedule (`exec_invariant`).
-/

open EStateM (AgreeOn)

/-- A thread has ended, or it changes the state at once and goes on by the state it found. -/
inductive Thread (ε σ α : Type) where
  | done (result : Except ε α)
  | step (update : σ → σ) (next : σ → Thread ε σ α)

namespace Thread

variable {ε σ α β γ : Type}

/-- One thread, and then another one by its result. -/
def bind : Thread ε σ α → (α → Thread ε σ β) → Thread ε σ β
  | .done (.ok a), f => f a
  | .done (.error e), _ => .done (.error e)
  | .step update next, f => .step update fun s => bind (next s) f

/-- A thread, and what is done when it raises. -/
def attempt : Thread ε σ α → (ε → Thread ε σ α) → Thread ε σ α
  | .done (.ok a), _ => .done (.ok a)
  | .done (.error e), handle => handle e
  | .step update next, handle => .step update fun s => attempt (next s) handle

/-- A program in one step. -/
def atom (x : EStateM ε σ α) : Thread ε σ α := .step (fun s => (x s).final) fun s => .done (x s).outcome

/-- The thread without interruption. -/
def program : Thread ε σ α → EStateM ε σ α
  | .done (.ok a) => pure a
  | .done (.error e) => throw e
  | .step update next => fun s => program (next s) (update s)

instance : Monad (Thread ε σ) where
  pure a := .done (.ok a)
  bind := bind

instance : MonadExceptOf ε (Thread ε σ) where
  throw e := .done (.error e)
  tryCatch := attempt

/-! ## Threads are programs -/

@[simp] theorem program_pure (a : α) : program (pure a : Thread ε σ α) = pure a := rfl

@[simp] theorem program_throw (e : ε) : program (throw e : Thread ε σ α) = throw e := rfl

@[simp] theorem program_atom (x : EStateM ε σ α) : program (atom x) = x := by
  funext s
  show program (.done (x s).outcome) (x s).final = x s
  cases x s with
  | ok a s' => rfl
  | error e s' => rfl

@[simp] theorem program_bind (t : Thread ε σ α) (f : α → Thread ε σ β) :
    program (t >>= f) = program t >>= fun a => program (f a) := by
  induction t with
  | done result =>
    cases result with
    | ok a => rfl
    | error e => rfl
  | step update next ih =>
    funext s
    exact congrFun (ih s) (update s)

@[simp] theorem program_attempt (t : Thread ε σ α) (handle : ε → Thread ε σ α) :
    program (tryCatch t handle) = tryCatch (program t) fun e => program (handle e) := by
  induction t with
  | done result =>
    cases result with
    | ok a => rfl
    | error e => rfl
  | step update next ih =>
    funext s
    exact congrFun (ih s) (update s)

theorem bind_pure (t : Thread ε σ α) : bind t (fun a => .done (.ok a)) = t := by
  induction t with
  | done result =>
    cases result with
    | ok a => rfl
    | error e => rfl
  | step update next ih => exact congrArg (step update) (funext ih)

theorem bind_assoc (t : Thread ε σ α) (f : α → Thread ε σ β) (g : β → Thread ε σ γ) :
    bind (bind t f) g = bind t fun a => bind (f a) g := by
  induction t with
  | done result =>
    cases result with
    | ok a => rfl
    | error e => rfl
  | step update next ih => exact congrArg (step update) (funext ih)

instance : LawfulMonad (Thread ε σ) :=
  LawfulMonad.mk' (Thread ε σ) bind_pure (fun _ _ => rfl) bind_assoc

@[simp] theorem program_discard (t : Thread ε σ α) : program (discard t) = discard (program t) := by
  show program (Functor.mapConst PUnit.unit t) = Functor.mapConst PUnit.unit (program t)
  rw [map_const, map_const, Function.comp_apply, Function.comp_apply, map_eq_pure_bind, map_eq_pure_bind,
    program_bind]
  rfl

@[simp] theorem program_forM (f : α → Thread ε σ PUnit) (l : List α) :
    program (l.forM f) = l.forM fun a => program (f a) := by
  induction l with
  | nil => rfl
  | cons a l ih =>
    show program (f a >>= fun _ => l.forM f) = _
    rw [program_bind, ih]
    rfl

@[simp] theorem program_mapM (f : α → Thread ε σ β) (l : List α) :
    program (l.mapM f) = l.mapM fun a => program (f a) := by
  induction l with
  | nil => rfl
  | cons a l ih => simp only [List.mapM_cons, program_bind, ih, program_pure]

@[simp] theorem program_foldlM (f : γ → α → Thread ε σ γ) (c : γ) (l : List α) :
    program (l.foldlM f c) = l.foldlM (fun c a => program (f c a)) c := by
  induction l generalizing c with
  | nil => rfl
  | cons a l ih => simp only [List.foldlM_cons, program_bind, ih]

/-! ## Turns -/

/-- The next step of a thread; one that has ended stays as it is. -/
def turn : σ × Thread ε σ α → σ × Thread ε σ α
  | (s, .done result) => (s, .done result)
  | (s, .step update next) => (update s, next s)

/-- A turn does not change what the thread will have done in the end. -/
theorem program_turn (c : σ × Thread ε σ α) : program (turn c).2 (turn c).1 = program c.2 c.1 := by
  obtain ⟨s, t⟩ := c
  cases t with
  | done result => rfl
  | step update next => rfl

theorem program_turns (n : Nat) (c : σ × Thread ε σ α) : program (turn^[n] c).2 (turn^[n] c).1 = program c.2 c.1 := by
  induction n with
  | zero => rfl
  | succ n ih => rw [Function.iterate_succ_apply', program_turn, ih]

theorem turns_done (n : Nat) (s : σ) (result : Except ε α) :
    turn^[n] (s, .done result) = (s, (.done result : Thread ε σ α)) :=
  Function.iterate_fixed rfl n

/-- A thread that has ended is its run. -/
theorem outcome_of_done {t : Thread ε σ α} {s : σ} {result : Except ε α} {n : Nat}
    (h : (turn^[n] (s, t)).2 = .done result) :
    (program t s).outcome = result ∧ (program t s).final = (turn^[n] (s, t)).1 := by
  have hrun := program_turns n (s, t)
  rw [h] at hrun
  rw [← hrun]
  cases result with
  | ok a => exact ⟨rfl, rfl⟩
  | error e => exact ⟨rfl, rfl⟩

/-- Every thread ends. -/
theorem exists_turns (t : Thread ε σ α) (s : σ) :
    ∃ n, turn^[n] (s, t) = ((program t s).final, .done (program t s).outcome) := by
  induction t generalizing s with
  | done result =>
    refine ⟨0, ?_⟩
    cases result with
    | ok a => rfl
    | error e => rfl
  | step update next ih =>
    obtain ⟨n, hn⟩ := ih s (update s)
    refine ⟨n + 1, ?_⟩
    rw [Function.iterate_succ_apply]
    exact hn

/-! ## Confined threads -/

section confined

variable {ι κ ν : Type}

/-- Every step, from a state in `I`, keeps `I`, observes keys of `K` alone and changes keys of `W` alone; what the
thread returns is in `P`. -/
def Confined (I : (ι → κ → ν) → Prop) (K W : Set κ) (P : α → Prop) : Thread ε (ι → κ → ν) α → Prop
  | .done result => ∀ a, result = .ok a → P a
  | .step update next =>
    (∀ s, I s → I (update s) ∧ (∀ i, ∀ k ∉ W, update s i k = s i k) ∧ Confined I K W P (next s)) ∧
      ∀ s s', I s → I s' → AgreeOn K s s' → AgreeOn K (update s) (update s') ∧ next s = next s'

namespace Confined

variable {I : (ι → κ → ν) → Prop} {K W : Set κ} {P : α → Prop} {Q : β → Prop}

theorem pure {a : α} (ha : P a) : Confined I K W P (Pure.pure a : Thread ε (ι → κ → ν) α) := by
  intro b h
  cases h
  exact ha

theorem raise (e : ε) : Confined I K W P (throw e : Thread ε (ι → κ → ν) α) := by
  intro b h
  cases h

/-- A confined program in one step, if it changes keys of `W` alone. -/
theorem atom {x : EStateM ε (ι → κ → ν) α} (hx : EStateM.Confined I K P x)
    (hW : ∀ s, I s → ∀ i, ∀ k ∉ W, (x s).final i k = s i k) : Confined I K W P (Thread.atom x) := by
  refine ⟨fun s hs => ⟨hx.keeps s hs, hW s hs, fun a ha => ?_⟩, fun s s' hs hs' hagree => ?_⟩
  · cases hrun : x s with
    | ok b s' =>
      rw [hrun, EStateM.Result.outcome_ok, Except.ok.injEq] at ha
      rw [← ha]
      exact hx.returns s hs b s' hrun
    | error e s' =>
      rw [hrun] at ha
      cases ha
  · obtain ⟨hout, hfin⟩ := hx.agrees s s' hs hs' hagree
    exact ⟨hfin, congrArg done hout⟩

theorem bind {t : Thread ε (ι → κ → ν) α} {f : α → Thread ε (ι → κ → ν) β} (ht : Confined I K W P t)
    (hf : ∀ a, P a → Confined I K W Q (f a)) : Confined I K W Q (t >>= f) := by
  induction t with
  | done result =>
    cases result with
    | ok a => exact hf a (ht a rfl)
    | error e => exact raise e
  | step update next ih =>
    refine ⟨fun s hs => ?_, fun s s' hs hs' hagree => ?_⟩
    · obtain ⟨hkeep, hout, hnext⟩ := ht.1 s hs
      exact ⟨hkeep, hout, ih s hnext⟩
    · obtain ⟨hfin, hnext⟩ := ht.2 s s' hs hs' hagree
      exact ⟨hfin, congrArg (fun t => t.bind f) hnext⟩

theorem attempt {t : Thread ε (ι → κ → ν) α} {handle : ε → Thread ε (ι → κ → ν) α} (ht : Confined I K W P t)
    (hf : ∀ e, Confined I K W P (handle e)) : Confined I K W P (tryCatch t handle) := by
  induction t with
  | done result =>
    cases result with
    | ok a => exact pure (ht a rfl)
    | error e => exact hf e
  | step update next ih =>
    refine ⟨fun s hs => ?_, fun s s' hs hs' hagree => ?_⟩
    · obtain ⟨hkeep, hout, hnext⟩ := ht.1 s hs
      exact ⟨hkeep, hout, ih s hnext⟩
    · obtain ⟨hfin, hnext⟩ := ht.2 s s' hs hs' hagree
      exact ⟨hfin, congrArg (fun t => t.attempt handle) hnext⟩

theorem discard {t : Thread ε (ι → κ → ν) α} (ht : Confined I K W P t) :
    Confined I K W (fun _ => True) (Functor.discard t) := by
  show Confined I K W (fun _ => True) (Functor.mapConst PUnit.unit t)
  rw [map_const, Function.comp_apply, map_eq_pure_bind]
  exact ht.bind fun _ _ => pure trivial

theorem mono {P' : α → Prop} {t : Thread ε (ι → κ → ν) α} (ht : Confined I K W P t) (h : ∀ a, P a → P' a) :
    Confined I K W P' t := by
  induction t with
  | done result => exact fun a ha => h a (ht a ha)
  | step update next ih =>
    refine ⟨fun s hs => ?_, ht.2⟩
    obtain ⟨hkeep, hout, hnext⟩ := ht.1 s hs
    exact ⟨hkeep, hout, ih s hnext⟩

theorem forM {f : α → Thread ε (ι → κ → ν) PUnit} {l : List α}
    (hf : ∀ a ∈ l, Confined I K W (fun _ => True) (f a)) : Confined I K W (fun _ => True) (l.forM f) := by
  induction l with
  | nil => exact pure trivial
  | cons a l ih => exact (hf a (by simp)).bind fun _ _ => ih fun b hb => hf b (by simp [hb])

theorem mapM {f : α → Thread ε (ι → κ → ν) β} {l : List α} (hf : ∀ a ∈ l, Confined I K W Q (f a)) :
    Confined I K W (fun bs => ∀ b ∈ bs, Q b) (l.mapM f) := by
  induction l with
  | nil => exact pure (by simp)
  | cons a l ih =>
    rw [List.mapM_cons]
    refine (hf a (by simp)).bind fun b hb => (ih fun c hc => hf c (by simp [hc])).bind fun bs hbs => pure ?_
    intro c hc
    rcases List.mem_cons.mp hc with rfl | hc
    · exact hb
    · exact hbs c hc

theorem foldlM {f : γ → α → Thread ε (ι → κ → ν) γ} {l : List α}
    (hf : ∀ c, ∀ a ∈ l, Confined I K W (fun _ => True) (f c a)) (c : γ) :
    Confined I K W (fun _ => True) (l.foldlM f c) := by
  induction l generalizing c with
  | nil => exact pure trivial
  | cons a l ih =>
    rw [List.foldlM_cons]
    exact (hf c a (by simp)).bind fun c' _ => ih (fun c b hb => hf c b (by simp [hb])) c'

/-- A larger invariant and more keys. -/
theorem enlarge {I' : (ι → κ → ν) → Prop} {K' W' : Set κ} {t : Thread ε (ι → κ → ν) α} (ht : Confined I K W P t)
    (hI : ∀ s, I' s → I s) (hkeep : ∀ s s', I' s → I s' → (∀ i, ∀ k ∉ W, s' i k = s i k) → I' s') (hWK : W ⊆ K)
    (hK : K ⊆ K') (hW : W ⊆ W') : Confined I' K' W' P t := by
  induction t with
  | done result => exact ht
  | step update next ih =>
    refine ⟨fun s hs => ?_, fun s s' hs hs' hagree => ?_⟩
    · obtain ⟨hs', hout, hnext⟩ := ht.1 s (hI s hs)
      exact ⟨hkeep s _ hs hs' hout, fun i k hk => hout i k fun h => hk (hW h), ih s hnext⟩
    · obtain ⟨hfin, hnext⟩ := ht.2 s s' (hI s hs) (hI s' hs') fun i k hk => hagree i k (hK hk)
      refine ⟨fun i k hk => ?_, hnext⟩
      by_cases hk' : k ∈ K
      · exact hfin i k hk'
      · rw [(ht.1 s (hI s hs)).2.1 i k fun h => hk' (hWK h), (ht.1 s' (hI s' hs')).2.1 i k fun h => hk' (hWK h)]
        exact hagree i k hk

/-- A thread that only looks at keys which never change returns what it returns from the first state. -/
theorem constant {s₀ : ι → κ → ν} {t : Thread ε (ι → κ → ν) α} (ht : Confined I K ∅ P t) (h₀ : I s₀)
    (hI : ∀ s, I s → AgreeOn K s₀ s) : Confined I K ∅ (fun a => P a ∧ program t s₀ = .ok a s₀) t := by
  induction t with
  | done result =>
    intro a ha
    subst ha
    exact ⟨ht a rfl, rfl⟩
  | step update next ih =>
    refine ⟨fun s hs => ?_, ht.2⟩
    obtain ⟨hkeep, hout, hnext⟩ := ht.1 s hs
    have hsame : update s₀ = s₀ := by
      funext i k
      exact (ht.1 s₀ h₀).2.1 i k (Set.notMem_empty k)
    have hstep : program (.step update next) s₀ = program (next s) s₀ := by
      show program (next s₀) (update s₀) = _
      rw [hsame, (ht.2 s₀ s h₀ hs (hI s hs)).2]
    rw [hstep]
    exact ⟨hkeep, hout, ih s hnext⟩

/-- One turn of a confined thread. -/
theorem turn {t : Thread ε (ι → κ → ν) α} (ht : Confined I K W P t) {s : ι → κ → ν} (hs : I s) :
    I (Thread.turn (s, t)).1 ∧ (∀ i, ∀ k ∉ W, (Thread.turn (s, t)).1 i k = s i k) ∧
      Confined I K W P (Thread.turn (s, t)).2 := by
  cases t with
  | done result => exact ⟨hs, fun _ _ _ => rfl, ht⟩
  | step update next => exact ht.1 s hs

/-- One turn from two states that agree on the keys. -/
theorem turn_agrees {t : Thread ε (ι → κ → ν) α} (ht : Confined I K W P t) {s s' : ι → κ → ν} (hs : I s) (hs' : I s')
    (hagree : AgreeOn K s s') :
    AgreeOn K (Thread.turn (s, t)).1 (Thread.turn (s', t)).1 ∧ (Thread.turn (s, t)).2 = (Thread.turn (s', t)).2 := by
  cases t with
  | done result => exact ⟨hagree, rfl⟩
  | step update next => exact ht.2 s s' hs hs' hagree

end Confined

end confined

/-! ## Pools -/

variable {τ : Type} [DecidableEq τ]

/-- A shared state, and a thread for each name. -/
structure Pool (τ ε σ α : Type) where
  state : σ
  threads : τ → Thread ε σ α

/-- The turn of one thread. -/
def Pool.move (p : Pool τ ε σ α) (i : τ) : Pool τ ε σ α where
  state := (turn (p.state, p.threads i)).1
  threads := Function.update p.threads i (turn (p.state, p.threads i)).2

/-- The turns of a schedule. -/
def Pool.exec (p : Pool τ ε σ α) (schedule : List τ) : Pool τ ε σ α := schedule.foldl Pool.move p

@[simp] theorem Pool.exec_nil (p : Pool τ ε σ α) : p.exec [] = p := rfl

@[simp] theorem Pool.exec_cons (p : Pool τ ε σ α) (i : τ) (schedule : List τ) :
    p.exec (i :: schedule) = (p.move i).exec schedule := rfl

theorem Pool.move_self (p : Pool τ ε σ α) (i : τ) : (p.move i).threads i = (turn (p.state, p.threads i)).2 :=
  Function.update_self _ _ _

theorem Pool.move_other (p : Pool τ ε σ α) {i j : τ} (h : j ≠ i) : (p.move i).threads j = p.threads j :=
  Function.update_of_ne h _ _

/-! ## What the others do -/

section pool

variable {ι κ ν : Type}

/-- The steps of every thread keep one invariant. -/
theorem exec_invariant {I : (ι → κ → ν) → Prop} {K W : τ → Set κ} {P : τ → α → Prop}
    (schedule : List τ) {p : Pool τ ε (ι → κ → ν) α} (hp : ∀ i, Confined I (K i) (W i) (P i) (p.threads i))
    (hs : I p.state) : I (p.exec schedule).state ∧ ∀ i, Confined I (K i) (W i) (P i) ((p.exec schedule).threads i) := by
  induction schedule generalizing p with
  | nil => exact ⟨hs, hp⟩
  | cons i schedule ih =>
    obtain ⟨hkeep, -, hnext⟩ := (hp i).turn hs
    refine ih (fun j => ?_) hkeep
    by_cases hj : j = i
    · subst hj
      rw [p.move_self]
      exact hnext
    · rw [p.move_other hj]
      exact hp j

/-- Threads with invariants of their own, none of which writes what another one observes. -/
structure Separated (I : τ → (ι → κ → ν) → Prop) (K W : τ → Set κ) (P : τ → α → Prop)
    (p : Pool τ ε (ι → κ → ν) α) : Prop where
  confined : ∀ i, Confined (I i) (K i) (W i) (P i) (p.threads i)
  holds : ∀ i, I i p.state
  disjoint : ∀ i j, i ≠ j → Disjoint (W j) (K i)
  respects : ∀ i s s', AgreeOn (K i) s s' → I i s → I i s'

namespace Separated

variable {I : τ → (ι → κ → ν) → Prop} {K W : τ → Set κ} {P : τ → α → Prop} {p : Pool τ ε (ι → κ → ν) α}

/-- The turn of one thread does not reach the keys of another one. -/
theorem agrees (hp : Separated I K W P p) {i j : τ} (hij : i ≠ j) : AgreeOn (K i) p.state (p.move j).state := by
  intro x k hk
  refine (((hp.confined j).turn (hp.holds j)).2.1 x k fun hkW => ?_).symm
  exact Set.disjoint_left.mp (hp.disjoint i j hij) hkW hk

/-- Step: a turn keeps the threads apart. -/
theorem move (hp : Separated I K W P p) (j : τ) : Separated I K W P (p.move j) where
  confined i := by
    by_cases hij : i = j
    · subst hij
      rw [p.move_self]
      exact ((hp.confined i).turn (hp.holds i)).2.2
    · rw [p.move_other hij]
      exact hp.confined i
  holds i := by
    by_cases hij : i = j
    · subst hij
      exact ((hp.confined i).turn (hp.holds i)).1
    · exact hp.respects i _ _ (hp.agrees hij) (hp.holds i)
  disjoint := hp.disjoint
  respects := hp.respects

/-- **Under every schedule a thread stands where as many turns of its own would have brought it**, and so do the keys
it observes. -/
theorem exec_alone (hp : Separated I K W P p) (schedule : List τ) (i : τ) {s : ι → κ → ν} (hs : I i s)
    (hagree : AgreeOn (K i) p.state s) :
    (p.exec schedule).threads i = (turn^[schedule.count i] (s, p.threads i)).2 ∧
      AgreeOn (K i) (p.exec schedule).state (turn^[schedule.count i] (s, p.threads i)).1 := by
  induction schedule generalizing p s with
  | nil => exact ⟨rfl, hagree⟩
  | cons j schedule ih =>
    rw [Pool.exec_cons]
    by_cases hij : i = j
    · subst hij
      obtain ⟨hfin, hnext⟩ := (hp.confined i).turn_agrees (hp.holds i) hs hagree
      obtain ⟨hkeep, -, -⟩ := (hp.confined i).turn hs
      rw [List.count_cons_self, Function.iterate_succ_apply]
      have ih := ih (hp.move i) hkeep hfin
      rw [p.move_self, hnext] at ih
      exact ih
    · rw [List.count_cons_of_ne (Ne.symm hij)]
      have ih := ih (hp.move j) hs ((hp.agrees hij).symm.trans hagree)
      rw [p.move_other hij] at ih
      exact ih

/-- A thread that has ended has returned what it returns alone, and the keys it observes hold what they hold then. -/
theorem exec_outcome (hp : Separated I K W P p) {schedule : List τ} {i : τ} {result : Except ε α}
    (hdone : (p.exec schedule).threads i = .done result) :
    result = (program (p.threads i) p.state).outcome ∧
      AgreeOn (K i) (p.exec schedule).state (program (p.threads i) p.state).final := by
  obtain ⟨hthread, hstate⟩ := hp.exec_alone schedule i (hp.holds i) (AgreeOn.refl _ _)
  obtain ⟨hout, hfin⟩ := outcome_of_done (hthread.symm.trans hdone)
  rw [hout, hfin]
  exact ⟨rfl, hstate⟩

/-- **No thread waits for another one**: there is a number of turns after which the thread has ended, whatever the
others do in between. -/
theorem exec_ends (hp : Separated I K W P p) (i : τ) : ∃ n, ∀ schedule : List τ, n ≤ schedule.count i →
    (p.exec schedule).threads i = .done (program (p.threads i) p.state).outcome := by
  obtain ⟨n, hn⟩ := exists_turns (p.threads i) p.state
  refine ⟨n, fun schedule hcount => ?_⟩
  obtain ⟨m, hm⟩ := Nat.exists_eq_add_of_le' hcount
  rw [(hp.exec_alone schedule i (hp.holds i) (AgreeOn.refl _ _)).1, hm, Function.iterate_add_apply, hn, turns_done]

/-- Keys that nobody writes are unchanged. -/
theorem exec_outside (hp : Separated I K W P p) (schedule : List τ) {k : κ} (hk : ∀ i, k ∉ W i) (x : ι) :
    (p.exec schedule).state x k = p.state x k := by
  induction schedule generalizing p with
  | nil => rfl
  | cons j schedule ih =>
    rw [Pool.exec_cons, ih (hp.move j)]
    exact ((hp.confined j).turn (hp.holds j)).2.1 x k (hk j)

end Separated

end pool

end Thread
