import Mathlib

/-!
# Programs over a family of key-value stores

A state `ι → κ → ν` is a family of stores, indexed by `ι`, with keys in `κ`. A program `EStateM ε (ι → κ → ν) α`
returns or raises, and its effects persist in both cases.

`Confined I K P x` is what a program may know and touch: from a state in `I` it stays in `I`, changes no key
outside `K`, returns only values in `P`, and both its outcome and what it leaves under the keys of `K` depend
on the keys of `K` alone. The rules follow the constructors of programs (`Confined.bind`, `Confined.attempt`,
`Confined.forM`, ...), so that confinement of a program is read off its text. `ReadOnly` is the special case
of a program that changes nothing.
-/

namespace EStateM

variable {ε σ α β : Type}

/-- What a run returned or raised. -/
def Result.outcome : Result ε σ α → Except ε α
  | .ok a _ => .ok a
  | .error e _ => .error e

/-- The state a run left. -/
def Result.final : Result ε σ α → σ
  | .ok _ s => s
  | .error _ s => s

@[simp] theorem Result.outcome_ok (a : α) (s : σ) : (Result.ok a s : Result ε σ α).outcome = .ok a := rfl
@[simp] theorem Result.outcome_error (e : ε) (s : σ) : (Result.error e s : Result ε σ α).outcome = .error e := rfl
@[simp] theorem Result.final_ok (a : α) (s : σ) : (Result.ok a s : Result ε σ α).final = s := rfl
@[simp] theorem Result.final_error (e : ε) (s : σ) : (Result.error e s : Result ε σ α).final = s := rfl

/-! ## Equations of a run -/

theorem bind_ok {x : EStateM ε σ α} {f : α → EStateM ε σ β} {s s' : σ} {a : α} (h : x s = .ok a s') :
    (x >>= f) s = f a s' := by
  show EStateM.bind x f s = _
  rw [EStateM.bind, h]

theorem bind_error {x : EStateM ε σ α} {f : α → EStateM ε σ β} {s s' : σ} {e : ε} (h : x s = .error e s') :
    (x >>= f) s = .error e s' := by
  show EStateM.bind x f s = _
  rw [EStateM.bind, h]

theorem get_bind (f : σ → EStateM ε σ β) (s : σ) : (get >>= f) s = f s s := rfl

theorem modify_bind (u : σ → σ) (f : PUnit → EStateM ε σ β) (s : σ) : (modify u >>= f) s = f ⟨⟩ (u s) := rfl

theorem modify_run (u : σ → σ) (s : σ) : (modify u : EStateM ε σ PUnit) s = .ok ⟨⟩ (u s) := rfl

theorem forM_cons (f : α → EStateM ε σ PUnit) (a : α) (l : List α) :
    (a :: l).forM f = (f a >>= fun _ => l.forM f) := rfl

theorem attempt_ok {x : EStateM ε σ α} {handle : ε → EStateM ε σ α} {s s' : σ} {a : α} (h : x s = .ok a s') :
    (tryCatch x handle : EStateM ε σ α) s = .ok a s' := by
  show EStateM.tryCatch x handle s = _
  rw [EStateM.tryCatch, h]

theorem attempt_error {x : EStateM ε σ α} {handle : ε → EStateM ε σ α} {s s' : σ} {e : ε}
    (h : x s = .error e s') : (tryCatch x handle : EStateM ε σ α) s = handle e s' := by
  show EStateM.tryCatch x handle s = _
  rw [EStateM.tryCatch, h]
  rfl

theorem bind_eq_ok {x : EStateM ε σ α} {f : α → EStateM ε σ β} {s s'' : σ} {b : β} (h : (x >>= f) s = .ok b s'') :
    ∃ a s', x s = .ok a s' ∧ f a s' = .ok b s'' := by
  cases hrun : x s with
  | ok a s' => exact ⟨a, s', rfl, (bind_ok hrun).symm.trans h⟩
  | error e s' => cases (bind_error (f := f) hrun).symm.trans h

theorem final_bind_pure (x : EStateM ε σ α) (b : β) (s : σ) :
    ((x >>= fun _ => (Pure.pure b : EStateM ε σ β)) s).final = (x s).final := by
  cases hrun : x s with
  | ok a s' =>
    rw [bind_ok hrun]
    rfl
  | error e s' =>
    rw [bind_error hrun]
    rfl

theorem eq_of_bind_pure {x : EStateM ε σ α} {b c : β} {s s' : σ}
    (h : (x >>= fun _ => (Pure.pure b : EStateM ε σ β)) s = .ok c s') : c = b := by
  obtain ⟨a, s₁, -, hpure⟩ := bind_eq_ok h
  cases hpure
  rfl

theorem bind_eq_error {x : EStateM ε σ α} {f : α → EStateM ε σ β} {s s'' : σ} {e : ε}
    (h : (x >>= f) s = .error e s'') :
    x s = .error e s'' ∨ ∃ a s', x s = .ok a s' ∧ f a s' = .error e s'' := by
  cases hrun : x s with
  | ok a s' => exact Or.inr ⟨a, s', rfl, (bind_ok hrun).symm.trans h⟩
  | error e' s' =>
    cases (bind_error (f := f) hrun).symm.trans h
    exact Or.inl rfl

/-! ## Programs that raise only certain faults -/

/-- Whatever the program raises is in `P`. -/
def Raises (P : ε → Prop) (x : EStateM ε σ α) : Prop := ∀ s e s', x s = .error e s' → P e

namespace Raises

variable {P : ε → Prop}

theorem pure (a : α) : Raises P (Pure.pure a : EStateM ε σ α) := by
  intro s e s' h
  cases h

theorem raise {e : ε} (he : P e) : Raises P (throw e : EStateM ε σ α) := by
  intro s e' s' h
  cases h
  exact he

theorem change (u : σ → σ) : Raises P (modify u : EStateM ε σ PUnit) := by
  intro s e s' h
  cases h

theorem bind {x : EStateM ε σ α} {f : α → EStateM ε σ β} (hx : Raises P x) (hf : ∀ a, Raises P (f a)) :
    Raises P (x >>= f) := by
  intro s e s'' h
  rcases bind_eq_error h with h | ⟨a, s', -, h⟩
  · exact hx s e s'' h
  · exact hf a s' e s'' h

theorem forM {f : α → EStateM ε σ PUnit} {l : List α} (hf : ∀ a ∈ l, Raises P (f a)) : Raises P (l.forM f) := by
  induction l with
  | nil => exact pure _
  | cons a l ih => exact (hf a (by simp)).bind fun _ => ih fun b hb => hf b (by simp [hb])

end Raises

/-! ## Programs that change nothing -/

/-- The program leaves the state as it was. -/
def ReadOnly (x : EStateM ε σ α) : Prop := ∀ s, (x s).final = s

namespace ReadOnly

theorem pure (a : α) : ReadOnly (Pure.pure a : EStateM ε σ α) := fun _ => rfl

theorem raise (e : ε) : ReadOnly (throw e : EStateM ε σ α) := fun _ => rfl

theorem bind {x : EStateM ε σ α} {f : α → EStateM ε σ β} (hx : ReadOnly x) (hf : ∀ a, ReadOnly (f a)) :
    ReadOnly (x >>= f) := by
  intro s
  have h := hx s
  cases hrun : x s with
  | ok a s' =>
    rw [hrun] at h
    rw [bind_ok hrun, hf a s']
    exact h
  | error e s' =>
    rw [hrun] at h
    rw [bind_error hrun]
    exact h

theorem mapM {f : α → EStateM ε σ β} (hf : ∀ a, ReadOnly (f a)) (l : List α) : ReadOnly (l.mapM f) := by
  induction l with
  | nil => exact pure []
  | cons a l ih =>
    rw [List.mapM_cons]
    exact (hf a).bind fun b => ih.bind fun bs => pure (b :: bs)

/-- A run that changes nothing is its outcome. -/
theorem run_eq {x : EStateM ε σ α} (hx : ReadOnly x) (s : σ) : x s = match (x s).outcome with
    | .ok a => .ok a s
    | .error e => .error e s := by
  have h := hx s
  cases hrun : x s with
  | ok a s' =>
    rw [hrun] at h
    rw [Result.final_ok] at h
    rw [Result.outcome_ok, h]
  | error e s' =>
    rw [hrun] at h
    rw [Result.final_error] at h
    rw [Result.outcome_error, h]

theorem run_of_ok {x : EStateM ε σ α} (hx : ReadOnly x) {s : σ} {a : α} (h : (x s).outcome = .ok a) :
    x s = .ok a s := by
  rw [hx.run_eq s, h]

theorem run_of_error {x : EStateM ε σ α} (hx : ReadOnly x) {s : σ} {e : ε} (h : (x s).outcome = .error e) :
    x s = .error e s := by
  rw [hx.run_eq s, h]

theorem run_cases {x : EStateM ε σ α} (hx : ReadOnly x) (s : σ) : (∃ a, x s = .ok a s) ∨ ∃ e, x s = .error e s := by
  cases hout : (x s).outcome with
  | ok a => exact Or.inl ⟨a, hx.run_of_ok hout⟩
  | error e => exact Or.inr ⟨e, hx.run_of_error hout⟩

end ReadOnly

/-! ## Programs that return as others do -/

/-- Wherever `x` returns, `y` returns the same and leaves the same state. -/
def Returns (x y : EStateM ε σ α) : Prop := ∀ s a s', x s = .ok a s' → y s = .ok a s'

namespace Returns

theorem refl (x : EStateM ε σ α) : Returns x x := fun _ _ _ h => h

theorem bind {x y : EStateM ε σ α} {f g : α → EStateM ε σ β} (hx : Returns x y) (hf : ∀ a, Returns (f a) (g a)) :
    Returns (x >>= f) (y >>= g) := by
  intro s b s'' h
  obtain ⟨a, s', hrun, hrest⟩ := bind_eq_ok h
  rw [bind_ok (hx s a s' hrun)]
  exact hf a s' b s'' hrest

theorem forM {f g : α → EStateM ε σ PUnit} (hf : ∀ a, Returns (f a) (g a)) (l : List α) :
    Returns (l.forM f) (l.forM g) := by
  induction l with
  | nil => exact refl _
  | cons a l ih =>
    rw [forM_cons, forM_cons]
    exact (hf a).bind fun _ => ih

end Returns

/-! ## Confined programs -/

section confined

variable {ι κ ν : Type}

/-- The two states agree on the keys of `K`. -/
def AgreeOn (K : Set κ) (s s' : ι → κ → ν) : Prop := ∀ i, ∀ k ∈ K, s i k = s' i k

theorem AgreeOn.refl (K : Set κ) (s : ι → κ → ν) : AgreeOn K s s := fun _ _ _ => rfl

theorem AgreeOn.symm {K : Set κ} {s s' : ι → κ → ν} (h : AgreeOn K s s') : AgreeOn K s' s :=
  fun i k hk => (h i k hk).symm

theorem AgreeOn.trans {K : Set κ} {s s' s'' : ι → κ → ν} (h : AgreeOn K s s') (h' : AgreeOn K s' s'') :
    AgreeOn K s s'' :=
  fun i k hk => (h i k hk).trans (h' i k hk)

/-- From `I` the program keeps `I`, touches and observes only keys of `K`, and returns values in `P`. -/
structure Confined (I : (ι → κ → ν) → Prop) (K : Set κ) (P : α → Prop) (x : EStateM ε (ι → κ → ν) α) : Prop where
  returns : ∀ s, I s → ∀ a s', x s = .ok a s' → P a
  keeps : ∀ s, I s → I (x s).final
  outside : ∀ s, I s → ∀ i, ∀ k ∉ K, (x s).final i k = s i k
  agrees : ∀ s s', I s → I s' → AgreeOn K s s' →
    (x s).outcome = (x s').outcome ∧ AgreeOn K (x s).final (x s').final

namespace Confined

variable {I : (ι → κ → ν) → Prop} {K : Set κ} {P : α → Prop} {Q : β → Prop}

theorem pure {a : α} (ha : P a) : Confined I K P (Pure.pure a : EStateM ε (ι → κ → ν) α) where
  returns := by
    intro s _ b s' h
    cases h
    exact ha
  keeps _ hs := hs
  outside _ _ _ _ _ := rfl
  agrees _ _ _ _ h := ⟨rfl, h⟩

theorem raise (e : ε) : Confined I K P (throw e : EStateM ε (ι → κ → ν) α) where
  returns := by
    intro s _ b s' h
    cases h
  keeps _ hs := hs
  outside _ _ _ _ _ := rfl
  agrees _ _ _ _ h := ⟨rfl, h⟩

theorem mono {P' : α → Prop} {x : EStateM ε (ι → κ → ν) α} (hx : Confined I K P x) (h : ∀ a, P a → P' a) :
    Confined I K P' x where
  returns s hs a s' hrun := h a (hx.returns s hs a s' hrun)
  keeps := hx.keeps
  outside := hx.outside
  agrees := hx.agrees

/-- What one run of a confined program does. -/
theorem run_cases {x : EStateM ε (ι → κ → ν) α} (hx : Confined I K P x) {s : ι → κ → ν} (hs : I s) :
    (∃ a s', x s = .ok a s' ∧ P a ∧ I s' ∧ ∀ i, ∀ k ∉ K, s' i k = s i k) ∨
      ∃ e s', x s = .error e s' ∧ I s' ∧ ∀ i, ∀ k ∉ K, s' i k = s i k := by
  have hkeep := hx.keeps s hs
  have hout := hx.outside s hs
  cases hrun : x s with
  | ok a s' =>
    rw [hrun] at hkeep hout
    exact Or.inl ⟨a, s', rfl, hx.returns s hs a s' hrun, hkeep, hout⟩
  | error e s' =>
    rw [hrun] at hkeep hout
    exact Or.inr ⟨e, s', rfl, hkeep, hout⟩

/-- Two runs of a confined program from states that agree on its keys. -/
theorem runs_agree {x : EStateM ε (ι → κ → ν) α} (hx : Confined I K P x) {s t : ι → κ → ν} (hs : I s) (ht : I t)
    (hst : AgreeOn K s t) :
    (∃ a s' t', x s = .ok a s' ∧ x t = .ok a t' ∧ P a ∧ I s' ∧ I t' ∧ AgreeOn K s' t') ∨
      ∃ e s' t', x s = .error e s' ∧ x t = .error e t' ∧ I s' ∧ I t' ∧ AgreeOn K s' t' := by
  obtain ⟨hout, hfin⟩ := hx.agrees s t hs ht hst
  rcases hx.run_cases hs with ⟨a, s', hrun, ha, hkeep, -⟩ | ⟨e, s', hrun, hkeep, -⟩
  · rcases hx.run_cases ht with ⟨a', t', hrun', -, hkeep', -⟩ | ⟨e, t', hrun', -⟩
    · rw [hrun, hrun', Result.outcome_ok, Result.outcome_ok, Except.ok.injEq] at hout
      rw [hrun, hrun'] at hfin
      subst hout
      exact Or.inl ⟨a, s', t', hrun, hrun', ha, hkeep, hkeep', hfin⟩
    · rw [hrun, hrun'] at hout
      cases hout
  · rcases hx.run_cases ht with ⟨a, t', hrun', -⟩ | ⟨e', t', hrun', hkeep', -⟩
    · rw [hrun, hrun'] at hout
      cases hout
    · rw [hrun, hrun', Result.outcome_error, Result.outcome_error, Except.error.injEq] at hout
      rw [hrun, hrun'] at hfin
      subst hout
      exact Or.inr ⟨e, s', t', hrun, hrun', hkeep, hkeep', hfin⟩

theorem bind {x : EStateM ε (ι → κ → ν) α} {f : α → EStateM ε (ι → κ → ν) β} (hx : Confined I K P x)
    (hf : ∀ a, P a → Confined I K Q (f a)) : Confined I K Q (x >>= f) where
  returns := by
    intro s hs b s'' h
    rcases hx.run_cases hs with ⟨a, s', hrun, ha, hkeep, -⟩ | ⟨e, s', hrun, -⟩
    · rw [bind_ok hrun] at h
      exact (hf a ha).returns s' hkeep b s'' h
    · rw [bind_error hrun] at h
      cases h
  keeps := by
    intro s hs
    rcases hx.run_cases hs with ⟨a, s', hrun, ha, hkeep, -⟩ | ⟨e, s', hrun, hkeep, -⟩
    · rw [bind_ok hrun]
      exact (hf a ha).keeps s' hkeep
    · rw [bind_error hrun]
      exact hkeep
  outside := by
    intro s hs i k hk
    rcases hx.run_cases hs with ⟨a, s', hrun, ha, hkeep, hout⟩ | ⟨e, s', hrun, -, hout⟩
    · rw [bind_ok hrun, (hf a ha).outside s' hkeep i k hk]
      exact hout i k hk
    · rw [bind_error hrun]
      exact hout i k hk
  agrees := by
    intro s t hs ht hst
    rcases hx.runs_agree hs ht hst with ⟨a, s', t', hrun, hrun', ha, hkeep, hkeep', hfin⟩ |
      ⟨e, s', t', hrun, hrun', -, -, hfin⟩
    · rw [bind_ok hrun, bind_ok hrun']
      exact (hf a ha).agrees s' t' hkeep hkeep' hfin
    · rw [bind_error hrun, bind_error hrun']
      exact ⟨rfl, hfin⟩

theorem attempt {x : EStateM ε (ι → κ → ν) α} {handle : ε → EStateM ε (ι → κ → ν) α} (hx : Confined I K P x)
    (hf : ∀ e, Confined I K P (handle e)) : Confined I K P (tryCatch x handle) where
  returns := by
    intro s hs b s'' h
    rcases hx.run_cases hs with ⟨a, s', hrun, ha, -⟩ | ⟨e, s', hrun, hkeep, -⟩
    · rw [attempt_ok hrun] at h
      cases h
      exact ha
    · rw [attempt_error hrun] at h
      exact (hf e).returns s' hkeep b s'' h
  keeps := by
    intro s hs
    rcases hx.run_cases hs with ⟨a, s', hrun, -, hkeep, -⟩ | ⟨e, s', hrun, hkeep, -⟩
    · rw [attempt_ok hrun]
      exact hkeep
    · rw [attempt_error hrun]
      exact (hf e).keeps s' hkeep
  outside := by
    intro s hs i k hk
    rcases hx.run_cases hs with ⟨a, s', hrun, -, -, hout⟩ | ⟨e, s', hrun, hkeep, hout⟩
    · rw [attempt_ok hrun]
      exact hout i k hk
    · rw [attempt_error hrun, (hf e).outside s' hkeep i k hk]
      exact hout i k hk
  agrees := by
    intro s t hs ht hst
    rcases hx.runs_agree hs ht hst with ⟨a, s', t', hrun, hrun', -, -, -, hfin⟩ |
      ⟨e, s', t', hrun, hrun', hkeep, hkeep', hfin⟩
    · rw [attempt_ok hrun, attempt_ok hrun']
      exact ⟨rfl, hfin⟩
    · rw [attempt_error hrun, attempt_error hrun']
      exact (hf e).agrees s' t' hkeep hkeep' hfin

/-- A look at one key of `K`: whatever value stands there, the program goes on as a confined one. -/
theorem inspect {x : EStateM ε (ι → κ → ν) α} (i : ι) {k : κ} (hk : k ∈ K)
    (hx : ∀ v, ∃ y : EStateM ε (ι → κ → ν) α, (∀ s, s i k = v → x s = y s) ∧ Confined I K P y) :
    Confined I K P x where
  returns := by
    intro s hs a s' hrun
    obtain ⟨y, heq, hy⟩ := hx (s i k)
    rw [heq s rfl] at hrun
    exact hy.returns s hs a s' hrun
  keeps := by
    intro s hs
    obtain ⟨y, heq, hy⟩ := hx (s i k)
    rw [heq s rfl]
    exact hy.keeps s hs
  outside := by
    intro s hs
    obtain ⟨y, heq, hy⟩ := hx (s i k)
    rw [heq s rfl]
    exact hy.outside s hs
  agrees := by
    intro s t hs ht hst
    obtain ⟨y, heq, hy⟩ := hx (s i k)
    rw [heq s rfl, heq t (hst i k hk).symm]
    exact hy.agrees s t hs ht hst

/-- A program that is confined to some of the keys and keeps `I` is confined to all of them. -/
theorem widen {K' : Set κ} {x : EStateM ε (ι → κ → ν) α} (hx : Confined (fun _ => True) K' P x) (hsub : K' ⊆ K)
    (hkeep : ∀ s, I s → I (x s).final) : Confined I K P x where
  returns s _ := hx.returns s trivial
  keeps := hkeep
  outside s _ i k hk := hx.outside s trivial i k fun h => hk (hsub h)
  agrees := by
    intro s t _ _ hst
    obtain ⟨hout, hfin⟩ := hx.agrees s t trivial trivial fun i k hk => hst i k (hsub hk)
    refine ⟨hout, fun i k hk => ?_⟩
    by_cases hk' : k ∈ K'
    · exact hfin i k hk'
    · rw [hx.outside s trivial i k hk', hx.outside t trivial i k hk']
      exact hst i k hk

/-- A change that keeps `I` and writes keys of `K` only, with values that do not depend on the state. -/
theorem change {u : (ι → κ → ν) → ι → κ → ν} {P : PUnit → Prop} (hP : P ⟨⟩) (hkeep : ∀ s, I s → I (u s))
    (hout : ∀ s i, ∀ k ∉ K, u s i k = s i k)
    (hagree : ∀ s s', AgreeOn K s s' → AgreeOn K (u s) (u s')) :
    Confined I K P (modify u : EStateM ε (ι → κ → ν) PUnit) where
  returns := by
    intro s _ a s' h
    exact hP
  keeps := hkeep
  outside s _ := hout s
  agrees s s' _ _ h := ⟨rfl, hagree s s' h⟩

theorem returning {P' : α → Prop} {x : EStateM ε (ι → κ → ν) α} (hx : Confined I K P x)
    (h : ∀ s, I s → ∀ a s', x s = .ok a s' → P' a) : Confined I K P' x where
  returns := h
  keeps := hx.keeps
  outside := hx.outside
  agrees := hx.agrees

theorem forM {f : α → EStateM ε (ι → κ → ν) PUnit} {l : List α}
    (hf : ∀ a ∈ l, Confined I K (fun _ => True) (f a)) : Confined I K (fun _ => True) (l.forM f) := by
  induction l with
  | nil => exact pure trivial
  | cons a l ih =>
    show Confined I K _ (f a >>= fun _ => l.forM f)
    exact (hf a (by simp)).bind fun _ _ => ih fun b hb => hf b (by simp [hb])

theorem mapM {f : α → EStateM ε (ι → κ → ν) β} {l : List α} (hf : ∀ a ∈ l, Confined I K Q (f a)) :
    Confined I K (fun bs => ∀ b ∈ bs, Q b) (l.mapM f) := by
  induction l with
  | nil => exact pure (by simp)
  | cons a l ih =>
    rw [List.mapM_cons]
    refine (hf a (by simp)).bind fun b hb => (ih fun c hc => hf c (by simp [hc])).bind fun bs hbs => pure ?_
    intro c hc
    rcases List.mem_cons.mp hc with rfl | hc
    · exact hb
    · exact hbs c hc

theorem foldlM {γ : Type} {f : γ → α → EStateM ε (ι → κ → ν) γ} {l : List α}
    (hf : ∀ c, ∀ a ∈ l, Confined I K (fun _ => True) (f c a)) (c : γ) :
    Confined I K (fun _ => True) (l.foldlM f c) := by
  induction l generalizing c with
  | nil => exact pure trivial
  | cons a l ih =>
    rw [List.foldlM_cons]
    exact (hf c a (by simp)).bind fun c' _ => ih (fun c b hb => hf c b (by simp [hb])) c'

end Confined

/-! ## Programs with disjoint keys do not interfere -/

/-- The state after running the programs of a list one after the other, whether they return or raise. -/
def runAll (l : List (EStateM ε (ι → κ → ν) PUnit)) (s : ι → κ → ν) : ι → κ → ν := l.foldl (fun s x => (x s).final) s

/-- A list of programs of two parties (`true` and `false`), each confined to keys of its own: on the keys of the
first party the run looks as if the second party had not been there. -/
theorem runAll_purge {I J : (ι → κ → ν) → Prop} {K L : Set κ} (hdisjoint : Disjoint K L)
    (hI : ∀ s s', AgreeOn K s s' → I s → I s') (hJ : ∀ s s', AgreeOn L s s' → J s → J s')
    (l : List (Bool × EStateM ε (ι → κ → ν) PUnit))
    (hfirst : ∀ x, (true, x) ∈ l → Confined I K (fun _ => True) x)
    (hsecond : ∀ x, (false, x) ∈ l → Confined J L (fun _ => True) x) {s s' : ι → κ → ν} (hs : I s) (hs' : I s')
    (ht : J s) (hagree : AgreeOn K s s') :
    AgreeOn K (runAll (l.map Prod.snd) s) (runAll ((l.filter Prod.fst).map Prod.snd) s') ∧
      I (runAll (l.map Prod.snd) s) ∧ I (runAll ((l.filter Prod.fst).map Prod.snd) s') := by
  induction l generalizing s s' with
  | nil => exact ⟨hagree, hs, hs'⟩
  | cons e l ih =>
    obtain ⟨first, x⟩ := e
    have ih := @ih (fun y hy => hfirst y (List.mem_cons_of_mem _ hy)) (fun y hy => hsecond y (List.mem_cons_of_mem _ hy))
    cases first with
    | true =>
      have hx := hfirst x List.mem_cons_self
      have hL : AgreeOn L s (x s).final := fun i k hk =>
        (hx.outside s hs i k fun hk' => Set.disjoint_left.mp hdisjoint hk' hk).symm
      exact ih (hx.keeps s hs) (hx.keeps s' hs') (hJ _ _ hL ht) (hx.agrees s s' hs hs' hagree).2
    | false =>
      have hx := hsecond x List.mem_cons_self
      have hK : AgreeOn K s (x s).final := fun i k hk =>
        (hx.outside s ht i k fun hk' => Set.disjoint_left.mp hdisjoint hk hk').symm
      exact ih (hI _ _ hK hs) hs' (hx.keeps s ht) (hK.symm.trans hagree)

end confined

end EStateM
