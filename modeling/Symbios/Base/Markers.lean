import Mathlib.Data.List.Basic

/-!
# Telling texts apart by markers

Two lists of parts that read the same with a long run of one item behind every part, and also with a long run of
another, have the same parts.
-/

namespace Markers

variable {α β : Type} {x y : α} {n : Nat}

/-- The shorter front is followed by the marker inside the longer one. -/
theorem front_of_le {a b r s : List α} (hle : a.length ≤ b.length) (hb : b.length ≤ n) {c : α}
    (h : a ++ (List.replicate n c ++ r) = b ++ (List.replicate n c ++ s)) :
    b = a ++ List.replicate (b.length - a.length) c := by
  have htake := congrArg (List.take b.length) h
  rw [List.take_left, List.take_append, List.take_of_length_le hle, List.take_append_of_le_length, List.take_replicate,
    Nat.min_eq_left (by omega)] at htake
  · exact htake.symm
  · rw [List.length_replicate]
    omega

theorem fronts_eq {a b : List α} {r s : α → List α} (hxy : x ≠ y) (ha : a.length ≤ n) (hb : b.length ≤ n)
    (h : ∀ c, c = x ∨ c = y → a ++ (List.replicate n c ++ r c) = b ++ (List.replicate n c ++ s c)) : a = b := by
  wlog hle : a.length ≤ b.length generalizing a b r s with hother
  · exact (hother hb ha (fun c hc => (h c hc).symm) (by omega)).symm
  have hx := front_of_le hle hb (h x (Or.inl rfl))
  have hy := front_of_le hle hb (h y (Or.inr rfl))
  rcases Nat.eq_zero_or_pos (b.length - a.length) with hzero | hpos
  · rw [hx, hzero]
    simp
  · have hsame : List.replicate (b.length - a.length) x = List.replicate (b.length - a.length) y :=
      List.append_cancel_left (hx.symm.trans hy)
    rw [List.replicate_inj] at hsame
    exact absurd (hsame.2.resolve_left (by omega)) hxy

/-- Parts with markers behind them are the same, and so is what follows. -/
theorem parts_eq (hxy : x ≠ y) {l : List β} {f g : β → List α} {r s : α → List α}
    (hf : ∀ b ∈ l, (f b).length ≤ n) (hg : ∀ b ∈ l, (g b).length ≤ n)
    (h : ∀ c, c = x ∨ c = y → (l.flatMap fun b => f b ++ List.replicate n c) ++ r c =
      (l.flatMap fun b => g b ++ List.replicate n c) ++ s c) :
    (∀ b ∈ l, f b = g b) ∧ ∀ c, c = x ∨ c = y → r c = s c := by
  induction l with
  | nil => exact ⟨by simp, h⟩
  | cons b l ih =>
    simp only [List.flatMap_cons, List.append_assoc] at h
    obtain ⟨hfb, hf⟩ := List.forall_mem_cons.mp hf
    obtain ⟨hgb, hg⟩ := List.forall_mem_cons.mp hg
    have hfront := fronts_eq hxy hfb hgb h
    obtain ⟨hparts, hrest⟩ := ih hf hg fun c hc => by
      have hc' := h c hc
      rw [hfront] at hc'
      exact List.append_cancel_left (List.append_cancel_left hc')
    exact ⟨List.forall_mem_cons.mpr ⟨hfront, hparts⟩, hrest⟩

end Markers
