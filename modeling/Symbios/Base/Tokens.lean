import Mathlib.Data.List.TakeWhile
import Mathlib.Data.List.Basic

/-!
# Tokens between separators

`next sep` skips the separators in front of a list and cuts off what stands before the next one, as `strtok` does. A
token is what it can cut off; one with a separator behind it is cut off whole (`next_word`), and nothing but tokens
is (`word_of_next`).
-/

namespace Tokens

variable {α : Type} [DecidableEq α] {sep : α} {s word rest : List α}

/-- The next token, and what is behind its separator. -/
def next (sep : α) (s : List α) : Option (List α × List α) :=
  let s := s.dropWhile (· = sep)
  if s = [] then none else some (s.takeWhile (· ≠ sep), (s.dropWhile (· ≠ sep)).drop 1)

/-- Something, without the separator. -/
structure IsToken (sep : α) (word : List α) : Prop where
  ne_nil : word ≠ []
  not_mem : sep ∉ word

/-- A word is cut off at the separator behind it, or at the end. -/
theorem next_front (h : IsToken sep word) (hrest : ∀ a, rest.head? = some a → a = sep) :
    next sep (word ++ rest) = some (word, rest.drop 1) := by
  have hword : ∀ a ∈ word, a ≠ sep := fun a ha heq => h.not_mem (heq ▸ ha)
  have htake : (word ++ rest).takeWhile (· ≠ sep) = word ∧ (word ++ rest).dropWhile (· ≠ sep) = rest := by
    rw [List.takeWhile_append_of_pos (by simpa using hword), List.dropWhile_append_of_pos (by simpa using hword)]
    cases rest with
    | nil => simp
    | cons a rest => simp [hrest a rfl]
  have hfront : (word ++ rest).dropWhile (· = sep) = word ++ rest := by
    obtain ⟨a, tail, rfl⟩ := List.exists_cons_of_ne_nil h.ne_nil
    exact List.dropWhile_cons_of_neg (by simpa using hword a List.mem_cons_self)
  unfold next
  rw [hfront]
  dsimp only
  rw [if_neg (List.append_ne_nil_of_left_ne_nil h.ne_nil rest), htake.1, htake.2]

theorem next_word (h : IsToken sep word) (rest : List α) : next sep (word ++ sep :: rest) = some (word, rest) :=
  next_front h fun _ ha => (Option.some.inj ha).symm

theorem next_last (h : IsToken sep word) : next sep word = some (word, []) := by
  have hlast : next sep (word ++ []) = some (word, []) := next_front h fun _ ha => by cases ha
  rwa [List.append_nil] at hlast

/-- What is cut off, and what is left behind it. -/
theorem eq_of_next (h : next sep s = some (word, rest)) :
    s.dropWhile (· = sep) ≠ [] ∧ (s.dropWhile (· = sep)).takeWhile (· ≠ sep) = word ∧
      ((s.dropWhile (· = sep)).dropWhile (· ≠ sep)).drop 1 = rest := by
  unfold next at h
  dsimp only at h
  split_ifs at h with hs
  exact ⟨hs, Prod.mk.inj (Option.some.inj h)⟩

/-- Whatever is cut off is a word. -/
theorem word_of_next (h : next sep s = some (word, rest)) : IsToken sep word := by
  obtain ⟨hs, rfl, -⟩ := eq_of_next h
  refine ⟨fun hnil => ?_, fun hmem => by simpa using List.mem_takeWhile_imp hmem⟩
  obtain ⟨a, tail, htail⟩ := List.exists_cons_of_ne_nil hs
  have ha : a ≠ sep := by
    have hhead := List.head?_dropWhile_not (fun a => decide (a = sep)) s
    rw [htail] at hhead
    simpa using hhead
  rw [htail, List.takeWhile_cons_of_pos (by simpa using ha)] at hnil
  cases hnil

theorem subset_of_next (h : next sep s = some (word, rest)) : word ⊆ s ∧ rest ⊆ s := by
  obtain ⟨-, rfl, rfl⟩ := eq_of_next h
  have hfront : s.dropWhile (· = sep) ⊆ s := (List.dropWhile_sublist _).subset
  have hbehind : (s.dropWhile (· = sep)).dropWhile (· ≠ sep) ⊆ s :=
    List.Subset.trans (List.dropWhile_sublist _).subset hfront
  exact ⟨List.Subset.trans (List.takeWhile_sublist _).subset hfront,
    List.Subset.trans (List.drop_subset 1 _) hbehind⟩

end Tokens
