import Mathlib.Data.List.Pairwise
import Mathlib.Data.List.Perm.Basic

/-!
# Searching a table for the first match

A table is searched from its head for an entry that matches an input. The order of the entries does
not matter exactly when no input is matched by two of them.
-/

namespace FirstMatch

variable {α β : Type} {p : α → β → Bool} {table table' : List α} {a : α} {b : β}

/-- No input is matched by two entries of the table. -/
def Exclusive (p : α → β → Bool) (table : List α) : Prop :=
  ∀ a ∈ table, ∀ a' ∈ table, ∀ b, p a b = true → p a' b = true → a = a'

/-- In a table whose entries exclude one another pairwise no input is matched by two of them. -/
theorem exclusive_of_pairwise {R : α → α → Prop} [Std.Symm R] (hpairwise : table.Pairwise R)
    (hnot : ∀ a a' b, R a a' → p a b = true → p a' b = true → False) : Exclusive p table := by
  intro a ha a' ha' b hb hb'
  by_contra hne
  exact hnot a a' b (hpairwise.forall ha ha' hne) hb hb'

/-- The search finds the entry that matches, wherever it stands. -/
theorem Exclusive.find?_eq_some_iff (h : Exclusive p table) :
    table.find? (fun a => p a b) = some a ↔ a ∈ table ∧ p a b = true := by
  constructor
  · intro hfind
    exact ⟨List.mem_of_find?_eq_some hfind, List.find?_some (p := fun a => p a b) hfind⟩
  · rintro ⟨ha, hb⟩
    cases hfind : table.find? fun a => p a b with
    | none => exact absurd hb (List.find?_eq_none.mp hfind a ha)
    | some a' =>
      have ha' := List.mem_of_find?_eq_some hfind
      have hb' : p a' b = true := List.find?_some (p := fun a => p a b) hfind
      rw [h a ha a' ha' b hb hb']

theorem Exclusive.perm (h : Exclusive p table) (hperm : table'.Perm table) :
    Exclusive p table' := by
  intro a ha a' ha'
  exact h a (hperm.mem_iff.mp ha) a' (hperm.mem_iff.mp ha')

/-- The search finds the same in a reordered table. -/
theorem Exclusive.find?_perm (h : Exclusive p table) (hperm : table'.Perm table) (b : β) :
    table'.find? (fun a => p a b) = table.find? fun a => p a b := by
  apply Option.ext
  intro a
  rw [(h.perm hperm).find?_eq_some_iff, h.find?_eq_some_iff, hperm.mem_iff]

/-- An entry can be moved to the head of its table, where it is found. -/
theorem exists_perm_find? (ha : a ∈ table) (hb : p a b = true) :
    ∃ table' : List α, table'.Perm table ∧ table'.find? (fun a => p a b) = some a := by
  obtain ⟨before, after, rfl⟩ := List.append_of_mem ha
  exact ⟨a :: (before ++ after), List.perm_middle.symm, List.find?_cons_of_pos hb⟩

/-- The order of a table does not matter if and only if no input is matched by two entries. -/
theorem find?_perm_iff : (∀ table' : List α, table'.Perm table → ∀ b,
    table'.find? (fun a => p a b) = table.find? fun a => p a b) ↔ Exclusive p table := by
  constructor
  · intro hsame a ha a' ha' b hb hb'
    obtain ⟨table₁, hperm₁, hfind₁⟩ := exists_perm_find? ha hb
    obtain ⟨table₂, hperm₂, hfind₂⟩ := exists_perm_find? ha' hb'
    rw [hsame table₁ hperm₁] at hfind₁
    rw [hsame table₂ hperm₂] at hfind₂
    exact Option.some.inj (hfind₁.symm.trans hfind₂)
  · intro h table' hperm b
    exact h.find?_perm hperm b

end FirstMatch
