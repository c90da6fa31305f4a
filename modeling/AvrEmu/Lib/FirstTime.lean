import Mathlib.Order.Nat
import Mathlib.Tactic.Common

/-!
# The first time a run has a property

A run is a sequence of states that may break off. Two properties are met at the same first times
exactly when the first state with either of them has both.
-/

variable {α : Type*} {r : ℕ → Option α} {P Q : α → Prop} {k : ℕ} {a : α}

/-- After `k` steps, and not before, a run has come to a state with the property. The state that it
starts from does not count. -/
structure FirstTime (r : ℕ → Option α) (P : α → Prop) (k : ℕ) (a : α) : Prop where
  pos : 0 < k
  state_eq : r k = some a
  holds : P a
  before : ∀ j b, 0 < j → j < k → r j = some b → ¬ P b

namespace FirstTime

/-- There is one first time. -/
theorem unique {k' : ℕ} {a' : α} (h : FirstTime r P k a) (h' : FirstTime r P k' a') :
    k = k' ∧ a = a' := by
  have hk : k = k' := by
    rcases Nat.lt_trichotomy k k' with hlt | heq | hgt
    · exact absurd h.holds (h'.before k a h.pos hlt h.state_eq)
    · exact heq
    · exact absurd h'.holds (h.before k' a' h'.pos hgt h'.state_eq)
  subst hk
  exact ⟨rfl, Option.some.inj (h.state_eq.symm.trans h'.state_eq)⟩

/-- Where a property is met, it is met for a first time. -/
theorem exists_le (hpos : 0 < k) (hstate : r k = some a) (hP : P a) :
    ∃ j b, j ≤ k ∧ FirstTime r P j b := by
  induction k using Nat.strong_induction_on generalizing a with
  | _ k ih =>
    by_cases hearlier : ∃ j b, 0 < j ∧ j < k ∧ r j = some b ∧ P b
    · obtain ⟨j, b, hj, hlt, hstate', hP'⟩ := hearlier
      obtain ⟨i, c, hi, hfirst⟩ := ih j hlt hj hstate' hP'
      exact ⟨i, c, Nat.le_of_lt (Nat.lt_of_le_of_lt hi hlt), hfirst⟩
    · refine ⟨k, a, Nat.le_refl k, hpos, hstate, hP, ?_⟩
      intro j b hj hlt hstate' hP'
      exact hearlier ⟨j, b, hj, hlt, hstate', hP'⟩

theorem or_left (h : FirstTime r (fun a => P a ∨ Q a) k a) (hP : P a) : FirstTime r P k a :=
  ⟨h.pos, h.state_eq, hP, fun j b hj hlt hstate hP' => h.before j b hj hlt hstate (Or.inl hP')⟩

theorem or_right (h : FirstTime r (fun a => P a ∨ Q a) k a) (hQ : Q a) : FirstTime r Q k a :=
  ⟨h.pos, h.state_eq, hQ, fun j b hj hlt hstate hQ' => h.before j b hj hlt hstate (Or.inr hQ')⟩

/-- Two properties have the same first times exactly when neither comes alone at first. -/
theorem congr_iff : (∀ k a, FirstTime r P k a ↔ FirstTime r Q k a) ↔
    ∀ k a, FirstTime r (fun a => P a ∨ Q a) k a → P a ∧ Q a := by
  constructor
  · intro hsame k a hfirst
    rcases hfirst.holds with hP | hQ
    · exact ⟨hP, ((hsame k a).mp (hfirst.or_left hP)).holds⟩
    · exact ⟨((hsame k a).mpr (hfirst.or_right hQ)).holds, hQ⟩
  · intro hboth k a
    constructor
    · intro hfirst
      obtain ⟨j, b, -, heither⟩ := exists_le (P := fun a => P a ∨ Q a) hfirst.pos hfirst.state_eq
        (Or.inl hfirst.holds)
      have hpair := hboth j b heither
      obtain ⟨rfl, rfl⟩ := hfirst.unique (heither.or_left hpair.1)
      exact heither.or_right hpair.2
    · intro hfirst
      obtain ⟨j, b, -, heither⟩ := exists_le (P := fun a => P a ∨ Q a) hfirst.pos hfirst.state_eq
        (Or.inr hfirst.holds)
      have hpair := hboth j b heither
      obtain ⟨rfl, rfl⟩ := hfirst.unique (heither.or_right hpair.2)
      exact heither.or_left hpair.1

end FirstTime
