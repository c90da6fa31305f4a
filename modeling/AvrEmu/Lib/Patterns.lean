import Mathlib.Data.Nat.Notation
import Mathlib.Logic.Basic

/-!
# Bit patterns

A pattern fixes some of the bits of a word. That the instances of one pattern are covered by a list
of others can be decided without going through the words: bits that the pattern leaves open are
fixed one after the other until some pattern of the list is reached.
-/

namespace Pattern

variable {w : ℕ}

/-- A word is an instance of a pattern, given by its value and its mask. -/
def Fits (p : BitVec w × BitVec w) (x : BitVec w) : Prop := x &&& p.2 = p.1

/-- A pattern that fixes at least the bits of another one, to the same values. -/
def finer (p q : BitVec w × BitVec w) : Bool := p.2 &&& q.2 == q.2 && p.1 &&& q.2 == q.1

/-- The pattern with one more bit fixed. -/
def fix (p : BitVec w × BitVec w) (i : ℕ) (v : Bool) : BitVec w × BitVec w :=
  (if v then p.1 ||| BitVec.twoPow w i else p.1, p.2 ||| BitVec.twoPow w i)

/-- Fixing bits of the list in turn, as far as they are open, reaches a pattern of `qs` on every
branch. -/
def covered (qs : List (BitVec w × BitVec w)) : List ℕ → BitVec w × BitVec w → Bool
  | [], p => qs.any (finer p)
  | i :: bits, p =>
    if qs.any (finer p) then true
    else if p.2.getLsbD i then covered qs bits p
    else covered qs bits (fix p i false) && covered qs bits (fix p i true)

variable {p q : BitVec w × BitVec w} {qs : List (BitVec w × BitVec w)} {x : BitVec w}

theorem Fits.of_finer (h : Fits p x) (hfiner : finer p q = true) : Fits q x := by
  obtain ⟨hmask, hvalue⟩ := Bool.and_eq_true_iff.mp hfiner
  rw [beq_iff_eq] at hmask hvalue
  unfold Fits at h ⊢
  rw [← hmask, ← BitVec.and_assoc, h, hvalue]

/-- An instance is an instance with any of its own bits fixed. -/
theorem Fits.fix (h : Fits p x) (i : ℕ) : Fits (fix p i (x.getLsbD i)) x := by
  unfold Fits at h ⊢
  have hbit : x &&& BitVec.twoPow w i = if x.getLsbD i then BitVec.twoPow w i else 0 :=
    BitVec.and_twoPow x i
  have hsplit : x &&& (p.2 ||| BitVec.twoPow w i) =
      x &&& p.2 ||| x &&& BitVec.twoPow w i := BitVec.and_or_distrib_left
  rw [Pattern.fix, hsplit, h, hbit]
  cases x.getLsbD i with
  | false => exact BitVec.or_zero
  | true => rfl

/-- Every instance of a covered pattern is an instance of a pattern of the list. -/
theorem Fits.exists_of_covered {bits : List ℕ} (h : Fits p x)
    (hcovered : covered qs bits p = true) : ∃ q ∈ qs, Fits q x := by
  have hdone : ∀ {p : BitVec w × BitVec w}, Fits p x → qs.any (finer p) = true →
      ∃ q ∈ qs, Fits q x := by
    intro p h hany
    obtain ⟨q, hq, hfiner⟩ := List.any_eq_true.mp hany
    exact ⟨q, hq, h.of_finer hfiner⟩
  induction bits generalizing p with
  | nil => exact hdone h hcovered
  | cons i bits ih =>
    rw [covered] at hcovered
    split at hcovered
    case isTrue hany => exact hdone h hany
    case isFalse =>
      split at hcovered
      case isTrue => exact ih h hcovered
      case isFalse =>
        obtain ⟨hclear, hset⟩ := Bool.and_eq_true_iff.mp hcovered
        refine ih (h.fix i) ?_
        cases x.getLsbD i with
        | false => exact hclear
        | true => exact hset

end Pattern
