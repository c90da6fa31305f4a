import Mathlib.Data.Nat.Digits.Lemmas
import Mathlib.Tactic.LinearCombination
import Mathlib.Tactic.Ring

/-!
# Long addition, subtraction and halving

Little-endian digit lists in an arbitrary base, added or subtracted column by column. The
columns together give the exact result, the last carry included, and the last column gives
the exact result of the lists read as signed numbers. A digit list is halved from the top down,
each digit passing its lowest bit on to the next.
-/

namespace Digits

variable {b x d r w : ℕ} {c c' c₀ : Bool} {σ : ℤ}

/-- The value of a digit list in two's complement, or its analogue in another even base. -/
def signed (b : ℕ) (l : List ℕ) : ℤ := ((Nat.ofDigits b l : ℕ) : ℤ).bmod (b ^ l.length)

theorem ofDigits_concat (b : ℕ) (l : List ℕ) (d : ℕ) :
    Nat.ofDigits b (l ++ [d]) = Nat.ofDigits b l + b ^ l.length * d := by
  rw [Nat.ofDigits_append, Nat.ofDigits_singleton]

/-- A digit list stays below the power of the base. -/
theorem ofDigits_lt {l : List ℕ} (hl : ∀ d ∈ l, d < b) : Nat.ofDigits b l < b ^ l.length := by
  induction l using List.reverseRecOn with
  | nil => simp
  | append_singleton l d ih =>
    have hlow := ih fun e he => hl e (List.mem_append_left _ he)
    have hd : d + 1 ≤ b := hl d (by simp)
    rw [ofDigits_concat, List.length_append, List.length_singleton, pow_succ]
    calc Nat.ofDigits b l + b ^ l.length * d < b ^ l.length + b ^ l.length * d := by omega
      _ = b ^ l.length * (d + 1) := by ring
      _ ≤ b ^ l.length * b := Nat.mul_le_mul_left _ hd

/-- The top digit decides how a number compares with a multiple of the power below it. -/
theorem add_mul_lt_mul_iff {q : ℕ} {t k : ℤ} (hx : x < q) : x + q * t < q * k ↔ t < k := by
  constructor
  · intro h
    by_contra hge
    have hmul : (q : ℤ) * k ≤ q * t := Int.mul_le_mul_of_nonneg_left (by omega) (by omega)
    omega
  · intro h
    have hmul : (q : ℤ) * (t + 1) ≤ q * k := Int.mul_le_mul_of_nonneg_left h (by omega)
    rw [mul_add, mul_one] at hmul
    omega

/-- The signed reading takes the modulus off the upper half. -/
theorem bmod_of_lt {h : ℕ} (hx : x < 2 * h) :
    (x : ℤ).bmod (2 * h) = if x < h then (x : ℤ) else x - 2 * h := by
  have hmod : (x : ℤ) % ((2 * h : ℕ) : ℤ) = x := Int.emod_eq_of_lt (by omega) (by omega)
  rw [Int.bmod_def, hmod]
  split <;> split <;> omega

/-- Only the top digit is read as signed. -/
theorem signed_concat {h : ℕ} {l : List ℕ} (hl : ∀ e ∈ l, e < 2 * h) (hd : d < 2 * h) :
    signed (2 * h) (l ++ [d]) =
      Nat.ofDigits (2 * h) l + ((2 * h) ^ l.length : ℕ) * (d : ℤ).bmod (2 * h) := by
  have hx := ofDigits_lt hl
  rw [signed, ofDigits_concat, List.length_append, List.length_singleton, pow_succ]
  generalize Nat.ofDigits (2 * h) l = x at hx ⊢
  generalize (2 * h) ^ l.length = q at hx ⊢
  have hmodulus : q * (2 * h) = 2 * (q * h) := by ring
  have hle : q * (d + 1) ≤ q * (2 * h) := Nat.mul_le_mul_left q hd
  have hlt : x + q * d < 2 * (q * h) := by
    rw [Nat.mul_succ, hmodulus] at hle
    omega
  have hhalf : x + q * d < q * h ↔ d < h := by
    have hdecide := add_mul_lt_mul_iff (t := d) (k := h) hx
    exact_mod_cast hdecide
  rw [hmodulus, bmod_of_lt hlt, bmod_of_lt hd]
  by_cases hlow : d < h
  · rw [if_pos (hhalf.mpr hlow), if_pos hlow]
    push_cast
    ring
  · rw [if_neg (hlow ∘ hhalf.mp), if_neg hlow]
    push_cast
    ring

/-- The columns of a long addition (`σ = 1`) or subtraction (`σ = -1`), each with its two
digits and the digit written below them, between the first carry and the last. -/
inductive Columns (b : ℕ) (σ : ℤ) (c₀ : Bool) : List (ℕ × ℕ × ℕ) → Bool → Prop
  | nil : Columns b σ c₀ [] c₀
  | snoc {l : List (ℕ × ℕ × ℕ)} {d r w : ℕ} {c c' : Bool} : Columns b σ c₀ l c →
      d < b → r < b → w < b →
      (d + σ * (r + c.toNat) : ℤ) = w + b * (σ * c'.toNat) → Columns b σ c₀ (l ++ [(d, r, w)]) c'

/-- All digits lie below the base. -/
theorem Columns.digits_lt {l : List (ℕ × ℕ × ℕ)} (h : Columns b σ c₀ l c) :
    ∀ e ∈ l, e.1 < b ∧ e.2.1 < b ∧ e.2.2 < b := by
  induction h with
  | nil => simp
  | snoc _ hd hr hw _ ih =>
    intro e he
    rcases List.mem_append.mp he with he | he
    · exact ih e he
    · rw [List.mem_singleton.mp he]
      exact ⟨hd, hr, hw⟩

/-- The written digits and the last carry are the exact result. -/
theorem Columns.exact {l : List (ℕ × ℕ × ℕ)} (h : Columns b σ c₀ l c) :
    (Nat.ofDigits b (l.map (·.1)) + σ * (Nat.ofDigits b (l.map (·.2.1)) + c₀.toNat) : ℤ) =
      Nat.ofDigits b (l.map (·.2.2)) + (b ^ l.length : ℕ) * (σ * c.toNat) := by
  induction h with
  | nil => simp
  | @snoc l d r w c c' _ _ _ _ hcolumn ih =>
    simp only [List.map_append, List.map_cons, List.map_nil, ofDigits_concat, List.length_map,
      List.length_append, List.length_singleton, pow_succ]
    push_cast at ih ⊢
    linear_combination ih + (b : ℤ) ^ l.length * hcolumn

/-- The exact result of the lists read as signed numbers, from the last column. -/
theorem Columns.exact_signed {h : ℕ} {l : List (ℕ × ℕ × ℕ)} (hcols : Columns (2 * h) σ c₀ l c)
    (hd : d < 2 * h) (hr : r < 2 * h) :
    signed (2 * h) (l.map (·.1) ++ [d]) + σ * (signed (2 * h) (l.map (·.2.1) ++ [r]) + c₀.toNat) =
      Nat.ofDigits (2 * h) (l.map (·.2.2)) + ((2 * h) ^ l.length : ℕ) *
        ((d : ℤ).bmod (2 * h) + σ * ((r : ℤ).bmod (2 * h) + c.toNat)) := by
  have hlow := hcols.exact
  have hdigits := hcols.digits_lt
  rw [signed_concat (fun e he => ?_) hd, signed_concat (fun e he => ?_) hr, List.length_map,
    List.length_map]
  · linear_combination hlow
  · obtain ⟨a, ha, rfl⟩ := List.mem_map.mp he
    exact (hdigits a ha).2.1
  · obtain ⟨a, ha, rfl⟩ := List.mem_map.mp he
    exact (hdigits a ha).1

/-! ## Halving -/

/-- The sign of the top digit is what the signed reading takes off. -/
theorem signed_concat_eq {h : ℕ} {l : List ℕ} (hl : ∀ e ∈ l, e < 2 * h) (hd : d < 2 * h) :
    signed (2 * h) (l ++ [d]) = Nat.ofDigits (2 * h) (l ++ [d]) -
      ((2 * h) ^ (l.length + 1) : ℕ) * (decide (h ≤ d)).toNat := by
  rw [signed_concat hl hd, ofDigits_concat, bmod_of_lt hd, pow_succ]
  by_cases hlow : d < h
  · rw [if_pos hlow, decide_eq_false (by omega), Bool.toNat_false]
    push_cast
    ring
  · rw [if_neg hlow, decide_eq_true (by omega), Bool.toNat_true]
    push_cast
    ring

/-- The columns of a halving from the top down: each digit with the one written below it, between
the bit that comes in above the top digit and the one that is left over. -/
inductive Halved (b : ℕ) (c₀ : Bool) : List (ℕ × ℕ) → Bool → Prop
  | nil : Halved b c₀ [] c₀
  | cons {l : List (ℕ × ℕ)} {d w : ℕ} {c c' : Bool} : Halved b c₀ l c → d < b → w < b →
      d + b * c.toNat = 2 * w + c'.toNat → Halved b c₀ ((d, w) :: l) c'

/-- Twice what is written, with the bit left over, is the number with the bit above it. -/
theorem Halved.exact {l : List (ℕ × ℕ)} (h : Halved b c₀ l c) :
    Nat.ofDigits b (l.map (·.1)) + b ^ l.length * c₀.toNat =
      2 * Nat.ofDigits b (l.map (·.2)) + c.toNat := by
  induction h with
  | nil => simp
  | @cons l d w c c' _ _ _ hcolumn ih =>
    simp only [List.map_cons, Nat.ofDigits_cons, List.length_cons, pow_succ]
    linear_combination b * ih + hcolumn

end Digits
