import Mathlib.Data.Nat.Notation
import Mathlib.Tactic.Positivity

/-!
# Masks of machine words

Arithmetic readings of the masks that code applies to fixed-width words.
-/

namespace Bits

variable {w : ℕ}

/-- Clearing the low `k` bits leaves nothing exactly when the value lies below `2 ^ k`. -/
theorem and_not_low_eq_zero_iff (k : ℕ) (x : BitVec w) :
    x &&& ~~~BitVec.ofNat w (2 ^ k - 1) = 0#w ↔ x.toNat < 2 ^ k := by
  have hmask (i : ℕ) (hi : i < w) : (BitVec.ofNat w (2 ^ k - 1)).getLsbD i = decide (i < k) := by
    rw [BitVec.getLsbD_ofNat, Nat.testBit_two_pow_sub_one]
    simp only [hi, decide_true, Bool.true_and]
  constructor
  · intro h
    apply Nat.lt_pow_two_of_testBit
    intro i hi
    by_cases hiw : i < w
    · have hbit := congrArg (fun y => y.getLsbD i) h
      simp only [BitVec.getLsbD_and, BitVec.getLsbD_not, hmask i hiw, hiw, decide_true,
        Bool.true_and, BitVec.getLsbD_zero] at hbit
      have hik : decide (i < k) = false := by simp; omega
      rw [hik] at hbit
      simpa [BitVec.testBit_toNat] using hbit
    · simp [BitVec.testBit_toNat, BitVec.getLsbD_of_ge x i (by omega)]
  · intro h
    apply BitVec.eq_of_getLsbD_eq
    intro i hi
    simp only [BitVec.getLsbD_and, BitVec.getLsbD_not, hmask i hi, hi, decide_true,
      Bool.true_and, BitVec.getLsbD_zero]
    by_cases hik : i < k
    · simp [hik]
    · have hbit : x.getLsbD i = false := by
        rw [← BitVec.testBit_toNat]
        exact Nat.testBit_lt_two_pow
          (Nat.lt_of_lt_of_le h (Nat.pow_le_pow_right (by omega) (by omega)))
      simp [hbit]

/-- Keeping the low `k` bits is reduction modulo `2 ^ k`. -/
theorem toNat_and_low {k : ℕ} (hk : k ≤ w) (x : BitVec w) :
    (x &&& BitVec.ofNat w (2 ^ k - 1)).toNat = x.toNat % 2 ^ k := by
  have hlt : 2 ^ k - 1 < 2 ^ w := by
    have := Nat.pow_le_pow_right (show 0 < 2 by decide) hk
    have := Nat.two_pow_pos k
    omega
  rw [BitVec.toNat_and, BitVec.toNat_ofNat, Nat.mod_eq_of_lt hlt, Nat.and_two_pow_sub_one_eq_mod]

/-- The lowest bit is clear exactly in even words. -/
theorem and_one_eq_zero_iff (hw : 0 < w) (x : BitVec w) :
    x &&& 1#w = 0#w ↔ x.toNat % 2 = 0 := by
  have hone : 1 % 2 ^ w = 1 := Nat.mod_eq_of_lt (Nat.one_lt_two_pow (by omega))
  rw [← BitVec.toNat_inj]
  simp [BitVec.toNat_and, hone, Nat.and_one_is_mod]

/-- Two rows of masks and patterns that clash on a common bit match no word together. -/
theorem not_both_match {x m₁ p₁ m₂ p₂ : BitVec w} (h₁ : x &&& m₁ = p₁)
    (hclash : (p₁ ^^^ p₂) &&& m₁ &&& m₂ ≠ 0#w) : x &&& m₂ ≠ p₂ := by
  rintro rfl
  subst h₁
  apply hclash
  apply BitVec.eq_of_getLsbD_eq
  intro i _
  simp only [BitVec.getLsbD_and, BitVec.getLsbD_xor, BitVec.getLsbD_zero]
  cases x.getLsbD i <;> cases m₁.getLsbD i <;> cases m₂.getLsbD i <;> rfl

/-- A value keeps its bound when its width changes. -/
theorem toNat_setWidth_lt {n k : ℕ} (hn : n ≤ k) (x : BitVec n) : (x.setWidth w).toNat < 2 ^ k := by
  rw [BitVec.toNat_setWidth]
  exact Nat.lt_of_le_of_lt (Nat.mod_le _ _)
    (Nat.lt_of_lt_of_le x.isLt (Nat.pow_le_pow_right (by omega) hn))

/-- A part put above a value that lies below it. -/
theorem toNat_or_shiftLeft_of_lt {a b : ℕ} (hw : a + b ≤ w) {x : BitVec w} (hx : x.toNat < 2 ^ a)
    (hi : BitVec b) : (x ||| hi.setWidth w <<< a).toNat = hi.toNat * 2 ^ a + x.toNat := by
  have hhi : hi.toNat * 2 ^ a < 2 ^ w := by
    calc hi.toNat * 2 ^ a < 2 ^ b * 2 ^ a := Nat.mul_lt_mul_of_pos_right hi.isLt (by positivity)
      _ = 2 ^ (a + b) := by rw [Nat.mul_comm, Nat.pow_add]
      _ ≤ 2 ^ w := Nat.pow_le_pow_right (by omega) hw
  rw [BitVec.toNat_or, BitVec.toNat_shiftLeft, BitVec.toNat_setWidth_of_le (by omega),
    Nat.shiftLeft_eq, Nat.mod_eq_of_lt hhi, Nat.or_comm, ← Nat.shiftLeft_eq,
    Nat.shiftLeft_add_eq_or_of_lt hx]

/-- A value put together from a low and a high part. -/
theorem toNat_or_shiftLeft {a b : ℕ} (hw : a + b ≤ w) (lo : BitVec a) (hi : BitVec b) :
    (lo.setWidth w ||| hi.setWidth w <<< a).toNat = hi.toNat * 2 ^ a + lo.toNat := by
  have hlo : (lo.setWidth w).toNat = lo.toNat := BitVec.toNat_setWidth_of_le (by omega)
  rw [toNat_or_shiftLeft_of_lt hw (by rw [hlo]; exact lo.isLt), hlo]

/-- A single selected bit. -/
theorem and_twoPow_ne_zero {i : ℕ} (hi : i < w) (x : BitVec w) :
    (x &&& BitVec.twoPow w i != 0#w) = x.getLsbD i := by
  rw [BitVec.and_twoPow]
  cases x.getLsbD i with
  | false => simp
  | true =>
    have hne : BitVec.twoPow w i ≠ 0#w := by
      intro hzero
      have hbit := congrArg (fun y => y.getLsbD i) hzero
      simp [hi] at hbit
    simp [hne]

/-- A bit as a digit of the value. -/
theorem getLsbD_eq_decide (i : ℕ) (x : BitVec w) :
    x.getLsbD i = decide (x.toNat / 2 ^ i % 2 = 1) := by
  rw [← BitVec.testBit_toNat, Nat.testBit_eq_decide_div_mod_eq]

/-- A bit, by the number that it and the bits below it make up. -/
theorem getLsbD_eq_decide_le (i : ℕ) (x : BitVec w) :
    x.getLsbD i = decide (2 ^ i ≤ x.toNat % 2 ^ (i + 1)) := by
  have hlow : x.toNat % 2 ^ i < 2 ^ i := Nat.mod_lt _ (Nat.two_pow_pos i)
  rw [getLsbD_eq_decide, decide_eq_decide, Nat.mod_pow_succ]
  rcases Nat.mod_two_eq_zero_or_one (x.toNat / 2 ^ i) with hbit | hbit
  · rw [hbit]
    omega
  · rw [hbit]
    omega

/-- A selected bit that two words have in common. -/
theorem twoPow_and_and_ne_zero {i : ℕ} (hi : i < w) (a b : BitVec w) :
    (BitVec.twoPow w i &&& a &&& b != 0#w) = (a.getLsbD i && b.getLsbD i) := by
  rw [BitVec.and_assoc, BitVec.and_comm, and_twoPow_ne_zero hi, BitVec.getLsbD_and]

/-- The top bit of a complement. -/
theorem msb_not (hw : 0 < w) (x : BitVec w) : (~~~x).msb = !x.msb := by
  rw [BitVec.msb_not, decide_eq_true hw, Bool.true_and]

/-- The carry out of an addition modulo `2 * q`, from the top bits of the summands and the sum. -/
theorem carry_iff {q x y c : ℕ} (hx : x < 2 * q) (hy : y < 2 * q) (hc : c ≤ 1) :
    ((q ≤ x ∧ q ≤ y ∨ q ≤ y ∧ ¬ q ≤ (x + y + c) % (2 * q)) ∨
      ¬ q ≤ (x + y + c) % (2 * q) ∧ q ≤ x) ↔ 2 * q ≤ x + y + c := by
  rcases Nat.lt_or_ge (x + y + c) (2 * q) with hlt | hge
  · rw [Nat.mod_eq_of_lt hlt]
    omega
  · rw [Nat.mod_eq_sub_mod hge, Nat.mod_eq_of_lt (by omega)]
    omega

/-- The carry out of a bit of a sum. -/
theorem carry_eq {i : ℕ} (hi : i < w) {a b s : BitVec w} {c : ℕ} (hc : c ≤ 1)
    (hs : s.toNat = (a.toNat + b.toNat + c) % 2 ^ w) :
    (a.getLsbD i && b.getLsbD i || b.getLsbD i && !s.getLsbD i || !s.getLsbD i && a.getLsbD i) =
      decide (2 ^ (i + 1) ≤ a.toNat % 2 ^ (i + 1) + b.toNat % 2 ^ (i + 1) + c) := by
  have hlow : s.toNat % 2 ^ (i + 1) =
      (a.toNat % 2 ^ (i + 1) + b.toNat % 2 ^ (i + 1) + c) % 2 ^ (i + 1) := by
    rw [hs, Nat.mod_mod_of_dvd _ (pow_dvd_pow 2 hi)]
    simp only [Nat.add_mod, Nat.mod_mod, Nat.succ_eq_add_one]
  have hpow : 2 ^ (i + 1) = 2 * 2 ^ i := pow_succ' 2 i
  have hmod (x : ℕ) : x % 2 ^ (i + 1) < 2 * 2 ^ i := hpow ▸ Nat.mod_lt x (Nat.two_pow_pos (i + 1))
  rw [Bool.eq_iff_iff]
  simp only [getLsbD_eq_decide_le, hlow, Bool.or_eq_true, Bool.and_eq_true, Bool.not_eq_true',
    decide_eq_false_iff_not, decide_eq_true_eq]
  have hcarry := carry_iff (hmod a.toNat) (hmod b.toNat) hc
  rwa [← hpow] at hcarry

/-- The overflow of a sum of signed numbers. -/
theorem overflow_eq (hw : 0 < w) {a b s : BitVec w} {c : ℕ} (hc : c ≤ 1)
    (hs : s.toNat = (a.toNat + b.toNat + c) % 2 ^ w) :
    (a.msb && b.msb && !s.msb || !a.msb && !b.msb && s.msb) =
      decide (¬ (-2 ^ (w - 1) ≤ a.toInt + b.toInt + c ∧
        a.toInt + b.toInt + c < 2 ^ (w - 1))) := by
  have hpow : 2 ^ w = 2 * 2 ^ (w - 1) := by
    rw [← pow_succ', Nat.sub_add_cancel hw]
  have hlt (x : BitVec w) : x.toNat < 2 * 2 ^ (w - 1) := hpow ▸ x.isLt
  have hint (x : BitVec w) : x.toInt =
      if 2 ^ (w - 1) ≤ x.toNat then (x.toNat : ℤ) - 2 * (2 ^ (w - 1) : ℕ) else x.toNat := by
    rw [BitVec.toInt_eq_msb_cond, BitVec.msb_eq_decide, hpow]
    simp
  have hcast : (2 : ℤ) ^ (w - 1) = ((2 ^ (w - 1) : ℕ) : ℤ) := by push_cast; rfl
  have ha := hlt a
  have hb := hlt b
  have hsum : s.toNat = a.toNat + b.toNat + c ∨
      s.toNat + 2 * 2 ^ (w - 1) = a.toNat + b.toNat + c := by
    rw [hs, hpow]
    rcases Nat.lt_or_ge (a.toNat + b.toNat + c) (2 * 2 ^ (w - 1)) with hlt | hge
    · exact Or.inl (Nat.mod_eq_of_lt hlt)
    · rw [Nat.mod_eq_sub_mod hge, Nat.mod_eq_of_lt (by omega)]
      omega
  have hslt := hlt s
  rw [Bool.eq_iff_iff, hint a, hint b, hcast]
  simp only [BitVec.msb_eq_decide, Bool.or_eq_true, Bool.and_eq_true, Bool.not_eq_true',
    decide_eq_false_iff_not, decide_eq_true_eq]
  generalize 2 ^ (w - 1) = q at *
  split <;> split <;> omega

/-- Sign extension by filling the upper bits when the top bit of the field is set. -/
theorem fill_eq_signExtend {n : ℕ} (hpos : 0 < n) (hn : n ≤ w) (k : BitVec n) :
    (if k.setWidth w &&& BitVec.twoPow w (n - 1) != 0#w
      then k.setWidth w ||| BitVec.allOnes w <<< n else k.setWidth w) = k.signExtend w := by
  have hmsb : k.getLsbD (n - 1) = k.msb := (BitVec.msb_eq_getLsbD_last k).symm
  rw [and_twoPow_ne_zero (by omega), BitVec.getLsbD_setWidth, hmsb,
    decide_eq_true (show n - 1 < w by omega), Bool.true_and]
  apply BitVec.eq_of_getLsbD_eq
  intro i hi
  rw [BitVec.getLsbD_signExtend]
  by_cases hin : i < n
  · cases k.msb <;> simp [hi, hin]
  · have hge : k.getLsbD i = false := BitVec.getLsbD_of_ge k i (by omega)
    cases k.msb <;> simp [hi, hin, hge]

/-- Two sign extensions in a row. -/
theorem signExtend_signExtend {n v : ℕ} (hpos : 0 < n) (hn : n ≤ w) (k : BitVec n) :
    (k.signExtend w).signExtend v = k.signExtend v := by
  have hmsb : (k.signExtend w).msb = k.msb := by
    rw [BitVec.msb_eq_getLsbD_last, BitVec.getLsbD_signExtend, BitVec.msb_eq_getLsbD_last k]
    by_cases hlast : w - 1 < n
    · have heq : w - 1 = n - 1 := by omega
      simp [heq, show n - 1 < w by omega, show n - 1 < n by omega]
    · simp [hlast, show w - 1 < w by omega]
  apply BitVec.eq_of_getLsbD_eq
  intro i hi
  simp only [BitVec.getLsbD_signExtend, hmsb, hi, decide_true, Bool.true_and]
  by_cases hin : i < n
  · simp [hin, show i < w by omega]
  · by_cases hiw : i < w <;> simp [hin, hiw]

end Bits
