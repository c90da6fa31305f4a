import AvrEmu.Step
import Mathlib.Tactic.IntervalCases

/-!
# Fields of an instruction word

The decoder selects operand fields with masks and shifts. Here the fields have names
and are runs of consecutive bits, or two such runs put together.
-/

namespace AvrEmu

/-- The full register field `d dddd`. -/
def fieldD (w : Word) : BitVec 5 := w.extractLsb' 4 5

/-- The full register field `r .. rrrr`. -/
def fieldR (w : Word) : BitVec 5 := w.extractLsb' 9 1 ++ w.extractLsb' 0 4

/-- The upper register field `dddd`. -/
def fieldDUpper (w : Word) : BitVec 4 := w.extractLsb' 4 4

/-- The bit number `bbb` or `sss`. -/
def fieldBit (w : Word) : BitVec 3 := w.extractLsb' 0 3

/-- The immediate byte `KKKK .. KKKK`. -/
def fieldK (w : Word) : BitVec 8 := w.extractLsb' 8 4 ++ w.extractLsb' 0 4

/-- The low port `AAAAA`. -/
def fieldPort (w : Word) : BitVec 5 := w.extractLsb' 3 5

/-- The displacement `kkkkkkk` of a conditional branch. -/
def fieldBranch (w : Word) : BitVec 7 := w.extractLsb' 3 7

/-- The displacement `kkkk kkkk kkkk` of a relative jump. -/
def fieldJump (w : Word) : BitVec 12 := w.extractLsb' 0 12

/-- The displacement `q .. qq .. qqq` of an indirect access. -/
def fieldQ (w : Word) : BitVec 6 := w.extractLsb' 13 1 ++ w.extractLsb' 10 2 ++ w.extractLsb' 0 3

theorem getLsbD_bitField {max : ℕ} (hmax : max < 16) (min : ℕ) (hmin : min < 16) (v : Word)
    (i : ℕ) : (bitField v max min).getLsbD i = (v.getLsbD i && decide (min ≤ i ∧ i ≤ max)) := by
  have hlow (k : ℕ) (hk : k ≤ 16) (j : ℕ) (hj : j < 16) :
      (((1#32 <<< k) - 1#32).setWidth 16).getLsbD j = decide (j < k) := by
    interval_cases k <;> interval_cases j <;> rfl
  by_cases hi : i < 16
  · unfold bitField
    by_cases hzero : min > 0
    · simp only [hzero, if_true, BitVec.getLsbD_and, BitVec.getLsbD_not, hi,
        hlow _ (show max + 1 ≤ 16 by omega) i hi, hlow _ (show min ≤ 16 by omega) i hi]
      congr 1
      rw [Bool.eq_iff_iff]
      simp only [Bool.and_eq_true, Bool.not_eq_true', decide_eq_true_eq, decide_eq_false_iff_not,
        decide_true, true_and]
      omega
    · simp only [hzero, if_false, BitVec.getLsbD_and, hlow _ (show max + 1 ≤ 16 by omega) i hi]
      congr 1
      rw [Bool.eq_iff_iff]
      simp only [decide_eq_true_eq]
      omega
  · simp [BitVec.getLsbD_of_ge _ i (by omega : 16 ≤ i)]

/-- A field shifted to the bottom of the word. -/
theorem bitField_shift {max min : ℕ} (hmax : max < 16) (hmin : min < 16) (v : Word) :
    bitField v max min >>> min = (v.extractLsb' min (max + 1 - min)).setWidth 16 := by
  apply BitVec.eq_of_getLsbD_eq
  intro i hi
  simp only [BitVec.getLsbD_ushiftRight, getLsbD_bitField hmax min hmin, BitVec.getLsbD_setWidth,
    BitVec.getLsbD_extractLsb', hi, decide_true, Bool.true_and]
  rw [Bool.and_comm]
  congr 1
  rw [Bool.eq_iff_iff]
  simp only [decide_eq_true_eq]
  omega

/-- A field whose high part stands apart, moved down onto its low part. -/
theorem bitField_join {max min gap len : ℕ} (hmax : max < 16) (hmin : min < 16) (hlen : len ≤ min)
    (hgap : gap + len = min) (hpos : 0 < len) (v : Word) :
    bitField v max min >>> gap ||| bitField v (len - 1) 0 =
      (v.extractLsb' min (max + 1 - min) ++ v.extractLsb' 0 len).setWidth 16 := by
  apply BitVec.eq_of_getLsbD_eq
  intro i hi
  simp only [BitVec.getLsbD_or, BitVec.getLsbD_ushiftRight, getLsbD_bitField hmax min hmin,
    getLsbD_bitField (show len - 1 < 16 by omega) 0 (by decide), BitVec.getLsbD_setWidth,
    BitVec.getLsbD_append, BitVec.getLsbD_extractLsb', hi, decide_true, Bool.true_and]
  by_cases hlow : i < len
  · have h₁ : ¬ min ≤ gap + i := by omega
    have h₂ : i ≤ len - 1 := by omega
    simp [hlow, h₁, h₂]
  · have h₁ : min + (i - len) = gap + i := by omega
    have h₂ : ¬ i ≤ len - 1 := by omega
    have h₃ : min ≤ gap + i := by omega
    have h₄ : i - len < max + 1 - min ↔ gap + i ≤ max := by omega
    simp [hlow, h₁, h₂, h₃, h₄, Bool.and_comm]

/-! ## The operands of each operand flag -/

section Operands

variable {d : InstrDecode} (idc : InstrDecodeCommon)

theorem operands_ddddd84 (h : d.ddddd84 = true) (h₁ : d.dddd74 = false) (h₂ : d.ddd64 = false) :
    (d.operands idc).ddddd = (fieldD idc.instr).setWidth 8 := by
  simp only [InstrDecode.operands, h, h₁, h₂, fieldD, Bool.false_eq_true, if_true, if_false,
    bitField_shift (show 8 < 16 by decide) (show 4 < 16 by decide)]
  rw [BitVec.setWidth_setWidth_of_le _ (by decide)]

/-- The full register number is the field itself. -/
theorem operands_ddddd84_toNat (h : d.ddddd84 = true) (h₁ : d.dddd74 = false)
    (h₂ : d.ddd64 = false) : (d.operands idc).ddddd.toNat = (fieldD idc.instr).toNat := by
  rw [operands_ddddd84 idc h h₁ h₂, BitVec.toNat_setWidth_of_le (by decide)]

theorem operands_dddd74 (h : d.dddd74 = true) (h₁ : d.ddd64 = false) :
    (d.operands idc).ddddd = 16#8 + (fieldDUpper idc.instr).setWidth 8 := by
  simp only [InstrDecode.operands, h, h₁, fieldDUpper, Bool.false_eq_true, if_true, if_false,
    bitField_shift (show 7 < 16 by decide) (show 4 < 16 by decide)]
  rw [BitVec.setWidth_setWidth_of_le _ (by decide)]

theorem operands_rrrrr9_30 (h : d.rrrrr9_30 = true) (h₁ : d.rrrr30 = false)
    (h₂ : d.rrr20 = false) :
    (d.operands idc).rrrrr = (fieldR idc.instr).setWidth 8 := by
  simp only [InstrDecode.operands, h, h₁, h₂, fieldR, Bool.false_eq_true, if_true, if_false]
  rw [bitField_join (show 9 < 16 by decide) (show 9 < 16 by decide) (show 4 ≤ 9 by decide) rfl
      (by decide),
    BitVec.setWidth_setWidth_of_le _ (by decide)]

theorem operands_rrrrr9_30_toNat (h : d.rrrrr9_30 = true) (h₁ : d.rrrr30 = false)
    (h₂ : d.rrr20 = false) : (d.operands idc).rrrrr.toNat = (fieldR idc.instr).toNat := by
  rw [operands_rrrrr9_30 idc h h₁ h₂, BitVec.toNat_setWidth_of_le (by decide)]

theorem operands_rrr20 (h : d.rrr20 = true) :
    (d.operands idc).rrrrr = 16#8 + (fieldBit idc.instr).setWidth 8 := by
  have hshift := bitField_shift (show 2 < 16 by decide) (show 0 < 16 by decide) idc.instr
  rw [BitVec.ushiftRight_zero] at hshift
  simp only [InstrDecode.operands, h, fieldBit, if_true, hshift]
  rw [BitVec.setWidth_setWidth_of_le _ (by decide)]

theorem operands_kkkk118_30 (h : d.kkkk118_30 = true) :
    (d.operands idc).immU8 = fieldK idc.instr := by
  simp only [InstrDecode.operands, h, fieldK, if_true]
  rw [bitField_join (show 11 < 16 by decide) (show 8 < 16 by decide) (show 4 ≤ 8 by decide) rfl
      (by decide),
    BitVec.setWidth_setWidth_of_le _ (by decide), BitVec.setWidth_eq]

/-- An upper register number is offset by sixteen. -/
theorem upper_toNat {n : ℕ} (hn : n ≤ 4) (k : BitVec n) :
    (16#8 + k.setWidth 8).toNat = 16 + k.toNat := by
  have hk : k.toNat < 2 ^ 4 := Nat.lt_of_lt_of_le k.isLt (Nat.pow_le_pow_right (by decide) hn)
  rw [BitVec.toNat_add, BitVec.toNat_setWidth_of_le (by omega)]
  change (16 + k.toNat) % 256 = _
  omega

theorem operands_dddd74_toNat (h : d.dddd74 = true) (h₁ : d.ddd64 = false) :
    (d.operands idc).ddddd.toNat = 16 + (fieldDUpper idc.instr).toNat := by
  rw [operands_dddd74 idc h h₁, upper_toNat (by decide)]

theorem operands_ddd64_toNat (h : d.ddd64 = true) :
    (d.operands idc).ddddd.toNat = 16 + (idc.instr.extractLsb' 4 3).toNat := by
  simp only [InstrDecode.operands, h, if_true,
    bitField_shift (show 6 < 16 by decide) (show 4 < 16 by decide)]
  rw [BitVec.setWidth_setWidth_of_le _ (by decide), upper_toNat (by decide)]

theorem operands_rrr20_toNat (h : d.rrr20 = true) :
    (d.operands idc).rrrrr.toNat = 16 + (fieldBit idc.instr).toNat := by
  rw [operands_rrr20 idc h, upper_toNat (by decide)]

theorem operands_rrrr30_toNat (h : d.rrrr30 = true) (h₁ : d.rrr20 = false) :
    (d.operands idc).rrrrr.toNat = 16 + (idc.instr.extractLsb' 0 4).toNat := by
  have hshift := bitField_shift (show 3 < 16 by decide) (show 0 < 16 by decide) idc.instr
  rw [BitVec.ushiftRight_zero] at hshift
  simp only [InstrDecode.operands, h, h₁, if_true, Bool.false_eq_true, if_false, hshift]
  rw [BitVec.setWidth_setWidth_of_le _ (by decide), upper_toNat (by decide)]

/-- Every row names a register as the destination. -/
theorem operands_ddddd_lt (h : idc.ddddd = 0) : (d.operands idc).ddddd.toNat < 32 := by
  cases h₀ : d.ddd64 with
  | true =>
    have hfield := (idc.instr.extractLsb' 4 3).isLt
    rw [operands_ddd64_toNat idc h₀]
    omega
  | false =>
    cases h₁ : d.dddd74 with
    | true =>
      have hfield := (fieldDUpper idc.instr).isLt
      rw [operands_dddd74_toNat idc h₁ h₀]
      omega
    | false =>
      cases h₂ : d.ddddd84 with
      | true =>
        have hfield := (fieldD idc.instr).isLt
        rw [operands_ddddd84_toNat idc h₂ h₁ h₀]
        omega
      | false =>
        simp only [InstrDecode.operands, h₀, h₁, h₂, Bool.false_eq_true, if_false, h]
        decide

end Operands

end AvrEmu
