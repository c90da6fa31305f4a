import AvrEmu.Run

/-!
# Status bits

What an instruction makes of the status register, bit by bit. The flag helpers of the
code mark bits in two masks; here each helper gets the status its masks stand for, and the
bit formulas for carry, half carry and overflow their meaning for the operands read as
unsigned and as signed numbers.
-/

namespace AvrEmu

/-- The status bits an instruction defines, with their values. -/
@[ext] structure Status where
  c : Option Bool := none
  z : Option Bool := none
  n : Option Bool := none
  v : Option Bool := none
  s : Option Bool := none
  h : Option Bool := none

/-- A status by the number of the bit in SREG. -/
def Status.bit (st : Status) : ℕ → Option Bool
  | 0 => st.c
  | 1 => st.z
  | 2 => st.n
  | 3 => st.v
  | 4 => st.s
  | 5 => st.h
  | _ => none

/-- The masks mark exactly the bits of a status. -/
def Flags.Encodes (f : Flags) (st : Status) : Prop := ∀ i < 8,
  f.setflags.getLsbD i = (st.bit i == some true) ∧ f.clrflags.getLsbD i = (st.bit i == some false)

instance (f : Flags) (st : Status) : Decidable (f.Encodes st) :=
  inferInstanceAs (Decidable (∀ i < 8, _ ∧ _))

/-- No bit is marked both ways. -/
theorem Flags.Encodes.disjoint {f : Flags} {st : Status} (h : f.Encodes st) :
    f.clrflags &&& f.setflags = 0#8 := by
  apply BitVec.eq_of_getLsbD_eq
  intro i hi
  obtain ⟨hset, hclr⟩ := h i hi
  rw [BitVec.getLsbD_and, hset, hclr, BitVec.getLsbD_zero]
  rcases st.bit i with _ | _ | _ <;> rfl

/-- The merge gives each bit of the status its value and keeps the others. -/
theorem Flags.Encodes.merge {f : Flags} {st : Status} (h : f.Encodes st) (sreg : Byte) {i : ℕ}
    (hi : i < 8) : (sreg &&& ~~~f.clrflags ||| f.setflags).getLsbD i =
      (st.bit i).getD (sreg.getLsbD i) := by
  obtain ⟨hset, hclr⟩ := h i hi
  rw [BitVec.getLsbD_or, BitVec.getLsbD_and, BitVec.getLsbD_not, hset, hclr, decide_eq_true hi]
  rcases st.bit i with _ | _ | _ <;> cases sreg.getLsbD i <;> rfl

/-! ## The status of a result -/

/-- The status of an arithmetic result of `w` bits, from the exact results of the operands
read as unsigned and as signed numbers. -/
def Status.arithmetic (w : ℕ) (unsigned signed : ℤ) : Status where
  c := some (decide (¬ (0 ≤ unsigned ∧ unsigned < 2 ^ w)))
  z := some (decide (unsigned % 2 ^ w = 0))
  n := some (decide (2 ^ (w - 1) ≤ unsigned % 2 ^ w))
  v := some (decide (¬ (-2 ^ (w - 1) ≤ signed ∧ signed < 2 ^ (w - 1))))
  s := some (decide (signed < 0))

/-- The carry or borrow out of bit 3, from the exact result of the low halves. -/
def halfCarry (low : ℤ) : Option Bool := some (decide (¬ (0 ≤ low ∧ low < 16)))

/-- The status of a bitwise result. -/
def Status.logic (res : Byte) : Status where
  z := some (decide (res.toNat = 0))
  n := some (decide (128 ≤ res.toNat))
  v := some false
  s := some (decide (128 ≤ res.toNat))

/-- The status of a shift to the right that drops the bit `out`. -/
def Status.shift (res : Byte) (out : Bool) : Status where
  c := some out
  z := some (decide (res.toNat = 0))
  n := some (decide (128 ≤ res.toNat))
  v := some (decide (128 ≤ res.toNat) != out)
  s := some (decide (128 ≤ res.toNat) != (decide (128 ≤ res.toNat) != out))

/-- The status of a product, of which `stored` is what the registers get. -/
def Status.product (product stored : ℤ) : Status where
  c := some (decide (2 ^ 15 ≤ product % 2 ^ 16))
  z := some (decide (stored % 2 ^ 16 = 0))

/-! ## The flag helpers -/

theorem asrFlags8_encodes (res rd : Byte) : (asrFlags8 res rd {}).Encodes
    { c := some (nonzero (rd &&& 0x1))
      z := some (res == 0)
      n := some (nonzero (res &&& 0x80))
      v := some (nonzero (res &&& 0x80) != nonzero (rd &&& 0x1))
      s := some (nonzero (res &&& 0x80) != (nonzero (res &&& 0x80) != nonzero (rd &&& 0x1))) } := by
  simp only [asrFlags8]
  generalize nonzero (res &&& 0x80) = n
  generalize nonzero (rd &&& 0x1) = c
  generalize (res == 0) = z
  cases n <;> cases c <;> cases z <;> decide

theorem logicFlags8_encodes (res : Byte) : (logicFlags8 res {}).Encodes
    { z := some (res == 0)
      n := some (nonzero (res &&& 0x80))
      v := some false
      s := some (nonzero (res &&& 0x80)) } := by
  simp only [logicFlags8]
  generalize nonzero (res &&& 0x80) = n
  generalize (res == 0) = z
  cases n <;> cases z <;> decide

theorem mulFlags16_encodes (res : Word) : (mulFlags16 res {}).Encodes
    { c := some (res &&& 0x8000 != 0), z := some (res == 0) } := by
  simp only [mulFlags16]
  generalize (res &&& 0x8000 != 0) = c
  generalize (res == 0) = z
  cases c <;> cases z <;> decide

theorem fmulFlags16_encodes (res : Word) : (fmulFlags16 res {}).Encodes
    { c := some (res &&& 0x8000 != 0), z := some (res <<< 1 == 0) } := by
  simp only [fmulFlags16]
  generalize (res &&& 0x8000 != 0) = c
  generalize (res <<< 1 == 0) = z
  cases c <;> cases z <;> decide

/-! ## Carry and overflow -/

/-- A test of one bit that two bytes have in common. -/
theorem nonzero_and {i : ℕ} (hi : i < 8) (a b : Byte) :
    nonzero (BitVec.twoPow 8 i &&& a &&& b) = (a.getLsbD i && b.getLsbD i) :=
  Bits.twoPow_and_and_ne_zero hi a b

/-- A test of the top bit of three bytes. -/
theorem nonzero_msb (a b c : Byte) :
    nonzero (0x80 &&& a &&& b &&& c) = (a.msb && b.msb && c.msb) := by
  have hbit (x : Byte) : x.getLsbD 7 = x.msb := (BitVec.msb_eq_getLsbD_last x).symm
  rw [BitVec.and_assoc (0x80 &&& a), ← hbit a, ← hbit b, ← hbit c, Bool.and_assoc,
    ← BitVec.getLsbD_and]
  exact nonzero_and (show 7 < 8 by decide) a (b &&& c)

/-- The carry out of bit `i`, as the flag helpers compute it. -/
theorem carry_out {i : ℕ} (hi : i < 8) {a b s : Byte} (c : Bool)
    (hs : s.toNat = (a.toNat + b.toNat + c.toNat) % 256) :
    (nonzero (BitVec.twoPow 8 i &&& a &&& b) || nonzero (BitVec.twoPow 8 i &&& b &&& ~~~s) ||
      nonzero (BitVec.twoPow 8 i &&& ~~~s &&& a)) =
      decide (2 ^ (i + 1) ≤ a.toNat % 2 ^ (i + 1) + b.toNat % 2 ^ (i + 1) + c.toNat) := by
  rw [nonzero_and hi, nonzero_and hi, nonzero_and hi, BitVec.getLsbD_not, decide_eq_true hi,
    Bool.true_and, ← Bits.carry_eq hi (Bool.toNat_le c) hs]

/-- The top bit of a byte. -/
theorem nonzero_and_high (a : Byte) : nonzero (a &&& 0x80) = decide (128 ≤ a.toNat) := by
  have hbit : nonzero (a &&& 0x80) = a.getLsbD 7 := Bits.and_twoPow_ne_zero (show 7 < 8 by decide) a
  have ha := a.isLt
  rw [hbit, Bits.getLsbD_eq_decide, decide_eq_decide]
  omega

/-- The signed reading of a byte. -/
theorem toInt_byte (a : Byte) : a.toInt % 256 = a.toNat ∧ -128 ≤ a.toInt ∧ a.toInt < 128 := by
  have ha := a.isLt
  rw [BitVec.toInt_eq_toNat_cond]
  split <;> omega

/-- A byte is zero as a number. -/
theorem byte_beq_zero (a : Byte) : (a == 0) = decide (a.toNat = 0) := by
  rw [beq_eq_decide, decide_eq_decide, ← BitVec.toNat_inj]
  rfl

/-- The sum of two bytes and a carry. -/
def addByte (rd rr : Byte) (carry : Bool) : Byte := if carry then rd + rr + 1 else rd + rr

/-- The difference of two bytes with a borrow. -/
def subByte (rd rr : Byte) (carry : Bool) : Byte := if carry then rd - rr - 1 else rd - rr

theorem addByte_toNat (rd rr : Byte) (carry : Bool) :
    (addByte rd rr carry).toNat = (rd.toNat + rr.toNat + carry.toNat) % 256 := by
  cases carry with
  | false => simp [addByte]
  | true => simp [addByte, BitVec.toNat_add]

theorem subByte_toNat (rd rr : Byte) (carry : Bool) :
    (subByte rd rr carry).toNat = (rd.toNat + 512 - rr.toNat - carry.toNat) % 256 := by
  have hrd := rd.isLt
  have hrr := rr.isLt
  cases carry with
  | false =>
    rw [subByte, if_neg (by decide), BitVec.toNat_sub, Bool.toNat_false]
    omega
  | true =>
    rw [subByte, if_pos rfl, BitVec.toNat_sub, BitVec.toNat_sub, Bool.toNat_true]
    change (2 ^ 8 - 1 + _) % 2 ^ 8 = _
    omega

/-- The status of a sum of two bytes and a carry. -/
def Status.sum (rd rr : Byte) (carry : Bool) : Status :=
  { Status.arithmetic 8 (rd.toNat + rr.toNat + carry.toNat) (rd.toInt + rr.toInt + carry.toNat) with
    h := halfCarry (rd.toNat % 16 + rr.toNat % 16 + carry.toNat) }

/-- The status of a difference of two bytes with a borrow. -/
def Status.difference (rd rr : Byte) (carry : Bool) : Status :=
  { Status.arithmetic 8 (rd.toNat - rr.toNat - carry.toNat) (rd.toInt - rr.toInt - carry.toNat) with
    h := halfCarry ((rd.toNat % 16 : ℕ) - (rr.toNat % 16 : ℕ) - carry.toNat) }

section Sum

variable (rd rr : Byte) (carry : Bool)

theorem sum_carry :
    (nonzero (0x80 &&& rd &&& rr) || nonzero (0x80 &&& rr &&& ~~~addByte rd rr carry) ||
    nonzero (0x80 &&& ~~~addByte rd rr carry &&& rd)) =
      decide (¬ (0 ≤ (rd.toNat : ℤ) + rr.toNat + carry.toNat ∧
        (rd.toNat : ℤ) + rr.toNat + carry.toNat < 2 ^ 8)) := by
  have hrd := rd.isLt
  have hrr := rr.isLt
  refine (carry_out (show 7 < 8 by decide) carry (addByte_toNat rd rr carry)).trans ?_
  rw [decide_eq_decide]
  omega

theorem sum_half :
    (nonzero (0x08 &&& rd &&& rr) || nonzero (0x08 &&& rr &&& ~~~addByte rd rr carry) ||
    nonzero (0x08 &&& ~~~addByte rd rr carry &&& rd)) =
      decide (¬ (0 ≤ ((rd.toNat % 16 : ℕ) : ℤ) + (rr.toNat % 16 : ℕ) + carry.toNat ∧
        ((rd.toNat % 16 : ℕ) : ℤ) + (rr.toNat % 16 : ℕ) + carry.toNat < 16)) := by
  refine (carry_out (show 3 < 8 by decide) carry (addByte_toNat rd rr carry)).trans ?_
  rw [decide_eq_decide]
  omega

theorem sum_overflow : (nonzero (0x80 &&& rd &&& rr &&& ~~~addByte rd rr carry) ||
    nonzero (0x80 &&& ~~~rd &&& ~~~rr &&& addByte rd rr carry)) =
      decide (¬ (-2 ^ 7 ≤ rd.toInt + rr.toInt + carry.toNat ∧
        rd.toInt + rr.toInt + carry.toNat < 2 ^ 7)) := by
  simp only [nonzero_msb, Bits.msb_not (show 0 < 8 by decide)]
  exact Bits.overflow_eq (show 0 < 8 by decide) (Bool.toNat_le carry) (addByte_toNat rd rr carry)

end Sum

/-- Sign and overflow together give the sign of the exact result. -/
theorem sign_eq {w : ℕ} (hw : 0 < w) {u t : ℤ} (hmod : u % 2 ^ w = t % 2 ^ w) (hlow : -2 ^ w ≤ t)
    (hhigh : t < 2 ^ w) : decide (t < 0) = (decide (2 ^ (w - 1) ≤ u % 2 ^ w) !=
      decide (¬ (-2 ^ (w - 1) ≤ t ∧ t < 2 ^ (w - 1)))) := by
  have hpow : (2 : ℤ) ^ w = 2 * 2 ^ (w - 1) := by
    rw [← pow_succ']
    congr 1
    omega
  have hpos : (0 : ℤ) < 2 ^ (w - 1) := by positivity
  rw [hpow] at hlow hhigh
  rw [hmod, hpow]
  generalize (2 : ℤ) ^ (w - 1) = q at hpos hlow hhigh ⊢
  by_cases hneg : t < 0
  · have hval : t % (2 * q) = t + 2 * q := by
      rw [← Int.add_emod_right, Int.emod_eq_of_lt (by omega) (by omega)]
    have htop : q ≤ t + 2 * q ↔ -q ≤ t ∧ t < q := by omega
    rw [hval, decide_eq_true hneg, decide_eq_decide.mpr htop, decide_not]
    cases decide (-q ≤ t ∧ t < q) <;> rfl
  · have hval : t % (2 * q) = t := Int.emod_eq_of_lt (by omega) (by omega)
    have htop : q ≤ t ↔ ¬ (-q ≤ t ∧ t < q) := by omega
    rw [hval, decide_eq_false hneg, decide_eq_decide.mpr htop, bne_self_eq_false]

/-- The marks of an eight-bit addition or subtraction. -/
private theorem marks_encode (n v z c h : Bool) :
    let f := Flags.mark {} n sregN
    let f := f.mark v sregV
    let f := f.mark (f.differ sregN sregV) sregS
    let f := f.mark z sregZ
    let f := f.mark c sregC
    (f.mark h sregH).Encodes { c := c, z := z, n := n, v := v, s := some (n != v), h := h } := by
  revert n v z c h
  decide

/-- A byte with a given remainder, as its top bit and its zero test see it. -/
theorem decide_high_eq {res : Byte} {u : ℤ} (hres : (res.toNat : ℤ) = u % 2 ^ 8) :
    decide (128 ≤ res.toNat) = decide ((2 : ℤ) ^ (8 - 1) ≤ u % 2 ^ 8) := by
  rw [← hres, decide_eq_decide]
  omega

theorem decide_zero_eq {res : Byte} {u : ℤ} (hres : (res.toNat : ℤ) = u % 2 ^ 8) :
    decide (res.toNat = 0) = decide (u % 2 ^ 8 = 0) := by
  rw [← hres, decide_eq_decide]
  omega

theorem adcFlags8_encodes (rd rr : Byte) (carry : Bool) :
    (adcFlags8 (addByte rd rr carry) rd rr {}).Encodes (Status.sum rd rr carry) := by
  have hres := addByte_toNat rd rr carry
  have hcarry : carry.toNat ≤ 1 := Bool.toNat_le carry
  have hmod : ((addByte rd rr carry).toNat : ℤ) = (rd.toNat + rr.toNat + carry.toNat) % 2 ^ 8 := by
    omega
  obtain ⟨hrd, hrdlow, hrdhigh⟩ := toInt_byte rd
  obtain ⟨hrr, hrrlow, hrrhigh⟩ := toInt_byte rr
  have hsign := sign_eq (show 0 < 8 by decide) (u := rd.toNat + rr.toNat + carry.toNat)
    (t := rd.toInt + rr.toInt + carry.toNat) (by omega) (by omega) (by omega)
  simp only [adcFlags8, sum_carry, sum_half, sum_overflow, nonzero_and_high, byte_beq_zero,
    decide_high_eq hmod, decide_zero_eq hmod, Status.sum, Status.arithmetic, halfCarry, hsign]
  exact marks_encode _ _ _ _ _

section Difference

variable (rd rr : Byte) (carry : Bool)

/-- A difference and what has been taken away make up the minuend. -/
theorem subByte_add : rd.toNat = ((subByte rd rr carry).toNat + rr.toNat + carry.toNat) % 256 := by
  have hres := subByte_toNat rd rr carry
  have hrd := rd.isLt
  have hrr := rr.isLt
  have hcarry : carry.toNat ≤ 1 := Bool.toNat_le carry
  omega

/-- The borrow out of bit `i` of a difference is the carry out of the sum that makes it up again. -/
theorem borrow_out {i : ℕ} (hi : i < 8) :
    (nonzero (BitVec.twoPow 8 i &&& ~~~rd &&& rr) ||
      nonzero (BitVec.twoPow 8 i &&& rr &&& subByte rd rr carry) ||
      nonzero (BitVec.twoPow 8 i &&& subByte rd rr carry &&& ~~~rd)) =
      decide (2 ^ (i + 1) ≤ (subByte rd rr carry).toNat % 2 ^ (i + 1) + rr.toNat % 2 ^ (i + 1) +
        carry.toNat) := by
  rw [← carry_out hi carry (subByte_add rd rr carry)]
  simp only [nonzero_and hi]
  cases (~~~rd).getLsbD i <;> cases rr.getLsbD i <;> cases (subByte rd rr carry).getLsbD i <;> rfl

theorem difference_carry : (nonzero (0x80 &&& ~~~rd &&& rr) ||
    nonzero (0x80 &&& rr &&& subByte rd rr carry) ||
    nonzero (0x80 &&& subByte rd rr carry &&& ~~~rd)) =
      decide (¬ (0 ≤ (rd.toNat : ℤ) - rr.toNat - carry.toNat ∧
        (rd.toNat : ℤ) - rr.toNat - carry.toNat < 2 ^ 8)) := by
  have hres := subByte_toNat rd rr carry
  have hrd := rd.isLt
  have hrr := rr.isLt
  have hcarry : carry.toNat ≤ 1 := Bool.toNat_le carry
  refine (borrow_out rd rr carry (show 7 < 8 by decide)).trans ?_
  rw [decide_eq_decide]
  omega

theorem difference_half : (nonzero (0x08 &&& ~~~rd &&& rr) ||
    nonzero (0x08 &&& rr &&& subByte rd rr carry) ||
    nonzero (0x08 &&& subByte rd rr carry &&& ~~~rd)) =
      decide (¬ (0 ≤ ((rd.toNat % 16 : ℕ) : ℤ) - (rr.toNat % 16 : ℕ) - carry.toNat ∧
        ((rd.toNat % 16 : ℕ) : ℤ) - (rr.toNat % 16 : ℕ) - carry.toNat < 16)) := by
  have hres := subByte_toNat rd rr carry
  have hrr := rr.isLt
  have hcarry : carry.toNat ≤ 1 := Bool.toNat_le carry
  refine (borrow_out rd rr carry (show 3 < 8 by decide)).trans ?_
  rw [decide_eq_decide]
  omega

theorem difference_overflow : (nonzero (0x80 &&& rd &&& ~~~rr &&& ~~~subByte rd rr carry) ||
    nonzero (0x80 &&& ~~~rd &&& rr &&& subByte rd rr carry)) =
      decide (¬ (-2 ^ 7 ≤ rd.toInt - rr.toInt - carry.toNat ∧
        rd.toInt - rr.toInt - carry.toNat < 2 ^ 7)) := by
  have hover := Bits.overflow_eq (show 0 < 8 by decide) (Bool.toNat_le carry)
    (subByte_add rd rr carry)
  have hsum := subByte_add rd rr carry
  obtain ⟨hrd, hrdlow, hrdhigh⟩ := toInt_byte rd
  obtain ⟨hrr, hrrlow, hrrhigh⟩ := toInt_byte rr
  obtain ⟨hres, hreslow, hreshigh⟩ := toInt_byte (subByte rd rr carry)
  have hexact : decide (¬ (-2 ^ 7 ≤ rd.toInt - rr.toInt - carry.toNat ∧
      rd.toInt - rr.toInt - carry.toNat < 2 ^ 7)) =
      decide (¬ (-2 ^ (8 - 1) ≤ (subByte rd rr carry).toInt + rr.toInt + carry.toNat ∧
        (subByte rd rr carry).toInt + rr.toInt + carry.toNat < 2 ^ (8 - 1))) := by
    rw [decide_eq_decide]
    omega
  rw [hexact, ← hover]
  simp only [nonzero_msb, Bits.msb_not (show 0 < 8 by decide)]
  cases rd.msb <;> cases rr.msb <;> cases (subByte rd rr carry).msb <;> rfl

end Difference

theorem subFlags8_encodes (rd rr : Byte) (carry : Bool) :
    (subFlags8 (subByte rd rr carry) rd rr {}).Encodes (Status.difference rd rr carry) := by
  have hres := subByte_toNat rd rr carry
  have hcarry : carry.toNat ≤ 1 := Bool.toNat_le carry
  have hmod : ((subByte rd rr carry).toNat : ℤ) = (rd.toNat - rr.toNat - carry.toNat) % 2 ^ 8 := by
    omega
  obtain ⟨hrd, hrdlow, hrdhigh⟩ := toInt_byte rd
  obtain ⟨hrr, hrrlow, hrrhigh⟩ := toInt_byte rr
  have hsign := sign_eq (show 0 < 8 by decide) (u := rd.toNat - rr.toNat - carry.toNat)
    (t := rd.toInt - rr.toInt - carry.toNat) (by omega) (by omega) (by omega)
  simp only [subFlags8, difference_carry, difference_half, difference_overflow, nonzero_and_high,
    byte_beq_zero, decide_high_eq hmod, decide_zero_eq hmod, Status.difference, Status.arithmetic,
    halfCarry, hsign]
  exact marks_encode _ _ _ _ _

/-! ## Words -/

theorem word_and_and (a b : Word) : (0x8000 &&& a &&& b != 0) = (a.msb && b.msb) := by
  rw [BitVec.msb_eq_getLsbD_last, BitVec.msb_eq_getLsbD_last]
  exact Bits.twoPow_and_and_ne_zero (show 15 < 16 by decide) a b

/-- The top bit of a word. -/
theorem word_and_high (a : Word) : (a &&& 0x8000 != 0) = decide (32768 ≤ a.toNat) := by
  have hbit : (a &&& 0x8000 != 0) = a.getLsbD 15 :=
    Bits.and_twoPow_ne_zero (show 15 < 16 by decide) a
  have ha := a.isLt
  rw [hbit, Bits.getLsbD_eq_decide, decide_eq_decide]
  omega

theorem word_beq_zero (a : Word) : (a == 0) = decide (a.toNat = 0) := by
  rw [beq_eq_decide, decide_eq_decide, ← BitVec.toNat_inj]
  rfl

/-- The signed reading of a word. -/
theorem toInt_word (a : Word) : a.toInt % 65536 = a.toNat ∧ -32768 ≤ a.toInt ∧ a.toInt < 32768 := by
  have ha := a.isLt
  rw [BitVec.toInt_eq_toNat_cond]
  split <;> omega

/-- A word with a given remainder, as its top bit and its zero test see it. -/
theorem decide_word_high_eq {res : Word} {u : ℤ} (hres : (res.toNat : ℤ) = u % 2 ^ 16) :
    decide (32768 ≤ res.toNat) = decide ((2 : ℤ) ^ (16 - 1) ≤ u % 2 ^ 16) := by
  rw [← hres, decide_eq_decide]
  omega

theorem decide_word_zero_eq {res : Word} {u : ℤ} (hres : (res.toNat : ℤ) = u % 2 ^ 16) :
    decide (res.toNat = 0) = decide (u % 2 ^ 16 = 0) := by
  rw [← hres, decide_eq_decide]
  omega

private theorem word_marks_encode (n v z c : Bool) :
    let f := Flags.mark {} n sregN
    let f := f.mark v sregV
    let f := f.mark (f.differ sregN sregV) sregS
    let f := f.mark z sregZ
    (f.mark c sregC).Encodes { c := c, z := z, n := n, v := v, s := some (n != v) } := by
  revert n v z c
  decide

/-- Overflow and carry of the sum of a word and a number of six bits. -/
theorem word_sum_flags {a k s : Word} (hk : k.toNat < 64)
    (hs : s.toNat = (a.toNat + k.toNat) % 65536) :
    (0x8000 &&& ~~~a &&& s != 0) =
      decide (¬ (-2 ^ 15 ≤ a.toInt + k.toNat ∧ a.toInt + k.toNat < 2 ^ 15)) ∧
    (0x8000 &&& ~~~s &&& a != 0) = decide (65536 ≤ a.toNat + k.toNat) := by
  have ha := a.isLt
  have hmsb : k.msb = false := by
    rw [BitVec.msb_eq_decide, decide_eq_false_iff_not]
    omega
  have hint : k.toInt = k.toNat := BitVec.toInt_eq_toNat_of_lt (by omega)
  have hover := Bits.overflow_eq (show 0 < 16 by decide) (Nat.zero_le 1) hs
  have hcarry := Bits.carry_eq (show 15 < 16 by decide) (Nat.zero_le 1) hs
  rw [hmsb, hint] at hover
  have hbit (x : Word) : x.getLsbD 15 = x.msb := (BitVec.msb_eq_getLsbD_last x).symm
  rw [hbit, hbit, hbit, hmsb] at hcarry
  simp only [word_and_and, Bits.msb_not (show 0 < 16 by decide)]
  constructor
  · simpa using hover
  · rw [Bool.and_false, Bool.false_and, Bool.false_or, Bool.false_or] at hcarry
    rw [hcarry, decide_eq_decide]
    omega

/-- ADIW adds a number of six bits. -/
theorem adiwFlags16_encodes (rd : Word) {k : Word} (hk : k.toNat < 64) :
    (adiwFlags16 (rd + k) rd {}).Encodes
      (Status.arithmetic 16 (rd.toNat + k.toNat) (rd.toInt + k.toNat)) := by
  have hrd := rd.isLt
  have hres : (rd + k).toNat = (rd.toNat + k.toNat) % 65536 := BitVec.toNat_add rd k
  have hmod : ((rd + k).toNat : ℤ) = (rd.toNat + k.toNat) % 2 ^ 16 := by omega
  obtain ⟨hmodrd, hlow, hhigh⟩ := toInt_word rd
  have hsign := sign_eq (show 0 < 16 by decide) (u := rd.toNat + k.toNat) (t := rd.toInt + k.toNat)
    (by omega) (by omega) (by omega)
  obtain ⟨hv, hcarry⟩ := word_sum_flags hk hres
  have hc : (0x8000 &&& ~~~(rd + k) &&& rd != 0) =
      decide (¬ (0 ≤ (rd.toNat : ℤ) + k.toNat ∧ (rd.toNat : ℤ) + k.toNat < 2 ^ 16)) := by
    rw [hcarry, decide_eq_decide]
    omega
  simp only [adiwFlags16, hv, hc, word_and_high, word_beq_zero, decide_word_high_eq hmod,
    decide_word_zero_eq hmod, Status.arithmetic, hsign]
  exact word_marks_encode _ _ _ _

private theorem sbiw_marks_encode (n v z c : Bool) :
    let f := Flags.mark {} z sregZ
    let f := f.mark c sregC
    let f := f.mark n sregN
    let f := f.mark v sregV
    (f.mark (f.differ sregN sregV) sregS).Encodes
      { c := c, z := z, n := n, v := v, s := some (n != v) } := by
  revert n v z c
  decide

/-- The marks of SBIW, which takes away a number of six bits. -/
theorem sbiw_encodes (rd : Word) {k : Word} (hk : k.toNat < 64) :
    let f := Flags.mark {} (rd - k == 0) sregZ
    let f := f.mark (0x8000 &&& (rd - k) &&& ~~~rd != 0) sregC
    let f := f.mark (0x8000 &&& (rd - k) != 0) sregN
    let f := f.mark (0x8000 &&& rd &&& ~~~(rd - k) != 0) sregV
    (f.mark (f.differ sregN sregV) sregS).Encodes
      (Status.arithmetic 16 (rd.toNat - k.toNat) (rd.toInt - k.toNat)) := by
  have hrd := rd.isLt
  have hres : (rd - k).toNat = (rd.toNat + 65536 - k.toNat) % 65536 := by
    rw [BitVec.toNat_sub]
    omega
  have hmod : ((rd - k).toNat : ℤ) = (rd.toNat - k.toNat) % 2 ^ 16 := by omega
  obtain ⟨hmodrd, hlow, hhigh⟩ := toInt_word rd
  obtain ⟨hmodres, hreslow, hreshigh⟩ := toInt_word (rd - k)
  have hsign := sign_eq (show 0 < 16 by decide) (u := rd.toNat - k.toNat) (t := rd.toInt - k.toNat)
    (by omega) (by omega) (by omega)
  -- The difference and what is taken away make up the minuend.
  obtain ⟨hover, hcarry⟩ :=
    word_sum_flags (a := rd - k) (s := rd) hk (by rw [hres]; omega)
  have hv : (0x8000 &&& rd &&& ~~~(rd - k) != 0) =
      decide (¬ (-2 ^ (16 - 1) ≤ rd.toInt - k.toNat ∧ rd.toInt - k.toNat < 2 ^ (16 - 1))) := by
    rw [BitVec.and_assoc, BitVec.and_comm rd, ← BitVec.and_assoc, hover, decide_eq_decide]
    omega
  have hc : (0x8000 &&& (rd - k) &&& ~~~rd != 0) =
      decide (¬ (0 ≤ (rd.toNat : ℤ) - k.toNat ∧ (rd.toNat : ℤ) - k.toNat < 2 ^ 16)) := by
    rw [BitVec.and_assoc, BitVec.and_comm (rd - k), ← BitVec.and_assoc, hcarry, decide_eq_decide]
    omega
  rw [hv, hc, BitVec.and_comm 0x8000 (rd - k), word_and_high, word_beq_zero,
    decide_word_high_eq hmod, decide_word_zero_eq hmod]
  simp only [Status.arithmetic, hsign]
  exact sbiw_marks_encode _ _ _ _

/-! ## Marks of single instructions -/

/-- The marks of COM. -/
theorem com_encodes (res : Byte) :
    let f : Flags := { setflags := 0 ||| sregC, clrflags := 0 ||| sregV }
    let f := f.mark (res == 0) sregZ
    (f.mark (nonzero (res &&& 0x80)) (sregN ||| sregS)).Encodes
      { Status.logic res with c := some true } := by
  simp only [Status.logic, nonzero_and_high, byte_beq_zero]
  generalize decide (128 ≤ res.toNat) = n
  generalize decide (res.toNat = 0) = z
  revert n z
  decide

private theorem inc_marks_encode (n z v : Bool) (hsign : v = true → n = true) :
    let f := (({ clrflags := sregV : Flags }).mark n (sregN ||| sregS)).mark z sregZ
    Flags.Encodes (if v then
        { clrflags := f.clrflags &&& ~~~sregV ||| sregS
          setflags := f.setflags &&& ~~~sregS ||| sregV : Flags }
      else f) { z := z, n := n, v := v, s := some (n != v) } := by
  revert n z v
  decide

/-- The marks of INC: one more, without carry. -/
theorem inc_encodes (rd : Byte) :
    let f := logicFlags8 (rd + 1) {}
    Flags.Encodes (if rd + 1 == 0x80 then
        { clrflags := f.clrflags &&& ~~~sregV ||| sregS
          setflags := f.setflags &&& ~~~sregS ||| sregV : Flags }
      else f) { Status.arithmetic 8 (rd.toNat + 1) (rd.toInt + 1) with c := none } := by
  have hlt := rd.isLt
  have hres : (rd + 1).toNat = (rd.toNat + 1) % 256 := BitVec.toNat_add rd 1
  have hmod : ((rd + 1).toNat : ℤ) = (rd.toNat + 1) % 2 ^ 8 := by omega
  obtain ⟨hmodrd, hlow, hhigh⟩ := toInt_byte rd
  have hsign := sign_eq (show 0 < 8 by decide) (u := rd.toNat + 1) (t := rd.toInt + 1)
    (by omega) (by omega) (by omega)
  have hover : decide (¬ (-2 ^ (8 - 1) ≤ rd.toInt + 1 ∧ rd.toInt + 1 < 2 ^ (8 - 1))) =
      (rd + 1 == 0x80) := by
    rw [beq_eq_decide, decide_eq_decide, ← BitVec.toNat_inj, hres]
    change _ ↔ (rd.toNat + 1) % 256 = 128
    omega
  have htop : (rd + 1 == 0x80) = true →
      decide (2 ^ (8 - 1) ≤ ((rd.toNat : ℤ) + 1) % 2 ^ 8) = true := by
    rw [← hover, decide_eq_true_iff, decide_eq_true_iff]
    omega
  simp only [logicFlags8, nonzero_and_high, byte_beq_zero, decide_high_eq hmod,
    decide_zero_eq hmod, Status.arithmetic, hsign, hover]
  exact inc_marks_encode _ _ _ htop

private theorem dec_marks_encode (n z v : Bool) (hsign : v = true → n = false) :
    let f := (({ clrflags := sregV : Flags }).mark n (sregN ||| sregS)).mark z sregZ
    Flags.Encodes (if v then
        { clrflags := f.clrflags &&& ~~~(sregV ||| sregS)
          setflags := f.setflags ||| (sregV ||| sregS) : Flags }
      else f) { z := z, n := n, v := v, s := some (n != v) } := by
  revert n z v
  decide

/-- The marks of DEC: one less, without carry. -/
theorem dec_encodes (rd : Byte) :
    let f := logicFlags8 (rd - 1) {}
    Flags.Encodes (if rd - 1 == 0x7f then
        { clrflags := f.clrflags &&& ~~~(sregV ||| sregS)
          setflags := f.setflags ||| (sregV ||| sregS) : Flags }
      else f) { Status.arithmetic 8 (rd.toNat - 1) (rd.toInt - 1) with c := none } := by
  have hlt := rd.isLt
  have hres : (rd - 1).toNat = (rd.toNat + 255) % 256 := by
    rw [BitVec.toNat_sub, Nat.add_comm]
    rfl
  have hmod : ((rd - 1).toNat : ℤ) = (rd.toNat - 1) % 2 ^ 8 := by omega
  obtain ⟨hmodrd, hlow, hhigh⟩ := toInt_byte rd
  have hsign := sign_eq (show 0 < 8 by decide) (u := rd.toNat - 1) (t := rd.toInt - 1)
    (by omega) (by omega) (by omega)
  have hover : decide (¬ (-2 ^ (8 - 1) ≤ rd.toInt - 1 ∧ rd.toInt - 1 < 2 ^ (8 - 1))) =
      (rd - 1 == 0x7f) := by
    rw [beq_eq_decide, decide_eq_decide, ← BitVec.toNat_inj, hres]
    change _ ↔ (rd.toNat + 255) % 256 = 127
    omega
  have htop : (rd - 1 == 0x7f) = true →
      decide (2 ^ (8 - 1) ≤ ((rd.toNat : ℤ) - 1) % 2 ^ 8) = false := by
    rw [← hover, decide_eq_true_iff, decide_eq_false_iff_not]
    omega
  simp only [logicFlags8, nonzero_and_high, byte_beq_zero, decide_high_eq hmod,
    decide_zero_eq hmod, Status.arithmetic, hsign, hover]
  exact dec_marks_encode _ _ _ htop

private theorem neg_marks_encode (n z v h : Bool) :
    let f := if z then
        { setflags := 0 ||| sregZ, clrflags := 0 ||| sregC : Flags }
      else { setflags := 0 ||| sregC, clrflags := 0 ||| sregZ }
    let f := f.mark n sregN
    let f := f.mark v sregV
    let f := f.mark h sregH
    (f.mark (f.differ sregN sregV) sregS).Encodes
      { c := some !z, z := z, n := n, v := v, s := some (n != v), h := h } := by
  revert n z v h
  decide

/-- The marks of NEG: the difference from zero. -/
theorem neg_encodes (rd : Byte) :
    let res := 0 - rd
    let f := if res == 0 then
        { setflags := 0 ||| sregZ, clrflags := 0 ||| sregC : Flags }
      else { setflags := 0 ||| sregC, clrflags := 0 ||| sregZ }
    let f := f.mark (nonzero (res &&& 0x80)) sregN
    let f := f.mark (res == 0x80) sregV
    let f := f.mark (nonzero (res &&& 0x08) || nonzero (rd &&& 0x08)) sregH
    (f.mark (f.differ sregN sregV) sregS).Encodes (Status.difference 0 rd false) := by
  have hlt := rd.isLt
  have hres : (0 - rd).toNat = (256 - rd.toNat) % 256 := BitVec.toNat_sub 0 rd
  have hmod : ((0 - rd).toNat : ℤ) = (((0 : Byte).toNat : ℤ) - rd.toNat - false.toNat) % 2 ^ 8 := by
    change _ = ((0 : ℤ) - rd.toNat - 0) % 2 ^ 8
    omega
  obtain ⟨hmodrd, hlow, hhigh⟩ := toInt_byte rd
  have hsign := sign_eq (show 0 < 8 by decide)
    (u := ((0 : Byte).toNat : ℤ) - rd.toNat - false.toNat)
    (t := (0 : Byte).toInt - rd.toInt - false.toNat)
    (by change ((0 : ℤ) - rd.toNat - 0) % 2 ^ 8 = (0 - rd.toInt - 0) % 2 ^ 8; omega)
    (by change _ ≤ 0 - rd.toInt - 0; omega) (by change 0 - rd.toInt - 0 < _; omega)
  have hover : decide (¬ (-2 ^ (8 - 1) ≤ (0 : Byte).toInt - rd.toInt - false.toNat ∧
      (0 : Byte).toInt - rd.toInt - false.toNat < 2 ^ (8 - 1))) = (0 - rd == 0x80) := by
    rw [beq_eq_decide, decide_eq_decide, ← BitVec.toNat_inj, hres]
    change ¬ (_ ≤ 0 - rd.toInt - 0 ∧ 0 - rd.toInt - 0 < _) ↔ (256 - rd.toNat) % 256 = 128
    omega
  have hcarry : decide (¬ (0 ≤ ((0 : Byte).toNat : ℤ) - rd.toNat - false.toNat ∧
      ((0 : Byte).toNat : ℤ) - rd.toNat - false.toNat < 2 ^ 8)) = !(0 - rd == 0) := by
    rw [beq_eq_decide, ← decide_not, decide_eq_decide, ← BitVec.toNat_inj, hres]
    change ¬ (_ ≤ (0 : ℤ) - rd.toNat - 0 ∧ (0 : ℤ) - rd.toNat - 0 < _) ↔
      ¬ (256 - rd.toNat) % 256 = 0
    omega
  have hhalf : (nonzero ((0 - rd) &&& 0x08) || nonzero (rd &&& 0x08)) =
      decide (¬ (0 ≤ (((0 : Byte).toNat % 16 : ℕ) : ℤ) - (rd.toNat % 16 : ℕ) - false.toNat ∧
        (((0 : Byte).toNat % 16 : ℕ) : ℤ) - (rd.toNat % 16 : ℕ) - false.toNat < 16)) := by
    have hbit (x : Byte) : nonzero (x &&& 0x08) = decide (x.toNat / 8 % 2 = 1) :=
      (Bits.and_twoPow_ne_zero (show 3 < 8 by decide) x).trans (Bits.getLsbD_eq_decide 3 x)
    rw [hbit, hbit, hres, ← Bool.decide_or, decide_eq_decide]
    change _ ↔ ¬ (_ ≤ (0 : ℤ) - (rd.toNat % 16 : ℕ) - 0 ∧ (0 : ℤ) - (rd.toNat % 16 : ℕ) - 0 < _)
    omega
  simp only [hhalf, nonzero_and_high, byte_beq_zero, decide_high_eq hmod, decide_zero_eq hmod,
    Status.difference, Status.arithmetic, halfCarry, hsign, hover, hcarry]
  exact neg_marks_encode _ _ _ _

end AvrEmu
