import AvrEmu.Opcodes
import AvrEmu.Status

/-!
# The meaning of the arithmetic and logic instructions

What the instruction set says these instructions compute, in integers: the address of the
result, the bytes it has there, and the status bits the instruction defines.
-/

namespace AvrEmu

/-- The arithmetic and logic instructions. -/
inductive AluOp where
  | add | adc | adiw | sbiw | and | andi | or | ori | eor | com | neg | inc | dec
  | asr | lsr | ror | mul | muls | mulsu | fmul | fmuls | fmulsu
  | cp | cpc | sub | sbc | cpi | subi | sbci

/-- The opcode of an instruction. -/
def AluOp.opcode : AluOp → Word × Word
  | add => (0x0c00, 0xfc00)
  | adc => (0x1c00, 0xfc00)
  | adiw => (0x9600, 0xff00)
  | sbiw => (0x9700, 0xff00)
  | and => (0x2000, 0xfc00)
  | andi => (0x7000, 0xf000)
  | or => (0x2800, 0xfc00)
  | ori => (0x6000, 0xf000)
  | eor => (0x2400, 0xfc00)
  | com => (0x9400, 0xfe0f)
  | neg => (0x9401, 0xfe0f)
  | inc => (0x9403, 0xfe0f)
  | dec => (0x940a, 0xfe0f)
  | asr => (0x9405, 0xfe0f)
  | lsr => (0x9406, 0xfe0f)
  | ror => (0x9407, 0xfe0f)
  | mul => (0x9c00, 0xfc00)
  | muls => (0x0200, 0xff00)
  | mulsu => (0x0300, 0xff88)
  | fmul => (0x0308, 0xff88)
  | fmuls => (0x0380, 0xff88)
  | fmulsu => (0x0388, 0xff88)
  | cp => (0x1400, 0xfc00)
  | cpc => (0x0400, 0xfc00)
  | sub => (0x1800, 0xfc00)
  | sbc => (0x0800, 0xfc00)
  | cpi => (0x3000, 0xf000)
  | subi => (0x5000, 0xf000)
  | sbci => (0x4000, 0xf000)

/-- What an instruction leaves behind. -/
structure Outcome where
  dest : ℕ
  bytes : List Byte
  status : Status

/-- A result of one byte, from its exact value. -/
def Outcome.byte (dest : ℕ) (value : ℤ) (status : Status) : Outcome :=
  { dest, bytes := [BitVec.ofInt 8 value], status }

/-- A result of two bytes, low byte first. -/
def Outcome.word (dest : ℕ) (value : ℤ) (status : Status) : Outcome :=
  { dest, bytes := [BitVec.ofInt 8 value, BitVec.ofInt 8 (value / 2 ^ 8)], status }

/-- A comparison, whose result is dropped. -/
def Outcome.test (status : Status) : Outcome := { dest := 0, bytes := [], status }

/-- A product, which goes to the lowest pair of registers. -/
def Outcome.product (value : ℤ) : Outcome := .word 0 value (.product value value)

/-- A product of fractions, stored with its redundant sign bit shifted out. -/
def Outcome.fraction (value : ℤ) : Outcome := .word 0 (2 * value) (.product value (2 * value))

/-! ## Operands -/

/-- The number of the first of the upper registers. -/
def Machine.upperD (m : Machine) : ℕ := 16 + (fieldDUpper m.instrWord).toNat

/-- The number of the low register of an upper pair. -/
def Machine.pairD (m : Machine) : ℕ := 24 + 2 * (m.instrWord.extractLsb' 4 2).toNat

/-- The immediate of the word instructions. -/
def Machine.wordImm (m : Machine) : ℕ :=
  (m.instrWord.extractLsb' 6 2 ++ m.instrWord.extractLsb' 0 4 : BitVec 6).toNat

/-- The first operand of the instruction at `pc`, when it names two registers. -/
def Machine.rd (m : Machine) : Byte := m.memory (fieldD m.instrWord).toNat

/-- The second operand. -/
def Machine.rr (m : Machine) : Byte := m.memory (fieldR m.instrWord).toNat

/-- The first operand, when it is an upper register. -/
def Machine.rdUpper (m : Machine) : Byte := m.memory m.upperD

/-- The second operand, when it is an upper register. -/
def Machine.rrUpper (m : Machine) : Byte := m.memory (16 + (m.instrWord.extractLsb' 0 4).toNat)

/-- The operands of the multiplications that reach eight registers only. -/
def Machine.rdMid (m : Machine) : Byte := m.memory (16 + (m.instrWord.extractLsb' 4 3).toNat)

def Machine.rrMid (m : Machine) : Byte := m.memory (16 + (fieldBit m.instrWord).toNat)

/-- The immediate operand. -/
def Machine.imm (m : Machine) : Byte := fieldK m.instrWord

/-- The carry flag. -/
def Machine.carry (m : Machine) : Bool := (m.memory sreg).getLsbD 0

/-! ## Outcomes -/

/-- The sum of two operands and a carry. -/
def Outcome.sum (dest : ℕ) (rd rr : Byte) (carry : Bool) : Outcome :=
  .byte dest (rd.toNat + rr.toNat + carry.toNat) (.sum rd rr carry)

/-- The difference of two operands with a borrow. -/
def Outcome.difference (dest : ℕ) (rd rr : Byte) (carry : Bool) : Outcome :=
  .byte dest (rd.toNat - rr.toNat - carry.toNat) (.difference rd rr carry)

/-- A bitwise result. -/
def Outcome.logic (dest : ℕ) (res : Byte) : Outcome :=
  { dest, bytes := [res], status := .logic res }

/-- A shift to the right, from its exact value and the bit it drops. -/
def Outcome.shift (dest : ℕ) (value : ℤ) (out : Bool) : Outcome :=
  .byte dest value (.shift (BitVec.ofInt 8 value) out)

/-- What an instruction computes on a machine. -/
def AluOp.outcome (op : AluOp) (m : Machine) : Outcome :=
  let d := (fieldD m.instrWord).toNat
  match op with
  | add => .sum d m.rd m.rr false
  | adc => .sum d m.rd m.rr m.carry
  | adiw =>
    .word m.pairD ((m.word m.pairD).toNat + m.wordImm)
      (.arithmetic 16 ((m.word m.pairD).toNat + m.wordImm) ((m.word m.pairD).toInt + m.wordImm))
  | sbiw =>
    .word m.pairD ((m.word m.pairD).toNat - m.wordImm)
      (.arithmetic 16 ((m.word m.pairD).toNat - m.wordImm) ((m.word m.pairD).toInt - m.wordImm))
  | and => .logic d (m.rd &&& m.rr)
  | andi => .logic m.upperD (m.rdUpper &&& m.imm)
  | or => .logic d (m.rd ||| m.rr)
  | ori => .logic m.upperD (m.rdUpper ||| m.imm)
  | eor => .logic d (m.rd ^^^ m.rr)
  | com => .byte d (255 - m.rd.toNat) { Status.logic (~~~m.rd) with c := some true }
  | neg => .difference d 0 m.rd false
  | inc => .byte d (m.rd.toNat + 1)
      { Status.arithmetic 8 (m.rd.toNat + 1) (m.rd.toInt + 1) with c := none }
  | dec => .byte d (m.rd.toNat - 1)
      { Status.arithmetic 8 (m.rd.toNat - 1) (m.rd.toInt - 1) with c := none }
  | asr => .shift d (m.rd.toInt / 2) (m.rd.toNat % 2 == 1)
  | lsr => .shift d (m.rd.toNat / 2) (m.rd.toNat % 2 == 1)
  | ror => .shift d (m.rd.toNat / 2 + 128 * m.carry.toNat) (m.rd.toNat % 2 == 1)
  | mul => .product (m.rd.toNat * m.rr.toNat)
  | muls => .product (m.rdUpper.toInt * m.rrUpper.toInt)
  | mulsu => .product (m.rdMid.toInt * m.rrMid.toNat)
  | fmul => .fraction (m.rdMid.toNat * m.rrMid.toNat)
  | fmuls => .fraction (m.rdMid.toInt * m.rrMid.toInt)
  | fmulsu => .fraction (m.rdMid.toInt * m.rrMid.toNat)
  | cp => .test (.difference m.rd m.rr false)
  | cpc => .test (.difference m.rd m.rr m.carry)
  | sub => .difference d m.rd m.rr false
  | sbc => .difference d m.rd m.rr m.carry
  | cpi => .test (.difference m.rdUpper m.imm false)
  | subi => .difference m.upperD m.rdUpper m.imm false
  | sbci => .difference m.upperD m.rdUpper m.imm m.carry

/-- The zero bit of a subtraction or comparison is not taken from its own result alone. -/
def AluOp.subtracts : AluOp → Bool
  | cp | cpc | sub | sbc | cpi | subi | sbci => true
  | _ => false

/-- A step has the effect that an outcome describes: the result is stored, the status bits
get their values, all but those in `exempt`, and nothing else changes. -/
structure Outcome.Realized (o : Outcome) (exempt : List ℕ) (m m' : Machine) : Prop where
  stored : ∀ i (h : i < o.bytes.length), m'.memory (o.dest + i) = o.bytes[i]
  status_eq : ∀ i < 8, i ∉ exempt →
    (m'.memory sreg).getLsbD i = (o.status.bit i).getD ((m.memory sreg).getLsbD i)
  frame : ∀ a ≠ sreg, (∀ i < o.bytes.length, a ≠ o.dest + i) → m'.memory a = m.memory a

/-- The bits in `exempt` may come from another status. -/
theorem Outcome.Realized.exempt {o : Outcome} {st : Status} {m m' : Machine} {exempt : List ℕ}
    (h : { o with status := st : Outcome }.Realized [] m m')
    (hst : ∀ i < 8, i ∉ exempt → st.bit i = o.status.bit i) : o.Realized exempt m m' where
  stored := h.stored
  status_eq i hi hexempt := by
    rw [← hst i hi hexempt]
    exact h.status_eq i hi List.not_mem_nil
  frame := h.frame

/-- A machine that has stored some bytes in a row. -/
def Machine.storeBytes (m : Machine) (i : ℕ) : List Byte → Machine
  | [] => m
  | b :: bs => (m.setMem i b).storeBytes (i + 1) bs

@[simp] theorem storeBytes_toCore {m : Machine} {i : ℕ} (bs : List Byte) :
    (m.storeBytes i bs).toCore = m.toCore := by
  induction bs generalizing m i with
  | nil => rfl
  | cons b bs ih => exact ih

theorem storeBytes_memory_of_ne {m : Machine} {i a : ℕ} {bs : List Byte}
    (h : ∀ k < bs.length, a ≠ i + k) : (m.storeBytes i bs).memory a = m.memory a := by
  induction bs generalizing m i with
  | nil => rfl
  | cons b bs ih =>
    rw [Machine.storeBytes, ih, setMem_memory, Function.update_of_ne (by simpa using h 0 (by simp))]
    intro k hk
    have hnext := h (k + 1) (by simpa using hk)
    omega

theorem storeBytes_memory {m : Machine} {i k : ℕ} {bs : List Byte} (h : k < bs.length) :
    (m.storeBytes i bs).memory (i + k) = bs[k] := by
  induction bs generalizing m i k with
  | nil => cases h
  | cons b bs ih =>
    cases k with
    | zero =>
      rw [Machine.storeBytes, Nat.add_zero, storeBytes_memory_of_ne fun k _ => by omega,
        setMem_memory]
      exact Function.update_self ..
    | succ k =>
      have hshift : i + (k + 1) = i + 1 + k := by omega
      rw [Machine.storeBytes, hshift]
      exact ih (Nat.lt_of_succ_lt_succ h)

end AvrEmu
