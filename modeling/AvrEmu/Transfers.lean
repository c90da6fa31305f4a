import AvrEmu.Meaning
import AvrEmu.StatusUpdates

/-!
# The meaning of transfers and of single bits

The instructions that move bytes between registers and ports, exchange them with memory, or set
and clear single bits, and what they leave in data memory.
-/

namespace AvrEmu

variable {m m₁ : Machine} {d : InstrDecode} {idc : InstrDecodeCommon}

/-- A byte with one of its bits replaced. -/
def withBit (b : Byte) (i : ℕ) (v : Bool) : Byte :=
  if v then b ||| 1#8 <<< i else b &&& ~~~(1#8 <<< i)

theorem getLsbD_withBit (b : Byte) {i j : ℕ} (v : Bool) (hj : j < 8) :
    (withBit b i v).getLsbD j = if j = i then v else b.getLsbD j := by
  have hone : (1#8 <<< i).getLsbD j = decide (j = i) := getLsbD_one_shiftLeft hj
  cases v with
  | false =>
    rw [withBit, if_neg Bool.false_ne_true, BitVec.getLsbD_and, BitVec.getLsbD_not, hone,
      decide_eq_true hj, Bool.true_and]
    by_cases heq : j = i <;> simp [heq]
  | true =>
    rw [withBit, if_pos rfl, BitVec.getLsbD_or, hone]
    by_cases heq : j = i <;> simp [heq]

/-- The transfers and the instructions on single bits. -/
inductive TransferOp where
  | mov | movw | ldi | swap | inPort | outPort | bld | bst | cbi | sbi | bclr | bset
  | xch | las | lac | lat | nop
  deriving DecidableEq

def TransferOp.all : List TransferOp :=
  [mov, movw, ldi, swap, inPort, outPort, bld, bst, cbi, sbi, bclr, bset, xch, las, lac, lat, nop]

theorem TransferOp.mem_all (op : TransferOp) : op ∈ TransferOp.all := by
  cases op <;> decide

/-- The opcode of an instruction. -/
def TransferOp.opcode : TransferOp → Word × Word
  | mov => (0x2c00, 0xfc00)
  | movw => (0x0100, 0xff00)
  | ldi => (0xe000, 0xf000)
  | swap => (0x9402, 0xfe0f)
  | inPort => (0xb000, 0xf800)
  | outPort => (0xb800, 0xf800)
  | bld => (0xf800, 0xfe08)
  | bst => (0xfa00, 0xfe08)
  | cbi => (0x9800, 0xff00)
  | sbi => (0x9a00, 0xff00)
  | bclr => (0x9488, 0xff8f)
  | bset => (0x9408, 0xff8f)
  | xch => (0x9204, 0xfe0f)
  | las => (0x9205, 0xfe0f)
  | lac => (0x9206, 0xfe0f)
  | lat => (0x9207, 0xfe0f)
  | nop => (0x0000, 0xffff)

/-! ## Operands -/

/-- The port `AA .. AAAA` of IN and OUT. -/
def fieldPortWide (w : Word) : BitVec 6 := w.extractLsb' 9 2 ++ w.extractLsb' 0 4

/-- Its cell. -/
def Machine.port (m : Machine) : ℕ := ioBase + (fieldPortWide m.instrWord).toNat

/-- The cell of the low port of CBI and SBI. -/
def Machine.lowPort (m : Machine) : ℕ := ioBase + (fieldPort m.instrWord).toNat

/-- The number of the bit. -/
def Machine.bitNumber (m : Machine) : ℕ := (fieldBit m.instrWord).toNat

/-- The low registers of the pairs of MOVW. -/
def Machine.movwD (m : Machine) : ℕ := 2 * (fieldDUpper m.instrWord).toNat

def Machine.movwR (m : Machine) : ℕ := 2 * (m.instrWord.extractLsb' 0 4).toNat

/-! ## What they leave -/

/-- An exchange of a register with the cell that Z points to. -/
def Machine.exchanged (m : Machine) (f : Byte → Byte → Byte) : Machine :=
  let z := (m.word regpZ).toNat
  (m.setMem z (f (m.memory z) m.rd)).setMem (fieldD m.instrWord).toNat (m.memory z)

/-- The machine with what an instruction stores. -/
def TransferOp.stored (op : TransferOp) (m : Machine) : Machine :=
  let d := (fieldD m.instrWord).toNat
  match op with
  | mov => m.setMem d m.rr
  | movw => (m.setMem m.movwD (m.memory m.movwR)).setMem (m.movwD + 1) (m.memory (m.movwR + 1))
  | ldi => m.setMem m.upperD m.imm
  | swap => m.setMem d (m.rd.extractLsb' 0 4 ++ m.rd.extractLsb' 4 4 : BitVec 8)
  | inPort => m.setMem d (m.memory m.port)
  | outPort => m.setMem m.port m.rd
  | bld => m.setMem d (withBit m.rd m.bitNumber ((m.memory sreg).getLsbD 6))
  | bst => m.setMem sreg (withBit (m.memory sreg) 6 (m.rd.getLsbD m.bitNumber))
  | cbi => m.setMem m.lowPort (withBit (m.memory m.lowPort) m.bitNumber false)
  | sbi => m.setMem m.lowPort (withBit (m.memory m.lowPort) m.bitNumber true)
  | bclr => m.setMem sreg (withBit (m.memory sreg) (fieldFlag m.instrWord).toNat false)
  | bset => m.setMem sreg (withBit (m.memory sreg) (fieldFlag m.instrWord).toNat true)
  | xch => m.exchanged fun _ r => r
  | las => m.exchanged fun b r => b ||| r
  | lac => m.exchanged fun b r => b &&& ~~~r
  | lat => m.exchanged fun b r => b ^^^ r
  | nop => m

/-- The machine after an instruction of `size` words that leads to `target`. -/
def Machine.led (m : Machine) (size target : BitVec 32) (memory : ℕ → Byte) : Machine :=
  { m with
    pc := target
    pcStart := m.pc
    instrSize := size
    insns := m.insns + 1
    memory := memory }

/-- The machine after an instruction of one word that goes on to the next. -/
def Machine.passed (m : Machine) (memory : ℕ → Byte) : Machine := m.led 1 (m.pc + 1) memory

/-! ## The code -/

section Code

theorem exec_instrMov : exec (instrMov idc) m =
    .ok (idc, m.setMem idc.ddddd.toNat (m.memory idc.rrrrr.toNat)) := by
  simp [instrMov]

theorem exec_instrLdi : exec (instrLdi idc) m = .ok (idc, m.setMem idc.ddddd.toNat idc.immU8) := by
  simp [instrLdi]

theorem exec_instrSwap : exec (instrSwap idc) m = .ok (idc, m.setMem idc.ddddd.toNat
    (m.memory idc.ddddd.toNat >>> 4 ||| m.memory idc.ddddd.toNat <<< 4)) := by
  simp [instrSwap]

theorem swap_eq (b : Byte) :
    b >>> 4 ||| b <<< 4 = (b.extractLsb' 0 4 ++ b.extractLsb' 4 4 : BitVec 8) := by
  apply BitVec.eq_of_getLsbD_eq
  intro i hi
  rw [BitVec.getLsbD_append]
  simp only [BitVec.getLsbD_or, BitVec.getLsbD_ushiftRight, BitVec.getLsbD_shiftLeft,
    BitVec.getLsbD_extractLsb', hi, decide_true, Bool.true_and]
  by_cases hlow : i < 4
  · simp [hlow]
  · have hout : b.getLsbD (4 + i) = false := BitVec.getLsbD_of_ge b (4 + i) (by omega)
    simp [hlow, hout, show i - 4 < 4 by omega]

/-- A word that is copied is copied byte by byte. -/
theorem setWord_eq_copy (i j : ℕ) :
    m.setWord i (m.word j) = (m.setMem i (m.memory j)).setMem (i + 1) (m.memory (j + 1)) := by
  have hmask : ∀ w : Word, (w &&& 0xff).setWidth 8 = (w.setWidth 8 : Byte) := by
    intro w
    rw [BitVec.setWidth_and]
    exact BitVec.and_allOnes
  have hlow : (m.word j).setWidth 8 = m.memory j := by
    apply BitVec.eq_of_getLsbD_eq
    intro k hk
    simp [Machine.word, hk]
  have hhigh : (m.word j >>> 8).setWidth 8 = m.memory (j + 1) := by
    apply BitVec.eq_of_getLsbD_eq
    intro k hk
    simp [Machine.word, hk, show k < 16 by omega, show 8 + k < 16 by omega]
  rw [Machine.setWord, hmask, hmask, hlow, hhigh]

/-- A register number of MOVW, doubled. -/
theorem doubled_toNat {b : Byte} {k : BitVec 4} (hb : b.toNat = 16 + k.toNat) :
    (((b - 16) <<< 1).setWidth 32 : BitVec 32).toNat = 2 * k.toNat := by
  have hk := k.isLt
  have hsub : (b - 16).toNat = k.toNat := by
    rw [BitVec.toNat_sub, hb]
    change (2 ^ 8 - 16 + (16 + k.toNat)) % 2 ^ 8 = _
    omega
  rw [BitVec.toNat_setWidth_of_le (by decide), BitVec.toNat_shiftLeft, hsub, Nat.shiftLeft_eq]
  omega

theorem exec_instrMovw {k l : BitVec 4} (hd : idc.ddddd.toNat = 16 + k.toNat)
    (hr : idc.rrrrr.toNat = 16 + l.toNat) :
    exec (instrMovw idc) m = .ok (idc, m.setWord (2 * k.toNat) (m.word (2 * l.toNat))) := by
  have hd' := doubled_toNat hd
  have hr' := doubled_toNat hr
  have hin : ∀ {n : ℕ}, n < 16 → 2 * n + 1 < memorySize := by
    intro n hn
    unfold memorySize
    omega
  simp only [instrMovw, exec_bind, exec_memword (hr' ▸ Nat.mul_mod_right 2 _) (hr' ▸ hin l.isLt),
    exec_memwriteword (hd' ▸ Nat.mul_mod_right 2 _) (hd' ▸ hin k.isLt), hd', hr', exec_pure]

theorem exec_ioPort (w : Word) :
    exec (ioPort w) m = .ok ((fieldPortWide w).setWidth 8, m) := by
  have hport : ((bitField w 10 9 >>> 5 ||| bitField w 3 0).setWidth 8 : Byte) =
      (fieldPortWide w).setWidth 8 := by
    rw [bitField_join (show 10 < 16 by decide) (show 9 < 16 by decide) (show 4 ≤ 9 by decide) rfl
      (by decide), BitVec.setWidth_setWidth_of_le _ (by decide)]
    rfl
  simp only [ioPort, exec_bind, exec_bits (show 10 < 16 by decide) (show 9 ≤ 10 by decide),
    exec_bits (show 3 < 16 by decide) (show 0 ≤ 3 by decide), exec_pure, hport]

theorem portWide_toNat (w : Word) :
    ((fieldPortWide w).setWidth 8 : Byte).toNat = (fieldPortWide w).toNat :=
  BitVec.toNat_setWidth_of_le (by decide)

theorem port_lt_memorySize {k : ℕ} (b : BitVec k) (hk : k ≤ 6) : ioBase + b.toNat < memorySize := by
  have hlt := b.isLt
  have hpow : 2 ^ k ≤ 2 ^ 6 := Nat.pow_le_pow_right (by decide) hk
  unfold ioBase memorySize
  omega

theorem exec_instrIn : exec (instrIn idc) m = .ok (idc,
    m.setMem idc.ddddd.toNat (m.memory (ioBase + (fieldPortWide idc.instr).toNat))) := by
  simp only [instrIn, exec_bind, exec_ioPort, portWide_toNat,
    exec_mem (port_lt_memorySize (fieldPortWide idc.instr) le_rfl),
    exec_setMem (byte_lt_memorySize _), exec_pure]

theorem exec_instrOut : exec (instrOut idc) m = .ok (idc,
    m.setMem (ioBase + (fieldPortWide idc.instr).toNat) (m.memory idc.ddddd.toNat)) := by
  simp only [instrOut, exec_bind, exec_ioPort, portWide_toNat,
    exec_mem (byte_lt_memorySize _),
    exec_setMem (port_lt_memorySize (fieldPortWide idc.instr) le_rfl), exec_pure]

/-- The mask of a bit that the decoder has offset by sixteen. -/
theorem bitMask_eq {r : Byte} {b : BitVec 3} (hr : r = 16#8 + b.setWidth 8) :
    1#8 <<< (r - 16) = 1#8 <<< b.toNat := by
  have hnumber : (r - 16).toNat = b.toNat := by
    refine bit_toNat ?_ b.isLt
    rw [hr, upper_toNat (by decide)]
  rw [BitVec.shiftLeft_eq', hnumber]

theorem exec_instrBld {b : BitVec 3} (hb : idc.rrrrr = 16#8 + b.setWidth 8) :
    exec (instrBld idc) m = .ok (idc, m.setMem idc.ddddd.toNat
      (withBit (m.memory idc.ddddd.toNat) b.toNat ((m.memory sreg).getLsbD 6))) := by
  have ht : nonzero (m.memory sreg &&& sregT) = (m.memory sreg).getLsbD 6 :=
    Bits.and_twoPow_ne_zero (show 6 < 8 by decide) _
  simp only [instrBld, exec_bind, exec_sregHas, ht, bitMask_eq hb, exec_ite, exec_pure,
    exec_orMem (byte_lt_memorySize _), exec_andMem (byte_lt_memorySize _)]
  cases (m.memory sreg).getLsbD 6 <;> rfl

theorem exec_instrBst {b : BitVec 3} (hb : idc.rrrrr = 16#8 + b.setWidth 8) :
    exec (instrBst idc) m = .ok ({ idc with
      toFlags := idc.toFlags.mark ((m.memory idc.ddddd.toNat).getLsbD b.toNat) sregT }, m) := by
  simp only [instrBst, exec_bind, exec_mem (byte_lt_memorySize _), exec_pure, hb, nonzero_and_bit]

theorem exec_instrCbisbi {b : BitVec 3} (hb : idc.rrrrr = 16#8 + b.setWidth 8) :
    let a := ioBase + (fieldPort idc.instr).toNat
    exec (instrCbisbi idc) m = .ok (idc,
      m.setMem a (withBit (m.memory a) b.toNat (idc.instr.getLsbD 9))) := by
  have hport : ((bitField idc.instr 7 3 >>> 3).setWidth 8 : Byte).toNat =
      (fieldPort idc.instr).toNat := by
    rw [bitField_shift (by decide) (by decide), BitVec.setWidth_setWidth_of_le _ (by decide),
      BitVec.toNat_setWidth_of_le (by decide)]
    rfl
  intro a
  have hlt : ioBase + (fieldPort idc.instr).toNat < memorySize :=
    port_lt_memorySize (fieldPort idc.instr) (by decide)
  simp only [instrCbisbi, exec_bind, exec_bits (show 9 < 16 by decide) (show 9 ≤ 9 by decide),
    exec_bits (show 7 < 16 by decide) (show 3 ≤ 7 by decide), exec_ite, exec_pure,
    exec_orMem hlt, exec_andMem hlt, bitMask_eq hb, hport,
    bitField_single_ne_zero (show 9 < 16 by decide)]
  cases idc.instr.getLsbD 9 <;> rfl

theorem exec_instrBclrset (hflags : idc.toFlags = {}) {i : ℕ}
    (hi : (idc.ddddd - 16).toNat = i) :
    exec (instrBclrset idc) m =
      .ok ({ idc with toFlags := Flags.mark {} (!idc.instr.getLsbD 7) (1#8 <<< i) }, m) := by
  have hclr : (idc.instr &&& 0x80 != 0) = idc.instr.getLsbD 7 :=
    Bits.and_twoPow_ne_zero (show 7 < 16 by decide) _
  have hmask : 1#8 <<< (idc.ddddd - 16) = 1#8 <<< i := by rw [BitVec.shiftLeft_eq', hi]
  simp only [instrBclrset, exec_pure, hclr, hmask]
  obtain ⟨f, instr, ddddd, rrrrr, immU8, immU16⟩ := idc
  cases hflags
  dsimp only
  cases instr.getLsbD 7 <;> rfl

/-- The mark of one bit, merged. -/
theorem mergeFlags_mark (v : Bool) (i : ℕ) : m.mergeFlags (Flags.mark {} v (1#8 <<< i)) =
    m.setMem sreg (withBit (m.memory sreg) i v) := by
  have hnone : ~~~(0#8) = BitVec.allOnes 8 := rfl
  cases v with
  | false =>
    change m.setMem sreg (m.memory sreg &&& ~~~(0#8 ||| 1#8 <<< i) ||| 0#8) = _
    rw [BitVec.zero_or, BitVec.or_zero]
    rfl
  | true =>
    change m.setMem sreg (m.memory sreg &&& ~~~0#8 ||| (0#8 ||| 1#8 <<< i)) = _
    rw [BitVec.zero_or, hnone, BitVec.and_allOnes]
    rfl

/-- What is stored by the four exchanges. -/
def exchangeValue (mode : Word) (b r : Byte) : Byte :=
  if mode == 0 then r else if mode == 1 then b ||| r else if mode == 2 then b &&& ~~~r else b ^^^ r

theorem exec_instrXch :
    let z := (m.word regpZ).toNat
    exec (instrXch idc) m = .ok (idc, (m.setMem z (exchangeValue (bitField idc.instr 1 0)
      (m.memory z) (m.memory idc.ddddd.toNat))).setMem idc.ddddd.toNat (m.memory z)) := by
  intro z
  have hload : exec (memword 30) m = .ok (m.word 30, m) := exec_memword (by decide) (by decide)
  simp only [instrXch, exec_bind, exec_bits (show 1 < 16 by decide) (show 0 ≤ 1 by decide),
    exec_mem (byte_lt_memorySize _), hload, exec_mem (word_lt_memorySize _),
    exec_setMem (word_lt_memorySize _), exec_setMem (byte_lt_memorySize _), exec_pure]
  rfl

end Code

section Steps

variable [DesLibrary]

/-- The step of an instruction that works on data memory and moves `pc`, before the length of the
instruction is added. -/
theorem step_led {op : Word × Word} {p : BitVec 32} (h : m.Ready op)
    (hlookup : lookupInstr m.instrWord = some d)
    (himm : d.imm16 = true → m.pc.toNat + 1 < flashSize)
    (hcode : exec (d.code (d.operands (m.decoded d))) (m.fetched d) = .ok (idc, m₁))
    (hcore : m₁.toCore = { (m.fetched d).toCore with pc := p })
    (hflags : idc.clrflags &&& idc.setflags = 0#8) :
    let size : BitVec 32 := if d.imm16 then 2 else 1
    m.step = .ok (m.led size (p + size) (m₁.mergeFlags idc.toFlags).memory) := by
  have hexec : m.Executes d idc m₁ := ⟨h.skip_eq, ⟨h.pc_lt, hlookup, himm⟩, hcode, hflags⟩
  have hlow : m₁.skipNextInstruction = false := by
    rw [hcore]
    exact h.skip_eq
  rw [hexec.step_eq hlow]
  dsimp only
  congr 1
  refine Machine.ext' ?_ rfl
  change { m₁.toCore with pc := m₁.pc + m₁.instrSize, insns := m₁.insns + 1 } = _
  rw [hcore]
  rfl

/-- Without status changes. -/
theorem step_led_quiet {op : Word × Word} {p : BitVec 32} (h : m.Ready op)
    (hlookup : lookupInstr m.instrWord = some d)
    (himm : d.imm16 = true → m.pc.toNat + 1 < flashSize)
    (hcode : exec (d.code (d.operands (m.decoded d))) (m.fetched d) =
      .ok (d.operands (m.decoded d), m₁))
    (hcore : m₁.toCore = { (m.fetched d).toCore with pc := p }) :
    let size : BitVec 32 := if d.imm16 then 2 else 1
    m.step = .ok (m.led size (p + size) m₁.memory) := by
  have hstep := step_led h hlookup himm hcode hcore BitVec.and_zero
  dsimp only at hstep ⊢
  rw [hstep]
  exact congrArg (fun f => Except.ok (m.led _ _ f)) (finish_memory_of_quiet (m := m₁) rfl)

/-- The step of a one-word instruction that only works on data memory, in full. -/
theorem step_marked {op : Word × Word} (h : m.Ready op)
    (hlookup : lookupInstr m.instrWord = some d) (himm : d.imm16 = false)
    (hcode : exec (d.code (d.operands (m.decoded d))) (m.fetched d) = .ok (idc, m₁))
    (hcore : m₁.toCore = (m.fetched d).toCore) (hflags : idc.clrflags &&& idc.setflags = 0#8) :
    m.step = .ok (m.passed (m₁.mergeFlags idc.toFlags).memory) := by
  have hstep := step_led (p := m.pc) h hlookup (fun htrue => by simp [himm] at htrue) hcode hcore
    hflags
  rwa [himm] at hstep

/-- Without status changes. -/
theorem step_passed {op : Word × Word} (h : m.Ready op)
    (hlookup : lookupInstr m.instrWord = some d) (himm : d.imm16 = false)
    (hcode : exec (d.code (d.operands (m.decoded d))) (m.fetched d) =
      .ok (d.operands (m.decoded d), m₁))
    (hcore : m₁.toCore = (m.fetched d).toCore) : m.step = .ok (m.passed m₁.memory) := by
  have hstep := step_led_quiet (p := m.pc) h hlookup (fun htrue => by simp [himm] at htrue) hcode
    hcore
  rwa [himm] at hstep

/-! ## The steps -/

theorem step_mov (h : m.Ready TransferOp.mov.opcode) :
    m.step = .ok (m.passed (TransferOp.mov.stored m).memory) := by
  let d : InstrDecode :=
    { pattern := 0x2c00, mask := 0xfc00, code := instrMov, ddddd84 := true, rrrrr9_30 := true }
  have hlookup : lookupInstr m.instrWord = some d :=
    lookupInstr_eq_some (List.mem_of_getElem? (i := 13) rfl) h.isOp
  have hd := operands_ddddd84_toNat (d := d) (m.decoded d) rfl rfl rfl
  have hr := operands_rrrrr9_30_toNat (d := d) (m.decoded d) rfl rfl rfl
  have hstep := step_passed h hlookup rfl (exec_instrMov (m := m.fetched d)) rfl
  rw [hd, hr] at hstep
  exact hstep

theorem step_movw (h : m.Ready TransferOp.movw.opcode) :
    m.step = .ok (m.passed (TransferOp.movw.stored m).memory) := by
  let d : InstrDecode :=
    { pattern := 0x0100, mask := 0xff00, code := instrMovw, dddd74 := true, rrrr30 := true }
  have hlookup : lookupInstr m.instrWord = some d :=
    lookupInstr_eq_some (List.mem_of_getElem? (i := 1) rfl) h.isOp
  have hd := operands_dddd74_toNat (d := d) (m.decoded d) rfl rfl
  have hr := operands_rrrr30_toNat (d := d) (m.decoded d) rfl rfl
  have hstep := step_passed h hlookup rfl (exec_instrMovw (m := m.fetched d) hd hr) rfl
  rw [setWord_eq_copy] at hstep
  exact hstep

theorem step_ldi (h : m.Ready TransferOp.ldi.opcode) :
    m.step = .ok (m.passed (TransferOp.ldi.stored m).memory) := by
  let d : InstrDecode :=
    { pattern := 0xe000, mask := 0xf000, code := instrLdi, dddd74 := true, kkkk118_30 := true }
  have hlookup : lookupInstr m.instrWord = some d :=
    lookupInstr_eq_some (List.mem_of_getElem? (i := 63) rfl) h.isOp
  have hd := operands_dddd74_toNat (d := d) (m.decoded d) rfl rfl
  have hk := operands_kkkk118_30 (d := d) (m.decoded d) rfl
  have hstep := step_passed h hlookup rfl (exec_instrLdi (m := m.fetched d)) rfl
  rw [hd, hk] at hstep
  exact hstep

theorem step_swap (h : m.Ready TransferOp.swap.opcode) :
    m.step = .ok (m.passed (TransferOp.swap.stored m).memory) := by
  let d : InstrDecode := { pattern := 0x9402, mask := 0xfe0f, code := instrSwap, ddddd84 := true }
  have hlookup : lookupInstr m.instrWord = some d :=
    lookupInstr_eq_some (List.mem_of_getElem? (i := 36) rfl) h.isOp
  have hd := operands_ddddd84_toNat (d := d) (m.decoded d) rfl rfl rfl
  have hstep := step_passed h hlookup rfl (exec_instrSwap (m := m.fetched d)) rfl
  rw [hd, swap_eq] at hstep
  exact hstep

theorem step_inPort (h : m.Ready TransferOp.inPort.opcode) :
    m.step = .ok (m.passed (TransferOp.inPort.stored m).memory) := by
  let d : InstrDecode := { pattern := 0xb000, mask := 0xf800, code := instrIn, ddddd84 := true }
  have hlookup : lookupInstr m.instrWord = some d :=
    lookupInstr_eq_some (List.mem_of_getElem? (i := 60) rfl) h.isOp
  have hd := operands_ddddd84_toNat (d := d) (m.decoded d) rfl rfl rfl
  have hstep := step_passed h hlookup rfl (exec_instrIn (m := m.fetched d)) rfl
  rw [hd] at hstep
  exact hstep

theorem step_outPort (h : m.Ready TransferOp.outPort.opcode) :
    m.step = .ok (m.passed (TransferOp.outPort.stored m).memory) := by
  let d : InstrDecode := { pattern := 0xb800, mask := 0xf800, code := instrOut, ddddd84 := true }
  have hlookup : lookupInstr m.instrWord = some d :=
    lookupInstr_eq_some (List.mem_of_getElem? (i := 61) rfl) h.isOp
  have hd := operands_ddddd84_toNat (d := d) (m.decoded d) rfl rfl rfl
  have hstep := step_passed h hlookup rfl (exec_instrOut (m := m.fetched d)) rfl
  rw [hd] at hstep
  exact hstep

theorem step_bld (h : m.Ready TransferOp.bld.opcode) :
    m.step = .ok (m.passed (TransferOp.bld.stored m).memory) := by
  let d : InstrDecode :=
    { pattern := 0xf800, mask := 0xfe08, code := instrBld, ddddd84 := true, rrr20 := true }
  have hlookup : lookupInstr m.instrWord = some d :=
    lookupInstr_eq_some (List.mem_of_getElem? (i := 65) rfl) h.isOp
  have hd := operands_ddddd84_toNat (d := d) (m.decoded d) rfl rfl rfl
  have hb := operands_rrr20 (d := d) (m.decoded d) rfl
  have hstep := step_passed h hlookup rfl (exec_instrBld (m := m.fetched d) hb) rfl
  rw [hd] at hstep
  exact hstep

theorem step_bst (h : m.Ready TransferOp.bst.opcode) :
    m.step = .ok (m.passed (TransferOp.bst.stored m).memory) := by
  let d : InstrDecode :=
    { pattern := 0xfa00, mask := 0xfe08, code := instrBst, ddddd84 := true, rrr20 := true }
  have hlookup : lookupInstr m.instrWord = some d :=
    lookupInstr_eq_some (List.mem_of_getElem? (i := 66) rfl) h.isOp
  have hd := operands_ddddd84_toNat (d := d) (m.decoded d) rfl rfl rfl
  have hb := operands_rrr20 (d := d) (m.decoded d) rfl
  have hstep := step_marked h hlookup rfl (exec_instrBst (m := m.fetched d) hb) rfl
    (mark_one_disjoint _ _)
  rw [hd] at hstep
  exact hstep.trans (congrArg (fun n => Except.ok (m.passed n.memory)) (mergeFlags_mark _ 6))

/-- CBI and SBI. -/
theorem step_cbisbi {op : Word × Word} (h : m.Ready op)
    (hrow : IsOp (0x9800, 0xfd00) m.instrWord) : m.step = .ok (m.passed (m.setMem m.lowPort
      (withBit (m.memory m.lowPort) m.bitNumber (m.instrWord.getLsbD 9))).memory) := by
  let d : InstrDecode := { pattern := 0x9800, mask := 0xfd00, code := instrCbisbi, rrr20 := true }
  have hlookup : lookupInstr m.instrWord = some d :=
    lookupInstr_eq_some (List.mem_of_getElem? (i := 57) rfl) hrow
  have hb := operands_rrr20 (d := d) (m.decoded d) rfl
  have hstep := step_passed h hlookup rfl (exec_instrCbisbi (m := m.fetched d) hb) rfl
  exact hstep

/-- BCLR and BSET. -/
theorem step_bclrset {op : Word × Word} (h : m.Ready op) (hrow : IsOp Op.bclrset m.instrWord) :
    m.step = .ok (m.passed (m.setMem sreg (withBit (m.memory sreg) (fieldFlag m.instrWord).toNat
      (!m.instrWord.getLsbD 7))).memory) := by
  let d : InstrDecode := { pattern := 0x9408, mask := 0xff0f, code := instrBclrset, ddd64 := true }
  have hlookup : lookupInstr m.instrWord = some d :=
    lookupInstr_eq_some (List.mem_of_getElem? (i := 41) rfl) hrow
  have hd := bit_toNat (operands_ddd64_toNat (d := d) (m.decoded d) rfl)
    (fieldFlag m.instrWord).isLt
  have hstep := step_marked h hlookup rfl (exec_instrBclrset (m := m.fetched d) rfl hd) rfl
    (mark_one_disjoint _ _)
  exact hstep.trans (congrArg (fun n => Except.ok (m.passed n.memory)) (mergeFlags_mark _ _))

/-- XCH, LAS, LAC and LAT. -/
theorem step_exchange {op : Word × Word} (h : m.Ready op) (hrow : IsOp Op.xch m.instrWord)
    {f : Byte → Byte → Byte} (hf : exchangeValue (bitField m.instrWord 1 0) = f) :
    m.step = .ok (m.passed (m.exchanged f).memory) := by
  have hlookup := lookup_xch hrow
  generalize hrow' : (⟨0x9204, 0xfe0c, instrXch, true, false, false, false, false, false, false,
    false⟩ : InstrDecode) = d at hlookup
  have hd : (d.operands (m.decoded d)).ddddd.toNat = (fieldD m.instrWord).toNat := by
    subst hrow'
    exact operands_ddddd84_toNat _ rfl rfl rfl
  subst hrow'
  have hstep := step_passed h hlookup rfl (exec_instrXch (m := m.fetched _)) rfl
  rw [hd, operands_instr, decoded_instr, hf] at hstep
  exact hstep

theorem step_nop (h : m.Ready TransferOp.nop.opcode) : m.step = .ok (m.passed m.memory) := by
  let d : InstrDecode := { pattern := 0x0000, mask := 0xffff, code := instrNop }
  have hlookup : lookupInstr m.instrWord = some d :=
    lookupInstr_eq_some (List.mem_of_getElem? (i := 0) rfl) h.isOp
  have hcode : exec (d.code (d.operands (m.decoded d))) (m.fetched d) =
      .ok (d.operands (m.decoded d), m.fetched d) := rfl
  have hstep : m.step = .ok (m.passed (m.fetched d).memory) :=
    step_passed h hlookup rfl hcode rfl
  exact hstep

/-- Every transfer and every instruction on a single bit completes in every state, leaves in data
memory what it means and nothing else, and goes on to the next word. -/
theorem step_transfer (op : TransferOp) {m : Machine} (hskip : m.skipNextInstruction = false)
    (hpc : m.pc.toNat < flashSize) (hop : IsOp op.opcode m.instrWord) :
    m.step = .ok (m.passed (op.stored m).memory) := by
  have hready : m.Ready op.opcode := ⟨hskip, hpc, hop⟩
  cases op with
  | mov => exact step_mov hready
  | movw => exact step_movw hready
  | ldi => exact step_ldi hready
  | swap => exact step_swap hready
  | inPort => exact step_inPort hready
  | outPort => exact step_outPort hready
  | bld => exact step_bld hready
  | bst => exact step_bst hready
  | cbi =>
    have hstep := step_cbisbi hready (hop.coarsen rfl rfl)
    rwa [hop.getLsbD_eq (i := 9) rfl] at hstep
  | sbi =>
    have hstep := step_cbisbi hready (hop.coarsen rfl rfl)
    rwa [hop.getLsbD_eq (i := 9) rfl] at hstep
  | bclr =>
    have hstep := step_bclrset hready (hop.coarsen rfl rfl)
    rwa [hop.getLsbD_eq (i := 7) rfl] at hstep
  | bset =>
    have hstep := step_bclrset hready (hop.coarsen rfl rfl)
    rwa [hop.getLsbD_eq (i := 7) rfl] at hstep
  | xch => exact step_exchange hready (hop.coarsen rfl rfl) (by rw [hop.bitField_eq rfl]; rfl)
  | las => exact step_exchange hready (hop.coarsen rfl rfl) (by rw [hop.bitField_eq rfl]; rfl)
  | lac => exact step_exchange hready (hop.coarsen rfl rfl) (by rw [hop.bitField_eq rfl]; rfl)
  | lat => exact step_exchange hready (hop.coarsen rfl rfl) (by rw [hop.bitField_eq rfl]; rfl)
  | nop => exact step_nop hready

end Steps

end AvrEmu
