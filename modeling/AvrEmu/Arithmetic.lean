import AvrEmu.ControlFlow
import AvrEmu.Meaning

/-!
# The arithmetic and logic handlers

Each handler stores the bytes of its outcome and marks the status of its outcome; one step
then has the effect that the meaning of the instruction describes.
-/

namespace AvrEmu

variable {m m' : Machine} {d : InstrDecode} {idc : InstrDecodeCommon}

/-- The decoded instruction with its pending status changes. -/
def InstrDecodeCommon.withFlags (idc : InstrDecodeCommon) (f : Flags) : InstrDecodeCommon :=
  { idc with toFlags := f }

/-! ## Steps of instructions that only compute -/

section Step

variable [DesLibrary]

/-- The code of a one-word instruction stores some bytes in registers and marks a status. -/
theorem realized_of_exec {op : Word × Word} {o : Outcome} {f : Flags} (h : m.Ready op)
    (hlookup : lookupInstr m.instrWord = some d) (himm : d.imm16 = false)
    (hstatus : f.Encodes o.status) (hdest : o.dest + o.bytes.length ≤ 32)
    (hcode : exec (d.code (d.operands (m.decoded d))) (m.fetched d) =
      .ok ((d.operands (m.decoded d)).withFlags f,
        (m.fetched d).storeBytes o.dest o.bytes)) :
    m.step = .ok m.next ∧ o.Realized [] m m.next := by
  have hfetch : m.Fetches d := ⟨h.pc_lt, hlookup, fun htrue => by simp [himm] at htrue⟩
  have hexec : m.Executes d _ ((m.fetched d).storeBytes o.dest o.bytes) :=
    ⟨h.skip_eq, hfetch, hcode, hstatus.disjoint⟩
  have hlow : ((m.fetched d).storeBytes o.dest o.bytes).skipNextInstruction = false := by
    rw [storeBytes_toCore]
    exact h.skip_eq
  have hstep := hexec.step_eq hlow
  have hsreg : ((m.fetched d).storeBytes o.dest o.bytes).memory sreg = m.memory sreg :=
    storeBytes_memory_of_ne fun k hk => by
      unfold sreg
      omega
  rw [next_eq hstep]
  refine ⟨hstep, fun i hi => ?_, fun i hi _ => ?_, fun a ha hout => ?_⟩
  · have hne : o.dest + i ≠ sreg := by
      unfold sreg
      omega
    exact (Function.update_of_ne hne _ _).trans (storeBytes_memory hi)
  · have hmerge := hstatus.merge (m.memory sreg) hi
    rw [← hmerge, ← hsreg]
    exact congrArg (fun b => BitVec.getLsbD b i) (Function.update_self sreg _
      ((m.fetched d).storeBytes o.dest o.bytes).memory)
  · exact (Function.update_of_ne ha _ _).trans (storeBytes_memory_of_ne hout)

end Step

/-! ## The handlers -/

theorem exec_carryIn (carryMode : Bool) :
    exec (carryIn carryMode) m = .ok (carryMode && (m.memory sreg).getLsbD 0, m) := by
  have hbit : nonzero (m.memory sreg &&& sregC) = (m.memory sreg).getLsbD 0 :=
    Bits.and_twoPow_ne_zero (show 0 < 8 by decide) _
  cases carryMode with
  | false => rfl
  | true => rw [carryIn, if_pos rfl, exec_sregHas, hbit, Bool.true_and]

theorem exec_instrAdc : exec (instrAdc idc) m =
    let rd := m.memory idc.ddddd.toNat
    let rr := m.memory idc.rrrrr.toNat
    let res := addByte rd rr (bitField idc.instr 12 12 != 0 && (m.memory sreg).getLsbD 0)
    .ok (idc.withFlags (adcFlags8 res rd rr idc.toFlags), m.setMem idc.ddddd.toNat res) := by
  simp only [instrAdc, exec_bind, exec_bits (show 12 < 16 by decide) (show 12 ≤ 12 by decide),
    exec_mem (byte_lt_memorySize _), exec_carryIn, exec_setMem (byte_lt_memorySize _), exec_pure,
    addByte, InstrDecodeCommon.withFlags]

theorem exec_instrCpc : exec (instrCpc idc) m =
    let rd := m.memory idc.ddddd.toNat
    let rr := m.memory idc.rrrrr.toNat
    let res := subByte rd rr (bitField idc.instr 12 12 == 0 && (m.memory sreg).getLsbD 0)
    let f := subFlags8 res rd rr idc.toFlags
    .ok (idc.withFlags { f with setflags := f.setflags &&& ~~~sregZ },
      if bitField idc.instr 11 10 >>> 10 == 1 then m else m.setMem idc.ddddd.toNat res) := by
  simp only [instrCpc, exec_bind, exec_bits (show 12 < 16 by decide) (show 12 ≤ 12 by decide),
    exec_bits (show 11 < 16 by decide) (show 10 ≤ 11 by decide), exec_mem (byte_lt_memorySize _),
    exec_carryIn, exec_when, exec_setMem (byte_lt_memorySize _), exec_pure, subByte,
    InstrDecodeCommon.withFlags]
  cases bitField idc.instr 11 10 >>> 10 == 1 <;> rfl

theorem exec_instrCpi : exec (instrCpi idc) m =
    let rd := m.memory idc.ddddd.toNat
    let res := subByte rd idc.immU8 (bitField idc.instr 12 12 == 0 && (m.memory sreg).getLsbD 0)
    .ok (idc.withFlags (subFlags8 res rd idc.immU8 idc.toFlags),
      if bitField idc.instr 14 13 >>> 13 == 2 then m.setMem idc.ddddd.toNat res else m) := by
  simp only [instrCpi, exec_bind, exec_bits (show 12 < 16 by decide) (show 12 ≤ 12 by decide),
    exec_bits (show 14 < 16 by decide) (show 13 ≤ 14 by decide), exec_mem (byte_lt_memorySize _),
    exec_carryIn, exec_when, exec_setMem (byte_lt_memorySize _), exec_pure, subByte,
    InstrDecodeCommon.withFlags]
  cases bitField idc.instr 14 13 >>> 13 == 2 <;> rfl

theorem exec_instrAnd : exec (instrAnd idc) m =
    let res := m.memory idc.ddddd.toNat &&& m.memory idc.rrrrr.toNat
    .ok (idc.withFlags (logicFlags8 res idc.toFlags), m.setMem idc.ddddd.toNat res) := by
  simp only [instrAnd, exec_bind, exec_mem (byte_lt_memorySize _),
    exec_andMem (byte_lt_memorySize _), exec_pure, setMem_memory, Function.update_self,
    InstrDecodeCommon.withFlags]

theorem exec_instrAndi : exec (instrAndi idc) m =
    let res := m.memory idc.ddddd.toNat &&& idc.immU8
    .ok (idc.withFlags (logicFlags8 res idc.toFlags), m.setMem idc.ddddd.toNat res) := by
  simp only [instrAndi, exec_bind, exec_mem (byte_lt_memorySize _),
    exec_andMem (byte_lt_memorySize _), exec_pure, setMem_memory, Function.update_self,
    InstrDecodeCommon.withFlags]

theorem exec_instrOr : exec (instrOr idc) m =
    let res := m.memory idc.ddddd.toNat ||| m.memory idc.rrrrr.toNat
    .ok (idc.withFlags (logicFlags8 res idc.toFlags), m.setMem idc.ddddd.toNat res) := by
  simp only [instrOr, exec_bind, exec_mem (byte_lt_memorySize _), exec_orMem (byte_lt_memorySize _),
    exec_pure, setMem_memory, Function.update_self, InstrDecodeCommon.withFlags]

theorem exec_instrOri : exec (instrOri idc) m =
    let res := m.memory idc.ddddd.toNat ||| idc.immU8
    .ok (idc.withFlags (logicFlags8 res idc.toFlags), m.setMem idc.ddddd.toNat res) := by
  simp only [instrOri, exec_bind, exec_mem (byte_lt_memorySize _),
    exec_orMem (byte_lt_memorySize _), exec_pure, setMem_memory, Function.update_self,
    InstrDecodeCommon.withFlags]

theorem exec_instrXor : exec (instrXor idc) m =
    let res := m.memory idc.ddddd.toNat ^^^ m.memory idc.rrrrr.toNat
    .ok (idc.withFlags (logicFlags8 res idc.toFlags), m.setMem idc.ddddd.toNat res) := by
  simp only [instrXor, exec_bind, exec_mem (byte_lt_memorySize _),
    exec_setMem (byte_lt_memorySize _), exec_pure, setMem_memory, Function.update_self,
    InstrDecodeCommon.withFlags]

theorem exec_instrAsr : exec (instrAsr idc) m =
    let rd := m.memory idc.ddddd.toNat
    let res := rd >>> 1 ||| (0x80 &&& rd)
    .ok (idc.withFlags (asrFlags8 res rd idc.toFlags), m.setMem idc.ddddd.toNat res) := by
  simp only [instrAsr, exec_bind, exec_mem (byte_lt_memorySize _),
    exec_setMem (byte_lt_memorySize _), exec_pure, InstrDecodeCommon.withFlags]

theorem exec_instrLsr : exec (instrLsr idc) m =
    let rd := m.memory idc.ddddd.toNat
    let res := rd >>> 1
    .ok (idc.withFlags (asrFlags8 res rd idc.toFlags), m.setMem idc.ddddd.toNat res) := by
  simp only [instrLsr, exec_bind, exec_mem (byte_lt_memorySize _),
    exec_setMem (byte_lt_memorySize _), exec_pure, InstrDecodeCommon.withFlags]

theorem exec_instrRor : exec (instrRor idc) m =
    let rd := m.memory idc.ddddd.toNat
    let res := if (m.memory sreg).getLsbD 0 then rd >>> 1 ||| 0x80 else rd >>> 1
    .ok (idc.withFlags (asrFlags8 res rd idc.toFlags), m.setMem idc.ddddd.toNat res) := by
  have hbit : nonzero (m.memory sreg &&& sregC) = (m.memory sreg).getLsbD 0 :=
    Bits.and_twoPow_ne_zero (show 0 < 8 by decide) _
  simp only [instrRor, exec_bind, exec_mem (byte_lt_memorySize _), exec_sregHas, hbit,
    exec_setMem (byte_lt_memorySize _), exec_pure, InstrDecodeCommon.withFlags]

theorem exec_instrMul : exec (instrMul idc) m =
    let res : Word :=
      (m.memory idc.ddddd.toNat).setWidth 16 * (m.memory idc.rrrrr.toNat).setWidth 16
    .ok (idc.withFlags (mulFlags16 res idc.toFlags), m.setWord 0 res) := by
  have hzero : (0 : BitVec 32).toNat = 0 := rfl
  simp only [instrMul, exec_bind, exec_mem (byte_lt_memorySize _),
    exec_memwriteword (show (0 : BitVec 32).toNat % 2 = 0 by decide)
      (show (0 : BitVec 32).toNat + 1 < memorySize by decide), hzero, exec_pure,
    InstrDecodeCommon.withFlags]

theorem exec_instrMuls : exec (instrMuls idc) m =
    let res : Word := (m.memory idc.ddddd.toNat).signExtend 16 *
      (m.memory idc.rrrrr.toNat).signExtend 16
    .ok (idc.withFlags (mulFlags16 res idc.toFlags), m.setWord 0 res) := by
  have hzero : (0 : BitVec 32).toNat = 0 := rfl
  simp only [instrMuls, exec_bind, exec_mem (byte_lt_memorySize _),
    exec_memwriteword (show (0 : BitVec 32).toNat % 2 = 0 by decide)
      (show (0 : BitVec 32).toNat + 1 < memorySize by decide), hzero, exec_pure,
    InstrDecodeCommon.withFlags]

theorem exec_instrMulsu : exec (instrMulsu idc) m =
    let res : Word := (m.memory idc.ddddd.toNat).signExtend 16 *
      (m.memory idc.rrrrr.toNat).setWidth 16
    .ok (idc.withFlags (mulFlags16 res idc.toFlags), m.setWord 0 res) := by
  have hzero : (0 : BitVec 32).toNat = 0 := rfl
  simp only [instrMulsu, exec_bind, exec_mem (byte_lt_memorySize _),
    exec_memwriteword (show (0 : BitVec 32).toNat % 2 = 0 by decide)
      (show (0 : BitVec 32).toNat + 1 < memorySize by decide), hzero, exec_pure,
    InstrDecodeCommon.withFlags]

theorem exec_instrFmul : exec (instrFmul idc) m =
    let res : Word :=
      (m.memory idc.ddddd.toNat).setWidth 16 * (m.memory idc.rrrrr.toNat).setWidth 16
    .ok (idc.withFlags (fmulFlags16 res idc.toFlags), m.setWord 0 (res <<< 1)) := by
  have hzero : (0 : BitVec 32).toNat = 0 := rfl
  simp only [instrFmul, exec_bind, exec_mem (byte_lt_memorySize _),
    exec_memwriteword (show (0 : BitVec 32).toNat % 2 = 0 by decide)
      (show (0 : BitVec 32).toNat + 1 < memorySize by decide), hzero, exec_pure,
    InstrDecodeCommon.withFlags]

theorem exec_instrFmulsu : exec (instrFmulsu idc) m =
    let r := m.memory idc.rrrrr.toNat
    let res : Word := (m.memory idc.ddddd.toNat).signExtend 16 *
      if bitField idc.instr 3 3 != 0 then r.setWidth 16 else r.signExtend 16
    .ok (idc.withFlags (fmulFlags16 res idc.toFlags), m.setWord 0 (res <<< 1)) := by
  have hzero : (0 : BitVec 32).toNat = 0 := rfl
  simp only [instrFmulsu, exec_bind, exec_bits (show 3 < 16 by decide) (show 3 ≤ 3 by decide),
    exec_mem (byte_lt_memorySize _),
    exec_memwriteword (show (0 : BitVec 32).toNat % 2 = 0 by decide)
      (show (0 : BitVec 32).toNat + 1 < memorySize by decide), hzero, exec_pure,
    InstrDecodeCommon.withFlags]

theorem exec_instrCom : exec (instrCom idc) m =
    let res := 0xff - m.memory idc.ddddd.toNat
    let f := idc.toFlags
    let f := { f with setflags := f.setflags ||| sregC }
    let f := { f with clrflags := f.clrflags ||| sregV }
    let f := f.mark (res == 0) sregZ
    .ok (idc.withFlags (f.mark (nonzero (res &&& 0x80)) (sregN ||| sregS)),
      m.setMem idc.ddddd.toNat res) := by
  simp only [instrCom, exec_bind, exec_mem (byte_lt_memorySize _),
    exec_setMem (byte_lt_memorySize _), exec_pure, InstrDecodeCommon.withFlags]

theorem exec_instrNeg : exec (instrNeg idc) m =
    let rd := m.memory idc.ddddd.toNat
    let res := 0 - rd
    let f := idc.toFlags
    let f := if res == 0 then
        { setflags := f.setflags ||| sregZ, clrflags := f.clrflags ||| sregC : Flags }
      else { setflags := f.setflags ||| sregC, clrflags := f.clrflags ||| sregZ }
    let f := f.mark (nonzero (res &&& 0x80)) sregN
    let f := f.mark (res == 0x80) sregV
    let f := f.mark (nonzero (res &&& 0x08) || nonzero (rd &&& 0x08)) sregH
    .ok (idc.withFlags (f.mark (f.differ sregN sregV) sregS), m.setMem idc.ddddd.toNat res) := by
  simp only [instrNeg, exec_bind, exec_mem (byte_lt_memorySize _),
    exec_setMem (byte_lt_memorySize _), exec_pure, InstrDecodeCommon.withFlags]

theorem exec_instrInc : exec (instrInc idc) m =
    let res := m.memory idc.ddddd.toNat + 1
    let f := logicFlags8 res idc.toFlags
    .ok (idc.withFlags (if res == 0x80 then
        { clrflags := f.clrflags &&& ~~~sregV ||| sregS
          setflags := f.setflags &&& ~~~sregS ||| sregV : Flags }
      else f), m.setMem idc.ddddd.toNat res) := by
  simp only [instrInc, exec_bind, exec_mem (byte_lt_memorySize _),
    exec_setMem (byte_lt_memorySize _), exec_pure, InstrDecodeCommon.withFlags]

theorem exec_instrDec : exec (instrDec idc) m =
    let res := m.memory idc.ddddd.toNat - 1
    let f := logicFlags8 res idc.toFlags
    .ok (idc.withFlags (if res == 0x7f then
        { clrflags := f.clrflags &&& ~~~(sregV ||| sregS)
          setflags := f.setflags ||| (sregV ||| sregS) : Flags }
      else f), m.setMem idc.ddddd.toNat res) := by
  simp only [instrDec, exec_bind, exec_mem (byte_lt_memorySize _),
    exec_setMem (byte_lt_memorySize _), exec_pure, InstrDecodeCommon.withFlags]

/-! ## Outcomes -/

theorem fieldD_le (w : Word) : (fieldD w).toNat + 1 ≤ 32 := (fieldD w).isLt

theorem upper_le (k : BitVec 4) : 16 + k.toNat + 1 ≤ 32 := by
  have := k.isLt
  omega

/-- A byte with a given remainder is the byte of that number. -/
theorem eq_ofInt_of_toNat {n : ℕ} {b : BitVec n} {x : ℤ} (h : (b.toNat : ℤ) = x % 2 ^ n) :
    b = BitVec.ofInt n x := by
  apply BitVec.eq_of_toNat_eq
  rw [BitVec.toNat_ofInt]
  push_cast
  omega

theorem addByte_eq (rd rr : Byte) (carry : Bool) :
    addByte rd rr carry = BitVec.ofInt 8 (rd.toNat + rr.toNat + carry.toNat) := by
  apply eq_ofInt_of_toNat
  have := addByte_toNat rd rr carry
  omega

theorem subByte_eq (rd rr : Byte) (carry : Bool) :
    subByte rd rr carry = BitVec.ofInt 8 (rd.toNat - rr.toNat - carry.toNat) := by
  apply eq_ofInt_of_toNat
  have := subByte_toNat rd rr carry
  have := rr.isLt
  have := Bool.toNat_le carry
  omega

/-- A selected mode bit is that of the opcode. -/
theorem mode_set {op : Word × Word} {k : ℕ} (hk : k < 16) (h : IsOp op m.instrWord)
    (hmask : op.2.getLsbD k = true) : (bitField m.instrWord k k != 0) = op.1.getLsbD k := by
  rw [bitField_single_ne_zero hk, h.getLsbD_eq hmask]

theorem mode_clear {op : Word × Word} {k : ℕ} (hk : k < 16) (h : IsOp op m.instrWord)
    (hmask : op.2.getLsbD k = true) : (bitField m.instrWord k k == 0) = !op.1.getLsbD k := by
  rw [← mode_set hk h hmask, bne, Bool.not_not]

section Outcomes

variable [DesLibrary]

/-- ADD and ADC, told apart by one bit. -/
theorem realized_adc {op : Word × Word} (carry : Bool) (h : m.Ready op)
    (hrow : IsOp (0x0c00, 0xec00) m.instrWord)
    (hmask : op.2.getLsbD 12 = true) (hmode : (op.1.getLsbD 12) = carry) :
    m.step = .ok m.next ∧ (Outcome.sum (fieldD m.instrWord).toNat m.rd m.rr
      (carry && m.carry)).Realized [] m m.next := by
  have hbit := (mode_set (by decide) h.isOp hmask).trans hmode
  refine realized_of_exec h (lookup_adc hrow) rfl
    (adcFlags8_encodes m.rd m.rr (carry && m.carry)) (fieldD_le _) ?_
  rw [exec_instrAdc, operands_ddddd84_toNat _ rfl rfl rfl, operands_rrrrr9_30_toNat _ rfl rfl rfl,
    operands_instr, decoded_instr, fetched_memory, hbit]
  simp only [Outcome.sum, Outcome.byte, ← addByte_eq]
  rfl

/-- A zero result leaves the zero bit as it was. -/
def Status.keepZ (st : Status) : Status := { st with z := if st.z = some true then none else st.z }

omit [DesLibrary] in
theorem keepZ_bit {st : Status} : ∀ i < 8, i ∉ [1] → st.keepZ.bit i = st.bit i := by
  intro i _ hi
  rw [List.mem_singleton] at hi
  unfold Status.bit
  split <;> first | rfl | exact absurd rfl hi

omit [DesLibrary] in
theorem keepZ_encodes {f : Flags} {st : Status} (h : f.Encodes st) :
    Flags.Encodes { f with setflags := f.setflags &&& ~~~sregZ } st.keepZ := by
  intro i hi
  obtain ⟨hset, hclr⟩ := h i hi
  rw [BitVec.getLsbD_and, hset]
  by_cases hz : i = 1
  · subst hz
    refine ⟨?_, ?_⟩
    · simp only [Status.keepZ, Status.bit]
      rcases st.z with _ | _ | _ <;> rfl
    · rw [hclr]
      simp only [Status.keepZ, Status.bit]
      rcases st.z with _ | _ | _ <;> rfl
  · have hbit : st.keepZ.bit i = st.bit i := keepZ_bit i hi (by simpa using hz)
    have hmask : (~~~sregZ).getLsbD i = true := by
      interval_cases i <;> first | rfl | exact absurd rfl hz
    rw [hbit, hmask, Bool.and_true]
    exact ⟨rfl, hclr⟩

/-- CP and CPC. -/
theorem realized_compare {op : Word × Word} (carry : Bool) (h : m.Ready op)
    (hrow : IsOp (0x0400, 0xec00) m.instrWord)
    (hmask : op.2.getLsbD 12 = true) (hmode : (!op.1.getLsbD 12) = carry) :
    m.step = .ok m.next ∧ (Outcome.test (Status.difference m.rd m.rr
      (carry && m.carry)).keepZ).Realized [] m m.next := by
  have hbit := (mode_clear (by decide) h.isOp hmask).trans hmode
  have hnostore : (bitField m.instrWord 11 10 >>> 10 == 1) = true := by
    rw [hrow.bitField_eq (by decide)]
    rfl
  refine realized_of_exec h (lookup_cpc hrow) rfl
    (keepZ_encodes (subFlags8_encodes m.rd m.rr (carry && m.carry))) (Nat.zero_le _) ?_
  rw [exec_instrCpc, operands_ddddd84_toNat _ rfl rfl rfl, operands_rrrrr9_30_toNat _ rfl rfl rfl,
    operands_instr, decoded_instr, fetched_memory, hbit, hnostore]
  rfl

/-- SUB and SBC. -/
theorem realized_subtract {op : Word × Word} (carry : Bool) (h : m.Ready op)
    (hrow : IsOp (0x0800, 0xec00) m.instrWord)
    (hmask : op.2.getLsbD 12 = true) (hmode : (!op.1.getLsbD 12) = carry) :
    m.step = .ok m.next ∧
      { Outcome.difference (fieldD m.instrWord).toNat m.rd m.rr (carry && m.carry)
        with status := (Status.difference m.rd m.rr (carry && m.carry)).keepZ }.Realized
          [] m m.next := by
  have hbit := (mode_clear (by decide) h.isOp hmask).trans hmode
  have hstore : (bitField m.instrWord 11 10 >>> 10 == 1) = false := by
    rw [hrow.bitField_eq (by decide)]
    rfl
  refine realized_of_exec h (lookup_sub hrow) rfl
    (keepZ_encodes (subFlags8_encodes m.rd m.rr (carry && m.carry))) (fieldD_le _) ?_
  rw [exec_instrCpc, operands_ddddd84_toNat _ rfl rfl rfl, operands_rrrrr9_30_toNat _ rfl rfl rfl,
    operands_instr, decoded_instr, fetched_memory, hbit, hstore]
  simp only [Outcome.difference, Outcome.byte, ← subByte_eq]
  rfl

/-- CPI. -/
theorem realized_cpi (h : m.Ready AluOp.cpi.opcode) :
    m.step = .ok m.next ∧ (AluOp.cpi.outcome m).Realized [] m m.next := by
  have hnostore : (bitField m.instrWord 14 13 >>> 13 == 2) = false := by
    rw [h.isOp.bitField_eq (by decide)]
    rfl
  have hmode : (bitField m.instrWord 12 12 == 0) = false := by
    rw [h.isOp.bitField_eq (by decide)]
    rfl
  refine realized_of_exec h (lookup_cpi h.isOp) rfl (subFlags8_encodes m.rdUpper m.imm false)
    (Nat.zero_le _) ?_
  rw [exec_instrCpi, operands_dddd74_toNat _ rfl rfl, operands_kkkk118_30 _ rfl, operands_instr,
    decoded_instr, fetched_memory, hmode, hnostore]
  rfl

/-- SUBI and SBCI. -/
theorem realized_subi {op : Word × Word} (carry : Bool) (h : m.Ready op)
    (hrow : IsOp (0x4000, 0xe000) m.instrWord)
    (hmask : op.2.getLsbD 12 = true) (hmode : (!op.1.getLsbD 12) = carry) :
    m.step = .ok m.next ∧
      (Outcome.difference m.upperD m.rdUpper m.imm (carry && m.carry)).Realized [] m m.next := by
  have hbit := (mode_clear (by decide) h.isOp hmask).trans hmode
  have hstore : (bitField m.instrWord 14 13 >>> 13 == 2) = true := by
    rw [hrow.bitField_eq (by decide)]
    rfl
  refine realized_of_exec h (lookup_sbci hrow) rfl
    (subFlags8_encodes m.rdUpper m.imm (carry && m.carry)) (upper_le _) ?_
  rw [exec_instrCpi, operands_dddd74_toNat _ rfl rfl, operands_kkkk118_30 _ rfl, operands_instr,
    decoded_instr, fetched_memory, hbit, hstore]
  simp only [Outcome.difference, Outcome.byte, ← subByte_eq]
  rfl

/-! ## Bitwise instructions -/

omit [DesLibrary] in
theorem logic_encodes (res : Byte) : (logicFlags8 res {}).Encodes (Status.logic res) := by
  have henc := logicFlags8_encodes res
  rwa [nonzero_and_high, byte_beq_zero] at henc

theorem realized_and (h : m.Ready AluOp.and.opcode) :
    m.step = .ok m.next ∧ (AluOp.and.outcome m).Realized [] m m.next := by
  refine realized_of_exec h (lookup_and h.isOp) rfl (logic_encodes (m.rd &&& m.rr)) (fieldD_le _) ?_
  rw [exec_instrAnd, operands_ddddd84_toNat _ rfl rfl rfl, operands_rrrrr9_30_toNat _ rfl rfl rfl]
  rfl

theorem realized_andi (h : m.Ready AluOp.andi.opcode) :
    m.step = .ok m.next ∧ (AluOp.andi.outcome m).Realized [] m m.next := by
  refine realized_of_exec h (lookup_andi h.isOp) rfl (logic_encodes (m.rdUpper &&& m.imm))
    (upper_le _) ?_
  rw [exec_instrAndi, operands_dddd74_toNat _ rfl rfl, operands_kkkk118_30 _ rfl]
  rfl

theorem realized_or (h : m.Ready AluOp.or.opcode) :
    m.step = .ok m.next ∧ (AluOp.or.outcome m).Realized [] m m.next := by
  refine realized_of_exec h (lookup_or h.isOp) rfl (logic_encodes (m.rd ||| m.rr)) (fieldD_le _) ?_
  rw [exec_instrOr, operands_ddddd84_toNat _ rfl rfl rfl, operands_rrrrr9_30_toNat _ rfl rfl rfl]
  rfl

theorem realized_ori (h : m.Ready AluOp.ori.opcode) :
    m.step = .ok m.next ∧ (AluOp.ori.outcome m).Realized [] m m.next := by
  refine realized_of_exec h (lookup_ori h.isOp) rfl (logic_encodes (m.rdUpper ||| m.imm))
    (upper_le _) ?_
  rw [exec_instrOri, operands_dddd74_toNat _ rfl rfl, operands_kkkk118_30 _ rfl]
  rfl

theorem realized_eor (h : m.Ready AluOp.eor.opcode) :
    m.step = .ok m.next ∧ (AluOp.eor.outcome m).Realized [] m m.next := by
  refine realized_of_exec h (lookup_xor h.isOp) rfl (logic_encodes (m.rd ^^^ m.rr)) (fieldD_le _) ?_
  rw [exec_instrXor, operands_ddddd84_toNat _ rfl rfl rfl, operands_rrrrr9_30_toNat _ rfl rfl rfl]
  rfl

/-! ## Shifts and single-operand instructions -/

omit [DesLibrary] in
theorem shift_encodes (res rd : Byte) :
    (asrFlags8 res rd {}).Encodes (Status.shift res (rd.toNat % 2 == 1)) := by
  have henc := asrFlags8_encodes res rd
  have hout : nonzero (rd &&& 0x1) = (rd.toNat % 2 == 1) := by
    have hbit : nonzero (rd &&& 0x1) = rd.getLsbD 0 :=
      Bits.and_twoPow_ne_zero (show 0 < 8 by decide) rd
    rw [hbit, Bits.getLsbD_eq_decide, pow_zero, Nat.div_one, beq_eq_decide]
  rwa [nonzero_and_high, byte_beq_zero, hout] at henc

omit [DesLibrary] in
/-- The bit that a right shift leaves free. -/
theorem shiftRight_or_high (x : Byte) : (x >>> 1 ||| 0x80).toNat = x.toNat / 2 + 128 := by
  have hx := x.isLt
  have hlow : x.toNat / 2 < 2 ^ 7 := by omega
  have hsum := Nat.two_pow_add_eq_or_of_lt hlow 1
  rw [BitVec.toNat_or, BitVec.toNat_ushiftRight, Nat.shiftRight_eq_div_pow, pow_one, Nat.or_comm]
  change 2 ^ 7 * 1 ||| x.toNat / 2 = _
  omega

omit [DesLibrary] in
theorem asr_eq (rd : Byte) : rd >>> 1 ||| (0x80 &&& rd) = BitVec.ofInt 8 (rd.toInt / 2) := by
  apply eq_ofInt_of_toNat
  have hrd := rd.isLt
  have hsign : 0x80 &&& rd = if rd.getLsbD 7 then 0x80 else 0#8 :=
    (BitVec.and_comm _ _).trans (BitVec.and_twoPow rd 7)
  rw [hsign, Bits.getLsbD_eq_decide_le, BitVec.toInt_eq_toNat_cond]
  by_cases hneg : 128 ≤ rd.toNat
  · rw [if_pos (by simp; omega), if_neg (by omega), shiftRight_or_high]
    push_cast
    omega
  · rw [if_neg (by simp; omega), if_pos (by omega), BitVec.or_zero, BitVec.toNat_ushiftRight,
      Nat.shiftRight_eq_div_pow]
    push_cast
    omega

omit [DesLibrary] in
theorem lsr_eq (rd : Byte) : rd >>> 1 = BitVec.ofInt 8 (rd.toNat / 2) := by
  apply eq_ofInt_of_toNat
  have hrd := rd.isLt
  rw [BitVec.toNat_ushiftRight, Nat.shiftRight_eq_div_pow]
  omega

omit [DesLibrary] in
theorem ror_eq (rd : Byte) (carry : Bool) : (if carry then rd >>> 1 ||| 0x80 else rd >>> 1) =
    BitVec.ofInt 8 (rd.toNat / 2 + 128 * carry.toNat) := by
  cases carry with
  | false => simpa using lsr_eq rd
  | true =>
    apply eq_ofInt_of_toNat
    have hrd := rd.isLt
    rw [if_pos rfl, shiftRight_or_high, Bool.toNat_true]
    push_cast
    omega

theorem realized_asr (h : m.Ready AluOp.asr.opcode) :
    m.step = .ok m.next ∧ (AluOp.asr.outcome m).Realized [] m m.next := by
  refine realized_of_exec h (lookup_asr h.isOp) rfl (shift_encodes _ m.rd) (fieldD_le _) ?_
  rw [exec_instrAsr, operands_ddddd84_toNat _ rfl rfl rfl]
  simp only [asr_eq]
  rfl

theorem realized_lsr (h : m.Ready AluOp.lsr.opcode) :
    m.step = .ok m.next ∧ (AluOp.lsr.outcome m).Realized [] m m.next := by
  refine realized_of_exec h (lookup_lsr h.isOp) rfl (shift_encodes _ m.rd) (fieldD_le _) ?_
  rw [exec_instrLsr, operands_ddddd84_toNat _ rfl rfl rfl]
  simp only [lsr_eq]
  rfl

theorem realized_ror (h : m.Ready AluOp.ror.opcode) :
    m.step = .ok m.next ∧ (AluOp.ror.outcome m).Realized [] m m.next := by
  refine realized_of_exec h (lookup_ror h.isOp) rfl (shift_encodes _ m.rd) (fieldD_le _) ?_
  rw [exec_instrRor, operands_ddddd84_toNat _ rfl rfl rfl]
  simp only [ror_eq]
  rfl

theorem realized_com (h : m.Ready AluOp.com.opcode) :
    m.step = .ok m.next ∧ (AluOp.com.outcome m).Realized [] m m.next := by
  have hres : (0xff : Byte) - m.rd = BitVec.ofInt 8 (255 - m.rd.toNat) := by
    apply eq_ofInt_of_toNat
    have hrd := m.rd.isLt
    rw [BitVec.toNat_sub]
    change (((2 ^ 8 - m.rd.toNat + 255) % 2 ^ 8 : ℕ) : ℤ) = _
    omega
  have hnot : (0xff : Byte) - m.rd = ~~~m.rd := BitVec.allOnes_sub_eq_not m.rd
  have henc := com_encodes (0xff - m.rd)
  rw [hnot] at henc
  refine realized_of_exec h (lookup_com h.isOp) rfl henc (fieldD_le _) ?_
  rw [exec_instrCom, operands_ddddd84_toNat _ rfl rfl rfl]
  change Except.ok (_, (m.fetched _).setMem _ (0xff - m.rd)) =
    Except.ok (_, (m.fetched _).setMem _ (BitVec.ofInt 8 (255 - m.rd.toNat)))
  rw [← hres, ← hnot]
  rfl

theorem realized_neg (h : m.Ready AluOp.neg.opcode) :
    m.step = .ok m.next ∧ (AluOp.neg.outcome m).Realized [] m m.next := by
  refine realized_of_exec h (lookup_neg h.isOp) rfl (neg_encodes m.rd) (fieldD_le _) ?_
  rw [exec_instrNeg, operands_ddddd84_toNat _ rfl rfl rfl]
  simp only [AluOp.outcome, Outcome.difference, Outcome.byte, ← subByte_eq]
  rfl

theorem realized_inc (h : m.Ready AluOp.inc.opcode) :
    m.step = .ok m.next ∧ (AluOp.inc.outcome m).Realized [] m m.next := by
  have hres : m.rd + 1 = BitVec.ofInt 8 (m.rd.toNat + 1) := by
    apply eq_ofInt_of_toNat
    rw [BitVec.toNat_add]
    rfl
  refine realized_of_exec h (lookup_inc h.isOp) rfl (inc_encodes m.rd) (fieldD_le _) ?_
  rw [exec_instrInc, operands_ddddd84_toNat _ rfl rfl rfl]
  simp only [AluOp.outcome, Outcome.byte, ← hres]
  rfl

theorem realized_dec (h : m.Ready AluOp.dec.opcode) :
    m.step = .ok m.next ∧ (AluOp.dec.outcome m).Realized [] m m.next := by
  have hres : m.rd - 1 = BitVec.ofInt 8 (m.rd.toNat - 1) := by
    apply eq_ofInt_of_toNat
    have hrd := m.rd.isLt
    rw [BitVec.toNat_sub]
    change (((2 ^ 8 - 1 + m.rd.toNat) % 2 ^ 8 : ℕ) : ℤ) = _
    omega
  refine realized_of_exec h (lookup_dec h.isOp) rfl (dec_encodes m.rd) (fieldD_le _) ?_
  rw [exec_instrDec, operands_ddddd84_toNat _ rfl rfl rfl]
  simp only [AluOp.outcome, Outcome.byte, ← hres]
  rfl

/-! ## Results of two bytes -/

omit [DesLibrary] in
/-- An integer as the value of a word. -/
theorem ofInt_toNat (x : ℤ) : ((BitVec.ofInt 16 x).toNat : ℤ) = x % 2 ^ 16 := by
  rw [BitVec.toNat_ofInt]
  exact Int.toNat_of_nonneg (Int.emod_nonneg _ (by decide))

omit [DesLibrary] in
theorem low_byte (y : Word) {x : ℤ} (hy : (y.toNat : ℤ) % 2 ^ 8 = x % 2 ^ 8) :
    (y &&& 0xff).setWidth 8 = BitVec.ofInt 8 x := by
  apply eq_ofInt_of_toNat
  have hmask := Bits.toNat_and_low (show 8 ≤ 16 by decide) y
  rw [BitVec.toNat_setWidth]
  change (((y &&& BitVec.ofNat 16 (2 ^ 8 - 1)).toNat % 2 ^ 8 : ℕ) : ℤ) = _
  rw [hmask, Nat.mod_mod, Int.natCast_mod, ← hy]
  rfl

omit [DesLibrary] in
/-- A word store, byte by byte. -/
theorem setWord_ofInt (i : ℕ) (x : ℤ) : m.setWord i (BitVec.ofInt 16 x) =
    m.storeBytes i [BitVec.ofInt 8 x, BitVec.ofInt 8 (x / 2 ^ 8)] := by
  have hword := ofInt_toNat x
  have hlow : (BitVec.ofInt 16 x &&& 0xff).setWidth 8 = BitVec.ofInt 8 x :=
    low_byte _ (by omega)
  have hhigh : (BitVec.ofInt 16 x >>> 8 &&& 0xff).setWidth 8 = BitVec.ofInt 8 (x / 2 ^ 8) := by
    apply low_byte
    rw [BitVec.toNat_ushiftRight, Nat.shiftRight_eq_div_pow]
    omega
  rw [Machine.setWord, hlow, hhigh]
  rfl

omit [DesLibrary] in
theorem mul_encodes (x : ℤ) :
    (mulFlags16 (BitVec.ofInt 16 x) {}).Encodes (Status.product x x) := by
  have henc := mulFlags16_encodes (BitVec.ofInt 16 x)
  have hres := ofInt_toNat x
  rwa [word_and_high, word_beq_zero, decide_word_high_eq hres, decide_word_zero_eq hres] at henc

omit [DesLibrary] in
theorem shiftLeft_ofInt (x : ℤ) : BitVec.ofInt 16 x <<< 1 = BitVec.ofInt 16 (2 * x) := by
  apply eq_ofInt_of_toNat
  have hword := ofInt_toNat x
  rw [BitVec.toNat_shiftLeft, Nat.shiftLeft_eq]
  push_cast
  omega

omit [DesLibrary] in
theorem fmul_encodes (x : ℤ) :
    (fmulFlags16 (BitVec.ofInt 16 x) {}).Encodes (Status.product x (2 * x)) := by
  have henc := fmulFlags16_encodes (BitVec.ofInt 16 x)
  have hres := ofInt_toNat x
  have hdouble := ofInt_toNat (2 * x)
  rwa [word_and_high, shiftLeft_ofInt, word_beq_zero, decide_word_high_eq hres,
    decide_word_zero_eq hdouble] at henc

omit [DesLibrary] in
theorem setWidth_eq_ofInt (b : Byte) : (b.setWidth 16 : Word) = BitVec.ofInt 16 b.toNat := by
  rw [BitVec.ofInt_natCast, BitVec.ofNat_toNat]

omit [DesLibrary] in
theorem signExtend_eq_ofInt (b : Byte) : (b.signExtend 16 : Word) = BitVec.ofInt 16 b.toInt := rfl

omit [DesLibrary] in
theorem low_pair_le : 0 + 2 ≤ 32 := by decide

theorem realized_mul (h : m.Ready AluOp.mul.opcode) :
    m.step = .ok m.next ∧ (AluOp.mul.outcome m).Realized [] m m.next := by
  refine realized_of_exec h (lookup_mul h.isOp) rfl (mul_encodes (m.rd.toNat * m.rr.toNat))
    low_pair_le ?_
  rw [exec_instrMul, operands_ddddd84_toNat _ rfl rfl rfl, operands_rrrrr9_30_toNat _ rfl rfl rfl]
  simp only [setWidth_eq_ofInt, ← BitVec.ofInt_mul, setWord_ofInt]
  rfl

theorem realized_muls (h : m.Ready AluOp.muls.opcode) :
    m.step = .ok m.next ∧ (AluOp.muls.outcome m).Realized [] m m.next := by
  refine realized_of_exec h (lookup_muls h.isOp) rfl
    (mul_encodes (m.rdUpper.toInt * m.rrUpper.toInt))
    low_pair_le ?_
  rw [exec_instrMuls, operands_dddd74_toNat _ rfl rfl, operands_rrrr30_toNat _ rfl rfl]
  simp only [signExtend_eq_ofInt, ← BitVec.ofInt_mul, setWord_ofInt]
  rfl

theorem realized_mulsu (h : m.Ready AluOp.mulsu.opcode) :
    m.step = .ok m.next ∧ (AluOp.mulsu.outcome m).Realized [] m m.next := by
  refine realized_of_exec h (lookup_mulsu h.isOp) rfl (mul_encodes (m.rdMid.toInt * m.rrMid.toNat))
    low_pair_le ?_
  rw [exec_instrMulsu, operands_ddd64_toNat _ rfl, operands_rrr20_toNat _ rfl]
  simp only [signExtend_eq_ofInt, setWidth_eq_ofInt, ← BitVec.ofInt_mul, setWord_ofInt]
  rfl

theorem realized_fmul (h : m.Ready AluOp.fmul.opcode) :
    m.step = .ok m.next ∧ (AluOp.fmul.outcome m).Realized [] m m.next := by
  refine realized_of_exec h (lookup_fmul h.isOp) rfl (fmul_encodes (m.rdMid.toNat * m.rrMid.toNat))
    low_pair_le ?_
  rw [exec_instrFmul, operands_ddd64_toNat _ rfl, operands_rrr20_toNat _ rfl]
  simp only [setWidth_eq_ofInt, ← BitVec.ofInt_mul, shiftLeft_ofInt, setWord_ofInt]
  rfl

/-- FMULS and FMULSU read their second operand differently. -/
theorem realized_fmulsu {op : Word × Word} (unsigned : Bool) (h : m.Ready op)
    (hrow : IsOp (0x0380, 0xff80) m.instrWord)
    (hmask : op.2.getLsbD 3 = true) (hmode : (op.1.getLsbD 3) = unsigned) :
    m.step = .ok m.next ∧ (Outcome.fraction (m.rdMid.toInt *
      if unsigned then (m.rrMid.toNat : ℤ) else m.rrMid.toInt)).Realized [] m m.next := by
  have hbit := (mode_set (by decide) h.isOp hmask).trans hmode
  refine realized_of_exec h (lookup_fmulsu hrow) rfl (fmul_encodes (m.rdMid.toInt *
    if unsigned then (m.rrMid.toNat : ℤ) else m.rrMid.toInt)) low_pair_le ?_
  rw [exec_instrFmulsu, operands_ddd64_toNat _ rfl, operands_rrr20_toNat _ rfl, operands_instr,
    decoded_instr, hbit]
  cases unsigned with
  | false =>
    simp only [Bool.false_eq_true, if_false, signExtend_eq_ofInt, ← BitVec.ofInt_mul,
      shiftLeft_ofInt, setWord_ofInt]
    rfl
  | true =>
    simp only [if_true, signExtend_eq_ofInt, setWidth_eq_ofInt, ← BitVec.ofInt_mul,
      shiftLeft_ofInt, setWord_ofInt]
    rfl

/-! ## Words and immediates -/

omit [DesLibrary] in
/-- The number of an upper pair, as the code computes it. -/
theorem pair_toNat (w : Word) : ((bitField w 5 4 >>> 3).setWidth 8 : Byte).toNat =
    2 * (w.extractLsb' 4 2).toNat := by
  have hshift := bitField_shift (show 5 < 16 by decide) (show 4 < 16 by decide) w
  have hfour := congrArg BitVec.toNat hshift
  have hfield : (w.extractLsb' 4 2).toNat < 4 := (w.extractLsb' 4 2).isLt
  have hmask : bitField w 5 4 = w &&& 0x30#16 := rfl
  have heven : (bitField w 5 4).toNat % 2 ^ 4 = 0 := by
    have hzero : bitField w 5 4 &&& BitVec.ofNat 16 (2 ^ 4 - 1) = 0#16 := by
      rw [hmask, BitVec.and_assoc]
      exact BitVec.and_zero
    rw [← Bits.toNat_and_low (show 4 ≤ 16 by decide), hzero]
    rfl
  rw [BitVec.toNat_ushiftRight, Nat.shiftRight_eq_div_pow, BitVec.toNat_setWidth_of_le (by decide)]
    at hfour
  change (bitField w 5 4).toNat / 16 = (w.extractLsb' 4 2).toNat at hfour
  rw [BitVec.toNat_setWidth, BitVec.toNat_ushiftRight, Nat.shiftRight_eq_div_pow]
  omega

omit [DesLibrary] in
theorem pair_le (w : Word) : 24 + 2 * (w.extractLsb' 4 2).toNat + 2 ≤ 32 := by
  have hfield : (w.extractLsb' 4 2).toNat < 4 := (w.extractLsb' 4 2).isLt
  omega

/-- The immediate of the word instructions, in the width of a word. -/
def wordImm (w : Word) : Word := (w.extractLsb' 6 2 ++ w.extractLsb' 0 4 : BitVec 6).setWidth 16

omit [DesLibrary] in
theorem wordImm_eq (w : Word) : bitField w 7 6 >>> 2 ||| bitField w 3 0 = wordImm w :=
  bitField_join (by decide) (by decide) (show 4 ≤ 6 by decide) rfl (by decide) w

omit [DesLibrary] in
theorem wordImm_toNat : (wordImm m.instrWord).toNat = m.wordImm :=
  BitVec.toNat_setWidth_of_le (by decide)

omit [DesLibrary] in
theorem wordImm_lt : m.wordImm < 64 := BitVec.isLt _

omit [DesLibrary] in
/-- The address of an upper pair. -/
theorem pairAddr_toNat (w : Word) :
    ((24#8 + (bitField w 5 4 >>> 3).setWidth 8 : Byte).setWidth 32 : BitVec 32).toNat =
      24 + 2 * (w.extractLsb' 4 2).toNat := by
  have hlt := pair_le w
  rw [BitVec.toNat_setWidth_of_le (by decide), BitVec.toNat_add, pair_toNat]
  change (24 + _) % 256 = _
  omega

omit [DesLibrary] in
theorem exec_instrAdiw : exec (instrAdiw idc) m =
    let dd := 24 + 2 * (idc.instr.extractLsb' 4 2).toNat
    let res := m.word dd + wordImm idc.instr
    .ok (idc.withFlags (adiwFlags16 res (m.word dd) idc.toFlags), m.setWord dd res) := by
  have haddr := pairAddr_toNat idc.instr
  have hlt := pair_le idc.instr
  simp only [instrAdiw, exec_bind, exec_bits (show 5 < 16 by decide) (show 4 ≤ 5 by decide),
    exec_bits (show 7 < 16 by decide) (show 6 ≤ 7 by decide),
    exec_bits (show 3 < 16 by decide) (show 0 ≤ 3 by decide), wordImm_eq]
  generalize ((24#8 + (bitField idc.instr 5 4 >>> 3).setWidth 8 : Byte).setWidth 32 : BitVec 32) =
    addr at haddr ⊢
  have heven : addr.toNat % 2 = 0 := by omega
  have hin : addr.toNat + 1 < memorySize := by
    unfold memorySize
    omega
  simp only [exec_memword heven hin, exec_memwriteword heven hin, exec_pure, haddr,
    InstrDecodeCommon.withFlags]

omit [DesLibrary] in
theorem exec_instrSbiw : exec (instrSbiw idc) m =
    let d := 24 + 2 * (idc.instr.extractLsb' 4 2).toNat
    let rd := m.word d
    let res := rd - wordImm idc.instr
    let f := idc.toFlags
    let f := f.mark (res == 0) sregZ
    let f := f.mark (0x8000 &&& res &&& ~~~rd != 0) sregC
    let f := f.mark (0x8000 &&& res != 0) sregN
    let f := f.mark (0x8000 &&& rd &&& ~~~res != 0) sregV
    .ok (idc.withFlags (f.mark (f.differ sregN sregV) sregS), m.setWord d res) := by
  have haddr := pairAddr_toNat idc.instr
  have hlt := pair_le idc.instr
  have himm : ((wordImm idc.instr).setWidth 8 : Byte).setWidth 16 = wordImm idc.instr := by
    apply BitVec.eq_of_toNat_eq
    have hbound : (wordImm idc.instr).toNat < 2 ^ 6 := Bits.toNat_setWidth_lt (Nat.le_refl 6) _
    rw [BitVec.toNat_setWidth_of_le (by decide), BitVec.toNat_setWidth]
    omega
  simp only [instrSbiw, exec_bind, exec_bits (show 5 < 16 by decide) (show 4 ≤ 5 by decide),
    exec_bits (show 7 < 16 by decide) (show 6 ≤ 7 by decide),
    exec_bits (show 3 < 16 by decide) (show 0 ≤ 3 by decide), wordImm_eq, himm]
  rw [BitVec.add_comm _ 24#8]
  generalize ((24#8 + (bitField idc.instr 5 4 >>> 3).setWidth 8 : Byte).setWidth 32 : BitVec 32) =
    addr at haddr ⊢
  have heven : addr.toNat % 2 = 0 := by omega
  have hin : addr.toNat + 1 < memorySize := by
    unfold memorySize
    omega
  simp only [exec_memword heven hin, exec_memwriteword heven hin, exec_pure, haddr,
    InstrDecodeCommon.withFlags]

theorem realized_adiw (h : m.Ready AluOp.adiw.opcode) :
    m.step = .ok m.next ∧ (AluOp.adiw.outcome m).Realized [] m m.next := by
  have hsum : m.word m.pairD + wordImm m.instrWord =
      BitVec.ofInt 16 ((m.word m.pairD).toNat + m.wordImm) := by
    apply eq_ofInt_of_toNat
    rw [BitVec.toNat_add, wordImm_toNat]
    rfl
  have hstore (n : Machine) : n.setWord m.pairD (m.word m.pairD + wordImm m.instrWord) =
      n.storeBytes m.pairD (AluOp.adiw.outcome m).bytes := by
    rw [hsum, setWord_ofInt]
    rfl
  have henc := adiwFlags16_encodes (m.word m.pairD) (k := wordImm m.instrWord)
    (by rw [wordImm_toNat]; exact wordImm_lt)
  rw [wordImm_toNat] at henc
  refine realized_of_exec h (lookup_adiw h.isOp) rfl henc (pair_le m.instrWord) ?_
  rw [exec_instrAdiw, operands_instr, decoded_instr]
  exact congrArg (fun n => Except.ok (_, n)) (hstore _)

theorem realized_sbiw (h : m.Ready AluOp.sbiw.opcode) :
    m.step = .ok m.next ∧ (AluOp.sbiw.outcome m).Realized [] m m.next := by
  have hdiff : m.word m.pairD - wordImm m.instrWord =
      BitVec.ofInt 16 ((m.word m.pairD).toNat - m.wordImm) := by
    apply eq_ofInt_of_toNat
    have hlt := wordImm_lt (m := m)
    rw [BitVec.toNat_sub, wordImm_toNat]
    push_cast
    omega
  have hstore (n : Machine) : n.setWord m.pairD (m.word m.pairD - wordImm m.instrWord) =
      n.storeBytes m.pairD (AluOp.sbiw.outcome m).bytes := by
    rw [hdiff, setWord_ofInt]
    rfl
  have henc := sbiw_encodes (m.word m.pairD) (k := wordImm m.instrWord)
    (by rw [wordImm_toNat]; exact wordImm_lt)
  rw [wordImm_toNat] at henc
  refine realized_of_exec h (lookup_sbiw h.isOp) rfl henc (pair_le m.instrWord) ?_
  rw [exec_instrSbiw, operands_instr, decoded_instr]
  exact congrArg (fun n => Except.ok (_, n)) (hstore _)

/-! ## All of them -/

/-- Every arithmetic or logic instruction does what it means, in every state: the step
completes, the destination holds the result, and each status bit has its value, where the
zero bit of subtractions and comparisons is left open. -/
theorem alu_meaning (op : AluOp) {m : Machine} (hskip : m.skipNextInstruction = false)
    (hpc : m.pc.toNat < flashSize) (hop : IsOp op.opcode m.instrWord) :
    ∃ m', m.step = .ok m' ∧
      (op.outcome m).Realized (if op.subtracts then [1] else []) m m' := by
  have hready : m.Ready op.opcode := ⟨hskip, hpc, hop⟩
  refine ⟨m.next, ?_⟩
  cases op with
  | add => exact realized_adc false hready (hop.coarsen rfl rfl) rfl rfl
  | adc => exact realized_adc true hready (hop.coarsen rfl rfl) rfl rfl
  | adiw => exact realized_adiw hready
  | sbiw => exact realized_sbiw hready
  | and => exact realized_and hready
  | andi => exact realized_andi hready
  | or => exact realized_or hready
  | ori => exact realized_ori hready
  | eor => exact realized_eor hready
  | com => exact realized_com hready
  | neg => exact realized_neg hready
  | inc => exact realized_inc hready
  | dec => exact realized_dec hready
  | asr => exact realized_asr hready
  | lsr => exact realized_lsr hready
  | ror => exact realized_ror hready
  | mul => exact realized_mul hready
  | muls => exact realized_muls hready
  | mulsu => exact realized_mulsu hready
  | fmul => exact realized_fmul hready
  | fmuls => exact realized_fmulsu false hready (hop.coarsen rfl rfl) rfl rfl
  | fmulsu => exact realized_fmulsu true hready (hop.coarsen rfl rfl) rfl rfl
  | cp =>
    obtain ⟨hstep, hreal⟩ := realized_compare false hready (hop.coarsen rfl rfl) rfl rfl
    exact ⟨hstep, hreal.exempt keepZ_bit⟩
  | cpc =>
    obtain ⟨hstep, hreal⟩ := realized_compare true hready (hop.coarsen rfl rfl) rfl rfl
    exact ⟨hstep, hreal.exempt keepZ_bit⟩
  | sub =>
    obtain ⟨hstep, hreal⟩ := realized_subtract false hready (hop.coarsen rfl rfl) rfl rfl
    exact ⟨hstep, hreal.exempt keepZ_bit⟩
  | sbc =>
    obtain ⟨hstep, hreal⟩ := realized_subtract true hready (hop.coarsen rfl rfl) rfl rfl
    exact ⟨hstep, hreal.exempt keepZ_bit⟩
  | cpi =>
    obtain ⟨hstep, hreal⟩ := realized_cpi hready
    exact ⟨hstep, hreal.exempt fun _ _ _ => rfl⟩
  | subi =>
    obtain ⟨hstep, hreal⟩ := realized_subi false hready (hop.coarsen rfl rfl) rfl rfl
    exact ⟨hstep, hreal.exempt fun _ _ _ => rfl⟩
  | sbci =>
    obtain ⟨hstep, hreal⟩ := realized_subi true hready (hop.coarsen rfl rfl) rfl rfl
    exact ⟨hstep, hreal.exempt fun _ _ _ => rfl⟩

end Outcomes

section Single

attribute [local instance] idleDes

/-- `ADD r0, r0` on 200, the shift to the left. -/
def addMachine : Machine :=
  { Machine.powerOn fun _ => 0x0c00 with memory := fun i => if i = 0 then 200 else 0 }

/-- 400 leaves 144 and a carry. -/
theorem alu_meaning_add : ∃ m', addMachine.step = .ok m' ∧ m'.memory 0 = 144 ∧
    (m'.memory sreg).getLsbD 0 = true := by
  obtain ⟨m', hstep, hreal⟩ := alu_meaning .add (m := addMachine) rfl (by decide) (by decide)
  exact ⟨m', hstep, (hreal.stored 0 (by decide)).trans (by decide),
    (hreal.status_eq 0 (by decide) (by decide)).trans (by decide)⟩

end Single

end AvrEmu
