import AvrEmu.Stack

/-!
# What control flow instructions do

For each control flow instruction, the machine its code leaves, in terms of the fields of
the instruction word and the machine before the step.
-/

namespace AvrEmu

variable {m m₁ : Machine} {d : InstrDecode} {idc : InstrDecodeCommon}

/-- The target of CALL and JMP, whose upper bits count only with a 22-bit PC. -/
def InstrDecodeCommon.target (idc : InstrDecodeCommon) (pc22 : Bool) : BitVec 32 :=
  if pc22 then idc.immU16.setWidth 32 ||| ((bitField idc.instr 8 4 >>> 3).setWidth 32 |||
    (bitField idc.instr 0 0).setWidth 32) <<< 16
  else idc.immU16.setWidth 32

/-- The target of IJMP and ICALL or, when `ext` holds, of EIJMP and EICALL. -/
def Machine.indirectTarget (m : Machine) (ext : Bool) : BitVec 32 :=
  if ext then (m.word 30).setWidth 32 ||| (m.memory eind).setWidth 32 <<< 16
  else (m.word 30).setWidth 32

theorem bitField_single_ne_zero {k : ℕ} (hk : k < 16) (w : Word) :
    (bitField w k k != 0) = w.getLsbD k := by
  have hfield : bitField w k k = w &&& BitVec.twoPow 16 k := by
    apply BitVec.eq_of_getLsbD_eq
    intro i hi
    rw [getLsbD_bitField hk k hk, BitVec.getLsbD_and, BitVec.getLsbD_twoPow]
    congr 1
    rw [Bool.eq_iff_iff]
    simp only [decide_eq_true_eq, Bool.and_eq_true]
    omega
  rw [hfield]
  exact Bits.and_twoPow_ne_zero hk w

/-- The bit that a `bbb` field selects. -/
theorem nonzero_and_bit (v : Byte) (b : BitVec 3) :
    nonzero (v &&& 1#8 <<< (16#8 + b.setWidth 8 - 16)) = v.getLsbD b.toNat := by
  have hb : (16#8 + b.setWidth 8 - 16).toNat = b.toNat := by
    have hlt := b.isLt
    change (16#8 + b.setWidth 8 - 16#8).toNat = b.toNat
    rw [BitVec.add_comm, BitVec.add_sub_cancel, BitVec.toNat_setWidth]
    omega
  rw [nonzero, BitVec.shiftLeft_eq', hb, ← BitVec.twoPow_eq]
  exact Bits.and_twoPow_ne_zero b.isLt v

/-- The displacement of a conditional branch, as the code extends it. -/
theorem branch_signExtend (k : BitVec 7) :
    (if nonzero (k.setWidth 8 &&& 0x40) then k.setWidth 8 ||| 0x80
      else k.setWidth 8).signExtend 32 =
      k.signExtend 32 := by
  have hfill := Bits.fill_eq_signExtend (w := 8) (by decide) (by decide) k
  calc _ = (k.signExtend 8).signExtend 32 := congrArg (BitVec.signExtend 32) hfill
    _ = _ := Bits.signExtend_signExtend (by decide) (by decide) k

/-- The displacement of a relative jump, as the code extends it. -/
theorem jump_signExtend (k : BitVec 12) :
    (if k.setWidth 16 &&& 0x800 != 0 then k.setWidth 16 ||| 0xf000
      else k.setWidth 16).signExtend 32 =
      k.signExtend 32 := by
  have hfill := Bits.fill_eq_signExtend (w := 16) (by decide) (by decide) k
  calc _ = (k.signExtend 16).signExtend 32 := congrArg (BitVec.signExtend 32) hfill
    _ = _ := Bits.signExtend_signExtend (by decide) (by decide) k

/-! ## Branches and jumps -/

theorem exec_instrBrb {b : BitVec 3} (hb : idc.rrrrr = 16#8 + b.setWidth 8) :
    exec (instrBrb idc) m = .ok (idc,
      if (m.memory sreg).getLsbD b.toNat != idc.instr.getLsbD 10 then m.mapCore fun s =>
        { s with pc := s.pc + (fieldBranch idc.instr).signExtend 32 }
      else m) := by
  have hclr : (idc.instr &&& 0x0400 != 0) = idc.instr.getLsbD 10 :=
    Bits.and_twoPow_ne_zero (show 10 < 16 by decide) _
  have hk : (bitField idc.instr 9 3 >>> 3).setWidth 8 = (fieldBranch idc.instr).setWidth 8 := by
    rw [bitField_shift (by decide) (by decide), BitVec.setWidth_setWidth_of_le _ (by decide)]
    rfl
  simp only [instrBrb, exec_bind, exec_bits (show 9 < 16 by decide) (show 3 ≤ 9 by decide),
    exec_sregHas, exec_when, addPc, exec_modifyCore, exec_pure, hb, nonzero_and_bit, hclr, hk,
    branch_signExtend]
  cases (m.memory sreg).getLsbD b.toNat <;> cases idc.instr.getLsbD 10 <;> rfl

theorem exec_instrRcalljmp : exec (instrRcalljmp idc) m = .ok (idc,
    (if idc.instr.getLsbD 12 then m.pushPc (m.pcStart + 1) else m).mapCore fun s =>
      { s with pc := s.pc + (fieldJump idc.instr).signExtend 32 }) := by
  have hk : bitField idc.instr 11 0 = (fieldJump idc.instr).setWidth 16 := by
    have hshift := bitField_shift (show 11 < 16 by decide) (show 0 < 16 by decide) idc.instr
    rwa [BitVec.ushiftRight_zero] at hshift
  simp only [instrRcalljmp, exec_bind, exec_bits (show 12 < 16 by decide) (show 12 ≤ 12 by decide),
    exec_bits (show 11 < 16 by decide) (show 0 ≤ 11 by decide), exec_core, exec_when,
    exec_pushReturn, addPc, exec_modifyCore, exec_pure, hk, jump_signExtend,
    bitField_single_ne_zero (show 12 < 16 by decide)]
  cases idc.instr.getLsbD 12 <;> rfl

theorem exec_absoluteTarget : exec (absoluteTarget idc) m = .ok (idc.target m.pc22, m) := by
  cases h : m.pc22 <;> simp [absoluteTarget, InstrDecodeCommon.target, h]

theorem exec_instrJmp : exec (instrJmp idc) m = .ok (idc,
    m.mapCore fun s => { s with pc := idc.target m.pc22 - s.instrSize }) := by
  simp only [instrJmp, exec_bind, exec_absoluteTarget, exec_core, setPc, exec_modifyCore, exec_pure]
  rfl

theorem exec_instrCall : exec (instrCall idc) m = .ok (idc,
    (m.pushPc (m.pcStart + 2)).mapCore fun s =>
      { s with pc := idc.target m.pc22 - s.instrSize }) := by
  simp only [instrCall, exec_bind, exec_absoluteTarget, exec_core, exec_pushReturn, setPc,
    exec_modifyCore, exec_pure]
  simp only [Machine.mapCore, pushPc_toCore]

theorem exec_instrEicalljump : exec (instrEicalljump idc) m =
    if idc.instr.getLsbD 4 && !m.pc22 then .error (.illins idc.instr)
    else .ok (idc,
      (if idc.instr.getLsbD 8 then m.pushPc (m.pcStart + 1) else m).mapCore fun s =>
        { s with pc := m.indirectTarget (idc.instr.getLsbD 4) - s.instrSize }) := by
  simp only [instrEicalljump, exec_bind, exec_bits (show 4 < 16 by decide) (show 4 ≤ 4 by decide),
    exec_bits (show 8 < 16 by decide) (show 8 ≤ 8 by decide), exec_core, exec_when, illins,
    bitField_single_ne_zero (show 4 < 16 by decide),
    bitField_single_ne_zero (show 8 < 16 by decide)]
  cases idc.instr.getLsbD 4 <;> cases idc.instr.getLsbD 8 <;> cases hpc : m.pc22 <;>
    simp [extend, setPc, Machine.indirectTarget, Machine.mapCore, hpc]

theorem exec_instrRet : exec (instrRet idc) m = .ok (idc,
    m.dropPc.mapCore fun s => { s with pc := m.topPc - s.instrSize }) := by
  simp [instrRet]

theorem exec_instrReti : exec (instrReti idc) m = .ok (idc,
    (m.dropPc.mapCore fun s => { s with pc := m.topPc - s.instrSize }).setMem sreg
      (m.dropPc.memory sreg ||| sregI)) := by
  simp [instrReti]

theorem exec_instrPush : exec (instrPush idc) m = .ok (idc, m.push (m.memory idc.ddddd.toNat)) := by
  simp [instrPush]

theorem exec_instrPop : exec (instrPop idc) m = .ok (idc, m.drop.setMem idc.ddddd.toNat m.top) := by
  simp [instrPop]

/-! ## Skips -/

theorem exec_skipNext : exec skipNext m =
    .ok ((), m.mapCore fun s => { s with skipNextInstruction := true }) := rfl

theorem exec_instrCpse : exec (instrCpse idc) m = .ok (idc,
    if m.memory idc.ddddd.toNat == m.memory idc.rrrrr.toNat then
      m.mapCore fun s => { s with skipNextInstruction := true }
    else m) := by
  by_cases h : m.memory idc.ddddd.toNat = m.memory idc.rrrrr.toNat <;>
    simp [instrCpse, exec_skipNext, h]

theorem exec_instrSbics {b : BitVec 3} (hb : idc.rrrrr = 16#8 + b.setWidth 8) :
    exec (instrSbics idc) m = .ok (idc,
      if idc.instr.getLsbD 9 ==
          (m.memory (ioBase + (fieldPort idc.instr).toNat)).getLsbD b.toNat then
        m.mapCore fun s => { s with skipNextInstruction := true }
      else m) := by
  have hport : ((bitField idc.instr 7 3 >>> 3).setWidth 8).toNat = (fieldPort idc.instr).toNat := by
    rw [bitField_shift (by decide) (by decide), BitVec.setWidth_setWidth_of_le _ (by decide),
      BitVec.toNat_setWidth_of_le (by decide)]
    rfl
  have hlt : ioBase + (fieldPort idc.instr).toNat < memorySize := by
    have := (fieldPort idc.instr).isLt
    unfold ioBase memorySize
    omega
  simp only [instrSbics, exec_bind, exec_bits (show 9 < 16 by decide) (show 9 ≤ 9 by decide),
    exec_bits (show 7 < 16 by decide) (show 3 ≤ 7 by decide), exec_mem hlt, exec_when,
    exec_skipNext, exec_pure, hb, nonzero_and_bit, hport,
    bitField_single_ne_zero (show 9 < 16 by decide)]
  cases idc.instr.getLsbD 9 == _ <;> rfl

theorem exec_instrSbrcs {b : BitVec 3} (hb : idc.rrrrr = 16#8 + b.setWidth 8) :
    exec (instrSbrcs idc) m = .ok (idc,
      if idc.instr.getLsbD 9 == (m.memory idc.ddddd.toNat).getLsbD b.toNat then
        m.mapCore fun s => { s with skipNextInstruction := true }
      else m) := by
  simp only [instrSbrcs, exec_bind, exec_bits (show 9 < 16 by decide) (show 9 ≤ 9 by decide),
    exec_mem (byte_lt_memorySize _), exec_when, exec_skipNext, exec_pure, hb, nonzero_and_bit,
    bitField_single_ne_zero (show 9 < 16 by decide)]
  cases idc.instr.getLsbD 9 == _ <;> rfl

end AvrEmu
