import AvrEmu.Effects

/-!
# The stack helpers

What `pushbyte`, `popbyte` and the code around return addresses do to a machine. None
of them can abort: every slot they compute lies in data memory.
-/

namespace AvrEmu

variable {m : Machine}

/-- The machine after `pushbyte(b)`. -/
def Machine.push (m : Machine) (b : Byte) : Machine :=
  (m.setMem m.sp.toNat b).setSp (m.sp - 1)

/-- The machine after `popbyte()`. -/
def Machine.drop (m : Machine) : Machine := m.setSp (m.sp + 1)

/-- The result of `popbyte()`. -/
def Machine.top (m : Machine) : Byte := m.drop.memory (m.sp.toNat + 1)

/-- The machine after the return address `pc2` is pushed. -/
def Machine.pushPc (m : Machine) (pc2 : BitVec 32) : Machine :=
  let m₂ := (m.push ((pc2 &&& 0xff).setWidth 8)).push ((pc2 >>> 8 &&& 0xff).setWidth 8)
  if m.pc22 then m₂.push ((pc2 >>> 16).setWidth 8) else m₂

/-- The machine after a return address is popped. -/
def Machine.dropPc (m : Machine) : Machine :=
  if m.pc22 then m.drop.drop.drop else m.drop.drop

/-- The return address on top of the stack. -/
def Machine.topPc (m : Machine) : BitVec 32 :=
  let addr := m.top.setWidth 32 <<< 8 ||| m.drop.top.setWidth 32
  if m.pc22 then (addr <<< 8 ||| m.drop.drop.top.setWidth 32) &&& 0x3fffff else addr

@[simp] theorem push_toCore (b : Byte) : (m.push b).toCore = m.toCore := rfl

@[simp] theorem drop_toCore : m.drop.toCore = m.toCore := rfl

@[simp] theorem pushPc_toCore (pc2 : BitVec 32) : (m.pushPc pc2).toCore = m.toCore := by
  unfold Machine.pushPc
  split <;> rfl

@[simp] theorem dropPc_toCore : m.dropPc.toCore = m.toCore := by
  unfold Machine.dropPc
  split <;> rfl

/-- What is pushed does not depend on the variables outside data memory but the PC width. -/
theorem pushPc_memory_congr {n : Machine} (hmem : n.memory = m.memory) (hpc22 : n.pc22 = m.pc22)
    (pc2 : BitVec 32) : (n.pushPc pc2).memory = (m.pushPc pc2).memory := by
  have hpush {n m : Machine} (hmem : n.memory = m.memory) (b : Byte) :
      (n.push b).memory = (m.push b).memory := by
    simp only [Machine.push, Machine.setSp, Machine.sp, setMem_memory, hmem]
  unfold Machine.pushPc
  rw [hpc22]
  cases m.pc22 with
  | false => exact hpush (hpush hmem _) _
  | true => exact hpush (hpush (hpush hmem _) _) _

/-- Reading back the stack pointer. -/
@[simp] theorem setSp_sp (sp : Word) : (m.setSp sp).sp = sp := by
  have hmask : (0xff : Word) = (BitVec.allOnes 8).setWidth 16 := rfl
  simp only [Machine.setSp, Machine.sp, setMem_memory, Function.update_self,
    Function.update_of_ne (show spLo ≠ spHi by decide)]
  apply BitVec.eq_of_getLsbD_eq
  intro i hi
  rw [hmask]
  simp only [BitVec.getLsbD_or, BitVec.getLsbD_shiftLeft, BitVec.getLsbD_setWidth,
    BitVec.getLsbD_ushiftRight, BitVec.getLsbD_and, BitVec.getLsbD_allOnes, hi, decide_true,
    Bool.true_and]
  by_cases hlow : i < 8
  · simp [hlow, hi]
  · have hsplit : 8 + (i - 8) = i := by omega
    simp [hlow, hsplit, show i - 8 < 8 by omega, show i - 8 < 16 by omega]

@[simp] theorem push_sp (b : Byte) : (m.push b).sp = m.sp - 1 := setSp_sp _

@[simp] theorem drop_sp : m.drop.sp = m.sp + 1 := setSp_sp _

@[simp] theorem exec_pushbyte (b : Byte) : exec (pushbyte b) m = .ok ((), m.push b) := by
  simp [pushbyte, Machine.push]

@[simp] theorem exec_popbyte : exec popbyte m = .ok (m.top, m.drop) := by
  simp [popbyte, Machine.top, Machine.drop]

@[simp] theorem exec_pushReturn (pc2 : BitVec 32) :
    exec (pushReturn pc2) m = .ok ((), m.pushPc pc2) := by
  cases h : m.pc22 <;> simp [pushReturn, Machine.pushPc, h]

@[simp] theorem exec_instrRetCommon : exec instrRetCommon m =
    .ok ((), m.dropPc.mapCore fun s => { s with pc := m.topPc - s.instrSize }) := by
  cases h : m.pc22 <;>
    simp [instrRetCommon, setPc, Machine.dropPc, Machine.topPc, h, Machine.mapCore]

/-! ## Touched cells -/

@[simp] theorem touched_getsp : touched getsp m = [.read spHi, .read spLo] := by
  simp [getsp]

@[simp] theorem touched_setsp (sp : Word) : touched (setsp sp) m = [.write spLo, .write spHi] := by
  simp [setsp]

@[simp] theorem touched_pushbyte (b : Byte) : touched (pushbyte b) m =
    [.read spHi, .read spLo, .write m.sp.toNat, .write spLo, .write spHi] := by
  simp [pushbyte]

/-- The slots a return address is pushed into. -/
def Machine.pushSlots (m : Machine) : List ℕ :=
  if m.pc22 then [m.sp.toNat, (m.sp - 1).toNat, (m.sp - 1 - 1).toNat]
  else [m.sp.toNat, (m.sp - 1).toNat]

/-- The slots a return address is popped from. -/
def Machine.popSlots (m : Machine) : List ℕ :=
  if m.pc22 then [m.sp.toNat + 1, (m.sp + 1).toNat + 1, (m.sp + 1 + 1).toNat + 1]
  else [m.sp.toNat + 1, (m.sp + 1).toNat + 1]

@[simp] theorem touched_popbyte : touched popbyte m =
    [.read spHi, .read spLo, .write spLo, .write spHi, .read (m.sp.toNat + 1)] := by
  simp [popbyte]

end AvrEmu
