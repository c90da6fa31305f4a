import AvrEmu.Instr.Alu

/-!
# Control flow and bit instructions

Jumps assign `pc` the target less `instr_size`, which the step adds back. A skip only
raises `skip_next_instruction`; the step then decodes the next instruction to pass over it.
-/

namespace AvrEmu

/-- BSET and BCLR. -/
def instrBclrset : Code := fun idc => do
  let sss := idc.ddddd - 16
  let clr := idc.instr &&& 0x80 != 0
  pure (if clr then { idc with clrflags := idc.clrflags ||| 1#8 <<< sss }
    else { idc with setflags := idc.setflags ||| 1#8 <<< sss })

def instrBld : Code := fun idc => do
  let sss := idc.rrrrr - 16
  let t ← sregHas sregT
  (if t then orMem idc.ddddd.toNat (1#8 <<< sss)
    else andMem idc.ddddd.toNat (~~~(1#8 <<< sss)))
  pure idc

/-- `pc += k` for a signed displacement. -/
def addPc (k : BitVec 32) : Exec Unit := modifyCore fun s => { s with pc := s.pc + k }

/-- BRBS and BRBC. -/
def instrBrb : Code := fun idc => do
  let sss := idc.rrrrr - 16
  let clr := idc.instr &&& 0x0400 != 0
  let immS8 : Byte := ((← bits idc.instr 9 3) >>> 3).setWidth 8
  let immS8 := if nonzero (immS8 &&& 0x40) then immS8 ||| 0x80 else immS8
  let bit ← sregHas (1#8 <<< sss)
  when (bit && !clr || !bit && clr) (addPc (immS8.signExtend 32))
  pure idc

def instrBst : Code := fun idc => do
  let sss := idc.rrrrr - 16
  let rd ← mem idc.ddddd.toNat
  pure { idc with toFlags := idc.toFlags.mark (nonzero (rd &&& 1#8 <<< sss)) sregT }

/-- The absolute target of CALL and JMP: the six high bits count only with a 22-bit PC. -/
def absoluteTarget (idc : InstrDecodeCommon) : Exec (BitVec 32) := do
  let s ← core
  let addr : BitVec 32 := idc.immU16.setWidth 32
  (if s.pc22 then do
      let hi ← bits idc.instr 8 4
      let lo ← bits idc.instr 0 0
      pure (addr ||| ((hi >>> 3).setWidth 32 ||| lo.setWidth 32) <<< 16)
    else pure addr)

/-- Pushes a return address, low byte first. -/
def pushReturn (pc2 : BitVec 32) : Exec Unit := do
  let s ← core
  pushbyte ((pc2 &&& 0xff).setWidth 8)
  pushbyte ((pc2 >>> 8 &&& 0xff).setWidth 8)
  when s.pc22 (pushbyte ((pc2 >>> 16).setWidth 8))

def instrCall : Code := fun idc => do
  let addr ← absoluteTarget idc
  let s ← core
  pushReturn (s.pcStart + 2)
  setPc (addr - s.instrSize)
  pure idc

/-- CBI and SBI. -/
def instrCbisbi : Code := fun idc => do
  let sss := idc.rrrrr - 16
  let set := (← bits idc.instr 9 9) != 0
  let a : Byte := ((← bits idc.instr 7 3) >>> 3).setWidth 8
  (if set then orMem (ioBase + a.toNat) (1#8 <<< sss)
    else andMem (ioBase + a.toNat) (~~~(1#8 <<< sss)))
  pure idc

def instrCpse : Code := fun idc => do
  let rd ← mem idc.ddddd.toNat
  let rr ← mem idc.rrrrr.toNat
  when (rd == rr) skipNext
  pure idc

/-- IJMP, EIJMP, ICALL and EICALL. -/
def instrEicalljump : Code := fun idc => do
  let z ← memword 30
  let ext := (← bits idc.instr 4 4) != 0
  let call := (← bits idc.instr 8 8) != 0
  let s ← core
  when (ext && !s.pc22) (illins idc.instr)
  let addr ← extend ext eind z
  when call (pushReturn (s.pcStart + 1))
  setPc (addr - s.instrSize)
  pure idc

def instrJmp : Code := fun idc => do
  let addr ← absoluteTarget idc
  let s ← core
  setPc (addr - s.instrSize)
  pure idc

def instrNop : Code := fun idc => pure idc

/-- RJMP and RCALL. -/
def instrRcalljmp : Code := fun idc => do
  let call := (← bits idc.instr 12 12) != 0
  let k ← bits idc.instr 11 0
  let k := if k &&& 0x800 != 0 then k ||| 0xf000 else k
  let s ← core
  when call (pushReturn (s.pcStart + 1))
  addPc (k.signExtend 32)
  pure idc

/-- Pops a return address, high byte first. -/
def instrRetCommon : Exec Unit := do
  let s ← core
  let b₁ ← popbyte
  let b₀ ← popbyte
  let addr : BitVec 32 := b₁.setWidth 32 <<< 8 ||| b₀.setWidth 32
  let addr ← (if s.pc22 then do
      let b ← popbyte
      pure ((addr <<< 8 ||| b.setWidth 32) &&& 0x3fffff)
    else pure addr)
  setPc (addr - s.instrSize)

def instrRet : Code := fun idc => do
  instrRetCommon
  pure idc

def instrReti : Code := fun idc => do
  instrRetCommon
  orMem sreg sregI
  pure idc

/-- SBIC and SBIS. -/
def instrSbics : Code := fun idc => do
  let ifset := (← bits idc.instr 9 9) != 0
  let b := idc.rrrrr - 16
  let a : Byte := ((← bits idc.instr 7 3) >>> 3).setWidth 8
  let v ← mem (ioBase + a.toNat)
  let bit := nonzero (v &&& 1#8 <<< b)
  when (ifset == bit) skipNext
  pure idc

/-- SBRC and SBRS. -/
def instrSbrcs : Code := fun idc => do
  let ifset := (← bits idc.instr 9 9) != 0
  let b := idc.rrrrr - 16
  let v ← mem idc.ddddd.toNat
  let bit := nonzero (v &&& 1#8 <<< b)
  when (ifset == bit) skipNext
  pure idc

def instrUnimp : Code := fun idc => .fail (.unhandled idc.instr)

end AvrEmu
