import AvrEmu.Instr.Flags

/-!
# Arithmetic and logic instructions

Each definition follows one handler statement by statement. The handlers of one
opcode group tell its members apart by bits of the instruction word.
-/

namespace AvrEmu

/-- ADD and ADC. -/
def instrAdc : Code := fun idc => do
  let carryMode := (← bits idc.instr 12 12) != 0
  let rr ← mem idc.rrrrr.toNat
  let rd ← mem idc.ddddd.toNat
  let carry ← carryIn carryMode
  let res := if carry then rd + rr + 1 else rd + rr
  setMem idc.ddddd.toNat res
  pure { idc with toFlags := adcFlags8 res rd rr idc.toFlags }

def instrAdiw : Code := fun idc => do
  let dd : Byte := 24#8 + ((← bits idc.instr 5 4) >>> 3).setWidth 8
  let imm : Word := (← bits idc.instr 7 6) >>> 2 ||| (← bits idc.instr 3 0)
  let rd ← memword (dd.setWidth 32)
  let res := rd + imm
  memwriteword (dd.setWidth 32) res
  pure { idc with toFlags := adiwFlags16 res rd idc.toFlags }

def instrAnd : Code := fun idc => do
  let rr ← mem idc.rrrrr.toNat
  andMem idc.ddddd.toNat rr
  let res ← mem idc.ddddd.toNat
  pure { idc with toFlags := logicFlags8 res idc.toFlags }

def instrAndi : Code := fun idc => do
  andMem idc.ddddd.toNat idc.immU8
  let res ← mem idc.ddddd.toNat
  pure { idc with toFlags := logicFlags8 res idc.toFlags }

def instrAsr : Code := fun idc => do
  let rd ← mem idc.ddddd.toNat
  let res := rd >>> 1 ||| (0x80 &&& rd)
  setMem idc.ddddd.toNat res
  pure { idc with toFlags := asrFlags8 res rd idc.toFlags }

def instrCom : Code := fun idc => do
  let rd ← mem idc.ddddd.toNat
  let res := 0xff - rd
  setMem idc.ddddd.toNat res
  let f := idc.toFlags
  let f := { f with setflags := f.setflags ||| sregC }
  let f := { f with clrflags := f.clrflags ||| sregV }
  let f := f.mark (res == 0) sregZ
  let f := f.mark (nonzero (res &&& 0x80)) (sregN ||| sregS)
  pure { idc with toFlags := f }

/-- CP, CPC, SUB and SBC. Whatever the result, none of them marks Z to be set. -/
def instrCpc : Code := fun idc => do
  let carryMode := (← bits idc.instr 12 12) == 0
  let nostore := (← bits idc.instr 11 10) >>> 10 == 1
  let rr ← mem idc.rrrrr.toNat
  let rd ← mem idc.ddddd.toNat
  let carry ← carryIn carryMode
  let res := if carry then rd - rr - 1 else rd - rr
  when (!nostore) (setMem idc.ddddd.toNat res)
  let f := subFlags8 res rd rr idc.toFlags
  pure { idc with toFlags := { f with setflags := f.setflags &&& ~~~sregZ } }

/-- CPI, SBCI and SUBI. -/
def instrCpi : Code := fun idc => do
  let store := (← bits idc.instr 14 13) >>> 13 == 2
  let carryMode := (← bits idc.instr 12 12) == 0
  let rd ← mem idc.ddddd.toNat
  let carry ← carryIn carryMode
  let res := if carry then rd - idc.immU8 - 1 else rd - idc.immU8
  when store (setMem idc.ddddd.toNat res)
  pure { idc with toFlags := subFlags8 res rd idc.immU8 idc.toFlags }

def instrDec : Code := fun idc => do
  let res := (← mem idc.ddddd.toNat) - 1
  setMem idc.ddddd.toNat res
  let f := logicFlags8 res idc.toFlags
  let f :=
    if res == 0x7f then
      { clrflags := f.clrflags &&& ~~~(sregV ||| sregS)
        setflags := f.setflags ||| (sregV ||| sregS) : Flags }
    else f
  pure { idc with toFlags := f }

/-- Copies `n` bytes out of data memory. -/
def readBytes : ℕ → ℕ → Exec (List Byte)
  | _, 0 => pure []
  | i, n + 1 => do
    let b ← mem i
    let bs ← readBytes (i + 1) n
    pure (b :: bs)

/-- Copies bytes into data memory. -/
def writeBytes : ℕ → List Byte → Exec Unit
  | _, [] => pure ()
  | i, b :: bs => do
    setMem i b
    writeBytes (i + 1) bs

/-- The block cipher of the crypto library: `ecbEncrypt key inp enc` is the block that
`DES_ecb_encrypt` writes, where `enc` says whether it encrypts or decrypts. -/
class DesLibrary where
  ecbEncrypt (key inp : List Byte) (enc : Bool) : Vector Byte 8

/-- Only the last of the sixteen rounds does anything, and it runs the whole cipher. -/
def instrDes [DesLibrary] : Code := fun idc => do
  let idc := { idc with ddddd := idc.ddddd - 16 }
  if idc.ddddd < 15 then pure idc
  else do
    let key ← readBytes 8 8
    let inp ← readBytes 0 8
    let decrypt ← sregHas sregH
    writeBytes 0 (DesLibrary.ecbEncrypt key inp (!decrypt)).toList
    pure idc

def instrFmul : Code := fun idc => do
  let rd ← mem idc.ddddd.toNat
  let rr ← mem idc.rrrrr.toNat
  let res : Word := rd.setWidth 16 * rr.setWidth 16
  let f := fmulFlags16 res idc.toFlags
  memwriteword 0 (res <<< 1)
  pure { idc with toFlags := f }

/-- FMULS and FMULSU. -/
def instrFmulsu : Code := fun idc => do
  let su := (← bits idc.instr 3 3) != 0
  let rd : Word := (← mem idc.ddddd.toNat).signExtend 16
  let r ← mem idc.rrrrr.toNat
  let rr : Word := if su then r.setWidth 16 else r.signExtend 16
  let res := rd * rr
  let f := fmulFlags16 res idc.toFlags
  memwriteword 0 (res <<< 1)
  pure { idc with toFlags := f }

def instrInc : Code := fun idc => do
  let res := (← mem idc.ddddd.toNat) + 1
  setMem idc.ddddd.toNat res
  let f := logicFlags8 res idc.toFlags
  let f :=
    if res == 0x80 then
      { clrflags := f.clrflags &&& ~~~sregV ||| sregS
        setflags := f.setflags &&& ~~~sregS ||| sregV : Flags }
    else f
  pure { idc with toFlags := f }

def instrLsr : Code := fun idc => do
  let rd ← mem idc.ddddd.toNat
  let res := rd >>> 1
  setMem idc.ddddd.toNat res
  pure { idc with toFlags := asrFlags8 res rd idc.toFlags }

def instrMul : Code := fun idc => do
  let rd ← mem idc.ddddd.toNat
  let rr ← mem idc.rrrrr.toNat
  let res : Word := rd.setWidth 16 * rr.setWidth 16
  memwriteword 0 res
  pure { idc with toFlags := mulFlags16 res idc.toFlags }

def instrMuls : Code := fun idc => do
  let rd : Word := (← mem idc.ddddd.toNat).signExtend 16
  let rs : Word := (← mem idc.rrrrr.toNat).signExtend 16
  let res := rd * rs
  memwriteword 0 res
  pure { idc with toFlags := mulFlags16 res idc.toFlags }

def instrMulsu : Code := fun idc => do
  let rd : Word := (← mem idc.ddddd.toNat).signExtend 16
  let rs : Word := (← mem idc.rrrrr.toNat).setWidth 16
  let res := rd * rs
  memwriteword 0 res
  pure { idc with toFlags := mulFlags16 res idc.toFlags }

def instrNeg : Code := fun idc => do
  let rd ← mem idc.ddddd.toNat
  let res := 0 - rd
  setMem idc.ddddd.toNat res
  let f := idc.toFlags
  let f := if res == 0 then
      { setflags := f.setflags ||| sregZ, clrflags := f.clrflags ||| sregC : Flags }
    else { setflags := f.setflags ||| sregC, clrflags := f.clrflags ||| sregZ }
  let f := f.mark (nonzero (res &&& 0x80)) sregN
  let f := f.mark (res == 0x80) sregV
  let f := f.mark (nonzero (res &&& 0x08) || nonzero (rd &&& 0x08)) sregH
  let f := f.mark (f.differ sregN sregV) sregS
  pure { idc with toFlags := f }

def instrOr : Code := fun idc => do
  let rr ← mem idc.rrrrr.toNat
  orMem idc.ddddd.toNat rr
  let res ← mem idc.ddddd.toNat
  pure { idc with toFlags := logicFlags8 res idc.toFlags }

def instrOri : Code := fun idc => do
  orMem idc.ddddd.toNat idc.immU8
  let res ← mem idc.ddddd.toNat
  pure { idc with toFlags := logicFlags8 res idc.toFlags }

def instrRor : Code := fun idc => do
  let rd ← mem idc.ddddd.toNat
  let carry ← sregHas sregC
  let res := if carry then rd >>> 1 ||| 0x80 else rd >>> 1
  setMem idc.ddddd.toNat res
  pure { idc with toFlags := asrFlags8 res rd idc.toFlags }

def instrSbiw : Code := fun idc => do
  let d : Byte := ((← bits idc.instr 5 4) >>> 3).setWidth 8 + 24#8
  let k : Byte := ((← bits idc.instr 7 6) >>> 2 ||| (← bits idc.instr 3 0)).setWidth 8
  let rd ← memword (d.setWidth 32)
  let res := rd - k.setWidth 16
  memwriteword (d.setWidth 32) res
  let f := idc.toFlags
  let f := f.mark (res == 0) sregZ
  let f := f.mark (0x8000 &&& res &&& ~~~rd != 0) sregC
  let f := f.mark (0x8000 &&& res != 0) sregN
  let f := f.mark (0x8000 &&& rd &&& ~~~res != 0) sregV
  let f := f.mark (f.differ sregN sregV) sregS
  pure { idc with toFlags := f }

def instrSwap : Code := fun idc => do
  let rd ← mem idc.ddddd.toNat
  setMem idc.ddddd.toNat (rd >>> 4 ||| rd <<< 4)
  pure idc

def instrXor : Code := fun idc => do
  let rr ← mem idc.rrrrr.toNat
  let rd ← mem idc.ddddd.toNat
  setMem idc.ddddd.toNat (rd ^^^ rr)
  let res ← mem idc.ddddd.toNat
  pure { idc with toFlags := logicFlags8 res idc.toFlags }

end AvrEmu
