import AvrEmu.Machine

/-!
# Status flag helpers

Each helper marks status bits to be set or cleared once the instruction is over.
The marks accumulate in two masks, and later bits are computed from earlier marks.
-/

namespace AvrEmu

/-- The pending changes to the status register. -/
structure Flags where
  setflags : Byte := 0
  clrflags : Byte := 0
  deriving DecidableEq

/-- The C truth value of a masked byte. -/
def nonzero (b : Byte) : Bool := b != 0

/-- `if (cond) *set |= flag; else *clr |= flag;` -/
def Flags.mark (f : Flags) (cond : Bool) (flag : Byte) : Flags :=
  if cond then { f with setflags := f.setflags ||| flag }
  else { f with clrflags := f.clrflags ||| flag }

/-- Whether one of two flags is marked set and the other marked clear. -/
def Flags.differ (f : Flags) (a b : Byte) : Bool :=
  (nonzero (f.setflags &&& a) && nonzero (f.clrflags &&& b)) ||
    (nonzero (f.clrflags &&& a) && nonzero (f.setflags &&& b))

def asrFlags8 (res rd : Byte) (f : Flags) : Flags :=
  let f := f.mark (nonzero (res &&& 0x80)) sregN
  let f := f.mark (res == 0) sregZ
  let f := f.mark (nonzero (rd &&& 0x1)) sregC
  let f := f.mark (f.differ sregC sregN) sregV
  f.mark (f.differ sregV sregN) sregS

/-- The clear mask is overwritten, not extended. -/
def logicFlags8 (result : Byte) (f : Flags) : Flags :=
  let f := { f with clrflags := sregV }
  let f := f.mark (nonzero (result &&& 0x80)) (sregN ||| sregS)
  f.mark (result == 0) sregZ

def mulFlags16 (res : Word) (f : Flags) : Flags :=
  let f := f.mark (res &&& 0x8000 != 0) sregC
  f.mark (res == 0) sregZ

def fmulFlags16 (res : Word) (f : Flags) : Flags :=
  let f := f.mark (res &&& 0x8000 != 0) sregC
  let res := res <<< 1
  f.mark (res == 0) sregZ

def adcFlags8 (res rd rr : Byte) (f : Flags) : Flags :=
  let f := f.mark (nonzero (res &&& 0x80)) sregN
  let f := f.mark (nonzero (0x80 &&& rd &&& rr &&& ~~~res) ||
    nonzero (0x80 &&& ~~~rd &&& ~~~rr &&& res)) sregV
  let f := f.mark (f.differ sregN sregV) sregS
  let f := f.mark (res == 0) sregZ
  let f := f.mark (nonzero (0x80 &&& rd &&& rr) || nonzero (0x80 &&& rr &&& ~~~res) ||
    nonzero (0x80 &&& ~~~res &&& rd)) sregC
  f.mark (nonzero (0x08 &&& rd &&& rr) || nonzero (0x08 &&& rr &&& ~~~res) ||
    nonzero (0x08 &&& ~~~res &&& rd)) sregH

def adiwFlags16 (res rd : Word) (f : Flags) : Flags :=
  let f := f.mark (res &&& 0x8000 != 0) sregN
  let f := f.mark (0x8000 &&& ~~~rd &&& res != 0) sregV
  let f := f.mark (f.differ sregN sregV) sregS
  let f := f.mark (res == 0) sregZ
  f.mark (0x8000 &&& ~~~res &&& rd != 0) sregC

def subFlags8 (res rd rr : Byte) (f : Flags) : Flags :=
  let f := f.mark (nonzero (res &&& 0x80)) sregN
  let f := f.mark (nonzero (0x80 &&& rd &&& ~~~rr &&& ~~~res) ||
    nonzero (0x80 &&& ~~~rd &&& rr &&& res)) sregV
  let f := f.mark (f.differ sregN sregV) sregS
  let f := f.mark (res == 0) sregZ
  let f := f.mark (nonzero (0x80 &&& ~~~rd &&& rr) || nonzero (0x80 &&& rr &&& res) ||
    nonzero (0x80 &&& res &&& ~~~rd)) sregC
  f.mark (nonzero (0x08 &&& ~~~rd &&& rr) || nonzero (0x08 &&& rr &&& res) ||
    nonzero (0x08 &&& res &&& ~~~rd)) sregH

/-- The operands of a decoded instruction and its pending status changes. -/
structure InstrDecodeCommon extends Flags where
  instr : Word
  ddddd : Byte := 0
  rrrrr : Byte := 0
  immU8 : Byte := 0
  immU16 : Word := 0

/-- An instruction's code takes the decoded operands and hands back its pending changes. -/
abbrev Code := InstrDecodeCommon → Exec InstrDecodeCommon

/-- `(memory[SREG] & flag) != 0`. -/
def sregHas (flag : Byte) : Exec Bool := do
  let s ← mem sreg
  pure (nonzero (s &&& flag))

/-- `carry_mode && (memory[SREG] & SREG_C) != 0`. -/
def carryIn (carryMode : Bool) : Exec Bool :=
  if carryMode then sregHas sregC else pure false

/-- A pointer, with the byte at `page` as its bits 16 to 23 when `ext` asks for it. -/
def extend (ext : Bool) (page : ℕ) (addr : Word) : Exec (BitVec 32) :=
  if ext then do
    let r ← mem page
    pure (addr.setWidth 32 ||| r.setWidth 32 <<< 16)
  else pure (addr.setWidth 32)

/-! ## Stack helpers -/

/-- The slot is computed in `int`, so above the last address lies `0x10000`, not 0. -/
def popbyte : Exec Byte := do
  let sp ← getsp
  setsp (sp + 1)
  mem (sp.toNat + 1)

def pushbyte (b : Byte) : Exec Unit := do
  let sp ← getsp
  setMem sp.toNat b
  setsp (sp - 1)

end AvrEmu
