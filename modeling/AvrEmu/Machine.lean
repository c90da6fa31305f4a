import AvrEmu.Lib.CellProgram

/-!
# The machine state

The global variables an instruction can reach, and the inline accessors of the
common header. Data memory is the cell array of a `CellProgram`; the other
variables are its private state. A failed `ASSERT`, an undecodable or
unimplemented instruction and an index outside an array all end the run.
-/

namespace AvrEmu

abbrev Byte := BitVec 8

/-- A word of flash. -/
abbrev Word := BitVec 16

/-- The ways a run ends early. Only `wildMemory` is not a deliberate exit: the C program
has no check there and its behaviour is undefined. -/
inductive Abort where
  | assertion (text : String)
  | illins (instr : Word)
  | unhandled (instr : Word)
  | wildMemory (i : ℕ)
  | exit (text : String)
  deriving DecidableEq

/-- The machine apart from data memory. `insns` counts in a 64-bit variable, which no run
exhausts. -/
structure Core where
  pc : BitVec 32
  pcStart : BitVec 32
  instrSize : BitVec 32
  skipNextInstruction : Bool
  flash : ℕ → Word
  pc22 : Bool
  pcMemMax64k : Bool
  pcMemMax256b : Bool
  insns : ℕ

structure Machine extends Core where
  memory : ℕ → Byte

@[ext] theorem Machine.ext' {m n : Machine} (hcore : m.toCore = n.toCore)
    (hmem : m.memory = n.memory) : m = n := by
  cases m
  cases n
  simp_all

/-- Code that runs on the machine. -/
abbrev Exec (α : Type) := CellProgram 8 Core Abort α

/-- The size of `memory[]`. -/
@[simp] abbrev memorySize : ℕ := 0x1000000

/-- The size of `flash[]`, in words. -/
@[simp] abbrev flashSize : ℕ := 0x800000

/-! ## Locations and status bits -/

@[simp] abbrev regpZ : ℕ := 30
@[simp] abbrev regpY : ℕ := 28
@[simp] abbrev regpX : ℕ := 26

@[simp] abbrev sreg : ℕ := 0x5F
@[simp] abbrev spHi : ℕ := 0x5E
@[simp] abbrev spLo : ℕ := 0x5D
@[simp] abbrev eind : ℕ := 0x5C
@[simp] abbrev rampz : ℕ := 0x5B
@[simp] abbrev rampy : ℕ := 0x5A
@[simp] abbrev rampx : ℕ := 0x59
@[simp] abbrev rampd : ℕ := 0x58
@[simp] abbrev ioBase : ℕ := 0x20

@[simp] abbrev sregC : Byte := 0x01
@[simp] abbrev sregZ : Byte := 0x02
@[simp] abbrev sregN : Byte := 0x04
@[simp] abbrev sregV : Byte := 0x08
@[simp] abbrev sregS : Byte := 0x10
@[simp] abbrev sregH : Byte := 0x20
@[simp] abbrev sregT : Byte := 0x40
@[simp] abbrev sregI : Byte := 0x80

/-! ## Accessors -/

/-- `memory[i]` as a value. -/
def mem (i : ℕ) : Exec Byte :=
  if i < memorySize then .read i .pure else .fail (.wildMemory i)

/-- `memory[i] = v`. -/
def setMem (i : ℕ) (v : Byte) : Exec Unit :=
  if i < memorySize then .write i v (.pure ()) else .fail (.wildMemory i)

/-- `memory[i] &= v`. -/
def andMem (i : ℕ) (v : Byte) : Exec Unit :=
  if i < memorySize then .merge i v 0 (.pure ()) else .fail (.wildMemory i)

/-- `memory[i] |= v`. -/
def orMem (i : ℕ) (v : Byte) : Exec Unit :=
  if i < memorySize then .merge i (~~~v) v (.pure ()) else .fail (.wildMemory i)

/-- The variables other than data memory. -/
def core : Exec Core := .get .pure

def modifyCore (f : Core → Core) : Exec Unit := .get fun s => .put (f s) (.pure ())

/-- `pc = v`. -/
def setPc (v : BitVec 32) : Exec Unit := modifyCore fun s => { s with pc := v }

/-- `skip_next_instruction = true`. -/
def skipNext : Exec Unit := modifyCore fun s => { s with skipNextInstruction := true }

/-- `ASSERT(cond, text)`. -/
def assert (cond : Bool) (text : String) : Exec Unit :=
  if cond then pure () else .fail (.assertion text)

def illins (instr : Word) : Exec Unit := .fail (.illins instr)

/-- `if (cond) ...` without an else branch. -/
def when (cond : Bool) (p : Exec Unit) : Exec Unit := if cond then p else pure ()

/-- Bits `max` to `min` of `v`, left in place. -/
def bits (v : Word) (max min : ℕ) : Exec Word := do
  assert (max < 16 && min ≤ max) "bit-select"
  assert (min < 16) "bit-select"
  let mask := ((1#32 <<< (max + 1)) - 1#32).setWidth 16
  let mask := if min > 0 then mask &&& ~~~((1#32 <<< min) - 1#32).setWidth 16 else mask
  pure (v &&& mask)

/-- The stack pointer, with its low byte in the lower cell like the other pairs. -/
def getsp : Exec Word := do
  let hi ← mem spHi
  let lo ← mem spLo
  pure (hi.setWidth 16 <<< 8 ||| lo.setWidth 16)

def setsp (sp : Word) : Exec Unit := do
  setMem spLo ((sp &&& 0xff).setWidth 8)
  setMem spHi ((sp >>> 8).setWidth 8)

def memword (addr : BitVec 32) : Exec Word := do
  assert (addr &&& 1 == 0) "word load unaligned"
  assert (addr &&& ~~~0xffffff == 0) "load outside 24-bit addressable data memory"
  let lo ← mem addr.toNat
  let hi ← mem (addr.toNat + 1)
  pure (lo.setWidth 16 ||| hi.setWidth 16 <<< 8)

def memwriteword (addr : BitVec 32) (word : Word) : Exec Unit := do
  assert (addr &&& 1 == 0) "word store unaligned"
  setMem addr.toNat ((word &&& 0xff).setWidth 8)
  setMem (addr.toNat + 1) ((word >>> 8 &&& 0xff).setWidth 8)

/-- A word of flash, which is word-addressed. -/
def romword (addrWord : BitVec 32) : Exec Word := do
  assert (addrWord &&& ~~~0x7fffff == 0) "load outside 24-bit addressable program memory"
  let s ← core
  pure (s.flash addrWord.toNat)

end AvrEmu
