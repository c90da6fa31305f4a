import AvrEmu.Decode

/-!
# One step of the machine

A step fetches and decodes the instruction at `pc`, runs its code, merges the pending
status changes and advances. When the instruction asks to skip the next one, the same
step decodes that one too, to learn its length, and passes over it.
-/

namespace AvrEmu

variable [DesLibrary]

/-- Fetch and first decode: the matching row and the words of the instruction. -/
def fetch : Exec (InstrDecode × InstrDecodeCommon) := do
  modifyCore fun s => { s with pcStart := s.pc, instrSize := 1 }
  let s ← core
  let instr ← romword s.pc
  match lookupInstr instr with
  | none => .fail (.illins instr)
  | some d =>
    if d.imm16 then do
      let imm ← romword (s.pc + 1)
      modifyCore fun s => { s with instrSize := s.instrSize + 1 }
      pure (d, { instr := instr, immU16 := imm })
    else pure (d, { instr := instr })

/-- Passes over the decoded instruction. -/
def passOver : Exec Unit :=
  modifyCore fun s => { s with skipNextInstruction := false, pc := s.pc + s.instrSize }

/-- Consecutive words of flash. -/
def romwords : BitVec 32 → ℕ → Exec (List Word)
  | _, 0 => pure []
  | addrWord, n + 1 => do
    let word ← romword addrWord
    let words ← romwords (addrWord + 1) n
    pure (word :: words)

/-- The flash words of the instruction that has just run. -/
def traceWords : Exec (List Word) := do
  let s ← core
  assert (0 < s.instrSize && s.instrSize < 3) "instr_size"
  romwords s.pcStart s.instrSize.toNat

/-- Merges the pending status changes into `memory[SREG]`. -/
def mergeFlags (f : Flags) : Exec Unit := do
  assert (f.clrflags &&& f.setflags == 0) "overlapped flags"
  andMem sreg (~~~f.clrflags)
  orMem sreg f.setflags

/-- Runs the decoded instruction. With `tracing` the result is what the trace file gets. -/
def execute (tracing : Bool) (d : InstrDecode) (idc : InstrDecodeCommon) : Exec (List Word) := do
  let idc ← decodeOperands d idc
  let idc ← d.code idc
  mergeFlags idc.toFlags
  modifyCore fun s => { s with pc := s.pc + s.instrSize }
  let words ← (if tracing then traceWords else pure [])
  modifyCore fun s => { s with insns := s.insns + 1 }
  pure words

/-- One step; `tracing` stands for `!replay_mode && tracefile`. -/
def emulate1 (tracing : Bool) : Exec (List Word) := do
  let (d, idc) ← fetch
  let s ← core
  if s.skipNextInstruction then do
    passOver
    pure []
  else do
    let words ← execute tracing d idc
    let s ← core
    -- The restarted decode finds the flag set, so it always ends by passing over.
    when s.skipNextInstruction do
      let _ ← fetch
      passOver
    pure words

/-- The machine after `init`: data memory and the fetch registers are left as they were. -/
def Machine.init (m : Machine) : Machine :=
  { m with
    pc := 0
    pc22 := false
    pcMemMax256b := false
    pcMemMax64k := false
    insns := 0
    skipNextInstruction := false }

end AvrEmu
