import AvrEmu.Emulate
import AvrEmu.Run

/-!
# The order of the decode table

The table is searched from its head, once for each instruction and once more for an instruction that
is passed over. No word is matched by two rows, so that the rows can stand in any order.
-/

namespace AvrEmu

/-! ## The emulator with another table -/

/-- The linear search in another table. -/
def lookupInstrIn (table : List InstrDecode) (instr : Word) : Option InstrDecode :=
  table.find? fun d => d.matchesWord instr

/-- Fetch and first decode by another table. -/
def fetchIn (table : List InstrDecode) : Exec (InstrDecode × InstrDecodeCommon) := do
  modifyCore fun s => { s with pcStart := s.pc, instrSize := 1 }
  let s ← core
  let instr ← romword s.pc
  match lookupInstrIn table instr with
  | none => .fail (.illins instr)
  | some d =>
    if d.imm16 then do
      let imm ← romword (s.pc + 1)
      modifyCore fun s => { s with instrSize := s.instrSize + 1 }
      pure (d, { instr := instr, immU16 := imm })
    else pure (d, { instr := instr })

/-- One step by another table. -/
def emulate1In (table : List InstrDecode) (tracing : Bool) : Exec (List Word) := do
  let (d, idc) ← fetchIn table
  let s ← core
  if s.skipNextInstruction then do
    passOver
    pure []
  else do
    let words ← execute tracing d idc
    let s ← core
    when s.skipNextInstruction do
      let _ ← fetchIn table
      passOver
    pure words

/-- The machine after `n` steps by another table. -/
def Machine.stepNIn (table : List InstrDecode) (m : Machine) : ℕ → Except Abort Machine
  | 0 => .ok m
  | n + 1 =>
    match m.stepNIn table n with
    | .ok m' => (exec (emulate1In table false) m').map Prod.snd
    | .error e => .error e

/-- One call of `emulate1` by another table, with its trace output. -/
def Emu.emulate1In (table : List InstrDecode) (e : Emu) : Except Abort Emu :=
  match exec (AvrEmu.emulate1In table (!e.replayMode && e.tracefile.isSome)) e.machine with
  | .ok (words, m) => .ok
    { e with machine := m, tracefile := e.tracefile.map (· ++ traced e.tracehex words) }
  | .error a => .error a

/-- The rest of the emulator loop by another table. -/
def emulateRunIn (table : List InstrDecode) (e : Emu) : Except Abort (Point × Emu) :=
  if e.replayMode && e.insnreplaylim < e.machine.insns then pure (.top, e.init)
  else if e.off then pure (.stopped, e)
  else do
    let e ← e.emulate1In table
    if e.off then pure (.stopped, e)
    else if e.insnlimit != 0 && e.insnlimit ≤ e.machine.insns then pure (.stopped, e)
    else pure (.top, e)

/-- One tick by another table. Only the part that runs the machine decodes. -/
def tickIn (table : List InstrDecode) (env : Env) (p : Point) (e : Emu) :
    Except Abort (Point × Emu) :=
  match p with
  | .top => emulateTop env.ctrlc e
  | .recv => gdbstubReceive env.recv e
  | .scan bp ep => gdbstubScan bp ep e
  | .run => emulateRunIn table e
  | .stopped => pure (.stopped, e)

/-- A number of ticks by another table. -/
def ticksIn (table : List InstrDecode) : List Env → Point → Emu → Except Abort (Point × Emu)
  | [], p, e => .ok (p, e)
  | env :: envs, p, e =>
    match tickIn table env p e with
    | .ok (p', e') => ticksIn table envs p' e'
    | .error a => .error a

section Reordered

variable [DesLibrary] {table : List InstrDecode}

/-- With the table as it is written this is the emulator. -/
example : emulate1In avrInstr = emulate1 ∧ tickIn avrInstr = tick := ⟨rfl, rfl⟩

/-! ## Tables that find the same rows -/

/-- Every word is decoded as the table as it is written decodes it. -/
def DecodesAlike (table : List InstrDecode) : Prop := ∀ w, lookupInstrIn table w = lookupInstr w

theorem DecodesAlike.fetchIn_eq (h : DecodesAlike table) : fetchIn table = fetch := by
  have hlookup : lookupInstrIn table = lookupInstr := funext h
  rw [fetchIn, hlookup]
  rfl

/-- A step reads the table in its two decodes only. -/
theorem DecodesAlike.emulate1In_eq (h : DecodesAlike table) (tracing : Bool) :
    emulate1In table tracing = emulate1 tracing := by
  rw [emulate1In, h.fetchIn_eq]
  rfl

theorem DecodesAlike.stepNIn_eq (h : DecodesAlike table) (m : Machine) (n : ℕ) :
    m.stepNIn table n = m.stepN n := by
  induction n with
  | zero => rfl
  | succ n ih =>
    rw [Machine.stepNIn, Machine.stepN, ih, h.emulate1In_eq]
    cases m.stepN n with
    | error a => rfl
    | ok m' =>
      dsimp only
      rw [Machine.step]
      cases exec (emulate1 false) m' <;> rfl

theorem DecodesAlike.tickIn_eq (h : DecodesAlike table) (env : Env) (p : Point) (e : Emu) :
    tickIn table env p e = tick env p e := by
  have hemulate (e : Emu) : e.emulate1In table = e.emulate1 := by
    rw [Emu.emulate1In, h.emulate1In_eq]
    rfl
  cases p with
  | run =>
    rw [tickIn, tick, emulateRunIn, emulateRun, hemulate]
  | top | recv | scan | stopped => rfl

theorem DecodesAlike.ticksIn_eq (h : DecodesAlike table) (envs : List Env) (p : Point) (e : Emu) :
    ticksIn table envs p e = ticks envs p e := by
  induction envs generalizing p e with
  | nil => rfl
  | cons env envs ih =>
    rw [ticksIn, ticks, h.tickIn_eq]
    cases tick env p e with
    | error a => rfl
    | ok r => exact ih r.1 r.2

/-- Every reordering of the table decodes alike, since no word is matched by two of its rows. -/
theorem decodesAlike_of_perm (h : table.Perm avrInstr) : DecodesAlike table :=
  FirstMatch.find?_perm_iff.mpr avrInstr_exclusive table h

/-- In whatever order the rows of the table stand, the search finds the same row for every word, one
step from every machine does the same, and so does any number of steps, with or without what goes on
around them in the emulator. -/
theorem decode_order_irrelevant (h : table.Perm avrInstr) :
    (∀ w, lookupInstrIn table w = lookupInstr w) ∧
    (∀ tracing m, exec (emulate1In table tracing) m = exec (emulate1 tracing) m) ∧
    (∀ m n, Machine.stepNIn table m n = m.stepN n) ∧
    ∀ envs p e, ticksIn table envs p e = ticks envs p e := by
  have halike := decodesAlike_of_perm h
  refine ⟨halike, fun tracing m => ?_, halike.stepNIn_eq, halike.ticksIn_eq⟩
  rw [halike.emulate1In_eq]

end Reordered

section Reversed

attribute [local instance] idleDes

/-- The rows from the last to the first. -/
theorem decode_order_irrelevant_reverse :
    (∀ w, lookupInstrIn avrInstr.reverse w = lookupInstr w) ∧
    (∀ tracing m, exec (emulate1In avrInstr.reverse tracing) m = exec (emulate1 tracing) m) ∧
    (∀ m n, Machine.stepNIn avrInstr.reverse m n = m.stepN n) ∧
    ∀ envs p e, ticksIn avrInstr.reverse envs p e = ticks envs p e :=
  decode_order_irrelevant (List.reverse_perm avrInstr)

end Reversed

end AvrEmu
