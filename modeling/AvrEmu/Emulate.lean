import AvrEmu.Gdb.Command
import AvrEmu.Step

/-!
# The emulator loop

The loop of the emulator calls the stub before each instruction, and the stub has two loops
of its own: one that receives, and one that scans what has been received for packets. A tick
takes control through one pass of the innermost loop. What the world contributes to a tick
is the interrupt flag and the result of `recv`; the wait in `poll` shows as nothing at all.
-/

namespace AvrEmu

/-- The result of `recv`: up to as many bytes as there is room for, or nothing yet. No bytes
means that the client is gone. -/
inductive Recv where
  | data (bytes : List Byte)
  | wouldBlock
  | failed
  deriving DecidableEq

structure Env where
  ctrlc : Bool
  recv : Recv

/-- Where control is: at the head of the emulator loop, at the head of the receiving loop, at
the head of the scanning loop with `bp` and `ep`, after the stub, or past the end. -/
inductive Point where
  | top
  | recv
  | scan (bp ep : ℕ)
  | run
  | stopped
  deriving DecidableEq

/-! ## The stub -/

/-- Entry to `gdbstub_interactive`. -/
def gdbstubInteractive (e : Emu) : Except Abort (Point × Emu) := do
  let e := { e with execute := false }
  require e.connected "x"
  pure (.recv, e)

def gdbstubBreakpoint (e : Emu) : Except Abort Emu := do
  require e.connected "x"
  gdbSendstr (ascii "S05") e

/-- Called once per instruction. -/
def gdbstubIntr (e : Emu) : Except Abort (Point × Emu) :=
  if !e.connected then pure (.run, e)
  else if e.stepone then gdbstubInteractive { e with stepone := false }
  else if e.breakpoints e.machine.pc then do
    let e ← gdbstubBreakpoint e
    gdbstubInteractive e
  else pure (.run, e)

/-- What `recv` delivers, put behind the bytes that are there. -/
def Emu.received (e : Emu) (bytes : List Byte) : Emu :=
  { e with
    clientbuf := e.clientbuf.take e.cblen ++ bytes ++ e.clientbuf.drop (e.cblen + bytes.length)
    cblen := e.cblen + bytes.length }

/-- One pass of the receiving loop, up to the scanning loop. -/
def gdbstubReceive (r : Recv) (e : Emu) : Except Abort (Point × Emu) :=
  match r with
  | .failed => throw (.exit "recv")
  | .wouldBlock => pure (.scan 0 e.cblen, e)
  | .data bytes =>
    match bytes.take (pktBufMax - e.cblen) with
    | [] => throw (.exit "Client dropped, exiting.")
    | bytes => pure (.scan 0 (e.received bytes).cblen, e.received bytes)

/-- The first `#` between `bp` and `ep`. -/
def findPound (buf : List Byte) (bp ep : ℕ) : Option ℕ :=
  (((buf.drop bp).take (ep - bp)).idxOf? 0x23).map (bp + ·)

/-- What follows the scanning loop: the rest moves to the front. -/
def gdbstubScanned (bp ep : ℕ) (e : Emu) : Point × Emu :=
  let e := if bp = 0 then e else
    { e with
      clientbuf := (e.clientbuf.drop bp).take (ep - bp) ++ e.clientbuf.drop (ep - bp)
      cblen := ep - bp }
  (if e.execute then .run else .recv, e)

/-- One pass of the scanning loop. A packet is complete when two characters follow its `#`. -/
def gdbstubScan (bp ep : ℕ) (e : Emu) : Except Abort (Point × Emu) :=
  if bp < ep then
    if e.clientbuf[bp]? = some 0x2b ∨ e.clientbuf[bp]? = some 0x2d then
      pure (.scan (bp + 1) ep, { e with cblen := e.cblen - 1 })
    else
      match findPound e.clientbuf bp ep with
      | none => pure (.scan bp ep, e)
      | some pound =>
        if pound + 2 < ep then do
          let e ← gdbCmd bp pound e
          let bp := pound + 3
          if e.execute then pure (gdbstubScanned bp ep e) else pure (.scan bp ep, e)
        else pure (.scan bp ep, e)
  else pure (gdbstubScanned bp ep e)

/-! ## The emulator -/

/-- A word as `%04x` prints it. -/
def hexWord (w : Word) : List Byte := Hex.pair ((w >>> 8).setWidth 8) ++ Hex.pair (w.setWidth 8)

/-- What the trace file gets for an instruction: its words as text or as they are in memory. -/
def traced (tracehex : Bool) (words : List Word) : List Byte :=
  if words.isEmpty then []
  else if tracehex then words.flatMap (fun w => hexWord w ++ ascii " ") ++ ascii "\n"
  else words.flatMap fun w : Word => [w.setWidth 8, (w >>> 8).setWidth 8]

variable [DesLibrary]

/-- One call of `emulate1`, with its trace output. -/
def Emu.emulate1 (e : Emu) : Except Abort Emu :=
  match exec (AvrEmu.emulate1 (!e.replayMode && e.tracefile.isSome)) e.machine with
  | .ok (words, m) => .ok
    { e with machine := m, tracefile := e.tracefile.map (· ++ traced e.tracehex words) }
  | .error a => .error a

/-- `init`; the caller sets `pc`, which is zero already. -/
def Emu.init (e : Emu) : Emu := { e with machine := e.machine.init, off := false }

/-- The head of the emulator loop: the end of a replay, and the stub. -/
def emulateTop (ctrlc : Bool) (e : Emu) : Except Abort (Point × Emu) :=
  if ctrlc then throw (.exit "Got ^C, stopping...")
  else
    let e := if e.replayMode && e.insnreplaylim ≤ e.machine.insns then
      { e with replayMode := false, insnreplaylim := 0, stepone := true } else e
    if e.replayMode then pure (.run, e) else gdbstubIntr e

/-- The rest of the emulator loop: the start of a replay, or one instruction. -/
def emulateRun (e : Emu) : Except Abort (Point × Emu) :=
  if e.replayMode && e.insnreplaylim < e.machine.insns then pure (.top, e.init)
  else if e.off then pure (.stopped, e)
  else do
    let e ← e.emulate1
    if e.off then pure (.stopped, e)
    else if e.insnlimit != 0 && e.insnlimit ≤ e.machine.insns then pure (.stopped, e)
    else pure (.top, e)

/-- One tick. -/
def tick (env : Env) (p : Point) (e : Emu) : Except Abort (Point × Emu) :=
  match p with
  | .top => emulateTop env.ctrlc e
  | .recv => gdbstubReceive env.recv e
  | .scan bp ep => gdbstubScan bp ep e
  | .run => emulateRun e
  | .stopped => pure (.stopped, e)

/-- A number of ticks, one for each contribution of the world. -/
def ticks : List Env → Point → Emu → Except Abort (Point × Emu)
  | [], p, e => .ok (p, e)
  | env :: envs, p, e =>
    match tick env p e with
    | .ok (p', e') => ticks envs p' e'
    | .error a => .error a

theorem ticks_singleton (env : Env) (p : Point) (e : Emu) : ticks [env] p e = tick env p e := by
  rw [ticks]
  cases tick env p e <;> rfl

theorem ticks_append (envs envs' : List Env) (p : Point) (e : Emu) :
    ticks (envs ++ envs') p e = match ticks envs p e with
      | .ok (p', e') => ticks envs' p' e'
      | .error a => .error a := by
  induction envs generalizing p e with
  | nil => rfl
  | cons env envs ih =>
    rw [List.cons_append, ticks, ticks]
    cases tick env p e with
    | error a => rfl
    | ok r => exact ih r.1 r.2

end AvrEmu
