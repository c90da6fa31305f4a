import AvrEmu.Lib.Hex
import AvrEmu.Emulate1

/-!
# The commands of the debugger stub

The variables of the emulator around the machine, and what the stub does with one packet.
All handlers send their answer at once; what they send goes to the log.
-/

namespace AvrEmu

/-- What the stub is seen to do: it takes up a packet, or it sends something. -/
inductive Event where
  | packet (bytes : List Byte)
  | send (bytes : List Byte)
  deriving DecidableEq

/-- The variables of the emulator and of the stub. The client socket matters only as being
connected or not, and the table of breakpoints as the set of its keys. -/
structure Emu where
  machine : Machine
  off : Bool
  replayMode : Bool
  insnreplaylim : ℕ
  insnlimit : ℕ
  tracehex : Bool
  tracefile : Option (List Byte)
  connected : Bool
  stepone : Bool
  execute : Bool
  breakpoints : BitVec 32 → Bool
  clientbuf : List Byte
  cblen : ℕ
  log : List Event

/-- The size of `clientbuf`. -/
@[simp] abbrev pktBufMax : ℕ := 0x2000

/-- The variables as the program starts, around a machine. -/
def Emu.start (m : Machine) : Emu where
  machine := m
  off := false
  replayMode := false
  insnreplaylim := 0
  insnlimit := 0
  tracehex := false
  tracefile := none
  connected := false
  stepone := false
  execute := false
  breakpoints := fun _ => false
  clientbuf := List.replicate pktBufMax 0
  cblen := 0
  log := []

/-- The stub waits for a client, and control goes to it before the first instruction. -/
def gdbstubInit (e : Emu) : Emu :=
  { e with connected := true, breakpoints := fun _ => false, stepone := true }

/-- Text in the program. -/
def ascii (s : String) : List Byte := s.toList.map fun c => BitVec.ofNat 8 c.toNat

/-- `ASSERT(cond, text)` outside the machine. -/
def require (cond : Bool) (text : String) : Except Abort Unit :=
  if cond then pure () else throw (.assertion text)

/-- The successful result of a conversion, as `ASSERT(rc == n, text)` after it demands. -/
def demand {α : Type} (r : Option α) (text : String) : Except Abort α :=
  match r with
  | some a => pure a
  | none => throw (.assertion text)

section Results

variable {α β : Type}

@[simp] theorem ok_bind (a : α) (f : α → Except Abort β) : (Except.ok a >>= f) = f a := rfl

@[simp] theorem error_bind (x : Abort) (f : α → Except Abort β) :
    (Except.error x >>= f) = .error x := rfl

@[simp] theorem pure_eq_ok (a : α) : (pure a : Except Abort α) = .ok a := rfl

@[simp] theorem throw_eq_error (x : Abort) : (throw x : Except Abort α) = .error x := rfl

@[simp] theorem require_true (text : String) : require true text = .ok () := rfl

@[simp] theorem require_false (text : String) : require false text = .error (.assertion text) := rfl

@[simp] theorem demand_some (a : α) (text : String) : demand (some a) text = .ok a := rfl

@[simp] theorem demand_none (text : String) :
    demand (none : Option α) text = .error (.assertion text) := rfl

/-- A sequence that succeeds has gone through its first part. -/
theorem bind_eq_ok {p : Except Abort α} {f : α → Except Abort β} {b : β} (h : p >>= f = .ok b) :
    ∃ a, p = .ok a ∧ f a = .ok b := by
  cases p with
  | error x => cases h
  | ok a => exact ⟨a, rfl, h⟩

theorem exists_of_toOption {r : Except Abort α} {f : α → β} {b : β}
    (h : r.toOption.map f = some b) : ∃ a, r = .ok a ∧ f a = b := by
  cases r with
  | error x => cases h
  | ok a => exact ⟨a, rfl, Option.some.inj h⟩

theorem require_eq_ok {cond : Bool} {text : String} (h : require cond text = .ok ()) :
    cond = true := by
  cases cond with
  | false => cases h
  | true => rfl

theorem demand_eq_ok {r : Option α} {text : String} {a : α} (h : demand r text = .ok a) :
    r = some a := by
  cases r with
  | none => cases h
  | some b =>
    cases h
    rfl

end Results

/-! ## Sending -/

/-- The sum of at most `len` bytes of a C string. -/
def gdbCksum (s : List Byte) (len : ℕ) : Byte :=
  ((s.take len).takeWhile (· != 0)).foldl (· + ·) 0

def gdbCksumstr (s : List Byte) : Byte := (s.takeWhile (· != 0)).foldl (· + ·) 0

def gdbSendraw (p : List Byte) (e : Emu) : Except Abort Emu := do
  require e.connected "x"
  pure { e with log := e.log ++ [.send p] }

/-- The packet that carries a text. -/
def framed (s : List Byte) : List Byte := ascii "$" ++ s ++ ascii "#" ++ Hex.pair (gdbCksumstr s)

/-- The buffer has 4096 bytes with the final zero; beyond it the C program sends what follows
in memory. -/
def gdbSendstr (s : List Byte) (e : Emu) : Except Abort Emu := do
  require e.connected "csock"
  let text := framed s
  if text.length ≤ 4096 then gdbSendraw ((text.take 4095 ++ [0]).take text.length) e
  else throw (.wildMemory 4096)

/-! ## Handlers -/

/-- A handler gets the text of its command and the string of its table entry. -/
abbrev Handler := List Byte → List Byte → Emu → Except Abort Emu

/-- The registers as the stub reports them. GDB expects a byte-addressed PC. -/
def Machine.regText (m : Machine) : List Byte :=
  (List.range 32).flatMap (fun i => Hex.pair (m.memory i)) ++ Hex.pair (m.memory sreg) ++
    Hex.pair (m.memory spLo) ++ Hex.pair (m.memory spHi) ++
    Hex.pair ((m.pc <<< 1 &&& 0xff).setWidth 8) ++ Hex.pair ((m.pc >>> 7 &&& 0xff).setWidth 8) ++
    Hex.pair ((m.pc >>> 15 &&& 0x7f).setWidth 8) ++ ascii "00"

def gdbGetregs : Handler := fun _ _ e => gdbSendstr e.machine.regText e

/-- `memory[i] = v` outside the machine. -/
def Emu.setMem (e : Emu) (i : ℕ) (v : Byte) : Emu :=
  { e with machine := { e.machine with memory := Function.update e.machine.memory i v } }

/-- `ASSERT(*cmd, "x")`. -/
def requireText (cmd : List Byte) : Except Abort Unit := require (cmd.headD 0 != 0) "x"

/-- Registers from number `i` on. -/
def setregsLoop : ℕ → ℕ → List Byte → Emu → Except Abort (List Byte × Emu)
  | 0, _, cmd, e => pure (cmd, e)
  | n + 1, i, cmd, e => do
    requireText cmd
    let (reglo, _) ← demand (Hex.scan (some 2) cmd) "x"
    setregsLoop n (i + 1) (cmd.drop 2) (e.setMem i (reglo.setWidth 8))

def gdbSetregs : Handler := fun cmd _ e => do
  let (cmd, e) ← setregsLoop 32 0 (cmd.drop 1) e
  requireText cmd
  let (reglo, _) ← demand (Hex.scan (some 2) cmd) "x"
  let e := e.setMem sreg (reglo.setWidth 8)
  let cmd := cmd.drop 2
  requireText cmd
  let (reglo, left) ← demand (Hex.scan (some 2) cmd) "x"
  let (reghi, _) ← demand (Hex.scan (some 2) left) "x"
  let e := (e.setMem spLo (reglo.setWidth 8)).setMem spHi (reghi.setWidth 8)
  let cmd := cmd.drop 4
  requireText cmd
  let (reglo, left) ← demand (Hex.scan (some 2) cmd) "x"
  let (reghi, left) ← demand (Hex.scan (some 2) left) "x"
  let (reg3, left) ← demand (Hex.scan (some 2) left) "x"
  let (reg4, _) ← demand (Hex.scan (some 2) left) "x"
  let pc := (reglo ||| reghi <<< 8 ||| reg3 <<< 16 ||| reg4 <<< 24) >>> 1
  require (pc &&& 0xffc00000 == 0) "PC is only 22 bits"
  require (e.machine.pc22 || pc &&& 0xffff0000 == 0) "PC is only 16 bits"
  gdbSendstr (ascii "OK") { e with machine := { e.machine with pc := pc } }

/-- The two numbers of an address and a length. -/
def scanRange (cmd : List Byte) : Option (BitVec 32 × BitVec 32 × List Byte) := do
  let (start, left) ← Hex.scan none cmd
  let left ← Hex.literal 0x2c left
  let (len, left) ← Hex.scan none left
  pure (start, len, left)

/-- Bytes of flash from `start + i` on. The buffer holds 2048 of them. -/
def readmemLoop (flash : ℕ → Word) (start : BitVec 32) : ℕ → ℕ → Except Abort (List Byte)
  | 0, _ => pure []
  | n + 1, i =>
    let addr := start + BitVec.ofNat 32 i
    if flashSize ≤ (addr / 2).toNat then throw (.wildMemory (addr / 2).toNat)
    else if 2048 ≤ i then throw (.wildMemory (2 * i))
    else do
      let flashwd := flash (addr / 2).toNat
      let val : Byte := if addr % 2 == 0 then (flashwd &&& 0xff).setWidth 8
        else (flashwd >>> 8).setWidth 8
      let left ← readmemLoop flash start n (i + 1)
      pure (Hex.pair val ++ left)

def gdbReadmem : Handler := fun cmd _ e => do
  let (start, rlen, _) ← demand (scanRange (cmd.drop 1)) "x"
  require (rlen * 2 < 4097) "buffer overrun"
  let buffer ← readmemLoop e.machine.flash start rlen.toNat 0
  gdbSendstr buffer e

/-- Bytes of data memory from `start + i` on. -/
def writememLoop (start : BitVec 32) : ℕ → ℕ → List Byte → Emu → Except Abort Emu
  | 0, _, _, e => pure e
  | n + 1, i, hexs, e => do
    let (byte, _) ← demand (Hex.scan (some 2) hexs) "x"
    writememLoop start n (i + 1) (hexs.drop 2)
      (e.setMem (start + BitVec.ofNat 32 i &&& 0xffff).toNat (byte.setWidth 8))

def gdbWritemem : Handler := fun cmd _ e => do
  let (start, len, left) ← demand (scanRange (cmd.drop 1)) "x"
  match Hex.literal 0x3a left with
  | none => throw (.exit "ill-formed write")
  | some hexs => do
    let e ← writememLoop start len.toNat 0 hexs e
    gdbSendstr (ascii "OK") e

/-- The address of a breakpoint command. -/
def scanBreak (cmd : List Byte) : Option (BitVec 32) := do
  let left ← Hex.literal 0x2c (cmd.drop 2)
  let (addr, _) ← Hex.scan none left
  pure addr

def gdbAddbreak : Handler := fun cmd _ e => do
  let addr ← demand (scanBreak cmd) "x"
  gdbSendstr (ascii "OK") { e with breakpoints := Function.update e.breakpoints addr true }

def gdbRembreak : Handler := fun cmd _ e => do
  let addr ← demand (scanBreak cmd) "x"
  gdbSendstr (ascii "OK") { e with breakpoints := Function.update e.breakpoints addr false }

def gdbConststring : Handler := fun _ extra e => gdbSendstr extra e

def gdbStep : Handler := fun _ _ e => gdbSendstr (ascii "S05") { e with stepone := true }

def gdbBstep : Handler := fun _ _ e =>
  if 0 < e.machine.insns then
    gdbSendstr (ascii "S05")
      { e with replayMode := true, insnreplaylim := e.machine.insns - 1 }
  else do
    let e ← gdbSendstr (ascii "T05replaylog:begin;") e
    pure { e with execute := false }

/-! ## Dispatch -/

structure CmdDispatch where
  cmd : List Byte
  extra : List Byte := []
  handler : Option Handler
  continueExec : Bool

def gdbDisp : List CmdDispatch := [
  { cmd := ascii "g", handler := gdbGetregs, continueExec := false },
  { cmd := ascii "G", handler := gdbSetregs, continueExec := false },
  { cmd := ascii "m", handler := gdbReadmem, continueExec := false },
  { cmd := ascii "M", handler := gdbWritemem, continueExec := false },
  { cmd := ascii "Z0", handler := gdbAddbreak, continueExec := false },
  { cmd := ascii "z0", handler := gdbRembreak, continueExec := false },
  { cmd := ascii "qAttached", extra := ascii "1", handler := gdbConststring,
    continueExec := false },
  { cmd := ascii "qSupported", extra := ascii "qRelocInsn-;ReverseStep+;PacketSize=2000",
    handler := gdbConststring, continueExec := false },
  { cmd := ascii "?", extra := ascii "S05", handler := gdbConststring, continueExec := false },
  { cmd := ascii "Hg", extra := ascii "OK", handler := gdbConststring, continueExec := false },
  { cmd := ascii "Hc", extra := ascii "OK", handler := gdbConststring, continueExec := false },
  { cmd := ascii "c", handler := none, continueExec := true },
  { cmd := ascii "s", handler := gdbStep, continueExec := true },
  { cmd := ascii "bs", handler := gdbBstep, continueExec := true }]

/-- The first entry whose command the text starts with. -/
def findCmd (text : List Byte) : Option CmdDispatch := gdbDisp.find? fun d => d.cmd.isPrefixOf text

/-- Carries out the command `text`. -/
def dispatch (text : List Byte) (e : Emu) : Except Abort Emu :=
  match findCmd text with
  | none => gdbSendstr [] e
  | some d =>
    let e := { e with execute := d.continueExec }
    match d.handler with
    | none => pure e
    | some handler => handler text d.extra e

/-- The checksum that follows the `#` at `pound`. -/
def scanCksum (text : List Byte) : Option (BitVec 32) := do
  let left ← Hex.literal 0x23 text
  let (cksend, _) ← Hex.scan (some 2) left
  pure cksend

/-- The packet between `c` and the `#` at `pound`, with the two digits after it. When there is
nothing before the `#`, its length wraps around. -/
def gdbCmd (c pound : ℕ) (e : Emu) : Except Abort Emu := do
  let text := e.clientbuf.drop c
  let e := { e with log := e.log ++ [.packet (text.take (pound + 3 - c))] }
  require (text.headD 0 != 0x2b && text.headD 0 != 0x2d) "should have been slurped already"
  let ckcalc := gdbCksum text.tail (if c < pound then pound - c - 1 else 2 ^ 64 - 1)
  let cksend ← demand (scanCksum (e.clientbuf.drop pound)) "proto"
  if ckcalc.setWidth 32 != cksend then gdbSendraw (ascii "-") e
  else do
    let e ← gdbSendraw (ascii "+") e
    let e := { e with clientbuf := e.clientbuf.set pound 0 }
    let text := e.clientbuf.drop c
    if text.headD 0 != 0x24 then gdbSendstr [] e
    else dispatch text.tail e

end AvrEmu
