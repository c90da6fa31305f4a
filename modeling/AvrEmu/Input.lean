import AvrEmu.Contract
import AvrEmu.Gdb.Serve
import Mathlib.Data.List.DropRight

/-!
# Input for the guest

A guest asks for a line of input with the address and the size of a buffer. The line is read into
a buffer of the host, copied to data memory as text or as the bytes of hexadecimal digits, and
recorded under the instruction count, so that a replay can give the guest the same input again.
-/

namespace AvrEmu

/-- The variables of the host that input changes. -/
structure Console where
  stdin : List Byte
  inputRecord : ℕ → Option (List Byte)

/-- `ins_inprec(dat, sz)`, where `dat` are the `sz` bytes that are copied. -/
def insInprec (insns : ℕ) (dat : List Byte) (c : Console) : Console :=
  { c with inputRecord := Function.update c.inputRecord insns (some (dat ++ [0])) }

/-! ## The C library -/

/-- The contents of a string, up to the first zero byte. -/
def cstring (buf : List Byte) : List Byte := buf.takeWhile (· != 0)

def strlen (buf : List Byte) : ℕ := (cstring buf).length

/-- What `strncpy(_, buf, n)` stores: the string cut or filled up to `n` bytes. -/
def strncpy (buf : List Byte) (n : ℕ) : List Byte :=
  (cstring buf).take n ++ List.replicate (n - strlen buf) 0

/-- At most `n` characters of a text, up to its first line feed. -/
def readLine : ℕ → List Byte → List Byte × List Byte
  | 0, s => ([], s)
  | _, [] => ([], [])
  | n + 1, c :: s =>
    if c == 0x0a then ([c], s)
    else
      let (line, rest) := readLine n s
      (c :: line, rest)

/-- `fgets(buf, n, stdin)`: the buffer and the text that is left, or nothing at its end. -/
def fgets (buf : List Byte) (n : ℕ) (stdin : List Byte) : Option (List Byte × List Byte) :=
  if stdin.isEmpty then none
  else
    let (line, rest) := readLine (n - 1) stdin
    some (line ++ 0 :: buf.drop (line.length + 1), rest)

/-! ## Reading a line -/

/-- Whether a character ends a line. -/
def isEol (c : Byte) : Bool := c == 0x0a || c == 0x0d

/-- Overwrites the line end before position `len` of a buffer with zeros. -/
def chomp : ℕ → List Byte → List Byte
  | 0, buf => buf
  | len + 1, buf => if isEol (buf.getD len 0) then chomp len (buf.set len 0) else buf

/-- The loop over the digit pairs behind the colon, with the number of bytes it stores. `junk` is
what the uninitialised variable of a round holds. -/
def hexLoop (buf : List Byte) (junk : ℕ → BitVec 32) (addr : ℕ) : ℕ → ℕ → Exec ℕ
  | 0, i => pure i
  | n + 1, i =>
    if buf.getD (2 * i + 1) 0 == 0 || buf.getD (2 * i + 2) 0 == 0 then do
      setMem (addr + i) 0
      pure i
    else do
      let byte := ((Hex.scan (some 2) (buf.drop (2 * i + 1))).map Prod.fst).getD (junk i)
      setMem (addr + i) (byte.setWidth 8)
      hexLoop buf junk addr n (i + 1)

/-- The two ways to give a line to the guest. -/
def storeLine (buf : List Byte) (junk : ℕ → BitVec 32) (addr bufsz : ℕ) (c : Console) :
    Exec Console := do
  let s ← core
  if buf.getD 0 0 != 0x3a then do
    let buf := chomp (strlen buf) buf
    writeBytes addr (strncpy buf bufsz)
    setMem (addr + strlen buf) 0
    pure (insInprec s.insns (buf.take bufsz) c)
  else do
    let i ← hexLoop buf junk addr (bufsz - 1) 0
    let dat ← readBytes addr i
    pure (insInprec s.insns dat c)

/-- `getsn(addr, bufsz)`. The buffer of the host starts out as the bytes `heap`. -/
def getsn (replayMode : Bool) (heap : ℕ → Byte) (junk : ℕ → BitVec 32) (addr bufsz : Word)
    (c : Console) : Exec Console := do
  assert (addr.toNat + bufsz.toNat < 0xffff) "overflow"
  if bufsz.toNat ≤ 1 then pure c
  else do
    let s ← core
    let prevInp := c.inputRecord s.insns
    when replayMode (assert prevInp.isSome "input at insn:%ju not found!")
    match prevInp with
    | some inp => do
      writeBytes addr.toNat inp
      pure c
    | none =>
      let n := 2 * bufsz.toNat + 2
      let buf := ((List.range n).map heap).set 0 0
      match fgets buf n c.stdin with
      | none => pure { c with stdin := [] }
      | some (buf, rest) => storeLine buf junk addr.toNat bufsz.toNat { c with stdin := rest }

end AvrEmu
