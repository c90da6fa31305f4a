import AvrEmu.Lib.Patterns
import AvrEmu.ReadBack
import AvrEmu.ProgramLoads
import AvrEmu.ProgramCounter
import AvrEmu.Transfers

/-!
# The instruction set

The instructions that the emulator knows, told apart by their opcodes, and what each of them makes
of a machine: an interpreter that knows neither the decode table nor the handlers. Where the
emulator has ways of its own, so has the interpreter: with the zero bit of subtractions and
comparisons, LDS beyond 256 bytes, RAMPZ behind ELPM, a pop at the end of memory, the rounds of DES,
and the instructions that are not carried out.
-/

namespace AvrEmu

variable {m m' : Machine} {w : Word}

/-! ## Arithmetic and logic -/

/-- The status register after the bits of a status have been replaced, the lowest `n` of them. -/
def Status.merged (st : Status) (s : Byte) : ℕ → Byte
  | 0 => s
  | n + 1 =>
    match st.bit n with
    | some v => withBit (st.merged s n) n v
    | none => st.merged s n

theorem getLsbD_merged (st : Status) (s : Byte) {n i : ℕ} (hi : i < 8) :
    (st.merged s n).getLsbD i = if i < n then (st.bit i).getD (s.getLsbD i) else s.getLsbD i := by
  induction n with
  | zero => rfl
  | succ n ih =>
    rw [Status.merged]
    by_cases heq : i = n
    · subst heq
      rw [if_neg (lt_irrefl i)] at ih
      rw [if_pos (Nat.lt_succ_self i)]
      cases st.bit i with
      | none => exact ih
      | some v =>
        dsimp only
        rw [getLsbD_withBit _ _ hi, if_pos rfl]
        rfl
    · have hlt : i < n + 1 ↔ i < n := by omega
      simp only [hlt]
      cases st.bit n with
      | none => exact ih
      | some v =>
        dsimp only
        rwa [getLsbD_withBit _ _ hi, if_neg heq]

/-- What an instruction leaves behind here: the subtractions and comparisons of two registers never
set the zero bit. -/
def AluOp.effect (op : AluOp) (m : Machine) : Outcome :=
  match op with
  | cp | cpc | sub | sbc => { op.outcome m with status := (op.outcome m).status.keepZ }
  | _ => op.outcome m

/-- Data memory after an outcome. -/
def Outcome.left (o : Outcome) (m : Machine) : ℕ → Byte :=
  Function.update (m.storeBytes o.dest o.bytes).memory sreg (o.status.merged (m.memory sreg) 8)

/-- A realized outcome is all that has happened to data memory. -/
theorem Outcome.Realized.memory_eq {o : Outcome} (h : o.Realized [] m m') :
    m'.memory = o.left m := by
  funext a
  unfold Outcome.left
  by_cases ha : a = sreg
  · subst ha
    rw [Function.update_self]
    apply BitVec.eq_of_getLsbD_eq
    intro i hi
    rw [h.status_eq i hi List.not_mem_nil, getLsbD_merged _ _ hi, if_pos hi]
  · rw [Function.update_of_ne ha]
    by_cases hin : ∃ i < o.bytes.length, a = o.dest + i
    · obtain ⟨i, hi, rfl⟩ := hin
      rw [h.stored i hi, storeBytes_memory hi]
    · have hout : ∀ i < o.bytes.length, a ≠ o.dest + i := fun i hi heq => hin ⟨i, hi, heq⟩
      rw [h.frame a ha hout, storeBytes_memory_of_ne hout]

/-! ## Instructions -/

deriving instance DecidableEq for AluOp

def AluOp.all : List AluOp :=
  [add, adc, adiw, sbiw, and, andi, or, ori, eor, com, neg, inc, dec, asr, lsr, ror, mul, muls,
    mulsu, fmul, fmuls, fmulsu, cp, cpc, sub, sbc, cpi, subi, sbci]

theorem AluOp.mem_all (op : AluOp) : op ∈ AluOp.all := by
  cases op <;> decide

/-- The instructions that are decoded but not carried out. -/
inductive IdleOp where
  | sleep | brk | wdr | spm | spmInc
  deriving DecidableEq

def IdleOp.all : List IdleOp := [sleep, brk, wdr, spm, spmInc]

theorem IdleOp.mem_all (op : IdleOp) : op ∈ IdleOp.all := by
  cases op <;> decide

def IdleOp.opcode : IdleOp → Word × Word
  | sleep => (0x9588, 0xffff)
  | brk => (0x9598, 0xffff)
  | wdr => (0x95a8, 0xffff)
  | spm => (0x95e8, 0xffff)
  | spmInc => (0x95f8, 0xffff)

/-- The instructions that may pass over the next one. -/
inductive SkipOp where
  | cpse | sbics | sbrcs

def SkipOp.opcode : SkipOp → Word × Word
  | cpse => Op.cpse
  | sbics => Op.sbics
  | sbrcs => Op.sbrcs

/-- The instructions of the emulator. -/
inductive Insn where
  | alu (op : AluOp)
  | transfer (op : TransferOp)
  /-- LDS and STS. -/
  | direct (store : Bool)
  /-- LD and ST through a pointer that stays as it is, for Y and Z with a displacement. -/
  | displaced (p : Pointer) (store : Bool)
  /-- LD and ST that decrement the pointer first or increment it afterwards. -/
  | update (p : Pointer) (dec store : Bool)
  /-- LPM and ELPM. -/
  | program (p : ProgramLoad)
  | push
  | pop
  /-- BRBS and BRBC. -/
  | branch
  /-- RJMP and RCALL. -/
  | relative (call : Bool)
  /-- JMP and CALL. -/
  | jump (call : Bool)
  /-- IJMP, ICALL, EIJMP and EICALL. -/
  | indirect (ext call : Bool)
  /-- RET and RETI. -/
  | ret (enable : Bool)
  | skip (op : SkipOp)
  | des
  | idle (op : IdleOp)

namespace Insn

def opcode : Insn → Word × Word
  | alu op => op.opcode
  | transfer op => op.opcode
  | direct store => Route.direct.op store
  | displaced p store => (Route.indirect p).op store
  | update p dec store => p.updateOp dec store
  | program p => p.opcode
  | push => Op.push
  | pop => Op.pop
  | branch => Op.brb
  | relative call => (if call then 0xd000 else 0xc000, 0xf000)
  | jump call => if call then Op.call else Op.jmp
  | indirect ext call =>
    (0x9409 ||| (if ext then 0x10 else 0) ||| (if call then 0x100 else 0), 0xffff)
  | ret enable => if enable then Op.reti else Op.ret
  | skip op => op.opcode
  | des => (0x940b, 0xff0f)
  | idle op => op.opcode

/-- All of them. -/
def all : List Insn :=
  AluOp.all.map alu ++ TransferOp.all.map transfer ++ IdleOp.all.map idle ++
  [false, true].flatMap (fun b =>
    [direct b, displaced .x b, displaced .y b, displaced .z b, update .x false b, update .x true b,
      update .y false b, update .y true b, update .z false b, update .z true b,
      program (.implied b), program (.register b false), program (.register b true), relative b,
      jump b, indirect b false, indirect b true, ret b]) ++
  [push, pop, branch, skip .cpse, skip .sbics, skip .sbrcs, des]

theorem mem_all (i : Insn) : i ∈ all := by
  cases i with
  | alu op => simp [all, AluOp.mem_all]
  | transfer op => simp [all, TransferOp.mem_all]
  | direct store => cases store <;> simp [all]
  | displaced p store => cases p <;> cases store <;> simp [all]
  | update p dec store => cases p <;> cases dec <;> cases store <;> simp [all]
  | program p =>
    cases p with
    | implied ext => cases ext <;> simp [all]
    | register ext postinc => cases ext <;> cases postinc <;> simp [all]
  | push => simp [all]
  | pop => simp [all]
  | branch => simp [all]
  | relative call => cases call <;> simp [all]
  | jump call => cases call <;> simp [all]
  | indirect ext call => cases ext <;> cases call <;> simp [all]
  | ret enable => cases enable <;> simp [all]
  | skip op => cases op <;> simp [all]
  | des => simp [all]
  | idle op => simp [all, IdleOp.mem_all]

/-- The instruction that a word begins. -/
def decode (w : Word) : Option Insn := all.find? fun i => decide (IsOp i.opcode w)

instance : Std.Symm fun i j : Insn => Clash i.opcode j.opcode where
  symm i j h := by
    unfold Clash at h ⊢
    rwa [BitVec.xor_comm, BitVec.and_assoc, BitVec.and_comm j.opcode.2, ← BitVec.and_assoc]

/-- No two instructions share a word. -/
theorem all_clash : all.Pairwise fun i j => Clash i.opcode j.opcode := by
  decide +kernel

theorem decode_eq_some_iff {i : Insn} : decode w = some i ↔ IsOp i.opcode w := by
  have hexclusive : FirstMatch.Exclusive (fun (i : Insn) (w : Word) => decide (IsOp i.opcode w))
      all :=
    FirstMatch.exclusive_of_pairwise all_clash fun _ _ _ hclash hi hj =>
      Bits.not_both_match (of_decide_eq_true hi) hclash (of_decide_eq_true hj)
  rw [decode, hexclusive.find?_eq_some_iff, decide_eq_true_iff]
  exact and_iff_right (mem_all i)

/-- The instructions account for every row of the decode table. -/
theorem rows_covered [i : DesLibrary] : ∀ d ∈ avrInstr,
    Pattern.covered (all.map opcode) [12, 3, 9, 1, 0, 7, 4, 8] d.opcode = true := by
  have hrows : (avrInstr.map InstrDecode.opcode).all
      (Pattern.covered (all.map opcode) [12, 3, 9, 1, 0, 7, 4, 8]) = true := by
    rw [opcodes_eq i idleDes]
    decide +kernel
  exact fun d hd => List.all_eq_true.mp hrows d.opcode (List.mem_map_of_mem hd)

/-- The decode table has a row for every instruction. -/
theorem insns_covered [i : DesLibrary] : ∀ j : Insn,
    ∃ op ∈ avrInstr.map InstrDecode.opcode, Pattern.finer j.opcode op = true := by
  have hall : (all.all fun j =>
      (avrInstr.map InstrDecode.opcode).any (Pattern.finer j.opcode)) = true := by
    rw [opcodes_eq i idleDes]
    decide +kernel
  exact fun j => List.any_eq_true.mp (List.all_eq_true.mp hall j (mem_all j))

/-- A word begins an instruction exactly when the decode table has a row for it. -/
theorem decode_isSome_iff [DesLibrary] : (decode w).isSome = (lookupInstr w).isSome := by
  rw [Bool.eq_iff_iff, Option.isSome_iff_exists, Option.isSome_iff_exists]
  constructor
  · rintro ⟨j, hj⟩
    have hop := decode_eq_some_iff.mp hj
    obtain ⟨op, hmem, hfiner⟩ := insns_covered j
    obtain ⟨d, hd, rfl⟩ := List.mem_map.mp hmem
    exact ⟨d, lookupInstr_eq_some hd (Pattern.Fits.of_finer hop hfiner)⟩
  · rintro ⟨d, hd⟩
    obtain ⟨hmem, hfits⟩ := lookupInstr_spec hd
    have hcovered := rows_covered d hmem
    obtain ⟨op, hop, hw⟩ := Pattern.Fits.exists_of_covered (p := d.opcode) hfits hcovered
    obtain ⟨j, -, rfl⟩ := List.mem_map.mp hop
    exact ⟨j, decode_eq_some_iff.mpr hw⟩

end Insn

/-! ## What they mean -/

/-- The target of JMP and CALL: 22 bits or, with the narrow program counter, 16. -/
def Machine.jumpTarget (m : Machine) : BitVec 32 :=
  let high := m.instrWord.extractLsb' 4 5 ++ m.instrWord.extractLsb' 0 1
  if m.pc22 then (high ++ m.nextWord : BitVec 22).setWidth 32
  else m.nextWord.setWidth 32

/-- Whether a load from program memory increments Z. -/
def ProgramLoad.postinc : ProgramLoad → Bool
  | implied _ => false
  | register _ inc => inc

/-- Bytes of data memory in a row. -/
def Machine.bytes (m : Machine) (i n : ℕ) : List Byte :=
  (List.range n).map fun k => m.memory (i + k)

/-- The abort of a fetch from outside of the flash. -/
def beyondFlash : Abort := .assertion "load outside 24-bit addressable program memory"

/-- The instruction at an address of flash. -/
def Machine.insnAt (m : Machine) (a : BitVec 32) : Except Abort Insn :=
  if a.toNat < flashSize then
    match Insn.decode (m.flash a.toNat) with
    | none => .error (.illins (m.flash a.toNat))
    | some i =>
      if a.toNat + instrLength (m.flash a.toNat) ≤ flashSize then .ok i else .error beyondFlash
  else .error beyondFlash

/-- The machine that has passed over the instruction behind the one at `pc`. -/
def Machine.skipped (m : Machine) : Machine :=
  let size := BitVec.ofNat 32 (instrLength m.nextWord)
  { m with
    pc := m.pc + 1 + size
    pcStart := m.pc + 1
    instrSize := size
    insns := m.insns + 1 }

variable [DesLibrary]

/-- The sixteenth round runs the cipher on r0 to r7 with the key in r8 to r15. The others do
nothing. -/
def Machine.desRound (m : Machine) : Machine :=
  if fieldDUpper m.instrWord = 15 then
    m.storeBytes 0 (DesLibrary.ecbEncrypt (m.bytes 8 8) (m.bytes 0 8)
      (!(m.memory sreg).getLsbD 5)).toList
  else m

/-- What an instruction makes of a machine that has reached it. -/
def Insn.meaning (i : Insn) (m : Machine) : Except Abort Machine :=
  let w := m.instrWord
  let d := (fieldD w).toNat
  match i with
  | alu op => .ok (m.passed ((op.effect m).left m))
  | transfer op => .ok (m.passed (op.stored m).memory)
  | direct store =>
    .ok (m.led 2 (m.pc + 2) (m.moved store d (Route.direct.cell m store)).memory)
  | displaced p store =>
    .ok (m.passed (m.moved store d (Route.storeCell m (.indirect p))).memory)
  | update p dec store =>
    if d = p.register ∨ d = p.register + 1 then .error (.illins w)
    else
      let c := m.updateCell dec p.register p.ramp
      .ok (m.passed ((m.moved store d c).setPointer p.register p.ramp
        (if dec then c else c + 1)).memory)
  | program p =>
    let m₁ := m.setMem (p.dest w) (m.romByte (m.loadAddress p))
    if p.postinc then
      if d = 30 ∨ d = 31 then .error (.illins w)
      else .ok (m.passed (m₁.setWord regpZ (m.word regpZ + 1)).memory)
    else .ok (m.passed m₁.memory)
  | push => .ok (m.passed (m.push m.rd).memory)
  | pop => .ok (m.passed (m.drop.setMem d m.top).memory)
  | branch =>
    .ok (m.led 1 (if m.branches then m.pc + (fieldBranch w).signExtend 32 + 1 else m.pc + 1)
      m.memory)
  | relative call =>
    .ok (m.led 1 (m.pc + (fieldJump w).signExtend 32 + 1)
      (if call then m.pushPc (m.pc + 1) else m).memory)
  | jump call => .ok (m.led 2 m.jumpTarget (if call then m.pushPc (m.pc + 2) else m).memory)
  | indirect ext call =>
    if ext && !m.pc22 then .error (.illins w)
    else .ok (m.led 1 (m.indirectTarget ext) (if call then m.pushPc (m.pc + 1) else m).memory)
  | ret enable =>
    let m₁ := m.dropPc
    .ok (m.led 1 m.topPc
      (if enable then m₁.setMem sreg (withBit (m₁.memory sreg) 7 true) else m₁).memory)
  | skip _ =>
    if m.skips then
      match m.insnAt (m.pc + 1) with
      | .ok _ => .ok m.skipped
      | .error e => .error e
    else .ok (m.passed m.memory)
  | des => .ok (m.passed m.desRound.memory)
  | idle _ => .error (.unhandled w)

/-- A step of the interpreter. -/
def Machine.interpret (m : Machine) : Except Abort Machine :=
  match m.insnAt m.pc with
  | .ok i => i.meaning m
  | .error e => .error e

/-- `n` steps of it. -/
def Machine.interpretN (m : Machine) : ℕ → Except Abort Machine
  | 0 => .ok m
  | n + 1 =>
    match m.interpretN n with
    | .ok m' => m'.interpret
    | .error e => .error e

end AvrEmu
