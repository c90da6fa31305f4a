import AvrEmu.Exec
import AvrEmu.Lib.FirstMatch

/-!
# The course of one step

The rows of the decode table exclude one another, so any row that matches a word is the
row the search finds. A step that completes has fetched and decoded, run the code of
its row, merged the status changes and advanced, and perhaps passed over the
instruction that follows.
-/

namespace AvrEmu

variable {m m' : Machine}

/-! ## Lookup -/

/-- The pattern and mask of a row. -/
def InstrDecode.opcode (d : InstrDecode) : Word × Word := (d.pattern, d.mask)

/-- Two opcodes that disagree on a bit both of them test. -/
def Clash (a b : Word × Word) : Prop := (a.1 ^^^ b.1) &&& a.2 &&& b.2 ≠ 0#16

instance : DecidableRel Clash := fun _ _ => inferInstanceAs (Decidable (_ ≠ _))

instance : Std.Symm fun a b : InstrDecode => Clash a.opcode b.opcode where
  symm a b h := by
    unfold Clash at h ⊢
    rwa [BitVec.xor_comm, BitVec.and_assoc, BitVec.and_comm b.opcode.2, ← BitVec.and_assoc]

/-- The opcodes do not depend on the crypto library. -/
theorem opcodes_eq (i j : DesLibrary) :
    (@avrInstr i).map InstrDecode.opcode = (@avrInstr j).map InstrDecode.opcode := by
  simp only [avrInstr, List.map_cons, List.map_nil, InstrDecode.opcode]

/-- A stand-in for the crypto library in runs that do not reach it. -/
@[reducible] def idleDes : DesLibrary := ⟨fun _ _ _ => Vector.replicate 8 0⟩

/-! ## Decoded instructions -/

/-- The instruction word at `pc`. -/
def Machine.instrWord (m : Machine) : Word := m.flash m.pc.toNat

/-- The second word of the instruction at `pc`. -/
def Machine.nextWord (m : Machine) : Word := m.flash (m.pc.toNat + 1)

/-- The machine that has fetched an instruction of the row. -/
def Machine.fetched (m : Machine) (d : InstrDecode) : Machine :=
  m.mapCore fun s => { s with pcStart := s.pc, instrSize := if d.imm16 then 2 else 1 }

/-- The instruction as fetched, its operand fields not yet filled in. -/
def Machine.decoded (m : Machine) (d : InstrDecode) : InstrDecodeCommon :=
  { instr := m.instrWord, immU16 := if d.imm16 then m.nextWord else 0 }

/-- The operand fields of a word, by the flags of the row. -/
def InstrDecode.operands (d : InstrDecode) (idc : InstrDecodeCommon) : InstrDecodeCommon :=
  let w := idc.instr
  { idc with
    ddddd :=
      if d.ddd64 then 16#8 + (bitField w 6 4 >>> 4).setWidth 8
      else if d.dddd74 then 16#8 + (bitField w 7 4 >>> 4).setWidth 8
      else if d.ddddd84 then (bitField w 8 4 >>> 4).setWidth 8
      else idc.ddddd
    rrrrr :=
      if d.rrr20 then 16#8 + (bitField w 2 0).setWidth 8
      else if d.rrrr30 then 16#8 + (bitField w 3 0).setWidth 8
      else if d.rrrrr9_30 then (bitField w 9 9 >>> 5 ||| bitField w 3 0).setWidth 8
      else idc.rrrrr
    immU8 :=
      if d.kkkk118_30 then (bitField w 11 8 >>> 4 ||| bitField w 3 0).setWidth 8
      else idc.immU8 }

@[simp] theorem operands_instr (d : InstrDecode) (idc : InstrDecodeCommon) :
    (d.operands idc).instr = idc.instr := rfl

@[simp] theorem operands_immU16 (d : InstrDecode) (idc : InstrDecodeCommon) :
    (d.operands idc).immU16 = idc.immU16 := rfl

@[simp] theorem decoded_instr (d : InstrDecode) : (m.decoded d).instr = m.instrWord := rfl

@[simp] theorem fetched_memory (d : InstrDecode) : (m.fetched d).memory = m.memory := rfl

@[simp] theorem fetched_pc22 (d : InstrDecode) : (m.fetched d).pc22 = m.pc22 := rfl

@[simp] theorem decodeOperands_eq (d : InstrDecode) (idc : InstrDecodeCommon) :
    decodeOperands d idc = pure (d.operands idc) := by
  obtain ⟨_, _, _, ddddd84, dddd74, ddd64, rrrrr9_30, rrrr30, rrr20, kkkk, _⟩ := d
  cases ddddd84 <;> cases dddd74 <;> cases ddd64 <;> cases rrrrr9_30 <;> cases rrrr30 <;>
    cases rrr20 <;> cases kkkk <;> rfl

/-- The machine after the status changes are merged. -/
def Machine.mergeFlags (m : Machine) (f : Flags) : Machine :=
  m.setMem sreg (m.memory sreg &&& ~~~f.clrflags ||| f.setflags)

/-- The machine after the instruction has been counted and left behind. -/
def Machine.retire (m : Machine) : Machine :=
  m.mapCore fun s => { s with pc := s.pc + s.instrSize, insns := s.insns + 1 }

/-- The machine after the fetched instruction has been passed over. -/
def Machine.passOver (m : Machine) : Machine :=
  m.mapCore fun s => { s with skipNextInstruction := false, pc := s.pc + s.instrSize }

/-- The machine after the instruction, before any skip. -/
def Machine.finish (m₁ : Machine) (idc : InstrDecodeCommon) : Machine :=
  (m₁.mergeFlags idc.toFlags).retire

/-- An instruction without status changes ends with the memory its code leaves. -/
theorem finish_memory_of_quiet {idc : InstrDecodeCommon} (h : idc.toFlags = {}) :
    (m.finish idc).memory = m.memory := by
  have hsame : m.memory sreg &&& ~~~(0 : Byte) ||| 0 = m.memory sreg := by
    rw [show ~~~(0 : Byte) = BitVec.allOnes 8 from rfl, BitVec.and_allOnes]
    exact BitVec.or_zero
  change Function.update m.memory sreg (m.memory sreg &&& ~~~idc.toFlags.clrflags |||
    idc.toFlags.setflags) = m.memory
  rw [h, hsame, Function.update_eq_self]

@[simp] theorem exec_mergeFlags (f : Flags) : exec (mergeFlags f) m =
    if f.clrflags &&& f.setflags = 0#8 then .ok ((), m.mergeFlags f)
    else .error (.assertion "overlapped flags") := by
  by_cases h : f.clrflags &&& f.setflags = 0#8 <;>
    simp [AvrEmu.mergeFlags, h, Machine.mergeFlags, Machine.setMem]

@[simp] theorem exec_passOver : exec passOver m = .ok ((), m.passOver) := rfl

/-- The instruction of a row, without trace output. -/
theorem exec_execute (d : InstrDecode) (idc : InstrDecodeCommon) : exec (execute false d idc) m =
    match exec (d.code (d.operands idc)) m with
    | .ok (idc', m₁) =>
      if idc'.clrflags &&& idc'.setflags = 0#8 then .ok ([], m₁.finish idc')
      else .error (.assertion "overlapped flags")
    | .error e => .error e := by
  cases h : exec (d.code (d.operands idc)) m with
  | error e => simp [execute, h]
  | ok r =>
    by_cases hover : r.1.clrflags &&& r.1.setflags = 0#8
    · simp [execute, h, hover, Machine.finish, Machine.retire, Machine.mapCore]
    · simp [execute, h, hover]

variable [i : DesLibrary]

/-- The rows of the decode table exclude one another. -/
theorem avrInstr_clash : avrInstr.Pairwise fun a b => Clash a.opcode b.opcode := by
  rw [← List.pairwise_map, opcodes_eq i idleDes]
  decide +kernel

/-- No instruction word is matched by two rows. -/
theorem avrInstr_exclusive : FirstMatch.Exclusive InstrDecode.matchesWord avrInstr :=
  FirstMatch.exclusive_of_pairwise avrInstr_clash fun _ _ _ hclash ha hb =>
    Bits.not_both_match (beq_iff_eq.mp ha) hclash (beq_iff_eq.mp hb)

/-- A row that is found belongs to the table and matches. -/
theorem lookupInstr_spec {d : InstrDecode} {w : Word} (h : lookupInstr w = some d) :
    d ∈ avrInstr ∧ w &&& d.mask = d.pattern := by
  obtain ⟨hd, hw⟩ := avrInstr_exclusive.find?_eq_some_iff.mp h
  exact ⟨hd, beq_iff_eq.mp hw⟩

/-- Any row of the table that matches a word is the row found for it. -/
theorem lookupInstr_eq_some {d : InstrDecode} {w : Word} (hd : d ∈ avrInstr)
    (hw : w &&& d.mask = d.pattern) : lookupInstr w = some d :=
  avrInstr_exclusive.find?_eq_some_iff.mpr ⟨hd, beq_iff_eq.mpr hw⟩

/-- The words of the instruction at `pc` lie in flash and match the row. -/
structure Machine.Fetches (m : Machine) (d : InstrDecode) : Prop where
  pc_lt : m.pc.toNat < flashSize
  lookup_eq : lookupInstr m.instrWord = some d
  imm_lt : d.imm16 = true → m.pc.toNat + 1 < flashSize

theorem Machine.Fetches.exec_fetch {d : InstrDecode} (h : m.Fetches d) :
    exec fetch m = .ok ((d, m.decoded d), m.fetched d) := by
  obtain ⟨hpc, hlookup, himm⟩ := h
  have hmod : (m.pc.toNat + 1) % 4294967296 = m.pc.toNat + 1 := by
    unfold flashSize at hpc
    omega
  unfold Machine.instrWord at hlookup
  cases hd : d.imm16 with
  | false =>
    simp [fetch, hpc, hlookup, hd, Machine.decoded, Machine.fetched, Machine.instrWord,
      Machine.mapCore]
  | true =>
    simp [fetch, hpc, hlookup, hd, hmod, himm hd, Machine.decoded, Machine.fetched,
      Machine.instrWord, Machine.nextWord, Machine.mapCore]

/-- A fetch that succeeds has found a row. -/
theorem fetches_of_exec_fetch {d : InstrDecode} {idc : InstrDecodeCommon}
    (h : exec fetch m = .ok ((d, idc), m')) :
    m.Fetches d ∧ idc = m.decoded d ∧ m' = m.fetched d := by
  have hpc : m.pc.toNat < flashSize := by
    by_contra hpc
    simp [fetch, hpc] at h
  have hmod : (m.pc.toNat + 1) % 4294967296 = m.pc.toNat + 1 := by
    unfold flashSize at hpc
    omega
  cases hlookup : lookupInstr m.instrWord with
  | none =>
    unfold Machine.instrWord at hlookup
    simp [fetch, hpc, hlookup] at h
  | some e =>
    have himm : e.imm16 = true → m.pc.toNat + 1 < flashSize := by
      intro hd
      by_contra hnext
      unfold Machine.instrWord at hlookup
      simp [fetch, hpc, hlookup, hd, hmod, hnext] at h
    have hfetch : m.Fetches e := ⟨hpc, hlookup, himm⟩
    rw [hfetch.exec_fetch] at h
    cases h
    exact ⟨hfetch, rfl, rfl⟩

/-! ## The whole step -/

/-- One step of the machine, its trace output left out. -/
def Machine.step (m : Machine) : Except Abort Machine :=
  match exec (emulate1 false) m with
  | .ok (_, m') => .ok m'
  | .error e => .error e

/-- The course of a step that executes an instruction of row `d`: `idc` are the pending
changes and `m₁` is the machine its code leaves. -/
structure Machine.Executes (m : Machine) (d : InstrDecode) (idc : InstrDecodeCommon)
    (m₁ : Machine) : Prop where
  skip_eq : m.skipNextInstruction = false
  fetches : m.Fetches d
  exec_code : exec (d.code (d.operands (m.decoded d))) (m.fetched d) = .ok (idc, m₁)
  disjoint : idc.clrflags &&& idc.setflags = 0#8

/-- A step without a skip ends when the instruction retires. -/
theorem Machine.Executes.step_eq {d : InstrDecode} {idc : InstrDecodeCommon} {m₁ : Machine}
    (h : m.Executes d idc m₁) (hskip : m₁.skipNextInstruction = false) :
    m.step = .ok (m₁.finish idc) := by
  have hfetched : (m.fetched d).skipNextInstruction = false := h.skip_eq
  have hfinish : (m₁.finish idc).skipNextInstruction = false := hskip
  simp [Machine.step, emulate1, h.fetches.exec_fetch, hfetched, exec_execute, h.exec_code,
    h.disjoint, hfinish]

/-- A step with a skip fetches once more and passes over what it finds. -/
theorem Machine.Executes.step_eq_of_skip {d e : InstrDecode} {idc : InstrDecodeCommon}
    {m₁ : Machine} (h : m.Executes d idc m₁) (hskip : m₁.skipNextInstruction = true)
    (hnext : (m₁.finish idc).Fetches e) :
    m.step = .ok ((m₁.finish idc).fetched e).passOver := by
  have hfetched : (m.fetched d).skipNextInstruction = false := h.skip_eq
  have hfinish : (m₁.finish idc).skipNextInstruction = true := hskip
  simp [Machine.step, emulate1, h.fetches.exec_fetch, hfetched, exec_execute, h.exec_code,
    h.disjoint, hfinish, hnext.exec_fetch]

/-- Every step that completes takes one of three courses. -/
theorem step_cases (h : m.step = .ok m') :
    (∃ d, m.skipNextInstruction = true ∧ m.Fetches d ∧ m' = (m.fetched d).passOver) ∨
    (∃ d idc m₁, m.Executes d idc m₁ ∧ m₁.skipNextInstruction = false ∧ m' = m₁.finish idc) ∨
    (∃ d idc m₁ e, m.Executes d idc m₁ ∧ m₁.skipNextInstruction = true ∧
      (m₁.finish idc).Fetches e ∧ m' = ((m₁.finish idc).fetched e).passOver) := by
  cases hfetch : exec fetch m with
  | error e => simp [Machine.step, emulate1, hfetch] at h
  | ok r =>
    obtain ⟨⟨d, idc₀⟩, m₀⟩ := r
    obtain ⟨hd, rfl, rfl⟩ := fetches_of_exec_fetch hfetch
    have hsame : (m.fetched d).skipNextInstruction = m.skipNextInstruction := rfl
    cases hskip : m.skipNextInstruction with
    | true =>
      rw [hskip] at hsame
      simp [Machine.step, emulate1, hfetch, hsame] at h
      exact Or.inl ⟨d, rfl, hd, h.symm⟩
    | false =>
      rw [hskip] at hsame
      right
      cases hcode : exec (d.code (d.operands (m.decoded d))) (m.fetched d) with
      | error e => simp [Machine.step, emulate1, hfetch, hsame, exec_execute, hcode] at h
      | ok r =>
        obtain ⟨idc, m₁⟩ := r
        by_cases hover : idc.clrflags &&& idc.setflags = 0#8
        · have hexec : m.Executes d idc m₁ := ⟨hskip, hd, hcode, hover⟩
          cases hnext : m₁.skipNextInstruction with
          | false =>
            rw [hexec.step_eq hnext] at h
            cases h
            exact Or.inl ⟨d, idc, m₁, hexec, hnext, rfl⟩
          | true =>
            right
            have hfinish : (m₁.finish idc).skipNextInstruction = true := hnext
            cases hfetch' : exec fetch (m₁.finish idc) with
            | error e =>
              simp [Machine.step, emulate1, hfetch, hsame, exec_execute, hcode, hover, hfinish,
                hfetch'] at h
            | ok r =>
              obtain ⟨⟨e, idc'⟩, m₂⟩ := r
              have he := (fetches_of_exec_fetch hfetch').1
              rw [hexec.step_eq_of_skip hnext he] at h
              cases h
              exact ⟨d, idc, m₁, e, hexec, hnext, he, rfl⟩
        · simp [Machine.step, emulate1, hfetch, hsame, exec_execute, hcode, hover] at h

end AvrEmu
