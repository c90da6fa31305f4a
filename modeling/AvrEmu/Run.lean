import AvrEmu.ControlFlow
import Mathlib.Tactic.SplitIfs

/-!
# Runs

Several steps in a row, and what no step can change: the flash image and the knobs stay
as they are, every completed step counts one instruction, and it ends with the skip flag
lowered.
-/

namespace AvrEmu

variable {m m' m₁ : Machine} {d : InstrDecode} {idc : InstrDecodeCommon}

/-- The machine as the program starts, with an image in flash and everything else zero. -/
def Machine.powerOn (flash : ℕ → Word) : Machine where
  pc := 0
  pcStart := 0
  instrSize := 0
  skipNextInstruction := false
  flash := flash
  pc22 := false
  pcMemMax64k := false
  pcMemMax256b := false
  insns := 0
  memory := fun _ => 0

/-- The machine after `init` with its knobs then set. -/
def Machine.reset (m : Machine) (pc22 pcMemMax64k pcMemMax256b : Bool) : Machine :=
  { m.init with
    pc22 := pc22
    pcMemMax64k := pcMemMax64k
    pcMemMax256b := pcMemMax256b }

/-- The number of words the PC can address. -/
def Core.pcLimit (s : Core) : ℕ := if s.pc22 then 2 ^ 22 else 2 ^ 16

/-- The program counter lies within its width. -/
def Machine.PcInRange (m : Machine) : Prop := m.pc.toNat < m.pcLimit

theorem pcLimit_le (s : Core) : s.pcLimit ≤ 2 ^ 22 := by
  unfold Core.pcLimit
  split <;> norm_num

/-- The machine is about to execute an instruction of one of the opcodes. -/
def Machine.AtOp (m : Machine) (ops : List (Word × Word)) : Prop :=
  m.skipNextInstruction = false ∧ ∃ op ∈ ops, IsOp op m.instrWord

/-- The instruction at `pc` is ready to be executed. -/
structure Machine.Ready (m : Machine) (op : Word × Word) : Prop where
  skip_eq : m.skipNextInstruction = false
  pc_lt : m.pc.toNat < flashSize
  isOp : IsOp op m.instrWord

variable [DesLibrary]

/-- The machine after `n` steps. -/
def Machine.stepN (m : Machine) : ℕ → Except Abort Machine
  | 0 => .ok m
  | n + 1 =>
    match m.stepN n with
    | .ok m' => m'.step
    | .error e => .error e

@[simp] theorem stepN_zero : m.stepN 0 = .ok m := rfl

theorem stepN_succ {n : ℕ} (h : m.stepN n = .ok m') : m.stepN (n + 1) = m'.step := by
  simp only [Machine.stepN, h]

/-- The machine after `n` steps of a run that completes them. -/
def Machine.after (m : Machine) (n : ℕ) : Machine := (m.stepN n).toOption.getD m

/-- The machine after one step that completes. -/
def Machine.next (m : Machine) : Machine := m.step.toOption.getD m

theorem next_eq (h : m.step = .ok m') : m.next = m' := by
  rw [Machine.next, h]
  rfl

/-- A run that goes on has completed its earlier steps. -/
theorem stepN_succ_eq_ok {n : ℕ} (h : m.stepN (n + 1) = .ok m') :
    ∃ m₀, m.stepN n = .ok m₀ ∧ m₀.step = .ok m' := by
  cases hn : m.stepN n with
  | error e => simp [Machine.stepN, hn] at h
  | ok m₀ => exact ⟨m₀, rfl, (stepN_succ hn).symm.trans h⟩

/-- The steps of a run that completes. -/
theorem after_step {n : ℕ} (h : (m.stepN (n + 1)).isOk = true) :
    (m.after n).step = .ok (m.after (n + 1)) := by
  cases hrun : m.stepN (n + 1) with
  | error e =>
    rw [hrun] at h
    cases h
  | ok m' =>
    obtain ⟨m₀, hn, hstep⟩ := stepN_succ_eq_ok hrun
    simp only [Machine.after, hn, hrun]
    exact hstep

/-- The variables a step leaves alone. -/
structure SameSetup (s t : Core) : Prop where
  flash_eq : t.flash = s.flash
  pc22_eq : t.pc22 = s.pc22
  pcMemMax64k_eq : t.pcMemMax64k = s.pcMemMax64k
  pcMemMax256b_eq : t.pcMemMax256b = s.pcMemMax256b

omit [DesLibrary] in
theorem SameSetup.refl (s : Core) : SameSetup s s := ⟨rfl, rfl, rfl, rfl⟩

omit [DesLibrary] in
theorem SameSetup.trans {s t u : Core} (h : SameSetup s t) (h' : SameSetup t u) : SameSetup s u :=
  ⟨h'.flash_eq.trans h.flash_eq, h'.pc22_eq.trans h.pc22_eq,
    h'.pcMemMax64k_eq.trans h.pcMemMax64k_eq, h'.pcMemMax256b_eq.trans h.pcMemMax256b_eq⟩

/-- The row that a step executes is the one its instruction word selects. -/
theorem Machine.Executes.row_eq {r : InstrDecode} (h : m.Executes d idc m₁)
    (hr : lookupInstr m.instrWord = some r) : d = r :=
  Option.some.inj (h.fetches.lookup_eq.symm.trans hr)

theorem Machine.Executes.sameFrame (h : m.Executes d idc m₁) :
    SameFrame (m.fetched d).toCore m₁.toCore :=
  rel_of_exec (respects_sameFrame (lookupInstr_spec h.fetches.lookup_eq).1 _) h.exec_code

/-- The machine an instruction leaves, up to `pc` and the skip flag. -/
theorem Machine.Executes.toCore_eq (h : m.Executes d idc m₁) : m₁.toCore =
    { (m.fetched d).toCore with pc := m₁.pc, skipNextInstruction := m₁.skipNextInstruction } :=
  h.sameFrame

theorem Machine.Executes.setup (h : m.Executes d idc m₁) :
    SameSetup m.toCore m₁.toCore ∧ m₁.insns = m.insns ∧
      m₁.instrSize = if d.imm16 then 2 else 1 := by
  refine ⟨⟨?_, ?_, ?_, ?_⟩, ?_, ?_⟩ <;>
  · rw [h.toCore_eq]
    rfl

/-- Every completed step keeps the setup, lowers the skip flag and, unless it only passes
over an instruction, counts one. -/
theorem step_setup (h : m.step = .ok m') : SameSetup m.toCore m'.toCore ∧
    m'.skipNextInstruction = false ∧
    (m.skipNextInstruction = false → m'.insns = m.insns + 1) := by
  rcases step_cases h with ⟨d, hskip, -, rfl⟩ | ⟨d, idc, m₁, hexec, hskip, rfl⟩ |
    ⟨d, idc, m₁, e, hexec, -, -, rfl⟩
  · exact ⟨⟨rfl, rfl, rfl, rfl⟩, rfl, fun hfalse => by simp [hskip] at hfalse⟩
  · obtain ⟨⟨hflash, hpc22, h64k, h256b⟩, hinsns, -⟩ := hexec.setup
    exact ⟨⟨hflash, hpc22, h64k, h256b⟩, hskip, fun _ => congrArg (· + 1) hinsns⟩
  · obtain ⟨⟨hflash, hpc22, h64k, h256b⟩, hinsns, -⟩ := hexec.setup
    exact ⟨⟨hflash, hpc22, h64k, h256b⟩, rfl, fun _ => congrArg (· + 1) hinsns⟩

/-- No skip is pending between the steps of a run. -/
theorem skip_of_stepN {n : ℕ} (hskip : m.skipNextInstruction = false) (h : m.stepN n = .ok m') :
    m'.skipNextInstruction = false := by
  cases n with
  | zero =>
    cases h
    exact hskip
  | succ n =>
    obtain ⟨m₁, -, hstep⟩ := stepN_succ_eq_ok h
    exact (step_setup hstep).2.1

/-- A run keeps the setup. -/
theorem setup_of_stepN {n : ℕ} (h : m.stepN n = .ok m') : SameSetup m.toCore m'.toCore := by
  induction n generalizing m' with
  | zero =>
    cases h
    exact SameSetup.refl _
  | succ n ih =>
    obtain ⟨m₁, hrun, hstep⟩ := stepN_succ_eq_ok h
    exact (ih hrun).trans (step_setup hstep).1

/-- A run counts its steps. -/
theorem insns_of_stepN {n : ℕ} (hskip : m.skipNextInstruction = false) (h : m.stepN n = .ok m') :
    m'.insns = m.insns + n := by
  induction n generalizing m' with
  | zero =>
    cases h
    rfl
  | succ n ih =>
    obtain ⟨m₁, hrun, hstep⟩ := stepN_succ_eq_ok h
    rw [(step_setup hstep).2.2 (skip_of_stepN hskip hrun), ih hrun]
    rfl

/-- A step without a pending skip executes one instruction. -/
theorem executes_of_step (h : m.step = .ok m') (hskip : m.skipNextInstruction = false) :
    ∃ d idc m₁, m.Executes d idc m₁ ∧ (m₁.skipNextInstruction = false → m' = m₁.finish idc) := by
  rcases step_cases h with ⟨d, hskip', -, -⟩ | ⟨d, idc, m₁, hexec, -, rfl⟩ |
    ⟨d, idc, m₁, e, hexec, hraised, -, -⟩
  · simp [hskip] at hskip'
  · exact ⟨d, idc, m₁, hexec, fun _ => rfl⟩
  · refine ⟨d, idc, m₁, hexec, fun hlow => ?_⟩
    rw [hraised] at hlow
    cases hlow

/-- The step of a one-word instruction that only works on data memory. -/
theorem step_of_exec {op : Word × Word} (h : m.Ready op)
    (hlookup : lookupInstr m.instrWord = some d)
    (himm : d.imm16 = false) (hcode : exec (d.code (d.operands (m.decoded d))) (m.fetched d) =
      .ok (d.operands (m.decoded d), m₁)) (hcore : m₁.toCore = (m.fetched d).toCore) :
    m.step = .ok m.next ∧ m.next.memory = m₁.memory ∧ m.next.pc = m.pc + 1 ∧
      SameSetup m.toCore m.next.toCore ∧ m.next.skipNextInstruction = false := by
  have hfetch : m.Fetches d := ⟨h.pc_lt, hlookup, fun htrue => by simp [himm] at htrue⟩
  have hexec : m.Executes d _ m₁ := ⟨h.skip_eq, hfetch, hcode, BitVec.and_zero⟩
  have hlow : m₁.skipNextInstruction = false := by
    rw [hcore]
    exact h.skip_eq
  have hstep := hexec.step_eq hlow
  obtain ⟨hsetup, hskip, -⟩ := step_setup hstep
  rw [next_eq hstep]
  refine ⟨hstep, finish_memory_of_quiet rfl, ?_, hsetup, hskip⟩
  change m₁.pc + m₁.instrSize = _
  rw [hcore]
  simp [Machine.fetched, himm]

end AvrEmu
