import AvrEmu.Run
import Mathlib.Tactic.NormNum
import Mathlib.Tactic.SplitIfs

/-!
# The range of the program counter

`pc` is a 32-bit variable. Calls, returns and absolute jumps give it values of the width
of the PC; whatever counts from `pc` is never reduced to that width, and neither is a
target that takes its upper bits from EIND.
-/

namespace AvrEmu

variable {m m' m₁ : Machine} {d : InstrDecode} {idc : InstrDecodeCommon}

/-- Whether the conditional branch at `pc` is taken. -/
def Machine.branches (m : Machine) : Bool :=
  (m.memory sreg).getLsbD (fieldBit m.instrWord).toNat != m.instrWord.getLsbD 10

/-- Whether the instruction at `pc` asks to skip the next one. -/
def Machine.skips (m : Machine) : Bool :=
  let w := m.instrWord
  if IsOp Op.cpse w then m.memory (fieldD w).toNat == m.memory (fieldR w).toNat
  else if IsOp Op.sbics w then
    w.getLsbD 9 == (m.memory (ioBase + (fieldPort w).toNat)).getLsbD (fieldBit w).toNat
  else if IsOp Op.sbrcs w then
    w.getLsbD 9 == (m.memory (fieldD w).toNat).getLsbD (fieldBit w).toNat
  else false

/-- Where an instruction that counts from `pc` leads, as an integer. -/
def Machine.countedTarget (m : Machine) : ℤ :=
  let w := m.instrWord
  if IsOp Op.brb w ∧ m.branches = true then m.pc.toNat + 1 + (fieldBranch w).toInt
  else if IsOp Op.rcalljmp w then m.pc.toNat + 1 + (fieldJump w).toInt
  else if m.skips then m.pc.toNat + 1 + instrLength m.nextWord
  else m.pc.toNat + instrLength w

/-- The instructions that may skip the next one. -/
def Op.skips : List (Word × Word) := [Op.cpse, Op.sbics, Op.sbrcs]

/-- The instructions that give `pc` a value of the width of the PC. -/
def Op.absolute : List (Word × Word) := [Op.jmp, Op.call, Op.ret, Op.reti]

/-- The instruction at `pc` does not lead out of the range of the PC: EIJMP and EICALL find
an EIND that fits, and what counts from `pc` neither passes the top nor falls below zero. -/
def Machine.StaysInside (m : Machine) : Prop :=
  (∃ op ∈ Op.absolute, IsOp op m.instrWord) ∨
  (IsOp Op.eicalljump m.instrWord ∧
    (m.instrWord.getLsbD 4 = true → (m.memory eind).toNat < 0x40)) ∨
  (¬ (∃ op ∈ Op.absolute, IsOp op m.instrWord) ∧ ¬ IsOp Op.eicalljump m.instrWord ∧
    0 ≤ m.countedTarget ∧ m.countedTarget < m.pcLimit)

/-- A destination a little way off reduces to a value in range only when it lies there. -/
theorem ofInt_lt_pcLimit_iff {x : ℤ} (hlow : -2 ^ 31 ≤ x) (hhigh : x < 2 ^ 31) (s : Core) :
    (BitVec.ofInt 32 x).toNat < s.pcLimit ↔ 0 ≤ x ∧ x < s.pcLimit := by
  have hle := pcLimit_le s
  rw [BitVec.toNat_ofInt]
  omega

/-- Counting on in the 32 bits of `pc`. -/
theorem ofInt_add_toNat (p : BitVec 32) (k : ℤ) :
    BitVec.ofInt 32 (p.toNat + k) = p + BitVec.ofInt 32 k := by
  rw [BitVec.ofInt_add, BitVec.ofInt_natCast, BitVec.ofNat_toNat, BitVec.setWidth_eq]

theorem ofInt_counted (p : BitVec 32) (k : ℤ) :
    BitVec.ofInt 32 (p.toNat + 1 + k) = p + BitVec.ofInt 32 k + 1 := by
  rw [Int.add_assoc, Int.add_comm 1 k, ofInt_add_toNat, BitVec.ofInt_add, BitVec.add_assoc]
  rfl

/-- A target that an instruction gives in full fits the PC. -/
theorem target_lt_pcLimit (idc : InstrDecodeCommon) (s : Core) :
    (idc.target s.pc22).toNat < s.pcLimit := by
  unfold InstrDecodeCommon.target Core.pcLimit
  cases s.pc22 with
  | false => exact Bits.toNat_setWidth_lt (Nat.le_refl 16) idc.immU16
  | true =>
    have hhi : (bitField idc.instr 8 4 >>> 3).toNat < 2 ^ 6 := by
      have hle : idc.instr.toNat &&& 0x1f0 ≤ 0x1f0 := Nat.and_le_right
      have heq : bitField idc.instr 8 4 = idc.instr &&& 0x1f0#16 := rfl
      rw [heq, BitVec.toNat_ushiftRight, BitVec.toNat_and, Nat.shiftRight_eq_div_pow]
      change (idc.instr.toNat &&& 0x1f0) / _ < _
      omega
    have hlo : (bitField idc.instr 0 0).toNat < 2 ^ 6 := by
      have hle : idc.instr.toNat &&& 1 ≤ 1 := Nat.and_le_right
      have heq : bitField idc.instr 0 0 = idc.instr &&& 1#16 := rfl
      rw [heq, BitVec.toNat_and]
      change (idc.instr.toNat &&& 1) < _
      omega
    have hor := Nat.or_lt_two_pow hhi hlo
    rw [if_pos rfl, if_pos rfl, BitVec.toNat_or]
    refine Nat.or_lt_two_pow (Bits.toNat_setWidth_lt (by decide) _) ?_
    rw [BitVec.toNat_shiftLeft, BitVec.toNat_or, BitVec.toNat_setWidth_of_le (by decide),
      BitVec.toNat_setWidth_of_le (by decide), Nat.shiftLeft_eq]
    omega

/-- A return address fits the PC, whatever bytes it is popped from. -/
theorem topPc_lt_pcLimit : m.topPc.toNat < m.pcLimit := by
  unfold Machine.topPc Core.pcLimit
  cases m.pc22 with
  | false =>
    simp only [Bool.false_eq_true, if_false]
    rw [BitVec.toNat_or, BitVec.toNat_shiftLeft, BitVec.toNat_setWidth_of_le (by decide),
      Nat.shiftLeft_eq]
    have := m.top.isLt
    exact Nat.or_lt_two_pow (by omega) (Bits.toNat_setWidth_lt (by decide) _)
  | true =>
    simp only [if_true]
    rw [BitVec.toNat_and]
    exact Nat.and_lt_two_pow _ (by decide)

/-- With a 22-bit PC an indirect target fits when EIND does; without EIND it always fits. -/
theorem indirectTarget_lt_pcLimit_iff {ext : Bool} (hext : ext = true → m.pc22 = true) :
    (m.indirectTarget ext).toNat < m.pcLimit ↔ (ext = true → (m.memory eind).toNat < 0x40) := by
  unfold Machine.indirectTarget Core.pcLimit
  have hword := (m.word 30).isLt
  cases ext with
  | false =>
    simp only [Bool.false_eq_true, if_false, BitVec.toNat_setWidth_of_le (show 16 ≤ 32 by decide),
      false_implies, iff_true]
    split <;> omega
  | true =>
    simp only [hext rfl, if_true, Bits.toNat_or_shiftLeft (show 16 + 8 ≤ 32 by decide),
      forall_const]
    omega

private theorem skips_eq_false {op : Word × Word} (hop : IsOp op m.instrWord)
    (hcpse : Clash op Op.cpse) (hsbics : Clash op Op.sbics) (hsbrcs : Clash op Op.sbrcs) :
    m.skips = false := by
  simp only [Machine.skips, hop.not_of_clash hcpse, hop.not_of_clash hsbics,
    hop.not_of_clash hsbrcs, if_false]

/-- A skip instruction does not branch. -/
theorem not_jump_of_skips (hskips : m.skips = true) : ¬ IsOp Op.brb m.instrWord ∧
    ¬ IsOp Op.rcalljmp m.instrWord := by
  refine ⟨fun hop => ?_, fun hop => ?_⟩
  · simp [skips_eq_false hop (by decide) (by decide) (by decide)] at hskips
  · simp [skips_eq_false hop (by decide) (by decide) (by decide)] at hskips

theorem countedTarget_bounds (hpc : m.PcInRange) :
    -2 ^ 31 ≤ m.countedTarget ∧ m.countedTarget < 2 ^ 31 := by
  have hle := pcLimit_le m.toCore
  have hbranch_low := BitVec.le_toInt (fieldBranch m.instrWord)
  have hbranch_high := (fieldBranch m.instrWord).toInt_lt
  have hjump_low := BitVec.le_toInt (fieldJump m.instrWord)
  have hjump_high := (fieldJump m.instrWord).toInt_lt
  have hlength (w : Word) : instrLength w ≤ 2 := by
    unfold instrLength
    split <;> omega
  have hfirst := hlength m.instrWord
  have hsecond := hlength m.nextWord
  unfold Machine.PcInRange at hpc
  simp only [Machine.countedTarget]
  split_ifs <;> omega

variable [DesLibrary]

/-- An instruction that is not control flow leaves `pc` and the skip flag alone. -/
theorem Machine.Executes.toCore_eq_fetched (h : m.Executes d idc m₁)
    (hop : ∀ op ∈ Op.control, ¬ IsOp op m.instrWord) : m₁.toCore = (m.fetched d).toCore := by
  obtain ⟨hd, hmatch⟩ := lookupInstr_spec h.fetches.lookup_eq
  have hplain : d.opcode ∉ Op.control := fun hmem => hop d.opcode hmem hmatch
  exact (rel_of_exec (respects_eq hd hplain _) h.exec_code).symm

/-- Absolute jumps, calls and returns lead to a value of the width of the PC. -/
theorem Machine.Executes.pc_of_absolute (h : m.Executes d idc m₁)
    (hop : ∃ op ∈ Op.absolute, IsOp op m.instrWord) :
    m₁.skipNextInstruction = false ∧ (m₁.pc + m₁.instrSize).toNat < m.pcLimit := by
  have hlands (t : BitVec 32) (ht : t.toNat < m.pcLimit)
      (hcore : m₁.toCore = { (m.fetched d).toCore with pc := t - (m.fetched d).instrSize }) :
      m₁.skipNextInstruction = false ∧ (m₁.pc + m₁.instrSize).toNat < m.pcLimit := by
    rw [hcore]
    refine ⟨h.skip_eq, ?_⟩
    simpa only [BitVec.sub_add_cancel] using ht
  have hcode := h.exec_code
  generalize d.operands (m.decoded d) = idc₀ at hcode
  obtain ⟨op, hmem, hop⟩ := hop
  simp only [Op.absolute, List.mem_cons, List.not_mem_nil, or_false] at hmem
  rcases hmem with rfl | rfl | rfl | rfl
  · obtain rfl := h.row_eq (lookup_jmp hop)
    rw [exec_instrJmp] at hcode
    cases hcode
    exact hlands _ (target_lt_pcLimit idc m.toCore) rfl
  · obtain rfl := h.row_eq (lookup_call hop)
    rw [exec_instrCall] at hcode
    cases hcode
    refine hlands _ (target_lt_pcLimit idc m.toCore) ?_
    rw [mapCore_toCore, pushPc_toCore]
    rfl
  · obtain rfl := h.row_eq (lookup_ret hop)
    rw [exec_instrRet] at hcode
    cases hcode
    refine hlands _ topPc_lt_pcLimit ?_
    rw [mapCore_toCore, dropPc_toCore]
    rfl
  · obtain rfl := h.row_eq (lookup_reti hop)
    rw [exec_instrReti] at hcode
    cases hcode
    refine hlands _ topPc_lt_pcLimit ?_
    rw [setMem_toCore, mapCore_toCore, dropPc_toCore]
    rfl

/-- The indirect jumps and calls lead to Z, extended by EIND in the extended forms. -/
theorem Machine.Executes.pc_of_eicalljump (h : m.Executes d idc m₁)
    (hop : IsOp Op.eicalljump m.instrWord) :
    m₁.skipNextInstruction = false ∧ (m.instrWord.getLsbD 4 = true → m.pc22 = true) ∧
      m₁.pc + m₁.instrSize = m.indirectTarget (m.instrWord.getLsbD 4) := by
  have hcode := h.exec_code
  obtain rfl := h.row_eq (lookup_eicalljump hop)
  rw [exec_instrEicalljump] at hcode
  change (if m.instrWord.getLsbD 4 && !m.pc22 then _ else Except.ok (_,
    (if m.instrWord.getLsbD 8 then _ else _ : Machine).mapCore _)) = _ at hcode
  have hpushed (v : BitVec 32) (n : Machine) :
      (if m.instrWord.getLsbD 8 then n.pushPc v else n).toCore = n.toCore := by
    split
    · exact pushPc_toCore v
    · rfl
  by_cases hillegal : (m.instrWord.getLsbD 4 && !m.pc22) = true
  · rw [if_pos hillegal] at hcode
    cases hcode
  · rw [if_neg hillegal] at hcode
    cases hcode
    simp only [mapCore_toCore, hpushed, BitVec.sub_add_cancel]
    refine ⟨h.skip_eq, fun hext => ?_, rfl⟩
    simpa [hext] using hillegal

/-- The code leaves the skip flag as announced, and `pc` short of its destination by the
size of the instruction. -/
def Machine.Counts (m m₁ : Machine) : Prop :=
  m₁.skipNextInstruction = m.skips ∧ m₁.pc + m₁.instrSize =
    if m.skips then m.pc + 1 else BitVec.ofInt 32 m.countedTarget

theorem Machine.Executes.counts_of_brb (h : m.Executes d idc m₁) (hop : IsOp Op.brb m.instrWord) :
    m.Counts m₁ := by
  have hskips : m.skips = false := skips_eq_false hop (by decide) (by decide) (by decide)
  have hjump : ¬ IsOp Op.rcalljmp m.instrWord := hop.not_of_clash (by decide)
  have hlength : instrLength m.instrWord = 1 := instrLength_eq (lookup_brb hop)
  have hcode := h.exec_code
  obtain rfl := h.row_eq (lookup_brb hop)
  rw [exec_instrBrb (operands_rrr20 _ rfl)] at hcode
  change Except.ok (_, if m.branches then _ else _) = _ at hcode
  unfold Machine.Counts
  cases htaken : m.branches with
  | false =>
    rw [htaken] at hcode
    cases hcode
    simp only [hskips, Machine.countedTarget, hop, htaken, hjump, hlength, Bool.false_eq_true,
      and_false, if_false]
    exact ⟨h.skip_eq, (ofInt_add_toNat m.pc 1).symm⟩
  | true =>
    rw [htaken] at hcode
    cases hcode
    simp only [hskips, Machine.countedTarget, hop, htaken, Bool.false_eq_true, and_self, if_false,
      if_true, ofInt_counted]
    exact ⟨h.skip_eq, rfl⟩

theorem Machine.Executes.counts_of_rcalljmp (h : m.Executes d idc m₁)
    (hop : IsOp Op.rcalljmp m.instrWord) : m.Counts m₁ := by
  have hskips : m.skips = false := skips_eq_false hop (by decide) (by decide) (by decide)
  have hbranch : ¬ IsOp Op.brb m.instrWord := hop.not_of_clash (by decide)
  have hcode := h.exec_code
  obtain rfl := h.row_eq (lookup_rcalljmp hop)
  rw [exec_instrRcalljmp] at hcode
  cases hcode
  have hpushed (c : Bool) (v : BitVec 32) (n : Machine) :
      (if c then n.pushPc v else n).toCore = n.toCore := by
    split
    · exact pushPc_toCore v
    · rfl
  unfold Machine.Counts
  simp only [hskips, Machine.countedTarget, hop, hbranch, mapCore_toCore, hpushed,
    Bool.false_eq_true, false_and, if_false, if_true, ofInt_counted]
  exact ⟨h.skip_eq, rfl⟩

/-- The code of a skip instruction raises the flag when its condition holds, and does no more. -/
theorem exec_skip (hop : ∃ op ∈ Op.skips, IsOp op m.instrWord) :
    ∃ d, lookupInstr m.instrWord = some d ∧ d.imm16 = false ∧
      exec (d.code (d.operands (m.decoded d))) (m.fetched d) = .ok (d.operands (m.decoded d),
        if m.skips then (m.fetched d).mapCore fun s => { s with skipNextInstruction := true }
        else m.fetched d) := by
  obtain ⟨op, hmem, hop⟩ := hop
  simp only [Op.skips, List.mem_cons, List.not_mem_nil, or_false] at hmem
  rcases hmem with rfl | rfl | rfl
  · refine ⟨_, lookup_cpse hop, rfl, ?_⟩
    rw [exec_instrCpse, operands_ddddd84_toNat _ rfl rfl rfl,
      operands_rrrrr9_30_toNat _ rfl rfl rfl]
    simp only [Machine.skips, hop, if_true]
    rfl
  · have hcpse : ¬ IsOp Op.cpse m.instrWord := hop.not_of_clash (by decide)
    refine ⟨_, lookup_sbics hop, rfl, ?_⟩
    rw [exec_instrSbics (operands_rrr20 _ rfl)]
    simp only [Machine.skips, hcpse, hop, if_true, if_false]
    rfl
  · have hcpse : ¬ IsOp Op.cpse m.instrWord := hop.not_of_clash (by decide)
    have hsbics : ¬ IsOp Op.sbics m.instrWord := hop.not_of_clash (by decide)
    refine ⟨_, lookup_sbrcs hop, rfl, ?_⟩
    rw [exec_instrSbrcs (operands_rrr20 _ rfl), operands_ddddd84_toNat _ rfl rfl rfl]
    simp only [Machine.skips, hcpse, hsbics, hop, if_true, if_false]
    rfl

theorem Machine.Executes.counts_of_skip (h : m.Executes d idc m₁)
    (hop : ∃ op ∈ Op.skips, IsOp op m.instrWord) : m.Counts m₁ := by
  obtain ⟨e, hlookup, himm, hcode⟩ := exec_skip hop
  obtain rfl := h.row_eq hlookup
  rw [h.exec_code] at hcode
  cases hcode
  have hclash : ∀ op ∈ Op.skips, Clash op Op.brb ∧ Clash op Op.rcalljmp := by
    rw [Op.skips, List.forall_mem_cons, List.forall_mem_cons, List.forall_mem_singleton]
    decide
  obtain ⟨op, hmem, hop⟩ := hop
  have hbranch : ¬ IsOp Op.brb m.instrWord := hop.not_of_clash (hclash op hmem).1
  have hjump : ¬ IsOp Op.rcalljmp m.instrWord := hop.not_of_clash (hclash op hmem).2
  have hlength : instrLength m.instrWord = 1 := by
    rw [instrLength_eq hlookup, himm]
    rfl
  have hsize : (m.fetched d).instrSize = 1 := by
    simp [Machine.fetched, himm]
  have hskip : (m.fetched d).skipNextInstruction = false := h.skip_eq
  unfold Machine.Counts
  cases hskips : m.skips with
  | false =>
    simp only [hskips, Machine.countedTarget, hbranch, hjump, hlength, hskip, hsize,
      Bool.false_eq_true, false_and, if_false, true_and]
    exact (ofInt_add_toNat m.pc 1).symm
  | true =>
    simp only [if_true, mapCore_toCore, hsize, true_and]
    rfl

/-- Every instruction that is no absolute or indirect jump counts from `pc`. -/
theorem Machine.Executes.counts (h : m.Executes d idc m₁)
    (habs : ¬ ∃ op ∈ Op.absolute, IsOp op m.instrWord)
    (hind : ¬ IsOp Op.eicalljump m.instrWord) : m.Counts m₁ := by
  by_cases hbrb : IsOp Op.brb m.instrWord
  · exact h.counts_of_brb hbrb
  by_cases hjump : IsOp Op.rcalljmp m.instrWord
  · exact h.counts_of_rcalljmp hjump
  by_cases hskip : ∃ op ∈ Op.skips, IsOp op m.instrWord
  · exact h.counts_of_skip hskip
  have hcpse : ¬ IsOp Op.cpse m.instrWord := fun hop => hskip ⟨_, by decide, hop⟩
  have hsbics : ¬ IsOp Op.sbics m.instrWord := fun hop => hskip ⟨_, by decide, hop⟩
  have hsbrcs : ¬ IsOp Op.sbrcs m.instrWord := fun hop => hskip ⟨_, by decide, hop⟩
  have hskips : m.skips = false := by
    simp only [Machine.skips, hcpse, hsbics, hsbrcs, if_false]
  have hcore : m₁.toCore = (m.fetched d).toCore := by
    apply h.toCore_eq_fetched
    intro op hmem hop
    simp only [Op.control, List.mem_cons, List.not_mem_nil, or_false] at hmem
    simp only [Op.absolute, List.mem_cons, List.not_mem_nil, or_false, not_exists, not_and] at habs
    rcases hmem with rfl | rfl | rfl | rfl | rfl | rfl | rfl | rfl | rfl | rfl
    · exact hcpse hop
    · exact habs Op.jmp (by simp) hop
    · exact habs Op.call (by simp) hop
    · exact habs Op.ret (by simp) hop
    · exact hind hop
    · exact habs Op.reti (by simp) hop
    · exact hsbics hop
    · exact hjump hop
    · exact hbrb hop
    · exact hsbrcs hop
  unfold Machine.Counts
  rw [hcore]
  refine ⟨by rw [hskips]; exact h.skip_eq, ?_⟩
  simp only [hskips, Machine.countedTarget, hbrb, hjump, Bool.false_eq_true, false_and, if_false,
    instrLength_eq h.fetches.lookup_eq]
  change m.pc + (if d.imm16 then 2 else 1) = _
  cases d.imm16 with
  | false => exact (ofInt_add_toNat m.pc 1).symm
  | true => exact (ofInt_add_toNat m.pc 2).symm

/-! ## Runs from reset -/

/-- No fetch of the step that starts here fails the range check of `romword`. -/
def Machine.FetchesInside (m : Machine) : Prop :=
  (∀ text, exec fetch m ≠ .error (.assertion text)) ∧
  ∀ d idc m₁, m.Executes d idc m₁ → m₁.skipNextInstruction = true →
    ∀ text, exec fetch (m₁.finish idc) ≠ .error (.assertion text)

/-- A fetch fails the range check only past the top of flash. -/
theorem fetch_ne_assertion (hpc : m.pc.toNat + 1 < flashSize) (text : String) :
    exec fetch m ≠ .error (.assertion text) := by
  have hmod : (m.pc.toNat + 1) % 4294967296 = m.pc.toNat + 1 := by
    unfold flashSize at hpc
    omega
  have hlt : m.pc.toNat < flashSize := by omega
  cases hlookup : lookupInstr (m.flash m.pc.toNat) with
  | none => simp [fetch, hlt, hlookup]
  | some d => cases himm : d.imm16 <;> simp [fetch, hlt, hlookup, himm, hmod, hpc]

/-- An instruction whose code raises the skip flag has counted on to the next one. -/
theorem Machine.Executes.of_skip (h : m.Executes d idc m₁) (hskip : m₁.skipNextInstruction = true) :
    (¬ ∃ op ∈ Op.absolute, IsOp op m.instrWord) ∧ ¬ IsOp Op.eicalljump m.instrWord ∧
      m.skips = true ∧ (m₁.finish idc).pc = m.pc + 1 := by
  have habs : ¬ ∃ op ∈ Op.absolute, IsOp op m.instrWord := fun hop => by
    simp [(h.pc_of_absolute hop).1] at hskip
  have hind : ¬ IsOp Op.eicalljump m.instrWord := fun hop => by
    simp [(h.pc_of_eicalljump hop).1] at hskip
  obtain ⟨hflag, hpc⟩ := h.counts habs hind
  rw [hskip] at hflag
  rw [← hflag, if_pos rfl] at hpc
  exact ⟨habs, hind, hflag.symm, hpc⟩

theorem Machine.PcInRange.fetchesInside (hpc : m.PcInRange) : m.FetchesInside := by
  have hle := pcLimit_le m.toCore
  unfold Machine.PcInRange at hpc
  refine ⟨fetch_ne_assertion (by unfold flashSize; omega), fun d idc m₁ hexec hskip => ?_⟩
  apply fetch_ne_assertion
  rw [(hexec.of_skip hskip).2.2.2, BitVec.toNat_add]
  change (m.pc.toNat + 1) % 4294967296 + 1 < flashSize
  unfold flashSize
  omega

/-- A step from a `pc` in range ends in range exactly when its instruction stays inside. -/
theorem pcInRange_step_iff (hpc : m.PcInRange) (hskip : m.skipNextInstruction = false)
    (h : m.step = .ok m') : m'.PcInRange ↔ m.StaysInside := by
  have hlimit : m'.pcLimit = m.pcLimit := by
    simp only [Core.pcLimit, (step_setup h).1.pc22_eq]
  obtain ⟨hlow, hhigh⟩ := countedTarget_bounds hpc
  unfold Machine.PcInRange
  rw [hlimit]
  rcases step_cases h with ⟨d, hskip', -, -⟩ | ⟨d, idc, m₁, hexec, hnoskip, rfl⟩ |
    ⟨d, idc, m₁, e, hexec, hraised, hfetch, rfl⟩
  · simp [hskip] at hskip'
  · change (m₁.pc + m₁.instrSize).toNat < _ ↔ _
    by_cases habs : ∃ op ∈ Op.absolute, IsOp op m.instrWord
    · exact iff_of_true (hexec.pc_of_absolute habs).2 (Or.inl habs)
    by_cases hind : IsOp Op.eicalljump m.instrWord
    · obtain ⟨-, hext, htarget⟩ := hexec.pc_of_eicalljump hind
      rw [htarget, indirectTarget_lt_pcLimit_iff hext]
      simp [Machine.StaysInside, habs, hind]
    · obtain ⟨hflag, htarget⟩ := hexec.counts habs hind
      rw [hnoskip] at hflag
      rw [htarget, ← hflag, if_neg (by decide), ofInt_lt_pcLimit_iff hlow hhigh]
      simp [Machine.StaysInside, habs, hind]
  · obtain ⟨habs, hind, hskips, hnext⟩ := hexec.of_skip hraised
    obtain ⟨hbranch, hjump⟩ := not_jump_of_skips hskips
    have hword : (m₁.finish idc).instrWord = m.nextWord := by
      have hflash : (m₁.finish idc).flash = m.flash := hexec.setup.1.flash_eq
      have hle := pcLimit_le m.toCore
      have hmod : (m.pc + 1).toNat = m.pc.toNat + 1 := by
        unfold Machine.PcInRange at hpc
        rw [BitVec.toNat_add]
        exact Nat.mod_eq_of_lt (show m.pc.toNat + 1 < 4294967296 by omega)
      rw [Machine.instrWord, Machine.nextWord, hflash, hnext, hmod]
    have hsize : instrLength m.nextWord = if e.imm16 then 2 else 1 := by
      rw [← hword, instrLength_eq hfetch.lookup_eq]
    have htarget : ((m₁.finish idc).fetched e).passOver.pc = BitVec.ofInt 32 m.countedTarget := by
      change (m₁.finish idc).pc + (if e.imm16 then 2 else 1) = _
      simp only [Machine.countedTarget, hbranch, hjump, hskips, false_and, if_false, if_true, hsize]
      rw [hnext, Int.add_assoc, ofInt_add_toNat, BitVec.add_assoc]
      cases e.imm16 <;> rfl
    rw [htarget, ofInt_lt_pcLimit_iff hlow hhigh]
    simp [Machine.StaysInside, habs, hind]

/-- In every run from reset, every boundary up to the last has `pc` within its width and a
fetch that passes the range check, exactly when every step of the run stays inside. -/
theorem pc_in_range_iff (m : Machine) (pc22 pcMemMax64k pcMemMax256b : Bool) (n : ℕ) :
    (∀ k ≤ n, ∀ m', (m.reset pc22 pcMemMax64k pcMemMax256b).stepN k = .ok m' →
      m'.PcInRange ∧ m'.FetchesInside) ↔
    ∀ k < n, ∀ m' m'', (m.reset pc22 pcMemMax64k pcMemMax256b).stepN k = .ok m' →
      m'.step = .ok m'' → m'.StaysInside := by
  generalize hreset : m.reset pc22 pcMemMax64k pcMemMax256b = m₀
  have hskip (k : ℕ) (m' : Machine) (hrun : m₀.stepN k = .ok m') :
      m'.skipNextInstruction = false :=
    skip_of_stepN (by rw [← hreset]; rfl) hrun
  constructor
  · intro hrange k hk m' m'' hrun hstep
    have hpc := (hrange k (by omega) m' hrun).1
    have hpc' := (hrange (k + 1) (by omega) m'' ((stepN_succ hrun).trans hstep)).1
    exact (pcInRange_step_iff hpc (hskip k m' hrun) hstep).mp hpc'
  · intro hinside k hk
    -- the induction is on the number of steps; each one keeps `pc` in range
    have hrange (m' : Machine) (hrun : m₀.stepN k = .ok m') : m'.PcInRange := by
      induction k generalizing m' with
      | zero =>
        cases hrun
        rw [← hreset]
        cases pc22 <;> exact Nat.two_pow_pos _
      | succ k ih =>
        obtain ⟨m₁, hrun₁, hstep⟩ := stepN_succ_eq_ok hrun
        have hpc := ih (by omega) m₁ hrun₁
        exact (pcInRange_step_iff hpc (hskip k m₁ hrun₁) hstep).mpr
          (hinside k (by omega) m₁ m' hrun₁ hstep)
    exact fun m' hrun => ⟨hrange m' hrun, (hrange m' hrun).fetchesInside⟩

omit [DesLibrary] in
/-- An image of `RJMP .-4`, which leaves the range on its first step. -/
theorem rjmp_leaves_range :
    ¬ ∀ (_ : DesLibrary) (m : Machine) (pc22 pcMemMax64k pcMemMax256b : Bool)
    (n : ℕ) (m' : Machine), (m.reset pc22 pcMemMax64k pcMemMax256b).stepN n = .ok m' →
      m'.PcInRange := by
  intro hclaim
  let _ : DesLibrary := idleDes
  have hpc : (((Machine.powerOn fun _ => 0xcffe).reset false false false).stepN 1).map
      (fun m' => m'.pc) = .ok 0xffffffff := by decide
  cases hrun : ((Machine.powerOn fun _ => 0xcffe).reset false false false).stepN 1 with
  | error e =>
    rw [hrun] at hpc
    cases hpc
  | ok m' =>
    rw [hrun] at hpc
    have htop : m'.pc = 0xffffffff := Except.ok.inj hpc
    have hsetup := (step_setup hrun).1
    have hrange := hclaim _ _ _ _ _ _ _ hrun
    rw [Machine.PcInRange, Core.pcLimit, hsetup.pc22_eq, htop] at hrange
    exact absurd hrange (by decide)

end AvrEmu
