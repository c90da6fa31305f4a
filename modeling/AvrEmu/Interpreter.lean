import AvrEmu.InputReplay
import AvrEmu.InstructionSet
import AvrEmu.Walks

/-!
# The emulator as an interpreter of its instruction set

Fetching, searching the decode table, filling in the operand fields, running a handler and merging
its status changes comes to what the instruction means. Instruction by instruction, then for whole
runs.
-/

namespace AvrEmu

variable {m m₁ : Machine} {d : InstrDecode} {idc : InstrDecodeCommon} {e : Abort} {i : Insn}

section Steps

variable [DesLibrary]

/-! ## Fetching -/

/-- The abort of the first fetch is that of the step. -/
theorem step_of_fetch_error (hfetch : exec fetch m = .error e) : m.step = .error e := by
  simp [Machine.step, emulate1, hfetch]

/-- So is an abort of the instruction. -/
theorem step_of_code_error (hskip : m.skipNextInstruction = false) (hfetch : m.Fetches d)
    (hcode : exec (d.code (d.operands (m.decoded d))) (m.fetched d) = .error e) :
    m.step = .error e := by
  have hsame : (m.fetched d).skipNextInstruction = false := hskip
  simp [Machine.step, emulate1, hfetch.exec_fetch, hsame, exec_execute, hcode]

/-- And one of the second fetch. -/
theorem Machine.Executes.step_of_skip_error (h : m.Executes d idc m₁)
    (hskip : m₁.skipNextInstruction = true) (hfetch : exec fetch (m₁.finish idc) = .error e) :
    m.step = .error e := by
  have hsame : (m.fetched d).skipNextInstruction = false := h.skip_eq
  have hfinish : (m₁.finish idc).skipNextInstruction = true := hskip
  simp [Machine.step, emulate1, h.fetches.exec_fetch, hsame, exec_execute, h.exec_code,
    h.disjoint, hfinish, hfetch]

/-- An instruction of the set is fetched with all its words. -/
theorem fetches_of_insnAt (h : m.insnAt m.pc = .ok i) :
    ∃ d, m.Fetches d ∧ IsOp i.opcode m.instrWord := by
  unfold Machine.insnAt at h
  split at h
  case isFalse => cases h
  case isTrue hpc =>
    cases hdecode : Insn.decode (m.flash m.pc.toNat) with
    | none => simp [hdecode] at h
    | some j =>
      simp only [hdecode] at h
      split at h
      case isFalse => cases h
      case isTrue hin =>
        cases h
        have hsome : (lookupInstr m.instrWord).isSome = true := by
          rw [← Insn.decode_isSome_iff]
          exact Option.isSome_of_eq_some hdecode
        obtain ⟨d, hd⟩ := Option.isSome_iff_exists.mp hsome
        have hlength : instrLength (m.flash m.pc.toNat) = if d.imm16 then 2 else 1 :=
          instrLength_eq hd
        refine ⟨d, ⟨hpc, hd, fun himm => ?_⟩, Insn.decode_eq_some_iff.mp hdecode⟩
        rw [hlength, himm] at hin
        exact hin

/-- What is not an instruction is not fetched. -/
theorem exec_fetch_of_insnAt (h : m.insnAt m.pc = .error e) : exec fetch m = .error e := by
  unfold Machine.insnAt at h
  split at h
  case isFalse hpc =>
    cases h
    simp [fetch, hpc, beyondFlash]
  case isTrue hpc =>
    have hsome := Insn.decode_isSome_iff (w := m.flash m.pc.toNat)
    cases hdecode : Insn.decode (m.flash m.pc.toNat) with
    | none =>
      simp only [hdecode] at h hsome
      cases h
      have hlookup : lookupInstr (m.flash m.pc.toNat) = none := by simpa using hsome.symm
      simp [fetch, hpc, hlookup]
    | some j =>
      simp only [hdecode] at h hsome
      obtain ⟨d, hd⟩ := Option.isSome_iff_exists.mp hsome.symm
      split at h
      case isTrue => cases h
      case isFalse hout =>
        cases h
        rw [instrLength_eq hd] at hout
        cases himm : d.imm16 with
        | false =>
          simp only [himm, Bool.false_eq_true, if_false] at hout
          omega
        | true =>
          simp only [himm, if_true] at hout
          have hmod : (m.pc.toNat + 1) % 4294967296 = m.pc.toNat + 1 := by
            unfold flashSize at hpc
            omega
          have hnext : ¬ m.pc.toNat + 1 < flashSize := by omega
          simp [fetch, hpc, hd, himm, hmod, hnext, beyondFlash]

/-! ## Arithmetic and logic -/

omit [DesLibrary] in
theorem AluOp.clash_control (op : AluOp) :
    ∀ c ∈ Op.control ++ Op.long, Clash op.opcode c := by
  have hall : ((Op.control ++ Op.long).all fun c => decide (Clash op.opcode c)) = true := by
    cases op <;> decide
  exact fun c hc => of_decide_eq_true (List.all_eq_true.mp hall c hc)

/-- An instruction that neither moves `pc` nor takes a second word goes on to the next word. -/
theorem step_computed {op : Word × Word} {o : Outcome} (h : m.Ready op)
    (hclash : ∀ c ∈ Op.control ++ Op.long, Clash op c)
    (hreal : m.step = .ok m.next ∧ o.Realized [] m m.next) :
    m.step = .ok (m.passed (o.left m)) := by
  obtain ⟨hstep, hreal⟩ := hreal
  obtain ⟨d, idc, m₁, hexec, hnext⟩ := executes_of_step hstep h.skip_eq
  have hplain : ∀ c ∈ Op.control, ¬ IsOp c m.instrWord := fun c hc =>
    h.isOp.not_of_clash (hclash c (List.mem_append_left _ hc))
  have hshort : instrLength m.instrWord = 1 := by
    rw [instrLength, if_neg]
    rintro ⟨c, hc, hop⟩
    exact h.isOp.not_of_clash (hclash c (List.mem_append_right _ hc)) hop
  have himm : d.imm16 = false := by
    rw [instrLength_eq hexec.fetches.lookup_eq] at hshort
    cases hd : d.imm16 with
    | false => rfl
    | true => simp [hd] at hshort
  have hcore := hexec.toCore_eq_fetched hplain
  have hlow : m₁.skipNextInstruction = false := by
    rw [hcore]
    exact h.skip_eq
  have hdone := step_marked h hexec.fetches.lookup_eq himm hexec.exec_code hcore hexec.disjoint
  rw [hdone, ← hreal.memory_eq, hnext hlow]
  rfl

theorem step_alu (op : AluOp) (h : m.Ready op.opcode) :
    m.step = .ok (m.passed ((op.effect m).left m)) := by
  refine step_computed h op.clash_control ?_
  have hop := h.isOp
  cases op with
  | add => exact realized_adc false h (hop.coarsen rfl rfl) rfl rfl
  | adc => exact realized_adc true h (hop.coarsen rfl rfl) rfl rfl
  | adiw => exact realized_adiw h
  | sbiw => exact realized_sbiw h
  | and => exact realized_and h
  | andi => exact realized_andi h
  | or => exact realized_or h
  | ori => exact realized_ori h
  | eor => exact realized_eor h
  | com => exact realized_com h
  | neg => exact realized_neg h
  | inc => exact realized_inc h
  | dec => exact realized_dec h
  | asr => exact realized_asr h
  | lsr => exact realized_lsr h
  | ror => exact realized_ror h
  | mul => exact realized_mul h
  | muls => exact realized_muls h
  | mulsu => exact realized_mulsu h
  | fmul => exact realized_fmul h
  | fmuls => exact realized_fmulsu false h (hop.coarsen rfl rfl) rfl rfl
  | fmulsu => exact realized_fmulsu true h (hop.coarsen rfl rfl) rfl rfl
  | cp => exact realized_compare false h (hop.coarsen rfl rfl) rfl rfl
  | cpc => exact realized_compare true h (hop.coarsen rfl rfl) rfl rfl
  | sub => exact realized_subtract false h (hop.coarsen rfl rfl) rfl rfl
  | sbc => exact realized_subtract true h (hop.coarsen rfl rfl) rfl rfl
  | cpi => exact realized_cpi h
  | subi => exact realized_subi false h (hop.coarsen rfl rfl) rfl rfl
  | sbci => exact realized_subi true h (hop.coarsen rfl rfl) rfl rfl

/-! ## Loads and stores -/

omit [DesLibrary] in
/-- The machine that the code finds addresses the same cells. -/
theorem fetched_moved_memory (store : Bool) (reg ea : ℕ) :
    ((m.fetched d).moved store reg ea).memory = (m.moved store reg ea).memory := by
  cases store <;> rfl

theorem step_direct (store : Bool) (h : m.Ready (Route.direct.op store))
    (hroom : m.pc.toNat + 1 < flashSize) (hconf : m.Configured) : m.step = .ok (m.led 2 (m.pc + 2)
      (m.moved store (fieldD m.instrWord).toNat (Route.direct.cell m store)).memory) := by
  obtain ⟨d, hlookup, hcode, hreg, himm⟩ := Route.lookup_op _ h.isOp
  have himm' : d.imm16 = true := himm
  have hfield : (d.operands (m.decoded d)).ddddd.toNat = (fieldD m.instrWord).toNat := hreg _
  have hword : (d.operands (m.decoded d)).immU16 = m.nextWord := by
    simp [Machine.decoded, himm']
  have hconf' : (m.fetched d).Configured := hconf
  have hexec : exec (Route.direct.code store (d.operands (m.decoded d))) (m.fetched d) = _ :=
    exec_code_direct hconf' store
  rw [← hcode, hfield, hword] at hexec
  have hcell : (if store = false ∧ (m.fetched d).pcMemMax256b = true then m.nextWord.toNat
      else (m.fetched d).cell ((m.fetched d).memory rampd) m.nextWord.toNat) =
      Route.direct.cell m store := by
    unfold Route.cell Route.loadCell
    rw [Route.storeCell_direct]
    cases store <;> simp <;> rfl
  rw [hcell] at hexec
  have hstep := step_led_quiet (p := m.pc) h hlookup (fun _ => hroom) hexec (moved_toCore _ _ _)
  rw [himm', fetched_moved_memory] at hstep
  exact hstep

theorem step_displaced (p : Pointer) (store : Bool) (h : m.Ready ((Route.indirect p).op store))
    (hconf : m.Configured) : m.step = .ok (m.passed (m.moved store (fieldD m.instrWord).toNat
      (Route.storeCell m (.indirect p))).memory) := by
  obtain ⟨d, hlookup, hcode, hreg, himm⟩ := Route.lookup_op _ h.isOp
  have hfield : (d.operands (m.decoded d)).ddddd.toNat = (fieldD m.instrWord).toNat := hreg _
  have heven : p.register % 2 = 0 := by cases p <;> rfl
  have hrp : p.register < 0x100 := by cases p <;> decide
  have hext : p.ramp < 0x100 := by cases p <;> decide
  have hconf' : (m.fetched d).Configured := hconf
  have hexec : exec (instrLdstCommon p.register p.ramp 0
      ((Route.indirect p).displacement m.instrWord) store (d.operands (m.decoded d)))
      (m.fetched d) = _ :=
    exec_instrLdstCommon_plain heven hrp hext hconf' store _
  have hrow : exec ((Route.indirect p).code store (d.operands (m.decoded d))) (m.fetched d) = _ :=
    Route.exec_code_indirect p h.isOp
  rw [operands_instr, decoded_instr, hexec, hfield, ← hcode] at hrow
  have hstep := step_passed h hlookup himm hrow (moved_toCore _ _ _)
  rw [hstep, fetched_moved_memory]
  rfl

omit [DesLibrary] in
/-- Writing a pointer depends on data memory and on the knobs only. -/
theorem setPointer_memory_congr {n : Machine} {rp extaddr a : ℕ} (hmem : n.memory = m.memory)
    (hcore : n.pcMemMax256b = m.pcMemMax256b ∧ n.pcMemMax64k = m.pcMemMax64k) :
    (n.setPointer rp extaddr a).memory = (m.setPointer rp extaddr a).memory := by
  unfold Machine.setPointer
  rw [hcore.1, hcore.2]
  split
  · simp only [setMem_memory, hmem]
  · split <;> simp only [Machine.setWord, setMem_memory, hmem]

omit [DesLibrary] in
/-- The register that moves must not belong to a pointer that is updated. -/
theorem exec_instrLdstCommon_clash {rp extaddr : ℕ} (dec store : Bool)
    (h : idc.ddddd.toNat = rp ∨ idc.ddddd.toNat = rp + 1) :
    exec (instrLdstCommon rp extaddr (if dec then 2 else 1) 0 store idc) m =
      .error (.illins idc.instr) := by
  have hguard : (idc.ddddd.toNat == rp || idc.ddddd.toNat == rp + 1) = true := by
    simpa using h
  cases dec <;> simp [instrLdstCommon, hguard, illins]

theorem step_update (p : Pointer) (dec store : Bool) (h : m.Ready (p.updateOp dec store))
    (hconf : m.Configured) : m.step = (Insn.update p dec store).meaning m := by
  obtain ⟨d, hlookup, hcode, hreg, himm⟩ := lookup_updateOp h.isOp
  have hfield : (d.operands (m.decoded d)).ddddd.toNat = (fieldD m.instrWord).toNat := hreg _
  have hfetch : m.Fetches d := ⟨h.pc_lt, hlookup, fun htrue => by simp [himm] at htrue⟩
  dsimp only [Insn.meaning]
  by_cases hclash : (fieldD m.instrWord).toNat = p.register ∨
      (fieldD m.instrWord).toNat = p.register + 1
  · rw [if_pos hclash]
    refine step_of_code_error h.skip_eq hfetch ?_
    rw [hcode, Route.exec_code_update p h.isOp]
    exact exec_instrLdstCommon_clash dec store (hfield ▸ hclash)
  · rw [if_neg hclash]
    obtain ⟨hlo, hhi⟩ := not_or.mp hclash
    have heven : p.register % 2 = 0 := by cases p <;> rfl
    have hrp : p.register < 0x100 := by cases p <;> decide
    have hext : p.ramp < 0x100 := by cases p <;> decide
    have hconf' : (m.fetched d).Configured := hconf
    have hexec := exec_instrLdstCommon_update heven hrp hext hconf' store dec
      (hfield ▸ hlo) (hfield ▸ hhi)
    rw [← Route.exec_code_update p h.isOp, ← hcode, hfield] at hexec
    have hstep := step_passed h hlookup himm hexec
      ((setPointer_toCore _ _ _).trans (moved_toCore _ _ _))
    rw [hstep]
    refine congrArg (fun f => Except.ok (m.passed f)) ?_
    exact setPointer_memory_congr (fetched_moved_memory _ _ _)
      (by rw [moved_toCore, moved_toCore]; exact ⟨rfl, rfl⟩)

omit [DesLibrary] in
theorem exec_instrElpmz_clash (hpostinc : idc.instr.getLsbD 0 = true)
    (h : idc.ddddd.toNat = 30 ∨ idc.ddddd.toNat = 31) :
    exec (instrElpmz idc) m = .error (.illins idc.instr) := by
  have hguard : (idc.ddddd == 30 || idc.ddddd == 31) = true := by
    rw [Bool.or_eq_true, beq_iff_eq, beq_iff_eq]
    exact h.imp (fun h => BitVec.eq_of_toNat_eq h) fun h => BitVec.eq_of_toNat_eq h
  have hbit : (bitField idc.instr 0 0 != 0) = true := by
    rw [bitField_single_ne_zero (by decide), hpostinc]
  simp only [instrElpmz, exec_bind, exec_bits (show 1 < 16 by decide) (show 1 ≤ 1 by decide),
    exec_bits (show 0 < 16 by decide) (show 0 ≤ 0 by decide), hbit, hguard, exec_when,
    Bool.and_self, if_true]
  rfl

theorem step_program (p : ProgramLoad) (h : m.Ready p.opcode) :
    m.step = (Insn.program p).meaning m := by
  have hop := h.isOp
  dsimp only [Insn.meaning]
  rw [loadAddress_eq]
  cases p with
  | implied ext =>
    have hrow : IsOp (0x95c8, 0xffef) m.instrWord := by
      cases ext <;> exact hop.coarsen rfl rfl
    let d : InstrDecode := { pattern := 0x95c8, mask := 0xffef, code := instrElpm }
    have hext : (d.operands (m.decoded d)).instr.getLsbD 4 = ext := by
      rw [operands_instr, decoded_instr]
      cases ext <;> exact hop.getLsbD_eq (by decide)
    have hlookup : lookupInstr m.instrWord = some d := lookup_elpm hrow
    have hstep := step_passed h hlookup rfl (exec_instrElpm (m := m.fetched d) hext) rfl
    exact hstep
  | register ext postinc =>
    have hrow : IsOp (0x9004, 0xfe0c) m.instrWord := by
      cases ext <;> cases postinc <;> exact hop.coarsen rfl rfl
    let d : InstrDecode :=
      { pattern := 0x9004, mask := 0xfe0c, code := instrElpmz, ddddd84 := true }
    have hlookup : lookupInstr m.instrWord = some d := lookup_elpmz hrow
    have hfield := operands_ddddd84_toNat (d := d) (m.decoded d) rfl rfl rfl
    have hext : (d.operands (m.decoded d)).instr.getLsbD 1 = ext := by
      rw [operands_instr, decoded_instr]
      cases ext <;> cases postinc <;> exact hop.getLsbD_eq (by decide)
    have hpostinc : (d.operands (m.decoded d)).instr.getLsbD 0 = postinc := by
      rw [operands_instr, decoded_instr]
      cases ext <;> cases postinc <;> exact hop.getLsbD_eq (by decide)
    have hplain (happart : postinc = true → (fieldD m.instrWord).toNat ≠ 30 ∧
        (fieldD m.instrWord).toNat ≠ 31) := step_passed h hlookup rfl
      (exec_instrElpmz (m := m.fetched d) hext hpostinc (hfield ▸ happart))
    cases postinc with
    | false =>
      have hstep := hplain (fun htrue => by cases htrue) rfl
      rw [hfield] at hstep
      exact hstep
    | true =>
      rw [ProgramLoad.postinc, if_pos rfl]
      by_cases hclash : (fieldD m.instrWord).toNat = 30 ∨ (fieldD m.instrWord).toNat = 31
      · rw [if_pos hclash]
        refine step_of_code_error h.skip_eq ⟨h.pc_lt, hlookup, fun htrue => by cases htrue⟩ ?_
        exact exec_instrElpmz_clash hpostinc (hfield ▸ hclash)
      · rw [if_neg hclash]
        have hstep := hplain (fun _ => not_or.mp hclash) rfl
        rw [hfield] at hstep
        exact hstep

theorem step_pushed (h : m.Ready Op.push) : m.step = .ok (m.passed (m.push m.rd).memory) := by
  let d : InstrDecode := { pattern := 0x920f, mask := 0xfe0f, code := instrPush, ddddd84 := true }
  have hd := operands_ddddd84_toNat (d := d) (m.decoded d) rfl rfl rfl
  have hstep := step_passed h (lookup_push h.isOp) rfl (exec_instrPush (m := m.fetched d)) rfl
  rw [hd] at hstep
  exact hstep

theorem step_popped (h : m.Ready Op.pop) :
    m.step = .ok (m.passed (m.drop.setMem (fieldD m.instrWord).toNat m.top).memory) := by
  let d : InstrDecode := { pattern := 0x900f, mask := 0xfe0f, code := instrPop, ddddd84 := true }
  have hd := operands_ddddd84_toNat (d := d) (m.decoded d) rfl rfl rfl
  have hstep := step_passed h (lookup_pop h.isOp) rfl (exec_instrPop (m := m.fetched d)) rfl
  rw [hd] at hstep
  exact hstep

/-! ## Branches, jumps, calls and returns -/

theorem step_branch (h : m.Ready Op.brb) : m.step = (Insn.branch).meaning m := by
  let d : InstrDecode := { pattern := 0xf000, mask := 0xf800, code := instrBrb, rrr20 := true }
  have hlookup : lookupInstr m.instrWord = some d := lookup_brb h.isOp
  have hexec := exec_instrBrb (m := m.fetched d) (operands_rrr20 (d := d) (m.decoded d) rfl)
  change exec _ _ = .ok (_, if m.branches then (m.fetched d).mapCore fun s =>
    { s with pc := s.pc + (fieldBranch m.instrWord).signExtend 32 } else m.fetched d) at hexec
  dsimp only [Insn.meaning]
  cases hbranches : m.branches with
  | false =>
    simp only [hbranches, Bool.false_eq_true, if_false] at hexec ⊢
    have hstep := step_passed h hlookup rfl hexec rfl
    exact hstep
  | true =>
    simp only [hbranches, if_true] at hexec ⊢
    have hstep := step_led_quiet h hlookup (fun htrue => by cases htrue) hexec rfl
    exact hstep

/-- A jump, or a call that first pushes the address to return to. -/
theorem step_gone {op : Word × Word} {f : Core → BitVec 32} (call : Bool) (back : BitVec 32)
    (h : m.Ready op) (hlookup : lookupInstr m.instrWord = some d)
    (himm : d.imm16 = true → m.pc.toNat + 1 < flashSize)
    (hcode : exec (d.code (d.operands (m.decoded d))) (m.fetched d) =
      .ok (d.operands (m.decoded d),
        (if call then (m.fetched d).pushPc back else m.fetched d).mapCore fun s =>
          { s with pc := f s })) :
    let size : BitVec 32 := if d.imm16 then 2 else 1
    m.step = .ok (m.led size (f (m.fetched d).toCore + size)
      (if call then m.pushPc back else m).memory) := by
  cases call with
  | false =>
    simp only [Bool.false_eq_true, if_false] at hcode ⊢
    have hstep := step_led_quiet h hlookup himm hcode rfl
    exact hstep
  | true =>
    simp only [if_true] at hcode ⊢
    have hstep := step_led_quiet h hlookup himm hcode
      (congrArg (fun s : Core => { s with pc := f s }) (pushPc_toCore back))
    dsimp only at hstep
    rw [hstep]
    have hmem : ((m.fetched d).pushPc back).memory = (m.pushPc back).memory :=
      pushPc_memory_congr (m := m) (n := m.fetched d) rfl rfl back
    exact congrArg (fun mem => Except.ok (m.led _ _ mem)) hmem

theorem step_relative (call : Bool) (h : m.Ready (Insn.relative call).opcode) :
    m.step = (Insn.relative call).meaning m := by
  have hop : IsOp (if call then 0xd000 else 0xc000, 0xf000) m.instrWord := h.isOp
  have hrow : IsOp Op.rcalljmp m.instrWord := by
    cases call <;> exact hop.coarsen rfl rfl
  have hcall : m.instrWord.getLsbD 12 = call := by
    cases call <;> exact hop.getLsbD_eq (by decide)
  let d : InstrDecode := { pattern := 0xc000, mask := 0xe000, code := instrRcalljmp }
  have hlookup : lookupInstr m.instrWord = some d := lookup_rcalljmp hrow
  have hexec : exec (instrRcalljmp (d.operands (m.decoded d))) (m.fetched d) = _ :=
    exec_instrRcalljmp
  rw [operands_instr, decoded_instr, hcall] at hexec
  have hstep := step_gone call _ h hlookup (fun htrue => by cases htrue) hexec
  exact hstep

omit [DesLibrary] in
theorem target_eq (h : idc.immU16 = m.nextWord) (hw : idc.instr = m.instrWord) :
    idc.target m.pc22 = m.jumpTarget := by
  unfold InstrDecodeCommon.target Machine.jumpTarget
  rw [h, hw]
  cases m.pc22 with
  | false => rfl
  | true =>
    rw [if_pos rfl, if_pos rfl]
    apply BitVec.eq_of_getLsbD_eq
    intro k hk
    simp only [BitVec.getLsbD_setWidth, BitVec.getLsbD_or, BitVec.getLsbD_shiftLeft,
      BitVec.getLsbD_ushiftRight, BitVec.getLsbD_append, BitVec.getLsbD_extractLsb',
      getLsbD_bitField (show 8 < 16 by decide) 4 (by decide),
      getLsbD_bitField (show 0 < 16 by decide) 0 (by decide)]
    interval_cases k <;> simp

theorem step_jump (call : Bool) (h : m.Ready (Insn.jump call).opcode)
    (hroom : m.pc.toNat + 1 < flashSize) : m.step = (Insn.jump call).meaning m := by
  dsimp only [Insn.meaning]
  cases call with
  | false =>
    let d : InstrDecode := { pattern := 0x940c, mask := 0xfe0e, code := instrJmp, imm16 := true }
    have hlookup : lookupInstr m.instrWord = some d := lookup_jmp h.isOp
    have htarget : (d.operands (m.decoded d)).target m.pc22 = m.jumpTarget := target_eq rfl rfl
    have hexec : exec (instrJmp (d.operands (m.decoded d))) (m.fetched d) = _ := exec_instrJmp
    rw [fetched_pc22, htarget] at hexec
    have hstep := step_gone false 0 h hlookup (fun _ => hroom) hexec
    dsimp only at hstep
    rw [hstep]
    exact congrArg (fun p => Except.ok (m.led 2 p m.memory)) (BitVec.sub_add_cancel _ _)
  | true =>
    let d : InstrDecode := { pattern := 0x940e, mask := 0xfe0e, code := instrCall, imm16 := true }
    have hlookup : lookupInstr m.instrWord = some d := lookup_call h.isOp
    have htarget : (d.operands (m.decoded d)).target m.pc22 = m.jumpTarget := target_eq rfl rfl
    have hexec : exec (instrCall (d.operands (m.decoded d))) (m.fetched d) = _ := exec_instrCall
    rw [fetched_pc22, htarget] at hexec
    have hstep := step_gone true _ h hlookup (fun _ => hroom) hexec
    dsimp only at hstep
    rw [hstep]
    exact congrArg (fun p => Except.ok (m.led 2 p (m.pushPc (m.pc + 2)).memory))
      (BitVec.sub_add_cancel _ _)

theorem step_indirect (ext call : Bool) (h : m.Ready (Insn.indirect ext call).opcode) :
    m.step = (Insn.indirect ext call).meaning m := by
  have hop : IsOp (0x9409 ||| (if ext then 0x10 else 0) ||| (if call then 0x100 else 0), 0xffff)
      m.instrWord := h.isOp
  have hrow : IsOp Op.eicalljump m.instrWord := by
    cases ext <;> cases call <;> exact hop.coarsen rfl rfl
  have hext : m.instrWord.getLsbD 4 = ext := by
    cases ext <;> cases call <;> exact hop.getLsbD_eq (by decide)
  have hcall : m.instrWord.getLsbD 8 = call := by
    cases ext <;> cases call <;> exact hop.getLsbD_eq (by decide)
  let d : InstrDecode := { pattern := 0x9409, mask := 0xfeef, code := instrEicalljump }
  have hlookup : lookupInstr m.instrWord = some d := lookup_eicalljump hrow
  have hexec : exec (instrEicalljump (d.operands (m.decoded d))) (m.fetched d) = _ :=
    exec_instrEicalljump
  rw [operands_instr, decoded_instr, hext, hcall, fetched_pc22] at hexec
  dsimp only [Insn.meaning]
  by_cases hwide : (ext && !m.pc22) = true
  · rw [if_pos hwide] at hexec ⊢
    exact step_of_code_error h.skip_eq ⟨h.pc_lt, hlookup, fun htrue => by cases htrue⟩ hexec
  · rw [if_neg hwide] at hexec ⊢
    have hstep := step_gone call _ h hlookup (fun htrue => by cases htrue) hexec
    dsimp only at hstep
    rw [hstep]
    exact congrArg (fun p => Except.ok (m.led 1 p _)) (BitVec.sub_add_cancel _ _)

omit [DesLibrary] in
/-- Popping the return address, whatever is in the fetch registers. -/
theorem fetched_dropPc_memory : (m.fetched d).dropPc.memory = m.dropPc.memory := by
  unfold Machine.dropPc
  rw [fetched_pc22]
  cases m.pc22 <;> rfl

omit [DesLibrary] in
theorem fetched_topPc : (m.fetched d).topPc = m.topPc := by
  unfold Machine.topPc
  rw [fetched_pc22]
  cases m.pc22 <;> rfl

theorem step_ret (enable : Bool) (h : m.Ready (Insn.ret enable).opcode) :
    m.step = (Insn.ret enable).meaning m := by
  have hpc (d : InstrDecode) : (m.fetched d).topPc - (m.fetched d).instrSize +
      (m.fetched d).instrSize = m.topPc := by
    rw [BitVec.sub_add_cancel, fetched_topPc]
  have hcore (d : InstrDecode) := congrArg
    (fun s : Core => { s with pc := (m.fetched d).topPc - s.instrSize })
    (dropPc_toCore (m := m.fetched d))
  dsimp only [Insn.meaning]
  cases enable with
  | false =>
    let d : InstrDecode := { pattern := 0x9508, mask := 0xffff, code := instrRet }
    have hlookup : lookupInstr m.instrWord = some d := lookup_ret h.isOp
    have hstep := step_led_quiet h hlookup (fun htrue => by cases htrue)
      (exec_instrRet (m := m.fetched d)) (hcore d)
    dsimp only at hstep
    rw [hstep]
    exact congrArg₂ (fun p f => Except.ok (m.led 1 p f)) (hpc d) fetched_dropPc_memory
  | true =>
    let d : InstrDecode := { pattern := 0x9518, mask := 0xffff, code := instrReti }
    have hlookup : lookupInstr m.instrWord = some d := lookup_reti h.isOp
    have hstep := step_led_quiet h hlookup (fun htrue => by cases htrue)
      (exec_instrReti (m := m.fetched d)) (hcore d)
    dsimp only at hstep
    rw [hstep]
    exact congrArg₂ (fun p f => Except.ok (m.led 1 p (Function.update f sreg (f sreg ||| sregI))))
      (hpc d) fetched_dropPc_memory

/-! ## Skips -/

omit [DesLibrary] in
theorem insnAt_congr {n : Machine} (h : n.flash = m.flash) (a : BitVec 32) :
    n.insnAt a = m.insnAt a := by
  unfold Machine.insnAt
  rw [h]

theorem step_skip (op : SkipOp) (h : m.Ready op.opcode) :
    m.step = (Insn.skip op).meaning m := by
  obtain ⟨d, hlookup, himm, hcode⟩ := exec_skip ⟨op.opcode, by cases op <;> decide, h.isOp⟩
  have hfetch : m.Fetches d := ⟨h.pc_lt, hlookup, fun htrue => by simp [himm] at htrue⟩
  dsimp only [Insn.meaning]
  cases hskips : m.skips with
  | false =>
    simp only [hskips, Bool.false_eq_true, if_false] at hcode ⊢
    have hstep := step_passed h hlookup himm hcode rfl
    exact hstep
  | true =>
    simp only [hskips, if_true] at hcode ⊢
    have hexec : m.Executes d _ _ := ⟨h.skip_eq, hfetch, hcode, BitVec.and_zero⟩
    let m₁ := (m.fetched d).mapCore fun s => { s with skipNextInstruction := true }
    let n := m₁.finish (d.operands (m.decoded d))
    have hpc : n.pc = m.pc + 1 := by
      change m.pc + (m.fetched d).instrSize = _
      simp [Machine.fetched, Machine.mapCore, himm]
    have hadvance : (m.pc + 1).toNat = m.pc.toNat + 1 := by
      have hlt := h.pc_lt
      unfold flashSize at hlt
      rw [BitVec.toNat_add]
      exact Nat.mod_eq_of_lt (show m.pc.toNat + 1 < 4294967296 by omega)
    have hword : n.instrWord = m.nextWord := by
      rw [Machine.instrWord, Machine.nextWord, hpc, hadvance]
      rfl
    have hat : n.insnAt n.pc = m.insnAt (m.pc + 1) := by
      rw [hpc]
      exact insnAt_congr rfl _
    cases hnext : m.insnAt (m.pc + 1) with
    | error e => exact hexec.step_of_skip_error rfl (exec_fetch_of_insnAt (hat.trans hnext))
    | ok j =>
      obtain ⟨r, hr, -⟩ := fetches_of_insnAt (hat.trans hnext)
      rw [hexec.step_eq_of_skip rfl hr]
      have hlength : instrLength m.nextWord = if r.imm16 then 2 else 1 :=
        hword ▸ instrLength_eq hr.lookup_eq
      have hsize : (n.fetched r).instrSize = BitVec.ofNat 32 (instrLength m.nextWord) := by
        rw [hlength]
        change (if r.imm16 then 2 else 1 : BitVec 32) = _
        cases r.imm16 <;> rfl
      refine congrArg Except.ok (Machine.ext' ?_ (finish_memory_of_quiet rfl))
      change { n.toCore with
        pcStart := n.pc
        instrSize := (n.fetched r).instrSize
        skipNextInstruction := false
        pc := n.pc + (n.fetched r).instrSize } = _
      rw [hsize, hpc, ← h.skip_eq]
      rfl

/-! ## The cipher, and what is not carried out -/

omit [DesLibrary] in
theorem storeBytes_eq_writeBytes (k : ℕ) (bs : List Byte) :
    m.storeBytes k bs = m.writeBytes k bs := by
  induction bs generalizing m k with
  | nil => rfl
  | cons b bs ih => exact ih (k + 1)

theorem exec_instrDes {k : BitVec 4} (hk : idc.ddddd = 16#8 + k.setWidth 8) :
    exec (instrDes idc) m = .ok ({ idc with ddddd := idc.ddddd - 16 },
      if k = 15 then m.storeBytes 0 (DesLibrary.ecbEncrypt (m.bytes 8 8) (m.bytes 0 8)
        (!(m.memory sreg).getLsbD 5)).toList
      else m) := by
  have hnumber : idc.ddddd - 16 = k.setWidth 8 := by
    rw [hk, BitVec.add_comm]
    exact BitVec.add_sub_cancel _ _
  have hhalf : nonzero (m.memory sreg &&& sregH) = (m.memory sreg).getLsbD 5 :=
    Bits.and_twoPow_ne_zero (show 5 < 8 by decide) _
  have hlast : k.setWidth 8 < (15 : Byte) ↔ ¬ k = 15 := by
    have hlt := k.isLt
    have hwide : (k.setWidth 8 : Byte).toNat = k.toNat := BitVec.toNat_setWidth_of_le (by decide)
    have hvalue : k = 15 ↔ k.toNat = 15 := BitVec.toNat_inj.symm
    rw [BitVec.lt_def, hwide, hvalue]
    change k.toNat < 15 ↔ _
    omega
  unfold instrDes
  simp only [hnumber]
  by_cases hround : k = 15
  · have hrun : ¬ k.setWidth 8 < (15 : Byte) := fun hlt => hlast.mp hlt hround
    rw [if_neg hrun, if_pos hround]
    simp only [exec_bind, exec_readBytes m (show 8 + 8 ≤ memorySize by decide),
      exec_readBytes m (show 0 + 8 ≤ memorySize by decide), exec_sregHas, hhalf, exec_pure]
    rw [exec_writeBytes _ _ (by rw [Vector.length_toList]; decide)]
    dsimp only
    rw [storeBytes_eq_writeBytes]
    rfl
  · rw [if_pos (hlast.mpr hround), if_neg hround]
    rfl

theorem step_des (h : m.Ready (Insn.des).opcode) : m.step = (Insn.des).meaning m := by
  let d : InstrDecode := { pattern := 0x940b, mask := 0xff0f, code := instrDes, dddd74 := true }
  have hlookup : lookupInstr m.instrWord = some d :=
    lookupInstr_eq_some (List.mem_of_getElem? (i := 43) rfl) h.isOp
  have hexec := exec_instrDes (m := m.fetched d) (operands_dddd74 (d := d) (m.decoded d) rfl rfl)
  have hstep := step_marked h hlookup rfl hexec (by split <;> simp) BitVec.and_zero
  rw [hstep]
  refine congrArg (fun f => Except.ok (m.passed f)) ((finish_memory_of_quiet rfl).trans ?_)
  rw [decoded_instr, Machine.desRound]
  by_cases hlast : fieldDUpper m.instrWord = 15
  · rw [if_pos hlast, if_pos hlast, storeBytes_eq_writeBytes, storeBytes_eq_writeBytes]
    funext a
    rw [writeBytes_memory, writeBytes_memory]
    rfl
  · rw [if_neg hlast, if_neg hlast]
    rfl

theorem step_idle (op : IdleOp) (h : m.Ready op.opcode) :
    m.step = .error (.unhandled m.instrWord) := by
  have hrow : ∃ d, lookupInstr m.instrWord = some d ∧ d.imm16 = false ∧ d.code = instrUnimp := by
    cases op with
    | sleep =>
      exact ⟨_, lookupInstr_eq_some (List.mem_of_getElem? (i := 49) rfl) h.isOp, rfl, rfl⟩
    | brk =>
      exact ⟨_, lookupInstr_eq_some (List.mem_of_getElem? (i := 50) rfl) h.isOp, rfl, rfl⟩
    | wdr =>
      exact ⟨_, lookupInstr_eq_some (List.mem_of_getElem? (i := 51) rfl) h.isOp, rfl, rfl⟩
    | spm =>
      exact ⟨_, lookupInstr_eq_some (List.mem_of_getElem? (i := 53) rfl) h.isOp, rfl, rfl⟩
    | spmInc =>
      exact ⟨_, lookupInstr_eq_some (List.mem_of_getElem? (i := 54) rfl) h.isOp, rfl, rfl⟩
  obtain ⟨d, hlookup, himm, hcode⟩ := hrow
  refine step_of_code_error h.skip_eq ⟨h.pc_lt, hlookup, fun htrue => by simp [himm] at htrue⟩ ?_
  rw [hcode]
  rfl

/-! ## All of them -/

/-- The step of the emulator is that of the interpreter. -/
theorem step_eq_interpret (hskip : m.skipNextInstruction = false) (hconf : m.Configured) :
    m.step = m.interpret := by
  unfold Machine.interpret
  cases hinsn : m.insnAt m.pc with
  | error e => exact step_of_fetch_error (exec_fetch_of_insnAt hinsn)
  | ok i =>
    obtain ⟨d, hfetch, hop⟩ := fetches_of_insnAt hinsn
    have hready : m.Ready i.opcode := ⟨hskip, hfetch.pc_lt, hop⟩
    have hroom (hlong : i.opcode ∈ Op.long) : m.pc.toNat + 1 < flashSize := by
      refine hfetch.imm_lt ?_
      have hlength := instrLength_eq hfetch.lookup_eq
      rw [instrLength, if_pos ⟨_, hlong, hop⟩] at hlength
      by_contra hshort
      simp [hshort] at hlength
    cases i with
    | alu op => exact step_alu op hready
    | transfer op => exact step_transfer op hskip hfetch.pc_lt hop
    | direct store => exact step_direct store hready (hroom (by cases store <;> decide)) hconf
    | displaced p store => exact step_displaced p store hready hconf
    | update p dec store => exact step_update p dec store hready hconf
    | program p => exact step_program p hready
    | push => exact step_pushed hready
    | pop => exact step_popped hready
    | branch => exact step_branch hready
    | relative call => exact step_relative call hready
    | jump call => exact step_jump call hready (hroom (by cases call <;> decide))
    | indirect ext call => exact step_indirect ext call hready
    | ret enable => exact step_ret enable hready
    | skip op => exact step_skip op hready
    | des => exact step_des hready
    | idle op => exact step_idle op hready

/-- So are the runs: the emulator is an interpreter of its instruction set. -/
theorem stepN_eq_interpretN (n : ℕ) (hskip : m.skipNextInstruction = false)
    (hconf : m.Configured) : m.stepN n = m.interpretN n := by
  induction n with
  | zero => rfl
  | succ n ih =>
    rw [Machine.stepN, Machine.interpretN, ← ih]
    cases hrun : m.stepN n with
    | error e => rfl
    | ok m' =>
      have hsetup : SameSetup m.toCore m'.toCore := setup_of_stepN hrun
      refine step_eq_interpret (skip_of_stepN hskip hrun) fun h256b => ?_
      rw [hsetup.pcMemMax64k_eq]
      exact hconf (hsetup.pcMemMax256b_eq ▸ h256b)

end Steps

section Doubling

attribute [local instance] idleDes

/-- Two additions of r0 to itself, emulated by interpretation. -/
theorem stepN_eq_interpretN_add :
    (addMachine.stepN 2).map (fun m => (m.memory 0, m.pc)) = .ok (32, 2) := by
  rw [stepN_eq_interpretN 2 rfl fun h256b => by cases h256b]
  rfl

end Doubling

end AvrEmu
