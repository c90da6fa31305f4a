import AvrEmu.Confinement
import AvrEmu.ProgramCounter
import AvrEmu.StatusUpdates
import AvrEmu.Trace

/-!
# Steps that stay inside the machine

From a program counter of 22 bits no check of the header fires in a step: neither in the code of
the instruction, nor at the merge of the status register, nor in the two fetches, nor when the
instruction is traced. A step completes or finds an instruction that the emulator does not run.
-/

namespace AvrEmu

open CellProgram

/-! ## What the checks guard -/

section Accessors

variable {m : Machine} (a : BitVec 32) (v : Word)

theorem even_check_iff : (a &&& 1 == 0) = true ↔ a.toNat % 2 = 0 :=
  beq_iff_eq.trans (Bits.and_one_eq_zero_iff (by decide) a)

/-- A bit selection completes when it is valid. -/
theorem isOk_bits_iff (max min : ℕ) :
    (exec (bits v max min) m).isOk = true ↔ max < 16 ∧ min ≤ max := by
  by_cases h : max < 16 ∧ min ≤ max
  · rw [exec_bits h.1 h.2]
    exact iff_of_true rfl h
  · have hcheck : (decide (max < 16) && decide (min ≤ max)) = false := by
      rwa [← Bool.decide_and, decide_eq_false_iff_not]
    refine iff_of_false ?_ h
    simp only [bits, exec_bind, exec_assert, hcheck, Bool.false_eq_true, if_false]
    exact Bool.false_ne_true

/-- A word load completes at the even addresses of data memory. -/
theorem isOk_memword_iff :
    (exec (memword a) m).isOk = true ↔ a.toNat % 2 = 0 ∧ a.toNat < memorySize := by
  by_cases heven : a.toNat % 2 = 0
  · by_cases hlt : a.toNat < memorySize
    · have hnext : a.toNat + 1 < memorySize := by
        unfold memorySize at hlt ⊢
        omega
      rw [exec_memword heven hnext]
      exact iff_of_true rfl ⟨heven, hlt⟩
    · refine iff_of_false ?_ fun h => hlt h.2
      have hrange : (a &&& ~~~0xffffff == 0) = false := by
        rw [beq_eq_false_iff_ne]
        exact fun h => hlt ((Bits.and_not_low_eq_zero_iff 24 a).mp h)
      simp only [memword, exec_bind, exec_assert, even_check heven, hrange, Bool.false_eq_true,
        if_true, if_false]
      exact Bool.false_ne_true
  · refine iff_of_false ?_ fun h => heven h.1
    have hodd : (a &&& 1 == 0) = false := by
      rw [← Bool.not_eq_true, even_check_iff]
      exact heven
    simp only [memword, exec_bind, exec_assert, hodd, Bool.false_eq_true, if_false]
    exact Bool.false_ne_true

/-- So does a word store. -/
theorem isOk_memwriteword_iff :
    (exec (memwriteword a v) m).isOk = true ↔ a.toNat % 2 = 0 ∧ a.toNat < memorySize := by
  by_cases heven : a.toNat % 2 = 0
  · by_cases hlt : a.toNat < memorySize
    · have hnext : a.toNat + 1 < memorySize := by
        unfold memorySize at hlt ⊢
        omega
      rw [exec_memwriteword heven hnext]
      exact iff_of_true rfl ⟨heven, hlt⟩
    · refine iff_of_false ?_ fun h => hlt h.2
      simp only [memwriteword, exec_bind, exec_assert, even_check heven, if_true, setMem,
        if_neg hlt, exec_fail]
      exact Bool.false_ne_true
  · refine iff_of_false ?_ fun h => heven h.1
    have hodd : (a &&& 1 == 0) = false := by
      rw [← Bool.not_eq_true, even_check_iff]
      exact heven
    simp only [memwriteword, exec_bind, exec_assert, hodd, Bool.false_eq_true, if_false]
    exact Bool.false_ne_true

/-- A load from flash completes inside the flash. -/
theorem isOk_romword_iff : (exec (romword a) m).isOk = true ↔ a.toNat < flashSize := by
  rw [exec_romword]
  split
  · exact iff_of_true rfl ‹_›
  · exact iff_of_false Bool.false_ne_true ‹_›

end Accessors

/-! ## Steps -/

variable [DesLibrary] {m : Machine}

/-- The code of an instruction touches data memory only and ends early only on purpose. -/
theorem fetched_inMemory {d : InstrDecode} (hfetch : m.Fetches d) :
    (∀ x ∈ touched (d.code (d.operands (m.decoded d))) (m.fetched d), x.index < memorySize) ∧
    ∀ e, exec (d.code (d.operands (m.decoded d))) (m.fetched d) = .error e → Deliberate e := by
  rcases fetched_contract hfetch with h | h | hd | hd
  · exact ⟨fun x hx => touched_of_obeys h hx, fun e he => error_of_obeys h he⟩
  · exact ⟨fun x hx => (touched_of_obeys h hx).1, fun e he => error_of_obeys h he⟩
  · have hcode : d.code = instrBclrset := by rw [hd]
    simp [hcode, instrBclrset]
  · have hcode : d.code = instrBst := by rw [hd]
    simp [hcode, instrBst]

theorem deliberate_of_fetch (hpc : m.pc.toNat + 1 < flashSize) {e : Abort}
    (h : exec fetch m = .error e) : Deliberate e := by
  have hmod : (m.pc.toNat + 1) % 4294967296 = m.pc.toNat + 1 := by
    unfold flashSize at hpc
    omega
  have hlt : m.pc.toNat < flashSize := by omega
  cases hlookup : lookupInstr (m.flash m.pc.toNat) with
  | none =>
    simp only [fetch, exec_bind, exec_modifyCore, exec_core, exec_romword, mapCore_toCore, hlt,
      if_true, hlookup, exec_fail, Except.error.injEq] at h
    rw [← h]
    trivial
  | some d => cases himm : d.imm16 <;> simp [fetch, hlt, hlookup, himm, hmod, hpc] at h

/-- A step that does not complete has found an instruction that is not run. -/
theorem deliberate_of_step (hpc : m.pc.toNat < 0x400000) {e : Abort} (h : m.step = .error e) :
    Deliberate e := by
  have hflash : m.pc.toNat + 1 < flashSize := by
    unfold flashSize
    omega
  cases hfetch : exec fetch m with
  | error e' =>
    simp only [Machine.step, emulate1, exec_bind, hfetch, Except.error.injEq] at h
    exact h ▸ deliberate_of_fetch hflash hfetch
  | ok r =>
    obtain ⟨⟨d, idc₀⟩, m₀⟩ := r
    obtain ⟨hd, rfl, rfl⟩ := fetches_of_exec_fetch hfetch
    have hsame : (m.fetched d).skipNextInstruction = m.skipNextInstruction := rfl
    cases hskip : m.skipNextInstruction with
    | true =>
      rw [hskip] at hsame
      simp [Machine.step, emulate1, hfetch, hsame] at h
    | false =>
      rw [hskip] at hsame
      cases hcode : exec (d.code (d.operands (m.decoded d))) (m.fetched d) with
      | error e' =>
        simp only [Machine.step, emulate1, exec_bind, hfetch, exec_core, hsame, Bool.false_eq_true,
          if_false, exec_execute, hcode, Except.error.injEq] at h
        exact h ▸ (fetched_inMemory hd).2 e' hcode
      | ok r =>
        obtain ⟨idc, m₁⟩ := r
        have hexec : m.Executes d idc m₁ := ⟨hskip, hd, hcode, (markedBy hd hcode).disjoint⟩
        cases hnext : m₁.skipNextInstruction with
        | false =>
          rw [hexec.step_eq hnext] at h
          cases h
        | true =>
          -- the skipped instruction lies right behind the one that skips it
          have hpc' := (hexec.of_skip hnext).2.2.2
          have hflash' : (m₁.finish idc).pc.toNat + 1 < flashSize := by
            rw [hpc', BitVec.toNat_add]
            change (m.pc.toNat + 1) % 4294967296 + 1 < flashSize
            unfold flashSize
            omega
          cases hfetch' : exec fetch (m₁.finish idc) with
          | error e' =>
            have hfinish : (m₁.finish idc).skipNextInstruction = true := hnext
            simp [Machine.step, emulate1, hfetch, hsame, exec_execute, hcode, hexec.disjoint,
              hfinish, hfetch'] at h
            exact h ▸ deliberate_of_fetch hflash' hfetch'
          | ok r' =>
            obtain ⟨⟨d', idc'⟩, m₂⟩ := r'
            rw [hexec.step_eq_of_skip hnext (fetches_of_exec_fetch hfetch').1] at h
            cases h

/-- In a step from a program counter of 22 bits every index into data memory is inside, and no
check fires: the step completes, or it stops at an instruction that does not exist or that is not
run. -/
theorem step_stays_inside (tracing : Bool) (hpc : m.pc.toNat < 0x400000) :
    (∀ x ∈ touched (emulate1 tracing) m, x.index < memorySize) ∧
    ∀ e, exec (emulate1 tracing) m = .error e → (∃ w, e = .illins w) ∨ ∃ w, e = .unhandled w := by
  have hfact : Fact (0x100 ≤ memorySize) := ⟨by decide⟩
  refine ⟨?_, fun e he => ?_⟩
  · rw [forall_touched_emulate1]
    exact fun _ d hd => (fetched_inMemory hd).1
  · have hstep : m.step = .error e := by
      cases tracing with
      | false =>
        rw [Machine.step, he]
      | true =>
        rw [exec_emulate1_tracing] at he
        cases hstep : m.step with
        | error e' =>
          rw [hstep] at he
          cases he
          rfl
        | ok m' => simp [hstep] at he
    have hdeliberate := deliberate_of_step hpc hstep
    cases e with
    | illins w => exact Or.inl ⟨w, rfl⟩
    | unhandled w => exact Or.inr ⟨w, rfl⟩
    | assertion text => exact hdeliberate.elim
    | wildMemory i => exact hdeliberate.elim
    | exit text => exact hdeliberate.elim

omit [DesLibrary] in
/-- A step of the image of SEI instructions stays inside, traced. -/
theorem step_stays_inside_sei :
    (touched (@emulate1 idleDes true) seiMachine).all (fun x => decide (x.index < memorySize)) =
      true := by
  have hinside := (@step_stays_inside idleDes seiMachine true (by decide)).1
  rw [List.all_eq_true]
  exact fun x hx => decide_eq_true (hinside x hx)

end AvrEmu
