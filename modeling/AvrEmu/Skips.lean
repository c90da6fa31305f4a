import AvrEmu.ProgramCounter

/-!
# Skips

A skip instruction and the instruction it passes over take one step together. Nothing of
the second one is carried out: it is decoded only for its length.
-/

namespace AvrEmu

variable {m m₁ : Machine} {d : InstrDecode} {idc : InstrDecodeCommon}

section Skip

variable [DesLibrary]

/-- A skip instruction counts as one, changes nothing but `pc`, and passes over exactly the
instruction that follows when its condition holds; and no skip is ever pending between the
steps of a run from reset. -/
theorem skip_passes_one_instruction :
    (∀ m : Machine, m.pc.toNat < 0x400000 → m.skipNextInstruction = false →
      (∃ op ∈ Op.skips, IsOp op m.instrWord) → (lookupInstr m.nextWord).isSome →
      ∃ m', m.step = .ok m' ∧ m'.insns = m.insns + 1 ∧ m'.memory = m.memory ∧
        m'.skipNextInstruction = false ∧
        m'.pc.toNat = m.pc.toNat + 1 + if m.skips then instrLength m.nextWord else 0) ∧
    ∀ (m : Machine) (pc22 pcMemMax64k pcMemMax256b : Bool) (n : ℕ) (m' : Machine),
      (m.reset pc22 pcMemMax64k pcMemMax256b).stepN n = .ok m' →
      m'.skipNextInstruction = false := by
  refine ⟨fun m hpc hskip hop hnext => ?_, fun m _ _ _ n m' hrun => skip_of_stepN rfl hrun⟩
  obtain ⟨d, hlookup, himm, hcode⟩ := exec_skip hop
  have hfetch : m.Fetches d := ⟨by unfold flashSize; omega, hlookup, fun h => by simp [himm] at h⟩
  have hexec : m.Executes d _ _ := ⟨hskip, hfetch, hcode, BitVec.and_zero⟩
  have hsize : (m.fetched d).instrSize = 1 := by simp [Machine.fetched, himm]
  have hadvance : (m.pc + 1).toNat = m.pc.toNat + 1 := by
    rw [BitVec.toNat_add]
    exact Nat.mod_eq_of_lt (show m.pc.toNat + 1 < 4294967296 by omega)
  cases hskips : m.skips with
  | false =>
    rw [hskips] at hexec
    refine ⟨_, hexec.step_eq hskip, rfl, finish_memory_of_quiet rfl, hskip, ?_⟩
    change (m.pc + (m.fetched d).instrSize).toNat = _
    rw [hsize, hadvance]
    rfl
  | true =>
    rw [hskips] at hexec
    obtain ⟨e, he⟩ := Option.isSome_iff_exists.mp hnext
    -- the restarted decode finds the word after the skip instruction
    have hword (n : Machine) (hpc' : n.pc = m.pc + 1) (hflash : n.flash = m.flash) :
        n.instrWord = m.nextWord := by
      rw [Machine.instrWord, Machine.nextWord, hpc', hflash, hadvance]
    have hfetch' (n : Machine) (hpc' : n.pc = m.pc + 1) (hflash : n.flash = m.flash) :
        n.Fetches e := by
      refine ⟨?_, by rw [hword n hpc' hflash, he], fun _ => ?_⟩ <;>
      · rw [hpc', hadvance]
        unfold flashSize
        omega
    have hlast : m.pc + (m.fetched d).instrSize = m.pc + 1 := by rw [hsize]
    refine ⟨_, hexec.step_eq_of_skip rfl (hfetch' _ hlast rfl), rfl, finish_memory_of_quiet rfl,
      rfl, ?_⟩
    change (m.pc + (m.fetched d).instrSize + (if e.imm16 then 2 else 1)).toNat = _
    rw [hlast, if_pos rfl, instrLength_eq he, BitVec.toNat_add, hadvance]
    cases e.imm16 with
    | false => exact Nat.mod_eq_of_lt (show m.pc.toNat + 1 + 1 < 4294967296 by omega)
    | true => exact Nat.mod_eq_of_lt (show m.pc.toNat + 1 + 2 < 4294967296 by omega)

end Skip

section Call

attribute [local instance] idleDes

/-- The image `CPSE r0, r0; CALL 0`. -/
def skipMachine : Machine := Machine.powerOn fun a => if a = 0 then 0x1000 else
  if a = 1 then 0x940e else 0

/-- A call is passed over with both its words. -/
theorem skip_passes_one_instruction_call : ∃ m', skipMachine.step = .ok m' ∧ m'.insns = 1 ∧
    m'.pc.toNat = 3 := by
  obtain ⟨m', hstep, hinsns, -, -, hpc⟩ := skip_passes_one_instruction.1 skipMachine (by decide) rfl
    ⟨Op.cpse, by decide, by decide⟩ (by decide)
  exact ⟨m', hstep, hinsns, hpc.trans (by decide)⟩

end Call

end AvrEmu
