import AvrEmu.StackBytes

/-!
# A push and a pop

PUSH stores at the address in the stack pointer; POP reads one above the stack pointer,
in arithmetic that does not wrap at 16 bits. The two meet unless the pointer was zero.
-/

namespace AvrEmu

variable {m n : Machine} {b : Byte}

/-- The byte on top after a push is the pushed one, unless the slot was at address zero. -/
theorem top_push (hlo : m.sp.toNat ≠ spLo) (hhi : m.sp.toNat ≠ spHi) :
    (m.push b).top = if m.sp = 0 then m.memory 0x10000 else b := by
  have hkept {n : Machine} {sp : Word} {i : ℕ} (hlo : i ≠ spLo) (hhi : i ≠ spHi) :
      (n.setSp sp).memory i = n.memory i := by
    simp only [Machine.setSp, setMem_memory, Function.update_of_ne hhi, Function.update_of_ne hlo]
  have hslot : (m.push b).sp.toNat + 1 = if m.sp = 0 then 0x10000 else m.sp.toNat := by
    rw [push_sp, BitVec.toNat_sub]
    by_cases hzero : m.sp = 0
    · rw [if_pos hzero, hzero]
      rfl
    · have hpos : m.sp.toNat ≠ 0 := fun h => hzero (BitVec.eq_of_toNat_eq h)
      have hlt := m.sp.isLt
      rw [if_neg hzero]
      change (2 ^ 16 - 1 + m.sp.toNat) % 2 ^ 16 + 1 = _
      omega
  rw [Machine.top, hslot]
  by_cases hzero : m.sp = 0
  · have hne : 0x10000 ≠ m.sp.toNat := by
      have hlt := m.sp.isLt
      omega
    rw [if_pos hzero, if_pos hzero, Machine.drop, hkept (by decide) (by decide), Machine.push,
      hkept (by decide) (by decide), setMem_memory, Function.update_of_ne hne]
  · rw [if_neg hzero, if_neg hzero, Machine.drop, hkept hlo hhi, Machine.push, hkept hlo hhi,
      setMem_memory, Function.update_self]

/-- The byte on top depends on data memory alone. -/
theorem top_congr (h : n.memory = m.memory) : n.top = m.top := by
  simp only [Machine.top, Machine.drop, Machine.setSp, setMem_memory, sp_congr h, h]

/-- Storing into a register leaves the stack pointer alone. -/
theorem setMem_sp {i : ℕ} (hi : i < 32) : (m.setMem i b).sp = m.sp := by
  have hlo : spLo ≠ i := by unfold spLo; omega
  have hhi : spHi ≠ i := by unfold spHi; omega
  simp only [Machine.sp, setMem_memory, Function.update_of_ne hlo, Function.update_of_ne hhi]

section Steps

variable [DesLibrary]

/-- PUSH stores a register. -/
theorem next_push (h : m.Ready Op.push) : m.step = .ok m.next ∧
    m.next.memory = (m.push (m.memory (fieldD m.instrWord).toNat)).memory ∧
    m.next.pc = m.pc + 1 ∧ SameSetup m.toCore m.next.toCore ∧
    m.next.skipNextInstruction = false := by
  have hnext := step_of_exec h (lookup_push h.isOp) rfl exec_instrPush (push_toCore _)
  rwa [operands_ddddd84_toNat _ rfl rfl rfl] at hnext

/-- POP loads a register. -/
theorem next_pop (h : m.Ready Op.pop) : m.step = .ok m.next ∧
    m.next.memory = (m.drop.setMem (fieldD m.instrWord).toNat m.top).memory ∧
    m.next.pc = m.pc + 1 ∧ SameSetup m.toCore m.next.toCore ∧
    m.next.skipNextInstruction = false := by
  have hnext := step_of_exec h (lookup_pop h.isOp) rfl exec_instrPop rfl
  rwa [operands_ddddd84_toNat _ rfl rfl rfl] at hnext

/-- PUSH and then POP complete, and they restore the stack pointer and hand over the byte,
exactly when the pointer is not zero or the byte lies beyond the 64K data space already. -/
theorem pop_undoes_push_iff (hpush : m.Ready Op.push) (hpop : IsOp Op.pop m.nextWord)
    (hpc : m.pc.toNat + 1 < flashSize) (hlo : m.sp.toNat ≠ spLo) (hhi : m.sp.toNat ≠ spHi) :
    m.step = .ok m.next ∧ m.next.step = .ok m.next.next ∧
    (m.next.next.memory (fieldD m.nextWord).toNat = m.memory (fieldD m.instrWord).toNat ∧
      m.next.next.sp = m.sp ↔
      m.sp ≠ 0 ∨ m.memory 0x10000 = m.memory (fieldD m.instrWord).toNat) := by
  obtain ⟨hstep, hmem, hnextpc, hsetup, hskip⟩ := next_push hpush
  have hadvance : m.next.pc.toNat = m.pc.toNat + 1 := by
    unfold flashSize at hpc
    rw [hnextpc, BitVec.toNat_add]
    exact Nat.mod_eq_of_lt (show m.pc.toNat + 1 < 4294967296 by omega)
  have hword : m.next.instrWord = m.nextWord := by
    rw [Machine.instrWord, hadvance, hsetup.flash_eq, Machine.nextWord]
  have hready : m.next.Ready Op.pop :=
    ⟨hskip, by rw [hadvance]; exact hpc, by rw [hword]; exact hpop⟩
  obtain ⟨hstep', hmem', -, -, -⟩ := next_pop hready
  have hpopped : m.next.next.memory (fieldD m.nextWord).toNat =
      if m.sp = 0 then m.memory 0x10000 else m.memory (fieldD m.instrWord).toNat := by
    rw [hmem', hword, setMem_memory, Function.update_self, top_congr hmem, top_push hlo hhi]
  have hsp : m.next.next.sp = m.sp := by
    have hreg : (fieldD m.next.instrWord).toNat < 32 := (fieldD _).isLt
    rw [sp_congr hmem', setMem_sp hreg, drop_sp, sp_congr hmem, push_sp, BitVec.sub_add_cancel]
  refine ⟨hstep, hstep', ?_⟩
  rw [hpopped]
  by_cases hzero : m.sp = 0
  · rw [if_pos hzero]
    exact ⟨fun h => Or.inr h.1, fun h => ⟨h.resolve_left (absurd hzero), hsp⟩⟩
  · rw [if_neg hzero]
    exact ⟨fun _ => Or.inl hzero, fun _ => ⟨rfl, hsp⟩⟩

end Steps

section Pair

attribute [local instance] idleDes

/-- A byte in register 0, the stack pointer at `hi * 256`, and the image `PUSH r0; POP r1`. -/
def pushMachine (hi b : Byte) : Machine :=
  { Machine.powerOn fun a => if a = 0 then 0x920f else 0x901f with
    memory := fun i => if i = 0 then b else if i = spHi then hi else 0 }

/-- Above address zero the byte comes back. -/
theorem pop_undoes_push_iff_one :
    (pushMachine 1 7).next.next.memory 1 = 7 ∧ (pushMachine 1 7).next.next.sp = 0x100 :=
  (pop_undoes_push_iff (m := pushMachine 1 7) ⟨rfl, by decide, by decide⟩ (by decide) (by decide)
    (by decide) (by decide)).2.2.mpr (Or.inl (by decide))

/-- At address zero the pop reads the byte after the 64K data space instead. -/
theorem pop_misses_push : ¬ ∀ (_ : DesLibrary) (m : Machine), m.Ready Op.push →
    IsOp Op.pop m.nextWord → m.pc.toNat + 1 < flashSize → m.sp.toNat ≠ spLo → m.sp.toNat ≠ spHi →
    m.next.next.memory (fieldD m.nextWord).toNat = m.memory (fieldD m.instrWord).toNat ∧
      m.next.next.sp = m.sp := by
  intro hclaim
  have hbyte := (hclaim idleDes (pushMachine 0 1) ⟨rfl, by decide, by decide⟩ (by decide)
    (by decide) (by decide) (by decide)).1
  exact absurd hbyte (by decide)

end Pair

end AvrEmu
