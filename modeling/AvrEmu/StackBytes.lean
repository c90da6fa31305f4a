import AvrEmu.ProgramCounter

/-!
# The bytes on the stack

The bytes that have been pushed since the stack pointer was at a given address lie above
it, the last one lowest. Pushes and pops of bytes and of return addresses keep this.
-/

namespace AvrEmu

variable {m m' : Machine} {s : ℕ} {b : Byte} {bs : List Byte}

/-- The bytes between the stack pointer and `s` are `bs`, the top of the stack first. None
of them lies among the registers and ports below `0x60`. -/
structure Machine.Stacked (m : Machine) (s : ℕ) (bs : List Byte) : Prop where
  depth : m.sp.toNat + bs.length = s
  floor : bs ≠ [] → 0x60 ≤ m.sp.toNat + 1
  contents : ∀ i (h : i < bs.length), m.memory (m.sp.toNat + 1 + i) = bs[i]

theorem sp_congr (h : m'.memory = m.memory) : m'.sp = m.sp := by
  simp only [Machine.sp, h]

theorem stacked_nil : m.Stacked m.sp.toNat [] where
  depth := rfl
  floor h := absurd rfl h
  contents i h := absurd h (Nat.not_lt_zero i)

/-- The stack is kept when its pointer and its bytes are. -/
theorem Machine.Stacked.congr (h : m.Stacked s bs) (hsp : m'.sp = m.sp)
    (hlive : ∀ i, m.sp.toNat < i → i ≤ s → m'.memory i = m.memory i) : m'.Stacked s bs where
  depth := by rw [hsp, h.depth]
  floor hne := by rw [hsp]; exact h.floor hne
  contents i hi := by
    have hdepth := h.depth
    rw [hsp, hlive _ (by omega) (by omega), h.contents i hi]

theorem Machine.Stacked.of_memory (h : m.Stacked s bs) (hmem : m'.memory = m.memory) :
    m'.Stacked s bs :=
  h.congr (sp_congr hmem) fun i _ _ => by rw [hmem]

/-- A store below the stack that is not into the stack pointer. -/
theorem Machine.Stacked.setMem {i : ℕ} {v : Byte} (h : m.Stacked s bs) (hi : i < 0x60)
    (hlo : i ≠ spLo) (hhi : i ≠ spHi) : (m.setMem i v).Stacked s bs := by
  have hsp : (m.setMem i v).sp = m.sp := by
    simp only [Machine.sp, setMem_memory, Function.update_of_ne hlo.symm,
      Function.update_of_ne hhi.symm]
  refine ⟨?_, ?_, fun j hj => ?_⟩
  · rw [hsp, h.depth]
  · rw [hsp]
    exact h.floor
  · have hne : bs ≠ [] := List.ne_nil_of_length_pos (Nat.zero_lt_of_lt hj)
    have hfloor := h.floor hne
    rw [hsp, setMem_memory, Function.update_of_ne (by omega), h.contents j hj]

theorem setSp_memory_of_high (sp : Word) {i : ℕ} (hi : 0x60 ≤ i) :
    (m.setSp sp).memory i = m.memory i := by
  have hlo : i ≠ spLo := by unfold spLo; omega
  have hhi : i ≠ spHi := by unfold spHi; omega
  simp only [Machine.setSp, setMem_memory, Function.update_of_ne hhi, Function.update_of_ne hlo]

/-- Pushing a byte into a slot that is not a port. -/
theorem Machine.Stacked.push (h : m.Stacked s bs) (hslot : 0x60 ≤ m.sp.toNat) :
    (m.push b).Stacked s (b :: bs) := by
  have hlt := m.sp.isLt
  have hsp : (m.push b).sp.toNat = m.sp.toNat - 1 := by
    rw [push_sp, BitVec.toNat_sub]
    change (2 ^ 16 - 1 + m.sp.toNat) % 2 ^ 16 = _
    omega
  have hmemory {i : ℕ} (hi : 0x60 ≤ i) :
      (m.push b).memory i = Function.update m.memory m.sp.toNat b i :=
    setSp_memory_of_high _ hi
  have hdepth := h.depth
  refine ⟨?_, fun _ => by omega, fun i hi => ?_⟩
  · rw [hsp, List.length_cons]
    omega
  · rw [hsp, hmemory (by omega)]
    cases i with
    | zero =>
      rw [show m.sp.toNat - 1 + 1 + 0 = m.sp.toNat by omega, Function.update_self]
      rfl
    | succ i =>
      rw [Function.update_of_ne (by omega), List.getElem_cons_succ, ← h.contents i]
      congr 1
      omega

/-- Popping takes the byte on top. -/
theorem Machine.Stacked.pop (h : m.Stacked s (b :: bs)) (hs : s < 2 ^ 16) :
    m.top = b ∧ m.drop.Stacked s bs := by
  have hdepth := h.depth
  have hfloor := h.floor (List.cons_ne_nil b bs)
  rw [List.length_cons] at hdepth
  have hsp : m.drop.sp.toNat = m.sp.toNat + 1 := by
    rw [drop_sp, BitVec.toNat_add]
    change (m.sp.toNat + 1) % 2 ^ 16 = _
    omega
  have hmemory {i : ℕ} (hi : 0x60 ≤ i) : m.drop.memory i = m.memory i :=
    setSp_memory_of_high _ hi
  refine ⟨?_, ?_, fun _ => by omega, fun i hi => ?_⟩
  · exact (hmemory hfloor).trans (h.contents 0 (by simp))
  · rw [hsp]
    omega
  · rw [hsp, hmemory (by omega)]
    have hbyte := h.contents (i + 1) (by simpa using hi)
    rw [List.getElem_cons_succ] at hbyte
    rw [← hbyte]
    congr 1
    omega

/-! ## Return addresses -/

/-- The bytes of a return address, in the order in which they are popped. -/
def pcBytes (pc22 : Bool) (pc2 : BitVec 32) : List Byte :=
  let low := [(pc2 >>> 8 &&& 0xff).setWidth 8, (pc2 &&& 0xff).setWidth 8]
  if pc22 then (pc2 >>> 16).setWidth 8 :: low else low

theorem length_pcBytes (pc22 : Bool) (pc2 : BitVec 32) :
    (pcBytes pc22 pc2).length = if pc22 then 3 else 2 := by
  cases pc22 <;> rfl

/-- Pushing a return address, low byte first. -/
theorem Machine.Stacked.pushPc (h : m.Stacked s bs) (pc2 : BitVec 32)
    (hslot : 0x5f + (pcBytes m.pc22 pc2).length ≤ m.sp.toNat) :
    (m.pushPc pc2).Stacked s (pcBytes m.pc22 pc2 ++ bs) := by
  have hlt := m.sp.isLt
  rw [length_pcBytes] at hslot
  have hless (b : Byte) (n : Machine) (hn : 0 < n.sp.toNat) :
      (n.push b).sp.toNat = n.sp.toNat - 1 := by
    have hn' := n.sp.isLt
    rw [push_sp, BitVec.toNat_sub]
    change (2 ^ 16 - 1 + n.sp.toNat) % 2 ^ 16 = _
    omega
  unfold Machine.pushPc pcBytes
  cases hpc22 : m.pc22 with
  | false =>
    simp only [hpc22, Bool.false_eq_true, if_false] at hslot ⊢
    exact (h.push (by omega)).push (by rw [hless _ _ (by omega)]; omega)
  | true =>
    simp only [hpc22, if_true] at hslot ⊢
    have hsecond := hless ((pc2 &&& 0xff).setWidth 8) m (by omega)
    have hthird := hless ((pc2 >>> 8 &&& 0xff).setWidth 8) (m.push ((pc2 &&& 0xff).setWidth 8))
      (by omega)
    exact ((h.push (by omega)).push (by omega)).push (by omega)

/-- The bytes of an address, joined again. -/
private theorem joined_low (pc2 : BitVec 32) :
    ((pc2 >>> 8 &&& 0xff).setWidth 8).setWidth 32 <<< 8 |||
      ((pc2 &&& 0xff).setWidth 8).setWidth 32 =
      pc2 &&& 0xffff := by
  have h8 : (0xff : BitVec 32) = (BitVec.allOnes 8).setWidth 32 := rfl
  have h16 : (0xffff : BitVec 32) = (BitVec.allOnes 16).setWidth 32 := rfl
  apply BitVec.eq_of_getLsbD_eq
  intro i hi
  rw [h8, h16]
  simp only [BitVec.getLsbD_or, BitVec.getLsbD_shiftLeft, BitVec.getLsbD_setWidth,
    BitVec.getLsbD_and, BitVec.getLsbD_ushiftRight, BitVec.getLsbD_allOnes]
  interval_cases i <;> simp

private theorem joined_high (pc2 : BitVec 32) :
    ((((pc2 >>> 16).setWidth 8).setWidth 32 <<< 8 |||
      ((pc2 >>> 8 &&& 0xff).setWidth 8).setWidth 32) <<< 8 |||
      ((pc2 &&& 0xff).setWidth 8).setWidth 32) &&& 0x3fffff = pc2 &&& 0x3fffff := by
  have h8 : (0xff : BitVec 32) = (BitVec.allOnes 8).setWidth 32 := rfl
  have h22 : (0x3fffff : BitVec 32) = (BitVec.allOnes 22).setWidth 32 := rfl
  apply BitVec.eq_of_getLsbD_eq
  intro i hi
  rw [h8, h22]
  simp only [BitVec.getLsbD_or, BitVec.getLsbD_shiftLeft, BitVec.getLsbD_setWidth,
    BitVec.getLsbD_and, BitVec.getLsbD_ushiftRight, BitVec.getLsbD_allOnes]
  interval_cases i <;> simp

/-- The address that is popped is the one pushed, up to the width of the PC. -/
theorem Machine.Stacked.popPc {pc2 : BitVec 32} (h : m.Stacked s (pcBytes m.pc22 pc2 ++ bs))
    (hs : s < 2 ^ 16) : m.topPc.toNat = pc2.toNat % m.pcLimit ∧ m.dropPc.Stacked s bs := by
  have h16 : (pc2 &&& 0xffff).toNat = pc2.toNat % 2 ^ 16 :=
    Bits.toNat_and_low (show 16 ≤ 32 by decide) pc2
  have h22 : (pc2 &&& 0x3fffff).toNat = pc2.toNat % 2 ^ 22 :=
    Bits.toNat_and_low (show 22 ≤ 32 by decide) pc2
  unfold pcBytes at h
  unfold Machine.topPc Machine.dropPc Core.pcLimit
  cases hpc22 : m.pc22 with
  | false =>
    rw [hpc22] at h
    obtain ⟨hmid, h⟩ := Machine.Stacked.pop h hs
    obtain ⟨hlow, h⟩ := h.pop hs
    simp only [Bool.false_eq_true, if_false, hmid, hlow, joined_low, h16, true_and]
    exact h
  | true =>
    rw [hpc22] at h
    obtain ⟨htop, h⟩ := Machine.Stacked.pop h hs
    obtain ⟨hmid, h⟩ := h.pop hs
    obtain ⟨hlow, h⟩ := h.pop hs
    simp only [if_true, htop, hmid, hlow, joined_high, h22, true_and]
    exact h

end AvrEmu
