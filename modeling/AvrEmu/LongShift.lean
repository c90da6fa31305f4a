import AvrEmu.LongArithmetic

/-!
# Shifts of numbers of several bytes

A shift to the right of the highest byte, then a rotation through carry of each lower byte in
turn. The carry flag between the instructions is the bit that falls from one byte into the next,
and together they halve the whole number.
-/

namespace AvrEmu

/-- The shifts of a whole number: one takes in a zero at the top, the other the sign. -/
inductive LongShift where
  | logical | arithmetic
  deriving DecidableEq

/-- The instruction on the highest byte. -/
def LongShift.op : LongShift → AluOp
  | logical => .lsr
  | arithmetic => .asr

/-- The bit that comes in above a byte. -/
def LongShift.fill (k : LongShift) (b : Byte) : Bool :=
  match k with
  | logical => false
  | arithmetic => decide (128 ≤ b.toNat)

/-- The byte that the instruction leaves in its register. -/
def Machine.shifted [DesLibrary] (m : Machine) : Byte := m.next.memory (fieldD m.instrWord).toNat

section Bytes

variable [DesLibrary] {m : Machine} {s₀ s : Byte} {ms : List Machine}

/-- A completed shift of one byte, between the bit that comes in and the bit that falls out. -/
structure Machine.Shifts (m : Machine) (c : Bool) : Prop where
  step_eq : m.step = .ok m.next
  column : m.rd.toNat + 256 * c.toNat = 2 * m.shifted.toNat + ((m.next.memory sreg).getLsbD 0).toNat
  kept : ∀ i ∈ [5, 6, 7], (m.next.memory sreg).getLsbD i = (m.memory sreg).getLsbD i

/-- Every shift drops the lowest bit. -/
theorem shifts_of_realized {value : ℤ} {c : Bool} (hstep : m.step = .ok m.next)
    (h : (Outcome.shift (fieldD m.instrWord).toNat value (m.rd.toNat % 2 == 1)).Realized
      [] m m.next)
    (hvalue : m.rd.toNat / 2 + 128 * c.toNat = (value % 256).toNat) : m.Shifts c := by
  have hbyte : m.shifted = BitVec.ofInt 8 value := h.stored 0 Nat.zero_lt_one
  have hout : (m.next.memory sreg).getLsbD 0 = (m.rd.toNat % 2 == 1) :=
    h.status_eq 0 (by decide) List.not_mem_nil
  have hnat : m.shifted.toNat = m.rd.toNat / 2 + 128 * c.toNat := by
    rw [hbyte, BitVec.toNat_ofInt, hvalue]
    rfl
  refine ⟨hstep, ?_, fun i hi => ?_⟩
  · rw [hout, hnat]
    rcases Nat.mod_two_eq_zero_or_one m.rd.toNat with hmod | hmod
    · rw [hmod]
      change _ = _ + 0
      omega
    · rw [hmod]
      change _ = _ + 1
      omega
  · have hlt : i < 8 := by
      simp only [List.mem_cons, List.not_mem_nil, or_false] at hi
      omega
    rw [h.status_eq i hlt List.not_mem_nil]
    simp only [List.mem_cons, List.not_mem_nil, or_false] at hi
    rcases hi with rfl | rfl | rfl <;> rfl

theorem shifts_top (k : LongShift) (h : m.Ready k.op.opcode) : m.Shifts (k.fill m.rd) := by
  have hlt := m.rd.isLt
  cases k with
  | logical =>
    obtain ⟨hstep, hreal⟩ := realized_lsr h
    refine shifts_of_realized hstep hreal ?_
    change _ + 0 = _
    omega
  | arithmetic =>
    obtain ⟨hstep, hreal⟩ := realized_asr h
    refine shifts_of_realized hstep hreal ?_
    rw [BitVec.toInt_eq_toNat_cond, LongShift.fill]
    by_cases hneg : 128 ≤ m.rd.toNat
    · rw [if_neg (by omega), decide_eq_true hneg, Bool.toNat_true]
      omega
    · rw [if_pos (by omega), decide_eq_false hneg, Bool.toNat_false]
      omega

theorem shifts_ror (h : m.Ready AluOp.ror.opcode) : m.Shifts m.carry := by
  obtain ⟨hstep, hreal⟩ := realized_ror h
  have hlt := m.rd.isLt
  have hcarry := Bool.toNat_le m.carry
  refine shifts_of_realized hstep hreal ?_
  omega

/-- The instructions of a long shift, each on a machine of its own with only the status register
carried over: `s₀` before the shift of the highest byte, which is the last of the list, and `s`
after the rotation of the lowest. -/
inductive LongShift.Chain (k : LongShift) (s₀ : Byte) : List Machine → Byte → Prop
  | top {m : Machine} :
      m.Ready k.op.opcode → m.memory sreg = s₀ → k.Chain s₀ [m] (m.next.memory sreg)
  | cons {ms : List Machine} {s : Byte} {m : Machine} : k.Chain s₀ ms s →
      m.Ready AluOp.ror.opcode → m.memory sreg = s → k.Chain s₀ (m :: ms) (m.next.memory sreg)

/-- The instructions of a chain halve a digit list. -/
theorem LongShift.Chain.halved {k : LongShift} (h : k.Chain s₀ ms s) :
    ∃ low top l, ms = low ++ [top] ∧ l.map (·.1) = ms.map (BitVec.toNat ∘ Machine.rd) ∧
      l.map (·.2) = ms.map (BitVec.toNat ∘ Machine.shifted) ∧
      Digits.Halved 256 (k.fill top.rd) l (s.getLsbD 0) ∧ (∀ m ∈ ms, m.step = .ok m.next) ∧
      (∀ i ∈ [5, 6, 7], s.getLsbD i = s₀.getLsbD i) ∧
      ∀ m ∈ ms, ∀ i ∈ [5, 6, 7], (m.next.memory sreg).getLsbD i = s₀.getLsbD i := by
  induction h with
  | @top m hready hsreg =>
    have hshift := shifts_top k hready
    have hkept : ∀ i ∈ [5, 6, 7], (m.next.memory sreg).getLsbD i = s₀.getLsbD i := by
      intro i hi
      rw [hshift.kept i hi, hsreg]
    refine ⟨[], m, [(m.rd.toNat, m.shifted.toNat)], rfl, rfl, rfl,
      .cons .nil m.rd.isLt m.shifted.isLt hshift.column, ?_, hkept, ?_⟩
    · simpa using hshift.step_eq
    · simpa using hkept
  | @cons ms s m hchain hready hsreg ih =>
    obtain ⟨low, top, l, hms, hread, hwritten, hhalved, hsteps, hlast, hall⟩ := ih
    have hshift := shifts_ror hready
    have hcolumn := hshift.column
    rw [Machine.carry, hsreg] at hcolumn
    have hkept : ∀ i ∈ [5, 6, 7], (m.next.memory sreg).getLsbD i = s₀.getLsbD i := by
      intro i hi
      rw [hshift.kept i hi, hsreg, hlast i hi]
    refine ⟨m :: low, top, (m.rd.toNat, m.shifted.toNat) :: l, by rw [hms, List.cons_append], ?_,
      ?_, .cons hhalved m.rd.isLt m.shifted.isLt hcolumn, ?_, hkept, ?_⟩
    · rw [List.map_cons, List.map_cons, hread]
      rfl
    · rw [List.map_cons, List.map_cons, hwritten]
      rfl
    · exact List.forall_mem_cons.mpr ⟨hshift.step_eq, hsteps⟩
    · exact List.forall_mem_cons.mpr ⟨hkept, hall⟩

/-- LSR or ASR of the highest byte and ROR of each lower one halve a number of any length exactly,
read as unsigned or as signed, and end with the bit that is left over in the carry. The bits I, T
and H stay as they are. -/
theorem long_shift_exact {k : LongShift} (h : k.Chain s₀ ms s) :
    let n := ms.length
    let before := ms.map Machine.rd
    let after := ms.map Machine.shifted
    (∀ m ∈ ms, m.step = .ok m.next) ∧
    (k = .logical → value after = value before / 2) ∧
    (k = .arithmetic → (value after : ℤ) = (signedValue before / 2) % 256 ^ n) ∧
    (s.getLsbD 0).toNat = value before % 2 ∧
    ∀ m ∈ ms, ∀ i ∈ [5, 6, 7], (m.next.memory sreg).getLsbD i = s₀.getLsbD i := by
  obtain ⟨low, top, l, hms, hread, hwritten, hhalved, hsteps, -, hall⟩ := h.halved
  have hexact := hhalved.exact
  have hlength : l.length = ms.length := by simpa using congrArg List.length hread
  have hlt := value_lt Machine.shifted ms
  have hbit := Bool.toNat_le (s.getLsbD 0)
  have hbefore :
      Nat.ofDigits 256 (ms.map (BitVec.toNat ∘ Machine.rd)) = value (ms.map Machine.rd) := by
    rw [value, List.map_map]
  have hafter : Nat.ofDigits 256 (ms.map (BitVec.toNat ∘ Machine.shifted)) =
      value (ms.map Machine.shifted) := by
    rw [value, List.map_map]
  rw [hread, hwritten, hlength, hbefore, hafter] at hexact
  refine ⟨hsteps, fun hk => ?_, fun hk => ?_, ?_, hall⟩
  · subst hk
    rw [LongShift.fill, Bool.toNat_false] at hexact
    omega
  · subst hk
    have hsigned : signedValue (ms.map Machine.rd) = value (ms.map Machine.rd) -
        ((256 ^ ms.length : ℕ) : ℤ) * (decide (128 ≤ top.rd.toNat)).toNat := by
      have hconcat := Digits.signed_concat_eq (h := 128)
        (l := low.map (BitVec.toNat ∘ Machine.rd)) (d := top.rd.toNat) (fun e he => ?_) top.rd.isLt
      · rw [signedValue, value, List.map_map, hms, List.map_append, List.length_append]
        rw [List.length_map] at hconcat
        exact hconcat
      · obtain ⟨m, -, rfl⟩ := List.mem_map.mp he
        exact m.rd.isLt
    rw [hsigned]
    rw [LongShift.fill] at hexact
    generalize (decide (128 ≤ top.rd.toNat)).toNat = fill at hexact
    generalize value (ms.map Machine.rd) = v at hexact
    generalize value (ms.map Machine.shifted) = w at hexact hlt
    have hcast : (256 : ℤ) ^ ms.length = ((256 ^ ms.length : ℕ) : ℤ) := by push_cast; rfl
    rw [hcast]
    generalize 256 ^ ms.length = q at hexact hlt
    have hquotient : ((v : ℤ) - q * fill) / 2 = w + q * (-fill) := by
      have hexact' : (v : ℤ) + q * fill = 2 * w + (s.getLsbD 0).toNat := by exact_mod_cast hexact
      have hsplit : (v : ℤ) - q * fill = (s.getLsbD 0).toNat + 2 * (w + q * (-fill)) := by
        linear_combination hexact'
      rw [hsplit, Int.add_mul_ediv_left _ _ (by decide),
        Int.ediv_eq_zero_of_lt (by omega) (by omega), Int.zero_add]
    rw [hquotient, Int.add_mul_emod_self_left, Int.emod_eq_of_lt (by omega) (by omega)]
  · have heven : 256 ^ ms.length % 2 = 0 := by
      have hpos : ms.length ≠ 0 := by
        rw [hms]
        simp
      exact Nat.mod_eq_zero_of_dvd (dvd_pow (by decide) hpos)
    have hmod := congrArg (· % 2) hexact
    simp only [Nat.add_mod, Nat.mul_mod, heven, Nat.zero_mul, Nat.zero_mod, Nat.mod_self,
      Nat.zero_add, Nat.add_zero, Nat.mod_mod] at hmod
    omega

end Bytes

section Halves

attribute [local instance] idleDes

/-- `LSR r17` and `ROR r16`, on 0x0103 in r17 and r16. -/
def halvingMachine : Machine :=
  { Machine.powerOn fun a => if a = 0 then 0x9516 else 0x9507 with
    memory := fun i => if i = 16 then 0x03 else if i = 17 then 0x01 else 0 }

/-- Half of 0x0103 is 0x0081, and one is left. -/
theorem long_shift_exact_logical :
    value ([halvingMachine.next, halvingMachine].map Machine.shifted) = 0x0081 ∧
      (halvingMachine.next.next.memory sreg).getLsbD 0 = true := by
  have htop : LongShift.Chain .logical 0 [halvingMachine] (halvingMachine.next.memory sreg) :=
    .top ⟨rfl, show 0 < flashSize by decide, show IsOp (0x9406, 0xfe0f) 0x9516 by decide⟩ rfl
  have hchain := htop.cons ⟨by decide, by decide, by decide⟩ rfl
  obtain ⟨-, hvalue, -, hcarry, -⟩ := long_shift_exact hchain
  have hodd : value ([halvingMachine.next, halvingMachine].map Machine.rd) % 2 = 1 := by decide
  rw [hodd] at hcarry
  refine ⟨?_, Bool.toNat_eq_one.mp hcarry⟩
  rw [hvalue rfl]
  decide

end Halves

end AvrEmu
