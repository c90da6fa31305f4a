import AvrEmu.Arithmetic
import AvrEmu.Lib.Digits
import Mathlib.Data.Nat.ModEq

/-!
# Arithmetic on numbers of several bytes

An addition or subtraction without carry on the lowest pair of bytes, then one with carry
on each higher pair. The carry flag between the instructions is the carry between the
columns of a long addition or subtraction, and the flags of the last instruction are those
of the whole numbers.
-/

namespace AvrEmu

variable {m : Machine} {s₀ s : Byte} {ms : List Machine}

/-- The operations that come in a form without and a form with carry. -/
inductive Long where
  | add | sub | subi | compare
  deriving DecidableEq

/-- The instruction on the lowest byte, or the one on a higher byte. -/
def Long.op : Long → Bool → AluOp
  | add, higher => if higher then .adc else .add
  | sub, higher => if higher then .sbc else .sub
  | subi, higher => if higher then .sbci else .subi
  | compare, higher => if higher then .cpc else .cp

/-- Whether the operation adds or subtracts. -/
def Long.sign : Long → ℤ
  | add => 1
  | sub | subi | compare => -1

/-- The register of the left operand, which also takes the result. -/
def Long.reg (k : Long) (m : Machine) : ℕ :=
  match k with
  | add | sub | compare => (fieldD m.instrWord).toNat
  | subi => m.upperD

/-- The left operand of the instruction at `pc`. -/
def Long.left (k : Long) (m : Machine) : Byte := m.memory (k.reg m)

/-- The right operand. -/
def Long.right (k : Long) (m : Machine) : Byte :=
  match k with
  | add | sub | compare => m.rr
  | subi => m.imm

/-- The byte the instruction computes from a carry. -/
def Long.result (k : Long) (m : Machine) (carry : Bool) : Byte :=
  match k with
  | add => addByte (k.left m) (k.right m) carry
  | sub | subi | compare => subByte (k.left m) (k.right m) carry

/-- The status the instruction leaves. -/
def Long.status (k : Long) (m : Machine) (carry : Bool) : Status :=
  match k with
  | add => .sum (k.left m) (k.right m) carry
  | sub | compare => (Status.difference (k.left m) (k.right m) carry).keepZ
  | subi => .difference (k.left m) (k.right m) carry

/-- The outcome of the instruction. -/
def Long.outcome (k : Long) (m : Machine) (carry : Bool) : Outcome where
  dest := k.reg m
  bytes := if k = compare then [] else [k.result m carry]
  status := k.status m carry

/-- The value of a little-endian list of bytes. -/
def value (bs : List Byte) : ℕ := Nat.ofDigits 256 (bs.map BitVec.toNat)

/-- Its value in two's complement. -/
def signedValue (bs : List Byte) : ℤ := Digits.signed 256 (bs.map BitVec.toNat)

section Whole

variable [DesLibrary]

theorem Long.realized (k : Long) (higher : Bool) (h : m.Ready (k.op higher).opcode) :
    m.step = .ok m.next ∧ (k.outcome m (higher && m.carry)).Realized [] m m.next := by
  cases k with
  | add =>
    have hsum (carry : Bool) : Long.outcome .add m carry =
        .sum (fieldD m.instrWord).toNat m.rd m.rr carry := by
      simp only [Long.outcome, Outcome.sum, Outcome.byte, ← addByte_eq]
      rfl
    rw [hsum]
    cases higher with
    | false => exact realized_adc false h (h.isOp.coarsen rfl rfl) rfl rfl
    | true => exact realized_adc true h (h.isOp.coarsen rfl rfl) rfl rfl
  | sub =>
    have hdiff (carry : Bool) : Long.outcome .sub m carry =
        { Outcome.difference (fieldD m.instrWord).toNat m.rd m.rr carry with
          status := (Status.difference m.rd m.rr carry).keepZ } := by
      simp only [Long.outcome, Outcome.difference, Outcome.byte, ← subByte_eq]
      rfl
    rw [hdiff]
    cases higher with
    | false => exact realized_subtract false h (h.isOp.coarsen rfl rfl) rfl rfl
    | true => exact realized_subtract true h (h.isOp.coarsen rfl rfl) rfl rfl
  | subi =>
    have hdiff (carry : Bool) : Long.outcome .subi m carry =
        .difference m.upperD m.rdUpper m.imm carry := by
      simp only [Long.outcome, Outcome.difference, Outcome.byte, ← subByte_eq]
      rfl
    rw [hdiff]
    cases higher with
    | false => exact realized_subi false h (h.isOp.coarsen rfl rfl) rfl rfl
    | true => exact realized_subi true h (h.isOp.coarsen rfl rfl) rfl rfl
  | compare =>
    obtain ⟨hstep, hreal⟩ : m.step = .ok m.next ∧ (Outcome.test (Status.difference m.rd m.rr
        (higher && m.carry)).keepZ).Realized [] m m.next := by
      cases higher with
      | false => exact realized_compare false h (h.isOp.coarsen rfl rfl) rfl rfl
      | true => exact realized_compare true h (h.isOp.coarsen rfl rfl) rfl rfl
    refine ⟨hstep, fun i hi => absurd hi (Nat.not_lt_zero i), hreal.status_eq, fun a ha _ => ?_⟩
    exact hreal.frame a ha fun i hi => absurd hi (Nat.not_lt_zero i)

omit [DesLibrary] in
/-- The flags and the byte of one column, from the exact results. -/
theorem Long.column (k : Long) (m : Machine) (carry : Bool) :
    let exact : ℤ := (k.left m).toInt + k.sign * ((k.right m).toInt + carry.toNat)
    ∃ out ovf neg : Bool, (k.status m carry).c = some out ∧ (k.status m carry).v = some ovf ∧
      (k.status m carry).s = some neg ∧
      ((k.left m).toNat + k.sign * ((k.right m).toNat + carry.toNat) : ℤ) =
        (k.result m carry).toNat + 256 * (k.sign * out.toNat) ∧
      (ovf = true ↔ ¬ (-128 ≤ exact ∧ exact < 128)) ∧ (neg = true ↔ exact < 0) := by
  intro exact
  have hadd := addByte_toNat (k.left m) (k.right m) carry
  have hsub := subByte_toNat (k.left m) (k.right m) carry
  have hleft := (k.left m).isLt
  have hright := (k.right m).isLt
  have hcarry := Bool.toNat_le carry
  have hsubtract (st : Status) (hc : st.c = (Status.difference (k.left m) (k.right m) carry).c)
      (hv : st.v = (Status.difference (k.left m) (k.right m) carry).v)
      (hs : st.s = (Status.difference (k.left m) (k.right m) carry).s) (hsign : k.sign = -1)
      (hres : k.result m carry = subByte (k.left m) (k.right m) carry) :
      ∃ out ovf neg : Bool, st.c = some out ∧ st.v = some ovf ∧ st.s = some neg ∧
        ((k.left m).toNat + k.sign * ((k.right m).toNat + carry.toNat) : ℤ) =
          (k.result m carry).toNat + 256 * (k.sign * out.toNat) ∧
        (ovf = true ↔ ¬ (-128 ≤ exact ∧ exact < 128)) ∧ (neg = true ↔ exact < 0) := by
    refine ⟨_, _, _, hc, hv, hs, ?_, ?_, ?_⟩
    · rw [hres, hsign]
      by_cases hborrow : (k.left m).toNat < (k.right m).toNat + carry.toNat
      · rw [decide_eq_true (by omega), Bool.toNat_true]
        omega
      · rw [decide_eq_false (by omega), Bool.toNat_false]
        omega
    · simp only [exact, hsign, decide_eq_true_eq]
      omega
    · simp only [exact, hsign, decide_eq_true_eq]
      omega
  cases k with
  | add =>
    refine ⟨_, _, _, rfl, rfl, rfl, ?_, ?_, ?_⟩
    · change _ = ((addByte _ _ carry).toNat : ℤ) + 256 * (1 * _)
      by_cases hover : 256 ≤ (Long.left .add m).toNat + (Long.right .add m).toNat + carry.toNat
      · rw [decide_eq_true (by omega), Bool.toNat_true]
        simp only [Long.sign]
        omega
      · rw [decide_eq_false (by omega), Bool.toNat_false]
        simp only [Long.sign]
        omega
    · simp only [exact, Long.sign, decide_eq_true_eq]
      omega
    · simp only [exact, Long.sign, decide_eq_true_eq]
      omega
  | sub => exact hsubtract _ rfl rfl rfl rfl rfl
  | subi => exact hsubtract _ rfl rfl rfl rfl rfl
  | compare => exact hsubtract _ rfl rfl rfl rfl rfl

/-- The instructions of a long operation, lowest byte first, each on a machine of its own with
only the status register carried over: `s₀` before and `s` after. -/
inductive Long.Chain (k : Long) (s₀ : Byte) : List Machine → Byte → Prop
  | nil : k.Chain s₀ [] s₀
  | snoc {ms : List Machine} {s : Byte} {m : Machine} : k.Chain s₀ ms s →
      m.Ready (k.op !ms.isEmpty).opcode → m.memory sreg = s →
      k.Chain s₀ (ms ++ [m]) (m.next.memory sreg)

/-- The byte that the instruction leaves in the register of its left operand. -/
def Long.written (k : Long) (m : Machine) : Byte := m.next.memory (k.reg m)

/-- The instructions of a chain are the columns of a long operation. -/
theorem Long.Chain.columns {k : Long} (h : k.Chain s₀ ms s) : (∀ m ∈ ms, m.step = .ok m.next) ∧
    ∃ l : List (ℕ × ℕ × ℕ), l.map (·.1) = ms.map (BitVec.toNat ∘ k.left) ∧
      l.map (·.2.1) = ms.map (BitVec.toNat ∘ k.right) ∧
      (k ≠ .compare → l.map (·.2.2) = ms.map (BitVec.toNat ∘ k.written)) ∧
      Digits.Columns 256 k.sign false l (!ms.isEmpty && s.getLsbD 0) := by
  induction h with
  | nil => exact ⟨by simp, [], rfl, rfl, fun _ => rfl, .nil⟩
  | @snoc ms s m _ hready hsreg ih =>
    obtain ⟨hsteps, l, hleft, hright, hwritten, hcols⟩ := ih
    obtain ⟨hstep, hreal⟩ := k.realized (!ms.isEmpty) hready
    have hcarry : m.carry = s.getLsbD 0 := by rw [Machine.carry, hsreg]
    rw [hcarry] at hreal
    obtain ⟨out, ovf, neg, hout, -, -, hcolumn, -, -⟩ := k.column m (!ms.isEmpty && s.getLsbD 0)
    have hflag : (m.next.memory sreg).getLsbD 0 = out := by
      rw [hreal.status_eq 0 (by decide) List.not_mem_nil]
      change ((k.status m _).c).getD _ = out
      rw [hout]
      rfl
    refine ⟨fun n hn => ?_, l ++ [((k.left m).toNat, (k.right m).toNat,
      (k.result m (!ms.isEmpty && s.getLsbD 0)).toNat)], ?_, ?_, fun hk => ?_, ?_⟩
    · rcases List.mem_append.mp hn with hn | hn
      · exact hsteps n hn
      · rw [List.mem_singleton.mp hn]
        exact hstep
    · rw [List.map_append, List.map_append, hleft]
      rfl
    · rw [List.map_append, List.map_append, hright]
      rfl
    · have hbytes : (k.outcome m (!ms.isEmpty && s.getLsbD 0)).bytes =
          [k.result m (!ms.isEmpty && s.getLsbD 0)] := if_neg hk
      have hstored := hreal.stored 0 (by rw [hbytes]; exact Nat.zero_lt_one)
      simp only [hbytes] at hstored
      rw [List.map_append, List.map_append, hwritten hk]
      exact congrArg (fun b : Byte => ms.map (BitVec.toNat ∘ k.written) ++ [b.toNat]) hstored.symm
    · have hnonempty : (!(ms ++ [m]).isEmpty) = true := by simp
      rw [hnonempty, Bool.true_and, hflag]
      exact .snoc hcols (k.left m).isLt (k.right m).isLt (BitVec.isLt _) hcolumn

/-- The bytes of a long operation and its last carry are the exact result. -/
theorem Long.Chain.exact {k : Long} (h : k.Chain s₀ ms s) (hne : ms ≠ []) : ∃ w : ℕ,
    w < 256 ^ ms.length ∧ (k ≠ .compare → w = value (ms.map k.written)) ∧
    (value (ms.map k.left) + k.sign * value (ms.map k.right) : ℤ) =
      w + (256 ^ ms.length : ℕ) * (k.sign * (s.getLsbD 0).toNat) := by
  obtain ⟨-, l, hleft, hright, hwritten, hcols⟩ := h.columns
  have hnonempty : (!ms.isEmpty) = true := by simpa using hne
  rw [hnonempty, Bool.true_and] at hcols
  have hlength : l.length = ms.length := by simpa using congrArg List.length hleft
  have hexact := hcols.exact
  have hlt := Digits.ofDigits_lt (b := 256) (l := l.map (·.2.2)) fun e he => by
    obtain ⟨a, ha, rfl⟩ := List.mem_map.mp he
    exact (hcols.digits_lt a ha).2.2
  rw [List.length_map, hlength] at hlt
  rw [hleft, hright, hlength, Bool.toNat_false, Nat.cast_zero, add_zero] at hexact
  refine ⟨_, hlt, fun hk => ?_, ?_⟩
  · rw [hwritten hk, value, List.map_map]
  · rw [value, value, List.map_map, List.map_map]
    exact hexact

omit [DesLibrary] in
theorem toInt_eq_bmod (b : Byte) : b.toInt = ((b.toNat : ℕ) : ℤ).bmod (2 * 128) :=
  BitVec.toInt_eq_toNat_bmod b

/-- Overflow and sign of a long operation. -/
theorem Long.Chain.signed_iff {k : Long} (h : k.Chain s₀ ms s) (hne : ms ≠ []) :
    let exact : ℤ := signedValue (ms.map k.left) + k.sign * signedValue (ms.map k.right)
    (s.getLsbD 3 = true ↔
      ¬ (-2 ^ (8 * ms.length - 1) ≤ exact ∧ exact < 2 ^ (8 * ms.length - 1))) ∧
    (s.getLsbD 4 = true ↔ exact < 0) := by
  cases h with
  | nil => exact absurd rfl hne
  | @snoc ms s m h hready hsreg =>
    intro exact
    obtain ⟨-, l, hleft, hright, -, hcols⟩ := h.columns
    obtain ⟨-, hreal⟩ := k.realized (!ms.isEmpty) hready
    have hcarry : m.carry = s.getLsbD 0 := by rw [Machine.carry, hsreg]
    rw [hcarry] at hreal
    generalize (!ms.isEmpty && s.getLsbD 0) = carry at hcols hreal
    obtain ⟨out, ovf, neg, -, hover, hneg, -, hoveriff, hnegiff⟩ := k.column m carry
    have hflag₃ : (m.next.memory sreg).getLsbD 3 = ovf := by
      rw [hreal.status_eq 3 (by decide) List.not_mem_nil]
      change ((k.status m carry).v).getD _ = ovf
      rw [hover]
      rfl
    have hflag₄ : (m.next.memory sreg).getLsbD 4 = neg := by
      rw [hreal.status_eq 4 (by decide) List.not_mem_nil]
      change ((k.status m carry).s).getD _ = neg
      rw [hneg]
      rfl
    have hlength : l.length = ms.length := by simpa using congrArg List.length hleft
    have hlt := Digits.ofDigits_lt (b := 256) (l := l.map (·.2.2)) fun e he => by
      obtain ⟨a, ha, rfl⟩ := List.mem_map.mp he
      exact (hcols.digits_lt a ha).2.2
    rw [List.length_map, hlength] at hlt
    have hsigned := Digits.Columns.exact_signed (h := 128) hcols (k.left m).isLt (k.right m).isLt
    rw [hleft, hright, hlength, ← toInt_eq_bmod, ← toInt_eq_bmod] at hsigned
    have hvalue : exact = (Nat.ofDigits 256 (l.map (·.2.2)) : ℕ) + (256 ^ ms.length : ℕ) *
        ((k.left m).toInt + k.sign * ((k.right m).toInt + carry.toNat)) := by
      rw [← hsigned]
      simp only [exact, signedValue, List.map_append, List.map_map, List.map_cons, List.map_nil,
        Bool.toNat_false, Nat.cast_zero, add_zero]
    have hbound : (2 : ℤ) ^ (8 * (ms ++ [m]).length - 1) = (256 ^ ms.length : ℕ) * 128 := by
      have hexp : 8 * (ms ++ [m]).length - 1 = 8 * ms.length + 7 := by
        rw [List.length_append, List.length_singleton]
        omega
      rw [hexp, pow_add, pow_mul]
      norm_num
    have hlow := Digits.add_mul_lt_mul_iff (k := -128)
      (t := (k.left m).toInt + k.sign * ((k.right m).toInt + carry.toNat)) hlt
    have hhigh := Digits.add_mul_lt_mul_iff (k := 128)
      (t := (k.left m).toInt + k.sign * ((k.right m).toInt + carry.toNat)) hlt
    have hzero := Digits.add_mul_lt_mul_iff (k := 0)
      (t := (k.left m).toInt + k.sign * ((k.right m).toInt + carry.toNat)) hlt
    rw [hflag₃, hflag₄, hoveriff, hnegiff, hvalue, hbound, ← hhigh, ← hzero]
    omega

/-- When a long operation carries or borrows. -/
def Long.Carries (k : Long) (a b n : ℕ) : Prop :=
  match k with
  | add => 256 ^ n ≤ a + b
  | sub | subi | compare => a < b

omit [DesLibrary] in
theorem value_lt {α : Type} (f : α → Byte) (l : List α) : value (l.map f) < 256 ^ l.length := by
  have hlt := Digits.ofDigits_lt (b := 256) (l := (l.map f).map BitVec.toNat) fun e he => by
    obtain ⟨a, -, rfl⟩ := List.mem_map.mp he
    exact a.isLt
  rwa [List.length_map, List.length_map] at hlt

omit [DesLibrary] in
theorem value_concat {α : Type} (f : α → Byte) (l : List α) (a : α) :
    value ((l ++ [a]).map f) = value (l.map f) + 256 ^ l.length * (f a).toNat := by
  rw [value, value, List.map_append, List.map_append, List.map_cons, List.map_nil, List.map_cons,
    List.map_nil, Digits.ofDigits_concat, List.length_map, List.length_map]

/-- The carry flag a long operation ends with. -/
theorem Long.Chain.carries_iff {k : Long} (h : k.Chain s₀ ms s) (hne : ms ≠ []) :
    s.getLsbD 0 = true ↔ k.Carries (value (ms.map k.left)) (value (ms.map k.right)) ms.length := by
  obtain ⟨w, hlt, -, hexact⟩ := h.exact hne
  have hleft := value_lt k.left ms
  have hright := value_lt k.right ms
  generalize value (ms.map k.left) = a at hexact hleft ⊢
  generalize value (ms.map k.right) = b at hexact hright ⊢
  unfold Long.Carries
  generalize 256 ^ ms.length = q at hlt hleft hright hexact ⊢
  cases hflag : s.getLsbD 0 with
  | false =>
    rw [hflag, Bool.toNat_false, Nat.cast_zero, mul_zero, mul_zero, add_zero] at hexact
    cases k <;> simp only [Long.sign] at hexact ⊢ <;> simp only [Bool.false_eq_true, false_iff] <;>
      omega
  | true =>
    rw [hflag, Bool.toNat_true, Nat.cast_one, mul_one] at hexact
    cases k <;> simp only [Long.sign, mul_one, mul_neg] at hexact ⊢ <;> simp only [true_iff] <;>
      omega

/-- The borrow that a long subtraction takes into its next column. -/
theorem Long.Chain.borrow_eq {k : Long} (h : k.Chain s₀ ms s) (hk : k ≠ .add) :
    (!ms.isEmpty && s.getLsbD 0) = decide (value (ms.map k.left) < value (ms.map k.right)) := by
  by_cases hempty : ms = []
  · subst hempty
    rfl
  · have hnonempty : (!ms.isEmpty) = true := by simpa using hempty
    rw [hnonempty, Bool.true_and, Bool.eq_iff_iff, h.carries_iff hempty, decide_eq_true_iff]
    cases k with
    | add => exact absurd rfl hk
    | sub | subi | compare => rfl

/-- ADD with ADC, SUB with SBC and SUBI with SBCI compute the sum or difference of numbers
of any length exactly, and end with the carry, the signed overflow and the sign of the whole. -/
theorem long_arithmetic_exact {k : Long} (hk : k ≠ .compare) (h : k.Chain s₀ ms s)
    (hne : ms ≠ []) :
    let n := ms.length
    let a := value (ms.map k.left)
    let b := value (ms.map k.right)
    let signedExact : ℤ := signedValue (ms.map k.left) + k.sign * signedValue (ms.map k.right)
    (∀ m ∈ ms, m.step = .ok m.next) ∧
    (value (ms.map k.written) : ℤ) = (a + k.sign * b) % 256 ^ n ∧
    (s.getLsbD 0 = true ↔ k.Carries a b n) ∧
    (s.getLsbD 3 = true ↔
      ¬ (-2 ^ (8 * n - 1) ≤ signedExact ∧ signedExact < 2 ^ (8 * n - 1))) ∧
    (s.getLsbD 4 = true ↔ signedExact < 0) := by
  obtain ⟨w, hlt, hw, hexact⟩ := h.exact hne
  refine ⟨h.columns.1, ?_, h.carries_iff hne, (h.signed_iff hne).1, (h.signed_iff hne).2⟩
  rw [hexact, ← hw hk]
  push_cast
  rw [Int.add_mul_emod_self_left, Int.emod_eq_of_lt (by omega) (by exact_mod_cast hlt)]

end Whole

section Pairs

attribute [local instance] idleDes

/-- Register 16 with a byte in it, and the image `SUBI r16, 0; SBCI r17, 0`. -/
def immediateMachine (b : Byte) : Machine :=
  { Machine.powerOn fun a => if a = 0 then 0x5000 else 0x4010 with
    memory := fun i => if i = 16 then b else 0 }

/-- The two instructions are a long subtraction. -/
theorem immediate_chain (b : Byte) (hstep : (immediateMachine b).next.Ready (0x4000, 0xf000)) :
    Long.Chain .subi 0 [immediateMachine b, (immediateMachine b).next]
      ((immediateMachine b).next.next.memory sreg) := by
  have hnil : Long.Chain .subi 0 [] 0 := .nil
  have hlow : Long.Chain .subi 0 [immediateMachine b] ((immediateMachine b).next.memory sreg) :=
    hnil.snoc
      ⟨rfl, show 0 < flashSize by decide, show IsOp (0x5000, 0xf000) 0x5000 by decide⟩ rfl
  exact hlow.snoc hstep rfl

/-- One less nothing, in two bytes. -/
theorem long_arithmetic_exact_subi :
    value ([immediateMachine 1, (immediateMachine 1).next].map (Long.written .subi)) = 1 := by
  have hchain := immediate_chain 1 ⟨by decide, by decide, by decide⟩
  have hexact := (long_arithmetic_exact (by decide) hchain (by simp)).2.1
  have hvalue :
      ((value ([immediateMachine 1, (immediateMachine 1).next].map (Long.written .subi)) : ℕ) : ℤ) =
        1 := by
    rw [hexact]
    decide
  exact_mod_cast hvalue

end Pairs

/-! ## Zero of a long immediate subtraction -/

section Zero

variable [DesLibrary]

/-- The zero flag after SUBI and SBCIs on an immediate tells whether the whole difference is
zero exactly when the lower bytes agree, so that none of them clears it, or the top byte of
the difference is not zero. -/
theorem immediate_zero_iff {low : List Machine} (h : Long.Chain .subi s₀ (low ++ [m]) s) :
    let a := value ((low ++ [m]).map (Long.left .subi))
    let b := value ((low ++ [m]).map (Long.right .subi))
    let aLow := value (low.map (Long.left .subi))
    let bLow := value (low.map (Long.right .subi))
    (s.getLsbD 1 = true ↔ ((a : ℤ) - b) % 256 ^ (low.length + 1) = 0) ↔
      aLow = bLow ∨ ¬ (Long.left .subi m).toNat ≡
        (Long.right .subi m).toNat + (decide (aLow < bLow)).toNat [MOD 256] := by
  intro a b aLow bLow
  generalize hms : low ++ [m] = ms at h
  cases h with
  | nil => simp at hms
  | @snoc low' s' m' h hready hsreg =>
    obtain ⟨rfl, hlast⟩ := List.append_inj' hms rfl
    obtain rfl := (List.cons.inj hlast).1
    obtain ⟨-, hreal⟩ := Long.realized .subi (!low.isEmpty) hready
    have hborrow := h.borrow_eq (by decide)
    rw [← hsreg] at hborrow
    rw [Machine.carry, hborrow] at hreal
    have hzero : (m.next.memory sreg).getLsbD 1 = true ↔ (Long.left .subi m).toNat ≡
        (Long.right .subi m).toNat + (decide (aLow < bLow)).toNat [MOD 256] := by
      rw [hreal.status_eq 1 (by decide) List.not_mem_nil]
      change decide (((Long.left .subi m).toNat - (Long.right .subi m).toNat -
        (decide (aLow < bLow)).toNat : ℤ) % 2 ^ 8 = 0) = true ↔ _
      rw [decide_eq_true_iff, Nat.ModEq]
      omega
    have haLow : aLow < 256 ^ low.length := value_lt _ low
    have hbLow : bLow < 256 ^ low.length := value_lt _ low
    have ha : a = aLow + 256 ^ low.length * (Long.left .subi m).toNat := value_concat _ low m
    have hb : b = bLow + 256 ^ low.length * (Long.right .subi m).toNat := value_concat _ low m
    rw [hzero, pow_succ, ha, hb]
    generalize (Long.left .subi m).toNat = d
    generalize (Long.right .subi m).toNat = r
    generalize hq : 256 ^ low.length = q at haLow hbLow
    have hqint : (256 : ℤ) ^ low.length = q := by exact_mod_cast hq
    rw [hqint]
    push_cast
    by_cases hlow : aLow = bLow
    · have hdiff : (aLow + q * d : ℤ) - (bLow + q * r) = q * (d - r) := by
        rw [hlow]
        ring
      have hqpos : (0 : ℤ) < q := by omega
      rw [hdiff, Int.mul_emod_mul_of_pos _ _ hqpos, hlow, decide_eq_false (lt_irrefl bLow),
        Nat.ModEq, Bool.toNat_false, mul_eq_zero]
      simp only [true_or, iff_true]
      omega
    · have hnot : ¬ ((aLow + q * d : ℤ) - (bLow + q * r)) % (q * 256) = 0 := by
        intro hdvd
        have hdvd' : (q : ℤ) ∣ (aLow - bLow) + q * (d - r) := by
          have heq : (aLow - bLow : ℤ) + q * (d - r) = (aLow + q * d) - (bLow + q * r) := by ring
          rw [heq]
          exact Dvd.dvd.trans (Dvd.intro _ rfl) (Int.dvd_of_emod_eq_zero hdvd)
        obtain ⟨t, ht⟩ := (Int.dvd_add_left (Dvd.intro _ rfl)).mp hdvd'
        have habs := Int.eq_zero_of_abs_lt_dvd ⟨t, ht⟩ (by rw [abs_lt]; omega)
        omega
      simp only [hnot, hlow, iff_false, false_or]

end Zero

section Pairs

attribute [local instance] idleDes

/-- Nothing taken from zero is zero. -/
theorem immediate_zero_iff_zero :
    ((immediateMachine 0).next.next.memory sreg).getLsbD 1 = true := by
  have hchain := immediate_chain 0 ⟨by decide, by decide, by decide⟩
  have hiff := (@immediate_zero_iff _ _ _ _ [immediateMachine 0] hchain).mpr (Or.inl (by decide))
  exact hiff.mpr (by decide)

/-- Nothing taken from 1 is reported as zero, since the higher byte is. -/
theorem immediate_zero_fails : ¬ ∀ (_ : DesLibrary) (s₀ s : Byte) (ms : List Machine),
    Long.Chain .subi s₀ ms s → ms ≠ [] → (s.getLsbD 1 = true ↔
      ((value (ms.map (Long.left .subi)) : ℤ) - value (ms.map (Long.right .subi))) %
        256 ^ ms.length = 0) := by
  intro hclaim
  have hchain := immediate_chain 1 ⟨by decide, by decide, by decide⟩
  exact absurd (hclaim idleDes _ _ _ hchain (by simp)) (by decide)

end Pairs

end AvrEmu
