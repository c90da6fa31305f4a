import AvrEmu.LongArithmetic
import AvrEmu.ProgramCounter

/-!
# Comparing numbers of several bytes

CP on the lowest pair of bytes and CPC on each higher pair leave the carry and sign bits
of the whole comparison. The zero bit is only ever cleared, by CP as well as by CPC, so
it answers for equality only if it was set before.
-/

namespace AvrEmu

variable {m m' : Machine} {s₀ s : Byte} {ms : List Machine}

/-- The relations that a conditional branch can ask for after a comparison. -/
inductive Relation where
  | equal | below | less
  deriving DecidableEq

/-- The status bit that answers for a relation. -/
def Relation.flag : Relation → BitVec 3
  | equal => 1
  | below => 0
  | less => 4

/-- The relation itself: equality, the unsigned order and the signed order. -/
def Relation.Holds (rel : Relation) (a b : List Byte) : Prop :=
  match rel with
  | equal => value a = value b
  | below => value a < value b
  | less => signedValue a < signedValue b

section Chains

variable [DesLibrary]

/-- The comparisons of a chain, and the branches that follow it, do what they should: the
comparisons change no general register, each flag answers for its relation, and BRBS and
BRBC on that flag branch exactly when the relation holds, or exactly when it does not. -/
structure ComparesCorrectly (ms : List Machine) (s : Byte) : Prop where
  completes : ∀ m ∈ ms, m.step = .ok m.next
  registers : ∀ m ∈ ms, ∀ i < 32, m.next.memory i = m.memory i
  flags : ∀ rel : Relation, s.getLsbD rel.flag.toNat = true ↔
    rel.Holds (ms.map (Long.left .compare)) (ms.map (Long.right .compare))
  branches : ∀ (rel : Relation) (m : Machine), m.Ready Op.brb → m.memory sreg = s →
    fieldBit m.instrWord = rel.flag →
    let holds := rel.Holds (ms.map (Long.left .compare)) (ms.map (Long.right .compare))
    m.step = .ok m.next ∧
    ((holds ↔ m.instrWord.getLsbD 10 = false) →
      m.next.pc = m.pc + (fieldBranch m.instrWord).signExtend 32 + 1) ∧
    (¬ (holds ↔ m.instrWord.getLsbD 10 = false) → m.next.pc = m.pc + 1)

/-- A conditional branch completes, and branches when the bit it names is as it asks. -/
theorem step_brb (h : m.Ready Op.brb) : m.step = .ok m.next ∧
    m.next.pc = if m.branches then m.pc + (fieldBranch m.instrWord).signExtend 32 + 1
      else m.pc + 1 := by
  let d : InstrDecode := { pattern := 0xf000, mask := 0xf800, code := instrBrb, rrr20 := true }
  have hfetch : m.Fetches d := ⟨h.pc_lt, lookup_brb h.isOp, fun himm => absurd himm (by decide)⟩
  have hcode := exec_instrBrb (m := m.fetched d) (operands_rrr20 (d := d) (m.decoded d) rfl)
  have hexec : m.Executes d _ _ := ⟨h.skip_eq, hfetch, hcode, BitVec.and_zero⟩
  change m.Executes d _ (if m.branches then (m.fetched d).mapCore fun s =>
    { s with pc := s.pc + (fieldBranch m.instrWord).signExtend 32 } else m.fetched d) at hexec
  cases hbranches : m.branches with
  | false =>
    rw [hbranches] at hexec
    have hstep := hexec.step_eq h.skip_eq
    rw [next_eq hstep]
    exact ⟨hstep, rfl⟩
  | true =>
    rw [hbranches] at hexec
    have hstep := hexec.step_eq h.skip_eq
    rw [next_eq hstep]
    exact ⟨hstep, rfl⟩

/-- The zero flag after a chain of comparisons: it was set before, and the operands agree. -/
theorem compare_zero (h : Long.Chain .compare s₀ ms s) : s.getLsbD 1 = (s₀.getLsbD 1 &&
    decide (value (ms.map (Long.left .compare)) = value (ms.map (Long.right .compare)))) := by
  induction h with
  | nil => simp
  | @snoc low s m h hready hsreg ih =>
    obtain ⟨-, hreal⟩ := Long.realized .compare (!low.isEmpty) hready
    have hborrow := h.borrow_eq (by decide)
    rw [Machine.carry, hsreg, hborrow] at hreal
    have haLow := value_lt (Long.left .compare) low
    have hbLow := value_lt (Long.right .compare) low
    rw [hreal.status_eq 1 (by decide) List.not_mem_nil, hsreg, ih, value_concat, value_concat]
    generalize value (low.map (Long.left .compare)) = aLow at haLow ⊢
    generalize value (low.map (Long.right .compare)) = bLow at hbLow ⊢
    have hbit : (Long.status .compare m (decide (aLow < bLow))).bit 1 =
        if decide (((Long.left .compare m).toNat - (Long.right .compare m).toNat -
          (decide (aLow < bLow)).toNat : ℤ) % 2 ^ 8 = 0) = true then none else some false := by
      change (Status.difference _ _ _).keepZ.z = _
      simp only [Status.keepZ, Status.difference, Status.arithmetic, Option.some.injEq]
      split <;> simp_all
    change ((Long.status .compare m (decide (aLow < bLow))).bit 1).getD _ = _
    have hleft := (Long.left .compare m).isLt
    have hright := (Long.right .compare m).isLt
    rw [hbit]
    generalize (Long.left .compare m).toNat = d at hleft ⊢
    generalize (Long.right .compare m).toNat = r at hright ⊢
    generalize 256 ^ low.length = q at haLow hbLow ⊢
    have hwhole : aLow + q * d = bLow + q * r ↔
        aLow = bLow ∧ (d - r - (decide (aLow < bLow)).toNat : ℤ) % 2 ^ 8 = 0 := by
      by_cases hlow : aLow = bLow
      · have hq : 0 < q := by omega
        rw [hlow, Nat.add_left_cancel_iff, Nat.mul_right_inj (by omega),
          decide_eq_false (lt_irrefl bLow), Bool.toNat_false]
        omega
      · have hne : aLow + q * d ≠ bLow + q * r := by
          intro heq
          have hmod := congrArg (· % q) heq
          simp only [Nat.add_mul_mod_self_left, Nat.mod_eq_of_lt haLow, Nat.mod_eq_of_lt hbLow]
            at hmod
          exact hlow hmod
        simp only [hne, hlow, false_and]
    rw [decide_eq_decide.mpr hwhole, Bool.decide_and]
    cases decide ((d - r - (decide (aLow < bLow)).toNat : ℤ) % 2 ^ 8 = 0) <;>
      cases s₀.getLsbD 1 <;> cases decide (aLow = bLow) <;> rfl

/-- Comparisons change no register. -/
theorem compare_registers (h : Long.Chain .compare s₀ ms s) :
    ∀ m ∈ ms, ∀ i < 32, m.next.memory i = m.memory i := by
  induction h with
  | nil => simp
  | @snoc low s m _ hready _ ih =>
    intro n hn i hi
    rcases List.mem_append.mp hn with hn | hn
    · exact ih n hn i hi
    · obtain rfl := List.mem_singleton.mp hn
      have hne : i ≠ sreg := by
        unfold sreg
        omega
      exact (Long.realized .compare _ hready).2.frame i hne fun k hk =>
        absurd hk (Nat.not_lt_zero k)

/-- Comparing numbers of any length drives the branches correctly exactly when the zero flag
was set beforehand or the numbers differ. -/
theorem compare_chain_iff (h : Long.Chain .compare s₀ ms s) (hne : ms ≠ []) :
    ComparesCorrectly ms s ↔ s₀.getLsbD 1 = true ∨
      value (ms.map (Long.left .compare)) ≠ value (ms.map (Long.right .compare)) := by
  have hzero := compare_zero h
  constructor
  · intro hcorrect
    have hequal := hcorrect.flags .equal
    change s.getLsbD 1 = true ↔ _ = _ at hequal
    rw [hzero, Bool.and_eq_true, decide_eq_true_iff] at hequal
    tauto
  · intro hcond
    have hflags (rel : Relation) : s.getLsbD rel.flag.toNat = true ↔
        rel.Holds (ms.map (Long.left .compare)) (ms.map (Long.right .compare)) := by
      cases rel with
      | equal =>
        change s.getLsbD 1 = true ↔ _ = _
        rw [hzero, Bool.and_eq_true, decide_eq_true_iff]
        tauto
      | below => exact h.carries_iff hne
      | less =>
        refine (h.signed_iff hne).2.trans ?_
        simp only [Long.sign, Relation.Holds]
        omega
    refine ⟨h.columns.1, ?_, hflags, ?_⟩
    · exact compare_registers h
    · intro rel m hready hsreg hbit
      obtain ⟨hstep, hpc⟩ := step_brb hready
      have htaken : m.branches = true ↔ (rel.Holds (ms.map (Long.left .compare))
          (ms.map (Long.right .compare)) ↔ m.instrWord.getLsbD 10 = false) := by
        rw [← hflags rel, Machine.branches, hsreg, hbit]
        cases s.getLsbD rel.flag.toNat <;> cases m.instrWord.getLsbD 10 <;> decide
      refine ⟨hstep, fun hholds => ?_, fun hholds => ?_⟩
      · rw [hpc, if_pos (htaken.mpr hholds)]
      · rw [hpc, if_neg (mt htaken.mp hholds)]

end Chains

section Pair

attribute [local instance] idleDes

/-- A byte in register 0, zero in register 1, and the image `CP r0, r1`. -/
def compareMachine (b : Byte) : Machine :=
  { Machine.powerOn fun _ => 0x1401 with memory := fun i => if i = 0 then b else 0 }

/-- A single comparison. -/
theorem compare_chain (b : Byte) :
    Long.Chain .compare 0 [compareMachine b] ((compareMachine b).next.memory sreg) := by
  have hnil : Long.Chain .compare 0 [] 0 := .nil
  exact hnil.snoc
    ⟨rfl, show 0 < flashSize by decide, show IsOp (0x1400, 0xfc00) 0x1401 by decide⟩ rfl

/-- `0x0100` in registers 1 and 0, `0x00ff` in 3 and 2, and the image `CP r0, r2; CPC r1, r3`. -/
def longCompareMachine : Machine :=
  { Machine.powerOn fun a => if a = 0 then 0x1402 else 0x0413 with
    memory := fun i => if i = 1 then 1 else if i = 2 then 0xff else 0 }

/-- The comparison of two bytes, with a borrow from the low pair, comes out correctly. -/
theorem compare_chain_iff_two :
    ComparesCorrectly [longCompareMachine, longCompareMachine.next]
      (longCompareMachine.next.next.memory sreg) := by
  have hnil : Long.Chain .compare 0 [] 0 := .nil
  have hlow : Long.Chain .compare 0 [longCompareMachine] (longCompareMachine.next.memory sreg) :=
    hnil.snoc
      ⟨rfl, show 0 < flashSize by decide, show IsOp (0x1400, 0xfc00) 0x1402 by decide⟩ rfl
  have hready : longCompareMachine.next.Ready (0x0400, 0xfc00) :=
    ⟨by decide, by decide, by decide⟩
  have hchain : Long.Chain .compare 0 [longCompareMachine, longCompareMachine.next] _ :=
    hlow.snoc hready rfl
  exact (compare_chain_iff hchain (by simp)).mpr (Or.inr (by decide))

/-- Equal bytes do not when the zero flag was clear: it stays clear. -/
theorem compare_equal_fails : ¬ ∀ (_ : DesLibrary) (s₀ s : Byte) (ms : List Machine),
    Long.Chain .compare s₀ ms s → ms ≠ [] → ComparesCorrectly ms s := by
  intro hclaim
  have hequal := (hclaim idleDes _ _ _ (compare_chain 0) (by simp)).flags .equal
  exact absurd (hequal.mpr (show value _ = value _ by decide)) (by decide)

end Pair

end AvrEmu
