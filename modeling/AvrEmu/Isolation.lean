import AvrEmu.Confinement
import AvrEmu.Contract
import AvrEmu.Lib.Locality

/-!
# The limited data spaces

With the knobs set the emulator is a machine with a small data space: as long as the addresses that
no knob limits stay below the limit, the cells from there on are not part of it. A run does not see
them, whether it completes or not, and does not change them.
-/

namespace AvrEmu

open CellProgram

variable {m m' : Machine} {P : ℕ → Prop} [DecidablePred P] {n : ℕ} {c : ℕ → Byte}

/-- The machine with other contents in the cells outside of `P`. -/
def Machine.graft (P : ℕ → Prop) [DecidablePred P] (c : ℕ → Byte) (m : Machine) : Machine :=
  { m with memory := CellProgram.graft P m.memory c }

theorem graft_eq_of_agree (hcore : m'.toCore = m.toCore)
    (hagree : ∀ i, P i → m'.memory i = m.memory i) : m.graft P m'.memory = m' :=
  Machine.ext' hcore.symm (CellProgram.graft_eq_of_agree hagree)

section Runs

variable [DesLibrary]

/-- A step that touches cells of `P` only does the same whatever the others hold. -/
theorem step_graft (hin : ∀ x ∈ touched (emulate1 false) m, P x.index) :
    (m.graft P c).step = m.step.map (Machine.graft P c) := by
  have hrun : (emulate1 false).run (CellProgram.graft P m.memory c) m.toCore = _ := run_graft hin
  unfold Machine.step exec Machine.graft
  dsimp only
  rw [hrun]
  cases (emulate1 false).run m.memory m.toCore <;> rfl

omit [DecidablePred P] in
/-- And leaves them as they are. -/
theorem step_memory_of_touched (hin : ∀ x ∈ touched (emulate1 false) m, P x.index)
    (hstep : m.step = .ok m') {i : ℕ} (hi : ¬ P i) : m'.memory i = m.memory i := by
  unfold Machine.step at hstep
  cases hexec : exec (emulate1 false) m with
  | error e => simp [hexec] at hstep
  | ok r =>
    simp only [hexec, Except.ok.injEq] at hstep
    subst hstep
    exact memory_eq_of_touched hexec fun x hx _ heq => hi (heq ▸ hin x hx)

/-- A run whose steps touch cells of `P` only. -/
def Machine.TouchesOnly (m : Machine) (P : ℕ → Prop) (n : ℕ) : Prop :=
  ∀ k < n, ∀ m₁, m.stepN k = .ok m₁ → ∀ x ∈ touched (emulate1 false) m₁, P x.index

omit [DecidablePred P] in
theorem Machine.TouchesOnly.of_succ (h : m.TouchesOnly P (n + 1)) : m.TouchesOnly P n :=
  fun k hk => h k (Nat.lt_succ_of_lt hk)

theorem stepN_graft (h : m.TouchesOnly P n) :
    (m.graft P c).stepN n = (m.stepN n).map (Machine.graft P c) := by
  induction n with
  | zero => rfl
  | succ n ih =>
    rw [Machine.stepN, Machine.stepN, ih h.of_succ]
    cases hrun : m.stepN n with
    | error e => rfl
    | ok m₁ => exact step_graft (h n (Nat.lt_succ_self n) m₁ hrun)

omit [DecidablePred P] in
theorem stepN_memory_of_touchesOnly (h : m.TouchesOnly P n) (hrun : m.stepN n = .ok m') {i : ℕ}
    (hi : ¬ P i) : m'.memory i = m.memory i := by
  induction n generalizing m' with
  | zero =>
    cases hrun
    rfl
  | succ n ih =>
    obtain ⟨m₁, hrun₁, hstep⟩ := stepN_succ_eq_ok hrun
    rw [step_memory_of_touched (h n (Nat.lt_succ_self n) m₁ hrun₁) hstep hi, ih h.of_succ hrun₁]

/-- With the knobs set, low addresses keep a run in the limited data space. -/
theorem touchesOnly_of_unlimited (h64k : m.pcMemMax64k = true)
    (hlow : ∀ k < n, ∀ m₁, m.stepN k = .ok m₁ → ∀ a ∈ m₁.unlimited, a < m.dataLimit) :
    m.TouchesOnly (· < m.dataLimit) n := by
  intro k hk m₁ hrun
  have hsetup := setup_of_stepN hrun
  have hlimit : m₁.dataLimit = m.dataLimit := by
    simp only [Core.dataLimit, hsetup.pcMemMax256b_eq]
  have h64k₁ : m₁.pcMemMax64k = true := hsetup.pcMemMax64k_eq.trans h64k
  rw [← hlimit, forall_touched_emulate1]
  intro _ d hd
  refine (confined_code_iff hd h64k₁).mpr ?_
  rw [hlimit]
  exact hlow k hk m₁ hrun

/-- With the knobs set and the addresses that no knob limits below the limit, the cells beyond the
limit are no part of the machine: two machines that differ in nothing else run alike, to the same
end or the same abort, and keep what they have there. -/
theorem limited_space (h64k : m.pcMemMax64k = true)
    (hlow : ∀ k < n, ∀ m₁, m.stepN k = .ok m₁ → ∀ a ∈ m₁.unlimited, a < m.dataLimit)
    (hcore : m'.toCore = m.toCore) (hagree : ∀ i < m.dataLimit, m'.memory i = m.memory i) :
    (∀ e, m.stepN n = .error e → m'.stepN n = .error e) ∧
    ∀ m₁, m.stepN n = .ok m₁ → (∀ i ≥ m.dataLimit, m₁.memory i = m.memory i) ∧
      ∃ m₁', m'.stepN n = .ok m₁' ∧ m₁'.toCore = m₁.toCore ∧
        (∀ i < m.dataLimit, m₁'.memory i = m₁.memory i) ∧
        ∀ i ≥ m.dataLimit, m₁'.memory i = m'.memory i := by
  have htouches := touchesOnly_of_unlimited h64k hlow
  have hrun := stepN_graft (c := m'.memory) htouches
  rw [graft_eq_of_agree hcore hagree] at hrun
  refine ⟨fun e he => ?_, fun m₁ hm₁ => ⟨fun i hi => ?_, ?_⟩⟩
  · rw [hrun, he]
    rfl
  · exact stepN_memory_of_touchesOnly htouches hm₁ (Nat.not_lt.mpr hi)
  · rw [hm₁] at hrun
    refine ⟨_, hrun, rfl, fun i hi => ?_, fun i hi => ?_⟩
    · exact CellProgram.graft_of_pos (P := (· < m.dataLimit)) hi
    · exact CellProgram.graft_of_neg (P := (· < m.dataLimit)) (Nat.not_lt.mpr hi)

end Runs

section Small

attribute [local instance] idleDes

/-- The 256-byte data space with a byte behind the end of it. -/
def stainedMachine : Machine :=
  { smallMachine 0x9200 0x0100 with memory := fun i => if i = 0x100 then 7 else 0 }

/-- `STS 0x0100, r0` stores in cell 0. -/
theorem limited_space_sts : ∃ m', stainedMachine.stepN 1 = .ok m' ∧ m'.memory 0x100 = 7 := by
  obtain ⟨m₁, hm₁⟩ : ∃ m₁, (smallMachine 0x9200 0x0100).stepN 1 = .ok m₁ := ⟨_, rfl⟩
  have hlow : ∀ k < 1, ∀ m₁, (smallMachine 0x9200 0x0100).stepN k = .ok m₁ →
      ∀ a ∈ m₁.unlimited, a < (smallMachine 0x9200 0x0100).dataLimit := by
    intro k hk m₁ hrun
    obtain rfl := Nat.lt_one_iff.mp hk
    cases hrun
    decide
  have hagree : ∀ i < (smallMachine 0x9200 0x0100).dataLimit, stainedMachine.memory i = 0 :=
    fun i hi => if_neg (Nat.ne_of_lt hi)
  have hcore : stainedMachine.toCore = (smallMachine 0x9200 0x0100).toCore := rfl
  obtain ⟨-, m₁', hrun, -, -, hmem⟩ := (limited_space rfl hlow hcore hagree).2 m₁ hm₁
  exact ⟨m₁', hrun, hmem 0x100 (Nat.le_refl _)⟩

end Small

end AvrEmu
