import AvrEmu.ReadBack

/-!
# Walks over the data space

An access with post-increment leaves the pointer at the next cell, and one with
pre-decrement goes back by one first. Both wrap at the end of the data space, whatever its
size is, so a walk up and the same walk down visit the same cells.
-/

namespace AvrEmu

variable {m m' : Machine} {rp extaddr a : ℕ} {p : Pointer} {dec store : Bool}

theorem offset_lt : m.offset rp extaddr < m.span := by
  unfold Machine.offset Core.cell Core.span
  split <;> (try split) <;> omega

theorem span_pos (s : Core) : 0 < s.span := by
  unfold Core.span
  split <;> (try split) <;> omega

theorem span_congr (h : SameSetup m.toCore m'.toCore) : m'.span = m.span := by
  simp only [Core.span, h.pcMemMax64k_eq, h.pcMemMax256b_eq]

theorem offset_congr {n : Machine} (hmem : m'.memory = n.memory)
    (h64k : m'.pcMemMax64k = n.pcMemMax64k) (h256b : m'.pcMemMax256b = n.pcMemMax256b) :
    m'.offset rp extaddr = n.offset rp extaddr := by
  simp only [Machine.offset, Core.cell, Machine.word, hmem, h64k, h256b]

/-- A displaced address counts from the cell that the pointer points to. -/
theorem cell_add (k : ℕ) : m.cell (m.memory extaddr) ((m.word rp).toNat + k) =
    (m.offset rp extaddr + k) % m.span := by
  unfold Machine.offset Core.cell Core.span
  split <;> (try split) <;> omega

/-- The pointer at `rp` as the configuration sees it. -/
theorem offset_setPointer (hconf : m.Configured) (hlo : extaddr ≠ rp) (hhi : extaddr ≠ rp + 1) :
    (m.setPointer rp extaddr a).offset rp extaddr = a % m.span := by
  unfold Machine.offset Core.cell Core.span
  rw [setPointer_toCore]
  cases h64k : m.pcMemMax64k with
  | false =>
    have h256b : m.pcMemMax256b = false := by
      by_contra h
      simp [hconf (by simpa using h)] at h64k
    have hword : (m.setPointer rp extaddr a).word rp = BitVec.ofNat 16 a := by
      simp only [Machine.setPointer, h256b, h64k, Bool.false_eq_true, if_false, Machine.word,
        setMem_memory, Function.update_of_ne hlo.symm, Function.update_of_ne hhi.symm]
      exact setWord_word rp _
    have hramp : (m.setPointer rp extaddr a).memory extaddr = BitVec.ofNat 8 (a / 2 ^ 16) := by
      simp only [Machine.setPointer, h256b, h64k, Bool.false_eq_true, if_false, setMem_memory,
        Function.update_self]
    simp only [hword, hramp, BitVec.toNat_ofNat, Bool.false_eq_true, if_false]
    omega
  | true =>
    cases h256b : m.pcMemMax256b with
    | false =>
      have hword : (m.setPointer rp extaddr a).word rp = BitVec.ofNat 16 a := by
        simp only [Machine.setPointer, h256b, h64k, Bool.false_eq_true, if_false, if_true,
          setWord_word]
      simp only [hword, BitVec.toNat_ofNat, Bool.false_eq_true, if_false, if_true]
      omega
    | true =>
      have hlow : (m.setPointer rp extaddr a).memory rp = BitVec.ofNat 8 a := by
        simp only [Machine.setPointer, h256b, if_true, setMem_memory, Function.update_self]
      simp only [if_true, word_toNat, hlow, BitVec.toNat_ofNat]
      omega

/-- What an update leaves of the pointer: the high byte in the 256-byte data space, RAMP in
either of the small ones. -/
structure KeepsUnused (m m' : Machine) (rp extaddr : ℕ) : Prop where
  ramp_eq : m.pcMemMax64k = true → m'.memory extaddr = m.memory extaddr
  high_eq : m.pcMemMax256b = true → m'.memory (rp + 1) = m.memory (rp + 1)

theorem keepsUnused_setPointer (hlo : extaddr ≠ rp) (hhi : extaddr ≠ rp + 1) :
    KeepsUnused m (m.setPointer rp extaddr a) rp extaddr where
  ramp_eq h64k := by
    unfold Machine.setPointer
    split
    · rw [setMem_memory, Function.update_of_ne hlo]
    · rw [Machine.setWord, setMem_memory, Function.update_of_ne hhi, setMem_memory,
        Function.update_of_ne hlo]
  high_eq h256b := by
    rw [Machine.setPointer, if_pos h256b, setMem_memory, Function.update_of_ne (by omega)]

/-- The bytes of a pointer are determined by the cell it points to and the unused ones. -/
theorem KeepsUnused.memory_eq (h : KeepsUnused m m' rp extaddr)
    (hsetup : SameSetup m.toCore m'.toCore)
    (hoffset : m'.offset rp extaddr = m.offset rp extaddr) :
    ∀ j ∈ pointerCells rp extaddr, m'.memory j = m.memory j := by
  have hbytes : m'.memory rp = m.memory rp ∧ m'.memory (rp + 1) = m.memory (rp + 1) ∧
      m'.memory extaddr = m.memory extaddr := by
    have hlo := (m.memory rp).isLt
    have hlo' := (m'.memory rp).isLt
    have hhi := (m.memory (rp + 1)).isLt
    have hhi' := (m'.memory (rp + 1)).isLt
    have hramp := (m.memory extaddr).isLt
    have hramp' := (m'.memory extaddr).isLt
    unfold Machine.offset Core.cell at hoffset
    rw [hsetup.pcMemMax64k_eq, hsetup.pcMemMax256b_eq, word_toNat, word_toNat] at hoffset
    simp only [← BitVec.toNat_inj]
    cases h64k : m.pcMemMax64k with
    | false =>
      simp only [h64k, Bool.false_eq_true, if_false] at hoffset
      omega
    | true =>
      have hext := congrArg BitVec.toNat (h.ramp_eq h64k)
      cases h256b : m.pcMemMax256b with
      | false =>
        simp only [h64k, h256b, Bool.false_eq_true, if_false, if_true] at hoffset
        omega
      | true =>
        have hhigh := congrArg BitVec.toNat (h.high_eq h256b)
        simp only [h64k, h256b, if_true] at hoffset
        omega
  intro j hj
  simp only [pointerCells, List.mem_cons, List.not_mem_nil, or_false] at hj
  obtain ⟨hlo, hhi, hramp⟩ := hbytes
  rcases hj with rfl | rfl | rfl
  · exact hlo
  · exact hhi
  · exact hramp

section Steps

variable [DesLibrary] {n i : ℕ}

/-- The row that an access with pointer update is decoded by. -/
theorem lookup_updateOp {w : Word} (h : IsOp (p.updateOp dec store) w) :
    ∃ d, lookupInstr w = some d ∧ d.code = p.code store ∧
      (∀ idc, (d.operands idc).ddddd.toNat = (fieldD idc.instr).toNat) ∧ d.imm16 = false := by
  have hreg {d : InstrDecode} (h : d.ddddd84 = true) (h₁ : d.dddd74 = false)
      (h₂ : d.ddd64 = false) (idc : InstrDecodeCommon) :
      (d.operands idc).ddddd.toNat = (fieldD idc.instr).toNat :=
    operands_ddddd84_toNat idc h h₁ h₂
  cases dec with
  | false =>
    cases p <;> cases store
    · exact ⟨_, lookup_ldx (h.coarsen rfl rfl), rfl, hreg rfl rfl rfl, rfl⟩
    · exact ⟨_, lookup_stx (h.coarsen rfl rfl), rfl, hreg rfl rfl rfl, rfl⟩
    · exact ⟨_, lookup_ldyzInc (h.coarsen rfl rfl), rfl, hreg rfl rfl rfl, rfl⟩
    · exact ⟨_, lookup_styzInc (h.coarsen rfl rfl), rfl, hreg rfl rfl rfl, rfl⟩
    · exact ⟨_, lookup_ldyzInc (h.coarsen rfl rfl), rfl, hreg rfl rfl rfl, rfl⟩
    · exact ⟨_, lookup_styzInc (h.coarsen rfl rfl), rfl, hreg rfl rfl rfl, rfl⟩
  | true =>
    cases p <;> cases store
    · exact ⟨_, lookup_ldxDec h, rfl, hreg rfl rfl rfl, rfl⟩
    · exact ⟨_, lookup_stxDec h, rfl, hreg rfl rfl rfl, rfl⟩
    · exact ⟨_, lookup_ldyzDec (h.coarsen rfl rfl), rfl, hreg rfl rfl rfl, rfl⟩
    · exact ⟨_, lookup_styzDec (h.coarsen rfl rfl), rfl, hreg rfl rfl rfl, rfl⟩
    · exact ⟨_, lookup_ldyzDec (h.coarsen rfl rfl), rfl, hreg rfl rfl rfl, rfl⟩
    · exact ⟨_, lookup_styzDec (h.coarsen rfl rfl), rfl, hreg rfl rfl rfl, rfl⟩

/-- The cell that the pointer leads to. -/
def Machine.pointed (m : Machine) (p : Pointer) : ℕ := m.offset p.register p.ramp

/-- A step moves a byte between the register of its instruction and the cell `c`; besides, it
changes at most the bytes of the pointer. -/
structure Machine.Accesses (m : Machine) (p : Pointer) (store : Bool) (c : ℕ) : Prop where
  step_eq : m.step = .ok m.next
  memory_eq : ∀ j ∉ pointerCells p.register p.ramp,
    m.next.memory j = (m.moved store (fieldD m.instrWord).toNat c).memory j

/-- The pointer of the second machine leads to cell `a`; the bytes that the configuration does
not use are as in the first. -/
structure Machine.LeavesPointer (m m' : Machine) (p : Pointer) (a : ℕ) : Prop where
  pointed_eq : m'.pointed p = a
  keepsUnused : KeepsUnused m m' p.register p.ramp

omit [DesLibrary] in
/-- A register or a cell apart from the pointer is moved without touching the pointer. -/
theorem moved_memory_of_pointer {reg c j : ℕ} (hj : j ∈ pointerCells p.register p.ramp)
    (hreg : reg < 32) (happart : reg ∉ [p.register, p.register + 1])
    (hclear : store = true → c ∉ pointerCells p.register p.ramp) :
    (m.moved store reg c).memory j = m.memory j := by
  cases store with
  | true =>
    have hne : j ≠ c := fun heq => hclear rfl (heq ▸ hj)
    exact Function.update_of_ne hne _ _
  | false =>
    have hramp : 32 ≤ p.ramp := by cases p <;> decide
    have hne : j ≠ reg := by
      rintro rfl
      simp only [pointerCells, List.mem_cons, List.not_mem_nil, or_false] at hj happart
      omega
    exact Function.update_of_ne hne _ _

omit [DesLibrary] in
theorem pointer_apart (p : Pointer) : p.ramp ≠ p.register ∧ p.ramp ≠ p.register + 1 := by
  cases p <;> decide

/-- The course of one access with update, which a store must not make to the pointer itself. -/
theorem next_update (h : m.Ready (p.updateOp dec store)) (hconf : m.Configured)
    (happart : (fieldD m.instrWord).toNat ∉ [p.register, p.register + 1])
    (hclear : store = true → m.updateCell dec p.register p.ramp ∉ pointerCells p.register p.ramp) :
    m.Accesses p store (m.updateCell dec p.register p.ramp) ∧
    m.LeavesPointer m.next p
      ((m.updateCell dec p.register p.ramp + if dec then 0 else 1) % m.span) ∧
    SameSetup m.toCore m.next.toCore := by
  obtain ⟨d, hlookup, hcode, hreg, himm⟩ := lookup_updateOp h.isOp
  have hfield : (d.operands (m.decoded d)).ddddd.toNat = (fieldD m.instrWord).toNat := hreg _
  have hne : (fieldD m.instrWord).toNat ≠ p.register ∧
      (fieldD m.instrWord).toNat ≠ p.register + 1 := by simpa using happart
  obtain ⟨hlo, hhi⟩ := pointer_apart p
  have heven : p.register % 2 = 0 := by cases p <;> rfl
  have hrp : p.register < 0x100 := by cases p <;> decide
  have hext : p.ramp < 0x100 := by cases p <;> decide
  have hconf' : (m.fetched d).Configured := hconf
  have hexec := exec_instrLdstCommon_update heven hrp hext hconf' store dec
    (hfield ▸ hne.1) (hfield ▸ hne.2)
  rw [← Route.exec_code_update p h.isOp, ← hcode, hfield,
    show (m.fetched d).updateCell dec p.register p.ramp = m.updateCell dec p.register p.ramp
      from rfl] at hexec
  generalize m.updateCell dec p.register p.ramp = c at hexec hclear ⊢
  have hmoved : ((m.fetched d).moved store (fieldD m.instrWord).toNat c).memory =
      (m.moved store (fieldD m.instrWord).toNat c).memory := by
    cases store <;> rfl
  have hcore : ((m.fetched d).moved store (fieldD m.instrWord).toNat c).toCore =
      (m.fetched d).toCore := moved_toCore _ _ _
  have hkept {j : ℕ} (hj : j ∈ pointerCells p.register p.ramp) :
      ((m.fetched d).moved store (fieldD m.instrWord).toNat c).memory j = m.memory j := by
    rw [hmoved]
    exact moved_memory_of_pointer hj (fieldD m.instrWord).isLt happart hclear
  generalize (m.fetched d).moved store (fieldD m.instrWord).toNat c = m₁ at hexec hmoved hcore hkept
  obtain ⟨hstep, hmem, -, hsetup, -⟩ := step_of_exec h hlookup himm hexec
    ((setPointer_toCore _ _ _).trans hcore)
  refine ⟨⟨hstep, fun j hj => ?_⟩, ⟨?_, ?_, ?_⟩, hsetup⟩
  · rw [hmem, agreeOutside_setPointer.2 j hj, hmoved]
  · have h64k : m.next.pcMemMax64k = m₁.pcMemMax64k := by rw [hsetup.pcMemMax64k_eq, hcore]; rfl
    have h256b : m.next.pcMemMax256b = m₁.pcMemMax256b := by rw [hsetup.pcMemMax256b_eq, hcore]; rfl
    have hoffset := offset_setPointer (a := if dec then c else c + 1)
      (show m₁.Configured by rw [hcore]; exact hconf) hlo hhi
    rw [Machine.pointed, offset_congr hmem (by rw [setPointer_toCore, h64k])
      (by rw [setPointer_toCore, h256b]), hoffset, hcore]
    cases dec <;> rfl
  · intro h64k
    rw [hmem, (keepsUnused_setPointer hlo hhi).ramp_eq (by rw [hcore]; exact h64k)]
    exact hkept (by simp [pointerCells])
  · intro h256b
    rw [hmem, (keepsUnused_setPointer hlo hhi).high_eq (by rw [hcore]; exact h256b)]
    exact hkept (by simp [pointerCells])

/-- Without an update, the displacement counts from the cell that the pointer leads to. -/
theorem next_displaced (h : m.Ready ((Route.indirect p).op store)) (hconf : m.Configured)
    (hp : p ≠ .x) :
    m.step = .ok m.next ∧ m.next.memory = (m.moved store (fieldD m.instrWord).toNat
      ((m.pointed p + (fieldQ m.instrWord).toNat) % m.span)).memory := by
  obtain ⟨d, hlookup, hcode, hreg, himm⟩ := Route.lookup_op _ h.isOp
  have hfield : (d.operands (m.decoded d)).ddddd.toNat = (fieldD m.instrWord).toNat := hreg _
  have heven : p.register % 2 = 0 := by cases p <;> rfl
  have hrp : p.register < 0x100 := by cases p <;> decide
  have hext : p.ramp < 0x100 := by cases p <;> decide
  have hconf' : (m.fetched d).Configured := hconf
  have hdisplacement : ((Route.indirect p).displacement m.instrWord).toNat =
      (fieldQ m.instrWord).toNat := by
    cases p with
    | x => exact absurd rfl hp
    | y => exact BitVec.toNat_setWidth_of_le (by decide)
    | z => exact BitVec.toNat_setWidth_of_le (by decide)
  have hop : IsOp ((Route.indirect p).op store) (d.operands (m.decoded d)).instr := h.isOp
  have hexec := Route.exec_code_indirect (m := m.fetched d) p hop
  rw [← hcode, operands_instr, decoded_instr,
    exec_instrLdstCommon_plain heven hrp hext hconf', hfield, hdisplacement, cell_add] at hexec
  obtain ⟨hstep, hmem, -, -, -⟩ := step_of_exec h hlookup himm hexec (moved_toCore _ _ _)
  refine ⟨hstep, ?_⟩
  rw [hmem]
  cases store <;> rfl

/-! ## Accesses in a row -/

/-- `n` accesses with update in a row, none of them between memory and the pointer's registers. -/
structure Machine.Walk (m : Machine) (p : Pointer) (dec store : Bool) (n : ℕ) : Prop where
  ready : ∀ i < n, (Machine.next^[i] m).Ready (p.updateOp dec store)
  apart : ∀ i < n, (fieldD (Machine.next^[i] m).instrWord).toNat ∉ [p.register, p.register + 1]

omit [DesLibrary] in
theorem Machine.LeavesPointer.refl : m.LeavesPointer m p (m.pointed p) :=
  ⟨rfl, fun _ => rfl, fun _ => rfl⟩

omit [DesLibrary] in
theorem Machine.LeavesPointer.trans {m'' : Machine} {a b : ℕ} (h : m.LeavesPointer m' p a)
    (hsetup : SameSetup m.toCore m'.toCore) (h' : m'.LeavesPointer m'' p b) :
    m.LeavesPointer m'' p b where
  pointed_eq := h'.pointed_eq
  keepsUnused :=
    ⟨fun h64k => (h'.keepsUnused.ramp_eq (hsetup.pcMemMax64k_eq.trans h64k)).trans
        (h.keepsUnused.ramp_eq h64k),
      fun h256b => (h'.keepsUnused.high_eq (hsetup.pcMemMax256b_eq.trans h256b)).trans
        (h.keepsUnused.high_eq h256b)⟩

omit [DesLibrary] in
/-- The cell of an access with update, by how far the pointer is from `a`. -/
theorem updateCell_eq {k : ℕ} (h : m.pointed p = (a + k + if dec then 1 else 0) % m.span) :
    m.updateCell dec p.register p.ramp = (a + k) % m.span := by
  have hpos := span_pos m.toCore
  unfold Machine.pointed at h
  cases dec with
  | false => simpa only [Machine.updateCell, Bool.false_eq_true, if_false, Nat.add_zero] using h
  | true =>
    simp only [if_true] at h
    rw [Machine.updateCell, if_pos rfl, h, Nat.mod_add_mod,
      show a + k + 1 + (m.span - 1) = a + k + m.span by omega, Nat.add_mod_right]

/-- One access of a walk around `a`: it visits a cell and leaves the pointer on the other side. -/
theorem Machine.Walk.visit (h : m.Walk p dec store n) (hi : i < n) {k : ℕ}
    (hconf : m.Configured) (hsetup : SameSetup m.toCore (Machine.next^[i] m).toCore)
    (hpointed : (Machine.next^[i] m).pointed p = (a + k + if dec then 1 else 0) % m.span)
    (hclear : store = true → (a + k) % m.span ∉ pointerCells p.register p.ramp) :
    (Machine.next^[i] m).Accesses p store ((a + k) % m.span) ∧
    (Machine.next^[i] m).LeavesPointer (Machine.next^[i + 1] m) p
      ((a + k + if dec then 0 else 1) % m.span) ∧
    SameSetup m.toCore (Machine.next^[i + 1] m).toCore := by
  have hconf' : (Machine.next^[i] m).Configured := by
    unfold Core.Configured
    rw [hsetup.pcMemMax64k_eq, hsetup.pcMemMax256b_eq]
    exact hconf
  rw [← span_congr hsetup] at hpointed hclear ⊢
  have hcell := updateCell_eq hpointed
  obtain ⟨haccess, hleaves, hsetup'⟩ := next_update (h.ready i hi) hconf' (h.apart i hi)
    (by rw [hcell]; exact hclear)
  rw [Function.iterate_succ_apply']
  rw [hcell] at haccess hleaves
  rw [Nat.mod_add_mod] at hleaves
  exact ⟨haccess, hleaves, hsetup.trans hsetup'⟩

/-- Where the pointer is on a walk up. -/
theorem Machine.Walk.pointer_up (h : m.Walk p false store n) (hconf : m.Configured)
    (hclear : store = true → ∀ k < n,
      (m.pointed p + k) % m.span ∉ pointerCells p.register p.ramp) (hi : i ≤ n) :
    m.LeavesPointer (Machine.next^[i] m) p ((m.pointed p + i) % m.span) ∧
    SameSetup m.toCore (Machine.next^[i] m).toCore := by
  induction i with
  | zero =>
    have hhome : (m.pointed p + 0) % m.span = m.pointed p := Nat.mod_eq_of_lt offset_lt
    rw [hhome]
    exact ⟨Machine.LeavesPointer.refl, SameSetup.refl _⟩
  | succ i ih =>
    obtain ⟨hleaves, hsetup⟩ := ih (by omega)
    obtain ⟨-, hleaves', hsetup'⟩ := h.visit hi hconf hsetup hleaves.pointed_eq
      (fun hstore => hclear hstore i hi)
    exact ⟨hleaves.trans hsetup hleaves', hsetup'⟩

/-- Where it is on a walk down that begins `n` cells after `a`. -/
theorem Machine.Walk.pointer_down (h : m.Walk p true store n) (hconf : m.Configured)
    (hstart : m.pointed p = (a + n) % m.span)
    (hclear : store = true → ∀ k < n, (a + k) % m.span ∉ pointerCells p.register p.ramp)
    (hi : i ≤ n) :
    m.LeavesPointer (Machine.next^[i] m) p ((a + (n - i)) % m.span) ∧
    SameSetup m.toCore (Machine.next^[i] m).toCore := by
  induction i with
  | zero =>
    rw [Nat.sub_zero, ← hstart]
    exact ⟨Machine.LeavesPointer.refl, SameSetup.refl _⟩
  | succ i ih =>
    obtain ⟨hleaves, hsetup⟩ := ih (by omega)
    have hpointed := hleaves.pointed_eq
    rw [show a + (n - i) = a + (n - (i + 1)) + 1 by omega] at hpointed
    obtain ⟨-, hleaves', hsetup'⟩ := h.visit hi hconf hsetup hpointed
      (fun hstore => hclear hstore _ (by omega))
    exact ⟨hleaves.trans hsetup hleaves', hsetup'⟩

/-- Accesses with post-increment in a row visit one cell after the other, around the end of the data
space, and leave the pointer behind them. As many with pre-decrement visit the same cells in
reverse and restore the bytes of the pointer. An access of Y or Z with displacement `q` goes to
the cell of access number `q` of the walk. -/
theorem pointer_walks :
    (∀ (m : Machine) (p : Pointer) (store : Bool) (n : ℕ), m.Configured → m.Walk p false store n →
      (store = true → ∀ i < n, (m.pointed p + i) % m.span ∉ pointerCells p.register p.ramp) →
      (∀ i < n, (Machine.next^[i] m).Accesses p store ((m.pointed p + i) % m.span)) ∧
      m.LeavesPointer (Machine.next^[n] m) p ((m.pointed p + n) % m.span) ∧
      ((Machine.next^[n] m).Walk p true store n →
        (∀ i < n, (Machine.next^[i] (Machine.next^[n] m)).Accesses p store
          ((m.pointed p + (n - 1 - i)) % m.span)) ∧
        ∀ j ∈ pointerCells p.register p.ramp,
          (Machine.next^[n] (Machine.next^[n] m)).memory j = m.memory j)) ∧
    ∀ (m : Machine) (p : Pointer) (store : Bool), m.Configured → p ≠ .x →
      m.Ready ((Route.indirect p).op store) →
      m.step = .ok m.next ∧ m.next.memory = (m.moved store (fieldD m.instrWord).toNat
        ((m.pointed p + (fieldQ m.instrWord).toNat) % m.span)).memory := by
  refine ⟨fun m p store n hconf h hclear => ⟨fun i hi => ?_, ?_, fun hdown => ?_⟩,
    fun m p store hconf hp h => next_displaced h hconf hp⟩
  · obtain ⟨hleaves, hsetup⟩ := h.pointer_up hconf hclear hi.le
    exact (h.visit hi hconf hsetup hleaves.pointed_eq (fun hstore => hclear hstore i hi)).1
  · exact (h.pointer_up hconf hclear le_rfl).1
  · obtain ⟨hleaves, hsetup⟩ := h.pointer_up hconf hclear le_rfl
    have hspan := span_congr hsetup
    have hconf' : (Machine.next^[n] m).Configured := by
      unfold Core.Configured
      rw [hsetup.pcMemMax64k_eq, hsetup.pcMemMax256b_eq]
      exact hconf
    have hstart := hleaves.pointed_eq
    rw [← hspan] at hstart hclear ⊢
    refine ⟨fun i hi => ?_, ?_⟩
    · obtain ⟨hleaves', hsetup'⟩ := hdown.pointer_down hconf' hstart hclear hi.le
      have hpointed := hleaves'.pointed_eq
      rw [show m.pointed p + (n - i) = m.pointed p + (n - 1 - i) + 1 by omega] at hpointed
      exact (hdown.visit hi hconf' hsetup' hpointed (fun hstore => hclear hstore _ (by omega))).1
    · obtain ⟨hleaves', hsetup'⟩ := hdown.pointer_down hconf' hstart hclear le_rfl
      have hback := hleaves.trans hsetup hleaves'
      refine hback.keepsUnused.memory_eq (hsetup.trans hsetup') ?_
      have hlt : m.pointed p < m.span := offset_lt
      have hhome := hback.pointed_eq
      rwa [hspan, Nat.sub_self, Nat.add_zero, Nat.mod_eq_of_lt hlt] at hhome

end Steps

section Twice

attribute [local instance] idleDes

/-- Y at the end of a data space of 64k, bytes there and in r0, and the image `LD r16, Y+;
LD r17, Y+; LD r18, -Y; LD r19, -Y`. -/
def walkMachine : Machine :=
  { Machine.powerOn fun a =>
      if a = 0 then 0x9109 else if a = 1 then 0x9119 else if a = 2 then 0x912a else 0x913a with
    pcMemMax64k := true
    memory := fun i => if i = 0 then 0x11 else if i = 0xffff then 0x55
      else if i = 28 ∨ i = 29 then 0xff else 0 }

/-- The same with the image `LDD r20, Y+1`. -/
def displacedMachine : Machine := { walkMachine with flash := fun _ => 0x8149 }

/-- Up by two cells, from the last of the data space to the first, and down again; and the second
of the two through a displacement. -/
theorem pointer_walks_twice :
    ((Machine.next^[1] walkMachine).memory 16 = 0x55 ∧
      (Machine.next^[2] walkMachine).memory 17 = 0x11) ∧
    ((Machine.next^[3] walkMachine).memory 18 = 0x11 ∧
      (Machine.next^[4] walkMachine).memory 19 = 0x55 ∧
      (Machine.next^[4] walkMachine).memory 28 = 0xff) ∧
    displacedMachine.next.memory 20 = 0x11 := by
  have hup : walkMachine.Walk .y false false 2 := by
    refine ⟨fun i hi => ?_, fun i hi => ?_⟩ <;> obtain rfl | rfl : i = 0 ∨ i = 1 := by omega
    · exact ⟨rfl, by decide, by decide⟩
    · exact ⟨by decide, by decide, by decide⟩
    · decide
    · decide
  have hdown : (Machine.next^[2] walkMachine).Walk .y true false 2 := by
    refine ⟨fun i hi => ?_, fun i hi => ?_⟩ <;> obtain rfl | rfl : i = 0 ∨ i = 1 := by omega
    · exact ⟨by decide, by decide, by decide⟩
    · exact ⟨by decide, by decide, by decide⟩
    · decide
    · decide
  have hconf : walkMachine.Configured := fun _ => rfl
  obtain ⟨hvisits, -, hback⟩ := pointer_walks.1 walkMachine .y false 2 hconf hup
    (fun h => by simp at h)
  obtain ⟨hrevisits, hrestored⟩ := hback hdown
  have hdisplaced := (pointer_walks.2 displacedMachine .y false hconf (by decide)
    ⟨rfl, by decide, by decide⟩).2
  refine ⟨⟨?_, ?_⟩, ⟨?_, ?_, ?_⟩, ?_⟩
  · exact ((hvisits 0 (by decide)).memory_eq 16 (by decide)).trans (by decide)
  · exact ((hvisits 1 (by decide)).memory_eq 17 (by decide)).trans (by decide)
  · exact ((hrevisits 0 (by decide)).memory_eq 18 (by decide)).trans (by decide)
  · exact ((hrevisits 1 (by decide)).memory_eq 19 (by decide)).trans (by decide)
  · exact (hrestored 28 (by decide)).trans rfl
  · exact (congrFun hdisplaced 20).trans (by decide)

end Twice

end AvrEmu
