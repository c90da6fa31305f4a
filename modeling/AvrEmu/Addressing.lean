import AvrEmu.ControlFlow

/-!
# Direct and indirect addressing

A byte of the data space is reached by an operand of the instruction, through a pointer, or
through a pointer and a displacement. For each way, the cell that the code goes to, in the
configurations that the knobs select.
-/

namespace AvrEmu

variable {m m₁ m₂ m₃ : Machine} {d : InstrDecode} {idc : InstrDecodeCommon}

/-- The cell at an address of the data space: 24 bits, of which RAMP gives the upper eight,
or with the knobs set 16 bits or eight. -/
def Core.cell (s : Core) (ramp : Byte) (a : ℕ) : ℕ :=
  if s.pcMemMax64k then if s.pcMemMax256b then a % 2 ^ 8 else a % 2 ^ 16
  else (ramp.toNat * 2 ^ 16 + a) % 2 ^ 24

/-- The size of the data space in the configuration. -/
def Core.span (s : Core) : ℕ :=
  if s.pcMemMax64k then if s.pcMemMax256b then 2 ^ 8 else 2 ^ 16 else 2 ^ 24

/-- The three configurations: the 256-byte knob is only set together with the other one. -/
def Core.Configured (s : Core) : Prop := s.pcMemMax256b = true → s.pcMemMax64k = true

theorem cell_lt (s : Core) (ramp : Byte) (a : ℕ) : s.cell ramp a < memorySize := by
  unfold Core.cell memorySize
  split
  · split <;> omega
  · omega

/-- The address of the common path, without increment or decrement. -/
theorem plain_addr_eq {s : Core} (hconf : s.Configured) (ramp displace : Byte) (p : Word) :
    (let addr := if !s.pcMemMax64k then p.setWidth 32 ||| ramp.setWidth 32 <<< 16 else p.setWidth 32
      let addr := addr + displace.setWidth 32 &&& 0xffffff
      if s.pcMemMax256b then addr &&& 0xff
      else if s.pcMemMax64k then addr &&& 0xffff
      else addr).toNat = s.cell ramp (p.toNat + displace.toNat) := by
  have hp := p.isLt
  have hramp := ramp.isLt
  have hd := displace.isLt
  have h8 (x : BitVec 32) : (x &&& 0xff).toNat = x.toNat % 2 ^ 8 :=
    Bits.toNat_and_low (show 8 ≤ 32 by decide) x
  have h16 (x : BitVec 32) : (x &&& 0xffff).toNat = x.toNat % 2 ^ 16 :=
    Bits.toNat_and_low (show 16 ≤ 32 by decide) x
  have h24 (x : BitVec 32) : (x &&& 0xffffff).toNat = x.toNat % 2 ^ 24 :=
    Bits.toNat_and_low (show 24 ≤ 32 by decide) x
  have hext := Bits.toNat_or_shiftLeft (show 16 + 8 ≤ 32 by decide) p ramp
  unfold Core.cell
  cases h64k : s.pcMemMax64k with
  | false =>
    have h256b : s.pcMemMax256b = false := by
      by_contra h
      simp [hconf (by simpa using h)] at h64k
    simp only [h256b, Bool.not_false, Bool.false_eq_true, if_true, if_false]
    rw [h24, BitVec.toNat_add, hext, BitVec.toNat_setWidth_of_le (by decide)]
    omega
  | true =>
    cases h256b : s.pcMemMax256b with
    | false =>
      simp only [Bool.not_true, Bool.false_eq_true, if_false, if_true]
      rw [h16, h24, BitVec.toNat_add, BitVec.toNat_setWidth_of_le (by decide),
        BitVec.toNat_setWidth_of_le (by decide)]
      omega
    | true =>
      simp only [Bool.not_true, Bool.false_eq_true, if_false, if_true]
      rw [h8, h24, BitVec.toNat_add, BitVec.toNat_setWidth_of_le (by decide),
        BitVec.toNat_setWidth_of_le (by decide)]
      omega

/-- The address of the common path with post-increment. -/
theorem postinc_addr_eq {s : Core} (hconf : s.Configured) (ramp : Byte) (p : Word) :
    (let addr := if !s.pcMemMax64k then p.setWidth 32 ||| ramp.setWidth 32 <<< 16 else p.setWidth 32
      if s.pcMemMax256b then addr &&& 0xff
      else if s.pcMemMax64k then addr &&& 0xffff
      else addr).toNat = s.cell ramp p.toNat := by
  have hplain := plain_addr_eq hconf ramp 0 p
  have hmask (x : BitVec 32) (hx : x.toNat < 2 ^ 24) :
      x + (0 : Byte).setWidth 32 &&& 0xffffff = x := by
    apply BitVec.eq_of_toNat_eq
    have hlow : (x &&& 0xffffff).toNat = x.toNat % 2 ^ 24 :=
      Bits.toNat_and_low (show 24 ≤ 32 by decide) x
    have hzero : x + (0 : Byte).setWidth 32 = x := BitVec.add_zero x
    rw [hzero, hlow, Nat.mod_eq_of_lt hx]
  have hp : (p.setWidth 32).toNat < 2 ^ 24 := by
    rw [BitVec.toNat_setWidth_of_le (by decide)]
    omega
  have hext : (p.setWidth 32 ||| ramp.setWidth 32 <<< 16).toNat < 2 ^ 24 := by
    rw [Bits.toNat_or_shiftLeft (show 16 + 8 ≤ 32 by decide)]
    omega
  rw [← show s.cell ramp (p.toNat + (0 : Byte).toNat) = s.cell ramp p.toNat from rfl, ← hplain]
  cases s.pcMemMax64k with
  | false => simp only [Bool.not_false, if_true, hmask _ hext]
  | true => simp only [Bool.not_true, Bool.false_eq_true, if_false, hmask _ hp]

/-- The address of the common path with pre-decrement. -/
theorem predec_addr_eq {s : Core} (hconf : s.Configured) (ramp : Byte) (p : Word) :
    (let addr := if !s.pcMemMax64k then p.setWidth 32 ||| ramp.setWidth 32 <<< 16 else p.setWidth 32
      let addr := addr - 1 &&& 0xffffff
      if s.pcMemMax256b then addr &&& 0xff
      else if s.pcMemMax64k then addr &&& 0xffff
      else addr).toNat = (s.cell ramp p.toNat + (s.span - 1)) % s.span := by
  have hp := p.isLt
  have hramp := ramp.isLt
  have h8 (x : BitVec 32) : (x &&& 0xff).toNat = x.toNat % 2 ^ 8 :=
    Bits.toNat_and_low (show 8 ≤ 32 by decide) x
  have h16 (x : BitVec 32) : (x &&& 0xffff).toNat = x.toNat % 2 ^ 16 :=
    Bits.toNat_and_low (show 16 ≤ 32 by decide) x
  have h24 (x : BitVec 32) : (x &&& 0xffffff).toNat = x.toNat % 2 ^ 24 :=
    Bits.toNat_and_low (show 24 ≤ 32 by decide) x
  have hsub (x : BitVec 32) : (x - 1).toNat = (x.toNat + (2 ^ 32 - 1)) % 2 ^ 32 := by
    rw [BitVec.toNat_sub, Nat.add_comm]
    rfl
  have hext := Bits.toNat_or_shiftLeft (show 16 + 8 ≤ 32 by decide) p ramp
  unfold Core.cell Core.span
  cases h64k : s.pcMemMax64k with
  | false =>
    have h256b : s.pcMemMax256b = false := by
      by_contra h
      simp [hconf (by simpa using h)] at h64k
    simp only [h256b, Bool.not_false, Bool.false_eq_true, if_true, if_false]
    rw [h24, hsub, hext]
    omega
  | true =>
    cases h256b : s.pcMemMax256b with
    | false =>
      simp only [Bool.not_true, Bool.false_eq_true, if_false, if_true]
      rw [h16, h24, hsub, BitVec.toNat_setWidth_of_le (by decide)]
      omega
    | true =>
      simp only [Bool.not_true, Bool.false_eq_true, if_false, if_true]
      rw [h8, h24, hsub, BitVec.toNat_setWidth_of_le (by decide)]
      omega

/-- The address of LDS, and of STS before it looks at the 256-byte knob. -/
theorem lds_addr_eq {s : Core} (hconf : s.Configured) (ramp : Byte) (k : Word) :
    (if !s.pcMemMax64k then k.setWidth 32 ||| ramp.setWidth 32 <<< 16 else k.setWidth 32).toNat =
      if s.pcMemMax256b then k.toNat else s.cell ramp k.toNat := by
  have hk := k.isLt
  have hext := Bits.toNat_or_shiftLeft (show 16 + 8 ≤ 32 by decide) k ramp
  unfold Core.cell
  cases h64k : s.pcMemMax64k with
  | false =>
    have h256b : s.pcMemMax256b = false := by
      by_contra h
      simp [hconf (by simpa using h)] at h64k
    simp only [h256b, Bool.not_false, Bool.false_eq_true, if_true, if_false]
    rw [hext]
    omega
  | true =>
    simp only [Bool.not_true, Bool.false_eq_true, if_true, if_false,
      BitVec.toNat_setWidth_of_le (show 16 ≤ 32 by decide)]
    split <;> omega

theorem sts_addr_eq {s : Core} (hconf : s.Configured) (ramp : Byte) (k : Word) :
    (let addr := if !s.pcMemMax64k then k.setWidth 32 ||| ramp.setWidth 32 <<< 16 else k.setWidth 32
      if s.pcMemMax64k && s.pcMemMax256b then addr &&& 0xff else addr).toNat =
      s.cell ramp k.toNat := by
  have hlds := lds_addr_eq hconf ramp k
  generalize (if !s.pcMemMax64k then k.setWidth 32 ||| ramp.setWidth 32 <<< 16
    else k.setWidth 32) = addr at hlds ⊢
  have h8 : (addr &&& 0xff).toNat = addr.toNat % 2 ^ 8 :=
    Bits.toNat_and_low (show 8 ≤ 32 by decide) addr
  cases h256b : s.pcMemMax256b with
  | false => simpa [h256b] using hlds
  | true =>
    simp only [h256b, if_true] at hlds
    simp only [hconf h256b, Bool.and_self, if_true, h8, hlds, Core.cell, h256b]

/-- A pointer extended by the byte at `page`. -/
theorem exec_extend {page : ℕ} (hpage : page < memorySize) (ext : Bool) (p : Word) :
    exec (extend ext page p) m = .ok (if ext then
      p.setWidth 32 ||| (m.memory page).setWidth 32 <<< 16 else p.setWidth 32, m) := by
  cases ext <;> simp [extend, exec_mem hpage]

theorem exec_move {i j : ℕ} (hi : i < memorySize) (hj : j < memorySize) :
    exec (move i j) m = .ok ((), m.setMem j (m.memory i)) := by
  simp only [move, exec_bind, exec_mem hi, exec_setMem hj]

/-- The second machine is the first with at most the cells of `spare` changed. -/
def AgreeOutside (spare : List ℕ) (m m' : Machine) : Prop :=
  m'.toCore = m.toCore ∧ ∀ j ∉ spare, m'.memory j = m.memory j

theorem AgreeOutside.refl {spare : List ℕ} : AgreeOutside spare m m := ⟨rfl, fun _ _ => rfl⟩

theorem AgreeOutside.setMem {spare : List ℕ} {j : ℕ} {v : Byte} (h : AgreeOutside spare m m₁)
    (hj : j ∈ spare) : AgreeOutside spare m (m₁.setMem j v) := by
  refine ⟨h.1, fun k hk => ?_⟩
  have hne : k ≠ j := fun heq => hk (heq ▸ hj)
  rw [setMem_memory, Function.update_of_ne hne, h.2 k hk]

theorem AgreeOutside.setWord {spare : List ℕ} {j : ℕ} {w : Word} (h : AgreeOutside spare m m₁)
    (hlo : j ∈ spare) (hhi : j + 1 ∈ spare) : AgreeOutside spare m (m₁.setWord j w) :=
  (h.setMem hlo).setMem hhi

/-- The move that a load or a store makes between a register and a cell. -/
def Machine.moved (m : Machine) (store : Bool) (reg ea : ℕ) : Machine :=
  if store then m.setMem ea (m.memory reg) else m.setMem reg (m.memory ea)

@[simp] theorem moved_toCore (store : Bool) (reg ea : ℕ) :
    (m.moved store reg ea).toCore = m.toCore := by
  cases store <;> rfl

/-- The cells that change when the pointer at `rp` is incremented. -/
def pointerCells (rp extaddr : ℕ) : List ℕ := [rp, rp + 1, extaddr]

/-- The cell that the pointer at `rp` points to. -/
def Machine.offset (m : Machine) (rp extaddr : ℕ) : ℕ := m.cell (m.memory extaddr) (m.word rp).toNat

/-- The cell that an access with pointer update goes to: counting down, the one before. -/
def Machine.updateCell (m : Machine) (dec : Bool) (rp extaddr : ℕ) : ℕ :=
  if dec then (m.offset rp extaddr + (m.span - 1)) % m.span else m.offset rp extaddr

theorem updateCell_false (m : Machine) (rp extaddr : ℕ) :
    m.updateCell false rp extaddr = m.cell (m.memory extaddr) (m.word rp).toNat := by
  rw [Machine.updateCell, if_neg Bool.false_ne_true, Machine.offset]

theorem updateCell_true (m : Machine) (rp extaddr : ℕ) : m.updateCell true rp extaddr =
    (m.cell (m.memory extaddr) (m.word rp).toNat + (m.span - 1)) % m.span := by
  rw [Machine.updateCell, if_pos rfl, Machine.offset]

/-- The machine after the pointer at `rp` is written: as much of it as the configuration uses. -/
def Machine.setPointer (m : Machine) (rp extaddr a : ℕ) : Machine :=
  if m.pcMemMax256b then m.setMem rp (BitVec.ofNat 8 a)
  else if m.pcMemMax64k then m.setWord rp (BitVec.ofNat 16 a)
  else (m.setWord rp (BitVec.ofNat 16 a)).setMem extaddr (BitVec.ofNat 8 (a / 2 ^ 16))

theorem agreeOutside_setPointer {rp extaddr a : ℕ} :
    AgreeOutside (pointerCells rp extaddr) m (m.setPointer rp extaddr a) := by
  have hrp : rp ∈ pointerCells rp extaddr := List.mem_cons_self
  have hrp' : rp + 1 ∈ pointerCells rp extaddr := List.mem_cons_of_mem _ List.mem_cons_self
  have hpage : extaddr ∈ pointerCells rp extaddr :=
    List.mem_cons_of_mem _ (List.mem_cons_of_mem _ List.mem_cons_self)
  unfold Machine.setPointer
  split
  · exact AgreeOutside.refl.setMem hrp
  · split
    · exact AgreeOutside.refl.setWord hrp hrp'
    · exact (AgreeOutside.refl.setWord hrp hrp').setMem hpage

@[simp] theorem setPointer_toCore (rp extaddr a : ℕ) :
    (m.setPointer rp extaddr a).toCore = m.toCore := agreeOutside_setPointer.1

/-- A pair of bytes as a number. -/
theorem word_toNat (i : ℕ) :
    (m.word i).toNat = (m.memory (i + 1)).toNat * 2 ^ 8 + (m.memory i).toNat :=
  Bits.toNat_or_shiftLeft (show 8 + 8 ≤ 16 by decide) _ _

/-- A word that is written is read back. -/
theorem setWord_word (i : ℕ) (w : Word) : (m.setWord i w).word i = w := by
  have hlow : (0xff : Word) = (BitVec.allOnes 8).setWidth 16 := rfl
  simp only [Machine.word, Machine.setWord, setMem_memory, Function.update_self,
    Function.update_of_ne (show i ≠ i + 1 by omega)]
  apply BitVec.eq_of_getLsbD_eq
  intro j hj
  rw [hlow]
  simp only [BitVec.getLsbD_or, BitVec.getLsbD_shiftLeft, BitVec.getLsbD_setWidth,
    BitVec.getLsbD_ushiftRight, BitVec.getLsbD_and, BitVec.getLsbD_allOnes, hj, decide_true,
    Bool.true_and]
  interval_cases j <;> simp

section Pointer

variable {rp extaddr : ℕ} (heven : rp % 2 = 0) (hrp : rp < 0x100) (hext : extaddr < 0x100)
  (hconf : m.Configured) (store : Bool)
include heven hrp hext hconf

/-- The common path in its plain mode moves a byte between a register and a cell. -/
theorem exec_instrLdstCommon_plain (displace : Byte) :
    exec (instrLdstCommon rp extaddr 0 displace store idc) m = .ok (idc,
      m.moved store idc.ddddd.toNat
        (m.cell (m.memory extaddr) ((m.word rp).toNat + displace.toNat))) := by
  have hptr : (BitVec.ofNat 32 rp).toNat = rp := by
    rw [BitVec.toNat_ofNat]
    omega
  have hword : exec (memword (BitVec.ofNat 32 rp)) m = .ok (m.word rp, m) := by
    rw [exec_memword (by rw [hptr]; exact heven) (by rw [hptr]; unfold memorySize; omega), hptr]
  have hpage : extaddr < memorySize := by
    unfold memorySize
    omega
  have haddr := plain_addr_eq hconf (m.memory extaddr) displace (m.word rp)
  have hreg := byte_lt_memorySize idc.ddddd
  have hcell := cell_lt m.toCore (m.memory extaddr) ((m.word rp).toNat + displace.toNat)
  have hpost : ((0 : Byte) == 1) = false := rfl
  have hpre : ((0 : Byte) == 2) = false := rfl
  dsimp only at haddr
  dsimp only [instrLdstCommon]
  simp only [exec_bind, exec_when, exec_extend hpage, hword, exec_core, hpost, hpre,
    Bool.or_false, Bool.false_and, Bool.not_false, Bool.and_true, if_true, Bool.false_eq_true,
    if_false, exec_pure, exec_ite, haddr, exec_move hreg hcell, exec_move hcell hreg]
  cases store <;> rfl

omit hconf in
/-- The write-back of an updated pointer. -/
theorem exec_setPointer {n : Machine} (hcore : n.toCore = m.toCore) (addr : BitVec 32) :
    exec (if m.pcMemMax256b then setMem rp ((addr &&& 0xff).setWidth 8)
      else do
        memwriteword (BitVec.ofNat 32 rp) ((addr &&& 0xffff).setWidth 16)
        when (!m.pcMemMax64k) (setMem extaddr ((addr >>> 16).setWidth 8))) n =
      .ok ((), n.setPointer rp extaddr addr.toNat) := by
  have hptr : (BitVec.ofNat 32 rp).toNat = rp := by
    rw [BitVec.toNat_ofNat]
    omega
  have heven' : (BitVec.ofNat 32 rp).toNat % 2 = 0 := by rwa [hptr]
  have hslot : (BitVec.ofNat 32 rp).toNat + 1 < memorySize := by
    rw [hptr]
    unfold memorySize
    omega
  have hpage : extaddr < memorySize := by
    unfold memorySize
    omega
  have hlow : rp < memorySize := by
    unfold memorySize
    omega
  have h8 : (addr &&& 0xff).setWidth 8 = BitVec.ofNat 8 addr.toNat := by
    have hmask : (addr &&& 0xff).toNat = addr.toNat % 2 ^ 8 :=
      Bits.toNat_and_low (show 8 ≤ 32 by decide) addr
    apply BitVec.eq_of_toNat_eq
    rw [BitVec.toNat_setWidth, hmask, BitVec.toNat_ofNat, Nat.mod_mod]
  have h16 : (addr &&& 0xffff).setWidth 16 = BitVec.ofNat 16 addr.toNat := by
    have hmask : (addr &&& 0xffff).toNat = addr.toNat % 2 ^ 16 :=
      Bits.toNat_and_low (show 16 ≤ 32 by decide) addr
    apply BitVec.eq_of_toNat_eq
    rw [BitVec.toNat_setWidth, hmask, BitVec.toNat_ofNat, Nat.mod_mod]
  have h24 : (addr >>> 16).setWidth 8 = BitVec.ofNat 8 (addr.toNat / 2 ^ 16) := by
    apply BitVec.eq_of_toNat_eq
    rw [BitVec.toNat_setWidth, BitVec.toNat_ushiftRight, Nat.shiftRight_eq_div_pow,
      BitVec.toNat_ofNat]
  simp only [Machine.setPointer, hcore, h8, h16, h24]
  cases m.pcMemMax256b with
  | true => simp only [if_true, exec_setMem hlow]
  | false =>
    simp only [Bool.false_eq_true, if_false, exec_bind, exec_memwriteword heven' hslot, hptr,
      exec_when]
    cases m.pcMemMax64k with
    | true => simp only [Bool.not_true, Bool.false_eq_true, if_false, if_true]
    | false => simp only [Bool.not_false, if_true, exec_setMem hpage, Bool.false_eq_true, if_false]

/-- With an update the cell is the one before the pointer when it counts down, the one it points to
otherwise. The register that moves must not belong to the pointer. -/
theorem exec_instrLdstCommon_update (dec : Bool) (hlo : idc.ddddd.toNat ≠ rp)
    (hhi : idc.ddddd.toNat ≠ rp + 1) :
    exec (instrLdstCommon rp extaddr (if dec then 2 else 1) 0 store idc) m = .ok (idc,
      (m.moved store idc.ddddd.toNat (m.updateCell dec rp extaddr)).setPointer rp extaddr
        (if dec then m.updateCell dec rp extaddr else m.updateCell dec rp extaddr + 1)) := by
  have hptr : (BitVec.ofNat 32 rp).toNat = rp := by
    rw [BitVec.toNat_ofNat]
    omega
  have hword : exec (memword (BitVec.ofNat 32 rp)) m = .ok (m.word rp, m) := by
    rw [exec_memword (by rw [hptr]; exact heven) (by rw [hptr]; unfold memorySize; omega), hptr]
  have hpage : extaddr < memorySize := by
    unfold memorySize
    omega
  have hguard : (idc.ddddd.toNat == rp || idc.ddddd.toNat == rp + 1) = false := by
    rw [Bool.or_eq_false_iff, beq_eq_false_iff_ne, beq_eq_false_iff_ne]
    exact ⟨hlo, hhi⟩
  have hreg := byte_lt_memorySize idc.ddddd
  have hcell : m.updateCell dec rp extaddr < memorySize := by
    have hlt := cell_lt m.toCore (m.memory extaddr) (m.word rp).toNat
    unfold memorySize at hlt ⊢
    unfold Machine.updateCell Machine.offset Core.span
    split <;> (try split) <;> (try split) <;> omega
  have hmove : exec (if store = true then move idc.ddddd.toNat (m.updateCell dec rp extaddr)
      else move (m.updateCell dec rp extaddr) idc.ddddd.toNat) m =
      .ok ((), m.moved store idc.ddddd.toNat (m.updateCell dec rp extaddr)) := by
    rw [exec_ite, exec_move hreg hcell, exec_move hcell hreg]
    cases store <;> rfl
  have hback (addr : BitVec 32) := exec_setPointer heven hrp hext (moved_toCore (m := m) store
    idc.ddddd.toNat (m.updateCell dec rp extaddr)) addr
  cases dec with
  | true =>
    have haddr := predec_addr_eq hconf (m.memory extaddr) (m.word rp)
    rw [← updateCell_true] at haddr
    dsimp only at haddr
    have hpost : ((2 : Byte) == 1) = false := rfl
    have hpre : ((2 : Byte) == 2) = true := rfl
    simp only [instrLdstCommon, exec_bind, exec_when, exec_extend hpage, hword, exec_core, hpost,
      hpre, hguard, if_true, Bool.true_or, Bool.or_true, Bool.and_false, Bool.not_true,
      Bool.false_and, Bool.false_eq_true, if_false, haddr, hmove, hback, exec_pure]
  | false =>
    have haddr := postinc_addr_eq hconf (m.memory extaddr) (m.word rp)
    rw [← updateCell_false] at haddr
    dsimp only at haddr
    have hpost : ((1 : Byte) == 1) = true := rfl
    have hpre : ((1 : Byte) == 2) = false := rfl
    have hnext (addr : BitVec 32) (h : addr.toNat = m.updateCell false rp extaddr) :
        (addr + 1).toNat = m.updateCell false rp extaddr + 1 := by
      unfold memorySize at hcell
      rw [BitVec.toNat_add, h]
      exact Nat.mod_eq_of_lt (show _ + 1 < 4294967296 by omega)
    simp only [instrLdstCommon, exec_bind, exec_when, exec_extend hpage, hword, exec_core, hpost,
      hpre, hguard, if_true, Bool.true_or, Bool.or_true, Bool.and_false, Bool.not_true,
      Bool.not_false, Bool.false_eq_true, if_false, haddr, hmove, hback, exec_pure, hnext _ haddr]

/-- Post-increment makes the same move without a displacement, and then writes the pointer,
which must not be the register that moves. -/
theorem exec_instrLdstCommon_postinc {idc' : InstrDecodeCommon}
    (h : exec (instrLdstCommon rp extaddr 1 0 store idc) m = .ok (idc', m₁)) :
    idc' = idc ∧ idc.ddddd.toNat ≠ rp ∧ idc.ddddd.toNat ≠ rp + 1 ∧
      AgreeOutside (pointerCells rp extaddr)
        (m.moved store idc.ddddd.toNat (m.cell (m.memory extaddr) (m.word rp).toNat)) m₁ := by
  by_cases hguard : (idc.ddddd.toNat == rp || idc.ddddd.toNat == rp + 1) = true
  · simp [instrLdstCommon, exec_bind, exec_when, hguard, illins] at h
  simp only [Bool.or_eq_true, beq_iff_eq, not_or] at hguard
  have hexec := exec_instrLdstCommon_update heven hrp hext hconf store false hguard.1 hguard.2
  simp only [Bool.false_eq_true, if_false, updateCell_false] at hexec
  obtain ⟨rfl, rfl⟩ := Prod.mk.inj (Except.ok.inj (h.symm.trans hexec))
  exact ⟨rfl, hguard.1, hguard.2, agreeOutside_setPointer⟩

end Pointer

end AvrEmu
