import AvrEmu.Addressing
import AvrEmu.Run

/-!
# Reading back a stored byte

A store and a load may reach a cell by different routes. Whatever the routes, the load
gets the byte that was stored, except that LDS does not confine its operand when the data
space has only 256 bytes.
-/

namespace AvrEmu

variable {m m' m₁ m₂ m₃ : Machine} {d : InstrDecode} {idc idc' : InstrDecodeCommon}

inductive Pointer where
  | x
  | y
  | z
  deriving DecidableEq

/-- The low register of a pointer. -/
def Pointer.register : Pointer → ℕ
  | .x => regpX
  | .y => regpY
  | .z => regpZ

/-- The byte that extends a pointer. -/
def Pointer.ramp : Pointer → ℕ
  | .x => rampx
  | .y => rampy
  | .z => rampz

/-- LD and ST that update the pointer: decrement it before or increment it after. -/
def Pointer.updateOp : Pointer → Bool → Bool → Word × Word
  | .x, false, store => if store then Op.stxInc else Op.ldxInc
  | .y, false, store => if store then Op.styInc else Op.ldyInc
  | .z, false, store => if store then Op.stzInc else Op.ldzInc
  | .x, true, store => if store then Op.stxDec else Op.ldxDec
  | .y, true, store => if store then Op.styDec else Op.ldyDec
  | .z, true, store => if store then Op.stzDec else Op.ldzDec

/-- The code of the rows that decode the accesses through a pointer. -/
def Pointer.code : Pointer → Bool → Code
  | .x, store => if store then instrStx else instrLdx
  | _, store => if store then instrStyz else instrLdyz

/-- The ways to name a cell that take an address as it stands. -/
inductive Route where
  /-- LDS and STS. -/
  | direct
  /-- LD and ST without pointer update; for Y and Z they are LDD and STD with `q` zero. -/
  | indirect (p : Pointer)
  /-- LD and ST with post-increment. -/
  | postinc (p : Pointer)
  deriving DecidableEq

namespace Route

def loadOp : Route → Word × Word
  | direct => Op.lds
  | indirect .x => Op.ldx
  | indirect .y => Op.lddy
  | indirect .z => Op.lddz
  | postinc .x => Op.ldxInc
  | postinc .y => Op.ldyInc
  | postinc .z => Op.ldzInc

def storeOp : Route → Word × Word
  | direct => Op.sts
  | indirect .x => Op.stx
  | indirect .y => Op.stdy
  | indirect .z => Op.stdz
  | postinc .x => Op.stxInc
  | postinc .y => Op.styInc
  | postinc .z => Op.stzInc

def op (r : Route) (store : Bool) : Word × Word := if store then r.storeOp else r.loadOp

/-- The byte that extends the address. -/
def ramp : Route → ℕ
  | direct => rampd
  | indirect p => p.ramp
  | postinc p => p.ramp

/-- The displacement that the instruction word adds. -/
def displacement (w : Word) : Route → Byte
  | indirect .y => (fieldQ w).setWidth 8
  | indirect .z => (fieldQ w).setWidth 8
  | _ => 0

/-- The 16-bit address that the instruction at `pc` starts from. -/
def operand (m : Machine) : Route → Word
  | direct => m.nextWord
  | indirect p => m.word p.register
  | postinc p => m.word p.register

/-- The cells that change besides the one the route leads to. -/
def spare : Route → List ℕ
  | postinc p => pointerCells p.register p.ramp
  | _ => []

/-- The code of the row that decodes the route. -/
def code : Route → Bool → Code
  | direct, store => if store then instrSts else instrLds
  | indirect .x, store => if store then instrStx else instrLdx
  | postinc .x, store => if store then instrStx else instrLdx
  | _, store => if store then instrStyz else instrLdyz

/-- The scattered displacement, put together by the code. -/
theorem displacement_bits (w : Word) :
    (bitField w 13 13 >>> 8 ||| bitField w 11 10 >>> 7 ||| bitField w 2 0).setWidth 8 =
      (fieldQ w).setWidth 8 := by
  apply BitVec.eq_of_getLsbD_eq
  intro i hi
  simp only [BitVec.getLsbD_setWidth, BitVec.getLsbD_or, BitVec.getLsbD_ushiftRight, fieldQ,
    BitVec.getLsbD_append, BitVec.getLsbD_extractLsb',
    getLsbD_bitField (show 13 < 16 by decide) 13 (by decide),
    getLsbD_bitField (show 11 < 16 by decide) 10 (by decide),
    getLsbD_bitField (show 2 < 16 by decide) 0 (by decide)]
  interval_cases i <;> simp

/-- Without the index bit, Y and Z take a displacement; with it, an update mode. -/
theorem exec_yzMode (w : Word) : exec (yzMode w) m = .ok
    (if w.getLsbD 12 then ((bitField w 1 0).setWidth 8, 0) else (0, (fieldQ w).setWidth 8), m) := by
  have hindexed := bitField_single_ne_zero (show 12 < 16 by decide) w
  simp only [yzMode, exec_bind, exec_bits (show 12 < 16 by decide) (show 12 ≤ 12 by decide),
    exec_bits (show 13 < 16 by decide) (show 13 ≤ 13 by decide),
    exec_bits (show 11 < 16 by decide) (show 10 ≤ 11 by decide),
    exec_bits (show 2 < 16 by decide) (show 0 ≤ 2 by decide),
    exec_bits (show 1 < 16 by decide) (show 0 ≤ 1 by decide), exec_ite, exec_pure,
    displacement_bits]
  cases hbit : w.getLsbD 12 with
  | false =>
    rw [hbit, bne_eq_false_iff_eq] at hindexed
    simp [hindexed]
  | true =>
    have hne : bitField w 12 12 ≠ 0#16 := by
      rw [hbit, bne_iff_ne] at hindexed
      exact hindexed
    simp [hne]

/-- Without an update, the code of every pointer is the common path in its plain mode. -/
theorem exec_code_indirect (p : Pointer) {store : Bool}
    (h : IsOp ((indirect p).op store) idc.instr) :
    exec ((indirect p).code store idc) m = exec (instrLdstCommon p.register p.ramp 0
      ((indirect p).displacement idc.instr) store idc) m := by
  cases p with
  | x =>
    have hmode : (bitField idc.instr 1 0).setWidth 8 = (0 : Byte) := by
      cases store <;> rw [h.bitField_eq (by decide)] <;> rfl
    cases store <;>
    · simp only [code, Bool.false_eq_true, if_false, if_true, instrStx, instrLdx, exec_bind,
        exec_bits (show 1 < 16 by decide) (show 0 ≤ 1 by decide), hmode]
      rfl
  | y =>
    have hy : (bitField idc.instr 3 3 != 0) = true := by
      rw [bitField_single_ne_zero (by decide)]
      cases store <;> rw [h.getLsbD_eq (by decide)] <;> rfl
    have hindexed : idc.instr.getLsbD 12 = false := by
      cases store <;> rw [h.getLsbD_eq (by decide)] <;> rfl
    cases store <;>
    · simp only [code, Bool.false_eq_true, if_false, if_true, instrStyz, instrLdyz, exec_bind,
        exec_bits (show 3 < 16 by decide) (show 3 ≤ 3 by decide), exec_yzMode, hy, hindexed]
      rfl
  | z =>
    have hz : (bitField idc.instr 3 3 != 0) = false := by
      rw [bitField_single_ne_zero (by decide)]
      cases store <;> rw [h.getLsbD_eq (by decide)] <;> rfl
    have hindexed : idc.instr.getLsbD 12 = false := by
      cases store <;> rw [h.getLsbD_eq (by decide)] <;> rfl
    cases store <;>
    · simp only [code, Bool.false_eq_true, if_false, if_true, instrStyz, instrLdyz, exec_bind,
        exec_bits (show 3 < 16 by decide) (show 3 ≤ 3 by decide), exec_yzMode, hz, hindexed]
      rfl

/-- With an update it is the common path in mode 1 or 2. -/
theorem exec_code_update (p : Pointer) {dec store : Bool}
    (h : IsOp (p.updateOp dec store) idc.instr) : exec (p.code store idc) m =
      exec (instrLdstCommon p.register p.ramp (if dec then 2 else 1) 0 store idc) m := by
  have hmode : (bitField idc.instr 1 0).setWidth 8 = (if dec then 2 else 1 : Byte) := by
    cases p <;> cases dec <;> cases store <;> rw [h.bitField_eq (by decide)] <;> rfl
  have hindexed : p ≠ .x → idc.instr.getLsbD 12 = true := by
    intro hp
    cases p with
    | x => exact absurd rfl hp
    | y => cases dec <;> cases store <;> rw [h.getLsbD_eq (by decide)] <;> rfl
    | z => cases dec <;> cases store <;> rw [h.getLsbD_eq (by decide)] <;> rfl
  have hy : (bitField idc.instr 3 3 != 0) = decide (p ≠ .z) := by
    rw [bitField_single_ne_zero (by decide)]
    cases p <;> cases dec <;> cases store <;> rw [h.getLsbD_eq (by decide)] <;> rfl
  cases p with
  | x =>
    cases store <;>
    · simp only [Pointer.code, Bool.false_eq_true, if_false, if_true, instrStx, instrLdx, exec_bind,
        exec_bits (show 1 < 16 by decide) (show 0 ≤ 1 by decide), hmode]
      rfl
  | y =>
    cases store <;>
    · simp only [Pointer.code, Bool.false_eq_true, if_false, if_true, instrStyz, instrLdyz,
        exec_bind, exec_bits (show 3 < 16 by decide) (show 3 ≤ 3 by decide), exec_yzMode, hy,
        hindexed (by decide), hmode]
      rfl
  | z =>
    cases store <;>
    · simp only [Pointer.code, Bool.false_eq_true, if_false, if_true, instrStyz, instrLdyz,
        exec_bind, exec_bits (show 3 < 16 by decide) (show 3 ≤ 3 by decide), exec_yzMode, hy,
        hindexed (by decide), hmode]
      rfl

/-- In particular with post-increment. -/
theorem exec_code_postinc (p : Pointer) {store : Bool} (h : IsOp ((postinc p).op store) idc.instr) :
    exec ((postinc p).code store idc) m =
      exec (instrLdstCommon p.register p.ramp 1 0 store idc) m := by
  have hop : IsOp (p.updateOp false store) idc.instr := by
    cases p <;> cases store <;> exact h
  have hcode : (postinc p).code store = p.code store := by
    cases p <;> rfl
  rw [hcode]
  exact exec_code_update p hop

variable [DesLibrary]

/-- The row that an instruction of the route is decoded by. -/
theorem lookup_op (r : Route) {store : Bool} {w : Word} (h : IsOp (r.op store) w) :
    ∃ d, lookupInstr w = some d ∧ d.code = r.code store ∧
      (∀ idc, (d.operands idc).ddddd.toNat = (fieldD idc.instr).toNat) ∧
      d.imm16 = decide (r = direct) := by
  have hreg {d : InstrDecode} (h : d.ddddd84 = true) (h₁ : d.dddd74 = false)
      (h₂ : d.ddd64 = false) (idc : InstrDecodeCommon) :
      (d.operands idc).ddddd.toNat = (fieldD idc.instr).toNat :=
    operands_ddddd84_toNat idc h h₁ h₂
  cases r with
  | direct =>
    cases store with
    | false => exact ⟨_, lookup_lds h, rfl, hreg rfl rfl rfl, rfl⟩
    | true => exact ⟨_, lookup_sts h, rfl, hreg rfl rfl rfl, rfl⟩
  | indirect p =>
    cases p <;> cases store
    · exact ⟨_, lookup_ldx (h.coarsen rfl rfl), rfl, hreg rfl rfl rfl, rfl⟩
    · exact ⟨_, lookup_stx (h.coarsen rfl rfl), rfl, hreg rfl rfl rfl, rfl⟩
    · exact ⟨_, lookup_ldyz (h.coarsen rfl rfl), rfl, hreg rfl rfl rfl, rfl⟩
    · exact ⟨_, lookup_styz (h.coarsen rfl rfl), rfl, hreg rfl rfl rfl, rfl⟩
    · exact ⟨_, lookup_ldyz (h.coarsen rfl rfl), rfl, hreg rfl rfl rfl, rfl⟩
    · exact ⟨_, lookup_styz (h.coarsen rfl rfl), rfl, hreg rfl rfl rfl, rfl⟩
  | postinc p =>
    cases p <;> cases store
    · exact ⟨_, lookup_ldx (h.coarsen rfl rfl), rfl, hreg rfl rfl rfl, rfl⟩
    · exact ⟨_, lookup_stx (h.coarsen rfl rfl), rfl, hreg rfl rfl rfl, rfl⟩
    · exact ⟨_, lookup_ldyzInc (h.coarsen rfl rfl), rfl, hreg rfl rfl rfl, rfl⟩
    · exact ⟨_, lookup_styzInc (h.coarsen rfl rfl), rfl, hreg rfl rfl rfl, rfl⟩
    · exact ⟨_, lookup_ldyzInc (h.coarsen rfl rfl), rfl, hreg rfl rfl rfl, rfl⟩
    · exact ⟨_, lookup_styzInc (h.coarsen rfl rfl), rfl, hreg rfl rfl rfl, rfl⟩

/-- The address, before it is confined to the data space. -/
def address (m : Machine) (r : Route) : ℕ :=
  (r.operand m).toNat + (r.displacement m.instrWord).toNat

/-- The cell that a store by this route goes to. -/
def storeCell (m : Machine) (r : Route) : ℕ := m.cell (m.memory r.ramp) (r.address m)

/-- The cell that a load by this route comes from: LDS does not look at the 256-byte knob. -/
def loadCell (m : Machine) (r : Route) : ℕ :=
  if r = direct ∧ m.pcMemMax256b = true then m.nextWord.toNat else r.storeCell m

def cell (m : Machine) (r : Route) (store : Bool) : ℕ :=
  if store then r.storeCell m else r.loadCell m

omit [DesLibrary] in
/-- Without a displacement the address is the operand. -/
theorem address_eq {r : Route} (h : r.displacement m.instrWord = 0) :
    r.address m = (r.operand m).toNat := by
  rw [address, h]
  rfl

omit [DesLibrary] in
theorem storeCell_direct : direct.storeCell m = m.cell (m.memory rampd) m.nextWord.toNat := by
  rw [storeCell, address_eq rfl]
  rfl

omit [DesLibrary] in
theorem storeCell_postinc (p : Pointer) :
    (postinc p).storeCell m = m.cell (m.memory p.ramp) (m.word p.register).toNat := by
  rw [storeCell, address_eq rfl]
  rfl

omit [DesLibrary] in
/-- Only LDS goes elsewhere than a store by the same route. -/
theorem cell_eq_storeCell {r : Route} {store : Bool} (h : r ≠ direct ∨ store = true) :
    r.cell m store = r.storeCell m := by
  unfold cell loadCell
  cases store with
  | false => simp [h.resolve_right Bool.false_ne_true]
  | true => exact if_pos rfl

end Route

private theorem fetched_cell (d : InstrDecode) (ramp : Byte) (a : ℕ) :
    (m.fetched d).cell ramp a = m.cell ramp a := by
  unfold Core.cell
  rfl

private theorem fetched_word (d : InstrDecode) (a : ℕ) : (m.fetched d).word a = m.word a := rfl

/-- STS and LDS take the address apart for themselves. -/
theorem exec_code_direct (hconf : m.Configured) (store : Bool) :
    exec (Route.direct.code store idc) m = .ok (idc, m.moved store idc.ddddd.toNat
      (if store = false ∧ m.pcMemMax256b = true then idc.immU16.toNat
        else m.cell (m.memory rampd) idc.immU16.toNat)) := by
  have hreg := byte_lt_memorySize idc.ddddd
  have hcell := cell_lt m.toCore (m.memory rampd) idc.immU16.toNat
  cases store with
  | false =>
    have haddr := lds_addr_eq hconf (m.memory rampd) idc.immU16
    have hlt : (if m.pcMemMax256b then idc.immU16.toNat
        else m.cell (m.memory rampd) idc.immU16.toNat) < memorySize := by
      split
      · exact word_lt_memorySize _
      · exact hcell
    simp only [Route.code, instrLds, Bool.false_eq_true, if_false, exec_bind, exec_core,
      exec_extend (show rampd < memorySize by decide), haddr, exec_mem hlt, exec_setMem hreg,
      exec_pure, true_and]
    rfl
  | true =>
    have haddr := sts_addr_eq hconf (m.memory rampd) idc.immU16
    dsimp only at haddr
    simp only [Route.code, instrSts, if_true, exec_bind, exec_core,
      exec_extend (show rampd < memorySize by decide), haddr, exec_mem hreg, exec_setMem hcell,
      exec_pure, Bool.true_eq_false, false_and, if_false]
    rfl

section Steps

variable [DesLibrary]

/-- An instruction of a route moves a byte between its register and its cell, changes no
status bit, and otherwise touches at most the spare cells. -/
theorem Machine.Executes.moved (h : m.Executes d idc m₁) (hconf : m.Configured) {r : Route}
    {store : Bool} (hop : IsOp (r.op store) m.instrWord) : idc.toFlags = {} ∧
    (fieldD m.instrWord).toNat ∉ r.spare ∧
    AgreeOutside r.spare ((m.fetched d).moved store (fieldD m.instrWord).toNat (r.cell m store))
      m₁ := by
  obtain ⟨e, hlookup, hcode, hreg, himm⟩ := r.lookup_op hop
  obtain rfl : d = e := Option.some.inj (h.fetches.lookup_eq.symm.trans hlookup)
  have hexec := h.exec_code
  have hflags : (d.operands (m.decoded d)).toFlags = {} := rfl
  have hinstr : (d.operands (m.decoded d)).instr = m.instrWord := rfl
  have himm16 : (d.operands (m.decoded d)).immU16 = if d.imm16 then m.nextWord else 0 := rfl
  have hfield := hreg (m.decoded d)
  have hconf' : (m.fetched d).Configured := hconf
  rw [decoded_instr] at hfield
  rw [hcode] at hexec
  generalize d.operands (m.decoded d) = idc₀ at hexec hflags hinstr himm16 hfield
  rw [← hinstr] at hop
  cases r with
  | direct =>
    rw [exec_code_direct hconf'] at hexec
    cases hexec
    refine ⟨hflags, List.not_mem_nil, ?_⟩
    rw [hfield, himm16, himm, decide_eq_true rfl, if_pos rfl]
    cases store with
    | false =>
      simp only [Route.cell, Route.loadCell, Route.storeCell_direct, Bool.false_eq_true, if_false,
        true_and, fetched_cell, fetched_memory]
      exact AgreeOutside.refl
    | true =>
      simp only [Route.cell_eq_storeCell (Or.inr rfl), Route.storeCell_direct, Bool.true_eq_false,
        false_and, if_false, fetched_cell, fetched_memory]
      exact AgreeOutside.refl
  | indirect p =>
    rw [Route.exec_code_indirect p hop, exec_instrLdstCommon_plain (by cases p <;> rfl)
      (by cases p <;> decide) (by cases p <;> decide) hconf'] at hexec
    cases hexec
    refine ⟨hflags, List.not_mem_nil, ?_⟩
    rw [hfield, hinstr, Route.cell_eq_storeCell (Or.inl (by simp)), fetched_cell, fetched_memory,
      fetched_word]
    exact AgreeOutside.refl
  | postinc p =>
    rw [Route.exec_code_postinc p hop] at hexec
    obtain ⟨rfl, hlo, hhi, hagree⟩ := exec_instrLdstCommon_postinc (by cases p <;> rfl)
      (by cases p <;> decide) (by cases p <;> decide) hconf' store hexec
    rw [hfield, fetched_cell, fetched_memory, fetched_word] at hagree
    rw [hfield] at hlo hhi
    refine ⟨hflags, ?_, ?_⟩
    · have hlt := (fieldD m.instrWord).isLt
      have hramp : 32 ≤ p.ramp := by cases p <;> decide
      simp only [Route.spare, pointerCells, List.mem_cons, List.not_mem_nil, or_false, not_or]
      exact ⟨hlo, hhi, by omega⟩
    · rw [Route.cell_eq_storeCell (Or.inl (by simp)), Route.storeCell_postinc]
      exact hagree

/-- The course of a step that executes an instruction of a route. -/
theorem step_moved (h : m.step = .ok m') (hskip : m.skipNextInstruction = false)
    (hconf : m.Configured) {r : Route} {store : Bool} (hop : IsOp (r.op store) m.instrWord) :
    (fieldD m.instrWord).toNat ∉ r.spare ∧ ∀ j ∉ r.spare,
      m'.memory j = (m.moved store (fieldD m.instrWord).toNat (r.cell m store)).memory j := by
  rcases step_cases h with ⟨d, hskip', -, -⟩ | ⟨d, idc, m₁, hexec, -, rfl⟩ |
    ⟨d, idc, m₁, e, hexec, hraised, -, -⟩
  · simp [hskip] at hskip'
  · obtain ⟨hquiet, hfree, -, hagree⟩ := hexec.moved hconf hop
    refine ⟨hfree, fun j hj => ?_⟩
    rw [finish_memory_of_quiet hquiet, hagree j hj]
    cases store <;> rfl
  · obtain ⟨-, -, hcore, -⟩ := hexec.moved hconf hop
    rw [hcore, moved_toCore] at hraised
    exact absurd (hexec.skip_eq.symm.trans hraised) Bool.false_ne_true

/-- The operand of a route names the address `k` when RAMP holds `ramp`. -/
structure Route.Names (m : Machine) (r : Route) (ramp : Byte) (k : ℕ) : Prop where
  ramp_eq : m.memory r.ramp = ramp
  cell_eq : m.cell ramp (r.address m) = m.cell ramp k

/-- A byte stored at an address by one route, and kept there, is the byte that a load by any
route gets from that address, if and only if the load is not an LDS which, in a data space
of 256 bytes, takes its operand beyond the space to a cell that holds something else. -/
theorem read_back_iff {store load : Route} {ramp : Byte} {k : Word}
    (hstore : m.step = .ok m₁) (hskip : m.skipNextInstruction = false) (hconf : m.Configured)
    (hop : IsOp store.storeOp m.instrWord) (hnames : store.Names m ramp k.toNat)
    (hfree : m.cell ramp k.toNat ∉ store.spare)
    (h64k : m₂.pcMemMax64k = m.pcMemMax64k) (h256b : m₂.pcMemMax256b = m.pcMemMax256b)
    (hkept : m₂.memory (m.cell ramp k.toNat) = m₁.memory (m.cell ramp k.toNat))
    (hload : m₂.step = .ok m₃) (hskip₂ : m₂.skipNextInstruction = false)
    (hop₂ : IsOp load.loadOp m₂.instrWord) (hnames₂ : load.Names m₂ ramp k.toNat) :
    m₃.memory (fieldD m₂.instrWord).toNat = m.memory (fieldD m.instrWord).toNat ↔
      (load = .direct → m₂.pcMemMax256b = true → 0x100 ≤ m₂.nextWord.toNat →
        m₂.memory m₂.nextWord.toNat = m.memory (fieldD m.instrWord).toNat) := by
  have hconf₂ : m₂.Configured := by
    unfold Core.Configured
    rw [h64k, h256b]
    exact hconf
  have hsame (a : ℕ) : m₂.cell ramp a = m.cell ramp a := by
    simp only [Core.cell, h64k, h256b]
  have hop' : IsOp (store.op true) m.instrWord := hop
  have hop₂' : IsOp (load.op false) m₂.instrWord := hop₂
  obtain ⟨-, hstored⟩ := step_moved hstore hskip hconf hop'
  obtain ⟨hreg, hloaded⟩ := step_moved hload hskip₂ hconf₂ hop₂'
  have hcell : store.storeCell m = m.cell ramp k.toNat := by
    rw [Route.storeCell, hnames.ramp_eq, hnames.cell_eq]
  have hcell₂ : load.storeCell m₂ = m.cell ramp k.toNat := by
    rw [Route.storeCell, hnames₂.ramp_eq, hnames₂.cell_eq, hsame]
  have hbyte : m₂.memory (m.cell ramp k.toNat) = m.memory (fieldD m.instrWord).toNat := by
    rw [hkept, hstored _ hfree, Route.cell_eq_storeCell (Or.inr rfl), hcell]
    exact Function.update_self _ _ _
  have hgot : m₃.memory (fieldD m₂.instrWord).toNat = m₂.memory (load.loadCell m₂) := by
    have hpart : load.cell m₂ false = load.loadCell m₂ := if_neg Bool.false_ne_true
    rw [hloaded _ hreg, hpart]
    exact Function.update_self _ _ _
  rw [hgot]
  by_cases hlds : load = .direct ∧ m₂.pcMemMax256b = true
  · obtain ⟨rfl, hsmall⟩ := hlds
    rw [Route.loadCell, if_pos ⟨rfl, hsmall⟩]
    by_cases hbeyond : 0x100 ≤ m₂.nextWord.toNat
    · simp only [hsmall, hbeyond, forall_const]
    · have hinside : Route.direct.storeCell m₂ = m₂.nextWord.toNat := by
        simp only [Route.storeCell_direct, Core.cell, hconf₂ hsmall, hsmall, if_true]
        omega
      rw [← hinside, hcell₂, hbyte]
      exact iff_of_true rfl fun _ _ _ => rfl
  · rw [Route.loadCell, if_neg hlds, hcell₂, hbyte]
    simp only [true_iff]
    exact fun h₁ h₂ => absurd ⟨h₁, h₂⟩ hlds

end Steps

section Relay

attribute [local instance] idleDes

/-- The 256-byte configuration with 0x55 in register 16 and the image
`STS k, r16; LDS r17, k`. -/
def relayMachine (k : Word) : Machine :=
  { (Machine.powerOn fun a => if a = 0 then 0x9300 else if a = 2 then 0x9110 else k).reset
      false true true with
    memory := fun i => if i = 16 then 0x55 else 0 }

/-- `STS 0x0060, r16; LDS r17, 0x0060` copies the register. -/
theorem read_back_sts_lds : ((relayMachine 0x60).after 2).memory 17 = 0x55 := by
  have hsts : (relayMachine 0x60).step = .ok ((relayMachine 0x60).after 1) :=
    after_step (m := relayMachine 0x60) (n := 0) (by decide)
  have hlds : ((relayMachine 0x60).after 1).step = .ok ((relayMachine 0x60).after 2) :=
    after_step (by decide)
  have hreg : (fieldD ((relayMachine 0x60).after 1).instrWord).toNat = 17 := by decide
  have hback := (@read_back_iff _ _ _ _ _ .direct .direct 0 0x60 hsts rfl (fun _ => rfl) rfl
    ⟨rfl, rfl⟩ (by decide) (by decide) (by decide) rfl hlds (by decide) (by decide)
    ⟨by decide, by decide⟩).mpr fun _ _ hbeyond => absurd hbeyond (by decide)
  rw [hreg] at hback
  exact hback

/-- `STS 0x0160, r16; LDS r17, 0x0160` does not. -/
theorem sts_lds_differ : ¬ ∀ (_ : DesLibrary) (m m₁ m₂ m₃ : Machine) (store load : Route)
    (ramp : Byte) (k : Word), m.step = .ok m₁ → m.skipNextInstruction = false → m.Configured →
    IsOp store.storeOp m.instrWord → store.Names m ramp k.toNat →
    m.cell ramp k.toNat ∉ store.spare → m₂.pcMemMax64k = m.pcMemMax64k →
    m₂.pcMemMax256b = m.pcMemMax256b →
    m₂.memory (m.cell ramp k.toNat) = m₁.memory (m.cell ramp k.toNat) → m₂.step = .ok m₃ →
    m₂.skipNextInstruction = false → IsOp load.loadOp m₂.instrWord →
    load.Names m₂ ramp k.toNat →
    m₃.memory (fieldD m₂.instrWord).toNat = m.memory (fieldD m.instrWord).toNat := by
  intro hclaim
  have hsts : (relayMachine 0x160).step = .ok ((relayMachine 0x160).after 1) :=
    after_step (m := relayMachine 0x160) (n := 0) (by decide)
  have hlds : ((relayMachine 0x160).after 1).step = .ok ((relayMachine 0x160).after 2) :=
    after_step (by decide)
  have hback := hclaim idleDes _ _ _ _ .direct .direct 0 0x160 hsts rfl (fun _ => rfl) rfl
    ⟨rfl, rfl⟩ (by decide) (by decide) (by decide) rfl hlds (by decide) (by decide)
    ⟨by decide, by decide⟩
  exact absurd hback (by decide)

end Relay

end AvrEmu
