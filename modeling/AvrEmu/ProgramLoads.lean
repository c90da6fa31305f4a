import AvrEmu.Addressing
import AvrEmu.Run

/-!
# Loads from program memory

LPM and ELPM with post-increment read the bytes of the flash one after the other. ELPM
forms its address from RAMPZ and Z but writes only Z back, so that the walk stays on the
64K page where it started.
-/

namespace AvrEmu

variable {m m' m₁ : Machine} {idc : InstrDecodeCommon} {ext : Bool}

/-- The byte of flash at a byte address, the low byte of a word first. -/
def Core.romByte (s : Core) (a : ℕ) : Byte :=
  if a % 2 = 1 then (s.flash (a / 2) >>> 8).setWidth 8 else (s.flash (a / 2)).setWidth 8

/-- The page of ELPM; LPM works on page zero. -/
def Machine.page (m : Machine) (ext : Bool) : ℕ :=
  if ext then (m.memory rampz).toNat * 2 ^ 16 else 0

/-- The 24-bit pointer RAMPZ:Z. -/
def Machine.rampzZ (m : Machine) : ℕ := m.page true + (m.word regpZ).toNat

/-- ELPM and LPM with post-increment. -/
def Op.programInc (ext : Bool) : Word × Word := if ext then Op.elpmInc else Op.lpmInc

theorem page_congr (h : m'.memory rampz = m.memory rampz) : m'.page ext = m.page ext := by
  simp only [Machine.page, h]

/-- The address that both forms read at. -/
private theorem program_addr_eq (ext : Bool) : (if ext then
    (m.word regpZ).setWidth 32 ||| (m.memory rampz).setWidth 32 <<< 16
    else (m.word regpZ).setWidth 32).toNat = m.page ext + (m.word regpZ).toNat := by
  unfold Machine.page
  cases ext with
  | true => exact Bits.toNat_or_shiftLeft (show 16 + 8 ≤ 32 by decide) _ _
  | false =>
    simp only [Bool.false_eq_true, if_false, Nat.zero_add]
    exact BitVec.toNat_setWidth_of_le (by decide)

/-- The low byte of a word, with and without its mask. -/
theorem setWidth_and_ff (w : Word) : (w &&& 0xff).setWidth 8 = (w.setWidth 8 : Byte) := by
  have hmask : (w &&& 0xff).toNat = w.toNat % 2 ^ 8 := Bits.toNat_and_low (show 8 ≤ 16 by decide) w
  apply BitVec.eq_of_toNat_eq
  rw [BitVec.toNat_setWidth, BitVec.toNat_setWidth, hmask, Nat.mod_mod]

/-- The byte that the code selects from a word of flash. -/
private theorem selected_byte (s : Core) (addr : BitVec 32) :
    (if addr &&& 1 != 0 then (s.flash (addr >>> 1).toNat >>> 8).setWidth 8
      else (s.flash (addr >>> 1).toNat &&& 0xff).setWidth 8) = s.romByte addr.toNat := by
  have hshift : (addr >>> 1).toNat = addr.toNat / 2 := by
    rw [BitVec.toNat_ushiftRight, Nat.shiftRight_eq_div_pow]
  have hodd : (addr &&& 1 != 0) = decide (addr.toNat % 2 = 1) := by
    have heven : addr &&& 1 = 0 ↔ addr.toNat % 2 = 0 := Bits.and_one_eq_zero_iff (by decide) addr
    rw [Bool.eq_iff_iff, bne_iff_ne, decide_eq_true_iff, Ne, heven]
    omega
  simp only [hodd, setWidth_and_ff, hshift, Core.romByte, decide_eq_true_eq]

/-- The pointer that the code writes back: the address on its page. -/
private theorem stored_pointer {addr : BitVec 32} {z : Word} {page : ℕ}
    (haddr : addr.toNat = page + z.toNat) (hpage : page % 2 ^ 16 = 0) :
    (addr + 1 &&& 0xffff).setWidth 16 = z + 1 := by
  have hmask : (addr + 1 &&& 0xffff).toNat = (addr + 1).toNat % 2 ^ 16 :=
    Bits.toNat_and_low (show 16 ≤ 32 by decide) _
  apply BitVec.eq_of_toNat_eq
  rw [BitVec.toNat_setWidth, hmask, BitVec.toNat_add, BitVec.toNat_add, haddr]
  change (page + z.toNat + 1) % 2 ^ 32 % 2 ^ 16 % 2 ^ 16 = (z.toNat + 1) % 2 ^ 16
  omega

/-- The pointer lies in flash, whatever its page. -/
private theorem pointer_in_flash (ext : Bool) {addr : BitVec 32}
    (haddr : addr.toNat = m.page ext + (m.word regpZ).toNat) : (addr >>> 1).toNat < flashSize := by
  have hz := (m.word regpZ).isLt
  have hramp := (m.memory rampz).isLt
  have hpage : m.page ext ≤ 255 * 2 ^ 16 := by
    unfold Machine.page
    split <;> omega
  rw [BitVec.toNat_ushiftRight, Nat.shiftRight_eq_div_pow, haddr]
  unfold flashSize
  omega

/-- The code of the forms with a destination register, which lies outside Z if Z is written. -/
theorem exec_instrElpmz {postinc : Bool} (hext : idc.instr.getLsbD 1 = ext)
    (hpostinc : idc.instr.getLsbD 0 = postinc)
    (happart : postinc = true → idc.ddddd.toNat ≠ 30 ∧ idc.ddddd.toNat ≠ 31) :
    exec (instrElpmz idc) m = .ok (idc,
      let m₁ := m.setMem idc.ddddd.toNat (m.romByte (m.page ext + (m.word regpZ).toNat))
      if postinc then m₁.setWord regpZ (m.word regpZ + 1) else m₁) := by
  have hguard : (postinc && (idc.ddddd == 30 || idc.ddddd == 31)) = false := by
    cases hinc : postinc with
    | false => rfl
    | true =>
      obtain ⟨hlo, hhi⟩ := happart hinc
      rw [Bool.true_and, Bool.or_eq_false_iff, beq_eq_false_iff_ne, beq_eq_false_iff_ne]
      exact ⟨fun h => hlo (congrArg BitVec.toNat h), fun h => hhi (congrArg BitVec.toNat h)⟩
  have hpage : m.page ext % 2 ^ 16 = 0 := by
    unfold Machine.page
    split <;> omega
  have haddr := program_addr_eq (m := m) ext
  have hz : (30 : BitVec 32).toNat = regpZ := rfl
  simp only [instrElpmz, exec_bind, exec_bits (show 1 < 16 by decide) (show 1 ≤ 1 by decide),
    exec_bits (show 0 < 16 by decide) (show 0 ≤ 0 by decide), bitField_single_ne_zero
    (show 1 < 16 by decide), bitField_single_ne_zero (show 0 < 16 by decide), hext, hpostinc,
    hguard,
    exec_when, Bool.false_eq_true, if_false,
    exec_memword (show (30 : BitVec 32).toNat % 2 = 0 from rfl) (by decide),
    exec_extend (show rampz < memorySize by decide), exec_romword,
    if_pos (pointer_in_flash ext haddr), exec_setMem (byte_lt_memorySize idc.ddddd),
    exec_memwriteword (show (30 : BitVec 32).toNat % 2 = 0 from rfl) (by decide), exec_pure, hz,
    selected_byte, stored_pointer haddr hpage, haddr]
  cases postinc <;> rfl

/-- The code of the forms with the implied destination. -/
theorem exec_instrElpm (hext : idc.instr.getLsbD 4 = ext) : exec (instrElpm idc) m =
    .ok (idc, m.setMem 0 (m.romByte (m.page ext + (m.word regpZ).toNat))) := by
  have haddr := program_addr_eq (m := m) ext
  have hz : (30 : BitVec 32).toNat = regpZ := rfl
  simp only [instrElpm, exec_bind, exec_bits (show 4 < 16 by decide) (show 4 ≤ 4 by decide),
    bitField_single_ne_zero (show 4 < 16 by decide), hext,
    exec_memword (show (30 : BitVec 32).toNat % 2 = 0 from rfl) (by decide),
    exec_extend (show rampz < memorySize by decide), exec_romword,
    if_pos (pointer_in_flash ext haddr), exec_setMem (show 0 < memorySize by decide), exec_pure, hz,
    selected_byte, haddr]

/-! ## Loads in a row -/

section Runs

variable [DesLibrary] {n i : ℕ}

/-- `n` loads with post-increment in a row, none of them into the pointer. -/
structure Machine.Streams (m : Machine) (ext : Bool) (n : ℕ) : Prop where
  ready : ∀ i < n, (Machine.next^[i] m).Ready (Op.programInc ext)
  apart : ∀ i < n, (fieldD (Machine.next^[i] m).instrWord).toNat ∉ [30, 31]

/-- The `i`-th of `n` steps loads the byte of flash at `addr i` into its register. -/
def Machine.Loads (m : Machine) (n : ℕ) (addr : ℕ → ℕ) : Prop :=
  ∀ i < n, (Machine.next^[i + 1] m).memory (fieldD (Machine.next^[i] m).instrWord).toNat =
    m.romByte (addr i)

/-- What a load leaves: the byte in the register, the pointer one further, all else as it was. -/
theorem next_programInc (h : m.Ready (Op.programInc ext))
    (happart : (fieldD m.instrWord).toNat ∉ [30, 31]) :
    m.step = .ok m.next ∧
    m.next.memory = ((m.setMem (fieldD m.instrWord).toNat
      (m.romByte (m.page ext + (m.word regpZ).toNat))).setWord regpZ (m.word regpZ + 1)).memory ∧
    m.next.pc = m.pc + 1 ∧ m.next.flash = m.flash := by
  have hreg : (fieldD m.instrWord).toNat ≠ 30 ∧ (fieldD m.instrWord).toNat ≠ 31 := by
    simpa using happart
  have hrow : IsOp (0x9004, 0xfe0c) m.instrWord := by
    have hop := h.isOp
    cases ext <;> exact hop.coarsen rfl rfl
  have hlookup := lookup_elpmz hrow
  generalize hd : (⟨0x9004, 0xfe0c, instrElpmz, true, false, false, false, false, false, false,
    false⟩ : InstrDecode) = d at hlookup
  have hfield : (d.operands (m.decoded d)).ddddd.toNat = (fieldD m.instrWord).toNat := by
    subst hd
    exact operands_ddddd84_toNat _ rfl rfl rfl
  have hext : (d.operands (m.decoded d)).instr.getLsbD 1 = ext := by
    have hop : IsOp (Op.programInc ext) m.instrWord := h.isOp
    rw [operands_instr, decoded_instr]
    cases ext <;> exact hop.getLsbD_eq (by decide)
  have hpostinc : (d.operands (m.decoded d)).instr.getLsbD 0 = true := by
    have hop : IsOp (Op.programInc ext) m.instrWord := h.isOp
    rw [operands_instr, decoded_instr]
    cases ext <;> exact hop.getLsbD_eq (by decide)
  have hcode := exec_instrElpmz (m := m.fetched d) hext hpostinc fun _ => by rwa [hfield]
  rw [hfield] at hcode
  subst hd
  obtain ⟨hstep, hmem, hpc, hsetup, -⟩ := step_of_exec h hlookup rfl hcode rfl
  exact ⟨hstep, hmem, hpc, hsetup.flash_eq⟩

/-! ### Every form of load -/

/-- The instructions that load a byte of flash, from RAMPZ:Z or from Z alone: those that load R0 and
those that name a register. -/
inductive ProgramLoad where
  | implied (ext : Bool)
  | register (ext postinc : Bool)

/-- Whether the address is extended by RAMPZ. -/
def ProgramLoad.extended : ProgramLoad → Bool
  | implied ext => ext
  | register ext _ => ext

def ProgramLoad.opcode : ProgramLoad → Word × Word
  | implied ext => (if ext then 0x95d8 else 0x95c8, 0xffff)
  | register ext postinc =>
    (0x9004 ||| (if ext then 2 else 0) ||| (if postinc then 1 else 0), 0xfe0f)

/-- The number of the register that is loaded. -/
def ProgramLoad.dest (p : ProgramLoad) (w : Word) : ℕ :=
  match p with
  | implied _ => 0
  | register _ _ => (fieldD w).toNat

/-- With post-increment the pointer itself is no destination. -/
def ProgramLoad.Admits : ProgramLoad → Word → Prop
  | implied _, _ => True
  | register _ postinc, w => postinc = true → (fieldD w).toNat ∉ [30, 31]

/-- The address that a load reads at. -/
def Machine.loadAddress (m : Machine) (p : ProgramLoad) : ℕ :=
  if p.extended then m.rampzZ else (m.word regpZ).toNat

omit [DesLibrary] in
theorem loadAddress_eq (p : ProgramLoad) :
    m.loadAddress p = m.page p.extended + (m.word regpZ).toNat := by
  unfold Machine.loadAddress
  cases p.extended with
  | true => rfl
  | false => exact (Nat.zero_add _).symm

/-- A load puts the byte at its address into its register. -/
theorem next_load (p : ProgramLoad) (h : m.Ready p.opcode) (hadmits : p.Admits m.instrWord) :
    m.step = .ok m.next ∧ m.next.memory (p.dest m.instrWord) = m.romByte (m.loadAddress p) := by
  rw [loadAddress_eq]
  cases p with
  | implied ext =>
    have hop : IsOp (ProgramLoad.implied ext).opcode m.instrWord := h.isOp
    have hrow : IsOp (0x95c8, 0xffef) m.instrWord := by
      cases ext <;> exact hop.coarsen rfl rfl
    have hlookup := lookup_elpm hrow
    generalize hd : (⟨0x95c8, 0xffef, instrElpm, false, false, false, false, false, false, false,
      false⟩ : InstrDecode) = d at hlookup
    have hext : (d.operands (m.decoded d)).instr.getLsbD 4 = ext := by
      rw [operands_instr, decoded_instr]
      cases ext <;> exact hop.getLsbD_eq (by decide)
    have hcode := exec_instrElpm (m := m.fetched d) hext
    subst hd
    obtain ⟨hstep, hmem, -, -, -⟩ := step_of_exec h hlookup rfl hcode rfl
    refine ⟨hstep, ?_⟩
    rw [hmem, setMem_memory]
    exact Function.update_self 0 _ _
  | register ext postinc =>
    have hop : IsOp (ProgramLoad.register ext postinc).opcode m.instrWord := h.isOp
    have hrow : IsOp (0x9004, 0xfe0c) m.instrWord := by
      cases ext <;> cases postinc <;> exact hop.coarsen rfl rfl
    have hlookup := lookup_elpmz hrow
    generalize hd : (⟨0x9004, 0xfe0c, instrElpmz, true, false, false, false, false, false, false,
      false⟩ : InstrDecode) = d at hlookup
    have hfield : (d.operands (m.decoded d)).ddddd.toNat = (fieldD m.instrWord).toNat := by
      subst hd
      exact operands_ddddd84_toNat _ rfl rfl rfl
    have hext : (d.operands (m.decoded d)).instr.getLsbD 1 = ext := by
      rw [operands_instr, decoded_instr]
      cases ext <;> cases postinc <;> exact hop.getLsbD_eq (by decide)
    have hpostinc : (d.operands (m.decoded d)).instr.getLsbD 0 = postinc := by
      rw [operands_instr, decoded_instr]
      cases ext <;> cases postinc <;> exact hop.getLsbD_eq (by decide)
    have happart : postinc = true → (fieldD m.instrWord).toNat ≠ 30 ∧
        (fieldD m.instrWord).toNat ≠ 31 := fun hinc => by simpa using hadmits hinc
    have hcode := exec_instrElpmz (m := m.fetched d) hext hpostinc (by rwa [hfield])
    rw [hfield] at hcode
    subst hd
    obtain ⟨hstep, hmem, -, -, -⟩ := step_of_exec h hlookup rfl hcode (by cases postinc <;> rfl)
    have hdest : (ProgramLoad.register ext postinc).dest m.instrWord = (fieldD m.instrWord).toNat :=
      rfl
    refine ⟨hstep, ?_⟩
    rw [hmem, hdest]
    cases postinc with
    | false => exact Function.update_self (fieldD m.instrWord).toNat _ _
    | true =>
      obtain ⟨hlo, hhi⟩ := happart rfl
      rw [if_pos rfl, Machine.setWord, setMem_memory, Function.update_of_ne hhi, setMem_memory,
        Function.update_of_ne hlo, setMem_memory, Function.update_self]
      rfl

/-- The pointer after `i` loads: on the same page, `i` bytes further around it. -/
theorem Machine.Streams.pointer (h : m.Streams ext n) (hi : i ≤ n) :
    ((Machine.next^[i] m).word regpZ).toNat = ((m.word regpZ).toNat + i) % 2 ^ 16 ∧
    (Machine.next^[i] m).memory rampz = m.memory rampz ∧
    (Machine.next^[i] m).flash = m.flash ∧
    (Machine.next^[i] m).pc.toNat = m.pc.toNat + i := by
  induction i with
  | zero => exact ⟨(Nat.mod_eq_of_lt (m.word regpZ).isLt).symm, rfl, rfl, rfl⟩
  | succ i ih =>
    obtain ⟨hword, hramp, hflash, hpc⟩ := ih (by omega)
    have hready := h.ready i hi
    obtain ⟨-, hmem, hpc', hflash'⟩ := next_programInc hready (h.apart i hi)
    have hreg : rampz ≠ (fieldD (Machine.next^[i] m).instrWord).toNat := by
      have hlt := (fieldD (Machine.next^[i] m).instrWord).isLt
      unfold rampz
      omega
    rw [Function.iterate_succ_apply']
    refine ⟨?_, ?_, hflash'.trans hflash, ?_⟩
    · have hnext : (Machine.next^[i] m).next.word regpZ = (Machine.next^[i] m).word regpZ + 1 := by
        rw [Machine.word, hmem]
        exact setWord_word _ _
      rw [hnext, BitVec.toNat_add, hword]
      change (((m.word regpZ).toNat + i) % 2 ^ 16 + 1) % 2 ^ 16 = _
      omega
    · rw [hmem, Machine.setWord, setMem_memory, Function.update_of_ne (by decide), setMem_memory,
        Function.update_of_ne (by decide), setMem_memory, Function.update_of_ne hreg, hramp]
    · have hlt := hready.pc_lt
      unfold flashSize at hlt
      rw [hpc', BitVec.toNat_add, hpc]
      exact Nat.mod_eq_of_lt (show m.pc.toNat + i + 1 < 4294967296 by omega)

/-- What the `i`-th load does. -/
theorem Machine.Streams.load (h : m.Streams ext n) (hi : i < n) :
    (Machine.next^[i] m).step = .ok (Machine.next^[i + 1] m) ∧
    (Machine.next^[i + 1] m).memory (fieldD (Machine.next^[i] m).instrWord).toNat =
      m.romByte (m.page ext + ((m.word regpZ).toNat + i) % 2 ^ 16) := by
  obtain ⟨hword, hramp, hflash, -⟩ := h.pointer hi.le
  obtain ⟨hstep, hmem, -, -⟩ := next_programInc (h.ready i hi) (h.apart i hi)
  have hreg : (fieldD (Machine.next^[i] m).instrWord).toNat ≠ regpZ ∧
      (fieldD (Machine.next^[i] m).instrWord).toNat ≠ regpZ + 1 := by
    simpa using h.apart i hi
  rw [Function.iterate_succ_apply']
  refine ⟨hstep, ?_⟩
  rw [hmem, Machine.setWord, setMem_memory, Function.update_of_ne hreg.2, setMem_memory,
    Function.update_of_ne hreg.1, setMem_memory, Function.update_self, hword, page_congr hramp]
  simp only [Core.romByte, hflash]

/-- A stream of loads is no longer than the flash. -/
theorem Machine.Streams.length_le (h : m.Streams ext n) : n ≤ flashSize := by
  cases n with
  | zero => exact Nat.zero_le _
  | succ n =>
    have hlt := (h.ready n (Nat.lt_succ_self n)).pc_lt
    rw [(h.pointer (Nat.le_succ n)).2.2.2] at hlt
    omega

/-- Any number of ELPM Rd,Z+ in a row complete. They load the consecutive bytes from RAMPZ:Z on and
leave RAMPZ:Z behind them exactly when they stay below the end of the 64K page. LPM Rd,Z+
load the consecutive bytes of the first page and leave Z behind them. -/
theorem elpm_streams_iff :
    (∀ (m : Machine) (n : ℕ), m.Streams true n → m.rampzZ + n ≤ 2 ^ 24 →
      (∀ i < n, (Machine.next^[i] m).step = .ok (Machine.next^[i + 1] m)) ∧
      (m.Loads n (m.rampzZ + ·) ∧ (Machine.next^[n] m).rampzZ = (m.rampzZ + n) % 2 ^ 24 ↔
        m.rampzZ % 2 ^ 16 + n < 2 ^ 16)) ∧
    ∀ (m : Machine) (n : ℕ), m.Streams false n → (m.word regpZ).toNat + n ≤ 2 ^ 16 →
      (∀ i < n, (Machine.next^[i] m).step = .ok (Machine.next^[i + 1] m)) ∧
      m.Loads n ((m.word regpZ).toNat + ·) ∧
      ((Machine.next^[n] m).word regpZ).toNat = ((m.word regpZ).toNat + n) % 2 ^ 16 ∧
      (Machine.next^[n] m).memory rampz = m.memory rampz := by
  refine ⟨fun m n h hrange => ⟨fun i hi => (h.load hi).1, ?_⟩,
    fun m n h hrange => ⟨fun i hi => (h.load hi).1, fun i hi => ?_, ?_⟩⟩
  · obtain ⟨hword, hramp, -, -⟩ := h.pointer le_rfl
    have hz := (m.word regpZ).isLt
    have hpage : m.page true = (m.memory rampz).toNat * 2 ^ 16 := rfl
    have hramp' := (m.memory rampz).isLt
    have hend : (Machine.next^[n] m).rampzZ =
        m.page true + ((m.word regpZ).toNat + n) % 2 ^ 16 := by
      rw [Machine.rampzZ, page_congr hramp, hword]
    rw [hend]
    unfold Machine.rampzZ at hrange ⊢
    constructor
    · rintro ⟨-, hpointer⟩
      -- past the page the pointer could only be right after coming round the whole flash
      have hlength := h.length_le
      unfold flashSize at hlength
      omega
    · intro hbelow
      refine ⟨fun i hi => ?_, by omega⟩
      have haddr : m.page true + ((m.word regpZ).toNat + i) % 2 ^ 16 =
          m.page true + (m.word regpZ).toNat + i := by omega
      rw [(h.load hi).2, haddr]
  · have haddr : m.page false + ((m.word regpZ).toNat + i) % 2 ^ 16 =
        (m.word regpZ).toNat + i := by
      rw [show m.page false = 0 from rfl]
      omega
    rw [(h.load hi).2, haddr]
  · obtain ⟨hword, hramp, -, -⟩ := h.pointer le_rfl
    exact ⟨hword, hramp⟩

end Runs

section Page

attribute [local instance] idleDes

/-- RAMPZ:Z at `z` on page zero, and the image `ELPM r0, Z+; ELPM r1, Z+`. -/
def elpmMachine (z : Word) : Machine :=
  (Machine.powerOn fun a => if a = 0 then 0x9007 else 0x9017).setWord regpZ z

/-- The two bytes of the first word of flash. -/
theorem elpm_streams_two : (Machine.next^[1] (elpmMachine 0)).memory 0 = 0x07 ∧
    (Machine.next^[2] (elpmMachine 0)).memory 1 = 0x90 ∧
    (Machine.next^[2] (elpmMachine 0)).rampzZ = 2 := by
  have hstreams : (elpmMachine 0).Streams true 2 := by
    refine ⟨fun i hi => ?_, fun i hi => ?_⟩ <;> interval_cases i
    · exact ⟨rfl, by decide, by decide⟩
    · exact ⟨by decide, by decide, by decide⟩
    · decide
    · decide
  obtain ⟨hloads, hend⟩ :=
    ((elpm_streams_iff.1 (elpmMachine 0) 2 hstreams (by decide)).2).mpr (by decide)
  have hlow := hloads 0 (by decide)
  have hhigh := hloads 1 (by decide)
  rw [show (fieldD (Machine.next^[0] (elpmMachine 0)).instrWord).toNat = 0 by decide] at hlow
  rw [show (fieldD (Machine.next^[1] (elpmMachine 0)).instrWord).toNat = 1 by decide] at hhigh
  exact ⟨hlow.trans (by decide), hhigh.trans (by decide), hend.trans (by decide)⟩

/-- The last byte of a page: RAMPZ does not count up. -/
theorem elpm_streams_fails : ¬ ∀ (_ : DesLibrary) (m : Machine) (n : ℕ), m.Streams true n →
    m.rampzZ + n ≤ 2 ^ 24 →
    m.Loads n (m.rampzZ + ·) ∧ (Machine.next^[n] m).rampzZ = (m.rampzZ + n) % 2 ^ 24 := by
  intro hclaim
  have hstreams : (elpmMachine 0xffff).Streams true 1 := by
    refine ⟨fun i hi => ?_, fun i hi => ?_⟩ <;> interval_cases i
    · exact ⟨rfl, by decide, by decide⟩
    · decide
  have hend := (hclaim idleDes (elpmMachine 0xffff) 1 hstreams (by decide)).2
  exact absurd hend (by decide)

end Page

end AvrEmu
