import AvrEmu.Arithmetic
import AvrEmu.Lib.Obeys

/-!
# What every instruction keeps to

The accessors of the header check their arguments, and each handler stays on the side of the
checks where nothing fires: it stops early only where the source means it to.
-/

namespace AvrEmu

open CellProgram

/-- The ends of a step that the source means to happen. -/
def Deliberate : Abort → Prop
  | .illins _ => True
  | .unhandled _ => True
  | .assertion _ => False
  | .wildMemory _ => False
  | .exit _ => False

instance (w : Word) : Fact (Deliberate (.illins w)) := ⟨trivial⟩

instance (w : Word) : Fact (Deliberate (.unhandled w)) := ⟨trivial⟩

section Running

variable {A : Access 8 → Prop} {α : Type} {Q : α → Prop} {p : Exec α} {m m' : Machine}

theorem touched_of_obeys (hp : p.Obeys A Deliberate Q) {x : Access 8} (hx : x ∈ touched p m) :
    A x :=
  hp.access_of_mem hx

theorem error_of_obeys (hp : p.Obeys A Deliberate Q) {e : Abort} (h : exec p m = .error e) :
    Deliberate e := by
  unfold exec at h
  cases hrun : p.run m.memory m.toCore with
  | error e' =>
    rw [hrun] at h
    cases h
    exact hp.error_of_run hrun
  | ok r => simp [hrun] at h

theorem value_of_obeys (hp : p.Obeys A Deliberate Q) {a : α} (h : exec p m = .ok (a, m')) :
    Q a := by
  unfold exec at h
  cases hrun : p.run m.memory m.toCore with
  | error e => simp [hrun] at h
  | ok r =>
    simp only [hrun, Except.ok.injEq, Prod.mk.injEq] at h
    rw [← h.1]
    exact hp.value_of_run hrun

/-- A cell that no store of the run names keeps its contents. -/
theorem memory_eq_of_touched {a : α} {i : ℕ} (h : exec p m = .ok (a, m'))
    (hfree : ∀ x ∈ touched p m, x.stores = true → x.index ≠ i) : m'.memory i = m.memory i := by
  unfold exec at h
  cases hrun : p.run m.memory m.toCore with
  | error e => simp [hrun] at h
  | ok r =>
    simp only [hrun, Except.ok.injEq, Prod.mk.injEq] at h
    rw [← h.2]
    exact CellProgram.run_cell_eq hrun hfree

end Running

/-! ## Indices -/

section Indices

/-- An address of 24 bits. -/
abbrev DataAddress : Type := {addr : BitVec 32 // addr.toNat < memorySize}

instance (addr : DataAddress) : Fact (addr.1.toNat < memorySize) := ⟨addr.2⟩

instance byte_lt (b : Byte) : Fact (b.toNat < memorySize) := ⟨byte_lt_memorySize b⟩

instance (b : Byte) : Fact (ioBase + b.toNat < memorySize) := ⟨io_lt_memorySize b⟩

instance word_lt (w : Word) : Fact (w.toNat < memorySize) := ⟨word_lt_memorySize w⟩

instance word_succ_lt (w : Word) : Fact (w.toNat + 1 < memorySize) := ⟨slot_lt_memorySize w⟩

instance : Fact (sreg < memorySize) := ⟨by decide⟩

instance : Fact (spHi < memorySize) := ⟨by decide⟩

instance : Fact (spLo < memorySize) := ⟨by decide⟩

instance : Fact (eind < memorySize) := ⟨by decide⟩

instance : Fact (rampz < memorySize) := ⟨by decide⟩

instance : Fact (rampd < memorySize) := ⟨by decide⟩

instance memorySize_pos : Fact (0 < memorySize) := ⟨by decide⟩

instance ite_lt (c : Prop) [Decidable c] (a b : BitVec 32) [ha : Fact (a.toNat < memorySize)]
    [hb : Fact (b.toNat < memorySize)] : Fact ((if c then a else b).toNat < memorySize) := by
  split <;> assumption

instance low24_lt (a : BitVec 32) : Fact ((a &&& 0xffffff).toNat < memorySize) := by
  rw [BitVec.toNat_and]
  exact ⟨Nat.and_lt_two_pow _ (show _ < 2 ^ 24 by decide)⟩

instance low16_lt (a : BitVec 32) : Fact ((a &&& 0xffff).toNat < memorySize) := by
  rw [BitVec.toNat_and]
  exact ⟨Nat.lt_of_lt_of_le (Nat.and_lt_two_pow _ (show _ < 2 ^ 16 by decide)) (by decide)⟩

instance low8_lt (a : BitVec 32) : Fact ((a &&& 0xff).toNat < memorySize) := by
  rw [BitVec.toNat_and]
  exact ⟨Nat.lt_of_lt_of_le (Nat.and_lt_two_pow _ (show _ < 2 ^ 8 by decide)) (by decide)⟩

/-- The word of flash that holds a byte. -/
instance half_lt (a : BitVec 32) [ha : Fact (a.toNat < memorySize)] :
    Fact ((a >>> 1).toNat < flashSize) := by
  have hlt := ha.out
  refine ⟨?_⟩
  rw [BitVec.toNat_ushiftRight, Nat.shiftRight_eq_div_pow]
  unfold memorySize at hlt
  unfold flashSize
  omega

end Indices

/-! ## Accessors -/

section Accessors

variable {A : Access 8 → Prop}

instance (i : ℕ) [hi : Fact (i < memorySize)] [Fact (A (.read i))] :
    (mem i).Obeys A Deliberate Anything := by
  rw [mem, if_pos hi.out]
  infer_instance

instance (i : ℕ) (v : Byte) [hi : Fact (i < memorySize)] [Fact (A (.write i))] :
    (setMem i v).Obeys A Deliberate Anything := by
  rw [setMem, if_pos hi.out]
  infer_instance

instance (i : ℕ) (v : Byte) [hi : Fact (i < memorySize)] [Fact (A (.merge i v))] :
    (andMem i v).Obeys A Deliberate Anything := by
  rw [andMem, if_pos hi.out]
  infer_instance

instance (i : ℕ) (v : Byte) [hi : Fact (i < memorySize)] [Fact (A (.merge i (~~~v)))] :
    (orMem i v).Obeys A Deliberate Anything := by
  rw [orMem, if_pos hi.out]
  infer_instance

instance : core.Obeys A Deliberate Anything := by unfold core; infer_instance

instance (f : Core → Core) : (modifyCore f).Obeys A Deliberate Anything := by
  unfold modifyCore; infer_instance

instance (v : BitVec 32) : (setPc v).Obeys A Deliberate Anything := by unfold setPc; infer_instance

instance (k : BitVec 32) : (addPc k).Obeys A Deliberate Anything := by unfold addPc; infer_instance

instance : skipNext.Obeys A Deliberate Anything := by unfold skipNext; infer_instance

instance (w : Word) : (illins w).Obeys A Deliberate Anything := by unfold illins; infer_instance

instance (c : Bool) (p : Exec Unit) [p.Obeys A Deliberate Anything] :
    (when c p).Obeys A Deliberate Anything := by
  unfold when; infer_instance

/-- A check that holds. -/
theorem obeys_assert {c : Bool} (hc : c = true) (t : String) :
    (assert c t).Obeys A Deliberate Anything := by
  rw [assert, if_pos hc]
  infer_instance

instance (v : Byte) [Fact (A (.read sreg))] : (sregHas v).Obeys A Deliberate Anything := by
  unfold sregHas; infer_instance

instance (c : Bool) [Fact (A (.read sreg))] : (carryIn c).Obeys A Deliberate Anything := by
  unfold carryIn; infer_instance

instance (i j : ℕ) [Fact (i < memorySize)] [Fact (j < memorySize)] [Fact (A (.read i))]
    [Fact (A (.write j))] : (move i j).Obeys A Deliberate Anything := by
  unfold move; infer_instance

instance [Fact (A (.read spHi))] [Fact (A (.read spLo))] : getsp.Obeys A Deliberate Anything := by
  unfold getsp; infer_instance

instance (sp : Word) [Fact (A (.write spHi))] [Fact (A (.write spLo))] :
    (setsp sp).Obeys A Deliberate Anything := by
  unfold setsp; infer_instance

theorem even_check {a : BitVec 32} (ha : a.toNat % 2 = 0) : (a &&& 1 == 0) = true :=
  beq_iff_eq.mpr ((Bits.and_one_eq_zero_iff (by decide) a).mpr ha)

instance (a : BitVec 32) [heven : Fact (a.toNat % 2 = 0)] [ha : Fact (a.toNat + 1 < memorySize)]
    [Fact (A (.read a.toNat))] [Fact (A (.read (a.toNat + 1)))] :
    (memword a).Obeys A Deliberate Anything := by
  have hlow : a.toNat < 2 ^ 24 := Nat.lt_of_succ_lt ha.out
  have hrange : (a &&& ~~~0xffffff == 0) = true :=
    beq_iff_eq.mpr ((Bits.and_not_low_eq_zero_iff 24 a).mpr hlow)
  have : Fact (a.toNat < memorySize) := ⟨hlow⟩
  have hassert₁ := obeys_assert (A := A) (even_check heven.out) "word load unaligned"
  have hassert₂ := obeys_assert (A := A) hrange "load outside 24-bit addressable data memory"
  unfold memword
  infer_instance

instance (a : BitVec 32) (v : Word) [heven : Fact (a.toNat % 2 = 0)]
    [ha : Fact (a.toNat + 1 < memorySize)] [Fact (A (.write a.toNat))]
    [Fact (A (.write (a.toNat + 1)))] : (memwriteword a v).Obeys A Deliberate Anything := by
  have : Fact (a.toNat < memorySize) := ⟨Nat.lt_of_succ_lt ha.out⟩
  have hassert := obeys_assert (A := A) (even_check heven.out) "word store unaligned"
  unfold memwriteword
  infer_instance

instance (a : BitVec 32) [ha : Fact (a.toNat < flashSize)] :
    (romword a).Obeys A Deliberate Anything := by
  have hrange : (a &&& ~~~0x7fffff == 0) = true :=
    beq_iff_eq.mpr ((Bits.and_not_low_eq_zero_iff 23 a).mpr ha.out)
  have hassert := obeys_assert (A := A) hrange
    "load outside 24-bit addressable program memory"
  unfold romword
  infer_instance

/-- A pointer with its page is an address of 24 bits. -/
theorem obeys_extend (ext : Bool) (page : ℕ) (a : Word) [Fact (page < memorySize)]
    [Fact (A (.read page))] :
    (extend ext page a).Obeys A Deliberate fun addr => addr.toNat < memorySize := by
  have hword : (a.setWidth 32 : BitVec 32).toNat < 2 ^ 16 :=
    Bits.toNat_setWidth_lt (show 16 ≤ 16 by decide) a
  cases ext with
  | false => exact obeys_pure (Nat.lt_of_lt_of_le hword (by decide))
  | true =>
    have hread : (mem page).Obeys A Deliberate Anything := inferInstance
    refine hread.bind fun r _ => obeys_pure ?_
    have hpage : (r.setWidth 32 <<< 16 : BitVec 32).toNat < 2 ^ 24 := by
      have hr := r.isLt
      rw [BitVec.toNat_shiftLeft, BitVec.toNat_setWidth, Nat.shiftLeft_eq]
      omega
    rw [BitVec.toNat_or]
    exact Nat.or_lt_two_pow (Nat.lt_of_lt_of_le hword (by decide)) hpage

instance {α : Type} {Q : α → Prop} (ext : Bool) (page : ℕ) (a : Word) (f : BitVec 32 → Exec α)
    [Fact (page < memorySize)] [Fact (A (.read page))]
    [hf : ∀ addr : DataAddress, (f addr.1).Obeys A Deliberate Q] :
    (extend ext page a >>= f).Obeys A Deliberate Q :=
  (obeys_extend ext page a).bind fun addr haddr => hf ⟨addr, haddr⟩

end Accessors

/-! ## Inside data memory -/

/-- An access to a cell of `memory[]`. -/
abbrev InMemory (x : Access 8) : Prop := x.index < memorySize

section Inside

variable (i : ℕ) [hi : Fact (i < memorySize)]

instance : Fact (InMemory (.read i)) := hi

instance : Fact (InMemory (.write i)) := hi

instance (keep : Byte) : Fact (InMemory (.merge i keep)) := hi

end Inside

instance : popbyte.Obeys InMemory Deliberate Anything := by unfold popbyte; infer_instance

instance (b : Byte) : (pushbyte b).Obeys InMemory Deliberate Anything := by
  unfold pushbyte; infer_instance

instance (v : BitVec 32) : (pushReturn v).Obeys InMemory Deliberate Anything := by
  unfold pushReturn; infer_instance

theorem obeys_readBytes {i n : ℕ} (h : i + n ≤ memorySize) :
    (readBytes i n).Obeys InMemory Deliberate Anything := by
  induction n generalizing i with
  | zero => unfold readBytes; infer_instance
  | succ n ih =>
    have : Fact (i < memorySize) := ⟨by omega⟩
    have := ih (i := i + 1) (by omega)
    unfold readBytes; infer_instance

theorem obeys_writeBytes {i : ℕ} {bs : List Byte} (h : i + bs.length ≤ memorySize) :
    (writeBytes i bs).Obeys InMemory Deliberate Anything := by
  induction bs generalizing i with
  | nil => unfold writeBytes; infer_instance
  | cons b bs ih =>
    rw [List.length_cons] at h
    have : Fact (i < memorySize) := ⟨by omega⟩
    have := ih (i := i + 1) (by omega)
    unfold writeBytes; infer_instance

instance : (readBytes 8 8).Obeys InMemory Deliberate Anything := obeys_readBytes (by decide)

instance : (readBytes 0 8).Obeys InMemory Deliberate Anything := obeys_readBytes (by decide)

instance (v : Vector Byte 8) : (writeBytes 0 v.toList).Obeys InMemory Deliberate Anything :=
  obeys_writeBytes (by simp)

/-! ## The instructions -/

instance zero_even : Fact ((0 : BitVec 32).toNat % 2 = 0) := ⟨rfl⟩

instance zero_lt : Fact ((0 : BitVec 32).toNat < memorySize) := ⟨by decide⟩

instance zReg_lt : Fact ((30 : BitVec 32).toNat < memorySize) := ⟨by decide⟩

instance setWidth_lt (b : Byte) : Fact ((b.setWidth 32 : BitVec 32).toNat < memorySize) := by
  have hb := b.isLt
  refine ⟨?_⟩
  rw [BitVec.toNat_setWidth_of_le (by decide)]
  unfold memorySize
  omega

instance zero_succ_lt : Fact ((0 : BitVec 32).toNat + 1 < memorySize) := ⟨by decide⟩

instance zReg_even : Fact ((30 : BitVec 32).toNat % 2 = 0) := ⟨rfl⟩

instance zReg_succ_lt : Fact ((30 : BitVec 32).toNat + 1 < memorySize) := ⟨by decide⟩

instance setWidth_succ_lt (b : Byte) :
    Fact ((b.setWidth 32 : BitVec 32).toNat + 1 < memorySize) := by
  have hb := b.isLt
  refine ⟨?_⟩
  rw [BitVec.toNat_setWidth_of_le (by decide)]
  unfold memorySize
  omega

/-- A register number times two. -/
instance double_even (b : Byte) : Fact (((b <<< 1).setWidth 32 : BitVec 32).toNat % 2 = 0) := by
  refine ⟨?_⟩
  rw [BitVec.toNat_setWidth_of_le (by decide), BitVec.toNat_shiftLeft, Nat.shiftLeft_eq]
  omega

/-- The registers of ADIW. -/
instance (w : Word) :
    Fact (((24#8 + (bitField w 5 4 >>> 3).setWidth 8).setWidth 32 : BitVec 32).toNat % 2 = 0) := by
  refine ⟨?_⟩
  rw [pairAddr_toNat]
  omega

/-- The registers of SBIW. -/
instance (w : Word) :
    Fact ((((bitField w 5 4 >>> 3).setWidth 8 + 24#8).setWidth 32 : BitVec 32).toNat % 2 = 0) := by
  rw [BitVec.add_comm]
  infer_instance

/-- An instruction that has marked nothing. -/
def Quiet (idc : InstrDecodeCommon) : Prop := idc.toFlags = {}

/-- An instruction whose marks stand for a status. -/
def Encoded (idc : InstrDecodeCommon) : Prop := ∃ st, idc.toFlags.Encodes st

instance (instr : Word) (d r k : Byte) (k16 : Word) : Fact (Quiet ⟨{}, instr, d, r, k, k16⟩) :=
  ⟨rfl⟩

section Loads

variable (idc : InstrDecodeCommon) [hquiet : Fact (Quiet idc)]

set_option synthInstance.maxSize 512 in
theorem obeys_ldstCommon {rp extaddr : ℕ} (hrp : rp < 0x100) (heven : rp % 2 = 0)
    (hext : extaddr < 0x100) (mode displace : Byte) (store : Bool) :
    (instrLdstCommon rp extaddr mode displace store idc).Obeys InMemory Deliberate Quiet := by
  have hptr : (BitVec.ofNat 32 rp).toNat = rp := by
    rw [BitVec.toNat_ofNat]
    omega
  have : Fact ((BitVec.ofNat 32 rp).toNat % 2 = 0) := ⟨by rw [hptr]; exact heven⟩
  have : Fact ((BitVec.ofNat 32 rp).toNat + 1 < memorySize) := ⟨by unfold memorySize; omega⟩
  have : Fact ((BitVec.ofNat 32 rp).toNat < memorySize) := ⟨by unfold memorySize; omega⟩
  have : Fact (rp < memorySize) := ⟨by unfold memorySize; omega⟩
  have : Fact (extaddr < memorySize) := ⟨by unfold memorySize; omega⟩
  dsimp only [instrLdstCommon]
  refine Obeys.bind (Q := Anything) inferInstance fun _ _ => ?_
  refine Obeys.bind (Q := Anything) inferInstance fun p _ => ?_
  refine Obeys.bind (Q := Anything) inferInstance fun s _ => ?_
  refine (obeys_extend _ _ _).bind fun addr haddr => ?_
  -- every mask after this keeps the address inside the 24 bits
  have : Fact (addr.toNat < memorySize) := ⟨haddr⟩
  infer_instance

private theorem obeys_yz (store : Bool) : (do
    let y := (← bits idc.instr 3 3) != 0
    let md ← yzMode idc.instr
    (if y then instrLdstCommon regpY rampy md.1 md.2 store idc
      else instrLdstCommon regpZ rampz md.1 md.2 store idc)).Obeys InMemory Deliberate Quiet := by
  have hy (mode displace : Byte) :
      (instrLdstCommon regpY rampy mode displace store idc).Obeys InMemory Deliberate Quiet :=
    obeys_ldstCommon idc (by decide) (by decide) (by decide) mode displace store
  have hz (mode displace : Byte) :
      (instrLdstCommon regpZ rampz mode displace store idc).Obeys InMemory Deliberate Quiet :=
    obeys_ldstCommon idc (by decide) (by decide) (by decide) mode displace store
  simp (disch := decide) only [yzMode, bits_eq, CellProgram.pure_bind]
  infer_instance

theorem obeys_instrLdyz : (instrLdyz idc).Obeys InMemory Deliberate Quiet := obeys_yz idc false

theorem obeys_instrStyz : (instrStyz idc).Obeys InMemory Deliberate Quiet := obeys_yz idc true

private theorem obeys_x (store : Bool) : (do
    let mode ← bits idc.instr 1 0
    instrLdstCommon regpX rampx (mode.setWidth 8) 0 store idc).Obeys InMemory Deliberate Quiet := by
  simp (disch := decide) only [bits_eq, CellProgram.pure_bind]
  exact obeys_ldstCommon idc (by decide) (by decide) (by decide) _ _ _

theorem obeys_instrLdx : (instrLdx idc).Obeys InMemory Deliberate Quiet := obeys_x idc false

theorem obeys_instrStx : (instrStx idc).Obeys InMemory Deliberate Quiet := obeys_x idc true

end Loads

/-! ## Marks -/

/-- An access that changes nothing but registers. -/
abbrev RegisterStore (x : Access 8) : Prop :=
  x.index < memorySize ∧ (x.stores = true → x.index < 32)

section Registers

variable (i : ℕ)

theorem register_inMemory {i : ℕ} (hi : i < 32) : i < memorySize :=
  Nat.lt_of_lt_of_le hi (by decide)

instance [hi : Fact (i < memorySize)] : Fact (RegisterStore (.read i)) :=
  ⟨hi.out, fun h => by cases h⟩

instance [hi : Fact (i < 32)] : Fact (RegisterStore (.write i)) :=
  ⟨register_inMemory hi.out, fun _ => hi.out⟩

instance [hi : Fact (i < 32)] (keep : Byte) : Fact (RegisterStore (.merge i keep)) :=
  ⟨register_inMemory hi.out, fun _ => hi.out⟩

instance zero_lt_registers : Fact ((0 : BitVec 32).toNat < 32) := ⟨by decide⟩

instance zero_succ_lt_registers : Fact ((0 : BitVec 32).toNat + 1 < 32) := ⟨by decide⟩

instance (w : Word) :
    Fact (((24#8 + (bitField w 5 4 >>> 3).setWidth 8).setWidth 32 : BitVec 32).toNat < 32) := by
  have hlt := pair_le w
  refine ⟨?_⟩
  rw [pairAddr_toNat]
  omega

instance (w : Word) :
    Fact (((24#8 + (bitField w 5 4 >>> 3).setWidth 8).setWidth 32 : BitVec 32).toNat + 1 < 32) := by
  have hlt := pair_le w
  refine ⟨?_⟩
  rw [pairAddr_toNat]
  omega

end Registers

section Marks

variable (instr : Word) (d r k : Byte) (k16 : Word)

instance (res rd : Byte) : Fact (Encoded ⟨asrFlags8 res rd {}, instr, d, r, k, k16⟩) :=
  ⟨_, asrFlags8_encodes res rd⟩

instance (res : Byte) : Fact (Encoded ⟨logicFlags8 res {}, instr, d, r, k, k16⟩) :=
  ⟨_, logicFlags8_encodes res⟩

instance (res : Word) : Fact (Encoded ⟨mulFlags16 res {}, instr, d, r, k, k16⟩) :=
  ⟨_, mulFlags16_encodes res⟩

instance (res : Word) : Fact (Encoded ⟨fmulFlags16 res {}, instr, d, r, k, k16⟩) :=
  ⟨_, fmulFlags16_encodes res⟩

instance (rd rr : Byte) (carry : Bool) : Fact (Encoded
    ⟨adcFlags8 (if carry then rd + rr + 1 else rd + rr) rd rr {}, instr, d, r, k, k16⟩) :=
  ⟨_, adcFlags8_encodes rd rr carry⟩

instance (rd rr : Byte) (carry : Bool) : Fact (Encoded
    ⟨subFlags8 (if carry then rd - rr - 1 else rd - rr) rd rr {}, instr, d, r, k, k16⟩) :=
  ⟨_, subFlags8_encodes rd rr carry⟩

theorem wordImm_lt_pow (w : Word) : (wordImm w).toNat < 64 :=
  Bits.toNat_setWidth_lt (Nat.le_refl 6) _

theorem obeys_instrAdiw :
    (instrAdiw ⟨{}, instr, d, r, k, k16⟩).Obeys RegisterStore Deliberate Encoded := by
  simp (disch := decide) only [instrAdiw, bits_eq, CellProgram.pure_bind, wordImm_eq]
  refine Obeys.bind (Q := Anything) inferInstance fun rd _ => ?_
  refine Obeys.bind (Q := Anything) inferInstance fun _ _ => ?_
  exact obeys_pure ⟨_, adiwFlags16_encodes rd (wordImm_lt_pow instr)⟩

theorem obeys_instrSbiw :
    (instrSbiw ⟨{}, instr, d, r, k, k16⟩).Obeys RegisterStore Deliberate Encoded := by
  have himm : ((wordImm instr).setWidth 8 : Byte).setWidth 16 = wordImm instr := by
    have hlt := wordImm_lt_pow instr
    apply BitVec.eq_of_toNat_eq
    rw [BitVec.toNat_setWidth_of_le (by decide), BitVec.toNat_setWidth]
    omega
  simp (disch := decide) only [instrSbiw, bits_eq, CellProgram.pure_bind, wordImm_eq, himm]
  rw [BitVec.add_comm _ 24#8]
  refine Obeys.bind (Q := Anything) inferInstance fun rd _ => ?_
  refine Obeys.bind (Q := Anything) inferInstance fun _ _ => ?_
  exact obeys_pure ⟨_, sbiw_encodes rd (wordImm_lt_pow instr)⟩

variable [hd : Fact (d.toNat < 32)]

theorem obeys_instrCpc :
    (instrCpc ⟨{}, instr, d, r, k, k16⟩).Obeys RegisterStore Deliberate Encoded := by
  simp (disch := decide) only [instrCpc, bits_eq, CellProgram.pure_bind]
  refine Obeys.bind (Q := Anything) inferInstance fun rr _ => ?_
  refine Obeys.bind (Q := Anything) inferInstance fun rd _ => ?_
  refine Obeys.bind (Q := Anything) inferInstance fun carry _ => ?_
  refine Obeys.bind (Q := Anything) inferInstance fun _ _ => ?_
  exact obeys_pure ⟨_, keepZ_encodes (subFlags8_encodes rd rr carry)⟩

theorem obeys_instrCom :
    (instrCom ⟨{}, instr, d, r, k, k16⟩).Obeys RegisterStore Deliberate Encoded := by
  dsimp only [instrCom]
  refine Obeys.bind (Q := Anything) inferInstance fun rd _ => ?_
  refine Obeys.bind (Q := Anything) inferInstance fun _ _ => ?_
  exact obeys_pure ⟨_, com_encodes (0xff - rd)⟩

theorem obeys_instrNeg :
    (instrNeg ⟨{}, instr, d, r, k, k16⟩).Obeys RegisterStore Deliberate Encoded := by
  dsimp only [instrNeg]
  refine Obeys.bind (Q := Anything) inferInstance fun rd _ => ?_
  refine Obeys.bind (Q := Anything) inferInstance fun _ _ => ?_
  exact obeys_pure ⟨_, neg_encodes rd⟩

theorem obeys_instrInc :
    (instrInc ⟨{}, instr, d, r, k, k16⟩).Obeys RegisterStore Deliberate Encoded := by
  dsimp only [instrInc]
  refine Obeys.bind (Q := Anything) inferInstance fun rd _ => ?_
  refine Obeys.bind (Q := Anything) inferInstance fun _ _ => ?_
  exact obeys_pure ⟨_, inc_encodes rd⟩

theorem obeys_instrDec :
    (instrDec ⟨{}, instr, d, r, k, k16⟩).Obeys RegisterStore Deliberate Encoded := by
  dsimp only [instrDec]
  refine Obeys.bind (Q := Anything) inferInstance fun rd _ => ?_
  refine Obeys.bind (Q := Anything) inferInstance fun _ _ => ?_
  exact obeys_pure ⟨_, dec_encodes rd⟩

end Marks

variable [DesLibrary]

set_option synthInstance.maxSize 512 in
private theorem code_contract : ∀ d ∈ avrInstr, ∀ idc : InstrDecodeCommon, Quiet idc →
    idc.ddddd.toNat < 32 → (d.code idc).Obeys InMemory Deliberate Quiet ∨
      (d.code idc).Obeys RegisterStore Deliberate Encoded ∨
      d = { pattern := 0x9408, mask := 0xff0f, code := instrBclrset, ddd64 := true } ∨
      d = { pattern := 0xfa00, mask := 0xfe08, code := instrBst,
            ddddd84 := true, rrr20 := true } := by
  simp only [avrInstr, List.forall_mem_cons]
  and_intros
  all_goals first
    | exact fun _ h => absurd h List.not_mem_nil
    | rintro ⟨f, instr, d, r, k, k16⟩ rfl hd
  all_goals
    have hd' : Fact (d.toNat < 32) := ⟨hd⟩
  all_goals with_reducible first
    | exact Or.inl (obeys_instrLdyz _)
    | exact Or.inl (obeys_instrStyz _)
    | exact Or.inl (obeys_instrLdx _)
    | exact Or.inl (obeys_instrStx _)
    | exact Or.inr (Or.inl (obeys_instrCpc _ _ _ _ _))
    | exact Or.inr (Or.inl (obeys_instrCom _ _ _ _ _))
    | exact Or.inr (Or.inl (obeys_instrNeg _ _ _ _ _))
    | exact Or.inr (Or.inl (obeys_instrInc _ _ _ _ _))
    | exact Or.inr (Or.inl (obeys_instrDec _ _ _ _ _))
    | exact Or.inr (Or.inl (obeys_instrAdiw _ _ _ _ _))
    | exact Or.inr (Or.inl (obeys_instrSbiw _ _ _ _ _))
    | exact Or.inr (Or.inr (Or.inl trivial))
    | exact Or.inr (Or.inr (Or.inr trivial))
    | skip
  all_goals
    simp (disch := decide) only [instrNop, instrMovw, instrMuls, instrMulsu, instrFmul, instrFmulsu,
      instrAdc, instrAnd, instrXor, instrOr, instrMov, instrCpi, instrOri, instrAndi, instrLds,
      instrElpmz, instrPop, instrSts, instrXch, instrPush, instrSwap, instrAsr, instrLsr, instrRor,
      instrDes, instrUnimp, instrElpm, instrCbisbi, instrMul, instrIn, instrOut, instrLdi, instrBld,
      instrCpse, instrJmp, instrCall, instrRet, instrRetCommon, instrEicalljump, instrReti,
      instrSbics, instrRcalljmp, instrBrb, instrSbrcs, bits_eq, CellProgram.pure_bind, ioPort,
      absoluteTarget]
    first
      | refine Or.inl ?_; infer_instance
      | refine Or.inr (Or.inl ?_); infer_instance

/-- What the code of the instruction at `pc` keeps to. -/
theorem fetched_contract {m : Machine} {d : InstrDecode} (h : m.Fetches d) :
    let p := d.code (d.operands (m.decoded d))
    p.Obeys InMemory Deliberate Quiet ∨ p.Obeys RegisterStore Deliberate Encoded ∨
      d = { pattern := 0x9408, mask := 0xff0f, code := instrBclrset, ddd64 := true } ∨
      d = { pattern := 0xfa00, mask := 0xfe08, code := instrBst, ddddd84 := true, rrr20 := true } :=
  code_contract d (lookupInstr_spec h.lookup_eq).1 _ rfl (operands_ddddd_lt _ rfl)

end AvrEmu
