import AvrEmu.Run

/-!
# Which cells an instruction touches

With the knobs that limit the data space set, most instructions stay inside it by
themselves. LDS, the exchange group and the stack take an address that no knob limits.
-/

namespace AvrEmu

open CellProgram

variable {m : Machine}

/-- The size of the data space the knobs allow, when `pcMemMax64k` is set. -/
def Core.dataLimit (s : Core) : ℕ := if s.pcMemMax256b then 0x100 else 0x10000

/-- The cells below a bound. -/
abbrev Below (n i : ℕ) : Prop := i < n

section Accessors

variable {n : ℕ} [hn : Fact (0x100 ≤ n)]

theorem below_of_low {i : ℕ} (hi : i < 0x100) : Below n i := Nat.lt_of_lt_of_le hi hn.out

instance (b : Byte) : Fact (Below n b.toNat) := ⟨below_of_low b.isLt⟩

instance : Fact (Below n sreg) := ⟨below_of_low (by decide)⟩

instance : Fact (Below n spHi) := ⟨below_of_low (by decide)⟩

instance : Fact (Below n spLo) := ⟨below_of_low (by decide)⟩

instance : Fact (Below n eind) := ⟨below_of_low (by decide)⟩

instance : Fact (Below n rampz) := ⟨below_of_low (by decide)⟩

instance : Fact (Below n 0) := ⟨below_of_low (by decide)⟩

instance (i : ℕ) [Fact (Below n i)] : (mem i).Within (Below n) := by unfold mem; infer_instance

instance (i : ℕ) (v : Byte) [Fact (Below n i)] : (setMem i v).Within (Below n) := by
  unfold setMem; infer_instance

instance (i : ℕ) (v : Byte) [Fact (Below n i)] : (andMem i v).Within (Below n) := by
  unfold andMem; infer_instance

instance (i : ℕ) (v : Byte) [Fact (Below n i)] : (orMem i v).Within (Below n) := by
  unfold orMem; infer_instance

instance (f : Core → Core) : (modifyCore f).Within (Below n) := by unfold modifyCore; infer_instance

instance : core.Within (Below n) := by unfold core; infer_instance

instance : skipNext.Within (Below n) := by unfold skipNext; infer_instance

instance (k : BitVec 32) : (addPc k).Within (Below n) := by unfold addPc; infer_instance

instance (v : BitVec 32) : (setPc v).Within (Below n) := by unfold setPc; infer_instance

instance (c : Bool) (t : String) : (assert c t).Within (Below n) := by unfold assert; infer_instance

instance (w : Word) : (illins w).Within (Below n) := by unfold illins; infer_instance

instance (c : Bool) (p : Exec Unit) [p.Within (Below n)] : (when c p).Within (Below n) := by
  unfold when; infer_instance

instance (w : Word) (max min : ℕ) : (bits w max min).Within (Below n) := by
  unfold bits; infer_instance

instance (v : Byte) : (sregHas v).Within (Below n) := by unfold sregHas; infer_instance

instance (c : Bool) : (carryIn c).Within (Below n) := by unfold carryIn; infer_instance

instance (c : Bool) (i : ℕ) (a : Word) [Fact (Below n i)] : (extend c i a).Within (Below n) := by
  unfold extend; infer_instance

instance (a : BitVec 32) : (romword a).Within (Below n) := by unfold romword; infer_instance

instance (idc : InstrDecodeCommon) : (absoluteTarget idc).Within (Below n) := by
  dsimp only [absoluteTarget]; infer_instance

instance (w : Word) : (yzMode w).Within (Below n) := by unfold yzMode; infer_instance

instance (i j : ℕ) [Fact (Below n i)] [Fact (Below n j)] : (move i j).Within (Below n) := by
  unfold move; infer_instance

/-- A word access of an even address below the limit stays below it; an odd one touches nothing. -/
private theorem even_within {α : Type} {a : BitVec 32} (ha : a.toNat < 0x100) (t : String)
    (p : Exec α) (hp : Fact (Below n a.toNat) → Fact (Below n (a.toNat + 1)) → p.Within (Below n)) :
    (assert (a &&& 1 == 0) t >>= fun _ => p).Within (Below n) := by
  by_cases heven : a.toNat % 2 = 0
  · have := hp ⟨below_of_low ha⟩ ⟨below_of_low (show a.toNat + 1 < 0x100 by omega)⟩
    infer_instance
  · have hodd : (a &&& 1 == 0) = false := by
      rw [beq_eq_false_iff_ne]
      exact fun h => heven ((Bits.and_one_eq_zero_iff (by decide) a).mp h)
    rw [hodd]
    exact inferInstanceAs ((CellProgram.fail _ : Exec α).Within (Below n))

theorem memword_within {a : BitVec 32} (ha : a.toNat < 0x100) : (memword a).Within (Below n) :=
  even_within ha _ _ fun _ _ => by infer_instance

theorem memwriteword_within {a : BitVec 32} (ha : a.toNat < 0x100) (w : Word) :
    (memwriteword a w).Within (Below n) :=
  even_within ha _ _ fun _ _ => by infer_instance

instance (b : Byte) : (memword (b.setWidth 32)).Within (Below n) :=
  memword_within (by rw [BitVec.toNat_setWidth_of_le (by decide)]; exact b.isLt)

instance (b : Byte) (w : Word) : (memwriteword (b.setWidth 32) w).Within (Below n) :=
  memwriteword_within (by rw [BitVec.toNat_setWidth_of_le (by decide)]; exact b.isLt) w

instance : (memword 30).Within (Below n) := memword_within (by decide)

instance (w : Word) : (memwriteword 30 w).Within (Below n) := memwriteword_within (by decide) w

instance (w : Word) : (memwriteword 0 w).Within (Below n) := memwriteword_within (by decide) w

theorem readBytes_within {i k : ℕ} (h : i + k ≤ 0x100) : (readBytes i k).Within (Below n) := by
  induction k generalizing i with
  | zero => unfold readBytes; infer_instance
  | succ k ih =>
    have : Fact (Below n i) := ⟨below_of_low (show i < 0x100 by omega)⟩
    have := ih (i := i + 1) (by omega)
    unfold readBytes; infer_instance

theorem writeBytes_within {i : ℕ} {bs : List Byte} (h : i + bs.length ≤ 0x100) :
    (writeBytes i bs).Within (Below n) := by
  induction bs generalizing i with
  | nil => unfold writeBytes; infer_instance
  | cons b bs ih =>
    rw [List.length_cons] at h
    have : Fact (Below n i) := ⟨below_of_low (show i < 0x100 by omega)⟩
    have := ih (i := i + 1) (by omega)
    unfold writeBytes; infer_instance

instance : (readBytes 8 8).Within (Below n) := readBytes_within (by decide)

instance : (readBytes 0 8).Within (Below n) := readBytes_within (by decide)

instance (v : Vector Byte 8) : (writeBytes 0 v.toList).Within (Below n) :=
  writeBytes_within (by simp)

end Accessors

section Ports

private theorem port_low (w : Word) :
    ioBase + ((bitField w 7 3 >>> 3).setWidth 8 : Byte).toNat < 0x100 := by
  have hlt := (w.extractLsb' 3 5).isLt
  rw [bitField_shift (by decide) (by decide), BitVec.setWidth_setWidth_of_le _ (by decide),
    BitVec.toNat_setWidth_of_le (by decide)]
  unfold ioBase
  omega

private theorem ioPort_low (w : Word) :
    ioBase + ((bitField w 10 9 >>> 5 ||| bitField w 3 0).setWidth 8 : Byte).toNat < 0x100 := by
  have hlt := (w.extractLsb' 9 2 ++ w.extractLsb' 0 4).isLt
  rw [bitField_join (show 10 < 16 by decide) (show 9 < 16 by decide) (show 4 ≤ 9 by decide) rfl
    (by decide), BitVec.setWidth_setWidth_of_le _ (by decide),
    BitVec.toNat_setWidth_of_le (by decide)]
  unfold ioBase
  omega

variable {n : ℕ} [hn : Fact (0x100 ≤ n)] (idc : InstrDecodeCommon)

private theorem bits_7_3 : bits idc.instr 7 3 = Pure.pure (bitField idc.instr 7 3) :=
  bits_eq (by decide) (by decide) _

instance : (instrCbisbi idc).Within (Below n) := by
  have : Fact (Below n _) := ⟨below_of_low (port_low idc.instr)⟩
  simp only [instrCbisbi, bits_7_3, CellProgram.pure_bind]
  infer_instance

instance : (instrSbics idc).Within (Below n) := by
  have : Fact (Below n _) := ⟨below_of_low (port_low idc.instr)⟩
  simp only [instrSbics, bits_7_3, CellProgram.pure_bind]
  infer_instance

private theorem ioPort_eq :
    ioPort idc.instr =
      Pure.pure ((bitField idc.instr 10 9 >>> 5 ||| bitField idc.instr 3 0).setWidth 8) := by
  simp only [ioPort, bits_eq (show 10 < 16 by decide) (show 9 ≤ 10 by decide),
    bits_eq (show 3 < 16 by decide) (show 0 ≤ 3 by decide), CellProgram.pure_bind]

instance : (instrIn idc).Within (Below n) := by
  have : Fact (Below n _) := ⟨below_of_low (ioPort_low idc.instr)⟩
  simp only [instrIn, ioPort_eq, CellProgram.pure_bind]
  infer_instance

instance : (instrOut idc).Within (Below n) := by
  have : Fact (Below n _) := ⟨below_of_low (ioPort_low idc.instr)⟩
  simp only [instrOut, ioPort_eq, CellProgram.pure_bind]
  infer_instance

end Ports

/-! ## Instructions that stay inside -/

/-- The code touches no cell beyond the limit. -/
def Confined {α : Type} (p : Exec α) (m : Machine) : Prop :=
  ∀ x ∈ touched p m, x.index < m.dataLimit

instance (s : Core) : Fact (0x100 ≤ s.dataLimit) := by
  unfold Core.dataLimit
  split <;> exact ⟨by decide⟩

theorem confined_of_within {α : Type} (p : Exec α) (m : Machine)
    [p.Within (Below m.dataLimit)] : Confined p m :=
  fun _ hx => Within.index_of_access (P := Below m.dataLimit) hx

/-- A sequence is confined when its parts are and the first one leaves the knobs alone. -/
theorem Confined.bind {α β : Type} {p : Exec α} {f : α → Exec β} [hp : p.Respects Eq]
    (hconf : Confined p m) (hf : ∀ a m', m'.toCore = m.toCore → Confined (f a) m') :
    Confined (p >>= f) m := by
  intro x hx
  rw [touched_bind] at hx
  rcases List.mem_append.mp hx with hx | hx
  · exact hconf x hx
  · cases hrun : exec p m with
    | error e =>
      rw [hrun] at hx
      exact absurd hx List.not_mem_nil
    | ok r =>
      rw [hrun] at hx
      have hcore : r.2.toCore = m.toCore := (rel_of_exec hp hrun).symm
      have hlt := hf r.1 r.2 hcore x hx
      rwa [hcore] at hlt

theorem Confined.core_bind {α : Type} {f : Core → Exec α} (hf : Confined (f m.toCore) m) :
    Confined (core >>= f) m := by
  intro x hx
  rw [touched_bind, touched_core, exec_core] at hx
  exact hf x hx

section Addresses

variable {s : Core} [h64k : Fact (s.pcMemMax64k = true)]

/-- The common path limits its address to what the knobs allow. -/
instance (a : BitVec 32) : Fact (Below s.dataLimit (if s.pcMemMax256b then a &&& 0xff
    else if s.pcMemMax64k then a &&& 0xffff else a).toNat) := by
  constructor
  rw [h64k.out]
  unfold Core.dataLimit Below
  cases s.pcMemMax256b with
  | false =>
    simp only [Bool.false_eq_true, if_false, if_true, BitVec.toNat_and]
    exact Nat.and_lt_two_pow _ (show _ < 2 ^ 16 by decide)
  | true =>
    simp only [if_true, BitVec.toNat_and]
    exact Nat.and_lt_two_pow _ (show _ < 2 ^ 8 by decide)

/-- So does STS. -/
instance (a : Word) : Fact (Below s.dataLimit (if s.pcMemMax64k && s.pcMemMax256b then
    a.setWidth 32 &&& 0xff else a.setWidth 32 : BitVec 32).toNat) := by
  constructor
  rw [h64k.out]
  unfold Core.dataLimit Below
  cases s.pcMemMax256b with
  | false =>
    simp only [Bool.true_and, Bool.false_eq_true, if_false]
    exact Bits.toNat_setWidth_lt (show 16 ≤ 16 by decide) a
  | true =>
    simp only [Bool.true_and, if_true, BitVec.toNat_and]
    exact Nat.and_lt_two_pow _ (show _ < 2 ^ 8 by decide)

end Addresses

private theorem extend_false (i : ℕ) (a : Word) :
    extend false i a = Pure.pure (a.setWidth 32) := rfl

theorem confined_instrSts (idc : InstrDecodeCommon) (h64k : m.pcMemMax64k = true) :
    Confined (instrSts idc) m := by
  have hfact : Fact (m.pcMemMax64k = true) := ⟨h64k⟩
  have hplain : (!m.pcMemMax64k) = false := congrArg not h64k
  apply Confined.core_bind
  simp only [hplain, extend_false, CellProgram.pure_bind]
  apply confined_of_within

set_option synthInstance.maxSize 512 in
theorem confined_instrLdstCommon {rp extaddr : ℕ} (hrp : rp < 0x100) (hext : extaddr < 0x100)
    (mode displace : Byte) (store : Bool) (idc : InstrDecodeCommon)
    (h64k : m.pcMemMax64k = true) :
    Confined (instrLdstCommon rp extaddr mode displace store idc) m := by
  have hptr : (BitVec.ofNat 32 rp).toNat < 0x100 := by
    rw [BitVec.toNat_ofNat]
    omega
  dsimp only [instrLdstCommon]
  refine (confined_of_within _ m).bind fun _ m₁ h₁ => ?_
  have hread := memword_within (n := m₁.dataLimit) hptr
  refine (confined_of_within _ m₁).bind fun p m₂ h₂ => ?_
  -- the knobs have not changed, so the address is limited as they were on entry
  have hfact : Fact (m₂.pcMemMax64k = true) := ⟨by rw [h₂, h₁]; exact h64k⟩
  have hplain : (!m₂.pcMemMax64k) = false := congrArg not hfact.out
  have hrp' : Fact (Below m₂.dataLimit rp) := ⟨below_of_low hrp⟩
  have hext' : Fact (Below m₂.dataLimit extaddr) := ⟨below_of_low hext⟩
  have hwrite (w : Word) := memwriteword_within (n := m₂.dataLimit) hptr w
  apply Confined.core_bind
  simp only [hplain, extend_false, CellProgram.pure_bind]
  apply confined_of_within

section Loads

variable (idc : InstrDecodeCommon) (h64k : m.pcMemMax64k = true)
include h64k

private theorem confined_yz (store : Bool) : Confined (do
    let y := (← bits idc.instr 3 3) != 0
    let md ← yzMode idc.instr
    (if y then instrLdstCommon regpY rampy md.1 md.2 store idc
      else instrLdstCommon regpZ rampz md.1 md.2 store idc)) m := by
  refine (confined_of_within _ m).bind fun y m₁ h₁ => ?_
  refine (confined_of_within _ m₁).bind fun md m₂ h₂ => ?_
  rw [← h₁, ← h₂] at h64k
  cases y != 0 with
  | false => exact confined_instrLdstCommon (by decide) (by decide) _ _ _ _ h64k
  | true => exact confined_instrLdstCommon (by decide) (by decide) _ _ _ _ h64k

theorem confined_instrLdyz : Confined (instrLdyz idc) m := confined_yz idc h64k false

theorem confined_instrStyz : Confined (instrStyz idc) m := confined_yz idc h64k true

theorem confined_instrLdx : Confined (instrLdx idc) m :=
  (confined_of_within _ m).bind fun _ _ h₁ =>
    confined_instrLdstCommon (by decide) (by decide) _ _ _ _ (by rw [h₁]; exact h64k)

theorem confined_instrStx : Confined (instrStx idc) m :=
  (confined_of_within _ m).bind fun _ _ h₁ =>
    confined_instrLdstCommon (by decide) (by decide) _ _ _ _ (by rw [h₁]; exact h64k)

end Loads

/-! ## Addresses that no knob limits -/

/-- The instructions with an address that no knob limits. -/
def Op.unlimited : List (Word × Word) :=
  [Op.lds, Op.xch, Op.push, Op.pop, Op.call, Op.rcalljmp, Op.eicalljump, Op.ret, Op.reti]

/-- The addresses that the instruction at `pc` takes as they come: the operand of LDS, Z in the
exchange group and the slots of the stack. -/
def Machine.unlimited (m : Machine) : List ℕ :=
  let w := m.instrWord
  if IsOp Op.lds w then [m.nextWord.toNat]
  else if IsOp Op.xch w then [(m.word 30).toNat]
  else if IsOp Op.push w then [m.sp.toNat]
  else if IsOp Op.pop w then [m.sp.toNat + 1]
  else if IsOp Op.call w then m.pushSlots
  else if IsOp Op.rcalljmp w then if w.getLsbD 12 then m.pushSlots else []
  else if IsOp Op.eicalljump w then
    if w.getLsbD 8 && (m.pc22 || !w.getLsbD 4) then m.pushSlots else []
  else if IsOp Op.ret w ∨ IsOp Op.reti w then m.popSlots
  else []

section Touched

variable (idc : InstrDecodeCommon)

theorem touched_instrLds (h64k : m.pcMemMax64k = true) : touched (instrLds idc) m =
    [.read idc.immU16.toNat, .write idc.ddddd.toNat] := by
  have hplain : (!m.pcMemMax64k) = false := congrArg not h64k
  have haddr : (idc.immU16.setWidth 32).toNat = idc.immU16.toNat :=
    BitVec.toNat_setWidth_of_le (by decide)
  have hlt : idc.immU16.toNat < memorySize := word_lt_memorySize _
  simp only [instrLds, touched_bind, touched_core, exec_core, hplain, extend_false, touched_pure,
    exec_pure, haddr, touched_mem hlt, exec_mem hlt, touched_setMem (byte_lt_memorySize _),
    exec_setMem (byte_lt_memorySize _), List.nil_append, List.cons_append]

theorem touched_instrXch : touched (instrXch idc) m =
    [.read idc.ddddd.toNat, .read 30, .read 31, .read (m.word 30).toNat,
      .write (m.word 30).toNat, .write idc.ddddd.toNat] := by
  simp [instrXch]

theorem touched_instrPush : touched (instrPush idc) m =
    .read idc.ddddd.toNat :: touched (pushbyte (m.memory idc.ddddd.toNat)) m := by
  simp [instrPush]

theorem touched_instrPop : touched (instrPop idc) m =
    touched popbyte m ++ [.write idc.ddddd.toNat] := by
  simp [instrPop]

theorem touched_absoluteTarget : touched (absoluteTarget idc) m = [] := by
  cases h : m.pc22 <;> simp [absoluteTarget, h]

theorem touched_instrCall : touched (instrCall idc) m = touched (pushReturn (m.pcStart + 2)) m := by
  simp [instrCall, touched_absoluteTarget, exec_absoluteTarget, setPc]

theorem touched_instrRcalljmp : touched (instrRcalljmp idc) m =
    if idc.instr.getLsbD 12 then touched (pushReturn (m.pcStart + 1)) m else [] := by
  simp only [instrRcalljmp, touched_bind,
    exec_bits (show 12 < 16 by decide) (show 12 ≤ 12 by decide),
    exec_bits (show 11 < 16 by decide) (show 0 ≤ 11 by decide),
    touched_bits (show 12 < 16 by decide) (show 12 ≤ 12 by decide),
    touched_bits (show 11 < 16 by decide) (show 0 ≤ 11 by decide),
    exec_core, touched_core, touched_when, exec_when, exec_pushReturn, addPc, exec_modifyCore,
    touched_modifyCore, touched_pure, bitField_single_ne_zero (show 12 < 16 by decide)]
  cases idc.instr.getLsbD 12 <;> simp

theorem touched_instrEicalljump : touched (instrEicalljump idc) m = [.read 30, .read 31] ++
    if idc.instr.getLsbD 4 && !m.pc22 then [] else
      (if idc.instr.getLsbD 4 then [.read eind] else []) ++
      if idc.instr.getLsbD 8 then touched (pushReturn (m.pcStart + 1)) m else [] := by
  simp only [instrEicalljump, bits_eq (show 4 < 16 by decide) (show 4 ≤ 4 by decide),
    bits_eq (show 8 < 16 by decide) (show 8 ≤ 8 by decide), CellProgram.pure_bind,
    bitField_single_ne_zero (show 4 < 16 by decide),
    bitField_single_ne_zero (show 8 < 16 by decide), illins]
  cases idc.instr.getLsbD 4 <;> cases idc.instr.getLsbD 8 <;> cases hpc22 : m.pc22 <;>
    simp [extend, setPc, hpc22]

theorem touched_instrRet : touched (instrRet idc) m = touched instrRetCommon m := by
  simp [instrRet]

theorem touched_instrReti : touched (instrReti idc) m =
    touched instrRetCommon m ++ [.merge sreg (~~~sregI)] := by
  simp [instrReti]

variable {n : ℕ} (hn : 0x100 ≤ n)
include hn

/-- All accesses lie below a bound. -/
private theorem forall_pushReturn (pc2 : BitVec 32) :
    (∀ x ∈ touched (pushReturn pc2) m, x.index < n) ↔ ∀ a ∈ m.pushSlots, a < n := by
  have hhi : spHi < n := Nat.lt_of_lt_of_le (by decide) hn
  have hlo : spLo < n := Nat.lt_of_lt_of_le (by decide) hn
  cases hpc22 : m.pc22 <;>
    simp [pushReturn, hpc22, Machine.pushSlots, hhi, hlo]

private theorem forall_retCommon :
    (∀ x ∈ touched instrRetCommon m, x.index < n) ↔ ∀ a ∈ m.popSlots, a < n := by
  have hhi : spHi < n := Nat.lt_of_lt_of_le (by decide) hn
  have hlo : spLo < n := Nat.lt_of_lt_of_le (by decide) hn
  cases hpc22 : m.pc22 <;>
    simp [instrRetCommon, setPc, hpc22, Machine.popSlots, hhi, hlo]

end Touched

/-! ## The whole step -/

/-- A continuation below the bound does not matter for a sequence to stay below it. -/
private theorem forall_bind_iff {α β : Type} (p : Exec α) (f : α → Exec β) (n : ℕ)
    [hf : ∀ a, (f a).Within (Below n)] :
    (∀ x ∈ touched (p >>= f) m, x.index < n) ↔ ∀ x ∈ touched p m, x.index < n := by
  rw [touched_bind]
  refine ⟨fun h x hx => h x (List.mem_append_left _ hx), fun h x hx => ?_⟩
  rcases List.mem_append.mp hx with hx | hx
  · exact h x hx
  · cases hrun : exec p m with
    | error e =>
      rw [hrun] at hx
      exact absurd hx List.not_mem_nil
    | ok r =>
      rw [hrun] at hx
      exact Within.index_of_access (P := Below n) hx

variable [DesLibrary]

set_option synthInstance.maxSize 512 in
private theorem code_confined : ∀ d ∈ avrInstr,
    (∀ (idc : InstrDecodeCommon) (m : Machine), m.pcMemMax64k = true → Confined (d.code idc) m) ∨
      d.opcode ∈ Op.unlimited := by
  simp only [avrInstr, List.forall_mem_cons]
  and_intros
  all_goals first
    | refine Or.inr (by simp only [InstrDecode.opcode]; decide)
    | refine Or.inl fun idc m h64k => ?_
    | exact fun _ h => absurd h List.not_mem_nil
  all_goals with_reducible first
    | exact confined_instrSts idc h64k
    | exact confined_instrLdyz idc h64k
    | exact confined_instrStyz idc h64k
    | exact confined_instrLdx idc h64k
    | exact confined_instrStx idc h64k
    | exact confined_of_within _ m
    | refine @confined_of_within _ _ m ?_
  all_goals
    dsimp only [instrNop, instrMovw, instrMuls, instrMulsu, instrFmul, instrFmulsu, instrCpc,
      instrAdc, instrAnd, instrXor, instrOr, instrMov, instrCpi, instrOri, instrAndi, instrElpmz,
      instrCom, instrNeg, instrSwap, instrInc, instrAsr, instrLsr, instrRor, instrBclrset,
      instrDec, instrDes, instrUnimp, instrElpm, instrAdiw, instrSbiw, instrMul, instrLdi, instrBld,
      instrBst, instrCpse, instrJmp, instrBrb, instrSbrcs]
    infer_instance

private theorem row_eq {d r : InstrDecode} (hfetch : m.Fetches d)
    (hr : lookupInstr m.instrWord = some r) : d = r :=
  Option.some.inj (hfetch.lookup_eq.symm.trans hr)

/-- The code of an instruction is confined exactly when the addresses it takes as they come
lie below the limit. -/
theorem confined_code_iff {d : InstrDecode} (hfetch : m.Fetches d) (h64k : m.pcMemMax64k = true) :
    Confined (d.code (d.operands (m.decoded d))) (m.fetched d) ↔
      ∀ a ∈ m.unlimited, a < m.dataLimit := by
  have hlimit : 0x100 ≤ m.dataLimit := Fact.out
  have hlow {i : ℕ} (hi : i < 0x100) : i < m.dataLimit := Nat.lt_of_lt_of_le hi hlimit
  have hbyte (b : Byte) : b.toNat < m.dataLimit := hlow b.isLt
  obtain ⟨hd, hmatch⟩ := lookupInstr_spec hfetch.lookup_eq
  change
    (∀ x ∈ touched (d.code (d.operands (m.decoded d))) (m.fetched d), x.index < m.dataLimit) ↔ _
  have hconf := code_confined d hd
  -- what the code can see of the decoded instruction and of the machine
  have hinstr : (d.operands (m.decoded d)).instr = m.instrWord := rfl
  have himm : (d.operands (m.decoded d)).immU16 = if d.imm16 then m.nextWord else 0 := rfl
  have h64k' : (m.fetched d).pcMemMax64k = true := h64k
  have hpc22 : (m.fetched d).pc22 = m.pc22 := rfl
  have hsame : (m.fetched d).dataLimit = m.dataLimit := rfl
  have hword : (m.fetched d).word 30 = m.word 30 := rfl
  have hsp : (m.fetched d).sp = m.sp := rfl
  have hpush : (m.fetched d).pushSlots = m.pushSlots := rfl
  have hpop : (m.fetched d).popSlots = m.popSlots := rfl
  generalize d.operands (m.decoded d) = idc at hinstr himm ⊢
  generalize m.fetched d = n at h64k' hpc22 hsame hword hsp hpush hpop ⊢
  have hreturn (pc2 : BitVec 32) :
      (∀ x ∈ touched (pushReturn pc2) n, x.index < m.dataLimit) ↔
        ∀ a ∈ m.pushSlots, a < m.dataLimit := by
    rw [forall_pushReturn hlimit, hpush]
  have hret : (∀ x ∈ touched instrRetCommon n, x.index < m.dataLimit) ↔
      ∀ a ∈ m.popSlots, a < m.dataLimit := by
    rw [forall_retCommon hlimit, hpop]
  by_cases hlds : IsOp Op.lds m.instrWord
  · obtain rfl := row_eq hfetch (lookup_lds hlds)
    simp [touched_instrLds _ h64k', himm, Machine.unlimited, hlds, hbyte]
  by_cases hxch : IsOp Op.xch m.instrWord
  · obtain rfl := row_eq hfetch (lookup_xch hxch)
    simp [touched_instrXch, hword, Machine.unlimited, hlds, hxch, hbyte, hlow]
  by_cases hpush : IsOp Op.push m.instrWord
  · obtain rfl := row_eq hfetch (lookup_push hpush)
    simp [touched_instrPush, hsp, Machine.unlimited, hlds, hxch, hpush, hbyte, hlow]
  by_cases hpop : IsOp Op.pop m.instrWord
  · obtain rfl := row_eq hfetch (lookup_pop hpop)
    simp [touched_instrPop, hsp, Machine.unlimited, hlds, hxch, hpush, hpop, hbyte,
      hlow]
  by_cases hcall : IsOp Op.call m.instrWord
  · obtain rfl := row_eq hfetch (lookup_call hcall)
    simp only [touched_instrCall, hreturn, Machine.unlimited, hlds, hxch, hpush, hpop, hcall,
      if_true, if_false]
  by_cases hrcall : IsOp Op.rcalljmp m.instrWord
  · obtain rfl := row_eq hfetch (lookup_rcalljmp hrcall)
    simp only [touched_instrRcalljmp, hinstr, Machine.unlimited, hlds, hxch, hpush, hpop, hcall,
      hrcall, if_true, if_false]
    cases m.instrWord.getLsbD 12 with
    | false => simp
    | true => exact hreturn _
  by_cases hind : IsOp Op.eicalljump m.instrWord
  · obtain rfl := row_eq hfetch (lookup_eicalljump hind)
    simp only [touched_instrEicalljump, hinstr, hpc22, Machine.unlimited, hlds, hxch, hpush, hpop,
      hcall, hrcall, hind, if_true, if_false]
    cases m.instrWord.getLsbD 8 <;> cases m.instrWord.getLsbD 4 <;> cases m.pc22 <;>
      simp [hlow, hreturn]
  by_cases hrets : IsOp Op.ret m.instrWord ∨ IsOp Op.reti m.instrWord
  · have hcode : (∀ x ∈ touched (d.code idc) n, x.index < m.dataLimit) ↔
        ∀ x ∈ touched instrRetCommon n, x.index < m.dataLimit := by
      rcases hrets with hop | hop
      · obtain rfl := row_eq hfetch (lookup_ret hop)
        simp only [touched_instrRet]
      · obtain rfl := row_eq hfetch (lookup_reti hop)
        simp [touched_instrReti, hlow, or_imp, forall_and]
    simp only [hcode, hret, Machine.unlimited, hlds, hxch, hpush, hpop, hcall, hrcall, hind, hrets,
      if_true, if_false]
  have hplain : d.opcode ∉ Op.unlimited := by
    intro hmem
    have hop : IsOp d.opcode m.instrWord := hmatch
    simp only [Op.unlimited, List.mem_cons, List.not_mem_nil, or_false] at hmem
    rcases hmem with h | h | h | h | h | h | h | h | h <;> rw [h] at hop
    · exact hlds hop
    · exact hxch hop
    · exact hpush hop
    · exact hpop hop
    · exact hcall hop
    · exact hrcall hop
    · exact hind hop
    · exact hrets (Or.inl hop)
    · exact hrets (Or.inr hop)
  have hempty : m.unlimited = [] := by
    simp only [Machine.unlimited, hlds, hxch, hpush, hpop, hcall, hrcall, hind, hrets, if_false]
  rw [hempty, ← hsame]
  exact iff_of_true (hconf.resolve_right hplain idc n h64k')
    (fun a ha => absurd ha List.not_mem_nil)

/-! ## What a step touches -/

@[simp] theorem touched_fetch : touched fetch m = [] := by
  by_cases hpc : m.pc.toNat < flashSize
  · cases hlookup : lookupInstr (m.flash m.pc.toNat) with
    | none => simp [fetch, hpc, hlookup]
    | some d =>
      cases himm : d.imm16 with
      | false => simp [fetch, hpc, hlookup, himm]
      | true =>
        simp only [fetch, touched_bind, touched_modifyCore, exec_modifyCore,
          touched_core, exec_core, touched_romword, exec_romword, mapCore_toCore, hpc, if_true,
          hlookup, himm, touched_pure, List.nil_append]
        split <;> rfl
  · simp [fetch, hpc]

section Rest

variable {n : ℕ} [Fact (0x100 ≤ n)]

instance (f : Flags) : (mergeFlags f).Within (Below n) := by unfold mergeFlags; infer_instance

instance romwords_within (addr : BitVec 32) (k : ℕ) : (romwords addr k).Within (Below n) := by
  induction k generalizing addr with
  | zero => unfold romwords; infer_instance
  | succ k ih => unfold romwords; infer_instance

instance : traceWords.Within (Below n) := by unfold traceWords; infer_instance

instance : passOver.Within (Below n) := by unfold passOver; infer_instance

instance : fetch.Within (Below n) where
  index_of_access {c s x} hx := by
    have hquiet : fetch.accesses c s = [] := touched_fetch (m := { toCore := s, memory := c })
    rw [hquiet] at hx
    exact absurd hx List.not_mem_nil

end Rest

/-- Apart from the code of its instruction a step touches low cells only. -/
theorem forall_touched_emulate1 (tracing : Bool) (m : Machine) (n : ℕ) [Fact (0x100 ≤ n)] :
    (∀ x ∈ touched (emulate1 tracing) m, x.index < n) ↔
      (m.skipNextInstruction = false → ∀ d, m.Fetches d →
        ∀ x ∈ touched (d.code (d.operands (m.decoded d))) (m.fetched d), x.index < n) := by
  cases hfetch : exec fetch m with
  | error e =>
    have hno (d : InstrDecode) : ¬ m.Fetches d := fun hd => by simp [hd.exec_fetch] at hfetch
    simp [emulate1, hfetch, hno]
  | ok r =>
    obtain ⟨⟨d, idc⟩, m₀⟩ := r
    obtain ⟨hd, rfl, rfl⟩ := fetches_of_exec_fetch hfetch
    have hsame : (m.fetched d).skipNextInstruction = m.skipNextInstruction := rfl
    have hunique (e : InstrDecode) (he : m.Fetches e) : e = d := row_eq he hd.lookup_eq
    cases hskip : m.skipNextInstruction with
    | true =>
      rw [hskip] at hsame
      simp [emulate1, hfetch, hsame, passOver]
    | false =>
      rw [hskip] at hsame
      have hstep : touched (emulate1 tracing) m = touched (do
          let words ← execute tracing d (m.decoded d)
          let s ← core
          when s.skipNextInstruction do
            let _ ← fetch
            passOver
          Pure.pure words) (m.fetched d) := by
        simp [emulate1, hfetch, hsame]
      rw [hstep, forall_bind_iff, execute, decodeOperands_eq, CellProgram.pure_bind,
        forall_bind_iff]
      refine ⟨fun h _ e he => ?_, fun h => h rfl d hd⟩
      rw [hunique e he]
      exact h

/-- With the knobs set, a step touches no cell beyond the limit exactly when every address
that its instruction takes as it comes lies below the limit. -/
theorem data_access_confined_iff (tracing : Bool) (m : Machine) (h64k : m.pcMemMax64k = true) :
    (∀ x ∈ touched (emulate1 tracing) m, x.index < m.dataLimit) ↔
      (m.skipNextInstruction = false → (∃ d, m.Fetches d) →
        ∀ a ∈ m.unlimited, a < m.dataLimit) := by
  rw [forall_touched_emulate1]
  refine imp_congr_right fun _ => ⟨fun h hexists => ?_, fun h d hd => ?_⟩
  · obtain ⟨d, hd⟩ := hexists
    exact (confined_code_iff hd h64k).mp (h d hd)
  · exact (confined_code_iff hd h64k).mpr (h ⟨d, hd⟩)

/-- The 256-byte configuration with an image of two words. -/
def smallMachine (word₀ word₁ : Word) : Machine :=
  (Machine.powerOn fun a => if a = 0 then word₀ else word₁).reset false true true

omit [DesLibrary] in
/-- `STS 0x0100, r0` stays inside, and so does the address list. -/
theorem data_access_confined_iff_sts :
    (∀ x ∈ touched (@emulate1 idleDes false) (smallMachine 0x9200 0x0100), x.index < 0x100) ↔
      ((smallMachine 0x9200 0x0100).skipNextInstruction = false →
        (∃ d, @Machine.Fetches idleDes (smallMachine 0x9200 0x0100) d) →
          ∀ a ∈ (smallMachine 0x9200 0x0100).unlimited, a < 0x100) :=
  @data_access_confined_iff idleDes false (smallMachine 0x9200 0x0100) rfl

omit [DesLibrary] in
/-- `LDS r0, 0x0100` reads beyond the 256-byte data space. -/
theorem lds_escapes : ¬ ∀ (_ : DesLibrary) (tracing : Bool) (m : Machine),
    m.pcMemMax64k = true → ∀ x ∈ touched (emulate1 tracing) m, x.index < m.dataLimit := by
  intro hclaim
  have hread : .read 0x100 ∈ touched (@emulate1 idleDes false) (smallMachine 0x9000 0x0100) := by
    decide
  have hlt := hclaim idleDes false (smallMachine 0x9000 0x0100) rfl _ hread
  exact absurd hlt (by decide)

end AvrEmu
