import AvrEmu.Opcodes

/-!
# What the code of an instruction can change

Only the control flow instructions assign variables other than data memory, and even
they assign no more than `pc` and the skip flag.
-/

namespace AvrEmu

open CellProgram

/-- Two states of the other variables that differ in `pc` and the skip flag at most. -/
def SameFrame (s t : Core) : Prop :=
  t = { s with pc := t.pc, skipNextInstruction := t.skipNextInstruction }

instance : IsPreorder Core SameFrame where
  refl _ := rfl
  trans a b c hab hbc := by
    unfold SameFrame at *
    rw [hbc, hab]

/-- Code that respects a relation takes a machine along it. -/
theorem rel_of_exec {R : Core → Core → Prop} {α : Type} {p : Exec α} {m m' : Machine} {a : α}
    (hp : p.Respects R) (h : exec p m = .ok (a, m')) : R m.toCore m'.toCore := by
  unfold exec at h
  cases hrun : p.run m.memory m.toCore with
  | error e => simp [hrun] at h
  | ok r =>
    simp only [hrun, Except.ok.injEq, Prod.mk.injEq] at h
    rw [← h.2]
    exact hp.rel_of_run hrun

section Accessors

variable {R : Core → Core → Prop} [IsPreorder Core R]

instance (i : ℕ) : (mem i).Respects R := by unfold mem; infer_instance

instance (i : ℕ) (v : Byte) : (setMem i v).Respects R := by unfold setMem; infer_instance

instance (i : ℕ) (v : Byte) : (andMem i v).Respects R := by unfold andMem; infer_instance

instance (i : ℕ) (v : Byte) : (orMem i v).Respects R := by unfold orMem; infer_instance

instance : core.Respects R where
  rel_of_run hrun := by
    cases hrun
    exact refl_of R _

instance (c : Bool) (t : String) : (assert c t).Respects R := by unfold assert; infer_instance

instance (w : Word) : (illins w).Respects R := by unfold illins; infer_instance

instance (c : Bool) (p : Exec Unit) [p.Respects R] : (when c p).Respects R := by
  unfold when; infer_instance

instance (w : Word) (max min : ℕ) : (bits w max min).Respects R := by unfold bits; infer_instance

instance : getsp.Respects R := by unfold getsp; infer_instance

instance (sp : Word) : (setsp sp).Respects R := by unfold setsp; infer_instance

instance (a : BitVec 32) : (memword a).Respects R := by unfold memword; infer_instance

instance (a : BitVec 32) (w : Word) : (memwriteword a w).Respects R := by
  unfold memwriteword; infer_instance

instance (a : BitVec 32) : (romword a).Respects R := by unfold romword; infer_instance

instance : popbyte.Respects R := by unfold popbyte; infer_instance

instance (v : Byte) : (pushbyte v).Respects R := by unfold pushbyte; infer_instance

instance (v : Byte) : (sregHas v).Respects R := by unfold sregHas; infer_instance

instance (c : Bool) : (carryIn c).Respects R := by unfold carryIn; infer_instance

instance (c : Bool) (i : ℕ) (a : Word) : (extend c i a).Respects R := by
  unfold extend; infer_instance

instance (i j : ℕ) : (move i j).Respects R := by unfold move; infer_instance

instance (w : Word) : (ioPort w).Respects R := by unfold ioPort; infer_instance

instance (w : Word) : (yzMode w).Respects R := by unfold yzMode; infer_instance

instance readBytes_respects (i n : ℕ) : (readBytes i n).Respects R := by
  induction n generalizing i with
  | zero => unfold readBytes; infer_instance
  | succ n ih => unfold readBytes; infer_instance

instance writeBytes_respects (i : ℕ) (bs : List Byte) : (writeBytes i bs).Respects R := by
  induction bs generalizing i with
  | nil => unfold writeBytes; infer_instance
  | cons b bs ih => unfold writeBytes; infer_instance

set_option synthInstance.maxSize 512 in
instance (rp extaddr : ℕ) (mode displace : Byte) (store : Bool) (idc : InstrDecodeCommon) :
    (instrLdstCommon rp extaddr mode displace store idc).Respects R := by
  dsimp only [instrLdstCommon]; infer_instance

end Accessors

/-! ## Control flow -/

theorem modifyCore_respects {R : Core → Core → Prop} {f : Core → Core} (hf : ∀ s, R s (f s)) :
    (modifyCore f).Respects R where
  rel_of_run hrun := by
    cases hrun
    exact hf _

instance (v : BitVec 32) : (setPc v).Respects SameFrame := modifyCore_respects fun _ => rfl

instance (k : BitVec 32) : (addPc k).Respects SameFrame := modifyCore_respects fun _ => rfl

instance : skipNext.Respects SameFrame := modifyCore_respects fun _ => rfl

instance (v : BitVec 32) : (pushReturn v).Respects SameFrame := by
  unfold pushReturn; infer_instance

instance (idc : InstrDecodeCommon) : (absoluteTarget idc).Respects SameFrame := by
  dsimp only [absoluteTarget]; infer_instance

instance : instrRetCommon.Respects SameFrame := by
  dsimp only [instrRetCommon]; infer_instance

/-- The instructions that assign `pc` or ask for a skip. -/
def Op.control : List (Word × Word) :=
  [Op.cpse, Op.jmp, Op.call, Op.ret, Op.eicalljump, Op.reti, Op.sbics, Op.rcalljmp, Op.brb,
    Op.sbrcs]

variable [DesLibrary]

set_option synthInstance.maxSize 512 in
private theorem code_respects : ∀ d ∈ avrInstr, (∀ idc, (d.code idc).Respects Eq) ∨
    d.opcode ∈ Op.control ∧ ∀ idc, (d.code idc).Respects SameFrame := by
  simp only [avrInstr, List.forall_mem_cons]
  and_intros
  all_goals first
    | refine Or.inr ⟨by simp only [InstrDecode.opcode]; decide, fun idc => ?_⟩
    | refine Or.inl fun idc => ?_
    | exact fun _ h => absurd h List.not_mem_nil
  all_goals
    dsimp only [instrNop, instrMovw, instrMuls, instrMulsu, instrFmul, instrFmulsu, instrCpc,
      instrAdc, instrAnd, instrXor, instrOr, instrMov, instrCpi, instrOri, instrAndi, instrLdyz,
      instrStyz, instrLds, instrElpmz, instrLdx, instrPop, instrSts, instrXch, instrStx,
      instrPush, instrCom, instrNeg, instrSwap, instrInc, instrAsr, instrLsr, instrRor,
      instrBclrset, instrDec, instrDes, instrUnimp, instrElpm, instrAdiw, instrSbiw,
      instrCbisbi, instrMul, instrIn, instrOut, instrLdi, instrBld, instrBst, instrCpse, instrJmp,
      instrCall, instrRet, instrEicalljump, instrReti, instrSbics, instrRcalljmp, instrBrb,
      instrSbrcs]
    infer_instance

/-- The instructions that are not control flow leave every variable but data memory alone. -/
theorem respects_eq {d : InstrDecode} (hd : d ∈ avrInstr) (hop : d.opcode ∉ Op.control)
    (idc : InstrDecodeCommon) : (d.code idc).Respects Eq := by
  rcases code_respects d hd with h | h
  · exact h idc
  · exact absurd h.1 hop

/-- No instruction assigns a variable outside data memory except `pc` and the skip flag. -/
theorem respects_sameFrame {d : InstrDecode} (hd : d ∈ avrInstr) (idc : InstrDecodeCommon) :
    (d.code idc).Respects SameFrame := by
  rcases code_respects d hd with h | h
  · exact ⟨fun hrun => (h idc).rel_of_run hrun ▸ refl_of SameFrame _⟩
  · exact h.2 idc

end AvrEmu
