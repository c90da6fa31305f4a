import AvrEmu.Contract

/-!
# Updates of the status register

Every instruction hands back two masks, which the step merges into the status register after the
instruction has run. The masks never overlap, they leave the bits I and T to the few instructions
made for them, and an instruction that stores to the status register itself marks nothing.
-/

namespace AvrEmu

open CellProgram

def Op.bclrset : Word × Word := (0x9408, 0xff0f)
def Op.bst : Word × Word := (0xfa00, 0xfe08)

/-- The bit number `sss` of BSET and BCLR. -/
def fieldFlag (w : Word) : BitVec 3 := w.extractLsb' 4 3

/-- The code of the instruction at `pc` stores to the status register. -/
def Machine.StoresStatus (m : Machine) (d : InstrDecode) : Prop :=
  ∃ x ∈ touched (d.code (d.operands (m.decoded d))) (m.fetched d), x.stores = true ∧ x.index = sreg

/-! ## One bit -/

/-- Masks that do not overlap can be merged in either order. -/
theorem merge_comm {clr set : Byte} (s : Byte) (h : clr &&& set = 0#8) :
    s &&& ~~~clr ||| set = (s ||| set) &&& ~~~clr := by
  apply BitVec.eq_of_getLsbD_eq
  intro i hi
  have hbit := congrArg (BitVec.getLsbD · i) h
  simp only [BitVec.getLsbD_and, BitVec.getLsbD_zero] at hbit
  simp only [BitVec.getLsbD_or, BitVec.getLsbD_and, BitVec.getLsbD_not, decide_eq_true hi,
    Bool.true_and]
  cases hclr : clr.getLsbD i <;> cases hset : set.getLsbD i <;> cases s.getLsbD i <;>
    simp_all

section OneBit

variable {i j : ℕ} (cond : Bool) (s : Byte)

theorem getLsbD_one_shiftLeft (hj : j < 8) : (1#8 <<< i).getLsbD j = decide (j = i) := by
  rw [BitVec.getLsbD_shiftLeft, BitVec.getLsbD_one, decide_eq_true hj, Bool.true_and,
    Bool.eq_iff_iff]
  simp only [Bool.and_eq_true, Bool.not_eq_true', decide_eq_true_eq, decide_eq_false_iff_not]
  omega

/-- The marks of a single bit do not overlap. -/
theorem mark_one_disjoint (flag : Byte) :
    (Flags.mark {} cond flag).clrflags &&& (Flags.mark {} cond flag).setflags = 0#8 := by
  cases cond with
  | false => exact BitVec.and_zero
  | true => exact BitVec.zero_and

/-- The other bits are left alone. -/
theorem mark_one_other (hj : j < 8) (hne : j ≠ i) :
    (s &&& ~~~(Flags.mark {} cond (1#8 <<< i)).clrflags |||
      (Flags.mark {} cond (1#8 <<< i)).setflags).getLsbD j = s.getLsbD j := by
  have hbit : (1#8 <<< i).getLsbD j = false := by rw [getLsbD_one_shiftLeft hj, decide_eq_false hne]
  cases cond with
  | false =>
    change (s &&& ~~~(0#8 ||| 1#8 <<< i) ||| 0#8).getLsbD j = _
    simp only [BitVec.getLsbD_or, BitVec.getLsbD_and, BitVec.getLsbD_not, BitVec.getLsbD_zero, hbit,
      decide_eq_true hj, Bool.or_false, Bool.not_false, Bool.and_true]
  | true =>
    change (s &&& ~~~0#8 ||| (0#8 ||| 1#8 <<< i)).getLsbD j = _
    simp only [BitVec.getLsbD_or, BitVec.getLsbD_and, BitVec.getLsbD_not, BitVec.getLsbD_zero, hbit,
      decide_eq_true hj, Bool.or_false, Bool.not_false, Bool.and_true]

end OneBit

/-! ## The marks of an instruction -/

section Updates

variable [DesLibrary] {m m₁ : Machine} {d : InstrDecode} {idc : InstrDecodeCommon}

omit [DesLibrary] in
theorem finish_sreg : (m₁.finish idc).memory sreg =
    m₁.memory sreg &&& ~~~idc.clrflags ||| idc.setflags := by
  simp [Machine.finish, Machine.mergeFlags, Machine.retire]

omit [DesLibrary] in
theorem sreg_eq_of_not_stores
    (hrun : exec (d.code (d.operands (m.decoded d))) (m.fetched d) = .ok (idc, m₁))
    (h : ¬ m.StoresStatus d) : m₁.memory sreg = m.memory sreg :=
  memory_eq_of_touched (m := m.fetched d) hrun fun x hx hstores hindex =>
    h ⟨x, hx, hstores, hindex⟩

omit [DesLibrary] in
/-- A bit number that the decoder has offset by sixteen. -/
theorem bit_toNat {b : Byte} {k : ℕ} (hb : b.toNat = 16 + k) (hk : k < 8) : (b - 16).toNat = k := by
  rw [BitVec.toNat_sub, hb]
  change (2 ^ 8 - 16 + (16 + k)) % 2 ^ 8 = k
  omega

/-- The marks of an instruction, by kind: none at all, a status without I and T, or one bit. -/
inductive MarkedBy (m : Machine) (d : InstrDecode) (f : Flags) : Prop
  | quiet : f = {} → MarkedBy m d f
  | status (st : Status) : ¬ m.StoresStatus d → f.Encodes st → MarkedBy m d f
  | bit (i : ℕ) (cond : Bool) : ¬ m.StoresStatus d → f = Flags.mark {} cond (1#8 <<< i) →
      (IsOp Op.bclrset m.instrWord ∧ i = (fieldFlag m.instrWord).toNat ∨
        IsOp Op.bst m.instrWord ∧ i = 6) → MarkedBy m d f

theorem markedBy (hfetch : m.Fetches d)
    (hrun : exec (d.code (d.operands (m.decoded d))) (m.fetched d) = .ok (idc, m₁)) :
    MarkedBy m d idc.toFlags := by
  have hop : IsOp d.opcode m.instrWord := (lookupInstr_spec hfetch.lookup_eq).2
  rcases fetched_contract hfetch with hquiet | hstatus | hd | hd
  · exact .quiet (value_of_obeys hquiet hrun)
  · obtain ⟨st, hst⟩ := value_of_obeys hstatus hrun
    refine .status st ?_ hst
    rintro ⟨x, hx, hstores, hindex⟩
    have hlt := (touched_of_obeys hstatus hx).2 hstores
    rw [hindex] at hlt
    exact absurd hlt (by decide)
  · have hcode : d.code = instrBclrset := by rw [hd]
    have hbit : ((d.operands (m.decoded d)).ddddd - 16).toNat = (fieldFlag m.instrWord).toNat :=
      bit_toNat (operands_ddd64_toNat (m.decoded d) (by rw [hd])) (fieldFlag m.instrWord).isLt
    have hquiet : ¬ m.StoresStatus d := by simp [Machine.StoresStatus, hcode, instrBclrset]
    rw [hd] at hop
    refine .bit _ (!(m.instrWord &&& 0x80 != 0)) hquiet ?_ (Or.inl ⟨hop, rfl⟩)
    simp only [hcode, instrBclrset, exec_pure, Except.ok.injEq, Prod.mk.injEq, operands_instr,
      decoded_instr, BitVec.shiftLeft_eq', hbit] at hrun
    rw [← hrun.1]
    cases m.instrWord &&& 0x80 != 0 <;> rfl
  · have hcode : d.code = instrBst := by rw [hd]
    have hquiet : ¬ m.StoresStatus d := by
      simp [Machine.StoresStatus, hcode, instrBst, Access.stores]
    rw [hd] at hop
    simp only [hcode, instrBst, exec_bind, exec_mem (byte_lt_memorySize _), exec_pure,
      Except.ok.injEq, Prod.mk.injEq] at hrun
    have hflags := congrArg InstrDecodeCommon.toFlags hrun.1
    exact .bit 6 _ hquiet hflags.symm (Or.inr ⟨hop, rfl⟩)

omit [DesLibrary] in
theorem MarkedBy.disjoint {f : Flags} (h : MarkedBy m d f) : f.clrflags &&& f.setflags = 0#8 := by
  cases h with
  | quiet hf => rw [hf]; rfl
  | status st _ henc => exact henc.disjoint
  | bit i cond _ hf _ => rw [hf]; exact mark_one_disjoint cond _

omit [DesLibrary] in
/-- An instruction that stores to the status register marks nothing. -/
theorem MarkedBy.eq_of_stores {f : Flags} (h : MarkedBy m d f) (hstores : m.StoresStatus d) :
    f = {} := by
  cases h with
  | quiet hf => exact hf
  | status _ hnot _ => exact absurd hstores hnot
  | bit _ _ hnot _ _ => exact absurd hstores hnot

omit [DesLibrary] in
/-- What can change the bits I and T. -/
theorem MarkedBy.of_change {j : ℕ} (h : MarkedBy m d idc.toFlags) (hj : j = 6 ∨ j = 7)
    (hrun : exec (d.code (d.operands (m.decoded d))) (m.fetched d) = .ok (idc, m₁))
    (hchange : ((m₁.finish idc).memory sreg).getLsbD j ≠ (m.memory sreg).getLsbD j) :
    m.StoresStatus d ∨ IsOp Op.bclrset m.instrWord ∧ (fieldFlag m.instrWord).toNat = j ∨
      IsOp Op.bst m.instrWord ∧ j = 6 := by
  have hlt : j < 8 := by omega
  by_cases hstores : m.StoresStatus d
  · exact Or.inl hstores
  rw [finish_sreg, sreg_eq_of_not_stores hrun hstores] at hchange
  cases h with
  | quiet hf =>
    rw [hf] at hchange
    have hsame : m.memory sreg &&& ~~~0#8 ||| 0#8 = m.memory sreg := by
      rw [show ~~~0#8 = BitVec.allOnes 8 from rfl, BitVec.and_allOnes, BitVec.or_zero]
    exact absurd (congrArg (BitVec.getLsbD · j) hsame) hchange
  | status st _ henc =>
    have hbit : st.bit j = none := by rcases hj with rfl | rfl <;> rfl
    have hmerge := henc.merge (m.memory sreg) hlt
    rw [hbit] at hmerge
    exact absurd hmerge hchange
  | bit i cond _ hf hop =>
    have heq : j = i := by
      by_contra hne
      rw [hf] at hchange
      exact hchange (mark_one_other cond _ hlt hne)
    subst heq
    rcases hop with ⟨hop, hi⟩ | ⟨hop, hi⟩
    · exact Or.inr (Or.inl ⟨hop, hi.symm⟩)
    · exact Or.inr (Or.inr ⟨hop, hi⟩)

/-- RETI sets I and leaves T as it was. -/
theorem reti_keeps_t (hfetch : m.Fetches d) (hop : IsOp Op.reti m.instrWord)
    (hrun : exec (d.code (d.operands (m.decoded d))) (m.fetched d) = .ok (idc, m₁)) :
    ((m₁.finish idc).memory sreg).getLsbD 6 = (m.memory sreg).getLsbD 6 := by
  obtain rfl := Option.some.inj (hfetch.lookup_eq.symm.trans (lookup_reti hop))
  rw [exec_instrReti] at hrun
  cases hrun
  have hdrop (n : Machine) : n.dropPc.memory sreg = n.memory sreg := by
    rw [Machine.dropPc]
    split <;> simp [Machine.drop, Machine.setSp]
  rw [finish_memory_of_quiet rfl, setMem_memory, Function.update_self, hdrop, BitVec.getLsbD_or]
  exact Bool.or_false _

/-- The two masks of an instruction never overlap, so that the check of the step passes and the
order of the two merges does not matter. The bit I changes only through BSET and BCLR on bit 7,
RETI or a store to the status register, the bit T only through BSET and BCLR on bit 6, BST or such
a store, and what is stored there stays as it is. -/
theorem status_updates_consistent (hfetch : m.Fetches d)
    (hrun : exec (d.code (d.operands (m.decoded d))) (m.fetched d) = .ok (idc, m₁)) :
    idc.clrflags &&& idc.setflags = 0#8 ∧
    exec (mergeFlags idc.toFlags) m₁ = .ok ((), m₁.mergeFlags idc.toFlags) ∧
    (∀ s : Byte, s &&& ~~~idc.clrflags ||| idc.setflags =
      (s ||| idc.setflags) &&& ~~~idc.clrflags) ∧
    (((m₁.finish idc).memory sreg).getLsbD 7 ≠ (m.memory sreg).getLsbD 7 →
      IsOp Op.bclrset m.instrWord ∧ (fieldFlag m.instrWord).toNat = 7 ∨
        IsOp Op.reti m.instrWord ∨ m.StoresStatus d) ∧
    (((m₁.finish idc).memory sreg).getLsbD 6 ≠ (m.memory sreg).getLsbD 6 →
      IsOp Op.bclrset m.instrWord ∧ (fieldFlag m.instrWord).toNat = 6 ∨
        IsOp Op.bst m.instrWord ∨ (¬ IsOp Op.reti m.instrWord ∧ m.StoresStatus d)) ∧
    (m.StoresStatus d → (m₁.finish idc).memory sreg = m₁.memory sreg) := by
  have hmarked := markedBy hfetch hrun
  have hdisjoint := hmarked.disjoint
  refine ⟨hdisjoint, ?_, fun s => ?_, fun hchange => ?_, fun hchange => ?_, fun hstores => ?_⟩
  · rw [exec_mergeFlags, if_pos hdisjoint]
  · exact merge_comm s hdisjoint
  · rcases hmarked.of_change (Or.inr rfl) hrun hchange with hstores | hset | hbst
    · exact Or.inr (Or.inr hstores)
    · exact Or.inl hset
    · exact absurd hbst.2 (by decide)
  · rcases hmarked.of_change (Or.inl rfl) hrun hchange with hstores | hset | hbst
    · by_cases hreti : IsOp Op.reti m.instrWord
      · exact absurd (reti_keeps_t hfetch hreti hrun) hchange
      · exact Or.inr (Or.inr ⟨hreti, hstores⟩)
    · exact Or.inl hset
    · exact Or.inr (Or.inl hbst.1)
  · rw [finish_memory_of_quiet (hmarked.eq_of_stores hstores)]

end Updates

section Sei

attribute [local instance] idleDes

/-- An image of SEI instructions, which set I. -/
def seiMachine : Machine := Machine.powerOn fun _ => 0x9478

/-- SEI changes I, and it is BSET on bit 7. -/
theorem status_updates_consistent_sei :
    let d : InstrDecode :=
      { pattern := 0x9408, mask := 0xff0f, code := instrBclrset, ddd64 := true }
    IsOp Op.bclrset seiMachine.instrWord ∧ (fieldFlag seiMachine.instrWord).toNat = 7 ∨
      IsOp Op.reti seiMachine.instrWord ∨ seiMachine.StoresStatus d := by
  intro d
  have hfetch : seiMachine.Fetches d :=
    ⟨show 0 < flashSize by decide,
      lookupInstr_eq_some (List.mem_of_getElem? (i := 41) rfl)
        (show 0x9478 &&& 0xff0f = 0x9408 by decide),
      fun h => by cases h⟩
  obtain ⟨-, -, -, hi, -⟩ := status_updates_consistent hfetch rfl
  exact hi (by decide)

end Sei

end AvrEmu
