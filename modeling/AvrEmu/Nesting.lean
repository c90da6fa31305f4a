import AvrEmu.StackBytes
import Mathlib.Logic.Relation

/-!
# Nested calls

Calls, pushes, pops and returns are matched by a list of frames, the innermost first. A run
that follows this discipline keeps the bytes of its frames on the stack, so every return
and every pop finds what its partner put there.
-/

namespace AvrEmu

/-- What is on the stack: the return address of a call at `pc` with `length` words, or a
pushed byte. -/
inductive Frame where
  | call (pc : BitVec 32) (length : ℕ)
  | byte (b : Byte)
  deriving DecidableEq

/-- The bytes of a frame, in the order in which they are popped. -/
def Frame.bytes (pc22 : Bool) : Frame → List Byte
  | .call pc length => pcBytes pc22 (pc + BitVec.ofNat 32 length)
  | .byte b => [b]

/-- The bytes of all frames. -/
def stackBytes (pc22 : Bool) (fs : List Frame) : List Byte := fs.flatMap (Frame.bytes pc22)

@[simp] theorem stackBytes_nil (pc22 : Bool) : stackBytes pc22 [] = [] := rfl

@[simp] theorem stackBytes_cons (pc22 : Bool) (f : Frame) (fs : List Frame) :
    stackBytes pc22 (f :: fs) = f.bytes pc22 ++ stackBytes pc22 fs := rfl

def Op.calls : List (Word × Word) := [Op.call, Op.rcall, Op.icall, Op.eicall]

def Op.returns : List (Word × Word) := [Op.ret, Op.reti]

section Discipline

variable [DesLibrary]

/-- A step that is matched by the frames. An instruction of any other kind leaves the stack
pointer and the bytes between it and `s` as they are. -/
inductive NestedStep (s : ℕ) : Machine × List Frame → Machine × List Frame → Prop where
  | call {m m' : Machine} {fs : List Frame} (hat : m.AtOp Op.calls) (hstep : m.step = .ok m') :
      NestedStep s (m, fs) (m', .call m.pc (instrLength m.instrWord) :: fs)
  | push {m m' : Machine} {fs : List Frame} (hat : m.AtOp [Op.push]) (hstep : m.step = .ok m') :
      NestedStep s (m, fs) (m', .byte (m.memory (fieldD m.instrWord).toNat) :: fs)
  | pop {m m' : Machine} {b : Byte} {fs : List Frame} (hat : m.AtOp [Op.pop])
      (hstep : m.step = .ok m') :
      NestedStep s (m, .byte b :: fs) (m', fs)
  | ret {m m' : Machine} {pc : BitVec 32} {length : ℕ} {fs : List Frame}
      (hat : m.AtOp Op.returns) (hstep : m.step = .ok m') :
      NestedStep s (m, .call pc length :: fs) (m', fs)
  | other {m m' : Machine} {fs : List Frame} (hstep : m.step = .ok m') (hsp : m'.sp = m.sp)
      (hlive : ∀ i, m.sp.toNat < i → i ≤ s → m'.memory i = m.memory i) :
      NestedStep s (m, fs) (m', fs)

/-- Every byte of the frames, counted down from `s`, lies in the data space above the ports. -/
def FitsStack (s : ℕ) (c : Machine × List Frame) : Prop :=
  ∀ i, s < i + (stackBytes c.1.pc22 c.2).length → i ≤ s → 0x60 ≤ i

/-- A run whose calls, pushes, pops and returns are matched, with the stack staying inside
the data space. -/
def NestedRun (s : ℕ) : Machine × List Frame → Machine × List Frame → Prop :=
  Relation.ReflTransGen fun c c' => NestedStep s c c' ∧ FitsStack s c'

variable {m m' m₀ : Machine} {d : InstrDecode} {idc : InstrDecodeCommon}

/-- A call leaves its return address on the stack. -/
theorem step_call (h : m.step = .ok m') (hat : m.AtOp Op.calls) :
    m'.memory = (m.pushPc (m.pc + BitVec.ofNat 32 (instrLength m.instrWord))).memory := by
  obtain ⟨hskip, op, hmem, hop⟩ := hat
  obtain ⟨d, idc, m₁, hexec, hfinish⟩ := executes_of_step h hskip
  have hcode := hexec.exec_code
  have hlength := instrLength_eq hexec.fetches.lookup_eq
  -- every call pushes the address of the next instruction and then assigns `pc`
  have hpushes (f : Core → Core) (hm₁ : m₁ = ((m.fetched d).pushPc
        (m.pc + BitVec.ofNat 32 (if d.imm16 then 2 else 1))).mapCore f)
      (hf : ∀ s, (f s).skipNextInstruction = s.skipNextInstruction) (hquiet : idc.toFlags = {}) :
      m'.memory = (m.pushPc (m.pc + BitVec.ofNat 32 (instrLength m.instrWord))).memory := by
    have hlow : m₁.skipNextInstruction = false := by
      rw [hm₁, mapCore_toCore, hf, pushPc_toCore]
      exact hskip
    rw [hfinish hlow, finish_memory_of_quiet hquiet, hlength, hm₁, mapCore_memory]
    exact pushPc_memory_congr (m := m) (n := m.fetched d) rfl rfl _
  simp only [Op.calls, List.mem_cons, List.not_mem_nil, or_false] at hmem
  rcases hmem with rfl | rfl | rfl | rfl
  · obtain rfl := hexec.row_eq (lookup_call hop)
    rw [exec_instrCall] at hcode
    cases hcode
    exact hpushes _ rfl (fun _ => rfl) rfl
  · have hcall : m.instrWord.getLsbD 12 = true := hop.getLsbD_eq rfl
    obtain rfl := hexec.row_eq (lookup_rcalljmp (hop.coarsen rfl rfl))
    rw [exec_instrRcalljmp] at hcode
    simp only [operands_instr, decoded_instr, hcall, if_true] at hcode
    cases hcode
    exact hpushes _ rfl (fun _ => rfl) rfl
  · have hcall : m.instrWord.getLsbD 8 = true := hop.getLsbD_eq rfl
    have hplain : m.instrWord.getLsbD 4 = false := hop.getLsbD_eq rfl
    obtain rfl := hexec.row_eq (lookup_eicalljump (hop.coarsen rfl rfl))
    rw [exec_instrEicalljump] at hcode
    simp only [operands_instr, decoded_instr, hcall, hplain, Bool.false_and, Bool.false_eq_true,
      if_true, if_false] at hcode
    cases hcode
    exact hpushes _ rfl (fun _ => rfl) rfl
  · have hcall : m.instrWord.getLsbD 8 = true := hop.getLsbD_eq rfl
    have hext : m.instrWord.getLsbD 4 = true := hop.getLsbD_eq rfl
    obtain rfl := hexec.row_eq (lookup_eicalljump (hop.coarsen rfl rfl))
    rw [exec_instrEicalljump] at hcode
    simp only [operands_instr, decoded_instr, hcall, hext, Bool.true_and, if_true] at hcode
    split at hcode
    · cases hcode
    · cases hcode
      exact hpushes _ rfl (fun _ => rfl) rfl

theorem step_push (h : m.step = .ok m') (hat : m.AtOp [Op.push]) :
    m'.memory = (m.push (m.memory (fieldD m.instrWord).toNat)).memory := by
  obtain ⟨hskip, op, hmem, hop⟩ := hat
  obtain rfl := List.mem_singleton.mp hmem
  obtain ⟨d, idc, m₁, hexec, hfinish⟩ := executes_of_step h hskip
  have hcode := hexec.exec_code
  obtain rfl := hexec.row_eq (lookup_push hop)
  rw [exec_instrPush, operands_ddddd84_toNat _ rfl rfl rfl] at hcode
  cases hcode
  rw [hfinish hskip, finish_memory_of_quiet rfl]
  rfl

theorem step_pop (h : m.step = .ok m') (hat : m.AtOp [Op.pop]) :
    m'.memory = (m.drop.setMem (fieldD m.instrWord).toNat m.top).memory := by
  obtain ⟨hskip, op, hmem, hop⟩ := hat
  obtain rfl := List.mem_singleton.mp hmem
  obtain ⟨d, idc, m₁, hexec, hfinish⟩ := executes_of_step h hskip
  have hcode := hexec.exec_code
  obtain rfl := hexec.row_eq (lookup_pop hop)
  rw [exec_instrPop, operands_ddddd84_toNat _ rfl rfl rfl] at hcode
  cases hcode
  rw [hfinish hskip, finish_memory_of_quiet rfl]
  rfl

/-- A return takes its target from the stack; RETI also raises a status bit. -/
theorem step_return (h : m.step = .ok m') (hat : m.AtOp Op.returns) :
    m'.pc = m.topPc ∧ (m'.memory = m.dropPc.memory ∨
      m'.memory = (m.dropPc.setMem sreg (m.dropPc.memory sreg ||| sregI)).memory) := by
  obtain ⟨hskip, op, hmem, hop⟩ := hat
  obtain ⟨d, idc, m₁, hexec, hfinish⟩ := executes_of_step h hskip
  have hcode := hexec.exec_code
  have hdrop (n : Machine) : n.dropPc.skipNextInstruction = n.skipNextInstruction := by
    rw [dropPc_toCore]
  have hdropped : (m.fetched d).dropPc.memory = m.dropPc.memory := by
    unfold Machine.dropPc
    rw [fetched_pc22]
    cases m.pc22 <;> rfl
  have htop (c : Core) (hc : c = ((m.fetched d).dropPc.mapCore fun s =>
      { s with pc := (m.fetched d).topPc - s.instrSize }).toCore) :
    c.pc + c.instrSize = m.topPc := by
    rw [hc]
    exact BitVec.sub_add_cancel _ _
  simp only [Op.returns, List.mem_cons, List.not_mem_nil, or_false] at hmem
  rcases hmem with rfl | rfl
  · obtain rfl := hexec.row_eq (lookup_ret hop)
    rw [exec_instrRet] at hcode
    cases hcode
    rw [hfinish (by rw [mapCore_toCore, hdrop]; exact hskip), finish_memory_of_quiet rfl]
    exact ⟨htop (Machine.toCore _) rfl, Or.inl hdropped⟩
  · obtain rfl := hexec.row_eq (lookup_reti hop)
    rw [exec_instrReti] at hcode
    cases hcode
    rw [hfinish (by rw [setMem_toCore, mapCore_toCore, hdrop]; exact hskip),
      finish_memory_of_quiet rfl]
    refine ⟨htop (Machine.toCore _) rfl, Or.inr ?_⟩
    simp only [setMem_memory, mapCore_memory, hdropped]

/-- A step that stores neither into the stack pointer nor into the live bytes is matched. -/
theorem NestedStep.of_untouched {s : ℕ} {fs : List Frame} (h : m.step = .ok m')
    (hfree : ∀ x ∈ touched (emulate1 false) m, x.stores = true → x.index ≠ spLo ∧ x.index ≠ spHi ∧
      ¬ (m.sp.toNat < x.index ∧ x.index ≤ s)) : NestedStep s (m, fs) (m', fs) := by
  have hkeeps (i : ℕ) (hi : ∀ x ∈ touched (emulate1 false) m, x.stores = true → x.index ≠ i) :
      m'.memory i = m.memory i := by
    unfold Machine.step exec at h
    cases hrun : (emulate1 false).run m.memory m.toCore with
    | error e => simp [hrun] at h
    | ok r =>
      simp only [hrun, Except.ok.injEq] at h
      rw [← h]
      exact CellProgram.run_cell_eq hrun hi
  refine .other h ?_ fun i hlow hhigh => hkeeps i fun x hx hstores heq => ?_
  · rw [Machine.sp, Machine.sp, hkeeps spLo fun x hx hstores => (hfree x hx hstores).1,
      hkeeps spHi fun x hx hstores => (hfree x hx hstores).2.1]
  · exact (hfree x hx hstores).2.2 (heq ▸ ⟨hlow, hhigh⟩)

/-! ## Runs -/

omit [DesLibrary] in
/-- Frames of `n` bytes in all leave room below them. -/
private theorem room_of_fits {s n : ℕ} (hfits : ∀ i, s < i + n → i ≤ s → 0x60 ≤ i)
    (hn : 0 < n) : 0x5f + n ≤ s := by
  by_cases hle : n ≤ s + 1
  · have := hfits (s + 1 - n) (by omega) (by omega)
    omega
  · have := hfits 0 (by omega) (by omega)
    omega

/-- A matched step keeps the bytes of its frames on the stack. -/
theorem stacked_of_nestedStep {s : ℕ} (hs : s < 2 ^ 16) {c c' : Machine × List Frame}
    (h : NestedStep s c c') (hfits : FitsStack s c')
    (hstack : c.1.Stacked s (stackBytes c.1.pc22 c.2)) :
    c'.1.Stacked s (stackBytes c'.1.pc22 c'.2) := by
  have hdepth := hstack.depth
  cases h with
  | @call m m' fs hat hstep =>
    rw [FitsStack, (step_setup hstep).1.pc22_eq, stackBytes_cons] at hfits
    have hroom := room_of_fits hfits (by
      rw [List.length_append, Frame.bytes, length_pcBytes]
      split <;> omega)
    rw [List.length_append] at hroom
    simp only [(step_setup hstep).1.pc22_eq, stackBytes_cons]
    refine (hstack.pushPc _ ?_).of_memory (step_call hstep hat)
    change m.sp.toNat + (stackBytes m.pc22 fs).length = s at hdepth
    change 0x5f + (Frame.bytes m.pc22 (.call m.pc (instrLength m.instrWord))).length ≤ m.sp.toNat
    omega
  | @push m m' fs hat hstep =>
    rw [FitsStack, (step_setup hstep).1.pc22_eq, stackBytes_cons] at hfits
    have hroom := room_of_fits hfits (by
      rw [List.length_append, Frame.bytes]
      exact Nat.lt_add_right _ Nat.one_pos)
    rw [List.length_append, Frame.bytes, List.length_singleton] at hroom
    simp only [(step_setup hstep).1.pc22_eq, stackBytes_cons]
    refine (hstack.push ?_).of_memory (step_push hstep hat)
    change m.sp.toNat + (stackBytes m.pc22 fs).length = s at hdepth
    change 0x60 ≤ m.sp.toNat
    omega
  | @pop m m' b fs hat hstep =>
    simp only [(step_setup hstep).1.pc22_eq]
    have hlt := (fieldD m.instrWord).isLt
    have hdrop := (Machine.Stacked.pop hstack hs).2
    refine (hdrop.setMem ?_ ?_ ?_).of_memory (step_pop hstep hat)
    · omega
    · unfold spLo
      omega
    · unfold spHi
      omega
  | @ret m m' pc length fs hat hstep =>
    simp only [(step_setup hstep).1.pc22_eq]
    have hdrop := (Machine.Stacked.popPc hstack hs).2
    rcases (step_return hstep hat).2 with hmem | hmem
    · exact hdrop.of_memory hmem
    · exact (hdrop.setMem (by decide) (by decide) (by decide)).of_memory hmem
  | other hstep hsp hlive =>
    simp only [(step_setup hstep).1.pc22_eq]
    exact hstack.congr hsp hlive

theorem stacked_of_nestedRun {s : ℕ} (hs : s < 2 ^ 16) {c c' : Machine × List Frame}
    (hrun : NestedRun s c c') (hstack : c.1.Stacked s (stackBytes c.1.pc22 c.2)) :
    c'.1.Stacked s (stackBytes c'.1.pc22 c'.2) := by
  induction hrun with
  | refl => exact hstack
  | tail _ hstep ih => exact stacked_of_nestedStep hs hstep.1 hstep.2 ih

/-- In a nested run, a return goes on behind its matching call, a pop gets the byte of its
matching push, and a balanced run ends with the stack pointer it started with. -/
theorem calls_and_returns_nest {m₀ m : Machine} {fs : List Frame}
    (hrun : NestedRun m₀.sp.toNat (m₀, []) (m, fs)) :
    (fs = [] → m.sp = m₀.sp) ∧
    (∀ pc length rest m', fs = .call pc length :: rest → m.AtOp Op.returns →
      m.step = .ok m' → m'.pc.toNat = (pc.toNat + length) % m.pcLimit) ∧
    (∀ b rest m', fs = .byte b :: rest → m.AtOp [Op.pop] → m.step = .ok m' →
      m'.memory (fieldD m.instrWord).toNat = b) := by
  have hs := m₀.sp.isLt
  have hstack : m.Stacked m₀.sp.toNat (stackBytes m.pc22 fs) :=
    stacked_of_nestedRun hs hrun stacked_nil
  refine ⟨fun hnil => ?_, fun pc length rest m' hfs hat hstep => ?_,
    fun b rest m' hfs hat hstep => ?_⟩
  · have hdepth := hstack.depth
    rw [hnil] at hdepth
    exact BitVec.eq_of_toNat_eq hdepth
  · rw [hfs] at hstack
    rw [(step_return hstep hat).1, (Machine.Stacked.popPc hstack hs).1, BitVec.toNat_add,
      BitVec.toNat_ofNat]
    unfold Core.pcLimit
    split <;> omega
  · rw [hfs] at hstack
    rw [step_pop hstep hat, setMem_memory, Function.update_self]
    exact (Machine.Stacked.pop hstack hs).1

end Discipline

section Subroutine

attribute [local instance] idleDes

/-- A call of a subroutine `PUSH r0; POP r1; RET` at address 3, with the stack at 0x100. -/
def nestedMachine : Machine :=
  { Machine.powerOn fun a => [0x940e, 0x0003, 0x0000, 0x920f, 0x901f, 0x9508].getD a 0 with
    memory := fun i => if i = spHi then 1 else 0 }

/-- The subroutine returns to address 2. -/
theorem calls_and_returns_nest_subroutine : (nestedMachine.after 4).pc.toNat = 2 := by
  have hstep₀ : nestedMachine.step = .ok (nestedMachine.after 1) :=
    after_step (m := nestedMachine) (n := 0) (by decide)
  have hstep₁ : (nestedMachine.after 1).step = .ok (nestedMachine.after 2) := after_step (by decide)
  have hstep₂ : (nestedMachine.after 2).step = .ok (nestedMachine.after 3) := after_step (by decide)
  have hstep₃ : (nestedMachine.after 3).step = .ok (nestedMachine.after 4) := after_step (by decide)
  have hfits (m : Machine) (fs : List Frame) (hlength : (stackBytes m.pc22 fs).length ≤ 3) :
      FitsStack 0x100 (m, fs) := by
    intro i hlow hhigh
    simp only at hlow
    omega
  have hrun : NestedRun nestedMachine.sp.toNat (nestedMachine, [])
      (nestedMachine.after 3, [.call 0 2]) := by
    refine .tail (.tail (.tail .refl ⟨.call ⟨rfl, by decide⟩ hstep₀, hfits _ _ (by decide)⟩)
      ⟨.push ⟨by decide, by decide⟩ hstep₁, hfits _ _ (by decide)⟩)
      ⟨.pop ⟨by decide, by decide⟩ hstep₂, hfits _ _ (by decide)⟩
  have hlimit : (nestedMachine.after 3).pcLimit = 2 ^ 16 := by decide
  have hpc := (calls_and_returns_nest hrun).2.1 0 2 [] _ rfl ⟨by decide, by decide⟩ hstep₃
  rw [hlimit] at hpc
  exact hpc

end Subroutine

end AvrEmu
