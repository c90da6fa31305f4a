import AvrEmu.Emulate
import AvrEmu.Run

/-!
# The instruction trace

A step with tracing on does what it does with tracing off, and hands the words of the
instruction it executes to the trace file. A run without a debugger stops at the limit, and
its trace can be taken apart again with nothing but the decode table.
-/

namespace AvrEmu

variable {m m' m₁ : Machine} {d : InstrDecode} {idc : InstrDecodeCommon} {e : Emu}

/-! ## Reading a trace -/

/-- The words of a binary trace. -/
def wordsOfBytes : List Byte → List Word
  | lo :: hi :: rest => (hi ++ lo) :: wordsOfBytes rest
  | _ => []

/-- The words of a text, four digits and a blank each. -/
def wordsOfText : List Byte → List Word
  | c₃ :: c₂ :: c₁ :: c₀ :: _ :: rest =>
    BitVec.ofNat 16 (Hex.number [c₃, c₂, c₁, c₀]) :: wordsOfText rest
  | _ => []

/-- The words of a trace file. In a text the line ends do not matter. -/
def readTrace (tracehex : Bool) (file : List Byte) : List Word :=
  if tracehex then wordsOfText (file.filter (· != 0x0a)) else wordsOfBytes file

theorem wordsOfBytes_cons (w : Word) (rest : List Byte) :
    wordsOfBytes (w.setWidth 8 :: (w >>> 8).setWidth 8 :: rest) = w :: wordsOfBytes rest := by
  have hword : (w >>> 8).setWidth 8 ++ (w.setWidth 8 : Byte) = w := by
    apply BitVec.eq_of_toNat_eq
    have hlt := w.isLt
    rw [BitVec.toNat_append, ← Nat.shiftLeft_add_eq_or_of_lt (BitVec.isLt _), BitVec.toNat_setWidth,
      BitVec.toNat_setWidth, BitVec.toNat_ushiftRight, Nat.shiftRight_eq_div_pow, Nat.shiftLeft_eq]
    omega
  exact congrArg (· :: wordsOfBytes rest) hword

theorem wordsOfText_cons (w : Word) (rest : List Byte) :
    wordsOfText (hexWord w ++ ascii " " ++ rest) = w :: wordsOfText rest := by
  have hlt := w.isLt
  have hhi : ((w >>> 8).setWidth 8 : Byte).toNat = w.toNat / 256 := by
    rw [BitVec.toNat_setWidth, BitVec.toNat_ushiftRight, Nat.shiftRight_eq_div_pow]
    omega
  have hlo : (w.setWidth 8 : Byte).toNat = w.toNat % 256 := BitVec.toNat_setWidth _ _
  have htext : hexWord w ++ ascii " " ++ rest = Hex.digit (w.toNat / 256 / 16) ::
      Hex.digit (w.toNat / 256 % 16) :: Hex.digit (w.toNat % 256 / 16) ::
      Hex.digit (w.toNat % 256 % 16) :: 0x20 :: rest := by
    rw [hexWord, Hex.pair, Hex.pair, hhi, hlo]
    rfl
  have hnumber : Hex.number [Hex.digit (w.toNat / 256 / 16), Hex.digit (w.toNat / 256 % 16),
      Hex.digit (w.toNat % 256 / 16), Hex.digit (w.toNat % 256 % 16)] = w.toNat := by
    simp only [Hex.number, List.foldl_cons, List.foldl_nil, Option.getD_some,
      Hex.value_digit (show w.toNat / 256 / 16 < 16 by omega),
      Hex.value_digit (show w.toNat / 256 % 16 < 16 by omega),
      Hex.value_digit (show w.toNat % 256 / 16 < 16 by omega),
      Hex.value_digit (show w.toNat % 256 % 16 < 16 by omega)]
    omega
  rw [htext, wordsOfText, hnumber, BitVec.ofNat_toNat, BitVec.setWidth_eq]

/-- The text of a word has no line end. -/
theorem filter_hexWord (w : Word) :
    (hexWord w ++ ascii " ").filter (· != 0x0a) = hexWord w ++ ascii " " := by
  have hpair (b : Byte) : ∀ c ∈ Hex.pair b, (c != 0x0a) = true := by
    have hlt := b.isLt
    have hdigit {v : ℕ} (hv : v < 16) : (Hex.digit v != 0x0a) = true := by
      rw [bne_iff_ne]
      intro heq
      exact absurd (heq ▸ Hex.isLower_digit hv) (by decide)
    intro c hc
    simp only [Hex.pair, List.mem_cons, List.not_mem_nil, or_false] at hc
    rcases hc with rfl | rfl
    · exact hdigit (by omega)
    · exact hdigit (by omega)
  refine List.filter_eq_self.mpr fun c hc => ?_
  simp only [hexWord, List.mem_append] at hc
  rcases hc with (hc | hc) | hc
  · exact hpair _ c hc
  · exact hpair _ c hc
  · obtain rfl : c = 0x20 := by simpa [ascii] using hc
    rfl

/-- The words of an instruction are read back from what the trace file got. -/
theorem readTrace_traced (tracehex : Bool) {words : List Word} (hne : words ≠ [])
    (rest : List Byte) :
    readTrace tracehex (traced tracehex words ++ rest) = words ++ readTrace tracehex rest := by
  have hempty : words.isEmpty = false := by
    rw [Bool.eq_false_iff, Ne, List.isEmpty_iff]
    exact hne
  unfold traced readTrace
  rw [hempty]
  clear hne hempty
  cases tracehex with
  | false =>
    simp only [Bool.false_eq_true, if_false]
    induction words with
    | nil => rfl
    | cons w words ih =>
      rw [List.flatMap_cons, List.append_assoc]
      exact (wordsOfBytes_cons w _).trans (congrArg (w :: ·) ih)
  | true =>
    simp only [Bool.false_eq_true, if_false, if_true]
    induction words with
    | nil => rfl
    | cons w words ih =>
      rw [List.flatMap_cons, List.append_assoc, List.append_assoc, List.filter_append,
        filter_hexWord, wordsOfText_cons, List.cons_append, ← ih, List.append_assoc]

section Words

variable [DesLibrary]

/-- The length that the decode table gives the instruction that begins with a word. -/
def decodedLength (w : Word) : ℕ :=
  match lookupInstr w with
  | some d => if d.imm16 then 2 else 1
  | none => 1

/-- The words of the instruction at `pc`. -/
def Machine.instrWords (m : Machine) : List Word :=
  (List.range (decodedLength m.instrWord)).map fun i => m.flash (m.pc.toNat + i)

/-- A sequence of words cut into instructions from the front. -/
def splitInstrs : List Word → List (List Word)
  | [] => []
  | w :: rest =>
    if decodedLength w = 2 then
      match rest with
      | k :: rest => [w, k] :: splitInstrs rest
      | [] => [[w]]
    else [w] :: splitInstrs rest

theorem splitInstrs_append {words : List Word} {w : Word} (hhead : words.head? = some w)
    (hlen : words.length = decodedLength w) (rest : List Word) :
    splitInstrs (words ++ rest) = words :: splitInstrs rest := by
  have hone : decodedLength w = 2 ∨ decodedLength w = 1 := by
    unfold decodedLength
    split
    · split
      · exact Or.inl rfl
      · exact Or.inr rfl
    · exact Or.inr rfl
  rcases hone with htwo | hone
  · rw [htwo] at hlen
    obtain ⟨a, k, rfl⟩ := List.length_eq_two.mp hlen
    obtain rfl : a = w := by simpa using hhead
    simp only [List.cons_append, List.nil_append, splitInstrs, if_pos htwo]
  · rw [hone] at hlen
    obtain ⟨a, rfl⟩ := List.length_eq_one_iff.mp hlen
    obtain rfl : a = w := by simpa using hhead
    rw [List.cons_append, List.nil_append, splitInstrs.eq_def]
    simp only [hone, if_neg (show ¬ 1 = 2 by decide)]

/-! ## Tracing a step -/

theorem decodedLength_eq (h : lookupInstr m.instrWord = some d) :
    decodedLength m.instrWord = if d.imm16 then 2 else 1 := by
  simp only [decodedLength, h]

theorem instrWords_eq (h : lookupInstr m.instrWord = some d) :
    m.instrWords = if d.imm16 then [m.instrWord, m.nextWord] else [m.instrWord] := by
  rw [Machine.instrWords, decodedLength_eq h]
  cases d.imm16 <;> rfl

/-- What is read back from flash after an instruction are its words. -/
theorem exec_traceWords {n : Machine} (h : m.Fetches d) (hstart : n.pcStart = m.pc)
    (hsize : n.instrSize = if d.imm16 then 2 else 1) (hflash : n.flash = m.flash) :
    exec traceWords n = .ok (m.instrWords, n) := by
  have hpc := h.pc_lt
  have hnext : (m.pc + 1).toNat = m.pc.toNat + 1 := by
    unfold flashSize at hpc
    rw [BitVec.toNat_add]
    exact Nat.mod_eq_of_lt (show m.pc.toNat + 1 < 4294967296 by omega)
  rw [instrWords_eq h.lookup_eq, traceWords]
  cases himm : d.imm16 with
  | false =>
    rw [himm] at hsize
    simp only [exec_bind, exec_core, hstart, hsize, Bool.false_eq_true, if_false, exec_assert,
      show (decide ((0 : BitVec 32) < 1) && decide ((1 : BitVec 32) < 3)) = true from rfl, if_true]
    simp only [show (1 : BitVec 32).toNat = 1 from rfl, romwords, exec_bind, exec_romword,
      if_pos hpc, exec_pure, hflash]
    rfl
  | true =>
    rw [himm] at hsize
    have hpc' := h.imm_lt himm
    simp only [exec_bind, exec_core, hstart, hsize, exec_assert,
      show (decide ((0 : BitVec 32) < 2) && decide ((2 : BitVec 32) < 3)) = true from rfl, if_true]
    simp only [show (2 : BitVec 32).toNat = 2 from rfl, romwords, exec_bind, exec_romword,
      if_pos hpc, if_pos hpc', exec_pure, hflash, hnext]
    rfl

theorem exec_execute_tracing (h : m.Fetches d) :
    exec (execute true d (m.decoded d)) (m.fetched d) =
      match exec (execute false d (m.decoded d)) (m.fetched d) with
      | .ok (_, m') => .ok (m.instrWords, m')
      | .error a => .error a := by
  rw [exec_execute]
  cases hcode : exec (d.code (d.operands (m.decoded d))) (m.fetched d) with
  | error a => simp [execute, hcode]
  | ok r =>
    obtain ⟨idc, m₁⟩ := r
    have hframe := rel_of_exec (respects_sameFrame (lookupInstr_spec h.lookup_eq).1 _) hcode
    by_cases hover : idc.clrflags &&& idc.setflags = 0#8
    · have hstart : m₁.pcStart = m.pc := congrArg Core.pcStart hframe
      have hsize : m₁.instrSize = if d.imm16 then 2 else 1 := congrArg Core.instrSize hframe
      have hflash := congrArg Core.flash hframe
      have hwords := exec_traceWords
        (n := (m₁.mergeFlags idc.toFlags).mapCore fun s => { s with pc := s.pc + s.instrSize }) h
        hstart hsize hflash
      simp only [execute, exec_bind, decodeOperands_eq, exec_pure, hcode, exec_mergeFlags, hover,
        if_true, exec_modifyCore, hwords]
      rfl
    · simp [execute, hcode, hover]

/-- A step with tracing on is the step with tracing off; its output are the words of the
instruction, unless a pending skip passes over it. -/
theorem exec_emulate1_tracing (m : Machine) : exec (emulate1 true) m =
    match m.step with
    | .ok m' => .ok (if m.skipNextInstruction then [] else m.instrWords, m')
    | .error a => .error a := by
  unfold Machine.step
  cases hfetch : exec fetch m with
  | error a => simp [emulate1, hfetch]
  | ok r =>
    obtain ⟨⟨d, idc⟩, m₀⟩ := r
    obtain ⟨hd, rfl, rfl⟩ := fetches_of_exec_fetch hfetch
    have hsame : (m.fetched d).skipNextInstruction = m.skipNextInstruction := rfl
    cases hskip : m.skipNextInstruction with
    | true => simp [emulate1, hfetch, hsame, hskip]
    | false =>
      have htrace := exec_execute_tracing hd
      cases hexec : exec (execute false d (m.decoded d)) (m.fetched d) with
      | error a =>
        rw [hexec] at htrace
        simp [emulate1, hfetch, hsame, hskip, htrace, hexec]
      | ok r =>
        rw [hexec] at htrace
        simp only [emulate1, exec_bind, hfetch, exec_core, hsame, hskip, Bool.false_eq_true,
          if_false, htrace, hexec, exec_when]
        cases r.2.skipNextInstruction with
        | false => rfl
        | true =>
          simp only [if_true]
          cases exec fetch r.2 <;> rfl

/-! ## Tracing a run -/

/-- The emulator runs on its own: no client, no replay, not switched off. -/
structure Emu.Detached (e : Emu) : Prop where
  connected_eq : e.connected = false
  replayMode_eq : e.replayMode = false
  off_eq : e.off = false

/-- The emulator after an instruction that leaves the machine `m'`. -/
def Emu.traceStep (e : Emu) (m' : Machine) : Emu :=
  { e with
    machine := m'
    tracefile := e.tracefile.map (· ++ traced e.tracehex e.machine.instrWords) }

theorem Emu.Detached.traceStep (he : e.Detached) (m' : Machine) : (e.traceStep m').Detached :=
  ⟨he.connected_eq, he.replayMode_eq, he.off_eq⟩

/-- A call of `emulate1` outside a replay. -/
theorem emulate1_eq (hreplay : e.replayMode = false)
    (hskip : e.machine.skipNextInstruction = false) (hstep : e.machine.step = .ok m') :
    e.emulate1 = .ok (e.traceStep m') := by
  unfold Emu.emulate1 Emu.traceStep
  rw [hreplay]
  cases htrace : e.tracefile with
  | none =>
    have hplain := hstep
    unfold Machine.step at hplain
    simp only [Bool.not_false, Option.isSome_none, Bool.and_false, Option.map_none]
    cases hexec : exec (AvrEmu.emulate1 false) e.machine with
    | error a => simp [hexec] at hplain
    | ok r =>
      rw [hexec] at hplain
      cases hplain
      rfl
  | some t =>
    simp only [Bool.not_false, Option.isSome_some, Bool.and_true, exec_emulate1_tracing, hstep,
      hskip, Bool.false_eq_true, if_false, Option.map_some]

/-- One turn of the emulator loop. -/
theorem ticks_turn {a b : Env} (he : e.Detached) (hquiet : a.ctrlc = false)
    (hskip : e.machine.skipNextInstruction = false) (hstep : e.machine.step = .ok m')
    (envs : List Env) : ticks (a :: b :: envs) .top e =
      ticks envs (if e.insnlimit != 0 && e.insnlimit ≤ m'.insns then .stopped else .top)
        (e.traceStep m') := by
  have htop : emulateTop a.ctrlc e = .ok (.run, e) := by
    rw [emulateTop, hquiet]
    simp [he.replayMode_eq, gdbstubIntr, he.connected_eq]
  have hbody : emulateRun e = .ok
      (if e.insnlimit != 0 && e.insnlimit ≤ m'.insns then .stopped else .top, e.traceStep m') := by
    have hoff : (e.traceStep m').off = false := he.off_eq
    rw [emulateRun, he.replayMode_eq, he.off_eq, emulate1_eq he.replayMode_eq hskip hstep]
    simp only [Bool.false_and, Bool.false_eq_true, if_false, ok_bind, pure_eq_ok, hoff]
    change (if (e.insnlimit != 0 && e.insnlimit ≤ m'.insns) = true then _ else _) = _
    split <;> rfl
  rw [ticks, tick, htop]
  dsimp only
  rw [ticks, tick, hbody]

theorem ticks_stopped (envs : List Env) : ticks envs .stopped e = .ok (.stopped, e) := by
  induction envs with
  | nil => rfl
  | cons env envs ih => exact ih

theorem stepN_succ_front {n : ℕ} (h : m.stepN (n + 1) = .ok m') :
    m.step = .ok m.next ∧ m.next.stepN n = .ok m' := by
  induction n generalizing m' with
  | zero =>
    have hstep : m.step = .ok m' := (stepN_succ rfl).symm.trans h
    exact ⟨by rw [next_eq hstep, hstep], by rw [next_eq hstep]; rfl⟩
  | succ n ih =>
    obtain ⟨m₀, hrun, hstep⟩ := stepN_succ_eq_ok h
    obtain ⟨hfirst, hrest⟩ := ih hrun
    exact ⟨hfirst, (stepN_succ hrest).trans hstep⟩

/-- The words of the first `n` instructions. -/
def Machine.executed (m : Machine) (n : ℕ) : List (List Word) :=
  (List.range n).map fun i => (Machine.next^[i] m).instrWords

theorem executed_succ (n : ℕ) : m.executed (n + 1) = m.instrWords :: m.next.executed n := by
  rw [Machine.executed, List.range_succ_eq_map, List.map_cons, List.map_map]
  rfl

/-- The emulator stops at the limit, having traced each instruction. -/
theorem ticks_run {n : ℕ} {envs : List Env} (he : e.Detached)
    (hskip : e.machine.skipNextInstruction = false)
    (hlimit : e.machine.insns + (n + 1) = e.insnlimit)
    (hrun : e.machine.stepN (n + 1) = .ok m') (hlen : 2 * (n + 1) ≤ envs.length)
    (hquiet : ∀ env ∈ envs, env.ctrlc = false) : ticks envs .top e = .ok (.stopped, { e with
      machine := m'
      tracefile := e.tracefile.map
        (· ++ (e.machine.executed (n + 1)).flatMap (traced e.tracehex)) }) := by
  induction n generalizing e envs with
  | zero =>
    match envs, hlen with
    | a :: b :: envs, _ =>
      have hstep := (stepN_succ_front hrun).1
      have hlast : e.machine.next = m' := Except.ok.inj (stepN_succ_front hrun).2
      rw [hlast] at hstep
      have hinsns := (step_setup hstep).2.2 hskip
      have hstop : (e.insnlimit != 0 && decide (e.insnlimit ≤ m'.insns)) = true := by
        rw [Bool.and_eq_true, bne_iff_ne, decide_eq_true_iff]
        omega
      rw [ticks_turn he (hquiet a List.mem_cons_self) hskip hstep, hstop, if_pos rfl, ticks_stopped,
        executed_succ]
      simp only [Emu.traceStep, Machine.executed, List.range_zero, List.map_nil, List.flatMap_cons,
        List.flatMap_nil, List.append_nil]
  | succ n ih =>
    match envs, hlen with
    | a :: b :: envs, hlen =>
      obtain ⟨hstep, hrest⟩ := stepN_succ_front hrun
      obtain ⟨-, hskip', hcount⟩ := step_setup hstep
      have hinsns := hcount hskip
      have hgo : (e.insnlimit != 0 && decide (e.insnlimit ≤ e.machine.next.insns)) = false := by
        rw [Bool.and_eq_false_iff, decide_eq_false_iff_not]
        omega
      have hlimit' : e.machine.next.insns + (n + 1) = e.insnlimit := by omega
      have hlen' : 2 * (n + 1) ≤ envs.length := by
        simp only [List.length_cons] at hlen
        omega
      have hquiet' : ∀ env ∈ envs, env.ctrlc = false := fun env henv =>
        hquiet env (List.mem_cons_of_mem _ (List.mem_cons_of_mem _ henv))
      have htail := ih (e := e.traceStep e.machine.next) (he.traceStep _) hskip' hlimit' hrest hlen'
        hquiet'
      rw [ticks_turn he (hquiet a List.mem_cons_self) hskip hstep, hgo]
      refine htail.trans ?_
      rw [executed_succ (n + 1), List.flatMap_cons]
      simp only [Emu.traceStep, Option.map_map, Function.comp_def, List.append_assoc]

/-! ## Reading it back -/

theorem decodedLength_pos (w : Word) : 0 < decodedLength w := by
  unfold decodedLength
  split
  · split <;> decide
  · decide

theorem instrWords_head (m : Machine) : m.instrWords.head? = some m.instrWord := by
  obtain ⟨k, hk⟩ := Nat.exists_eq_succ_of_ne_zero (decodedLength_pos m.instrWord).ne'
  rw [Machine.instrWords, hk, List.range_succ_eq_map]
  rfl

theorem instrWords_ne_nil (m : Machine) : m.instrWords ≠ [] := by
  intro h
  have hhead := instrWords_head m
  rw [h] at hhead
  cases hhead

theorem length_instrWords (m : Machine) : m.instrWords.length = decodedLength m.instrWord := by
  rw [Machine.instrWords, List.length_map, List.length_range]

/-- Cutting the words of a run from the front gives its instructions. -/
theorem splitInstrs_executed (m : Machine) (n : ℕ) :
    splitInstrs (m.executed n).flatten = m.executed n := by
  induction n generalizing m with
  | zero => rfl
  | succ n ih =>
    rw [executed_succ, List.flatten_cons,
      splitInstrs_append (instrWords_head m) (length_instrWords m), ih]

theorem readTrace_executed (tracehex : Bool) (m : Machine) (n : ℕ) :
    readTrace tracehex ((m.executed n).flatMap (traced tracehex)) = (m.executed n).flatten := by
  induction n generalizing m with
  | zero => cases tracehex <;> rfl
  | succ n ih =>
    rw [executed_succ, List.flatMap_cons, List.flatten_cons,
      readTrace_traced tracehex (instrWords_ne_nil m), ih]

/-- A run from reset to the limit of `n` instructions, without a debugger. The emulator stops there;
the trace file has the words of the executed instructions, in order and nothing else; read back
and cut by the decode table they are the instructions again; and without a trace file the machine
ends up the same. -/
theorem trace_faithful {m₀ : Machine} {pc22 pcMemMax64k pcMemMax256b : Bool} {n : ℕ}
    {envs : List Env} (hmachine : e.machine = m₀.reset pc22 pcMemMax64k pcMemMax256b)
    (he : e.Detached) (htrace : e.tracefile = some []) (hpos : 1 ≤ n) (hlimit : e.insnlimit = n)
    (hrun : e.machine.stepN n = .ok m') (hlen : 2 * n ≤ envs.length)
    (hquiet : ∀ env ∈ envs, env.ctrlc = false) :
    let instrs := (List.range n).map fun i => (Machine.next^[i] e.machine).instrWords
    ∃ file, ticks envs .top e = .ok (.stopped, { e with machine := m', tracefile := some file }) ∧
      m'.insns = n ∧ file = instrs.flatMap (traced e.tracehex) ∧
      readTrace e.tracehex file = instrs.flatten ∧ splitInstrs instrs.flatten = instrs ∧
      ticks envs .top { e with tracefile := none } =
        .ok (.stopped, { e with machine := m', tracefile := none }) := by
  obtain ⟨k, rfl⟩ := Nat.exists_eq_add_of_le' hpos
  have hskip : e.machine.skipNextInstruction = false := by rw [hmachine]; rfl
  have hzero : e.machine.insns = 0 := by rw [hmachine]; rfl
  have hlimit' : e.machine.insns + (k + 1) = e.insnlimit := by omega
  have hstopped := ticks_run he hskip hlimit' hrun hlen hquiet
  rw [htrace, Option.map_some, List.nil_append] at hstopped
  refine ⟨_, hstopped, ?_, rfl, readTrace_executed _ _ _, splitInstrs_executed _ _, ?_⟩
  · rw [insns_of_stepN hskip hrun, hzero, Nat.zero_add]
  · exact ticks_run (e := { e with tracefile := none })
      ⟨he.connected_eq, he.replayMode_eq, he.off_eq⟩ hskip hlimit' hrun hlen hquiet

end Words

section Nops

attribute [local instance] idleDes

/-- The emulator at power-on with an image of nothing but NOP, a text trace and a limit. -/
def nopEmu (n : ℕ) : Emu :=
  { Emu.start (Machine.powerOn fun _ => 0) with
    insnlimit := n
    tracehex := true
    tracefile := some [] }

/-- Three of them. -/
theorem trace_faithful_nop : ∃ m', (nopEmu 3).machine.stepN 3 = .ok m' ∧
    ticks (List.replicate 6 ⟨false, .wouldBlock⟩) .top (nopEmu 3) = .ok (.stopped,
      { nopEmu 3 with machine := m', tracefile := some (ascii "0000 \n0000 \n0000 \n") }) := by
  have hok : ((nopEmu 3).machine.stepN 3).isOk = true := by decide
  obtain ⟨m', hrun⟩ : ∃ m', (nopEmu 3).machine.stepN 3 = .ok m' := by
    cases h : (nopEmu 3).machine.stepN 3 with
    | error a => rw [h] at hok; cases hok
    | ok m' => exact ⟨m', rfl⟩
  obtain ⟨file, hstopped, -, hfile, -⟩ := @trace_faithful m' (nopEmu 3) idleDes
    (Machine.powerOn fun _ => 0) false false false 3 (List.replicate 6 ⟨false, .wouldBlock⟩) rfl
    ⟨rfl, rfl, rfl⟩ rfl (by decide) rfl hrun (by decide) (by simp)
  refine ⟨m', hrun, ?_⟩
  rw [hstopped, hfile.trans (by decide : _ = ascii "0000 \n0000 \n0000 \n")]

end Nops

end AvrEmu
