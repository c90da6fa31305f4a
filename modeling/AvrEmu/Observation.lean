import AvrEmu.Timeline

/-!
# Looking on

A client that only looks, sets breakpoints and lets the program go on does not disturb it: the
machine is the one that runs without a client, as far as it has come, and the registers that are
reported are its own.
-/

namespace AvrEmu

variable {e e' : Emu} {p p' : Point} {bp ep : ℕ} {u : List Byte} {us : List (List Byte)}
  {m : Machine}

/-- The packet neither writes to the machine nor takes it back. -/
def LooksOn (u : List Byte) : Prop :=
  command u ≠ some (ascii "G") ∧ command u ≠ some (ascii "M") ∧ command u ≠ some (ascii "bs")

instance (u : List Byte) : Decidable (LooksOn u) := inferInstanceAs (Decidable (_ ∧ _))

/-- The steps that a client has asked for. -/
def stepsAsked (us : List (List Byte)) : ℕ := us.countP asksStep

/-- The machine has gone on by itself, and what it has done is in the trace. -/
structure Undisturbed [DesLibrary] (e₀ e : Emu) : Prop where
  replayMode_eq : e.replayMode = false
  off_eq : e.off = false
  tracehex_eq : e.tracehex = e₀.tracehex
  reached : ∃ n, e₀.machine.stepN n = .ok e.machine ∧ e.tracefile =
    e₀.tracefile.map (· ++ (e₀.machine.executed n).flatMap (traced e₀.tracehex))

/-- The machine and its trace are the same. -/
structure SameCourse (e e' : Emu) : Prop where
  machine_eq : e'.machine = e.machine
  replayMode_eq : e'.replayMode = e.replayMode
  off_eq : e'.off = e.off
  tracehex_eq : e'.tracehex = e.tracehex
  tracefile_eq : e'.tracefile = e.tracefile

theorem SameCourse.trans {e₁ : Emu} (h : SameCourse e e₁) (h' : SameCourse e₁ e') :
    SameCourse e e' :=
  ⟨h'.machine_eq.trans h.machine_eq, h'.replayMode_eq.trans h.replayMode_eq,
    h'.off_eq.trans h.off_eq, h'.tracehex_eq.trans h.tracehex_eq,
    h'.tracefile_eq.trans h.tracefile_eq⟩

theorem SameCourse.of_unbuffered (h : e'.unbuffered = e.unbuffered) : SameCourse e e' :=
  ⟨congrArg (·.machine) h, congrArg (·.replayMode) h, congrArg (·.off) h,
    congrArg (·.tracehex) h, congrArg (·.tracefile) h⟩

/-! ## What the packets do -/

theorem TakesUp.looksOn (h : TakesUp bp e u p' e') (hlooks : LooksOn u) :
    SameCourse e e' ∧ e'.stepone = (e.stepone || asksStep u) := by
  obtain ⟨buf, ack, e₁, -, hvars, heffect⟩ := h.effect
  obtain ⟨hG, hM, hbs⟩ := hlooks
  have hstep : e'.stepone = e₁.stepone := congrArg (·.stepone) hvars
  have hpair := congrArg Prod.fst heffect.replay_eq
  rw [if_neg fun hback => hbs hback.1] at hpair
  have hcourse : SameCourse e e₁ :=
    ⟨heffect.machine_eq hG hM, hpair, by rw [heffect.frame], by rw [heffect.frame],
      by rw [heffect.frame]⟩
  exact ⟨hcourse.trans (.of_unbuffered hvars), hstep.trans heffect.stepone_eq⟩

/-- A client without `c` lets the emulator go on for steps only. -/
theorem TakesUp.execute_eq (h : TakesUp bp e u p' e') (hlooks : LooksOn u)
    (hc : command u ≠ some (ascii "c")) (hidle : e.execute = false) :
    e'.execute = asksStep u := by
  obtain ⟨buf, ack, e₁, -, hvars, heffect⟩ := h.effect
  have hexecute : e'.unbuffered.execute = e₁.unbuffered.execute := by rw [hvars]
  have hresumes := hexecute.trans (heffect.execute_eq hidle)
  have hback : (command u == some (ascii "bs")) = false := beq_false_of_ne hlooks.2.2
  rw [resumes, beq_false_of_ne hc, hback, Bool.false_and, Bool.false_or, Bool.or_false] at hresumes
  exact hresumes

/-- No two entries of the table have the same command. -/
theorem findCmd_getElem {text : List Byte} (i : Fin gdbDisp.length)
    (h : (findCmd text).map (·.cmd) = some gdbDisp[i].cmd) : findCmd text = some gdbDisp[i] := by
  have hdistinct : (gdbDisp.map (·.cmd)).Nodup := by decide
  obtain ⟨d, hfind, hcmd⟩ := Option.map_eq_some_iff.mp h
  have hmem : d ∈ gdbDisp := List.mem_of_find?_eq_some hfind
  rw [hfind, List.inj_on_of_nodup_map hdistinct hmem (List.getElem_mem i.isLt) hcmd]
  rfl

theorem dispatch_registers {text : List Byte} (h : dispatch text e = .ok e')
    (hg : (findCmd text).map (·.cmd) = some (ascii "g")) :
    e'.log = e.log ++ [.send (framed e.machine.regText)] := by
  rw [dispatch_eq (findCmd_getElem ⟨0, by decide⟩ hg) rfl] at h
  have hlength := length_regText e.machine
  have hsend : gdbSendstr e.machine.regText { e with execute := false } = .ok e' := h
  rw [gdbSendstr_stop hsend (by omega)]
  rfl

/-- A packet with a command comes to the dispatcher. -/
theorem gdbCmd_dispatch {a b : Byte} {before body rest : List Byte}
    (h : e.Finds before body rest a b) (hpacket : IsPacket (body ++ [0x23, a, b]))
    (hcommand : command (body ++ [0x23, a, b]) ≠ none) :
    ∃ t, body = 0x24 :: t ∧ 0x23 ∉ t ∧
      command (body ++ [0x23, a, b]) = (findCmd (t ++ 0 :: a :: b :: rest)).map (·.cmd) ∧
      gdbCmd before.length (before.length + body.length) e =
        dispatch (t ++ 0 :: a :: b :: rest) { e with
          clientbuf := before ++ (body ++ 0 :: a :: b :: rest)
          log := e.log ++ [.packet (body ++ [0x23, a, b]), .send (ascii "+")] } := by
  cases body with
  | nil => cases hcommand rfl
  | cons c body =>
    have hfirst := h.first
    simp only [List.mem_cons, not_or] at hfirst
    have hsum : (gdbCksumstr body).toNat = Hex.number [a, b] := by
      by_contra hsum
      exact hcommand (command_refused hpacket (not_intact hsum))
    have hc : c = 0x24 := by
      by_contra hc
      rw [command_packet (Ne.symm hfirst.1) hfirst.2 h.digits.1 h.digits.2 [],
        if_neg fun hboth => hc hboth.1] at hcommand
      exact hcommand rfl
    subst hc
    refine ⟨body, rfl, hfirst.2, ?_, ?_⟩
    · rw [command_of_sum hfirst.2 h.digits.1 h.digits.2 hsum, findCmd_zero]
    · rw [gdbCmd_packet h]
      dsimp only
      rw [if_pos hsum, if_pos rfl, Emu.sent]
      dsimp only
      rw [List.append_assoc]
      rfl

/-- The registers are reported as they are. -/
theorem TakesUp.registers (h : TakesUp bp e u p' e') (hg : command u = some (ascii "g")) :
    e'.log = e.log ++ [.packet u, .send (ascii "+"), .send (framed e.machine.regText)] := by
  have hpacket := h.isPacket
  obtain ⟨before, body, rest, a, b, e₁, rfl, -, hfinds, -, hcmd, hvars⟩ := h.finds
  obtain ⟨t, rfl, -, hasked, hdispatch⟩ :=
    gdbCmd_dispatch hfinds hpacket (hg ▸ Option.some_ne_none _)
  have hlog : e'.unbuffered.log = e₁.unbuffered.log := by rw [hvars]
  have hsame : e'.log = e₁.log := hlog
  have hreport := dispatch_registers (hdispatch.symm.trans hcmd) (hasked.symm.trans hg)
  rw [hsame, hreport]
  dsimp only
  rw [List.append_assoc]
  rfl

/-! ## Over a session -/

/-- Without steps back only the steps forth count. -/
theorem position_of_forth {t : ℕ} (hback : ∀ u ∈ us, command u ≠ some (ascii "bs")) :
    position t us = t + stepsAsked us := by
  induction us generalizing t with
  | nil => rfl
  | cons u us ih =>
    have hrest := fun v hv => hback v (List.mem_cons_of_mem _ hv)
    have hfirst := hback u List.mem_cons_self
    rw [position, List.foldl_cons, ← position, ih hrest, stepsAsked, stepsAsked, List.countP_cons,
      goTo, if_neg hfirst]
    by_cases hforth : command u = some (ascii "s")
    · have hask : asksStep u = true := beq_iff_eq.mpr hforth
      rw [if_pos hforth, hask, if_pos rfl]
      omega
    · have hask : asksStep u = false := beq_false_of_ne hforth
      rw [if_neg hforth, hask, if_neg Bool.false_ne_true, Nat.add_zero]

section Running

variable [DesLibrary]

variable {e₀ : Emu}

theorem Undisturbed.of_same (h : Undisturbed e₀ e) (hsame : SameCourse e e') :
    Undisturbed e₀ e' := by
  obtain ⟨n, hn, hfile⟩ := h.reached
  refine ⟨hsame.replayMode_eq.trans h.replayMode_eq, hsame.off_eq.trans h.off_eq,
    hsame.tracehex_eq.trans h.tracehex_eq, n, ?_, hsame.tracefile_eq.trans hfile⟩
  rw [hsame.machine_eq]
  exact hn

theorem Undisturbed.skip_eq (h : Undisturbed e₀ e)
    (hskip : e₀.machine.skipNextInstruction = false) :
    e.machine.skipNextInstruction = false := by
  obtain ⟨n, hn, -⟩ := h.reached
  exact skip_of_stepN hskip hn

/-- The instruction after the first `n`. -/
theorem executed_last {m m' : Machine} {n : ℕ} (h : m.stepN n = .ok m') :
    m.executed (n + 1) = m.executed n ++ [m'.instrWords] := by
  induction n generalizing m with
  | zero =>
    cases h
    rfl
  | succ n ih =>
    rw [executed_succ (n + 1), ih (stepN_succ_front h).2, executed_succ n, List.cons_append]

/-- An instruction outside a replay goes into the trace. -/
theorem traceStep_of_run (h : emulateRun e = .ok (p', e')) (hreplay : e.replayMode = false)
    (hoff : e.off = false) (hskip : e.machine.skipNextInstruction = false) :
    ∃ m', e.machine.step = .ok m' ∧ e' = e.traceStep m' := by
  rw [emulateRun, hreplay, Bool.false_and, if_neg Bool.false_ne_true,
    if_neg (by rw [hoff]; exact Bool.false_ne_true)] at h
  obtain ⟨e₁, hrun, h⟩ := bind_eq_ok h
  cases hstep : e.machine.step with
  | error a =>
    obtain ⟨tracefile, heq⟩ := emulate1_eq_step e
    rw [heq, hstep] at hrun
    cases hrun
  | ok m' =>
    rw [emulate1_eq hreplay hskip hstep] at hrun
    cases hrun
    refine ⟨m', rfl, ?_⟩
    split at h
    · cases h
      rfl
    · split at h <;> cases h <;> rfl

theorem Undisturbed.run (h : Undisturbed e₀ e) (hskip : e₀.machine.skipNextInstruction = false)
    (hrun : emulateRun e = .ok (p', e')) : Undisturbed e₀ e' := by
  obtain ⟨n, hn, hfile⟩ := h.reached
  obtain ⟨m', hstep, rfl⟩ :=
    traceStep_of_run hrun h.replayMode_eq h.off_eq (h.skip_eq hskip)
  refine ⟨h.replayMode_eq, h.off_eq, h.tracehex_eq, n + 1, (stepN_succ hn).trans hstep, ?_⟩
  rw [Emu.traceStep, hfile, h.tracehex_eq, Option.map_map, executed_last hn]
  refine Option.map_congr fun file _ => ?_
  rw [Function.comp_apply, List.flatMap_append, List.flatMap_singleton, List.append_assoc]

theorem Undisturbed.tick {env : Env} (h : Undisturbed e₀ e) (hinv : InOrder us p e)
    (hskip : e₀.machine.skipNextInstruction = false) (hlooks : ∀ u ∈ us, LooksOn u)
    (htick : tick env p e = .ok (p', e')) : Undisturbed e₀ e' := by
  cases p with
  | top =>
    have hcourse := topCourse_of_tick htick
    rw [settled_of_replayMode h.replayMode_eq] at hcourse
    cases hcourse <;> exact h.of_same ⟨rfl, rfl, rfl, rfl, rfl⟩
  | recv =>
    exact h.of_same (.of_unbuffered (receive_unbuffered htick).2)
  | scan bp ep =>
    rcases scan_takesUp hinv htick with ⟨-, -, hvars⟩ | ⟨done, u, todo, hus, -, htakes⟩
    · exact h.of_same (.of_unbuffered hvars)
    · exact h.of_same (htakes.looksOn (hlooks u (by simp [hus]))).1
  | run => exact h.run hskip htick
  | stopped =>
    cases htick
    exact h

theorem Served.undisturbed {insnlimit : ℕ} {tracehex : Bool} {tracefile : Option (List Byte)}
    (h : Served (Emu.attached m insnlimit tracehex tracefile) us p e)
    (hskip : m.skipNextInstruction = false) (hlooks : ∀ u ∈ us, LooksOn u) :
    Undisturbed (Emu.attached m insnlimit tracehex tracefile) e := by
  induction h with
  | start =>
    refine ⟨rfl, rfl, rfl, 0, stepN_zero, ?_⟩
    simp [Machine.executed]
  | tick env hserved _ htick ih =>
    have hbefore := fun u hu => hlooks u (List.mem_append_left _ hu)
    exact (ih hbefore).tick (hserved.inOrder (inOrder_start _ _ _ _)) hskip hbefore htick

/-- A tick that takes up a packet is a pass of the scanning loop. -/
theorem takesUp_of_handled {env : Env} (hinv : InOrder us p e)
    (htick : tick env p e = .ok (p', e')) (hhandled : e'.handled = e.handled ++ [u]) :
    ∃ bp, TakesUp bp e u p' e' := by
  have hmore : e'.handled ≠ e.handled := fun hsame =>
    absurd (List.append_right_eq_self.mp (hhandled.symm.trans hsame)) (List.cons_ne_nil _ _)
  have hscan : p.isScan = true := by
    by_contra hnot
    exact hmore (handled_of_tick (Bool.not_eq_true _ ▸ hnot) htick)
  cases p with
  | top | recv | run | stopped => cases hscan
  | scan bp ep =>
    rcases scan_takesUp hinv htick with ⟨hsame, -, -⟩ | ⟨done, v, todo, -, -, htakes⟩
    · exact absurd hsame hmore
    · have hone := List.append_cancel_left (hhandled.symm.trans htakes.handled_eq)
      obtain rfl : u = v := by simpa using hone
      exact ⟨bp, htakes⟩

/-- While a client reads registers and memory, sets and clears breakpoints, makes steps and lets
the program go on, the machine is the one that runs without a client; a request for the registers is
answered by those of that machine; and if the client makes single steps only, then whenever the stub
has the control, as many instructions are done as it has asked for. -/
theorem looking_on (m : Machine) (insnlimit : ℕ) (tracehex : Bool) (tracefile : Option (List Byte))
    (us : List (List Byte)) (p : Point) (e : Emu)
    (h : Served (Emu.attached m insnlimit tracehex tracefile) us p e)
    (hskip : m.skipNextInstruction = false) (hlooks : ∀ u ∈ us, LooksOn u) :
    m.stepN (e.machine.insns - m.insns) = .ok e.machine ∧
    (∀ env u p' e', command u = some (ascii "g") → tick env p e = .ok (p', e') →
      e'.handled = e.handled ++ [u] →
      e'.log = e.log ++ [.packet u, .send (ascii "+"), .send (framed e.machine.regText)]) ∧
    ((∀ u ∈ us, command u ≠ some (ascii "c")) → p.inStub = true →
      e.machine.insns - m.insns = stepsAsked e.handled) := by
  have hstart := inOrder_start m insnlimit tracehex tracefile
  obtain ⟨n, hn, -⟩ := (h.undisturbed hskip hlooks).reached
  have hinsns := insns_of_stepN hskip hn
  have hinv := h.inOrder hstart
  refine ⟨?_, fun env u p' e' hg htick hhandled => ?_, fun hc hstub => ?_⟩
  · rw [hinsns, Nat.add_sub_cancel_left]
    exact hn
  · obtain ⟨bp, htakes⟩ := takesUp_of_handled hinv htick hhandled
    exact htakes.registers hg
  · obtain ⟨done, todo, rfl, hdone, -⟩ := hinv.cut
    have hback : ∀ u ∈ e.handled, command u ≠ some (ascii "bs") := fun u hu =>
      (hlooks u (List.mem_append_left todo (List.mem_of_mem_filter (hdone ▸ hu)))).2.2
    have hposition := (steps_forth_and_back m insnlimit tracehex tracefile _ p e h hskip hc hstub).1
    rw [hposition, position_of_forth hback, Nat.add_sub_cancel_left]

/-- The trace of such a session is the one that the program leaves without a client: the words of
its instructions, each once and in order, which the decode table cuts apart again. -/
theorem looking_on_traced (m : Machine) (insnlimit : ℕ) (tracehex : Bool) (us : List (List Byte))
    (p : Point) (e : Emu) (h : Served (Emu.attached m insnlimit tracehex (some [])) us p e)
    (hskip : m.skipNextInstruction = false) (hlooks : ∀ u ∈ us, LooksOn u) :
    let instrs := m.executed (e.machine.insns - m.insns)
    ∃ file, e.tracefile = some file ∧ file = instrs.flatMap (traced tracehex) ∧
      readTrace tracehex file = instrs.flatten ∧ splitInstrs instrs.flatten = instrs := by
  obtain ⟨n, hn, hfile⟩ := (h.undisturbed hskip hlooks).reached
  have hinsns : e.machine.insns = m.insns + n := insns_of_stepN hskip hn
  rw [hinsns, Nat.add_sub_cancel_left]
  exact ⟨_, hfile, rfl, readTrace_executed _ _ _, splitInstrs_executed _ _⟩

end Running

section Query

attribute [local instance] idleDes

/-- A client that makes a step, reads memory, makes another step and asks for the registers, on the
image `LDI r16, 0x55`. -/
theorem looking_on_registers :
    let m := Machine.powerOn fun _ => 0xe505
    let us := [ascii "s", ascii "m0,4", ascii "s"].map framed
    ∃ e p' e', Served (Emu.attached m 0 false none) (us ++ [framed (ascii "g")]) (.scan 0 5) e ∧
      e.machine.insns = 2 ∧ tick ⟨false, .wouldBlock⟩ (.scan 0 5) e = .ok (p', e') ∧
      m.stepN (e.machine.insns - m.insns) = .ok e.machine ∧
      e'.log = e.log ++ [.packet (framed (ascii "g")), .send (ascii "+"),
        .send (framed e.machine.regText)] ∧
      e.machine.insns - m.insns = stepsAsked e.handled := by
  intro m us
  have hus := sendable_framed [ascii "s", ascii "m0,4", ascii "s", ascii "g"] (by decide)
  obtain ⟨e, p', e', hserved, -, hscan, he⟩ := exists_waiting (Emu.attached m 0 false none)
    (fun e e' => (e.machine.insns, e'.handled == e.handled ++ [framed (ascii "g")]))
    (fun _ _ => rfl) us (framed (ascii "g")) (n := 8) (x := (2, true)) rfl hus (by decide +kernel)
  obtain ⟨hcount, hhandled⟩ := Prod.mk.inj he
  obtain ⟨hrun, hregs, hsteps⟩ := looking_on m 0 false none _ (.scan 0 5) e hserved rfl (by decide)
  refine ⟨e, p', e', hserved, hcount, hscan, hrun, ?_, hsteps (by decide) rfl⟩
  exact hregs ⟨false, .wouldBlock⟩ _ p' e' (by decide) hscan (beq_iff_eq.mp hhandled)

/-- Two steps and a trace: `LDS r16, 0x60`, of which the second word is no instruction, and
`LDI r16, 0x55`. -/
theorem looking_on_traced_steps :
    let m := Machine.powerOn fun i => if i = 0 then 0x9100 else if i = 1 then 0x0060 else 0xe505
    let us := [ascii "s", ascii "g", ascii "s"].map framed
    ∃ e, Served (Emu.attached m 0 false (some [])) us .recv e ∧ e.machine.insns = 2 ∧
      e.tracefile = some [0x00, 0x91, 0x60, 0x00, 0x05, 0xe5] ∧
      let instrs := m.executed (e.machine.insns - m.insns)
      ∃ file, e.tracefile = some file ∧ file = instrs.flatMap (traced false) ∧
        readTrace false file = instrs.flatten ∧ splitInstrs instrs.flatten = instrs := by
  intro m us
  have hus := sendable_framed [ascii "s", ascii "g", ascii "s"] (by decide)
  obtain ⟨e, hserved, he⟩ := exists_session (Emu.attached m 0 false (some []))
    (fun e => (e.machine.insns, e.tracefile)) (fun _ => rfl) (n := 8)
    (x := (2, some [0x00, 0x91, 0x60, 0x00, 0x05, 0xe5])) rfl hus (by decide +kernel)
  obtain ⟨hcount, hfile⟩ := Prod.mk.inj he
  exact ⟨e, hserved, hcount, hfile,
    looking_on_traced m 0 false us .recv e hserved rfl (by decide)⟩

end Query

end AvrEmu
