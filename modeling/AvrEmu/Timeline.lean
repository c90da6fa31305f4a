import AvrEmu.Transcript

/-!
# Stepping forth and back

A reverse step starts the program over and runs it up to the instruction before the last. However a
client steps forth and back, when it gets the control the emulator is where the steps lead.
-/

namespace AvrEmu

variable {e e' : Emu} {p p' : Point} {bp ep t : ℕ} {u : List Byte} {us vs : List (List Byte)}

/-- Where a packet leads to from the instruction `t`. There is nothing before the first. -/
def goTo (t : ℕ) (u : List Byte) : ℕ :=
  if command u = some (ascii "s") then t + 1
  else if command u = some (ascii "bs") then t - 1
  else t

/-- Where packets lead to. -/
def position (t : ℕ) (us : List (List Byte)) : ℕ := us.foldl goTo t

theorem position_append (t : ℕ) (us vs : List (List Byte)) :
    position t (us ++ vs) = position (position t us) vs := List.foldl_append

/-- The packet asks for one step. -/
def asksStep (u : List Byte) : Bool := command u == some (ascii "s")

theorem settled_of_replayMode (h : e.replayMode = false) : e.settled = e := by
  rw [Emu.settled, h, Bool.false_and, if_neg Bool.false_ne_true]

/-- What the emulator is doing on its way to the instruction `t`. -/
inductive OnTheWay (t : ℕ) : Point → Emu → Prop
  | waiting {p : Point} {e : Emu} : p.inStub = true → e.replayMode = false → e.stepone = false →
      e.machine.insns = t → OnTheWay t p e
  | stepping {e : Emu} : e.replayMode = false → e.stepone = true → e.machine.insns + 1 = t →
      OnTheWay t .run e
  | stepped {e : Emu} : e.replayMode = false → e.stepone = true → e.machine.insns = t →
      OnTheWay t .top e
  | rewinding {e : Emu} : e.replayMode = true → e.insnreplaylim = t → e.machine.insns ≠ t →
      OnTheWay t .run e
  | replaying {e : Emu} : e.replayMode = true → e.insnreplaylim = t → e.machine.insns ≤ t →
      OnTheWay t .top e
  | stopped {e : Emu} : OnTheWay t .stopped e

/-- The head of the emulator loop: an arrival or one more instruction. -/
theorem OnTheWay.top (h : OnTheWay t .top e) (hlistening : Listening e)
    (hcourse : TopCourse e.settled p' e') : OnTheWay t p' e' := by
  have harrived {e₁ : Emu} (hcourse : TopCourse e₁ p' e') (hconn : e₁.connected = true)
      (hreplay : e₁.replayMode = false) (hstep : e₁.stepone = true)
      (hinsns : e₁.machine.insns = t) : OnTheWay t p' e' := by
    cases hcourse with
    | replay hreplaying => exact absurd (hreplay.symm.trans hreplaying) Bool.false_ne_true
    | pass _ hpass => exact absurd ((hpass hconn).1.symm.trans hstep) Bool.false_ne_true
    | stepped => exact .waiting rfl hreplay rfl hinsns
    | breakpoint _ _ hnot => exact absurd (hnot.symm.trans hstep) Bool.false_ne_true
  cases h with
  | waiting hstub => cases hstub
  | stepped hreplay hstep hinsns =>
    rw [settled_of_replayMode hreplay] at hcourse
    exact harrived hcourse hlistening.connected_eq hreplay hstep hinsns
  | replaying hreplay hlim hinsns =>
    by_cases hall : e.machine.insns = t
    · have hdue : (e.replayMode && decide (e.insnreplaylim ≤ e.machine.insns)) = true := by
        rw [hreplay, hlim, hall, Bool.true_and]
        exact decide_eq_true le_rfl
      rw [Emu.settled, if_pos hdue] at hcourse
      exact harrived hcourse hlistening.connected_eq rfl rfl hall
    · have hnot : ¬ (e.replayMode && decide (e.insnreplaylim ≤ e.machine.insns)) = true := by
        rw [hreplay, hlim, Bool.true_and, decide_eq_true_iff]
        omega
      rw [Emu.settled, if_neg hnot] at hcourse
      cases hcourse with
      | replay => exact .rewinding hreplay hlim hall
      | pass hreplay' | stepped hreplay' | breakpoint hreplay' =>
        exact absurd (hreplay'.symm.trans hreplay) Bool.false_ne_true

/-- A packet is taken up. -/
theorem OnTheWay.takesUp (h : OnTheWay t (.scan bp ep) e) (htakes : TakesUp bp e u p' e')
    (hidle : e.execute = false) (hc : command u ≠ some (ascii "c")) :
    OnTheWay (goTo t u) p' e' := by
  cases h with
  | waiting hstub hreplay hstep hinsns =>
    obtain ⟨buf, ack, e₁, -, hvars, heffect⟩ := htakes.effect
    have hinsns' : e'.machine.insns = t :=
      (congrArg (·.machine.insns) hvars).trans (heffect.insns_eq.trans hinsns)
    have hexecute : e'.execute = resumes e.machine.insns (command u) :=
      (congrArg (·.execute) hvars).trans (heffect.execute_eq hidle)
    have hstepone : e'.stepone = (e.stepone || asksStep u) :=
      (congrArg (·.stepone) hvars).trans heffect.stepone_eq
    have hpair : (e'.replayMode, e'.insnreplaylim) =
        if command u = some (ascii "bs") ∧ 0 < e.machine.insns then (true, e.machine.insns - 1)
        else (e.replayMode, e.insnreplaylim) :=
      (congrArg (fun v : Emu => (v.replayMode, v.insnreplaylim)) hvars).trans heffect.replay_eq
    have hstage := htakes.stage_eq
    rw [hstep, Bool.false_or] at hstepone
    rw [hexecute, resumes, beq_false_of_ne hc, Bool.false_or, ← asksStep] at hstage
    rw [hinsns] at hpair hstage
    by_cases hforth : command u = some (ascii "s")
    · have hask : asksStep u = true := beq_iff_eq.mpr hforth
      have hback : command u ≠ some (ascii "bs") := by
        rw [hforth]
        decide
      rw [if_neg fun hboth => hback hboth.1] at hpair
      rw [hask, Bool.true_or, if_pos rfl] at hstage
      obtain rfl := eq_run hstage
      rw [goTo, if_pos hforth]
      exact .stepping ((congrArg Prod.fst hpair).trans hreplay) (hstepone.trans hask)
        (congrArg (· + 1) hinsns')
    have hask : asksStep u = false := beq_false_of_ne hforth
    rw [hask, Bool.false_or] at hstage
    rw [goTo, if_neg hforth]
    by_cases hback : command u = some (ascii "bs")
    · rw [if_pos hback]
      rw [hback, beq_self_eq_true, Bool.true_and] at hstage
      by_cases hpos : 0 < t
      · rw [if_pos ⟨hback, hpos⟩] at hpair
        rw [if_pos (decide_eq_true hpos)] at hstage
        obtain rfl := eq_run hstage
        refine .rewinding (congrArg Prod.fst hpair) (congrArg Prod.snd hpair) ?_
        omega
      · rw [if_neg fun hboth => hpos hboth.2] at hpair
        rw [if_neg (by rwa [decide_eq_true_iff])] at hstage
        refine .waiting (inStub_of_stage hstage) ((congrArg Prod.fst hpair).trans hreplay)
          (hstepone.trans hask) ?_
        omega
    · rw [if_neg fun hboth => hback hboth.1] at hpair
      rw [beq_false_of_ne hback, Bool.false_and, if_neg Bool.false_ne_true] at hstage
      rw [if_neg hback]
      exact .waiting (inStub_of_stage hstage) ((congrArg Prod.fst hpair).trans hreplay)
        (hstepone.trans hask) hinsns'

/-- A pass of the scanning loop. -/
theorem OnTheWay.scan (h : OnTheWay t (.scan bp ep) e) (hinv : InOrder us (.scan bp ep) e)
    (hc : ∀ u ∈ us, command u ≠ some (ascii "c")) (hscan : gdbstubScan bp ep e = .ok (p', e')) :
    ∃ vs, e'.handled = e.handled ++ vs ∧ OnTheWay (position t vs) p' e' := by
  rcases scan_takesUp hinv hscan with ⟨hsame, hstage, hvars⟩ | ⟨done, u, todo, hus, -, htakes⟩
  · refine ⟨[], by rw [hsame, List.append_nil], ?_⟩
    cases h with
    | waiting hstub hreplay hstep hinsns =>
      exact .waiting (inStub_of_stage hstage) ((congrArg (·.replayMode) hvars).trans hreplay)
        ((congrArg (·.stepone) hvars).trans hstep) ((congrArg (·.machine.insns) hvars).trans hinsns)
  · have hidle := hinv.execute_eq (Or.inr rfl)
    exact ⟨[u], htakes.handled_eq, h.takesUp htakes hidle (hc u (by simp [hus]))⟩

theorem OnTheWay.receive {r : Recv} (h : OnTheWay t .recv e)
    (hrecv : gdbstubReceive r e = .ok (p', e')) : OnTheWay t p' e' := by
  cases h with
  | waiting hstub hreplay hstep hinsns =>
    obtain ⟨hstage, hvars⟩ := receive_unbuffered hrecv
    exact .waiting (inStub_of_stage hstage) ((congrArg (·.replayMode) hvars).trans hreplay)
      ((congrArg (·.stepone) hvars).trans hstep) ((congrArg (·.machine.insns) hvars).trans hinsns)

section Running

variable [DesLibrary]

/-- The rest of the emulator loop: the start of a replay or one instruction. -/
theorem OnTheWay.run (h : OnTheWay t .run e) (hskip : e.machine.skipNextInstruction = false)
    (hcourse : RunCourse e p' e') : OnTheWay t p' e' := by
  cases h with
  | waiting hstub => cases hstub
  | stepping hreplay hstep hinsns =>
    cases hcourse with
    | init hreplaying => exact absurd (hreplay.symm.trans hreplaying) Bool.false_ne_true
    | off => exact .stopped
    | step m tracefile _ hrun =>
      have hcount := (step_setup hrun).2.2 hskip
      exact .stepped hreplay hstep (hcount.trans hinsns)
    | halt => exact .stopped
  | rewinding hreplay hlim hinsns =>
    cases hcourse with
    | init => exact .replaying hreplay hlim (Nat.zero_le t)
    | off => exact .stopped
    | step m tracefile hbefore hrun =>
      have hcount := (step_setup hrun).2.2 hskip
      have hle := hbefore hreplay
      refine .replaying hreplay hlim ?_
      change m.insns ≤ t
      omega
    | halt => exact .stopped

/-- Packets are taken up in the scanning loop only. -/
theorem handled_of_tick {env : Env} (hp : p.isScan = false) (htick : tick env p e = .ok (p', e')) :
    e'.handled = e.handled := by
  cases p with
  | scan => cases hp
  | top => exact ((sameBuffer_settled e).trans (topCourse_of_tick htick).sameBuffer).handled_eq
  | recv =>
    exact congrArg (·.handled) (receive_unbuffered htick).2
  | run => exact (runCourse_of_tick htick).sameBuffer.handled_eq
  | stopped =>
    cases htick
    rfl

/-- Between two instructions no skip is pending. -/
theorem skip_of_tick {env : Env} (h : e.machine.skipNextInstruction = false) (hinv : InOrder us p e)
    (htick : tick env p e = .ok (p', e')) : e'.machine.skipNextInstruction = false := by
  cases p with
  | top =>
    have hsettled : e.settled.machine.skipNextInstruction = false := by
      unfold Emu.settled
      split <;> exact h
    cases topCourse_of_tick htick <;> exact hsettled
  | recv =>
    exact (congrArg (·.machine.skipNextInstruction) (receive_unbuffered htick).2).trans h
  | scan bp ep =>
    rcases scan_takesUp hinv htick with ⟨-, -, hvars⟩ | ⟨done, u, todo, -, -, htakes⟩
    · exact (congrArg (·.machine.skipNextInstruction) hvars).trans h
    · obtain ⟨buf, ack, e₁, -, hvars, heffect⟩ := htakes.effect
      have hcore : e₁.machine.skipNextInstruction = e.machine.skipNextInstruction := by
        rw [heffect.core_eq]
      exact (congrArg (·.machine.skipNextInstruction) hvars).trans (hcore.trans h)
  | run =>
    cases runCourse_of_tick htick with
    | init => rfl
    | off => exact h
    | step m tracefile _ hrun => exact (step_setup hrun).2.1
    | halt m tracefile hrun => exact (step_setup hrun).2.1
  | stopped =>
    cases htick
    exact h

theorem OnTheWay.tick {env : Env} (h : OnTheWay t p e) (hinv : InOrder us p e)
    (hlistening : Listening e) (hskip : e.machine.skipNextInstruction = false)
    (hc : ∀ u ∈ us, command u ≠ some (ascii "c")) (htick : tick env p e = .ok (p', e')) :
    ∃ vs, e'.handled = e.handled ++ vs ∧ OnTheWay (position t vs) p' e' := by
  cases p with
  | scan bp ep => exact h.scan hinv hc htick
  | top =>
    have hsame := handled_of_tick rfl htick
    exact ⟨[], by rw [hsame, List.append_nil], h.top hlistening (topCourse_of_tick htick)⟩
  | recv =>
    have hsame := handled_of_tick rfl htick
    exact ⟨[], by rw [hsame, List.append_nil], h.receive htick⟩
  | run =>
    have hsame := handled_of_tick rfl htick
    exact ⟨[], by rw [hsame, List.append_nil], h.run hskip (runCourse_of_tick htick)⟩
  | stopped =>
    cases htick
    exact ⟨[], (List.append_nil _).symm, .stopped⟩

theorem Served.onTheWay {m : Machine} {insnlimit : ℕ} {tracehex : Bool}
    {tracefile : Option (List Byte)}
    (h : Served (Emu.attached m insnlimit tracehex tracefile) us p e)
    (hskip : m.skipNextInstruction = false) (hc : ∀ u ∈ us, command u ≠ some (ascii "c")) :
    e.machine.skipNextInstruction = false ∧ OnTheWay (position m.insns e.handled) p e := by
  induction h with
  | start => exact ⟨hskip, .stepped rfl rfl rfl⟩
  | tick env hserved _ htick ih =>
    have hbefore := fun u hu => hc u (List.mem_append_left _ hu)
    obtain ⟨hquiet, hway⟩ := ih hbefore
    have hinv := hserved.inOrder (inOrder_start _ _ _ _)
    obtain ⟨vs, hhandled, hnext⟩ := hway.tick hinv hserved.listening hquiet hbefore htick
    rw [hhandled, position_append]
    exact ⟨skip_of_tick hquiet hinv htick, hnext⟩

/-- In a session without `c`, however often it steps forth and back and whatever it writes in
between: whenever the client has the control, as many instructions are done as its steps forth and
back lead to, and no replay or step is left to do. -/
theorem steps_forth_and_back (m : Machine) (insnlimit : ℕ) (tracehex : Bool)
    (tracefile : Option (List Byte)) (us : List (List Byte)) (p : Point) (e : Emu)
    (h : Served (Emu.attached m insnlimit tracehex tracefile) us p e)
    (hskip : m.skipNextInstruction = false) (hc : ∀ u ∈ us, command u ≠ some (ascii "c"))
    (hstub : p.inStub = true) :
    e.machine.insns = position m.insns e.handled ∧ e.replayMode = false ∧ e.stepone = false := by
  cases (h.onTheWay hskip hc).2 with
  | waiting _ hreplay hstep hinsns => exact ⟨hinsns, hreplay, hstep⟩
  | stepping | stepped | rewinding | replaying | stopped => cases hstub

end Running

section Query

attribute [local instance] idleDes

/-- A step back at the beginning, two steps and a step back, on the image `LDI r16, 0x55`. -/
theorem steps_forth_and_back_steps :
    let e₀ := Emu.attached (Machine.powerOn fun _ => 0xe505) 0 false none
    let us := [ascii "bs", ascii "s", ascii "s", ascii "bs"].map framed
    ∃ e, Served e₀ us .recv e ∧ e.handled = us ∧ e.machine.insns = 1 ∧
      e.machine.insns = position 0 e.handled ∧ e.replayMode = false ∧ e.stepone = false := by
  intro e₀ us
  have hus := sendable_framed [ascii "bs", ascii "s", ascii "s", ascii "bs"] (by decide)
  obtain ⟨e, hserved, he⟩ := exists_session e₀ (fun e => (e.handled, e.machine.insns))
    (fun _ => rfl) (n := 13) (x := (us, 1)) rfl hus (by decide +kernel)
  obtain ⟨hdone, hcount⟩ := Prod.mk.inj he
  exact ⟨e, hserved, hdone, hcount,
    steps_forth_and_back _ 0 false none us .recv e hserved rfl (by decide) rfl⟩

end Query

end AvrEmu
