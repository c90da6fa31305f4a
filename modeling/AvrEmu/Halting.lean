import AvrEmu.BufferBounds
import AvrEmu.Main

/-!
# The end of a run

Unless something aborts, the emulator stops at the limit for instructions and nowhere else. No bytes
that a client sends change that, nor the image in flash.
-/

namespace AvrEmu

variable {e e' : Emu} {p p' : Point} {bp ep : ℕ} {flash : ℕ → Word} {insnlimit : ℕ}

/-- A pass of the scanning loop does what a command does or nothing, whatever lies in the buffer. -/
theorem InBounds.scan_effect (h : InBounds (.scan bp ep) e)
    (hscan : gdbstubScan bp ep e = .ok (p', e')) : p' ≠ .stopped ∧
      (e'.unbuffered = e.unbuffered ∨ ∃ asked buf log e₁, e'.unbuffered = e₁.unbuffered ∧
        Effect asked { e with clientbuf := buf, log := log } e₁) := by
  have hidle := h.execute_eq rfl
  have hlength : ep ≤ e.clientbuf.length := h.length_eq ▸ (h.scanning bp ep rfl).2.1
  have hleft (bp' : ℕ) (e₁ : Emu) : (gdbstubScanned bp' ep e₁).1 ≠ .stopped ∧
      (gdbstubScanned bp' ep e₁).2.unbuffered = e₁.unbuffered := by
    obtain ⟨buf, n, hframe⟩ := scanned_frame bp' ep e₁
    refine ⟨?_, hframe ▸ rfl⟩
    rw [scanned_eq]
    dsimp only
    split <;> simp
  by_cases hunit : ∃ u t, IsUnit u ∧ e.pending bp ep = u ++ t
  · obtain ⟨u, t, hu, hpend⟩ := hunit
    rcases scan_unit hu hlength hpend hidle with ⟨a, ha⟩ | ⟨e₁, hpassed, heq⟩
    · rw [ha] at hscan
      cases hscan
    have hpair : p' ≠ .stopped ∧ e'.unbuffered = e₁.unbuffered := by
      rw [heq] at hscan
      split at hscan
      · have hnext := hleft (bp + u.length) e₁
        rwa [Except.ok.inj hscan] at hnext
      · cases hscan
        exact ⟨by simp, rfl⟩
    refine ⟨hpair.1, ?_⟩
    rcases hpassed.effect with ⟨-, rfl⟩ | ⟨-, buf, ack, -, heffect⟩
    · exact Or.inl hpair.2
    · exact Or.inr ⟨_, buf, _, e₁, hpair.2, heffect⟩
  · by_cases hnone : e.pending bp ep = []
    · have hend : ep ≤ bp := by
        have hsize := length_pending bp hlength
        rw [hnone, List.length_nil] at hsize
        omega
      rw [scan_empty hend] at hscan
      have hnext := hleft bp e
      rw [Except.ok.inj hscan] at hnext
      exact ⟨hnext.1, Or.inl hnext.2⟩
    · have hunfinished : Unfinished (e.pending bp ep) := fun u t hu heq => hunit ⟨u, t, hu, heq⟩
      rw [scan_unfinished hunfinished hnone hlength rfl] at hscan
      cases hscan
      exact ⟨by simp, Or.inl rfl⟩

/-- What holds of a run: the image is in flash, no skip is pending between two instructions, and the
limit is kept. -/
structure Limited (flash : ℕ → Word) (insnlimit : ℕ) (p : Point) (e : Emu) : Prop where
  flash_eq : e.machine.flash = flash
  insnlimit_eq : e.insnlimit = insnlimit
  off_eq : e.off = false
  skip_eq : e.machine.skipNextInstruction = false
  running : p ≠ .stopped → insnlimit = 0 ∨ e.machine.insns < insnlimit
  halted : p = .stopped → insnlimit ≠ 0 ∧ e.machine.insns = insnlimit

theorem Limited.of_same (h : Limited flash insnlimit p e) (hp : p ≠ .stopped) (hp' : p' ≠ .stopped)
    (hflash : e'.machine.flash = e.machine.flash) (hlimit : e'.insnlimit = e.insnlimit)
    (hoff : e'.off = e.off)
    (hskip : e'.machine.skipNextInstruction = e.machine.skipNextInstruction)
    (hinsns : e'.machine.insns = e.machine.insns) : Limited flash insnlimit p' e' := by
  refine ⟨hflash.trans h.flash_eq, hlimit.trans h.insnlimit_eq, hoff.trans h.off_eq,
    hskip.trans h.skip_eq, fun _ => ?_, fun hstopped => absurd hstopped hp'⟩
  rw [hinsns]
  exact h.running hp

theorem Limited.of_unbuffered (h : Limited flash insnlimit p e) (hp : p ≠ .stopped)
    (hp' : p' ≠ .stopped) (hsame : e'.unbuffered = e.unbuffered) :
    Limited flash insnlimit p' e' := by
  have hmachine : e'.machine = e.machine := congrArg (·.machine) hsame
  exact h.of_same hp hp' (by rw [hmachine]) (congrArg (·.insnlimit) hsame)
    (congrArg (·.off) hsame) (by rw [hmachine]) (by rw [hmachine])

theorem Limited.scan (h : Limited flash insnlimit (.scan bp ep) e)
    (hbounds : InBounds (.scan bp ep) e) (hscan : gdbstubScan bp ep e = .ok (p', e')) :
    Limited flash insnlimit p' e' := by
  have hp : Point.scan bp ep ≠ .stopped := by simp
  obtain ⟨hp', hsame | ⟨asked, buf, log, e₁, hsame, heffect⟩⟩ := hbounds.scan_effect hscan
  · exact h.of_unbuffered hp hp' hsame
  · have heffected : Limited flash insnlimit (.scan bp ep) e₁ := by
      refine h.of_same hp hp ?_ ?_ ?_ ?_ heffect.insns_eq
      · rw [heffect.core_eq]
      · rw [heffect.frame]
      · rw [heffect.frame]
      · rw [heffect.core_eq]
    exact heffected.of_unbuffered hp hp' hsame

theorem Limited.receive {r : Recv} (h : Limited flash insnlimit .recv e)
    (hrecv : gdbstubReceive r e = .ok (p', e')) : Limited flash insnlimit p' e' := by
  obtain ⟨hstage, hvars⟩ := receive_unbuffered hrecv
  refine h.of_unbuffered (by simp) ?_ hvars
  rintro rfl
  cases hstage

theorem Limited.top (h : Limited flash insnlimit .top e) (hcourse : TopCourse e.settled p' e') :
    Limited flash insnlimit p' e' := by
  have hsettled : Limited flash insnlimit .top e.settled := by
    unfold Emu.settled
    split
    · exact h.of_same (by simp) (by simp) rfl rfl rfl rfl rfl
    · exact h
  cases hcourse with
  | replay | pass | stepped | breakpoint =>
    exact hsettled.of_same (by simp) (by simp) rfl rfl rfl rfl rfl

section Running

variable [DesLibrary]

/-- The emulator stops after an instruction if the limit is reached. -/
theorem halt_of_run (h : emulateRun e = .ok (.stopped, e')) (hoff : e.off = false) :
    e'.insnlimit ≠ 0 ∧ e'.insnlimit ≤ e'.machine.insns := by
  unfold emulateRun at h
  split at h
  · cases h
  rw [if_neg (by rw [hoff]; exact Bool.false_ne_true)] at h
  obtain ⟨e₁, hrun, h⟩ := bind_eq_ok h
  obtain ⟨tracefile, heq⟩ := emulate1_eq_step e
  rw [heq] at hrun
  cases hstep : e.machine.step with
  | error a =>
    rw [hstep] at hrun
    cases hrun
  | ok m =>
    rw [hstep] at hrun
    cases hrun
    rw [if_neg (by rw [hoff]; exact Bool.false_ne_true)] at h
    split at h
    · rename_i hlimit
      cases h
      rwa [Bool.and_eq_true, bne_iff_ne, decide_eq_true_iff] at hlimit
    · cases h

theorem Limited.run (h : Limited flash insnlimit .run e) (hrun : emulateRun e = .ok (p', e')) :
    Limited flash insnlimit p' e' := by
  have hrunning := h.running (by simp)
  cases hcourse : runCourse_of_tick hrun with
  | init =>
    refine ⟨h.flash_eq, h.insnlimit_eq, rfl, rfl, fun _ => ?_, fun hstopped => (by cases hstopped)⟩
    have hzero : e.init.machine.insns = 0 := rfl
    rw [hzero]
    omega
  | off hoff => exact absurd (h.off_eq.symm.trans hoff) Bool.false_ne_true
  | step m tracefile _ hstep hlimit =>
    obtain ⟨hsetup, hskip, -⟩ := step_setup hstep
    rw [h.insnlimit_eq] at hlimit
    exact ⟨hsetup.flash_eq.trans h.flash_eq, h.insnlimit_eq, h.off_eq, hskip, fun _ => hlimit,
      fun hstopped => (by cases hstopped)⟩
  | halt m tracefile hstep =>
    obtain ⟨hsetup, hskip, hinsns⟩ := step_setup hstep
    have hlimit : e.insnlimit ≠ 0 ∧ e.insnlimit ≤ m.insns := halt_of_run hrun h.off_eq
    have hcount := hinsns h.skip_eq
    rw [h.insnlimit_eq] at hlimit
    have hall : m.insns = insnlimit := by omega
    exact ⟨hsetup.flash_eq.trans h.flash_eq, h.insnlimit_eq, h.off_eq, hskip,
      fun hnot => absurd rfl hnot, fun _ => ⟨hlimit.1, hall⟩⟩

theorem Limited.tick {env : Env} (h : Limited flash insnlimit p e) (hbounds : InBounds p e)
    (htick : tick env p e = .ok (p', e')) : Limited flash insnlimit p' e' := by
  cases p with
  | top => exact h.top (topCourse_of_tick htick)
  | recv => exact h.receive htick
  | scan bp ep => exact h.scan hbounds htick
  | run => exact h.run htick
  | stopped =>
    cases htick
    exact h

theorem Limited.ticks {envs : List Env} (h : Limited flash insnlimit p e) (hbounds : InBounds p e)
    (hticks : ticks envs p e = .ok (p', e')) : Limited flash insnlimit p' e' := by
  induction envs generalizing p e with
  | nil =>
    cases hticks
    exact h
  | cons env envs ih =>
    rw [AvrEmu.ticks] at hticks
    cases htick : AvrEmu.tick env p e with
    | error a =>
      rw [htick] at hticks
      cases hticks
    | ok r =>
      rw [htick] at hticks
      exact ih (h.tick hbounds htick) (hbounds.tick htick) hticks

/-- With a client or without one, and whatever it sends, in whatever portions, as long as nothing
aborts: the image stays in flash; without a limit for instructions the emulator goes on; and with
one it never does more instructions, and stops when it has done as many. -/
theorem limit_kept (waitgdb : Bool) (insnlimit : ℕ) (tracehex : Bool)
    (tracefile : Option (List Byte)) (chunks : List (List Word)) (blank : ℕ → Word)
    (envs : List Env) (p : Point) (e : Emu)
    (h : AvrEmu.ticks envs .top (mainStart waitgdb insnlimit tracehex tracefile chunks blank) =
      .ok (p, e)) :
    e.machine.flash = (loadImage chunks 0 blank).2 ∧ (insnlimit = 0 → p ≠ .stopped) ∧
    (insnlimit ≠ 0 → e.machine.insns ≤ insnlimit ∧
      (p = .stopped ↔ e.machine.insns = insnlimit)) := by
  have hbounds : InBounds .top
      (mainStart waitgdb insnlimit tracehex tracefile chunks blank) := by
    cases waitgdb with
    | true => exact inBounds_start _ _ _ _
    | false =>
      exact ⟨List.length_replicate, fun hstub => (by cases hstub),
        fun _ => (show 0 + 5 ≤ pktBufMax by decide), fun _ _ hpoint => (by cases hpoint)⟩
  have hstart : Limited (loadImage chunks 0 blank).2 insnlimit .top
      (mainStart waitgdb insnlimit tracehex tracefile chunks blank) := by
    cases waitgdb with
    | true | false =>
      exact ⟨rfl, rfl, rfl, rfl, fun _ => Nat.eq_zero_or_pos insnlimit,
        fun hstopped => (by cases hstopped)⟩
  have hlimited := hstart.ticks hbounds h
  refine ⟨hlimited.flash_eq, fun hzero hstopped => (hlimited.halted hstopped).1 hzero,
    fun hne => ?_⟩
  by_cases hstopped : p = .stopped
  · have hall := (hlimited.halted hstopped).2
    exact ⟨hall.le, fun _ => hall, fun _ => hstopped⟩
  · have hless := (hlimited.running hstopped).resolve_left hne
    exact ⟨hless.le, fun heq => absurd heq hstopped, fun heq => by omega⟩

end Running

section Idle

attribute [local instance] idleDes

/-- A client that makes as many steps as the limit allows, with garbage between them. -/
theorem limit_kept_steps :
    let envs : List Env := [⟨false, .wouldBlock⟩, ⟨false, .data (ascii "$s#73")⟩,
      ⟨false, .wouldBlock⟩, ⟨false, .wouldBlock⟩, ⟨false, .wouldBlock⟩,
      ⟨false, .data (ascii "+x#00$s#73")⟩, ⟨false, .wouldBlock⟩, ⟨false, .wouldBlock⟩,
      ⟨false, .wouldBlock⟩, ⟨false, .wouldBlock⟩]
    let e₀ := mainStart true 2 false none [[0xe505, 0xe505]] fun _ => 0
    ∃ p e, ticks envs .top e₀ = .ok (p, e) ∧ p = .stopped ∧ e.machine.memory 16 = 0x55 ∧
      e.machine.flash = (loadImage [[0xe505, 0xe505]] 0 fun _ => 0).2 ∧ e.machine.insns ≤ 2 ∧
      (p = .stopped ↔ e.machine.insns = 2) := by
  intro envs e₀
  have hcourse : (ticks envs .top e₀).toOption.map (fun r => (r.1, r.2.machine.memory 16)) =
      some (.stopped, 0x55) := by
    decide +kernel
  obtain ⟨⟨p, e⟩, hticks, hend⟩ := exists_of_toOption hcourse
  obtain ⟨hstopped, hmemory⟩ := Prod.mk.inj hend
  obtain ⟨hflash, -, hlimit⟩ := limit_kept true 2 false none _ _ envs p e hticks
  exact ⟨p, e, hticks, hstopped, hmemory, hflash, hlimit (by decide)⟩

end Idle

end AvrEmu
