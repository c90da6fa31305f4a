import AvrEmu.Breakpoints
import AvrEmu.Lib.StaleBits

/-!
# Reverse steps

A `bs` packet resets the machine and replays its run up to the instruction before the last one. But
`init` leaves data memory as it is, so the replay starts from what the run has left there and not
from the cleared memory that the run has started from.
-/

namespace AvrEmu

open CellProgram

variable {e e' : Emu} {p p' : Point} {bp ep n : ℕ} {us : List (List Byte)} {m m' m₁ : Machine}

/-! ## What a step depends on -/

/-- The machine apart from the two variables that every fetch sets before they are used. -/
def Machine.visible (m : Machine) : Machine :=
  m.mapCore fun s => { s with pcStart := 0, instrSize := 0 }

/-- A machine that has been reset differs from one that has just been powered on in its memory. -/
theorem visible_init (m : Machine) :
    m.init.visible = { Machine.powerOn m.flash with memory := m.memory } := rfl

section Steps

variable [DesLibrary]

theorem exec_fetch_visible (m : Machine) : exec fetch m.visible = exec fetch m := by
  simp only [fetch, exec_bind, exec_modifyCore]
  rfl

/-- A step depends on nothing else. -/
theorem step_visible (m : Machine) : m.visible.step = m.step := by
  simp only [Machine.step, emulate1, exec_bind, exec_fetch_visible]

theorem stepN_succ_visible (m : Machine) (n : ℕ) : m.visible.stepN (n + 1) = m.stepN (n + 1) := by
  induction n with
  | zero => exact step_visible m
  | succ n ih => rw [Machine.stepN, ih, ← Machine.stepN]

/-- Machines that differ in these variables only have the same runs. -/
theorem stepN_of_visible_eq (h : m'.visible = m.visible) (hrun : m.stepN n = .ok m₁) :
    ∃ m₁', m'.stepN n = .ok m₁' ∧ m₁'.visible = m₁.visible := by
  cases n with
  | zero =>
    cases hrun
    exact ⟨m', rfl, h⟩
  | succ n =>
    refine ⟨m₁, ?_, rfl⟩
    rw [← stepN_succ_visible, h, stepN_succ_visible, hrun]

/-- Before the end of a run there are its earlier steps. -/
theorem stepN_of_le {j : ℕ} (hj : j ≤ n) (hrun : m.stepN n = .ok m') :
    ∃ m₁, m.stepN j = .ok m₁ := by
  induction n generalizing m' with
  | zero => exact ⟨m, by rw [Nat.le_zero.mp hj, stepN_zero]⟩
  | succ n ih =>
    obtain ⟨m₂, hrun₂, -⟩ := stepN_succ_eq_ok hrun
    rcases Nat.le_succ_iff.mp hj with hle | rfl
    · exact ih hle hrun₂
    · exact ⟨m', hrun⟩

/-! ## Runs from other memory -/

/-- The data memory accesses of the first `n` steps. -/
def Machine.touchedIn (m : Machine) : ℕ → List (Access 8)
  | 0 => []
  | n + 1 => m.touchedIn n ++ touched (emulate1 false) (m.after n)

/-- A step that reads no stale bit. -/
theorem step_of_readsFresh {stale c : ℕ → Byte} (hagree : AgreeUpTo stale m.memory c)
    (hstep : m.step = .ok m₁) (hfresh : ReadsFresh stale (touched (emulate1 false) m)) :
    ∃ d, { m with memory := c }.step = .ok { m₁ with memory := d } ∧
      AgreeUpTo (refresh stale (touched (emulate1 false) m)) m₁.memory d := by
  unfold Machine.step exec at hstep
  cases hrun : (emulate1 false).run m.memory m.toCore with
  | error a => simp [hrun] at hstep
  | ok r =>
    obtain ⟨words, memory, s⟩ := r
    simp only [hrun, Except.ok.injEq] at hstep
    subst hstep
    obtain ⟨d, hrun', hd⟩ := run_of_readsFresh hagree hrun hfresh
    refine ⟨d, ?_, hd⟩
    simp only [Machine.step, exec, hrun']

/-- A run that reads no stale bit takes the same course, and what it has not overwritten is stale at
its end. -/
theorem stepN_of_readsFresh {stale c : ℕ → Byte} (hagree : AgreeUpTo stale m.memory c)
    (hrun : m.stepN n = .ok m₁) (hfresh : ReadsFresh stale (m.touchedIn n)) :
    ∃ d, { m with memory := c }.stepN n = .ok { m₁ with memory := d } ∧
      AgreeUpTo (refresh stale (m.touchedIn n)) m₁.memory d := by
  induction n generalizing m₁ with
  | zero =>
    cases hrun
    exact ⟨c, rfl, hagree⟩
  | succ n ih =>
    obtain ⟨m₂, hrun₂, hstep⟩ := stepN_succ_eq_ok hrun
    have hafter : m.after n = m₂ := by
      rw [Machine.after, hrun₂]
      rfl
    rw [Machine.touchedIn, readsFresh_append, hafter] at hfresh
    obtain ⟨c₂, hrun', hagree₂⟩ := ih hrun₂ hfresh.1
    obtain ⟨d, hstep', hd⟩ := step_of_readsFresh hagree₂ hstep hfresh.2
    refine ⟨d, (stepN_succ hrun').trans hstep', ?_⟩
    rwa [Machine.touchedIn, refresh_append, hafter]

/-- A run that overwrites every stale bit before it reads it ends as it does from its own memory. -/
theorem stepN_of_restores {c : ℕ → Byte} (hrun : m.stepN n = .ok m₁)
    (hrestores : Restores (fun i => m.memory i ^^^ c i) (m.touchedIn n)) :
    { m with memory := c }.stepN n = .ok m₁ := by
  obtain ⟨d, hrun', hagree⟩ := stepN_of_readsFresh (agreeUpTo_xor _ _) hrun hrestores.1
  rw [hrun', ← hagree.eq_of_fresh hrestores.2]

/-! ## The replay -/

/-- A replay is about to begin: the machine is one instruction past the end of it. -/
structure Emu.Rewinding (e : Emu) : Prop where
  connected_eq : e.connected = true
  replayMode_eq : e.replayMode = true
  insns_eq : e.machine.insns = e.insnreplaylim + 1
  limit : e.insnlimit = 0 ∨ e.insnreplaylim < e.insnlimit

/-- The emulator when the stub has taken over at the end of a replay. -/
def Emu.replayed (e : Emu) (m : Machine) (tracefile : Option (List Byte)) : Emu :=
  { e.init.arrived m tracefile with
    replayMode := false
    insnreplaylim := 0
    stepone := false
    execute := false }

/-- The machine is reset. -/
theorem emulateRun_rewinding (h : e.Rewinding) : emulateRun e = .ok (.top, e.init) := by
  have hlt : e.insnreplaylim < e.machine.insns := by
    rw [h.insns_eq]
    exact Nat.lt_succ_self _
  rw [emulateRun, h.replayMode_eq, Bool.true_and, decide_eq_true hlt, if_pos rfl, pure_eq_ok]

omit [DesLibrary] in
/-- During the replay the stub is passed by. -/
theorem emulateTop_replay (h : e.Rewinding) (hlt : m.insns < e.insnreplaylim)
    (tracefile : Option (List Byte)) :
    emulateTop false (e.init.arrived m tracefile) = .ok (.run, e.init.arrived m tracefile) := by
  have hreplay : (e.init.arrived m tracefile).replayMode = true := h.replayMode_eq
  have hnot : ¬ (e.init.arrived m tracefile).insnreplaylim ≤
      (e.init.arrived m tracefile).machine.insns := Nat.not_le.mpr hlt
  rw [emulateTop, if_neg Bool.false_ne_true, hreplay, Bool.true_and, decide_eq_false hnot]
  simp only [Bool.false_eq_true, if_false, hreplay, if_true, pure_eq_ok]

/-- Each turn of it executes one instruction. -/
theorem emulateRun_replay (h : e.Rewinding) (hskip : m.skipNextInstruction = false)
    (hlt : m.insns < e.insnreplaylim) (tracefile : Option (List Byte)) :
    ∃ tracefile', emulateRun (e.init.arrived m tracefile) =
      m.step.map fun m' => (.top, e.init.arrived m' tracefile') := by
  obtain ⟨tracefile', hemulate⟩ := emulate1_eq_step (e.init.arrived m tracefile)
  have hmachine : (e.init.arrived m tracefile).machine = m := rfl
  have hnot : ¬ (e.init.arrived m tracefile).insnreplaylim <
      (e.init.arrived m tracefile).machine.insns := Nat.not_lt.mpr hlt.le
  refine ⟨tracefile', ?_⟩
  rw [emulateRun, decide_eq_false hnot, Bool.and_false, if_neg Bool.false_ne_true,
    show (e.init.arrived m tracefile).off = false from rfl, if_neg Bool.false_ne_true, hemulate,
    hmachine]
  cases hstep : m.step with
  | error a => rfl
  | ok m' =>
    have hinsns := (step_setup hstep).2.2 hskip
    have hgoes : ¬ (e.insnlimit != 0 && e.insnlimit ≤ m'.insns) = true := by
      rw [Bool.and_eq_true, bne_iff_ne, decide_eq_true_iff]
      rcases h.limit with hzero | hlimit
      · exact fun hboth => hboth.1 hzero
      · exact fun hboth => by omega
    exact if_neg hgoes

omit [DesLibrary] in
/-- At its end the stub takes over. -/
theorem emulateTop_replayed (h : e.Rewinding) (hend : m.insns = e.insnreplaylim)
    (tracefile : Option (List Byte)) :
    emulateTop false (e.init.arrived m tracefile) = .ok (.recv, e.replayed m tracefile) := by
  have hreplay : (e.init.arrived m tracefile).replayMode = true := h.replayMode_eq
  have hle : (e.init.arrived m tracefile).insnreplaylim ≤
      (e.init.arrived m tracefile).machine.insns := hend.ge
  have hconn : (e.init.arrived m tracefile).connected = true := h.connected_eq
  rw [emulateTop, if_neg Bool.false_ne_true, hreplay, Bool.true_and, decide_eq_true hle]
  simp only [if_true, Bool.false_eq_true, if_false, gdbstubIntr, hconn, Bool.not_true,
    gdbstubInteractive, require_true, ok_bind, pure_eq_ok]
  rw [← hconn]
  rfl

/-- The replay up to its `j`-th instruction. -/
theorem ticks_replay {j : ℕ} {envs : List Env} (h : e.Rewinding) (hj : j ≤ e.insnreplaylim)
    (hlen : envs.length = 2 * j + 1) (hquiet : ∀ env ∈ envs, env.ctrlc = false) :
    ∃ tracefile, ticks envs .run e =
      (e.machine.init.stepN j).map fun m => (.top, e.init.arrived m tracefile) := by
  induction j generalizing envs with
  | zero =>
    obtain ⟨env, rfl⟩ := List.length_eq_one_iff.mp hlen
    refine ⟨e.tracefile, ?_⟩
    rw [ticks_singleton]
    exact emulateRun_rewinding h
  | succ j ih =>
    obtain ⟨before, a, b, rfl, hbefore, hbefores, ha, -⟩ := exists_last_two hlen hquiet
    obtain ⟨tracefile, hticks⟩ := ih (by omega) hbefore hbefores
    rw [ticks_append, hticks, Machine.stepN]
    cases hrun : e.machine.init.stepN j with
    | error x => exact ⟨tracefile, rfl⟩
    | ok m =>
      have hlt : m.insns < e.insnreplaylim := by
        rw [insns_of_stepN rfl hrun]
        change 0 + j < _
        omega
      obtain ⟨tracefile', hstep⟩ := emulateRun_replay h (skip_of_stepN rfl hrun) hlt tracefile
      refine ⟨tracefile', ?_⟩
      have hfirst : tick a .top (e.init.arrived m tracefile) =
          .ok (.run, e.init.arrived m tracefile) := by
        rw [tick, ha]
        exact emulateTop_replay h hlt tracefile
      change ticks [a, b] .top (e.init.arrived m tracefile) = _
      rw [ticks, hfirst]
      dsimp only
      rw [ticks_singleton]
      exact hstep

/-- The whole replay. -/
theorem ticks_replayed {envs : List Env} (h : e.Rewinding)
    (hlen : envs.length = 2 * (e.insnreplaylim + 1)) (hquiet : ∀ env ∈ envs, env.ctrlc = false) :
    ∃ tracefile, ticks envs .run e =
      (e.machine.init.stepN e.insnreplaylim).map fun m => (.recv, e.replayed m tracefile) := by
  obtain ⟨before, env, rfl⟩ : ∃ before env, envs = before ++ [env] :=
    ⟨_, _, (List.dropLast_concat_getLast (List.ne_nil_of_length_pos (by omega))).symm⟩
  have hbefore : before.length = 2 * e.insnreplaylim + 1 := by
    rw [List.length_append, List.length_singleton] at hlen
    omega
  obtain ⟨tracefile, hticks⟩ := ticks_replay h (Nat.le_refl _) hbefore fun env henv =>
    hquiet env (List.mem_append_left _ henv)
  refine ⟨tracefile, ?_⟩
  rw [ticks_append, hticks]
  cases hrun : e.machine.init.stepN e.insnreplaylim with
  | error x => rfl
  | ok m =>
    have hend : m.insns = e.insnreplaylim :=
      (insns_of_stepN rfl hrun).trans (Nat.zero_add _)
    change ticks [env] .top (e.init.arrived m tracefile) = _
    rw [ticks_singleton, tick, hquiet env (by simp)]
    exact emulateTop_replayed h hend tracefile

/-- Until then control stays with the machine. -/
theorem ticks_take_replay {t : ℕ} {envs : List Env} (h : e.Rewinding)
    (hrun : e.machine.init.stepN e.insnreplaylim = .ok m)
    (hlen : envs.length = 2 * (e.insnreplaylim + 1)) (hquiet : ∀ env ∈ envs, env.ctrlc = false)
    (ht : t < 2 * (e.insnreplaylim + 1)) :
    ∃ p e₁, ticks (envs.take t) .run e = .ok (p, e₁) ∧ p ≠ .recv := by
  have hodd (j : ℕ) (hj : j ≤ e.insnreplaylim) : ∃ m₁ tracefile,
      e.machine.init.stepN j = .ok m₁ ∧
      ticks (envs.take (2 * j + 1)) .run e = .ok (.top, e.init.arrived m₁ tracefile) := by
    have htake : (envs.take (2 * j + 1)).length = 2 * j + 1 := by
      rw [List.length_take]
      omega
    obtain ⟨m₁, hrun₁⟩ := stepN_of_le hj hrun
    obtain ⟨tracefile, hticks⟩ := ticks_replay h hj htake fun env henv =>
      hquiet env (List.mem_of_mem_take henv)
    rw [hrun₁] at hticks
    exact ⟨m₁, tracefile, hrun₁, hticks⟩
  obtain ⟨j, rfl | rfl | rfl⟩ : ∃ j, t = 0 ∨ t = 2 * j + 1 ∨ t = 2 * j + 2 :=
    ⟨(t - 1) / 2, by omega⟩
  · exact ⟨.run, e, rfl, fun heq => by cases heq⟩
  · obtain ⟨m₁, tracefile, -, hticks⟩ := hodd j (by omega)
    exact ⟨.top, _, hticks, fun heq => by cases heq⟩
  · obtain ⟨m₁, tracefile, hrun₁, hticks⟩ := hodd j (by omega)
    have hlt : 2 * j + 1 < envs.length := by omega
    have hinsns : m₁.insns < e.insnreplaylim := by
      rw [insns_of_stepN rfl hrun₁]
      change 0 + j < _
      omega
    refine ⟨.run, e.init.arrived m₁ tracefile, ?_, fun heq => by cases heq⟩
    rw [List.take_succ_eq_append_getElem hlt, ticks_append, hticks]
    dsimp only
    rw [ticks_singleton, tick, hquiet _ (List.getElem_mem hlt)]
    exact emulateTop_replay h hinsns tracefile

/-- The stub takes over where the replay from the reset machine ends. -/
theorem entersStub_replay (h : e.Rewinding) : e.EntersStub e.machine.insns m ↔
    e.machine.init.stepN e.insnreplaylim = .ok m := by
  rw [h.insns_eq]
  constructor
  · intro henters
    obtain ⟨envs, hlen, hquiet⟩ := exists_quiet (2 * (e.insnreplaylim + 1))
    obtain ⟨⟨e₁, hticks, rfl⟩, -⟩ := henters envs hlen hquiet
    obtain ⟨tracefile, hreplayed⟩ := ticks_replayed h hlen hquiet
    rw [hticks] at hreplayed
    cases hrun : e.machine.init.stepN e.insnreplaylim with
    | error x =>
      rw [hrun] at hreplayed
      cases hreplayed
    | ok m₁ =>
      rw [hrun] at hreplayed
      cases hreplayed
      rfl
  · intro hrun envs hlen hquiet
    obtain ⟨tracefile, hreplayed⟩ := ticks_replayed h hlen hquiet
    rw [hrun] at hreplayed
    exact ⟨⟨_, hreplayed, rfl⟩, fun t ht => ticks_take_replay h hrun hlen hquiet ht⟩

end Steps

/-! ## In a session -/

/-- The image is in flash, and the emulator has not been stopped by the limit for instructions. -/
structure InProgress (flash : ℕ → Word) (p : Point) (e : Emu) : Prop where
  flash_eq : e.machine.flash = flash
  limit : p ≠ .stopped →
    e.machine.insns = 0 ∨ e.insnlimit = 0 ∨ e.machine.insns < e.insnlimit

variable {flash : ℕ → Word}

theorem InProgress.of_same (h : InProgress flash p e) (hp : p ≠ .stopped)
    (hflash : e'.machine.flash = e.machine.flash) (hinsns : e'.machine.insns = e.machine.insns)
    (hlimit : e'.insnlimit = e.insnlimit) : InProgress flash p' e' := by
  refine ⟨hflash.trans h.flash_eq, fun _ => ?_⟩
  rw [hinsns, hlimit]
  exact h.limit hp

theorem InProgress.scan (h : InProgress flash (.scan bp ep) e) (hinv : InOrder us (.scan bp ep) e)
    (hscan : gdbstubScan bp ep e = .ok (p', e')) : InProgress flash p' e' := by
  have hp : Point.scan bp ep ≠ .stopped := fun heq => by cases heq
  rcases hinv.scan_cases hscan with
    ⟨-, -, hpair⟩ | ⟨done, u, todo, e₁, -, -, -, hpassed, hpair⟩
  · obtain ⟨buf, n, hframe⟩ := scanned_frame bp ep e
    rw [scanned_eq, hframe] at hpair
    cases hpair
    exact h.of_same hp rfl rfl rfl
  have hcore : e₁.machine.flash = e.machine.flash ∧ e₁.machine.insns = e.machine.insns ∧
      e₁.insnlimit = e.insnlimit := by
    rcases hpassed.effect with ⟨-, rfl⟩ | ⟨-, buf, ack, -, heffect⟩
    · exact ⟨rfl, rfl, rfl⟩
    · rw [heffect.core_eq, heffect.frame]
      exact ⟨rfl, rfl, rfl⟩
  obtain ⟨hflash, hinsns, hlimit⟩ := hcore
  split at hpair
  · obtain ⟨buf, n, hframe⟩ := scanned_frame (bp + u.length) ep e₁
    rw [scanned_eq, hframe] at hpair
    cases hpair
    exact h.of_same hp hflash hinsns hlimit
  · cases hpair
    exact h.of_same hp hflash hinsns hlimit

theorem InProgress.top (h : InProgress flash .top e) (hcourse : TopCourse e.settled p' e') :
    InProgress flash p' e' := by
  have hp : Point.top ≠ .stopped := fun heq => by cases heq
  have hsettled : InProgress flash .top e.settled := by
    unfold Emu.settled
    split
    · exact h.of_same hp rfl rfl rfl
    · exact h
  cases hcourse with
  | replay | pass | stepped | breakpoint => exact hsettled.of_same hp rfl rfl rfl

theorem InProgress.receive {r : Recv} (h : InProgress flash .recv e)
    (hrecv : gdbstubReceive r e = .ok (p', e')) : InProgress flash p' e' := by
  have hp : Point.recv ≠ .stopped := fun heq => by cases heq
  unfold gdbstubReceive at hrecv
  split at hrecv
  · cases hrecv
  · cases hrecv
    exact h.of_same hp rfl rfl rfl
  · split at hrecv
    · cases hrecv
    · cases hrecv
      exact h.of_same hp rfl rfl rfl

section Sessions

variable [DesLibrary]

theorem InProgress.run (h : InProgress flash .run e) (hcourse : RunCourse e p' e') :
    InProgress flash p' e' := by
  cases hcourse with
  | init => exact ⟨h.flash_eq, fun _ => Or.inl rfl⟩
  | off => exact ⟨h.flash_eq, fun hp => absurd rfl hp⟩
  | step m₁ tracefile _ hstep hlimit =>
    exact ⟨(step_setup hstep).1.flash_eq.trans h.flash_eq, fun _ => Or.inr hlimit⟩
  | halt m₁ tracefile hstep =>
    exact ⟨(step_setup hstep).1.flash_eq.trans h.flash_eq, fun hp => absurd rfl hp⟩

theorem InProgress.tick {env : Env} (h : InProgress flash p e) (hinv : InOrder us p e)
    (htick : tick env p e = .ok (p', e')) : InProgress flash p' e' := by
  cases p with
  | top => exact h.top (topCourse_of_tick htick)
  | recv => exact h.receive htick
  | scan bp ep => exact h.scan hinv htick
  | run => exact h.run (runCourse_of_tick htick)
  | stopped =>
    cases htick
    exact h

theorem Served.inProgress {insnlimit : ℕ} {tracehex : Bool} {tracefile : Option (List Byte)}
    (h : Served (Emu.attached (Machine.powerOn flash) insnlimit tracehex tracefile) us p e) :
    InProgress flash p e := by
  induction h with
  | start => exact ⟨rfl, fun _ => Or.inl rfl⟩
  | tick env hserved _ htick ih => exact ih.tick (hserved.inOrder (inOrder_start _ _ _ _)) htick

/-- A `bs` packet starts a replay up to the instruction before the last. -/
theorem rewinding_of_bstep {env : Env} (hlistening : Listening e')
    (hprogress : InProgress flash (.scan bp ep) e) (hinv : InOrder us (.scan bp ep) e)
    (hback : command (e.clientbuf.drop bp) = some (ascii "bs"))
    (hinsns : e.machine.insns = n + 1) (hrun : tick env (.scan bp ep) e = .ok (.run, e')) :
    e'.Rewinding ∧ e'.insnreplaylim = n ∧ e'.machine = e.machine := by
  obtain ⟨buf, log, e₁, buf', k, heffect, rfl⟩ := hinv.effect_of_run hrun
  rw [hback] at heffect
  have hpos : 0 < e.machine.insns := by omega
  have hreplay := heffect.replay_eq.trans (if_pos ⟨rfl, hpos⟩)
  obtain ⟨hmode, hlim⟩ := Prod.mk.inj hreplay
  have hmachine : e₁.machine = e.machine := heffect.machine_eq (by decide) (by decide)
  have hn : e₁.insnreplaylim = n := by
    rw [hlim]
    change e.machine.insns - 1 = n
    omega
  have hlimit : e₁.insnlimit = e.insnlimit := by rw [heffect.frame]
  refine ⟨⟨hlistening.connected_eq, hmode, ?_, ?_⟩, hn, hmachine⟩
  · change e₁.machine.insns = e₁.insnreplaylim + 1
    rw [hmachine, hn, hinsns]
  · change e₁.insnlimit = 0 ∨ e₁.insnreplaylim < e₁.insnlimit
    rw [hlimit, hn]
    rcases hprogress.limit (fun heq => by cases heq) with hzero | hlimit | hlimit
    · omega
    · exact Or.inl hlimit
    · exact Or.inr (by omega)

/-- After an accepted `bs` packet with `n + 1` instructions executed, the stub takes over from a
machine that is as after `n` instructions from power-on, if and only if these lead there from the
memory that the packet has found, too. They do so if every bit that is set in this memory is
overwritten before it is read. -/
theorem reverse_step_iff {insnlimit : ℕ} {tracehex : Bool} {tracefile : Option (List Byte)}
    {env : Env}
    (h : Served (Emu.attached (Machine.powerOn flash) insnlimit tracehex tracefile) us
      (.scan bp ep) e)
    (hback : command (e.clientbuf.drop bp) = some (ascii "bs"))
    (hinsns : e.machine.insns = n + 1) (hclean : (Machine.powerOn flash).stepN n = .ok m)
    (hrun : tick env (.scan bp ep) e = .ok (.run, e')) :
    ((∃ m', e'.EntersStub (n + 1) m' ∧ m'.visible = m.visible) ↔
      ∃ m', { Machine.powerOn flash with memory := e.machine.memory }.stepN n = .ok m' ∧
        m'.visible = m.visible) ∧
    (Restores e.machine.memory ((Machine.powerOn flash).touchedIn n) →
      ∃ m', e'.EntersStub (n + 1) m' ∧ m'.visible = m.visible) := by
  have hinv := h.inOrder (inOrder_start _ _ _ _)
  obtain ⟨hrewinding, hlim, hmachine⟩ := rewinding_of_bstep (h.listening.tick hinv hrun)
    h.inProgress hinv hback hinsns hrun
  have henters (m' : Machine) : e'.EntersStub (n + 1) m' ↔ e.machine.init.stepN n = .ok m' := by
    rw [← hinsns, ← hmachine, entersStub_replay hrewinding, hlim]
  have hvisible : e.machine.init.visible =
      ({ Machine.powerOn flash with memory := e.machine.memory } : Machine).visible := by
    rw [visible_init, h.inProgress.flash_eq]
    rfl
  have hiff : (∃ m', e'.EntersStub (n + 1) m' ∧ m'.visible = m.visible) ↔
      ∃ m', { Machine.powerOn flash with memory := e.machine.memory }.stepN n = .ok m' ∧
        m'.visible = m.visible := by
    constructor
    · rintro ⟨m', hm', hsame⟩
      obtain ⟨m₁, hm₁, hsame₁⟩ := stepN_of_visible_eq hvisible.symm ((henters m').mp hm')
      exact ⟨m₁, hm₁, hsame₁.trans hsame⟩
    · rintro ⟨m', hm', hsame⟩
      obtain ⟨m₁, hm₁, hsame₁⟩ := stepN_of_visible_eq hvisible hm'
      exact ⟨m₁, (henters m₁).mpr hm₁, hsame₁.trans hsame⟩
  refine ⟨hiff, fun hrestores => hiff.mpr ⟨m, stepN_of_restores hclean ?_, rfl⟩⟩
  have hstale : (fun i => (Machine.powerOn flash).memory i ^^^ e.machine.memory i) =
      e.machine.memory := funext fun i => BitVec.zero_xor
  rwa [hstale]

end Sessions

section Registers

attribute [local instance] idleDes

/-- `LDI r16,0x01` and `LDI r16,0x55`. -/
def reloadFlash (i : ℕ) : Word := [0xe001, 0xe505].getD i 0

/-- A client that makes two steps and goes back. -/
def backPackets : List (List Byte) :=
  [framed (ascii "s"), framed (ascii "s"), framed (ascii "bs")]

/-- The first instruction overwrites the register that the second has set. -/
theorem reverse_step_iff_reload : ∃ e,
    Served (Emu.attached (Machine.powerOn reloadFlash) 0 false none) backPackets .run e ∧
    ∃ m', e.EntersStub 2 m' ∧ m'.visible = (Machine.powerOn reloadFlash).next.visible := by
  have hsent : ∀ u ∈ backPackets, IsSent u := by
    have hstep : IsSent (framed (ascii "s")) := Or.inr ⟨ascii "$s", 0x37, 0x33, rfl, by decide⟩
    have hback : IsSent (framed (ascii "bs")) := Or.inr ⟨ascii "$bs", 0x64, 0x35, rfl, by decide⟩
    intro u hu
    simp only [backPackets, List.mem_cons, List.not_mem_nil, or_false] at hu
    rcases hu with rfl | rfl | rfl
    · exact hstep
    · exact hstep
    · exact hback
  let quiet : Env := ⟨false, .wouldBlock⟩
  have hquiet {k : ℕ} : ∀ env ∈ List.replicate k quiet, env.recv = .wouldBlock := by
    intro env henv
    rw [List.eq_of_mem_replicate henv]
  have hstop : Served (Emu.attached (Machine.powerOn reloadFlash) 0 false none) [] .recv _ :=
    .tick quiet .start rfl rfl
  have hrecv : Served (Emu.attached (Machine.powerOn reloadFlash) 0 false none) backPackets _ _ :=
    .tick ⟨false, .data backPackets.flatten⟩ hstop ⟨rfl, hsent, by decide⟩ rfl
  obtain ⟨e, e', hscan, hback, hinsns, hmemory, hrun⟩ : ∃ e e',
      Served (Emu.attached (Machine.powerOn reloadFlash) 0 false none) backPackets (.scan 0 6) e ∧
      command (e.clientbuf.drop 0) = some (ascii "bs") ∧ e.machine.insns = 2 ∧
      e.machine.memory = Function.update (Function.update (Function.update (Function.update
        (Function.update (Function.update (fun _ => 0) 16 1) sreg 0) sreg 0) 16 0x55) sreg 0)
        sreg 0 ∧
      tick quiet (.scan 0 6) e = .ok (.run, e') :=
    ⟨_, _, hrecv.ticks (List.replicate 8 quiet) hquiet rfl, rfl, rfl, rfl, rfl⟩
  have hclean : (Machine.powerOn reloadFlash).stepN 1 =
    .ok (Machine.powerOn reloadFlash).next := rfl
  have htouched : (Machine.powerOn reloadFlash).touchedIn 1 =
    [.write 16, .merge sreg 0xff, .merge sreg 0xff] := rfl
  refine ⟨e', .tick quiet hscan rfl hrun, (reverse_step_iff hscan hback hinsns hclean hrun).2 ?_⟩
  rw [htouched, hmemory]
  refine ⟨by simp [ReadsFresh, Access.stores], fun i => ?_⟩
  by_cases hreg : i = 16
  · subst hreg
    rfl
  by_cases hsreg : i = sreg
  · subst hsreg
    rfl
  simp only [refresh_cons, refresh_nil, Access.refresh, Function.update_of_ne hreg,
    Function.update_of_ne hsreg]

/-- A client that makes one step and goes back. The stub takes over before the first instruction, as
at power-on, but the register that the instruction sets is set. -/
theorem reverse_step_stale :
    let quiet : Env := ⟨false, .wouldBlock⟩
    let session := quiet :: ⟨false, .data (framed (ascii "s") ++ framed (ascii "bs"))⟩ ::
      List.replicate 4 quiet
    let e := Emu.attached (Machine.powerOn fun _ => 0xe505) 0 false none
    (ticks session .top e).map (fun r => (r.1, command r.2.clientbuf, r.2.machine.insns)) =
      .ok (.scan 0 6, some (ascii "bs"), 1) ∧
    (ticks (session ++ [quiet]) .top e).map (·.1) = .ok .run ∧
    (ticks (session ++ [quiet, quiet]) .top e).map (·.1) = .ok .top ∧
    (ticks (session ++ [quiet, quiet, quiet]) .top e).map
      (fun r => (r.1, r.2.machine.insns, r.2.machine.memory 16)) = .ok (.recv, 0, 0x55) ∧
    e.machine.memory 16 = 0 := ⟨rfl, rfl, rfl, rfl, rfl⟩

end Registers

end AvrEmu
