import AvrEmu.Lib.Ledger
import AvrEmu.Session

/-!
# Stop replies

A packet that makes the emulator go on is answered by one report of a stop: at once if it is a
step, forwards or backwards, and otherwise when a breakpoint is reached. The query for the last
stop is answered in the same way, and nothing else is.
-/

namespace AvrEmu

variable {e e' : Emu} {p p' : Point} {bp ep : ℕ} {u t : List Byte} {us : List (List Byte)}

/-- The commands that are answered by a report of a stop, now or later. -/
def owesStop (asked : Option (List Byte)) : Bool :=
  asked == some (ascii "c") || stopsAtOnce asked

/-- The reports of a stop that a packet asks for. -/
def stopsOwed (u : List Byte) : ℕ := (owesStop (command u)).toNat

/-- Packets as requests, and reports of a stop as answers. -/
def stopRules : Ledger.Rules Event where
  asks ev := ev.packet?.map stopsOwed
  pays := Event.isStop

/-- A report is outstanding while the machine runs on its own. -/
def stopsOutstanding (p : Point) (e : Emu) : ℕ :=
  match p with
  | .recv | .scan _ _ => 0
  | _ => if e.stepone || e.replayMode then 0 else 1

/-- The stub has the control. -/
def Point.inStub (p : Point) : Bool := p == .recv || p.isScan

/-- Every report that is not outstanding has been sent. -/
structure Answering (p : Point) (e : Emu) : Prop where
  balance_eq : stopRules.balance e.log = some (stopsOutstanding p e)
  idle : p.inStub = true → e.stepone = false ∧ e.replayMode = false

/-! ## The balance over a run -/

theorem quiet_sends {evs : List Event} (h : ∀ ev ∈ evs, ∃ t, ev = .send t) :
    stopRules.Quiet evs := by
  intro ev hev
  obtain ⟨t, rfl⟩ := h ev hev
  rfl

/-- What a packet asks for, less what it is answered at once, is outstanding after it. -/
theorem owed_sub_answered (asked : Option (List Byte)) (insns : ℕ) :
    (stopsAtOnce asked).toNat ≤ (owesStop asked).toNat ∧
    (owesStop asked).toNat - (stopsAtOnce asked).toNat =
      if resumes insns asked && !(asked == some (ascii "s")) &&
        !(asked == some (ascii "bs") && decide (0 < insns)) then 1 else 0 := by
  by_cases hc : asked = some (ascii "c")
  · subst hc
    exact ⟨by decide, rfl⟩
  · have hne : (asked == some (ascii "c")) = false := beq_false_of_ne hc
    rw [owesStop, resumes, hne, Bool.false_or, Bool.false_or, Nat.sub_self]
    refine ⟨Nat.le_refl _, ?_⟩
    cases asked == some (ascii "s") <;>
      cases asked == some (ascii "bs") && decide (0 < insns) <;> rfl

/-- Taking up a packet. -/
theorem balance_packet {log evs : List Event} {ack : List Byte}
    (hlog : stopRules.balance log = some 0)
    (hack : (Event.send ack).isStop = false) (hevs : ∀ ev ∈ evs, ∃ t, ev = .send t)
    (hcount : evs.countP Event.isStop ≤ stopsOwed u) :
    stopRules.balance (log ++ [.packet u, .send ack] ++ evs) =
      some (stopsOwed u - evs.countP Event.isStop) := by
  have hpacket : stopRules.balance (log ++ [.packet u, .send ack]) = some (stopsOwed u) := by
    rw [Ledger.balance_append, hlog]
    change stopRules.post (some (stopsOwed u)) (.send ack) = _
    change (if (Event.send ack).isStop then _ else some (stopsOwed u)) = _
    rw [hack, if_neg Bool.false_ne_true]
  rw [Ledger.balance_append, hpacket]
  exact Ledger.foldl_post_of_le (quiet_sends hevs) hcount

/-- A pass of the scanning loop. -/
theorem Answering.scan (h : Answering (.scan bp ep) e) (hinv : InOrder us (.scan bp ep) e)
    (hscan : gdbstubScan bp ep e = .ok (p', e')) : Answering p' e' := by
  obtain ⟨hstep, hreplay⟩ := h.idle rfl
  have hbalance : stopRules.balance e.log = some 0 := h.balance_eq
  have hidle := hinv.execute_eq (Or.inr rfl)
  rcases hinv.scan_cases hscan with
    ⟨-, -, hpair⟩ | ⟨done, u, todo, e₁, hus, -, hpend, hpassed, hpair⟩
  · obtain ⟨buf, n, hframe⟩ := scanned_frame bp ep e
    rw [scanned_eq, hidle, if_neg Bool.false_ne_true, hframe] at hpair
    cases hpair
    exact ⟨hbalance, fun _ => ⟨hstep, hreplay⟩⟩
  have hexecute := hpassed.execute_eq hpend hidle
  rcases hpassed.effect with ⟨-, rfl⟩ | ⟨hcomplete, buf, ack, hack, heffect⟩
  · rw [if_neg (by rw [hidle]; exact Bool.false_ne_true)] at hpair
    cases hpair
    exact ⟨hbalance, fun _ => ⟨hstep, hreplay⟩⟩
  have hasked : command (e.clientbuf.drop bp) = command u := by
    have hpacket : IsPacket u := (hinv.sent u (by simp [hus])).resolve_left hcomplete.not_isAck
    rw [drop_eq_append hpend, List.append_assoc, command_append hpacket]
  rw [hasked] at heffect hexecute
  obtain ⟨hle, hdiff⟩ := owed_sub_answered (command u) e.machine.insns
  obtain ⟨evs, hlog, hsends, hcount⟩ := heffect.replies
  have hnext : stopRules.balance e₁.log =
      some (stopsOwed u - (stopsAtOnce (command u)).toNat) := by
    rw [hlog, ← hcount]
    exact balance_packet hbalance hack hsends (hcount ▸ hle)
  have hstep₁ : e₁.stepone = (command u == some (ascii "s")) := by
    rw [heffect.stepone_eq]
    change (e.stepone || _) = _
    rw [hstep, Bool.false_or]
  have hreplay₁ : e₁.replayMode =
      (command u == some (ascii "bs") && decide (0 < e.machine.insns)) := by
    have hpair := congrArg Prod.fst heffect.replay_eq
    dsimp only at hpair
    rw [hpair]
    by_cases hback : command u = some (ascii "bs") ∧ 0 < e.machine.insns
    · rw [if_pos hback, hback.1, decide_eq_true hback.2]
      rfl
    · rw [if_neg hback]
      refine hreplay.trans (Bool.eq_false_iff.mpr fun hboth => hback ?_).symm
      rwa [Bool.and_eq_true, beq_iff_eq, decide_eq_true_iff] at hboth
  cases hrun : e₁.execute with
  | true =>
    obtain ⟨buf', n, hframe⟩ := scanned_frame (bp + u.length) ep e₁
    rw [hrun, if_pos rfl, scanned_eq, hrun, if_pos rfl, hframe] at hpair
    cases hpair
    refine ⟨hnext.trans ?_, fun hstub => (by cases hstub)⟩
    rw [stopsOwed, hdiff, ← hexecute, hrun, Bool.true_and, ← hstep₁, ← hreplay₁]
    change some (if (!e₁.stepone && !e₁.replayMode) = true then 1 else 0) =
      some (if (e₁.stepone || e₁.replayMode) = true then 0 else 1)
    cases e₁.stepone <;> cases e₁.replayMode <;> rfl
  | false =>
    rw [hrun, if_neg Bool.false_ne_true] at hpair
    cases hpair
    rw [hrun] at hexecute
    have hnot := hexecute.symm
    rw [resumes, ← hstep₁, ← hreplay₁, Bool.or_eq_false_iff, Bool.or_eq_false_iff] at hnot
    refine ⟨hnext.trans ?_, fun _ => ⟨hnot.1.2, hnot.2⟩⟩
    rw [stopsOwed, hdiff, ← hexecute, Bool.false_and, Bool.false_and, if_neg Bool.false_ne_true]
    rfl

/-- At the head of the emulator loop a breakpoint is reported, and the end of a replay is not. -/
theorem Answering.top (h : Answering .top e) (hcourse : TopCourse e.settled p' e') :
    Answering p' e' := by
  have hsettled : stopRules.balance e.settled.log = some (stopsOutstanding .top e.settled) := by
    unfold Emu.settled
    split
    · rename_i hend
      rw [Bool.and_eq_true] at hend
      refine h.balance_eq.trans ?_
      simp only [stopsOutstanding, hend.1, Bool.or_true, Bool.true_or, if_true]
    · exact h.balance_eq
  cases hcourse with
  | replay | pass => exact ⟨hsettled, fun hstub => (by cases hstub)⟩
  | stepped hreplay _ hstep =>
    refine ⟨hsettled.trans ?_, fun _ => ⟨rfl, hreplay⟩⟩
    simp only [stopsOutstanding, hstep, Bool.true_or, if_true]
  | breakpoint hreplay _ hstep _ =>
    refine ⟨?_, fun _ => ⟨hstep, hreplay⟩⟩
    have hone : stopRules.balance e.settled.log = some 1 := by
      have hrunning : stopsOutstanding .top e.settled =
          if e.settled.stepone || e.settled.replayMode then 0 else 1 := rfl
      rw [hsettled, hrunning, hstep, hreplay]
      rfl
    change stopRules.balance (e.settled.log ++ [.send (framed (ascii "S05"))]) = some 0
    rw [Ledger.balance_append, hone]
    rfl

theorem Answering.receive {r : Recv} (h : Answering .recv e)
    (hrecv : gdbstubReceive r e = .ok (p', e')) : Answering p' e' := by
  unfold gdbstubReceive at hrecv
  split at hrecv
  · cases hrecv
  · cases hrecv
    exact ⟨h.balance_eq, fun _ => h.idle rfl⟩
  · split at hrecv
    · cases hrecv
    · cases hrecv
      exact ⟨h.balance_eq, fun _ => h.idle rfl⟩

/-- No event of the list takes up a packet. -/
def NoPacket (evs : List Event) : Prop := ∀ ev ∈ evs, ev.packet? = none

theorem quiet_of_noPacket {evs : List Event} (h : NoPacket evs) : stopRules.Quiet evs := by
  intro ev hev
  change ev.packet?.map stopsOwed = none
  rw [h ev hev, Option.map_none]

/-- Nothing is sent at the head of the emulator loop while a replay goes on, nor at its end. -/
theorem log_of_replay (hreplay : e.replayMode = true) (hcourse : TopCourse e.settled p' e') :
    e'.log = e.log := by
  have hsettled :
      e.settled.log = e.log ∧ (e.settled.replayMode = true ∨ e.settled.stepone = true) := by
    unfold Emu.settled
    split
    · exact ⟨rfl, Or.inr rfl⟩
    · exact ⟨rfl, Or.inl hreplay⟩
  cases hcourse with
  | replay | pass | stepped => exact hsettled.1
  | breakpoint hnot _ hstep _ =>
    rcases hsettled.2 with htrue | htrue
    · exact absurd (hnot.symm.trans htrue) Bool.false_ne_true
    · exact absurd (hstep.symm.trans htrue) Bool.false_ne_true

section Running

variable [DesLibrary]

/-- The machine neither asks nor answers. -/
theorem Answering.run (h : Answering .run e) (hcourse : RunCourse e p' e') : Answering p' e' := by
  cases hcourse <;> exact ⟨h.balance_eq, fun hstub => (by cases hstub)⟩

theorem Answering.tick {env : Env} (h : Answering p e)
    (hinv : InOrder us p e) (htick : tick env p e = .ok (p', e')) : Answering p' e' := by
  cases p with
  | top => exact h.top (topCourse_of_tick htick)
  | recv => exact h.receive htick
  | scan bp ep => exact h.scan hinv htick
  | run => exact h.run (runCourse_of_tick htick)
  | stopped =>
    cases htick
    exact h

theorem Served.answering {m : Machine} {insnlimit : ℕ} {tracehex : Bool}
    {tracefile : Option (List Byte)}
    (h : Served (Emu.attached m insnlimit tracehex tracefile) us p e) : Answering p e := by
  induction h with
  | start => exact ⟨rfl, fun hstub => (by cases hstub)⟩
  | tick env hserved _ htick ih => exact ih.tick (hserved.inOrder (inOrder_start _ _ _ _)) htick

/-- The packets taken up are those that the client has sent up to some place, in this order. Between
a packet and the next comes one report of a stop if the packet makes the emulator go on or asks for
the last stop, and none otherwise; after the last packet such a report may be outstanding, if the
machine runs on its own; before the first there is none. Whenever the stub takes over, `stepone` is
lowered, and while a replay goes on nothing is reported. -/
theorem one_stop_reply (m : Machine) (insnlimit : ℕ) (tracehex : Bool)
    (tracefile : Option (List Byte)) (us : List (List Byte)) (p : Point) (e : Emu)
    (h : Served (Emu.attached m insnlimit tracehex tracefile) us p e) :
    (∃ done todo, us = done ++ todo ∧ e.handled = packetsOf done ∧
      e.unconsumed p = todo.flatten) ∧
    (∀ before u between v after,
      e.log = before ++ .packet u :: (between ++ .packet v :: after) → NoPacket between →
      between.countP Event.isStop = stopsOwed u) ∧
    (∀ before u after, e.log = before ++ .packet u :: after → NoPacket after →
      after.countP Event.isStop + stopsOutstanding p e = stopsOwed u) ∧
    (∀ before after, e.log = before ++ after → NoPacket before →
      before.countP Event.isStop = 0) ∧
    (p = .recv → e.stepone = false) ∧
    (p = .top → e.replayMode = true → ∀ env p' e', tick env p e = .ok (p', e') →
      e'.log = e.log) := by
  have hanswering := h.answering
  have hbalance := hanswering.balance_eq
  have hpacket (u : List Byte) : stopRules.asks (.packet u) = some (stopsOwed u) := rfl
  refine ⟨(h.inOrder (inOrder_start _ _ _ _)).cut, ?_, ?_, ?_, ?_, ?_⟩
  · intro before u between v after hlog hquiet
    rw [hlog] at hbalance
    exact Ledger.count_between hbalance (hpacket u) (hpacket v) (quiet_of_noPacket hquiet)
  · intro before u after hlog hquiet
    rw [hlog] at hbalance
    exact Ledger.count_after hbalance (hpacket u) (quiet_of_noPacket hquiet)
  · intro before after hlog hquiet
    rw [hlog] at hbalance
    exact Ledger.count_before hbalance (quiet_of_noPacket hquiet)
  · intro hrecv
    subst hrecv
    exact (hanswering.idle rfl).1
  · intro htop hreplay env p' e' htick
    subst htop
    exact log_of_replay hreplay (topCourse_of_tick htick)

end Running

section Step

attribute [local instance] idleDes

/-- A client that makes one step. -/
theorem one_stop_reply_step :
    let us := [ascii "$s#73"]
    ∃ e, Served (Emu.attached (Machine.powerOn fun _ => 0) 0 false none) us .run e ∧
      (∃ done todo, us = done ++ todo ∧ e.handled = packetsOf done ∧
        e.unconsumed .run = todo.flatten) ∧
      (∀ before u between v after,
        e.log = before ++ .packet u :: (between ++ .packet v :: after) → NoPacket between →
        between.countP Event.isStop = stopsOwed u) ∧
      (∀ before u after, e.log = before ++ .packet u :: after → NoPacket after →
        after.countP Event.isStop + stopsOutstanding .run e = stopsOwed u) ∧
      (∀ before after, e.log = before ++ after → NoPacket before →
        before.countP Event.isStop = 0) ∧
      (Point.run = .recv → e.stepone = false) ∧
      (Point.run = .top → e.replayMode = true → ∀ env p' e', tick env .run e = .ok (p', e') →
        e'.log = e.log) := by
  intro us
  have hsent : ∀ u ∈ us, IsSent u := by
    intro u hu
    obtain rfl := List.mem_singleton.mp hu
    exact Or.inr ⟨ascii "$s", 0x37, 0x33, rfl, by decide⟩
  have hstop : Served (Emu.attached (Machine.powerOn fun _ => 0) 0 false none) [] .recv _ :=
    .tick ⟨false, .wouldBlock⟩ .start rfl rfl
  have hrecv : Served (Emu.attached (Machine.powerOn fun _ => 0) 0 false none) us _ _ :=
    .tick ⟨false, .data us.flatten⟩ hstop ⟨rfl, hsent, by decide⟩ rfl
  have hrun := Served.tick ⟨false, .wouldBlock⟩ hrecv rfl rfl
  exact ⟨_, hrun, one_stop_reply _ _ _ _ us .run _ hrun⟩

end Step

end AvrEmu
