import AvrEmu.Gdb.Scan
import AvrEmu.Trace
import Mathlib.Data.List.Find

/-!
# Sessions with a client

A client is connected before the first instruction and sends packets and acknowledgements. Here
are the courses that a tick can take, and from them that the packets are handled one by one in the
order in which they were sent, over any number of stops in between.
-/

namespace AvrEmu

variable {e e' : Emu} {p p' : Point} {bp ep : ℕ} {us : List (List Byte)}

/-- The emulator with a client just connected. -/
def Emu.attached (m : Machine) (insnlimit : ℕ) (tracehex : Bool) (tracefile : Option (List Byte)) :
    Emu :=
  gdbstubInit { Emu.start m with
    insnlimit := insnlimit
    tracehex := tracehex
    tracefile := tracefile }

/-! ## The courses of a tick -/

/-- The variables after a look at whether a replay has reached its end. -/
def Emu.settled (e : Emu) : Emu :=
  if e.replayMode && e.insnreplaylim ≤ e.machine.insns then
    { e with replayMode := false, insnreplaylim := 0, stepone := true }
  else e

/-- Control goes on to the machine, or the stub takes over after a step, or at a breakpoint. -/
inductive TopCourse (e : Emu) : Point → Emu → Prop
  | replay : e.replayMode = true → TopCourse e .run e
  | pass : e.replayMode = false →
      (e.connected = true → e.stepone = false ∧ e.breakpoints e.machine.pc = false) →
      TopCourse e .run e
  | stepped : e.replayMode = false → e.connected = true → e.stepone = true →
      TopCourse e .recv { e with stepone := false, execute := false }
  | breakpoint : e.replayMode = false → e.connected = true → e.stepone = false →
      e.breakpoints e.machine.pc = true →
      TopCourse e .recv { e.sent (framed (ascii "S05")) with execute := false }

theorem interactive_eq (h : gdbstubInteractive e = .ok (p, e')) :
    e.connected = true ∧ p = .recv ∧ e' = { e with execute := false } := by
  obtain ⟨⟨⟩, hconn, h⟩ := bind_eq_ok h
  cases h
  exact ⟨require_eq_ok hconn, rfl, rfl⟩

/-- The head of the emulator loop. -/
theorem topCourse_of_tick {ctrlc : Bool} (h : emulateTop ctrlc e = .ok (p, e')) :
    TopCourse e.settled p e' := by
  unfold emulateTop at h
  split at h
  · cases h
  change (if e.settled.replayMode then pure (.run, e.settled) else gdbstubIntr e.settled) = _ at h
  cases hreplay : e.settled.replayMode with
  | true =>
    rw [hreplay, if_pos rfl] at h
    cases h
    exact .replay hreplay
  | false =>
    rw [hreplay, if_neg Bool.false_ne_true, gdbstubIntr] at h
    cases hconn : e.settled.connected with
    | false =>
      rw [if_pos (by rw [hconn]; rfl)] at h
      cases h
      exact .pass hreplay fun htrue => absurd (hconn.symm.trans htrue) Bool.false_ne_true
    | true =>
      rw [if_neg (by rw [hconn]; exact Bool.false_ne_true)] at h
      cases hstep : e.settled.stepone with
      | true =>
        rw [if_pos hstep] at h
        obtain ⟨-, rfl, rfl⟩ := interactive_eq h
        exact .stepped hreplay hconn hstep
      | false =>
        rw [if_neg (by rw [hstep]; exact Bool.false_ne_true)] at h
        cases hbreak : e.settled.breakpoints e.settled.machine.pc with
        | false =>
          rw [if_neg (by rw [hbreak]; exact Bool.false_ne_true)] at h
          cases h
          exact .pass hreplay fun _ => ⟨hstep, hbreak⟩
        | true =>
          rw [if_pos hbreak] at h
          obtain ⟨e₁, hsend, h⟩ := bind_eq_ok h
          obtain ⟨-, -, hsend⟩ := bind_eq_ok hsend
          obtain rfl := gdbSendstr_stop hsend (by decide)
          obtain ⟨-, rfl, rfl⟩ := interactive_eq h
          exact .breakpoint hreplay hconn hstep hbreak

section Running

variable [DesLibrary]

/-- The machine is reset for a replay, or it executes an instruction, after which the emulator may
stop. -/
inductive RunCourse (e : Emu) : Point → Emu → Prop
  | init : e.replayMode = true → e.insnreplaylim < e.machine.insns → RunCourse e .top e.init
  | off : e.off = true → RunCourse e .stopped e
  | step (m : Machine) (tracefile : Option (List Byte)) :
      (e.replayMode = true → e.machine.insns ≤ e.insnreplaylim) → e.machine.step = .ok m →
      (e.insnlimit = 0 ∨ m.insns < e.insnlimit) →
      RunCourse e .top { e with machine := m, tracefile := tracefile }
  | halt (m : Machine) (tracefile : Option (List Byte)) : e.machine.step = .ok m →
      RunCourse e .stopped { e with machine := m, tracefile := tracefile }

/-- One call of `emulate1` is one step, whatever is traced of it. -/
theorem emulate1_eq_step (e : Emu) : ∃ tracefile, e.emulate1 =
    match e.machine.step with
    | .ok m => .ok { e with machine := m, tracefile := tracefile }
    | .error a => .error a := by
  unfold Emu.emulate1
  cases htracing : !e.replayMode && e.tracefile.isSome with
  | false =>
    unfold Machine.step
    cases hexec : exec (AvrEmu.emulate1 false) e.machine with
    | error a => exact ⟨none, rfl⟩
    | ok r => exact ⟨_, rfl⟩
  | true =>
    rw [exec_emulate1_tracing]
    cases hstep : e.machine.step with
    | error a => exact ⟨none, rfl⟩
    | ok m => exact ⟨_, rfl⟩

/-- The rest of the emulator loop. -/
theorem runCourse_of_tick (h : emulateRun e = .ok (p, e')) : RunCourse e p e' := by
  unfold emulateRun at h
  by_cases hinit : (e.replayMode && e.insnreplaylim < e.machine.insns) = true
  · rw [if_pos hinit] at h
    cases h
    rw [Bool.and_eq_true, decide_eq_true_iff] at hinit
    exact .init hinit.1 hinit.2
  rw [if_neg hinit] at h
  cases hoff : e.off with
  | true =>
    rw [if_pos hoff] at h
    cases h
    exact .off hoff
  | false =>
    rw [if_neg (by rw [hoff]; exact Bool.false_ne_true)] at h
    obtain ⟨e₁, hrun, h⟩ := bind_eq_ok h
    obtain ⟨tracefile, heq⟩ := emulate1_eq_step e
    rw [heq] at hrun
    cases hstep : e.machine.step with
    | error a =>
      rw [hstep] at hrun
      cases hrun
    | ok m =>
      rw [hstep] at hrun
      cases hrun
      split at h
      · cases h
        exact .halt m tracefile hstep
      · split at h
        · cases h
          exact .halt m tracefile hstep
        · rename_i hlimit
          cases h
          refine .step m tracefile (fun hreplay => ?_) hstep ?_
          · rw [hreplay, Bool.true_and, decide_eq_true_iff] at hinit
            omega
          · by_contra hnot
            rw [not_or] at hnot
            refine hlimit ?_
            rw [Bool.and_eq_true, bne_iff_ne, decide_eq_true_iff]
            exact ⟨hnot.1, Nat.not_lt.mp hnot.2⟩

end Running

/-! ## What the client sends -/

/-- A packet as a client sends it. -/
def IsPacket (u : List Byte) : Prop :=
  ∃ body a b, u = body ++ [0x23, a, b] ∧ body ≠ [] ∧ 0x23 ∉ body ∧ body.head? ≠ some 0x2b ∧
    body.head? ≠ some 0x2d ∧ Hex.isDigit a = true ∧ Hex.isDigit b = true

def IsSent (u : List Byte) : Prop := IsAck u ∨ IsPacket u

/-- The packets among what has been sent. -/
def packetsOf (us : List (List Byte)) : List (List Byte) :=
  us.filter fun u => u != [0x2b] && u != [0x2d]

/-- What `recv` delivers in a tick: nothing, or some packets and acknowledgements that fit. -/
def Delivers (chunk : List (List Byte)) (env : Env) : Point → Emu → Prop
  | .recv, e =>
    match env.recv with
    | .data bytes =>
      bytes = chunk.flatten ∧ (∀ u ∈ chunk, IsSent u) ∧ bytes.length ≤ pktBufMax - e.cblen
    | _ => chunk = []
  | _, _ => chunk = []

/-! ## The command of a packet -/

/-- What follows a zero does not matter to a command without one. -/
theorem isPrefixOf_zero {cmd : List Byte} (hcmd : 0 ∉ cmd) (s t : List Byte) :
    cmd.isPrefixOf (s ++ 0 :: t) = cmd.isPrefixOf s := by
  induction cmd generalizing s with
  | nil => cases s <;> rfl
  | cons c cmd ih =>
    simp only [List.mem_cons, not_or] at hcmd
    cases s with
    | nil =>
      have hne : (c == 0) = false := beq_false_of_ne (Ne.symm hcmd.1)
      simp only [List.nil_append, List.isPrefixOf, hne, Bool.false_and]
    | cons b s => simp only [List.cons_append, List.isPrefixOf, ih hcmd.2]

theorem findCmd_zero (s t : List Byte) : findCmd (s ++ 0 :: t) = findCmd s := by
  have hcmds : ∀ d ∈ gdbDisp, (0 : Byte) ∉ d.cmd := by decide
  exact List.find?_congr fun d hd => isPrefixOf_zero (hcmds d hd) s t

/-- The command of a packet, whatever follows it in the buffer. -/
theorem command_packet {c a b : Byte} {body : List Byte} (hc : c ≠ 0x23) (hbody : 0x23 ∉ body)
    (ha : Hex.isDigit a = true) (hb : Hex.isDigit b = true) (t : List Byte) :
    command (c :: body ++ 0x23 :: a :: b :: t) =
      if c = 0x24 ∧ some (BitVec.ofNat 32 (Hex.number [a, b])) =
        some ((gdbCksum body body.length).setWidth 32) then (findCmd body).map (·.cmd)
      else none := by
  have hmem : 0x23 ∉ c :: body := List.not_mem_cons_of_ne_of_not_mem (Ne.symm hc) hbody
  have hscan : scanCksum ((c :: body ++ 0x23 :: a :: b :: t).drop (c :: body).length) =
      some (BitVec.ofNat 32 (Hex.number [a, b])) := by
    rw [List.drop_left, scanCksum, Hex.literal_self]
    change (Hex.scan (some 2) (a :: b :: t)).bind _ = _
    rw [Hex.scan_two ha hb]
    rfl
  have hsum : gdbCksum (c :: body ++ 0x23 :: a :: b :: t).tail ((c :: body).length - 1) =
      gdbCksum body body.length := by
    rw [List.cons_append, List.tail_cons, List.length_cons, Nat.add_sub_cancel, gdbCksum, gdbCksum,
      List.take_left, List.take_length]
  have htext : (c :: body ++ 0x23 :: a :: b :: t).tail.set ((c :: body).length - 1) 0 =
      body ++ 0 :: a :: b :: t := by
    rw [List.cons_append, List.tail_cons, List.length_cons, Nat.add_sub_cancel,
      List.set_append_right _ _ (Nat.le_refl _), Nat.sub_self, List.set_cons_zero]
  rw [command_eq (idxOf?_append hmem), hscan, hsum, htext, findCmd_zero]
  rfl

/-- A packet says all about its command. -/
theorem command_append {u : List Byte} (hu : IsPacket u) (t : List Byte) :
    command (u ++ t) = command u := by
  obtain ⟨body, a, b, rfl, hne, hbody, -, -, ha, hb⟩ := hu
  obtain ⟨c, body, rfl⟩ := List.exists_cons_of_ne_nil hne
  simp only [List.mem_cons, not_or] at hbody
  have happend : c :: body ++ [0x23, a, b] ++ t = c :: body ++ 0x23 :: a :: b :: t :=
    List.append_assoc _ _ _
  rw [happend, command_packet (Ne.symm hbody.1) hbody.2 ha hb,
    command_packet (Ne.symm hbody.1) hbody.2 ha hb]

/-! ## In order -/

/-- The bytes of a packet that has been taken up. -/
def Event.packet? : Event → Option (List Byte)
  | .packet bytes => some bytes
  | .send _ => none

/-- The packets that have been taken up. -/
def Emu.handled (e : Emu) : List (List Byte) := e.log.filterMap Event.packet?

/-- What has been received and not yet consumed. -/
def Emu.unconsumed (e : Emu) : Point → List Byte
  | .scan bp ep => e.pending bp ep
  | _ => e.clientbuf.take e.cblen

/-- What has been sent is handled, in this order, up to some place, and the rest of it is waiting.
-/
structure InOrder (us : List (List Byte)) (p : Point) (e : Emu) : Prop where
  sent : ∀ u ∈ us, IsSent u
  length_eq : e.clientbuf.length = pktBufMax
  cblen_le : p.isScan = false → e.cblen ≤ pktBufMax
  scanning : ∀ bp ep, p = .scan bp ep → ep ≤ pktBufMax ∧ (bp = 0 → e.cblen = ep)
  execute_eq : p = .recv ∨ p.isScan = true → e.execute = false
  cut : ∃ done todo, us = done ++ todo ∧ e.handled = packetsOf done ∧ e.unconsumed p = todo.flatten

theorem IsPacket.isComplete {u : List Byte} (h : IsPacket u) : IsComplete u := by
  obtain ⟨body, a, b, hu, -, hbody, hplus, hminus, -, -⟩ := h
  exact ⟨body, a, b, hu, hbody, hplus, hminus⟩

theorem IsSent.isUnit {u : List Byte} (h : IsSent u) : IsUnit u := h.imp_right IsPacket.isComplete

theorem handled_append (e : Emu) (evs : List Event) :
    { e with log := e.log ++ evs }.handled = e.handled ++ evs.filterMap Event.packet? :=
  List.filterMap_append

/-- Sending is no handling. -/
theorem filterMap_sends {evs : List Event} (h : ∀ ev ∈ evs, ∃ t, ev = .send t) :
    evs.filterMap Event.packet? = [] := by
  rw [List.filterMap_eq_nil_iff]
  intro ev hev
  obtain ⟨t, rfl⟩ := h ev hev
  rfl

/-- The buffer and the packets handled are as before. -/
structure SameBuffer (e e' : Emu) : Prop where
  clientbuf_eq : e'.clientbuf = e.clientbuf
  cblen_eq : e'.cblen = e.cblen
  handled_eq : e'.handled = e.handled

theorem sameBuffer_settled (e : Emu) : SameBuffer e e.settled := by
  unfold Emu.settled
  split <;> exact ⟨rfl, rfl, rfl⟩

theorem TopCourse.sameBuffer (h : TopCourse e p e') : SameBuffer e e' := by
  cases h with
  | replay | pass | stepped => exact ⟨rfl, rfl, rfl⟩
  | breakpoint => exact ⟨rfl, rfl, (handled_append e _).trans (List.append_nil _)⟩

theorem SameBuffer.trans {e₁ : Emu} (h : SameBuffer e e₁) (h' : SameBuffer e₁ e') :
    SameBuffer e e' :=
  ⟨h'.clientbuf_eq.trans h.clientbuf_eq, h'.cblen_eq.trans h.cblen_eq,
    h'.handled_eq.trans h.handled_eq⟩

/-- Outside the scanning loop only the buffer matters. -/
theorem InOrder.of_sameBuffer (h : InOrder us p e) (hp : p.isScan = false) (hp' : p'.isScan = false)
    (hsame : SameBuffer e e') (hexecute : p' = .recv → e'.execute = false) : InOrder us p' e' := by
  obtain ⟨done, todo, hus, hdone, htodo⟩ := h.cut
  have hunconsumed {p : Point} {e : Emu} (hp : p.isScan = false) :
      e.unconsumed p = e.clientbuf.take e.cblen := by
    cases p with
    | scan bp ep => cases hp
    | top | recv | run | stopped => rfl
  refine ⟨h.sent, hsame.clientbuf_eq ▸ h.length_eq, fun _ => hsame.cblen_eq ▸ h.cblen_le hp,
    fun bp ep heq => ?_, fun hor => ?_, done, todo, hus, hsame.handled_eq.trans hdone, ?_⟩
  · subst heq
    cases hp'
  · rcases hor with hrecv | hscan
    · exact hexecute hrecv
    · rw [hp'] at hscan
      cases hscan
  · rw [hunconsumed hp', hsame.clientbuf_eq, hsame.cblen_eq, ← htodo, hunconsumed hp]

theorem pending_received (hcblen : e.cblen ≤ e.clientbuf.length) (s : List Byte) :
    (e.received s).pending 0 (e.received s).cblen = e.clientbuf.take e.cblen ++ s := by
  have hlen : (e.clientbuf.take e.cblen ++ s).length = e.cblen + s.length := by
    rw [List.length_append, List.length_take, Nat.min_eq_left hcblen]
  exact List.take_left' hlen

/-- A pass of the receiving loop leads to the scanning loop, at the first byte that is waiting. -/
theorem point_of_receive {r : Recv} (h : gdbstubReceive r e = .ok (p', e')) :
    p' = .scan 0 e'.cblen := by
  unfold gdbstubReceive at h
  split at h
  · cases h
  · cases h
    rfl
  · split at h
    · cases h
    · cases h
      rfl

/-- The receiving loop puts what it gets behind what is there. -/
theorem InOrder.receive {chunk : List (List Byte)} {env : Env} (h : InOrder us .recv e)
    (hchunk : Delivers chunk env .recv e) (hrecv : gdbstubReceive env.recv e = .ok (p', e')) :
    InOrder (us ++ chunk) p' e' := by
  obtain ⟨ctrlc, r⟩ := env
  obtain ⟨done, todo, hus, hdone, htodo⟩ := h.cut
  have hcblen := h.cblen_le rfl
  have hidle := h.execute_eq (Or.inl rfl)
  cases r with
  | failed => cases hrecv
  | wouldBlock =>
    obtain rfl : chunk = [] := hchunk
    cases hrecv
    rw [List.append_nil]
    exact ⟨h.sent, h.length_eq, fun hscan => (by cases hscan),
      fun bp ep heq => (by cases heq; exact ⟨hcblen, fun _ => rfl⟩), fun _ => hidle, done, todo,
      hus, hdone, htodo⟩
  | data bytes =>
    obtain ⟨rfl, hunits, hfits⟩ := hchunk
    have hroom : e.cblen + chunk.flatten.length ≤ e.clientbuf.length := by
      rw [h.length_eq]
      omega
    unfold gdbstubReceive at hrecv
    dsimp only at hrecv
    rw [List.take_of_length_le hfits] at hrecv
    split at hrecv
    · cases hrecv
    · cases hrecv
      refine ⟨fun u hu => ?_, (length_received hroom).trans h.length_eq,
        fun hscan => (by cases hscan), fun bp ep heq => ?_, fun _ => hidle, done, todo ++ chunk, ?_,
        hdone, ?_⟩
      · exact (List.mem_append.mp hu).elim (h.sent u) (hunits u)
      · cases heq
        exact ⟨h.length_eq ▸ hroom, fun _ => rfl⟩
      · rw [hus, List.append_assoc]
      · rw [List.flatten_append, ← htodo]
        exact pending_received (by omega) _

theorem packetsOf_append (us vs : List (List Byte)) :
    packetsOf (us ++ vs) = packetsOf us ++ packetsOf vs := List.filter_append _ _

/-- No packet is an acknowledgement. -/
theorem packetsOf_complete {u : List Byte} (h : IsComplete u) : packetsOf [u] = [u] := by
  obtain ⟨body, a, b, rfl, -⟩ := h
  have hne (c : Byte) : (body ++ [0x23, a, b] != [c]) = true := by
    rw [bne_iff_ne]
    intro heq
    have hlength := congrArg List.length heq
    simp at hlength
  rw [packetsOf, List.filter_singleton, hne, hne]
  rfl

/-- A pass handles a packet once, and an acknowledgement not at all. -/
theorem Passed.handled_eq {u : List Byte} {e₁ : Emu} (h : Passed bp u e e₁) :
    e₁.handled = e.handled ++ packetsOf [u] := by
  rcases h.effect with ⟨rfl | rfl, rfl⟩ | ⟨hcomplete, buf, ack, -, heffect⟩
  · exact (List.append_nil _).symm
  · exact (List.append_nil _).symm
  · obtain ⟨evs, hlog, hsends, -⟩ := heffect.replies
    rw [packetsOf_complete hcomplete, Emu.handled, hlog, List.filterMap_append,
      List.filterMap_append, filterMap_sends hsends, List.append_nil]
    rfl

/-- What is left after the scanning loop is at the front, also if it has not consumed anything. -/
theorem take_waiting (hep : ep ≤ e.clientbuf.length) (hfirst : bp = 0 → e.cblen = ep) :
    (gdbstubScanned bp ep e).2.clientbuf.take (gdbstubScanned bp ep e).2.cblen =
      e.pending bp ep := by
  rcases Nat.eq_zero_or_pos bp with rfl | hpos
  · rw [gdbstubScanned, if_pos rfl]
    dsimp only
    rw [hfirst rfl]
    rfl
  · exact take_scanned hpos hep

/-- What is left after the scanning loop is waiting at the front. -/
theorem inOrder_scanned {done todo : List (List Byte)} (hsent : ∀ u ∈ us, IsSent u)
    (hlen : e.clientbuf.length = pktBufMax) (hep : ep ≤ e.clientbuf.length)
    (hfirst : bp = 0 → e.cblen = ep) (hus : us = done ++ todo)
    (hdone : e.handled = packetsOf done) (htodo : e.pending bp ep = todo.flatten) :
    InOrder us (gdbstubScanned bp ep e).1 (gdbstubScanned bp ep e).2 := by
  have hpoint : (gdbstubScanned bp ep e).1 = if e.execute then .run else .recv := by
    rw [scanned_eq]
  obtain ⟨buf, n, hframe⟩ := scanned_frame bp ep e
  have hexecute : (gdbstubScanned bp ep e).2.execute = e.execute := by rw [hframe]
  have hleft := take_waiting hep hfirst
  refine ⟨hsent, ?_, fun _ => ?_, fun b p heq => ?_, fun hor => ?_, done, todo, hus, ?_, ?_⟩
  · unfold gdbstubScanned
    split
    · exact hlen
    · simp only [List.length_append, List.length_take, List.length_drop]
      omega
  · unfold gdbstubScanned
    split
    · rename_i hzero
      dsimp only
      rw [hfirst hzero]
      omega
    · dsimp only
      omega
  · rw [hpoint] at heq
    split at heq <;> cases heq
  · rw [hexecute]
    rw [hpoint] at hor
    cases hex : e.execute with
    | false => rfl
    | true =>
      rw [hex] at hor
      rcases hor with hrecv | hscan
      · cases hrecv
      · cases hscan
  · rw [hframe]
    exact hdone
  · rw [← htodo, ← hleft, hpoint]
    split <;> rfl

/-- The courses of a pass: nothing is waiting, or the next of what is waiting is consumed. -/
theorem InOrder.scan_cases (h : InOrder us (.scan bp ep) e)
    (hscan : gdbstubScan bp ep e = .ok (p', e')) :
    (e.handled = packetsOf us ∧ e.pending bp ep = [] ∧ gdbstubScanned bp ep e = (p', e')) ∨
    ∃ done u todo e₁, us = done ++ u :: todo ∧ e.handled = packetsOf done ∧
      e.pending bp ep = u ++ todo.flatten ∧ Passed bp u e e₁ ∧
      (if e₁.execute then gdbstubScanned (bp + u.length) ep e₁
        else (.scan (bp + u.length) ep, e₁)) = (p', e') := by
  obtain ⟨done, todo, rfl, hdone, htodo⟩ := h.cut
  have hep : ep ≤ e.clientbuf.length := by
    rw [h.length_eq]
    exact (h.scanning bp ep rfl).1
  cases todo with
  | nil =>
    have hnone : e.pending bp ep = [] := htodo
    have hend : ep ≤ bp := by
      have hlength := length_pending bp hep
      rw [hnone, List.length_nil] at hlength
      omega
    rw [List.append_nil]
    exact Or.inl ⟨hdone, hnone, Except.ok.inj ((scan_empty hend).symm.trans hscan)⟩
  | cons u todo =>
    have hpend : e.pending bp ep = u ++ todo.flatten := htodo
    have hunit : IsUnit u := (h.sent u (by simp)).isUnit
    rcases scan_unit hunit hep hpend (h.execute_eq (Or.inr rfl)) with
      ⟨a, ha⟩ | ⟨e₁, hpassed, heq⟩
    · rw [ha] at hscan
      cases hscan
    · exact Or.inr ⟨done, u, todo, e₁, rfl, hdone, hpend, hpassed,
        Except.ok.inj (heq.symm.trans hscan)⟩

/-- The scanning loop takes the next of what is waiting. -/
theorem InOrder.scan (h : InOrder us (.scan bp ep) e)
    (hscan : gdbstubScan bp ep e = .ok (p', e')) : InOrder us p' e' := by
  obtain ⟨hep, hfirst⟩ := h.scanning bp ep rfl
  have hlen := h.length_eq
  rw [← hlen] at hep
  rcases h.scan_cases hscan with
    ⟨hhandled, hnone, hpair⟩ | ⟨done, u, todo, e₁, hus, hdone, hpend, hpassed, hpair⟩
  · have hnext := inOrder_scanned h.sent hlen hep hfirst (List.append_nil us).symm hhandled hnone
    rwa [hpair] at hnext
  have hpos := length_pos_of_isUnit (h.sent u (by simp [hus])).isUnit
  have hlen₁ : e₁.clientbuf.length = pktBufMax := hpassed.length_eq.trans hlen
  have hep₁ : ep ≤ e₁.clientbuf.length := by rwa [hpassed.length_eq]
  have hrest : e₁.pending (bp + u.length) ep = todo.flatten := by
    rw [Emu.pending, hpassed.drop_eq]
    exact pending_append hpend
  have hhandled : e₁.handled = packetsOf (done ++ [u]) := by
    rw [hpassed.handled_eq, hdone, packetsOf_append]
  have hus' : us = (done ++ [u]) ++ todo := by
    rw [hus, List.append_assoc]
    rfl
  cases hexecute : e₁.execute with
  | true =>
    rw [hexecute, if_pos rfl] at hpair
    have hnext := inOrder_scanned h.sent hlen₁ hep₁ (fun hzero => (by omega)) hus' hhandled hrest
    rwa [hpair] at hnext
  | false =>
    rw [hexecute, if_neg Bool.false_ne_true] at hpair
    cases hpair
    refine ⟨h.sent, hlen₁, fun hleft => (by cases hleft), fun b p hpoint => ?_, fun _ => hexecute,
      done ++ [u], todo, hus', hhandled, hrest⟩
    cases hpoint
    exact ⟨hlen₁ ▸ hep₁, fun hzero => (by omega)⟩

/-- A pass that lets the emulator go on carries out a command. -/
theorem InOrder.effect_of_run (h : InOrder us (.scan bp ep) e)
    (hscan : gdbstubScan bp ep e = .ok (.run, e')) :
    ∃ buf log e₁ buf' n,
      Effect (command (e.clientbuf.drop bp)) { e with clientbuf := buf, log := log } e₁ ∧
      e' = { e₁ with clientbuf := buf', cblen := n } := by
  have hidle := h.execute_eq (Or.inr rfl)
  rcases h.scan_cases hscan with ⟨-, -, hpair⟩ | ⟨done, u, todo, e₁, -, -, -, hpassed, hpair⟩
  · rw [scanned_eq, hidle, if_neg Bool.false_ne_true] at hpair
    cases hpair
  rcases hpassed.effect with ⟨-, rfl⟩ | ⟨-, buf, ack, -, heffect⟩
  · rw [if_neg (by rw [hidle]; exact Bool.false_ne_true)] at hpair
    cases hpair
  obtain ⟨buf', n, hframe⟩ := scanned_frame (bp + u.length) ep e₁
  refine ⟨buf, _, e₁, buf', n, heffect, ?_⟩
  split at hpair
  · rw [← hframe, hpair]
  · cases hpair

/-- How the scanning loop is left after some packets and acknowledgements: for the emulator, by the
first command that makes it go on, or for the next `recv`, with none of what has come left. -/
def LeavesScan (insns : ℕ) (now left : List (List Byte)) (p : Point) : Prop :=
  (p = .run ∧ ∃ front u, now = front ++ [u] ∧
    (∀ v ∈ front, resumes insns (command v) = false) ∧ resumes insns (command u) = true) ∨
  (p = .recv ∧ left = [] ∧ ∀ v ∈ now, resumes insns (command v) = false)

/-- An acknowledgement is no command, and a packet says all about its own. -/
theorem command_sent {u : List Byte} (hu : IsSent u) (t : List Byte) :
    command (u ++ t) = command u := by
  rcases hu with hack | hpacket
  · have hnone := command_ack (s := []) hack
    rw [List.append_nil] at hnone
    rw [command_ack hack, hnone]
  · exact command_append hpacket t

/-- Unless a handler aborts the program, the scanning loop ends. It handles each of the packets that
are waiting, up to the first that makes the emulator go on. -/
theorem handles_waiting {todo : List (List Byte)} (hsent : ∀ u ∈ todo, IsSent u)
    (hep : ep ≤ e.clientbuf.length) (hfirst : bp = 0 → e.cblen = ep)
    (hpend : e.pending bp ep = todo.flatten) (hidle : e.execute = false) :
    (∃ k a, scanPasses k (.scan bp ep) e = .error a) ∨
    ∃ k p' e' now left, scanPasses k (.scan bp ep) e = .ok (p', e') ∧ todo = now ++ left ∧
      e'.handled = e.handled ++ packetsOf now ∧ e'.unconsumed p' = left.flatten ∧
      LeavesScan e.machine.insns now left p' := by
  induction todo generalizing bp e with
  | nil =>
    have hnone : e.pending bp ep = [] := hpend
    have hend : ep ≤ bp := by
      have hlength := length_pending bp hep
      rw [hnone, List.length_nil] at hlength
      omega
    obtain ⟨buf, n, hframe⟩ := scanned_frame bp ep e
    refine Or.inr ⟨1, .recv, (gdbstubScanned bp ep e).2, [], [], ?_, rfl, ?_, ?_,
      Or.inr ⟨rfl, rfl, by simp⟩⟩
    · rw [scanPasses_scan, scan_empty hend, scanned_eq, hidle, if_neg Bool.false_ne_true]
      exact scanPasses_zero _ _
    · rw [hframe]
      exact (List.append_nil _).symm
    · exact (take_waiting hep hfirst).trans hpend
  | cons u todo ih =>
    have hu := hsent u List.mem_cons_self
    have hpend' : e.pending bp ep = u ++ todo.flatten := hpend
    rcases scan_unit hu.isUnit hep hpend' hidle with ⟨a, ha⟩ | ⟨e₁, hpassed, hscan⟩
    · exact Or.inl ⟨1, a, by rw [scanPasses_scan, ha]⟩
    have hpos := length_pos_of_isUnit hu.isUnit
    have hep₁ : ep ≤ e₁.clientbuf.length := by rwa [hpassed.length_eq]
    have hrest : e₁.pending (bp + u.length) ep = todo.flatten := by
      rw [Emu.pending, hpassed.drop_eq]
      exact pending_append hpend'
    have hhandled := hpassed.handled_eq
    have hcommand : command (e.clientbuf.drop bp) = command u := by
      rw [drop_eq_append hpend', List.append_assoc, command_sent hu]
    have hexecute := hpassed.execute_eq hpend' hidle
    rw [hcommand] at hexecute
    cases hresume : resumes e.machine.insns (command u) with
    | true =>
      rw [hresume] at hexecute
      rw [hexecute, if_pos rfl] at hscan
      obtain ⟨buf, n, hframe⟩ := scanned_frame (bp + u.length) ep e₁
      refine Or.inr ⟨1, .run, (gdbstubScanned (bp + u.length) ep e₁).2, [u], todo, ?_, rfl, ?_, ?_,
        Or.inl ⟨rfl, [], u, rfl, by simp, hresume⟩⟩
      · rw [scanPasses_scan, hscan, scanned_eq, hexecute, if_pos rfl]
        exact scanPasses_zero _ _
      · rw [hframe, ← hhandled]
        rfl
      · exact (take_waiting hep₁ fun hzero => (by omega)).trans hrest
    | false =>
      rw [hresume] at hexecute
      rw [hexecute, if_neg Bool.false_ne_true] at hscan
      have hnext (k : ℕ) : scanPasses (k + 1) (.scan bp ep) e =
          scanPasses k (.scan (bp + u.length) ep) e₁ := by rw [scanPasses_scan, hscan]
      have hrest_sent : ∀ v ∈ todo, IsSent v := fun v hv => hsent v (List.mem_cons_of_mem _ hv)
      rcases ih hrest_sent hep₁ (fun hzero => (by omega)) hrest hexecute with
        ⟨k, a, ha⟩ | ⟨k, p', e', now, left, hrun, htodo, hnow, hleft, hleaves⟩
      · exact Or.inl ⟨k + 1, a, (hnext k).trans ha⟩
      refine Or.inr ⟨k + 1, p', e', u :: now, left, (hnext k).trans hrun, ?_, ?_, hleft, ?_⟩
      · rw [htodo]
        rfl
      · rw [hnow, hhandled, List.append_assoc, ← packetsOf_append]
        rfl
      · rw [hpassed.insns_eq] at hleaves
        have hhead : ∀ vs, (∀ v ∈ vs, resumes e.machine.insns (command v) = false) →
            ∀ v ∈ u :: vs, resumes e.machine.insns (command v) = false := by
          intro vs hvs v hv
          rcases List.mem_cons.mp hv with rfl | hv
          · exact hresume
          · exact hvs v hv
        rcases hleaves with ⟨hp', front, w, rfl, hfront, hw⟩ | ⟨hp', hleft', hnow'⟩
        · exact Or.inl ⟨hp', u :: front, w, rfl, hhead front hfront, hw⟩
        · exact Or.inr ⟨hp', hleft', hhead now hnow'⟩

theorem inOrder_start (m : Machine) (insnlimit : ℕ) (tracehex : Bool)
    (tracefile : Option (List Byte)) :
    InOrder [] .top (Emu.attached m insnlimit tracehex tracefile) :=
  ⟨by simp, List.length_replicate, fun _ => Nat.zero_le _, fun _ _ heq => (by cases heq),
    fun _ => rfl, [], [], rfl, rfl, rfl⟩

section Running

variable [DesLibrary]

theorem RunCourse.sameBuffer (h : RunCourse e p e') : SameBuffer e e' := by
  cases h <;> exact ⟨rfl, rfl, rfl⟩

/-- The states that are reached while the client's packets and acknowledgements come in. -/
inductive Served (e₀ : Emu) : List (List Byte) → Point → Emu → Prop
  | start : Served e₀ [] .top e₀
  | tick (env : Env) {us chunk : List (List Byte)} {p p' : Point} {e e' : Emu} :
      Served e₀ us p e → Delivers chunk env p e → tick env p e = .ok (p', e') →
      Served e₀ (us ++ chunk) p' e'

/-- Ticks in which nothing comes in. -/
theorem Served.ticks {e₀ : Emu} (envs : List Env) (h : Served e₀ us p e)
    (hquiet : ∀ env ∈ envs, env.recv = .wouldBlock) (hticks : ticks envs p e = .ok (p', e')) :
    Served e₀ us p' e' := by
  induction envs generalizing p e with
  | nil =>
    cases hticks
    exact h
  | cons env envs ih =>
    rw [AvrEmu.ticks] at hticks
    cases htick : AvrEmu.tick env p e with
    | error a =>
      rw [htick] at hticks
      cases hticks
    | ok r =>
      rw [htick] at hticks
      have hnone : Delivers [] env p e := by
        cases p with
        | recv =>
          rw [Delivers, hquiet env List.mem_cons_self]
        | top | scan | run | stopped => rfl
      have hnext := h.tick env hnone htick
      rw [List.append_nil] at hnext
      exact ih hnext (fun env henv => hquiet env (List.mem_cons_of_mem _ henv)) hticks

theorem InOrder.tick {chunk : List (List Byte)} {env : Env} (h : InOrder us p e)
    (hchunk : Delivers chunk env p e) (htick : tick env p e = .ok (p', e')) :
    InOrder (us ++ chunk) p' e' := by
  cases p with
  | recv => exact h.receive hchunk htick
  | scan bp ep =>
    obtain rfl : chunk = [] := hchunk
    rw [List.append_nil]
    exact h.scan htick
  | top =>
    obtain rfl : chunk = [] := hchunk
    rw [List.append_nil]
    have hcourse := topCourse_of_tick htick
    have hsame := (sameBuffer_settled e).trans hcourse.sameBuffer
    refine h.of_sameBuffer rfl ?_ hsame fun hrecv => ?_
    · cases hcourse <;> rfl
    · subst hrecv
      cases hcourse <;> rfl
  | run =>
    obtain rfl : chunk = [] := hchunk
    rw [List.append_nil]
    have hcourse := runCourse_of_tick htick
    refine h.of_sameBuffer rfl ?_ hcourse.sameBuffer fun hrecv => ?_
    · cases hcourse <;> rfl
    · subst hrecv
      cases hcourse
  | stopped =>
    obtain rfl : chunk = [] := hchunk
    cases htick
    rw [List.append_nil]
    exact h

theorem Served.inOrder {e₀ : Emu} (h : Served e₀ us p e) (hstart : InOrder [] .top e₀) :
    InOrder us p e := by
  induction h with
  | start => exact hstart
  | tick env _ hchunk htick ih => exact ih.tick hchunk htick

/-- At any time some of what the client has sent is done and the rest is waiting: the packets taken
up are those of the first part, each once, whole and in order. Every `recv` is followed by the
scanning loop. Unless a handler aborts the program, that loop comes to an end: it takes up what is
waiting up to the first command that makes the emulator go on, and what was sent behind that is what
waits next, or it takes up all of it and goes back to `recv`. -/
theorem packets_handled_in_order (m : Machine) (insnlimit : ℕ) (tracehex : Bool)
    (tracefile : Option (List Byte)) (us : List (List Byte)) (p : Point) (e : Emu)
    (h : Served (Emu.attached m insnlimit tracehex tracefile) us p e) :
    ∃ done todo, us = done ++ todo ∧ e.handled = packetsOf done ∧
      e.unconsumed p = todo.flatten ∧
      (p = .recv → ∀ r p' e', gdbstubReceive r e = .ok (p', e') → p' = .scan 0 e'.cblen) ∧
      (p.isScan = true → (∃ k a, scanPasses k p e = .error a) ∨
        ∃ k p' e' now left, scanPasses k p e = .ok (p', e') ∧ todo = now ++ left ∧
          e'.handled = packetsOf (done ++ now) ∧ e'.unconsumed p' = left.flatten ∧
          LeavesScan e.machine.insns now left p') := by
  have hinv := h.inOrder (inOrder_start m insnlimit tracehex tracefile)
  obtain ⟨done, todo, hus, hdone, htodo⟩ := hinv.cut
  refine ⟨done, todo, hus, hdone, htodo, fun _ _ _ _ => point_of_receive, fun hscan => ?_⟩
  cases p with
  | scan bp ep =>
    have hep : ep ≤ e.clientbuf.length := by
      rw [hinv.length_eq]
      exact (hinv.scanning bp ep rfl).1
    have hsent : ∀ u ∈ todo, IsSent u := fun u hu => hinv.sent u (by simp [hus, hu])
    have hwaiting := handles_waiting hsent hep (hinv.scanning bp ep rfl).2 htodo
      (hinv.execute_eq (Or.inr rfl))
    simpa only [packetsOf_append, ← hdone] using hwaiting
  | top | recv | run | stopped => cases hscan

end Running

section Continue

attribute [local instance] idleDes

/-- A client that lets the emulator go on and has sent the next packet already. -/
theorem packets_handled_in_order_continue :
    let us := [ascii "+", ascii "$c#63", ascii "$g#67"]
    ∃ e, Served (Emu.attached (Machine.powerOn fun _ => 0) 0 false none) us (.scan 0 11) e ∧
      ∃ done todo, us = done ++ todo ∧ e.handled = packetsOf done ∧
        e.unconsumed (.scan 0 11) = todo.flatten ∧
        ((∃ k a, scanPasses k (.scan 0 11) e = .error a) ∨
          ∃ k p' e' now left, scanPasses k (.scan 0 11) e = .ok (p', e') ∧ todo = now ++ left ∧
            e'.handled = packetsOf (done ++ now) ∧ e'.unconsumed p' = left.flatten ∧
            LeavesScan e.machine.insns now left p') := by
  intro us
  have hsent : ∀ u ∈ us, IsSent u := by
    intro u hu
    simp only [us, List.mem_cons, List.not_mem_nil, or_false] at hu
    rcases hu with rfl | rfl | rfl
    · exact Or.inl (Or.inl rfl)
    · exact Or.inr ⟨ascii "$c", 0x36, 0x33, rfl, by decide⟩
    · exact Or.inr ⟨ascii "$g", 0x36, 0x37, rfl, by decide⟩
  have hstop : Served (Emu.attached (Machine.powerOn fun _ => 0) 0 false none) [] .recv _ :=
    .tick ⟨false, .wouldBlock⟩ .start rfl rfl
  have hrecv : Served (Emu.attached (Machine.powerOn fun _ => 0) 0 false none) us (.scan 0 11) _ :=
    .tick ⟨false, .data us.flatten⟩ hstop ⟨rfl, hsent, by decide⟩ rfl
  obtain ⟨done, todo, hus, hdone, htodo, -, hscan⟩ :=
    packets_handled_in_order _ _ _ _ us (.scan 0 11) _ hrecv
  exact ⟨_, hrecv, done, todo, hus, hdone, htodo, hscan rfl⟩

end Continue

end AvrEmu
