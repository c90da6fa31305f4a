import AvrEmu.Gdb.Alone
import Mathlib.Computability.StateTransition

/-!
# Sessions as dialogues

When the bytes of a session arrive and how `recv` cuts them up is up to the network. A dialogue
knows nothing of it: packets are taken from a queue, one at a time, and there is no buffer. A
session goes through the states of the dialogue over the packets that its client sends, and every
dialogue is one of a session.
-/

namespace AvrEmu

open StateTransition

variable {e e' e₀ : Emu} {p p' : Point} {bp ep : ℕ} {u s : List Byte}
  {us queue later : List (List Byte)}

/-- Where control is, if the loops of the stub are not told apart. -/
inductive Stage where
  | top
  | stub
  | run
  | stopped
  deriving DecidableEq

def Point.stage : Point → Stage
  | .top => .top
  | .recv => .stub
  | .scan _ _ => .stub
  | .run => .run
  | .stopped => .stopped

theorem eq_run (h : p.stage = .run) : p = .run := by
  cases p with
  | run => rfl
  | top | recv | scan | stopped => cases h

theorem inStub_of_stage (h : p.stage = .stub) : p.inStub = true := by
  cases p with
  | recv | scan => rfl
  | top | run | stopped => cases h

theorem eq_recv (hp : p.isScan = false) (h : p.stage = .stub) : p = .recv := by
  cases p with
  | recv => rfl
  | scan => cases hp
  | top | run | stopped => cases h

/-- A pass of the receiving loop concerns the buffer only. -/
theorem receive_unbuffered {r : Recv} (h : gdbstubReceive r e = .ok (p', e')) :
    p'.stage = .stub ∧ e'.unbuffered = e.unbuffered := by
  unfold gdbstubReceive at h
  split at h
  · cases h
  · cases h
    exact ⟨rfl, rfl⟩
  · split at h
    · cases h
    · cases h
      exact ⟨rfl, rfl⟩

/-- A session without its network: the packets that are still to be taken up. -/
structure Dialogue where
  queue : List (List Byte)
  stage : Stage
  vars : Emu

/-! ## The moves of a dialogue -/

section Moves

variable [DesLibrary]

/-- A packet in the stub, and otherwise a tick of the emulator. -/
def Dialogue.move (d : Dialogue) : Option Dialogue :=
  match d.stage, d.queue with
  | .top, queue => (emulateTop false d.vars).toOption.map fun r => ⟨queue, r.1.stage, r.2⟩
  | .stub, u :: queue => (handle u d.vars).toOption.map fun e =>
      ⟨queue, if e.execute then .run else .stub, e⟩
  | .stub, [] => none
  | .run, queue => (emulateRun d.vars).toOption.map fun r => ⟨queue, r.1.stage, r.2⟩
  | .stopped, _ => none

theorem move_top {r : Point × Emu} (h : emulateTop false e = .ok r) :
    (Dialogue.mk queue .top e).move = some ⟨queue, r.1.stage, r.2⟩ := by
  simp only [Dialogue.move, h]
  rfl

theorem move_run {r : Point × Emu} (h : emulateRun e = .ok r) :
    (Dialogue.mk queue .run e).move = some ⟨queue, r.1.stage, r.2⟩ := by
  simp only [Dialogue.move, h]
  rfl

theorem move_packet (h : handle u e = .ok e') : (Dialogue.mk (u :: queue) .stub e).move =
    some ⟨queue, if e'.execute then .run else .stub, e'⟩ := by
  simp only [Dialogue.move, h]
  rfl

end Moves

/-! ## The emulator does not look at the buffer -/

theorem interactive_unbuffered (e : Emu) : gdbstubInteractive e.unbuffered =
    (gdbstubInteractive e).map fun r => (r.1, r.2.unbuffered) := by
  have hconn : ({ e.unbuffered with execute := false }).connected = e.connected := rfl
  rw [gdbstubInteractive, gdbstubInteractive]
  dsimp only
  rw [hconn]
  cases require e.connected "x" with
  | error a => rfl
  | ok r => rfl

theorem settled_unbuffered (e : Emu) : e.unbuffered.settled = e.settled.unbuffered := by
  have hcond : (e.unbuffered.replayMode && e.unbuffered.insnreplaylim ≤ e.unbuffered.machine.insns)
      = (e.replayMode && e.insnreplaylim ≤ e.machine.insns) := rfl
  rw [Emu.settled, Emu.settled, hcond]
  split <;> rfl

theorem intr_unbuffered (e : Emu) : gdbstubIntr e.unbuffered =
    (gdbstubIntr e).map fun r => (r.1, r.2.unbuffered) := by
  have hconn : e.unbuffered.connected = e.connected := rfl
  have hstep : e.unbuffered.stepone = e.stepone := rfl
  have hbreak : e.unbuffered.breakpoints e.unbuffered.machine.pc = e.breakpoints e.machine.pc := rfl
  rw [gdbstubIntr, gdbstubIntr, hconn, hstep, hbreak]
  split
  · rfl
  split
  · exact interactive_unbuffered { e with stepone := false }
  split
  · have hreport := (IgnoresBuffer.demand (r := fun e => require e.connected "x") (fun _ => rfl)
      fun _ => ignoresBuffer_sendstr (ascii "S05")) e
    change gdbstubBreakpoint e.unbuffered = (gdbstubBreakpoint e).map _ at hreport
    rw [hreport]
    cases gdbstubBreakpoint e with
    | error a => rfl
    | ok e₁ => exact interactive_unbuffered e₁
  · rfl

theorem emulateTop_unbuffered (ctrlc : Bool) (e : Emu) : emulateTop ctrlc e.unbuffered =
    (emulateTop ctrlc e).map fun r => (r.1, r.2.unbuffered) := by
  unfold emulateTop
  split
  · rfl
  change (if e.unbuffered.settled.replayMode then pure (.run, e.unbuffered.settled)
      else gdbstubIntr e.unbuffered.settled) =
    (if e.settled.replayMode then pure (.run, e.settled) else gdbstubIntr e.settled).map _
  have hreplay : e.settled.unbuffered.replayMode = e.settled.replayMode := rfl
  rw [settled_unbuffered, hreplay]
  split
  · rfl
  · exact intr_unbuffered e.settled

/-- Only a connected client gets as far as its packets. -/
theorem connected_of_gdbCmd {c pound : ℕ} (h : gdbCmd c pound e = .ok e') : e.connected = true := by
  have hsend {t : List Byte} {log : List Event} {e₁ : Emu}
      (h : gdbSendraw t { e with log := log } = .ok e₁) : e.connected = true := by
    obtain ⟨⟨⟩, hconn, -⟩ := bind_eq_ok h
    exact require_eq_ok hconn
  obtain ⟨-, -, h⟩ := bind_eq_ok h
  obtain ⟨cksend, -, h⟩ := bind_eq_ok h
  dsimp only at h
  generalize gdbCksum _ _ = ckcalc at h
  split at h
  · exact hsend h
  · obtain ⟨e₁, hack, -⟩ := bind_eq_ok h
    exact hsend hack

theorem handle_eq_ok (h : handle u e = .ok e') :
    ∃ e₁, gdbCmd 0 (u.length - 3) { e with clientbuf := u } = .ok e₁ ∧ e' = e₁.unbuffered := by
  rw [handle] at h
  cases hcmd : gdbCmd 0 (u.length - 3) { e with clientbuf := u } with
  | error a =>
    rw [hcmd] at h
    cases h
  | ok e₁ =>
    rw [hcmd] at h
    exact ⟨e₁, rfl, (Except.ok.inj h).symm⟩

theorem connected_of_handle (h : handle u e = .ok e') : e.connected = true := by
  obtain ⟨e₁, hcmd, -⟩ := handle_eq_ok h
  have hconn := connected_of_gdbCmd hcmd
  exact hconn

/-- A packet in the buffer, as the stub finds it there. -/
theorem finds_of_pending {a b : Byte} {body : List Byte} (hconn : e.connected = true)
    (hbody : 0x23 ∉ body) (hplus : body.head? ≠ some 0x2b) (hminus : body.head? ≠ some 0x2d)
    (ha : Hex.isDigit a = true) (hb : Hex.isDigit b = true) (hep : ep ≤ e.clientbuf.length)
    (hpend : e.pending bp ep = body ++ [0x23, a, b] ++ s) :
    ∃ before rest, before.length = bp ∧ e.Finds before body rest a b := by
  have hlt : bp < ep := lt_of_pending hpend (by simp)
  refine ⟨e.clientbuf.take bp, s ++ e.clientbuf.drop (bp + (ep - bp)), ?_, hconn, ?_, hbody,
    ⟨hplus, hminus⟩, ha, hb⟩
  · rw [List.length_take]
    omega
  · have hdrop := drop_eq_append hpend
    rw [List.append_assoc, List.append_assoc] at hdrop
    conv_lhs => rw [← List.take_append_drop bp e.clientbuf]
    rw [hdrop]
    rfl

theorem scanned_unbuffered (bp ep : ℕ) (e : Emu) :
    (gdbstubScanned bp ep e).1.stage = (if e.execute then .run else .stub) ∧
    (gdbstubScanned bp ep e).2.unbuffered = e.unbuffered ∧
    (gdbstubScanned bp ep e).2.handled = e.handled := by
  obtain ⟨buf, n, hframe⟩ := scanned_frame bp ep e
  refine ⟨?_, by rw [hframe]; rfl, by rw [hframe]; rfl⟩
  rw [scanned_eq]
  cases e.execute <;> rfl

/-- What follows a packet in the scanning loop. -/
theorem passed_stage {n : ℕ}
    (h : (if e.execute then gdbstubScanned n ep e else (.scan n ep, e)) = (p', e')) :
    p'.stage = (if e.execute then .run else .stub) ∧ e'.unbuffered = e.unbuffered ∧
      e'.handled = e.handled := by
  cases hexecute : e.execute with
  | true =>
    rw [hexecute, if_pos rfl] at h
    have hscanned := scanned_unbuffered n ep e
    rwa [h, hexecute] at hscanned
  | false =>
    rw [hexecute, if_neg Bool.false_ne_true] at h
    cases h
    exact ⟨rfl, rfl, rfl⟩

theorem log_of_gdbCmd {c pound : ℕ} (h : gdbCmd c pound e = .ok e') : e.log <+: e'.log := by
  have hraw {t : List Byte} {e e₁ : Emu} (h : gdbSendraw t e = .ok e₁) : e.log <+: e₁.log := by
    rw [gdbSendraw_eq h]
    exact List.prefix_append _ _
  have htaken (taken : Event) : e.log <+: e.log ++ [taken] := List.prefix_append _ _
  obtain ⟨-, -, h⟩ := bind_eq_ok h
  obtain ⟨cksend, -, h⟩ := bind_eq_ok h
  dsimp only at h
  generalize gdbCksum _ _ = ckcalc at h
  split at h
  · exact (htaken _).trans (hraw h)
  obtain ⟨e₁, hack, h⟩ := bind_eq_ok h
  refine ((htaken _).trans (hraw hack)).trans ?_
  split at h
  · obtain ⟨t, rfl, -⟩ := exists_sent h
    exact List.prefix_append _ _
  · obtain ⟨evs, hlog, -⟩ := (effect_of_dispatch h).replies
    rw [hlog]
    exact List.prefix_append _ _

/-- An acknowledgement asks for no digits. -/
theorem bringsDigits_of_packets (hsent : ∀ u ∈ us, IsSent u)
    (hdigits : ∀ u ∈ packetsOf us, BringsDigits u) : ∀ u ∈ us, BringsDigits u := by
  intro u hu
  rcases hsent u hu with hack | hpacket
  · intro hcommand
    have hnone := command_ack (s := []) hack
    rw [List.append_nil] at hnone
    exact absurd hnone hcommand
  · refine hdigits u (List.mem_filter.mpr ⟨hu, ?_⟩)
    have hself := packetsOf_complete hpacket.isComplete
    exact (List.filter_eq_self.mp hself) u List.mem_cons_self

/-! ## A text in its frame -/

theorem isPacket_framed (hpound : 0x23 ∉ s) : IsPacket (framed s) := by
  have hlt := (gdbCksumstr s).isLt
  refine ⟨0x24 :: s, Hex.digit ((gdbCksumstr s).toNat / 16),
    Hex.digit ((gdbCksumstr s).toNat % 16), framed_eq s, List.cons_ne_nil _ _, ?_, by simp, by simp,
    Hex.isDigit_digit (by omega), Hex.isDigit_digit (by omega)⟩
  intro hmem
  rcases List.mem_cons.mp hmem with heq | hmem
  · cases heq
  · exact hpound hmem

/-- A text with its digits, in its frame. -/
theorem sendable_text (hpound : 0x23 ∉ s) (hlen : s.length ≤ 4091) (hdigits : TextSupplies s) :
    IsPacket (framed s) ∧ (framed s).length ≤ pktBufMax ∧ BringsDigits (framed s) := by
  refine ⟨isPacket_framed hpound, ?_, fun _ => ?_⟩
  · rw [length_framed, pktBufMax]
    omega
  · have hframe : framed s = 0x24 :: s ++ [0x23, Hex.digit ((gdbCksumstr s).toNat / 16),
        Hex.digit ((gdbCksumstr s).toNat % 16)] := framed_eq s
    rw [hframe, commandText_eq hpound]
    exact hdigits

/-- Requests without data, in their frames. -/
theorem sendable_framed (texts : List (List Byte)) (htexts : ∀ s ∈ texts, 0x23 ∉ s ∧
      s.length ≤ 4091 ∧ (findCmd s).map (·.cmd) ∉ [some (ascii "G"), some (ascii "M")]) :
    ∀ u ∈ texts.map framed, IsPacket u ∧ u.length ≤ pktBufMax ∧ BringsDigits u := by
  intro u hu
  obtain ⟨s, hs, rfl⟩ := List.mem_map.mp hu
  obtain ⟨hpound, hlen, hcmd⟩ := htexts s hs
  simp only [List.mem_cons, List.not_mem_nil, or_false, not_or] at hcmd
  exact sendable_text hpound hlen ⟨fun hG => absurd hG hcmd.1, fun hM => absurd hM hcmd.2⟩

/-- Two bytes that are written to memory. -/
theorem textSupplies_write : TextSupplies (ascii "M0,2:ffff") :=
  ⟨fun hG => absurd hG (by decide),
    fun _ => ⟨0, 2, ascii "ffff", by decide, by decide, by decide⟩⟩

/-! ## A packet that comes whole -/

/-- What a packet that fits in the empty buffer does to it. -/
theorem receive_whole (hcblen : e.cblen = 0) (hpos : 0 < u.length)
    (hlength : u.length ≤ pktBufMax) :
    gdbstubReceive (.data u) e = .ok (.scan 0 u.length, e.received u) := by
  obtain ⟨c, t, hct⟩ := List.exists_cons_of_length_pos hpos
  have htake : u.take (pktBufMax - e.cblen) = c :: t := by
    rw [hcblen, Nat.sub_zero, List.take_of_length_le hlength, hct]
  have hep : (e.received u).cblen = u.length := by
    change e.cblen + u.length = _
    rw [hcblen, Nat.zero_add]
  unfold gdbstubReceive
  dsimp only
  rw [htake]
  dsimp only
  rw [← hct, hep, pure_eq_ok]

theorem pending_whole (hcblen : e.cblen = 0) :
    (e.received u).pending 0 u.length = u := by
  have hpending := pending_received (e := e) (by omega) u
  have hep : (e.received u).cblen = u.length := by
    change e.cblen + u.length = _
    rw [hcblen, Nat.zero_add]
  rwa [hep, hcblen, List.take_zero, List.nil_append] at hpending

/-- The scanning loop does with it what the packet does on its own. -/
theorem scan_whole {v : Emu} (hcblen : e.cblen = 0) (hpacket : IsPacket u)
    (hdigits : BringsDigits u) (hhandle : handle u e.unbuffered = .ok v) : ∃ e₁,
      e₁.unbuffered = v ∧ gdbstubScan 0 u.length (e.received u) =
        .ok (if e₁.execute then gdbstubScanned u.length u.length e₁
          else (.scan u.length u.length, e₁)) := by
  obtain ⟨body, a, b, hu, hne, hbody, hplus, hminus, ha, hb⟩ := hpacket
  obtain ⟨c, body, rfl⟩ := List.exists_cons_of_ne_nil hne
  have hconn : e.unbuffered.connected = true := connected_of_handle hhandle
  have hbuf : (e.received u).clientbuf = u ++ e.clientbuf.drop u.length := by
    simp only [Emu.received, hcblen, List.take_zero, List.nil_append, Nat.zero_add]
  have hfinds : (e.received u).Finds [] (c :: body) (e.clientbuf.drop u.length) a b := by
    refine ⟨hconn, ?_, hbody, ⟨hplus, hminus⟩, ha, hb⟩
    rw [hbuf, hu, List.append_assoc]
    rfl
  have halone := gdbCmd_unbuffered hfinds (hu ▸ hdigits)
  rw [← hu] at halone
  have hscan := scan_complete (s := []) hbody hplus hminus
    (show u.length ≤ (e.received u).clientbuf.length by rw [hbuf, List.length_append]; omega)
    (by rw [List.append_nil, ← hu]; exact pending_whole hcblen)
  cases hcmd : gdbCmd 0 (0 + (c :: body).length) (e.received u) with
  | error x =>
    have herror := (congrArg (Except.map Emu.unbuffered) hcmd).symm.trans (halone.trans hhandle)
    cases herror
  | ok e₁ =>
    have hsame := (congrArg (Except.map Emu.unbuffered) hcmd).symm.trans (halone.trans hhandle)
    refine ⟨e₁, Except.ok.inj hsame, ?_⟩
    have hend : 0 + (c :: body).length + 3 = u.length := by
      rw [hu, List.length_append, Nat.zero_add]
      rfl
    rw [hscan, hcmd, ok_bind, hend]
    cases e₁.execute <;> rfl

/-! ## A pass of the scanning loop -/

/-- A pass of the scanning loop takes up a packet. -/
structure TakesUp (bp : ℕ) (e : Emu) (u : List Byte) (p' : Point) (e' : Emu) : Prop where
  isPacket : IsPacket u
  stage_eq : p'.stage = if e'.execute then .run else .stub
  handled_eq : e'.handled = e.handled ++ [u]
  finds : ∃ before body rest a b e₁, u = body ++ [0x23, a, b] ∧ body ≠ [] ∧
    e.Finds before body rest a b ∧ before.length = bp ∧
    gdbCmd before.length (before.length + body.length) e = .ok e₁ ∧
    e'.unbuffered = e₁.unbuffered

/-- What comes of it. -/
theorem TakesUp.effect (h : TakesUp bp e u p' e') : ∃ buf ack e₁,
    (Event.send ack).isStop = false ∧ e'.unbuffered = e₁.unbuffered ∧ Effect (command u)
      { e with clientbuf := buf, log := e.log ++ [.packet u, .send ack] } e₁ := by
  have hpacket := h.isPacket
  obtain ⟨before, body, rest, a, b, e₁, rfl, hne, hfinds, -, hcmd, hvars⟩ := h.finds
  have hdrop : e.clientbuf.drop before.length = body ++ [0x23, a, b] ++ rest := by
    rw [hfinds.clientbuf_eq, List.drop_left, List.append_assoc]
    rfl
  have hp : (e.clientbuf.drop before.length).idxOf? 0x23 = some body.length := by
    rw [hdrop, List.append_assoc]
    exact idxOf?_append hfinds.first
  obtain ⟨buf, ack, -, hack, heffect⟩ := gdbCmd_effect hp hcmd
  refine ⟨buf, ack, e₁, hack, hvars, ?_⟩
  have htake : (body ++ [0x23, a, b] ++ rest).take (body.length + 3) = body ++ [0x23, a, b] := by
    have hlength : (body ++ [0x23, a, b]).length = body.length + 3 := List.length_append
    rw [← hlength, List.take_left]
  rwa [hdrop, htake, command_append hpacket] at heffect

/-- What a pass of the scanning loop does, the buffer aside. -/
theorem scan_takesUp (h : InOrder us (.scan bp ep) e) (hscan : gdbstubScan bp ep e = .ok (p', e')) :
    (e'.handled = e.handled ∧ p'.stage = .stub ∧ e'.unbuffered = e.unbuffered) ∨
    ∃ done u todo, us = done ++ u :: todo ∧ e.handled = packetsOf done ∧ TakesUp bp e u p' e' := by
  have hidle := h.execute_eq (Or.inr rfl)
  have hep : ep ≤ e.clientbuf.length := by
    rw [h.length_eq]
    exact (h.scanning bp ep rfl).1
  rcases h.scan_cases hscan with
    ⟨-, -, hpair⟩ | ⟨done, u, todo, e₁, hus, hdone, hpend, hpassed, hpair⟩
  · have hscanned := scanned_unbuffered bp ep e
    rw [hpair, hidle, if_neg Bool.false_ne_true] at hscanned
    exact Or.inl ⟨hscanned.2.2, hscanned.1, hscanned.2.1⟩
  have hu : u ∈ us := by simp [hus]
  obtain ⟨-, -, hsame⟩ := passed_stage hpair
  have hhandled : e'.handled = e.handled ++ packetsOf [u] := hsame.trans hpassed.handled_eq
  rcases h.sent u hu with hack | hpacket
  · left
    rw [scan_ack hack hpend] at hscan
    cases hscan
    exact ⟨rfl, rfl, rfl⟩
  · right
    rw [packetsOf_complete hpacket.isComplete] at hhandled
    refine ⟨done, u, todo, hus, hdone, hpacket, ?_, hhandled, ?_⟩
    all_goals
      obtain ⟨body, a, b, rfl, hne, hbody, hplus, hminus, ha, hb⟩ := hpacket
      rw [scan_complete hbody hplus hminus hep hpend] at hscan
      obtain ⟨e₂, hcmd, hrest⟩ := bind_eq_ok hscan
      have hpair₂ : (if e₂.execute then gdbstubScanned (bp + body.length + 3) ep e₂
          else (.scan (bp + body.length + 3) ep, e₂)) = (p', e') := by
        cases hexecute : e₂.execute <;> rw [hexecute] at hrest <;> exact Except.ok.inj hrest
      obtain ⟨hstage, hvars, -⟩ := passed_stage hpair₂
    · have hexecute : e'.unbuffered.execute = e₂.unbuffered.execute := by rw [hvars]
      rw [hstage]
      exact if_congr (iff_of_eq (congrArg (· = true) hexecute.symm)) rfl rfl
    · obtain ⟨before, rest, rfl, hfinds⟩ :=
        finds_of_pending (connected_of_gdbCmd hcmd) hbody hplus hminus ha hb hep hpend
      exact ⟨before, body, rest, a, b, e₂, rfl, hne, hfinds, rfl, hcmd, hvars⟩

section Running

variable [DesLibrary]

theorem emulateRun_unbuffered (e : Emu) : emulateRun e.unbuffered =
    (emulateRun e).map fun r => (r.1, r.2.unbuffered) := by
  have hstep : e.unbuffered.emulate1 = e.emulate1.map Emu.unbuffered := by
    unfold Emu.emulate1
    dsimp only [Emu.unbuffered]
    cases exec (AvrEmu.emulate1 (!e.replayMode && e.tracefile.isSome)) e.machine with
    | error a => rfl
    | ok r => rfl
  unfold emulateRun
  change (if (e.replayMode && e.insnreplaylim < e.machine.insns) = true then _
    else if e.off = true then _ else _) = _
  split
  · rfl
  split
  · rfl
  rw [hstep]
  cases e.emulate1 with
  | error a => rfl
  | ok e₁ =>
    change (if e₁.off = true then _
      else if (e₁.insnlimit != 0 && e₁.insnlimit ≤ e₁.machine.insns) = true then _ else _) =
      Except.map _ (if e₁.off = true then _ else _)
    split
    · rfl
    split
    · rfl
    · rfl

/-! ## Sessions go through dialogues -/

/-- A session has gone through the dialogue over its packets, whatever is still to come. -/
def Follows (e₀ : Emu) (us : List (List Byte)) (p : Point) (e : Emu) : Prop :=
  ∃ queue, packetsOf us = e.handled ++ queue ∧ ∀ later,
    Reaches Dialogue.move ⟨packetsOf us ++ later, .top, e₀.unbuffered⟩
      ⟨queue ++ later, p.stage, e.unbuffered⟩

/-- Taking up a packet is a move. -/
theorem TakesUp.move (h : TakesUp bp e u p' e') (hdigits : BringsDigits u)
    (queue : List (List Byte)) : (Dialogue.mk (u :: queue) .stub e.unbuffered).move =
      some ⟨queue, p'.stage, e'.unbuffered⟩ := by
  have hstage := h.stage_eq
  obtain ⟨before, body, rest, a, b, e₁, rfl, hne, hfinds, -, hcmd, hvars⟩ := h.finds
  obtain ⟨c, body, rfl⟩ := List.exists_cons_of_ne_nil hne
  have halone := gdbCmd_unbuffered hfinds hdigits
  rw [hcmd] at halone
  have hhandle : handle (c :: body ++ [0x23, a, b]) e.unbuffered = .ok e'.unbuffered := by
    rw [hvars]
    exact halone.symm
  rw [move_packet hhandle, hstage]
  rfl

/-- Nothing is handled in a tick outside the scanning loop. -/
theorem Follows.quiet {chunk : List (List Byte)} {e₁ : Emu} {p₁ : Point}
    (h : Follows e₀ us p e) (hhandled : e₁.handled = e.handled)
    (hmove : ∀ queue, Reaches Dialogue.move ⟨queue, p.stage, e.unbuffered⟩
      ⟨queue, p₁.stage, e₁.unbuffered⟩) : Follows e₀ (us ++ chunk) p₁ e₁ := by
  obtain ⟨queue, hqueue, hreaches⟩ := h
  refine ⟨queue ++ packetsOf chunk, ?_, fun later => ?_⟩
  · rw [packetsOf_append, hqueue, hhandled, List.append_assoc]
  · rw [packetsOf_append, List.append_assoc, List.append_assoc]
    exact (hreaches (packetsOf chunk ++ later)).trans (hmove _)

theorem Follows.tick {chunk : List (List Byte)} {env : Env} (h : Follows e₀ us p e)
    (hinv : InOrder us p e) (hdigits : ∀ u ∈ us, BringsDigits u)
    (hchunk : Delivers chunk env p e) (htick : tick env p e = .ok (p', e')) :
    Follows e₀ (us ++ chunk) p' e' := by
  cases p with
  | recv =>
    obtain ⟨hstage, hvars⟩ := receive_unbuffered htick
    refine h.quiet (congrArg (·.handled) hvars) fun queue => ?_
    rw [hstage, hvars]
    exact .refl
  | scan bp ep =>
    obtain rfl : chunk = [] := hchunk
    rcases scan_takesUp hinv htick with
      ⟨hhandled, hstage, hvars⟩ | ⟨done, u, todo, hus, hdone, htakes⟩
    · refine h.quiet hhandled fun queue => ?_
      rw [hstage, hvars]
      exact .refl
    · rw [List.append_nil]
      obtain ⟨queue, hqueue, hreaches⟩ := h
      have hpackets : packetsOf us = e.handled ++ (u :: packetsOf todo) := by
        rw [hus, packetsOf_append, hdone]
        change _ ++ packetsOf ([u] ++ todo) = _
        rw [packetsOf_append, packetsOf_complete htakes.isPacket.isComplete]
        rfl
      have hmove := htakes.move (hdigits u (by simp [hus]))
      obtain rfl : queue = u :: packetsOf todo :=
        List.append_cancel_left (hqueue.symm.trans hpackets)
      refine ⟨packetsOf todo, ?_, fun later => (hreaches later).tail (hmove _)⟩
      rw [hpackets, htakes.handled_eq, List.append_assoc]
      rfl
  | top =>
    have hcourse := topCourse_of_tick htick
    have hsame := (sameBuffer_settled e).trans hcourse.sameBuffer
    have hquiet : env.ctrlc = false := by
      by_contra hctrlc
      change emulateTop env.ctrlc e = _ at htick
      rw [Bool.not_eq_false] at hctrlc
      rw [hctrlc, emulateTop, if_pos rfl] at htick
      cases htick
    refine h.quiet hsame.handled_eq fun queue => .single ?_
    refine move_top (r := (p', e'.unbuffered)) ?_
    change emulateTop env.ctrlc e = _ at htick
    rw [emulateTop_unbuffered, ← hquiet, htick]
    rfl
  | run =>
    refine h.quiet (runCourse_of_tick htick).sameBuffer.handled_eq fun queue => .single ?_
    refine move_run (r := (p', e'.unbuffered)) ?_
    change emulateRun e = _ at htick
    rw [emulateRun_unbuffered, htick]
    rfl
  | stopped =>
    cases htick
    exact h.quiet rfl fun queue => .refl

/-- A session is always at a state of its dialogue. -/
theorem Served.follows (h : Served e₀ us p e) (hstart : InOrder [] .top e₀)
    (hdigits : ∀ u ∈ us, BringsDigits u) : Follows e₀ us p e := by
  induction h with
  | start =>
    obtain ⟨done, todo, hus, hdone, -⟩ := hstart.cut
    refine ⟨[], ?_, fun later => ?_⟩
    · rw [hdone, (List.append_eq_nil_iff.mp hus.symm).1]
      rfl
    · exact .refl
  | tick env hserved hchunk htick ih =>
    have hbefore := fun u hu => hdigits u (List.mem_append_left _ hu)
    exact (ih hbefore).tick (hserved.inOrder hstart) hbefore hchunk htick

/-! ## The log of a dialogue only grows -/

/-- A move, backwards. -/
theorem move_cases {stage : Stage} {d : Dialogue} (h : d ∈ (Dialogue.mk queue stage e).move) :
    (stage = .top ∧ ∃ p' e', emulateTop false e = .ok (p', e') ∧ d = ⟨queue, p'.stage, e'⟩) ∨
    (stage = .run ∧ ∃ p' e', emulateRun e = .ok (p', e') ∧ d = ⟨queue, p'.stage, e'⟩) ∨
    (stage = .stub ∧ ∃ u rest e', queue = u :: rest ∧ handle u e = .ok e' ∧
      d = ⟨rest, if e'.execute then .run else .stub, e'⟩) := by
  cases stage with
  | top =>
    obtain ⟨⟨p', e'⟩, htop, hd⟩ := exists_of_toOption h
    exact Or.inl ⟨rfl, p', e', htop, hd.symm⟩
  | run =>
    obtain ⟨⟨p', e'⟩, hrun, hd⟩ := exists_of_toOption h
    exact Or.inr (Or.inl ⟨rfl, p', e', hrun, hd.symm⟩)
  | stub =>
    cases queue with
    | nil => cases h
    | cons u rest =>
      obtain ⟨e', hhandle, hd⟩ := exists_of_toOption h
      exact Or.inr (Or.inr ⟨rfl, u, rest, e', rfl, hhandle, hd.symm⟩)
  | stopped => cases h

theorem log_of_move {d d' : Dialogue} (h : d' ∈ d.move) : d.vars.log <+: d'.vars.log := by
  rcases move_cases h with
    ⟨-, p', e', htop, rfl⟩ | ⟨-, p', e', hrun, rfl⟩ | ⟨-, u, rest, e', -, hhandle, rfl⟩
  · have hsettled : d.vars.settled.log = d.vars.log := by
      unfold Emu.settled
      split <;> rfl
    rw [← hsettled]
    cases topCourse_of_tick htop with
    | replay | pass | stepped => exact List.prefix_rfl
    | breakpoint => exact List.prefix_append _ _
  · cases runCourse_of_tick hrun <;> exact List.prefix_rfl
  · obtain ⟨e₁, hcmd, rfl⟩ := handle_eq_ok hhandle
    have hlog := log_of_gdbCmd hcmd
    exact hlog

theorem log_of_reaches {d d' : Dialogue} (h : Reaches Dialogue.move d d') :
    d.vars.log <+: d'.vars.log := by
  induction h with
  | refl => exact List.prefix_rfl
  | tail _ hmove ih => exact ih.trans (log_of_move hmove)

/-- A move from the stub takes a packet. -/
theorem length_queue_of_reaches {d d' : Dialogue} (h : Reaches Dialogue.move d d') :
    d'.queue.length ≤ d.queue.length ∧
      (d.stage = .stub → d = d' ∨ d'.queue.length < d.queue.length) := by
  induction h with
  | refl => exact ⟨Nat.le_refl _, fun _ => Or.inl rfl⟩
  | @tail d₁ d₂ _ hmove ih =>
    obtain ⟨hle, hlt⟩ := ih
    rcases move_cases hmove with
      ⟨hstage, p', e', -, rfl⟩ | ⟨hstage, p', e', -, rfl⟩ | ⟨-, u, rest, e', hqueue, -, rfl⟩
    all_goals dsimp only
    · refine ⟨hle, fun hstub => (hlt hstub).elim (fun heq => ?_) Or.inr⟩
      rw [← heq, hstub] at hstage
      cases hstage
    · refine ⟨hle, fun hstub => (hlt hstub).elim (fun heq => ?_) Or.inr⟩
      rw [← heq, hstub] at hstage
      cases hstage
    · rw [hqueue, List.length_cons] at hle
      exact ⟨by omega, fun _ => Or.inr (by omega)⟩

/-- Two states of a dialogue in the stub with the same queue are one. -/
theorem vars_eq_of_reaches {d₀ : Dialogue} {v v' : Emu}
    (h : Reaches Dialogue.move d₀ ⟨queue, .stub, v⟩)
    (h' : Reaches Dialogue.move d₀ ⟨queue, .stub, v'⟩) : v = v' := by
  rcases reaches_total h h' with hreaches | hreaches
  · rcases (length_queue_of_reaches hreaches).2 rfl with heq | hlt
    · injection heq
    · exact absurd hlt (Nat.lt_irrefl _)
  · rcases (length_queue_of_reaches hreaches).2 rfl with heq | hlt
    · injection heq with _ _ heq
      exact heq.symm
    · exact absurd hlt (Nat.lt_irrefl _)

/-! ## Every dialogue is one of a session -/

/-- A session in which everything that has been received is consumed. -/
structure Drained (e₀ : Emu) (us : List (List Byte)) (p : Point) (e : Emu) : Prop where
  served : Served e₀ us p e
  isScan_eq : p.isScan = false
  cblen_eq : e.cblen = 0

theorem Drained.top {v : Emu} (h : Drained e₀ us .top e)
    (htop : emulateTop false e.unbuffered = .ok (p', v)) :
    ∃ e', Drained e₀ us p' e' ∧ e'.unbuffered = v := by
  rw [emulateTop_unbuffered] at htop
  cases htick : emulateTop false e with
  | error a =>
    rw [htick] at htop
    cases htop
  | ok r =>
    obtain ⟨p₁, e'⟩ := r
    rw [htick] at htop
    cases htop
    have hcourse := topCourse_of_tick htick
    have hsame := (sameBuffer_settled e).trans hcourse.sameBuffer
    have hserved := h.served.tick ⟨false, .wouldBlock⟩ rfl htick
    rw [List.append_nil] at hserved
    refine ⟨e', ⟨hserved, ?_, hsame.cblen_eq.trans h.cblen_eq⟩, rfl⟩
    cases hcourse <;> rfl

theorem Drained.run {v : Emu} (h : Drained e₀ us .run e)
    (hrun : emulateRun e.unbuffered = .ok (p', v)) :
    ∃ e', Drained e₀ us p' e' ∧ e'.unbuffered = v := by
  rw [emulateRun_unbuffered] at hrun
  cases htick : emulateRun e with
  | error a =>
    rw [htick] at hrun
    cases hrun
  | ok r =>
    obtain ⟨p₁, e'⟩ := r
    rw [htick] at hrun
    cases hrun
    have hcourse := runCourse_of_tick htick
    have hserved := h.served.tick ⟨false, .wouldBlock⟩ rfl htick
    rw [List.append_nil] at hserved
    refine ⟨e', ⟨hserved, ?_, hcourse.sameBuffer.cblen_eq.trans h.cblen_eq⟩, rfl⟩
    cases hcourse <;> rfl

/-- What is behind a packet that has been received whole moves to the front: nothing. -/
theorem Drained.scanned {n : ℕ} (h : Served e₀ us (gdbstubScanned n n e).1
    (gdbstubScanned n n e).2) (hn : 0 < n) :
    Drained e₀ us (gdbstubScanned n n e).1 (gdbstubScanned n n e).2 := by
  refine ⟨h, ?_, ?_⟩
  · rw [scanned_eq]
    cases e.execute <;> rfl
  · rw [gdbstubScanned, if_neg hn.ne']
    exact Nat.sub_self n

/-- One `recv` brings the whole packet and nothing else, and a pass of the scanning loop takes it
up. -/
theorem Drained.next {v : Emu} (h : Drained e₀ us .recv e) (hpacket : IsPacket u)
    (hlength : u.length ≤ pktBufMax) (hdigits : BringsDigits u)
    (hhandle : handle u e.unbuffered = .ok v) :
    Served e₀ (us ++ [u]) (.scan 0 u.length) (e.received u) ∧ ∃ e₁, e₁.unbuffered = v ∧
      gdbstubScan 0 u.length (e.received u) =
        .ok (if e₁.execute then gdbstubScanned u.length u.length e₁
          else (.scan u.length u.length, e₁)) := by
  have hpos : 0 < u.length := length_pos_of_isUnit (Or.inr hpacket.isComplete)
  have hsent : ∀ w ∈ [u], IsSent w := fun w hw => Or.inr (List.mem_singleton.mp hw ▸ hpacket)
  refine ⟨h.served.tick ⟨false, .data u⟩ ⟨(List.append_nil u).symm, hsent, by rwa [h.cblen_eq]⟩
    (receive_whole h.cblen_eq hpos hlength), ?_⟩
  exact scan_whole h.cblen_eq hpacket hdigits hhandle

theorem Drained.packet {v : Emu} (h : Drained e₀ us .recv e) (hpacket : IsPacket u)
    (hlength : u.length ≤ pktBufMax) (hdigits : BringsDigits u)
    (hhandle : handle u e.unbuffered = .ok v) : ∃ p' e',
      Drained e₀ (us ++ [u]) p' e' ∧ p'.stage = (if v.execute then .run else .stub) ∧
      e'.unbuffered = v := by
  have hpos : 0 < u.length := length_pos_of_isUnit (Or.inr hpacket.isComplete)
  obtain ⟨hreceived, e₁, rfl, hscan⟩ := h.next hpacket hlength hdigits hhandle
  obtain ⟨hstage, hvars, -⟩ := scanned_unbuffered u.length u.length e₁
  refine ⟨_, _, Drained.scanned (n := u.length) (e := e₁) ?_ hpos, hstage, hvars⟩
  have hquiet {p p' : Point} {e e' : Emu} (h : Served e₀ (us ++ [u]) p e)
      (hchunk : Delivers [] ⟨false, .wouldBlock⟩ p e)
      (htick : AvrEmu.tick ⟨false, .wouldBlock⟩ p e = .ok (p', e')) :
      Served e₀ (us ++ [u]) p' e' := by
    have hnext := h.tick _ hchunk htick
    rwa [List.append_nil] at hnext
  cases hexecute : e₁.execute with
  | true =>
    rw [hexecute, if_pos rfl] at hscan
    exact hquiet hreceived rfl hscan
  | false =>
    rw [hexecute, if_neg Bool.false_ne_true] at hscan
    exact hquiet (hquiet hreceived rfl hscan) rfl (scan_empty (Nat.le_refl _))

/-- Nothing is waiting. -/
theorem Drained.handled_eq (h : Drained e₀ us p e) (hinv : InOrder us p e) :
    e.handled = packetsOf us := by
  obtain ⟨done, todo, hus, hdone, htodo⟩ := hinv.cut
  have hempty : e.unconsumed p = [] := by
    have hbuf : e.clientbuf.take e.cblen = [] := by rw [h.cblen_eq, List.take_zero]
    have hscan := h.isScan_eq
    cases p with
    | scan => cases hscan
    | top | recv | run | stopped => exact hbuf
  have hnone : todo = [] := by
    by_contra hne
    obtain ⟨u, todo, rfl⟩ := List.exists_cons_of_ne_nil hne
    have hpos := length_pos_of_isUnit (hinv.sent u (by simp [hus])).isUnit
    rw [htodo] at hempty
    rw [(List.append_eq_nil_iff.mp hempty).1] at hpos
    exact absurd hpos (Nat.lt_irrefl 0)
  rw [hus, hnone, List.append_nil, hdone]

/-- Every state of a dialogue over packets that fit in the buffer is one of a session. -/
theorem exists_drained {us : List (List Byte)} {d : Dialogue} (hcblen : e₀.cblen = 0)
    (hus : ∀ u ∈ us, IsPacket u ∧ u.length ≤ pktBufMax ∧ BringsDigits u)
    (h : Reaches Dialogue.move ⟨us, .top, e₀.unbuffered⟩ d) :
    ∃ done p e, us = done ++ d.queue ∧ Drained e₀ done p e ∧ p.stage = d.stage ∧
      e.unbuffered = d.vars := by
  induction h with
  | refl => exact ⟨[], .top, e₀, rfl, ⟨.start, rfl, hcblen⟩, rfl, rfl⟩
  | @tail d₁ d₂ _ hmove ih =>
    obtain ⟨done, p, e, hdone, hdrained, hstage, hvars⟩ := ih
    rcases move_cases hmove with
      ⟨htop, p', v, hv, rfl⟩ | ⟨hrun, p', v, hv, rfl⟩ | ⟨hstub, u, rest, v, hqueue, hv, rfl⟩
    · rw [← hstage] at htop
      obtain rfl : p = .top := by cases p <;> first | rfl | cases htop
      rw [← hvars] at hv
      obtain ⟨e', hnext, heq⟩ := hdrained.top hv
      exact ⟨done, p', e', hdone, hnext, rfl, heq⟩
    · rw [← hstage] at hrun
      obtain rfl : p = .run := by cases p <;> first | rfl | cases hrun
      rw [← hvars] at hv
      obtain ⟨e', hnext, heq⟩ := hdrained.run hv
      exact ⟨done, p', e', hdone, hnext, rfl, heq⟩
    · rw [← hstage] at hstub
      obtain rfl := eq_recv hdrained.isScan_eq hstub
      rw [← hvars] at hv
      obtain ⟨hpacket, hlength, hdigits⟩ := hus u (by simp [hdone, hqueue])
      obtain ⟨p', e', hnext, hstage', heq⟩ := hdrained.packet hpacket hlength hdigits hv
      refine ⟨done ++ [u], p', e', ?_, hnext, hstage', heq⟩
      rw [hdone, hqueue, List.append_assoc]
      rfl

/-! ## Dialogues that have come to their end -/

/-- The dialogue after some moves. -/
def Dialogue.after : ℕ → Dialogue → Option Dialogue
  | 0, d => some d
  | n + 1, d => d.move.bind (Dialogue.after n)

theorem reaches_of_after {n : ℕ} {d d' : Dialogue} (h : Dialogue.after n d = some d') :
    Reaches Dialogue.move d d' := by
  induction n generalizing d with
  | zero =>
    obtain rfl := Option.some.inj h
    exact .refl
  | succ n ih =>
    obtain ⟨d₁, hmove, hrest⟩ := Option.bind_eq_some_iff.mp h
    exact (ih hrest).head hmove

/-- When the packets of a dialogue are all taken up and the stub has the control, a session that
delivers them one by one waits for the next. -/
theorem exists_drained_recv {us : List (List Byte)} {n : ℕ} {d : Dialogue} (hcblen : e₀.cblen = 0)
    (hus : ∀ u ∈ us, IsPacket u ∧ u.length ≤ pktBufMax ∧ BringsDigits u)
    (h : Dialogue.after n ⟨us, .top, e₀.unbuffered⟩ = some d) (hqueue : d.queue = [])
    (hstage : d.stage = .stub) : ∃ e, Drained e₀ us .recv e ∧ e.unbuffered = d.vars := by
  obtain ⟨done, p, e, hdone, hdrained, hstage', hvars⟩ := exists_drained hcblen hus
    (reaches_of_after h)
  rw [hqueue, List.append_nil] at hdone
  obtain rfl := eq_recv hdrained.isScan_eq (hstage'.trans hstage)
  exact ⟨e, hdone ▸ hdrained, hvars⟩

/-- So what is computed of the dialogue holds of a session. -/
theorem exists_session {α : Type} (e₀ : Emu) (f : Emu → α) (hf : ∀ e, f e.unbuffered = f e)
    {us : List (List Byte)} {n : ℕ} {x : α} (hcblen : e₀.cblen = 0)
    (hus : ∀ u ∈ us, IsPacket u ∧ u.length ≤ pktBufMax ∧ BringsDigits u)
    (h : (Dialogue.after n ⟨us, .top, e₀.unbuffered⟩).map
      (fun d => (d.queue, d.stage, f d.vars)) = some ([], .stub, x)) :
    ∃ e, Served e₀ us .recv e ∧ f e = x := by
  obtain ⟨d, hafter, hd⟩ := Option.map_eq_some_iff.mp h
  simp only [Prod.mk.injEq] at hd
  obtain ⟨hqueue, hstage, rfl⟩ := hd
  obtain ⟨e, hdrained, hvars⟩ := exists_drained_recv hcblen hus hafter hqueue hstage
  exact ⟨e, hdrained.served, by rw [← hf, hvars]⟩

/-- The same with the packet that comes next, in the buffer and then taken up. -/
theorem exists_waiting {α : Type} (e₀ : Emu) (f : Emu → Emu → α)
    (hf : ∀ e e', f e.unbuffered e'.unbuffered = f e e') (us : List (List Byte)) (u : List Byte)
    {n : ℕ} {x : α} (hcblen : e₀.cblen = 0)
    (hus : ∀ w ∈ us ++ [u], IsPacket w ∧ w.length ≤ pktBufMax ∧ BringsDigits w)
    (h : (Dialogue.after n ⟨us, .top, e₀.unbuffered⟩).map (fun d => (d.queue, d.stage,
      (handle u d.vars).toOption.map (f d.vars))) = some ([], .stub, some x)) : ∃ e p' e',
      Served e₀ (us ++ [u]) (.scan 0 u.length) e ∧ e.pending 0 u.length = u ∧
      gdbstubScan 0 u.length e = .ok (p', e') ∧ f e e' = x := by
  obtain ⟨d, hafter, hd⟩ := Option.map_eq_some_iff.mp h
  simp only [Prod.mk.injEq] at hd
  obtain ⟨hqueue, hstage, hnext⟩ := hd
  obtain ⟨e, hdrained, hvars⟩ := exists_drained_recv hcblen
    (fun w hw => hus w (List.mem_append_left _ hw)) hafter hqueue hstage
  obtain ⟨hpacket, hlength, hdigits⟩ := hus u (by simp)
  rw [← hvars] at hnext
  obtain ⟨v, hhandle, rfl⟩ := exists_of_toOption hnext
  obtain ⟨hserved, e₁, hv, hscan⟩ := hdrained.next hpacket hlength hdigits hhandle
  generalize hpair : (if e₁.execute then gdbstubScanned u.length u.length e₁
    else (.scan u.length u.length, e₁)) = r at hscan
  obtain ⟨p', e'⟩ := r
  obtain ⟨-, hsame, -⟩ := passed_stage hpair
  have hvalue : f e.unbuffered v = f (e.received u) e' := by
    rw [← hv, ← hsame]
    exact hf (e.received u) e'
  exact ⟨_, p', e', hserved, pending_whole hdrained.cblen_eq, hscan, hvalue.symm⟩

/-! ## The network does not matter -/

/-- Two clients send the same packets, or one of them more after these; when the bytes arrive, in
which portions, and which acknowledgements come between them, is up to either network. What has been
taken up and sent in one of the sessions is the beginning of what it is in the other. When the stub
has the control in both and as many packets are done, the emulators are the same up to what is in
their buffers. -/
theorem network_invisible (m : Machine) (insnlimit : ℕ) (tracehex : Bool)
    (tracefile : Option (List Byte)) (us us' : List (List Byte)) (p p' : Point) (e e' : Emu)
    (h : Served (Emu.attached m insnlimit tracehex tracefile) us p e)
    (h' : Served (Emu.attached m insnlimit tracehex tracefile) us' p' e')
    (hpackets : packetsOf us <+: packetsOf us')
    (hdigits : ∀ u ∈ packetsOf us', BringsDigits u) :
    (e.log <+: e'.log ∨ e'.log <+: e.log) ∧
    (p.inStub = true → p'.inStub = true → e.handled.length = e'.handled.length →
      e.unbuffered = e'.unbuffered) := by
  have hstart := inOrder_start m insnlimit tracehex tracefile
  obtain ⟨queue, hqueue, hreaches⟩ := h.follows hstart
    (bringsDigits_of_packets (h.inOrder hstart).sent fun u hu => hdigits u (hpackets.mem hu))
  obtain ⟨queue', hqueue', hreaches'⟩ := h'.follows hstart
    (bringsDigits_of_packets (h'.inOrder hstart).sent hdigits)
  obtain ⟨later, hlater⟩ := hpackets
  have hsession := hreaches later
  have hsession' := hreaches' []
  rw [hlater] at hsession
  rw [List.append_nil, List.append_nil] at hsession'
  refine ⟨?_, fun hstub hstub' hcount => ?_⟩
  · exact (reaches_total hsession hsession').imp log_of_reaches log_of_reaches
  · have hstage {p : Point} (hp : p.inStub = true) : p.stage = .stub := by
      cases p with
      | recv | scan => rfl
      | top | run | stopped => cases hp
    have hsame : e.handled ++ (queue ++ later) = e'.handled ++ queue' := by
      rw [← List.append_assoc, ← hqueue, hlater, hqueue']
    have hrest : queue ++ later = queue' := (List.append_inj hsame hcount).2
    rw [hstage hstub, hrest] at hsession
    rw [hstage hstub'] at hsession'
    exact vars_eq_of_reaches hsession hsession'

end Running

section Portions

attribute [local instance] idleDes

/-- A step, a write to memory and a request for the registers, one by one, and all at once with the
acknowledgements that a client puts between them. -/
theorem network_invisible_portions :
    let e₀ := Emu.attached (Machine.powerOn fun _ => 0xe505) 0 false none
    let us := [ascii "s", ascii "M0,2:ffff", ascii "g"].map framed
    let us' := ascii "+" :: us.flatMap fun u => [u, ascii "+"]
    ∃ e e', Served e₀ us .recv e ∧ Served e₀ us' .recv e' ∧ e.handled = us ∧
      e.machine.insns = 1 ∧ (e.log <+: e'.log ∨ e'.log <+: e.log) ∧
      e.unbuffered = e'.unbuffered := by
  intro e₀ us us'
  have hus : ∀ u ∈ us, IsPacket u ∧ u.length ≤ pktBufMax ∧ BringsDigits u := by
    refine List.forall_mem_cons.mpr ⟨?_, List.forall_mem_cons.mpr ⟨?_, ?_⟩⟩
    · exact sendable_framed [ascii "s"] (by decide) _ List.mem_cons_self
    · exact sendable_text (by decide) (by decide) textSupplies_write
    · exact sendable_framed [ascii "g"] (by decide)
  have hpackets : packetsOf us = us ∧ packetsOf us' = us := by decide
  obtain ⟨e, hserved, he⟩ := exists_session e₀ (fun e => (e.handled, e.machine.insns))
    (fun _ => rfl) (n := 6) (x := (us, 1)) rfl hus (by decide +kernel)
  obtain ⟨hdone, hcount⟩ := Prod.mk.inj he
  have hsent : ∀ u ∈ us', IsSent u := by
    intro u hu
    rcases List.mem_cons.mp hu with rfl | hu
    · exact Or.inl (Or.inl rfl)
    obtain ⟨v, hv, hu⟩ := List.mem_flatMap.mp hu
    rcases List.mem_cons.mp hu with rfl | hu
    · exact Or.inr (hus _ hv).1
    · exact Or.inl (Or.inl (List.mem_singleton.mp hu))
  let e₁ : Emu := { e₀ with stepone := false, execute := false }
  have hstop : Served e₀ [] .recv e₁ := .tick ⟨false, .wouldBlock⟩ .start rfl rfl
  have hreceive := receive_whole (e := e₁) (u := us'.flatten) rfl (by decide) (by decide)
  have hrecv : Served e₀ us' (.scan 0 us'.flatten.length) (e₁.received us'.flatten) :=
    .tick ⟨false, .data us'.flatten⟩ hstop ⟨rfl, hsent, by decide⟩ hreceive
  have hrest : (ticks (List.replicate 11 ⟨false, .wouldBlock⟩) (.scan 0 us'.flatten.length)
      (e₁.received us'.flatten)).toOption.map (fun r => (r.1, r.2.handled)) = some (.recv, us) := by
    decide +kernel
  obtain ⟨⟨p', e'⟩, hticks, hend⟩ := exists_of_toOption hrest
  obtain ⟨rfl, hdone'⟩ := Prod.mk.inj hend
  have hserved' := hrecv.ticks _ (fun env henv => by rw [List.eq_of_mem_replicate henv]) hticks
  obtain ⟨hlog, hsame⟩ := network_invisible _ 0 false none us us' .recv .recv e e' hserved hserved'
    (by rw [hpackets.1, hpackets.2]) (fun u hu => (hus u (hpackets.2 ▸ hu)).2.2)
  exact ⟨e, e', hserved, hserved', hdone, hcount, hlog, hsame rfl rfl (by rw [hdone, hdone'])⟩

end Portions

section Running

variable [DesLibrary]

/-! ## The two levels -/

/-- The states of the dialogue over some packets are, up to what is in the buffer, the states of the
sessions in which these packets come in, some of them perhaps not yet: however the network delivers
them, nothing else can happen, and everything that can happen in the dialogue does in a session. -/
theorem dialogue_iff_session (m : Machine) (insnlimit : ℕ) (tracehex : Bool)
    (tracefile : Option (List Byte)) (us queue : List (List Byte)) (stage : Stage) (v : Emu)
    (hus : ∀ u ∈ us, IsPacket u ∧ u.length ≤ pktBufMax ∧ BringsDigits u) :
    Reaches Dialogue.move
      ⟨us, .top, (Emu.attached m insnlimit tracehex tracefile).unbuffered⟩ ⟨queue, stage, v⟩ ↔
    ∃ us' p e, Served (Emu.attached m insnlimit tracehex tracefile) us' p e ∧
      packetsOf us' <+: us ∧ us = e.handled ++ queue ∧ p.stage = stage ∧ e.unbuffered = v := by
  have hstart := inOrder_start m insnlimit tracehex tracefile
  constructor
  · intro h
    obtain ⟨done, p, e, hdone, hdrained, hstage, hvars⟩ := exists_drained rfl hus h
    have hpackets : packetsOf done = done := by
      refine List.filter_eq_self.mpr fun u hu => ?_
      have hpacket := (hus u (hdone ▸ List.mem_append_left _ hu)).1
      have hself := packetsOf_complete hpacket.isComplete
      exact (List.filter_eq_self.mp hself) u List.mem_cons_self
    have hhandled : e.handled = done :=
      (hdrained.handled_eq (hdrained.served.inOrder hstart)).trans hpackets
    refine ⟨done, p, e, hdrained.served, ?_, ?_, hstage, hvars⟩
    · rw [hpackets, hdone]
      exact List.prefix_append _ _
    · rw [hhandled]
      exact hdone
  · rintro ⟨us', p, e, hserved, ⟨later, hlater⟩, hqueue, rfl, rfl⟩
    obtain ⟨queue', hqueue', hreaches⟩ := hserved.follows hstart
      (bringsDigits_of_packets (hserved.inOrder hstart).sent
        fun u hu => (hus u (hlater ▸ List.mem_append_left _ hu)).2.2)
    have hsame : e.handled ++ (queue' ++ later) = e.handled ++ queue := by
      rw [← List.append_assoc, ← hqueue', hlater, hqueue]
    have hsession := hreaches later
    rwa [hlater, List.append_cancel_left hsame] at hsession

end Running

section Query

attribute [local instance] idleDes

/-- A client that makes a step, reads the registers and makes another, on the image
`LDI r16, 0x55`: the dialogue comes to its end, and so does a session. -/
theorem dialogue_iff_session_steps :
    let e₀ := Emu.attached (Machine.powerOn fun _ => 0xe505) 0 false none
    let us := [ascii "s", ascii "g", ascii "s"].map framed
    ∃ v : Emu, v.machine.insns = 2 ∧ v.log.length = 9 ∧
      ∃ us' p e, Served e₀ us' p e ∧ packetsOf us' <+: us ∧ us = e.handled ++ [] ∧
        p.stage = .stub ∧ e.unbuffered = v := by
  intro e₀ us
  have hus := sendable_framed [ascii "s", ascii "g", ascii "s"] (by decide)
  have hcourse : (Dialogue.after 8 ⟨us, .top, e₀.unbuffered⟩).map
      (fun d => (d.queue, d.stage, d.vars.machine.insns, d.vars.log.length)) =
        some ([], .stub, 2, 9) := by
    decide +kernel
  obtain ⟨⟨queue, stage, v⟩, hafter, hd⟩ := Option.map_eq_some_iff.mp hcourse
  simp only [Prod.mk.injEq] at hd
  obtain ⟨rfl, rfl, hinsns, hlog⟩ := hd
  exact ⟨v, hinsns, hlog, (dialogue_iff_session _ 0 false none us [] .stub v hus).mp
    (reaches_of_after hafter)⟩

end Query

end AvrEmu
