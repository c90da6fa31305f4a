import AvrEmu.Dialogue
import AvrEmu.Gdb.Registers
import AvrEmu.Lib.PrefixCode
import AvrEmu.StopReplies

/-!
# The transcript of a session

What is taken up and sent in a session follows a grammar: a packet is refused, or it is acknowledged
and answered once, and what continues the execution is answered when it stops. All the answers but
one, which is cut off, are packets that the stub itself would accept.
-/

namespace AvrEmu

open InformationTheory

variable {e e' : Emu} {p p' : Point} {bp ep : ℕ} {s t u text : List Byte} {us : List (List Byte)}
  {asked : Option (List Byte)}

/-- Text without a zero and without the characters that mean something in a packet. -/
def Plain (s : List Byte) : Prop := ∀ c ∈ s, c ∉ ([0, 0x23, 0x24, 0x2a, 0x7d] : List Byte)

instance (s : List Byte) : Decidable (Plain s) := inferInstanceAs (Decidable (∀ c ∈ s, _))

/-- A packet with the right checksum: the one of its text up to the first zero in it, as the stub
counts. -/
def Intact (u : List Byte) : Prop :=
  ∃ c body a b, u = c :: body ++ [0x23, a, b] ∧ 0x23 ∉ c :: body ∧
    (gdbCksumstr body).toNat = Hex.number [a, b]

/-- The texts that each command is answered with. A packet without a command that the stub knows is
answered with an empty one. -/
inductive IsAnswer : Option (List Byte) → List Byte → Prop
  | unknown : IsAnswer none []
  /-- The registers, SREG, SP and the PC. -/
  | registers (bs : List Byte) : bs.length = 39 → IsAnswer (some (ascii "g")) (Hex.bytes bs)
  | memory (bs : List Byte) : bs.length ≤ 2045 → IsAnswer (some (ascii "m")) (Hex.bytes bs)
  | done (cmd : List Byte) :
      cmd ∈ [ascii "G", ascii "M", ascii "Z0", ascii "z0", ascii "Hg", ascii "Hc"] →
      IsAnswer (some cmd) (ascii "OK")
  | attached : IsAnswer (some (ascii "qAttached")) (ascii "1")
  | features : IsAnswer (some (ascii "qSupported"))
      (ascii "qRelocInsn-;ReverseStep+;PacketSize=2000")
  | stop (cmd : List Byte) : cmd ∈ [ascii "?", ascii "s", ascii "bs"] →
      IsAnswer (some cmd) (ascii "S05")
  /-- There is no step back from the first instruction. -/
  | first : IsAnswer (some (ascii "bs")) (ascii "T05replaylog:begin;")

/-- What a command is answered: its text in a frame, or the frame of 2046 bytes of memory, of which
the last character does not fit. -/
inductive IsReply (asked : Option (List Byte)) : List Byte → Prop
  | whole (s : List Byte) : IsAnswer asked s → IsReply asked (framed s)
  | cut (bs : List Byte) : asked = some (ascii "m") → bs.length = 2046 →
      IsReply asked ((framed (Hex.bytes bs)).take 4095 ++ [0])

/-- The grammar, and whether the answer to the last packet is still to come. -/
inductive Transcript : List Event → Bool → Prop
  | start : Transcript [] false
  | refused {log : List Event} {u : List Byte} : Transcript log false → IsPacket u → ¬ Intact u →
      Transcript (log ++ [.packet u, .send (ascii "-")]) false
  | answered {log : List Event} {u t : List Byte} : Transcript log false → IsPacket u → Intact u →
      command u ≠ some (ascii "c") → IsReply (command u) t →
      (Event.send t).isStop = stopsAtOnce (command u) →
      Transcript (log ++ [.packet u, .send (ascii "+"), .send t]) false
  | continued {log : List Event} {u : List Byte} : Transcript log false → IsPacket u → Intact u →
      command u = some (ascii "c") →
      Transcript (log ++ [.packet u, .send (ascii "+")]) true
  | stopped {log : List Event} : Transcript log true →
      Transcript (log ++ [.send (framed (ascii "S05"))]) false

/-! ## The answers -/

theorem plain_digit {v : ℕ} (h : v < 16) :
    Hex.digit v ∉ ([0, 0x23, 0x24, 0x2a, 0x7d] : List Byte) := by
  interval_cases v <;> decide

theorem plain_bytes (bs : List Byte) : Plain (Hex.bytes bs) := by
  intro c hc
  obtain ⟨b, -, hpair⟩ := List.mem_flatMap.mp hc
  have hlt := b.isLt
  simp only [Hex.pair, List.mem_cons, List.not_mem_nil, or_false] at hpair
  rcases hpair with rfl | rfl
  · exact plain_digit (by omega)
  · exact plain_digit (by omega)

/-- Every answer is plain text that fits. -/
theorem IsAnswer.plain (h : IsAnswer asked s) : Plain s ∧ s.length ≤ 4091 := by
  cases h with
  | registers bs hlen | memory bs hlen =>
    have hlength := Hex.length_bytes bs
    exact ⟨plain_bytes bs, by omega⟩
  | features => exact ⟨by simp [Plain, ascii], by decide⟩
  | first => exact ⟨by simp [Plain, ascii], by decide⟩
  | unknown | done | attached | stop => exact ⟨by decide, by decide⟩

/-- An answer that fits. -/
theorem sendstr_reply {log : List Event} (h : gdbSendstr s e = .ok e') (hlog : e.log = log)
    (hs : IsAnswer asked s) : ∃ t, IsReply asked t ∧ e'.log = log ++ [.send t] :=
  ⟨framed s, .whole s hs, by rw [gdbSendstr_stop h hs.plain.2, ← hlog]; rfl⟩

/-- What is read of memory fits, or its last character does not. -/
theorem readmem_reply {extra : List Byte} (h : gdbReadmem text extra e = .ok e') :
    ∃ t, IsReply (some (ascii "m")) t ∧ e'.log = e.log ++ [.send t] := by
  obtain ⟨bs, hsend⟩ := gdbReadmem_sends h
  have hlength := Hex.length_bytes bs
  by_cases hfits : bs.length ≤ 2045
  · exact sendstr_reply hsend rfl (.memory bs hfits)
  have hframe := length_framed (Hex.bytes bs)
  obtain ⟨-, -, hrest⟩ := bind_eq_ok hsend
  dsimp only at hrest
  split at hrest
  · rename_i hle
    have hcut : ((framed (Hex.bytes bs)).take 4095 ++ [0]).length =
        (framed (Hex.bytes bs)).length := by
      rw [List.length_append, List.length_take, List.length_singleton]
      omega
    rw [← hcut, List.take_length] at hrest
    exact ⟨_, .cut bs rfl (by omega), by rw [gdbSendraw_eq hrest]; rfl⟩
  · cases hrest

/-- Every command but one is answered at once. -/
theorem dispatch_reply (h : dispatch text e = .ok e') :
    ((findCmd text).map (·.cmd) = some (ascii "c") ∧ e'.log = e.log) ∨
    ((findCmd text).map (·.cmd) ≠ some (ascii "c") ∧
      ∃ t, IsReply ((findCmd text).map (·.cmd)) t ∧ e'.log = e.log ++ [.send t]) := by
  unfold dispatch at h
  cases hfind : findCmd text with
  | none =>
    rw [hfind] at h
    exact Or.inr ⟨by simp, sendstr_reply h rfl .unknown⟩
  | some d =>
    rw [hfind] at h
    have hmem : d ∈ gdbDisp := List.mem_of_find?_eq_some hfind
    simp only [gdbDisp, List.mem_cons, List.not_mem_nil, or_false] at hmem
    rcases hmem with
      rfl | rfl | rfl | rfl | rfl | rfl | rfl | rfl | rfl | rfl | rfl | rfl | rfl | rfl
    all_goals dsimp only at h
    · have hregs : gdbSendstr (Hex.bytes e.machine.regBytes) { e with execute := false } =
          .ok e' := by
        rw [← regText_eq]
        exact h
      exact Or.inr ⟨by decide, sendstr_reply hregs rfl (.registers _ (length_regBytes _))⟩
    · obtain ⟨memory, pc, h⟩ := gdbSetregs_sends h
      exact Or.inr ⟨by decide, sendstr_reply h rfl (.done _ (by decide))⟩
    · have hread := readmem_reply h
      exact Or.inr ⟨by decide, hread⟩
    · obtain ⟨memory, pc, h⟩ := gdbWritemem_sends h
      exact Or.inr ⟨by decide, sendstr_reply h rfl (.done _ (by decide))⟩
    · obtain ⟨addr, -, h⟩ := bind_eq_ok h
      exact Or.inr ⟨by decide, sendstr_reply h rfl (.done _ (by decide))⟩
    · obtain ⟨addr, -, h⟩ := bind_eq_ok h
      exact Or.inr ⟨by decide, sendstr_reply h rfl (.done _ (by decide))⟩
    · exact Or.inr ⟨by decide, sendstr_reply h rfl .attached⟩
    · exact Or.inr ⟨by decide, sendstr_reply h rfl .features⟩
    · exact Or.inr ⟨by decide, sendstr_reply h rfl (.stop _ (by decide))⟩
    · exact Or.inr ⟨by decide, sendstr_reply h rfl (.done _ (by decide))⟩
    · exact Or.inr ⟨by decide, sendstr_reply h rfl (.done _ (by decide))⟩
    · obtain rfl := Except.ok.inj h
      exact Or.inl ⟨rfl, rfl⟩
    · exact Or.inr ⟨by decide, sendstr_reply h rfl (.stop _ (by decide))⟩
    · have heq := gdbBstep_eq h
      refine Or.inr ⟨by decide, ?_⟩
      dsimp only at heq
      split at heq
      · exact ⟨_, .whole (ascii "S05") (.stop _ (by decide)), by rw [heq]; rfl⟩
      · exact ⟨_, .whole _ .first, by rw [heq]; rfl⟩

/-- The answer reports a stop if the command is answered by one. -/
theorem isStop_reply {e₁ : Emu} (h : dispatch text e₁ = .ok e')
    (hlog : e'.log = e₁.log ++ [.send t]) :
    (Event.send t).isStop = stopsAtOnce ((findCmd text).map (·.cmd)) := by
  obtain ⟨evs, hevs, -, hcount⟩ := (effect_of_dispatch h).replies
  obtain rfl : evs = [.send t] := List.append_cancel_left (hevs.symm.trans hlog)
  rw [List.countP_singleton] at hcount
  cases hstop : (Event.send t).isStop <;> cases hasked : stopsAtOnce ((findCmd text).map (·.cmd))
  · rfl
  · rw [hstop, hasked] at hcount
    cases hcount
  · rw [hstop, hasked] at hcount
    cases hcount
  · rfl

/-! ## One packet -/

theorem not_intact {a b c : Byte} {body : List Byte}
    (hsum : (gdbCksumstr body).toNat ≠ Hex.number [a, b]) :
    ¬ Intact (c :: body ++ [0x23, a, b]) := by
  rintro ⟨c', body', a', b', heq, -, hsum'⟩
  obtain ⟨hhead, htail⟩ := List.append_inj' heq rfl
  injection hhead with _ hsame
  injection htail with _ hdigits
  rw [hsame, hdigits] at hsum
  exact hsum hsum'

theorem Transcript.answer {log log' : List Event} (h : Transcript log false) (hu : IsPacket u)
    (hintact : Intact u) (hne : command u ≠ some (ascii "c")) (ht : IsReply (command u) t)
    (hstop : (Event.send t).isStop = stopsAtOnce (command u))
    (hlog' : log' = log ++ [.packet u] ++ [.send (ascii "+")] ++ [.send t]) :
    Transcript log' false := by
  rw [hlog', List.append_assoc, List.append_assoc]
  exact h.answered hu hintact hne ht hstop

/-- A packet is refused, or acknowledged and answered unless it continues the execution. -/
theorem Transcript.packet {a b : Byte} {before body rest : List Byte} (hne : body ≠ [])
    (h : e.Finds before body rest a b) (hlog : Transcript e.log false)
    (hcmd : gdbCmd before.length (before.length + body.length) e = .ok e') :
    ∃ owed, Transcript e'.log owed := by
  have hu : IsPacket (body ++ [0x23, a, b]) :=
    ⟨body, a, b, rfl, hne, h.first, h.slurped.1, h.slurped.2, h.digits⟩
  obtain ⟨c, body, rfl⟩ := List.exists_cons_of_ne_nil hne
  have hfirst := h.first
  simp only [List.mem_cons, not_or] at hfirst
  rw [gdbCmd_packet h] at hcmd
  dsimp only at hcmd
  by_cases hsum : (gdbCksumstr body).toNat = Hex.number [a, b]
  · have hintact : Intact (c :: body ++ [0x23, a, b]) := ⟨c, body, a, b, rfl, h.first, hsum⟩
    rw [if_pos hsum] at hcmd
    by_cases hc : c = 0x24
    · subst hc
      rw [if_pos rfl] at hcmd
      have hasked := command_of_sum hfirst.2 h.digits.1 h.digits.2 hsum
      have hfind : findCmd (body ++ 0 :: a :: b :: rest) = findCmd body := findCmd_zero _ _
      rcases dispatch_reply hcmd with ⟨hcont, hlog'⟩ | ⟨hnot, t, ht, hlog'⟩
      · rw [hfind, ← hasked] at hcont
        refine ⟨true, ?_⟩
        rw [hlog', Emu.sent]
        dsimp only
        rw [List.append_assoc]
        exact hlog.continued hu hintact hcont
      · have hstop := isStop_reply hcmd hlog'
        rw [hfind, ← hasked] at hnot ht hstop
        exact ⟨false, hlog.answer hu hintact hnot ht hstop hlog'⟩
    · rw [if_neg hc] at hcmd
      have hnone : command (c :: body ++ [0x23, a, b]) = none := by
        rw [command_packet (Ne.symm hfirst.1) hfirst.2 h.digits.1 h.digits.2 [],
          if_neg fun hboth => hc hboth.1]
      obtain rfl := gdbSendstr_stop hcmd (by decide)
      have hempty : IsReply (command (c :: body ++ [0x23, a, b])) (framed []) := by
        rw [hnone]
        exact .whole [] .unknown
      refine ⟨false, hlog.answer hu hintact ?_ hempty ?_ rfl⟩
      · rw [hnone]
        decide
      · rw [hnone]
        rfl
  · rw [if_neg hsum] at hcmd
    obtain rfl := Except.ok.inj hcmd
    refine ⟨false, ?_⟩
    rw [Emu.sent]
    dsimp only
    rw [List.append_assoc]
    exact hlog.refused hu (not_intact hsum)

/-! ## The balance of a transcript -/

/-- What is refused asks for nothing. -/
theorem command_refused (hu : IsPacket u) (h : ¬ Intact u) : command u = none := by
  obtain ⟨body, a, b, rfl, hne, hbody, -, -, ha, hb⟩ := hu
  obtain ⟨c, body, rfl⟩ := List.exists_cons_of_ne_nil hne
  have hfirst := hbody
  simp only [List.mem_cons, not_or] at hfirst
  rw [command_packet (Ne.symm hfirst.1) hfirst.2 ha hb [], if_neg]
  rintro ⟨-, hsum⟩
  refine h ⟨c, body, a, b, rfl, hbody, ?_⟩
  have hsame := congrArg BitVec.toNat (Option.some.inj hsum)
  have hdigits := number_two_lt a b
  have hbyte := (gdbCksumstr body).isLt
  rw [gdbCksum, List.take_length, ← gdbCksumstr, BitVec.toNat_ofNat, BitVec.toNat_setWidth,
    Nat.mod_eq_of_lt (by omega), Nat.mod_eq_of_lt (by omega)] at hsame
  exact hsame.symm

theorem Transcript.balance_eq {log : List Event} {owed : Bool} (h : Transcript log owed) :
    stopRules.balance log = some owed.toNat := by
  induction h with
  | start => rfl
  | @refused log u _ hu hnot ih =>
    have hbalance : stopRules.balance (log ++ [.packet u, .send (ascii "-")] ++ []) =
        some (stopsOwed u) := balance_packet ih rfl (by simp) (Nat.zero_le _)
    rw [List.append_nil, stopsOwed, command_refused hu hnot] at hbalance
    exact hbalance
  | @answered log u t _ _ _ hne _ hstop ih =>
    have howes : stopsOwed u = (stopsAtOnce (command u)).toNat := by
      rw [stopsOwed, owesStop, beq_false_of_ne hne, Bool.false_or]
    have hcount : [Event.send t].countP Event.isStop = stopsOwed u := by
      rw [List.countP_singleton, hstop, howes]
      cases stopsAtOnce (command u) <;> rfl
    have hbalance : stopRules.balance (log ++ [.packet u, .send (ascii "+")] ++ [.send t]) =
        some (stopsOwed u - [Event.send t].countP Event.isStop) :=
      balance_packet ih rfl (by simp) hcount.le
    rw [List.append_assoc, hcount, Nat.sub_self] at hbalance
    exact hbalance
  | @continued log u _ _ _ hcont ih =>
    have hbalance : stopRules.balance (log ++ [.packet u, .send (ascii "+")] ++ []) =
        some (stopsOwed u) := balance_packet ih rfl (by simp) (Nat.zero_le _)
    rw [List.append_nil, stopsOwed, hcont] at hbalance
    exact hbalance
  | stopped _ ih =>
    rw [Ledger.balance_append, ih]
    rfl

/-! ## A whole session -/

/-- A report comes only when one is owed, and a packet only when none is. -/
theorem Transcript.owed_eq {log : List Event} {owed : Bool} {n : ℕ} (h : Transcript log owed)
    (hn : stopRules.balance log = some n) : owed.toNat = n :=
  Option.some.inj (h.balance_eq.symm.trans hn)

/-- A pass of the scanning loop. -/
theorem Transcript.scan {owed : Bool} (h : Transcript e.log owed)
    (hanswering : Answering (.scan bp ep) e) (hinv : InOrder us (.scan bp ep) e)
    (hscan : gdbstubScan bp ep e = .ok (p', e')) : ∃ owed, Transcript e'.log owed := by
  rcases scan_takesUp hinv hscan with ⟨-, -, hvars⟩ | ⟨done, u, todo, -, -, htakes⟩
  · have hlog : e'.unbuffered.log = e.unbuffered.log := by rw [hvars]
    have hsame : e'.log = e.log := hlog
    exact ⟨owed, hsame ▸ h⟩
  · have hnone := h.owed_eq hanswering.balance_eq
    obtain rfl : owed = false := by
      cases owed with
      | false => rfl
      | true => cases hnone
    obtain ⟨before, body, rest, a, b, e₁, -, hne, hfinds, -, hcmd, hvars⟩ := htakes.finds
    obtain ⟨owed, hnext⟩ := h.packet hne hfinds hcmd
    have hlog : e'.unbuffered.log = e₁.unbuffered.log := by rw [hvars]
    have hsame : e'.log = e₁.log := hlog
    exact ⟨owed, hsame ▸ hnext⟩

/-- The head of the emulator loop. -/
theorem Transcript.top {owed : Bool} (h : Transcript e.log owed) (hanswering : Answering .top e)
    (hcourse : TopCourse e.settled p' e') : ∃ owed, Transcript e'.log owed := by
  have hsettled : e.settled.log = e.log := by
    unfold Emu.settled
    split <;> rfl
  cases hcourse with
  | replay | pass | stepped => exact ⟨owed, hsettled ▸ h⟩
  | breakpoint hreplay _ hstep _ =>
    have hrunning : e.stepone = false ∧ e.replayMode = false := by
      unfold Emu.settled at hreplay hstep
      split at hstep
      · cases hstep
      · rename_i hend
        rw [if_neg hend] at hreplay
        exact ⟨hstep, hreplay⟩
    have hone := h.owed_eq hanswering.balance_eq
    have howed : stopsOutstanding .top e = if e.stepone || e.replayMode then 0 else 1 := rfl
    rw [howed, hrunning.1, hrunning.2] at hone
    obtain rfl : owed = true := by
      cases owed with
      | false => cases hone
      | true => rfl
    refine ⟨false, ?_⟩
    rw [Emu.sent]
    dsimp only
    rw [hsettled]
    exact h.stopped

section Running

variable [DesLibrary]

theorem Transcript.tick {owed : Bool} {env : Env} (h : Transcript e.log owed)
    (hanswering : Answering p e) (hinv : InOrder us p e) (htick : tick env p e = .ok (p', e')) :
    ∃ owed, Transcript e'.log owed := by
  cases p with
  | top => exact h.top hanswering (topCourse_of_tick htick)
  | recv =>
    have hlog : e'.log = e.log := congrArg (·.log) (receive_unbuffered htick).2
    exact ⟨owed, hlog ▸ h⟩
  | scan bp ep => exact h.scan hanswering hinv htick
  | run => exact ⟨owed, by cases runCourse_of_tick htick <;> exact h⟩
  | stopped =>
    cases htick
    exact ⟨owed, h⟩

theorem Served.transcript {m : Machine} {insnlimit : ℕ} {tracehex : Bool}
    {tracefile : Option (List Byte)}
    (h : Served (Emu.attached m insnlimit tracehex tracefile) us p e) :
    ∃ owed, Transcript e.log owed := by
  induction h with
  | start => exact ⟨false, .start⟩
  | tick env hserved _ htick ih =>
    obtain ⟨owed, hlog⟩ := ih
    exact hlog.tick hserved.answering (hserved.inOrder (inOrder_start _ _ _ _)) htick

/-- What is taken up and sent in a session keeps to the grammar: a packet with a wrong checksum is
refused and nothing else comes of it, any other is acknowledged and answered once before the next is
taken up, and only the answer to a command that continues the execution is put off, until a
breakpoint is reached. It is put off as long as the machine runs on its own. -/
theorem session_transcript (m : Machine) (insnlimit : ℕ) (tracehex : Bool)
    (tracefile : Option (List Byte)) (us : List (List Byte)) (p : Point) (e : Emu)
    (h : Served (Emu.attached m insnlimit tracehex tracefile) us p e) :
    Transcript e.log (stopsOutstanding p e == 1) := by
  obtain ⟨owed, hlog⟩ := h.transcript
  have howed := hlog.owed_eq h.answering.balance_eq
  rw [← howed]
  cases owed <;> exact hlog

end Running

section Query

attribute [local instance] idleDes

/-- A packet with a wrong checksum, a step, a breakpoint at the word two, and `c`, which is answered
when it is reached: on the image `LDI r16, 0x55`. -/
theorem session_transcript_exchanges :
    let e₀ := Emu.attached (Machine.powerOn fun _ => 0xe505) 0 false none
    let us := ascii "$g#00" :: [ascii "s", ascii "Z0,2,2", ascii "c"].map framed
    ∃ e, Served e₀ us .recv e ∧ e.log = [
        .packet (ascii "$g#00"), .send (ascii "-"),
        .packet (ascii "$s#73"), .send (ascii "+"), .send (ascii "$S05#b8"),
        .packet (ascii "$Z0,2,2#46"), .send (ascii "+"), .send (ascii "$OK#9a"),
        .packet (ascii "$c#63"), .send (ascii "+"), .send (ascii "$S05#b8")] ∧
      Transcript e.log (stopsOutstanding .recv e == 1) := by
  intro e₀ us
  have hus : ∀ u ∈ us, IsPacket u ∧ u.length ≤ pktBufMax ∧ BringsDigits u := by
    refine List.forall_mem_cons.mpr ⟨?_, sendable_framed _ (by decide)⟩
    have hpacket : IsPacket (ascii "$g#00") := ⟨ascii "$g", 0x30, 0x30, rfl, by decide⟩
    exact ⟨hpacket, by decide, fun hcommand => absurd (by decide) hcommand⟩
  obtain ⟨e, hserved, hlog⟩ := exists_session e₀ (·.log) (fun _ => rfl) (n := 9) rfl hus
    (x := [
      .packet (ascii "$g#00"), .send (ascii "-"),
      .packet (ascii "$s#73"), .send (ascii "+"), .send (ascii "$S05#b8"),
      .packet (ascii "$Z0,2,2#46"), .send (ascii "+"), .send (ascii "$OK#9a"),
      .packet (ascii "$c#63"), .send (ascii "+"), .send (ascii "$S05#b8")])
    (by decide +kernel)
  exact ⟨e, hserved, hlog, session_transcript _ _ _ _ _ _ _ hserved⟩

end Query

/-! ## What the client reads -/

/-- A text in its frame is a packet that the stub itself would accept. -/
theorem framed_intact (h : Plain s) : IsPacket (framed s) ∧ Intact (framed s) := by
  have hpound : 0x23 ∉ s := fun hmem => h _ hmem (by decide)
  have hfirst : 0x23 ∉ (0x24 : Byte) :: s := by simpa using hpound
  exact ⟨isPacket_framed hpound,
    _, _, _, _, framed_eq s, hfirst, (Hex.number_pair _).symm⟩

/-- Whatever is sent is an acknowledgement, a packet to accept, or the one answer that is cut. -/
theorem Transcript.sends {log : List Event} {owed : Bool} (h : Transcript log owed)
    (ht : .send t ∈ log) : IsAck t ∨ (IsPacket t ∧ Intact t) ∨ t.length = 4096 := by
  have hack {log : List Event} {u : List Byte} {c : Byte} (hc : IsAck [c])
      (ht : Event.send t ∈ log ++ [.packet u, .send [c]]) : Event.send t ∈ log ∨ IsAck t := by
    simp only [List.mem_append, List.mem_cons, List.not_mem_nil, or_false, reduceCtorEq, false_or,
      Event.send.injEq] at ht
    rcases ht with ht | rfl
    · exact Or.inl ht
    · exact Or.inr hc
  induction h with
  | start => cases ht
  | refused _ _ _ ih => exact (hack (Or.inr rfl) ht).elim ih Or.inl
  | continued _ _ _ _ ih => exact (hack (Or.inl rfl) ht).elim ih Or.inl
  | @answered log u t' _ _ _ _ hreply _ ih =>
    have hsplit : log ++ [.packet u, .send (ascii "+"), .send t'] =
        log ++ [.packet u, .send (ascii "+")] ++ [.send t'] := by
      rw [List.append_assoc]
      rfl
    rw [hsplit] at ht
    rcases List.mem_append.mp ht with ht | ht
    · exact (hack (Or.inl rfl) ht).elim ih Or.inl
    · obtain rfl : t = t' := by simpa using ht
      refine Or.inr ?_
      cases hreply with
      | whole s hs => exact Or.inl (framed_intact hs.plain.1)
      | cut bs _ hlen =>
        right
        rw [List.length_append, List.length_take, length_framed, Hex.length_bytes, hlen]
        rfl
  | stopped _ ih =>
    rcases List.mem_append.mp ht with ht | ht
    · exact ih ht
    · obtain rfl : t = framed (ascii "S05") := by simpa using ht
      exact Or.inr (Or.inl (framed_intact (by decide)))

/-- No packet or acknowledgement begins another. -/
theorem prefixFree_units : PrefixFree {u | IsUnit u} := by
  rintro u hu v hv ⟨s, hs⟩
  rcases hu with hack | ⟨body, a, b, rfl, hbody, hplus, hminus⟩ <;>
    rcases hv with hack' | ⟨body', a', b', rfl, hbody', hplus', hminus'⟩
  · rcases hack with rfl | rfl <;> rcases hack' with rfl | rfl <;> first | rfl | cases hs
  · exfalso
    have hhead := congrArg List.head? hs
    cases body' with
    | nil => rcases hack with rfl | rfl <;> cases hhead
    | cons c body' =>
      rcases hack with rfl | rfl
      · exact hplus' hhead.symm
      · exact hminus' hhead.symm
  · exfalso
    have hlength := congrArg List.length hs
    rcases hack' with rfl | rfl <;>
    · simp only [List.length_append, List.length_cons, List.length_nil] at hlength
      omega
  · have hlength : body.length = body'.length := by
      have hfirst := idxOf?_append (t := a :: b :: s) hbody
      have hfirst' := idxOf?_append (t := [a', b']) hbody'
      rw [List.append_assoc] at hs
      have hsame : body ++ 0x23 :: a :: b :: s = body' ++ [0x23, a', b'] := hs
      rw [hsame, hfirst'] at hfirst
      exact (Option.some.inj hfirst).symm
    have hwhole : s = [] := by
      have hcount := congrArg List.length hs
      simp only [List.length_append, List.length_cons, List.length_nil, hlength] at hcount
      exact List.length_eq_zero_iff.mp (by omega)
    rw [← hs, hwhole, List.append_nil]

theorem units_uniquelyDecodable : UniquelyDecodable {u | IsUnit u} :=
  prefixFree_units.uniquelyDecodable fun hnil => absurd (length_pos_of_isUnit hnil) (by decide)

/-- The texts that have been sent. -/
def Emu.sends (e : Emu) : List (List Byte) :=
  e.log.filterMap fun ev => match ev with
    | .send t => some t
    | .packet _ => none

section Running

variable [DesLibrary]

/-- However a client cuts what it reads into acknowledgements and packets, it finds what the stub
has sent, piece by piece, and every packet with the right checksum; unless it has asked for the 2046
bytes of which the last character does not fit. -/
theorem sends_readable (m : Machine) (insnlimit : ℕ) (tracehex : Bool)
    (tracefile : Option (List Byte)) (us : List (List Byte)) (p : Point) (e : Emu)
    (h : Served (Emu.attached m insnlimit tracehex tracefile) us p e)
    (hcut : ∀ t ∈ e.sends, t.length ≠ 4096) :
    (∀ t ∈ e.sends, IsAck t ∨ IsPacket t ∧ Intact t) ∧
    ∀ ts : List (List Byte),
      (∀ t ∈ ts, IsUnit t) → ts.flatten = e.sends.flatten → ts = e.sends := by
  obtain ⟨owed, hlog⟩ := h.transcript
  have hsends : ∀ t ∈ e.sends, IsAck t ∨ IsPacket t ∧ Intact t := by
    intro t ht
    obtain ⟨ev, hev, hsend⟩ := List.mem_filterMap.mp ht
    cases ev with
    | packet u => cases hsend
    | send t' =>
      obtain rfl := Option.some.inj hsend
      rcases hlog.sends hev with hack | hpacket | hlength
      · exact Or.inl hack
      · exact Or.inr hpacket
      · exact absurd hlength (hcut _ ht)
  refine ⟨hsends, fun ts hts hflat => units_uniquelyDecodable ts e.sends hts (fun t ht => ?_) hflat⟩
  exact (hsends t ht).imp_right fun hpacket => hpacket.1.isComplete

end Running

section Query

attribute [local instance] idleDes

/-- A session in which a query has been answered. -/
theorem exists_query (tracefile : Option (List Byte)) : ∃ e,
    Served (Emu.attached (Machine.powerOn fun _ => 0) 0 false tracefile) [ascii "$?#3f"] .recv e ∧
      e.log = [.packet (ascii "$?#3f"), .send (ascii "+"), .send (framed (ascii "S05"))] := by
  have hsent : ∀ u ∈ [ascii "$?#3f"], IsSent u := fun u hu =>
    List.mem_singleton.mp hu ▸ Or.inr ⟨ascii "$?", 0x33, 0x66, rfl, by decide⟩
  have hstop : Served (Emu.attached (Machine.powerOn fun _ => 0) 0 false tracefile) [] .recv _ :=
    .tick ⟨false, .wouldBlock⟩ .start rfl rfl
  have hroom : (ascii "$?#3f").length ≤ pktBufMax - 0 := by decide
  have hrecv : Served (Emu.attached (Machine.powerOn fun _ => 0) 0 false tracefile)
      [ascii "$?#3f"] _ _ := .tick ⟨false, .data (ascii "$?#3f")⟩ hstop ⟨rfl, hsent, hroom⟩ rfl
  have hquery := Served.tick ⟨false, .wouldBlock⟩ hrecv rfl rfl
  exact ⟨_, Served.tick ⟨false, .wouldBlock⟩ hquery rfl rfl, rfl⟩

theorem sends_readable_query : ∃ e,
    Served (Emu.attached (Machine.powerOn fun _ => 0) 0 false none) [ascii "$?#3f"] .recv e ∧
      (∀ t ∈ e.sends, IsAck t ∨ IsPacket t ∧ Intact t) ∧
      ∀ ts : List (List Byte), (∀ t ∈ ts, IsUnit t) → ts.flatten = e.sends.flatten →
        ts = e.sends := by
  obtain ⟨e, hserved, hlog⟩ := exists_query none
  refine ⟨e, hserved, sends_readable _ _ _ _ _ _ _ hserved ?_⟩
  rw [Emu.sends, hlog]
  decide

end Query

end AvrEmu
