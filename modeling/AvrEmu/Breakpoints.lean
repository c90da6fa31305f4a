import AvrEmu.Gdb.Registers
import AvrEmu.Lib.FirstTime
import AvrEmu.StopReplies

/-!
# Breakpoints

The packets `Z0` and `z0` put the addresses that they carry into the table and take them out of it,
and before each instruction the program counter is looked up there. It counts words, and what GDB
is told counts bytes. So the emulator stops where it was asked to only while the two agree.
-/

namespace AvrEmu

variable {e e' : Emu} {p p' : Point} {bp ep : ℕ} {s t text body : List Byte}
  {us : List (List Byte)} {m m' : Machine}

/-! ## What is asked for -/

/-- A breakpoint that is set or removed. -/
structure BreakRequest where
  addr : BitVec 32
  set : Bool
  deriving DecidableEq

/-- The table after a request, or after none. -/
def applyRequest (breakpoints : BitVec 32 → Bool) : Option BreakRequest → BitVec 32 → Bool
  | none => breakpoints
  | some r => Function.update breakpoints r.addr r.set

/-- What a command with this text asks of the breakpoints. -/
def breakRequest (asked : Option (List Byte)) (text : List Byte) : Option BreakRequest :=
  if asked = some (ascii "Z0") then (scanBreak text).map fun addr => ⟨addr, true⟩
  else if asked = some (ascii "z0") then (scanBreak text).map fun addr => ⟨addr, false⟩
  else none

/-- The text of a packet, from its `$` to its `#`, with the zero byte that ends it. -/
def packetText (u : List Byte) : List Byte := u.tail.takeWhile (· != 0x23) ++ [0]

/-- What a packet asks of the breakpoints. -/
def packetRequest (u : List Byte) : Option BreakRequest := breakRequest (command u) (packetText u)

/-- The addresses that a sequence of packets leaves in the table. -/
def askedBreakpoints (packets : List (List Byte)) : BitVec 32 → Bool :=
  packets.foldl (fun breakpoints u => applyRequest breakpoints (packetRequest u)) fun _ => false

theorem askedBreakpoints_append (packets : List (List Byte)) (u : List Byte) :
    askedBreakpoints (packets ++ [u]) =
      applyRequest (askedBreakpoints packets) (packetRequest u) := by
  rw [askedBreakpoints, List.foldl_append]
  rfl

/-- A command is no longer than its text. -/
theorem length_le_of_findCmd {c : List Byte} (h : (findCmd text).map (·.cmd) = some c) :
    c.length ≤ text.length := by
  obtain ⟨d, hfind, rfl⟩ := Option.map_eq_some_iff.mp h
  have hinitial : d.cmd.isPrefixOf text = true := by simpa using List.find?_some hfind
  exact (List.isPrefixOf_iff_prefix.mp hinitial).length_le

/-- The address is read before the zero byte. -/
theorem scanBreak_append_zero (hlen : 2 ≤ body.length) (t : List Byte) :
    scanBreak (body ++ 0 :: t) = scanBreak (body ++ [0]) := by
  have hdrop (t : List Byte) : (body ++ 0 :: t).drop 2 = body.drop 2 ++ 0 :: t :=
    List.drop_append_of_le_length hlen
  have hliteral (t : List Byte) :=
    Hex.literal_append_zero (c := 0x2c) (by decide) (body.drop 2) t
  rw [scanBreak, scanBreak, hdrop, hdrop, hliteral, hliteral]
  cases Hex.literal 0x2c (body.drop 2) with
  | none => rfl
  | some left =>
    obtain ⟨r, -, hscan⟩ := Hex.exists_scan_append_zero left
    simp only [Option.map_some, Option.bind_eq_bind, Option.bind_some, hscan]
    cases r <;> rfl

theorem breakRequest_append_zero {asked : Option (List Byte)}
    (hasked : (findCmd body).map (·.cmd) = asked) (t : List Byte) :
    breakRequest asked (body ++ 0 :: t) = breakRequest asked (body ++ [0]) := by
  have hscan (c : List Byte) (hc : c.length = 2) (heq : asked = some c) :
      scanBreak (body ++ 0 :: t) = scanBreak (body ++ [0]) :=
    scanBreak_append_zero (hc ▸ length_le_of_findCmd (hasked.trans heq)) t
  unfold breakRequest
  split
  · next hset => rw [hscan _ rfl hset]
  · split
    · next hremove => rw [hscan _ rfl hremove]
    · rfl

/-! ## What the stub does -/

/-- A text whose command is in the table goes to its handler. -/
theorem dispatch_eq {d : CmdDispatch} (hfind : findCmd text = some d) {handler : Handler}
    (hhandler : d.handler = some handler) :
    dispatch text e = handler text d.extra { e with execute := d.continueExec } := by
  rw [dispatch, hfind]
  dsimp only
  rw [hhandler]

theorem handler_of_cmd {d : CmdDispatch} (hmem : d ∈ gdbDisp) :
    (d.cmd = ascii "Z0" → d.handler = some gdbAddbreak) ∧
    (d.cmd = ascii "z0" → d.handler = some gdbRembreak) := by
  simp only [gdbDisp, List.mem_cons, List.not_mem_nil, or_false] at hmem
  rcases hmem with
    rfl | rfl | rfl | rfl | rfl | rfl | rfl | rfl | rfl | rfl | rfl | rfl | rfl | rfl
  all_goals
    constructor
    all_goals first
      | exact fun _ => rfl
      | exact fun hcmd => absurd hcmd (by decide)

/-- The dispatcher carries out what a command asks of the breakpoints. -/
theorem breakpoints_of_dispatch (h : dispatch text e = .ok e') : e'.breakpoints =
    applyRequest e.breakpoints (breakRequest ((findCmd text).map (·.cmd)) text) := by
  unfold breakRequest
  split
  · next hset =>
    obtain ⟨d, hfind, hcmd⟩ := Option.map_eq_some_iff.mp hset
    have hhandler := (handler_of_cmd (List.mem_of_find?_eq_some hfind)).1 hcmd
    rw [dispatch_eq hfind hhandler] at h
    obtain ⟨addr, haddr, -, rfl, -⟩ := gdbAddbreak_answers h
    rw [haddr]
    rfl
  · split
    · next hremove =>
      obtain ⟨d, hfind, hcmd⟩ := Option.map_eq_some_iff.mp hremove
      have hhandler := (handler_of_cmd (List.mem_of_find?_eq_some hfind)).2 hcmd
      rw [dispatch_eq hfind hhandler] at h
      obtain ⟨addr, haddr, -, rfl, -⟩ := gdbRembreak_answers h
      rw [haddr]
      rfl
    · next hset hremove => exact (effect_of_dispatch h).breakpoints_eq hset hremove

/-- So does the stub with a packet. -/
theorem breakpoints_of_gdbCmd {c p : ℕ} (hp : (e.clientbuf.drop c).idxOf? 0x23 = some p)
    (h : gdbCmd c (c + p) e = .ok e') : e'.breakpoints =
      applyRequest e.breakpoints (breakRequest (command (e.clientbuf.drop c))
        ((e.clientbuf.drop c).tail.set (p - 1) 0)) := by
  obtain ⟨buf, ack, e₁, rfl, -, -, ⟨hnone, rfl | ⟨t, rfl, -⟩⟩ | ⟨hasked, hdispatch⟩⟩ :=
    gdbCmd_cases hp h
  · rw [hnone]
    rfl
  · rw [hnone]
    rfl
  · have heq := breakpoints_of_dispatch hdispatch
    rwa [← hasked] at heq

theorem packetText_eq {c : Byte} (hbody : 0x23 ∉ body) :
    packetText (c :: body ++ 0x23 :: t) = body ++ [0] := by
  have hkept : ∀ x ∈ body, (x != 0x23) = true := by
    intro x hx
    rw [bne_iff_ne]
    exact fun heq => hbody (heq ▸ hx)
  rw [packetText, List.cons_append, List.tail_cons, List.takeWhile_append_of_pos hkept,
    List.takeWhile_cons_of_neg (by decide), List.append_nil]

/-- What a packet asks, where it lies in the buffer. -/
theorem packetRequest_eq {c a b : Byte} (hpacket : IsPacket (c :: body ++ [0x23, a, b]))
    (hbody : 0x23 ∉ c :: body) (t : List Byte) :
    breakRequest (command (c :: body ++ [0x23, a, b] ++ t))
        ((c :: body ++ [0x23, a, b] ++ t).tail.set ((c :: body).length - 1) 0) =
      packetRequest (c :: body ++ [0x23, a, b]) := by
  simp only [List.mem_cons, not_or] at hbody
  have htext : (c :: body ++ [0x23, a, b] ++ t).tail.set ((c :: body).length - 1) 0 =
      body ++ 0 :: a :: b :: t := by
    rw [List.append_assoc, List.cons_append, List.tail_cons, List.length_cons,
      Nat.add_sub_cancel, List.set_append_right _ _ (Nat.le_refl _), Nat.sub_self]
    rfl
  have hpacketText : packetText (c :: body ++ [0x23, a, b]) = body ++ [0] := packetText_eq hbody.2
  have hcommand : command (c :: body ++ [0x23, a, b]) = none ∨
      (findCmd body).map (·.cmd) = command (c :: body ++ [0x23, a, b]) := by
    obtain ⟨body', a', b', heq, -, -, -, -, ha, hb⟩ := hpacket
    have htail : [0x23, a, b] = [0x23, a', b'] := (List.append_inj' heq rfl).2
    simp only [List.cons.injEq, true_and, and_true] at htail
    obtain ⟨rfl, rfl⟩ := htail
    rw [command_packet (Ne.symm hbody.1) hbody.2 ha hb []]
    split
    · exact Or.inr rfl
    · exact Or.inl rfl
  rw [packetRequest, command_append hpacket, htext, hpacketText]
  rcases hcommand with hnone | hasked
  · rw [hnone]
    rfl
  · exact breakRequest_append_zero hasked _

/-- A packet that sets or removes the breakpoint at an address of hexadecimal digits. -/
def breakText (set : Bool) (addr kind : List Byte) : List Byte :=
  ascii (if set then "Z0" else "z0") ++ 0x2c :: (addr ++ 0x2c :: kind)

theorem findCmd_breakText (set : Bool) (addr kind : List Byte) :
    (findCmd (breakText set addr kind)).map (·.cmd) =
      some (ascii (if set then "Z0" else "z0")) := by
  cases set <;> rfl

/-- It asks for that address. -/
theorem packetRequest_breakText {set : Bool} {a : ℕ} {addr kind : List Byte}
    (haddr : Hex.Numeral a addr) (ha : a < 2 ^ 64) (hpound : 0x23 ∉ breakText set addr kind) :
    packetRequest (framed (breakText set addr kind)) = some ⟨BitVec.ofNat 32 a, set⟩ := by
  have hpacket (s : List Byte) : framed s = 0x24 :: s ++ 0x23 ::
      Hex.digit ((gdbCksumstr s).toNat / 16) :: Hex.digit ((gdbCksumstr s).toNat % 16) :: [] :=
    framed_eq s
  have hsum (s : List Byte) : gdbCksum s s.length = gdbCksumstr s := by
    rw [gdbCksum, List.take_length, gdbCksumstr]
  have hlt := (gdbCksumstr (breakText set addr kind)).isLt
  have hcommand : command (framed (breakText set addr kind)) =
      some (ascii (if set then "Z0" else "z0")) := by
    rw [hpacket, command_packet (by decide) hpound (Hex.isDigit_digit (by omega))
      (Hex.isDigit_digit (by omega)), hsum, if_pos, findCmd_breakText]
    refine ⟨rfl, congrArg some ?_⟩
    exact (congrArg (BitVec.ofNat 32) (Hex.number_pair _)).trans (BitVec.ofNat_toNat _ _)
  have htext : packetText (framed (breakText set addr kind)) = breakText set addr kind ++ [0] := by
    rw [hpacket, packetText_eq hpound]
  have hdrop : (breakText set addr kind ++ [0]).drop 2 =
      0x2c :: (addr ++ 0x2c :: (kind ++ [0])) := by
    cases set <;> simp [breakText, ascii]
  have hcomma : ∀ c ∈ (0x2c :: (kind ++ [0])).head?,
      Hex.isDigit c = false ∧ c ≠ 0x78 ∧ c ≠ 0x58 := by
    intro c hc
    obtain rfl : 0x2c = c := by simpa using hc
    decide
  have hscan : scanBreak (breakText set addr kind ++ [0]) = some (BitVec.ofNat 32 a) := by
    simp only [scanBreak, hdrop, Hex.literal_self, Hex.scan_numeral haddr hcomma ha,
      Option.bind_eq_bind, Option.bind_some, Option.pure_def]
  rw [packetRequest, hcommand, htext, breakRequest, hscan]
  cases set <;> rfl

/-! ## In a session -/

/-- A client is connected, the machine is on, and the table has what was asked for. -/
structure Listening (e : Emu) : Prop where
  connected_eq : e.connected = true
  off_eq : e.off = false
  breakpoints_eq : e.breakpoints = askedBreakpoints e.handled

theorem Listening.of_same (h : Listening e) (hconn : e'.connected = e.connected)
    (hoff : e'.off = e.off) (hbreak : e'.breakpoints = e.breakpoints)
    (hhandled : e'.handled = e.handled) : Listening e' :=
  ⟨hconn.trans h.connected_eq, hoff.trans h.off_eq,
    hbreak.trans (h.breakpoints_eq.trans (congrArg askedBreakpoints hhandled.symm))⟩

theorem Listening.scanned (h : Listening e) (bp ep : ℕ) :
    Listening (gdbstubScanned bp ep e).2 := by
  obtain ⟨buf, n, hframe⟩ := scanned_frame bp ep e
  rw [hframe]
  exact h.of_same rfl rfl rfl rfl

/-- A packet is handled as it lies in the buffer. -/
theorem Listening.gdbCmd {c a b : Byte} (h : Listening e)
    (hpacket : IsPacket (c :: body ++ [0x23, a, b])) (hbody : 0x23 ∉ c :: body)
    (hdrop : e.clientbuf.drop bp = c :: body ++ [0x23, a, b] ++ t)
    (hcmd : gdbCmd bp (bp + (c :: body).length) e = .ok e') : Listening e' := by
  have hp : (e.clientbuf.drop bp).idxOf? 0x23 = some (c :: body).length := by
    rw [hdrop, List.append_assoc]
    exact idxOf?_append hbody
  have htake : (e.clientbuf.drop bp).take ((c :: body).length + 3) = c :: body ++ [0x23, a, b] := by
    have hlength : (c :: body ++ [0x23, a, b]).length = (c :: body).length + 3 :=
      List.length_append
    rw [hdrop, ← hlength, List.take_left]
  have hbreak := breakpoints_of_gdbCmd hp hcmd
  obtain ⟨buf, ack, -, -, heffect⟩ := gdbCmd_effect hp hcmd
  obtain ⟨evs, hlog, hsends, -⟩ := heffect.replies
  have hhandled : e'.handled = e.handled ++ [c :: body ++ [0x23, a, b]] := by
    rw [Emu.handled, hlog, List.filterMap_append, filterMap_sends hsends, List.append_nil,
      List.filterMap_append, htake]
    rfl
  rw [hdrop, packetRequest_eq hpacket hbody] at hbreak
  refine ⟨?_, ?_, ?_⟩
  · rw [heffect.frame]
    exact h.connected_eq
  · rw [heffect.frame]
    exact h.off_eq
  · rw [hbreak, hhandled, askedBreakpoints_append, h.breakpoints_eq]

/-- A pass of the scanning loop carries out what the next packet asks. -/
theorem Listening.scan (h : Listening e) (hinv : InOrder us (.scan bp ep) e)
    (hscan : gdbstubScan bp ep e = .ok (p', e')) : Listening e' := by
  obtain ⟨done, todo, rfl, hdone, htodo⟩ := hinv.cut
  have hep : ep ≤ e.clientbuf.length := by
    rw [hinv.length_eq]
    exact (hinv.scanning bp ep rfl).1
  cases todo with
  | nil =>
    have hend : ep ≤ bp := by
      have hlength := length_pending bp hep
      have hnone : e.pending bp ep = [] := htodo
      rw [hnone, List.length_nil] at hlength
      omega
    rw [scan_empty hend, Except.ok.injEq] at hscan
    have hnext := h.scanned bp ep
    rwa [hscan] at hnext
  | cons u todo =>
    have hpend : e.pending bp ep = u ++ todo.flatten := htodo
    rcases hinv.sent u (by simp) with hack | hpacket
    · rw [scan_ack hack hpend] at hscan
      cases hscan
      exact h.of_same rfl rfl rfl rfl
    · obtain ⟨body, a, b, rfl, hne, hbody, hplus, hminus, -, -⟩ := id hpacket
      obtain ⟨c, body, rfl⟩ := List.exists_cons_of_ne_nil hne
      rw [scan_complete hbody hplus hminus hep hpend] at hscan
      obtain ⟨e₁, hcmd, hscan⟩ := bind_eq_ok hscan
      have hdrop := drop_eq_append hpend
      rw [List.append_assoc] at hdrop
      have hhandled := h.gdbCmd hpacket hbody hdrop hcmd
      split at hscan
      · rw [pure_eq_ok, Except.ok.injEq] at hscan
        have hnext := hhandled.scanned (bp + (c :: body).length + 3) ep
        rwa [hscan] at hnext
      · cases hscan
        exact hhandled

theorem Listening.top (h : Listening e) (hcourse : TopCourse e.settled p' e') : Listening e' := by
  have hsettled : Listening e.settled := by
    unfold Emu.settled
    split
    · exact h.of_same rfl rfl rfl rfl
    · exact h
  have hsame := hcourse.sameBuffer.handled_eq
  cases hcourse with
  | replay | pass => exact hsettled
  | stepped => exact hsettled.of_same rfl rfl rfl hsame
  | breakpoint => exact hsettled.of_same rfl rfl rfl hsame

theorem Listening.receive {r : Recv} (h : Listening e)
    (hrecv : gdbstubReceive r e = .ok (p', e')) : Listening e' := by
  unfold gdbstubReceive at hrecv
  split at hrecv
  · cases hrecv
  · cases hrecv
    exact h
  · split at hrecv
    · cases hrecv
    · cases hrecv
      exact h.of_same rfl rfl rfl rfl

section Running

variable [DesLibrary]

theorem Listening.run (h : Listening e) (hcourse : RunCourse e p' e') : Listening e' := by
  cases hcourse with
  | init => exact ⟨h.connected_eq, rfl, h.breakpoints_eq⟩
  | off => exact h
  | step | halt => exact h.of_same rfl rfl rfl rfl

theorem Listening.tick {env : Env} (h : Listening e) (hinv : InOrder us p e)
    (htick : tick env p e = .ok (p', e')) : Listening e' := by
  cases p with
  | top => exact h.top (topCourse_of_tick htick)
  | recv => exact h.receive htick
  | scan bp ep => exact h.scan hinv htick
  | run => exact h.run (runCourse_of_tick htick)
  | stopped =>
    cases htick
    exact h

theorem Served.listening {insnlimit : ℕ} {tracehex : Bool} {tracefile : Option (List Byte)}
    (h : Served (Emu.attached m insnlimit tracehex tracefile) us p e) : Listening e := by
  induction h with
  | start => exact ⟨rfl, rfl, rfl⟩
  | tick env hserved _ htick ih => exact ih.tick (hserved.inOrder (inOrder_start _ _ _ _)) htick

end Running

/-! ## The reported program counter -/

/-- The program counter that `gdb_getregs` reports, as the number that its four bytes stand for. -/
def Machine.reportedPc (m : Machine) : BitVec 32 :=
  BitVec.ofNat 32 (littleEndian (m.regBytes.drop 35))

/-- It counts bytes. -/
theorem reportedPc_toNat (m : Machine) : m.reportedPc.toNat = 2 * m.pc.toNat % 2 ^ 23 := by
  obtain ⟨h₀, h₁, h₂⟩ := pcBytes_toNat m.pc
  have hdrop : m.regBytes.drop 35 = [(m.pc <<< 1 &&& 0xff).setWidth 8,
      (m.pc >>> 7 &&& 0xff).setWidth 8, (m.pc >>> 15 &&& 0x7f).setWidth 8, 0] := rfl
  rw [Machine.reportedPc, hdrop, BitVec.toNat_ofNat]
  simp only [littleEndian, h₀, h₁, h₂, show (0 : Byte).toNat = 0 from rfl]
  omega

theorem reportedPc_eq (h : m.PcInRange) : m.reportedPc.toNat = 2 * m.pc.toNat := by
  have hlt := Nat.lt_of_lt_of_le h (pcLimit_le m.toCore)
  rw [reportedPc_toNat]
  omega

/-! ## Going on -/

/-- What the emulator loop looks at, when a client is there and has told it to go on. -/
structure Emu.Resumed (e : Emu) : Prop where
  connected_eq : e.connected = true
  off_eq : e.off = false
  replayMode_eq : e.replayMode = false
  stepone_eq : e.stepone = false

/-- The emulator with another machine and with what has been traced on the way to it. -/
def Emu.arrived (e : Emu) (m : Machine) (tracefile : Option (List Byte)) : Emu :=
  { e with machine := m, tracefile := tracefile }

theorem Emu.Resumed.arrived (h : e.Resumed) (m : Machine) (tracefile : Option (List Byte)) :
    (e.arrived m tracefile).Resumed :=
  ⟨h.connected_eq, h.off_eq, h.replayMode_eq, h.stepone_eq⟩

/-- At the head of the loop the table is looked at. -/
theorem emulateTop_eq (h : e.Resumed) : emulateTop false e =
    .ok (if e.breakpoints e.machine.pc then
      (.recv, { e.sent (framed (ascii "S05")) with execute := false }) else (.run, e)) := by
  have hsend : gdbSendstr (ascii "S05") e = .ok (e.sent (framed (ascii "S05"))) :=
    gdbSendstr_eq h.connected_eq (by decide)
  have hstub : gdbstubIntr e = .ok (if e.breakpoints e.machine.pc then
      (.recv, { e.sent (framed (ascii "S05")) with execute := false }) else (.run, e)) := by
    rw [gdbstubIntr, h.connected_eq, h.stepone_eq]
    cases e.breakpoints e.machine.pc with
    | false => rfl
    | true =>
      have hsent : (e.sent (framed (ascii "S05"))).connected = true := h.connected_eq
      simp only [Bool.not_true, Bool.false_eq_true, if_false, if_true, gdbstubBreakpoint,
        h.connected_eq, require_true, ok_bind, hsend, gdbstubInteractive, hsent, pure_eq_ok]
  rw [emulateTop, h.replayMode_eq]
  simpa only [Bool.false_eq_true, if_false, Bool.false_and, h.replayMode_eq] using hstub

section Boundaries

variable [DesLibrary]

/-- The machine at the end of its `k`-th instruction, if it comes so far and is let go on. -/
def Emu.boundary (e : Emu) : ℕ → Option Machine
  | 0 => some e.machine
  | k + 1 => (e.boundary k).bind fun m =>
    match m.step with
    | .ok m' => if e.insnlimit != 0 && e.insnlimit ≤ m'.insns then none else some m'
    | .error _ => none

/-- While there is no ^C, the stub is entered after `k` instructions, and not before. -/
def Emu.EntersStub (e : Emu) (k : ℕ) (m : Machine) : Prop :=
  ∀ envs : List Env, envs.length = 2 * k → (∀ env ∈ envs, env.ctrlc = false) →
    (∃ e', ticks envs .run e = .ok (.recv, e') ∧ e'.machine = m) ∧
    ∀ n < 2 * k, ∃ p e', ticks (envs.take n) .run e = .ok (p, e') ∧ p ≠ .recv

/-- The rest of the loop executes one instruction. -/
theorem emulateRun_eq (h : e.Resumed) (m : Machine) (tracefile : Option (List Byte)) :
    ∃ tracefile', emulateRun (e.arrived m tracefile) =
      match m.step with
      | .ok m' => .ok (if e.insnlimit != 0 && e.insnlimit ≤ m'.insns then .stopped else .top,
          e.arrived m' tracefile')
      | .error a => .error a := by
  obtain ⟨tracefile', hemulate⟩ := emulate1_eq_step (e.arrived m tracefile)
  have hmachine : (e.arrived m tracefile).machine = m := rfl
  refine ⟨tracefile', ?_⟩
  rw [emulateRun, (h.arrived m tracefile).replayMode_eq, (h.arrived m tracefile).off_eq, hemulate,
    hmachine]
  simp only [Bool.false_and, Bool.false_eq_true, if_false]
  cases m.step with
  | error a => rfl
  | ok m' =>
    simp only [ok_bind, Emu.arrived, h.off_eq, Bool.false_eq_true, if_false]
    split <;> rfl

/-- An instruction leads to the next boundary, and without one the loop is not taken up again. -/
theorem emulateRun_arrived {k : ℕ} (h : e.Resumed) (hk : e.boundary k = some m)
    (tracefile : Option (List Byte)) :
    (∃ m' tracefile', e.boundary (k + 1) = some m' ∧
      emulateRun (e.arrived m tracefile) = .ok (.top, e.arrived m' tracefile')) ∨
    e.boundary (k + 1) = none ∧ ((∃ a, emulateRun (e.arrived m tracefile) = .error a) ∨
      ∃ e', emulateRun (e.arrived m tracefile) = .ok (.stopped, e')) := by
  obtain ⟨tracefile', hrun⟩ := emulateRun_eq h m tracefile
  rw [hrun, Emu.boundary, hk, Option.bind_some]
  cases m.step with
  | error a => exact Or.inr ⟨rfl, Or.inl ⟨a, rfl⟩⟩
  | ok m' =>
    dsimp only
    by_cases hlimit : (e.insnlimit != 0 && e.insnlimit ≤ m'.insns) = true
    · rw [if_pos hlimit, if_pos hlimit]
      exact Or.inr ⟨rfl, Or.inr ⟨_, rfl⟩⟩
    · rw [if_neg hlimit, if_neg hlimit]
      exact Or.inl ⟨m', tracefile', rfl, rfl⟩

/-- Two ticks, from one boundary to the next. -/
theorem ticks_turn_arrived {k : ℕ} (h : e.Resumed) (hk : e.boundary k = some m)
    (hnext : e.boundary (k + 1) = some m') (tracefile : Option (List Byte)) :
    ∃ tracefile', ∀ a b : Env, b.ctrlc = false →
      ticks [a] .run (e.arrived m tracefile) = .ok (.top, e.arrived m' tracefile') ∧
      ticks [a, b] .run (e.arrived m tracefile) = .ok (if e.breakpoints m'.pc then
        (.recv, { (e.arrived m' tracefile').sent (framed (ascii "S05")) with execute := false })
        else (.run, e.arrived m' tracefile')) := by
  rcases emulateRun_arrived h hk tracefile with ⟨m₁, tracefile', hsome, hrun⟩ | ⟨hnone, -⟩
  · obtain rfl := Option.some.inj (hnext.symm.trans hsome)
    refine ⟨tracefile', fun a b hquiet => ?_⟩
    have hfirst : tick a .run (e.arrived m tracefile) = .ok (.top, e.arrived m' tracefile') := hrun
    have hsecond : tick b .top (e.arrived m' tracefile') = emulateTop false _ :=
      congrArg (emulateTop · _) hquiet
    constructor
    · rw [ticks, hfirst]
      rfl
    · rw [ticks, hfirst]
      dsimp only
      rw [ticks, hsecond, emulateTop_eq (h.arrived m' tracefile')]
      rfl
  · cases hnext.symm.trans hnone

omit [DesLibrary] in
theorem exists_quiet (n : ℕ) :
    ∃ envs : List Env, envs.length = n ∧ ∀ env ∈ envs, env.ctrlc = false :=
  ⟨List.replicate n ⟨false, .wouldBlock⟩, List.length_replicate, fun env henv => by
    rw [List.eq_of_mem_replicate henv]⟩

omit [DesLibrary] in
/-- The contributions to the last two ticks. -/
theorem exists_last_two {k : ℕ} {envs : List Env} (hlen : envs.length = k + 2)
    (hquiet : ∀ env ∈ envs, env.ctrlc = false) : ∃ before a b, envs = before ++ [a, b] ∧
      before.length = k ∧ (∀ env ∈ before, env.ctrlc = false) ∧ a.ctrlc = false ∧
      b.ctrlc = false := by
  obtain ⟨a, b, hdrop⟩ : ∃ a b, envs.drop k = [a, b] := by
    apply List.length_eq_two.mp
    rw [List.length_drop]
    omega
  have hlast : ∀ env ∈ [a, b], env.ctrlc = false := by
    intro env henv
    rw [← hdrop] at henv
    exact hquiet env (List.mem_of_mem_drop henv)
  refine ⟨envs.take k, a, b, ?_, ?_, fun env henv => hquiet env (List.mem_of_mem_take henv),
    hlast a (by simp), hlast b (by simp)⟩
  · rw [← hdrop, List.take_append_drop]
  · rw [List.length_take]
    omega

/-- After `k` instructions the machine is let go on. -/
def Emu.Passes (e : Emu) (k : ℕ) (m : Machine) : Prop :=
  ∀ envs : List Env, envs.length = 2 * k → (∀ env ∈ envs, env.ctrlc = false) →
    ∃ tracefile, ticks envs .run e = .ok (.run, e.arrived m tracefile)

/-- From a boundary that is passed the machine goes on to the next, where the table is looked at. -/
theorem Emu.Passes.turn {k : ℕ} {envs : List Env} (hpasses : e.Passes k m) (h : e.Resumed)
    (hk : e.boundary k = some m) (hnext : e.boundary (k + 1) = some m')
    (hlen : envs.length = 2 * (k + 1)) (hquiet : ∀ env ∈ envs, env.ctrlc = false) :
    ∃ tracefile, ticks envs .run e = .ok (if e.breakpoints m'.pc then
      (.recv, { (e.arrived m' tracefile).sent (framed (ascii "S05")) with execute := false })
      else (.run, e.arrived m' tracefile)) := by
  obtain ⟨before, a, b, rfl, hbefore, hquiet, -, hb⟩ := exists_last_two hlen hquiet
  obtain ⟨tracefile, hticks⟩ := hpasses before hbefore hquiet
  obtain ⟨tracefile', hturn⟩ := ticks_turn_arrived h hk hnext tracefile
  refine ⟨tracefile', ?_⟩
  rw [ticks_append, hticks]
  exact (hturn a b hb).2

/-- The machine passes from boundary to boundary while the table has none of them. -/
theorem passes_boundary {k : ℕ} (h : e.Resumed) (hk : e.boundary k = some m)
    (hfree : ∀ j b, 0 < j → j ≤ k → e.boundary j = some b → ¬ e.breakpoints b.pc = true) :
    e.Passes k m := by
  induction k generalizing m with
  | zero =>
    intro envs hlen _
    obtain rfl := List.length_eq_zero_iff.mp hlen
    obtain rfl := Option.some.inj hk
    exact ⟨e.tracefile, rfl⟩
  | succ k ih =>
    intro envs hlen hquiet
    obtain ⟨m₁, hk₁, -⟩ := Option.bind_eq_some_iff.mp hk
    have hpasses := ih hk₁ fun j b hj hle => hfree j b hj (Nat.le_succ_of_le hle)
    obtain ⟨tracefile, hticks⟩ := hpasses.turn h hk₁ hk hlen hquiet
    rw [if_neg (hfree _ _ (Nat.succ_pos k) (Nat.le_refl _) hk)] at hticks
    exact ⟨tracefile, hticks⟩

/-- Before a boundary there are all the earlier ones. -/
theorem boundary_of_le {j k : ℕ} (hk : e.boundary k = some m) (hle : j ≤ k) :
    ∃ b, e.boundary j = some b := by
  induction k generalizing m with
  | zero => exact ⟨m, Nat.le_zero.mp hle ▸ hk⟩
  | succ k ih =>
    obtain ⟨m₁, hk₁, -⟩ := Option.bind_eq_some_iff.mp hk
    rcases Nat.le_succ_iff.mp hle with hlt | rfl
    · exact ih hk₁ hlt
    · exact ⟨m, hk⟩

/-- On the way to a boundary the stub is not entered. -/
theorem ticks_take {k n : ℕ} {envs : List Env} (h : e.Resumed) (hk : e.boundary k = some m)
    (hfree : ∀ j b, 0 < j → j < k → e.boundary j = some b → ¬ e.breakpoints b.pc = true)
    (hlen : envs.length = 2 * k) (hquiet : ∀ env ∈ envs, env.ctrlc = false) (hn : n < 2 * k) :
    ∃ p e', ticks (envs.take n) .run e = .ok (p, e') ∧ p ≠ .recv := by
  obtain ⟨i, hi⟩ : ∃ i, n = 2 * i ∨ n = 2 * i + 1 := ⟨n / 2, by omega⟩
  obtain ⟨b, hb⟩ := boundary_of_le hk (show i ≤ k by omega)
  have htake : (envs.take (2 * i)).length = 2 * i := by
    rw [List.length_take]
    omega
  obtain ⟨tracefile, hticks⟩ :=
    passes_boundary h hb (fun j b hj hle => hfree j b hj (by omega)) _ htake
      fun env henv => hquiet env (List.mem_of_mem_take henv)
  rcases hi with rfl | rfl
  · exact ⟨.run, _, hticks, fun heq => by cases heq⟩
  · obtain ⟨b', hb'⟩ := boundary_of_le hk (show i + 1 ≤ k by omega)
    obtain ⟨tracefile', hturn⟩ := ticks_turn_arrived h hb hb' tracefile
    have hlt : 2 * i < envs.length := by omega
    refine ⟨.top, e.arrived b' tracefile', ?_, fun heq => by cases heq⟩
    rw [List.take_succ_eq_append_getElem hlt, ticks_append, hticks]
    exact (hturn _ _ (hquiet _ (List.getElem_mem hlt))).1

/-- At the first boundary that the table has the stub is entered. -/
theorem FirstTime.entersStub {k : ℕ} (h : e.Resumed)
    (hfirst : FirstTime e.boundary (fun m => e.breakpoints m.pc = true) k m) :
    e.EntersStub k m := by
  obtain ⟨k, rfl⟩ := Nat.exists_eq_succ_of_ne_zero hfirst.pos.ne'
  intro envs hlen hquiet
  refine ⟨?_, fun n hn => ticks_take h hfirst.state_eq hfirst.before hlen hquiet hn⟩
  obtain ⟨m₁, hk₁, -⟩ := Option.bind_eq_some_iff.mp hfirst.state_eq
  have hpasses :=
    passes_boundary h hk₁ fun j b hj hle => hfirst.before j b hj (Nat.lt_succ_of_le hle)
  obtain ⟨tracefile, hticks⟩ := hpasses.turn h hk₁ hfirst.state_eq hlen hquiet
  rw [if_pos hfirst.holds] at hticks
  exact ⟨_, hticks, rfl⟩

/-- Where the machine does not come to a next boundary, the stub is not entered any more. -/
theorem ticks_broken {k : ℕ} {envs : List Env} (hpasses : e.Passes k m) (h : e.Resumed)
    (hk : e.boundary k = some m) (hnext : e.boundary (k + 1) = none) (hlen : 2 * k < envs.length)
    (hquiet : ∀ env ∈ envs, env.ctrlc = false) (e' : Emu) :
    ticks envs .run e ≠ .ok (.recv, e') := by
  have htake : (envs.take (2 * k)).length = 2 * k := by
    rw [List.length_take]
    omega
  obtain ⟨tracefile, hticks⟩ :=
    hpasses _ htake fun env henv => hquiet env (List.mem_of_mem_take henv)
  have htick : tick envs[2 * k] .run (e.arrived m tracefile) =
    emulateRun (e.arrived m tracefile) := rfl
  rw [← List.take_append_drop (2 * k) envs, ticks_append, hticks, List.drop_eq_getElem_cons hlen]
  dsimp only
  rw [ticks, htick]
  rcases emulateRun_arrived h hk tracefile with ⟨m', tracefile', hsome, -⟩ | ⟨-, hrun⟩
  · cases hnext.symm.trans hsome
  · rcases hrun with ⟨a, hrun⟩ | ⟨e₁, hrun⟩
    · rw [hrun]
      exact fun heq => by cases heq
    · rw [hrun]
      dsimp only
      rw [ticks_stopped]
      exact fun heq => by cases heq

/-- The stub is entered where the program counter is in the table for the first time. -/
theorem entersStub_iff {k : ℕ} (h : e.Resumed) : e.EntersStub k m ↔
    FirstTime e.boundary (fun m => e.breakpoints m.pc = true) k m := by
  refine ⟨fun henters => ?_, FirstTime.entersStub h⟩
  obtain ⟨envs, hlen, hquiet⟩ := exists_quiet (2 * k)
  obtain ⟨⟨e', hticks, hmachine⟩, hbefore⟩ := henters envs hlen hquiet
  have hfree : ∀ j b, 0 < j → j < k → e.boundary j = some b → ¬ e.breakpoints b.pc = true := by
    intro j b hj hlt hb hbreak
    obtain ⟨i, c, hi, hfirst⟩ :=
      FirstTime.exists_le (P := fun m : Machine => e.breakpoints m.pc = true) hj hb hbreak
    have htake : (envs.take (2 * i)).length = 2 * i := by
      rw [List.length_take]
      omega
    obtain ⟨⟨e₁, hticks₁, -⟩, -⟩ := FirstTime.entersStub h hfirst _ htake
      fun env henv => hquiet env (List.mem_of_mem_take henv)
    obtain ⟨p, e₂, hticks₂, hne⟩ := hbefore (2 * i) (by omega)
    cases hticks₁.symm.trans hticks₂
    exact hne rfl
  have hreached (j : ℕ) (hj : j ≤ k) : ∃ b, e.boundary j = some b := by
    induction j with
    | zero => exact ⟨e.machine, rfl⟩
    | succ j ih =>
      obtain ⟨b, hb⟩ := ih (by omega)
      have hpasses := passes_boundary h hb fun i c hi hle => hfree i c hi (by omega)
      cases hnext : e.boundary (j + 1) with
      | some b' => exact ⟨b', rfl⟩
      | none => exact absurd hticks (ticks_broken hpasses h hb hnext (by omega) hquiet e')
  cases k with
  | zero =>
    obtain rfl := List.length_eq_zero_iff.mp hlen
    cases hticks
  | succ k =>
    obtain ⟨m₁, hk₁⟩ := hreached k (Nat.le_succ k)
    obtain ⟨m₂, hk₂⟩ := hreached (k + 1) (Nat.le_refl _)
    have hpasses := passes_boundary h hk₁ fun j b hj hle => hfree j b hj (Nat.lt_succ_of_le hle)
    obtain ⟨tracefile, hturn⟩ := hpasses.turn h hk₁ hk₂ hlen hquiet
    rw [hticks] at hturn
    split at hturn
    · next hbreak =>
      cases hturn
      exact ⟨Nat.succ_pos k, hmachine ▸ hk₂, hmachine ▸ hbreak, hfree⟩
    · cases hturn

/-- A `c` packet lets the machine go on as it is. -/
theorem resumed_of_continue {env : Env} (hlistening : Listening e')
    (hanswering : Answering (.scan bp ep) e) (hinv : InOrder us (.scan bp ep) e)
    (hcont : command (e.clientbuf.drop bp) = some (ascii "c"))
    (hrun : tick env (.scan bp ep) e = .ok (.run, e')) :
    e'.Resumed ∧ e'.machine = e.machine := by
  obtain ⟨hstep, hreplay⟩ := hanswering.idle rfl
  obtain ⟨buf, log, e₁, buf', n, heffect, rfl⟩ := hinv.effect_of_run hrun
  rw [hcont] at heffect
  have hstep₁ : e₁.stepone = false := heffect.stepone_eq.trans (by rw [hstep]; rfl)
  have hreplay₁ : e₁.replayMode = false := (congrArg Prod.fst heffect.replay_eq).trans hreplay
  have hmachine₁ : e₁.machine = e.machine := heffect.machine_eq (by decide) (by decide)
  exact ⟨⟨hlistening.connected_eq, hlistening.off_eq, hreplay₁, hstep₁⟩, hmachine₁⟩

/-- From an accepted `c` packet on, the emulator stops at the first boundary at which the reported
program counter is among the addresses that were asked for, and not before, if and only if the
first boundary at which the program counter or the reported one is among them has both there. -/
theorem breakpoints_stop_iff {m₀ : Machine} {insnlimit : ℕ} {tracehex : Bool}
    {tracefile : Option (List Byte)} {env : Env}
    (h : Served (Emu.attached m₀ insnlimit tracehex tracefile) us (.scan bp ep) e)
    (hcont : command (e.clientbuf.drop bp) = some (ascii "c"))
    (hrun : tick env (.scan bp ep) e = .ok (.run, e')) :
    e'.machine = e.machine ∧
    ((∀ k m, e'.EntersStub k m ↔ FirstTime e'.boundary
        (fun m => askedBreakpoints e'.handled m.reportedPc = true) k m) ↔
      ∀ k m, FirstTime e'.boundary (fun m => askedBreakpoints e'.handled m.pc = true ∨
          askedBreakpoints e'.handled m.reportedPc = true) k m →
        askedBreakpoints e'.handled m.pc = true ∧
        askedBreakpoints e'.handled m.reportedPc = true) := by
  have hinv := h.inOrder (inOrder_start _ _ _ _)
  have hlistening := h.listening.tick hinv hrun
  obtain ⟨hresumed, hmachine⟩ := resumed_of_continue hlistening h.answering hinv hcont hrun
  refine ⟨hmachine, ?_⟩
  simp only [entersStub_iff hresumed, ← hlistening.breakpoints_eq]
  exact FirstTime.congr_iff

end Boundaries

section Sessions

attribute [local instance] idleDes

/-- A jump to itself. -/
def loopMachine : Machine := Machine.powerOn fun _ => 0xcfff

/-- A client that sets a breakpoint at address zero and goes on. -/
def zeroPackets : List (List Byte) := [framed (ascii "Z0,0,2"), framed (ascii "c")]

/-- At address zero words and bytes agree. -/
theorem breakpoints_stop_iff_loop :
    ∃ e, Served (Emu.attached loopMachine 0 false none) zeroPackets .run e ∧
      e.EntersStub 1 loopMachine.next := by
  have hsent : ∀ u ∈ zeroPackets, IsSent u := by
    intro u hu
    rcases List.mem_cons.mp hu with rfl | hu
    · exact Or.inr ⟨ascii "$Z0,0,2", 0x34, 0x34, rfl, by decide⟩
    · obtain rfl := List.mem_singleton.mp hu
      exact Or.inr ⟨ascii "$c", 0x36, 0x33, rfl, by decide⟩
  let quiet : Env := ⟨false, .wouldBlock⟩
  let session : List Env := [quiet, ⟨false, .data zeroPackets.flatten⟩, quiet]
  have hstop : Served (Emu.attached loopMachine 0 false none) [] .recv _ :=
    .tick quiet .start rfl rfl
  have hrecv : Served (Emu.attached loopMachine 0 false none) zeroPackets _ _ :=
    .tick ⟨false, .data zeroPackets.flatten⟩ hstop ⟨rfl, hsent, by decide⟩ rfl
  obtain ⟨e, hticks, hcont, hset⟩ : ∃ e,
      ticks session .top (Emu.attached loopMachine 0 false none) = .ok (.scan 10 15, e) ∧
      command (e.clientbuf.drop 10) = some (ascii "c") ∧
      Served (Emu.attached loopMachine 0 false none) zeroPackets (.scan 10 15) e :=
    ⟨_, rfl, rfl, .tick quiet hrecv rfl rfl⟩
  obtain ⟨e', hrun, hnext, hhandled⟩ : ∃ e',
      ticks (session ++ [quiet]) .top (Emu.attached loopMachine 0 false none) = .ok (.run, e') ∧
      e'.boundary 1 = some loopMachine.next ∧ e'.handled = zeroPackets := ⟨_, rfl, rfl, rfl⟩
  rw [ticks_append, hticks] at hrun
  dsimp only at hrun
  rw [ticks_singleton] at hrun
  have hword : askedBreakpoints e'.handled loopMachine.next.pc = true := by
    rw [hhandled]
    rfl
  have hbyte : askedBreakpoints e'.handled loopMachine.next.reportedPc = true := by
    rw [hhandled]
    rfl
  refine ⟨e', .tick quiet hset rfl hrun, ?_⟩
  refine ((breakpoints_stop_iff hset hcont hrun).2.mpr ?_ 1 loopMachine.next).mpr
    ⟨Nat.one_pos, hnext, hbyte, fun j _ hj hlt => by omega⟩
  intro k m hfirst
  obtain ⟨-, rfl⟩ := hfirst.unique
    ⟨Nat.one_pos, hnext, Or.inl hword, fun j _ hj hlt => by omega⟩
  exact ⟨hword, hbyte⟩

/-- A client that sets a breakpoint at byte address 4 and goes on. The emulator passes that address
and stops at 8, which is word address 4. -/
theorem breakpoint_missed :
    let quiet : Env := ⟨false, .wouldBlock⟩
    let session := quiet :: ⟨false, .data (framed (ascii "Z0,4,2") ++ framed (ascii "c"))⟩ ::
      [quiet, quiet]
    let e := Emu.attached (Machine.powerOn fun _ => 0) 0 false none
    (ticks (session ++ List.replicate 4 quiet) .top e).map
      (fun r => (r.1, r.2.machine.reportedPc)) = .ok (.run, 4) ∧
    (ticks (session ++ List.replicate 8 quiet) .top e).map
      (fun r => (r.1, r.2.machine.reportedPc)) = .ok (.recv, 8) := ⟨rfl, rfl⟩

end Sessions

end AvrEmu
