import AvrEmu.Gdb.Serve
import AvrEmu.Run

/-!
# What a packet can do

Every handler sends one answer, and each changes a few variables only: `G` and `M` the machine,
`Z0` and `z0` the breakpoints, the commands that resume the execution the flags that the
emulator loop looks at.
-/

namespace AvrEmu

variable {e e' : Emu} {s t cmd text extra : List Byte} {asked : Option (List Byte)}

/-- The answer reports that execution has stopped. -/
def Event.isStop : Event → Bool
  | .send t => (ascii "$S05").isPrefixOf t || (ascii "$T05").isPrefixOf t
  | .packet _ => false

/-- The command that the packet at the head of the buffer asks for: the command of the table entry
that fits it, if it starts with `$` and its checksum is right. -/
def command (s : List Byte) : Option (List Byte) :=
  match s.idxOf? 0x23 with
  | none => none
  | some p =>
    if s.headD 0 = 0x24 ∧ scanCksum (s.drop p) = some ((gdbCksum s.tail (p - 1)).setWidth 32)
    then (findCmd (s.tail.set (p - 1) 0)).map (·.cmd)
    else none

/-- The command makes the emulator go on; there is no going back from the first instruction. -/
def resumes (insns : ℕ) (asked : Option (List Byte)) : Bool :=
  asked == some (ascii "c") || asked == some (ascii "s") ||
    (asked == some (ascii "bs") && decide (0 < insns))

/-- The commands that are answered at once as a stop is. -/
def stopsAtOnce (asked : Option (List Byte)) : Bool :=
  asked == some (ascii "s") || asked == some (ascii "bs") || asked == some (ascii "?")

/-- The state after an answer. -/
def Emu.sent (e : Emu) (t : List Byte) : Emu := { e with log := e.log ++ [.send t] }

/-- What a command does. -/
structure Effect (asked : Option (List Byte)) (e e' : Emu) : Prop where
  frame : e' = { e with
    machine := e'.machine
    replayMode := e'.replayMode
    insnreplaylim := e'.insnreplaylim
    stepone := e'.stepone
    execute := e'.execute
    breakpoints := e'.breakpoints
    log := e'.log }
  core_eq : e'.machine.toCore = { e.machine.toCore with pc := e'.machine.pc }
  machine_eq : asked ≠ some (ascii "G") → asked ≠ some (ascii "M") → e'.machine = e.machine
  breakpoints_eq : asked ≠ some (ascii "Z0") → asked ≠ some (ascii "z0") →
    e'.breakpoints = e.breakpoints
  execute_eq : e.execute = false → e'.execute = resumes e.machine.insns asked
  stepone_eq : e'.stepone = (e.stepone || asked == some (ascii "s"))
  replay_eq : (e'.replayMode, e'.insnreplaylim) =
    if asked = some (ascii "bs") ∧ 0 < e.machine.insns then (true, e.machine.insns - 1)
    else (e.replayMode, e.insnreplaylim)
  replies : ∃ evs, e'.log = e.log ++ evs ∧ (∀ ev ∈ evs, ∃ t, ev = .send t) ∧
    evs.countP Event.isStop = (stopsAtOnce asked).toNat

theorem Effect.insns_eq (h : Effect asked e e') : e'.machine.insns = e.machine.insns := by
  rw [h.core_eq]

/-! ## The handlers -/

/-- The report of a stop begins with one of two letters. -/
theorem isStop_eq_false {c : Byte} (hS : c ≠ 0x53) (hT : c ≠ 0x54) (t : List Byte) :
    (Event.send (0x24 :: c :: t)).isStop = false := by
  have hS' : ((0x53 : Byte) == c) = false := beq_false_of_ne hS.symm
  have hT' : ((0x54 : Byte) == c) = false := beq_false_of_ne hT.symm
  change ((0x24 : Byte) == 0x24 && ((0x53 : Byte) == c && _) ||
    (0x24 : Byte) == 0x24 && ((0x54 : Byte) == c && _)) = false
  rw [hS', hT', Bool.false_and, Bool.false_and, Bool.and_false, Bool.or_false]

/-- An answer is sent as one packet; it reports a stop only if its text does. -/
theorem exists_sent (h : gdbSendstr s e = .ok e') : ∃ t, e' = e.sent t ∧
    (s.head? ≠ some 0x53 → s.head? ≠ some 0x54 → (Event.send t).isStop = false) := by
  obtain ⟨-, hconn, h⟩ := bind_eq_ok h
  dsimp only at h
  split at h
  · obtain ⟨-, -, h⟩ := bind_eq_ok h
    refine ⟨_, (Except.ok.inj h).symm, fun hS hT => ?_⟩
    obtain ⟨rest, hrest⟩ : ∃ rest, ((framed s).take 4095 ++ [0]).take (framed s).length =
        0x24 :: s.head?.getD 0x23 :: rest := by
      rw [framed_eq]
      cases s with
      | nil => exact ⟨_, rfl⟩
      | cons c s => exact ⟨_, rfl⟩
    rw [hrest]
    cases hhead : s.head? with
    | none => rfl
    | some c =>
      rw [hhead] at hS hT
      exact isStop_eq_false (fun heq => hS (congrArg some heq))
        (fun heq => hT (congrArg some heq)) _
  · cases h

theorem isDigit_ne {c : Byte} (h : Hex.isDigit c = true) :
    some c ≠ some 0x53 ∧ some c ≠ some 0x54 := by
  constructor
  · rintro ⟨⟩
    cases h
  · rintro ⟨⟩
    cases h

/-- Text in hexadecimal does not look like the report of a stop. -/
theorem head_bytes (bs : List Byte) :
    (Hex.bytes bs).head? ≠ some 0x53 ∧ (Hex.bytes bs).head? ≠ some 0x54 := by
  cases bs with
  | nil => exact ⟨by decide, by decide⟩
  | cons b bs =>
    have hlt := b.isLt
    exact isDigit_ne (Hex.isDigit_digit (show b.toNat / 16 < 16 by omega))

/-- An answer that is no report of a stop. -/
def Emu.Answers (e e' : Emu) : Prop := ∃ t, e' = e.sent t ∧ (Event.send t).isStop = false

theorem gdbSendstr_answers (h : gdbSendstr s e = .ok e') (hS : s.head? ≠ some 0x53)
    (hT : s.head? ≠ some 0x54) : e.Answers e' := by
  obtain ⟨t, heq, hstop⟩ := exists_sent h
  exact ⟨t, heq, hstop hS hT⟩

theorem gdbGetregs_answers (h : gdbGetregs cmd extra e = .ok e') : e.Answers e' := by
  have hhead : e.machine.regText.head? ≠ some 0x53 ∧ e.machine.regText.head? ≠ some 0x54 := by
    have hlt := (e.machine.memory 0).isLt
    exact isDigit_ne (Hex.isDigit_digit (show (e.machine.memory 0).toNat / 16 < 16 by omega))
  exact gdbSendstr_answers h hhead.1 hhead.2

/-- What is read of flash is text in hexadecimal. -/
theorem readmemLoop_bytes {flash : ℕ → Word} {start : BitVec 32} {n i : ℕ}
    (h : readmemLoop flash start n i = .ok t) : ∃ bs, bs.length = n ∧ t = Hex.bytes bs := by
  induction n generalizing i t with
  | zero =>
    cases h
    exact ⟨[], rfl, rfl⟩
  | succ n ih =>
    rw [readmemLoop] at h
    dsimp only at h
    split at h
    · cases h
    split at h
    · cases h
    obtain ⟨left, hleft, h⟩ := bind_eq_ok h
    obtain ⟨bs, rfl, rfl⟩ := ih hleft
    exact ⟨_ :: bs, List.length_cons, (Except.ok.inj h).symm⟩

theorem gdbReadmem_sends (h : gdbReadmem cmd extra e = .ok e') :
    ∃ bs, gdbSendstr (Hex.bytes bs) e = .ok e' := by
  obtain ⟨⟨start, rlen, left⟩, -, h⟩ := bind_eq_ok h
  obtain ⟨-, -, h⟩ := bind_eq_ok h
  obtain ⟨buffer, hbuffer, h⟩ := bind_eq_ok h
  obtain ⟨bs, -, rfl⟩ := readmemLoop_bytes hbuffer
  exact ⟨bs, h⟩

theorem gdbReadmem_answers (h : gdbReadmem cmd extra e = .ok e') : e.Answers e' := by
  obtain ⟨bs, h⟩ := gdbReadmem_sends h
  exact gdbSendstr_answers h (head_bytes bs).1 (head_bytes bs).2

/-- The state with other data in the machine. -/
def Emu.withData (e : Emu) (memory : ℕ → Byte) (pc : BitVec 32) : Emu :=
  { e with machine := { e.machine with memory := memory, pc := pc } }

theorem setregsLoop_eq {n i : ℕ} (h : setregsLoop n i cmd e = .ok (t, e')) :
    ∃ memory, e' = e.withData memory e.machine.pc := by
  induction n generalizing i cmd e with
  | zero =>
    cases h
    exact ⟨_, rfl⟩
  | succ n ih =>
    obtain ⟨-, -, h⟩ := bind_eq_ok h
    obtain ⟨⟨reglo, left⟩, -, h⟩ := bind_eq_ok h
    obtain ⟨memory, rfl⟩ := ih h
    exact ⟨memory, rfl⟩

theorem gdbSetregs_sends (h : gdbSetregs cmd extra e = .ok e') :
    ∃ memory pc, gdbSendstr (ascii "OK") (e.withData memory pc) = .ok e' := by
  obtain ⟨⟨left, e₁⟩, hloop, h⟩ := bind_eq_ok h
  obtain ⟨memory, rfl⟩ := setregsLoop_eq hloop
  obtain ⟨-, -, h⟩ := bind_eq_ok h
  obtain ⟨s, -, h⟩ := bind_eq_ok h
  obtain ⟨-, -, h⟩ := bind_eq_ok h
  obtain ⟨lo, -, h⟩ := bind_eq_ok h
  obtain ⟨hi, -, h⟩ := bind_eq_ok h
  obtain ⟨-, -, h⟩ := bind_eq_ok h
  obtain ⟨p₀, -, h⟩ := bind_eq_ok h
  obtain ⟨p₁, -, h⟩ := bind_eq_ok h
  obtain ⟨p₂, -, h⟩ := bind_eq_ok h
  obtain ⟨p₃, -, h⟩ := bind_eq_ok h
  obtain ⟨-, -, h⟩ := bind_eq_ok h
  obtain ⟨-, -, h⟩ := bind_eq_ok h
  exact ⟨_, _, h⟩

theorem gdbSetregs_answers (h : gdbSetregs cmd extra e = .ok e') :
    ∃ memory pc, (e.withData memory pc).Answers e' := by
  obtain ⟨memory, pc, h⟩ := gdbSetregs_sends h
  exact ⟨memory, pc, gdbSendstr_answers h (by decide) (by decide)⟩

theorem writememLoop_withData {start : BitVec 32} {n i : ℕ}
    (h : writememLoop start n i cmd e = .ok e') :
    ∃ memory, e' = e.withData memory e.machine.pc := by
  induction n generalizing i cmd e with
  | zero =>
    cases h
    exact ⟨_, rfl⟩
  | succ n ih =>
    obtain ⟨⟨byte, left⟩, -, h⟩ := bind_eq_ok h
    obtain ⟨memory, rfl⟩ := ih h
    exact ⟨memory, rfl⟩

theorem gdbWritemem_sends (h : gdbWritemem cmd extra e = .ok e') :
    ∃ memory pc, gdbSendstr (ascii "OK") (e.withData memory pc) = .ok e' := by
  obtain ⟨⟨start, len, left⟩, -, h⟩ := bind_eq_ok h
  dsimp only at h
  split at h
  · cases h
  · obtain ⟨e₁, hloop, h⟩ := bind_eq_ok h
    obtain ⟨memory, rfl⟩ := writememLoop_withData hloop
    exact ⟨_, _, h⟩

theorem gdbWritemem_answers (h : gdbWritemem cmd extra e = .ok e') :
    ∃ memory pc, (e.withData memory pc).Answers e' := by
  obtain ⟨memory, pc, h⟩ := gdbWritemem_sends h
  exact ⟨memory, pc, gdbSendstr_answers h (by decide) (by decide)⟩

theorem gdbAddbreak_answers (h : gdbAddbreak cmd extra e = .ok e') :
    ∃ addr, scanBreak cmd = some addr ∧
      { e with breakpoints := Function.update e.breakpoints addr true }.Answers e' := by
  obtain ⟨addr, haddr, h⟩ := bind_eq_ok h
  exact ⟨addr, demand_eq_ok haddr, gdbSendstr_answers h (by decide) (by decide)⟩

theorem gdbRembreak_answers (h : gdbRembreak cmd extra e = .ok e') :
    ∃ addr, scanBreak cmd = some addr ∧
      { e with breakpoints := Function.update e.breakpoints addr false }.Answers e' := by
  obtain ⟨addr, haddr, h⟩ := bind_eq_ok h
  exact ⟨addr, demand_eq_ok haddr, gdbSendstr_answers h (by decide) (by decide)⟩

theorem gdbConststring_answers (h : gdbConststring cmd extra e = .ok e')
    (hS : extra.head? ≠ some 0x53) (hT : extra.head? ≠ some 0x54) : e.Answers e' :=
  gdbSendstr_answers h hS hT

/-- The report of a stop is sent as it is. -/
theorem gdbSendstr_stop (h : gdbSendstr s e = .ok e') (hlen : s.length ≤ 4091) :
    e' = e.sent (framed s) := by
  obtain ⟨⟨⟩, hconn, -⟩ := bind_eq_ok h
  exact (Except.ok.inj ((gdbSendstr_eq (require_eq_ok hconn) hlen).symm.trans h)).symm

theorem gdbBstep_eq (h : gdbBstep cmd extra e = .ok e') :
    if 0 < e.machine.insns then
      e' = { e with replayMode := true, insnreplaylim := e.machine.insns - 1 }.sent
        (framed (ascii "S05"))
    else e' = { e with execute := false }.sent (framed (ascii "T05replaylog:begin;")) := by
  rw [gdbBstep] at h
  split at h
  · rename_i hpos
    rw [if_pos hpos]
    exact gdbSendstr_stop h (by decide)
  · rename_i hzero
    rw [if_neg hzero]
    obtain ⟨e₁, hsend, h⟩ := bind_eq_ok h
    have hsent := gdbSendstr_stop hsend (by decide)
    subst hsent
    exact (Except.ok.inj h).symm

/-! ## The dispatcher -/

/-- A command that neither resumes nor reports a stop changes data of the machine, breakpoints, or
nothing. -/
theorem effect_halting {c : List Byte} {m : Machine} {breakpoints : BitVec 32 → Bool}
    (hc : c ∉ [ascii "c", ascii "s", ascii "bs", ascii "?"])
    (hcore : m.toCore = { e.machine.toCore with pc := m.pc })
    (hm : some c ≠ some (ascii "G") → some c ≠ some (ascii "M") → m = e.machine)
    (hb : some c ≠ some (ascii "Z0") → some c ≠ some (ascii "z0") → breakpoints = e.breakpoints) :
    Effect (some c) e { e with machine := m, breakpoints := breakpoints, execute := false } := by
  simp only [List.mem_cons, List.not_mem_nil, or_false, not_or] at hc
  obtain ⟨hcont, hstep, hback, hquery⟩ := hc
  have hne {d : List Byte} (h : c ≠ d) : (some c == some d) = false := by
    rw [beq_eq_false_iff_ne]
    exact fun heq => h (Option.some.inj heq)
  refine ⟨rfl, hcore, hm, hb, fun _ => ?_, ?_, ?_, [], by simp, by simp, ?_⟩
  · rw [resumes, hne hcont, hne hstep, hne hback]
    rfl
  · rw [hne hstep, Bool.or_false]
  · rw [if_neg fun h => hback (Option.some.inj h.1)]
  · rw [stopsAtOnce, hne hstep, hne hback, hne hquery]
    rfl

/-- An answer that reports no stop keeps an effect as it is. -/
theorem Effect.answers {e₁ : Emu} (h : Effect asked e e₁) (ha : e₁.Answers e') :
    Effect asked e e' := by
  obtain ⟨t, rfl, hstop⟩ := ha
  obtain ⟨evs, hlog, hsends, hcount⟩ := h.replies
  refine ⟨?_, h.core_eq, h.machine_eq, h.breakpoints_eq, h.execute_eq, h.stepone_eq, h.replay_eq,
    evs ++ [.send t], ?_, ?_, ?_⟩
  · rw [Emu.sent, h.frame]
  · rw [Emu.sent, hlog, List.append_assoc]
  · intro ev hev
    rcases List.mem_append.mp hev with hev | hev
    · exact hsends ev hev
    · exact ⟨t, List.mem_singleton.mp hev⟩
  · rw [List.countP_append, hcount, List.countP_singleton, hstop]
    rfl

/-- A command whose handler only answers. -/
theorem effect_quiet {c : List Byte}
    (hc : c ∉ [ascii "c", ascii "s", ascii "bs", ascii "?"])
    (ha : { e with execute := false }.Answers e') : Effect (some c) e e' :=
  (effect_halting hc rfl (fun _ _ => rfl) fun _ _ => rfl).answers ha

/-- The commands that are answered by a stop, or resume without an answer. -/
theorem effect_step (h : gdbStep text extra { e with execute := true } = .ok e') :
    Effect (some (ascii "s")) e e' := by
  obtain rfl := gdbSendstr_stop h (by decide)
  exact ⟨rfl, rfl, fun _ _ => rfl, fun _ _ => rfl, fun _ => rfl, (Bool.or_true _).symm, rfl,
    [_], rfl, by simp, rfl⟩

theorem effect_query (h : gdbConststring text (ascii "S05") { e with execute := false } = .ok e') :
    Effect (some (ascii "?")) e e' := by
  obtain rfl := gdbSendstr_stop h (by decide)
  exact ⟨rfl, rfl, fun _ _ => rfl, fun _ _ => rfl, fun _ => rfl, (Bool.or_false _).symm, rfl,
    [_], rfl, by simp, rfl⟩

theorem effect_bstep (h : gdbBstep text extra { e with execute := true } = .ok e') :
    Effect (some (ascii "bs")) e e' := by
  have heq := gdbBstep_eq h
  dsimp only at heq
  split_ifs at heq with hpos
  · subst heq
    refine ⟨rfl, rfl, fun _ _ => rfl, fun _ _ => rfl, fun _ => ?_, (Bool.or_false _).symm, ?_,
      [_], rfl, by simp, rfl⟩
    · simp [resumes, hpos, Emu.sent]
    · rw [if_pos ⟨rfl, hpos⟩]
      rfl
  · subst heq
    refine ⟨rfl, rfl, fun _ _ => rfl, fun _ _ => rfl, fun _ => ?_, (Bool.or_false _).symm, ?_,
      [_], rfl, by simp, rfl⟩
    · have hneq : (some (ascii "bs") == some (ascii "c")) = false := rfl
      have hneq' : (some (ascii "bs") == some (ascii "s")) = false := rfl
      rw [resumes, hneq, hneq', decide_eq_false hpos]
      rfl
    · rw [if_neg fun hback => hpos hback.2]
      rfl

theorem effect_continue (e : Emu) : Effect (some (ascii "c")) e { e with execute := true } :=
  ⟨rfl, rfl, fun _ _ => rfl, fun _ _ => rfl, fun _ => rfl, (Bool.or_false _).symm, rfl,
    [], (List.append_nil _).symm, by simp, rfl⟩

theorem effect_same (e : Emu) : Effect none e e :=
  ⟨rfl, rfl, fun _ _ => rfl, fun _ _ => rfl, id, (Bool.or_false _).symm, rfl,
    [], (List.append_nil _).symm, by simp, rfl⟩

/-- Nothing but an answer comes of a text that no table entry fits. -/
theorem effect_none (ha : e.Answers e') : Effect none e e' := (effect_same e).answers ha

/-- The dispatcher: one case for each entry of the table. -/
theorem effect_of_dispatch (h : dispatch text e = .ok e') :
    Effect ((findCmd text).map (·.cmd)) e e' := by
  unfold dispatch at h
  cases hfind : findCmd text with
  | none =>
    rw [hfind] at h
    exact effect_none (gdbSendstr_answers h (by decide) (by decide))
  | some d =>
    rw [hfind] at h
    have hmem : d ∈ gdbDisp := List.mem_of_find?_eq_some hfind
    simp only [gdbDisp, List.mem_cons, List.not_mem_nil, or_false] at hmem
    rcases hmem with
      rfl | rfl | rfl | rfl | rfl | rfl | rfl | rfl | rfl | rfl | rfl | rfl | rfl | rfl
    all_goals dsimp only at h
    · exact effect_quiet (by decide) (gdbGetregs_answers h)
    · obtain ⟨memory, pc, ha⟩ := gdbSetregs_answers h
      exact (effect_halting (m := { e.machine with memory := memory, pc := pc }) (by decide) rfl
        (fun hG => absurd rfl hG) fun _ _ => rfl).answers ha
    · exact effect_quiet (by decide) (gdbReadmem_answers h)
    · obtain ⟨memory, pc, ha⟩ := gdbWritemem_answers h
      exact (effect_halting (m := { e.machine with memory := memory, pc := pc }) (by decide) rfl
        (fun _ hM => absurd rfl hM) fun _ _ => rfl).answers ha
    · obtain ⟨addr, -, ha⟩ := gdbAddbreak_answers h
      exact (effect_halting (by decide) rfl (fun _ _ => rfl) fun hZ => absurd rfl hZ).answers ha
    · obtain ⟨addr, -, ha⟩ := gdbRembreak_answers h
      exact (effect_halting (by decide) rfl (fun _ _ => rfl) fun _ hz => absurd rfl hz).answers ha
    · exact effect_quiet (by decide) (gdbConststring_answers h (by decide) (by decide))
    · exact effect_quiet (by decide) (gdbConststring_answers h (by decide) (by decide))
    · exact effect_query h
    · exact effect_quiet (by decide) (gdbConststring_answers h (by decide) (by decide))
    · exact effect_quiet (by decide) (gdbConststring_answers h (by decide) (by decide))
    · obtain rfl := Except.ok.inj h
      exact effect_continue e
    · exact effect_step h
    · exact effect_bstep h

/-! ## A whole packet -/

theorem gdbSendraw_eq (h : gdbSendraw t e = .ok e') : e' = e.sent t := by
  obtain ⟨-, -, h⟩ := bind_eq_ok h
  exact (Except.ok.inj h).symm

/-- The command of a packet whose `#` has been found. -/
theorem command_eq {p : ℕ} (hp : s.idxOf? 0x23 = some p) : command s =
    if s.headD 0 = 0x24 ∧ scanCksum (s.drop p) = some ((gdbCksum s.tail (p - 1)).setWidth 32)
    then (findCmd (s.tail.set (p - 1) 0)).map (·.cmd) else none := by
  rw [command, hp]

/-- A packet that begins with `$` has its `#` further on. -/
theorem pos_of_head {p : ℕ} (hp : s.idxOf? 0x23 = some p) (hhead : s.headD 0 = 0x24) : 0 < p := by
  cases s with
  | nil => cases hhead
  | cons x s =>
    obtain rfl : x = 0x24 := hhead
    cases p with
    | zero => simp [List.idxOf?_cons] at hp
    | succ p => exact Nat.succ_pos p

/-- Replacing the `#` by a zero does not touch a `$`. -/
theorem head_set {p : ℕ} (hp : s.idxOf? 0x23 = some p) :
    (s.set p 0).headD 0 = 0x24 ↔ s.headD 0 = 0x24 := by
  cases s with
  | nil => cases hp
  | cons x s =>
    cases p with
    | zero =>
      constructor
      · intro hzero
        cases hzero
      · exact fun hhead => absurd (pos_of_head hp hhead) (Nat.lt_irrefl 0)
    | succ p => rfl

theorem tail_set {p : ℕ} (hpos : 0 < p) : (s.set p 0).tail = s.tail.set (p - 1) 0 := by
  obtain ⟨q, rfl⟩ := Nat.exists_eq_succ_of_ne_zero hpos.ne'
  cases s <;> rfl

/-- A packet is refused for its checksum, or it is acknowledged and answered as no command, or it
is acknowledged and goes to the dispatcher. Of the buffer at most the place of its `#` changes. -/
theorem gdbCmd_cases {c p : ℕ} (hp : (e.clientbuf.drop c).idxOf? 0x23 = some p)
    (h : gdbCmd c (c + p) e = .ok e') : ∃ buf ack e₁,
      e₁ = { e with
        clientbuf := buf
        log := e.log ++ [.packet ((e.clientbuf.drop c).take (p + 3)), .send ack] } ∧
      (buf = e.clientbuf ∨ buf = e.clientbuf.set (c + p) 0) ∧ (Event.send ack).isStop = false ∧
      ((command (e.clientbuf.drop c) = none ∧ (e' = e₁ ∨ e₁.Answers e')) ∨
        (command (e.clientbuf.drop c) =
            (findCmd ((e.clientbuf.drop c).tail.set (p - 1) 0)).map (·.cmd) ∧
          dispatch ((e.clientbuf.drop c).tail.set (p - 1) 0) e₁ = .ok e')) := by
  have hcount : c + p + 3 - c = p + 3 := by omega
  have hlength (hpos : 0 < p) : (if c < c + p then c + p - c - 1 else 2 ^ 64 - 1) = p - 1 := by
    rw [if_pos (by omega)]
    omega
  have hset : (e.clientbuf.set (c + p) 0).drop c = (e.clientbuf.drop c).set p 0 := by
    rw [List.drop_set, if_neg (by omega), Nat.add_sub_cancel_left]
  rw [command_eq hp]
  unfold gdbCmd at h
  dsimp only at h
  rw [hcount] at h
  obtain ⟨-, -, h⟩ := bind_eq_ok h
  obtain ⟨cksend, hcksend, h⟩ := bind_eq_ok h
  have hscan := demand_eq_ok hcksend
  rw [← List.drop_drop] at hscan
  generalize hsum : gdbCksum (e.clientbuf.drop c).tail
    (if c < c + p then c + p - c - 1 else 2 ^ 64 - 1) = ckcalc at h
  by_cases hwrong : (ckcalc.setWidth 32 != cksend) = true
  · rw [if_pos hwrong] at h
    obtain rfl := gdbSendraw_eq h
    refine ⟨e.clientbuf, ascii "-", _, rfl, Or.inl rfl, rfl, Or.inl ⟨?_, Or.inl ?_⟩⟩
    · rw [if_neg]
      rintro ⟨hhead, hck⟩
      rw [hlength (pos_of_head hp hhead)] at hsum
      rw [hsum, hscan] at hck
      rw [Option.some.inj hck, bne_self_eq_false] at hwrong
      cases hwrong
    · simp only [Emu.sent, List.append_assoc]
      rfl
  · rw [if_neg hwrong] at h
    obtain ⟨e₁, hack, h⟩ := bind_eq_ok h
    obtain rfl := gdbSendraw_eq hack
    refine ⟨e.clientbuf.set (c + p) 0, ascii "+", _, rfl, Or.inr rfl, rfl, ?_⟩
    simp only [Emu.sent, hset, List.append_assoc, List.cons_append, List.nil_append] at h
    by_cases hhead : (e.clientbuf.drop c).headD 0 = 0x24
    · right
      have hpos := pos_of_head hp hhead
      have hck : scanCksum ((e.clientbuf.drop c).drop p) =
          some ((gdbCksum (e.clientbuf.drop c).tail (p - 1)).setWidth 32) := by
        rw [hlength hpos] at hsum
        rw [hscan, hsum, Option.some.injEq]
        exact (by simpa using hwrong : ckcalc.setWidth 32 = cksend).symm
      rw [(head_set hp).mpr hhead, bne_self_eq_false, if_neg Bool.false_ne_true,
        tail_set hpos] at h
      rw [if_pos ⟨hhead, hck⟩]
      exact ⟨rfl, h⟩
    · left
      rw [if_neg fun hboth => hhead hboth.1]
      rw [if_pos (bne_iff_ne.mpr fun hset => hhead ((head_set hp).mp hset))] at h
      exact ⟨rfl, Or.inr (gdbSendstr_answers h (by decide) (by decide))⟩

/-- A packet has the effect of its command. -/
theorem gdbCmd_effect {c p : ℕ} (hp : (e.clientbuf.drop c).idxOf? 0x23 = some p)
    (h : gdbCmd c (c + p) e = .ok e') :
    ∃ buf ack, (buf = e.clientbuf ∨ buf = e.clientbuf.set (c + p) 0) ∧
      (Event.send ack).isStop = false ∧
      Effect (command (e.clientbuf.drop c))
        { e with
          clientbuf := buf
          log := e.log ++ [.packet ((e.clientbuf.drop c).take (p + 3)), .send ack] } e' := by
  obtain ⟨buf, ack, e₁, rfl, hbuf, hstop, ⟨hnone, rfl | ha⟩ | ⟨hasked, hdispatch⟩⟩ :=
    gdbCmd_cases hp h
  · exact ⟨buf, ack, hbuf, hstop, hnone ▸ effect_same _⟩
  · exact ⟨buf, ack, hbuf, hstop, hnone ▸ effect_none ha⟩
  · exact ⟨buf, ack, hbuf, hstop, hasked ▸ effect_of_dispatch hdispatch⟩

end AvrEmu
