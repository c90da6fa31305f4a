import AvrEmu.Breakpoints
import AvrEmu.Gdb.Checksum
import AvrEmu.Gdb.Payload

/-!
# Packets on their own

What the stub does with a packet does not depend on where in the buffer the packet lies, and if the
packet brings all the digits its handler asks for, not on what lies around it either. So a packet
can be handled as if the buffer held nothing else.
-/

namespace AvrEmu

variable {α : Type} {e e' : Emu} {s t t' payload cmd extra u rest : List Byte} {bp ep : ℕ}

/-- The variables without the buffer. -/
def Emu.unbuffered (e : Emu) : Emu := { e with clientbuf := [], cblen := 0 }

/-! ## Code that does not look at the buffer -/

/-- The result is the same whatever is in the buffer. -/
def IgnoresBuffer (f : Emu → Except Abort Emu) : Prop :=
  ∀ e, f e.unbuffered = (f e).map Emu.unbuffered

theorem ignoresBuffer_pure : IgnoresBuffer .ok := fun _ => rfl

theorem ignoresBuffer_throw (a : Abort) : IgnoresBuffer fun _ => .error a := fun _ => rfl

/-- A sequence ignores what its parts ignore. -/
theorem IgnoresBuffer.bind {f g : Emu → Except Abort Emu} (hf : IgnoresBuffer f)
    (hg : IgnoresBuffer g) : IgnoresBuffer fun e => f e >>= g := by
  intro e
  dsimp only
  rw [hf e]
  cases f e with
  | error a => rfl
  | ok e₁ => exact hg e₁

/-- So does a choice that the buffer has no part in. -/
theorem IgnoresBuffer.ite {f g : Emu → Except Abort Emu} {c : Emu → Prop} [DecidablePred c]
    (hc : ∀ e, c e.unbuffered ↔ c e) (hf : IgnoresBuffer f) (hg : IgnoresBuffer g) :
    IgnoresBuffer fun e => if c e then f e else g e := by
  intro e
  dsimp only
  by_cases h : c e
  · rw [if_pos h, if_pos ((hc e).mpr h), hf e]
  · rw [if_neg h, if_neg fun h' => h ((hc e).mp h'), hg e]

/-- An assignment of other variables. -/
theorem IgnoresBuffer.comp {f : Emu → Except Abort Emu} (hf : IgnoresBuffer f) (v : Emu → Emu)
    (hv : ∀ e, v e.unbuffered = (v e).unbuffered) : IgnoresBuffer fun e => f (v e) := by
  intro e
  dsimp only
  rw [hv e, hf (v e)]

/-- A part that yields a value. -/
theorem IgnoresBuffer.demand {f : α → Emu → Except Abort Emu} {r : Emu → Except Abort α}
    (hr : ∀ e, r e.unbuffered = r e) (hf : ∀ a, IgnoresBuffer (f a)) :
    IgnoresBuffer fun e => r e >>= fun a => f a e := by
  intro e
  dsimp only
  rw [hr e]
  cases r e with
  | error x => rfl
  | ok a => exact hf a e

theorem ignoresBuffer_sendraw (p : List Byte) : IgnoresBuffer (gdbSendraw p) :=
  .demand (r := fun e => require e.connected "x") (fun _ => rfl)
    fun _ => ignoresBuffer_pure.comp (fun e => e.sent p) fun _ => rfl

theorem ignoresBuffer_sendstr (s : List Byte) : IgnoresBuffer (gdbSendstr s) :=
  .demand (r := fun e => require e.connected "csock") (fun _ => rfl)
    fun _ => .ite (fun _ => Iff.rfl) (ignoresBuffer_sendraw _) (ignoresBuffer_throw _)

theorem ignoresBuffer_setregsLoop (n i : ℕ) (cmd : List Byte)
    {next : List Byte → Emu → Except Abort Emu} (hnext : ∀ cmd, IgnoresBuffer (next cmd)) :
    IgnoresBuffer fun e => setregsLoop n i cmd e >>= fun r => next r.1 r.2 := by
  induction n generalizing i cmd with
  | zero => exact hnext cmd
  | succ n ih =>
    have hstep (v : Byte) := (ih (i + 1) (cmd.drop 2)).comp (fun e => e.setMem i v) fun _ => rfl
    have hbody : IgnoresBuffer fun e => requireText cmd >>= fun _ =>
        AvrEmu.demand (Hex.scan (some 2) cmd) "x" >>= fun p =>
          setregsLoop n (i + 1) (cmd.drop 2) (e.setMem i (p.1.setWidth 8)) >>= fun r =>
            next r.1 r.2 :=
      .demand (fun _ => rfl) fun _ => .demand (fun _ => rfl) fun p => hstep _
    intro e
    have heq := hbody e
    simp only [setregsLoop, bind_assoc]
    exact heq

theorem ignoresBuffer_writememLoop (start : BitVec 32) (n i : ℕ) (hexs : List Byte) :
    IgnoresBuffer (writememLoop start n i hexs) := by
  induction n generalizing i hexs with
  | zero => exact ignoresBuffer_pure
  | succ n ih =>
    exact .demand (fun _ => rfl) fun p =>
      (ih (i + 1) (hexs.drop 2)).comp (fun e => e.setMem _ (p.1.setWidth 8)) fun _ => rfl

/-- The part of `G` that follows the loop. -/
theorem ignoresBuffer_setregsRest (cmd : List Byte) :
    IgnoresBuffer fun e => (setregsRestHalts cmd e).result := by
  simp only [setregsRestHalts, result_attempt, result_sendOk]
  refine .demand (fun _ => rfl) fun _ => .demand (fun _ => rfl) fun reg =>
    .demand (fun _ => rfl) fun _ => .demand (fun _ => rfl) fun lo =>
    .demand (fun _ => rfl) fun hi => .demand (fun _ => rfl) fun _ =>
    .demand (fun _ => rfl) fun p₀ => .demand (fun _ => rfl) fun p₁ =>
    .demand (fun _ => rfl) fun p₂ => .demand (fun _ => rfl) fun p₃ =>
    .demand (fun _ => rfl) fun _ => .demand (fun _ => rfl) fun _ => ?_
  exact (ignoresBuffer_sendstr (ascii "OK")).comp
    (fun e => (((e.setMem sreg _).setMem spLo _).setMem spHi _).setPc _) fun _ => rfl

theorem ignoresBuffer_setregs (cmd extra : List Byte) : IgnoresBuffer (gdbSetregs cmd extra) := by
  have heq : gdbSetregs cmd extra = fun e =>
      setregsLoop 32 0 (cmd.drop 1) e >>= fun r => (setregsRestHalts r.1 r.2).result := by
    funext e
    rw [← result_setregsHalts, setregsHalts, result_setregsLoopHalts]
  rw [heq]
  exact ignoresBuffer_setregsLoop 32 0 (cmd.drop 1) ignoresBuffer_setregsRest

theorem ignoresBuffer_writemem (cmd extra : List Byte) : IgnoresBuffer (gdbWritemem cmd extra) := by
  refine .demand (fun _ => rfl) fun r => ?_
  dsimp only
  cases Hex.literal 0x3a r.2.2 with
  | none => exact ignoresBuffer_throw _
  | some hexs => exact (ignoresBuffer_writememLoop _ _ _ _).bind (ignoresBuffer_sendstr _)

/-- No handler looks at the buffer. -/
theorem ignoresBuffer_dispatch (text : List Byte) : IgnoresBuffer (dispatch text) := by
  have hresume (b : Bool) {f : Emu → Except Abort Emu} (hf : IgnoresBuffer f) :
      IgnoresBuffer fun e => f { e with execute := b } :=
    hf.comp (fun e => { e with execute := b }) fun _ => rfl
  unfold dispatch
  cases hfind : findCmd text with
  | none => exact ignoresBuffer_sendstr []
  | some d =>
    have hmem : d ∈ gdbDisp := List.mem_of_find?_eq_some hfind
    simp only [gdbDisp, List.mem_cons, List.not_mem_nil, or_false] at hmem
    rcases hmem with
      rfl | rfl | rfl | rfl | rfl | rfl | rfl | rfl | rfl | rfl | rfl | rfl | rfl | rfl
    all_goals refine hresume _ ?_
    · intro e
      exact ignoresBuffer_sendstr e.machine.regText e
    · exact ignoresBuffer_setregs _ _
    · refine .demand (fun _ => rfl) fun r => .demand (fun _ => rfl) fun _ =>
        .demand (fun _ => rfl) fun buffer => ?_
      exact ignoresBuffer_sendstr buffer
    · exact ignoresBuffer_writemem _ _
    · refine .demand (fun _ => rfl) fun addr => ?_
      exact (ignoresBuffer_sendstr (ascii "OK")).comp
        (fun e => { e with breakpoints := Function.update e.breakpoints addr true }) fun _ => rfl
    · refine .demand (fun _ => rfl) fun addr => ?_
      exact (ignoresBuffer_sendstr (ascii "OK")).comp
        (fun e => { e with breakpoints := Function.update e.breakpoints addr false }) fun _ => rfl
    · exact ignoresBuffer_sendstr _
    · exact ignoresBuffer_sendstr _
    · exact ignoresBuffer_sendstr _
    · exact ignoresBuffer_sendstr _
    · exact ignoresBuffer_sendstr _
    · exact ignoresBuffer_pure
    · exact (ignoresBuffer_sendstr (ascii "S05")).comp (fun e => { e with stepone := true })
        fun _ => rfl
    · exact .ite (fun _ => Iff.rfl)
        ((ignoresBuffer_sendstr (ascii "S05")).comp (fun e =>
          { e with replayMode := true, insnreplaylim := e.machine.insns - 1 }) fun _ => rfl)
        ((ignoresBuffer_sendstr (ascii "T05replaylog:begin;")).bind
          (ignoresBuffer_pure.comp (fun e => { e with execute := false }) fun _ => rfl))

/-! ## What follows a packet -/

/-- A range is read before the zero byte. -/
theorem exists_scanRange_append_zero (s : List Byte) :
    ∃ r : Option (BitVec 32 × BitVec 32 × List Byte), ∀ u,
      scanRange (s ++ 0 :: u) = r.map fun p => (p.1, p.2.1, p.2.2 ++ 0 :: u) := by
  obtain ⟨r₁, -, hstart⟩ := Hex.exists_scan_append_zero s
  cases r₁ with
  | none =>
    refine ⟨none, fun u => ?_⟩
    rw [scanRange, hstart]
    rfl
  | some p₁ =>
    have hcomma := Hex.literal_append_zero (c := 0x2c) (by decide) p₁.2
    cases hl : Hex.literal 0x2c p₁.2 with
    | none =>
      refine ⟨none, fun u => ?_⟩
      simp only [scanRange, hstart, Option.map_some, Option.bind_eq_bind, Option.bind_some, hcomma,
        hl]
      rfl
    | some left =>
      obtain ⟨r₂, -, hlen⟩ := Hex.exists_scan_append_zero left
      refine ⟨r₂.map fun p₂ => (p₁.1, p₂.1, p₂.2), fun u => ?_⟩
      simp only [scanRange, hstart, Option.map_some, Option.bind_eq_bind, Option.bind_some, hcomma,
        hl, hlen]
      cases r₂ <;> rfl

theorem readmem_tail (s t t' : List Byte) (extra : List Byte) (e : Emu) :
    gdbReadmem (ascii "m" ++ s ++ 0 :: t) extra e =
      gdbReadmem (ascii "m" ++ s ++ 0 :: t') extra e := by
  obtain ⟨r, hrange⟩ := exists_scanRange_append_zero s
  have hdrop (t : List Byte) : (ascii "m" ++ s ++ 0 :: t).drop 1 = s ++ 0 :: t := rfl
  rw [gdbReadmem, gdbReadmem, hdrop, hdrop, hrange, hrange]
  cases r <;> rfl

/-- The registers are read from the digits that are there. -/
theorem setregsLoop_tail {n : ℕ} (hs : Supplies s n) (i : ℕ) (e : Emu) :
    ∃ e', ∀ t, setregsLoop n i (s ++ t) e = .ok (s.drop (2 * n) ++ t, e') := by
  induction n generalizing s i e with
  | zero => exact ⟨e, fun t => rfl⟩
  | succ n ih =>
    obtain ⟨c, d, r, rfl, hc, hd, hr⟩ := hs.cons
    obtain ⟨e', hloop⟩ := ih hr (i + 1) (e.setMem i (pairByte c d))
    refine ⟨e', fun t => ?_⟩
    rw [List.cons_append, List.cons_append, setregsLoop, requireText_digit hc, ok_bind,
      scan_pairByte hc hd, demand_some, ok_bind]
    dsimp only
    rw [setWidth_pairByte]
    exact hloop t

theorem setregsRest_tail (hs : Supplies s 7) (t t' : List Byte) (e : Emu) :
    setregsRestHalts (s ++ t) e = setregsRestHalts (s ++ t') e := by
  obtain ⟨c₀, d₀, s₀, rfl, hc₀, hd₀, hs₀⟩ := hs.cons
  obtain ⟨c₁, d₁, s₁, rfl, hc₁, hd₁, hs₁⟩ := hs₀.cons
  obtain ⟨c₂, d₂, s₂, rfl, hc₂, hd₂, hs₂⟩ := hs₁.cons
  obtain ⟨c₃, d₃, s₃, rfl, hc₃, hd₃, hs₃⟩ := hs₂.cons
  obtain ⟨c₄, d₄, s₄, rfl, hc₄, hd₄, hs₄⟩ := hs₃.cons
  obtain ⟨c₅, d₅, s₅, rfl, hc₅, hd₅, hs₅⟩ := hs₄.cons
  obtain ⟨c₆, d₆, s₆, rfl, hc₆, hd₆, -⟩ := hs₅.cons
  simp only [setregsRestHalts, List.cons_append, List.drop_succ_cons, List.drop_zero,
    requireText_digit, hc₀, hc₁, hc₃, scan_pairByte, hd₀, hd₁, hc₂, hd₂, hd₃, hc₄, hd₄, hc₅, hd₅,
    hc₆, hd₆, attempt_ok, demand_some, setWidth_pairByte]

theorem setregs_tail (hs : Supplies s 39) (t t' extra : List Byte) (e : Emu) :
    gdbSetregs (ascii "G" ++ s ++ 0 :: t) extra e =
      gdbSetregs (ascii "G" ++ s ++ 0 :: t') extra e := by
  obtain ⟨hregs, hrest⟩ := Supplies.split (n := 32) (k := 7) hs
  obtain ⟨e₁, hloop⟩ := setregsLoop_tail hregs 0 e
  have hdrop (t : List Byte) : (ascii "G" ++ s ++ 0 :: t).drop 1 = s ++ 0 :: t := rfl
  rw [← result_setregsHalts, ← result_setregsHalts, setregsHalts, setregsHalts,
    result_setregsLoopHalts, result_setregsLoopHalts, hdrop, hdrop, hloop, hloop, ok_bind, ok_bind]
  exact congrArg Halted.result (setregsRest_tail hrest _ _ e₁)

theorem writememLoop_tail {n : ℕ} (start : BitVec 32) (hs : Supplies s n) (i : ℕ) (e : Emu) :
    ∃ e', ∀ t, writememLoop start n i (s ++ t) e = .ok e' := by
  induction n generalizing s i e with
  | zero => exact ⟨e, fun t => rfl⟩
  | succ n ih =>
    obtain ⟨c, d, r, rfl, hc, hd, hr⟩ := hs.cons
    obtain ⟨e', hloop⟩ :=
      ih hr (i + 1) (e.setMem (start + BitVec.ofNat 32 i &&& 0xffff).toNat (pairByte c d))
    refine ⟨e', fun t => ?_⟩
    rw [List.cons_append, List.cons_append, writememLoop, scan_pairByte hc hd, demand_some, ok_bind]
    dsimp only
    rw [setWidth_pairByte]
    exact hloop t

theorem writemem_tail (hs : SuppliesRange s []) (t t' extra : List Byte) (e : Emu) :
    gdbWritemem (ascii "M" ++ s ++ 0 :: t) extra e =
      gdbWritemem (ascii "M" ++ s ++ 0 :: t') extra e := by
  obtain ⟨start, len, data, hwrite, hdata⟩ := hs
  obtain ⟨r, hrange⟩ := exists_scanRange_append_zero s
  have hdrop (t : List Byte) : (ascii "M" ++ s ++ 0 :: t).drop 1 = s ++ 0 :: t := rfl
  rw [gdbWritemem, gdbWritemem, hdrop, hdrop, hrange, hrange]
  cases r with
  | none => rfl
  | some p =>
    obtain ⟨start', len', left⟩ := p
    have hcolon := Hex.literal_append_zero (c := 0x3a) (by decide) left
    simp only [writeRange, hrange, Option.map_some, Option.bind_eq_bind, Option.bind_some, hcolon]
      at hwrite
    simp only [Option.map_some, demand_some, ok_bind, hcolon]
    cases hl : Hex.literal 0x3a left with
    | none => rfl
    | some hexs =>
      rw [hl] at hwrite
      simp only [Option.map_some, Option.bind_some, Option.some.injEq, Prod.mk.injEq,
        List.append_cancel_right_eq, Option.pure_def] at hwrite
      obtain ⟨rfl, rfl, rfl⟩ := hwrite
      obtain ⟨e', hloop⟩ := writememLoop_tail start' hdata 0 e
      simp only [Option.map_some, hloop]

theorem break_tail (hlen : 2 ≤ s.length) (t t' extra : List Byte) (e : Emu) :
    gdbAddbreak (s ++ 0 :: t) extra e = gdbAddbreak (s ++ 0 :: t') extra e ∧
    gdbRembreak (s ++ 0 :: t) extra e = gdbRembreak (s ++ 0 :: t') extra e := by
  have hscan := (scanBreak_append_zero hlen t).trans (scanBreak_append_zero hlen t').symm
  exact ⟨by rw [gdbAddbreak, gdbAddbreak, hscan], by rw [gdbRembreak, gdbRembreak, hscan]⟩

/-- The text of a command has all the digits that its handler asks for. -/
def TextSupplies (s : List Byte) : Prop :=
  ((findCmd s).map (·.cmd) = some (ascii "G") → Supplies (s.drop 1) 39) ∧
  ((findCmd s).map (·.cmd) = some (ascii "M") → SuppliesRange (s.drop 1) [])

/-- Such a command is carried out without a look at what follows its text. -/
theorem dispatch_tail (hs : TextSupplies s) (t t' : List Byte) (e : Emu) :
    dispatch (s ++ 0 :: t) e = dispatch (s ++ 0 :: t') e := by
  obtain ⟨hsetregs, hwritemem⟩ := hs
  unfold dispatch
  rw [findCmd_zero, findCmd_zero]
  cases hfind : findCmd s with
  | none => rfl
  | some d =>
    rw [hfind, Option.map_some] at hsetregs hwritemem
    have hinitial : d.cmd.isPrefixOf s = true := by simpa using List.find?_some hfind
    obtain ⟨rest, rfl⟩ := List.isPrefixOf_iff_prefix.mp hinitial
    have hmem : d ∈ gdbDisp := List.mem_of_find?_eq_some hfind
    simp only [gdbDisp, List.mem_cons, List.not_mem_nil, or_false] at hmem
    rcases hmem with
      rfl | rfl | rfl | rfl | rfl | rfl | rfl | rfl | rfl | rfl | rfl | rfl | rfl | rfl
    · rfl
    · exact setregs_tail (hsetregs rfl) t t' _ _
    · exact readmem_tail rest t t' _ _
    · exact writemem_tail (hwritemem rfl) t t' _ _
    · exact (break_tail (show 2 ≤ (ascii "Z0" ++ rest).length by simp [ascii]) t t' _ _).1
    · exact (break_tail (show 2 ≤ (ascii "z0" ++ rest).length by simp [ascii]) t t' _ _).2
    all_goals rfl

/-! ## One packet -/

/-- The text behind the `$` of a packet. -/
def commandText (u : List Byte) : List Byte := u.tail.takeWhile (· != 0x23)

/-- A packet that brings all the digits its handler asks for. -/
def BringsDigits (u : List Byte) : Prop := command u ≠ none → TextSupplies (commandText u)

/-- What the stub does with a packet that is alone in its buffer. -/
def handle (u : List Byte) (e : Emu) : Except Abort Emu :=
  (gdbCmd 0 (u.length - 3) { e with clientbuf := u }).map Emu.unbuffered

/-- A packet in a buffer, as a function of the buffer's other contents. -/
theorem gdbCmd_packet {a b c : Byte} {before body : List Byte}
    (h : e.Finds before (c :: body) rest a b) :
    gdbCmd before.length (before.length + (c :: body).length) e =
      let e₁ := { e with log := e.log ++ [Event.packet (c :: body ++ [0x23, a, b])] }
      if (gdbCksumstr body).toNat = Hex.number [a, b] then
        let e₂ := { e₁.sent (ascii "+") with
          clientbuf := before ++ (c :: body ++ 0 :: a :: b :: rest) }
        if c = 0x24 then dispatch (body ++ 0 :: a :: b :: rest) e₂ else gdbSendstr [] e₂
      else .ok (e₁.sent (ascii "-")) := by
  have htext : e.clientbuf.drop before.length = c :: body ++ 0x23 :: a :: b :: rest := by
    rw [h.clientbuf_eq, List.drop_left]
  have hlen : cksumLen before.length (before.length + (c :: body).length) = body.length := by
    rw [cksumLen, if_pos (by simp), List.length_cons]
    omega
  have hsum : gdbCksum (e.clientbuf.drop before.length).tail
      (cksumLen before.length (before.length + (c :: body).length)) = gdbCksumstr body := by
    rw [htext, hlen, List.cons_append, List.tail_cons, gdbCksum, List.take_left, gdbCksumstr]
  have htaken (ack : List Byte) :
      e.taken before.length (before.length + (c :: body).length) ack =
        { e with log := e.log ++ [Event.packet (c :: body ++ [0x23, a, b])] }.sent ack := by
    have hwhole : c :: body ++ 0x23 :: a :: b :: rest = c :: body ++ [0x23, a, b] ++ rest := by
      rw [List.append_assoc]
      rfl
    have hcount : before.length + (c :: body).length + 3 - before.length =
        (c :: body ++ [0x23, a, b]).length := by
      rw [List.length_append]
      simp only [List.length_cons, List.length_nil]
      omega
    rw [Emu.taken, htext, hwhole, hcount, List.take_left, Emu.sent, List.append_assoc]
    rfl
  have hset : e.clientbuf.set (before.length + (c :: body).length) 0 =
      before ++ (c :: body ++ 0 :: a :: b :: rest) := by
    rw [h.clientbuf_eq, List.set_append_right _ _ (Nat.le_add_right _ _), Nat.add_sub_cancel_left,
      List.set_append_right _ _ (Nat.le_refl _), Nat.sub_self]
    rfl
  rw [h.gdbCmd_eq, hsum, htaken, htaken]
  dsimp only
  congr 1
  rw [obey]
  simp only [Emu.sent, hset, List.drop_left, List.cons_append, List.headD_cons, List.tail_cons]
  by_cases hc : c = 0x24
  · rw [if_pos hc, if_neg (by rw [hc]; decide)]
  · rw [if_neg hc, if_pos (by rw [bne_iff_ne]; exact hc)]

theorem commandText_eq {a b c : Byte} {body : List Byte} (hbody : 0x23 ∉ body) :
    commandText (c :: body ++ [0x23, a, b]) = body := by
  have hkept : ∀ x ∈ body, (x != 0x23) = true := by
    intro x hx
    rw [bne_iff_ne]
    exact fun heq => hbody (heq ▸ hx)
  rw [commandText, List.cons_append, List.tail_cons, List.takeWhile_append_of_pos hkept,
    List.takeWhile_cons_of_neg (by decide), List.append_nil]

/-- The command of a packet that reaches the dispatcher. -/
theorem command_of_sum {a b : Byte} {body : List Byte} (hbody : 0x23 ∉ body)
    (ha : Hex.isDigit a = true) (hb : Hex.isDigit b = true)
    (hsum : (gdbCksumstr body).toNat = Hex.number [a, b]) :
    command (0x24 :: body ++ [0x23, a, b]) = (findCmd body).map (·.cmd) := by
  rw [command_packet (by decide) hbody ha hb, if_pos]
  refine ⟨rfl, congrArg some ?_⟩
  rw [gdbCksum, List.take_length, ← gdbCksumstr, ← hsum]
  exact BitVec.ofNat_toNat _ _

/-- The text of a packet that reaches the dispatcher has its digits. -/
theorem textSupplies_of_bringsDigits {a b : Byte} {body : List Byte} (hbody : 0x23 ∉ body)
    (ha : Hex.isDigit a = true) (hb : Hex.isDigit b = true)
    (hdigits : BringsDigits (0x24 :: body ++ [0x23, a, b]))
    (hsum : (gdbCksumstr body).toNat = Hex.number [a, b]) : TextSupplies body := by
  have hcommand := command_of_sum hbody ha hb hsum
  cases hfind : findCmd body with
  | none =>
    constructor
    all_goals
      intro hnone
      rw [hfind] at hnone
      cases hnone
  | some d =>
    rw [BringsDigits, hcommand, hfind, commandText_eq hbody] at hdigits
    exact hdigits (Option.some_ne_none _)

/-- What the stub does with a packet, wherever it lies. -/
theorem gdbCmd_unbuffered {a b c : Byte} {before body : List Byte}
    (h : e.Finds before (c :: body) rest a b)
    (hdigits : BringsDigits (c :: body ++ [0x23, a, b])) :
    (gdbCmd before.length (before.length + (c :: body).length) e).map Emu.unbuffered =
      handle (c :: body ++ [0x23, a, b]) e.unbuffered := by
  have hfirst := h.first
  simp only [List.mem_cons, not_or] at hfirst
  have halone : { e.unbuffered with clientbuf := c :: body ++ [0x23, a, b] }.Finds [] (c :: body) []
      a b := ⟨h.connected_eq, rfl, h.first, h.slurped, h.digits⟩
  have hlength : (c :: body ++ [0x23, a, b]).length - 3 =
      ([] : List Byte).length + (c :: body).length := by simp
  have hcmd := gdbCmd_packet halone
  rw [← hlength] at hcmd
  rw [handle, gdbCmd_packet h]
  refine Eq.trans ?_ (congrArg (Except.map Emu.unbuffered) hcmd).symm
  dsimp only
  by_cases hsum : (gdbCksumstr body).toNat = Hex.number [a, b]
  · rw [if_pos hsum, if_pos hsum]
    by_cases hc : c = 0x24
    · subst hc
      rw [if_pos rfl, if_pos rfl]
      have hsupplies := textSupplies_of_bringsDigits hfirst.2 h.digits.1 h.digits.2 hdigits hsum
      rw [← ignoresBuffer_dispatch, ← ignoresBuffer_dispatch,
        dispatch_tail hsupplies (a :: b :: rest) [a, b]]
      rfl
    · rw [if_neg hc, if_neg hc, ← ignoresBuffer_sendstr, ← ignoresBuffer_sendstr]
      rfl
  · rw [if_neg hsum, if_neg hsum]
    rfl

end AvrEmu
