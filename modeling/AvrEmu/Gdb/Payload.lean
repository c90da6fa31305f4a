import AvrEmu.Gdb.Outcome

/-!
# What the write packets decode

`G` and `M` store byte after byte while they decode their text, and step on by two characters
whatever has been read. Here both handlers are followed up to their end or their abort, with the
variables they leave in either case.
-/

namespace AvrEmu

variable {α : Type} {e e' : Emu} {s t u payload digits : List Byte}

/-- What a handler leaves at its end, or at its abort. -/
structure Halted where
  left : Emu
  abort : Option Abort

/-- The result of a handler without what it leaves at an abort. -/
def Halted.result (h : Halted) : Except Abort Emu :=
  match h.abort with
  | none => .ok h.left
  | some a => .error a

/-- Goes on with the result of a part that changes nothing if it is aborted. -/
def attempt (r : Except Abort α) (e : Emu) (next : α → Halted) : Halted :=
  match r with
  | .ok a => next a
  | .error a => ⟨e, some a⟩

@[simp] theorem attempt_ok (a : α) (e : Emu) (next : α → Halted) :
    attempt (.ok a) e next = next a := rfl

@[simp] theorem attempt_error (a : Abort) (e : Emu) (next : α → Halted) :
    attempt (.error a) e next = ⟨e, some a⟩ := rfl

@[simp] theorem result_attempt (r : Except Abort α) (e : Emu) (next : α → Halted) :
    (attempt r e next).result = r >>= fun a => (next a).result := by
  cases r <;> rfl

/-- The answer at the end of a handler. -/
def sendOk (e : Emu) : Halted := attempt (gdbSendstr (ascii "OK") e) e fun e => ⟨e, none⟩

@[simp] theorem result_sendOk (e : Emu) : (sendOk e).result = gdbSendstr (ascii "OK") e := by
  rw [sendOk, result_attempt]
  cases gdbSendstr (ascii "OK") e <;> rfl

/-- `pc = v` outside the machine. -/
def Emu.setPc (e : Emu) (v : BitVec 32) : Emu := { e with machine := { e.machine with pc := v } }

@[simp] theorem emu_setMem_memory (e : Emu) (i : ℕ) (v : Byte) :
    (e.setMem i v).machine.memory = Function.update e.machine.memory i v := rfl

@[simp] theorem emu_setMem_setMem (e : Emu) (i : ℕ) (v w : Byte) :
    (e.setMem i v).setMem i w = e.setMem i w := by
  unfold Emu.setMem
  dsimp only
  rw [Function.update_idem]

/-! ## The handlers up to their abort -/

/-- `setregsLoop`, and what follows it. -/
def setregsLoopHalts : ℕ → ℕ → List Byte → Emu → (List Byte → Emu → Halted) → Halted
  | 0, _, cmd, e, next => next cmd e
  | n + 1, i, cmd, e, next =>
    attempt (requireText cmd) e fun _ =>
    attempt (demand (Hex.scan (some 2) cmd) "x") e fun (reglo, _) =>
    setregsLoopHalts n (i + 1) (cmd.drop 2) (e.setMem i (reglo.setWidth 8)) next

/-- What `gdbSetregs` does after the loop; the PC is assigned before it is looked at. -/
def setregsRestHalts (cmd : List Byte) (e : Emu) : Halted :=
  attempt (requireText cmd) e fun _ =>
  attempt (demand (Hex.scan (some 2) cmd) "x") e fun (reglo, _) =>
  let e := e.setMem sreg (reglo.setWidth 8)
  let cmd := cmd.drop 2
  attempt (requireText cmd) e fun _ =>
  attempt (demand (Hex.scan (some 2) cmd) "x") e fun (reglo, left) =>
  attempt (demand (Hex.scan (some 2) left) "x") e fun (reghi, _) =>
  let e := (e.setMem spLo (reglo.setWidth 8)).setMem spHi (reghi.setWidth 8)
  let cmd := cmd.drop 4
  attempt (requireText cmd) e fun _ =>
  attempt (demand (Hex.scan (some 2) cmd) "x") e fun (reglo, left) =>
  attempt (demand (Hex.scan (some 2) left) "x") e fun (reghi, left) =>
  attempt (demand (Hex.scan (some 2) left) "x") e fun (reg3, left) =>
  attempt (demand (Hex.scan (some 2) left) "x") e fun (reg4, _) =>
  let pc := (reglo ||| reghi <<< 8 ||| reg3 <<< 16 ||| reg4 <<< 24) >>> 1
  let e := e.setPc pc
  attempt (require (pc &&& 0xffc00000 == 0) "PC is only 22 bits") e fun _ =>
  attempt (require (e.machine.pc22 || pc &&& 0xffff0000 == 0) "PC is only 16 bits") e fun _ =>
  sendOk e

/-- `gdbSetregs`. -/
def setregsHalts (cmd : List Byte) (e : Emu) : Halted :=
  setregsLoopHalts 32 0 (cmd.drop 1) e setregsRestHalts

/-- `writememLoop`, and what follows it. -/
def writememLoopHalts (start : BitVec 32) : ℕ → ℕ → List Byte → Emu → (Emu → Halted) → Halted
  | 0, _, _, e, next => next e
  | n + 1, i, hexs, e, next =>
    attempt (demand (Hex.scan (some 2) hexs) "x") e fun (byte, _) =>
    writememLoopHalts start n (i + 1) (hexs.drop 2)
      (e.setMem (start + BitVec.ofNat 32 i &&& 0xffff).toNat (byte.setWidth 8)) next

/-- `gdbWritemem`. -/
def writememHalts (cmd : List Byte) (e : Emu) : Halted :=
  attempt (demand (scanRange (cmd.drop 1)) "x") e fun (start, len, left) =>
  match Hex.literal 0x3a left with
  | none => ⟨e, some (.exit "ill-formed write")⟩
  | some hexs => writememLoopHalts start len.toNat 0 hexs e sendOk

theorem result_setregsLoopHalts (n i : ℕ) (cmd : List Byte) (e : Emu)
    (next : List Byte → Emu → Halted) : (setregsLoopHalts n i cmd e next).result =
      setregsLoop n i cmd e >>= fun r => (next r.1 r.2).result := by
  induction n generalizing i cmd e with
  | zero => rfl
  | succ n ih =>
    simp only [setregsLoopHalts, result_attempt, ih, setregsLoop]
    cases requireText cmd with
    | error a => rfl
    | ok r =>
      cases demand (Hex.scan (some 2) cmd) "x" with
      | error a => rfl
      | ok r => rfl

/-- Up to what is left at an abort, these are the handlers. -/
theorem result_setregsHalts (cmd extra : List Byte) (e : Emu) :
    (setregsHalts cmd e).result = gdbSetregs cmd extra e := by
  simp only [setregsHalts, result_setregsLoopHalts, setregsRestHalts, result_attempt, result_sendOk]
  rfl

theorem result_writememLoopHalts (start : BitVec 32) (n i : ℕ) (hexs : List Byte) (e : Emu)
    (next : Emu → Halted) : (writememLoopHalts start n i hexs e next).result =
      writememLoop start n i hexs e >>= fun e => (next e).result := by
  induction n generalizing i hexs e with
  | zero => rfl
  | succ n ih =>
    simp only [writememLoopHalts, result_attempt, ih, writememLoop]
    cases demand (Hex.scan (some 2) hexs) "x" with
    | error a => rfl
    | ok r => rfl

theorem result_writememHalts (cmd extra : List Byte) (e : Emu) :
    (writememHalts cmd e).result = gdbWritemem cmd extra e := by
  rw [writememHalts, result_attempt, gdbWritemem]
  cases demand (scanRange (cmd.drop 1)) "x" with
  | error a => rfl
  | ok r =>
    rw [ok_bind, ok_bind]
    dsimp only
    cases Hex.literal 0x3a r.2.2 with
    | none => rfl
    | some hexs =>
      dsimp only
      rw [result_writememLoopHalts]
      simp only [result_sendOk]

/-- An accepted packet reaches its handler with the zero byte that has replaced the `#`, the digits
of the checksum and the rest of the buffer behind its payload. -/
theorem serve_halts (hconn : e.connected = true) (before rest payload : List Byte) :
    e.serve before rest (ascii "G" ++ payload) =
      (setregsHalts
        (ascii "G" ++ (payload ++ 0 :: (Hex.pair (gdbCksumstr (ascii "G" ++ payload)) ++ rest)))
        { e.accepted before rest (ascii "G" ++ payload) with execute := false }).result ∧
    e.serve before rest (ascii "M" ++ payload) =
      (writememHalts
        (ascii "M" ++ (payload ++ 0 :: (Hex.pair (gdbCksumstr (ascii "M" ++ payload)) ++ rest)))
        { e.accepted before rest (ascii "M" ++ payload) with execute := false }).result := by
  rw [result_setregsHalts _ [], result_writememHalts _ [], serve_eq hconn, serve_eq hconn]
  exact ⟨rfl, rfl⟩

/-! ## Digits of the payload -/

/-- The byte that two digits next to each other in the payload stand for. -/
def PairAt (payload : List Byte) (b : Byte) : Prop :=
  ∃ before c d after, payload = before ++ c :: d :: after ∧ Hex.isDigit c = true ∧
    Hex.isDigit d = true ∧ Hex.number [c, d] = b.toNat

/-- The payload begins with digits for `n` bytes. -/
def Supplies (payload : List Byte) (n : ℕ) : Prop :=
  2 * n ≤ payload.length ∧ ∀ c ∈ payload.take (2 * n), Hex.isDigit c = true

/-- Whatever is stored is the value of digits of the payload, and if there are not enough of them
the packet is rejected without any effect. -/
structure Emu.Decodes (e : Emu) (payload : List Byte) (enough : Prop) (h : Halted) : Prop where
  memory_from : ∀ a, h.left.machine.memory a = e.machine.memory a ∨
    PairAt payload (h.left.machine.memory a)
  pc_from : h.left.machine.pc = e.machine.pc ∨ ∃ b₀ b₁ b₂ b₃ : Byte,
    PairAt payload b₀ ∧ PairAt payload b₁ ∧ PairAt payload b₂ ∧ PairAt payload b₃ ∧
    h.left.machine.pc = (b₀.setWidth 32 ||| b₁.setWidth 32 <<< 8 ||| b₂.setWidth 32 <<< 16 |||
      b₃.setWidth 32 <<< 24) >>> 1
  rejected : ¬ enough → h.abort ≠ none ∧ h.left.machine.memory = e.machine.memory ∧
    h.left.machine.pc = e.machine.pc ∧ h.left.log = e.log

/-- A handler that is aborted before it stores anything. -/
theorem decodes_of_abort (e : Emu) (payload : List Byte) (enough : Prop) (a : Abort) :
    e.Decodes payload enough ⟨e, some a⟩ :=
  ⟨fun _ => Or.inl rfl, Or.inl rfl, fun _ => ⟨Option.some_ne_none a, rfl, rfl, rfl⟩⟩

theorem Supplies.zero (payload : List Byte) : Supplies payload 0 :=
  ⟨Nat.zero_le _, fun c hc => absurd hc (by simp)⟩

/-- The first of several bytes that are supplied. -/
theorem Supplies.cons {n : ℕ} (h : Supplies s (n + 1)) : ∃ c d t, s = c :: d :: t ∧
    Hex.isDigit c = true ∧ Hex.isDigit d = true ∧ Supplies t n := by
  obtain ⟨hlen, hdigits⟩ := h
  match s with
  | [] => simp at hlen
  | [c] =>
    rw [List.length_singleton] at hlen
    omega
  | c :: d :: t =>
    rw [show 2 * (n + 1) = 2 * n + 1 + 1 by omega, List.take_succ_cons, List.take_succ_cons]
      at hdigits
    simp only [List.length_cons] at hlen
    refine ⟨c, d, t, rfl, hdigits c (by simp), hdigits d (by simp), by omega, fun x hx => ?_⟩
    exact hdigits x (by simp [hx])

/-- The byte that two digits stand for. -/
def pairByte (c d : Byte) : Byte := BitVec.ofNat 8 (Hex.number [c, d])

theorem pairByte_toNat (c d : Byte) : (pairByte c d).toNat = Hex.number [c, d] := by
  have hc := Hex.value_getD_lt c
  have hd := Hex.value_getD_lt d
  rw [pairByte, BitVec.toNat_ofNat, Hex.number_two]
  exact Nat.mod_eq_of_lt (by omega)

/-- A conversion of two digits. -/
theorem scan_pairByte {c d : Byte} (hc : Hex.isDigit c = true) (hd : Hex.isDigit d = true) :
    Hex.scan (some 2) (c :: d :: t) = some ((pairByte c d).setWidth 32, t) :=
  Hex.scan_denoted hc hd (pairByte_toNat c d).symm

theorem pairAt_pairByte {c d : Byte} (hc : Hex.isDigit c = true) (hd : Hex.isDigit d = true)
    (h : c :: d :: t <:+ payload) : PairAt payload (pairByte c d) := by
  obtain ⟨before, rfl⟩ := h
  exact ⟨before, c, d, t, rfl, hc, hd, (pairByte_toNat c d).symm⟩

theorem setWidth_pairByte (b : Byte) : ((b.setWidth 32).setWidth 8 : Byte) = b :=
  BitVec.setWidth_setWidth_of_le _ (by decide)

theorem requireText_digit {c : Byte} (hc : Hex.isDigit c = true) (t : List Byte) :
    requireText (c :: t) = .ok () := by
  have hne : c ≠ 0 := by
    rintro rfl
    cases hc
  rw [requireText, List.headD_cons, bne_iff_ne.mpr hne]
  rfl

/-! ## Stores of supplied bytes -/

/-- Bytes of the payload have been stored in memory. -/
structure Emu.Stored (e : Emu) (payload : List Byte) (e' : Emu) : Prop where
  memory_from : ∀ a, e'.machine.memory a = e.machine.memory a ∨ PairAt payload (e'.machine.memory a)
  pc_eq : e'.machine.pc = e.machine.pc

theorem Emu.Stored.refl (e : Emu) (payload : List Byte) : e.Stored payload e :=
  ⟨fun _ => Or.inl rfl, rfl⟩

theorem Emu.Stored.setMem {b : Byte} (h : e.Stored payload e') (hb : PairAt payload b) (i : ℕ) :
    e.Stored payload (e'.setMem i b) := by
  refine ⟨fun a => ?_, h.pc_eq⟩
  by_cases ha : a = i
  · subst ha
    refine Or.inr ?_
    rw [emu_setMem_memory, Function.update_self]
    exact hb
  · rw [emu_setMem_memory, Function.update_of_ne ha]
    exact h.memory_from a

theorem setregsLoopHalts_supplied {n : ℕ} (hs : Supplies s n) (hsuffix : s <:+ payload) (i : ℕ)
    (t : List Byte) (e₁ : Emu) (next : List Byte → Emu → Halted) (h : e.Stored payload e₁) :
    ∃ e₂, setregsLoopHalts n i (s ++ t) e₁ next = next (s.drop (2 * n) ++ t) e₂ ∧
      e.Stored payload e₂ := by
  induction n generalizing s i e₁ with
  | zero => exact ⟨e₁, rfl, h⟩
  | succ n ih =>
    obtain ⟨c, d, r, rfl, hc, hd, hr⟩ := hs.cons
    have hrest : r <:+ payload :=
      ((List.suffix_cons d r).trans (List.suffix_cons c _)).trans hsuffix
    obtain ⟨e₂, hloop, hstored⟩ := ih hr hrest (i + 1) (e₁.setMem i (pairByte c d))
      (h.setMem (pairAt_pairByte hc hd hsuffix) i)
    refine ⟨e₂, ?_, hstored⟩
    rw [List.cons_append, List.cons_append, setregsLoopHalts, requireText_digit hc, attempt_ok,
      scan_pairByte hc hd, demand_some, attempt_ok]
    dsimp only
    rw [setWidth_pairByte]
    exact hloop

theorem writememLoopHalts_supplied {n : ℕ} (start : BitVec 32) (hs : Supplies s n)
    (hsuffix : s <:+ payload) (i : ℕ) (t : List Byte) (e₁ : Emu) (next : Emu → Halted)
    (h : e.Stored payload e₁) :
    ∃ e₂, writememLoopHalts start n i (s ++ t) e₁ next = next e₂ ∧ e.Stored payload e₂ := by
  induction n generalizing s i e₁ with
  | zero => exact ⟨e₁, rfl, h⟩
  | succ n ih =>
    obtain ⟨c, d, r, rfl, hc, hd, hr⟩ := hs.cons
    have hrest : r <:+ payload :=
      ((List.suffix_cons d r).trans (List.suffix_cons c _)).trans hsuffix
    obtain ⟨e₂, hloop, hstored⟩ := ih hr hrest (i + 1)
      (e₁.setMem (start + BitVec.ofNat 32 i &&& 0xffff).toNat (pairByte c d))
      (h.setMem (pairAt_pairByte hc hd hsuffix) _)
    refine ⟨e₂, ?_, hstored⟩
    rw [List.cons_append, List.cons_append, writememLoopHalts, scan_pairByte hc hd, demand_some,
      attempt_ok]
    dsimp only
    rw [setWidth_pairByte]
    exact hloop

/-- The answer does not touch the machine. -/
theorem sendOk_machine (e : Emu) : (sendOk e).left.machine = e.machine := by
  unfold sendOk
  cases h : gdbSendstr (ascii "OK") e with
  | error a => rfl
  | ok e' =>
    obtain ⟨t, rfl, -⟩ := exists_sent h
    rfl

/-- What comes last of a packet, whether or not it is accepted in the end. -/
theorem decodes_of_stored {enough : Prop} (henough : enough) (e₁ : Emu) (h : e.Stored payload e₁)
    {b₀ b₁ b₂ b₃ : Byte} (h₀ : PairAt payload b₀) (h₁ : PairAt payload b₁) (h₂ : PairAt payload b₂)
    (h₃ : PairAt payload b₃) : e.Decodes payload enough
      (let pc := (b₀.setWidth 32 ||| b₁.setWidth 32 <<< 8 ||| b₂.setWidth 32 <<< 16 |||
        b₃.setWidth 32 <<< 24) >>> 1
      let e := e₁.setPc pc
      attempt (require (pc &&& 0xffc00000 == 0) "PC is only 22 bits") e fun _ =>
      attempt (require (e.machine.pc22 || pc &&& 0xffff0000 == 0) "PC is only 16 bits") e fun _ =>
      sendOk e) := by
  dsimp only
  generalize hpc : (b₀.setWidth 32 ||| b₁.setWidth 32 <<< 8 ||| b₂.setWidth 32 <<< 16 |||
    b₃.setWidth 32 <<< 24 : BitVec 32) >>> 1 = pc
  have hmachine :
      (attempt (require (pc &&& 0xffc00000 == 0) "PC is only 22 bits") (e₁.setPc pc) fun _ =>
      attempt (require ((e₁.setPc pc).machine.pc22 || pc &&& 0xffff0000 == 0) "PC is only 16 bits")
        (e₁.setPc pc) fun _ => sendOk (e₁.setPc pc)).left.machine = (e₁.setPc pc).machine := by
    cases require (pc &&& 0xffc00000 == 0) "PC is only 22 bits" with
    | error a => rfl
    | ok r =>
      rw [attempt_ok]
      cases require ((e₁.setPc pc).machine.pc22 || pc &&& 0xffff0000 == 0) "PC is only 16 bits" with
      | error a => rfl
      | ok r => exact sendOk_machine _
  refine ⟨fun a => ?_, Or.inr ⟨b₀, b₁, b₂, b₃, h₀, h₁, h₂, h₃, ?_⟩, fun hfew => absurd henough hfew⟩
  · rw [hmachine]
    exact h.memory_from a
  · rw [hmachine, hpc]
    rfl

/-- The part after the loop takes seven bytes. -/
theorem setregsRestHalts_supplied {enough : Prop} (henough : enough) (hs : Supplies s 7)
    (hsuffix : s <:+ payload) (t : List Byte) (e₁ : Emu) (h : e.Stored payload e₁) :
    e.Decodes payload enough (setregsRestHalts (s ++ t) e₁) := by
  obtain ⟨c₀, d₀, s₀, rfl, hc₀, hd₀, hs₀⟩ := hs.cons
  obtain ⟨c₁, d₁, s₁, rfl, hc₁, hd₁, hs₁⟩ := hs₀.cons
  obtain ⟨c₂, d₂, s₂, rfl, hc₂, hd₂, hs₂⟩ := hs₁.cons
  obtain ⟨c₃, d₃, s₃, rfl, hc₃, hd₃, hs₃⟩ := hs₂.cons
  obtain ⟨c₄, d₄, s₄, rfl, hc₄, hd₄, hs₄⟩ := hs₃.cons
  obtain ⟨c₅, d₅, s₅, rfl, hc₅, hd₅, hs₅⟩ := hs₄.cons
  obtain ⟨c₆, d₆, s₆, rfl, hc₆, hd₆, -⟩ := hs₅.cons
  have hnext {c d : Byte} {r : List Byte} (hr : c :: d :: r <:+ payload) : r <:+ payload :=
    ((List.suffix_cons d r).trans (List.suffix_cons c _)).trans hr
  have hp₁ := hnext hsuffix
  have hp₂ := hnext hp₁
  have hp₃ := hnext hp₂
  have hp₄ := hnext hp₃
  have hp₅ := hnext hp₄
  have hp₆ := hnext hp₅
  simp only [setregsRestHalts, List.cons_append, List.drop_succ_cons, List.drop_zero,
    requireText_digit, hc₀, hc₁, hc₃, scan_pairByte, hd₀, hd₁, hc₂, hd₂, hd₃, hc₄, hd₄, hc₅, hd₅,
    hc₆, hd₆, attempt_ok, demand_some, setWidth_pairByte]
  exact decodes_of_stored henough _
    (((h.setMem (pairAt_pairByte hc₀ hd₀ hsuffix) _).setMem (pairAt_pairByte hc₁ hd₁ hp₁) _).setMem
      (pairAt_pairByte hc₂ hd₂ hp₂) _)
    (pairAt_pairByte hc₃ hd₃ hp₃) (pairAt_pairByte hc₄ hd₄ hp₄) (pairAt_pairByte hc₅ hd₅ hp₅)
    (pairAt_pairByte hc₆ hd₆ hp₆)

theorem Supplies.split {n k : ℕ} (h : Supplies s (n + k)) :
    Supplies s n ∧ Supplies (s.drop (2 * n)) k := by
  obtain ⟨hlen, hdigits⟩ := h
  refine ⟨⟨by omega, fun c hc => hdigits c ?_⟩, ⟨?_, fun c hc => hdigits c ?_⟩⟩
  · exact List.take_subset_take_left s (by omega) hc
  · rw [List.length_drop]
    omega
  · rw [Nat.mul_add, List.take_add]
    exact List.mem_append_right _ hc

/-- A `G` packet with enough digits. -/
theorem setregs_supplied (e : Emu) (u : List Byte) (h : Supplies payload 39) :
    e.Decodes payload (Supplies payload 39)
      (setregsHalts (ascii "G" ++ (payload ++ 0 :: u)) e) := by
  obtain ⟨hregs, hrest⟩ := Supplies.split (n := 32) (k := 7) h
  obtain ⟨e₁, hloop, hstored⟩ := setregsLoopHalts_supplied hregs (List.suffix_refl payload) 0
    (0 :: u) e setregsRestHalts (Emu.Stored.refl e payload)
  have hstart : setregsHalts (ascii "G" ++ (payload ++ 0 :: u)) e =
      setregsLoopHalts 32 0 (payload ++ 0 :: u) e setregsRestHalts := rfl
  rw [hstart, hloop]
  exact setregsRestHalts_supplied h hrest (List.drop_suffix _ _) (0 :: u) e₁ hstored

/-! ## The range of `M` -/

/-- What `M` reads up to its data, which come after the colon. -/
def writeRange (cmd : List Byte) : Option (BitVec 32 × BitVec 32 × List Byte) := do
  let (start, len, left) ← scanRange cmd
  let hexs ← Hex.literal 0x3a left
  pure (start, len, hexs)

/-- The payload has two digits for each byte of its range. -/
def SuppliesRange (payload u : List Byte) : Prop :=
  ∃ start len data, writeRange (payload ++ 0 :: u) = some (start, len, data ++ 0 :: u) ∧
    Supplies data len.toNat

/-- The range is read from the payload, and so what is left is a part of it. -/
theorem writeRange_left {start len : BitVec 32} {hexs : List Byte}
    (h : writeRange (payload ++ 0 :: u) = some (start, len, hexs)) :
    ∃ data, hexs = data ++ 0 :: u ∧ data <:+ payload := by
  unfold writeRange at h
  obtain ⟨⟨start', len', left₃⟩, hrange, h⟩ := Option.bind_eq_some_iff.mp h
  obtain ⟨hexs', hcolon, h⟩ := Option.bind_eq_some_iff.mp h
  obtain ⟨⟨start₁, left₁⟩, hstart, hrange⟩ := Option.bind_eq_some_iff.mp hrange
  obtain ⟨left₂, hcomma, hrange⟩ := Option.bind_eq_some_iff.mp hrange
  obtain ⟨⟨len₃, left₃'⟩, hlen, hrange⟩ := Option.bind_eq_some_iff.mp hrange
  obtain ⟨l₁, rfl, hl₁⟩ := Hex.scan_left_of_zero hstart
  obtain ⟨l₂, rfl, hl₂⟩ := Hex.literal_left_of_zero (by decide) hcomma
  obtain ⟨l₃, rfl, hl₃⟩ := Hex.scan_left_of_zero hlen
  obtain rfl := (Prod.mk.inj (Prod.mk.inj (Option.some.inj hrange)).2).2
  obtain ⟨l₄, rfl, hl₄⟩ := Hex.literal_left_of_zero (by decide) hcolon
  obtain rfl := (Prod.mk.inj (Prod.mk.inj (Option.some.inj h)).2).2
  exact ⟨l₄, rfl, hl₄.trans (hl₃.trans (hl₂.trans hl₁))⟩

/-- An `M` packet with or without a range. -/
theorem writememHalts_eq (cmd : List Byte) (e : Emu) : ∃ a : Abort,
    writememHalts (ascii "M" ++ cmd) e =
      match writeRange cmd with
      | none => ⟨e, some a⟩
      | some (start, len, hexs) => writememLoopHalts start len.toNat 0 hexs e sendOk := by
  have htext : (ascii "M" ++ cmd).drop 1 = cmd := rfl
  rw [writememHalts, htext]
  cases hscan : scanRange cmd with
  | none =>
    have hrange : writeRange cmd = none := by
      rw [writeRange, hscan]
      rfl
    rw [hrange]
    exact ⟨_, rfl⟩
  | some r =>
    have hrange : writeRange cmd =
        (Hex.literal 0x3a r.2.2).bind fun hexs => some (r.1, r.2.1, hexs) := by
      rw [writeRange, hscan]
      rfl
    rw [hrange, demand_some, attempt_ok]
    dsimp only
    cases Hex.literal 0x3a r.2.2 with
    | none => exact ⟨_, rfl⟩
    | some hexs => exact ⟨.exit "ill-formed write", rfl⟩

/-! ## Too few digits -/

theorem requireText_of_scan {cmd left : List Byte} {v : BitVec 32}
    (h : Hex.scan (some 2) cmd = some (v, left)) : requireText cmd = .ok () := by
  cases cmd with
  | nil => cases h
  | cons c cmd =>
    have hne : c ≠ 0 := by
      rintro rfl
      rw [Hex.scan_zero] at h
      cases h
    rw [requireText, List.headD_cons, bne_iff_ne.mpr hne]
    rfl

/-- The first register is stored before anything else is looked at. -/
theorem setregsHalts_first {cmd left : List Byte} {v : BitVec 32}
    (h : Hex.scan (some 2) cmd = some (v, left)) (e : Emu) :
    setregsHalts (ascii "G" ++ cmd) e =
      setregsLoopHalts 31 1 (cmd.drop 2) (e.setMem 0 (v.setWidth 8)) setregsRestHalts := by
  have htext : (ascii "G" ++ cmd).drop 1 = cmd := rfl
  rw [setregsHalts, htext, setregsLoopHalts, requireText_of_scan h, attempt_ok, h, demand_some,
    attempt_ok]

/-- So is the first byte of the data. -/
theorem writememLoopHalts_first {hexs left : List Byte} {start v : BitVec 32} {n : ℕ}
    (h : Hex.scan (some 2) hexs = some (v, left)) (e : Emu) :
    writememLoopHalts start (n + 1) 0 hexs e sendOk =
      writememLoopHalts start n 1 (hexs.drop 2)
        (e.setMem (start + BitVec.ofNat 32 0 &&& 0xffff).toNat (v.setWidth 8)) sendOk := by
  rw [writememLoopHalts, h, demand_some, attempt_ok]

/-- A handler whose first store overwrites a cell cannot restore it from every state. -/
theorem not_restored {f g : Emu → Halted} {i : ℕ} {v : Byte} (hf : ∀ e, f e = g (e.setMem i v)) :
    ¬ ∀ e : Emu, e.connected = true → (f e).left.machine.memory = e.machine.memory := by
  intro h
  let e := gdbstubInit (Emu.start (Machine.powerOn fun _ => 0))
  have hzero := h (e.setMem i 0) rfl
  have hone := h (e.setMem i 1) rfl
  rw [hf, emu_setMem_setMem] at hzero hone
  have hcell := congrFun (hzero.symm.trans hone) i
  rw [emu_setMem_memory, emu_setMem_memory, Function.update_self, Function.update_self] at hcell
  cases hcell

/-- In every state of the stub, whatever a `G` or `M` packet stores comes from digits of its
payload, and it is rejected without any effect if there are not enough of them, if and only if
there are enough, or not even the first conversion succeeds. -/
theorem payload_decoded_iff (payload u : List Byte) :
    ((∀ e : Emu, e.connected = true → e.Decodes payload (Supplies payload 39)
        (setregsHalts (ascii "G" ++ (payload ++ 0 :: u)) e)) ↔
      Supplies payload 39 ∨ Hex.scan (some 2) (payload ++ 0 :: u) = none) ∧
    ((∀ e : Emu, e.connected = true → e.Decodes payload (SuppliesRange payload u)
        (writememHalts (ascii "M" ++ (payload ++ 0 :: u)) e)) ↔
      SuppliesRange payload u ∨ ∀ start len hexs,
        writeRange (payload ++ 0 :: u) = some (start, len, hexs) →
          Hex.scan (some 2) hexs = none) := by
  refine ⟨⟨fun h => ?_, fun h e _ => ?_⟩, ⟨fun h => ?_, fun h e _ => ?_⟩⟩
  · by_contra hcond
    rw [not_or] at hcond
    obtain ⟨hfew, hscan⟩ := hcond
    obtain ⟨⟨v, left⟩, hscan⟩ := Option.ne_none_iff_exists'.mp hscan
    exact not_restored (g := fun e => setregsLoopHalts 31 1 ((payload ++ 0 :: u).drop 2) e
      setregsRestHalts) (setregsHalts_first hscan) fun e hconn => ((h e hconn).rejected hfew).2.1
  · rcases h with hs | hscan
    · exact setregs_supplied e u hs
    · have hstart : setregsHalts (ascii "G" ++ (payload ++ 0 :: u)) e =
          attempt (requireText (payload ++ 0 :: u)) e fun _ =>
            attempt (demand (Hex.scan (some 2) (payload ++ 0 :: u)) "x") e fun r =>
              setregsLoopHalts 31 1 ((payload ++ 0 :: u).drop 2) (e.setMem 0 (r.1.setWidth 8))
                setregsRestHalts := rfl
      rw [hstart, hscan]
      cases requireText (payload ++ 0 :: u) with
      | error a => exact decodes_of_abort e payload _ a
      | ok r => exact decodes_of_abort e payload _ _
  · by_contra hcond
    rw [not_or] at hcond
    obtain ⟨hfew, hscan⟩ := hcond
    simp only [not_forall] at hscan
    obtain ⟨start, len, hexs, hrange, hscan⟩ := hscan
    obtain ⟨data, rfl, -⟩ := writeRange_left hrange
    obtain ⟨⟨v, left⟩, hscan⟩ := Option.ne_none_iff_exists'.mp hscan
    obtain ⟨n, hn⟩ : ∃ n, len.toNat = n + 1 := by
      refine Nat.exists_eq_succ_of_ne_zero fun hzero => hfew ⟨start, len, data, hrange, ?_⟩
      rw [hzero]
      exact Supplies.zero data
    have hfirst (e : Emu) : writememHalts (ascii "M" ++ (payload ++ 0 :: u)) e =
        writememLoopHalts start n 1 ((data ++ 0 :: u).drop 2)
          (e.setMem (start + BitVec.ofNat 32 0 &&& 0xffff).toNat (v.setWidth 8)) sendOk := by
      obtain ⟨a, heq⟩ := writememHalts_eq (payload ++ 0 :: u) e
      rw [heq, hrange]
      dsimp only
      rw [hn, writememLoopHalts_first hscan]
    exact not_restored
      (g := fun e => writememLoopHalts start n 1 ((data ++ 0 :: u).drop 2) e sendOk)
      hfirst fun e hconn => ((h e hconn).rejected hfew).2.1
  · obtain ⟨a, heq⟩ := writememHalts_eq (payload ++ 0 :: u) e
    rw [heq]
    cases hrange : writeRange (payload ++ 0 :: u) with
    | none => exact decodes_of_abort e payload _ a
    | some r =>
      obtain ⟨start, len, hexs⟩ := r
      obtain ⟨data, rfl, hdata⟩ := writeRange_left hrange
      dsimp only
      by_cases henough : SuppliesRange payload u
      · obtain ⟨start', len', data', hrange', hs⟩ := henough
        have hsame := Option.some.inj (hrange.symm.trans hrange')
        simp only [Prod.mk.injEq, List.append_cancel_right_eq] at hsame
        obtain ⟨rfl, rfl, rfl⟩ := hsame
        obtain ⟨e₂, hloop, hstored⟩ := writememLoopHalts_supplied start hs hdata 0 (0 :: u) e sendOk
          (Emu.Stored.refl e payload)
        rw [hloop]
        refine ⟨fun c => ?_, Or.inl ?_, fun hfew => absurd ⟨start, len, data, hrange, hs⟩ hfew⟩
        · rw [sendOk_machine]
          exact hstored.memory_from c
        · rw [sendOk_machine]
          exact hstored.pc_eq
      · have hscan := h.resolve_left henough start len _ hrange
        obtain ⟨n, hn⟩ : ∃ n, len.toNat = n + 1 := by
          refine Nat.exists_eq_succ_of_ne_zero fun hzero => henough ⟨start, len, data, hrange, ?_⟩
          rw [hzero]
          exact Supplies.zero data
        rw [hn, writememLoopHalts, hscan]
        exact decodes_of_abort e payload _ _

/-- One digit is enough for `M60,1:4` to be answered with `OK`. -/
theorem digit_accepted : ¬ ∀ (payload u : List Byte) (e : Emu), e.connected = true →
    e.Decodes payload (SuppliesRange payload u)
      (writememHalts (ascii "M" ++ (payload ++ 0 :: u)) e) := by
  intro hclaim
  have hdecodes := hclaim (ascii "60,1:4") (ascii "7e")
    (gdbstubInit (Emu.start (Machine.powerOn fun _ => 0))) rfl
  refine (hdecodes.rejected ?_).1 rfl
  rintro ⟨start, len, data, hrange, hlen, -⟩
  have hread : writeRange (ascii "60,1:4" ++ 0 :: ascii "7e") =
      some (0x60, 1, ascii "4" ++ 0 :: ascii "7e") := by decide
  have hsame := Option.some.inj (hread.symm.trans hrange)
  simp only [Prod.mk.injEq, List.append_cancel_right_eq] at hsame
  obtain ⟨-, rfl, rfl⟩ := hsame
  exact absurd hlen (by decide)

end AvrEmu
