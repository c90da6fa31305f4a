import AvrEmu.Gdb.Outcome

/-!
# What the checksum covers

A packet whose checksum is wrong is refused and changes nothing. The sum stops at a zero byte,
however, and when nothing stands before the `#` its length wraps around, so that it runs on behind
the packet.
-/

namespace AvrEmu

variable {e e' : Emu} {s before body rest : List Byte} {c pound : ℕ} {d₁ d₂ : Byte}

/-- The sum of some bytes. -/
def byteSum (s : List Byte) : ℕ := (s.map BitVec.toNat).sum

/-- How many bytes the loop of `gdbCksum` looks at; the zero byte that ends it is one of them. -/
def cksumSeen : List Byte → ℕ → ℕ
  | [], _ => 0
  | _ :: _, 0 => 0
  | b :: s, len + 1 => if b = 0 then 1 else cksumSeen s len + 1

/-- The length that is passed to `gdbCksum`, a difference of pointers as an unsigned number. -/
def cksumLen (c pound : ℕ) : ℕ := if c < pound then pound - c - 1 else 2 ^ 64 - 1

/-- What the scanning loop hands on: `body` reaches from `before` to the first `#`, and two digits
follow. -/
structure Emu.Finds (e : Emu) (before body rest : List Byte) (d₁ d₂ : Byte) : Prop where
  connected_eq : e.connected = true
  clientbuf_eq : e.clientbuf = before ++ (body ++ 0x23 :: d₁ :: d₂ :: rest)
  first : 0x23 ∉ body
  slurped : body.head? ≠ some 0x2b ∧ body.head? ≠ some 0x2d
  digits : Hex.isDigit d₁ = true ∧ Hex.isDigit d₂ = true

/-- The state once the packet has been taken up and one character sent. -/
def Emu.taken (e : Emu) (c pound : ℕ) (ack : List Byte) : Emu :=
  { e with log := e.log ++ [.packet ((e.clientbuf.drop c).take (pound + 3 - c)), .send ack] }

/-- What follows the acknowledgement. -/
def obey (c pound : ℕ) (e : Emu) : Except Abort Emu :=
  let e := { e with clientbuf := e.clientbuf.set pound 0 }
  let text := e.clientbuf.drop c
  if text.headD 0 != 0x24 then gdbSendstr [] e else dispatch text.tail e

/-- The packet is acknowledged, and then obeyed. -/
def Acknowledged (c pound : ℕ) (e : Emu) : Prop :=
  gdbCmd c pound e = obey c pound (e.taken c pound (ascii "+"))

/-- The packet is refused: one character is sent, and nothing else happens. -/
def Refused (c pound : ℕ) (e : Emu) : Prop :=
  gdbCmd c pound e = .ok (e.taken c pound (ascii "-"))

/-- The packet is obeyed if and only if the digits are the sum of what stands between its first
byte and the `#`, and the sum is computed from these bytes alone. -/
structure Checked (c pound : ℕ) (e : Emu) (body : List Byte) (d₁ d₂ : Byte) : Prop where
  acknowledged_iff : Acknowledged c pound e ↔ Hex.number [d₁, d₂] = byteSum body.tail % 256
  refused : Hex.number [d₁, d₂] ≠ byteSum body.tail % 256 → Refused c pound e
  inside : cksumSeen (e.clientbuf.drop c).tail (cksumLen c pound) ≤ pound - c - 1

/-! ## The sum -/

theorem foldl_add_toNat (s : List Byte) (b : Byte) :
    (s.foldl (· + ·) b).toNat = (b.toNat + byteSum s) % 256 := by
  induction s generalizing b with
  | nil => exact (Nat.mod_eq_of_lt b.isLt).symm
  | cons x s ih =>
    have hcons : byteSum (x :: s) = x.toNat + byteSum s := List.sum_cons
    rw [List.foldl_cons, ih, BitVec.toNat_add, hcons]
    omega

theorem gdbCksum_toNat (s : List Byte) (len : ℕ) :
    (gdbCksum s len).toNat = byteSum ((s.take len).takeWhile (· != 0)) % 256 := by
  rw [gdbCksum, foldl_add_toNat]
  exact congrArg (· % 256) (Nat.zero_add _)

theorem byteSum_append (s t : List Byte) : byteSum (s ++ t) = byteSum s + byteSum t := by
  rw [byteSum, List.map_append, List.sum_append]
  rfl

/-- The part before the first zero byte and the rest of the sum. -/
theorem byteSum_split (s : List Byte) :
    byteSum s = byteSum (s.takeWhile (· != 0)) + byteSum (s.dropWhile (· != 0)) := by
  rw [← byteSum_append, List.takeWhile_append_dropWhile]

theorem cksumSeen_le (s : List Byte) (len : ℕ) : cksumSeen s len ≤ len := by
  induction s generalizing len with
  | nil => exact Nat.zero_le _
  | cons b s ih =>
    cases len with
    | zero => exact Nat.le_refl _
    | succ len =>
      rw [cksumSeen]
      split
      · exact Nat.succ_pos _
      · exact Nat.succ_le_succ (ih len)

theorem cksumSeen_pos {b : Byte} {len : ℕ} (h : 0 < len) : 0 < cksumSeen (b :: s) len := by
  obtain ⟨n, rfl⟩ := Nat.exists_eq_succ_of_ne_zero h.ne'
  rw [cksumSeen]
  split
  · exact Nat.one_pos
  · exact Nat.succ_pos _

/-! ## The packet -/

theorem gdbSendraw_ok (hconn : e.connected = true) (s : List Byte) :
    gdbSendraw s e = .ok (e.sent s) := by
  rw [gdbSendraw, require, if_pos hconn]
  rfl

theorem number_two_lt (d₁ d₂ : Byte) : Hex.number [d₁, d₂] < 256 := by
  have h₁ := Hex.value_getD_lt d₁
  have h₂ := Hex.value_getD_lt d₂
  rw [Hex.number_two]
  omega

/-- A packet in the buffer is acknowledged exactly if the sum is what its digits say. -/
theorem Emu.Finds.gdbCmd_eq (h : e.Finds before body rest d₁ d₂) :
    gdbCmd before.length (before.length + body.length) e =
      if (gdbCksum (e.clientbuf.drop before.length).tail
        (cksumLen before.length (before.length + body.length))).toNat = Hex.number [d₁, d₂]
      then obey before.length (before.length + body.length)
        (e.taken before.length (before.length + body.length) (ascii "+"))
      else .ok (e.taken before.length (before.length + body.length) (ascii "-")) := by
  have htext : e.clientbuf.drop before.length = body ++ 0x23 :: d₁ :: d₂ :: rest := by
    rw [h.clientbuf_eq, List.drop_left]
  have hpound : e.clientbuf.drop (before.length + body.length) = 0x23 :: d₁ :: d₂ :: rest := by
    rw [← List.drop_drop, htext, List.drop_left]
  have hslurped : ((body ++ 0x23 :: d₁ :: d₂ :: rest).headD 0 != 0x2b &&
      (body ++ 0x23 :: d₁ :: d₂ :: rest).headD 0 != 0x2d) = true := by
    obtain ⟨hplus, hminus⟩ := h.slurped
    cases body with
    | nil => rfl
    | cons x body =>
      rw [Bool.and_eq_true, bne_iff_ne, bne_iff_ne]
      exact ⟨fun heq => hplus (congrArg some heq), fun heq => hminus (congrArg some heq)⟩
  have hscan : scanCksum (0x23 :: d₁ :: d₂ :: rest) =
      some (BitVec.ofNat 32 (Hex.number [d₁, d₂])) := by
    rw [scanCksum, Hex.literal_self]
    change (Hex.scan (some 2) (d₁ :: d₂ :: rest)).bind _ = _
    rw [Hex.scan_two h.digits.1 h.digits.2]
    rfl
  have hdigits := number_two_lt d₁ d₂
  unfold gdbCmd
  dsimp only
  rw [hpound, hscan, htext, hslurped, require_true, ok_bind, demand_some, ok_bind]
  change (if (gdbCksum _ (cksumLen _ _)).setWidth 32 != _ then _ else _) = _
  generalize gdbCksum (body ++ 0x23 :: d₁ :: d₂ :: rest).tail
    (cksumLen before.length (before.length + body.length)) = ckcalc
  have heq : (ckcalc.setWidth 32 != BitVec.ofNat 32 (Hex.number [d₁, d₂])) = true ↔
      ¬ ckcalc.toNat = Hex.number [d₁, d₂] := by
    have hlt := ckcalc.isLt
    rw [bne_iff_ne, ne_eq, ← BitVec.toNat_inj, BitVec.toNat_setWidth, BitVec.toNat_ofNat,
      Nat.mod_eq_of_lt (by omega), Nat.mod_eq_of_lt (by omega)]
  by_cases hsum : ckcalc.toNat = Hex.number [d₁, d₂]
  · rw [if_neg (fun hne => heq.mp hne hsum), if_pos hsum, gdbSendraw_ok (by exact h.connected_eq),
      ok_bind, Emu.taken, htext]
    simp only [Emu.sent, List.append_assoc]
    rfl
  · rw [if_pos (heq.mpr hsum), if_neg hsum, gdbSendraw_ok (by exact h.connected_eq), Emu.taken,
      htext]
    simp only [Emu.sent, List.append_assoc]
    rfl

/-- Once acknowledged, a packet is answered behind the acknowledgement. -/
theorem obey_log (h : obey c pound e = .ok e') : ∃ evs, e'.log = e.log ++ evs := by
  unfold obey at h
  dsimp only at h
  split at h
  · obtain ⟨t, rfl, -⟩ := exists_sent h
    exact ⟨_, rfl⟩
  · obtain ⟨evs, hlog, -⟩ := (effect_of_dispatch h).replies
    exact ⟨evs, hlog⟩

/-- A packet is not both acknowledged and refused. -/
theorem not_refused (h : Acknowledged c pound e) : ¬ Refused c pound e := by
  intro hrefused
  obtain ⟨evs, hlog⟩ := obey_log (h.symm.trans hrefused)
  have hack := congrArg (fun log => log[e.log.length + 1]?) hlog
  simp [Emu.taken, ascii] at hack

/-- A packet is acknowledged only for a digit sum equal to the sum of all bytes between its first
byte and the `#`, refused without any other effect otherwise, and no other byte is looked at, if
and only if something stands before the `#` and the bytes from the first zero byte on add nothing
to the sum, or the digits are neither sum. -/
theorem checked_iff (e : Emu) (before body rest : List Byte) (d₁ d₂ : Byte)
    (h : e.Finds before body rest d₁ d₂) :
    Checked before.length (before.length + body.length) e body d₁ d₂ ↔
      body ≠ [] ∧ (byteSum (body.tail.dropWhile (· != 0)) % 256 = 0 ∨
        (Hex.number [d₁, d₂] ≠ byteSum body.tail % 256 ∧
          Hex.number [d₁, d₂] ≠ byteSum (body.tail.takeWhile (· != 0)) % 256)) := by
  have htext : e.clientbuf.drop before.length = body ++ 0x23 :: d₁ :: d₂ :: rest := by
    rw [h.clientbuf_eq, List.drop_left]
  have hcmd := h.gdbCmd_eq
  cases body with
  | nil =>
    refine ⟨fun hchecked => ?_, fun hne => absurd rfl hne.1⟩
    have hseen := hchecked.inside
    have hlen : 0 < cksumLen before.length (before.length + ([] : List Byte).length) := by
      rw [cksumLen, if_neg (by simp)]
      norm_num
    rw [htext] at hseen
    have hpos := cksumSeen_pos (s := d₂ :: rest) (b := d₁) hlen
    simp only [List.nil_append, List.tail_cons, List.length_nil] at hseen hpos
    omega
  | cons x t =>
    have hlen : cksumLen before.length (before.length + (x :: t).length) = t.length := by
      rw [cksumLen, if_pos (by simp), List.length_cons]
      omega
    have hsum : (gdbCksum (e.clientbuf.drop before.length).tail
        (cksumLen before.length (before.length + (x :: t).length))).toNat =
        byteSum (t.takeWhile (· != 0)) % 256 := by
      rw [htext, hlen, gdbCksum_toNat, List.cons_append, List.tail_cons, List.take_left]
    have hsplit := byteSum_split t
    have hinside : cksumSeen (e.clientbuf.drop before.length).tail
        (cksumLen before.length (before.length + (x :: t).length)) ≤
        before.length + (x :: t).length - before.length - 1 := by
      refine Nat.le_trans (cksumSeen_le _ _) ?_
      rw [hlen, List.length_cons]
      omega
    rw [hsum] at hcmd
    rw [List.tail_cons]
    generalize hnum : Hex.number [d₁, d₂] = n at hcmd ⊢
    by_cases hack : byteSum (t.takeWhile (· != 0)) % 256 = n
    · rw [if_pos hack] at hcmd
      constructor
      · intro hchecked
        have htrue := hchecked.acknowledged_iff.mp hcmd
        rw [hnum, List.tail_cons] at htrue
        exact ⟨List.cons_ne_nil _ _, Or.inl (by omega)⟩
      · rintro ⟨-, hcond⟩
        have htrue : Hex.number [d₁, d₂] = byteSum (x :: t).tail % 256 := by
          rw [hnum, List.tail_cons]
          omega
        exact ⟨iff_of_true hcmd htrue, fun hne => absurd htrue hne, hinside⟩
    · rw [if_neg hack] at hcmd
      have hnak : ¬ Acknowledged before.length (before.length + (x :: t).length) e :=
        fun hacked => not_refused hacked hcmd
      constructor
      · intro hchecked
        refine ⟨List.cons_ne_nil _ _, Or.inr ⟨fun htrue => hnak ?_, fun heq => hack heq.symm⟩⟩
        exact hchecked.acknowledged_iff.mpr (hnum.trans htrue)
      · rintro ⟨-, hcond⟩
        have hfalse : Hex.number [d₁, d₂] ≠ byteSum (x :: t).tail % 256 := by
          rw [hnum, List.tail_cons]
          omega
        exact ⟨iff_of_false hnak hfalse, fun _ => hcmd, hinside⟩

/-- The packet `$g#67` in the buffer. -/
theorem checked_iff_getregs :
    let e := { gdbstubInit (Emu.start (Machine.powerOn fun _ => 0)) with
      clientbuf := ascii "$g#67" }
    Checked 0 2 e (ascii "$g") 0x36 0x37 ↔ ascii "$g" ≠ [] ∧
      (byteSum ((ascii "$g").tail.dropWhile (· != 0)) % 256 = 0 ∨
        (Hex.number [0x36, 0x37] ≠ byteSum (ascii "$g").tail % 256 ∧
          Hex.number [0x36, 0x37] ≠ byteSum ((ascii "$g").tail.takeWhile (· != 0)) % 256)) :=
  checked_iff _ [] (ascii "$g") [] 0x36 0x37 ⟨rfl, rfl, by decide, by decide, by decide⟩

/-- A zero byte hides what follows it: the packet is acknowledged and resumes the execution although
its digits are not the sum. -/
theorem zero_byte_hides_sum : ¬ ∀ (e : Emu) (before body rest : List Byte) (d₁ d₂ : Byte),
    e.Finds before body rest d₁ d₂ →
    Checked before.length (before.length + body.length) e body d₁ d₂ := by
  intro hclaim
  have hchecked := hclaim { gdbstubInit (Emu.start (Machine.powerOn fun _ => 0)) with
    clientbuf := ascii "$c" ++ [0, 1] ++ ascii "#63" } [] (ascii "$c" ++ [0, 1]) [] 0x36 0x33
    ⟨rfl, rfl, by decide, by decide, by decide⟩
  have hrefused := congrArg (fun r => r.toOption.map Emu.execute) (hchecked.refused (by decide))
  revert hrefused
  decide

end AvrEmu
