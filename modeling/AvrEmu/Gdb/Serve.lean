import AvrEmu.Gdb.Command

/-!
# Serving one packet

A packet with the right checksum is acknowledged and its text goes to the handler of the first
table entry that fits. Answers that fit the buffer are sent whole.
-/

namespace AvrEmu

variable {e e' : Emu} {s t before rest : List Byte}

/-- The client's packet for `s` lies in the buffer and is handled. -/
def Emu.serve (e : Emu) (before rest s : List Byte) : Except Abort Emu :=
  gdbCmd before.length (before.length + 1 + s.length)
    { e with clientbuf := before ++ framed s ++ rest }

/-- The packet `s` is acknowledged and answered by `reply`. -/
def Replies (e e' : Emu) (s reply : List Byte) : Prop :=
  e'.log = e.log ++ [.packet (framed s), .send (ascii "+"), .send (framed reply)]

theorem framed_eq (s : List Byte) : framed s = 0x24 :: (s ++ 0x23 :: Hex.pair (gdbCksumstr s)) := by
  rw [framed, List.append_assoc, List.append_assoc]
  rfl

@[simp] theorem length_framed (s : List Byte) : (framed s).length = s.length + 4 := by
  simp only [framed_eq, List.length_cons, List.length_append, Hex.length_pair]

/-- What is sent when the answer fits. -/
theorem gdbSendstr_eq (hconn : e.connected = true) (hlen : s.length ≤ 4091) :
    gdbSendstr s e = .ok { e with log := e.log ++ [.send (framed s)] } := by
  have hfits : (framed s).length ≤ 4095 := by
    rw [length_framed]
    omega
  have hwhole : ((framed s).take 4095 ++ [0]).take (framed s).length = framed s := by
    rw [List.take_of_length_le hfits, List.take_left]
  rw [gdbSendstr, hconn, require_true, ok_bind]
  dsimp only
  rw [if_pos (Nat.le_trans hfits (by decide)), hwhole, gdbSendraw, hconn, require_true, ok_bind,
    pure_eq_ok]

/-- The state in which the handler finds the stub. -/
def Emu.accepted (e : Emu) (before rest s : List Byte) : Emu :=
  { e with
    clientbuf := before ++ 0x24 :: (s ++ 0 :: (Hex.pair (gdbCksumstr s) ++ rest))
    log := e.log ++ [.packet (framed s), .send (ascii "+")] }

/-- A packet with the right checksum reaches the dispatcher, its `#` replaced by a zero. -/
theorem serve_eq (hconn : e.connected = true) :
    e.serve before rest s =
      dispatch (s ++ 0 :: (Hex.pair (gdbCksumstr s) ++ rest)) (e.accepted before rest s) := by
  have hbuf : before ++ framed s ++ rest =
      before ++ 0x24 :: (s ++ 0x23 :: (Hex.pair (gdbCksumstr s) ++ rest)) := by
    rw [framed_eq]
    simp only [List.append_assoc, List.cons_append]
  have htext : (before ++ framed s ++ rest).drop before.length =
      0x24 :: (s ++ 0x23 :: (Hex.pair (gdbCksumstr s) ++ rest)) := by
    rw [hbuf, List.drop_left]
  have hpacket : (0x24 :: (s ++ 0x23 :: (Hex.pair (gdbCksumstr s) ++ rest))).take
      (before.length + 1 + s.length + 3 - before.length) = framed s := by
    have hwhole : 0x24 :: (s ++ 0x23 :: (Hex.pair (gdbCksumstr s) ++ rest)) = framed s ++ rest := by
      rw [framed_eq]
      simp only [List.append_assoc, List.cons_append]
    rw [hwhole, show before.length + 1 + s.length + 3 - before.length = (framed s).length by
      rw [length_framed]; omega, List.take_left]
  have hcksum : gdbCksum (s ++ 0x23 :: (Hex.pair (gdbCksumstr s) ++ rest))
      (before.length + 1 + s.length - before.length - 1) = gdbCksumstr s := by
    rw [show before.length + 1 + s.length - before.length - 1 = s.length by omega, gdbCksum,
      gdbCksumstr, List.take_left]
  have hpound : (before ++ framed s ++ rest).drop (before.length + 1 + s.length) =
      0x23 :: (Hex.pair (gdbCksumstr s) ++ rest) := by
    rw [show before.length + 1 + s.length = before.length + (1 + s.length) by omega,
      ← List.drop_drop, htext, Nat.add_comm 1, List.drop_succ_cons, List.drop_left]
  have hset : (before ++ framed s ++ rest).set (before.length + 1 + s.length) 0 =
      before ++ 0x24 :: (s ++ 0 :: (Hex.pair (gdbCksumstr s) ++ rest)) := by
    rw [hbuf, List.set_append_right _ _ (by omega),
      show before.length + 1 + s.length - before.length = s.length + 1 by omega, List.set_cons_succ,
      List.set_append_right _ _ (Nat.le_refl _), Nat.sub_self, List.set_cons_zero]
  have hscan : scanCksum (0x23 :: (Hex.pair (gdbCksumstr s) ++ rest)) =
      some ((gdbCksumstr s).setWidth 32) := by
    rw [scanCksum, Hex.literal_self]
    change (Hex.scan (some 2) (Hex.pair (gdbCksumstr s) ++ rest)).bind _ = _
    rw [Hex.scan_pair]
    rfl
  have hlt : before.length < before.length + 1 + s.length := by omega
  unfold Emu.serve gdbCmd
  dsimp only
  rw [htext, hpacket, hpound]
  simp only [List.headD_cons, List.tail_cons, if_pos hlt, hcksum, hscan, demand_some, ok_bind,
    bne_self_eq_false, Bool.false_eq_true, if_false, gdbSendraw, hconn, require_true, pure_eq_ok,
    hset, List.drop_left, show ((0x24 : Byte) != 0x2b && (0x24 : Byte) != 0x2d) = true from rfl]
  rw [Emu.accepted, List.append_assoc, hconn]
  rfl

/-! ## Bytes written one after another -/

/-- The machine with bytes written to the cells from `i` on. -/
def Machine.writeBytes (m : Machine) : ℕ → List Byte → Machine
  | _, [] => m
  | i, b :: bs => Machine.writeBytes { m with memory := Function.update m.memory i b } (i + 1) bs

@[simp] theorem writeBytes_toCore (m : Machine) (i : ℕ) (bs : List Byte) :
    (m.writeBytes i bs).toCore = m.toCore := by
  induction bs generalizing m i with
  | nil => rfl
  | cons b bs ih => exact ih _ _

/-- The cells after a write. -/
theorem writeBytes_memory (m : Machine) (i : ℕ) (bs : List Byte) (j : ℕ) :
    (m.writeBytes i bs).memory j =
      if i ≤ j then (bs[j - i]?).getD (m.memory j) else m.memory j := by
  induction bs generalizing m i with
  | nil => simp [Machine.writeBytes]
  | cons b bs ih =>
    rw [Machine.writeBytes, ih]
    dsimp only
    by_cases hlt : i + 1 ≤ j
    · rw [if_pos hlt, if_pos (by omega), show j - i = j - (i + 1) + 1 by omega,
        List.getElem?_cons_succ, Function.update_of_ne (by omega)]
    · rw [if_neg hlt]
      by_cases heq : i = j
      · subst heq
        rw [if_pos (Nat.le_refl _), Nat.sub_self, Function.update_self]
        rfl
      · rw [if_neg (by omega), Function.update_of_ne (by omega)]

end AvrEmu
