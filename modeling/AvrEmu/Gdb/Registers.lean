import AvrEmu.Gdb.Serve
import AvrEmu.Lib.Bits
import AvrEmu.Run

/-!
# The register packets

The reply to `g` and the payload of `G` are the same 39 bytes in hexadecimal: the registers,
SREG, SP with its low byte first, and the PC as a byte address with its low byte first.
-/

namespace AvrEmu

variable {e e' : Emu} {m : Machine} {bs regs : List Byte} {t before rest : List Byte}

/-- The bytes that the stub reports. -/
def Machine.regBytes (m : Machine) : List Byte :=
  (List.range 32).map m.memory ++ [m.memory sreg, m.memory spLo, m.memory spHi,
    (m.pc <<< 1 &&& 0xff).setWidth 8, (m.pc >>> 7 &&& 0xff).setWidth 8,
    (m.pc >>> 15 &&& 0x7f).setWidth 8, 0]

theorem regText_eq (m : Machine) : m.regText = Hex.bytes m.regBytes := by
  rw [Machine.regText, Machine.regBytes, Hex.bytes, List.flatMap_append, List.flatMap_map]
  simp only [List.append_assoc]
  rfl

/-- A text of bytes as a little-endian number. -/
def littleEndian : List Byte → ℕ
  | [] => 0
  | b :: bs => littleEndian bs * 2 ^ 8 + b.toNat

/-- The PC of a packet. -/
def packetPc (p₀ p₁ p₂ p₃ : Byte) : BitVec 32 :=
  (p₀.setWidth 32 ||| p₁.setWidth 32 <<< 8 ||| p₂.setWidth 32 <<< 16 |||
    p₃.setWidth 32 <<< 24) >>> 1

theorem packetPc_toNat (p₀ p₁ p₂ p₃ : Byte) :
    (packetPc p₀ p₁ p₂ p₃).toNat = littleEndian [p₀, p₁, p₂, p₃] / 2 := by
  have h₀ := p₀.isLt
  have h₁ := p₁.isLt
  have h₂ := p₂.isLt
  have h₀₁ := Bits.toNat_or_shiftLeft (show 8 + 8 ≤ 32 by decide) p₀ p₁
  have h₀₂ := Bits.toNat_or_shiftLeft_of_lt (show 16 + 8 ≤ 32 by decide)
    (by rw [h₀₁]; omega) p₂
  have h₀₃ := Bits.toNat_or_shiftLeft_of_lt (show 24 + 8 ≤ 32 by decide)
    (by rw [h₀₂, h₀₁]; omega) p₃
  rw [packetPc, BitVec.toNat_ushiftRight, Nat.shiftRight_eq_div_pow, h₀₃, h₀₂, h₀₁]
  simp only [littleEndian]
  omega

/-- The bytes of the reported PC. -/
theorem pcBytes_toNat (pc : BitVec 32) :
    ((pc <<< 1 &&& 0xff).setWidth 8 : Byte).toNat = 2 * pc.toNat % 2 ^ 8 ∧
    ((pc >>> 7 &&& 0xff).setWidth 8 : Byte).toNat = 2 * pc.toNat / 2 ^ 8 % 2 ^ 8 ∧
    ((pc >>> 15 &&& 0x7f).setWidth 8 : Byte).toNat = 2 * pc.toNat / 2 ^ 16 % 2 ^ 7 := by
  have h8 (x : BitVec 32) : (x &&& 0xff).toNat = x.toNat % 2 ^ 8 :=
    Bits.toNat_and_low (show 8 ≤ 32 by decide) x
  have h7 (x : BitVec 32) : (x &&& 0x7f).toNat = x.toNat % 2 ^ 7 :=
    Bits.toNat_and_low (show 7 ≤ 32 by decide) x
  refine ⟨?_, ?_, ?_⟩
  · rw [BitVec.toNat_setWidth, h8, BitVec.toNat_shiftLeft, Nat.shiftLeft_eq]
    omega
  · rw [BitVec.toNat_setWidth, h8, BitVec.toNat_ushiftRight, Nat.shiftRight_eq_div_pow]
    omega
  · rw [BitVec.toNat_setWidth, h7, BitVec.toNat_ushiftRight, Nat.shiftRight_eq_div_pow]
    omega

/-- Sending the reported PC back restores it, if it has at most 22 bits. -/
theorem packetPc_pcBytes {pc : BitVec 32} (h : pc.toNat < 2 ^ 22) :
    packetPc ((pc <<< 1 &&& 0xff).setWidth 8) ((pc >>> 7 &&& 0xff).setWidth 8)
      ((pc >>> 15 &&& 0x7f).setWidth 8) 0 = pc := by
  obtain ⟨h₀, h₁, h₂⟩ := pcBytes_toNat pc
  apply BitVec.eq_of_toNat_eq
  rw [packetPc_toNat]
  simp only [littleEndian, h₀, h₁, h₂, show (0 : Byte).toNat = 0 from rfl]
  omega

/-- An even number of at most 23 bits is reported as it was sent. -/
theorem pcBytes_packetPc {p₀ p₁ p₂ p₃ : Byte} (heven : littleEndian [p₀, p₁, p₂, p₃] % 2 = 0)
    (hrange : littleEndian [p₀, p₁, p₂, p₃] < 2 ^ 23) :
    [(packetPc p₀ p₁ p₂ p₃ <<< 1 &&& 0xff).setWidth 8,
      (packetPc p₀ p₁ p₂ p₃ >>> 7 &&& 0xff).setWidth 8,
      (packetPc p₀ p₁ p₂ p₃ >>> 15 &&& 0x7f).setWidth 8, 0] = [p₀, p₁, p₂, p₃] := by
  obtain ⟨h₀, h₁, h₂⟩ := pcBytes_toNat (packetPc p₀ p₁ p₂ p₃)
  have hlt₀ := p₀.isLt
  have hlt₁ := p₁.isLt
  have hlt₂ := p₂.isLt
  rw [packetPc_toNat] at h₀ h₁ h₂
  simp only [littleEndian] at heven hrange h₀ h₁ h₂
  have heq₀ : (packetPc p₀ p₁ p₂ p₃ <<< 1 &&& 0xff).setWidth 8 = p₀ :=
    BitVec.eq_of_toNat_eq (by omega)
  have heq₁ : (packetPc p₀ p₁ p₂ p₃ >>> 7 &&& 0xff).setWidth 8 = p₁ :=
    BitVec.eq_of_toNat_eq (by omega)
  have heq₂ : (packetPc p₀ p₁ p₂ p₃ >>> 15 &&& 0x7f).setWidth 8 = p₂ :=
    BitVec.eq_of_toNat_eq (by omega)
  have heq₃ : 0 = p₃ := BitVec.eq_of_toNat_eq (show 0 = p₃.toNat by omega)
  rw [heq₀, heq₁, heq₂, heq₃]

/-! ## The handlers -/

theorem requireText_pair (b : Byte) (t : List Byte) : requireText (Hex.pair b ++ t) = .ok () := by
  have hdigit : Hex.digit (b.toNat / 16) ≠ 0 := by
    have hlt := b.isLt
    intro heq
    exact absurd (heq ▸ Hex.isLower_digit (show b.toNat / 16 < 16 by omega)) (by decide)
  have hne : ((Hex.pair b ++ t).headD 0 != 0) = true := bne_iff_ne.mpr hdigit
  rw [requireText, hne, require_true]

/-- The loop over the registers takes two digits for each. -/
theorem setregsLoop_bytes (i : ℕ) (regs t : List Byte) (e : Emu) :
    setregsLoop regs.length i (Hex.bytes regs ++ t) e =
      .ok (t, { e with machine := e.machine.writeBytes i regs }) := by
  induction regs generalizing i e with
  | nil => rfl
  | cons b regs ih =>
    have htext : Hex.bytes (b :: regs) ++ t = Hex.pair b ++ (Hex.bytes regs ++ t) := by
      rw [Hex.bytes, List.flatMap_cons, List.append_assoc]
      rfl
    have hbyte : ((b.setWidth 32).setWidth 8 : Byte) = b :=
      BitVec.setWidth_setWidth_of_le _ (by decide)
    rw [List.length_cons, setregsLoop, htext, requireText_pair, ok_bind, Hex.scan_pair, demand_some,
      ok_bind]
    dsimp only
    rw [List.drop_left' (Hex.length_pair b), ih, hbyte]
    rfl

/-- The machine that a packet of 39 bytes describes. -/
def Machine.setAll (m : Machine) (regs : List Byte) (s lo hi : Byte) (pc : BitVec 32) : Machine :=
  let n := m.writeBytes 0 regs
  { n with
    memory := Function.update (Function.update (Function.update n.memory sreg s) spLo lo) spHi hi
    pc := pc }

/-- The two checks of the PC. -/
theorem pc_checks {m : Machine} {pc : BitVec 32}
    (h : pc.toNat < m.pcLimit) :
    (pc &&& 0xffc00000 == 0) = true ∧ (m.pc22 || pc &&& 0xffff0000 == 0) = true := by
  have h22 : pc &&& 0xffc00000 = 0 ↔ pc.toNat < 2 ^ 22 := Bits.and_not_low_eq_zero_iff 22 pc
  have h16 : pc &&& 0xffff0000 = 0 ↔ pc.toNat < 2 ^ 16 := Bits.and_not_low_eq_zero_iff 16 pc
  rw [beq_iff_eq, Bool.or_eq_true, beq_iff_eq, h22, h16]
  rw [Core.pcLimit] at h
  cases hwide : m.pc22 with
  | false =>
    rw [hwide] at h
    simp only [Bool.false_eq_true, if_false] at h
    exact ⟨by omega, Or.inr h⟩
  | true =>
    rw [hwide, if_pos rfl] at h
    exact ⟨h, Or.inl rfl⟩

/-- The handler of `G` on a whole packet. -/
theorem gdbSetregs_bytes {s lo hi p₀ p₁ p₂ p₃ : Byte} {extra : List Byte}
    (hconn : e.connected = true) (hlen : regs.length = 32)
    (hpc : (packetPc p₀ p₁ p₂ p₃).toNat < e.machine.pcLimit) :
    gdbSetregs (ascii "G" ++ (Hex.bytes (regs ++ [s, lo, hi, p₀, p₁, p₂, p₃]) ++ t)) extra e =
      .ok { e with
        machine := e.machine.setAll regs s lo hi (packetPc p₀ p₁ p₂ p₃)
        log := e.log ++ [.send (framed (ascii "OK"))] } := by
  have htext : (ascii "G" ++ (Hex.bytes (regs ++ [s, lo, hi, p₀, p₁, p₂, p₃]) ++ t)).drop 1 =
      Hex.bytes regs ++ (Hex.pair s ++ (Hex.pair lo ++ (Hex.pair hi ++ (Hex.pair p₀ ++
        (Hex.pair p₁ ++ (Hex.pair p₂ ++ (Hex.pair p₃ ++ t))))))) := by
    rw [Hex.bytes, List.flatMap_append]
    simp only [List.append_assoc]
    rfl
  have hbyte (b : Byte) : ((b.setWidth 32).setWidth 8 : Byte) = b :=
    BitVec.setWidth_setWidth_of_le _ (by decide)
  have hdrop (b : Byte) (t : List Byte) : (Hex.pair b ++ t).drop 2 = t := rfl
  have hdrop₂ (b c : Byte) (t : List Byte) : (Hex.pair b ++ (Hex.pair c ++ t)).drop 4 = t := rfl
  have hloop := setregsLoop_bytes 0 regs
  rw [hlen] at hloop
  obtain ⟨h22, h16⟩ := pc_checks hpc
  rw [gdbSetregs, htext, hloop, ok_bind]
  dsimp only
  simp only [requireText_pair, Hex.scan_pair, demand_some, ok_bind, hdrop, hdrop₂, hbyte]
  change (require (packetPc p₀ p₁ p₂ p₃ &&& 0xffc00000 == 0) "PC is only 22 bits" >>= fun _ =>
    require ((e.machine.writeBytes 0 regs).pc22 || packetPc p₀ p₁ p₂ p₃ &&& 0xffff0000 == 0)
      "PC is only 16 bits" >>= fun _ => gdbSendstr (ascii "OK")
        { e with machine := e.machine.setAll regs s lo hi (packetPc p₀ p₁ p₂ p₃) }) = _
  rw [h22, writeBytes_toCore, h16, require_true, ok_bind, require_true, ok_bind]
  exact gdbSendstr_eq hconn (by decide)

/-- Writing back what is there changes nothing. -/
theorem setAll_self (m : Machine) : m.setAll ((List.range 32).map m.memory) (m.memory sreg)
    (m.memory spLo) (m.memory spHi) m.pc = m := by
  have hmem : (m.writeBytes 0 ((List.range 32).map m.memory)).memory = m.memory := by
    funext j
    rw [writeBytes_memory, if_pos (Nat.zero_le j), Nat.sub_zero, List.getElem?_map]
    by_cases hj : j < 32
    · rw [List.getElem?_range hj]
      rfl
    · rw [List.getElem?_eq_none (by rw [List.length_range]; omega)]
      rfl
  refine Machine.ext' ?_ ?_
  · simp only [Machine.setAll, writeBytes_toCore]
  · simp only [Machine.setAll, hmem, Function.update_eq_self]

/-- What is reported of a machine that a packet has described. -/
theorem regBytes_setAll {s lo hi : Byte} {pc : BitVec 32} (hlen : regs.length = 32) :
    (m.setAll regs s lo hi pc).regBytes = regs ++ [s, lo, hi, (pc <<< 1 &&& 0xff).setWidth 8,
      (pc >>> 7 &&& 0xff).setWidth 8, (pc >>> 15 &&& 0x7f).setWidth 8, 0] := by
  have hregs : (List.range 32).map (m.setAll regs s lo hi pc).memory = regs := by
    refine List.ext_getElem (by simp [hlen]) fun j hj hj' => ?_
    have hlo : j ≠ spLo := by unfold spLo; omega
    have hhi : j ≠ spHi := by unfold spHi; omega
    have hsreg : j ≠ sreg := by unfold sreg; omega
    simp only [List.getElem_map, List.getElem_range, Machine.setAll, Function.update_of_ne hlo,
      Function.update_of_ne hhi, Function.update_of_ne hsreg, writeBytes_memory, Nat.zero_le,
      if_true, Nat.sub_zero, List.getElem?_eq_getElem hj', Option.getD_some]
  rw [Machine.regBytes, hregs]
  simp [Machine.setAll]

/-- The number in a little-endian field of digits. -/
def fieldNumber : List Byte → ℕ
  | c :: d :: rest => fieldNumber rest * 2 ^ 8 + Hex.number [c, d]
  | _ => 0

theorem fieldNumber_bytes (bs : List Byte) : fieldNumber (Hex.bytes bs) = littleEndian bs := by
  induction bs with
  | nil => rfl
  | cons b bs ih =>
    have hcons : fieldNumber (Hex.bytes (b :: bs)) =
        fieldNumber (Hex.bytes bs) * 2 ^ 8 + Hex.number (Hex.pair b) := rfl
    rw [hcons, ih, Hex.number_pair, littleEndian]

theorem dispatch_g (t : List Byte) (e : Emu) : dispatch (ascii "g" ++ t) e =
    gdbSendstr e.machine.regText { e with execute := false } := rfl

theorem dispatch_G (t : List Byte) (e : Emu) : dispatch (ascii "G" ++ t) e =
    gdbSetregs (ascii "G" ++ t) [] { e with execute := false } := rfl

theorem length_regBytes (m : Machine) : m.regBytes.length = 39 := by
  rw [Machine.regBytes]
  simp

theorem length_regText (m : Machine) : m.regText.length = 78 := by
  rw [regText_eq, Hex.length_bytes, length_regBytes]

/-- The course of a `g` packet. -/
theorem serve_g (hconn : e.connected = true) (before rest : List Byte) :
    ∃ e', e.serve before rest (ascii "g") = .ok e' ∧
      Replies e e' (ascii "g") e.machine.regText ∧
      e' = { e with execute := false, clientbuf := e'.clientbuf, log := e'.log } := by
  rw [serve_eq hconn, dispatch_g]
  refine ⟨_, gdbSendstr_eq hconn (by rw [length_regText]; decide), ?_, rfl⟩
  simp only [Replies, Emu.accepted, List.append_assoc]
  rfl

/-- The course of a `G` packet. -/
theorem serve_G (regs : List Byte) (s lo hi : Byte) {p₀ p₁ p₂ p₃ : Byte}
    (hconn : e.connected = true) (hlen : regs.length = 32)
    (hpc : (packetPc p₀ p₁ p₂ p₃).toNat < e.machine.pcLimit)
    (before rest : List Byte) :
    ∃ e', e.serve before rest (ascii "G" ++
        Hex.bytes (regs ++ [s, lo, hi, p₀, p₁, p₂, p₃])) = .ok e' ∧
      Replies e e' (ascii "G" ++ Hex.bytes (regs ++ [s, lo, hi, p₀, p₁, p₂, p₃])) (ascii "OK") ∧
      e' = { e with
        machine := e.machine.setAll regs s lo hi (packetPc p₀ p₁ p₂ p₃)
        execute := false, clientbuf := e'.clientbuf, log := e'.log } := by
  rw [serve_eq hconn, List.append_assoc, dispatch_G]
  refine ⟨_, gdbSetregs_bytes hconn hlen hpc, ?_, rfl⟩
  simp only [Replies, Emu.accepted, List.append_assoc]
  rfl

/-- The fields of a packet of 39 bytes. -/
theorem exists_fields (h : bs.length = 39) : ∃ (regs : List Byte) (s lo hi p₀ p₁ p₂ p₃ : Byte),
    bs = regs ++ [s, lo, hi, p₀, p₁, p₂, p₃] ∧ regs.length = 32 := by
  have hsplit : bs = bs.take 32 ++ bs.drop 32 := (List.take_append_drop 32 bs).symm
  have hlen : (bs.drop 32).length = 7 := by rw [List.length_drop, h]
  obtain ⟨s, lo, hi, p₀, p₁, p₂, p₃, htail⟩ : ∃ s lo hi p₀ p₁ p₂ p₃,
      bs.drop 32 = [s, lo, hi, p₀, p₁, p₂, p₃] := by
    match hd : bs.drop 32, hlen with
    | [s, lo, hi, p₀, p₁, p₂, p₃], _ => exact ⟨s, lo, hi, p₀, p₁, p₂, p₃, rfl⟩
  exact ⟨bs.take 32, s, lo, hi, p₀, p₁, p₂, p₃, htail ▸ hsplit,
    by rw [List.length_take, h]; rfl⟩

/-- A `G` packet with what `g` has just reported changes nothing, and a `g` packet after a `G`
packet of 78 lower-case digits, whose PC is even and in range, reports those digits. -/
theorem registers_round_trip :
    (∀ (e : Emu) (before rest : List Byte), e.connected = true → e.machine.PcInRange →
      ∃ p e₁, e.serve before rest (ascii "g") = .ok e₁ ∧ Replies e e₁ (ascii "g") p ∧
        ∀ before rest : List Byte, ∃ e₂, e₁.serve before rest (ascii "G" ++ p) = .ok e₂ ∧
          Replies e₁ e₂ (ascii "G" ++ p) (ascii "OK") ∧
          e₂ = { e with execute := false, clientbuf := e₂.clientbuf, log := e₂.log }) ∧
    ∀ (e : Emu) (p before rest : List Byte), e.connected = true → p.length = 78 →
      (∀ c ∈ p, Hex.IsLower c) → fieldNumber (p.drop 70) % 2 = 0 →
      fieldNumber (p.drop 70) / 2 < e.machine.pcLimit →
      ∃ e₁, e.serve before rest (ascii "G" ++ p) = .ok e₁ ∧
        Replies e e₁ (ascii "G" ++ p) (ascii "OK") ∧
        ∀ before rest : List Byte, ∃ e₂, e₁.serve before rest (ascii "g") = .ok e₂ ∧
          Replies e₁ e₂ (ascii "g") p := by
  constructor
  · intro e before rest hconn hpc
    obtain ⟨e₁, hserve, hreply, hsame⟩ := serve_g hconn before rest
    refine ⟨_, e₁, hserve, hreply, fun before rest => ?_⟩
    have hconn₁ : e₁.connected = true := by rw [hsame, hconn]
    have hmachine : e₁.machine = e.machine := by rw [hsame]
    have h22 : e.machine.pc.toNat < 2 ^ 22 := by
      have hlimit := pcLimit_le e.machine.toCore
      unfold Machine.PcInRange at hpc
      omega
    have hpc₁ : (packetPc ((e.machine.pc <<< 1 &&& 0xff).setWidth 8)
        ((e.machine.pc >>> 7 &&& 0xff).setWidth 8) ((e.machine.pc >>> 15 &&& 0x7f).setWidth 8)
        0).toNat < e₁.machine.pcLimit := by
      rw [packetPc_pcBytes h22, hmachine]
      exact hpc
    obtain ⟨e₂, hserve₂, hreply₂, hsame₂⟩ := serve_G ((List.range 32).map e.machine.memory)
      (e.machine.memory sreg) (e.machine.memory spLo) (e.machine.memory spHi) hconn₁
      (by simp) hpc₁ before rest
    rw [regText_eq]
    refine ⟨e₂, hserve₂, hreply₂, ?_⟩
    rw [packetPc_pcBytes h22, hmachine, setAll_self] at hsame₂
    rw [hsame₂, hsame]
  · intro e p before rest hconn hlen hlower heven hrange
    obtain ⟨bs, hbs, rfl⟩ := Hex.exists_bytes (n := 39) hlen hlower
    obtain ⟨regs, s, lo, hi, p₀, p₁, p₂, p₃, rfl, hregs⟩ := exists_fields hbs
    have hfield : fieldNumber ((Hex.bytes (regs ++ [s, lo, hi, p₀, p₁, p₂, p₃])).drop 70) =
        littleEndian [p₀, p₁, p₂, p₃] := by
      have hsplit : Hex.bytes (regs ++ [s, lo, hi, p₀, p₁, p₂, p₃]) =
          Hex.bytes (regs ++ [s, lo, hi]) ++ Hex.bytes [p₀, p₁, p₂, p₃] := by
        simp only [Hex.bytes, List.flatMap_append, List.flatMap_cons, List.append_assoc,
          List.flatMap_nil, List.append_nil]
      rw [hsplit, List.drop_left' (by rw [Hex.length_bytes, List.length_append, hregs]; rfl),
        fieldNumber_bytes]
    rw [hfield] at heven hrange
    have h23 : littleEndian [p₀, p₁, p₂, p₃] < 2 ^ 23 := by
      have hlimit := pcLimit_le e.machine.toCore
      omega
    rw [← packetPc_toNat] at hrange
    obtain ⟨e₁, hserve, hreply, hsame⟩ := serve_G regs s lo hi hconn hregs hrange before rest
    refine ⟨e₁, hserve, hreply, fun before rest => ?_⟩
    have hconn₁ : e₁.connected = true := by rw [hsame, hconn]
    obtain ⟨e₂, hserve₂, hreply₂, -⟩ := serve_g hconn₁ before rest
    have htext : e₁.machine.regText = Hex.bytes (regs ++ [s, lo, hi, p₀, p₁, p₂, p₃]) := by
      rw [regText_eq, hsame, regBytes_setAll hregs, pcBytes_packetPc heven h23]
    rw [htext] at hreply₂
    exact ⟨e₂, hserve₂, hreply₂⟩

/-- At reset, with what `g` reports and with a payload that sets PC to 1. -/
theorem registers_round_trip_reset :
    let e := gdbstubInit (Emu.start (Machine.powerOn fun _ => 0))
    let p := List.replicate 70 0x61 ++ ascii "02000000"
    (∃ p e₁, e.serve [] [] (ascii "g") = .ok e₁ ∧ Replies e e₁ (ascii "g") p ∧
      ∀ before rest : List Byte, ∃ e₂, e₁.serve before rest (ascii "G" ++ p) = .ok e₂ ∧
        Replies e₁ e₂ (ascii "G" ++ p) (ascii "OK") ∧
        e₂ = { e with execute := false, clientbuf := e₂.clientbuf, log := e₂.log }) ∧
    ∃ e₁, e.serve [] [] (ascii "G" ++ p) = .ok e₁ ∧ Replies e e₁ (ascii "G" ++ p) (ascii "OK") ∧
      ∀ before rest : List Byte, ∃ e₂, e₁.serve before rest (ascii "g") = .ok e₂ ∧
        Replies e₁ e₂ (ascii "g") p := by
  have hlower : ∀ c ∈ List.replicate 70 (0x61 : Byte) ++ ascii "02000000", Hex.IsLower c := by
    have hdigits : ascii "02000000" = [0x30, 0x32, 0x30, 0x30, 0x30, 0x30, 0x30, 0x30] := rfl
    rw [hdigits, List.forall_mem_append]
    refine ⟨fun c hc => ?_, by decide⟩
    rw [List.eq_of_mem_replicate hc]
    decide
  exact ⟨registers_round_trip.1 _ [] [] rfl (by unfold Machine.PcInRange; decide),
    registers_round_trip.2 _ _ [] [] rfl rfl hlower (by decide) (by decide)⟩

end AvrEmu
