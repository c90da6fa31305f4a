import AvrEmu.Gdb.Memory
import AvrEmu.Gdb.Outcome

/-!
# The replies to read requests

Three sizes meet in an `m` packet: what the stub announces, the buffer for the digits, and the
smaller one for the frame. And the guard on the length looks at a product of 32 bits.
-/

namespace AvrEmu

variable {e e' : Emu} {t s : List Byte} {start rlen : BitVec 32}

/-! ## Frames -/

/-- The reply to a read request is a frame of lower-case digits, two for each byte. -/
def Emu.AnswersDigits (e e' : Emu) (t : List Byte) (rlen : BitVec 32) : Prop :=
  ∃ ds : List Byte, Replies e e' (ascii "m" ++ t) ds ∧ ds.length = 2 * rlen.toNat ∧
    ∀ c ∈ ds, Hex.IsLower c

/-- The text of bytes has lower-case digits. -/
theorem isLower_bytes (bs : List Byte) : ∀ c ∈ Hex.bytes bs, Hex.IsLower c := by
  intro c hc
  obtain ⟨b, -, hcb⟩ := List.mem_flatMap.mp hc
  have hlt := b.isLt
  simp only [Hex.pair, List.mem_cons, List.not_mem_nil, or_false] at hcb
  rcases hcb with rfl | rfl
  · exact Hex.isLower_digit (by omega)
  · exact Hex.isLower_digit (by omega)

/-- A frame ends with a digit. -/
theorem getLast?_framed (s : List Byte) : ∃ v < 16, (framed s).getLast? = some (Hex.digit v) := by
  refine ⟨(gdbCksumstr s).toNat % 16, Nat.mod_lt _ (by decide), ?_⟩
  rw [framed, Hex.pair]
  simp

/-- An answer too long for the frame's buffer is not sent as a frame. -/
theorem not_framed_of_long (hlen : 4092 ≤ s.length) (h : gdbSendstr s e = .ok e') (ds : List Byte) :
    e'.log ≠ e.log ++ [.send (framed ds)] := by
  intro hlog
  obtain ⟨-, -, h⟩ := bind_eq_ok h
  dsimp only at h
  split at h
  · rename_i hfits
    rw [length_framed] at hfits
    have hcut :
        ((framed s).take 4095 ++ [0]).take (framed s).length = (framed s).take 4095 ++ [0] := by
      rw [List.take_of_length_le]
      rw [List.length_append, List.length_take, length_framed, List.length_singleton]
      omega
    obtain ⟨-, -, h⟩ := bind_eq_ok h
    obtain rfl := Except.ok.inj h
    have hsame := List.append_cancel_left hlog
    rw [hcut, List.cons.injEq, Event.send.injEq] at hsame
    obtain ⟨v, hv, hlast⟩ := getLast?_framed ds
    rw [← hsame.1, List.getLast?_concat, Option.some.injEq] at hlast
    have hdigit := Hex.value_digit hv
    rw [← hlast] at hdigit
    cases hdigit
  · cases h

/-- Longer requests are not answered by a frame: they are cut, overrun the buffer of the frame or
fail the guard of the other. -/
theorem not_answersDigits (hconn : e.connected = true) (hrange : CarriesRange t start rlen)
    (hlong : 2046 ≤ rlen.toNat) (before rest : List Byte)
    (h : e.serve before rest (ascii "m" ++ t) = .ok e') : ¬ e.AnswersDigits e' t rlen := by
  rintro ⟨ds, hreply, -, -⟩
  rw [serve_read hconn hrange] at h
  obtain ⟨⟨⟩, hguard, h⟩ := bind_eq_ok h
  obtain ⟨buffer, hbuffer, h⟩ := bind_eq_ok h
  have hlen : buffer.length = 2 * rlen.toNat := by
    obtain ⟨bs, hbs, rfl⟩ := readmemLoop_bytes hbuffer
    rw [Hex.length_bytes, hbs]
  refine not_framed_of_long (by omega) h ds ?_
  rw [hreply]
  simp only [Emu.accepted, List.append_assoc]
  rfl

/-- An `m` packet for a range of flash is answered by a frame of its digits if and only if it asks
for at most 2045 bytes, although the packet size that the stub announces leaves room for 4094. -/
theorem read_frame_iff (e : Emu) (before rest t : List Byte) (start rlen : BitVec 32)
    (hconn : e.connected = true) (hrange : CarriesRange t start rlen)
    (hfit : start.toNat + rlen.toNat ≤ 2 ^ 24) :
    (∃ e', e.serve before rest (ascii "m" ++ t) = .ok e' ∧ e.AnswersDigits e' t rlen) ↔
      rlen.toNat ≤ 2045 := by
  constructor
  · rintro ⟨e', hserve, hreply⟩
    by_contra hlong
    exact not_answersDigits hconn hrange (by omega) before rest hserve hreply
  · intro hshort
    obtain ⟨e', hserve, hreply, -⟩ := serve_read_short hconn hrange hfit hshort before rest
    refine ⟨e', hserve, _, hreply, ?_, isLower_bytes _⟩
    rw [Hex.length_bytes, Core.romBytes, List.length_map, List.length_range]

/-- The text of a request for bytes from address zero on. -/
theorem carriesRange_zero {n : ℕ} {len : List Byte} (hlen : Hex.Numeral n len) (hn : n < 2 ^ 64) :
    CarriesRange (ascii "0" ++ 0x2c :: len) 0 (BitVec.ofNat 32 n) :=
  have haddr : Hex.Numeral 0 (ascii "0") := ⟨by decide, by decide, by decide⟩
  carriesRange_numerals haddr hlen (by decide) hn

/-- The packet `m0,2`. -/
theorem read_frame_iff_two :
    let e := gdbstubInit (Emu.start (Machine.powerOn fun _ => 0))
    (∃ e', e.serve [] [] (ascii "m" ++ ascii "0,2") = .ok e' ∧ e.AnswersDigits e' (ascii "0,2") 2) ↔
      (2 : BitVec 32).toNat ≤ 2045 :=
  read_frame_iff _ [] [] (ascii "0,2") 0 2 rfl
    (carriesRange_zero (n := 2) ⟨by decide, by decide, by decide⟩ (by decide)) (by decide)

/-- The reply to `m0,7fe` would have 4096 bytes, which the announced packet size allows. -/
theorem read_frame_cut : ¬ ∀ (e : Emu) (before rest t : List Byte) (start rlen : BitVec 32),
    e.connected = true → CarriesRange t start rlen → start.toNat + rlen.toNat ≤ 2 ^ 24 →
    2 * rlen.toNat + 4 ≤ pktBufMax →
    ∃ e', e.serve before rest (ascii "m" ++ t) = .ok e' ∧ e.AnswersDigits e' t rlen := by
  intro hclaim
  have hrange : CarriesRange (ascii "0,7fe") 0 0x7fe :=
    carriesRange_zero (n := 0x7fe) ⟨by decide, by decide, by decide⟩ (by decide)
  obtain ⟨e', hserve, hreply⟩ := hclaim (gdbstubInit (Emu.start (Machine.powerOn fun _ => 0))) [] []
    (ascii "0,7fe") 0 0x7fe rfl hrange (by decide) (by decide)
  exact not_answersDigits rfl hrange (by decide) [] [] hserve hreply

/-! ## Bounds -/

/-- Every word that the loop of `m` reads lies in flash, and everything that `sprintf` writes, its
zero byte included, in the buffer of 4097 bytes. -/
structure ReadsInBounds (start rlen : BitVec 32) : Prop where
  flash : ∀ i < rlen.toNat, ((start + BitVec.ofNat 32 i) / 2).toNat < flashSize
  buffer : ∀ i < rlen.toNat, 2 * i + 2 < 4097

/-- The loop ends if and only if it stays in bounds. -/
theorem readmemLoop_isOk_iff (s : Core) (start rlen : BitVec 32) :
    (∃ buffer, readmemLoop s.flash start rlen.toNat 0 = .ok buffer) ↔ ReadsInBounds start rlen := by
  constructor
  · rintro ⟨buffer, h⟩
    refine ⟨fun i hi => ?_, fun i hi => ?_⟩
    · have hinside := (inside_of_readmemLoop h hi).1
      rwa [Nat.zero_add] at hinside
    · have hinside := (inside_of_readmemLoop h hi).2
      omega
  · intro h
    have hlen : rlen.toNat ≤ 2048 := by
      by_contra hlong
      have hlast := h.buffer 2048 (by omega)
      omega
    refine ⟨_, readmemLoop_eq s start rlen.toNat 0 (fun k hk => ?_) (by omega)⟩
    rw [Nat.zero_add]
    exact h.flash k hk

theorem readsInBounds_iff (start rlen : BitVec 32) : ReadsInBounds start rlen ↔
    rlen.toNat = 0 ∨ (rlen.toNat ≤ 2048 ∧ start.toNat + rlen.toNat ≤ 2 ^ 24) := by
  have hhalf (addr : BitVec 32) : (addr / 2).toNat < flashSize ↔ addr.toNat < 2 ^ 24 := by
    have hdiv : (addr / 2).toNat = addr.toNat / 2 := BitVec.toNat_udiv
    rw [hdiv]
    unfold flashSize
    omega
  constructor
  · intro h
    rcases Nat.eq_zero_or_pos rlen.toNat with hzero | hpos
    · exact Or.inl hzero
    · have hlast := h.buffer (rlen.toNat - 1) (by omega)
      have hfirst := (hhalf _).mp (h.flash 0 hpos)
      rw [toNat_start_add (by have := start.isLt; omega)] at hfirst
      have hend := (hhalf _).mp (h.flash (rlen.toNat - 1) (by omega))
      rw [toNat_start_add (by omega)] at hend
      exact Or.inr ⟨by omega, by omega⟩
  · rintro (hzero | ⟨hlen, hfit⟩)
    · exact ⟨fun i hi => by omega, fun i hi => by omega⟩
    · refine ⟨fun i hi => (hhalf _).mpr ?_, fun i hi => by omega⟩
      rw [toNat_start_add (by omega)]
      omega

/-- A loop that goes out of bounds fails nowhere else. -/
theorem readmemLoop_error {flash : ℕ → Word} {n i : ℕ} {a : Abort}
    (h : readmemLoop flash start n i = .error a) : ∃ k, a = .wildMemory k := by
  induction n generalizing i with
  | zero => cases h
  | succ n ih =>
    rw [readmemLoop] at h
    dsimp only at h
    split at h
    · exact ⟨_, (Except.error.inj h).symm⟩
    split at h
    · exact ⟨_, (Except.error.inj h).symm⟩
    · cases hrest : readmemLoop flash start n (i + 1) with
      | error b =>
        rw [hrest] at h
        obtain rfl := Except.error.inj h
        exact ih hrest
      | ok left =>
        rw [hrest] at h
        cases h

theorem gdbSendstr_error {a : Abort} (hconn : e.connected = true) (h : gdbSendstr s e = .error a) :
    a = .wildMemory 4096 := by
  rw [gdbSendstr, require, if_pos hconn, pure_eq_ok, ok_bind] at h
  dsimp only at h
  split at h
  · rw [gdbSendraw, require, if_pos hconn] at h
    cases h
  · exact (Except.error.inj h).symm

/-- The guard, which looks at a product of 32 bits, ends the request. -/
theorem read_rejected_iff (hconn : e.connected = true) (hrange : CarriesRange t start rlen)
    (before rest : List Byte) :
    e.serve before rest (ascii "m" ++ t) = .error (.assertion "buffer overrun") ↔
      4097 ≤ 2 * rlen.toNat % 2 ^ 32 := by
  have hguard : rlen * 2 < 4097 ↔ ¬ 4097 ≤ 2 * rlen.toNat % 2 ^ 32 := by
    rw [BitVec.lt_def, BitVec.toNat_mul, Nat.mul_comm, Nat.not_le]
    rfl
  rw [serve_read hconn hrange]
  by_cases hpass : rlen * 2 < 4097
  · refine iff_of_false (fun h => ?_) (hguard.mp hpass)
    rw [decide_eq_true hpass, require_true, ok_bind] at h
    cases hloop : readmemLoop e.machine.flash start rlen.toNat 0 with
    | error a =>
      rw [hloop] at h
      obtain ⟨k, rfl⟩ := readmemLoop_error hloop
      cases h
    | ok buffer =>
      rw [hloop, ok_bind] at h
      cases gdbSendstr_error (by exact hconn) h
  · rw [decide_eq_false hpass]
    exact iff_of_true rfl (not_not.mp fun hlt => hpass (hguard.mpr hlt))

/-- A read request is rejected before any buffer is touched or stays in bounds, as its loop does, if
and only if its length is rejected, zero, or at most 2048 with the range inside flash. -/
theorem read_in_bounds_iff (e : Emu) (before rest t : List Byte) (start rlen : BitVec 32)
    (hconn : e.connected = true) (hrange : CarriesRange t start rlen) :
    ((∃ buffer, readmemLoop e.machine.flash start rlen.toNat 0 = .ok buffer) ↔
      ReadsInBounds start rlen) ∧
    ((e.serve before rest (ascii "m" ++ t) = .error (.assertion "buffer overrun") ∨
      ReadsInBounds start rlen) ↔
      4097 ≤ 2 * rlen.toNat % 2 ^ 32 ∨ rlen.toNat = 0 ∨
        (rlen.toNat ≤ 2048 ∧ start.toNat + rlen.toNat ≤ 2 ^ 24)) := by
  refine ⟨readmemLoop_isOk_iff e.machine.toCore start rlen, ?_⟩
  rw [read_rejected_iff hconn hrange, readsInBounds_iff]

/-- The packet `m0,2`. -/
theorem read_in_bounds_iff_two :
    let e := gdbstubInit (Emu.start (Machine.powerOn fun _ => 0))
    ((∃ buffer, readmemLoop e.machine.flash 0 (2 : BitVec 32).toNat 0 = .ok buffer) ↔
      ReadsInBounds 0 2) ∧
    ((e.serve [] [] (ascii "m" ++ ascii "0,2") = .error (.assertion "buffer overrun") ∨
      ReadsInBounds 0 2) ↔
      4097 ≤ 2 * (2 : BitVec 32).toNat % 2 ^ 32 ∨ (2 : BitVec 32).toNat = 0 ∨
        ((2 : BitVec 32).toNat ≤ 2048 ∧ (0 : BitVec 32).toNat + (2 : BitVec 32).toNat ≤ 2 ^ 24)) :=
  read_in_bounds_iff _ [] [] (ascii "0,2") 0 2 rfl
    (carriesRange_zero (n := 2) ⟨by decide, by decide, by decide⟩ (by decide))

/-- Twice 2^31 is zero in 32 bits: `m0,80000000` passes the guard and runs over the buffer. -/
theorem read_out_of_bounds : ¬ ∀ (e : Emu) (before rest t : List Byte) (start rlen : BitVec 32),
    e.connected = true → CarriesRange t start rlen →
    e.serve before rest (ascii "m" ++ t) = .error (.assertion "buffer overrun") ∨
      ReadsInBounds start rlen := by
  intro hclaim
  have hrange : CarriesRange (ascii "0,80000000") 0 0x80000000 :=
    carriesRange_zero (n := 0x80000000) ⟨by decide, by decide, by decide⟩ (by decide)
  rcases hclaim (gdbstubInit (Emu.start (Machine.powerOn fun _ => 0))) [] [] (ascii "0,80000000")
    0 0x80000000 rfl hrange with hreject | hbounds
  · exact absurd ((read_rejected_iff rfl hrange [] []).mp hreject) (by decide)
  · exact absurd (hbounds.buffer 2048 (by decide)) (by decide)

/-! ## What the program loads -/

section Loads

variable [DesLibrary]

/-- The machine is about to load a byte of an image from an address. -/
structure Machine.AboutToLoad (m : Machine) (p : ProgramLoad) (flash : ℕ → Word) (a : ℕ) :
    Prop where
  ready : m.Ready p.opcode
  admits : p.Admits m.instrWord
  flash_eq : m.flash = flash
  address_eq : m.loadAddress p = a

/-- The load puts a byte into the register that the instruction names. -/
def Machine.LoadsByte (m : Machine) (p : ProgramLoad) (b : Byte) : Prop :=
  m.step = .ok m.next ∧ m.next.memory (p.dest m.instrWord) = b

theorem Machine.AboutToLoad.loadsByte {m : Machine} {p : ProgramLoad} {s : Core} {a : ℕ}
    (h : m.AboutToLoad p s.flash a) : m.LoadsByte p (s.romByte a) := by
  obtain ⟨hstep, hbyte⟩ := next_load p h.ready h.admits
  refine ⟨hstep, ?_⟩
  rw [hbyte, h.address_eq]
  simp only [Core.romByte, h.flash_eq]

/-- The reply to an `m` packet for at most 2045 bytes of flash stands for that many bytes, and every
load of the program from one of the addresses, in whichever form and on whichever machine with
this image, gets the byte that the reply has for it. -/
theorem debugger_sees_loads (e : Emu) (before rest t : List Byte) (start rlen : BitVec 32)
    (hconn : e.connected = true) (hrange : CarriesRange t start rlen)
    (hfit : start.toNat + rlen.toNat ≤ 2 ^ 24) (hlen : rlen.toNat ≤ 2045) :
    ∃ e' reply bs, e.serve before rest (ascii "m" ++ t) = .ok e' ∧
      Replies e e' (ascii "m" ++ t) reply ∧ Hex.Denotes reply bs ∧ bs.length = rlen.toNat ∧
      ∀ (i : ℕ) (h : i < bs.length) (m : Machine) (p : ProgramLoad),
        m.AboutToLoad p e.machine.flash (start.toNat + i) → m.LoadsByte p bs[i] := by
  obtain ⟨e', hserve, hreply, -⟩ := serve_read_short hconn hrange hfit hlen before rest
  refine ⟨e', _, e.machine.romBytes start.toNat rlen.toNat, hserve, hreply, Hex.denotes_bytes _, ?_,
    fun i hi m p hload => ?_⟩
  · rw [Core.romBytes, List.length_map, List.length_range]
  · simp only [Core.romBytes, List.getElem_map, List.getElem_range]
    exact hload.loadsByte

end Loads

section Image

attribute [local instance] idleDes

/-- The packet `m0,2` and `LPM` at the start of the image: both see the low byte of the
instruction. -/
theorem debugger_sees_loads_two :
    let e := gdbstubInit (Emu.start (Machine.powerOn fun _ => 0x95c8))
    e.machine.next.memory 0 = 0xc8 ∧
    ∃ e' reply bs, e.serve [] [] (ascii "m" ++ ascii "0,2") = .ok e' ∧
      Replies e e' (ascii "m" ++ ascii "0,2") reply ∧ Hex.Denotes reply bs ∧
      bs[0]? = some 0xc8 := by
  intro e
  obtain ⟨e', reply, bs, hserve, hreply, hdenotes, hlength, hloads⟩ :=
    debugger_sees_loads e [] [] (ascii "0,2") 0 2 rfl
      (carriesRange_zero (n := 2) ⟨by decide, by decide, by decide⟩ (by decide)) (by decide)
      (by decide)
  have hlt : 0 < bs.length := by
    rw [hlength]
    decide
  have hload := (hloads 0 hlt e.machine (.implied false)
    ⟨⟨rfl, by decide, by decide⟩, trivial, rfl, by decide⟩).2
  have hbyte : e.machine.next.memory 0 = 0xc8 := by decide
  refine ⟨hbyte, e', reply, bs, hserve, hreply, hdenotes, ?_⟩
  rw [List.getElem?_eq_getElem hlt, ← hload]
  exact congrArg some hbyte

end Image

end AvrEmu
