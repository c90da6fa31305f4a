import AvrEmu.Gdb.Serve
import AvrEmu.Lib.Bits
import AvrEmu.ProgramLoads

/-!
# The memory packets

`M` writes to data memory, `m` reads from flash. What has been written is therefore read back
only if flash already holds it.
-/

namespace AvrEmu

variable {e : Emu} {bs addr addr' len len' data t : List Byte} {a n : ℕ}

/-- The text of an `M` packet. -/
def writeText (addr len data : List Byte) : List Byte :=
  ascii "M" ++ (addr ++ 0x2c :: (len ++ 0x3a :: data))

/-- The text of an `m` packet. -/
def readText (addr len : List Byte) : List Byte := ascii "m" ++ (addr ++ 0x2c :: len)

/-- Both numbers of a range. -/
theorem scanRange_eq (haddr : Hex.Numeral a addr) (hlen : Hex.Numeral n len)
    (ha : a < 2 ^ 64) (hn : n < 2 ^ 64)
    (ht : ∀ c ∈ t.head?, Hex.isDigit c = false ∧ c ≠ 0x78 ∧ c ≠ 0x58) :
    scanRange (addr ++ 0x2c :: (len ++ t)) = some (BitVec.ofNat 32 a, BitVec.ofNat 32 n, t) := by
  have hcomma : ∀ c ∈ (0x2c :: (len ++ t)).head?, Hex.isDigit c = false ∧ c ≠ 0x78 ∧ c ≠ 0x58 := by
    intro c hc
    obtain rfl : 0x2c = c := by simpa using hc
    decide
  simp only [scanRange, Hex.scan_numeral haddr hcomma ha, Hex.scan_numeral hlen ht hn,
    Hex.literal_self, Option.bind_eq_bind, Option.bind_some, Option.pure_def]

/-- The loop of `M` writes byte after byte. -/
theorem writememLoop_eq (hdata : Hex.Denotes data bs) (i : ℕ) (hfit : a + i + bs.length ≤ 2 ^ 16)
    (t : List Byte) (e : Emu) :
    writememLoop (BitVec.ofNat 32 a) bs.length i (data ++ t) e =
      .ok { e with machine := e.machine.writeBytes (a + i) bs } := by
  induction data, bs using Hex.Denotes.induct generalizing i e with
  | case1 c d s b bs ih =>
    obtain ⟨hc, hd, hb, hs⟩ := hdata
    rw [List.length_cons] at hfit
    have haddr : (BitVec.ofNat 32 a + BitVec.ofNat 32 i &&& 0xffff).toNat = a + i := by
      have hmask : (BitVec.ofNat 32 a + BitVec.ofNat 32 i &&& 0xffff).toNat =
          (BitVec.ofNat 32 a + BitVec.ofNat 32 i).toNat % 2 ^ 16 :=
        Bits.toNat_and_low (show 16 ≤ 32 by decide) _
      rw [hmask, BitVec.toNat_add, BitVec.toNat_ofNat, BitVec.toNat_ofNat]
      omega
    have hbyte : ((b.setWidth 32).setWidth 8 : Byte) = b :=
      BitVec.setWidth_setWidth_of_le _ (by decide)
    rw [List.length_cons, writememLoop, List.cons_append, List.cons_append,
      Hex.scan_denoted hc hd hb, demand_some, ok_bind]
    dsimp only
    rw [haddr, hbyte]
    exact ih hs (i + 1) (by omega) _
  | case2 => rfl
  | case3 => exact absurd hdata (by simp_all [Hex.Denotes])

/-- The flash bytes of a range. -/
def Core.romBytes (s : Core) (a n : ℕ) : List Byte := (List.range n).map fun i => s.romByte (a + i)

/-- The byte that the loop of `m` picks from a word of flash. -/
private theorem picked_byte (s : Core) (addr : BitVec 32) :
    (if addr % 2 == 0 then (s.flash (addr / 2).toNat &&& 0xff).setWidth 8
      else (s.flash (addr / 2).toNat >>> 8).setWidth 8) = s.romByte addr.toNat := by
  have hword : (addr / 2).toNat = addr.toNat / 2 := BitVec.toNat_udiv
  have heven : (addr % 2 == 0) = !decide (addr.toNat % 2 = 1) := by
    rw [Bool.eq_iff_iff, beq_iff_eq, ← BitVec.toNat_inj, BitVec.toNat_umod]
    simp
  rw [heven, hword, Core.romByte, setWidth_and_ff]
  by_cases hodd : addr.toNat % 2 = 1 <;> simp [hodd]

/-- The loop of `m` reads flash byte after byte, as long as it stays inside flash and the buffer. -/
theorem readmemLoop_eq (s : Core) (start : BitVec 32) (n i : ℕ)
    (hflash : ∀ k < n, ((start + BitVec.ofNat 32 (i + k)) / 2).toNat < flashSize)
    (hbuffer : i + n ≤ 2048) : readmemLoop s.flash start n i =
      .ok (Hex.bytes
        ((List.range n).map fun k => s.romByte (start + BitVec.ofNat 32 (i + k)).toNat)) := by
  induction n generalizing i with
  | zero => rfl
  | succ n ih =>
    have hshift (k : ℕ) : i + 1 + k = i + (k + 1) := by omega
    have hsize := hflash 0 (Nat.succ_pos n)
    have hrest :=
      ih (i + 1) (fun k hk => by rw [hshift]; exact hflash (k + 1) (by omega)) (by omega)
    simp only [hshift] at hrest
    rw [Nat.add_zero] at hsize
    simp only [readmemLoop, if_neg (Nat.not_le.mpr hsize), if_neg (show ¬ 2048 ≤ i by omega),
      picked_byte, hrest, ok_bind, pure_eq_ok, List.range_succ_eq_map, List.map_cons, List.map_map,
      Nat.add_zero]
    rfl

/-- A loop that ends has stayed inside. -/
theorem inside_of_readmemLoop {flash : ℕ → Word} {start : BitVec 32} {i : ℕ}
    (h : readmemLoop flash start n i = .ok t) {k : ℕ} (hk : k < n) :
    ((start + BitVec.ofNat 32 (i + k)) / 2).toNat < flashSize ∧ i + k < 2048 := by
  induction n generalizing i k t with
  | zero => omega
  | succ n ih =>
    rw [readmemLoop] at h
    dsimp only at h
    split at h
    · cases h
    split at h
    · cases h
    rename_i hflash hbuffer
    obtain ⟨left, hleft, -⟩ := bind_eq_ok h
    cases k with
    | zero => exact ⟨Nat.not_le.mp hflash, Nat.not_le.mp hbuffer⟩
    | succ k =>
      have hnext := ih hleft (show k < n by omega)
      rwa [show i + 1 + k = i + (k + 1) by omega] at hnext

/-- A range that does not wrap around. -/
theorem toNat_start_add {start : BitVec 32} {i : ℕ} (h : start.toNat + i < 2 ^ 32) :
    (start + BitVec.ofNat 32 i).toNat = start.toNat + i := by
  rw [BitVec.toNat_add, BitVec.toNat_ofNat]
  omega

theorem readmemLoop_romBytes (s : Core) {start : BitVec 32} (ha : start.toNat + n ≤ 2 ^ 24)
    (hn : n ≤ 2048) :
    readmemLoop s.flash start n 0 = .ok (Hex.bytes (s.romBytes start.toNat n)) := by
  have haddr {k : ℕ} (hk : k < n) : (start + BitVec.ofNat 32 (0 + k)).toNat = start.toNat + k := by
    rw [Nat.zero_add, toNat_start_add (by omega)]
  rw [readmemLoop_eq s start n 0 (fun k hk => ?_) (by omega), Core.romBytes]
  · congr 2
    refine List.map_congr_left fun k hk => ?_
    rw [haddr (List.mem_range.mp hk)]
  · have hhalf : ((start + BitVec.ofNat 32 (0 + k)) / 2).toNat = (start.toNat + k) / 2 := by
      rw [BitVec.toNat_udiv, haddr hk]
      rfl
    rw [hhalf]
    unfold flashSize
    omega

theorem dispatch_M (t : List Byte) (e : Emu) : dispatch (ascii "M" ++ t) e =
    gdbWritemem (ascii "M" ++ t) [] { e with execute := false } := rfl

theorem dispatch_m (t : List Byte) (e : Emu) : dispatch (ascii "m" ++ t) e =
    gdbReadmem (ascii "m" ++ t) [] { e with execute := false } := rfl

/-- The course of an `M` packet. -/
theorem serve_M (hconn : e.connected = true) (haddr : Hex.Numeral a addr)
    (hlen : Hex.Numeral bs.length len) (hdata : Hex.Denotes data bs)
    (hfit : a + bs.length ≤ 2 ^ 16) (before rest : List Byte) :
    ∃ e', e.serve before rest (writeText addr len data) = .ok e' ∧
      Replies e e' (writeText addr len data) (ascii "OK") ∧
      e' = { e with
        machine := e.machine.writeBytes a bs
        execute := false, clientbuf := e'.clientbuf, log := e'.log } := by
  have hrange := scanRange_eq (t := 0x3a :: (data ++ 0 ::
    (Hex.pair (gdbCksumstr (writeText addr len data)) ++ rest))) haddr hlen (by omega) (by omega)
    (by
      intro c hc
      obtain rfl : 0x3a = c := by simpa using hc
      decide)
  have hcount : (BitVec.ofNat 32 bs.length).toNat = bs.length := by
    rw [BitVec.toNat_ofNat]
    omega
  have hloop := fun e => writememLoop_eq (a := a) hdata 0 (by omega)
    (0 :: (Hex.pair (gdbCksumstr (writeText addr len data)) ++ rest)) e
  have htext : (writeText addr len data ++ 0 ::
      (Hex.pair (gdbCksumstr (writeText addr len data)) ++ rest)).drop 1 =
      addr ++ 0x2c :: (len ++ 0x3a :: (data ++ 0 ::
        (Hex.pair (gdbCksumstr (writeText addr len data)) ++ rest))) := by
    simp only [writeText, List.append_assoc, List.cons_append]
    rfl
  have hdispatch (t : List Byte) (e : Emu) : dispatch (writeText addr len data ++ t) e =
      gdbWritemem (writeText addr len data ++ t) [] { e with execute := false } := by
    rw [writeText, List.append_assoc, dispatch_M]
  rw [serve_eq hconn, hdispatch]
  simp only [gdbWritemem, htext, hrange, demand_some, ok_bind, Hex.literal_self, hcount, hloop]
  refine ⟨_, gdbSendstr_eq hconn (by decide), ?_, rfl⟩
  simp only [Replies, Emu.accepted, List.append_assoc]
  rfl

/-- The text gives a range, whatever comes after the zero byte that ends it. -/
def CarriesRange (t : List Byte) (start len : BitVec 32) : Prop :=
  ∀ u, ∃ left, scanRange (t ++ 0 :: u) = some (start, len, left)

theorem carriesRange_numerals (haddr : Hex.Numeral a addr) (hlen : Hex.Numeral n len)
    (ha : a < 2 ^ 64) (hn : n < 2 ^ 64) :
    CarriesRange (addr ++ 0x2c :: len) (BitVec.ofNat 32 a) (BitVec.ofNat 32 n) := by
  intro u
  have hrange := scanRange_eq (t := 0 :: u) haddr hlen ha hn (by
    intro c hc
    obtain rfl : 0 = c := by simpa using hc
    decide)
  exact ⟨0 :: u, by simpa using hrange⟩

/-- An `m` packet comes to the loop with the range of its text. -/
theorem serve_read {start rlen : BitVec 32} (hconn : e.connected = true)
    (hrange : CarriesRange t start rlen) (before rest : List Byte) :
    e.serve before rest (ascii "m" ++ t) = (do
      require (rlen * 2 < 4097) "buffer overrun"
      let buffer ← readmemLoop e.machine.flash start rlen.toNat 0
      gdbSendstr buffer { e.accepted before rest (ascii "m" ++ t) with execute := false }) := by
  obtain ⟨left, hscan⟩ := hrange (Hex.pair (gdbCksumstr (ascii "m" ++ t)) ++ rest)
  have htext : (ascii "m" ++ t ++ 0 :: (Hex.pair (gdbCksumstr (ascii "m" ++ t)) ++ rest)).drop 1 =
      t ++ 0 :: (Hex.pair (gdbCksumstr (ascii "m" ++ t)) ++ rest) := rfl
  have hdispatch (u : List Byte) (e : Emu) : dispatch (ascii "m" ++ t ++ u) e =
      gdbReadmem (ascii "m" ++ t ++ u) [] { e with execute := false } := by
    rw [List.append_assoc, dispatch_m]
  rw [serve_eq hconn, hdispatch]
  simp only [gdbReadmem, htext, hscan, demand_some, ok_bind]
  rfl

/-- The course of an `m` packet that is answered in full. -/
theorem serve_read_short {start rlen : BitVec 32} (hconn : e.connected = true)
    (hrange : CarriesRange t start rlen) (hfit : start.toNat + rlen.toNat ≤ 2 ^ 24)
    (hlen : rlen.toNat ≤ 2045) (before rest : List Byte) :
    ∃ e', e.serve before rest (ascii "m" ++ t) = .ok e' ∧
      Replies e e' (ascii "m" ++ t) (Hex.bytes (e.machine.romBytes start.toNat rlen.toNat)) ∧
      e' = { e with execute := false, clientbuf := e'.clientbuf, log := e'.log } := by
  have hguard : decide (rlen * 2 < 4097) = true := by
    rw [decide_eq_true_iff, BitVec.lt_def, BitVec.toNat_mul]
    change rlen.toNat * 2 % 2 ^ 32 < 4097
    omega
  have hshort : (Hex.bytes (e.machine.romBytes start.toNat rlen.toNat)).length ≤ 4091 := by
    rw [Hex.length_bytes, Core.romBytes, List.length_map, List.length_range]
    omega
  rw [serve_read hconn hrange, hguard, require_true, ok_bind,
    readmemLoop_romBytes _ hfit (by omega), ok_bind]
  refine ⟨_, gdbSendstr_eq hconn hshort, ?_, rfl⟩
  simp only [Replies, Emu.accepted, List.append_assoc]
  rfl

/-- The course of an `m` packet in numerals. -/
theorem serve_m (hconn : e.connected = true) (haddr : Hex.Numeral a addr)
    (hlen : Hex.Numeral n len) (hfit : a + n ≤ 2 ^ 24) (hn : n ≤ 2045) (before rest : List Byte) :
    ∃ e', e.serve before rest (readText addr len) = .ok e' ∧
      Replies e e' (readText addr len) (Hex.bytes (e.machine.romBytes a n)) ∧
      e' = { e with execute := false, clientbuf := e'.clientbuf, log := e'.log } := by
  have ha : (BitVec.ofNat 32 a).toNat = a := Nat.mod_eq_of_lt (by omega)
  have hn' : (BitVec.ofNat 32 n).toNat = n := Nat.mod_eq_of_lt (by omega)
  have hserve := serve_read_short hconn
    (carriesRange_numerals haddr hlen (by omega) (by omega)) (by omega) (by omega) before rest
  rwa [ha, hn'] at hserve

theorem romBytes_eq_iff (s : Core) :
    s.romBytes a bs.length = bs ↔ ∀ (i : ℕ) (h : i < bs.length), s.romByte (a + i) = bs[i] := by
  rw [List.ext_getElem_iff]
  simp only [Core.romBytes, List.length_map, List.length_range, true_and, List.getElem_map,
    List.getElem_range]
  exact ⟨fun h i hi => h i hi hi, fun h i hi _ => h i hi⟩

/-- An `M` packet changes the cells of its range and no others, and an `m` packet after it is
answered with the bytes written if and only if flash holds them at the same address. -/
theorem memory_reads_back_iff (e : Emu) (a : ℕ) (bs addr addr' len len' data : List Byte)
    (before rest before' rest' : List Byte) (hconn : e.connected = true)
    (haddr : Hex.Numeral a addr) (haddr' : Hex.Numeral a addr') (hlen : Hex.Numeral bs.length len)
    (hlen' : Hex.Numeral bs.length len') (hdata : Hex.Denotes data bs) (hmax : bs.length ≤ 2045)
    (hfit : a + bs.length ≤ 2 ^ 16) :
    ∃ e₁ e₂ reply, e.serve before rest (writeText addr len data) = .ok e₁ ∧
      Replies e e₁ (writeText addr len data) (ascii "OK") ∧
      e₁.serve before' rest' (readText addr' len') = .ok e₂ ∧
      Replies e₁ e₂ (readText addr' len') reply ∧
      (∀ c, e₂.machine.memory c =
        if a ≤ c ∧ c < a + bs.length then bs.getD (c - a) 0 else e.machine.memory c) ∧
      (reply = Hex.bytes bs ↔
        ∀ (i : ℕ) (h : i < bs.length), e.machine.romByte (a + i) = bs[i]) := by
  obtain ⟨e₁, hserve, hreply, hsame⟩ := serve_M hconn haddr hlen hdata hfit before rest
  have hconn₁ : e₁.connected = true := by rw [hsame, hconn]
  have hcore : e₁.machine.toCore = e.machine.toCore := by rw [hsame, writeBytes_toCore]
  obtain ⟨e₂, hserve₂, hreply₂, hsame₂⟩ := serve_m hconn₁ haddr' hlen' (by omega) hmax before' rest'
  refine ⟨e₁, e₂, _, hserve, hreply, hserve₂, hreply₂, fun c => ?_, ?_⟩
  · rw [hsame₂, hsame, writeBytes_memory]
    by_cases hc : a ≤ c
    · by_cases hlt : c < a + bs.length
      · rw [if_pos hc, if_pos ⟨hc, hlt⟩, List.getElem?_eq_getElem (by omega), Option.getD_some,
          List.getD_eq_getElem?_getD, List.getElem?_eq_getElem (by omega), Option.getD_some]
      · rw [if_pos hc, if_neg (by omega), List.getElem?_eq_none (by omega), Option.getD_none]
    · rw [if_neg hc, if_neg (by omega)]
  · rw [hcore, ← romBytes_eq_iff]
    exact ⟨Hex.bytes_inj, congrArg Hex.bytes⟩

/-- An image of the bytes 1 and 2 in turn, and the two that begin at the address 1 written over. -/
theorem memory_reads_back_iff_two :
    let e := gdbstubInit (Emu.start (Machine.powerOn fun _ => 0x0201))
    ∃ e₁ e₂ reply, e.serve [] [] (ascii "M1,2:0201") = .ok e₁ ∧
      Replies e e₁ (ascii "M1,2:0201") (ascii "OK") ∧
      e₁.serve [] [] (ascii "m1,2") = .ok e₂ ∧ Replies e₁ e₂ (ascii "m1,2") reply ∧
      (∀ c, e₂.machine.memory c =
        if 1 ≤ c ∧ c < 1 + 2 then [(2 : Byte), 1].getD (c - 1) 0 else e.machine.memory c) ∧
      (reply = Hex.bytes [2, 1] ↔ ∀ (i : ℕ) (h : i < [(2 : Byte), 1].length),
        e.machine.romByte (1 + i) = [(2 : Byte), 1][i]) :=
  memory_reads_back_iff _ 1 [2, 1] (ascii "1") (ascii "1") (ascii "2") (ascii "2") (ascii "0201")
    [] [] [] [] rfl ⟨by decide, by decide, by decide⟩ ⟨by decide, by decide, by decide⟩
    ⟨by decide, by decide, by decide⟩ ⟨by decide, by decide, by decide⟩
    ⟨rfl, rfl, rfl, rfl, rfl, rfl, trivial⟩ (by decide) (by decide)

/-- The byte written to cell 0 is not reported when flash holds another. -/
theorem memory_not_read_back :
    let e := gdbstubInit (Emu.start (Machine.powerOn fun _ => 0))
    ¬ ∃ e₁ e₂ : Emu, e.serve [] [] (ascii "M0,1:01") = .ok e₁ ∧
      e₁.serve [] [] (ascii "m0,1") = .ok e₂ ∧ Replies e₁ e₂ (ascii "m0,1") (ascii "01") := by
  intro e ⟨e₁, e₂, hserve, hserve₂, hreply⟩
  cases hserve
  cases hserve₂
  unfold Replies at hreply
  revert hreply
  decide

end AvrEmu
