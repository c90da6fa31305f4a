import AvrEmu.Gdb.ReadMemory
import AvrEmu.Observation
import AvrEmu.ReverseStep

/-!
# From the image to the session

`main` reads the image in as many portions as `fread` likes, and lets a client in if it is told to.
The image that is read does not depend on the portions, and it is what a client reads back of flash
at any time.
-/

namespace AvrEmu

variable {e e' : Emu} {p p' : Point} {bp ep idx : ℕ} {u t text file : List Byte}
  {us : List (List Byte)} {m : Machine} {words : List Word} {chunks : List (List Word)}
  {flash blank : ℕ → Word}

/-! ## Reading the image -/

/-- The words that a call of `fread` puts behind what is there. -/
def storeWords (idx : ℕ) (words : List Word) (flash : ℕ → Word) : ℕ → Word := fun i =>
  if idx ≤ i ∧ i < idx + words.length then words.getD (i - idx) 0 else flash i

/-- The loop that reads the image: each call of `fread` asks for as many words as there is room for
and gets some of them; the loop ends when it gets none. -/
def loadImage : List (List Word) → ℕ → (ℕ → Word) → ℕ × (ℕ → Word)
  | [], idx, flash => (idx, flash)
  | chunk :: chunks, idx, flash =>
    match chunk.take (flashSize - idx) with
    | [] => (idx, flash)
    | words => loadImage chunks (idx + words.length) (storeWords idx words flash)

/-- The word that two bytes make on a little-endian host. -/
def fileWord (lo hi : Byte) : Word := hi.setWidth 16 <<< 8 ||| lo.setWidth 16

/-- The words of a file. A byte that is left over makes none. -/
def fileWords : List Byte → List Word
  | lo :: hi :: file => fileWord lo hi :: fileWords file
  | _ => []

/-- The emulator when `main` calls `emulate`. Flash is blank beyond the image, except that a byte
that is left over may stand behind it. -/
def mainStart (waitgdb : Bool) (insnlimit : ℕ) (tracehex : Bool) (tracefile : Option (List Byte))
    (chunks : List (List Word)) (blank : ℕ → Word) : Emu :=
  let m := Machine.powerOn (loadImage chunks 0 blank).2
  let e := { Emu.start m with
    insnlimit := insnlimit
    tracehex := tracehex
    tracefile := tracefile }
  if waitgdb then gdbstubInit e else e

theorem storeWords_append (idx : ℕ) (words words' : List Word) (flash : ℕ → Word) :
    storeWords (idx + words.length) words' (storeWords idx words flash) =
      storeWords idx (words ++ words') flash := by
  funext i
  simp only [storeWords, List.length_append]
  by_cases hlate : idx + words.length ≤ i ∧ i < idx + words.length + words'.length
  · have hskip : i - (idx + words.length) = i - idx - words.length := by omega
    rw [if_pos hlate, if_pos (by omega), List.getD_eq_getElem?_getD, List.getD_eq_getElem?_getD,
      List.getElem?_append_right (by omega), hskip]
  · rw [if_neg hlate]
    by_cases hearly : idx ≤ i ∧ i < idx + words.length
    · rw [if_pos hearly, if_pos (by omega), List.getD_eq_getElem?_getD,
        List.getD_eq_getElem?_getD, List.getElem?_append_left (by omega)]
    · rw [if_neg hearly, if_neg (by omega)]

theorem storeWords_nil (idx : ℕ) (flash : ℕ → Word) : storeWords idx [] flash = flash := by
  funext i
  exact if_neg (by rw [List.length_nil]; omega)

/-- The portions do not matter. -/
theorem loadImage_eq (hne : ∀ chunk ∈ chunks, chunk ≠ []) (hidx : idx ≤ flashSize) :
    (loadImage chunks idx flash).2 =
      storeWords idx (chunks.flatten.take (flashSize - idx)) flash := by
  induction chunks generalizing idx flash with
  | nil =>
    rw [List.flatten_nil, List.take_nil, storeWords_nil]
    rfl
  | cons chunk chunks ih =>
    have hchunk := hne chunk List.mem_cons_self
    have hrest := fun c hc => hne c (List.mem_cons_of_mem _ hc)
    rw [loadImage, List.flatten_cons, List.take_append]
    cases htake : chunk.take (flashSize - idx) with
    | nil =>
      have hfull : flashSize - idx = 0 := by
        rcases List.take_eq_nil_iff.mp htake with hzero | hnil
        · exact hzero
        · exact absurd hnil hchunk
      rw [hfull, Nat.zero_sub, List.take_zero, List.append_nil, storeWords_nil]
    | cons w words =>
      have hlength := congrArg List.length htake
      rw [List.length_take] at hlength
      have hfits : idx + (w :: words).length ≤ flashSize := by omega
      have hleft : flashSize - (idx + (w :: words).length) = flashSize - idx - chunk.length := by
        rw [← hlength]
        omega
      dsimp only
      rw [ih hrest hfits, storeWords_append, hleft]

theorem length_fileWords (file : List Byte) : (fileWords file).length = file.length / 2 := by
  induction file using fileWords.induct with
  | case1 lo hi file ih =>
    rw [fileWords, List.length_cons, ih, List.length_cons, List.length_cons]
    omega
  | case2 file hshort =>
    cases file with
    | nil => rfl
    | cons lo file =>
      cases file with
      | nil => simp [fileWords]
      | cons hi file => exact absurd rfl (hshort lo hi file)

/-- A word is two bytes of the file, the low one first. -/
theorem fileWords_getD {i : ℕ} (h : i < file.length / 2) :
    (fileWords file).getD i 0 = fileWord (file.getD (2 * i) 0) (file.getD (2 * i + 1) 0) := by
  induction file using fileWords.induct generalizing i with
  | case1 lo hi file ih =>
    cases i with
    | zero => rfl
    | succ i =>
      rw [List.length_cons, List.length_cons] at h
      have hnext := ih (i := i) (by omega)
      rw [fileWords, List.getD_cons_succ, hnext]
      rfl
  | case2 file hshort =>
    cases file with
    | nil => exact absurd h (Nat.not_lt_zero i)
    | cons lo file =>
      cases file with
      | nil => exact absurd h (by simp)
      | cons hi file => exact absurd rfl (hshort lo hi file)

theorem fileWord_low (lo hi : Byte) : (fileWord lo hi).setWidth 8 = lo := by
  ext i h
  simp [fileWord]

theorem fileWord_high (lo hi : Byte) : (fileWord lo hi >>> 8).setWidth 8 = hi := by
  ext i h
  have hin : 8 + i < 16 := by omega
  have hsmall : i < 16 := by omega
  simp only [fileWord, BitVec.getElem_setWidth, BitVec.getLsbD_ushiftRight, BitVec.getLsbD_or,
    BitVec.getLsbD_shiftLeft, BitVec.getLsbD_setWidth, hin, hsmall, decide_true, Bool.true_and,
    Nat.add_sub_cancel_left, BitVec.getLsbD_eq_getElem h]
  simp

/-- Flash holds the bytes of the file, as far as they make words and there is room. -/
theorem romByte_loaded {a : ℕ} {s : Core} (hne : ∀ chunk ∈ chunks, chunk ≠ [])
    (hfile : chunks.flatten = fileWords file) (hs : s.flash = (loadImage chunks 0 blank).2)
    (ha : a < 2 * (file.length / 2)) (hroom : a < 2 ^ 24) : s.romByte a = file.getD a 0 := by
  have hword : s.flash (a / 2) =
      fileWord (file.getD (2 * (a / 2)) 0) (file.getD (2 * (a / 2) + 1) 0) := by
    have hsize : flashSize = 2 ^ 23 := rfl
    have hlength := length_fileWords file
    have hin : a / 2 < ((fileWords file).take flashSize).length := by
      rw [List.length_take, hlength]
      omega
    rw [hs, loadImage_eq hne (Nat.zero_le _), hfile, Nat.sub_zero, storeWords, Nat.zero_add,
      if_pos ⟨Nat.zero_le _, hin⟩, Nat.sub_zero, ← fileWords_getD (by omega),
      List.getD_eq_getElem?_getD, List.getElem?_take_of_lt (by omega), List.getD_eq_getElem?_getD]
  rw [Core.romByte, hword]
  split
  · have haddr : 2 * (a / 2) + 1 = a := by omega
    rw [fileWord_high, haddr]
  · have haddr : 2 * (a / 2) = a := by omega
    rw [fileWord_low, haddr]

theorem romBytes_loaded {a n : ℕ} {s : Core} (hne : ∀ chunk ∈ chunks, chunk ≠ [])
    (hfile : chunks.flatten = fileWords file) (hs : s.flash = (loadImage chunks 0 blank).2)
    (hin : a + n ≤ 2 * (file.length / 2)) (hroom : a + n ≤ 2 ^ 24) :
    s.romBytes a n = (file.drop a).take n := by
  refine List.ext_getElem ?_ fun i hi hi' => ?_
  · rw [Core.romBytes, List.length_map, List.length_range, List.length_take, List.length_drop]
    omega
  · rw [Core.romBytes, List.length_map, List.length_range] at hi
    simp only [Core.romBytes, List.getElem_map, List.getElem_range, List.getElem_take,
      List.getElem_drop]
    rw [romByte_loaded hne hfile hs (by omega) (by omega), List.getD_eq_getElem?_getD,
      List.getElem?_eq_getElem (by omega), Option.getD_some]

/-! ## Reading it back -/

/-- The packet asks for a range of flash. -/
structure AsksRead (u : List Byte) (start rlen : BitVec 32) : Prop where
  command_eq : command u = some (ascii "m")
  carries : CarriesRange (commandText u).tail start rlen

/-- A request for a range of flash is answered if the digits fit the buffers. -/
theorem dispatch_read {start rlen : BitVec 32} {left : List Byte} (hconn : e.connected = true)
    (hasked : (findCmd text).map (·.cmd) = some (ascii "m"))
    (hscan : scanRange (text.drop 1) = some (start, rlen, left))
    (hfit : start.toNat + rlen.toNat ≤ 2 ^ 24) (hlen : rlen.toNat ≤ 2045) :
    dispatch text e = .ok ({ e with execute := false }.sent
      (framed (Hex.bytes (e.machine.romBytes start.toNat rlen.toNat)))) := by
  have hguard : decide (rlen * 2 < 4097) = true := by
    rw [decide_eq_true_iff, BitVec.lt_def, BitVec.toNat_mul]
    change rlen.toNat * 2 % 2 ^ 32 < 4097
    omega
  have hshort : (Hex.bytes (e.machine.romBytes start.toNat rlen.toNat)).length ≤ 4091 := by
    rw [Hex.length_bytes, Core.romBytes, List.length_map, List.length_range]
    omega
  have hread : gdbReadmem text [] { e with execute := false } =
      .ok ({ e with execute := false }.sent
        (framed (Hex.bytes (e.machine.romBytes start.toNat rlen.toNat)))) := by
    simp only [gdbReadmem, hscan, demand_some, ok_bind]
    rw [hguard, require_true, ok_bind, readmemLoop_romBytes _ hfit (by omega), ok_bind]
    exact gdbSendstr_eq hconn hshort
  rw [dispatch_eq (findCmd_getElem ⟨2, by decide⟩ hasked) rfl]
  exact hread

/-- A pass of the scanning loop over such a request. -/
theorem scan_read {start rlen : BitVec 32} (hconn : e.connected = true)
    (hep : ep ≤ e.clientbuf.length) (hpend : e.pending bp ep = u ++ s) (hpacket : IsPacket u)
    (hasks : AsksRead u start rlen) (hfit : start.toNat + rlen.toNat ≤ 2 ^ 24)
    (hlen : rlen.toNat ≤ 2045) :
    ∃ e', gdbstubScan bp ep e = .ok (.scan (bp + u.length) ep, e') ∧
      e'.log = e.log ++ [.packet u, .send (ascii "+"),
        .send (framed (Hex.bytes (e.machine.romBytes start.toNat rlen.toNat)))] := by
  have hwhole := hpacket
  obtain ⟨body, a, b, rfl, -, hbody, hplus, hminus, ha, hb⟩ := hpacket
  have hpass := scan_complete hbody hplus hminus hep hpend
  obtain ⟨before, rest, rfl, hfinds⟩ := finds_of_pending hconn hbody hplus hminus ha hb hep hpend
  obtain ⟨text, rfl, hpound, hasked, hcmd⟩ :=
    gdbCmd_dispatch hfinds hwhole (hasks.command_eq ▸ Option.some_ne_none _)
  have hread := hasked.symm.trans hasks.command_eq
  obtain ⟨left, hscan⟩ := hasks.carries (a :: b :: rest)
  have hdrop : (text ++ 0 :: a :: b :: rest).drop 1 = text.tail ++ 0 :: a :: b :: rest := by
    have hfind := hread
    rw [findCmd_zero] at hfind
    have hlength : 1 ≤ text.length := length_le_of_findCmd hfind
    rw [List.drop_append_of_le_length hlength, List.drop_one]
  rw [commandText_eq hpound, ← hdrop] at hscan
  rw [hcmd, dispatch_read (by exact hconn) hread hscan hfit hlen, ok_bind] at hpass
  have hend : before.length + (0x24 :: text ++ [0x23, a, b]).length =
      before.length + (0x24 :: text).length + 3 := by
    rw [List.length_append, Nat.add_assoc]
    rfl
  refine ⟨_, hend ▸ hpass, ?_⟩
  rw [Emu.sent]
  dsimp only
  rw [List.append_assoc]
  rfl

section Sessions

variable [DesLibrary]

/-- Whatever has happened in a session, and whatever portions the image came in, a request for a
range of the image is carried out as soon as the stub comes to it, and answered by the bytes of the
file. -/
theorem image_read_back (file : List Byte) (chunks : List (List Word)) (blank : ℕ → Word)
    (insnlimit : ℕ) (tracehex : Bool) (tracefile : Option (List Byte)) (us : List (List Byte))
    (bp ep : ℕ) (e : Emu) (env : Env) (u s : List Byte) (start rlen : BitVec 32)
    (hne : ∀ chunk ∈ chunks, chunk ≠ []) (hfile : chunks.flatten = fileWords file)
    (h : Served (mainStart true insnlimit tracehex tracefile chunks blank) us (.scan bp ep) e)
    (hpend : e.pending bp ep = u ++ s) (hpacket : IsPacket u) (hasks : AsksRead u start rlen)
    (hin : start.toNat + rlen.toNat ≤ 2 * (file.length / 2))
    (hroom : start.toNat + rlen.toNat ≤ 2 ^ 24) (hlen : rlen.toNat ≤ 2045) :
    ∃ e', tick env (.scan bp ep) e = .ok (.scan (bp + u.length) ep, e') ∧
      e'.log = e.log ++ [.packet u, .send (ascii "+"),
        .send (framed (Hex.bytes ((file.drop start.toNat).take rlen.toNat)))] := by
  have hflash : e.machine.flash = (loadImage chunks 0 blank).2 := h.inProgress.flash_eq
  have hinv : InOrder us (.scan bp ep) e := h.inOrder (inOrder_start _ _ _ _)
  have hep : ep ≤ e.clientbuf.length := by
    rw [hinv.length_eq]
    exact (hinv.scanning bp ep rfl).1
  rw [← romBytes_loaded hne hfile hflash hin hroom]
  exact scan_read h.listening.connected_eq hep hpend hpacket hasks hroom hlen

end Sessions

section Reading

attribute [local instance] idleDes

/-- The packet `m1,3` after a step and a write to memory, for a file of five bytes that comes in two
portions; the last byte makes no word. -/
theorem image_read_back_three :
    let e₀ := mainStart true 0 false none [[0xe505], [0x95c8]] fun _ => 0
    let us := [ascii "s", ascii "M0,2:ffff"].map framed
    ∃ e e', Served e₀ (us ++ [framed (ascii "m1,3")]) (.scan 0 8) e ∧ e.machine.insns = 1 ∧
      e.machine.memory 1 = 0xff ∧
      tick ⟨false, .wouldBlock⟩ (.scan 0 8) e = .ok (.scan 8 8, e') ∧
      e'.log = e.log ++ [.packet (framed (ascii "m1,3")), .send (ascii "+"),
        .send (framed (Hex.bytes [0xe5, 0xc8, 0x95]))] := by
  intro e₀ us
  have hus : ∀ u ∈ us ++ [framed (ascii "m1,3")],
      IsPacket u ∧ u.length ≤ pktBufMax ∧ BringsDigits u := by
    refine List.forall_mem_cons.mpr ⟨?_, List.forall_mem_cons.mpr ⟨?_, ?_⟩⟩
    · exact sendable_framed [ascii "s"] (by decide) _ List.mem_cons_self
    · exact sendable_text (by decide) (by decide) textSupplies_write
    · exact sendable_framed [ascii "m1,3"] (by decide)
  obtain ⟨e, _, _, hserved, hpend, -, he⟩ := exists_waiting e₀
    (fun e _ => (e.machine.insns, e.machine.memory 1)) (fun _ _ => rfl) us (framed (ascii "m1,3"))
    (n := 5) (x := (1, 0xff)) rfl hus (by decide +kernel)
  obtain ⟨hcount, hwritten⟩ := Prod.mk.inj he
  have hasks : AsksRead (framed (ascii "m1,3")) 1 3 := by
    have haddr : Hex.Numeral 1 (ascii "1") := ⟨by decide, by decide, by decide⟩
    have hlen : Hex.Numeral 3 (ascii "3") := ⟨by decide, by decide, by decide⟩
    exact ⟨by decide, carriesRange_numerals haddr hlen (by decide) (by decide)⟩
  obtain ⟨e', htick, hlog⟩ := image_read_back [0x05, 0xe5, 0xc8, 0x95, 0x00] [[0xe505], [0x95c8]]
    (fun _ => 0) 0 false none _ 0 8 e ⟨false, .wouldBlock⟩ _ [] 1 3 (by decide) (by decide) hserved
    (hpend.trans (List.append_nil _).symm) (isPacket_framed (by decide)) hasks (by decide)
    (by decide) (by decide)
  exact ⟨e, e', hserved, hcount, hwritten, htick, hlog⟩

end Reading

end AvrEmu
