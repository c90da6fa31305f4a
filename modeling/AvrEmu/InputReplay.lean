import AvrEmu.Input
import Mathlib.Data.List.GetD

/-!
# Recorded input

What a line of input does to data memory, when it is read and when it is given to the guest again.
A text is copied with as many zeros as fill the buffer of the guest and gets a zero byte at its own
end, which may lie behind that buffer. The record has the first bytes of the buffer of the host,
whatever these are behind the text, and one more zero byte.
-/

namespace AvrEmu

/-! ## Strings -/

section Strings

variable {buf line tail : List Byte} {n k : ℕ}

/-- The text of a line, without what ends it. -/
def lineText (line : List Byte) : List Byte := (cstring line).rdropWhile isEol

theorem strlen_le (buf : List Byte) : strlen buf ≤ buf.length := (List.takeWhile_prefix _).length_le

theorem getD_of_lt_strlen (hk : k < strlen buf) :
    buf.getD k 0 ≠ 0 ∧ (cstring buf)[k]? = some (buf.getD k 0) := by
  have hlt : k < buf.length := Nat.lt_of_lt_of_le hk (strlen_le buf)
  have heq : (cstring buf)[k] = buf[k] := (List.takeWhile_prefix _).getElem hk
  have hmem : buf[k] ∈ cstring buf := heq ▸ List.getElem_mem hk
  rw [List.getD_eq_getElem _ _ hlt]
  constructor
  · simpa using List.mem_takeWhile_imp hmem
  · rw [List.getElem?_eq_getElem hk, heq]

theorem getD_strlen (buf : List Byte) : buf.getD (strlen buf) 0 = 0 := by
  induction buf with
  | nil => rfl
  | cons b buf ih =>
    by_cases hb : b = 0
    · rw [strlen, cstring, List.takeWhile_cons_of_neg (by simpa using hb)]
      exact hb
    · rw [strlen, cstring, List.takeWhile_cons_of_pos (by simpa using hb)]
      exact ih

/-- A string ends before a zero byte. -/
theorem strlen_le_of_getD (h : buf.getD k 0 = 0) : strlen buf ≤ k := by
  by_contra hlt
  exact (getD_of_lt_strlen (Nat.lt_of_not_le hlt)).1 h

theorem cstring_append_zero : cstring (line ++ 0 :: tail) = cstring line := by
  induction line with
  | nil => simp [cstring]
  | cons b line ih =>
    rw [cstring, List.cons_append, List.takeWhile_cons, cstring, List.takeWhile_cons]
    unfold cstring at ih
    rw [ih]

theorem getElem?_strncpy : (strncpy buf n)[k]? =
    if k < n then some (if k < strlen buf then buf.getD k 0 else 0) else none := by
  have hlen : ((cstring buf).take n).length = min n (strlen buf) := List.length_take
  rw [strncpy]
  by_cases hk : k < n
  · rw [if_pos hk]
    by_cases hin : k < strlen buf
    · rw [if_pos hin, List.getElem?_append_left (by omega), List.getElem?_take_of_lt hk]
      exact (getD_of_lt_strlen hin).2
    · rw [if_neg hin, List.getElem?_append_right (by omega),
        List.getElem?_replicate_of_lt (by omega)]
  · rw [if_neg hk, List.getElem?_eq_none]
    rw [List.length_append, hlen, List.length_replicate]
    omega

theorem length_strncpy : (strncpy buf n).length = n := by
  have hlen : ((cstring buf).take n).length = min n (strlen buf) := List.length_take
  rw [strncpy, List.length_append, hlen, List.length_replicate]
  omega

/-- The line end is overwritten with zeros, and nothing else. -/
theorem getD_chomp {len : ℕ} (hlen : len ≤ buf.length) : (chomp len buf).getD k 0 =
    if ((buf.take len).rdropWhile isEol).length ≤ k ∧ k < len then 0 else buf.getD k 0 := by
  induction len generalizing buf with
  | zero => simp [chomp]
  | succ len ih =>
    have hlt : len < buf.length := hlen
    have htake : buf.take (len + 1) = buf.take len ++ [buf[len]] :=
      List.take_succ_eq_append_getElem hlt
    have hget : buf.getD len 0 = buf[len] := List.getD_eq_getElem _ _ hlt
    rw [chomp, hget, htake]
    cases heol : isEol buf[len] with
    | true =>
      have hset : (buf.set len 0).take len = buf.take len := List.take_set_of_le (Nat.le_refl len)
      have hinitial : ((buf.take len).rdropWhile isEol).length ≤ len :=
        Nat.le_trans (List.rdropWhile_prefix _ _).length_le (List.length_take_le _ _)
      rw [if_pos rfl, ih (by rw [List.length_set]; omega), List.rdropWhile_concat_pos _ _ _ heol,
        hset]
      by_cases hk : k = len
      · subst hk
        rw [if_neg (by omega), if_pos ⟨hinitial, Nat.lt_succ_self k⟩]
        simp [hlt]
      · have hsame : (buf.set len 0).getD k 0 = buf.getD k 0 := by
          simp [Ne.symm hk]
        rw [hsame]
        exact if_congr (by omega) rfl rfl
    | false =>
      rw [if_neg (by simp), List.rdropWhile_concat_neg _ _ _ (by simp [heol]), if_neg]
      rw [List.length_append, List.length_take]
      simp
      omega

/-- A buffer whose line end has been overwritten. -/
theorem strlen_chomp (buf : List Byte) :
    strlen (chomp (strlen buf) buf) = ((cstring buf).rdropWhile isEol).length := by
  have htake : buf.take (strlen buf) = cstring buf :=
    (List.prefix_iff_eq_take.mp (List.takeWhile_prefix _)).symm
  have hle : ((cstring buf).rdropWhile isEol).length ≤ strlen buf :=
    (List.rdropWhile_prefix _ _).length_le
  have hget (k : ℕ) := getD_chomp (k := k) (strlen_le buf)
  simp only [htake] at hget
  apply Nat.le_antisymm
  · apply strlen_le_of_getD
    rw [hget]
    split
    · rfl
    · have heq : ((cstring buf).rdropWhile isEol).length = strlen buf := by omega
      rw [heq, getD_strlen]
  · by_contra hlt
    have hzero := getD_strlen (chomp (strlen buf) buf)
    rw [hget, if_neg (by omega)] at hzero
    exact (getD_of_lt_strlen (by omega)).1 hzero

end Strings

/-! ## The buffer of the host -/

section Buffer

variable {heap : ℕ → Byte} {line stdin : List Byte} {n k : ℕ}

theorem length_readLine (n : ℕ) (s : List Byte) : (readLine n s).1.length ≤ n := by
  induction n generalizing s with
  | zero => exact Nat.le_refl 0
  | succ n ih =>
    cases s with
    | nil => exact Nat.zero_le _
    | cons c s =>
      rw [readLine]
      split
      · exact Nat.succ_le_succ (Nat.zero_le n)
      · exact Nat.succ_le_succ (ih s)

theorem readLine_ne_nil (hn : 0 < n) (hs : stdin ≠ []) : (readLine n stdin).1 ≠ [] := by
  obtain ⟨n, rfl⟩ := Nat.exists_eq_succ_of_ne_zero (Nat.pos_iff_ne_zero.mp hn)
  cases stdin with
  | nil => exact absurd rfl hs
  | cons c s =>
    rw [readLine]
    split <;> exact List.cons_ne_nil _ _

/-- The buffer as `fgets` leaves it: the line, a zero byte and what was there before. -/
def lineBuffer (heap : ℕ → Byte) (n : ℕ) (line : List Byte) : List Byte :=
  line ++ 0 :: (((List.range n).map heap).set 0 0).drop (line.length + 1)

theorem length_lineBuffer (h : line.length < n) : (lineBuffer heap n line).length = n := by
  rw [lineBuffer, List.length_append, List.length_cons, List.length_drop, List.length_set,
    List.length_map, List.length_range]
  omega

theorem getD_lineBuffer (hline : line ≠ []) (hk : k < n) :
    (lineBuffer heap n line).getD k 0 = (line ++ [0]).getD k (heap k) := by
  have hpos := List.length_pos_of_ne_nil hline
  rw [lineBuffer, List.append_cons]
  by_cases hin : k < (line ++ [0]).length
  · rw [List.getD_append _ _ _ _ hin, List.getD_eq_getElem _ _ hin, List.getD_eq_getElem _ _ hin]
  · rw [List.getD_append_right _ _ _ _ (Nat.le_of_not_lt hin),
      List.getD_eq_default _ _ (Nat.le_of_not_lt hin)]
    rw [List.length_append, List.length_singleton] at hin ⊢
    rw [List.getD_eq_getElem?_getD, List.getElem?_drop,
      show line.length + 1 + (k - (line.length + 1)) = k by omega, List.getElem?_set_ne (by omega),
      List.getElem?_map, List.getElem?_range hk]
    rfl

theorem strlen_lineBuffer (heap : ℕ → Byte) (n : ℕ) (line : List Byte) :
    strlen (lineBuffer heap n line) = strlen line :=
  congrArg List.length cstring_append_zero

theorem getD_zero_lineBuffer (heap : ℕ → Byte) (n : ℕ) (hline : line ≠ []) :
    (lineBuffer heap n line).getD 0 0 = line.getD 0 0 := by
  obtain ⟨b, s, rfl⟩ := List.exists_cons_of_ne_nil hline
  rfl

end Buffer

/-! ## What a call does -/

section Calls

variable {m : Machine} {addr i n : ℕ} {bs : List Byte} {buf : List Byte} {junk : ℕ → BitVec 32}

theorem exec_writeBytes (m : Machine) (bs : List Byte) (h : i + bs.length ≤ memorySize) :
    exec (writeBytes i bs) m = .ok ((), m.writeBytes i bs) := by
  induction bs generalizing i m with
  | nil => rfl
  | cons b bs ih =>
    rw [List.length_cons] at h
    rw [writeBytes, exec_bind, exec_setMem (by omega)]
    exact ih _ (by omega)

theorem exec_readBytes (m : Machine) (h : i + n ≤ memorySize) :
    exec (readBytes i n) m = .ok ((List.range n).map fun k => m.memory (i + k), m) := by
  induction n generalizing i with
  | zero => rfl
  | succ n ih =>
    rw [readBytes, exec_bind, exec_mem (by omega)]
    dsimp only
    rw [exec_bind, ih (by omega), List.range_succ_eq_map, List.map_cons, List.map_map]
    simp only [exec_pure, Except.ok.injEq, Prod.mk.injEq, and_true, Nat.add_zero, List.cons.injEq,
      true_and]
    exact List.map_congr_left fun k _ => by rw [Function.comp_apply, Nat.succ_eq_add_one,
      Nat.add_assoc, Nat.add_comm 1 k]

/-- Bytes read back where they were written. -/
theorem map_writeBytes (bs' : List Byte) :
    (List.range bs.length).map (fun k => (m.writeBytes i (bs ++ bs')).memory (i + k)) = bs := by
  apply List.ext_getElem
  · rw [List.length_map, List.length_range]
  · intro k hk hk'
    rw [List.getElem_map, List.getElem_range, writeBytes_memory, if_pos (Nat.le_add_right i k),
      Nat.add_sub_cancel_left, List.getElem?_append_left hk', List.getElem?_eq_getElem hk']
    rfl

/-- The loop over the digits stores some bytes, and a zero byte behind them when it meets the end
of the string. -/
theorem exec_hexLoop (buf : List Byte) (junk : ℕ → BitVec 32) (m : Machine)
    (h : addr + i + n ≤ memorySize) : ∃ bs broke,
    exec (hexLoop buf junk addr n i) m =
      .ok (i + bs.length, m.writeBytes (addr + i) (bs ++ if broke then [0] else [])) ∧
    (broke = true → bs.length < n) ∧ (broke = false → bs.length = n) ∧
    (broke = true ↔ ∃ k, 2 * i + 1 ≤ k ∧ k ≤ 2 * (i + n) ∧ buf.getD k 0 = 0) := by
  induction n generalizing i m with
  | zero =>
    refine ⟨[], false, rfl, fun h => absurd h Bool.false_ne_true, fun _ => rfl, ?_⟩
    simp only [Bool.false_eq_true, false_iff, not_exists]
    intro k hk
    omega
  | succ n ih =>
    rw [hexLoop]
    by_cases hend : (buf.getD (2 * i + 1) 0 == 0 || buf.getD (2 * i + 2) 0 == 0) = true
    · refine ⟨[], true, ?_, fun _ => Nat.succ_pos n, fun h => absurd h.symm Bool.false_ne_true, ?_⟩
      · rw [if_pos hend, exec_bind, exec_setMem (by omega)]
        rfl
      · rw [Bool.or_eq_true, beq_iff_eq, beq_iff_eq] at hend
        refine iff_of_true rfl ?_
        rcases hend with hzero | hzero
        · exact ⟨_, Nat.le_refl _, by omega, hzero⟩
        · exact ⟨_, Nat.le_succ _, by omega, hzero⟩
    · rw [if_neg hend, exec_bind, exec_setMem (by omega)]
      generalize ((Hex.scan (some 2) (buf.drop (2 * i + 1))).map Prod.fst).getD (junk i) = byte
      obtain ⟨bs, broke, hrun, hlt, heq, hiff⟩ :=
        ih (m.setMem (addr + i) (byte.setWidth 8)) (i := i + 1) (by omega)
      refine ⟨byte.setWidth 8 :: bs, broke, ?_, fun h => Nat.succ_lt_succ (hlt h),
        fun h => congrArg Nat.succ (heq h), ?_⟩
      · dsimp only
        rw [hrun, List.length_cons, List.cons_append, Machine.writeBytes,
          show i + 1 + bs.length = i + (bs.length + 1) by omega, Nat.add_assoc addr i 1]
        rfl
      · rw [Bool.or_eq_true, not_or, beq_iff_eq, beq_iff_eq] at hend
        rw [hiff]
        constructor
        · rintro ⟨k, hlow, hhigh, hzero⟩
          exact ⟨k, by omega, by omega, hzero⟩
        · rintro ⟨k, hlow, hhigh, hzero⟩
          have hfirst : k ≠ 2 * i + 1 := fun heq => hend.1 (heq ▸ hzero)
          have hsecond : k ≠ 2 * i + 2 := fun heq => hend.2 (heq ▸ hzero)
          exact ⟨k, by omega, by omega, hzero⟩

/-- A line of text: the copy, the zero byte at its end and the record. -/
theorem exec_storeLine_text (junk : ℕ → BitVec 32) (m : Machine) {c : Console}
    (htext : buf.getD 0 0 ≠ 0x3a) (hbuf : buf.length ≤ 0x20000)
    (haddr : addr + n < 0x10000) :
    let text := chomp (strlen buf) buf
    exec (storeLine buf junk addr n c) m = .ok (insInprec m.insns (text.take n) c,
      (m.writeBytes addr (strncpy text n)).setMem (addr + strlen text) 0) := by
  intro text
  have hlength : (strncpy text n).length = n := length_strncpy
  have hlen : strlen text ≤ strlen buf := by
    rw [strlen_chomp]
    exact (List.rdropWhile_prefix _ _).length_le
  have hle := strlen_le buf
  have hcells : addr + (strncpy text n).length ≤ memorySize := by
    unfold memorySize
    omega
  have hend : addr + strlen text < memorySize := by
    unfold memorySize
    omega
  rw [storeLine, exec_bind, exec_core]
  dsimp only
  rw [if_pos (by simpa using htext), exec_bind, exec_writeBytes m _ hcells]
  dsimp only
  rw [exec_bind, exec_setMem hend]
  rfl

/-- A line of digits. -/
theorem exec_storeLine_hex (junk : ℕ → BitVec 32) (m : Machine) {c : Console}
    (hhex : buf.getD 0 0 = 0x3a) (hn : 0 < n)
    (haddr : addr + n < 0x10000) : ∃ bs broke,
    exec (storeLine buf junk addr n c) m = .ok (insInprec m.insns bs c,
      m.writeBytes addr (bs ++ if broke then [0] else [])) ∧
    (broke = true → bs.length < n - 1) ∧ (broke = false → bs.length = n - 1) ∧
    (broke = true ↔ strlen buf ≤ 2 * n - 2) := by
  have hcells : addr + 0 + (n - 1) ≤ memorySize := by
    unfold memorySize
    omega
  obtain ⟨bs, broke, hrun, hlt, heq, hiff⟩ := exec_hexLoop buf junk m hcells
  rw [Nat.zero_add, Nat.add_zero] at hrun
  refine ⟨bs, broke, ?_, hlt, heq, hiff.trans ?_⟩
  · have hle : bs.length ≤ n - 1 := by
      cases broke with
      | true => exact Nat.le_of_lt (hlt rfl)
      | false => exact Nat.le_of_eq (heq rfl)
    have hcells : addr + bs.length ≤ memorySize := by
      unfold memorySize
      omega
    have hread := exec_readBytes (m.writeBytes addr (bs ++ if broke then [0] else [])) hcells
    rw [map_writeBytes] at hread
    rw [storeLine, exec_bind, exec_core]
    dsimp only
    rw [if_neg (by simpa using hhex), exec_bind, hrun]
    dsimp only
    rw [exec_bind, hread]
    rfl
  · have hpos : strlen buf ≠ 0 := by
      intro hzero
      have hget := getD_strlen buf
      rw [hzero, hhex] at hget
      cases hget
    constructor
    · rintro ⟨k, -, hk, hzero⟩
      have hle := strlen_le_of_getD hzero
      omega
    · intro hle
      exact ⟨strlen buf, by omega, by omega, getD_strlen buf⟩

/-- A copy that completes has written every byte. -/
theorem eq_writeBytes_of_exec {m' : Machine} {u : Unit}
    (h : exec (writeBytes i bs) m = .ok (u, m')) :
    m' = m.writeBytes i bs := by
  induction bs generalizing i m with
  | nil =>
    cases h
    rfl
  | cons b bs ih =>
    rw [writeBytes, exec_bind] at h
    by_cases hi : i < memorySize
    · rw [exec_setMem hi] at h
      exact ih h
    · rw [setMem, if_neg hi] at h
      cases h

end Calls

section Getsn

variable {replayMode : Bool} {heap : ℕ → Byte} {junk : ℕ → BitVec 32} {addr bufsz : Word}
  {c c' : Console} {m m' : Machine}

/-- The line that a call reads. -/
def Console.line (c : Console) (bufsz : ℕ) : List Byte := (readLine (2 * bufsz + 1) c.stdin).1

/-- The console once that line has been taken from it. -/
def Console.readOn (c : Console) (bufsz : ℕ) : Console :=
  { c with stdin := (readLine (2 * bufsz + 1) c.stdin).2 }

/-- The four ways a call can end. -/
inductive Getsn (heap : ℕ → Byte) (junk : ℕ → BitVec 32) (addr bufsz : ℕ) (c c' : Console)
    (m m' : Machine) : Prop
  | small : bufsz ≤ 1 → c' = c → m' = m → Getsn heap junk addr bufsz c c' m m'
  | replayed (inp : List Byte) : 1 < bufsz → c.inputRecord m.insns = some inp → c' = c →
      m' = m.writeBytes addr inp → Getsn heap junk addr bufsz c c' m m'
  | ended : 1 < bufsz → c.inputRecord m.insns = none → c.stdin = [] → m' = m →
      Getsn heap junk addr bufsz c c' m m'
  | read : 1 < bufsz → c.inputRecord m.insns = none → c.stdin ≠ [] →
      exec (storeLine (lineBuffer heap (2 * bufsz + 2) (c.line bufsz)) junk addr bufsz
        (c.readOn bufsz)) m = .ok (c', m') → Getsn heap junk addr bufsz c c' m m'

theorem getsn_cases (h : exec (getsn replayMode heap junk addr bufsz c) m = .ok (c', m')) :
    addr.toNat + bufsz.toNat < 0xffff ∧ Getsn heap junk addr.toNat bufsz.toNat c c' m m' := by
  rw [getsn, exec_bind, exec_assert] at h
  by_cases hfit : addr.toNat + bufsz.toNat < 0xffff
  · refine ⟨hfit, ?_⟩
    rw [decide_eq_true hfit, if_pos rfl] at h
    dsimp only at h
    by_cases hsmall : bufsz.toNat ≤ 1
    · rw [if_pos hsmall] at h
      cases h
      exact .small hsmall rfl rfl
    · rw [if_neg hsmall, exec_bind, exec_core] at h
      dsimp only at h
      rw [exec_bind, exec_when, exec_assert] at h
      cases hrecord : c.inputRecord m.insns with
      | some inp =>
        have hfound : (if replayMode then (if (some inp).isSome then .ok ((), m) else
            .error (.assertion "input at insn:%ju not found!") : Except Abort (Unit × Machine))
            else .ok ((), m)) = .ok ((), m) := by cases replayMode <;> rfl
        rw [hrecord, hfound] at h
        dsimp only at h
        rw [exec_bind] at h
        cases hwrite : exec (writeBytes addr.toNat inp) m with
        | error e => simp [hwrite] at h
        | ok r =>
          simp only [hwrite, exec_pure, Except.ok.injEq, Prod.mk.injEq] at h
          obtain ⟨rfl, rfl⟩ := h
          exact .replayed inp (Nat.lt_of_not_le hsmall) hrecord rfl (eq_writeBytes_of_exec hwrite)
      | none =>
        rw [hrecord] at h
        cases replayMode with
        | true => simp at h
        | false =>
          simp only [Bool.false_eq_true, if_false, fgets] at h
          cases hstdin : c.stdin with
          | nil =>
            simp only [hstdin, List.isEmpty_nil, if_true, exec_pure, Except.ok.injEq, Prod.mk.injEq]
              at h
            exact .ended (Nat.lt_of_not_le hsmall) hrecord hstdin h.2.symm
          | cons b s =>
            have hne : c.stdin ≠ [] := by simp [hstdin]
            have hfull : c.stdin.isEmpty = false := by simp [hstdin]
            rw [hfull] at h
            exact .read (Nat.lt_of_not_le hsmall) hrecord hne h
  · rw [decide_eq_false hfit, if_neg Bool.false_ne_true] at h
    cases h

end Getsn

/-! ## The cells of the guest -/

section Cells

variable {heap : ℕ → Byte} {line buf : List Byte} {m : Machine} {addr n k : ℕ} {bs : List Byte}

theorem writeBytes_memory_add (bs : List Byte) :
    (m.writeBytes addr bs).memory (addr + k) = (bs[k]?).getD (m.memory (addr + k)) := by
  rw [writeBytes_memory, if_pos (Nat.le_add_right addr k), Nat.add_sub_cancel_left]

theorem writeBytes_memory_of_lt {i : ℕ} (bs : List Byte) (h : i < addr) :
    (m.writeBytes addr bs).memory i = m.memory i := by
  rw [writeBytes_memory, if_neg (Nat.not_le.mpr h)]

/-- Writes that start at the same cell leave the same memory when they agree from there on. -/
theorem memory_eq_iff {m₁ m₂ : Machine} (h : ∀ i, i < addr → m₁.memory i = m₂.memory i) :
    m₁.memory = m₂.memory ↔ ∀ k, m₁.memory (addr + k) = m₂.memory (addr + k) := by
  constructor
  · intro heq k
    rw [heq]
  · intro hadd
    funext i
    by_cases hi : i < addr
    · exact h i hi
    · obtain ⟨k, rfl⟩ := Nat.exists_eq_add_of_le (Nat.le_of_not_lt hi)
      exact hadd k

/-- Machine after a line of text has been copied. -/
def Machine.withText (m : Machine) (addr n : ℕ) (text : List Byte) : Machine :=
  (m.writeBytes addr (strncpy text n)).setMem (addr + strlen text) 0

theorem withText_memory_of_lt {i : ℕ} (text : List Byte) (h : i < addr) :
    (m.withText addr n text).memory i = m.memory i := by
  rw [Machine.withText, setMem_memory, Function.update_of_ne (by omega),
    writeBytes_memory_of_lt _ h]

/-- A text fills the buffer of the guest, and its zero byte lies where the text ends. -/
theorem withText_memory (text : List Byte) : (m.withText addr n text).memory (addr + k) =
    if k < n then (if k < strlen text then text.getD k 0 else 0)
    else if k = strlen text then 0 else m.memory (addr + k) := by
  rw [Machine.withText, setMem_memory]
  by_cases hend : k = strlen text
  · rw [hend, Function.update_self, if_neg (Nat.lt_irrefl _), if_pos rfl, ite_self]
  · rw [Function.update_of_ne (by omega), writeBytes_memory_add, getElem?_strncpy, if_neg hend]
    by_cases hk : k < n
    · rw [if_pos hk, if_pos hk]
      rfl
    · rw [if_neg hk, if_neg hk]
      rfl

/-- The text that is copied from the buffer of the host. -/
def hostText (heap : ℕ → Byte) (n : ℕ) (line : List Byte) : List Byte :=
  chomp (strlen line) (lineBuffer heap n line)

theorem strlen_hostText : strlen (hostText heap n line) = (lineText line).length := by
  have h := strlen_chomp (lineBuffer heap n line)
  rw [strlen_lineBuffer] at h
  rw [hostText, h, lineBuffer, cstring_append_zero, lineText]

/-- Behind its text the buffer of the host has zeros where the line ended, and is as it was. -/
theorem getD_hostText (heap : ℕ → Byte) (hline : line ≠ []) (hfit : line.length < n) (hk : k < n)
    (hend : (lineText line).length ≤ k) : (hostText heap n line).getD k 0 =
      if k ≤ strlen line then 0 else (line ++ [0]).getD k (heap k) := by
  have hlen : strlen line ≤ (lineBuffer heap n line).length := by
    rw [length_lineBuffer hfit]
    exact Nat.le_of_lt (Nat.lt_of_le_of_lt (strlen_le line) hfit)
  have htake : (lineBuffer heap n line).take (strlen line) = cstring line := by
    have hinitial : cstring (lineBuffer heap n line) <+: lineBuffer heap n line :=
      List.takeWhile_prefix _
    rw [← strlen_lineBuffer heap n line, ← cstring_append_zero]
    exact (List.prefix_iff_eq_take.mp hinitial).symm
  rw [hostText, getD_chomp hlen, htake]
  rcases Nat.lt_trichotomy k (strlen line) with hlt | heq | hgt
  · rw [if_pos ⟨hend, hlt⟩, if_pos (Nat.le_of_lt hlt)]
  · rw [if_neg (by omega), if_pos (Nat.le_of_eq heq), heq, ← strlen_lineBuffer heap n line,
      getD_strlen]
  · rw [if_neg (by omega), if_neg (by omega), getD_lineBuffer hline hk]

end Cells

/-! ## A line on a console -/

/-- A machine with the same byte in every cell of data memory. -/
def filled (b : Byte) : Machine :=
  { pc := 0, pcStart := 0, instrSize := 0, skipNextInstruction := false, flash := fun _ => 0,
    pc22 := false, pcMemMax64k := false, pcMemMax256b := false, insns := 0, memory := fun _ => b }

/-- What a call leaves that reads the text `s` from the console into a buffer at `0x100`. -/
def typedLine (s : List Byte) (bufsz : Word) (m : Machine) : Except Abort (Console × Machine) :=
  exec (getsn false (fun _ => 0) (fun _ => 0) 0x100 bufsz ⟨s, fun _ => none⟩) m

/-- What the replay of that call leaves. -/
def replayedLine (s : List Byte) (bufsz : Word) (m : Machine) :
    Except Abort (Console × Machine) := do
  let (c, _) ← typedLine s bufsz m
  exec (getsn true (fun _ => 0) (fun _ => 0) 0x100 bufsz c) m

/-- A cell of data memory after a call. -/
def cellAfter (i : ℕ) (r : Except Abort (Console × Machine)) : Except Abort Byte :=
  r.map fun r => r.2.memory i

/-! ## Input and the buffer of the guest -/

/-- When a call changes no cell outside the buffer. A record may be longer than the buffer, and
the zero byte of a text may lie behind it, so both must find there what they write. -/
def StaysInBuffer (c : Console) (m : Machine) (addr bufsz : ℕ) : Prop :=
  bufsz ≤ 1 ∨ match c.inputRecord m.insns with
    | some inp => ∀ k, bufsz ≤ k → k < inp.length → m.memory (addr + k) = inp.getD k 0
    | none => (c.line bufsz).getD 0 0 = 0x3a ∨ (lineText (c.line bufsz)).length < bufsz ∨
        m.memory (addr + (lineText (c.line bufsz)).length) = 0

section Frame

variable {heap : ℕ → Byte} {junk : ℕ → BitVec 32} {c c' : Console} {m m' : Machine} {addr n : ℕ}

/-- Nothing outside the buffer changes when nothing behind it does. -/
theorem outside_iff (h : ∀ i, i < addr → m'.memory i = m.memory i) :
    (∀ i, i < addr ∨ addr + n ≤ i → m'.memory i = m.memory i) ↔
      ∀ k, n ≤ k → m'.memory (addr + k) = m.memory (addr + k) := by
  constructor
  · intro hout k hk
    exact hout _ (Or.inr (Nat.add_le_add_left hk addr))
  · rintro hadd i (hi | hi)
    · exact h i hi
    · obtain ⟨k, rfl⟩ := Nat.exists_eq_add_of_le (Nat.le_trans (Nat.le_add_right addr n) hi)
      exact hadd k (Nat.le_of_add_le_add_left hi)

theorem outside_writeBytes_iff (bs : List Byte) :
    (∀ i, i < addr ∨ addr + n ≤ i → (m.writeBytes addr bs).memory i = m.memory i) ↔
      ∀ k, n ≤ k → k < bs.length → m.memory (addr + k) = bs.getD k 0 := by
  rw [outside_iff fun i hi => writeBytes_memory_of_lt bs hi]
  refine forall_congr' fun k => forall_congr' fun _ => ?_
  rw [writeBytes_memory_add]
  by_cases hk : k < bs.length
  · rw [List.getElem?_eq_getElem hk, List.getD_eq_getElem _ _ hk, Option.getD_some]
    exact ⟨fun heq _ => heq.symm, fun heq => (heq hk).symm⟩
  · rw [List.getElem?_eq_none (Nat.le_of_not_lt hk)]
    exact iff_of_true rfl fun hlt => absurd hlt hk

theorem outside_withText_iff (text : List Byte) :
    (∀ i, i < addr ∨ addr + n ≤ i → (m.withText addr n text).memory i = m.memory i) ↔
      strlen text < n ∨ m.memory (addr + strlen text) = 0 := by
  rw [outside_iff fun i hi => withText_memory_of_lt text hi]
  constructor
  · intro hout
    by_cases hlt : strlen text < n
    · exact Or.inl hlt
    · have hend := hout (strlen text) (Nat.le_of_not_lt hlt)
      rw [withText_memory, if_neg hlt, if_pos rfl] at hend
      exact Or.inr hend.symm
  · intro hend k hk
    rw [withText_memory, if_neg (Nat.not_lt.mpr hk)]
    split
    · next heq =>
      rcases hend with hlt | hzero
      · omega
      · rw [heq, hzero]
    · rfl

/-- The line of a call that reads one is not empty and fits the buffer of the host. -/
theorem line_fits (hstdin : c.stdin ≠ []) :
    c.line n ≠ [] ∧ (c.line n).length < 2 * n + 2 :=
  ⟨readLine_ne_nil (Nat.succ_pos _) hstdin, Nat.lt_succ_of_le (length_readLine _ _)⟩

theorem line_nil (hstdin : c.stdin = []) : c.line n = [] := by
  rw [Console.line, hstdin]
  rfl

/-- What a call leaves that reads a line, with the record it makes of it. -/
theorem read_cases (hfit : addr + n < 0xffff) (hn : 1 < n) (hstdin : c.stdin ≠ [])
    (h : exec (storeLine (lineBuffer heap (2 * n + 2) (c.line n)) junk addr n (c.readOn n)) m =
      .ok (c', m')) :
    ((c.line n).getD 0 0 ≠ 0x3a ∧ m' = m.withText addr n (hostText heap (2 * n + 2) (c.line n)) ∧
      c' = insInprec m.insns ((hostText heap (2 * n + 2) (c.line n)).take n) (c.readOn n)) ∨
    ((c.line n).getD 0 0 = 0x3a ∧ ∃ bs broke,
      m' = m.writeBytes addr (bs ++ if broke then [0] else []) ∧
      c' = insInprec m.insns bs (c.readOn n) ∧
      (broke = true → bs.length < n - 1) ∧ (broke = false → bs.length = n - 1) ∧
      (broke = true ↔ strlen (c.line n) ≤ 2 * n - 2)) := by
  obtain ⟨hline, hlength⟩ := line_fits (n := n) hstdin
  have hfirst := getD_zero_lineBuffer heap (2 * n + 2) hline
  have haddr : addr + n < 0x10000 := by omega
  by_cases hhex : (c.line n).getD 0 0 = 0x3a
  · right
    obtain ⟨bs, broke, hrun, hlt, heq, hiff⟩ := exec_storeLine_hex junk m (c := c.readOn n)
      (hfirst.trans hhex) (Nat.zero_lt_of_lt hn) haddr
    rw [hrun, Except.ok.injEq, Prod.mk.injEq] at h
    rw [strlen_lineBuffer] at hiff
    exact ⟨hhex, bs, broke, h.2.symm, h.1.symm, hlt, heq, hiff⟩
  · left
    have hbuf : (lineBuffer heap (2 * n + 2) (c.line n)).length ≤ 0x20000 := by
      rw [length_lineBuffer hlength]
      omega
    have hrun := exec_storeLine_text junk m (c := c.readOn n)
      (fun heq => hhex (hfirst.symm.trans heq)) hbuf haddr
    rw [hrun, Except.ok.injEq, Prod.mk.injEq, strlen_lineBuffer] at h
    exact ⟨hhex, h.2.symm, h.1.symm⟩

end Frame

/-- A call changes nothing outside the buffer exactly when the text of the line ends inside it, or
the record does, or what lies behind has the written bytes already. -/
theorem input_stays_in_buffer_iff {replayMode : Bool} {heap : ℕ → Byte} {junk : ℕ → BitVec 32}
    {addr bufsz : Word} {c c' : Console} {m m' : Machine}
    (h : exec (getsn replayMode heap junk addr bufsz c) m = .ok (c', m')) :
    (∀ i, i < addr.toNat ∨ addr.toNat + bufsz.toNat ≤ i → m'.memory i = m.memory i) ↔
      StaysInBuffer c m addr.toNat bufsz.toNat := by
  obtain ⟨hfit, hcall⟩ := getsn_cases h
  unfold StaysInBuffer
  cases hcall with
  | small hsmall _ hsame => exact iff_of_true (fun i _ => by rw [hsame]) (Or.inl hsmall)
  | replayed inp hn hrecord _ hwrite =>
    rw [hrecord, hwrite, outside_writeBytes_iff, or_iff_right (Nat.not_le.mpr hn)]
  | ended hn hrecord hstdin hsame =>
    rw [hrecord, or_iff_right (Nat.not_le.mpr hn)]
    refine iff_of_true (fun i _ => by rw [hsame]) (Or.inr (Or.inl ?_))
    rw [line_nil hstdin]
    exact Nat.lt_trans Nat.zero_lt_one hn
  | read hn hrecord hstdin hread =>
    rw [hrecord, or_iff_right (Nat.not_le.mpr hn)]
    rcases read_cases hfit hn hstdin hread with ⟨htext, rfl, _⟩ |
      ⟨hhex, bs, broke, rfl, _, hlt, heq, _⟩
    · rw [outside_withText_iff, strlen_hostText]
      exact (or_iff_right htext).symm
    · refine iff_of_true ?_ (Or.inl hhex)
      rw [outside_writeBytes_iff]
      intro k hk hlen
      cases broke with
      | true =>
        have hshort := hlt rfl
        rw [if_pos rfl, List.length_append, List.length_singleton] at hlen
        omega
      | false =>
        have hfull := heq rfl
        rw [if_neg Bool.false_ne_true, List.append_nil] at hlen
        omega

/-- A line of two letters ends inside a buffer of three bytes. -/
theorem input_stays_in_buffer_iff_fits :
    cellAfter 0x103 (typedLine [0x61, 0x62, 0x0a] 3 (filled 0xff)) = .ok 0xff := by
  obtain ⟨r, hcall⟩ : ∃ r, typedLine [0x61, 0x62, 0x0a] 3 (filled 0xff) = .ok r := ⟨_, rfl⟩
  have hstays := (input_stays_in_buffer_iff hcall).mpr (Or.inr (Or.inr (Or.inl (by decide))))
  rw [hcall]
  exact congrArg Except.ok (hstays 0x103 (Or.inr (by decide)))

/-- A line of three letters puts its zero byte behind a buffer of two, and the replay of a line of
two letters puts one behind a buffer of four. -/
theorem input_leaves_buffer :
    cellAfter 0x103 (typedLine [0x61, 0x62, 0x63, 0x0a] 2 (filled 0xff)) = .ok 0 ∧
    cellAfter 0x104 (replayedLine [0x61, 0x62, 0x0a] 4 (filled 0xff)) = .ok 0 ∧
    (filled 0xff).memory 0x103 = 0xff ∧ (filled 0xff).memory 0x104 = 0xff := by
  decide

/-! ## Input that is given again -/

/-- When a replay leaves what the call left that read the line. The record of a text has the bytes
of the buffer of the host behind it and a zero byte behind the buffer of the guest. -/
def Replays (heap : ℕ → Byte) (c : Console) (m : Machine) (addr bufsz : ℕ) : Prop :=
  let line := c.line bufsz
  if line.getD 0 0 = 0x3a then strlen line ≤ 2 * bufsz - 2 ∨ m.memory (addr + (bufsz - 1)) = 0
  else
    (∀ k, strlen line < k → k < bufsz → (line ++ [0]).getD k (heap k) = 0) ∧
    ((lineText line).length ≠ bufsz → m.memory (addr + bufsz) = 0) ∧
    (bufsz < (lineText line).length → m.memory (addr + (lineText line).length) = 0)

section Replay

variable {heap : ℕ → Byte} {line buf bs : List Byte} {m : Machine} {addr n k : ℕ}

theorem length_chomp (len : ℕ) (buf : List Byte) : (chomp len buf).length = buf.length := by
  induction len generalizing buf with
  | zero => rfl
  | succ len ih =>
    rw [chomp]
    split
    · rw [ih, List.length_set]
    · rfl

/-- The cells after the record of a text has been copied. -/
theorem record_memory (hn : n ≤ buf.length) :
    (m.writeBytes addr (buf.take n ++ [0])).memory (addr + k) =
      if k < n then buf.getD k 0 else if k = n then 0 else m.memory (addr + k) := by
  have hlength : (buf.take n).length = n := by
    rw [List.length_take]
    exact Nat.min_eq_left hn
  rw [writeBytes_memory_add]
  rcases Nat.lt_trichotomy k n with hlt | rfl | hgt
  · rw [if_pos hlt, List.getElem?_append_left (by omega), List.getElem?_take_of_lt hlt]
    rw [List.getElem?_eq_getElem (by omega), List.getD_eq_getElem _ _ (by omega)]
    rfl
  · rw [if_neg (Nat.lt_irrefl _), if_pos rfl, List.getElem?_append_right (by omega), hlength,
      Nat.sub_self]
    rfl
  · rw [if_neg (by omega), if_neg (by omega), List.getElem?_eq_none]
    · rfl
    · rw [List.length_append, hlength, List.length_singleton]
      omega

/-- A record of a text against the copy of the text. -/
theorem record_eq_withText_iff (hn : n ≤ buf.length) :
    (m.writeBytes addr (buf.take n ++ [0])).memory = (m.withText addr n buf).memory ↔
      (∀ k, strlen buf ≤ k → k < n → buf.getD k 0 = 0) ∧
      (strlen buf ≠ n → m.memory (addr + n) = 0) ∧
      (n < strlen buf → m.memory (addr + strlen buf) = 0) := by
  rw [memory_eq_iff fun i hi =>
    (writeBytes_memory_of_lt _ hi).trans (withText_memory_of_lt _ hi).symm]
  simp only [record_memory hn, withText_memory]
  constructor
  · intro hcells
    refine ⟨?_, ?_, ?_⟩
    · intro k hend hk
      have hcell := hcells k
      rwa [if_pos hk, if_pos hk, if_neg (Nat.not_lt.mpr hend)] at hcell
    · intro hne
      have hcell := hcells n
      rw [if_neg (Nat.lt_irrefl n), if_pos rfl, if_neg (Nat.lt_irrefl n), if_neg (Ne.symm hne)]
        at hcell
      exact hcell.symm
    · intro hlt
      have hcell := hcells (strlen buf)
      rwa [if_neg (by omega), if_neg (by omega), if_neg (by omega), if_pos rfl] at hcell
  · rintro ⟨hbelow, hzero, hbehind⟩ k
    by_cases hk : k < n
    · rw [if_pos hk, if_pos hk]
      split
      · rfl
      · next hend => exact hbelow k (Nat.le_of_not_lt hend) hk
    · rw [if_neg hk, if_neg hk]
      by_cases hlast : k = n
      · rw [if_pos hlast]
        split
        · rfl
        · next hend => rw [hlast, hzero fun heq => hend (hlast.trans heq.symm)]
      · rw [if_neg hlast]
        split
        · next hend =>
          rw [hend]
          exact hbehind (by omega)
        · rfl

/-- A record of digits against the bytes that the loop stored. -/
theorem record_eq_writeBytes_iff :
    (m.writeBytes addr (bs ++ [0])).memory = (m.writeBytes addr bs).memory ↔
      m.memory (addr + bs.length) = 0 := by
  rw [memory_eq_iff fun i hi =>
    (writeBytes_memory_of_lt _ hi).trans (writeBytes_memory_of_lt _ hi).symm]
  simp only [writeBytes_memory_add]
  constructor
  · intro hcells
    have hcell := hcells bs.length
    rw [List.getElem?_append_right (Nat.le_refl _), Nat.sub_self,
      List.getElem?_eq_none (Nat.le_refl _)] at hcell
    exact hcell.symm
  · intro hzero k
    rcases Nat.lt_trichotomy k bs.length with hlt | heq | hgt
    · rw [List.getElem?_append_left hlt]
    · rw [heq, List.getElem?_append_right (Nat.le_refl _), Nat.sub_self,
        List.getElem?_eq_none (Nat.le_refl _)]
      exact hzero.symm
    · rw [List.getElem?_eq_none (Nat.le_of_lt hgt), List.getElem?_eq_none]
      rw [List.length_append, List.length_singleton]
      exact hgt

/-- The zeros behind the text of a line, which its own end always has. -/
theorem hostText_zeros_iff (hline : line ≠ []) (hfit : line.length < 2 * n + 2) :
    (∀ k, (lineText line).length ≤ k → k < n → (hostText heap (2 * n + 2) line).getD k 0 = 0) ↔
      ∀ k, strlen line < k → k < n → (line ++ [0]).getD k (heap k) = 0 := by
  have hget {k : ℕ} (hk : k < n) := getD_hostText (k := k) heap hline hfit (by omega)
  have hle : (lineText line).length ≤ strlen line := (List.rdropWhile_prefix _ _).length_le
  constructor
  · intro hzero k hend hk
    have hcell := hzero k (by omega) hk
    rwa [hget hk (by omega), if_neg (by omega)] at hcell
  · intro hzero k hend hk
    rw [hget hk hend]
    split
    · rfl
    · exact hzero k (by omega) hk

/-- A replay copies the record. -/
theorem exec_getsn_recorded (heap : ℕ → Byte) (junk : ℕ → BitVec 32) (c : Console)
    {addr bufsz : Word} {inp : List Byte} (hfit : addr.toNat + bufsz.toNat < 0xffff)
    (hn : 1 < bufsz.toNat) (hrecord : c.inputRecord m.insns = some inp)
    (hlength : inp.length ≤ 0x10000) :
    exec (getsn true heap junk addr bufsz c) m = .ok (c, m.writeBytes addr.toNat inp) := by
  rw [getsn, exec_bind, exec_assert, decide_eq_true hfit, if_pos rfl]
  dsimp only
  rw [if_neg (Nat.not_le.mpr hn), exec_bind, exec_core]
  dsimp only
  rw [hrecord, exec_bind, exec_when, exec_assert, Option.isSome_some, if_pos rfl, if_pos rfl]
  dsimp only
  have hcells : addr.toNat + inp.length ≤ memorySize := by
    unfold memorySize
    omega
  rw [exec_bind, exec_writeBytes m inp hcells]
  rfl

end Replay

/-- A replay at the same count leaves the same memory exactly when the record agrees with what the
guest was given, the zero byte that it has at its end included. -/
theorem input_replays_iff {heap heap' : ℕ → Byte} {junk junk' : ℕ → BitVec 32} {addr bufsz : Word}
    {c c₁ c' : Console} {m m₁ m' : Machine} (hn : 1 < bufsz.toNat)
    (hnew : c.inputRecord m.insns = none) (hstdin : c.stdin ≠ [])
    (hlive : exec (getsn false heap junk addr bufsz c) m = .ok (c₁, m₁))
    (hmemory : m'.memory = m.memory) (hinsns : m'.insns = m.insns)
    (hrecord : c'.inputRecord m.insns = c₁.inputRecord m.insns) :
    ∃ m₂, exec (getsn true heap' junk' addr bufsz c') m' = .ok (c', m₂) ∧
      (m₂.memory = m₁.memory ↔ Replays heap c m addr.toNat bufsz.toNat) := by
  obtain ⟨hfit, hcall⟩ := getsn_cases hlive
  have hcells (bs : List Byte) : (m'.writeBytes addr.toNat bs).memory =
      (m.writeBytes addr.toNat bs).memory := by
    funext i
    rw [writeBytes_memory, writeBytes_memory, hmemory]
  have hreplay {inp : List Byte} (hinp : c₁.inputRecord m.insns = some inp)
      (hlength : inp.length ≤ 0x10000) :=
    exec_getsn_recorded heap' junk' c' hfit hn
      (show c'.inputRecord m'.insns = some inp by rw [hinsns, hrecord, hinp]) hlength
  unfold Replays
  cases hcall with
  | small hsmall => exact absurd hn (Nat.not_lt.mpr hsmall)
  | replayed inp _ hsome => cases hnew.symm.trans hsome
  | ended _ _ hnil => exact absurd hnil hstdin
  | read _ _ _ hread =>
    obtain ⟨hline, hlength⟩ := line_fits (n := bufsz.toNat) hstdin
    dsimp only
    rcases read_cases hfit hn hstdin hread with
      ⟨htext, rfl, rfl⟩ | ⟨hhex, bs, broke, rfl, rfl, hlt, heq, hiff⟩
    · have hbuf :
          bufsz.toNat ≤ (hostText heap (2 * bufsz.toNat + 2) (c.line bufsz.toNat)).length := by
        rw [hostText, length_chomp, length_lineBuffer hlength]
        omega
      refine ⟨_, hreplay (Function.update_self _ _ _) ?_, ?_⟩
      · rw [List.length_append, List.length_take, List.length_singleton]
        omega
      · rw [if_neg htext, hcells, record_eq_withText_iff hbuf, strlen_hostText,
          hostText_zeros_iff hline hlength]
    · refine ⟨_, hreplay (Function.update_self _ _ _) ?_, ?_⟩
      · rw [List.length_append, List.length_singleton]
        cases broke with
        | true =>
          have hshort := hlt rfl
          omega
        | false =>
          have hfull := heq rfl
          omega
      · rw [if_pos hhex, hcells, ← hiff]
        cases broke with
        | true => exact iff_of_true rfl (Or.inl rfl)
        | false =>
          rw [if_neg Bool.false_ne_true, List.append_nil, record_eq_writeBytes_iff, heq rfl]
          exact (or_iff_right Bool.false_ne_true).symm

/-- A line of two letters is given again to a buffer of four bytes in cleared memory. -/
theorem input_replays_iff_fits :
    cellAfter 0x104 (replayedLine [0x61, 0x62, 0x0a] 4 (filled 0)) =
      cellAfter 0x104 (typedLine [0x61, 0x62, 0x0a] 4 (filled 0)) := by
  obtain ⟨r, hcall⟩ : ∃ r, typedLine [0x61, 0x62, 0x0a] 4 (filled 0) = .ok r := ⟨_, rfl⟩
  have hrecord : r.1.inputRecord (filled 0).insns = r.1.inputRecord (filled 0).insns := rfl
  have hmemory : (filled 0).memory = (filled 0).memory := rfl
  obtain ⟨m₂, hrun, hiff⟩ :=
    input_replays_iff (by decide) rfl (List.cons_ne_nil _ _) hcall hmemory rfl hrecord
  have hfilled (k : ℕ) (hlow : 3 < k) (hhigh : k < 4) :
      ([0x61, 0x62, 0x0a] ++ [0] : List Byte).getD k 0 = 0 := by omega
  have hsame := hiff.mpr ⟨hfilled, fun _ => rfl, fun _ => rfl⟩
  have hreplay : replayedLine [0x61, 0x62, 0x0a] 4 (filled 0) = .ok (r.1, m₂) := by
    rw [replayedLine, hcall]
    exact hrun
  rw [hreplay, hcall]
  exact congrArg (fun f => Except.ok (f 0x104)) hsame

/-- Where that buffer is followed by another byte, only the replay clears it. -/
theorem input_replays_otherwise :
    cellAfter 0x104 (typedLine [0x61, 0x62, 0x0a] 4 (filled 0xff)) = .ok 0xff ∧
    cellAfter 0x104 (replayedLine [0x61, 0x62, 0x0a] 4 (filled 0xff)) = .ok 0 := by
  decide

end AvrEmu
