import Mathlib.Data.List.Basic
import Mathlib.Data.Nat.Notation
import Mathlib.Tactic.IntervalCases

/-!
# Hexadecimal text

Printing a byte with two digits, and the hexadecimal conversion of `sscanf`: leading blanks,
a sign and a `0x` are accepted, digits of either case count, and the number is reduced to
32 bits after it has been clamped to 64.
-/

namespace Hex

abbrev Text := List (BitVec 8)

/-- The digit that stands for a number below 16. -/
def digit (v : ℕ) : BitVec 8 := BitVec.ofNat 8 (if v < 10 then 48 + v else 87 + v)

/-- A byte as `%02x` prints it. -/
def pair (b : BitVec 8) : Text := [digit (b.toNat / 16), digit (b.toNat % 16)]

/-- The number that a digit of either case stands for. -/
def value (c : BitVec 8) : Option ℕ :=
  if 48 ≤ c.toNat ∧ c.toNat ≤ 57 then some (c.toNat - 48)
  else if 65 ≤ c.toNat ∧ c.toNat ≤ 70 then some (c.toNat - 55)
  else if 97 ≤ c.toNat ∧ c.toNat ≤ 102 then some (c.toNat - 87)
  else none

def isDigit (c : BitVec 8) : Bool := (value c).isSome

def isSpace (c : BitVec 8) : Bool := c == 32 || (9 ≤ c.toNat && c.toNat ≤ 13)

/-- The number that a string of digits stands for. -/
def number (ds : Text) : ℕ := ds.foldl (fun n c => n * 16 + (value c).getD 0) 0

/-- The sign that the text begins with, if any. -/
def sign : Text → Bool × Text
  | 0x2d :: s => (true, s)
  | 0x2b :: s => (false, s)
  | s => (false, s)

/-- The text after a leading `0x` or `0X`. -/
def afterPrefix : Text → Text
  | 0x30 :: 0x78 :: s => s
  | 0x30 :: 0x58 :: s => s
  | s => s

/-- The conversion `%x` of at most `width` characters: the value and the text that is left. A `0x`
without a digit behind it is no match, as ISO C has it; glibc 2.39 takes it for a zero. -/
def scan (width : Option ℕ) (s : Text) : Option (BitVec 32 × Text) :=
  let s := s.dropWhile isSpace
  let field := width.elim s s.take
  let (neg, body) := sign field
  let body := afterPrefix body
  let ds := body.takeWhile isDigit
  if ds.isEmpty then none
  else
    let n := number ds
    let v := if 2 ^ 64 ≤ n then 2 ^ 64 - 1 else if neg then 2 ^ 64 - n else n
    some (BitVec.ofNat 32 v, body.dropWhile isDigit ++ s.drop field.length)

/-- A literal character of a format. -/
def literal (c : BitVec 8) : Text → Option Text
  | d :: s => if d = c then some s else none
  | [] => none

/-- A digit as `%x` prints it, never in upper case. -/
def IsLower (c : BitVec 8) : Prop := (48 ≤ c.toNat ∧ c.toNat ≤ 57) ∨ (97 ≤ c.toNat ∧ c.toNat ≤ 102)

instance (c : BitVec 8) : Decidable (IsLower c) := inferInstanceAs (Decidable (_ ∨ _))

/-- The bytes of a list, two digits each. -/
def bytes (bs : List (BitVec 8)) : Text := bs.flatMap pair

/-- Digits that stand for a number. -/
structure Numeral (n : ℕ) (ds : Text) : Prop where
  ne_nil : ds ≠ []
  digits : ∀ c ∈ ds, isDigit c = true
  number_eq : number ds = n

/-- Two digits for each of some bytes. -/
def Denotes : Text → List (BitVec 8) → Prop
  | c :: d :: s, b :: bs =>
    isDigit c = true ∧ isDigit d = true ∧ number [c, d] = b.toNat ∧ Denotes s bs
  | [], [] => True
  | _, _ => False

variable {c d : BitVec 8} {ds s t u : Text}

theorem value_digit {v : ℕ} (h : v < 16) : value (digit v) = some v := by
  interval_cases v <;> rfl

theorem isDigit_digit {v : ℕ} (h : v < 16) : isDigit (digit v) = true := by
  rw [isDigit, value_digit h]
  rfl

@[simp] theorem literal_self (c : BitVec 8) (s : Text) : literal c (c :: s) = some s := by
  rw [literal, if_pos rfl]

/-- Every lower-case digit is one that is printed. -/
theorem IsLower.exists_digit (h : IsLower c) : ∃ v < 16, c = digit v := by
  rcases h with h | h
  · refine ⟨c.toNat - 48, by omega, BitVec.eq_of_toNat_eq ?_⟩
    rw [digit, if_pos (by omega), BitVec.toNat_ofNat]
    omega
  · refine ⟨c.toNat - 87, by omega, BitVec.eq_of_toNat_eq ?_⟩
    rw [digit, if_neg (by omega), BitVec.toNat_ofNat]
    omega

theorem isLower_digit {v : ℕ} (h : v < 16) : IsLower (digit v) := by
  interval_cases v <;> decide

/-- No digit is a blank, a sign or the letter of the prefix. -/
theorem not_special_of_isDigit (h : isDigit c = true) :
    isSpace c = false ∧ c ≠ 0x2d ∧ c ≠ 0x2b ∧ c ≠ 0x78 ∧ c ≠ 0x58 := by
  refine ⟨?_, ?_, ?_, ?_, ?_⟩
  · by_contra hspace
    simp only [isSpace, Bool.not_eq_false, Bool.or_eq_true, beq_iff_eq, Bool.and_eq_true,
      decide_eq_true_eq] at hspace
    have hvalue : value c = none := by
      rcases hspace with rfl | hspace
      · rfl
      · rw [value, if_neg (by omega), if_neg (by omega), if_neg (by omega)]
    rw [isDigit, hvalue] at h
    cases h
  all_goals
    rintro rfl
    cases h

theorem number_two (c d : BitVec 8) :
    number [c, d] = ((value c).getD 0) * 16 + (value d).getD 0 := by
  simp [number]

theorem number_pair (b : BitVec 8) : number (pair b) = b.toNat := by
  have hlt := b.isLt
  rw [pair, number_two, value_digit (by omega), value_digit (by omega), Option.getD_some,
    Option.getD_some]
  omega

theorem value_getD_lt (c : BitVec 8) : (value c).getD 0 < 16 := by
  unfold value
  split_ifs <;> simp only [Option.getD_some, Option.getD_none] <;> omega

/-- Two lower-case digits are the text of a byte. -/
theorem exists_pair (hc : IsLower c) (hd : IsLower d) : ∃ b, pair b = [c, d] := by
  obtain ⟨v, hv, rfl⟩ := hc.exists_digit
  obtain ⟨w, hw, rfl⟩ := hd.exists_digit
  refine ⟨BitVec.ofNat 8 (v * 16 + w), ?_⟩
  rw [pair, BitVec.toNat_ofNat, Nat.mod_eq_of_lt (by omega), show (v * 16 + w) / 16 = v by omega,
    show (v * 16 + w) % 16 = w by omega]

/-- An even number of lower-case digits is the text of some bytes. -/
theorem exists_bytes {n : ℕ} (hlen : ds.length = 2 * n) (hlower : ∀ c ∈ ds, IsLower c) :
    ∃ bs, bs.length = n ∧ bytes bs = ds := by
  induction n generalizing ds with
  | zero => exact ⟨[], rfl, (List.eq_nil_of_length_eq_zero hlen).symm⟩
  | succ n ih =>
    match ds with
    | [] => simp at hlen
    | [c] =>
      simp only [List.length_singleton] at hlen
      omega
    | c :: d :: rest =>
      obtain ⟨b, hb⟩ := exists_pair (hlower c (by simp)) (hlower d (by simp))
      simp only [List.length_cons] at hlen
      have hrest : rest.length = 2 * n := by omega
      obtain ⟨bs, hlen', hbs⟩ := ih hrest fun x hx => hlower x (by simp [hx])
      refine ⟨b :: bs, by rw [List.length_cons, hlen'], ?_⟩
      rw [bytes, List.flatMap_cons, hb, ← hbs]
      rfl

@[simp] theorem length_pair (b : BitVec 8) : (pair b).length = 2 := rfl

theorem length_bytes (bs : List (BitVec 8)) : (bytes bs).length = 2 * bs.length := by
  induction bs with
  | nil => rfl
  | cons b bs ih =>
    rw [bytes, List.flatMap_cons, List.length_append, length_pair, List.length_cons]
    change 2 + (bytes bs).length = _
    omega

theorem sign_of_isDigit (h : isDigit c = true) : sign (c :: s) = (false, c :: s) := by
  obtain ⟨-, hminus, hplus, -, -⟩ := not_special_of_isDigit h
  unfold sign
  split <;> simp_all

theorem afterPrefix_eq (h : ∀ c ∈ s.tail.head?, c ≠ 0x78 ∧ c ≠ 0x58) : afterPrefix s = s := by
  unfold afterPrefix
  split <;> simp_all

/-- A conversion reads the digits at the head of its field and leaves the rest. -/
theorem scan_eq {width : Option ℕ} (hfield : width.elim s s.take = ds ++ u)
    (hleft : s.drop (ds ++ u).length = t) (hne : ds ≠ []) (hdigits : ∀ c ∈ ds, isDigit c = true)
    (hu : ∀ c ∈ u.head?, isDigit c = false ∧ c ≠ 0x78 ∧ c ≠ 0x58) (hlt : number ds < 2 ^ 64) :
    scan width s = some (BitVec.ofNat 32 (number ds), u ++ t) := by
  obtain ⟨c, ds', rfl⟩ := List.exists_cons_of_ne_nil hne
  have hc := hdigits c List.mem_cons_self
  have hhead : ∃ r, s = c :: r := by
    cases width with
    | none => exact ⟨ds' ++ u, hfield⟩
    | some w =>
      cases s with
      | nil => simp at hfield
      | cons a r =>
        cases w with
        | zero => simp at hfield
        | succ w => exact ⟨r, congrArg (· :: r) (List.cons.inj hfield).1⟩
  have hspaces : s.dropWhile isSpace = s := by
    obtain ⟨r, rfl⟩ := hhead
    rw [List.dropWhile_cons_of_neg]
    simp [(not_special_of_isDigit hc).1]
  have hsign : sign (c :: ds' ++ u) = (false, c :: ds' ++ u) := sign_of_isDigit hc
  have hbody : afterPrefix (c :: ds' ++ u) = c :: ds' ++ u := by
    refine afterPrefix_eq fun x hx => ?_
    cases ds' with
    | nil => exact (hu x hx).2
    | cons d ds' =>
      obtain rfl : d = x := by simpa using hx
      exact (not_special_of_isDigit (hdigits d (by simp))).2.2.2
  have htake : (c :: ds' ++ u).takeWhile isDigit = c :: ds' := by
    rw [List.takeWhile_append_of_pos hdigits]
    cases u with
    | nil => simp
    | cons x u => rw [List.takeWhile_cons_of_neg (by simp [(hu x (by simp)).1]), List.append_nil]
  have hdrop : (c :: ds' ++ u).dropWhile isDigit = u := by
    rw [List.dropWhile_append_of_pos hdigits]
    cases u with
    | nil => rfl
    | cons x u => rw [List.dropWhile_cons_of_neg (by simp [(hu x (by simp)).1])]
  unfold scan
  dsimp only
  rw [hspaces, hfield, hsign]
  dsimp only
  rw [hbody, htake, hdrop, hleft]
  simp only [List.isEmpty_cons, Bool.false_eq_true, if_false, if_neg (Nat.not_le.mpr hlt)]

/-- A conversion of width two reads two digits. -/
theorem scan_two (hc : isDigit c = true) (hd : isDigit d = true) :
    scan (some 2) (c :: d :: s) = some (BitVec.ofNat 32 (number [c, d]), s) := by
  have hlt : number [c, d] < 2 ^ 64 := by
    have hc := value_getD_lt c
    have hd := value_getD_lt d
    rw [number_two]
    omega
  exact scan_eq (u := []) rfl rfl (by simp) (by simp [hc, hd]) (by simp) hlt

/-- In particular the two digits of a byte. -/
theorem scan_denoted {b : BitVec 8} (hc : isDigit c = true) (hd : isDigit d = true)
    (hb : number [c, d] = b.toNat) :
    scan (some 2) (c :: d :: s) = some (b.setWidth 32, s) := by
  rw [scan_two hc hd, hb]
  congr 2
  apply BitVec.eq_of_toNat_eq
  rw [BitVec.toNat_ofNat, BitVec.toNat_setWidth]

/-- In particular what is printed of a byte. -/
theorem scan_pair (b : BitVec 8) : scan (some 2) (pair b ++ s) = some (b.setWidth 32, s) := by
  have hlt := b.isLt
  exact scan_denoted (isDigit_digit (by omega)) (isDigit_digit (by omega)) (number_pair b)

/-- A conversion without a width reads digits up to the first other character. -/
theorem scan_digits (hne : ds ≠ []) (hdigits : ∀ c ∈ ds, isDigit c = true)
    (hs : ∀ c ∈ s.head?, isDigit c = false ∧ c ≠ 0x78 ∧ c ≠ 0x58) (hlt : number ds < 2 ^ 64) :
    scan none (ds ++ s) = some (BitVec.ofNat 32 (number ds), s) := by
  have hscan : scan none (ds ++ s) = some (BitVec.ofNat 32 (number ds), s ++ []) :=
    scan_eq rfl List.drop_length hne hdigits hs hlt
  rwa [List.append_nil] at hscan

theorem scan_numeral {n : ℕ} (h : Numeral n ds)
    (hs : ∀ c ∈ s.head?, isDigit c = false ∧ c ≠ 0x78 ∧ c ≠ 0x58) (hlt : n < 2 ^ 64) :
    scan none (ds ++ s) = some (BitVec.ofNat 32 n, s) := by
  rw [← h.number_eq] at hlt ⊢
  exact scan_digits h.ne_nil h.digits hs hlt

/-! ## Text that ends at a zero byte -/

theorem dropWhile_append_zero {p : BitVec 8 → Bool} (hp : p 0 = false) (s u : Text) :
    (s ++ 0 :: u).dropWhile p = s.dropWhile p ++ 0 :: u := by
  induction s with
  | nil => rw [List.nil_append, List.dropWhile_cons_of_neg (ne_true_of_eq_false hp),
      List.dropWhile_nil, List.nil_append]
  | cons c s ih =>
    rw [List.cons_append, List.dropWhile_cons, List.dropWhile_cons]
    split
    · exact ih
    · rfl

/-- A sign is looked for before the zero byte only. -/
theorem exists_sign_append_zero (s : Text) :
    ∃ neg t, t <:+ s ∧ ∀ u, sign (s ++ 0 :: u) = (neg, t ++ 0 :: u) := by
  cases s with
  | nil => exact ⟨false, [], List.suffix_refl _, fun _ => rfl⟩
  | cons c s =>
    by_cases hminus : c = 0x2d
    · subst hminus
      exact ⟨true, s, List.suffix_cons _ s, fun _ => rfl⟩
    · by_cases hplus : c = 0x2b
      · subst hplus
        exact ⟨false, s, List.suffix_cons _ s, fun _ => rfl⟩
      · refine ⟨false, c :: s, List.suffix_refl _, fun u => ?_⟩
        unfold sign
        split
        · exact absurd (by rename_i heq; exact (List.cons.inj heq).1) hminus
        · exact absurd (by rename_i heq; exact (List.cons.inj heq).1) hplus
        · rfl

theorem exists_afterPrefix_append_zero (s : Text) :
    ∃ t, t <:+ s ∧ ∀ u, afterPrefix (s ++ 0 :: u) = t ++ 0 :: u := by
  match s with
  | [] => exact ⟨[], List.suffix_refl _, fun _ => rfl⟩
  | [c] => exact ⟨[c], List.suffix_refl _, fun u => afterPrefix_eq (by simp)⟩
  | c :: d :: s =>
    by_cases hprefixed : c = 0x30 ∧ (d = 0x78 ∨ d = 0x58)
    · obtain ⟨rfl, rfl | rfl⟩ := hprefixed <;> exact ⟨s, ⟨[_, _], rfl⟩, fun _ => rfl⟩
    · refine ⟨c :: d :: s, List.suffix_refl _, fun u => ?_⟩
      unfold afterPrefix
      split
      · rename_i heq
        obtain ⟨hc, hrest⟩ := List.cons.inj heq
        exact absurd ⟨hc, Or.inl (List.cons.inj hrest).1⟩ hprefixed
      · rename_i heq
        obtain ⟨hc, hrest⟩ := List.cons.inj heq
        exact absurd ⟨hc, Or.inr (List.cons.inj hrest).1⟩ hprefixed
      · rfl

/-- A conversion without a width does not see what is behind the zero byte. -/
theorem exists_scan_append_zero (s : Text) : ∃ r : Option (BitVec 32 × Text),
    (∀ p ∈ r, p.2 <:+ s) ∧ ∀ u, scan none (s ++ 0 :: u) = r.map fun p => (p.1, p.2 ++ 0 :: u) := by
  have hspaces (u : Text) := dropWhile_append_zero (p := isSpace) rfl s u
  obtain ⟨neg, body, hbody, hsign⟩ := exists_sign_append_zero (s.dropWhile isSpace)
  obtain ⟨left, hleft, hbase⟩ := exists_afterPrefix_append_zero body
  have hdigits (u : Text) := dropWhile_append_zero (p := isDigit) rfl left u
  have htaken (u : Text) : (left ++ 0 :: u).takeWhile isDigit = left.takeWhile isDigit := by
    rw [List.takeWhile_append]
    split
    · rw [List.takeWhile_cons_of_neg (by decide), List.append_nil]
      rename_i hall
      exact ((List.takeWhile_prefix _).eq_of_length hall).symm
    · rfl
  have hsuffix : left.dropWhile isDigit <:+ s :=
    (List.dropWhile_suffix _).trans (hleft.trans (hbody.trans (List.dropWhile_suffix _)))
  unfold scan
  simp only [hspaces, Option.elim, hsign, hbase, hdigits, htaken, List.drop_length, List.append_nil]
  split
  · exact ⟨none, fun p hp => absurd hp (Option.not_mem_none p), fun _ => rfl⟩
  · refine ⟨some (_, left.dropWhile isDigit), fun p hp => ?_, fun _ => rfl⟩
    obtain rfl := Option.some.inj hp
    exact hsuffix

theorem scan_left_of_zero {v : BitVec 32} (h : scan none (s ++ 0 :: u) = some (v, t)) :
    ∃ l, t = l ++ 0 :: u ∧ l <:+ s := by
  obtain ⟨r, hsuffix, hscan⟩ := exists_scan_append_zero s
  rw [hscan] at h
  obtain ⟨p, hp, heq⟩ := Option.map_eq_some_iff.mp h
  exact ⟨p.2, (Prod.mk.inj heq).2.symm, hsuffix p hp⟩

theorem literal_append_zero (hc : c ≠ 0) (s u : Text) :
    literal c (s ++ 0 :: u) = (literal c s).map (· ++ 0 :: u) := by
  cases s with
  | nil => rw [List.nil_append, literal, if_neg (Ne.symm hc), literal, Option.map_none]
  | cons d s =>
    rw [List.cons_append, literal, literal]
    split <;> rfl

theorem literal_left_of_zero (hc : c ≠ 0) (h : literal c (s ++ 0 :: u) = some t) :
    ∃ l, t = l ++ 0 :: u ∧ l <:+ s := by
  rw [literal_append_zero hc] at h
  obtain ⟨l, hl, rfl⟩ := Option.map_eq_some_iff.mp h
  refine ⟨l, rfl, ?_⟩
  cases s with
  | nil => cases hl
  | cons d s =>
    rw [literal] at hl
    split at hl
    · obtain rfl := Option.some.inj hl
      exact List.suffix_cons d s
    · cases hl

/-- There is nothing to convert at a zero byte. -/
theorem scan_zero (s : Text) : scan (some 2) (0 :: s) = none := by
  cases s <;> rfl

/-- What is printed of bytes stands for them. -/
theorem denotes_bytes (bs : List (BitVec 8)) : Denotes (bytes bs) bs := by
  induction bs with
  | nil => trivial
  | cons b bs ih =>
    have hlt := b.isLt
    exact ⟨isDigit_digit (by omega), isDigit_digit (by omega), number_pair b, ih⟩

/-- A text stands for one list of bytes. -/
theorem Denotes.unique {bs bs' : List (BitVec 8)} (h : Denotes s bs) (h' : Denotes s bs') :
    bs = bs' := by
  induction s, bs using Denotes.induct generalizing bs' with
  | case1 c d s b bs ih =>
    match bs', h' with
    | b' :: bs', h' =>
      obtain ⟨-, -, hb, hs⟩ := h
      obtain ⟨-, -, hb', hs'⟩ := h'
      rw [BitVec.eq_of_toNat_eq (hb.symm.trans hb'), ih hs hs']
  | case2 =>
    match bs', h' with
    | [], _ => rfl
  | case3 => exact absurd h (by simp_all [Denotes])

theorem bytes_inj {bs bs' : List (BitVec 8)} (h : bytes bs = bytes bs') : bs = bs' :=
  (denotes_bytes bs).unique (h ▸ denotes_bytes bs')

end Hex
