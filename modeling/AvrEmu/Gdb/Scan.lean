import AvrEmu.Emulate
import AvrEmu.Gdb.Outcome

/-!
# The scanning loop

What has been received is cut into acknowledgements and packets. A pass of the loop consumes the
first of them, and the pass that finds none of them stays where it is.
-/

namespace AvrEmu

variable {e e' : Emu} {bp ep : ℕ} {u s rest : List Byte} {us : List (List Byte)}

/-- An acknowledgement. -/
def IsAck (u : List Byte) : Prop := u = [0x2b] ∨ u = [0x2d]

/-- A packet with its `#` and the two characters after it. -/
def IsComplete (u : List Byte) : Prop :=
  ∃ body a b, u = body ++ [0x23, a, b] ∧ 0x23 ∉ body ∧ body.head? ≠ some 0x2b ∧
    body.head? ≠ some 0x2d

/-- What the loop consumes in one pass. -/
def IsUnit (u : List Byte) : Prop := IsAck u ∨ IsComplete u

/-- Nothing to consume at the head of the text. -/
def Unfinished (s : List Byte) : Prop := ∀ u t, IsUnit u → s ≠ u ++ t

/-- A packet is longer than an acknowledgement. -/
theorem IsComplete.not_isAck (h : IsComplete u) : ¬ IsAck u := by
  obtain ⟨body, a, b, rfl, -⟩ := h
  rintro (heq | heq) <;>
  · have hlength := congrArg List.length heq
    simp at hlength

/-- What lies between `bp` and `ep`. -/
def Emu.pending (bp ep : ℕ) (e : Emu) : List Byte := (e.clientbuf.drop bp).take (ep - bp)

/-- Passes of the loop until control leaves it. -/
def scanPasses : ℕ → Point → Emu → Except Abort (Point × Emu)
  | k + 1, .scan bp ep, e =>
    match gdbstubScan bp ep e with
    | .ok (p, e') => scanPasses k p e'
    | .error a => .error a
  | _, p, e => .ok (p, e)

/-- Control is in the scanning loop. -/
def Point.isScan : Point → Bool
  | .scan _ _ => true
  | _ => false

/-- One of the units, as they lie at the head of the buffer, makes the emulator go on. -/
def Resumes (insns : ℕ) : List Byte → List (List Byte) → Prop
  | _, [] => False
  | buf, u :: us => resumes insns (command buf) = true ∨ Resumes insns (buf.drop u.length) us

/-! ## One pass -/

theorem length_pending (bp : ℕ) (hep : ep ≤ e.clientbuf.length) :
    (e.pending bp ep).length = ep - bp := by
  rw [Emu.pending, List.length_take, List.length_drop]
  omega

/-- What is left when the first of it has been consumed. -/
theorem pending_drop (n : ℕ) : e.pending (bp + n) ep = (e.pending bp ep).drop n := by
  rw [Emu.pending, Emu.pending, List.drop_take, List.drop_drop, Nat.sub_sub]

theorem pending_append (h : e.pending bp ep = u ++ s) : e.pending (bp + u.length) ep = s := by
  rw [pending_drop, h, List.drop_left]

/-- The buffer from `bp` on begins with what lies there. -/
theorem drop_eq_append (h : e.pending bp ep = s) :
    e.clientbuf.drop bp = s ++ e.clientbuf.drop (bp + (ep - bp)) := by
  rw [← h, Emu.pending, ← List.drop_drop, List.take_append_drop]

theorem lt_of_pending (h : e.pending bp ep = s) (hne : s ≠ []) : bp < ep := by
  by_contra hle
  rw [Emu.pending, Nat.sub_eq_zero_of_le (Nat.not_lt.mp hle), List.take_zero] at h
  exact hne h.symm

theorem getElem?_pending {c : Byte} (h : e.pending bp ep = c :: s) : e.clientbuf[bp]? = some c := by
  have hdrop := drop_eq_append h
  rw [← List.head?_drop, hdrop]
  rfl

/-- A pass over an acknowledgement. -/
theorem scan_ack (hu : IsAck u) (h : e.pending bp ep = u ++ s) :
    gdbstubScan bp ep e = .ok (.scan (bp + 1) ep, { e with cblen := e.cblen - 1 }) := by
  have hlt : bp < ep := lt_of_pending h (by rcases hu with rfl | rfl <;> simp)
  have hchar : e.clientbuf[bp]? = some 0x2b ∨ e.clientbuf[bp]? = some 0x2d := by
    rcases hu with rfl | rfl
    · exact Or.inl (getElem?_pending h)
    · exact Or.inr (getElem?_pending h)
  rw [gdbstubScan, if_pos hlt, if_pos hchar, pure_eq_ok]

/-- The place of the `#` behind a text without one. -/
theorem idxOf?_append {body t : List Byte} (hbody : 0x23 ∉ body) :
    (body ++ 0x23 :: t).idxOf? 0x23 = some body.length := by
  induction body with
  | nil => rfl
  | cons c body ih =>
    simp only [List.mem_cons, not_or] at hbody
    have hne : ¬ (c == 0x23) = true := fun heq => hbody.1 (beq_iff_eq.mp heq).symm
    rw [List.cons_append, List.idxOf?_cons, if_neg hne, ih hbody.2]
    rfl

/-- A text in which a `#` has been found. -/
theorem exists_body {n : ℕ} (h : s.idxOf? 0x23 = some n) :
    ∃ body t, s = body ++ 0x23 :: t ∧ 0x23 ∉ body ∧ body.length = n := by
  obtain ⟨hn, hat, hbefore⟩ := List.idxOf?_eq_some_iff.mp h
  refine ⟨s.take n, s.drop (n + 1), ?_, ?_, ?_⟩
  · rw [← hat, List.cons_getElem_drop_succ, List.take_append_drop]
  · intro hmem
    obtain ⟨j, hj, heq⟩ := List.mem_take_iff_getElem.mp hmem
    exact hbefore j (by omega) heq
  · rw [List.length_take]
    omega

theorem findPound_eq : findPound e.clientbuf bp ep =
    ((e.pending bp ep).idxOf? 0x23).map (bp + ·) := rfl

/-- A pass over a packet. -/
theorem scan_complete {body : List Byte} {a b : Byte} (hbody : 0x23 ∉ body)
    (hplus : body.head? ≠ some 0x2b) (hminus : body.head? ≠ some 0x2d)
    (hep : ep ≤ e.clientbuf.length) (h : e.pending bp ep = body ++ [0x23, a, b] ++ s) :
    gdbstubScan bp ep e = gdbCmd bp (bp + body.length) e >>= fun e =>
      if e.execute then pure (gdbstubScanned (bp + body.length + 3) ep e)
      else pure (.scan (bp + body.length + 3) ep, e) := by
  have hlt : bp < ep := lt_of_pending h (by simp)
  have hchar : ¬ (e.clientbuf[bp]? = some 0x2b ∨ e.clientbuf[bp]? = some 0x2d) := by
    cases body with
    | nil =>
      rw [getElem?_pending h]
      decide
    | cons c body =>
      rw [getElem?_pending h]
      exact not_or.mpr ⟨hplus, hminus⟩
  have hpound : findPound e.clientbuf bp ep = some (bp + body.length) := by
    rw [findPound_eq, h, List.append_assoc, List.cons_append, idxOf?_append hbody, Option.map_some]
  have hlength := length_pending bp hep
  rw [h, List.length_append, List.length_append, List.length_cons] at hlength
  have hwhole : bp + body.length + 2 < ep := by
    simp only [List.length_cons, List.length_nil] at hlength
    omega
  rw [gdbstubScan, if_pos hlt, if_neg hchar, hpound]
  dsimp only
  rw [if_pos hwhole]

/-- A pass that finds nothing to consume. -/
theorem scan_unfinished (hs : Unfinished s) (hne : s ≠ []) (hep : ep ≤ e.clientbuf.length)
    (h : e.pending bp ep = s) : gdbstubScan bp ep e = .ok (.scan bp ep, e) := by
  have hlt : bp < ep := lt_of_pending h hne
  obtain ⟨c, t, rfl⟩ := List.exists_cons_of_ne_nil hne
  have hchar : ¬ (e.clientbuf[bp]? = some 0x2b ∨ e.clientbuf[bp]? = some 0x2d) := by
    rw [getElem?_pending h]
    rintro (hplus | hminus)
    · exact hs [0x2b] t (Or.inl (Or.inl rfl)) (by rw [Option.some.inj hplus]; rfl)
    · exact hs [0x2d] t (Or.inl (Or.inr rfl)) (by rw [Option.some.inj hminus]; rfl)
  rw [gdbstubScan, if_pos hlt, if_neg hchar]
  cases hpound : findPound e.clientbuf bp ep with
  | none => rfl
  | some pound =>
    dsimp only
    rw [if_neg, pure_eq_ok]
    intro hwhole
    rw [findPound_eq, h, Option.map_eq_some_iff] at hpound
    obtain ⟨n, hn, rfl⟩ := hpound
    obtain ⟨body, t', ht, hbody, rfl⟩ := exists_body hn
    have hlength := length_pending bp hep
    rw [h, ht, List.length_append, List.length_cons] at hlength
    match t', hlength with
    | [], hlength | [_], hlength =>
      simp only [List.length_nil, List.length_cons] at hlength
      omega
    | a :: b :: t', _ =>
      have hhead (x : Byte) (hx : body.head? = some x) : e.clientbuf[bp]? = some x := by
        obtain ⟨body', rfl⟩ := List.head?_eq_some_iff.mp hx
        exact getElem?_pending (h.trans ht)
      exact hs (body ++ [0x23, a, b]) t'
        (Or.inr ⟨body, a, b, rfl, hbody, fun hx => hchar (Or.inl (hhead _ hx)),
          fun hx => hchar (Or.inr (hhead _ hx))⟩) (by simp [ht])

/-- A pass with nothing left. -/
theorem scan_empty (h : ep ≤ bp) : gdbstubScan bp ep e = .ok (gdbstubScanned bp ep e) := by
  rw [gdbstubScan, if_neg (Nat.not_lt.mpr h), pure_eq_ok]

/-- What a pass over a unit does before it looks whether to go on. -/
structure Passed (bp : ℕ) (u : List Byte) (e e₁ : Emu) : Prop where
  length_eq : e₁.clientbuf.length = e.clientbuf.length
  drop_eq : e₁.clientbuf.drop (bp + u.length) = e.clientbuf.drop (bp + u.length)
  effect : (IsAck u ∧ e₁ = { e with cblen := e.cblen - 1 }) ∨
    (IsComplete u ∧ ∃ buf ack, (Event.send ack).isStop = false ∧
      Effect (command (e.clientbuf.drop bp))
        { e with clientbuf := buf, log := e.log ++ [.packet u, .send ack] } e₁)

/-- No command begins with an acknowledgement. -/
theorem command_ack (hu : IsAck u) : command (u ++ s) = none := by
  have hhead : (u ++ s).headD 0 ≠ 0x24 := by
    rcases hu with rfl | rfl
    · exact show (0x2b : Byte) ≠ 0x24 by decide
    · exact show (0x2d : Byte) ≠ 0x24 by decide
  unfold command
  split
  · rfl
  · rw [if_neg fun h => hhead h.1]

theorem resumes_none (insns : ℕ) : resumes insns none = false := rfl

theorem Passed.insns_eq {e₁ : Emu} (h : Passed bp u e e₁) : e₁.machine.insns = e.machine.insns := by
  rcases h.effect with ⟨-, rfl⟩ | ⟨-, buf, ack, -, heffect⟩
  · rfl
  · exact heffect.insns_eq

theorem Passed.execute_eq {e₁ : Emu} (h : Passed bp u e e₁) (hpend : e.pending bp ep = u ++ s)
    (hidle : e.execute = false) :
    e₁.execute = resumes e.machine.insns (command (e.clientbuf.drop bp)) := by
  rcases h.effect with ⟨hack, rfl⟩ | ⟨-, buf, ack, -, heffect⟩
  · rw [drop_eq_append hpend, List.append_assoc, command_ack hack, resumes_none]
    exact hidle
  · exact heffect.execute_eq hidle

/-- A pass over a unit. -/
theorem scan_unit (hu : IsUnit u) (hep : ep ≤ e.clientbuf.length)
    (h : e.pending bp ep = u ++ s) (hidle : e.execute = false) :
    (∃ a, gdbstubScan bp ep e = .error a) ∨
    ∃ e₁, Passed bp u e e₁ ∧ gdbstubScan bp ep e = .ok
      (if e₁.execute then gdbstubScanned (bp + u.length) ep e₁
        else (.scan (bp + u.length) ep, e₁)) := by
  rcases hu with hack | hcomplete
  · have hlen : u.length = 1 := by rcases hack with rfl | rfl <;> rfl
    refine Or.inr ⟨{ e with cblen := e.cblen - 1 }, ⟨rfl, rfl, Or.inl ⟨hack, rfl⟩⟩, ?_⟩
    rw [scan_ack hack h, hlen]
    dsimp only
    rw [hidle, if_neg Bool.false_ne_true]
  · obtain ⟨body, a, b, rfl, hbody, hplus, hminus⟩ := hcomplete
    have hlen : (body ++ [0x23, a, b]).length = body.length + 3 := by simp
    rw [scan_complete hbody hplus hminus hep h]
    cases hcmd : gdbCmd bp (bp + body.length) e with
    | error x => exact Or.inl ⟨x, rfl⟩
    | ok e₁ =>
      have hdrop := drop_eq_append h
      have hp : (e.clientbuf.drop bp).idxOf? 0x23 = some body.length := by
        rw [hdrop, List.append_assoc, List.append_assoc, List.cons_append, idxOf?_append hbody]
      have hpacket : (e.clientbuf.drop bp).take (body.length + 3) = body ++ [0x23, a, b] := by
        rw [hdrop, List.append_assoc, ← hlen, List.take_left]
      obtain ⟨buf, ack, hbuf, hstop, heffect⟩ := gdbCmd_effect hp hcmd
      rw [hpacket] at heffect
      have hsame : e₁.clientbuf = buf := by rw [heffect.frame]
      refine Or.inr ⟨e₁, ⟨?_, ?_, Or.inr ⟨⟨body, a, b, rfl, hbody, hplus, hminus⟩, buf, ack, hstop,
        heffect⟩⟩, ?_⟩
      · rw [hsame]
        rcases hbuf with rfl | rfl
        · rfl
        · rw [List.length_set]
      · rw [hsame, hlen]
        rcases hbuf with rfl | rfl
        · rfl
        · rw [List.drop_set_of_lt (by omega)]
      · rw [ok_bind, hlen, Nat.add_assoc]
        split <;> rfl

/-! ## The whole loop -/

@[simp] theorem scanPasses_zero (p : Point) (e : Emu) : scanPasses 0 p e = .ok (p, e) := by
  cases p <;> rfl

theorem scanPasses_scan (k : ℕ) : scanPasses (k + 1) (.scan bp ep) e =
    match gdbstubScan bp ep e with
    | .ok (p, e') => scanPasses k p e'
    | .error a => .error a := rfl

/-- Outside the loop there are no passes. -/
theorem scanPasses_left {p : Point} (hp : p.isScan = false) (k : ℕ) (e : Emu) :
    scanPasses k p e = .ok (p, e) := by
  cases p with
  | scan bp ep => cases hp
  | top | recv | run | stopped => cases k <;> rfl

theorem scanPasses_add (k n : ℕ) (p : Point) (e : Emu) : scanPasses (k + n) p e =
    match scanPasses k p e with
    | .ok (p', e') => scanPasses n p' e'
    | .error a => .error a := by
  induction k generalizing p e with
  | zero => rw [Nat.zero_add, scanPasses_zero]
  | succ k ih =>
    cases p with
    | scan bp ep =>
      rw [Nat.add_right_comm, scanPasses_scan, scanPasses_scan]
      cases gdbstubScan bp ep e with
      | error a => rfl
      | ok r => exact ih r.1 r.2
    | top | recv | run | stopped =>
      rw [scanPasses_left rfl, scanPasses_left rfl]
      exact (scanPasses_left rfl n e).symm

/-- After the loop the bytes that have not been consumed are at the front. -/
theorem take_scanned (hbp : 0 < bp) (hep : ep ≤ e.clientbuf.length) :
    (gdbstubScanned bp ep e).2.clientbuf.take (gdbstubScanned bp ep e).2.cblen =
      e.pending bp ep := by
  have hlen := length_pending bp hep
  rw [gdbstubScanned, if_neg hbp.ne']
  exact List.take_left' hlen

/-- The loop is left for the emulator or for the next `recv`. -/
theorem scanned_eq : gdbstubScanned bp ep e =
    (if e.execute then .run else .recv, (gdbstubScanned bp ep e).2) := by
  refine Prod.ext ?_ rfl
  unfold gdbstubScanned
  by_cases hbp : bp = 0
  · rw [if_pos hbp]
  · rw [if_neg hbp]

/-- Leaving the loop concerns the buffer only. -/
theorem scanned_frame (bp ep : ℕ) (e : Emu) : ∃ buf n, (gdbstubScanned bp ep e).2 =
    { e with clientbuf := buf, cblen := n } := by
  unfold gdbstubScanned
  split
  · exact ⟨e.clientbuf, e.cblen, rfl⟩
  · exact ⟨_, _, rfl⟩

theorem length_pos_of_isUnit (hu : IsUnit u) : 0 < u.length := by
  rcases hu with (rfl | rfl) | ⟨body, a, b, rfl, -⟩
  · exact Nat.one_pos
  · exact Nat.one_pos
  · simp

/-- The course of the loop: it is aborted in a handler, or it ends with the first command that makes
the emulator go on, or it consumes all units. -/
theorem scan_course (hunits : ∀ u ∈ us, IsUnit u) (hep : ep ≤ e.clientbuf.length)
    (h : e.pending bp ep = us.flatten ++ rest) (hidle : e.execute = false) :
    (∃ k a, scanPasses k (.scan bp ep) e = .error a) ∨
    (∃ k done todo e', us = done ++ todo ∧
      Resumes e.machine.insns (e.clientbuf.drop bp) done ∧
      ¬ Resumes e.machine.insns (e.clientbuf.drop bp) done.dropLast ∧
      scanPasses k (.scan bp ep) e = .ok (.run, e') ∧
      e'.clientbuf.take e'.cblen = todo.flatten ++ rest) ∨
    (¬ Resumes e.machine.insns (e.clientbuf.drop bp) us ∧
      ∃ k e', scanPasses k (.scan bp ep) e = .ok (.scan (bp + us.flatten.length) ep, e') ∧
        e'.pending (bp + us.flatten.length) ep = rest ∧ e'.execute = false ∧
        ep ≤ e'.clientbuf.length ∧ (us = [] → e' = e)) := by
  induction us generalizing bp e with
  | nil => exact Or.inr (Or.inr ⟨id, 0, e, scanPasses_zero _ _, h, hidle, hep, fun _ => rfl⟩)
  | cons u us ih =>
    have hu := hunits u List.mem_cons_self
    rw [List.flatten_cons, List.append_assoc] at h
    rcases scan_unit hu hep h hidle with ⟨a, ha⟩ | ⟨e₁, hpassed, hscan⟩
    · exact Or.inl ⟨1, a, by rw [scanPasses_scan, ha]⟩
    have hexecute := hpassed.execute_eq h hidle
    have hep₁ : ep ≤ e₁.clientbuf.length := by rwa [hpassed.length_eq]
    have hrest : e₁.pending (bp + u.length) ep = us.flatten ++ rest := by
      rw [Emu.pending, hpassed.drop_eq]
      exact pending_append h
    cases hresume : resumes e.machine.insns (command (e.clientbuf.drop bp)) with
    | true =>
      rw [hresume] at hexecute
      rw [hexecute, if_pos rfl] at hscan
      have hlt := length_pos_of_isUnit hu
      refine Or.inr (Or.inl ⟨1, [u], us, (gdbstubScanned (bp + u.length) ep e₁).2, rfl,
        Or.inl hresume, id, ?_, ?_⟩)
      · rw [scanPasses_scan, hscan, scanned_eq, hexecute, if_pos rfl]
        exact scanPasses_zero _ _
      · rw [take_scanned (by omega) hep₁, hrest]
    | false =>
      rw [hresume] at hexecute
      rw [hexecute, if_neg Bool.false_ne_true] at hscan
      have hnext (k : ℕ) : scanPasses (k + 1) (.scan bp ep) e =
          scanPasses k (.scan (bp + u.length) ep) e₁ := by rw [scanPasses_scan, hscan]
      have hbuf : e₁.clientbuf.drop (bp + u.length) = (e.clientbuf.drop bp).drop u.length := by
        rw [hpassed.drop_eq, List.drop_drop]
      have hnot (us : List (List Byte)) : Resumes e.machine.insns (e.clientbuf.drop bp) (u :: us) ↔
          Resumes e₁.machine.insns (e₁.clientbuf.drop (bp + u.length)) us := by
        rw [Resumes, hresume, hpassed.insns_eq, hbuf]
        exact or_iff_right Bool.false_ne_true
      rcases ih (fun v hv => hunits v (List.mem_cons_of_mem _ hv)) hep₁ hrest hexecute with
        ⟨k, a, ha⟩ | ⟨k, done, todo, e', rfl, hdone, hfirst, hrun, hleft⟩ |
        ⟨hnone, k, e', hrun, hleft, hidle', hep', -⟩
      · exact Or.inl ⟨k + 1, a, (hnext k).trans ha⟩
      · have hne : done ≠ [] := by
          rintro rfl
          exact hdone
        refine Or.inr (Or.inl ⟨k + 1, u :: done, todo, e', rfl, (hnot done).mpr hdone, ?_,
          (hnext k).trans hrun, hleft⟩)
        rw [List.dropLast_cons_of_ne_nil hne, hnot]
        exact hfirst
      · have hbp : bp + (u :: us).flatten.length = bp + u.length + us.flatten.length := by
          rw [List.flatten_cons, List.length_append, Nat.add_assoc]
        rw [hbp]
        exact Or.inr (Or.inr ⟨fun hres => hnone ((hnot us).mp hres), k + 1, e',
          (hnext k).trans hrun, hleft, hidle', hep',
          fun hnil => absurd hnil (List.cons_ne_nil _ _)⟩)

/-- Every text is cut into units and a rest at whose head there is none. -/
theorem exists_units (s : List Byte) : ∃ (us : List (List Byte)) (rest : List Byte),
    s = us.flatten ++ rest ∧ (∀ u ∈ us, IsUnit u) ∧ Unfinished rest := by
  induction hlen : s.length using Nat.strong_induction_on generalizing s with
  | h n ih =>
    by_cases hfirst : ∃ u t, IsUnit u ∧ s = u ++ t
    · obtain ⟨u, t, hu, rfl⟩ := hfirst
      have hshorter : t.length < n := by
        have hpos := length_pos_of_isUnit hu
        rw [List.length_append] at hlen
        omega
      obtain ⟨us, rest, rfl, hunits, hrest⟩ := ih t.length hshorter t rfl
      refine ⟨u :: us, rest, (List.append_assoc _ _ _).symm, fun v hv => ?_, hrest⟩
      rcases List.mem_cons.mp hv with rfl | hv
      · exact hu
      · exact hunits v hv
    · exact ⟨[], s, rfl, by simp, fun u t hu heq => hfirst ⟨u, t, hu, heq⟩⟩

/-- At the head of an unfinished text the loop stays for ever. -/
theorem scanPasses_unfinished (hs : Unfinished s) (hne : s ≠ []) (hep : ep ≤ e.clientbuf.length)
    (h : e.pending bp ep = s) (k : ℕ) :
    scanPasses k (.scan bp ep) e = .ok (.scan bp ep, e) := by
  induction k with
  | zero => exact scanPasses_zero _ _
  | succ k ih =>
    rw [scanPasses_scan, scan_unfinished hs hne hep h]
    exact ih

/-- Passes after the loop has been left add nothing. -/
theorem scanPasses_unique {k n : ℕ} {p q p' : Point} {e₁ e₂ : Emu}
    (h : scanPasses k p e = .ok (q, e₁)) (hq : q.isScan = false)
    (h' : scanPasses n p e = .ok (p', e₂)) (hp' : p'.isScan = false) : q = p' ∧ e₁ = e₂ := by
  have hsum := scanPasses_add k n p e
  have hsum' := scanPasses_add n k p e
  rw [h] at hsum
  rw [h'] at hsum'
  rw [Nat.add_comm, hsum] at hsum'
  simp only [scanPasses_left hq, scanPasses_left hp'] at hsum'
  cases hsum'
  exact ⟨rfl, rfl⟩

theorem resumes_append {insns : ℕ} {buf : List Byte} {done : List (List Byte)}
    (h : Resumes insns buf done) (todo : List (List Byte)) : Resumes insns buf (done ++ todo) := by
  induction done generalizing buf with
  | nil => exact absurd h id
  | cons u done ih => exact h.imp_right ih

/-- The buffer is cut into units and an unfinished rest. Unless a handler aborts the program, the
loop ends if and only if there is no rest or a unit before it makes the emulator go on; it has
then consumed the units up to that one, or all of them, and what it has not consumed is at the
front. -/
theorem scan_ends_iff (e : Emu) (us : List (List Byte)) (rest : List Byte)
    (hcblen : e.cblen ≤ e.clientbuf.length) (hidle : e.execute = false)
    (hbuf : e.clientbuf.take e.cblen = us.flatten ++ rest) (hunits : ∀ u ∈ us, IsUnit u)
    (hrest : Unfinished rest) :
    (∃ k a, scanPasses k (.scan 0 e.cblen) e = .error a) ∨
    (((∃ k p e', scanPasses k (.scan 0 e.cblen) e = .ok (p, e') ∧ p.isScan = false) ↔
      rest = [] ∨ Resumes e.machine.insns e.clientbuf us) ∧
    ∀ k p e', scanPasses k (.scan 0 e.cblen) e = .ok (p, e') → p.isScan = false →
      ∃ done todo, us = done ++ todo ∧ e'.clientbuf.take e'.cblen = todo.flatten ++ rest ∧
        (todo = [] ∧ rest = [] ∨ Resumes e.machine.insns e.clientbuf done ∧
          ¬ Resumes e.machine.insns e.clientbuf done.dropLast)) := by
  have hpend : e.pending 0 e.cblen = us.flatten ++ rest := hbuf
  rcases scan_course hunits hcblen hpend hidle with
    ⟨k, a, ha⟩ | ⟨k, done, todo, e', rfl, hdone, hfirst, hrun, hleft⟩ |
    ⟨hnone, k, e', hrun, hleft, hidle', hep', hnil⟩
  · exact Or.inl ⟨k, a, ha⟩
  · rw [List.drop_zero] at hdone hfirst
    have hany := resumes_append hdone todo
    refine Or.inr ⟨iff_of_true ⟨k, .run, e', hrun, rfl⟩ (Or.inr hany), fun n p e₁ hn hp => ?_⟩
    obtain ⟨-, rfl⟩ := scanPasses_unique hrun rfl hn hp
    exact ⟨done, todo, rfl, hleft, Or.inr ⟨hdone, hfirst⟩⟩
  · rw [List.drop_zero] at hnone
    rw [Nat.zero_add] at hrun hleft
    by_cases hnorest : rest = []
    · subst hnorest
      have hend : e.cblen ≤ us.flatten.length := by
        have hlength := length_pending 0 hcblen
        rw [hpend, List.append_nil] at hlength
        omega
      have hlast : scanPasses (k + 1) (.scan 0 e.cblen) e =
          .ok (.recv, (gdbstubScanned us.flatten.length e.cblen e').2) := by
        rw [scanPasses_add, hrun]
        dsimp only
        rw [scanPasses_scan, scan_empty hend, scanned_eq, hidle', if_neg Bool.false_ne_true]
        exact scanPasses_zero _ _
      have hempty : (gdbstubScanned us.flatten.length e.cblen e').2.clientbuf.take
          (gdbstubScanned us.flatten.length e.cblen e').2.cblen = [] := by
        rcases Nat.eq_zero_or_pos us.flatten.length with hzero | hpos
        · have hnil' : us = [] := by
            by_contra hne
            obtain ⟨u, us, rfl⟩ := List.exists_cons_of_ne_nil hne
            have hpos := length_pos_of_isUnit (hunits u List.mem_cons_self)
            rw [List.flatten_cons, List.length_append] at hzero
            omega
          have hcb : e.cblen = 0 := by omega
          rw [hzero, hnil hnil', gdbstubScanned, if_pos rfl]
          dsimp only
          rw [hcb, List.take_zero]
        · rw [take_scanned hpos hep', hleft]
      refine Or.inr ⟨iff_of_true ⟨k + 1, _, _, hlast, rfl⟩ (Or.inl rfl), fun n p e₁ hn hp => ?_⟩
      obtain ⟨-, rfl⟩ := scanPasses_unique hlast rfl hn hp
      exact ⟨us, [], (List.append_nil _).symm, hempty, Or.inl ⟨rfl, rfl⟩⟩
    · have hstay (n : ℕ) (p : Point) (e₁ : Emu) (hp : p.isScan = false) :
          scanPasses n (.scan 0 e.cblen) e ≠ .ok (p, e₁) := by
        intro hn
        have hsum := scanPasses_add n k (.scan 0 e.cblen) e
        rw [Nat.add_comm, scanPasses_add, hrun, hn] at hsum
        dsimp only at hsum
        rw [scanPasses_unfinished hrest hnorest hep' hleft, scanPasses_left hp] at hsum
        cases hsum
        cases hp
      exact Or.inr ⟨iff_of_false (fun ⟨n, p, e₁, hn, hp⟩ => hstay n p e₁ hp hn)
        (not_or.mpr ⟨hnorest, hnone⟩), fun n p e₁ hn hp => absurd hn (hstay n p e₁ hp)⟩

theorem unfinished_nil : Unfinished [] := by
  intro u t hu heq
  have hpos := length_pos_of_isUnit hu
  rw [(List.append_eq_nil_iff.mp heq.symm).1] at hpos
  exact absurd hpos (Nat.lt_irrefl 0)

/-- What is received in the room that is left does not change the size of the buffer. -/
theorem length_received (h : e.cblen + s.length ≤ e.clientbuf.length) :
    (e.received s).clientbuf.length = e.clientbuf.length := by
  simp only [Emu.received, List.length_append, List.length_take, List.length_drop]
  omega

theorem length_clientbuf_start (m : Machine) :
    (gdbstubInit (Emu.start m)).clientbuf.length = pktBufMax := List.length_replicate

/-- An acknowledgement and a packet that makes the emulator go on. -/
theorem scan_ends_iff_continue :
    let e := (gdbstubInit (Emu.start (Machine.powerOn fun _ => 0))).received (ascii "+$c#63")
    let us := [ascii "+", ascii "$c#63"]
    let rest : List Byte := []
    (∃ k a, scanPasses k (.scan 0 e.cblen) e = .error a) ∨
    (((∃ k p e', scanPasses k (.scan 0 e.cblen) e = .ok (p, e') ∧ p.isScan = false) ↔
      rest = [] ∨ Resumes e.machine.insns e.clientbuf us) ∧
    ∀ k p e', scanPasses k (.scan 0 e.cblen) e = .ok (p, e') → p.isScan = false →
      ∃ done todo, us = done ++ todo ∧ e'.clientbuf.take e'.cblen = todo.flatten ++ rest ∧
        (todo = [] ∧ rest = [] ∨ Resumes e.machine.insns e.clientbuf done ∧
          ¬ Resumes e.machine.insns e.clientbuf done.dropLast)) := by
  intro e us rest
  have hunits : ∀ u ∈ us, IsUnit u := by
    intro u hu
    rcases List.mem_cons.mp hu with rfl | hu
    · exact Or.inl (Or.inl rfl)
    · obtain rfl := List.mem_singleton.mp hu
      exact Or.inr ⟨ascii "$c", 0x36, 0x33, rfl, by decide, by decide, by decide⟩
  have hlen : e.clientbuf.length = pktBufMax := by
    rw [length_received (by rw [length_clientbuf_start]; decide), length_clientbuf_start]
  exact scan_ends_iff e us rest (by rw [hlen]; decide) rfl rfl hunits unfinished_nil

/-- The first two bytes of a packet keep the loop busy for ever. -/
theorem scan_spins :
    let e := (gdbstubInit (Emu.start (Machine.powerOn fun _ => 0))).received (ascii "$g")
    ¬ ∃ k p e', scanPasses k (.scan 0 e.cblen) e = .ok (p, e') ∧ p.isScan = false := by
  rintro e ⟨k, p, e', hrun, hp⟩
  have hunfinished : Unfinished (ascii "$g") := by
    rintro u t ((rfl | rfl) | ⟨body, a, b, rfl, -⟩) heq
    · cases heq
    · cases heq
    · have hmem : (0x23 : Byte) ∈ ascii "$g" := by simp [heq]
      exact absurd hmem (by decide)
  have hlen : e.clientbuf.length = pktBufMax := by
    rw [length_received (by rw [length_clientbuf_start]; decide), length_clientbuf_start]
  have hpend : e.pending 0 2 = ascii "$g" := rfl
  have hstay := scanPasses_unfinished hunfinished (by decide) (by rw [hlen]; decide) hpend k
  have hcblen : e.cblen = 2 := rfl
  rw [hcblen, hstay] at hrun
  cases hrun
  cases hp

end AvrEmu
