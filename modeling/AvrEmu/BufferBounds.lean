import AvrEmu.StopReplies

/-!
# The buffer of the stub

Whatever bytes a client sends, in whatever portions, the stub keeps within its buffer, and there is
always room in it for `recv`.
-/

namespace AvrEmu

variable {e e' : Emu} {p p' : Point} {bp ep : ℕ} {u s : List Byte}

/-- Where the stub is in its buffer, between any two ticks. -/
structure InBounds (p : Point) (e : Emu) : Prop where
  length_eq : e.clientbuf.length = pktBufMax
  execute_eq : p.inStub = true → e.execute = false
  room : p.isScan = false → e.cblen + 5 ≤ pktBufMax
  scanning : ∀ bp ep, p = .scan bp ep → bp ≤ ep ∧ ep ≤ pktBufMax ∧ (bp = 0 → e.cblen = ep)

/-- A packet that makes the emulator go on has five characters at least. -/
theorem length_of_command (hu : IsUnit u) (h : command (u ++ s) ≠ none) : 5 ≤ u.length := by
  rcases hu with hack | ⟨body, a, b, rfl, hbody, -, -⟩
  · exact absurd (command_ack hack) h
  by_contra hshort
  refine h ?_
  have happend : body ++ [0x23, a, b] ++ s = body ++ 0x23 :: a :: b :: s := List.append_assoc _ _ _
  rw [happend, command_eq (idxOf?_append hbody)]
  simp only [List.length_append, List.length_cons, List.length_nil] at hshort
  cases body with
  | nil =>
    have hne : (0x23 : Byte) ≠ 0x24 := by decide
    exact if_neg fun hhead => hne hhead.1
  | cons c body =>
    rw [List.length_cons] at hshort
    obtain rfl : body = [] := List.length_eq_zero_iff.mp (by omega)
    split
    · have hnone := findCmd_zero [] (a :: b :: s)
      have hempty : findCmd [] = none := rfl
      rw [hempty] at hnone
      exact congrArg (Option.map (·.cmd)) hnone
    · rfl

theorem not_none_of_resumes {insns : ℕ} {asked : Option (List Byte)}
    (h : resumes insns asked = true) : asked ≠ none := by
  rintro rfl
  rw [resumes_none] at h
  cases h

/-- Outside the scanning loop only the buffer matters. -/
theorem InBounds.of_same (h : InBounds p e) (hp : p.isScan = false) (hp' : p'.isScan = false)
    (hsame : SameBuffer e e') (hexecute : p'.inStub = true → e'.execute = false) :
    InBounds p' e' := by
  refine ⟨hsame.clientbuf_eq ▸ h.length_eq, hexecute, fun _ => hsame.cblen_eq ▸ h.room hp, ?_⟩
  rintro bp ep rfl
  cases hp'

/-- What is left when the scanning loop is left. -/
theorem inBounds_scanned (hlength : e.clientbuf.length = pktBufMax) (hle : bp ≤ ep)
    (hep : ep ≤ pktBufMax) (hfirst : bp = 0 → e.cblen = ep)
    (hroom : ep - bp + 5 ≤ pktBufMax) :
    InBounds (gdbstubScanned bp ep e).1 (gdbstubScanned bp ep e).2 := by
  have hpoint : (gdbstubScanned bp ep e).1 = if e.execute then .run else .recv := by rw [scanned_eq]
  obtain ⟨buf, n, hframe⟩ := scanned_frame bp ep e
  have hexecute : (gdbstubScanned bp ep e).2.execute = e.execute := by rw [hframe]
  have hcblen : (gdbstubScanned bp ep e).2.cblen = ep - bp := by
    unfold gdbstubScanned
    split
    · rename_i hzero
      dsimp only
      rw [hfirst hzero, hzero, Nat.sub_zero]
    · rfl
  have hlength' : (gdbstubScanned bp ep e).2.clientbuf.length = pktBufMax := by
    unfold gdbstubScanned
    split
    · exact hlength
    · simp only [List.length_append, List.length_take, List.length_drop]
      omega
  refine ⟨hlength', fun hstub => ?_, fun _ => ?_, fun b p hscan => ?_⟩
  · rw [hexecute]
    rw [hpoint] at hstub
    cases hrun : e.execute with
    | false => rfl
    | true =>
      rw [hrun] at hstub
      cases hstub
  · rw [hcblen]
    exact hroom
  · rw [hpoint] at hscan
    split at hscan <;> cases hscan

/-- A pass of the scanning loop, whatever lies in the buffer. -/
theorem InBounds.scan (h : InBounds (.scan bp ep) e) (hscan : gdbstubScan bp ep e = .ok (p', e')) :
    InBounds p' e' := by
  obtain ⟨hle, hep, hfirst⟩ := h.scanning bp ep rfl
  have hidle := h.execute_eq rfl
  have hlength : ep ≤ e.clientbuf.length := by rwa [h.length_eq]
  by_cases hunit : ∃ u t, IsUnit u ∧ e.pending bp ep = u ++ t
  · obtain ⟨u, t, hu, hpend⟩ := hunit
    have hsize := congrArg List.length hpend
    rw [length_pending bp hlength, List.length_append] at hsize
    rcases scan_unit hu hlength hpend hidle with ⟨a, ha⟩ | ⟨e₁, hpassed, heq⟩
    · rw [ha] at hscan
      cases hscan
    have hpos := length_pos_of_isUnit hu
    have hlength₁ := hpassed.length_eq.trans h.length_eq
    rw [heq] at hscan
    cases hrun : e₁.execute with
    | true =>
      rw [hrun, if_pos rfl] at hscan
      have hcommand := hpassed.execute_eq hpend hidle
      rw [hrun, drop_eq_append hpend, List.append_assoc] at hcommand
      have hfive := length_of_command hu (not_none_of_resumes hcommand.symm)
      have hnext : InBounds (gdbstubScanned (bp + u.length) ep e₁).1
          (gdbstubScanned (bp + u.length) ep e₁).2 :=
        inBounds_scanned hlength₁ (by omega) hep (by omega) (by omega)
      rwa [Except.ok.inj hscan] at hnext
    | false =>
      rw [hrun, if_neg Bool.false_ne_true] at hscan
      cases hscan
      refine ⟨hlength₁, fun _ => hrun, fun hp => (by cases hp), fun b p hpoint => ?_⟩
      cases hpoint
      exact ⟨by omega, hep, by omega⟩
  · by_cases hnone : e.pending bp ep = []
    · have hend : ep = bp := by
        have hsize := length_pending bp hlength
        rw [hnone, List.length_nil] at hsize
        omega
      rw [scan_empty hend.le] at hscan
      have hnext := inBounds_scanned h.length_eq hle hep hfirst
        (by rw [hend, Nat.sub_self]; decide)
      rwa [Except.ok.inj hscan] at hnext
    · have hunfinished : Unfinished (e.pending bp ep) := fun u t hu heq => hunit ⟨u, t, hu, heq⟩
      rw [scan_unfinished hunfinished hnone hlength rfl] at hscan
      cases hscan
      exact h

/-- The receiving loop asks for no more than there is room for. -/
theorem InBounds.receive {r : Recv} (h : InBounds .recv e)
    (hrecv : gdbstubReceive r e = .ok (p', e')) : InBounds p' e' := by
  have hroom := h.room rfl
  have hidle := h.execute_eq rfl
  unfold gdbstubReceive at hrecv
  split at hrecv
  · cases hrecv
  · cases hrecv
    refine ⟨h.length_eq, fun _ => hidle, fun hp => (by cases hp), fun b p hpoint => ?_⟩
    cases hpoint
    exact ⟨Nat.zero_le _, by omega, fun _ => rfl⟩
  · rename_i bytes
    split at hrecv
    · cases hrecv
    · rename_i hne
      have htaken : (bytes.take (pktBufMax - e.cblen)).length ≤ pktBufMax - e.cblen :=
        List.length_take_le _ _
      cases hrecv
      generalize bytes.take (pktBufMax - e.cblen) = taken at htaken
      have hfits : e.cblen + taken.length ≤ pktBufMax := by omega
      refine ⟨(length_received (h.length_eq.symm ▸ hfits)).trans h.length_eq, fun _ => hidle,
        fun hp => (by cases hp), fun b p hpoint => ?_⟩
      cases hpoint
      exact ⟨Nat.zero_le _, hfits, fun _ => rfl⟩

/-- While there is room, `recv` comes back without bytes only if the client is gone. -/
theorem receive_dropped_iff {r : Recv} (h : InBounds .recv e) :
    gdbstubReceive r e = .error (.exit "Client dropped, exiting.") ↔ r = .data [] := by
  have hroom := h.room rfl
  cases r with
  | failed => simp [gdbstubReceive]
  | wouldBlock => simp [gdbstubReceive]
  | data bytes =>
    obtain ⟨n, hn⟩ : ∃ n, pktBufMax - e.cblen = n + 1 := ⟨pktBufMax - e.cblen - 1, by omega⟩
    unfold gdbstubReceive
    rw [hn]
    cases bytes with
    | nil => exact ⟨fun _ => rfl, fun _ => rfl⟩
    | cons b bytes => simp

theorem inBounds_start (m : Machine) (insnlimit : ℕ) (tracehex : Bool)
    (tracefile : Option (List Byte)) :
    InBounds .top (Emu.attached m insnlimit tracehex tracefile) :=
  ⟨List.length_replicate, fun hstub => (by cases hstub),
    fun _ => (show 0 + 5 ≤ pktBufMax by decide), fun _ _ hpoint => (by cases hpoint)⟩

section Running

variable [DesLibrary]

theorem InBounds.tick {env : Env} (h : InBounds p e) (htick : tick env p e = .ok (p', e')) :
    InBounds p' e' := by
  cases p with
  | top =>
    have hcourse := topCourse_of_tick htick
    have hsame := (sameBuffer_settled e).trans hcourse.sameBuffer
    refine h.of_same rfl ?_ hsame fun hstub => ?_
    · cases hcourse <;> rfl
    · cases hcourse with
      | replay | pass => cases hstub
      | stepped | breakpoint => rfl
  | recv => exact h.receive htick
  | scan bp ep => exact h.scan htick
  | run =>
    have hcourse := runCourse_of_tick htick
    refine h.of_same rfl ?_ hcourse.sameBuffer fun hstub => ?_
    · cases hcourse <;> rfl
    · cases hcourse <;> cases hstub
  | stopped =>
    cases htick
    exact h

theorem InBounds.ticks {envs : List Env} (h : InBounds p e)
    (hticks : ticks envs p e = .ok (p', e')) : InBounds p' e' := by
  induction envs generalizing p e with
  | nil =>
    cases hticks
    exact h
  | cons env envs ih =>
    rw [AvrEmu.ticks] at hticks
    cases htick : AvrEmu.tick env p e with
    | error a =>
      rw [htick] at hticks
      cases hticks
    | ok r =>
      rw [htick] at hticks
      exact ih (h.tick htick) hticks

/-- Whatever a client sends, in whatever portions: the buffer keeps its size, the two pointers of
the scanning loop are within it and in order, and outside of the loop there is room for five bytes
at least. So the emulator takes the client for gone only when it is. This is about where `recv` puts
bytes and where the loop stands; the checksum of a packet that starts at `#` is taken of more. -/
theorem buffer_in_bounds (m : Machine) (insnlimit : ℕ) (tracehex : Bool)
    (tracefile : Option (List Byte)) (envs : List Env) (p : Point) (e : Emu)
    (h : AvrEmu.ticks envs .top (Emu.attached m insnlimit tracehex tracefile) = .ok (p, e)) :
    e.clientbuf.length = pktBufMax ∧
    (∀ bp ep, p = .scan bp ep → bp ≤ ep ∧ ep ≤ pktBufMax) ∧
    (p.isScan = false → e.cblen + 5 ≤ pktBufMax) ∧
    (p = .recv → ∀ r, gdbstubReceive r e = .error (.exit "Client dropped, exiting.") ↔
      r = .data []) := by
  have hbounds := (inBounds_start m insnlimit tracehex tracefile).ticks h
  refine ⟨hbounds.length_eq, fun bp ep hpoint => ?_, hbounds.room, fun hpoint r => ?_⟩
  · obtain ⟨hle, hep, -⟩ := hbounds.scanning bp ep hpoint
    exact ⟨hle, hep⟩
  · subst hpoint
    exact receive_dropped_iff hbounds

end Running

section Garbage

attribute [local instance] idleDes

/-- A client that sends garbage. -/
theorem buffer_in_bounds_garbage : ∃ p e,
    ticks [⟨false, .wouldBlock⟩, ⟨false, .data (ascii "#")⟩] .top
        (Emu.attached (Machine.powerOn fun _ => 0) 0 false none) = .ok (p, e) ∧
      e.clientbuf.length = pktBufMax ∧
      (∀ bp ep, p = .scan bp ep → bp ≤ ep ∧ ep ≤ pktBufMax) ∧
      (p.isScan = false → e.cblen + 5 ≤ pktBufMax) ∧
      (p = .recv → ∀ r, gdbstubReceive r e = .error (.exit "Client dropped, exiting.") ↔
        r = .data []) := by
  obtain ⟨p, e, h⟩ : ∃ p e, ticks [⟨false, .wouldBlock⟩, ⟨false, .data (ascii "#")⟩] .top
      (Emu.attached (Machine.powerOn fun _ => 0) 0 false none) = .ok (p, e) := ⟨_, _, rfl⟩
  exact ⟨p, e, h, buffer_in_bounds _ _ _ _ _ _ _ h⟩

end Garbage

end AvrEmu
