import AvrEmu.Lib.CellProgram

/-!
# Runs that do not see stale bits

Two cell arrays agree up to a set of stale bits. A run that never reads a cell
with a stale bit takes the same course from both arrays, and every store clears
the stale bits it overwrites. When a run has overwritten them all, it has restored
one array from the other.
-/

namespace CellProgram

variable {w : ℕ} {σ ε α : Type}

/-- Agreement of two cell arrays outside the bits marked stale. -/
def AgreeUpTo (stale c c' : ℕ → BitVec w) : Prop :=
  ∀ i j, (stale i).getLsbD j = false → (c i).getLsbD j = (c' i).getLsbD j

/-- The stale bits that are left after one access. -/
def Access.refresh (stale : ℕ → BitVec w) : Access w → ℕ → BitVec w
  | .read _ => stale
  | .write i => Function.update stale i 0
  | .merge i keep => Function.update stale i (stale i &&& keep)

/-- The stale bits that are left after a list of accesses. -/
def refresh (stale : ℕ → BitVec w) (l : List (Access w)) : ℕ → BitVec w :=
  l.foldl Access.refresh stale

/-- No access of the list reads a cell while one of its bits is stale. -/
def ReadsFresh : (ℕ → BitVec w) → List (Access w) → Prop
  | _, [] => True
  | stale, x :: l => (x.stores = false → stale x.index = 0) ∧ ReadsFresh (x.refresh stale) l

/-- A list of accesses overwrites every stale bit before it is read. -/
def Restores (stale : ℕ → BitVec w) (l : List (Access w)) : Prop :=
  ReadsFresh stale l ∧ ∀ i, refresh stale l i = 0

@[simp] theorem refresh_nil (stale : ℕ → BitVec w) : refresh stale [] = stale := rfl

@[simp] theorem refresh_cons (stale : ℕ → BitVec w) (x : Access w) (l : List (Access w)) :
    refresh stale (x :: l) = refresh (x.refresh stale) l := rfl

theorem refresh_append (stale : ℕ → BitVec w) (l l' : List (Access w)) :
    refresh stale (l ++ l') = refresh (refresh stale l) l' := by
  simp [refresh, List.foldl_append]

theorem readsFresh_append {stale : ℕ → BitVec w} {l l' : List (Access w)} :
    ReadsFresh stale (l ++ l') ↔ ReadsFresh stale l ∧ ReadsFresh (refresh stale l) l' := by
  induction l generalizing stale with
  | nil => simp [ReadsFresh]
  | cons x l ih => simp [ReadsFresh, ih, and_assoc]

theorem AgreeUpTo.eq_of_fresh {stale c c' : ℕ → BitVec w} (h : AgreeUpTo stale c c')
    (hfresh : ∀ i, stale i = 0) : c = c' := by
  funext i
  apply BitVec.eq_of_getLsbD_eq
  intro j _
  exact h i j (by simp [hfresh i])

/-- Any two arrays agree up to the bits in which they differ. -/
theorem agreeUpTo_xor (c c' : ℕ → BitVec w) : AgreeUpTo (fun i => c i ^^^ c' i) c c' := by
  intro i j h
  simpa using h

theorem AgreeUpTo.write {stale c c' : ℕ → BitVec w} (h : AgreeUpTo stale c c') (i : ℕ)
    (v : BitVec w) :
    AgreeUpTo ((Access.write i).refresh stale) (Function.update c i v)
      (Function.update c' i v) := by
  intro k j hj
  by_cases hk : k = i
  · subst hk
    simp
  · simp only [Access.refresh, Function.update_of_ne hk] at hj ⊢
    exact h k j hj

theorem AgreeUpTo.merge {stale c c' : ℕ → BitVec w} (h : AgreeUpTo stale c c') (i : ℕ)
    (keep bits : BitVec w) :
    AgreeUpTo ((Access.merge i keep).refresh stale) (Function.update c i (c i &&& keep ||| bits))
      (Function.update c' i (c' i &&& keep ||| bits)) := by
  intro k j hj
  by_cases hk : k = i
  · subst hk
    simp only [Access.refresh, Function.update_self, BitVec.getLsbD_and, Bool.and_eq_false_iff]
      at hj
    simp only [Function.update_self, BitVec.getLsbD_or, BitVec.getLsbD_and]
    rcases hj with hj | hj
    · rw [h k j hj]
    · simp [hj]
  · simp only [Access.refresh, Function.update_of_ne hk] at hj ⊢
    exact h k j hj

/-- A run that reads no stale bit takes the same course from an agreeing array,
and the arrays it ends with agree up to the stale bits it did not overwrite. -/
theorem run_of_readsFresh {p : CellProgram w σ ε α} {stale c c' d : ℕ → BitVec w} {s t : σ} {a : α}
    (hagree : AgreeUpTo stale c c') (hrun : p.run c s = .ok (a, d, t))
    (hfresh : ReadsFresh stale (p.accesses c s)) :
    ∃ d', p.run c' s = .ok (a, d', t) ∧ AgreeUpTo (refresh stale (p.accesses c s)) d d' := by
  induction p generalizing stale c c' s with
  | pure b =>
    simp only [run, Except.ok.injEq, Prod.mk.injEq] at hrun
    obtain ⟨rfl, rfl, rfl⟩ := hrun
    exact ⟨c', rfl, hagree⟩
  | fail e => cases hrun
  | read i k ih =>
    obtain ⟨hcell, hrest⟩ := hfresh
    have heq : c i = c' i := by
      apply BitVec.eq_of_getLsbD_eq
      intro j _
      have hzero : stale i = 0 := hcell rfl
      exact hagree i j (by simp [hzero])
    obtain ⟨d', hrun', hd⟩ := ih (c i) hagree hrun hrest
    exact ⟨d', by simpa only [run, ← heq] using hrun', hd⟩
  | write i v k ih => exact ih (hagree.write i v) hrun hfresh.2
  | merge i keep bits k ih => exact ih (hagree.merge i keep bits) hrun hfresh.2
  | get k ih => exact ih s hagree hrun hfresh
  | put t' k ih => exact ih hagree hrun hfresh

end CellProgram
