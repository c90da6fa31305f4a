import AvrEmu.Lib.CellProgram

/-!
# Runs depend on the cells they touch

What a run does is settled by the cells that it touches. Other contents may be put into all the
others: the run takes the same course and leaves them as they are.
-/

namespace CellProgram

variable {w : ℕ} {σ ε α : Type} {P : ℕ → Prop} [DecidablePred P]

/-- The first array where `P` holds, the second one elsewhere. -/
def graft (P : ℕ → Prop) [DecidablePred P] (c c' : ℕ → BitVec w) : ℕ → BitVec w :=
  fun i => if P i then c i else c' i

variable {p : CellProgram w σ ε α} {c c' : ℕ → BitVec w} {s : σ}

theorem graft_of_pos {i : ℕ} (hi : P i) : graft P c c' i = c i := if_pos hi

theorem graft_of_neg {i : ℕ} (hi : ¬ P i) : graft P c c' i = c' i := if_neg hi

theorem graft_eq_of_agree (hagree : ∀ i, P i → c' i = c i) : graft P c c' = c' := by
  funext i
  by_cases hi : P i
  · rw [graft_of_pos hi, hagree i hi]
  · exact graft_of_neg hi

theorem update_graft {i : ℕ} (hi : P i) (v : BitVec w) :
    Function.update (graft P c c') i v = graft P (Function.update c i v) c' := by
  funext j
  by_cases hj : j = i
  · subst hj
    rw [Function.update_self, graft_of_pos hi, Function.update_self]
  · rw [Function.update_of_ne hj]
    unfold graft
    rw [Function.update_of_ne hj]

/-- A run that touches only cells of `P` does the same whatever the other cells hold, and leaves
these as they are. -/
theorem run_graft (hin : ∀ x ∈ p.accesses c s, P x.index) :
    p.run (graft P c c') s = (p.run c s).map fun r => (r.1, graft P r.2.1 c', r.2.2) := by
  induction p generalizing c s with
  | pure a => rfl
  | fail e => rfl
  | read i k ih =>
    have hi : P i := hin _ List.mem_cons_self
    simp only [run, graft_of_pos hi]
    exact ih (c i) fun x hx => hin x (List.mem_cons_of_mem _ hx)
  | write i v k ih =>
    have hi : P i := hin _ List.mem_cons_self
    simp only [run, update_graft hi]
    exact ih fun x hx => hin x (List.mem_cons_of_mem _ hx)
  | merge i keep bits k ih =>
    have hi : P i := hin _ List.mem_cons_self
    simp only [run, graft_of_pos hi, update_graft hi]
    exact ih fun x hx => hin x (List.mem_cons_of_mem _ hx)
  | get k ih => exact ih s hin
  | put t k ih => exact ih hin

end CellProgram
