import Mathlib.Data.Nat.Notation
import Mathlib.Logic.Basic
import Mathlib.Logic.Function.Basic
import Mathlib.Order.Defs.Unbundled

/-!
# Programs over an array of cells

A program reads, writes and merges numbered cells of a fixed width, keeps a
private state beside them and may stop with an error. Programs are finite trees,
so the cells a run touches can be listed without instrumenting the program, and a
fact about every program is one induction.
-/

/-- A program over cells of `w` bits with private state `σ` and errors `ε`. -/
inductive CellProgram (w : ℕ) (σ ε α : Type) : Type
  | pure (a : α)
  | fail (e : ε)
  /-- Load a cell and continue with its value. -/
  | read (i : ℕ) (k : BitVec w → CellProgram w σ ε α)
  /-- Store a value in a cell. -/
  | write (i : ℕ) (v : BitVec w) (k : CellProgram w σ ε α)
  /-- Keep the bits of a cell under a mask and set the others from a value. -/
  | merge (i : ℕ) (keep bits : BitVec w) (k : CellProgram w σ ε α)
  | get (k : σ → CellProgram w σ ε α)
  | put (s : σ) (k : CellProgram w σ ε α)

namespace CellProgram

variable {w : ℕ} {σ ε α β : Type}

/-- Sequencing grafts the continuation onto every normal leaf. -/
def bind : CellProgram w σ ε α → (α → CellProgram w σ ε β) → CellProgram w σ ε β
  | .pure a, f => f a
  | .fail e, _ => .fail e
  | .read i k, f => .read i fun v => (k v).bind f
  | .write i v k, f => .write i v (k.bind f)
  | .merge i keep bits k, f => .merge i keep bits (k.bind f)
  | .get k, f => .get fun s => (k s).bind f
  | .put s k, f => .put s (k.bind f)

instance : Monad (CellProgram w σ ε) where
  pure := .pure
  bind := bind

/-- Execution: the result with the final cells and private state, or the error. -/
def run : CellProgram w σ ε α → (ℕ → BitVec w) → σ → Except ε (α × (ℕ → BitVec w) × σ)
  | .pure a, c, s => .ok (a, c, s)
  | .fail e, _, _ => .error e
  | .read i k, c, s => (k (c i)).run c s
  | .write i v k, c, s => k.run (Function.update c i v) s
  | .merge i keep bits k, c, s => k.run (Function.update c i (c i &&& keep ||| bits)) s
  | .get k, c, s => (k s).run c s
  | .put s k, c, _ => k.run c s

/-- One use of a cell. A merge touches a cell without looking at the bits it replaces. -/
inductive Access (w : ℕ) where
  | read (i : ℕ)
  | write (i : ℕ)
  | merge (i : ℕ) (keep : BitVec w)
  deriving DecidableEq

/-- The cell an access touches. -/
def Access.index : Access w → ℕ
  | .read i => i
  | .write i => i
  | .merge i _ => i

@[simp] theorem Access.index_read (i : ℕ) : (Access.read i : Access w).index = i := rfl

@[simp] theorem Access.index_write (i : ℕ) : (Access.write i : Access w).index = i := rfl

@[simp] theorem Access.index_merge (i : ℕ) (keep : BitVec w) :
    (Access.merge i keep).index = i := rfl

/-- Whether an access may change its cell. -/
def Access.stores : Access w → Bool
  | .read _ => false
  | .write _ => true
  | .merge _ _ => true

/-- The accesses of a run in order, up to its end or its error. -/
def accesses : CellProgram w σ ε α → (ℕ → BitVec w) → σ → List (Access w)
  | .pure _, _, _ => []
  | .fail _, _, _ => []
  | .read i k, c, s => .read i :: (k (c i)).accesses c s
  | .write i v k, c, s => .write i :: k.accesses (Function.update c i v) s
  | .merge i keep bits k, c, s =>
      .merge i keep :: k.accesses (Function.update c i (c i &&& keep ||| bits)) s
  | .get k, c, s => (k s).accesses c s
  | .put s k, c, _ => k.accesses c s

section Laws

variable (p : CellProgram w σ ε α) (f : α → CellProgram w σ ε β) (c : ℕ → BitVec w) (s : σ)

@[simp] theorem run_pure (a : α) :
    (Pure.pure a : CellProgram w σ ε α).run c s = .ok (a, c, s) := rfl

@[simp] theorem pure_bind (a : α) : ((Pure.pure a : CellProgram w σ ε α) >>= f) = f a := rfl

/-- A sequence runs its second part from where the first part ended. -/
theorem run_bind : (p >>= f).run c s =
    match p.run c s with
    | .ok (a, c', s') => (f a).run c' s'
    | .error e => .error e := by
  change (p.bind f).run c s = _
  induction p generalizing c s with
  | pure a => rfl
  | fail e => rfl
  | read i k ih => exact ih (c i) c s
  | write i v k ih => exact ih _ s
  | merge i keep bits k ih => exact ih _ s
  | get k ih => exact ih s c s
  | put s' k ih => exact ih c s'

@[simp] theorem accesses_pure (a : α) :
    (Pure.pure a : CellProgram w σ ε α).accesses c s = [] := rfl

/-- The accesses of a sequence are those of its parts, in order. -/
theorem accesses_bind : (p >>= f).accesses c s = p.accesses c s ++
    match p.run c s with
    | .ok (a, c', s') => (f a).accesses c' s'
    | .error _ => [] := by
  change (p.bind f).accesses c s = _
  induction p generalizing c s with
  | pure a => simp [bind, accesses, run]
  | fail e => simp [bind, accesses, run]
  | read i k ih => simpa [bind, accesses, run] using ih (c i) c s
  | write i v k ih => simpa [bind, accesses, run] using ih _ s
  | merge i keep bits k ih => simpa [bind, accesses, run] using ih _ s
  | get k ih => simpa [bind, accesses, run] using ih s c s
  | put s' k ih => simpa [bind, accesses, run] using ih c s'

/-- A cell that no store names keeps its contents. -/
theorem run_cell_eq {p : CellProgram w σ ε α} {c c' : ℕ → BitVec w} {s s' : σ} {a : α} {i : ℕ}
    (hrun : p.run c s = .ok (a, c', s'))
    (hfree : ∀ x ∈ p.accesses c s, x.stores = true → x.index ≠ i) : c' i = c i := by
  induction p generalizing c s with
  | pure b =>
    simp only [run, Except.ok.injEq, Prod.mk.injEq] at hrun
    rw [hrun.2.1]
  | fail e => cases hrun
  | read j k ih => exact ih _ hrun fun x hx => hfree x (List.mem_cons_of_mem _ hx)
  | write j v k ih =>
    have hne : j ≠ i := hfree (.write j) List.mem_cons_self rfl
    rw [ih hrun fun x hx => hfree x (List.mem_cons_of_mem _ hx),
      Function.update_of_ne hne.symm]
  | merge j keep bits k ih =>
    have hne : j ≠ i := hfree (.merge j keep) List.mem_cons_self rfl
    rw [ih hrun fun x hx => hfree x (List.mem_cons_of_mem _ hx),
      Function.update_of_ne hne.symm]
  | get k ih => exact ih _ hrun hfree
  | put t k ih => exact ih hrun hfree

end Laws

/-- Every run of the program takes its private state along a relation. -/
class Respects (R : σ → σ → Prop) (p : CellProgram w σ ε α) : Prop where
  rel_of_run : ∀ {c c' : ℕ → BitVec w} {s s' : σ} {a : α}, p.run c s = .ok (a, c', s') → R s s'

section Respects

variable {R : σ → σ → Prop} [IsPreorder σ R]

instance (a : α) : (CellProgram.pure a : CellProgram w σ ε α).Respects R where
  rel_of_run hrun := by
    cases hrun
    exact refl_of R _

instance (a : α) : (Pure.pure a : CellProgram w σ ε α).Respects R :=
  inferInstanceAs ((CellProgram.pure a).Respects R)

instance (e : ε) : (CellProgram.fail e : CellProgram w σ ε α).Respects R where
  rel_of_run hrun := by cases hrun

instance (i : ℕ) (k : BitVec w → CellProgram w σ ε α) [∀ v, (k v).Respects R] :
    (read i k).Respects R where
  rel_of_run hrun := Respects.rel_of_run (p := k _) hrun

instance (i : ℕ) (v : BitVec w) (k : CellProgram w σ ε α) [k.Respects R] :
    (write i v k).Respects R where
  rel_of_run hrun := Respects.rel_of_run (p := k) hrun

instance (i : ℕ) (keep bits : BitVec w) (k : CellProgram w σ ε α) [k.Respects R] :
    (merge i keep bits k).Respects R where
  rel_of_run hrun := Respects.rel_of_run (p := k) hrun

instance (c : Prop) [Decidable c] (p q : CellProgram w σ ε α) [p.Respects R] [q.Respects R] :
    (if c then p else q).Respects R := by
  split <;> infer_instance

/-- A sequence respects a relation that both parts respect. -/
instance (p : CellProgram w σ ε α) (f : α → CellProgram w σ ε β) [p.Respects R]
    [∀ a, (f a).Respects R] : (p >>= f).Respects R where
  rel_of_run {c c' s s' b} hrun := by
    rw [run_bind] at hrun
    cases hp : p.run c s with
    | error e => simp [hp] at hrun
    | ok r =>
      obtain ⟨a, d, t⟩ := r
      rw [hp] at hrun
      exact trans_of R (Respects.rel_of_run hp) (Respects.rel_of_run hrun)

end Respects

/-- Every access of the program is to a cell with a given property. -/
class Within (P : ℕ → Prop) (p : CellProgram w σ ε α) : Prop where
  index_of_access : ∀ {c : ℕ → BitVec w} {s : σ} {x : Access w}, x ∈ p.accesses c s → P x.index

section Within

variable {P : ℕ → Prop}

instance (a : α) : (CellProgram.pure a : CellProgram w σ ε α).Within P where
  index_of_access hx := absurd hx List.not_mem_nil

instance (a : α) : (Pure.pure a : CellProgram w σ ε α).Within P :=
  inferInstanceAs ((CellProgram.pure a).Within P)

instance (e : ε) : (CellProgram.fail e : CellProgram w σ ε α).Within P where
  index_of_access hx := absurd hx List.not_mem_nil

instance (i : ℕ) (k : BitVec w → CellProgram w σ ε α) [hi : Fact (P i)] [∀ v, (k v).Within P] :
    (read i k).Within P where
  index_of_access hx := by
    rcases List.mem_cons.mp hx with rfl | hx
    · exact hi.out
    · exact Within.index_of_access hx

instance (i : ℕ) (v : BitVec w) (k : CellProgram w σ ε α) [hi : Fact (P i)] [k.Within P] :
    (write i v k).Within P where
  index_of_access hx := by
    rcases List.mem_cons.mp hx with rfl | hx
    · exact hi.out
    · exact Within.index_of_access hx

instance (i : ℕ) (keep bits : BitVec w) (k : CellProgram w σ ε α) [hi : Fact (P i)]
    [k.Within P] : (merge i keep bits k).Within P where
  index_of_access hx := by
    rcases List.mem_cons.mp hx with rfl | hx
    · exact hi.out
    · exact Within.index_of_access hx

instance (k : σ → CellProgram w σ ε α) [∀ s, (k s).Within P] : (get k).Within P where
  index_of_access {_ s _} hx := Within.index_of_access (p := k s) hx

instance (s : σ) (k : CellProgram w σ ε α) [k.Within P] : (put s k).Within P where
  index_of_access hx := Within.index_of_access (p := k) hx

instance (c : Prop) [Decidable c] (p q : CellProgram w σ ε α) [p.Within P] [q.Within P] :
    (if c then p else q).Within P := by
  split <;> infer_instance

/-- A sequence stays within what both parts stay within. -/
instance (p : CellProgram w σ ε α) (f : α → CellProgram w σ ε β) [p.Within P]
    [∀ a, (f a).Within P] : (p >>= f).Within P where
  index_of_access {c s x} hx := by
    rw [accesses_bind] at hx
    rcases List.mem_append.mp hx with hx | hx
    · exact Within.index_of_access hx
    · cases hp : p.run c s with
      | error e =>
        rw [hp] at hx
        exact absurd hx List.not_mem_nil
      | ok r =>
        rw [hp] at hx
        exact Within.index_of_access hx

end Within

end CellProgram
