import AvrEmu.Lib.CellProgram

/-!
# Programs that obey a contract

A contract limits the cells a program touches, the errors it stops with and the values it
returns, whatever the cells and the private state hold. Sequences are covered part by part; where
the second part relies on the value of the first, the value comes with what the first promises.
-/

namespace CellProgram

variable {w : ℕ} {σ ε α β : Type}

/-- Every run of the program touches, stops with and returns nothing but what is allowed. -/
class Obeys (A : Access w → Prop) (E : ε → Prop) (Q : α → Prop) (p : CellProgram w σ ε α) :
    Prop where
  access_of_mem : ∀ {c : ℕ → BitVec w} {s : σ} {x : Access w}, x ∈ p.accesses c s → A x
  error_of_run : ∀ {c : ℕ → BitVec w} {s : σ} {e : ε}, p.run c s = .error e → E e
  value_of_run : ∀ {c c' : ℕ → BitVec w} {s s' : σ} {a : α}, p.run c s = .ok (a, c', s') → Q a

/-- The contract that says nothing about a value. -/
abbrev Anything {α : Type} (_ : α) : Prop := True

variable {A : Access w → Prop} {E : ε → Prop} {Q : α → Prop} {R : β → Prop}

/-- A sequence, with what the first part promises about its value. -/
theorem Obeys.bind {p : CellProgram w σ ε α} {f : α → CellProgram w σ ε β} (hp : p.Obeys A E Q)
    (hf : ∀ a, Q a → (f a).Obeys A E R) : (p >>= f).Obeys A E R where
  access_of_mem {c s x} hx := by
    rw [accesses_bind] at hx
    rcases List.mem_append.mp hx with hx | hx
    · exact hp.access_of_mem hx
    · cases hrun : p.run c s with
      | error e =>
        rw [hrun] at hx
        exact absurd hx List.not_mem_nil
      | ok r =>
        rw [hrun] at hx
        exact (hf r.1 (hp.value_of_run hrun)).access_of_mem hx
  error_of_run {c s e} herr := by
    rw [run_bind] at herr
    cases hrun : p.run c s with
    | error e' =>
      rw [hrun] at herr
      cases herr
      exact hp.error_of_run hrun
    | ok r =>
      rw [hrun] at herr
      exact (hf r.1 (hp.value_of_run hrun)).error_of_run herr
  value_of_run {c c' s s' b} hok := by
    rw [run_bind] at hok
    cases hrun : p.run c s with
    | error e => simp [hrun] at hok
    | ok r =>
      rw [hrun] at hok
      exact (hf r.1 (hp.value_of_run hrun)).value_of_run hok

theorem obeys_pure {a : α} (ha : Q a) : (Pure.pure a : CellProgram w σ ε α).Obeys A E Q where
  access_of_mem hx := absurd hx List.not_mem_nil
  error_of_run herr := by cases herr
  value_of_run hok := by
    cases hok
    exact ha

instance (a : α) : Fact (Anything a) := ⟨trivial⟩

instance (a : α) [ha : Fact (Q a)] : (Pure.pure a : CellProgram w σ ε α).Obeys A E Q :=
  obeys_pure ha.out

instance (e : ε) [he : Fact (E e)] : (CellProgram.fail e : CellProgram w σ ε α).Obeys A E Q where
  access_of_mem hx := absurd hx List.not_mem_nil
  error_of_run herr := by
    cases herr
    exact he.out
  value_of_run hok := by cases hok

instance (i : ℕ) [hi : Fact (A (.read i))] :
    (read i .pure : CellProgram w σ ε _).Obeys A E Anything where
  access_of_mem hx := by
    obtain rfl := List.mem_singleton.mp hx
    exact hi.out
  error_of_run herr := by cases herr
  value_of_run _ := trivial

instance (i : ℕ) (v : BitVec w) [hi : Fact (A (.write i))] :
    (write i v (.pure ()) : CellProgram w σ ε _).Obeys A E Anything where
  access_of_mem hx := by
    obtain rfl := List.mem_singleton.mp hx
    exact hi.out
  error_of_run herr := by cases herr
  value_of_run _ := trivial

instance (i : ℕ) (keep bits : BitVec w) [hi : Fact (A (.merge i keep))] :
    (merge i keep bits (.pure ()) : CellProgram w σ ε _).Obeys A E Anything where
  access_of_mem hx := by
    obtain rfl := List.mem_singleton.mp hx
    exact hi.out
  error_of_run herr := by cases herr
  value_of_run _ := trivial

/-- The private state is nobody's business. -/
instance : (get .pure : CellProgram w σ ε σ).Obeys A E Anything where
  access_of_mem hx := absurd hx List.not_mem_nil
  error_of_run herr := by cases herr
  value_of_run _ := trivial

instance (f : σ → σ) :
    (get fun s => put (f s) (.pure ()) : CellProgram w σ ε Unit).Obeys A E Anything where
  access_of_mem hx := absurd hx List.not_mem_nil
  error_of_run herr := by cases herr
  value_of_run _ := trivial

instance (c : Prop) [Decidable c] (p q : CellProgram w σ ε α) [p.Obeys A E Q] [q.Obeys A E Q] :
    (if c then p else q).Obeys A E Q := by
  split <;> infer_instance

instance (p : CellProgram w σ ε α) (f : α → CellProgram w σ ε β) [hp : p.Obeys A E Anything]
    [hf : ∀ a, (f a).Obeys A E R] : (p >>= f).Obeys A E R :=
  hp.bind fun a _ => hf a

end CellProgram
