import Mathlib.Data.List.Basic
import Mathlib.Data.Nat.Notation

/-!
# Requests and answers in a log

Some events of a log ask for a number of answers, and some are answers. A log is in balance when
no answer comes that has not been asked for, and no request while an earlier one waits for its
answers.
-/

namespace Ledger

variable {α : Type}

/-- The answers that an event asks for, if it is a request, and whether it is one itself. -/
structure Rules (α : Type) where
  asks : α → Option ℕ
  pays : α → Bool

/-- The answers outstanding after one more event; nothing after a breach. -/
def Rules.post (r : Rules α) : Option ℕ → α → Option ℕ
  | none, _ => none
  | some n, x =>
    match r.asks x with
    | some k => if n = 0 then some k else none
    | none => if r.pays x then (if n = 0 then none else some (n - 1)) else some n

/-- The answers outstanding at the end of a log. -/
def Rules.balance (r : Rules α) (l : List α) : Option ℕ := l.foldl r.post (some 0)

/-- No event of the log is a request. -/
def Rules.Quiet (r : Rules α) (l : List α) : Prop := ∀ x ∈ l, r.asks x = none

variable {r : Rules α} {x y : α} {l l₁ l₂ l₃ : List α} {n k j : ℕ}

@[simp] theorem balance_nil (r : Rules α) : r.balance [] = some 0 := rfl

theorem balance_append (l l' : List α) : r.balance (l ++ l') = l'.foldl r.post (r.balance l) :=
  List.foldl_append

/-- A breach is not made good. -/
theorem foldl_post_none (r : Rules α) (l : List α) : l.foldl r.post none = none := by
  induction l with
  | nil => rfl
  | cons x l ih => exact ih

/-- A request is in order when nothing is outstanding. -/
theorem post_request (hx : r.asks x = some k) (o : Option ℕ) (h : r.post o x = some n) :
    o = some 0 ∧ n = k := by
  cases o with
  | none => cases h
  | some m =>
    simp only [Rules.post, hx] at h
    split at h
    · rename_i hzero
      exact ⟨congrArg some hzero, (Option.some.inj h).symm⟩
    · cases h

/-- Without requests, every answer takes one from what is outstanding. -/
theorem foldl_post_quiet (hl : r.Quiet l) (h : l.foldl r.post (some n) = some k) :
    l.countP r.pays + k = n := by
  induction l generalizing n with
  | nil =>
    obtain rfl := Option.some.inj h
    exact Nat.zero_add _
  | cons x l ih =>
    have hx := hl x List.mem_cons_self
    have hrest : r.Quiet l := fun y hy => hl y (List.mem_cons_of_mem _ hy)
    rw [List.foldl_cons, Rules.post, hx] at h
    dsimp only at h
    rw [List.countP_cons]
    cases hpays : r.pays x with
    | false =>
      rw [hpays, if_neg Bool.false_ne_true] at h
      rw [if_neg Bool.false_ne_true, Nat.add_zero]
      exact ih hrest h
    | true =>
      rw [hpays, if_pos rfl] at h
      rw [if_pos rfl]
      split at h
      · rw [foldl_post_none] at h
        cases h
      · have hcount := ih hrest h
        omega

/-- Answers that are outstanding may come. -/
theorem foldl_post_of_le (hl : r.Quiet l) (hle : l.countP r.pays ≤ n) :
    l.foldl r.post (some n) = some (n - l.countP r.pays) := by
  induction l generalizing n with
  | nil => rfl
  | cons x l ih =>
    have hx := hl x List.mem_cons_self
    have hrest : r.Quiet l := fun y hy => hl y (List.mem_cons_of_mem _ hy)
    rw [List.countP_cons] at hle ⊢
    rw [List.foldl_cons, Rules.post, hx]
    dsimp only
    cases hpays : r.pays x with
    | false =>
      rw [hpays, if_neg Bool.false_ne_true] at hle
      rw [if_neg Bool.false_ne_true, if_neg Bool.false_ne_true, Nat.add_zero]
      exact ih hrest hle
    | true =>
      rw [hpays, if_pos rfl] at hle
      rw [if_pos rfl, if_pos rfl, if_neg (by omega), ih hrest (by omega)]
      congr 1
      omega

/-- Before the first request there are no answers. -/
theorem count_before (h : r.balance (l ++ l₁) = some n) (hl : r.Quiet l) : l.countP r.pays = 0 := by
  rw [balance_append] at h
  cases hbalance : r.balance l with
  | none =>
    rw [hbalance, foldl_post_none] at h
    cases h
  | some k =>
    have hcount := foldl_post_quiet hl hbalance
    omega

/-- After the last request the answers that are not there are outstanding. -/
theorem count_after (h : r.balance (l₁ ++ x :: l₂) = some n) (hx : r.asks x = some k)
    (hl : r.Quiet l₂) : l₂.countP r.pays + n = k := by
  rw [balance_append, List.foldl_cons] at h
  cases hpost : r.post (r.balance l₁) x with
  | none =>
    rw [hpost, foldl_post_none] at h
    cases h
  | some m =>
    obtain ⟨-, rfl⟩ := post_request hx _ hpost
    rw [hpost] at h
    exact foldl_post_quiet hl h

/-- Between a request and the next come all its answers. -/
theorem count_between (h : r.balance (l₁ ++ x :: (l₂ ++ y :: l₃)) = some n)
    (hx : r.asks x = some k) (hy : r.asks y = some j) (hl : r.Quiet l₂) :
    l₂.countP r.pays = k := by
  have hsplit : l₁ ++ x :: (l₂ ++ y :: l₃) = (l₁ ++ x :: l₂) ++ y :: l₃ := by
    rw [List.append_assoc, List.cons_append]
  rw [hsplit, balance_append, List.foldl_cons] at h
  cases hpost : r.post (r.balance (l₁ ++ x :: l₂)) y with
  | none =>
    rw [hpost, foldl_post_none] at h
    cases h
  | some m =>
    obtain ⟨hzero, -⟩ := post_request hy _ hpost
    exact count_after hzero hx hl

end Ledger
