import Mathlib.Data.List.Basic
import Mathlib.InformationTheory.Coding.UniquelyDecodable

/-!
# Prefix codes

When no word of a code begins another, a text made of such words can be cut into them in one way
only.
-/

open InformationTheory

variable {α : Type*} {S : Set (List α)} {u v s t : List α}

/-- No word of the code begins another. -/
def PrefixFree (S : Set (List α)) : Prop := ∀ u ∈ S, ∀ v ∈ S, u <+: v → u = v

/-- A text begins with one word at most. -/
theorem PrefixFree.eq_of_append (h : PrefixFree S) (hu : u ∈ S) (hv : v ∈ S)
    (heq : u ++ s = v ++ t) : u = v ∧ s = t := by
  have hsame : u = v := by
    rcases List.prefix_or_prefix_of_prefix (List.prefix_append u s)
      (heq ▸ List.prefix_append v t) with hpre | hpre
    · exact h u hu v hv hpre
    · exact (h v hv u hu hpre).symm
  subst hsame
  exact ⟨rfl, List.append_cancel_left heq⟩

theorem PrefixFree.uniquelyDecodable (h : PrefixFree S) (hne : [] ∉ S) :
    UniquelyDecodable S := by
  intro us vs hus hvs hflat
  induction us generalizing vs with
  | nil =>
    cases vs with
    | nil => rfl
    | cons v vs =>
      have hnil : v = [] := (List.append_eq_nil_iff.mp hflat.symm).1
      exact absurd (hnil ▸ hvs v List.mem_cons_self) hne
  | cons u us ih =>
    cases vs with
    | nil =>
      have hnil : u = [] := (List.append_eq_nil_iff.mp hflat).1
      exact absurd (hnil ▸ hus u List.mem_cons_self) hne
    | cons v vs =>
      obtain ⟨rfl, hrest⟩ := h.eq_of_append (hus u List.mem_cons_self)
        (hvs v List.mem_cons_self) hflat
      rw [ih vs (fun w hw => hus w (List.mem_cons_of_mem _ hw))
        (fun w hw => hvs w (List.mem_cons_of_mem _ hw)) hrest]
