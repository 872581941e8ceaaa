import Mathlib.Data.List.Basic
import Mathlib.Logic.Function.Basic

/-!
# Linked lists that end

`Chain next p l` says that the pointer `p` leads through the elements of `l`, the last of which leads nowhere.
A place where a pointer is kept is the head of the list or the link of an element; `get` reads it.  A walk
along the list has passed a part of it and stands at the link of the last element passed, and what it finds
there leads through the rest.
-/

namespace Linked

variable {α : Type*} {next next' : α → Option α} {p : Option α} {l l₁ l₂ : List α} {a b : α}

/-- The pointer `p` leads through the elements of `l`. -/
def Chain (next : α → Option α) : Option α → List α → Prop
  | p, [] => p = none
  | p, a :: l => p = some a ∧ Chain next (next a) l

/-- What is kept at a place: at the head, or at the link of an element. -/
def get (head : Option α) (next : α → Option α) : Option α → Option α
  | none => head
  | some a => next a

theorem Chain.head? (h : Chain next p l) : l.head? = p := by
  cases l with
  | nil => exact h.symm
  | cons a l => exact h.1.symm

theorem Chain.congr (h : Chain next p l) (hl : ∀ a ∈ l, next' a = next a) : Chain next' p l := by
  induction l generalizing p with
  | nil => exact h
  | cons a l ih =>
    refine ⟨h.1, ?_⟩
    rw [hl a List.mem_cons_self]
    exact ih h.2 fun x hx => hl x (List.mem_cons_of_mem a hx)

theorem Chain.rest (h : Chain next p (l₁ ++ l₂)) : Chain next (get p next l₁.getLast?) l₂ := by
  induction l₁ generalizing p with
  | nil => exact h
  | cons a l₁ ih =>
    have hrest := ih h.2
    cases l₁ with
    | nil => exact hrest
    | cons c l₁ =>
      rw [List.getLast?_cons_cons]
      cases hlast : (c :: l₁).getLast? with
      | none => simp at hlast
      | some d =>
        rw [hlast] at hrest
        exact hrest

theorem Chain.append [DecidableEq α] (h : Chain next p l) (hlast : l.getLast? = some a) (hnodup : l.Nodup)
    (hb : b ∉ l) (hend : next b = none) : Chain (Function.update next a (some b)) p (l ++ [b]) := by
  induction l generalizing p with
  | nil => cases hlast
  | cons c l ih =>
    refine ⟨h.1, ?_⟩
    have hba : b ≠ a := fun hc => hb (hc ▸ List.mem_of_getLast? hlast)
    cases l with
    | nil =>
      obtain rfl : c = a := by simpa using hlast
      rw [Function.update_self]
      exact ⟨rfl, by rw [Function.update_of_ne hba]; exact hend⟩
    | cons d l =>
      rw [List.getLast?_cons_cons] at hlast
      have hca : c ≠ a := by
        rintro rfl
        exact (List.nodup_cons.1 hnodup).1 (List.mem_of_getLast? hlast)
      rw [Function.update_of_ne hca]
      exact ih h.2 hlast (List.nodup_cons.1 hnodup).2 fun hc => hb (List.mem_cons_of_mem c hc)

end Linked
