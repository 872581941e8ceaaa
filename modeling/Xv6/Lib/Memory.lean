import Mathlib.Data.List.Basic

/-!
# Writing ranges of a memory

A memory is a function from addresses to values.  `splice` replaces a range, and `At` says that a list
stands at an address; a write elsewhere leaves it there.
-/

namespace Memory

variable {α : Type*} {mem src : ℕ → α} {a n x : ℕ}

/-- The `n` values from `a` on are replaced by those of `src`. -/
def splice (mem : ℕ → α) (a n : ℕ) (src : ℕ → α) : ℕ → α := fun x =>
  if a ≤ x ∧ x < a + n then src (x - a) else mem x

theorem splice_inside (h : a ≤ x ∧ x < a + n) : splice mem a n src x = src (x - a) := if_pos h

theorem splice_outside (h : ¬ (a ≤ x ∧ x < a + n)) : splice mem a n src x = mem x := if_neg h

@[simp] theorem splice_zero (mem : ℕ → α) (a : ℕ) (src : ℕ → α) : splice mem a 0 src = mem := by
  funext x
  exact splice_outside (by omega)

/-- The list stands at `a`. -/
def At (mem : ℕ → α) (a : ℕ) (l : List α) : Prop := ∀ k, (h : k < l.length) → mem (a + k) = l[k]

theorem at_nil (mem : ℕ → α) (a : ℕ) : At mem a [] := by
  intro k hk
  exact absurd hk (Nat.not_lt_zero _)

theorem at_cons {v : α} {l : List α} : At mem a (v :: l) ↔ mem a = v ∧ At mem (a + 1) l := by
  constructor
  · intro h
    refine ⟨h 0 (Nat.succ_pos _), fun k hk => ?_⟩
    rw [Nat.add_right_comm]
    exact h (k + 1) (Nat.succ_lt_succ hk)
  · rintro ⟨rfl, h⟩ k hk
    cases k with
    | zero => rfl
    | succ k =>
      have := h k (Nat.lt_of_succ_lt_succ hk)
      rwa [Nat.add_right_comm] at this

theorem at_append {l r : List α} : At mem a (l ++ r) ↔ At mem a l ∧ At mem (a + l.length) r := by
  induction l generalizing a with
  | nil => simp [at_nil]
  | cons v l ih =>
    rw [List.cons_append, at_cons, at_cons, ih, List.length_cons, and_assoc, Nat.add_assoc,
      Nat.add_comm 1]

theorem At.of_splice (mem : ℕ → α) (a : ℕ) (l : List α) (dflt : α) :
    At (splice mem a l.length fun k => l.getD k dflt) a l := by
  intro k hk
  rw [splice_inside (by omega), Nat.add_sub_cancel_left, List.getD, List.getElem?_eq_getElem hk,
    Option.getD_some]

theorem At.splice {l : List α} {c : ℕ} (h : At mem c l) (hout : c + l.length ≤ a ∨ a + n ≤ c) :
    At (splice mem a n src) c l := by
  intro k hk
  rw [splice_outside (by omega)]
  exact h k hk

theorem At.congr {mem' : ℕ → α} {l : List α} (h : At mem a l)
    (heq : ∀ x, a ≤ x → x < a + l.length → mem' x = mem x) : At mem' a l := by
  intro k hk
  rw [heq (a + k) (by omega) (by omega)]
  exact h k hk

end Memory
