import Mathlib.Order.Basic
import Mathlib.Data.List.Basic

/-!
# Scanning for the best marked element

A loop over a list that keeps the best element seen so far, starting from a bound that stands for
"none yet".  `R` is the test that replaces the current best, so that one statement covers searches
for a largest and for a smallest element, with either treatment of ties.
-/

namespace Scan

variable {ι β : Type*} {b : β} {l : List ι} {i : ι}

/-- One round: `i` replaces the current best when it is marked and passes the test. -/
def step (R : β → β → Prop) [DecidableRel R] (p : ι → Bool) (f : ι → β)
    (acc : Option ι × β) (i : ι) : Option ι × β :=
  if R (f i) acc.2 ∧ p i then (some i, f i) else acc

def best (R : β → β → Prop) [DecidableRel R] (p : ι → Bool) (f : ι → β)
    (acc : Option ι × β) (l : List ι) : Option ι × β :=
  l.foldl (step R p f) acc

variable {R : β → β → Prop} [DecidableRel R] {p : ι → Bool} {f : ι → β} {a : Option ι × β}

theorem best_eq_or (l : List ι) :
    best R p f a l = a ∨ ∃ i ∈ l, p i ∧ best R p f a l = (some i, f i) := by
  induction l generalizing a with
  | nil => exact Or.inl rfl
  | cons j l ih =>
    rw [best, List.foldl_cons, ← best]
    by_cases hj : R (f j) a.2 ∧ p j
    · have hstep : step R p f a j = (some j, f j) := if_pos hj
      rw [hstep]
      right
      rcases ih (a := (some j, f j)) with h | ⟨i, hi, hp, h⟩
      · exact ⟨j, List.mem_cons_self, hj.2, h⟩
      · exact ⟨i, List.mem_cons_of_mem j hi, hp, h⟩
    · have hstep : step R p f a j = a := if_neg hj
      rw [hstep]
      rcases ih (a := a) with h | ⟨i, hi, hp, h⟩
      · exact Or.inl h
      · exact Or.inr ⟨i, List.mem_cons_of_mem j hi, hp, h⟩

theorem marked_of_best (h : (best R p f (none, b) l).1 = some i) :
    p i := by
  rcases best_eq_or (R := R) (p := p) (f := f) l with hb | ⟨j, -, hj, hb⟩
  · rw [hb] at h
    cases h
  · rw [hb, Option.some.injEq] at h
    rwa [← h]

theorem not_of_best_none (h : (best R p f (none, b) l).1 = none) :
    ∀ i ∈ l, p i → ¬ R (f i) b := by
  induction l with
  | nil => intro i hi; cases hi
  | cons j l ih =>
    rw [best, List.foldl_cons, ← best] at h
    by_cases hj : R (f j) b ∧ p j
    · have hstep : step R p f (none, b) j = (some j, f j) := if_pos hj
      rw [hstep] at h
      rcases best_eq_or (R := R) (p := p) (f := f) (a := (some j, f j)) l with e | ⟨i, -, -, e⟩
      · rw [e] at h
        cases h
      · rw [e] at h
        cases h
    · have hstep : step R p f (none, b) j = (none, b) := if_neg hj
      rw [hstep] at h
      intro i hi hp hR
      rcases List.mem_cons.1 hi with rfl | hi
      · exact hj ⟨hR, hp⟩
      · exact ih h i hi hp hR

/-- Nothing that was not better than the start value is better than the result, and no marked element
of the list is. -/
theorem not_better (hirr : ∀ x, ¬ R x x) (htrans : ∀ x y z, R x y → ¬ R z y → ¬ R z x) (l : List ι) :
    (∀ z, ¬ R z a.2 → ¬ R z (best R p f a l).2) ∧
      ∀ i ∈ l, p i → ¬ R (f i) (best R p f a l).2 := by
  induction l generalizing a with
  | nil => exact ⟨fun z hz => hz, fun i hi => by cases hi⟩
  | cons j l ih =>
    rw [best, List.foldl_cons, ← best]
    obtain ⟨hstart, hrest⟩ := ih (a := step R p f a j)
    have hstep : (∀ z, ¬ R z a.2 → ¬ R z (step R p f a j).2) ∧
        (p j → ¬ R (f j) (step R p f a j).2) := by
      unfold step
      split_ifs with hj
      · exact ⟨fun z => htrans _ _ z hj.1, fun _ => hirr _⟩
      · exact ⟨fun z hz => hz, fun hp hR => hj ⟨hR, hp⟩⟩
    refine ⟨fun z hz => hstart z (hstep.1 z hz), fun i hi hp => ?_⟩
    rcases List.mem_cons.1 hi with rfl | hi
    · exact hstart _ (hstep.2 hp)
    · exact hrest i hi hp

theorem snd_of_best (h : (best R p f (none, b) l).1 = some i) :
    (best R p f (none, b) l).2 = f i := by
  rcases best_eq_or (R := R) (p := p) (f := f) l with hb | ⟨j, -, -, hb⟩
  · rw [hb] at h
    cases h
  · rw [hb] at h ⊢
    cases h
    rfl

theorem not_better_of_best (hirr : ∀ x, ¬ R x x) (htrans : ∀ x y z, R x y → ¬ R z y → ¬ R z x)
    (h : (best R p f (none, b) l).1 = some i) :
    ∀ j ∈ l, p j → ¬ R (f j) (f i) := by
  rw [← snd_of_best h]
  exact (not_better hirr htrans l).2

theorem best_rel (hrefl : ∀ x, R x x) (htrans : ∀ x y z, R x y → R y z → R x z)
    (htotal : ∀ x y, ¬ R x y → R y x) (l : List ι) :
    R (best R p f a l).2 a.2 ∧ ∀ i ∈ l, p i → R (best R p f a l).2 (f i) := by
  induction l generalizing a with
  | nil => exact ⟨hrefl _, fun i hi => by cases hi⟩
  | cons j l ih =>
    rw [best, List.foldl_cons, ← best]
    obtain ⟨hstart, hrest⟩ := ih (a := step R p f a j)
    have hstep : R (step R p f a j).2 a.2 ∧ (p j → R (step R p f a j).2 (f j)) := by
      unfold step
      split_ifs with hj
      · exact ⟨hj.1, fun _ => hrefl _⟩
      · exact ⟨hrefl _, fun hp => htotal _ _ fun hR => hj ⟨hR, hp⟩⟩
    refine ⟨htrans _ _ _ hstart hstep.1, fun i hi hp => ?_⟩
    rcases List.mem_cons.1 hi with rfl | hi
    · exact htrans _ _ _ hstart (hstep.2 hp)
    · exact hrest i hi hp

theorem rel_of_best (hrefl : ∀ x, R x x) (htrans : ∀ x y z, R x y → R y z → R x z)
    (htotal : ∀ x y, ¬ R x y → R y x)     (h : (best R p f (none, b) l).1 = some i) : ∀ j ∈ l, p j → R (f i) (f j) := by
  rw [← snd_of_best h]
  exact (best_rel hrefl htrans htotal l).2

-- Keeps definitional unfolding from running whole searches; use the lemmas above.
attribute [irreducible] best

end Scan
