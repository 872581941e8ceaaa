import Mathlib.Algebra.BigOperators.Fin
import Mathlib.Data.Fintype.BigOperators

/-!
# How often a value is taken

`tally f k` is the number of places where `f` has the value `k`.  A place that is given another value
counts one less for the old value and one more for the new one.
-/

namespace Tally

variable {ι κ : Type*} [Fintype ι] [DecidableEq κ]

/-- The number of places where `f` is `k`. -/
def tally (f : ι → κ) (k : κ) : ℕ := (Finset.univ.filter fun i => f i = k).card

theorem tally_eq_sum (f : ι → κ) (k : κ) : tally f k = ∑ i, if f i = k then 1 else 0 :=
  Finset.card_filter _ _

theorem sum_update {κ : Type*} [DecidableEq ι] (g : κ → ℕ) (f : ι → κ) (a : ι) (x : κ) :
    ∑ i, g (Function.update f a x i) + g (f a) = ∑ i, g (f i) + g x := by
  have hsplit : ∀ f' : ι → κ, ∑ i, g (f' i) = g (f' a) + ∑ i ∈ Finset.univ.erase a, g (f' i) := fun f' =>
    (Finset.add_sum_erase Finset.univ (fun i => g (f' i)) (Finset.mem_univ a)).symm
  have hrest : ∑ i ∈ Finset.univ.erase a, g (Function.update f a x i) =
      ∑ i ∈ Finset.univ.erase a, g (f i) :=
    Finset.sum_congr rfl fun i hi => by rw [Function.update_of_ne (Finset.ne_of_mem_erase hi)]
  rw [hsplit, hsplit f, hrest, Function.update_self]
  omega

theorem tally_update [DecidableEq ι] (f : ι → κ) (a : ι) (x k : κ) :
    tally (Function.update f a x) k + (if f a = k then 1 else 0) =
      tally f k + if x = k then 1 else 0 := by
  rw [tally_eq_sum, tally_eq_sum]
  exact sum_update (fun y => if y = k then 1 else 0) f a x

theorem tally_eq_zero_iff {f : ι → κ} {k : κ} : tally f k = 0 ↔ ∀ i, f i ≠ k := by
  simp [tally, Finset.filter_eq_empty_iff]

end Tally
