import Mathlib.Data.List.Basic
import Mathlib.Logic.Function.Basic

/-!
# Redo logs

Updates of cells, in order, and a log of copies of cells.  `Pending` says that a store is the intended one
up to the cells that the log names, of which the log has copies.  Copying the cells back one after another
keeps that, whatever was copied before, and ends in the intended store.
-/

namespace Redo

variable {κ δ : Type*} [DecidableEq κ]

/-- The cells after updates, the first one first. -/
def apply (us : List (κ × δ)) (h : κ → δ) : κ → δ := us.foldl (fun h u => Function.update h u.1 u.2) h

theorem apply_append (us vs : List (κ × δ)) (h : κ → δ) : apply (us ++ vs) h = apply vs (apply us h) :=
  List.foldl_append

theorem apply_concat (us : List (κ × δ)) (k : κ) (x : δ) (h : κ → δ) :
    apply (us ++ [(k, x)]) h = Function.update (apply us h) k x :=
  apply_append us [(k, x)] h

theorem apply_of_forall_ne {us : List (κ × δ)} {k : κ} (hk : ∀ u ∈ us, u.1 ≠ k) (h : κ → δ) :
    apply us h k = h k := by
  induction us generalizing h with
  | nil => rfl
  | cons u us ih =>
    have hrest := ih (fun v hv => hk v (List.mem_cons_of_mem u hv)) (Function.update h u.1 u.2)
    rw [Function.update_of_ne (hk u List.mem_cons_self).symm] at hrest
    exact hrest

/-- The store `D` is `H` up to the cells in `names`, of which there are copies. -/
structure Pending (home : κ → Prop) (H D : κ → δ) (names : List κ) (copy : ℕ → δ) : Prop where
  copies : ∀ {i k}, names[i]? = some k → copy i = H k
  rest : ∀ {k}, home k → k ∉ names → D k = H k

variable {home : κ → Prop} {H D : κ → δ} {names : List κ} {copy : ℕ → δ}

theorem Pending.install (h : Pending home H D names copy) {t : ℕ} {k : κ} (ht : names[t]? = some k) :
    Pending home H (Function.update D k (copy t)) names copy where
  copies := h.copies
  rest {j} hj hnot := by
    have hjk : j ≠ k := fun hc => hnot (hc ▸ List.mem_of_getElem? ht)
    rw [Function.update_of_ne hjk]
    exact h.rest hj hnot

theorem Pending.installed (h : Pending home H D names copy) {t : ℕ} {k : κ} (ht : names[t]? = some k) {j : κ}
    (hj : D j = H j ∨ j = k) : Function.update D k (copy t) j = H j := by
  by_cases hjk : j = k
  · rw [hjk, Function.update_self, h.copies ht]
  · rw [Function.update_of_ne hjk]
    exact hj.resolve_right hjk

theorem Pending.done (h : Pending home H D names copy) (hall : ∀ k ∈ names, D k = H k) {k : κ} (hk : home k) :
    D k = H k := by
  by_cases hmem : k ∈ names
  · exact hall k hmem
  · exact h.rest hk hmem

end Redo
