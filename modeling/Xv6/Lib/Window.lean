import Mathlib.Algebra.Ring.Nat
import Mathlib.Data.List.Basic
import Mathlib.Order.Basic

/-!
# Ring buffers with counters that wrap

A ring of `N` places is indexed by counters of `w` bits that run on and wrap, where `N` divides
`2 ^ w`.  `window data a k` is the list of the `k` elements from counter `a` on; the rules say how it
grows at its end, shrinks at either end, and that a write behind its end leaves it alone as long as it
does not fill the ring.
-/

namespace Window

variable {w N : ℕ} [NeZero N] {β : Type*}

def slot (N : ℕ) [NeZero N] (n : BitVec w) : Fin N :=
  ⟨n.toNat % N, Nat.mod_lt _ (Nat.pos_of_ne_zero (NeZero.ne N))⟩

/-- The `k` elements from counter `a` on. -/
def window (data : Fin N → β) (a : BitVec w) (k : ℕ) : List β :=
  (List.range k).map fun j => data (slot N (a + BitVec.ofNat w j))

variable {data : Fin N → β} {a : BitVec w} {k : ℕ}

@[simp]
theorem length_window (data : Fin N → β) (a : BitVec w) (k : ℕ) : (window data a k).length = k := by
  simp [window]

@[simp]
theorem window_zero (data : Fin N → β) (a : BitVec w) : window data a 0 = [] := rfl

theorem window_succ (data : Fin N → β) (a : BitVec w) (k : ℕ) :
    window data a (k + 1) = window data a k ++ [data (slot N (a + BitVec.ofNat w k))] := by
  simp [window, List.range_succ]

theorem window_cons (data : Fin N → β) (a : BitVec w) (k : ℕ) :
    window data a (k + 1) = data (slot N a) :: window data (a + 1) k := by
  rw [window, List.range_succ_eq_map, List.map_cons, List.map_map]
  congr 1
  · simp
  · refine List.map_congr_left fun j _ => ?_
    have hsucc : a + BitVec.ofNat w (j + 1) = a + 1 + BitVec.ofNat w j := by
      rw [BitVec.ofNat_add, BitVec.add_assoc, BitVec.add_comm (BitVec.ofNat w j)]
      rfl
    simp only [Function.comp, hsucc]

theorem slot_add_ne (hN : N ∣ 2 ^ w) {i j : ℕ} (hij : i < j) (hj : j < i + N) :
    slot N (a + BitVec.ofNat w i) ≠ slot N (a + BitVec.ofNat w j) := by
  intro heq
  have hval := congrArg Fin.val heq
  simp only [slot, BitVec.toNat_add, BitVec.toNat_ofNat, Nat.add_mod_mod,
    Nat.mod_mod_of_dvd _ hN] at hval
  have hdvd : N ∣ a.toNat + j - (a.toNat + i) :=
    Nat.dvd_of_mod_eq_zero (Nat.sub_mod_eq_zero_of_mod_eq hval.symm)
  have hle := Nat.le_of_dvd (by omega) hdvd
  omega

theorem window_update [DecidableEq (Fin N)] (hN : N ∣ 2 ^ w) (data : Fin N → β) (a : BitVec w)
    (hk : k < N) (x : β) :
    window (Function.update data (slot N (a + BitVec.ofNat w k)) x) a k = window data a k := by
  refine List.map_congr_left fun j hj => ?_
  have hlt := List.mem_range.1 hj
  exact Function.update_of_ne (slot_add_ne hN hlt (by omega)) _ _

theorem window_add (data : Fin N → β) (a : BitVec w) (j k : ℕ) :
    window data a (j + k) = window data a j ++ window data (a + BitVec.ofNat w j) k := by
  induction k with
  | zero => simp
  | succ k ih =>
    rw [← Nat.add_assoc, window_succ, window_succ, ih, List.append_assoc, BitVec.add_assoc,
      ← BitVec.ofNat_add]

end Window
