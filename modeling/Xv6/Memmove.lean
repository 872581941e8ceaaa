import Mathlib.Logic.Function.Basic
import Xv6.Lib.Memory

/-!
# `memmove`

The `memmove` of the user library copies upwards, so that a move to a lower address gets every byte before
it is overwritten, and a move to a higher one repeats the first bytes when the ranges overlap.  The kernel's
copies downwards then.
-/

namespace Xv6.Ulib

open Memory (splice)

/-- `memmove` of `ulib.c`. -/
def memmove {α : Type} (mem : ℕ → α) (dst src : ℕ) : ℕ → ℕ → α
  | 0 => mem
  | n + 1 => memmove (Function.update mem dst (mem src)) (dst + 1) (src + 1) n

theorem memmove_down {α : Type} {mem : ℕ → α} {dst src : ℕ} (n : ℕ) (h : dst ≤ src) :
    memmove mem dst src n = splice mem dst n fun k => mem (src + k) := by
  induction n generalizing mem dst src with
  | zero => exact (Memory.splice_zero ..).symm
  | succ n ih =>
    rw [memmove, ih (Nat.succ_le_succ h)]
    funext x
    by_cases hx : x = dst
    · subst hx
      rw [Memory.splice_outside (by omega), Function.update_self, Memory.splice_inside (by omega),
        Nat.sub_self]
      rfl
    · by_cases hin : dst + 1 ≤ x ∧ x < dst + 1 + n
      · rw [Memory.splice_inside hin, Memory.splice_inside (by omega), Function.update_of_ne (by omega)]
        congr 1
        omega
      · rw [Memory.splice_outside hin, Memory.splice_outside (by omega), Function.update_of_ne hx]

/-- Copying upwards into the bytes still to be copied repeats the first ones. -/
theorem memmove_up {α : Type} {mem : ℕ → α} {dst src : ℕ} (n : ℕ) (h : src < dst) :
    memmove mem dst src n = splice mem dst n fun k => mem (src + k % (dst - src)) := by
  induction n generalizing mem dst src with
  | zero => exact (Memory.splice_zero ..).symm
  | succ n ih =>
    rw [memmove, ih (Nat.succ_lt_succ h), Nat.succ_sub_succ]
    funext x
    by_cases hx : x = dst
    · subst hx
      rw [Memory.splice_outside (by omega), Function.update_self, Memory.splice_inside (by omega), Nat.sub_self,
        Nat.zero_mod]
      rfl
    · by_cases hin : dst + 1 ≤ x ∧ x < dst + 1 + n
      · rw [Memory.splice_inside hin, Memory.splice_inside (by omega), show x - dst = x - (dst + 1) + 1 by omega]
        generalize x - (dst + 1) = k
        have hlt := Nat.mod_lt k (show 0 < dst - src by omega)
        rw [← Nat.mod_add_mod]
        by_cases hk : k % (dst - src) + 1 = dst - src
        · -- the byte read is the one written first
          rw [hk, Nat.mod_self, show src + 1 + k % (dst - src) = dst by omega, Function.update_self]
          rfl
        · rw [Nat.mod_eq_of_lt (show k % (dst - src) + 1 < dst - src by omega), Function.update_of_ne (by omega)]
          congr 1
          omega
      · rw [Memory.splice_outside hin, Memory.splice_outside (by omega), Function.update_of_ne hx]

end Xv6.Ulib

namespace Xv6.Kstring

open Memory (splice)

variable {α : Type} {mem : ℕ → α} {dst src n : ℕ}

/-- The loop of the kernel's `memmove` that copies downwards, with `n` bytes to go. -/
def copyDown (mem : ℕ → α) (dst src : ℕ) : ℕ → ℕ → α
  | 0 => mem
  | n + 1 => copyDown (Function.update mem (dst + n) (mem (src + n))) dst src n

/-- `memmove` of `string.c`.  Its other loop is the one of the user library. -/
def memmove (mem : ℕ → α) (dst src n : ℕ) : ℕ → α :=
  if src < dst ∧ dst < (src + n) % 0x100000000 then copyDown mem dst src n else Ulib.memmove mem dst src n

theorem copyDown_eq (h : src ≤ dst) : copyDown mem dst src n = splice mem dst n fun k => mem (src + k) := by
  induction n generalizing mem with
  | zero => exact (Memory.splice_zero ..).symm
  | succ n ih =>
    rw [copyDown, ih]
    funext x
    by_cases hin : dst ≤ x ∧ x < dst + n
    · rw [Memory.splice_inside hin, Memory.splice_inside (by omega), Function.update_of_ne (by omega)]
    · rw [Memory.splice_outside hin]
      by_cases hx : x = dst + n
      · rw [hx, Function.update_self, Memory.splice_inside (by omega), Nat.add_sub_cancel_left]
      · rw [Function.update_of_ne hx, Memory.splice_outside (by omega)]

/-- The kernel's `memmove` moves the bytes whatever the overlap.  The user library's does so exactly when the
destination is not above the source or the bytes repeat at that distance. -/
theorem memmoves_move_iff (mem : ℕ → α) (dst src n : ℕ) (hsrc : src + n < 0x100000000) :
    memmove mem dst src n = splice mem dst n (fun k => mem (src + k)) ∧
    (Ulib.memmove mem dst src n = splice mem dst n (fun k => mem (src + k)) ↔
      (src < dst → ∀ k < n, mem (src + k % (dst - src)) = mem (src + k))) := by
  have hup : Ulib.memmove mem dst src n = splice mem dst n (fun k => mem (src + k)) ↔
      (src < dst → ∀ k < n, mem (src + k % (dst - src)) = mem (src + k)) := by
    by_cases hlt : src < dst
    · rw [Ulib.memmove_up n hlt]
      refine ⟨fun h _ k hk => ?_, fun h => ?_⟩
      · have hx := congrFun h (dst + k)
        rwa [Memory.splice_inside (by omega), Memory.splice_inside (by omega), Nat.add_sub_cancel_left] at hx
      · funext x
        by_cases hin : dst ≤ x ∧ x < dst + n
        · rw [Memory.splice_inside hin, Memory.splice_inside hin, h hlt _ (by omega)]
        · rw [Memory.splice_outside hin, Memory.splice_outside hin]
    · exact iff_of_true (Ulib.memmove_down n (Nat.not_lt.1 hlt)) fun hc => absurd hc hlt
  refine ⟨?_, hup⟩
  rw [memmove, Nat.mod_eq_of_lt hsrc]
  split_ifs with hoverlap
  · exact copyDown_eq (Nat.le_of_lt hoverlap.1)
  · refine hup.2 fun hlt k hk => ?_
    -- the source ends before the destination
    rw [Nat.mod_eq_of_lt (by omega)]

def sampleBytes (x : ℕ) : ℕ := x + 1

theorem memmoves_move_iff_apart :
    memmove sampleBytes 4 1 3 = Ulib.memmove sampleBytes 4 1 3 ∧ Ulib.memmove sampleBytes 4 1 3 6 = 4 := by
  obtain ⟨hkernel, huser⟩ := memmoves_move_iff sampleBytes 4 1 3 (by decide)
  exact ⟨hkernel.trans (huser.2 (by decide)).symm, by decide⟩

/-- Two bytes moved up by one place. -/
theorem memmove_repeats_byte :
    memmove sampleBytes 1 0 2 2 = 2 ∧ Ulib.memmove sampleBytes 1 0 2 2 = 1 ∧
      Memory.splice sampleBytes 1 2 (fun k => sampleBytes (0 + k)) 2 = 2 := by
  decide

end Xv6.Kstring
