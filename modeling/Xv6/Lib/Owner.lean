import Mathlib.Algebra.Notation.Defs
import Mathlib.Tactic.SplitIfs

/-!
# Cells that own blocks

A set of cells, each of which is null or refers to a block, and a mark for every block.  `Exact` says
that no two cells refer to one block and that the marked blocks are those a cell refers to, together
with some that are fixed.  The rules are for a cell that is given an unmarked block and for a cell whose
block is given back.
-/

namespace Owner

variable {π β : Type*} [Zero β] {fixed : β → Prop} {target target' : π → β} {used used' : β → Bool}
  {p : π} {b : β}

/-- Every block that is in use has one owner.  Zero is the null reference, and fixed. -/
structure Exact (fixed : β → Prop) (target : π → β) (used : β → Bool) : Prop where
  zero : fixed 0
  once : ∀ {p q}, target p ≠ 0 → target p = target q → p = q
  free : ∀ {p}, target p ≠ 0 → ¬fixed (target p)
  used_iff : ∀ b, used b = true ↔ fixed b ∨ ∃ p, target p ≠ 0 ∧ target p = b

theorem Exact.used_target (h : Exact fixed target used) (hp : target p ≠ 0) : used (target p) = true :=
  (h.used_iff _).2 (.inr ⟨p, hp, rfl⟩)

theorem Exact.ne_zero (h : Exact fixed target used) (hb : used b = false) : b ≠ 0 := by
  rintro rfl
  cases hb.symm.trans ((h.used_iff 0).2 (.inl h.zero))

theorem Exact.ne_target (h : Exact fixed target used) (hb : used b = false) (p : π) : target p ≠ b := by
  rintro rfl
  cases hb.symm.trans (h.used_target (h.ne_zero hb))

theorem Exact.congr (h : Exact fixed target used) (htarget : ∀ q, target' q = target q)
    (hused : ∀ c, used' c = used c) : Exact fixed target' used' := by
  obtain rfl : target' = target := funext htarget
  obtain rfl : used' = used := funext hused
  exact h

variable [DecidableEq π] [DecidableEq β]

theorem Exact.alloc (h : Exact fixed target used) (hp : target p = 0) (hb : used b = false)
    (htarget : ∀ q, target' q = if q = p then b else target q)
    (hused : ∀ c, used' c = if c = b then true else used c) : Exact fixed target' used' where
  zero := h.zero
  once {q r} hq heq := by
    rw [htarget] at hq
    rw [htarget, htarget] at heq
    by_cases hqp : q = p <;> by_cases hrp : r = p
    · rw [hqp, hrp]
    · rw [if_pos hqp, if_neg hrp] at heq
      exact absurd heq.symm (h.ne_target hb r)
    · rw [if_neg hqp, if_pos hrp] at heq
      exact absurd heq (h.ne_target hb q)
    · rw [if_neg hqp] at hq
      rw [if_neg hqp, if_neg hrp] at heq
      exact h.once hq heq
  free {q} hq := by
    rw [htarget] at hq ⊢
    by_cases hqp : q = p
    · rw [if_pos hqp]
      intro hfixed
      cases hb.symm.trans ((h.used_iff b).2 (.inl hfixed))
    · rw [if_neg hqp] at hq ⊢
      exact h.free hq
  used_iff c := by
    rw [hused]
    by_cases hc : c = b
    · subst hc
      rw [if_pos rfl]
      refine iff_of_true rfl (.inr ⟨p, ?_⟩)
      rw [htarget, if_pos rfl]
      exact ⟨h.ne_zero hb, rfl⟩
    · rw [if_neg hc, h.used_iff]
      refine or_congr_right ⟨fun ⟨q, hq, hqc⟩ => ⟨q, ?_⟩, fun ⟨q, hq, hqc⟩ => ⟨q, ?_⟩⟩
      · have hqp : q ≠ p := fun hqp => hq (hqp ▸ hp)
        rw [htarget, if_neg hqp]
        exact ⟨hq, hqc⟩
      · have hqp : q ≠ p := by
          rintro rfl
          rw [htarget, if_pos rfl] at hqc
          exact hc hqc.symm
        rw [htarget, if_neg hqp] at hq hqc
        exact ⟨hq, hqc⟩

theorem Exact.release (h : Exact fixed target used) (hp : target p ≠ 0)
    (htarget : ∀ q, target' q = if q = p then 0 else target q)
    (hused : ∀ c, used' c = if c = target p then false else used c) : Exact fixed target' used' := by
  have hsub : ∀ {q}, target' q ≠ 0 → q ≠ p ∧ target' q = target q := fun {q} hq => by
    have hqp : q ≠ p := by
      rintro rfl
      exact hq (by rw [htarget, if_pos rfl])
    exact ⟨hqp, by rw [htarget, if_neg hqp]⟩
  refine ⟨h.zero, fun {q r} hq heq => ?_, fun {q} hq => ?_, fun c => ?_⟩
  · have hr : target' r ≠ 0 := heq ▸ hq
    rw [(hsub hq).2, (hsub hr).2] at heq
    exact h.once ((hsub hq).2 ▸ hq) heq
  · have hsame := (hsub hq).2
    rw [hsame] at hq ⊢
    exact h.free hq
  · rw [hused]
    by_cases hc : c = target p
    · rw [if_pos hc]
      refine iff_of_false (by simp) ?_
      rintro (hfixed | ⟨q, hq, hqc⟩)
      · exact h.free hp (hc ▸ hfixed)
      · obtain ⟨hqp, hsame⟩ := hsub hq
        rw [hsame] at hq hqc
        exact hqp (h.once hq (hqc.trans hc))
    · rw [if_neg hc, h.used_iff]
      refine or_congr_right ⟨fun ⟨q, hq, hqc⟩ => ⟨q, ?_⟩, fun ⟨q, hq, hqc⟩ => ⟨q, ?_⟩⟩
      · have hqp : q ≠ p := fun hqp => hc (by rw [← hqc, hqp])
        rw [htarget, if_neg hqp]
        exact ⟨hq, hqc⟩
      · have hsame := (hsub hq).2
        rw [hsame] at hq hqc
        exact ⟨hq, hqc⟩

theorem Exact.move {q : π} (h : Exact fixed target used) (hp : target p ≠ 0) (hq : target q = 0)
    (htarget : ∀ r, target' r = if r = q then target p else if r = p then 0 else target r) :
    Exact fixed target' used := by
  have hgiven : Exact fixed (fun r => if r = p then 0 else target r)
      (fun c => if c = target p then false else used c) := h.release hp (fun _ => rfl) fun _ => rfl
  refine hgiven.alloc (p := q) (b := target p) ?_ (if_pos rfl) htarget fun c => ?_
  · split_ifs
    · rfl
    · exact hq
  · split_ifs with hc
    · rw [hc]
      exact h.used_target hp
    · rfl

end Owner
