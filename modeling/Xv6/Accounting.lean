import Mathlib.Data.Finset.Insert
import Mathlib.Data.Finset.Erase
import Xv6.Lib.Owner
import Xv6.Lifecycle

/-!
# Where the frames are

Every frame `kalloc` hands out is on the free list or has one place: it is a page directory, one of its page
tables, one present user page, the frame of some other part of the kernel, or the one a function has in its
hand.  The rules say how the places change when a frame is taken, mapped and given back.
-/

namespace Xv6

open Machine

namespace Accounting

inductive Cell where
  | dir (d : ℕ)
  | table (d i : ℕ)
  | page (d v : ℕ)
  | outside (f : ℕ)
  | hand
deriving DecidableEq

/-- The directories in use, the frames of the rest of the kernel, and the frame in hand. -/
structure Books where
  live : Finset ℕ
  outside : Finset ℕ
  hand : Option ℕ

/-- The frame in a place, or 0. -/
def target (dirs : ℕ → PgDir) (b : Books) : Cell → ℕ
  | .dir d => if d ∈ b.live then d else 0
  | .table d i => (dirs d i).elim 0 PageTable.frame
  | .page d v =>
    if v < userPages ∧ flagOn (entry dirs d v) pteP = true then frameOf (entry dirs d v) else 0
  | .outside f => if f ∈ b.outside then f else 0
  | .hand => b.hand.getD 0

/-- Every frame is on the free list or in one place. -/
structure Account (kend : ℕ) (free : List ℕ) (dirs : ℕ → PgDir) (b : Books) : Prop where
  kend_pos : 0 < kend
  nodup : free.Nodup
  exact : Owner.Exact (fun f => ¬(kend ≤ f ∧ f < phystopFrame)) (target dirs b) fun f => decide (f ∉ free)
  dead : ∀ d, d ∉ b.live → ∀ i, dirs d i = none
  cleared : ∀ d v, v < userPages → flagOn (entry dirs d v) pteP = false → frameOf (entry dirs d v) = 0
  bounded : ∀ d i, 1024 ≤ i → dirs d i = none

section
variable {kend f d v : ℕ} {free rest : List ℕ} {dirs : ℕ → PgDir} {b : Books} {x : Pte}

/-! ### Taking frames -/

theorem used_taken (hf : free = f :: rest) (hnodup : free.Nodup) (c : ℕ) :
    decide (c ∉ rest) = if c = f then true else decide (c ∉ free) := by
  subst hf
  have hnot := (List.nodup_cons.1 hnodup).1
  by_cases hc : c = f
  · subst hc
    rw [if_pos rfl, decide_eq_true hnot]
  · rw [if_neg hc]
    congr 1
    rw [List.mem_cons, not_or]
    exact propext ⟨fun h => ⟨hc, h⟩, fun h => h.2⟩

theorem used_given (hf : f ∉ free) (c : ℕ) :
    decide (c ∉ f :: free) = if c = f then false else decide (c ∉ free) := by
  by_cases hc : c = f
  · subst hc
    rw [if_pos rfl, decide_eq_false (fun h => h List.mem_cons_self)]
  · rw [if_neg hc]
    congr 1
    rw [List.mem_cons, not_or]
    exact propext ⟨fun h => h.2, fun h => ⟨hc, h⟩⟩

theorem place_insert (s : Finset ℕ) (e d : ℕ) :
    (if e ∈ insert d s then e else 0) = if e = d then d else if e ∈ s then e else 0 := by
  by_cases he : e = d
  · subst he
    rw [if_pos rfl, if_pos (Finset.mem_insert_self _ _)]
  · simp only [Finset.mem_insert, he, false_or, if_false]

theorem place_erase (s : Finset ℕ) (e d : ℕ) :
    (if e ∈ s.erase d then e else 0) = if e = d then 0 else if e ∈ s then e else 0 := by
  by_cases he : e = d
  · subst he
    rw [if_pos rfl, if_neg (Finset.notMem_erase _ _)]
  · simp only [Finset.mem_erase, ne_eq, he, not_false_eq_true, true_and, if_false]

theorem unused_of_mem (hf : f ∈ free) : decide (f ∉ free) = false := decide_eq_false fun hc => hc hf

section

variable (h : Account kend free dirs b)

include h

theorem Account.not_mem {c : Cell} (hc : target dirs b c ≠ 0) :
    target dirs b c ∉ free := of_decide_eq_true (h.exact.used_target hc)

theorem Account.pos (hf : f ∈ free) : f ≠ 0 :=
  h.exact.ne_zero (unused_of_mem hf)

theorem Account.take (hf : free = f :: rest) (hhand : b.hand = none) :
    Account kend rest dirs { b with hand := some f } where
  kend_pos := h.kend_pos
  nodup := (List.nodup_cons.1 (hf ▸ h.nodup)).2
  exact := by
    refine h.exact.alloc (p := .hand) (b := f) ?_ (unused_of_mem (hf ▸ List.mem_cons_self)) (fun c => ?_)
      (used_taken hf h.nodup)
    · rw [target, hhand]
      rfl
    · cases c <;> rfl
  dead := h.dead
  cleared := h.cleared
  bounded := h.bounded

theorem Account.fresh (hmem : d ∈ free) : d ∉ b.live := by
  intro hd
  have htarget : target dirs b (.dir d) = d := if_pos hd
  have hnot := h.not_mem (c := .dir d) (by rw [htarget]; exact h.pos hmem)
  rw [htarget] at hnot
  exact hnot hmem

theorem Account.newDir (hf : free = d :: rest) :
    Account kend rest (Function.update dirs d fun _ => none) { b with live := insert d b.live } := by
  have hmem : d ∈ free := hf ▸ List.mem_cons_self
  have hnew := h.fresh hmem
  have hsame : (Function.update dirs d fun _ => none) = dirs := by
    have hnone : dirs d = fun _ => none := funext (h.dead d hnew)
    rw [← hnone, Function.update_eq_self]
  rw [hsame]
  refine ⟨h.kend_pos, (List.nodup_cons.1 (hf ▸ h.nodup)).2, ?_, fun e he => ?_, h.cleared, h.bounded⟩
  · refine h.exact.alloc (p := .dir d) (b := d) (if_neg hnew) (unused_of_mem hmem) (fun c => ?_)
      (used_taken hf h.nodup)
    cases c with
    | dir e =>
      rw [target, target, place_insert]
      simp only [Cell.dir.injEq]
    | _ => rfl
  · exact h.dead e fun hc => he (Finset.mem_insert_of_mem hc)

theorem Account.addTable (hf : free = f :: rest) (hd : d ∈ b.live)
    (hnone : ¬HasTable dirs d v) : Account kend rest (addTable dirs d (4096 * v) f) b := by
  have hentry := entry_addTable hnone f
  have hslot : dirs d (pdx (4096 * v)) = none := by simpa [HasTable] using hnone
  refine ⟨h.kend_pos, (List.nodup_cons.1 (hf ▸ h.nodup)).2, ?_, fun e he i => ?_, fun e w => ?_,
    fun e i hi => ?_⟩
  · refine h.exact.alloc (p := .table d (pdx (4096 * v))) (b := f) ?_
      (unused_of_mem (hf ▸ List.mem_cons_self)) (fun c => ?_) (used_taken hf h.nodup)
    · rw [target, hslot]
      rfl
    · cases c with
      | table e i =>
        rw [target, target, Xv6.addTable]
        by_cases he : e = d
        · subst he
          rw [Function.update_self]
          by_cases hi : i = pdx (4096 * v)
          · subst hi
            rw [Function.update_self, if_pos rfl]
            rfl
          · rw [Function.update_of_ne hi, if_neg fun hc => hi (Cell.table.inj hc).2]
        · rw [Function.update_of_ne he, if_neg fun hc => he (Cell.table.inj hc).1]
      | page e w =>
        refine Eq.trans ?_ (if_neg fun hc => by cases hc).symm
        rw [target, target, hentry]
      | _ => rfl
  · have hne : e ≠ d := fun hc => he (hc ▸ hd)
    rw [Xv6.addTable, Function.update_of_ne hne]
    exact h.dead e he i
  · rw [hentry]
    exact h.cleared e w
  · have hne : i ≠ pdx (4096 * v) := by
      have hlt : pdx (4096 * v) < 1024 := Nat.mod_lt _ (by decide)
      omega
    rw [Xv6.addTable]
    by_cases he : e = d
    · subst he
      rw [Function.update_self, Function.update_of_ne hne]
      exact h.bounded e i hi
    · rw [Function.update_of_ne he]
      exact h.bounded e i hi

end

/-! ### Storing entries -/

theorem table_store (dirs : ℕ → PgDir) (d a : ℕ) (x : Pte) (e i : ℕ) :
    (store dirs d a x e i).elim 0 PageTable.frame = (dirs e i).elim 0 PageTable.frame := by
  unfold store
  cases ht : dirs d (pdx a) with
  | none => rfl
  | some t =>
    dsimp only
    by_cases he : e = d
    · subst he
      rw [Function.update_self]
      by_cases hi : i = pdx a
      · subst hi
        rw [Function.update_self, ht]
        rfl
      · rw [Function.update_of_ne hi]
    · rw [Function.update_of_ne he]

theorem Account.live (h : Account kend free dirs b) (ht : HasTable dirs d v) : d ∈ b.live := by
  by_contra hd
  rw [HasTable, h.dead d hd] at ht
  cases ht

theorem Account.dead_store (h : Account kend free dirs b) (ht : HasTable dirs d v) (x : Pte) :
    ∀ e, e ∉ b.live → ∀ i, store dirs d (4096 * v) x e i = none := by
  intro e he i
  have hne : e ≠ d := fun hc => he (hc ▸ h.live ht)
  rw [store_of_ne hne]
  exact h.dead e he i

theorem target_store (b b' : Books) (ht : HasTable dirs d v) (hv : v < userPages)
    (hlive : b'.live = b.live) (houtside : b'.outside = b.outside) {c : Cell} (hc : c ≠ .hand) :
    target (store dirs d (4096 * v) x) b' c = if c = .page d v then
      (if flagOn x pteP = true then frameOf x else 0) else target dirs b c := by
  have hlt : ∀ {w}, w < userPages → w < 0x100000 := fun hw => lt_trans hw (by decide)
  cases c with
  | dir e =>
    refine Eq.trans ?_ (if_neg fun hc => by cases hc).symm
    rw [target, target, hlive]
  | table e i =>
    refine Eq.trans ?_ (if_neg fun hc => by cases hc).symm
    exact table_store dirs d _ x e i
  | page e w =>
    rw [target, target]
    by_cases hw : w < userPages
    · rw [entry_store ht (hlt hv) x e (hlt hw)]
      by_cases heq : e = d ∧ w = v
      · obtain ⟨rfl, rfl⟩ := heq
        simp only [and_self, if_true, hw, true_and]
      · rw [if_neg heq, if_neg fun hc => heq (Cell.page.inj hc)]
    · have hne : Cell.page e w ≠ .page d v := fun hc => hw (by rwa [(Cell.page.inj hc).2])
      rw [if_neg fun hc => hw hc.1, if_neg hne, if_neg fun hc => hw hc.1]
  | outside g =>
    refine Eq.trans ?_ (if_neg fun hc => by cases hc).symm
    rw [target, target, houtside]
  | hand => exact absurd rfl hc

section

variable (h : Account kend free dirs b)

include h

theorem Account.bounded_store (a : ℕ) (x : Pte) : ∀ e i, 1024 ≤ i → store dirs d a x e i = none := by
  intro e i hi
  have hsame := isNone_store dirs d a x e i
  rw [h.bounded e i hi] at hsame
  exact Option.isNone_iff_eq_none.1 hsame

theorem Account.cleared_store (ht : HasTable dirs d v) (hv : v < 0x100000)
    (hx : v < userPages → flagOn x pteP = false → frameOf x = 0) :
    ∀ e w, w < userPages → flagOn (entry (store dirs d (4096 * v) x) e w) pteP = false →
      frameOf (entry (store dirs d (4096 * v) x) e w) = 0 := by
  intro e w hw
  rw [entry_store ht hv x e (lt_trans hw (by decide))]
  split_ifs with heq
  · rw [heq.2] at hw
    exact hx hw
  · exact h.cleared e w hw

theorem Account.map (hhand : b.hand = some f) (ht : HasTable dirs d v)
    (hv : v < userPages) (habsent : flagOn (entry dirs d v) pteP = false) (hx : flagOn x pteP = true)
    (hframe : frameOf x = f) (hf : f ≠ 0) :
    Account kend free (store dirs d (4096 * v) x) { b with hand := none } := by
  have hfull : target dirs b .hand = f := by
    rw [target, hhand]
    rfl
  have hnull : target dirs b (.page d v) = 0 := if_neg fun hc => by
    rw [habsent] at hc
    cases hc.2
  refine ⟨h.kend_pos, h.nodup, ?_, h.dead_store ht x,
    h.cleared_store ht (lt_trans hv (by decide)) fun _ hc => (by cases hx.symm.trans hc),
    h.bounded_store _ x⟩
  refine h.exact.move (p := .hand) (q := .page d v) (by rwa [hfull]) hnull fun c => ?_
  by_cases hc : c = .hand
  · subst hc
    rw [if_neg fun hc => by cases hc]
    rw [if_pos rfl]
    rfl
  · rw [target_store b { b with hand := none } ht hv rfl rfl hc, if_pos hx, hframe, hfull, if_neg hc]

theorem Account.drop (ht : HasTable dirs d v) (hv : v < userPages)
    (hpresent : flagOn (entry dirs d v) pteP = true) (hx : flagOn x pteP = false) (hframe : frameOf x = 0)
    (hf : frameOf (entry dirs d v) ≠ 0) :
    Account kend (frameOf (entry dirs d v) :: free) (store dirs d (4096 * v) x) b := by
  have hfull : target dirs b (.page d v) = frameOf (entry dirs d v) := if_pos ⟨hv, hpresent⟩
  have hnot : frameOf (entry dirs d v) ∉ free := by
    rw [← hfull]
    exact h.not_mem (by rwa [hfull])
  refine ⟨h.kend_pos, List.nodup_cons.2 ⟨hnot, h.nodup⟩, ?_, h.dead_store ht x,
    h.cleared_store ht (lt_trans hv (by decide)) fun _ _ => hframe, h.bounded_store _ x⟩
  refine h.exact.release (p := .page d v) (by rwa [hfull]) (fun c => ?_) fun c => ?_
  · by_cases hc : c = .hand
    · subst hc
      rw [if_neg fun hc => by cases hc]
      rfl
    · rw [target_store b b ht hv rfl rfl hc, if_neg (show ¬flagOn x pteP = true by rw [hx]; decide)]
  · rw [hfull]
    exact used_given hnot c

theorem Account.store (ht : HasTable dirs d v) (hv : v < 0x100000)
    (hx : v < userPages → flagOn x pteP = flagOn (entry dirs d v) pteP ∧
      frameOf x = frameOf (entry dirs d v)) : Account kend free (store dirs d (4096 * v) x) b := by
  have hlt : ∀ {w}, w < userPages → w < 0x100000 := fun hw => lt_trans hw (by decide)
  refine ⟨h.kend_pos, h.nodup, h.exact.congr (fun c => ?_) fun _ => rfl, h.dead_store ht x,
    h.cleared_store ht hv fun hu hc => ?_, h.bounded_store _ x⟩
  · cases c with
    | table e i => exact table_store dirs d _ x e i
    | page e w =>
      rw [target, target]
      by_cases hw : w < userPages
      · rw [entry_store ht hv x e (hlt hw)]
        by_cases heq : e = d ∧ w = v
        · rw [if_pos heq]
          obtain ⟨rfl, rfl⟩ := heq
          rw [(hx hw).1, (hx hw).2]
        · rw [if_neg heq]
      · rw [if_neg fun hc => hw hc.1, if_neg fun hc => hw hc.1]
    | _ => rfl
  · obtain ⟨hp, hframe⟩ := hx hu
    rw [hframe]
    exact h.cleared d v hu (hp.symm.trans hc)

end

/-! ### Giving back a directory -/

/-- The directory `d` without the page table in slot `i`. -/
def cut (dirs : ℕ → PgDir) (d i : ℕ) : ℕ → PgDir :=
  Function.update dirs d (Function.update (dirs d) i none)

theorem cut_apply (dirs : ℕ → PgDir) (d i e j : ℕ) :
    cut dirs d i e j = if e = d ∧ j = i then none else dirs e j := by
  rw [cut]
  by_cases he : e = d
  · subst he
    rw [Function.update_self]
    by_cases hj : j = i
    · subst hj
      rw [Function.update_self, if_pos ⟨rfl, rfl⟩]
    · rw [Function.update_of_ne hj, if_neg fun hc => hj hc.2]
  · rw [Function.update_of_ne he, if_neg fun hc => he hc.1]

theorem entry_cut (dirs : ℕ → PgDir) (d i e w : ℕ) :
    entry (cut dirs d i) e w = if e = d ∧ pdx (4096 * w) = i then 0 else entry dirs e w := by
  rw [entry, entry, walk, walk, cut_apply]
  split_ifs <;> rfl

section

variable (h : Account kend free dirs b)

include h

theorem Account.dropTable {i : ℕ} {t : PageTable} (ht : dirs d i = some t)
    (hempty : ∀ w, w < userPages → flagOn (entry dirs d w) pteP = false)
    (hf : t.frame ≠ 0) : Account kend (t.frame :: free) (cut dirs d i) b := by
  have hfull : target dirs b (.table d i) = t.frame := by
    rw [target, ht]
    rfl
  have hnot : t.frame ∉ free := by
    rw [← hfull]
    exact h.not_mem (by rwa [hfull])
  refine ⟨h.kend_pos, List.nodup_cons.2 ⟨hnot, h.nodup⟩, ?_, fun e he j => ?_, fun e w hw => ?_,
    fun e j hj => ?_⟩
  · refine h.exact.release (p := .table d i) (by rwa [hfull]) (fun c => ?_) fun c => ?_
    · cases c with
      | table e j =>
        rw [target, target, cut_apply]
        by_cases heq : e = d ∧ j = i
        · obtain ⟨rfl, rfl⟩ := heq
          rw [if_pos ⟨rfl, rfl⟩, if_pos rfl]
          rfl
        · rw [if_neg heq, if_neg fun hc => heq (Cell.table.inj hc)]
      | page e w =>
        refine Eq.trans ?_ (if_neg fun hc => by cases hc).symm
        rw [target, target, entry_cut]
        by_cases heq : e = d ∧ pdx (4096 * w) = i
        · obtain ⟨rfl, hi⟩ := heq
          have habsent : ¬(w < userPages ∧ flagOn (entry dirs e w) pteP = true) := fun hc => by
            rw [hempty w hc.1] at hc
            cases hc.2
          have hzero : ¬(w < userPages ∧ flagOn 0 pteP = true) := fun hc => absurd hc.2 (by decide)
          rw [if_pos (show e = e ∧ pdx (4096 * w) = i from ⟨rfl, hi⟩), if_neg hzero, if_neg habsent]
        · rw [if_neg heq]
      | _ => rfl
    · rw [hfull]
      exact used_given hnot c
  · rw [cut_apply]
    split_ifs
    · rfl
    · exact h.dead e he j
  · rw [entry_cut]
    split_ifs
    · exact fun _ => rfl
    · exact h.cleared e w hw
  · rw [cut_apply]
    split_ifs
    · rfl
    · exact h.bounded e j hj

theorem Account.dropDir (hd : d ∈ b.live) (hempty : ∀ i, dirs d i = none)
    (hf : d ≠ 0) : Account kend (d :: free) dirs { b with live := b.live.erase d } := by
  have hfull : target dirs b (.dir d) = d := if_pos hd
  have hnot : d ∉ free := by
    have hnot := h.not_mem (c := .dir d) (by rwa [hfull])
    rwa [hfull] at hnot
  refine ⟨h.kend_pos, List.nodup_cons.2 ⟨hnot, h.nodup⟩, ?_, fun e he i => ?_, h.cleared, h.bounded⟩
  · refine h.exact.release (p := .dir d) (by rwa [hfull]) (fun c => ?_) fun c => ?_
    · cases c with
      | dir e =>
        rw [target, target, place_erase]
        simp only [Cell.dir.injEq]
      | _ => rfl
    · rw [hfull]
      exact used_given hnot c
  · by_cases hed : e = d
    · rw [hed]
      exact hempty i
    · exact h.dead e (fun hc => he (Finset.mem_erase.2 ⟨hed, hc⟩)) i

/-! ### The rest of the kernel -/

theorem Account.takeOutside (hf : free = f :: rest) :
    Account kend rest dirs { b with outside := insert f b.outside } := by
  have hmem : f ∈ free := hf ▸ List.mem_cons_self
  have hnew : f ∉ b.outside := by
    intro hin
    have htarget : target dirs b (.outside f) = f := if_pos hin
    have hnot := h.not_mem (c := .outside f) (by rw [htarget]; exact h.pos hmem)
    rw [htarget] at hnot
    exact hnot hmem
  refine ⟨h.kend_pos, (List.nodup_cons.1 (hf ▸ h.nodup)).2, ?_, h.dead, h.cleared, h.bounded⟩
  refine h.exact.alloc (p := .outside f) (b := f) (if_neg hnew) (unused_of_mem hmem) (fun c => ?_)
    (used_taken hf h.nodup)
  cases c with
  | outside e =>
    rw [target, target, place_insert]
    simp only [Cell.outside.injEq]
  | _ => rfl

theorem Account.setAside (hhand : b.hand = some f) (hf : f ≠ 0) :
    Account kend free dirs { b with outside := insert f b.outside, hand := none } := by
  have hfull : target dirs b .hand = f := by
    rw [target, hhand]
    rfl
  have hnew : f ∉ b.outside := by
    intro hin
    have htarget : target dirs b (.outside f) = f := if_pos hin
    cases h.exact.once (by rwa [hfull]) (hfull.trans htarget.symm)
  refine ⟨h.kend_pos, h.nodup, ?_, h.dead, h.cleared, h.bounded⟩
  refine h.exact.move (p := .hand) (q := .outside f) (by rwa [hfull]) (if_neg hnew) fun c => ?_
  cases c with
  | outside e =>
    rw [hfull, target, target, place_insert]
    simp only [Cell.outside.injEq, reduceCtorEq, if_false]
  | hand => rfl
  | _ => rfl

theorem Account.giveOutside (hmem : f ∈ b.outside) (hf : f ≠ 0) :
    Account kend (f :: free) dirs { b with outside := b.outside.erase f } := by
  have hfull : target dirs b (.outside f) = f := if_pos hmem
  have hnot : f ∉ free := by
    have hnot := h.not_mem (c := .outside f) (by rwa [hfull])
    rwa [hfull] at hnot
  refine ⟨h.kend_pos, List.nodup_cons.2 ⟨hnot, h.nodup⟩, ?_, h.dead, h.cleared, h.bounded⟩
  refine h.exact.release (p := .outside f) (by rwa [hfull]) (fun c => ?_) fun c => ?_
  · cases c with
    | outside e =>
      rw [target, target, place_erase]
      simp only [Cell.outside.injEq]
    | _ => rfl
  · rw [hfull]
    exact used_given hnot c

end

end

end Accounting

end Xv6
