import Mathlib.Data.Finset.Card
import Mathlib.Order.Interval.Finset.Nat
import Xv6.Lib.Run
import Xv6.AddressSpace
import Xv6.Frames

/-!
# Building page directories

`mappages` over a range of pages and `setupkvm`.  A directory under construction takes frames from the
free list for page tables only, so `missing`, the number of directory slots still without a page
table, says how many frames are enough.
-/

namespace Xv6

open Machine

/-- The number of slots of `S` without a page table. -/
def missing (dirs : ℕ → PgDir) (d : ℕ) (S : Finset ℕ) : ℕ :=
  (S.filter fun i => (dirs d i).isNone).card

/-- Work on directory `d` led from `m` to `m'`: nothing but `d` and the free list changed, and page
tables were only added. -/
structure Extends (d : ℕ) (m m' : Machine) : Prop where
  same : m' = { m with dirs := m'.dirs, freelist := m'.freelist }
  other : ∀ d', d' ≠ d → m'.dirs d' = m.dirs d'
  table : ∀ v, HasTable m.dirs d v → HasTable m'.dirs d v
  free : m'.freelist <:+ m.freelist

/-- Every frame taken became a page table in a slot of `S`. -/
structure Builds (d : ℕ) (S : Finset ℕ) (m m' : Machine) : Prop extends Extends d m m' where
  budget : m'.freelist.length + missing m.dirs d S = m.freelist.length + missing m'.dirs d S

namespace Extends

variable {d : ℕ} {m m' m'' : Machine}

theorem refl (d : ℕ) (m : Machine) : Extends d m m :=
  ⟨rfl, fun _ _ => rfl, fun _ => id, List.suffix_refl _⟩

theorem trans (h : Extends d m m') (h' : Extends d m' m'') : Extends d m m'' := by
  refine ⟨?_, fun d' hd => (h'.other d' hd).trans (h.other d' hd),
    fun v hv => h'.table v (h.table v hv), h'.free.trans h.free⟩
  rw [h'.same, h.same]

theorem entry_other (h : Extends d m m') {d' : ℕ} (hd : d' ≠ d) (v : ℕ) :
    entry m'.dirs d' v = entry m.dirs d' v := by
  simp only [entry, walk, h.other d' hd]

theorem setPte (d : ℕ) (m : Machine) (va : ℕ) (pte : Pte) : Extends d m (m.setPte d va pte) where
  same := rfl
  other d' hd := by
    show store m.dirs d va pte d' = m.dirs d'
    unfold store
    cases m.dirs d (pdx va) with
    | none => rfl
    | some t => exact Function.update_of_ne hd _ _
  table v hv := (hasTable_store m.dirs d va pte d v).2 hv
  free := List.suffix_refl _

end Extends

namespace Builds

variable {d : ℕ} {S : Finset ℕ} {m m' m'' : Machine}

theorem refl (d : ℕ) (S : Finset ℕ) (m : Machine) : Builds d S m m := ⟨Extends.refl d m, rfl⟩

theorem trans (h : Builds d S m m') (h' : Builds d S m' m'') : Builds d S m m'' := by
  refine ⟨h.toExtends.trans h'.toExtends, ?_⟩
  have h1 := h.budget
  have h2 := h'.budget
  omega

theorem enough (h : Builds d S m m') (hm : missing m.dirs d S ≤ m.freelist.length) :
    missing m'.dirs d S ≤ m'.freelist.length := by
  have := h.budget
  omega

end Builds

section

variable {d v f : ℕ} {rest : List ℕ} {S : Finset ℕ} {m : Machine} {perm : Pte} {m' : Machine} {a : ℕ}

theorem isNone_store (dirs : ℕ → PgDir) (d va : ℕ) (pte : Pte) (d' i : ℕ) :
    (store dirs d va pte d' i).isNone = (dirs d' i).isNone := by
  unfold store
  cases ht : dirs d (pdx va) with
  | none => rfl
  | some t =>
    by_cases hd : d' = d
    · subst hd
      by_cases hi : i = pdx va
      · simp [hi, ht]
      · simp [hi]
    · simp [hd]

theorem Builds.setPte (d : ℕ) (S : Finset ℕ) (m : Machine) (va : ℕ) (pte : Pte) :
    Builds d S m (m.setPte d va pte) := by
  refine ⟨Extends.setPte d m va pte, ?_⟩
  have hmissing : missing (store m.dirs d va pte) d S = missing m.dirs d S := by
    simp only [missing, isNone_store]
  show m.freelist.length + _ = m.freelist.length + missing (store m.dirs d va pte) d S
  rw [hmissing]

theorem Extends.addTable (hg : m.freelist = f :: rest) :
    Extends d m { m with dirs := Xv6.addTable m.dirs d (4096 * v) f, freelist := rest } := by
  refine ⟨rfl, fun d' hd => Function.update_of_ne hd _ _, fun w hw => ?_, ?_⟩
  · exact (hasTable_addTable m.dirs d _ f d w).2 (Or.inl hw)
  · rw [hg]
    exact List.suffix_cons f rest

theorem walkpgdirAlloc_builds (hi : v / 1024 ∈ S) (hv : v < 0x100000)
    (hrun : m.walkpgdirAlloc d (4096 * v) = some m') : Builds d S m m' := by
  obtain ⟨-, rfl⟩ | ⟨hnone, g, rest, hf, rfl⟩ := walkpgdirAlloc_cases hrun
  · exact Builds.refl d S _
  have hidx : pdx (4096 * v) ∈ S := by
    rw [pdx_page, Nat.mod_eq_of_lt (by omega)]
    exact hi
  have hmem : pdx (4096 * v) ∈ S.filter fun i => (m.dirs d i).isNone := by
    simp [hidx, hnone]
  have herase : (S.filter fun i => (addTable m.dirs d (4096 * v) g d i).isNone) =
      (S.filter fun i => (m.dirs d i).isNone).erase (pdx (4096 * v)) := by
    ext i
    by_cases hip : i = pdx (4096 * v)
    · simp [addTable, hip]
    · simp [addTable, hip]
  have hmissing : missing (addTable m.dirs d (4096 * v) g) d S + 1 = missing m.dirs d S := by
    rw [missing, herase, Finset.card_erase_add_one hmem, missing]
  refine ⟨Extends.addTable hf, ?_⟩
  rw [hf, List.length_cons]
  show rest.length + _ = _ + missing (addTable m.dirs d (4096 * v) g) d S
  omega

theorem walkpgdirAlloc_isSome (hi : v / 1024 ∈ S) (hv : v < 0x100000)
    (hfree : missing m.dirs d S ≤ m.freelist.length) : m.walkpgdirAlloc d (4096 * v) ≠ none := by
  intro hno
  have hnone : m.dirs d (pdx (4096 * v)) = none := by
    unfold walkpgdirAlloc at hno
    split at hno
    · cases hno
    · assumption
  have hempty : m.freelist = [] := by
    cases hf : m.freelist with
    | nil => rfl
    | cons g rest => simp [walkpgdirAlloc, hnone, kalloc, hf] at hno
  -- the slot of the page is one of the missing ones
  have hmem : pdx (4096 * v) ∈ S.filter fun i => (m.dirs d i).isNone := by
    rw [Finset.mem_filter, hnone, pdx_page, Nat.mod_eq_of_lt (by omega)]
    exact ⟨hi, rfl⟩
  have hpos : 0 < missing m.dirs d S := Finset.card_pos.2 ⟨_, hmem⟩
  rw [hempty, List.length_nil] at hfree
  omega

theorem walkpgdirAlloc_ok (hrun : m.walkpgdirAlloc d (4096 * v) = some m') :
    Extends d m m' ∧ HasTable m'.dirs d v ∧ ∀ d' w, entry m'.dirs d' w = entry m.dirs d' w := by
  obtain ⟨ht, rfl⟩ | ⟨hnone, g, rest, hf, rfl⟩ := walkpgdirAlloc_cases hrun
  · exact ⟨Extends.refl d _, Option.isSome_iff_ne_none.2 ht, fun _ _ => rfl⟩
  · have ht : ¬HasTable m.dirs d v := by simp [HasTable, hnone]
    exact ⟨Extends.addTable hf, (hasTable_addTable m.dirs d _ g d v).2 (Or.inr ⟨rfl, rfl⟩),
      fun d' w => entry_addTable ht g d' w⟩

/-! ### The loop of `mappages` -/

section
variable {count : ℕ} {ok : Bool}

/-- What holds when the loop ends, or stops for lack of a page table, and of a state if it holds once the next
page was mapped, holds before it. -/
theorem mapLoop_induct {motive : ℕ → ℕ → Machine → Prop} (hrun : mapLoop d perm count a f m = .ok (ok, m'))
    (ha : 0 < count → a = 4096 * v) (hend : v + count ≤ 0x100000)
    (done : ok = true → motive (v + count) (f + count) m')
    (stop : ∀ w g, v ≤ w → w < v + count → ok = false → m'.walkpgdirAlloc d (4096 * w) = none → motive w g m')
    (step : ∀ w g m m₁, v ≤ w → w < v + count → m.walkpgdirAlloc d (4096 * w) = some m₁ →
      HasTable m₁.dirs d w → flagOn (entry m₁.dirs d w) pteP = false →
      motive (w + 1) (g + 1) (m₁.setPte d (4096 * w) (mapPte g perm)) → motive w g m) : motive v f m := by
  induction count generalizing v f a m with
  | zero =>
    cases hrun
    exact done rfl
  | succ count ih =>
    obtain rfl := ha (Nat.succ_pos count)
    rw [mapLoop] at hrun
    cases halloc : m.walkpgdirAlloc d (4096 * v) with
    | none =>
      rw [halloc] at hrun
      cases hrun
      exact stop v f le_rfl (by omega) rfl halloc
    | some m₁ =>
      obtain ⟨-, ht, -⟩ := walkpgdirAlloc_ok halloc
      simp only [halloc, walkpgdir, walk_eq_entry ht] at hrun
      split at hrun
      · cases hrun
      · rename_i hp
        refine step v f m m₁ le_rfl (by omega) halloc ht (Bool.eq_false_of_not_eq_true hp) ?_
        have hv : v + (count + 1) = v + 1 + count := by omega
        have hf : f + (count + 1) = f + 1 + count := by omega
        rw [hv] at stop step
        rw [hv, hf] at done
        exact ih hrun (fun _ => by omega) (by omega) done (fun w g hw => stop w g (by omega))
          fun w g m m₁ hw => step w g m m₁ (by omega)

theorem mapLoop_ok (count : ℕ) (hrun : mapLoop d perm count a f m = .ok (ok, m'))
    (ha : 0 < count → a = 4096 * v) (hend : v + count ≤ 0x100000) :
    Extends d m m' ∧ ∀ w < 0x100000, w < v ∨ v + count ≤ w →
      entry m'.dirs d w = entry m.dirs d w := by
  refine mapLoop_induct (motive := fun v' _ m => Extends d m m' ∧ ∀ w < 0x100000, w < v' ∨ v + count ≤ w →
      entry m'.dirs d w = entry m.dirs d w) hrun ha hend (fun _ => ⟨Extends.refl d _, fun _ _ _ => rfl⟩)
    (fun _ _ _ _ _ _ => ⟨Extends.refl d _, fun _ _ _ => rfl⟩) fun u g m m₁ _ _ halloc ht _ ih => ?_
  obtain ⟨hx, -, he⟩ := walkpgdirAlloc_ok halloc
  refine ⟨hx.trans ((Extends.setPte d m₁ _ _).trans ih.1), fun w hw hout => ?_⟩
  rw [ih.2 w hw (by omega)]
  show entry (store m₁.dirs d (4096 * u) _) d w = _
  rw [entry_store_ne ht (by omega) _ hw (by omega), he]

theorem mapLoop_builds (count : ℕ) (hrun : mapLoop d perm count a f m = .ok (ok, m'))
    (ha : 0 < count → a = 4096 * v) (hend : v + count ≤ 0x100000)
    (hS : ∀ w, v ≤ w → w < v + count → w / 1024 ∈ S) :
    Builds d S m m' ∧ (missing m.dirs d S ≤ m.freelist.length → ok = true) := by
  refine mapLoop_induct (motive := fun _ _ m => Builds d S m m' ∧ (missing m.dirs d S ≤ m.freelist.length →
      ok = true)) hrun ha hend (fun hok => ⟨Builds.refl d S _, fun _ => hok⟩)
    (fun w g hw hlt _ hnone => ⟨Builds.refl d S _, fun hfree => ?_⟩) fun w g m m₁ hw hlt halloc ht _ ih => ?_
  · exact absurd hnone (walkpgdirAlloc_isSome (hS w hw hlt) (by omega) hfree)
  · have hb := (walkpgdirAlloc_builds (hS w hw hlt) (by omega) halloc).trans
      (Builds.setPte d S m₁ (4096 * w) (mapPte g perm))
    exact ⟨hb.trans ih.1, fun hfree => ih.2 (hb.enough hfree)⟩

theorem mapLoop_returns (f : ℕ) (perm : Pte) (count : ℕ) (ha : 0 < count → a = 4096 * v)
    (hend : v + count ≤ 0x100000)
    (habs : ∀ w, v ≤ w → w < v + count → flagOn (entry m.dirs d w) pteP = false) :
    ∃ ok m', mapLoop d perm count a f m = .ok (ok, m') := by
  induction count generalizing v f a m with
  | zero => exact ⟨true, m, rfl⟩
  | succ count ih =>
    obtain rfl := ha (Nat.succ_pos count)
    rw [mapLoop]
    cases halloc : m.walkpgdirAlloc d (4096 * v) with
    | none => exact ⟨false, m, rfl⟩
    | some m₁ =>
      obtain ⟨-, ht, he⟩ := walkpgdirAlloc_ok halloc
      have hp : flagOn (entry m₁.dirs d v) pteP = false := by
        rw [he]
        exact habs v le_rfl (by omega)
      simp only [walkpgdir, walk_eq_entry ht, hp, Bool.false_eq_true, if_false]
      refine ih (v := v + 1) (f + 1) (fun _ => by omega) (by omega) fun w hw hlt => ?_
      show flagOn (entry (store m₁.dirs d (4096 * v) (mapPte f perm)) d w) pteP = false
      rw [entry_store_ne ht (by omega) _ (by omega) (by omega), he]
      exact habs w (by omega) (by omega)

/-- However `mapLoop` ends, it mapped the first `k` pages of its range and changed no other entry. -/
theorem mapLoop_prefix (count : ℕ) (hrun : mapLoop d perm count a f m = .ok (ok, m'))
    (ha : 0 < count → a = 4096 * v) (hend : v + count ≤ 0x100000) :
    ∃ k ≤ count, (ok = true ↔ k = count) ∧ ∀ w < 0x100000, entry m'.dirs d w =
      if v ≤ w ∧ w < v + k then mapPte (f + (w - v)) perm else entry m.dirs d w := by
  have hloop : ∃ k, v + k ≤ v + count ∧ (ok = true ↔ v + k = v + count) ∧ ∀ w < 0x100000,
      entry m'.dirs d w = if v ≤ w ∧ w < v + k then mapPte (f + (w - v)) perm else entry m.dirs d w := by
    refine mapLoop_induct (motive := fun u g m => ∃ k, u + k ≤ v + count ∧ (ok = true ↔ u + k = v + count) ∧
        ∀ w < 0x100000, entry m'.dirs d w =
          if u ≤ w ∧ w < u + k then mapPte (g + (w - u)) perm else entry m.dirs d w) hrun ha hend
      (fun hok => ⟨0, le_rfl, by simp [hok], fun w _ => by rw [if_neg (by omega)]⟩)
      (fun u g _ hlt hok _ => ⟨0, by omega, by simp [hok]; omega, fun w _ => by rw [if_neg (by omega)]⟩)
      fun u g m m₁ _ _ halloc ht _ ih => ?_
    obtain ⟨-, -, he⟩ := walkpgdirAlloc_ok halloc
    obtain ⟨k, hk, hok, hentry⟩ := ih
    refine ⟨k + 1, by omega, by rw [hok]; omega, fun w hw => ?_⟩
    rw [hentry w hw]
    show (if _ then _ else entry (store m₁.dirs d (4096 * u) (mapPte g perm)) d w) = _
    rw [entry_store ht (by omega) _ d hw, he]
    by_cases hwu : w = u
    · subst hwu
      rw [if_neg (by omega), if_pos ⟨rfl, rfl⟩, if_pos (by omega), Nat.sub_self, Nat.add_zero]
    · rw [if_neg (show ¬ (d = d ∧ w = u) from fun hc => hwu hc.2)]
      by_cases hin : u + 1 ≤ w ∧ w < u + 1 + k
      · rw [if_pos hin, if_pos (by omega)]
        congr 1
        omega
      · rw [if_neg hin, if_neg (by omega)]
  obtain ⟨k, hk, hok, hentry⟩ := hloop
  exact ⟨k, by omega, by rw [hok]; omega, hentry⟩

theorem mapLoop_true (count : ℕ)
    (hrun : mapLoop d perm count a f m = .ok (true, m')) (ha : 0 < count → a = 4096 * v)
    (hend : v + count ≤ 0x100000) (hS : ∀ w, v ≤ w → w < v + count → w / 1024 ∈ S) :
    Builds d S m m' ∧ (∀ w, v ≤ w → w < v + count → HasTable m'.dirs d w) ∧
      ∀ w < 0x100000, entry m'.dirs d w =
        if v ≤ w ∧ w < v + count then mapPte (f + (w - v)) perm else entry m.dirs d w := by
  obtain ⟨k, -, hk, hentry⟩ := mapLoop_prefix count hrun ha hend
  obtain rfl := hk.1 rfl
  refine ⟨(mapLoop_builds k hrun ha hend hS).1, fun w hw hwk => hasTable_of_present ?_, hentry⟩
  rw [hentry w (by omega), if_pos ⟨hw, hwk⟩]
  exact mapPte_present perm

theorem mapLoop_spec (f : ℕ) (perm : Pte) (count : ℕ) (ha : 0 < count → a = 4096 * v)
    (hend : v + count ≤ 0x100000) (hS : ∀ w, v ≤ w → w < v + count → w / 1024 ∈ S)
    (hfree : missing m.dirs d S ≤ m.freelist.length)
    (habs : ∀ w, v ≤ w → w < v + count → flagOn (entry m.dirs d w) pteP = false) :
    ∃ m', mapLoop d perm count a f m = .ok (true, m') ∧ Builds d S m m' ∧
      ∀ w < 0x100000, entry m'.dirs d w =
        if v ≤ w ∧ w < v + count then mapPte (f + (w - v)) perm else entry m.dirs d w := by
  obtain ⟨ok, m', hrun⟩ := mapLoop_returns f perm count ha hend habs
  obtain rfl := (mapLoop_builds count hrun ha hend hS).2 hfree
  obtain ⟨hb, -, hentry⟩ := mapLoop_true count hrun ha hend hS
  exact ⟨m', hrun, hb, hentry⟩

end

theorem mappages_eq {count : ℕ} (hc : 0 < count) (hend : v + count ≤ 0x100000) :
    m.mappages d (4096 * v) (4096 * count) f perm = mapLoop d perm count (4096 * v) f m := by
  have ha : pgRoundDown (4096 * v) = 4096 * v := by
    simp only [pgRoundDown]
    omega
  have hlast : pgRoundDown ((4096 * v + 4096 * count + 0x100000000 - 1) % 0x100000000) =
      4096 * (v + count - 1) := by
    simp only [pgRoundDown]
    omega
  have hcount : (4096 * (v + count - 1) + 0x100000000 - 4096 * v) % 0x100000000 / 4096 + 1 =
      count := by
    omega
  simp only [mappages, ha, hlast, hcount]

end

/-! ### The kernel part -/

def kernelSlots : Finset ℕ := Finset.Icc 512 567 ∪ Finset.Icc 1016 1023

theorem kernelSlots_card : kernelSlots.card = 64 := by
  have hdisj : Disjoint (Finset.Icc 512 567) (Finset.Icc 1016 1023) := by
    rw [Finset.disjoint_left]
    intro i hi hj
    rw [Finset.mem_Icc] at hi hj
    omega
  rw [kernelSlots, Finset.card_union_of_disjoint hdisj, Nat.card_Icc, Nat.card_Icc]

/-- Mappings of `kmap`'s kind: whole pages of the kernel part in ascending order, none for the
user. -/
def Ascending : ℕ → List (ℕ × ℕ × ℕ × Pte) → Prop
  | _, [] => True
  | lo, (virt, _, size, perm) :: rest => ∃ v count, virt = 4096 * v ∧ size = 4096 * count ∧
      0 < count ∧ lo ≤ v ∧ v + count ≤ 0x100000 ∧
      (∀ w, v ≤ w → w < v + count → w / 1024 ∈ kernelSlots) ∧
      flagOn perm pteU = false ∧ flagOn perm ptePG = false ∧ Ascending (v + count) rest

theorem kmap_ascending {kdata : ℕ} (h : 0x100 < kdata ∧ kdata < phystopFrame) :
    Ascending userPages (kmap kdata) := by
  have hslot : ∀ w, 0x80000 ≤ w → w < 0x8E000 → w / 1024 ∈ kernelSlots := by
    intro w hlo hhi
    rw [kernelSlots, Finset.mem_union, Finset.mem_Icc, Finset.mem_Icc]
    omega
  have hdev : ∀ w, 0xFE000 ≤ w → w < 0x100000 → w / 1024 ∈ kernelSlots := by
    intro w hlo hhi
    rw [kernelSlots, Finset.mem_union, Finset.mem_Icc, Finset.mem_Icc]
    omega
  simp only [phystopFrame] at h
  refine ⟨0x80000, 0x100, rfl, rfl, by omega, by decide, by omega,
    fun w hlo hhi => hslot w hlo (by omega), by decide, by decide, ?_⟩
  refine ⟨0x80100, kdata - 0x100, rfl, by omega, by omega, by omega, by omega,
    fun w hlo hhi => hslot w (by omega) (by omega), by decide, by decide, ?_⟩
  refine ⟨0x80000 + kdata, 0xE000 - kdata, by simp only [kernBase]; omega, by omega, by omega,
    by omega, by omega, fun w hlo hhi => hslot w (by omega) (by omega), by decide, by decide, ?_⟩
  exact ⟨0xFE000, 0x2000, rfl, rfl, by omega, by omega, by omega,
    fun w hlo hhi => hdev w hlo (by omega), by decide, by decide, trivial⟩

/-- No entry of the kernel part of `d` is for the user or paged out. -/
def KernelOnly (dirs : ℕ → PgDir) (d : ℕ) : Prop :=
  ∀ v, userPages ≤ v → v < 0x100000 →
    flagOn (entry dirs d v) pteU = false ∧ flagOn (entry dirs d v) ptePG = false

variable {d lo : ℕ} {m m' : Machine} {l : List (ℕ × ℕ × ℕ × Pte)}

theorem KernelOnly.mapLoop {count v a f : ℕ} {perm : Pte} {ok : Bool} (hk : KernelOnly m.dirs d)
    (hU : flagOn perm pteU = false) (hPG : flagOn perm ptePG = false)
    (hrun : mapLoop d perm count a f m = .ok (ok, m')) (ha : 0 < count → a = 4096 * v)
    (hend : v + count ≤ 0x100000) : KernelOnly m'.dirs d := by
  obtain ⟨k, -, -, hentry⟩ := mapLoop_prefix count hrun ha hend
  intro w hw hw'
  rw [hentry w hw']
  split_ifs
  · rw [mapPte_user, mapPte_pagedOut]
    exact ⟨hU, hPG⟩
  · exact hk w hw hw'

/-- What every mapping keeps holds when all of them are done, and before the directory is freed otherwise. -/
theorem kmapLoop_induct {sel : Selection} {r : Option ℕ} {P : Machine → Prop} (hl : Ascending lo l)
    (hlo : userPages ≤ lo) (hrun : kmapLoop sel d l m = .ok (r, m')) (h : P m)
    (step : ∀ v count f perm m m₁ ok, userPages ≤ v → v + count ≤ 0x100000 →
      (∀ w, v ≤ w → w < v + count → w / 1024 ∈ kernelSlots) → flagOn perm pteU = false →
      flagOn perm ptePG = false → mapLoop d perm count (4096 * v) f m = .ok (ok, m₁) → P m → P m₁) :
    r = some d ∧ P m' ∨ r = none ∧ ∃ m₁, P m₁ ∧ m₁.freevm sel d = .ok m' := by
  induction l generalizing lo m with
  | nil =>
    cases hrun
    exact .inl ⟨rfl, h⟩
  | cons k l ih =>
    obtain ⟨virt, f, size, perm⟩ := k
    obtain ⟨v, count, rfl, rfl, hcount, hv, hend, hS, hU, hPG, hrest⟩ := hl
    obtain ⟨⟨ok, m₁⟩, hmap, hrun⟩ := Run.bind_ok hrun
    rw [mappages_eq hcount hend] at hmap
    have h₁ := step v count f perm m m₁ ok (by omega) hend hS hU hPG hmap h
    cases ok with
    | true => exact ih hrest (by omega) hrun h₁
    | false =>
      obtain ⟨m₂, hfree, hrun⟩ := Run.bind_ok hrun
      cases hrun
      exact .inr ⟨rfl, m₁, h₁, hfree⟩

theorem kmapLoop_spec (sel : Selection) (hl : Ascending lo l) (hlo : userPages ≤ lo)
    (habs : ∀ w, lo ≤ w → w < 0x100000 → flagOn (entry m.dirs d w) pteP = false)
    (hfree : missing m.dirs d kernelSlots ≤ m.freelist.length) (hk : KernelOnly m.dirs d) :
    ∃ m', kmapLoop sel d l m = .ok (some d, m') ∧ Builds d kernelSlots m m' ∧
      (∀ v < userPages, entry m'.dirs d v = entry m.dirs d v) ∧ KernelOnly m'.dirs d := by
  induction l generalizing lo m with
  | nil => exact ⟨m, rfl, Builds.refl d _ m, fun _ _ => rfl, hk⟩
  | cons r rest ih =>
    obtain ⟨virt, f, size, perm⟩ := r
    obtain ⟨v, count, rfl, rfl, hc, hv, hend, hS, hU, hPG, hrest⟩ := hl
    have hlt : ∀ {w}, w < userPages → w < 0x100000 := fun hw => lt_trans hw (by decide)
    obtain ⟨m₁, hmap, hb, he⟩ := mapLoop_spec f perm count (fun _ => rfl) hend hS hfree
      (fun w hw hwc => habs w (by omega) (by omega))
    have hk₁ := hk.mapLoop hU hPG hmap (fun _ => rfl) hend
    obtain ⟨m', hrun, hb', he', hk'⟩ := ih (m := m₁) hrest (by omega)
      (fun w hw hw' => by
        rw [he w hw', if_neg (by omega)]
        exact habs w (by omega) hw')
      (hb.enough hfree) hk₁
    refine ⟨m', ?_, hb.trans hb', fun w hw => ?_, hk'⟩
    · rw [kmapLoop, mappages_eq hc hend, hmap]
      exact hrun
    · rw [he' w hw, he w (hlt hw), if_neg (by omega)]

theorem kmapLoop_ok (sel : Selection) {d' : ℕ}
    (hl : Ascending lo l) (hlo : userPages ≤ lo)
    (hrun : kmapLoop sel d l m = .ok (some d', m')) :
    d' = d ∧ Extends d m m' ∧ ∀ v < userPages, entry m'.dirs d v = entry m.dirs d v := by
  obtain ⟨hd, h⟩ | ⟨hd, -⟩ := kmapLoop_induct
    (P := fun m₁ => Extends d m m₁ ∧ ∀ v < userPages, entry m₁.dirs d v = entry m.dirs d v) hl hlo hrun
    ⟨Extends.refl d m, fun _ _ => rfl⟩ fun v count f perm m₁ m₂ ok hv hend _ _ _ hmap h => by
      obtain ⟨hx, he⟩ := mapLoop_ok count hmap (fun _ => rfl) hend
      refine ⟨h.1.trans hx, fun w hw => ?_⟩
      rw [he w (lt_trans hw (by decide)) (Or.inl (by omega)), h.2 w hw]
  · exact ⟨Option.some.inj hd, h⟩
  · cases hd

/-- The pages of the mappings. -/
def MapsAll (l : List (ℕ × ℕ × ℕ × Pte)) (w : ℕ) : Prop :=
  ∃ r ∈ l, r.1 / 4096 ≤ w ∧ w < r.1 / 4096 + r.2.2.1 / 4096

/-- A `kmapLoop` that got through took a frame for each missing page table, and no others. -/
theorem kmapLoop_true (sel : Selection) {d' : ℕ}
    (hl : Ascending lo l) (hlo : userPages ≤ lo) (hk : KernelOnly m.dirs d)
    (hrun : kmapLoop sel d l m = .ok (some d', m')) :
    Builds d kernelSlots m m' ∧ (∀ w, MapsAll l w → HasTable m'.dirs d w) ∧ KernelOnly m'.dirs d := by
  induction l generalizing lo m with
  | nil =>
    cases hrun
    refine ⟨Builds.refl d _ _, fun w hw => ?_, hk⟩
    obtain ⟨r, hr, -⟩ := hw
    exact absurd hr List.not_mem_nil
  | cons r rest ih =>
    obtain ⟨virt, f, size, perm⟩ := r
    obtain ⟨v, count, rfl, rfl, hc, hv, hend, hS, hU, hPG, hrest⟩ := hl
    rw [kmapLoop, mappages_eq hc hend] at hrun
    obtain ⟨⟨ok, m₁⟩, hmap, hrun⟩ := Run.bind_ok hrun
    cases ok with
    | false =>
      obtain ⟨m₂, -, hrun⟩ := Run.bind_ok hrun
      cases hrun
    | true =>
      obtain ⟨hb, ht, he⟩ := mapLoop_true count hmap (fun _ => rfl) hend hS
      have hk₁ := hk.mapLoop hU hPG hmap (fun _ => rfl) hend
      obtain ⟨hb', ht', hk'⟩ := ih hrest (by omega) hk₁ hrun
      refine ⟨hb.trans hb', fun w hw => ?_, hk'⟩
      obtain ⟨r, hr, hlow, hhigh⟩ := hw
      rcases List.mem_cons.1 hr with rfl | hr
      · dsimp only at hlow hhigh
        exact hb'.table w (ht w (by omega) (by omega))
      · exact ht' w ⟨r, hr, hlow, hhigh⟩

/-- The state in which `setupkvm` starts to map: frame `d` is an empty directory. -/
def Machine.emptyDir (m : Machine) (d : ℕ) (rest : List ℕ) : Machine :=
  { m with freelist := rest, dirs := Function.update m.dirs d fun _ => none }

theorem entry_emptyDir (m : Machine) (d : ℕ) (rest : List ℕ) (v : ℕ) :
    entry (m.emptyDir d rest).dirs d v = 0 := by
  simp [entry, walk, emptyDir]

theorem setupkvm_spec (sel : Selection) {rest : List ℕ}
    (hf : m.freelist = d :: rest) (hlen : 64 ≤ rest.length)
    (hdata : 0x100 < m.kdata ∧ m.kdata < phystopFrame) :
    ∃ m', m.setupkvm sel = .ok (some d, m') ∧ Builds d kernelSlots (m.emptyDir d rest) m' ∧
      (∀ v < userPages, entry m'.dirs d v = 0) ∧ KernelOnly m'.dirs d ∧
      rest.length ≤ m'.freelist.length + 64 := by
  have hzero := entry_emptyDir m d rest
  have hmissing : missing (m.emptyDir d rest).dirs d kernelSlots ≤ 64 := by
    rw [← kernelSlots_card]
    exact Finset.card_filter_le _ _
  obtain ⟨m', hrun, hb, he, hk⟩ := kmapLoop_spec sel (m := m.emptyDir d rest)
    (kmap_ascending hdata) le_rfl (fun w _ _ => by rw [hzero]; decide)
    (hmissing.trans hlen) (fun v _ _ => by rw [hzero]; decide)
  refine ⟨m', ?_, hb, fun v hv => (he v hv).trans (hzero v), hk, ?_⟩
  · rw [setupkvm, kalloc, hf]
    exact hrun
  · have hbudget := hb.budget
    have hlen' : (m.emptyDir d rest).freelist.length = rest.length := rfl
    omega

theorem setupkvm_ok (sel : Selection)
    (hdata : 0x100 < m.kdata ∧ m.kdata < phystopFrame) (hrun : m.setupkvm sel = .ok (some d, m')) :
    ∃ rest, m.freelist = d :: rest ∧ Extends d (m.emptyDir d rest) m' ∧
      ∀ v < userPages, entry m'.dirs d v = 0 := by
  cases hf : m.freelist with
  | nil => simp [setupkvm, kalloc, hf] at hrun
  | cons g rest =>
    rw [setupkvm, kalloc, hf] at hrun
    obtain ⟨rfl, hx, he⟩ := kmapLoop_ok sel (m := m.emptyDir g rest) (kmap_ascending hdata) le_rfl hrun
    exact ⟨rest, rfl, hx, fun v hv => (he v hv).trans (entry_emptyDir m d rest v)⟩

theorem kmap_slots {kdata i : ℕ} (h : 0x100 < kdata ∧ kdata < phystopFrame) (hi : i ∈ kernelSlots) :
    MapsAll (kmap kdata) (1024 * i) := by
  simp only [phystopFrame] at h
  rw [kernelSlots, Finset.mem_union, Finset.mem_Icc, Finset.mem_Icc] at hi
  simp only [MapsAll, kmap, List.mem_cons, List.not_mem_nil, or_false, exists_eq_or_imp,
    exists_eq_left, kernBase]
  omega

theorem setupkvm_tables (sel : Selection)
    (hdata : 0x100 < m.kdata ∧ m.kdata < phystopFrame) (hrun : m.setupkvm sel = .ok (some d, m')) :
    ∃ rest, m.freelist = d :: rest ∧ Builds d kernelSlots (m.emptyDir d rest) m' ∧
      (∀ i ∈ kernelSlots, (m'.dirs d i).isSome) ∧ KernelOnly m'.dirs d := by
  cases hf : m.freelist with
  | nil => simp [setupkvm, kalloc, hf] at hrun
  | cons g rest =>
    rw [setupkvm, kalloc, hf] at hrun
    obtain ⟨rfl, -, -⟩ := kmapLoop_ok sel (m := m.emptyDir g rest) (kmap_ascending hdata) le_rfl hrun
    have hzero := entry_emptyDir m d rest
    obtain ⟨hb, ht, hk⟩ := kmapLoop_true sel (m := m.emptyDir d rest) (kmap_ascending hdata) le_rfl
      (fun v _ _ => by rw [hzero]; decide) hrun
    refine ⟨rest, rfl, hb, fun i hi => ?_, hk⟩
    have hslot := ht _ (kmap_slots hdata hi)
    have hlt : i < 1024 := by
      rw [kernelSlots, Finset.mem_union, Finset.mem_Icc, Finset.mem_Icc] at hi
      omega
    rwa [HasTable, pdx_page, Nat.mul_div_cancel_left _ (by decide), Nat.mod_eq_of_lt hlt] at hslot

/-- A `setupkvm` that got through took 65 frames, and nothing in the kernel part is for the user. -/
theorem setupkvm_frames (sel : Selection)
    (hdata : 0x100 < m.kdata ∧ m.kdata < phystopFrame) (hrun : m.setupkvm sel = .ok (some d, m')) :
    m.freelist.length = m'.freelist.length + 65 ∧ KernelOnly m'.dirs d := by
  obtain ⟨rest, hf, hb, ht, hk⟩ := setupkvm_tables sel hdata hrun
  refine ⟨?_, hk⟩
  have hbefore : missing (m.emptyDir d rest).dirs d kernelSlots = 64 := by
    rw [missing, Finset.filter_true_of_mem, kernelSlots_card]
    intro i _
    simp [Machine.emptyDir]
  have hafter : missing m'.dirs d kernelSlots = 0 := by
    rw [missing, Finset.card_eq_zero, Finset.filter_eq_empty_iff]
    intro i hi
    rw [Option.isNone_iff_eq_none]
    exact Option.isSome_iff_ne_none.1 (ht i hi)
  have hbudget := hb.budget
  have hlen : (m.emptyDir d rest).freelist.length = rest.length := rfl
  rw [hf, List.length_cons]
  omega

/-! ### Frames -/

/-- Building a directory that is not on the free list keeps the frames in order, as long as its user
entries do. -/
theorem FramesOk.extends (h : FramesOk m)
    (hb : Extends d m m') (hd : d ∉ m.freelist ∧ m.owner d = none)
    (hown : ∀ v < userPages, flagOn (entry m'.dirs d v) pteP →
      m.owner (frameOf (entry m'.dirs d v)) = some (d, v))
    (hclr : ∀ v < userPages, flagOn (entry m'.dirs d v) pteP = false →
      flagOn (entry m'.dirs d v) ptePG → frameOf (entry m'.dirs d v) = 0) : FramesOk m' := by
  have hkend : m'.kend = m.kend := by rw [hb.same]
  have howner : m'.owner = m.owner := by rw [hb.same]
  have hsub : ∀ {f}, f ∈ m'.freelist → f ∈ m.freelist := fun hf => hb.free.subset hf
  constructor
  · rw [hkend]
    exact h.kend_pos
  · exact h.nodup.sublist hb.free.sublist
  · intro f hf
    rw [hkend]
    exact h.valid f (hsub hf)
  · intro f hf
    rw [howner]
    exact h.free f (hsub hf)
  · rw [howner, hkend]
    exact h.ownedValid
  · intro d' v hv hp
    rw [howner]
    by_cases hdd : d' = d
    · subst hdd
      exact hown v hv hp
    · rw [hb.entry_other hdd] at hp ⊢
      exact h.owned d' v hv hp
  · intro d' v hv
    by_cases hdd : d' = d
    · subst hdd
      exact hclr v hv
    · rw [hb.entry_other hdd]
      exact h.cleared d' v hv
  · intro d' v hv ht
    rw [howner]
    by_cases hdd : d' = d
    · subst hdd
      exact ⟨fun hc => hd.1 (hsub hc), hd.2⟩
    · have ht' : HasTable m.dirs d' v := by
        rw [HasTable, hb.other d' hdd] at ht
        exact ht
      obtain ⟨hnot, hnone⟩ := h.dirs d' v hv ht'
      exact ⟨fun hc => hnot (hsub hc), hnone⟩

theorem FramesOk.emptyDir (h : FramesOk m) {rest : List ℕ}
    (hf : m.freelist = d :: rest) :
    FramesOk (m.emptyDir d rest) ∧ d ∉ (m.emptyDir d rest).freelist ∧ m.owner d = none := by
  have hnd := h.nodup
  rw [hf, List.nodup_cons] at hnd
  have hmem : ∀ {f}, f ∈ rest → f ∈ m.freelist := fun hg => hf ▸ List.mem_cons_of_mem d hg
  have hfree : m.owner d = none := h.free d (hf ▸ List.mem_cons_self)
  have hentry : ∀ {d' v}, d' ≠ d → entry (m.emptyDir d rest).dirs d' v = entry m.dirs d' v := by
    intro d' v hdd
    simp [entry, walk, Machine.emptyDir, hdd]
  refine ⟨⟨h.kend_pos, hnd.2, fun f hg => h.valid f (hmem hg), fun f hg => h.free f (hmem hg),
    h.ownedValid, fun d' v hv hp => ?_, fun d' v hv hp hg => ?_, fun d' v hv ht => ?_⟩, hnd.1, hfree⟩
  · by_cases hdd : d' = d
    · subst hdd
      rw [entry_emptyDir] at hp
      exact absurd hp (by decide)
    · rw [hentry hdd] at hp ⊢
      exact h.owned d' v hv hp
  · by_cases hdd : d' = d
    · subst hdd
      rw [entry_emptyDir] at hg
      exact absurd hg (by decide)
    · rw [hentry hdd] at hp hg ⊢
      exact h.cleared d' v hv hp hg
  · by_cases hdd : d' = d
    · subst hdd
      simp [HasTable, Machine.emptyDir] at ht
    · have ht' : HasTable m.dirs d' v := by
        simpa [HasTable, Machine.emptyDir, hdd] using ht
      obtain ⟨hnot, hnone⟩ := h.dirs d' v hv ht'
      exact ⟨fun hc => hnot (hmem hc), hnone⟩

end Xv6
