import Xv6.Machine

/-!
# Page directories as maps from pages to entries

`entry dirs d v` is the entry of page `v` in directory `d`, 0 where the page has no page table.
Stores change one entry (`entry_store`) and adding an empty page table changes none
(`entry_addTable`), which is all that later proofs use of the two-level structure.
-/

namespace Xv6

/-- The entry of page `v` in directory `d`, 0 without a page table. -/
def entry (dirs : ℕ → PgDir) (d v : ℕ) : Pte := (walk dirs d (4096 * v)).getD 0

/-- Page `v` has a page table in directory `d`. -/
def HasTable (dirs : ℕ → PgDir) (d v : ℕ) : Prop := (dirs d (pdx (4096 * v))).isSome

section

variable {dirs : ℕ → PgDir} {d v : ℕ}

theorem walk_page (dirs : ℕ → PgDir) (d va : ℕ) :
    walk dirs d va = walk dirs d (4096 * (va / 4096)) := by
  have h1 : pdx (4096 * (va / 4096)) = pdx va := by
    simp only [pdx]
    omega
  have h2 : ptx (4096 * (va / 4096)) = ptx va := by
    simp only [ptx]
    omega
  simp only [walk, h1, h2]

theorem store_page (dirs : ℕ → PgDir) (d va : ℕ) (pte : Pte) :
    store dirs d va pte = store dirs d (4096 * (va / 4096)) pte := by
  have h1 : pdx (4096 * (va / 4096)) = pdx va := by
    simp only [pdx]
    omega
  have h2 : ptx (4096 * (va / 4096)) = ptx va := by
    simp only [ptx]
    omega
  simp only [store, h1, h2]

theorem walk_eq_entry (h : HasTable dirs d v) : walk dirs d (4096 * v) = some (entry dirs d v) := by
  obtain ⟨t, ht⟩ := Option.isSome_iff_exists.1 h
  simp [entry, walk, ht]

theorem walk_eq_none_iff : walk dirs d (4096 * v) = none ↔ ¬ HasTable dirs d v := by
  simp [walk, HasTable]

theorem hasTable_of_walk {pte : Pte} (h : walk dirs d (4096 * v) = some pte) :
    HasTable dirs d v := by
  by_contra hn
  rw [walk_eq_none_iff.2 hn] at h
  cases h

theorem entry_of_walk {pte : Pte} (h : walk dirs d (4096 * v) = some pte) :
    entry dirs d v = pte := by
  simp [entry, h]

theorem entry_congr {dirs' : ℕ → PgDir} (h : dirs' d = dirs d) (v : ℕ) :
    entry dirs' d v = entry dirs d v := by
  simp [entry, walk, h]

theorem store_of_ne {d' : ℕ} (hd : d' ≠ d) (dirs : ℕ → PgDir) (va : ℕ) (pte : Pte) :
    store dirs d va pte d' = dirs d' := by
  unfold store
  cases dirs d (pdx va) with
  | none => rfl
  | some t => exact Function.update_of_ne hd _ _

theorem entry_of_not_hasTable (h : ¬ HasTable dirs d v) : entry dirs d v = 0 := by
  simp [entry, walk_eq_none_iff.2 h]

theorem hasTable_of_present (h : flagOn (entry dirs d v) pteP = true) : HasTable dirs d v := by
  by_contra hc
  rw [entry_of_not_hasTable hc] at h
  exact absurd h (by decide)

theorem HasTable.low (h : HasTable dirs d 0) (hv : v < 1024) : HasTable dirs d v := by
  have hp : pdx (4096 * v) = pdx (4096 * 0) := by
    rw [pdx_page, pdx_page]
    omega
  rw [HasTable, hp]
  exact h

theorem hasTable_store (dirs : ℕ → PgDir) (d va : ℕ) (pte : Pte) (d' w : ℕ) :
    HasTable (store dirs d va pte) d' w ↔ HasTable dirs d' w := by
  unfold HasTable store
  cases ht : dirs d (pdx va) with
  | none => simp
  | some t =>
    by_cases hd : d' = d
    · subst hd
      by_cases hp : pdx (4096 * w) = pdx va
      · simp [hp, ht]
      · simp [hp]
    · simp [hd]

theorem entry_store (h : HasTable dirs d v) (hv : v < 0x100000) (pte : Pte) (d' : ℕ) {w : ℕ}
    (hw : w < 0x100000) :
    entry (store dirs d (4096 * v) pte) d' w = if d' = d ∧ w = v then pte else entry dirs d' w := by
  obtain ⟨t, ht⟩ := Option.isSome_iff_exists.1 h
  unfold entry walk store
  rw [ht]
  by_cases hd : d' = d
  · subst hd
    by_cases hp : pdx (4096 * w) = pdx (4096 * v)
    · by_cases hx : ptx (4096 * w) = ptx (4096 * v)
      · obtain rfl := page_eq_of_indices hw hv hp hx
        simp
      · have hne : w ≠ v := by
          rintro rfl
          exact hx rfl
        simp [hp, hx, hne, ht]
    · have hne : w ≠ v := by
        rintro rfl
        exact hp rfl
      simp [hp, hne]
  · simp [hd]

theorem walk_store_eq {a : ℕ} {x : Pte} (hwalk : walk dirs d a = some x)
    (y : Pte) (d' b : ℕ) : walk (store dirs d a y) d' b =
      if d' = d ∧ pdx b = pdx a ∧ ptx b = ptx a then some y else walk dirs d' b := by
  obtain ⟨t, ht, -⟩ := Option.map_eq_some_iff.1 hwalk
  unfold walk store
  rw [ht]
  by_cases hd : d' = d
  · subst hd
    by_cases hp : pdx b = pdx a
    · by_cases hi : ptx b = ptx a
      · simp [hp, hi]
      · simp [hp, hi, ht]
    · simp [hp]
  · simp [hd]

/-- A store replaces the one entry that was read, wherever the address lies. -/
theorem walk_store {a : ℕ} {x : Pte} (hwalk : walk dirs d a = some x) (y : Pte) (d' b : ℕ) :
    walk (store dirs d a y) d' b = some y ∧ walk dirs d' b = some x ∨
      walk (store dirs d a y) d' b = walk dirs d' b := by
  rw [walk_store_eq hwalk]
  split_ifs with h
  · obtain ⟨rfl, hp, hi⟩ := h
    left
    refine ⟨rfl, ?_⟩
    rw [← hwalk, walk, walk, hp, hi]
  · exact Or.inr rfl

theorem entry_store_self (h : HasTable dirs d v) (hv : v < 0x100000) (pte : Pte) :
    entry (store dirs d (4096 * v) pte) d v = pte := by
  rw [entry_store h hv pte d hv, if_pos ⟨rfl, rfl⟩]

theorem entry_store_ne (h : HasTable dirs d v) (hv : v < 0x100000) (pte : Pte) {d' w : ℕ}
    (hw : w < 0x100000) (hne : ¬ (d' = d ∧ w = v)) :
    entry (store dirs d (4096 * v) pte) d' w = entry dirs d' w := by
  rw [entry_store h hv pte d' hw, if_neg hne]

theorem hasTable_addTable (dirs : ℕ → PgDir) (d va f d' w : ℕ) :
    HasTable (addTable dirs d va f) d' w ↔
      HasTable dirs d' w ∨ (d' = d ∧ pdx (4096 * w) = pdx va) := by
  unfold HasTable addTable
  by_cases hd : d' = d
  · subst hd
    by_cases hp : pdx (4096 * w) = pdx va
    · simp [hp]
    · simp [hp]
  · simp [hd]

theorem entry_addTable (h : ¬ HasTable dirs d v) (f d' w : ℕ) :
    entry (addTable dirs d (4096 * v) f) d' w = entry dirs d' w := by
  have hnone : dirs d (pdx (4096 * v)) = none := by simpa [HasTable] using h
  unfold entry walk addTable
  by_cases hd : d' = d
  · subst hd
    by_cases hp : pdx (4096 * w) = pdx (4096 * v)
    · simp [hp, hnone]
    · simp [hp]
  · simp [hd]

end

namespace Machine

variable {m : Machine} {d v f : ℕ} {perm : Pte}

theorem mappages_page_eq (hv : v < 0x100000) :
    m.mappages d (4096 * v) 4096 f perm = mapLoop d perm 1 (4096 * v) f m := by
  have ha : pgRoundDown (4096 * v) = 4096 * v := by
    simp only [pgRoundDown]
    omega
  have hl : pgRoundDown ((4096 * v + 4096 + 0x100000000 - 1) % 0x100000000) = 4096 * v := by
    simp only [pgRoundDown]
    omega
  have hc : (4096 * v + 0x100000000 - 4096 * v) % 0x100000000 / 4096 + 1 = 1 := by omega
  simp only [mappages, ha, hl, hc]

theorem walkpgdirAlloc_of_hasTable (h : HasTable m.dirs d v) :
    m.walkpgdirAlloc d (4096 * v) = some m := by
  obtain ⟨t, ht⟩ := Option.isSome_iff_exists.1 h
  simp [walkpgdirAlloc, ht]

theorem mappages_page (hv : v < 0x100000) (ht : HasTable m.dirs d v)
    (hp : flagOn (entry m.dirs d v) pteP = false) :
    m.mappages d (4096 * v) 4096 f perm = .ok (true, m.setPte d (4096 * v) (mapPte f perm)) := by
  rw [mappages_page_eq hv, mapLoop, walkpgdirAlloc_of_hasTable ht]
  simp [walkpgdir, walk_eq_entry ht, hp, mapLoop]

end Machine

end Xv6
