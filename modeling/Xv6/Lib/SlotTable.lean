import Mathlib.Data.Fin.Basic
import Mathlib.Data.Fintype.Card
import Mathlib.Data.Set.Function

/-!
# Slot tables with first-fit allocation and stale keys

A fixed array of slots, each with a `used` mark and a key.  A slot is claimed by first fit and
released by clearing its mark, which leaves the key behind.  `Indexes t S` says that the used slots
are a bijection with the set `S` of keys in the table.  Looking a key up without testing the mark is
still right as long as every stale copy of a used key sits above the used slot (`StaleAbove`);
first-fit claims and releases both keep that order.
-/

/-- An array of `n` slots with a mark and a key each. -/
structure SlotTable (n : ℕ) (κ : Type*) where
  used : Fin n → Bool
  key : Fin n → κ

namespace SlotTable

variable {n : ℕ} {κ : Type*} (t : SlotTable n κ) {S : Set κ}

/-- The lowest slot not in use. -/
def firstFree : Option (Fin n) := Fin.find? fun i => !t.used i

/-- The lowest slot with key `a`, used or stale. -/
def lookup [DecidableEq κ] (a : κ) : Option (Fin n) := Fin.find? fun i => t.key i == a

def claim (i : Fin n) (a : κ) : SlotTable n κ :=
  ⟨Function.update t.used i true, Function.update t.key i a⟩

def release (i : Fin n) : SlotTable n κ := ⟨Function.update t.used i false, t.key⟩

/-- The used slots hold exactly the keys of `S`, each once. -/
def Indexes (S : Set κ) : Prop := Set.BijOn t.key {i | t.used i} S

/-- Stale copies of a used key sit above the used slot. -/
def StaleAbove : Prop := ∀ i j, t.used i → t.used j = false → t.key i = t.key j → i < j

variable {t}

theorem firstFree_eq_some_iff {i : Fin n} :
    t.firstFree = some i ↔ t.used i = false ∧ ∀ j < i, t.used j := by
  simp only [firstFree, Fin.find?_eq_some_iff, Bool.not_eq_true', Bool.not_eq_false']

theorem firstFree_eq_none_iff : t.firstFree = none ↔ ∀ i, t.used i := by
  simp only [firstFree, Fin.find?_eq_none_iff, Bool.not_eq_false']

namespace Indexes

theorem mem_iff (h : t.Indexes S) {a : κ} : a ∈ S ↔ ∃ i, t.used i ∧ t.key i = a := by
  constructor
  · intro ha
    obtain ⟨i, hi, rfl⟩ := h.surjOn ha
    exact ⟨i, hi, rfl⟩
  · rintro ⟨i, hi, rfl⟩
    exact h.mapsTo hi

theorem key_mem (h : t.Indexes S) {i : Fin n} (hi : t.used i) : t.key i ∈ S := h.mapsTo hi

theorem inj (h : t.Indexes S) {i j : Fin n} (hi : t.used i) (hj : t.used j)
    (e : t.key i = t.key j) : i = j :=
  h.injOn hi hj e

protected theorem claim (h : t.Indexes S) {i : Fin n} {a : κ} (hi : t.used i = false)
    (ha : a ∉ S) : (t.claim i a).Indexes (insert a S) := by
  have hset : {j | (t.claim i a).used j} = insert i {j | t.used j} := by
    ext j
    by_cases hj : j = i
    · subst hj
      simp [SlotTable.claim]
    · simp [SlotTable.claim, hj]
  have hkey : (t.claim i a).key i = a := by simp [SlotTable.claim]
  have hold : Set.BijOn (t.claim i a).key {j | t.used j} S := by
    refine h.congr fun j hj => ?_
    have hne : j ≠ i := by
      rintro rfl
      simp [hi] at hj
    simp [SlotTable.claim, hne]
  have hins := hold.insert (a := i) (by rwa [hkey])
  rw [hkey] at hins
  rwa [Indexes, hset]

protected theorem release (h : t.Indexes S) {i : Fin n} (hi : t.used i) :
    (t.release i).Indexes (S \ {t.key i}) := by
  have hset : {j | (t.release i).used j} = {j | t.used j} \ {i} := by
    ext j
    by_cases hj : j = i
    · subst hj
      simp [SlotTable.release]
    · simp [SlotTable.release, hj]
  rw [Indexes, hset]
  exact h.sdiff_singleton hi

theorem claim_iff {i : Fin n} {a : κ} (hi : t.used i = false) (ha : a ∈ S) :
    (t.claim i a).Indexes S ↔ t.Indexes (S \ {a}) := by
  constructor
  · intro h
    have hkey : (t.claim i a).key i = a := by simp [SlotTable.claim]
    have hset : {j | ((t.claim i a).release i).used j} = {j | t.used j} := by
      ext j
      by_cases hj : j = i
      · subst hj
        simp [SlotTable.claim, SlotTable.release, hi]
      · simp [SlotTable.claim, SlotTable.release, hj]
    have hrel := h.release (i := i) (by simp [SlotTable.claim])
    rw [hkey, Indexes, hset] at hrel
    refine hrel.congr fun j hj => ?_
    have hne : j ≠ i := by
      rintro rfl
      simp [hi] at hj
    simp [SlotTable.claim, SlotTable.release, hne]
  · intro h
    have := h.claim hi (a := a) (by simp)
    rwa [Set.insert_sdiff_singleton, Set.insert_eq_of_mem ha] at this

theorem exists_free (h : t.Indexes S) {F : Finset κ} (hF : S ⊆ F) (hn : F.card < n) :
    ∃ i, t.used i = false := by
  by_contra hall
  push Not at hall
  have huse : ∀ i, t.used i := fun i => by simpa using hall i
  let g : Fin n → F := fun i => ⟨t.key i, hF (h.key_mem (huse i))⟩
  have hg : Function.Injective g := fun i j e => h.inj (huse i) (huse j) (congrArg Subtype.val e)
  have := Fintype.card_le_of_injective g hg
  rw [Fintype.card_fin, Fintype.card_coe] at this
  omega

end Indexes

/-! ### Counting used slots -/

def usedCount (t : SlotTable n κ) : ℕ := (Finset.univ.filter fun i => t.used i).card

theorem usedCount_le : t.usedCount ≤ n := by
  simpa [usedCount] using Finset.card_filter_le (Finset.univ : Finset (Fin n)) (t.used ·)

theorem usedCount_pos_iff : 0 < t.usedCount ↔ ∃ i, t.used i := by
  simp [usedCount, Finset.card_pos, Finset.Nonempty]

theorem usedCount_claim {i : Fin n} {a : κ} (hi : t.used i = false) :
    (t.claim i a).usedCount = t.usedCount + 1 := by
  have hset : (Finset.univ.filter fun j => (t.claim i a).used j) =
      insert i (Finset.univ.filter fun j => t.used j) := by
    ext j
    simp only [Finset.mem_filter, Finset.mem_univ, true_and, Finset.mem_insert]
    by_cases hj : j = i
    · subst hj
      simp [claim]
    · simp [claim, hj]
  rw [usedCount, hset, Finset.card_insert_of_notMem (by simp [hi]), usedCount]

theorem usedCount_lt_of_unused {i : Fin n} (hi : t.used i = false) : t.usedCount < n := by
  have hsub : (Finset.univ.filter fun j => t.used j) ⊂ Finset.univ :=
    Finset.ssubset_univ_iff.2 fun hall => by
      have := Finset.mem_univ i
      rw [← hall, Finset.mem_filter, hi] at this
      cases this.2
  simpa [usedCount] using Finset.card_lt_card hsub

theorem usedCount_release {i : Fin n} (hi : t.used i) :
    (t.release i).usedCount + 1 = t.usedCount := by
  have hset : (Finset.univ.filter fun j => (t.release i).used j) =
      (Finset.univ.filter fun j => t.used j).erase i := by
    ext j
    simp only [Finset.mem_filter, Finset.mem_univ, true_and, Finset.mem_erase]
    by_cases hj : j = i
    · subst hj
      simp [release]
    · simp [release, hj]
  rw [usedCount, hset, Finset.card_erase_add_one (by simp [hi]), usedCount]

theorem Indexes.usedCount_eq [DecidableEq κ] {F : Finset κ} (h : t.Indexes F) :
    t.usedCount = F.card := by
  have himage : (Finset.univ.filter fun i => t.used i).image t.key = F := by
    ext a
    simp only [Finset.mem_image, Finset.mem_filter, Finset.mem_univ, true_and]
    exact h.mem_iff.symm
  rw [← himage, Finset.card_image_of_injOn, usedCount]
  intro i hi j hj e
  simp only [Finset.coe_filter, Finset.mem_univ, true_and, Set.mem_ofPred_eq] at hi hj
  exact h.inj hi hj e

theorem exists_firstFree (h : t.usedCount < n) : ∃ i, t.firstFree = some i := by
  rw [← Option.ne_none_iff_exists']
  intro hnone
  have hall := firstFree_eq_none_iff.1 hnone
  simp [usedCount, hall] at h

theorem usedCount_eq_of_firstFree_none (h : t.firstFree = none) : t.usedCount = n := by
  simp [usedCount, firstFree_eq_none_iff.1 h]

/-! ### First fit keeps stale keys above used ones -/

theorem StaleAbove.of_unused (h : ∀ i, t.used i = false) : t.StaleAbove := by
  intro i j hi
  rw [h i] at hi
  cases hi

protected theorem StaleAbove.claim (h : t.StaleAbove) {i : Fin n} (hi : t.firstFree = some i)
    (a : κ) : (t.claim i a).StaleAbove := by
  obtain ⟨-, hbelow⟩ := firstFree_eq_some_iff.1 hi
  intro k j hk hj e
  have hji : j ≠ i := by
    rintro rfl
    simp [SlotTable.claim] at hj
  have hjold : t.used j = false := by simpa [SlotTable.claim, hji] using hj
  by_cases hki : k = i
  · subst hki
    by_contra hle
    have hlt : j < k := lt_of_le_of_ne (not_lt.1 hle) hji
    have := hbelow j hlt
    rw [hjold] at this
    cases this
  · refine h k j (by simpa [SlotTable.claim, hki] using hk) hjold ?_
    simpa [SlotTable.claim, hki, hji] using e

protected theorem StaleAbove.release (h : t.StaleAbove) (hS : t.Indexes S) {i : Fin n}
    (hi : t.used i) : (t.release i).StaleAbove := by
  intro k j hk hj e
  have hki : k ≠ i := by
    rintro rfl
    simp [SlotTable.release] at hk
  have hkold : t.used k := by simpa [SlotTable.release, hki] using hk
  by_cases hji : j = i
  · subst hji
    exact absurd (hS.inj hkold hi e) hki
  · exact h k j hkold (by simpa [SlotTable.release, hji] using hj) e

theorem lookup_key [DecidableEq κ] (h : t.StaleAbove) (hS : t.Indexes S) {i : Fin n}
    (hi : t.used i) : t.lookup (t.key i) = some i := by
  rw [lookup, Fin.find?_eq_some_iff]
  refine ⟨by simp, fun j hj => ?_⟩
  by_contra hkey
  simp only [beq_eq_false_iff_ne, ne_eq, not_not] at hkey
  cases hused : t.used j with
  | true => exact absurd (hS.inj hused hi hkey) (ne_of_lt hj)
  | false => exact absurd (h i j hi hused hkey.symm) (not_lt.2 hj.le)

/-! ### Filling a table -/

/-- A key put in the first free slot, if there is one. -/
def claimFree (t : SlotTable n κ) (a : κ) : SlotTable n κ :=
  match t.firstFree with
  | none => t
  | some i => t.claim i a

/-- A list of keys put in one after the other. -/
def fill (t : SlotTable n κ) (l : List κ) : SlotTable n κ := l.foldl claimFree t

theorem fill_full (h : t.firstFree = none) (l : List κ) : t.fill l = t := by
  induction l with
  | nil => rfl
  | cons a l ih =>
    have hstep : t.claimFree a = t := by simp only [claimFree, h]
    rw [fill, List.foldl_cons, hstep]
    exact ih

theorem fill_indexes_iff {l : List κ} (hl : l.Nodup) (hS : ∀ a ∈ l, a ∈ S) :
    (t.fill l).Indexes S ↔ t.Indexes (S \ {a | a ∈ l.take (n - t.usedCount)}) := by
  induction l generalizing t S with
  | nil => simp [fill]
  | cons a l ih =>
    rw [List.nodup_cons] at hl
    cases hfree : t.firstFree with
    | none =>
      rw [fill_full hfree, usedCount_eq_of_firstFree_none hfree]
      simp
    | some i =>
      have hi : t.used i = false := (firstFree_eq_some_iff.1 hfree).1
      have hlt := usedCount_lt_of_unused hi
      have hstep : t.fill (a :: l) = (t.claim i a).fill l := by
        rw [fill, List.foldl_cons, claimFree, hfree]
        rfl
      have htake : (a :: l).take (n - t.usedCount) =
          a :: l.take (n - (t.claim i a).usedCount) := by
        rw [usedCount_claim hi, show n - t.usedCount = n - (t.usedCount + 1) + 1 by omega,
          List.take_succ_cons]
      have ha : a ∈ S \ {b | b ∈ l.take (n - (t.claim i a).usedCount)} :=
        ⟨hS a List.mem_cons_self, fun hb => hl.1 (List.mem_of_mem_take hb)⟩
      have hset : (S \ {b | b ∈ l.take (n - (t.claim i a).usedCount)}) \ {a} =
          S \ {b | b ∈ a :: l.take (n - (t.claim i a).usedCount)} := by
        ext b
        simp only [Set.mem_sdiff, Set.mem_ofPred_eq, Set.mem_singleton_iff, List.mem_cons]
        tauto
      rw [hstep, ih hl.2 fun b hb => hS b (List.mem_cons_of_mem a hb), Indexes.claim_iff hi ha,
        hset, htake]

-- Keeps definitional unfolding from running the searches; use the lemmas above.
attribute [irreducible] firstFree lookup

end SlotTable
