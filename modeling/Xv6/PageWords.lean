import Xv6.Mapping
import Xv6.Refinement

/-!
# Page tables as words of memory

A page directory is a frame of 1024 words, and so is each of its page tables; `walkpgdir` and `mappages`
read and write these words.  As long as the directory, its page tables and the free frames are different
frames, the words are what the two-level directories of `Machine` say (`Words.dir`), and `mappages` does
there what it does here.  So the words are a finite map from pages to entries, which `mappages` extends.
-/

namespace Xv6

/-- Physical memory as words, by frame and index, with the free list. -/
structure Words where
  word : ℕ → ℕ → Pte
  freelist : List ℕ

namespace Words

/-! ### The source -/

def setWord (w : Words) (f i : ℕ) (x : Pte) : Words :=
  { w with word := Function.update w.word f (Function.update (w.word f) i x) }

/-- `memset(pgtab, 0, PGSIZE)`. -/
def zeroFrame (w : Words) (f : ℕ) : Words := { w with word := Function.update w.word f fun _ => 0 }

def kalloc (w : Words) : Option (ℕ × Words) :=
  match w.freelist with
  | [] => none
  | f :: rest => some (f, { w with freelist := rest })

/-- `walkpgdir`: the word that is the entry for `va`, and the memory after a missing page table was made;
`none` is a null result. -/
def walkpgdir (w : Words) (pgdir va : ℕ) (alloc : Bool) : Option ((ℕ × ℕ) × Words) :=
  let pde := w.word pgdir (pdx va)
  if flagOn pde pteP then some ((frameOf pde, ptx va), w)
  else if alloc then
    match w.kalloc with
    | none => none
    | some (f, w) => some ((f, ptx va),
        (w.zeroFrame f).setWord pgdir (pdx va) (paOf f ||| pteP ||| pteW ||| pteU))
  else none

/-- The loop of `mappages`, which ends at `last`; `false` is the result -1. -/
def mapLoop (pgdir last : ℕ) (perm : Pte) : ℕ → ℕ → ℕ → Words → Except Halt (Bool × Words)
  | 0, _, _, _ => .error .livelock
  | fuel + 1, a, pa, w =>
    match w.walkpgdir pgdir a true with
    | none => .ok (false, w)
    | some ((f, i), w) =>
      if flagOn (w.word f i) pteP then .error (.panic "remap")
      else
        let w := w.setWord f i (BitVec.ofNat 32 pa ||| perm ||| pteP)
        if a = last then .ok (true, w)
        else mapLoop pgdir last perm fuel ((a + 4096) % 0x100000000) ((pa + 4096) % 0x100000000) w

/-- `mappages`.  There are 2^20 pages, so a loop that goes on longer never ends. -/
def mappages (w : Words) (pgdir va size pa : ℕ) (perm : Pte) : Except Halt (Bool × Words) :=
  mapLoop pgdir (pgRoundDown ((va + size + 0x100000000 - 1) % 0x100000000)) perm 0x100000
    (pgRoundDown va) pa w

/-! ### The map -/

def entry (w : Words) (d v : ℕ) : Pte :=
  let pde := w.word d (v / 1024)
  if flagOn pde pteP then w.word (frameOf pde) (v % 1024) else 0

/-- The physical address and the flags of a page that is present. -/
def translate (w : Words) (d v : ℕ) : Option (ℕ × Pte) :=
  if flagOn (w.entry d v) pteP then some (4096 * frameOf (w.entry d v), pteFlags (w.entry d v)) else none

/-- The directory, its page tables and the free frames are different frames. -/
structure Distinct (w : Words) (d : ℕ) : Prop where
  tables : ∀ i < 1024, ∀ j < 1024, flagOn (w.word d i) pteP = true → flagOn (w.word d j) pteP = true →
    frameOf (w.word d i) = frameOf (w.word d j) → i = j
  dir : ∀ i < 1024, flagOn (w.word d i) pteP = true → frameOf (w.word d i) ≠ d
  fresh : ∀ f ∈ w.freelist, f < 0x100000 ∧ f ≠ d ∧
    ∀ i < 1024, flagOn (w.word d i) pteP = true → frameOf (w.word d i) ≠ f
  nodup : w.freelist.Nodup

/-! ### The directory behind the words -/

/-- The two-level directory that frame `d` holds. -/
def toDir (w : Words) (d : ℕ) : PgDir := fun i =>
  if i < 1024 ∧ flagOn (w.word d i) pteP = true then
    some ⟨frameOf (w.word d i), w.word (frameOf (w.word d i))⟩
  else none

/-- A machine with this directory and this free list. -/
def toMachine (w : Words) (m : Machine) (d : ℕ) : Machine :=
  { m with dirs := Function.update m.dirs d (w.toDir d), freelist := w.freelist }

section

variable {w : Words} {d i j f : ℕ} {x : Pte} {m : Machine}

theorem toDir_some (hi : i < 1024) (hp : flagOn (w.word d i) pteP = true) :
    w.toDir d i = some ⟨frameOf (w.word d i), w.word (frameOf (w.word d i))⟩ := if_pos ⟨hi, hp⟩

theorem toDir_none (hp : ¬ flagOn (w.word d i) pteP = true) : w.toDir d i = none := if_neg fun h => hp h.2

theorem setWord_word_of_ne (hf : d ≠ f) (i : ℕ) (x : Pte) : (w.setWord f i x).word d = w.word d :=
  Function.update_of_ne hf _ _

theorem setWord_word_self (w : Words) (f i : ℕ) (x : Pte) :
    (w.setWord f i x).word f = Function.update (w.word f) i x := Function.update_self ..

theorem zeroFrame_word_of_ne (hf : d ≠ f) : (w.zeroFrame f).word d = w.word d := Function.update_of_ne hf _ _

theorem zeroFrame_word_self (w : Words) (f : ℕ) : (w.zeroFrame f).word f = fun _ => 0 :=
  Function.update_self ..

theorem toDir_setWord (h : w.Distinct d) (hi : i < 1024) (hp : flagOn (w.word d i) pteP = true) (j : ℕ)
    (x : Pte) :
    (w.setWord (frameOf (w.word d i)) j x).toDir d = Function.update (w.toDir d) i
      (some ⟨frameOf (w.word d i), Function.update (w.word (frameOf (w.word d i))) j x⟩) := by
  have hd : d ≠ frameOf (w.word d i) := (h.dir i hi hp).symm
  funext k
  by_cases hk : k = i
  · subst hk
    rw [Function.update_self, toDir, setWord_word_of_ne hd, if_pos ⟨hi, hp⟩, setWord_word_self]
  · rw [Function.update_of_ne hk, toDir, toDir, setWord_word_of_ne hd]
    split_ifs with hc
    · rw [setWord_word_of_ne fun heq => hk (h.tables k hc.1 i hi hc.2 hp heq)]
    · rfl

theorem Distinct.setWord (h : w.Distinct d) (hi : i < 1024) (hp : flagOn (w.word d i) pteP = true) (j : ℕ)
    (x : Pte) : (w.setWord (frameOf (w.word d i)) j x).Distinct d := by
  have hsame := setWord_word_of_ne (w := w) (h.dir i hi hp).symm j x
  exact ⟨by rw [hsame]; exact h.tables, by rw [hsame]; exact h.dir, by rw [hsame]; exact h.fresh, h.nodup⟩

/-- The memory after an empty page table in frame `f` was entered in slot `i`. -/
def addTable (w : Words) (d i f : ℕ) : Words :=
  (w.zeroFrame f).setWord d i (paOf f ||| pteP ||| pteW ||| pteU)

theorem addTable_pde (hf : f < 0x100000) : flagOn (paOf f ||| pteP ||| pteW ||| pteU) pteP = true ∧
    frameOf (paOf f ||| pteP ||| pteW ||| pteU) = f := by
  have heq : paOf f ||| pteP ||| pteW ||| pteU = mapPte f (pteW ||| pteU) := by
    rw [mapPte]
    ac_rfl
  rw [heq]
  exact ⟨mapPte_present .., frameOf_mapPte _ hf (by decide)⟩

theorem addTable_dir (hd : f ≠ d) (i : ℕ) : (w.addTable d i f).word d =
    Function.update (w.word d) i (paOf f ||| pteP ||| pteW ||| pteU) := by
  rw [addTable, setWord_word_self, zeroFrame_word_of_ne hd.symm]

theorem addTable_other {g : ℕ} (hg : g ≠ d) (hf : g ≠ f) (i : ℕ) :
    (w.addTable d i f).word g = w.word g := by
  rw [addTable, setWord_word_of_ne hg, zeroFrame_word_of_ne hf]

theorem toDir_addTable (h : w.Distinct d) (hi : i < 1024) (hf : f < 0x100000) (hd : f ≠ d)
    (hfresh : ∀ i < 1024, flagOn (w.word d i) pteP = true → frameOf (w.word d i) ≠ f) :
    (w.addTable d i f).toDir d = Function.update (w.toDir d) i (some ⟨f, fun _ => 0⟩) := by
  obtain ⟨hp, hframe⟩ := addTable_pde hf
  funext k
  by_cases hk : k = i
  · subst hk
    rw [Function.update_self, toDir, addTable_dir hd, Function.update_self, if_pos ⟨hi, hp⟩, hframe,
      addTable, setWord_word_of_ne hd, zeroFrame_word_self]
  · rw [Function.update_of_ne hk, toDir, toDir, addTable_dir hd, Function.update_of_ne hk]
    split_ifs with hc
    · rw [addTable_other (h.dir k hc.1 hc.2) (hfresh k hc.1 hc.2)]
    · rfl

theorem Distinct.addTable {rest : List ℕ} (h : w.Distinct d) (hfree : w.freelist = f :: rest) (i : ℕ) :
    ({ w with freelist := rest }.addTable d i f).Distinct d := by
  obtain ⟨hf, hd, hfresh⟩ := h.fresh f (by rw [hfree]; exact List.mem_cons_self)
  obtain ⟨hp, hframe⟩ := addTable_pde hf
  have hword := addTable_dir (w := { w with freelist := rest }) hd i
  have hnodup := h.nodup
  rw [hfree, List.nodup_cons] at hnodup
  refine ⟨fun k hk l hl hpk hpl heq => ?_, fun k hk hpk => ?_, fun g hg => ?_, hnodup.2⟩
  · rw [hword] at hpk hpl heq
    by_cases hki : k = i
    · by_cases hli : l = i
      · rw [hki, hli]
      · rw [hki, Function.update_self, Function.update_of_ne hli, hframe] at heq
        rw [Function.update_of_ne hli] at hpl
        exact absurd heq.symm (hfresh l hl hpl)
    · rw [Function.update_of_ne hki] at hpk heq
      by_cases hli : l = i
      · rw [hli, Function.update_self, hframe] at heq
        exact absurd heq (hfresh k hk hpk)
      · rw [Function.update_of_ne hli] at hpl heq
        exact h.tables k hk l hl hpk hpl heq
  · rw [hword] at hpk ⊢
    by_cases hki : k = i
    · rw [hki, Function.update_self, hframe]
      exact hd
    · rw [Function.update_of_ne hki] at hpk ⊢
      exact h.dir k hk hpk
  · obtain ⟨hg', hgd, hgfresh⟩ := h.fresh g (by rw [hfree]; exact List.mem_cons_of_mem f hg)
    refine ⟨hg', hgd, fun k hk hpk => ?_⟩
    rw [hword] at hpk ⊢
    by_cases hki : k = i
    · rw [hki, Function.update_self, hframe]
      rintro rfl
      exact hnodup.1 hg
    · rw [Function.update_of_ne hki] at hpk ⊢
      exact hgfresh k hk hpk

end

/-! ### `walkpgdir` and `mappages` on words and on directories -/

section

variable {w : Words} {d va : ℕ} {m : Machine}

theorem pdx_lt (va : ℕ) : pdx va < 1024 := Nat.mod_lt _ (by decide)

theorem toMachine_dirs (w : Words) (m : Machine) (d : ℕ) : (w.toMachine m d).dirs d = w.toDir d :=
  Function.update_self ..

theorem walkpgdir_refines (m : Machine) (va : ℕ) (h : w.Distinct d) :
    (w.walkpgdir d va true = none ∧ (w.toMachine m d).walkpgdirAlloc d va = none) ∨
    ∃ w', w.walkpgdir d va true = some ((frameOf (w'.word d (pdx va)), ptx va), w') ∧
      (w.toMachine m d).walkpgdirAlloc d va = some (w'.toMachine m d) ∧ w'.Distinct d ∧
      flagOn (w'.word d (pdx va)) pteP = true := by
  by_cases hp : flagOn (w.word d (pdx va)) pteP = true
  · refine Or.inr ⟨w, by rw [walkpgdir, if_pos hp], ?_, h, hp⟩
    rw [Machine.walkpgdirAlloc, toMachine_dirs, toDir_some (pdx_lt va) hp]
  · have hnone := toDir_none (w := w) (d := d) hp
    cases hfree : w.freelist with
    | nil =>
      refine Or.inl ⟨by simp [walkpgdir, hp, kalloc, hfree], ?_⟩
      rw [Machine.walkpgdirAlloc, toMachine_dirs, hnone]
      simp [Machine.kalloc, toMachine, hfree]
    | cons f rest =>
      obtain ⟨hf, hd, hfresh⟩ := h.fresh f (by rw [hfree]; exact List.mem_cons_self)
      have hpde := addTable_pde hf
      have hslot : ({ w with freelist := rest }.addTable d (pdx va) f).word d (pdx va) =
          paOf f ||| pteP ||| pteW ||| pteU := by
        rw [addTable_dir hd, Function.update_self]
      refine Or.inr ⟨{ w with freelist := rest }.addTable d (pdx va) f, ?_, ?_,
        h.addTable hfree (pdx va), by rw [hslot]; exact hpde.1⟩
      · rw [hslot, hpde.2]
        simp [walkpgdir, hp, kalloc, hfree, addTable]
      · have hdir : ({ w with freelist := rest }.addTable d (pdx va) f).toDir d =
            Function.update (w.toDir d) (pdx va) (some ⟨f, fun _ => 0⟩) :=
          toDir_addTable (w := { w with freelist := rest })
            ⟨h.tables, h.dir, fun g hg => h.fresh g (by rw [hfree]; exact List.mem_cons_of_mem f hg),
              (List.nodup_cons.1 (hfree ▸ h.nodup)).2⟩ (pdx_lt va) hf hd hfresh
        rw [Machine.walkpgdirAlloc, toMachine_dirs, hnone]
        simp only [Machine.kalloc, toMachine, hfree, Option.map_some, Xv6.addTable, Function.update_self,
          Function.update_idem, hdir]
        rfl

theorem setWord_refines (h : w.Distinct d) (hp : flagOn (w.word d (pdx va)) pteP = true) (x : Pte) :
    (w.setWord (frameOf (w.word d (pdx va))) (ptx va) x).toMachine m d =
      (w.toMachine m d).setPte d va x := by
  rw [Machine.setPte, store, toMachine_dirs, toDir_some (pdx_lt va) hp]
  simp only [toMachine, toDir_setWord h (pdx_lt va) hp, Function.update_idem]
  rfl

theorem walk_toMachine (hp : flagOn (w.word d (pdx va)) pteP = true) :
    (w.toMachine m d).walkpgdir d va = some (w.word (frameOf (w.word d (pdx va))) (ptx va)) := by
  rw [Machine.walkpgdir, walk, toMachine_dirs, toDir_some (pdx_lt va) hp, Option.map_some]

theorem ofNat_mapPte (f : ℕ) (perm : Pte) :
    BitVec.ofNat 32 (4096 * f % 0x100000000) ||| perm ||| pteP = mapPte f perm := by
  have hpa : BitVec.ofNat 32 (4096 * f % 0x100000000) = paOf f := by
    apply BitVec.eq_of_toNat_eq
    simp [paOf]
  rw [hpa, mapPte]

theorem mapLoop_refines (m : Machine) (perm : Pte) {v count fuel f : ℕ} (h : w.Distinct d)
    (hc : 0 < count) (hfuel : count ≤ fuel) (hend : v + count ≤ 0x100000) :
    (mapLoop d (4096 * (v + count - 1)) perm fuel (4096 * v) (4096 * f % 0x100000000) w).map
        (fun r => (r.1, r.2.toMachine m d)) =
      Machine.mapLoop d perm count (4096 * v) f (w.toMachine m d) := by
  induction count generalizing w v fuel f with
  | zero => exact absurd hc (Nat.lt_irrefl 0)
  | succ count ih =>
    obtain ⟨fuel, rfl⟩ := Nat.exists_eq_succ_of_ne_zero (by omega : fuel ≠ 0)
    rw [mapLoop, Machine.mapLoop]
    rcases walkpgdir_refines m (4096 * v) h with ⟨hw, hm⟩ | ⟨w', hw, hm, h', hp⟩
    · rw [hw, hm]
      rfl
    · rw [hw, hm]
      simp only [walk_toMachine hp, ofNat_mapPte]
      split_ifs with hremap hlast
      · rfl
      · -- The last page.
        obtain rfl : count = 0 := by omega
        rw [Machine.mapLoop, ← setWord_refines h' hp]
        rfl
      · have hnext : (4096 * v + 4096) % 0x100000000 = 4096 * (v + 1) := by omega
        have hpa : (4096 * f % 0x100000000 + 4096) % 0x100000000 = 4096 * (f + 1) % 0x100000000 := by omega
        have hend' : v + (count + 1) - 1 = v + 1 + count - 1 := by omega
        rw [hnext, hpa, hend', ih (h'.setWord (pdx_lt _) hp _ _) (by omega) (by omega) (by omega),
          setWord_refines h' hp]

theorem mappages_refines (m : Machine) (perm : Pte) {v count : ℕ} (f : ℕ) (h : w.Distinct d)
    (hc : 0 < count) (hend : v + count ≤ 0x100000) :
    (w.mappages d (4096 * v) (4096 * count) (4096 * f % 0x100000000) perm).map
        (fun r => (r.1, r.2.toMachine m d)) =
      (w.toMachine m d).mappages d (4096 * v) (4096 * count) f perm := by
  have ha : pgRoundDown (4096 * v) = 4096 * v := by
    simp only [pgRoundDown]
    omega
  have hlast : pgRoundDown ((4096 * v + 4096 * count + 0x100000000 - 1) % 0x100000000) =
      4096 * (v + count - 1) := by
    simp only [pgRoundDown]
    omega
  rw [Xv6.mappages_eq hc hend, mappages, ha, hlast]
  exact mapLoop_refines m perm h hc (by omega) hend

theorem entry_toMachine (w : Words) (m : Machine) (d : ℕ) {v : ℕ} (hv : v < 0x100000) :
    Xv6.entry (w.toMachine m d).dirs d v = w.entry d v := by
  have hslot : v / 1024 % 1024 = v / 1024 := Nat.mod_eq_of_lt (by omega)
  rw [Xv6.entry, walk, toMachine_dirs, pdx_page, ptx_page, hslot, entry, toDir]
  by_cases hp : flagOn (w.word d (v / 1024)) pteP = true
  · rw [if_pos ⟨by omega, hp⟩, if_pos hp]
    rfl
  · rw [if_neg fun hc => hp hc.2, if_neg hp]
    rfl

/-- The directory slots of a range that have no page table yet. -/
def missingTables (w : Words) (d v count : ℕ) : Finset ℕ :=
  (Finset.Icc (v / 1024) ((v + count - 1) / 1024)).filter fun i => flagOn (w.word d i) pteP = false

theorem missing_toMachine (w : Words) (m : Machine) (d : ℕ) {v count : ℕ} (hend : v + count ≤ 0x100000) :
    missing (w.toMachine m d).dirs d (Finset.Icc (v / 1024) ((v + count - 1) / 1024)) =
      (w.missingTables d v count).card := by
  rw [missing, missingTables]
  congr 1
  apply Finset.filter_congr
  intro i hi
  rw [Finset.mem_Icc] at hi
  rw [toMachine_dirs]
  cases hp : flagOn (w.word d i) pteP with
  | false => simp [toDir, hp]
  | true => simp [toDir, hp, show i < 1024 by omega]

theorem translate_eq_none_iff {v : ℕ} : w.translate d v = none ↔ flagOn (w.entry d v) pteP = false := by
  simp [translate]

theorem mapPte_address (f : ℕ) {perm : Pte} (hperm : perm.toNat < 4096) :
    4096 * frameOf (mapPte f perm) = 4096 * f % 0x100000000 ∧ pteFlags (mapPte f perm) = perm ||| pteP := by
  constructor
  · have hpa : paOf f = paOf (f % 0x100000) := by
      apply BitVec.eq_of_toNat_eq
      simp only [paOf, BitVec.toNat_ofNat]
      omega
    rw [mapPte, hpa, ← mapPte, frameOf_mapPte _ (Nat.mod_lt _ (by decide)) hperm]
    omega
  · have hmask : ∀ i < 32, (0xFFF#32).getLsbD i = decide (i < 12) := by decide
    have hone : ∀ i < 32, ¬ i < 12 → pteP.getLsbD i = false := by decide
    apply BitVec.eq_of_getLsbD_eq
    intro i hi
    simp only [pteFlags, mapPte, BitVec.getLsbD_and, BitVec.getLsbD_or, hmask i hi]
    by_cases hlow : i < 12
    · simp [getLsbD_paOf f hlow, hlow]
    · have hhigh : perm.getLsbD i = false := by
        rw [← BitVec.testBit_toNat]
        exact Nat.testBit_lt_two_pow (hperm.trans_le (Nat.pow_le_pow_right (n := 2) (by decide) (not_lt.1 hlow)))
      simp [hlow, hhigh, hone i hi hlow]

end

/-- For a page directory whose page tables are in different frames, and a range of whole pages none of which
is present: `mappages` returns, having mapped the first `k` pages of the range and changed no other
translation.  These are all pages if it returns 0, which it does if there are frames for the missing page
tables, and fewer if it returns -1. -/
theorem mappages_finite_map {w : Words} {d va size pa : ℕ} {perm : Pte} (h : w.Distinct d)
    (hva : va % 4096 = 0) (hpa : pa % 4096 = 0) (hpa32 : pa < 0x100000000) (hsize : size % 4096 = 0)
    (hpos : 0 < size) (hend : va + size ≤ 0x100000000) (hperm : perm.toNat < 4096)
    (habs : ∀ v, va ≤ 4096 * v → 4096 * v < va + size → w.translate d v = none) :
    ∃ ok w', w.mappages d va size pa perm = .ok (ok, w') ∧
      ((w.missingTables d (va / 4096) (size / 4096)).card ≤ w.freelist.length → ok = true) ∧
      ∃ k ≤ size / 4096, (ok = true ↔ k = size / 4096) ∧ ∀ v < 0x100000, w'.translate d v =
        if va ≤ 4096 * v ∧ 4096 * v < va + 4096 * k then
          some ((pa + (4096 * v - va)) % 0x100000000, perm ||| pteP)
        else w.translate d v := by
  obtain ⟨v, rfl⟩ : ∃ v, va = 4096 * v := ⟨va / 4096, by omega⟩
  obtain ⟨count, rfl⟩ : ∃ count, size = 4096 * count := ⟨size / 4096, by omega⟩
  obtain ⟨f, rfl⟩ : ∃ f, pa = 4096 * f := ⟨pa / 4096, by omega⟩
  have hv : 4096 * v / 4096 = v := by omega
  have hcount : 4096 * count / 4096 = count := by omega
  rw [hv, hcount]
  have hc : 0 < count := by omega
  have hend' : v + count ≤ 0x100000 := by omega
  let m := w.toMachine (sampleMachine 0 0 0) d
  have habs' : ∀ u, v ≤ u → u < v + count → flagOn (Xv6.entry m.dirs d u) pteP = false := by
    intro u hlo hhi
    rw [entry_toMachine w _ d (by omega)]
    exact translate_eq_none_iff.1 (habs u (by omega) (by omega))
  have hrefines := mappages_refines (sampleMachine 0 0 0) perm f h hc hend'
  rw [Xv6.mappages_eq hc hend', Nat.mod_eq_of_lt hpa32] at hrefines
  obtain ⟨ok, m', hrun⟩ := mapLoop_returns f perm count (fun _ => rfl) hend' habs'
  obtain ⟨k, hk, hok, hentries⟩ := mapLoop_prefix count hrun (fun _ => rfl) hend'
  rw [hrun] at hrefines
  obtain ⟨⟨ok', w'⟩, hwords, heq⟩ := Run.map_ok hrefines
  obtain ⟨rfl, rfl⟩ := Prod.mk.inj heq
  refine ⟨ok', w', hwords, fun hframes => ?_, k, hk, hok, fun u hu => ?_⟩
  · rw [← missing_toMachine w (sampleMachine 0 0 0) d hend'] at hframes
    obtain ⟨m'', hrun', -⟩ := mapLoop_spec f perm count (fun _ => rfl) hend'
      (fun u hlo hhi => Finset.mem_Icc.2 ⟨by omega, by omega⟩) hframes habs'
    rw [hrun] at hrun'
    cases hrun'
    rfl
  · have hentry := hentries u hu
    rw [entry_toMachine w' _ d hu, entry_toMachine w _ d hu] at hentry
    rw [translate, hentry]
    by_cases hin : v ≤ u ∧ u < v + k
    · obtain ⟨haddr, hflags⟩ := mapPte_address (f + (u - v)) hperm
      rw [if_pos hin, if_pos (mapPte_present ..), if_pos (by omega), haddr, hflags]
      congr 3
      omega
    · have hout : ¬ (4096 * v ≤ 4096 * u ∧ 4096 * u < 4096 * v + 4096 * k) := by omega
      rw [if_neg hin, if_neg hout, translate]

/-- A directory without page tables, with `n` free frames. -/
def blank (n : ℕ) : Words := ⟨fun _ _ => 0, (List.range n).map (600 + ·)⟩

theorem blank_distinct {n : ℕ} (hn : n ≤ 1000) : (blank n).Distinct 512 where
  tables i _ j _ hp := absurd hp (by simp [blank, flagOn])
  dir i _ hp := absurd hp (by simp [blank, flagOn])
  fresh f hf := by
    simp only [blank, List.mem_map, List.mem_range] at hf
    obtain ⟨k, hk, rfl⟩ := hf
    exact ⟨by omega, by omega, fun i _ hp => absurd hp (by simp [blank, flagOn])⟩
  nodup := (List.nodup_range).map fun a b h => by simpa using h

/-- The last two pages of the address space. -/
theorem mappages_finite_map_top :
    ∃ ok w', (blank 1).mappages 512 0xFFFFE000 0x2000 0xFE000000 pteW = .ok (ok, w') ∧
      (((blank 1).missingTables 512 (0xFFFFE000 / 4096) (0x2000 / 4096)).card ≤ (blank 1).freelist.length →
        ok = true) ∧
      ∃ k ≤ 0x2000 / 4096, (ok = true ↔ k = 0x2000 / 4096) ∧ ∀ v < 0x100000, w'.translate 512 v =
        if 0xFFFFE000 ≤ 4096 * v ∧ 4096 * v < 0xFFFFE000 + 4096 * k then
          some ((0xFE000000 + (4096 * v - 0xFFFFE000)) % 0x100000000, pteW ||| pteP)
        else (blank 1).translate 512 v :=
  mappages_finite_map (blank_distinct (by decide)) (by decide) (by decide) (by decide) (by decide) (by decide)
    (by decide) (by decide) fun _ _ _ => by simp [translate, entry, blank, flagOn]

end Words

end Xv6
