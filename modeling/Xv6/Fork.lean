import Xv6.Mapping
import Xv6.Refinement

/-!
# `fork`

The child gets a copy of the page table, of the swap file and of the two monitors.  `copyuvm` gives up
on the first page that is not resident and `copyParentSwapFile` on the first used slot that follows an
unused one, so the copy is exact when neither occurs and there is none otherwise.
-/

namespace Xv6

open Machine

/-! ### The source -/

/-- One round of `copyParentSwapFile`: a used slot is read from the file of `p` and written to the
file `f` of the child; `none` is the result -1. -/
def copySlot (p : Proc) (f : File) (i : Fin 16) : Option File :=
  if (p.swapMonitor i).used then
    if p.swapFile.readi (4096 * i) 4096 = some 4096 then
      let (ok, f) := f.filewrite (fun k => p.swapFile.byte (4096 * i + k)) (4096 * i) 4096
      if ok then some f else none
    else none
  else some f

/-- `copyParentSwapFile` of the running process `p`, for a child with the swap file `f`. -/
def copyParentSwapFile (p : Proc) (f : File) : Option File :=
  (List.finRange 16).foldlM (copySlot p) f

/-- The part of `allocproc` that gives an unused entry of the process table its pid and, past the
shell's, a new swap file. -/
def Proc.fresh (np : Proc) (nextpid : ℕ) : Proc :=
  { np with
    pid := nextpid
    swapFile := if 2 < nextpid then File.empty else np.swapFile
    pagesInFile := 0
    lastInQueue := 0
    pageFaultCounter := 0 }

/-- `copy_swap_monitor` and `copy_ram_monitor`. -/
def Proc.copyMonitors (p np : Proc) : Proc :=
  { np with
    swapMonitor := fun i => { p.swapMonitor i with pgdir := np.pgdir }
    ramMonitor := fun i => { p.ramMonitor i with pgdir := np.pgdir } }

/-- `fork`, with the unused entry of the process table that `allocproc` finds, if any.  The result is
the child, `none` for the result -1. -/
def Machine.fork (sel : Selection) (m : Machine) (slot : Option Proc) (nextpid : ℕ) :
    Except Halt (Option Proc × Machine) :=
  match slot with
  | none => .ok (none, m)
  | some np =>
    match m.kalloc with
    | none => .ok (none, m)
    | some (kstack, m) => do
      let (d, m) ← m.copyuvm sel m.proc.pgdir m.proc.sz
      match d with
      | none => do
        let m ← m.kfree kstack
        return (none, m)
      | some d =>
        let np := { np.fresh nextpid with pgdir := d, sz := m.proc.sz }
        if 2 < m.proc.pid then
          match copyParentSwapFile m.proc np.swapFile with
          | none => throw (.panic "fork: error copying swap file from parent!")
          | some file =>
            let np := m.proc.copyMonitors
              { np with swapFile := file, lastInQueue := m.proc.lastInQueue }
            return (some { np with pageFaultCounter := 0, pagesInFile := 0 }, m)
        else return (some { np with pageFaultCounter := 0, pagesInFile := 0 }, m)

/-! ### The swap file -/

/-- The child's file after the first `k` slots. -/
def copied (p : Proc) (k : ℕ) : Option File :=
  ((List.finRange 16).take k).foldlM (copySlot p) File.empty

theorem copied_succ (p : Proc) {k : ℕ} (hk : k < 16) :
    copied p (k + 1) = (copied p k).bind fun f => copySlot p f ⟨k, hk⟩ := by
  have htake : (List.finRange 16).take (k + 1) = (List.finRange 16).take k ++ [⟨k, hk⟩] := by
    rw [List.take_succ_eq_append_getElem (by simpa using hk)]
    simp
  rw [copied, htake, List.foldlM_append]
  cases h : (List.finRange 16).take k |>.foldlM (copySlot p) File.empty with
  | none => simp [copied, h]
  | some f => simp [copied, h]

theorem copied_all (p : Proc) : copied p 16 = copyParentSwapFile p File.empty := by
  rw [copied, copyParentSwapFile, List.take_of_length_le (by simp)]

section

variable {p : Proc} {f : File} {i : Fin 16}

theorem copySlot_used (hu : (p.swapMonitor i).used)
    (hcover : 4096 * (i.val + 1) ≤ p.swapFile.size) (hsize : 4096 * i.val ≤ f.size) :
    copySlot p f i = some (f.overwrite (fun k => p.swapFile.byte (4096 * i + k)) (4096 * i) 4096) := by
  have hread : p.swapFile.readi (4096 * i) 4096 = some 4096 :=
    File.readi_eq (by omega) (by omega)
  have hmax : 4096 * i.val + 4096 ≤ maxFileBytes := by
    simp only [maxFileBytes]
    omega
  simp [copySlot, hu, hread, File.filewrite_eq hsize hmax]

theorem copySlot_hole (hu : (p.swapMonitor i).used)
    (hsize : f.size < 4096 * i.val) : copySlot p f i = none := by
  simp [copySlot, hu, File.filewrite_past_end hsize]

theorem copySlot_unused (hu : (p.swapMonitor i).used = false) :
    copySlot p f i = some f := by
  simp [copySlot, hu]

section

variable (hcover : ∀ i : Fin 16, (p.swapMonitor i).used → 4096 * (i.val + 1) ≤ p.swapFile.size)

include hcover

theorem copied_ok (hdown : ∀ i j : Fin 16, j < i → (p.swapMonitor i).used → (p.swapMonitor j).used)
    (k : ℕ) (hk : k ≤ 16) :
    ∃ f, copied p k = some f ∧ ∀ j : Fin 16, j.val < k → (p.swapMonitor j).used →
      slotPage f j = slotPage p.swapFile j ∧ 4096 * (j.val + 1) ≤ f.size := by
  induction k with
  | zero => exact ⟨File.empty, rfl, fun j hj => absurd hj (Nat.not_lt_zero _)⟩
  | succ k ih =>
    obtain ⟨f, hf, hdone⟩ := ih (by omega)
    have hlt : k < 16 := by omega
    rw [copied_succ p hlt, hf, Option.bind_some]
    cases hu : (p.swapMonitor ⟨k, hlt⟩).used with
    | false =>
      refine ⟨f, copySlot_unused hu, fun j hj hju => hdone j ?_ hju⟩
      have hne : j.val ≠ k := by
        rintro rfl
        rw [hu] at hju
        cases hju
      omega
    | true =>
      -- the slot before it is used, so the child's file already reaches up to this one
      have hsize : 4096 * k ≤ f.size := by
        by_cases hz : k = 0
        · omega
        · have hprev := hdone ⟨k - 1, by omega⟩ (Nat.sub_lt (by omega) Nat.one_pos)
            (hdown ⟨k, hlt⟩ ⟨k - 1, by omega⟩ (Fin.mk_lt_mk.2 (by omega)) hu)
          have := hprev.2
          simp only at this
          omega
      refine ⟨_, copySlot_used hu (hcover _ hu) hsize, fun j hj hju => ?_⟩
      by_cases hjk : j.val = k
      · obtain rfl : j = ⟨k, hlt⟩ := Fin.ext hjk
        refine ⟨?_, ?_⟩
        · funext x
          have hx := x.isLt
          simp only [slotPage, File.overwrite]
          rw [if_pos (by omega), Nat.add_sub_cancel_left]
        · exact File.overwrite_size f _ (Nat.succ_pos 4095)
      · obtain ⟨hpage, hle⟩ := hdone j (by omega) hju
        refine ⟨?_, hle.trans (File.overwrite_size_le _ _ _ _)⟩
        rw [← hpage]
        funext x
        have hx := x.isLt
        simp only [slotPage, File.overwrite]
        rw [if_neg (by omega)]

theorem copied_hole {j : Fin 16} (hj : (p.swapMonitor j).used = false) (k : ℕ)
    (hk : k ≤ 16) (hf : copied p k = some f) :
    f.size ≤ 4096 * min k j.val ∧
      ∀ i : Fin 16, i.val < k → j < i → (p.swapMonitor i).used = false := by
  induction k generalizing f with
  | zero =>
    cases hf
    exact ⟨Nat.zero_le _, fun i hi => absurd hi (Nat.not_lt_zero _)⟩
  | succ k ih =>
    have hlt : k < 16 := by omega
    rw [copied_succ p hlt, Option.bind_eq_some_iff] at hf
    obtain ⟨g, hg, hstep⟩ := hf
    obtain ⟨hsize, hclear⟩ := ih (by omega) hg
    cases hu : (p.swapMonitor ⟨k, hlt⟩).used with
    | false =>
      rw [copySlot_unused hu, Option.some.injEq] at hstep
      subst hstep
      refine ⟨by omega, fun i hi hji => ?_⟩
      by_cases hik : i.val = k
      · obtain rfl : i = ⟨k, hlt⟩ := Fin.ext hik
        exact hu
      · exact hclear i (by omega) hji
    | true =>
      have hkj : k ≤ j.val := by
        by_contra hc
        rw [copySlot_hole hu (by simp only; omega)] at hstep
        cases hstep
      have hne : k ≠ j.val := by
        rintro rfl
        rw [hu] at hj
        cases hj
      have hfull : g.size = 4096 * k := by
        by_contra hc
        rw [copySlot_hole hu (by simp only; omega)] at hstep
        cases hstep
      rw [copySlot_used hu (hcover _ hu) hfull.ge, Option.some.injEq] at hstep
      subst hstep
      refine ⟨?_, fun i hi hji => absurd hji (by rw [Fin.lt_def]; omega)⟩
      simp only [File.overwrite]
      split_ifs <;> omega

/-- `copyParentSwapFile` into an empty file succeeds exactly when the used slots have no hole. -/
theorem copyParentSwapFile_isSome_iff : (∃ f, copyParentSwapFile p File.empty = some f) ↔
      ∀ i j : Fin 16, j < i → (p.swapMonitor i).used → (p.swapMonitor j).used := by
  constructor
  · rintro ⟨f, hf⟩ i j hji hi
    by_contra hj
    rw [← copied_all] at hf
    have := (copied_hole hcover (Bool.eq_false_iff.2 hj) 16 le_rfl hf).2 i i.isLt hji
    rw [hi] at this
    cases this
  · intro hdown
    obtain ⟨f, hf, -⟩ := copied_ok hcover hdown 16 le_rfl
    exact ⟨f, by rw [← copied_all, hf]⟩

theorem copyParentSwapFile_slot (hf : copyParentSwapFile p File.empty = some f) (hi : (p.swapMonitor i).used) :
    slotPage f i = slotPage p.swapFile i ∧ 4096 * (i.val + 1) ≤ f.size := by
  have hdown := (copyParentSwapFile_isSome_iff hcover).1 ⟨f, hf⟩
  obtain ⟨g, hg, hdone⟩ := copied_ok hcover hdown 16 le_rfl
  rw [copied_all, hf, Option.some.injEq] at hg
  subst hg
  exact hdone i i.isLt hi

end

/-- `readFromSwapFile` of the slot `i` gives the same page for two files. -/
def SameSlot (f g : File) (i : Fin 16) : Prop :=
  f.readi (4096 * i) 4096 = some 4096 ∧ ∀ k < 4096, f.byte (4096 * i + k) = g.byte (4096 * i + k)

/-- The call `copyParentSwapFile(np)`, with its test of the pid. -/
def Proc.copyParentSwapFile (p : Proc) (f : File) : Option File :=
  if 2 < p.pid then Xv6.copyParentSwapFile p f else none

/-- The child gets all slots its parent uses exactly when no unused slot stands before a used one. -/
theorem copies_slots_iff (hpid : 2 < p.pid) (hcover : ∀ i : Fin 16, (p.swapMonitor i).used →
      4096 * (i.val + 1) ≤ p.swapFile.size) :
    (∃ f, p.copyParentSwapFile File.empty = some f ∧
      ∀ i : Fin 16, (p.swapMonitor i).used → SameSlot f p.swapFile i) ↔
      ∀ i j : Fin 16, j < i → (p.swapMonitor i).used → (p.swapMonitor j).used := by
  rw [Proc.copyParentSwapFile, if_pos hpid, ← copyParentSwapFile_isSome_iff hcover]
  constructor
  · rintro ⟨f, hf, -⟩
    exact ⟨f, hf⟩
  · rintro ⟨f, hf⟩
    refine ⟨f, hf, fun i hi => ?_⟩
    obtain ⟨hpage, hsize⟩ := copyParentSwapFile_slot hcover hf hi
    exact ⟨File.readi_eq (by omega) (by omega), fun k hk => congrFun hpage ⟨k, hk⟩⟩

/-- A process whose two pages in the swap file lie in slots 0 and 1, and one whose page lies in slot 1. -/
def sampleSwapper (first : Bool) : Proc :=
  { (sampleMachine 3 2 0).proc with
    swapFile := ⟨8192, fun k => UInt8.ofNat (k / 4096 + 1)⟩
    swapMonitor := fun i => ⟨i.val == 1 || (first && i.val == 0), 512, 4096 * i.val, 0⟩ }

theorem copies_slots_iff_two :
    ∃ f, (sampleSwapper true).copyParentSwapFile File.empty = some f ∧
      ∀ i : Fin 16, ((sampleSwapper true).swapMonitor i).used →
        SameSlot f (sampleSwapper true).swapFile i :=
  (copies_slots_iff (by decide) (by decide)).2 (by decide)

/-- With only slot 1 in use, the write at 4096 is past the end of the empty file. -/
theorem copy_stops_at_hole : (sampleSwapper false).copyParentSwapFile File.empty = none ∧
    ((sampleSwapper false).swapMonitor 1).used = true ∧ (sampleSwapper false).swapFile.size = 8192 := by
  decide +kernel

end

/-! ### The pages -/

/-- The first `k` of `n` pages of `pgdir`, as they are in `m`, copied into the directory `d`. -/
structure Copies (pgdir d n k : ℕ) (m m' : Machine) : Prop where
  proc : m'.proc = m.proc
  frames : FramesOk m'
  dir : d ∉ m'.freelist ∧ m'.owner d = none
  other : ∀ d', d' ≠ d → m'.dirs d' = m.dirs d'
  data : ∀ f, f ∉ m.freelist → m'.data f = m.data f
  free : m'.freelist <:+ m.freelist
  page : ∀ v < k, flagOn (entry m'.dirs d v) pteP = true ∧
    m'.data (frameOf (entry m'.dirs d v)) = m.data (frameOf (entry m.dirs pgdir v)) ∧
    ∀ flag ∈ [pteW, pteU, pte1, ptePG],
      flagOn (entry m'.dirs d v) flag = flagOn (entry m.dirs pgdir v) flag
  rest : ∀ v, k ≤ v → v < userPages → entry m'.dirs d v = 0
  enough : missing m'.dirs d {0} + (n - k) ≤ m'.freelist.length

theorem mapPte_pteFlags (f : ℕ) (pte : Pte) {flag : Pte} (h : flag ∈ [pteW, pteU, pte1, ptePG]) :
    flagOn (mapPte f (pteFlags pte)) flag = flagOn pte flag := by
  simp only [List.mem_cons, List.not_mem_nil, or_false] at h
  rcases h with rfl | rfl | rfl | rfl
  · rw [mapPte_writable, flagOn_pteFlags _ (by decide)]
  · rw [mapPte_user, flagOn_pteFlags _ (by decide)]
  · rw [mapPte_pmalloc, flagOn_pteFlags _ (by decide)]
  · rw [mapPte_pagedOut, flagOn_pteFlags _ (by decide)]

section

variable {pgdir d n k : ℕ} {m m' : Machine}

theorem Copies.walkpgdir (h : Copies pgdir d n k m m') (hne : pgdir ≠ d)
    (ht : HasTable m.dirs pgdir k) :
    m'.walkpgdir pgdir (4096 * k) = some (entry m.dirs pgdir k) := by
  rw [Machine.walkpgdir, ← walk_eq_entry ht]
  simp only [walk, h.other pgdir hne]

theorem Copies.absent (sel : Selection) (h : Copies pgdir d n k m m') (hne : pgdir ≠ d)
    (ht : HasTable m.dirs pgdir k) (hp : flagOn (entry m.dirs pgdir k) pteP = false) (count : ℕ) :
    copyLoop sel pgdir d (count + 1) (4096 * k) m' =
      .error (.panic "copyuvm: page not present") := by
  rw [copyLoop, h.walkpgdir hne ht]
  simp only [hp, Bool.false_eq_true, if_false]

theorem Copies.step (sel : Selection) (h : Copies pgdir d n k m m') (hne : pgdir ≠ d) (hk : k < n)
    (hn : n ≤ maxTotalPages) (ht : HasTable m.dirs pgdir k)
    (hp : flagOn (entry m.dirs pgdir k) pteP = true)
    (hpg : flagOn (entry m.dirs pgdir k) ptePG = false)
    (hold : frameOf (entry m.dirs pgdir k) ∉ m.freelist) (count : ℕ) :
    ∃ m'', copyLoop sel pgdir d (count + 1) (4096 * k) m' =
        copyLoop sel pgdir d count (4096 * (k + 1)) m'' ∧ Copies pgdir d n (k + 1) m m'' := by
  simp only [maxTotalPages] at hn
  have henough := h.enough
  obtain ⟨f, rest, hf⟩ : ∃ f rest, m'.freelist = f :: rest :=
    List.exists_cons_of_ne_nil (List.ne_nil_of_length_pos (by omega))
  let pte := entry m.dirs pgdir k
  let m₁ : Machine := ({ m' with freelist := rest }.setOwner f d k).setFrame f
    (m'.data (frameOf pte))
  have hnd := h.frames.nodup
  rw [hf, List.nodup_cons] at hnd
  have hfd : d ≠ f := by
    rintro rfl
    exact h.dir.1 (hf ▸ List.mem_cons_self)
  have hvalid := h.frames.valid f (hf ▸ List.mem_cons_self)
  have hflt : f < 0x100000 := lt_trans hvalid.2 (by decide)
  have hframes₁ : FramesOk m₁ := h.frames.alloc hf rfl rfl rfl rfl
  have hdir₁ : d ∉ m₁.freelist ∧ m₁.owner d = none := by
    refine ⟨fun hc => h.dir.1 (hf ▸ List.mem_cons_of_mem f hc), ?_⟩
    exact (Function.update_of_ne hfd _ _).trans h.dir.2
  have hlen : m'.freelist.length = rest.length + 1 := by rw [hf, List.length_cons]
  have hzero : ∀ w, k ≤ w → w < k + 1 → w / 1024 ∈ ({0} : Finset ℕ) := by
    intro w hw hwk
    rw [Finset.mem_singleton]
    omega
  obtain ⟨m₂, hmap, hb, he⟩ := mapLoop_spec (m := m₁) (d := d) f (pteFlags pte) 1
    (fun _ => rfl) (by omega) hzero (show missing m'.dirs d {0} ≤ rest.length by omega)
    (fun w hw hwk => by
      show flagOn (entry m'.dirs d w) pteP = false
      rw [h.rest w hw (by simp only [userPages]; omega)]
      decide)
  have hentry : ∀ w < 0x100000, entry m₂.dirs d w =
      if w = k then mapPte f (pteFlags pte) else entry m'.dirs d w := by
    intro w hw
    rw [he w hw]
    by_cases hwk : w = k
    · rw [if_pos (by omega), if_pos hwk, hwk, Nat.sub_self, Nat.add_zero]
    · rw [if_neg (by omega), if_neg hwk]
      rfl
  have hnew : entry m₂.dirs d k = mapPte f (pteFlags pte) := by
    rw [hentry k (by omega), if_pos rfl]
  have hframe : frameOf (entry m₂.dirs d k) = f := by
    rw [hnew, frameOf_mapPte _ hflt (pteFlags_lt pte)]
  have hdata₂ : m₂.data = Function.update m'.data f (m'.data (frameOf pte)) := by rw [hb.same]; rfl
  have hlt : ∀ {v}, v < userPages → v < 0x100000 := fun hv => lt_trans hv (by decide)
  refine ⟨m₂, ?_, ?_, ?_, ⟨fun hc => hdir₁.1 (hb.free.subset hc), ?_⟩, ?_, ?_, ?_, ?_, ?_, ?_⟩
  · rw [copyLoop, h.walkpgdir hne ht]
    simp only [hp, hpg, if_true, Bool.false_eq_true, if_false, kalloc, hf]
    have hdiv : 4096 * k / 4096 = k := by omega
    have hmul : 4096 * k + 4096 = 4096 * (k + 1) := by omega
    rw [hdiv, mappages_page_eq (by omega), hmul]
    show (mapLoop d (pteFlags pte) 1 (4096 * k) f m₁ >>= _) = _
    rw [hmap]
    rfl
  · rw [hb.same]
    exact h.proc
  · refine hframes₁.extends hb.toExtends hdir₁ (fun v hv hpv => ?_) (fun v hv hpv hpgv => ?_)
    · by_cases hvk : v = k
      · subst hvk
        rw [hframe]
        exact Function.update_self _ _ _
      · rw [hentry v (hlt hv), if_neg hvk] at hpv ⊢
        exact hframes₁.owned d v hv hpv
    · by_cases hvk : v = k
      · subst hvk
        rw [hnew, mapPte_present _] at hpv
        cases hpv
      · rw [hentry v (hlt hv), if_neg hvk] at hpv hpgv ⊢
        exact hframes₁.cleared d v hv hpv hpgv
  · rw [hb.same]
    exact hdir₁.2
  · intro d' hd'
    exact (hb.other d' hd').trans (h.other d' hd')
  · intro g hg
    have hgf : g ≠ f := by
      rintro rfl
      exact hg (h.free.subset (hf ▸ List.mem_cons_self))
    rw [hdata₂, Function.update_of_ne hgf]
    exact h.data g hg
  · refine hb.free.trans (List.IsSuffix.trans ?_ h.free)
    rw [hf]
    exact List.suffix_cons f rest
  · intro v hv
    by_cases hvk : v = k
    · subst hvk
      refine ⟨by rw [hnew, mapPte_present _], ?_, fun flag hflag => ?_⟩
      · rw [hframe, hdata₂, Function.update_self]
        exact h.data _ hold
      · rw [hnew, mapPte_pteFlags f pte hflag]
    · have hvu : v < userPages := by
        simp only [userPages]
        omega
      obtain ⟨hpv, hdv, hflags⟩ := h.page v (by omega)
      rw [hentry v (hlt hvu), if_neg hvk]
      refine ⟨hpv, ?_, hflags⟩
      -- the frame of an earlier page is owned, so it is not the one just taken
      have hvf : frameOf (entry m'.dirs d v) ≠ f := by
        intro hc
        have hown := h.frames.owned d v hvu hpv
        rw [hc, h.frames.free f (hf ▸ List.mem_cons_self)] at hown
        cases hown
      rw [hdata₂, Function.update_of_ne hvf]
      exact hdv
  · intro v hv hvu
    rw [hentry v (hlt hvu), if_neg (by omega)]
    exact h.rest v (by omega) hvu
  · have hbudget := hb.budget
    have hlen₁ : m₁.freelist.length = rest.length := rfl
    have hdirs₁ : m₁.dirs = m'.dirs := rfl
    rw [hdirs₁, hlen₁] at hbudget
    omega

theorem copyLoop_cases (sel : Selection) (count : ℕ) (h : Copies pgdir d n k m m') (hne : pgdir ≠ d)
    (hcount : k + count = n) (hn : n ≤ maxTotalPages) (ht : ∀ v < n, HasTable m.dirs pgdir v)
    (hp : ∀ v < n, flagOn (entry m.dirs pgdir v) pteP = true →
      flagOn (entry m.dirs pgdir v) ptePG = false ∧ frameOf (entry m.dirs pgdir v) ∉ m.freelist) :
    (∀ v, k ≤ v → v < n → flagOn (entry m.dirs pgdir v) pteP = true) ∧
        (∃ m'', copyLoop sel pgdir d count (4096 * k) m' = .ok (some d, m'') ∧ Copies pgdir d n n m m'') ∨
      (∃ v < n, flagOn (entry m.dirs pgdir v) pteP = false) ∧
        copyLoop sel pgdir d count (4096 * k) m' = .error (.panic "copyuvm: page not present") := by
  induction count generalizing k m' with
  | zero =>
    obtain rfl : k = n := hcount
    exact .inl ⟨fun v hkv hv => absurd hkv (by omega), m', rfl, h⟩
  | succ count ih =>
    cases hpk : flagOn (entry m.dirs pgdir k) pteP with
    | false => exact .inr ⟨⟨k, by omega, hpk⟩, h.absent sel hne (ht k (by omega)) hpk count⟩
    | true =>
      obtain ⟨hpgk, hold⟩ := hp k (by omega) hpk
      obtain ⟨m₁, hstep, h₁⟩ := h.step sel hne (by omega) hn (ht k (by omega)) hpk hpgk hold count
      rw [hstep]
      refine (ih h₁ (by omega)).imp_left fun ⟨hall, hok⟩ => ⟨fun v hkv hv => ?_, hok⟩
      by_cases hvk : v = k
      · rw [hvk, hpk]
      · exact hall v (by omega) hv

end

/-! ### The whole -/

/-- What `fork` relies on, and every state between two system calls has: frames and page tables in
order, a swap file that reaches up to every used slot, and no page both resident and paged out. -/
structure ForkReady (m : Machine) : Prop where
  frames : FramesOk m
  layout : 0x100 < m.kdata ∧ m.kdata < phystopFrame
  size : pagesOf m.proc.sz ≤ maxTotalPages
  table : HasTable m.dirs m.proc.pgdir 0
  cover : ∀ i : Fin 16, (m.proc.swapMonitor i).used → 4096 * (i.val + 1) ≤ m.proc.swapFile.size
  exclusive : ∀ v < userPages, m.Present v → flagOn (m.pte v) ptePG = false

theorem Sees.forkReady {sel : Selection} {m : Machine} {s : FlatMem} (h : Sees sel m s)
    (hlayout : 0x100 < m.kdata ∧ m.kdata < phystopFrame) : ForkReady m :=
  ⟨h.ready.frames, hlayout, h.sz ▸ h.ready.size, h.ready.table, h.ready.cover, h.ready.exclusive⟩

/-- The machine as the child sees it once it runs. -/
def Machine.as (m : Machine) (p : Proc) : Machine := { m with proc := p }

/-- The child is a faithful copy and the parent is as it was. -/
structure ForkOk (m m' : Machine) (child : Proc) : Prop where
  sz : child.sz = m.proc.sz
  own : child.pgdir ≠ m.proc.pgdir
  content : ∀ v < pagesOf m.proc.sz, ∃ page, m.Holds v page ∧ (m'.as child).Holds v page
  protection : ∀ v < pagesOf m.proc.sz, ∀ flag ∈ [pteW, pteU, pte1],
    flagOn ((m'.as child).pte v) flag = flagOn (m.pte v) flag
  ram : ∀ i, child.ramMonitor i = { m.proc.ramMonitor i with pgdir := child.pgdir }
  swap : ∀ i, child.swapMonitor i = { m.proc.swapMonitor i with pgdir := child.pgdir }
  parent : m'.proc = m.proc
  pages : ∀ v < userPages, m'.pte v = m.pte v ∧
    (m.Present v → m'.data (frameOf (m.pte v)) = m.data (frameOf (m.pte v)))

/-- Frames for the kernel stack, the directory, 64 page tables of the kernel part and one of the user
part, and the pages. -/
def forkFrames (m : Machine) : ℕ := 67 + pagesOf m.proc.sz

section

variable {m : Machine}

theorem fork_start (sel : Selection) (h : ForkReady m) (hframes : forkFrames m ≤ m.freelist.length) :
    ∃ kstack d rest m₁, m.freelist = kstack :: rest ∧
      { m with freelist := rest }.copyuvm sel m.proc.pgdir m.proc.sz =
        copyLoop sel m.proc.pgdir d (pagesOf m.proc.sz) 0 m₁ ∧
      m.proc.pgdir ≠ d ∧ Copies m.proc.pgdir d (pagesOf m.proc.sz) 0 m₁ m₁ ∧
      m₁.proc = m.proc ∧ m₁.data = m.data ∧ m₁.freelist <:+ m.freelist ∧
      m₁.owner = m.owner ∧ m₁.dirs m.proc.pgdir = m.dirs m.proc.pgdir := by
  rw [forkFrames] at hframes
  obtain ⟨kstack, rest, hf⟩ : ∃ f rest, m.freelist = f :: rest :=
    List.exists_cons_of_ne_nil (List.ne_nil_of_length_pos (by omega))
  have hlen : m.freelist.length = rest.length + 1 := by rw [hf, List.length_cons]
  obtain ⟨d, rest', hf'⟩ : ∃ f rest', rest = f :: rest' :=
    List.exists_cons_of_ne_nil (List.ne_nil_of_length_pos (by omega))
  have hlen' : rest.length = rest'.length + 1 := by rw [hf', List.length_cons]
  let m₀ : Machine := { m with freelist := rest }
  have hframes₀ : FramesOk m₀ := h.frames.reserve hf
  obtain ⟨m₁, hsetup, hb, huser, hkernel, hrest⟩ :=
    setupkvm_spec sel (m := m₀) hf' (by omega) h.layout
  obtain ⟨hempty, hdir⟩ := hframes₀.emptyDir hf'
  have hne : m.proc.pgdir ≠ d := by
    intro hc
    have := (h.frames.dirs m.proc.pgdir 0 (by decide) h.table).1
    rw [hf, hf', hc] at this
    simp at this
  have hsame : m₁ = { m₀.emptyDir d rest' with dirs := m₁.dirs, freelist := m₁.freelist } := hb.same
  have hproc : m₁.proc = m.proc := by rw [hsame]; rfl
  have howner : m₁.owner = m.owner := by rw [hsame]; rfl
  have hfree : m₁.freelist <:+ m.freelist := by
    refine hb.free.trans ?_
    rw [hf, hf']
    exact (List.suffix_cons d rest').trans (List.suffix_cons kstack _)
  have hframes₁ : FramesOk m₁ := by
    refine hempty.extends hb.toExtends hdir (fun v hv hp => ?_) (fun v hv _ hpg => ?_)
    · rw [huser v hv] at hp
      exact absurd hp (by decide)
    · rw [huser v hv] at hpg
      exact absurd hpg (by decide)
  have hmissing : missing m₁.dirs d {0} ≤ 1 := by
    exact (Finset.card_filter_le _ _).trans (by simp)
  refine ⟨kstack, d, rest, m₁, hf, ?_, hne, ⟨rfl, hframes₁, ⟨fun hc => hdir.1 (hb.free.subset hc), ?_⟩,
    fun _ _ => rfl, fun _ _ => rfl, List.suffix_refl _, fun v hv => absurd hv (Nat.not_lt_zero v),
    fun v _ hv => huser v hv, by omega⟩, hproc, by rw [hsame]; rfl, hfree, howner, ?_⟩
  · show (m₀.setupkvm sel >>= _) = _
    rw [hsetup]
    rfl
  · rw [howner]
    exact hdir.2
  · rw [hb.other _ hne]
    exact Function.update_of_ne hne _ _

/-- The pages are copied if all of them are resident, and `fork` panics if not. -/
theorem fork_cases (sel : Selection) (h : ForkReady m) (hframes : forkFrames m ≤ m.freelist.length) (np : Proc)
    (nextpid : ℕ) :
    (∀ v < pagesOf m.proc.sz, m.Present v) ∧
      (∃ d m₁ m', Copies m.proc.pgdir d (pagesOf m.proc.sz) (pagesOf m.proc.sz) m₁ m' ∧
        m.proc.pgdir ≠ d ∧ m₁.proc = m.proc ∧ m₁.data = m.data ∧ m₁.freelist <:+ m.freelist ∧
        m₁.dirs m.proc.pgdir = m.dirs m.proc.pgdir ∧ (2 < m.proc.pid → 2 < nextpid →
          m.fork sel (some np) nextpid = match copyParentSwapFile m.proc File.empty with
            | none => .error (.panic "fork: error copying swap file from parent!")
            | some file => .ok (some { m.proc.copyMonitors { np.fresh nextpid with
                pgdir := d, sz := m.proc.sz, swapFile := file, lastInQueue := m.proc.lastInQueue } with
                pageFaultCounter := 0, pagesInFile := 0 }, m'))) ∨
    (∃ v < pagesOf m.proc.sz, ¬ m.Present v) ∧
      m.fork sel (some np) nextpid = .error (.panic "copyuvm: page not present") := by
  obtain ⟨kstack, d, rest, m₁, hf, hcopy, hne, h₁, hproc, hdata, hfree, howner, hdir⟩ :=
    fork_start sel h hframes
  have hentry : ∀ w, entry m₁.dirs m.proc.pgdir w = m.pte w := fun w => by
    simp only [pte, entry, walk, hdir]
  have hsmall : ∀ w < pagesOf m.proc.sz, w < maxTotalPages := fun w hw => lt_of_lt_of_le hw h.size
  have hcases := copyLoop_cases sel _ h₁ hne (Nat.zero_add _) h.size
    (fun w hw => by
      rw [HasTable, hdir]
      exact h.table.low (lt_trans (hsmall w hw) (by decide)))
    (fun w hw hp => by
      have hwu : w < userPages := lt_trans (hsmall w hw) (by decide)
      refine ⟨?_, fun hc => ?_⟩
      · rw [hentry] at hp ⊢
        exact h.exclusive w hwu hp
      · have := h₁.frames.owned _ w hwu hp
        rw [h₁.frames.free _ hc] at this
        cases this)
  rw [Nat.mul_zero, ← hcopy] at hcases
  simp only [hentry] at hcases
  refine hcases.imp ?_ ?_
  · rintro ⟨hp, m', hrun, h'⟩
    refine ⟨fun v hv => hp v (Nat.zero_le v) hv, d, m₁, m', h', hne, hproc, hdata, hfree, hdir,
      fun hpid hnext => ?_⟩
    have hproc' : m'.proc = m.proc := h'.proc.trans hproc
    have hempty : (np.fresh nextpid).swapFile = File.empty := if_pos hnext
    simp only [fork, kalloc, hf, hrun, bind, Except.bind, hproc', if_pos hpid, hempty]
    cases copyParentSwapFile m.proc File.empty <;> rfl
  · rintro ⟨⟨v, hv, habs⟩, hrun⟩
    refine ⟨⟨v, hv, Bool.eq_false_iff.1 habs⟩, ?_⟩
    simp only [fork, kalloc, hf, hrun, bind, Except.bind]

/-- `fork` makes a faithful copy exactly when every page of the parent is resident and the used slots
of its swap file have no hole. -/
theorem fork_preserves_iff (sel : Selection) (h : ForkReady m) (hpid : 2 < m.proc.pid)
    (hframes : forkFrames m ≤ m.freelist.length) (np : Proc) {nextpid : ℕ} (hnext : 2 < nextpid) :
    (∃ child m', m.fork sel (some np) nextpid = .ok (some child, m') ∧ ForkOk m m' child) ↔
      (∀ v < pagesOf m.proc.sz, m.Present v) ∧
      ∀ i j : Fin 16, j < i → (m.proc.swapMonitor i).used → (m.proc.swapMonitor j).used := by
  constructor
  · rintro ⟨child, m', hfork, -⟩
    obtain ⟨hp, d, m₁, m₂, -, -, -, -, -, -, heq⟩ | ⟨-, herr⟩ := fork_cases sel h hframes np nextpid
    swap
    · rw [herr] at hfork
      cases hfork
    refine ⟨hp, (copyParentSwapFile_isSome_iff h.cover).1 ?_⟩
    rw [heq hpid hnext] at hfork
    cases hfile : copyParentSwapFile m.proc File.empty with
    | none =>
      rw [hfile] at hfork
      cases hfork
    | some file => exact ⟨file, rfl⟩
  · rintro ⟨hp, hdown⟩
    obtain ⟨file, hfile⟩ := (copyParentSwapFile_isSome_iff h.cover).2 hdown
    obtain ⟨-, d, m₁, m', hc, hne, hproc, hdata, hfree, hdir, heq⟩ :=
      (fork_cases sel h hframes np nextpid).resolve_right fun ⟨⟨v, hv, hc⟩, _⟩ => hc (hp v hv)
    replace heq := heq hpid hnext
    rw [hfile] at heq
    have hentry : ∀ w, entry m₁.dirs m.proc.pgdir w = m.pte w := fun w => by
      simp only [pte, entry, walk, hdir]
    refine ⟨_, m', heq, ⟨rfl, hne.symm, fun v hv => ?_, fun v hv flag hflag => ?_, fun _ => rfl,
      fun _ => rfl, hc.proc.trans hproc, fun v hv => ⟨?_, fun hpv => ?_⟩⟩⟩
    · obtain ⟨hpv, hdv, -⟩ := hc.page v hv
      rw [hentry, hdata] at hdv
      exact ⟨_, Or.inl ⟨hp v hv, rfl⟩, Or.inl ⟨hpv, hdv⟩⟩
    · obtain ⟨-, -, hflags⟩ := hc.page v hv
      have := hflags flag (by
        simp only [List.mem_cons, List.not_mem_nil, or_false] at hflag ⊢
        tauto)
      rw [hentry] at this
      exact this
    · have hpgdir : m'.proc.pgdir = m.proc.pgdir := by rw [hc.proc, hproc]
      simp only [pte, hpgdir, entry, walk, hc.other _ hne, hdir]
    · rw [hc.data _ fun hmem => ?_, hdata]
      have := h.frames.owned m.proc.pgdir v hv hpv
      rw [show entry m.dirs m.proc.pgdir v = m.pte v from rfl,
        h.frames.free _ (hfree.subset hmem)] at this
      cases this

end

/-- The process of the sample image, before anything was paged out. -/
theorem fork_preserves_sample :
    ∃ child m', (sampleMachine 16 16 200).fork .LIFO (some (sampleMachine 0 0 0).proc) 4 =
      .ok (some child, m') ∧ ForkOk (sampleMachine 16 16 200) m' child := by
  refine (fork_preserves_iff .LIFO ((sample_sees (by decide)).forkReady ⟨by decide, by decide⟩) (by decide)
    (by decide +kernel) (sampleMachine 0 0 0).proc (by decide)).2 ⟨by decide +kernel, ?_⟩
  intro i j _ hi
  cases hi

/-- One page more than fit in memory, and the process can no longer fork. -/
theorem fork_panics_paged_out :
    ∃ m', Run.run (step .LIFO) [.sbrk 4096] (sampleMachine 16 16 200) = .ok m' ∧
      ForkReady m' ∧ 2 < m'.proc.pid ∧ forkFrames m' ≤ m'.freelist.length ∧ m'.PagedOut 15 ∧
      m'.fork .LIFO (some (sampleMachine 0 0 0).proc) 4 =
        .error (.panic "copyuvm: page not present") := by
  have hclean : Clean .LIFO (sampleMachine 16 16 200) (.sbrk 4096) :=
    ⟨rfl, ⟨by decide, fun _ _ => ⟨by decide, ⟨fun _ => by decide +kernel, fun _ _ => by decide +kernel,
      fun _ => by decide⟩⟩, fun hc => absurd hc (by decide)⟩⟩
  have heval : Run.endsIn (fun m => decide (m.PagedOut 15 ∧ forkFrames m ≤ m.freelist.length ∧
      15 < pagesOf m.proc.sz ∧ 0x100 < m.kdata ∧ m.kdata < phystopFrame))
      (step .LIFO (sampleMachine 16 16 200) (.sbrk 4096)) = true := by
    decide +kernel
  obtain ⟨m', hstep, htest⟩ := Run.of_endsIn heval
  obtain ⟨hout, hframes, hlt, hlayout⟩ := of_decide_eq_true htest
  obtain ⟨s', -, h'⟩ := step_sees (sample_sees (by decide)) hclean hstep
  have hready := h'.forkReady hlayout
  have hnot : ¬ m'.Present 15 := fun hp => hp.not_pagedOut hout
  exact ⟨m', by rw [Run.run, hstep]; rfl, hready, h'.pid, hframes, hout,
    ((fork_cases .LIFO hready hframes _ 4).resolve_left fun hc => hnot (hc.1 15 hlt)).2⟩

end Xv6
