import Xv6.Dropping
import Xv6.Exec

/-!
# What `deallocuvm` and `freevm` give back

A directory that owns its frames: the directory itself, its page tables and the present pages of the user
are in different frames.  `deallocuvm` puts the frames of the present pages of its range on the free list,
each once, and clears their entries; `freevm` puts everything that is left there, each frame once.
-/

namespace Xv6

open Machine

/-- The frames of the present pages of `R` in directory `d`. -/
def pageFrames (dirs : ℕ → PgDir) (d : ℕ) (R : Set ℕ) : Set ℕ :=
  {f | ∃ v ∈ R, flagOn (entry dirs d v) pteP = true ∧ frameOf (entry dirs d v) = f}

/-- The frames of the page tables in the slots of `I`. -/
def tableFrames (dirs : ℕ → PgDir) (d : ℕ) (I : Set ℕ) : Set ℕ :=
  {f | ∃ i ∈ I, ∃ t, dirs d i = some t ∧ t.frame = f}

def userRange : Set ℕ := {v | v < userPages}

def slots : Set ℕ := {i | i < 1024}

/-- The directory, its page tables and the present pages of the user are in different frames, all of them
frames that `kalloc` gives out. -/
structure OwnFrames (d : ℕ) (m : Machine) : Prop where
  freeable : Freeable d m
  page_inj : ∀ v < userPages, ∀ w < userPages, flagOn (entry m.dirs d v) pteP = true →
    flagOn (entry m.dirs d w) pteP = true → frameOf (entry m.dirs d v) = frameOf (entry m.dirs d w) → v = w
  table_inj : ∀ i < 1024, ∀ j < 1024, ∀ t u, m.dirs d i = some t → m.dirs d j = some u →
    t.frame = u.frame → i = j
  page_table : ∀ f ∈ pageFrames m.dirs d userRange, f ∉ tableFrames m.dirs d slots
  dir_page : d ∉ pageFrames m.dirs d userRange
  dir_table : d ∉ tableFrames m.dirs d slots

/-- Exactly the frames of `S` were put on the free list, each once. -/
def PutsFree (S : Set ℕ) (l l' : List ℕ) : Prop := ∃ L, l' = L ++ l ∧ L.Nodup ∧ ∀ f, f ∈ L ↔ f ∈ S

/-- The present pages of `R` in directory `d` were given back and their entries cleared; every other entry,
every page table and every other directory is as it was. -/
structure Released (d : ℕ) (R : Set ℕ) (m m' : Machine) : Prop where
  kend : m'.kend = m.kend
  cleared : ∀ v < 0x100000, v ∈ R → flagOn (entry m.dirs d v) pteP = true → entry m'.dirs d v = 0
  kept : ∀ v < 0x100000, ¬ (v ∈ R ∧ flagOn (entry m.dirs d v) pteP = true) →
    entry m'.dirs d v = entry m.dirs d v
  tables : ∀ i, (m'.dirs d i).map PageTable.frame = (m.dirs d i).map PageTable.frame
  other : ∀ d', d' ≠ d → m'.dirs d' = m.dirs d'
  free : PutsFree (pageFrames m.dirs d R) m.freelist m'.freelist

/-! ### Putting frames on the free list -/

namespace PutsFree

variable {S S' : Set ℕ} {l l' l'' : List ℕ}

theorem refl (l : List ℕ) : PutsFree ∅ l l := ⟨[], rfl, List.nodup_nil, by simp⟩

theorem one (f : ℕ) (l : List ℕ) : PutsFree {f} l (f :: l) := ⟨[f], rfl, List.nodup_singleton f, by simp⟩

theorem trans (h : PutsFree S l l') (h' : PutsFree S' l' l'') (hdisj : ∀ f ∈ S, f ∉ S') :
    PutsFree (S ∪ S') l l'' := by
  obtain ⟨L, rfl, hL, hmem⟩ := h
  obtain ⟨L', rfl, hL', hmem'⟩ := h'
  refine ⟨L' ++ L, (List.append_assoc ..).symm, hL'.append hL fun f hf' hf => ?_, fun f => ?_⟩
  · exact hdisj f ((hmem f).1 hf) ((hmem' f).1 hf')
  · rw [List.mem_append, hmem, hmem', Set.mem_union, or_comm]

end PutsFree

/-! ### Pages -/

section

variable {sel : Selection} {d v : ℕ} {R R' : Set ℕ} {m m' m'' : Machine}

theorem Freeable.pagesValid (h : Freeable d m) : PagesValid d m := by
  refine ⟨h.kend_pos, fun v hv hp => ?_⟩
  refine h.page (4096 * v) _ (walk_eq_entry (hasTable_of_present hp)) ?_ hp
  simp only [userPages, kernBase] at *
  omega

theorem Released.of_absent (h : ∀ v ∈ R, ¬ flagOn (entry m.dirs d v) pteP = true) : Released d R m m where
  kend := rfl
  cleared v _ hR hp := absurd hp (h v hR)
  kept _ _ _ := rfl
  tables _ := rfl
  other _ _ := rfl
  free := by
    have hnone : pageFrames m.dirs d R = ∅ := by
      ext f
      simp only [pageFrames, Set.mem_ofPred_eq, Set.mem_empty_iff_false, iff_false]
      rintro ⟨v, hR, hp, -⟩
      exact h v hR hp
    rw [hnone]
    exact PutsFree.refl _

theorem Released.present (h : Released d R m m') {w : ℕ} (hw : w < 0x100000)
    (hp : flagOn (entry m'.dirs d w) pteP = true) :
    entry m'.dirs d w = entry m.dirs d w ∧ w ∉ R := by
  by_cases hc : w ∈ R ∧ flagOn (entry m.dirs d w) pteP = true
  · rw [h.cleared w hw hc.1 hc.2] at hp
    exact absurd hp (by decide)
  · have hkept := h.kept w hw hc
    rw [hkept] at hp
    exact ⟨hkept, fun hR => hc ⟨hR, hp⟩⟩

theorem Released.tableFrames_eq (h : Released d R m m') (I : Set ℕ) :
    tableFrames m'.dirs d I = tableFrames m.dirs d I := by
  ext f
  constructor
  · rintro ⟨i, hi, t, ht, rfl⟩
    have hmap := h.tables i
    rw [ht, Option.map_some, eq_comm, Option.map_eq_some_iff] at hmap
    obtain ⟨u, hu, hf⟩ := hmap
    exact ⟨i, hi, u, hu, hf⟩
  · rintro ⟨i, hi, t, ht, rfl⟩
    have hmap := h.tables i
    rw [ht, Option.map_some, Option.map_eq_some_iff] at hmap
    obtain ⟨u, hu, hf⟩ := hmap
    exact ⟨i, hi, u, hu, hf⟩

theorem OwnFrames.released (h : OwnFrames d m) (hr : Released d R m m') : OwnFrames d m' := by
  have hpages : pageFrames m'.dirs d userRange ⊆ pageFrames m.dirs d userRange := by
    rintro f ⟨v, hv, hp, rfl⟩
    have heq := (hr.present (lt_trans hv (by decide)) hp).1
    exact ⟨v, hv, heq ▸ hp, by rw [heq]⟩
  have htables := hr.tableFrames_eq slots
  refine ⟨⟨hr.kend ▸ h.freeable.kend_pos, fun a pte hwalk ha hp => ?_, fun i t ht => ?_,
    hr.kend ▸ h.freeable.dir⟩, fun v hv w hw hpv hpw heq => ?_, fun i hi j hj t u ht hu heq => ?_, ?_,
    fun hmem => h.dir_page (hpages hmem), fun hmem => h.dir_table (htables ▸ hmem)⟩
  · rw [walkpgdir, walk_page] at hwalk
    obtain rfl := entry_of_walk hwalk
    have hlt : a / 4096 < 0x100000 := by
      simp only [kernBase] at ha
      omega
    have heq := (hr.present hlt hp).1
    rw [heq] at hp ⊢
    rw [hr.kend]
    refine h.freeable.page (4096 * (a / 4096)) _ (walk_eq_entry (hasTable_of_present hp)) ?_ hp
    omega
  · have hmap := hr.tables i
    rw [ht, Option.map_some, eq_comm, Option.map_eq_some_iff] at hmap
    obtain ⟨u, hu, hf⟩ := hmap
    rw [← hf, hr.kend]
    exact h.freeable.table i u hu
  · have hv' := (hr.present (lt_trans hv (by decide)) hpv).1
    have hw' := (hr.present (lt_trans hw (by decide)) hpw).1
    rw [hv'] at hpv heq
    rw [hw'] at hpw heq
    exact h.page_inj v hv w hw hpv hpw heq
  · have hmi := hr.tables i
    have hmj := hr.tables j
    rw [ht, Option.map_some, eq_comm, Option.map_eq_some_iff] at hmi
    rw [hu, Option.map_some, eq_comm, Option.map_eq_some_iff] at hmj
    obtain ⟨t', ht', hft⟩ := hmi
    obtain ⟨u', hu', hfu⟩ := hmj
    exact h.table_inj i hi j hj t' u' ht' hu' (by rw [hft, hfu, heq])
  · rw [htables]
    exact fun f hf => h.page_table f (hpages hf)

theorem OwnFrames.pageFrames_disjoint (h : OwnFrames d m) (hR : R ⊆ userRange) (hR' : R' ⊆ userRange)
    (hdisj : ∀ v ∈ R, v ∉ R') : ∀ f ∈ pageFrames m.dirs d R, f ∉ pageFrames m.dirs d R' := by
  rintro f ⟨v, hv, hpv, rfl⟩ ⟨w, hw, hpw, heq⟩
  obtain rfl := h.page_inj v (hR hv) w (hR' hw) hpv hpw heq.symm
  exact hdisj v hv hw

theorem pageFrames_union (dirs : ℕ → PgDir) (d : ℕ) (R R' : Set ℕ) :
    pageFrames dirs d (R ∪ R') = pageFrames dirs d R ∪ pageFrames dirs d R' := by
  ext f
  simp only [pageFrames, Set.mem_union, Set.mem_ofPred_eq, or_and_right, exists_or]

theorem Released.trans (hown : OwnFrames d m) (h : Released d R m m') (h' : Released d R' m' m'')
    (hR : R ⊆ userRange) (hR' : R' ⊆ userRange) (hdisj : ∀ v ∈ R, v ∉ R') :
    Released d (R ∪ R') m m'' := by
  -- The first release does not touch the pages of the second.
  have hsame : ∀ v ∈ R', entry m'.dirs d v = entry m.dirs d v := fun v hv =>
    h.kept v (lt_trans (hR' hv) (by decide)) fun hc => hdisj v hc.1 hv
  have hframes : pageFrames m'.dirs d R' = pageFrames m.dirs d R' := by
    ext f
    constructor
    · rintro ⟨v, hv, hp, hf⟩
      rw [hsame v hv] at hp hf
      exact ⟨v, hv, hp, hf⟩
    · rintro ⟨v, hv, hp, hf⟩
      rw [← hsame v hv] at hp hf
      exact ⟨v, hv, hp, hf⟩
  refine ⟨h'.kend.trans h.kend, fun v hlt hv hp => ?_, fun v hlt hno => ?_,
    fun i => (h'.tables i).trans (h.tables i), fun d' hd => (h'.other d' hd).trans (h.other d' hd), ?_⟩
  · rcases hv with hv | hv
    · have hzero := h.cleared v hlt hv hp
      rw [h'.kept v hlt fun hc => hdisj v hv hc.1, hzero]
    · exact h'.cleared v hlt hv (by rwa [hsame v hv])
  · have hfirst := h.kept v hlt fun hc => hno ⟨Or.inl hc.1, hc.2⟩
    rw [h'.kept v hlt fun hc => hno ⟨Or.inr hc.1, hfirst ▸ hc.2⟩, hfirst]
  · rw [pageFrames_union]
    exact h.free.trans (hframes ▸ h'.free) (hown.pageFrames_disjoint hR hR' hdisj)

theorem store_frames (dirs : ℕ → PgDir) (d va : ℕ) (pte : Pte) (i : ℕ) :
    (store dirs d va pte d i).map PageTable.frame = (dirs d i).map PageTable.frame := by
  unfold store
  cases ht : dirs d (pdx va) with
  | none => rfl
  | some t =>
    by_cases hi : i = pdx va
    · simp [hi, ht]
    · simp [hi]

theorem dropPresent_released (sel : Selection) (d : ℕ) (m : Machine) (hv : v < userPages) :
    Released d {v} m (m.dropPresent sel d v) := by
  rw [dropPresent]
  split_ifs with hp
  · have ht := hasTable_of_present hp
    have hlt : v < 0x100000 := lt_trans hv (by decide)
    have hfree : (m.dropPage sel d v (entry m.dirs d v)).freelist =
        frameOf (entry m.dirs d v) :: m.freelist := by
      unfold dropPage
      split_ifs <;> rfl
    refine ⟨dropPage_kend .., fun w _ hw _ => ?_, fun w hw hno => ?_, fun i => ?_, fun d' hd => ?_, ?_⟩
    · obtain rfl : w = v := hw
      rw [dropPage_dirs, entry_store_self ht hlt]
    · rw [dropPage_dirs, entry_store_ne ht hlt 0 hw]
      rintro ⟨-, rfl⟩
      exact hno ⟨rfl, hp⟩
    · rw [dropPage_dirs, store_frames]
    · rw [dropPage_dirs, store_of_ne hd]
    · have hone : pageFrames m.dirs d {v} = {frameOf (entry m.dirs d v)} := by
        ext f
        constructor
        · rintro ⟨w, rfl, -, rfl⟩
          rfl
        · rintro rfl
          exact ⟨v, rfl, hp, rfl⟩
      rw [hone, hfree]
      exact PutsFree.one _ _
  · refine Released.of_absent fun w hw => ?_
    obtain rfl : w = v := hw
    exact hp

theorem foldl_dropPresent_released (sel : Selection) {l : List ℕ} (hl : ∀ v ∈ l, v < userPages)
    (hnodup : l.Nodup) (h : OwnFrames d m) :
    Released d {w | w ∈ l} m (l.foldl (dropPresent sel d) m) := by
  induction l generalizing m with
  | nil => exact Released.of_absent fun w hR => absurd hR List.not_mem_nil
  | cons v l ih =>
    rw [List.forall_mem_cons] at hl
    rw [List.nodup_cons] at hnodup
    have hone := dropPresent_released sel d m hl.1
    have hset : ({v} ∪ {w | w ∈ l} : Set ℕ) = {w | w ∈ v :: l} := by
      ext w
      simp
    rw [← hset]
    refine hone.trans h (ih hl.2 hnodup.2 (h.released hone)) ?_ hl.2 ?_
    · rintro w rfl
      exact hl.1
    · rintro w rfl
      exact hnodup.1

theorem deallocuvm_released (sel : Selection) {oldsz newsz : ℕ} (hle : newsz ≤ oldsz)
    (hold : oldsz ≤ kernBase) (h : OwnFrames d m) :
    ∃ m', m.deallocuvm sel d oldsz newsz = .ok (newsz, m') ∧
      Released d {v | pgRoundUp newsz ≤ 4096 * v ∧ 4096 * v < oldsz} m m' := by
  have hround : pgRoundUp newsz = 4096 * pagesOf newsz := pgRoundUp_eq (by omega)
  have hset : {v | pgRoundUp newsz ≤ 4096 * v ∧ 4096 * v < oldsz} =
      {w | w ∈ List.range' (pagesOf newsz) (pagesOf oldsz - pagesOf newsz)} := by
    ext v
    simp only [Set.mem_ofPred_eq, List.mem_range'_1, hround, pagesOf]
    omega
  rcases Nat.lt_or_eq_of_le hle with hlt | rfl
  · have hfuel : pagesOf oldsz ≤ pagesOf newsz + (oldsz / 4096 + 1) := by
      simp only [pagesOf]
      omega
    refine ⟨_, ?_, hset ▸ foldl_dropPresent_released sel (fun v hv => ?_) List.nodup_range' h⟩
    · rw [deallocuvm, if_neg (by omega), hround,
        deallocLoop_eq sel d hold _ h.freeable.pagesValid hfuel]
      rfl
    · rw [List.mem_range'_1] at hv
      simp only [pagesOf, userPages, kernBase] at *
      omega
  · refine ⟨m, by rw [deallocuvm, if_pos le_rfl], Released.of_absent fun v hv => ?_⟩
    rw [hset, Nat.sub_self] at hv
    exact absurd hv List.not_mem_nil

end

/-! ### Page tables -/

section

variable {sel : Selection} {d : ℕ} {m m' : Machine}

theorem OwnFrames.congr (h : OwnFrames d m) (hk : m'.kend = m.kend) (hd : m'.dirs = m.dirs) :
    OwnFrames d m' := by
  refine ⟨h.freeable.congr hk (congrFun hd d), ?_, ?_, ?_, ?_, ?_⟩
  all_goals rw [hd]
  · exact h.page_inj
  · exact h.table_inj
  · exact h.page_table
  · exact h.dir_page
  · exact h.dir_table

theorem tableFrames_cons_none {dirs : ℕ → PgDir} {i : ℕ} (h : dirs d i = none) (l : List ℕ) :
    tableFrames dirs d {j | j ∈ i :: l} = tableFrames dirs d {j | j ∈ l} := by
  ext f
  simp [tableFrames, h]

theorem tableFrames_cons_some {dirs : ℕ → PgDir} {i : ℕ} {t : PageTable} (h : dirs d i = some t)
    (l : List ℕ) :
    tableFrames dirs d {j | j ∈ i :: l} = {t.frame} ∪ tableFrames dirs d {j | j ∈ l} := by
  ext f
  simp [tableFrames, h, eq_comm]

theorem freeTables_released (h : OwnFrames d m) {l : List ℕ} (hl : ∀ i ∈ l, i < 1024) (hnodup : l.Nodup) :
    ∃ m', freeTables d l m = .ok m' ∧ m'.dirs = m.dirs ∧ m'.kend = m.kend ∧
      PutsFree (tableFrames m.dirs d {i | i ∈ l}) m.freelist m'.freelist := by
  induction l generalizing m with
  | nil =>
    refine ⟨m, rfl, rfl, rfl, ?_⟩
    have hnone : tableFrames m.dirs d {i | i ∈ []} = ∅ := by simp [tableFrames]
    rw [hnone]
    exact PutsFree.refl _
  | cons i l ih =>
    rw [List.forall_mem_cons] at hl
    rw [List.nodup_cons] at hnodup
    rw [freeTables]
    cases ht : m.dirs d i with
    | none =>
      rw [tableFrames_cons_none ht]
      exact ih h hl.2 hnodup.2
    | some t =>
      have hfreed := kfree_eq (h.freeable.table i t ht)
      obtain ⟨m', hrun, hdirs, hkend, hfree⟩ := ih (m := m.freed t.frame) (h.congr rfl rfl) hl.2 hnodup.2
      refine ⟨m', ?_, hdirs, hkend, ?_⟩
      · simp only [hfreed, bind, Except.bind, hrun]
      · rw [tableFrames_cons_some ht]
        refine (PutsFree.one _ _).trans hfree ?_
        rintro f rfl ⟨j, hj, u, hu, heq⟩
        obtain rfl := h.table_inj j (hl.2 j hj) i hl.1 u t hu ht heq
        exact hnodup.1 hj

theorem freevm_released (sel : Selection) (h : OwnFrames d m) :
    ∃ m', m.freevm sel d = .ok m' ∧
      PutsFree (pageFrames m.dirs d userRange ∪ tableFrames m.dirs d slots ∪ {d}) m.freelist m'.freelist := by
  obtain ⟨m₁, hdealloc, hpages⟩ := deallocuvm_released sel (Nat.zero_le kernBase) le_rfl h
  have hown := h.released hpages
  obtain ⟨m₂, htables, hdirs, hkend, hfree⟩ := freeTables_released hown
    (l := List.range 1024) (fun i hi => List.mem_range.1 hi) List.nodup_range
  have hkfree := kfree_eq (hown.congr hkend hdirs).freeable.dir
  have huser : {v | pgRoundUp 0 ≤ 4096 * v ∧ 4096 * v < kernBase} = userRange := by
    ext v
    simp only [Set.mem_ofPred_eq, userRange, pgRoundUp, kernBase, userPages]
    omega
  have hslots : {i | i ∈ List.range 1024} = slots := by
    ext i
    simp [slots]
  rw [huser] at hpages
  rw [hslots, hpages.tableFrames_eq] at hfree
  refine ⟨{ m₂.freed d with dirs := Function.update m₂.dirs d fun _ => none }, ?_, ?_⟩
  · rw [freevm, hdealloc]
    simp only [bind, Except.bind, pure, Except.pure, htables, hkfree]
    rfl
  · refine (hpages.free.trans hfree h.page_table).trans (PutsFree.one d _) ?_
    rintro f hmem rfl
    exact hmem.elim h.dir_page h.dir_table

end

/-- For a directory in its own frames and sizes `newsz ≤ oldsz ≤ KERNBASE`: `deallocuvm` returns, and gives
back the present pages from `PGROUNDUP(newsz)` to `oldsz`, each frame once; `freevm` then puts exactly the
pages that are left, the page tables and the directory on the free list, each frame once. -/
theorem deallocuvm_freevm_exact (sel : Selection) {d oldsz newsz : ℕ} {m : Machine} (h : OwnFrames d m)
    (hle : newsz ≤ oldsz) (hold : oldsz ≤ kernBase) :
    ∃ m₁, m.deallocuvm sel d oldsz newsz = .ok (newsz, m₁) ∧
      Released d {v | pgRoundUp newsz ≤ 4096 * v ∧ 4096 * v < oldsz} m m₁ ∧
      ∃ m₂, m₁.freevm sel d = .ok m₂ ∧
        PutsFree (pageFrames m₁.dirs d userRange ∪ tableFrames m₁.dirs d slots ∪ {d}) m₁.freelist
          m₂.freelist := by
  obtain ⟨m₁, hdealloc, hreleased⟩ := deallocuvm_released sel hle hold h
  obtain ⟨m₂, hfreevm, hfree⟩ := freevm_released sel (h.released hreleased)
  exact ⟨m₁, hdealloc, hreleased, m₂, hfreevm, hfree⟩

section

variable {n frames v f : ℕ} {last : Int}

theorem sample_present (hn : n ≤ 16) (hv : v < userPages)
    (hp : flagOn (entry (sampleMachine n last frames).dirs 512 v) pteP = true) :
    v < n ∧ frameOf (entry (sampleMachine n last frames).dirs 512 v) = 528 + v := by
  have hentry := @sample_entry n frames last hn 512 v (lt_trans hv (by decide))
  rw [hentry, if_pos rfl] at hp ⊢
  by_cases hlt : v < n
  · exact ⟨hlt, (samplePte_flags hn hlt).2.2.2.1⟩
  · rw [samplePte_absent (not_lt.1 hlt)] at hp
    exact absurd hp (by decide)

theorem sample_pageFrame (hn : n ≤ 16)
    (hf : f ∈ pageFrames (sampleMachine n last frames).dirs 512 userRange) : 528 ≤ f := by
  obtain ⟨v, hv, hp, rfl⟩ := hf
  rw [(sample_present hn hv hp).2]
  exact Nat.le_add_right 528 v

theorem sample_table {i : ℕ} {t : PageTable} (ht : (sampleMachine n last frames).dirs 512 i = some t) :
    i = 0 ∧ t.frame = 513 := by
  simp only [sampleMachine] at ht
  split_ifs at ht with hi
  cases ht
  exact ⟨hi.2, rfl⟩

theorem sample_ownFrames (hn : n ≤ 16) : OwnFrames 512 (sampleMachine n last frames) where
  freeable := sample_freeable hn
  page_inj v hv w hw hpv hpw heq := by
    rw [(sample_present hn hv hpv).2, (sample_present hn hw hpw).2] at heq
    omega
  table_inj i _ j _ t u ht hu _ := by rw [(sample_table ht).1, (sample_table hu).1]
  page_table := by
    rintro f hf ⟨i, -, t, ht, rfl⟩
    have hge := sample_pageFrame hn hf
    rw [(sample_table ht).2] at hge
    omega
  dir_page hf := by
    have hge := sample_pageFrame hn hf
    omega
  dir_table := by
    rintro ⟨i, -, t, ht, heq⟩
    rw [(sample_table ht).2] at heq
    omega

end

/-- An image of four pages cut in its third page. -/
theorem deallocuvm_freevm_exact_four :
    ∃ m₁, (sampleMachine 4 4 8).deallocuvm .SCFIFO 512 16384 9000 = .ok (9000, m₁) ∧
      Released 512 {v | pgRoundUp 9000 ≤ 4096 * v ∧ 4096 * v < 16384} (sampleMachine 4 4 8) m₁ ∧
      ∃ m₂, m₁.freevm .SCFIFO 512 = .ok m₂ ∧
        PutsFree (pageFrames m₁.dirs 512 userRange ∪ tableFrames m₁.dirs 512 slots ∪ {512}) m₁.freelist
          m₂.freelist :=
  deallocuvm_freevm_exact .SCFIFO (sample_ownFrames (by decide)) (by decide) (by decide)

end Xv6
