import Xv6.Dropping
import Xv6.Growth
import Xv6.Mapping

/-!
# `growproc` as all or nothing

While `allocuvm` adds pages one by one, other processes take frames from the free list and put frames
back, so each of its calls of `kalloc` may fail whatever the earlier ones did.  `growprocFrom` is
`growproc` with these outcomes given from outside; with every call granted it is `growproc` itself.

A call is all or nothing when it returns 0 and the process has exactly the pages of the size asked
for, or returns -1 and the process has the memory it had.  Four things go wrong.  A new size of 0
reads as a failure, after everything was given back.  A decrement past 0 wraps and reads as success.
`deallocuvm` passes over paged-out pages, when a process shrinks and when a growth is undone.  And the
results of `mappages` and `write2file` are not looked at.
-/

namespace Xv6

open Machine

/-! ### The calls with `kalloc` outcomes from outside -/

/-- Which calls of `kalloc` are granted while `allocuvm` adds its page number `i`: the one for the
page, and the one for a page table that it may need. -/
structure Supply where
  page : ℕ → Bool
  table : ℕ → Bool

/-- Every call is granted, as long as there are frames. -/
def Supply.plenty : Supply := ⟨fun _ => true, fun _ => true⟩

namespace Machine

/-- `kalloc`, when it is granted. -/
def kallocFrom (granted : Bool) (m : Machine) : Option (ℕ × Machine) :=
  if granted then m.kalloc else none

/-- `mappages`; the free list is out of reach when a page table is not granted. -/
def mappagesFrom (granted : Bool) (m : Machine) (pgdir va size f : ℕ) (perm : Pte) :
    Except Halt (Bool × Machine) :=
  if granted then m.mappages pgdir va size f perm
  else do
    let (ok, m') ← mappages { m with freelist := [] } pgdir va size f perm
    return (ok, { m' with freelist := m.freelist })

/-- One round of `allocuvm`, `none` when there is no frame for the page. -/
def addRound (s : Supply) (sel : Selection) (pgdir oldsz i : ℕ) (m : Machine) :
    Except Halt (Option Machine) :=
  let a := pgRoundUp oldsz + 4096 * i
  match m.kallocFrom (s.page i) with
  | none => .ok none
  | some (f, m) => do
    let m := (m.setOwner f pgdir (a / 4096)).setFrame f fun _ => 0
    let (_, m) ← m.mappagesFrom (s.table i) pgdir a 4096 f (pteW ||| pteU)
    let m ← m.trackPage sel pgdir a (pgRoundUp oldsz / 4096 + (i + 1))
    return some m

def allocLoopFrom (s : Supply) (sel : Selection) (pgdir oldsz newsz : ℕ) :
    ℕ → ℕ → Machine → Except Halt (ℕ × Machine)
  | 0, _, m => .ok (newsz, m)
  | count + 1, i, m => do
    match ← m.addRound s sel pgdir oldsz i with
    | none => do
      let (_, m) ← m.deallocuvm sel pgdir newsz oldsz
      return (0, m)
    | some m => allocLoopFrom s sel pgdir oldsz newsz count (i + 1) m

def allocuvmFrom (s : Supply) (sel : Selection) (m : Machine) (pgdir oldsz newsz : ℕ) :
    Except Halt (ℕ × Machine) :=
  if kernBase ≤ newsz then .ok (0, m)
  else if newsz < oldsz then .ok (oldsz, m)
  else allocLoopFrom s sel pgdir oldsz newsz ((newsz - pgRoundUp oldsz + 4095) / 4096) 0 m

theorem allocLoopFrom_result {s : Supply} {sel : Selection} {d oldsz newsz r : ℕ} {m' : Machine}
    (count : ℕ) {i : ℕ} {m : Machine}
    (hrun : allocLoopFrom s sel d oldsz newsz count i m = .ok (r, m')) : r = newsz ∨ r = 0 := by
  induction count generalizing i m with
  | zero =>
    cases hrun
    exact Or.inl rfl
  | succ count ih =>
    obtain ⟨o, -, hrun⟩ := Run.bind_ok hrun
    cases o with
    | none =>
      obtain ⟨_, -, hrun⟩ := Run.bind_ok hrun
      cases hrun
      exact Or.inr rfl
    | some m₁ => exact ih hrun

theorem pagesOf_sub (oldsz newsz : ℕ) (h : oldsz ≤ kernBase) :
    (newsz - pgRoundUp oldsz + 4095) / 4096 = pagesOf newsz - pagesOf oldsz := by
  rw [pgRoundUp_eq h]
  simp only [pagesOf]
  omega

end Machine

/-! ### What is asked of a call -/

/-- The process has the memory it had. -/
structure Restored (m m' : Machine) : Prop where
  sz : m'.proc.sz = m.proc.sz
  below : ∀ v < pagesOf m.proc.sz, ∀ page, m.Holds v page → m'.Holds v page
  above : ∀ v, pagesOf m.proc.sz ≤ v → v < userPages → m'.Absent v
  ram : ∀ i, (m'.proc.ramMonitor i).used → (m'.proc.ramMonitor i).pVa < 4096 * pagesOf m.proc.sz
  swap : ∀ i, (m'.proc.swapMonitor i).used → (m'.proc.swapMonitor i).pVa < 4096 * pagesOf m.proc.sz

/-- The pages of a process's size are in memory or in its swap file, and no others are.  A process
with a pid past the shell's has them tracked, unless paging is off. -/
structure Consistent (sel : Selection) (m : Machine) : Prop where
  frames : FramesOk m
  dir : m.proc.pgdir ∉ m.freelist ∧ m.owner m.proc.pgdir = none
  sz : m.proc.sz < kernBase
  below : ∀ v < pagesOf m.proc.sz, ∃ page, m.Holds v page
  above : ∀ v, pagesOf m.proc.sz ≤ v → v < userPages → m.Absent v
  ram : ∀ i, (m.proc.ramMonitor i).used → (m.proc.ramMonitor i).pVa < 4096 * pagesOf m.proc.sz
  swap : ∀ i, (m.proc.swapMonitor i).used → (m.proc.swapMonitor i).pVa < 4096 * pagesOf m.proc.sz
  paged : 2 < m.proc.pid → sel ≠ .NONE →
    ∃ flat, Ready sel m (pagesOf m.proc.sz) (transit sel) flat

/-! ### When a call is all or nothing -/

/-- The page table of page `v` is there or can be made. -/
def Machine.canMap (m : Machine) (granted : Bool) (d v : ℕ) : Bool :=
  (m.walkpgdir d (4096 * v)).isSome || granted && decide (2 ≤ m.freelist.length)

/-- The rounds of a growth, `count` to go and `i` done.  When `kalloc` fails no new page is paged out,
every page past the sixteenth finds a free slot for the page it evicts, and in the end every new page
was mapped. -/
def Grows (s : Supply) (sel : Selection) (d oldsz : ℕ) : ℕ → ℕ → Bool → Machine → Prop
  | 0, _, whole, _ => whole
  | count + 1, i, whole, m =>
    (m.kallocFrom (s.page i) = none →
      ∀ v, pagesOf oldsz ≤ v → v < pagesOf oldsz + i → ¬ m.PagedOut v) ∧
    (m.kallocFrom (s.page i) ≠ none → 2 < m.proc.pid → sel ≠ .NONE → 16 ≤ pagesOf oldsz + i →
      swapCount m < 16) ∧
    ∀ m', m.addRound s sel d oldsz i = .ok (some m') →
      Grows s sel d oldsz count (i + 1) (whole && m.canMap (s.table i) d (pagesOf oldsz + i)) m'

section

variable {s : Supply} {sel : Selection} {m m' : Machine} {n : Int} {v : ℕ} {page : Page}

theorem Dropped.holds {R : Set ℕ} (h : Dropped sel m.proc.pgdir R m m') (hv : v < userPages)
    (hR : v ∉ R ∨ ¬ m.Present v) (hh : m.Holds v page) : m'.Holds v page := by
  have hproc : m'.proc.pgdir = m.proc.pgdir := by rw [h.same]
  have hpte : m'.pte v = m.pte v := by
    rw [Machine.pte, Machine.pte, hproc]
    refine h.kept _ v (lt_trans hv (by decide)) fun hc => ?_
    rcases hR with hR | hR
    · exact hR hc.2.2.1
    · exact hR hc.2.2.2
  rcases hh with ⟨hp, hd⟩ | ⟨ho, i, hu, ha, hs⟩
  · refine Or.inl ⟨?_, ?_⟩
    · rw [Present, hpte]
      exact hp
    · rw [hpte, ← hd]
      exact h.data _ v hv hp fun hc => (hR.resolve_right fun hn => hn hp) hc.2
  · refine Or.inr ⟨?_, i, ?_, ?_, ?_⟩
    · rw [PagedOut, hpte]
      exact ho
    · rw [h.same]
      exact hu
    · rw [h.same]
      exact ha
    · rw [h.same]
      exact hs

theorem Dropped.absent {R : Set ℕ} (h : Dropped sel m.proc.pgdir R m m') (hv : v < userPages)
    (hR : m.Absent v ∨ v ∈ R ∧ m.Present v) : m'.Absent v := by
  have hproc : m'.proc.pgdir = m.proc.pgdir := by rw [h.same]
  rcases hR with habs | ⟨hR, hp⟩
  · have hpte : m'.pte v = m.pte v := by
      rw [Machine.pte, Machine.pte, hproc]
      refine h.kept _ v (lt_trans hv (by decide)) fun hc => ?_
      have hp : m.Present v := hc.2.2.2
      exact hp.not_absent habs
    rw [Absent, hpte]
    exact habs
  · rw [Absent, Machine.pte, hproc, h.gone v hv hR hp]
    decide

theorem Machine.Holds.not_absent (h : m.Holds v page) : ¬ m.Absent v := by
  rcases h with ⟨hp, -⟩ | ⟨ho, -⟩
  · exact hp.not_absent
  · exact ho.not_absent

theorem Machine.Holds.present_or (h : m.Holds v page) :
    m.Present v ∨ m.PagedOut v := h.imp (·.1) (·.1)

end

/-! ### One round -/

section

variable {m : Machine} {d v f : ℕ} {perm : Pte}

/-- Page `v` of `d` is mapped to frame `f`, with a new page table if it had none. -/
structure MapsPage (d v f : ℕ) (perm : Pte) (m m' : Machine) : Prop extends Extends d m m' where
  entry_self : entry m'.dirs d v = mapPte f perm
  entry_ne : ∀ w < 0x100000, w ≠ v → entry m'.dirs d w = entry m.dirs d w

theorem MapsPage.of_setPte (hv : v < 0x100000) {m₁ : Machine} (hx : Extends d m m₁)
    (ht : HasTable m₁.dirs d v) (he : ∀ w, entry m₁.dirs d w = entry m.dirs d w) :
    MapsPage d v f perm m (m₁.setPte d (4096 * v) (mapPte f perm)) where
  toExtends := hx.trans (Extends.setPte d m₁ _ _)
  entry_self := entry_store_self ht hv _
  entry_ne w hw hne := by
    rw [← he w]
    exact entry_store_ne ht hv _ hw fun hc => hne hc.2

theorem FramesOk.mapsPage {m' : Machine} (h : FramesOk m) (hd : d ∉ m.freelist ∧ m.owner d = none)
    (hv : v < userPages) (howner : m.owner f = some (d, v)) (hperm : perm.toNat < 4096)
    (hmap : MapsPage d v f perm m m') : FramesOk m' := by
  have hf : f < 0x100000 := lt_trans (h.ownedValid f _ howner).2 (by decide)
  refine h.extends hmap.toExtends hd (fun w hw hp => ?_) (fun w hw hp hg => ?_)
  · by_cases hwv : w = v
    · subst hwv
      rw [hmap.entry_self, frameOf_mapPte _ hf hperm, howner]
    · rw [hmap.entry_ne w (lt_trans hw (by decide)) hwv] at hp ⊢
      exact h.owned _ w hw hp
  · by_cases hwv : w = v
    · subst hwv
      rw [hmap.entry_self, mapPte_present] at hp
      cases hp
    · rw [hmap.entry_ne w (lt_trans hw (by decide)) hwv] at hp hg ⊢
      exact h.cleared _ w hw hp hg

theorem mappages_eq_false (hv : v < 0x100000) (hfree : m.freelist = [])
    (ht : ¬ HasTable m.dirs d v) :
    m.mappages d (4096 * v) 4096 f perm = .ok (false, m) := by
  have hnone : m.dirs d (pdx (4096 * v)) = none := by simpa [HasTable] using ht
  rw [mappages_page_eq hv, mapLoop]
  simp [walkpgdirAlloc, hnone, kalloc, hfree]

theorem mappages_mapsPage (hv : v < 0x100000) (hp : flagOn (entry m.dirs d v) pteP = false)
    (hcan : HasTable m.dirs d v ∨ m.freelist ≠ []) :
    ∃ m', m.mappages d (4096 * v) 4096 f perm = .ok (true, m') ∧ MapsPage d v f perm m m' := by
  by_cases ht : HasTable m.dirs d v
  · refine ⟨_, mappages_page hv ht hp, ?_⟩
    exact MapsPage.of_setPte hv (Extends.refl d m) ht fun _ => rfl
  · obtain ⟨g, rest, hg⟩ := List.exists_cons_of_ne_nil (hcan.resolve_left ht)
    have hnone : m.dirs d (pdx (4096 * v)) = none := by simpa [HasTable] using ht
    have halloc : m.walkpgdirAlloc d (4096 * v) =
        some { m with dirs := addTable m.dirs d (4096 * v) g, freelist := rest } := by
      simp [walkpgdirAlloc, hnone, kalloc, hg]
    obtain ⟨hx, ht₁, he⟩ := walkpgdirAlloc_ok halloc
    refine ⟨_, ?_, MapsPage.of_setPte hv hx ht₁ (he d)⟩
    rw [mappages_page_eq hv, mapLoop, halloc]
    simp only [walkpgdir, walk_eq_entry ht₁, he, hp, Bool.false_eq_true, if_false, mapLoop]

theorem mappagesFrom_true (m : Machine) (d va size f : ℕ) (perm : Pte) :
    m.mappagesFrom true d va size f perm = m.mappages d va size f perm := by
  simp only [mappagesFrom, if_true]

theorem mappagesFrom_false {ok : Bool} {va size : ℕ} {m' : Machine}
    (h : Machine.mappages { m with freelist := [] } d va size f perm = .ok (ok, m')) :
    m.mappagesFrom false d va size f perm = .ok (ok, { m' with freelist := m.freelist }) := by
  rw [mappagesFrom, if_neg (by decide), h]
  rfl

theorem mappagesFrom_page (granted : Bool) (f : ℕ) (perm : Pte) (hv : v < 0x100000)
    (ht : HasTable m.dirs d v) (hp : flagOn (entry m.dirs d v) pteP = false) :
    m.mappagesFrom granted d (4096 * v) 4096 f perm =
      .ok (true, m.setPte d (4096 * v) (mapPte f perm)) := by
  cases granted with
  | true =>
    rw [mappagesFrom_true]
    exact mappages_page hv ht hp
  | false => exact mappagesFrom_false (mappages_page hv ht hp)

theorem mappagesFrom_cases (granted : Bool) (f : ℕ) (perm : Pte) (hv : v < 0x100000)
    (hp : flagOn (entry m.dirs d v) pteP = false) :
    (HasTable m.dirs d v ∨ granted = true ∧ m.freelist ≠ []) ∧
      (∃ m', m.mappagesFrom granted d (4096 * v) 4096 f perm = .ok (true, m') ∧
        MapsPage d v f perm m m') ∨
    ¬ (HasTable m.dirs d v ∨ granted = true ∧ m.freelist ≠ []) ∧
      m.mappagesFrom granted d (4096 * v) 4096 f perm = .ok (false, m) := by
  by_cases ht : HasTable m.dirs d v
  · exact Or.inl ⟨Or.inl ht, _, mappagesFrom_page granted f perm hv ht hp,
      MapsPage.of_setPte hv (Extends.refl d m) ht fun _ => rfl⟩
  · cases granted with
    | true =>
      rw [mappagesFrom_true]
      by_cases hfree : m.freelist = []
      · refine Or.inr ⟨?_, mappages_eq_false hv hfree ht⟩
        rintro (hc | ⟨-, hc⟩)
        · exact ht hc
        · exact hc hfree
      · exact Or.inl ⟨Or.inr ⟨rfl, hfree⟩, mappages_mapsPage hv hp (Or.inr hfree)⟩
    | false =>
      refine Or.inr ⟨?_, ?_⟩
      · rintro (hc | ⟨hc, -⟩)
        · exact ht hc
        · cases hc
      · have hfalse : Machine.mappages { m with freelist := [] } d (4096 * v) 4096 f perm =
            .ok (false, { m with freelist := [] }) := mappages_eq_false hv rfl ht
        rw [mappagesFrom_false hfalse]

theorem canMap_iff {granted : Bool} {rest : List ℕ} (hf : m.freelist = f :: rest) :
    m.canMap granted d v = true ↔ HasTable m.dirs d v ∨ granted = true ∧ rest ≠ [] := by
  have hlen : 2 ≤ m.freelist.length ↔ rest ≠ [] := by
    rw [hf, List.length_cons]
    cases rest with
    | nil => simp
    | cons g rest => simp
  have htab : (m.walkpgdir d (4096 * v)).isSome = true ↔ HasTable m.dirs d v := by
    rw [Option.isSome_iff_ne_none, ne_eq, walkpgdir, walk_eq_none_iff, not_not]
  rw [canMap, Bool.or_eq_true, htab, Bool.and_eq_true, decide_eq_true_iff, hlen]

theorem kallocFrom_cases (granted : Bool) (m : Machine) :
    m.kallocFrom granted = none ∨ granted = true ∧ ∃ f rest, m.freelist = f :: rest ∧
      m.kallocFrom granted = some (f, { m with freelist := rest }) := by
  cases granted with
  | false => exact Or.inl rfl
  | true =>
    cases hf : m.freelist with
    | nil =>
      left
      simp [kallocFrom, kalloc, hf]
    | cons f rest =>
      right
      exact ⟨rfl, f, rest, rfl, by simp [kallocFrom, kalloc, hf]⟩

theorem addRound_eq {s : Supply} {sel : Selection} {oldsz i : ℕ} {rest : List ℕ}
    (hold : oldsz ≤ kernBase)
    (hk : m.kallocFrom (s.page i) = some (f, { m with freelist := rest })) :
    m.addRound s sel m.proc.pgdir oldsz i = (do
      let (_, m') ← (m.allocated f rest (pagesOf oldsz + i) fun _ => 0).mappagesFrom (s.table i)
        m.proc.pgdir (4096 * (pagesOf oldsz + i)) 4096 f (pteW ||| pteU)
      let m' ← m'.trackPage sel m.proc.pgdir (4096 * (pagesOf oldsz + i)) (pagesOf oldsz + i + 1)
      return some m') := by
  have ha : 4096 * pagesOf oldsz + 4096 * i = 4096 * (pagesOf oldsz + i) := by omega
  have hd : 4096 * (pagesOf oldsz + i) / 4096 = pagesOf oldsz + i := by omega
  have hN : 4096 * pagesOf oldsz / 4096 + (i + 1) = pagesOf oldsz + i + 1 := by omega
  rw [addRound]
  simp only [hk, pgRoundUp_eq hold, ha, hd, hN]
  rfl

end

/-! ### Growing without tracking -/

section

variable {s : Supply} {sel : Selection} {m₀ m m' : Machine} {N i : ℕ} {whole : Bool} {f oldsz newsz : ℕ}

/-- A growth of a process whose pages are not tracked, after `i` rounds: the pages from `N` on are
resident or missing, and none is missing if `whole`. -/
structure Filling (m₀ m : Machine) (N i : ℕ) (whole : Bool) : Prop where
  size : N + i ≤ userPages
  frames : FramesOk m
  dir : m.proc.pgdir ∉ m.freelist ∧ m.owner m.proc.pgdir = none
  proc : m.proc = m₀.proc
  pte : ∀ v < N, m.pte v = m₀.pte v
  data : ∀ v < N, m₀.Present v → m.data (frameOf (m₀.pte v)) = m₀.data (frameOf (m₀.pte v))
  new : ∀ v, N ≤ v → v < N + i → m.Present v ∨ m.Absent v ∧ whole = false
  missing : whole = false → ∃ v, N ≤ v ∧ v < N + i ∧ m.Absent v
  above : ∀ v, N + i ≤ v → v < userPages → m.Absent v

section

variable (h : Filling m₀ m N i whole)

include h

theorem Filling.holds {v : ℕ} (hv : v < N) {page : Page} (hh : m₀.Holds v page) : m.Holds v page := by
  rcases hh with ⟨hp, hd⟩ | ⟨ho, j, hu, ha, hs⟩
  · refine Or.inl ⟨?_, ?_⟩
    · rw [Present, h.pte v hv]
      exact hp
    · rw [h.pte v hv, h.data v hv hp, hd]
  · refine Or.inr ⟨?_, j, ?_⟩
    · rw [PagedOut, h.pte v hv]
      exact ho
    · rw [h.proc]
      exact ⟨hu, ha, hs⟩

theorem Filling.allocated {p : ℕ} {rest : List ℕ} (hf : m.freelist = f :: rest) :
    Filling m₀ (m.allocated f rest p fun _ => 0) N i whole := by
  have hdf : m.proc.pgdir ≠ f := by
    intro hc
    exact h.dir.1 (by rw [hf, hc]; exact List.mem_cons_self)
  refine ⟨h.size, h.frames.alloc hf rfl rfl rfl rfl, ⟨fun hc => ?_, ?_⟩, h.proc, h.pte,
    fun v hv hp => ?_, h.new, h.missing, h.above⟩
  · exact h.dir.1 (by rw [hf]; exact List.mem_cons_of_mem f hc)
  · exact (Function.update_of_ne hdf _ _).trans h.dir.2
  · have hu : v < userPages := by
      have := h.size
      omega
    have hpte : entry m.dirs m.proc.pgdir v = m₀.pte v := h.pte v hv
    have hne : frameOf (m₀.pte v) ≠ f := by
      intro hc
      have howned := h.frames.owned m.proc.pgdir v hu (by rw [hpte]; exact hp)
      rw [hpte, hc, h.frames.free f (by rw [hf]; exact List.mem_cons_self)] at howned
      cases howned
    exact (Function.update_of_ne hne _ _).trans (h.data v hv hp)

theorem Filling.mapped (hp : N + i < userPages) (howner : m.owner f = some (m.proc.pgdir, N + i))
    (hmap : MapsPage m.proc.pgdir (N + i) f (pteW ||| pteU) m m') :
    Filling m₀ m' N (i + 1) whole := by
  have hlt : N + i < 0x100000 := lt_trans hp (by decide)
  have hproc : m'.proc = m.proc := by rw [hmap.same]
  have hdata : m'.data = m.data := by rw [hmap.same]
  have hpte : ∀ v < 0x100000, v ≠ N + i → m'.pte v = m.pte v := by
    intro v hv hne
    rw [Machine.pte, Machine.pte, hproc]
    exact hmap.entry_ne v hv hne
  have hself : m'.pte (N + i) = mapPte f (pteW ||| pteU) := by
    rw [Machine.pte, hproc]
    exact hmap.entry_self
  have hpres : m'.Present (N + i) := by
    rw [Present, hself]
    exact mapPte_present _
  have hframes := h.frames.mapsPage h.dir hp howner (by decide) hmap
  have hsize := h.size
  have hsame : ∀ v < userPages, v ≠ N + i → m'.pte v = m.pte v :=
    fun v hv hne => hpte v (lt_trans hv (by decide)) hne
  refine ⟨by omega, hframes, ?_, hproc.trans h.proc, fun v hv => ?_, fun v hv hpv => ?_,
    fun v hv hvi => ?_, fun hw => ?_, fun v hv hu => ?_⟩
  · rw [hproc]
    refine ⟨fun hc => h.dir.1 (hmap.free.subset hc), ?_⟩
    rw [hmap.same]
    exact h.dir.2
  · rw [hsame v (by omega) (by omega), h.pte v hv]
  · rw [hdata]
    exact h.data v hv hpv
  · by_cases hvp : v = N + i
    · subst hvp
      exact Or.inl hpres
    · rw [Present, Absent, hsame v (by omega) hvp]
      exact h.new v hv (by omega)
  · obtain ⟨v, hv, hvi, habs⟩ := h.missing hw
    refine ⟨v, hv, by omega, ?_⟩
    rw [Absent, hsame v (by omega) (by omega)]
    exact habs
  · rw [Absent, hsame v hu (by omega)]
    exact h.above v (by omega) hu

theorem Filling.skipped (hp : N + i < userPages) : Filling m₀ m N (i + 1) false := by
  refine ⟨by omega, h.frames, h.dir, h.proc, h.pte, h.data, fun v hv hvi => ?_, fun _ => ?_,
    fun v hv hu => h.above v (by omega) hu⟩
  · by_cases hvp : v = N + i
    · subst hvp
      exact Or.inr ⟨h.above _ le_rfl hp, rfl⟩
    · exact (h.new v hv (by omega)).imp_right fun ha => ⟨ha.1, rfl⟩
  · exact ⟨N + i, by omega, by omega, h.above _ le_rfl hp⟩

theorem Filling.round {rest : List ℕ}
    (hplain : ¬ (2 < m.proc.pid ∧ sel ≠ .NONE)) (hN : pagesOf oldsz = N) (hold : oldsz ≤ kernBase)
    (hp : N + i < userPages) (hf : m.freelist = f :: rest)
    (hk : m.kallocFrom (s.page i) = some (f, { m with freelist := rest })) :
    ∃ m', m.addRound s sel m.proc.pgdir oldsz i = .ok (some m') ∧
      Filling m₀ m' N (i + 1) (whole && m.canMap (s.table i) m.proc.pgdir (N + i)) := by
  subst hN
  have h₁ := h.allocated (p := pagesOf oldsz + i) hf
  have htrack : ∀ m' : Machine, m'.proc = m.proc →
      m'.trackPage sel m.proc.pgdir (4096 * (pagesOf oldsz + i)) (pagesOf oldsz + i + 1) = .ok m' := by
    intro m' hproc
    rw [trackPage, if_neg (by rw [hproc]; exact hplain)]
  rw [addRound_eq hold hk]
  rcases mappagesFrom_cases (m := m.allocated f rest (pagesOf oldsz + i) fun _ => 0)
      (d := m.proc.pgdir) (s.table i) f (pteW ||| pteU)
      (lt_trans hp (by decide)) (h₁.above _ le_rfl hp).1 with
    ⟨hcan, m', hmap, hpage⟩ | ⟨hcan, hmap⟩
  · have hwhole : m.canMap (s.table i) m.proc.pgdir (pagesOf oldsz + i) = true :=
      (canMap_iff hf).2 hcan
    have h' := h₁.mapped hp (allocated_owner m f rest _ _) hpage
    refine ⟨m', ?_, ?_⟩
    · have hproc : m'.proc = m.proc := by rw [hpage.same]; rfl
      simp only [hmap, bind, Except.bind, htrack m' hproc]
      rfl
    · rw [hwhole, Bool.and_true]
      exact h'
  · have hwhole : m.canMap (s.table i) m.proc.pgdir (pagesOf oldsz + i) = false := by
      rw [Bool.eq_false_iff]
      exact fun hc => hcan ((canMap_iff hf).1 hc)
    refine ⟨m.allocated f rest (pagesOf oldsz + i) fun _ => 0, ?_, ?_⟩
    · simp only [hmap, bind, Except.bind,
        htrack (m.allocated f rest (pagesOf oldsz + i) fun _ => 0) rfl]
      rfl
    · rw [hwhole, Bool.and_false]
      exact h₁.skipped hp

end

/-- The process has exactly the pages below `q`. -/
def HasPages (m : Machine) (q : ℕ) : Prop :=
  (∀ v < q, ∃ page, m.Holds v page) ∧ ∀ v, q ≤ v → v < userPages → m.Absent v

/-- The outcome of `allocuvm`'s loop that is asked for. -/
def LoopOk (s : Supply) (sel : Selection) (m₀ : Machine) (oldsz newsz count i : ℕ) (m : Machine) :
    Prop :=
  ∃ r m', allocLoopFrom s sel m.proc.pgdir oldsz newsz count i m = .ok (r, m') ∧
    (r = newsz ∧ HasPages m' (pagesOf newsz) ∨ r = 0 ∧ Restored m₀ m')

theorem LoopOk.next {count : ℕ} (hround : m.addRound s sel m.proc.pgdir oldsz i =
    .ok (some m')) (hdir : m'.proc.pgdir = m.proc.pgdir) :
    LoopOk s sel m₀ oldsz newsz (count + 1) i m ↔
      LoopOk s sel m₀ oldsz newsz count (i + 1) m' := by
  have hcode : allocLoopFrom s sel m.proc.pgdir oldsz newsz (count + 1) i m =
      allocLoopFrom s sel m'.proc.pgdir oldsz newsz count (i + 1) m' := by
    rw [allocLoopFrom, hround, hdir]
    rfl
  rw [LoopOk, LoopOk, hcode]

end

end Xv6
