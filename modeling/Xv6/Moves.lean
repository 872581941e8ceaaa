import Xv6.Space

/-!
# Moves of a page

The elementary moves that the paging code is made of: mapping a fresh zero page, starting and
ceasing to track a resident page, writing a resident page out to a slot, fetching a page back from
its slot, and dropping a page.  Each keeps the paging invariant, with the pages in transit between a
frame and a monitor entry recorded in `X`.  All but the tracking moves change one page and leave the
others alone (`Move`), which is what their proofs share.
-/

namespace Xv6

open Machine

/-- Page `v` of the running process is the only one that changes. -/
structure Move (m m' : Machine) (v : ℕ) : Prop where
  pgdir : m'.proc.pgdir = m.proc.pgdir
  table : ∀ w, HasTable m'.dirs m.proc.pgdir w ↔ HasTable m.dirs m.proc.pgdir w
  pte : ∀ w < 0x100000, w ≠ v → m'.pte w = m.pte w
  data : ∀ w < userPages, w ≠ v → m.Present w →
    m'.data (frameOf (m.pte w)) = m.data (frameOf (m.pte w))
  slot : ∀ i, (m.proc.swapMonitor i).used → (m.proc.swapMonitor i).pVa ≠ 4096 * v →
    (m'.proc.swapMonitor i).used ∧ (m'.proc.swapMonitor i).pVa = (m.proc.swapMonitor i).pVa ∧
      slotPage m'.proc.swapFile i = slotPage m.proc.swapFile i

namespace Move

variable {m m' : Machine} {v w n n' : ℕ} {X X' : Set ℕ}

section

variable (h : Move m m' v)

include h

theorem present_iff (hw : w < 0x100000) (hne : w ≠ v) : m'.Present w ↔ m.Present w := by
  rw [Machine.Present, Machine.Present, h.pte w hw hne]

theorem pagedOut_iff (hw : w < 0x100000) (hne : w ≠ v) : m'.PagedOut w ↔ m.PagedOut w := by
  rw [Machine.PagedOut, Machine.PagedOut, h.pte w hw hne]

theorem absent_iff (hw : w < 0x100000) (hne : w ≠ v) : m'.Absent w ↔ m.Absent w := by
  rw [Machine.Absent, Machine.Absent, h.pte w hw hne]

theorem holds (hw : w < userPages) (hne : w ≠ v) {page : Page} (hh : m.Holds w page) : m'.Holds w page := by
  have hlt : w < 0x100000 := lt_trans hw (by decide)
  rcases hh with ⟨hp, hd⟩ | ⟨ho, i, hu, ha, hs⟩
  · refine Or.inl ⟨(h.present_iff hlt hne).2 hp, ?_⟩
    rw [h.pte w hlt hne, h.data w hw hne hp, hd]
  · obtain ⟨hu', ha', hs'⟩ := h.slot i hu (by omega)
    exact Or.inr ⟨(h.pagedOut_iff hlt hne).2 ho, i, hu', ha'.trans ha, hs'.trans hs⟩

theorem pageOk (hw : w < userPages) (hne : w ≠ v) {x : FlatPage} (hx : m.PageOk w x) : m'.PageOk w x := by
  have hlt : w < 0x100000 := lt_trans hw (by decide)
  cases x with
  | absent => exact (h.absent_iff hlt hne).2 hx
  | guard => exact fun ha => hx ((h.absent_iff hlt hne).1 ha)
  | data bytes =>
    refine ⟨h.holds hw hne hx.1, ?_⟩
    rw [h.pte w hlt hne]
    exact hx.2

theorem ramPages_eq (hs : n ≤ maxTotalPages) (hn : ∀ w ≠ v, w < n' ↔ w < n)
    (hX : ∀ w ≠ v, w ∈ X' ↔ w ∈ X) (hold : v < n → m.Present v → v ∈ X)
    (hnew : v < n' → m'.Present v → v ∈ X') : m'.ramPages n' X' = m.ramPages n X := by
  simp only [maxTotalPages] at hs
  ext a
  constructor
  · rintro ⟨w, hw, rfl, hp, hx⟩
    have hne : w ≠ v := by
      rintro rfl
      exact hx (hnew hw hp)
    have hwn := (hn w hne).1 hw
    exact ⟨w, hwn, rfl, (h.present_iff (by omega) hne).1 hp, fun hc => hx ((hX w hne).2 hc)⟩
  · rintro ⟨w, hw, rfl, hp, hx⟩
    have hne : w ≠ v := by
      rintro rfl
      exact hx (hold hw hp)
    exact ⟨w, (hn w hne).2 hw, rfl, (h.present_iff (by omega) hne).2 hp,
      fun hc => hx ((hX w hne).1 hc)⟩

theorem mem_swapPages_iff (hs : n ≤ maxTotalPages) (hn : ∀ w ≠ v, w < n' ↔ w < n) {a : ℕ} (ha : a ≠ 4096 * v) :
    a ∈ m'.swapPages n' ↔ a ∈ m.swapPages n := by
  simp only [maxTotalPages] at hs
  constructor
  · rintro ⟨w, hw, rfl, hp⟩
    have hne : w ≠ v := by
      rintro rfl
      exact ha rfl
    have hwn := (hn w hne).1 hw
    exact ⟨w, hwn, rfl, (h.pagedOut_iff (by omega) hne).1 hp⟩
  · rintro ⟨w, hw, rfl, hp⟩
    have hne : w ≠ v := by
      rintro rfl
      exact ha rfl
    exact ⟨w, (hn w hne).2 hw, rfl, (h.pagedOut_iff (by omega) hne).2 hp⟩

end

theorem of_store {pte : Pte} (ht : HasTable m.dirs m.proc.pgdir v) (hv : v < 0x100000)
    (hpgdir : m'.proc.pgdir = m.proc.pgdir)
    (hdirs : m'.dirs = store m.dirs m.proc.pgdir (4096 * v) pte)
    (hdata : ∀ w < userPages, w ≠ v → m.Present w →
      m'.data (frameOf (m.pte w)) = m.data (frameOf (m.pte w)))
    (hslot : ∀ i, (m.proc.swapMonitor i).used → (m.proc.swapMonitor i).pVa ≠ 4096 * v →
      (m'.proc.swapMonitor i).used ∧ (m'.proc.swapMonitor i).pVa = (m.proc.swapMonitor i).pVa ∧
        slotPage m'.proc.swapFile i = slotPage m.proc.swapFile i) : Move m m' v where
  pgdir := hpgdir
  table w := by rw [hdirs, hasTable_store]
  pte w hw hne := by
    rw [Machine.pte, Machine.pte, hpgdir, hdirs, entry_store_ne ht hv _ hw fun hc => hne hc.2]
  data := hdata
  slot := hslot

end Move

variable {m : Machine} {n v : ℕ}

theorem mem_swapPages :
    4096 * v ∈ m.swapPages n ↔ v < n ∧ m.PagedOut v := by
  constructor
  · rintro ⟨w, hw, he, hp⟩
    obtain rfl : v = w := by omega
    exact ⟨hw, hp⟩
  · rintro ⟨hv, hp⟩
    exact ⟨v, hv, rfl, hp⟩

theorem mem_ramPages {X : Set ℕ} :
    4096 * v ∈ m.ramPages n X ↔ v < n ∧ m.Present v ∧ v ∉ X := by
  constructor
  · rintro ⟨w, hw, he, hp⟩
    obtain rfl : v = w := by omega
    exact ⟨hw, hp⟩
  · rintro ⟨hv, hp⟩
    exact ⟨v, hv, rfl, hp⟩

theorem Machine.Present.not_pagedOut (h : m.Present v) : ¬ m.PagedOut v := by
  rintro ⟨hp, -⟩
  rw [Machine.Present, hp] at h
  cases h

theorem Machine.Present.not_absent (h : m.Present v) : ¬ m.Absent v := by
  rintro ⟨hp, -⟩
  rw [Machine.Present, hp] at h
  cases h

theorem Machine.PagedOut.not_absent (h : m.PagedOut v) : ¬ m.Absent v := by
  rintro ⟨-, hg⟩
  rw [h.2] at hg
  cases hg

/-! ### The move rule -/

section

variable {m m' : Machine} {v n n' : ℕ} {X X' : Set ℕ}

/-- What a move of page `v` has to show for the metadata. -/
structure MoveOk (m m' : Machine) (v n' : ℕ) : Prop where
  frames : FramesOk m'
  size : n' ≤ maxTotalPages
  ram : ramTable m'.proc = ramTable m.proc
  ramDir : ∀ i, (m'.proc.ramMonitor i).pgdir = (m.proc.ramMonitor i).pgdir
  swap : (swapTable m'.proc).Indexes (m'.swapPages n')
  swapDir : ∀ i, (m'.proc.swapMonitor i).used → (m'.proc.swapMonitor i).pgdir = m'.proc.pgdir
  stale : (swapTable m'.proc).StaleAbove
  cover : ∀ i : Fin 16, (m'.proc.swapMonitor i).used →
    4096 * (i.val + 1) ≤ m'.proc.swapFile.size
  exclusive : m'.Present v → flagOn (m'.pte v) ptePG = false
  above : n' ≤ v → m'.Absent v

theorem Paged.move (h : Paged m n X) (hm : Move m m' v) (hv : v < userPages)
    (hn : ∀ w ≠ v, w < n' ↔ w < n) (hX : ∀ w ≠ v, w ∈ X' ↔ w ∈ X)
    (hold : v < n → m.Present v → v ∈ X) (hnew : v < n' → m'.Present v → v ∈ X')
    (hok : MoveOk m m' v n') : Paged m' n' X' where
  frames := hok.frames
  size := hok.size
  table := by
    rw [hm.pgdir, hm.table]
    exact h.table
  ram := by
    rw [hok.ram, hm.ramPages_eq h.size hn hX hold hnew]
    exact h.ram
  ramDir i hi := by
    have hu : (m'.proc.ramMonitor i).used = (m.proc.ramMonitor i).used :=
      congrFun (congrArg SlotTable.used hok.ram) i
    rw [hok.ramDir, hm.pgdir]
    exact h.ramDir i (hu ▸ hi)
  swap := hok.swap
  swapDir := hok.swapDir
  stale := hok.stale
  cover := hok.cover
  exclusive w hw hp := by
    by_cases hwv : w = v
    · subst hwv
      exact hok.exclusive hp
    · have hlt : w < 0x100000 := lt_trans hw (by decide)
      rw [hm.pte w hlt hwv]
      exact h.exclusive w hw ((hm.present_iff hlt hwv).1 hp)
  above w hw hu := by
    by_cases hwv : w = v
    · subst hwv
      exact hok.above hw
    · refine (hm.absent_iff (lt_trans hu (by decide)) hwv).2 (h.above w ?_ hu)
      have := hn w hwv
      omega
  kernel w hw hlt := by
    rw [hm.pte w hlt (by omega)]
    exact h.kernel w hw hlt

theorem Space.move {flat : Flat} (h : Space m n X flat) (hm : Move m m' v) (hp : Paged m' n' X')
    {x : FlatPage} (hx : m'.PageOk v x) : Space m' n' X' (Function.update flat v x) where
  toPaged := hp
  page w hw := by
    by_cases hwv : w = v
    · subst hwv
      rw [Function.update_self]
      exact hx
    · rw [Function.update_of_ne hwv]
      exact hm.pageOk hw hwv (h.page w hw)

end

/-! ### Frames of resident pages -/

namespace Paged

variable {m : Machine} {n : ℕ} {X : Set ℕ} {v w f : ℕ}

theorem frame_ne (h : Paged m n X) (hv : v < userPages) (hw : w < userPages)
    (hpv : m.Present v) (hpw : m.Present w) (hne : w ≠ v) :
    frameOf (m.pte w) ≠ frameOf (m.pte v) := fun e =>
  hne (h.frames.frame_inj hw hv hpw hpv e).2

theorem frame_ne_reserved (h : Paged m n X) (hown : m.owner f = some (m.proc.pgdir, v))
    (hnp : ¬ m.Present v) (hw : w < userPages) (hpw : m.Present w) : frameOf (m.pte w) ≠ f := by
  intro e
  have howned := h.frames.owned m.proc.pgdir w hw hpw
  rw [Machine.pte] at e
  rw [e, hown, Option.some.injEq, Prod.mk.injEq] at howned
  exact hnp (howned.2 ▸ hpw)

theorem reserved_lt (h : Paged m n X) {o : ℕ × ℕ} (hown : m.owner f = some o) : f < 0x100000 :=
  lt_trans (h.frames.ownedValid f o hown).2 (by decide)

end Paged

/-! ### Allocating a frame -/

/-- The first free frame allocated for page `v`, with contents `page`. -/
def Machine.allocated (m : Machine) (f : ℕ) (rest : List ℕ) (v : ℕ) (page : Page) : Machine :=
  { m with
    freelist := rest
    owner := Function.update m.owner f (some (m.proc.pgdir, v))
    data := Function.update m.data f page }

theorem Paged.allocated_view {X : Set ℕ} (h : Paged m n X) {f : ℕ}
    {rest : List ℕ} (hf : m.freelist = f :: rest) (v : ℕ) (page : Page) :
    SameView m (m.allocated f rest v page) where
  frames hfr := hfr.alloc hf rfl rfl rfl rfl
  pgdir := rfl
  table _ _ := Iff.rfl
  soft _ _ := rfl
  data w hw hp := by
    have hfree : f ∈ m.freelist := hf ▸ List.mem_cons_self
    refine Function.update_of_ne ?_ _ _
    intro e
    have hown := h.frames.owned m.proc.pgdir w hw hp
    rw [Machine.pte] at e
    rw [e, h.frames.free f hfree] at hown
    cases hown
  file := rfl
  ram := rfl
  ramDir _ := rfl
  swap := rfl
  swapDir _ := rfl

theorem allocated_owner (m : Machine) (f : ℕ) (rest : List ℕ) (v : ℕ) (page : Page) :
    (m.allocated f rest v page).owner f = some (m.proc.pgdir, v) :=
  Function.update_self f _ m.owner

/-! ### Mapping a fresh page -/

def Machine.mapped (m : Machine) (f v : ℕ) : Machine :=
  { m with dirs := store m.dirs m.proc.pgdir (4096 * v) (mapPte f (pteW ||| pteU)) }

section

variable {m : Machine} {n : ℕ} {X : Set ℕ} {flat : Flat} {f : ℕ}

theorem Paged.mapped_pte (h : Paged m n X) (hn : n < maxTotalPages) :
    (m.mapped f n).pte n = mapPte f (pteW ||| pteU) :=
  entry_store_self (h.hasTable hn) (lt_trans hn (by decide)) _

theorem Paged.mapped_move (h : Paged m n X) (hn : n < maxTotalPages) : Move m (m.mapped f n) n :=
  Move.of_store (h.hasTable hn) (lt_trans hn (by decide)) rfl rfl (fun _ _ _ _ => rfl)
    (fun _ hu _ => ⟨hu, rfl, rfl⟩)

theorem Paged.mapped_frames (h : Paged m n X) (hown : m.owner f = some (m.proc.pgdir, n))
    (hn : n < maxTotalPages) : FramesOk (m.mapped f n) := by
  refine h.frames.store (h.hasTable hn) (lt_trans hn (by decide)) ?_ ?_ rfl rfl rfl rfl
  · intro _ _
    rw [frameOf_mapPte _ (h.reserved_lt hown) (by decide), hown]
  · intro _ hp
    rw [mapPte_present] at hp
    cases hp

/-- The page after the last one is mapped; it is in transit until it is tracked. -/
theorem Paged.map (h : Paged m n X) (hown : m.owner f = some (m.proc.pgdir, n))
    (hn : n < maxTotalPages) : Paged (m.mapped f n) (n + 1) (insert n X) := by
  have hmove := h.mapped_move (f := f) hn
  have hpn : (m.mapped f n).Present n := by
    rw [Present, h.mapped_pte hn, mapPte_present]
  have hlt : ∀ w ≠ n, w < n + 1 ↔ w < n := by omega
  refine h.move hmove (lt_trans hn (by decide)) hlt ?_ (fun hc => absurd hc (lt_irrefl n))
    (fun _ _ => Set.mem_insert n X) ?_
  · intro w hw
    simp [hw]
  · refine ⟨h.mapped_frames hown hn, hn, rfl, fun _ => rfl, ?_, h.swapDir, h.stale, h.cover, ?_, ?_⟩
    · have hset : (m.mapped f n).swapPages (n + 1) = m.swapPages n := by
        ext a
        by_cases ha : a = 4096 * n
        · subst ha
          rw [mem_swapPages, mem_swapPages]
          exact ⟨fun hc => absurd hc.2 hpn.not_pagedOut, fun hc => absurd hc.1 (lt_irrefl n)⟩
        · exact hmove.mem_swapPages_iff h.size hlt ha
      rw [hset]
      exact h.swap
    · intro _
      rw [h.mapped_pte hn, mapPte_pagedOut]
      decide
    · omega

theorem Space.map (h : Space m n X flat) (hown : m.owner f = some (m.proc.pgdir, n))
    (hzero : m.data f = fun _ => 0) (hn : n < maxTotalPages) :
    Space (m.mapped f n) (n + 1) (insert n X) (Function.update flat n (.data fun _ => 0)) := by
  refine h.move (h.mapped_move hn) (h.toPaged.map hown hn) ⟨Or.inl ⟨?_, ?_⟩, ?_⟩
  · rw [Present, h.mapped_pte hn, mapPte_present]
  · rw [h.mapped_pte hn, frameOf_mapPte _ (h.reserved_lt hown) (by decide)]
    exact hzero
  · rw [h.mapped_pte hn, mapPte_writable, mapPte_user]
    decide

end

/-! ### Tracking -/

def Machine.tracked (m : Machine) (i : Fin 16) (v : ℕ) (place : Int) : Machine :=
  m.setProc (m.proc.setRam i ⟨true, m.proc.pgdir, 4096 * v, place⟩)

def Machine.untracked (m : Machine) (i : Fin 16) : Machine :=
  m.setProc (m.proc.setRam i { m.proc.ramMonitor i with used := false })

section

variable {m : Machine} {n : ℕ} {X : Set ℕ} {flat : Flat} {i : Fin 16} {v : ℕ} {place : Int}

theorem ramTable_tracked (m : Machine) (i : Fin 16) (v : ℕ) (place : Int) :
    ramTable (m.tracked i v place).proc = (ramTable m.proc).claim i (4096 * v) := by
  simp only [ramTable, tracked, setProc, Proc.setRam, SlotTable.claim]
  congr 1
  all_goals
    funext j
    by_cases hj : j = i
    · subst hj
      simp
    · simp [hj]

theorem ramTable_untracked (m : Machine) (i : Fin 16) :
    ramTable (m.untracked i).proc = (ramTable m.proc).release i := by
  simp only [ramTable, untracked, setProc, Proc.setRam, SlotTable.release]
  congr 1
  all_goals
    funext j
    by_cases hj : j = i
    · subst hj
      simp
    · simp [hj]

theorem Paged.track (h : Paged m n X) (hi : (m.proc.ramMonitor i).used = false) (hv : v < n)
    (hp : m.Present v) (hx : v ∈ X) (place : Int) : Paged (m.tracked i v place) n (X \ {v}) :=
  { h with
    frames := h.frames.congr rfl rfl rfl rfl
    ram := by
      have hset : (m.tracked i v place).ramPages n (X \ {v}) =
          insert (4096 * v) (m.ramPages n X) := by
        ext a
        constructor
        · rintro ⟨w, hw, rfl, hpw, hxw⟩
          by_cases hwv : w = v
          · exact Or.inl (by rw [hwv])
          · exact Or.inr ⟨w, hw, rfl, hpw, fun hc => hxw ⟨hc, hwv⟩⟩
        · rintro (rfl | ⟨w, hw, rfl, hpw, hxw⟩)
          · exact ⟨v, hv, rfl, hp, fun hc => hc.2 rfl⟩
          · exact ⟨w, hw, rfl, hpw, fun hc => hxw hc.1⟩
      rw [ramTable_tracked, hset]
      exact h.ram.claim hi fun hc => (mem_ramPages.1 hc).2.2 hx
    ramDir := by
      intro j hj
      by_cases hji : j = i
      · subst hji
        simp [tracked, setProc, Proc.setRam]
      · simp only [tracked, setProc, Proc.setRam, Function.update_of_ne hji] at hj ⊢
        exact h.ramDir j hj }

theorem Space.track (h : Space m n X flat) (hi : (m.proc.ramMonitor i).used = false) (hv : v < n)
    (hp : m.Present v) (hx : v ∈ X) (place : Int) : Space (m.tracked i v place) n (X \ {v}) flat :=
  ⟨h.toPaged.track hi hv hp hx place, h.page⟩

theorem Paged.untrack (h : Paged m n X) (hi : (m.proc.ramMonitor i).used)
    (hva : (m.proc.ramMonitor i).pVa = 4096 * v) : Paged (m.untracked i) n (insert v X) :=
  { h with
    frames := h.frames.congr rfl rfl rfl rfl
    ram := by
      have hset : (m.untracked i).ramPages n (insert v X) = m.ramPages n X \ {4096 * v} := by
        ext a
        constructor
        · rintro ⟨w, hw, rfl, hpw, hxw⟩
          refine ⟨⟨w, hw, rfl, hpw, fun hc => hxw (Or.inr hc)⟩, fun hc => hxw (Or.inl ?_)⟩
          rw [Set.mem_singleton_iff] at hc
          omega
        · rintro ⟨⟨w, hw, rfl, hpw, hxw⟩, hne⟩
          refine ⟨w, hw, rfl, hpw, ?_⟩
          rintro (rfl | hc)
          · exact hne rfl
          · exact hxw hc
      rw [ramTable_untracked, hset, ← hva]
      exact h.ram.release hi
    ramDir := by
      intro j hj
      by_cases hji : j = i
      · subst hji
        simp [untracked, setProc, Proc.setRam] at hj
      · simp only [untracked, setProc, Proc.setRam, Function.update_of_ne hji] at hj ⊢
        exact h.ramDir j hj }

theorem Space.untrack (h : Space m n X flat) (hi : (m.proc.ramMonitor i).used)
    (hva : (m.proc.ramMonitor i).pVa = 4096 * v) : Space (m.untracked i) n (insert v X) flat :=
  ⟨h.toPaged.untrack hi hva, h.page⟩

end

/-! ### Slots of the swap file -/

theorem slotPage_overwrite_self (file : File) (page : Page) (k : ℕ) :
    slotPage (file.overwrite (pageBytes page) (4096 * k) 4096) k = page := by
  funext b
  have hb := b.isLt
  simp only [slotPage, File.overwrite]
  rw [if_pos (by omega), show 4096 * k + b.val - 4096 * k = b.val by omega]
  simp [pageBytes, hb]

theorem slotPage_overwrite_ne (file : File) (src : ℕ → Byte) {i k : ℕ} (h : i ≠ k) :
    slotPage (file.overwrite src (4096 * k) 4096) i = slotPage file i := by
  funext b
  have hb := b.isLt
  simp only [slotPage, File.overwrite]
  rw [if_neg (by omega)]

theorem swapTable_claim (p : Proc) (k : Fin 16) (d v : ℕ) :
    swapTable (p.setSwap k ⟨true, d, v, 0⟩) = (swapTable p).claim k v := by
  simp only [swapTable, Proc.setSwap, SlotTable.claim]
  congr 1
  all_goals
    funext j
    by_cases hj : j = k
    · subst hj
      simp
    · simp [hj]

theorem swapTable_release (p : Proc) (k : Fin 16) :
    swapTable (p.setSwap k { p.swapMonitor k with used := false }) = (swapTable p).release k := by
  simp only [swapTable, Proc.setSwap, SlotTable.release]
  congr 1
  all_goals
    funext j
    by_cases hj : j = k
    · subst hj
      simp
    · simp [hj]

/-! ### Writing a page out -/

/-- Page `v` written to slot `k` and its frame given back. -/
def Machine.writtenOut (m : Machine) (v : ℕ) (k : Fin 16) : Machine :=
  { m.freed (frameOf (m.pte v)) with
    dirs := store m.dirs m.proc.pgdir (4096 * v) (pageOutPte (m.pte v))
    proc := Proc.setSwap { m.proc with
      swapFile := m.proc.swapFile.overwrite (pageBytes (m.data (frameOf (m.pte v))))
        (4096 * k) 4096 } k ⟨true, m.proc.pgdir, 4096 * v, 0⟩ }

section

variable {m : Machine} {n : ℕ} {X : Set ℕ} {flat : Flat} {k : Fin 16} {v : ℕ}

/-- The frame of a resident page goes back to the free list when its entry no longer points to
it. -/
theorem Paged.release_frames (h : Paged m n X) (hv : v < userPages) (hp : m.Present v)
    (ht : HasTable m.dirs m.proc.pgdir v) {pte : Pte} (hpte : flagOn pte pteP = false)
    (hclr : frameOf pte = 0) {m' : Machine} (hk : m'.kend = m.kend)
    (hf : m'.freelist = frameOf (m.pte v) :: m.freelist)
    (ho : m'.owner = Function.update m.owner (frameOf (m.pte v)) none)
    (hd : m'.dirs = store m.dirs m.proc.pgdir (4096 * v) pte) : FramesOk m' := by
  have hlt : v < 0x100000 := lt_trans hv (by decide)
  have hstore : FramesOk { m with dirs := store m.dirs m.proc.pgdir (4096 * v) pte } := by
    refine h.frames.store ht hlt (fun _ hc => ?_) (fun _ _ _ => hclr) rfl rfl rfl rfl
    rw [hpte] at hc
    cases hc
  refine hstore.release (h.frames.owned _ v hv hp) ?_ hk hf ho hd
  intro d w hw hpw
  simp only [entry_store ht hlt pte d (lt_trans hw (by decide))] at hpw ⊢
  split_ifs at hpw ⊢ with hc
  · rw [hpte] at hpw
    cases hpw
  · intro e
    exact hc (h.frames.frame_inj hw hv hpw hp e)

theorem Paged.writtenOut_pte (h : Paged m n X) (hv : v < n) :
    (m.writtenOut v k).pte v = pageOutPte (m.pte v) :=
  entry_store_self (h.hasTable (lt_of_lt_of_le hv h.size)) (h.lt_pages hv) _

theorem Paged.writtenOut_move (h : Paged m n X) (hk : (m.proc.swapMonitor k).used = false)
    (hv : v < n) (hp : m.Present v) : Move m (m.writtenOut v k) v := by
  refine Move.of_store (h.hasTable (lt_of_lt_of_le hv h.size)) (h.lt_pages hv) rfl rfl ?_ ?_
  · intro w hw hne hpw
    exact Function.update_of_ne (h.frame_ne (h.lt_userPages hv) hw hp hpw hne) _ _
  · intro i hu _
    have hik : i ≠ k := by
      rintro rfl
      rw [hk] at hu
      cases hu
    simp only [writtenOut, Proc.setSwap, Function.update_of_ne hik]
    exact ⟨hu, trivial, slotPage_overwrite_ne _ _ (fun hc => hik (Fin.ext hc))⟩

theorem Paged.writeOut (h : Paged m n X) (hk : (swapTable m.proc).firstFree = some k)
    (hv : v < n) (hp : m.Present v) (hx : v ∈ X) : Paged (m.writtenOut v k) n (X \ {v}) := by
  have hfree := (SlotTable.firstFree_eq_some_iff.1 hk).1
  have hmove := h.writtenOut_move hfree hv hp
  have hout : (m.writtenOut v k).PagedOut v := by
    rw [PagedOut, h.writtenOut_pte hv]
    exact ⟨pageOutPte_present _, pageOutPte_pagedOut _⟩
  refine h.move hmove (h.lt_userPages hv) (fun _ _ => Iff.rfl) (fun w hw => by simp [hw])
    (fun _ _ => hx) (fun _ hc => absurd hout hc.not_pagedOut) ?_
  refine ⟨?_, h.size, rfl, fun _ => rfl, ?_, ?_, ?_, ?_, fun hc => absurd hout hc.not_pagedOut, ?_⟩
  · exact h.release_frames (h.lt_userPages hv) hp (h.hasTable (lt_of_lt_of_le hv h.size))
      (pageOutPte_present _) (frameOf_pageOutPte _) rfl rfl rfl rfl
  · have hset : (m.writtenOut v k).swapPages n = insert (4096 * v) (m.swapPages n) := by
      ext a
      by_cases ha : a = 4096 * v
      · subst ha
        simp [mem_swapPages, hv, hout]
      · simp only [Set.mem_insert_iff, ha, false_or]
        exact hmove.mem_swapPages_iff h.size (fun _ _ => Iff.rfl) ha
    rw [hset]
    simp only [writtenOut, swapTable_claim]
    exact h.swap.claim hfree fun hc => hp.not_pagedOut (mem_swapPages.1 hc).2
  · intro i hi
    by_cases hik : i = k
    · subst hik
      simp [writtenOut, Proc.setSwap]
    · simp only [writtenOut, Proc.setSwap, Function.update_of_ne hik] at hi ⊢
      exact h.swapDir i hi
  · simp only [writtenOut, swapTable_claim]
    exact h.stale.claim hk _
  · intro i hi
    by_cases hik : i = k
    · subst hik
      exact File.overwrite_size _ _ (by decide)
    · simp only [writtenOut, Proc.setSwap, Function.update_of_ne hik] at hi ⊢
      exact (h.cover i hi).trans (File.overwrite_size_le _ _ _ _)
  · omega

theorem Space.writeOut (h : Space m n X flat) (hk : (swapTable m.proc).firstFree = some k)
    (hv : v < n) (hp : m.Present v) (hx : v ∈ X) : Space (m.writtenOut v k) n (X \ {v}) flat := by
  have hfree := (SlotTable.firstFree_eq_some_iff.1 hk).1
  have hok : (m.writtenOut v k).PageOk v (flat v) := by
    have hold := h.page v (h.lt_userPages hv)
    have hout : (m.writtenOut v k).PagedOut v := by
      rw [PagedOut, h.writtenOut_pte hv]
      exact ⟨pageOutPte_present _, pageOutPte_pagedOut _⟩
    cases hflat : flat v with
    | absent =>
      rw [hflat] at hold
      exact absurd hold hp.not_absent
    | guard => exact hout.not_absent
    | data bytes =>
      rw [hflat] at hold
      obtain ⟨hh, hacc⟩ := hold
      refine ⟨Or.inr ⟨hout, k, ?_, ?_, ?_⟩, ?_⟩
      · simp [writtenOut, Proc.setSwap]
      · simp [writtenOut, Proc.setSwap]
      · rcases hh with ⟨-, hd⟩ | ⟨ho, -⟩
        · simp only [writtenOut, Proc.setSwap, hd]
          exact slotPage_overwrite_self _ _ _
        · exact absurd ho hp.not_pagedOut
      · rw [h.writtenOut_pte hv, pageOutPte_writable, pageOutPte_user]
        exact hacc
  have := h.move (h.writtenOut_move hfree hv hp) (h.toPaged.writeOut hk hv hp hx) hok
  rwa [Function.update_eq_self] at this

end

/-! ### Fetching a page -/

/-- Page `v` read back from slot `j` into frame `f`. -/
def Machine.fetched (m : Machine) (f v : ℕ) (j : Fin 16) : Machine :=
  { m with
    data := Function.update m.data f (slotPage m.proc.swapFile j)
    dirs := store m.dirs m.proc.pgdir (4096 * v) (pageInPte (m.pte v) (paOf f))
    proc := m.proc.setSwap j { m.proc.swapMonitor j with used := false } }

section

variable {m : Machine} {n : ℕ} {X : Set ℕ} {flat : Flat} {f v : ℕ} {j : Fin 16}

theorem Paged.fetched_pte (h : Paged m n X) (hv : v < n) :
    (m.fetched f v j).pte v = pageInPte (m.pte v) (paOf f) :=
  entry_store_self (h.hasTable (lt_of_lt_of_le hv h.size)) (h.lt_pages hv) _

/-- A paged-out entry points nowhere, so that `page_in` can or the new address into it. -/
theorem Paged.fetched_frame (h : Paged m n X) (hv : v < n) (hout : m.PagedOut v)
    (hown : m.owner f = some (m.proc.pgdir, v)) : frameOf (pageInPte (m.pte v) (paOf f)) = f :=
  frameOf_pageInPte _ (h.frames.cleared _ v (h.lt_userPages hv) hout.1 hout.2) (h.reserved_lt hown)

theorem Paged.fetched_frames (h : Paged m n X) (hown : m.owner f = some (m.proc.pgdir, v)) (hv : v < n)
    (hout : m.PagedOut v) : FramesOk (m.fetched f v j) := by
  refine h.frames.store (h.hasTable (lt_of_lt_of_le hv h.size)) (h.lt_pages hv) ?_ ?_ rfl rfl rfl rfl
  · intro _ _
    rw [h.fetched_frame hv hout hown, hown]
  · intro _ hc
    rw [pageInPte_present] at hc
    cases hc

theorem Paged.fetched_move (h : Paged m n X) (hown : m.owner f = some (m.proc.pgdir, v)) (hv : v < n)
    (hout : m.PagedOut v) (hj : (m.proc.swapMonitor j).pVa = 4096 * v) : Move m (m.fetched f v j) v := by
  refine Move.of_store (h.hasTable (lt_of_lt_of_le hv h.size)) (h.lt_pages hv) rfl rfl ?_ ?_
  · intro w hw _ hpw
    exact Function.update_of_ne (h.frame_ne_reserved hown (fun hc => hc.not_pagedOut hout) hw hpw) _ _
  · intro i hu hva
    have hij : i ≠ j := by
      rintro rfl
      exact hva hj
    simp only [fetched, Proc.setSwap, Function.update_of_ne hij]
    exact ⟨hu, trivial, trivial⟩

/-- A paged-out page comes back into a fresh frame and gives its slot back; it is in transit. -/
theorem Paged.fetch (h : Paged m n X) (hown : m.owner f = some (m.proc.pgdir, v)) (hv : v < n)
    (hout : m.PagedOut v) (hu : (m.proc.swapMonitor j).used)
    (hj : (m.proc.swapMonitor j).pVa = 4096 * v) :
    Paged (m.fetched f v j) n (insert v X) := by
  have hmove := h.fetched_move hown hv hout hj
  have hp : (m.fetched f v j).Present v := by
    rw [Present, h.fetched_pte hv, pageInPte_present]
  refine h.move hmove (h.lt_userPages hv) (fun _ _ => Iff.rfl) (fun w hw => by simp [hw])
    (fun _ hc => absurd hout hc.not_pagedOut) (fun _ _ => Set.mem_insert v X) ?_
  refine ⟨h.fetched_frames hown hv hout, h.size, rfl, fun _ => rfl, ?_, ?_, ?_, ?_, ?_, ?_⟩
  · have hset : (m.fetched f v j).swapPages n = m.swapPages n \ {4096 * v} := by
      ext a
      by_cases ha : a = 4096 * v
      · subst ha
        simp [mem_swapPages, hp.not_pagedOut]
      · simp only [Set.mem_sdiff, Set.mem_singleton_iff, ha, not_false_eq_true, and_true]
        exact hmove.mem_swapPages_iff h.size (fun _ _ => Iff.rfl) ha
    rw [hset, ← hj]
    simp only [fetched, swapTable_release]
    exact h.swap.release hu
  · intro i hi
    by_cases hij : i = j
    · subst hij
      simp [fetched, Proc.setSwap] at hi
    · simp only [fetched, Proc.setSwap, Function.update_of_ne hij] at hi ⊢
      exact h.swapDir i hi
  · simp only [fetched, swapTable_release]
    exact h.stale.release h.swap hu
  · intro i hi
    by_cases hij : i = j
    · subst hij
      simp [fetched, Proc.setSwap] at hi
    · simp only [fetched, Proc.setSwap, Function.update_of_ne hij] at hi ⊢
      exact h.cover i hi
  · intro _
    rw [h.fetched_pte hv, pageInPte_pagedOut]
  · omega

theorem Space.fetch (h : Space m n X flat) (hown : m.owner f = some (m.proc.pgdir, v)) (hv : v < n)
    (hout : m.PagedOut v) (hu : (m.proc.swapMonitor j).used)
    (hj : (m.proc.swapMonitor j).pVa = 4096 * v) :
    Space (m.fetched f v j) n (insert v X) flat := by
  have hp : (m.fetched f v j).Present v := by
    rw [Present, h.fetched_pte hv, pageInPte_present]
  have hok : (m.fetched f v j).PageOk v (flat v) := by
    have hold := h.page v (h.lt_userPages hv)
    cases hflat : flat v with
    | absent =>
      rw [hflat] at hold
      exact absurd hold hout.not_absent
    | guard => exact hp.not_absent
    | data bytes =>
      rw [hflat] at hold
      refine ⟨Or.inl ⟨hp, ?_⟩, ?_⟩
      · rw [h.fetched_pte hv, h.fetched_frame hv hout hown]
        rcases hold.1 with ⟨hc, -⟩ | ⟨-, i, hui, hi, hs⟩
        · exact absurd hout hc.not_pagedOut
        · obtain rfl : i = j := h.swap.inj hui hu (hi.trans hj.symm)
          exact (Function.update_self f _ m.data).trans hs
      · rw [h.fetched_pte hv]
        exact ⟨pageInPte_writable _ _, pageInPte_user _ _⟩
  have := h.move (h.fetched_move hown hv hout hj) (h.toPaged.fetch hown hv hout hu hj) hok
  rwa [Function.update_eq_self] at this

end

/-! ### Dropping a page -/

def Machine.dropped (m : Machine) (v : ℕ) : Machine :=
  { m.freed (frameOf (m.pte v)) with dirs := store m.dirs m.proc.pgdir (4096 * v) 0 }

section

variable {m : Machine} {n n' : ℕ} {X X' : Set ℕ} {flat : Flat} {v : ℕ}

theorem Paged.dropped_move (h : Paged m n X) (hv : v < n) (hp : m.Present v) :
    Move m (m.dropped v) v := by
  refine Move.of_store (h.hasTable (lt_of_lt_of_le hv h.size)) (h.lt_pages hv) rfl rfl ?_
    (fun i hu _ => ⟨hu, rfl, rfl⟩)
  intro w hw hne hpw
  exact Function.update_of_ne (h.frame_ne (h.lt_userPages hv) hw hp hpw hne) _ _

theorem Paged.dropped_absent (h : Paged m n X) (hv : v < n) : (m.dropped v).Absent v := by
  have hpte : (m.dropped v).pte v = 0 :=
    entry_store_self (h.hasTable (lt_of_lt_of_le hv h.size)) (h.lt_pages hv) _
  rw [Absent, hpte]
  decide

theorem Paged.drop (h : Paged m n X) (hv : v < n) (hp : m.Present v) (hx : v ∈ X)
    (hX : ∀ w ≠ v, w ∈ X' ↔ w ∈ X) : Paged (m.dropped v) n X' := by
  have hmove := h.dropped_move hv hp
  have habs := h.dropped_absent hv
  refine h.move hmove (h.lt_userPages hv) (fun _ _ => Iff.rfl) hX
    (fun _ _ => hx) (fun _ hc => absurd habs hc.not_absent) ?_
  refine ⟨?_, h.size, rfl, fun _ => rfl, ?_, h.swapDir, h.stale, h.cover, ?_, fun _ => habs⟩
  · exact h.release_frames (h.lt_userPages hv) hp (h.hasTable (lt_of_lt_of_le hv h.size))
      (by decide) (by decide) rfl rfl rfl rfl
  · have hset : (m.dropped v).swapPages n = m.swapPages n := by
      ext a
      by_cases ha : a = 4096 * v
      · subst ha
        rw [mem_swapPages, mem_swapPages]
        exact ⟨fun hc => absurd habs hc.2.not_absent, fun hc => absurd hc.2 hp.not_pagedOut⟩
      · exact hmove.mem_swapPages_iff h.size (fun _ _ => Iff.rfl) ha
    rw [hset]
    exact h.swap
  · exact fun hc => absurd habs hc.not_absent

theorem Space.drop (h : Space m n X flat) (hv : v < n) (hp : m.Present v) (hx : v ∈ X)
    (hX : ∀ w ≠ v, w ∈ X' ↔ w ∈ X) :
    Space (m.dropped v) n X' (Function.update flat v .absent) :=
  h.move (h.dropped_move hv hp) (h.toPaged.drop hv hp hx hX) (h.dropped_absent hv)

theorem Paged.shrink (h : Paged m n X) (hn : n' ≤ n)
    (habs : ∀ v, n' ≤ v → v < n → m.Absent v) : Paged m n' X :=
  { h with
    size := hn.trans h.size
    ram := by
      have hset : m.ramPages n' X = m.ramPages n X := by
        ext a
        constructor
        · rintro ⟨w, hw, rfl, hp⟩
          exact ⟨w, by omega, rfl, hp⟩
        · rintro ⟨w, hw, rfl, hp, hx⟩
          refine ⟨w, ?_, rfl, hp, hx⟩
          by_contra hc
          exact hp.not_absent (habs w (by omega) hw)
      rw [hset]
      exact h.ram
    swap := by
      have hset : m.swapPages n' = m.swapPages n := by
        ext a
        constructor
        · rintro ⟨w, hw, rfl, hp⟩
          exact ⟨w, by omega, rfl, hp⟩
        · rintro ⟨w, hw, rfl, hp⟩
          refine ⟨w, ?_, rfl, hp⟩
          by_contra hc
          exact hp.not_absent (habs w (by omega) hw)
      rw [hset]
      exact h.swap
    above := by
      intro v hv hu
      by_cases hvn : v < n
      · exact habs v hv hvn
      · exact h.above v (by omega) hu }

end

end Xv6
