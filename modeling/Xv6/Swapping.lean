import Xv6.Policy
import Xv6.Moves

/-!
# Evicting and fetching pages

`swap` and `page_from_disk` as compositions of moves.  `swap` lets a tracked page make room for a
page that was just mapped; `page_from_disk` brings a page back, into a free entry or in exchange for
a victim.  Both keep the paging invariant and the flat memory, whichever page the policy picks.
-/

namespace Xv6

open Machine

/-- The running process sees `flat`, and the policy finds its tracked pages. -/
structure Ready (sel : Selection) (m : Machine) (n : ℕ) (X : Set ℕ) (flat : Flat) : Prop
    extends Space m n X flat where
  queue : QueueOk sel m.proc

variable {sel : Selection} {m m' : Machine} {n f d va u v : ℕ} {X : Set ℕ} {flat : Flat} {pte : Pte}
  {j : Fin 16}

theorem SameView.setProc {p : Proc} (hd : p.pgdir = m.proc.pgdir) (hf : p.swapFile = m.proc.swapFile)
    (hr : p.ramMonitor = m.proc.ramMonitor) (hs : p.swapMonitor = m.proc.swapMonitor) :
    SameView m (m.setProc p) := by
  refine SameView.of_dirs rfl rfl rfl (AgreeSoft.refl _) rfl hd hf ?_ ?_ ?_ ?_
  · simp only [ramTable, Machine.setProc, hr]
  · simp only [Machine.setProc, hr, implies_true]
  · simp only [swapTable, Machine.setProc, hs]
  · simp only [Machine.setProc, hs, implies_true]

theorem Ready.setProc (h : Ready sel m n X flat) {p : Proc} (hd : p.pgdir = m.proc.pgdir)
    (hf : p.swapFile = m.proc.swapFile) (hr : p.ramMonitor = m.proc.ramMonitor)
    (hs : p.swapMonitor = m.proc.swapMonitor) (hl : p.lastInQueue = m.proc.lastInQueue) :
    Ready sel (m.setProc p) n X flat := by
  refine ⟨h.toSpace.congr (.setProc hd hf hr hs), h.queue.dequeue hl fun i hi => ?_⟩
  simp only [Machine.setProc, hr] at hi ⊢
  exact ⟨hi, trivial⟩

def ramCount (m : Machine) : ℕ := (ramTable m.proc).usedCount

def swapCount (m : Machine) : ℕ := (swapTable m.proc).usedCount

/-! ### Reading and writing slots -/

section

variable {m : Machine} {n : ℕ} {X : Set ℕ} {flat : Flat} {v : ℕ} {k : Fin 16}

theorem Paged.kaddr_eq (h : Paged m n X) (hv : v < n) (hp : m.Present v) {write : Bool}
    (hw : write = true → flagOn (m.pte v) pteW) :
    m.kaddr (4096 * v) write = .ok (frameOf (m.pte v)) := by
  have hk : ¬ kernBase ≤ 4096 * v := by
    have := h.lt_userPages hv
    simp only [kernBase, userPages] at *
    omega
  have hacc : (flagOn (m.pte v) pteP && (!write || flagOn (m.pte v) pteW)) = true := by
    rw [Present] at hp
    cases write with
    | false => simp [hp]
    | true => simp [hp, hw rfl]
  rw [kaddr, if_neg hk, h.walkpgdir_eq (lt_of_lt_of_le hv h.size)]
  simp only [hacc, if_true]

theorem Paged.slot_le_size (h : Paged m n X) (hk : (swapTable m.proc).firstFree = some k) :
    4096 * k.val ≤ m.proc.swapFile.size := by
  by_cases hz : k.val = 0
  · omega
  · have hlt : (⟨k.val - 1, by omega⟩ : Fin 16) < k := by
      rw [Fin.lt_def]
      show k.val - 1 < k.val
      omega
    have := h.cover _ ((SlotTable.firstFree_eq_some_iff.1 hk).2 _ hlt)
    simp only at this
    omega

theorem Paged.write2file_eq (h : Paged m n X) (hk : (swapTable m.proc).firstFree = some k)
    (hv : v < n) (hp : m.Present v) (d : ℕ) :
    m.write2file (4096 * v) d = .ok (4096, m.setProc (Proc.setSwap { m.proc with
      swapFile := m.proc.swapFile.overwrite (pageBytes (m.data (frameOf (m.pte v))))
        (4096 * k) 4096 } k ⟨true, d, 4096 * v, 0⟩)) := by
  have hidx : m.proc.getSwapIdx = some k := hk
  have hmax : 4096 * k.val + 4096 ≤ maxFileBytes := by
    have := k.isLt
    simp only [maxFileBytes]
    omega
  have haddr : m.kaddr (4096 * v) false = .ok (frameOf (m.pte v)) := h.kaddr_eq hv hp (by simp)
  simp only [write2file, hidx, haddr, bind, Except.bind,
    File.filewrite_eq (h.slot_le_size hk) hmax, if_true, pure, Except.pure]

end

/-! ### `swap` -/

theorem kfree_frame (hk : m'.kend = m.kend)
    (h : m.kend ≤ f ∧ f < phystopFrame) : m'.kfree f = .ok (m'.freed f) :=
  kfree_eq (by rwa [hk])

theorem pageOut_entry (hd : m'.dirs = m.dirs)
    (h : m.walkpgdir d va = some pte) :
    m'.pageOut va d = .ok ((m'.setPte d va (pageOutPte pte)).setProc
      { m'.proc with protectedPages := m'.proc.protectedPages + 1 }) := by
  rw [walkpgdir, ← hd] at h
  simp only [pageOut, walkpgdir, h]

theorem getFreeRamIdx_eq {p p' : Proc} (hp : ramTable p' = ramTable p)
    (h : (ramTable p).firstFree = some j) : p'.getFreeRamIdx = some j := by
  rw [Proc.getFreeRamIdx, hp, h]

/-- `swap` once the policy has chosen: the victim leaves its entry and goes to a slot, and the new
page takes a free entry. -/
theorem swap_eq {m₁ : Machine} {i k : Fin 16}
    (hpol : Machine.replacePageByPolicy sel (m.setProc { m.proc with
      pagesInFile := m.proc.pagesInFile + 1 }) = .ok (i, m₁))
    (h : Paged m₁ n X) (hd : d = m₁.proc.pgdir) (hi : (m₁.proc.ramMonitor i).used)
    (hva : (m₁.proc.ramMonitor i).pVa = 4096 * v) (hv : v < n) (hp : m₁.Present v)
    (hk : (swapTable m₁.proc).firstFree = some k)
    (hj : (ramTable ((m₁.untracked i).writtenOut v k).proc).firstFree = some j) :
    m.swap sel d (4096 * u) =
      .ok ((((m₁.untracked i).writtenOut v k).tracked j u (incr m₁.proc.lastInQueue)).setProc
        { (((m₁.untracked i).writtenOut v k).tracked j u (incr m₁.proc.lastInQueue)).proc with
          protectedPages := m₁.proc.protectedPages + 1
          lastInQueue := incr m₁.proc.lastInQueue }) := by
  have hdir := h.ramDir i hi
  have hwalk := h.walkpgdir_eq (lt_of_lt_of_le hv h.size)
  have hfile := h.write2file_eq hk hv hp m₁.proc.pgdir
  have hvalid : m₁.kend ≤ frameOf (m₁.pte v) ∧ frameOf (m₁.pte v) < phystopFrame :=
    h.frames.frame_valid (h.lt_userPages hv) hp
  rw [Machine.swap]
  simp only [hpol, bind, Except.bind, hdir, hva, hwalk, hfile, hd]
  rw [kfree_frame ?_ hvalid]
  · simp only
    rw [pageOut_entry ?_ hwalk]
    · simp only [Proc.add2ram]
      rw [getFreeRamIdx_eq ?_ hj]
      · simp only [tracked, untracked, writtenOut, hdir, hva]
        rfl
      · simp only [untracked, hdir, hva]
        rfl
    · rfl
  · rfl

/-- The state after `swap`: the victim `v` left entry `i` for slot `k`, and page `u` took entry `j`. -/
def swapped (m₁ : Machine) (u v : ℕ) (i j k : Fin 16) : Machine :=
  let m₄ := ((m₁.untracked i).writtenOut v k).tracked j u (incr m₁.proc.lastInQueue)
  m₄.setProc { m₄.proc with
    protectedPages := m₁.proc.protectedPages + 1
    lastInQueue := incr m₁.proc.lastInQueue }

theorem Ready.chosen (hsel : sel ≠ .NONE) (h : Ready sel m n X flat) (hent : 0 < ramCount m) :
    ∃ i m₁ v, Machine.replacePageByPolicy sel (m.setProc { m.proc with
        pagesInFile := m.proc.pagesInFile + 1 }) = .ok (i, m₁) ∧ Chosen sel m i m₁ ∧ Space m₁ n X flat ∧
      (m₁.proc.ramMonitor i).used ∧ (m₁.proc.ramMonitor i).pVa = 4096 * v ∧ v < n ∧ m₁.Present v ∧
      v ∉ X := by
  let p := { m.proc with pagesInFile := m.proc.pagesInFile + 1 }
  have h₀ := h.setProc (p := p) rfl rfl rfl rfl rfl
  obtain ⟨i, m₁, hpol, hc⟩ := replacePageByPolicy_spec hsel h₀.toPaged h₀.queue
    (SlotTable.usedCount_pos_iff.1 hent)
  have h₁ := h₀.toSpace.congr hc.view
  have hi : (m₁.proc.ramMonitor i).used := by
    rw [hc.view.ramUsed]
    exact hc.used
  obtain ⟨-, v, hv, hva, hpv, hxv⟩ := h₁.tracked hi
  exact ⟨i, m₁, v, hpol, ⟨(SameView.setProc (p := p) rfl rfl rfl rfl).trans hc.view,
    ⟨hc.id.sz, hc.id.pid, hc.id.killed, hc.id.pgdir⟩, hc.freelist, hc.owner, hc.data, hc.used, hc.queue,
    hc.last⟩, h₁, hi, hva, hv, hpv, hxv⟩

theorem swap_run (hsel : sel ≠ .NONE)
    (h : Ready sel m n X flat) (hent : 0 < ramCount m) (hslot : swapCount m < 16)
    (u : ℕ) :
    ∃ i m₁ v k j, Chosen sel m i m₁ ∧ Space m₁ n X flat ∧ (m₁.proc.ramMonitor i).used ∧
      (m₁.proc.ramMonitor i).pVa = 4096 * v ∧ v < n ∧ m₁.Present v ∧ v ∉ X ∧
      (swapTable m₁.proc).firstFree = some k ∧
      (ramTable ((m₁.untracked i).writtenOut v k).proc).firstFree = some j ∧
      m.swap sel m.proc.pgdir (4096 * u) = .ok (swapped m₁ u v i j k) := by
  obtain ⟨i, m₁, v, hpol, hc, h₁, hi, hva, hv, hpv, hxv⟩ := h.chosen hsel hent
  have hcount : (swapTable m₁.proc).usedCount < 16 := by
    rw [hc.view.swap]
    exact hslot
  obtain ⟨k, hk⟩ := SlotTable.exists_firstFree hcount
  -- the victim's entry is free again, so there is one for `u`
  have hrel : (ramTable ((m₁.untracked i).writtenOut v k).proc).usedCount + 1 =
      (ramTable m₁.proc).usedCount := by
    rw [show ramTable ((m₁.untracked i).writtenOut v k).proc = (ramTable m₁.proc).release i from
      ramTable_untracked m₁ i]
    exact SlotTable.usedCount_release hi
  have hle : (ramTable m₁.proc).usedCount ≤ 16 := SlotTable.usedCount_le
  obtain ⟨j, hj⟩ := SlotTable.exists_firstFree (t := ramTable ((m₁.untracked i).writtenOut v k).proc)
    (by omega)
  exact ⟨i, m₁, v, k, j, hc, h₁, hi, hva, hv, hpv, hxv, hk, hj,
    swap_eq hpol h₁.toPaged hc.view.pgdir.symm hi hva hv hpv hk hj⟩

theorem swap_spec (hsel : sel ≠ .NONE) (h : Ready sel m n X flat) (hu : u < n) (hpu : m.Present u) (hxu : u ∈ X)
    (hent : 0 < ramCount m) (hslot : swapCount m < 16)
    (hwrap : sel = .LIFO → m.proc.lastInQueue + 1 ≤ 0x7FFFFFFF) :
    ∃ m', m.swap sel m.proc.pgdir (4096 * u) = .ok m' ∧ Ready sel m' n (X \ {u}) flat ∧
      SameId m m' ∧ m'.freelist.length = m.freelist.length + 1 ∧
      ramCount m' = ramCount m ∧ swapCount m' = swapCount m + 1 ∧
      (sel = .LIFO → m'.proc.lastInQueue = m.proc.lastInQueue + 1) := by
  obtain ⟨i, m₁, v, k, j, hc, h₁, hi, hva, hv, hpv, hxv, hk, hj, hcode⟩ :=
    swap_run hsel h hent hslot u
  -- the victim leaves its entry, goes to slot `k`, and `u` takes a free entry
  have h₂ := h₁.untrack hi hva
  have h₃ := h₂.writeOut (k := k) hk hv hpv (Set.mem_insert v X)
  rw [Set.insert_sdiff_self_of_notMem hxv] at h₃
  let m₃ := (m₁.untracked i).writtenOut v k
  have hram₃ : ramTable m₃.proc = (ramTable m₁.proc).release i := ramTable_untracked m₁ i
  have hrel : (ramTable m₃.proc).usedCount + 1 = (ramTable m₁.proc).usedCount := by
    rw [hram₃]
    exact SlotTable.usedCount_release hi
  have hjfree := (SlotTable.firstFree_eq_some_iff.1 hj).1
  have huv : u ≠ v := by
    rintro rfl
    exact hxv hxu
  have hpu₁ : m₁.Present u := (hc.view.present_iff (h.lt_pages hu)).2 hpu
  have hpu₃ : m₃.Present u := ((h₂.toPaged.writtenOut_move
    (SlotTable.firstFree_eq_some_iff.1 hk).1 hv hpv).present_iff (h.lt_pages hu) huv).2 hpu₁
  have h₄ := h₃.track hjfree hu hpu₃ hxu (incr m₁.proc.lastInQueue)
  let m₄ := m₃.tracked j u (incr m₁.proc.lastInQueue)
  refine ⟨_, hcode, ⟨h₄.congr ?_, ?_⟩, ?_, ?_, ?_, ?_, ?_⟩
  · exact .setProc rfl rfl rfl rfl
  · refine hc.queue.enqueue (fun hl => by rw [hc.last hl]; exact hwrap hl) rfl fun a ha => ?_
    by_cases haj : a = j
    · subst haj
      exact Or.inl (by simp [swapped, setProc, tracked, Proc.setRam])
    · have hai : a ≠ i := by
        rintro rfl
        simp [swapped, setProc, tracked, writtenOut, untracked, Proc.setRam, Proc.setSwap, haj] at ha
      simp only [swapped, setProc, tracked, writtenOut, untracked, Proc.setRam, Proc.setSwap,
        Function.update_of_ne haj, Function.update_of_ne hai] at ha ⊢
      exact Or.inr ⟨ha, trivial⟩
  · exact ⟨hc.id.sz, hc.id.pid, hc.id.killed, hc.id.pgdir⟩
  · show (frameOf _ :: m₁.freelist).length = _
    rw [hc.freelist]
    rfl
  · show (ramTable m₄.proc).usedCount = _
    rw [ramTable_tracked, SlotTable.usedCount_claim hjfree, hrel, hc.view.ram]
    rfl
  · show (swapTable (Proc.setSwap _ k _)).usedCount = _
    rw [swapTable_claim]
    refine (SlotTable.usedCount_claim (SlotTable.firstFree_eq_some_iff.1 hk).1).trans ?_
    rw [hc.view.swap]
    rfl
  · intro hl
    show incr m₁.proc.lastInQueue = _
    rw [hc.last hl]
    exact incr_eq (h.queue.last hl) (hwrap hl)

theorem Paged.writtenOut_holds {w : ℕ} {k : Fin 16} (h : Paged m n X)
    (hk : (swapTable m.proc).firstFree = some k) (hv : v < n) (hp : m.Present v) (hw : w < userPages)
    {page : Page} (hh : m.Holds w page) : (m.writtenOut v k).Holds w page := by
  by_cases hwv : w = v
  · subst hwv
    rcases hh with ⟨-, hd⟩ | ⟨ho, -⟩
    · refine Or.inr ⟨?_, k, ?_, ?_, ?_⟩
      · rw [PagedOut, h.writtenOut_pte hv]
        exact ⟨pageOutPte_present _, pageOutPte_pagedOut _⟩
      · simp [writtenOut, Proc.setSwap]
      · simp [writtenOut, Proc.setSwap]
      · simp only [writtenOut, Proc.setSwap, hd]
        exact slotPage_overwrite_self _ _ _
    · exact absurd ho hp.not_pagedOut
  · exact (h.writtenOut_move (SlotTable.firstFree_eq_some_iff.1 hk).1 hv hp).holds hw hwv hh

theorem swap_holds (hsel : sel ≠ .NONE) {w : ℕ}
    (h : Ready sel m n X flat) (hent : 0 < ramCount m) (hslot : swapCount m < 16)
    (hrun : m.swap sel m.proc.pgdir (4096 * u) = .ok m') (hw : w < userPages) {page : Page}
    (hh : m.Holds w page) : m'.Holds w page := by
  obtain ⟨i, m₁, v, k, j, hc, h₁, hi, hva, hv, hpv, hxv, hk, hj, hcode⟩ :=
    swap_run hsel h hent hslot u
  rw [hcode] at hrun
  cases hrun
  have h₂ := h₁.toPaged.untrack hi hva
  exact h₂.writtenOut_holds (m := m₁.untracked i) hk hv hpv hw (hc.view.holds hw hh)

/-! ### `add2ram` -/

theorem add2ram_spec (h : Ready sel m n X flat) (hu : u < n) (hpu : m.Present u) (hxu : u ∈ X)
    (hent : ramCount m < 16) (hwrap : sel = .LIFO → m.proc.lastInQueue + 1 ≤ 0x7FFFFFFF) :
    ∃ m', m.setProc (m.proc.add2ram m.proc.pgdir (4096 * u)) = m' ∧
      Ready sel m' n (X \ {u}) flat ∧ SameId m m' ∧ m'.freelist = m.freelist ∧
      ramCount m' = ramCount m + 1 ∧ swapCount m' = swapCount m ∧ (∀ v, m'.pte v = m.pte v) ∧
      (sel = .LIFO → m'.proc.lastInQueue = m.proc.lastInQueue + 1) := by
  obtain ⟨j, hj⟩ := SlotTable.exists_firstFree hent
  have hjfree := (SlotTable.firstFree_eq_some_iff.1 hj).1
  have hidx : m.proc.getFreeRamIdx = some j := hj
  have h₁ := h.toSpace.track hjfree hu hpu hxu (incr m.proc.lastInQueue)
  let m₁ := m.tracked j u (incr m.proc.lastInQueue)
  refine ⟨m₁.setProc { m₁.proc with lastInQueue := incr m.proc.lastInQueue }, ?_,
    ⟨h₁.congr ?_, ?_⟩, ⟨rfl, rfl, rfl, rfl⟩, rfl, ?_, rfl, fun _ => rfl, fun hl => ?_⟩
  · simp only [Proc.add2ram, hidx]
    rfl
  · exact .setProc rfl rfl rfl rfl
  · refine h.queue.enqueue hwrap rfl fun a ha => ?_
    by_cases haj : a = j
    · subst haj
      exact Or.inl (by simp [m₁, setProc, tracked, Proc.setRam])
    · simp only [m₁, setProc, tracked, Proc.setRam, Function.update_of_ne haj] at ha ⊢
      exact Or.inr ⟨ha, trivial⟩
  · show (ramTable m₁.proc).usedCount = _
    rw [ramTable_tracked, SlotTable.usedCount_claim hjfree]
    rfl
  · exact incr_eq (h.queue.last hl) (hwrap hl)

/-! ### `page_from_disk` -/

theorem storePage_kernel (m : Machine) (f : ℕ) (page : Page) :
    m.storePage (kernBase + 4096 * f) page = .ok (m.setFrame f page) := by
  have hf : (kernBase + 4096 * f - kernBase) / 4096 = f := by omega
  have hk : m.kaddr (kernBase + 4096 * f) true = .ok f := by
    rw [kaddr, if_pos (by omega), hf]
  simp only [storePage, hk, bind, Except.bind, pure, Except.pure]

theorem overlay_page (page : Page) (file : File) (j : ℕ) :
    overlay page file (4096 * j) 4096 = slotPage file j := by
  funext b
  simp only [overlay, slotPage]
  rw [if_pos b.isLt]

theorem pageIn_entry {pa : Pte} (hd : m'.dirs = m.dirs)
    (h : m.walkpgdir d va = some pte) :
    m'.pageIn va pa d = .ok ((m'.setPte d va (pageInPte pte pa)).setProc
      { m'.proc with protectedPages := m'.proc.protectedPages - 1 }) := by
  rw [walkpgdir, ← hd] at h
  simp only [pageIn, walkpgdir, h]

theorem Paged.lookup_slot (h : Paged m n X) (hv : v < n)
    (hout : m.PagedOut v) : ∃ j, (m.proc.swapMonitor j).used ∧
      (m.proc.swapMonitor j).pVa = 4096 * v ∧ (swapTable m.proc).lookup (4096 * v) = some j ∧
      m.proc.swapFile.readi (4096 * j) 4096 = some 4096 := by
  obtain ⟨j, hj, hva⟩ := h.swap.mem_iff.1 (mem_swapPages.2 ⟨hv, hout⟩)
  have hcover := h.cover j hj
  refine ⟨j, hj, hva, ?_, File.readi_eq (by omega) (by omega)⟩
  rw [← hva]
  exact SlotTable.lookup_key h.stale h.swap hj

/-- The monitors after `read_page_from_disk` moved slot `j` to entry `i`. -/
def readDone (m : Machine) (i j : Fin 16) : Machine :=
  m.setProc { (m.proc.setRam i { m.proc.swapMonitor j with
      placeInQueue := incr m.proc.lastInQueue }).setSwap j
    { m.proc.swapMonitor j with used := false } with lastInQueue := incr m.proc.lastInQueue }

theorem readPageFromDisk_eq {pVa : ℕ} {dst : Dst} {i : Fin 16}
    (hlook : (swapTable m.proc).lookup pVa = some j)
    (hread : m.proc.swapFile.readi (4096 * j) 4096 = some 4096)
    (hinto : m.readInto dst (4096 * j) 4096 = .ok m') :
    m.readPageFromDisk i pVa dst = .ok (1, readDone m' i j) := by
  simp only [readPageFromDisk, hlook, hread, hinto, bind, Except.bind, pure, Except.pure]
  rfl

/-- The state `page_from_disk` works on: the fault is counted and a zeroed frame is at hand. -/
def faulted (m : Machine) (f : ℕ) (rest : List ℕ) (v : ℕ) : Machine :=
  Machine.allocated (m.setProc { m.proc with pageFaultCounter := m.proc.pageFaultCounter + 1 })
    f rest v fun _ => 0

theorem faulted_view {rest : List ℕ} (h : Paged m n X)
    (hf : m.freelist = f :: rest) : SameView m (faulted m f rest v) := by
  have hv : SameView m (m.setProc { m.proc with
      pageFaultCounter := m.proc.pageFaultCounter + 1 }) :=
    .setProc rfl rfl rfl rfl
  exact hv.trans ((h.congr hv).allocated_view hf v _)

theorem Ready.faulted {rest : List ℕ} (h : Ready sel m n X flat) (hf : m.freelist = f :: rest) (hv : v < n)
    (hout : m.PagedOut v) : Ready sel (faulted m f rest v) n X flat ∧
      (faulted m f rest v).owner f = some ((faulted m f rest v).proc.pgdir, v) ∧
      (faulted m f rest v).PagedOut v :=
  ⟨⟨h.toSpace.congr (faulted_view h.toPaged hf), ⟨h.queue.le, h.queue.pos, h.queue.last⟩⟩,
    allocated_owner _ _ _ _ _, ((faulted_view h.toPaged hf).pagedOut_iff (h.lt_pages hv)).2 hout⟩

theorem walkpgdir_of_dirs (hd : m'.dirs = m.dirs)
    (h : m.walkpgdir d va = some pte) : m'.walkpgdir d va = some pte := by
  rwa [walkpgdir, hd]

theorem kaddr_congr (hd : m'.dirs = m.dirs) (hp : m'.proc.pgdir = m.proc.pgdir)
    (va : ℕ) (write : Bool) : m'.kaddr va write = m.kaddr va write := by
  simp only [kaddr, kernelFault, walkpgdir, hd, hp]

theorem pageFromDisk_eq {rest : List ℕ}
    (hva : va / 4096 = v) (hf : m.freelist = f :: rest) :
    m.pageFromDisk sel va = match (ramTable m.proc).firstFree with
      | some i => (faulted m f rest v).fillEntry (kernBase + 4096 * f) (4096 * v) i
      | none => (faulted m f rest v).exchange sel (kernBase + 4096 * f) (4096 * v) := by
  have hround : pgRoundDown va = 4096 * v := by
    simp only [pgRoundDown]
    omega
  have hv : 4096 * v / 4096 = v := by omega
  have hkalloc : Machine.kallocPage (m.setProc { m.proc with
      pageFaultCounter := m.proc.pageFaultCounter + 1 }) (4096 * v) = (kernBase + 4096 * f,
      Machine.setOwner { m.setProc { m.proc with
        pageFaultCounter := m.proc.pageFaultCounter + 1 } with freelist := rest }
        f m.proc.pgdir v) := by
    simp only [kallocPage, kalloc, setProc, hf, hv]
  rw [pageFromDisk]
  simp only [hround, hkalloc, storePage_kernel, bind, Except.bind]
  rfl

section

variable {sel : Selection} {m : Machine} {n v f : ℕ} {X : Set ℕ} {flat : Flat} {i j : Fin 16}

theorem fillEntry_eq (h : Paged m n X) (hown : m.owner f = some (m.proc.pgdir, v))
    (hv : v < n) (hout : m.PagedOut v) (hu : (m.proc.swapMonitor j).used)
    (hj : (m.proc.swapMonitor j).pVa = 4096 * v)
    (hlook : (swapTable m.proc).lookup (4096 * v) = some j)
    (hread : m.proc.swapFile.readi (4096 * j) 4096 = some 4096) :
    m.fillEntry (kernBase + 4096 * f) (4096 * v) i =
      .ok (1, ((m.fetched f v j).tracked i v (incr m.proc.lastInQueue)).setProc
        { ((m.fetched f v j).tracked i v (incr m.proc.lastInQueue)).proc with
          protectedPages := m.proc.protectedPages - 1
          lastInQueue := incr m.proc.lastInQueue }) := by
  have hB := h.fetch hown hv hout hu hj
  have hpB : (m.fetched f v j).Present v := by
    rw [Present, h.fetched_pte hv, pageInPte_present]
  have hkaddr : (m.fetched f v j).kaddr (4096 * v) true = .ok f := by
    rw [hB.kaddr_eq hv hpB, h.fetched_pte hv, h.fetched_frame hv hout hown]
    intro _
    rw [h.fetched_pte hv, pageInPte_writable]
  have hwalk := h.walkpgdir_eq (lt_of_lt_of_le hv h.size)
  have hdir := h.swapDir j hu
  let mP := (m.setPte m.proc.pgdir (4096 * v) (pageInPte (m.pte v) (paOf f))).setProc
    { m.proc with protectedPages := m.proc.protectedPages - 1 }
  have hin : m.pageIn (4096 * v) (paOf f) m.proc.pgdir = .ok mP := pageIn_entry rfl hwalk
  have hinto : mP.readInto (.user (4096 * v)) (4096 * j) 4096 =
      .ok (mP.setFrame f (slotPage m.proc.swapFile j)) := by
    have hk : mP.kaddr (4096 * v) true = .ok f := (kaddr_congr rfl rfl _ _).trans hkaddr
    simp only [readInto, hk, overlay_page, bind, Except.bind, pure, Except.pure]
    rfl
  have hrd := readPageFromDisk_eq (m := mP) (i := i) (j := j) hlook hread hinto
  simp only [fillEntry, v2p_page, hin, hrd, bind, Except.bind, pure, Except.pure]
  simp only [readDone, tracked, fetched, mP, setProc, setPte, setFrame, Proc.setRam, Proc.setSwap,
    hu, hdir, hj]

/-- The state in the middle of `page_from_disk` without a free entry: page `v` has been read and has
taken entry `i` over from the victim, which is still resident. -/
def exchanged (m : Machine) (f v : ℕ) (i j : Fin 16) : Machine :=
  { (m.fetched f v j).tracked i v (incr m.proc.lastInQueue) with
    buff := slotPage m.proc.swapFile j
    proc := { ((m.fetched f v j).tracked i v (incr m.proc.lastInQueue)).proc with
      protectedPages := m.proc.protectedPages - 1
      lastInQueue := incr m.proc.lastInQueue } }

theorem exchanged_view (m : Machine) (f v : ℕ) (i j : Fin 16) :
    SameView (((m.untracked i).fetched f v j).tracked i v (incr m.proc.lastInQueue))
      (exchanged m f v i j) := by
  have hmon : Proc.ramMonitor (exchanged m f v i j).proc = Proc.ramMonitor
      (((m.untracked i).fetched f v j).tracked i v (incr m.proc.lastInQueue)).proc := by
    simp only [exchanged, tracked, fetched, untracked, setProc, Proc.setRam, Proc.setSwap,
      Function.update_idem]
  refine SameView.of_dirs rfl rfl rfl (AgreeSoft.refl _) rfl rfl rfl ?_ ?_ rfl (fun _ => rfl)
  · simp only [ramTable, hmon]
  · intro a
    rw [hmon]

theorem exchanged_id (m : Machine) (f v : ℕ) (i j : Fin 16) : SameId m (exchanged m f v i j) :=
  ⟨rfl, rfl, rfl, rfl⟩

theorem exchange_eq {m₁ : Machine} {w : ℕ} {k : Fin 16}
    (hpol : Machine.replacePageByPolicy sel (m.setProc { m.proc with
      pagesInFile := m.proc.pagesInFile + 1 }) = .ok (i, m₁))
    (h : Paged m₁ n X) (hi : (m₁.proc.ramMonitor i).used)
    (hva : (m₁.proc.ramMonitor i).pVa = 4096 * w) (hv : v < n)
    (hu : (m₁.proc.swapMonitor j).used) (hj : (m₁.proc.swapMonitor j).pVa = 4096 * v)
    (hlook : (swapTable m₁.proc).lookup (4096 * v) = some j)
    (hread : m₁.proc.swapFile.readi (4096 * j) 4096 = some 4096)
    (hC : Paged (exchanged m₁ f v i j) n (insert w X)) (hw : w < n)
    (hpw : (exchanged m₁ f v i j).Present w)
    (hk : (swapTable (exchanged m₁ f v i j).proc).firstFree = some k) :
    m.exchange sel (kernBase + 4096 * f) (4096 * v) =
      .ok (1, ((exchanged m₁ f v i j).writtenOut w k).setProc
        { ((exchanged m₁ f v i j).writtenOut w k).proc with
          protectedPages := m₁.proc.protectedPages - 1 + 1 }) := by
  have hdir := h.ramDir i hi
  have hsdir := h.swapDir j hu
  let mP := (m₁.setPte m₁.proc.pgdir (4096 * v) (pageInPte (m₁.pte v) (paOf f))).setProc
    { m₁.proc with protectedPages := m₁.proc.protectedPages - 1 }
  have hin : m₁.pageIn (4096 * v) (paOf f) m₁.proc.pgdir = .ok mP :=
    pageIn_entry rfl (h.walkpgdir_eq (lt_of_lt_of_le hv h.size))
  have hinto : mP.readInto .buff (4096 * j) 4096 =
      .ok { mP with buff := slotPage m₁.proc.swapFile j } := by
    simp only [readInto, overlay_page]
    rfl
  have hrd := readPageFromDisk_eq (m := mP) (i := i) (j := j) hlook hread hinto
  have hmid : (readDone { mP with buff := slotPage m₁.proc.swapFile j } i j).setFrame f
      (slotPage m₁.proc.swapFile j) = exchanged m₁ f v i j := by
    simp only [readDone, exchanged, tracked, fetched, mP, setProc, setPte, setFrame, Proc.setRam,
      Proc.setSwap, hu, hsdir, hj]
  let mC := exchanged m₁ f v i j
  have hwalk : mC.walkpgdir m₁.proc.pgdir (4096 * w) = some (mC.pte w) :=
    hC.walkpgdir_eq (lt_of_lt_of_le hw h.size)
  have hwrite := hC.write2file_eq hk hw hpw m₁.proc.pgdir
  have hvalid : mC.kend ≤ frameOf (mC.pte w) ∧ frameOf (mC.pte w) < phystopFrame :=
    hC.frames.frame_valid (h.lt_userPages hw) hpw
  simp only [exchange, hpol, bind, Except.bind, v2p_page, hin, hrd, hdir, hva]
  rw [walkpgdir_of_dirs ?_ hwalk]
  · simp only [storePage_kernel]
    rw [show (readDone { mP with buff := slotPage m₁.proc.swapFile j } i j).buff =
      slotPage m₁.proc.swapFile j from rfl, hmid]
    simp only [hwrite]
    rw [pageOut_entry ?_ hwalk]
    · simp only
      rw [kfree_frame ?_ hvalid]
      · rfl
      · rfl
    · rfl
  · rfl

/-- The outcome of serving a fault on page `v`. -/
structure Served (sel : Selection) (m m' : Machine) (n v : ℕ) (X : Set ℕ) (flat : Flat) :
    Prop where
  ready : Ready sel m' n X flat
  id : SameId m m'
  present : m'.Present v
  accessible : flagOn (m'.pte v) pteW ∧ flagOn (m'.pte v) pteU
  last : sel = .LIFO → m'.proc.lastInQueue = m.proc.lastInQueue + 1
  full : ramCount m = 16 → ramCount m' = 16 ∧ swapCount m' = swapCount m

theorem fillEntry_spec (h : Ready sel m n X flat) (hown : m.owner f = some (m.proc.pgdir, v))
    (hv : v < n) (hout : m.PagedOut v) (hx : v ∉ X) (hi : (ramTable m.proc).firstFree = some i)
    (hwrap : sel = .LIFO → m.proc.lastInQueue + 1 ≤ 0x7FFFFFFF) :
    ∃ m', m.fillEntry (kernBase + 4096 * f) (4096 * v) i = .ok (1, m') ∧
      Served sel m m' n v X flat := by
  obtain ⟨j, hu, hj, hlook, hread⟩ := h.toPaged.lookup_slot hv hout
  have hifree := (SlotTable.firstFree_eq_some_iff.1 hi).1
  have hp : (m.fetched f v j).Present v := by
    rw [Present, h.fetched_pte hv, pageInPte_present]
  have h₁ := (h.toSpace.fetch hown hv hout hu hj).track (i := i) hifree hv hp
    (Set.mem_insert v X) (incr m.proc.lastInQueue)
  rw [Set.insert_sdiff_self_of_notMem hx] at h₁
  refine ⟨_, fillEntry_eq h.toPaged hown hv hout hu hj hlook hread,
    ⟨⟨h₁.congr ?_, ?_⟩, ?_, ?_, ?_, ?_, ?_⟩⟩
  · exact .setProc rfl rfl rfl rfl
  · refine h.queue.enqueue hwrap rfl fun a ha => ?_
    by_cases hai : a = i
    · subst hai
      exact Or.inl (by simp [setProc, tracked, Proc.setRam])
    · simp only [setProc, tracked, fetched, Proc.setRam, Proc.setSwap,
        Function.update_of_ne hai] at ha ⊢
      exact Or.inr ⟨ha, trivial⟩
  · exact ⟨rfl, rfl, rfl, rfl⟩
  · exact hp
  · have hpte := h.fetched_pte (f := f) (j := j) hv
    exact ⟨hpte ▸ pageInPte_writable _ _, hpte ▸ pageInPte_user _ _⟩
  · exact fun hl => incr_eq (h.queue.last hl) (hwrap hl)
  · intro hfull
    have := SlotTable.usedCount_lt_of_unused hifree
    rw [ramCount] at hfull
    omega

/-- What `page_from_disk` does without a free entry: page `v` takes the entry of the policy's choice
`w`, which goes to a free slot. -/
theorem exchange_run (hsel : sel ≠ .NONE) (h : Ready sel m n X flat)
    (hown : m.owner f = some (m.proc.pgdir, v)) (hv : v < n) (hout : m.PagedOut v) (hx : v ∉ X)
    (hent : 0 < ramCount m) :
    ∃ i m₁ w j k, Chosen sel m i m₁ ∧ Space m₁ n X flat ∧ (m₁.proc.ramMonitor i).used ∧
      (m₁.proc.ramMonitor i).pVa = 4096 * w ∧ w < n ∧ m₁.Present w ∧ w ∉ X ∧ m₁.PagedOut v ∧
      m₁.owner f = some (m₁.proc.pgdir, v) ∧ (m₁.proc.swapMonitor j).used ∧
      (m₁.proc.swapMonitor j).pVa = 4096 * v ∧
      Space (exchanged m₁ f v i j) n (insert w X) flat ∧ (exchanged m₁ f v i j).Present w ∧
      (swapTable (exchanged m₁ f v i j).proc).firstFree = some k ∧
      m.exchange sel (kernBase + 4096 * f) (4096 * v) =
        .ok (1, ((exchanged m₁ f v i j).writtenOut w k).setProc
          { ((exchanged m₁ f v i j).writtenOut w k).proc with
            protectedPages := m₁.proc.protectedPages - 1 + 1 }) := by
  obtain ⟨i, m₁, w, hpol, hc, h₁, hi, hva, hw, hpw, hxw⟩ := h.chosen hsel hent
  have hout₁ : m₁.PagedOut v := (hc.view.pagedOut_iff (h.lt_pages hv)).2 hout
  have hown₁ : m₁.owner f = some (m₁.proc.pgdir, v) := by
    rw [hc.owner, hc.view.pgdir]
    exact hown
  obtain ⟨j, hu, hj, hlook, hread⟩ := h₁.toPaged.lookup_slot hv hout₁
  have hwv : w ≠ v := by
    rintro rfl
    exact hpw.not_pagedOut hout₁
  -- the victim leaves its entry, the page is fetched and takes the entry
  have h₂ := h₁.untrack hi hva
  have h₃ := h₂.fetch (m := m₁.untracked i) hown₁ hv hout₁ hu hj
  let m₃ := (m₁.untracked i).fetched f v j
  have hp₃ : m₃.Present v := by
    rw [Present, h₂.fetched_pte hv, pageInPte_present]
  have hi₃ : (m₃.proc.ramMonitor i).used = false := by
    simp [m₃, fetched, untracked, setProc, Proc.setRam, Proc.setSwap]
  have hpw₃ : m₃.Present w :=
    ((h₂.toPaged.fetched_move hown₁ hv hout₁ hj).present_iff (h.lt_pages hw) hwv).2 hpw
  have h₄ := h₃.track hi₃ hv hp₃ (Set.mem_insert v _) (incr m₁.proc.lastInQueue)
  have hxv : v ∉ insert w X := by
    rintro (rfl | hc)
    · exact hwv rfl
    · exact hx hc
  rw [Set.insert_sdiff_self_of_notMem hxv] at h₄
  have hC := h₄.congr (exchanged_view m₁ f v i j)
  -- its slot is free again, so there is one for the victim
  have hrel : (swapTable (exchanged m₁ f v i j).proc).usedCount + 1 =
      (swapTable m₁.proc).usedCount := by
    have hst : swapTable (exchanged m₁ f v i j).proc = (swapTable m₁.proc).release j :=
      swapTable_release m₁.proc j
    rw [hst]
    exact SlotTable.usedCount_release hu
  have hle : (swapTable m₁.proc).usedCount ≤ 16 := SlotTable.usedCount_le
  obtain ⟨k, hk⟩ : ∃ k, (swapTable (exchanged m₁ f v i j).proc).firstFree = some k :=
    SlotTable.exists_firstFree (by omega)
  exact ⟨i, m₁, w, j, k, hc, h₁, hi, hva, hw, hpw, hxw, hout₁, hown₁, hu, hj, hC, hpw₃, hk,
    exchange_eq hpol h₁.toPaged hi hva hv hu hj hlook hread hC.toPaged hw hpw₃ hk⟩

theorem exchange_spec (hsel : sel ≠ .NONE) (h : Ready sel m n X flat)
    (hown : m.owner f = some (m.proc.pgdir, v)) (hv : v < n) (hout : m.PagedOut v) (hx : v ∉ X)
    (hent : 0 < ramCount m) (hwrap : sel = .LIFO → m.proc.lastInQueue + 1 ≤ 0x7FFFFFFF) :
    ∃ m', m.exchange sel (kernBase + 4096 * f) (4096 * v) = .ok (1, m') ∧
      Served sel m m' n v X flat := by
  obtain ⟨i, m₁, w, j, k, hc, h₁, hi, hva, hw, hpw, hxw, hout₁, hown₁, hu, hj, hC, hpwC, hk, hcode⟩ :=
    exchange_run hsel h hown hv hout hx hent
  have hwv : w ≠ v := by
    rintro rfl
    exact hpw.not_pagedOut hout₁
  have hfin := hC.writeOut hk hw hpwC (Set.mem_insert w X)
  rw [Set.insert_sdiff_self_of_notMem hxw] at hfin
  have hmove := hC.toPaged.writtenOut_move (SlotTable.firstFree_eq_some_iff.1 hk).1 hw hpwC
  refine ⟨_, hcode, ⟨⟨hfin.congr ?_, ?_⟩, ?_, ?_, ?_, ?_, ?_⟩⟩
  · exact .setProc rfl rfl rfl rfl
  · refine hc.queue.enqueue (fun hl => by rw [hc.last hl]; exact hwrap hl) rfl fun a ha => ?_
    by_cases hai : a = i
    · subst hai
      exact Or.inl (by simp [setProc, writtenOut, exchanged, tracked, Proc.setRam, Proc.setSwap])
    · simp only [setProc, writtenOut, exchanged, tracked, fetched, Proc.setRam, Proc.setSwap,
        Function.update_of_ne hai] at ha ⊢
      exact Or.inr ⟨ha, trivial⟩
  · exact (hc.id.trans (exchanged_id m₁ f v i j)).trans ⟨rfl, rfl, rfl, rfl⟩
  · have hpv : (exchanged m₁ f v i j).Present v := by
      rw [Present]
      exact (congrArg (flagOn · pteP) (h₁.fetched_pte (f := f) (j := j) hv)).trans
        (pageInPte_present _ _)
    exact (hmove.present_iff (h.lt_pages hv) hwv.symm).2 hpv
  · have hpte : ((exchanged m₁ f v i j).writtenOut w k).pte v =
        pageInPte (m₁.pte v) (paOf f) :=
      (hmove.pte v (h.lt_pages hv) hwv.symm).trans (h₁.fetched_pte (j := j) hv)
    exact ⟨hpte ▸ pageInPte_writable _ _, hpte ▸ pageInPte_user _ _⟩
  · intro hl
    show incr m₁.proc.lastInQueue = _
    rw [hc.last hl]
    exact incr_eq (h.queue.last hl) (hwrap hl)
  · intro hfull
    have hi₃ : (((m₁.untracked i).fetched f v j).proc.ramMonitor i).used = false := by
      simp [fetched, untracked, setProc, Proc.setRam, Proc.setSwap]
    have hram : (ramTable (exchanged m₁ f v i j).proc).usedCount = (ramTable m₁.proc).usedCount := by
      have hun := SlotTable.usedCount_release (t := ramTable m₁.proc) hi
      rw [(exchanged_view m₁ f v i j).ram, ramTable_tracked, SlotTable.usedCount_claim hi₃]
      rwa [← ramTable_untracked] at hun
    have hrel : (swapTable (exchanged m₁ f v i j).proc).usedCount + 1 =
        (swapTable m₁.proc).usedCount := by
      rw [show swapTable (exchanged m₁ f v i j).proc = (swapTable m₁.proc).release j from
        swapTable_release m₁.proc j]
      exact SlotTable.usedCount_release hu
    refine ⟨hram.trans ?_, ?_⟩
    · rw [hc.view.ram]
      exact hfull
    · show (swapTable (Proc.setSwap _ k _)).usedCount = _
      rw [swapTable_claim]
      refine (SlotTable.usedCount_claim (SlotTable.firstFree_eq_some_iff.1 hk).1).trans ?_
      rw [show swapCount m = (swapTable m₁.proc).usedCount by rw [hc.view.swap]; rfl, ← hrel]

theorem pageFromDisk_spec {va : ℕ} (hsel : sel ≠ .NONE) (h : Ready sel m n X flat)
    (hva : va / 4096 = v) (hv : v < n) (hout : m.PagedOut v) (hx : v ∉ X)
    (hfree : m.freelist ≠ []) (hwrap : sel = .LIFO → m.proc.lastInQueue + 1 ≤ 0x7FFFFFFF) :
    ∃ m', m.pageFromDisk sel va = .ok (1, m') ∧ Served sel m m' n v X flat := by
  obtain ⟨f, rest, hf⟩ := List.exists_cons_of_ne_nil hfree
  obtain ⟨h₁, hown, hout₁⟩ := h.faulted hf hv hout
  have hserved : ∀ m', Served sel (faulted m f rest v) m' n v X flat →
      Served sel m m' n v X flat := fun m' hs =>
    ⟨hs.ready, (show SameId m (faulted m f rest v) from ⟨rfl, rfl, rfl, rfl⟩).trans hs.id, hs.present,
      hs.accessible, hs.last, hs.full⟩
  rw [pageFromDisk_eq hva hf]
  cases hi : (ramTable m.proc).firstFree with
  | some i =>
    obtain ⟨m', hcode, hs⟩ := fillEntry_spec h₁ hown hv hout₁ hx hi hwrap
    exact ⟨m', hcode, hserved m' hs⟩
  | none =>
    have hent : 0 < ramCount m := by
      rw [ramCount, SlotTable.usedCount_eq_of_firstFree_none hi]
      decide
    obtain ⟨m', hcode, hs⟩ := exchange_spec hsel h₁ hown hv hout₁ hx hent hwrap
    exact ⟨m', hcode, hserved m' hs⟩

end

end Xv6
