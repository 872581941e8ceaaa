import Xv6.Lib.Run
import Xv6.AddressSpace
import Xv6.Frames

/-!
# What the kernel does to page tables and frames

Every function of the kernel changes the page tables, the free list and the ownership record in a few
ways only, listed in `Change`.  For each function that returns there is one lemma that breaks its
effect into such changes, in whatever state it was called; what one change preserves is then preserved
by all of them.
-/

namespace Xv6

open Machine

/-- The entry `e` at position `i` of `ram_monitor`, at the end of the queue. -/
def Proc.enqueue (p : Proc) (i : Fin 16) (e : PMonitor) : Proc :=
  { p.setRam i { e with placeInQueue := incr p.lastInQueue } with
    lastInQueue := incr p.lastInQueue }

/-- What changes may be about: the build, the addresses that may be evicted, the pages that may be
mapped or dropped, and whether `page_from_disk` may find the free list empty. -/
structure Scope where
  sel : Selection
  evict : ℕ → Prop
  map : ℕ → ℕ → Prop
  null : Prop

/-- One change of the process's paging data, with the number of pages it puts at the end of the queue. -/
inductive ProcMove (S : Scope) (p : Proc) : ℕ → Proc → Prop
  /-- The swap file, the statistics, which only grow, and the `killed` mark. -/
  | other {p' : Proc} (hram : p'.ramMonitor = p.ramMonitor) (hswap : p'.swapMonitor = p.swapMonitor)
      (hlast : p'.lastInQueue = p.lastInQueue) (hprot : p'.protectedPages = p.protectedPages)
      (hdir : p'.pgdir = p.pgdir) (hsz : p'.sz = p.sz) (hpid : p'.pid = p.pid)
      (hfile : p.pagesInFile ≤ p'.pagesInFile) (hfault : p.pageFaultCounter ≤ p'.pageFaultCounter) :
      ProcMove S p 0 p'
  | pageOut : ProcMove S p 0 { p with protectedPages := p.protectedPages + 1 }
  | pageIn : ProcMove S p 0 { p with protectedPages := p.protectedPages - 1 }
  /-- A page loaded into entry `i`. -/
  | load (i : Fin 16) {e : PMonitor} (he : S.evict e.pVa) : ProcMove S p 1 (p.enqueue i e)
  /-- The second chance. -/
  | requeue (i : Fin 16) (hsel : S.sel = .SCFIFO) : ProcMove S p 1 (p.enqueue i (p.ramMonitor i))
  | release (i : Fin 16) : ProcMove S p 0 (p.setRam i { p.ramMonitor i with used := false })
  | untrack (d a : ℕ) : ProcMove S p 0 (untrack p d a)
  /-- A swap slot taken or given back. -/
  | slot (i : Fin 16) {e : PMonitor} (he : S.evict e.pVa) : ProcMove S p 0 (p.setSwap i e)

inductive Change (S : Scope) (m : Machine) : ℕ → Machine → Prop
  /-- The contents of frames and of the bounce buffer. -/
  | data {m' : Machine} (h : m' = { m with data := m'.data, buff := m'.buff }) : Change S m 0 m'
  | proc {n : ℕ} {p : Proc} (h : ProcMove S m.proc n p) : Change S m n (m.setProc p)
  /-- Accessed and dirty bits. -/
  | soft {d a : ℕ} {pte pte' : Pte} (hwalk : m.walkpgdir d a = some pte)
      (hs : softBits pte' = softBits pte) : Change S m 0 (m.setPte d a pte')
  /-- `page_out`, with the frame given back. -/
  | evict {d a : ℕ} {pte : Pte} (hE : S.evict a) (hwalk : m.walkpgdir d a = some pte)
      (hf : m.kend ≤ frameOf pte ∧ frameOf pte < phystopFrame) :
      Change S m 0 ((m.setPte d a (pageOutPte pte)).freed (frameOf pte))
  /-- A frame is allocated for a page. -/
  | take {f : ℕ} {rest : List ℕ} (d v : ℕ) (hf : m.freelist = f :: rest) :
      Change S m 0 ({ m with freelist := rest }.setOwner f d v)
  /-- `page_in` of a page that is marked paged out. -/
  | fetch {d v f : ℕ} {pte : Pte} (hv : v < 0x100000) (howner : m.owner f = some (d, v))
      (hwalk : m.walkpgdir d (4096 * v) = some pte) (hpg : flagOn pte ptePG = true) :
      Change S m 0 (m.setPte d (4096 * v) (pageInPte pte (paOf f)))
  /-- `page_in` after `kalloc` found no frame: the address is `V2P(0)`. -/
  | fetchNull {d v : ℕ} {pte : Pte} (hnull : S.null) (hv : v < 0x100000)
      (hwalk : m.walkpgdir d (4096 * v) = some pte) (hpg : flagOn pte ptePG = true) :
      Change S m 0 (m.setPte d (4096 * v) (pageInPte pte (v2p 0)))
  /-- A missing page table. -/
  | table {d v f : ℕ} {rest : List ℕ} (hf : m.freelist = f :: rest)
      (hnone : ¬ HasTable m.dirs d v) :
      Change S m 0 { m with freelist := rest, dirs := addTable m.dirs d (4096 * v) f }
  /-- `mappages` of an allocated frame. -/
  | map {d v f : ℕ} {pte perm : Pte} (hperm : perm.toNat < 4096 ∧ flagOn perm ptePG = false)
      (hmark : flagOn perm pte1 = false ∨ ∀ v, S.map d v) (hv : v < userPages) (hM : S.map d v) (howner : m.owner f = some (d, v))
      (hwalk : m.walkpgdir d (4096 * v) = some pte) (hp : flagOn pte pteP = false) :
      Change S m 0 (m.setPte d (4096 * v) (mapPte f perm))
  /-- A page released. -/
  | drop {d v : ℕ} {pte : Pte} (hv : v < userPages) (hM : S.map d v)
      (hwalk : m.walkpgdir d (4096 * v) = some pte) (hp : flagOn pte pteP = true)
      (hf : m.kend ≤ frameOf pte ∧ frameOf pte < phystopFrame) :
      Change S m 0 ((m.setPte d (4096 * v) 0).freed (frameOf pte))
  /-- A new directory. -/
  | newDir {d : ℕ} {rest : List ℕ} (hM : ∀ v, S.map d v) (hf : m.freelist = d :: rest) :
      Change S m 0 { m with freelist := rest, dirs := Function.update m.dirs d fun _ => none }
  /-- `mappages` for the kernel. -/
  | kmap {d v f : ℕ} {pte perm : Pte} (hperm : flagOn perm pteU = false ∧ flagOn perm ptePG = false)
      (hv : userPages ≤ v ∧ v < 0x100000) (hM : S.map d v)
      (hwalk : m.walkpgdir d (4096 * v) = some pte) :
      Change S m 0 (m.setPte d (4096 * v) (mapPte f perm))
  /-- `clearpteu`. -/
  | guard {d a : ℕ} {pte : Pte} (hM : ∀ v, S.map d v) (hwalk : m.walkpgdir d a = some pte) :
      Change S m 0 (m.setPte d a (pte &&& ~~~pteU))
  /-- `page_out` of a page of a copy, which has no frame. -/
  | mark {d a : ℕ} {pte : Pte} (hM : ∀ v, S.map d v) (hwalk : m.walkpgdir d a = some pte) :
      Change S m 0 (m.setPte d a (pageOutPte pte))
  /-- A directory given back with its page tables. -/
  | dropDir {d : ℕ} {m' : Machine} (hM : ∀ v, S.map d v)
      (htables : freeTables d (List.range 1024) m = .ok m')
      (hd : m.kend ≤ d ∧ d < phystopFrame) :
      Change S m 0 { m'.freed d with dirs := Function.update m'.dirs d fun _ => none }

/-- A sequence of changes that puts at most `n` pages at the end of the queue. -/
inductive Changes (S : Scope) : ℕ → Machine → Machine → Prop
  | refl {n : ℕ} {m : Machine} : Changes S n m m
  | tail {n k : ℕ} {m m' m'' : Machine} (h : Changes S n m m') (hc : Change S m' k m'') :
      Changes S (n + k) m m''

/-- The addresses in the monitors, used or not. -/
def Tracks (S : Scope) (p : Proc) : Prop :=
  ∀ i, S.evict (p.ramMonitor i).pVa ∧ S.evict (p.swapMonitor i).pVa

section

variable {S : Scope} {n k : ℕ} {m m' m'' : Machine} {p p' : Proc} {d a : ℕ} {e : PMonitor}
  {f oldsz newsz np v va count : ℕ} {sel : Selection} {r : Int}

/-! ### Sequences -/

namespace Changes

theorem single (h : Change S m 0 m') : Changes S n m m' := Changes.refl.tail h

theorem mono (h : Changes S n m m') (hn : n ≤ k) : Changes S k m m' := by
  induction h generalizing k with
  | refl => exact .refl
  | @tail n j _ _ _ _ hc ih =>
    have hk : k - j + j = k := by omega
    rw [← hk]
    exact (ih (by omega)).tail hc

theorem trans {j : ℕ} (h : Changes S n m m') (h' : Changes S k m' m'') (hj : n + k ≤ j) :
    Changes S j m m'' := by
  induction h' generalizing j with
  | refl => exact h.mono (by omega)
  | tail _ hc ih => exact ((ih h le_rfl).tail hc).mono (by omega)

theorem head (hc : Change S m 0 m') (h : Changes S n m' m'') : Changes S n m m'' :=
  (single (n := 0) hc).trans h (by omega)

end Changes

/-! ### What all changes keep -/

theorem Tracks.setRam (h : Tracks S p) (i : Fin 16) (he : S.evict e.pVa) :
    Tracks S (p.setRam i e) := by
  intro j
  refine ⟨?_, (h j).2⟩
  by_cases hj : j = i
  · subst hj
    simpa [Proc.setRam] using he
  · simpa [Proc.setRam, hj] using (h j).1

theorem Tracks.setSwap (h : Tracks S p) (i : Fin 16) (he : S.evict e.pVa) :
    Tracks S (p.setSwap i e) := by
  intro j
  refine ⟨(h j).1, ?_⟩
  by_cases hj : j = i
  · subst hj
    simpa [Proc.setSwap] using he
  · simpa [Proc.setSwap, hj] using (h j).2

theorem Tracks.enqueue (h : Tracks S p) (i : Fin 16) (he : S.evict e.pVa) :
    Tracks S (p.enqueue i e) :=
  Tracks.setRam (e := { e with placeInQueue := incr p.lastInQueue }) h i he

theorem ProcMove.tracks (h : ProcMove S p n p') (ht : Tracks S p) : Tracks S p' := by
  cases h with
  | other hram hswap =>
    rw [Tracks, hram, hswap]
    exact ht
  | pageOut => exact ht
  | pageIn => exact ht
  | load i he => exact ht.enqueue i he
  | requeue i _ => exact ht.enqueue i (ht i).1
  | release i => exact ht.setRam i (ht i).1
  | untrack d a =>
    intro i
    refine ⟨?_, (ht i).2⟩
    simp only [Machine.untrack]
    split_ifs
    · exact (ht i).1
    · exact (ht i).1
  | slot i he => exact ht.setSwap i he

theorem ProcMove.id (h : ProcMove S p n p') : p'.pgdir = p.pgdir ∧ p'.sz = p.sz ∧ p'.pid = p.pid := by
  cases h with
  | other hram hswap hlast hprot hdir hsz hpid => exact ⟨hdir, hsz, hpid⟩
  | _ => exact ⟨rfl, rfl, rfl⟩

theorem Change.data_proc (h : m' = { m with data := m'.data, buff := m'.buff }) :
    m'.kend = m.kend ∧ m'.freelist = m.freelist ∧ m'.owner = m.owner ∧ m'.dirs = m.dirs ∧
      m'.proc = m.proc := by
  rw [h]
  exact ⟨rfl, rfl, rfl, rfl, rfl⟩

theorem kfree_ok (hrun : m.kfree f = .ok m') :
    m' = m.freed f ∧ m.kend ≤ f ∧ f < phystopFrame := by
  unfold kfree at hrun
  split at hrun
  · cases hrun
  · cases hrun
    exact ⟨rfl, by omega, by omega⟩

/-! ### Giving pages back -/

/-- A page of directory `d` given back, with the entry that tracks it. -/
def Machine.dropAt (sel : Selection) (m : Machine) (d a : ℕ) (pte : Pte) : Machine :=
  let m' := m.freed (frameOf pte)
  (if sel = .NONE then m' else m'.setProc (untrack m'.proc d a)).setPte d a 0

theorem dropAt_eq (sel : Selection) (m : Machine) (d a : ℕ) (pte : Pte) :
    m.dropAt sel d a pte = { (m.freed (frameOf pte)).setPte d a 0 with
      proc := if sel = .NONE then m.proc else untrack m.proc d a } := by
  unfold dropAt
  split_ifs <;> rfl

/-- What the loop of `deallocuvm` does from `a` on, when it returns: backwards from its end. -/
theorem deallocLoop_induct {motive : ℕ → Machine → Prop} {fuel : ℕ}
    (hrun : deallocLoop sel d oldsz fuel a m = .ok m') (hend : ∀ a, oldsz ≤ a → motive a m')
    (hskip : ∀ a m, a < oldsz → m.walkpgdir d a = none → motive ((pdx a + 1) * 0x400000) m → motive a m)
    (habsent : ∀ a m pte, a < oldsz → m.walkpgdir d a = some pte → flagOn pte pteP = false →
      motive (a + 4096) m → motive a m)
    (hdrop : ∀ a m pte, a < oldsz → m.walkpgdir d a = some pte → flagOn pte pteP = true → frameOf pte ≠ 0 →
      m.kend ≤ frameOf pte ∧ frameOf pte < phystopFrame → motive (a + 4096) (m.dropAt sel d a pte) →
        motive a m) : motive a m := by
  induction fuel generalizing a m with
  | zero =>
    unfold deallocLoop at hrun
    split at hrun
    · cases hrun
    · cases hrun
      exact hend a (by omega)
  | succ fuel ih =>
    unfold deallocLoop at hrun
    split at hrun
    · rename_i hlt
      split at hrun
      · rename_i hwalk
        exact hskip a m hlt hwalk (ih hrun)
      · rename_i pte hwalk
        split at hrun
        · rename_i hp
          split at hrun
          · cases hrun
          · rename_i hne
            obtain ⟨m₁, hfree, hrun⟩ := Run.bind_ok hrun
            obtain ⟨rfl, hvalid⟩ := kfree_ok hfree
            exact hdrop a m pte hlt hwalk hp hne hvalid (ih hrun)
        · rename_i hp
          exact habsent a m pte hlt hwalk (Bool.eq_false_of_not_eq_true hp) (ih hrun)
    · cases hrun
      exact hend a (by omega)

theorem deallocuvm_induct {P : Machine → Prop} {r : ℕ}
    (hrun : m.deallocuvm sel d oldsz newsz = .ok (r, m')) (hend : P m')
    (hdrop : ∀ a m pte, a < oldsz → a % 4096 = 0 → m.walkpgdir d a = some pte → flagOn pte pteP = true →
      frameOf pte ≠ 0 → m.kend ≤ frameOf pte ∧ frameOf pte < phystopFrame → P (m.dropAt sel d a pte) → P m) :
    P m := by
  unfold deallocuvm at hrun
  split at hrun
  · cases hrun
    exact hend
  · obtain ⟨m₁, hloop, hrun⟩ := Run.bind_ok hrun
    cases hrun
    have hloop' := deallocLoop_induct (motive := fun a m => a % 4096 = 0 → P m) hloop (fun _ _ _ => hend)
      (fun a m _ _ ih ha => ih (by omega)) (fun a m pte _ _ _ ih ha => ih (by omega))
      (fun a m pte hlt hwalk hp hne hvalid ih ha => hdrop a m pte hlt ha hwalk hp hne hvalid (ih (by omega)))
    exact hloop' (by rw [pgRoundUp]; omega)

theorem freeTables_keeps {l : List ℕ} (hrun : freeTables d l m = .ok m') :
    m' = { m with freelist := m'.freelist, data := m'.data, owner := m'.owner } := by
  induction l generalizing m with
  | nil =>
    cases hrun
    rfl
  | cons i rest ih =>
    unfold freeTables at hrun
    split at hrun
    · exact ih hrun
    · rename_i t _
      obtain ⟨m₁, hfree, hrun⟩ := Run.bind_ok hrun
      obtain ⟨rfl, -⟩ := kfree_ok hfree
      exact ih (m := m.freed t.frame) hrun

theorem Changes.tracks (h : Changes S n m m') (ht : Tracks S m.proc) : Tracks S m'.proc := by
  induction h with
  | refl => exact ht
  | tail _ hc ih =>
    cases hc with
    | data h =>
      rw [(Change.data_proc h).2.2.2.2]
      exact ih ht
    | proc h => exact h.tracks (ih ht)
    | dropDir _ htables _ =>
      rw [freeTables_keeps htables]
      exact ih ht
    | _ => exact ih ht

theorem Changes.id (h : Changes S n m m') : m'.kend = m.kend ∧ m'.kdata = m.kdata ∧
    m'.proc.pgdir = m.proc.pgdir ∧ m'.proc.sz = m.proc.sz ∧ m'.proc.pid = m.proc.pid := by
  induction h with
  | refl => exact ⟨rfl, rfl, rfl, rfl, rfl⟩
  | tail _ hc ih =>
    cases hc with
    | data h =>
      rw [h]
      exact ih
    | proc h =>
      obtain ⟨hdir, hsz, hpid⟩ := h.id
      obtain ⟨hkend, hkdata, hdir', hsz', hpid'⟩ := ih
      exact ⟨hkend, hkdata, hdir.trans hdir', hsz.trans hsz', hpid.trans hpid'⟩
    | dropDir _ htables _ =>
      rw [freeTables_keeps htables]
      exact ih
    | _ => exact ih

theorem Changes.statistics (h : Changes S n m m') :
    m.proc.pagesInFile ≤ m'.proc.pagesInFile ∧ m.proc.pageFaultCounter ≤ m'.proc.pageFaultCounter := by
  induction h with
  | refl => exact ⟨le_rfl, le_rfl⟩
  | tail _ hc ih =>
    cases hc with
    | data h =>
      rw [h]
      exact ih
    | proc h =>
      cases h with
      | other hram hswap hlast hprot hdir hsz hpid hfile hfault =>
        exact ⟨ih.1.trans hfile, ih.2.trans hfault⟩
      | _ => exact ih
    | dropDir _ htables _ =>
      rw [freeTables_keeps htables]
      exact ih
    | _ => exact ih

theorem Changes.setFrame (m : Machine) (f : ℕ) (page : Page) : Changes S n m (m.setFrame f page) :=
  .single (.data rfl)

theorem Changes.setProc (m : Machine) (hram : p.ramMonitor = m.proc.ramMonitor)
    (hswap : p.swapMonitor = m.proc.swapMonitor) (hlast : p.lastInQueue = m.proc.lastInQueue)
    (hprot : p.protectedPages = m.proc.protectedPages) (hdir : p.pgdir = m.proc.pgdir)
    (hsz : p.sz = m.proc.sz) (hpid : p.pid = m.proc.pid)
    (hfile : m.proc.pagesInFile ≤ p.pagesInFile)
    (hfault : m.proc.pageFaultCounter ≤ p.pageFaultCounter) : Changes S n m (m.setProc p) :=
  .single (.proc (.other hram hswap hlast hprot hdir hsz hpid hfile hfault))

theorem Changes.add2ram (m : Machine) (d : ℕ) (ha : S.evict a) :
    Changes S 1 m (m.setProc (m.proc.add2ram d a)) := by
  unfold Proc.add2ram
  split
  · exact .refl
  · exact Changes.refl.tail (n := 0) (.proc (.load _ (e := ⟨true, d, a, 0⟩) ha))

/-! ### Frames, slots and buffers -/

theorem write2file_changes (hrun : m.write2file a d = .ok (r, m')) (ha : S.evict a) :
    Changes S n m m' ∧ m'.dirs = m.dirs ∧ m'.proc.ramMonitor = m.proc.ramMonitor := by
  unfold write2file at hrun
  split at hrun
  · cases hrun
    exact ⟨.refl, rfl, rfl⟩
  · obtain ⟨f, -, hrun⟩ := Run.bind_ok hrun
    dsimp only at hrun
    generalize m.proc.swapFile.filewrite _ _ _ = x at hrun
    obtain ⟨ok, file⟩ := x
    have hfile : Changes S n m (m.setProc { m.proc with swapFile := file }) :=
      Changes.setProc m rfl rfl rfl rfl rfl rfl rfl le_rfl le_rfl
    split at hrun
    · cases hrun
      exact ⟨hfile.tail (.proc (.slot _ (e := ⟨true, d, a, 0⟩) ha)), rfl, rfl⟩
    · cases hrun
      exact ⟨hfile, rfl, rfl⟩

theorem readInto_data {dst : Dst} {off r : ℕ} (hrun : m.readInto dst off r = .ok m') :
    m' = { m with data := m'.data, buff := m'.buff } := by
  unfold readInto at hrun
  split at hrun
  · cases hrun
    rfl
  · obtain ⟨f, -, hrun⟩ := Run.bind_ok hrun
    cases hrun
    rfl

theorem readPageFromDisk_changes {idx : Fin 16} {dst : Dst}
    (hrun : m.readPageFromDisk idx a dst = .ok (r, m')) (ht : Tracks S m.proc) :
    Changes S 1 m m' ∧ m'.dirs = m.dirs := by
  unfold readPageFromDisk at hrun
  split at hrun
  · cases hrun
    exact ⟨.refl, rfl⟩
  · rename_i i _
    split at hrun
    · cases hrun
      exact ⟨.refl, rfl⟩
    · obtain ⟨m₁, hread, hrun⟩ := Run.bind_ok hrun
      have hdata := readInto_data hread
      obtain ⟨-, -, -, hdirs, hproc⟩ := Change.data_proc hdata
      cases hrun
      rw [← hproc] at ht
      have hload : ProcMove S m₁.proc 1 (m₁.proc.enqueue idx (m₁.proc.swapMonitor i)) :=
        .load idx (ht i).2
      refine ⟨((Changes.single (n := 0) (.data hdata)).tail (.proc hload)).tail (k := 0) (.proc ?_), hdirs⟩
      exact .slot i (e := { m₁.proc.swapMonitor i with used := false }) (ht i).2

theorem storePage_data {page : Page} (hrun : m.storePage np page = .ok m') :
    m' = { m with data := m'.data, buff := m'.buff } := by
  obtain ⟨f, -, hrun⟩ := Run.bind_ok hrun
  cases hrun
  rfl

/-! ### Evictions -/

/-- Nothing but accessed and dirty bits changed in the page tables. -/
structure Softens (m m' : Machine) : Prop where
  freelist : m'.freelist = m.freelist
  owner : m'.owner = m.owner
  walk : ∀ d a pte', m'.walkpgdir d a = some pte' →
    ∃ pte, m.walkpgdir d a = some pte ∧ softBits pte' = softBits pte

theorem Softens.refl (m : Machine) : Softens m m := ⟨rfl, rfl, fun _ _ pte' h => ⟨pte', h, rfl⟩⟩

theorem Softens.trans (h : Softens m m') (h' : Softens m' m'') : Softens m m'' := by
  refine ⟨h'.freelist.trans h.freelist, h'.owner.trans h.owner, fun d a pte'' hwalk => ?_⟩
  obtain ⟨pte', hwalk', hs'⟩ := h'.walk d a pte'' hwalk
  obtain ⟨pte, hwalk, hs⟩ := h.walk d a pte' hwalk'
  exact ⟨pte, hwalk, hs'.trans hs⟩

theorem Softens.setPte {pte pte' : Pte} (hwalk : m.walkpgdir d a = some pte)
    (hs : softBits pte' = softBits pte) : Softens m (m.setPte d a pte') := by
  refine ⟨rfl, rfl, fun d' b x hx => ?_⟩
  rcases walk_store hwalk pte' d' b with ⟨hy, hold⟩ | hsame
  · obtain rfl : pte' = x := Option.some.inj (hy.symm.trans hx)
    exact ⟨pte, hold, hs⟩
  · exact ⟨x, hsame.symm.trans hx, rfl⟩

theorem scfifoLoop_changes (hsel : S.sel = .SCFIFO) {fuel : ℕ} {i : Fin 16}
    (hrun : scfifoLoop fuel m = .ok (i, m')) : Changes S fuel m m' ∧ Softens m m' := by
  induction fuel generalizing m with
  | zero => cases hrun
  | succ fuel ih =>
    unfold scfifoLoop at hrun
    split at hrun
    · cases hrun
    · rename_i ret _
      dsimp only at hrun
      split at hrun
      · cases hrun
      · rename_i pte hwalk
        split at hrun
        · have hsoft := softBits_clear_accessed pte
          obtain ⟨hc, hs⟩ := ih hrun
          have hc₁ : Changes S 1 m _ :=
            (Changes.single (n := 0) (.soft hwalk hsoft)).tail (.proc (.requeue ret hsel))
          refine ⟨hc₁.trans hc (by omega), ?_⟩
          exact (Softens.setPte hwalk hsoft).trans ⟨hs.freelist, hs.owner, hs.walk⟩
        · cases hrun
          exact ⟨.refl, Softens.refl _⟩

theorem replacePageByPolicy_changes {i : Fin 16}
    (hrun : m.replacePageByPolicy S.sel = .ok (i, m')) : Changes S 17 m m' ∧ Softens m m' := by
  unfold replacePageByPolicy at hrun
  split at hrun
  · split at hrun
    · cases hrun
    · cases hrun
      exact ⟨.refl, Softens.refl _⟩
  · rename_i hsel
    exact scfifoLoop_changes hsel hrun
  · cases hrun

theorem pageOut_ok (hrun : m.pageOut a d = .ok m') :
    ∃ pte, m.walkpgdir d a = some pte ∧ m' = (m.setPte d a (pageOutPte pte)).setProc
      { m.proc with protectedPages := m.proc.protectedPages + 1 } := by
  unfold pageOut at hrun
  split at hrun
  · cases hrun
  · rename_i pte hwalk
    cases hrun
    exact ⟨pte, hwalk, rfl⟩

def countOut (m : Machine) : Machine :=
  m.setProc { m.proc with pagesInFile := m.proc.pagesInFile + 1 }

def countFault (m : Machine) : Machine :=
  m.setProc { m.proc with pageFaultCounter := m.proc.pageFaultCounter + 1 }

theorem countOut_changes (m : Machine) : Changes S n m (countOut m) :=
  Changes.setProc m rfl rfl rfl rfl rfl rfl rfl (Int.le_add_one le_rfl) le_rfl

theorem countFault_changes (m : Machine) : Changes S n m (countFault m) :=
  Changes.setProc m rfl rfl rfl rfl rfl rfl rfl le_rfl (Int.le_add_one le_rfl)

theorem swap_counted (hrun : m.swap S.sel d a = .ok m') (ht : Tracks S m.proc) (ha : S.evict a) :
    Changes S 18 (countOut m) m' := by
  obtain ⟨⟨i, m₁⟩, hpol, hrun⟩ := Run.bind_ok hrun
  have hc₁ : Changes S 17 (countOut m) m₁ := (replacePageByPolicy_changes hpol).1
  have ht₁ := hc₁.tracks ht
  dsimp only at hrun
  split at hrun
  · cases hrun
  · rename_i pte hwalk
    obtain ⟨⟨r, m₂⟩, hwrite, hrun⟩ := Run.bind_ok hrun
    obtain ⟨m₃, hfree, hrun⟩ := Run.bind_ok hrun
    obtain ⟨m₄, hout, hrun⟩ := Run.bind_ok hrun
    cases hrun
    obtain ⟨hc₂, hdirs, hram⟩ := write2file_changes (n := 0) hwrite (ht₁ i).1
    obtain ⟨rfl, hvalid⟩ := kfree_ok hfree
    obtain ⟨pte', hwalk', rfl⟩ := pageOut_ok hout
    have hwalk₂ : m₂.walkpgdir (m₁.proc.ramMonitor i).pgdir (m₁.proc.ramMonitor i).pVa =
        some pte := by
      rw [walkpgdir, hdirs]
      exact hwalk
    obtain rfl : pte = pte' := Option.some.inj (hwalk₂.symm.trans hwalk')
    have hrelease : ProcMove S m₂.proc 0 (m₂.proc.setRam i { m₁.proc.ramMonitor i with used := false }) := by
      rw [← hram]
      exact .release i
    refine hc₁.trans (k := 1) (hc₂.trans (k := 1) (.head (.evict (ht₁ i).1 hwalk₂ hvalid) ?_)
      le_rfl) le_rfl
    exact .head (.proc hrelease) (.head (.proc .pageOut) (Changes.add2ram _ d ha))

theorem swap_changes (hrun : m.swap S.sel d a = .ok m') (ht : Tracks S m.proc) (ha : S.evict a) :
    Changes S 18 m m' :=
  (countOut_changes (n := 0) m).trans (swap_counted hrun ht ha) le_rfl

/-! ### Page faults -/

/-- What `kalloc` returned for page `v`: a frame that is now the page's, or null. -/
def NewPage (S : Scope) (m : Machine) (np v : ℕ) : Prop :=
  (np = 0 ∧ S.null) ∨ ∃ f, np = kernBase + 4096 * f ∧ m.owner f = some (m.proc.pgdir, v)

/-- The entry of page `v`, if there is one, is marked paged out. -/
def MarkedOut (m : Machine) (v : ℕ) : Prop :=
  ∀ pte, m.walkpgdir m.proc.pgdir (4096 * v) = some pte → flagOn pte ptePG = true

theorem kallocPage_changes (hrun : m.kallocPage (4096 * v) = (np, m'))
    (hnull : m.freelist = [] → S.null) :
    Changes S n m m' ∧ NewPage S m' np v ∧ m'.proc = m.proc ∧ m'.dirs = m.dirs := by
  have hv : 4096 * v / 4096 = v := by omega
  unfold kallocPage kalloc at hrun
  cases hf : m.freelist with
  | nil =>
    rw [hf] at hrun
    cases hrun
    exact ⟨.refl, Or.inl ⟨rfl, hnull hf⟩, rfl, rfl⟩
  | cons f rest =>
    rw [hf, hv] at hrun
    cases hrun
    exact ⟨.single (.take _ v hf), Or.inr ⟨f, rfl, by simp [setOwner]⟩, rfl, rfl⟩

theorem pageIn_changes (hrun : m.pageIn (4096 * v) (v2p np) m.proc.pgdir = .ok m')
    (hv : v < 0x100000) (hnp : NewPage S m np v) (hpg : MarkedOut m v) : Changes S n m m' := by
  unfold pageIn at hrun
  split at hrun
  · cases hrun
  · rename_i pte hwalk
    cases hrun
    rcases hnp with ⟨rfl, hnull⟩ | ⟨f, rfl, howner⟩
    · exact .head (.fetchNull hnull hv hwalk (hpg pte hwalk)) (.single (.proc .pageIn))
    · rw [v2p_page]
      exact .head (.fetch hv howner hwalk (hpg pte hwalk)) (.single (.proc .pageIn))

theorem NewPage.congr (h : NewPage S m np v) (ho : m'.owner = m.owner)
    (hd : m'.proc.pgdir = m.proc.pgdir) : NewPage S m' np v := by
  rw [NewPage, ho, hd]
  exact h

theorem MarkedOut.softens (h : MarkedOut m v) (hs : Softens m m')
    (hd : m'.proc.pgdir = m.proc.pgdir) : MarkedOut m' v := by
  intro pte' hwalk'
  obtain ⟨pte, hwalk, hsoft⟩ := hs.walk _ _ _ hwalk'
  rw [flagOn_ptePG_congr hsoft]
  exact h pte (by rw [← hd]; exact hwalk)

theorem fillEntry_changes {idx : Fin 16}
    (hrun : m.fillEntry np (4096 * v) idx = .ok (r, m')) (ht : Tracks S m.proc)
    (hv : v < 0x100000) (hnp : NewPage S m np v) (hpg : MarkedOut m v) : Changes S 1 m m' := by
  obtain ⟨m₁, hin, hrun⟩ := Run.bind_ok hrun
  obtain ⟨⟨r', m₂⟩, hread, hrun⟩ := Run.bind_ok hrun
  cases hrun
  have hc : Changes S 0 m m₁ := pageIn_changes hin hv hnp hpg
  exact hc.trans (readPageFromDisk_changes hread (hc.tracks ht)).1 le_rfl

theorem exchange_changes (hrun : m.exchange S.sel np (4096 * v) = .ok (r, m')) (ht : Tracks S m.proc)
    (hv : v < 0x100000) (hnp : NewPage S m np v) (hpg : MarkedOut m v) : Changes S 18 m m' := by
  obtain ⟨⟨i, m₁⟩, hpol, hrun⟩ := Run.bind_ok hrun
  obtain ⟨m₂, hin, hrun⟩ := Run.bind_ok hrun
  obtain ⟨⟨r', m₃⟩, hread, hrun⟩ := Run.bind_ok hrun
  obtain ⟨hc, hs⟩ := replacePageByPolicy_changes hpol
  have hc₁ : Changes S 17 m m₁ := (countOut_changes (n := 0) m).trans hc le_rfl
  have hdir : m₁.proc.pgdir = m.proc.pgdir := hc₁.id.2.2.1
  have hc₂ : Changes S 17 m m₂ := hc₁.trans (k := 0) (pageIn_changes hin hv
    (hnp.congr hs.owner hdir) (hpg.softens ⟨hs.freelist, hs.owner, hs.walk⟩ hdir)) le_rfl
  have hc₃ : Changes S 18 m m₃ :=
    hc₂.trans (readPageFromDisk_changes hread (hc₂.tracks ht)).1 le_rfl
  have hE := (hc₁.tracks ht i).1
  dsimp only at hrun
  split at hrun
  · cases hrun
    exact hc₃
  · rename_i pte hwalk
    obtain ⟨m₄, hstore, hrun⟩ := Run.bind_ok hrun
    obtain ⟨⟨r'', m₅⟩, hwrite, hrun⟩ := Run.bind_ok hrun
    obtain ⟨m₆, hout, hrun⟩ := Run.bind_ok hrun
    obtain ⟨m₇, hfree, hrun⟩ := Run.bind_ok hrun
    cases hrun
    have hdata := storePage_data hstore
    obtain ⟨hc₅, hdirs, -⟩ := write2file_changes (n := 0) hwrite hE
    obtain ⟨pte', hwalk', rfl⟩ := pageOut_ok hout
    have hwalk₅ : m₅.walkpgdir (m₁.proc.ramMonitor i).pgdir (m₁.proc.ramMonitor i).pVa =
        some pte := by
      rw [walkpgdir, hdirs, (Change.data_proc hdata).2.2.2.1]
      exact hwalk
    obtain rfl : pte = pte' := Option.some.inj (hwalk₅.symm.trans hwalk')
    obtain ⟨rfl, hvalid⟩ := kfree_ok hfree
    refine hc₃.trans (k := 0) (.head (.data hdata) (hc₅.trans (k := 0) ?_ le_rfl)) le_rfl
    exact .head (.evict hE hwalk₅ hvalid) (.single (.proc .pageOut))

theorem pageFromDisk_counted (hrun : m.pageFromDisk S.sel va = .ok (r, m'))
    (ht : Tracks S m.proc) (hva : va < 0x100000000) (hnull : m.freelist = [] → S.null)
    (hpg : MarkedOut m (va / 4096)) : Changes S 18 (countFault m) m' := by
  have hround : pgRoundDown va = 4096 * (va / 4096) := by
    simp only [pgRoundDown]
    omega
  unfold pageFromDisk at hrun
  rw [hround] at hrun
  dsimp only at hrun
  generalize hnew : kallocPage _ _ = x at hrun
  obtain ⟨np, m₀⟩ := x
  obtain ⟨hc, hnp, hproc, hdirs⟩ := kallocPage_changes (n := 0) hnew hnull
  obtain ⟨m₁, hstore, hrun⟩ := Run.bind_ok hrun
  have hdata := storePage_data hstore
  obtain ⟨-, -, howner₁, hdirs₁, hproc₁⟩ := Change.data_proc hdata
  have hc₁ : Changes S 0 (countFault m) m₁ := hc.tail (.data hdata)
  have hnp₁ := hnp.congr howner₁ (by rw [hproc₁])
  have hpg₁ : MarkedOut m₁ (va / 4096) := by
    intro pte hwalk
    refine hpg pte ?_
    rw [← hwalk, hc₁.id.2.2.1, walkpgdir, walkpgdir, hdirs₁, hdirs]
    rfl
  have hv : va / 4096 < 0x100000 := by omega
  split at hrun
  · exact hc₁.trans (fillEntry_changes hrun (hc₁.tracks ht) hv hnp₁ hpg₁) (by omega)
  · exact hc₁.trans (exchange_changes hrun (hc₁.tracks ht) hv hnp₁ hpg₁) le_rfl

theorem pageFromDisk_changes (hrun : m.pageFromDisk S.sel va = .ok (r, m'))
    (ht : Tracks S m.proc) (hva : va < 0x100000000) (hnull : m.freelist = [] → S.null)
    (hpg : MarkedOut m (va / 4096)) : Changes S 18 m m' :=
  (countFault_changes (n := 0) m).trans (pageFromDisk_counted hrun ht hva hnull hpg) le_rfl

theorem isFlagOn_ok {flag : Pte} {b : Bool} (hrun : m.isFlagOn va flag = .ok b) :
    ∃ pte, m.walkpgdir m.proc.pgdir va = some pte ∧ flagOn pte flag = b := by
  unfold isFlagOn at hrun
  split at hrun
  · cases hrun
  · rename_i pte hwalk
    cases hrun
    exact ⟨pte, hwalk, rfl⟩

theorem trapDefault_changes {user : Bool} (hrun : m.trapDefault va user = .ok m') :
    Changes S n m m' := by
  obtain ⟨b, -, hrun⟩ := Run.bind_ok hrun
  cases user with
  | false => cases hrun
  | true =>
    cases hrun
    exact Changes.setProc m rfl rfl rfl rfl rfl rfl rfl le_rfl le_rfl

/-- A page fault brings in the page at the address, if it is marked paged out. -/
theorem trap_changes {user : Bool} (hrun : m.trap S.sel va user = .ok m')
    (ht : Tracks S m.proc) (hva : va < 0x100000000) (hnull : m.freelist = [] → S.null) :
    Changes S 18 m m' := by
  unfold trap at hrun
  split at hrun
  · obtain ⟨b, hflag, hrun⟩ := Run.bind_ok hrun
    obtain ⟨pte, hwalk, hb⟩ := isFlagOn_ok hflag
    cases b with
    | false => exact trapDefault_changes hrun
    | true =>
      obtain ⟨⟨r, m₁⟩, hdisk, hrun⟩ := Run.bind_ok hrun
      have hpg : MarkedOut m (va / 4096) := by
        intro pte' hwalk'
        rw [walkpgdir, ← walk_page] at hwalk'
        obtain rfl : pte = pte' := Option.some.inj (hwalk.symm.trans hwalk')
        exact hb
      have hc := pageFromDisk_changes hdisk ht hva hnull hpg
      dsimp only at hrun
      split at hrun
      · cases hrun
        exact hc
      · exact hc.trans (k := 0) (trapDefault_changes hrun) le_rfl
  · exact trapDefault_changes hrun

/-! ### User accesses -/

theorem touch_changes (m : Machine) (va : ℕ) (write : Bool) : Changes S n m (m.touch va write) := by
  unfold touch
  split
  · exact .refl
  · rename_i pte hwalk
    exact .single (.soft hwalk (softBits_touch pte write))

theorem access_changes {write : Bool} {r : Option ℕ}
    (hrun : m.access S.sel va write = .ok (r, m')) (ht : Tracks S m.proc)
    (hva : va < 0x100000000) (hnull : m.freelist = [] → S.null) : Changes S 18 m m' := by
  unfold access at hrun
  split at hrun
  · cases hrun
    exact touch_changes m va write
  · obtain ⟨m₁, htrap, hrun⟩ := Run.bind_ok hrun
    have hc := trap_changes htrap ht hva hnull
    split at hrun
    · cases hrun
      exact hc
    · split at hrun
      · cases hrun
        exact hc.trans (k := 0) (touch_changes m₁ va write) le_rfl
      · cases hrun

/-! ### Growing and shrinking -/

theorem deallocuvm_changes {r : ℕ}
    (hrun : m.deallocuvm S.sel d oldsz newsz = .ok (r, m')) (hold : oldsz ≤ kernBase)
    (hM : ∀ v, pagesOf newsz ≤ v → S.map d v) : Changes S n m m' := by
  unfold deallocuvm at hrun
  split at hrun
  · cases hrun
    exact .refl
  obtain ⟨m₁, hloop, hrun⟩ := Run.bind_ok hrun
  cases hrun
  rw [pgRoundUp_eq (by omega)] at hloop
  have hloop' := deallocLoop_induct (motive := fun a m =>
      a % 4096 = 0 → (∀ v, a ≤ 4096 * v → S.map d v) → Changes S n m m') hloop (fun _ _ _ _ => .refl)
    (fun a m hlt _ ih ha hM => ih (by omega) fun w hw => hM w ?_)
    (fun a m pte _ _ _ ih ha hM => ih (by omega) fun w hw => hM w (by omega))
    (fun a m pte hlt hwalk hp _ hvalid ih ha hM => ?_)
  · exact hloop' (by omega) fun v hv => hM v (by omega)
  · simp only [pdx, kernBase] at *
    omega
  · obtain ⟨v, rfl⟩ : ∃ v, a = 4096 * v := ⟨a / 4096, by omega⟩
    have hvu : v < userPages := by
      simp only [userPages, kernBase] at *
      omega
    have hc := ih (by omega) fun w hw => hM w (by omega)
    refine .head (.drop hvu (hM v le_rfl) hwalk hp hvalid) ?_
    rw [dropAt_eq] at hc
    split_ifs at hc
    · exact hc
    · exact .head (.proc (.untrack d (4096 * v))) hc

theorem walkpgdirAlloc_changes (hrun : m.walkpgdirAlloc d (4096 * v) = some m') :
    Changes S n m m' ∧ m'.proc = m.proc ∧ m'.owner = m.owner := by
  obtain ⟨-, rfl⟩ | ⟨hnone, f, rest, hf, rfl⟩ := walkpgdirAlloc_cases hrun
  · exact ⟨.refl, rfl, rfl⟩
  · exact ⟨.single (.table hf (by simp [HasTable, hnone])), rfl, rfl⟩

theorem mappages_changes {perm : Pte} {ok : Bool}
    (hrun : m.mappages d (4096 * v) 4096 f perm = .ok (ok, m'))
    (hperm : perm.toNat < 4096 ∧ flagOn perm ptePG = false)
    (hmark : flagOn perm pte1 = false ∨ ∀ v, S.map d v) (hv : v < userPages) (hM : S.map d v)
    (howner : m.owner f = some (d, v)) : Changes S n m m' ∧ m'.proc = m.proc := by
  rw [mappages_page_eq (lt_trans hv (by decide)), mapLoop] at hrun
  split at hrun
  · cases hrun
    exact ⟨.refl, rfl⟩
  · rename_i m₁ halloc
    obtain ⟨hc, hproc, howner₁⟩ := walkpgdirAlloc_changes (S := S) (n := n) halloc
    split at hrun
    · cases hrun
    · rename_i pte hwalk
      split at hrun
      · cases hrun
      · rename_i hp
        cases hrun
        refine ⟨hc.tail (.map hperm hmark hv hM (howner₁ ▸ howner) hwalk ?_), ?_⟩
        · exact Bool.eq_false_of_not_eq_true hp
        · exact hproc

theorem trackPage_changes (hrun : m.trackPage S.sel d a count = .ok m')
    (ht : Tracks S m.proc) (ha : S.evict a) : Changes S 18 m m' := by
  unfold trackPage at hrun
  split at hrun
  · split at hrun
    · cases hrun
      exact (Changes.add2ram m d ha).mono (by omega)
    · exact swap_changes hrun ht ha
  · cases hrun
    exact .refl

theorem allocLoop_changes {i r : ℕ}
    (hrun : allocLoop S.sel d oldsz newsz count i m = .ok (r, m')) (ht : Tracks S m.proc)
    (hnew : newsz ≤ kernBase) (hold : oldsz ≤ kernBase)
    (hend : 0 < count → pagesOf oldsz + i + count ≤ userPages)
    (hE : ∀ v < userPages, S.evict (4096 * v)) (hM : ∀ v, pagesOf oldsz ≤ v → S.map d v) :
    Changes S (18 * count) m m' := by
  induction count generalizing i m with
  | zero =>
    cases hrun
    exact .refl
  | succ count ih =>
    have hlt : pagesOf oldsz + i < userPages := by
      have := hend (Nat.succ_pos count)
      omega
    have ha : pgRoundUp oldsz + 4096 * i = 4096 * (pagesOf oldsz + i) := by
      rw [pgRoundUp_eq hold]
      omega
    have hdiv : 4096 * (pagesOf oldsz + i) / 4096 = pagesOf oldsz + i := by omega
    unfold allocLoop at hrun
    simp only [ha, hdiv] at hrun
    split at hrun
    · obtain ⟨⟨r', m₁⟩, hdealloc, hrun⟩ := Run.bind_ok hrun
      cases hrun
      exact deallocuvm_changes hdealloc hnew hM
    · rename_i f m₀ hkalloc
      obtain ⟨rest, hf, rfl⟩ := kalloc_ok hkalloc
      obtain ⟨⟨ok, m₁⟩, hmap, hrun⟩ := Run.bind_ok hrun
      obtain ⟨m₂, htrack, hrun⟩ := Run.bind_ok hrun
      have hc₀ : Changes S 0 m
          ((({ m with freelist := rest }.setOwner f d (pagesOf oldsz + i)).setFrame f fun _ => 0)) :=
        .head (.take d _ hf) (Changes.setFrame _ _ _)
      have hc₁ : Changes S 0 m m₁ := hc₀.trans (k := 0) (mappages_changes hmap (by decide)
        (Or.inl (by decide)) hlt (hM _ (by omega)) (by simp [setOwner, setFrame])).1 le_rfl
      have hc₂ : Changes S 18 m m₂ :=
        hc₁.trans (trackPage_changes htrack (hc₁.tracks ht) (hE _ hlt)) le_rfl
      refine hc₂.trans (ih hrun (hc₂.tracks ht) fun _ => ?_) (by omega)
      have := hend (Nat.succ_pos count)
      omega

theorem allocLoop_size {sz : ℕ} (hsz : sz ≠ 0) {i : ℕ}
    (hrun : allocLoop sel d oldsz newsz count i m = .ok (sz, m')) : sz = newsz := by
  induction count generalizing i m with
  | zero =>
    cases hrun
    rfl
  | succ count ih =>
    unfold allocLoop at hrun
    dsimp only at hrun
    split at hrun
    · obtain ⟨r, -, hrun⟩ := Run.bind_ok hrun
      cases hrun
      exact absurd rfl hsz
    · obtain ⟨r, -, hrun⟩ := Run.bind_ok hrun
      obtain ⟨m₃, -, hrun⟩ := Run.bind_ok hrun
      exact ih hrun

theorem allocuvm_mono {sz : ℕ} (hsz : sz ≠ 0)
    (hrun : m.allocuvm sel d oldsz newsz = .ok (sz, m')) :
    oldsz ≤ sz ∧ (oldsz < kernBase → sz < kernBase) ∧ (oldsz ≤ newsz → sz = newsz) := by
  unfold allocuvm at hrun
  split at hrun
  · cases hrun
    exact absurd rfl hsz
  · split at hrun
    · cases hrun
      exact ⟨le_rfl, id, fun hc => by omega⟩
    · obtain rfl := allocLoop_size hsz hrun
      exact ⟨by omega, fun _ => by omega, fun _ => rfl⟩

theorem allocuvm_changes {r : ℕ}
    (hrun : m.allocuvm S.sel d oldsz newsz = .ok (r, m')) (ht : Tracks S m.proc)
    (hE : ∀ v < userPages, S.evict (4096 * v)) (hM : ∀ v, pagesOf oldsz ≤ v → S.map d v) :
    Changes S (18 * (pagesOf newsz - pagesOf oldsz)) m m' := by
  unfold allocuvm at hrun
  split at hrun
  · cases hrun
    exact .refl
  · split at hrun
    · cases hrun
      exact .refl
    · have hcount : (newsz - pgRoundUp oldsz + 4095) / 4096 = pagesOf newsz - pagesOf oldsz := by
        rw [pgRoundUp_eq (by omega)]
        simp only [pagesOf]
        omega
      rw [hcount] at hrun
      refine allocLoop_changes hrun ht (by omega) (by omega) (fun hpos => ?_) hE hM
      simp only [pagesOf, kernBase, userPages] at *
      omega

end

end Xv6
