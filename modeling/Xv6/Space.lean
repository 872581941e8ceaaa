import Xv6.Frames
import Xv6.Paging

/-!
# The paging invariant

`Paged m n X` says that the metadata of the running process agrees with its page table: of the first
`n` pages, those that are present are tracked by `ram_monitor` (except the pages of `X`, which are in
transit between a frame and an entry), those that are paged out are tracked by `swap_monitor`, and
nothing else is mapped.  `Space m n X flat` adds that every page holds the bytes of the flat memory
`flat`, in its frame or in its slot.  Both read only part of the state, and entries only up to
accessed and dirty bits (`Paged.congr`, `Space.congr`).
-/

namespace Xv6

/-- What a process should see at a page: nothing, the guard page below the stack, or its bytes. -/
inductive FlatPage where
  | absent
  | guard
  | data (bytes : Page)

/-- The flat memory a process should see, by page number. -/
abbrev Flat := ℕ → FlatPage

/-- The page in slot `i` of a swap file. -/
def slotPage (file : File) (i : ℕ) : Page := fun k => file.byte (4096 * i + k.val)

namespace Machine

/-- The entry of page `v` of the running process. -/
def pte (m : Machine) (v : ℕ) : Pte := entry m.dirs m.proc.pgdir v

/-- Page `v` of the running process is in memory. -/
def Present (m : Machine) (v : ℕ) : Prop := flagOn (m.pte v) pteP = true

/-- Page `v` of the running process is in the swap file. -/
def PagedOut (m : Machine) (v : ℕ) : Prop :=
  flagOn (m.pte v) pteP = false ∧ flagOn (m.pte v) ptePG = true

/-- Page `v` of the running process is neither. -/
def Absent (m : Machine) (v : ℕ) : Prop :=
  flagOn (m.pte v) pteP = false ∧ flagOn (m.pte v) ptePG = false

instance (m : Machine) (v : ℕ) : Decidable (m.Present v) := inferInstanceAs (Decidable (_ = _))

instance (m : Machine) (v : ℕ) : Decidable (m.PagedOut v) := inferInstanceAs (Decidable (_ ∧ _))

instance (m : Machine) (v : ℕ) : Decidable (m.Absent v) := inferInstanceAs (Decidable (_ ∧ _))

/-- The addresses of the resident pages below `n`, less those in transit. -/
def ramPages (m : Machine) (n : ℕ) (X : Set ℕ) : Set ℕ :=
  {a | ∃ v < n, a = 4096 * v ∧ m.Present v ∧ v ∉ X}

/-- The addresses of the paged-out pages below `n`. -/
def swapPages (m : Machine) (n : ℕ) : Set ℕ := {a | ∃ v < n, a = 4096 * v ∧ m.PagedOut v}

/-- The bytes of page `v`, in its frame or in its slot. -/
def Holds (m : Machine) (v : ℕ) (page : Page) : Prop :=
  (m.Present v ∧ m.data (frameOf (m.pte v)) = page) ∨
  (m.PagedOut v ∧ ∃ i, (m.proc.swapMonitor i).used ∧ (m.proc.swapMonitor i).pVa = 4096 * v ∧
    slotPage m.proc.swapFile i = page)

/-- Page `v` is what the flat memory says. -/
def PageOk (m : Machine) (v : ℕ) : FlatPage → Prop
  | .absent => m.Absent v
  | .guard => ¬ m.Absent v
  | .data bytes => m.Holds v bytes ∧ flagOn (m.pte v) pteW ∧ flagOn (m.pte v) pteU

end Machine

open Machine

/-- The parts of the state that belong to the running process agree, entries up to accessed and
dirty bits. -/
structure SameView (m m' : Machine) : Prop where
  frames : FramesOk m → FramesOk m'
  pgdir : m'.proc.pgdir = m.proc.pgdir
  table : ∀ v < 0x100000, HasTable m'.dirs m.proc.pgdir v ↔ HasTable m.dirs m.proc.pgdir v
  soft : ∀ v < 0x100000,
    softBits (entry m'.dirs m.proc.pgdir v) = softBits (entry m.dirs m.proc.pgdir v)
  data : ∀ v < userPages, m.Present v →
    m'.data (frameOf (m.pte v)) = m.data (frameOf (m.pte v))
  file : m'.proc.swapFile = m.proc.swapFile
  ram : ramTable m'.proc = ramTable m.proc
  ramDir : ∀ i, (m'.proc.ramMonitor i).pgdir = (m.proc.ramMonitor i).pgdir
  swap : swapTable m'.proc = swapTable m.proc
  swapDir : ∀ i, (m'.proc.swapMonitor i).pgdir = (m.proc.swapMonitor i).pgdir

/-- The metadata of the running process agrees with its page table. -/
structure Paged (m : Machine) (n : ℕ) (X : Set ℕ) : Prop where
  frames : FramesOk m
  size : n ≤ maxTotalPages
  table : HasTable m.dirs m.proc.pgdir 0
  ram : (ramTable m.proc).Indexes (m.ramPages n X)
  ramDir : ∀ i, (m.proc.ramMonitor i).used → (m.proc.ramMonitor i).pgdir = m.proc.pgdir
  swap : (swapTable m.proc).Indexes (m.swapPages n)
  swapDir : ∀ i, (m.proc.swapMonitor i).used → (m.proc.swapMonitor i).pgdir = m.proc.pgdir
  stale : (swapTable m.proc).StaleAbove
  cover : ∀ i : Fin 16, (m.proc.swapMonitor i).used → 4096 * (i.val + 1) ≤ m.proc.swapFile.size
  exclusive : ∀ v < userPages, m.Present v → flagOn (m.pte v) ptePG = false
  above : ∀ v, n ≤ v → v < userPages → m.Absent v
  kernel : ∀ v, userPages ≤ v → v < 0x100000 →
    flagOn (m.pte v) pteU = false ∧ flagOn (m.pte v) ptePG = false

/-- The running process sees the flat memory `flat`. -/
structure Space (m : Machine) (n : ℕ) (X : Set ℕ) (flat : Flat) : Prop extends Paged m n X where
  page : ∀ v < userPages, m.PageOk v (flat v)

/-! ### The view of a process -/

namespace SameView

variable {m m' m'' : Machine}

theorem of_dirs (hk : m'.kend = m.kend) (hf : m'.freelist = m.freelist) (ho : m'.owner = m.owner)
    (hd : AgreeSoft m.dirs m'.dirs) (hdata : m'.data = m.data)
    (hpgdir : m'.proc.pgdir = m.proc.pgdir) (hfile : m'.proc.swapFile = m.proc.swapFile)
    (hram : ramTable m'.proc = ramTable m.proc)
    (hramDir : ∀ i, (m'.proc.ramMonitor i).pgdir = (m.proc.ramMonitor i).pgdir)
    (hswap : swapTable m'.proc = swapTable m.proc)
    (hswapDir : ∀ i, (m'.proc.swapMonitor i).pgdir = (m.proc.swapMonitor i).pgdir) :
    SameView m m' where
  frames h := h.soft hk hf ho hd
  pgdir := hpgdir
  table v hv := (hd _ v hv).1
  soft v hv := (hd _ v hv).2
  data _ _ _ := by rw [hdata]
  file := hfile
  ram := hram
  ramDir := hramDir
  swap := hswap
  swapDir := hswapDir

theorem refl (m : Machine) : SameView m m :=
  of_dirs rfl rfl rfl (AgreeSoft.refl _) rfl rfl rfl rfl (fun _ => rfl) rfl (fun _ => rfl)

section

variable (h : SameView m m')

include h

theorem pteSoft {v : ℕ} (hv : v < 0x100000) : softBits (m'.pte v) = softBits (m.pte v) := by
  rw [Machine.pte, Machine.pte, h.pgdir]
  exact h.soft v hv

theorem ramUsed (i : Fin 16) : (m'.proc.ramMonitor i).used = (m.proc.ramMonitor i).used :=
  congrFun (congrArg SlotTable.used h.ram) i

theorem ramVa (i : Fin 16) : (m'.proc.ramMonitor i).pVa = (m.proc.ramMonitor i).pVa :=
  congrFun (congrArg SlotTable.key h.ram) i

theorem swapUsed (i : Fin 16) : (m'.proc.swapMonitor i).used = (m.proc.swapMonitor i).used :=
  congrFun (congrArg SlotTable.used h.swap) i

theorem swapVa (i : Fin 16) : (m'.proc.swapMonitor i).pVa = (m.proc.swapMonitor i).pVa :=
  congrFun (congrArg SlotTable.key h.swap) i

theorem present_iff {v : ℕ} (hv : v < 0x100000) : m'.Present v ↔ m.Present v := by
  rw [Machine.Present, Machine.Present, flagOn_pteP_congr (h.pteSoft hv)]

theorem pagedOut_iff {v : ℕ} (hv : v < 0x100000) : m'.PagedOut v ↔ m.PagedOut v := by
  rw [Machine.PagedOut, Machine.PagedOut, flagOn_pteP_congr (h.pteSoft hv),
    flagOn_ptePG_congr (h.pteSoft hv)]

theorem absent_iff {v : ℕ} (hv : v < 0x100000) : m'.Absent v ↔ m.Absent v := by
  rw [Machine.Absent, Machine.Absent, flagOn_pteP_congr (h.pteSoft hv),
    flagOn_ptePG_congr (h.pteSoft hv)]

theorem trans (h' : SameView m' m'') : SameView m m'' where
  frames hf := h'.frames (h.frames hf)
  pgdir := h'.pgdir.trans h.pgdir
  table v hv := (h.pgdir ▸ h'.table v hv).trans (h.table v hv)
  soft v hv := (h.pgdir ▸ h'.soft v hv).trans (h.soft v hv)
  data v hv hp := by
    have hlt : v < 0x100000 := lt_trans hv (by decide)
    have h2 := h'.data v hv ((h.present_iff hlt).2 hp)
    rw [frameOf_congr (h.pteSoft hlt)] at h2
    rw [h2, h.data v hv hp]
  file := h'.file.trans h.file
  ram := h'.ram.trans h.ram
  ramDir i := (h'.ramDir i).trans (h.ramDir i)
  swap := h'.swap.trans h.swap
  swapDir i := (h'.swapDir i).trans (h.swapDir i)

theorem holds {v : ℕ} (hv : v < userPages) {page : Page} (hh : m.Holds v page) : m'.Holds v page := by
  have hlt : v < 0x100000 := lt_trans hv (by decide)
  rcases hh with ⟨hp, hd⟩ | ⟨ho, i, hu, ha, hs⟩
  · refine Or.inl ⟨(h.present_iff hlt).2 hp, ?_⟩
    rw [frameOf_congr (h.pteSoft hlt), h.data v hv hp, hd]
  · refine Or.inr ⟨(h.pagedOut_iff hlt).2 ho, i, ?_, ?_, ?_⟩
    · rw [h.swapUsed, hu]
    · rw [h.swapVa, ha]
    · rw [h.file, hs]

theorem pageOk {v : ℕ} (hv : v < userPages) {x : FlatPage} (hx : m.PageOk v x) : m'.PageOk v x := by
  have hlt : v < 0x100000 := lt_trans hv (by decide)
  cases x with
  | absent => exact (h.absent_iff hlt).2 hx
  | guard => exact fun ha => hx ((h.absent_iff hlt).1 ha)
  | data bytes =>
    refine ⟨h.holds hv hx.1, ?_⟩
    rw [flagOn_pteW_congr (h.pteSoft hlt), flagOn_pteU_congr (h.pteSoft hlt)]
    exact hx.2

end

end SameView

namespace Paged

variable {m m' : Machine} {n : ℕ} {X : Set ℕ}

theorem lt_userPages (h : Paged m n X) {v : ℕ} (hv : v < n) : v < userPages := by
  have := h.size
  simp only [maxTotalPages, userPages] at *
  omega

theorem lt_pages (h : Paged m n X) {v : ℕ} (hv : v < n) : v < 0x100000 :=
  lt_trans (h.lt_userPages hv) (by decide)

theorem hasTable (h : Paged m n X) {v : ℕ} (hv : v < maxTotalPages) :
    HasTable m.dirs m.proc.pgdir v :=
  h.table.low (lt_trans hv (by decide))

theorem congr (h : Paged m n X) (hs : SameView m m') : Paged m' n X where
  frames := hs.frames h.frames
  size := h.size
  table := by
    rw [hs.pgdir]
    exact (hs.table 0 (by decide)).2 h.table
  ram := by
    have hset : m'.ramPages n X = m.ramPages n X := by
      ext a
      constructor
      · rintro ⟨v, hv, rfl, hp, hx⟩
        exact ⟨v, hv, rfl, (hs.present_iff (h.lt_pages hv)).1 hp, hx⟩
      · rintro ⟨v, hv, rfl, hp, hx⟩
        exact ⟨v, hv, rfl, (hs.present_iff (h.lt_pages hv)).2 hp, hx⟩
    rw [hs.ram, hset]
    exact h.ram
  ramDir i hi := by
    rw [hs.ramDir, hs.pgdir]
    exact h.ramDir i (hs.ramUsed i ▸ hi)
  swap := by
    have hset : m'.swapPages n = m.swapPages n := by
      ext a
      constructor
      · rintro ⟨v, hv, rfl, hp⟩
        exact ⟨v, hv, rfl, (hs.pagedOut_iff (h.lt_pages hv)).1 hp⟩
      · rintro ⟨v, hv, rfl, hp⟩
        exact ⟨v, hv, rfl, (hs.pagedOut_iff (h.lt_pages hv)).2 hp⟩
    rw [hs.swap, hset]
    exact h.swap
  swapDir i hi := by
    rw [hs.swapDir, hs.pgdir]
    exact h.swapDir i (hs.swapUsed i ▸ hi)
  stale := by rw [hs.swap]; exact h.stale
  cover i hi := by
    rw [hs.file]
    exact h.cover i (hs.swapUsed i ▸ hi)
  exclusive v hv hp := by
    have hlt : v < 0x100000 := lt_trans hv (by decide)
    rw [flagOn_ptePG_congr (hs.pteSoft hlt)]
    exact h.exclusive v hv ((hs.present_iff hlt).1 hp)
  above v hn hv := (hs.absent_iff (lt_trans hv (by decide))).2 (h.above v hn hv)
  kernel v hv hlt := by
    rw [flagOn_pteU_congr (hs.pteSoft hlt), flagOn_ptePG_congr (hs.pteSoft hlt)]
    exact h.kernel v hv hlt

end Paged

theorem Space.congr {m m' : Machine} {n : ℕ} {X : Set ℕ} {flat : Flat} (h : Space m n X flat)
    (hs : SameView m m') : Space m' n X flat :=
  ⟨h.toPaged.congr hs, fun v hv => hs.pageOk hv (h.page v hv)⟩

end Xv6
