import Mathlib.Logic.Function.Basic
import Xv6.Mmu
import Xv6.File

/-!
# The kernel state that paging works on

Physical memory is a map from frame numbers to page contents together with the free list of
`kalloc.c`; page directories are kept in their two-level shape, each named by the frame that holds
it.  `proc` is the running process (`myproc()`), with its two monitors and its swap file.

`owner` records, for every frame, the page directory and the page it was last allocated for by
`allocuvm`, `copyuvm`, `inituvm` or `page_from_disk`; no function of the kernel reads it.
-/

namespace Xv6

abbrev Page := Fin 4096 → Byte

/-- A page-table page: the frame it occupies and its 1024 entries. -/
structure PageTable where
  frame : ℕ
  pte : ℕ → Pte

/-- A page directory, by `PDX`: an entry is a page table or not present. -/
abbrev PgDir := ℕ → Option PageTable

/-- `struct p_monitor`. -/
structure PMonitor where
  used : Bool
  pgdir : ℕ
  pVa : ℕ
  placeInQueue : Int
deriving DecidableEq, Repr

/-- The part of `struct proc` that paging, `fork` and `exec` use. -/
structure Proc where
  sz : ℕ
  pgdir : ℕ
  pid : ℕ
  killed : Bool
  swapFile : File
  ramMonitor : Fin 16 → PMonitor
  swapMonitor : Fin 16 → PMonitor
  pagesInFile : Int
  lastInQueue : Int
  protectedPages : Int
  pageFaultCounter : Int

structure Machine where
  /-- First frame after the loaded kernel. -/
  kend : ℕ
  /-- Frame at which the kernel's data segment starts. -/
  kdata : ℕ
  freelist : List ℕ
  data : ℕ → Page
  dirs : ℕ → PgDir
  owner : ℕ → Option (ℕ × ℕ)
  /-- The static bounce buffer of `page_from_disk`. -/
  buff : Page
  proc : Proc

/-- The entry for `va` in directory `pgdir`, `none` when it has no page table. -/
def walk (dirs : ℕ → PgDir) (pgdir va : ℕ) : Option Pte :=
  (dirs pgdir (pdx va)).map fun t => t.pte (ptx va)

/-- The entry for `va` replaced, where there is a page table for it. -/
def store (dirs : ℕ → PgDir) (pgdir va : ℕ) (pte : Pte) : ℕ → PgDir :=
  match dirs pgdir (pdx va) with
  | none => dirs
  | some t => Function.update dirs pgdir
      (Function.update (dirs pgdir) (pdx va) (some { t with pte := Function.update t.pte (ptx va) pte }))

/-- An all-zero page table in frame `f` added for `va`. -/
def addTable (dirs : ℕ → PgDir) (pgdir va f : ℕ) : ℕ → PgDir :=
  Function.update dirs pgdir (Function.update (dirs pgdir) (pdx va) (some ⟨f, fun _ => 0⟩))

/-- How a kernel function fails to return. -/
inductive Halt where
  | panic (msg : String)
  /-- A null page-table pointer is dereferenced, or a monitor is indexed at -1. -/
  | wild
  /-- A loop makes no progress. -/
  | livelock
deriving DecidableEq, Repr

/-- The page replacement scheme the kernel was built with (`SELECTION`). -/
inductive Selection where
  | LIFO
  | SCFIFO
  | NONE
deriving DecidableEq, Repr

namespace Machine

def kalloc (m : Machine) : Option (ℕ × Machine) :=
  match m.freelist with
  | [] => none
  | f :: rest => some (f, { m with freelist := rest })

/-- `kfree`: the frame is filled with junk and put back on the free list. -/
def kfree (m : Machine) (f : ℕ) : Except Halt Machine :=
  if f < m.kend ∨ phystopFrame ≤ f then .error (.panic "kfree")
  else .ok { m with
    freelist := f :: m.freelist
    data := Function.update m.data f fun _ => 1
    owner := Function.update m.owner f none }

def setOwner (m : Machine) (f pgdir v : ℕ) : Machine :=
  { m with owner := Function.update m.owner f (some (pgdir, v)) }

/-- The whole page in frame `f` replaced. -/
def setFrame (m : Machine) (f : ℕ) (page : Page) : Machine :=
  { m with data := Function.update m.data f page }

/-- `walkpgdir` without allocation: the entry for `va`, `none` when it has no page table. -/
def walkpgdir (m : Machine) (pgdir va : ℕ) : Option Pte := walk m.dirs pgdir va

/-- A store through the pointer `walkpgdir` returned. -/
def setPte (m : Machine) (pgdir va : ℕ) (pte : Pte) : Machine :=
  { m with dirs := store m.dirs pgdir va pte }

/-- `walkpgdir` with allocation: the memory after a missing page table was added, `none` when there
is no frame for it. -/
def walkpgdirAlloc (m : Machine) (pgdir va : ℕ) : Option Machine :=
  match m.dirs pgdir (pdx va) with
  | some _ => some m
  | none => m.kalloc.map fun r => { r.2 with dirs := addTable m.dirs pgdir va r.1 }

/-- The loop of `mappages` over `count` pages; `false` is the result -1. -/
def mapLoop (pgdir : ℕ) (perm : Pte) : ℕ → ℕ → ℕ → Machine → Except Halt (Bool × Machine)
  | 0, _, _, m => .ok (true, m)
  | count + 1, a, f, m =>
    match m.walkpgdirAlloc pgdir a with
    | none => .ok (false, m)
    | some m =>
      match m.walkpgdir pgdir a with
      | none => .error .wild
      | some pte =>
        if flagOn pte pteP then .error (.panic "remap")
        else mapLoop pgdir perm count ((a + 4096) % 0x100000000) (f + 1)
          (m.setPte pgdir a (mapPte f perm))

/-- `mappages`, with the physical range given by its first frame. -/
def mappages (m : Machine) (pgdir va size f : ℕ) (perm : Pte) : Except Halt (Bool × Machine) :=
  let a := pgRoundDown va
  let last := pgRoundDown ((va + size + 0x100000000 - 1) % 0x100000000)
  mapLoop pgdir perm ((last + 0x100000000 - a) % 0x100000000 / 4096 + 1) a f m

/-- How a page fault taken in kernel mode ends (the default case of `trap`). -/
def kernelFault (m : Machine) (va : ℕ) : Halt :=
  match m.walkpgdir m.proc.pgdir va with
  | none => .panic "turn flag: no pte found"
  | some _ => .panic "trap"

/-- The frame behind an address the kernel dereferences: the direct map at and above `KERNBASE`, the
page table of the running process below it.  `PTE_U` does not matter to the kernel; `PTE_W` does,
since `CR0_WP` is set. -/
def kaddr (m : Machine) (va : ℕ) (write : Bool) : Except Halt ℕ :=
  if kernBase ≤ va then .ok ((va - kernBase) / 4096)
  else match m.walkpgdir m.proc.pgdir va with
    | none => .error (m.kernelFault va)
    | some pte =>
      if flagOn pte pteP && (!write || flagOn pte pteW) then .ok (frameOf pte)
      else .error (m.kernelFault va)

end Machine

end Xv6
