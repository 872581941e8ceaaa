import Xv6.Paging

/-!
# Address spaces

Building, growing, shrinking, copying and freeing the user part of a page directory (`vm.c`),
`growproc` of `proc.c`, and the page-fault case of `trap`.  A page directory or a size of 0, which
the source returns on failure, is `none` or 0 here too.
-/

namespace Xv6

/-- The kernel mappings of `kmap`: virtual address, first frame, size, permission. -/
def kmap (kdata : ℕ) : List (ℕ × ℕ × ℕ × Pte) :=
  [(kernBase, 0, 0x100000, pteW),
    (kernBase + 0x100000, 0x100, 4096 * kdata - 0x100000, 0),
    (kernBase + 4096 * kdata, kdata, 0xE000000 - 4096 * kdata, pteW),
    (0xFE000000, 0xFE000, 0x2000000, pteW)]

namespace Machine

/-- The monitor entries of the running process that name the page `a` of `pgdir` given back. -/
def untrack (p : Proc) (pgdir a : ℕ) : Proc :=
  { p with ramMonitor := fun i =>
      let e := p.ramMonitor i
      if e.used ∧ e.pVa = a ∧ e.pgdir = pgdir then { e with used := false } else e }

/-- The loop of `deallocuvm`; a page that is not present is passed over. -/
def deallocLoop (sel : Selection) (pgdir oldsz : ℕ) : ℕ → ℕ → Machine → Except Halt Machine
  | 0, a, m => if a < oldsz then .error .livelock else .ok m
  | fuel + 1, a, m =>
    if a < oldsz then
      match m.walkpgdir pgdir a with
      | none => deallocLoop sel pgdir oldsz fuel ((pdx a + 1) * 0x400000) m
      | some pte =>
        if flagOn pte pteP then
          if frameOf pte = 0 then .error (.panic "kfree")
          else do
            let m ← m.kfree (frameOf pte)
            let m := if sel = .NONE then m else m.setProc (untrack m.proc pgdir a)
            deallocLoop sel pgdir oldsz fuel (a + 4096) (m.setPte pgdir a 0)
        else deallocLoop sel pgdir oldsz fuel (a + 4096) m
    else .ok m

def deallocuvm (sel : Selection) (m : Machine) (pgdir oldsz newsz : ℕ) :
    Except Halt (ℕ × Machine) :=
  if oldsz ≤ newsz then .ok (oldsz, m)
  else do
    let m ← deallocLoop sel pgdir oldsz (oldsz / 4096 + 1) (pgRoundUp newsz) m
    return (newsz, m)

/-- The frames of the page tables of a directory put back on the free list. -/
def freeTables (pgdir : ℕ) : List ℕ → Machine → Except Halt Machine
  | [], m => .ok m
  | i :: rest, m =>
    match m.dirs pgdir i with
    | none => freeTables pgdir rest m
    | some t => do
      let m ← m.kfree t.frame
      freeTables pgdir rest m

/-- `freevm`.  The directory's frame is junk afterwards; nothing is found through it any more. -/
def freevm (sel : Selection) (m : Machine) (pgdir : ℕ) : Except Halt Machine := do
  let (_, m) ← m.deallocuvm sel pgdir kernBase 0
  let m ← freeTables pgdir (List.range 1024) m
  let m ← m.kfree pgdir
  return { m with dirs := Function.update m.dirs pgdir fun _ => none }

def kmapLoop (sel : Selection) (pgdir : ℕ) :
    List (ℕ × ℕ × ℕ × Pte) → Machine → Except Halt (Option ℕ × Machine)
  | [], m => .ok (some pgdir, m)
  | (virt, frame, size, perm) :: rest, m => do
    let (ok, m) ← m.mappages pgdir virt size frame perm
    if ok then kmapLoop sel pgdir rest m
    else do
      let m ← m.freevm sel pgdir
      return (none, m)

def setupkvm (sel : Selection) (m : Machine) : Except Halt (Option ℕ × Machine) :=
  match m.kalloc with
  | none => .ok (none, m)
  | some (pgdir, m) =>
    kmapLoop sel pgdir (kmap m.kdata)
      { m with dirs := Function.update m.dirs pgdir fun _ => none }

/-- `inituvm`: the first process's page, with `init` (shorter than a page) at its start. -/
def inituvm (m : Machine) (pgdir : ℕ) (init : List Byte) : Except Halt Machine :=
  if 4096 ≤ init.length then .error (.panic "inituvm: more than a page")
  else match m.kalloc with
    | none => .error .wild
    | some (f, m) => do
      let m := (m.setOwner f pgdir 0).setFrame f fun _ => 0
      let (_, m) ← m.mappages pgdir 0 4096 f (pteW ||| pteU)
      return m.setFrame f fun k => init.getD k.val 0

/-- What `allocuvm` does with the page at `a` once it is mapped, as the `count`th page of the
process. -/
def trackPage (sel : Selection) (m : Machine) (pgdir a count : ℕ) : Except Halt Machine :=
  if 2 < m.proc.pid ∧ sel ≠ .NONE then
    if count ≤ maxPyscPages then .ok (m.setProc (m.proc.add2ram pgdir a))
    else m.swap sel pgdir a
  else .ok m

/-- The loop of `allocuvm` with `count` pages to go and `i` added; the result of `mappages` is not
looked at. -/
def allocLoop (sel : Selection) (pgdir oldsz newsz : ℕ) :
    ℕ → ℕ → Machine → Except Halt (ℕ × Machine)
  | 0, _, m => .ok (newsz, m)
  | count + 1, i, m =>
    let a := pgRoundUp oldsz + 4096 * i
    match m.kalloc with
    | none => do
      let (_, m) ← m.deallocuvm sel pgdir newsz oldsz
      return (0, m)
    | some (f, m) => do
      let m := (m.setOwner f pgdir (a / 4096)).setFrame f fun _ => 0
      let (_, m) ← m.mappages pgdir a 4096 f (pteW ||| pteU)
      let m ← m.trackPage sel pgdir a (pgRoundUp oldsz / 4096 + (i + 1))
      allocLoop sel pgdir oldsz newsz count (i + 1) m

/-- `allocuvm`: the new size, 0 on failure. -/
def allocuvm (sel : Selection) (m : Machine) (pgdir oldsz newsz : ℕ) :
    Except Halt (ℕ × Machine) :=
  if kernBase ≤ newsz then .ok (0, m)
  else if newsz < oldsz then .ok (oldsz, m)
  else allocLoop sel pgdir oldsz newsz ((newsz - pgRoundUp oldsz + 4095) / 4096) 0 m

/-- `growproc`: whether the size changed as asked (result 0) or not (-1). -/
def growproc (sel : Selection) (m : Machine) (n : Int) : Except Halt (Int × Machine) :=
  let newsz := ((m.proc.sz + n) % 0x100000000).toNat
  if 0 < n then do
    let (sz, m) ← m.allocuvm sel m.proc.pgdir m.proc.sz newsz
    if sz = 0 then return (-1, m)
    else return (0, m.setProc { m.proc with sz := sz })
  else if n < 0 then do
    let (sz, m) ← m.deallocuvm sel m.proc.pgdir m.proc.sz newsz
    if sz = 0 then return (-1, m)
    else return (0, m.setProc { m.proc with sz := sz })
  else .ok (0, m)

/-- The loop of `copyuvm` with `count` pages to go.  A page that has both `PTE_P` and `PTE_PG` is
marked in the copy; one that is only paged out never gets that far. -/
def copyLoop (sel : Selection) (pgdir d : ℕ) :
    ℕ → ℕ → Machine → Except Halt (Option ℕ × Machine)
  | 0, _, m => .ok (some d, m)
  | count + 1, i, m =>
    match m.walkpgdir pgdir i with
    | none => .error (.panic "copyuvm: pte should exist")
    | some pte =>
      if flagOn pte pteP then
        if flagOn pte ptePG then do
          let m ← m.pageOut i d
          copyLoop sel pgdir d count (i + 4096) m
        else match m.kalloc with
          | none => do
            let m ← m.freevm sel d
            return (none, m)
          | some (f, m) => do
            let m := (m.setOwner f d (i / 4096)).setFrame f (m.data (frameOf pte))
            let (ok, m) ← m.mappages d i 4096 f (pteFlags pte)
            if ok then copyLoop sel pgdir d count (i + 4096) m
            else do
              let m ← m.freevm sel d
              return (none, m)
      else .error (.panic "copyuvm: page not present")

def copyuvm (sel : Selection) (m : Machine) (pgdir sz : ℕ) : Except Halt (Option ℕ × Machine) := do
  let (d, m) ← m.setupkvm sel
  match d with
  | none => return (none, m)
  | some d => copyLoop sel pgdir d (pagesOf sz) 0 m

def clearpteu (m : Machine) (pgdir uva : ℕ) : Except Halt Machine :=
  match m.walkpgdir pgdir uva with
  | none => .error (.panic "clearpteu")
  | some pte => .ok (m.setPte pgdir uva (pte &&& ~~~pteU))

def turnFlag (m : Machine) (va : ℕ) (flag : Pte) (on : Bool) : Except Halt Machine :=
  match m.walkpgdir m.proc.pgdir va with
  | none => .error (.panic "turn flag: no pte found")
  | some pte => .ok (m.setPte m.proc.pgdir va (if on then pte ||| flag else pte &&& ~~~flag))

def isFlagOn (m : Machine) (va : ℕ) (flag : Pte) : Except Halt Bool :=
  match m.walkpgdir m.proc.pgdir va with
  | none => .error (.panic "turn flag: no pte found")
  | some pte => .ok (flagOn pte flag)

/-- The default case of `trap`, which a page fault that is not resolved falls into: the process is
marked killed, or the kernel panics when it was the kernel that faulted. -/
def trapDefault (m : Machine) (va : ℕ) (user : Bool) : Except Halt Machine := do
  -- the trap number depends on this test; what matters is that it panics without a page table
  let _ ← m.isFlagOn va pteW
  if user then return m.setProc { m.proc with killed := true }
  else throw (.panic "trap")

/-- `trap` for `T_PGFLT` at `va`, taken in user or kernel mode.  It returns when the faulting
instruction may be retried or the process was marked killed. -/
def trap (sel : Selection) (m : Machine) (va : ℕ) (user : Bool) : Except Halt Machine :=
  if 2 < m.proc.pid ∧ user then do
    if ← m.isFlagOn va ptePG then do
      let (r, m) ← m.pageFromDisk sel va
      if r ≠ 0 then return m else m.trapDefault va user
    else m.trapDefault va user
  else m.trapDefault va user

/-- The frame behind a user address, as the processor finds it; `none` is a page fault. -/
def translate (m : Machine) (va : ℕ) (write : Bool) : Option ℕ :=
  match m.walkpgdir m.proc.pgdir va with
  | none => none
  | some pte =>
    if flagOn pte pteP && flagOn pte pteU && (!write || flagOn pte pteW) then some (frameOf pte)
    else none

/-- The accessed bit, and the dirty bit for a write, set by the processor. -/
def touch (m : Machine) (va : ℕ) (write : Bool) : Machine :=
  match m.walkpgdir m.proc.pgdir va with
  | none => m
  | some pte => m.setPte m.proc.pgdir va (pte ||| (if write then pteA ||| pteD else pteA))

/-- A user instruction that accesses `va`: it is retried after a fault, unless the fault killed the
process (`none`). -/
def access (sel : Selection) (m : Machine) (va : ℕ) (write : Bool) :
    Except Halt (Option ℕ × Machine) :=
  match m.translate va write with
  | some f => .ok (some f, m.touch va write)
  | none => do
    let m ← m.trap sel va true
    if m.proc.killed then return (none, m)
    else match m.translate va write with
      | some f => return (some f, m.touch va write)
      | none => throw .livelock

def load (sel : Selection) (m : Machine) (va : ℕ) : Except Halt (Option Byte × Machine) := do
  let (f, m) ← m.access sel va false
  return (f.map fun f => m.data f (pageOff va), m)

def storeByte (sel : Selection) (m : Machine) (va : ℕ) (b : Byte) : Except Halt Machine := do
  let (f, m) ← m.access sel va true
  match f with
  | none => return m
  | some f => return m.setFrame f (Function.update (m.data f) (pageOff va) b)

end Machine

end Xv6
