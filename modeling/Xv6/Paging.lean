import Xv6.Lib.Scan
import Xv6.Lib.SlotTable
import Xv6.Machine

/-!
# The paging functions of `vm.c` and `fs.c`

Tracking of resident pages (`ram_monitor`), the replacement policies, and the movement of pages
between frames and swap slots.  A result of -1 is `none` where it stands for an index, and -1
itself where the source returns it.  An index of -1 is never used silently: the functions that
would read `ram_monitor[-1]` stop with `Halt.wild`.
-/

namespace Xv6

/-- `++` on an `int` counter: it wraps at `2 ^ 31`. -/
def incr (x : Int) : Int := Int.bmod (x + 1) 0x100000000

/-- `V2P`, as the bits of an entry. -/
def v2p (a : ℕ) : Pte := BitVec.ofNat 32 (a + 0x100000000 - kernBase)

theorem v2p_page (f : ℕ) : v2p (kernBase + 4096 * f) = paOf f := by
  apply BitVec.eq_of_toNat_eq
  simp only [v2p, paOf, BitVec.toNat_ofNat, kernBase, Nat.reducePow]
  omega

/-- `ram_monitor` as a slot table keyed by address. -/
def ramTable (p : Proc) : SlotTable 16 ℕ :=
  ⟨fun i => (p.ramMonitor i).used, fun i => (p.ramMonitor i).pVa⟩

/-- `swap_monitor` as a slot table keyed by address. -/
def swapTable (p : Proc) : SlotTable 16 ℕ :=
  ⟨fun i => (p.swapMonitor i).used, fun i => (p.swapMonitor i).pVa⟩

namespace Proc

def getFreeRamIdx (p : Proc) : Option (Fin 16) := (ramTable p).firstFree

def getSwapIdx (p : Proc) : Option (Fin 16) := (swapTable p).firstFree

def setRam (p : Proc) (i : Fin 16) (e : PMonitor) : Proc :=
  { p with ramMonitor := Function.update p.ramMonitor i e }

def setSwap (p : Proc) (i : Fin 16) (e : PMonitor) : Proc :=
  { p with swapMonitor := Function.update p.swapMonitor i e }

/-- `add2ram`: with no free entry the page stays untracked. -/
def add2ram (p : Proc) (pgdir pVa : ℕ) : Proc :=
  match p.getFreeRamIdx with
  | none => p
  | some idx =>
    let last := incr p.lastInQueue
    { p.setRam idx ⟨true, pgdir, pVa, last⟩ with lastInQueue := last }

/-- `select_LIFO`: the used entry with the largest queue number above 0. -/
def selectLIFO (p : Proc) : Option (Fin 16) :=
  (Scan.best (fun place last => last < place) (fun idx => (p.ramMonitor idx).used)
    (fun idx => (p.ramMonitor idx).placeInQueue) (none, 0) (List.finRange 16)).1

/-- The inner loop of `select_SCFIFO`: the used entry with the smallest queue number. -/
def oldest (p : Proc) : Option (Fin 16) :=
  (Scan.best (fun place first => place ≤ first) (fun idx => (p.ramMonitor idx).used)
    (fun idx => (p.ramMonitor idx).placeInQueue) (none, 0x7FFFFFFF) (List.finRange 16)).1

end Proc

namespace Machine

def setProc (m : Machine) (p : Proc) : Machine := { m with proc := p }

/-- The outer loop of `select_SCFIFO`.  Every round but the last clears one accessed bit of a tracked
page, so more rounds than entries are never needed. -/
def scfifoLoop : ℕ → Machine → Except Halt (Fin 16 × Machine)
  | 0, _ => .error .livelock
  | fuel + 1, m =>
    match m.proc.oldest with
    | none => .error .wild
    | some ret =>
      let e := m.proc.ramMonitor ret
      match m.walkpgdir e.pgdir e.pVa with
      | none => .error .wild
      | some pte =>
        if flagOn (pteFlags pte) pteA then
          let last := incr m.proc.lastInQueue
          let p := { m.proc.setRam ret { e with placeInQueue := last } with lastInQueue := last }
          scfifoLoop fuel ((m.setPte e.pgdir e.pVa (pte &&& ~~~pteA)).setProc p)
        else .ok (ret, m)

def selectSCFIFO (m : Machine) : Except Halt (Fin 16 × Machine) := scfifoLoop 17 m

/-- `replace_page_by_policy`, followed by the use its callers make of the index. -/
def replacePageByPolicy (sel : Selection) (m : Machine) : Except Halt (Fin 16 × Machine) :=
  match sel with
  | .LIFO =>
    match m.proc.selectLIFO with
    | none => .error .wild
    | some idx => .ok (idx, m)
  | .SCFIFO => m.selectSCFIFO
  | .NONE => .error (.panic "invalid policy!")

def pageOut (m : Machine) (va pgdir : ℕ) : Except Halt Machine :=
  match m.walkpgdir pgdir va with
  | none => .error (.panic "pte is not found")
  | some pte => .ok ((m.setPte pgdir va (pageOutPte pte)).setProc
      { m.proc with protectedPages := m.proc.protectedPages + 1 })

def pageIn (m : Machine) (uVa : ℕ) (pa : Pte) (pgdir : ℕ) : Except Halt Machine :=
  match m.walkpgdir pgdir uVa with
  | none => .error (.panic "page pte is not found")
  | some pte => .ok ((m.setPte pgdir uVa (pageInPte pte pa)).setProc
      { m.proc with protectedPages := m.proc.protectedPages - 1 })

/-- A page as the source buffer of a file write. -/
def pageBytes (page : Page) (k : ℕ) : Byte := if h : k < 4096 then page ⟨k, h⟩ else 0

/-- `write2file`: the page at the user address `pVa` goes to the first unused slot.  The bytes are
read through the page table of the running process. -/
def write2file (m : Machine) (pVa pgdir : ℕ) : Except Halt (Int × Machine) :=
  match m.proc.getSwapIdx with
  | none => .ok (-1, m)
  | some idx => do
    let f ← m.kaddr pVa false
    let (ok, file) := m.proc.swapFile.filewrite (pageBytes (m.data f)) (4096 * idx) 4096
    let p := { m.proc with swapFile := file }
    if ok then return (4096, m.setProc (p.setSwap idx ⟨true, pgdir, pVa, 0⟩))
    else return (-1, m.setProc p)

/-- Where `read_page_from_disk` puts the bytes: the bounce buffer or a user address. -/
inductive Dst where
  | buff
  | user (va : ℕ)

/-- The first `r` bytes of a page replaced by the bytes of a file from `off` on. -/
def overlay (page : Page) (file : File) (off r : ℕ) : Page := fun k =>
  if k.val < r then file.byte (off + k.val) else page k

/-- The copy into the destination buffer. -/
def readInto (m : Machine) (dst : Dst) (off r : ℕ) : Except Halt Machine :=
  match dst with
  | .buff => .ok { m with buff := overlay m.buff m.proc.swapFile off r }
  | .user va => do
    let f ← m.kaddr va true
    return m.setFrame f (overlay (m.data f) m.proc.swapFile off r)

/-- `read_page_from_disk`: the slot is looked up by address alone, used or not. -/
def readPageFromDisk (m : Machine) (ramIdx : Fin 16) (pVa : ℕ) (dst : Dst) :
    Except Halt (Int × Machine) :=
  match (swapTable m.proc).lookup pVa with
  | none => .ok (-1, m)
  | some i =>
    match m.proc.swapFile.readi (4096 * i) 4096 with
    | none => .ok (-1, m)
    | some r => do
      let m ← m.readInto dst (4096 * i) r
      let e := m.proc.swapMonitor i
      let last := incr m.proc.lastInQueue
      let p := (m.proc.setRam ramIdx { e with placeInQueue := last }).setSwap i
        { e with used := false }
      return (1, m.setProc { p with lastInQueue := last })

/-- `swap`: a resident page makes room for the page `pVa`, which is already mapped. -/
def swap (sel : Selection) (m : Machine) (pgdir pVa : ℕ) : Except Halt Machine := do
  let m := m.setProc { m.proc with pagesInFile := m.proc.pagesInFile + 1 }
  let (ramIdx, m) ← m.replacePageByPolicy sel
  let e := m.proc.ramMonitor ramIdx
  match m.walkpgdir e.pgdir e.pVa with
  | none => .error .wild
  | some pte => do
    let (_, m) ← m.write2file e.pVa e.pgdir
    let m ← m.kfree (frameOf pte)
    let m := m.setProc (m.proc.setRam ramIdx { e with used := false })
    let m ← m.pageOut e.pVa e.pgdir
    return m.setProc (m.proc.add2ram pgdir pVa)

/-- `memset(np, 0, PGSIZE)` and `memmove(np, page, PGSIZE)`, for a kernel pointer that may be null:
address 0 is then the first page of the running process. -/
def storePage (m : Machine) (np : ℕ) (page : Page) : Except Halt Machine := do
  let f ← m.kaddr np true
  return m.setFrame f page

/-- The result of `kalloc` in `page_from_disk`, which is used unchecked: 0 when there is no frame. -/
def kallocPage (m : Machine) (pVa : ℕ) : ℕ × Machine :=
  match m.kalloc with
  | none => (0, m)
  | some (f, m) => (kernBase + 4096 * f, m.setOwner f m.proc.pgdir (pVa / 4096))

/-- The part of `page_from_disk` for a free entry: the page is read to where it belongs. -/
def fillEntry (m : Machine) (np pVa : ℕ) (freeRamIdx : Fin 16) : Except Halt (Int × Machine) := do
  let m ← m.pageIn pVa (v2p np) m.proc.pgdir
  let (_, m) ← m.readPageFromDisk freeRamIdx pVa (.user pVa)
  return (1, m)

/-- The part of `page_from_disk` without a free entry: the page takes the victim's entry and is read
into the bounce buffer before the victim is written out. -/
def exchange (sel : Selection) (m : Machine) (np pVa : ℕ) : Except Halt (Int × Machine) := do
  let m := m.setProc { m.proc with pagesInFile := m.proc.pagesInFile + 1 }
  let (ramIdx, m) ← m.replacePageByPolicy sel
  let page := m.proc.ramMonitor ramIdx
  let m ← m.pageIn pVa (v2p np) m.proc.pgdir
  let (_, m) ← m.readPageFromDisk ramIdx pVa .buff
  match m.walkpgdir page.pgdir page.pVa with
  | none => return (-1, m)
  | some pte => do
    let m ← m.storePage np m.buff
    let (_, m) ← m.write2file page.pVa page.pgdir
    let m ← m.pageOut page.pVa page.pgdir
    let m ← m.kfree (frameOf pte)
    return (1, m)

def pageFromDisk (sel : Selection) (m : Machine) (va : ℕ) : Except Halt (Int × Machine) := do
  let m := m.setProc { m.proc with pageFaultCounter := m.proc.pageFaultCounter + 1 }
  let pVa := pgRoundDown va
  let (np, m) := m.kallocPage pVa
  let m ← m.storePage np fun _ => 0
  match m.proc.getFreeRamIdx with
  | some freeRamIdx => m.fillEntry np pVa freeRamIdx
  | none => m.exchange sel np pVa

end Machine

end Xv6
