import Mathlib.Algebra.BigOperators.Group.List.Basic
import Xv6.Lib.Ring
import Xv6.Lib.Run
import Xv6.Machine

/-!
# The user allocator

`malloc`, `pmalloc`, `free`, `protect_page` and `pfree` of `umalloc.c`.  Addresses are byte addresses;
memory is read and written through the headers the allocator keeps in it, and a block of `size` units
takes `8 * size` bytes from its header on.  `sbrk` may fail, and the break may have been moved up
since the last call.  The entries of the heap's pages are kept as far as the allocator reads them:
`PTE_1` and `PTE_W`.
-/

namespace Xv6

structure Header where
  ptr : ℕ
  size : ℕ
deriving DecidableEq, Repr

structure Heap where
  mem : ℕ → Header
  /-- The address of `base`. -/
  base : ℕ
  /-- 0 until the first allocation. -/
  freep : ℕ
  brk : ℕ
  /-- What `sbrk` has handed out: first address and units.  Nothing reads it. -/
  regions : List (ℕ × ℕ)
  pte1 : ℕ → Bool
  pteW : ℕ → Bool
  protectedPages : Int

namespace Heap

def ptr (h : Heap) (p : ℕ) : ℕ := (h.mem p).ptr

def size (h : Heap) (p : ℕ) : ℕ := (h.mem p).size

def setPtr (h : Heap) (p q : ℕ) : Heap :=
  { h with mem := Function.update h.mem p { h.mem p with ptr := q } }

def setSize (h : Heap) (p n : ℕ) : Heap :=
  { h with mem := Function.update h.mem p { h.mem p with size := n } }

def setFreep (h : Heap) (p : ℕ) : Heap := { h with freep := p }

/-- Whether the loop of `free` stops at `p`: the block lies between `p` and its successor, or `p` is
the last block and the block lies outside of the list. -/
def Fits (h : Heap) (bp p : ℕ) : Prop :=
  (p < bp ∧ bp < h.ptr p) ∨ (h.ptr p ≤ p ∧ (p < bp ∨ bp < h.ptr p))

instance (h : Heap) (bp p : ℕ) : Decidable (h.Fits bp p) := inferInstanceAs (Decidable (_ ∨ _))

/-- The loop of `free`. -/
def findPlace (h : Heap) (bp : ℕ) : ℕ → ℕ → Except Halt ℕ
  | 0, _ => .error .livelock
  | fuel + 1, p => if h.Fits bp p then .ok p else findPlace h bp fuel (h.ptr p)

/-- The block `bp` joined to the block after `p`, or linked to it. -/
def joinUpper (h : Heap) (p bp : ℕ) : Heap :=
  if bp + 8 * h.size bp = h.ptr p then
    (h.setSize bp (h.size bp + h.size (h.ptr p))).setPtr bp (h.ptr (h.ptr p))
  else h.setPtr bp (h.ptr p)

/-- The block `p` joined to the block `bp`, or linked to it. -/
def joinLower (h : Heap) (p bp : ℕ) : Heap :=
  if p + 8 * h.size p = bp then (h.setSize p (h.size p + h.size bp)).setPtr p (h.ptr bp)
  else h.setPtr p bp

/-- `free`.  The list has fewer elements than there are addresses below the break. -/
def free (h : Heap) (ap : ℕ) : Except Halt Heap := do
  let bp := ap - 8
  let p ← findPlace h bp (h.brk + 2) h.freep
  return ((h.joinUpper p bp).joinLower p bp).setFreep p

/-- The break moved up by `gap` and then by `nu` units.  New pages are writable and unmarked. -/
def extend (h : Heap) (gap nu : ℕ) : Heap :=
  let brk := h.brk + gap + 8 * nu
  { h with
    brk := brk
    regions := (h.brk + gap, nu) :: h.regions
    pte1 := fun v => if pagesOf h.brk ≤ v ∧ v < pagesOf brk then false else h.pte1 v
    pteW := fun v => if pagesOf h.brk ≤ v ∧ v < pagesOf brk then true else h.pteW v }

/-- `sbrk` of `nu` units; `none` is the result -1.  `grant` says, for a break, whether the call is
granted and how far the break has been moved up before it. -/
def sbrk (grant : ℕ → Option ℕ) (h : Heap) (nu : ℕ) : Option (ℕ × Heap) :=
  match grant h.brk with
  | none => none
  | some gap =>
    if h.brk + gap + 8 * nu < kernBase then some (h.brk + gap, h.extend gap nu) else none

/-- The least number of units `morecore` asks for. -/
def atLeast (nu : ℕ) : ℕ := if nu < 4096 then 4096 else nu

/-- `morecore`; `none` is a null result. -/
def morecore (grant : ℕ → Option ℕ) (h : Heap) (nu : ℕ) : Except Halt (Option ℕ × Heap) :=
  match h.sbrk grant (atLeast nu) with
  | none => .ok (none, h)
  | some (hp, h) => do
    let h ← (h.setSize hp (atLeast nu)).free (hp + 8)
    return (some h.freep, h)

/-- The empty list set up by the first allocation. -/
def init (h : Heap) : Heap :=
  if h.freep = 0 then ((h.setPtr h.base h.base).setSize h.base 0).setFreep h.base else h

/-- The loop of `malloc` and `pmalloc`, up to the first block of `enough` units: the element before
it, or `none` when `morecore`, asked for `nunits`, fails. -/
def findBlock (grant : ℕ → Option ℕ) (enough nunits : ℕ) :
    ℕ → Heap → ℕ → Except Halt (Option ℕ × Heap)
  | 0, _, _ => .error .livelock
  | fuel + 1, h, prevp =>
    let p := h.ptr prevp
    if enough ≤ h.size p then .ok (some prevp, h)
    else if p = h.freep then do
      match ← h.morecore grant nunits with
      | (none, h) => return (none, h)
      | (some p, h) => findBlock grant enough nunits fuel h p
    else findBlock grant enough nunits fuel h p

/-- The search from `freep`: it passes the list at most twice. -/
def search (grant : ℕ → Option ℕ) (enough nunits : ℕ) (h : Heap) :
    Except Halt (Option ℕ × Heap) :=
  findBlock grant enough nunits (2 * h.init.brk + 4) h.init h.init.freep

/-- Units for `nbytes` bytes and a header. -/
def nunits (nbytes : ℕ) : ℕ := (nbytes + 7) / 8 + 1

/-- What `malloc` does with the block after `prevp`: it is taken off the list, or its end is cut off.
The result is the new block. -/
def take (h : Heap) (prevp n : ℕ) : ℕ × Heap :=
  let p := h.ptr prevp
  if h.size p = n then (p, (h.setPtr prevp (h.ptr p)).setFreep prevp)
  else
    let rest := h.size p - n
    (p + 8 * rest, ((h.setSize p rest).setSize (p + 8 * rest) n).setFreep prevp)

/-- `malloc`, for fewer than `2 ^ 32 - 7` bytes. -/
def malloc (grant : ℕ → Option ℕ) (h : Heap) (nbytes : ℕ) : Except Halt (Option ℕ × Heap) := do
  let (prevp, h) ← h.search grant (nunits nbytes) (nunits nbytes)
  match prevp with
  | none => return (none, h)
  | some prevp =>
    let (p, h) := h.take prevp (nunits nbytes)
    return (some (p + 8), h)

/-- `turn_flag` for `PTE_1`. -/
def turnPte1 (h : Heap) (va : ℕ) (on : Bool) : Heap :=
  { h with pte1 := Function.update h.pte1 (va / 4096) on }

/-- `turn_flag` for `PTE_W`. -/
def turnPteW (h : Heap) (va : ℕ) (on : Bool) : Heap :=
  { h with pteW := Function.update h.pteW (va / 4096) on }

/-- The units `pmalloc` leaves of a block of `size` units. -/
def keeps (size : ℕ) : ℕ := (size / 512 - 1) * 512 - 1

/-- What `pmalloc` does with the block after `prevp`. -/
def carve (h : Heap) (prevp : ℕ) : ℕ × Heap :=
  let p := h.ptr prevp
  let rest := keeps (h.size p)
  let h := (h.setSize p rest).setSize (p + 8 * rest) 513
  (p + 8 * rest, (h.turnPte1 (p + 8 * rest + 8) true).setFreep prevp)

def pmalloc (grant : ℕ → Option ℕ) (h : Heap) : Except Halt (Option ℕ × Heap) := do
  let (prevp, h) ← h.search grant 1024 (nunits 4096)
  match prevp with
  | none => return (none, h)
  | some prevp =>
    let (p, h) := h.carve prevp
    return (some (p + 8), h)

def updateProtectedPages (h : Heap) (up : Bool) : Heap :=
  { h with protectedPages := if up then h.protectedPages + 1 else h.protectedPages - 1 }

def protectPage (h : Heap) (ap : ℕ) : Int × Heap :=
  if h.pte1 (ap / 4096) = false then (-1, h)
  else if h.size (ap - 8) ≠ 513 then (-1, h)
  else (1, (h.turnPteW ap false).updateProtectedPages true)

def pfree (h : Heap) (ap : ℕ) : Except Halt (Int × Heap) :=
  if h.pte1 (ap / 4096) = false then .ok (-1, h)
  else if h.pteW (ap / 4096) then .ok (-1, h)
  else if h.size (ap - 8) ≠ 513 then .ok (-1, h)
  else do
    let h ← ((h.turnPteW ap true).updateProtectedPages false).free ap
    return (1, h)

end Heap

end Xv6
