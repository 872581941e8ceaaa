import Mathlib.Data.Finset.Card
import Mathlib.Data.Fintype.Basic
import Xv6.Lib.Redo
import Xv6.Lib.Run
import Xv6.Machine

/-!
# The log

`log.c` over the buffer cache.  Any number of processes interleave.  A step is what happens under
`log.lock`, the tests of `log_write`, which are made without it, or one block write of `commit` or of
`recover_from_log`.  Between any two steps the machine may crash, which leaves the disk alone, and a
buffer that is neither dirty nor in use may be evicted.
-/

namespace Xv6.Log

def maxOpBlocks : ℕ := 10

def logSize : ℕ := maxOpBlocks * 3

abbrev Block := ℕ → ℕ

/-- `log.start` and `log.size`, from the superblock. -/
structure Super where
  start : ℕ
  size : ℕ

/-- The blocks outside the log: the header and the copies of `LOGSIZE` blocks. -/
def Super.Home (sb : Super) (b : ℕ) : Prop := b < sb.start ∨ sb.start + logSize < b

instance (sb : Super) (b : ℕ) : Decidable (sb.Home b) := instDecidableOr

/-- A block is given new contents by an operation. -/
structure Update where
  op : ℕ
  block : ℕ
  data : Block

/-- A process between `begin_op` and `end_op`. -/
structure Op where
  /-- The number of the operation.  Nothing reads it. -/
  id : ℕ
  /-- The block it has locked and changed, which `log_write` has not yet recorded. -/
  buf : Option ℕ
  /-- The blocks it has passed to `log_write`.  Nothing reads it. -/
  blocks : Finset ℕ
deriving DecidableEq

/-- How far `commit` or `recover_from_log` is. -/
inductive Phase where
  | idle
  /-- `end_op` is about to call `commit`. -/
  | commit
  /-- `write_log` is at the block `tail`. -/
  | writeLog (tail : ℕ)
  | writeHead
  /-- `install_trans` is at the block `tail`, in `recover_from_log` or in `commit`. -/
  | install (tail : ℕ) (boot : Bool)
  /-- The second `write_head`. -/
  | erase (boot : Bool)
  /-- `end_op` is about to clear `log.committing`. -/
  | finish
  /-- `read_head`. -/
  | readHead
deriving DecidableEq, Repr

/-- Whether `recover_from_log` is running. -/
def Phase.booting : Phase → Bool
  | .readHead | .install _ true | .erase true => true
  | _ => false

structure State (ι : Type) where
  disk : ℕ → Block
  /-- The data of the buffers that hold a block. -/
  cache : ℕ → Option Block
  /-- `B_DIRTY`. -/
  dirty : ℕ → Bool
  /-- Whether a process has the buffer locked and has changed it. -/
  lock : ℕ → Bool
  /-- `log.lh`. -/
  lh : List ℕ
  outstanding : ℕ
  committing : Bool
  phase : Phase
  op : ι → Option Op
  /-- The next operation's number.  Nothing reads it, nor what follows. -/
  nextOp : ℕ
  /-- All updates. -/
  updates : List Update
  /-- The updates that are not yet committed. -/
  trans : List Update
  /-- The updates of the transactions that are committed, one after another. -/
  committed : List (List Update)

inductive Event (ι : Type) where
  | beginOp (i : ι)
  /-- A buffer is read, locked and changed, and `log_write` makes its tests. -/
  | change (i : ι) (b : ℕ) (x : Block)
  /-- The rest of `log_write`, and `brelse`. -/
  | record (i : ι)
  | endOp (i : ι)
  /-- The next step of `commit` or of `recover_from_log`. -/
  | work
  /-- A block is read. -/
  | read (b : ℕ)
  | evict (b : ℕ)
  | crash

/-- The blocks that are changed lie outside the log. -/
def Event.Home {ι : Type} (sb : Super) : Event ι → Prop
  | .change _ b _ => sb.Home b
  | _ => True

instance {ι : Type} (sb : Super) : (e : Event ι) → Decidable (e.Home sb)
  | .change _ b _ => inferInstanceAs (Decidable (sb.Home b))
  | .beginOp _ | .record _ | .endOp _ | .work | .read _ | .evict _ | .crash => .isTrue trivial

variable {ι : Type} [DecidableEq ι]

namespace State

/-- `bread`: the data of the buffer. -/
def bread (s : State ι) (b : ℕ) : Block := (s.cache b).getD (s.disk b)

/-- `bwrite` of a buffer with the data `x`. -/
def bwrite (s : State ι) (b : ℕ) (x : Block) : State ι :=
  { s with
    disk := Function.update s.disk b x
    cache := Function.update s.cache b (some x)
    dirty := Function.update s.dirty b false }

/-- The header block, `n` and then the block numbers; the words after them stay. -/
def header (lh : List ℕ) (old : Block) : Block
  | 0 => lh.length
  | k + 1 => lh[k]?.getD (old (k + 1))

/-- What `read_head` reads. -/
def entries (x : Block) : List ℕ := (List.range (x 0)).map fun i => x (i + 1)

def beginOp (s : State ι) (i : ι) : State ι :=
  if (s.op i).isSome ∨ s.phase.booting then s
  -- The process sleeps.
  else if s.committing ∨ logSize < s.lh.length + (s.outstanding + 1) * maxOpBlocks then s
  else
    { s with
      outstanding := s.outstanding + 1
      op := Function.update s.op i (some ⟨s.nextOp, none, ∅⟩)
      nextOp := s.nextOp + 1 }

/-- The start of `log_write`, for a buffer that was read and changed before. -/
def change (sb : Super) (s : State ι) (i : ι) (b : ℕ) (x : Block) : Except Halt (State ι) :=
  match s.op i with
  | none => .ok s
  | some o =>
    if o.buf.isSome ∨ s.lock b then .ok s
    else if logSize ≤ s.lh.length ∨ sb.size - 1 ≤ s.lh.length then .error (.panic "too big a transaction")
    else if s.outstanding < 1 then .error (.panic "log_write outside of trans")
    else
      .ok { s with
        cache := Function.update s.cache b (some x)
        lock := Function.update s.lock b true
        op := Function.update s.op i (some { o with buf := some b, blocks := insert b o.blocks })
        updates := s.updates ++ [⟨o.id, b, x⟩]
        trans := s.trans ++ [⟨o.id, b, x⟩] }

/-- The loop of `log_write` and what follows it.  The array `log.lh.block` has `LOGSIZE` elements. -/
def append (lh : List ℕ) (b : ℕ) : Except Halt (List ℕ) :=
  if b ∈ lh then .ok lh else if logSize ≤ lh.length then .error .wild else .ok (lh ++ [b])

/-- `log_write` with `log.lock` held, and `brelse`. -/
def record (s : State ι) (i : ι) : Except Halt (State ι) :=
  match s.op i with
  | some ⟨id, some b, blocks⟩ =>
    (append s.lh b).map fun lh =>
      { s with
        lh := lh
        dirty := Function.update s.dirty b true
        lock := Function.update s.lock b false
        op := Function.update s.op i (some ⟨id, none, blocks⟩) }
  | _ => .ok s

/-- `end_op` up to the call of `commit`. -/
def endOp (s : State ι) (i : ι) : Except Halt (State ι) :=
  match s.op i with
  | some ⟨_, none, _⟩ =>
    if s.committing then .error (.panic "log.committing")
    else
      .ok { s with
        op := Function.update s.op i none
        outstanding := s.outstanding - 1
        committing := decide (s.outstanding - 1 = 0)
        phase := if s.outstanding - 1 = 0 then .commit else s.phase }
  | _ => .ok s

def work (sb : Super) (s : State ι) : State ι :=
  match s.phase with
  | .idle => s
  | .commit => { s with phase := if s.lh = [] then .finish else .writeLog 0 }
  | .writeLog tail =>
    match s.lh[tail]? with
    | none => { s with phase := .writeHead }
    | some b => { s.bwrite (sb.start + tail + 1) (s.bread b) with phase := .writeLog (tail + 1) }
  | .writeHead =>
    { s.bwrite sb.start (header s.lh (s.bread sb.start)) with
      phase := .install 0 false
      trans := []
      committed := s.committed ++ [s.trans] }
  | .install tail boot =>
    match s.lh[tail]? with
    | none => { s with lh := [], phase := .erase boot }
    | some b => { s.bwrite b (s.bread (sb.start + tail + 1)) with phase := .install (tail + 1) boot }
  | .erase boot =>
    { s.bwrite sb.start (header s.lh (s.bread sb.start)) with phase := if boot then .idle else .finish }
  | .finish => { s with committing := false, phase := .idle }
  | .readHead => { s with lh := entries (s.bread sb.start), phase := .install 0 true }

/-- A process reads a block.  There is none while the log is recovered. -/
def read (s : State ι) (b : ℕ) : State ι :=
  if s.phase.booting then s else { s with cache := Function.update s.cache b (some (s.bread b)) }

/-- `bget` takes the buffer for another block. -/
def evict (s : State ι) (b : ℕ) : State ι :=
  if s.dirty b ∨ s.lock b then s else { s with cache := Function.update s.cache b none }

/-- Everything but the disk is lost, and the machine starts again. -/
def crash (s : State ι) : State ι :=
  { s with
    cache := fun _ => none
    dirty := fun _ => false
    lock := fun _ => false
    lh := []
    outstanding := 0
    committing := false
    phase := .readHead
    op := fun _ => none
    trans := [] }

end State

open State

def step (sb : Super) (s : State ι) : Event ι → Except Halt (State ι)
  | .beginOp i => .ok (s.beginOp i)
  | .change i b x => change sb s i b x
  | .record i => s.record i
  | .endOp i => s.endOp i
  | .work => .ok (work sb s)
  | .read b => .ok (s.read b)
  | .evict b => .ok (s.evict b)
  | .crash => .ok s.crash

/-- The machine with the disk that `mkfs` has written. -/
def boot (disk : ℕ → Block) : State ι where
  disk := disk
  cache _ := none
  dirty _ := false
  lock _ := false
  lh := []
  outstanding := 0
  committing := false
  phase := .readHead
  op _ := none
  nextOp := 0
  updates := []
  trans := []
  committed := []

end Xv6.Log
