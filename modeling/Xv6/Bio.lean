import Mathlib.Data.Fintype.Basic
import Xv6.Lib.Ring
import Xv6.Lib.Run
import Xv6.Machine

/-!
# The buffer cache

`bio.c`, the disk queue of `ide.c`, and what `log_write` does to a buffer.  A step is what happens
under one spin lock or between two points where a process may sleep; any number of processes, each with
any number of calls of `bread` open, interleave.  `n` is the number of such calls that may be open at
once, and a call is named by a number below it.
-/

namespace Xv6

def fsSize : ℕ := 1000

/-- `struct buf` without its links.  The sleep lock is held by one of the open calls. -/
structure Buf (n : ℕ) (δ : Type) where
  /-- `B_VALID`. -/
  valid : Bool
  /-- `B_DIRTY`. -/
  dirty : Bool
  dev : ℕ
  blockno : ℕ
  lock : Option (Fin n)
  refcnt : ℕ
  data : δ

/-- A node of the list: a buffer, or `bcache.head`. -/
abbrev Node := Option (Fin 30)

/-- How far a call of `bread` has come. -/
inductive Stage where
  | idle
  /-- `bget` has chosen the buffer and waits for its lock. -/
  | waiting (i : Fin 30) (dev blockno : ℕ)
  | locked (i : Fin 30) (dev blockno : ℕ)
  /-- `bread` waits for the disk. -/
  | reading (i : Fin 30) (dev blockno : ℕ)
  /-- `bread` has returned; the buffer was changed since then, or since the last `log_write` or
  `bwrite`, or it was not. -/
  | held (i : Fin 30) (dev blockno : ℕ) (changed : Bool)
  /-- `bwrite` waits for the disk. -/
  | writing (i : Fin 30) (dev blockno : ℕ)
  /-- `brelse` has given up the lock. -/
  | released (i : Fin 30)
deriving DecidableEq, Repr

/-- The cache, the disk and the open calls. -/
structure Bcache (n : ℕ) (δ : Type) where
  buf : Fin 30 → Buf n δ
  next : Node → Node
  prev : Node → Node
  idequeue : List (Fin 30)
  /-- The two disks, by the low bit of the device number. -/
  disk : ℕ → ℕ → δ
  havedisk1 : Bool
  stage : Fin n → Stage
  /-- What was last written to a block through the cache, or was on the disk.  Nothing reads it. -/
  content : ℕ → ℕ → δ

namespace Bcache

variable {n : ℕ} {δ : Type}

def setBuf (s : Bcache n δ) (i : Fin 30) (b : Buf n δ) : Bcache n δ :=
  { s with buf := Function.update s.buf i b }

def setStage (s : Bcache n δ) (a : Fin n) (st : Stage) : Bcache n δ :=
  { s with stage := Function.update s.stage a st }

def setDisk (s : Bcache n δ) (unit blockno : ℕ) (x : δ) : Bcache n δ :=
  { s with disk := Function.update s.disk unit (Function.update (s.disk unit) blockno x) }

def setContent (s : Bcache n δ) (dev blockno : ℕ) (x : δ) : Bcache n δ :=
  { s with content := Function.update s.content dev (Function.update (s.content dev) blockno x) }

/-- `b` linked in after `bcache.head`. -/
def insertFront (s : Bcache n δ) (b : Node) : Bcache n δ :=
  let first := s.next none
  { s with
    next := Function.update (Function.update s.next b first) none b
    prev := Function.update (Function.update s.prev b none) first b }

def unlink (s : Bcache n δ) (b : Node) : Bcache n δ :=
  { s with
    prev := Function.update s.prev (s.next b) (s.prev b)
    next := Function.update s.next (s.prev b) (s.next b) }

/-- A loop over the list, in one direction or the other, to the first buffer that passes a test. -/
def scan (link : Node → Node) (test : Fin 30 → Bool) : ℕ → Node → Except Halt (Option (Fin 30))
  | 0, _ => .error .livelock
  | _ + 1, none => .ok none
  | fuel + 1, some i => if test i then .ok (some i) else scan link test fuel (link (some i))

/-- The cache before `binit`: all buffers are zero and the list is empty. -/
def zeroed (zero : δ) (disk : ℕ → ℕ → δ) (havedisk1 : Bool) : Bcache n δ where
  buf _ := ⟨false, false, 0, 0, none, 0, zero⟩
  next _ := none
  prev _ := none
  idequeue := []
  disk := disk
  havedisk1 := havedisk1
  stage _ := .idle
  content dev := disk (dev % 2)

def binit (zero : δ) (disk : ℕ → ℕ → δ) (havedisk1 : Bool) : Bcache n δ :=
  (List.finRange 30).foldl (fun s i => s.insertFront (some i)) (zeroed zero disk havedisk1)

/-- `bget`, up to `acquiresleep`. -/
def bget (s : Bcache n δ) (a : Fin n) (dev blockno : ℕ) : Except Halt (Bcache n δ) := do
  let hit ← scan s.next (fun i => (s.buf i).dev = dev ∧ (s.buf i).blockno = blockno) 31 (s.next none)
  match hit with
  | some i =>
    let b := s.buf i
    return (s.setBuf i { b with refcnt := b.refcnt + 1 }).setStage a (.waiting i dev blockno)
  | none =>
    let unused ← scan s.prev (fun i => (s.buf i).refcnt = 0 ∧ (s.buf i).dirty = false) 31 (s.prev none)
    match unused with
    | some i =>
      let b := { s.buf i with dev := dev, blockno := blockno, valid := false, dirty := false, refcnt := 1 }
      return (s.setBuf i b).setStage a (.waiting i dev blockno)
    | none => throw (.panic "bget: no buffers")

/-- `iderw` by the call `a`, up to its loop: the request goes to the end of the queue. -/
def iderw (s : Bcache n δ) (a : Fin n) (i : Fin 30) : Except Halt (Bcache n δ) :=
  let b := s.buf i
  if b.lock ≠ some a then .error (.panic "iderw: buf not locked")
  else if b.valid ∧ b.dirty = false then .error (.panic "iderw: nothing to do")
  else if b.dev ≠ 0 ∧ s.havedisk1 = false then .error (.panic "iderw: ide disk 1 not present")
  else .ok { s with idequeue := s.idequeue ++ [i] }

/-- The end of the request at the head of the queue: `idestart` for it, and `ideintr`.  `ready` is whether
the second `idewait` finds no error. -/
def ideintr (s : Bcache n δ) (ready : Bool) : Except Halt (Bcache n δ) :=
  match s.idequeue with
  | [] => .ok s
  | i :: rest =>
    let b := s.buf i
    if fsSize ≤ b.blockno then .error (.panic "incorrect blockno")
    else
      let s := { s with idequeue := rest }
      if b.dirty then
        .ok ((s.setDisk (b.dev % 2) b.blockno b.data).setBuf i { b with valid := true, dirty := false })
      else
        let data := if ready then s.disk (b.dev % 2) b.blockno else b.data
        .ok (s.setBuf i { b with valid := true, dirty := false, data := data })

/-- The list part of `brelse`. -/
def brelse (s : Bcache n δ) (i : Fin 30) : Bcache n δ :=
  let b := s.buf i
  let s := s.setBuf i { b with refcnt := b.refcnt - 1 }
  if b.refcnt - 1 = 0 then (s.unlink (some i)).insertFront (some i) else s

inductive Event (n : ℕ) (δ : Type) where
  | bget (a : Fin n) (dev blockno : ℕ)
  | acquiresleep (a : Fin n)
  /-- The rest of `bread`, up to the disk. -/
  | bread (a : Fin n)
  | ideintr (ready : Bool)
  /-- The end of `iderw`. -/
  | wake (a : Fin n)
  | modify (a : Fin n) (data : δ)
  | logWrite (a : Fin n)
  | bwrite (a : Fin n)
  | releasesleep (a : Fin n)
  | brelse (a : Fin n)

/-- One step.  An event that is not enabled changes nothing. -/
def step (s : Bcache n δ) : Event n δ → Except Halt (Bcache n δ)
  | .bget a dev blockno =>
    match s.stage a with
    | .idle => s.bget a dev blockno
    | _ => .ok s
  | .acquiresleep a =>
    match s.stage a with
    | .waiting i dev blockno =>
      if (s.buf i).lock = none then
        .ok ((s.setBuf i { s.buf i with lock := some a }).setStage a (.locked i dev blockno))
      else .ok s
    | _ => .ok s
  | .bread a =>
    match s.stage a with
    | .locked i dev blockno =>
      if (s.buf i).valid then .ok (s.setStage a (.held i dev blockno false))
      else do
        let s ← s.iderw a i
        return s.setStage a (.reading i dev blockno)
    | _ => .ok s
  | .ideintr ready => s.ideintr ready
  | .wake a =>
    match s.stage a with
    | .reading i dev blockno =>
      if (s.buf i).valid ∧ (s.buf i).dirty = false then
        .ok (s.setStage a (.held i dev blockno false))
      else .ok s
    | .writing i dev blockno =>
      if (s.buf i).valid ∧ (s.buf i).dirty = false then
        .ok (s.setStage a (.held i dev blockno false))
      else .ok s
    | _ => .ok s
  | .modify a data =>
    match s.stage a with
    | .held i dev blockno _ =>
      .ok ((s.setBuf i { s.buf i with data := data }).setStage a (.held i dev blockno true))
    | _ => .ok s
  | .logWrite a =>
    match s.stage a with
    | .held i dev blockno _ =>
      .ok (((s.setBuf i { s.buf i with dirty := true }).setContent dev blockno (s.buf i).data).setStage a
        (.held i dev blockno false))
    | _ => .ok s
  | .bwrite a =>
    match s.stage a with
    | .held i dev blockno _ =>
      if (s.buf i).lock ≠ some a then .error (.panic "bwrite")
      else do
        let x := (s.buf i).data
        let s ← (s.setBuf i { s.buf i with dirty := true }).iderw a i
        return (s.setContent dev blockno x).setStage a (.writing i dev blockno)
    | _ => .ok s
  | .releasesleep a =>
    match s.stage a with
    | .held i _ _ _ =>
      if (s.buf i).lock ≠ some a then .error (.panic "brelse")
      else .ok ((s.setBuf i { s.buf i with lock := none }).setStage a (.released i))
    | _ => .ok s
  | .brelse a =>
    match s.stage a with
    | .released i => .ok ((s.brelse i).setStage a .idle)
    | _ => .ok s

end Bcache

end Xv6
