import Xv6.Names
import Xv6.System

/-!
# A `fork` that fails

The process table and the memory together with the directories, the inode cache and the file table, for a
`fork` while no other call is in progress.  An entry of `ptable` that `allocproc` has found keeps the new pid
when `fork` returns -1, whichever allocation failed, and the swap file of that pid stays behind.
-/

namespace Xv6

open Machine

/-! ### The source -/

def Sys.kill (s : Sys) (pid : ℕ) : Int × Sys :=
  match (List.finRange 64).find? fun j => (s.table j).proc.pid = pid with
  | none => (-1, s)
  | some j => (0, s.setEntry j { s.table j with proc := { (s.table j).proc with killed := true } })

/-- What an entry of `ptable` holds of the inode cache and the file table. -/
structure Handles where
  ofile : Names.Fd → Option Names.FPtr
  cwd : Option Names.IPtr
  swapFile : Option Names.FPtr

structure Kernel where
  sys : Sys
  store : Names.Store
  handles : Fin 64 → Handles

namespace Kernel

def procState : ProcState → Names.ProcState
  | .UNUSED => .unused
  | .RUNNABLE => .running
  | .ZOMBIE => .zombie

/-- What the file system sees of the processes. -/
def view (k : Kernel) : Names.Sys where
  toStore := k.store
  proc p :=
    { state := procState (k.sys.table p).state
      pid := (k.sys.table p).proc.pid
      ofile := (k.handles p).ofile
      cwd := (k.handles p).cwd
      swapFile := (k.handles p).swapFile
      call := none }
  nextpid := k.sys.nextpid

/-- A program of the process `me` that nobody interrupts.  The list holds the outcomes of what `Names`
leaves to chance; an operation that has to wait waits for ever. -/
def alone (me : Names.PPtr) {α : Type} : Names.P α → List Bool → Names.Sys → Except Halt (α × Names.Sys)
  | .ret a, _, s => .ok (a, s)
  | .op o next, xs, s =>
    match s.exec me (xs.headD false) o with
    | .error e => .error e
    | .ok none => .error .livelock
    | .ok (some (r, t)) =>
      alone me (next r) (match o with | .proc .chance => xs.tail | _ => xs) t

/-- `fork` by process `i`: the pid of the child, or `none` for the result -1. -/
def fork (sel : Selection) (k : Kernel) (i : Fin 64) : Except Halt (Option ℕ × Kernel) :=
  match k.sys.unused with
  | none => .ok (none, k)
  | some j => do
    let sys ← k.sys.fork sel i
    let made := decide ((sys.table j).state = .RUNNABLE)
    -- the kernel stack comes from the free list, and the child runs if `copyuvm` worked
    let (_, t) ← alone i (Names.fork i) [!k.sys.mem.freelist.isEmpty, made] k.view
    return (if made then some k.sys.nextpid else none,
      ⟨sys, t.toStore, fun p => ⟨(t.proc p).ofile, (t.proc p).cwd, (t.proc p).swapFile⟩⟩)

end Kernel

/-! ### What a failed call should leave -/

/-- The name of a swap file, in the root directory. -/
def swapName (pid : ℕ) : Names.Name := ((Names.swapPath pid).drop 1).take 14

/-- An entry like those of a new `ptable`, to `kill`, which looks for the pid, and to `fork`, which looks for
the state and hands `killed` on to the child. -/
structure PEntry.NeverAllocated (e : PEntry) : Prop where
  state : e.state = .UNUSED
  pid : e.proc.pid = 0
  killed : e.proc.killed = false

/-- Nothing is left in `k'` of a `fork` in `k`. -/
structure NoTrace (k k' : Kernel) : Prop where
  frames : k'.sys.mem.freelist.Perm k.sys.mem.freelist
  entry : ∀ j, k.sys.unused = some j → (k'.sys.table j).NeverAllocated
  files : ∀ f, 0 < (k'.store.ftable f).ref → 0 < (k.store.ftable f).ref
  swapFile : ∀ j, k.sys.unused = some j →
    (k'.store.inode Names.rootIno).lookup (swapName k.sys.nextpid) = none

theorem NoTrace.refl_of_full {k : Kernel} (h : k.sys.unused = none) : NoTrace k k where
  frames := .refl _
  entry j hj := by
    rw [h] at hj
    cases hj
  files _ := id
  swapFile j hj := by
    rw [h] at hj
    cases hj

/-! ### The entry -/

section

variable {sel : Selection} {s s' : Sys} {i j : Fin 64}

theorem Sys.fork_entry (hj : s.unused = some j) (hrun : s.fork sel i = .ok s') :
    ∃ child, s'.table j = s.childEntry i j child := by
  rw [fork, hj] at hrun
  obtain ⟨⟨child, m⟩, -, hrun⟩ := Run.bind_ok hrun
  cases hrun
  exact ⟨child, Function.update_self ..⟩

/-- Whichever allocation failed, the new pid stays in the entry. -/
theorem Sys.failedChild_pid (s : Sys) (j : Fin 64) : (s.failedChild j).proc.pid = s.nextpid := by
  rw [failedChild]
  dsimp only
  split <;> rfl

end

/-- A `fork` with the result -1 leaves no trace exactly when `allocproc` finds no entry. -/
theorem fork_failure_iff {sel : Selection} {k k' : Kernel} {i : Fin 64} (hpid : 0 < k.sys.nextpid)
    (hrun : k.fork sel i = .ok (none, k')) : NoTrace k k' ↔ k.sys.unused = none := by
  cases hj : k.sys.unused with
  | none =>
    rw [Kernel.fork, hj] at hrun
    cases hrun
    exact iff_of_true (.refl_of_full hj) rfl
  | some j =>
    rw [Kernel.fork, hj] at hrun
    obtain ⟨sys, hfork, hrun⟩ := Run.bind_ok hrun
    obtain ⟨⟨_, t⟩, -, hrun⟩ := Run.bind_ok hrun
    obtain ⟨hres, rfl⟩ := Prod.mk.inj (Except.ok.inj hrun)
    obtain ⟨child, hentry⟩ := Sys.fork_entry hj hfork
    refine iff_of_false (fun h => ?_) (by simp)
    cases child with
    | none =>
      have hzero := (h.entry j hj).pid
      rw [hentry, Sys.childEntry, Sys.failedChild_pid] at hzero
      omega
    | some c =>
      -- a child was made, so the result is not -1
      rw [hentry] at hres
      cases hres

local instance neZeroEntries : NeZero 64 := ⟨by decide⟩

/-- A file system with nothing but the root directory, after `userinit`. -/
def sampleNames : Names.Sys :=
  (Names.boot fun n =>
    if n = Names.rootIno then ⟨.dir, 1, [(Names.rootIno, Names.dot), (Names.rootIno, Names.dotdot)]⟩
    else ⟨.free, 0, []⟩).shared

/-- Processes with an image of three pages in the root directory, and `frames` free frames. -/
def sampleKernel (entries frames : ℕ) : Kernel where
  sys :=
    { mem := sampleMachine 3 2 frames
      table := fun i =>
        let p := (sampleMachine 3 2 frames).proc
        ⟨if i.val < entries then .RUNNABLE else .UNUSED, if i.val < entries then p else { p with pid := 0 },
          0, none⟩
      initproc := 0
      nextpid := 4 }
  store := sampleNames.toStore
  handles _ := ⟨fun _ => none, (sampleNames.proc Names.initproc).cwd, none⟩

/-- With no free entry the call changes nothing. -/
theorem fork_failure_iff_full :
    ∃ k', (sampleKernel 64 1).fork .LIFO 0 = .ok (none, k') ∧ NoTrace (sampleKernel 64 1) k' := by
  have hfull : (sampleKernel 64 1).sys.unused = none := by decide +kernel
  have hrun : (sampleKernel 64 1).fork .LIFO 0 = .ok (none, sampleKernel 64 1) := by
    rw [Kernel.fork, hfull]
  exact ⟨_, hrun, (fork_failure_iff (by decide) hrun).2 hfull⟩

/-- The only free frame becomes the kernel stack, and `setupkvm` finds none.  The entry keeps the pid 4, so
that `kill(4)` succeeds and marks it, the file `/.swap4` stays in the root directory and a file in use. -/
theorem fork_leaves_pid :
    ∃ k', (sampleKernel 1 1).fork .LIFO 0 = .ok (none, k') ∧ (sampleKernel 1 1).sys.unused = some 1 ∧
      (k'.sys.table 1).state = .UNUSED ∧ (k'.sys.table 1).proc.pid = 4 ∧ (k'.sys.kill 4).1 = 0 ∧
      ((k'.sys.kill 4).2.table 1).proc.killed = true ∧
      ((k'.store.inode Names.rootIno).lookup (swapName 4)).isSome = true ∧
      ((sampleKernel 1 1).store.ftable 0).ref = 0 ∧ (k'.store.ftable 0).ref = 1 ∧
      ¬ NoTrace (sampleKernel 1 1) k' := by
  have heval : Run.endsIn (fun r => decide (r.1 = none ∧ (sampleKernel 1 1).sys.unused = some 1 ∧
      (r.2.sys.table 1).state = .UNUSED ∧ (r.2.sys.table 1).proc.pid = 4 ∧ (r.2.sys.kill 4).1 = 0 ∧
      ((r.2.sys.kill 4).2.table 1).proc.killed = true ∧
      ((r.2.store.inode Names.rootIno).lookup (swapName 4)).isSome = true ∧
      ((sampleKernel 1 1).store.ftable 0).ref = 0 ∧ (r.2.store.ftable 0).ref = 1))
      ((sampleKernel 1 1).fork .LIFO 0) = true := by
    decide +kernel
  obtain ⟨⟨_, k'⟩, hrun, htest⟩ := Run.of_endsIn heval
  obtain ⟨rfl, hj, hstate, hpid, hkill, hkilled, hswap, hfree, hused⟩ := of_decide_eq_true htest
  refine ⟨k', hrun, hj, hstate, hpid, hkill, hkilled, hswap, hfree, hused, fun h => ?_⟩
  have hzero := (h.entry 1 hj).pid
  rw [hpid] at hzero
  cases hzero

end Xv6
