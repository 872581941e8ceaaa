import Mathlib.Data.List.FinRange
import Mathlib.Data.List.Nodup
import Xv6.Lib.Run
import Xv6.Machine

/-!
# Fork, exit, wait and kill

The process table under any interleaving of the critical sections of `proc.c`.  What `fork` does between
and after them without `ptable.lock`, giving up a child or setting its parent, are steps of their own.
-/

namespace Xv6.Ptable

/-- An entry of `ptable`. -/
abbrev PPtr := Fin 64

/-- Entries are written as numbers. -/
local instance neZeroProcs : NeZero 64 := ⟨by decide⟩

/-- `enum procstate`. -/
inductive ProcState where
  | UNUSED
  | EMBRYO
  | SLEEPING
  | RUNNABLE
  | RUNNING
  | ZOMBIE
deriving DecidableEq, Repr

/-- What a process sleeps on: in `wait` its own entry, elsewhere the address of something else. -/
inductive Chan where
  | proc (p : PPtr)
  | other (addr : ℕ)
deriving DecidableEq, Repr

/-- Where a process is in the kernel. -/
inductive Phase where
  | user
  /-- In `fork`, with the child that `allocproc` has found; `parentSet` after `np->parent = curproc`. -/
  | forking (np : PPtr) (parentSet : Bool)
  /-- In the loop of `wait`, after a `sleep`. -/
  | waiting
deriving DecidableEq, Repr

/-- `struct proc`. -/
structure Proc where
  state : ProcState
  pid : BitVec 32
  parent : Option PPtr
  killed : Bool
  chan : Option Chan
  phase : Phase
  /-- Which call of `allocproc` has made the process.  Nothing reads it. -/
  born : ℕ
  /-- Whether the process has been hit by a `kill` of its pid or has had a fatal trap since it was made.
  Nothing reads it. -/
  struck : Bool
deriving DecidableEq, Repr

structure Table where
  proc : PPtr → Proc
  nextpid : BitVec 32
  /-- How often `allocproc` has found an entry.  Nothing reads it. -/
  births : ℕ
  /-- The processes `wait` has cleaned up, and the callers.  Nothing reads it. -/
  reaped : List (ℕ × PPtr)

def initproc : PPtr := 0

inductive Event where
  /-- The scheduler switches to a process. -/
  | run (p : PPtr)
  | yield (p : PPtr)
  | allocproc (p : PPtr)
  /-- `fork` gives up: there was no memory for the stack or for `copyuvm`. -/
  | forkFails (p : PPtr)
  /-- `np->parent = curproc`. -/
  | forkParent (p : PPtr)
  | forkDone (p : PPtr)
  | exit (p : PPtr)
  /-- One round of the loop of `wait`. -/
  | wait (p : PPtr)
  | sleep (p : PPtr) (addr : ℕ)
  | wakeup (addr : ℕ)
  | kill (pid : BitVec 32)
  /-- A trap marks the process killed. -/
  | fatal (p : PPtr)
deriving DecidableEq, Repr

def Proc.woken (c : Option Chan) (q : Proc) : Proc :=
  if q.state = .SLEEPING ∧ q.chan = c then { q with state := .RUNNABLE } else q

/-- What a round of `wait` comes to. -/
inductive WaitResult where
  | reap (q : PPtr)
  | fail
  | sleep
deriving DecidableEq, Repr

namespace Table

def set (s : Table) (p : PPtr) (q : Proc) : Table := { s with proc := Function.update s.proc p q }

def setState (s : Table) (p : PPtr) (st : ProcState) : Table := s.set p { s.proc p with state := st }

def setPhase (s : Table) (p : PPtr) (ph : Phase) : Table := s.set p { s.proc p with phase := ph }

def wakeup1 (s : Table) (c : Option Chan) : Table := { s with proc := fun q => (s.proc q).woken c }

/-- What `allocproc` does with the entry it has found. -/
def embryo (s : Table) (np : PPtr) : Table :=
  { s.set np { s.proc np with state := .EMBRYO, pid := s.nextpid, born := s.births, struck := false } with
    nextpid := s.nextpid + 1
    births := s.births + 1 }

/-- `allocproc`, up to the release of the lock. -/
def allocproc (s : Table) (p : PPtr) : Table :=
  match (List.finRange 64).find? fun q => (s.proc q).state = .UNUSED with
  | none => s
  | some np => (s.embryo np).setPhase p (.forking np false)

/-- The children of `p` become those of `init`. -/
def reparent (s : Table) (p : PPtr) : Table :=
  { s with proc := fun q =>
    if (s.proc q).parent = some p then { s.proc q with parent := some initproc } else s.proc q }

def exit (s : Table) (p : PPtr) : Table :=
  let s₁ := s.wakeup1 ((s.proc p).parent.map .proc)
  let s₂ := s₁.reparent p
  let s₃ := if ∃ q, (s₁.proc q).parent = some p ∧ (s₁.proc q).state = .ZOMBIE then
    s₂.wakeup1 (some (.proc initproc)) else s₂
  s₃.setState p .ZOMBIE

/-- The loop of `wait` over the table. -/
def waitResult (s : Table) (p : PPtr) : WaitResult :=
  match (List.finRange 64).find? fun q => (s.proc q).parent = some p ∧ (s.proc q).state = .ZOMBIE with
  | some q => .reap q
  | none => if (¬∃ q, (s.proc q).parent = some p) ∨ (s.proc p).killed then .fail else .sleep

def reap (s : Table) (q p : PPtr) : Table :=
  { s.set q { s.proc q with state := .UNUSED, pid := 0, parent := none, killed := false } with
    reaped := ((s.proc q).born, p) :: s.reaped }

def wait (s : Table) (p : PPtr) : Table :=
  match s.waitResult p with
  | .reap q => (s.reap q p).setPhase p .user
  | .fail => s.setPhase p .user
  | .sleep => (s.set p { s.proc p with state := .SLEEPING, chan := some (.proc p) }).setPhase p .waiting

/-- The entry `kill` finds. -/
def killed? (s : Table) (pid : BitVec 32) : Option PPtr :=
  (List.finRange 64).find? fun q => (s.proc q).pid = pid

/-- `kill`: 0 or -1, and the table. -/
def kill (s : Table) (pid : BitVec 32) : ℤ × Table :=
  match s.killed? pid with
  | none => (-1, s)
  | some q =>
    (0, s.set q { s.proc q with
      killed := true
      struck := true
      state := if (s.proc q).state = .SLEEPING then .RUNNABLE else (s.proc q).state })

/-- A step.  Only a process that runs takes steps of its own, and only those that its place in the kernel
allows. -/
def step (s : Table) : Event → Except Halt Table
  | .run p => .ok (if (s.proc p).state = .RUNNABLE then
      s.set p { s.proc p with state := .RUNNING, chan := none } else s)
  | .yield p => .ok (if (s.proc p).state = .RUNNING then s.setState p .RUNNABLE else s)
  | .allocproc p => .ok (if (s.proc p).state = .RUNNING ∧ (s.proc p).phase = .user then s.allocproc p else s)
  | .forkFails p =>
    match (s.proc p).state, (s.proc p).phase with
    | .RUNNING, .forking np false => .ok ((s.setPhase p .user).setState np .UNUSED)
    | _, _ => .ok s
  | .forkParent p =>
    match (s.proc p).state, (s.proc p).phase with
    | .RUNNING, .forking np false =>
      .ok ((s.set np { s.proc np with parent := some p }).setPhase p (.forking np true))
    | _, _ => .ok s
  | .forkDone p =>
    match (s.proc p).state, (s.proc p).phase with
    | .RUNNING, .forking np true =>
      .ok ((s.setPhase p .user).set np { s.proc np with state := .RUNNABLE, phase := .user })
    | _, _ => .ok s
  | .exit p =>
    if (s.proc p).state = .RUNNING ∧ (s.proc p).phase = .user then
      if p = initproc then .error (.panic "init exiting") else .ok (s.exit p)
    else .ok s
  | .wait p =>
    .ok (if (s.proc p).state = .RUNNING ∧ ((s.proc p).phase = .user ∨ (s.proc p).phase = .waiting) then
      s.wait p else s)
  | .sleep p addr =>
    .ok (if (s.proc p).state = .RUNNING ∧ (s.proc p).phase ≠ .waiting then
      s.set p { s.proc p with state := .SLEEPING, chan := some (.other addr) } else s)
  | .wakeup addr => .ok (s.wakeup1 (some (.other addr)))
  | .kill pid => .ok (s.kill pid).2
  | .fatal p =>
    .ok (if (s.proc p).state = .RUNNING then s.set p { s.proc p with killed := true, struck := true } else s)

/-- The table after `userinit`. -/
def boot : Table where
  proc p :=
    if p = initproc then ⟨.RUNNABLE, 1, none, false, none, .user, 0, false⟩
    else ⟨.UNUSED, 0, none, false, none, .user, 0, false⟩
  nextpid := 2
  births := 1
  reaped := []

end Table

/-- Sleeping, runnable or running. -/
def ProcState.alive : ProcState → Bool
  | .SLEEPING | .RUNNABLE | .RUNNING => true
  | .UNUSED | .EMBRYO | .ZOMBIE => false

/-! ### What the operations do to an entry -/

variable {s s' : Table} {p q r : PPtr}

theorem Table.set_proc (s : Table) (p : PPtr) (x : Proc) (q : PPtr) :
    (s.set p x).proc q = if q = p then x else s.proc q :=
  Function.update_apply ..

theorem setPhase_proc (s : Table) (p : PPtr) (ph : Phase) (q : PPtr) : (s.setPhase p ph).proc q =
    { s.proc q with phase := if q = p then ph else (s.proc q).phase } := by
  rw [Table.setPhase, s.set_proc]
  split
  · rename_i heq
    rw [heq]
  · rfl

theorem embryo_proc (s : Table) (np q : PPtr) : (s.embryo np).proc q = if q = np then
    { s.proc np with state := .EMBRYO, pid := s.nextpid, born := s.births, struck := false }
      else s.proc q :=
  s.set_proc np _ q

theorem reparent_proc (s : Table) (p q : PPtr) : (s.reparent p).proc q =
    { s.proc q with
      parent := if (s.proc q).parent = some p then some initproc else (s.proc q).parent } := by
  rw [Table.reparent]
  dsimp only
  split <;> rfl

theorem wakeup1_proc (s : Table) (c : Option Chan) (q : PPtr) : (s.wakeup1 c).proc q =
    { s.proc q with
      state := if (s.proc q).state = .SLEEPING ∧ (s.proc q).chan = c then .RUNNABLE
        else (s.proc q).state } := by
  show (s.proc q).woken c = _
  rw [Proc.woken]
  split <;> rfl

theorem wakeup1_reparent (s : Table) (p : PPtr) (c : Option Chan) :
    (s.reparent p).wakeup1 c = (s.wakeup1 c).reparent p := by
  have hproc : ∀ q, ((s.reparent p).wakeup1 c).proc q = ((s.wakeup1 c).reparent p).proc q := by
    intro q
    rw [reparent_proc, wakeup1_proc, reparent_proc, wakeup1_proc]
  exact congrArg (fun f => (⟨f, s.nextpid, s.births, s.reaped⟩ : Table)) (funext hproc)

theorem waitResult_reap (h : s.waitResult p = .reap q) :
    (s.proc q).parent = some p ∧ (s.proc q).state = .ZOMBIE := by
  rw [Table.waitResult] at h
  split at h
  · rename_i q' hfind
    cases h
    have hfound := List.find?_some hfind
    exact of_decide_eq_true hfound
  · split at h <;> cases h

theorem waitResult_fail (h : s.waitResult p = .fail) :
    (∀ q, (s.proc q).parent ≠ some p) ∨ (s.proc p).killed = true := by
  rw [Table.waitResult] at h
  split at h
  · cases h
  · split at h
    · rename_i hor
      exact hor.imp_left fun hnone q hq => hnone ⟨q, hq⟩
    · cases h

theorem waitResult_sleep (h : s.waitResult p = .sleep) :
    ∀ q, (s.proc q).parent = some p → (s.proc q).state ≠ .ZOMBIE := by
  rw [Table.waitResult] at h
  split at h
  · cases h
  · rename_i hfind
    intro q hq hzombie
    exact List.find?_eq_none.1 hfind q (List.mem_finRange q) (decide_eq_true ⟨hq, hzombie⟩)

theorem wait_reap (h : s.waitResult p = .reap q) : s.wait p = (s.reap q p).setPhase p .user := by
  rw [Table.wait, h]

theorem kill_found {pid : BitVec 32} (h : (s.kill pid).1 = 0) :
    ∃ q, (s.proc q).pid = pid ∧ ∀ r, r ≠ q → (s.kill pid).2.proc r = s.proc r := by
  rw [Table.kill] at h ⊢
  split at h
  · cases h
  · rename_i q hfind
    have hfound := List.find?_some hfind
    refine ⟨q, of_decide_eq_true hfound, fun r hr => ?_⟩
    exact (s.set_proc q _ r).trans (if_neg hr)

theorem boot_proc (h : p ≠ initproc) :
    Table.boot.proc p = ⟨.UNUSED, 0, none, false, none, .user, 0, false⟩ :=
  if_neg h

/-! ### Steps -/

inductive Takes (s : Table) : Event → Table → Prop
  | stay (e : Event) : Takes s e s
  | run {p : PPtr} : (s.proc p).state = .RUNNABLE →
    Takes s (.run p) (s.set p { s.proc p with state := .RUNNING, chan := none })
  | yield {p : PPtr} : (s.proc p).state = .RUNNING → Takes s (.yield p) (s.setState p .RUNNABLE)
  | allocproc {p : PPtr} : (s.proc p).state = .RUNNING → Takes s (.allocproc p) (s.allocproc p)
  | forkFails {p np : PPtr} : (s.proc p).phase = .forking np false →
    Takes s (.forkFails p) ((s.setPhase p .user).setState np .UNUSED)
  | forkParent {p np : PPtr} : (s.proc p).phase = .forking np false →
    Takes s (.forkParent p) ((s.set np { s.proc np with parent := some p }).setPhase p (.forking np true))
  | forkDone {p np : PPtr} : (s.proc p).phase = .forking np true →
    Takes s (.forkDone p) ((s.setPhase p .user).set np { s.proc np with state := .RUNNABLE, phase := .user })
  | exit {p : PPtr} : p ≠ initproc → (s.proc p).state = .RUNNING → (s.proc p).phase = .user →
    Takes s (.exit p) (s.exit p)
  | wait {p : PPtr} : (s.proc p).state = .RUNNING → Takes s (.wait p) (s.wait p)
  | sleep {p : PPtr} (addr : ℕ) : (s.proc p).state = .RUNNING →
    Takes s (.sleep p addr) (s.set p { s.proc p with state := .SLEEPING, chan := some (.other addr) })
  | wakeup (addr : ℕ) : Takes s (.wakeup addr) (s.wakeup1 (some (.other addr)))
  | kill {pid : BitVec 32} {q : PPtr} : s.killed? pid = some q →
    Takes s (.kill pid) (s.set q { s.proc q with
      killed := true
      struck := true
      state := if (s.proc q).state = .SLEEPING then .RUNNABLE else (s.proc q).state })
  | fatal {p : PPtr} : (s.proc p).state = .RUNNING →
    Takes s (.fatal p) (s.set p { s.proc p with killed := true, struck := true })

theorem takes_of_step {e : Event} (hstep : s.step e = .ok s') : Takes s e s' := by
  cases e with
  | run p =>
    cases hstep
    split
    · exact .run (by assumption)
    · exact .stay _
  | yield p =>
    cases hstep
    split
    · exact .yield (by assumption)
    · exact .stay _
  | allocproc p =>
    cases hstep
    split
    · exact .allocproc (And.left (by assumption))
    · exact .stay _
  | forkFails p | forkParent p | forkDone p =>
    rw [Table.step] at hstep
    split at hstep
    · rename_i hphase
      cases hstep
      first | exact .forkFails hphase | exact .forkParent hphase | exact .forkDone hphase
    · cases hstep
      exact .stay _
  | exit p =>
    rw [Table.step] at hstep
    split at hstep
    · rename_i hrun
      split at hstep
      · cases hstep
      · cases hstep
        exact .exit (by assumption) hrun.1 hrun.2
    · cases hstep
      exact .stay _
  | wait p =>
    cases hstep
    split
    · exact .wait (And.left (by assumption))
    · exact .stay _
  | sleep p addr =>
    cases hstep
    split
    · exact .sleep addr (And.left (by assumption))
    · exact .stay _
  | wakeup addr =>
    cases hstep
    exact .wakeup addr
  | kill pid =>
    cases hstep
    rw [Table.kill]
    split
    · exact .stay _
    · exact .kill (by assumption)
  | fatal p =>
    cases hstep
    split
    · exact .fatal (by assumption)
    · exact .stay _

end Xv6.Ptable
