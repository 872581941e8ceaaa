import Xv6.Lifecycle

/-!
# The process table

All processes together: the memory they share, the process table with the monitors of every entry,
and the system calls and faults of one process after the other.  A step of process `i` runs on the
memory with `i` as `myproc()`.
-/

namespace Xv6

open Machine

/-- The states of an entry of the process table between the steps of processes. -/
inductive ProcState where
  | UNUSED
  | RUNNABLE
  | ZOMBIE
deriving DecidableEq, Repr

/-- An entry of `ptable`. -/
structure PEntry where
  state : ProcState
  proc : Proc
  kstack : ℕ
  parent : Option (Fin 64)

/-- What a process can ask of the kernel, or make it do by touching memory. -/
inductive Call where
  | sbrk (n : Int)
  | load (va : BitVec 32)
  | store (va : BitVec 32) (b : Byte)
  /-- `replace_page_by_policy` on its own. -/
  | select
  | turnFlag (va : BitVec 32) (flag : Pte) (on : Bool)
  | isFlagOn (va : BitVec 32) (flag : Pte)
  | updateProtectedPages (up : Bool)
  | exec (ip : Option File) (argv : List (List Byte))
  | fork
  | exit
  | wait

/-- Whether a process marked killed still gets to it. -/
def Call.isExit : Call → Bool
  | .exit => true
  | _ => false

def Proc.updateProtectedPages (p : Proc) (up : Bool) : Proc :=
  { p with protectedPages := if up then p.protectedPages + 1 else p.protectedPages - 1 }

/-- What `wait` leaves of a zombie. -/
def Proc.reap (p : Proc) : Proc :=
  { p with
    pid := 0
    killed := false
    swapMonitor := fun i => { p.swapMonitor i with used := false }
    ramMonitor := fun i => { p.ramMonitor i with used := false } }

structure Sys where
  /-- The memory; its `proc` is the process that ran last. -/
  mem : Machine
  table : Fin 64 → PEntry
  initproc : Fin 64
  nextpid : ℕ

namespace Sys

def as (s : Sys) (i : Fin 64) : Machine := s.mem.as (s.table i).proc

def put (s : Sys) (i : Fin 64) (m : Machine) : Sys :=
  { s with mem := m, table := Function.update s.table i { s.table i with proc := m.proc } }

def setEntry (s : Sys) (j : Fin 64) (e : PEntry) : Sys :=
  { s with table := Function.update s.table j e }

def unused (s : Sys) : Option (Fin 64) :=
  (List.finRange 64).find? fun j => (s.table j).state = .UNUSED

def zombie (s : Sys) (i : Fin 64) : Option (Fin 64) :=
  (List.finRange 64).find? fun j => (s.table j).parent = some i ∧ (s.table j).state = .ZOMBIE

/-- The entry `j` after a `fork` that found it and failed: without a kernel stack `allocproc` itself
gives up, otherwise `copyuvm` did. -/
def failedChild (s : Sys) (j : Fin 64) : PEntry :=
  { s.table j with
    proc := if s.mem.freelist = [] then { (s.table j).proc with pid := s.nextpid }
      else { (s.table j).proc.fresh s.nextpid with pgdir := 0 }
    kstack := 0 }

/-- The entry `j` after a `fork` by process `i` that found it. -/
def childEntry (s : Sys) (i j : Fin 64) : Option Proc → PEntry
  | none => s.failedChild j
  | some c => ⟨.RUNNABLE, c, s.mem.freelist.headD 0, some i⟩

def fork (sel : Selection) (s : Sys) (i : Fin 64) : Except Halt Sys :=
  match s.unused with
  | none => .ok s
  | some j => do
    let (child, m) ← (s.as i).fork sel (some (s.table j).proc) s.nextpid
    return { (s.put i m).setEntry j (s.childEntry i j child) with nextpid := s.nextpid + 1 }

/-- `exit` by process `i`: its children become children of `init`. -/
def exit (s : Sys) (i : Fin 64) : Except Halt Sys :=
  if i = s.initproc then .error (.panic "init exiting")
  else .ok { s with table := fun j =>
    let e := s.table j
    { e with
      state := if j = i then .ZOMBIE else e.state
      parent := if e.parent = some i then some s.initproc else e.parent } }

/-- `wait` by process `i`, as far as it changes anything. -/
def wait (sel : Selection) (s : Sys) (i : Fin 64) : Except Halt Sys :=
  match s.zombie i with
  | none => .ok s
  | some j => do
    let m ← (s.as i).kfree (s.table j).kstack
    let m ← m.freevm sel (s.table j).proc.pgdir
    return (s.put i m).setEntry j ⟨.UNUSED, (s.table j).proc.reap, 0, none⟩

def call (sel : Selection) (s : Sys) (i : Fin 64) : Call → Except Halt Sys
  | .sbrk n => do
    let (_, m) ← (s.as i).growproc sel n
    return s.put i m
  | .load va => do
    let (_, m) ← (s.as i).load sel va.toNat
    return s.put i m
  | .store va b => do
    let m ← (s.as i).storeByte sel va.toNat b
    return s.put i m
  | .select => do
    let (_, m) ← (s.as i).replacePageByPolicy sel
    return s.put i m
  | .turnFlag va flag on => do
    let m ← (s.as i).turnFlag va.toNat flag on
    return s.put i m
  | .isFlagOn va flag => do
    let _ ← (s.as i).isFlagOn va.toNat flag
    return s
  | .updateProtectedPages up =>
    .ok (s.put i ((s.as i).setProc ((s.table i).proc.updateProtectedPages up)))
  | .exec ip argv => do
    let (_, m) ← (s.as i).exec sel ip argv
    return s.put i m
  | .fork => s.fork sel i
  | .exit => s.exit i
  | .wait => s.wait sel i

def procdump (s : Sys) : Sys :=
  { s with table := fun j =>
      let e := s.table j
      if e.state = .UNUSED then e else { e with proc := { e.proc with protectedPages := 0 } } }

inductive Event where
  | call (i : Fin 64) (c : Call)
  | procdump

/-- A process that is not runnable takes no step, and one that was killed only exits. -/
def step (sel : Selection) (s : Sys) : Event → Except Halt Sys
  | .call i c =>
    if (s.table i).state = .RUNNABLE ∧ ((s.table i).proc.killed = false ∨ c.isExit) then
      s.call sel i c
    else .ok s
  | .procdump => .ok s.procdump

end Sys

end Xv6
