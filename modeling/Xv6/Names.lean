import Mathlib.Data.List.FinRange
import Xv6.Lib.Threads
import Xv6.Machine

/-!
# Names, inodes and open files

The system calls of `sysfile.c`, with `fork`, `exit`, `wait` and `exec`, as far as they touch directories,
the inode cache, the file table and the tables of the processes.  A step is what happens under one spin
lock, or what a process does with an inode whose sleep lock it holds; any number of processes interleave.

The cached copy of an inode is written through by `iupdate` before its lock is given up, so one copy of it
is kept here.  Left out are the contents of regular files, `begin_op` and `end_op`, which only make a
process wait, and what `exec` and `fork` do with memory, which may or may not work.
-/

namespace Xv6.Names

open Threads (Prog)

/-- The inodes `mkfs` makes, `NINODES`.  0 marks an unused directory entry. -/
abbrev Inum := Fin 200

/-- An entry of `icache`. -/
abbrev IPtr := Fin 50

/-- An entry of `ftable`. -/
abbrev FPtr := Fin 100

/-- An entry of `ptable`. -/
abbrev PPtr := Fin 64

abbrev Fd := Fin 16

/-- At most `DIRSIZ` characters. -/
abbrev Name := List Char

def dot : Name := ['.']

def dotdot : Name := ['.', '.']

def rootIno : Inum := 1

/-- Entries of the tables are written as numbers. -/
local instance neZeroProcs : NeZero 64 := ⟨by decide⟩

local instance neZeroInodes : NeZero 50 := ⟨by decide⟩

/-- `initproc`, the process that `userinit` makes. -/
def initproc : PPtr := 0

inductive FileType where
  /-- 0, an inode that is not allocated. -/
  | free
  /-- `T_DIR`. -/
  | dir
  /-- `T_FILE`. -/
  | file
  /-- `T_DEV`. -/
  | dev
deriving DecidableEq, Repr

/-- An inode.  The data blocks hold fewer than `2 ^ 15` directory entries, so that `nlink` does not wrap
around. -/
structure Inode where
  type : FileType
  nlink : ℤ
  /-- The entries of a directory, in order. -/
  entries : List (Inum × Name)
deriving DecidableEq, Repr

/-- `struct inode`, without the copy of the inode. -/
structure Slot where
  inum : Inum
  ref : ℤ
  valid : Bool
  /-- The process that holds the sleep lock. -/
  lock : Option PPtr
deriving DecidableEq, Repr

inductive FileKind where
  | none
  | pipe
  | inode (ip : IPtr)
deriving DecidableEq, Repr

/-- `struct file`. -/
structure File where
  ref : ℤ
  kind : FileKind
  /-- Whether `createSwapFile` has allocated it.  Nothing reads it. -/
  swap : Bool
deriving DecidableEq, Repr

inductive Call where
  | open_ (path : List Char) (omode : ℕ)
  | close (fd : ℕ)
  | dup (fd : ℕ)
  | pipe
  | link (old new : List Char)
  | unlink (path : List Char)
  | mkdir (path : List Char)
  | mknod (path : List Char)
  | chdir (path : List Char)
  | exec (path : List Char)
  | fork
  | exit
  | wait (child : PPtr)
deriving DecidableEq, Repr

inductive ProcState where
  | unused
  | embryo
  /-- `RUNNABLE`, `RUNNING` or `SLEEPING`. -/
  | running
  | zombie
deriving DecidableEq, Repr

structure Proc where
  state : ProcState
  pid : ℕ
  ofile : Fd → Option FPtr
  cwd : Option IPtr
  swapFile : Option FPtr
  /-- The system call the process is in, or was last in.  Nothing reads it. -/
  call : Option Call

/-- The inodes, `icache` and `ftable`. -/
structure Store where
  inode : Inum → Inode
  icache : IPtr → Slot
  ftable : FPtr → File

structure Sys extends Store where
  proc : PPtr → Proc
  nextpid : ℕ

/-! ### Directories -/

namespace Inode

/-- The loop of `dirlookup`, over the entries from `off` on. -/
def lookupFrom (name : Name) : ℕ → List (Inum × Name) → Option (ℕ × Inum)
  | _, [] => none
  | off, e :: es => if e.1 ≠ 0 ∧ e.2 = name then some (off, e.1) else lookupFrom name (off + 1) es

/-- Where a name stands in a directory, and what it names. -/
def lookup (node : Inode) (name : Name) : Option (ℕ × Inum) := lookupFrom name 0 node.entries

/-- The first unused entry replaced, or an entry added at the end. -/
def insert (name : Name) (inum : Inum) : List (Inum × Name) → List (Inum × Name)
  | [] => [(inum, name)]
  | e :: es => if e.1 = 0 then (inum, name) :: es else e :: insert name inum es

/-- What `dirlink` writes. -/
def addEntry (node : Inode) (name : Name) (inum : Inum) : Inode :=
  { node with entries := insert name inum node.entries }

/-- What `sys_unlink` writes. -/
def clearEntry (node : Inode) (off : ℕ) : Inode :=
  { node with entries := node.entries.set off (0, []) }

def isdirempty (node : Inode) : Bool := (node.entries.drop 2).all fun e => e.1 == 0

/-- The entries of the largest directory, `MAXFILE * BSIZE / sizeof(struct dirent)`. -/
def maxEntries : ℕ := 140 * 512 / 16

end Inode

/-! ### Paths -/

/-- `skipelem`: the next element of a path, cut to `DIRSIZ` characters, and the rest. -/
def skipelem (path : List Char) : Option (Name × List Char) :=
  match path.dropWhile (· == '/') with
  | [] => none
  | c :: cs =>
    some (((c :: cs).takeWhile (· != '/')).take 14,
      ((c :: cs).dropWhile (· != '/')).dropWhile (· == '/'))

def elementsFuel : ℕ → List Char → List Name
  | 0, _ => []
  | fuel + 1, path =>
    match skipelem path with
    | none => []
    | some (name, rest) => name :: elementsFuel fuel rest

/-- The elements the loop of `namex` goes through: an element takes at least one character. -/
def elements (path : List Char) : List Name := elementsFuel path.length path

def swapPath (pid : ℕ) : List Char := ['/', '.', 's', 'w', 'a', 'p'] ++ Nat.toDigits 10 pid

/-! ### Operations on the inodes, the inode cache and the file table -/

inductive StoreOp where
  | iget (inum : Inum)
  | idup (ip : IPtr)
  /-- The test at the start of `ilock`. -/
  | checkRef (ip : IPtr)
  | acquiresleep (ip : IPtr)
  /-- The end of `ilock`, where the inode is read. -/
  | load (ip : IPtr)
  | iunlock (ip : IPtr)
  | releasesleep (ip : IPtr)
  /-- The tests of `iput`. -/
  | isLast (ip : IPtr)
  /-- `itrunc` and what follows in `iput`, up to `ip->valid = 0`. -/
  | ifree (ip : IPtr)
  /-- The end of `iput`. -/
  | decRef (ip : IPtr)
  /-- The contents of a locked inode. -/
  | peek (ip : IPtr)
  /-- `ip->nlink = 1`, with `iupdate`. -/
  | initNlink (ip : IPtr)
  /-- `ip->nlink++` or `ip->nlink--`, with `iupdate`. -/
  | addNlink (ip : IPtr) (up : Bool)
  /-- The end of `dirlink`: an entry for the inode `ip`. -/
  | addEntry (dp : IPtr) (name : Name) (ip : IPtr)
  | clearEntry (dp : IPtr) (off : ℕ)
  /-- One round of the loop of `ialloc`. -/
  | claim (inum : Inum) (type : FileType)
  | filealloc (swap : Bool)
  | filedup (f : FPtr)
  /-- `fileclose` up to the release of `ftable.lock`: what the file was, when this was the last
  reference. -/
  | fileclose (f : FPtr)
  | setFile (f : FPtr) (kind : FileKind)

@[reducible] def StoreOp.Res : StoreOp → Type
  | .iget _ => IPtr
  | .isLast _ => Bool
  | .peek _ => Inode
  | .claim _ _ => Bool
  | .filealloc _ => Option FPtr
  | .fileclose _ => Option FileKind
  | _ => Unit

namespace Store

/-- The contents of the inode a cache entry is for. -/
def node (s : Store) (ip : IPtr) : Inode := s.inode (s.icache ip).inum

def setInode (s : Store) (inum : Inum) (node : Inode) : Store :=
  { s with inode := Function.update s.inode inum node }

def setNode (s : Store) (ip : IPtr) (node : Inode) : Store := s.setInode (s.icache ip).inum node

def setSlot (s : Store) (ip : IPtr) (slot : Slot) : Store :=
  { s with icache := Function.update s.icache ip slot }

def setFile (s : Store) (f : FPtr) (file : File) : Store :=
  { s with ftable := Function.update s.ftable f file }

/-- `iget`: the cache entry of an inode, which may have to be recycled. -/
def iget (s : Store) (inum : Inum) : Except Halt (IPtr × Store) :=
  match (List.finRange 50).find? fun ip => 0 < (s.icache ip).ref ∧ (s.icache ip).inum = inum with
  | some ip => .ok (ip, s.setSlot ip { s.icache ip with ref := (s.icache ip).ref + 1 })
  | none =>
    match (List.finRange 50).find? fun ip => (s.icache ip).ref = 0 with
    | some ip => .ok (ip, s.setSlot ip { s.icache ip with inum := inum, ref := 1, valid := false })
    | none => .error (.panic "iget: no inodes")

/-- What an operation of the process `me` does; `none` when it has to wait. -/
def exec (s : Store) (me : PPtr) : (o : StoreOp) → Except Halt (Option (o.Res × Store))
  | .iget inum => do
    let (ip, s) ← s.iget inum
    return some (ip, s)
  | .idup ip => .ok (some ((), s.setSlot ip { s.icache ip with ref := (s.icache ip).ref + 1 }))
  | .checkRef ip => if (s.icache ip).ref < 1 then .error (.panic "ilock") else .ok (some ((), s))
  | .acquiresleep ip =>
    if (s.icache ip).lock = none then .ok (some ((), s.setSlot ip { s.icache ip with lock := some me }))
    else .ok none
  | .load ip =>
    if (s.icache ip).valid then .ok (some ((), s))
    else if (s.node ip).type = .free then .error (.panic "ilock: no type")
    else .ok (some ((), s.setSlot ip { s.icache ip with valid := true }))
  | .iunlock ip =>
    if (s.icache ip).lock ≠ some me ∨ (s.icache ip).ref < 1 then .error (.panic "iunlock")
    else .ok (some ((), s.setSlot ip { s.icache ip with lock := none }))
  | .releasesleep ip => .ok (some ((), s.setSlot ip { s.icache ip with lock := none }))
  | .isLast ip =>
    .ok (some (decide ((s.icache ip).valid = true ∧ (s.node ip).nlink = 0 ∧ (s.icache ip).ref = 1), s))
  | .ifree ip =>
    .ok (some ((), (s.setNode ip { s.node ip with type := .free, entries := [] }).setSlot ip
      { s.icache ip with valid := false }))
  | .decRef ip => .ok (some ((), s.setSlot ip { s.icache ip with ref := (s.icache ip).ref - 1 }))
  | .peek ip => .ok (some (s.node ip, s))
  | .initNlink ip => .ok (some ((), s.setNode ip { s.node ip with nlink := 1 }))
  | .addNlink ip up =>
    .ok (some ((), s.setNode ip { s.node ip with nlink := (s.node ip).nlink + if up then 1 else -1 }))
  | .addEntry dp name ip =>
    let node := (s.node dp).addEntry name (s.icache ip).inum
    if Inode.maxEntries < node.entries.length then .error (.panic "dirlink")
    else .ok (some ((), s.setNode dp node))
  | .clearEntry dp off => .ok (some ((), s.setNode dp ((s.node dp).clearEntry off)))
  | .claim inum type =>
    if (s.inode inum).type = .free then .ok (some (true, s.setInode inum ⟨type, 0, []⟩))
    else .ok (some (false, s))
  | .filealloc swap =>
    match (List.finRange 100).find? fun f => (s.ftable f).ref = 0 with
    | none => .ok (some (none, s))
    | some f => .ok (some (some f, s.setFile f { s.ftable f with ref := 1, swap := swap }))
  | .filedup f =>
    if (s.ftable f).ref < 1 then .error (.panic "filedup")
    else .ok (some ((), s.setFile f { s.ftable f with ref := (s.ftable f).ref + 1 }))
  | .fileclose f =>
    if (s.ftable f).ref < 1 then .error (.panic "fileclose")
    else if 0 < (s.ftable f).ref - 1 then
      .ok (some (none, s.setFile f { s.ftable f with ref := (s.ftable f).ref - 1 }))
    else .ok (some (some (s.ftable f).kind, s.setFile f { s.ftable f with ref := 0, kind := .none }))
  | .setFile f kind => .ok (some ((), s.setFile f { s.ftable f with kind := kind }))

end Store

/-! ### Operations on the processes -/

inductive ProcOp where
  /-- The tables of a process. -/
  | getProc (p : PPtr)
  | setOfile (p : PPtr) (fd : Fd) (f : Option FPtr)
  | setCwd (p : PPtr) (ip : Option IPtr)
  | setSwapFile (p : PPtr) (f : FPtr)
  | setState (p : PPtr) (state : ProcState)
  /-- `allocproc` up to the release of `ptable.lock`: the entry and the pid. -/
  | allocproc
  /-- What `wait` does with a child that has exited. -/
  | reap (p : PPtr)
  /-- Whether something works that is not modelled: `kalloc`, `copyuvm`. -/
  | chance
  | panic (msg : String)

@[reducible] def ProcOp.Res : ProcOp → Type
  | .getProc _ => Proc
  | .allocproc => Option (PPtr × ℕ)
  | .chance => Bool
  | .panic _ => Empty
  | _ => Unit

inductive Op where
  | store (o : StoreOp)
  | proc (o : ProcOp)

@[reducible] def Op.Res : Op → Type
  | .store o => o.Res
  | .proc o => o.Res

namespace Sys

def setProc (s : Sys) (p : PPtr) (q : Proc) : Sys := { s with proc := Function.update s.proc p q }

def execProc (s : Sys) (x : Bool) : (o : ProcOp) → Except Halt (Option (o.Res × Sys))
  | .getProc p => .ok (some (s.proc p, s))
  | .setOfile p fd f =>
    .ok (some ((), s.setProc p { s.proc p with ofile := Function.update (s.proc p).ofile fd f }))
  | .setCwd p ip => .ok (some ((), s.setProc p { s.proc p with cwd := ip }))
  | .setSwapFile p f => .ok (some ((), s.setProc p { s.proc p with swapFile := some f }))
  | .setState p state => .ok (some ((), s.setProc p { s.proc p with state := state }))
  | .allocproc =>
    match (List.finRange 64).find? fun p => (s.proc p).state = .unused with
    | none => .ok (some (none, s))
    | some p =>
      .ok (some (some (p, s.nextpid), { s.setProc p { s.proc p with state := .embryo, pid := s.nextpid } with
        nextpid := s.nextpid + 1 }))
  | .reap p =>
    if (s.proc p).state = .zombie then
      .ok (some ((), s.setProc p { s.proc p with state := .unused, pid := 0 }))
    else .ok (some ((), s))
  | .chance => .ok (some (x, s))
  | .panic msg => .error (.panic msg)

def exec (s : Sys) (me : PPtr) (x : Bool) : (o : Op) → Except Halt (Option (o.Res × Sys))
  | .store o =>
    match s.toStore.exec me o with
    | .error e => .error e
    | .ok none => .ok none
    | .ok (some (r, t)) => .ok (some (r, { s with toStore := t }))
  | .proc o => s.execProc x o

/-- A process that runs makes a call. -/
def enter (s : Sys) (me : PPtr) (c : Call) : Option Sys :=
  if (s.proc me).state = .running then some (s.setProc me { s.proc me with call := some c }) else none

end Sys

/-! ### Inodes -/

abbrev P := Prog Op Op.Res

/-- An operation on the inodes or the file table. -/
def store (o : StoreOp) : P o.Res := @Prog.perform Op Op.Res (.store o)

/-- An operation on the processes. -/
def proc (o : ProcOp) : P o.Res := @Prog.perform Op Op.Res (.proc o)

def panic {α : Type} (msg : String) : P α := do
  let r ← proc (.panic msg)
  nomatch r

/-- `if (b) p`. -/
def whenever (b : Bool) (p : P Unit) : P Unit := bif b then p else pure ()

def ilock (ip : IPtr) : P Unit := do
  store (.checkRef ip)
  store (.acquiresleep ip)
  store (.load ip)

def iput (ip : IPtr) : P Unit := do
  store (.acquiresleep ip)
  let last ← store (.isLast ip)
  whenever last (store (.ifree ip))
  store (.releasesleep ip)
  store (.decRef ip)

def iunlockput (ip : IPtr) : P Unit := do
  store (.iunlock ip)
  iput ip

def iallocLoop (type : FileType) : List Inum → P IPtr
  | [] => panic "ialloc: no inodes"
  | inum :: inums => do
    let claimed ← store (.claim inum type)
    if claimed then store (.iget inum) else iallocLoop type inums

def ialloc (type : FileType) : P IPtr := iallocLoop type ((List.finRange 200).drop 1)

/-- `dirlookup`: the inode and the place of its entry. -/
def dirlookup (dp : IPtr) (name : Name) : P (Option (IPtr × ℕ)) := do
  let node ← store (.peek dp)
  if node.type ≠ .dir then panic "dirlookup not DIR"
  else
    match node.lookup name with
    | none => pure none
    | some (off, inum) => do
      let ip ← store (.iget inum)
      pure (some (ip, off))

/-- `dirlink`: an entry for the inode `ip`.  `false` for the result -1. -/
def dirlink (dp : IPtr) (name : Name) (ip : IPtr) : P Bool := do
  match ← dirlookup dp name with
  | some (found, _) => do
    iput found
    pure false
  | none => do
    store (.addEntry dp name ip)
    pure true

/-- The loop of `namex`. -/
def walk (parent : Bool) : IPtr → List Name → P (Option (IPtr × Name))
  | ip, [] =>
    if parent then do
      iput ip
      pure none
    else pure (some (ip, []))
  | ip, name :: rest => do
    ilock ip
    let node ← store (.peek ip)
    if node.type ≠ .dir then do
      iunlockput ip
      pure none
    else if parent && rest.isEmpty then do
      -- Stop one level early.
      store (.iunlock ip)
      pure (some (ip, name))
    else
      match ← dirlookup ip name with
      | none => do
        iunlockput ip
        pure none
      | some (next, _) => do
        iunlockput ip
        walk parent next rest

def startDir (me : PPtr) (path : List Char) : P IPtr :=
  if path.head? = some '/' then store (.iget rootIno)
  else do
    let p ← proc (.getProc me)
    match p.cwd with
    | none => panic "trap"
    | some ip => do
      store (.idup ip)
      pure ip

def namex (me : PPtr) (path : List Char) (parent : Bool) : P (Option (IPtr × Name)) := do
  let ip ← startDir me path
  walk parent ip (elements path)

def namei (me : PPtr) (path : List Char) : P (Option (IPtr × Name)) := namex me path false

def nameiparent (me : PPtr) (path : List Char) : P (Option (IPtr × Name)) := namex me path true

/-! ### Files -/

/-- `fileclose`.  `pipeclose` touches nothing that is modelled. -/
def fileclose (f : FPtr) : P Unit := do
  match ← store (.fileclose f) with
  | some (.inode ip) => iput ip
  | _ => pure ()

/-- `fdalloc`, `none` for the result -1. -/
def fdalloc (me : PPtr) (f : FPtr) : P (Option Fd) := do
  let p ← proc (.getProc me)
  match (List.finRange 16).find? fun fd => (p.ofile fd).isNone with
  | none => pure none
  | some fd => do
    proc (.setOfile me fd (some f))
    pure (some fd)

/-- `argfd`: the descriptor and the file. -/
def argfd (me : PPtr) (n : ℕ) : P (Option (Fd × FPtr)) := do
  let p ← proc (.getProc me)
  if h : n < 16 then pure ((p.ofile ⟨n, h⟩).map fun f => (⟨n, h⟩, f)) else pure none

/-! ### System calls -/

def sysDup (me : PPtr) (n : ℕ) : P Unit := do
  match ← argfd me n with
  | none => pure ()
  | some (_, f) => do
    match ← fdalloc me f with
    | none => pure ()
    | some _ => store (.filedup f)

def sysClose (me : PPtr) (n : ℕ) : P Unit := do
  match ← argfd me n with
  | none => pure ()
  | some (fd, f) => do
    proc (.setOfile me fd none)
    fileclose f

/-- What follows `bad` in `sys_link`. -/
def linkBad (ip : IPtr) : P Unit := do
  ilock ip
  store (.addNlink ip false)
  iunlockput ip

def sysLink (me : PPtr) (old new : List Char) : P Unit := do
  match ← namei me old with
  | none => pure ()
  | some (ip, _) => do
    ilock ip
    let node ← store (.peek ip)
    if node.type = .dir then iunlockput ip
    else do
      store (.addNlink ip true)
      store (.iunlock ip)
      match ← nameiparent me new with
      | none => linkBad ip
      | some (dp, name) => do
        ilock dp
        let linked ← dirlink dp name ip
        if linked then do
          iunlockput dp
          iput ip
        else do
          iunlockput dp
          linkBad ip

/-- `sys_unlink`, which `removeSwapFile` repeats.  `false` for the result -1. -/
def unlink (me : PPtr) (path : List Char) : P Bool := do
  match ← nameiparent me path with
  | none => pure false
  | some (dp, name) => do
    ilock dp
    if name = dot ∨ name = dotdot then do
      iunlockput dp
      pure false
    else
      match ← dirlookup dp name with
      | none => do
        iunlockput dp
        pure false
      | some (ip, off) => do
        ilock ip
        let node ← store (.peek ip)
        if node.nlink < 1 then panic "unlink: nlink < 1"
        else if node.type = .dir ∧ node.isdirempty = false then do
          iunlockput ip
          iunlockput dp
          pure false
        else do
          store (.clearEntry dp off)
          whenever (node.type = .dir) (store (.addNlink dp false))
          iunlockput dp
          store (.addNlink ip false)
          iunlockput ip
          pure true

/-- The entries `.` and `..` that `create` gives to a directory. -/
def makeDots (dp ip : IPtr) : P Unit := do
  store (.addNlink dp true)
  let first ← dirlink ip dot ip
  if first then do
    let second ← dirlink ip dotdot dp
    if second then pure () else panic "create dots"
  else panic "create dots"

/-- `create`: the inode, locked. -/
def create (me : PPtr) (path : List Char) (type : FileType) : P (Option IPtr) := do
  match ← nameiparent me path with
  | none => pure none
  | some (dp, name) => do
    ilock dp
    match ← dirlookup dp name with
    | some (ip, _) => do
      iunlockput dp
      ilock ip
      let node ← store (.peek ip)
      if type = .file ∧ node.type = .file then pure (some ip)
      else do
        iunlockput ip
        pure none
    | none => do
      let ip ← ialloc type
      ilock ip
      store (.initNlink ip)
      whenever (type = .dir) (makeDots dp ip)
      let linked ← dirlink dp name ip
      if linked then do
        iunlockput dp
        pure (some ip)
      else panic "create: dirlink"

/-- `sys_open` from the call of `filealloc` on, with the inode locked. -/
def openFile (me : PPtr) (ip : IPtr) : P Unit := do
  match ← store (.filealloc false) with
  | none => iunlockput ip
  | some f => do
    match ← fdalloc me f with
    | none => do
      fileclose f
      iunlockput ip
    | some _ => do
      store (.iunlock ip)
      store (.setFile f (.inode ip))

/-- `sys_open`.  `O_CREATE` is 0x200, `O_RDONLY` is 0. -/
def sysOpen (me : PPtr) (path : List Char) (omode : ℕ) : P Unit :=
  if omode.testBit 9 then do
    match ← create me path .file with
    | none => pure ()
    | some ip => openFile me ip
  else do
    match ← namei me path with
    | none => pure ()
    | some (ip, _) => do
      ilock ip
      let node ← store (.peek ip)
      if node.type = .dir ∧ omode ≠ 0 then iunlockput ip else openFile me ip

/-- `sys_mkdir` and `sys_mknod`. -/
def sysMake (me : PPtr) (path : List Char) (type : FileType) : P Unit := do
  match ← create me path type with
  | none => pure ()
  | some ip => iunlockput ip

def sysChdir (me : PPtr) (path : List Char) : P Unit := do
  match ← namei me path with
  | none => pure ()
  | some (ip, _) => do
    ilock ip
    let node ← store (.peek ip)
    if node.type ≠ .dir then iunlockput ip
    else do
      store (.iunlock ip)
      let p ← proc (.getProc me)
      match p.cwd with
      | none => panic "trap"
      | some cwd => do
        iput cwd
        proc (.setCwd me (some ip))

/-- `exec`.  The inode is unlocked and put whether the program can be loaded or not. -/
def sysExec (me : PPtr) (path : List Char) : P Unit := do
  match ← namei me path with
  | none => pure ()
  | some (ip, _) => do
    ilock ip
    iunlockput ip

/-- What follows `bad` in `pipealloc`. -/
def pipeBad (f₀ f₁ : FPtr) : P Unit := do
  fileclose f₀
  fileclose f₁

def pipealloc : P (Option (FPtr × FPtr)) := do
  match ← store (.filealloc false) with
  | none => pure none
  | some f₀ => do
    match ← store (.filealloc false) with
    | none => do
      fileclose f₀
      pure none
    | some f₁ => do
      let page ← proc .chance
      if page then do
        store (.setFile f₀ .pipe)
        store (.setFile f₁ .pipe)
        pure (some (f₀, f₁))
      else do
        pipeBad f₀ f₁
        pure none

def sysPipe (me : PPtr) : P Unit := do
  match ← pipealloc with
  | none => pure ()
  | some (rf, wf) => do
    match ← fdalloc me rf with
    | none => pipeBad rf wf
    | some fd₀ => do
      match ← fdalloc me wf with
      | none => do
        proc (.setOfile me fd₀ none)
        pipeBad rf wf
      | some _ => pure ()

/-! ### Processes -/

def createSwapFile (me np : PPtr) (pid : ℕ) : P Unit := do
  match ← create me (swapPath pid) .file with
  | none => panic "iunlock"
  | some ip => do
    store (.iunlock ip)
    match ← store (.filealloc true) with
    | none => panic "no slot for files on /store"
    | some f => do
      proc (.setSwapFile np f)
      store (.setFile f (.inode ip))

/-- `removeSwapFile`, `false` for the result -1. -/
def removeSwapFile (me : PPtr) (p : Proc) : P Bool :=
  match p.swapFile with
  | none => pure false
  | some f => do
    fileclose f
    unlink me (swapPath p.pid)

def dupFiles (me np : PPtr) : List Fd → P Unit
  | [] => pure ()
  | fd :: fds => do
    let p ← proc (.getProc me)
    match p.ofile fd with
    | none => dupFiles me np fds
    | some f => do
      store (.filedup f)
      proc (.setOfile np fd (some f))
      dupFiles me np fds

/-- `fork` after `copyuvm`. -/
def forkFiles (me np : PPtr) : P Unit := do
  dupFiles me np (List.finRange 16)
  let p ← proc (.getProc me)
  match p.cwd with
  | none => panic "trap"
  | some ip => do
    store (.idup ip)
    proc (.setCwd np (some ip))
    proc (.setState np .running)

def fork (me : PPtr) : P Unit := do
  match ← proc .allocproc with
  | none => pure ()
  | some (np, pid) => do
    let kstack ← proc .chance
    if kstack then do
      whenever (2 < pid) (createSwapFile me np pid)
      let pgdir ← proc .chance
      if pgdir then forkFiles me np else proc (.setState np .unused)
    else proc (.setState np .unused)

def closeFiles (me : PPtr) : List Fd → P Unit
  | [] => pure ()
  | fd :: fds => do
    let p ← proc (.getProc me)
    match p.ofile fd with
    | none => closeFiles me fds
    | some f => do
      fileclose f
      proc (.setOfile me fd none)
      closeFiles me fds

/-- The end of `exit`. -/
def leave (me : PPtr) : P Unit := do
  let p ← proc (.getProc me)
  match p.cwd with
  | none => panic "trap"
  | some ip => do
    iput ip
    proc (.setCwd me none)
    proc (.setState me .zombie)

def exit (me : PPtr) : P Unit :=
  if me = initproc then panic "init exiting"
  else do
    closeFiles me (List.finRange 16)
    let p ← proc (.getProc me)
    if 2 < p.pid then do
      let removed ← removeSwapFile me p
      if removed then leave me else panic "exit ERROR: swap file wasn't deleted."
    else leave me

def body (me : PPtr) : Call → P Unit
  | .open_ path omode => sysOpen me path omode
  | .close fd => sysClose me fd
  | .dup fd => sysDup me fd
  | .pipe => sysPipe me
  | .link old new => sysLink me old new
  | .unlink path => do
    let _ ← unlink me path
    pure ()
  | .mkdir path => sysMake me path .dir
  | .mknod path => sysMake me path .dev
  | .chdir path => sysChdir me path
  | .exec path => sysExec me path
  | .fork => fork me
  | .exit => exit me
  | .wait child => proc (.reap child)

abbrev State := Threads.State Sys PPtr Op Op.Res

abbrev Event := Threads.Event PPtr Call

def step (s : State) (e : Event) : Except Halt State := Threads.step Sys.exec Sys.enter body s e

/-! ### Start -/

/-- The system after `userinit`: one process, in the root directory. -/
def boot (inode : Inum → Inode) : State where
  shared :=
    { inode := inode
      icache := fun ip => if ip = 0 then ⟨rootIno, 1, false, none⟩ else ⟨0, 0, false, none⟩
      ftable := fun _ => ⟨0, .none, false⟩
      proc := fun p =>
        if p = initproc then ⟨.running, 1, fun _ => none, some 0, none, none⟩
        else ⟨.unused, 0, fun _ => none, none, none, none⟩
      nextpid := 2 }
  prog := fun _ => .ret ()

end Xv6.Names
