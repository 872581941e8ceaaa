import Xv6.Exec
import Xv6.Sbrk

/-!
# `exec` as a system call

`exec` with everything it does to its caller: the name and the registers of the trap frame it sets,
the file-system operation it brackets its work in, and the reference to and the lock on the program's
inode.  The outcomes of `kalloc` are given from outside, as for `growproc`; with every call granted
the memory is left as by `Machine.exec`.
-/

namespace Xv6

open Machine

/-- What `exec` uses of its caller besides its memory. -/
structure Caller where
  name : List Byte
  eip : ℕ
  esp : ℕ
  /-- File-system operations that were begun and not ended. -/
  ops : ℤ
  /-- References to the program's inode. -/
  ref : ℕ
  /-- Whether the process holds the lock of that inode. -/
  locked : Bool

namespace Caller

def beginOp (c : Caller) : Caller := { c with ops := c.ops + 1 }

def endOp (c : Caller) : Caller := { c with ops := c.ops - 1 }

/-- `namei` finds the program. -/
def namei (c : Caller) : Caller := { c with ref := c.ref + 1 }

/-- `ilock`; a process that holds the lock waits for itself. -/
def ilock (c : Caller) : Except Halt Caller :=
  if c.ref < 1 then .error (.panic "ilock")
  else if c.locked then .error .livelock
  else .ok { c with locked := true }

def iunlock (c : Caller) : Except Halt Caller :=
  if c.locked = false ∨ c.ref < 1 then .error (.panic "iunlock")
  else .ok { c with locked := false }

def iunlockput (c : Caller) : Except Halt Caller := do
  let c ← c.iunlock
  return { c with ref := c.ref - 1 }

end Caller

/-- The outcomes for the pages from number `k` on. -/
def Supply.after (s : Supply) (k : ℕ) : Supply := ⟨fun i => s.page (k + i), fun i => s.table (k + i)⟩

/-- The program's name for the caller: what follows the last slash, cut to the size of the field. -/
def progName (path : List Byte) : List Byte :=
  ((path.reverse.takeWhile (· ≠ 0x2F)).reverse).take 15

/-- The ELF header is there and has the magic number. -/
def File.isElf (ip : File) : Bool := decide (ip.readi 0 52 = some 52) && decide (ip.u32 0 = elfMagic)

namespace Machine

/-- The loop of `exec` over the program headers; `none` is the jump to `bad`. -/
def loadSegmentsFrom (s : Supply) (sel : Selection) (ip : File) (pgdir : ℕ) :
    ℕ → ℕ → ℕ → Machine → Except Halt (Option ℕ × Machine)
  | 0, _, sz, m => .ok (some sz, m)
  | count + 1, off, sz, m =>
    if ip.readi off 32 ≠ some 32 then .ok (none, m)
    else
      let ph := ip.progHdr off
      let next := (off + 32) % 0x100000000
      if ph.type ≠ 1 then loadSegmentsFrom s sel ip pgdir count next sz m
      else if ph.memsz < ph.filesz then .ok (none, m)
      else if 0x100000000 ≤ ph.vaddr + ph.memsz then .ok (none, m)
      else do
        let (sz, m) ← m.allocuvmFrom (s.after (pagesOf sz)) sel pgdir sz (ph.vaddr + ph.memsz)
        if sz = 0 then return (none, m)
        else if ph.vaddr % 4096 ≠ 0 then return (none, m)
        else do
          let (ok, m) ← m.loaduvm pgdir ph.vaddr ip ph.off ph.filesz
          if ok then loadSegmentsFrom s sel ip pgdir count next sz m else return (none, m)

/-- The words of `ustack`, for the pushed addresses in reverse order. -/
def ustack (sp : ℕ) (pushed : List ℕ) : List ℕ :=
  [0xFFFFFFFF, pushed.length, (sp + 0x100000000 - (pushed.length + 1) * 4) % 0x100000000] ++
    pushed.reverse ++ [0]

/-- The arguments and `ustack` on the stack: the stack pointer, `none` for the jump to `bad`. -/
def pushStackAt (m : Machine) (pgdir sz : ℕ) (argv : List (List Byte)) :
    Except Halt (Option ℕ × Machine) := do
  let (r, m) ← pushArgs pgdir argv sz [] m
  match r with
  | none => return (none, m)
  | some (sp, pushed) => do
    let esp := (sp + 0x100000000 - (3 + pushed.length + 1) * 4) % 0x100000000
    let (ok, m) ← m.copyout pgdir esp ((ustack sp pushed).flatMap wordBytes)
    return (if ok then some esp else none, m)

/-- The guard page and the stack: the size of the image and the stack pointer, `none` for the jump to
`bad`. -/
def stackFrom (s : Supply) (sel : Selection) (m : Machine) (pgdir sz : ℕ) (argv : List (List Byte)) :
    Except Halt (Option (ℕ × ℕ) × Machine) := do
  let (sz, m) ← m.allocuvmFrom (s.after (pagesOf sz)) sel pgdir sz ((sz + 8192) % 0x100000000)
  if sz = 0 then return (none, m)
  else do
    let m ← m.clearpteu pgdir (sz - 8192)
    let (sp, m) ← m.pushStackAt pgdir sz argv
    return (sp.map fun sp => (sz, sp), m)

/-- The code at `bad`, with the new directory if there is one, and with the inode if it has not been
released yet. -/
def execBad (sel : Selection) (pgdir : Option ℕ) (opened : Bool) (c : Caller) (m : Machine) :
    Except Halt (Bool × Caller × Machine) := do
  let m ← pgdir.elim (.ok m) fun d => m.freevm sel d
  let c ← if opened then c.iunlockput.map Caller.endOp else .ok c
  return (false, c, m)

/-- The commit: the old image is given back, and the caller's name and registers are set. -/
def execCommit (sel : Selection) (path : List Byte) (ip : File) (pgdir sz sp : ℕ) (c : Caller)
    (m : Machine) : Except Halt (Bool × Caller × Machine) := do
  let m ← (m.setProc (commit m.proc pgdir sz)).freevm sel m.proc.pgdir
  return (true, { c with name := progName path, eip := ip.u32 24, esp := sp }, m)

/-- `exec` of the file `ip` that `namei` found for `path`, if any; `false` is the result -1. -/
def execFrom (s : Supply) (sel : Selection) (c : Caller) (m : Machine) (path : List Byte)
    (ip : Option File) (argv : List (List Byte)) : Except Halt (Bool × Caller × Machine) :=
  match ip with
  | none => .ok (false, c.beginOp.endOp, m)
  | some ip => do
    let c ← c.beginOp.namei.ilock
    if ip.isElf = false then m.execBad sel none true c
    else do
      let (d, m) ← m.setupkvm sel
      match d with
      | none => m.execBad sel none true c
      | some pgdir => do
        let (sz, m) ← loadSegmentsFrom s sel ip pgdir (ip.u16 44) (ip.u32 28) 0 m
        match sz with
        | none => m.execBad sel (some pgdir) true c
        | some sz => do
          let c ← c.iunlockput.map Caller.endOp
          let (r, m) ← m.stackFrom s sel pgdir (pgRoundUp sz) argv
          match r with
          | none => m.execBad sel (some pgdir) false c
          | some (sz, sp) => m.execCommit sel path ip pgdir sz sp c

end Machine

/-! ### With every call granted -/

theorem plenty_after (k : ℕ) : Supply.plenty.after k = .plenty := rfl

section

variable {sel : Selection} {m m₁ : Machine} {pgdir sz : ℕ} {ip : File}

end

/-- The caller once `exec` has found and locked the program. -/
def Caller.opened (c : Caller) : Caller :=
  { c with ops := c.ops + 1, ref := c.ref + 1, locked := true }

theorem Caller.ilock_of_locked {c : Caller} (h : c.locked = true) :
    c.beginOp.namei.ilock = .error .livelock := by
  have href : ¬ c.beginOp.namei.ref < 1 := Nat.not_lt.2 (Nat.le_add_left 1 c.ref)
  have hlocked : c.beginOp.namei.locked = true := h
  rw [Caller.ilock, if_neg href, if_pos hlocked]

theorem Caller.ilock_eq {c : Caller} (h : c.locked = false) :
    c.beginOp.namei.ilock = .ok c.opened := by
  have href : ¬ c.beginOp.namei.ref < 1 := Nat.not_lt.2 (Nat.le_add_left 1 c.ref)
  have hlocked : ¬ c.beginOp.namei.locked = true := Bool.eq_false_iff.1 h
  rw [Caller.ilock, if_neg href, if_neg hlocked]
  rfl

theorem Caller.release_eq {c : Caller} (h : c.locked = false) :
    c.opened.iunlockput.map Caller.endOp = .ok c := by
  have hcond : ¬ (c.opened.locked = false ∨ c.opened.ref < 1) := by
    simp [Caller.opened]
  rw [Caller.iunlockput, Caller.iunlock, if_neg hcond]
  show Except.ok _ = Except.ok c
  simp [Caller.opened, Caller.endOp, ← h]

/-- `bad` leaves the caller as it came, and gives back the directory. -/
theorem execBad_eq {sel : Selection} {c : Caller} (hc : c.locked = false) (pgdir : Option ℕ)
    (opened : Bool) (m : Machine) :
    m.execBad sel pgdir opened (if opened then c.opened else c) =
      (pgdir.elim (.ok m) fun d => m.freevm sel d).map fun m => (false, c, m) := by
  rw [execBad]
  cases pgdir.elim (.ok m) fun d => m.freevm sel d with
  | error e => rfl
  | ok m' =>
    cases opened with
    | true =>
      show (c.opened.iunlockput.map Caller.endOp >>= fun c => pure (false, c, m')) = _
      rw [Caller.release_eq hc]
      rfl
    | false => rfl

/-- The page tables of `d`, and the frames that can become page tables, are frames `kfree` takes. -/
structure Tabled (d : ℕ) (m : Machine) : Prop where
  free : ∀ f ∈ m.freelist, m.kend ≤ f ∧ f < phystopFrame
  table : ∀ i t, m.dirs d i = some t → m.kend ≤ t.frame ∧ t.frame < phystopFrame

section

variable {sel : Selection} {d : ℕ} {m m' : Machine}

theorem Tabled.congr (h : Tabled d m) (hk : m'.kend = m.kend) (hf : ∀ f ∈ m'.freelist, f ∈ m.freelist)
    (hd : m'.dirs d = m.dirs d) : Tabled d m' := by
  refine ⟨fun f hf' => ?_, fun i t ht => ?_⟩
  · rw [hk]
    exact h.free f (hf f hf')
  · rw [hk]
    exact h.table i t (by rw [← hd]; exact ht)

theorem Tabled.setPte (h : Tabled d m) (a : ℕ) (pte : Pte) : Tabled d (m.setPte d a pte) := by
  refine ⟨h.free, fun i t ht => ?_⟩
  obtain ⟨u, hu, hframe⟩ := frame_of_store ht
  rw [← hframe]
  exact h.table i u hu

theorem Tabled.walkpgdirAlloc {a : ℕ} (h : Tabled d m) (hrun : m.walkpgdirAlloc d a = some m') :
    Tabled d m' := by
  obtain ⟨-, rfl⟩ | ⟨-, g, rest, hf, rfl⟩ := walkpgdirAlloc_cases hrun
  · exact h
  have hmem : ∀ f ∈ rest, f ∈ m.freelist := fun f hf' => by
    rw [hf]
    exact List.mem_cons_of_mem g hf'
  refine ⟨fun f hf' => h.free f (hmem f hf'), fun i t ht => ?_⟩
  replace ht : addTable m.dirs d a g d i = some t := ht
  rw [addTable, Function.update_self] at ht
  by_cases hi : i = pdx a
  · subst hi
    rw [Function.update_self, Option.some.injEq] at ht
    subst ht
    exact h.free g (by rw [hf]; exact List.mem_cons_self)
  · rw [Function.update_of_ne hi] at ht
    exact h.table i t ht

theorem Tabled.mapLoop {perm : Pte} {ok : Bool} (count : ℕ) {a f : ℕ} {m : Machine} (h : Tabled d m)
    (hrun : mapLoop d perm count a f m = .ok (ok, m')) : Tabled d m' := by
  induction count generalizing a f m with
  | zero =>
    cases hrun
    exact h
  | succ count ih =>
    rw [Machine.mapLoop] at hrun
    split at hrun
    · cases hrun
      exact h
    · rename_i m₁ halloc
      split at hrun
      · cases hrun
      · split at hrun
        · cases hrun
        · exact ih ((h.walkpgdirAlloc halloc).setPte _ _) hrun

theorem tabled_of_setupkvm (hlayout : 0x100 < m.kdata ∧ m.kdata < phystopFrame) (h : FramesOk m)
    (hrun : m.setupkvm sel = .ok (some d, m')) : Tabled d m' ∧ m'.kend ≤ d ∧ d < phystopFrame := by
  obtain ⟨rest, hf, hx, -⟩ := setupkvm_ok sel hlayout hrun
  rw [Machine.setupkvm, kalloc, hf] at hrun
  have hstart : Tabled d (m.emptyDir d rest) := by
    refine ⟨fun f hf' => h.valid f (by rw [hf]; exact List.mem_cons_of_mem d hf'), fun i t ht => ?_⟩
    have hnone : (m.emptyDir d rest).dirs d i = none := by simp [emptyDir]
    rw [hnone] at ht
    cases ht
  obtain ⟨-, htabled⟩ | ⟨hr, -⟩ := kmapLoop_induct (P := Tabled d) (kmap_ascending hlayout) le_rfl hrun hstart
    fun _ count _ _ _ _ _ _ _ _ _ _ hmap h => h.mapLoop count hmap
  swap
  · cases hr
  refine ⟨htabled, ?_⟩
  rw [hx.same]
  exact h.valid d (by rw [hf]; exact List.mem_cons_self)

theorem Freeable.of_tabled (h : FramesOk m) (ht : Tabled d m) (hd : m.kend ≤ d ∧ d < phystopFrame) :
    Freeable d m := by
  refine ⟨h.kend_pos, fun a pte hwalk ha hp => ?_, ht.table, hd⟩
  have hv : a / 4096 < userPages := by
    simp only [kernBase, userPages] at *
    omega
  rw [walkpgdir, walk_page] at hwalk
  obtain rfl := entry_of_walk hwalk
  exact h.frame_valid hv hp

end

end Xv6
