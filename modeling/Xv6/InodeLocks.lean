import Mathlib.Data.Set.Insert
import Xv6.Names

/-!
# Sleep locks of inodes

Every system call of `Names` takes the sleep lock of an inode before it looks at the inode, and gives back
all its locks on each of its ways out.  Locks of other processes do not change under it, so both hold for
any number of processes and any order of their steps.
-/

namespace Xv6.Names

open Threads (Obeys Obeying obeys_bind)

/-- The operations that ask for the sleep lock of an inode; `ialloc` claims a free one without it. -/
def Needs (H : Set IPtr) : Op → Prop
  | .store (.load ip) | .store (.iunlock ip) | .store (.releasesleep ip) | .store (.isLast ip)
  | .store (.ifree ip) | .store (.peek ip) | .store (.initNlink ip) | .store (.addNlink ip _)
  | .store (.addEntry ip _ _) | .store (.clearEntry ip _) => ip ∈ H
  | _ => True

/-- The locks a process has after an operation. -/
def After (H : Set IPtr) : Op → Set IPtr → Prop
  | .store (.acquiresleep ip), H' => ip ∉ H ∧ H' = insert ip H
  | .store (.iunlock ip), H' | .store (.releasesleep ip), H' => H' = H \ {ip}
  | _, H' => H' = H

abbrev Locked {α : Type} (p : P α) (H : Set IPtr) (Q : α → Set IPtr → Prop) : Prop :=
  Obeys Needs After p H Q

/-- The program ends with the locks it started with. -/
def Neutral {α : Type} (p : P α) : Prop :=
  ∀ (H : Set IPtr) (Q : α → Set IPtr → Prop), (∀ a, Q a H) → Locked p H Q

section Programs

attribute [local simp] store proc Threads.Prog.perform Needs After Op.Res StoreOp.Res ProcOp.Res
  Unique.forall_iff

variable {α β : Type} {me np : PPtr} {ip dp : IPtr} {f : FPtr} {path : List Char} {name : Name}
  {H : Set IPtr} {Q : α → Set IPtr → Prop} {R : Unit → Set IPtr → Prop}

/-! ### Rules -/

@[simp] theorem locked_panic {msg : String} : Locked (panic msg) H Q := by
  simp [panic]

@[simp] theorem locked_whenever {b : Bool} {p : P Unit} :
    Locked (whenever b p) H R ↔ if b then Locked p H R else R () H := by
  cases b <;> rfl

@[simp] theorem locked_ite {c : Prop} [Decidable c] {p q : P α} :
    Locked (if c then p else q) H Q ↔ if c then Locked p H Q else Locked q H Q := by
  split_ifs <;> rfl

@[simp] theorem locked_ilock : Locked (ilock ip) H R ↔ (ip ∉ H → R () (insert ip H)) := by
  simp [ilock]

@[simp] theorem locked_iput : Locked (iput ip) H R ↔ (ip ∉ H → R () H) := by
  simp +contextual [iput]

@[simp] theorem locked_iunlockput : Locked (iunlockput ip) H R ↔ ip ∈ H ∧ R () (H \ {ip}) := by
  simp [iunlockput]

@[simp] theorem unlock_first (hdp : dp ∉ H) (hip : ip ≠ dp) :
    insert ip (insert dp H) \ {dp} = insert ip H := by
  rw [← Set.insert_sdiff_singleton_comm hip, Set.insert_sdiff_self_of_notMem hdp]

@[grind ←]
theorem Neutral.bind {p : P α} {f : α → P β} (hp : Neutral p) (hf : ∀ a, Neutral (f a)) :
    Neutral (p >>= f) := fun H Q hQ => obeys_bind.2 (hp H _ fun a => hf a H Q hQ)

theorem Neutral.option {f : Option α → P β} (hnone : Neutral (f none)) (hsome : ∀ a, Neutral (f (some a)))
    (a : Option α) : Neutral (f a) := by
  cases a with
  | none => exact hnone
  | some a => exact hsome a

@[grind ←]
theorem neutral_pure (a : α) : Neutral (pure a : P α) := fun _ _ hQ => hQ a

@[grind ←]
theorem neutral_panic (msg : String) : Neutral (panic msg : P α) := fun _ _ _ => locked_panic

@[grind ←]
theorem neutral_proc (o : ProcOp) : Neutral (proc o) := fun _ _ hQ => ⟨trivial, fun r _ hr => hr ▸ hQ r⟩

/-- An operation that leaves the locks alone. -/
theorem neutral_store {o : StoreOp} (h : ∀ H, Needs H (.store o))
    (hkeep : ∀ H H', After H (.store o) H' → H' = H) : Neutral (store o) :=
  fun H _ hQ => ⟨h H, fun r _ hr => hkeep H _ hr ▸ hQ r⟩

@[grind ←]
theorem neutral_filealloc (swap : Bool) : Neutral (store (.filealloc swap)) :=
  neutral_store (fun _ => trivial) fun _ _ => id

@[grind ←]
theorem neutral_filedup : Neutral (store (.filedup f)) := neutral_store (fun _ => trivial) fun _ _ => id

@[grind ←]
theorem neutral_setFile (kind : FileKind) : Neutral (store (.setFile f kind)) :=
  neutral_store (fun _ => trivial) fun _ _ => id

@[grind ←]
theorem neutral_idup : Neutral (store (.idup ip)) := neutral_store (fun _ => trivial) fun _ _ => id

@[grind ←]
theorem neutral_iput : Neutral (iput ip) := fun _ _ hQ => locked_iput.2 fun _ => hQ ()

/-! ### Files and processes -/

@[grind ←]
theorem neutral_fileclose : Neutral (fileclose f) := by
  refine .bind (neutral_store (fun _ => trivial) fun _ _ => id) fun kind => ?_
  split <;> grind

@[grind ←]
theorem neutral_fdalloc : Neutral (fdalloc me f) := by
  unfold fdalloc
  grind

@[grind ←]
theorem neutral_argfd (n : ℕ) : Neutral (argfd me n) := by
  unfold argfd
  grind

theorem neutral_sysDup (n : ℕ) : Neutral (sysDup me n) := by
  unfold sysDup
  grind

theorem neutral_sysClose (n : ℕ) : Neutral (sysClose me n) := by
  unfold sysClose
  grind

@[grind ←]
theorem neutral_pipeBad (f₀ f₁ : FPtr) : Neutral (pipeBad f₀ f₁) := by
  unfold pipeBad
  grind

theorem neutral_pipealloc : Neutral pipealloc := by
  refine .bind (neutral_filealloc _) (.option (neutral_pure _) fun f₀ => ?_)
  refine .bind (neutral_filealloc _) (.option ?_ fun f₁ => ?_) <;> grind

theorem neutral_sysPipe : Neutral (sysPipe me) := by
  refine .bind neutral_pipealloc (.option (neutral_pure _) fun ⟨rf, wf⟩ => ?_)
  grind

@[grind ←]
theorem neutral_dupFiles (fds : List Fd) : Neutral (dupFiles me np fds) := by
  induction fds <;> grind [dupFiles]

@[grind ←]
theorem neutral_closeFiles (fds : List Fd) : Neutral (closeFiles me fds) := by
  induction fds <;> grind [closeFiles]

theorem neutral_forkFiles : Neutral (forkFiles me np) := by
  unfold forkFiles
  grind

theorem neutral_leave : Neutral (leave me) := by
  unfold leave
  grind

/-! ### Directories -/

theorem neutral_ialloc (type : FileType) : Neutral (ialloc type) := by
  unfold ialloc
  generalize (List.finRange 200).drop 1 = l
  induction l with
  | nil => exact neutral_panic _
  | cons inum l ih =>
    intro H Q hQ
    simpa [iallocLoop, hQ] using ih H Q hQ

theorem locked_peek {Q : Inode → Set IPtr → Prop} (h : ip ∈ H) (hQ : ∀ node, Q node H) :
    Locked (store (.peek ip)) H Q := ⟨h, fun _ _ hr => hr ▸ hQ _⟩

theorem locked_ilock_peek {p : Inode → P α} (h : ip ∉ H → ∀ node, Locked (p node) (insert ip H) Q) :
    Locked (do ilock ip; let node ← store (.peek ip); p node) H Q := by
  simp only [obeys_bind, locked_ilock]
  exact fun hip => locked_peek (Set.mem_insert _ _) (h hip)

theorem locked_dirlookup {Q : Option (IPtr × ℕ) → Set IPtr → Prop} (h : dp ∈ H) (hQ : ∀ a, Q a H) :
    Locked (dirlookup dp name) H Q := by
  simp only [dirlookup, obeys_bind]
  refine locked_peek h fun node => ?_
  split_ifs
  · exact locked_panic
  · split <;> simp [hQ]

theorem locked_dirlink {Q : Bool → Set IPtr → Prop} (h : dp ∈ H) (hQ : ∀ a, Q a H) :
    Locked (dirlink dp name ip) H Q := by
  simp only [dirlink, obeys_bind]
  refine locked_dirlookup h fun a => ?_
  rcases a with _ | ⟨found, off⟩ <;> simp [h, hQ]

@[grind ←]
theorem neutral_walk (parent : Bool) (ip : IPtr) (names : List Name) : Neutral (walk parent ip names) := by
  intro H Q hQ
  induction names generalizing ip with
  | nil => cases parent <;> simp [walk, hQ]
  | cons name rest ih =>
    refine locked_ilock_peek fun hip node => ?_
    split_ifs
    · simp [hip, hQ]
    · simp [hip, hQ]
    · simp only [obeys_bind]
      refine locked_dirlookup (Set.mem_insert _ _) fun a => ?_
      rcases a with _ | ⟨next, off⟩
      · simp [hip, hQ]
      · simpa [hip] using ih next

theorem neutral_namex (parent : Bool) : Neutral (namex me path parent) := by
  refine .bind ?_ fun ip => neutral_walk _ _ _
  unfold startDir
  split_ifs
  · exact neutral_store (fun _ => trivial) fun _ _ => id
  · grind

/-! ### System calls -/

theorem neutral_linkBad : Neutral (linkBad ip) := by
  intro H Q hQ
  simp +contextual [linkBad, hQ]

theorem neutral_sysLink (old new : List Char) : Neutral (sysLink me old new) := by
  refine .bind (neutral_namex _) (.option (neutral_pure _) fun ⟨ip, name⟩ H Q hQ => ?_)
  refine locked_ilock_peek fun hip node => ?_
  split_ifs
  · simp [hip, hQ]
  simp [hip]
  refine neutral_namex _ _ _ fun a => ?_
  rcases a with _ | ⟨dp, name⟩
  · exact neutral_linkBad _ _ hQ
  simp only [obeys_bind, locked_ilock]
  intro hdp
  refine locked_dirlink (Set.mem_insert _ _) fun a => ?_
  cases a
  · simpa [hdp] using neutral_linkBad _ _ hQ
  · simp [hdp, hQ]

theorem neutral_unlink : Neutral (unlink me path) := by
  refine .bind (neutral_namex _) (.option (neutral_pure _) fun ⟨dp, name⟩ H Q hQ => ?_)
  simp only [obeys_bind, locked_ilock]
  intro hdp
  split_ifs
  · simp [hdp, hQ]
  simp only [obeys_bind]
  refine locked_dirlookup (Set.mem_insert _ _) fun a => ?_
  rcases a with _ | ⟨ip, off⟩
  · simp [hdp, hQ]
  refine locked_ilock_peek fun hip node => ?_
  obtain ⟨hne, hip'⟩ : ip ≠ dp ∧ ip ∉ H := by simpa using hip
  split_ifs <;> simp [hdp, hne, hip', hQ]

theorem locked_makeDots (hdp : dp ∈ H) (hip : ip ∈ H) (hR : R () H) : Locked (makeDots dp ip) H R := by
  simp [makeDots, hdp]
  refine locked_dirlink hip fun first _ => ?_
  exact locked_dirlink hip fun second _ => hR

theorem locked_create {type : FileType} {Q : Option IPtr → Set IPtr → Prop} (hnone : Q none H)
    (hsome : ∀ ip ∉ H, Q (some ip) (insert ip H)) : Locked (create me path type) H Q := by
  simp only [create, nameiparent, obeys_bind]
  refine neutral_namex _ _ _ fun a => ?_
  rcases a with _ | ⟨dp, name⟩
  · exact hnone
  simp only [obeys_bind, locked_ilock]
  intro hdp
  refine locked_dirlookup (Set.mem_insert _ _) fun a => ?_
  rcases a with _ | ⟨ip, off⟩
  · simp only [obeys_bind]
    refine neutral_ialloc _ _ _ fun ip => ?_
    simp only [locked_ilock]
    intro hip
    obtain ⟨hne, hip'⟩ : ip ≠ dp ∧ ip ∉ H := by simpa using hip
    have hlink : Locked (dirlink dp name ip) (insert ip (insert dp H)) fun a K =>
        a = true → dp ∈ K ∧ Q (some ip) (K \ {dp}) :=
      locked_dirlink (by simp) fun _ _ => by simp [hdp, hne, hsome ip hip']
    simp
    split_ifs
    · exact locked_makeDots (by simp) (by simp) hlink
    · exact hlink
  · simp +contextual [hdp, hnone, hsome]

theorem locked_openFile (h : ip ∉ H) (hR : R () H) : Locked (openFile me ip) (insert ip H) R := by
  simp only [openFile, obeys_bind]
  refine neutral_filealloc _ _ _ fun a => ?_
  rcases a with _ | f
  · simp [h, hR]
  simp only [obeys_bind]
  refine neutral_fdalloc _ _ fun a => ?_
  rcases a with _ | fd
  · simp only [obeys_bind]
    refine neutral_fileclose _ _ fun _ => ?_
    simp [h, hR]
  · simp [h, hR]

theorem neutral_sysOpen (omode : ℕ) : Neutral (sysOpen me path omode) := by
  unfold sysOpen
  split_ifs
  · intro H Q hQ
    simp only [obeys_bind]
    exact locked_create (hQ ()) fun ip hip => locked_openFile hip (hQ ())
  · refine .bind (neutral_namex _) (.option (neutral_pure _) ?_)
    rintro ⟨ip, name⟩ H Q hQ
    refine locked_ilock_peek fun hip node => ?_
    split_ifs
    · simp [hip, hQ]
    · exact locked_openFile hip (hQ ())

theorem neutral_sysMake (type : FileType) : Neutral (sysMake me path type) := by
  intro H Q hQ
  simp only [sysMake, obeys_bind]
  exact locked_create (hQ ()) fun ip hip => by simp [hip, hQ]

theorem neutral_sysChdir : Neutral (sysChdir me path) := by
  refine .bind (neutral_namex _) (.option (neutral_pure _) fun ⟨ip, name⟩ H Q hQ => ?_)
  refine locked_ilock_peek fun hip node => ?_
  split_ifs
  · simp [hip, hQ]
  simp [hip]
  intro p
  split <;> simp [hQ]

theorem neutral_sysExec : Neutral (sysExec me path) := by
  refine .bind (neutral_namex _) (.option (neutral_pure _) fun ⟨ip, name⟩ H Q hQ => ?_)
  simp +contextual [hQ]

theorem neutral_createSwapFile (pid : ℕ) : Neutral (createSwapFile me np pid) := by
  intro H Q hQ
  simp only [createSwapFile, obeys_bind]
  refine locked_create locked_panic fun ip hip => ?_
  simp [hip]
  intro a
  rcases a with _ | f <;> simp [hQ]

theorem neutral_fork : Neutral (fork me) := by
  unfold fork whenever
  grind [neutral_createSwapFile, neutral_forkFiles]

theorem neutral_removeSwapFile (p : Proc) : Neutral (removeSwapFile me p) := by
  unfold removeSwapFile
  grind [neutral_unlink]

theorem neutral_exit : Neutral (exit me) := by
  unfold exit
  grind [neutral_removeSwapFile, neutral_leave]

theorem neutral_body (c : Call) : Neutral (body me c) := by
  cases c with
  | open_ path omode => exact neutral_sysOpen _
  | close fd => exact neutral_sysClose _
  | dup fd => exact neutral_sysDup _
  | pipe => exact neutral_sysPipe
  | link old new => exact neutral_sysLink _ _
  | unlink path => exact neutral_unlink.bind fun _ => neutral_pure _
  | mkdir path => exact neutral_sysMake _
  | mknod path => exact neutral_sysMake _
  | chdir path => exact neutral_sysChdir
  | exec path => exact neutral_sysExec
  | fork => exact neutral_fork
  | exit => exact neutral_exit
  | wait child => exact neutral_proc _

end Programs

/-! ### Steps -/

namespace Store

variable {s t : Store} {me : PPtr} {o : StoreOp} {r : o.Res}

@[grind =]
theorem lock_setSlot {ip : IPtr} {slot : Slot} (h : slot.lock = (s.icache ip).lock) (jp : IPtr) :
    ((s.setSlot ip slot).icache jp).lock = (s.icache jp).lock := by
  by_cases hj : jp = ip
  · subst hj
    simpa [setSlot] using h
  · simp [setSlot, hj]

theorem iget_lock {inum : Inum} {ip : IPtr} (h : s.iget inum = .ok (ip, t)) (jp : IPtr) :
    (t.icache jp).lock = (s.icache jp).lock := by
  unfold iget at h
  split at h
  · grind
  · split at h <;> grind

/-- The inodes whose sleep lock process `p` holds. -/
def locks (s : Store) (p : PPtr) : Set IPtr := {ip | (s.icache ip).lock = some p}

theorem locks_setSlot (s : Store) (ip : IPtr) (slot : Slot) (p : PPtr) :
    (s.setSlot ip slot).locks p = if slot.lock = some p then insert ip (s.locks p) else s.locks p \ {ip} := by
  ext jp
  by_cases hj : jp = ip
  · subst hj
    split_ifs <;> simp_all [locks, setSlot]
  · split_ifs <;> simp [locks, setSlot, hj]

theorem locks_congr (h : ∀ ip, (t.icache ip).lock = (s.icache ip).lock) (p : PPtr) :
    t.locks p = s.locks p := by
  simp only [locks, h]

theorem exec_locks (hneeds : Needs (s.locks me) (.store o)) (h : s.exec me o = .ok (some (r, t))) :
    After (s.locks me) (.store o) (t.locks me) ∧ ∀ p ≠ me, t.locks p = s.locks p := by
  have hunlock : ∀ ip ∈ s.locks me, t = s.setSlot ip { s.icache ip with lock := none } →
      t.locks me = s.locks me \ {ip} ∧ ∀ p ≠ me, t.locks p = s.locks p := by
    rintro ip hip rfl
    refine ⟨by simp [locks_setSlot], fun p hp => ?_⟩
    have hnot : ip ∉ s.locks p := fun hc => hp (Option.some.inj (hc.symm.trans hip))
    simp [locks_setSlot, hnot]
  cases o with
  | acquiresleep ip =>
    simp only [exec] at h
    split_ifs at h with hfree
    · cases h
      have hnot : ∀ p, ip ∉ s.locks p := fun p hp => by simp [locks, hfree] at hp
      exact ⟨⟨hnot me, by simp [locks_setSlot]⟩, fun p hp => by simp [locks_setSlot, hp.symm, hnot]⟩
    · cases h
  | iunlock ip =>
    simp only [exec] at h
    split_ifs at h
    cases h
    exact hunlock ip hneeds rfl
  | releasesleep ip =>
    cases h
    exact hunlock ip hneeds rfl
  | iget inum =>
    obtain ⟨⟨ip, t'⟩, hget, h⟩ := Run.bind_ok h
    cases h
    exact ⟨locks_congr (iget_lock hget) _, fun p _ => locks_congr (iget_lock hget) p⟩
  | _ =>
    have hsame : ∀ ip, (t.icache ip).lock = (s.icache ip).lock := by
      intro ip
      simp only [exec] at h
      grind [setNode, setInode, setFile]
    exact ⟨locks_congr hsame _, fun p _ => locks_congr hsame p⟩

end Store

theorem Sys.execProc_store {s t : Sys} {x : Bool} {o : ProcOp} {r : o.Res}
    (h : s.execProc x o = .ok (some (r, t))) : t.toStore = s.toStore := by
  cases o <;> simp only [execProc] at h <;> grind [setProc]

theorem Sys.exec_locks {s t : Sys} {me : PPtr} {x : Bool} {o : Op} {r : o.Res}
    (hneeds : Needs (s.locks me) o) (h : s.exec me x o = .ok (some (r, t))) :
    After (s.locks me) o (t.locks me) ∧ ∀ p ≠ me, t.locks p = s.locks p := by
  cases o with
  | store o =>
    simp only [exec] at h
    split at h
    · cases h
    · cases h
    · rename_i hx
      cases h
      exact Store.exec_locks hneeds hx
  | proc o => simp [After, Sys.execProc_store h]

/-- What is left of every call asks for locks before it works on inodes, and gives all of them back. -/
abbrev Disciplined (s : State) : Prop := Obeying Needs After (fun s p => s.locks p) ∅ s

theorem Disciplined.step {s s' : State} {e : Event} (h : Disciplined s) (hstep : step s e = .ok s') :
    Disciplined s' := by
  refine Obeying.step (fun _ _ _ _ _ _ => Sys.exec_locks) (fun s i c t henter => ?_)
    (fun i c => neutral_body c _ _ fun _ => rfl) h hstep
  unfold Sys.enter at henter
  split_ifs at henter
  cases henter
  rfl

theorem disciplined_boot (inode : Inum → Inode) : Disciplined (boot inode) := by
  intro p
  refine Set.eq_empty_iff_forall_notMem.2 fun ip hip => ?_
  simp only [boot, Store.locks, Set.mem_ofPred_eq] at hip
  split_ifs at hip

theorem run_disciplined {inode : Inum → Inode} {es : List Event} {s : State}
    (hrun : Run.run step es (boot inode) = .ok s) : Disciplined s :=
  Run.invariant (fun _ _ _ h _ => h.step) (disciplined_boot inode) (Run.Admits.all (fun _ _ => trivial) es _) hrun

/-- Whatever calls are interleaved, a process reads and changes an inode only while it holds the inode's
sleep lock, but for `ialloc`, and it releases only locks that it holds. -/
theorem inode_ops_locked {inode : Inum → Inode} {es : List Event} {s : State}
    (hrun : Run.run step es (boot inode) = .ok s) {p : PPtr} {o : Op} {k : o.Res → P Unit}
    (hp : s.prog p = .op o k) : Needs (s.shared.locks p) o := by
  have h := run_disciplined hrun p
  rw [hp] at h
  exact h.1

/-- Whichever way its calls end, a process holds no sleep lock between them. -/
theorem idle_unlocked {inode : Inum → Inode} {es : List Event} {s : State}
    (hrun : Run.run step es (boot inode) = .ok s) {p : PPtr} (hp : (s.prog p).isDone) (ip : IPtr) :
    (s.shared.icache ip).lock ≠ some p := by
  have h := run_disciplined hrun p
  cases hprog : s.prog p with
  | ret a =>
    rw [hprog] at h
    exact Set.eq_empty_iff_forall_notMem.1 h ip
  | op o k =>
    rw [hprog] at hp
    cases hp

/-- A file system with nothing but the root directory, which the first process opens. -/
def openRoot (n : ℕ) : Except Halt State :=
  Run.run step (.call initproc (.open_ ['/'] 0) :: List.replicate n (.step initproc true))
    (boot fun inum => if inum = rootIno then ⟨.dir, 1, [(rootIno, dot), (rootIno, dotdot)]⟩ else ⟨.free, 0, []⟩)

theorem inode_ops_locked_open : ∃ s ip k, openRoot 4 = .ok s ∧
    s.prog initproc = .op (.store (.peek ip)) k ∧ (s.shared.icache ip).lock = some initproc := by
  have h : Run.endsIn (fun s : State => match s.prog initproc with
      | .op (.store (.peek _)) _ => true
      | _ => false) (openRoot 4) = true := by decide +kernel
  obtain ⟨s, hrun, hs⟩ := Run.of_endsIn h
  split at hs
  · rename_i ip k hp
    exact ⟨s, ip, k, hrun, hp, inode_ops_locked hrun hp⟩
  · cases hs

theorem idle_unlocked_open : ∃ s, openRoot 10 = .ok s ∧ ((s.shared.proc initproc).ofile 0).isSome ∧
    ∀ ip, (s.shared.icache ip).lock ≠ some initproc := by
  have h : Run.endsIn (fun s : State => (s.prog initproc).isDone && ((s.shared.proc initproc).ofile 0).isSome)
      (openRoot 10) = true := by decide +kernel
  obtain ⟨s, hrun, hs⟩ := Run.of_endsIn h
  obtain ⟨hdone, hfile⟩ := Bool.and_eq_true_iff.1 hs
  exact ⟨s, hrun, hfile, idle_unlocked hrun hdone⟩

end Xv6.Names
