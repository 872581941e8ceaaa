import Xv6.Changes
import Xv6.Mapping
import Xv6.Refinement

/-!
# `exec`

`exec` builds the new image while `ram_monitor` still describes the old one: the pages of the new
directory take the entries the old image leaves free, the commit makes every used entry name the new
directory, and freeing the old directory then finds none of its own.  So the entries of the old image
stay, and the metadata is exact only when they happen to be those the new pages still lack.
-/

namespace Xv6

/-! ### The source -/

def elfMagic : ℕ := 0x464C457F

namespace File

def u16 (f : File) (off : ℕ) : ℕ := (f.byte off).toNat + 256 * (f.byte (off + 1)).toNat

def u32 (f : File) (off : ℕ) : ℕ := f.u16 off + 0x10000 * f.u16 (off + 2)

end File

/-- The fields of `struct proghdr` that `exec` reads. -/
structure ProgHdr where
  type : ℕ
  off : ℕ
  vaddr : ℕ
  filesz : ℕ
  memsz : ℕ

def File.progHdr (f : File) (off : ℕ) : ProgHdr :=
  ⟨f.u32 off, f.u32 (off + 4), f.u32 (off + 8), f.u32 (off + 16), f.u32 (off + 20)⟩

def wordBytes (w : ℕ) : List Byte :=
  [UInt8.ofNat w, UInt8.ofNat (w / 0x100), UInt8.ofNat (w / 0x10000), UInt8.ofNat (w / 0x1000000)]

namespace Machine

/-- The loop of `loaduvm` with `count` pages to go and `i` bytes done; `false` is the result -1. -/
def loadLoop (pgdir addr : ℕ) (ip : File) (offset sz : ℕ) :
    ℕ → ℕ → Machine → Except Halt (Bool × Machine)
  | 0, _, m => .ok (true, m)
  | count + 1, i, m =>
    match m.walkpgdir pgdir (addr + i) with
    | none => .error (.panic "loaduvm: address should exist")
    | some pte =>
      let n := min (sz - i) 4096
      match ip.readi (offset + i) n with
      | none => .ok (false, m)
      | some r =>
        let m := m.setFrame (frameOf pte) (overlay (m.data (frameOf pte)) ip (offset + i) r)
        if r = n then loadLoop pgdir addr ip offset sz count (i + 4096) m else .ok (false, m)

def loaduvm (m : Machine) (pgdir addr : ℕ) (ip : File) (offset sz : ℕ) :
    Except Halt (Bool × Machine) :=
  if addr % 4096 ≠ 0 then .error (.panic "loaduvm: addr must be page aligned")
  else loadLoop pgdir addr ip offset sz (pagesOf sz) 0 m

/-- `uva2ka`: the frame of a user page, `none` for a null result; the entry is not tested for being
there. -/
def uva2ka (m : Machine) (pgdir uva : ℕ) : Except Halt (Option ℕ) :=
  match m.walkpgdir pgdir uva with
  | none => .error .wild
  | some pte => .ok (if flagOn pte pteP && flagOn pte pteU then some (frameOf pte) else none)

/-- A page with `bytes` from offset `k` on. -/
def patch (page : Page) (k : ℕ) (bytes : List Byte) : Page := fun x =>
  if k ≤ x.val ∧ x.val < k + bytes.length then bytes.getD (x.val - k) 0 else page x

/-- The loop of `copyout`, page by page; `fuel` bounds the pages. -/
def copyoutLoop (pgdir : ℕ) : ℕ → ℕ → List Byte → Machine → Except Halt (Bool × Machine)
  | 0, _, bytes, m => if bytes = [] then .ok (true, m) else .error .livelock
  | fuel + 1, va, bytes, m =>
    if bytes = [] then .ok (true, m)
    else do
      match ← m.uva2ka pgdir (pgRoundDown va) with
      | none => return (false, m)
      | some f =>
        let n := min (4096 - va % 4096) bytes.length
        let m := m.setFrame f (patch (m.data f) (va % 4096) (bytes.take n))
        copyoutLoop pgdir fuel ((pgRoundDown va + 4096) % 0x100000000) (bytes.drop n) m

/-- `copyout`; `false` is the result -1. -/
def copyout (m : Machine) (pgdir va : ℕ) (bytes : List Byte) : Except Halt (Bool × Machine) :=
  copyoutLoop pgdir (bytes.length + 1) va bytes m

/-- The loop of `exec` over the program headers; `none` is the jump to `bad`. -/
def loadSegments (sel : Selection) (ip : File) (pgdir : ℕ) :
    ℕ → ℕ → ℕ → Machine → Except Halt (Option ℕ × Machine)
  | 0, _, sz, m => .ok (some sz, m)
  | count + 1, off, sz, m =>
    if ip.readi off 32 ≠ some 32 then .ok (none, m)
    else
      let ph := ip.progHdr off
      let next := (off + 32) % 0x100000000
      if ph.type ≠ 1 then loadSegments sel ip pgdir count next sz m
      else if ph.memsz < ph.filesz then .ok (none, m)
      else if 0x100000000 ≤ ph.vaddr + ph.memsz then .ok (none, m)
      else do
        let (sz, m) ← m.allocuvm sel pgdir sz (ph.vaddr + ph.memsz)
        if sz = 0 then return (none, m)
        else if ph.vaddr % 4096 ≠ 0 then return (none, m)
        else do
          let (ok, m) ← m.loaduvm pgdir ph.vaddr ip ph.off ph.filesz
          if ok then loadSegments sel ip pgdir count next sz m else return (none, m)

/-- The loop of `exec` that pushes the argument strings, with the pushed addresses in reverse order;
`none` is the jump to `bad`. -/
def pushArgs (pgdir : ℕ) :
    List (List Byte) → ℕ → List ℕ → Machine → Except Halt (Option (ℕ × List ℕ) × Machine)
  | [], sp, pushed, m => .ok (some (sp, pushed), m)
  | arg :: argv, sp, pushed, m =>
    if 32 ≤ pushed.length then .ok (none, m)
    else do
      let sp := (sp + 0x100000000 - (arg.length + 1) % 0x100000000) % 0x100000000 / 4 * 4
      let (ok, m) ← m.copyout pgdir sp (arg ++ [0])
      if ok then pushArgs pgdir argv sp (sp :: pushed) m else return (none, m)

/-- The arguments and the words of `ustack` on the stack; `false` is the jump to `bad`. -/
def pushStack (m : Machine) (pgdir sz : ℕ) (argv : List (List Byte)) :
    Except Halt (Bool × Machine) := do
  let (r, m) ← pushArgs pgdir argv sz [] m
  match r with
  | none => return (false, m)
  | some (sp, pushed) =>
    let argc := pushed.length
    let words := [0xFFFFFFFF, argc, (sp + 0x100000000 - (argc + 1) * 4) % 0x100000000] ++
      pushed.reverse ++ [0]
    m.copyout pgdir ((sp + 0x100000000 - (3 + argc + 1) * 4) % 0x100000000)
      (words.flatMap wordBytes)

/-- The commit of `exec`: every used entry names the new directory. -/
def commit (p : Proc) (pgdir sz : ℕ) : Proc :=
  { p with
    ramMonitor := fun i =>
      if (p.ramMonitor i).used then { p.ramMonitor i with pgdir := pgdir } else p.ramMonitor i
    swapMonitor := fun i =>
      if (p.swapMonitor i).used then { p.swapMonitor i with pgdir := pgdir } else p.swapMonitor i
    pgdir := pgdir
    sz := sz }

/-- The image of `exec` in the new directory `pgdir`: its size, `none` for the jump to `bad`. -/
def loadImage (sel : Selection) (m : Machine) (pgdir : ℕ) (ip : File) (argv : List (List Byte)) :
    Except Halt (Option ℕ × Machine) := do
  let (sz, m) ← loadSegments sel ip pgdir (ip.u16 44) (ip.u32 28) 0 m
  match sz with
  | none => return (none, m)
  | some sz => do
    let sz := pgRoundUp sz
    let (sz, m) ← m.allocuvm sel pgdir sz ((sz + 8192) % 0x100000000)
    if sz = 0 then return (none, m)
    else do
      let m ← m.clearpteu pgdir (sz - 8192)
      let (ok, m) ← m.pushStack pgdir sz argv
      return (if ok then some sz else none, m)

/-- `exec` of the file `ip` that `namei` found, if any, with the argument strings `argv`; `false` is
the result -1. -/
def exec (sel : Selection) (m : Machine) (ip : Option File) (argv : List (List Byte)) :
    Except Halt (Bool × Machine) :=
  match ip with
  | none => .ok (false, m)
  | some ip =>
    if ip.readi 0 52 ≠ some 52 then .ok (false, m)
    else if ip.u32 0 ≠ elfMagic then .ok (false, m)
    else do
      let (d, m) ← m.setupkvm sel
      match d with
      | none => return (false, m)
      | some pgdir => do
        let (sz, m) ← m.loadImage sel pgdir ip argv
        match sz with
        | none => do
          let m ← m.freevm sel pgdir
          return (false, m)
        | some sz => do
          let oldpgdir := m.proc.pgdir
          let m ← (m.setProc (commit m.proc pgdir sz)).freevm sel oldpgdir
          return (true, m)

end Machine

open Machine

/-! ### Steps that only change frames -/

def DataOnly (m m' : Machine) : Prop := m' = { m with data := m'.data }

theorem DataOnly.refl (m : Machine) : DataOnly m m := rfl

theorem DataOnly.trans {m m' m'' : Machine} (h : DataOnly m m') (h' : DataOnly m' m'') :
    DataOnly m m'' := by
  rw [DataOnly, h', h]

theorem DataOnly.setFrame (m : Machine) (f : ℕ) (page : Page) : DataOnly m (m.setFrame f page) :=
  rfl

section

variable {d : ℕ} {m m' : Machine} {ok : Bool}

theorem loadLoop_ok {addr offset sz : ℕ} {ip : File} {count i : ℕ}
    (hrun : loadLoop d addr ip offset sz count i m = .ok (ok, m')) : DataOnly m m' := by
  induction count generalizing i m with
  | zero =>
    cases hrun
    exact DataOnly.refl _
  | succ count ih =>
    unfold loadLoop at hrun
    split at hrun
    · cases hrun
    · dsimp only at hrun
      split at hrun
      · cases hrun
        exact DataOnly.refl _
      · split at hrun
        · exact (DataOnly.setFrame _ _ _).trans (ih hrun)
        · cases hrun
          exact rfl

theorem loaduvm_ok {addr offset sz : ℕ} {ip : File}
    (hrun : m.loaduvm d addr ip offset sz = .ok (ok, m')) : DataOnly m m' := by
  unfold loaduvm at hrun
  split at hrun
  · cases hrun
  · exact loadLoop_ok hrun

theorem copyoutLoop_ok {fuel va : ℕ} {bytes : List Byte}
    (hrun : copyoutLoop d fuel va bytes m = .ok (ok, m')) : DataOnly m m' := by
  induction fuel generalizing va bytes m with
  | zero =>
    unfold copyoutLoop at hrun
    split at hrun
    · cases hrun
      exact DataOnly.refl _
    · cases hrun
  | succ fuel ih =>
    unfold copyoutLoop at hrun
    split at hrun
    · cases hrun
      exact DataOnly.refl _
    · obtain ⟨r, -, hrun⟩ := Run.bind_ok hrun
      cases r with
      | none =>
        cases hrun
        exact DataOnly.refl _
      | some f => exact (DataOnly.setFrame _ _ _).trans (ih hrun)

theorem pushArgs_ok {argv : List (List Byte)} {sp : ℕ} {pushed : List ℕ} {r : Option (ℕ × List ℕ)}
    (hrun : pushArgs d argv sp pushed m = .ok (r, m')) : DataOnly m m' := by
  induction argv generalizing sp pushed m with
  | nil =>
    cases hrun
    exact DataOnly.refl _
  | cons arg argv ih =>
    unfold pushArgs at hrun
    split at hrun
    · cases hrun
      exact DataOnly.refl _
    · obtain ⟨⟨ok, m₁⟩, hcopy, hrun⟩ := Run.bind_ok hrun
      have h₁ : DataOnly m m₁ := copyoutLoop_ok hcopy
      cases ok with
      | false =>
        cases hrun
        exact h₁
      | true => exact h₁.trans (ih hrun)

theorem pushStack_ok {sz : ℕ} {argv : List (List Byte)}
    (hrun : m.pushStack d sz argv = .ok (ok, m')) : DataOnly m m' := by
  obtain ⟨⟨r, m₁⟩, hpush, hrun⟩ := Run.bind_ok hrun
  have h₁ := pushArgs_ok hpush
  cases r with
  | none =>
    cases hrun
    exact h₁
  | some r => exact h₁.trans (copyoutLoop_ok hrun)

end

/-! ### Building the image -/

/-- `add2ram` for the first `k` pages of directory `d`. -/
def trackPages (p : Proc) (d k : ℕ) : Proc :=
  (List.range k).foldl (fun p j => p.add2ram d (4096 * j)) p

theorem trackPages_succ (p : Proc) (d k : ℕ) :
    trackPages p d (k + 1) = (trackPages p d k).add2ram d (4096 * k) := by
  rw [trackPages, List.range_succ, List.foldl_append]
  rfl

/-- The first `k` pages of `d` are there, the others are not. -/
def Loaded (d k : ℕ) (dirs : ℕ → PgDir) : Prop :=
  (∀ v < k, flagOn (entry dirs d v) pteP = true) ∧ ∀ v, k ≤ v → v < userPages → entry dirs d v = 0

/-- The image under construction in `d` has `k` pages, all tracked as far as there were entries.  The
very first page may have taken the last frame, so that there was none for its page table; then the
next page does not find one either. -/
structure Loading (d k : ℕ) (m₀ m : Machine) : Prop where
  proc : m.proc = trackPages m₀.proc d k
  other : ∀ d', d' ≠ d → m.dirs d' = m₀.dirs d'
  loaded : m.freelist ≠ [] ∨ k ≠ 1 → Loaded d k m.dirs

section

variable {sel : Selection} {d k : ℕ} {m₀ m m' : Machine}

theorem Loading.data (h : Loading d k m₀ m) (hd : DataOnly m m') : Loading d k m₀ m' := by
  rw [hd]
  exact ⟨h.proc, h.other, h.loaded⟩

theorem add2ram_pid (p : Proc) (d a : ℕ) : (p.add2ram d a).pid = p.pid := by
  unfold Proc.add2ram
  cases p.getFreeRamIdx <;> rfl

theorem trackPages_pid (p : Proc) (d k : ℕ) : (trackPages p d k).pid = p.pid := by
  induction k with
  | zero => rfl
  | succ k ih => rw [trackPages_succ, add2ram_pid, ih]

theorem Loading.page (h : Loading d k m₀ m) (hk : k < 1024) {f : ℕ} {rest : List ℕ}
    (hf : m.freelist = f :: rest) {m₁ m₂ : Machine}
    (hdirs₁ : m₁.dirs = m.dirs) (hproc₁ : m₁.proc = m.proc) {ok : Bool} {perm : Pte}
    (hmap : m₁.mappages d (4096 * k) 4096 f perm = .ok (ok, m₂)) :
    Loading d (k + 1) m₀ (m₂.setProc (m₂.proc.add2ram d (4096 * k))) := by
  rw [mappages_page_eq (by omega)] at hmap
  obtain ⟨hx, he⟩ := mapLoop_ok 1 hmap (fun _ => rfl) (by omega)
  obtain ⟨hpresent, hrest⟩ := h.loaded (Or.inl (by rw [hf]; simp))
  have hku : k < userPages := lt_trans hk (by decide)
  refine ⟨?_, fun d' hd' => ?_, fun hc => ?_⟩
  · show m₂.proc.add2ram d (4096 * k) = _
    rw [trackPages_succ, ← h.proc, ← hproc₁, hx.same]
  · show m₂.dirs d' = _
    rw [hx.other d' hd', hdirs₁]
    exact h.other d' hd'
  · have hkeep : ∀ w < userPages, w ≠ k → entry m₂.dirs d w = entry m.dirs d w := by
      intro w hw hne
      rw [he w (lt_trans hw (by decide)) (by omega), hdirs₁]
    -- without a page table for the page there was no frame left for it, so this is the first page
    have hnew : flagOn (entry m₂.dirs d k) pteP = true := by
      rw [mapLoop] at hmap
      cases halloc : m₁.walkpgdirAlloc d (4096 * k) with
      | some m₁' =>
        obtain ⟨-, ht, he'⟩ := walkpgdirAlloc_ok halloc
        have hzero : entry m₁'.dirs d k = 0 := by
          rw [he', hdirs₁]
          exact hrest k le_rfl hku
        have hp : flagOn (0 : Pte) pteP = false := by decide
        simp only [halloc, walkpgdir, walk_eq_entry ht, hzero, hp, Bool.false_eq_true, if_false,
          mapLoop, Except.ok.injEq, Prod.mk.injEq] at hmap
        obtain ⟨-, rfl⟩ := hmap
        show flagOn (entry (store m₁'.dirs d (4096 * k) _) d k) pteP = true
        rw [entry_store_self ht (by omega), mapPte_present _]
      | none =>
        exfalso
        simp only [halloc, Except.ok.injEq, Prod.mk.injEq] at hmap
        obtain ⟨-, rfl⟩ := hmap
        have hnone : m₁.dirs d (pdx (4096 * k)) = none := by
          cases ht : m₁.dirs d (pdx (4096 * k)) with
          | none => rfl
          | some t => simp [walkpgdirAlloc, ht] at halloc
        have hempty : m₁.freelist = [] := by
          cases hl : m₁.freelist with
          | nil => rfl
          | cons g l => simp [walkpgdirAlloc, hnone, kalloc, hl] at halloc
        rcases hc with hc | hc
        · exact hc hempty
        · have hzero : ¬ HasTable m.dirs d 0 := by
            intro ht
            have := ht.low hk
            rw [← hdirs₁, HasTable, hnone] at this
            cases this
          have := hpresent 0 (by omega)
          rw [entry_of_not_hasTable hzero] at this
          exact absurd this (by decide)
    refine ⟨fun v hv => ?_, fun v hv hvu => ?_⟩
    · show flagOn (entry m₂.dirs d v) pteP = true
      by_cases hvk : v = k
      · rw [hvk]
        exact hnew
      · rw [hkeep v (by simp only [userPages]; omega) hvk]
        exact hpresent v (by omega)
    · show entry m₂.dirs d v = 0
      rw [hkeep v hvu (by omega)]
      exact hrest v (by omega) hvu

/-- The loop of `allocuvm` on a directory under construction, as long as the pages fit in
memory. -/
theorem allocLoop_ok (hsel : sel ≠ .NONE) (hpid : 2 < m₀.proc.pid) {oldsz newsz N : ℕ}
    (hround : pgRoundUp oldsz = 4096 * N) {count i sz : ℕ} (h : Loading d (N + i) m₀ m)
    (hmax : N + i + count ≤ maxPyscPages) (hsz : sz ≠ 0)
    (hrun : allocLoop sel d oldsz newsz count i m = .ok (sz, m')) :
    Loading d (N + i + count) m₀ m' ∧ sz = newsz := by
  induction count generalizing i m with
  | zero =>
    cases hrun
    exact ⟨h, rfl⟩
  | succ count ih =>
    simp only [maxPyscPages] at hmax
    unfold allocLoop at hrun
    dsimp only at hrun
    cases hf : m.freelist with
    | nil =>
      simp only [kalloc, hf] at hrun
      obtain ⟨r, -, hrun⟩ := Run.bind_ok hrun
      cases hrun
      exact absurd rfl hsz
    | cons f rest =>
      have ha : pgRoundUp oldsz + 4096 * i = 4096 * (N + i) := by omega
      have hcount : pgRoundUp oldsz / 4096 + (i + 1) = N + i + 1 := by omega
      simp only [kalloc, hf, ha, hcount] at hrun
      obtain ⟨⟨ok, m₂⟩, hmap, hrun⟩ := Run.bind_ok hrun
      obtain ⟨m₃, htrack, hrun⟩ := Run.bind_ok hrun
      have hpage := h.page (by omega) hf (by rfl) (by rfl) hmap
      have hpid₂ : 2 < m₂.proc.pid := by
        rw [mappages_page_eq (by omega)] at hmap
        rw [(mapLoop_ok 1 hmap (fun _ => rfl) (by omega)).1.same]
        show 2 < m.proc.pid
        rw [h.proc, trackPages_pid]
        exact hpid
      rw [trackPage, if_pos ⟨hpid₂, hsel⟩, if_pos (by simp only [maxPyscPages]; omega)] at htrack
      cases htrack
      have hassoc : N + (i + 1) + count = N + i + (count + 1) := by omega
      rw [← hassoc]
      exact ih (i := i + 1) hpage (by simp only [maxPyscPages]; omega) hrun

theorem allocuvm_ok (hsel : sel ≠ .NONE) (hpid : 2 < m₀.proc.pid) {oldsz newsz sz : ℕ}
    (h : Loading d (pagesOf oldsz) m₀ m) (hmax : pagesOf sz ≤ maxPyscPages) (hsz : sz ≠ 0)
    (hrun : m.allocuvm sel d oldsz newsz = .ok (sz, m')) : Loading d (pagesOf sz) m₀ m' := by
  have hle := (allocuvm_mono hsz hrun).1
  have hsmall : sz ≤ 65536 := by
    simp only [pagesOf, maxPyscPages] at hmax
    omega
  have hround : pgRoundUp oldsz = 4096 * pagesOf oldsz :=
    pgRoundUp_eq (by simp only [kernBase]; omega)
  unfold allocuvm at hrun
  split at hrun
  · cases hrun
    exact absurd rfl hsz
  · split at hrun
    · cases hrun
      exact h
    · obtain rfl := allocLoop_size hsz hrun
      have hcount : pagesOf oldsz + 0 + (sz - pgRoundUp oldsz + 4095) / 4096 = pagesOf sz := by
        rw [hround]
        simp only [pagesOf]
        omega
      have := (allocLoop_ok hsel hpid hround (i := 0) h (hcount ▸ hmax) hsz hrun).1
      rwa [hcount] at this

/-! ### The image -/

theorem loadSegments_mono {ip : File} {count off sz sz' : ℕ}
    (hrun : loadSegments sel ip d count off sz m = .ok (some sz', m')) :
    sz ≤ sz' ∧ (sz < kernBase → sz' < kernBase) := by
  induction count generalizing off sz m with
  | zero =>
    cases hrun
    exact ⟨le_rfl, id⟩
  | succ count ih =>
    unfold loadSegments at hrun
    dsimp only at hrun
    split at hrun
    · cases hrun
    split at hrun
    · exact ih hrun
    split at hrun
    · cases hrun
    split at hrun
    · cases hrun
    obtain ⟨⟨sz₁, m₁⟩, halloc, hrun⟩ := Run.bind_ok hrun
    dsimp only at hrun
    split at hrun
    · cases hrun
    rename_i hsz₁
    split at hrun
    · cases hrun
    obtain ⟨⟨ok, m₂⟩, -, hrun⟩ := Run.bind_ok hrun
    cases ok with
    | false => cases hrun
    | true =>
      obtain ⟨hle, hlow, -⟩ := allocuvm_mono hsz₁ halloc
      obtain ⟨hle', hlow'⟩ := ih hrun
      exact ⟨hle.trans hle', fun hk => hlow' (hlow hk)⟩

theorem loadSegments_ok (hsel : sel ≠ .NONE) (hpid : 2 < m₀.proc.pid) {ip : File}
    {count off sz sz' : ℕ} (h : Loading d (pagesOf sz) m₀ m) (hmax : pagesOf sz' ≤ maxPyscPages)
    (hrun : loadSegments sel ip d count off sz m = .ok (some sz', m')) :
    Loading d (pagesOf sz') m₀ m' := by
  induction count generalizing off sz m with
  | zero =>
    cases hrun
    exact h
  | succ count ih =>
    unfold loadSegments at hrun
    dsimp only at hrun
    split at hrun
    · cases hrun
    split at hrun
    · exact ih h hrun
    split at hrun
    · cases hrun
    split at hrun
    · cases hrun
    obtain ⟨⟨sz₁, m₁⟩, halloc, hrun⟩ := Run.bind_ok hrun
    dsimp only at hrun
    split at hrun
    · cases hrun
    rename_i hsz₁
    split at hrun
    · cases hrun
    obtain ⟨⟨ok, m₂⟩, hload, hrun⟩ := Run.bind_ok hrun
    cases ok with
    | false => cases hrun
    | true =>
      have hmono : sz₁ ≤ sz' := (loadSegments_mono hrun).1
      have hmax₁ : pagesOf sz₁ ≤ maxPyscPages := by
        simp only [pagesOf] at hmax ⊢
        omega
      exact ih ((allocuvm_ok hsel hpid h hmax₁ hsz₁ halloc).data (loaduvm_ok hload)) hrun

theorem clear_pteU_present (pte : Pte) : flagOn (pte &&& ~~~pteU) pteP = flagOn pte pteP := by
  rw [flagOn_pteP, flagOn_pteP]
  simp [pteU]

theorem Loading.clearpteu (h : Loading d k m₀ m) {v : ℕ} (hv : v < k) (hk : k ≤ maxPyscPages)
    (hrun : m.clearpteu d (4096 * v) = .ok m') : Loading d k m₀ m' := by
  simp only [maxPyscPages] at hk
  unfold Machine.clearpteu at hrun
  split at hrun
  · cases hrun
  · rename_i pte hwalk
    cases hrun
    have ht : HasTable m.dirs d v := hasTable_of_walk hwalk
    have hpte : entry m.dirs d v = pte := entry_of_walk hwalk
    refine ⟨h.proc, fun d' hd' => ?_, fun hc => ?_⟩
    · rw [(Extends.setPte d m _ _).other d' hd']
      exact h.other d' hd'
    · obtain ⟨hpresent, hrest⟩ := h.loaded hc
      refine ⟨fun w hw => ?_, fun w hw hwu => ?_⟩
      · show flagOn (entry (store m.dirs d (4096 * v) _) d w) pteP = true
        rw [entry_store ht (by omega) _ d (by omega)]
        split_ifs with hwv
        · rw [clear_pteU_present, ← hpte]
          exact hpresent v hv
        · exact hpresent w hw
      · show entry (store m.dirs d (4096 * v) _) d w = 0
        rw [entry_store_ne ht (by omega) _ (lt_trans hwu (by decide)) (by omega)]
        exact hrest w hw hwu

theorem loadImage_ok (hsel : sel ≠ .NONE) (hpid : 2 < m₀.proc.pid) {ip : File}
    {argv : List (List Byte)} {sz : ℕ} (h : Loading d 0 m₀ m) (hmax : pagesOf sz ≤ maxPyscPages)
    (hrun : m.loadImage sel d ip argv = .ok (some sz, m')) :
    Loading d (pagesOf sz) m₀ m' ∧ 2 ≤ pagesOf sz := by
  obtain ⟨⟨r, m₁⟩, hsegs, hrun⟩ := Run.bind_ok hrun
  cases r with
  | none => cases hrun
  | some sz₀ =>
    obtain ⟨⟨sz₁, m₂⟩, halloc, hrun⟩ := Run.bind_ok hrun
    dsimp only at hrun
    split at hrun
    · cases hrun
    rename_i hsz₁
    obtain ⟨m₃, hclear, hrun⟩ := Run.bind_ok hrun
    obtain ⟨⟨ok, m₄⟩, hpush, hrun⟩ := Run.bind_ok hrun
    cases ok with
    | false => cases hrun
    | true =>
      cases hrun
      have hlow : sz₀ < kernBase := (loadSegments_mono hsegs).2 (by decide)
      have hround : pgRoundUp sz₀ = 4096 * pagesOf sz₀ := pgRoundUp_eq hlow.le
      simp only [kernBase] at hlow
      have hnew : sz = 4096 * (pagesOf sz₀ + 2) := by
        have := (allocuvm_mono hsz₁ halloc).2.2
        simp only [hround, pagesOf] at this ⊢
        omega
      have hpages : pagesOf sz = pagesOf sz₀ + 2 := by
        rw [hnew]
        simp only [pagesOf]
        omega
      have hsame : pagesOf (pgRoundUp sz₀) = pagesOf sz₀ := by
        rw [hround]
        simp only [pagesOf]
        omega
      have hstart : Loading d (pagesOf 0) m₀ m := h
      have h₁ := loadSegments_ok hsel hpid hstart (by omega) hsegs
      rw [← hsame] at h₁
      have h₂ := allocuvm_ok hsel hpid h₁ hmax hsz₁ halloc
      have hguard : sz - 8192 = 4096 * pagesOf sz₀ := by omega
      rw [hguard] at hclear
      have h₃ := h₂.clearpteu (by omega) hmax hclear
      exact ⟨h₃.data (pushStack_ok hpush), by omega⟩

end

/-! ### Freeing the old directory -/

section

variable {sel : Selection} {old : ℕ} {m m' : Machine}

/-- No used entry names the directory. -/
def Unnamed (p : Proc) (old : ℕ) : Prop :=
  ∀ i, (p.ramMonitor i).used → (p.ramMonitor i).pgdir ≠ old

theorem untrack_unnamed {p : Proc} (h : Unnamed p old) (a : ℕ) : untrack p old a = p := by
  have hram : (fun i => if (p.ramMonitor i).used ∧ (p.ramMonitor i).pVa = a ∧
      (p.ramMonitor i).pgdir = old then { p.ramMonitor i with used := false }
      else p.ramMonitor i) = p.ramMonitor := by
    funext i
    exact if_neg fun hc => h i hc.1 hc.2.2
  unfold untrack
  dsimp only
  rw [hram]

/-- What releasing pages of `old` does to the process and to other directories. -/
structure Frees (old : ℕ) (m m' : Machine) : Prop where
  sz : m'.proc.sz = m.proc.sz
  proc : Unnamed m.proc old → m'.proc = m.proc
  other : ∀ d, d ≠ old → m'.dirs d = m.dirs d

theorem Frees.of_eq (hproc : m'.proc = m.proc) (hdirs : m'.dirs = m.dirs) : Frees old m m' :=
  ⟨by rw [hproc], fun _ => hproc, fun d _ => by rw [hdirs]⟩

theorem Frees.trans {m'' : Machine} (h : Frees old m m') (h' : Frees old m' m'') :
    Frees old m m'' :=
  ⟨h'.sz.trans h.sz, fun hu => (h'.proc (by rw [h.proc hu]; exact hu)).trans (h.proc hu),
    fun d hd => (h'.other d hd).trans (h.other d hd)⟩

theorem Frees.page (sel : Selection) (m : Machine) (a : ℕ) (pte : Pte) :
    Frees old m (m.dropAt sel old a pte) := by
  rw [dropAt_eq]
  refine ⟨?_, fun hu => ?_, (Extends.setPte old (m.freed (frameOf pte)) a 0).other⟩
  · dsimp only
    split_ifs <;> rfl
  · dsimp only
    rw [untrack_unnamed hu, ite_self]

theorem deallocuvm_ok {oldsz newsz r : ℕ} (hrun : m.deallocuvm sel old oldsz newsz = .ok (r, m')) :
    Frees old m m' :=
  deallocuvm_induct (P := fun m => Frees old m m') hrun (Frees.of_eq rfl rfl)
    fun _ _ _ _ _ _ _ _ _ ih => (Frees.page ..).trans ih

theorem freeTables_ok {l : List ℕ} (hrun : freeTables old l m = .ok m') :
    m'.proc = m.proc ∧ m'.dirs = m.dirs := by
  rw [freeTables_keeps hrun]
  exact ⟨rfl, rfl⟩

theorem freevm_ok (hrun : m.freevm sel old = .ok m') : Frees old m m' := by
  obtain ⟨⟨sz, m₁⟩, hdealloc, hrun⟩ := Run.bind_ok hrun
  obtain ⟨m₂, htables, hrun⟩ := Run.bind_ok hrun
  obtain ⟨m₃, hfree, hrun⟩ := Run.bind_ok hrun
  cases hrun
  obtain ⟨hproc₂, hdirs₂⟩ := freeTables_ok htables
  obtain ⟨rfl, -⟩ := kfree_ok hfree
  refine ((deallocuvm_ok hdealloc).trans (Frees.of_eq hproc₂ hdirs₂)).trans ?_
  exact ⟨rfl, fun _ => rfl, fun d hd => Function.update_of_ne hd _ _⟩

end

/-! ### The metadata after `exec` -/

theorem add2ram_pgdir (p : Proc) (d a : ℕ) : (p.add2ram d a).pgdir = p.pgdir := by
  unfold Proc.add2ram
  cases p.getFreeRamIdx <;> rfl

theorem trackPages_pgdir (p : Proc) (d k : ℕ) : (trackPages p d k).pgdir = p.pgdir := by
  induction k with
  | zero => rfl
  | succ k ih => rw [trackPages_succ, add2ram_pgdir, ih]

theorem add2ram_swap (p : Proc) (d a : ℕ) : (p.add2ram d a).swapMonitor = p.swapMonitor := by
  unfold Proc.add2ram
  cases p.getFreeRamIdx <;> rfl

theorem trackPages_swap (p : Proc) (d k : ℕ) :
    (trackPages p d k).swapMonitor = p.swapMonitor := by
  induction k with
  | zero => rfl
  | succ k ih => rw [trackPages_succ, add2ram_swap, ih]

theorem ramTable_add2ram (p : Proc) (d a : ℕ) :
    ramTable (p.add2ram d a) = (ramTable p).claimFree a := by
  unfold Proc.add2ram Proc.getFreeRamIdx SlotTable.claimFree
  cases (ramTable p).firstFree with
  | none => rfl
  | some i =>
    simp only [ramTable, SlotTable.claim, Proc.setRam, SlotTable.mk.injEq]
    constructor
    · funext j
      by_cases hj : j = i
      · subst hj
        simp
      · simp [hj]
    · funext j
      by_cases hj : j = i
      · subst hj
        simp
      · simp [hj]

theorem ramTable_trackPages (p : Proc) (d k : ℕ) :
    ramTable (trackPages p d k) = (ramTable p).fill ((List.range k).map fun j => 4096 * j) := by
  induction k with
  | zero => rfl
  | succ k ih =>
    rw [trackPages_succ, ramTable_add2ram, ih, List.range_succ, List.map_append, SlotTable.fill,
      SlotTable.fill, List.foldl_append]
    rfl

theorem ramTable_commit (p : Proc) (d sz : ℕ) : ramTable (commit p d sz) = ramTable p := by
  simp only [ramTable, commit, SlotTable.mk.injEq]
  constructor
  · funext i
    split_ifs <;> rfl
  · funext i
    split_ifs <;> rfl

theorem exec_ok {sel : Selection} (hsel : sel ≠ .NONE) {m m' : Machine} (hpid : 2 < m.proc.pid)
    (hlayout : 0x100 < m.kdata ∧ m.kdata < phystopFrame) (hold : m.proc.pgdir ∉ m.freelist)
    {ip : Option File} {argv : List (List Byte)} (hrun : m.exec sel ip argv = .ok (true, m'))
    (hmax : pagesOf m'.proc.sz ≤ maxPyscPages) :
    ∃ d sz, m'.proc = commit (trackPages m.proc d (pagesOf sz)) d sz ∧
      Loaded d (pagesOf sz) m'.dirs := by
  unfold exec at hrun
  split at hrun
  · cases hrun
  · split at hrun
    · cases hrun
    split at hrun
    · cases hrun
    obtain ⟨⟨r, m₁⟩, hsetup, hrun⟩ := Run.bind_ok hrun
    cases r with
    | none => cases hrun
    | some d =>
      obtain ⟨⟨s, m₂⟩, hload, hrun⟩ := Run.bind_ok hrun
      cases s with
      | none =>
        obtain ⟨m₃, -, hrun⟩ := Run.bind_ok hrun
        cases hrun
      | some sz =>
        obtain ⟨m₃, hfree, hrun⟩ := Run.bind_ok hrun
        cases hrun
        obtain ⟨rest, hf, hx, hzero⟩ := setupkvm_ok sel hlayout hsetup
        have hne : m.proc.pgdir ≠ d := by
          rintro rfl
          exact hold (hf ▸ List.mem_cons_self)
        have hproc₁ : m₁.proc = m.proc := by
          rw [hx.same]
          rfl
        have hfrees := freevm_ok hfree
        have hsz : m'.proc.sz = sz := hfrees.sz
        rw [hsz] at hmax
        have hstart : Loading d 0 m₁ m₁ :=
          ⟨rfl, fun _ _ => rfl, fun _ =>
            ⟨fun v hv => absurd hv (Nat.not_lt_zero v), fun v _ hv => hzero v hv⟩⟩
        obtain ⟨himage, htwo⟩ := loadImage_ok hsel (hproc₁ ▸ hpid) hstart hmax hload
        have hproc₂ : m₂.proc = trackPages m.proc d (pagesOf sz) := by
          rw [himage.proc, hproc₁]
        have holddir : m₂.proc.pgdir = m.proc.pgdir := by
          rw [hproc₂, trackPages_pgdir]
        have hunnamed : Unnamed (commit m₂.proc d sz) m₂.proc.pgdir := by
          intro i hi
          rw [holddir]
          simp only [commit] at hi ⊢
          split_ifs at hi ⊢ with hu
          · exact hne.symm
          · exact absurd hi hu
        refine ⟨d, sz, ?_, ?_⟩
        · rw [hfrees.proc hunnamed, ← hproc₂]
          rfl
        · have hdirs : m'.dirs d = m₂.dirs d := hfrees.other d (by rw [holddir]; exact hne.symm)
          obtain ⟨hp, hr⟩ := himage.loaded (Or.inr (by omega))
          have hentry : ∀ v, entry m'.dirs d v = entry m₂.dirs d v := fun v => by
            simp only [entry, walk, hdirs]
          exact ⟨fun v hv => by rw [hentry]; exact hp v hv,
            fun v hv hvu => by rw [hentry]; exact hr v hv hvu⟩

/-- The used entries are one for each page of the new image, and no slot is used. -/
structure ExactMetadata (m : Machine) : Prop where
  pgdir : ∀ i, (m.proc.ramMonitor i).used → (m.proc.ramMonitor i).pgdir = m.proc.pgdir
  ram : (ramTable m.proc).Indexes {a | ∃ v < pagesOf m.proc.sz, a = 4096 * v}
  present : ∀ v < pagesOf m.proc.sz, m.Present v
  swap : ∀ i, (m.proc.swapMonitor i).used = false

theorem untracked_pages (n k : ℕ) :
    {a | ∃ v < n, a = 4096 * v} \
        {a | a ∈ ((List.range n).map fun j => 4096 * j).take (16 - k)} =
      {a | ∃ v, min n (16 - k) ≤ v ∧ v < n ∧ a = 4096 * v} := by
  ext a
  rw [← List.map_take, List.take_range]
  simp only [Set.mem_sdiff, Set.mem_ofPred_eq, List.mem_map, List.mem_range, not_exists, not_and]
  constructor
  · rintro ⟨⟨v, hv, rfl⟩, hnot⟩
    refine ⟨v, ?_, hv, rfl⟩
    by_contra hc
    exact hnot v (by omega) rfl
  · rintro ⟨v, hge, hv, rfl⟩
    refine ⟨⟨v, hv, rfl⟩, fun w hw he => ?_⟩
    omega

/-- After a successful `exec` of an image of `n` pages that fit in memory the metadata is exact if and
only if no slot of the swap file was used, and the used entries of the old image were exactly those of
the pages that the new image finds no entry for. -/
theorem exec_metadata_iff {sel : Selection} (hsel : sel ≠ .NONE) {m m' : Machine}
    (hpid : 2 < m.proc.pid) (hlayout : 0x100 < m.kdata ∧ m.kdata < phystopFrame)
    (hold : m.proc.pgdir ∉ m.freelist) {ip : Option File} {argv : List (List Byte)}
    (hrun : m.exec sel ip argv = .ok (true, m')) (hmax : pagesOf m'.proc.sz ≤ maxPyscPages) :
    ExactMetadata m' ↔ (∀ i, (m.proc.swapMonitor i).used = false) ∧
      (ramTable m.proc).Indexes {a | ∃ v, min (pagesOf m'.proc.sz) (16 - ramCount m) ≤ v ∧
        v < pagesOf m'.proc.sz ∧ a = 4096 * v} := by
  obtain ⟨d, sz, hproc, hloaded, -⟩ := exec_ok hsel hpid hlayout hold hrun hmax
  have hsz : m'.proc.sz = sz := by rw [hproc]; rfl
  have hdir : m'.proc.pgdir = d := by rw [hproc]; rfl
  have htable : ramTable m'.proc =
      (ramTable m.proc).fill ((List.range (pagesOf sz)).map fun j => 4096 * j) := by
    rw [hproc, ramTable_commit, ramTable_trackPages]
  have hswap : ∀ i, (m'.proc.swapMonitor i).used = (m.proc.swapMonitor i).used := by
    intro i
    rw [hproc]
    simp only [commit, trackPages_swap]
    split_ifs <;> rfl
  have hnodup : ((List.range (pagesOf sz)).map fun j => 4096 * j).Nodup :=
    List.nodup_range.map fun a b hab => by omega
  have hindex : (ramTable m'.proc).Indexes {a | ∃ v < pagesOf sz, a = 4096 * v} ↔
      (ramTable m.proc).Indexes {a | ∃ v, min (pagesOf sz) (16 - ramCount m) ≤ v ∧
        v < pagesOf sz ∧ a = 4096 * v} := by
    rw [htable, SlotTable.fill_indexes_iff hnodup, ← untracked_pages, ramCount]
    intro a ha
    obtain ⟨v, hv, rfl⟩ := List.mem_map.1 ha
    exact ⟨v, List.mem_range.1 hv, rfl⟩
  rw [hsz]
  constructor
  · intro h
    refine ⟨fun i => by rw [← hswap]; exact h.swap i, hindex.1 ?_⟩
    rw [← hsz]
    exact h.ram
  · rintro ⟨hclear, hram⟩
    refine ⟨fun i hi => ?_, by rw [hsz]; exact hindex.2 hram, fun v hv => ?_, fun i => by
      rw [hswap]; exact hclear i⟩
    · rw [hdir]
      rw [hproc] at hi ⊢
      simp only [commit] at hi ⊢
      split_ifs at hi ⊢ with hu
      · rfl
      · exact absurd hi hu
    · rw [Present, pte, hdir]
      exact hloaded v (hsz ▸ hv)

/-! ### A small program -/

/-- A file that is an ELF header without segments. -/
def emptyProgram : File :=
  ⟨52, fun k => if k = 0 then 0x7F else if k = 1 then 0x45 else if k = 2 then 0x4C
    else if k = 3 then 0x46 else 0⟩

/-- `freevm` can give back everything in the directory. -/
structure Freeable (old : ℕ) (m : Machine) : Prop where
  kend_pos : 0 < m.kend
  page : ∀ a pte, m.walkpgdir old a = some pte → a < kernBase → flagOn pte pteP = true →
    m.kend ≤ frameOf pte ∧ frameOf pte < phystopFrame
  table : ∀ i t, m.dirs old i = some t → m.kend ≤ t.frame ∧ t.frame < phystopFrame
  dir : m.kend ≤ old ∧ old < phystopFrame

section

variable {sel : Selection} {old : ℕ} {m m' : Machine}

theorem Freeable.congr (h : Freeable old m) (hk : m'.kend = m.kend)
    (hd : m'.dirs old = m.dirs old) : Freeable old m' := by
  refine ⟨hk ▸ h.kend_pos, fun a pte hwalk => ?_, fun i t ht => ?_, hk ▸ h.dir⟩
  · rw [hk]
    refine h.page a pte ?_
    simpa only [walkpgdir, walk, hd] using hwalk
  · rw [hk]
    exact h.table i t (by rw [← hd]; exact ht)

theorem frame_of_store {dirs : ℕ → PgDir} {d a i : ℕ} {pte : Pte} {t : PageTable}
    (ht : store dirs d a pte d i = some t) : ∃ u, dirs d i = some u ∧ u.frame = t.frame := by
  unfold store at ht
  cases hta : dirs d (pdx a) with
  | none =>
    rw [hta] at ht
    exact ⟨t, ht, rfl⟩
  | some u =>
    rw [hta] at ht
    dsimp only at ht
    rw [Function.update_self] at ht
    by_cases hi : i = pdx a
    · subst hi
      rw [Function.update_self, Option.some.injEq] at ht
      subst ht
      exact ⟨u, hta, rfl⟩
    · rw [Function.update_of_ne hi] at ht
      exact ⟨t, ht, rfl⟩

theorem Freeable.clear (h : Freeable old m) (a : ℕ) : Freeable old (m.setPte old a 0) := by
  refine ⟨h.kend_pos, fun b pte hwalk hb hp => ?_, fun i t ht => ?_, h.dir⟩
  · simp only [walkpgdir, setPte, walk, store] at hwalk
    cases hta : m.dirs old (pdx a) with
    | none =>
      rw [hta] at hwalk
      exact h.page b pte hwalk hb hp
    | some u =>
      rw [hta] at hwalk
      dsimp only at hwalk
      by_cases hpdx : pdx b = pdx a
      · rw [hpdx] at hwalk
        simp only [Function.update_self, Option.map_some, Option.some.injEq] at hwalk
        by_cases hptx : ptx b = ptx a
        · rw [hptx, Function.update_self] at hwalk
          rw [← hwalk] at hp
          exact absurd hp (by decide)
        · rw [Function.update_of_ne hptx] at hwalk
          refine h.page b pte ?_ hb hp
          simp only [walkpgdir, walk, hpdx, hta, Option.map_some, hwalk]
      · rw [Function.update_self, Function.update_of_ne hpdx] at hwalk
        exact h.page b pte hwalk hb hp
  · obtain ⟨u, hu, hframe⟩ := frame_of_store ht
    rw [← hframe]
    exact h.table i u hu

theorem deallocLoop_succeeds (sel : Selection) {oldsz : ℕ} (hold : oldsz ≤ kernBase)
    (h : Freeable old m) (fuel : ℕ) {a : ℕ} (ha : a % 4096 = 0) (hfuel : oldsz ≤ a + 4096 * fuel) :
    ∃ m', deallocLoop sel old oldsz fuel a m = .ok m' ∧ Freeable old m' := by
  induction fuel generalizing a m with
  | zero =>
    refine ⟨m, ?_, h⟩
    rw [deallocLoop, if_neg (by omega)]
  | succ fuel ih =>
    rw [deallocLoop]
    by_cases hlt : a < oldsz
    · rw [if_pos hlt]
      cases hwalk : m.walkpgdir old a with
      | none =>
        refine ih h (by omega) ?_
        simp only [kernBase, pdx] at *
        omega
      | some pte =>
        dsimp only
        by_cases hp : flagOn pte pteP = true
        · obtain ⟨hlo, hhi⟩ := h.page a pte hwalk (by omega) hp
          have hpos := h.kend_pos
          rw [if_pos hp, if_neg (by omega), kfree_eq ⟨hlo, hhi⟩]
          refine ih (Freeable.clear ?_ a) (by omega) (by omega)
          split_ifs
          · exact h.congr rfl rfl
          · exact h.congr rfl rfl
        · rw [if_neg hp]
          exact ih h (by omega) (by omega)
    · rw [if_neg hlt]
      exact ⟨m, rfl, h⟩

theorem deallocuvm_succeeds (sel : Selection) {oldsz newsz : ℕ} (hold : oldsz ≤ kernBase)
    (hlt : newsz < oldsz) (h : Freeable old m) :
    ∃ m', m.deallocuvm sel old oldsz newsz = .ok (newsz, m') ∧ Freeable old m' := by
  have hround : pgRoundUp newsz = 4096 * pagesOf newsz := pgRoundUp_eq (by omega)
  obtain ⟨m', hloop, h'⟩ := deallocLoop_succeeds sel hold h (oldsz / 4096 + 1)
    (a := pgRoundUp newsz) (by omega) (by omega)
  refine ⟨m', ?_, h'⟩
  rw [deallocuvm, if_neg (by omega), hloop]
  rfl

theorem freeTables_succeeds (h : Freeable old m) (l : List ℕ) :
    ∃ m', freeTables old l m = .ok m' ∧ Freeable old m' := by
  induction l generalizing m with
  | nil => exact ⟨m, rfl, h⟩
  | cons i l ih =>
    rw [freeTables]
    cases ht : m.dirs old i with
    | none => exact ih h
    | some t =>
      dsimp only
      rw [kfree_eq (h.table i t ht)]
      exact ih (h.congr rfl rfl)

theorem freevm_succeeds (sel : Selection) (h : Freeable old m) : ∃ m', m.freevm sel old = .ok m' := by
  obtain ⟨m₁, hdealloc, h₁⟩ := deallocuvm_succeeds sel le_rfl (show 0 < kernBase by decide) h
  obtain ⟨m₂, htables, h₂⟩ := freeTables_succeeds h₁ (List.range 1024)
  have hfreed := kfree_eq h₂.dir
  rw [freevm, hdealloc]
  simp only [bind, Except.bind, pure, Except.pure, htables, hfreed]
  exact ⟨_, rfl⟩

theorem allocLoop_page (hsel : sel ≠ .NONE) (hpid : 2 < m.proc.pid) {d k : ℕ} (newsz count : ℕ)
    (h : Loaded d k m.dirs) (hk : k < 16) (hlen : 2 ≤ m.freelist.length) :
    ∃ m', allocLoop sel d 0 newsz (count + 1) k m = allocLoop sel d 0 newsz count (k + 1) m' ∧
      Loaded d (k + 1) m'.dirs ∧ HasTable m'.dirs d k ∧ flagOn (entry m'.dirs d k) pteU = true ∧
      (∀ d', d' ≠ d → m'.dirs d' = m.dirs d') ∧ m'.kend = m.kend ∧ 2 < m'.proc.pid ∧
      m'.proc.pgdir = m.proc.pgdir ∧ m.freelist.length ≤ m'.freelist.length + 2 := by
  obtain ⟨f, rest, hf⟩ : ∃ f rest, m.freelist = f :: rest :=
    List.exists_cons_of_ne_nil (List.ne_nil_of_length_pos (by omega))
  have hrest : m.freelist.length = rest.length + 1 := by rw [hf, List.length_cons]
  let m₁ : Machine := ({ m with freelist := rest }.setOwner f d k).setFrame f fun _ => 0
  have hmissing : missing m₁.dirs d {0} ≤ 1 := (Finset.card_filter_le _ _).trans (by simp)
  have hku : k < userPages := lt_trans hk (by decide)
  obtain ⟨m₂, hmap, hb, he⟩ := mapLoop_spec (m := m₁) (d := d) (v := k) (S := {0}) f
    (pteW ||| pteU) 1 (fun _ => rfl) (by omega)
    (fun w hw hwk => by rw [Finset.mem_singleton]; omega)
    (hmissing.trans (show 1 ≤ rest.length by omega))
    (fun w hw hwk => by
      show flagOn (entry m.dirs d w) pteP = false
      rw [h.2 w hw (by simp only [userPages]; omega)]
      decide)
  have hentry : ∀ w < userPages, entry m₂.dirs d w =
      if w = k then mapPte f (pteW ||| pteU) else entry m.dirs d w := by
    intro w hw
    rw [he w (lt_trans hw (by decide))]
    by_cases hwk : w = k
    · rw [if_pos (by omega), if_pos hwk, hwk, Nat.sub_self, Nat.add_zero]
    · rw [if_neg (by omega), if_neg hwk]
      rfl
  have hpid₂ : 2 < m₂.proc.pid := by
    rw [hb.same]
    exact hpid
  refine ⟨m₂.setProc (m₂.proc.add2ram d (4096 * k)), ?_, ⟨fun v hv => ?_, fun v hv hvu => ?_⟩, ?_,
    ?_, fun d' hd' => hb.other d' hd', ?_, ?_, ?_, ?_⟩
  · have ha : pgRoundUp 0 + 4096 * k = 4096 * k := by
      simp only [pgRoundUp]
      omega
    have hcount : pgRoundUp 0 / 4096 + (k + 1) = k + 1 := by
      simp only [pgRoundUp]
      omega
    have hdiv : 4096 * k / 4096 = k := by omega
    have hmap' : m₁.mappages d (4096 * k) 4096 f (pteW ||| pteU) = .ok (true, m₂) := by
      rw [mappages_page_eq (by omega), hmap]
    rw [allocLoop]
    simp only [kalloc, hf, ha, hdiv, hcount]
    show (m₁.mappages d (4096 * k) 4096 f (pteW ||| pteU) >>= _) = _
    rw [hmap']
    show (m₂.trackPage sel d (4096 * k) (k + 1) >>= _) = _
    rw [trackPage, if_pos ⟨hpid₂, hsel⟩, if_pos (by simp only [maxPyscPages]; omega)]
    rfl
  · show flagOn (entry m₂.dirs d v) pteP = true
    rw [hentry v (by simp only [userPages]; omega)]
    split_ifs with hvk
    · exact mapPte_present _
    · exact h.1 v (by omega)
  · show entry m₂.dirs d v = 0
    rw [hentry v hvu, if_neg (by omega)]
    exact h.2 v (by omega) hvu
  · show HasTable m₂.dirs d k
    by_contra hc
    have := hentry k hku
    rw [entry_of_not_hasTable hc, if_pos rfl] at this
    have hp := mapPte_present (pteW ||| pteU) (f := f)
    rw [← this] at hp
    exact absurd hp (by decide)
  · show flagOn (entry m₂.dirs d k) pteU = true
    rw [hentry k hku, if_pos rfl, mapPte_user]
    decide
  · show m₂.kend = m.kend
    rw [hb.same]
    rfl
  · show 2 < (m₂.proc.add2ram d (4096 * k)).pid
    rw [add2ram_pid]
    exact hpid₂
  · show (m₂.proc.add2ram d (4096 * k)).pgdir = m.proc.pgdir
    rw [add2ram_pgdir, hb.same]
    rfl
  · have hbudget := hb.budget
    have hlen₁ : m₁.freelist.length = rest.length := rfl
    show m.freelist.length ≤ m₂.freelist.length + 2
    omega

theorem uva2ka_page {d v : ℕ} (ht : HasTable m.dirs d v)
    (hp : flagOn (entry m.dirs d v) pteP = true) (hu : flagOn (entry m.dirs d v) pteU = true) :
    m.uva2ka d (4096 * v) = .ok (some (frameOf (entry m.dirs d v))) := by
  rw [uva2ka, walkpgdir, walk_eq_entry ht]
  simp [hp, hu]

theorem pushStack_nil {d : ℕ} (ht : HasTable m.dirs d 1)
    (hp : flagOn (entry m.dirs d 1) pteP = true) (hu : flagOn (entry m.dirs d 1) pteU = true) :
    ∃ m', m.pushStack d 8192 [] = .ok (true, m') := by
  have hka : m.uva2ka d 4096 = .ok (some (frameOf (entry m.dirs d 1))) := uva2ka_page ht hp hu
  have hround : pgRoundDown 8176 = 4096 := by decide
  have hpush : m.pushStack d 8192 [] = m.copyout d 8176
      [0xFF, 0xFF, 0xFF, 0xFF, 0, 0, 0, 0, 0xFC, 0x1F, 0, 0, 0, 0, 0, 0] := rfl
  rw [hpush, copyout, copyoutLoop, if_neg (by decide), hround, hka]
  exact ⟨_, rfl⟩

theorem loadImage_emptyProgram (hsel : sel ≠ .NONE) (hpid : 2 < m.proc.pid) {d : ℕ}
    (hzero : ∀ v < userPages, entry m.dirs d v = 0) (hlen : 4 ≤ m.freelist.length) :
    ∃ m', m.loadImage sel d emptyProgram [] = .ok (some 8192, m') ∧
      (∀ d', d' ≠ d → m'.dirs d' = m.dirs d') ∧ m'.kend = m.kend ∧
      m'.proc.pgdir = m.proc.pgdir := by
  obtain ⟨m₁, hrun₁, h₁, ht₁, -, ho₁, hk₁, hpid₁, hdir₁, hlen₁⟩ :=
    allocLoop_page hsel hpid 8192 1
      ⟨fun v hv => absurd hv (Nat.not_lt_zero v), fun v _ hv => hzero v hv⟩ (by decide)
      (show 2 ≤ m.freelist.length by omega)
  obtain ⟨m₂, hrun₂, h₂, ht₂, hu₂, ho₂, hk₂, -, hdir₂, -⟩ :=
    allocLoop_page hsel hpid₁ 8192 0 h₁ (by decide) (by omega)
  have hgrow : m.allocuvm sel d 0 8192 = .ok (8192, m₂) := by
    have hcount : (8192 - pgRoundUp 0 + 4095) / 4096 = 2 := by decide
    rw [allocuvm, if_neg (by decide), if_neg (by decide), hcount, hrun₁, hrun₂, allocLoop]
  have ht : HasTable m₂.dirs d 0 := by
    by_contra hc
    have hp := h₂.1 0 (by decide)
    rw [entry_of_not_hasTable hc] at hp
    exact absurd hp (by decide)
  have hclear : m₂.clearpteu d 0 = .ok (m₂.setPte d 0 (entry m₂.dirs d 0 &&& ~~~pteU)) := by
    have hwalk : m₂.walkpgdir d 0 = some (entry m₂.dirs d 0) := walk_eq_entry ht
    rw [clearpteu, hwalk]
  have hentry : entry (m₂.setPte d 0 (entry m₂.dirs d 0 &&& ~~~pteU)).dirs d 1 =
      entry m₂.dirs d 1 := entry_store_ne ht (by decide) _ (by decide) fun hc => absurd hc.2 (by decide)
  obtain ⟨m₃, hpush⟩ := pushStack_nil (m := m₂.setPte d 0 (entry m₂.dirs d 0 &&& ~~~pteU))
    ((hasTable_store _ _ _ _ _ _).2 ht₂) (by rw [hentry]; exact h₂.1 1 (by decide))
    (by rw [hentry]; exact hu₂)
  have hdata := pushStack_ok hpush
  refine ⟨m₃, ?_, fun d' hd' => ?_, ?_, ?_⟩
  · have hseg : loadSegments sel emptyProgram d (emptyProgram.u16 44) (emptyProgram.u32 28) 0 m =
        .ok (some 0, m) := rfl
    have hround : pgRoundUp 0 = 0 := by decide
    rw [loadImage, hseg]
    simp only [bind, Except.bind, pure, Except.pure, hround, Nat.zero_add, Nat.reduceMod, hgrow,
      Nat.reduceSub, hclear, hpush, Nat.reduceEqDiff, if_false, if_true]
  · rw [hdata, ← ho₁ d' hd', ← ho₂ d' hd']
    exact (Extends.setPte d m₂ _ _).other d' hd'
  · rw [hdata, ← hk₁, ← hk₂]
    rfl
  · rw [hdata, ← hdir₁, ← hdir₂]
    rfl

theorem exec_emptyProgram (hsel : sel ≠ .NONE) (hpid : 2 < m.proc.pid)
    (hlayout : 0x100 < m.kdata ∧ m.kdata < phystopFrame) (hlen : 69 ≤ m.freelist.length)
    (hold : m.proc.pgdir ∉ m.freelist) (hfree : Freeable m.proc.pgdir m) :
    ∃ m', m.exec sel (some emptyProgram) [] = .ok (true, m') ∧ m'.proc.sz = 8192 := by
  obtain ⟨d, rest, hf⟩ : ∃ d rest, m.freelist = d :: rest :=
    List.exists_cons_of_ne_nil (List.ne_nil_of_length_pos (by omega))
  have hrest : m.freelist.length = rest.length + 1 := by rw [hf, List.length_cons]
  have hne : m.proc.pgdir ≠ d := by
    rintro rfl
    exact hold (hf ▸ List.mem_cons_self)
  obtain ⟨m₁, hsetup, hb, hzero, -, hlen₁⟩ := setupkvm_spec sel hf (by omega) hlayout
  have hproc₁ : m₁.proc = m.proc := by
    rw [hb.same]
    rfl
  obtain ⟨m₂, hload, ho, hk, hdir⟩ :=
    loadImage_emptyProgram hsel (hproc₁ ▸ hpid) hzero (show 4 ≤ m₁.freelist.length by omega)
  have hfree₂ : Freeable m₂.proc.pgdir (m₂.setProc (commit m₂.proc d 8192)) := by
    rw [hdir, hproc₁]
    refine hfree.congr ?_ ?_
    · show m₂.kend = m.kend
      rw [hk, hb.same]
      rfl
    · show m₂.dirs m.proc.pgdir = m.dirs m.proc.pgdir
      rw [ho _ hne, hb.other _ hne]
      exact Function.update_of_ne hne _ _
  obtain ⟨m₃, hrun⟩ := freevm_succeeds sel hfree₂
  refine ⟨m₃, ?_, (freevm_ok hrun).sz⟩
  rw [exec, if_neg (by decide), if_neg (by decide), hsetup]
  simp only [bind, Except.bind, pure, Except.pure, hload, hrun]

end

theorem sample_freeable {n frames : ℕ} {last : Int} (hn : n ≤ 16) :
    Freeable 512 (sampleMachine n last frames) := by
  refine ⟨show 0 < 512 by decide, fun a pte hwalk _ hp => ?_, fun i t ht => ?_,
    show 512 ≤ 512 ∧ 512 < phystopFrame by decide⟩
  · have hpte : pte = samplePte n (ptx a) := by
      by_cases hi : pdx a = 0
      · simpa [walkpgdir, walk, sampleMachine, hi, eq_comm] using hwalk
      · simp [walkpgdir, walk, sampleMachine, hi] at hwalk
    by_cases hlt : ptx a < n
    · rw [hpte, (samplePte_flags hn hlt).2.2.2.1]
      simp only [sampleMachine, phystopFrame]
      omega
    · rw [hpte, samplePte_absent (not_lt.1 hlt)] at hp
      exact absurd hp (by decide)
  · simp only [sampleMachine] at ht
    split_ifs at ht
    cases ht
    exact show 512 ≤ 513 ∧ 513 < phystopFrame by decide

theorem sample_exec {sel : Selection} (hsel : sel ≠ .NONE) {n : ℕ} (hn : n ≤ 16) (last : Int) :
    ∃ m', (sampleMachine n last 100).exec sel (some emptyProgram) [] = .ok (true, m') ∧
      m'.proc.sz = 8192 := by
  have hlen : (sampleMachine n last 100).freelist.length = 100 := by
    simp only [sampleMachine, List.length_map, List.length_range]
  have hold : 512 ∉ (sampleMachine n last 100).freelist := by
    simp only [sampleMachine, List.mem_map, List.mem_range, not_exists, not_and]
    omega
  exact exec_emptyProgram hsel (Nat.lt_succ_self 2)
    (show 0x100 < 264 ∧ 264 < phystopFrame by decide) (by omega) hold (sample_freeable hn)

/-- A process without tracked pages, as `userinit` starts one, gets exact metadata. -/
theorem exec_metadata_sample :
    ∃ m', (sampleMachine 0 0 100).exec .SCFIFO (some emptyProgram) [] = .ok (true, m') ∧
      ExactMetadata m' := by
  obtain ⟨m', hrun, hsz⟩ := sample_exec (show Selection.SCFIFO ≠ .NONE by decide) (Nat.zero_le 16) 0
  have hpages : pagesOf m'.proc.sz = 2 := by
    rw [hsz]
    decide
  refine ⟨m', hrun, (exec_metadata_iff (by decide) (by decide) (by decide) (by decide +kernel) hrun
    (by rw [hpages]; decide)).2 ⟨fun _ => rfl, ?_⟩⟩
  have hcount : ramCount (sampleMachine 0 0 100) = 0 := by decide +kernel
  rw [hpages, hcount]
  have hnone : {a | ∃ v, min 2 (16 - 0) ≤ v ∧ v < 2 ∧ a = 4096 * v} = (∅ : Set ℕ) := by
    ext a
    simp only [Set.mem_ofPred_eq, Set.mem_empty_iff_false, iff_false, not_exists]
    omega
  have hunused : {i | (ramTable (sampleMachine 0 0 100).proc).used i} = ∅ := by
    ext i
    simp [ramTable, sampleMachine]
  rw [hnone, SlotTable.Indexes, hunused]
  exact Set.bijOn_empty _

/-- The three tracked pages of the old image keep their entries. -/
theorem exec_keeps_entries :
    ∃ m', (sampleMachine 3 3 100).exec .SCFIFO (some emptyProgram) [] = .ok (true, m') ∧
      m'.proc.sz = 8192 ∧ ¬ ExactMetadata m' := by
  obtain ⟨m', hrun, hsz⟩ := sample_exec (show Selection.SCFIFO ≠ .NONE by decide) (show 3 ≤ 16 by decide) 3
  have hpages : pagesOf m'.proc.sz = 2 := by
    rw [hsz]
    decide
  obtain ⟨d, sz, hproc, -⟩ := exec_ok (by decide) (by decide) (by decide) (by decide +kernel) hrun
    (by rw [hpages]; decide)
  have hsz' : sz = 8192 := by
    rw [← hsz, hproc]
    rfl
  have htable : ramTable m'.proc = (ramTable (sampleMachine 3 3 100).proc).fill [0, 4096] := by
    rw [hproc, ramTable_commit, ramTable_trackPages, hsz']
    rfl
  have hkeep : (ramTable m'.proc).used 2 = true ∧ (ramTable m'.proc).key 2 = 8192 := by
    rw [htable]
    decide +kernel
  refine ⟨m', hrun, hsz, fun h => ?_⟩
  obtain ⟨v, hv, heq⟩ := h.ram.mapsTo hkeep.1
  rw [hkeep.2] at heq
  omega

end Xv6
