import Xv6.Protection
import Xv6.System

/-!
# The counter of protected pages

`p->protected` is counted up by `protect_page` and `page_out`, down by `pfree` and `page_in`, and set to
0 by `procdump`.  The runs here keep the set of pages that `protect_page` has write-protected and
`pfree` has not released, next to the machine.  The counter is the size of that set as long as nothing
is paged, no page is protected twice, and `procdump` finds the set empty.

The parts of `pmalloc` and `pfree` that work on the heap itself are loads, stores and `sbrk` of the
program.
-/

namespace Xv6

namespace Machine

/-- User loads of single bytes, until one kills the process. -/
def loadBytes (sel : Selection) : List ℕ → Machine → Except Halt (Option (List ℕ) × Machine)
  | [], m => .ok (some [], m)
  | va :: rest, m => do
    let (b, m) ← m.load sel va
    match b with
    | none => return (none, m)
    | some b =>
      let (bs, m) ← loadBytes sel rest m
      return (bs.map (b.toNat :: ·), m)

/-- The size in the header before `ap`: the word at `ap - 4`. -/
def headerSize (sel : Selection) (m : Machine) (ap : ℕ) : Except Halt (Option ℕ × Machine) := do
  let (bs, m) ← loadBytes sel [ap - 1, ap - 2, ap - 3, ap - 4] m
  return (bs.map (List.foldl (fun n b => 256 * n + b) 0), m)

def protectPage (sel : Selection) (m : Machine) (ap : ℕ) : Except Halt (Int × Machine) := do
  if ← m.isFlagOn ap pte1 then
    let (size, m) ← m.headerSize sel ap
    if size = some 513 then
      let m ← m.turnFlag ap pteW false
      return (1, m.setProc (m.proc.updateProtectedPages true))
    else return (-1, m)
  else return (-1, m)

/-- `pfree`, up to the call of `free`. -/
def pfree (sel : Selection) (m : Machine) (ap : ℕ) : Except Halt (Int × Machine) := do
  if ← m.isFlagOn ap pte1 then
    if ← m.isFlagOn ap pteW then return (-1, m)
    else
      let (size, m) ← m.headerSize sel ap
      if size = some 513 then
        let m ← m.turnFlag ap pteW true
        return (1, m.setProc (m.proc.updateProtectedPages false))
      else return (-1, m)
  else return (-1, m)

end Machine

/-- What a program does that uses protected pages. -/
inductive PageEvent
  /-- Growth, loads and stores, with the faults they take. -/
  | mem (e : Event)
  /-- `pmalloc` returns `ap`, whose page it has marked. -/
  | pmalloc (ap : ℕ)
  | protectPage (ap : ℕ)
  | pfree (ap : ℕ)
  | procdump

/-- A process, with the pages that are protected. -/
structure Guarded where
  m : Machine
  /-- Write-protected by `protect_page` and not released by `pfree`. -/
  prot : Finset ℕ

namespace Guarded

def step (sel : Selection) (s : Guarded) : PageEvent → Except Halt Guarded
  | .mem e => do
    let m ← Xv6.step sel s.m e
    return { s with m := m }
  | .pmalloc ap => do
    let m ← s.m.turnFlag ap pte1 true
    return { s with m := m }
  | .protectPage ap => do
    let (r, m) ← s.m.protectPage sel ap
    return ⟨m, if r = 1 then insert (ap / 4096) s.prot else s.prot⟩
  | .pfree ap => do
    let (r, m) ← s.m.pfree sel ap
    return ⟨m, if r = 1 then s.prot.erase (ap / 4096) else s.prot⟩
  | .procdump => .ok { s with m := s.m.setProc { s.m.proc with protectedPages := 0 } }

/-- The mark of `pmalloc` on page `v`. -/
def Marked (s : Guarded) (v : ℕ) : Prop := flagOn (s.m.pte v) pte1 = true

instance (s : Guarded) (v : ℕ) : Decidable (s.Marked v) := inferInstanceAs (Decidable (_ = _))

/-- The counter is the number of protected pages. -/
def Exact (s : Guarded) : Prop := s.m.proc.protectedPages = (s.prot.filter s.Marked).card

instance (s : Guarded) : Decidable s.Exact := inferInstanceAs (Decidable (_ = _))

/-- A process that has marked nothing yet. -/
structure Start (s : Guarded) : Prop where
  prot : s.prot = ∅
  counter : s.m.proc.protectedPages = 0
  size : 0 < s.m.proc.sz
  unmarked : ∀ v < userPages, ¬ s.Marked v

/-- The process only grows, and the pointers are its own. -/
def Proper (s : Guarded) : PageEvent → Prop
  | .mem e => KeepsPages s.m e
  | .pmalloc ap => ap < kernBase ∧ ap / 4096 < pagesOf s.m.proc.sz
  | .protectPage ap => 8 ≤ ap ∧ ap < kernBase
  | .pfree ap => 8 ≤ ap ∧ ap < kernBase
  | .procdump => True

/-- Between two states no page went out and none came in. -/
def Quiet (m m' : Machine) : Prop :=
  m'.proc.pagesInFile = m.proc.pagesInFile ∧ m'.proc.pageFaultCounter = m.proc.pageFaultCounter

instance (m m' : Machine) : Decidable (Quiet m m') := inferInstanceAs (Decidable (_ ∧ _))

/-- The step is one that the counter keeps up with. -/
def Counts (sel : Selection) (s : Guarded) (e : PageEvent) : Prop :=
  (∀ s', step sel s e = .ok s' → Quiet s.m s'.m) ∧ match e with
    | .mem _ => True
    | .pmalloc ap => flagOn (s.m.pte (ap / 4096)) pteW = true ∨ ap / 4096 ∈ s.prot
    | .protectPage ap => ap / 4096 ∉ s.prot
    | .pfree _ => True
    | .procdump => s.prot = ∅

end Guarded

open Machine

section

variable {S : Scope} {sel : Selection} {m m' m'' : Machine} {x y z : Pte} {d v n : ℕ} {a count va : ℕ}
  {r : Option ℕ}

/-! ### Marks and write access -/

/-- No mark appears, and a marked entry loses no write access. -/
def Milder (x y : Pte) : Prop :=
  flagOn y pte1 = true → flagOn x pte1 = true ∧ (flagOn y pteW = false → flagOn x pteW = false)

theorem Milder.refl (x : Pte) : Milder x x := fun hx => ⟨hx, id⟩

theorem Milder.trans (h : Milder x y) (h' : Milder y z) : Milder x z := by
  intro hz
  obtain ⟨hy, hyW⟩ := h' hz
  obtain ⟨hx, hxW⟩ := h hy
  exact ⟨hx, hxW ∘ hyW⟩

theorem PteMove.milder (h : PteMove x y) : Milder x y := by
  intro hy
  refine ⟨h.pmalloc ▸ hy, fun hW => ?_⟩
  cases h with
  | soft h => rwa [← flagOn_pteW_congr h]
  | pageOut => rwa [pageOutPte_writable] at hW
  | pageIn f =>
    rw [pageInPte_writable] at hW
    cases hW

theorem Changes.milder (h : Changes S n m m') (hv : v < userPages) (hM : ¬ ∀ v, S.map d v) :
    Milder (entry m.dirs d v) (entry m'.dirs d v) := by
  induction h with
  | refl => exact Milder.refl _
  | tail _ hc ih =>
    refine ih.trans ?_
    rcases hc.entry_cases (lt_trans hv (by decide)) hM with hmove | ⟨-, hhigh | hunmarked⟩
    · exact hmove.milder
    · exact absurd hv (not_lt.2 hhigh)
    · intro hmarked
      rw [hunmarked] at hmarked
      cases hmarked

/-! ### The counter -/

/-- The statistics grow, and while they stand still the counter does. -/
structure Tallied (p p' : Proc) : Prop where
  file : p.pagesInFile ≤ p'.pagesInFile
  fault : p.pageFaultCounter ≤ p'.pageFaultCounter
  counter : p'.pagesInFile = p.pagesInFile → p'.pageFaultCounter = p.pageFaultCounter →
    p'.protectedPages = p.protectedPages

theorem Tallied.refl (p : Proc) : Tallied p p := ⟨le_rfl, le_rfl, fun _ _ => rfl⟩

theorem Tallied.trans {p p' p'' : Proc} (h : Tallied p p') (h' : Tallied p' p'') : Tallied p p'' where
  file := h.file.trans h'.file
  fault := h.fault.trans h'.fault
  counter hfile hfault := by
    have h₁ := h.file
    have h₂ := h.fault
    have h₃ := h'.file
    have h₄ := h'.fault
    exact (h'.counter (by omega) (by omega)).trans (h.counter (by omega) (by omega))

theorem add2ram_tallied (p : Proc) (d a : ℕ) : Tallied p (p.add2ram d a) := by
  unfold Proc.add2ram
  split
  · exact Tallied.refl p
  · exact ⟨le_rfl, le_rfl, fun _ _ => rfl⟩

theorem swap_tallied (hrun : m.swap sel d a = .ok m') : Tallied m.proc m'.proc := by
  obtain ⟨hfile, hfault⟩ := (swap_counted (S := above sel 0) hrun (tracks_above _ _ _) trivial).statistics
  change m.proc.pagesInFile + 1 ≤ m'.proc.pagesInFile at hfile
  exact ⟨by omega, hfault, fun hc => by omega⟩

theorem deallocuvm_tallied {oldsz newsz r : ℕ} (hrun : m.deallocuvm sel d oldsz newsz = .ok (r, m')) :
    Tallied m.proc m'.proc := by
  refine deallocuvm_induct (P := fun m => Tallied m.proc m'.proc) hrun (Tallied.refl _)
    fun a m pte _ _ _ _ _ _ ih => ?_
  rw [dropAt_eq] at ih
  split_ifs at ih
  · exact ih
  · exact ⟨ih.file, ih.fault, ih.counter⟩

theorem mapLoop_proc {perm : Pte} {f : ℕ} {ok : Bool}
    (hrun : mapLoop d perm count a f m = .ok (ok, m')) : m'.proc = m.proc := by
  induction count generalizing a f m with
  | zero =>
    cases hrun
    rfl
  | succ count ih =>
    unfold mapLoop at hrun
    split at hrun
    · cases hrun
      rfl
    · rename_i m₁ halloc
      have hproc : m₁.proc = m.proc := by
        obtain ⟨-, rfl⟩ | ⟨-, g, rest, -, rfl⟩ := walkpgdirAlloc_cases halloc <;> rfl
      split at hrun
      · cases hrun
      · split at hrun
        · cases hrun
        · exact (ih hrun).trans hproc

theorem trackPage_tallied (hrun : m.trackPage sel d a count = .ok m') :
    Tallied m.proc m'.proc := by
  unfold trackPage at hrun
  split at hrun
  · split at hrun
    · cases hrun
      exact add2ram_tallied _ d a
    · exact swap_tallied hrun
  · cases hrun
    exact Tallied.refl _

theorem allocLoop_tallied {oldsz newsz i r : ℕ}
    (hrun : allocLoop sel d oldsz newsz count i m = .ok (r, m')) : Tallied m.proc m'.proc := by
  induction count generalizing i m with
  | zero =>
    cases hrun
    exact Tallied.refl _
  | succ count ih =>
    unfold allocLoop at hrun
    dsimp only at hrun
    split at hrun
    · obtain ⟨⟨r', m₁⟩, hdealloc, hrun⟩ := Run.bind_ok hrun
      cases hrun
      exact deallocuvm_tallied hdealloc
    · rename_i f m₀ hkalloc
      obtain ⟨rest, -, rfl⟩ := kalloc_ok hkalloc
      obtain ⟨⟨ok, m₁⟩, hmap, hrun⟩ := Run.bind_ok hrun
      obtain ⟨m₂, htrack, hrun⟩ := Run.bind_ok hrun
      unfold mappages at hmap
      have hproc := mapLoop_proc hmap
      change m₁.proc = m.proc at hproc
      have htallied := trackPage_tallied htrack
      rw [hproc] at htallied
      exact htallied.trans (ih hrun)

theorem trap_tallied {user : Bool} (hrun : m.trap sel va user = .ok m')
    (hva : va < 0x100000000) : Tallied m.proc m'.proc := by
  have hdefault : ∀ {m₁ : Machine}, m₁.trapDefault va user = .ok m' → Tallied m₁.proc m'.proc := by
    intro m₁ hrun
    obtain ⟨b, -, hrun⟩ := Run.bind_ok hrun
    cases user with
    | false => cases hrun
    | true =>
      cases hrun
      exact ⟨le_rfl, le_rfl, fun _ _ => rfl⟩
  unfold trap at hrun
  split at hrun
  · obtain ⟨b, hflag, hrun⟩ := Run.bind_ok hrun
    obtain ⟨pte, hwalk, hb⟩ := isFlagOn_ok hflag
    cases b with
    | false => exact hdefault hrun
    | true =>
      obtain ⟨⟨r, m₁⟩, hdisk, hrun⟩ := Run.bind_ok hrun
      have hpg : MarkedOut m (va / 4096) := by
        intro pte' hwalk'
        rw [walkpgdir, ← walk_page] at hwalk'
        obtain rfl : pte = pte' := Option.some.inj (hwalk.symm.trans hwalk')
        exact hb
      obtain ⟨hfile, hfault⟩ := (pageFromDisk_counted (S := above sel 0) hdisk (tracks_above _ _ _) hva
        (fun _ => trivial) hpg).statistics
      change m.proc.pageFaultCounter + 1 ≤ m₁.proc.pageFaultCounter at hfault
      have htallied : Tallied m.proc m₁.proc := ⟨hfile, by omega, fun _ hc => by omega⟩
      dsimp only at hrun
      split at hrun
      · cases hrun
        exact htallied
      · exact htallied.trans (hdefault hrun)
  · exact hdefault hrun

theorem access_tallied {write : Bool}
    (hrun : m.access sel va write = .ok (r, m')) (hva : va < 0x100000000) :
    Tallied m.proc m'.proc := by
  have htouch : ∀ m : Machine, (m.touch va write).proc = m.proc := by
    intro m
    unfold touch
    split
    · rfl
    · rfl
  unfold access at hrun
  split at hrun
  · cases hrun
    rw [htouch]
    exact Tallied.refl _
  · obtain ⟨m₁, htrap, hrun⟩ := Run.bind_ok hrun
    have htallied := trap_tallied htrap hva
    split at hrun
    · cases hrun
      exact htallied
    · split at hrun
      · cases hrun
        rwa [htouch]
      · cases hrun

/-! ### Memory accesses and growth -/

/-- What growth, loads and stores do to the pages and to the counter. -/
structure Tame (m m' : Machine) : Prop where
  keeps : Keeps m m'
  milder : ∀ v < userPages, Milder (m.pte v) (m'.pte v)
  tallied : Tallied m.proc m'.proc

theorem Tame.refl (m : Machine) : Tame m m := ⟨Keeps.refl m, fun _ _ => Milder.refl _, Tallied.refl _⟩

theorem Tame.trans (h : Tame m m') (h' : Tame m' m'') : Tame m m'' where
  keeps := h.keeps.trans h'.keeps
  milder v hv := (h.milder v hv).trans (h'.milder v hv)
  tallied := h.tallied.trans h'.tallied

theorem not_above (hsz : 0 < m.proc.sz) (sel : Selection) (d : ℕ) :
    ¬ ∀ v, (above sel (pagesOf m.proc.sz)).map d v := by
  intro hall
  have hle : pagesOf m.proc.sz ≤ 0 := hall 0
  simp only [pagesOf] at hle
  omega

theorem growproc_tame {k r : Int} (hk : 0 ≤ k) (hsz : 0 < m.proc.sz)
    (hrun : m.growproc sel k = .ok (r, m')) : Tame m m' := by
  refine ⟨growproc_keeps hk hrun, fun v hv => ?_, ?_⟩
  · unfold growproc at hrun
    dsimp only at hrun
    split at hrun
    · obtain ⟨⟨sz, m₁⟩, halloc, hrun⟩ := Run.bind_ok hrun
      have hc := allocuvm_changes (S := above sel (pagesOf m.proc.sz)) halloc
        (tracks_above _ _ _) (fun _ _ => trivial) fun _ hv => hv
      have hmilder := hc.milder hv (not_above hsz sel m.proc.pgdir)
      have hdir := hc.id.2.2.1
      dsimp only at hrun
      split at hrun
      · cases hrun
        rw [pte, pte, hdir]
        exact hmilder
      · cases hrun
        show Milder (entry _ _ v) (entry m₁.dirs m₁.proc.pgdir v)
        rw [hdir]
        exact hmilder
    · split at hrun
      · omega
      · cases hrun
        exact Milder.refl _
  · unfold growproc at hrun
    dsimp only at hrun
    split at hrun
    · obtain ⟨⟨sz, m₁⟩, halloc, hrun⟩ := Run.bind_ok hrun
      have htallied : Tallied m.proc m₁.proc := by
        unfold allocuvm at halloc
        split at halloc
        · cases halloc
          exact Tallied.refl _
        · split at halloc
          · cases halloc
            exact Tallied.refl _
          · exact allocLoop_tallied halloc
      dsimp only at hrun
      split at hrun
      · cases hrun
        exact htallied
      · cases hrun
        exact ⟨htallied.file, htallied.fault, htallied.counter⟩
    · split at hrun
      · omega
      · cases hrun
        exact Tallied.refl _

theorem access_tame {write : Bool} (hsz : 0 < m.proc.sz)
    (hrun : m.access sel va write = .ok (r, m')) (hva : va < 0x100000000) : Tame m m' := by
  have hc := access_changes (S := above sel (pagesOf m.proc.sz)) hrun (tracks_above _ _ _) hva
    fun _ => trivial
  refine ⟨access_keeps hrun hva, fun v hv => ?_, access_tallied hrun hva⟩
  rw [pte, pte, hc.id.2.2.1]
  exact hc.milder hv (not_above hsz sel m.proc.pgdir)

theorem load_tame {b : Option Byte} (hsz : 0 < m.proc.sz)
    (hrun : m.load sel va = .ok (b, m')) (hva : va < 0x100000000) : Tame m m' := by
  obtain ⟨⟨f, m₁⟩, haccess, hrun⟩ := Run.bind_ok hrun
  cases hrun
  exact access_tame hsz haccess hva

theorem step_tame {e : Event} (hsz : 0 < m.proc.sz) (he : KeepsPages m e)
    (hrun : step sel m e = .ok m') : Tame m m' := by
  cases e with
  | sbrk n =>
    obtain ⟨⟨r, m₁⟩, hgrow, hrun⟩ := Run.bind_ok hrun
    cases hrun
    exact growproc_tame he hsz hgrow
  | load va =>
    obtain ⟨⟨b, m₁⟩, hload, hrun⟩ := Run.bind_ok hrun
    cases hrun
    exact load_tame hsz hload he
  | store va b =>
    obtain ⟨⟨f, m₂⟩, haccess, hrun⟩ := Run.bind_ok hrun
    have htame := access_tame hsz haccess he
    cases f with
    | none =>
      cases hrun
      exact htame
    | some f =>
      cases hrun
      exact ⟨⟨htame.keeps.pgdir, htame.keeps.sz, htame.keeps.moves⟩, htame.milder, htame.tallied⟩
  | others next =>
    refine ⟨step_keeps he hrun, fun v hv => ?_, ?_⟩
    · cases hrun
      exact PteMove.milder (.soft (he v hv))
    · cases hrun
      exact Tallied.refl _

theorem loadBytes_tame {vas : List ℕ} {r : Option (List ℕ)} (hsz : 0 < m.proc.sz)
    (hrun : loadBytes sel vas m = .ok (r, m')) (hvas : ∀ va ∈ vas, va < 0x100000000) :
    Tame m m' := by
  induction vas generalizing m r with
  | nil =>
    cases hrun
    exact Tame.refl _
  | cons va vas ih =>
    obtain ⟨⟨b, m₁⟩, hload, hrun⟩ := Run.bind_ok hrun
    have htame := load_tame hsz hload (hvas va List.mem_cons_self)
    cases b with
    | none =>
      cases hrun
      exact htame
    | some b =>
      obtain ⟨⟨bs, m₂⟩, hrest, hrun⟩ := Run.bind_ok hrun
      cases hrun
      refine htame.trans (ih (hsz.trans_le htame.keeps.sz) hrest fun va hva => ?_)
      exact hvas va (List.mem_cons_of_mem _ hva)

theorem headerSize_tame {ap : ℕ} (hsz : 0 < m.proc.sz)
    (hrun : m.headerSize sel ap = .ok (r, m')) (hap : ap < kernBase) : Tame m m' := by
  obtain ⟨⟨bs, m₁⟩, hload, hrun⟩ := Run.bind_ok hrun
  cases hrun
  refine loadBytes_tame hsz hload fun va hva => ?_
  simp only [List.mem_cons, List.not_mem_nil, or_false] at hva
  simp only [kernBase] at hap
  omega

end

namespace Guarded

section

variable {sel : Selection} {s s' : Guarded} {m : Machine} {ap v : ℕ}

/-- The invariant of the runs: marked pages lie below the size, protected pages are marked, and a
marked page without write access is protected. -/
structure Inv (s : Guarded) : Prop where
  size : 0 < s.m.proc.sz
  below : ∀ v < userPages, s.Marked v → v < pagesOf s.m.proc.sz
  marked : ∀ v ∈ s.prot, v < userPages ∧ s.Marked v
  unwritable : ∀ v < userPages, s.Marked v → flagOn (s.m.pte v) pteW = false → v ∈ s.prot

theorem Start.inv (hs : Start s) : Inv s ∧ s.Exact := by
  refine ⟨⟨hs.size, fun v hv hm => absurd hm (hs.unmarked v hv), fun v hv => ?_,
    fun v hv hm => absurd hm (hs.unmarked v hv)⟩, ?_⟩
  · rw [hs.prot] at hv
    cases hv
  · rw [Exact, hs.prot, hs.counter]
    rfl

/-- Every protected page is marked, so the counter counts them all. -/
theorem Inv.exact_iff (hi : Inv s) : s.Exact ↔ s.m.proc.protectedPages = s.prot.card := by
  rw [Exact, Finset.filter_true_of_mem fun v hv => (hi.marked v hv).2]

theorem Inv.tame (hi : Inv s) (ht : Tame s.m m) : Inv ⟨m, s.prot⟩ where
  size := hi.size.trans_le ht.keeps.sz
  below v hv hm := by
    have hlt := hi.below v hv (ht.milder v hv hm).1
    have hsz := ht.keeps.sz
    show v < pagesOf m.proc.sz
    simp only [pagesOf] at *
    omega
  marked v hv := by
    obtain ⟨hlt, hm⟩ := hi.marked v hv
    refine ⟨hlt, ?_⟩
    show flagOn (m.pte v) pte1 = true
    rw [(ht.keeps.moves v hlt (hi.below v hlt hm)).pmalloc]
    exact hm
  unwritable v hv hm hW := by
    obtain ⟨hm', hW'⟩ := ht.milder v hv hm
    exact hi.unwritable v hv hm' (hW' hW)

theorem turnFlag_pte {flag : Pte} {on : Bool} {m' : Machine} (hrun : m.turnFlag ap flag on = .ok m')
    (hap : ap < kernBase) :
    m'.proc = m.proc ∧ (∀ v < userPages, v ≠ ap / 4096 → m'.pte v = m.pte v) ∧
      m'.pte (ap / 4096) = if on then m.pte (ap / 4096) ||| flag else m.pte (ap / 4096) &&& ~~~flag := by
  have hpage : ap / 4096 < 0x100000 := by
    simp only [kernBase] at hap
    omega
  unfold turnFlag at hrun
  split at hrun
  · cases hrun
  · rename_i pte hwalk
    cases hrun
    rw [walkpgdir, walk_page] at hwalk
    have htable := hasTable_of_walk hwalk
    have hentry : m.pte (ap / 4096) = pte := entry_of_walk hwalk
    refine ⟨rfl, fun v hv hne => ?_, ?_⟩
    · show entry (store _ _ _ _) _ v = _
      rw [store_page, entry_store_ne htable hpage _ (lt_trans hv (by decide)) fun hc => hne hc.2]
      rfl
    · show entry (store _ _ _ _) m.proc.pgdir _ = _
      rw [store_page, entry_store_self htable hpage, hentry]

theorem Inv.mark (hi : Inv s) (hap : ap < kernBase) (hlt : ap / 4096 < pagesOf s.m.proc.sz)
    (hok : flagOn (s.m.pte (ap / 4096)) pteW = true ∨ ap / 4096 ∈ s.prot)
    (hrun : s.m.turnFlag ap pte1 true = .ok m) : Inv ⟨m, s.prot⟩ ∧ m.proc = s.m.proc := by
  obtain ⟨hproc, hother, hpte⟩ := turnFlag_pte hrun hap
  rw [if_pos rfl] at hpte
  have hW : flagOn (m.pte (ap / 4096)) pteW = flagOn (s.m.pte (ap / 4096)) pteW := by
    rw [hpte, flagOn_or]
    exact Bool.or_false _
  have hM : ∀ {v}, v < userPages → v ≠ ap / 4096 → (Marked ⟨m, s.prot⟩ v ↔ s.Marked v) := by
    intro v hv hne
    rw [Marked, Marked, hother v hv hne]
  refine ⟨⟨hproc ▸ hi.size, fun v hv hm => ?_, fun v hv => ?_, fun v hv hm hWv => ?_⟩, hproc⟩
  · show v < pagesOf m.proc.sz
    rw [hproc]
    by_cases hne : v = ap / 4096
    · rw [hne]
      exact hlt
    · exact hi.below v hv ((hM hv hne).1 hm)
  · obtain ⟨hlt', hm⟩ := hi.marked v hv
    refine ⟨hlt', ?_⟩
    by_cases hne : v = ap / 4096
    · show flagOn (m.pte v) pte1 = true
      rw [hne, hpte, flagOn_or]
      exact Bool.or_true _
    · exact (hM hlt' hne).2 hm
  · by_cases hne : v = ap / 4096
    · subst hne
      refine hok.resolve_left fun hc => ?_
      change flagOn (m.pte (ap / 4096)) pteW = false at hWv
      rw [hW, hc] at hWv
      cases hWv
    · change flagOn (m.pte v) pteW = false at hWv
      rw [hother v hv hne] at hWv
      exact hi.unwritable v hv ((hM hv hne).1 hm) hWv

theorem Inv.turnW (hi : Inv s) (hap : ap < kernBase) (hmarked : s.Marked (ap / 4096)) (on up : Bool)
    (hrun : s.m.turnFlag ap pteW on = .ok m) :
    Inv ⟨m.setProc (m.proc.updateProtectedPages up),
      if on then s.prot.erase (ap / 4096) else insert (ap / 4096) s.prot⟩ := by
  obtain ⟨hproc, hother, hpte⟩ := turnFlag_pte hrun hap
  have hpage : ap / 4096 < userPages := by
    simp only [kernBase, userPages] at *
    omega
  have h1 : flagOn (m.pte (ap / 4096)) pte1 = true := by
    rw [hpte]
    cases on with
    | false =>
      rw [if_neg (by decide), flagOn_pte1, BitVec.getLsbD_and, ← flagOn_pte1, hmarked]
      decide
    | true =>
      rw [if_pos rfl, flagOn_or, hmarked]
      rfl
  have hM : ∀ {v}, v < userPages → (flagOn (m.pte v) pte1 = true ↔ s.Marked v) := by
    intro v hv
    by_cases hne : v = ap / 4096
    · subst hne
      exact iff_of_true h1 hmarked
    · rw [Marked, hother v hv hne]
  refine ⟨?_, fun v hv hm => ?_, fun v hv => ?_, fun v hv hm hWv => ?_⟩
  · show 0 < m.proc.sz
    rw [hproc]
    exact hi.size
  · show v < pagesOf m.proc.sz
    rw [hproc]
    exact hi.below v hv ((hM hv).1 hm)
  · have hin : v ∈ insert (ap / 4096) s.prot := by
      cases on with
      | false => exact hv
      | true => exact Finset.mem_insert_of_mem (Finset.mem_of_mem_erase hv)
    have hlt : v < userPages ∧ s.Marked v := by
      rcases Finset.mem_insert.1 hin with rfl | hin
      · exact ⟨hpage, hmarked⟩
      · exact hi.marked v hin
    exact ⟨hlt.1, (hM hlt.1).2 hlt.2⟩
  · change flagOn (m.pte v) pteW = false at hWv
    by_cases hne : v = ap / 4096
    · subst hne
      cases on with
      | false => exact Finset.mem_insert_self _ _
      | true =>
        rw [hpte, if_pos rfl, flagOn_or, show flagOn pteW pteW = true by decide, Bool.or_true] at hWv
        cases hWv
    · rw [hother v hv hne] at hWv
      have hin := hi.unwritable v hv ((hM hv).1 hm) hWv
      cases on with
      | false => exact Finset.mem_insert_of_mem hin
      | true => exact Finset.mem_erase.2 ⟨hne, hin⟩

theorem marked_of_isFlagOn {flag : Pte} {b : Bool} (hrun : m.isFlagOn ap flag = .ok b) :
    flagOn (m.pte (ap / 4096)) flag = b := by
  obtain ⟨pte, hwalk, hb⟩ := isFlagOn_ok hrun
  rw [walkpgdir, walk_page] at hwalk
  rw [Machine.pte, entry_of_walk hwalk]
  exact hb

theorem page_lt (hap : ap < kernBase) : ap / 4096 < userPages := by
  simp only [kernBase, userPages] at *
  omega

theorem Inv.header (hi : Inv s) (hap : ap < kernBase) (hmark : s.Marked (ap / 4096)) {r : Option ℕ}
    (hrun : s.m.headerSize sel ap = .ok (r, m)) :
    Inv ⟨m, s.prot⟩ ∧ Marked ⟨m, s.prot⟩ (ap / 4096) ∧ Tallied s.m.proc m.proc := by
  have ht := headerSize_tame hi.size hrun hap
  refine ⟨hi.tame ht, ?_, ht.tallied⟩
  show flagOn (m.pte (ap / 4096)) pte1 = true
  rw [(ht.keeps.moves _ (page_lt hap) (hi.below _ (page_lt hap) hmark)).pmalloc]
  exact hmark

theorem Tallied.turned {p : Proc} {flag : Pte} {on : Bool} {m' : Machine} (ht : Tallied p m.proc)
    (hap : ap < kernBase) (hturn : m.turnFlag ap flag on = .ok m') (hfile : m'.proc.pagesInFile = p.pagesInFile)
    (hfault : m'.proc.pageFaultCounter = p.pageFaultCounter) :
    m'.proc.protectedPages = p.protectedPages := by
  rw [(turnFlag_pte hturn hap).1] at hfile hfault ⊢
  exact ht.counter hfile hfault

theorem Inv.protectPage (hi : Inv s) (hexact : s.Exact) (hap : ap < kernBase)
    (hnew : ap / 4096 ∉ s.prot) (hrun : step sel s (.protectPage ap) = .ok s')
    (hquiet : Quiet s.m s'.m) : Inv s' ∧ s'.Exact := by
  obtain ⟨⟨r, m₁⟩, hcall, hrun⟩ := Run.bind_ok hrun
  cases hrun
  obtain ⟨b, hflag, hcall⟩ := Run.bind_ok hcall
  have hb := marked_of_isFlagOn hflag
  cases b with
  | false =>
    cases hcall
    exact ⟨hi, hexact⟩
  | true =>
    obtain ⟨⟨size, m₂⟩, hhead, hcall⟩ := Run.bind_ok hcall
    obtain ⟨hi₂, hmark₂, htally⟩ := hi.header hap hb hhead
    rw [hi.exact_iff] at hexact
    dsimp only at hcall
    split at hcall
    · obtain ⟨m₃, hturn, hcall⟩ := Run.bind_ok hcall
      cases hcall
      have hcount := Tallied.turned htally hap hturn hquiet.1 hquiet.2
      have hi' := hi₂.turnW hap hmark₂ false true hturn
      refine ⟨hi', hi'.exact_iff.2 ?_⟩
      show m₃.proc.protectedPages + 1 = ((insert (ap / 4096) s.prot).card : Int)
      rw [hcount, hexact, Finset.card_insert_of_notMem hnew]
      rfl
    · cases hcall
      refine ⟨hi₂, hi₂.exact_iff.2 ?_⟩
      rw [htally.counter hquiet.1 hquiet.2]
      exact hexact

theorem Inv.pfree (hi : Inv s) (hexact : s.Exact) (hap : ap < kernBase)
    (hrun : step sel s (.pfree ap) = .ok s') (hquiet : Quiet s.m s'.m) : Inv s' ∧ s'.Exact := by
  obtain ⟨⟨r, m₁⟩, hcall, hrun⟩ := Run.bind_ok hrun
  cases hrun
  obtain ⟨b, hflag, hcall⟩ := Run.bind_ok hcall
  have hb := marked_of_isFlagOn hflag
  cases b with
  | false =>
    cases hcall
    exact ⟨hi, hexact⟩
  | true =>
    obtain ⟨w, hwrite, hcall⟩ := Run.bind_ok hcall
    have hw := marked_of_isFlagOn hwrite
    cases w with
    | true =>
      cases hcall
      exact ⟨hi, hexact⟩
    | false =>
      obtain ⟨⟨size, m₂⟩, hhead, hcall⟩ := Run.bind_ok hcall
      obtain ⟨hi₂, hmark₂, htally⟩ := hi.header hap hb hhead
      have hin := hi.unwritable _ (page_lt hap) hb hw
      rw [hi.exact_iff] at hexact
      dsimp only at hcall
      split at hcall
      · obtain ⟨m₃, hturn, hcall⟩ := Run.bind_ok hcall
        cases hcall
        have hcount := Tallied.turned htally hap hturn hquiet.1 hquiet.2
        have hi' := hi₂.turnW hap hmark₂ true false hturn
        refine ⟨hi', hi'.exact_iff.2 ?_⟩
        show m₃.proc.protectedPages - 1 = ((s.prot.erase (ap / 4096)).card : Int)
        have hcard := Finset.card_erase_add_one hin
        rw [hcount, hexact]
        omega
      · cases hcall
        refine ⟨hi₂, hi₂.exact_iff.2 ?_⟩
        rw [htally.counter hquiet.1 hquiet.2]
        exact hexact

theorem Inv.step {e : PageEvent} (hi : Inv s) (hexact : s.Exact) (hp : s.Proper e)
    (hc : Counts sel s e) (hrun : step sel s e = .ok s') : Inv s' ∧ s'.Exact := by
  have hquiet := hc.1 s' hrun
  cases e with
  | mem e =>
    obtain ⟨m, hstep, hrun⟩ := Run.bind_ok hrun
    cases hrun
    have ht := step_tame hi.size hp hstep
    have hi' := hi.tame ht
    refine ⟨hi', hi'.exact_iff.2 ?_⟩
    rw [ht.tallied.counter hquiet.1 hquiet.2]
    exact hi.exact_iff.1 hexact
  | pmalloc ap =>
    obtain ⟨m, hturn, hrun⟩ := Run.bind_ok hrun
    cases hrun
    obtain ⟨hi', hproc⟩ := hi.mark hp.1 hp.2 hc.2 hturn
    refine ⟨hi', hi'.exact_iff.2 ?_⟩
    rw [hproc]
    exact hi.exact_iff.1 hexact
  | protectPage ap => exact hi.protectPage hexact hp.2 hc.2 hrun hquiet
  | pfree ap => exact hi.pfree hexact hp.2 hrun hquiet
  | procdump =>
    cases hrun
    refine ⟨⟨hi.size, hi.below, hi.marked, hi.unwritable⟩, ?_⟩
    have hempty : s.prot = ∅ := hc.2
    rw [Exact, hempty]
    rfl

/-- In every run in which nothing is paged, no protected page is protected again, and `procdump` finds
no protected page, the counter is the number of protected pages. -/
theorem counter_exact (hstart : Start s) {es : List PageEvent}
    (hadm : Run.Admits (step sel) (fun s e => s.Proper e ∧ Counts sel s e) es s)
    (hrun : Run.run (step sel) es s = .ok s') : s'.Exact := by
  have hstep : ∀ s e s', Inv s ∧ s.Exact → s.Proper e ∧ Counts sel s e → step sel s e = .ok s' →
      Inv s' ∧ s'.Exact := fun _ _ _ hi hc hs => hi.1.step hi.2 hc.1 hc.2 hs
  exact (Run.invariant hstep hstart.inv hadm hrun).2

end

/-- An image of sixteen pages with no page marked. -/
def sample : Guarded := ⟨sampleMachine 16 16 8, ∅⟩

theorem sample_start : sample.Start where
  prot := rfl
  counter := rfl
  size := by decide
  unmarked v hv hm := by
    have hpte : (sampleMachine 16 16 8).pte v = samplePte 16 v := by
      rw [Machine.pte, sample_entry (by decide) (lt_trans hv (by decide))]
      exact if_pos rfl
    have hflag : flagOn (samplePte 16 v) pte1 = true := hpte ▸ hm
    by_cases hlt : v < 16
    · have key : ∀ v : Fin 16, flagOn (samplePte 16 v) pte1 = false := by decide
      rw [key ⟨v, hlt⟩] at hflag
      cases hflag
    · rw [samplePte, if_neg hlt] at hflag
      cases hflag

def proper (s : Guarded) : PageEvent → Bool
  | .mem (.sbrk n) => 0 ≤ n
  | .mem (.load va) => va < 0x100000000
  | .mem (.store va _) => va < 0x100000000
  | .mem (.others _) => false
  | .pmalloc ap => ap < kernBase ∧ ap / 4096 < pagesOf s.m.proc.sz
  | .protectPage ap => 8 ≤ ap ∧ ap < kernBase
  | .pfree ap => 8 ≤ ap ∧ ap < kernBase
  | .procdump => true

theorem proper_sound (s : Guarded) (e : PageEvent) (h : s.proper e = true) : s.Proper e := by
  cases e with
  | mem e =>
    cases e with
    | others next => cases h
    | sbrk n => exact of_decide_eq_true (p := 0 ≤ n) h
    | load va => exact of_decide_eq_true (p := va < 0x100000000) h
    | store va b => exact of_decide_eq_true (p := va < 0x100000000) h
  | pmalloc ap => exact of_decide_eq_true (p := ap < kernBase ∧ ap / 4096 < pagesOf s.m.proc.sz) h
  | protectPage ap => exact of_decide_eq_true (p := 8 ≤ ap ∧ ap < kernBase) h
  | pfree ap => exact of_decide_eq_true (p := 8 ≤ ap ∧ ap < kernBase) h
  | procdump => trivial

def counts (sel : Selection) (s : Guarded) (e : PageEvent) : Bool :=
  Run.endsIn (fun s' => decide (Quiet s.m s'.m)) (step sel s e) && match e with
    | .mem _ => true
    | .pmalloc ap => flagOn (s.m.pte (ap / 4096)) pteW = true ∨ ap / 4096 ∈ s.prot
    | .protectPage ap => ap / 4096 ∉ s.prot
    | .pfree _ => true
    | .procdump => s.prot = ∅

theorem counts_sound {sel : Selection} (s : Guarded) (e : PageEvent) (h : counts sel s e = true) :
    Counts sel s e := by
  obtain ⟨hquiet, hcond⟩ := Bool.and_eq_true_iff.1 h
  refine ⟨fun s' hs' => ?_, ?_⟩
  · rw [hs'] at hquiet
    exact of_decide_eq_true hquiet
  · cases e with
    | mem e => trivial
    | pmalloc ap => exact of_decide_eq_true hcond
    | protectPage ap => exact of_decide_eq_true hcond
    | pfree ap => trivial
    | procdump => exact of_decide_eq_true hcond

/-- A header of 513 units before the third page, which is handed out and protected. -/
def protects : List PageEvent :=
  [.mem (.store 8188 1), .mem (.store 8189 2), .pmalloc 8192, .protectPage 8192]

theorem counter_exact_sample :
    ∃ s', Run.run (step .SCFIFO) (protects ++ [.pfree 8192, .procdump]) sample = .ok s' ∧ s'.Exact := by
  have hpasses : Run.passes (step .SCFIFO) (fun s e => s.proper e && counts .SCFIFO s e)
      (protects ++ [.pfree 8192, .procdump]) sample = true := by decide +kernel
  have hadm : Run.Admits (step .SCFIFO) (fun s e => s.Proper e ∧ Counts .SCFIFO s e)
      (protects ++ [.pfree 8192, .procdump]) sample := by
    refine .of_passes (fun s e h => ?_) hpasses
    obtain ⟨hp, hc⟩ := Bool.and_eq_true_iff.1 h
    exact ⟨proper_sound s e hp, counts_sound s e hc⟩
  have heval : Run.endsIn (fun s => decide (s.prot = ∅))
      (Run.run (step .SCFIFO) (protects ++ [.pfree 8192, .procdump]) sample) = true := by
    decide +kernel
  obtain ⟨s', hrun, -⟩ := Run.of_endsIn heval
  exact ⟨s', hrun, counter_exact sample_start hadm hrun⟩

/-- A proper run from the sample state after which the counter is off. -/
def Inexact (es : List PageEvent) : Prop :=
  Run.Admits (step .SCFIFO) Proper es sample ∧ ∃ s', Run.run (step .SCFIFO) es sample = .ok s' ∧ ¬s'.Exact

theorem inexact_of_eval {es : List PageEvent} (hpasses : Run.passes (step .SCFIFO) proper es sample = true)
    (hend : Run.endsIn (fun s => decide (¬s.Exact)) (Run.run (step .SCFIFO) es sample) = true) :
    Inexact es := by
  obtain ⟨s', hrun, htest⟩ := Run.of_endsIn hend
  exact ⟨.of_passes proper_sound hpasses, s', hrun, of_decide_eq_true htest⟩

/-- The counter is off after an eviction, after a second `protect_page` for the same page, and after
`procdump`. -/
theorem counter_inexact : Inexact [.mem (.sbrk 4096)] ∧ Inexact (protects ++ [.protectPage 8192]) ∧
    Inexact (protects ++ [.procdump]) := by
  refine ⟨inexact_of_eval ?_ ?_, inexact_of_eval ?_ ?_, inexact_of_eval ?_ ?_⟩ <;> decide +kernel

end Guarded

end Xv6
