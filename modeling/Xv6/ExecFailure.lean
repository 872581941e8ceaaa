import Xv6.ExecCall
import Xv6.FrameRuns

/-!
# A failed `exec`

The new image is built in a second directory while the caller's entries in `ram_monitor` stay, so a
failed `exec` has to give back the directory, its page tables and its pages, and the entries its pages
took.  `freevm` does so for what is mapped.  One thing is not: when the page table for the first page of
the image cannot be allocated, the frame of that page is in no page table and is lost.

`Building` follows the construction of an image of at most `MAX_PYSC_PAGES` pages.  It keeps the frames
in balance up to those that were lost so far, and as long as none was, the caller's memory and
entries are untouched.
-/

namespace Xv6

open Machine

open Accounting (Books Balanced Account)

/-! ### What is asked of a failed call -/

/-- The caller has everything it had, and the free list has the same frames. -/
structure Intact (c c' : Caller) (m m' : Machine) : Prop where
  caller : c' = c
  pgdir : m'.proc.pgdir = m.proc.pgdir
  sz : m'.proc.sz = m.proc.sz
  dir : m'.dirs m.proc.pgdir = m.dirs m.proc.pgdir
  data : ∀ v < userPages, m.Present v → m'.data (frameOf (m.pte v)) = m.data (frameOf (m.pte v))
  swapFile : m'.proc.swapFile = m.proc.swapFile
  ram : ∀ i, (m'.proc.ramMonitor i).used = (m.proc.ramMonitor i).used ∧
    ((m.proc.ramMonitor i).used → m'.proc.ramMonitor i = m.proc.ramMonitor i)
  swap : m'.proc.swapMonitor = m.proc.swapMonitor
  frames : m'.freelist.Perm m.freelist

/-- The state `exec` is called in: every frame has one place, and no used entry of the caller names a
frame that is free. -/
structure Callable (b : Books) (m : Machine) : Prop where
  layout : 0x100 < m.kdata ∧ m.kdata < phystopFrame
  balanced : Balanced m b
  hand : b.hand = none
  frames : FramesOk m
  live : m.proc.pgdir ∈ b.live
  names : ∀ i, (m.proc.ramMonitor i).used → (m.proc.ramMonitor i).pgdir ∉ m.freelist

/-- The image never gets more than `MAX_PYSC_PAGES` pages, with `count` headers to go from `off` on
and `sz` bytes so far; headers behind one that is rejected do not count. -/
def SmallImage (ip : File) : ℕ → ℕ → ℕ → Prop
  | 0, _, sz => pagesOf sz + 2 ≤ 16
  | count + 1, off, sz =>
    let ph := ip.progHdr off
    let next := (off + 32) % 0x100000000
    ip.readi off 32 = some 32 →
      if ph.type ≠ 1 then SmallImage ip count next sz
      else ph.filesz ≤ ph.memsz → ph.vaddr + ph.memsz < kernBase →
        pagesOf (max sz (ph.vaddr + ph.memsz)) ≤ 16 ∧
          (ph.vaddr % 4096 = 0 → SmallImage ip count next (max sz (ph.vaddr + ph.memsz)))

/-- Whether `exec` gets to ask for the first page of the image: no header before the first one that
has memory is rejected. -/
def asksForPages (ip : File) : ℕ → ℕ → Bool
  | 0, _ => true
  | count + 1, off =>
    let ph := ip.progHdr off
    decide (ip.readi off 32 = some 32) &&
      if ph.type ≠ 1 then asksForPages ip count ((off + 32) % 0x100000000)
      else decide (ph.filesz ≤ ph.memsz ∧ 0 < ph.vaddr + ph.memsz ∧ ph.vaddr + ph.memsz < kernBase)

/-- The first page of the image gets a page table, if it gets a frame.  `setupkvm` takes 65 frames
before. -/
def FirstTable (s : Supply) (m : Machine) (ip : Option File) : Prop :=
  ∀ f, ip = some f → f.isElf = true → asksForPages f (f.u16 44) (f.u32 28) = true →
    s.page 0 = true → 66 ≤ m.freelist.length → s.table 0 = true ∧ 67 ≤ m.freelist.length

/-! ### One page -/

/-- A frame taken for page `v` of `d` and filled with zeros. -/
def Machine.taken (m : Machine) (f : ℕ) (rest : List ℕ) (d v : ℕ) : Machine :=
  ({ m with freelist := rest }.setOwner f d v).setFrame f fun _ => 0

/-- The page gets an entry, if pages are tracked at all. -/
def Machine.track (sel : Selection) (m : Machine) (d v : ℕ) : Machine :=
  if 2 < m.proc.pid ∧ sel ≠ .NONE then m.setProc (m.proc.add2ram d (4096 * v)) else m

section

variable {s : Supply} {sel : Selection} {b : Books} {d k v f : ℕ} {rest : List ℕ} {m₀ m m' : Machine}
  {oldsz newsz sz off : ℕ} {ok : Bool} {m₁ : Machine} {r : Option ℕ} {ip : File} {argv : List (List Byte)}

theorem addRound_cases {i : ℕ} (s : Supply) (sel : Selection) (d : ℕ) (hold : oldsz ≤ kernBase)
    (hi : pagesOf oldsz + i = v) (hv : v < 16) (habs : flagOn (entry m.dirs d v) pteP = false) :
    m.kallocFrom (s.page i) = none ∧ m.addRound s sel d oldsz i = .ok none ∨
    ∃ f rest ok m₁, s.page i = true ∧ m.freelist = f :: rest ∧
      (m.taken f rest d v).mappagesFrom (s.table i) d (4096 * v) 4096 f (pteW ||| pteU) = .ok (ok, m₁) ∧
      m.addRound s sel d oldsz i = .ok (some (m₁.track sel d v)) := by
  subst hi
  have ha : pgRoundUp oldsz + 4096 * i = 4096 * (pagesOf oldsz + i) := by
    rw [pgRoundUp_eq hold]
    omega
  have hdiv : 4096 * (pagesOf oldsz + i) / 4096 = pagesOf oldsz + i := by omega
  have hcount : pgRoundUp oldsz / 4096 + (i + 1) = pagesOf oldsz + i + 1 := by
    rw [pgRoundUp_eq hold]
    omega
  rcases kallocFrom_cases (s.page i) m with hnone | ⟨hpage, f, rest, hf, hk⟩
  · refine Or.inl ⟨hnone, ?_⟩
    rw [addRound]
    simp only [hnone]
  · have hmap : ∃ ok m₁, (m.taken f rest d (pagesOf oldsz + i)).mappagesFrom (s.table i) d
        (4096 * (pagesOf oldsz + i)) 4096 f (pteW ||| pteU) = .ok (ok, m₁) := by
      rcases mappagesFrom_cases (m := m.taken f rest d (pagesOf oldsz + i)) (s.table i) f
        (pteW ||| pteU) (show pagesOf oldsz + i < 0x100000 by omega) habs with ⟨-, m₁, h, -⟩ | ⟨-, h⟩
      · exact ⟨true, m₁, h⟩
      · exact ⟨false, _, h⟩
    obtain ⟨ok, m₁, hmap⟩ := hmap
    refine Or.inr ⟨f, rest, ok, m₁, hpage, hf, hmap, ?_⟩
    have htrack : m₁.trackPage sel d (4096 * (pagesOf oldsz + i)) (pagesOf oldsz + i + 1) =
        .ok (m₁.track sel d (pagesOf oldsz + i)) := by
      rw [trackPage, Machine.track]
      split_ifs with hc hmax
      · rfl
      · exact absurd (show pagesOf oldsz + i + 1 ≤ 16 by omega) hmax
      · rfl
    rw [addRound]
    simp only [hk, ha, hdiv, hcount]
    show ((m.taken f rest d (pagesOf oldsz + i)).mappagesFrom _ _ _ _ _ _ >>= _) = _
    rw [hmap]
    show (m₁.trackPage sel d (4096 * (pagesOf oldsz + i)) (pagesOf oldsz + i + 1) >>= _) = _
    rw [htrack]
    rfl

theorem mappagesFrom_balanced {granted : Bool} (h : Balanced m b) (hhand : b.hand = some f)
    (hf : f ≠ 0) (hd : d ∈ b.live) (hv : v < userPages)
    (habs : flagOn (entry m.dirs d v) pteP = false)
    (hrun : m.mappagesFrom granted d (4096 * v) 4096 f (pteW ||| pteU) = .ok (ok, m')) :
    ok = true ∧ Balanced m' { b with hand := none } ∨ ok = false ∧ m' = m := by
  have hlt : v < 0x100000 := lt_trans hv (by decide)
  have hmapped : ∀ {m'}, m.mappages d (4096 * v) 4096 f (pteW ||| pteU) = .ok (true, m') →
      Balanced m' { b with hand := none } := fun hmap =>
    (Accounting.mappages_balanced h hhand hf hd hv (by decide) hmap).resolve_left (by decide)
  rcases mappagesFrom_cases granted f (pteW ||| pteU) hlt habs with ⟨hcan, m₁, hmap, -⟩ | ⟨-, hmap⟩
  · rw [hmap] at hrun
    cases hrun
    refine Or.inl ⟨rfl, ?_⟩
    cases granted with
    | true =>
      rw [mappagesFrom_true] at hmap
      exact hmapped hmap
    | false =>
      have ht : HasTable m.dirs d v := hcan.resolve_right fun hc => by cases hc.1
      rw [mappagesFrom_page false f _ hlt ht habs] at hmap
      cases hmap
      exact hmapped (mappages_page hlt ht habs)
  · rw [hmap] at hrun
    cases hrun
    exact Or.inr ⟨rfl, rfl⟩

/-! ### The image under construction -/

/-- The first `k` pages of the new directory are there, and the caller's memory and used entries are
untouched. -/
structure Whole (sel : Selection) (d k : ℕ) (m₀ m : Machine) : Prop where
  frames : FramesOk m
  owner : m.owner d = none
  kernel : KernelOnly m.dirs d
  pages : ∀ v < k, flagOn (entry m.dirs d v) pteP = true
  data : ∀ d' v, d' ≠ d → v < userPages → flagOn (entry m₀.dirs d' v) pteP = true →
    m.data (frameOf (entry m₀.dirs d' v)) = m₀.data (frameOf (entry m₀.dirs d' v))
  proc : m.proc = { m₀.proc with
    ramMonitor := m.proc.ramMonitor
    lastInQueue := m.proc.lastInQueue }
  kept : ∀ i, (m₀.proc.ramMonitor i).used → m.proc.ramMonitor i = m₀.proc.ramMonitor i
  new : ∀ i, (m.proc.ramMonitor i).used → (m₀.proc.ramMonitor i).used ∨
    sel ≠ .NONE ∧ (m.proc.ramMonitor i).pgdir = d ∧ ∃ v < k, (m.proc.ramMonitor i).pVa = 4096 * v

/-- An image of `k` pages under construction in `d`, for which the frames `lost` were lost. -/
structure Building (sel : Selection) (b : Books) (d k : ℕ) (lost : Finset ℕ) (m₀ m : Machine) :
    Prop where
  kend : m.kend = m₀.kend
  balanced : Balanced m ⟨insert d b.live, b.outside ∪ lost, none⟩
  above : ∀ v, k ≤ v → v < userPages → flagOn (entry m.dirs d v) pteP = false
  other : ∀ d', d' ≠ d → m.dirs d' = m₀.dirs d'
  lostFree : ∀ f ∈ lost, f ∈ m₀.freelist
  whole : lost = ∅ → Whole sel d k m₀ m

variable {lost : Finset ℕ}

section

variable (h : Building sel b d k lost m₀ m)

include h

theorem Building.entry_other {d' : ℕ} (hd : d' ≠ d) (v : ℕ) :
    entry m.dirs d' v = entry m₀.dirs d' v := entry_congr (h.other d' hd) v

theorem Building.target_kept (h₀ : Callable b m₀) (hd : d ∉ b.live)
    {c : Accounting.Cell} (hc : Accounting.target m₀.dirs b c ≠ 0) :
    Accounting.target m.dirs ⟨insert d b.live, b.outside ∪ lost, none⟩ c =
      Accounting.target m₀.dirs b c := by
  have hdead : ∀ i, m₀.dirs d i = none := h₀.balanced.dead d hd
  cases c with
  | dir e =>
    have he : e ∈ b.live := by
      by_contra hc'
      exact hc (if_neg hc')
    exact (if_pos (Finset.mem_insert_of_mem he)).trans (if_pos he).symm
  | table e i =>
    by_cases he : e = d
    · subst he
      exact absurd (by rw [Accounting.target, hdead i]; rfl) hc
    · rw [Accounting.target, Accounting.target, h.other e he]
  | page e v =>
    by_cases he : e = d
    · subst he
      have hzero : entry m₀.dirs e v = 0 := by simp [entry, walk, hdead]
      refine absurd (if_neg fun hp => ?_) hc
      rw [hzero] at hp
      exact absurd hp.2 (by decide)
    · rw [Accounting.target, Accounting.target, h.entry_other he]
  | outside e =>
    have he : e ∈ b.outside := by
      by_contra hc'
      exact hc (if_neg hc')
    exact (if_pos (Finset.mem_union_left lost he)).trans (if_pos he).symm
  | hand => exact absurd (by rw [Accounting.target, h₀.hand]; rfl) hc

theorem Building.free (h₀ : Callable b m₀) (hd : d ∉ b.live) (hf : f ∈ m.freelist) : f ∈ m₀.freelist := by
  by_contra hno
  rcases (h₀.balanced.exact.used_iff f).1 (decide_eq_true hno) with hfixed | ⟨c, hc, hcf⟩
  · have hused := (h.balanced.exact.used_iff f).2 (Or.inl (by rw [h.kend]; exact hfixed))
    exact of_decide_eq_true hused hf
  · have hkept := h.target_kept h₀ hd hc
    have hnot := h.balanced.not_mem (c := c) (by rw [hkept]; exact hc)
    rw [hkept, hcf] at hnot
    exact hnot hf

theorem Building.dir_not_free (hd : d ≠ 0) : d ∉ m.freelist := by
  have htarget : Accounting.target m.dirs ⟨insert d b.live, b.outside ∪ lost, none⟩ (.dir d) = d :=
    if_pos (Finset.mem_insert_self d _)
  have hnot := h.balanced.not_mem (c := .dir d) (by rwa [htarget])
  rwa [htarget] at hnot

end

/-! ### One page more -/

theorem add2ram_cases (p : Proc) (d a : ℕ) :
    (p.add2ram d a = { p with
      ramMonitor := (p.add2ram d a).ramMonitor
      lastInQueue := (p.add2ram d a).lastInQueue }) ∧
    ∀ i, (p.add2ram d a).ramMonitor i = p.ramMonitor i ∨
      (p.ramMonitor i).used = false ∧ ((p.add2ram d a).ramMonitor i).pgdir = d ∧
        ((p.add2ram d a).ramMonitor i).pVa = a := by
  unfold Proc.add2ram
  cases hidx : p.getFreeRamIdx with
  | none => exact ⟨rfl, fun i => Or.inl rfl⟩
  | some j =>
    refine ⟨rfl, fun i => ?_⟩
    have hfree := (SlotTable.firstFree_eq_some_iff.1 hidx).1
    by_cases hi : i = j
    · subst hi
      right
      refine ⟨hfree, ?_, ?_⟩
      · simp [Proc.setRam]
      · simp [Proc.setRam]
    · left
      simp only [Proc.setRam]
      exact Function.update_of_ne hi _ _

theorem track_same (sel : Selection) (m : Machine) (d v : ℕ) :
    m.track sel d v = m.setProc (m.track sel d v).proc := by
  unfold Machine.track
  split_ifs <;> rfl

theorem track_proc (sel : Selection) (m : Machine) (d v : ℕ) :
    ((m.track sel d v).proc = { m.proc with
      ramMonitor := (m.track sel d v).proc.ramMonitor
      lastInQueue := (m.track sel d v).proc.lastInQueue }) ∧
    ∀ i, (m.track sel d v).proc.ramMonitor i = m.proc.ramMonitor i ∨
      (m.proc.ramMonitor i).used = false ∧ sel ≠ .NONE ∧
        ((m.track sel d v).proc.ramMonitor i).pgdir = d ∧
        ((m.track sel d v).proc.ramMonitor i).pVa = 4096 * v := by
  unfold Machine.track
  split_ifs with hc
  · obtain ⟨hproc, hram⟩ := add2ram_cases m.proc d (4096 * v)
    exact ⟨hproc, fun i => (hram i).imp_right fun hi => ⟨hi.1, hc.2, hi.2⟩⟩
  · exact ⟨rfl, fun i => Or.inl rfl⟩

theorem Whole.page (h : Whole sel d k m₀ m) (hk : k < 16) (hd : d ∉ m.freelist)
    (hother : ∀ d', d' ≠ d → m.dirs d' = m₀.dirs d') (hf : m.freelist = f :: rest)
    (hmap : MapsPage d k f (pteW ||| pteU) (m.taken f rest d k) m₁) :
    Whole sel d (k + 1) m₀ (m₁.track sel d k) := by
  have hku : k < userPages := lt_trans hk (by decide)
  have hmem : f ∈ m.freelist := by
    rw [hf]
    exact List.mem_cons_self
  have hdf : d ≠ f := fun hc => hd (hc ▸ hmem)
  have howner : (m.taken f rest d k).owner d = none := (Function.update_of_ne hdf _ _).trans h.owner
  have hnot : d ∉ (m.taken f rest d k).freelist := by
    intro hc
    exact hd (by rw [hf]; exact List.mem_cons_of_mem f hc)
  have hframes : FramesOk m₁ := by
    have htaken : FramesOk (m.taken f rest d k) := h.frames.alloc hf rfl rfl rfl rfl
    refine htaken.mapsPage ⟨hnot, howner⟩ hku ?_ (by decide) hmap
    exact Function.update_self f _ _
  have hentry : ∀ w < 0x100000, w ≠ k → entry m₁.dirs d w = entry m.dirs d w := hmap.entry_ne
  have hproc₁ : m₁.proc = m.proc := by
    rw [hmap.same]
    rfl
  obtain ⟨hproc, hram⟩ := track_proc sel m₁ d k
  rw [hproc₁] at hproc hram
  have htrack := track_same sel m₁ d k
  refine ⟨?_, ?_, fun w hw hw' => ?_, fun v hv => ?_, fun d' v hd' hv hp => ?_, ?_, fun i hi => ?_,
    fun i hi => ?_⟩
  · rw [htrack]
    exact hframes.congr rfl rfl rfl rfl
  · rw [htrack]
    show m₁.owner d = none
    rw [hmap.same]
    exact howner
  · rw [htrack]
    show flagOn (entry m₁.dirs d w) pteU = false ∧ flagOn (entry m₁.dirs d w) ptePG = false
    rw [hentry w hw' (by omega)]
    exact h.kernel w hw hw'
  · rw [htrack]
    show flagOn (entry m₁.dirs d v) pteP = true
    by_cases hvk : v = k
    · rw [hvk, hmap.entry_self]
      exact mapPte_present _
    · rw [hentry v (by omega) hvk]
      exact h.pages v (by omega)
  · rw [htrack]
    show m₁.data _ = _
    rw [hmap.same]
    have hpm : flagOn (entry m.dirs d' v) pteP = true := by
      rw [entry_congr (hother d' hd')]
      exact hp
    have hne : frameOf (entry m₀.dirs d' v) ≠ f := by
      intro hc
      have howned := h.frames.owned d' v hv hpm
      rw [entry_congr (hother d' hd'), hc, h.frames.free f hmem] at howned
      cases howned
    exact (Function.update_of_ne hne _ _).trans (h.data d' v hd' hv hp)
  · rw [hproc, h.proc]
  · rcases hram i with hsame | ⟨hunused, -⟩
    · rw [hsame]
      exact h.kept i hi
    · rw [h.kept i hi, hi] at hunused
      cases hunused
  · rcases hram i with hsame | ⟨-, hsel, hpgdir, hva⟩
    · rw [hsame] at hi ⊢
      refine (h.new i hi).imp_right fun hnew => ?_
      obtain ⟨hsel, hpgdir, v, hv, hva⟩ := hnew
      exact ⟨hsel, hpgdir, v, by omega, hva⟩
    · exact Or.inr ⟨hsel, hpgdir, k, by omega, hva⟩

theorem hasTable_low {dirs : ℕ → PgDir} (hv : v < 1024) : HasTable dirs d v ↔ HasTable dirs d 0 := by
  have hsame : pdx (4096 * v) = pdx (4096 * 0) := by
    rw [pdx_page, pdx_page]
    omega
  rw [HasTable, HasTable, hsame]

/-- One more page: it is mapped if there is a page table for it, and its frame is lost if not. -/
theorem Building.round {granted : Bool} (h : Building sel b d k lost m₀ m)
    (h₀ : Callable b m₀) (hd : d ∉ b.live) (hne : d ≠ 0) (hk : k < 16) (hf : m.freelist = f :: rest)
    (hmap : (m.taken f rest d k).mappagesFrom granted d (4096 * k) 4096 f (pteW ||| pteU) =
      .ok (ok, m₁)) :
    (HasTable m.dirs d 0 ∨ granted = true ∧ 2 ≤ m.freelist.length) ∧
        Building sel b d (k + 1) lost m₀ (m₁.track sel d k) ∧
        HasTable (m₁.track sel d k).dirs d 0 ∨
      ¬ (HasTable m.dirs d 0 ∨ granted = true ∧ 2 ≤ m.freelist.length) ∧
        Building sel b d (k + 1) (insert f lost) m₀ (m₁.track sel d k) := by
  have hku : k < userPages := lt_trans hk (by decide)
  have hlt : k < 0x100000 := lt_trans hk (by decide)
  have hmem : f ∈ m.freelist := by
    rw [hf]
    exact List.mem_cons_self
  have hf0 : f ≠ 0 := h.balanced.pos hmem
  have habs : flagOn (entry (m.taken f rest d k).dirs d k) pteP = false := h.above k le_rfl hku
  have htaken : Balanced (m.taken f rest d k) ⟨insert d b.live, b.outside ∪ lost, some f⟩ :=
    Account.take h.balanced hf rfl
  have hlen : 2 ≤ m.freelist.length ↔ rest ≠ [] := by
    rw [hf, List.length_cons, ← List.length_pos_iff]
    omega
  have htable : HasTable m.dirs d k ↔ HasTable m.dirs d 0 := hasTable_low (by omega)
  rw [hlen, ← htable]
  have htrack := track_same sel m₁ d k
  rcases mappagesFrom_cases (m := m.taken f rest d k) granted f (pteW ||| pteU) hlt habs with
    ⟨hcan, m₂, hmap', hpage⟩ | ⟨hcan, hmap'⟩
  · rw [hmap'] at hmap
    cases hmap
    refine Or.inl ⟨hcan, ⟨?_, ?_, fun v hv hvu => ?_, fun d' hd' => ?_, h.lostFree, fun hl => ?_⟩, ?_⟩
    · rw [htrack]
      show m₁.kend = _
      rw [hpage.same]
      exact h.kend
    · rcases mappagesFrom_balanced htaken rfl hf0 (Finset.mem_insert_self d _) hku habs hmap' with
        ⟨-, hbal⟩ | ⟨hc, -⟩
      · rw [htrack]
        exact hbal
      · cases hc
    · rw [htrack]
      show flagOn (entry m₁.dirs d v) pteP = false
      rw [hpage.entry_ne v (lt_trans hvu (by decide)) (by omega)]
      exact h.above v (by omega) hvu
    · rw [htrack]
      exact (hpage.other d' hd').trans (h.other d' hd')
    · exact (h.whole hl).page hk (h.dir_not_free hne) h.other hf hpage
    · rw [htrack]
      refine (hasTable_low (v := k) (by omega)).1 (hasTable_of_present ?_)
      show flagOn (entry m₁.dirs d k) pteP = true
      rw [hpage.entry_self]
      exact mapPte_present _
  · rw [hmap'] at hmap
    cases hmap
    refine Or.inr ⟨hcan, ⟨?_, ?_, fun v hv hvu => ?_, fun d' hd' => ?_, fun g hg => ?_, fun hl => ?_⟩⟩
    · rw [htrack]
      exact h.kend
    · have haside := Account.setAside htaken rfl hf0
      rw [htrack, Finset.union_insert]
      exact haside
    · rw [htrack]
      exact h.above v (by omega) hvu
    · rw [htrack]
      exact h.other d' hd'
    · rcases Finset.mem_insert.1 hg with rfl | hg
      · exact h.free h₀ hd hmem
      · exact h.lostFree g hg
    · exact absurd hl (Finset.insert_ne_empty f lost)

/-! ### Giving pages back -/

theorem deallocuvm_keeps {r : ℕ} (hrun : m.deallocuvm sel d oldsz newsz = .ok (r, m')) :
    m'.kend = m.kend ∧ (∀ g, m.owner g = none → m'.owner g = none) ∧
      ∀ d', d' ≠ d → m'.dirs d' = m.dirs d' := by
  refine deallocuvm_induct (P := fun m => m'.kend = m.kend ∧ (∀ g, m.owner g = none → m'.owner g = none) ∧
      ∀ d', d' ≠ d → m'.dirs d' = m.dirs d') hrun ⟨rfl, fun g hg => hg, fun _ _ => rfl⟩
    fun a m pte _ _ _ _ _ _ ih => ?_
  rw [dropAt_eq] at ih
  refine ⟨ih.1, fun g hg => ih.2.1 g ?_, fun d' hd' => (ih.2.2 d' hd').trans ((Extends.setPte d m a 0).other d' hd')⟩
  change Function.update m.owner (frameOf pte) none g = none
  rw [Function.update_apply, hg, ite_self]

theorem Whole.dropped {R : Set ℕ} {k' : ℕ} (h : Whole sel d k m₀ m)
    (hnames : ∀ i, (m₀.proc.ramMonitor i).used → (m₀.proc.ramMonitor i).pgdir ≠ d)
    (hother : ∀ d', d' ≠ d → m.dirs d' = m₀.dirs d') (hdrop : Dropped sel d R m m')
    (howner : m'.owner d = none) (hk : k ≤ userPages) (hk' : k' ≤ k)
    (hR : ∀ w < k, w ∈ R ↔ k' ≤ w) : Whole sel d k' m₀ m' := by
  have hlt : ∀ {w}, w < k' → w < userPages := fun hw => lt_of_lt_of_le hw (hk'.trans hk)
  refine ⟨hdrop.frames, howner, fun w hw hw' => ?_, fun v hv => ?_, fun d' v hd' hv hp => ?_, ?_,
    fun i hi => ?_, fun i hi => ?_⟩
  · rw [hdrop.kept d w hw' fun hc => absurd hc.2.1 (by omega)]
    exact h.kernel w hw hw'
  · have hout : v ∉ R := fun hc => absurd ((hR v (by omega)).1 hc) (by omega)
    rw [hdrop.kept d v (lt_trans (hlt hv) (by decide)) fun hc => hout hc.2.2.1]
    exact h.pages v (by omega)
  · have hsame := entry_congr (hother d' hd') v
    rw [← h.data d' v hd' hv hp]
    rw [← hsame] at hp ⊢
    exact hdrop.data d' v hv hp fun hc => hd' hc.1
  · rw [hdrop.same, h.proc]
  · rcases hdrop.ramLost i with hsame | ⟨hpgdir, -⟩
    · rw [hsame, h.kept i hi]
    · rw [h.kept i hi] at hpgdir
      exact absurd hpgdir (hnames i hi)
  · obtain ⟨hsame, hno⟩ := hdrop.ram i hi
    rw [hsame] at hi ⊢
    refine (h.new i hi).imp_right fun hnew => ?_
    obtain ⟨hsel, hpgdir, v, hv, hva⟩ := hnew
    refine ⟨hsel, hpgdir, v, ?_, hva⟩
    by_contra hc
    have hvu : v < userPages := lt_of_lt_of_le hv hk
    exact hno hsel hpgdir v hvu ((hR v hv).2 (by omega)) (h.pages v hv) hva

theorem Callable.names_ne (h₀ : Callable b m₀) (hd : d ∈ m₀.freelist) (i : Fin 16)
    (hi : (m₀.proc.ramMonitor i).used) : (m₀.proc.ramMonitor i).pgdir ≠ d := by
  rintro rfl
  exact h₀.names i hi hd

theorem Building.undo {r : ℕ} (h : Building sel b d k lost m₀ m) (h₀ : Callable b m₀)
    (hd : d ∈ m₀.freelist) (hnew : newsz ≤ kernBase) (hlt : oldsz < newsz)
    (hold : pagesOf oldsz ≤ k) (hk : k ≤ pagesOf newsz)
    (hrun : m.deallocuvm sel d newsz oldsz = .ok (r, m')) :
    Building sel b d (pagesOf oldsz) lost m₀ m' := by
  have hpages : pagesOf newsz ≤ userPages := by
    simp only [pagesOf, kernBase, userPages] at *
    omega
  obtain ⟨hkend, howner, hother⟩ := deallocuvm_keeps hrun
  refine ⟨hkend.trans h.kend, Accounting.deallocuvm_balanced h.balanced hnew hrun, fun v hv hvu => ?_,
    fun d' hd' => (hother d' hd').trans (h.other d' hd'), h.lostFree, fun hl => ?_⟩
  · rw [deallocuvm, if_neg (by omega)] at hrun
    obtain ⟨m₁, hloop, hrun⟩ := Run.bind_ok hrun
    cases hrun
    refine Accounting.deallocLoop_absent hnew ?_ hloop hvu ?_
    · rw [pgRoundUp_eq (by omega)]
      omega
    · by_cases hvk : v < pagesOf newsz
      · left
        rw [pgRoundUp_eq (by omega)]
        simp only [pagesOf] at hv hvk ⊢
        omega
      · exact Or.inr (h.above v (by omega) hvu)
  · obtain ⟨m₁, hrun', hdrop⟩ := deallocuvm_dropped sel d hnew hlt (h.whole hl).frames
    rw [hrun'] at hrun
    cases hrun
    refine (h.whole hl).dropped (h₀.names_ne hd) h.other hdrop (howner d (h.whole hl).owner)
      (hk.trans hpages) hold fun w hw => ?_
    exact ⟨fun hc => hc.1, fun hc => ⟨hc, by omega⟩⟩

/-! ### The loop of `allocuvm` -/

/-- The next page of the image gets a page table, if it gets a frame. -/
def Fits (s : Supply) (d i : ℕ) (m : Machine) : Prop :=
  HasTable m.dirs d 0 ∨ m.kallocFrom (s.page i) = none ∨ s.table i = true ∧ 2 ≤ m.freelist.length

theorem Building.loop {r : ℕ} (h₀ : Callable b m₀) (hd : d ∉ b.live)
    (hmem : d ∈ m₀.freelist) (hold : oldsz ≤ newsz) (hnew : newsz < kernBase)
    (hmax : pagesOf newsz ≤ 16) (count : ℕ) {i : ℕ} {lost : Finset ℕ}
    (h : Building sel b d (pagesOf oldsz + i) lost m₀ m) (hq : pagesOf oldsz + i + count = pagesOf newsz)
    (hrun : allocLoopFrom s sel d oldsz newsz count i m = .ok (r, m')) :
    ∃ lost', lost ⊆ lost' ∧ (lost = ∅ → (lost' = ∅ ↔ (0 < count → Fits s d i m))) ∧
      (r = newsz ∧ Building sel b d (pagesOf newsz) lost' m₀ m' ∨
        r = 0 ∧ Building sel b d (pagesOf oldsz) lost' m₀ m') := by
  have hd0 : d ≠ 0 := h₀.balanced.pos hmem
  induction count generalizing i lost m with
  | zero =>
    have hdone : Building sel b d (pagesOf newsz) lost m₀ m := by
      rw [← hq]
      exact h
    cases hrun
    exact ⟨lost, Finset.Subset.refl _, fun hl => iff_of_true hl fun hc => absurd hc (lt_irrefl 0),
      Or.inl ⟨rfl, hdone⟩⟩
  | succ count ih =>
    have hk : pagesOf oldsz + i < 16 := by omega
    obtain ⟨next, hnext, hrun⟩ := Run.bind_ok hrun
    rcases addRound_cases s sel d (by omega) rfl hk (h.above _ le_rfl (lt_trans hk (by decide))) with
      ⟨hnone, hround⟩ | ⟨f, rest, ok, m₁, hpage, hf, hmap, hround⟩
    · rw [hround] at hnext
      cases hnext
      obtain ⟨⟨r', m₂⟩, hdealloc, hrun⟩ := Run.bind_ok hrun
      cases hrun
      have hlt : oldsz < newsz := by
        simp only [pagesOf] at hq
        omega
      refine ⟨lost, Finset.Subset.refl _, fun hl => ?_, Or.inr ⟨rfl, ?_⟩⟩
      · exact iff_of_true hl fun _ => Or.inr (Or.inl hnone)
      · exact h.undo h₀ hmem hnew.le hlt (by omega) (by omega) hdealloc
    · rw [hround] at hnext
      cases hnext
      have hsome : m.kallocFrom (s.page i) ≠ none := by
        simp [kallocFrom, hpage, kalloc, hf]
      rcases h.round h₀ hd hd0 hk hf hmap with ⟨hcan, h₁, ht⟩ | ⟨hcan, h₁⟩
      · obtain ⟨lost', hsub, hiff, hres⟩ := ih h₁ (by omega) hrun
        refine ⟨lost', hsub, fun hl => (hiff hl).trans ?_, hres⟩
        exact iff_of_true (fun _ => Or.inl ht) fun _ => hcan.imp_right Or.inr
      · obtain ⟨lost', hsub, -, hres⟩ := ih h₁ (by omega) hrun
        refine ⟨lost', (Finset.subset_insert f lost).trans hsub, fun _ => iff_of_false ?_ ?_, hres⟩
        · rintro rfl
          exact absurd (hsub (Finset.mem_insert_self f lost)) (Finset.notMem_empty f)
        · intro hfits
          rcases hfits (Nat.succ_pos count) with hc | hc | hc
          · exact hcan (Or.inl hc)
          · exact hsome hc
          · exact hcan (Or.inr hc)

theorem Building.alloc {r : ℕ} (h₀ : Callable b m₀) (hd : d ∉ b.live)
    (hmem : d ∈ m₀.freelist) (h : Building sel b d (pagesOf oldsz) lost m₀ m)
    (hmax : newsz < kernBase → pagesOf newsz ≤ 16)
    (hrun : m.allocuvmFrom s sel d oldsz newsz = .ok (r, m')) :
    ∃ lost', lost ⊆ lost' ∧
      (lost = ∅ → (lost' = ∅ ↔ (newsz < kernBase → pagesOf oldsz < pagesOf newsz → Fits s d 0 m))) ∧
      (r = max oldsz newsz ∧ newsz < kernBase ∧ Building sel b d (pagesOf (max oldsz newsz)) lost' m₀ m' ∨
        r = 0 ∧ Building sel b d (pagesOf oldsz) lost' m₀ m') := by
  unfold allocuvmFrom at hrun
  split_ifs at hrun with hkern hless
  · cases hrun
    exact ⟨lost, Finset.Subset.refl _, fun hl => iff_of_true hl fun hc => absurd hc (by omega),
      Or.inr ⟨rfl, h⟩⟩
  · cases hrun
    refine ⟨lost, Finset.Subset.refl _, fun hl => iff_of_true hl fun _ hc => ?_, Or.inl ⟨?_, by omega, ?_⟩⟩
    · simp only [pagesOf] at hc
      omega
    · omega
    · rw [max_eq_left hless.le]
      exact h
  · have hle : oldsz ≤ newsz := by omega
    have hcount := pagesOf_sub oldsz newsz (by omega)
    have hpages : pagesOf oldsz ≤ pagesOf newsz := by
      simp only [pagesOf]
      omega
    rw [hcount] at hrun
    obtain ⟨lost', hsub, hiff, hres⟩ := Building.loop h₀ hd hmem hle (by omega) (hmax (by omega))
      (pagesOf newsz - pagesOf oldsz) (i := 0) h (by omega) hrun
    refine ⟨lost', hsub, fun hl => (hiff hl).trans ?_, ?_⟩
    · exact ⟨fun hc _ hlt => hc (by omega), fun hc hpos => hc (by omega) (by omega)⟩
    · rw [max_eq_right hle]
      exact hres.imp_left fun hc => ⟨hc.1, by omega, hc.2⟩

/-! ### Loading -/

/-- Only frames of present pages of `d` were written. -/
structure Writes (d : ℕ) (m m' : Machine) : Prop where
  same : DataOnly m m'
  data : ∀ g, (∀ v < userPages, flagOn (entry m.dirs d v) pteP = true →
    frameOf (entry m.dirs d v) ≠ g) → m'.data g = m.data g

theorem Writes.refl (d : ℕ) (m : Machine) : Writes d m m := ⟨DataOnly.refl m, fun _ _ => rfl⟩

theorem Writes.trans {m'' : Machine} (h : Writes d m m') (h' : Writes d m' m'') : Writes d m m'' := by
  have hdirs : m'.dirs = m.dirs := by rw [h.same]
  refine ⟨h.same.trans h'.same, fun g hg => ?_⟩
  rw [h'.data g (by rw [hdirs]; exact hg), h.data g hg]

theorem Writes.setFrame (hv : v < userPages) (hp : flagOn (entry m.dirs d v) pteP = true) (page : Page) :
    Writes d m (m.setFrame (frameOf (entry m.dirs d v)) page) :=
  ⟨DataOnly.setFrame m _ page, fun _ hg => Function.update_of_ne (hg v hv hp).symm _ _⟩

theorem loadLoop_writes {a offset : ℕ} (count : ℕ) {j : ℕ}
    (hpages : ∀ v < k, flagOn (entry m.dirs d v) pteP = true) (hk : k ≤ userPages)
    (hend : 4096 * a + sz ≤ 4096 * k) (hcount : j + count = pagesOf sz)
    (hrun : loadLoop d (4096 * a) ip offset sz count (4096 * j) m = .ok (ok, m')) : Writes d m m' := by
  induction count generalizing j m with
  | zero =>
    cases hrun
    exact Writes.refl d _
  | succ count ih =>
    have hv : a + j < k := by
      simp only [pagesOf] at hcount
      omega
    rw [loadLoop] at hrun
    split at hrun
    · cases hrun
    · rename_i pte hwalk
      rw [show 4096 * a + 4096 * j = 4096 * (a + j) by omega] at hwalk
      obtain rfl := entry_of_walk hwalk
      dsimp only at hrun
      split at hrun
      · cases hrun
        exact Writes.refl d _
      · rename_i r hread
        have hw := Writes.setFrame (lt_of_lt_of_le hv hk) (hpages _ hv)
          (overlay (m.data (frameOf (entry m.dirs d (a + j)))) ip (offset + 4096 * j) r)
        split at hrun
        · exact hw.trans (ih (j := j + 1) hpages (by omega) hrun)
        · cases hrun
          exact hw

theorem loaduvm_writes {addr offset : ℕ}
    (hpages : ∀ v < k, flagOn (entry m.dirs d v) pteP = true) (hk : k ≤ userPages)
    (hend : addr + sz ≤ 4096 * k) (hrun : m.loaduvm d addr ip offset sz = .ok (ok, m')) :
    Writes d m m' := by
  unfold loaduvm at hrun
  split at hrun
  · cases hrun
  · rename_i haddr
    obtain ⟨a, rfl⟩ : ∃ a, addr = 4096 * a := ⟨addr / 4096, by omega⟩
    exact loadLoop_writes (pagesOf sz) (j := 0) hpages hk hend (by omega) hrun

theorem uva2ka_some {va : ℕ} (hkernel : KernelOnly m.dirs d) (hva : va < 0x100000000)
    (h : m.uva2ka d va = .ok (some f)) :
    ∃ v < userPages, flagOn (entry m.dirs d v) pteP = true ∧ f = frameOf (entry m.dirs d v) := by
  unfold uva2ka at h
  split at h
  · cases h
  · rename_i pte hwalk
    obtain ⟨-, rfl⟩ := Accounting.walk_table hwalk
    simp only [Except.ok.injEq] at h
    split_ifs at h with hflags
    rw [Bool.and_eq_true] at hflags
    cases h
    refine ⟨va / 4096, ?_, hflags.1, rfl⟩
    by_contra hc
    have hU := (hkernel (va / 4096) (by omega) (by omega)).1
    rw [hU] at hflags
    cases hflags.2

theorem copyoutLoop_writes {bytes : List Byte} (fuel : ℕ) {va : ℕ}
    (hkernel : KernelOnly m.dirs d) (hva : va < 0x100000000)
    (hrun : copyoutLoop d fuel va bytes m = .ok (ok, m')) : Writes d m m' := by
  induction fuel generalizing va bytes m with
  | zero =>
    unfold copyoutLoop at hrun
    split at hrun
    · cases hrun
      exact Writes.refl d _
    · cases hrun
  | succ fuel ih =>
    unfold copyoutLoop at hrun
    split at hrun
    · cases hrun
      exact Writes.refl d _
    · obtain ⟨r, hka, hrun⟩ := Run.bind_ok hrun
      cases r with
      | none =>
        cases hrun
        exact Writes.refl d _
      | some f =>
        have hround : pgRoundDown va < 0x100000000 := by
          rw [pgRoundDown]
          omega
        obtain ⟨v, hv, hp, rfl⟩ := uva2ka_some hkernel hround hka
        exact (Writes.setFrame hv hp _).trans (ih hkernel (Nat.mod_lt _ (by decide)) hrun)

theorem pushArgs_writes {sp : ℕ} {pushed : List ℕ}
    {r : Option (ℕ × List ℕ)} (hkernel : KernelOnly m.dirs d)
    (hrun : pushArgs d argv sp pushed m = .ok (r, m')) : Writes d m m' := by
  induction argv generalizing sp pushed m with
  | nil =>
    cases hrun
    exact Writes.refl d _
  | cons arg argv ih =>
    unfold pushArgs at hrun
    split at hrun
    · cases hrun
      exact Writes.refl d _
    · obtain ⟨⟨ok, m₁⟩, hcopy, hrun⟩ := Run.bind_ok hrun
      have hw : Writes d m m₁ := copyoutLoop_writes _ hkernel (by omega) hcopy
      cases ok with
      | false =>
        cases hrun
        exact hw
      | true =>
        have hdirs : m₁.dirs = m.dirs := by rw [hw.same]
        exact hw.trans (ih (by rw [hdirs]; exact hkernel) hrun)

theorem pushStackAt_ok (hrun : m.pushStackAt d sz argv = .ok (r, m')) : DataOnly m m' := by
  obtain ⟨⟨r₁, m₁⟩, hpush, hrun⟩ := Run.bind_ok hrun
  have h₁ := pushArgs_ok hpush
  cases r₁ with
  | none =>
    cases hrun
    exact h₁
  | some r₁ =>
    obtain ⟨⟨ok, m₂⟩, hcopy, hrun⟩ := Run.bind_ok hrun
    cases hrun
    exact h₁.trans (copyoutLoop_ok hcopy)

theorem pushStackAt_writes
    (hkernel : KernelOnly m.dirs d) (hrun : m.pushStackAt d sz argv = .ok (r, m')) : Writes d m m' := by
  obtain ⟨⟨r₁, m₁⟩, hpush, hrun⟩ := Run.bind_ok hrun
  have hw := pushArgs_writes hkernel hpush
  cases r₁ with
  | none =>
    cases hrun
    exact hw
  | some r₁ =>
    obtain ⟨⟨ok, m₂⟩, hcopy, hrun⟩ := Run.bind_ok hrun
    cases hrun
    have hdirs : m₁.dirs = m.dirs := by rw [hw.same]
    exact hw.trans (copyoutLoop_writes _ (by rw [hdirs]; exact hkernel) (Nat.mod_lt _ (by decide)) hcopy)

theorem Whole.written (h : Whole sel d k m₀ m) (hother : ∀ d', d' ≠ d → m.dirs d' = m₀.dirs d')
    (hw : Writes d m m') : Whole sel d k m₀ m' := by
  have hdirs : m'.dirs = m.dirs := by rw [hw.same]
  have hproc : m'.proc = m.proc := by rw [hw.same]
  refine ⟨?_, ?_, ?_, ?_, fun d' v hd' hv hp => ?_, ?_, ?_, ?_⟩
  · rw [hw.same]
    exact h.frames.congr rfl rfl rfl rfl
  · rw [hw.same]
    exact h.owner
  · rw [hdirs]
    exact h.kernel
  · rw [hdirs]
    exact h.pages
  · rw [← h.data d' v hd' hv hp]
    have hsame := entry_congr (hother d' hd') v
    rw [← hsame] at hp ⊢
    refine hw.data _ fun w hw' hpw heq => hd' ?_
    exact (h.frames.frame_inj hw' hv hpw hp heq).1.symm
  · rw [hproc]
    exact h.proc
  · rw [hproc]
    exact h.kept
  · rw [hproc]
    exact h.new

theorem Building.written (h : Building sel b d k lost m₀ m) (hsame : DataOnly m m')
    (hw : lost = ∅ → Writes d m m') : Building sel b d k lost m₀ m' := by
  have hdirs : m'.dirs = m.dirs := by rw [hsame]
  refine ⟨?_, ?_, ?_, ?_, h.lostFree, fun hl => (h.whole hl).written h.other (hw hl)⟩
  · rw [hsame]
    exact h.kend
  · refine h.balanced.congr ?_ ?_ hdirs
    · rw [hsame]
    · rw [hsame]
  · rw [hdirs]
    exact h.above
  · rw [hdirs]
    exact h.other

theorem asksForPages_skip {count : ℕ} (hread : ip.readi off 32 = some 32)
    (htype : (ip.progHdr off).type ≠ 1) :
    asksForPages ip (count + 1) off = asksForPages ip count ((off + 32) % 0x100000000) := by
  rw [asksForPages]
  simp only [hread, decide_true, Bool.true_and, if_pos htype]

theorem asksForPages_load {count : ℕ} (hread : ip.readi off 32 = some 32)
    (htype : (ip.progHdr off).type = 1) :
    asksForPages ip (count + 1) off = decide ((ip.progHdr off).filesz ≤ (ip.progHdr off).memsz ∧
      0 < (ip.progHdr off).vaddr + (ip.progHdr off).memsz ∧
      (ip.progHdr off).vaddr + (ip.progHdr off).memsz < kernBase) := by
  rw [asksForPages]
  simp only [hread, decide_true, Bool.true_and, if_neg (not_not.2 htype)]

/-- How the loss of frames depends on the first page, after headers were read with `sz` bytes so
far. -/
def Begun (s : Supply) (d sz : ℕ) (asks : Bool) (r : Option ℕ) (lost : Finset ℕ) (m m' : Machine) :
    Prop :=
  (sz ≠ 0 → lost = ∅) ∧
  (sz = 0 → asks = false ∧ r = none ∧ lost = ∅ ∨
    asks = true ∧ r = some 0 ∧ m' = m ∧ lost = ∅ ∨
    asks = true ∧ r ≠ some 0 ∧ (lost = ∅ ↔ Fits s d 0 m))

theorem Begun.of_alloc {sz₁ : ℕ} {asks : Bool} {lost₁ lost' : Finset ℕ}
    (htable : sz ≠ 0 → HasTable m.dirs d 0)
    (hasks : asks = true ↔ 0 < newsz ∧ newsz < kernBase)
    (hiff : lost₁ = ∅ ↔ (newsz < kernBase → pagesOf sz < pagesOf newsz →
      Fits (s.after (pagesOf sz)) d 0 m))
    (hsub : lost₁ ⊆ lost') (hnone : lost₁ = ∅ → lost' = ∅) (hr : r ≠ some 0)
    (hzero : newsz < kernBase ∧ sz₁ = max sz newsz ∨ sz₁ = 0) (hsz : sz₁ = 0 → r = none) :
    Begun s d sz asks r lost' m m' := by
  have hback : lost' = ∅ → lost₁ = ∅ := fun hl => Finset.subset_empty.1 (hl ▸ hsub)
  refine ⟨fun hne => hnone (hiff.2 fun _ _ => Or.inl (htable hne)), fun hz => ?_⟩
  subst hz
  cases asks with
  | false =>
    have hnot : ¬ (0 < newsz ∧ newsz < kernBase) := fun hc => by cases hasks.2 hc
    refine Or.inl ⟨rfl, hsz ?_, hnone (hiff.2 fun hlow hpages => ?_)⟩
    · rcases hzero with ⟨hlow, hmax⟩ | hmax
      · rw [hmax]
        omega
      · exact hmax
    · simp only [pagesOf] at hpages
      omega
  | true =>
    obtain ⟨hpos, hlow⟩ := hasks.1 rfl
    have hsame : lost' = ∅ ↔ lost₁ = ∅ := ⟨hback, hnone⟩
    refine Or.inr (Or.inr ⟨rfl, hr, hsame.trans (hiff.trans ?_)⟩)
    have hafter : Fits (s.after (pagesOf 0)) d 0 m ↔ Fits s d 0 m := Iff.rfl
    rw [hafter]
    exact ⟨fun hc => hc hlow (by simp only [pagesOf]; omega), fun hc _ _ => hc⟩

theorem pagesOf_pos (h : sz ≠ 0) : 0 < pagesOf sz := by
  simp only [pagesOf]
  omega

theorem Building.hasTable (h : Building sel b d k lost m₀ m) (hl : lost = ∅) (hk : 0 < k) :
    HasTable m.dirs d 0 := hasTable_of_present ((h.whole hl).pages 0 hk)

/-- The image after some headers, with the frames lost so far. -/
def Segmented (s : Supply) (sel : Selection) (b : Books) (d sz : ℕ) (asks : Bool) (lost : Finset ℕ)
    (m₀ m : Machine) (r : Option ℕ) (m' : Machine) : Prop :=
  ∃ lost' k', lost ⊆ lost' ∧ Building sel b d k' lost' m₀ m' ∧
    (∀ sz', r = some sz' → k' = pagesOf sz' ∧ pagesOf sz' + 2 ≤ 16 ∧ sz ≤ sz') ∧ k' ≤ 16 ∧
    (lost = ∅ → Begun s d sz asks r lost' m m')

theorem Building.segments (h₀ : Callable b m₀) (hd : d ∉ b.live) (hmem : d ∈ m₀.freelist)
    (count : ℕ) {lost : Finset ℕ}
    (h : Building sel b d (pagesOf sz) lost m₀ m) (hsmall : SmallImage ip count off sz)
    (hsz : pagesOf sz ≤ 16) (hrun : loadSegmentsFrom s sel ip d count off sz m = .ok (r, m')) :
    Segmented s sel b d sz (asksForPages ip count off) lost m₀ m r m' := by
  induction count generalizing off sz lost m with
  | zero =>
    cases hrun
    refine ⟨lost, pagesOf sz, Finset.Subset.refl _, h, ?_, hsz, fun hl => ⟨fun _ => hl, fun hz => ?_⟩⟩
    · rintro sz' ⟨⟩
      exact ⟨rfl, hsmall, le_rfl⟩
    · subst hz
      exact Or.inr (Or.inl ⟨rfl, rfl, rfl, hl⟩)
  | succ count ih =>
    -- a header that ends the loop before it asks for memory
    have hstop : asksForPages ip (count + 1) off = false →
        Segmented s sel b d sz (asksForPages ip (count + 1) off) lost m₀ m none m := by
      intro hasks
      refine ⟨lost, pagesOf sz, Finset.Subset.refl _, h, ?_, hsz, fun hl => ⟨fun _ => hl, fun _ => ?_⟩⟩
      · rintro sz' ⟨⟩
      · exact Or.inl ⟨hasks, rfl, hl⟩
    unfold loadSegmentsFrom at hrun
    dsimp only at hrun
    split at hrun
    · rename_i hread
      cases hrun
      exact hstop (by simp [asksForPages, hread])
    rename_i hread
    rw [not_not] at hread
    split at hrun
    · rename_i htype
      have hsmall' := hsmall hread
      rw [if_pos htype] at hsmall'
      rw [asksForPages_skip hread htype]
      exact ih h hsmall' hsz hrun
    rename_i htype
    rw [not_not] at htype
    have hasks : asksForPages ip (count + 1) off = _ := asksForPages_load hread htype
    split at hrun
    · cases hrun
      exact hstop (hasks.trans (decide_eq_false (by omega)))
    split at hrun
    · rename_i hwrap
      cases hrun
      exact hstop (hasks.trans (decide_eq_false (by simp only [kernBase]; omega)))
    obtain ⟨⟨sz₁, m₁⟩, halloc, hrun⟩ := Run.bind_ok hrun
    have hsmall' := hsmall hread
    rw [if_neg (not_not.2 htype)] at hsmall'
    have hmax : (ip.progHdr off).vaddr + (ip.progHdr off).memsz < kernBase →
        pagesOf ((ip.progHdr off).vaddr + (ip.progHdr off).memsz) ≤ 16 := by
      intro hlow
      have hle := (hsmall' (by omega) hlow).1
      simp only [pagesOf] at hle ⊢
      omega
    obtain ⟨lost₁, hsub₁, hiff₁, hres₁⟩ := h.alloc h₀ hd hmem hmax halloc
    have hbegun : ∀ {r : Option ℕ} {lost' : Finset ℕ} {m' : Machine}, lost₁ ⊆ lost' →
        (lost₁ = ∅ → lost' = ∅) → r ≠ some 0 → (sz₁ = 0 → r = none) → lost = ∅ →
        Begun s d sz (asksForPages ip (count + 1) off) r lost' m m' := by
      intro r lost' m' hsub hnone hr hsz₁ hl
      refine Begun.of_alloc (fun hne => h.hasTable hl (pagesOf_pos hne)) ?_ (hiff₁ hl) hsub hnone hr
        (hres₁.imp (fun hc => ⟨hc.2.1, hc.1⟩) fun hc => hc.1) hsz₁
      rw [hasks, decide_eq_true_iff]
      omega
    have hlost : ∀ {k' : ℕ} {m' : Machine}, Building sel b d k' lost₁ m₀ m' → k' ≤ 16 →
        Segmented s sel b d sz (asksForPages ip (count + 1) off) lost m₀ m none m' := by
      intro k' m' hb hk'
      refine ⟨lost₁, k', hsub₁, hb, ?_, hk', ?_⟩
      · rintro sz' ⟨⟩
      · exact hbegun (Finset.Subset.refl _) id (by simp) fun _ => rfl
    dsimp only at hrun
    split at hrun
    · cases hrun
      rcases hres₁ with ⟨-, hlow, hb⟩ | ⟨-, hb⟩
      · exact hlost hb (hsmall' (by omega) hlow).1
      · exact hlost hb hsz
    rename_i hne
    obtain ⟨hsz₁, hlow, hb⟩ := hres₁.resolve_right fun hc => hne hc.1
    obtain ⟨hfit, hnext⟩ := hsmall' (by omega) hlow
    rw [← hsz₁] at hb hfit hnext
    split at hrun
    · cases hrun
      exact hlost hb hfit
    rename_i halign
    obtain ⟨⟨ok, m₂⟩, hload, hrun⟩ := Run.bind_ok hrun
    have hb₂ : Building sel b d (pagesOf sz₁) lost₁ m₀ m₂ := by
      refine hb.written (loaduvm_ok hload) fun hl => ?_
      refine loaduvm_writes (hb.whole hl).pages (hfit.trans (by decide)) ?_ hload
      simp only [pagesOf]
      omega
    cases ok with
    | false =>
      cases hrun
      exact hlost hb₂ hfit
    | true =>
      obtain ⟨lost', k', hsub', hb', hres', hk', hiff'⟩ := ih hb₂ (hnext (not_not.1 halign)) hfit hrun
      refine ⟨lost', k', hsub₁.trans hsub', hb', fun sz' hr => ?_, hk', ?_⟩
      · obtain ⟨hk, hroom, hle⟩ := hres' sz' hr
        exact ⟨hk, hroom, by omega⟩
      · refine hbegun hsub' (fun hl => (hiff' hl).1 hne) ?_ fun hc => absurd hc hne
        intro hr
        have := (hres' 0 hr).2.2
        omega

/-! ### The stack -/

theorem Building.guard (h : Building sel b d k lost m₀ m) (hv : v < k) (hk : k ≤ 16)
    (hrun : m.clearpteu d (4096 * v) = .ok m') : Building sel b d k lost m₀ m' := by
  have hvu : v < userPages := lt_of_lt_of_le hv (hk.trans (by decide))
  have hlt : v < 0x100000 := lt_trans hvu (by decide)
  unfold Machine.clearpteu at hrun
  split at hrun
  · cases hrun
  · rename_i pte hwalk
    have ht : HasTable m.dirs d v := hasTable_of_walk hwalk
    obtain rfl := entry_of_walk hwalk
    cases hrun
    have hframe : frameOf (entry m.dirs d v &&& ~~~pteU) = frameOf (entry m.dirs d v) :=
      frameOf_and_not _ (by decide)
    have hpresent := clear_pteU_present (entry m.dirs d v)
    have hentry : ∀ w < 0x100000, flagOn (entry (store m.dirs d (4096 * v)
        (entry m.dirs d v &&& ~~~pteU)) d w) pteP = flagOn (entry m.dirs d w) pteP := by
      intro w hw
      rw [entry_store ht hlt _ d hw]
      split_ifs with hc
      · rw [hpresent, hc.2]
      · rfl
    refine ⟨h.kend, Account.store h.balanced ht hlt fun _ => ⟨hpresent, hframe⟩, fun w hw hwu => ?_,
      fun d' hd' => ?_, h.lostFree, fun hl => ?_⟩
    · exact (hentry w (lt_trans hwu (by decide))).trans (h.above w hw hwu)
    · exact ((Extends.setPte d m _ _).other d' hd').trans (h.other d' hd')
    · have hw := h.whole hl
      refine ⟨?_, hw.owner, fun w hwk hw' => ?_, fun w hwk => ?_, hw.data, hw.proc, hw.kept, hw.new⟩
      · refine hw.frames.store ht hlt (fun _ hp => ?_) (fun _ hp => ?_) rfl rfl rfl rfl
        · rw [hframe]
          exact hw.frames.owned d v hvu (hpresent ▸ hp)
        · rw [hpresent, hw.pages v hv] at hp
          cases hp
      · have hne : ¬ (d = d ∧ w = v) := fun hc => absurd hc.2 (by omega)
        show flagOn (entry (store m.dirs d (4096 * v) _) d w) pteU = false ∧
          flagOn (entry (store m.dirs d (4096 * v) _) d w) ptePG = false
        rw [entry_store_ne ht hlt _ hw' hne]
        exact hw.kernel w hwk hw'
      · exact (hentry w (by omega)).trans (hw.pages w hwk)

theorem Building.stack (h₀ : Callable b m₀) (hd : d ∉ b.live) (hmem : d ∈ m₀.freelist) {N : ℕ}
    {r : Option (ℕ × ℕ)} (h : Building sel b d N lost m₀ m) (hN : N + 2 ≤ 16)
    (hrun : m.stackFrom s sel d (4096 * N) argv = .ok (r, m')) :
    ∃ lost' k', lost ⊆ lost' ∧ Building sel b d k' lost' m₀ m' ∧ k' ≤ 16 ∧
      (lost = ∅ → (lost' = ∅ ↔ (N = 0 → Fits s d 0 m))) := by
  have hpages : pagesOf (4096 * N) = N := by
    simp only [pagesOf]
    omega
  have hnew : (4096 * N + 8192) % 0x100000000 = 4096 * (N + 2) := by omega
  have hpages' : pagesOf (4096 * (N + 2)) = N + 2 := by
    simp only [pagesOf]
    omega
  have hlow : 4096 * (N + 2) < kernBase := by
    simp only [kernBase]
    omega
  have hmax : max (4096 * N) (4096 * (N + 2)) = 4096 * (N + 2) := by omega
  unfold stackFrom at hrun
  rw [hnew] at hrun
  obtain ⟨⟨sz, m₁⟩, halloc, hrun⟩ := Run.bind_ok hrun
  have hstart : Building sel b d (pagesOf (4096 * N)) lost m₀ m := by
    rw [hpages]
    exact h
  obtain ⟨lost', hsub, hiff, hres⟩ := hstart.alloc h₀ hd hmem (fun _ => by omega) halloc
  rw [hmax, hpages, hpages'] at hres
  have hcond : lost = ∅ → (lost' = ∅ ↔ (N = 0 → Fits s d 0 m)) := by
    intro hl
    refine (hiff hl).trans ?_
    rw [hpages, hpages']
    by_cases hN0 : N = 0
    · subst hN0
      exact ⟨fun hc _ => hc hlow (by omega), fun hc _ _ => hc rfl⟩
    · exact iff_of_true (fun _ _ => Or.inl (h.hasTable hl (by omega))) fun hc => absurd hc hN0
  dsimp only at hrun
  split at hrun
  · cases hrun
    rcases hres with ⟨-, -, hb⟩ | ⟨-, hb⟩
    · exact ⟨lost', N + 2, hsub, hb, hN, hcond⟩
    · exact ⟨lost', N, hsub, hb, by omega, hcond⟩
  · rename_i hne
    obtain ⟨rfl, -, hb⟩ := hres.resolve_right fun hc => hne hc.1
    obtain ⟨m₂, hclear, hrun⟩ := Run.bind_ok hrun
    obtain ⟨⟨sp, m₃⟩, hpush, hrun⟩ := Run.bind_ok hrun
    cases hrun
    rw [show 4096 * (N + 2) - 8192 = 4096 * N by omega] at hclear
    have hb₂ := hb.guard (by omega) hN hclear
    refine ⟨lost', N + 2, hsub, ?_, hN, hcond⟩
    exact hb₂.written (pushStackAt_ok hpush) fun hl => pushStackAt_writes (hb₂.whole hl).kernel hpush

/-! ### The new directory -/

/-- `setupkvm` builds an image without pages, or gives up and frees it. -/
theorem Building.kmap {lo : ℕ} {l : List (ℕ × ℕ × ℕ × Pte)} (hl : Ascending lo l)
    (hlo : userPages ≤ lo) (hd0 : d ≠ 0) (h : Building sel b d 0 ∅ m₀ m)
    (hrun : kmapLoop sel d l m = .ok (r, m')) :
    r = some d ∧ Building sel b d 0 ∅ m₀ m' ∨
      r = none ∧ ∃ m₁, Building sel b d 0 ∅ m₀ m₁ ∧ m₁.freevm sel d = .ok m' := by
  refine kmapLoop_induct (P := Building sel b d 0 ∅ m₀) hl hlo hrun h
    fun v count f perm m m₁ ok hv hend _ hU hPG hmap h => ?_
  obtain ⟨hx, he⟩ := mapLoop_ok count hmap (fun _ => rfl) hend
  have hentry : ∀ w < userPages, entry m₁.dirs d w = entry m.dirs d w := fun w hw =>
    he w (lt_trans hw (by decide)) (Or.inl (by omega))
  have hw := h.whole rfl
  have hproc : m₁.proc = m.proc := by rw [hx.same]
  refine ⟨?_, ?_, fun w _ hwu => ?_, fun d' hd' => (hx.other d' hd').trans (h.other d' hd'), h.lostFree,
    fun _ => ⟨?_, ?_, hw.kernel.mapLoop hU hPG hmap (fun _ => rfl) hend,
      fun w hwk => absurd hwk (Nat.not_lt_zero w), ?_, ?_, ?_, ?_⟩⟩
  · rw [hx.same]
    exact h.kend
  · exact Accounting.mapLoop_balanced h.balanced (Finset.mem_insert_self d _) (fun _ => rfl) hv hend hmap
  · rw [hentry w hwu]
    exact h.above w (Nat.zero_le w) hwu
  · refine hw.frames.extends hx ⟨h.dir_not_free hd0, hw.owner⟩ (fun w hwu hp => ?_) fun w hwu hp hg => ?_
    · rw [hentry w hwu, h.above w (Nat.zero_le w) hwu] at hp
      cases hp
    · rw [hentry w hwu] at hp hg ⊢
      exact hw.frames.cleared d w hwu hp hg
  · rw [hx.same]
    exact hw.owner
  · rw [hx.same]
    exact hw.data
  · rw [hproc]
    exact hw.proc
  · rw [hproc]
    exact hw.kept
  · rw [hproc]
    exact hw.new

theorem Callable.setupkvm (h₀ : Callable b m₀) (hrun : m₀.setupkvm sel = .ok (r, m')) :
    r = none ∧ m' = m₀ ∨ ∃ d ∈ m₀.freelist, d ∉ b.live ∧
      (r = some d ∧ Building sel b d 0 ∅ m₀ m' ∨
        r = none ∧ ∃ m₁, Building sel b d 0 ∅ m₀ m₁ ∧ m₁.freevm sel d = .ok m') := by
  unfold Machine.setupkvm at hrun
  split at hrun
  · cases hrun
    exact Or.inl ⟨rfl, rfl⟩
  · rename_i d m₁ halloc
    obtain ⟨rest, hf, rfl⟩ := kalloc_ok halloc
    have hmem : d ∈ m₀.freelist := by
      rw [hf]
      exact List.mem_cons_self
    have hd : d ∉ b.live := h₀.balanced.fresh hmem
    obtain ⟨hframes, hnot, howner⟩ := h₀.frames.emptyDir hf
    have hbal : Balanced (m₀.emptyDir d rest) ⟨insert d b.live, b.outside ∪ ∅, none⟩ := by
      rw [Finset.union_empty, ← h₀.hand]
      exact Account.newDir h₀.balanced hf
    have hzero := entry_emptyDir m₀ d rest
    have hstart : Building sel b d 0 ∅ m₀ (m₀.emptyDir d rest) := by
      refine ⟨rfl, hbal, fun v _ _ => by rw [hzero]; decide, fun d' hd' => Function.update_of_ne hd' _ _,
        fun f hf => absurd hf (Finset.notMem_empty f), fun _ => ⟨hframes, howner, fun v _ _ => ?_,
          fun v hv => absurd hv (Nat.not_lt_zero v), fun _ _ _ _ _ => rfl, rfl, fun _ _ => rfl,
          fun _ hi => Or.inl hi⟩⟩
      rw [hzero]
      decide
    exact Or.inr ⟨d, hmem, hd, hstart.kmap (kmap_ascending h₀.layout) le_rfl (h₀.balanced.pos hmem) hrun⟩

/-! ### Freeing the new directory -/

theorem freeTables_data {l : List ℕ} {g : ℕ} (hrun : freeTables d l m = .ok m')
    (hg : ∀ i t, m.dirs d i = some t → t.frame ≠ g) :
    m'.data g = m.data g := by
  induction l generalizing m with
  | nil =>
    cases hrun
    rfl
  | cons i l ih =>
    unfold freeTables at hrun
    split at hrun
    · exact ih hrun hg
    · rename_i t ht
      obtain ⟨m₁, hfree, hrun⟩ := Run.bind_ok hrun
      obtain ⟨rfl, -⟩ := kfree_ok hfree
      exact (ih hrun hg).trans (Function.update_of_ne (hg i t ht).symm _ _)

/-- `freevm` leaves the pages of other directories: their frames are neither pages nor page tables of the
directory, nor the directory itself. -/
theorem freevm_page {e : ℕ} (hframes : FramesOk m) (hbal : Balanced m b) (hlive : d ∈ b.live) (he : e ≠ d)
    (hv : v < userPages) (hp : flagOn (entry m.dirs e v) pteP = true) (hrun : m.freevm sel d = .ok m') :
    m'.data (frameOf (entry m.dirs e v)) = m.data (frameOf (entry m.dirs e v)) := by
  obtain ⟨⟨r, m₁⟩, hdealloc, hrun⟩ := Run.bind_ok hrun
  obtain ⟨m₂, htables, hrun⟩ := Run.bind_ok hrun
  obtain ⟨m₃, hkfree, hrun⟩ := Run.bind_ok hrun
  cases hrun
  obtain ⟨rfl, -⟩ := kfree_ok hkfree
  have hbal₁ := Accounting.deallocuvm_balanced hbal le_rfl hdealloc
  obtain ⟨m₁', hrun₁, hdrop⟩ := deallocuvm_dropped sel d le_rfl (show 0 < kernBase by decide) hframes
  rw [hrun₁] at hdealloc
  cases hdealloc
  have hentry : entry m₁.dirs e v = entry m.dirs e v :=
    hdrop.kept e v (lt_trans hv (by decide)) fun hc => he hc.1
  have htarget : Accounting.target m₁.dirs b (.page e v) = frameOf (entry m.dirs e v) := by
    rw [Accounting.target, hentry, if_pos ⟨hv, hp⟩]
  have hpos : frameOf (entry m.dirs e v) ≠ 0 := by
    have := (hframes.frame_valid hv hp).1
    have := hframes.kend_pos
    omega
  have hplace : ∀ c, c ≠ Accounting.Cell.page e v →
      Accounting.target m₁.dirs b c ≠ frameOf (entry m.dirs e v) := fun c hne heq =>
    hne (hbal₁.exact.once (by rw [heq]; exact hpos) (heq.trans htarget.symm))
  have htab : ∀ i t, m₁.dirs d i = some t → t.frame ≠ frameOf (entry m.dirs e v) := by
    intro i t ht
    have := hplace (.table d i) (by simp)
    rwa [Accounting.target, ht] at this
  have hdir : d ≠ frameOf (entry m.dirs e v) := by
    have := hplace (.dir d) (by simp)
    rwa [Accounting.target, if_pos hlive] at this
  show Function.update m₂.data d _ (frameOf (entry m.dirs e v)) = _
  rw [Function.update_of_ne hdir.symm, freeTables_data htables htab]
  exact hdrop.data e v hv hp fun hc => he hc.1

/-- After `freevm` of the new directory the page tables are as before, and the free list is, up to the
frames that were lost. -/
theorem Building.freed (h : Building sel b d k lost m₀ m) (h₀ : Callable b m₀) (hd : d ∉ b.live)
    (hmem : d ∈ m₀.freelist) (hk : k ≤ userPages) (hrun : m.freevm sel d = .ok m') :
    Balanced m' ⟨b.live, b.outside ∪ lost, none⟩ ∧ (lost = ∅ → ∀ c, Intact c c m₀ m') := by
  have hbal : Balanced m' ⟨b.live, b.outside ∪ lost, none⟩ := by
    have := Accounting.freevm_balanced h.balanced (Finset.mem_insert_self d _) hrun
    rwa [Finset.erase_insert hd] at this
  refine ⟨hbal, fun hl c => ?_⟩
  subst hl
  have hw := h.whole rfl
  have hfree := hrun
  obtain ⟨⟨r, m₁⟩, hdealloc, hrun⟩ := Run.bind_ok hrun
  obtain ⟨m₂, htables, hrun⟩ := Run.bind_ok hrun
  obtain ⟨m₃, hkfree, hrun⟩ := Run.bind_ok hrun
  cases hrun
  obtain ⟨rfl, -⟩ := kfree_ok hkfree
  obtain ⟨hkend₁, howner₁, hother₁⟩ := deallocuvm_keeps hdealloc
  obtain ⟨m₁', hrun₁, hdrop⟩ := deallocuvm_dropped sel d le_rfl (show 0 < kernBase by decide) hw.frames
  rw [hrun₁] at hdealloc
  cases hdealloc
  have hw₁ : Whole sel d 0 m₀ m₁ := by
    refine hw.dropped (h₀.names_ne hmem) h.other hdrop (howner₁ d hw.owner) hk (Nat.zero_le k)
      fun w hw => ?_
    refine iff_of_true ⟨Nat.zero_le w, ?_⟩ (Nat.zero_le w)
    have hall : pagesOf kernBase = userPages := by decide
    rw [hall]
    exact lt_of_lt_of_le hw hk
  have hdirs₁ : ∀ d', d' ≠ d → m₁.dirs d' = m₀.dirs d' := fun d' hd' =>
    (hother₁ d' hd').trans (h.other d' hd')
  have hdead : m₀.dirs d = fun _ => none := funext (h₀.balanced.dead d hd)
  have hproc : m₂.proc = m₁.proc := (freeTables_ok htables).1
  have hdirs : m₂.dirs = m₁.dirs := (freeTables_ok htables).2
  have hfinal : (Function.update m₂.dirs d fun _ => none) = m₀.dirs := by
    funext d'
    by_cases hd' : d' = d
    · rw [hd', Function.update_self, hdead]
    · rw [Function.update_of_ne hd', hdirs, hdirs₁ d' hd']
  have hother : m₀.proc.pgdir ≠ d := fun hc => hd (hc ▸ h₀.live)
  refine ⟨rfl, ?_, ?_, ?_, fun v hv hp => ?_, ?_, fun i => ?_, ?_, ?_⟩
  · show m₂.proc.pgdir = _
    rw [hproc, hw₁.proc]
  · show m₂.proc.sz = _
    rw [hproc, hw₁.proc]
  · show (Function.update m₂.dirs d fun _ => none) _ = _
    rw [hfinal]
  · have hsame := h.entry_other hother v
    have hpage := freevm_page hw.frames h.balanced (Finset.mem_insert_self d _) hother hv
      (by rw [hsame]; exact hp) hfree
    rw [hsame] at hpage
    exact hpage.trans (hw.data m₀.proc.pgdir v hother hv hp)
  · show m₂.proc.swapFile = _
    rw [hproc, hw₁.proc]
  · show (m₂.proc.ramMonitor i).used = _ ∧ (_ → m₂.proc.ramMonitor i = _)
    rw [hproc]
    refine ⟨?_, hw₁.kept i⟩
    cases hu : (m₀.proc.ramMonitor i).used with
    | true => rw [hw₁.kept i hu, hu]
    | false =>
      rw [Bool.eq_false_iff]
      intro hu'
      rcases hw₁.new i hu' with hc | ⟨-, -, v, hv, -⟩
      · rw [hu] at hc
        cases hc
      · exact absurd hv (Nat.not_lt_zero v)
  · show m₂.proc.swapMonitor = _
    rw [hproc, hw₁.proc]
  · have hkend : m₂.kend = m₀.kend := by
      rw [freeTables_keeps htables]
      exact hkend₁.trans h.kend
    refine h₀.balanced.free_perm hbal hkend fun c' => ?_
    have hbooks : (⟨b.live, b.outside ∪ ∅, none⟩ : Books) = b := by
      rw [Finset.union_empty, ← h₀.hand]
    rw [hbooks]
    show Accounting.target (Function.update m₂.dirs d fun _ => none) b c' = _
    rw [hfinal]

theorem Building.gone (h : Building sel b d k lost m₀ m) (h₀ : Callable b m₀) (hd : d ∉ b.live)
    (hmem : d ∈ m₀.freelist) (hk : k ≤ userPages) (hrun : m.freevm sel d = .ok m') (hf : f ∈ lost) :
    f ∈ m₀.freelist ∧ f ∉ m'.freelist := by
  have hbal := (h.freed h₀ hd hmem hk hrun).1
  have hfree := h.lostFree f hf
  have htarget : Accounting.target m'.dirs ⟨b.live, b.outside ∪ lost, none⟩ (.outside f) = f :=
    if_pos (Finset.mem_union_right _ hf)
  have hnot := hbal.not_mem (c := .outside f) (by rw [htarget]; exact h₀.balanced.pos hfree)
  rw [htarget] at hnot
  exact ⟨hfree, hnot⟩

/-- A failed call is clean exactly when no frame was lost. -/
theorem Building.freed_iff (h : Building sel b d k lost m₀ m) (h₀ : Callable b m₀) (hd : d ∉ b.live)
    (hmem : d ∈ m₀.freelist) (hk : k ≤ userPages) (hrun : m.freevm sel d = .ok m') (c : Caller) :
    Intact c c m₀ m' ↔ lost = ∅ := by
  refine ⟨fun hi => Finset.eq_empty_of_forall_notMem fun f hf => ?_,
    fun hl => (h.freed h₀ hd hmem hk hrun).2 hl c⟩
  obtain ⟨hfree, hnot⟩ := h.gone h₀ hd hmem hk hrun hf
  exact hnot (hi.frames.mem_iff.2 hfree)

theorem Intact.refl (c : Caller) (m : Machine) : Intact c c m m where
  caller := rfl
  pgdir := rfl
  sz := rfl
  dir := rfl
  data _ _ _ := rfl
  swapFile := rfl
  ram _ := ⟨rfl, fun _ => rfl⟩
  swap := rfl
  frames := List.Perm.refl _

theorem firstTable_iff (helf : ip.isElf = true)
    (hasks : asksForPages ip (ip.u16 44) (ip.u32 28) = true) (ht : ¬ HasTable m₁.dirs d 0)
    (hlen : m.freelist.length = m₁.freelist.length + 65) :
    FirstTable s m (some ip) ↔ Fits s d 0 m₁ := by
  have hnone : m₁.kallocFrom (s.page 0) = none ↔ s.page 0 = false ∨ m₁.freelist.length = 0 := by
    rw [List.length_eq_zero_iff]
    cases hpage : s.page 0 with
    | false => simp [kallocFrom]
    | true =>
      cases hf : m₁.freelist with
      | nil => simp [kallocFrom, kalloc, hf]
      | cons f rest => simp [kallocFrom, kalloc, hf]
  rw [Fits, hnone]
  constructor
  · intro h
    right
    cases hpage : s.page 0 with
    | false => exact Or.inl (Or.inl rfl)
    | true =>
      by_cases hzero : m₁.freelist.length = 0
      · exact Or.inl (Or.inr hzero)
      · obtain ⟨htable, hmore⟩ := h ip rfl helf hasks hpage (by omega)
        exact Or.inr ⟨htable, by omega⟩
  · rintro (hc | hc | ⟨htable, hmore⟩) ip' hip - - hpage hlong
    · exact absurd hc ht
    · rw [hpage] at hc
      rcases hc with hc | hc
      · cases hc
      · omega
    · exact ⟨htable, by omega⟩

/-- The ways in which `exec` of a file fails; each goes through `bad`. -/
theorem execFrom_false {c c' : Caller} {path : List Byte}
    (hrun : m.execFrom s sel c path (some ip) argv = .ok (false, c', m')) :
    c' = c ∧ (ip.isElf = false ∧ m' = m ∨ ip.isElf = true ∧ (m.setupkvm sel = .ok (none, m') ∨
      ∃ d m₁, m.setupkvm sel = .ok (some d, m₁) ∧
        ((∃ m₂, loadSegmentsFrom s sel ip d (ip.u16 44) (ip.u32 28) 0 m₁ = .ok (none, m₂) ∧
            m₂.freevm sel d = .ok m') ∨
          ∃ sz m₂ m₃, loadSegmentsFrom s sel ip d (ip.u16 44) (ip.u32 28) 0 m₁ = .ok (some sz, m₂) ∧
            m₂.stackFrom s sel d (pgRoundUp sz) argv = .ok (none, m₃) ∧ m₃.freevm sel d = .ok m'))) := by
  cases hlocked : c.locked with
  | true =>
    rw [execFrom, Caller.ilock_of_locked hlocked] at hrun
    cases hrun
  | false =>
    have hbad : ∀ (pgdir : Option ℕ) (opened : Bool) (m₁ : Machine),
        m₁.execBad sel pgdir opened (if opened then c.opened else c) = .ok (false, c', m') →
        c' = c ∧ (pgdir.elim (.ok m₁) fun d => m₁.freevm sel d) = .ok m' := by
      intro pgdir opened m₁ hbad
      rw [execBad_eq hlocked] at hbad
      obtain ⟨m₂, hfree, hbad⟩ := Run.map_ok hbad
      cases hbad
      exact ⟨rfl, hfree⟩
    rw [execFrom, Caller.ilock_eq hlocked] at hrun
    obtain ⟨c₁, hc₁, hrun⟩ := Run.bind_ok hrun
    cases hc₁
    split at hrun
    · rename_i helf
      obtain ⟨rfl, hm⟩ := hbad none true m hrun
      cases hm
      exact ⟨rfl, Or.inl ⟨helf, rfl⟩⟩
    · rename_i helf
      have helf' : ip.isElf = true := Bool.eq_true_of_not_eq_false helf
      obtain ⟨⟨r, m₁⟩, hsetup, hrun⟩ := Run.bind_ok hrun
      cases r with
      | none =>
        obtain ⟨rfl, hm⟩ := hbad none true m₁ hrun
        cases hm
        exact ⟨rfl, Or.inr ⟨helf', Or.inl hsetup⟩⟩
      | some d =>
        obtain ⟨⟨r, m₂⟩, hsegs, hrun⟩ := Run.bind_ok hrun
        cases r with
        | none =>
          obtain ⟨rfl, hfree⟩ := hbad (some d) true m₂ hrun
          exact ⟨rfl, Or.inr ⟨helf', Or.inr ⟨d, m₁, hsetup, Or.inl ⟨m₂, hsegs, hfree⟩⟩⟩⟩
        | some sz =>
          obtain ⟨c₂, hc₂, hrun⟩ := Run.bind_ok hrun
          rw [Caller.release_eq hlocked] at hc₂
          cases hc₂
          obtain ⟨⟨r, m₃⟩, hstack, hrun⟩ := Run.bind_ok hrun
          cases r with
          | none =>
            obtain ⟨rfl, hfree⟩ := hbad (some d) false m₃ hrun
            exact ⟨rfl, Or.inr ⟨helf', Or.inr ⟨d, m₁, hsetup,
              Or.inr ⟨sz, m₂, m₃, hsegs, hstack, hfree⟩⟩⟩⟩
          | some r =>
            obtain ⟨m₄, -, hrun⟩ := Run.bind_ok hrun
            cases hrun

theorem setupkvm_some (sel : Selection) (hlayout : 0x100 < m.kdata ∧ m.kdata < phystopFrame)
    (hlen : 65 ≤ m.freelist.length) (m' : Machine) : m.setupkvm sel ≠ .ok (none, m') := by
  obtain ⟨d, rest, hf⟩ : ∃ d rest, m.freelist = d :: rest :=
    List.exists_cons_of_ne_nil (List.ne_nil_of_length_pos (by omega))
  rw [hf, List.length_cons] at hlen
  obtain ⟨m₁, hrun, -⟩ := setupkvm_spec sel hf (by omega) hlayout
  intro hc
  rw [hrun] at hc
  cases hc

theorem setupkvm_noTable (h₀ : Callable b m) (hrun : m.setupkvm sel = .ok (some d, m₁)) :
    ¬ HasTable m₁.dirs d 0 := by
  have hslot : 0 ∉ kernelSlots := by
    rw [kernelSlots, Finset.mem_union, Finset.mem_Icc, Finset.mem_Icc]
    omega
  cases hf : m.freelist with
  | nil => simp [Machine.setupkvm, kalloc, hf] at hrun
  | cons g rest =>
    rw [Machine.setupkvm, kalloc, hf] at hrun
    obtain ⟨rfl, -, -⟩ := kmapLoop_ok sel (m := m.emptyDir g rest) (kmap_ascending h₀.layout) le_rfl hrun
    have hnone : m₁.dirs d 0 = none :=
      Accounting.kmapLoop_slot (kmap_ascending h₀.layout) le_rfl hslot (by simp) hrun
    rw [HasTable, pdx_page, Nat.zero_div, Nat.zero_mod, hnone]
    decide

/-- A failed `exec` of an image of at most `MAX_PYSC_PAGES` pages leaves its caller intact, and gives
back every frame, if and only if the page table for the first page of the image can be allocated when
the frame for that page was. -/
theorem exec_failure_iff {c c' : Caller} {path : List Byte} {ip : Option File} {argv : List (List Byte)}
    (h₀ : Callable b m) (hsmall : ∀ f, ip = some f → SmallImage f (f.u16 44) (f.u32 28) 0)
    (hrun : m.execFrom s sel c path ip argv = .ok (false, c', m')) :
    Intact c c' m m' ↔ FirstTable s m ip := by
  cases ip with
  | none =>
    have hc : c.beginOp.endOp = c := by simp [Caller.beginOp, Caller.endOp]
    rw [execFrom, hc] at hrun
    cases hrun
    exact iff_of_true (Intact.refl c m) fun f hf => by cases hf
  | some ip =>
    obtain ⟨rfl, ⟨helf, rfl⟩ | ⟨helf, hrest⟩⟩ := execFrom_false hrun
    · refine iff_of_true (Intact.refl c' m') fun f hf helf' => ?_
      cases hf
      rw [helf] at helf'
      cases helf'
    · rcases hrest with hsetup | ⟨d, m₁, hsetup, hrest⟩
      · -- no directory
        refine iff_of_true ?_ fun f hf _ _ _ hlong => absurd hsetup ?_
        · rcases h₀.setupkvm hsetup with ⟨-, rfl⟩ | ⟨d, hmem, hd, ⟨hc, -⟩ | ⟨-, m₁, hb, hfree⟩⟩
          · exact Intact.refl c' _
          · cases hc
          · exact (hb.freed_iff h₀ hd hmem (Nat.zero_le _) hfree c').2 rfl
        · exact setupkvm_some sel h₀.layout (by omega) m'
      · obtain ⟨hlen, -⟩ := setupkvm_frames sel h₀.layout hsetup
        have ht := setupkvm_noTable h₀ hsetup
        have hfits := fun hasks => firstTable_iff (s := s) helf hasks ht hlen
        rcases h₀.setupkvm hsetup with ⟨hc, -⟩ | ⟨d', hmem, hd, ⟨hd', hb⟩ | ⟨hc, -⟩⟩
        · cases hc
        · cases hd'
          have hstart : Building sel b d (pagesOf 0) ∅ m m₁ := hb
          rcases hrest with ⟨m₂, hsegs, hfree⟩ | ⟨sz, m₂, m₃, hsegs, hstack, hfree⟩
          · obtain ⟨lost, k, -, hb₂, -, hk, hbegun⟩ := hstart.segments h₀ hd hmem _
              (hsmall ip rfl) (by decide) hsegs
            rw [hb₂.freed_iff h₀ hd hmem (hk.trans (by decide)) hfree]
            rcases (hbegun rfl).2 rfl with ⟨hasks, -, hl⟩ | ⟨-, hc, -⟩ | ⟨hasks, -, hl⟩
            · refine iff_of_true hl fun f hf _ hasks' => ?_
              cases hf
              rw [hasks] at hasks'
              cases hasks'
            · cases hc
            · exact hl.trans (hfits hasks).symm
          · obtain ⟨lost, k, -, hb₂, hsome, -, hbegun⟩ := hstart.segments h₀ hd hmem _
              (hsmall ip rfl) (by decide) hsegs
            obtain ⟨rfl, hroom, -⟩ := hsome sz rfl
            have hround : pgRoundUp sz = 4096 * pagesOf sz := by
              refine pgRoundUp_eq ?_
              simp only [pagesOf, kernBase] at hroom ⊢
              omega
            rw [hround] at hstack
            obtain ⟨lost', k', hsub, hb₃, hk', hiff⟩ := hb₂.stack h₀ hd hmem hroom hstack
            rw [hb₃.freed_iff h₀ hd hmem (hk'.trans (by decide)) hfree]
            rcases (hbegun rfl).2 rfl with ⟨-, hc, -⟩ | ⟨hasks, hz, rfl, hl⟩ | ⟨hasks, hz, hl⟩
            · cases hc
            · cases hz
              rw [hfits hasks, hiff hl]
              exact ⟨fun hc => hc rfl, fun hc _ => hc⟩
            · have hpos : pagesOf sz ≠ 0 := (pagesOf_pos fun hc => hz (by rw [hc])).ne'
              rw [hfits hasks, ← hl]
              refine ⟨fun hl' => Finset.subset_empty.1 (hl' ▸ hsub), fun hl' => ?_⟩
              exact (hiff hl').2 fun hc => absurd hc hpos
        · cases hc

/-! ### Calls on the machine as it boots -/

theorem Callable.leave (h : Callable b m) (hfree : Freeable m.proc.pgdir m) (n k : ℕ)
    (hlen : m.freelist.length = k + n) :
    ∃ b' m', Callable b' m' ∧ Freeable m'.proc.pgdir m' ∧ m'.freelist.length = k := by
  induction n generalizing b m with
  | zero => exact ⟨b, m, h, hfree, hlen⟩
  | succ n ih =>
    obtain ⟨f, rest, hf⟩ := List.exists_cons_of_length_eq_add_one hlen
    have hmem : ∀ g ∈ rest, g ∈ m.freelist := fun g hg => by
      rw [hf]
      exact List.mem_cons_of_mem f hg
    have hnodup := h.frames.nodup
    rw [hf, List.nodup_cons] at hnodup
    have hpos : f ≠ 0 := h.balanced.pos (f := f) (by rw [hf]; exact List.mem_cons_self)
    have hnext : Callable ⟨b.live, insert f b.outside, none⟩ { m with freelist := rest } := by
      refine ⟨h.layout, (Account.take h.balanced hf h.hand).setAside rfl hpos, rfl, ?_, h.live,
        fun i hi hc => h.names i hi (hmem _ hc)⟩
      refine ⟨h.frames.kend_pos, hnodup.2, fun g hg => h.frames.valid g (hmem g hg),
        fun g hg => h.frames.free g (hmem g hg), h.frames.ownedValid, h.frames.owned, h.frames.cleared,
        fun d v hv ht => ?_⟩
      obtain ⟨hnot, howner⟩ := h.frames.dirs d v hv ht
      exact ⟨fun hc => hnot (hmem d hc), howner⟩
    have hrest : rest.length = k + n := by
      rw [hf, List.length_cons] at hlen
      omega
    exact ih hnext (hfree.congr rfl rfl) hrest

theorem booted_callable (k : ℕ) (hk : k ≤ 1000) :
    ∃ b m, Callable b m ∧ Freeable m.proc.pgdir m ∧ m.freelist.length = k := by
  have hstart := Accounting.booted_start
  have hframes : FramesOk Accounting.booted.m := by
    have hentry : ∀ d v, entry Accounting.booted.m.dirs d v = 0 := fun _ _ => rfl
    have habsent : flagOn (0 : Pte) pteP = false ∧ flagOn (0 : Pte) ptePG = false := by decide
    refine ⟨by decide, hstart.nodup, fun f hf => (hstart.free f).1 hf, fun _ _ => rfl,
      fun f o ho => ?_, fun d v _ hp => ?_, fun d v _ _ hg => ?_, fun d v _ ht => ?_⟩
    · cases ho
    · rw [hentry, habsent.1] at hp
      cases hp
    · rw [hentry, habsent.2] at hg
      cases hg
    · cases ht
  obtain ⟨d, m, hsetup, -⟩ := Accounting.booted_setupkvm .SCFIFO
  have hbal := (Accounting.setupkvm_balanced hstart.layout hstart.sound.balanced hsetup).resolve_right
    fun hc => by cases hc.1
  obtain ⟨d', hd', hbal⟩ := hbal
  cases hd'
  obtain ⟨rest, hf, hx, hzero⟩ := setupkvm_ok .SCFIFO hstart.layout hsetup
  obtain ⟨hempty, hdir⟩ := hframes.emptyDir hf
  have hframes' : FramesOk m := by
    refine hempty.extends hx hdir (fun v hv hp => ?_) fun v hv _ hg => ?_
    · rw [hzero v hv] at hp
      exact absurd hp (by decide)
    · rw [hzero v hv] at hg
      exact absurd hg (by decide)
  have hproc : m.proc = Accounting.booted.m.proc := by rw [hx.same]; rfl
  have hdata : m.kdata = Accounting.booted.m.kdata := by rw [hx.same]; rfl
  have hcall : Callable ⟨insert d ∅, ∅, none⟩ (m.setProc { m.proc with pgdir := d, pid := 3 }) := by
    refine ⟨?_, hbal, rfl, hframes'.congr rfl rfl rfl rfl, Finset.mem_insert_self d ∅, fun i hi => ?_⟩
    · show 0x100 < m.kdata ∧ m.kdata < phystopFrame
      rw [hdata]
      exact hstart.layout
    · replace hi : (m.proc.ramMonitor i).used = true := hi
      rw [hproc] at hi
      cases hi
  have hlen : m.freelist.length = k + (m.freelist.length - k) := by
    have hall := (setupkvm_frames .SCFIFO hstart.layout hsetup).1
    have hmany : Accounting.booted.m.freelist.length = phystopFrame - 0x115 := List.length_range'
    have hbig : 0x115 + 65 + 1000 ≤ phystopFrame := by decide
    omega
  obtain ⟨htabled, hvalid⟩ := tabled_of_setupkvm hstart.layout hframes hsetup
  have hfree : Freeable d (m.setProc { m.proc with pgdir := d, pid := 3 }) :=
    (Freeable.of_tabled hframes' htabled hvalid).congr rfl rfl
  exact hcall.leave hfree (m.freelist.length - k) k hlen

/-- A file that is not a program. -/
theorem exec_failure_iff_empty : ∃ b m, Callable b m ∧
    m.execFrom .plenty .SCFIFO ⟨[], 0, 0, 0, 0, false⟩ [0x61] (some ⟨0, fun _ => 0⟩) [] =
      .ok (false, ⟨[], 0, 0, 0, 0, false⟩, m) ∧
    Intact ⟨[], 0, 0, 0, 0, false⟩ ⟨[], 0, 0, 0, 0, false⟩ m m := by
  obtain ⟨b, m, h, -, -⟩ := booted_callable 100 (by decide)
  have hrun : m.execFrom .plenty .SCFIFO ⟨[], 0, 0, 0, 0, false⟩ [0x61] (some ⟨0, fun _ => 0⟩) [] =
      .ok (false, ⟨[], 0, 0, 0, 0, false⟩, m) := rfl
  refine ⟨b, m, h, hrun, (exec_failure_iff h (fun f hf => ?_) hrun).2 fun f hf helf => ?_⟩
  · cases hf
    show pagesOf 0 + 2 ≤ 16
    decide
  · cases hf
    exact absurd helf (by decide)

/-- With 66 frames left the first page of the image gets the last one, and no page table: the call fails,
and the frame is neither free nor mapped. -/
theorem exec_loses_frame : ∃ b m m' f, Callable b m ∧ m.freelist.length = 66 ∧
    SmallImage emptyProgram (emptyProgram.u16 44) (emptyProgram.u32 28) 0 ∧
    m.execFrom .plenty .SCFIFO ⟨[], 0, 0, 0, 0, false⟩ [0x61] (some emptyProgram) [] =
      .ok (false, ⟨[], 0, 0, 0, 0, false⟩, m') ∧
    f ∈ m.freelist ∧ f ∉ m'.freelist ∧
    ¬ Intact ⟨[], 0, 0, 0, 0, false⟩ ⟨[], 0, 0, 0, 0, false⟩ m m' := by
  obtain ⟨b, m, h₀, -, hlen⟩ := booted_callable 66 (by decide)
  obtain ⟨d, rest₀, hf₀⟩ := List.exists_cons_of_length_eq_add_one hlen
  have hrest₀ : rest₀.length = 65 := by
    rw [hf₀, List.length_cons] at hlen
    omega
  obtain ⟨m₁, hsetup, -⟩ := setupkvm_spec .SCFIFO hf₀ (by omega) h₀.layout
  obtain ⟨d', hmem, hd, ⟨hd', hb⟩ | ⟨hc, -⟩⟩ := (h₀.setupkvm hsetup).resolve_left fun hc => by cases hc.1
  swap
  · cases hc
  cases hd'
  have ht := setupkvm_noTable h₀ hsetup
  obtain ⟨htabled, hvalid⟩ := tabled_of_setupkvm h₀.layout h₀.frames hsetup
  obtain ⟨f, hf⟩ : ∃ f, m₁.freelist = [f] := by
    refine List.length_eq_one_iff.1 ?_
    have := (setupkvm_frames .SCFIFO h₀.layout hsetup).1
    omega
  have habs := hb.above 0 le_rfl (by decide)
  -- the first round gets the frame, the second one nothing
  have hcan : ¬ (HasTable m₁.dirs d 0 ∨ true = true ∧ 2 ≤ m₁.freelist.length) := by
    rintro (hc | hc)
    · exact ht hc
    · rw [hf] at hc
      exact absurd hc.2 (Nat.lt_irrefl 1)
  let m₂ := (m₁.taken f [] d 0).track .SCFIFO d 0
  have hmap : (m₁.taken f [] d 0).mappagesFrom true d (4096 * 0) 4096 f (pteW ||| pteU) =
      .ok (false, m₁.taken f [] d 0) := by
    rw [mappagesFrom_true]
    exact mappages_eq_false (by decide) rfl ht
  have hround : m₁.addRound .plenty .SCFIFO d 0 0 = .ok (some m₂) := by
    rcases addRound_cases (v := 0) (i := 0) .plenty .SCFIFO d (Nat.zero_le _) rfl (by decide) habs with
      ⟨hc, -⟩ | ⟨f', rest, ok, m', -, hf', hmap', hround⟩
    · simp [kallocFrom, Supply.plenty, kalloc, hf] at hc
    · rw [hf] at hf'
      cases hf'
      cases hmap.symm.trans hmap'
      exact hround
  have hb₂ : Building .SCFIFO b d 1 (insert f ∅) m m₂ := by
    rcases hb.round h₀ hd (h₀.balanced.pos hmem) (by decide) hf hmap with ⟨hc, -⟩ | ⟨-, hb₂⟩
    · exact absurd hc hcan
    · exact hb₂
  have hsame₂ : m₂ = (m₁.taken f [] d 0).setProc m₂.proc := track_same _ _ _ _
  have hround' : m₂.addRound .plenty .SCFIFO d 0 1 = .ok none := by
    rcases addRound_cases (v := 1) (i := 1) .plenty .SCFIFO d (Nat.zero_le _) rfl (by decide)
      (hb₂.above 1 le_rfl (by decide)) with ⟨-, hround'⟩ | ⟨f', rest, -, -, -, hf', -⟩
    · exact hround'
    · rw [hsame₂] at hf'
      cases hf'
  have hfreeable : Freeable d m₂ := by
    have hframes : FramesOk (m₁.taken f [] d 0) := (hb.whole rfl).frames.alloc hf rfl rfl rfl rfl
    rw [hsame₂]
    refine Freeable.of_tabled (hframes.congr rfl rfl rfl rfl) (htabled.congr rfl ?_ rfl) hvalid
    rintro g ⟨⟩
  obtain ⟨m₃, hdealloc, hfree₃⟩ := deallocuvm_succeeds .SCFIFO (show 8192 ≤ kernBase by decide)
    (show 0 < 8192 by decide) hfreeable
  obtain ⟨m', hfree⟩ := freevm_succeeds .SCFIFO hfree₃
  have halloc : m₁.allocuvmFrom .plenty .SCFIFO d 0 8192 = .ok (0, m₃) := by
    rw [allocuvmFrom, if_neg (by decide), if_neg (by decide)]
    show allocLoopFrom .plenty .SCFIFO d 0 8192 2 0 m₁ = _
    rw [allocLoopFrom, hround]
    show allocLoopFrom .plenty .SCFIFO d 0 8192 1 1 m₂ = _
    rw [allocLoopFrom, hround']
    show (m₂.deallocuvm .SCFIFO d 8192 0 >>= _) = _
    rw [hdealloc]
    rfl
  have hstack : m₁.stackFrom .plenty .SCFIFO d (pgRoundUp 0) [] = .ok (none, m₃) := by
    show (m₁.allocuvmFrom .plenty .SCFIFO d 0 8192 >>= _) = _
    rw [halloc]
    rfl
  have hsegs : loadSegmentsFrom .plenty .SCFIFO emptyProgram d (emptyProgram.u16 44)
      (emptyProgram.u32 28) 0 m₁ = .ok (some 0, m₁) := rfl
  have hrun : m.execFrom .plenty .SCFIFO ⟨[], 0, 0, 0, 0, false⟩ [0x61] (some emptyProgram) [] =
      .ok (false, ⟨[], 0, 0, 0, 0, false⟩, m') := by
    rw [execFrom, Caller.ilock_eq rfl]
    simp only [bind, Except.bind, hsetup, hsegs, Caller.release_eq, hstack]
    rw [if_neg (by decide)]
    refine (execBad_eq (c := ⟨[], 0, 0, 0, 0, false⟩) rfl (some d) false m₃).trans ?_
    show (m₃.freevm .SCFIFO d).map _ = _
    rw [hfree]
    rfl
  have hb₃ : Building .SCFIFO b d (pagesOf 0) (insert f ∅) m m₃ :=
    hb₂.undo h₀ hmem (by decide) (by decide) (by decide) (by decide) hdealloc
  obtain ⟨hbefore, hafter⟩ := hb₃.gone h₀ hd hmem (by decide) hfree (Finset.mem_insert_self f ∅)
  refine ⟨b, m, m', f, h₀, hlen, ?_, hrun, hbefore, hafter, fun hi => hafter ?_⟩
  · show pagesOf 0 + 2 ≤ 16
    decide
  · exact hi.frames.mem_iff.2 hbefore

end

end Xv6
