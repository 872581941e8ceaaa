import Xv6.HeapSafety

/-!
# Runs of the user allocator

A program calls `malloc`, `pmalloc`, `free`, `protect_page` and `pfree` and writes to the memory it has
been given (`Alloc.step`).  Next to the heap the runs keep what the program knows: the pointers it holds
and how it got them, and those that came from `pmalloc` so far.

A write to a protected page kills the process.  The runs go on instead, so they cover more than a
process can do.
-/

namespace Xv6

/-- How a pointer was obtained. -/
inductive Kind
  | malloc
  | pmalloc
deriving DecidableEq, Repr

/-- A pointer the program holds, and the bytes it asked for. -/
structure Live where
  ptr : ℕ
  bytes : ℕ
  kind : Kind
deriving DecidableEq, Repr

/-- The block of a pointer: its header and the bytes, rounded up. -/
def Live.block (l : Live) : Block := ⟨l.ptr - 8, Heap.nunits l.bytes⟩

structure Alloc where
  heap : Heap
  live : List Live
  /-- What `pmalloc` has returned so far. -/
  paged : List ℕ

inductive Request
  | malloc (nbytes : ℕ) (grant : ℕ → Option ℕ)
  | pmalloc (grant : ℕ → Option ℕ)
  | free (ap : ℕ)
  | protectPage (ap : ℕ)
  | pfree (ap : ℕ)
  | write (mem : ℕ → Header)

namespace Alloc

open Heap

/-- The pointer returned by an allocation. -/
def give (s : Alloc) (h : Heap) (r : Option ℕ) (bytes : ℕ) (kind : Kind) : Alloc :=
  match r with
  | none => { s with heap := h }
  | some ap =>
    { heap := h
      live := ⟨ap, bytes, kind⟩ :: s.live
      paged := if kind = .pmalloc then ap :: s.paged else s.paged }

def drop (s : Alloc) (h : Heap) (ap : ℕ) : Alloc :=
  { s with heap := h, live := s.live.eraseP (·.ptr = ap) }

def step (s : Alloc) : Request → Except Halt Alloc
  | .malloc nbytes grant => do
    let (r, h) ← s.heap.malloc grant nbytes
    return s.give h r nbytes .malloc
  | .pmalloc grant => do
    let (r, h) ← s.heap.pmalloc grant
    return s.give h r 4096 .pmalloc
  | .free ap => do
    let h ← s.heap.free ap
    return s.drop h ap
  | .protectPage ap => return { s with heap := (s.heap.protectPage ap).2 }
  | .pfree ap => do
    let (r, h) ← s.heap.pfree ap
    return if r = 1 then s.drop h ap else { s with heap := h }
  | .write mem => return { s with heap := { s.heap with mem := mem } }

/-- Only pointers in hand are freed, sizes are below `2 ^ 30`, and the program writes to the bytes it
has asked for and to no other. -/
def Legal (s : Alloc) : Request → Prop
  | .malloc nbytes _ => nbytes < 2 ^ 30
  | .free ap => ∃ l ∈ s.live, l.ptr = ap
  | .pfree ap => ∃ l ∈ s.live, l.ptr = ap
  | .write mem =>
    ∀ x, (∀ l ∈ s.live, x + 8 ≤ l.ptr ∨ l.ptr + l.bytes ≤ x) → mem x = s.heap.mem x
  | .pmalloc _ => True
  | .protectPage _ => True

/-- A program that has not allocated yet. -/
structure Fresh (s : Alloc) : Prop where
  freep : s.heap.freep = 0
  live : s.live = []
  paged : s.paged = []
  regions : s.heap.regions = []
  base : 0 < s.heap.base
  low : s.heap.base + 8 ≤ s.heap.brk
  unmarked : ∀ v, s.heap.pte1 v = false

/-- What the block found by a search has beyond a multiple of 512 units. -/
def excess : Except Halt (Option ℕ × Heap) → ℕ
  | .ok (some prevp, h) => h.size (h.ptr prevp) % 512
  | _ => 0

def loss (s : Alloc) : Request → ℕ
  | .pmalloc grant => excess (s.heap.search grant 1024 (nunits 4096))
  | _ => 0

/-- The invariant of the runs.  Of the units obtained `lost` are neither free nor in use. -/
structure Inv (s : Alloc) (ps : List ℕ) (lost : ℕ) : Prop where
  base : 0 < s.heap.base
  fresh : s.heap.freep = 0 → s.live = [] ∧ s.heap.regions = []
  ok : HeapOk s.heap.init ps (s.live.map Live.block)
  kept : s.heap.init.units ps + (s.live.map fun l => nunits l.bytes).sum + lost = s.heap.init.obtained
  marked : ∀ v, s.heap.pte1 v = true ↔ v ∈ s.paged.map (· / 4096)
  below : ∀ v ∈ s.paged.map (· / 4096), v < pagesOf s.heap.brk
  ofPmalloc : ∀ l ∈ s.live, l.kind = .pmalloc → l.bytes = 4096 ∧ l.ptr ∈ s.paged

section

variable {s s' : Alloc} {ps : List ℕ} {lost : ℕ} {h : Heap} {l : Live} {ap : ℕ}

theorem Fresh.inv (hf : Fresh s) : Inv s [s.heap.base] 0 where
  base := hf.base
  fresh _ := ⟨hf.live, hf.regions⟩
  ok := by
    rw [hf.live]
    exact init_ok hf.freep hf.low hf.regions
  kept := by
    have hok := init_ok hf.freep hf.low hf.regions
    have hreg : s.heap.init.regions = [] := by
      rw [Heap.init, if_pos hf.freep]
      exact hf.regions
    have hbase : s.heap.init.base = s.heap.base := by
      rw [Heap.init, if_pos hf.freep]
      rfl
    have hsize := hok.baseSize
    rw [hbase] at hsize
    simp [hf.live, Heap.units, obtained, hreg, hsize]
  marked v := by simp [hf.paged, hf.unmarked]
  below v hv := by simp [hf.paged] at hv
  ofPmalloc l hl := by simp [hf.live] at hl

/-! ### What the calls keep -/

section

variable (hi : Inv s ps lost)

include hi

theorem Inv.freep_ne (hl : l ∈ s.live) : s.heap.freep ≠ 0 := by
  intro hf
  rw [(hi.fresh hf).1] at hl
  cases hl

theorem Inv.heapOk (hf : s.heap.freep ≠ 0) : HeapOk s.heap ps (s.live.map Live.block) := by
  have hok := hi.ok
  rwa [init_of_freep hf] at hok

theorem Inv.kept_of_freep (hf : s.heap.freep ≠ 0) :
    s.heap.units ps + (s.live.map fun l => nunits l.bytes).sum + lost = s.heap.obtained := by
  have hkept := hi.kept
  rwa [init_of_freep hf] at hkept

theorem Inv.searched {ps' : List ℕ} {enough : ℕ} {r : Option ℕ}
    (hf : Found s.heap.init h ps ps' (s.live.map Live.block) enough r) :
    Inv { s with heap := h } ps' lost ∧ h.freep ≠ 0 := by
  have hsame := init_same s.heap
  have hbase : 0 < h.base := by
    rw [hf.grows.base, hsame.base]
    exact hi.base
  have hfreep := hf.ok.freep_pos hbase
  have hinit : h.init = h := init_of_freep hfreep
  refine ⟨⟨hbase, fun hc => absurd hc hfreep, ?_, ?_, fun v => ?_, fun v hv => ?_, hi.ofPmalloc⟩, hfreep⟩
  · rw [hinit]
    exact hf.ok
  · rw [hinit]
    have hkept := hi.kept
    have hgain := hf.kept
    dsimp only
    omega
  · by_cases hv : v < pagesOf s.heap.brk
    · rw [hf.grows.pte1 v (hsame.brk.symm ▸ hv), hsame.pte1]
      exact hi.marked v
    · -- a page above the old break has no mark
      have hnot : v ∉ s.paged.map (· / 4096) := fun hc => hv (hi.below v hc)
      have hold : s.heap.init.pte1 v = false := by
        rw [hsame.pte1]
        exact Bool.eq_false_iff.2 fun hc => hnot ((hi.marked v).1 hc)
      simp only [hf.grows.unmarked v hold, Bool.false_eq_true, false_iff]
      exact hnot
  · refine lt_of_lt_of_le (hi.below v hv) ?_
    have hbrk := hf.grows.brk
    rw [hsame.brk] at hbrk
    show pagesOf s.heap.brk ≤ pagesOf h.brk
    unfold pagesOf
    omega

theorem Inv.give (hfreep : s.heap.freep ≠ 0) {ps' : List ℕ} {p bytes d : ℕ}
    {kind : Kind} (hok : HeapOk h ps' (⟨p, nunits bytes⟩ :: s.live.map Live.block))
    (hsum : h.units ps' + nunits bytes + d = s.heap.units ps)
    (hbase : h.base = s.heap.base) (hbrk : h.brk = s.heap.brk) (hreg : h.regions = s.heap.regions)
    (hmark : ∀ v, h.pte1 v = true ↔ s.heap.pte1 v = true ∨ kind = .pmalloc ∧ v = (p + 8) / 4096)
    (hbytes : kind = .pmalloc → bytes = 4096) :
    Inv (s.give h (some (p + 8)) bytes kind) ps' (lost + d) := by
  have hpos : 0 < h.base := hbase.symm ▸ hi.base
  have hinit : h.init = h := init_of_freep (hok.freep_pos hpos)
  have hpaged : ∀ v, v ∈ (s.give h (some (p + 8)) bytes kind).paged.map (· / 4096) ↔
      v ∈ s.paged.map (· / 4096) ∨ kind = .pmalloc ∧ v = (p + 8) / 4096 := by
    intro v
    cases kind with
    | malloc => simp [Alloc.give]
    | pmalloc =>
      simp only [Alloc.give, if_true, List.map_cons, List.mem_cons, true_and]
      exact or_comm
  refine ⟨hpos, fun hc => absurd hc (hok.freep_pos hpos), ?_, ?_, fun v => ?_, fun v hv => ?_,
    fun l hl hkind => ?_⟩
  · show HeapOk h.init ps' (Live.block ⟨p + 8, bytes, kind⟩ :: s.live.map Live.block)
    rw [hinit]
    exact hok
  · have hkept := hi.kept_of_freep hfreep
    have hobt : h.obtained = s.heap.obtained := by rw [obtained, obtained, hreg]
    show h.init.units ps' + (nunits bytes + (s.live.map fun l => nunits l.bytes).sum) + (lost + d) =
      h.init.obtained
    rw [hinit]
    omega
  · rw [hpaged, ← hi.marked]
    exact hmark v
  · show v < pagesOf h.brk
    rw [hbrk]
    rcases (hpaged v).1 hv with hv | ⟨hkind, rfl⟩
    · exact hi.below v hv
    · have hle := hok.inUse_stop_le List.mem_cons_self
      change p + 8 * nunits bytes ≤ h.brk at hle
      rw [hbytes hkind] at hle
      unfold nunits at hle
      unfold pagesOf
      omega
  · rcases List.mem_cons.1 hl with rfl | hl
    · refine ⟨hbytes hkind, ?_⟩
      change kind = .pmalloc at hkind
      show p + 8 ∈ if kind = .pmalloc then (p + 8) :: s.paged else s.paged
      rw [if_pos hkind]
      exact List.mem_cons_self
    · obtain ⟨h4096, hmem⟩ := hi.ofPmalloc l hl hkind
      refine ⟨h4096, ?_⟩
      show l.ptr ∈ if kind = .pmalloc then (p + 8) :: s.paged else s.paged
      split_ifs
      · exact List.mem_cons_of_mem _ hmem
      · exact hmem

theorem Inv.free (hl : l ∈ s.live) : ∃ h ps', s.heap.free l.ptr = .ok h ∧ Inv (s.drop h l.ptr) ps' lost := by
  have hfreep := hi.freep_ne hl
  obtain ⟨l', L, R, -, hptr, hlive, hdrop⟩ :=
    List.exists_of_eraseP (p := fun c : Live => decide (c.ptr = l.ptr)) hl (decide_eq_true rfl)
  have hptr : l'.ptr = l.ptr := of_decide_eq_true hptr
  have hperm : s.live.Perm (l' :: (L ++ R)) := hlive ▸ List.perm_middle
  have hok := (hi.heapOk hfreep).perm (hperm.map Live.block)
  obtain ⟨h, ps', hfree, hok', hsum, -, hsame, -⟩ := hok.free
  have hlow := (hok.inUse l'.block List.mem_cons_self).2.1
  have haddr : l'.block.addr = l'.ptr - 8 := rfl
  have hpos : 0 < h.base := hsame.base.symm ▸ hi.base
  have hinit : h.init = h := init_of_freep (hok'.freep_pos hpos)
  refine ⟨h, ps', ?_, hpos, fun hc => absurd hc (hok'.freep_pos hpos), ?_, ?_, fun v => ?_, fun v hv => ?_,
    fun c hc => hi.ofPmalloc c (List.mem_of_mem_eraseP hc)⟩
  · rwa [show l'.block.addr + 8 = l.ptr by omega] at hfree
  · show HeapOk h.init ps' ((s.live.eraseP fun c => decide (c.ptr = l.ptr)).map Live.block)
    rw [hinit, hdrop]
    exact hok'
  · have hkept := hi.kept_of_freep hfreep
    rw [(hperm.map fun l => nunits l.bytes).sum_eq, List.map_cons, List.sum_cons] at hkept
    have hobt : h.obtained = s.heap.obtained := by rw [obtained, obtained, hsame.regions]
    have hunits : l'.block.units = nunits l'.bytes := rfl
    show h.init.units ps' +
      ((s.live.eraseP fun c => decide (c.ptr = l.ptr)).map fun l => nunits l.bytes).sum + lost =
        h.init.obtained
    rw [hinit, hdrop]
    omega
  · show h.pte1 v = true ↔ _
    rw [hsame.pte1]
    exact hi.marked v
  · show v < pagesOf h.brk
    rw [hsame.brk]
    exact hi.below v hv

theorem Inv.flags (pteW : ℕ → Bool) (k : Int) :
    Inv { s with heap := { s.heap with pteW := pteW, protectedPages := k } } ps lost where
  base := hi.base
  fresh := hi.fresh
  ok := by
    rw [init_flags]
    exact hi.ok.flags _ _ _
  kept := by
    rw [init_flags]
    exact hi.kept
  marked := hi.marked
  below := hi.below
  ofPmalloc := hi.ofPmalloc

theorem Inv.write {mem : ℕ → Header} (hl : s.Legal (.write mem)) :
    Inv { s with heap := { s.heap with mem := mem } } ps lost := by
  by_cases hfreep : s.heap.freep = 0
  · -- before the first allocation there is nothing to write to
    have hmem : mem = s.heap.mem := funext fun x => hl x fun l hlive => by
      rw [(hi.fresh hfreep).1] at hlive
      cases hlive
    rw [hmem]
    exact hi
  · have hok := hi.heapOk hfreep
    have hwrite := hok.write fun x hx => hl x fun l hlive => by
      have hlow := (hok.inUse l.block (List.mem_map_of_mem hlive)).2.1
      have haddr : l.block.addr = l.ptr - 8 := rfl
      have hstop : l.block.stop = l.ptr - 8 + 8 * nunits l.bytes := rfl
      have hbytes : l.bytes + 8 ≤ 8 * nunits l.bytes := by
        unfold nunits
        omega
      rcases hx l.block (List.mem_map_of_mem hlive) with hle | hle
      · left
        omega
      · right
        omega
    have hinit : Heap.init { s.heap with mem := mem } = { s.heap with mem := mem } :=
      init_of_freep hfreep
    refine ⟨hi.base, hi.fresh, ?_, ?_, hi.marked, hi.below, hi.ofPmalloc⟩
    · show HeapOk (Heap.init { s.heap with mem := mem }) ps _
      rw [hinit]
      exact hwrite.1
    · show Heap.units (Heap.init { s.heap with mem := mem }) ps + _ + lost =
        obtained (Heap.init { s.heap with mem := mem })
      rw [hinit]
      rw [hwrite.2]
      exact hi.kept_of_freep hfreep

theorem Inv.malloc (grant : ℕ → Option ℕ) (nbytes : ℕ) :
    ∃ s' ps', s.step (.malloc nbytes grant) = .ok s' ∧ Inv s' ps' lost := by
  obtain ⟨r, h, ps₁, hsearch, hfound⟩ := hi.ok.search grant (Or.inl (le_refl (nunits nbytes)))
  obtain ⟨hi₁, hfreep⟩ := hi.searched hfound
  cases r with
  | none =>
    refine ⟨{ s with heap := h }, ps₁, ?_, hi₁⟩
    show (s.heap.malloc grant nbytes >>= _) = _
    rw [Heap.malloc, hsearch]
    rfl
  | some prevp =>
    obtain ⟨hmem, hle⟩ := hfound.fits prevp rfl
    have hpos : 0 < nunits nbytes := Nat.succ_pos _
    obtain ⟨ps', hok, hsum, hsame⟩ := hfound.ok.take hmem hpos hle
    refine ⟨s.give (h.take prevp (nunits nbytes)).2 (some ((h.take prevp (nunits nbytes)).1 + 8)) nbytes
      .malloc, ps', ?_, ?_⟩
    · show (s.heap.malloc grant nbytes >>= _) = _
      rw [Heap.malloc, hsearch]
      rfl
    · refine Inv.give (d := 0) hi₁ hfreep hok hsum hsame.base hsame.brk hsame.regions (fun v => ?_)
        fun hc => by cases hc
      rw [hsame.pte1]
      simp

theorem Inv.pmalloc (grant : ℕ → Option ℕ) :
    ∃ s' ps', s.step (.pmalloc grant) = .ok s' ∧ Inv s' ps' (lost + s.loss (.pmalloc grant)) := by
  obtain ⟨r, h, ps₁, hsearch, hfound⟩ :=
    hi.ok.search grant (show 1024 ≤ nunits 4096 ∨ 1024 ≤ 4096 from Or.inr (by decide))
  obtain ⟨hi₁, hfreep⟩ := hi.searched hfound
  rw [loss, hsearch]
  cases r with
  | none =>
    refine ⟨{ s with heap := h }, ps₁, ?_, hi₁⟩
    show (s.heap.pmalloc grant >>= _) = _
    rw [Heap.pmalloc, hsearch]
    rfl
  | some prevp =>
    obtain ⟨hmem, hle⟩ := hfound.fits prevp rfl
    obtain ⟨hok, hsum, -⟩ := hfound.ok.carve hmem hle
    refine ⟨s.give (h.carve prevp).2 (some ((h.carve prevp).1 + 8)) 4096 .pmalloc, ps₁, ?_, ?_⟩
    · show (s.heap.pmalloc grant >>= _) = _
      rw [Heap.pmalloc, hsearch]
      rfl
    · refine hi₁.give hfreep hok hsum rfl rfl rfl (fun v => ?_) fun _ => rfl
      show Function.update h.pte1 (((h.carve prevp).1 + 8) / 4096) true v = true ↔ _
      by_cases hv : v = ((h.carve prevp).1 + 8) / 4096
      · simp [hv]
      · simp [hv]

theorem Inv.pfree (hl : l ∈ s.live) : ∃ s' ps', s.step (.pfree l.ptr) = .ok s' ∧ Inv s' ps' lost := by
  show ∃ s' ps', (s.heap.pfree l.ptr >>= _) = Except.ok s' ∧ _
  unfold Heap.pfree
  split_ifs
  · exact ⟨s, ps, rfl, hi⟩
  · exact ⟨s, ps, rfl, hi⟩
  · exact ⟨s, ps, rfl, hi⟩
  · obtain ⟨h, ps', hfree, hi'⟩ := (hi.flags _ (s.heap.protectedPages - 1)).free hl
    refine ⟨s.drop h l.ptr, ps', ?_, hi'⟩
    show ((((s.heap.turnPteW l.ptr true).updateProtectedPages false).free l.ptr >>= _) >>= _) = _
    rw [show ((s.heap.turnPteW l.ptr true).updateProtectedPages false).free l.ptr = .ok h from hfree]
    rfl

theorem Inv.protectPage (ap : ℕ) : Inv { s with heap := (s.heap.protectPage ap).2 } ps lost := by
  unfold Heap.protectPage
  split_ifs
  · exact hi
  · exact hi
  · exact hi.flags _ _

theorem Inv.step {r : Request} (hl : s.Legal r) :
    ∃ s' ps', s.step r = .ok s' ∧ Inv s' ps' (lost + s.loss r) := by
  cases r with
  | malloc nbytes grant => exact hi.malloc grant nbytes
  | pmalloc grant => exact hi.pmalloc grant
  | free ap =>
    obtain ⟨l, hlive, rfl⟩ := hl
    obtain ⟨h, ps', hfree, hi'⟩ := hi.free hlive
    refine ⟨s.drop h l.ptr, ps', ?_, hi'⟩
    show (s.heap.free l.ptr >>= _) = _
    rw [hfree]
    rfl
  | protectPage ap => exact ⟨_, ps, rfl, hi.protectPage ap⟩
  | pfree ap =>
    obtain ⟨l, hlive, rfl⟩ := hl
    exact hi.pfree hlive
  | write mem => exact ⟨_, ps, rfl, hi.write hl⟩

end

theorem Fresh.run (hf : Fresh s) {rs : List Request} (hlegal : Run.Admits step Legal rs s) :
    ∃ s' ps lost, Run.run step rs s = .ok s' ∧ Inv s' ps lost ∧
      (lost = 0 ↔ Run.Admits step (fun s r => s.loss r = 0) rs s) := by
  have hstep : ∀ s n r, (∃ ps, Inv s ps n) → s.Legal r →
      ∃ s', s.step r = .ok s' ∧ ∃ ps, Inv s' ps (n + s.loss r) := by
    rintro s n r ⟨ps, hi⟩ hl
    obtain ⟨s', ps', hs', hi'⟩ := hi.step hl
    exact ⟨s', hs', ps', hi'⟩
  obtain ⟨s', lost, hrun, ⟨ps, hi⟩, hlost⟩ :=
    Run.total_cost (fun s n => ∃ ps, Inv s ps n) loss hstep ⟨_, hf.inv⟩ hlegal
  rw [Nat.zero_add] at hi
  exact ⟨s', ps, lost, hrun, hi, hlost⟩

/-! ### Safety -/

/-- The free list and the memory in the program's hands, byte by byte. -/
structure Safe (s : Alloc) (ps : List ℕ) : Prop where
  list : FreeBlocks s.heap ps
  live : s.live.Pairwise fun l c => l.ptr + l.bytes ≤ c.ptr - 8 ∨ c.ptr + c.bytes ≤ l.ptr - 8
  free : ∀ l ∈ s.live, ∀ x ∈ ps, l.ptr + l.bytes ≤ x ∨ x + 8 * s.heap.size x ≤ l.ptr - 8
  owned : ∀ l ∈ s.live, 8 ≤ l.ptr ∧ ∀ x, l.ptr - 8 ≤ x → x < l.ptr + l.bytes → s.heap.Owned x

theorem bytes_le (l : Live) : l.bytes + 8 ≤ 8 * nunits l.bytes := by
  unfold nunits
  omega

theorem Inv.safe (hi : Inv s ps lost) : ∃ ps', Safe s ps' := by
  by_cases hfreep : s.heap.freep = 0
  · have hlive := (hi.fresh hfreep).1
    refine ⟨[], ?_, ?_, fun l hl => ?_, fun l hl => ?_⟩
    · rw [FreeBlocks, if_pos hfreep]
    · rw [hlive]
      exact List.Pairwise.nil
    · simp [hlive] at hl
    · simp [hlive] at hl
  · have hok := hi.heapOk hfreep
    have hstop : ∀ l : Live, l.block.stop = l.ptr - 8 + 8 * nunits l.bytes := fun _ => rfl
    have hblock : ∀ {l}, l ∈ s.live → 16 ≤ l.ptr ∧ s.heap.base + 8 ≤ l.ptr - 8 := by
      intro l hl
      have hlow := (hok.inUse l.block (List.mem_map_of_mem hl)).2.1
      change s.heap.base + 8 ≤ l.ptr - 8 at hlow
      have := hi.base
      omega
    refine ⟨ps, ?_, ?_, fun l hl x hx => ?_, fun l hl => ⟨?_, fun x hlo hhi => ?_⟩⟩
    · rw [FreeBlocks, if_neg hfreep]
      exact hok.toFreeList
    · refine (List.pairwise_map.1 hok.disjoint).imp_of_mem fun {l c} hl hc hlc => ?_
      have h₁ := hblock hl
      have h₂ := hblock hc
      have hb₁ := bytes_le l
      have hb₂ := bytes_le c
      rcases hlc with hle | hle
      · left
        change l.ptr - 8 + 8 * nunits l.bytes ≤ c.ptr - 8 at hle
        omega
      · right
        change c.ptr - 8 + 8 * nunits c.bytes ≤ l.ptr - 8 at hle
        omega
    · have hl' := hblock hl
      have hb := bytes_le l
      by_cases hxb : x = s.heap.base
      · right
        rw [hxb, hok.baseSize]
        omega
      · rcases hok.apart l.block (List.mem_map_of_mem hl) x hx hxb with hle | hle
        · left
          change l.ptr - 8 + 8 * nunits l.bytes ≤ x at hle
          omega
        · exact Or.inr hle
    · have := hblock hl
      omega
    · have hl' := hblock hl
      have hb := bytes_le l
      have howned := (hok.inUse l.block (List.mem_map_of_mem hl)).2.2 (x - (l.ptr - 8)) (by
        show x - (l.ptr - 8) < 8 * nunits l.bytes
        omega)
      change s.heap.Owned (l.ptr - 8 + (x - (l.ptr - 8))) at howned
      rwa [Nat.add_sub_cancel' hlo] at howned

/-- Every legal run of a program returns from every call, with the free list sorted and everything in
hand disjoint from it, from each other, and inside the memory obtained. -/
theorem allocator_safe (s : Alloc) (hf : s.Fresh) (rs : List Request)
    (hlegal : Run.Admits step Legal rs s) : ∃ s', Run.run step rs s = .ok s' ∧ ∃ ps, Safe s' ps := by
  obtain ⟨s', ps, lost, hrun, hi, -⟩ := hf.run hlegal
  exact ⟨s', hrun, hi.safe⟩

/-- A program with its data below the first page boundary and the break there. -/
def sampleAlloc : Alloc :=
  { heap :=
      { mem := fun _ => ⟨0, 0⟩, base := 8, freep := 0, brk := 4096, regions := [],
        pte1 := fun _ => false, pteW := fun _ => true, protectedPages := 0 }
    live := []
    paged := [] }

theorem sampleAlloc_fresh : sampleAlloc.Fresh :=
  ⟨rfl, rfl, rfl, rfl, by decide, by decide, fun _ => rfl⟩

/-- `sbrk` granted at the old break. -/
def granted : ℕ → Option ℕ := fun _ => some 0

def legal (s : Alloc) : Request → Bool
  | .malloc nbytes _ => nbytes < 2 ^ 30
  | .free ap => s.live.any (·.ptr = ap)
  | .pfree ap => s.live.any (·.ptr = ap)
  | .pmalloc _ => true
  | .protectPage _ => true
  | .write _ => false

theorem legal_sound (s : Alloc) (r : Request) (h : s.legal r = true) : s.Legal r := by
  cases r with
  | malloc nbytes grant =>
    show nbytes < 2 ^ 30
    exact of_decide_eq_true h
  | free ap =>
    obtain ⟨l, hl, hptr⟩ := List.any_eq_true.1 h
    exact ⟨l, hl, of_decide_eq_true hptr⟩
  | pfree ap =>
    obtain ⟨l, hl, hptr⟩ := List.any_eq_true.1 h
    exact ⟨l, hl, of_decide_eq_true hptr⟩
  | pmalloc grant => trivial
  | protectPage ap => trivial
  | write mem => cases h

/-- A program that allocates, frees in the middle and protects a page. -/
def sampleRequests : List Request :=
  [.malloc 100 granted, .malloc 24 granted, .pmalloc granted, .free 36760, .protectPage 28672,
    .pfree 28672, .malloc 40000 granted]

theorem allocator_safe_sample :
    Run.Admits step Legal sampleRequests sampleAlloc ∧
      ∃ s', Run.run step sampleRequests sampleAlloc = .ok s' ∧ ∃ ps, Safe s' ps := by
  have hlegal : Run.Admits step Legal sampleRequests sampleAlloc :=
    .of_passes legal_sound (by decide +kernel)
  exact ⟨hlegal, allocator_safe sampleAlloc sampleAlloc_fresh sampleRequests hlegal⟩

/-! ### Conservation -/

/-- The units on the free list and in the headers of the blocks in use are all there are. -/
def Conserved (s : Alloc) : Prop :=
  ∃ ps, FreeBlocks s.heap ps ∧
    s.heap.units ps + (s.live.map fun l => s.heap.size (l.ptr - 8)).sum = s.heap.obtained

theorem Inv.conserved_iff (hi : Inv s ps lost) : Conserved s ↔ lost = 0 := by
  by_cases hfreep : s.heap.freep = 0
  · obtain ⟨hlive, hreg⟩ := hi.fresh hfreep
    have hnone : s.heap.obtained = 0 := by rw [obtained, hreg, List.map_nil, List.sum_nil]
    have hkept := hi.kept
    rw [show s.heap.init.obtained = s.heap.obtained by
      rw [obtained, obtained, (init_same s.heap).regions]] at hkept
    refine iff_of_true ⟨[], ?_, ?_⟩ (by omega)
    · rw [FreeBlocks, if_pos hfreep]
    · rw [hlive, hnone]
      rfl
  · have hok := hi.heapOk hfreep
    have hkept := hi.kept_of_freep hfreep
    have hsizes : (s.live.map fun l => s.heap.size (l.ptr - 8)) = s.live.map fun l => nunits l.bytes :=
      List.map_congr_left fun l hl => hok.header l.block (List.mem_map_of_mem hl)
    unfold Conserved
    rw [hsizes]
    constructor
    · rintro ⟨ps', hlist, hsum⟩
      rw [FreeBlocks, if_neg hfreep] at hlist
      rw [hlist.unique hok.toFreeList] at hsum
      omega
    · rintro rfl
      refine ⟨ps, ?_, hkept⟩
      rw [FreeBlocks, if_neg hfreep]
      exact hok.toFreeList

/-- A legal run has lost nothing just when every block that `pmalloc` carved up had a multiple of 512
units. -/
theorem allocator_conserves (s : Alloc) (hf : s.Fresh) (rs : List Request)
    (hlegal : Run.Admits step Legal rs s) (s' : Alloc) (hrun : Run.run step rs s = .ok s') :
    Conserved s' ↔ Run.Admits step (fun s r => s.loss r = 0) rs s := by
  obtain ⟨s₁, ps, lost, hrun₁, hi, hlost⟩ := hf.run hlegal
  cases hrun.symm.trans hrun₁
  rw [hi.conserved_iff, hlost]

theorem allocator_conserves_sample :
    ∃ s', Run.run step [.malloc 100 granted, .free 36760, .pmalloc granted] sampleAlloc = .ok s' ∧
      Conserved s' := by
  have hlegal : Run.Admits step Legal [.malloc 100 granted, .free 36760, .pmalloc granted] sampleAlloc :=
    .of_passes legal_sound (by decide +kernel)
  have hpasses : Run.passes step (fun s r => decide (s.loss r = 0))
      [.malloc 100 granted, .free 36760, .pmalloc granted] sampleAlloc = true := by decide +kernel
  have hexact : Run.Admits step (fun s r => s.loss r = 0)
      [.malloc 100 granted, .free 36760, .pmalloc granted] sampleAlloc :=
    .of_passes (fun _ _ => of_decide_eq_true) hpasses
  obtain ⟨s', ps, lost, hrun, -⟩ := sampleAlloc_fresh.run hlegal
  exact ⟨s', hrun, (allocator_conserves _ sampleAlloc_fresh _ hlegal s' hrun).2 hexact⟩

/-- The second of two calls of `pmalloc` cuts a block of 3583 units and leaves 511 of them behind. -/
theorem allocator_loses_units :
    ∃ s', Run.Admits step Legal [.pmalloc granted, .pmalloc granted] sampleAlloc ∧
      Run.run step [.pmalloc granted, .pmalloc granted] sampleAlloc = .ok s' ∧ ¬Conserved s' := by
  have hlegal : Run.Admits step Legal [.pmalloc granted, .pmalloc granted] sampleAlloc :=
    .of_passes legal_sound (by decide +kernel)
  obtain ⟨s', ps, lost, hrun, hi, hlost⟩ := sampleAlloc_fresh.run hlegal
  refine ⟨s', hlegal, hrun, fun hc => ?_⟩
  have hexact := hlost.1 (hi.conserved_iff.1 hc)
  have heval : Run.endsIn (fun s => decide (s.loss (.pmalloc granted) = 511))
      (step sampleAlloc (.pmalloc granted)) = true := by decide +kernel
  obtain ⟨s₁, hs₁, htest⟩ := Run.of_endsIn heval
  have hzero : s₁.loss (.pmalloc granted) = 0 := (hexact.2 s₁ hs₁).1
  rw [of_decide_eq_true htest] at hzero
  cases hzero

/-! ### Whole pages -/

/-- `protect_page` and `pfree` accept the pointer just when it came from `pmalloc`, and `pfree` only
when its page is protected; otherwise they change nothing. -/
structure Recognised (h : Heap) (l : Live) : Prop where
  protect : if l.kind = .pmalloc then (h.protectPage l.ptr).1 = 1 else h.protectPage l.ptr = (-1, h)
  release : if l.kind = .pmalloc ∧ h.pteW (l.ptr / 4096) = false then
    ∃ h', h.pfree l.ptr = .ok (1, h') else h.pfree l.ptr = .ok (-1, h)

theorem protectPage_accepts (hmark : h.pte1 (ap / 4096) = true) (hsize : h.size (ap - 8) = 513) :
    (h.protectPage ap).1 = 1 := by
  simp [Heap.protectPage, hmark, hsize]

theorem protectPage_refuses (hn : ¬(h.pte1 (ap / 4096) = true ∧ h.size (ap - 8) = 513)) :
    h.protectPage ap = (-1, h) := by
  unfold Heap.protectPage
  split_ifs with hmark hsize
  · rfl
  · rfl
  · exact absurd ⟨Bool.eq_true_of_not_eq_false hmark, not_not.1 hsize⟩ hn

theorem pfree_refuses (hn : ¬(h.pte1 (ap / 4096) = true ∧ h.pteW (ap / 4096) = false ∧
    h.size (ap - 8) = 513)) : h.pfree ap = .ok (-1, h) := by
  unfold Heap.pfree
  split_ifs with hmark hwritable hsize
  · rfl
  · rfl
  · rfl
  · exact absurd ⟨Bool.eq_true_of_not_eq_false hmark, Bool.eq_false_iff.2 hwritable, not_not.1 hsize⟩ hn

theorem Inv.pfree_accepts (hi : Inv s ps lost) (hl : l ∈ s.live)
    (hmark : s.heap.pte1 (l.ptr / 4096) = true) (hprot : s.heap.pteW (l.ptr / 4096) = false)
    (hsize : s.heap.size (l.ptr - 8) = 513) : ∃ h, s.heap.pfree l.ptr = .ok (1, h) := by
  obtain ⟨h, ps', hfree, -⟩ := (hi.flags _ (s.heap.protectedPages - 1)).free hl
  refine ⟨h, ?_⟩
  unfold Heap.pfree
  rw [if_neg (by simp [hmark]), if_neg (by simp [hprot]), if_neg (not_not.2 hsize)]
  rw [show ((s.heap.turnPteW l.ptr true).updateProtectedPages false).free l.ptr = .ok h from hfree]
  rfl

/-- A pointer in hand is recognised just when it did not come from `malloc` as a block of 513 units on
a page that `pmalloc` has returned at some time. -/
theorem pages_recognised (s : Alloc) (hf : s.Fresh) (rs : List Request)
    (hlegal : Run.Admits step Legal rs s) (s' : Alloc) (hrun : Run.run step rs s = .ok s')
    (l : Live) (hl : l ∈ s'.live) :
    Recognised s'.heap l ↔
      ¬(l.kind = .malloc ∧ nunits l.bytes = 513 ∧ l.ptr / 4096 ∈ s'.paged.map (· / 4096)) := by
  obtain ⟨s₁, ps, lost, hrun₁, hi, -⟩ := hf.run hlegal
  cases hrun.symm.trans hrun₁
  have hok := hi.heapOk (hi.freep_ne hl)
  have hsize : s'.heap.size (l.ptr - 8) = nunits l.bytes := hok.header l.block (List.mem_map_of_mem hl)
  rw [← hi.marked]
  cases hkind : l.kind with
  | malloc =>
    constructor
    · rintro ⟨hprotect, -⟩ ⟨-, h513, hmark⟩
      have hone := protectPage_accepts hmark (hsize.trans h513)
      rw [hkind, if_neg (by decide)] at hprotect
      rw [hprotect] at hone
      cases hone
    · intro hn
      have hnot : ¬(s'.heap.pte1 (l.ptr / 4096) = true ∧ s'.heap.size (l.ptr - 8) = 513) := by
        rintro ⟨hmark, h513⟩
        exact hn ⟨rfl, hsize.symm.trans h513, hmark⟩
      refine ⟨?_, ?_⟩
      · rw [hkind, if_neg (by decide)]
        exact protectPage_refuses hnot
      · rw [hkind, if_neg (by simp)]
        exact pfree_refuses fun hc => hnot ⟨hc.1, hc.2.2⟩
  | pmalloc =>
    obtain ⟨hbytes, hpaged⟩ := hi.ofPmalloc l hl hkind
    have hmark := (hi.marked (l.ptr / 4096)).2 (List.mem_map_of_mem hpaged)
    have h513 : s'.heap.size (l.ptr - 8) = 513 := by rw [hsize, hbytes]; rfl
    refine iff_of_true ⟨?_, ?_⟩ (by simp)
    · rw [if_pos hkind]
      exact protectPage_accepts hmark h513
    · split_ifs with hprot
      · exact hi.pfree_accepts hl hmark hprot.2 h513
      · exact pfree_refuses fun hc => hprot ⟨hkind, hc.2.1⟩

theorem pages_recognised_sample :
    ∃ s', Run.run step [.pmalloc granted] sampleAlloc = .ok s' ∧
      Recognised s'.heap ⟨32768, 4096, .pmalloc⟩ := by
  have hlegal : Run.Admits step Legal [.pmalloc granted] sampleAlloc :=
    .of_passes legal_sound (by decide +kernel)
  have heval : Run.endsIn (fun s => decide (⟨32768, 4096, .pmalloc⟩ ∈ s.live))
      (Run.run step [.pmalloc granted] sampleAlloc) = true := by decide +kernel
  obtain ⟨s', hrun, htest⟩ := Run.of_endsIn heval
  refine ⟨s', hrun, (pages_recognised _ sampleAlloc_fresh _ hlegal s' hrun _
    (of_decide_eq_true htest)).2 ?_⟩
  rintro ⟨hkind, -⟩
  cases hkind

/-- A page released by `pfree` keeps its mark, and `malloc` hands the same block out for 4096 bytes. -/
def recycled : List Request :=
  [.pmalloc granted, .protectPage 32768, .pfree 32768, .malloc 4096 granted]

theorem malloc_recognised_as_page :
    Run.Admits step Legal recycled sampleAlloc ∧
      ∃ s', Run.run step recycled sampleAlloc = .ok s' ∧ ⟨32768, 4096, .malloc⟩ ∈ s'.live ∧
        (s'.heap.protectPage 32768).1 = 1 ∧ ¬Recognised s'.heap ⟨32768, 4096, .malloc⟩ := by
  refine ⟨.of_passes legal_sound (by decide +kernel), ?_⟩
  have heval : Run.endsIn (fun s => decide (⟨32768, 4096, .malloc⟩ ∈ s.live ∧
      (s.heap.protectPage 32768).1 = 1)) (Run.run step recycled sampleAlloc) = true := by
    decide +kernel
  obtain ⟨s', hrun, htest⟩ := Run.of_endsIn heval
  obtain ⟨hlive, hone⟩ := of_decide_eq_true htest
  refine ⟨s', hrun, hlive, hone, fun hrec => ?_⟩
  have hrefused : s'.heap.protectPage 32768 = (-1, s'.heap) := hrec.protect
  rw [hrefused] at hone
  cases hone

end

end Alloc

end Xv6
