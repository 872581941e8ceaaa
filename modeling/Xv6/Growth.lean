import Xv6.AddressSpace
import Xv6.Swapping

/-!
# Growing and shrinking a process

`deallocuvm` drops the resident pages of a range and `allocuvm` adds zero pages, evicting a tracked
page for every page past the sixteenth.  Both keep the paging invariant as long as no dropped page is
paged out, and the slots and the tracked pages suffice for the evictions.
-/

namespace Xv6

open Machine

/-- The pages that are present but not tracked between operations: all of them in a kernel built
without paging, none otherwise. -/
def transit (sel : Selection) : Set ℕ := {_v | sel = .NONE}

theorem mem_transit {sel : Selection} {v : ℕ} : v ∈ transit sel ↔ sel = .NONE := Iff.rfl

/-- The pages from `p` up to `q` gone from a flat memory. -/
def cutFlat (flat : Flat) (p q : ℕ) : Flat := fun v =>
  if p ≤ v ∧ v < q then .absent else flat v

/-- Zero pages added to a flat memory from `p` up to `q`. -/
def growFlat (flat : Flat) (p q : ℕ) : Flat := fun v =>
  if p ≤ v ∧ v < q then .data fun _ => 0 else flat v

/-! ### Dropping pages -/

section

variable {sel : Selection} {m : Machine} {n p : ℕ} {flat : Flat}

theorem untrack_eq {X : Set ℕ} (h : Paged m n X) {i : Fin 16} (hi : (m.proc.ramMonitor i).used)
    (hva : (m.proc.ramMonitor i).pVa = 4096 * p) :
    untrack m.proc m.proc.pgdir (4096 * p) =
      m.proc.setRam i { m.proc.ramMonitor i with used := false } := by
  have hdir := h.ramDir i hi
  simp only [untrack, Proc.setRam]
  congr 1
  funext j
  by_cases hj : j = i
  · subst hj
    simp [hi, hva, hdir]
  · rw [Function.update_of_ne hj, if_neg]
    rintro ⟨hu, ha, -⟩
    exact hj (h.ram.inj hu hi (ha.trans hva.symm))

/-- The state after one round of `deallocuvm` on the resident page `p`. -/
def released (sel : Selection) (m : Machine) (p : ℕ) : Machine :=
  let m' := m.freed (frameOf (m.pte p))
  (if sel = .NONE then m'
    else m'.setProc (untrack m'.proc m.proc.pgdir (4096 * p))).setPte m.proc.pgdir (4096 * p) 0

theorem released_spec (h : Ready sel m n (transit sel) flat) (hp : p < n) (hpres : m.Present p) :
    Ready sel (released sel m p) n (transit sel) (Function.update flat p .absent) ∧
      SameId m (released sel m p) ∧ Move m (released sel m p) p ∧ (released sel m p).Absent p ∧
      m.freelist.length ≤ (released sel m p).freelist.length ∧
      swapCount (released sel m p) = swapCount m := by
  by_cases hsel : sel = .NONE
  · have hrel : released sel m p = m.dropped p := by
      simp only [released, if_pos hsel]
      rfl
    rw [hrel]
    refine ⟨⟨h.toSpace.drop hp hpres (mem_transit.2 hsel) fun _ _ => Iff.rfl, ?_⟩, ⟨rfl, rfl, rfl, rfl⟩,
      h.toPaged.dropped_move hp hpres, h.toPaged.dropped_absent hp, ?_, rfl⟩
    · exact h.queue.dequeue rfl fun i hi => ⟨hi, rfl⟩
    · exact Nat.le_succ _
  · have hx : p ∉ transit sel := fun hc => hsel (mem_transit.1 hc)
    obtain ⟨i, hi, hva⟩ := h.ram.mem_iff.1 (mem_ramPages.2 ⟨hp, hpres, hx⟩)
    have hrel : released sel m p = (m.untracked i).dropped p := by
      have := untrack_eq h.toPaged hi hva
      simp only [released, if_neg hsel]
      rw [show (m.freed (frameOf (m.pte p))).proc = m.proc from rfl, this]
      rfl
    have h₁ := h.toSpace.untrack hi hva
    rw [hrel]
    refine ⟨⟨h₁.drop hp hpres (Set.mem_insert p _) fun w hw => ?_, ?_⟩, ⟨rfl, rfl, rfl, rfl⟩, ?_,
      h₁.toPaged.dropped_absent hp, ?_, rfl⟩
    · simp [hw]
    · refine h.queue.dequeue rfl fun a ha => ?_
      by_cases hai : a = i
      · subst hai
        simp [dropped, freed, untracked, setProc, Proc.setRam] at ha
      · simp only [dropped, freed, untracked, setProc, Proc.setRam,
          Function.update_of_ne hai] at ha ⊢
        exact ⟨ha, trivial⟩
    · have hm := h₁.toPaged.dropped_move hp hpres
      exact ⟨hm.pgdir, hm.table, hm.pte, hm.data, hm.slot⟩
    · exact Nat.le_succ _

theorem Ready.forget (h : Ready sel m n (transit sel) flat) (habs : m.Absent p) :
    Ready sel m n (transit sel) (Function.update flat p .absent) := by
  refine ⟨⟨h.toPaged, fun v hv => ?_⟩, h.queue⟩
  by_cases hvp : v = p
  · subst hvp
    rw [Function.update_self]
    exact habs
  · rw [Function.update_of_ne hvp]
    exact h.page v hv

theorem cutFlat_of_le {q : ℕ} (flat : Flat) (hqp : q ≤ p) : cutFlat flat p q = flat := by
  funext v
  rw [cutFlat, if_neg (by omega)]

theorem cutFlat_update {q : ℕ} (flat : Flat) (hpq : p < q) :
    cutFlat (Function.update flat p .absent) (p + 1) q = cutFlat flat p q := by
  funext v
  by_cases hvp : v = p
  · subst hvp
    rw [cutFlat, cutFlat, if_neg (by omega), if_pos ⟨le_rfl, hpq⟩, Function.update_self]
  · rw [cutFlat, cutFlat, Function.update_of_ne hvp]
    congr 1
    simp only [eq_iff_iff]
    omega

theorem deallocLoop_present {oldsz fuel : ℕ} {X : Set ℕ} (h : Paged m n X) (hp : p < n)
    (hlt : 4096 * p < oldsz) (hpres : m.Present p) :
    deallocLoop sel m.proc.pgdir oldsz (fuel + 1) (4096 * p) m =
      deallocLoop sel m.proc.pgdir oldsz fuel (4096 * (p + 1)) (released sel m p) := by
  have hwalk := h.walkpgdir_eq (lt_of_lt_of_le hp h.size)
  have hvalid : m.kend ≤ frameOf (m.pte p) ∧ frameOf (m.pte p) < phystopFrame :=
    h.frames.frame_valid (h.lt_userPages hp) hpres
  have hpos := h.frames.kend_pos
  have hz : frameOf (m.pte p) ≠ 0 := by omega
  have hp' : flagOn (m.pte p) pteP = true := hpres
  rw [deallocLoop, if_pos hlt, hwalk]
  simp only [hp', if_true, if_neg hz, kfree_eq hvalid, bind, Except.bind]
  rfl

theorem deallocLoop_spec {oldsz : ℕ} (hq : pagesOf oldsz ≤ maxTotalPages) (fuel : ℕ) {m : Machine}
    {p : ℕ} {flat : Flat} (h : Ready sel m n (transit sel) flat)
    (hfuel : pagesOf oldsz ≤ p + fuel)
    (hno : ∀ v, p ≤ v → v < pagesOf oldsz → ¬ m.PagedOut v) :
    ∃ m', deallocLoop sel m.proc.pgdir oldsz fuel (4096 * p) m = .ok m' ∧
      Ready sel m' n (transit sel) (cutFlat flat p (pagesOf oldsz)) ∧ SameId m m' ∧
      m.freelist.length ≤ m'.freelist.length ∧ swapCount m' = swapCount m := by
  induction fuel generalizing m p flat with
  | zero =>
    have hlt : ¬ 4096 * p < oldsz := by
      simp only [pagesOf] at hfuel
      omega
    refine ⟨m, by rw [deallocLoop, if_neg hlt], ?_, SameId.refl m, le_rfl, rfl⟩
    rwa [cutFlat_of_le flat (by omega)]
  | succ fuel ih =>
    by_cases hlt : 4096 * p < oldsz
    · have hpq : p < pagesOf oldsz := by
        simp only [pagesOf]
        omega
      by_cases hpres : m.Present p
      · have hpn : p < n := by
          by_contra hc
          exact hpres.not_absent (h.above p (by omega)
            (lt_of_lt_of_le hpq (hq.trans (by decide))))
        obtain ⟨h₁, hid₁, hmove, habs, hlen₁, hcount₁⟩ := released_spec h hpn hpres
        have hno₁ : ∀ v, p + 1 ≤ v → v < pagesOf oldsz → ¬ (released sel m p).PagedOut v := by
          intro v hpv hv hc
          have hlt : v < 0x100000 := lt_of_lt_of_le hv (hq.trans (by decide))
          exact hno v (by omega) hv ((hmove.pagedOut_iff hlt (by omega)).1 hc)
        obtain ⟨m', hrun, h', hid', hlen', hcount'⟩ := ih h₁ (by omega) hno₁
        rw [hmove.pgdir, ← deallocLoop_present h.toPaged hpn hlt hpres] at hrun
        rw [cutFlat_update flat hpq] at h'
        exact ⟨m', hrun, h', hid₁.trans hid', hlen₁.trans hlen', hcount'.trans hcount₁⟩
      · have habs : m.Absent p := by
          refine ⟨Bool.eq_false_iff.2 hpres, Bool.eq_false_iff.2 fun hg => ?_⟩
          exact hno p le_rfl hpq ⟨Bool.eq_false_iff.2 hpres, hg⟩
        obtain ⟨m', hrun, h', hrest⟩ := ih (h.forget habs) (by omega) (p := p + 1)
          (fun v hpv hv => hno v (by omega) hv)
        rw [cutFlat_update flat hpq] at h'
        have hp' : ¬ flagOn (m.pte p) pteP = true := hpres
        refine ⟨m', ?_, h', hrest⟩
        rw [deallocLoop, if_pos hlt, h.toPaged.walkpgdir_eq (lt_of_lt_of_le hpq hq)]
        simp only [if_neg hp']
        rw [show 4096 * p + 4096 = 4096 * (p + 1) by omega, hrun]
    · have hle : pagesOf oldsz ≤ p := by
        simp only [pagesOf]
        omega
      refine ⟨m, by rw [deallocLoop, if_neg hlt], ?_, SameId.refl m, le_rfl, rfl⟩
      rwa [cutFlat_of_le flat hle]

end

theorem deallocuvm_spec {sel : Selection} {m : Machine} {n oldsz newsz : ℕ} {flat : Flat}
    (h : Ready sel m n (transit sel) flat) (hq : pagesOf oldsz ≤ maxTotalPages)
    (hlt : newsz < oldsz)
    (hno : ∀ v, pagesOf newsz ≤ v → v < pagesOf oldsz → ¬ m.PagedOut v) :
    ∃ m', m.deallocuvm sel m.proc.pgdir oldsz newsz = .ok (newsz, m') ∧
      Ready sel m' n (transit sel) (cutFlat flat (pagesOf newsz) (pagesOf oldsz)) ∧
      SameId m m' ∧ m.freelist.length ≤ m'.freelist.length ∧ swapCount m' = swapCount m := by
  have hfuel : pagesOf oldsz ≤ pagesOf newsz + (oldsz / 4096 + 1) := by
    simp only [pagesOf]
    omega
  have hround : pgRoundUp newsz = 4096 * pagesOf newsz := by
    refine pgRoundUp_eq ?_
    simp only [pagesOf, maxTotalPages, kernBase] at *
    omega
  obtain ⟨m', hrun, hrest⟩ := deallocLoop_spec hq _ h hfuel hno
  refine ⟨m', ?_, hrest⟩
  rw [deallocuvm, if_neg (by omega), hround, hrun]
  rfl

/-! ### Adding pages -/

section

variable {sel : Selection} {m : Machine} {p f : ℕ} {rest : List ℕ} {flat : Flat}

theorem Paged.ramCount_lt {n : ℕ} {X : Set ℕ} (h : Paged m n X) (hn : n < 16) :
    ramCount m < 16 := by
  have hsub : m.ramPages n X ⊆ ((Finset.range n).image (4096 * ·) : Finset ℕ) := by
    rintro a ⟨v, hv, rfl, -⟩
    simp only [Finset.coe_image, Set.mem_image, Finset.coe_range, Set.mem_Iio]
    exact ⟨v, hv, rfl⟩
  have hcard : ((Finset.range n).image (4096 * ·)).card < 16 :=
    lt_of_le_of_lt Finset.card_image_le (by simpa using hn)
  obtain ⟨i, hi⟩ := h.ram.exists_free hsub hcard
  exact SlotTable.usedCount_lt_of_unused hi

/-- The page after the last one, mapped to a zeroed frame. -/
def addPage (m : Machine) (f : ℕ) (rest : List ℕ) (p : ℕ) : Machine :=
  (m.allocated f rest p fun _ => 0).mapped f p

theorem addPage_spec (h : Ready sel m p (transit sel) flat) (hf : m.freelist = f :: rest)
    (hp : p < maxTotalPages) :
    Ready sel (addPage m f rest p) (p + 1) (insert p (transit sel))
        (Function.update flat p (.data fun _ => 0)) ∧
      Move (m.allocated f rest p fun _ => 0) (addPage m f rest p) p ∧
      (addPage m f rest p).Present p := by
  have hview := h.toPaged.allocated_view hf p fun _ => 0
  have h₁ := h.toSpace.congr hview
  have hown := allocated_owner m f rest p fun _ => 0
  refine ⟨⟨h₁.map hown (Function.update_self f _ m.data) hp, ?_⟩, h₁.toPaged.mapped_move hp, ?_⟩
  · exact ⟨h.queue.le, h.queue.pos, h.queue.last⟩
  · rw [Present]
    exact (congrArg (flagOn · pteP) (h₁.toPaged.mapped_pte hp)).trans (mapPte_present _)

theorem mappages_addPage (h : Ready sel m p (transit sel) flat) (hp : p < maxTotalPages) :
    Machine.mappages (m.allocated f rest p fun _ => 0) m.proc.pgdir (4096 * p) 4096 f
      (pteW ||| pteU) = .ok (true, addPage m f rest p) := by
  have hlt : p < 0x100000 := lt_trans hp (by decide)
  refine mappages_page hlt (h.toPaged.hasTable hp) ?_
  exact (h.above p le_rfl (lt_trans hp (by decide))).1

/-- The new page is tracked: in a free entry below the limit, in place of a victim above it. -/
theorem trackPage_spec (h : Ready sel m p (transit sel) flat) (hf : m.freelist = f :: rest)
    (hp : p < maxTotalPages) (hpid : 2 < m.proc.pid)
    (hwrap : sel = .LIFO → m.proc.lastInQueue + 1 ≤ 0x7FFFFFFF)
    (hvictim : sel ≠ .NONE → 16 ≤ p → swapCount m < 16 ∧ 0 < ramCount m) :
    ∃ m', (addPage m f rest p).trackPage sel m.proc.pgdir (4096 * p) (p + 1) = .ok m' ∧
      Ready sel m' (p + 1) (transit sel) (Function.update flat p (.data fun _ => 0)) ∧
      SameId m m' ∧ (sel = .LIFO → m'.proc.lastInQueue = m.proc.lastInQueue + 1) ∧
      (sel = .NONE ∨ p < 16 → m'.freelist = rest ∧ swapCount m' = swapCount m ∧
        (∀ v < p, m'.PagedOut v → m.PagedOut v) ∧ m'.Present p ∧
        (sel ≠ .NONE → ramCount m' = ramCount m + 1)) ∧
      (sel ≠ .NONE → 16 ≤ p → m'.freelist.length = m.freelist.length ∧
        swapCount m' = swapCount m + 1 ∧ ramCount m' = ramCount m) := by
  obtain ⟨h₁, hmove, hpres⟩ := addPage_spec h hf hp
  have hstay : ∀ v < p, (addPage m f rest p).PagedOut v → m.PagedOut v := fun v hv hc =>
    (hmove.pagedOut_iff (h.toPaged.lt_pages hv) (by omega)).1 hc
  have hid₀ : SameId m (addPage m f rest p) := ⟨rfl, rfl, rfl, rfl⟩
  by_cases hsel : sel = .NONE
  · have hset : insert p (transit sel) = transit sel :=
      Set.insert_eq_of_mem (mem_transit.2 hsel)
    rw [hset] at h₁
    refine ⟨addPage m f rest p, ?_, h₁, hid₀, ?_, ?_, fun hc => absurd hsel hc⟩
    · rw [trackPage, if_neg fun hc => hc.2 hsel]
    · intro hl
      rw [hsel] at hl
      cases hl
    · exact fun _ => ⟨rfl, rfl, hstay, hpres, fun hc => absurd hsel hc⟩
  · have hset : insert p (transit sel) \ {p} = transit sel :=
      Set.insert_sdiff_self_of_notMem fun hc => hsel (mem_transit.1 hc)
    by_cases hlt : p < 16
    · obtain ⟨m', hcode, h', hid, hfree, hram, hswap, hpte, hlast⟩ := add2ram_spec h₁
        (Nat.lt_succ_self p) hpres (Set.mem_insert p _) (h.toPaged.ramCount_lt hlt) hwrap
      rw [hset] at h'
      refine ⟨m', ?_, h', hid₀.trans hid, hlast, fun _ => ⟨hfree, hswap, ?_, ?_, fun _ => hram⟩, ?_⟩
      · rw [trackPage, if_pos ⟨hpid, hsel⟩, if_pos (show p + 1 ≤ maxPyscPages from hlt), ← hcode]
        rfl
      · intro v hv hc
        rw [PagedOut, hpte] at hc
        exact hstay v hv hc
      · rw [Present, hpte]
        exact hpres
      · intro _ hc
        omega
    · obtain ⟨hslot, hent⟩ := hvictim hsel (by omega)
      obtain ⟨m', hcode, h', hid, hlen, hram, hswap, hlast⟩ := swap_spec hsel h₁
        (Nat.lt_succ_self p) hpres (Set.mem_insert p _) hent hslot hwrap
      rw [hset] at h'
      refine ⟨m', ?_, h', hid₀.trans hid, hlast, fun hc => ?_, fun _ _ => ⟨?_, hswap, hram⟩⟩
      · rw [trackPage, if_pos ⟨hpid, hsel⟩, if_neg (show ¬ p + 1 ≤ maxPyscPages by
          simp only [maxPyscPages]; omega)]
        exact hcode
      · exact absurd hc (by simp [hsel, hlt])
      · rw [hlen, hf]
        rfl

end

/-! ### `allocuvm` -/

/-- Slots, tracked pages and queue numbers suffice to add the pages from `p` up to `q`: every page
past the sixteenth evicts one. -/
structure CanGrow (sel : Selection) (m : Machine) (p q : ℕ) : Prop where
  slots : sel ≠ .NONE → swapCount m + (q - max p 16) ≤ 16
  victim : sel ≠ .NONE → 16 < q → p < 16 ∨ 0 < ramCount m
  wrap : sel = .LIFO → m.proc.lastInQueue + (q - p : ℕ) ≤ 0x7FFFFFFF

/-- The most frames `allocuvm` holds at a time while it adds the pages from `p` up to `q`. -/
def framesFor (sel : Selection) (p q : ℕ) : ℕ :=
  if sel = .NONE then q - p else (min q 16 - p) + (if 16 < q ∧ p < q then 1 else 0)

/-- The first sixteen pages fill `ram_monitor`, the others `swap_monitor`. -/
def Packed (sel : Selection) (m : Machine) (n : ℕ) : Prop :=
  sel ≠ .NONE → ramCount m = min n 16 ∧ swapCount m = n - 16

theorem growFlat_succ (flat : Flat) {p q : ℕ} (h : p ≤ q) :
    Function.update (growFlat flat p q) q (.data fun _ => 0) = growFlat flat p (q + 1) := by
  funext v
  by_cases hv : v = q
  · subst hv
    rw [Function.update_self, growFlat, if_pos (by omega)]
  · rw [Function.update_of_ne hv, growFlat, growFlat]
    congr 1
    simp only [eq_iff_iff]
    omega

theorem growFlat_self (flat : Flat) (p : ℕ) : growFlat flat p p = flat := by
  funext v
  rw [growFlat, if_neg (by omega)]

theorem cutFlat_growFlat {flat : Flat} {p q r : ℕ} (habs : ∀ v, p ≤ v → flat v = .absent)
    (hqr : q ≤ r) : cutFlat (growFlat flat p q) p r = flat := by
  funext v
  by_cases hv : p ≤ v
  · rw [habs v hv, cutFlat, growFlat]
    split_ifs with h1 h2
    · rfl
    · omega
    · exact habs v hv
  · rw [cutFlat, if_neg (by omega), growFlat, if_neg (by omega)]

section

variable {sel : Selection} {N oldsz newsz : ℕ} {flat₀ : Flat}

theorem allocLoop_succ {m : Machine} {f i count : ℕ} {rest : List ℕ} {flat : Flat} {m' : Machine}
    (h : Ready sel m (N + i) (transit sel) flat) (hround : pgRoundUp oldsz = 4096 * N)
    (hf : m.freelist = f :: rest) (hp : N + i < maxTotalPages)
    (htrack : (addPage m f rest (N + i)).trackPage sel m.proc.pgdir (4096 * (N + i))
      (N + i + 1) = .ok m') :
    allocLoop sel m.proc.pgdir oldsz newsz (count + 1) i m =
      allocLoop sel m.proc.pgdir oldsz newsz count (i + 1) m' := by
  have ha : 4096 * N + 4096 * i = 4096 * (N + i) := by omega
  have hd : 4096 * (N + i) / 4096 = N + i := by omega
  have hN : 4096 * N / 4096 + (i + 1) = N + i + 1 := by omega
  have hmap : Machine.mappages (m.allocated f rest (N + i) fun _ => 0) m.proc.pgdir
      (4096 * (N + i)) 4096 f (pteW ||| pteU) = .ok (true, addPage m f rest (N + i)) :=
    mappages_addPage h hp
  rw [allocLoop]
  simp only [kalloc, hf, hround, ha, hd, hN]
  rw [show (Machine.setOwner { m with freelist := rest } f m.proc.pgdir (N + i)).setFrame f
    (fun _ => 0) = m.allocated f rest (N + i) fun _ => 0 from rfl, hmap]
  simp only [bind, Except.bind, htrack]

/-- `allocuvm` gives up when there is no frame: the pages it added are resident, since an eviction
leaves a frame for the next round, and go back. -/
theorem allocLoop_fail {m : Machine} {i count : ℕ}
    (h : Ready sel m (N + i) (transit sel) (growFlat flat₀ N (N + i)))
    (habs : ∀ v, N ≤ v → flat₀ v = .absent) (hold : pagesOf oldsz = N)
    (hq : pagesOf newsz = N + i + (count + 1)) (hsize : N + i + (count + 1) ≤ maxTotalPages)
    (hno : ∀ v, N ≤ v → v < N + i → ¬ m.PagedOut v) (hf : m.freelist = []) :
    ∃ m', allocLoop sel m.proc.pgdir oldsz newsz (count + 1) i m = .ok (0, m') ∧
      Ready sel m' N (transit sel) flat₀ ∧ SameId m m' ∧ swapCount m' = swapCount m := by
  have hlt : oldsz < newsz := by
    simp only [pagesOf] at hold hq
    omega
  have hno' : ∀ v, pagesOf oldsz ≤ v → v < pagesOf newsz → ¬ m.PagedOut v := by
    intro v hv hvq hc
    by_cases hvi : v < N + i
    · exact hno v (by omega) hvi hc
    · refine hc.not_absent (h.above v (by omega) (lt_of_lt_of_le hvq ?_))
      rw [hq]
      exact hsize.trans (by decide)
  obtain ⟨m', hcode, h', hid, -, hcount⟩ := deallocuvm_spec h (by omega) hlt hno'
  rw [hold, cutFlat_growFlat habs (by omega)] at h'
  refine ⟨m', ?_, ⟨⟨h'.toPaged.shrink (by omega) fun v hv hvn => ?_, h'.page⟩, h'.queue⟩, hid,
    hcount⟩
  · rw [allocLoop]
    simp only [kalloc, hf, hcode, bind, Except.bind]
    rfl
  · have := h'.page v (h'.toPaged.lt_userPages hvn)
    rwa [habs v hv] at this

theorem allocLoop_spec (hround : pgRoundUp oldsz = 4096 * N) (hold : pagesOf oldsz = N)
    (habs : ∀ v, N ≤ v → flat₀ v = .absent) (count : ℕ) {m : Machine} {i : ℕ}
    (h : Ready sel m (N + i) (transit sel) (growFlat flat₀ N (N + i)))
    (hpid : 2 < m.proc.pid) (hq : pagesOf newsz = N + i + count)
    (hsize : N + i + count ≤ maxTotalPages) (hcan : CanGrow sel m (N + i) (N + i + count))
    (hclean : sel = .NONE ∨ N + i ≤ 16 → ∀ v, N ≤ v → v < N + i → ¬ m.PagedOut v)
    (hframe : sel ≠ .NONE → 16 < N + i → 0 < i → m.freelist ≠ []) :
    ∃ r m', allocLoop sel m.proc.pgdir oldsz newsz count i m = .ok (r, m') ∧ SameId m m' ∧
      ((r = newsz ∧ Ready sel m' (N + i + count) (transit sel) (growFlat flat₀ N (N + i + count)) ∧
          (Packed sel m (N + i) → Packed sel m' (N + i + count)) ∧
          (sel = .NONE → swapCount m' = swapCount m)) ∨
        (r = 0 ∧ 0 < count ∧ Ready sel m' N (transit sel) flat₀ ∧
          m.freelist.length < framesFor sel (N + i) (N + i + count) ∧
          (sel = .NONE → swapCount m' = swapCount m))) := by
  induction count generalizing m i with
  | zero =>
    exact ⟨newsz, m, by rw [allocLoop], SameId.refl m, Or.inl ⟨rfl, h, id, fun _ => rfl⟩⟩
  | succ count ih =>
    cases hf : m.freelist with
    | nil =>
      have hno : ∀ v, N ≤ v → v < N + i → ¬ m.PagedOut v := by
        by_cases hearly : sel = .NONE ∨ N + i ≤ 16
        · exact hclean hearly
        · intro v hv hvi
          push Not at hearly
          exact absurd hf (hframe hearly.1 hearly.2 (by omega))
      obtain ⟨m', hcode, h', hid, hcount⟩ := allocLoop_fail h habs hold hq hsize hno hf
      refine ⟨0, m', hcode, hid, Or.inr ⟨rfl, by omega, h', ?_, fun _ => hcount⟩⟩
      rw [framesFor, List.length_nil]
      split_ifs <;> omega
    | cons f rest =>
      have hp : N + i < maxTotalPages := by omega
      have hsub : N + i + (count + 1) - (N + i) = count + 1 := by omega
      have hsub' : N + (i + 1) + count - (N + (i + 1)) = count := by omega
      obtain ⟨m₁, htrack, h₁, hid₁, hlast, hlow, hhigh⟩ := trackPage_spec h hf hp hpid
        (fun hl => by have := hcan.wrap hl; omega)
        (fun hs hge => by have := hcan.slots hs; have := hcan.victim hs; omega)
      rw [growFlat_succ _ (by omega)] at h₁
      have hcan₁ : CanGrow sel m₁ (N + (i + 1)) (N + (i + 1) + count) := by
        refine ⟨fun hs => ?_, fun hs hlt => ?_, fun hl => ?_⟩
        · have := hcan.slots hs
          by_cases hge : 16 ≤ N + i
          · have := hhigh hs hge
            omega
          · have := hlow (Or.inr (by omega))
            omega
        · have := hcan.victim hs
          by_cases hge : 16 ≤ N + i
          · have := hhigh hs hge
            omega
          · have := (hlow (Or.inr (by omega))).2.2.2.2 hs
            omega
        · have := hcan.wrap hl
          rw [hlast hl]
          omega
      have hclean₁ : sel = .NONE ∨ N + (i + 1) ≤ 16 →
          ∀ v, N ≤ v → v < N + (i + 1) → ¬ m₁.PagedOut v := by
        intro hearly v hv hvi hc
        obtain ⟨-, -, hstay, hpres, -⟩ := hlow (hearly.imp_right (by omega))
        by_cases hvp : v = N + i
        · subst hvp
          exact hpres.not_pagedOut hc
        · exact hclean (hearly.imp_right (by omega)) v hv (by omega) (hstay v (by omega) hc)
      have hframe₁ : sel ≠ .NONE → 16 < N + (i + 1) → 0 < i + 1 → m₁.freelist ≠ [] := by
        intro hs hge _ hc
        have := (hhigh hs (by omega)).1
        rw [hc, hf] at this
        cases this
      obtain ⟨r, m', hcode, hid', hres⟩ := ih h₁ (by rw [hid₁.pid]; exact hpid) (by omega)
        (by omega) hcan₁ hclean₁ hframe₁
      rw [hid₁.pgdir, ← allocLoop_succ h hround hf hp htrack] at hcode
      have hassoc : N + (i + 1) + count = N + i + (count + 1) := by omega
      rw [hassoc] at hres
      refine ⟨r, m', hcode, hid₁.trans hid', hres.imp ?_ ?_⟩
      · rintro ⟨hr, h', hpack, hnone⟩
        refine ⟨hr, h', fun hpk => hpack fun hs => ?_, fun hs => ?_⟩
        · have := hpk hs
          by_cases hge : 16 ≤ N + i
          · have := hhigh hs hge
            omega
          · have hl := hlow (Or.inr (by omega))
            have := hl.2.1
            have := hl.2.2.2.2 hs
            omega
        · rw [hnone hs, (hlow (Or.inl hs)).2.1]
      · rintro ⟨hr, hpos, h', hlen, hnone⟩
        refine ⟨hr, by omega, h', ?_, fun hs => by rw [hnone hs, (hlow (Or.inl hs)).2.1]⟩
        rw [framesFor] at hlen ⊢
        rw [List.length_cons]
        by_cases hs : sel = .NONE
        · rw [if_pos hs] at hlen ⊢
          rw [(hlow (Or.inl hs)).1] at hlen
          omega
        · rw [if_neg hs] at hlen ⊢
          by_cases hge : 16 ≤ N + i
          · have := (hhigh hs hge).1
            rw [hf, List.length_cons] at this
            rw [if_pos (by omega)] at hlen
            omega
          · rw [(hlow (Or.inr (by omega))).1] at hlen
            split_ifs at hlen ⊢ <;> omega

end

/-! ### `growproc` -/

/-- The flat memory of a process with its size. -/
structure FlatMem where
  sz : ℕ
  page : Flat

namespace FlatMem

/-- The size `sbrk(n)` asks for. -/
def newsz (s : FlatMem) (n : Int) : ℕ := ((s.sz + n) % 0x100000000).toNat

/-- `sbrk(n)` on a flat memory; `ok` tells whether memory was found for a growth.  Giving back
everything leaves the size as it was, since a new size of 0 reads as a failure. -/
def sbrk (s : FlatMem) (n : Int) (ok : Bool) : FlatMem :=
  if 0 < n then
    if ok = false ∨ kernBase ≤ s.newsz n ∨ s.newsz n < s.sz then s
    else ⟨s.newsz n, growFlat s.page (pagesOf s.sz) (pagesOf (s.newsz n))⟩
  else if s.newsz n < s.sz then
    ⟨if s.newsz n = 0 then s.sz else s.newsz n,
      cutFlat s.page (pagesOf (s.newsz n)) (pagesOf s.sz)⟩
  else s

end FlatMem

/-- The running process, with a pid past the shell's, sees the flat memory `s`. -/
structure Sees (sel : Selection) (m : Machine) (s : FlatMem) : Prop where
  sz : m.proc.sz = s.sz
  pid : 2 < m.proc.pid
  ready : Ready sel m (pagesOf s.sz) (transit sel) s.page
  above : ∀ v, pagesOf s.sz ≤ v → s.page v = .absent
  unpaged : sel = .NONE → swapCount m = 0

/-- What `sbrk(n)` asks of the paging state: a growth stays within the page limit and finds the slots
and victims it needs, a shrink releases no paged-out page. -/
structure SbrkOk (sel : Selection) (m : Machine) (n : Int) : Prop where
  int : -0x80000000 ≤ n ∧ n < 0x80000000
  grow : 0 < n → m.proc.sz + n < kernBase →
    pagesOf (m.proc.sz + n).toNat ≤ maxTotalPages ∧
      CanGrow sel m (pagesOf m.proc.sz) (pagesOf (m.proc.sz + n).toNat)
  shrink : n < 0 → 0 ≤ m.proc.sz + n →
    ∀ v, pagesOf (m.proc.sz + n).toNat ≤ v → v < pagesOf m.proc.sz → ¬ m.PagedOut v

section

variable {sel : Selection} {m : Machine} {s : FlatMem} {n : Int}

theorem Sees.sz_le (h : Sees sel m s) : s.sz ≤ 131072 := by
  have := h.ready.size
  simp only [pagesOf, maxTotalPages] at this
  omega

theorem newsz_eq (s : FlatMem) {n : Int} (h : 0 ≤ s.sz + n) (hlt : s.sz + n < 0x100000000) :
    s.newsz n = (s.sz + n).toNat := by
  rw [FlatMem.newsz, Int.emod_eq_of_lt h hlt]

/-- `sbrk` to a larger size: the process sees its memory grown, or unchanged when frames run out. -/
theorem growproc_grow (h : Sees sel m s) (hok : SbrkOk sel m n) (hn : 0 < n) :
    ∃ r m' ok, m.growproc sel n = .ok (r, m') ∧ Sees sel m' (s.sbrk n ok) ∧
      m'.proc.killed = m.proc.killed ∧
      (ok = true → Packed sel m (pagesOf s.sz) → Packed sel m' (pagesOf (s.sbrk n ok).sz)) ∧
      ((s.newsz n < kernBase →
        framesFor sel (pagesOf s.sz) (pagesOf (s.newsz n)) ≤ m.freelist.length) → ok = true) := by
  have hsz := h.sz_le
  have hint := hok.int
  have hnew := newsz_eq s (n := n) (by omega) (by omega)
  have hgt : ¬ s.newsz n < s.sz := by omega
  have hcode : ((m.proc.sz + n) % 0x100000000).toNat = s.newsz n := by
    rw [h.sz]
    rfl
  by_cases hbig : kernBase ≤ s.newsz n
  · refine ⟨-1, m, true, ?_, ?_, rfl, ?_, fun _ => rfl⟩
    · simp only [growproc, hcode, if_pos hn, allocuvm, if_pos hbig, bind, Except.bind, if_true]
      rfl
    · rw [FlatMem.sbrk, if_pos hn, if_pos (by simp [hbig])]
      exact h
    · rw [FlatMem.sbrk, if_pos hn, if_pos (by simp [hbig])]
      exact fun _ => id
  · obtain ⟨hmax, hcan⟩ := hok.grow hn (by
      rw [h.sz]
      simp only [kernBase] at hbig ⊢
      omega)
    rw [h.sz, ← hnew] at hmax hcan
    obtain ⟨count, hcount⟩ : ∃ count, pagesOf (s.newsz n) = pagesOf s.sz + count := by
      refine ⟨pagesOf (s.newsz n) - pagesOf s.sz, ?_⟩
      simp only [pagesOf]
      omega
    have hround : pgRoundUp s.sz = 4096 * pagesOf s.sz :=
      pgRoundUp_eq (hsz.trans (by decide))
    have hpages : (s.newsz n - 4096 * pagesOf s.sz + 4095) / 4096 = count := by
      simp only [pagesOf] at hcount ⊢
      omega
    have hready : Ready sel m (pagesOf s.sz + 0) (transit sel)
        (growFlat s.page (pagesOf s.sz) (pagesOf s.sz + 0)) := by
      rw [Nat.add_zero, growFlat_self]
      exact h.ready
    obtain ⟨r, m', hrun, hid, hres⟩ := allocLoop_spec hround rfl h.above count hready h.pid hcount
      (hcount ▸ hmax) (hcount ▸ hcan) (fun _ v hv hc => absurd hc (by omega))
      (fun _ _ hc => absurd hc (by omega))
    rw [Nat.add_zero, ← hcount] at hres
    have halloc : m.allocuvm sel m.proc.pgdir m.proc.sz (s.newsz n) = .ok (r, m') := by
      rw [allocuvm, if_neg hbig, h.sz, if_neg hgt, hround, hpages, hrun]
    rcases hres with ⟨rfl, h', hpack, hnone⟩ | ⟨rfl, -, h', hlen, hnone⟩
    · have hz : s.newsz n ≠ 0 := by omega
      have hsbrk : s.sbrk n true =
          ⟨s.newsz n, growFlat s.page (pagesOf s.sz) (pagesOf (s.newsz n))⟩ := by
        rw [FlatMem.sbrk, if_pos hn, if_neg (by simp [hbig, hgt])]
      refine ⟨0, m'.setProc { m'.proc with sz := s.newsz n }, true, ?_, ?_, hid.killed, ?_,
        fun _ => rfl⟩
      · simp only [growproc, hcode, if_pos hn, halloc, bind, Except.bind, if_neg hz]
        rfl
      · rw [hsbrk]
        refine ⟨rfl, hid.pid ▸ h.pid, h'.setProc rfl rfl rfl rfl rfl, fun v hv => ?_, fun hs => ?_⟩
        · simp only at hv ⊢
          rw [growFlat, if_neg (by omega)]
          exact h.above v (by omega)
        · exact (hnone hs).trans (h.unpaged hs)
      · rw [hsbrk]
        exact fun _ => hpack
    · have hsbrk : s.sbrk n false = s := by
        rw [FlatMem.sbrk, if_pos hn, if_pos (by simp)]
      refine ⟨-1, m', false, ?_, ?_, hid.killed, ?_,
        fun hc => absurd hlen (not_lt.2 (hc (not_le.1 hbig)))⟩
      · simp only [growproc, hcode, if_pos hn, halloc, bind, Except.bind, if_true]
        rfl
      · rw [hsbrk]
        exact ⟨hid.sz.trans h.sz, hid.pid ▸ h.pid, h', h.above,
          fun hs => (hnone hs).trans (h.unpaged hs)⟩
      · exact fun hc => by cases hc

theorem growproc_shrink (h : Sees sel m s) (hok : SbrkOk sel m n) (hn : ¬ 0 < n) (ok : Bool) :
    ∃ r m', m.growproc sel n = .ok (r, m') ∧ Sees sel m' (s.sbrk n ok) ∧
      m'.proc.killed = m.proc.killed := by
  have hsz := h.sz_le
  have hint := hok.int
  have hcode : ((m.proc.sz + n) % 0x100000000).toNat = s.newsz n := by
    rw [h.sz]
    rfl
  by_cases hz : n = 0
  · have hnew : s.newsz n = s.sz := by
      rw [newsz_eq s (by omega) (by omega)]
      omega
    refine ⟨0, m, ?_, ?_, rfl⟩
    · rw [growproc, if_neg hn, if_neg (by omega)]
    · rw [FlatMem.sbrk, if_neg hn, hnew, if_neg (lt_irrefl _)]
      exact h
  have hneg : n < 0 := by omega
  by_cases hwrap : 0 ≤ s.sz + n
  · have hnew := newsz_eq s hwrap (by omega)
    have hlt : s.newsz n < s.sz := by omega
    have hno := hok.shrink hneg (by rw [h.sz]; exact hwrap)
    rw [h.sz, ← hnew] at hno
    obtain ⟨m', hrun, h', hid, -, hcount⟩ := deallocuvm_spec h.ready h.ready.size hlt hno
    have hle : pagesOf (s.newsz n) ≤ pagesOf s.sz := by
      simp only [pagesOf]
      omega
    have hsbrk : s.sbrk n ok = ⟨if s.newsz n = 0 then s.sz else s.newsz n,
        cutFlat s.page (pagesOf (s.newsz n)) (pagesOf s.sz)⟩ := by
      rw [FlatMem.sbrk, if_neg hn, if_pos hlt]
    have habove : ∀ v, pagesOf (s.newsz n) ≤ v →
        cutFlat s.page (pagesOf (s.newsz n)) (pagesOf s.sz) v = .absent := by
      intro v hv
      rw [cutFlat]
      split_ifs with hc
      · rfl
      · exact h.above v (by omega)
    rw [← h.sz] at hrun
    have hunpaged : sel = .NONE → swapCount m' = 0 := fun hs => hcount.trans (h.unpaged hs)
    rw [hsbrk]
    by_cases hzero : s.newsz n = 0
    · refine ⟨-1, m', ?_, ⟨?_, hid.pid ▸ h.pid, ?_, ?_, hunpaged⟩, hid.killed⟩
      · simp only [growproc, hcode, if_neg hn, if_pos hneg, hrun, bind, Except.bind]
        rw [if_pos hzero]
        rfl
      · rw [if_pos hzero, hid.sz, h.sz]
      · simp only [if_pos hzero]
        exact h'
      · simp only [if_pos hzero]
        exact fun v hv => habove v (hle.trans hv)
    · refine ⟨0, m'.setProc { m'.proc with sz := s.newsz n }, ?_,
        ⟨?_, hid.pid ▸ h.pid, ?_, ?_, hunpaged⟩, hid.killed⟩
      · simp only [growproc, hcode, if_neg hn, if_pos hneg, hrun, bind, Except.bind, if_neg hzero]
        rfl
      · rw [if_neg hzero]
        rfl
      · simp only [if_neg hzero]
        refine Ready.setProc ⟨⟨h'.toPaged.shrink hle fun v hv hvn => ?_, h'.page⟩, h'.queue⟩
          rfl rfl rfl rfl rfl
        have := h'.page v (h'.toPaged.lt_userPages hvn)
        rwa [habove v hv] at this
      · simp only [if_neg hzero]
        exact habove
  · have hge : ¬ s.newsz n < s.sz := by
      have : s.newsz n = (s.sz + n + 0x100000000).toNat := by
        rw [FlatMem.newsz, ← Int.add_emod_right, Int.emod_eq_of_lt (by omega) (by omega)]
      omega
    have hsbrk : s.sbrk n ok = s := by
      rw [FlatMem.sbrk, if_neg hn, if_neg hge]
    rw [hsbrk]
    have hdealloc : m.deallocuvm sel m.proc.pgdir m.proc.sz (s.newsz n) = .ok (s.sz, m) := by
      rw [h.sz, deallocuvm, if_pos (by omega)]
    by_cases hzero : s.sz = 0
    · refine ⟨-1, m, ?_, h, rfl⟩
      simp only [growproc, hcode, if_neg hn, if_pos hneg, hdealloc, bind, Except.bind]
      rw [if_pos hzero]
      rfl
    · refine ⟨0, m.setProc { m.proc with sz := s.sz }, ?_,
        ⟨rfl, h.pid, h.ready.setProc rfl rfl rfl rfl rfl, h.above, h.unpaged⟩, rfl⟩
      simp only [growproc, hcode, if_neg hn, if_pos hneg, hdealloc, bind, Except.bind,
        if_neg hzero]
      rfl

end

end Xv6
