import Xv6.Callees
import Xv6.Sbrk

/-!
# `growproc` of a process whose pages are tracked

As long as every eviction finds a free slot, each round of `allocuvm` keeps the paging invariant, and
the process keeps all its pages.  An eviction without a free slot marks a page as paged out that is
nowhere: no later round takes such a mark back, and seventeen marks are more than the slots can
account for.
-/

namespace Xv6

open Machine

/-! ### Paged-out pages stay paged out -/

section

variable {m m' : Machine} {sel : Selection} {d a v : ℕ}

end

/-! ### Counting pages -/

section

variable {m : Machine} {n : ℕ} {X : Set ℕ}

theorem Paged.ramCount_eq (h : Paged m n X) (hX : ∀ v, v ∉ X) :
    ramCount m = ((Finset.range n).filter fun v => m.Present v).card := by
  have hset : m.ramPages n X =
      (((Finset.range n).filter fun v => m.Present v).image (4096 * ·) : Finset ℕ) := by
    ext a
    simp only [Finset.coe_image, Set.mem_image, Finset.coe_filter, Finset.mem_range,
      Set.mem_ofPred_eq]
    constructor
    · rintro ⟨v, hv, rfl, hp, -⟩
      exact ⟨v, ⟨hv, hp⟩, rfl⟩
    · rintro ⟨v, ⟨hv, hp⟩, rfl⟩
      exact ⟨v, hv, rfl, hp, hX v⟩
  have hram := h.ram
  rw [hset] at hram
  rw [ramCount, hram.usedCount_eq, Finset.card_image_of_injective]
  exact fun v w hvw => Nat.eq_of_mul_eq_mul_left (by decide) hvw

theorem Paged.swapCount_eq (h : Paged m n X) :
    swapCount m = ((Finset.range n).filter fun v => m.PagedOut v).card := by
  have hset : m.swapPages n =
      (((Finset.range n).filter fun v => m.PagedOut v).image (4096 * ·) : Finset ℕ) := by
    ext a
    simp only [Finset.coe_image, Set.mem_image, Finset.coe_filter, Finset.mem_range,
      Set.mem_ofPred_eq]
    constructor
    · rintro ⟨v, hv, rfl, hp⟩
      exact ⟨v, ⟨hv, hp⟩, rfl⟩
    · rintro ⟨v, ⟨hv, hp⟩, rfl⟩
      exact ⟨v, hv, rfl, hp⟩
  have hswap := h.swap
  rw [hset] at hswap
  rw [swapCount, hswap.usedCount_eq, Finset.card_image_of_injective]
  exact fun v w hvw => Nat.eq_of_mul_eq_mul_left (by decide) hvw

theorem Paged.le_count (h : Paged m n X) (hX : ∀ v, v ∉ X) (hall : ∀ v < n, ∃ page, m.Holds v page) :
    n ≤ ramCount m + swapCount m := by
  have hsub : Finset.range n ⊆ ((Finset.range n).filter fun v => m.Present v) ∪
      ((Finset.range n).filter fun v => m.PagedOut v) := by
    intro v hv
    obtain ⟨page, hpage⟩ := hall v (Finset.mem_range.1 hv)
    rw [Finset.mem_union, Finset.mem_filter, Finset.mem_filter]
    exact hpage.present_or.imp (⟨hv, ·⟩) (⟨hv, ·⟩)
  calc n = (Finset.range n).card := (Finset.card_range n).symm
    _ ≤ _ := Finset.card_le_card hsub
    _ ≤ _ := Finset.card_union_le _ _
    _ = _ := by rw [h.ramCount_eq hX, h.swapCount_eq]

end

/-! ### Growing with tracking -/

section

variable {s : Supply} {sel : Selection} {m₀ m m' : Machine} {N i oldsz newsz : ℕ}

theorem LoopOk.slots {count : ℕ} (hcons : Consistent sel m₀)
    (h : LoopOk s sel m₀ oldsz newsz count i m) :
    ∃ r m', allocLoopFrom s sel m.proc.pgdir oldsz newsz count i m = .ok (r, m') ∧
      ∀ v < userPages, m'.PagedOut v → ∃ j, (m'.proc.swapMonitor j).pVa = 4096 * v := by
  obtain ⟨r, m', hrun, hres⟩ := h
  refine ⟨r, m', hrun, fun v hv hout => ?_⟩
  have hslot : ∀ {page}, m'.Holds v page → ∃ j, (m'.proc.swapMonitor j).pVa = 4096 * v := by
    rintro page (⟨hp, -⟩ | ⟨-, j, -, hj, -⟩)
    · exact absurd hout hp.not_pagedOut
    · exact ⟨j, hj⟩
  rcases hres with ⟨-, hbelow, habove⟩ | ⟨-, hr⟩
  · by_cases hvn : v < pagesOf newsz
    · obtain ⟨page, hpage⟩ := hbelow v hvn
      exact hslot hpage
    · exact absurd (habove v (not_lt.1 hvn) hv) hout.not_absent
  · by_cases hvn : v < pagesOf m₀.proc.sz
    · obtain ⟨page, hpage⟩ := hcons.below v hvn
      exact hslot (hr.below v hvn page hpage)
    · exact absurd (hr.above v (not_lt.1 hvn) hv) hout.not_absent

/-- A growth of a process whose pages are tracked, after `i` rounds. -/
structure Growing (sel : Selection) (m₀ m : Machine) (N i : ℕ) : Prop where
  ready : ∃ flat, Ready sel m (N + i) (transit sel) flat
  id : SameId m₀ m
  last : sel = .LIFO → m.proc.lastInQueue = m₀.proc.lastInQueue + i
  holds : ∀ v < N, ∀ page, m₀.Holds v page → m.Holds v page
  all : ∀ v < N + i, ∃ page, m.Holds v page

theorem Growing.le_count (h : Growing sel m₀ m N i) (hsel : sel ≠ .NONE) :
    N + i ≤ ramCount m + swapCount m := by
  obtain ⟨flat, hr⟩ := h.ready
  exact hr.toPaged.le_count (fun v hv => hsel (mem_transit.1 hv)) h.all

theorem trackPage_holds {n p w : ℕ} {X : Set ℕ} {flat : Flat} (h : Ready sel m n X flat)
    (hsel : sel ≠ .NONE) (hvictim : 16 ≤ p → swapCount m < 16 ∧ 0 < ramCount m)
    (hrun : m.trackPage sel m.proc.pgdir (4096 * p) (p + 1) = .ok m') (hw : w < userPages)
    {page : Page} (hh : m.Holds w page) : m'.Holds w page := by
  unfold trackPage at hrun
  split_ifs at hrun with hpid hcount
  · cases hrun
    unfold Proc.add2ram
    split
    · exact hh
    · exact hh
  · have h16 : 16 ≤ p := by
      simp only [maxPyscPages] at hcount
      omega
    exact swap_holds hsel h (hvictim h16).2 (hvictim h16).1 hrun hw hh
  · cases hrun
    exact hh

theorem Growing.round {f : ℕ} {rest : List ℕ} (h : Growing sel m₀ m N i) (hpid : 2 < m.proc.pid)
    (hsel : sel ≠ .NONE) (hN : pagesOf oldsz = N) (hold : oldsz ≤ kernBase)
    (hf : m.freelist = f :: rest)
    (hk : m.kallocFrom (s.page i) = some (f, { m with freelist := rest }))
    (hslot : 16 ≤ N + i → swapCount m < 16)
    (hlast : sel = .LIFO → m₀.proc.lastInQueue + i + 1 ≤ 0x7FFFFFFF) :
    ∃ m', m.addRound s sel m.proc.pgdir oldsz i = .ok (some m') ∧ Growing sel m₀ m' N (i + 1) ∧
      m.canMap (s.table i) m.proc.pgdir (N + i) = true := by
  subst hN
  obtain ⟨flat, hr⟩ := h.ready
  have hcount := h.le_count hsel
  have hram : ramCount m ≤ 16 := SlotTable.usedCount_le
  have hp : pagesOf oldsz + i < maxTotalPages := by
    simp only [maxTotalPages]
    omega
  have hvictim : 16 ≤ pagesOf oldsz + i → swapCount m < 16 ∧ 0 < ramCount m := fun h16 => by
    have := hslot h16
    omega
  have htable := hr.toPaged.hasTable hp
  obtain ⟨h₁, hmove, hpres⟩ := addPage_spec hr hf hp
  obtain ⟨m', htrack, h', hid, hlast', -, -⟩ := trackPage_spec hr hf hp hpid
    (fun hl => by rw [h.last hl]; exact hlast hl) (fun _ => hvictim)
  have hkeep : ∀ v < userPages, ∀ page, (addPage m f rest (pagesOf oldsz + i)).Holds v page →
      m'.Holds v page := fun v hv page => trackPage_holds h₁ hsel hvictim htrack hv
  have hold' : ∀ v < pagesOf oldsz + i, ∀ page, m.Holds v page → m'.Holds v page := by
    intro v hv page hh
    have hu : v < userPages := hr.toPaged.lt_userPages hv
    have hh₁ := (hr.toPaged.allocated_view hf (pagesOf oldsz + i) fun _ => 0).holds hu hh
    exact hkeep v hu page (hmove.holds hu (by omega) hh₁)
  refine ⟨m', ?_, ⟨⟨_, h'⟩, h.id.trans hid, fun hl => ?_, fun v hv page hh => ?_, fun v hv => ?_⟩,
    (canMap_iff hf).2 (Or.inl htable)⟩
  · have hmap : (m.allocated f rest (pagesOf oldsz + i) fun _ => 0).mappagesFrom (s.table i)
        m.proc.pgdir (4096 * (pagesOf oldsz + i)) 4096 f (pteW ||| pteU) =
          .ok (true, addPage m f rest (pagesOf oldsz + i)) :=
      mappagesFrom_page _ _ _ (lt_trans hp (by decide)) htable
        (hr.above _ le_rfl (lt_trans hp (by decide))).1
    rw [addRound_eq hold hk, hmap]
    simp only [bind, Except.bind, htrack]
    rfl
  · rw [hlast' hl, h.last hl]
    omega
  · exact hold' v (by omega) page (h.holds v hv page hh)
  · by_cases hvp : v = pagesOf oldsz + i
    · subst hvp
      exact ⟨_, hkeep _ (lt_trans hp (by decide)) _ (Or.inl ⟨hpres, rfl⟩)⟩
    · obtain ⟨page, hpage⟩ := h.all v (by omega)
      exact ⟨page, hold' v (by omega) page hpage⟩

end

section

variable {s : Supply} {sel : Selection} {m : Machine} {n : Int}

end

end Xv6
