import Xv6.PageTable

/-!
# Ownership of physical frames

`FramesOk` is the discipline behind every page table: a frame is free, or allocated for one page of
one directory, and the only present user entry that may point to it is that page's.  An entry that
is paged out points nowhere, which `page_in` relies on.  The invariant depends on the free list, the
ownership record and the entries only, and it is kept by the four things the kernel does with them:
taking a frame off the free list, storing an entry, giving a frame back, and the processor setting
accessed or dirty bits.
-/

namespace Xv6

/-- The free list, the ownership record and the user entries agree. -/
structure FramesOk (m : Machine) : Prop where
  kend_pos : 0 < m.kend
  nodup : m.freelist.Nodup
  valid : ∀ f ∈ m.freelist, m.kend ≤ f ∧ f < phystopFrame
  free : ∀ f ∈ m.freelist, m.owner f = none
  ownedValid : ∀ f o, m.owner f = some o → m.kend ≤ f ∧ f < phystopFrame
  owned : ∀ d v, v < userPages → flagOn (entry m.dirs d v) pteP →
    m.owner (frameOf (entry m.dirs d v)) = some (d, v)
  cleared : ∀ d v, v < userPages → flagOn (entry m.dirs d v) pteP = false →
    flagOn (entry m.dirs d v) ptePG → frameOf (entry m.dirs d v) = 0
  dirs : ∀ d v, v < 0x100000 → HasTable m.dirs d v → d ∉ m.freelist ∧ m.owner d = none

/-- The same pages have page tables, with the same entries up to accessed and dirty bits. -/
def AgreeSoft (dirs dirs' : ℕ → PgDir) : Prop :=
  ∀ d v, v < 0x100000 → (HasTable dirs' d v ↔ HasTable dirs d v) ∧
    softBits (entry dirs' d v) = softBits (entry dirs d v)

theorem AgreeSoft.refl (dirs : ℕ → PgDir) : AgreeSoft dirs dirs := fun _ _ _ => ⟨Iff.rfl, rfl⟩

theorem AgreeSoft.store {dirs : ℕ → PgDir} {d v : ℕ} (ht : HasTable dirs d v) (hv : v < 0x100000)
    {pte : Pte} (hs : softBits pte = softBits (entry dirs d v)) :
    AgreeSoft dirs (Xv6.store dirs d (4096 * v) pte) := by
  intro d' w hw
  refine ⟨hasTable_store dirs d _ pte d' w, ?_⟩
  rw [entry_store ht hv pte d' hw]
  split_ifs with h
  · obtain ⟨rfl, rfl⟩ := h
    exact hs
  · rfl

namespace FramesOk

variable {m : Machine} {d v f : ℕ}

section

variable (h : FramesOk m)

include h

theorem frame_valid (hv : v < userPages) (hp : flagOn (entry m.dirs d v) pteP) :
    m.kend ≤ frameOf (entry m.dirs d v) ∧ frameOf (entry m.dirs d v) < phystopFrame :=
  h.ownedValid _ _ (h.owned d v hv hp)

theorem frame_inj {d' v' : ℕ} (hv : v < userPages) (hv' : v' < userPages)
    (hp : flagOn (entry m.dirs d v) pteP) (hp' : flagOn (entry m.dirs d' v') pteP)
    (e : frameOf (entry m.dirs d v) = frameOf (entry m.dirs d' v')) : d = d' ∧ v = v' := by
  have h1 := h.owned d v hv hp
  rw [e, h.owned d' v' hv' hp'] at h1
  simpa [eq_comm] using h1

theorem congr {m' : Machine} (hk : m'.kend = m.kend)
    (hf : m'.freelist = m.freelist) (ho : m'.owner = m.owner) (hd : m'.dirs = m.dirs) :
    FramesOk m' := by
  constructor
  · rw [hk]; exact h.kend_pos
  · rw [hf]; exact h.nodup
  · rw [hf, hk]; exact h.valid
  · rw [hf, ho]; exact h.free
  · rw [ho, hk]; exact h.ownedValid
  · rw [hd, ho]; exact h.owned
  · rw [hd]; exact h.cleared
  · rw [hd, hf, ho]; exact h.dirs

theorem soft {m' : Machine} (hk : m'.kend = m.kend)
    (hf : m'.freelist = m.freelist) (ho : m'.owner = m.owner) (hd : AgreeSoft m.dirs m'.dirs) :
    FramesOk m' := by
  have hlt : ∀ {v}, v < userPages → v < 0x100000 := fun hv => lt_trans hv (by decide)
  constructor
  · rw [hk]; exact h.kend_pos
  · rw [hf]; exact h.nodup
  · rw [hf, hk]; exact h.valid
  · rw [hf, ho]; exact h.free
  · rw [ho, hk]; exact h.ownedValid
  · intro d v hv hp
    have hs := (hd d v (hlt hv)).2
    rw [flagOn_pteP_congr hs] at hp
    rw [frameOf_congr hs, ho, h.owned d v hv hp]
  · intro d v hv hp hg
    have hs := (hd d v (hlt hv)).2
    rw [flagOn_pteP_congr hs] at hp
    rw [flagOn_ptePG_congr hs] at hg
    rw [frameOf_congr hs, h.cleared d v hv hp hg]
  · intro d v hv ht
    rw [hf, ho]
    exact h.dirs d v hv ((hd d v hv).1.1 ht)

theorem alloc {rest : List ℕ} (hf : m.freelist = f :: rest) {m' : Machine}
    (hk : m'.kend = m.kend) (hr : m'.freelist = rest)
    (ho : m'.owner = Function.update m.owner f (some (d, v))) (hd : m'.dirs = m.dirs) :
    FramesOk m' := by
  have hnd := h.nodup
  rw [hf, List.nodup_cons] at hnd
  have hmem : ∀ {g}, g ∈ rest → g ∈ m.freelist := fun hg => hf ▸ List.mem_cons_of_mem f hg
  have hfree : m.owner f = none := h.free f (hf ▸ List.mem_cons_self)
  have hne : ∀ {g}, m.owner g ≠ none → g ≠ f := by
    rintro g hg rfl
    exact hg hfree
  constructor
  · rw [hk]; exact h.kend_pos
  · rw [hr]; exact hnd.2
  · intro g hg
    rw [hr] at hg
    rw [hk]
    exact h.valid g (hmem hg)
  · intro g hg
    rw [hr] at hg
    have hgf : g ≠ f := by
      rintro rfl
      exact hnd.1 hg
    rw [ho, Function.update_of_ne hgf, h.free g (hmem hg)]
  · intro g o hg
    rw [hk]
    by_cases hgf : g = f
    · rw [hgf]
      exact h.valid f (hf ▸ List.mem_cons_self)
    · rw [ho, Function.update_of_ne hgf] at hg
      exact h.ownedValid g o hg
  · intro d' v' hv hp
    rw [hd] at hp ⊢
    have hown := h.owned d' v' hv hp
    rw [ho, Function.update_of_ne (hne (by simp [hown])), hown]
  · rw [hd]; exact h.cleared
  · intro d' v' hv ht
    rw [hd] at ht
    obtain ⟨hnot, hnone⟩ := h.dirs d' v' hv ht
    have hdf : d' ≠ f := by
      rintro rfl
      exact hnot (hf ▸ List.mem_cons_self)
    rw [hr, ho, Function.update_of_ne hdf]
    exact ⟨fun hc => hnot (hmem hc), hnone⟩

theorem reserve {rest : List ℕ} (hf : m.freelist = f :: rest) : FramesOk { m with freelist := rest } := by
  have hnd := h.nodup
  rw [hf, List.nodup_cons] at hnd
  have hmem : ∀ {g}, g ∈ rest → g ∈ m.freelist := fun hg => hf ▸ List.mem_cons_of_mem f hg
  exact ⟨h.kend_pos, hnd.2, fun g hg => h.valid g (hmem hg), fun g hg => h.free g (hmem hg),
    h.ownedValid, h.owned, h.cleared,
    fun d v hv ht => ⟨fun hc => (h.dirs d v hv ht).1 (hmem hc), (h.dirs d v hv ht).2⟩⟩

/-- A user entry replaced by one that points to a frame allocated for its page, or that is not
present and points nowhere. -/
theorem store (ht : HasTable m.dirs d v) (hv : v < 0x100000) {pte : Pte}
    (hown : v < userPages → flagOn pte pteP → m.owner (frameOf pte) = some (d, v))
    (hclr : v < userPages → flagOn pte pteP = false → flagOn pte ptePG → frameOf pte = 0)
    {m' : Machine} (hk : m'.kend = m.kend) (hf : m'.freelist = m.freelist)
    (ho : m'.owner = m.owner) (hd : m'.dirs = Xv6.store m.dirs d (4096 * v) pte) :
    FramesOk m' := by
  constructor
  · rw [hk]; exact h.kend_pos
  · rw [hf]; exact h.nodup
  · rw [hf, hk]; exact h.valid
  · rw [hf, ho]; exact h.free
  · rw [ho, hk]; exact h.ownedValid
  · intro d' w hw
    rw [hd, ho, entry_store ht hv pte d' (lt_trans hw (by decide))]
    split_ifs with hc
    · obtain ⟨rfl, rfl⟩ := hc
      exact hown hw
    · exact h.owned d' w hw
  · intro d' w hw
    rw [hd, entry_store ht hv pte d' (lt_trans hw (by decide))]
    split_ifs with hc
    · obtain ⟨rfl, rfl⟩ := hc
      exact hclr hw
    · exact h.cleared d' w hw
  · intro d' w hw ht'
    rw [hd, hasTable_store] at ht'
    rw [hf, ho]
    exact h.dirs d' w hw ht'

theorem release {o : ℕ × ℕ} (howner : m.owner f = some o)
    (hun : ∀ d v, v < userPages → flagOn (entry m.dirs d v) pteP →
      frameOf (entry m.dirs d v) ≠ f)
    {m' : Machine} (hk : m'.kend = m.kend) (hf : m'.freelist = f :: m.freelist)
    (ho : m'.owner = Function.update m.owner f none) (hd : m'.dirs = m.dirs) : FramesOk m' := by
  have hnot : f ∉ m.freelist := by
    intro hmem
    rw [h.free f hmem] at howner
    cases howner
  constructor
  · rw [hk]; exact h.kend_pos
  · rw [hf]; exact List.nodup_cons.2 ⟨hnot, h.nodup⟩
  · intro g hg
    rw [hf] at hg
    rw [hk]
    rcases List.mem_cons.1 hg with rfl | hg
    · exact h.ownedValid g o howner
    · exact h.valid g hg
  · intro g hg
    rw [ho]
    by_cases hgf : g = f
    · simp [hgf]
    · rw [hf] at hg
      rw [Function.update_of_ne hgf]
      exact h.free g ((List.mem_cons.1 hg).resolve_left hgf)
  · intro g o' hg
    rw [hk]
    by_cases hgf : g = f
    · simp [ho, hgf] at hg
    · rw [ho, Function.update_of_ne hgf] at hg
      exact h.ownedValid g o' hg
  · intro d' v' hv hp
    rw [hd] at hp ⊢
    rw [ho, Function.update_of_ne (hun d' v' hv hp), h.owned d' v' hv hp]
  · rw [hd]; exact h.cleared
  · intro d' v' hv ht
    rw [hd] at ht
    obtain ⟨hnot', hnone⟩ := h.dirs d' v' hv ht
    have hdf : d' ≠ f := by
      rintro rfl
      rw [hnone] at howner
      cases howner
    rw [hf, ho, Function.update_of_ne hdf]
    exact ⟨fun hc => hnot' ((List.mem_cons.1 hc).resolve_left hdf), hnone⟩

end

end FramesOk

namespace Machine

def freed (m : Machine) (f : ℕ) : Machine :=
  { m with
    freelist := f :: m.freelist
    data := Function.update m.data f fun _ => 1
    owner := Function.update m.owner f none }

theorem kfree_eq {m : Machine} {f : ℕ} (h : m.kend ≤ f ∧ f < phystopFrame) :
    m.kfree f = .ok (m.freed f) := by
  rw [kfree, if_neg (by omega), freed]

theorem kalloc_ok {m m' : Machine} {f : ℕ} (hrun : m.kalloc = some (f, m')) :
    ∃ rest, m.freelist = f :: rest ∧ m' = { m with freelist := rest } := by
  unfold kalloc at hrun
  split at hrun
  · cases hrun
  · rename_i f' rest hf
    cases hrun
    exact ⟨rest, hf, rfl⟩

theorem walkpgdirAlloc_cases {m m' : Machine} {d va : ℕ} (hrun : m.walkpgdirAlloc d va = some m') :
    (m.dirs d (pdx va) ≠ none ∧ m' = m) ∨ m.dirs d (pdx va) = none ∧ ∃ g rest, m.freelist = g :: rest ∧
      m' = { m with dirs := addTable m.dirs d va g, freelist := rest } := by
  unfold walkpgdirAlloc at hrun
  split at hrun
  · rename_i ht
    cases hrun
    exact .inl ⟨by rw [ht]; simp, rfl⟩
  · rename_i ht
    obtain ⟨⟨g, m₁⟩, hg, rfl⟩ := Option.map_eq_some_iff.1 hrun
    obtain ⟨rest, hf, rfl⟩ := kalloc_ok hg
    exact .inr ⟨ht, g, rest, hf, rfl⟩

end Machine

end Xv6
