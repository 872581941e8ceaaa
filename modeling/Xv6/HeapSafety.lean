import Mathlib.Data.Finset.Card
import Mathlib.Data.Finset.Range
import Xv6.Heap

/-!
# Safety of the user allocator

The free list is a circular list of blocks in ascending order with `base` in front (`FreeList`), and
the blocks in use are disjoint from it and from each other (`HeapOk`).  Both are kept by every call,
and every loop comes to an end: that of `free` at the one place where the block belongs, and that of
`malloc` and `pmalloc` after at most two passes, since `morecore` adds a block that is large enough.
-/

namespace Xv6

open Ring

structure Block where
  addr : ℕ
  units : ℕ

def Block.stop (b : Block) : ℕ := b.addr + 8 * b.units

/-- One block ends before the other begins. -/
def Block.Apart (b c : Block) : Prop := b.stop ≤ c.addr ∨ c.stop ≤ b.addr

theorem Block.Apart.symm {b c : Block} (h : b.Apart c) : c.Apart b := Or.symm h

instance : Std.Symm Block.Apart := ⟨fun _ _ h => Block.Apart.symm h⟩

namespace Heap

def block (h : Heap) (p : ℕ) : Block := ⟨p, h.size p⟩

/-- Bytes that came from `sbrk`. -/
def Owned (h : Heap) (x : ℕ) : Prop := ∃ r ∈ h.regions, r.1 ≤ x ∧ x < r.1 + 8 * r.2

def obtained (h : Heap) : ℕ := (h.regions.map Prod.snd).sum

def units (h : Heap) (ps : List ℕ) : ℕ := (ps.map h.size).sum

/-- The free list, with `base` as first element. -/
structure FreeList (h : Heap) (ps : List ℕ) : Prop where
  head : ps.head? = some h.base
  links : Links h.ptr (ps ++ [h.base])
  freep : h.freep ∈ ps
  ascending : ps.Pairwise fun x y => x < y ∧ (h.block x).stop ≤ y
  baseSize : h.size h.base = 0
  size : ∀ x ∈ ps, x ≠ h.base → 0 < h.size x ∧ h.base + 8 ≤ x
  owned : ∀ x ∈ ps, ∀ k < 8 * h.size x, h.Owned (x + k)

/-- The elements of the free list; there are none before the first allocation. -/
def FreeBlocks (h : Heap) (ps : List ℕ) : Prop := if h.freep = 0 then ps = [] else FreeList h ps

/-- The free list `ps` and the blocks in use `bs`. -/
structure HeapOk (h : Heap) (ps : List ℕ) (bs : List Block) : Prop extends FreeList h ps where
  low : h.base + 8 ≤ h.brk
  regions : ∀ r ∈ h.regions, r.1 + 8 * r.2 ≤ h.brk
  header : ∀ b ∈ bs, h.size b.addr = b.units
  inUse : ∀ b ∈ bs, 0 < b.units ∧ h.base + 8 ≤ b.addr ∧ ∀ k < 8 * b.units, h.Owned (b.addr + k)
  apart : ∀ b ∈ bs, ∀ x ∈ ps, x ≠ h.base → b.Apart (h.block x)
  disjoint : bs.Pairwise Block.Apart

section

variable {h h' : Heap} {ps : List ℕ} {bs : List Block} {b : Block} {p q x n : ℕ} {A R l : List ℕ}
  {y s fuel nu enough : ℕ}

/-! ### Reading what was written -/

@[simp] theorem ptr_setPtr (h : Heap) (p q x : ℕ) :
    (h.setPtr p q).ptr x = if x = p then q else h.ptr x := by
  by_cases hx : x = p
  · simp [setPtr, ptr, hx]
  · simp [setPtr, ptr, hx]

@[simp] theorem size_setPtr (h : Heap) (p q x : ℕ) : (h.setPtr p q).size x = h.size x := by
  by_cases hx : x = p
  · simp [setPtr, size, hx]
  · simp [setPtr, size, hx]

@[simp] theorem ptr_setSize (h : Heap) (p n x : ℕ) : (h.setSize p n).ptr x = h.ptr x := by
  by_cases hx : x = p
  · simp [setSize, ptr, hx]
  · simp [setSize, ptr, hx]

@[simp] theorem size_setSize (h : Heap) (p n x : ℕ) :
    (h.setSize p n).size x = if x = p then n else h.size x := by
  by_cases hx : x = p
  · simp [setSize, size, hx]
  · simp [setSize, size, hx]

@[simp] theorem ptr_setFreep (h : Heap) (p x : ℕ) : (h.setFreep p).ptr x = h.ptr x := rfl

@[simp] theorem size_setFreep (h : Heap) (p x : ℕ) : (h.setFreep p).size x = h.size x := rfl

/-! ### The list -/

section

variable (hl : FreeList h ps)

include hl

theorem FreeList.eq_cons : ps = h.base :: ps.tail := by
  have hhead := hl.head
  cases ps with
  | nil => cases hhead
  | cons c l =>
    cases hhead
    rfl

theorem FreeList.mem_base : h.base ∈ ps := List.mem_of_mem_head? hl.head

theorem FreeList.base_le (hx : x ∈ ps) : h.base ≤ x := by
  by_cases hb : x = h.base
  · exact hb.ge
  · have := (hl.size x hx hb).2
    omega

theorem FreeList.nodup : ps.Nodup :=
  hl.ascending.imp fun hxy => hxy.1.ne

theorem FreeList.unique {ps' : List ℕ} (hl' : FreeList h ps') : ps = ps' := by
  have hnodup := hl.nodup
  have hnodup' := hl'.nodup
  have hlinks := hl.links
  have hlinks' := hl'.links
  rw [hl.eq_cons] at hlinks hnodup ⊢
  rw [hl'.eq_cons] at hlinks' hnodup' ⊢
  rw [hlinks.unique (List.nodup_cons.1 hnodup).1 hlinks' (List.nodup_cons.1 hnodup').1]

theorem FreeList.next (hps : ps = A ++ x :: R) :
    R = [] ∧ h.ptr x = h.base ∨ ∃ y R', R = y :: R' ∧ h.ptr x = y := by
  have hlinks := hl.links
  rw [hps, List.append_assoc] at hlinks
  have hback := (links_split.1 hlinks).2
  cases R with
  | nil => exact Or.inl ⟨rfl, (links_cons_cons.1 hback).1⟩
  | cons y R' => exact Or.inr ⟨y, R', rfl, (links_cons_cons.1 hback).1⟩

theorem FreeList.lt_of_mem (hps : ps = A ++ x :: R) (hy : y ∈ R) : x < y ∧ (h.block x).stop ≤ y := by
  have hasc := hl.ascending
  rw [hps, List.pairwise_append] at hasc
  exact (List.pairwise_cons.1 hasc.2.1).1 y hy

end

theorem HeapOk.perm (ho : HeapOk h ps bs) {bs' : List Block} (hp : bs.Perm bs') :
    HeapOk h ps bs' where
  toFreeList := ho.toFreeList
  low := ho.low
  regions := ho.regions
  header b hb := ho.header b (hp.mem_iff.2 hb)
  inUse b hb := ho.inUse b (hp.mem_iff.2 hb)
  apart b hb := ho.apart b (hp.mem_iff.2 hb)
  disjoint := (hp.pairwise_iff fun h => Block.Apart.symm h).1 ho.disjoint

theorem HeapOk.addr_ne (ho : HeapOk h ps bs) (hb : b ∈ bs) (hx : x ∈ ps) : b.addr ≠ x := by
  rintro rfl
  obtain ⟨hunits, hlow, -⟩ := ho.inUse b hb
  have hne : b.addr ≠ h.base := by omega
  have hstop : b.stop = b.addr + 8 * b.units := rfl
  have hblock : (h.block b.addr).stop = b.addr + 8 * h.size b.addr := rfl
  have hpos := (ho.size b.addr hx hne).1
  rcases ho.apart b hb b.addr hx hne with hle | hle
  · have : b.stop ≤ b.addr := hle
    omega
  · omega

/-! ### Blocks side by side -/

/-- Blocks of owned bytes from `lo` on, apart from each other. -/
structure Tiled (own : ℕ → Prop) (lo : ℕ) (l : List Block) : Prop where
  sound : ∀ b ∈ l, 0 < b.units ∧ lo ≤ b.addr ∧ ∀ k < 8 * b.units, own (b.addr + k)
  apart : l.Pairwise Block.Apart

section
variable {own : ℕ → Prop} {lo s t : ℕ} {l l' : List Block} {b : Block}

theorem Tiled.perm (h : Tiled own lo l) (hp : l.Perm l') : Tiled own lo l' where
  sound b hb := h.sound b (hp.mem_iff.2 hb)
  apart := (hp.pairwise_iff fun h => Block.Apart.symm h).1 h.apart

theorem tiled_cons : Tiled own lo (b :: l) ↔
    (0 < b.units ∧ lo ≤ b.addr ∧ ∀ k < 8 * b.units, own (b.addr + k)) ∧ (∀ c ∈ l, b.Apart c) ∧
      Tiled own lo l := by
  constructor
  · intro h
    obtain ⟨hb, hl⟩ := List.forall_mem_cons.1 h.sound
    obtain ⟨happart, hrest⟩ := List.pairwise_cons.1 h.apart
    exact ⟨hb, happart, hl, hrest⟩
  · rintro ⟨hb, happart, h⟩
    exact ⟨List.forall_mem_cons.2 ⟨hb, h.sound⟩, List.pairwise_cons.2 ⟨happart, h.apart⟩⟩

theorem Tiled.mono {own' : ℕ → Prop} (h : Tiled own lo l) (hown : ∀ x, own x → own' x) : Tiled own' lo l where
  sound b hb := ⟨(h.sound b hb).1, (h.sound b hb).2.1, fun k hk => hown _ ((h.sound b hb).2.2 k hk)⟩
  apart := h.apart

theorem Tiled.merge (h : Tiled own lo (⟨x, s⟩ :: ⟨x + 8 * s, t⟩ :: l)) : Tiled own lo (⟨x, s + t⟩ :: l) := by
  obtain ⟨⟨hs, hlo, hown⟩, hfirst, h⟩ := tiled_cons.1 h
  obtain ⟨⟨ht, -, hown'⟩, hsecond, h⟩ := tiled_cons.1 h
  refine tiled_cons.2 ⟨⟨Nat.add_pos_left hs t, hlo, fun k hk => ?_⟩, fun c hc => ?_, h⟩
  · by_cases hlow : k < 8 * s
    · exact hown k hlow
    · have hk' := hown' (k - 8 * s) (by dsimp only at hk ⊢; omega)
      rwa [show x + 8 * s + (k - 8 * s) = x + k by omega] at hk'
  · have hpos := (h.sound c hc).1
    have hleft := hfirst c (List.mem_cons_of_mem _ hc)
    have hright := hsecond c hc
    simp only [Block.Apart, Block.stop] at hleft hright ⊢
    omega

theorem Tiled.cut (h : Tiled own lo (⟨x, s⟩ :: l)) {r n : ℕ} (hr : 0 < r) (hn : 0 < n) (hle : r + n ≤ s) :
    Tiled own lo (⟨x, r⟩ :: ⟨x + 8 * r, n⟩ :: l) := by
  obtain ⟨⟨-, hlo, hown⟩, happart, h⟩ := tiled_cons.1 h
  refine tiled_cons.2 ⟨⟨hr, hlo, fun k hk => hown k ?_⟩, fun c hc => ?_, tiled_cons.2
    ⟨⟨hn, hlo.trans (Nat.le_add_right ..), fun k hk => ?_⟩, fun c hc => ?_, h⟩⟩
  · dsimp only at hk ⊢
    omega
  · rcases List.mem_cons.1 hc with rfl | hc
    · exact .inl le_rfl
    · have := happart c hc
      simp only [Block.Apart, Block.stop] at this ⊢
      omega
  · have hk' := hown (8 * r + k) (by dsimp only at hk ⊢; omega)
    rwa [← Nat.add_assoc] at hk'
  · have := happart c hc
    simp only [Block.Apart, Block.stop] at this ⊢
    omega

end

/-- The blocks of the free list; `base` is none. -/
def blocks (h : Heap) (ps : List ℕ) : List Block := (ps.filter (· ≠ h.base)).map h.block

theorem mem_blocks {h : Heap} {ps : List ℕ} {c : Block} :
    c ∈ h.blocks ps ↔ ∃ x ∈ ps, x ≠ h.base ∧ h.block x = c := by
  simp [blocks, and_assoc]

section

variable (ho : HeapOk h ps bs)

include ho

theorem HeapOk.tiled : Tiled h.Owned (h.base + 8) (h.blocks ps ++ bs) where
  sound c hc := by
    rcases List.mem_append.1 hc with hc | hc
    · obtain ⟨x, hx, hxb, rfl⟩ := mem_blocks.1 hc
      exact ⟨(ho.size x hx hxb).1, (ho.size x hx hxb).2, ho.owned x hx⟩
    · exact ho.inUse c hc
  apart := by
    refine List.pairwise_append.2 ⟨?_, ho.disjoint, fun c hc d hd => ?_⟩
    · exact (ho.ascending.filter _).map h.block fun _ _ hxy => .inl hxy.2
    · obtain ⟨x, hx, hxb, rfl⟩ := mem_blocks.1 hc
      exact (ho.apart d hd x hx hxb).symm

theorem HeapOk.tiled_stop_le (hb : b ∈ h.blocks ps ++ bs) : b.stop ≤ h.brk := by
  obtain ⟨hunits, -, howned⟩ := ho.tiled.sound b hb
  obtain ⟨r, hr, -, hlt⟩ := howned (8 * b.units - 1) (by omega)
  have := ho.regions r hr
  simp only [Block.stop]
  omega

theorem HeapOk.stop_le (hx : x ∈ ps) (hs : 0 < h.size x) : (h.block x).stop ≤ h.brk := by
  refine ho.tiled_stop_le (List.mem_append_left _ (mem_blocks.2 ⟨x, hx, ?_, rfl⟩))
  rintro rfl
  exact hs.ne' ho.baseSize

theorem HeapOk.inUse_stop_le (hb : b ∈ bs) : b.stop ≤ h.brk :=
  ho.tiled_stop_le (List.mem_append_right _ hb)

theorem HeapOk.lt_brk (hx : x ∈ ps) : x < h.brk := by
  by_cases hxb : x = h.base
  · have := ho.low
    omega
  · have hpos := (ho.size x hx hxb).1
    have hle := ho.stop_le hx hpos
    simp only [Block.stop, block] at hle
    omega

theorem HeapOk.length_le : ps.length ≤ h.brk := by
  have hsub : ps.toFinset ⊆ Finset.range h.brk := fun x hx =>
    Finset.mem_range.2 (ho.lt_brk (List.mem_toFinset.1 hx))
  rw [← List.toFinset_card_of_nodup ho.nodup, ← Finset.card_range h.brk]
  exact Finset.card_le_card hsub

end

theorem HeapOk.of_tiled {h' : Heap} (hhead : ps.head? = some h'.base) (hlinks : Links h'.ptr (ps ++ [h'.base]))
    (hfreep : h'.freep ∈ ps) (hsorted : ps.Pairwise (· < ·)) (hbase : h'.size h'.base = 0)
    (htiled : Tiled h'.Owned (h'.base + 8) (h'.blocks ps ++ bs)) (hheader : ∀ b ∈ bs, h'.size b.addr = b.units)
    (hlow : h'.base + 8 ≤ h'.brk) (hregions : ∀ r ∈ h'.regions, r.1 + 8 * r.2 ≤ h'.brk) : HeapOk h' ps bs := by
  obtain ⟨hfree, hused, hapart⟩ := List.pairwise_append.1 htiled.apart
  have hsound : ∀ x ∈ ps, x ≠ h'.base → 0 < h'.size x ∧ h'.base + 8 ≤ x ∧ ∀ k < 8 * h'.size x, h'.Owned (x + k) :=
    fun x hx hxb => htiled.sound _ (List.mem_append_left _ (mem_blocks.2 ⟨x, hx, hxb, rfl⟩))
  refine ⟨⟨hhead, hlinks, hfreep, ?_, hbase, fun x hx hxb => ⟨(hsound x hx hxb).1, (hsound x hx hxb).2.1⟩, ?_⟩,
    hlow, hregions, hheader, fun b hb => htiled.sound b (List.mem_append_right _ hb), fun c hc x hx hxb => ?_, hused⟩
  · refine hsorted.imp_of_mem fun {x y} hx hy hxy => ⟨hxy, ?_⟩
    by_cases hxb : x = h'.base
    · subst hxb
      change h'.base + 8 * h'.size h'.base ≤ y
      omega
    · have hle := (hsound x hx hxb).2.1
      have hyb : y ≠ h'.base := by omega
      have hne : h'.block x ≠ h'.block y := fun hc => hxy.ne (congrArg Block.addr hc)
      have happart := hfree.forall (mem_blocks.2 ⟨x, hx, hxb, rfl⟩) (mem_blocks.2 ⟨y, hy, hyb, rfl⟩) hne
      simp only [Block.Apart, Block.stop, block] at happart ⊢
      omega
  · intro x hx k hk
    by_cases hxb : x = h'.base
    · rw [hxb, hbase] at hk
      omega
    · exact (hsound x hx hxb).2.2 k hk
  · exact (hapart _ (mem_blocks.2 ⟨x, hx, hxb, rfl⟩) c hc).symm

theorem blocks_cons {h : Heap} (hx : x ≠ h.base) (l : List ℕ) :
    h.blocks (x :: l) = h.block x :: h.blocks l := by
  simp [blocks, hx]

theorem blocks_perm (h : Heap) {l' : List ℕ} (hp : l.Perm l') : (h.blocks l).Perm (h.blocks l') :=
  (hp.filter _).map _

theorem units_cons (h : Heap) (x : ℕ) (l : List ℕ) : h.units (x :: l) = h.size x + h.units l := by
  simp [Heap.units]

theorem units_perm (h : Heap) {l' : List ℕ} (hp : l.Perm l') : h.units l = h.units l' :=
  (hp.map _).sum_eq

theorem blocks_congr (hbase : h'.base = h.base) (hsize : ∀ x ∈ ps, h'.size x = h.size x) :
    h'.blocks ps = h.blocks ps := by
  rw [blocks, blocks, hbase]
  refine List.map_congr_left fun x hx => ?_
  rw [block, block, hsize x (List.mem_of_mem_filter hx)]

theorem units_congr (hsize : ∀ x ∈ ps, h'.size x = h.size x) : h'.units ps = h.units ps :=
  congrArg List.sum (List.map_congr_left hsize)

theorem FreeList.sorted (hl : FreeList h ps) : ps.Pairwise (· < ·) := hl.ascending.imp fun hxy => hxy.1

theorem HeapOk.write (ho : HeapOk h ps bs) {mem : ℕ → Header}
    (hmem : ∀ x, (∀ b ∈ bs, x ≤ b.addr ∨ b.stop ≤ x) → mem x = h.mem x) :
    HeapOk { h with mem := mem } ps bs ∧ Heap.units { h with mem := mem } ps = h.units ps := by
  have hps : ∀ x ∈ ps, mem x = h.mem x := by
    refine fun x hx => hmem x fun b hb => ?_
    by_cases hxb : x = h.base
    · have := (ho.inUse b hb).2.1
      omega
    · rcases ho.apart b hb x hx hxb with hle | hle
      · exact Or.inr hle
      · left
        change x + 8 * h.size x ≤ b.addr at hle
        omega
  have hbs : ∀ c ∈ bs, mem c.addr = h.mem c.addr := by
    refine fun c hc => hmem c.addr fun b hb => ?_
    by_cases hbc : b = c
    · exact Or.inl (hbc ▸ le_refl _)
    · rcases ho.disjoint.forall hb hc hbc with hle | hle
      · exact Or.inr hle
      · left
        change c.addr + 8 * c.units ≤ b.addr at hle
        omega
  set h₁ : Heap := { h with mem := mem }
  have hsize : ∀ x ∈ ps, h₁.size x = h.size x := fun x hx => congrArg Header.size (hps x hx)
  refine ⟨.of_tiled ho.head ?_ ho.freep ho.sorted ((hsize _ ho.mem_base).trans ho.baseSize) ?_ ?_ ho.low ho.regions,
    units_congr hsize⟩
  · exact ho.links.congr fun x hx => congrArg Header.ptr (hps x hx)
  · rw [blocks_congr (show h₁.base = h.base from rfl) hsize]
    exact ho.tiled
  · exact fun c hc => (congrArg Header.size (hbs c hc)).trans (ho.header c hc)

/-! ### Where a block belongs -/

/-- The list around the place of a block that is apart from all of it. -/
structure Place (h : Heap) (ps : List ℕ) (b : Block) (A : List ℕ) (p : ℕ) (R : List ℕ) : Prop where
  split : ps = A ++ p :: R
  front : ∀ x ∈ A, x < b.addr ∧ (h.block x).stop ≤ b.addr
  place : p < b.addr ∧ (h.block p).stop ≤ b.addr
  back : ∀ y ∈ R, b.stop ≤ y

theorem HeapOk.exists_place (ho : HeapOk h ps (b :: bs)) : ∃ A p R, Place h ps b A p R := by
  obtain ⟨hunits, hlow, -⟩ := ho.inUse b List.mem_cons_self
  have hbase : h.size h.base = 0 := ho.baseSize
  obtain ⟨l, rfl⟩ : ∃ l, ps = h.base :: l := ⟨_, ho.eq_cons⟩
  -- every element lies on one side of the block
  have hside : ∀ x ∈ h.base :: l, (h.block x).stop ≤ b.addr ∨ b.stop ≤ x := by
    intro x hx
    by_cases hxb : x = h.base
    · left
      show x + 8 * h.size x ≤ b.addr
      rw [hxb, hbase]
      omega
    · exact Or.symm (ho.apart b List.mem_cons_self x hx hxb)
  have hsize : ∀ x ∈ h.base :: l, x < b.addr → (h.block x).stop ≤ b.addr := by
    intro x hx hlt
    rcases hside x hx with hle | hle
    · exact hle
    · have : b.stop = b.addr + 8 * b.units := rfl
      omega
  have hne : ∀ x ∈ l, x ≠ b.addr := by
    rintro x hx rfl
    obtain ⟨hpos, -⟩ := ho.size b.addr (List.mem_cons_of_mem _ hx) (by omega)
    have hblock : (h.block b.addr).stop = b.addr + 8 * h.size b.addr := rfl
    have : b.stop = b.addr + 8 * b.units := rfl
    rcases hside b.addr (List.mem_cons_of_mem _ hx) with hle | hle
    · omega
    · omega
  obtain ⟨A, p, R, hsplit, hA, hp, hR⟩ :=
    Ring.exists_place (ho.ascending.imp fun hxy => hxy.1) (by omega) hne
  refine ⟨A, p, R, hsplit, fun x hx => ⟨hA x hx, hsize x ?_ (hA x hx)⟩, ⟨hp, hsize p ?_ hp⟩,
    fun y hy => ?_⟩
  · rw [hsplit]
    exact List.mem_append_left _ hx
  · rw [hsplit]
    exact List.mem_append_right _ List.mem_cons_self
  · have hmem : y ∈ h.base :: l := by
      rw [hsplit]
      exact List.mem_append_right _ (List.mem_cons_of_mem p hy)
    have hgt := hR y hy
    rcases hside y hmem with hle | hle
    · have : (h.block y).stop = y + 8 * h.size y := rfl
      omega
    · exact hle

theorem Place.fits_iff (ho : HeapOk h ps (b :: bs)) (hpl : Place h ps b A p R)
    (hx : x ∈ ps) : h.Fits b.addr x ↔ x = p := by
  obtain ⟨hunits, hlow, -⟩ := ho.inUse b List.mem_cons_self
  have hstop : b.stop = b.addr + 8 * b.units := rfl
  have hps := hpl.split
  constructor
  · intro hfit
    by_contra hne
    rw [hps] at hx
    rcases List.mem_append.1 hx with hA | hpR
    · -- before the place the next element is still below the block
      obtain ⟨A₁, A₂, rfl⟩ := List.append_of_mem hA
      have hps' : ps = A₁ ++ x :: (A₂ ++ p :: R) := by
        rw [hps]
        simp
      rcases ho.toFreeList.next hps' with ⟨hnil, -⟩ | ⟨y, R', hy, hptr⟩
      · simp at hnil
      · have hmem : y ∈ A₂ ++ p :: R := hy ▸ List.mem_cons_self
        have hxy := (ho.toFreeList.lt_of_mem hps' hmem).1
        have hyb : y < b.addr := by
          cases A₂ with
          | nil =>
            cases hy
            exact hpl.place.1
          | cons c A₂ =>
            cases hy
            exact (hpl.front y (by simp)).1
        rw [Fits, hptr] at hfit
        omega
    · rcases List.mem_cons.1 hpR with rfl | hR
      · exact hne rfl
      · obtain ⟨R₁, R₂, rfl⟩ := List.append_of_mem hR
        have hps' : ps = (A ++ p :: R₁) ++ x :: R₂ := by
          rw [hps]
          simp
        have hbx := hpl.back x hR
        rcases ho.toFreeList.next hps' with ⟨-, hptr⟩ | ⟨y, R', rfl, hptr⟩
        · rw [Fits, hptr] at hfit
          omega
        · have hxy := (ho.toFreeList.lt_of_mem hps' List.mem_cons_self).1
          rw [Fits, hptr] at hfit
          omega
  · rintro rfl
    have hpb := hpl.place.1
    rcases ho.toFreeList.next hps with ⟨-, hptr⟩ | ⟨y, R', rfl, hptr⟩
    · right
      rw [hptr]
      exact ⟨ho.toFreeList.base_le hx, Or.inl hpb⟩
    · left
      have := hpl.back y List.mem_cons_self
      rw [hptr]
      omega

theorem findPlace_eq {z : ℕ} (hlinks : Links h.ptr (s :: l ++ [z]))
    (hp : p ∈ s :: l) (hfit : ∀ x ∈ s :: l, h.Fits b.addr x ↔ x = p) (hfuel : l.length < fuel) :
    findPlace h b.addr fuel s = .ok p := by
  induction l generalizing s fuel with
  | nil =>
    obtain rfl := List.mem_singleton.1 hp
    obtain ⟨fuel, rfl⟩ : ∃ k, fuel = k + 1 := ⟨fuel - 1, by omega⟩
    rw [findPlace, if_pos ((hfit p List.mem_cons_self).2 rfl)]
  | cons d l ih =>
    obtain ⟨fuel, rfl⟩ : ∃ k, fuel = k + 1 := ⟨fuel - 1, by omega⟩
    rw [findPlace]
    split_ifs with hs
    · rw [(hfit s List.mem_cons_self).1 hs]
    · obtain ⟨hnext, hrest⟩ := links_cons_cons.1 hlinks
      rw [hnext]
      have hpl : p ∈ d :: l := by
        rcases List.mem_cons.1 hp with rfl | hp
        · exact absurd ((hfit p List.mem_cons_self).2 rfl) hs
        · exact hp
      refine ih hrest hpl (fun x hx => hfit x (List.mem_cons_of_mem s hx)) ?_
      rw [List.length_cons] at hfuel
      omega

theorem HeapOk.findPlace_of_length (ho : HeapOk h ps (b :: bs))
    (hpl : Place h ps b A p R) (hfuel : ps.length ≤ fuel) : findPlace h b.addr fuel h.freep = .ok p := by
  have hring : Links h.ptr (h.base :: ps.tail ++ [h.base]) := by
    rw [← ho.eq_cons]
    exact ho.links
  obtain ⟨l, hl, hperm⟩ := hring.rotate (ho.eq_cons ▸ ho.freep)
  rw [← ho.eq_cons] at hperm
  refine findPlace_eq hl (hperm.mem_iff.2 ?_) (fun x hx => hpl.fits_iff ho (hperm.mem_iff.1 hx)) ?_
  · rw [hpl.split]
    exact List.mem_append_right _ List.mem_cons_self
  · have hlen := hperm.length_eq
    rw [List.length_cons] at hlen
    omega

theorem HeapOk.findPlace (ho : HeapOk h ps (b :: bs)) (hpl : Place h ps b A p R) :
    findPlace h b.addr (h.brk + 2) h.freep = .ok p :=
  ho.findPlace_of_length hpl (ho.length_le.trans (Nat.le_add_right _ 2))

/-! ### Linking and merging -/

/-- A block put on the list after `p`. -/
def link (h : Heap) (p bp : ℕ) : Heap := (h.setPtr bp (h.ptr p)).setPtr p bp

/-- The block `x` of the list joined with the one after it. -/
def merge (h : Heap) (x : ℕ) : Heap :=
  (h.setSize x (h.size x + h.size (h.ptr x))).setPtr x (h.ptr (h.ptr x))

theorem joinUpper_link (h : Heap) {p bp : ℕ} (hne : p ≠ bp)
    (hU : bp + 8 * h.size bp = h.ptr p → h.ptr p ≠ p ∧ h.ptr p ≠ bp) :
    (h.joinUpper p bp).setPtr p bp =
      if bp + 8 * h.size bp = h.ptr p then (h.link p bp).merge bp else h.link p bp := by
  unfold joinUpper
  split_ifs with hc
  · obtain ⟨h1, h2⟩ := hU hc
    unfold link merge setPtr setSize ptr size at *
    congr 1
    funext x
    by_cases hxp : x = p
    · subst hxp
      simp [hne, hne.symm, h1, h2]
    · by_cases hxb : x = bp
      · subst hxb
        simp [hne, hne.symm, h1, h2]
      · simp [hxp, hxb]
  · rfl

theorem joinLower_eq (h : Heap) {p bp : ℕ} (hne : p ≠ bp) :
    h.joinLower p bp =
      if p + 8 * h.size p = bp then (h.setPtr p bp).merge p else h.setPtr p bp := by
  unfold joinLower
  split_ifs
  · unfold merge setPtr setSize ptr size
    congr 1
    funext x
    by_cases hx : x = p
    · subst hx
      simp [hne.symm]
    · simp [hx]
  · rfl

@[simp] theorem ptr_link (h : Heap) (p bp x : ℕ) :
    (h.link p bp).ptr x = if x = p then bp else if x = bp then h.ptr p else h.ptr x := by
  simp [link]

@[simp] theorem size_link (h : Heap) (p bp x : ℕ) : (h.link p bp).size x = h.size x := by
  simp [link]

theorem ptr_merge (h : Heap) (x y : ℕ) :
    (h.merge x).ptr y = if y = x then h.ptr (h.ptr x) else h.ptr y := by
  simp [merge]

theorem size_merge (h : Heap) (x y : ℕ) :
    (h.merge x).size y = if y = x then h.size x + h.size (h.ptr x) else h.size y := by
  simp [merge]

theorem head_append {R' : List ℕ} (hhead : (A ++ p :: R).head? = some x) :
    (A ++ p :: R').head? = some x := by
  cases A with
  | nil => exact hhead
  | cons a A => exact hhead

theorem Place.not_mem (hpl : Place h ps b A p R) (hunits : 0 < b.units) :
    b.addr ∉ A ∧ b.addr ≠ p ∧ b.addr ∉ R := by
  refine ⟨fun hA => ?_, fun hp => ?_, fun hR => ?_⟩
  · exact lt_irrefl _ (hpl.front _ hA).1
  · exact lt_irrefl _ (hp ▸ hpl.place.1)
  · have := hpl.back _ hR
    have hstop : b.stop = b.addr + 8 * b.units := rfl
    omega

theorem Place.perm (hpl : Place h ps b A p R) :
    (A ++ p :: b.addr :: R).Perm (b.addr :: ps) := by
  rw [hpl.split]
  simpa using @List.perm_middle _ b.addr (A ++ [p]) R

theorem HeapOk.link (ho : HeapOk h ps (b :: bs)) (hpl : Place h ps b A p R) :
    HeapOk (h.link p b.addr) (A ++ p :: b.addr :: R) bs := by
  obtain ⟨hunits, hlow, -⟩ := ho.inUse b List.mem_cons_self
  have hblock : h.block b.addr = b := by
    rw [block, ho.header b List.mem_cons_self]
  obtain ⟨hbA, hbp, hbR⟩ := hpl.not_mem hunits
  have hps := hpl.split
  have hnodup := ho.nodup
  rw [hps, List.nodup_append, List.nodup_cons] at hnodup
  refine .of_tiled (head_append (hps ▸ ho.head)) ?_ ?_ ?_ ((size_link ..).trans ho.baseSize) ?_
    (fun c hc => (size_link ..).trans (ho.header c (List.mem_cons_of_mem b hc))) ho.low ho.regions
  · have hlinks := ho.links
    rw [hps, List.append_assoc] at hlinks
    rw [List.append_assoc]
    refine Links.insertAfter hlinks ?_ ?_ (fun x hx => ?_) fun x hx => ?_
    · simp
    · simp [hbp]
    · have hxp : x ≠ p := fun hc => hnodup.2.2 x hx p List.mem_cons_self hc
      have hxb : x ≠ b.addr := fun hc => hbA (hc ▸ hx)
      simp [hxp, hxb]
    · have hxp : x ≠ p := fun hc => hnodup.2.1.1 (hc ▸ hx)
      have hxb : x ≠ b.addr := fun hc => hbR (hc ▸ hx)
      simp [hxp, hxb]
  · exact hpl.perm.mem_iff.2 (List.mem_cons_of_mem _ ho.freep)
  · have hback : ∀ y ∈ R, b.addr < y := by
      intro y hy
      have hle := hpl.back y hy
      simp only [Block.stop] at hle
      omega
    have hsorted := ho.sorted
    rw [hps, List.pairwise_append, List.pairwise_cons] at hsorted
    obtain ⟨hA, ⟨hpR, hR⟩, hcross⟩ := hsorted
    rw [List.pairwise_append, List.pairwise_cons, List.pairwise_cons]
    refine ⟨hA, ⟨List.forall_mem_cons.2 ⟨hpl.place.1, hpR⟩, hback, hR⟩, fun x hx => ?_⟩
    obtain ⟨hxp, hxR⟩ := List.forall_mem_cons.1 (hcross x hx)
    exact List.forall_mem_cons.2 ⟨hxp, List.forall_mem_cons.2 ⟨(hpl.front x hx).1, hxR⟩⟩
  · rw [blocks_congr (show (h.link p b.addr).base = h.base from rfl) fun x _ => size_link h p b.addr x]
    have hfree := h.blocks_perm hpl.perm
    rw [blocks_cons (by omega), hblock] at hfree
    exact (ho.tiled.perm List.perm_middle).perm (hfree.symm.append_right bs)

theorem HeapOk.units_link (ho : HeapOk h ps (b :: bs)) (hpl : Place h ps b A p R) :
    (h.link p b.addr).units (A ++ p :: b.addr :: R) = h.units ps + b.units := by
  rw [units_congr (h := h) fun x _ => size_link h p b.addr x, h.units_perm hpl.perm, units_cons,
    ho.header b List.mem_cons_self, Nat.add_comm]

theorem HeapOk.merge (ho : HeapOk h ps bs) (hps : ps = A ++ x :: y :: R)
    (htouch : x + 8 * h.size x = y) (hfreep : h.freep ≠ y) :
    HeapOk (h.merge x) (A ++ x :: R) bs ∧ (h.merge x).units (A ++ x :: R) = h.units ps := by
  have hx : x ∈ ps := by simp [hps]
  have hnodup := ho.nodup
  rw [hps, List.nodup_append, List.nodup_cons] at hnodup
  have hxA : ∀ z ∈ A, z ≠ x := fun z hz => hnodup.2.2 z hz x List.mem_cons_self
  have hxR : ∀ z ∈ R, z ≠ x := by
    rintro z hz rfl
    exact hnodup.2.1.1 (List.mem_cons_of_mem y hz)
  have hxy : x < y := (ho.toFreeList.lt_of_mem hps List.mem_cons_self).1
  have hxbase : x ≠ h.base := by
    rintro rfl
    have := ho.baseSize
    omega
  have hybase : y ≠ h.base := by
    have := ho.toFreeList.base_le hx
    omega
  have hptr : h.ptr x = y := by
    rcases ho.toFreeList.next hps with ⟨hnil, -⟩ | ⟨y', R', hcons, hptr⟩
    · cases hnil
    · cases hcons
      exact hptr
  have hsize : (h.merge x).size x = h.size x + h.size y := by rw [size_merge, if_pos rfl, hptr]
  have hsame : ∀ {z}, z ≠ x → (h.merge x).size z = h.size z := fun hz => by
    rw [size_merge, if_neg hz]
  have hAR : ∀ z ∈ A ++ R, (h.merge x).size z = h.size z := fun z hz =>
    hsame ((List.mem_append.1 hz).elim (hxA z) (hxR z))
  have hbefore : ps.Perm (x :: y :: (A ++ R)) := by
    rw [hps]
    exact List.perm_middle.trans (List.perm_middle.cons x)
  refine ⟨.of_tiled (head_append (hps ▸ ho.head)) ?_ ?_ ?_ ((hsame hxbase.symm).trans ho.baseSize) ?_
    (fun c hc => (hsame (ho.addr_ne hc hx)).trans (ho.header c hc)) ho.low ho.regions, ?_⟩
  · have hlinks := ho.links
    rw [hps, List.append_assoc] at hlinks
    rw [List.append_assoc]
    refine Links.removeAfter hlinks ?_ (fun z hz => ?_) fun z hz => ?_
    · rw [ptr_merge, if_pos rfl, hptr]
    · rw [ptr_merge, if_neg (hxA z hz)]
    · rw [ptr_merge, if_neg (hxR z hz)]
  · have hmem := ho.freep
    rw [hps] at hmem
    show h.freep ∈ A ++ x :: R
    simp only [List.mem_append, List.mem_cons] at hmem ⊢
    tauto
  · have hsorted := ho.sorted
    rw [hps] at hsorted
    exact hsorted.sublist ((List.Sublist.refl A).append ((List.sublist_cons_self y R).cons_cons x))
  · have htiled := ho.tiled.perm ((h.blocks_perm hbefore).append_right bs)
    rw [blocks_cons hxbase, blocks_cons hybase] at htiled
    subst htouch
    have hafter := (h.merge x).blocks_perm (@List.perm_middle _ x A R)
    rw [blocks_cons (h := h.merge x) hxbase, block, hsize,
      blocks_congr (show (h.merge x).base = h.base from rfl) hAR] at hafter
    exact htiled.merge.perm (hafter.symm.append_right bs)
  · rw [(h.merge x).units_perm List.perm_middle, h.units_perm hbefore, units_cons, units_cons, units_cons,
      units_congr hAR, hsize, Nat.add_assoc]

/-! ### `free` -/

/-- The parts of the state that only `sbrk` and the flag calls change. -/
structure SamePages (h h' : Heap) : Prop where
  base : h'.base = h.base
  brk : h'.brk = h.brk
  regions : h'.regions = h.regions
  pte1 : h'.pte1 = h.pte1
  pteW : h'.pteW = h.pteW
  protectedPages : h'.protectedPages = h.protectedPages

theorem HeapOk.setFreep (ho : HeapOk h ps bs) (hp : p ∈ ps) : HeapOk (h.setFreep p) ps bs :=
  { ho with freep := hp }

theorem joinUpper_setFreep (h : Heap) (p bp q : ℕ) :
    (h.setFreep q).joinUpper p bp = (h.joinUpper p bp).setFreep q := by
  unfold joinUpper
  rw [apply_ite (Heap.setFreep · q)]
  rfl

theorem joinLower_setFreep (h : Heap) (p bp q : ℕ) :
    (h.setFreep q).joinLower p bp = (h.joinLower p bp).setFreep q := by
  unfold joinLower
  rw [apply_ite (Heap.setFreep · q)]
  rfl

theorem HeapOk.joinUpper (ho : HeapOk h ps (b :: bs)) (hpl : Place h ps b A p R)
    (hfreep : h.freep = p) :
    ∃ h' R', h' = (h.joinUpper p b.addr).setPtr p b.addr ∧
      HeapOk h' (A ++ p :: b.addr :: R') bs ∧
      h'.units (A ++ p :: b.addr :: R') = h.units ps + b.units ∧
      R'.length ≤ R.length ∧ SamePages h h' ∧ h'.freep = p ∧ h'.size p = h.size p ∧
      b.units ≤ h'.size b.addr := by
  obtain ⟨hunits, hlow, -⟩ := ho.inUse b List.mem_cons_self
  have hsize : h.size b.addr = b.units := ho.header b List.mem_cons_self
  have hne : p ≠ b.addr := hpl.place.1.ne
  have hstop : b.stop = b.addr + 8 * b.units := rfl
  have hlinked := ho.link hpl
  have hsum := ho.units_link hpl
  by_cases hU : b.addr + 8 * h.size b.addr = h.ptr p
  · rcases ho.toFreeList.next hpl.split with ⟨rfl, hptr⟩ | ⟨y, R', rfl, hptr⟩
    · omega
    · have hpy : p < y := (ho.toFreeList.lt_of_mem hpl.split List.mem_cons_self).1
      have hby : b.stop ≤ y := hpl.back y List.mem_cons_self
      have hsplit : A ++ p :: b.addr :: y :: R' = (A ++ [p]) ++ b.addr :: y :: R' := by simp
      have htouch : b.addr + 8 * (h.link p b.addr).size b.addr = y := by
        rw [size_link]
        omega
      have hfy : (h.link p b.addr).freep ≠ y := by
        show h.freep ≠ y
        omega
      obtain ⟨hmerged, hkept⟩ := hlinked.merge hsplit htouch hfy
      have hlist : (A ++ [p]) ++ b.addr :: R' = A ++ p :: b.addr :: R' := by simp
      rw [hlist] at hmerged hkept
      refine ⟨(h.link p b.addr).merge b.addr, R', ?_, hmerged, hkept.trans hsum, ?_,
        ⟨rfl, rfl, rfl, rfl, rfl, rfl⟩, hfreep, ?_, ?_⟩
      · rw [joinUpper_link h hne fun _ => ⟨by omega, by omega⟩, if_pos hU]
      · simp
      · rw [size_merge, if_neg hne, size_link]
      · rw [size_merge, if_pos rfl, size_link, hsize]
        omega
  · refine ⟨h.link p b.addr, R, ?_, hlinked, hsum, le_refl _, ⟨rfl, rfl, rfl, rfl, rfl, rfl⟩, hfreep,
      size_link h p b.addr p, ?_⟩
    · rw [joinUpper_link h hne fun hc => absurd hc hU, if_neg hU]
    · rw [size_link, hsize]

theorem HeapOk.free (ho : HeapOk h ps (b :: bs)) :
    ∃ h' ps', h.free (b.addr + 8) = .ok h' ∧ HeapOk h' ps' bs ∧
      h'.units ps' = h.units ps + b.units ∧ ps'.length ≤ ps.length + 1 ∧ SamePages h h' ∧
      ∃ x ∈ ps', b.units ≤ h'.size x := by
  obtain ⟨A, p, R, hpl⟩ := ho.exists_place
  have hp : p ∈ ps := by simp [hpl.split]
  have hne : p ≠ b.addr := hpl.place.1.ne
  have hfree : h.free (b.addr + 8) =
      .ok (((h.setFreep p).joinUpper p b.addr).joinLower p b.addr) := by
    rw [Heap.free, Nat.add_sub_cancel, ho.findPlace hpl, joinUpper_setFreep, joinLower_setFreep]
    rfl
  obtain ⟨h₁, R', hh₁, ho₁, hsum, hlen, hsame, hfreep, hsize, hge⟩ :=
    (ho.setFreep hp).joinUpper (p := p) ⟨hpl.split, hpl.front, hpl.place, hpl.back⟩ rfl
  have hlower := joinLower_eq ((h.setFreep p).joinUpper p b.addr) hne
  rw [← hh₁, show ((h.setFreep p).joinUpper p b.addr).size p = h₁.size p by
    rw [hh₁, size_setPtr]] at hlower
  have hlist : ps.length = A.length + R.length + 1 := by
    rw [hpl.split, List.length_append, List.length_cons]
    omega
  rw [hfree, hlower]
  split_ifs with hL
  · -- the block below ends where this one begins
    obtain ⟨hmerged, hkept⟩ := ho₁.merge rfl hL (by omega)
    refine ⟨_, _, rfl, hmerged, hkept.trans hsum, ?_,
      ⟨hsame.base, hsame.brk, hsame.regions, hsame.pte1, hsame.pteW, hsame.protectedPages⟩, p, ?_, ?_⟩
    · rw [List.length_append, List.length_cons]
      omega
    · simp
    · have hptr : h₁.ptr p = b.addr := by rw [hh₁, ptr_setPtr, if_pos rfl]
      rw [size_merge, if_pos rfl, hptr]
      omega
  · refine ⟨_, _, rfl, ho₁, hsum, ?_,
      ⟨hsame.base, hsame.brk, hsame.regions, hsame.pte1, hsame.pteW, hsame.protectedPages⟩,
      b.addr, ?_, hge⟩
    · simp only [List.length_append, List.length_cons]
      omega
    · simp

/-! ### `morecore` -/

/-- What a search for a block changes: memory comes from `sbrk`, and the pages below the break keep
their entries. -/
structure Grows (h h' : Heap) : Prop where
  base : h'.base = h.base
  brk : h.brk ≤ h'.brk
  pte1 : ∀ v < pagesOf h.brk, h'.pte1 v = h.pte1 v
  unmarked : ∀ v, h.pte1 v = false → h'.pte1 v = false
  pteW : ∀ v < pagesOf h.brk, h'.pteW v = h.pteW v
  protectedPages : h'.protectedPages = h.protectedPages

theorem Grows.refl (h : Heap) : Grows h h :=
  ⟨rfl, le_refl _, fun _ _ => rfl, fun _ hv => hv, fun _ _ => rfl, rfl⟩

theorem Grows.same {h'' : Heap} (hg : Grows h h') (hs : SamePages h' h'') : Grows h h'' where
  base := hs.base.trans hg.base
  brk := hs.brk.symm ▸ hg.brk
  pte1 v hv := (congrFun hs.pte1 v).trans (hg.pte1 v hv)
  unmarked v hv := (congrFun hs.pte1 v).trans (hg.unmarked v hv)
  pteW v hv := (congrFun hs.pteW v).trans (hg.pteW v hv)
  protectedPages := hs.protectedPages.trans hg.protectedPages

theorem extend_grows (h : Heap) (gap nu : ℕ) : Grows h (h.extend gap nu) := by
  refine ⟨rfl, ?_, fun v hv => ?_, fun v hv => ?_, fun v hv => ?_, rfl⟩
  · show h.brk ≤ h.brk + gap + 8 * nu
    omega
  · exact if_neg fun hc => absurd hv (not_lt.2 hc.1)
  · show (if _ then false else h.pte1 v) = false
    split_ifs
    · rfl
    · exact hv
  · exact if_neg fun hc => absurd hv (not_lt.2 hc.1)

/-- What `sbrk` hands out is a block in use once its header is written. -/
theorem HeapOk.extend (ho : HeapOk h ps bs) (gap : ℕ) (hnu : 0 < nu) :
    HeapOk ((h.extend gap nu).setSize (h.brk + gap) nu) ps (⟨h.brk + gap, nu⟩ :: bs) ∧
      ((h.extend gap nu).setSize (h.brk + gap) nu).units ps = h.units ps := by
  have hlow := ho.low
  set h₁ := (h.extend gap nu).setSize (h.brk + gap) nu with hh₁
  have hptr : h₁.ptr = h.ptr := funext fun x => ptr_setSize _ _ _ x
  have hsize : ∀ {x}, x < h.brk → h₁.size x = h.size x := by
    intro x hx
    rw [hh₁, size_setSize, if_neg (by omega)]
    rfl
  have hps : ∀ x ∈ ps, h₁.size x = h.size x := fun x hx => hsize (ho.lt_brk hx)
  refine ⟨.of_tiled ho.head (by rw [hptr]; exact ho.links) ho.freep ho.sorted
    ((hps _ ho.mem_base).trans ho.baseSize) ?_ (List.forall_mem_cons.2 ⟨?_, fun c hc => ?_⟩) ?_
    (List.forall_mem_cons.2 ⟨le_rfl, fun r hr => ?_⟩), units_congr hps⟩
  · rw [blocks_congr (show h₁.base = h.base from rfl) hps]
    have howned : ∀ x, h.Owned x → h₁.Owned x := by
      rintro x ⟨r, hr, hin⟩
      exact ⟨r, List.mem_cons_of_mem _ hr, hin⟩
    refine (tiled_cons.2 ⟨⟨hnu, ?_, fun k hk => ?_⟩, fun c hc => .inr ?_, ho.tiled.mono howned⟩).perm
      List.perm_middle.symm
    · exact hlow.trans (Nat.le_add_right ..)
    · exact ⟨_, List.mem_cons_self, Nat.le_add_right _ k, Nat.add_lt_add_left hk _⟩
    · exact (ho.tiled_stop_le hc).trans (Nat.le_add_right ..)
  · rw [hh₁, size_setSize, if_pos rfl]
  · have hle := ho.inUse_stop_le hc
    have hpos := (ho.inUse c hc).1
    simp only [Block.stop] at hle
    rw [hsize (by omega)]
    exact ho.header c hc
  · show h.base + 8 ≤ h.brk + gap + 8 * nu
    omega
  · have := ho.regions r hr
    show r.1 + 8 * r.2 ≤ h.brk + gap + 8 * nu
    omega

/-- `morecore` fails and changes nothing, or it adds a block that is large enough. -/
theorem HeapOk.morecore (ho : HeapOk h ps bs) (grant : ℕ → Option ℕ) (nu : ℕ) :
    h.morecore grant nu = .ok (none, h) ∨
      ∃ h' ps', h.morecore grant nu = .ok (some h'.freep, h') ∧ HeapOk h' ps' bs ∧
        h'.units ps' + h.obtained = h.units ps + h'.obtained ∧ ps'.length ≤ ps.length + 1 ∧
        Grows h h' ∧ ∃ x ∈ ps', nu ≤ h'.size x ∧ 4096 ≤ h'.size x := by
  have hge : nu ≤ atLeast nu ∧ 4096 ≤ atLeast nu := by
    unfold atLeast
    split_ifs <;> omega
  unfold Heap.morecore sbrk
  cases grant h.brk with
  | none => exact Or.inl rfl
  | some gap =>
    dsimp only
    split_ifs
    · obtain ⟨ho₁, hsum₁⟩ := ho.extend gap (show 0 < atLeast nu by omega)
      obtain ⟨h₂, ps₂, hfree, ho₂, hsum₂, hlen, hsame, x, hx, hxsize⟩ := ho₁.free
      right
      refine ⟨h₂, ps₂, ?_, ho₂, ?_, hlen, ?_, x, hx, hge.1.trans hxsize, hge.2.trans hxsize⟩
      · dsimp only at hfree ⊢
        rw [hfree]
        rfl
      · have hobt : h₂.obtained = atLeast nu + h.obtained := by
          unfold obtained
          rw [hsame.regions]
          rfl
        rw [hobt, hsum₂, hsum₁]
        show h.units ps + atLeast nu + h.obtained = h.units ps + (atLeast nu + h.obtained)
        omega
      · have hg := extend_grows h gap (atLeast nu)
        have hg' : Grows h ((h.extend gap (atLeast nu)).setSize (h.brk + gap) (atLeast nu)) :=
          ⟨hg.base, hg.brk, hg.pte1, hg.unmarked, hg.pteW, hg.protectedPages⟩
        exact hg'.same hsame
    · exact Or.inl rfl

/-! ### The search -/

/-- One pass of a loop over the list, from `s`: it stops in front of a block that is large enough, or it
asks for memory at the end. -/
theorem pass {β : Type*} {F : ℕ → ℕ → β} (found : ℕ → β) {ask : ℕ → β}
    (hF : ∀ fuel s, F (fuel + 1) s = if enough ≤ h.size (h.ptr s) then found s
      else if h.ptr s = h.freep then ask fuel else F fuel (h.ptr s))
    (hlinks : Links h.ptr (s :: l ++ [h.freep])) (hne : ∀ x ∈ l, x ≠ h.freep)
    (hfuel : l.length < fuel) :
    (∃ prevp ∈ s :: l, enough ≤ h.size (h.ptr prevp) ∧ F fuel s = found prevp) ∨
      (∀ x ∈ l ++ [h.freep], h.size x < enough) ∧ F fuel s = ask (fuel - l.length - 1) := by
  induction l generalizing s fuel with
  | nil =>
    obtain ⟨fuel, rfl⟩ : ∃ k, fuel = k + 1 := ⟨fuel - 1, by omega⟩
    obtain ⟨hnext, -⟩ := links_cons_cons.1 hlinks
    rw [hF]
    by_cases hs : enough ≤ h.size (h.ptr s)
    · exact Or.inl ⟨s, List.mem_cons_self, hs, if_pos hs⟩
    · refine Or.inr ⟨?_, ?_⟩
      · intro x hx
        obtain rfl := List.mem_singleton.1 hx
        exact not_le.1 (hnext ▸ hs)
      · rw [if_neg hs, if_pos hnext]
        rfl
  | cons d l ih =>
    obtain ⟨fuel, rfl⟩ : ∃ k, fuel = k + 1 := ⟨fuel - 1, by omega⟩
    rw [List.length_cons] at hfuel
    obtain ⟨hnext, hrest⟩ := links_cons_cons.1 hlinks
    rw [hF, hnext, if_neg (hne d List.mem_cons_self)]
    by_cases hs : enough ≤ h.size d
    · rw [if_pos hs]
      exact Or.inl ⟨s, List.mem_cons_self, hnext ▸ hs, rfl⟩
    · rw [if_neg hs]
      rcases ih hrest (fun x hx => hne x (List.mem_cons_of_mem d hx))
        (show l.length < fuel by omega) with ⟨prevp, hmem, hle, hok⟩ | ⟨hsmall, hmore⟩
      · exact Or.inl ⟨prevp, List.mem_cons_of_mem s hmem, hle, hok⟩
      · refine Or.inr ⟨fun x hx => ?_, ?_⟩
        · rcases List.mem_cons.1 hx with rfl | hx
          · exact not_le.1 hs
          · exact hsmall x hx
        · rw [hmore, List.length_cons, show fuel + 1 - (l.length + 1) - 1 = fuel - l.length - 1 by omega]

theorem findBlock_pass (grant : ℕ → Option ℕ) (enough nu : ℕ)
    (hlinks : Links h.ptr (s :: l ++ [h.freep])) (hne : ∀ x ∈ l, x ≠ h.freep)
    (hfuel : l.length < fuel) :
    (∃ prevp ∈ s :: l, enough ≤ h.size (h.ptr prevp) ∧
        findBlock grant enough nu fuel h s = .ok (some prevp, h)) ∨
      (∀ x ∈ l ++ [h.freep], h.size x < enough) ∧
        findBlock grant enough nu fuel h s = (do
          match ← h.morecore grant nu with
          | (none, h) => return (none, h)
          | (some p, h) => findBlock grant enough nu (fuel - l.length - 1) h p) :=
  pass (F := fun fuel s => findBlock grant enough nu fuel h s) (fun prevp => .ok (some prevp, h))
    (fun _ _ => rfl) hlinks hne hfuel

theorem FreeList.fromFreep (hl : FreeList h ps) :
    ∃ l, Links h.ptr (h.freep :: l ++ [h.freep]) ∧ (h.freep :: l).Perm ps ∧
      ∀ x ∈ l, x ≠ h.freep := by
  have hring : Links h.ptr (h.base :: ps.tail ++ [h.base]) := by
    rw [← hl.eq_cons]
    exact hl.links
  obtain ⟨l, hlinks, hperm⟩ := hring.rotate (hl.eq_cons ▸ hl.freep)
  rw [← hl.eq_cons] at hperm
  refine ⟨l, hlinks, hperm, ?_⟩
  rintro x hx rfl
  exact (List.nodup_cons.1 (hperm.nodup_iff.2 hl.nodup)).1 hx

/-- What a search ends with: a free list with the element before a block that is large enough, or
none when `morecore` failed. -/
structure Found (h h' : Heap) (ps ps' : List ℕ) (bs : List Block) (enough : ℕ) (r : Option ℕ) :
    Prop where
  ok : HeapOk h' ps' bs
  grows : Grows h h'
  kept : h'.units ps' + h.obtained = h.units ps + h'.obtained
  fits : ∀ prevp ∈ r, prevp ∈ ps' ∧ enough ≤ h'.size (h'.ptr prevp)

theorem FreeList.mem_fromFreep (hperm : (h.freep :: l).Perm ps) (hx : x ∈ ps) :
    x ∈ l ++ [h.freep] := by
  have := hperm.mem_iff.2 hx
  simp only [List.mem_cons, List.mem_append, List.not_mem_nil] at this ⊢
  tauto

/-- A search finds a block on the list, or all of them are too small and it ends with what `morecore` has
added, if anything. -/
theorem HeapOk.findBlock_cases (ho : HeapOk h ps bs) (grant : ℕ → Option ℕ)
    (henough : enough ≤ nu ∨ enough ≤ 4096) (hfuel : 2 * ps.length + 1 < fuel) :
    (∃ prevp ∈ ps, enough ≤ h.size (h.ptr prevp) ∧
        findBlock grant enough nu fuel h h.freep = .ok (some prevp, h)) ∨
      (∀ x ∈ ps, h.size x < enough) ∧
        ((h.morecore grant nu = .ok (none, h) ∧
            findBlock grant enough nu fuel h h.freep = .ok (none, h)) ∨
          ∃ prevp h' ps', findBlock grant enough nu fuel h h.freep = .ok (some prevp, h') ∧
            HeapOk h' ps' bs ∧ Grows h h' ∧ h'.units ps' + h.obtained = h.units ps + h'.obtained ∧
            h.morecore grant nu = .ok (some h'.freep, h') ∧
            prevp ∈ ps' ∧ enough ≤ h'.size (h'.ptr prevp)) := by
  obtain ⟨l, hlinks, hperm, hne⟩ := ho.toFreeList.fromFreep
  have hlen : l.length + 1 = ps.length := by simpa using hperm.length_eq
  rcases findBlock_pass grant enough nu hlinks hne
    (show l.length < fuel by omega) with ⟨prevp, hmem, hle, hok⟩ | ⟨hsmall, hmore⟩
  · exact Or.inl ⟨prevp, hperm.mem_iff.1 hmem, hle, hok⟩
  · refine Or.inr ⟨fun x hx => hsmall x (FreeList.mem_fromFreep hperm hx), ?_⟩
    rw [hmore]
    rcases ho.morecore grant nu with hfail | ⟨h₁, ps₁, hmc, ho₁, hkept, hlen₁, hg, x, hx, hxnu, hx4⟩
    · rw [hfail]
      exact Or.inl ⟨rfl, rfl⟩
    · rw [hmc]
      obtain ⟨l₁, hlinks₁, hperm₁, hne₁⟩ := ho₁.toFreeList.fromFreep
      have hlen' : l₁.length + 1 = ps₁.length := by simpa using hperm₁.length_eq
      rcases findBlock_pass grant enough nu hlinks₁ hne₁
        (show l₁.length < fuel - l.length - 1 by omega) with
        ⟨prevp, hmem, hle, hok⟩ | ⟨hsmall₁, -⟩
      · exact Or.inr ⟨prevp, h₁, ps₁, hok, ho₁, hg, hkept, rfl, hperm₁.mem_iff.1 hmem, hle⟩
      · -- the second pass meets the new block
        have := hsmall₁ x (FreeList.mem_fromFreep hperm₁ hx)
        omega

theorem HeapOk.findBlock (ho : HeapOk h ps bs) (grant : ℕ → Option ℕ)
    (henough : enough ≤ nu ∨ enough ≤ 4096) (hfuel : 2 * ps.length + 1 < fuel) :
    ∃ r h' ps', findBlock grant enough nu fuel h h.freep = .ok (r, h') ∧
      Found h h' ps ps' bs enough r := by
  rcases ho.findBlock_cases grant henough hfuel with ⟨prevp, hmem, hle, hok⟩ | ⟨-, ⟨-, hok⟩ |
    ⟨prevp, h', ps', hok, ho', hg, hkept, -, hmem, hle⟩⟩
  · refine ⟨some prevp, h, ps, hok, ho, Grows.refl h, rfl, fun q hq => ?_⟩
    cases hq
    exact ⟨hmem, hle⟩
  · exact ⟨none, h, ps, hok, ho, Grows.refl h, rfl, fun q hq => by cases hq⟩
  · refine ⟨some prevp, h', ps', hok, ho', hg, hkept, fun q hq => ?_⟩
    cases hq
    exact ⟨hmem, hle⟩

/-! ### Taking a block -/

theorem FreeList.split (hl : FreeList h ps) (hx : x ∈ ps) (hs : 0 < h.size (h.ptr x)) :
    ∃ A R, ps = A ++ x :: h.ptr x :: R := by
  obtain ⟨A, R, hps⟩ := List.append_of_mem hx
  rcases hl.next hps with ⟨-, hptr⟩ | ⟨y, R', rfl, hptr⟩
  · rw [hptr, hl.baseSize] at hs
    omega
  · exact ⟨A, R', hptr ▸ hps⟩

/-- The end of a block is cut off.  Units between the rest and the new block are on no list. -/
theorem HeapOk.cut (ho : HeapOk h ps bs) {rest n : ℕ} (hp : p ∈ ps) (hrest : 0 < rest) (hn : 0 < n)
    (hle : rest + n ≤ h.size p) :
    HeapOk ((h.setSize p rest).setSize (p + 8 * rest) n) ps (⟨p + 8 * rest, n⟩ :: bs) ∧
      ((h.setSize p rest).setSize (p + 8 * rest) n).units ps + h.size p = h.units ps + rest := by
  have hpbase : p ≠ h.base := by
    rintro rfl
    have := ho.baseSize
    omega
  have hbp := ho.toFreeList.base_le hp
  have hperm := List.perm_cons_erase hp
  have htiled := ho.tiled.perm ((h.blocks_perm hperm).append_right bs)
  rw [blocks_cons hpbase] at htiled
  -- the new header lies inside the old block, and nothing else does
  have hinside : ∀ c ∈ h.blocks (ps.erase p) ++ bs, c.addr ≠ p ∧ c.addr ≠ p + 8 * rest := by
    intro c hc
    have hpos := ((tiled_cons.1 htiled).2.2.sound c hc).1
    have happart := (tiled_cons.1 htiled).2.1 c hc
    simp only [Block.Apart, Block.stop, block] at happart
    omega
  set h₁ := (h.setSize p rest).setSize (p + 8 * rest) n with hh₁
  have hptr : h₁.ptr = h.ptr := funext fun x => by rw [hh₁, ptr_setSize, ptr_setSize]
  have hsame : ∀ {x}, x ≠ p ∧ x ≠ p + 8 * rest → h₁.size x = h.size x := by
    rintro x ⟨hx, hx'⟩
    rw [hh₁, size_setSize, if_neg hx', size_setSize, if_neg hx]
  have hsize : h₁.size p = rest := by
    rw [hh₁, size_setSize, if_neg (by omega), size_setSize, if_pos rfl]
  have hothers : ∀ x ∈ ps.erase p, h₁.size x = h.size x := by
    intro x hx
    by_cases hxb : x = h.base
    · exact hsame (by omega)
    · exact hsame (hinside _ (List.mem_append_left _ (mem_blocks.2 ⟨x, hx, hxb, rfl⟩)))
  refine ⟨.of_tiled ho.head (by rw [hptr]; exact ho.links) ho.freep ho.sorted
    ((hsame (by change h.base ≠ p ∧ h.base ≠ p + 8 * rest; omega)).trans ho.baseSize) ?_
    (List.forall_mem_cons.2 ⟨?_, fun c hc => ?_⟩) ho.low ho.regions, ?_⟩
  · have hafter := h₁.blocks_perm hperm
    rw [blocks_cons (h := h₁) hpbase, block, hsize, blocks_congr (show h₁.base = h.base from rfl) hothers] at hafter
    refine (htiled.cut hrest hn hle).perm (List.Perm.trans ?_ (hafter.symm.append_right _))
    exact (List.perm_middle.symm.cons _)
  · rw [hh₁, size_setSize, if_pos rfl]
  · exact (hsame (hinside c (List.mem_append_right _ hc))).trans (ho.header c hc)
  · rw [h₁.units_perm hperm, h.units_perm hperm, units_cons, units_cons, units_congr hothers, hsize]
    omega

theorem HeapOk.unlink (ho : HeapOk h ps bs) (hps : ps = A ++ x :: y :: R)
    (hy : 0 < h.size y) :
    HeapOk ((h.setPtr x (h.ptr y)).setFreep x) (A ++ x :: R) (⟨y, h.size y⟩ :: bs) ∧
      ((h.setPtr x (h.ptr y)).setFreep x).units (A ++ x :: R) + h.size y = h.units ps := by
  have hybase : y ≠ h.base := by
    rintro rfl
    have := ho.baseSize
    omega
  have hnodup := ho.nodup
  rw [hps, List.nodup_append, List.nodup_cons] at hnodup
  have hxA : ∀ z ∈ A, z ≠ x := fun z hz => hnodup.2.2 z hz x List.mem_cons_self
  have hxR : ∀ z ∈ R, z ≠ x := by
    rintro z hz rfl
    exact hnodup.2.1.1 (List.mem_cons_of_mem y hz)
  have hperm : ps.Perm (y :: (A ++ x :: R)) := by
    rw [hps]
    simpa using @List.perm_middle _ y (A ++ [x]) R
  set h₁ := (h.setPtr x (h.ptr y)).setFreep x with hh₁
  have hsize : ∀ z, h₁.size z = h.size z := fun z => by rw [hh₁, size_setFreep, size_setPtr]
  have hptr : ∀ {z}, z ≠ x → h₁.ptr z = h.ptr z := fun hz => by
    rw [hh₁, ptr_setFreep, ptr_setPtr, if_neg hz]
  refine ⟨.of_tiled (head_append (hps ▸ ho.head)) ?_ (List.mem_append_right A List.mem_cons_self) ?_ ((hsize _).trans ho.baseSize) ?_
    (List.forall_mem_cons.2 ⟨hsize y, fun c hc => (hsize _).trans (ho.header c hc)⟩) ho.low ho.regions, ?_⟩
  · have hlinks := ho.links
    rw [hps, List.append_assoc] at hlinks
    rw [List.append_assoc]
    refine Links.removeAfter hlinks ?_ (fun z hz => hptr (hxA z hz)) fun z hz => hptr (hxR z hz)
    rw [hh₁, ptr_setFreep, ptr_setPtr, if_pos rfl]
  · have hsorted := ho.sorted
    rw [hps] at hsorted
    exact hsorted.sublist ((List.Sublist.refl A).append ((List.sublist_cons_self y R).cons_cons x))
  · rw [blocks_congr (show h₁.base = h.base from rfl) fun z _ => hsize z]
    have htiled := ho.tiled.perm ((h.blocks_perm hperm).append_right bs)
    rw [blocks_cons hybase] at htiled
    exact htiled.perm List.perm_middle.symm
  · rw [units_congr fun z _ => hsize z, h.units_perm hperm, units_cons, Nat.add_comm]

theorem HeapOk.take (ho : HeapOk h ps bs) {prevp : ℕ} (hp : prevp ∈ ps) (hn : 0 < n)
    (hle : n ≤ h.size (h.ptr prevp)) :
    ∃ ps', HeapOk (h.take prevp n).2 ps' (⟨(h.take prevp n).1, n⟩ :: bs) ∧
      (h.take prevp n).2.units ps' + n = h.units ps ∧ SamePages h (h.take prevp n).2 := by
  obtain ⟨A, R, hps⟩ := ho.toFreeList.split hp (by omega)
  have hmem : h.ptr prevp ∈ ps := by
    rw [hps]
    simp
  unfold Heap.take
  dsimp only
  split_ifs with heq
  · obtain ⟨hok, hsum⟩ := ho.unlink hps (by omega)
    rw [heq] at hok hsum
    exact ⟨_, hok, hsum, rfl, rfl, rfl, rfl, rfl, rfl⟩
  · obtain ⟨hok, hsum⟩ :=
      ho.cut hmem (show 0 < h.size (h.ptr prevp) - n by omega) hn (by omega)
    have hrest : ∀ {u}, u + h.size (h.ptr prevp) = h.units ps + (h.size (h.ptr prevp) - n) →
        u + n = h.units ps := fun hu => by omega
    exact ⟨ps, hok.setFreep hp, hrest hsum, rfl, rfl, rfl, rfl, rfl, rfl⟩

theorem HeapOk.flags (ho : HeapOk h ps bs) (pte1 pteW : ℕ → Bool) (k : Int) :
    HeapOk { h with pte1 := pte1, pteW := pteW, protectedPages := k } ps bs := { ho with }

theorem keeps_add {size : ℕ} (hsize : 1024 ≤ size) :
    0 < keeps size ∧ keeps size + 513 + size % 512 = size := by
  unfold keeps
  omega

/-- What `pmalloc` takes off the list: its 513 units, and what the block had beyond a multiple of 512.
The page it returns has the offset of the block within a page. -/
theorem HeapOk.carve (ho : HeapOk h ps bs) {prevp : ℕ} (hp : prevp ∈ ps)
    (hle : 1024 ≤ h.size (h.ptr prevp)) :
    HeapOk (h.carve prevp).2 ps (⟨(h.carve prevp).1, 513⟩ :: bs) ∧
      (h.carve prevp).2.units ps + 513 + h.size (h.ptr prevp) % 512 = h.units ps ∧
      ((h.carve prevp).1 + 8) % 4096 = h.ptr prevp % 4096 := by
  obtain ⟨A, R, hps⟩ := ho.toFreeList.split hp (by omega)
  have hmem : h.ptr prevp ∈ ps := by
    rw [hps]
    simp
  obtain ⟨hpos, hkeep⟩ := keeps_add hle
  obtain ⟨hok, hsum⟩ := ho.cut (n := 513) hmem hpos (by decide) (by omega)
  refine ⟨(hok.flags _ _ _).setFreep hp, ?_, ?_⟩
  · have hsum' : (h.carve prevp).2.units ps + h.size (h.ptr prevp) =
        h.units ps + keeps (h.size (h.ptr prevp)) := hsum
    omega
  · show (h.ptr prevp + 8 * keeps (h.size (h.ptr prevp)) + 8) % 4096 = _
    unfold keeps
    omega

/-! ### The first allocation -/

theorem HeapOk.freep_pos (ho : HeapOk h ps bs) (hbase : 0 < h.base) : h.freep ≠ 0 := by
  have := ho.toFreeList.base_le ho.freep
  omega

theorem init_of_freep (hf : h.freep ≠ 0) : h.init = h := if_neg hf

theorem init_same (h : Heap) : SamePages h h.init := by
  unfold init
  split_ifs
  · exact ⟨rfl, rfl, rfl, rfl, rfl, rfl⟩
  · exact ⟨rfl, rfl, rfl, rfl, rfl, rfl⟩

theorem init_flags (h : Heap) (pteW : ℕ → Bool) (k : Int) :
    Heap.init { h with pteW := pteW, protectedPages := k } =
      { h.init with pteW := pteW, protectedPages := k } := by
  unfold init
  dsimp only
  split_ifs
  · rfl
  · rfl

theorem init_ok (hf : h.freep = 0) (hlow : h.base + 8 ≤ h.brk) (hreg : h.regions = []) :
    HeapOk h.init [h.base] [] := by
  have hinit : h.init = ((h.setPtr h.base h.base).setSize h.base 0).setFreep h.base := if_pos hf
  rw [hinit]
  refine ⟨⟨rfl, ?_, List.mem_singleton_self _, List.pairwise_singleton _ _, ?_, ?_, ?_⟩, hlow, ?_, ?_, ?_,
    ?_, List.Pairwise.nil⟩
  · refine links_cons_cons.2 ⟨?_, List.isChain_singleton _⟩
    rw [ptr_setFreep, ptr_setSize, ptr_setPtr, if_pos rfl]
    rfl
  · show (((h.setPtr h.base h.base).setSize h.base 0).setFreep h.base).size h.base = 0
    rw [size_setFreep, size_setSize, if_pos rfl]
  · intro x hx hxb
    exact absurd (List.mem_singleton.1 hx) hxb
  · intro x hx k hk
    obtain rfl := List.mem_singleton.1 hx
    rw [size_setFreep, size_setSize, if_pos rfl] at hk
    omega
  · intro r hr
    change r ∈ h.regions at hr
    rw [hreg] at hr
    cases hr
  · intro b hb
    cases hb
  · intro b hb
    cases hb
  · intro b hb
    cases hb

theorem HeapOk.search (ho : HeapOk h.init ps bs) (grant : ℕ → Option ℕ)
    (henough : enough ≤ nu ∨ enough ≤ 4096) :
    ∃ r h' ps', h.search grant enough nu = .ok (r, h') ∧ Found h.init h' ps ps' bs enough r := by
  have hlen := ho.length_le
  exact ho.findBlock grant henough (by omega)

end

end Heap

end Xv6
