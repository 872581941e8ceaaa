import Mathlib.Data.Finset.Card
import Mathlib.Data.Finset.Range
import Xv6.Contents

/-!
# Enough blocks

`balloc` finds a block as long as one is free, and takes one.  `bmap` takes a block for a missing block of
the file, and one more for a missing indirect block, so that `writei` does not run out of blocks if there
are as many free blocks as its range lacks.
-/

namespace Xv6

namespace Fs

local instance neZeroLack : NeZero 13 := ⟨by decide⟩

variable {fs fs' : Fs} {i : Fin 50} {bn : ℕ}

def freeBlocks (fs : Fs) : Finset ℕ := (Finset.range fs.size).filter fun b => fs.bit b = false

/-- The indirect block is still to be allocated. -/
def lacksIndirect (fs : Fs) (i : Fin 50) : ℕ := if (fs.icache i).addrs 12 = 0 then 1 else 0

/-- The blocks of the range from `off` to `stop` that the file lacks. -/
def lackedBlocks (fs : Fs) (i : Fin 50) (off stop : ℕ) : Finset ℕ :=
  (Finset.range 140).filter fun bn => off / 512 ≤ bn ∧ bn * 512 < stop ∧ fs.blockAt i bn = 0

/-- The blocks that `writei` has to allocate for the range from `off` to `stop`. -/
def lack (fs : Fs) (i : Fin 50) (off stop : ℕ) : ℕ :=
  (fs.lackedBlocks i off stop).card + if 12 * 512 < stop then fs.lacksIndirect i else 0

theorem freeBit_none {b k bi : ℕ} (h : fs.freeBit b k bi = none) {c : ℕ} (hlo : b + bi ≤ c)
    (hhi : c < b + bi + k) (hsize : c < fs.size) : fs.bit c = true := by
  induction k generalizing bi with
  | zero => omega
  | succ k ih =>
    rw [freeBit] at h
    split_ifs at h with hlt hbit
    · by_cases hc : c = b + bi
      · rw [hc]
        exact hbit
      · exact ih h (by omega) (by omega)
    · omega

theorem freeBlock_none {k b : ℕ} (h : fs.freeBlock k b = none) {c : ℕ} (hlo : b ≤ c)
    (hhi : c < b + 4096 * k) (hsize : c < fs.size) : fs.bit c = true := by
  induction k generalizing b with
  | zero => omega
  | succ k ih =>
    rw [freeBlock] at h
    split_ifs at h with hlt
    · split at h
      case h_1 => cases h
      case h_2 hnone =>
        by_cases hc : c < b + 4096
        · exact freeBit_none hnone (by omega) (by omega) hsize
        · exact ih h (by omega) (by omega)
    · omega

theorem balloc_room (fs : Fs) (h : 0 < fs.freeBlocks.card) :
    ∃ b, fs.balloc = .ok (b, (fs.mark b).setBlock b fun _ => 0) ∧
      ((fs.mark b).setBlock b fun _ => 0).freeBlocks.card + 1 = fs.freeBlocks.card := by
  obtain ⟨c, hc⟩ := Finset.card_pos.1 h
  rw [freeBlocks, Finset.mem_filter, Finset.mem_range] at hc
  cases hfind : fs.freeBlock (fs.size / 4096 + 1) 0 with
  | none =>
    rw [freeBlock_none hfind (Nat.zero_le c) (by omega) hc.1] at hc
    cases hc.2
  | some b =>
    obtain ⟨hlt, hbit⟩ := freeBlock_some hfind
    refine ⟨b, by rw [balloc, hfind], ?_⟩
    have hmem : b ∈ fs.freeBlocks := by
      rw [freeBlocks, Finset.mem_filter, Finset.mem_range]
      exact ⟨hlt, hbit⟩
    have hrest : ((fs.mark b).setBlock b fun _ => 0).freeBlocks = fs.freeBlocks.erase b := by
      ext c
      rw [Finset.mem_erase, freeBlocks, freeBlocks, Finset.mem_filter, Finset.mem_filter]
      change c ∈ Finset.range fs.size ∧ (fs.mark b).bit c = false ↔ _
      rw [bit_mark]
      by_cases hcb : c = b
      · simp [hcb]
      · simp [hcb]
    rw [hrest, Finset.card_erase_add_one hmem]

theorem bmapSlot_room {k : Fin 13} (h : (fs.icache i).addrs k = 0 → 0 < fs.freeBlocks.card) :
    ∃ b fs', fs.bmapSlot i k = .ok (b, fs') ∧
      fs'.freeBlocks.card + (if (fs.icache i).addrs k = 0 then 1 else 0) = fs.freeBlocks.card := by
  unfold bmapSlot
  split_ifs with hnull
  · obtain ⟨b, hrun, hcard⟩ := balloc_room fs (h hnull)
    rw [hrun]
    exact ⟨b, _, rfl, hcard⟩
  · exact ⟨_, fs, rfl, rfl⟩

theorem bmapEntry_room (fs : Fs) (ind j : ℕ) (h : (fs.block ind).word j = 0 → 0 < fs.freeBlocks.card) :
    ∃ b fs', fs.bmapEntry ind j = .ok (b, fs') ∧
      fs'.freeBlocks.card + (if (fs.block ind).word j = 0 then 1 else 0) = fs.freeBlocks.card := by
  unfold bmapEntry
  split_ifs with hnull
  · obtain ⟨b, hrun, hcard⟩ := balloc_room fs (h hnull)
    rw [hrun]
    exact ⟨b, _, rfl, hcard⟩
  · exact ⟨_, fs, rfl, rfl⟩

/-- The blocks that `bmap` has to allocate for block `bn`. -/
def bmapLack (fs : Fs) (i : Fin 50) (bn : ℕ) : ℕ :=
  (if fs.blockAt i bn = 0 then 1 else 0) + if 12 ≤ bn then fs.lacksIndirect i else 0

theorem blockAt_direct (htype : (fs.icache i).type ≠ 0) (hdirect : bn < 12) :
    fs.blockAt i bn = (fs.icache i).addrs (direct bn hdirect) := by
  rw [blockAt, place, dif_pos hdirect]
  exact slotPtr_view htype _

theorem blockAt_indirect (htype : (fs.icache i).type ≠ 0) (hdirect : ¬ bn < 12) (hbn : bn < 140) :
    fs.blockAt i bn = if (fs.icache i).addrs 12 = 0 then 0
      else (fs.block ((fs.icache i).addrs 12)).word (bn - 12) := by
  have hval : ((Fin.ofNat 128 (bn - 12) : Fin 128) : ℕ) = bn - 12 := Nat.mod_eq_of_lt (by omega)
  rw [blockAt, place, dif_neg hdirect, pointer, slotPtr_view htype, hval]

theorem word_zero (j : ℕ) : BlockData.word (fun _ => 0) j = 0 := rfl

theorem bmap_room (htype : (fs.icache i).type ≠ 0) (hbn : bn < 140)
    (hroom : fs.bmapLack i bn ≤ fs.freeBlocks.card) :
    ∃ b fs', fs.bmap i bn = .ok (b, fs') ∧ fs'.freeBlocks.card + fs.bmapLack i bn = fs.freeBlocks.card := by
  unfold bmap
  split_ifs with hdirect hrange
  · have hlack : fs.bmapLack i bn = if (fs.icache i).addrs (direct bn hdirect) = 0 then 1 else 0 := by
      rw [bmapLack, blockAt_direct htype hdirect, if_neg (by omega : ¬ 12 ≤ bn), Nat.add_zero]
    rw [hlack] at hroom ⊢
    refine bmapSlot_room fun hnull => ?_
    rwa [if_pos hnull] at hroom
  · rw [bmapLack, blockAt_indirect htype hdirect hbn, if_pos (by omega : 12 ≤ bn), lacksIndirect] at hroom ⊢
    by_cases hind : (fs.icache i).addrs 12 = 0
    · -- The indirect block is new, so its entry is null.
      simp only [if_pos hind, if_true] at hroom ⊢
      obtain ⟨ind, hballoc, hcard⟩ := balloc_room fs (by omega)
      have hslot : fs.bmapSlot i 12 = .ok (ind, ((fs.mark ind).setBlock ind fun _ => 0).setAddr i 12 ind) := by
        rw [bmapSlot, if_pos hind, hballoc]
        rfl
      have hword : ((((fs.mark ind).setBlock ind fun _ => 0).setAddr i 12 ind).block ind).word (bn - 12) = 0 := by
        change (Function.update fs.block ind (fun _ => 0) ind).word (bn - 12) = 0
        rw [Function.update_self, word_zero]
      have hcard' : (((fs.mark ind).setBlock ind fun _ => 0).setAddr i 12 ind).freeBlocks.card =
          ((fs.mark ind).setBlock ind fun _ => 0).freeBlocks.card := rfl
      obtain ⟨b, fs', hrun, hcost⟩ := bmapEntry_room
        (((fs.mark ind).setBlock ind fun _ => 0).setAddr i 12 ind) ind (bn - 12) fun _ => by omega
      rw [if_pos hword] at hcost
      refine ⟨b, fs', ?_, by omega⟩
      rw [hslot]
      exact hrun
    · simp only [if_neg hind] at hroom ⊢
      have hslot : fs.bmapSlot i 12 = .ok ((fs.icache i).addrs 12, fs) := by rw [bmapSlot, if_neg hind]
      rw [hslot]
      refine bmapEntry_room _ _ _ fun hnull => ?_
      rw [if_pos hnull] at hroom
      exact hroom
  · omega

theorem Extends.addrs_indirect (h : Extends fs fs' i) (htype : (fs.icache i).type ≠ 0)
    (hnull : (fs'.icache i).addrs 12 = 0) : (fs.icache i).addrs 12 = 0 := by
  by_contra hne
  have hkept := h.keeps (.slot (fs.icache i).inum 12) ((slotPtr_view htype 12).trans_ne hne)
  have hnew : slotPtr (fs'.view i) (fs'.icache i).inum 12 = (fs'.icache i).addrs 12 :=
    slotPtr_view (by rwa [h.type]) 12
  rw [h.inum, hnull] at hnew
  exact hne ((slotPtr_view htype 12).symm.trans (hkept.symm.trans hnew))

theorem addrs_indirect_ne (htype : (fs.icache i).type ≠ 0) (hdirect : ¬ bn < 12) (hbn : bn < 140)
    (hthere : fs.blockAt i bn ≠ 0) : (fs.icache i).addrs 12 ≠ 0 := by
  intro hnull
  rw [blockAt_indirect htype hdirect hbn, if_pos hnull] at hthere
  exact hthere rfl

theorem lack_next {off : ℕ} (stop : ℕ) (hext : Extends fs fs' i) (htype : (fs.icache i).type ≠ 0)
    (hbn : off / 512 < 140) (hoff : off < stop) (hthere : fs'.blockAt i (off / 512) ≠ 0) :
    fs'.lack i (512 * (off / 512 + 1)) stop + fs.bmapLack i (off / 512) ≤ fs.lack i off stop := by
  have hnext : 512 * (off / 512 + 1) / 512 = off / 512 + 1 := by omega
  have hblocks : (fs'.lackedBlocks i (512 * (off / 512 + 1)) stop).card +
      (if fs.blockAt i (off / 512) = 0 then 1 else 0) ≤ (fs.lackedBlocks i off stop).card := by
    have hsub : fs'.lackedBlocks i (512 * (off / 512 + 1)) stop ⊆
        (fs.lackedBlocks i off stop).erase (off / 512) := by
      intro b hb
      rw [lackedBlocks, Finset.mem_filter, hnext] at hb
      rw [Finset.mem_erase, lackedBlocks, Finset.mem_filter]
      refine ⟨by omega, hb.1, by omega, hb.2.2.1, ?_⟩
      by_contra hne
      rw [hext.blockAt hne] at hb
      exact hne hb.2.2.2
    have hle := Finset.card_le_card hsub
    split_ifs with hnull
    · have hmem : off / 512 ∈ fs.lackedBlocks i off stop := by
        rw [lackedBlocks, Finset.mem_filter, Finset.mem_range]
        exact ⟨hbn, le_rfl, by omega, hnull⟩
      rw [← Finset.card_erase_add_one hmem]
      omega
    · exact hle.trans Finset.card_erase_le
  have hind : (if 12 * 512 < stop then fs'.lacksIndirect i else 0) +
      (if 12 ≤ off / 512 then fs.lacksIndirect i else 0) ≤
        if 12 * 512 < stop then fs.lacksIndirect i else 0 := by
    unfold lacksIndirect
    by_cases hdirect : off / 512 < 12
    · rw [if_neg (by omega : ¬ 12 ≤ off / 512), Nat.add_zero]
      split_ifs with hstop hnull' hnull
      · exact le_rfl
      · exact absurd (hext.addrs_indirect htype hnull') hnull
      · exact Nat.zero_le _
      · exact le_rfl
      · exact le_rfl
    · have hne := addrs_indirect_ne (by rwa [hext.type]) hdirect hbn hthere
      rw [if_pos (by omega : 12 ≤ off / 512), if_pos (by omega : 12 * 512 < stop), if_neg hne]
      rw [if_pos (by omega : 12 * 512 < stop), Nat.zero_add]
  rw [lack, lack, bmapLack]
  omega

theorem bmapLack_le {off stop : ℕ} (hbn : off / 512 < 140) (hoff : off < stop) :
    fs.bmapLack i (off / 512) ≤ fs.lack i off stop := by
  rw [bmapLack, lack]
  refine Nat.add_le_add ?_ ?_
  · split_ifs with hnull
    · apply Finset.card_pos.2
      refine ⟨off / 512, ?_⟩
      rw [lackedBlocks, Finset.mem_filter, Finset.mem_range]
      exact ⟨hbn, le_rfl, by omega, hnull⟩
    · exact Nat.zero_le _
  · split_ifs with hdirect hstop
    · exact le_rfl
    · omega
    · exact Nat.zero_le _
    · exact le_rfl

theorem writeLoop_room {fuel : ℕ} (src : ℕ → Byte) {left off : ℕ} (h : Owns (fs.view i) fs)
    (htype : (fs.icache i).type ≠ 0) (hfuel : left < fuel) (hrange : off + left ≤ 140 * 512)
    (hroom : 0 < left → fs.lack i off (off + left) ≤ fs.freeBlocks.card) :
    ∃ fs', writeLoop i fuel src left off fs = .ok fs' := by
  induction fuel generalizing src left off fs with
  | zero => exact absurd hfuel (Nat.not_lt_zero _)
  | succ fuel ih =>
    rw [writeLoop]
    split_ifs with hleft
    · have hbn : off / 512 < 140 := by omega
      have hfirst : fs.bmapLack i (off / 512) ≤ fs.freeBlocks.card :=
        (bmapLack_le hbn (by omega)).trans (hroom hleft)
      obtain ⟨b, fs₁, hrun, hcost⟩ := bmap_room htype hbn hfirst
      have hmeets := bmap_meets h htype hbn
      rw [hrun] at hmeets ⊢
      obtain ⟨hext, hb, hat, -⟩ := hmeets
      dsimp only at hext hb hat
      generalize hm : min left (512 - off % 512) = m
      have hwrite := Extends.write hext.owns hat ((fs₁.block b).copyIn (off % 512) m src)
      have hext₂ := hext.trans hwrite
      refine ih _ hwrite.owns (by rwa [hext₂.type]) (by omega) (by omega) fun hmore => ?_
      have hoff : off + m = 512 * (off / 512 + 1) := by omega
      have hstop : off + m + (left - m) = off + left := by omega
      have hhere : (fs₁.setBlock b ((fs₁.block b).copyIn (off % 512) m src)).blockAt i (off / 512) ≠ 0 := by
        rw [hwrite.blockAt (by rw [hat]; exact hb), hat]
        exact hb
      have hlack := lack_next (off + left) hext₂ htype hbn (by omega) hhere
      have hfree : (fs₁.setBlock b ((fs₁.block b).copyIn (off % 512) m src)).freeBlocks = fs₁.freeBlocks := rfl
      have hall := hroom hleft
      rw [hstop, hoff, hfree]
      omega
    · exact ⟨fs, rfl⟩

end Fs

end Xv6
