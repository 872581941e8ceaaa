import Mathlib.Data.Nat.Bitwise
import Xv6.Fs
import Xv6.Lib.Owner

/-!
# Who owns a block

A block is referred to by a slot of an inode or by an entry of an indirect block.  `Owner.Exact` says of
these references and the free map that they agree and that no block is shared; this file shows that the
block allocator, `bmap`, `writei` and `itrunc` keep it so, with the inode that is being worked on read
from the cache and the others from the disk.
-/

namespace Xv6

/-! ### Words and bits -/

namespace BlockData

theorem word_setWord (data : BlockData) (j v : ℕ) (hv : v < 2 ^ 32) : (data.setWord j v).word j = v := by
  have h : ∀ k, k < 4 → data.setWord j v (4 * j + k) = UInt8.ofNat (v / 256 ^ k) := fun k hk => by
    rw [setWord, if_pos (by omega), show (4 * j + k) % 4 = k by omega]
  have h0 := h 0 (by decide)
  rw [Nat.add_zero] at h0
  rw [word, h0, h 1 (by decide), h 2 (by decide), h 3 (by decide)]
  simp only [UInt8.toNat_ofNat']
  omega

theorem word_setWord_ne (data : BlockData) {j k : ℕ} (v : ℕ) (h : k ≠ j) :
    (data.setWord j v).word k = data.word k := by
  have hk : ∀ r, r < 4 → data.setWord j v (4 * k + r) = data (4 * k + r) := fun r hr => by
    rw [setWord, if_neg (by omega)]
  have h0 := hk 0 (by decide)
  rw [Nat.add_zero] at h0
  rw [word, word, h0, hk 1 (by decide), hk 2 (by decide), hk 3 (by decide)]

end BlockData

namespace Fs

variable {fs fs' : Fs} {i : Fin 50}

theorem toNat_mask (bi : ℕ) : (mask bi).toNat = 2 ^ (bi % 8) := by
  have h8 : bi % 8 < 8 := Nat.mod_lt _ (by decide)
  unfold mask
  generalize bi % 8 = k at *
  interval_cases k <;> rfl

theorem and_mask (x : Byte) (bi : ℕ) : ((x &&& mask bi) != 0) = x.toNat.testBit (bi % 8) := by
  rw [Bool.eq_iff_iff, bne_iff_ne, ne_eq, ← UInt8.toNat_inj, UInt8.toNat_and, toNat_mask,
    Nat.and_two_pow]
  cases x.toNat.testBit (bi % 8) <;> simp

theorem or_mask (x : Byte) (bi c : ℕ) : (x ||| mask bi).toNat.testBit c =
    (x.toNat.testBit c || decide (bi % 8 = c)) := by
  rw [UInt8.toNat_or, toNat_mask, Nat.testBit_or, Nat.testBit_two_pow]

theorem andNot_mask (x : Byte) (bi c : ℕ) : (x &&& ~~~mask bi).toNat.testBit c =
    (x.toNat.testBit c && !decide (bi % 8 = c)) := by
  have hlt : c < 8 ∨ x.toNat.testBit c = false := by
    rcases Nat.lt_or_ge c 8 with h | h
    · exact .inl h
    · refine .inr (Nat.testBit_lt_two_pow (lt_of_lt_of_le x.toNat_lt ?_))
      exact Nat.pow_le_pow_right (by decide) h
  rw [UInt8.toNat_and, UInt8.toNat_not, toNat_mask, Nat.testBit_and]
  rcases hlt with hlt | hzero
  · have hsub : UInt8.size - 1 - 2 ^ (bi % 8) = 2 ^ 8 - (2 ^ (bi % 8) + 1) := by
      simp [UInt8.size]
    rw [hsub, Nat.testBit_two_pow_sub_succ, Nat.testBit_two_pow]
    · simp [hlt]
    · exact Nat.pow_lt_pow_right (by decide) (Nat.mod_lt _ (by decide))
  · simp [hzero]

theorem bit_eq (fs : Fs) (b : ℕ) :
    fs.bit b = (fs.bitmap (b / 4096) (b % 4096 / 8)).toNat.testBit (b % 8) := by
  rw [bit, and_mask]
  congr 1
  omega

theorem bit_setByte (fs : Fs) (b : ℕ) (x : Byte) (c : ℕ) : (fs.setByte b x).bit c =
    if c / 8 = b / 8 then x.toNat.testBit (c % 8) else fs.bit c := by
  rw [bit_eq, bit_eq]
  unfold setByte
  dsimp only
  by_cases hblock : c / 4096 = b / 4096
  · rw [hblock, Function.update_self]
    by_cases hbyte : c % 4096 / 8 = b % 4096 / 8
    · rw [hbyte, Function.update_self, if_pos (by omega)]
    · rw [Function.update_of_ne hbyte, if_neg (by omega)]
  · rw [Function.update_of_ne hblock, if_neg (by omega)]

theorem bit_mark (fs : Fs) (b c : ℕ) : (fs.mark b).bit c = if c = b then true else fs.bit c := by
  rw [mark, bit_setByte, or_mask]
  by_cases hbyte : c / 8 = b / 8
  · rw [if_pos hbyte]
    by_cases hc : c = b
    · subst hc
      rw [if_pos rfl, decide_eq_true (by omega), Bool.or_true]
    · rw [if_neg hc, decide_eq_false (by omega), Bool.or_false, bit_eq]
      rw [show c / 4096 = b / 4096 by omega, show c % 4096 / 8 = b % 4096 / 8 by omega]
  · rw [if_neg hbyte, if_neg (by rintro rfl; exact hbyte rfl)]

theorem bit_unmark (fs : Fs) (b c : ℕ) : (fs.unmark b).bit c = if c = b then false else fs.bit c := by
  rw [unmark, bit_setByte, andNot_mask]
  by_cases hbyte : c / 8 = b / 8
  · rw [if_pos hbyte]
    by_cases hc : c = b
    · subst hc
      rw [if_pos rfl, decide_eq_true (by omega), Bool.not_true, Bool.and_false]
    · rw [if_neg hc, decide_eq_false (by omega), Bool.not_false, Bool.and_true, bit_eq]
      rw [show c / 4096 = b / 4096 by omega, show c % 4096 / 8 = b % 4096 / 8 by omega]
  · rw [if_neg hbyte, if_neg (by rintro rfl; exact hbyte rfl)]

/-! ### References -/

/-- The places that refer to a block: a slot of an inode, an entry of its indirect block. -/
inductive Place where
  | slot (inum : ℕ) (k : Fin 13)
  | entry (inum : ℕ) (j : Fin 128)
deriving DecidableEq

/-- The blocks that are never allocated: all before the last `nblocks`. -/
def Fixed (fs : Fs) (b : ℕ) : Prop := b < fs.size - fs.nblocks

/-- What a slot of an allocated inode refers to; 0 is no block. -/
def slotPtr (d : ℕ → Dinode) (inum : ℕ) (k : Fin 13) : ℕ :=
  if (d inum).type = 0 then 0 else (d inum).addrs k

local instance neZeroAddrs : NeZero 13 := ⟨by decide⟩

/-- What a place refers to, for inodes `d`. -/
def pointer (d : ℕ → Dinode) (block : ℕ → BlockData) : Place → ℕ
  | .slot inum k => slotPtr d inum k
  | .entry inum j => if slotPtr d inum 12 = 0 then 0 else (block (slotPtr d inum 12)).word j

/-- The bit of `b`, if `b` is a block of the disk. -/
def inUse (fs : Fs) (b : ℕ) : Bool := decide (b < fs.size) && fs.bit b

/-- The inodes as a caller that works on the cache entry `i` sees them. -/
def view (fs : Fs) (i : Fin 50) : ℕ → Dinode :=
  Function.update fs.dinode (fs.icache i).inum (fs.icache i).toDinode

/-- Every block in use is fixed or has one owner among the inodes `d`. -/
structure Owns (d : ℕ → Dinode) (fs : Fs) : Prop where
  size : fs.size < 2 ^ 32
  exact : Owner.Exact fs.Fixed (pointer d fs.block) fs.inUse

theorem Owns.lt {d : ℕ → Dinode} (h : Owns d fs) {p : Place} (hp : pointer d fs.block p ≠ 0) :
    pointer d fs.block p < fs.size ∧ fs.bit (pointer d fs.block p) = true := by
  have hused := h.exact.used_target hp
  rw [inUse, Bool.and_eq_true_iff, decide_eq_true_eq] at hused
  exact hused

theorem inUse_mark (fs : Fs) {b : ℕ} (hb : b < fs.size) (c : ℕ) :
    (fs.mark b).inUse c = if c = b then true else fs.inUse c := by
  change (decide (c < fs.size) && (fs.mark b).bit c) = _
  rw [bit_mark]
  by_cases hc : c = b
  · rw [if_pos hc, if_pos hc, hc, decide_eq_true hb, Bool.and_true]
  · rw [if_neg hc, if_neg hc, inUse]

theorem inUse_unmark (fs : Fs) (b c : ℕ) : (fs.unmark b).inUse c = if c = b then false else fs.inUse c := by
  change (decide (c < fs.size) && (fs.unmark b).bit c) = _
  rw [bit_unmark]
  by_cases hc : c = b
  · rw [if_pos hc, if_pos hc, Bool.and_false]
  · rw [if_neg hc, if_neg hc, inUse]

theorem pointer_congr {d : ℕ → Dinode} {block block' : ℕ → BlockData}
    (h : ∀ inum, slotPtr d inum 12 ≠ 0 → block' (slotPtr d inum 12) = block (slotPtr d inum 12))
    (p : Place) : pointer d block' p = pointer d block p := by
  cases p with
  | slot inum k => rfl
  | entry inum j =>
    rw [pointer, pointer]
    split_ifs with hzero
    · rfl
    · rw [h inum hzero]

/-- The inode `n` with another block in a slot. -/
def withAddr (d : ℕ → Dinode) (n : ℕ) (k : Fin 13) (b : ℕ) : ℕ → Dinode :=
  Function.update d n { d n with addrs := Function.update (d n).addrs k b }

theorem slotPtr_withAddr {d : ℕ → Dinode} {n : ℕ} {k : Fin 13} {b : ℕ} (htype : (d n).type ≠ 0) (m : ℕ)
    (k' : Fin 13) : slotPtr (withAddr d n k b) m k' = if m = n ∧ k' = k then b else slotPtr d m k' := by
  by_cases hm : m = n
  · subst hm
    have hd : withAddr d m k b m = { d m with addrs := Function.update (d m).addrs k b } :=
      Function.update_self ..
    rw [slotPtr, slotPtr, hd]
    change (if (d m).type = 0 then 0 else Function.update (d m).addrs k b k') = _
    rw [if_neg htype, if_neg htype, Function.update_apply]
    simp only [true_and]
  · rw [if_neg (show ¬(m = n ∧ k' = k) from fun hc => hm hc.1)]
    unfold slotPtr withAddr
    rw [Function.update_of_ne hm]

theorem pointer_newSlot {d : ℕ → Dinode} (h : Owns d fs) {n b : ℕ} {k : Fin 13}
    (htype : (d n).type ≠ 0) (hnull : slotPtr d n k = 0) (hfree : fs.inUse b = false) (p : Place) :
    pointer (withAddr d n k b) (Function.update fs.block b fun _ => 0) p =
      if p = .slot n k then b else pointer d fs.block p := by
  have hb : b ≠ 0 := h.exact.ne_zero hfree
  have hother : ∀ m, slotPtr d m 12 ≠ b := fun m => h.exact.ne_target hfree (.slot m 12)
  cases p with
  | slot m k' =>
    rw [pointer, slotPtr_withAddr htype]
    simp only [Place.slot.injEq, pointer]
  | entry m j =>
    rw [if_neg (by simp), pointer, pointer, slotPtr_withAddr htype]
    by_cases hm : m = n ∧ (12 : Fin 13) = k
    · obtain ⟨rfl, rfl⟩ := hm
      rw [if_pos (show m = m ∧ (12 : Fin 13) = 12 from ⟨rfl, rfl⟩), if_neg hb, Function.update_self,
        if_pos hnull]
      rfl
    · rw [if_neg hm]
      split_ifs with hzero
      · rfl
      · rw [Function.update_of_ne (hother m)]

theorem Owns.newSlot {d : ℕ → Dinode} (h : Owns d fs) {n b : ℕ} {k : Fin 13} (htype : (d n).type ≠ 0)
    (hnull : slotPtr d n k = 0) (hb : b < fs.size) (hfree : fs.inUse b = false) :
    Owns (withAddr d n k b) ((fs.mark b).setBlock b fun _ => 0) where
  size := h.size
  exact := h.exact.alloc (p := .slot n k) hnull hfree (pointer_newSlot h htype hnull hfree)
    (inUse_mark fs hb)

theorem pointer_newEntry {d : ℕ → Dinode} (h : Owns d fs) {n b : ℕ} {j : Fin 128} (hb : b < 2 ^ 32)
    (hind : slotPtr d n 12 ≠ 0) (hfree : fs.inUse b = false) (p : Place) :
    pointer d (Function.update (Function.update fs.block b fun _ => 0) (slotPtr d n 12)
      ((fs.block (slotPtr d n 12)).setWord j b)) p = if p = .entry n j then b else pointer d fs.block p := by
  have hother : ∀ m, slotPtr d m 12 ≠ b := fun m => h.exact.ne_target hfree (.slot m 12)
  cases p with
  | slot m k =>
    rw [if_neg (by simp)]
    rfl
  | entry m j' =>
    rw [pointer, pointer]
    by_cases hm : m = n
    · subst hm
      rw [if_neg hind, if_neg hind, Function.update_self]
      by_cases hj : j' = j
      · subst hj
        rw [if_pos rfl, BlockData.word_setWord _ _ _ hb]
      · rw [if_neg (by simp [hj]), BlockData.word_setWord_ne]
        exact fun hc => hj (Fin.ext hc)
    · rw [if_neg (show ¬Place.entry m j' = .entry n j by simp [hm])]
      split_ifs with hzero
      · rfl
      · -- two inodes have two indirect blocks
        have hne : slotPtr d m 12 ≠ slotPtr d n 12 := fun hc => hm (by
          have := h.exact.once (p := .slot m 12) (q := .slot n 12) hzero hc
          cases this
          rfl)
        rw [Function.update_of_ne hne, Function.update_of_ne (hother m)]

theorem Owns.newEntry {d : ℕ → Dinode} (h : Owns d fs) {n b : ℕ} {j : Fin 128} (hb : b < fs.size)
    (hind : slotPtr d n 12 ≠ 0) (hnull : (fs.block (slotPtr d n 12)).word j = 0)
    (hfree : fs.inUse b = false) :
    Owns d (((fs.mark b).setBlock b fun _ => 0).setBlock (slotPtr d n 12)
      ((fs.block (slotPtr d n 12)).setWord j b)) where
  size := h.size
  exact := by
    refine h.exact.alloc (p := .entry n j) ?_ hfree
      (pointer_newEntry h (lt_trans hb h.size) hind hfree) (inUse_mark fs hb)
    rw [pointer, if_neg hind, hnull]

theorem pointer_data {d : ℕ → Dinode} (h : Owns d fs) {p : Place}
    (hdata : ∀ m, p ≠ .slot m 12) (data : BlockData) (q : Place) :
    pointer d (Function.update fs.block (pointer d fs.block p) data) q = pointer d fs.block q := by
  refine pointer_congr (fun m hm => ?_) q
  rw [Function.update_of_ne]
  intro hc
  exact hdata m (h.exact.once (p := .slot m 12) hm hc).symm

/-! ### `balloc` and `bmap` -/

def Full (e : Halt) : Prop := e = .panic "balloc: out of blocks"

theorem freeBit_some {b k bi r : ℕ} (h : fs.freeBit b k bi = some r) : r < fs.size ∧ fs.bit r = false := by
  induction k generalizing bi with
  | zero => cases h
  | succ k ih =>
    rw [freeBit] at h
    split_ifs at h with hlt hbit
    · exact ih h
    · cases h
      exact ⟨hlt, Bool.eq_false_iff.2 hbit⟩

theorem freeBlock_some {k b r : ℕ} (h : fs.freeBlock k b = some r) : r < fs.size ∧ fs.bit r = false := by
  induction k generalizing b with
  | zero => cases h
  | succ k ih =>
    rw [freeBlock] at h
    split_ifs at h with hlt
    split at h
    case h_1 r' hr =>
      cases h
      exact freeBit_some hr
    case h_2 => exact ih h

theorem balloc_meets (fs : Fs) : Run.Meets Full
    (fun r => r.1 < fs.size ∧ fs.inUse r.1 = false ∧ r.2 = (fs.mark r.1).setBlock r.1 fun _ => 0)
    fs.balloc := by
  unfold balloc
  split
  case h_1 b hb =>
    obtain ⟨hlt, hbit⟩ := freeBlock_some hb
    refine ⟨hlt, ?_, rfl⟩
    rw [inUse, hbit, Bool.and_false]
  case h_2 => exact rfl

/-- What a caller that works on the cache entry `i` may have done: blocks were added to the inode. -/
structure Extends (fs fs' : Fs) (i : Fin 50) : Prop where
  size : fs'.size = fs.size
  nblocks : fs'.nblocks = fs.nblocks
  ninodes : fs'.ninodes = fs.ninodes
  dinode : fs'.dinode = fs.dinode
  others : ∀ j, j ≠ i → fs'.icache j = fs.icache j
  self : ∃ addrs, fs'.icache i = { fs.icache i with addrs := addrs }
  owns : Owns (fs'.view i) fs'
  keeps : ∀ p, pointer (fs.view i) fs.block p ≠ 0 →
    pointer (fs'.view i) fs'.block p = pointer (fs.view i) fs.block p

theorem Extends.refl (h : Owns (fs.view i) fs) : Extends fs fs i :=
  ⟨rfl, rfl, rfl, rfl, fun _ _ => rfl, ⟨_, rfl⟩, h, fun _ _ => rfl⟩

theorem Extends.trans {fs₁ fs₂ fs₃ : Fs} (h : Extends fs₁ fs₂ i) (h' : Extends fs₂ fs₃ i) :
    Extends fs₁ fs₃ i where
  size := h'.size.trans h.size
  nblocks := h'.nblocks.trans h.nblocks
  ninodes := h'.ninodes.trans h.ninodes
  dinode := h'.dinode.trans h.dinode
  others j hj := (h'.others j hj).trans (h.others j hj)
  self := by
    obtain ⟨addrs, ha⟩ := h.self
    obtain ⟨addrs', ha'⟩ := h'.self
    rw [ha] at ha'
    exact ⟨addrs', ha'⟩
  owns := h'.owns
  keeps p hp := by
    have hmid := h.keeps p hp
    rw [h'.keeps p (by rw [hmid]; exact hp), hmid]

theorem Extends.inum (h : Extends fs fs' i) : (fs'.icache i).inum = (fs.icache i).inum := by
  obtain ⟨addrs, ha⟩ := h.self
  rw [ha]

theorem Extends.type (h : Extends fs fs' i) : (fs'.icache i).type = (fs.icache i).type := by
  obtain ⟨addrs, ha⟩ := h.self
  rw [ha]

theorem view_self (fs : Fs) (i : Fin 50) : fs.view i (fs.icache i).inum = (fs.icache i).toDinode :=
  Function.update_self ..

theorem slotPtr_view (htype : (fs.icache i).type ≠ 0) (k : Fin 13) :
    slotPtr (fs.view i) (fs.icache i).inum k = (fs.icache i).addrs k := by
  rw [slotPtr, view_self, if_neg htype]

theorem view_setAddr (fs : Fs) (i : Fin 50) (k : Fin 13) (b : ℕ) :
    (fs.setAddr i k b).view i = withAddr (fs.view i) (fs.icache i).inum k b := by
  unfold view setAddr withAddr setInode
  dsimp only
  rw [Function.update_self, Function.update_idem, Function.update_self]

theorem setAddr_others (fs : Fs) {i j : Fin 50} (k : Fin 13) (b : ℕ) (hj : j ≠ i) :
    (fs.setAddr i k b).icache j = fs.icache j := Function.update_of_ne hj ..

theorem setAddr_self (fs : Fs) (i : Fin 50) (k : Fin 13) (b : ℕ) : (fs.setAddr i k b).icache i =
    { fs.icache i with addrs := Function.update (fs.icache i).addrs k b } := Function.update_self ..

theorem bmapSlot_meets (h : Owns (fs.view i) fs) (htype : (fs.icache i).type ≠ 0) (k : Fin 13) :
    Run.Meets Full (fun r => Extends fs r.2 i ∧ r.1 ≠ 0 ∧
      slotPtr (r.2.view i) (fs.icache i).inum k = r.1) (fs.bmapSlot i k) := by
  unfold bmapSlot
  split_ifs with hnull
  · refine (balloc_meets fs).bind ?_
    rintro ⟨b, fs₁⟩ ⟨hb, hfree, hfs⟩
    obtain rfl : fs₁ = (fs.mark b).setBlock b fun _ => 0 := hfs
    dsimp only at hb hfree ⊢
    have hview : (((fs.mark b).setBlock b fun _ => 0).setAddr i k b).view i =
        withAddr (fs.view i) (fs.icache i).inum k b := view_setAddr _ i k b
    have htype' : (fs.view i (fs.icache i).inum).type ≠ 0 := by rwa [view_self]
    have hslot : slotPtr (fs.view i) (fs.icache i).inum k = 0 := (slotPtr_view htype k).trans hnull
    refine ⟨⟨rfl, rfl, rfl, rfl, fun j hj => setAddr_others _ k b hj, ⟨_, setAddr_self _ i k b⟩, ?_, ?_⟩,
      h.exact.ne_zero hfree, ?_⟩
    · rw [hview]
      exact ⟨h.size, (h.newSlot htype' hslot hb hfree).exact⟩
    · intro p hp
      rw [hview]
      refine (pointer_newSlot h htype' hslot hfree p).trans (if_neg ?_)
      rintro rfl
      exact hp hslot
    · rw [hview, slotPtr_withAddr htype', if_pos ⟨rfl, rfl⟩]
  · exact ⟨.refl h, hnull, slotPtr_view htype k⟩

/-- The place of block `bn` of a file. -/
def place (inum bn : ℕ) : Place :=
  if h : bn < 12 then .slot inum (direct bn h) else .entry inum (Fin.ofNat 128 (bn - 12))

/-- Block `bn` of the inode in the cache entry `i`, or 0. -/
def blockAt (fs : Fs) (i : Fin 50) (bn : ℕ) : ℕ :=
  pointer (fs.view i) fs.block (place (fs.icache i).inum bn)

theorem place_ne_indirect (inum bn m : ℕ) : place inum bn ≠ .slot m 12 := by
  unfold place
  split_ifs with h
  · intro hc
    have hk : direct bn h = 12 := (Place.slot.inj hc).2
    have := congrArg Fin.val hk
    change bn = 12 at this
    omega
  · exact fun hc => by cases hc

theorem bmapEntry_meets (h : Owns (fs.view i) fs) {j : Fin 128}
    (hind : slotPtr (fs.view i) (fs.icache i).inum 12 ≠ 0) :
    Run.Meets Full (fun r => Extends fs r.2 i ∧ r.1 ≠ 0 ∧
      pointer (r.2.view i) r.2.block (.entry (fs.icache i).inum j) = r.1)
      (fs.bmapEntry (slotPtr (fs.view i) (fs.icache i).inum 12) j) := by
  have hentry : pointer (fs.view i) fs.block (.entry (fs.icache i).inum j) =
      (fs.block (slotPtr (fs.view i) (fs.icache i).inum 12)).word j := by rw [pointer, if_neg hind]
  unfold bmapEntry
  split_ifs with hnull
  · refine (balloc_meets fs).bind ?_
    rintro ⟨b, fs₁⟩ ⟨hb, hfree, hfs⟩
    obtain rfl : fs₁ = (fs.mark b).setBlock b fun _ => 0 := hfs
    dsimp only at hb hfree ⊢
    have hne : slotPtr (fs.view i) (fs.icache i).inum 12 ≠ b :=
      h.exact.ne_target hfree (.slot (fs.icache i).inum 12)
    -- the new block is not the indirect one
    have hsame : ((fs.mark b).setBlock b fun _ => 0).block (slotPtr (fs.view i) (fs.icache i).inum 12) =
        fs.block (slotPtr (fs.view i) (fs.icache i).inum 12) := Function.update_of_ne hne ..
    have hptr := pointer_newEntry (j := j) h (lt_trans hb h.size) hind hfree
    rw [hsame]
    refine ⟨⟨rfl, rfl, rfl, rfl, fun _ _ => rfl, ⟨_, rfl⟩, h.newEntry hb hind hnull hfree, fun p hp => ?_⟩,
      h.exact.ne_zero hfree, (hptr _).trans (if_pos rfl)⟩
    refine (hptr p).trans (if_neg ?_)
    rintro rfl
    exact hp (hentry.trans hnull)
  · exact ⟨.refl h, hnull, hentry⟩

theorem bmap_present (htype : (fs.icache i).type ≠ 0) {bn : ℕ} (hbn : bn < 140)
    (hat : fs.blockAt i bn ≠ 0) : fs.bmap i bn = .ok (fs.blockAt i bn, fs) := by
  unfold bmap
  split_ifs with hdirect hrange
  · have heq : fs.blockAt i bn = (fs.icache i).addrs (direct bn hdirect) := by
      rw [blockAt, place, dif_pos hdirect]
      exact slotPtr_view htype _
    rw [heq] at hat ⊢
    rw [bmapSlot, if_neg hat]
  · have hval : ((Fin.ofNat 128 (bn - 12) : Fin 128) : ℕ) = bn - 12 := Nat.mod_eq_of_lt hrange
    have heq : fs.blockAt i bn = if (fs.icache i).addrs 12 = 0 then 0
        else (fs.block ((fs.icache i).addrs 12)).word (bn - 12) := by
      rw [blockAt, place, dif_neg hdirect, pointer, slotPtr_view htype, hval]
    have hind : (fs.icache i).addrs 12 ≠ 0 := fun hc => hat (heq.trans (if_pos hc))
    rw [if_neg hind] at heq
    rw [heq] at hat ⊢
    rw [bmapSlot, if_neg hind]
    change fs.bmapEntry ((fs.icache i).addrs 12) (bn - 12) = _
    rw [bmapEntry, if_neg hat]
  · omega

/-- `bmap`: the block is there afterwards, and nothing changes if it was there before. -/
theorem bmap_meets (h : Owns (fs.view i) fs) (htype : (fs.icache i).type ≠ 0) {bn : ℕ} (hbn : bn < 140) :
    Run.Meets Full (fun r => Extends fs r.2 i ∧ r.1 ≠ 0 ∧ r.2.blockAt i bn = r.1 ∧
      (fs.blockAt i bn ≠ 0 → r.2 = fs)) (fs.bmap i bn) := by
  by_cases hat : fs.blockAt i bn = 0
  · unfold bmap
    split_ifs with hdirect hrange
    · refine (bmapSlot_meets h htype _).mono ?_
      rintro ⟨b, fs'⟩ ⟨hext, hb, hslot⟩
      refine ⟨hext, hb, ?_, fun hne => absurd hat hne⟩
      rw [blockAt, place, dif_pos hdirect, hext.inum]
      exact hslot
    · refine (bmapSlot_meets h htype 12).bind ?_
      rintro ⟨ind, fs₁⟩ ⟨hext, hind, hslot⟩
      have hval : ((Fin.ofNat 128 (bn - 12) : Fin 128) : ℕ) = bn - 12 := Nat.mod_eq_of_lt hrange
      rw [← hext.inum] at hslot
      have hmeets := bmapEntry_meets (j := Fin.ofNat 128 (bn - 12)) hext.owns (by rw [hslot]; exact hind)
      rw [hval, hslot] at hmeets
      refine hmeets.mono ?_
      rintro ⟨b, fs₂⟩ ⟨hext', hb, hentry⟩
      refine ⟨hext.trans hext', hb, ?_, fun hne => absurd hat hne⟩
      rw [blockAt, place, dif_neg hdirect, hext'.inum]
      exact hentry
    · omega
  · rw [bmap_present htype hbn hat]
    exact ⟨.refl h, hat, rfl, fun _ => rfl⟩

/-! ### Contents -/

theorem pointer_write (h : Owns (fs.view i) fs) {bn b : ℕ} (hb : fs.blockAt i bn = b) (data : BlockData)
    (p : Place) : pointer ((fs.setBlock b data).view i) (fs.setBlock b data).block p =
      pointer (fs.view i) fs.block p := by
  subst hb
  exact pointer_data h (place_ne_indirect _ bn) data p

theorem Extends.write (h : Owns (fs.view i) fs) {bn b : ℕ} (hb : fs.blockAt i bn = b)
    (data : BlockData) : Extends fs (fs.setBlock b data) i where
  size := rfl
  nblocks := rfl
  ninodes := rfl
  dinode := rfl
  others _ _ := rfl
  self := ⟨_, rfl⟩
  owns := ⟨h.size, h.exact.congr (pointer_write h hb data) fun _ => rfl⟩
  keeps p _ := pointer_write h hb data p

theorem Extends.blockAt (h : Extends fs fs' i) {bn : ℕ} (hbn : fs.blockAt i bn ≠ 0) :
    fs'.blockAt i bn = fs.blockAt i bn := by
  unfold Fs.blockAt at hbn ⊢
  rw [h.inum]
  exact h.keeps _ hbn

/-- The loop of `writei`: the blocks of the range are there afterwards, and the inode does not change if
they were there before. -/
theorem writeLoop_meets {fuel : ℕ} {src : ℕ → Byte} {left off : ℕ} (h : Owns (fs.view i) fs)
    (htype : (fs.icache i).type ≠ 0) (hfuel : left < fuel) (hrange : off + left ≤ 140 * 512) :
    Run.Meets Full (fun fs' => Extends fs fs' i ∧
      (∀ bn, off / 512 ≤ bn → bn * 512 < off + left → 0 < left → fs'.blockAt i bn ≠ 0) ∧
      ((∀ bn, off / 512 ≤ bn → bn * 512 < off + left → 0 < left → fs.blockAt i bn ≠ 0) →
        fs'.icache = fs.icache)) (writeLoop i fuel src left off fs) := by
  induction fuel generalizing src left off fs with
  | zero => exact absurd hfuel (Nat.not_lt_zero _)
  | succ fuel ih =>
    rw [writeLoop]
    split_ifs with hleft
    · have hbn : off / 512 < 140 := by omega
      refine (bmap_meets h htype hbn).bind ?_
      rintro ⟨b, fs₁⟩ ⟨hext, hb, hat, hsame⟩
      dsimp only at hext hb hat hsame ⊢
      have hwrite := Extends.write hext.owns hat
        ((fs₁.block b).copyIn (off % 512) (min left (512 - off % 512)) src)
      generalize hfs₂ : fs₁.setBlock b _ = fs₂ at hwrite ⊢
      have hext₂ := hext.trans hwrite
      have hhere : fs₂.blockAt i (off / 512) ≠ 0 := by
        rw [hwrite.blockAt (by rw [hat]; exact hb), hat]
        exact hb
      refine (ih hwrite.owns (by rwa [hext₂.type]) (by omega) (by omega)).mono ?_
      rintro fs' ⟨hext', hthere, hkeep⟩
      refine ⟨hext₂.trans hext', fun bn hlow hhigh _ => ?_, fun hpresent => ?_⟩
      · by_cases hbn : bn = off / 512
        · subst hbn
          rw [hext'.blockAt hhere]
          exact hhere
        · exact hthere bn (by omega) (by omega) (by omega)
      · -- a block that was there is found again, so that nothing is entered into the inode
        have hfs₁ : fs₁ = fs := hsame (hpresent _ le_rfl (by omega) hleft)
        have hcache : fs₂.icache = fs.icache := by
          rw [← hfs₂, hfs₁]
          rfl
        rw [← hcache]
        refine hkeep fun bn hlow hhigh _ => ?_
        have hbn := hpresent bn (by omega) (by omega) hleft
        rw [hext₂.blockAt hbn]
        exact hbn
    · exact ⟨.refl h, fun _ _ _ hc => absurd hc hleft, fun _ => rfl⟩

theorem readLoop_ok {fuel left off : ℕ} {dst : List Byte} (htype : (fs.icache i).type ≠ 0)
    (hfuel : left < fuel) (hrange : off + left ≤ 140 * 512)
    (hthere : ∀ bn, bn * 512 < off + left → fs.blockAt i bn ≠ 0) :
    ∃ dst', readLoop i fuel left off dst fs = .ok (dst', fs) := by
  induction fuel generalizing left off dst with
  | zero => exact absurd hfuel (Nat.not_lt_zero _)
  | succ fuel ih =>
    rw [readLoop]
    split_ifs with hleft
    · rw [bmap_present htype (by omega) (hthere (off / 512) (by omega))]
      exact ih (by omega) (by omega) fun bn hlt => hthere bn (by omega)
    · exact ⟨dst, rfl⟩

/-! ### `itrunc` -/

/-- What `itrunc` may have done on its way: blocks were taken from the inode. -/
structure Shrinks (fs fs' : Fs) (i : Fin 50) : Prop where
  size : fs'.size = fs.size
  nblocks : fs'.nblocks = fs.nblocks
  ninodes : fs'.ninodes = fs.ninodes
  dinode : fs'.dinode = fs.dinode
  block : fs'.block = fs.block
  others : ∀ j, j ≠ i → fs'.icache j = fs.icache j
  self : ∃ addrs, fs'.icache i = { fs.icache i with addrs := addrs } ∧
    ∀ k, (fs.icache i).addrs k = 0 → addrs k = 0
  owns : Owns (fs'.view i) fs'

theorem Shrinks.refl (h : Owns (fs.view i) fs) : Shrinks fs fs i :=
  ⟨rfl, rfl, rfl, rfl, rfl, fun _ _ => rfl, ⟨_, rfl, fun _ => id⟩, h⟩

theorem Shrinks.trans {fs₁ fs₂ fs₃ : Fs} (h : Shrinks fs₁ fs₂ i) (h' : Shrinks fs₂ fs₃ i) :
    Shrinks fs₁ fs₃ i where
  size := h'.size.trans h.size
  nblocks := h'.nblocks.trans h.nblocks
  ninodes := h'.ninodes.trans h.ninodes
  dinode := h'.dinode.trans h.dinode
  block := h'.block.trans h.block
  others j hj := (h'.others j hj).trans (h.others j hj)
  self := by
    obtain ⟨addrs, ha, hzero⟩ := h.self
    obtain ⟨addrs', ha', hzero'⟩ := h'.self
    rw [ha] at ha' hzero'
    exact ⟨addrs', ha', fun k hk => hzero' k (hzero k hk)⟩
  owns := h'.owns

theorem Shrinks.type (h : Shrinks fs fs' i) : (fs'.icache i).type = (fs.icache i).type := by
  obtain ⟨addrs, ha, -⟩ := h.self
  rw [ha]

theorem Shrinks.zero (h : Shrinks fs fs' i) {k : Fin 13} (hk : (fs.icache i).addrs k = 0) :
    (fs'.icache i).addrs k = 0 := by
  obtain ⟨addrs, ha, hzero⟩ := h.self
  rw [ha]
  exact hzero k hk

theorem bfree_ok {b : ℕ} (h : fs.bit b = true) : fs.bfree b = .ok (fs.unmark b) := by
  rw [bfree, if_neg (by rw [h]; simp)]

theorem pointer_dropSlot {d : ℕ → Dinode} {block : ℕ → BlockData} {n b : ℕ} {k : Fin 13}
    (htype : (d n).type ≠ 0) (hk : k ≠ 12) (p : Place) :
    pointer (withAddr d n k b) block p = if p = .slot n k then b else pointer d block p := by
  cases p with
  | slot m k' =>
    rw [pointer, slotPtr_withAddr htype]
    simp only [Place.slot.injEq, pointer]
  | entry m j =>
    rw [if_neg (by simp), pointer, pointer, slotPtr_withAddr htype,
      if_neg (show ¬(m = n ∧ 12 = k) from fun hc => hk hc.2.symm)]

theorem freeSlots_ok {ks : List (Fin 13)} (h : Owns (fs.view i) fs) (htype : (fs.icache i).type ≠ 0)
    (hks : ∀ k ∈ ks, k ≠ 12) : ∃ fs', freeSlots i ks fs = .ok fs' ∧ Shrinks fs fs' i ∧
      ∀ k ∈ ks, (fs'.icache i).addrs k = 0 := by
  induction ks generalizing fs with
  | nil => exact ⟨fs, rfl, .refl h, fun k hk => by cases hk⟩
  | cons k ks ih =>
    have hrest : ∀ k' ∈ ks, k' ≠ 12 := fun k' hk' => hks k' (List.mem_cons_of_mem k hk')
    rw [freeSlots]
    split_ifs with hnull
    · obtain ⟨fs', hrun, hshrink, hzero⟩ := ih h htype hrest
      refine ⟨fs', hrun, hshrink, fun k' hk' => ?_⟩
      rcases List.mem_cons.1 hk' with rfl | hk'
      · exact hshrink.zero hnull
      · exact hzero k' hk'
    · have htype' : (fs.view i (fs.icache i).inum).type ≠ 0 := by rwa [view_self]
      have hslot : pointer (fs.view i) fs.block (.slot (fs.icache i).inum k) = (fs.icache i).addrs k :=
        slotPtr_view htype k
      have hbit := (h.lt (hslot ▸ hnull)).2
      rw [hslot] at hbit
      rw [bfree_ok hbit]
      have hstep : Shrinks fs ((fs.unmark ((fs.icache i).addrs k)).setAddr i k 0) i := by
        refine ⟨rfl, rfl, rfl, rfl, rfl, fun j hj => setAddr_others _ k 0 hj,
          ⟨_, setAddr_self _ i k 0, fun k' hk' => ?_⟩, h.size, ?_⟩
        · change Function.update (fs.icache i).addrs k 0 k' = 0
          rw [Function.update_apply, hk', ite_self]
        · rw [view_setAddr]
          refine h.exact.release (p := .slot (fs.icache i).inum k) (hslot ▸ hnull)
            (pointer_dropSlot htype' (hks k List.mem_cons_self)) fun c => ?_
          rw [hslot]
          exact inUse_unmark fs _ c
      obtain ⟨fs', hrun, hshrink, hzero⟩ := ih hstep.owns (by rwa [hstep.type]) hrest
      refine ⟨fs', hrun, hstep.trans hshrink, fun k' hk' => ?_⟩
      rcases List.mem_cons.1 hk' with rfl | hk'
      · refine hshrink.zero ?_
        rw [setAddr_self]
        exact Function.update_self ..
      · exact hzero k' hk'

/-- The references without some entries of the indirect block of `n`. -/
def without (n : ℕ) (js : List ℕ) (target : Place → ℕ) : Place → ℕ
  | .entry m j => if m = n ∧ (j : ℕ) ∈ js then 0 else target (.entry m j)
  | .slot m k => target (.slot m k)

theorem without_cons {n : ℕ} {js : List ℕ} {target : Place → ℕ} (j : Fin 128) (p : Place) :
    without n ((j : ℕ) :: js) target p = if p = .entry n j then 0 else without n js target p := by
  cases p with
  | slot m k =>
    rw [if_neg (by simp)]
    rfl
  | entry m j' =>
    rw [without, without]
    by_cases hp : m = n ∧ j' = j
    · obtain ⟨rfl, rfl⟩ := hp
      rw [if_pos (show m = m ∧ (j' : ℕ) ∈ (j' : ℕ) :: js from ⟨rfl, List.mem_cons_self⟩), if_pos rfl]
    · rw [if_neg (show ¬Place.entry m j' = .entry n j by simpa using hp)]
      have hmem : m = n ∧ (j' : ℕ) ∈ (j : ℕ) :: js ↔ m = n ∧ (j' : ℕ) ∈ js := by
        refine and_congr_right fun hm => ?_
        rw [List.mem_cons, or_iff_right]
        exact fun hj => hp ⟨hm, Fin.ext hj⟩
      simp only [hmem]

theorem freeEntries_ok {n : ℕ} {a : ℕ → ℕ} {target : Place → ℕ} {js done : List ℕ}
    (h : Owner.Exact fs.Fixed (without n done target) fs.inUse)
    (ha : ∀ j : Fin 128, target (.entry n j) = a j) (hjs : ∀ j ∈ js, j < 128) (hnodup : js.Nodup)
    (hfresh : ∀ j ∈ js, j ∉ done) :
    ∃ bitmap done', freeEntries a js fs = .ok { fs with bitmap := bitmap } ∧
      (∀ j, j ∈ js ∨ j ∈ done → j ∈ done' ∨ a j = 0) ∧
      Owner.Exact fs.Fixed (without n done' target) { fs with bitmap := bitmap }.inUse := by
  induction js generalizing fs done with
  | nil => exact ⟨fs.bitmap, done, rfl, fun j hj => .inl (hj.resolve_left (by simp)), h⟩
  | cons j js ih =>
    obtain ⟨hj, hjs'⟩ := List.nodup_cons.1 hnodup
    have hrest : ∀ j' ∈ js, j' < 128 := fun j' hj' => hjs j' (List.mem_cons_of_mem j hj')
    rw [freeEntries]
    split_ifs with hnull
    · obtain ⟨bitmap, done', hrun, hall, hexact⟩ := ih h hrest hjs' fun j' hj' =>
        hfresh j' (List.mem_cons_of_mem j hj')
      refine ⟨bitmap, done', hrun, fun j' hj' => ?_, hexact⟩
      rcases hj' with hj' | hj'
      · rcases List.mem_cons.1 hj' with rfl | hj'
        · exact .inr hnull
        · exact hall j' (.inl hj')
      · exact hall j' (.inr hj')
    · obtain ⟨j, rfl⟩ : ∃ k : Fin 128, (k : ℕ) = j := ⟨⟨j, hjs j List.mem_cons_self⟩, rfl⟩
      have hentry : without n done target (.entry n j) = a j := by
        rw [without, if_neg (fun hc => hfresh j List.mem_cons_self hc.2), ha]
      have hne : without n done target (.entry n j) ≠ 0 := by rwa [hentry]
      have hused := h.used_target hne
      rw [hentry, inUse, Bool.and_eq_true_iff] at hused
      rw [bfree_ok hused.2]
      have hstep : Owner.Exact (fs.unmark (a j)).Fixed (without n ((j : ℕ) :: done) target)
          (fs.unmark (a j)).inUse :=
        h.release hne (without_cons j) fun c => by rw [hentry, inUse_unmark]
      obtain ⟨bitmap, done', hrun, hall, hexact⟩ := ih hstep hrest hjs' fun j' hj' hmem => by
          rcases List.mem_cons.1 hmem with rfl | hmem
          · exact hj hj'
          · exact hfresh j' (List.mem_cons_of_mem _ hj') hmem
      refine ⟨bitmap, done', hrun, fun j' hj' => hall j' ?_, hexact⟩
      rcases hj' with hj' | hj'
      · rcases List.mem_cons.1 hj' with rfl | hj'
        · exact .inr List.mem_cons_self
        · exact .inl hj'
      · exact .inr (List.mem_cons_of_mem _ hj')

theorem freeIndirect_ok (h : Owns (fs.view i) fs) (htype : (fs.icache i).type ≠ 0) :
    ∃ fs', fs.freeIndirect i = .ok fs' ∧ Shrinks fs fs' i ∧ (fs'.icache i).addrs 12 = 0 := by
  unfold freeIndirect
  dsimp only
  split_ifs with hnull
  · exact ⟨fs, rfl, .refl h, hnull⟩
  · have htype' : (fs.view i (fs.icache i).inum).type ≠ 0 := by rwa [view_self]
    have hind : slotPtr (fs.view i) (fs.icache i).inum 12 = (fs.icache i).addrs 12 := slotPtr_view htype 12
    have hentry : ∀ j : Fin 128, pointer (fs.view i) fs.block (.entry (fs.icache i).inum j) =
        (fs.block ((fs.icache i).addrs 12)).word j := fun j => by
      rw [pointer, hind, if_neg hnull]
    have hstart : Owner.Exact fs.Fixed
        (without (fs.icache i).inum [] (pointer (fs.view i) fs.block)) fs.inUse := by
      refine h.exact.congr (fun p => ?_) fun _ => rfl
      cases p with
      | slot m k => rfl
      | entry m j => exact if_neg (by simp)
    obtain ⟨bitmap, done, hrun, hall, hexact⟩ := freeEntries_ok hstart hentry
      (fun j hj => List.mem_range.1 hj) List.nodup_range (fun _ _ => by simp)
    have hslot : without (fs.icache i).inum done (pointer (fs.view i) fs.block)
        (.slot (fs.icache i).inum 12) = (fs.icache i).addrs 12 := hind
    have hused := hexact.used_target (hslot ▸ hnull)
    rw [hslot, inUse, Bool.and_eq_true_iff] at hused
    rw [hrun]
    change ∃ fs', (Fs.bfree _ _ >>= fun fs => _) = _ ∧ _
    rw [bfree_ok hused.2]
    refine ⟨_, rfl, ⟨rfl, rfl, rfl, rfl, rfl, fun j hj => setAddr_others _ 12 0 hj,
      ⟨_, setAddr_self _ i 12 0, fun k hk => ?_⟩, h.size, ?_⟩, ?_⟩
    · change Function.update (fs.icache i).addrs 12 0 k = 0
      rw [Function.update_apply, hk, ite_self]
    · rw [view_setAddr]
      refine hexact.release (p := .slot (fs.icache i).inum 12) (hslot ▸ hnull) (fun p => ?_) fun c => ?_
      · change pointer (withAddr (fs.view i) (fs.icache i).inum 12 0) fs.block p = _
        cases p with
        | slot m k =>
          rw [pointer, slotPtr_withAddr htype']
          simp only [Place.slot.injEq, without, pointer]
        | entry m j =>
          rw [if_neg (by simp), pointer, slotPtr_withAddr htype', without]
          by_cases hm : m = (fs.icache i).inum
          · subst hm
            rw [if_pos (show (fs.icache i).inum = _ ∧ (12 : Fin 13) = 12 from ⟨rfl, rfl⟩), if_pos rfl]
            split_ifs with hdone
            · rfl
            · rcases hall j (.inl (List.mem_range.2 j.isLt)) with hmem | hzero
              · exact absurd ⟨rfl, hmem⟩ hdone
              · rw [hentry, hzero]
          · rw [if_neg (show ¬(m = _ ∧ (12 : Fin 13) = 12) from fun hc => hm hc.1),
              if_neg (show ¬(m = _ ∧ (j : ℕ) ∈ done) from fun hc => hm hc.1), pointer]
      · rw [hslot]
        exact inUse_unmark { fs with bitmap := bitmap } _ c
    · rw [setAddr_self]
      change Function.update (fs.icache i).addrs 12 0 12 = 0
      rw [Function.update_self]

theorem itrunc_ok (h : Owns (fs.view i) fs) (htype : (fs.icache i).type ≠ 0) :
    ∃ fs', fs.itrunc i = .ok ((fs'.setInode i { fs'.icache i with size := 0 }).iupdate i) ∧
      Shrinks fs fs' i ∧ ∀ k, (fs'.icache i).addrs k = 0 := by
  have hks : ∀ k ∈ directSlots, k ≠ 12 := by decide
  obtain ⟨fs₁, hrun₁, hshrink₁, hzero₁⟩ := freeSlots_ok h htype hks
  obtain ⟨fs₂, hrun₂, hshrink₂, hzero₂⟩ := freeIndirect_ok hshrink₁.owns (by rwa [hshrink₁.type])
  refine ⟨fs₂, ?_, hshrink₁.trans hshrink₂, fun k => ?_⟩
  · unfold itrunc
    rw [hrun₁]
    change (fs₁.freeIndirect i >>= fun fs => _) = _
    rw [hrun₂]
    rfl
  · by_cases hk : k = 12
    · rw [hk]
      exact hzero₂
    · have hmem : ∀ k : Fin 13, k ≠ 12 → k ∈ directSlots := by decide
      exact hshrink₂.zero (hzero₁ k (hmem k hk))

end Fs

end Xv6
