import Xv6.Blocks

/-!
# Runs of the inode layer

Any sequence of `ialloc`, `iget`, `idup`, `ilock`, `readi`, `writei`, `itrunc` and `iput`, and of changes
of a link count, on an image that is in order.  Between two calls the cache agrees with the disk, and the
references on the disk are exact.
-/

namespace Xv6

namespace Fs

variable {fs fs' : Fs} {i : Fin 50}

/-- No block below the size of an allocated inode is missing. -/
def Filled (d : ℕ → Dinode) (block : ℕ → BlockData) : Prop :=
  ∀ inum, (d inum).type ≠ 0 → ∀ bn, bn * 512 < (d inum).size →
    bn < 140 ∧ pointer d block (place inum bn) ≠ 0

/-- What holds between two calls. -/
structure Sound (fs : Fs) : Prop where
  owns : Owns fs.dinode fs
  filled : Filled fs.dinode fs.block
  cached : ∀ i, 0 < (fs.icache i).ref → (fs.icache i).valid = true →
    fs.dinode (fs.icache i).inum = (fs.icache i).toDinode ∧ (fs.icache i).type ≠ 0
  unique : ∀ i j, 0 < (fs.icache i).ref → 0 < (fs.icache j).ref →
    (fs.icache i).inum = (fs.icache j).inum → i = j

/-- The entry is referred to, and has been locked. -/
def Locked (fs : Fs) (i : Fin 50) : Prop := 0 < (fs.icache i).ref ∧ (fs.icache i).valid = true

theorem Sound.view_eq (h : fs.Sound) (hi : fs.Locked i) : fs.view i = fs.dinode := by
  rw [view, ← (h.cached i hi.1 hi.2).1, Function.update_eq_self]

theorem Sound.owns_view (h : fs.Sound) (hi : fs.Locked i) : Owns (fs.view i) fs := by
  rw [h.view_eq hi]
  exact h.owns

/-! ### What the references depend on -/

theorem pointer_congr_dinode {d d' : ℕ → Dinode} {block : ℕ → BlockData}
    (h : ∀ m k, slotPtr d' m k = slotPtr d m k) (p : Place) : pointer d' block p = pointer d block p := by
  cases p with
  | slot m k => exact h m k
  | entry m j => rw [pointer, pointer, h]

theorem pointer_local {d d' : ℕ → Dinode} {block : ℕ → BlockData} {m bn : ℕ} (h : d' m = d m) :
    pointer d' block (place m bn) = pointer d block (place m bn) := by
  unfold place
  split_ifs
  · rw [pointer, pointer, slotPtr, slotPtr, h]
  · rw [pointer, pointer, slotPtr, slotPtr, h]

theorem slotPtr_replace {d : ℕ → Dinode} {n : ℕ} {x : Dinode}
    (h : ∀ k, slotPtr (Function.update d n x) n k = slotPtr d n k) (m : ℕ) (k : Fin 13) :
    slotPtr (Function.update d n x) m k = slotPtr d m k := by
  by_cases hm : m = n
  · rw [hm]
    exact h k
  · rw [slotPtr, slotPtr, Function.update_of_ne hm]

theorem Owns.replace {d : ℕ → Dinode} (h : Owns d fs) {n : ℕ} {x : Dinode}
    (hx : ∀ k, slotPtr (Function.update d n x) n k = slotPtr d n k) :
    Owns (Function.update d n x) fs where
  size := h.size
  exact := h.exact.congr (pointer_congr_dinode (slotPtr_replace hx)) fun _ => rfl

section

variable (h : fs.Sound)

include h

theorem Sound.finish {x : Dinode} (hdinode : fs'.dinode = Function.update fs.dinode (fs.icache i).inum x)
    (hothers : ∀ j, j ≠ i → fs'.icache j = fs.icache j) (hinum : (fs'.icache i).inum = (fs.icache i).inum)
    (href : 0 < (fs'.icache i).ref → 0 < (fs.icache i).ref) (hi : 0 < (fs.icache i).ref)
    (hcached : (fs'.icache i).valid = true → x = (fs'.icache i).toDinode ∧ (fs'.icache i).type ≠ 0)
    (howns : Owns fs'.dinode fs') (hfilled : Filled fs'.dinode fs'.block) : fs'.Sound := by
  refine ⟨howns, hfilled, fun j hj hvalid => ?_, fun j k hj hk heq => ?_⟩
  · by_cases hji : j = i
    · subst hji
      rw [hdinode, hinum, Function.update_self]
      exact hcached hvalid
    · rw [hothers j hji] at hj hvalid ⊢
      have hne : (fs.icache j).inum ≠ (fs.icache i).inum := fun hc => hji (h.unique j i hj hi hc)
      rw [hdinode, Function.update_of_ne hne]
      exact h.cached j hj hvalid
  · have hback : ∀ l, 0 < (fs'.icache l).ref →
        0 < (fs.icache l).ref ∧ (fs'.icache l).inum = (fs.icache l).inum := fun l hl => by
      by_cases hli : l = i
      · subst hli
        exact ⟨href hl, hinum⟩
      · rw [hothers l hli] at hl ⊢
        exact ⟨hl, rfl⟩
    obtain ⟨hj, hjn⟩ := hback j hj
    obtain ⟨hk, hkn⟩ := hback k hk
    rw [hjn, hkn] at heq
    exact h.unique j k hj hk heq

theorem Sound.iupdate (hi : 0 < (fs.icache i).ref) {fs₁ : Fs} {ip : Inode}
    (hdinode : fs₁.dinode = fs.dinode) (hothers : ∀ j, j ≠ i → fs₁.icache j = fs.icache j)
    (hinum : (fs₁.icache i).inum = (fs.icache i).inum) (hip : ip.inum = (fs.icache i).inum)
    (hcached : ip.valid = true → ip.type ≠ 0) (howns : Owns (fs₁.view i) fs₁)
    (hblocks : ∀ k, slotPtr (Function.update (fs₁.view i) (fs.icache i).inum ip.toDinode)
      (fs.icache i).inum k = slotPtr (fs₁.view i) (fs.icache i).inum k)
    (hkeeps : ∀ m bn, m ≠ (fs.icache i).inum → pointer fs.dinode fs.block (place m bn) ≠ 0 →
      pointer (fs₁.view i) fs₁.block (place m bn) ≠ 0)
    (hsize : ip.type ≠ 0 → ∀ bn, bn * 512 < ip.size →
      bn < 140 ∧ pointer (fs₁.view i) fs₁.block (place (fs.icache i).inum bn) ≠ 0) :
    ((fs₁.setInode i ip).iupdate i).Sound := by
  have hself : (fs₁.setInode i ip).icache i = ip := Function.update_self ..
  have hd : ((fs₁.setInode i ip).iupdate i).dinode =
      Function.update fs.dinode (fs.icache i).inum ip.toDinode := by
    change Function.update fs₁.dinode ((fs₁.setInode i ip).icache i).inum _ = _
    rw [hself, hip, hdinode]
  have hview : Function.update fs.dinode (fs.icache i).inum ip.toDinode =
      Function.update (fs₁.view i) (fs.icache i).inum ip.toDinode := by
    rw [view, hinum, Function.update_idem, hdinode]
  refine h.finish hd (fun j hj => ?_) ?_ (fun _ => hi) hi (fun hvalid => ?_) ?_ ?_
  · rw [← hothers j hj]
    exact Function.update_of_ne hj ..
  · change ((fs₁.setInode i ip).icache i).inum = _
    rw [hself, hip]
  · change ((fs₁.setInode i ip).icache i).valid = true at hvalid
    change ip.toDinode = ((fs₁.setInode i ip).icache i).toDinode ∧ ((fs₁.setInode i ip).icache i).type ≠ 0
    rw [hself] at hvalid ⊢
    exact ⟨rfl, hcached hvalid⟩
  · rw [hd, hview]
    exact ⟨howns.size, (howns.replace hblocks).exact⟩
  · intro m htype bn hbn
    change bn < 140 ∧ pointer _ fs₁.block _ ≠ 0
    rw [hd, hview, pointer_congr_dinode (slotPtr_replace hblocks)]
    rw [hd] at htype hbn
    by_cases hm : m = (fs.icache i).inum
    · subst hm
      rw [Function.update_self] at htype hbn
      exact hsize htype bn hbn
    · rw [Function.update_of_ne hm] at htype hbn
      obtain ⟨hlt, hptr⟩ := h.filled m htype bn hbn
      exact ⟨hlt, hkeeps m bn hm hptr⟩

/-! ### `writei`, `readi` and `itrunc` -/

theorem Sound.blockAt_eq (hi : fs.Locked i) (bn : ℕ) :
    fs.blockAt i bn = pointer fs.dinode fs.block (place (fs.icache i).inum bn) := by
  rw [blockAt, h.view_eq hi]

theorem Sound.there (hi : fs.Locked i) {bn : ℕ} (hbn : bn * 512 < (fs.icache i).size) :
    bn < 140 ∧ fs.blockAt i bn ≠ 0 := by
  obtain ⟨hdinode, htype⟩ := h.cached i hi.1 hi.2
  rw [h.blockAt_eq hi]
  refine h.filled _ ?_ bn ?_
  · rw [hdinode]
    exact htype
  · rw [hdinode]
    exact hbn

theorem Sound.size_le (hi : fs.Locked i) : (fs.icache i).size ≤ 140 * 512 := by
  by_contra hlarge
  have hsize : 140 * 512 < (fs.icache i).size := by omega
  exact lt_irrefl _ (h.there hi hsize).1

theorem writei_meets (hi : fs.Locked i) (src : ℕ → Byte) (off n : ℕ) :
    Run.Meets Full (fun r => r.2.Sound) (fs.writei i src off n) := by
  obtain ⟨hdinode, htype⟩ := h.cached i hi.1 hi.2
  unfold writei
  dsimp only
  split_ifs with hdev hhas hbad hlarge
  · exact h
  · exact h
  · exact h
  · exact h
  · have hrange : off + n ≤ 140 * 512 := not_lt.1 hlarge
    have hsize : off ≤ (fs.icache i).size := by omega
    refine (writeLoop_meets (h.owns_view hi) htype (Nat.lt_succ_self n) hrange).bind ?_
    rintro fs₁ ⟨hext, hthere, hsame⟩
    have hkeeps : ∀ m bn, pointer fs.dinode fs.block (place m bn) ≠ 0 →
        pointer (fs₁.view i) fs₁.block (place m bn) ≠ 0 := fun m bn hptr => by
      rw [← h.view_eq hi] at hptr
      rw [hext.keeps _ hptr]
      exact hptr
    have hview : fs₁.view i = Function.update fs.dinode (fs.icache i).inum (fs₁.icache i).toDinode := by
      rw [view, hext.dinode, hext.inum]
    have hrefs : (fs₁.icache i).ref = (fs.icache i).ref ∧ (fs₁.icache i).size = (fs.icache i).size := by
      obtain ⟨addrs, ha⟩ := hext.self
      rw [ha]
      exact ⟨rfl, rfl⟩
    split_ifs with hgrow
    · -- the size grows to `off + n`: the new blocks are those of the range
      refine h.iupdate hi.1 hext.dinode hext.others hext.inum hext.inum (fun _ => ?_) hext.owns (fun k => ?_)
        (fun m bn _ => hkeeps m bn) fun _ bn hbn => ⟨?_, ?_⟩
      · rwa [← hext.type] at htype
      · rw [hview, Function.update_idem, slotPtr, slotPtr, Function.update_self, Function.update_self]
      · change bn * 512 < off + n at hbn
        omega
      · change bn * 512 < off + n at hbn
        by_cases hold : bn * 512 < (fs.icache i).size
        · have hptr := (h.there hi hold).2
          rw [h.blockAt_eq hi] at hptr
          exact hkeeps _ bn hptr
        · rw [← hext.inum]
          exact hthere bn (by omega) (by omega) hgrow.1
    · -- no block was missing, so that the inode is as it was
      have hicache : fs₁.icache = fs.icache := by
        refine hsame fun bn _ hbn hpos => (h.there hi ?_).2
        rw [hrefs.2] at hgrow
        omega
      have hviewd : fs₁.view i = fs₁.dinode := by
        rw [hview, hicache, ← hdinode, Function.update_eq_self, hext.dinode]
      refine h.finish (x := (fs.icache i).toDinode) ?_ hext.others hext.inum (by rw [hrefs.1]; exact id) hi.1
        (fun _ => ?_) ?_ ?_
      · rw [← hdinode, Function.update_eq_self]
        exact hext.dinode
      · rw [hicache]
        exact ⟨rfl, htype⟩
      · rw [← hviewd]
        exact hext.owns
      · intro m hm bn hbn
        rw [hext.dinode] at hm hbn
        obtain ⟨hlt, hptr⟩ := h.filled m hm bn hbn
        rw [← hviewd]
        exact ⟨hlt, hkeeps m bn hptr⟩

theorem readi_ok (hi : fs.Locked i) (off n : ℕ) (input : List Byte) :
    ∃ r, fs.readi i off n input = .ok (r, fs) := by
  obtain ⟨-, htype⟩ := h.cached i hi.1 hi.2
  have hsize := h.size_le hi
  -- the loop stays below the size
  have hloop : ∀ left, off + left ≤ (fs.icache i).size →
      ∃ dst, readLoop i (left + 1) left off [] fs = .ok (dst, fs) := fun left hleft =>
    readLoop_ok htype (Nat.lt_succ_self left) (by omega) fun bn hbn => (h.there hi (by omega)).2
  unfold readi
  dsimp only
  split_ifs with hdev hhas hbad hlarge
  · exact ⟨_, rfl⟩
  · exact ⟨_, rfl⟩
  · exact ⟨_, rfl⟩
  · obtain ⟨dst, hdst⟩ := hloop ((fs.icache i).size - off) (by omega)
    rw [hdst]
    exact ⟨_, rfl⟩
  · obtain ⟨dst, hdst⟩ := hloop n (by omega)
    rw [hdst]
    exact ⟨_, rfl⟩

theorem Sound.itrunc (hi : fs.Locked i) : ∃ fs', fs.itrunc i = .ok fs' ∧ fs'.Sound ∧
    fs'.Locked i ∧ ∀ k, (fs'.icache i).addrs k = 0 := by
  obtain ⟨hdinode, htype⟩ := h.cached i hi.1 hi.2
  obtain ⟨fs₁, hrun, hshrink, hzero⟩ := itrunc_ok (h.owns_view hi) htype
  obtain ⟨addrs, hself, -⟩ := hshrink.self
  have hinum : (fs₁.icache i).inum = (fs.icache i).inum := by rw [hself]
  have hnew : ((fs₁.setInode i { fs₁.icache i with size := 0 }).iupdate i).icache i =
      { fs₁.icache i with size := 0 } := Function.update_self ..
  refine ⟨_, hrun, h.iupdate hi.1 hshrink.dinode hshrink.others hinum hinum (fun _ => ?_) hshrink.owns
    (fun k => ?_) (fun m bn hm hptr => ?_) fun _ bn hbn => absurd hbn (Nat.not_lt_zero _), ?_⟩
  · rwa [← hshrink.type] at htype
  · rw [← hinum, view, Function.update_idem, slotPtr, slotPtr, Function.update_self, Function.update_self]
  · rw [hshrink.block, pointer_local (d := fs.dinode)]
    · exact hptr
    · rw [view, hinum, Function.update_of_ne hm, hshrink.dinode]
  · rw [Locked, hnew]
    refine ⟨?_, hzero⟩
    change 0 < (fs₁.icache i).ref ∧ (fs₁.icache i).valid = true
    rw [hself]
    exact hi

/-! ### The inode cache -/

theorem Sound.reset (hi : 0 < (fs.icache i).ref) {ip : Inode} (hinum : ip.inum = (fs.icache i).inum)
    (hvalid : ip.valid = true → fs.dinode (fs.icache i).inum = ip.toDinode ∧ ip.type ≠ 0) : (fs.setInode i ip).Sound := by
  have hself : (fs.setInode i ip).icache i = ip := Function.update_self ..
  refine h.finish (i := i) (x := fs.dinode (fs.icache i).inum) ?_ (fun j hj => Function.update_of_ne hj ..)
    ?_ (fun _ => hi) hi (fun hv => ?_) ⟨h.owns.size, h.owns.exact⟩ h.filled
  · rw [Function.update_eq_self]
    rfl
  · rw [hself, hinum]
  · rw [hself] at hv ⊢
    exact hvalid hv

theorem Sound.idup (hi : 0 < (fs.icache i).ref) : (fs.idup i).Sound :=
  h.reset hi rfl (h.cached i hi)

theorem Sound.recycle {inum : ℕ} (hi : (fs.icache i).ref = 0)
    (hmiss : ∀ j, ¬(0 < (fs.icache j).ref ∧ (fs.icache j).inum = inum)) :
    (fs.setInode i { fs.icache i with inum := inum, ref := 1, valid := false }).Sound := by
  generalize hip : ({ fs.icache i with inum := inum, ref := 1, valid := false } : Inode) = ip
  have hself : (fs.setInode i ip).icache i = ip := Function.update_self ..
  have hothers : ∀ j, j ≠ i → (fs.setInode i ip).icache j = fs.icache j := fun j hj =>
    Function.update_of_ne hj ..
  refine ⟨⟨h.owns.size, h.owns.exact⟩, h.filled, fun j hj hvalid => ?_, fun j k hj hk heq => ?_⟩
  · by_cases hji : j = i
    · subst hji
      rw [hself, ← hip] at hvalid
      cases hvalid
    · rw [hothers j hji] at hj hvalid ⊢
      exact h.cached j hj hvalid
  · by_cases hji : j = i <;> by_cases hki : k = i
    · rw [hji, hki]
    · subst hji
      rw [hself, hothers k hki, ← hip] at heq
      rw [hothers k hki] at hk
      exact absurd ⟨hk, heq.symm⟩ (hmiss k)
    · subst hki
      rw [hself, hothers j hji, ← hip] at heq
      rw [hothers j hji] at hj
      exact absurd ⟨hj, heq⟩ (hmiss j)
    · rw [hothers j hji] at hj heq
      rw [hothers k hki] at hk heq
      exact h.unique j k hj hk heq

end

/-- The inode cache or the inodes are used up, or a caller asks for an inode that is not allocated. -/
def Stops (e : Halt) : Prop :=
  Full e ∨ e = .panic "iget: no inodes" ∨ e = .panic "ialloc: no inodes" ∨ e = .panic "ilock" ∨
    e = .panic "ilock: no type"

theorem iget_meets (h : fs.Sound) (inum : ℕ) : Run.Meets Stops (fun r => r.2.Sound) (fs.iget inum) := by
  unfold iget
  split
  case h_1 i hfind =>
    have hfound : 0 < (fs.icache i).ref ∧ (fs.icache i).inum = inum := by
      simpa using List.find?_some hfind
    exact h.idup hfound.1
  case h_2 hnone =>
    split
    case h_1 i hfind =>
      have hunused : (fs.icache i).ref = 0 := by simpa using List.find?_some hfind
      refine h.recycle hunused fun j => ?_
      have := List.find?_eq_none.1 hnone j (List.mem_finRange j)
      simpa using this
    case h_2 => exact .inr (.inl rfl)

theorem ialloc_meets (h : fs.Sound) {type : ℕ} (htype : type ≠ 0) :
    Run.Meets Stops (fun r => r.2.Sound) (fs.ialloc type) := by
  unfold ialloc
  split
  case h_1 inum hfind =>
    have hfree : (fs.dinode inum).type = 0 := by simpa using List.find?_some hfind
    refine iget_meets ?_ inum
    -- a free inode has no blocks, and the new one has none
    have hblocks : ∀ k, slotPtr (Function.update fs.dinode inum ⟨type, 0, 0, 0, 0, fun _ => 0⟩) inum k =
        slotPtr fs.dinode inum k := fun k => by
      rw [slotPtr, slotPtr, Function.update_self, if_neg htype, if_pos hfree]
    refine ⟨⟨h.owns.size, (h.owns.replace hblocks).exact⟩, fun m hm bn hbn => ?_, fun j hj hvalid => ?_,
      h.unique⟩
    · by_cases hmi : m = inum
      · subst hmi
        dsimp only at hbn
        rw [Function.update_self] at hbn
        exact absurd hbn (Nat.not_lt_zero _)
      · dsimp only at hm hbn ⊢
        rw [Function.update_of_ne hmi] at hm hbn
        rw [pointer_congr_dinode (slotPtr_replace hblocks)]
        exact h.filled m hm bn hbn
    · obtain ⟨hdinode, hne⟩ := h.cached j hj hvalid
      refine ⟨?_, hne⟩
      have hji : (fs.icache j).inum ≠ inum := by
        rintro rfl
        rw [hdinode] at hfree
        exact hne hfree
      exact (Function.update_of_ne hji ..).trans hdinode
  case h_2 => exact .inr (.inr (.inl rfl))

theorem ilock_meets (h : fs.Sound) (i : Fin 50) : Run.Meets Stops Sound (fs.ilock i) := by
  unfold ilock
  dsimp only
  split_ifs with href hvalid htype
  · exact .inr (.inr (.inr (.inl rfl)))
  · exact h
  · exact .inr (.inr (.inr (.inr rfl)))
  · have hi : 0 < (fs.icache i).ref := by omega
    exact h.reset hi rfl fun _ => ⟨rfl, htype⟩

theorem Sound.drop (h : fs.Sound) (hi : 0 < (fs.icache i).ref) :
    (fs.setInode i { fs.icache i with ref := (fs.icache i).ref - 1 }).Sound :=
  h.reset hi rfl (h.cached i hi)

theorem Sound.iput (h : fs.Sound) (hi : 0 < (fs.icache i).ref) : ∃ fs', fs.iput i = .ok fs' ∧ fs'.Sound := by
  unfold Fs.iput
  dsimp only
  split_ifs with hlast
  · obtain ⟨fs₁, hrun, hsound, hlocked, hzero⟩ := h.itrunc ⟨hi, hlast.1⟩
    rw [hrun]
    refine ⟨_, rfl, ?_⟩
    generalize hfs₂ : Fs.setInode _ i _ = fs₂
    have hself : fs₂.icache i =
        { fs₁.icache i with type := 0, valid := false, ref := (fs₁.icache i).ref - 1 } := by
      simp [← hfs₂, setInode, Fs.iupdate]
    have hdinode : fs₂.dinode = Function.update fs₁.dinode (fs₁.icache i).inum
        { fs₁.icache i with type := 0 }.toDinode := by
      simp [← hfs₂, setInode, Fs.iupdate]
    have hblock : fs₂.block = fs₁.block := by rw [← hfs₂]; rfl
    -- the inode had no blocks left, so that giving it up changes no reference
    have hblocks : ∀ k, slotPtr (Function.update fs₁.dinode (fs₁.icache i).inum
        { fs₁.icache i with type := 0 }.toDinode) (fs₁.icache i).inum k =
          slotPtr fs₁.dinode (fs₁.icache i).inum k := fun k => by
      rw [slotPtr, slotPtr, Function.update_self, (hsound.cached i hlocked.1 hlocked.2).1]
      simp [hzero]
    refine hsound.finish hdinode (fun j hj => ?_) (by rw [hself]) (fun _ => hlocked.1) hlocked.1
      (fun hvalid => ?_) ?_ fun m hm bn hbn => ?_
    · simp [← hfs₂, setInode, Fs.iupdate, hj]
    · rw [hself] at hvalid
      cases hvalid
    · rw [hdinode]
      have howns := hsound.owns.replace hblocks
      rw [← hfs₂]
      exact ⟨howns.size, howns.exact⟩
    · rw [hdinode] at hm hbn ⊢
      by_cases hmi : m = (fs₁.icache i).inum
      · subst hmi
        rw [Function.update_self] at hm
        exact absurd rfl hm
      · rw [Function.update_of_ne hmi] at hm hbn
        rw [pointer_congr_dinode (slotPtr_replace hblocks), hblock]
        exact hsound.filled m hm bn hbn
  · exact ⟨_, rfl, h.drop hi⟩

/-- A change of the link count, as `sys_link`, `sys_unlink` and `create` make it. -/
def setNlink (fs : Fs) (i : Fin 50) (nlink : ℕ) : Fs :=
  (fs.setInode i { fs.icache i with nlink := nlink }).iupdate i

theorem Sound.setNlink (h : fs.Sound) (hi : fs.Locked i) (nlink : ℕ) : (fs.setNlink i nlink).Sound := by
  obtain ⟨hdinode, htype⟩ := h.cached i hi.1 hi.2
  have hview := h.view_eq hi
  refine h.iupdate hi.1 rfl (fun _ _ => rfl) rfl rfl (fun _ => htype) (h.owns_view hi) (fun k => ?_)
    (fun m bn _ hptr => ?_) fun _ bn hbn => ?_
  · rw [hview, slotPtr, slotPtr, Function.update_self, hdinode]
  · rw [hview]
    exact hptr
  · obtain ⟨hlt, hptr⟩ := h.there hi hbn
    exact ⟨hlt, hptr⟩

/-! ### Runs -/

inductive Op where
  | ialloc (type : ℕ)
  | iget (inum : ℕ)
  | idup (i : Fin 50)
  | ilock (i : Fin 50)
  | setNlink (i : Fin 50) (nlink : ℕ)
  | readi (i : Fin 50) (off n : ℕ) (input : List Byte)
  | writei (i : Fin 50) (src : ℕ → Byte) (off n : ℕ)
  | itrunc (i : Fin 50)
  | iput (i : Fin 50)

def step (fs : Fs) : Op → Except Halt Fs
  | .ialloc type => do
    let (_, fs) ← fs.ialloc type
    return fs
  | .iget inum => do
    let (_, fs) ← fs.iget inum
    return fs
  | .idup i => .ok (fs.idup i)
  | .ilock i => fs.ilock i
  | .setNlink i nlink => .ok (fs.setNlink i nlink)
  | .readi i off n input => do
    let (_, fs) ← fs.readi i off n input
    return fs
  | .writei i src off n => do
    let (_, fs) ← fs.writei i src off n
    return fs
  | .itrunc i => fs.itrunc i
  | .iput i => fs.iput i

/-- What the functions ask of their callers: a reference, or the lock. -/
def Legal (fs : Fs) : Op → Prop
  | .ialloc type => type ≠ 0
  | .iget _ | .ilock _ => True
  | .idup i | .iput i => 0 < (fs.icache i).ref
  | .setNlink i _ | .itrunc i | .readi i _ _ _ | .writei i _ _ _ => fs.Locked i

instance (fs : Fs) (i : Fin 50) : Decidable (fs.Locked i) := inferInstanceAs (Decidable (_ ∧ _))

instance (fs : Fs) : (op : Op) → Decidable (fs.Legal op)
  | .ialloc type => inferInstanceAs (Decidable (type ≠ 0))
  | .iget _ | .ilock _ => inferInstanceAs (Decidable True)
  | .idup i | .iput i => inferInstanceAs (Decidable (0 < (fs.icache i).ref))
  | .setNlink i _ | .itrunc i | .readi i _ _ _ | .writei i _ _ _ =>
    inferInstanceAs (Decidable (fs.Locked i))

theorem Sound.step (h : fs.Sound) {op : Op} (hlegal : fs.Legal op) : Run.Meets Stops Sound (fs.step op) := by
  cases op with
  | ialloc type => exact (ialloc_meets h hlegal).bind fun _ hr => hr
  | iget inum => exact (iget_meets h inum).bind fun _ hr => hr
  | idup i => exact h.idup hlegal
  | ilock i => exact ilock_meets h i
  | setNlink i nlink => exact h.setNlink hlegal nlink
  | readi i off n input =>
    obtain ⟨r, hr⟩ := readi_ok h hlegal off n input
    rw [Fs.step, hr]
    exact h
  | writei i src off n =>
    have hfull : Run.Meets Stops (fun r => r.2.Sound) (fs.writei i src off n) := by
      have hmeets := writei_meets h hlegal src off n
      cases hr : fs.writei i src off n with
      | ok r =>
        rw [hr] at hmeets
        exact hmeets
      | error e =>
        rw [hr] at hmeets
        exact .inl hmeets
    exact hfull.bind fun _ hr => hr
  | itrunc i =>
    obtain ⟨fs', hrun, hsound, -⟩ := h.itrunc hlegal
    rw [Fs.step, hrun]
    exact hsound
  | iput i =>
    obtain ⟨fs', hrun, hsound⟩ := h.iput hlegal
    rw [Fs.step, hrun]
    exact hsound

/-- What a place on the disk refers to. -/
def refersTo (fs : Fs) (p : Place) : ℕ := pointer fs.dinode fs.block p

/-- The free map and the references agree, no block is shared and no file has a hole. -/
structure Owned (fs : Fs) : Prop where
  once : ∀ p q, fs.refersTo p ≠ 0 → fs.refersTo p = fs.refersTo q → p = q
  outside : ∀ p, fs.refersTo p ≠ 0 → ¬fs.Fixed (fs.refersTo p) ∧ fs.refersTo p < fs.size
  marked : ∀ b, b < fs.size →
    (fs.bit b = true ↔ fs.Fixed b ∨ ∃ p, fs.refersTo p ≠ 0 ∧ fs.refersTo p = b)
  filled : Filled fs.dinode fs.block

/-- An image that is in order, before any inode is cached. -/
structure Image (fs : Fs) : Prop where
  owned : fs.Owned
  size : fs.size < 2 ^ 32
  /-- There are fixed blocks. -/
  nblocks : fs.nblocks < fs.size
  icache : ∀ i, (fs.icache i).ref = 0

theorem Image.sound (h : fs.Image) : fs.Sound := by
  refine ⟨⟨h.size, ?_, fun {p q} => h.owned.once p q, fun {p} hp => (h.owned.outside p hp).1, fun b => ?_⟩,
    h.owned.filled, fun i hi => ?_, fun i _ hi => ?_⟩
  · exact Nat.sub_pos_of_lt h.nblocks
  · rw [inUse, Bool.and_eq_true_iff, decide_eq_true_eq]
    by_cases hb : b < fs.size
    · rw [and_iff_right hb]
      exact h.owned.marked b hb
    · refine iff_of_false (fun hc => hb hc.1) ?_
      rintro (hfixed | ⟨p, hp, rfl⟩)
      · unfold Fixed at hfixed
        omega
      · exact hb (h.owned.outside p hp).2
  · rw [h.icache i] at hi
    exact absurd hi (Nat.lt_irrefl 0)
  · rw [h.icache i] at hi
    exact absurd hi (Nat.lt_irrefl 0)

theorem Sound.owned (h : fs.Sound) : fs.Owned where
  once _ _ := h.owns.exact.once
  outside _ hp := ⟨h.owns.exact.free hp, (h.owns.lt hp).1⟩
  marked b hb := by
    have hiff := h.owns.exact.used_iff b
    rw [inUse, decide_eq_true hb, Bool.true_and] at hiff
    exact hiff
  filled := h.filled

/-- Any sequence of calls on an image that is in order leaves it in order, unless something is used up;
no block is freed twice, and `readi` allocates nothing. -/
theorem blocks_owned (fs : Fs) (himage : fs.Image) (ops : List Op)
    (hlegal : Run.Admits step Legal ops fs) :
    (∀ e, Run.run step ops fs = .error e → Stops e) ∧
      ∀ fs', Run.run step ops fs = .ok fs' → fs'.Owned ∧
        ∀ i off n input, fs'.Locked i → ∃ r, fs'.readi i off n input = .ok (r, fs') := by
  have hrun : Run.Meets Stops Sound (Run.run step ops fs) :=
    Run.Meets.run (fun _ _ hs hop => hs.step hop) himage.sound hlegal
  refine ⟨fun e he => ?_, fun fs' hfs' => ?_⟩
  · rw [he] at hrun
    exact hrun
  · rw [hfs'] at hrun
    exact ⟨hrun.owned, fun i off n input hi => readi_ok hrun hi off n input⟩

/-- An empty image of 40 blocks, the first 10 of them fixed. -/
def sample : Fs where
  size := 40
  nblocks := 30
  ninodes := 8
  bitmap _ k := if k = 0 then 0xff else if k = 1 then 0x03 else 0
  dinode _ := ⟨0, 0, 0, 0, 0, fun _ => 0⟩
  block _ _ := 0
  icache _ := ⟨⟨0, 0, 0, 0, 0, fun _ => 0⟩, 0, 0, false⟩

theorem sample_image : sample.Image := by
  have hzero : ∀ p, sample.refersTo p = 0 := fun p => by
    cases p <;> simp [refersTo, pointer, slotPtr, sample]
  refine ⟨⟨fun p _ hp => absurd (hzero p) hp, fun p hp => absurd (hzero p) hp, fun b hb => ?_, ?_⟩,
    by decide, by decide, fun _ => rfl⟩
  · have hbits : ∀ b < 40, (sample.bit b = true ↔ b < 10) := by decide +kernel
    rw [hbits b hb]
    refine ⟨.inl, ?_⟩
    rintro (hfixed | ⟨p, hp, -⟩)
    · exact hfixed
    · exact absurd (hzero p) hp
  · intro m hm
    exact absurd rfl hm

/-- A file with an indirect block is made, read and given up. -/
def sampleOps : List Op :=
  [.ialloc 2, .ilock 0, .writei 0 (fun k => UInt8.ofNat k) 0 6200, .readi 0 6100 100 [], .iput 0]

theorem blocks_owned_sample : sample.Image ∧ Run.Admits step Legal sampleOps sample ∧
    ∃ fs, Run.run step sampleOps sample = .ok fs ∧ fs.Owned ∧ fs.bit 10 = false ∧
      Run.endsIn (fun fs => fs.bit 23) (Run.run step (sampleOps.take 4) sample) = true := by
  have hlegal : Run.Admits step Legal sampleOps sample :=
    Run.Admits.of_decide (by decide +kernel)
  have heval : Run.endsIn (fun fs => decide (fs.bit 10 = false)) (Run.run step sampleOps sample) = true := by
    decide +kernel
  obtain ⟨fs, hrun, htest⟩ := Run.of_endsIn heval
  exact ⟨sample_image, hlegal, fs, hrun, ((blocks_owned sample sample_image sampleOps hlegal).2 fs hrun).1,
    of_decide_eq_true htest, by decide +kernel⟩

end Fs

end Xv6
