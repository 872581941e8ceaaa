import Xv6.BlockRuns

/-!
# The contents of files

`writei` and `readi` on blocks do to the bytes of a file what `File.writei` and `File.readi` say: the block
map, the allocation of blocks and the other files do not show.
-/

namespace Xv6

/-- Two files with the same bytes up to their size. -/
structure File.Agrees (f g : File) : Prop where
  size : f.size = g.size
  byte : ∀ k, k < f.size → f.byte k = g.byte k

namespace Fs

variable {fs fs' : Fs} {i : Fin 50}

/-- Byte `k` of the inode in the cache entry `i`. -/
def content (fs : Fs) (i : Fin 50) (k : ℕ) : Byte := fs.block (fs.blockAt i (k / 512)) (k % 512)

/-- The inode in the cache entry `i` as a file. -/
def file (fs : Fs) (i : Fin 50) : File := ⟨(fs.icache i).size, fs.content i⟩

/-- The blocks of files that were there have the bytes they had. -/
def Leaves (fs fs' : Fs) (i : Fin 50) : Prop :=
  ∀ inum bn, pointer (fs.view i) fs.block (place inum bn) ≠ 0 →
    fs'.block (pointer (fs.view i) fs.block (place inum bn)) =
      fs.block (pointer (fs.view i) fs.block (place inum bn))

theorem bmapSlot_leaves (h : Owns (fs.view i) fs) (k : Fin 13) :
    Run.Meets Full (fun r => Leaves fs r.2 i) (fs.bmapSlot i k) := by
  unfold bmapSlot
  split_ifs with hnull
  · refine (balloc_meets fs).bind ?_
    rintro ⟨b, fs₁⟩ ⟨-, hfree, hfs⟩
    obtain rfl : fs₁ = (fs.mark b).setBlock b fun _ => 0 := hfs
    intro inum bn _
    exact Function.update_of_ne (h.exact.ne_target hfree _) _ _
  · exact fun _ _ _ => rfl

theorem bmapEntry_leaves (h : Owns (fs.view i) fs) (j : ℕ) : Run.Meets Full
    (fun r => Leaves fs r.2 i) (fs.bmapEntry (slotPtr (fs.view i) (fs.icache i).inum 12) j) := by
  unfold bmapEntry
  split_ifs with hnull
  · refine (balloc_meets fs).bind ?_
    rintro ⟨b, fs₁⟩ ⟨-, hfree, hfs⟩
    obtain rfl : fs₁ = (fs.mark b).setBlock b fun _ => 0 := hfs
    intro inum bn hptr
    -- a block of a file is neither the indirect block nor the new one
    have hne : pointer (fs.view i) fs.block (place inum bn) ≠ slotPtr (fs.view i) (fs.icache i).inum 12 :=
      fun hc => place_ne_indirect inum bn (fs.icache i).inum
        (h.exact.once (q := .slot (fs.icache i).inum 12) hptr hc)
    refine (Function.update_of_ne hne _ _).trans ?_
    exact Function.update_of_ne (h.exact.ne_target hfree _) _ _
  · exact fun _ _ _ => rfl

theorem bmap_leaves (h : Owns (fs.view i) fs) (htype : (fs.icache i).type ≠ 0) {bn : ℕ} (hbn : bn < 140) :
    Run.Meets Full (fun r => Leaves fs r.2 i) (fs.bmap i bn) := by
  unfold bmap
  split_ifs with hdirect hrange
  · exact bmapSlot_leaves h _
  · refine ((bmapSlot_meets h htype 12).and (bmapSlot_leaves h 12)).bind ?_
    rintro ⟨ind, fs₁⟩ ⟨⟨hext, -, hslot⟩, hleaves⟩
    rw [← hext.inum] at hslot
    have hmeets := bmapEntry_leaves hext.owns (bn - 12)
    rw [hslot] at hmeets
    refine hmeets.mono ?_
    rintro ⟨b, fs₂⟩ hleaves' inum bn' hptr
    have hkeep := hext.keeps _ hptr
    have hentry := hleaves' inum bn' (by rw [hkeep]; exact hptr)
    rw [hkeep] at hentry
    exact hentry.trans (hleaves inum bn' hptr)
  · omega

/-! ### The loops -/

theorem place_inj {inum bn bn' : ℕ} (hbn : bn < 140) (hbn' : bn' < 140) (h : place inum bn = place inum bn') :
    bn = bn' := by
  unfold place at h
  split_ifs at h with h₁ h₂ h₂
  · have hk := congrArg Fin.val (Place.slot.inj h).2
    exact hk
  · have hk := congrArg Fin.val (Place.entry.inj h).2
    rw [Fin.val_ofNat, Fin.val_ofNat, Nat.mod_eq_of_lt (by omega), Nat.mod_eq_of_lt (by omega)] at hk
    omega

theorem content_leaves (hext : Extends fs fs' i) (h : Leaves fs fs' i) {k : ℕ}
    (hthere : fs.blockAt i (k / 512) ≠ 0) : fs'.content i k = fs.content i k := by
  rw [content, content, hext.blockAt hthere]
  exact congrFun (h _ _ hthere) _

theorem content_setBlock (h : Owns (fs.view i) fs) {bn b : ℕ} (hbn : bn < 140) (hb : fs.blockAt i bn = b)
    (hne : b ≠ 0) (data : BlockData) {k : ℕ} (hk : k / 512 < 140) :
    (fs.setBlock b data).content i k = if k / 512 = bn then data (k % 512) else fs.content i k := by
  have hat : (fs.setBlock b data).blockAt i (k / 512) = fs.blockAt i (k / 512) := pointer_write h hb data _
  rw [content, hat]
  split_ifs with heq
  · rw [heq, hb]
    exact congrFun (Function.update_self ..) _
  · -- two blocks of one file are different
    refine congrFun (Function.update_of_ne ?_ _ _) _
    intro hc
    have hsame : place (fs.icache i).inum (k / 512) = place (fs.icache i).inum bn := by
      refine h.exact.once ?_ (hc.trans hb.symm)
      exact fun hz => hne (hc.symm.trans hz)
    exact heq (place_inj hk hbn hsame)

theorem place_inum {inum inum' bn bn' : ℕ} (h : place inum bn = place inum' bn') : inum = inum' := by
  unfold place at h
  split_ifs at h
  · exact (Place.slot.inj h).1
  · exact (Place.entry.inj h).1

/-- The loop of `writei`: the bytes of the range are the new ones, the others what they were. -/
theorem writeLoop_content {fuel : ℕ} (src : ℕ → Byte) {left off : ℕ} (h : Owns (fs.view i) fs)
    (htype : (fs.icache i).type ≠ 0) (hfuel : left < fuel) (hrange : off + left ≤ 140 * 512) :
    Run.Meets Full (fun fs' =>
      (∀ k, off ≤ k → k < off + left → fs'.content i k = src (k - off)) ∧
      (∀ k, k / 512 < 140 → fs.blockAt i (k / 512) ≠ 0 → (k < off ∨ off + left ≤ k) →
        fs'.content i k = fs.content i k) ∧
      ∀ inum bn, inum ≠ (fs.icache i).inum → pointer (fs.view i) fs.block (place inum bn) ≠ 0 →
        fs'.block (pointer (fs.view i) fs.block (place inum bn)) =
          fs.block (pointer (fs.view i) fs.block (place inum bn))) (writeLoop i fuel src left off fs) := by
  induction fuel generalizing src left off fs with
  | zero => exact absurd hfuel (Nat.not_lt_zero _)
  | succ fuel ih =>
    rw [writeLoop]
    split_ifs with hleft
    · have hbn : off / 512 < 140 := by omega
      refine ((bmap_meets h htype hbn).and (bmap_leaves h htype hbn)).bind ?_
      rintro ⟨b, fs₁⟩ ⟨⟨hext, hb, hat, -⟩, hleaves⟩
      dsimp only at hext hb hat hleaves ⊢
      generalize hm : min left (512 - off % 512) = m
      have hwrite := Extends.write hext.owns hat ((fs₁.block b).copyIn (off % 512) m src)
      have hdata := fun k hk => content_setBlock (k := k) hext.owns hbn hat hb
        ((fs₁.block b).copyIn (off % 512) m src) hk
      generalize hfs₂ : fs₁.setBlock b _ = fs₂ at hwrite hdata ⊢
      have hext₂ := hext.trans hwrite
      have hhere : fs₂.blockAt i (off / 512) ≠ 0 := by
        rw [hwrite.blockAt (by rw [hat]; exact hb), hat]
        exact hb
      refine (ih _ hwrite.owns (by rwa [hext₂.type]) (by omega) (by omega)).mono ?_
      rintro fs' ⟨hnew, hold, hrest⟩
      refine ⟨fun k hlow hhigh => ?_, fun k hk hthere hout => ?_, fun inum bn hne hptr => ?_⟩
      · by_cases hkm : k < off + m
        · -- the part of the range in this block
          have hbk : k / 512 = off / 512 := by omega
          rw [hold k (by omega) (by rwa [hbk]) (.inl hkm), hdata k (by omega), if_pos hbk, BlockData.copyIn,
            if_pos (by omega)]
          congr 1
          omega
        · rw [hnew k (by omega) (by omega)]
          congr 1
          omega
      · have hthere₁ : fs₁.blockAt i (k / 512) ≠ 0 := by
          rw [hext.blockAt hthere]
          exact hthere
        have hthere₂ : fs₂.blockAt i (k / 512) ≠ 0 := by
          rw [hext₂.blockAt hthere]
          exact hthere
        rw [hold k hk hthere₂ (by omega), hdata k hk]
        split_ifs with hbk
        · rw [BlockData.copyIn, if_neg (by omega), ← hat, ← hbk]
          exact content_leaves hext hleaves hthere
        · exact content_leaves hext hleaves hthere
      · have hkept := hext₂.keeps _ hptr
        have hlater := hrest inum bn (by rwa [hext₂.inum]) (by rw [hkept]; exact hptr)
        rw [hkept] at hlater
        rw [hlater, ← hleaves inum bn hptr, ← hfs₂]
        -- the block written to belongs to this inode
        refine Function.update_of_ne (fun heq => ?_) _ _
        rw [← hat, ← hext.keeps _ hptr] at heq
        have hplace := hext.owns.exact.once (by rw [hext.keeps _ hptr]; exact hptr) heq
        rw [hext.inum] at hplace
        exact hne (place_inum hplace)
    · exact ⟨fun k hlow hhigh => by omega, fun _ _ _ _ => rfl, fun _ _ _ _ => rfl⟩

theorem readLoop_content {fuel left off : ℕ} {dst : List Byte} (htype : (fs.icache i).type ≠ 0)
    (hfuel : left < fuel) (hrange : off + left ≤ 140 * 512)
    (hthere : ∀ bn, bn * 512 < off + left → fs.blockAt i bn ≠ 0) :
    readLoop i fuel left off dst fs =
      .ok (dst ++ (List.range left).map fun k => fs.content i (off + k), fs) := by
  induction fuel generalizing left off dst with
  | zero => exact absurd hfuel (Nat.not_lt_zero _)
  | succ fuel ih =>
    rw [readLoop]
    split_ifs with hleft
    · rw [bmap_present htype (by omega) (hthere (off / 512) (by omega))]
      generalize hm : min left (512 - off % 512) = m
      have hbytes : (List.range m).map (fun k => fs.block (fs.blockAt i (off / 512)) (off % 512 + k)) =
          (List.range m).map fun k => fs.content i (off + k) := by
        refine List.map_congr_left fun k hk => ?_
        rw [List.mem_range] at hk
        rw [content, show (off + k) / 512 = off / 512 by omega, show (off + k) % 512 = off % 512 + k by omega]
      refine (ih (by omega) (by omega) fun bn hlt => hthere bn (by omega)).trans ?_
      have hsplit : List.range left = List.range m ++ (List.range (left - m)).map (m + ·) := by
        rw [← List.range_add, show m + (left - m) = left by omega]
      rw [hbytes, List.append_assoc, hsplit, List.map_append, List.map_map]
      simp only [Function.comp_def, Nat.add_assoc]
    · obtain rfl : left = 0 := by omega
      rw [List.range_zero, List.map_nil, List.append_nil]

/-! ### The calls -/

theorem readi_content (h : fs.Sound) (hi : fs.Locked i) (hdev : (fs.icache i).type ≠ tDev) (off n : ℕ)
    (input : List Byte) : fs.readi i off n input = .ok (none, fs) ∨
      ∃ m, m ≤ n ∧ off + m ≤ (fs.icache i).size ∧
        fs.readi i off n input = .ok (some ((List.range m).map fun k => fs.content i (off + k)), fs) := by
  obtain ⟨-, htype⟩ := h.cached i hi.1 hi.2
  have hsize := h.size_le hi
  have hloop : ∀ left, off + left ≤ (fs.icache i).size → readLoop i (left + 1) left off [] fs =
      .ok ((List.range left).map fun k => fs.content i (off + k), fs) := fun left hleft =>
    readLoop_content htype (Nat.lt_succ_self left) (by omega) fun bn hbn => (h.there hi (by omega)).2
  unfold readi
  dsimp only
  rw [if_neg hdev]
  split_ifs with hbad hlarge
  · exact .inl rfl
  · refine .inr ⟨(fs.icache i).size - off, by omega, by omega, ?_⟩
    rw [hloop _ (by omega)]
    rfl
  · refine .inr ⟨n, le_rfl, by omega, ?_⟩
    rw [hloop _ (by omega)]
    rfl

theorem Extends.size_eq (h : Extends fs fs' i) : (fs'.icache i).size = (fs.icache i).size := by
  obtain ⟨addrs, ha⟩ := h.self
  rw [ha]

theorem Extends.locked (h : Extends fs fs' i) (hi : fs.Locked i) : fs'.Locked i := by
  obtain ⟨addrs, ha⟩ := h.self
  rw [Locked, ha]
  exact hi

theorem content_resize (fs : Fs) (i : Fin 50) (size k : ℕ) :
    ((fs.setInode i { fs.icache i with size := size }).iupdate i).content i k = fs.content i k := by
  have hself : ((fs.setInode i { fs.icache i with size := size }).iupdate i).icache i =
      { fs.icache i with size := size } := Function.update_self ..
  have hview : ((fs.setInode i { fs.icache i with size := size }).iupdate i).view i =
      Function.update (fs.view i) (fs.icache i).inum { fs.icache i with size := size }.toDinode := by
    rw [view, hself]
    simp [iupdate, setInode, view]
  have hslots : ∀ k, slotPtr (Function.update (fs.view i) (fs.icache i).inum
      { fs.icache i with size := size }.toDinode) (fs.icache i).inum k =
        slotPtr (fs.view i) (fs.icache i).inum k := by
    intro k
    rw [slotPtr, slotPtr, Function.update_self, view_self]
  have hat : ∀ bn, ((fs.setInode i { fs.icache i with size := size }).iupdate i).blockAt i bn =
      fs.blockAt i bn := by
    intro bn
    rw [blockAt, blockAt, hview, hself]
    exact pointer_congr_dinode (slotPtr_replace hslots) _
  rw [content, content, hat]
  rfl

theorem writei_refines (h : fs.Sound) (hi : fs.Locked i) (hdev : (fs.icache i).type ≠ tDev)
    (src : ℕ → Byte) (off n : ℕ) :
    Run.Meets Full (fun r => r.2.Locked i ∧ (r.2.icache i).type = (fs.icache i).type ∧
      ((fs.file i).writei src off n = none ∧ r = (none, fs) ∨
        r.1 = some n ∧ ∃ f, (fs.file i).writei src off n = some f ∧ (r.2.file i).Agrees f))
      (fs.writei i src off n) := by
  obtain ⟨-, htype⟩ := h.cached i hi.1 hi.2
  have hsize := h.size_le hi
  unfold writei
  dsimp only
  rw [if_neg hdev]
  split_ifs with hbad hlarge
  · refine ⟨hi, rfl, .inl ⟨?_, rfl⟩⟩
    rw [File.writei, if_pos]
    rcases hbad with hpast | hwrap
    · exact .inl hpast
    · right
      by_contra hlt
      rw [Nat.mod_eq_of_lt (by omega)] at hwrap
      omega
  · refine ⟨hi, rfl, .inl ⟨?_, rfl⟩⟩
    rw [File.writei]
    split_ifs
    · rfl
    · rfl
  · have hrange : off + n ≤ 140 * 512 := not_lt.1 hlarge
    have hstart : off ≤ (fs.icache i).size := by omega
    have hfile : (fs.file i).writei src off n = some ((fs.file i).overwrite src off n) :=
      File.writei_eq hstart hrange
    refine ((writeLoop_meets (h.owns_view hi) htype (Nat.lt_succ_self n) hrange).and
      (writeLoop_content src (h.owns_view hi) htype (Nat.lt_succ_self n) hrange)).bind ?_
    rintro fs₁ ⟨⟨hext, -, -⟩, hnew, hold, -⟩
    -- the bytes below the new size
    have hbytes : ∀ k, k < (fs.icache i).size ∨ k < off + n → fs₁.content i k =
        ((fs.file i).overwrite src off n).byte k := by
      intro k hk
      show _ = if off ≤ k ∧ k < off + n then src (k - off) else fs.content i k
      split_ifs with hin
      · exact hnew k hin.1 hin.2
      · have hlt : k < (fs.icache i).size := by omega
        refine hold k (by omega) (h.there hi (by omega)).2 (by omega)
    split_ifs with hgrow
    · rw [hext.size_eq] at hgrow
      generalize hfs₂ : (fs₁.setInode i { fs₁.icache i with size := off + n }).iupdate i = fs₂
      have hself : fs₂.icache i = { fs₁.icache i with size := off + n } := by
        rw [← hfs₂]
        exact Function.update_self ..
      refine ⟨?_, ?_, .inr ⟨rfl, _, hfile, ?_, fun k hk => ?_⟩⟩
      · rw [Locked, hself]
        exact hext.locked hi
      · show (fs₂.icache i).type = _
        rw [hself]
        exact hext.type
      · show (fs₂.icache i).size = if 0 < n ∧ (fs.icache i).size < off + n then off + n else (fs.icache i).size
        rw [hself, if_pos hgrow]
      · change k < (fs₂.icache i).size at hk
        rw [hself] at hk
        show fs₂.content i k = _
        rw [← hfs₂, content_resize]
        exact hbytes k (.inr hk)
    · rw [hext.size_eq] at hgrow
      refine ⟨hext.locked hi, hext.type, .inr ⟨rfl, _, hfile, ?_, fun k hk => ?_⟩⟩
      · show (fs₁.icache i).size = if 0 < n ∧ (fs.icache i).size < off + n then off + n else (fs.icache i).size
        rw [if_neg hgrow, hext.size_eq]
      · change k < (fs₁.icache i).size at hk
        rw [hext.size_eq] at hk
        exact hbytes k (.inl hk)

end Fs

end Xv6
