import Xv6.Room
import Xv6.SharedFile

/-!
# Files as byte arrays

What `writei` and `readi` are for: an inode is a list of bytes, of which a write replaces a range and a read
returns one.  Any sequence of calls on regular inodes has the results that the lists give, and leaves the
bytes that they give, those of all other inodes unchanged.
-/

namespace Xv6

/-! ### Arrays -/

/-- The bytes of every inode. -/
abbrev Arrays := ℕ → List Byte

def replaceAt (l : List Byte) (off : ℕ) (bytes : List Byte) : List Byte :=
  l.take off ++ bytes ++ l.drop (off + bytes.length)

/-- A call of `writei` or `readi` for the inode in the cache entry `i`. -/
inductive FileCall where
  | write (i : Fin 50) (bytes : List Byte) (off : ℕ)
  | read (i : Fin 50) (off n : ℕ)

/-- What a call returns; `none` is -1. -/
inductive CallResult where
  | wrote (n : Option ℕ)
  | got (bytes : Option (List Byte))

namespace FileCall

def entry : FileCall → Fin 50
  | write i _ _ => i
  | read i _ _ => i

/-- The arguments are 32-bit numbers. -/
def Fits : FileCall → Prop
  | write _ bytes off => off < 2 ^ 32 ∧ bytes.length < 2 ^ 32
  | read _ off n => off < 2 ^ 32 ∧ n < 2 ^ 32

/-- A call on arrays; `inum` gives the inodes of the cache entries. -/
def onArrays (inum : Fin 50 → ℕ) (a : Arrays) : FileCall → CallResult × Arrays
  | write i bytes off =>
    if off ≤ (a (inum i)).length ∧ off + bytes.length < 2 ^ 32 ∧ off + bytes.length ≤ maxFileBytes then
      (.wrote (some bytes.length), Function.update a (inum i) (replaceAt (a (inum i)) off bytes))
    else (.wrote none, a)
  | read i off n =>
    if off ≤ (a (inum i)).length ∧ off + n < 2 ^ 32 then (.got (some (((a (inum i)).drop off).take n)), a)
    else (.got none, a)

def allOnArrays (inum : Fin 50 → ℕ) : List FileCall → Arrays → List CallResult × Arrays
  | [], a => ([], a)
  | c :: cs, a =>
    let (out, a) := c.onArrays inum a
    let (outs, a) := allOnArrays inum cs a
    (out :: outs, a)

end FileCall

theorem length_replaceAt {l : List Byte} {off : ℕ} (h : off ≤ l.length) (bytes : List Byte) :
    (replaceAt l off bytes).length = max l.length (off + bytes.length) := by
  simp only [replaceAt, List.length_append, List.length_take, List.length_drop]
  omega

theorem getElem_replaceAt {l : List Byte} {off k : ℕ} (h : off ≤ l.length) {bytes : List Byte}
    (hk : k < (replaceAt l off bytes).length) : (replaceAt l off bytes)[k] =
      if off ≤ k ∧ k < off + bytes.length then bytes.getD (k - off) 0 else l.getD k 0 := by
  have hlength := length_replaceAt h bytes
  have htake : (l.take off).length = off := by
    rw [List.length_take]
    omega
  by_cases hlow : k < off
  · rw [if_neg (by omega), List.getD_eq_getElem _ _ (by omega : k < l.length)]
    simp only [replaceAt]
    rw [List.getElem_append_left (by simp; omega), List.getElem_append_left (by omega), List.getElem_take]
  · by_cases hmid : k < off + bytes.length
    · rw [if_pos ⟨by omega, hmid⟩, List.getD_eq_getElem _ _ (by omega : k - off < bytes.length)]
      simp only [replaceAt]
      rw [List.getElem_append_left (by simp; omega), List.getElem_append_right (by omega)]
      simp only [htake]
    · rw [if_neg (by omega), List.getD_eq_getElem _ _ (by omega : k < l.length)]
      simp only [replaceAt]
      rw [List.getElem_append_right (by simp; omega), List.getElem_drop]
      congr 1
      simp only [List.length_append, htake]
      omega

namespace Fs

variable {fs fs' : Fs} {i : Fin 50}

def call (fs : Fs) : FileCall → Except Halt (CallResult × Fs)
  | .write i bytes off => do
    let (r, fs) ← fs.writei i (fun k => bytes.getD k 0) off bytes.length
    return (.wrote r, fs)
  | .read i off n => do
    let (r, fs) ← fs.readi i off n []
    return (.got r, fs)

def calls : List FileCall → Fs → Except Halt (List CallResult × Fs)
  | [], fs => .ok ([], fs)
  | c :: cs, fs => do
    let (out, fs) ← fs.call c
    let (outs, fs) ← calls cs fs
    return (out :: outs, fs)

def bytes (fs : Fs) : Arrays := fun inum =>
  if (fs.dinode inum).type = 0 then []
  else (List.range (fs.dinode inum).size).map fun k =>
    fs.block (pointer fs.dinode fs.block (place inum (k / 512))) (k % 512)

def HasRoom (fs : Fs) : FileCall → Prop
  | .write i bytes off => off ≤ (fs.icache i).size → off + bytes.length ≤ maxFileBytes → 0 < bytes.length →
      fs.lack i off (off + bytes.length) ≤ fs.freeBlocks.card
  | .read _ _ _ => True

def HasRoomForAll : List FileCall → Fs → Prop
  | [], _ => True
  | c :: cs, fs => fs.HasRoom c ∧ ∀ out fs', fs.call c = .ok (out, fs') → HasRoomForAll cs fs'

/-- The cache entry holds a regular inode, locked. -/
def Regular (fs : Fs) (i : Fin 50) : Prop := fs.Locked i ∧ (fs.icache i).type ≠ tDev

/-! ### One call -/

theorem Sound.bytes_eq (h : fs.Sound) (hi : fs.Locked i) :
    fs.bytes (fs.icache i).inum = (List.range (fs.icache i).size).map (fs.content i) := by
  obtain ⟨hdinode, htype⟩ := h.cached i hi.1 hi.2
  rw [bytes, hdinode, if_neg htype]
  refine List.map_congr_left fun k _ => ?_
  rw [content, h.blockAt_eq hi]

/-- What a write changes, besides the bytes of its inode. -/
structure Writes (fs fs' : Fs) (i : Fin 50) : Prop where
  cache : ∀ j, (fs'.icache j).inum = (fs.icache j).inum ∧ (fs'.icache j).type = (fs.icache j).type ∧
    (fs'.icache j).ref = (fs.icache j).ref ∧ (fs'.icache j).valid = (fs.icache j).valid
  others : ∀ inum, inum ≠ (fs.icache i).inum → fs'.bytes inum = fs.bytes inum

theorem Writes.refl (fs : Fs) (i : Fin 50) : Writes fs fs i :=
  ⟨fun _ => ⟨rfl, rfl, rfl, rfl⟩, fun _ _ => rfl⟩

theorem Writes.regular (h : Writes fs fs' i) {j : Fin 50} (hj : fs.Regular j) : fs'.Regular j := by
  obtain ⟨-, htype, href, hvalid⟩ := h.cache j
  rw [Regular, Locked, htype, href, hvalid]
  exact hj

theorem Extends.bytes_other {fs₁ : Fs} (h : fs.Sound) (hi : fs.Locked i) (hext : Extends fs fs₁ i)
    (hblocks : ∀ inum bn, inum ≠ (fs.icache i).inum → pointer (fs.view i) fs.block (place inum bn) ≠ 0 →
      fs₁.block (pointer (fs.view i) fs.block (place inum bn)) =
        fs.block (pointer (fs.view i) fs.block (place inum bn)))
    (hblock : fs'.block = fs₁.block) {inum : ℕ} (hne : inum ≠ (fs.icache i).inum)
    (hdinode : fs'.dinode inum = fs.dinode inum) : fs'.bytes inum = fs.bytes inum := by
  rw [bytes, bytes, hdinode]
  split_ifs with htype
  · rfl
  refine List.map_congr_left fun k hk => ?_
  rw [List.mem_range] at hk
  have hptr := (h.filled inum htype (k / 512) (by omega)).2
  have hview : fs₁.view i inum = fs.dinode inum := by
    rw [view, hext.inum, Function.update_of_ne hne, hext.dinode]
  have hkept : pointer fs'.dinode fs'.block (place inum (k / 512)) =
      pointer fs.dinode fs.block (place inum (k / 512)) := by
    rw [hblock, ← h.view_eq hi, ← hext.keeps _ (by rwa [h.view_eq hi])]
    exact pointer_local (hdinode.trans hview.symm)
  have hdata := hblocks inum (k / 512) hne (by rwa [h.view_eq hi])
  rw [h.view_eq hi] at hdata
  rw [hkept, hblock, hdata]

theorem writei_room (h : fs.Sound) (hi : fs.Regular i) (src : ℕ → Byte) {off n : ℕ}
    (hroom : off ≤ (fs.icache i).size → off + n ≤ maxFileBytes → 0 < n →
      fs.lack i off (off + n) ≤ fs.freeBlocks.card) :
    ∃ r fs', fs.writei i src off n = .ok (r, fs') ∧ Writes fs fs' i := by
  obtain ⟨-, htype⟩ := h.cached i hi.1.1 hi.1.2
  have howns := h.owns_view hi.1
  unfold writei
  dsimp only
  rw [if_neg hi.2]
  split_ifs with hbad hlarge
  · exact ⟨none, fs, rfl, Writes.refl fs i⟩
  · exact ⟨none, fs, rfl, Writes.refl fs i⟩
  · have hrange : off + n ≤ 140 * 512 := not_lt.1 hlarge
    obtain ⟨fs₁, hrun⟩ := writeLoop_room src howns htype (Nat.lt_succ_self n) hrange
      (hroom (by omega) hrange)
    have hmeets := (writeLoop_meets howns htype (Nat.lt_succ_self n) hrange).and
      (writeLoop_content src howns htype (Nat.lt_succ_self n) hrange)
    rw [hrun] at hmeets ⊢
    obtain ⟨⟨hext, -, -⟩, -, -, hblocks⟩ := hmeets
    obtain ⟨addrs, hself⟩ := hext.self
    have hother : ∀ j, j ≠ i → fs₁.icache j = fs.icache j := hext.others
    by_cases hgrow : 0 < n ∧ (fs₁.icache i).size < off + n
    · refine ⟨some n, (fs₁.setInode i { fs₁.icache i with size := off + n }).iupdate i, ?_, fun j => ?_,
        fun inum hne => ?_⟩
      · exact if_pos hgrow
      · by_cases hj : j = i
        · subst hj
          have hnew : ((fs₁.setInode j { fs₁.icache j with size := off + n }).iupdate j).icache j =
              { fs₁.icache j with size := off + n } := Function.update_self ..
          rw [hnew, hself]
          exact ⟨rfl, rfl, rfl, rfl⟩
        · have hnew : ((fs₁.setInode i { fs₁.icache i with size := off + n }).iupdate i).icache j =
              fs₁.icache j := Function.update_of_ne hj ..
          rw [hnew, hother j hj]
          exact ⟨rfl, rfl, rfl, rfl⟩
      · have hblock : ((fs₁.setInode i { fs₁.icache i with size := off + n }).iupdate i).block = fs₁.block := rfl
        refine hext.bytes_other h hi.1 hblocks hblock hne ?_
        have hinum : ((fs₁.setInode i { fs₁.icache i with size := off + n }).icache i).inum =
            (fs.icache i).inum := by
          rw [← hext.inum]
          simp [setInode]
        rw [← hext.dinode]
        exact Function.update_of_ne (by rw [hinum]; exact hne) _ _
    · refine ⟨some n, fs₁, if_neg hgrow, fun j => ?_, fun inum hne => ?_⟩
      · by_cases hj : j = i
        · subst hj
          rw [hself]
          exact ⟨rfl, rfl, rfl, rfl⟩
        · rw [hother j hj]
          exact ⟨rfl, rfl, rfl, rfl⟩
      · exact hext.bytes_other h hi.1 hblocks rfl hne (by rw [hext.dinode])

theorem bytes_overwrite (h' : fs'.Sound) (hi' : fs'.Locked i) {l bytes : List Byte} {off : ℕ}
    (hoff : off ≤ l.length) {f : File} (hsize : f.size = l.length)
    (hbyte : ∀ k < l.length, f.byte k = l.getD k 0)
    (hagrees : (fs'.file i).Agrees (f.overwrite (fun k => bytes.getD k 0) off bytes.length)) :
    fs'.bytes (fs'.icache i).inum = replaceAt l off bytes := by
  have hlength : (fs'.icache i).size = (replaceAt l off bytes).length := by
    rw [length_replaceAt hoff, ← hsize]
    refine hagrees.size.trans ?_
    simp only [File.overwrite]
    split_ifs <;> omega
  rw [h'.bytes_eq hi']
  apply List.ext_getElem
  · simpa using hlength
  · intro k hk hk'
    rw [List.length_map, List.length_range] at hk
    rw [List.getElem_map, List.getElem_range, getElem_replaceAt hoff hk']
    refine (hagrees.byte k hk).trans ?_
    simp only [File.overwrite]
    split_ifs with hin
    · rfl
    · rw [length_replaceAt hoff] at hk'
      exact hbyte k (by omega)

theorem writei_call (h : fs.Sound) (hi : fs.Regular i) {bytes : List Byte} {off : ℕ}
    (hroom : fs.HasRoom (.write i bytes off)) :
    ∃ out fs', fs.call (.write i bytes off) = .ok (out, fs') ∧ fs'.Sound ∧ Writes fs fs' i ∧
      (out, fs'.bytes) = FileCall.onArrays (fun j => (fs.icache j).inum) fs.bytes (.write i bytes off) := by
  obtain ⟨r, fs', hrun, hw⟩ := writei_room h hi (fun k => bytes.getD k 0) hroom
  have hsound := writei_meets h hi.1 (fun k => bytes.getD k 0) off bytes.length
  have hrefines := writei_refines h hi.1 hi.2 (fun k => bytes.getD k 0) off bytes.length
  rw [hrun] at hsound hrefines
  obtain ⟨hlocked, -, hcases⟩ := hrefines
  have hbytes := h.bytes_eq hi.1
  have hsize : (fs.bytes (fs.icache i).inum).length = (fs.icache i).size := by simp [hbytes]
  refine ⟨.wrote r, fs', by rw [call, hrun]; rfl, hsound, hw, ?_⟩
  rw [FileCall.onArrays, hsize]
  rcases hcases with ⟨hnone, heq⟩ | ⟨rfl, f, hf, hagrees⟩
  · obtain ⟨rfl, rfl⟩ := Prod.mk.inj heq
    rw [if_neg]
    rintro ⟨hoff, -, hmax⟩
    rw [File.writei_eq hoff hmax] at hnone
    cases hnone
  · have hfile := File.writei_some hf
    rw [File.writei] at hf
    split_ifs at hf with hbad hlarge
    change ¬ ((fs.icache i).size < off ∨ 0x100000000 ≤ off + bytes.length) at hbad
    rw [if_pos ⟨by omega, by omega, by omega⟩]
    congr 1
    funext inum
    by_cases hinum : inum = (fs.icache i).inum
    · have hbefore : ∀ k < (fs.bytes (fs.icache i).inum).length,
          (fs.file i).byte k = (fs.bytes (fs.icache i).inum).getD k 0 := by
        intro k hk
        rw [hsize] at hk
        rw [hbytes, List.getD_eq_getElem _ _ (by simpa using hk), List.getElem_map, List.getElem_range]
        rfl
      rw [hfile] at hagrees
      have hnew := bytes_overwrite hsound hlocked (by omega) hsize.symm hbefore hagrees
      rw [hinum, Function.update_self]
      rwa [(hw.cache i).1] at hnew
    · rw [Function.update_of_ne hinum, hw.others inum hinum]

theorem readi_call (h : fs.Sound) (hi : fs.Regular i) {off n : ℕ} (hn : n < 2 ^ 32) :
    ∃ out, fs.call (.read i off n) = .ok (out, fs) ∧
      (out, fs.bytes) = FileCall.onArrays (fun j => (fs.icache j).inum) fs.bytes (.read i off n) := by
  have hbytes := h.bytes_eq hi.1
  have hsize : (fs.bytes (fs.icache i).inum).length = (fs.icache i).size := by simp [hbytes]
  obtain ⟨-, htype⟩ := h.cached i hi.1.1 hi.1.2
  have hmax := h.size_le hi.1
  rw [FileCall.onArrays, hsize, call, readi]
  dsimp only
  rw [if_neg hi.2]
  by_cases hok : off ≤ (fs.icache i).size ∧ off + n < 2 ^ 32
  · have hwrap : (off + n) % 2 ^ 32 = off + n := Nat.mod_eq_of_lt hok.2
    rw [if_neg (by omega), if_pos hok]
    generalize hleft : (if (fs.icache i).size < off + n then (fs.icache i).size - off else n) = left
    have hle : off + left ≤ (fs.icache i).size := by
      rw [← hleft]
      split_ifs <;> omega
    rw [readLoop_content htype (Nat.lt_succ_self left) (by omega) fun bn hbn => (h.there hi.1 (by omega)).2]
    have hread : [] ++ (List.range left).map (fun k => fs.content i (off + k)) =
        ((fs.bytes (fs.icache i).inum).drop off).take n := by
      rw [List.nil_append, hbytes]
      apply List.ext_getElem
      · simp only [List.length_map, List.length_range, List.length_take, List.length_drop]
        rw [← hleft]
        split_ifs <;> omega
      · intro k hk hk'
        simp
    rw [← hread]
    exact ⟨_, rfl, rfl⟩
  · have hbad : (fs.icache i).size < off ∨ (off + n) % 2 ^ 32 < off := by omega
    rw [if_pos hbad, if_neg hok]
    exact ⟨_, rfl, rfl⟩

theorem call_arrays (h : fs.Sound) {c : FileCall} (hc : fs.Regular c.entry) (hfits : c.Fits)
    (hroom : fs.HasRoom c) :
    ∃ out fs', fs.call c = .ok (out, fs') ∧ fs'.Sound ∧ Writes fs fs' c.entry ∧
      (out, fs'.bytes) = c.onArrays (fun j => (fs.icache j).inum) fs.bytes := by
  cases c with
  | write i bytes off => exact writei_call h hc hroom
  | read i off n =>
    obtain ⟨out, hrun, hout⟩ := readi_call h hc hfits.2
    exact ⟨out, fs, hrun, h, Writes.refl fs i, hout⟩

theorem write_refused {bytes : List Byte} {off : ℕ}
    (hrun : fs.call (.write i bytes off) = .ok (.wrote none, fs')) : fs' = fs := by
  obtain ⟨⟨r, fs₁⟩, hwritei, hrun⟩ := Run.bind_ok hrun
  cases hrun
  unfold writei at hwritei
  dsimp only at hwritei
  split_ifs at hwritei
  · cases hwritei
  · cases hwritei
    rfl
  · cases hwritei
    rfl
  · cases hwritei
    rfl
  · obtain ⟨fs₂, -, hwritei⟩ := Run.bind_ok hwritei
    split_ifs at hwritei
    · cases hwritei
    · cases hwritei

/-- Files behave as byte arrays: for a file system in which no block is shared and no file has holes, and
any calls on regular inodes for which there are blocks, the calls return what the arrays give, and leave
the bytes that the arrays give in all inodes; a write that is then refused changes nothing. -/
theorem calls_arrays {cs : List FileCall} (h : fs.Sound) (hcs : ∀ c ∈ cs, fs.Regular c.entry ∧ c.Fits)
    (hroom : HasRoomForAll cs fs) :
    ∃ outs fs', calls cs fs = .ok (outs, fs') ∧ fs'.Sound ∧
      (outs, fs'.bytes) = FileCall.allOnArrays (fun j => (fs.icache j).inum) cs fs.bytes ∧
      ∀ i bytes off fs'', fs'.call (.write i bytes off) = .ok (.wrote none, fs'') → fs'' = fs' := by
  induction cs generalizing fs with
  | nil => exact ⟨[], fs, rfl, h, rfl, fun _ _ _ _ => write_refused⟩
  | cons c cs ih =>
    rw [List.forall_mem_cons] at hcs
    obtain ⟨out, fs₁, hrun, h₁, hw, hone⟩ := call_arrays h hcs.1.1 hcs.1.2 hroom.1
    obtain ⟨outs, fs', hrest, h', hall, hrefused⟩ := ih h₁ (fun c hc => ⟨hw.regular (hcs.2 c hc).1, (hcs.2 c hc).2⟩)
      (hroom.2 out fs₁ hrun)
    have hinums : (fun j => (fs₁.icache j).inum) = fun j => (fs.icache j).inum := by
      funext j
      exact (hw.cache j).1
    refine ⟨out :: outs, fs', ?_, h', ?_, hrefused⟩
    · rw [calls, hrun]
      simp only [bind, Except.bind, hrest]
      rfl
    · rw [hinums] at hall
      rw [FileCall.allOnArrays, ← hone]
      dsimp only
      rw [← hall]

local instance neZeroCache : NeZero 50 := ⟨by decide⟩

/-- Three bytes are written to an empty file and read back from the second on. -/
theorem calls_arrays_sample :
    ∃ outs fs', calls [.write 0 [1, 2, 3] 0, .read 0 1 5] SharedFile.openedDisk = .ok (outs, fs') ∧
      fs'.Sound ∧ (outs, fs'.bytes) = FileCall.allOnArrays (fun j => (SharedFile.openedDisk.icache j).inum)
        [.write 0 [1, 2, 3] 0, .read 0 1 5] SharedFile.openedDisk.bytes ∧
      ∀ i bytes off fs'', fs'.call (.write i bytes off) = .ok (.wrote none, fs'') → fs'' = fs' := by
  have hregular : SharedFile.openedDisk.Regular 0 := ⟨by decide +kernel, by decide +kernel⟩
  refine calls_arrays SharedFile.openedDisk_sound ?_ ⟨fun _ _ _ => by decide +kernel, fun _ _ _ =>
    ⟨trivial, fun _ _ _ => trivial⟩⟩
  simp only [List.mem_cons, List.not_mem_nil, or_false, forall_eq_or_imp, forall_eq]
  exact ⟨⟨hregular, by decide, by decide⟩, hregular, by decide, by decide⟩

end Fs

end Xv6
