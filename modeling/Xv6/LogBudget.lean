import Mathlib.Data.Finset.Card
import Xv6.Blocks
import Xv6.Lib.Traced

/-!
# The log blocks of a `filewrite`

`balloc`, `bmap`, `iupdate` and `writei` with the numbers of the blocks that they call `log_write` on, and
`filewrite` as the chunks it is cut into, each with the blocks that its transaction logs.  Without the log
the functions are those of the file system.
-/

namespace Xv6

def maxOpBlocks : ℕ := 10

/-- Where `struct superblock` puts the inodes and the free map. -/
structure Layout where
  inodestart : ℕ
  bmapstart : ℕ

namespace Layout

def bblock (sb : Layout) (b : ℕ) : ℕ := b / 4096 + sb.bmapstart

def iblock (sb : Layout) (inum : ℕ) : ℕ := inum / 8 + sb.inodestart

end Layout

/-- A function of the file system with the blocks it calls `log_write` on. -/
abbrev Logged (α : Type) := Traced ℕ Halt α

namespace Logged

local instance neZeroLog : NeZero 13 := ⟨by decide⟩

def logWrite (b : ℕ) : Logged Unit := Traced.emit b

def bzero (fs : Fs) (b : ℕ) : Logged Fs := do
  logWrite b
  return fs.setBlock b fun _ => 0

def balloc (sb : Layout) (fs : Fs) : Logged (ℕ × Fs) :=
  match fs.freeBlock (fs.size / 4096 + 1) 0 with
  | some b => do
    logWrite (sb.bblock b)
    let fs ← bzero (fs.mark b) b
    return (b, fs)
  | none => .lift (.error (.panic "balloc: out of blocks"))

def iupdate (sb : Layout) (fs : Fs) (i : Fin 50) : Logged Fs := do
  logWrite (sb.iblock (fs.icache i).inum)
  return fs.iupdate i

def bmapSlot (sb : Layout) (fs : Fs) (i : Fin 50) (k : Fin 13) : Logged (ℕ × Fs) :=
  if (fs.icache i).addrs k = 0 then do
    let (b, fs) ← balloc sb fs
    return (b, fs.setAddr i k b)
  else return ((fs.icache i).addrs k, fs)

def bmapEntry (sb : Layout) (fs : Fs) (ind j : ℕ) : Logged (ℕ × Fs) :=
  if (fs.block ind).word j = 0 then do
    let (b, fs) ← balloc sb fs
    logWrite ind
    return (b, fs.setBlock ind ((fs.block ind).setWord j b))
  else return ((fs.block ind).word j, fs)

def bmap (sb : Layout) (fs : Fs) (i : Fin 50) (bn : ℕ) : Logged (ℕ × Fs) :=
  if h : bn < 12 then bmapSlot sb fs i (Fs.direct bn h)
  else if bn - 12 < 128 then do
    let (ind, fs) ← bmapSlot sb fs i 12
    bmapEntry sb fs ind (bn - 12)
  else .lift (.error (.panic "bmap: out of range"))

def writeLoop (sb : Layout) (i : Fin 50) : ℕ → (ℕ → Byte) → ℕ → ℕ → Fs → Logged Fs
  | 0, _, _, _, _ => .lift (.error .livelock)
  | fuel + 1, src, left, off, fs =>
    if 0 < left then do
      let (b, fs) ← bmap sb fs i (off / 512)
      let m := min left (512 - off % 512)
      let fs := fs.setBlock b ((fs.block b).copyIn (off % 512) m src)
      logWrite b
      writeLoop sb i fuel (fun k => src (m + k)) (left - m) (off + m) fs
    else return fs

def writei (sb : Layout) (fs : Fs) (i : Fin 50) (src : ℕ → Byte) (off n : ℕ) : Logged (Option ℕ × Fs) :=
  let ip := fs.icache i
  if ip.type = Fs.tDev then if Fs.hasDev ip.major then return (some n, fs) else return (none, fs)
  else if ip.size < off ∨ (off + n) % 2 ^ 32 < off then return (none, fs)
  else if maxFileBytes < off + n then return (none, fs)
  else do
    let fs ← writeLoop sb i (n + 1) src n off fs
    if 0 < n ∧ (fs.icache i).size < off + n then
      let fs ← iupdate sb (fs.setInode i { fs.icache i with size := off + n }) i
      return (some n, fs)
    else return (some n, fs)

/-! ### Without the log -/

variable {sb : Layout} {fs fs' : Fs} {i : Fin 50} {b left t n1 : ℕ} {src : ℕ → Byte}

theorem balloc_result (sb : Layout) (fs : Fs) : (balloc sb fs).result = fs.balloc := by
  unfold balloc Fs.balloc
  cases fs.freeBlock (fs.size / 4096 + 1) 0 with
  | some b => rfl
  | none => rfl

theorem bmapSlot_result (sb : Layout) (fs : Fs) (i : Fin 50) (k : Fin 13) :
    (bmapSlot sb fs i k).result = fs.bmapSlot i k := by
  unfold bmapSlot Fs.bmapSlot
  split_ifs
  · rw [Traced.result_bind, balloc_result]
    rfl
  · rfl

theorem bmapEntry_result (sb : Layout) (fs : Fs) (ind j : ℕ) :
    (bmapEntry sb fs ind j).result = fs.bmapEntry ind j := by
  unfold bmapEntry Fs.bmapEntry
  split_ifs
  · rw [Traced.result_bind, balloc_result]
    rfl
  · rfl

theorem bmap_result (sb : Layout) (fs : Fs) (i : Fin 50) (bn : ℕ) :
    (bmap sb fs i bn).result = fs.bmap i bn := by
  unfold bmap Fs.bmap
  split_ifs
  · exact bmapSlot_result sb fs i _
  · rw [Traced.result_bind, bmapSlot_result]
    simp only [bmapEntry_result]
  · rfl

theorem writeLoop_result (sb : Layout) (i : Fin 50) (fuel : ℕ) (src : ℕ → Byte) (left off : ℕ) (fs : Fs) :
    (writeLoop sb i fuel src left off fs).result = Fs.writeLoop i fuel src left off fs := by
  induction fuel generalizing src left off fs with
  | zero => rfl
  | succ fuel ih =>
    unfold writeLoop Fs.writeLoop
    split_ifs
    · rw [Traced.result_bind, bmap_result]
      refine congrArg _ (funext fun r => ?_)
      dsimp only
      rw [Traced.result_bind]
      exact ih _ _ _ _
    · rfl

theorem writei_result (sb : Layout) (fs : Fs) (i : Fin 50) (src : ℕ → Byte) (off n : ℕ) :
    (writei sb fs i src off n).result = fs.writei i src off n := by
  unfold writei Fs.writei
  dsimp only
  split_ifs
  · rfl
  · rfl
  · rfl
  · rfl
  · rw [Traced.result_bind, writeLoop_result]
    refine congrArg _ (funext fun fs₁ => ?_)
    split_ifs
    · rfl
    · rfl

/-! ### What the functions keep -/

/-- The size of the disk and the kind of the inode are as before. -/
structure Keeps (fs fs' : Fs) (i : Fin 50) : Prop where
  size : fs'.size = fs.size
  type : (fs'.icache i).type = (fs.icache i).type
  valid : (fs'.icache i).valid = (fs.icache i).valid

theorem Keeps.refl (fs : Fs) (i : Fin 50) : Keeps fs fs i := ⟨rfl, rfl, rfl⟩

theorem Keeps.trans {fs₁ : Fs} (h : Keeps fs fs₁ i) (h' : Keeps fs₁ fs' i) : Keeps fs fs' i where
  size := h'.size.trans h.size
  type := h'.type.trans h.type
  valid := h'.valid.trans h.valid

theorem balloc_keeps (i : Fin 50) (h : fs.balloc = .ok (b, fs')) : Keeps fs fs' i := by
  unfold Fs.balloc at h
  split at h
  · cases h
    exact ⟨rfl, rfl, rfl⟩
  · cases h

theorem setAddr_keeps (fs : Fs) (i : Fin 50) (k : Fin 13) (b : ℕ) : Keeps fs (fs.setAddr i k b) i := by
  refine ⟨rfl, ?_, ?_⟩
  · rw [Fs.setAddr_self]
  · rw [Fs.setAddr_self]

theorem bmapSlot_keeps {k : Fin 13} (h : fs.bmapSlot i k = .ok (b, fs')) : Keeps fs fs' i := by
  unfold Fs.bmapSlot at h
  split_ifs at h
  · obtain ⟨⟨c, fs₁⟩, hballoc, h⟩ := Run.bind_ok h
    cases h
    exact (balloc_keeps i hballoc).trans (setAddr_keeps _ _ _ _)
  · cases h
    exact .refl _ _

theorem bmapEntry_keeps {ind j : ℕ} (i : Fin 50) (h : fs.bmapEntry ind j = .ok (b, fs')) :
    Keeps fs fs' i := by
  unfold Fs.bmapEntry at h
  split_ifs at h
  · obtain ⟨⟨c, fs₁⟩, hballoc, h⟩ := Run.bind_ok h
    cases h
    exact (balloc_keeps i hballoc).trans ⟨rfl, rfl, rfl⟩
  · cases h
    exact .refl _ _

theorem bmap_keeps {bn : ℕ} (h : fs.bmap i bn = .ok (b, fs')) : Keeps fs fs' i := by
  unfold Fs.bmap at h
  split_ifs at h
  · exact bmapSlot_keeps h
  · obtain ⟨⟨ind, fs₁⟩, hslot, h⟩ := Run.bind_ok h
    exact (bmapSlot_keeps hslot).trans (bmapEntry_keeps i h)

theorem writeLoop_keeps {fuel : ℕ} {off : ℕ}
    (h : Fs.writeLoop i fuel src left off fs = .ok fs') : Keeps fs fs' i := by
  induction fuel generalizing src left off fs with
  | zero => cases h
  | succ fuel ih =>
    rw [Fs.writeLoop] at h
    split_ifs at h
    · obtain ⟨⟨b, fs₁⟩, hbmap, h⟩ := Run.bind_ok h
      refine (bmap_keeps hbmap).trans (Keeps.trans ?_ (ih h))
      exact ⟨rfl, rfl, rfl⟩
    · cases h
      exact .refl _ _

theorem writei_ok {off n : ℕ} {r : Option ℕ} (h : fs.writei i src off n = .ok (r, fs')) :
    Keeps fs fs' i ∧ (r = none ∨ r = some n ∧ ((fs.icache i).type ≠ Fs.tDev → off + n ≤ maxFileBytes)) := by
  unfold Fs.writei at h
  dsimp only at h
  split_ifs at h with hdev hhas hoff hmax
  · cases h
    exact ⟨.refl _ _, .inr ⟨rfl, fun hregular => absurd hdev hregular⟩⟩
  · cases h
    exact ⟨.refl _ _, .inl rfl⟩
  · cases h
    exact ⟨.refl _ _, .inl rfl⟩
  · cases h
    exact ⟨.refl _ _, .inl rfl⟩
  · obtain ⟨fs₁, hloop, h⟩ := Run.bind_ok h
    split_ifs at h
    · cases h
      refine ⟨(writeLoop_keeps hloop).trans ⟨rfl, ?_, ?_⟩, .inr ⟨rfl, fun _ => not_lt.1 hmax⟩⟩
      · simp [Fs.iupdate, Fs.setInode]
      · simp [Fs.iupdate, Fs.setInode]
    · cases h
      exact ⟨writeLoop_keeps hloop, .inr ⟨rfl, fun _ => not_lt.1 hmax⟩⟩

/-! ### The blocks of a `writei` -/

/-- On a disk whose free map is one block, `balloc` logs that block and the one it returns. -/
theorem balloc_trace (hsize : fs.size ≤ 4096) (ht : t ∈ (balloc sb fs).trace) :
    t = sb.bmapstart ∨ ∃ fs', fs.balloc = .ok (t, fs') := by
  unfold balloc at ht
  cases hfind : fs.freeBlock (fs.size / 4096 + 1) 0 with
  | none =>
    rw [hfind] at ht
    cases ht
  | some b =>
    rw [hfind] at ht
    have hlt := (Fs.freeBlock_some hfind).1
    rcases List.mem_cons.1 ht with rfl | ht
    · left
      rw [Layout.bblock, Nat.div_eq_of_lt (by omega), Nat.zero_add]
    · right
      obtain rfl : t = b := List.mem_singleton.1 ht
      exact ⟨_, by rw [Fs.balloc, hfind]⟩

theorem bmapSlot_trace (hsize : fs.size ≤ 4096) {k : Fin 13}
    (ht : t ∈ (bmapSlot sb fs i k).trace) :
    t = sb.bmapstart ∨ ∃ fs', fs.bmapSlot i k = .ok (t, fs') := by
  unfold bmapSlot at ht
  split_ifs at ht with hnull
  · rcases Traced.mem_trace_bind ht with ht | ⟨⟨b, fs₁⟩, -, ht⟩
    · rcases balloc_trace hsize ht with rfl | ⟨fs', hballoc⟩
      · exact .inl rfl
      · refine .inr ⟨fs'.setAddr i k t, ?_⟩
        rw [Fs.bmapSlot, if_pos hnull, hballoc]
        rfl
    · cases ht
  · cases ht

theorem bmapEntry_trace (hsize : fs.size ≤ 4096) {ind j : ℕ} (ht : t ∈ (bmapEntry sb fs ind j).trace) :
    t = sb.bmapstart ∨ t = ind ∨ ∃ fs', fs.bmapEntry ind j = .ok (t, fs') := by
  unfold bmapEntry at ht
  split_ifs at ht with hnull
  · rcases Traced.mem_trace_bind ht with ht | ⟨⟨b, fs₁⟩, -, ht⟩
    · rcases balloc_trace hsize ht with rfl | ⟨fs', hballoc⟩
      · exact .inl rfl
      · refine .inr (.inr ⟨fs'.setBlock ind ((fs'.block ind).setWord j t), ?_⟩)
        rw [Fs.bmapEntry, if_pos hnull, hballoc]
        rfl
    · right
      left
      exact List.mem_singleton.1 ht
  · cases ht

/-- `bmap` logs the free map, one indirect block and the block it returns, at most. -/
theorem bmap_trace (sb : Layout) (i : Fin 50) (bn : ℕ) (hsize : fs.size ≤ 4096) :
    ∃ ind, ∀ t ∈ (bmap sb fs i bn).trace,
      t = sb.bmapstart ∨ t = ind ∨ ∃ fs', fs.bmap i bn = .ok (t, fs') := by
  unfold bmap Fs.bmap
  split_ifs with hdirect hindirect
  · refine ⟨0, fun t ht => ?_⟩
    rcases bmapSlot_trace hsize ht with hmap | hslot
    · exact .inl hmap
    · exact .inr (.inr hslot)
  · cases hslot : fs.bmapSlot i 12 with
    | error e =>
      refine ⟨0, fun t ht => ?_⟩
      rw [Traced.trace_bind_error ((bmapSlot_result sb fs i 12).trans hslot)] at ht
      rcases bmapSlot_trace hsize ht with hmap | ⟨fs', hslot'⟩
      · exact .inl hmap
      · cases hslot.symm.trans hslot'
    | ok r =>
      obtain ⟨ind, fs₁⟩ := r
      refine ⟨ind, fun t ht => ?_⟩
      have hsize₁ : fs₁.size ≤ 4096 := by
        rw [(bmapSlot_keeps hslot).size]
        exact hsize
      rw [Traced.trace_bind_ok ((bmapSlot_result sb fs i 12).trans hslot)] at ht
      rcases List.mem_append.1 ht with ht | ht
      · rcases bmapSlot_trace hsize ht with hmap | ⟨fs', hslot'⟩
        · exact .inl hmap
        · cases hslot.symm.trans hslot'
          exact .inr (.inl rfl)
      · exact bmapEntry_trace hsize₁ ht
  · exact ⟨0, fun t ht => (List.not_mem_nil ht).elim⟩

/-- How many blocks of a file `left` bytes from `off` on lie in. -/
def rounds (off left : ℕ) : ℕ := if left = 0 then 0 else (off % 512 + left + 511) / 512

theorem rounds_next (off : ℕ) {m : ℕ} (hleft : 0 < left) (hm : m = min left (512 - off % 512)) :
    rounds (off + m) (left - m) + 1 ≤ rounds off left := by
  unfold rounds
  rw [if_neg (by omega : ¬left = 0)]
  by_cases hin : left ≤ 512 - off % 512
  · rw [if_pos (by omega)]
    omega
  · have hmod : (off + m) % 512 = 0 := by omega
    rw [if_neg (by omega), hmod]
    omega

/-- A round of the loop logs the free map, an indirect block and a block of data, at most. -/
theorem writeLoop_trace (sb : Layout) (fs : Fs) (i : Fin 50) (fuel : ℕ) (src : ℕ → Byte) (left off : ℕ)
    (hsize : fs.size ≤ 4096) : ∃ C : Finset ℕ, C.card ≤ 2 * rounds off left ∧
      ∀ t ∈ (writeLoop sb i fuel src left off fs).trace, t = sb.bmapstart ∨ t ∈ C := by
  induction fuel generalizing src left off fs with
  | zero => exact ⟨∅, Nat.zero_le _, fun t ht => (List.not_mem_nil ht).elim⟩
  | succ fuel ih =>
    rw [writeLoop]
    split_ifs with hleft
    case neg => exact ⟨∅, Nat.zero_le _, fun t ht => (List.not_mem_nil ht).elim⟩
    have hnext := rounds_next off hleft rfl
    obtain ⟨ind, hbmap⟩ := bmap_trace sb i (off / 512) hsize
    cases hok : fs.bmap i (off / 512) with
    | error e =>
      refine ⟨{ind}, by rw [Finset.card_singleton]; omega, fun t ht => ?_⟩
      rw [Traced.trace_bind_error ((bmap_result sb fs i _).trans hok)] at ht
      rcases hbmap t ht with hmap | rfl | ⟨fs', hok'⟩
      · exact .inl hmap
      · exact .inr (Finset.mem_singleton_self t)
      · cases hok.symm.trans hok'
    | ok r =>
      obtain ⟨b, fs₁⟩ := r
      have hsize₁ : fs₁.size ≤ 4096 := by
        rw [(bmap_keeps hok).size]
        exact hsize
      obtain ⟨C, hcard, hC⟩ := ih (fs₁.setBlock b ((fs₁.block b).copyIn (off % 512)
        (min left (512 - off % 512)) src)) (fun k => src (min left (512 - off % 512) + k))
        (left - min left (512 - off % 512)) (off + min left (512 - off % 512)) hsize₁
      refine ⟨insert ind (insert b C), ?_, fun t ht => ?_⟩
      · have hind := Finset.card_insert_le ind (insert b C)
        have hb := Finset.card_insert_le b C
        omega
      · rw [Traced.trace_bind_ok ((bmap_result sb fs i _).trans hok)] at ht
        simp only [Finset.mem_insert]
        rcases List.mem_append.1 ht with ht | ht
        · rcases hbmap t ht with hmap | rfl | ⟨fs', hok'⟩
          · exact .inl hmap
          · exact .inr (.inl rfl)
          · cases hok.symm.trans hok'
            exact .inr (.inr (.inl rfl))
        · rcases Traced.mem_trace_bind ht with ht | ⟨-, -, ht⟩
          · exact .inr (.inr (.inl (List.mem_singleton.1 ht)))
          · rcases hC t ht with hmap | hrest
            · exact .inl hmap
            · exact .inr (.inr (.inr hrest))

/-- Up to four blocks of data, an indirect block for each, the free map and the inode. -/
theorem writei_trace (sb : Layout) (i : Fin 50) (src : ℕ → Byte) (off : ℕ) {n : ℕ} (hsize : fs.size ≤ 4096)
    (hn : n ≤ maxChunk) : (writei sb fs i src off n).trace.toFinset.card ≤ maxOpBlocks := by
  obtain ⟨C, hcard, hC⟩ := writeLoop_trace sb fs i (n + 1) src n off hsize
  have hrounds : rounds off n ≤ 4 := by
    simp only [rounds, maxChunk] at *
    split_ifs
    · omega
    · omega
  have hsub : ∃ inode, ∀ t ∈ (writei sb fs i src off n).trace, t = inode ∨ t = sb.bmapstart ∨ t ∈ C := by
    unfold writei
    dsimp only
    split_ifs
    · exact ⟨0, fun t ht => (List.not_mem_nil ht).elim⟩
    · exact ⟨0, fun t ht => (List.not_mem_nil ht).elim⟩
    · exact ⟨0, fun t ht => (List.not_mem_nil ht).elim⟩
    · exact ⟨0, fun t ht => (List.not_mem_nil ht).elim⟩
    · cases hloop : (writeLoop sb i (n + 1) src n off fs).result with
      | error e =>
        refine ⟨0, fun t ht => .inr (hC t ?_)⟩
        rwa [Traced.trace_bind_error hloop] at ht
      | ok fs₁ =>
        refine ⟨sb.iblock (fs₁.icache i).inum, fun t ht => ?_⟩
        rw [Traced.trace_bind_ok hloop] at ht
        rcases List.mem_append.1 ht with ht | ht
        · exact .inr (hC t ht)
        · split_ifs at ht
          · left
            rw [List.mem_singleton.1 ht]
            simp [Fs.setInode]
          · cases ht
  obtain ⟨inode, hsub⟩ := hsub
  have hle : (writei sb fs i src off n).trace.toFinset.card ≤ (insert inode (insert sb.bmapstart C)).card := by
    apply Finset.card_le_card
    intro t ht
    simp only [Finset.mem_insert]
    exact hsub t (List.mem_toFinset.1 ht)
  have hinode := Finset.card_insert_le inode (insert sb.bmapstart C)
  have hmap := Finset.card_insert_le sb.bmapstart C
  unfold maxOpBlocks
  omega

/-! ### `filewrite` -/

/-- A `struct file` of an inode. -/
structure OpenInode where
  writable : Bool
  ip : Fin 50
  off : ℕ

/-- One transaction of `filewrite`: the range it writes and the blocks it logs. -/
structure Chunk where
  off : ℕ
  len : ℕ
  blocks : List ℕ

/-- What stands between `begin_op` and `end_op`. -/
def writeChunk (sb : Layout) (fs : Fs) (f : OpenInode) (src : ℕ → Byte) (n1 : ℕ) :
    Logged (Option ℕ × Fs) := do
  let fs ← .lift (fs.ilock f.ip)
  writei sb fs f.ip src f.off n1

def filewriteLoop (sb : Layout) (addr : ℕ → Byte) (n : ℤ) :
    ℕ → ℕ → OpenInode → Fs → Traced Chunk Halt (ℤ × OpenInode × Fs)
  | 0, _, _, _ => .lift (.error .livelock)
  | fuel + 1, done, f, fs =>
    if (done : ℤ) < n then do
      let n1 := min (n - done).toNat maxChunk
      let (r, fs) ← (writeChunk sb fs f (fun k => addr (done + k)) n1).pack (Chunk.mk f.off n1)
      match r with
      | none => return (if (done : ℤ) = n then n else -1, f, fs)
      | some r =>
        if r ≠ n1 then .lift (.error (.panic "short filewrite"))
        else filewriteLoop sb addr n fuel (done + r) { f with off := (f.off + r) % 2 ^ 32 } fs
    else return (if (done : ℤ) = n then n else -1, f, fs)

def filewrite (sb : Layout) (fs : Fs) (f : OpenInode) (addr : ℕ → Byte) (n : ℤ) :
    Traced Chunk Halt (ℤ × OpenInode × Fs) :=
  if f.writable then filewriteLoop sb addr n (n.toNat + 1) 0 f fs else return (-1, f, fs)

/-- The offsets of `n` bytes from `off` on; an offset is a `uint`. -/
def positions (off n : ℕ) : List ℕ := (List.range n).map fun k => (off + k) % 2 ^ 32

def Chunk.positions (c : Chunk) : List ℕ := Logged.positions c.off c.len

/-- The type that `ilock` finds. -/
def lockedType (fs : Fs) (i : Fin 50) : ℕ :=
  if (fs.icache i).valid then (fs.icache i).type else (fs.dinode (fs.icache i).inum).type

theorem positions_add (off a b : ℕ) :
    positions off (a + b) = positions off a ++ positions ((off + a) % 2 ^ 32) b := by
  unfold positions
  rw [List.range_add, List.map_append, List.map_map]
  congr 1
  refine List.map_congr_left fun k _ => ?_
  simp only [Function.comp_apply, Nat.mod_add_mod]
  rw [Nat.add_assoc]

theorem ilock_ok (h : fs.ilock i = .ok fs') :
    fs'.size = fs.size ∧ (fs'.icache i).valid = true ∧ (fs'.icache i).type = lockedType fs i := by
  unfold Fs.ilock at h
  dsimp only at h
  split_ifs at h with href hvalid htype
  · cases h
    exact ⟨rfl, hvalid, by rw [lockedType, if_pos hvalid]⟩
  · cases h
    refine ⟨rfl, ?_, ?_⟩
    · simp [Fs.setInode]
    · simp [Fs.setInode, lockedType, hvalid]

variable {f f' : OpenInode}

theorem writeChunk_trace (sb : Layout) (f : OpenInode) (src : ℕ → Byte) (hsize : fs.size ≤ 4096)
    (hn : n1 ≤ maxChunk) : (writeChunk sb fs f src n1).trace.toFinset.card ≤ maxOpBlocks := by
  unfold writeChunk
  cases hlock : fs.ilock f.ip with
  | error e =>
    rw [Traced.trace_bind_error rfl]
    exact Nat.zero_le _
  | ok fs₁ =>
    rw [Traced.trace_bind_ok rfl]
    apply writei_trace sb f.ip src f.off _ hn
    rw [(ilock_ok hlock).1]
    exact hsize

theorem writeChunk_ok {r : Option ℕ}
    (h : (writeChunk sb fs f src n1).result = .ok (r, fs')) :
    fs'.size = fs.size ∧ lockedType fs' f.ip = lockedType fs f.ip ∧
      (r = none ∨ r = some n1 ∧ (lockedType fs f.ip ≠ Fs.tDev → f.off + n1 ≤ maxFileBytes)) := by
  rw [writeChunk, Traced.result_bind] at h
  obtain ⟨fs₁, hlock, h⟩ := Run.bind_ok h
  obtain ⟨hsize, hvalid, htype⟩ := ilock_ok hlock
  rw [writei_result] at h
  obtain ⟨hkeeps, hr⟩ := writei_ok h
  rw [htype] at hr
  refine ⟨hkeeps.size.trans hsize, ?_, hr⟩
  rw [lockedType, if_pos (hkeeps.valid.trans hvalid), hkeeps.type, htype]

theorem filewriteLoop_round (sb : Layout) (addr : ℕ → Byte) (fuel : ℕ) (fs : Fs) (f : OpenInode) {n : ℤ}
    {done : ℕ} (hlt : (done : ℤ) < n) (hn1 : n1 = min (n - done).toNat maxChunk) :
    ∃ c : Chunk, c = ⟨f.off, n1, (writeChunk sb fs f (fun k => addr (done + k)) n1).trace⟩ ∧
      ((∃ e, (writeChunk sb fs f (fun k => addr (done + k)) n1).result = .error e ∧
          filewriteLoop sb addr n (fuel + 1) done f fs = ⟨[c], .error e⟩) ∨
        (∃ fs₁, filewriteLoop sb addr n (fuel + 1) done f fs = ⟨[c], .ok (-1, f, fs₁)⟩) ∨
        ∃ fs₁, (writeChunk sb fs f (fun k => addr (done + k)) n1).result = .ok (some n1, fs₁) ∧
          filewriteLoop sb addr n (fuel + 1) done f fs =
            ⟨c :: (filewriteLoop sb addr n fuel (done + n1) { f with off := (f.off + n1) % 2 ^ 32 } fs₁).trace,
              (filewriteLoop sb addr n fuel (done + n1) { f with off := (f.off + n1) % 2 ^ 32 } fs₁).result⟩) := by
  subst hn1
  refine ⟨_, rfl, ?_⟩
  rw [filewriteLoop, if_pos hlt]
  dsimp only
  cases hchunk : (writeChunk sb fs f (fun k => addr (done + k)) (min (n - done).toNat maxChunk)).result with
  | error e =>
    rw [Traced.pack_bind_error hchunk]
    exact .inl ⟨e, rfl, rfl⟩
  | ok p =>
    obtain ⟨r, fs₁⟩ := p
    rw [Traced.pack_bind_ok hchunk]
    obtain ⟨-, -, rfl | ⟨rfl, -⟩⟩ := writeChunk_ok hchunk
    · refine .inr (.inl ⟨fs₁, ?_⟩)
      dsimp only
      rw [if_neg hlt.ne]
      rfl
    · refine .inr (.inr ⟨fs₁, rfl, ?_⟩)
      dsimp only
      rw [if_neg (not_not.2 rfl)]

/-! ### The loops end -/

/-- A stop other than a loop that goes on. -/
def Ends (e : Halt) : Prop := e ≠ .livelock

theorem balloc_ends (fs : Fs) : Run.Meets Ends (fun _ => True) fs.balloc := by
  unfold Fs.balloc
  split
  · trivial
  · exact fun hlive => by cases hlive

theorem bmapSlot_ends (fs : Fs) (i : Fin 50) (k : Fin 13) :
    Run.Meets Ends (fun _ => True) (fs.bmapSlot i k) := by
  unfold Fs.bmapSlot
  split_ifs
  · exact (balloc_ends fs).bind fun _ _ => trivial
  · trivial

theorem bmapEntry_ends (fs : Fs) (ind j : ℕ) : Run.Meets Ends (fun _ => True) (fs.bmapEntry ind j) := by
  unfold Fs.bmapEntry
  split_ifs
  · exact (balloc_ends fs).bind fun _ _ => trivial
  · trivial

theorem bmap_ends (fs : Fs) (i : Fin 50) (bn : ℕ) : Run.Meets Ends (fun _ => True) (fs.bmap i bn) := by
  unfold Fs.bmap
  split_ifs
  · exact bmapSlot_ends fs i _
  · exact (bmapSlot_ends fs i 12).bind fun r _ => bmapEntry_ends r.2 r.1 _
  · exact fun hlive => by cases hlive

theorem writeLoop_ends (i : Fin 50) {fuel : ℕ} (src : ℕ → Byte) (off : ℕ) (fs : Fs)
    (hfuel : left < fuel) : Run.Meets Ends (fun _ => True) (Fs.writeLoop i fuel src left off fs) := by
  induction fuel generalizing src left off fs with
  | zero => omega
  | succ fuel ih =>
    rw [Fs.writeLoop]
    split_ifs with hleft
    · exact (bmap_ends fs i _).bind fun r _ => ih _ _ _ (by omega)
    · trivial

theorem writei_ends (fs : Fs) (i : Fin 50) (src : ℕ → Byte) (off n : ℕ) :
    Run.Meets Ends (fun _ => True) (fs.writei i src off n) := by
  unfold Fs.writei
  dsimp only
  split_ifs
  · trivial
  · trivial
  · trivial
  · trivial
  · refine (writeLoop_ends i src off fs (Nat.lt_succ_self n)).bind fun fs₁ _ => ?_
    split_ifs
    · trivial
    · trivial

theorem writeChunk_ends (sb : Layout) (fs : Fs) (f : OpenInode) (src : ℕ → Byte) (n1 : ℕ) :
    Run.Meets Ends (fun _ => True) (writeChunk sb fs f src n1).result := by
  have hlock : Run.Meets Ends (fun _ => True) (fs.ilock f.ip) := by
    unfold Fs.ilock
    dsimp only
    split_ifs
    · exact fun hlive => by cases hlive
    · trivial
    · exact fun hlive => by cases hlive
    · trivial
  rw [writeChunk, Traced.result_bind]
  refine hlock.bind fun fs₁ _ => ?_
  rw [writei_result]
  exact writei_ends fs₁ f.ip src f.off n1

/-! ### The chunks -/

variable {addr : ℕ → Byte} {n : ℤ} {done : ℕ}

theorem filewriteLoop_ends (fuel : ℕ) (f : OpenInode) (fs : Fs) (hfuel : n ≤ done + fuel) :
    Run.Meets Ends (fun _ => True) (filewriteLoop sb addr n (fuel + 1) done f fs).result := by
  induction fuel generalizing done f fs with
  | zero =>
    rw [filewriteLoop, if_neg (by omega)]
    trivial
  | succ fuel ih =>
    by_cases hlt : (done : ℤ) < n
    · obtain ⟨c, -, ⟨e, hchunk, hround⟩ | ⟨fs₁, hround⟩ | ⟨fs₁, -, hround⟩⟩ :=
        filewriteLoop_round sb addr (fuel + 1) fs f hlt rfl
      · have hends := writeChunk_ends sb fs f (fun k => addr (done + k)) (min (n - done).toNat maxChunk)
        rw [hchunk] at hends
        rw [hround]
        exact hends
      · rw [hround]
        trivial
      · rw [hround]
        apply ih
        unfold maxChunk
        omega
    · rw [filewriteLoop, if_neg hlt]
      trivial

theorem filewriteLoop_fits (fuel : ℕ) (f : OpenInode) (hsize : fs.size ≤ 4096) :
    ∀ c ∈ (filewriteLoop sb addr n fuel done f fs).trace,
      c.len ≤ maxChunk ∧ c.blocks.toFinset.card ≤ maxOpBlocks := by
  induction fuel generalizing done f fs with
  | zero => exact fun c hc => (List.not_mem_nil hc).elim
  | succ fuel ih =>
    by_cases hlt : (done : ℤ) < n
    · obtain ⟨c, hc, hround⟩ := filewriteLoop_round sb addr fuel fs f hlt rfl
      have hfirst : c.len ≤ maxChunk ∧ c.blocks.toFinset.card ≤ maxOpBlocks := by
        rw [hc]
        exact ⟨min_le_right _ _, writeChunk_trace sb f _ hsize (min_le_right _ _)⟩
      rcases hround with ⟨e, -, hround⟩ | ⟨fs₁, hround⟩ | ⟨fs₁, hchunk, hround⟩
      · rw [hround]
        simpa using hfirst
      · rw [hround]
        simpa using hfirst
      · rw [hround]
        have hsize₁ : fs₁.size ≤ 4096 := by
          rw [(writeChunk_ok hchunk).1]
          exact hsize
        exact List.forall_mem_cons.2 ⟨hfirst, ih _ hsize₁⟩
    · rw [filewriteLoop, if_neg hlt]
      exact fun c hc => (List.not_mem_nil hc).elim

/-- A call that returns `n` has written the rest of the range, and a file has room for it. -/
theorem filewriteLoop_covers (fuel : ℕ)
    (hrun : (filewriteLoop sb addr n fuel done f fs).result = .ok (n, f', fs')) :
    (filewriteLoop sb addr n fuel done f fs).trace.flatMap Chunk.positions =
        positions f.off (n - done).toNat ∧
      (lockedType fs f.ip ≠ Fs.tDev → done < n → f.off + (n - done) ≤ maxFileBytes) := by
  induction fuel generalizing done f fs with
  | zero => cases hrun
  | succ fuel ih =>
    by_cases hlt : (done : ℤ) < n
    · obtain ⟨c, hc, ⟨e, -, hround⟩ | ⟨fs₁, hround⟩ | ⟨fs₁, hchunk, hround⟩⟩ :=
        filewriteLoop_round sb addr fuel fs f hlt rfl
      · rw [hround] at hrun
        cases hrun
      · rw [hround] at hrun
        cases hrun
        omega
      · rw [hround] at hrun ⊢
        obtain ⟨-, htype, hnone | ⟨-, hmax⟩⟩ := writeChunk_ok hchunk
        · cases hnone
        set n1 := min (n - done).toNat maxChunk with hn1
        have hle : (n1 : ℤ) ≤ n - done := by omega
        obtain ⟨hrest, hfile⟩ := ih hrun
        constructor
        · rw [List.flatMap_cons, hrest, hc, Chunk.positions]
          dsimp only
          rw [← positions_add]
          congr 1
          omega
        · intro hregular _
          have hoff := hmax hregular
          unfold maxFileBytes at hoff hfile ⊢
          by_cases hmore : ((done + n1 : ℕ) : ℤ) < n
          · have hroom := hfile (htype.trans_ne hregular) hmore
            dsimp only at hroom
            omega
          · omega
    · rw [filewriteLoop, if_neg hlt]
      have heq : (n - done).toNat = 0 := by omega
      rw [heq]
      exact ⟨rfl, fun _ hlt' => absurd hlt' hlt⟩

/-- A chunk of `filewrite` logs at most `MAXOPBLOCKS` blocks on a disk of `FSSIZE` blocks, wherever it starts
and whatever the inode holds, also if it runs out of blocks.  `filewrite` ends, and if it returns `n` then its
chunks are the range from the offset on, in order; a regular file has room for the whole of it. -/
theorem filewrite_fits_log (sb : Layout) (fs : Fs) (hsize : fs.size = fssize) :
    (∀ i src off n1, n1 ≤ maxChunk → (writei sb fs i src off n1).trace.toFinset.card ≤ maxOpBlocks) ∧
    ∀ f addr n, (filewrite sb fs f addr n).result ≠ .error .livelock ∧
      (∀ c ∈ (filewrite sb fs f addr n).trace,
        c.len ≤ maxChunk ∧ c.blocks.toFinset.card ≤ maxOpBlocks) ∧
      ∀ f' fs', (filewrite sb fs f addr n).result = .ok (n, f', fs') →
        (filewrite sb fs f addr n).trace.flatMap Chunk.positions = positions f.off n.toNat ∧
        (lockedType fs f.ip ≠ Fs.tDev → 0 < n → f.off + n ≤ maxFileBytes) := by
  have hmap : fs.size ≤ 4096 := by
    rw [hsize]
    decide
  refine ⟨fun i src off n1 hn => writei_trace sb i src off hmap hn, fun f addr n => ?_⟩
  unfold filewrite
  split_ifs
  · refine ⟨fun hlive => ?_, filewriteLoop_fits _ f hmap, fun f' fs' hrun => ?_⟩
    · have hends := @filewriteLoop_ends sb addr n 0 n.toNat f fs (by omega)
      rw [hlive] at hends
      exact hends rfl
    · simpa using filewriteLoop_covers _ hrun
  · refine ⟨fun hlive => (by cases hlive), fun c hc => (List.not_mem_nil hc).elim, fun f' fs' hrun => ?_⟩
    cases hrun
    exact ⟨rfl, fun _ hpos => absurd hpos (by decide)⟩

/-- A disk of `FSSIZE` blocks with an empty file in inode 2, from block 100 on free. -/
def freshDisk : Fs where
  size := fssize
  nblocks := 900
  ninodes := 200
  bitmap _ k := if k < 12 then 255 else if k = 12 then 15 else 0
  dinode _ := ⟨2, 0, 0, 1, 0, fun _ => 0⟩
  block _ _ := 0
  icache _ := ⟨⟨2, 0, 0, 1, 0, fun _ => 0⟩, 2, 1, true⟩

theorem filewrite_fits_log_fresh : freshDisk.size = fssize ∧
    ∃ f' fs', (filewrite ⟨32, 58⟩ freshDisk ⟨true, 0, 0⟩ (fun _ => 7) 2000).result = .ok (2000, f', fs') ∧
      (filewrite ⟨32, 58⟩ freshDisk ⟨true, 0, 0⟩ (fun _ => 7) 2000).trace.flatMap Chunk.positions =
        positions 0 2000 := by
  have hrun : Run.endsIn (fun r => r.1 == 2000)
      (filewrite ⟨32, 58⟩ freshDisk ⟨true, 0, 0⟩ (fun _ => 7) 2000).result = true := by
    decide +kernel
  obtain ⟨⟨n, f', fs'⟩, hrun, hn⟩ := Run.of_endsIn hrun
  obtain rfl : n = 2000 := by simpa using hn
  exact ⟨rfl, f', fs', hrun, (((filewrite_fits_log ⟨32, 58⟩ freshDisk rfl).2 _ _ _).2.2 f' fs' hrun).1⟩

end Logged

end Xv6
