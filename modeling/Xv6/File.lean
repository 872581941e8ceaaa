import Mathlib.Data.Nat.Basic

/-!
# Regular files as `readi`, `writei` and `filewrite` see them

A regular inode is its size and its bytes; the block map underneath is not visible at this level.
`writei` refuses to write past the end of the file, which is what decides later whether a swap
slot can be filled, and `filewrite` cuts a request into chunks that fit one log transaction.
The result of this file is `filewrite_eq`: a request that starts inside the file and fits the
largest file is carried out as one write.
-/

namespace Xv6

abbrev Byte := UInt8

/-- A regular inode: its size and its contents. -/
structure File where
  size : ℕ
  byte : ℕ → Byte

/-- `MAXFILE * BSIZE`, the largest file in bytes. -/
def maxFileBytes : ℕ := 71680

/-- `FSSIZE`, the blocks of the file system. -/
def fssize : ℕ := 1000

/-- The most bytes `filewrite` puts in one transaction, `((MAXOPBLOCKS-1-1-2) / 2) * 512`. -/
def maxChunk : ℕ := (10 - 1 - 1 - 2) / 2 * 512

namespace File

/-- The empty file `create` makes. -/
def empty : File := ⟨0, fun _ => 0⟩

/-- The bytes from `off` to `off + n` replaced by `src`, the file grown when it has to be. -/
def overwrite (f : File) (src : ℕ → Byte) (off n : ℕ) : File where
  size := if 0 < n ∧ f.size < off + n then off + n else f.size
  byte k := if off ≤ k ∧ k < off + n then src (k - off) else f.byte k

/-- `readi`: how many bytes from `off` on are copied out, `none` for the result -1. -/
def readi (f : File) (off n : ℕ) : Option ℕ :=
  if f.size < off ∨ 0x100000000 ≤ off + n then none
  else if f.size < off + n then some (f.size - off)
  else some n

/-- `writei`, `none` for the result -1. -/
def writei (f : File) (src : ℕ → Byte) (off n : ℕ) : Option File :=
  if f.size < off ∨ 0x100000000 ≤ off + n then none
  else if maxFileBytes < off + n then none
  else some (f.overwrite src off n)

/-- The loop of `filewrite` with `i` of the `n` bytes done; `fuel` bounds the chunks left. -/
def filewriteLoop (src : ℕ → Byte) (n : ℕ) : ℕ → ℕ → ℕ → File → Bool × File
  | 0, i, _, f => (i == n, f)
  | fuel + 1, i, off, f =>
    if i < n then
      let n1 := min (n - i) maxChunk
      match f.writei (fun k => src (i + k)) off n1 with
      | none => (false, f)
      | some f' => filewriteLoop src n fuel (i + n1) (off + n1) f'
    else (i == n, f)

/-- `filewrite` on an inode: whether all `n` bytes were written, and the file left behind. -/
def filewrite (f : File) (src : ℕ → Byte) (off n : ℕ) : Bool × File :=
  filewriteLoop src n n 0 off f

/-! ### What the operations do -/

variable {f : File} {off n : ℕ} {src : ℕ → Byte}

theorem readi_eq (h : off + n ≤ f.size) (hw : off + n < 0x100000000) :
    f.readi off n = some n := by
  simp only [readi]
  rw [if_neg (by omega), if_neg (by omega)]

theorem writei_eq (h : off ≤ f.size)
    (hm : off + n ≤ maxFileBytes) : f.writei src off n = some (f.overwrite src off n) := by
  have hw : off + n < 0x100000000 := lt_of_le_of_lt hm (by decide)
  rw [writei, if_neg (by omega), if_neg (by omega)]

theorem writei_some {g : File} (h : f.writei src off n = some g) :
    g = f.overwrite src off n := by
  rw [writei] at h
  split_ifs at h
  exact (Option.some.inj h).symm

theorem writei_past_end (h : f.size < off) :
    f.writei src off n = none := by
  simp [writei, h]

theorem overwrite_zero (f : File) (src : ℕ → Byte) (off : ℕ) : f.overwrite src off 0 = f := by
  have hb : (fun k => if off ≤ k ∧ k < off + 0 then src (k - off) else f.byte k) = f.byte := by
    funext k
    rw [if_neg (by omega)]
  simp only [overwrite, hb]
  simp

theorem overwrite_size_le (f : File) (src : ℕ → Byte) (off n : ℕ) :
    f.size ≤ (f.overwrite src off n).size := by
  simp only [overwrite]
  split_ifs <;> omega

theorem overwrite_size (f : File) (src : ℕ → Byte) (hn : 0 < n) :
    off + n ≤ (f.overwrite src off n).size := by
  simp only [overwrite]
  split_ifs <;> omega

theorem overwrite_append (f : File) (src : ℕ → Byte) (off a b : ℕ) (h : off ≤ f.size) :
    (f.overwrite src off a).overwrite (fun k => src (a + k)) (off + a) b =
      f.overwrite src off (a + b) := by
  have hb : ∀ k, (if off + a ≤ k ∧ k < off + a + b then src (a + (k - (off + a)))
      else if off ≤ k ∧ k < off + a then src (k - off) else f.byte k) =
      if off ≤ k ∧ k < off + (a + b) then src (k - off) else f.byte k := by
    intro k
    by_cases h1 : off + a ≤ k ∧ k < off + a + b
    · rw [if_pos h1, if_pos (by omega), show a + (k - (off + a)) = k - off by omega]
    · rw [if_neg h1]
      by_cases h2 : off ≤ k ∧ k < off + a
      · rw [if_pos h2, if_pos (by omega)]
      · rw [if_neg h2, if_neg (by omega)]
  have hs : (if 0 < b ∧ (if 0 < a ∧ f.size < off + a then off + a else f.size) < off + a + b
      then off + a + b else if 0 < a ∧ f.size < off + a then off + a else f.size) =
      if 0 < a + b ∧ f.size < off + (a + b) then off + (a + b) else f.size := by
    split_ifs <;> omega
  simp only [overwrite, File.mk.injEq]
  exact ⟨hs, funext hb⟩

theorem filewriteLoop_eq (f : File) (src : ℕ → Byte) (off n : ℕ) (h : off ≤ f.size)
    (hm : off + n ≤ maxFileBytes) :
    ∀ fuel i, i ≤ n → n ≤ fuel + i →
      filewriteLoop src n fuel i (off + i) (f.overwrite src off i) =
        (true, f.overwrite src off n) := by
  intro fuel
  induction fuel with
  | zero =>
    intro i hi hf
    obtain rfl : i = n := by omega
    simp [filewriteLoop]
  | succ fuel ih =>
    intro i hi hf
    by_cases hlt : i < n
    · have hchunk : 0 < min (n - i) maxChunk := by
        simp only [maxChunk]
        omega
      have hoff : off + i ≤ (f.overwrite src off i).size := by
        rcases Nat.eq_zero_or_pos i with rfl | hpos
        · rwa [overwrite_zero]
        · exact overwrite_size f src hpos
      have hstep : (f.overwrite src off i).writei (fun k => src (i + k)) (off + i)
          (min (n - i) maxChunk) = some (f.overwrite src off (i + min (n - i) maxChunk)) := by
        rw [writei_eq hoff (by omega), overwrite_append f src off i _ h]
      rw [filewriteLoop, if_pos hlt]
      simp only [hstep, Nat.add_assoc]
      exact ih _ (by omega) (by omega)
    · obtain rfl : i = n := by omega
      simp [filewriteLoop]

/-- A request that starts inside the file and ends below the size limit succeeds, whatever the
chunks it is cut into. -/
theorem filewrite_eq (h : off ≤ f.size)
    (hm : off + n ≤ maxFileBytes) : f.filewrite src off n = (true, f.overwrite src off n) := by
  have := filewriteLoop_eq f src off n h hm n 0 (by omega) (by omega)
  rwa [overwrite_zero] at this

/-- A request past the end of the file writes nothing: `writei` makes no holes. -/
theorem filewrite_past_end (h : f.size < off)
    (hn : 0 < n) : f.filewrite src off n = (false, f) := by
  obtain ⟨k, rfl⟩ : ∃ k, n = k + 1 := ⟨n - 1, by omega⟩
  rw [filewrite, filewriteLoop, if_pos hn]
  simp only [writei_past_end h]

-- A page takes 4096 rounds of fuel; later modules go by the two lemmas above.
attribute [irreducible] filewrite

end File

end Xv6
