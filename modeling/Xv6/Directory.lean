import Mathlib.Data.List.Range
import Mathlib.Data.Nat.Init
import Xv6.Lib.Run
import Xv6.Machine

/-!
# Directories as maps

`dirlookup`, `dirlink` and the clearing of an entry by `sys_unlink`, on the bytes of a directory, with the
functions of `string.c` they use.  A string is the memory from its address on.  Names count up to `DIRSIZ`
bytes: `text` is what a name buffer stands for, whether it ends in a NUL or takes up all of its bytes.

The result is that the bytes of a directory stand for a map from names to inode numbers, which `dirlookup`
reads and the other two change at one name.
-/

namespace Xv6.Directory

/-- The memory a pointer points to. -/
abbrev CStr := ℕ → Byte

def dirSiz : ℕ := 14

/-! ### Strings -/

def strncmp (p q : CStr) : ℕ → Int
  | 0 => 0
  | n + 1 =>
    if p 0 ≠ 0 ∧ p 0 = q 0 then strncmp (fun k => p (k + 1)) (fun k => q (k + 1)) n
    else (p 0).toNat - (q 0).toNat

def strncpy (t : CStr) : ℕ → List Byte
  | 0 => []
  | n + 1 => if t 0 = 0 then 0 :: List.replicate n 0 else t 0 :: strncpy (fun k => t (k + 1)) n

def namecmp (s t : CStr) : Int := strncmp s t dirSiz

/-- The string of at most `n` bytes at `p`. -/
def text (p : CStr) : ℕ → List Byte
  | 0 => []
  | n + 1 => if p 0 = 0 then [] else p 0 :: text (fun k => p (k + 1)) n

/-- The name in a buffer of `DIRSIZ` bytes. -/
def nameOf (p : CStr) : List Byte := text p dirSiz

theorem strncmp_eq_zero_iff (p q : CStr) (n : ℕ) : strncmp p q n = 0 ↔ text p n = text q n := by
  induction n generalizing p q with
  | zero => exact iff_of_true rfl rfl
  | succ n ih =>
    rw [strncmp, text, text]
    by_cases heq : p 0 = q 0
    · rw [← heq]
      by_cases hz : p 0 = 0
      · rw [if_neg fun hc => hc.1 hz, if_pos hz, if_pos hz]
        exact iff_of_true (Int.sub_self _) rfl
      · rw [if_pos ⟨hz, rfl⟩, if_neg hz, if_neg hz, ih, List.cons.injEq]
        exact ⟨fun h => ⟨rfl, h⟩, fun h => h.2⟩
    · have hne : ((p 0).toNat : Int) - (q 0).toNat ≠ 0 := fun hc =>
        heq (UInt8.toNat_inj.1 (Int.ofNat.inj (Int.sub_eq_zero.1 hc)))
      rw [if_neg fun hc => heq hc.2]
      refine iff_of_false hne fun hc => heq ?_
      split_ifs at hc with hp hq hq
      · rw [hp, hq]
      · exact (List.cons.inj hc).1

theorem text_strncpy (t : CStr) (n : ℕ) : text (fun k => (strncpy t n).getD k 0) n = text t n := by
  induction n generalizing t with
  | zero => rfl
  | succ n ih =>
    rw [text, text, strncpy]
    by_cases hz : t 0 = 0
    · rw [if_pos hz, if_pos hz]
      exact if_pos rfl
    · rw [if_neg hz, if_neg hz]
      show (if t 0 = 0 then _ else t 0 :: text (fun k => (strncpy (fun k => t (k + 1)) n).getD k 0) n) = _
      rw [if_neg hz, ih]

theorem text_congr {p q : CStr} {n : ℕ} (h : ∀ k < n, p k = q k) : text p n = text q n := by
  induction n generalizing p q with
  | zero => rfl
  | succ n ih =>
    rw [text, text, h 0 (Nat.succ_pos n), ih fun k hk => h (k + 1) (Nat.succ_lt_succ hk)]

/-! ### Entries -/

/-- An inode number that fits an entry and is not the mark of a free one. -/
abbrev Inum := { inum : ℕ // 0 < inum ∧ inum < 0x10000 }

/-- The type (whether it is `T_DIR`) and the contents of an inode. -/
structure Inode where
  isDir : Bool
  data : File

def inumAt (f : File) (off : ℕ) : ℕ := (f.byte off).toNat + 256 * (f.byte (off + 1)).toNat

def nameAt (f : File) (off : ℕ) : CStr := fun k => f.byte (off + 2 + k)

/-- The loop of `dirlookup` from `off` on: the inode number and the place of the entry. -/
def lookupLoop (f : File) (name : CStr) : ℕ → ℕ → Except Halt (Option (ℕ × ℕ))
  | 0, off => if off < f.size then .error .livelock else .ok none
  | fuel + 1, off =>
    if off < f.size then
      if f.readi off 16 ≠ some 16 then .error (.panic "dirlookup read")
      else if inumAt f off = 0 then lookupLoop f name fuel (off + 16)
      else if namecmp name (nameAt f off) = 0 then .ok (some (inumAt f off, off))
      else lookupLoop f name fuel (off + 16)
    else .ok none

/-- `dirlookup`: the inode number and what it stores in `*poff`. -/
def dirlookup (dp : Inode) (name : CStr) : Except Halt (Option (ℕ × ℕ)) :=
  if dp.isDir then lookupLoop dp.data name dp.data.size 0
  else .error (.panic "dirlookup not DIR")

/-- The loop of `dirlink` that looks for a free entry. -/
def freeLoop (f : File) : ℕ → ℕ → Except Halt ℕ
  | 0, off => if off < f.size then .error .livelock else .ok off
  | fuel + 1, off =>
    if off < f.size then
      if f.readi off 16 ≠ some 16 then .error (.panic "dirlink read")
      else if inumAt f off = 0 then .ok off
      else freeLoop f fuel (off + 16)
    else .ok off

/-- The bytes of `de` as `dirlink` fills it in. -/
def dirent (inum : ℕ) (name : CStr) : CStr
  | 0 => UInt8.ofNat inum
  | 1 => UInt8.ofNat (inum / 256)
  | k + 2 => (strncpy name dirSiz).getD k 0

def writeEntry (dp : Inode) (de : CStr) (off : ℕ) (msg : String) : Except Halt (Bool × Inode) :=
  match dp.data.writei de off 16 with
  | none => .error (.panic msg)
  | some f => .ok (true, { dp with data := f })

/-- `dirlink`: `false` for the result -1. -/
def dirlink (dp : Inode) (name : CStr) (inum : ℕ) : Except Halt (Bool × Inode) := do
  match ← dirlookup dp name with
  | some _ => return (false, dp)
  | none =>
    let off ← freeLoop dp.data dp.data.size 0
    writeEntry dp (dirent inum name) off "dirlink"

/-- What `sys_unlink` does to the directory: the entry it finds is overwritten with zeros. -/
def unlink (dp : Inode) (name : CStr) : Except Halt (Bool × Inode) := do
  match ← dirlookup dp name with
  | none => return (false, dp)
  | some (_, off) => writeEntry dp (fun _ => 0) off "unlink: writei"

/-! ### What the loops find -/

/-- The entry `i` is in use. -/
def Live (f : File) (i : ℕ) : Prop := 16 * i < f.size ∧ inumAt f (16 * i) ≠ 0

instance (f : File) (i : ℕ) : Decidable (Live f i) := inferInstanceAs (Decidable (_ ∧ _))

section
variable {f : File} {n : ℕ} (hsize : f.size = 16 * n) (hmax : f.size ≤ maxFileBytes)
include hsize hmax

theorem readi_entry {i : ℕ} (hi : i < n) : f.readi (16 * i) 16 = some 16 := by
  refine File.readi_eq (by omega) ?_
  rw [maxFileBytes] at hmax
  omega

theorem lookupLoop_eq (name : CStr) {fuel i : ℕ} (hfuel : n ≤ i + fuel) :
    lookupLoop f name fuel (16 * i) = .ok (((List.range' i (n - i)).find? fun j =>
      decide (inumAt f (16 * j) ≠ 0 ∧ nameOf (nameAt f (16 * j)) = nameOf name)).map
        fun j => (inumAt f (16 * j), 16 * j)) := by
  induction fuel generalizing i with
  | zero =>
    have hzero : n - i = 0 := by omega
    rw [lookupLoop, if_neg (by omega), hzero]
    rfl
  | succ fuel ih =>
    rw [lookupLoop]
    by_cases hi : i < n
    · have hnext : 16 * i + 16 = 16 * (i + 1) := by omega
      have hlen : n - i = (n - (i + 1)) + 1 := by omega
      have hcmp : namecmp name (nameAt f (16 * i)) = 0 ↔ nameOf (nameAt f (16 * i)) = nameOf name :=
        (strncmp_eq_zero_iff _ _ _).trans eq_comm
      rw [if_pos (by omega), readi_entry hsize hmax hi, if_neg (by simp), hnext, hlen, List.range'_succ,
        List.find?_cons]
      by_cases hfree : inumAt f (16 * i) = 0
      · rw [if_pos hfree, decide_eq_false fun hc => hc.1 hfree]
        exact ih (by omega)
      · rw [if_neg hfree]
        by_cases hname : nameOf (nameAt f (16 * i)) = nameOf name
        · rw [if_pos (hcmp.2 hname), decide_eq_true ⟨hfree, hname⟩]
          rfl
        · rw [if_neg (mt hcmp.1 hname), decide_eq_false fun hc => hname hc.2]
          exact ih (by omega)
    · have hzero : n - i = 0 := by omega
      rw [if_neg (by omega), hzero]
      rfl

theorem freeLoop_ok {fuel i : ℕ} (hi : i ≤ n) (hfuel : n ≤ i + fuel) :
    ∃ j, freeLoop f fuel (16 * i) = .ok (16 * j) ∧ j ≤ n ∧ (j < n → inumAt f (16 * j) = 0) := by
  induction fuel generalizing i with
  | zero => exact ⟨i, by rw [freeLoop, if_neg (by omega)], hi, fun hc => by omega⟩
  | succ fuel ih =>
    rw [freeLoop]
    by_cases hin : i < n
    · have hnext : 16 * i + 16 = 16 * (i + 1) := by omega
      rw [if_pos (by omega), readi_entry hsize hmax hin, if_neg (by simp), hnext]
      by_cases hfree : inumAt f (16 * i) = 0
      · exact ⟨i, by rw [if_pos hfree], hi, fun _ => hfree⟩
      · rw [if_neg hfree]
        exact ih (by omega) (by omega)
    · exact ⟨i, by rw [if_neg (by omega)], hi, fun hc => absurd hc hin⟩

end

/-! ### Writing an entry -/

section
variable {f : File} {src : CStr} {i j : ℕ}

theorem byte_overwrite (f : File) (src : CStr) (i j : ℕ) {k : ℕ} (hk : k < 16) :
    (f.overwrite src (16 * i) 16).byte (16 * j + k) = if j = i then src k else f.byte (16 * j + k) := by
  rw [File.overwrite]
  dsimp only
  by_cases hji : j = i
  · subst hji
    rw [if_pos (by omega), if_pos rfl, Nat.add_sub_cancel_left]
  · rw [if_neg (by omega), if_neg hji]

theorem inumAt_overwrite (f : File) (src : CStr) (i j : ℕ) :
    inumAt (f.overwrite src (16 * i) 16) (16 * j) =
      if j = i then (src 0).toNat + 256 * (src 1).toNat else inumAt f (16 * j) := by
  have h0 := byte_overwrite f src i j (k := 0) (by decide)
  have h1 := byte_overwrite f src i j (k := 1) (by decide)
  rw [Nat.add_zero] at h0
  rw [inumAt, h0, h1]
  split_ifs <;> rfl

theorem nameOf_overwrite (f : File) (src : CStr) (i j : ℕ) :
    nameOf (nameAt (f.overwrite src (16 * i) 16) (16 * j)) =
      if j = i then nameOf (fun k => src (k + 2)) else nameOf (nameAt f (16 * j)) := by
  have hbyte : ∀ k < dirSiz, nameAt (f.overwrite src (16 * i) 16) (16 * j) k =
      if j = i then src (k + 2) else nameAt f (16 * j) k := by
    intro k hk
    rw [dirSiz] at hk
    have := byte_overwrite f src i j (k := k + 2) (by omega)
    rw [nameAt, nameAt, Nat.add_assoc, Nat.add_comm 2 k, this]
  rw [nameOf, text_congr hbyte]
  split_ifs <;> rfl

theorem size_overwrite {n : ℕ} (hsize : f.size = 16 * n) (hi : i ≤ n) (src : CStr) :
    (f.overwrite src (16 * i) 16).size = 16 * if i = n then n + 1 else n := by
  rw [File.overwrite]
  dsimp only
  split_ifs <;> omega

end

theorem inumAt_dirent (inum : Inum) (name : CStr) :
    (dirent inum name 0).toNat + 256 * (dirent inum name 1).toNat = inum := by
  have hlt := inum.2.2
  show (UInt8.ofNat inum.val).toNat + 256 * (UInt8.ofNat (inum.val / 256)).toNat = inum.val
  rw [UInt8.toNat_ofNat', UInt8.toNat_ofNat']
  omega

/-! ### Maps -/

inductive Event where
  | link (name : CStr) (inum : Inum)
  | unlink (name : CStr)

def step (dp : Inode) : Event → Except Halt Inode
  | .link name inum => do
    let (_, dp) ← dirlink dp name inum
    return dp
  | .unlink name => do
    let (_, dp) ← unlink dp name
    return dp

/-- A directory of `k` free entries. -/
def zeros (k : ℕ) : Inode := ⟨true, ⟨16 * k, fun _ => 0⟩⟩

/-- The abstract directory: a name is added if it is not there, and removed. -/
def apply (map : List Byte → Option ℕ) : Event → List Byte → Option ℕ
  | .link name inum =>
    if map (nameOf name) = none then Function.update map (nameOf name) (some inum.val) else map
  | .unlink name => Function.update map (nameOf name) none

/-- For each name the latest `dirlink` that was not undone. -/
def latest (log : List Event) : List Byte → Option ℕ := log.foldl apply fun _ => none

/-- The bytes stand for the map. -/
structure Holds (dp : Inode) (map : List Byte → Option ℕ) : Prop where
  isDir : dp.isDir = true
  size : ∃ n, dp.data.size = 16 * n
  max : dp.data.size ≤ maxFileBytes
  once : ∀ i j, Live dp.data i → Live dp.data j →
    nameOf (nameAt dp.data (16 * i)) = nameOf (nameAt dp.data (16 * j)) → i = j
  get : ∀ name x, map name = some x ↔
    ∃ i, Live dp.data i ∧ nameOf (nameAt dp.data (16 * i)) = name ∧ inumAt dp.data (16 * i) = x

section
variable {dp dp' : Inode} {map : List Byte → Option ℕ} {name : CStr}

section

variable (h : Holds dp map)

include h

theorem Holds.dirlookup (name : CStr) :
    (∃ i x, Directory.dirlookup dp name = .ok (some (x, 16 * i)) ∧ Live dp.data i ∧
      nameOf (nameAt dp.data (16 * i)) = nameOf name ∧ inumAt dp.data (16 * i) = x ∧
        map (nameOf name) = some x) ∨
      Directory.dirlookup dp name = .ok none ∧ map (nameOf name) = none := by
  obtain ⟨n, hn⟩ := h.size
  have hfuel : n ≤ 0 + dp.data.size := by omega
  have hloop := lookupLoop_eq hn h.max name hfuel
  rw [Directory.dirlookup, if_pos h.isDir]
  rw [Nat.mul_zero] at hloop
  rw [hloop]
  cases hfind : (List.range' 0 (n - 0)).find? fun j =>
      decide (inumAt dp.data (16 * j) ≠ 0 ∧ nameOf (nameAt dp.data (16 * j)) = nameOf name) with
  | none =>
    refine .inr ⟨rfl, Option.eq_none_iff_forall_ne_some.2 fun x hx => ?_⟩
    obtain ⟨i, ⟨hlt, hlive⟩, hname, -⟩ := (h.get _ x).1 hx
    have hmem : i ∈ List.range' 0 (n - 0) := by
      rw [List.mem_range'_1]
      omega
    exact List.find?_eq_none.1 hfind i hmem (decide_eq_true ⟨hlive, hname⟩)
  | some i =>
    have hmem := List.mem_of_find?_eq_some hfind
    have hfound := List.find?_some hfind
    obtain ⟨hlive, hname⟩ := of_decide_eq_true hfound
    rw [List.mem_range'_1] at hmem
    have hlive' : Live dp.data i := ⟨by omega, hlive⟩
    exact .inl ⟨i, _, rfl, hlive', hname, rfl, (h.get _ _).2 ⟨i, hlive', hname, rfl⟩⟩

theorem Holds.write {i : ℕ} {src : CStr} {f : File} (hi : 16 * i ≤ dp.data.size)
    (hwrite : dp.data.writei src (16 * i) 16 = some f) :
    (∃ n, f.size = 16 * n) ∧ f.size ≤ maxFileBytes ∧
      ∀ j, Live f j ↔ if j = i then (src 0).toNat + 256 * (src 1).toNat ≠ 0 else Live dp.data j := by
  obtain ⟨n, hn⟩ := h.size
  have hmax := h.max
  have hle : 16 * i + 16 ≤ maxFileBytes := by
    rw [File.writei] at hwrite
    split_ifs at hwrite
    omega
  obtain rfl := File.writei_some hwrite
  have hsize := size_overwrite hn (i := i) (by omega) src
  refine ⟨⟨_, hsize⟩, ?_, fun j => ?_⟩
  · rw [hsize]
    split_ifs <;> omega
  · rw [Live, inumAt_overwrite, hsize]
    by_cases hji : j = i
    · rw [if_pos hji, if_pos hji]
      refine and_iff_right ?_
      split_ifs <;> omega
    · rw [if_neg hji, if_neg hji, Live, hn]
      refine and_congr_left fun _ => ?_
      split_ifs <;> omega

theorem Holds.link {i : ℕ} {f : File} {inum : Inum} (hi : 16 * i ≤ dp.data.size)
    (hfree : ¬Live dp.data i) (hnone : map (nameOf name) = none)
    (hwrite : dp.data.writei (dirent inum name) (16 * i) 16 = some f) :
    Holds { dp with data := f } (Function.update map (nameOf name) (some inum.val)) := by
  obtain ⟨hsize, hmax, hlive⟩ := h.write hi hwrite
  obtain rfl := File.writei_some hwrite
  have hinum : (dirent inum name 0).toNat + 256 * (dirent inum name 1).toNat = inum := inumAt_dirent inum name
  have hname : nameOf (fun k => dirent inum name (k + 2)) = nameOf name := text_strncpy name dirSiz
  have hne : (inum : ℕ) ≠ 0 := Nat.pos_iff_ne_zero.1 inum.2.1
  have hothers : ∀ j, Live dp.data j → nameOf (nameAt dp.data (16 * j)) ≠ nameOf name := fun j hj hc => by
    cases hnone.symm.trans ((h.get _ _).2 ⟨j, hj, hc, rfl⟩)
  refine ⟨h.isDir, hsize, hmax, fun j k hj hk heq => ?_, fun nm x => ?_⟩
  · dsimp only at hj hk heq
    rw [hlive] at hj hk
    rw [nameOf_overwrite, nameOf_overwrite, hname] at heq
    by_cases hji : j = i <;> by_cases hki : k = i
    · rw [hji, hki]
    · rw [if_pos hji, if_neg hki] at heq
      rw [if_neg hki] at hk
      exact absurd heq.symm (hothers k hk)
    · rw [if_neg hji, if_pos hki] at heq
      rw [if_neg hji] at hj
      exact absurd heq (hothers j hj)
    · rw [if_neg hji, if_neg hki] at heq
      rw [if_neg hji] at hj
      rw [if_neg hki] at hk
      exact h.once j k hj hk heq
  · dsimp only
    by_cases hnm : nm = nameOf name
    · subst hnm
      rw [Function.update_self]
      constructor
      · rintro hx
        obtain rfl := Option.some.inj hx
        refine ⟨i, ?_, ?_, ?_⟩
        · rw [hlive, if_pos rfl, hinum]
          exact hne
        · rw [nameOf_overwrite, if_pos rfl, hname]
        · rw [inumAt_overwrite, if_pos rfl, hinum]
      · rintro ⟨j, hj, hjname, hjinum⟩
        rw [hlive] at hj
        rw [nameOf_overwrite] at hjname
        rw [inumAt_overwrite] at hjinum
        by_cases hji : j = i
        · rw [if_pos hji, hinum] at hjinum
          rw [hjinum]
        · rw [if_neg hji] at hj hjname
          exact absurd hjname (hothers j hj)
    · rw [Function.update_of_ne hnm, h.get]
      refine exists_congr fun j => ?_
      rw [hlive, nameOf_overwrite, inumAt_overwrite]
      by_cases hji : j = i
      · rw [if_pos hji, if_pos hji, if_pos hji, hname]
        exact iff_of_false (fun hc => hfree (hji ▸ hc.1)) fun hc => hnm hc.2.1.symm
      · rw [if_neg hji, if_neg hji, if_neg hji]

theorem Holds.clear {i : ℕ} {f : File} (hi : 16 * i ≤ dp.data.size)
    (hlive : Live dp.data i) (hwrite : dp.data.writei (fun _ => 0) (16 * i) 16 = some f) :
    Holds { dp with data := f } (Function.update map (nameOf (nameAt dp.data (16 * i))) none) := by
  obtain ⟨hsize, hmax, hlive'⟩ := h.write hi hwrite
  obtain rfl := File.writei_some hwrite
  have hstays : ∀ j, Live (dp.data.overwrite (fun _ => 0) (16 * i) 16) j → j ≠ i ∧ Live dp.data j := by
    intro j hj
    rw [hlive'] at hj
    split_ifs at hj with hji
    · exact absurd rfl hj
    · exact ⟨hji, hj⟩
  refine ⟨h.isDir, hsize, hmax, fun j k hj hk heq => ?_, fun nm x => ?_⟩
  · obtain ⟨hji, hj⟩ := hstays j hj
    obtain ⟨hki, hk⟩ := hstays k hk
    dsimp only at heq
    rw [nameOf_overwrite, nameOf_overwrite, if_neg hji, if_neg hki] at heq
    exact h.once j k hj hk heq
  · dsimp only
    constructor
    · intro hx
      have hnm : nm ≠ nameOf (nameAt dp.data (16 * i)) := by
        rintro rfl
        rw [Function.update_self] at hx
        cases hx
      rw [Function.update_of_ne hnm, h.get] at hx
      obtain ⟨j, hj, hname, hinum⟩ := hx
      have hji : j ≠ i := by
        rintro rfl
        exact hnm hname.symm
      refine ⟨j, ?_, ?_, ?_⟩
      · rwa [hlive', if_neg hji]
      · rwa [nameOf_overwrite, if_neg hji]
      · rwa [inumAt_overwrite, if_neg hji]
    · rintro ⟨j, hj, hname, hinum⟩
      obtain ⟨hji, hj⟩ := hstays j hj
      rw [nameOf_overwrite, if_neg hji] at hname
      rw [inumAt_overwrite, if_neg hji] at hinum
      have hnm : nm ≠ nameOf (nameAt dp.data (16 * i)) := by
        rintro rfl
        exact hji (h.once j i hj hlive hname)
      rw [Function.update_of_ne hnm, h.get]
      exact ⟨j, hj, hname, hinum⟩

/-- `dirlink` refuses a name that is there, and otherwise adds it unless the directory is full. -/
theorem Holds.dirlink (name : CStr) (inum : Inum) :
    (map (nameOf name) ≠ none ∧ Directory.dirlink dp name inum = .ok (false, dp)) ∨
    (map (nameOf name) = none ∧ ∃ dp', Directory.dirlink dp name inum = .ok (true, dp') ∧
      Holds dp' (Function.update map (nameOf name) (some inum.val))) ∨
    (map (nameOf name) = none ∧ Directory.dirlink dp name inum = .error (.panic "dirlink") ∧
      maxFileBytes < dp.data.size + 16) := by
  obtain ⟨i, x, hlook, -, -, -, hmap⟩ | ⟨hlook, hmap⟩ := h.dirlookup name
  · refine .inl ⟨by rw [hmap]; exact Option.some_ne_none x, ?_⟩
    rw [Directory.dirlink, hlook]
    rfl
  · right
    obtain ⟨n, hn⟩ := h.size
    have hfuel : n ≤ 0 + dp.data.size := by omega
    obtain ⟨i, hloop, hi, hfree⟩ := freeLoop_ok hn h.max (Nat.zero_le n) hfuel
    rw [Nat.mul_zero] at hloop
    have hnot : ¬Live dp.data i := fun hc => hc.2 (hfree (by have := hc.1; omega))
    have hrun : Directory.dirlink dp name inum = writeEntry dp (dirent inum name) (16 * i) "dirlink" := by
      rw [Directory.dirlink, hlook]
      show (freeLoop dp.data dp.data.size 0 >>= fun off => writeEntry dp (dirent inum name) off "dirlink") = _
      rw [hloop]
      rfl
    rw [hrun, writeEntry]
    cases hwrite : dp.data.writei (dirent inum name) (16 * i) 16 with
    | none =>
      refine .inr ⟨hmap, rfl, ?_⟩
      by_contra hc
      rw [File.writei_eq (by omega) (by omega)] at hwrite
      cases hwrite
    | some f => exact .inl ⟨hmap, _, rfl, h.link (by omega) hnot hmap hwrite⟩

theorem Holds.unlink (name : CStr) :
    ∃ r dp', Directory.unlink dp name = .ok (r, dp') ∧ Holds dp' (Function.update map (nameOf name) none) := by
  obtain ⟨i, x, hlook, hlive, hname, -, hmap⟩ | ⟨hlook, hmap⟩ := h.dirlookup name
  · obtain ⟨n, hn⟩ := h.size
    have hlt := hlive.1
    have hmax := h.max
    have hwrite : dp.data.writei (fun _ => 0) (16 * i) 16 = some (dp.data.overwrite (fun _ => 0) (16 * i) 16) :=
      File.writei_eq (by omega) (by omega)
    refine ⟨true, _, ?_, hname ▸ h.clear (by omega) hlive hwrite⟩
    rw [Directory.unlink, hlook]
    show writeEntry dp (fun _ => 0) (16 * i) "unlink: writei" = _
    rw [writeEntry, hwrite]
  · refine ⟨false, dp, ?_, ?_⟩
    · rw [Directory.unlink, hlook]
      rfl
    · rw [← hmap, Function.update_eq_self]
      exact h

theorem Holds.step {e : Event} (hstep : step dp e = .ok dp') : Holds dp' (apply map e) := by
  cases e with
  | link name inum =>
    obtain ⟨⟨r, dp₁⟩, hrun, hstep⟩ := Run.bind_ok hstep
    cases hstep
    obtain ⟨hmap, hlink⟩ | ⟨hmap, dp₂, hlink, hnew⟩ | ⟨-, hlink, -⟩ := h.dirlink name inum
    · cases hlink.symm.trans hrun
      rw [apply, if_neg hmap]
      exact h
    · cases hlink.symm.trans hrun
      rw [apply, if_pos hmap]
      exact hnew
    · cases hlink.symm.trans hrun
  | unlink name =>
    obtain ⟨⟨r, dp₁⟩, hrun, hstep⟩ := Run.bind_ok hstep
    cases hstep
    obtain ⟨r', dp₂, hunlink, hnew⟩ := h.unlink name
    cases hunlink.symm.trans hrun
    exact hnew

end

theorem holds_zeros {k : ℕ} (hk : 16 * k ≤ maxFileBytes) : Holds (zeros k) fun _ => none := by
  have hnot : ∀ i, ¬Live (zeros k).data i := fun i hc => hc.2 rfl
  exact ⟨rfl, ⟨k, rfl⟩, hk, fun i _ hi => absurd hi (hnot i), fun _ _ =>
    iff_of_false (fun hc => by cases hc) fun ⟨i, hi, _⟩ => hnot i hi⟩

end

end Xv6.Directory
