import Mathlib.Data.List.GetD
import Xv6.Lib.Memory
import Xv6.Paths

/-!
# The names of swap files

`itoa` and the path that `createSwapFile` and `removeSwapFile` build from a pid, in the memory around the array
`path`.  The digits are those of the pid, with a NUL behind them, but the array has room for seven only.
-/

namespace Xv6.SwapName

open Memory (splice At)

open Directory (text nameOf namecmp components slash rootIno nameiparent)

def digits : ℕ := 14

/-- `"0123456789"`. -/
def digit : List Byte := [48, 49, 50, 51, 52, 53, 54, 55, 56, 57]

/-- The first loop of `itoa`, which moves `p` to the end of the representation. -/
def itoaEnd (shifter p : ℕ) : ℕ := if shifter / 10 = 0 then p + 1 else itoaEnd (shifter / 10) (p + 1)
termination_by shifter

/-- The second loop, which moves back and inserts the digits. -/
def itoaDigits (i p : ℕ) (mem : ℕ → Byte) : ℕ → Byte :=
  let mem := Function.update mem (p - 1) (digit.getD (i % 10) 0)
  if i / 10 = 0 then mem else itoaDigits (i / 10) (p - 1) mem
termination_by i

def itoa (i : Int) (b : ℕ) (mem : ℕ → Byte) : ℕ → Byte :=
  -- `'-'` for a negative number
  let mem' := if i < 0 then Function.update mem b 45 else mem
  let p := if i < 0 then b + 1 else b
  itoaDigits i.natAbs (itoaEnd i.natAbs p) (Function.update mem' (itoaEnd i.natAbs p) 0)

/-- `"/.swap"`. -/
def swapDir : List Byte := [47, 46, 115, 119, 97, 112]

/-- The memory after `memmove(path, "/.swap", 6); itoa(pid, path + 6)`. -/
def swapPath (pid : Int) (path : ℕ) (mem : ℕ → Byte) : ℕ → Byte :=
  itoa pid (path + 6) (splice mem path 6 fun k => swapDir.getD k 0)

def decimal (n : ℕ) : List Byte := (Nat.toDigits 10 n).map Char.toUInt8

/-- The array holds the path of the pid with the NUL behind it, and nothing else was written. -/
structure Rendered (pid path : ℕ) (mem mem' : ℕ → Byte) : Prop where
  text : At mem' path (swapDir ++ decimal pid ++ [0])
  fits : (swapDir ++ decimal pid ++ [0]).length ≤ digits
  frame : ∀ x, x < path ∨ path + digits ≤ x → mem' x = mem x

/-- `nameiparent` of the two strings ends in the root directory, whatever is there, with names that no entry
has both. -/
def Distinct (s t : List Byte) : Prop :=
  ∀ node cwd name, (node rootIno).isDir = true →
    ∃ name₁ name₂, nameiparent node cwd s name = .ok (some rootIno, name₁) ∧
      nameiparent node cwd t name = .ok (some rootIno, name₂) ∧
      ∀ entry, ¬(namecmp name₁ entry = 0 ∧ namecmp name₂ entry = 0)

/-! ### `itoa` -/

theorem decimal_eq (n : ℕ) :
    decimal n = (if n / 10 = 0 then [] else decimal (n / 10)) ++ [digit.getD (n % 10) 0] := by
  have hdigit : ∀ d < 10, (Nat.digitChar d).toUInt8 = digit.getD d 0 := by decide
  rw [decimal, Nat.toDigits_eq_if (by decide)]
  by_cases hn : n < 10
  · rw [if_pos hn, if_pos (Nat.div_eq_of_lt hn), Nat.mod_eq_of_lt hn, List.map_singleton, hdigit n hn]
    rfl
  · rw [if_neg hn, if_neg (by omega), List.map_append, List.map_singleton, hdigit _ (Nat.mod_lt n (by decide))]
    rfl

theorem itoaEnd_eq (n p : ℕ) : itoaEnd n p = p + (decimal n).length := by
  induction n, p using itoaEnd.induct with
  | case1 n p h => rw [itoaEnd, if_pos h, decimal_eq, if_pos h]; rfl
  | case2 n p h ih =>
    rw [itoaEnd, if_neg h, ih, decimal_eq n, if_neg h, List.length_append, List.length_singleton]
    omega

theorem itoaDigits_eq {n p b : ℕ} (mem : ℕ → Byte) (hp : p = b + (decimal n).length) :
    itoaDigits n p mem = splice mem b (decimal n).length fun k => (decimal n).getD k 0 := by
  induction n, p, mem using itoaDigits.induct with
  | case1 n p mem hn =>
    rw [itoaDigits, if_pos hn]
    rw [decimal_eq, if_pos hn] at hp ⊢
    subst hp
    funext x
    by_cases hx : x = b
    · rw [hx, Memory.splice_inside (by simp), Nat.sub_self]
      exact Function.update_self ..
    · rw [Memory.splice_outside (by simp; omega)]
      exact Function.update_of_ne hx ..
  | case2 n p mem _ hn ih =>
    rw [itoaDigits, if_neg hn]
    rw [decimal_eq n, if_neg hn, List.length_append, List.length_singleton] at hp ⊢
    rw [ih (by omega)]
    funext x
    by_cases hx : b ≤ x ∧ x < b + (decimal (n / 10)).length
    · rw [Memory.splice_inside hx, Memory.splice_inside (by omega), List.getD_append _ _ _ _ (by omega)]
    · rw [Memory.splice_outside hx]
      by_cases hlast : x = p - 1
      · rw [hlast, Memory.splice_inside (by omega),
          show p - 1 - b = (decimal (n / 10)).length by omega, List.getD_append_right _ _ _ _ le_rfl, Nat.sub_self]
        exact Function.update_self ..
      · rw [Memory.splice_outside (by omega)]
        exact Function.update_of_ne hlast ..

theorem itoa_spec (n b : ℕ) (mem : ℕ → Byte) : At (itoa n b mem) b (decimal n ++ [0]) ∧
    ∀ x, ¬(b ≤ x ∧ x < b + (decimal n).length + 1) → itoa n b mem x = mem x := by
  have hneg : ¬(n : Int) < 0 := by omega
  rw [itoa, if_neg hneg, if_neg hneg, Int.natAbs_natCast, itoaEnd_eq, itoaDigits_eq _ rfl]
  refine ⟨Memory.at_append.2 ⟨At.of_splice _ _ _ _, Memory.at_cons.2 ⟨?_, Memory.at_nil _ _⟩⟩, fun x hx => ?_⟩
  · rw [Memory.splice_outside (by omega), Function.update_self]
  · rw [Memory.splice_outside (by omega), Function.update_of_ne (by omega)]

theorem swapPath_spec (pid path : ℕ) (mem : ℕ → Byte) :
    At (swapPath pid path mem) path (swapDir ++ decimal pid ++ [0]) ∧
      ∀ x, ¬(path ≤ x ∧ x < path + (decimal pid).length + 7) → swapPath pid path mem x = mem x := by
  obtain ⟨htext, hframe⟩ := itoa_spec pid (path + 6) (splice mem path 6 fun k => swapDir.getD k 0)
  rw [List.append_assoc]
  refine ⟨Memory.at_append.2 ⟨?_, htext⟩, fun x hx => ?_⟩
  · refine (At.of_splice mem path swapDir 0).congr fun x _ hx => hframe x ?_
    change x < path + 6 at hx
    omega
  · rw [swapPath, hframe x (by omega), Memory.splice_outside (by omega)]

theorem length_swapDir_append (pid : ℕ) : (swapDir ++ decimal pid ++ [0]).length = (decimal pid).length + 7 := by
  simp [swapDir]

theorem length_decimal_le_iff (pid : ℕ) : (decimal pid).length ≤ 7 ↔ pid < 10000000 := by
  rw [decimal, List.length_map]
  exact Nat.length_toDigits_le_iff (by decide) (by decide)

theorem rendered_iff (pid path : ℕ) (mem : ℕ → Byte) :
    Rendered pid path mem (swapPath pid path mem) ↔ pid < 10000000 := by
  rw [← length_decimal_le_iff]
  refine ⟨fun h => ?_, fun h => ⟨(swapPath_spec pid path mem).1, ?_, fun x hx => ?_⟩⟩
  · have hfits := h.fits
    rw [length_swapDir_append, digits] at hfits
    omega
  · rw [length_swapDir_append, digits]
    omega
  · rw [digits] at hx
    exact (swapPath_spec pid path mem).2 x (by omega)

/-! ### The names -/

/-- The number that a string of digits stands for. -/
def value (l : List Byte) : ℕ := l.foldl (fun v b => 10 * v + (b.toNat - 48)) 0

theorem value_decimal (n : ℕ) : value (decimal n) = n := by
  induction n using Nat.strongRecOn with
  | ind n ih =>
    have hdigit : ∀ d < 10, (digit.getD d 0).toNat - 48 = d := by decide
    have hlast := hdigit _ (Nat.mod_lt n (by decide))
    rw [decimal_eq, value, List.foldl_append]
    by_cases hn : n / 10 = 0
    · rw [if_pos hn]
      change 10 * 0 + ((digit.getD (n % 10) 0).toNat - 48) = n
      omega
    · rw [if_neg hn]
      change 10 * value (decimal (n / 10)) + ((digit.getD (n % 10) 0).toNat - 48) = n
      rw [ih (n / 10) (by omega)]
      omega

theorem mem_decimal {n : ℕ} {b : Byte} (h : b ∈ decimal n) : b ≠ 0 ∧ b ≠ slash := by
  induction n using Nat.strongRecOn with
  | ind n ih =>
    have hdigit : ∀ d < 10, digit.getD d 0 ≠ 0 ∧ digit.getD d 0 ≠ slash := by decide
    rw [decimal_eq, List.mem_append, List.mem_singleton] at h
    rcases h with h | rfl
    · by_cases hn : n / 10 = 0
      · rw [if_pos hn] at h
        cases h
      · rw [if_neg hn] at h
        exact ih (n / 10) (by omega) h
    · exact hdigit _ (Nat.mod_lt n (by decide))

theorem nameiparent_single {l : List Byte} (hne : l ≠ []) (hl : ∀ b ∈ l, b ≠ 0 ∧ b ≠ slash)
    {node : ℕ → Directory.Inode} (hroot : (node rootIno).isDir = true) (cwd : ℕ) (name : Directory.CStr) :
    ∃ name', nameiparent node cwd (slash :: l) name = .ok (some rootIno, name') ∧
      nameOf name' = l.take Directory.dirSiz := by
  have hz : ∀ b ∈ slash :: l, b ≠ 0 := List.forall_mem_cons.2 ⟨by decide, fun b hb => (hl b hb).1⟩
  have hcomp : components (slash :: l) = [l.take Directory.dirSiz] := by
    have happend := @Directory.components_append l [] hne (fun b hb => by simpa using (hl b hb).2) (.inl rfl)
    rw [List.append_nil] at happend
    rw [Directory.components_slash, happend]
    rfl
  obtain ⟨-, hnil⟩ | ⟨rest, name', hsome, hcons, -, -, hend⟩ := Directory.skipelem_spec hz name
  · rw [hcomp] at hnil
    cases hnil
  · rw [hcomp] at hcons
    obtain ⟨hname, hrest⟩ := List.cons.inj hcons
    refine ⟨name', ?_, hname.symm⟩
    rw [nameiparent, Directory.namex, Directory.namexLoop, hsome]
    simp [Directory.start, hroot, hend.2 hrest.symm]

def swapName (pid : ℕ) : List Byte := swapDir.tail ++ decimal pid

theorem mem_swapName {pid : ℕ} {b : Byte} (h : b ∈ swapName pid) : b ≠ 0 ∧ b ≠ slash := by
  have hdir : ∀ b ∈ swapDir.tail, b ≠ 0 ∧ b ≠ slash := by decide +kernel
  exact (List.mem_append.1 h).elim (hdir b) mem_decimal

theorem text_swapPath {pid : ℕ} (h : pid < 10000000) (path : ℕ) (mem : ℕ → Byte) :
    text (fun k => swapPath pid path mem (path + k)) digits = slash :: swapName pid := by
  obtain ⟨htext, hnul⟩ := Memory.at_append.1 (swapPath_spec pid path mem).1
  have hlen : (slash :: swapName pid).length = (decimal pid).length + 6 := by simp [swapName, swapDir]
  have hdigits := (length_decimal_le_iff pid).2 h
  refine Directory.text_of_list (List.forall_mem_cons.2 ⟨by decide, fun b hb => (mem_swapName hb).1⟩) ?_ ?_ ?_
  · rw [hlen, digits]
    omega
  · intro k hk
    rw [htext k hk]
    exact (List.getD_eq_getElem _ _ hk).symm
  · intro _
    exact hnul 0 Nat.one_pos

theorem distinct_swapName {p q : ℕ} (hp : p < 10000000) (hq : q < 10000000) (hne : p ≠ q) :
    Distinct (slash :: swapName p) (slash :: swapName q) := by
  -- the digits fit in a directory entry, so that none is cut off
  have htake : ∀ pid < 10000000, (swapName pid).take Directory.dirSiz = swapName pid := by
    intro pid hpid
    refine List.take_of_length_le ?_
    have hdigits := (length_decimal_le_iff pid).2 hpid
    rw [swapName, List.length_append]
    change 5 + (decimal pid).length ≤ 14
    omega
  have hnil : ∀ pid, swapName pid ≠ [] := fun _ => List.cons_ne_nil _ _
  intro node cwd name hroot
  obtain ⟨name₁, hfirst, hname₁⟩ := nameiparent_single (hnil p) (fun _ => mem_swapName) hroot cwd name
  obtain ⟨name₂, hsecond, hname₂⟩ := nameiparent_single (hnil q) (fun _ => mem_swapName) hroot cwd name
  refine ⟨name₁, name₂, hfirst, hsecond, ?_⟩
  rintro entry ⟨h₁, h₂⟩
  have hsame : nameOf name₁ = nameOf name₂ :=
    ((Directory.strncmp_eq_zero_iff ..).1 h₁).trans ((Directory.strncmp_eq_zero_iff ..).1 h₂).symm
  rw [hname₁, hname₂, htake p hp, htake q hq] at hsame
  have hvalue := congrArg value (List.append_cancel_left hsame)
  rw [value_decimal, value_decimal] at hvalue
  exact hne hvalue

/-- The paths of two pids stand in their arrays and name different entries iff the pids have at most seven
digits. -/
theorem swapPaths_distinct_iff {p q : ℕ} (hne : p ≠ q) (path : ℕ) (mem : ℕ → Byte) :
    (Rendered p path mem (swapPath p path mem) ∧ Rendered q path mem (swapPath q path mem) ∧
      Distinct (text (fun k => swapPath p path mem (path + k)) digits)
        (text (fun k => swapPath q path mem (path + k)) digits)) ↔ p < 10000000 ∧ q < 10000000 := by
  rw [rendered_iff, rendered_iff]
  refine ⟨fun h => ⟨h.1, h.2.1⟩, fun h => ⟨h.1, h.2, ?_⟩⟩
  rw [text_swapPath h.1, text_swapPath h.2]
  exact distinct_swapName h.1 h.2 hne

theorem swapPaths_distinct_first : (3 : ℕ) ≠ 4 ∧ Distinct (text (fun k => swapPath 3 0 (fun _ => 0) (0 + k)) digits)
    (text (fun k => swapPath 4 0 (fun _ => 0) (0 + k)) digits) := by
  have hne : (3 : ℕ) ≠ 4 := by decide
  exact ⟨hne, ((swapPaths_distinct_iff hne 0 fun _ => 0).2 (by decide)).2.2⟩

/-- The NUL of pid 10000000 is written behind the array, and pids 1000000000 and 1000000001 have one entry,
because their names are cut off after `DIRSIZ` bytes. -/
theorem swapPath_overflows : swapPath 10000000 0 (fun _ => 1) digits = 0 ∧
    components (slash :: swapName 1000000000) = components (slash :: swapName 1000000001) := by
  constructor
  · have hlen : (swapDir ++ decimal 10000000).length = 14 := by decide +kernel
    have hnul := (Memory.at_append.1 (swapPath_spec 10000000 0 fun _ => 1).1).2 0 Nat.one_pos
    rw [hlen] at hnul
    exact hnul
  · decide +kernel

end Xv6.SwapName
