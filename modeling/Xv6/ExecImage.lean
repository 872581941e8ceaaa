import Mathlib.Algebra.Order.BigOperators.Group.List
import Xv6.Lib.Memory
import Xv6.ExecFailure

/-!
# The image and the stack `exec` builds

`Accepts` says which files `exec` takes as programs, with the segments it loads, and `segByte` what the
program is at each address: the last segment that has the address in the file, or 0.  The stack page
gets the argument strings from the top down and the words of `ustack` below them.

`Laid` follows the construction with the contents of the pages as one memory.  When the arguments do
not fit, `copyout` comes to the guard page, or, after the stack pointer wrapped, to the device memory:
neither is for the user.
-/

namespace Xv6

open Machine

open Accounting (Books Balanced Account)

open Memory (splice At)

/-! ### Programs -/

/-- The program headers, if all of them are in the file. -/
def File.headers (ip : File) : ℕ → ℕ → Option (List ProgHdr)
  | 0, _ => some []
  | count + 1, off =>
    if ip.readi off 32 = some 32 then
      (ip.headers count ((off + 32) % 0x100000000)).map (ip.progHdr off :: ·)
    else none

/-- What `exec` asks of a segment. -/
structure ProgHdr.Ok (ip : File) (ph : ProgHdr) : Prop where
  filesz : ph.filesz ≤ ph.memsz
  low : ph.vaddr + ph.memsz < kernBase
  aligned : ph.vaddr % 4096 = 0
  inFile : 0 < ph.filesz → ph.off + ph.filesz ≤ ip.size ∧ ph.off + ph.filesz < 0x100000000

/-- The end of an image of `sz` bytes with the segments `l` added. -/
def segEndFrom (l : List ProgHdr) (sz : ℕ) : ℕ := l.foldl (fun sz ph => max sz (ph.vaddr + ph.memsz)) sz

def segEnd (l : List ProgHdr) : ℕ := segEndFrom l 0

/-- `exec` takes the file as a program with the segments `l`.  A first segment that ends at 0 makes
`allocuvm` return 0. -/
structure Accepts (ip : File) (l : List ProgHdr) : Prop where
  elf : ip.isElf = true
  headers : (ip.headers (ip.u16 44) (ip.u32 28)).map (List.filter fun ph => ph.type = 1) = some l
  segments : ∀ ph ∈ l, ph.Ok ip
  first : ∀ ph, l.head? = some ph → 0 < ph.vaddr + ph.memsz

/-- The bytes of a segment that come from the file. -/
def ProgHdr.Covers (ph : ProgHdr) (a : ℕ) : Prop := ph.vaddr ≤ a ∧ a < ph.vaddr + ph.filesz

instance (ph : ProgHdr) (a : ℕ) : Decidable (ph.Covers a) :=
  inferInstanceAs (Decidable (ph.vaddr ≤ a ∧ a < ph.vaddr + ph.filesz))

/-- The byte of the program at `a`; later segments win. -/
def segByte (ip : File) (l : List ProgHdr) (a : ℕ) : Byte :=
  ((l.reverse.find? fun ph => ph.Covers a).map fun ph => ip.byte (ph.off + (a - ph.vaddr))).getD 0

/-- The arguments fit on the stack page: each string takes whole words, and `ustack` has four words
besides the addresses. -/
def ArgsFit (argv : List (List Byte)) : Prop :=
  argv.length ≤ 32 ∧
    (argv.map fun arg => (arg.length + 4) / 4 * 4).sum + 4 * (4 + argv.length) ≤ 4096

instance (argv : List (List Byte)) : Decidable (ArgsFit argv) :=
  inferInstanceAs (Decidable (_ ∧ _))

/-- The byte of the process's memory at `a`. -/
def Machine.userByte (m : Machine) (a : ℕ) : Byte := m.data (frameOf (m.pte (a / 4096))) (pageOff a)

/-- A stack page with the arguments, for a stack pointer `esp` and an image of `sz` bytes: `ustack` at
`esp`, and the strings above it. -/
structure Stacked (argv : List (List Byte)) (mem : ℕ → Byte) (sz esp : ℕ) : Prop where
  inside : sz - 4096 ≤ esp ∧ esp + 4 * (4 + argv.length) ≤ sz
  args : ∃ addrs : List ℕ, addrs.length = argv.length ∧
    At mem esp (([0xFFFFFFFF, argv.length, esp + 12] ++ addrs ++ [0]).flatMap wordBytes) ∧
    (∀ (i : ℕ) (arg : List Byte) (a : ℕ), argv[i]? = some arg → addrs[i]? = some a →
      At mem a (arg ++ [0]) ∧ esp + 4 * (4 + argv.length) ≤ a ∧ a + arg.length + 1 ≤ sz) ∧
    ∀ (i j : ℕ) (arg : List Byte) (a a' : ℕ), i < j → argv[j]? = some arg → addrs[i]? = some a →
      addrs[j]? = some a' → a' + arg.length + 1 ≤ a

/-- The image and the stack of a process after `exec`. -/
structure Promised (ip : File) (l : List ProgHdr) (argv : List (List Byte)) (c : Caller) (m : Machine) :
    Prop where
  sz : m.proc.sz = 4096 * (pagesOf (segEnd l) + 2)
  present : ∀ v, 4096 * v < m.proc.sz → m.Present v
  program : ∀ a < m.proc.sz - 8192, m.userByte a = segByte ip l a
  guard : flagOn (m.pte ((m.proc.sz - 8192) / 4096)) pteU = false
  stack : flagOn (m.pte ((m.proc.sz - 4096) / 4096)) pteU = true
  args : Stacked argv m.userByte m.proc.sz c.esp

/-! ### The image as a memory -/

def pageOf (img : ℕ → Byte) (v : ℕ) : Page := fun x => img (4096 * v + x.val)

/-- The first `k` pages of the new directory hold `img`. -/
structure Laid (sel : Selection) (b : Books) (d k : ℕ) (img : ℕ → Byte) (m₀ m : Machine) : Prop where
  building : Building sel b d k ∅ m₀ m
  tabled : Tabled d m
  devices : ∀ v, 0xFE000 ≤ v → v < 0x100000 → HasTable m.dirs d v
  bytes : ∀ v < k, m.data (frameOf (entry m.dirs d v)) = pageOf img v
  spare : m₀.freelist.length ≤ m.freelist.length + 65 + k + min k 1

section

variable {sel : Selection} {b : Books} {d k v f : ℕ} {img : ℕ → Byte} {m₀ m m' : Machine}
  {oldsz newsz offset sz N : ℕ} {ip : File} {argv : List (List Byte)} {s : Supply}

theorem Laid.whole (h : Laid sel b d k img m₀ m) : Whole sel d k m₀ m := h.building.whole rfl

theorem Laid.frame_ne (h : Laid sel b d k img m₀ m) (hk : k ≤ userPages) {w : ℕ} (hv : v < k)
    (hw : w < k) (hne : w ≠ v) : frameOf (entry m.dirs d w) ≠ frameOf (entry m.dirs d v) := by
  intro hc
  have hownv := h.whole.frames.owned d v (by omega) (h.whole.pages v hv)
  have hownw := h.whole.frames.owned d w (by omega) (h.whole.pages w hw)
  rw [hc, hownv] at hownw
  exact hne (Prod.mk.inj (Option.some.inj hownw)).2.symm

theorem Laid.round {i : ℕ} (h₀ : Callable b m₀) (hd : d ∉ b.live) (hmem : d ∈ m₀.freelist)
    (h : Laid sel b d k img m₀ m) (hold : oldsz ≤ kernBase) (hi : pagesOf oldsz + i = k) (hk : k < 16)
    (hspare : 67 + k ≤ m₀.freelist.length) (hzero : ∀ a, 4096 * k ≤ a → img a = 0) :
    ∃ m', m.addRound .plenty sel d oldsz i = .ok (some m') ∧ Laid sel b d (k + 1) img m₀ m' ∧
      (∀ w < k, entry m'.dirs d w = entry m.dirs d w) ∧ flagOn (entry m'.dirs d k) pteU = true := by
  have hd0 : d ≠ 0 := h₀.balanced.pos hmem
  have hku : k < userPages := lt_trans hk (by decide)
  have habs := h.building.above k le_rfl hku
  have hsome := h.spare
  rcases addRound_cases .plenty sel d hold hi hk habs with ⟨hnone, -⟩ | ⟨f, rest, ok, m₁, -, hf, hmap, hround⟩
  · have hpos : m.freelist ≠ [] := by
      rintro hc
      rw [hc, List.length_nil] at hsome
      omega
    cases hfree : m.freelist with
    | nil => exact absurd hfree hpos
    | cons g rest => simp [kallocFrom, Supply.plenty, kalloc, hfree] at hnone
  have hlen : m.freelist.length = rest.length + 1 := by rw [hf, List.length_cons]
  have hmemf : f ∈ m.freelist := by
    rw [hf]
    exact List.mem_cons_self
  -- the first page needs a page table, the others have it
  have hmissing : missing (m.taken f rest d k).dirs d {0} ≤ 1 - min k 1 := by
    rcases Nat.eq_zero_or_pos k with rfl | hpos
    · exact (Finset.card_filter_le _ _).trans (by simp)
    · have ht := h.building.hasTable rfl hpos
      rw [HasTable, pdx_page, Nat.zero_div, Nat.zero_mod] at ht
      have hzero : missing (m.taken f rest d k).dirs d {0} = 0 := by
        rw [missing, Finset.card_eq_zero, Finset.filter_eq_empty_iff]
        intro i hi hc
        rw [Finset.mem_singleton.1 hi] at hc
        replace hc : (m.dirs d 0).isNone = true := hc
        rw [Option.isNone_iff_eq_none] at hc
        rw [hc] at ht
        cases ht
      omega
  have hslot : ∀ w, k ≤ w → w < k + 1 → w / 1024 ∈ ({0} : Finset ℕ) := by
    intro w hlo hhi
    rw [Finset.mem_singleton]
    omega
  obtain ⟨m₂, hloop, hb, he⟩ := mapLoop_spec (m := m.taken f rest d k) f (pteW ||| pteU) 1
    (fun _ => rfl) (by omega) hslot (hmissing.trans (by show _ ≤ rest.length; omega))
    (fun w hlo hhi => by
      rw [show w = k by omega]
      exact habs)
  have hmap' := hmap
  rw [Supply.plenty, mappagesFrom_true, mappages_page_eq (by omega), hloop] at hmap'
  cases hmap'
  have htrack := track_same sel m₁ d k
  have hdata : ∀ w < k, frameOf (entry m.dirs d w) ≠ f := by
    intro w hw hc
    have howned := h.whole.frames.owned d w (by omega) (h.whole.pages w hw)
    rw [hc, h.whole.frames.free f hmemf] at howned
    cases howned
  have hentry : ∀ w < k, entry m₁.dirs d w = entry m.dirs d w := by
    intro w hw
    rw [he w (by omega), if_neg (by omega)]
    rfl
  have hself : entry m₁.dirs d k = mapPte f (pteW ||| pteU) := by
    rw [he k (by omega), if_pos (by omega), Nat.sub_self, Nat.add_zero]
  have hsame : m₁.data = Function.update m.data f fun _ => 0 := by
    rw [hb.same]
    rfl
  have hframe : frameOf (mapPte f (pteW ||| pteU)) = f :=
    frameOf_mapPte _ (lt_trans (h.whole.frames.valid f hmemf).2 (by decide)) (by decide)
  refine ⟨m₁.track sel d k, hround, ⟨?_, ?_, fun w hlo hhi => ?_, fun w hw => ?_, ?_⟩, fun w hw => ?_, ?_⟩
  · rcases h.building.round h₀ hd hd0 hk hf hmap with ⟨-, hb', -⟩ | ⟨hcan, -⟩
    · exact hb'
    · refine absurd ?_ hcan
      rcases Nat.eq_zero_or_pos k with rfl | hpos
      · exact Or.inr ⟨rfl, by omega⟩
      · exact Or.inl (h.building.hasTable rfl hpos)
  · have htaken : Tabled d (m.taken f rest d k) := by
      refine h.tabled.congr rfl (fun g hg => ?_) rfl
      rw [hf]
      exact List.mem_cons_of_mem f hg
    rw [htrack]
    exact (htaken.mapLoop 1 hloop).congr rfl (fun _ hg => hg) rfl
  · rw [htrack]
    exact hb.table w (h.devices w hlo hhi)
  · rw [htrack]
    show m₁.data (frameOf (entry m₁.dirs d w)) = _
    rw [hsame]
    by_cases hwk : w = k
    · subst hwk
      rw [hself, hframe, Function.update_self]
      funext x
      exact (hzero _ (Nat.le_add_right _ _)).symm
    · rw [hentry w (by omega), Function.update_of_ne (hdata w (by omega))]
      exact h.bytes w (by omega)
  · have hbudget := hb.budget
    rw [htrack]
    show _ ≤ m₁.freelist.length + _ + _ + _
    have hrest : (m.taken f rest d k).freelist.length = rest.length := rfl
    omega
  · rw [htrack]
    exact hentry w hw
  · rw [htrack]
    show flagOn (entry m₁.dirs d k) pteU = true
    rw [hself, mapPte_user]
    decide

theorem Laid.loop (h₀ : Callable b m₀) (hd : d ∉ b.live) (hmem : d ∈ m₀.freelist)
    (hold : oldsz ≤ kernBase) (hmax : pagesOf newsz ≤ 16) (hspare : 66 + pagesOf newsz ≤ m₀.freelist.length)
    (count : ℕ) {i : ℕ} (h : Laid sel b d (pagesOf oldsz + i) img m₀ m)
    (hq : pagesOf oldsz + i + count = pagesOf newsz)
    (hzero : ∀ a, 4096 * (pagesOf oldsz + i) ≤ a → img a = 0) :
    ∃ m', allocLoopFrom .plenty sel d oldsz newsz count i m = .ok (newsz, m') ∧
      Laid sel b d (pagesOf newsz) img m₀ m' ∧
      (∀ w < pagesOf oldsz + i, entry m'.dirs d w = entry m.dirs d w) ∧
      ∀ w, pagesOf oldsz + i ≤ w → w < pagesOf newsz → flagOn (entry m'.dirs d w) pteU = true := by
  induction count generalizing i m with
  | zero =>
    rw [← hq]
    exact ⟨m, rfl, h, fun _ _ => rfl, fun w hlo hhi => absurd hlo (by omega)⟩
  | succ count ih =>
    obtain ⟨m₁, hround, h₁, hkeep₁, huser₁⟩ := h.round h₀ hd hmem hold rfl (by omega) (by omega) hzero
    obtain ⟨m', hloop, h', hkeep, huser⟩ := ih (i := i + 1) h₁ (by omega)
      fun a ha => hzero a (by omega)
    refine ⟨m', ?_, h', fun w hw => ?_, fun w hlo hhi => ?_⟩
    · rw [allocLoopFrom, hround]
      exact hloop
    · rw [hkeep w (by omega), hkeep₁ w hw]
    · by_cases hw : w = pagesOf oldsz + i
      · rw [hkeep w (by omega), hw]
        exact huser₁
      · exact huser w (by omega) hhi

theorem Laid.alloc (h₀ : Callable b m₀) (hd : d ∉ b.live) (hmem : d ∈ m₀.freelist)
    (h : Laid sel b d (pagesOf oldsz) img m₀ m) (hnew : newsz < kernBase) (hmax : pagesOf newsz ≤ 16)
    (hspare : 66 + pagesOf newsz ≤ m₀.freelist.length)
    (hzero : ∀ a, 4096 * pagesOf oldsz ≤ a → img a = 0) :
    ∃ m', m.allocuvmFrom .plenty sel d oldsz newsz = .ok (max oldsz newsz, m') ∧
      Laid sel b d (pagesOf (max oldsz newsz)) img m₀ m' ∧
      (∀ w < pagesOf oldsz, entry m'.dirs d w = entry m.dirs d w) ∧
      ∀ w, pagesOf oldsz ≤ w → w < pagesOf newsz → flagOn (entry m'.dirs d w) pteU = true := by
  by_cases hless : newsz < oldsz
  · refine ⟨m, ?_, ?_, fun _ _ => rfl, fun w hlo hhi => absurd hhi ?_⟩
    · rw [allocuvmFrom, if_neg (by omega), if_pos hless, max_eq_left hless.le]
    · rw [max_eq_left hless.le]
      exact h
    · simp only [pagesOf] at hlo ⊢
      omega
  · have hle : oldsz ≤ newsz := Nat.not_lt.1 hless
    have hcount := pagesOf_sub oldsz newsz (by omega)
    have hpages : pagesOf oldsz ≤ pagesOf newsz := by
      simp only [pagesOf]
      omega
    obtain ⟨m', hloop, h', hkeep, huser⟩ := Laid.loop h₀ hd hmem (by omega) hmax hspare
      (pagesOf newsz - pagesOf oldsz) (i := 0) h (by omega) hzero
    refine ⟨m', ?_, ?_, hkeep, huser⟩
    · rw [allocuvmFrom, if_neg (by omega), if_neg hless, hcount, hloop, max_eq_right hle]
    · rw [max_eq_right hle]
      exact h'

theorem Laid.setFrame {img' : ℕ → Byte} (h : Laid sel b d k img m₀ m) (hk : k ≤ userPages) (hv : v < k)
    (hother : ∀ w < k, w ≠ v → pageOf img' w = pageOf img w) :
    Laid sel b d k img' m₀ (m.setFrame (frameOf (entry m.dirs d v)) (pageOf img' v)) := by
  have hwrites := Writes.setFrame (m := m) (lt_of_lt_of_le hv hk) (h.whole.pages v hv) (pageOf img' v)
  refine ⟨h.building.written hwrites.same fun _ => hwrites, h.tabled.congr rfl (fun _ hg => hg) rfl,
    h.devices, fun w hw => ?_, h.spare⟩
  show Function.update m.data _ _ (frameOf (entry m.dirs d w)) = _
  by_cases hwv : w = v
  · subst hwv
    exact Function.update_self _ _ _
  · rw [Function.update_of_ne (h.frame_ne hk hv hw hwv), hother w hw hwv]
    exact h.bytes w hw

theorem Laid.loadLoop {a : ℕ} (hk : k ≤ userPages) (hend : 4096 * a + sz ≤ 4096 * k)
    (hfile : offset + sz ≤ ip.size ∧ offset + sz < 0x100000000) (count : ℕ) {j : ℕ}
    (h : Laid sel b d k (splice img (4096 * a) (min (4096 * j) sz) fun x => ip.byte (offset + x)) m₀ m)
    (hcount : j + count = pagesOf sz) :
    ∃ m', loadLoop d (4096 * a) ip offset sz count (4096 * j) m = .ok (true, m') ∧
      Laid sel b d k (splice img (4096 * a) sz fun x => ip.byte (offset + x)) m₀ m' ∧
      m'.dirs = m.dirs := by
  induction count generalizing j m with
  | zero =>
    have hdone : min (4096 * j) sz = sz := by
      simp only [pagesOf] at hcount
      omega
    rw [hdone] at h
    exact ⟨m, rfl, h, rfl⟩
  | succ count ih =>
    have hj : 4096 * j < sz := by
      simp only [pagesOf] at hcount
      omega
    have hv : a + j < k := by omega
    have ht : HasTable m.dirs d (a + j) := hasTable_of_present (h.whole.pages _ hv)
    have hread : ip.readi (offset + 4096 * j) (min (sz - 4096 * j) 4096) =
        some (min (sz - 4096 * j) 4096) := File.readi_eq (by omega) (by omega)
    have hpage : overlay (m.data (frameOf (entry m.dirs d (a + j)))) ip (offset + 4096 * j)
        (min (sz - 4096 * j) 4096) =
        pageOf (splice img (4096 * a) (min (4096 * (j + 1)) sz) fun x => ip.byte (offset + x)) (a + j) := by
      rw [h.bytes _ hv]
      funext x
      have hx := x.isLt
      simp only [overlay, pageOf, splice]
      by_cases hin : x.val < min (sz - 4096 * j) 4096
      · rw [if_pos hin, if_pos (by omega)]
        congr 1
        omega
      · rw [if_neg hin, if_neg (by omega), if_neg (by omega)]
    have hother : ∀ w < k, w ≠ a + j →
        pageOf (splice img (4096 * a) (min (4096 * (j + 1)) sz) fun x => ip.byte (offset + x)) w =
          pageOf (splice img (4096 * a) (min (4096 * j) sz) fun x => ip.byte (offset + x)) w := by
      intro w _ hw
      funext x
      have hx := x.isLt
      simp only [pageOf, splice]
      congr 1
      exact propext (by omega)
    obtain ⟨m', hloop, h', hdirs⟩ := ih (j := j + 1) (h.setFrame hk hv hother) (by omega)
    refine ⟨m', ?_, h', hdirs⟩
    rw [Machine.loadLoop, walkpgdir, show 4096 * a + 4096 * j = 4096 * (a + j) by omega, walk_eq_entry ht]
    simp only [hread, if_true, hpage]
    exact hloop

theorem Laid.load {ph : ProgHdr} (h : Laid sel b d k img m₀ m) (hk : k ≤ userPages)
    (hok : ph.Ok ip) (hend : ph.vaddr + ph.memsz ≤ 4096 * k) :
    ∃ m', m.loaduvm d ph.vaddr ip ph.off ph.filesz = .ok (true, m') ∧
      Laid sel b d k (splice img ph.vaddr ph.filesz fun x => ip.byte (ph.off + x)) m₀ m' ∧
      m'.dirs = m.dirs := by
  have haligned := hok.aligned
  have hfilesz := hok.filesz
  obtain ⟨a, ha⟩ : ∃ a, ph.vaddr = 4096 * a := ⟨ph.vaddr / 4096, by omega⟩
  rw [loaduvm, if_neg (by omega)]
  rcases Nat.eq_zero_or_pos ph.filesz with hz | hpos
  · refine ⟨m, ?_, ?_, rfl⟩
    · rw [hz]
      rfl
    · rw [hz, Memory.splice_zero]
      exact h
  · rw [ha]
    refine Laid.loadLoop hk (by omega) (hok.inFile hpos) (pagesOf ph.filesz) (j := 0) ?_ (by omega)
    rw [Nat.mul_zero, Nat.zero_min, Memory.splice_zero]
    exact h

/-! ### The segments -/

theorem le_segEndFrom (l : List ProgHdr) (sz : ℕ) : sz ≤ segEndFrom l sz := by
  induction l generalizing sz with
  | nil => exact le_rfl
  | cons ph l ih => exact (le_max_left sz _).trans (ih _)

/-- The contents of the image after the segments `l`. -/
def loadAll (ip : File) (l : List ProgHdr) (img : ℕ → Byte) : ℕ → Byte :=
  l.foldl (fun img ph => splice img ph.vaddr ph.filesz fun x => ip.byte (ph.off + x)) img

theorem loadAll_eq_segByte (ip : File) (l : List ProgHdr) :
    loadAll ip l (fun _ => 0) = segByte ip l := by
  induction l using List.reverseRecOn with
  | nil => rfl
  | append_singleton l ph ih =>
    funext a
    have hstep : loadAll ip (l ++ [ph]) (fun _ => 0) =
        splice (segByte ip l) ph.vaddr ph.filesz fun x => ip.byte (ph.off + x) := by
      rw [← ih, loadAll, List.foldl_append]
      rfl
    rw [hstep, segByte, List.reverse_append]
    by_cases hc : ph.Covers a
    · rw [List.reverse_singleton, List.singleton_append, List.find?_cons_of_pos (by simpa using hc)]
      exact Memory.splice_inside hc
    · rw [List.reverse_singleton, List.singleton_append, List.find?_cons_of_neg (by simpa using hc)]
      exact Memory.splice_outside hc

theorem Laid.segments (h₀ : Callable b m₀) (hd : d ∉ b.live) (hmem : d ∈ m₀.freelist)
    (count : ℕ) {off : ℕ} {l : List ProgHdr}
    (hl : (ip.headers count off).map (List.filter fun ph => ph.type = 1) = some l)
    (h : Laid sel b d (pagesOf sz) img m₀ m) (hzero : ∀ a, sz ≤ a → img a = 0)
    (hok : ∀ ph ∈ l, ph.Ok ip) (hfirst : sz = 0 → ∀ ph, l.head? = some ph → 0 < ph.vaddr + ph.memsz)
    (hmax : pagesOf (segEndFrom l sz) ≤ 16)
    (hspare : 66 + pagesOf (segEndFrom l sz) ≤ m₀.freelist.length) :
    ∃ m', loadSegmentsFrom .plenty sel ip d count off sz m =
        .ok (some (segEndFrom l sz), m') ∧
      Laid sel b d (pagesOf (segEndFrom l sz))
        (loadAll ip l img) m₀ m' ∧
      ∀ a, segEndFrom l sz ≤ a → loadAll ip l img a = 0 := by
  induction count generalizing off sz img m l with
  | zero =>
    cases hl
    exact ⟨m, rfl, h, hzero⟩
  | succ count ih =>
    rw [File.headers] at hl
    split at hl
    · rename_i hread
      rw [Option.map_map] at hl
      obtain ⟨rest, hrest, rfl⟩ := Option.map_eq_some_iff.1 hl
      have hnext : (ip.headers count ((off + 32) % 0x100000000)).map
          (List.filter fun ph => ph.type = 1) = some (rest.filter fun ph => ph.type = 1) := by
        rw [hrest]
        rfl
      simp only [Function.comp_apply] at hok hfirst hmax hspare ⊢
      by_cases htype : (ip.progHdr off).type = 1
      · rw [List.filter_cons_of_pos (by simpa using htype)] at hok hfirst hmax hspare ⊢
        rw [segEndFrom, List.foldl_cons, ← segEndFrom] at hmax hspare
        have hph := hok _ List.mem_cons_self
        have hlow := hph.low
        have hfilesz := hph.filesz
        have hend := le_segEndFrom (rest.filter fun ph => ph.type = 1)
          (max sz ((ip.progHdr off).vaddr + (ip.progHdr off).memsz))
        have hpages : pagesOf ((ip.progHdr off).vaddr + (ip.progHdr off).memsz) ≤ pagesOf
            (segEndFrom (rest.filter fun ph => ph.type = 1)
              (max sz ((ip.progHdr off).vaddr + (ip.progHdr off).memsz))) := by
          simp only [pagesOf]
          omega
        obtain ⟨m₁, halloc, h₁, -⟩ := h.alloc h₀ hd hmem hlow (hpages.trans hmax)
          (by omega) fun a ha => hzero a (by simp only [pagesOf] at ha; omega)
        have hpos : max sz ((ip.progHdr off).vaddr + (ip.progHdr off).memsz) ≠ 0 := by
          rcases Nat.eq_zero_or_pos sz with hz | hz
          · have := hfirst hz _ List.head?_cons
            omega
          · omega
        have hk : pagesOf (max sz ((ip.progHdr off).vaddr + (ip.progHdr off).memsz)) ≤ userPages := by
          refine le_trans ?_ (hmax.trans (by decide))
          simp only [pagesOf]
          omega
        obtain ⟨m₂, hload, h₂, -⟩ := h₁.load hk hph (by simp only [pagesOf]; omega)
        obtain ⟨m', hrun, h', hzero'⟩ := ih hnext h₂
          (fun a ha => by
            rw [Memory.splice_outside (by omega)]
            exact hzero a (by omega))
          (fun ph hmem => hok ph (List.mem_cons_of_mem _ hmem)) (fun hc => absurd hc hpos) hmax hspare
        refine ⟨m', ?_, h', hzero'⟩
        rw [loadSegmentsFrom, if_neg (not_not.2 hread)]
        dsimp only
        rw [if_neg (not_not.2 htype), if_neg (by omega), if_neg (by simp only [kernBase] at hlow; omega),
          plenty_after, halloc]
        simp only [bind, Except.bind]
        rw [if_neg hpos, if_neg (not_not.2 hph.aligned), hload]
        exact hrun
      · rw [List.filter_cons_of_neg (by simpa using htype)] at hok hfirst hmax hspare ⊢
        obtain ⟨m', hrun, h', hzero'⟩ := ih hnext h hzero hok hfirst hmax hspare
        refine ⟨m', ?_, h', hzero'⟩
        rw [loadSegmentsFrom, if_neg (not_not.2 hread)]
        dsimp only
        rw [if_pos htype]
        exact hrun
    · cases hl

/-! ### Copying to the user -/

theorem Laid.guard (h : Laid sel b d k img m₀ m) (hv : v < k) (hk : k ≤ 16) :
    ∃ m', m.clearpteu d (4096 * v) = .ok m' ∧ Laid sel b d k img m₀ m' ∧
      flagOn (entry m'.dirs d v) pteU = false ∧
      ∀ w < k, w ≠ v → entry m'.dirs d w = entry m.dirs d w := by
  have hlt : v < 0x100000 := by omega
  have ht : HasTable m.dirs d v := hasTable_of_present (h.whole.pages v hv)
  have hrun : m.clearpteu d (4096 * v) = .ok (m.setPte d (4096 * v) (entry m.dirs d v &&& ~~~pteU)) := by
    rw [clearpteu, walkpgdir, walk_eq_entry ht]
  have hself : entry (m.setPte d (4096 * v) (entry m.dirs d v &&& ~~~pteU)).dirs d v =
      entry m.dirs d v &&& ~~~pteU := entry_store_self ht hlt _
  have hother : ∀ w < k, w ≠ v →
      entry (m.setPte d (4096 * v) (entry m.dirs d v &&& ~~~pteU)).dirs d w = entry m.dirs d w :=
    fun w hw hne => entry_store_ne ht hlt _ (by omega) fun hc => hne hc.2
  refine ⟨_, hrun, ⟨h.building.guard hv hk hrun, h.tabled.setPte _ _, fun w hlo hhi => ?_, fun w hw => ?_,
    h.spare⟩, ?_, hother⟩
  · exact (Extends.setPte d m _ _).table w (h.devices w hlo hhi)
  · show m.data _ = _
    by_cases hwv : w = v
    · rw [hwv, hself, frameOf_and_not _ (by decide)]
      exact h.bytes v hv
    · rw [hother w hw hwv]
      exact h.bytes w hw
  · have hclear : (entry m.dirs d v &&& ~~~pteU) &&& pteU = 0#32 := by
      rw [BitVec.and_assoc, show ~~~pteU &&& pteU = 0#32 by decide, BitVec.and_zero]
    rw [hself, flagOn, hclear]
    rfl

theorem copyoutLoop_nil (fuel va : ℕ) (m : Machine) : copyoutLoop d fuel va [] m = .ok (true, m) := by
  cases fuel <;> rfl

theorem Laid.copyout (h : Laid sel b d k img m₀ m) (x : ℕ) (bytes : List Byte) (hk : k ≤ 16) (hv : v < k)
    (huser : flagOn (entry m.dirs d v) pteU = true) (hx : x + bytes.length ≤ 4096) (hne : bytes ≠ []) :
    ∃ m', m.copyout d (4096 * v + x) bytes = .ok (true, m') ∧
      Laid sel b d k (splice img (4096 * v + x) bytes.length fun k => bytes.getD k 0) m₀ m' ∧
      m'.dirs = m.dirs := by
  have hpos : 0 < bytes.length := List.length_pos_iff.2 hne
  have hku : k ≤ userPages := hk.trans (by decide)
  have ht : HasTable m.dirs d v := hasTable_of_present (h.whole.pages v hv)
  have hround : pgRoundDown (4096 * v + x) = 4096 * v := by
    rw [pgRoundDown]
    omega
  have hmod : (4096 * v + x) % 4096 = x := by omega
  have hmin : min (4096 - x) bytes.length = bytes.length := by omega
  have hka : m.uva2ka d (4096 * v) = .ok (some (frameOf (entry m.dirs d v))) := by
    rw [uva2ka, walkpgdir, walk_eq_entry ht]
    simp only [h.whole.pages v hv, huser, Bool.and_self, if_true]
  have hpage : patch (m.data (frameOf (entry m.dirs d v))) x bytes =
      pageOf (splice img (4096 * v + x) bytes.length fun k => bytes.getD k 0) v := by
    rw [h.bytes v hv]
    funext y
    have hy := y.isLt
    simp only [patch, pageOf, splice]
    by_cases hin : x ≤ y.val ∧ y.val < x + bytes.length
    · rw [if_pos hin, if_pos (by omega)]
      congr 1
      omega
    · rw [if_neg hin, if_neg (by omega)]
  have hother : ∀ w < k, w ≠ v →
      pageOf (splice img (4096 * v + x) bytes.length fun k => bytes.getD k 0) w = pageOf img w := by
    intro w _ hw
    funext y
    have hy := y.isLt
    exact Memory.splice_outside (by omega)
  refine ⟨_, ?_, h.setFrame hku hv hother, rfl⟩
  rw [Machine.copyout, copyoutLoop, if_neg hne, hround, hka]
  simp only [bind, Except.bind, hmod, hmin, List.take_length, List.drop_length, copyoutLoop_nil, hpage]

theorem copyoutLoop_false {g : ℕ} (hguard : flagOn (entry m.dirs d g) pteU = false) (fuel va : ℕ)
    (bytes : List Byte) (htables : ∀ w, va / 4096 ≤ w → w ≤ g → HasTable m.dirs d w)
    (hg : g < 0x100000) (hva : va / 4096 ≤ g) (hreach : 4096 * g < va + bytes.length) (hne : bytes ≠ [])
    (hfuel : bytes.length < fuel) :
    ∃ m', copyoutLoop d fuel va bytes m = .ok (false, m') ∧ DataOnly m m' := by
  induction fuel generalizing va bytes m with
  | zero => exact absurd hfuel (Nat.not_lt_zero _)
  | succ fuel ih =>
    have ht : HasTable m.dirs d (va / 4096) := htables _ le_rfl hva
    have hround : pgRoundDown va = 4096 * (va / 4096) := by
      rw [pgRoundDown]
      omega
    rw [copyoutLoop, if_neg hne, hround, uva2ka, walkpgdir, walk_eq_entry ht]
    by_cases hflags : (flagOn (entry m.dirs d (va / 4096)) pteP &&
        flagOn (entry m.dirs d (va / 4096)) pteU) = true
    · simp only [hflags, if_true, bind, Except.bind]
      have hne' : va / 4096 ≠ g := by
        rintro hc
        rw [hc, hguard, Bool.and_false] at hflags
        cases hflags
      have hmin : min (4096 - va % 4096) bytes.length = 4096 - va % 4096 := by omega
      have hnext : (4096 * (va / 4096) + 4096) % 0x100000000 = 4096 * (va / 4096 + 1) := by omega
      have hdiv : 4096 * (va / 4096 + 1) / 4096 = va / 4096 + 1 := by omega
      rw [hmin, hnext]
      have hlen : (bytes.drop (4096 - va % 4096)).length = bytes.length - (4096 - va % 4096) :=
        List.length_drop
      obtain ⟨m', hrun, hsame⟩ := ih (m := m.setFrame (frameOf (entry m.dirs d (va / 4096)))
          (patch (m.data (frameOf (entry m.dirs d (va / 4096)))) (va % 4096)
            (bytes.take (4096 - va % 4096))))
        hguard (4096 * (va / 4096 + 1)) (bytes.drop (4096 - va % 4096))
        (fun w hlo hhi => htables w (by omega) hhi) (by omega) (by omega)
        (List.ne_nil_of_length_pos (by omega)) (by omega)
      exact ⟨m', hrun, (DataOnly.setFrame _ _ _).trans hsame⟩
    · exact ⟨m, by simp only [hflags, bind, Except.bind]; rfl, DataOnly.refl m⟩

/-! ### The arguments -/

/-- The room the strings take. -/
def stringRoom (argv : List (List Byte)) : ℕ := (argv.map fun arg => (arg.length + 4) / 4 * 4).sum

theorem stringRoom_cons (arg : List Byte) (argv : List (List Byte)) :
    stringRoom (arg :: argv) = (arg.length + 4) / 4 * 4 + stringRoom argv := List.sum_cons

/-- The strings `argv` were pushed from `sp` down, to the addresses `addrs`. -/
structure Pushed (img img' : ℕ → Byte) (sp : ℕ) (argv : List (List Byte)) (addrs : List ℕ) : Prop where
  length : addrs.length = argv.length
  other : ∀ a, a < sp - stringRoom argv ∨ sp ≤ a → img' a = img a
  string : ∀ (i : ℕ) (arg : List Byte) (a : ℕ), argv[i]? = some arg → addrs[i]? = some a →
    At img' a (arg ++ [0]) ∧ sp - stringRoom argv ≤ a ∧ a + arg.length + 1 ≤ sp
  apart : ∀ (i j : ℕ) (arg : List Byte) (a a' : ℕ), i < j → argv[j]? = some arg → addrs[i]? = some a →
    addrs[j]? = some a' → a' + arg.length + 1 ≤ a

theorem Pushed.cons {img₁ img' : ℕ → Byte} {sp sp' : ℕ} {arg : List Byte}
    {addrs : List ℕ} (h : Pushed img₁ img' sp' argv addrs) (hroom : stringRoom (arg :: argv) ≤ sp)
    (hsp' : sp' = sp - (arg.length + 4) / 4 * 4)
    (himg : img₁ = splice img sp' (arg ++ [0]).length fun k => (arg ++ [0]).getD k 0) :
    Pushed img img' sp (arg :: argv) (sp' :: addrs) := by
  rw [stringRoom_cons] at hroom
  have hlen : (arg ++ [0]).length = arg.length + 1 := by rw [List.length_append, List.length_singleton]
  have hself : At img₁ sp' (arg ++ [0]) := by
    rw [himg]
    exact At.of_splice img sp' _ 0
  refine ⟨by rw [List.length_cons, List.length_cons, h.length], fun a ha => ?_, fun i arg' a harg ha => ?_,
    fun i j arg' a a' hij harg ha ha' => ?_⟩
  · rw [stringRoom_cons] at ha
    rw [h.other a (by omega), himg, Memory.splice_outside (by omega)]
  · rw [stringRoom_cons]
    cases i with
    | zero =>
      cases harg
      cases ha
      refine ⟨hself.congr fun x hlo hhi => h.other x (Or.inr hlo), by omega, by omega⟩
    | succ i =>
      obtain ⟨hat, hlo, hhi⟩ := h.string i arg' a harg ha
      exact ⟨hat, by omega, by omega⟩
  · cases j with
    | zero => exact absurd hij (Nat.not_lt_zero i)
    | succ j =>
      cases i with
      | zero =>
        cases ha
        exact (h.string j arg' a' harg ha').2.2
      | succ i => exact h.apart i j arg' a a' (by omega) harg ha ha'

/-- A string for which there is room on the stack page; the stack pointer does not wrap. -/
theorem Laid.pushString {sp : ℕ} (hN : N + 2 ≤ 16) (h : Laid sel b d (N + 2) img m₀ m)
    (huser : flagOn (entry m.dirs d (N + 1)) pteU = true) (halign : sp % 4 = 0)
    (hsp : sp ≤ 4096 * (N + 2)) (arg : List Byte)
    (hroom : 4096 * (N + 1) + (arg.length + 4) / 4 * 4 ≤ sp) :
    (sp + 0x100000000 - (arg.length + 1) % 0x100000000) % 0x100000000 / 4 * 4 =
        sp - (arg.length + 4) / 4 * 4 ∧
      ∃ m', m.copyout d (sp - (arg.length + 4) / 4 * 4) (arg ++ [0]) = .ok (true, m') ∧
        Laid sel b d (N + 2) (splice img (sp - (arg.length + 4) / 4 * 4) (arg ++ [0]).length
          fun k => (arg ++ [0]).getD k 0) m₀ m' ∧ m'.dirs = m.dirs := by
  refine ⟨by omega, ?_⟩
  have hlen : (arg ++ [0]).length = arg.length + 1 := by rw [List.length_append, List.length_singleton]
  obtain ⟨x, hx⟩ : ∃ x, sp - (arg.length + 4) / 4 * 4 = 4096 * (N + 1) + x :=
    ⟨sp - (arg.length + 4) / 4 * 4 - 4096 * (N + 1), by omega⟩
  rw [hx]
  exact h.copyout x (arg ++ [0]) hN (Nat.lt_succ_self (N + 1)) huser (by omega) (by simp)

theorem Laid.pushArgs (hN : N + 2 ≤ 16) (argv : List (List Byte)) (sp : ℕ) (pushed : List ℕ)
    (h : Laid sel b d (N + 2) img m₀ m)
    (huser : flagOn (entry m.dirs d (N + 1)) pteU = true) (halign : sp % 4 = 0)
    (hsp : sp ≤ 4096 * (N + 2)) (hroom : 4096 * (N + 1) + stringRoom argv ≤ sp)
    (hcount : pushed.length + argv.length ≤ 32) :
    ∃ addrs img' m', m.pushArgs d argv sp pushed =
        .ok (some (sp - stringRoom argv, addrs.reverse ++ pushed), m') ∧
      Laid sel b d (N + 2) img' m₀ m' ∧ m'.dirs = m.dirs ∧ Pushed img img' sp argv addrs := by
  induction argv generalizing sp pushed img m with
  | nil =>
    refine ⟨[], img, m, rfl, h, rfl, rfl, fun _ _ => rfl, fun i arg a harg => ?_,
      fun i j arg a a' _ harg => ?_⟩
    · cases harg
    · cases harg
  | cons arg argv ih =>
    have hcons := stringRoom_cons arg argv
    rw [List.length_cons] at hcount
    obtain ⟨hsp', m₁, hcopy, h₁, hdirs₁⟩ := h.pushString hN huser halign hsp arg (by omega)
    obtain ⟨addrs, img', m', hrun, h', hdirs, hpushed⟩ := ih (sp - (arg.length + 4) / 4 * 4)
      ((sp - (arg.length + 4) / 4 * 4) :: pushed) h₁ (by rw [hdirs₁]; exact huser) (by omega) (by omega)
      (by omega) (by rw [List.length_cons]; omega)
    have hall : Pushed img img' sp (arg :: argv) ((sp - (arg.length + 4) / 4 * 4) :: addrs) :=
      hpushed.cons (by omega) rfl rfl
    refine ⟨_, img', m', ?_, h', hdirs.trans hdirs₁, hall⟩
    have hend : sp - stringRoom (arg :: argv) = sp - (arg.length + 4) / 4 * 4 - stringRoom argv := by omega
    rw [Machine.pushArgs, if_neg (by omega), hsp']
    dsimp only
    rw [hcopy, hend, List.reverse_cons, List.append_assoc, List.singleton_append]
    exact hrun

/-- Strings for which there is no room make `exec` fail: `copyout` comes to the guard page, or to the
device memory when the stack pointer wrapped. -/
theorem Laid.pushArgs_none (hN : N + 2 ≤ 16) (argv : List (List Byte)) (sp : ℕ) (pushed : List ℕ)
    (h : Laid sel b d (N + 2) img m₀ m)
    (huser : flagOn (entry m.dirs d (N + 1)) pteU = true)
    (hguard : flagOn (entry m.dirs d N) pteU = false) (halign : sp % 4 = 0)
    (htop : 4096 * (N + 1) ≤ sp) (hsp : sp ≤ 4096 * (N + 2)) (hpushed : pushed.length ≤ 32)
    (hlong : ∀ arg ∈ argv, arg.length + 1 ≤ 0x2000000)
    (hfit : ¬ (4096 * (N + 1) + stringRoom argv ≤ sp ∧ pushed.length + argv.length ≤ 32)) :
    ∃ m', m.pushArgs d argv sp pushed = .ok (none, m') ∧ DataOnly m m' := by
  induction argv generalizing sp pushed img m with
  | nil => exact absurd ⟨htop, hpushed⟩ hfit
  | cons arg argv ih =>
    by_cases hmany : 32 ≤ pushed.length
    · exact ⟨m, by rw [Machine.pushArgs, if_pos hmany], DataOnly.refl m⟩
    rw [stringRoom_cons, List.length_cons] at hfit
    have hlen : (arg ++ [0]).length = arg.length + 1 := by rw [List.length_append, List.length_singleton]
    have harg := hlong arg List.mem_cons_self
    by_cases hroom : 4096 * (N + 1) + (arg.length + 4) / 4 * 4 ≤ sp
    · obtain ⟨hsp', m₁, hcopy, h₁, hdirs₁⟩ := h.pushString hN huser halign hsp arg hroom
      obtain ⟨m', hrun, hsame⟩ := ih (sp - (arg.length + 4) / 4 * 4)
        ((sp - (arg.length + 4) / 4 * 4) :: pushed) h₁ (by rw [hdirs₁]; exact huser)
        (by rw [hdirs₁]; exact hguard) (by omega) (by omega) (by omega)
        (by rw [List.length_cons]; omega) (fun a ha => hlong a (List.mem_cons_of_mem arg ha))
        (by rw [List.length_cons]; omega)
      refine ⟨m', ?_, (copyoutLoop_ok hcopy).trans hsame⟩
      rw [Machine.pushArgs, if_neg hmany, hsp']
      dsimp only
      rw [hcopy]
      exact hrun
    · have hcopy : ∃ m', m.copyout d
          ((sp + 0x100000000 - (arg.length + 1) % 0x100000000) % 0x100000000 / 4 * 4) (arg ++ [0]) =
          .ok (false, m') ∧ DataOnly m m' := by
        have hmod : (arg.length + 1) % 0x100000000 = arg.length + 1 := by omega
        rw [hmod]
        by_cases hwrap : arg.length + 1 ≤ sp
        · have hva : (sp + 0x100000000 - (arg.length + 1)) % 0x100000000 / 4 * 4 =
              (sp - (arg.length + 1)) / 4 * 4 := by omega
          rw [hva]
          refine copyoutLoop_false hguard _ _ _ (fun w _ hw => ?_) (by omega) (by omega) (by omega) (by simp)
            (by omega)
          exact hasTable_of_present (h.whole.pages w (by omega))
        · have hva : 0xFE000000 ≤ (sp + 0x100000000 - (arg.length + 1)) % 0x100000000 / 4 * 4 := by omega
          have hlt : (sp + 0x100000000 - (arg.length + 1)) % 0x100000000 / 4 * 4 < 0x100000000 := by omega
          generalize (sp + 0x100000000 - (arg.length + 1)) % 0x100000000 / 4 * 4 = va at hva hlt
          refine copyoutLoop_false (g := va / 4096) ?_ _ _ _ (fun w hlo _ => ?_) (by omega) le_rfl (by omega)
            (by simp) (by omega)
          · have hdev : userPages ≤ va / 4096 := by
              simp only [userPages]
              omega
            exact (h.whole.kernel _ hdev (by omega)).1
          · exact h.devices w (by omega) (by omega)
      obtain ⟨m', hcopy, hsame⟩ := hcopy
      refine ⟨m', ?_, hsame⟩
      rw [Machine.pushArgs, if_neg hmany]
      dsimp only
      rw [hcopy]
      rfl

theorem length_words (l : List ℕ) : (l.flatMap wordBytes).length = 4 * l.length := by
  induction l with
  | nil => rfl
  | cons w l ih =>
    rw [List.flatMap_cons, List.length_append, ih, List.length_cons]
    simp only [wordBytes, List.length_cons, List.length_nil]
    omega

theorem length_ustack (sp : ℕ) (pushed : List ℕ) : (ustack sp pushed).length = 4 + pushed.length := by
  simp only [ustack, List.length_append, List.length_cons, List.length_nil, List.length_reverse]
  omega

theorem Laid.pushStackAt (hN : N + 2 ≤ 16)
    (h : Laid sel b d (N + 2) img m₀ m) (huser : flagOn (entry m.dirs d (N + 1)) pteU = true)
    (hfit : ArgsFit argv) :
    ∃ esp img' m', m.pushStackAt d (4096 * (N + 2)) argv = .ok (some esp, m') ∧
      Laid sel b d (N + 2) img' m₀ m' ∧ m'.dirs = m.dirs ∧ (∀ a < 4096 * (N + 1), img' a = img a) ∧
      Stacked argv img' (4096 * (N + 2)) esp := by
  obtain ⟨hcount, hroom⟩ := hfit
  replace hroom : stringRoom argv + 4 * (4 + argv.length) ≤ 4096 := hroom
  obtain ⟨addrs, img₁, m₁, hpush, h₁, hdirs₁, hpushed⟩ := h.pushArgs hN argv (4096 * (N + 2)) [] huser
    (by omega) le_rfl (by omega) (by rw [List.length_nil]; omega)
  rw [List.append_nil] at hpush
  have hlen : addrs.reverse.length = argv.length := by rw [List.length_reverse, hpushed.length]
  obtain ⟨sp, hsp⟩ : ∃ sp, sp = 4096 * (N + 2) - stringRoom argv := ⟨_, rfl⟩
  rw [← hsp] at hpush
  obtain ⟨x, hx⟩ : ∃ x, sp - 4 * (4 + argv.length) = 4096 * (N + 1) + x :=
    ⟨sp - 4 * (4 + argv.length) - 4096 * (N + 1), by omega⟩
  have hesp : (sp + 0x100000000 - (3 + addrs.reverse.length + 1) * 4) % 0x100000000 =
      4096 * (N + 1) + x := by
    rw [hlen]
    omega
  have hwords : ((ustack sp addrs.reverse).flatMap wordBytes).length = 4 * (4 + argv.length) := by
    rw [length_words, length_ustack, hlen]
  obtain ⟨m', hcopy, h', hdirs'⟩ := h₁.copyout x ((ustack sp addrs.reverse).flatMap wordBytes) hN
    (Nat.lt_succ_self (N + 1)) (by rw [hdirs₁]; exact huser) (by omega)
    (List.ne_nil_of_length_pos (by omega))
  refine ⟨4096 * (N + 1) + x, _, m', ?_, h', hdirs'.trans hdirs₁, fun a ha => ?_, ⟨by omega, by omega⟩,
    addrs, hpushed.length, ?_, fun i arg a harg ha => ?_, hpushed.apart⟩
  · rw [Machine.pushStackAt, hpush]
    simp only [bind, Except.bind, hesp, hcopy, if_true]
    rfl
  · rw [Memory.splice_outside (by omega)]
    exact hpushed.other a (by omega)
  · have hustack : ustack sp addrs.reverse =
        [0xFFFFFFFF, argv.length, 4096 * (N + 1) + x + 12] ++ addrs ++ [0] := by
      rw [ustack, hlen, List.reverse_reverse,
        show (sp + 0x100000000 - (argv.length + 1) * 4) % 0x100000000 = 4096 * (N + 1) + x + 12 by omega]
    rw [← hustack]
    exact At.of_splice img₁ _ _ 0
  · obtain ⟨hat, hlo, hhi⟩ := hpushed.string i arg a harg ha
    refine ⟨hat.splice (Or.inr ?_), by omega, hhi⟩
    omega

theorem Laid.pushStackAt_none (hN : N + 2 ≤ 16)
    (h : Laid sel b d (N + 2) img m₀ m) (huser : flagOn (entry m.dirs d (N + 1)) pteU = true)
    (hguard : flagOn (entry m.dirs d N) pteU = false)
    (hlong : ∀ arg ∈ argv, arg.length + 1 ≤ 0x2000000) (hfit : ¬ ArgsFit argv) :
    ∃ m', m.pushStackAt d (4096 * (N + 2)) argv = .ok (none, m') ∧ DataOnly m m' := by
  by_cases hstrings : 4096 * (N + 1) + stringRoom argv ≤ 4096 * (N + 2) ∧
      ([] : List ℕ).length + argv.length ≤ 32
  · obtain ⟨addrs, img₁, m₁, hpush, h₁, hdirs₁, hpushed⟩ := h.pushArgs hN argv (4096 * (N + 2)) [] huser
      (by omega) le_rfl hstrings.1 hstrings.2
    rw [List.append_nil] at hpush
    rw [List.length_nil] at hstrings
    have hlen : addrs.reverse.length = argv.length := by rw [List.length_reverse, hpushed.length]
    have hover : ¬ stringRoom argv + 4 * (4 + argv.length) ≤ 4096 := fun hc => hfit ⟨by omega, hc⟩
    obtain ⟨sp, hsp⟩ : ∃ sp, sp = 4096 * (N + 2) - stringRoom argv := ⟨_, rfl⟩
    rw [← hsp] at hpush
    have hesp : (sp + 0x100000000 - (3 + addrs.reverse.length + 1) * 4) % 0x100000000 =
        sp - 4 * (4 + argv.length) := by
      rw [hlen]
      omega
    have hwords : ((ustack sp addrs.reverse).flatMap wordBytes).length = 4 * (4 + argv.length) := by
      rw [length_words, length_ustack, hlen]
    obtain ⟨m', hcopy, hsame⟩ := copyoutLoop_false (m := m₁) (by rw [hdirs₁]; exact hguard)
      (((ustack sp addrs.reverse).flatMap wordBytes).length + 1) (sp - 4 * (4 + argv.length))
      ((ustack sp addrs.reverse).flatMap wordBytes)
      (fun w _ hw => hasTable_of_present (h₁.whole.pages w (by omega))) (by omega) (by omega) (by omega)
      (List.ne_nil_of_length_pos (by omega)) (by omega)
    refine ⟨m', ?_, (pushArgs_ok hpush).trans hsame⟩
    rw [Machine.pushStackAt, hpush]
    simp only [bind, Except.bind, hesp, Machine.copyout, hcopy]
    rfl
  · obtain ⟨m', hpush, hsame⟩ := h.pushArgs_none hN argv (4096 * (N + 2)) [] huser hguard (by omega)
      (by omega) le_rfl (by rw [List.length_nil]; omega) hlong hstrings
    refine ⟨m', ?_, hsame⟩
    rw [Machine.pushStackAt, hpush]
    rfl

theorem Laid.stack (h₀ : Callable b m₀) (hd : d ∉ b.live) (hmem : d ∈ m₀.freelist)
    (hN : N + 2 ≤ 16) (hspare : 68 + N ≤ m₀.freelist.length) (h : Laid sel b d N img m₀ m)
    (hzero : ∀ a, 4096 * N ≤ a → img a = 0) :
    ∃ m₁ m₂, m.allocuvmFrom .plenty sel d (4096 * N) (4096 * (N + 2)) = .ok (4096 * (N + 2), m₁) ∧
      m₁.clearpteu d (4096 * N) = .ok m₂ ∧ Laid sel b d (N + 2) img m₀ m₂ ∧
      flagOn (entry m₂.dirs d N) pteU = false ∧ flagOn (entry m₂.dirs d (N + 1)) pteU = true := by
  have hpages : pagesOf (4096 * N) = N := by
    simp only [pagesOf]
    omega
  have hpages' : pagesOf (4096 * (N + 2)) = N + 2 := by
    simp only [pagesOf]
    omega
  have hmax : max (4096 * N) (4096 * (N + 2)) = 4096 * (N + 2) := by omega
  rw [← hpages] at h
  obtain ⟨m₁, halloc, h₁, -, huser⟩ := h.alloc h₀ hd hmem
    (show 4096 * (N + 2) < kernBase by simp only [kernBase]; omega) (by omega) (by omega)
    (by rw [hpages]; exact hzero)
  rw [hmax, hpages'] at h₁
  rw [hmax] at halloc
  rw [hpages, hpages'] at huser
  obtain ⟨m₂, hclear, h₂, hguard, hother⟩ := h₁.guard (show N < N + 2 by omega) hN
  refine ⟨m₁, m₂, halloc, hclear, h₂, hguard, ?_⟩
  rw [hother (N + 1) (by omega) (by omega)]
  exact huser (N + 1) (by omega) (by omega)

theorem Laid.stackFrom (h₀ : Callable b m₀) (hd : d ∉ b.live) (hmem : d ∈ m₀.freelist)
    (hN : N + 2 ≤ 16) (hspare : 68 + N ≤ m₀.freelist.length) (h : Laid sel b d N img m₀ m)
    (hzero : ∀ a, 4096 * N ≤ a → img a = 0)
    (hlong : ∀ arg ∈ argv, arg.length + 1 ≤ 0x2000000) :
    (ArgsFit argv → ∃ esp img' m',
      m.stackFrom .plenty sel d (4096 * N) argv = .ok (some (4096 * (N + 2), esp), m') ∧
      Laid sel b d (N + 2) img' m₀ m' ∧ flagOn (entry m'.dirs d N) pteU = false ∧
      flagOn (entry m'.dirs d (N + 1)) pteU = true ∧ (∀ a < 4096 * N, img' a = img a) ∧
      Stacked argv img' (4096 * (N + 2)) esp) ∧
    (¬ ArgsFit argv → ∃ m', m.stackFrom .plenty sel d (4096 * N) argv = .ok (none, m') ∧
      Freeable d m') := by
  obtain ⟨m₁, m₂, halloc, hclear, h₂, hguard, huser⟩ := h.stack h₀ hd hmem hN hspare hzero
  have hmod : (4096 * N + 8192) % 0x100000000 = 4096 * (N + 2) := by omega
  have hstart : ∀ r, (m₂.pushStackAt d (4096 * (N + 2)) argv = .ok r →
      m.stackFrom .plenty sel d (4096 * N) argv =
        .ok (r.1.map fun sp => (4096 * (N + 2), sp), r.2)) := by
    intro r hr
    rw [Machine.stackFrom, plenty_after, hmod, halloc]
    simp only [bind, Except.bind]
    rw [if_neg (by omega), show 4096 * (N + 2) - 8192 = 4096 * N by omega, hclear]
    simp only [hr]
    rfl
  refine ⟨fun hfit => ?_, fun hfit => ?_⟩
  · obtain ⟨esp, img', m', hpush, h', hdirs, hbelow, hstacked⟩ := h₂.pushStackAt hN huser hfit
    refine ⟨esp, img', m', hstart _ hpush, h', by rw [hdirs]; exact hguard, by rw [hdirs]; exact huser,
      fun a ha => hbelow a (by omega), hstacked⟩
  · obtain ⟨m', hpush, hsame⟩ := h₂.pushStackAt_none hN huser hguard hlong hfit
    refine ⟨m', hstart _ hpush, ?_⟩
    have hdir : m₂.kend ≤ d ∧ d < phystopFrame := by
      rw [h₂.building.kend]
      exact h₀.frames.valid d hmem
    rw [hsame]
    exact (Freeable.of_tabled h₂.whole.frames h₂.tabled hdir).congr rfl rfl

/-! ### What `exec` accepts -/

theorem allocuvmFrom_result {r : ℕ}
    (hrun : m.allocuvmFrom s sel d oldsz newsz = .ok (r, m')) :
    newsz < kernBase ∧ r = max oldsz newsz ∨ r = 0 := by
  unfold allocuvmFrom at hrun
  split_ifs at hrun with hkern hless
  · cases hrun
    exact Or.inr rfl
  · cases hrun
    exact Or.inl ⟨by omega, by omega⟩
  · exact (allocLoopFrom_result _ hrun).imp_left fun hr => ⟨by omega, by omega⟩

theorem loadLoop_inFile {addr : ℕ} (count : ℕ) {j : ℕ}
    (hcount : j + count = pagesOf sz) (hpos : 0 < count)
    (hrun : loadLoop d addr ip offset sz count (4096 * j) m = .ok (true, m')) :
    offset + sz ≤ ip.size ∧ offset + sz < 0x100000000 := by
  induction count generalizing j m with
  | zero => exact absurd hpos (lt_irrefl 0)
  | succ count ih =>
    rw [loadLoop] at hrun
    split at hrun
    · cases hrun
    · dsimp only at hrun
      split at hrun
      · cases hrun
      · rename_i r hread
        split at hrun
        · rename_i hr
          rcases Nat.eq_zero_or_pos count with hz | hcpos
          · subst hr
            unfold File.readi at hread
            simp only [pagesOf] at hcount
            split_ifs at hread with hbad hshort
            · rw [Option.some.injEq] at hread
              omega
            · omega
          · exact ih (j := j + 1) (by omega) hcpos hrun
        · cases hrun

theorem loaduvm_inFile {addr : ℕ}
    (hrun : m.loaduvm d addr ip offset sz = .ok (true, m')) (hpos : 0 < sz) :
    offset + sz ≤ ip.size ∧ offset + sz < 0x100000000 := by
  unfold loaduvm at hrun
  split at hrun
  · cases hrun
  · exact loadLoop_inFile (pagesOf sz) (j := 0) (by omega) (by simp only [pagesOf]; omega) hrun

theorem loadSegmentsFrom_accepts {sz' : ℕ} (count : ℕ) {off : ℕ}
    (hrun : loadSegmentsFrom s sel ip d count off sz m = .ok (some sz', m')) :
    ∃ l, (ip.headers count off).map (List.filter fun ph => ph.type = 1) = some l ∧
      (∀ ph ∈ l, ph.Ok ip) ∧ (sz = 0 → ∀ ph, l.head? = some ph → 0 < ph.vaddr + ph.memsz) := by
  induction count generalizing off sz m with
  | zero =>
    refine ⟨[], rfl, fun ph hph => ?_, fun _ ph hph => ?_⟩
    · cases hph
    · cases hph
  | succ count ih =>
    unfold loadSegmentsFrom at hrun
    dsimp only at hrun
    split at hrun
    · cases hrun
    rename_i hread
    have hheaders : ∀ l, (ip.headers count ((off + 32) % 0x100000000)).map
        (List.filter fun ph => ph.type = 1) = some l →
        (ip.headers (count + 1) off).map (List.filter fun ph => ph.type = 1) =
          some (if (ip.progHdr off).type = 1 then ip.progHdr off :: l else l) := by
      intro l hl
      obtain ⟨all, hall, rfl⟩ := Option.map_eq_some_iff.1 hl
      rw [File.headers, if_pos (not_not.1 hread), hall]
      by_cases htype : (ip.progHdr off).type = 1
      · rw [if_pos htype]
        exact congrArg some (List.filter_cons_of_pos (by simpa using htype))
      · rw [if_neg htype]
        exact congrArg some (List.filter_cons_of_neg (by simpa using htype))
    split at hrun
    · rename_i htype
      obtain ⟨l, hl, hok, hfirst⟩ := ih hrun
      refine ⟨l, ?_, hok, hfirst⟩
      rw [hheaders l hl, if_neg htype]
    rename_i htype
    split at hrun
    · cases hrun
    rename_i hfilesz
    split at hrun
    · cases hrun
    obtain ⟨⟨sz₁, m₁⟩, halloc, hrun⟩ := Run.bind_ok hrun
    dsimp only at hrun
    split at hrun
    · cases hrun
    rename_i hsz₁
    obtain ⟨hlow, rfl⟩ := (allocuvmFrom_result halloc).resolve_right hsz₁
    split at hrun
    · cases hrun
    rename_i haligned
    obtain ⟨⟨ok, m₂⟩, hload, hrun⟩ := Run.bind_ok hrun
    cases ok with
    | false => cases hrun
    | true =>
      obtain ⟨l, hl, hok, -⟩ := ih hrun
      refine ⟨ip.progHdr off :: l, ?_, fun ph hph => ?_, fun hz ph hph => ?_⟩
      · rw [hheaders l hl, if_pos (not_not.1 htype)]
      · rcases List.mem_cons.1 hph with rfl | hph
        · exact ⟨Nat.not_lt.1 hfilesz, hlow, not_not.1 haligned, loaduvm_inFile hload⟩
        · exact hok ph hph
      · cases hph
        omega

/-! ### The call -/

theorem Stacked.congr {mem mem' : ℕ → Byte} {esp : ℕ}
    (h : Stacked argv mem sz esp) (heq : ∀ a < sz, mem' a = mem a) : Stacked argv mem' sz esp := by
  obtain ⟨addrs, hlen, hwords, hstrings, hapart⟩ := h.args
  refine ⟨h.inside, addrs, hlen, ?_, fun i arg a harg ha => ?_, hapart⟩
  · have hinside := h.inside.2
    refine hwords.congr fun x _ hx => heq x ?_
    rw [length_words] at hx
    simp only [List.length_append, List.length_cons, List.length_nil, hlen] at hx
    omega
  · obtain ⟨hat, hlo, hhi⟩ := hstrings i arg a harg ha
    refine ⟨hat.congr fun x _ hx => heq x ?_, hlo, hhi⟩
    rw [List.length_append, List.length_singleton] at hx
    omega

theorem Laid.commit (h : Laid sel b d (N + 2) img m₀ m) (c : Caller) (path : List Byte)
    (ip : File) (esp : ℕ) (hd : d ∉ b.live) (h₀ : Callable b m₀) (hold : Freeable m₀.proc.pgdir m₀)
    (hN : N + 2 ≤ 16) :
    ∃ m', m.execCommit sel path ip d (4096 * (N + 2)) esp c =
        .ok (true, { c with name := progName path, eip := ip.u32 24, esp := esp }, m') ∧
      m'.proc.sz = 4096 * (N + 2) ∧ (∀ v, m'.pte v = entry m.dirs d v) ∧
      ∀ a < 4096 * (N + 2), m'.userByte a = img a := by
  have hne : m₀.proc.pgdir ≠ d := fun hc => hd (hc ▸ h₀.live)
  have hpgdir : m.proc.pgdir = m₀.proc.pgdir := by rw [h.whole.proc]
  obtain ⟨mc, hmc⟩ : ∃ mc, mc = m.setProc (Machine.commit m.proc d (4096 * (N + 2))) := ⟨_, rfl⟩
  have hfreeable : Freeable m₀.proc.pgdir mc := by
    rw [hmc]
    exact hold.congr h.building.kend (h.building.other _ hne)
  obtain ⟨m', hfree⟩ := freevm_succeeds sel hfreeable
  have hfrees := freevm_ok hfree
  have hunnamed : Unnamed mc.proc m₀.proc.pgdir := by
    intro i hi
    subst hmc
    simp only [setProc, Machine.commit] at hi ⊢
    split_ifs at hi ⊢ with hused
    · exact hne.symm
    · exact absurd hi hused
  have hproc : m'.proc = Machine.commit m.proc d (4096 * (N + 2)) := by
    rw [hfrees.proc hunnamed, hmc]
    rfl
  have hdirs : m'.dirs d = m.dirs d := by
    rw [hfrees.other d hne.symm, hmc]
    rfl
  have hpte : ∀ v, m'.pte v = entry m.dirs d v := by
    intro v
    rw [Machine.pte, hproc]
    exact entry_congr hdirs v
  refine ⟨m', ?_, by rw [hproc]; rfl, hpte, fun a ha => ?_⟩
  · rw [execCommit, hpgdir, ← hmc, hfree]
    rfl
  · have hv : a / 4096 < N + 2 := by omega
    have hvu : a / 4096 < userPages := lt_of_lt_of_le hv (hN.trans (by decide))
    have hframes : FramesOk mc := by
      rw [hmc]
      exact h.whole.frames.congr rfl rfl rfl rfl
    have hbal : Balanced mc ⟨insert d b.live, b.outside ∪ ∅, none⟩ := by
      rw [hmc]
      exact h.building.balanced
    have hdirs_mc : mc.dirs = m.dirs := by rw [hmc]; rfl
    have hdata_mc : mc.data = m.data := by rw [hmc]; rfl
    have hpage := freevm_page hframes hbal (Finset.mem_insert_of_mem h₀.live) hne.symm hvu
      (by rw [hdirs_mc]; exact h.whole.pages _ hv) hfree
    rw [hdirs_mc, hdata_mc, h.bytes _ hv] at hpage
    rw [userByte, hpte, hpage]
    show img (4096 * (a / 4096) + a % 4096) = img a
    congr 1
    omega

theorem Callable.laid (h₀ : Callable b m₀) (hsetup : m₀.setupkvm sel = .ok (some d, m)) :
    d ∉ b.live ∧ d ∈ m₀.freelist ∧ Laid sel b d 0 (fun _ => 0) m₀ m := by
  obtain ⟨d', hmem, hd, ⟨hd', hb⟩ | ⟨hc, -⟩⟩ := (h₀.setupkvm hsetup).resolve_left fun hc => by cases hc.1
  · cases hd'
    refine ⟨hd, hmem, hb, (tabled_of_setupkvm h₀.layout h₀.frames hsetup).1, fun v hlo hhi => ?_,
      fun v hv => absurd hv (Nat.not_lt_zero v), ?_⟩
    · obtain ⟨-, -, -, htables, -⟩ := setupkvm_tables sel h₀.layout hsetup
      refine htables _ ?_
      rw [pdx_page, kernelSlots, Finset.mem_union, Finset.mem_Icc, Finset.mem_Icc]
      omega
    · have := (setupkvm_frames sel h₀.layout hsetup).1
      omega
  · cases hc

theorem execFrom_accepts {c c' : Caller} {path : List Byte}
    (hc : c.locked = false)
    (hrun : m.execFrom s sel c path (some ip) argv = .ok (true, c', m')) : ∃ l, Accepts ip l := by
  have hbad : ∀ (pgdir : Option ℕ) (m₁ : Machine),
      m₁.execBad sel pgdir true c.opened ≠ .ok (true, c', m') := by
    intro pgdir m₁ hbad
    obtain ⟨m₂, -, hbad⟩ := Run.bind_ok hbad
    obtain ⟨c₂, -, hbad⟩ := Run.bind_ok hbad
    cases hbad
  rw [execFrom, Caller.ilock_eq hc] at hrun
  obtain ⟨c₁, hc₁, hrun⟩ := Run.bind_ok hrun
  cases hc₁
  split at hrun
  · exact absurd hrun (hbad none m)
  · rename_i helf
    obtain ⟨⟨r, m₁⟩, -, hrun⟩ := Run.bind_ok hrun
    cases r with
    | none => exact absurd hrun (hbad none m₁)
    | some d =>
      obtain ⟨⟨r, m₂⟩, hsegs, hrun⟩ := Run.bind_ok hrun
      cases r with
      | none => exact absurd hrun (hbad (some d) m₂)
      | some sz =>
        obtain ⟨l, hl, hok, hfirst⟩ := loadSegmentsFrom_accepts _ hsegs
        exact ⟨l, Bool.eq_true_of_not_eq_false helf, hl, hok, hfirst rfl⟩

theorem execFrom_stack {c : Caller} (path : List Byte) (argv : List (List Byte))
    {m₁ m₂ : Machine} (hc : c.locked = false) (helf : ip.isElf = true)
    (hsetup : m.setupkvm sel = .ok (some d, m₁))
    (hsegs : loadSegmentsFrom s sel ip d (ip.u16 44) (ip.u32 28) 0 m₁ = .ok (some sz, m₂)) :
    (∀ m₃, m₂.stackFrom s sel d (pgRoundUp sz) argv = .ok (none, m₃) →
      m.execFrom s sel c path (some ip) argv = m₃.execBad sel (some d) false c) ∧
    ∀ sz' sp m₃, m₂.stackFrom s sel d (pgRoundUp sz) argv = .ok (some (sz', sp), m₃) →
      m.execFrom s sel c path (some ip) argv = m₃.execCommit sel path ip d sz' sp c := by
  refine ⟨fun m₃ hstack => ?_, fun sz' sp m₃ hstack => ?_⟩
  all_goals
    rw [execFrom, Caller.ilock_eq hc]
    simp only [bind, Except.bind]
    rw [if_neg (by rw [helf]; decide)]
    simp only [hsetup, hsegs, Caller.release_eq hc, hstack]

/-- `exec` returns 0 only for files it accepts as programs.  For those, with memory for an image of at
most `MAX_PYSC_PAGES` pages and arguments of less than 32 MB, it returns 0 with the image and the stack
it promises when the arguments fit on the stack page, and -1 when they do not. -/
theorem exec_image (sel : Selection) {c : Caller} (path : List Byte) (ip : File) (argv : List (List Byte))
    (h₀ : Callable b m) (hold : Freeable m.proc.pgdir m) (hc : c.locked = false)
    (hargs : (argv.map List.length).sum < 0x2000000) :
    (∀ c' m', m.execFrom .plenty sel c path (some ip) argv = .ok (true, c', m') → ∃ l, Accepts ip l) ∧
    ∀ l, Accepts ip l → pagesOf (segEnd l) + 2 ≤ 16 → 68 + pagesOf (segEnd l) ≤ m.freelist.length →
      (ArgsFit argv → ∃ c' m', m.execFrom .plenty sel c path (some ip) argv = .ok (true, c', m') ∧
        Promised ip l argv c' m') ∧
      (¬ ArgsFit argv → ∃ m', m.execFrom .plenty sel c path (some ip) argv = .ok (false, c, m')) := by
  refine ⟨fun c' m' hrun => execFrom_accepts hc hrun, fun l hl hN hmem => ?_⟩
  obtain ⟨d, rest, hf⟩ : ∃ d rest, m.freelist = d :: rest :=
    List.exists_cons_of_ne_nil (List.ne_nil_of_length_pos (by omega))
  have hrest : m.freelist.length = rest.length + 1 := by rw [hf, List.length_cons]
  obtain ⟨m₁, hsetup, -⟩ := setupkvm_spec sel hf (by omega) h₀.layout
  obtain ⟨hd, hfree, hstart⟩ := h₀.laid hsetup
  have hstart' : Laid sel b d (pagesOf 0) (fun _ => 0) m m₁ := hstart
  obtain ⟨m₂, hsegs, hloaded, hzero⟩ := Laid.segments h₀ hd hfree _ hl.headers hstart' (fun _ _ => rfl)
    hl.segments (fun _ => hl.first) (show pagesOf (segEnd l) ≤ 16 by omega)
    (show 66 + pagesOf (segEnd l) ≤ m.freelist.length by omega)
  replace hloaded : Laid sel b d (pagesOf (segEnd l)) (loadAll ip l fun _ => 0) m m₂ := hloaded
  have hround : pgRoundUp (segEnd l) = 4096 * pagesOf (segEnd l) := by
    refine pgRoundUp_eq ?_
    simp only [pagesOf, kernBase] at hN ⊢
    omega
  have hlong : ∀ arg ∈ argv, arg.length + 1 ≤ 0x2000000 := by
    intro arg harg
    have := List.le_sum_of_mem (List.mem_map_of_mem (f := List.length) harg)
    omega
  obtain ⟨hfits, hnot⟩ := hloaded.stackFrom h₀ hd hfree hN hmem
    (fun a ha => hzero a (by
      show segEnd l ≤ a
      simp only [pagesOf] at ha
      omega)) hlong
  rw [← hround] at hfits hnot
  obtain ⟨hbad, hgood⟩ := execFrom_stack path argv hc hl.elf hsetup hsegs
  refine ⟨fun hfit => ?_, fun hfit => ?_⟩
  · obtain ⟨esp, img, m₃, hstack, h₃, hguard, huser, hbelow, hstacked⟩ := hfits hfit
    obtain ⟨m', hcommit, hsz, hpte, hbytes⟩ := h₃.commit c path ip esp hd h₀ hold hN
    refine ⟨_, m', (hgood _ _ _ hstack).trans hcommit, hsz, fun v hv => ?_, fun a ha => ?_, ?_, ?_, ?_⟩
    · rw [Machine.Present, hpte]
      exact h₃.whole.pages v (by omega)
    · rw [hbytes a (by omega), hbelow a (by omega), loadAll_eq_segByte]
    · rw [hpte, hsz, show (4096 * (pagesOf (segEnd l) + 2) - 8192) / 4096 = pagesOf (segEnd l) by omega]
      exact hguard
    · rw [hpte, hsz, show (4096 * (pagesOf (segEnd l) + 2) - 4096) / 4096 = pagesOf (segEnd l) + 1 by omega]
      exact huser
    · rw [hsz]
      exact hstacked.congr hbytes
  · obtain ⟨m₃, hstack, hfreeable⟩ := hnot hfit
    obtain ⟨m', hfreed⟩ := freevm_succeeds sel hfreeable
    refine ⟨m', ?_⟩
    refine (hbad m₃ hstack).trans ((execBad_eq hc (some d) false m₃).trans ?_)
    show (m₃.freevm sel d).map _ = _
    rw [hfreed]
    rfl

/-- A program without segments, called with one argument, with as many frames as it takes. -/
theorem exec_image_sample : ∃ b m, Callable b m ∧ m.freelist.length = 68 ∧
    ∃ c' m', m.execFrom .plenty .SCFIFO ⟨[], 0, 0, 0, 0, false⟩ [0x61] (some emptyProgram) [[0x62, 0x63]] =
      .ok (true, c', m') ∧ Promised emptyProgram [] [[0x62, 0x63]] c' m' := by
  obtain ⟨b, m, h₀, hold, hlen⟩ := booted_callable 68 (by decide)
  have hl : Accepts emptyProgram [] := by
    refine ⟨by decide, rfl, fun ph hph => ?_, fun ph hph => ?_⟩
    · cases hph
    · cases hph
  obtain ⟨-, himage⟩ := exec_image .SCFIFO [0x61] emptyProgram [[0x62, 0x63]] h₀ hold
    (c := ⟨[], 0, 0, 0, 0, false⟩) rfl (by decide)
  have hmem : 68 + pagesOf (segEnd []) ≤ m.freelist.length := by
    rw [hlen]
    decide
  exact ⟨b, m, h₀, hlen, (himage [] hl (by decide) hmem).1 (by decide)⟩

end

end Xv6
