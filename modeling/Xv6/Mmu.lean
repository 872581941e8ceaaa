import Mathlib.Data.Nat.Basic
import Mathlib.Tactic.IntervalCases

/-!
# Page-table entries and page arithmetic

The constants of `mmu.h` and `memlayout.h`, the bits of a page-table entry, and the two rewrites
of an entry on which paging rests: `pageOutPte` (what `page_out` stores) and `pageInPte` (what
`page_in` stores).  Every later fact about a flag or a frame number goes through the lemmas of
this file, so that no other proof looks at single bits.

A physical page frame is named by its number: frame `f` holds the bytes from `4096 * f` on.
-/

namespace Xv6

abbrev Pte := BitVec 32

/-- `KERNBASE`, the first kernel virtual address. -/
def kernBase : ℕ := 0x80000000

/-- Number of pages below `KERNBASE`. -/
def userPages : ℕ := 0x80000

/-- `PHYSTOP`, the top of physical memory, as a frame number. -/
def phystopFrame : ℕ := 0xE000

def maxPyscPages : ℕ := 16

def maxTotalPages : ℕ := 32

/-- `PGROUNDUP`, on 32-bit addresses. -/
def pgRoundUp (sz : ℕ) : ℕ := (sz + 4095) % 0x100000000 / 4096 * 4096

def pgRoundDown (a : ℕ) : ℕ := a / 4096 * 4096

/-- `PDX`, the page-directory index of an address. -/
def pdx (va : ℕ) : ℕ := va / 4194304 % 1024

/-- `PTX`, the page-table index of an address. -/
def ptx (va : ℕ) : ℕ := va / 4096 % 1024

/-- The offset of an address in its page. -/
def pageOff (va : ℕ) : Fin 4096 := ⟨va % 4096, Nat.mod_lt _ (by decide)⟩

/-- Number of pages a process of `sz` bytes covers, `PGROUNDUP(sz) / PGSIZE`. -/
def pagesOf (sz : ℕ) : ℕ := (sz + 4095) / 4096

theorem pgRoundUp_eq {sz : ℕ} (h : sz ≤ kernBase) : pgRoundUp sz = 4096 * pagesOf sz := by
  simp only [pgRoundUp, pagesOf, kernBase] at *
  omega

theorem pdx_page (v : ℕ) : pdx (4096 * v) = v / 1024 % 1024 := by
  simp only [pdx]
  omega

theorem ptx_page (v : ℕ) : ptx (4096 * v) = v % 1024 := by
  simp only [ptx]
  omega

theorem page_eq_of_indices {v w : ℕ} (hv : v < 0x100000) (hw : w < 0x100000)
    (hd : pdx (4096 * v) = pdx (4096 * w)) (ht : ptx (4096 * v) = ptx (4096 * w)) : v = w := by
  rw [pdx_page, pdx_page] at hd
  rw [ptx_page, ptx_page] at ht
  omega

/-- Present. -/
def pteP : Pte := 0x001#32

/-- Writeable. -/
def pteW : Pte := 0x002#32

/-- User. -/
def pteU : Pte := 0x004#32

/-- Accessed. -/
def pteA : Pte := 0x020#32

/-- Dirty. -/
def pteD : Pte := 0x040#32

/-- Page in disk. -/
def ptePG : Pte := 0x200#32

/-- Created by `pmalloc`. -/
def pte1 : Pte := 0x400#32

def pteAddr (pte : Pte) : Pte := pte &&& ~~~0xFFF#32

def pteFlags (pte : Pte) : Pte := pte &&& 0xFFF#32

/-- The C test `pte & flag`. -/
def flagOn (pte flag : Pte) : Bool := pte &&& flag != 0#32

/-- The frame an entry points to, `PTE_ADDR(pte) / PGSIZE`. -/
def frameOf (pte : Pte) : ℕ := pte.toNat / 4096

/-- The physical address of a frame, as the bits it occupies in an entry. -/
def paOf (f : ℕ) : Pte := BitVec.ofNat 32 (4096 * f)

/-- The entry `mappages` installs. -/
def mapPte (f : ℕ) (perm : Pte) : Pte := paOf f ||| perm ||| pteP

/-- The entry `page_out` leaves behind. -/
def pageOutPte (pte : Pte) : Pte :=
  let marked := (pte ||| ptePG) &&& ~~~pteP
  marked &&& pteFlags marked

/-- The entry `page_in` installs for a page at physical address `pa`. -/
def pageInPte (pte pa : Pte) : Pte := ((pte ||| (pteP ||| pteW ||| pteU)) &&& ~~~ptePG) ||| pa

/-- An entry without the two bits the processor sets by itself. -/
def softBits (pte : Pte) : Pte := pte &&& ~~~(pteA ||| pteD)

theorem flagOn_bit (pte : Pte) (i : ℕ) : flagOn pte (BitVec.twoPow 32 i) = pte.getLsbD i := by
  rw [flagOn, BitVec.and_twoPow]
  by_cases h : pte.getLsbD i
  · have hi : i < 32 := BitVec.lt_of_getLsbD h
    have hne : BitVec.twoPow 32 i ≠ 0#32 := by
      intro h0
      have hb := congrArg (fun x : BitVec 32 => x.getLsbD i) h0
      simp [hi] at hb
    simp [h, hne]
  · simp [h]

theorem flagOn_pteP (pte : Pte) : flagOn pte pteP = pte.getLsbD 0 := flagOn_bit pte 0

theorem flagOn_pteW (pte : Pte) : flagOn pte pteW = pte.getLsbD 1 := flagOn_bit pte 1

theorem flagOn_pteU (pte : Pte) : flagOn pte pteU = pte.getLsbD 2 := flagOn_bit pte 2

theorem flagOn_pteA (pte : Pte) : flagOn pte pteA = pte.getLsbD 5 := flagOn_bit pte 5

theorem flagOn_ptePG (pte : Pte) : flagOn pte ptePG = pte.getLsbD 9 := flagOn_bit pte 9

theorem flagOn_pte1 (pte : Pte) : flagOn pte pte1 = pte.getLsbD 10 := flagOn_bit pte 10

theorem flagOn_pteFlags (pte : Pte) {flag : Pte} (h : 0xFFF#32 &&& flag = flag) :
    flagOn (pteFlags pte) flag = flagOn pte flag := by
  rw [flagOn, pteFlags, BitVec.and_assoc, h, flagOn]

theorem pteFlags_lt (pte : Pte) : (pteFlags pte).toNat < 4096 := by
  have : (pteFlags pte).toNat ≤ 0xFFF := by
    rw [pteFlags, BitVec.toNat_and]
    exact Nat.and_le_right
  omega

theorem frameOf_eq_shift (pte : Pte) : frameOf pte = (pte >>> 12).toNat := by
  rw [BitVec.toNat_ushiftRight, Nat.shiftRight_eq_div_pow]
  rfl

theorem shift_eq_zero {flags : Pte} (h : flags.toNat < 4096) : flags >>> 12 = 0#32 := by
  apply BitVec.eq_of_toNat_eq
  rw [BitVec.toNat_ushiftRight, Nat.shiftRight_eq_div_pow]
  simpa using Nat.div_eq_of_lt h

theorem frameOf_or_flags (pte : Pte) {flags : Pte} (h : flags.toNat < 4096) :
    frameOf (pte ||| flags) = frameOf pte := by
  rw [frameOf_eq_shift, frameOf_eq_shift, BitVec.ushiftRight_or_distrib, shift_eq_zero h,
    BitVec.or_zero]

theorem frameOf_and_not (pte : Pte) {flags : Pte} (h : flags.toNat < 4096) :
    frameOf (pte &&& ~~~flags) = frameOf pte := by
  have hs : (pte &&& ~~~flags) >>> 12 = pte >>> 12 := by
    apply BitVec.eq_of_getLsbD_eq
    intro i hi
    have hz : flags.getLsbD (12 + i) = false := by
      have := congrArg (fun x : BitVec 32 => x.getLsbD i) (shift_eq_zero h)
      simpa using this
    by_cases hlt : 12 + i < 32
    · rw [BitVec.getLsbD_eq_getElem hlt] at hz
      simp [hz, hlt]
    · simp [BitVec.getLsbD_of_ge _ _ (by omega : 32 ≤ 12 + i)]
  rw [frameOf_eq_shift, frameOf_eq_shift, hs]

theorem frameOf_paOf {f : ℕ} (hf : f < 0x100000) : frameOf (paOf f) = f := by
  simp only [frameOf, paOf, BitVec.toNat_ofNat, Nat.reducePow]
  omega

theorem getLsbD_paOf (f : ℕ) {i : ℕ} (hi : i < 12) : (paOf f).getLsbD i = false := by
  have h : paOf f = BitVec.ofNat 32 f <<< 12 := by
    apply BitVec.eq_of_toNat_eq
    simp only [paOf, BitVec.toNat_ofNat, BitVec.toNat_shiftLeft, Nat.shiftLeft_eq, Nat.reducePow]
    omega
  rw [h]
  simp [hi]

theorem getElem_paOf (f : ℕ) {i : ℕ} (hi : i < 12) (h : i < 32) : (paOf f)[i] = false := by
  rw [← BitVec.getLsbD_eq_getElem, getLsbD_paOf f hi]

theorem flagOn_or (a b flag : Pte) : flagOn (a ||| b) flag = (flagOn a flag || flagOn b flag) := by
  have hd : (a ||| b) &&& flag = (a &&& flag) ||| (b &&& flag) := by
    apply BitVec.eq_of_getLsbD_eq
    intro i hi
    simp [Bool.and_or_distrib_right]
  rw [flagOn, hd, Bool.eq_iff_iff]
  simp only [bne_iff_ne, ne_eq, BitVec.or_eq_zero_iff, not_and_or, flagOn, Bool.or_eq_true]

section SoftBits

variable {x y : Pte} (h : softBits x = softBits y)

theorem getElem_of_softBits {i : ℕ} (hi : i < 32) (hm : (pteA ||| pteD).getLsbD i = false)
    (h : softBits x = softBits y) : x.getLsbD i = y.getLsbD i := by
  have := congrArg (fun z : BitVec 32 => z.getLsbD i) h
  simpa only [softBits, BitVec.getLsbD_and, BitVec.getLsbD_not, hi, hm, decide_true, Bool.not_false,
    Bool.and_true] using this

include h

theorem flagOn_pteP_congr : flagOn x pteP = flagOn y pteP := by
  rw [flagOn_pteP, flagOn_pteP, getElem_of_softBits (by decide) (by decide) h]

theorem flagOn_pteW_congr : flagOn x pteW = flagOn y pteW := by
  rw [flagOn_pteW, flagOn_pteW, getElem_of_softBits (by decide) (by decide) h]

theorem flagOn_pteU_congr : flagOn x pteU = flagOn y pteU := by
  rw [flagOn_pteU, flagOn_pteU, getElem_of_softBits (by decide) (by decide) h]

theorem flagOn_ptePG_congr : flagOn x ptePG = flagOn y ptePG := by
  rw [flagOn_ptePG, flagOn_ptePG, getElem_of_softBits (by decide) (by decide) h]

theorem flagOn_pte1_congr : flagOn x pte1 = flagOn y pte1 := by
  rw [flagOn_pte1, flagOn_pte1, getElem_of_softBits (by decide) (by decide) h]

theorem frameOf_congr : frameOf x = frameOf y := by
  have hx : frameOf (softBits x) = frameOf x := frameOf_and_not x (by decide)
  have hy : frameOf (softBits y) = frameOf y := frameOf_and_not y (by decide)
  rw [← hx, ← hy, h]

end SoftBits

theorem softBits_touch (pte : Pte) (write : Bool) :
    softBits (pte ||| (if write then pteA ||| pteD else pteA)) = softBits pte := by
  rw [softBits, softBits]
  apply BitVec.eq_of_getLsbD_eq
  intro i hi
  cases write
  · simp only [BitVec.getLsbD_and, BitVec.getLsbD_not, BitVec.getLsbD_or, hi, decide_true,
      Bool.false_eq_true, if_false]
    cases pteA.getLsbD i <;> simp
  · simp only [BitVec.getLsbD_and, BitVec.getLsbD_not, BitVec.getLsbD_or, hi, decide_true, if_true]
    cases pteA.getLsbD i <;> cases pteD.getLsbD i <;> simp

theorem softBits_clear_accessed (pte : Pte) : softBits (pte &&& ~~~pteA) = softBits pte := by
  rw [softBits, softBits]
  apply BitVec.eq_of_getLsbD_eq
  intro i hi
  simp only [BitVec.getLsbD_and, BitVec.getLsbD_not, BitVec.getLsbD_or, hi, decide_true]
  cases pteA.getLsbD i <;> simp

section Entries

variable (pte perm : Pte) {f : ℕ}

theorem mapPte_present : flagOn (mapPte f perm) pteP = true := by
  rw [flagOn_pteP]
  simp [mapPte, pteP]

theorem mapPte_user : flagOn (mapPte f perm) pteU = flagOn perm pteU := by
  rw [flagOn_pteU, flagOn_pteU]
  simp [mapPte, pteP, getElem_paOf]

theorem mapPte_writable : flagOn (mapPte f perm) pteW = flagOn perm pteW := by
  rw [flagOn_pteW, flagOn_pteW]
  simp [mapPte, pteP, getElem_paOf]

theorem mapPte_pagedOut : flagOn (mapPte f perm) ptePG = flagOn perm ptePG := by
  rw [flagOn_ptePG, flagOn_ptePG]
  simp [mapPte, pteP, getElem_paOf]

theorem mapPte_pmalloc : flagOn (mapPte f perm) pte1 = flagOn perm pte1 := by
  rw [flagOn_pte1, flagOn_pte1]
  simp [mapPte, pteP, getElem_paOf]

theorem frameOf_mapPte (hf : f < 0x100000) (hp : perm.toNat < 4096) :
    frameOf (mapPte f perm) = f := by
  rw [mapPte, frameOf_or_flags _ (by decide), frameOf_or_flags _ hp, frameOf_paOf hf]

theorem pageOutPte_present : flagOn (pageOutPte pte) pteP = false := by
  rw [flagOn_pteP]
  simp [pageOutPte, pteP]

theorem pageOutPte_pagedOut : flagOn (pageOutPte pte) ptePG = true := by
  rw [flagOn_ptePG]
  simp [pageOutPte, pteFlags, pteP, ptePG]

theorem pageOutPte_writable : flagOn (pageOutPte pte) pteW = flagOn pte pteW := by
  rw [flagOn_pteW, flagOn_pteW]
  simp [pageOutPte, pteFlags, pteP, ptePG]

theorem pageOutPte_user : flagOn (pageOutPte pte) pteU = flagOn pte pteU := by
  rw [flagOn_pteU, flagOn_pteU]
  simp [pageOutPte, pteFlags, pteP, ptePG]

theorem pageOutPte_pmalloc : flagOn (pageOutPte pte) pte1 = flagOn pte pte1 := by
  rw [flagOn_pte1, flagOn_pte1]
  simp [pageOutPte, pteFlags, pteP, ptePG]

theorem frameOf_pageOutPte : frameOf (pageOutPte pte) = 0 := by
  have h : pageOutPte pte >>> 12 = 0#32 := by
    apply BitVec.eq_of_getLsbD_eq
    intro i hi
    have hm : (0xFFF#32).getLsbD (12 + i) = false := by
      interval_cases i <;> rfl
    simp [pageOutPte, pteFlags, hm]
  rw [frameOf_eq_shift, h]
  rfl

theorem pageInPte_present (pa : Pte) : flagOn (pageInPte pte pa) pteP = true := by
  rw [flagOn_pteP]
  simp [pageInPte, pteP, ptePG]

theorem pageInPte_writable (pa : Pte) : flagOn (pageInPte pte pa) pteW = true := by
  rw [flagOn_pteW]
  simp [pageInPte, pteP, pteW, ptePG]

theorem pageInPte_user (pa : Pte) : flagOn (pageInPte pte pa) pteU = true := by
  rw [flagOn_pteU]
  simp [pageInPte, pteP, pteW, pteU, ptePG]

theorem pageInPte_pagedOut : flagOn (pageInPte pte (paOf f)) ptePG = false := by
  rw [flagOn_ptePG]
  simp [pageInPte, ptePG, getElem_paOf]

theorem pageInPte_pmalloc : flagOn (pageInPte pte (paOf f)) pte1 = flagOn pte pte1 := by
  rw [flagOn_pte1, flagOn_pte1]
  simp [pageInPte, pteP, pteW, pteU, ptePG, getElem_paOf]

/-- `page_in` ors the new address in, which is the new frame only over an entry whose address
bits were cleared before. -/
theorem frameOf_pageInPte (hz : frameOf pte = 0) (hf : f < 0x100000) :
    frameOf (pageInPte pte (paOf f)) = f := by
  have hbase : frameOf ((pte ||| (pteP ||| pteW ||| pteU)) &&& ~~~ptePG) = 0 := by
    rw [frameOf_and_not _ (by decide), frameOf_or_flags _ (by decide), hz]
  have hshift : ((pte ||| (pteP ||| pteW ||| pteU)) &&& ~~~ptePG) >>> 12 = 0#32 := by
    apply BitVec.eq_of_toNat_eq
    rw [← frameOf_eq_shift, hbase]
    rfl
  rw [frameOf_eq_shift, pageInPte, BitVec.ushiftRight_or_distrib, hshift, BitVec.zero_or,
    ← frameOf_eq_shift, frameOf_paOf hf]

end Entries

end Xv6
