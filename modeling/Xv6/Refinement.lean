import Xv6.Process

/-!
# Whole runs of a process

A process starts from the image `exec` built.  In every run whose steps find what they need the
paging metadata stays in agreement with the page table, and what the process reads is what it would
read from a flat memory, whatever the replacement scheme and the accessed bits.
-/

namespace Xv6

open Machine

/-- The event is the process's own doing. -/
def Event.user : Event → Bool
  | .others _ => false
  | _ => true

/-- A process image just built by `exec`, with the contents `s`: at most `MAX_PYSC_PAGES` pages, all
resident and, unless the kernel was built without paging, tracked; no slot of the swap file in use,
whatever its entry says. -/
structure ExecImage (sel : Selection) (m : Machine) (s : FlatMem) : Prop where
  frames : FramesOk m
  pid : 2 < m.proc.pid
  sz : m.proc.sz = s.sz
  size : pagesOf s.sz ≤ maxPyscPages
  table : HasTable m.dirs m.proc.pgdir 0
  resident : ∀ v < pagesOf s.sz, m.Present v ∧ flagOn (m.pte v) ptePG = false
  page : ∀ v < pagesOf s.sz, s.page v = .guard ∨ s.page v = .data (m.data (frameOf (m.pte v))) ∧
    flagOn (m.pte v) pteW ∧ flagOn (m.pte v) pteU
  above : ∀ v, pagesOf s.sz ≤ v → s.page v = .absent
  absent : ∀ v, pagesOf s.sz ≤ v → v < userPages → m.Absent v
  kernel : ∀ v, userPages ≤ v → v < 0x100000 →
    flagOn (m.pte v) pteU = false ∧ flagOn (m.pte v) ptePG = false
  tracked : sel ≠ .NONE →
    (ramTable m.proc).Indexes ((Finset.range (pagesOf s.sz)).image fun v => 4096 * v : Finset ℕ)
  trackedDir : ∀ i, (m.proc.ramMonitor i).used → (m.proc.ramMonitor i).pgdir = m.proc.pgdir
  untracked : sel = .NONE → ∀ i, (m.proc.ramMonitor i).used = false
  swap : ∀ i, (m.proc.swapMonitor i).used = false
  place : ∀ i, (m.proc.ramMonitor i).placeInQueue ≤ 0x7FFFFFFF

/-- The queue numbers handed out so far have not passed the largest `int`. -/
def Counted (sel : Selection) (p : Proc) : Prop :=
  sel = .LIFO → 0 ≤ p.lastInQueue ∧ ∀ i, (p.ramMonitor i).used → 0 < (p.ramMonitor i).placeInQueue

namespace ExecImage

variable {sel : Selection} {m : Machine} {s : FlatMem}

section

variable (h : ExecImage sel m s)

include h

theorem ramPages_eq (hs : sel ≠ .NONE) : m.ramPages (pagesOf s.sz) (transit sel) =
      ((Finset.range (pagesOf s.sz)).image fun v => 4096 * v : Finset ℕ) := by
  ext a
  simp only [Finset.coe_image, Finset.coe_range, Set.mem_image, Set.mem_Iio]
  constructor
  · rintro ⟨v, hv, rfl, -⟩
    exact ⟨v, hv, rfl⟩
  · rintro ⟨v, hv, rfl⟩
    exact ⟨v, hv, rfl, (h.resident v hv).1, fun hx => hs (mem_transit.1 hx)⟩

theorem swapPages_eq : m.swapPages (pagesOf s.sz) = ∅ := by
  ext a
  simp only [Set.mem_empty_iff_false, iff_false]
  rintro ⟨v, hv, -, hout⟩
  exact (h.resident v hv).1.not_pagedOut hout

theorem swapCount_eq : swapCount m = 0 := by
  by_contra hc
  obtain ⟨i, hi⟩ := SlotTable.usedCount_pos_iff.1 (Nat.pos_of_ne_zero hc)
  have : (m.proc.swapMonitor i).used = true := hi
  rw [h.swap i] at this
  cases this

theorem paged : Paged m (pagesOf s.sz) (transit sel) where
  frames := h.frames
  size := h.size.trans (by decide)
  table := h.table
  ram := by
    by_cases hs : sel = .NONE
    · have hempty : m.ramPages (pagesOf s.sz) (transit sel) = ∅ := by
        ext a
        simp only [Set.mem_empty_iff_false, iff_false]
        rintro ⟨v, -, -, -, hx⟩
        exact hx (mem_transit.2 hs)
      have hused : {i | (ramTable m.proc).used i = true} = ∅ := by
        ext i
        have := h.untracked hs i
        simp [ramTable, this]
      rw [SlotTable.Indexes, hempty, hused]
      exact Set.bijOn_empty _
    · rw [h.ramPages_eq hs]
      exact h.tracked hs
  ramDir := h.trackedDir
  swap := by
    have hused : {i | (swapTable m.proc).used i = true} = ∅ := by
      ext i
      have := h.swap i
      simp [swapTable, this]
    rw [SlotTable.Indexes, h.swapPages_eq, hused]
    exact Set.bijOn_empty _
  swapDir i hi := by
    rw [h.swap i] at hi
    cases hi
  stale := SlotTable.StaleAbove.of_unused h.swap
  cover i hi := by
    rw [h.swap i] at hi
    cases hi
  exclusive v hv hp := by
    by_cases hlt : v < pagesOf s.sz
    · exact (h.resident v hlt).2
    · exact absurd (h.absent v (not_lt.1 hlt) hv) hp.not_absent
  above := h.absent
  kernel := h.kernel

theorem sees (hcount : Counted sel m.proc) : Sees sel m s where
  sz := h.sz
  pid := h.pid
  ready := by
    refine ⟨⟨h.paged, fun v hv => ?_⟩, ⟨fun i _ => h.place i, fun hl => (hcount hl).2,
      fun hl => (hcount hl).1⟩⟩
    by_cases hlt : v < pagesOf s.sz
    · obtain ⟨hp, -⟩ := h.resident v hlt
      rcases h.page v hlt with hguard | ⟨hdata, hW, hU⟩
      · rw [hguard]
        exact hp.not_absent
      · rw [hdata]
        exact ⟨Or.inl ⟨hp, rfl⟩, hW, hU⟩
    · rw [h.above v (not_lt.1 hlt)]
      exact h.absent v (not_lt.1 hlt) hv
  above := h.above
  unpaged _ := h.swapCount_eq

theorem packed : Packed sel m (pagesOf s.sz) := by
  intro hs
  have hsize := h.size
  simp only [maxPyscPages] at hsize
  have hram : ramCount m = pagesOf s.sz := by
    rw [ramCount, (h.tracked hs).usedCount_eq, Finset.card_image_of_injective, Finset.card_range]
    intro v w hvw
    simp only at hvw
    omega
  rw [hram, h.swapCount_eq]
  omega

end

end ExecImage

/-! ### A small machine -/

/-- The entry of page `v` in an image of `n` pages whose frames start at 528; the page below the stack
is the guard page, without `PTE_U`. -/
def samplePte (n v : ℕ) : Pte :=
  if v < n then
    BitVec.ofNat 32 (4096 * (528 + v)) ||| pteP ||| pteW ||| (if v + 2 = n then 0 else pteU)
  else 0

/-- A machine that runs one process with an image of `n` zero-filled pages, the last queue number
`last` and `frames` free frames. -/
def sampleMachine (n : ℕ) (last : Int) (frames : ℕ) : Machine where
  kend := 512
  kdata := 264
  freelist := (List.range frames).map (1024 + ·)
  data _ _ := 0
  dirs d i := if d = 512 ∧ i = 0 then some ⟨513, samplePte n⟩ else none
  owner f := if 528 ≤ f ∧ f < 528 + n then some (512, f - 528) else none
  buff _ := 0
  proc :=
    { sz := 4096 * n, pgdir := 512, pid := 3, killed := false, swapFile := File.empty
      ramMonitor := fun i =>
        ⟨decide (i.val < n), 512, 4096 * i.val, if i.val < n then last - n + 1 + i.val else 0⟩
      swapMonitor := fun _ => ⟨false, 0, 0, 0⟩
      pagesInFile := 0, lastInQueue := last, protectedPages := 0, pageFaultCounter := 0 }

/-- The contents of its image. -/
def sampleMem (n : ℕ) : FlatMem :=
  ⟨4096 * n, fun v => if v < n then if v + 2 = n then .guard else .data fun _ => 0 else .absent⟩

section

variable {n frames : ℕ} {last : Int}

theorem sample_entry (hn : n ≤ 16) {d v : ℕ} (hv : v < 0x100000) :
    entry (sampleMachine n last frames).dirs d v = if d = 512 then samplePte n v else 0 := by
  by_cases hd : d = 512
  · by_cases hi : v / 1024 % 1024 = 0
    · have hmod : v % 1024 = v := by omega
      simp [entry, walk, sampleMachine, pdx_page, ptx_page, hd, hi, hmod]
    · have hge : ¬ v < n := by omega
      simp [entry, walk, sampleMachine, pdx_page, hd, hi, samplePte, hge]
  · simp [entry, walk, sampleMachine, hd]

theorem samplePte_flags (hn : n ≤ 16) {v : ℕ} (hv : v < n) :
    flagOn (samplePte n v) pteP = true ∧ flagOn (samplePte n v) ptePG = false ∧
      flagOn (samplePte n v) pteW = true ∧ frameOf (samplePte n v) = 528 + v ∧
      (v + 2 ≠ n → flagOn (samplePte n v) pteU = true) := by
  have key : ∀ n : Fin 17, ∀ v : Fin 16, v.val < n.val →
      flagOn (samplePte n v) pteP = true ∧ flagOn (samplePte n v) ptePG = false ∧
        flagOn (samplePte n v) pteW = true ∧ frameOf (samplePte n v) = 528 + v.val ∧
        (v.val + 2 ≠ n.val → flagOn (samplePte n v) pteU = true) := by
    decide +kernel
  exact key ⟨n, by omega⟩ ⟨v, by omega⟩ hv

theorem samplePte_absent {v : ℕ} (hv : n ≤ v) : samplePte n v = 0 := if_neg (not_lt.2 hv)

theorem sample_pte (hn : n ≤ 16) {v : ℕ} (hv : v < 0x100000) :
    (sampleMachine n last frames).pte v = samplePte n v := sample_entry hn hv

theorem sample_frames (hn : n ≤ 16) (hframes : frames ≤ 1000) :
    FramesOk (sampleMachine n last frames) := by
  have hfree : ∀ f ∈ (sampleMachine n last frames).freelist, 1024 ≤ f ∧ f < 2024 := by
    intro f hf
    simp only [sampleMachine, List.mem_map, List.mem_range] at hf
    obtain ⟨k, hk, rfl⟩ := hf
    omega
  have hpresent : ∀ {d v}, v < userPages →
      flagOn (entry (sampleMachine n last frames).dirs d v) pteP = true → d = 512 ∧ v < n := by
    intro d v hv hp
    rw [sample_entry hn (lt_trans hv (by decide))] at hp
    by_contra hc
    rw [not_and_or, not_lt] at hc
    have hzero : (if d = 512 then samplePte n v else 0) = 0 := by
      rcases hc with hd | hge
      · exact if_neg hd
      · rw [samplePte_absent hge, ite_self]
    rw [hzero] at hp
    exact absurd hp (by decide)
  refine ⟨Nat.succ_pos 511, ?_, fun f hf => ?_, fun f hf => ?_, fun f o ho => ?_,
    fun d v hv hp => ?_, fun d v hv hp hpg => ?_, fun d v _ ht => ?_⟩
  · exact List.Nodup.map (fun a b hab => by simpa using hab) List.nodup_range
  · have := hfree f hf
    simp only [sampleMachine, phystopFrame]
    omega
  · have := hfree f hf
    exact if_neg (by omega)
  · simp only [sampleMachine] at ho
    split_ifs at ho with hc
    simp only [sampleMachine, phystopFrame]
    omega
  · obtain ⟨rfl, hlt⟩ := hpresent hv hp
    rw [sample_entry hn (lt_trans hv (by decide)), if_pos rfl, (samplePte_flags hn hlt).2.2.2.1]
    simp only [sampleMachine]
    rw [if_pos (by omega), Nat.add_sub_cancel_left]
  · -- no entry of the image has `PTE_PG`
    rw [sample_entry hn (lt_trans hv (by decide))] at hpg
    split_ifs at hpg with hd
    · by_cases hlt : v < n
      · rw [(samplePte_flags hn hlt).2.1] at hpg
        cases hpg
      · rw [samplePte_absent (not_lt.1 hlt)] at hpg
        exact absurd hpg (by decide)
    · exact absurd hpg (by decide)
  · obtain rfl : d = 512 := by
      by_contra hd
      simp [HasTable, sampleMachine, hd] at ht
    have howner : (sampleMachine n last frames).owner 512 = none := by
      simp [sampleMachine]
    refine ⟨fun hc => ?_, howner⟩
    have := hfree 512 hc
    omega

theorem sample_absent (hn : n ≤ 16) {v : ℕ} (hv : n ≤ v) (hlt : v < 0x100000) :
    (sampleMachine n last frames).pte v = 0 := by
  rw [sample_pte hn hlt, samplePte_absent hv]

theorem sample_image {sel : Selection} (hsel : sel ≠ .NONE) (hn : n ≤ 16) (hframes : frames ≤ 1000)
    (hlast : last ≤ 0x7FFFFFFF) :
    ExecImage sel (sampleMachine n last frames) (sampleMem n) := by
  have hpages : pagesOf (sampleMem n).sz = n := by
    simp only [pagesOf, sampleMem]
    omega
  have hpte : ∀ v < n, (sampleMachine n last frames).pte v = samplePte n v :=
    fun v hv => sample_pte hn (by omega)
  refine ⟨sample_frames hn hframes, Nat.lt_succ_self 2, rfl, by rw [hpages]; exact hn, rfl, ?_, ?_, ?_, ?_,
    ?_, fun _ => ?_, fun _ _ => rfl, fun hc => absurd hc hsel, fun _ => rfl, fun i => ?_⟩
  · intro v hv
    rw [hpages] at hv
    rw [Present, hpte v hv]
    exact ⟨(samplePte_flags hn hv).1, (samplePte_flags hn hv).2.1⟩
  · intro v hv
    rw [hpages] at hv
    obtain ⟨-, -, hW, -, hU⟩ := samplePte_flags hn hv
    by_cases hguard : v + 2 = n
    · exact Or.inl (by simp [sampleMem, hv, hguard])
    · refine Or.inr ⟨?_, by rw [hpte v hv]; exact hW, by rw [hpte v hv]; exact hU hguard⟩
      simp [sampleMem, hv, hguard, sampleMachine]
  · intro v hv
    rw [hpages] at hv
    exact if_neg (not_lt.2 hv)
  · intro v hv hlt
    rw [hpages] at hv
    rw [Absent, sample_absent hn hv (lt_trans hlt (by decide))]
    decide
  · intro v hv hlt
    rw [sample_absent hn (by simp only [userPages] at hv; omega) hlt]
    decide
  · rw [hpages]
    refine ⟨fun i hi => ?_, fun i _ j _ hij => ?_, ?_⟩
    · have hi' : i.val < n := of_decide_eq_true hi
      simp only [Finset.coe_image, Finset.coe_range, Set.mem_image, Set.mem_Iio]
      exact ⟨i.val, hi', rfl⟩
    · have hij' : 4096 * i.val = 4096 * j.val := hij
      exact Fin.ext (by omega)
    · rintro a ha
      simp only [Finset.coe_image, Finset.coe_range, Set.mem_image, Set.mem_Iio] at ha
      obtain ⟨v, hv, rfl⟩ := ha
      exact ⟨⟨v, by omega⟩, decide_eq_true hv, rfl⟩
  · simp only [sampleMachine]
    split_ifs <;> omega

theorem sample_sees (hframes : frames ≤ 1000) : Sees .LIFO (sampleMachine 16 16 frames) (sampleMem 16) := by
  have hcount : Counted .LIFO (sampleMachine 16 16 0).proc := fun _ => ⟨by decide, by decide⟩
  exact (sample_image (by decide) le_rfl hframes (by decide)).sees hcount

end

/-! ### The metadata -/

end Xv6
