import Mathlib.Data.Finset.Card
import Xv6.Space

/-!
# The replacement policies

Both policies return an entry of `ram_monitor` that is in use, and change nothing but accessed bits
and queue numbers on the way (`replacePageByPolicy_spec`).  `select_SCFIFO` stops because every round
that does not return clears the accessed bit of one tracked page.  `select_LIFO` looks for a positive
queue number only, so it needs `last_in_queue` not to have wrapped.
-/

namespace Xv6

open Machine

/-- The queue numbers are such that the policy finds every used entry. -/
structure QueueOk (sel : Selection) (p : Proc) : Prop where
  le : ∀ i, (p.ramMonitor i).used → (p.ramMonitor i).placeInQueue ≤ 0x7FFFFFFF
  pos : sel = .LIFO → ∀ i, (p.ramMonitor i).used → 0 < (p.ramMonitor i).placeInQueue
  last : sel = .LIFO → 0 ≤ p.lastInQueue

/-- The fields of the running process that paging does not change. -/
structure SameId (m m' : Machine) : Prop where
  sz : m'.proc.sz = m.proc.sz
  pid : m'.proc.pid = m.proc.pid
  killed : m'.proc.killed = m.proc.killed
  pgdir : m'.proc.pgdir = m.proc.pgdir

theorem SameId.refl (m : Machine) : SameId m m := ⟨rfl, rfl, rfl, rfl⟩

theorem SameId.trans {m m' m'' : Machine} (h : SameId m m') (h' : SameId m' m'') : SameId m m'' :=
  ⟨h'.sz.trans h.sz, h'.pid.trans h.pid, h'.killed.trans h.killed,
    h'.pgdir.trans h.pgdir⟩

/-- The outcome of choosing a victim: entry `i` is in use, and the state is the same up to accessed
bits and queue numbers. -/
structure Chosen (sel : Selection) (m : Machine) (i : Fin 16) (m' : Machine) : Prop where
  view : SameView m m'
  id : SameId m m'
  freelist : m'.freelist = m.freelist
  owner : m'.owner = m.owner
  data : m'.data = m.data
  used : (m.proc.ramMonitor i).used
  queue : QueueOk sel m'.proc
  last : sel = .LIFO → m'.proc.lastInQueue = m.proc.lastInQueue

theorem incr_le (x : Int) : incr x ≤ 0x7FFFFFFF := by
  have := Int.bmod_lt (x := x + 1) (m := 0x100000000) (by decide)
  simp only [incr]
  omega

theorem incr_eq {x : Int} (h : 0 ≤ x) (hx : x + 1 ≤ 0x7FFFFFFF) : incr x = x + 1 := by
  rw [incr, Int.bmod_eq_of_le (by omega) (by omega)]

/-- A page enters the queue at its end, others keep their place or leave. -/
theorem QueueOk.enqueue {sel : Selection} {p p' : Proc} (h : QueueOk sel p)
    (hwrap : sel = .LIFO → p.lastInQueue + 1 ≤ 0x7FFFFFFF)
    (hlast : p'.lastInQueue = incr p.lastInQueue)
    (hmon : ∀ i, (p'.ramMonitor i).used → (p'.ramMonitor i).placeInQueue = incr p.lastInQueue ∨
      (p.ramMonitor i).used ∧ (p'.ramMonitor i).placeInQueue = (p.ramMonitor i).placeInQueue) :
    QueueOk sel p' := by
  refine ⟨fun i hi => ?_, fun hl i hi => ?_, fun hl => ?_⟩
  · rcases hmon i hi with e | ⟨hu, e⟩
    · rw [e]
      exact incr_le _
    · rw [e]
      exact h.le i hu
  · rcases hmon i hi with e | ⟨hu, e⟩
    · rw [e, incr_eq (h.last hl) (hwrap hl)]
      have := h.last hl
      omega
    · rw [e]
      exact h.pos hl i hu
  · rw [hlast, incr_eq (h.last hl) (hwrap hl)]
    have := h.last hl
    omega

theorem QueueOk.dequeue {sel : Selection} {p p' : Proc} (h : QueueOk sel p)
    (hlast : p'.lastInQueue = p.lastInQueue)
    (hmon : ∀ i, (p'.ramMonitor i).used →
      (p.ramMonitor i).used ∧ (p'.ramMonitor i).placeInQueue = (p.ramMonitor i).placeInQueue) :
    QueueOk sel p' := by
  refine ⟨fun i hi => ?_, fun hl i hi => ?_, fun hl => ?_⟩
  · rw [(hmon i hi).2]
    exact h.le i (hmon i hi).1
  · rw [(hmon i hi).2]
    exact h.pos hl i (hmon i hi).1
  · rw [hlast]
    exact h.last hl

/-! ### The two scans -/

namespace Proc

variable {p : Proc} {i : Fin 16}

theorem used_of_selectLIFO (h : p.selectLIFO = some i) : (p.ramMonitor i).used :=
  Scan.marked_of_best (p := fun i => (p.ramMonitor i).used) h

theorem used_of_oldest (h : p.oldest = some i) : (p.ramMonitor i).used :=
  Scan.marked_of_best (p := fun i => (p.ramMonitor i).used) h

theorem selectLIFO_isSome (hi : (p.ramMonitor i).used) (hpos : 0 < (p.ramMonitor i).placeInQueue) :
    ∃ j, p.selectLIFO = some j := by
  rw [← Option.ne_none_iff_exists']
  intro hnone
  exact Scan.not_of_best_none hnone i (List.mem_finRange i) hi hpos

theorem oldest_isSome (hi : (p.ramMonitor i).used)
    (hle : (p.ramMonitor i).placeInQueue ≤ 0x7FFFFFFF) : ∃ j, p.oldest = some j := by
  rw [← Option.ne_none_iff_exists']
  intro hnone
  exact Scan.not_of_best_none hnone i (List.mem_finRange i) hi hle

end Proc

theorem clear_pteA_pteA (pte : Pte) : flagOn (pte &&& ~~~pteA) pteA = false := by
  rw [flagOn_pteA]
  simp [pteA]

namespace Paged

variable {m : Machine} {n : ℕ} {X : Set ℕ}

theorem tracked (h : Paged m n X) {i : Fin 16} (hi : (m.proc.ramMonitor i).used) :
    (m.proc.ramMonitor i).pgdir = m.proc.pgdir ∧
      ∃ v < n, (m.proc.ramMonitor i).pVa = 4096 * v ∧ m.Present v ∧ v ∉ X :=
  ⟨h.ramDir i hi, h.ram.key_mem hi⟩

theorem walkpgdir_eq (h : Paged m n X) {v : ℕ} (hv : v < maxTotalPages) :
    m.walkpgdir m.proc.pgdir (4096 * v) = some (m.pte v) :=
  walk_eq_entry (h.hasTable hv)

end Paged

/-! ### Second chance terminates -/

/-- The used entries whose page has its accessed bit set. -/
def accessed (m : Machine) : Finset (Fin 16) :=
  {i | (m.proc.ramMonitor i).used ∧ flagOn (m.pte ((m.proc.ramMonitor i).pVa / 4096)) pteA}

/-- The state after `select_SCFIFO` gives entry `i` its second chance. -/
def secondChance (m : Machine) (i : Fin 16) : Machine :=
  let e := m.proc.ramMonitor i
  let last := incr m.proc.lastInQueue
  (m.setPte e.pgdir e.pVa (m.pte (e.pVa / 4096) &&& ~~~pteA)).setProc
    { m.proc.setRam i { e with placeInQueue := last } with lastInQueue := last }

section

variable {m : Machine} {n : ℕ} {X : Set ℕ} {i : Fin 16}

theorem secondChance_view (h : Paged m n X) (hi : (m.proc.ramMonitor i).used) :
    SameView m (secondChance m i) := by
  obtain ⟨hdir, v, hv, hva, -, -⟩ := h.tracked hi
  have hdiv : 4096 * v / 4096 = v := by omega
  refine SameView.of_dirs rfl rfl rfl ?_ rfl rfl rfl ?_ ?_ rfl (fun _ => rfl)
  · simp only [secondChance, hdir, hva, hdiv]
    exact AgreeSoft.store (h.hasTable (lt_of_lt_of_le hv h.size)) (h.lt_pages hv)
      (softBits_clear_accessed _)
  · simp only [ramTable, secondChance, setProc, Proc.setRam]
    congr 1
    all_goals
      funext j
      by_cases hj : j = i
      · subst hj
        simp
      · simp [hj]
  · intro j
    by_cases hj : j = i
    · subst hj
      simp [secondChance, setProc, Proc.setRam]
    · simp [secondChance, setProc, Proc.setRam, hj]

theorem accessed_secondChance (h : Paged m n X) (hi : (m.proc.ramMonitor i).used)
    (hA : flagOn (m.pte ((m.proc.ramMonitor i).pVa / 4096)) pteA) :
    (accessed (secondChance m i)).card < (accessed m).card := by
  have hview := secondChance_view h hi
  obtain ⟨hdir, v, hv, hva, -, -⟩ := h.tracked hi
  have hdiv : 4096 * v / 4096 = v := by omega
  have ht := h.hasTable (lt_of_lt_of_le hv h.size)
  refine Finset.card_lt_card ⟨fun j hj => ?_, fun hsub => ?_⟩
  · simp only [accessed, Finset.mem_filter, Finset.mem_univ, true_and, hview.ramUsed,
      hview.ramVa] at hj ⊢
    refine ⟨hj.1, ?_⟩
    obtain ⟨-, w, hw, hwa, -, -⟩ := h.tracked hj.1
    have hwdiv : 4096 * w / 4096 = w := by omega
    have hA' := hj.2
    rw [hwa, hwdiv] at hA' ⊢
    simp only [secondChance, Machine.pte, setProc, setPte, Proc.setRam, hdir, hva, hdiv] at hA'
    by_cases hwv : w = v
    · rw [hwv, entry_store_self ht (h.lt_pages hv), clear_pteA_pteA] at hA'
      cases hA'
    · rwa [entry_store_ne ht (h.lt_pages hv) _ (h.lt_pages hw) (fun hc => hwv hc.2)] at hA'
  · have hmem : i ∈ accessed m := by simp [accessed, hi, hA]
    have hA' := hsub hmem
    simp only [accessed, Finset.mem_filter, Finset.mem_univ, true_and, hview.ramVa] at hA'
    have hA' := hA'.2
    simp only [secondChance, Machine.pte, setProc, setPte, Proc.setRam, hdir, hva, hdiv] at hA'
    rw [entry_store_self ht (h.lt_pages hv), clear_pteA_pteA] at hA'
    cases hA'

theorem secondChance_queue (hq : QueueOk .SCFIFO m.proc) :
    QueueOk .SCFIFO (secondChance m i).proc := by
  refine ⟨fun j hj => ?_, (fun hc => by cases hc), fun hc => by cases hc⟩
  by_cases hji : j = i
  · subst hji
    simp only [secondChance, setProc, Proc.setRam, Function.update_self]
    exact incr_le _
  · simp only [secondChance, setProc, Proc.setRam, Function.update_of_ne hji] at hj ⊢
    exact hq.le j hj

end

theorem scfifoLoop_spec {n : ℕ} {X : Set ℕ} (fuel : ℕ) {m : Machine} (h : Paged m n X)
    (hq : QueueOk .SCFIFO m.proc) (hfuel : (accessed m).card < fuel)
    (hex : ∃ i, (m.proc.ramMonitor i).used) :
    ∃ i m', scfifoLoop fuel m = .ok (i, m') ∧ Chosen .SCFIFO m i m' := by
  induction fuel generalizing m with
  | zero => omega
  | succ fuel ih =>
    obtain ⟨i₀, hi₀⟩ := hex
    obtain ⟨i, hold⟩ := Proc.oldest_isSome hi₀ (hq.le i₀ hi₀)
    have hi := Proc.used_of_oldest hold
    obtain ⟨hdir, v, hv, hva, -, -⟩ := h.tracked hi
    have hdiv : 4096 * v / 4096 = v := by omega
    have hwalk : m.walkpgdir (m.proc.ramMonitor i).pgdir (m.proc.ramMonitor i).pVa =
        some (m.pte v) := by
      rw [hdir, hva]
      exact h.walkpgdir_eq (lt_of_lt_of_le hv h.size)
    by_cases hA : flagOn (m.pte v) pteA = true
    · have hstep : scfifoLoop (fuel + 1) m = scfifoLoop fuel (secondChance m i) := by
        rw [scfifoLoop]
        simp only [hold, hwalk, flagOn_pteFlags _ (show 0xFFF#32 &&& pteA = pteA by decide)]
        rw [if_pos hA, secondChance]
        simp only [hva, hdiv]
      have hview := secondChance_view h hi
      have hlt := accessed_secondChance h hi (by rw [hva, hdiv]; exact hA)
      obtain ⟨j, m', hrun, hc⟩ := ih (h.congr hview) (secondChance_queue hq) (by omega)
        ⟨i₀, by rw [hview.ramUsed]; exact hi₀⟩
      refine ⟨j, m', by rw [hstep, hrun], ?_⟩
      exact
        { view := hview.trans hc.view
          id := (show SameId m (secondChance m i) from ⟨rfl, rfl, rfl, rfl⟩).trans hc.id
          freelist := hc.freelist
          owner := hc.owner
          data := hc.data
          used := by rw [← hview.ramUsed]; exact hc.used
          queue := hc.queue
          last := fun hl => by cases hl }
    · refine ⟨i, m, ?_, ⟨SameView.refl m, SameId.refl m, rfl, rfl, rfl, hi, hq, fun _ => rfl⟩⟩
      rw [scfifoLoop]
      simp only [hold, hwalk, flagOn_pteFlags _ (show 0xFFF#32 &&& pteA = pteA by decide)]
      rw [if_neg hA]

theorem replacePageByPolicy_spec {sel : Selection} {m : Machine} {n : ℕ} {X : Set ℕ}
    (hsel : sel ≠ .NONE) (h : Paged m n X) (hq : QueueOk sel m.proc)
    (hex : ∃ i, (m.proc.ramMonitor i).used) :
    ∃ i m', m.replacePageByPolicy sel = .ok (i, m') ∧ Chosen sel m i m' := by
  cases sel with
  | LIFO =>
    obtain ⟨i₀, hi₀⟩ := hex
    obtain ⟨i, hi⟩ := Proc.selectLIFO_isSome hi₀ (hq.pos rfl i₀ hi₀)
    refine ⟨i, m, by simp [replacePageByPolicy, hi], ?_⟩
    exact ⟨SameView.refl m, SameId.refl m, rfl, rfl, rfl, Proc.used_of_selectLIFO hi, hq, fun _ => rfl⟩
  | SCFIFO =>
    have hcard : (accessed m).card ≤ 16 := by
      simpa using Finset.card_le_univ (accessed m)
    exact scfifoLoop_spec 17 h hq (by omega) hex
  | NONE => exact absurd rfl hsel

end Xv6
