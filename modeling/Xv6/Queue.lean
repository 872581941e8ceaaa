import Xv6.System

/-!
# Queue numbers as load order

`place_in_queue` is taken from the counter `last_in_queue`, which only `add2ram`,
`read_page_from_disk` and the second chance of `select_SCFIFO` advance.  As long as the counter does
not wrap, the numbers of the used entries are the order in which their pages were loaded, in every
process of every run, and `select_LIFO` returns the entry that was loaded last.
-/

namespace Xv6

open Machine

/-- The counter has not reached its last value.  A negative value has wrapped past it. -/
def QueueRoom (p : Proc) : Prop := 0 ≤ p.lastInQueue ∧ p.lastInQueue < 0x7FFFFFFF

/-- The used entries have different numbers between 1 and `last_in_queue`. -/
structure LoadOrder (p : Proc) : Prop where
  range : ∀ i, (p.ramMonitor i).used →
    1 ≤ (p.ramMonitor i).placeInQueue ∧ (p.ramMonitor i).placeInQueue ≤ p.lastInQueue
  distinct : ∀ i j, (p.ramMonitor i).used → (p.ramMonitor j).used →
    (p.ramMonitor i).placeInQueue = (p.ramMonitor j).placeInQueue → i = j

/-- No page was loaded or got a second chance; entries may have been given up. -/
structure Unmoved (p p' : Proc) : Prop where
  last : p'.lastInQueue = p.lastInQueue
  kept : ∀ i, (p'.ramMonitor i).used → (p.ramMonitor i).used ∧
    (p'.ramMonitor i).placeInQueue = (p.ramMonitor i).placeInQueue

/-- The entries into which pages were loaded on the way to `p`, the latest first. -/
inductive History (sel : Selection) : List (Fin 16) → Proc → Prop
  | start {p : Proc} (h : ∀ i, (p.ramMonitor i).used = false) : History sel [] p
  | move {loads : List (Fin 16)} {p p' : Proc} (h : History sel loads p) (hmove : Unmoved p p') :
      History sel loads p'
  | load {loads : List (Fin 16)} {p : Proc} (h : History sel loads p) (hroom : QueueRoom p)
      (i : Fin 16) (e : PMonitor) : History sel (i :: loads) (p.enqueue i e)
  | requeue {loads : List (Fin 16)} {p : Proc} (h : History sel loads p) (hroom : QueueRoom p)
      (hsel : sel = .SCFIFO) (i : Fin 16) : History sel loads (p.enqueue i (p.ramMonitor i))

section

variable {sel : Selection} {p p' : Proc} {loads : List (Fin 16)} {i j : Fin 16}

/-! ### One move -/

theorem LoadOrder.move (h : LoadOrder p) (hmove : Unmoved p p') : LoadOrder p' := by
  refine ⟨fun i hi => ?_, fun i j hi hj heq => ?_⟩
  · obtain ⟨hu, hplace⟩ := hmove.kept i hi
    rw [hplace, hmove.last]
    exact h.range i hu
  · obtain ⟨hu, hplace⟩ := hmove.kept i hi
    obtain ⟨hu', hplace'⟩ := hmove.kept j hj
    rw [hplace, hplace'] at heq
    exact h.distinct i j hu hu' heq

theorem enqueue_self (p : Proc) (i : Fin 16) (e : PMonitor) :
    (p.enqueue i e).ramMonitor i = { e with placeInQueue := incr p.lastInQueue } := by
  simp [Proc.enqueue, Proc.setRam]

theorem enqueue_ne (p : Proc) (e : PMonitor) (hj : j ≠ i) :
    (p.enqueue i e).ramMonitor j = p.ramMonitor j := by
  simp [Proc.enqueue, Proc.setRam, hj]

theorem incr_room (h : QueueRoom p) : incr p.lastInQueue = p.lastInQueue + 1 := by
  obtain ⟨hlo, hhi⟩ := h
  exact incr_eq hlo (by omega)

theorem LoadOrder.enqueue_largest (h : LoadOrder p) (hroom : QueueRoom p)
    (e : PMonitor) (hj : j ≠ i) (hu : ((p.enqueue i e).ramMonitor j).used) :
    ((p.enqueue i e).ramMonitor j).placeInQueue < ((p.enqueue i e).ramMonitor i).placeInQueue := by
  rw [enqueue_ne p e hj] at hu ⊢
  rw [enqueue_self, incr_room hroom]
  have := (h.range j hu).2
  show _ < p.lastInQueue + 1
  omega

theorem LoadOrder.enqueue (h : LoadOrder p) (hroom : QueueRoom p) (i : Fin 16) (e : PMonitor) :
    LoadOrder (p.enqueue i e) := by
  have hlast : (p.enqueue i e).lastInQueue = p.lastInQueue + 1 := incr_room hroom
  refine ⟨fun j hj => ?_, fun j k hj hk heq => ?_⟩
  · rw [hlast]
    by_cases hji : j = i
    · subst hji
      rw [enqueue_self, incr_room hroom]
      have := hroom.1
      show 1 ≤ p.lastInQueue + 1 ∧ p.lastInQueue + 1 ≤ p.lastInQueue + 1
      omega
    · rw [enqueue_ne p e hji] at hj ⊢
      have := h.range j hj
      omega
  · by_cases hji : j = i
    · by_cases hki : k = i
      · rw [hji, hki]
      · subst hji
        exact absurd heq (h.enqueue_largest hroom e hki hk).ne'
    · by_cases hki : k = i
      · subst hki
        exact absurd heq (h.enqueue_largest hroom e hji hj).ne
      · rw [enqueue_ne p e hji] at hj heq
        rw [enqueue_ne p e hki] at hk heq
        exact h.distinct j k hj hk heq

/-! ### Histories -/

theorem History.order (h : History sel loads p) : LoadOrder p := by
  induction h with
  | start h =>
    refine ⟨fun i hi => ?_, fun i j hi => ?_⟩
    · rw [h i] at hi
      cases hi
    · rw [h i] at hi
      cases hi
  | move _ hmove ih => exact ih.move hmove
  | load _ hroom i e ih => exact ih.enqueue hroom i e
  | requeue _ hroom _ i ih => exact ih.enqueue hroom i _

/-- Used entries were loaded, and without second chances a later load means a larger number. -/
structure Newest (loads : List (Fin 16)) (p : Proc) : Prop where
  mem : ∀ i, (p.ramMonitor i).used → i ∈ loads
  lt : ∀ i j, (p.ramMonitor i).used → (p.ramMonitor j).used → loads.idxOf i < loads.idxOf j →
    (p.ramMonitor j).placeInQueue < (p.ramMonitor i).placeInQueue

theorem Newest.load (h : Newest loads p) (hp : LoadOrder p) (hroom : QueueRoom p) (i : Fin 16)
    (e : PMonitor) : Newest (i :: loads) (p.enqueue i e) := by
  refine ⟨fun j hj => ?_, fun j k hj hk hidx => ?_⟩
  · by_cases hji : j = i
    · exact hji ▸ List.mem_cons_self
    · rw [enqueue_ne p e hji] at hj
      exact List.mem_cons_of_mem i (h.mem j hj)
  · by_cases hki : k = i
    · subst hki
      rw [List.idxOf_cons_self] at hidx
      exact absurd hidx (Nat.not_lt_zero _)
    · by_cases hji : j = i
      · subst hji
        exact hp.enqueue_largest hroom e hki hk
      · rw [List.idxOf_cons_ne _ (Ne.symm hji), List.idxOf_cons_ne _ (Ne.symm hki)] at hidx
        rw [enqueue_ne p e hji] at hj ⊢
        rw [enqueue_ne p e hki] at hk ⊢
        exact h.lt j k hj hk (Nat.lt_of_succ_lt_succ hidx)

theorem History.newest (hsel : sel ≠ .SCFIFO) (h : History sel loads p) : Newest loads p := by
  induction h with
  | start h =>
    refine ⟨fun i hi => ?_, fun i j hi => ?_⟩
    · rw [h i] at hi
      cases hi
    · rw [h i] at hi
      cases hi
  | move _ hmove ih =>
    refine ⟨fun i hi => ih.mem i (hmove.kept i hi).1, fun i j hi hj hidx => ?_⟩
    obtain ⟨hu, hplace⟩ := hmove.kept i hi
    obtain ⟨hu', hplace'⟩ := hmove.kept j hj
    rw [hplace, hplace']
    exact ih.lt i j hu hu' hidx
  | load h hroom i e ih => exact ih.load h.order hroom i e
  | requeue _ _ hsel' => exact absurd hsel' hsel

theorem Newest.first (h : Newest loads p)
    (hi : loads.find? (fun k => (p.ramMonitor k).used) = some i) (hj : (p.ramMonitor j).used)
    (hne : j ≠ i) : loads.idxOf i < loads.idxOf j := by
  obtain ⟨hu, front, back, rfl, hfront⟩ := List.find?_eq_some_iff_append.1 hi
  have hnot : ∀ k, (p.ramMonitor k).used → k ∉ front := by
    intro k hk hmem
    have := hfront k hmem
    rw [hk] at this
    cases this
  rw [List.idxOf_append_of_notMem (hnot i hu), List.idxOf_append_of_notMem (hnot j hj),
    List.idxOf_cons_self, List.idxOf_cons_ne _ (Ne.symm hne)]
  omega

theorem History.selectLIFO (hsel : sel ≠ .SCFIFO) (h : History sel loads p) :
    p.selectLIFO = loads.find? fun i => (p.ramMonitor i).used := by
  have hnew := h.newest hsel
  cases hfind : loads.find? fun i => (p.ramMonitor i).used with
  | none =>
    cases hs : p.selectLIFO with
    | none => rfl
    | some i =>
      have hu := Proc.used_of_selectLIFO hs
      exact absurd hu (List.find?_eq_none.1 hfind i (hnew.mem i hu))
  | some i =>
    have hu : (p.ramMonitor i).used := List.find?_some (p := fun i => (p.ramMonitor i).used) hfind
    obtain ⟨j, hj⟩ := Proc.selectLIFO_isSome hu (by have := (h.order.range i hu).1; omega)
    rw [hj]
    by_contra hne
    have hji : j ≠ i := fun hc => hne (congrArg some hc)
    have hlt := hnew.lt i j hu (Proc.used_of_selectLIFO hj)
      (hnew.first hfind (Proc.used_of_selectLIFO hj) hji)
    refine Scan.not_better_of_best (R := fun place last : Int => last < place)
      (p := fun i => (p.ramMonitor i).used) (fun x => lt_irrefl x) (fun x y z hxy hzy hzx => ?_) hj i
      (List.mem_finRange i) hu hlt
    exact hzy (lt_trans hxy hzx)

/-! ### Sequences of moves -/

/-- `p` became `p'` with at most `n` loads and second chances; unless the counter wrapped, a history of
`p` goes on to one of `p'`. -/
def Evolves (sel : Selection) (n : ℕ) (p p' : Proc) : Prop :=
  ∃ k ≤ n, p'.lastInQueue = incr^[k] p.lastInQueue ∧
    (0 ≤ p.lastInQueue → p.lastInQueue + k ≤ 0x7FFFFFFF →
      ∀ loads, History sel loads p → ∃ loads', History sel loads' p')

theorem incr_iterate {x : Int} (hx : 0 ≤ x) {k : ℕ} (hk : x + k ≤ 0x7FFFFFFF) :
    incr^[k] x = x + k := by
  induction k with
  | zero => simp
  | succ k ih =>
    rw [Function.iterate_succ_apply', ih (by omega), incr_eq (by omega) (by omega)]
    omega

/-- A counter that passed its last value is negative for the next `2 ^ 31` steps. -/
theorem incr_iterate_wrapped {x : Int} (hx : 0 ≤ x) (hmax : x ≤ 0x7FFFFFFF) {k : ℕ}
    (hk : 0x7FFFFFFF < x + k) (hlt : k ≤ 0x7FFFFFFF) : incr^[k] x = x + k - 0x100000000 := by
  induction k with
  | zero => omega
  | succ k ih =>
    rw [Function.iterate_succ_apply']
    by_cases hle : x + k ≤ 0x7FFFFFFF
    · have hlast : x + k = 0x7FFFFFFF := by omega
      rw [incr_iterate hx hle, hlast]
      have : incr 0x7FFFFFFF = -0x80000000 := by decide
      omega
    · rw [ih (by omega) (by omega), incr, Int.bmod_eq_of_le (by omega) (by omega)]
      omega

namespace Evolves

variable {n k : ℕ} {p'' : Proc}

theorem of_unmoved (h : Unmoved p p') : Evolves sel n p p' :=
  ⟨0, Nat.zero_le n, h.last, fun _ _ loads hl => ⟨loads, hl.move h⟩⟩

theorem trans {j : ℕ} (h : Evolves sel n p p') (h' : Evolves sel k p' p'') (hj : n + k ≤ j) :
    Evolves sel j p p'' := by
  obtain ⟨a, ha, hlast, hist⟩ := h
  obtain ⟨b, hb, hlast', hist'⟩ := h'
  refine ⟨b + a, by omega, ?_, fun hlo hmax loads hl => ?_⟩
  · rw [hlast', hlast, Function.iterate_add_apply]
  · obtain ⟨loads₁, hl₁⟩ := hist hlo (by omega) loads hl
    have hmid : p'.lastInQueue = p.lastInQueue + a := by
      rw [hlast, incr_iterate hlo (by omega)]
    exact hist' (by omega) (by omega) loads₁ hl₁

theorem mono (h : Evolves sel n p p') (hn : n ≤ k) : Evolves sel k p p' := by
  obtain ⟨a, ha, hrest⟩ := h
  exact ⟨a, ha.trans hn, hrest⟩

theorem history (h : Evolves sel n p p') (hn : n ≤ 0x7FFFFFFF) (hroom : QueueRoom p)
    (hroom' : QueueRoom p') (hl : History sel loads p) : ∃ loads', History sel loads' p' := by
  obtain ⟨k, hk, hlast, hist⟩ := h
  obtain ⟨hlo, hhi⟩ := hroom
  refine hist hlo ?_ loads hl
  by_contra hc
  have hneg := incr_iterate_wrapped hlo hhi.le (by omega : 0x7FFFFFFF < p.lastInQueue + k) (by omega)
  have := hroom'.1
  rw [hlast, hneg] at this
  omega

end Evolves

theorem ProcMove.evolves {S : Scope} {n : ℕ} (h : ProcMove S p n p') : Evolves S.sel n p p' := by
  have hone : ∀ {p'}, p'.lastInQueue = incr p.lastInQueue →
      (QueueRoom p → ∀ loads, History S.sel loads p → ∃ loads', History S.sel loads' p') →
      Evolves S.sel 1 p p' := by
    intro p' hlast hist
    refine ⟨1, le_rfl, hlast, fun hlo hmax loads hl => hist ⟨hlo, ?_⟩ loads hl⟩
    have : p.lastInQueue + 1 ≤ 0x7FFFFFFF := hmax
    omega
  cases h with
  | other hram hswap hlast =>
    exact .of_unmoved ⟨hlast, fun i hi => by rw [hram] at hi ⊢; exact ⟨hi, rfl⟩⟩
  | pageOut => exact .of_unmoved ⟨rfl, fun i hi => ⟨hi, rfl⟩⟩
  | pageIn => exact .of_unmoved ⟨rfl, fun i hi => ⟨hi, rfl⟩⟩
  | load i he => exact hone rfl fun hroom loads hl => ⟨i :: loads, hl.load hroom i _⟩
  | requeue i hsel => exact hone rfl fun hroom loads hl => ⟨loads, hl.requeue hroom hsel i⟩
  | release i =>
    refine .of_unmoved ⟨rfl, fun j hj => ?_⟩
    by_cases hji : j = i
    · subst hji
      simp [Proc.setRam] at hj
    · have hkeep : (p.setRam i { p.ramMonitor i with used := false }).ramMonitor j =
          p.ramMonitor j := Function.update_of_ne hji _ _
      rw [hkeep] at hj ⊢
      exact ⟨hj, rfl⟩
  | untrack d a =>
    refine .of_unmoved ⟨rfl, fun j hj => ?_⟩
    unfold Machine.untrack at hj ⊢
    dsimp only at hj
    split_ifs at hj with hc
    refine ⟨hj, ?_⟩
    simp only [if_neg hc]
  | slot i he => exact .of_unmoved ⟨rfl, fun i hi => ⟨hi, rfl⟩⟩

theorem Changes.evolves {S : Scope} {n : ℕ} {m m' : Machine} (h : Changes S n m m') :
    Evolves S.sel n m.proc m'.proc := by
  have hsame : ∀ p : Proc, Evolves S.sel 0 p p := fun p =>
    .of_unmoved ⟨rfl, fun i hi => ⟨hi, rfl⟩⟩
  induction h with
  | refl => exact (hsame _).mono (Nat.zero_le _)
  | tail _ hc ih =>
    refine ih.trans (k := _) ?_ le_rfl
    cases hc with
    | data h =>
      rw [h]
      exact hsame _
    | proc h => exact h.evolves
    | dropDir _ htables _ =>
      rw [freeTables_keeps htables]
      exact hsame _
    | _ => exact hsame _

end

/-! ### Calls of one process -/

/-- Anything may be evicted, mapped and dropped. -/
def Scope.all (sel : Selection) : Scope := ⟨sel, fun _ => True, fun _ _ => True, True⟩

/-- What a call leaves of the running process. -/
structure Stays (sel : Selection) (m m' : Machine) : Prop where
  evolves : Evolves sel execLoads m.proc m'.proc
  sz : m'.proc.sz < kernBase
  kdata : m'.kdata = m.kdata

section

variable {sel : Selection} {n : ℕ} {m m' : Machine}

theorem tracks_all (sel : Selection) (p : Proc) : Tracks (Scope.all sel) p :=
  fun _ => ⟨trivial, trivial⟩

theorem Changes.stays (h : Changes (Scope.all sel) n m m') (hn : n ≤ execLoads)
    (hsz : m.proc.sz < kernBase) : Stays sel m m' := by
  obtain ⟨-, hkdata, -, hsz', -⟩ := h.id
  exact ⟨h.evolves.mono hn, hsz' ▸ hsz, hkdata⟩

theorem Stays.setSz (h : Stays sel m m') {sz : ℕ} (hsz : sz < kernBase) :
    Stays sel m (m'.setProc { m'.proc with sz := sz }) := by
  refine ⟨h.evolves.trans (k := 0) ?_ le_rfl, hsz, h.kdata⟩
  exact .of_unmoved ⟨rfl, fun i hi => ⟨hi, rfl⟩⟩

theorem growproc_stays {k r : Int} (hsz : m.proc.sz < kernBase)
    (hrun : m.growproc sel k = .ok (r, m')) : Stays sel m m' := by
  have hnew : ((m.proc.sz + k) % 0x100000000).toNat < 0x100000000 := by omega
  unfold growproc at hrun
  dsimp only at hrun
  split at hrun
  · obtain ⟨⟨sz, m₁⟩, halloc, hrun⟩ := Run.bind_ok hrun
    have hc := allocuvm_changes (S := Scope.all sel) halloc (tracks_all _ _) (fun _ _ => trivial)
      fun _ _ => trivial
    have hstays : Stays sel m m₁ := hc.stays (by simp only [pagesOf, execLoads, userPages]; omega) hsz
    dsimp only at hrun
    split at hrun
    · cases hrun
      exact hstays
    · rename_i hz
      cases hrun
      exact hstays.setSz ((allocuvm_mono hz halloc).2.1 hsz)
  · split at hrun
    · obtain ⟨⟨sz, m₁⟩, hdealloc, hrun⟩ := Run.bind_ok hrun
      have hc : Changes (Scope.all sel) 0 m m₁ :=
        deallocuvm_changes hdealloc hsz.le fun _ _ => trivial
      have hstays := hc.stays (by decide) hsz
      have hle : sz ≤ m.proc.sz := by
        unfold deallocuvm at hdealloc
        split at hdealloc
        · cases hdealloc
          exact le_rfl
        · obtain ⟨m₂, -, hdealloc⟩ := Run.bind_ok hdealloc
          cases hdealloc
          omega
      dsimp only at hrun
      split at hrun
      · cases hrun
        exact hstays
      · cases hrun
        exact hstays.setSz (by omega)
    · cases hrun
      exact (Changes.refl (S := Scope.all sel) (n := 0)).stays (by decide) hsz

theorem access_stays {va : ℕ} {write : Bool} {r : Option ℕ} (hva : va < 0x100000000)
    (hsz : m.proc.sz < kernBase) (hrun : m.access sel va write = .ok (r, m')) : Stays sel m m' :=
  (access_changes (S := Scope.all sel) hrun (tracks_all _ _) hva fun _ => trivial).stays (by decide)
    hsz

theorem commit_unmoved (p : Proc) (pgdir sz : ℕ) : Unmoved p (commit p pgdir sz) := by
  refine ⟨rfl, fun i hi => ?_⟩
  unfold commit at hi ⊢
  dsimp only at hi ⊢
  split_ifs at hi ⊢ with hu
  · exact ⟨hu, rfl⟩
  · exact absurd hi hu

theorem exec_stays {ip : Option File} {argv : List (List Byte)} {ok : Bool}
    (hlayout : 0x100 < m.kdata ∧ m.kdata < phystopFrame) (hsz : m.proc.sz < kernBase)
    (hrun : m.exec sel ip argv = .ok (ok, m')) : Stays sel m m' := by
  rcases exec_changes (S := Scope.all sel) (tracks_all _ _) (fun _ _ => trivial)
    (fun _ _ => trivial) hlayout hrun with hc | ⟨m₁, pgdir, sz, hlt, hc, hc'⟩
  · exact hc.stays le_rfl hsz
  · have h₁ := hc.stays le_rfl hsz
    have h₂ : Stays sel (m₁.setProc (commit m₁.proc pgdir sz)) m' := hc'.stays (by decide) hlt
    have hcommit : Evolves sel 0 m₁.proc (m₁.setProc (commit m₁.proc pgdir sz)).proc :=
      .of_unmoved (commit_unmoved m₁.proc pgdir sz)
    have hrest : Evolves sel 0 (m₁.setProc (commit m₁.proc pgdir sz)).proc m'.proc := hc'.evolves
    exact ⟨(h₁.evolves.trans hcommit le_rfl).trans hrest le_rfl, h₂.sz, h₂.kdata.trans h₁.kdata⟩

/-- A call other than `fork`, `exit` and `wait` ends in a machine that was reached by the process
itself. -/
theorem call_stays {s s' : Sys} {i : Fin 64} {c : Call}
    (hlayout : 0x100 < s.mem.kdata ∧ s.mem.kdata < phystopFrame)
    (hsz : (s.table i).proc.sz < kernBase) (hrun : s.call sel i c = .ok s') :
    s' = s ∨ (∃ m', s' = s.put i m' ∧ Stays sel (s.as i) m') ∨ s.fork sel i = .ok s' ∨
      s.exit i = .ok s' ∨ s.wait sel i = .ok s' := by
  cases c with
  | sbrk k =>
    obtain ⟨⟨r, m'⟩, hgrow, hrun⟩ := Run.bind_ok hrun
    cases hrun
    exact Or.inr (Or.inl ⟨m', rfl, growproc_stays hsz hgrow⟩)
  | load va =>
    obtain ⟨⟨b, m'⟩, hload, hrun⟩ := Run.bind_ok hrun
    cases hrun
    obtain ⟨⟨f, m₁⟩, haccess, hrun⟩ := Run.bind_ok hload
    cases hrun
    exact Or.inr (Or.inl ⟨m', rfl, access_stays va.isLt hsz haccess⟩)
  | store va b =>
    obtain ⟨m', hstore, hrun⟩ := Run.bind_ok hrun
    cases hrun
    obtain ⟨⟨f, m₁⟩, haccess, hrun⟩ := Run.bind_ok hstore
    have h₁ := access_stays va.isLt hsz haccess
    refine Or.inr (Or.inl ⟨m', rfl, ?_⟩)
    cases f with
    | none =>
      cases hrun
      exact h₁
    | some f =>
      cases hrun
      exact ⟨h₁.evolves, h₁.sz, h₁.kdata⟩
  | select =>
    obtain ⟨⟨r, m'⟩, hpol, hrun⟩ := Run.bind_ok hrun
    cases hrun
    have hc := (replacePageByPolicy_changes (S := Scope.all sel) hpol).1
    exact Or.inr (Or.inl ⟨m', rfl, hc.stays (by decide) hsz⟩)
  | turnFlag va flag on =>
    obtain ⟨m', hflag, hrun⟩ := Run.bind_ok hrun
    cases hrun
    refine Or.inr (Or.inl ⟨m', rfl, ?_⟩)
    unfold turnFlag at hflag
    split at hflag
    · cases hflag
    · cases hflag
      exact ⟨.of_unmoved ⟨rfl, fun i hi => ⟨hi, rfl⟩⟩, hsz, rfl⟩
  | isFlagOn va flag =>
    obtain ⟨b, -, hrun⟩ := Run.bind_ok hrun
    cases hrun
    exact Or.inl rfl
  | updateProtectedPages up =>
    cases hrun
    exact Or.inr (Or.inl ⟨_, rfl, .of_unmoved ⟨rfl, fun i hi => ⟨hi, rfl⟩⟩, hsz, rfl⟩)
  | exec ip argv =>
    obtain ⟨⟨ok, m'⟩, hexec, hrun⟩ := Run.bind_ok hrun
    cases hrun
    exact Or.inr (Or.inl ⟨m', rfl, exec_stays hlayout hsz hexec⟩)
  | fork => exact Or.inr (Or.inr (Or.inl hrun))
  | exit => exact Or.inr (Or.inr (Or.inr (Or.inl hrun)))
  | wait => exact Or.inr (Or.inr (Or.inr (Or.inr hrun)))

end

/-! ### All processes -/

def Untracked (p : Proc) : Prop :=
  ∀ i, (p.ramMonitor i).used = false ∧ (p.swapMonitor i).used = false

/-- What holds of an entry of the process table. -/
def EntryOk (sel : Selection) (e : PEntry) : Prop :=
  (e.state = .RUNNABLE → e.proc.sz < kernBase ∧ ∃ loads, History sel loads e.proc) ∧
    (e.state = .UNUSED → Untracked e.proc)

/-- The kernel's layout, and every entry of the process table in order. -/
structure TableOk (sel : Selection) (s : Sys) : Prop where
  layout : 0x100 < s.mem.kdata ∧ s.mem.kdata < phystopFrame
  entry : ∀ i, EntryOk sel (s.table i)

/-- No process has used up its queue numbers. -/
def Sys.Room (s : Sys) : Prop := ∀ i, (s.table i).state = .RUNNABLE → QueueRoom (s.table i).proc

/-- A system in which no page is tracked yet, as after boot. -/
structure Sys.Fresh (s : Sys) : Prop where
  layout : 0x100 < s.mem.kdata ∧ s.mem.kdata < phystopFrame
  sz : ∀ i, (s.table i).proc.sz < kernBase
  untracked : ∀ i, Untracked (s.table i).proc

section

variable {sel : Selection} {s s' : Sys} {i : Fin 64} {m' : Machine} {j : Fin 64}

theorem Sys.Fresh.tableOk (h : s.Fresh) (sel : Selection) : TableOk sel s :=
  ⟨h.layout, fun i => ⟨fun _ => ⟨h.sz i, [], .start fun j => (h.untracked i j).1⟩,
    fun _ => h.untracked i⟩⟩

theorem EntryOk.stays (h : EntryOk sel (s.table i))
    (hi : (s.table i).state = .RUNNABLE) (hroom : QueueRoom (s.table i).proc)
    (hroom' : QueueRoom m'.proc) (hm : Stays sel (s.as i) m') :
    EntryOk sel { s.table i with proc := m'.proc } := by
  obtain ⟨-, loads, hl⟩ := h.1 hi
  refine ⟨fun _ => ⟨hm.sz, hm.evolves.history (by decide) hroom hroom' hl⟩, fun hu => ?_⟩
  have hu' : (s.table i).state = .UNUSED := hu
  rw [hi] at hu'
  cases hu'

theorem TableOk.put (h : TableOk sel s) (hm : Stays sel (s.as i) m')
    (hentry : EntryOk sel { s.table i with proc := m'.proc }) : TableOk sel (s.put i m') := by
  refine ⟨?_, fun j => ?_⟩
  · have hkdata : m'.kdata = s.mem.kdata := hm.kdata
    show 0x100 < m'.kdata ∧ m'.kdata < phystopFrame
    rw [hkdata]
    exact h.layout
  · show EntryOk sel (Function.update s.table i _ j)
    by_cases hj : j = i
    · subst hj
      rw [Function.update_self]
      exact hentry
    · rw [Function.update_of_ne hj]
      exact h.entry j

theorem TableOk.setEntry (h : TableOk sel s) (j : Fin 64) {e : PEntry} (he : EntryOk sel e) :
    TableOk sel (s.setEntry j e) := by
  refine ⟨h.layout, fun k => ?_⟩
  show EntryOk sel (Function.update s.table j e k)
  by_cases hk : k = j
  · subst hk
    rw [Function.update_self]
    exact he
  · rw [Function.update_of_ne hk]
    exact h.entry k

theorem unused_state (h : s.unused = some j) : (s.table j).state = .UNUSED := by
  simpa using List.find?_some h

theorem zombie_state (h : s.zombie i = some j) : (s.table j).state = .ZOMBIE := by
  have := List.find?_some h
  simp only [decide_eq_true_eq] at this
  exact this.2

theorem IsChild.history {p np child : Proc} {nextpid : ℕ} (h : IsChild p np nextpid child)
    (hnp : Untracked np) {loads : List (Fin 16)} (hl : History sel loads p) :
    ∃ loads', History sel loads' child := by
  by_cases hpid : 2 < p.pid
  · obtain ⟨hlast, hmon⟩ := h.paged hpid
    refine ⟨loads, hl.move ⟨hlast, fun i hi => ?_⟩⟩
    rw [(hmon i).1] at hi ⊢
    exact ⟨hi, rfl⟩
  · obtain ⟨-, hram, -⟩ := h.unpaged hpid
    refine ⟨[], .start fun i => ?_⟩
    rw [hram]
    exact (hnp i).1

theorem failedChild_ok (h : EntryOk sel (s.table j))
    (hj : (s.table j).state = .UNUSED) : EntryOk sel (s.failedChild j) := by
  refine ⟨fun hr => ?_, fun _ => ?_⟩
  · have hr' : (s.table j).state = .RUNNABLE := hr
    rw [hj] at hr'
    cases hr'
  · unfold Sys.failedChild
    dsimp only
    split_ifs
    · exact h.2 hj
    · exact h.2 hj

theorem Sys.Room.ran {m : Machine} {e : PEntry} {nextpid : ℕ}
    (h : Sys.Room { (s.put i m).setEntry j e with nextpid := nextpid }) (hne : i ≠ j)
    (hi : (s.table i).state = .RUNNABLE) : QueueRoom m.proc := by
  have hentry : ((s.put i m).setEntry j e).table i = { s.table i with proc := m.proc } := by
    simp [Sys.setEntry, Sys.put, hne]
  have hroom := h i
  dsimp only at hroom
  rw [hentry] at hroom
  exact hroom hi

theorem fork_tableOk (h : TableOk sel s) (hi : (s.table i).state = .RUNNABLE) (hroom : s.Room)
    (hroom' : s'.Room) (hrun : s.fork sel i = .ok s') : TableOk sel s' := by
  obtain ⟨hsz, loads, hl⟩ := (h.entry i).1 hi
  unfold Sys.fork at hrun
  split at hrun
  · cases hrun
    exact h
  · rename_i j hj
    have hju := unused_state hj
    have hne : i ≠ j := by
      rintro rfl
      rw [hi] at hju
      cases hju
    obtain ⟨⟨child, m⟩, hfork, hrun⟩ := Run.bind_ok hrun
    cases hrun
    have hm_room : QueueRoom m.proc := hroom'.ran hne hi
    -- what `fork` left of the parent, and the entry it made
    obtain ⟨hm, he⟩ : Stays sel (s.as i) m ∧ EntryOk sel (s.childEntry i j child) := by
      rcases fork_changes (S := Scope.all sel) (n := 0) (m := s.as i) (fun _ _ => trivial) h.layout
        hsz.le hfork with ⟨rfl, rfl⟩ | ⟨np, kstack, rest, m₁, hnp, -, hc, hend⟩
      · exact ⟨(Changes.refl (S := Scope.all sel) (n := 0)).stays (by decide) hsz,
          failedChild_ok (h.entry j) hju⟩
      · cases hnp
        have hm₁ := hc.stays (by decide) hsz
        rcases hend with ⟨rfl, rfl, -⟩ | ⟨c, rfl, rfl, hchild⟩
        · exact ⟨⟨hm₁.evolves, hm₁.sz, hm₁.kdata⟩, failedChild_ok (h.entry j) hju⟩
        · obtain ⟨loads', hl'⟩ := hm₁.evolves.history (by decide) (hroom i hi) hm_room hl
          refine ⟨⟨hm₁.evolves, hm₁.sz, hm₁.kdata⟩, fun _ => ⟨?_, ?_⟩, fun hu => by cases hu⟩
          · show c.sz < kernBase
            rw [hchild.sz]
            exact hm₁.sz
          · exact hchild.history ((h.entry j).2 hju) hl'
    have hput := h.put hm ((h.entry i).stays hi (hroom i hi) hm_room hm)
    exact ⟨hput.layout, (hput.setEntry j he).entry⟩

theorem exit_tableOk (h : TableOk sel s) (hrun : s.exit i = .ok s') : TableOk sel s' := by
  unfold Sys.exit at hrun
  split at hrun
  · cases hrun
  · cases hrun
    refine ⟨h.layout, fun j => ⟨fun hr => ?_, fun hu => ?_⟩⟩
    · dsimp only at hr
      split_ifs at hr
      exact (h.entry j).1 hr
    · dsimp only at hu
      split_ifs at hu
      exact (h.entry j).2 hu

theorem wait_tableOk (h : TableOk sel s) (hi : (s.table i).state = .RUNNABLE) (hroom : s.Room)
    (hroom' : s'.Room) (hrun : s.wait sel i = .ok s') : TableOk sel s' := by
  obtain ⟨hsz, -⟩ := (h.entry i).1 hi
  unfold Sys.wait at hrun
  split at hrun
  · cases hrun
    exact h
  · rename_i j hj
    have hjz := zombie_state hj
    have hne : i ≠ j := by
      rintro rfl
      rw [hi] at hjz
      cases hjz
    obtain ⟨m₁, hkfree, hrun⟩ := Run.bind_ok hrun
    obtain ⟨m, hfree, hrun⟩ := Run.bind_ok hrun
    cases hrun
    obtain ⟨rfl, -⟩ := kfree_ok hkfree
    have hc : Changes (Scope.all sel) 0 ((s.as i).freed (s.table j).kstack) m :=
      freevm_changes (fun _ => trivial) hfree
    have hm₁ := hc.stays (by decide) hsz
    have hm : Stays sel (s.as i) m := ⟨hm₁.evolves, hm₁.sz, hm₁.kdata⟩
    have hm_room : QueueRoom m.proc := Sys.Room.ran hroom' hne hi
    refine (h.put hm ((h.entry i).stays hi (hroom i hi) hm_room hm)).setEntry j ?_
    refine ⟨fun hr => ?_, fun _ k => ⟨rfl, rfl⟩⟩
    cases hr

theorem procdump_tableOk (h : TableOk sel s) : TableOk sel s.procdump := by
  refine ⟨h.layout, fun j => ?_⟩
  unfold Sys.procdump
  dsimp only
  split_ifs with hu
  · exact h.entry j
  · refine ⟨fun hr => ?_, fun hu' => absurd hu' hu⟩
    obtain ⟨hsz, loads, hl⟩ := (h.entry j).1 hr
    exact ⟨hsz, loads, hl.move ⟨rfl, fun i hi => ⟨hi, rfl⟩⟩⟩

theorem step_tableOk {e : Sys.Event} (h : TableOk sel s) (hroom : s.Room) (hroom' : s'.Room)
    (hrun : s.step sel e = .ok s') : TableOk sel s' := by
  cases e with
  | procdump =>
    cases hrun
    exact procdump_tableOk h
  | call i c =>
    unfold Sys.step at hrun
    dsimp only at hrun
    split at hrun
    · rename_i hcan
      have hi := hcan.1
      have hsz := ((h.entry i).1 hi).1
      rcases call_stays h.layout hsz hrun with rfl | ⟨m', rfl, hm⟩ | hfork | hexit | hwait
      · exact h
      · have hm_room : QueueRoom m'.proc := by
          have hput := hroom' i
          simp only [Sys.put, Function.update_self] at hput
          exact hput hi
        exact h.put hm ((h.entry i).stays hi (hroom i hi) hm_room hm)
      · exact fork_tableOk h hi hroom hroom' hfork
      · exact exit_tableOk h hexit
      · exact wait_tableOk h hi hroom hroom' hwait
    · cases hrun
      exact h

/-- A run of the system.  `Run.Admits` gives the room before every step, the end of the run after the
last one. -/
theorem run_tableOk {events : List Sys.Event} (h : TableOk sel s)
    (hadm : Run.Admits (Sys.step sel) (fun s _ => s.Room) events s)
    (hrun : Run.run (Sys.step sel) events s = .ok s') (hroom' : s'.Room) : TableOk sel s' := by
  induction events generalizing s with
  | nil =>
    cases hrun
    exact h
  | cons e events ih =>
    obtain ⟨s₁, hstep, hrun⟩ := Run.run_cons_ok hrun
    have hadm₁ := hadm.2 s₁ hstep
    have hroom₁ : s₁.Room := by
      cases events with
      | nil =>
        cases hrun
        exact hroom'
      | cons e' events => exact hadm₁.1
    exact ih (step_tableOk h hadm.1 hroom₁ hstep) hadm₁ hrun

/-! ### The queue of a process -/

theorem LoadOrder.add2ram_largest {p : Proc} (h : LoadOrder p) (hroom : QueueRoom p) (d a : ℕ)
    {idx : Fin 16} (hidx : p.getFreeRamIdx = some idx) {j : Fin 16} (hj : j ≠ idx)
    (hu : ((p.add2ram d a).ramMonitor j).used) :
    ((p.add2ram d a).ramMonitor j).placeInQueue < ((p.add2ram d a).ramMonitor idx).placeInQueue := by
  have hadd : p.add2ram d a = p.enqueue idx ⟨true, d, a, 0⟩ := by
    unfold Proc.add2ram
    rw [hidx]
    rfl
  rw [hadd] at hu ⊢
  exact h.enqueue_largest hroom _ hj hu

theorem LoadOrder.readPageFromDisk_largest {m : Machine} (h : LoadOrder m.proc)
    (hroom : QueueRoom m.proc) {idx : Fin 16} {pVa : ℕ} {dst : Dst}
    (hrun : m.readPageFromDisk idx pVa dst = .ok (1, m')) {j : Fin 16} (hj : j ≠ idx)
    (hu : (m'.proc.ramMonitor j).used) :
    (m'.proc.ramMonitor j).placeInQueue < (m'.proc.ramMonitor idx).placeInQueue := by
  unfold readPageFromDisk at hrun
  split at hrun
  · cases hrun
  · rename_i i _
    split at hrun
    · cases hrun
    · obtain ⟨m₁, hread, hrun⟩ := Run.bind_ok hrun
      obtain ⟨-, -, -, -, hproc⟩ := Change.data_proc (readInto_data hread)
      cases hrun
      rw [← hproc] at h hroom
      exact h.enqueue_largest hroom (m₁.proc.swapMonitor i) hj hu

/-- Whatever page is loaded in state `p`, it gets a larger number than all others. -/
structure LoadsLargest (p : Proc) : Prop where
  add2ram : ∀ d a idx, p.getFreeRamIdx = some idx → ∀ j ≠ idx,
    ((p.add2ram d a).ramMonitor j).used →
    ((p.add2ram d a).ramMonitor j).placeInQueue < ((p.add2ram d a).ramMonitor idx).placeInQueue
  readPageFromDisk : ∀ (m m' : Machine) idx pVa dst, m.proc = p →
    m.readPageFromDisk idx pVa dst = .ok (1, m') → ∀ j ≠ idx, (m'.proc.ramMonitor j).used →
    (m'.proc.ramMonitor j).placeInQueue < (m'.proc.ramMonitor idx).placeInQueue

/-- In every run of the system in which no process uses up its queue numbers, the used entries of every
process have different numbers between 1 and `last_in_queue`.  In every state of the process that has a
load history, also inside a call, the next page loaded gets the largest number; and with LIFO
`select_LIFO` returns the used entry that was loaded last, by every history of the process. -/
theorem queue_is_load_order {events : List Sys.Event} {p : Proc} (hfresh : s.Fresh)
    (hadm : Run.Admits (Sys.step sel) (fun s _ => s.Room) events s)
    (hrun : Run.run (Sys.step sel) events s = .ok s') (hroom' : s'.Room)
    (hi : (s'.table i).state = .RUNNABLE) (hp : (s'.table i).proc = p) :
    LoadOrder p ∧ (∃ loads, History sel loads p) ∧
    (∀ loads q, History sel loads q → QueueRoom q → LoadsLargest q) ∧
    (sel = .LIFO → (∃ k, (p.ramMonitor k).used) → ∀ loads, History sel loads p →
      ∃ idx, p.selectLIFO = some idx ∧ loads.find? (fun k => (p.ramMonitor k).used) = some idx) := by
  have htable := run_tableOk (hfresh.tableOk sel) hadm hrun hroom'
  obtain ⟨-, loads, hl⟩ := (htable.entry i).1 hi
  rw [hp] at hl
  refine ⟨hl.order, ⟨loads, hl⟩, fun loads q hq hroom => ?_, fun hsel ⟨k, hk⟩ loads hl => ?_⟩
  · refine ⟨fun d a idx hidx j hj hu => hq.order.add2ram_largest hroom d a hidx hj hu, ?_⟩
    rintro m m' idx pVa dst rfl hread j hj hu
    exact hq.order.readPageFromDisk_largest hroom hread hj hu
  · have hnot : sel ≠ .SCFIFO := by
      rw [hsel]
      decide
    obtain ⟨idx, hidx⟩ := Proc.selectLIFO_isSome hk (by have := (hl.order.range k hk).1; omega)
    exact ⟨idx, hidx, (hl.selectLIFO hnot).symm.trans hidx⟩

end

local instance neZeroProcs : NeZero 64 := ⟨by decide⟩

/-- A system with one process that has no page yet. -/
def sampleSys : Sys where
  mem := sampleMachine 0 0 40
  table i := ⟨if i = 0 then .RUNNABLE else .UNUSED, (sampleMachine 0 0 40).proc, 0, none⟩
  initproc := 0
  nextpid := 4

instance (p : Proc) : Decidable (QueueRoom p) := inferInstanceAs (Decidable (_ ∧ _))

instance (s : Sys) : Decidable s.Room :=
  inferInstanceAs (Decidable (∀ i, (s.table i).state = .RUNNABLE → QueueRoom (s.table i).proc))

/-- After a growth by three pages the last of them is the one `select_LIFO` returns. -/
theorem queue_is_load_order_sample :
    ∃ s' loads, Run.run (Sys.step .LIFO) [.call 0 (.sbrk 12288)] sampleSys = .ok s' ∧
      LoadOrder (s'.table 0).proc ∧ History .LIFO loads (s'.table 0).proc ∧
      (s'.table 0).proc.selectLIFO = some 2 ∧
      loads.find? (fun k => ((s'.table 0).proc.ramMonitor k).used) = some 2 := by
  have heval : Run.endsIn (fun s' => decide (s'.Room ∧ (s'.table 0).state = .RUNNABLE ∧
      ((s'.table 0).proc.ramMonitor 2).used = true ∧ (s'.table 0).proc.selectLIFO = some 2))
      (Run.run (Sys.step .LIFO) [.call 0 (.sbrk 12288)] sampleSys) = true := by
    decide +kernel
  obtain ⟨s', hrun, htest⟩ := Run.of_endsIn heval
  obtain ⟨hroom', hi, hused, hsel⟩ := of_decide_eq_true htest
  have hfresh : sampleSys.Fresh :=
    ⟨by decide, fun _ => show 4096 * 0 < kernBase by decide, fun _ _ => ⟨rfl, rfl⟩⟩
  have hadm : Run.Admits (Sys.step .LIFO) (fun s _ => s.Room) [.call 0 (.sbrk 12288)] sampleSys :=
    ⟨by decide +kernel, fun _ _ => trivial⟩
  obtain ⟨horder, ⟨loads, hl⟩, -, hlifo⟩ := queue_is_load_order hfresh hadm hrun hroom' hi rfl
  obtain ⟨idx, hidx, hfind⟩ := hlifo rfl ⟨2, hused⟩ loads hl
  rw [hsel] at hidx
  cases hidx
  exact ⟨s', loads, hrun, horder, hl, hsel, hfind⟩

end Xv6
