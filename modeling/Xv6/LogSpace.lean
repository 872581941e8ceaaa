import Mathlib.Algebra.Order.BigOperators.Group.Finset
import Xv6.LogAtomicity

/-!
# Log space

`begin_op` admits an operation when `MAXOPBLOCKS` blocks for it and for every open operation fit into
`LOGSIZE`.  One block of the log is the header, and `log_write` panics when the others are used up, also
for a block that is recorded already.  `mkfs` gives the log `LOGSIZE` blocks, header included: operations
of `MAXOPBLOCKS` blocks can fill it, operations of fewer cannot.
-/

namespace Xv6.Log

open State

/-- The next `log_write` leaves its operation with at most `m` distinct blocks. -/
def Small {ι : Type} (m : ℕ) (s : State ι) : Event ι → Prop
  | .change i b _ => ∀ o ∈ s.op i, (insert b o.blocks).card ≤ m
  | _ => True

instance {ι : Type} (m : ℕ) (s : State ι) : (e : Event ι) → Decidable (Small m s e)
  | .change i b _ => inferInstanceAs (Decidable (∀ o ∈ s.op i, (insert b o.blocks).card ≤ m))
  | .beginOp _ | .record _ | .endOp _ | .work | .read _ | .evict _ | .crash => .isTrue trivial

/-- The blocks that an operation may still add to the log: those it has not yet passed to `log_write`, and
one that it has passed and that is not yet recorded. -/
def reserve (m : ℕ) (lh : List ℕ) : Option Op → ℕ
  | none => 0
  | some o => m - o.blocks.card + (o.buf.toList.filter fun b => b ∉ lh).length

theorem reserve_anti {m : ℕ} {lh lh' : List ℕ} (hsub : ∀ b ∈ lh, b ∈ lh') (v : Option Op) :
    reserve m lh' v ≤ reserve m lh v := by
  cases v with
  | none => exact le_rfl
  | some o =>
    apply Nat.add_le_add_left
    cases o.buf with
    | none => exact le_rfl
    | some b =>
      by_cases hb : b ∈ lh
      · simp [hb, hsub b hb]
      · by_cases hb' : b ∈ lh' <;> simp [hb, hb']

/-- The log and what may still be added to it fit into `MAXOPBLOCKS + 2 * m` blocks. -/
structure Space {ι : Type} [Fintype ι] (m : ℕ) (s : State ι) : Prop where
  ops : Ops s
  small : ∀ {i o}, s.op i = some o → o.blocks.card ≤ m
  held : ∀ {i o b}, s.op i = some o → o.buf = some b → b ∈ o.blocks
  logged : ∀ {i o b}, s.op i = some o → b ∈ o.blocks → o.buf = some b ∨ b ∈ s.lh
  fits : s.phase = .idle → s.lh.length + ∑ i, reserve m s.lh (s.op i) ≤ maxOpBlocks + 2 * m
  empty : s.phase = .idle → (∀ i, s.op i = none) → s.lh = []
  erased : ∀ {boot}, s.phase = .erase boot → s.lh = []
  finished : s.phase = .finish → s.lh = []

namespace Space

variable {ι : Type} [Fintype ι] {sb : Super} {m : ℕ} {s t : State ι} {i : ι}

theorem reserve_le (h : Space m s) (j : ι) : reserve m s.lh (s.op j) ≤ if (s.op j).isSome then m else 0 := by
  cases hj : s.op j with
  | none => exact le_rfl
  | some o =>
    have hsmall := h.small hj
    rw [Option.isSome_some, if_pos rfl]
    show m - o.blocks.card + (o.buf.toList.filter fun b => b ∉ s.lh).length ≤ m
    cases hbuf : o.buf with
    | none =>
      show m - o.blocks.card + 0 ≤ m
      omega
    | some b =>
      have hpos : 0 < o.blocks.card := Finset.card_pos.2 ⟨b, h.held hj hbuf⟩
      have hone : (List.filter (fun b => decide (b ∉ s.lh)) [b]).length ≤ 1 := List.length_filter_le _ [b]
      show m - o.blocks.card + (List.filter (fun b => decide (b ∉ s.lh)) [b]).length ≤ m
      omega

theorem sum_reserve_le (h : Space m s) : ∑ j, reserve m s.lh (s.op j) ≤ s.outstanding * m := by
  calc ∑ j, reserve m s.lh (s.op j) ≤ ∑ j, if (s.op j).isSome then m else 0 :=
        Finset.sum_le_sum fun j _ => h.reserve_le j
    _ = s.outstanding * m := by
        rw [← h.ops.count, Tally.tally_eq_sum, Finset.sum_mul]
        exact Finset.sum_congr rfl fun j _ => by split_ifs <;> simp

variable [DecidableEq ι]

theorem beginOp (h : Space m s) (hm : m ≤ maxOpBlocks) (i : ι) : Space m (s.beginOp i) := by
  have hops := h.ops.beginOp i
  rcases beginOp_cases s i with heq | ⟨hnone, -, -, hroom, heq⟩
  · rw [heq]
    exact h
  rw [heq] at hops ⊢
  have hcases : ∀ {j q}, Function.update s.op i (some ⟨s.nextOp, none, ∅⟩) j = some q →
      q = ⟨s.nextOp, none, ∅⟩ ∨ s.op j = some q := fun hj =>
    (update_eq_some hj).imp (fun hj => (Option.some.inj hj.2).symm) And.right
  refine
    { ops := hops, small := fun {j q} hj => ?_, held := fun {j q b} hj hq => ?_,
      logged := fun {j q b} hj hb => ?_, fits := fun hp => ?_, empty := fun _ hall => ?_,
      erased := h.erased, finished := h.finished }
  · rcases hcases hj with rfl | hj
    · exact Nat.zero_le _
    · exact h.small hj
  · rcases hcases hj with rfl | hj
    · cases hq
    · exact h.held hj hq
  · rcases hcases hj with rfl | hj
    · cases hb
    · exact h.logged hj hb
  · have hsum := Tally.sum_update (reserve m s.lh) s.op i (some ⟨s.nextOp, none, ∅⟩)
    have hzero : reserve m s.lh (s.op i) = 0 := by rw [hnone]; rfl
    have hnew : reserve m s.lh (some ⟨s.nextOp, none, ∅⟩) = m := by simp [reserve]
    have hold := h.sum_reserve_le
    show s.lh.length + ∑ j, reserve m s.lh (Function.update s.op i _ j) ≤ maxOpBlocks + 2 * m
    rw [hzero, hnew] at hsum
    simp only [logSize, maxOpBlocks] at hroom hm ⊢
    -- At most two others are open, and when none is, the log is empty.
    have hfew : s.outstanding = 0 ∨ s.outstanding = 1 ∨ s.outstanding = 2 := by omega
    rcases hfew with hz | hz | hz <;> rw [hz] at hold hroom
    · have hcount := h.ops.count
      rw [hz] at hcount
      have hlh : s.lh = [] := h.empty hp fun j => by
        have hj := Tally.tally_eq_zero_iff.1 hcount j
        rwa [ne_eq, Bool.not_eq_true, Option.isSome_eq_false_iff, Option.isNone_iff_eq_none] at hj
      have hlen : s.lh.length = 0 := by rw [hlh]; rfl
      omega
    · omega
    · omega
  · cases (Function.update_self i _ s.op).symm.trans (hall i)

theorem change (h : Space m s) {b : ℕ} {x : Block} (hsmall : Small m s (.change i b x))
    (hchange : State.change sb s i b x = .ok t) : Space m t := by
  have hops := h.ops.change hchange
  rcases change_cases hchange with rfl | ⟨o, ho, hbuf, -, rfl⟩
  · exact h
  have hcard : (insert b o.blocks).card ≤ m := hsmall o ho
  have hcases : ∀ {j q}, Function.update s.op i (some ⟨o.id, some b, insert b o.blocks⟩) j = some q →
      q = ⟨o.id, some b, insert b o.blocks⟩ ∨ s.op j = some q := fun hj =>
    (update_eq_some hj).imp (fun hj => (Option.some.inj hj.2).symm) And.right
  refine
    { ops := hops, small := fun {j q} hj => ?_, held := fun {j q c} hj hq => ?_,
      logged := fun {j q c} hj hc => ?_, fits := fun hp => ?_, empty := fun _ hall => ?_,
      erased := h.erased, finished := h.finished }
  · rcases hcases hj with rfl | hj
    · exact hcard
    · exact h.small hj
  · rcases hcases hj with rfl | hj
    · rw [← Option.some.inj hq]
      exact Finset.mem_insert_self b _
    · exact h.held hj hq
  · rcases hcases hj with rfl | hj
    · rcases Finset.mem_insert.1 hc with rfl | hc
      · exact .inl rfl
      · exact .inr ((h.logged ho hc).resolve_left (by rw [hbuf]; simp))
    · exact h.logged hj hc
  · -- A block that is not in the log is new to the operation, and was reserved for it.
    have hle : reserve m s.lh (some ⟨o.id, some b, insert b o.blocks⟩) ≤ reserve m s.lh (s.op i) := by
      rw [ho]
      simp only [reserve, hbuf, Option.toList_some, Option.toList_none, List.filter_nil, List.length_nil]
      by_cases hb : b ∈ s.lh
      · simp only [List.filter_singleton, hb, not_true, decide_false, cond_false, List.length_nil]
        exact Nat.add_le_add_right (Nat.sub_le_sub_left (Finset.card_le_card (Finset.subset_insert _ _)) m) 0
      · have hnew : b ∉ o.blocks := fun hc => hb ((h.logged ho hc).resolve_left (by rw [hbuf]; simp))
        rw [Finset.card_insert_of_notMem hnew] at hcard ⊢
        simp only [List.filter_singleton, hb, not_false_eq_true, decide_true, cond_true, List.length_singleton]
        omega
    have hsum := Tally.sum_update (reserve m s.lh) s.op i (some ⟨o.id, some b, insert b o.blocks⟩)
    have hfits := h.fits hp
    show s.lh.length + ∑ j, reserve m s.lh (Function.update s.op i _ j) ≤ maxOpBlocks + 2 * m
    omega
  · cases (Function.update_self i _ s.op).symm.trans (hall i)

theorem record (h : Space m s) (hrecord : s.record i = .ok t) : Space m t := by
  have hops := h.ops.record hrecord
  rcases record_cases hrecord with rfl | ⟨id, b, blocks, lh, ho, hlh, rfl⟩
  · exact h
  have hcases : ∀ {j q}, Function.update s.op i (some ⟨id, none, blocks⟩) j = some q →
      q = ⟨id, none, blocks⟩ ∨ s.op j = some q := fun hj =>
    (update_eq_some hj).imp (fun hj => (Option.some.inj hj.2).symm) And.right
  obtain ⟨hsub, hmem⟩ : (∀ c ∈ s.lh, c ∈ lh) ∧ b ∈ lh := by
    rcases append_cases hlh with ⟨hmem, rfl⟩ | ⟨-, -, rfl⟩
    · exact ⟨fun _ hc => hc, hmem⟩
    · exact ⟨fun _ hc => List.mem_append_left _ hc, List.mem_append_right _ List.mem_cons_self⟩
  have hp := h.ops.idle ho
  refine
    { ops := hops, small := fun {j q} hj => ?_, held := fun {j q c} hj hq => ?_,
      logged := fun {j q c} hj hc => ?_, fits := fun _ => ?_, empty := fun _ hall => ?_,
      erased := fun hc => ?_, finished := fun hc => ?_ }
  · rcases hcases hj with rfl | hj
    · exact (h.small ho : blocks.card ≤ m)
    · exact h.small hj
  · rcases hcases hj with rfl | hj
    · cases hq
    · exact h.held hj hq
  · rcases hcases hj with rfl | hj
    · rcases h.logged ho hc with hb | hc
      · exact .inr (Option.some.inj hb ▸ hmem)
      · exact .inr (hsub c hc)
    · exact (h.logged hj hc).imp_right (hsub c)
  · have hanti : ∑ j, reserve m lh (Function.update s.op i (some ⟨id, none, blocks⟩) j) ≤
        ∑ j, reserve m s.lh (Function.update s.op i (some ⟨id, none, blocks⟩) j) :=
      Finset.sum_le_sum fun j _ => reserve_anti hsub _
    have hsum := Tally.sum_update (reserve m s.lh) s.op i (some ⟨id, none, blocks⟩)
    have hfits := h.fits hp
    have hnew : reserve m s.lh (some ⟨id, none, blocks⟩) = m - blocks.card := rfl
    have hlen : lh.length + (m - blocks.card) ≤ s.lh.length + reserve m s.lh (s.op i) := by
      rw [ho]
      simp only [reserve, Option.toList_some]
      rcases append_cases hlh with ⟨-, rfl⟩ | ⟨hb, -, rfl⟩
      · omega
      · simp only [List.length_append, List.length_singleton, List.filter_singleton, hb, not_false_eq_true,
          decide_true, cond_true]
        omega
    show lh.length + ∑ j, reserve m lh (Function.update s.op i _ j) ≤ maxOpBlocks + 2 * m
    omega
  · cases (Function.update_self i _ s.op).symm.trans (hall i)
  · cases hp.symm.trans hc
  · cases hp.symm.trans hc

theorem endOp (h : Space m s) (hend : s.endOp i = .ok t) : Space m t := by
  have hops := h.ops.endOp hend
  rcases endOp_cases hend with rfl | ⟨id, blocks, ho, -, rfl⟩
  · exact h
  have hcases : ∀ {j q}, Function.update s.op i none j = some q → s.op j = some q := fun hj =>
    ((update_eq_some hj).resolve_left fun hc => by cases hc.2).2
  have hp := h.ops.idle ho
  refine
    { ops := hops, small := fun hj => h.small (hcases hj), held := fun hj => h.held (hcases hj),
      logged := fun hj => h.logged (hcases hj), fits := fun _ => ?_, empty := fun hidle hall => ?_,
      erased := fun hc => ?_, finished := fun hc => ?_ }
  · have hsum := Tally.sum_update (reserve m s.lh) s.op i none
    have hfits := h.fits hp
    have hzero : reserve m s.lh none = 0 := rfl
    show s.lh.length + ∑ j, reserve m s.lh (Function.update s.op i none j) ≤ maxOpBlocks + 2 * m
    omega
  · -- The last operation starts a commit.
    have hcount := hops.count
    have hzero : Tally.tally (fun j => (Function.update s.op i none j).isSome) true = 0 :=
      Tally.tally_eq_zero_iff.2 fun j => by
        have hj : Function.update s.op i none j = none := hall j
        rw [hj]
        simp
    have hz : s.outstanding - 1 = 0 := hcount.symm.trans hzero
    dsimp only at hidle
    rw [if_pos hz] at hidle
    cases hidle
  all_goals
    dsimp only at hc
    split_ifs at hc
    rw [hp] at hc
    cases hc

omit [DecidableEq ι] in
theorem work (h : Space m s) (sb : Super) : Space m (State.work sb s) := by
  have hops := h.ops.work sb
  by_cases hidle : s.phase = .idle
  · rw [State.work, hidle]
    exact h
  have hnone := h.ops.quiet hidle
  -- No operation is open: only the log matters.
  have hkeep : ∀ t : State ι, t.op = s.op → Ops t → (t.phase = .idle → t.lh = []) →
      (∀ {boot}, t.phase = .erase boot → t.lh = []) → (t.phase = .finish → t.lh = []) → Space m t := by
    intro t hop hops hlh herase hfinish
    have hnone' : ∀ j, t.op j = none := fun j => by rw [hop]; exact hnone j
    refine
      { ops := hops, small := fun {j q} hj => ?_, held := fun {j q c} hj => ?_,
        logged := fun {j q c} hj => ?_, fits := fun hp => ?_, empty := fun hp _ => hlh hp,
        erased := herase, finished := hfinish }
    · cases (hnone' j).symm.trans hj
    · cases (hnone' j).symm.trans hj
    · cases (hnone' j).symm.trans hj
    · rw [hlh hp]
      simp [hnone', reserve]
  rw [State.work] at hops ⊢
  cases hp : s.phase with
  | idle => exact absurd hp hidle
  | commit =>
    rw [hp] at hops
    dsimp only at hops ⊢
    split_ifs at hops ⊢ with hlh
    · exact hkeep _ rfl hops (fun hc => by cases hc) (fun hc => by cases hc) fun _ => hlh
    · exact hkeep _ rfl hops (fun hc => by cases hc) (fun hc => by cases hc) fun hc => by cases hc
  | writeLog tail =>
    rw [hp] at hops
    dsimp only at hops ⊢
    cases ht : s.lh[tail]? <;> rw [ht] at hops <;>
      exact hkeep _ rfl hops (fun hc => by cases hc) (fun hc => by cases hc) fun hc => by cases hc
  | writeHead =>
    rw [hp] at hops
    exact hkeep _ rfl hops (fun hc => by cases hc) (fun hc => by cases hc) fun hc => by cases hc
  | install tail boot =>
    rw [hp] at hops
    dsimp only at hops ⊢
    cases ht : s.lh[tail]? with
    | none =>
      rw [ht] at hops
      exact hkeep _ rfl hops (fun _ => rfl) (fun _ => rfl) fun _ => rfl
    | some b =>
      rw [ht] at hops
      exact hkeep _ rfl hops (fun hc => by cases hc) (fun hc => by cases hc) fun hc => by cases hc
  | erase boot =>
    rw [hp] at hops
    have hlh := h.erased hp
    exact hkeep _ rfl hops (fun _ => hlh) (fun _ => hlh) fun _ => hlh
  | finish =>
    rw [hp] at hops
    have hlh := h.finished hp
    exact hkeep _ rfl hops (fun _ => hlh) (fun _ => hlh) fun _ => hlh
  | readHead =>
    rw [hp] at hops
    exact hkeep _ rfl hops (fun hc => by cases hc) (fun hc => by cases hc) fun hc => by cases hc

omit [DecidableEq ι] in
theorem crash (s : State ι) : Space m s.crash where
  ops := Ops.crash s
  small hj := by cases hj
  held hj := by cases hj
  logged hj := by cases hj
  fits hp := by cases hp
  empty hp := by cases hp
  erased hp := by cases hp
  finished hp := by cases hp

/-- The array of the header does not overflow, and when the log has the blocks, `log_write` finds room. -/
def Stops (sb : Super) (m : ℕ) (e : Halt) : Prop :=
  e ≠ .wild ∧ (maxOpBlocks + 2 * m < sb.size - 1 → sb.size - 1 ≤ logSize → e ≠ .panic "too big a transaction")

theorem change_meets (h : Space m s) {b : ℕ} {x : Block} (hsmall : Small m s (.change i b x)) :
    Run.Meets (Stops sb m) (Space m) (State.change sb s i b x) := by
  cases hc : State.change sb s i b x with
  | ok t => exact h.change hsmall hc
  | error e =>
    rw [State.change] at hc
    cases ho : s.op i with
    | none =>
      rw [ho] at hc
      cases hc
    | some o =>
      rw [ho] at hc
      dsimp only at hc
      split_ifs at hc with hbusy hfull hout
      · cases hc
        refine ⟨by simp, fun hroom hmax => ?_⟩
        have hfits := h.fits (h.ops.idle ho)
        omega
      · cases hc
        exact ⟨by simp, fun _ _ => by simp⟩

theorem record_meets (h : Space m s) (hm : m ≤ maxOpBlocks) : Run.Meets (Stops sb m) (Space m) (s.record i) := by
  cases hr : s.record i with
  | ok t => exact h.record hr
  | error e =>
    exfalso
    rw [State.record] at hr
    split at hr
    · rename_i id b blocks ho
      rw [append] at hr
      split_ifs at hr with hb hfull
      · cases hr
      · -- The block was reserved.
        have hfits := h.fits (h.ops.idle ho)
        have hle : reserve m s.lh (s.op i) ≤ ∑ j, reserve m s.lh (s.op j) :=
          Finset.single_le_sum (fun j _ => Nat.zero_le (reserve m s.lh (s.op j))) (Finset.mem_univ i)
        have hpos : 1 ≤ reserve m s.lh (s.op i) := by
          rw [ho]
          simp only [reserve, Option.toList_some, List.filter_singleton, hb, not_false_eq_true, decide_true,
            cond_true, List.length_singleton]
          omega
        simp only [logSize, maxOpBlocks] at hfull hm hfits
        omega
      · cases hr
    · cases hr

theorem endOp_meets (h : Space m s) : Run.Meets (Stops sb m) (Space m) (s.endOp i) := by
  cases hr : s.endOp i with
  | ok t => exact h.endOp hr
  | error e =>
    rw [State.endOp] at hr
    split at hr
    · by_cases hc : s.committing = true
      · rw [if_pos hc] at hr
        cases hr
        exact ⟨by simp, fun _ _ => by simp⟩
      · rw [if_neg hc] at hr
        cases hr
    · cases hr

theorem step (h : Space m s) (hm : m ≤ maxOpBlocks) {e : Event ι} (hsmall : Small m s e) :
    Run.Meets (Stops sb m) (Space m) (Log.step sb s e) := by
  cases e with
  | beginOp i => exact h.beginOp hm i
  | change i b x => exact h.change_meets hsmall
  | record i => exact h.record_meets hm
  | endOp i => exact h.endOp_meets
  | work => exact h.work sb
  | read b =>
    show Space m (s.read b)
    have hops := h.ops.read b
    rw [State.read] at hops ⊢
    split_ifs at hops ⊢
    · exact h
    · exact ⟨hops, h.small, h.held, h.logged, h.fits, h.empty, h.erased, h.finished⟩
  | evict b =>
    show Space m (s.evict b)
    have hops := h.ops.evict b
    rw [State.evict] at hops ⊢
    split_ifs at hops ⊢
    · exact h
    · exact ⟨hops, h.small, h.held, h.logged, h.fits, h.empty, h.erased, h.finished⟩
  | crash => exact crash s

/-- No run of operations with at most `m` distinct blocks each stops otherwise. -/
theorem run (hm : m ≤ maxOpBlocks) {disk₀ : ℕ → Block} {es : List (Event ι)} {e : Halt}
    (hsmall : Run.Admits (Log.step sb) (Small m) es (boot disk₀))
    (hrun : Run.run (Log.step sb) es (boot disk₀) = .error e) : Stops sb m e := by
  have hmeets : Run.Meets (Stops sb m) (Space m) (Run.run (Log.step sb) es (boot disk₀)) :=
    Run.Meets.run (fun _ _ h he => h.step hm he) (crash (boot disk₀)) hsmall
  rw [hrun] at hmeets
  exact hmeets

end Space

/-- The array in the header is never overrun, although `log_write` looks for room before it has the lock. -/
theorem header_holds {ι : Type} [Fintype ι] [DecidableEq ι] {sb : Super} {disk₀ : ℕ → Block}
    {es : List (Event ι)} (hsmall : Run.Admits (Log.step sb) (Small maxOpBlocks) es (boot disk₀)) :
    Run.run (Log.step sb) es (boot disk₀) ≠ .error .wild := fun hrun =>
  (Space.run le_rfl hsmall hrun).1 rfl

/-- With the log that `mkfs` makes, no `log_write` panics for lack of space, as long as every operation
passes fewer than `MAXOPBLOCKS` distinct blocks to it. -/
theorem log_space {ι : Type} [Fintype ι] [DecidableEq ι] {sb : Super} (hsize : sb.size = logSize)
    {disk₀ : ℕ → Block} {es : List (Event ι)}
    (hsmall : Run.Admits (Log.step sb) (Small (maxOpBlocks - 1)) es (boot disk₀)) :
    Run.run (Log.step sb) es (boot disk₀) ≠ .error (.panic "too big a transaction") := by
  have hroom : maxOpBlocks + 2 * (maxOpBlocks - 1) < sb.size - 1 := by
    rw [hsize]
    decide
  intro hrun
  exact (Space.run (Nat.sub_le _ _) hsmall hrun).2 hroom (by omega) rfl

/-- One operation passes the blocks from `b` on to `log_write`. -/
def writes (i : Fin 3) (b n : ℕ) : List (Event (Fin 3)) :=
  (List.range n).flatMap fun k => [.change i (b + k) fun _ => 1, .record i]

/-- Three operations with `n` blocks each. -/
def three (n : ℕ) : List (Event (Fin 3)) :=
  List.replicate 3 .work ++ [.beginOp 0, .beginOp 1, .beginOp 2] ++ writes 0 100 n ++ writes 1 200 n ++
    writes 2 300 n

theorem header_holds_ten :
    Run.run (Log.step ⟨2, logSize⟩) (three 10) (boot fun _ _ => 0) ≠ .error .wild :=
  header_holds (.of_decide (by decide +kernel))

theorem log_space_nine :
    Run.run (Log.step ⟨2, logSize⟩) (three 9) (boot fun _ _ => 0) ≠ .error (.panic "too big a transaction") :=
  log_space rfl (.of_decide (by decide +kernel))

/-- Three operations with `MAXOPBLOCKS` blocks each are admitted, and the last block does not fit. -/
theorem three_fill_log :
    Run.passes (Log.step ⟨2, logSize⟩) (fun s e => decide (Small maxOpBlocks s e)) (three 10)
        (boot fun _ _ => 0) = true ∧
      Run.stop (Run.run (Log.step ⟨2, logSize⟩) (three 10) (boot fun _ _ => 0)) =
        some (.panic "too big a transaction") := by
  constructor <;> decide +kernel

end Xv6.Log
