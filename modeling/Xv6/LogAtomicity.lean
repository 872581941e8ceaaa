import Mathlib.Data.Fintype.Card
import Xv6.Lib.Tally
import Xv6.Log

/-!
# Crash atomicity

At any time the disk holds the home blocks as of the last committed transaction, up to the blocks that the
header names, of which the log has copies (`Coherent`).  The header changes in one block write, so that a
crash before it loses the transaction and a crash after it keeps all of it.  A transaction is committed
when no operation is open, so that it has all updates of every operation it contains (`Whole`).
-/

namespace Xv6.Log

open State

theorem update_eq_some {α β : Type*} [DecidableEq α] {f : α → Option β} {i j : α} {v : Option β} {q : β}
    (h : Function.update f i v j = some q) : j = i ∧ v = some q ∨ j ≠ i ∧ f j = some q := by
  by_cases hji : j = i
  · rw [hji, Function.update_self] at h
    exact .inl ⟨hji, h⟩
  · rw [Function.update_of_ne hji] at h
    exact .inr ⟨hji, h⟩

/-! ### What a step does -/

section Steps

variable {ι : Type} [DecidableEq ι] {sb : Super} {s s' : State ι} {i : ι}

theorem beginOp_cases (s : State ι) (i : ι) :
    s.beginOp i = s ∨ s.op i = none ∧ s.phase.booting = false ∧ s.committing = false ∧
      s.lh.length + (s.outstanding + 1) * maxOpBlocks ≤ logSize ∧
      s.beginOp i = { s with
        outstanding := s.outstanding + 1
        op := Function.update s.op i (some ⟨s.nextOp, none, ∅⟩)
        nextOp := s.nextOp + 1 } := by
  rw [beginOp]
  split_ifs with hin hwait
  · exact .inl rfl
  · exact .inl rfl
  · rw [not_or, Bool.not_eq_true, Bool.not_eq_true, Option.isSome_eq_false_iff, Option.isNone_iff_eq_none] at hin
    rw [not_or, Bool.not_eq_true, not_lt] at hwait
    exact .inr ⟨hin.1, hin.2, hwait.1, hwait.2, rfl⟩

theorem change_cases {b : ℕ} {x : Block} (h : change sb s i b x = .ok s') :
    s' = s ∨ ∃ o, s.op i = some o ∧ o.buf = none ∧ s.lock b = false ∧ s' = { s with
        cache := Function.update s.cache b (some x)
        lock := Function.update s.lock b true
        op := Function.update s.op i (some { o with buf := some b, blocks := insert b o.blocks })
        updates := s.updates ++ [⟨o.id, b, x⟩]
        trans := s.trans ++ [⟨o.id, b, x⟩] } := by
  rw [change] at h
  cases ho : s.op i with
  | none =>
    rw [ho] at h
    exact .inl (Except.ok.inj h).symm
  | some o =>
    rw [ho] at h
    dsimp only at h
    split_ifs at h with hbusy hfull hout
    · exact .inl (Except.ok.inj h).symm
    · rw [not_or, Bool.not_eq_true, Bool.not_eq_true, Option.isSome_eq_false_iff,
        Option.isNone_iff_eq_none] at hbusy
      exact .inr ⟨o, rfl, hbusy.1, hbusy.2, (Except.ok.inj h).symm⟩

theorem append_cases {lh lh' : List ℕ} {b : ℕ} (h : append lh b = .ok lh') :
    b ∈ lh ∧ lh' = lh ∨ b ∉ lh ∧ lh.length < logSize ∧ lh' = lh ++ [b] := by
  rw [append] at h
  split_ifs at h with hmem hfull
  · exact .inl ⟨hmem, (Except.ok.inj h).symm⟩
  · exact .inr ⟨hmem, not_le.1 hfull, (Except.ok.inj h).symm⟩

theorem record_cases (h : s.record i = .ok s') :
    s' = s ∨ ∃ id b blocks lh, s.op i = some ⟨id, some b, blocks⟩ ∧ append s.lh b = .ok lh ∧ s' = { s with
        lh := lh
        dirty := Function.update s.dirty b true
        lock := Function.update s.lock b false
        op := Function.update s.op i (some ⟨id, none, blocks⟩) } := by
  rw [record] at h
  split at h
  · rename_i id b blocks ho
    obtain ⟨lh, hlh, rfl⟩ := Run.map_ok h
    exact .inr ⟨id, b, blocks, lh, ho, hlh, rfl⟩
  · exact .inl (Except.ok.inj h).symm

theorem endOp_cases (h : s.endOp i = .ok s') :
    s' = s ∨ ∃ id blocks, s.op i = some ⟨id, none, blocks⟩ ∧ s.committing = false ∧ s' = { s with
        op := Function.update s.op i none
        outstanding := s.outstanding - 1
        committing := decide (s.outstanding - 1 = 0)
        phase := if s.outstanding - 1 = 0 then .commit else s.phase } := by
  rw [endOp] at h
  split at h
  · rename_i id blocks ho
    by_cases hc : s.committing = true
    · rw [if_pos hc] at h
      cases h
    · rw [if_neg hc] at h
      exact .inr ⟨id, blocks, ho, Bool.not_eq_true _ ▸ hc, (Except.ok.inj h).symm⟩
  · exact .inl (Except.ok.inj h).symm

end Steps

/-! ### Transactions -/

/-- What the operations that are open, by their numbers, have to do with the transactions. -/
structure Whole {ι : Type} (id : ι → Option ℕ) (next : ℕ) (updates trans : List Update)
    (committed : List (List Update)) : Prop where
  fresh : ∀ {u}, u ∈ updates → u.op < next
  ids : ∀ {i n}, id i = some n → n < next
  once : ∀ {i j n}, id i = some n → id j = some n → i = j
  running : ∀ {i n}, id i = some n → trans.filter (·.op = n) = updates.filter (·.op = n)
  waiting : ∀ {u}, u ∈ trans → trans.filter (·.op = u.op) = updates.filter (·.op = u.op)
  ended : ∀ {t u i}, t ∈ committed → u ∈ t → id i ≠ some u.op
  all : ∀ {t u}, t ∈ committed → u ∈ t → t.filter (·.op = u.op) = updates.filter (·.op = u.op)
  apart : committed.Pairwise fun t t' => ∀ u ∈ t, ∀ v ∈ t', u.op ≠ v.op
  later : ∀ {t u v}, t ∈ committed → u ∈ t → v ∈ trans → u.op ≠ v.op

namespace Whole

variable {ι : Type} {id id' : ι → Option ℕ} {next : ℕ} {updates trans : List Update}
  {committed : List (List Update)} {u : Update} {n : ℕ}

theorem filter_concat_of_ne {us : List Update} (h : u.op ≠ n) :
    (us ++ [u]).filter (·.op = n) = us.filter (·.op = n) := by
  rw [List.filter_append, List.filter_singleton]
  simp [h]

theorem filter_concat_congr {us vs : List Update}
    (h : us.filter (·.op = n) = vs.filter (·.op = n)) (u : Update) :
    (us ++ [u]).filter (·.op = n) = (vs ++ [u]).filter (·.op = n) := by
  rw [List.filter_append, List.filter_append, h]

section

variable (h : Whole id next updates trans committed)

include h

theorem drop (hsub : ∀ i n, id' i = some n → id i = some n) : Whole id' next updates trans committed where
  fresh := h.fresh
  ids hi := h.ids (hsub _ _ hi)
  once hi hj := h.once (hsub _ _ hi) (hsub _ _ hj)
  running hi := h.running (hsub _ _ hi)
  waiting := h.waiting
  ended ht hu hc := h.ended ht hu (hsub _ _ hc)
  all := h.all
  apart := h.apart
  later := h.later

theorem trans_lt (hu : u ∈ trans) : u.op < next := by
  have hmem : u ∈ updates.filter (·.op = u.op) := by
    rw [← h.waiting hu]
    exact List.mem_filter.2 ⟨hu, decide_eq_true rfl⟩
  exact h.fresh (List.mem_filter.1 hmem).1

theorem committed_lt {t : List Update} (ht : t ∈ committed) (hu : u ∈ t) : u.op < next := by
  have hmem : u ∈ updates.filter (·.op = u.op) := by
    rw [← h.all ht hu]
    exact List.mem_filter.2 ⟨hu, decide_eq_true rfl⟩
  exact h.fresh (List.mem_filter.1 hmem).1

theorem begin_ [DecidableEq ι] (i : ι) :
    Whole (Function.update id i (some next)) (next + 1) updates trans committed := by
  have hcases : ∀ {j n}, Function.update id i (some next) j = some n → j = i ∧ n = next ∨ id j = some n := by
    intro j n hj
    rcases update_eq_some hj with ⟨hji, hn⟩ | ⟨-, hj⟩
    · exact .inl ⟨hji, (Option.some.inj hn).symm⟩
    · exact .inr hj
  have hnone : ∀ {us : List Update}, (∀ u ∈ us, u.op < next) → us.filter (·.op = next) = [] := by
    intro us hus
    rw [List.filter_eq_nil_iff]
    intro u hu hc
    have := hus u hu
    have := of_decide_eq_true hc
    omega
  refine
    { fresh := fun hu => Nat.lt_succ_of_lt (h.fresh hu), ids := fun {j n} hj => ?_,
      once := fun {j k n} hj hk => ?_, running := fun {j n} hj => ?_, waiting := h.waiting,
      ended := fun {t u j} ht hu hj => ?_, all := h.all, apart := h.apart, later := h.later }
  · rcases hcases hj with ⟨-, rfl⟩ | hj
    · omega
    · exact Nat.lt_succ_of_lt (h.ids hj)
  · rcases hcases hj with ⟨rfl, rfl⟩ | hj' <;> rcases hcases hk with ⟨rfl, hn⟩ | hk'
    · rfl
    · exact absurd (h.ids hk') (lt_irrefl _)
    · exact absurd (h.ids hj') (hn ▸ lt_irrefl _)
    · exact h.once hj' hk'
  · rcases hcases hj with ⟨-, rfl⟩ | hj
    · rw [hnone fun u hu => h.trans_lt hu, hnone fun u hu => h.fresh hu]
    · exact h.running hj
  · rcases hcases hj with ⟨-, hn⟩ | hj
    · exact absurd (h.committed_lt ht hu) (hn ▸ lt_irrefl _)
    · exact h.ended ht hu hj

theorem update {i : ι} (hi : id i = some n) (b : ℕ) (x : Block) :
    Whole id next (updates ++ [⟨n, b, x⟩]) (trans ++ [⟨n, b, x⟩]) committed where
  fresh hu := by
    rcases List.mem_append.1 hu with hu | hu
    · exact h.fresh hu
    · rw [List.mem_singleton.1 hu]
      exact h.ids hi
  ids := h.ids
  once := h.once
  running hj := filter_concat_congr (h.running hj) _
  waiting {u} hu := by
    rcases List.mem_append.1 hu with hu | hu
    · exact filter_concat_congr (h.waiting hu) _
    · rw [List.mem_singleton.1 hu]
      exact filter_concat_congr (h.running hi) _
  ended := h.ended
  all {t u} ht hu := by
    have hne : n ≠ u.op := fun hc => h.ended ht hu (hc ▸ hi)
    rw [h.all ht hu, filter_concat_of_ne hne]
  apart := h.apart
  later {t u v} ht hu hv := by
    rcases List.mem_append.1 hv with hv | hv
    · exact h.later ht hu hv
    · rw [List.mem_singleton.1 hv]
      intro hc
      exact h.ended ht hu (hi.trans (congrArg some hc.symm))

theorem commit (hnone : ∀ i, id i = none) : Whole id next updates [] (committed ++ [trans]) where
  fresh := h.fresh
  ids := h.ids
  once := h.once
  running {i n} hi := by cases (hnone i).symm.trans hi
  waiting hu := by cases hu
  ended {t u i} _ _ hi := by cases (hnone i).symm.trans hi
  all {t u} ht hu := by
    rcases List.mem_append.1 ht with ht | ht
    · exact h.all ht hu
    · rw [List.mem_singleton] at ht
      subst ht
      exact h.waiting hu
  apart := by
    rw [List.pairwise_append]
    refine ⟨h.apart, List.pairwise_singleton _ _, fun t ht t' ht' u hu v hv => ?_⟩
    rw [List.mem_singleton] at ht'
    subst ht'
    exact h.later ht hu hv
  later _ _ hv := by cases hv

theorem lose : Whole (fun _ : ι => none) next updates [] committed where
  fresh := h.fresh
  ids hi := by cases hi
  once hi := by cases hi
  running hi := by cases hi
  waiting hu := by cases hu
  ended _ _ hi := by cases hi
  all := h.all
  apart := h.apart
  later _ _ hv := by cases hv

end

end Whole

/-! ### The disk and the cache -/

/-- What updates do to the blocks. -/
def changes (us : List Update) : List (ℕ × Block) := us.map fun u => (u.block, u.data)

theorem changes_append (us vs : List Update) : changes (us ++ vs) = changes us ++ changes vs :=
  List.map_append

/-- The cache against the disk and the intended contents `cur`. -/
structure Cached (sb : Super) (cur disk : ℕ → Block) (cache : ℕ → Option Block) (dirty lock : ℕ → Bool)
    (lh : List ℕ) (trans : List Update) : Prop where
  lh_home : ∀ {b}, b ∈ lh → sb.Home b
  /-- The blocks of the log are written through. -/
  log : ∀ {b x}, ¬sb.Home b → cache b = some x → disk b = x
  home : ∀ {b x}, sb.Home b → cache b = some x → cur b = x
  pinned : ∀ {b}, dirty b = true ∨ lock b = true → cache b ≠ none
  lock_home : ∀ {b}, lock b = true → sb.Home b
  updated : ∀ {u}, u ∈ trans → lock u.block = true ∨ u.block ∈ lh ∧ dirty u.block = true

namespace Cached

variable {sb : Super} {cur disk : ℕ → Block} {cache : ℕ → Option Block} {dirty lock : ℕ → Bool} {lh : List ℕ}
  {trans : List Update} {b : ℕ}

section

variable (h : Cached sb cur disk cache dirty lock lh trans)

include h

theorem bread_log (hb : ¬sb.Home b) : (cache b).getD (disk b) = disk b := by
  cases hc : cache b with
  | none => rfl
  | some x => exact (h.log hb hc).symm

theorem change (hb : sb.Home b) (x : Block) (n : ℕ) :
    Cached sb (Function.update cur b x) disk (Function.update cache b (some x)) dirty
      (Function.update lock b true) lh (trans ++ [⟨n, b, x⟩]) where
  lh_home := h.lh_home
  log {c y} hc hy := by
    have hcb : c ≠ b := fun heq => hc (heq ▸ hb)
    rw [Function.update_of_ne hcb] at hy
    exact h.log hc hy
  home {c y} hc hy := by
    by_cases hcb : c = b
    · rw [hcb, Function.update_self] at hy ⊢
      exact Option.some.inj hy
    · rw [Function.update_of_ne hcb] at hy ⊢
      exact h.home hc hy
  pinned {c} hc := by
    by_cases hcb : c = b
    · rw [hcb, Function.update_self]
      exact Option.some_ne_none x
    · rw [Function.update_of_ne hcb] at hc ⊢
      exact h.pinned hc
  lock_home {c} hc := by
    by_cases hcb : c = b
    · exact hcb ▸ hb
    · rw [Function.update_of_ne hcb] at hc
      exact h.lock_home hc
  updated {u} hu := by
    by_cases hub : u.block = b
    · left
      rw [hub, Function.update_self]
    · rw [Function.update_of_ne hub]
      rcases List.mem_append.1 hu with hu | hu
      · exact h.updated hu
      · rw [List.mem_singleton.1 hu] at hub
        exact absurd rfl hub

theorem record (hb : lock b = true) {lh' : List ℕ}
    (hsub : ∀ c ∈ lh, c ∈ lh') (hmem : b ∈ lh') (hinv : ∀ c ∈ lh', c = b ∨ c ∈ lh) :
    Cached sb cur disk cache (Function.update dirty b true) (Function.update lock b false) lh' trans where
  lh_home {c} hc := by
    rcases hinv c hc with rfl | hc
    · exact h.lock_home hb
    · exact h.lh_home hc
  log := h.log
  home := h.home
  pinned {c} hc := by
    by_cases hcb : c = b
    · rw [hcb]
      exact h.pinned (.inr hb)
    · rw [Function.update_of_ne hcb, Function.update_of_ne hcb] at hc
      exact h.pinned hc
  lock_home {c} hc := by
    by_cases hcb : c = b
    · exact hcb ▸ h.lock_home hb
    · rw [Function.update_of_ne hcb] at hc
      exact h.lock_home hc
  updated {u} hu := by
    by_cases hub : u.block = b
    · right
      rw [hub, Function.update_self]
      exact ⟨hmem, rfl⟩
    · rw [Function.update_of_ne hub, Function.update_of_ne hub]
      exact (h.updated hu).imp_right fun hu => ⟨hsub _ hu.1, hu.2⟩

theorem read {x : Block} (hlog : ¬sb.Home b → disk b = x) (hhome : sb.Home b → cur b = x) :
    Cached sb cur disk (Function.update cache b (some x)) dirty lock lh trans where
  lh_home := h.lh_home
  log {c y} hc hy := by
    by_cases hcb : c = b
    · rw [hcb, Function.update_self] at hy
      rw [hcb] at hc ⊢
      exact (hlog hc).trans (Option.some.inj hy)
    · rw [Function.update_of_ne hcb] at hy
      exact h.log hc hy
  home {c y} hc hy := by
    by_cases hcb : c = b
    · rw [hcb, Function.update_self] at hy
      rw [hcb] at hc ⊢
      exact (hhome hc).trans (Option.some.inj hy)
    · rw [Function.update_of_ne hcb] at hy
      exact h.home hc hy
  pinned {c} hc := by
    by_cases hcb : c = b
    · rw [hcb, Function.update_self]
      exact Option.some_ne_none x
    · rw [Function.update_of_ne hcb]
      exact h.pinned hc
  lock_home := h.lock_home
  updated := h.updated

theorem evict (hb : ¬(dirty b = true ∨ lock b = true)) :
    Cached sb cur disk (Function.update cache b none) dirty lock lh trans := by
  have hcache : ∀ {c x}, Function.update cache b none c = some x → cache c = some x := by
    intro c x hx
    by_cases hcb : c = b
    · rw [hcb, Function.update_self] at hx
      cases hx
    · rwa [Function.update_of_ne hcb] at hx
  refine ⟨h.lh_home, fun hc hy => h.log hc (hcache hy), fun hc hy => h.home hc (hcache hy), fun {c} hc => ?_,
    h.lock_home, h.updated⟩
  have hcb : c ≠ b := fun heq => hb (heq ▸ hc)
  rw [Function.update_of_ne hcb]
  exact h.pinned hc

theorem bwrite {x : Block} (hhome : sb.Home b → cur b = x ∧ trans = []) :
    Cached sb cur (Function.update disk b x) (Function.update cache b (some x))
      (Function.update dirty b false) lock lh trans where
  lh_home := h.lh_home
  log {c y} hc hy := by
    by_cases hcb : c = b
    · rw [hcb, Function.update_self] at hy ⊢
      exact Option.some.inj hy
    · rw [Function.update_of_ne hcb] at hy ⊢
      exact h.log hc hy
  home {c y} hc hy := by
    by_cases hcb : c = b
    · rw [hcb, Function.update_self] at hy
      rw [hcb] at hc ⊢
      exact (hhome hc).1.trans (Option.some.inj hy)
    · rw [Function.update_of_ne hcb] at hy
      exact h.home hc hy
  pinned {c} hc := by
    by_cases hcb : c = b
    · rw [hcb, Function.update_self]
      exact Option.some_ne_none x
    · rw [Function.update_of_ne hcb] at hc ⊢
      exact h.pinned hc
  lock_home := h.lock_home
  updated {u} hu := by
    by_cases hub : u.block = b
    · -- A block of the log is not updated, and a home block is written when there are no updates.
      by_cases hb : sb.Home b
      · rw [(hhome hb).2] at hu
        cases hu
      · rcases h.updated hu with hlock | ⟨hmem, -⟩
        · exact absurd (hub ▸ h.lock_home hlock) hb
        · exact absurd (hub ▸ h.lh_home hmem) hb
    · rw [Function.update_of_ne hub]
      exact h.updated hu

end

theorem crash : Cached sb cur disk (fun _ => none) (fun _ => false) (fun _ => false) [] [] where
  lh_home hc := by cases hc
  log _ hy := by cases hy
  home _ hy := by cases hy
  pinned hc := by rcases hc with hc | hc <;> cases hc
  lock_home hc := by cases hc
  updated hu := by cases hu

theorem clear {lh' : List ℕ} (h : Cached sb cur disk cache dirty lock lh trans) (hsub : ∀ b ∈ lh', sb.Home b) :
    Cached sb cur disk cache dirty lock lh' [] :=
  { h with lh_home := fun hc => hsub _ hc, updated := fun hu => by cases hu }

end Cached

/-- The disk: `H` up to the blocks `ns` that the header names. -/
structure OnDisk (sb : Super) (H disk : ℕ → Block) (ns : List ℕ) : Prop where
  header : entries (disk sb.start) = ns
  pending : Redo.Pending sb.Home H disk ns fun i => disk (sb.start + i + 1)
  home : ∀ {b}, b ∈ ns → sb.Home b
  size : ns.length ≤ logSize

theorem Super.not_home_start (sb : Super) : ¬sb.Home sb.start := by
  rw [Super.Home]
  omega

theorem Super.not_home_log (sb : Super) {i : ℕ} (hi : i < logSize) : ¬sb.Home (sb.start + i + 1) := by
  rw [Super.Home]
  omega

theorem entries_header (lh : List ℕ) (old : Block) : entries (header lh old) = lh := by
  apply List.ext_getElem?
  intro i
  rw [entries, List.getElem?_map]
  show Option.map _ (List.range lh.length)[i]? = lh[i]?
  by_cases hi : i < lh.length
  · rw [List.getElem?_range hi, List.getElem?_eq_getElem hi]
    simp [header, hi]
  · rw [List.getElem?_eq_none (by simpa using hi), List.getElem?_eq_none (by simpa using hi)]
    rfl

namespace OnDisk

variable {sb : Super} {H disk : ℕ → Block} {ns : List ℕ}

theorem rest_nil (h : OnDisk sb H disk []) {b : ℕ} (hb : sb.Home b) : disk b = H b :=
  h.pending.rest hb (by simp)

theorem writeLog (h : OnDisk sb H disk []) {i : ℕ} (hi : i < logSize) (x : Block) :
    OnDisk sb H (Function.update disk (sb.start + i + 1) x) [] where
  header := by
    rw [Function.update_of_ne (by omega)]
    exact h.header
  pending := by
    refine ⟨fun hj => (by cases hj), fun {b} hb _ => ?_⟩
    have hne : b ≠ sb.start + i + 1 := fun heq => sb.not_home_log hi (heq ▸ hb)
    rw [Function.update_of_ne hne]
    exact h.rest_nil hb
  home hb := by cases hb
  size := Nat.zero_le _

/-- The header is written once the copies of `lh` are, and the other blocks are as intended. -/
theorem writeHead {H' : ℕ → Block} {lh : List ℕ} (old : Block)
    (hcopies : ∀ i b, lh[i]? = some b → disk (sb.start + i + 1) = H' b)
    (hrest : ∀ b, sb.Home b → b ∉ lh → disk b = H' b) (hhome : ∀ {b}, b ∈ lh → sb.Home b)
    (hsize : lh.length ≤ logSize) : OnDisk sb H' (Function.update disk sb.start (State.header lh old)) lh where
  header := by
    rw [Function.update_self]
    exact entries_header lh old
  pending := by
    refine ⟨fun {i k} hi => ?_, fun {b} hb hnot => ?_⟩
    · rw [Function.update_of_ne (by omega)]
      exact hcopies i k hi
    · have hne : b ≠ sb.start := fun heq => sb.not_home_start (heq ▸ hb)
      rw [Function.update_of_ne hne]
      exact hrest b hb hnot
  home := hhome
  size := hsize

theorem install (h : OnDisk sb H disk ns) {t b : ℕ} (ht : ns[t]? = some b) :
    OnDisk sb H (Function.update disk b (disk (sb.start + t + 1))) ns := by
  have hb : sb.Home b := h.home (List.mem_of_getElem? ht)
  have hkeep : ∀ {a}, ¬sb.Home a → Function.update disk b (disk (sb.start + t + 1)) a = disk a := fun ha =>
    Function.update_of_ne (fun heq => ha (by rwa [heq])) _ _
  refine ⟨?_, ⟨fun {i k} hi => ?_, (h.pending.install ht).rest⟩, h.home, h.size⟩
  · rw [hkeep sb.not_home_start]
    exact h.header
  · have hlt : i < logSize := lt_of_lt_of_le (List.getElem?_eq_some_iff.1 hi).1 h.size
    rw [hkeep (sb.not_home_log hlt)]
    exact h.pending.copies hi

theorem erase (h : OnDisk sb H disk ns) (hdone : ∀ b ∈ ns, disk b = H b) (old : Block) :
    OnDisk sb H (Function.update disk sb.start (State.header [] old)) [] :=
  writeHead old (fun i b (hi : ([] : List ℕ)[i]? = some b) => (by cases hi))
    (fun b hb _ => h.pending.done hdone hb) (fun hb => (by cases hb)) (Nat.zero_le _)

end OnDisk

section Disk

variable {ι : Type} (sb : Super) (disk₀ : ℕ → Block)

/-- The blocks after the committed transactions. -/
def base (s : State ι) : ℕ → Block := Redo.apply (changes s.committed.flatten) disk₀

/-- The blocks after all updates that are not lost. -/
def current (s : State ι) : ℕ → Block := Redo.apply (changes s.trans) (base disk₀ s)

/-- What the commit or the recovery has done so far, when the header names `ns`. -/
def Progress (ns : List ℕ) (s : State ι) : Phase → Prop
  | .idle | .commit => ns = [] ∧ ∀ b ∈ s.lh, s.dirty b = true
  | .writeLog tail =>
    ns = [] ∧ (∀ b ∈ s.lh, s.dirty b = true) ∧
      ∀ i b, i < tail → s.lh[i]? = some b → s.disk (sb.start + i + 1) = current disk₀ s b
  | .writeHead =>
    ns = [] ∧ (∀ b ∈ s.lh, s.dirty b = true) ∧
      ∀ i b, s.lh[i]? = some b → s.disk (sb.start + i + 1) = current disk₀ s b
  | .install tail boot =>
    ns = s.lh ∧ s.trans = [] ∧ (∀ i b, i < tail → s.lh[i]? = some b → s.disk b = base disk₀ s b) ∧
      (boot = false → ∀ b ∈ s.lh, s.dirty b = true ∨ s.disk b = base disk₀ s b)
  | .erase _ => s.lh = [] ∧ s.trans = [] ∧ ∀ b ∈ ns, s.disk b = base disk₀ s b
  | .finish => ns = [] ∧ s.lh = [] ∧ s.trans = []
  | .readHead => s.lh = [] ∧ s.trans = [] ∧ ∀ b, s.cache b = none

structure Coherent (ns : List ℕ) (s : State ι) : Prop where
  onDisk : OnDisk sb (base disk₀ s) s.disk ns
  lh_size : s.lh.length ≤ logSize
  cached : Cached sb (current disk₀ s) s.disk s.cache s.dirty s.lock s.lh s.trans
  progress : Progress sb disk₀ ns s s.phase

end Disk

section Coherence

variable {ι : Type} {sb : Super} {disk₀ : ℕ → Block} {ns : List ℕ} {s : State ι}

theorem current_of_nil (h : s.trans = []) : current disk₀ s = base disk₀ s := by
  rw [current, h]
  rfl

namespace Coherent

variable {b tail : ℕ} {boot : Bool}

section

variable (h : Coherent sb disk₀ ns s)

include h

/-- A block that is neither locked nor recorded has not been updated since the last commit. -/
theorem current_eq_base
    (hb : ¬(s.lock b = true ∨ b ∈ s.lh ∧ s.dirty b = true)) : current disk₀ s b = base disk₀ s b := by
  apply Redo.apply_of_forall_ne
  intro u hu hub
  obtain ⟨v, hv, rfl⟩ := List.mem_map.1 hu
  subst hub
  exact hb (h.cached.updated hv)

/-- A block outside the log that is not in the cache is up to date on the disk. -/
theorem disk_eq_current (hboot : s.phase.booting = false)
    (hb : sb.Home b) (hc : s.cache b = none) : s.disk b = current disk₀ s b := by
  have hfree : ¬(s.lock b = true ∨ b ∈ s.lh ∧ s.dirty b = true) := by
    rintro (hlock | ⟨-, hdirty⟩)
    · exact h.cached.pinned (.inr hlock) hc
    · exact h.cached.pinned (.inl hdirty) hc
  rw [h.current_eq_base hfree]
  have hprog := h.progress
  have hdisk := h.onDisk
  cases hp : s.phase with
  | idle | commit | writeLog _ | writeHead | finish =>
    rw [hp] at hprog
    rw [hprog.1] at hdisk
    exact hdisk.rest_nil hb
  | install tail boot =>
    rw [hp] at hprog hboot
    obtain ⟨hns, -, -, hleft⟩ := hprog
    cases boot with
    | true => cases hboot
    | false =>
      by_cases hmem : b ∈ ns
      · -- A block that is not yet installed is dirty, so it is in the cache.
        rcases hleft rfl b (hns ▸ hmem) with hdirty | hdone
        · exact absurd hc (h.cached.pinned (.inl hdirty))
        · exact hdone
      · exact hdisk.pending.rest hb hmem
  | erase boot =>
    rw [hp] at hprog
    exact hdisk.pending.done hprog.2.2 hb
  | readHead =>
    rw [hp] at hboot
    cases hboot

theorem bread_home (hboot : s.phase.booting = false) (hb : sb.Home b) : s.bread b = current disk₀ s b := by
  rw [bread]
  cases hc : s.cache b with
  | none => exact h.disk_eq_current hboot hb hc
  | some x => exact (h.cached.home hb hc).symm

/-! One lemma for each thing that happens. -/

theorem change (hp : s.phase = .idle) (hb : sb.Home b) (x : Block)
    (n : ℕ) (op : ι → Option Op) (us : List Update) :
    Coherent sb disk₀ ns { s with
      cache := Function.update s.cache b (some x)
      lock := Function.update s.lock b true
      op := op
      updates := us
      trans := s.trans ++ [⟨n, b, x⟩] } := by
  have hprog := h.progress
  have hcur : Redo.apply (changes (s.trans ++ [⟨n, b, x⟩])) (base disk₀ s) =
      Function.update (current disk₀ s) b x := by
    rw [changes_append]
    exact Redo.apply_concat _ _ _ _
  refine ⟨h.onDisk, h.lh_size, ?_, ?_⟩
  · show Cached sb (Redo.apply (changes (s.trans ++ [⟨n, b, x⟩])) (base disk₀ s)) _ _ _ _ _ _
    rw [hcur]
    exact h.cached.change hb x n
  · rw [hp] at hprog ⊢
    exact hprog

theorem record (hp : s.phase = .idle) (hb : s.lock b = true)
    {lh : List ℕ} (hlh : append s.lh b = .ok lh) (op : ι → Option Op) :
    Coherent sb disk₀ ns { s with
      lh := lh
      dirty := Function.update s.dirty b true
      lock := Function.update s.lock b false
      op := op } := by
  have hprog := h.progress
  rw [hp] at hprog
  obtain ⟨hsub, hmem, hinv, hsize⟩ : (∀ c ∈ s.lh, c ∈ lh) ∧ b ∈ lh ∧ (∀ c ∈ lh, c = b ∨ c ∈ s.lh) ∧
      lh.length ≤ logSize := by
    rcases append_cases hlh with ⟨hmem, rfl⟩ | ⟨-, hroom, rfl⟩
    · exact ⟨fun _ hc => hc, hmem, fun _ hc => .inr hc, h.lh_size⟩
    · refine ⟨fun c hc => List.mem_append_left _ hc, List.mem_append_right _ List.mem_cons_self,
        fun c hc => ?_, ?_⟩
      · rcases List.mem_append.1 hc with hc | hc
        · exact .inr hc
        · exact .inl (List.mem_singleton.1 hc)
      · rw [List.length_append, List.length_singleton]
        exact hroom
  refine ⟨h.onDisk, hsize, h.cached.record hb hsub hmem hinv, ?_⟩
  rw [hp]
  refine ⟨hprog.1, fun c hc => ?_⟩
  show Function.update s.dirty b true c = true
  by_cases hcb : c = b
  · rw [hcb, Function.update_self]
  · rw [Function.update_of_ne hcb]
    exact hprog.2 c ((hinv c hc).resolve_left hcb)

theorem read (b : ℕ) : Coherent sb disk₀ ns (s.read b) := by
  rw [State.read]
  by_cases hboot : s.phase.booting = true
  · rw [if_pos hboot]
    exact h
  rw [if_neg hboot]
  rw [Bool.not_eq_true] at hboot
  have hprog := h.progress
  refine ⟨h.onDisk, h.lh_size, h.cached.read (fun hb => ?_) (fun hb => ?_), ?_⟩
  · exact (h.cached.bread_log hb).symm
  · exact (h.bread_home hboot hb).symm
  · cases hp : s.phase with
    | readHead =>
      rw [hp] at hboot
      cases hboot
    | _ =>
      rw [hp] at hprog
      exact hprog

theorem evict (b : ℕ) : Coherent sb disk₀ ns (s.evict b) := by
  rw [State.evict]
  by_cases huse : s.dirty b = true ∨ s.lock b = true
  · rw [if_pos huse]
    exact h
  rw [if_neg huse]
  have hprog := h.progress
  refine ⟨h.onDisk, h.lh_size, h.cached.evict huse, ?_⟩
  cases hp : s.phase with
  | readHead =>
    rw [hp] at hprog
    refine ⟨hprog.1, hprog.2.1, fun c => ?_⟩
    show Function.update s.cache b none c = none
    by_cases hcb : c = b
    · rw [hcb, Function.update_self]
    · rw [Function.update_of_ne hcb]
      exact hprog.2.2 c
  | _ =>
    rw [hp] at hprog
    exact hprog

theorem crash : Coherent sb disk₀ ns s.crash :=
  ⟨h.onDisk, Nat.zero_le _, .crash, rfl, rfl, fun _ => rfl⟩

theorem writeLog (hp : s.phase = .writeLog tail) (ht : s.lh[tail]? = some b) : Coherent sb disk₀ ns
      { s.bwrite (sb.start + tail + 1) (s.bread b) with phase := .writeLog (tail + 1) } := by
  have hprog := h.progress
  rw [hp] at hprog
  obtain ⟨rfl, hdirty, hcopies⟩ := hprog
  have hlt : tail < logSize := lt_of_lt_of_le (List.getElem?_eq_some_iff.1 ht).1 h.lh_size
  have hlog : ¬sb.Home (sb.start + tail + 1) := sb.not_home_log hlt
  have hb : s.bread b = current disk₀ s b := by
    apply h.bread_home _ (h.cached.lh_home (List.mem_of_getElem? ht))
    rw [hp]
    rfl
  refine ⟨h.onDisk.writeLog hlt _, h.lh_size, h.cached.bwrite fun hc => absurd hc hlog, rfl,
    fun c hc => ?_, fun i c hi hc => ?_⟩
  · show Function.update s.dirty _ false c = true
    have hne : c ≠ sb.start + tail + 1 := fun heq => hlog (heq ▸ h.cached.lh_home hc)
    rw [Function.update_of_ne hne]
    exact hdirty c hc
  · show Function.update s.disk _ _ _ = current disk₀ s c
    by_cases hit : i = tail
    · subst hit
      rw [Function.update_self, hb, Option.some.inj (ht.symm.trans hc)]
    · rw [Function.update_of_ne (by omega)]
      exact hcopies i c (by omega) hc

theorem writeHead (hp : s.phase = .writeHead) (hquiet : ∀ b, s.lock b = false) :
    Coherent sb disk₀ s.lh { s.bwrite sb.start (header s.lh (s.bread sb.start)) with
      phase := .install 0 false
      trans := []
      committed := s.committed ++ [s.trans] } := by
  have hprog := h.progress
  rw [hp] at hprog
  obtain ⟨rfl, hdirty, hcopies⟩ := hprog
  have hbase : Redo.apply (changes (s.committed ++ [s.trans]).flatten) disk₀ = current disk₀ s := by
    rw [List.flatten_append, List.flatten_singleton, changes_append, Redo.apply_append]
    rfl
  have hrest : ∀ b, sb.Home b → b ∉ s.lh → s.disk b = current disk₀ s b := by
    intro b hb hnot
    have hfree : ¬(s.lock b = true ∨ b ∈ s.lh ∧ s.dirty b = true) := by
      rintro (hlock | ⟨hmem, -⟩)
      · cases (hquiet b).symm.trans hlock
      · exact hnot hmem
    rw [h.current_eq_base hfree]
    exact h.onDisk.rest_nil hb
  refine ⟨?_, h.lh_size, ?_, rfl, rfl, fun i b hi => absurd hi (Nat.not_lt_zero i), fun _ b hb => .inl ?_⟩
  · show OnDisk sb (Redo.apply (changes (s.committed ++ [s.trans]).flatten) disk₀) _ _
    rw [hbase]
    exact .writeHead _ hcopies hrest h.cached.lh_home h.lh_size
  · show Cached sb (Redo.apply (changes (s.committed ++ [s.trans]).flatten) disk₀) _ _ _ _ _ _
    rw [hbase]
    exact (h.cached.bwrite fun hc => absurd hc sb.not_home_start).clear fun _ hb => h.cached.lh_home hb
  · show Function.update s.dirty _ false b = true
    have hne : b ≠ sb.start := fun heq => sb.not_home_start (heq ▸ h.cached.lh_home hb)
    rw [Function.update_of_ne hne]
    exact hdirty b hb

theorem install (hp : s.phase = .install tail boot) (ht : s.lh[tail]? = some b) : Coherent sb disk₀ ns
      { s.bwrite b (s.bread (sb.start + tail + 1)) with phase := .install (tail + 1) boot } := by
  have hprog := h.progress
  rw [hp] at hprog
  obtain ⟨rfl, hnil, hdone, hleft⟩ := hprog
  have hlt : tail < logSize := lt_of_lt_of_le (List.getElem?_eq_some_iff.1 ht).1 h.lh_size
  have hbread : s.bread (sb.start + tail + 1) = s.disk (sb.start + tail + 1) :=
    h.cached.bread_log (sb.not_home_log hlt)
  have hpend := h.onDisk.pending
  rw [hbread]
  refine ⟨h.onDisk.install ht, h.lh_size, h.cached.bwrite fun _ => ⟨?_, hnil⟩, rfl, hnil,
    fun i c hi hc => ?_, fun hboot c hc => ?_⟩
  · rw [current_of_nil hnil]
    exact (hpend.copies ht).symm
  · refine hpend.installed ht ?_
    rcases Nat.lt_succ_iff_lt_or_eq.1 hi with hi | rfl
    · exact .inl (hdone i c hi hc)
    · exact .inr (Option.some.inj (hc.symm.trans ht))
  · show Function.update s.dirty b false c = true ∨ _
    by_cases hcb : c = b
    · exact .inr (hpend.installed ht (.inr hcb))
    · rw [Function.update_of_ne hcb]
      exact (hleft hboot c hc).imp_right fun hc => hpend.installed ht (.inl hc)

theorem installed (hp : s.phase = .install tail boot)
    (ht : s.lh[tail]? = none) : Coherent sb disk₀ ns { s with lh := [], phase := .erase boot } := by
  have hprog := h.progress
  rw [hp] at hprog
  obtain ⟨rfl, hnil, hdone, -⟩ := hprog
  refine ⟨h.onDisk, Nat.zero_le _, ?_, rfl, hnil, fun b hb => ?_⟩
  · show Cached sb (current disk₀ s) s.disk s.cache s.dirty s.lock [] s.trans
    rw [hnil]
    exact h.cached.clear fun _ hb => by cases hb
  · obtain ⟨i, hi⟩ := List.mem_iff_getElem?.1 hb
    have hlen := (List.getElem?_eq_some_iff.1 hi).1
    exact hdone i b (lt_of_lt_of_le hlen (List.getElem?_eq_none_iff.1 ht)) hi

theorem erase (hp : s.phase = .erase boot) :
    Coherent sb disk₀ [] { s.bwrite sb.start (header s.lh (s.bread sb.start)) with
      phase := if boot then .idle else .finish } := by
  have hprog := h.progress
  rw [hp] at hprog
  obtain ⟨hlh, hnil, hdone⟩ := hprog
  refine ⟨?_, h.lh_size, h.cached.bwrite fun hc => absurd hc sb.not_home_start, ?_⟩
  · rw [hlh]
    exact h.onDisk.erase hdone _
  · cases boot with
    | true =>
      refine ⟨rfl, fun b (hb : b ∈ s.lh) => ?_⟩
      rw [hlh] at hb
      cases hb
    | false => exact ⟨rfl, hlh, hnil⟩

theorem readHead (hp : s.phase = .readHead) :
    Coherent sb disk₀ ns { s with lh := entries (s.bread sb.start), phase := .install 0 true } := by
  have hprog := h.progress
  rw [hp] at hprog
  obtain ⟨hlh, hnil, hcache⟩ := hprog
  have hread : entries (s.bread sb.start) = ns := by
    rw [bread, hcache]
    exact h.onDisk.header
  rw [hread]
  refine ⟨h.onDisk, h.onDisk.size, ?_, rfl, hnil, fun i b hi => absurd hi (Nat.not_lt_zero i),
    fun hc => by cases hc⟩
  show Cached sb (current disk₀ s) s.disk s.cache s.dirty s.lock ns s.trans
  rw [hnil]
  exact h.cached.clear fun _ hb => h.onDisk.home hb

theorem work (hquiet : s.phase ≠ .idle → ∀ b, s.lock b = false) :
    ∃ ns', Coherent sb disk₀ ns' (State.work sb s) := by
  have hprog := h.progress
  rw [State.work]
  cases hp : s.phase with
  | idle => exact ⟨ns, h⟩
  | commit =>
    rw [hp] at hprog
    refine ⟨ns, h.onDisk, h.lh_size, h.cached, ?_⟩
    dsimp only
    split_ifs with hlh
    · refine ⟨hprog.1, hlh, List.eq_nil_iff_forall_not_mem.2 fun u hu => ?_⟩
      rcases h.cached.updated hu with hlock | ⟨hmem, -⟩
      · cases (hquiet (by rw [hp]; simp) _).symm.trans hlock
      · rw [hlh] at hmem
        cases hmem
    · exact ⟨hprog.1, hprog.2, fun i _ hi => absurd hi (Nat.not_lt_zero i)⟩
  | writeLog tail =>
    dsimp only
    cases ht : s.lh[tail]? with
    | none =>
      rw [hp] at hprog
      refine ⟨ns, h.onDisk, h.lh_size, h.cached, hprog.1, hprog.2.1, fun i b hi => ?_⟩
      have hlen := (List.getElem?_eq_some_iff.1 hi).1
      exact hprog.2.2 i b (lt_of_lt_of_le hlen (List.getElem?_eq_none_iff.1 ht)) hi
    | some b => exact ⟨ns, h.writeLog hp ht⟩
  | writeHead => exact ⟨_, h.writeHead hp (hquiet (by rw [hp]; simp))⟩
  | install tail boot =>
    dsimp only
    cases ht : s.lh[tail]? with
    | none => exact ⟨ns, h.installed hp ht⟩
    | some b => exact ⟨ns, h.install hp ht⟩
  | erase boot => exact ⟨_, h.erase hp⟩
  | finish =>
    rw [hp] at hprog
    refine ⟨ns, h.onDisk, h.lh_size, h.cached, hprog.1, fun b hb => ?_⟩
    rw [show s.lh = [] from hprog.2.1] at hb
    cases hb
  | readHead => exact ⟨ns, h.readHead hp⟩

end

end Coherent

end Coherence

/-! ### Operations -/

section Operations

open Tally (tally)

variable {ι : Type}

/-- The operations that are open, and the buffers they have locked. -/
structure Ops [Fintype ι] (s : State ι) : Prop where
  count : tally (fun i => (s.op i).isSome) true = s.outstanding
  calm : s.committing = true ∨ s.phase.booting = true ∨ s.phase = .idle
  quiet : s.phase ≠ .idle → ∀ i, s.op i = none
  lock : ∀ {b}, s.lock b = true → ∃ i o, s.op i = some o ∧ o.buf = some b
  buf : ∀ {i o b}, s.op i = some o → o.buf = some b → s.lock b = true
  once : ∀ {i j o o' b}, s.op i = some o → s.op j = some o' → o.buf = some b → o'.buf = some b → i = j

namespace Ops

variable [Fintype ι] {s : State ι} {i : ι} {t : State ι}

theorem idle (h : Ops s) {o : Op} (ho : s.op i = some o) : s.phase = .idle := by
  by_contra hp
  cases (h.quiet hp i).symm.trans ho

theorem unlocked (h : Ops s) (hp : s.phase ≠ .idle) (b : ℕ) : s.lock b = false := by
  rw [← Bool.not_eq_true]
  intro hb
  obtain ⟨j, o, ho, -⟩ := h.lock hb
  cases (h.quiet hp j).symm.trans ho

variable [DecidableEq ι]

theorem rebuf (h : Ops s) {o o' : Op} (ho : s.op i = some o)
    (hlock : ∀ b, t.lock b = true ↔ o'.buf = some b ∨ s.lock b = true ∧ o.buf ≠ some b)
    (hfree : ∀ b, o'.buf = some b → s.lock b = false) (hout : t.outstanding = s.outstanding)
    (hph : t.phase = s.phase) (hop : t.op = Function.update s.op i (some o')) : Ops t := by
  have hp := h.idle ho
  have hcases : ∀ {j q}, t.op j = some q → j = i ∧ q = o' ∨ j ≠ i ∧ s.op j = some q := by
    intro j q hj
    rw [hop] at hj
    exact (update_eq_some hj).imp_left fun hj => ⟨hj.1, (Option.some.inj hj.2).symm⟩
  refine
    { count := ?_, calm := ?_, quiet := ?_, lock := fun {b} hb => ?_, buf := fun {j q b} hj hq => ?_,
      once := fun {j k q q' b} hj hk hq hq' => ?_ }
  · have hupd := Tally.tally_update (fun j => (s.op j).isSome) i true true
    rw [hop, hout, ← h.count]
    show tally (Option.isSome ∘ Function.update s.op i (some o')) true = _
    rw [Function.comp_update]
    simp only [ho, Option.isSome_some, if_true] at hupd
    exact Nat.add_right_cancel hupd
  · exact .inr (.inr (hph.trans hp))
  · intro hc
    rw [hph] at hc
    exact absurd hp hc
  · rw [hlock] at hb
    rcases hb with hb | ⟨hb, hne⟩
    · exact ⟨i, o', by rw [hop, Function.update_self], hb⟩
    · obtain ⟨j, q, hj, hq⟩ := h.lock hb
      have hji : j ≠ i := by
        rintro rfl
        cases hj.symm.trans ho
        exact hne hq
      exact ⟨j, q, by rw [hop, Function.update_of_ne hji]; exact hj, hq⟩
  · rw [hlock]
    rcases hcases hj with ⟨-, rfl⟩ | ⟨hji, hj⟩
    · exact .inl hq
    · exact .inr ⟨h.buf hj hq, fun hc => hji (h.once hj ho hq hc)⟩
  · rcases hcases hj with ⟨rfl, rfl⟩ | ⟨-, hj⟩ <;> rcases hcases hk with ⟨rfl, rfl⟩ | ⟨-, hk⟩
    · rfl
    · cases (hfree b hq).symm.trans (h.buf hk hq')
    · cases (hfree b hq').symm.trans (h.buf hj hq)
    · exact h.once hj hk hq hq'

theorem beginOp (h : Ops s) (i : ι) : Ops (s.beginOp i) := by
  rcases beginOp_cases s i with heq | ⟨hnone, hboot, hcom, -, heq⟩
  · rw [heq]
    exact h
  have hp : s.phase = .idle := by
    rcases h.calm with hc | hc | hc
    · cases hcom.symm.trans hc
    · cases hboot.symm.trans hc
    · exact hc
  have hcases : ∀ {j q b}, (s.beginOp i).op j = some q → q.buf = some b → j ≠ i ∧ s.op j = some q := by
    intro j q b hj hq
    rw [heq] at hj
    rcases update_eq_some hj with ⟨-, hj⟩ | hj
    · cases hj
      cases hq
    · exact hj
  have hlock : (s.beginOp i).lock = s.lock := by rw [heq]
  refine
    { count := ?_, calm := ?_, quiet := ?_, lock := fun {b} hb => ?_, buf := fun {j q b} hj hq => ?_,
      once := fun {j k q q' b} hj hk hq hq' => ?_ }
  · have hupd := Tally.tally_update (fun j => (s.op j).isSome) i true true
    rw [heq]
    show tally (Option.isSome ∘ Function.update s.op i _) true = s.outstanding + 1
    rw [Function.comp_update, ← h.count]
    simp only [hnone, Option.isSome_none, Bool.false_eq_true, if_false, if_true, Nat.add_zero] at hupd
    exact hupd
  · rw [heq]
    exact .inr (.inr hp)
  · rw [heq]
    intro hc
    exact absurd hp hc
  · rw [hlock] at hb
    obtain ⟨j, q, hj, hq⟩ := h.lock hb
    have hji : j ≠ i := by
      rintro rfl
      cases hj.symm.trans hnone
    refine ⟨j, q, ?_, hq⟩
    rw [heq]
    exact (Function.update_of_ne hji _ _).trans hj
  · rw [hlock]
    exact h.buf (hcases hj hq).2 hq
  · exact h.once (hcases hj hq).2 (hcases hk hq').2 hq hq'

theorem endOp (h : Ops s) (hend : s.endOp i = .ok t) : Ops t := by
  rcases endOp_cases hend with rfl | ⟨id, blocks, ho, hcom, rfl⟩
  · exact h
  have hp := h.idle ho
  have hcases : ∀ {j q}, Function.update s.op i none j = some q → j ≠ i ∧ s.op j = some q := by
    intro j q hj
    exact (update_eq_some hj).resolve_left fun hc => by cases hc.2
  have hcount : tally (fun j => (Function.update s.op i none j).isSome) true = s.outstanding - 1 := by
    have hupd := Tally.tally_update (fun j => (s.op j).isSome) i false true
    show tally (Option.isSome ∘ Function.update s.op i none) true = _
    rw [Function.comp_update]
    simp only [ho, Option.isSome_some, Bool.false_eq_true, if_false, if_true, Nat.add_zero] at hupd
    rw [← h.count]
    exact Nat.eq_sub_of_add_eq hupd
  refine
    { count := hcount, calm := ?_, quiet := ?_, lock := fun {b} hb => ?_, buf := fun {j q b} hj hq => ?_,
      once := fun {j k q q' b} hj hk hq hq' => h.once (hcases hj).2 (hcases hk).2 hq hq' }
  · dsimp only
    by_cases hz : s.outstanding - 1 = 0
    · exact .inl (decide_eq_true hz)
    · rw [if_neg hz]
      exact .inr (.inr hp)
  · dsimp only
    intro hc j
    by_cases hz : s.outstanding - 1 = 0
    · -- The last operation has ended.
      have hj := Tally.tally_eq_zero_iff.1 (hcount.trans hz) j
      rwa [ne_eq, Bool.not_eq_true, Option.isSome_eq_false_iff, Option.isNone_iff_eq_none] at hj
    · rw [if_neg hz] at hc
      exact absurd hp hc
  · obtain ⟨j, q, hj, hq⟩ := h.lock hb
    have hji : j ≠ i := by
      rintro rfl
      cases hj.symm.trans ho
      cases hq
    exact ⟨j, q, (Function.update_of_ne hji _ _).trans hj, hq⟩
  · exact h.buf (hcases hj).2 hq

omit [DecidableEq ι] in
theorem work (h : Ops s) (sb : Super) : Ops (State.work sb s) := by
  -- Only the phase and `log.committing` matter here.
  have hkeep : ∀ t : State ι, s.phase ≠ .idle → t.outstanding = s.outstanding → t.op = s.op →
      t.lock = s.lock → t.committing = true ∨ t.phase.booting = true ∨ t.phase = .idle → Ops t := by
    intro t hp hout hop hlock hcalm
    refine ⟨?_, hcalm, fun _ i => ?_, fun {b} hb => ?_, fun {j q b} hj hq => ?_,
      fun {j k q q' b} hj hk hq hq' => ?_⟩
    · rw [hop, hout]
      exact h.count
    · rw [hop]
      exact h.quiet hp i
    · rw [hlock] at hb
      rw [hop]
      exact h.lock hb
    · rw [hop] at hj
      rw [hlock]
      exact h.buf hj hq
    · rw [hop] at hj hk
      exact h.once hj hk hq hq'
  have hcalm := h.calm
  rw [State.work]
  cases hp : s.phase with
  | idle => exact h
  | commit =>
    rw [hp] at hcalm
    refine hkeep _ (by rw [hp]; simp) rfl rfl rfl (.inl ?_)
    simpa [Phase.booting] using hcalm
  | writeLog tail =>
    rw [hp] at hcalm
    have hcom : s.committing = true := by simpa [Phase.booting] using hcalm
    dsimp only
    cases s.lh[tail]? <;> exact hkeep _ (by rw [hp]; simp) rfl rfl rfl (.inl hcom)
  | writeHead =>
    rw [hp] at hcalm
    have hcom : s.committing = true := by simpa [Phase.booting] using hcalm
    exact hkeep _ (by rw [hp]; simp) rfl rfl rfl (.inl hcom)
  | install tail boot =>
    rw [hp] at hcalm
    have hcalm' : s.committing = true ∨ boot = true := by
      cases boot
      · simpa [Phase.booting] using hcalm
      · exact .inr rfl
    dsimp only
    cases s.lh[tail]? <;> refine hkeep _ (by rw [hp]; simp) rfl rfl rfl (hcalm'.imp_right fun hb => .inl ?_) <;>
      rw [hb] <;> rfl
  | erase boot =>
    rw [hp] at hcalm
    have hcalm' : s.committing = true ∨ boot = true := by
      cases boot
      · simpa [Phase.booting] using hcalm
      · exact .inr rfl
    refine hkeep _ (by rw [hp]; simp) rfl rfl rfl (hcalm'.imp_right fun hb => .inr ?_)
    rw [hb]
    rfl
  | finish => exact hkeep _ (by rw [hp]; simp) rfl rfl rfl (.inr (.inr rfl))
  | readHead => exact hkeep _ (by rw [hp]; simp) rfl rfl rfl (.inr (.inl rfl))

omit [DecidableEq ι] in
theorem crash (s : State ι) : Ops s.crash where
  count := Tally.tally_eq_zero_iff.2 fun _ hc => by cases hc
  calm := .inr (.inl rfl)
  quiet _ _ := rfl
  lock hb := by cases hb
  buf hj := by cases hj
  once hj := by cases hj

theorem change {sb : Super} (h : Ops s) {b : ℕ} {x : Block} (hchange : change sb s i b x = .ok t) :
    Ops t := by
  rcases change_cases hchange with rfl | ⟨o, ho, hbuf, hfree, rfl⟩
  · exact h
  refine h.rebuf ho (fun c => ?_) (fun c hc => ?_) rfl rfl rfl
  · show Function.update s.lock b true c = true ↔ some b = some c ∨ s.lock c = true ∧ o.buf ≠ some c
    by_cases hcb : c = b
    · simp [hcb]
    · simp [hcb, Ne.symm hcb, hbuf]
  · rw [← Option.some.inj hc]
    exact hfree

theorem record (h : Ops s) (hrecord : s.record i = .ok t) : Ops t := by
  rcases record_cases hrecord with rfl | ⟨id, b, blocks, lh, ho, -, rfl⟩
  · exact h
  refine h.rebuf ho (fun c => ?_) (fun c hc => by cases hc) rfl rfl rfl
  show Function.update s.lock b false c = true ↔ none = some c ∨ s.lock c = true ∧ some b ≠ some c
  by_cases hcb : c = b
  · simp [hcb]
  · simp [hcb, Ne.symm hcb]

omit [DecidableEq ι] in
theorem read (h : Ops s) (b : ℕ) : Ops (s.read b) := by
  rw [State.read]
  split_ifs
  · exact h
  · exact ⟨h.count, h.calm, h.quiet, h.lock, h.buf, h.once⟩

omit [DecidableEq ι] in
theorem evict (h : Ops s) (b : ℕ) : Ops (s.evict b) := by
  rw [State.evict]
  split_ifs
  · exact h
  · exact ⟨h.count, h.calm, h.quiet, h.lock, h.buf, h.once⟩

theorem step {sb : Super} (h : Ops s) {e : Event ι} (hstep : step sb s e = .ok t) : Ops t := by
  cases e with
  | beginOp i =>
    cases hstep
    exact h.beginOp i
  | change i b x => exact h.change hstep
  | record i => exact h.record hstep
  | endOp i => exact h.endOp hstep
  | work =>
    cases hstep
    exact h.work sb
  | read b =>
    cases hstep
    exact h.read b
  | evict b =>
    cases hstep
    exact h.evict b
  | crash =>
    cases hstep
    exact Ops.crash s

end Ops

end Operations

/-! ### Runs -/

section Runs

variable {ι : Type} [Fintype ι] {sb : Super} {disk₀ : ℕ → Block} {s s' : State ι}

structure Inv (sb : Super) (disk₀ : ℕ → Block) (s : State ι) : Prop where
  ops : Ops s
  coherent : ∃ ns, Coherent sb disk₀ ns s
  whole : Whole (fun i => (s.op i).map Op.id) s.nextOp s.updates s.trans s.committed

theorem Inv.work (h : Inv sb disk₀ s) : Inv sb disk₀ (State.work sb s) := by
  obtain ⟨ns, hco⟩ := h.coherent
  refine ⟨h.ops.work sb, hco.work h.ops.unlocked, ?_⟩
  have hwhole := h.whole
  rw [State.work]
  cases hp : s.phase with
  | writeHead =>
    refine hwhole.commit fun i => ?_
    rw [h.ops.quiet (by rw [hp]; simp) i]
    rfl
  | writeLog tail =>
    dsimp only
    cases s.lh[tail]? <;> exact hwhole
  | install tail boot =>
    dsimp only
    cases s.lh[tail]? <;> exact hwhole
  | _ => exact hwhole

theorem Inv.crash (h : Inv sb disk₀ s) : Inv sb disk₀ s.crash := by
  obtain ⟨ns, hco⟩ := h.coherent
  exact ⟨Ops.crash s, ⟨ns, hco.crash⟩, h.whole.lose⟩

theorem Inv.boot (hclean : disk₀ sb.start 0 = 0) : Inv sb disk₀ (Log.boot disk₀ : State ι) := by
  have hns : entries (disk₀ sb.start) = [] := by
    rw [entries, hclean]
    rfl
  refine ⟨Ops.crash (Log.boot disk₀), ⟨[], ⟨?_, Nat.zero_le _, .crash, rfl, rfl, fun _ => rfl⟩⟩, ?_⟩
  · exact ⟨hns, ⟨fun hi => (by cases hi), fun _ _ => rfl⟩, fun hb => (by cases hb), Nat.zero_le _⟩
  · exact ⟨fun hu => (by cases hu), fun hi => (by cases hi), fun hi => (by cases hi), fun hi => (by cases hi),
      fun hu => (by cases hu), fun ht => (by cases ht), fun ht => (by cases ht), .nil, fun ht => (by cases ht)⟩

variable [DecidableEq ι]

theorem Inv.step (h : Inv sb disk₀ s) {e : Event ι} (he : e.Home sb) (hstep : step sb s e = .ok s') :
    Inv sb disk₀ s' := by
  obtain ⟨ns, hco⟩ := h.coherent
  have hwhole := h.whole
  have hops := h.ops.step hstep
  cases e with
  | beginOp i =>
    cases hstep
    refine ⟨hops, ⟨ns, ?_⟩, ?_⟩
    · rcases beginOp_cases s i with heq | ⟨-, -, -, -, heq⟩ <;> rw [heq] <;> exact ⟨hco.1, hco.2, hco.3, hco.4⟩
    · rcases beginOp_cases s i with heq | ⟨-, -, -, -, heq⟩
      · rw [heq]
        exact hwhole
      · rw [heq]
        show Whole (Option.map Op.id ∘ Function.update s.op i _) (s.nextOp + 1) _ _ _
        rw [Function.comp_update]
        exact hwhole.begin_ i
  | change i b x =>
    rcases change_cases hstep with rfl | ⟨o, ho, -, -, rfl⟩
    · exact h
    refine ⟨hops, ⟨ns, hco.change (h.ops.idle ho) he x o.id _ _⟩, ?_⟩
    show Whole (Option.map Op.id ∘ Function.update s.op i _) _ _ _ _
    rw [Function.comp_update]
    have hid : (s.op i).map Op.id = some o.id := by rw [ho]; rfl
    refine (hwhole.update hid b x).drop fun j n hj => ?_
    rcases update_eq_some hj with ⟨rfl, hn⟩ | ⟨-, hn⟩
    · exact hid.trans hn
    · exact hn
  | record i =>
    rcases record_cases hstep with rfl | ⟨id, b, blocks, lh, ho, hlh, rfl⟩
    · exact h
    refine ⟨hops, ⟨ns, hco.record (h.ops.idle ho) (h.ops.buf ho rfl) hlh _⟩, ?_⟩
    show Whole (Option.map Op.id ∘ Function.update s.op i _) _ _ _ _
    rw [Function.comp_update]
    refine hwhole.drop fun j n hj => ?_
    rcases update_eq_some hj with ⟨rfl, hn⟩ | ⟨-, hn⟩
    · rw [ho]
      exact hn
    · exact hn
  | endOp i =>
    refine ⟨hops, ⟨ns, ?_⟩, ?_⟩
    · rcases endOp_cases hstep with rfl | ⟨id, blocks, ho, -, rfl⟩
      · exact hco
      refine ⟨hco.1, hco.2, hco.3, ?_⟩
      have hprog := hco.progress
      rw [h.ops.idle ho] at hprog ⊢
      dsimp only
      split_ifs <;> exact hprog
    · rcases endOp_cases hstep with rfl | ⟨id, blocks, ho, -, rfl⟩
      · exact hwhole
      show Whole (Option.map Op.id ∘ Function.update s.op i _) _ _ _ _
      rw [Function.comp_update]
      refine hwhole.drop fun j n hj => ?_
      rcases update_eq_some hj with ⟨-, hj⟩ | ⟨-, hj⟩
      · cases hj
      · exact hj
  | work =>
    cases hstep
    exact h.work
  | read b =>
    cases hstep
    refine ⟨hops, ⟨ns, hco.read b⟩, ?_⟩
    rw [State.read]
    split_ifs <;> exact hwhole
  | evict b =>
    cases hstep
    refine ⟨hops, ⟨ns, hco.evict b⟩, ?_⟩
    rw [State.evict]
    split_ifs <;> exact hwhole
  | crash =>
    cases hstep
    exact h.crash

local instance neZeroPair : NeZero 2 := ⟨by decide⟩

/-- Two operations share a transaction; the machine crashes when its header and one of its blocks are
written. -/
def shared : List (Event (Fin 2)) :=
  List.replicate 3 .work ++
    [.beginOp 0, .beginOp 1, .change 0 100 fun _ => 7, .record 0, .change 1 101 fun _ => 8, .endOp 0,
      .record 1, .endOp 1] ++
    List.replicate 6 .work

end Runs

end Xv6.Log
