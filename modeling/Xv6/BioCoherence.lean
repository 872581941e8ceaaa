import Xv6.Bio
import Xv6.Lib.Tally

/-!
# Coherence of the buffer cache

What one step can do is said once, by `Move`.  Three invariants follow from it, for the cache as a
whole: the calls that are open account for the reference counts and the locks, the disk queue holds the
requests that calls wait for, and the list is linked both ways.  The fourth is about one device: a
block has one buffer, which agrees with what was last written unless its holder is changing it, and a
block that differs on the disk has a dirty one.
-/

namespace Xv6

open Tally

/-! ### What a call refers to -/

namespace Stage

/-- The buffer a call has counted itself in. -/
def buf : Stage → Option (Fin 30)
  | .idle => none
  | .waiting i _ _ | .locked i _ _ | .reading i _ _ | .held i _ _ _ | .writing i _ _ | .released i => some i

/-- The buffer a call has locked. -/
def holds : Stage → Option (Fin 30)
  | .idle | .waiting _ _ _ | .released _ => none
  | .locked i _ _ | .reading i _ _ | .held i _ _ _ | .writing i _ _ => some i

/-- The buffer a call has, and the block it asked for. -/
def call : Stage → Option (Fin 30 × ℕ × ℕ)
  | .idle | .released _ => none
  | .waiting i dev b | .locked i dev b | .reading i dev b | .held i dev b _ | .writing i dev b =>
    some (i, dev, b)

/-- The buffer a call waits for the disk with. -/
def waitsFor : Stage → Option (Fin 30)
  | .reading i _ _ | .writing i _ _ => some i
  | _ => none

variable {st : Stage} {i : Fin 30}

theorem buf_of_holds (h : st.holds = some i) : st.buf = some i := by
  cases st <;> first | exact h | cases h

theorem buf_of_call {dev b : ℕ} (h : st.call = some (i, dev, b)) :
    st.buf = some i := by
  cases st <;> cases h <;> rfl

theorem call_of_waitsFor (h : st.waitsFor = some i) :
    ∃ dev b, st.call = some (i, dev, b) := by
  cases st <;> cases h <;> exact ⟨_, _, rfl⟩

theorem holds_of_waitsFor (h : st.waitsFor = some i) :
    st.holds = some i := by
  cases st <;> first | exact h | cases h

end Stage

namespace Bcache

variable {n : ℕ} {δ : Type} {s s' : Bcache n δ} {dev : ℕ} {l : List (Fin 30)} {a : Fin n} {d b : ℕ} {i : Fin 30}
  {buf : Buf n δ} {st : Stage} {x : δ}

/-! ### What a step does -/

/-- The buffers are in one list, each once. -/
def Listed (s : Bcache n δ) : Prop :=
  ∃ l : List (Fin 30), Ring.Double s.next s.prev none (l.map some) ∧ ∀ i, l.count i = 1

/-- What callers do: a buffer that was changed is written before it is released, and no second device
number is used for the disk of `dev`.  The disk reports no errors. -/
def Disciplined (dev : ℕ) (s : Bcache n δ) : Event n δ → Prop
  | .bget _ dev' _ => dev' = dev ∨ dev' % 2 ≠ dev % 2
  | .releasesleep a => ∀ i dev' b, s.stage a ≠ .held i dev' b true
  | .ideintr ready => ready = true
  | _ => True

/-- One step of callers that keep to the rules for `dev`. -/
inductive Move (dev : ℕ) (s : Bcache n δ) : Bcache n δ → Prop
  | stay : Move dev s s
  | hit {a : Fin n} {i : Fin 30} {d b : ℕ} (hidle : s.stage a = .idle)
      (hname : (s.buf i).dev = d ∧ (s.buf i).blockno = b) (hdev : d = dev ∨ d % 2 ≠ dev % 2) :
      Move dev s ((s.setBuf i { s.buf i with refcnt := (s.buf i).refcnt + 1 }).setStage a (.waiting i d b))
  | recycle {a : Fin n} {i : Fin 30} {d b : ℕ} (hidle : s.stage a = .idle)
      (hmiss : ∀ j, ¬((s.buf j).dev = d ∧ (s.buf j).blockno = b))
      (hfree : (s.buf i).refcnt = 0) (hclean : (s.buf i).dirty = false)
      (hdev : d = dev ∨ d % 2 ≠ dev % 2) :
      Move dev s ((s.setBuf i { s.buf i with
        dev := d, blockno := b, valid := false, dirty := false, refcnt := 1 }).setStage a (.waiting i d b))
  | lock {a : Fin n} {i : Fin 30} {d b : ℕ} (hstage : s.stage a = .waiting i d b)
      (hfree : (s.buf i).lock = none) :
      Move dev s ((s.setBuf i { s.buf i with lock := some a }).setStage a (.locked i d b))
  | cached {a : Fin n} {i : Fin 30} {d b : ℕ} (hstage : s.stage a = .locked i d b)
      (hvalid : (s.buf i).valid = true) : Move dev s (s.setStage a (.held i d b false))
  | request {a : Fin n} {i : Fin 30} {d b : ℕ} (hstage : s.stage a = .locked i d b)
      (hvalid : (s.buf i).valid = false) :
      Move dev s ({ s with idequeue := s.idequeue ++ [i] }.setStage a (.reading i d b))
  | read {i : Fin 30} {rest : List (Fin 30)} (hqueue : s.idequeue = i :: rest)
      (hclean : (s.buf i).dirty = false) :
      Move dev s ({ s with idequeue := rest }.setBuf i { s.buf i with
        valid := true, dirty := false, data := s.disk ((s.buf i).dev % 2) (s.buf i).blockno })
  | write {i : Fin 30} {rest : List (Fin 30)} (hqueue : s.idequeue = i :: rest)
      (hdirty : (s.buf i).dirty = true) :
      Move dev s (({ s with idequeue := rest }.setDisk ((s.buf i).dev % 2) (s.buf i).blockno
        (s.buf i).data).setBuf i { s.buf i with valid := true, dirty := false })
  | wake {a : Fin n} {i : Fin 30} {d b : ℕ}
      (hstage : s.stage a = .reading i d b ∨ s.stage a = .writing i d b)
      (hvalid : (s.buf i).valid = true) (hclean : (s.buf i).dirty = false) :
      Move dev s (s.setStage a (.held i d b false))
  | modify {a : Fin n} {i : Fin 30} {d b : ℕ} {c : Bool} {x : δ} (hstage : s.stage a = .held i d b c) :
      Move dev s ((s.setBuf i { s.buf i with data := x }).setStage a (.held i d b true))
  | logWrite {a : Fin n} {i : Fin 30} {d b : ℕ} {c : Bool} (hstage : s.stage a = .held i d b c) :
      Move dev s (((s.setBuf i { s.buf i with dirty := true }).setContent d b (s.buf i).data).setStage a
        (.held i d b false))
  | bwrite {a : Fin n} {i : Fin 30} {d b : ℕ} {c : Bool} (hstage : s.stage a = .held i d b c) :
      Move dev s (({ s.setBuf i { s.buf i with dirty := true } with
        idequeue := s.idequeue ++ [i] }.setContent d b (s.buf i).data).setStage a (.writing i d b))
  | unlock {a : Fin n} {i : Fin 30} {d b : ℕ} (hstage : s.stage a = .held i d b false) :
      Move dev s ((s.setBuf i { s.buf i with lock := none }).setStage a (.released i))
  | release {a : Fin n} {i : Fin 30} (hstage : s.stage a = .released i) :
      Move dev s ((s.brelse i).setStage a .idle)

theorem scan_eq {link : Node → Node} {test : Fin 30 → Bool} {x : Node} {fuel : ℕ}
    (hlinks : Ring.Links link (x :: (l.map some ++ [none]))) (hfuel : l.length < fuel) :
    scan link test fuel (link x) = .ok (l.find? test) := by
  induction l generalizing x fuel with
  | nil =>
    cases fuel with
    | zero => exact absurd hfuel (Nat.not_lt_zero _)
    | succ fuel =>
      rw [(Ring.links_cons_cons.1 hlinks).1]
      rfl
  | cons i l ih =>
    cases fuel with
    | zero => exact absurd hfuel (Nat.not_lt_zero _)
    | succ fuel =>
      obtain ⟨hx, hrest⟩ := Ring.links_cons_cons.1 hlinks
      rw [hx, scan, List.find?_cons]
      cases htest : test i with
      | true => rfl
      | false => exact ih hrest (Nat.lt_of_succ_lt_succ hfuel)

theorem perm_finRange (h : ∀ i, l.count i = 1) : l.Perm (List.finRange 30) := by
  rw [List.perm_iff_count]
  intro i
  rw [h i, List.count_eq_one_of_mem (List.nodup_finRange 30) (List.mem_finRange i)]

theorem Listed.scan_next (h : s.Listed) (test : Fin 30 → Bool) :
    ∃ r, scan s.next test 31 (s.next none) = .ok r ∧ (∀ i, r = some i → test i = true) ∧
      (r = none → ∀ i, test i = false) := by
  obtain ⟨l, hring, hcount⟩ := h
  have hperm := perm_finRange hcount
  refine ⟨l.find? test, ?_, fun i => List.find?_some, fun hnone i => ?_⟩
  · refine scan_eq hring.next ?_
    rw [hperm.length_eq, List.length_finRange]
    decide
  · have := List.find?_eq_none.1 hnone i (hperm.mem_iff.2 (List.mem_finRange i))
    simpa using this

theorem Listed.symm (h : s.Listed) : Listed { s with next := s.prev, prev := s.next } := by
  obtain ⟨l, hring, hcount⟩ := h
  refine ⟨l.reverse, ?_, fun i => by rw [List.count_reverse, hcount i]⟩
  rw [List.map_reverse]
  exact hring.symm

theorem bget_move (hlist : s.Listed) (hidle : s.stage a = .idle)
    (hdev : d = dev ∨ d % 2 ≠ dev % 2) (h : s.bget a d b = .ok s') : Move dev s s' := by
  unfold bget at h
  obtain ⟨r, hr, hsome, hnone⟩ := hlist.scan_next fun i =>
    decide ((s.buf i).dev = d ∧ (s.buf i).blockno = b)
  rw [hr] at h
  cases r with
  | some i =>
    cases h
    exact .hit hidle (of_decide_eq_true (hsome i rfl)) hdev
  | none =>
    have hmiss : ∀ j, ¬((s.buf j).dev = d ∧ (s.buf j).blockno = b) := fun j =>
      of_decide_eq_false (hnone rfl j)
    obtain ⟨r, hr, hsome, -⟩ := hlist.symm.scan_next fun i =>
      decide ((s.buf i).refcnt = 0 ∧ (s.buf i).dirty = false)
    change scan s.prev _ 31 (s.prev none) = _ at hr
    simp only [Except.bind, bind, hr] at h
    cases r with
    | some i =>
      cases h
      obtain ⟨hfree, hclean⟩ := of_decide_eq_true (hsome i rfl)
      exact .recycle hidle hmiss hfree hclean hdev
    | none => cases h

theorem iderw_ok (h : s.iderw a i = .ok s') :
    s' = { s with idequeue := s.idequeue ++ [i] } := by
  unfold iderw at h
  dsimp only at h
  split_ifs at h
  exact (Except.ok.inj h).symm

theorem ideintr_move (h : s.ideintr true = .ok s') : Move dev s s' := by
  unfold ideintr at h
  split at h
  case h_1 =>
    cases h
    exact .stay
  case h_2 i rest hqueue =>
    dsimp only at h
    split_ifs at h with hno hdirty hready
    · cases h
      exact .write hqueue hdirty
    · cases h
      exact .read hqueue (Bool.eq_false_iff.2 hdirty)
    · exact absurd rfl hready

theorem step_move (hlist : s.Listed) {e : Event n δ} (hrule : Disciplined dev s e)
    (h : s.step e = .ok s') : Move dev s s' := by
  cases e with
  | bget a d b =>
    rw [step] at h
    split at h
    case h_1 hidle => exact bget_move hlist hidle hrule h
    case h_2 => cases h; exact .stay
  | acquiresleep a =>
    rw [step] at h
    split at h
    case h_1 i d b hstage =>
      split_ifs at h with hfree
      · cases h; exact .lock hstage hfree
      · cases h; exact .stay
    case h_2 => cases h; exact .stay
  | bread a =>
    rw [step] at h
    split at h
    case h_1 i d b hstage =>
      split_ifs at h with hvalid
      · cases h; exact .cached hstage hvalid
      · obtain ⟨s₁, h₁, h⟩ := Run.bind_ok h
        cases h
        cases iderw_ok h₁
        exact .request hstage (Bool.eq_false_iff.2 hvalid)
    case h_2 => cases h; exact .stay
  | ideintr ready =>
    cases hrule
    exact ideintr_move h
  | wake a =>
    rw [step] at h
    split at h
    case h_1 i d b hstage =>
      split_ifs at h with hdone
      · cases h; exact .wake (.inl hstage) hdone.1 hdone.2
      · cases h; exact .stay
    case h_2 i d b hstage =>
      split_ifs at h with hdone
      · cases h; exact .wake (.inr hstage) hdone.1 hdone.2
      · cases h; exact .stay
    case h_3 => cases h; exact .stay
  | modify a x =>
    rw [step] at h
    split at h
    case h_1 i d b c hstage => cases h; exact .modify hstage
    case h_2 => cases h; exact .stay
  | logWrite a =>
    rw [step] at h
    split at h
    case h_1 i d b c hstage => cases h; exact .logWrite hstage
    case h_2 => cases h; exact .stay
  | bwrite a =>
    rw [step] at h
    split at h
    case h_1 i d b c hstage =>
      split_ifs at h
      obtain ⟨s₁, h₁, h⟩ := Run.bind_ok h
      cases h
      cases iderw_ok h₁
      exact .bwrite hstage
    case h_2 => cases h; exact .stay
  | releasesleep a =>
    rw [step] at h
    split at h
    case h_1 i d b c hstage =>
      split_ifs at h
      cases h
      cases c with
      | true => exact absurd hstage (hrule i d b)
      | false => exact .unlock hstage
    case h_2 => cases h; exact .stay
  | brelse a =>
    rw [step] at h
    split at h
    case h_1 i hstage => cases h; exact .release hstage
    case h_2 => cases h; exact .stay

/-! ### The list -/

theorem unlink_listed {L R : List (Fin 30)}
    (h : Ring.Double s.next s.prev none (l.map some)) (hl : l = L ++ i :: R) :
    Ring.Double (s.unlink (some i)).next (s.unlink (some i)).prev none ((L ++ R).map some) := by
  rw [hl, List.map_append, List.map_cons] at h
  rw [List.map_append]
  refine h.remove (fun x => ?_) fun x => ?_
  · exact Function.update_apply ..
  · exact Function.update_apply ..

theorem insertFront_listed (h : Ring.Double s.next s.prev none (l.map some)) (hi : i ∉ l) :
    Ring.Double (s.insertFront (some i)).next (s.insertFront (some i)).prev none ((i :: l).map some) := by
  refine h.insert (by simpa using hi) (fun x => ?_) fun x => ?_
  · simp only [insertFront, Function.update_apply]
  · simp only [insertFront, Function.update_apply]

theorem Listed.brelse (h : s.Listed) (i : Fin 30) : (s.brelse i).Listed := by
  unfold Bcache.brelse
  dsimp only
  split_ifs
  · obtain ⟨l, hring, hcount⟩ := h
    have hmem : i ∈ l := List.count_pos_iff.1 (by rw [hcount i]; exact Nat.one_pos)
    obtain ⟨L, R, hl⟩ := List.append_of_mem hmem
    have hcount' : ∀ j, (i :: (L ++ R)).count j = 1 := fun j => by
      rw [← hcount j, hl]
      exact (List.perm_middle.count_eq j).symm
    have hi : i ∉ L ++ R := by
      have := hcount' i
      rw [List.count_cons_self] at this
      exact List.count_eq_zero.1 (Nat.succ.inj this)
    refine ⟨i :: (L ++ R), insertFront_listed (unlink_listed (l := l) ?_ hl) hi, hcount'⟩
    exact hring
  · exact h

theorem brelse_buf (s : Bcache n δ) (i : Fin 30) : (s.brelse i).buf =
    Function.update s.buf i { s.buf i with refcnt := (s.buf i).refcnt - 1 } := by
  unfold Bcache.brelse
  dsimp only
  split_ifs <;> rfl

theorem brelse_frame (s : Bcache n δ) (i : Fin 30) : (s.brelse i).stage = s.stage ∧
    (s.brelse i).idequeue = s.idequeue ∧ (s.brelse i).disk = s.disk ∧
      (s.brelse i).content = s.content := by
  unfold Bcache.brelse
  dsimp only
  split_ifs <;> exact ⟨rfl, rfl, rfl, rfl⟩

theorem brelse_setStage (s : Bcache n δ) (i : Fin 30) (a : Fin n) :
    ((s.brelse i).setStage a .idle).stage = Function.update s.stage a .idle := by
  rw [← (brelse_frame s i).1]
  rfl

theorem Move.listed (h : Move dev s s') (hlist : s.Listed) : s'.Listed := by
  cases h with
  | release hstage => exact hlist.brelse _
  | _ => exact hlist

theorem binit_listed {is : List (Fin 30)} (hring : Ring.Double s.next s.prev none (l.map some))
    (hfresh : ∀ i ∈ is, i ∉ l) (hnodup : is.Nodup) :
    Ring.Double (is.foldl (fun s i => s.insertFront (some i)) s).next
      (is.foldl (fun s i => s.insertFront (some i)) s).prev none ((is.reverse ++ l).map some) := by
  induction is generalizing s l with
  | nil => exact hring
  | cons i is ih =>
    obtain ⟨hi, hnodup⟩ := List.nodup_cons.1 hnodup
    have hnext := ih (insertFront_listed hring (hfresh i List.mem_cons_self)) (fun j hj hm => by
      rcases List.mem_cons.1 hm with rfl | hm
      · exact hi hj
      · exact hfresh j (List.mem_cons_of_mem i hj) hm) hnodup
    simpa using hnext

theorem binit_frame (is : List (Fin 30)) (s : Bcache n δ) :
    ∃ next prev, is.foldl (fun s i => s.insertFront (some i)) s = { s with next := next, prev := prev } := by
  induction is generalizing s with
  | nil => exact ⟨s.next, s.prev, rfl⟩
  | cons i is ih => exact ih (s.insertFront (some i))

/-! ### Reference counts and locks -/

/-- The open calls account for the counts and the locks, and a buffer that a call has carries the block
it asked for. -/
structure Calls (s : Bcache n δ) : Prop where
  refs : ∀ i, (s.buf i).refcnt = tally (fun a => (s.stage a).buf) (some i)
  locks : ∀ i a, (s.buf i).lock = some a ↔ (s.stage a).holds = some i
  named : ∀ {a i d b}, (s.stage a).call = some (i, d, b) → (s.buf i).dev = d ∧ (s.buf i).blockno = b

theorem Calls.holder_unique (h : s.Calls) {c : Fin n} (ha : (s.stage a).holds = some i)
    (hc : (s.stage c).holds = some i) : a = c :=
  Option.some.inj (((h.locks i a).2 ha).symm.trans ((h.locks i c).2 hc))

theorem Calls.unused (h : s.Calls) (hi : (s.buf i).refcnt = 0) (a : Fin n) :
    (s.stage a).buf ≠ some i :=
  tally_eq_zero_iff.1 ((h.refs i).symm.trans hi) a

theorem Calls.update (h : s.Calls)
    (hbuf : s'.buf = Function.update s.buf i buf) (hstage : s'.stage = Function.update s.stage a st)
    (hold : (s.stage a).buf = none ∨ (s.stage a).buf = some i) (hnew : st.buf = none ∨ st.buf = some i)
    (hrefs : buf.refcnt + (if (s.stage a).buf = some i then 1 else 0) =
      (s.buf i).refcnt + if st.buf = some i then 1 else 0)
    (hlock : ∀ c, c ≠ a → (buf.lock = some c ↔ (s.buf i).lock = some c))
    (hhold : buf.lock = some a ↔ st.holds = some i)
    (hname : ∀ d b, st.call = some (i, d, b) → buf.dev = d ∧ buf.blockno = b)
    (hkeep : buf.dev = (s.buf i).dev ∧ buf.blockno = (s.buf i).blockno ∨ (s.buf i).refcnt = 0) :
    s'.Calls where
  refs j := by
    have htally : ∀ k, tally (fun c => (s'.stage c).buf) (some k) +
        (if (s.stage a).buf = some k then 1 else 0) =
          tally (fun c => (s.stage c).buf) (some k) + if st.buf = some k then 1 else 0 := fun k => by
      rw [← tally_update (fun c => (s.stage c).buf) a st.buf (some k), hstage]
      congr 2
      funext c
      by_cases hc : c = a
      · subst hc
        rw [Function.update_self, Function.update_self]
      · rw [Function.update_of_ne hc, Function.update_of_ne hc]
    have hj := htally j
    rw [← h.refs j] at hj
    rw [hbuf]
    by_cases hji : j = i
    · subst hji
      rw [Function.update_self]
      omega
    · rw [Function.update_of_ne hji]
      have hother : ∀ o : Option (Fin 30), o = none ∨ o = some i → o ≠ some j := by
        rintro _ (rfl | rfl) hc
        · cases hc
        · exact hji (Option.some.inj hc).symm
      rw [if_neg (hother _ hold), if_neg (hother _ hnew)] at hj
      omega
  locks j c := by
    rw [hbuf, hstage]
    by_cases hji : j = i
    · subst hji
      rw [Function.update_self]
      by_cases hc : c = a
      · subst hc
        rw [Function.update_self]
        exact hhold
      · rw [Function.update_of_ne hc, hlock c hc]
        exact h.locks j c
    · rw [Function.update_of_ne hji]
      by_cases hc : c = a
      · subst hc
        rw [Function.update_self, h.locks j c]
        -- neither stage is about the buffer `j`
        refine iff_of_false (fun hh => ?_) fun hh => ?_
        · rcases hold with hold | hold
          · cases hold.symm.trans (Stage.buf_of_holds hh)
          · exact hji (Option.some.inj (hold.symm.trans (Stage.buf_of_holds hh))).symm
        · rcases hnew with hnew | hnew
          · cases hnew.symm.trans (Stage.buf_of_holds hh)
          · exact hji (Option.some.inj (hnew.symm.trans (Stage.buf_of_holds hh))).symm
      · rw [Function.update_of_ne hc]
        exact h.locks j c
  named {c j d b} hcall := by
    rw [hstage] at hcall
    rw [hbuf]
    by_cases hc : c = a
    · subst hc
      rw [Function.update_self] at hcall
      rcases hnew with hnew | hnew
      · cases hnew.symm.trans (Stage.buf_of_call hcall)
      · obtain rfl : i = j := Option.some.inj (hnew.symm.trans (Stage.buf_of_call hcall))
        rw [Function.update_self]
        exact hname d b hcall
    · rw [Function.update_of_ne hc] at hcall
      by_cases hji : j = i
      · subst hji
        rw [Function.update_self]
        rcases hkeep with ⟨hd, hb⟩ | hfree
        · rw [hd, hb]
          exact h.named hcall
        · exact absurd (Stage.buf_of_call hcall) (h.unused hfree c)
      · rw [Function.update_of_ne hji]
        exact h.named hcall

theorem Calls.setBuf (h : s.Calls) (hbuf : s'.buf = Function.update s.buf i buf) (hstage : s'.stage = s.stage)
    (hrefs : buf.refcnt = (s.buf i).refcnt) (hlock : buf.lock = (s.buf i).lock)
    (hname : buf.dev = (s.buf i).dev ∧ buf.blockno = (s.buf i).blockno) : s'.Calls := by
  have hall : ∀ j, (s'.buf j).refcnt = (s.buf j).refcnt ∧ (s'.buf j).lock = (s.buf j).lock ∧
      (s'.buf j).dev = (s.buf j).dev ∧ (s'.buf j).blockno = (s.buf j).blockno := fun j => by
    rw [hbuf]
    by_cases hj : j = i
    · subst hj
      rw [Function.update_self]
      exact ⟨hrefs, hlock, hname⟩
    · rw [Function.update_of_ne hj]
      exact ⟨rfl, rfl, rfl, rfl⟩
  refine ⟨fun j => ?_, fun j a => ?_, fun {a j d b} hcall => ?_⟩
  · rw [(hall j).1, hstage]
    exact h.refs j
  · rw [(hall j).2.1, hstage]
    exact h.locks j a
  · rw [(hall j).2.2.1, (hall j).2.2.2]
    rw [hstage] at hcall
    exact h.named hcall

theorem Calls.keep (h : s.Calls)
    (hbuf : s'.buf = Function.update s.buf i buf) (hstage : s'.stage = Function.update s.stage a st)
    (hcall : (s.stage a).call = some (i, d, b)) (hhold : (s.stage a).holds = some i)
    (hcall' : st.call = some (i, d, b)) (hhold' : st.holds = some i)
    (hrefs : buf.refcnt = (s.buf i).refcnt) (hlock : buf.lock = (s.buf i).lock)
    (hname : buf.dev = (s.buf i).dev ∧ buf.blockno = (s.buf i).blockno) : s'.Calls := by
  have hold := Stage.buf_of_holds hhold
  have hnew := Stage.buf_of_holds hhold'
  refine h.update hbuf hstage (.inr hold) (.inr hnew) ?_ (fun c _ => by rw [hlock]) ?_
    (fun d' b' hc => ?_) (.inl hname)
  · rw [hrefs, if_pos hold, if_pos hnew]
  · rw [hlock, h.locks i a]
    exact iff_of_true hhold hhold'
  · cases hcall'.symm.trans hc
    rw [hname.1, hname.2]
    exact h.named hcall

theorem Move.calls (h : Move dev s s') (hcalls : s.Calls) : s'.Calls := by
  cases h with
  | stay => exact hcalls
  | @hit a i d b hidle hname _ =>
    refine hcalls.update rfl rfl (.inl (by rw [hidle]; rfl)) (.inr rfl) ?_ (fun c _ => Iff.rfl) ?_
      (fun d' b' hc => ?_) (.inl ⟨rfl, rfl⟩)
    · rw [hidle]
      simp [Stage.buf]
    · change (s.buf i).lock = some a ↔ _
      rw [hcalls.locks i a, hidle]
      rfl
    · cases hc
      exact hname
  | @recycle a i d b hidle hmiss hfree hclean _ =>
    refine hcalls.update rfl rfl (.inl (by rw [hidle]; rfl)) (.inr rfl) ?_ (fun c _ => Iff.rfl) ?_
      (fun d' b' hc => ?_) (.inr hfree)
    · rw [hidle, hfree]
      simp [Stage.buf]
    · change (s.buf i).lock = some a ↔ _
      rw [hcalls.locks i a, hidle]
      rfl
    · cases hc
      exact ⟨rfl, rfl⟩
  | @lock a i d b hstage hfree =>
    refine hcalls.update rfl rfl (.inr (by rw [hstage]; rfl)) (.inr rfl) ?_ (fun c hc => ?_)
      (iff_of_true rfl rfl) (fun d' b' hc => ?_) (.inl ⟨rfl, rfl⟩)
    · rw [hstage]
      rfl
    · rw [hfree]
      exact iff_of_false (fun hh => hc (Option.some.inj hh).symm) (by simp)
    · cases hc
      refine hcalls.named (a := a) ?_
      rw [hstage]
      rfl
  | @cached a i d b hstage hvalid =>
    exact hcalls.keep (Function.update_eq_self i s.buf).symm rfl (by rw [hstage]; rfl) (by rw [hstage]; rfl)
      rfl rfl rfl rfl ⟨rfl, rfl⟩
  | @request a i d b hstage hvalid =>
    exact hcalls.keep (Function.update_eq_self i s.buf).symm rfl (by rw [hstage]; rfl) (by rw [hstage]; rfl)
      rfl rfl rfl rfl ⟨rfl, rfl⟩
  | read hqueue hclean => exact hcalls.setBuf rfl rfl rfl rfl ⟨rfl, rfl⟩
  | write hqueue hdirty => exact hcalls.setBuf rfl rfl rfl rfl ⟨rfl, rfl⟩
  | @wake a i d b hstage hvalid hclean =>
    refine hcalls.keep (a := a) (Function.update_eq_self i s.buf).symm rfl (d := d) (b := b) ?_ ?_
      rfl rfl rfl rfl ⟨rfl, rfl⟩
    · rcases hstage with hstage | hstage <;> rw [hstage] <;> rfl
    · rcases hstage with hstage | hstage <;> rw [hstage] <;> rfl
  | modify hstage =>
    exact hcalls.keep rfl rfl (by rw [hstage]; rfl) (by rw [hstage]; rfl) rfl rfl rfl rfl ⟨rfl, rfl⟩
  | logWrite hstage =>
    exact hcalls.keep rfl rfl (by rw [hstage]; rfl) (by rw [hstage]; rfl) rfl rfl rfl rfl ⟨rfl, rfl⟩
  | bwrite hstage =>
    exact hcalls.keep rfl rfl (by rw [hstage]; rfl) (by rw [hstage]; rfl) rfl rfl rfl rfl ⟨rfl, rfl⟩
  | @unlock a i d b hstage =>
    have hlock : (s.buf i).lock = some a := (hcalls.locks i a).2 (by rw [hstage]; rfl)
    refine hcalls.update rfl rfl (.inr (by rw [hstage]; rfl)) (.inr rfl) ?_ (fun c hc => ?_)
      (iff_of_false (by simp) (by simp [Stage.holds])) (fun d' b' hc => by cases hc) (.inl ⟨rfl, rfl⟩)
    · rw [hstage]
      rfl
    · rw [hlock]
      exact iff_of_false (by simp) fun hh => hc (Option.some.inj hh).symm
  | @release a i hstage =>
    have hbuf : (s.stage a).buf = some i := by rw [hstage]; rfl
    have hpos : (s.buf i).refcnt ≠ 0 := fun h0 => hcalls.unused h0 a hbuf
    have hlock : ¬(s.buf i).lock = some a := by
      rw [hcalls.locks i a, hstage]
      simp [Stage.holds]
    refine hcalls.update (brelse_buf s i) (brelse_setStage s i a) (.inr hbuf) (.inl rfl) ?_
      (fun c _ => Iff.rfl) (iff_of_false hlock (by simp [Stage.holds])) (fun d' b' hc => by cases hc)
      (.inl ⟨rfl, rfl⟩)
    rw [if_pos hbuf]
    change (s.buf i).refcnt - 1 + 1 = _ + 0
    omega

/-! ### Requests to the disk -/

/-- A request is in the queue once, and a call waits for it. -/
structure Requests (s : Bcache n δ) : Prop where
  nodup : s.idequeue.Nodup
  open_ : ∀ i ∈ s.idequeue, (s.buf i).valid = false ∨ (s.buf i).dirty = true
  waited : ∀ i ∈ s.idequeue, ∃ a, (s.stage a).waitsFor = some i

theorem Calls.not_queued (h : s.Calls) (hreq : s.Requests)
    (hhold : (s.stage a).holds = some i) (hwait : (s.stage a).waitsFor = none) : i ∉ s.idequeue := by
  intro hi
  obtain ⟨c, hc⟩ := hreq.waited i hi
  cases h.holder_unique hhold (Stage.holds_of_waitsFor hc)
  cases hwait.symm.trans hc

theorem Requests.same (h : s.Requests)
    (hbuf : s'.buf = Function.update s.buf i buf) (hstage : s'.stage = Function.update s.stage a st)
    (hqueue : s'.idequeue = s.idequeue)
    (hi : i ∈ s.idequeue → buf.valid = false ∨ buf.dirty = true)
    (ha : ∀ j ∈ s.idequeue, (s.stage a).waitsFor ≠ some j) : s'.Requests where
  nodup := hqueue ▸ h.nodup
  open_ j hj := by
    rw [hqueue] at hj
    rw [hbuf]
    by_cases hji : j = i
    · subst hji
      rw [Function.update_self]
      exact hi hj
    · rw [Function.update_of_ne hji]
      exact h.open_ j hj
  waited j hj := by
    rw [hqueue] at hj
    obtain ⟨c, hc⟩ := h.waited j hj
    refine ⟨c, ?_⟩
    have hne : c ≠ a := fun hca => ha j hj (hca ▸ hc)
    rw [hstage, Function.update_of_ne hne]
    exact hc

theorem Requests.enqueue (h : s.Requests) (hcalls : s.Calls) (hbuf : s'.buf = Function.update s.buf i buf)
    (hstage : s'.stage = Function.update s.stage a st) (hqueue : s'.idequeue = s.idequeue ++ [i])
    (hhold : (s.stage a).holds = some i) (hwait : (s.stage a).waitsFor = none)
    (hopen : buf.valid = false ∨ buf.dirty = true) (hst : st.waitsFor = some i) : s'.Requests where
  nodup := by
    rw [hqueue]
    refine h.nodup.append (List.nodup_singleton i) ?_
    rw [List.disjoint_singleton]
    exact hcalls.not_queued h hhold hwait
  open_ j hj := by
    rw [hbuf]
    by_cases hji : j = i
    · subst hji
      rw [Function.update_self]
      exact hopen
    · rw [Function.update_of_ne hji]
      rw [hqueue, List.mem_append, List.mem_singleton] at hj
      exact h.open_ j (hj.resolve_right hji)
  waited j hj := by
    rw [hqueue, List.mem_append, List.mem_singleton] at hj
    rw [hstage]
    rcases hj with hj | rfl
    · obtain ⟨c, hc⟩ := h.waited j hj
      refine ⟨c, ?_⟩
      have hne : c ≠ a := by
        rintro rfl
        cases hwait.symm.trans hc
      rw [Function.update_of_ne hne]
      exact hc
    · refine ⟨a, ?_⟩
      rw [Function.update_self]
      exact hst

theorem Requests.done (h : s.Requests) {rest : List (Fin 30)}
    (hq : s.idequeue = i :: rest) (hbuf : s'.buf = Function.update s.buf i buf)
    (hstage : s'.stage = s.stage) (hqueue : s'.idequeue = rest) : s'.Requests := by
  have hnodup := h.nodup
  rw [hq, List.nodup_cons] at hnodup
  have hmem : ∀ j ∈ rest, j ∈ s.idequeue := fun j hj => hq ▸ List.mem_cons_of_mem i hj
  refine ⟨hqueue ▸ hnodup.2, fun j hj => ?_, fun j hj => ?_⟩
  · rw [hqueue] at hj
    have hji : j ≠ i := fun hc => hnodup.1 (hc ▸ hj)
    rw [hbuf, Function.update_of_ne hji]
    exact h.open_ j (hmem j hj)
  · rw [hqueue] at hj
    rw [hstage]
    exact h.waited j (hmem j hj)

theorem Move.requests (h : Move dev s s') (hcalls : s.Calls) (hreq : s.Requests) : s'.Requests := by
  have hnot : ∀ {a : Fin n}, (s.stage a).waitsFor = none →
      ∀ j ∈ s.idequeue, (s.stage a).waitsFor ≠ some j := fun hnone j _ hj => by
    cases hnone.symm.trans hj
  cases h with
  | stay => exact hreq
  | @hit a i d b hidle hname _ =>
    exact hreq.same rfl rfl rfl (hreq.open_ i) (hnot (by rw [hidle]; rfl))
  | recycle hidle hmiss hfree hclean _ =>
    exact hreq.same rfl rfl rfl (fun _ => .inl rfl) (hnot (by rw [hidle]; rfl))
  | @lock a i d b hstage hfree =>
    exact hreq.same rfl rfl rfl (hreq.open_ i) (hnot (by rw [hstage]; rfl))
  | @cached a i d b hstage hvalid =>
    exact hreq.same (Function.update_eq_self i s.buf).symm rfl rfl (hreq.open_ i)
      (hnot (by rw [hstage]; rfl))
  | @request a i d b hstage hvalid =>
    exact hreq.enqueue hcalls (Function.update_eq_self i s.buf).symm rfl rfl (by rw [hstage]; rfl)
      (by rw [hstage]; rfl) (.inl hvalid) rfl
  | read hqueue hclean => exact hreq.done hqueue rfl rfl rfl
  | write hqueue hdirty => exact hreq.done hqueue rfl rfl rfl
  | @wake a i d b hstage hvalid hclean =>
    refine hreq.same (Function.update_eq_self i s.buf).symm rfl rfl (hreq.open_ i) fun j hj hw => ?_
    have hwait : (s.stage a).waitsFor = some i := by
      rcases hstage with hstage | hstage <;> rw [hstage] <;> rfl
    cases hwait.symm.trans hw
    rcases hreq.open_ i hj with hopen | hopen
    · cases hvalid.symm.trans hopen
    · cases hclean.symm.trans hopen
  | @modify a i d b c x hstage =>
    exact hreq.same rfl rfl rfl (hreq.open_ i) (hnot (by rw [hstage]; rfl))
  | logWrite hstage => exact hreq.same rfl rfl rfl (fun _ => .inr rfl) (hnot (by rw [hstage]; rfl))
  | bwrite hstage =>
    exact hreq.enqueue hcalls rfl rfl rfl (by rw [hstage]; rfl) (by rw [hstage]; rfl) (.inr rfl) rfl
  | @unlock a i d b hstage =>
    exact hreq.same rfl rfl rfl (hreq.open_ i) (hnot (by rw [hstage]; rfl))
  | @release a i hstage =>
    exact hreq.same (brelse_buf s i) (brelse_setStage s i a) (brelse_frame s i).2.1 (hreq.open_ i)
      (hnot (by rw [hstage]; rfl))

/-! ### Blocks of one device -/

/-- What holds of the blocks of `dev`. -/
structure Coherent (dev : ℕ) (s : Bcache n δ) : Prop where
  unique : ∀ i j, (s.buf i).dev = dev → (s.buf j).dev = dev → (s.buf i).blockno = (s.buf j).blockno → i = j
  /-- No call is for another number of the same disk. -/
  calls : ∀ {a i d b}, (s.stage a).call = some (i, d, b) → d = dev ∨ d % 2 ≠ dev % 2
  ready : ∀ {a i d b c}, s.stage a = .held i d b c → (s.buf i).valid = true
  data : ∀ i, (s.buf i).dev = dev → (s.buf i).valid = true ∨ (s.buf i).dirty = true →
    (∀ a d b, s.stage a ≠ .held i d b true) → (s.buf i).data = s.content dev (s.buf i).blockno
  disk : ∀ b, s.disk (dev % 2) b = s.content dev b ∨
    ∃ i, (s.buf i).dev = dev ∧ (s.buf i).blockno = b ∧ (s.buf i).dirty = true

theorem Coherent.disk_of_clean (h : s.Coherent dev) (hdev : (s.buf i).dev = dev)
    (hclean : (s.buf i).dirty = false) :
    s.disk (dev % 2) (s.buf i).blockno = s.content dev (s.buf i).blockno := by
  rcases h.disk (s.buf i).blockno with hdisk | ⟨j, hj, hb, hdirty⟩
  · exact hdisk
  · cases h.unique j i hj hdev hb
    cases hclean.symm.trans hdirty

/-- A step by the call `a` on the buffer `i` that does not take away its name or its flags: what has to
be checked.  A step that writes leaves the buffer dirty. -/
theorem Coherent.update (h : s.Coherent dev)
    (hbuf : s'.buf = Function.update s.buf i buf) (hstage : s'.stage = Function.update s.stage a st)
    (hdisk : s'.disk = s.disk) (hold : (s.stage a).buf = none ∨ (s.stage a).buf = some i)
    (hname : buf.dev = (s.buf i).dev ∧ buf.blockno = (s.buf i).blockno)
    (hvalid : (s.buf i).valid = true → buf.valid = true)
    (hdirty : (s.buf i).dirty = true → buf.dirty = true)
    (hcontent : s'.content = s.content ∨ buf.dirty = true ∧
      ∀ b, (buf.dev = dev → b ≠ buf.blockno) → s'.content dev b = s.content dev b)
    (hcall : ∀ j d b, st.call = some (j, d, b) → d = dev ∨ d % 2 ≠ dev % 2)
    (hready : ∀ j d b c, st = .held j d b c → j = i ∧ buf.valid = true)
    (hdata : buf.dev = dev → buf.valid = true ∨ buf.dirty = true → (∀ d b, st ≠ .held i d b true) →
      (∀ c, c ≠ a → ∀ d b, s.stage c ≠ .held i d b true) → buf.data = s'.content dev buf.blockno) :
    s'.Coherent dev := by
  have hbufi : s'.buf i = buf := by rw [hbuf, Function.update_self]
  have hbufj : ∀ j, j ≠ i → s'.buf j = s.buf j := fun j hj => by rw [hbuf, Function.update_of_ne hj]
  have hstagea : s'.stage a = st := by rw [hstage, Function.update_self]
  have hstagec : ∀ c, c ≠ a → s'.stage c = s.stage c := fun c hc => by
    rw [hstage, Function.update_of_ne hc]
  have hnames : ∀ j, (s'.buf j).dev = (s.buf j).dev ∧ (s'.buf j).blockno = (s.buf j).blockno := fun j => by
    by_cases hj : j = i
    · subst hj
      rw [hbufi]
      exact hname
    · rw [hbufj j hj]
      exact ⟨rfl, rfl⟩
  have hunique : ∀ i j, (s'.buf i).dev = dev → (s'.buf j).dev = dev →
      (s'.buf i).blockno = (s'.buf j).blockno → i = j := fun i j hi hj hb => by
    rw [(hnames i).1] at hi
    rw [(hnames j).1] at hj
    rw [(hnames i).2, (hnames j).2] at hb
    exact h.unique i j hi hj hb
  -- the content of every block that `i` does not carry
  have hother : ∀ b, (buf.dev = dev → b ≠ buf.blockno) → s'.content dev b = s.content dev b := fun b hb => by
    rcases hcontent with hsame | ⟨-, hrest⟩
    · rw [hsame]
    · exact hrest b hb
  refine ⟨hunique, fun {c j d b} hc => ?_, fun {c j d b x} hc => ?_, fun j hj hflag hheld => ?_, fun b => ?_⟩
  · by_cases hca : c = a
    · subst hca
      rw [hstagea] at hc
      exact hcall j d b hc
    · rw [hstagec c hca] at hc
      exact h.calls hc
  · by_cases hca : c = a
    · subst hca
      rw [hstagea] at hc
      obtain ⟨rfl, hv⟩ := hready j d b x hc
      rw [hbufi]
      exact hv
    · rw [hstagec c hca] at hc
      have hv := h.ready hc
      by_cases hji : j = i
      · subst hji
        rw [hbufi]
        exact hvalid hv
      · rw [hbufj j hji]
        exact hv
  · by_cases hji : j = i
    · subst hji
      rw [hbufi] at hj hflag ⊢
      refine hdata hj hflag (fun d b hst => hheld a d b (hstagea.trans hst)) fun c hc d b hst => ?_
      exact hheld c d b ((hstagec c hc).trans hst)
    · have hb : buf.dev = dev → (s.buf j).blockno ≠ buf.blockno := fun hd hb =>
        hji (hunique j i hj (hbufi ▸ hd) (by rw [hbufi, hbufj j hji]; exact hb))
      rw [hbufj j hji] at hj hflag ⊢
      rw [hother _ hb]
      refine h.data j hj hflag fun c d b hst => ?_
      by_cases hca : c = a
      · subst hca
        rw [hst] at hold
        rcases hold with hold | hold
        · cases hold
        · exact hji (Option.some.inj hold)
      · exact hheld c d b ((hstagec c hca).trans hst)
  · rw [hdisk]
    by_cases hb : buf.dev = dev ∧ b = buf.blockno
    · obtain ⟨hd, rfl⟩ := hb
      rcases hcontent with hsame | ⟨hdone, -⟩
      · rw [hsame]
        rcases h.disk buf.blockno with hdisk | ⟨j, hj, hjb, hjd⟩
        · exact .inl hdisk
        · have hji : j = i := h.unique j i hj (hname.1 ▸ hd) (hjb.trans hname.2)
          subst hji
          exact .inr ⟨j, by rw [hbufi]; exact hd, by rw [hbufi], by rw [hbufi]; exact hdirty hjd⟩
      · exact .inr ⟨i, by rw [hbufi]; exact hd, by rw [hbufi], by rw [hbufi]; exact hdone⟩
    · rw [hother b fun hd hc => hb ⟨hd, hc⟩]
      rcases h.disk b with hdisk | ⟨j, hj, hjb, hjd⟩
      · exact .inl hdisk
      · refine .inr ⟨j, (hnames j).1.trans hj, (hnames j).2.trans hjb, ?_⟩
        by_cases hji : j = i
        · subst hji
          rw [hbufi]
          exact hdirty hjd
        · rw [hbufj j hji]
          exact hjd

theorem Coherent.keep (h : s.Coherent dev)
    (hbuf : s'.buf = Function.update s.buf i buf) (hstage : s'.stage = Function.update s.stage a st)
    (hdisk : s'.disk = s.disk) (hcontent : s'.content = s.content)
    (hold : (s.stage a).buf = none ∨ (s.stage a).buf = some i)
    (hheld : ∀ d b, s.stage a ≠ .held i d b true)
    (hname : buf.dev = (s.buf i).dev ∧ buf.blockno = (s.buf i).blockno)
    (hflags : buf.valid = (s.buf i).valid ∧ buf.dirty = (s.buf i).dirty)
    (hsame : buf.data = (s.buf i).data)
    (hcall : ∀ j d b, st.call = some (j, d, b) → d = dev ∨ d % 2 ≠ dev % 2)
    (hready : ∀ j d b c, st = .held j d b c → j = i ∧ buf.valid = true) : s'.Coherent dev := by
  refine h.update hbuf hstage hdisk hold hname (fun hv => hflags.1.trans hv) (fun hd => hflags.2.trans hd)
    (.inl hcontent) hcall hready fun hd hflag _ hothers => ?_
  rw [hsame, hcontent, hname.2]
  rw [hname.1] at hd
  rw [hflags.1, hflags.2] at hflag
  refine h.data i hd hflag fun c d b hst => ?_
  by_cases hca : c = a
  · subst hca
    exact hheld d b hst
  · exact hothers c hca d b hst

theorem Coherent.recycle (h : s.Coherent dev) (hcalls : s.Calls) (hbuf : s'.buf = Function.update s.buf i buf)
    (hstage : s'.stage = Function.update s.stage a (.waiting i d b)) (hdisk : s'.disk = s.disk)
    (hcontent : s'.content = s.content) (hname : buf.dev = d ∧ buf.blockno = b)
    (hempty : buf.valid = false ∧ buf.dirty = false)
    (hmiss : ∀ j, ¬((s.buf j).dev = d ∧ (s.buf j).blockno = b)) (hidle : s.stage a = .idle)
    (hfree : (s.buf i).refcnt = 0) (hclean : (s.buf i).dirty = false)
    (hdev : d = dev ∨ d % 2 ≠ dev % 2) : s'.Coherent dev := by
  have hbufi : s'.buf i = buf := by rw [hbuf, Function.update_self]
  have hbufj : ∀ j, j ≠ i → s'.buf j = s.buf j := fun j hj => by rw [hbuf, Function.update_of_ne hj]
  have hstagec : ∀ c, c ≠ a → s'.stage c = s.stage c := fun c hc => by
    rw [hstage, Function.update_of_ne hc]
  have hstagea : s'.stage a = .waiting i d b := by rw [hstage, Function.update_self]
  have hheld : ∀ {c j d' b' x}, s'.stage c = .held j d' b' x → s.stage c = .held j d' b' x := by
    intro c j d' b' x hc
    by_cases hca : c = a
    · subst hca
      cases hstagea.symm.trans hc
    · rw [← hstagec c hca]
      exact hc
  have hnew : ∀ j, j ≠ i → (s.buf j).dev = dev → buf.dev = dev → (s.buf j).blockno ≠ buf.blockno :=
    fun j _ hj hd hb => hmiss j ⟨hj.trans (hd.symm.trans hname.1), hb.trans hname.2⟩
  refine ⟨fun j k hj hk hjk => ?_, fun {c j d' b'} hc => ?_, fun {c j d' b' x} hc => ?_,
    fun j hj hflag hno => ?_, fun b' => ?_⟩
  · by_cases hji : j = i <;> by_cases hki : k = i
    · rw [hji, hki]
    · subst hji
      rw [hbufi] at hj hjk
      rw [hbufj k hki] at hk hjk
      exact absurd hjk.symm (hnew k hki hk hj)
    · subst hki
      rw [hbufi] at hk hjk
      rw [hbufj j hji] at hj hjk
      exact absurd hjk (hnew j hji hj hk)
    · rw [hbufj j hji] at hj hjk
      rw [hbufj k hki] at hk hjk
      exact h.unique j k hj hk hjk
  · by_cases hca : c = a
    · subst hca
      rw [hstagea] at hc
      cases hc
      exact hdev
    · rw [hstagec c hca] at hc
      exact h.calls hc
  · have hold := hheld hc
    have hji : j ≠ i := by
      rintro rfl
      exact hcalls.unused hfree c (by rw [hold]; rfl)
    rw [hbufj j hji]
    exact h.ready hold
  · have hji : j ≠ i := by
      rintro rfl
      rw [hbufi, hempty.1, hempty.2] at hflag
      rcases hflag with hflag | hflag <;> cases hflag
    rw [hbufj j hji] at hj hflag ⊢
    rw [hcontent]
    refine h.data j hj hflag fun c d' b' hst => ?_
    by_cases hca : c = a
    · subst hca
      cases hidle.symm.trans hst
    · exact hno c d' b' ((hstagec c hca).trans hst)
  · rw [hdisk, hcontent]
    rcases h.disk b' with hsame | ⟨j, hj, hjb, hjd⟩
    · exact .inl hsame
    · have hji : j ≠ i := by
        rintro rfl
        cases hclean.symm.trans hjd
      exact .inr ⟨j, by rw [hbufj j hji]; exact ⟨hj, hjb, hjd⟩⟩

theorem Coherent.served (h : s.Coherent dev)
    (hbuf : s'.buf = Function.update s.buf i buf) (hstage : s'.stage = s.stage)
    (hcontent : s'.content = s.content)
    (hname : buf.dev = (s.buf i).dev ∧ buf.blockno = (s.buf i).blockno) (hvalid : buf.valid = true)
    (hdata : (s.buf i).dev = dev → buf.data = s.content dev (s.buf i).blockno ∧
      s'.disk (dev % 2) (s.buf i).blockno = s.content dev (s.buf i).blockno)
    (hdisk : ∀ b, ((s.buf i).dev = dev → b ≠ (s.buf i).blockno) →
      s'.disk (dev % 2) b = s.disk (dev % 2) b) : s'.Coherent dev := by
  have hbufi : s'.buf i = buf := by rw [hbuf, Function.update_self]
  have hbufj : ∀ j, j ≠ i → s'.buf j = s.buf j := fun j hj => by rw [hbuf, Function.update_of_ne hj]
  have hnames : ∀ j, (s'.buf j).dev = (s.buf j).dev ∧ (s'.buf j).blockno = (s.buf j).blockno := fun j => by
    by_cases hj : j = i
    · subst hj
      rw [hbufi]
      exact hname
    · rw [hbufj j hj]
      exact ⟨rfl, rfl⟩
  refine ⟨fun j k hj hk hb => ?_, fun {c j d b} hc => h.calls (hstage ▸ hc), fun {c j d b x} hc => ?_,
    fun j hj hflag hno => ?_, fun b => ?_⟩
  · rw [(hnames j).1] at hj
    rw [(hnames k).1] at hk
    rw [(hnames j).2, (hnames k).2] at hb
    exact h.unique j k hj hk hb
  · by_cases hji : j = i
    · subst hji
      rw [hbufi]
      exact hvalid
    · rw [hbufj j hji]
      exact h.ready (hstage ▸ hc)
  · by_cases hji : j = i
    · subst hji
      rw [(hnames j).1] at hj
      rw [(hnames j).2, hbufi, hcontent]
      exact (hdata hj).1
    · rw [hbufj j hji] at hj hflag ⊢
      rw [hcontent]
      exact h.data j hj hflag fun c d b hst => hno c d b (by rw [hstage]; exact hst)
  · rw [hcontent]
    by_cases hb : (s.buf i).dev = dev ∧ b = (s.buf i).blockno
    · obtain ⟨hd, rfl⟩ := hb
      exact .inl (hdata hd).2
    · rw [hdisk b fun hd hc => hb ⟨hd, hc⟩]
      rcases h.disk b with hsame | ⟨j, hj, hjb, hjd⟩
      · exact .inl hsame
      · have hji : j ≠ i := by
          rintro rfl
          exact hb ⟨hj, hjb.symm⟩
        exact .inr ⟨j, by rw [hbufj j hji]; exact ⟨hj, hjb, hjd⟩⟩

theorem setContent_content : (s.setContent d b x).content =
    Function.update s.content d (Function.update (s.content d) b x) := rfl

theorem setContent_other {b' : ℕ} (h : d = dev → b' ≠ b) :
    (s.setContent d b x).content dev b' = s.content dev b' := by
  by_cases hd : d = dev
  · subst hd
    rw [setContent_content, Function.update_self, Function.update_of_ne (h rfl)]
  · rw [setContent_content, Function.update_of_ne (Ne.symm hd)]

theorem setContent_self : (s.setContent d b x).content d b = x := by
  rw [setContent_content, Function.update_self, Function.update_self]

theorem Coherent.writes (h : s.Coherent dev) (hcalls : s.Calls) {c : Bool}
    (hheld : s.stage a = .held i d b c)
    (hbuf : s'.buf = Function.update s.buf i { s.buf i with dirty := true })
    (hstage : s'.stage = Function.update s.stage a st) (hdisk : s'.disk = s.disk)
    (hcontent : s'.content = (s.setContent d b (s.buf i).data).content)
    (hst : st = .held i d b false ∨ st = .writing i d b) : s'.Coherent dev := by
  have hcall : (s.stage a).call = some (i, d, b) := by
    rw [hheld]
    rfl
  obtain ⟨hd, hb⟩ := hcalls.named hcall
  refine h.update hbuf hstage hdisk (.inr (Stage.buf_of_call hcall)) ⟨rfl, rfl⟩ id (fun _ => rfl)
    (.inr ⟨rfl, fun b' hb' => ?_⟩) (fun j d' b' hc => ?_) (fun j d' b' x hc => ?_) fun hdev _ _ _ => ?_
  · rw [hcontent]
    refine setContent_other fun hdd => ?_
    rw [← hb]
    exact hb' (hd.trans hdd)
  · refine h.calls (a := a) (i := i) (b := b) ?_
    rcases hst with rfl | rfl <;> cases hc <;> exact hcall
  · rcases hst with rfl | rfl <;> cases hc
    exact ⟨rfl, h.ready hheld⟩
  · change (s.buf i).dev = dev at hdev
    change (s.buf i).data = s'.content dev (s.buf i).blockno
    rw [hcontent, hb, ← hdev, hd]
    exact setContent_self.symm

theorem Move.coherent (h : Move dev s s') (hcalls : s.Calls) (hreq : s.Requests)
    (hco : s.Coherent dev) : s'.Coherent dev := by
  cases h with
  | stay => exact hco
  | hit hidle hname hdev =>
    refine hco.keep rfl rfl rfl rfl (.inl (by rw [hidle]; rfl)) (by rw [hidle]; simp) ⟨rfl, rfl⟩ ⟨rfl, rfl⟩
      rfl (fun j d' b' hc => ?_) fun j d' b' c hc => by cases hc
    cases hc
    exact hdev
  | recycle hidle hmiss hfree hclean hdev =>
    exact hco.recycle hcalls rfl rfl rfl rfl ⟨rfl, rfl⟩ ⟨rfl, rfl⟩ hmiss hidle hfree hclean hdev
  | lock hstage hfree =>
    refine hco.keep rfl rfl rfl rfl (.inr (by rw [hstage]; rfl)) (by rw [hstage]; simp) ⟨rfl, rfl⟩ ⟨rfl, rfl⟩
      rfl (fun j d' b' hc => ?_) fun j d' b' c hc => by cases hc
    exact hco.calls (by rw [hstage]; exact hc)
  | @cached a i d b hstage hvalid =>
    refine hco.keep (Function.update_eq_self i s.buf).symm rfl rfl rfl (.inr (by rw [hstage]; rfl))
      (by rw [hstage]; simp) ⟨rfl, rfl⟩ ⟨rfl, rfl⟩ rfl (fun j d' b' hc => ?_) fun j d' b' c hc => ?_
    · exact hco.calls (by rw [hstage]; exact hc)
    · cases hc
      exact ⟨rfl, hvalid⟩
  | @request a i d b hstage hvalid =>
    refine hco.keep (Function.update_eq_self i s.buf).symm rfl rfl rfl (.inr (by rw [hstage]; rfl))
      (by rw [hstage]; simp) ⟨rfl, rfl⟩ ⟨rfl, rfl⟩ rfl (fun j d' b' hc => ?_) fun j d' b' c hc => by cases hc
    exact hco.calls (by rw [hstage]; exact hc)
  | read hqueue hclean =>
    refine hco.served rfl rfl rfl ⟨rfl, rfl⟩ rfl (fun hd => ?_) fun b _ => rfl
    have hdisk := hco.disk_of_clean hd hclean
    refine ⟨?_, hdisk⟩
    rw [← hdisk, ← hd]
  | @write i rest hqueue hdirty =>
    obtain ⟨a, ha⟩ := hreq.waited i (hqueue ▸ List.mem_cons_self)
    -- the holder waits, so it is not changing the buffer
    have hno : ∀ c d b, s.stage c ≠ .held i d b true := fun c d b hc => by
      cases hcalls.holder_unique (Stage.holds_of_waitsFor ha) (by rw [hc]; rfl : (s.stage c).holds = some i)
      rw [hc] at ha
      cases ha
    refine hco.served rfl rfl rfl ⟨rfl, rfl⟩ rfl (fun hd => ?_) fun b hb => ?_
    · have hdata := hco.data i hd (.inr hdirty) hno
      refine ⟨hdata, ?_⟩
      change Function.update s.disk ((s.buf i).dev % 2) _ (dev % 2) _ = _
      rw [hd, Function.update_self, Function.update_self, hdata]
    · change Function.update s.disk ((s.buf i).dev % 2) _ (dev % 2) b = _
      obtain ⟨d, b', hcall⟩ := Stage.call_of_waitsFor ha
      rcases hco.calls hcall with hd | hd
      · have hname := (hcalls.named hcall).1.trans hd
        rw [hname, Function.update_self, Function.update_of_ne (hb hname)]
      · rw [(hcalls.named hcall).1, Function.update_of_ne (Ne.symm hd)]
  | @wake a i d b hstage hvalid hclean =>
    have hcall : (s.stage a).call = some (i, d, b) := by
      rcases hstage with hstage | hstage <;> rw [hstage] <;> rfl
    refine hco.keep (Function.update_eq_self i s.buf).symm rfl rfl rfl (.inr (Stage.buf_of_call hcall))
      (fun d' b' hc => ?_) ⟨rfl, rfl⟩ ⟨rfl, rfl⟩ rfl (fun j d' b' hc => ?_) fun j d' b' c hc => ?_
    · rcases hstage with hstage | hstage <;> cases hstage.symm.trans hc
    · exact hco.calls (hcall.trans hc)
    · cases hc
      exact ⟨rfl, hvalid⟩
  | @modify a i d b c x hstage =>
    refine hco.update rfl rfl rfl (.inr (by rw [hstage]; rfl)) ⟨rfl, rfl⟩ id id (.inl rfl)
      (fun j d' b' hc => ?_) (fun j d' b' c hc => ?_) fun _ _ hno _ => absurd rfl (hno d b)
    · exact hco.calls (by rw [hstage]; exact hc)
    · cases hc
      exact ⟨rfl, hco.ready hstage⟩
  | logWrite hstage => exact hco.writes hcalls hstage rfl rfl rfl rfl (.inl rfl)
  | bwrite hstage => exact hco.writes hcalls hstage rfl rfl rfl rfl (.inr rfl)
  | unlock hstage =>
    exact hco.keep rfl rfl rfl rfl (.inr (by rw [hstage]; rfl)) (by rw [hstage]; simp) ⟨rfl, rfl⟩ ⟨rfl, rfl⟩
      rfl (fun j d' b' hc => by cases hc) fun j d' b' c hc => by cases hc
  | @release a i hstage =>
    obtain ⟨-, -, hdisk, hcontent⟩ := brelse_frame s i
    exact hco.keep (brelse_buf s i) (brelse_setStage s i a) hdisk hcontent (.inr (by rw [hstage]; rfl))
      (by rw [hstage]; simp) ⟨rfl, rfl⟩ ⟨rfl, rfl⟩ rfl (fun j d' b' hc => by cases hc)
      fun j d' b' c hc => by cases hc

/-! ### Runs -/

structure Inv (dev : ℕ) (s : Bcache n δ) : Prop where
  listed : s.Listed
  calls : s.Calls
  requests : s.Requests
  coherent : s.Coherent dev

theorem Inv.step (h : s.Inv dev) {e : Event n δ} (hrule : Disciplined dev s e) (hs : s.step e = .ok s') :
    s'.Inv dev := by
  have hmove := step_move h.listed hrule hs
  exact ⟨hmove.listed h.listed, hmove.calls h.calls, hmove.requests h.calls h.requests,
    hmove.coherent h.calls h.requests h.coherent⟩

theorem binit_inv (hdev : dev ≠ 0) (zero : δ) (disk : ℕ → ℕ → δ) (havedisk1 : Bool) :
    (binit zero disk havedisk1 : Bcache n δ).Inv dev := by
  obtain ⟨next, prev, hframe⟩ := binit_frame (List.finRange 30)
    (zeroed zero disk havedisk1 : Bcache n δ)
  refine ⟨⟨(List.finRange 30).reverse ++ [], binit_listed ?_ (by simp) (List.nodup_finRange 30), ?_⟩,
    ?_, ?_, ?_⟩
  · exact ⟨by simp, Ring.links_cons_cons.2 ⟨rfl, List.isChain_singleton _⟩,
      Ring.links_cons_cons.2 ⟨rfl, List.isChain_singleton _⟩⟩
  · decide
  · rw [binit, hframe]
    refine ⟨fun i => ?_, fun i a => ?_, fun hc => by cases hc⟩
    · exact (tally_eq_zero_iff.2 fun a => by simp [zeroed, Stage.buf]).symm
    · simp [zeroed, Stage.holds]
  · rw [binit, hframe]
    exact ⟨List.nodup_nil, fun i hi => (by cases hi), fun i hi => by cases hi⟩
  · rw [binit, hframe]
    exact ⟨fun i _ hi => absurd hi.symm hdev, fun hc => (by cases hc), fun hc => (by cases hc),
      fun i hi => absurd hi.symm hdev, fun b => .inl rfl⟩

/-- What the cache guarantees for `dev`. -/
structure Guarantees (dev : ℕ) (s : Bcache n δ) : Prop where
  /-- A block has at most one buffer. -/
  unique : ∀ i j, (s.buf i).dev = dev → (s.buf j).dev = dev → (s.buf i).blockno = (s.buf j).blockno → i = j
  /-- The list contains each buffer once. -/
  listed : s.Listed
  /-- What `bread` has returned is what was last written to the block. -/
  returned : ∀ a i b, s.stage a = .held i dev b false →
    (s.buf i).dev = dev ∧ (s.buf i).blockno = b ∧ (s.buf i).data = s.content dev b
  /-- A buffer that is in use or dirty keeps its name. -/
  recycled : ∀ e s', Disciplined dev s e → s.step e = .ok s' → ∀ i,
    (s.buf i).refcnt ≠ 0 ∨ (s.buf i).dirty = true →
      (s'.buf i).dev = (s.buf i).dev ∧ (s'.buf i).blockno = (s.buf i).blockno

theorem Move.keeps_name (h : Move dev s s')
    (hi : (s.buf i).refcnt ≠ 0 ∨ (s.buf i).dirty = true) :
    (s'.buf i).dev = (s.buf i).dev ∧ (s'.buf i).blockno = (s.buf i).blockno := by
  have hset : ∀ {j : Fin 30} {buf : Buf n δ}, s'.buf = Function.update s.buf j buf →
      (j = i → buf.dev = (s.buf j).dev ∧ buf.blockno = (s.buf j).blockno) →
        (s'.buf i).dev = (s.buf i).dev ∧ (s'.buf i).blockno = (s.buf i).blockno := by
    intro j buf hbuf hname
    rw [hbuf]
    by_cases hij : i = j
    · subst hij
      rw [Function.update_self]
      exact hname rfl
    · rw [Function.update_of_ne hij]
      exact ⟨rfl, rfl⟩
  cases h with
  | stay | cached _ _ | request _ _ | wake _ _ _ => exact ⟨rfl, rfl⟩
  | recycle hidle hmiss hfree hclean _ =>
    refine hset rfl fun hji => ?_
    subst hji
    rcases hi with hi | hi
    · exact absurd hfree hi
    · cases hclean.symm.trans hi
  | @release a j hstage => exact hset (brelse_buf s j) fun _ => ⟨rfl, rfl⟩
  | _ => exact hset rfl fun _ => ⟨rfl, rfl⟩

theorem Inv.guarantees (h : s.Inv dev) : s.Guarantees dev where
  unique := h.coherent.unique
  listed := h.listed
  returned a i b hheld := by
    have hcall : (s.stage a).call = some (i, dev, b) := by
      rw [hheld]
      rfl
    have hhold : (s.stage a).holds = some i := by
      rw [hheld]
      rfl
    obtain ⟨hdev, hb⟩ := h.calls.named hcall
    refine ⟨hdev, hb, ?_⟩
    rw [← hb]
    refine h.coherent.data i hdev (.inl (h.coherent.ready hheld)) fun c d b' hc => ?_
    cases h.calls.holder_unique hhold (by rw [hc]; rfl : (s.stage c).holds = some i)
    cases hheld.symm.trans hc
  recycled e s' hrule hs i hi := (step_move h.listed hrule hs).keeps_name hi

/-- Whatever calls of `bread`, `bwrite`, `log_write` and `brelse` are interleaved, the cache is coherent
after every step. -/
theorem cache_coherent (dev : ℕ) (hdev : dev ≠ 0) (zero : δ) (disk : ℕ → ℕ → δ) (havedisk1 : Bool)
    (es : List (Event n δ)) (s : Bcache n δ)
    (hrules : Run.Admits step (Disciplined dev) es (binit zero disk havedisk1))
    (hrun : Run.run step es (binit zero disk havedisk1) = .ok s) : s.Guarantees dev :=
  (Run.invariant (fun _ _ _ hs hrule hstep => Inv.step hs hrule hstep)
    (binit_inv hdev zero disk havedisk1) hrules hrun).guarantees

/-- One call reads block 5 of disk 1, changes it and writes it to the log; another call reads it. -/
def sampleEvents : List (Event 2 ℕ) :=
  [.bget 0 1 5, .acquiresleep 0, .bread 0, .bget 1 1 5, .ideintr true, .wake 0, .modify 0 7, .logWrite 0,
    .releasesleep 0, .acquiresleep 1, .brelse 0, .bread 1]

def disciplined (dev : ℕ) (s : Bcache n δ) : Event n δ → Bool
  | .bget _ dev' _ => dev' = dev ∨ dev' % 2 ≠ dev % 2
  | .releasesleep a =>
    match s.stage a with
    | .held _ _ _ true => false
    | _ => true
  | .ideintr ready => ready
  | _ => true

theorem disciplined_sound (s : Bcache n δ) (e : Event n δ) (h : disciplined dev s e = true) :
    Disciplined dev s e := by
  cases e with
  | bget a d b => exact of_decide_eq_true (p := d = dev ∨ d % 2 ≠ dev % 2) h
  | releasesleep a =>
    intro i d b hstage
    rw [disciplined, hstage] at h
    cases h
  | ideintr ready => exact h
  | _ => trivial

theorem cache_coherent_sample :
    Run.Admits step (Disciplined 1) sampleEvents (binit 0 (fun _ b => b) true) ∧
      ∃ s, Run.run step sampleEvents (binit 0 (fun _ b => b) true) = .ok s ∧ s.Guarantees 1 ∧
        s.stage 1 = .held 0 1 5 false ∧ (s.buf 0).data = 7 := by
  have hrules : Run.Admits step (Disciplined 1) sampleEvents (binit 0 (fun _ b => b) true) :=
    Run.Admits.of_passes disciplined_sound (by decide +kernel)
  have heval : Run.endsIn (fun s => decide (s.stage 1 = .held 0 1 5 false ∧ (s.buf 0).data = 7))
      (Run.run step sampleEvents (binit 0 (fun _ b => b) true)) = true := by decide +kernel
  obtain ⟨s, hrun, htest⟩ := Run.of_endsIn heval
  exact ⟨hrules, s, hrun, cache_coherent 1 (by decide) 0 _ true _ s hrules hrun, of_decide_eq_true htest⟩

end Bcache

end Xv6
