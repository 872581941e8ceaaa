import Xv6.Family

/-!
# The scheduler

Any number of CPUs run `scheduler` over one process table.  `ptable.lock` passes from the scheduler's
thread to the process it switches to and back, so the critical section of a CPU is followed through both:
the scheduler's own statements, and the sections of the processes as the steps of `Ptable`.
-/

namespace Xv6.Ptable.Sched

/-- Where a CPU is. -/
inductive Place where
  /-- In the scheduler without the lock. -/
  | top
  /-- In an interrupt handler that came in there and holds the lock. -/
  | wakes
  /-- In the loop over the table, about to look at entry `j`. -/
  | scan (j : ℕ)
  /-- `c->proc` is set, the state is not. -/
  | chosen (p : PPtr)
  /-- In a process, outside and inside its critical sections. -/
  | run (p : PPtr)
  | crit (p : PPtr)
  /-- In `sched`, before and after the switch. -/
  | leaving (p : PPtr)
  | back (p : PPtr)
deriving DecidableEq, Repr

structure State (ν : Type*) where
  table : Table
  lock : Option ν
  /-- `c->proc`. -/
  proc : ν → Option PPtr
  place : ν → Place

inductive Event (ν : Type*) where
  /-- The next statement of `scheduler`. -/
  | scheduler (c : ν)
  /-- An interrupt that takes the lock while the scheduler does not have it. -/
  | interrupt (c : ν)
  /-- The process on the CPU takes the lock. -/
  | acquire (c : ν)
  | release (c : ν)
  /-- The process on the CPU, or the handler, takes a step on the table. -/
  | act (c : ν) (e : Ptable.Event)

/-- The steps of process `p` that it takes with the lock. -/
def critical (p : PPtr) : Ptable.Event → Bool
  | .yield q | .allocproc q | .forkDone q | .exit q | .wait q | .sleep q _ => q = p
  | .wakeup _ | .kill _ => true
  | .run _ | .forkFails _ | .forkParent _ | .fatal _ => false

/-- The steps of process `p` that it takes without. -/
def unlocked (p : PPtr) : Ptable.Event → Bool
  | .forkFails q | .forkParent q | .fatal q => q = p
  | .run _ | .yield _ | .allocproc _ | .forkDone _ | .exit _ | .wait _ | .sleep _ _ | .wakeup _ | .kill _ => false

section
variable {ν : Type*} [DecidableEq ν]

def State.goto (s : State ν) (c : ν) (pl : Place) : State ν :=
  { s with place := Function.update s.place c pl }

/-- A step of the process on a CPU, or of a handler there. -/
def act (s : State ν) (c : ν) (e : Ptable.Event) : Except Halt (State ν) :=
  match s.place c with
  | .wakes =>
    match e with
    | .wakeup addr => .ok { s with table := s.table.wakeup1 (some (.other addr)) }
    | _ => .ok s
  | .run p =>
    if unlocked p e then (s.table.step e).map fun t => { s with table := t } else .ok s
  | .crit p =>
    -- a process that has given up its state goes on to `sched`
    if critical p e then (s.table.step e).map fun t : Table =>
      { s with table := t }.goto c (if (t.proc p).state = ProcState.RUNNING then .crit p else .leaving p)
    else .ok s
  | _ => .ok s

def step (s : State ν) : Event ν → Except Halt (State ν)
  | .scheduler c =>
    match s.place c with
    | .top => .ok (if s.lock = none then { s with lock := some c }.goto c (.scan 0) else s)
    | .scan j =>
      .ok (if h : j < 64 then
        if (s.table.proc ⟨j, h⟩).state = .RUNNABLE then
          { s with proc := Function.update s.proc c (some ⟨j, h⟩) }.goto c (.chosen ⟨j, h⟩)
        else s.goto c (.scan (j + 1))
      else { s with lock := none }.goto c .top)
    | .chosen p => (s.table.step (.run p)).map fun t => { s with table := t }.goto c (.crit p)
    | .leaving p => .ok (s.goto c (.back p))
    | .back p => .ok ({ s with proc := Function.update s.proc c none }.goto c (.scan (p + 1)))
    | _ => .ok s
  | .interrupt c =>
    .ok (if s.place c = .top ∧ s.lock = none then { s with lock := some c }.goto c .wakes else s)
  | .acquire c =>
    match s.place c with
    | .run p => .ok (if s.lock = none then { s with lock := some c }.goto c (.crit p) else s)
    | _ => .ok s
  | .release c =>
    match s.place c with
    | .crit p => .ok ({ s with lock := none }.goto c (.run p))
    | .wakes => .ok ({ s with lock := none }.goto c .top)
    | _ => .ok s
  | .act c e => act s c e

/-- All CPUs come to the scheduler with the table of `userinit`. -/
def start (ν : Type*) : State ν := ⟨.boot, none, fun _ => none, fun _ => .top⟩

end

/-! ### What a step on the table does to who runs -/

/-- The process whose step it is. -/
def actor : Ptable.Event → Option PPtr
  | .run p | .yield p | .allocproc p | .forkFails p | .forkParent p | .forkDone p | .exit p | .wait p
  | .sleep p _ | .fatal p => some p
  | .wakeup _ | .kill _ => none

/-- Whether `q` runs is what it was. -/
def Still (q : PPtr) (t t' : Table) : Prop := (t'.proc q).state = .RUNNING ↔ (t.proc q).state = .RUNNING

section
variable {t t' : Table} {p q : PPtr}

theorem Still.set {x : Proc} (h : q = p → (x.state = .RUNNING ↔ (t.proc p).state = .RUNNING)) :
    Still q t (t.set p x) := by
  rw [Still, t.set_proc]
  split
  · rename_i heq
    rw [h heq, heq]
  · rfl

theorem Still.setPhase {ph : Phase} : Still q t (t.setPhase p ph) := by
  rw [Still, setPhase_proc]

theorem Still.wakeup1 (c : Option Chan) : Still q t (t.wakeup1 c) := by
  rw [Still, wakeup1_proc]
  dsimp only
  split
  · rename_i h
    rw [h.1]
    decide
  · rfl

theorem Still.reparent : Still q t (t.reparent p) := by
  rw [Still, reparent_proc]

theorem Still.trans {t₁ t₂ t₃ : Table} (h : Still q t₁ t₂) (h' : Still q t₂ t₃) : Still q t₁ t₃ :=
  Iff.trans h' h

theorem Still.exit (hq : q ≠ p) : Still q t (t.exit p) := by
  have hbury : ∀ u : Table, Still q u (u.setState p .ZOMBIE) := fun u => .set fun heq => absurd heq hq
  refine (Still.wakeup1 ((t.proc p).parent.map .proc)).trans (Still.reparent (p := p) |>.trans ?_)
  rw [Table.exit]
  split
  · exact (Still.wakeup1 _).trans (hbury _)
  · exact hbury _

theorem Still.wait (hq : q ≠ p) : Still q t (t.wait p) := by
  rw [Table.wait]
  split
  case h_1 r hreap =>
    have hzombie := (waitResult_reap hreap).2
    have hreaped : Still q t (t.reap r p) :=
      .set fun _ => iff_of_false (fun h => (by cases h)) fun h => by cases hzombie.symm.trans h
    exact hreaped.trans .setPhase
  case h_2 => exact .setPhase
  case h_3 =>
    refine Still.trans ?_ .setPhase
    exact .set fun heq => absurd heq hq

theorem Still.allocproc : Still q t (t.allocproc p) := by
  rw [Table.allocproc]
  split
  · exact Iff.rfl
  · rename_i np hfind
    have hfound := List.find?_some hfind
    have hunused : (t.proc np).state = .UNUSED := of_decide_eq_true hfound
    have hmade : Still q t (t.embryo np) :=
      .set fun _ => iff_of_false (fun h => (by cases h)) fun h => by cases hunused.symm.trans h
    exact hmade.trans .setPhase

theorem step_still {e : Ptable.Event} (ht : Family t) (hstep : t.step e = .ok t') (hq : actor e ≠ some q) :
    Still q t t' := by
  have hne : ∀ {p}, actor e = some p → q ≠ p := by
    rintro p he rfl
    exact hq he
  have hchild : ∀ {p np : PPtr} {b}, (t.proc p).phase = .forking np b → (t.proc np).state ≠ .RUNNING := by
    intro p np b hphase h
    cases (ht.forking p np b hphase).2.1.symm.trans h
  cases takes_of_step hstep with
  | stay => exact Iff.rfl
  | run => exact .set fun heq => absurd heq (hne rfl)
  | yield => exact .set fun heq => absurd heq (hne rfl)
  | allocproc => exact .allocproc
  | forkFails hphase =>
    refine Still.setPhase.trans (.set fun _ => ?_)
    rw [setPhase_proc]
    exact iff_of_false (fun h => (by cases h)) (hchild hphase)
  | forkParent =>
    refine Still.trans ?_ .setPhase
    exact .set fun _ => Iff.rfl
  | forkDone hphase =>
    refine Still.setPhase.trans (.set fun _ => ?_)
    rw [setPhase_proc]
    exact iff_of_false (fun h => (by cases h)) (hchild hphase)
  | exit => exact .exit (hne rfl)
  | wait => exact .wait (hne rfl)
  | sleep => exact .set fun heq => absurd heq (hne rfl)
  | wakeup => exact .wakeup1 _
  | kill =>
    refine .set fun _ => ?_
    dsimp only
    split
    · rename_i h
      rw [h]
      decide
    · exact Iff.rfl
  | fatal => exact .set fun _ => Iff.rfl

theorem unlocked_state {e : Ptable.Event} (ht : Family t) (hstep : t.step e = .ok t')
    (he : unlocked p e = true) :
    (t'.proc q).state = (t.proc q).state ∨ (t.proc q).state = .EMBRYO ∧ (t'.proc q).state = .UNUSED := by
  cases takes_of_step hstep with
  | stay => exact .inl rfl
  | @forkFails r np hphase =>
    rw [Table.setState, Table.set_proc]
    split
    · rename_i heq
      exact .inr ⟨heq ▸ (ht.forking r np false hphase).2.1, rfl⟩
    · rw [setPhase_proc]
      exact .inl rfl
  | forkParent =>
    rw [setPhase_proc, Table.set_proc]
    dsimp only
    split
    · rename_i heq
      exact .inl (heq ▸ rfl)
    · exact .inl rfl
  | fatal =>
    rw [Table.set_proc]
    split
    · rename_i heq
      exact .inl (heq ▸ rfl)
    · exact .inl rfl
  | _ => cases he

end

/-! ### Who has the lock, and who runs what -/

/-- What the place of a CPU says. -/
def Fits {ν : Type*} (s : State ν) (c : ν) : Place → Prop
  | .top => s.proc c = none ∧ s.lock ≠ some c
  | .wakes | .scan _ => s.proc c = none ∧ s.lock = some c
  | .chosen p => s.proc c = some p ∧ s.lock = some c ∧ (s.table.proc p).state = .RUNNABLE
  | .run p => s.proc c = some p ∧ s.lock ≠ some c ∧ (s.table.proc p).state = .RUNNING
  | .crit p => s.proc c = some p ∧ s.lock = some c ∧ (s.table.proc p).state = .RUNNING
  | .leaving p | .back p => s.proc c = some p ∧ s.lock = some c ∧ (s.table.proc p).state ≠ .RUNNING

structure Inv {ν : Type*} (s : State ν) : Prop where
  family : Family s.table
  fits : ∀ c, Fits s c (s.place c)
  alone : ∀ c c' p, s.proc c = some p → s.proc c' = some p → c = c'
  running : ∀ p, (s.table.proc p).state = .RUNNING → ∃ c, s.proc c = some p

/-- The CPUs other than `c` see nothing of a step of `c`: not the lock, nor their own processes. -/
structure Frame {ν : Type*} (c : ν) (s s' : State ν) : Prop where
  place : ∀ c', c' ≠ c → s'.place c' = s.place c'
  proc : ∀ c', c' ≠ c → s'.proc c' = s.proc c'
  lock : ∀ c', c' ≠ c → (s'.lock = some c' ↔ s.lock = some c')
  still : ∀ c' q, c' ≠ c → s.proc c' = some q → Still q s.table s'.table
  held : ∀ c' q, c' ≠ c → s.lock = some c' → (s.table.proc q).state = .RUNNABLE →
    (s'.table.proc q).state = .RUNNABLE

section
variable {ν : Type*} {s s' : State ν} {c c' : ν} {p q : PPtr}

theorem Frame.fits {pl : Place} (h : Frame c s s') (hc : c' ≠ c) (hs : Fits s c' pl) : Fits s' c' pl := by
  have hlock := h.lock c' hc
  cases pl with
  | top => exact ⟨(h.proc c' hc).trans hs.1, fun hl => hs.2 (hlock.1 hl)⟩
  | wakes => exact ⟨(h.proc c' hc).trans hs.1, hlock.2 hs.2⟩
  | scan j => exact ⟨(h.proc c' hc).trans hs.1, hlock.2 hs.2⟩
  | chosen p => exact ⟨(h.proc c' hc).trans hs.1, hlock.2 hs.2.1, h.held c' p hc hs.2.1 hs.2.2⟩
  | run p =>
    exact ⟨(h.proc c' hc).trans hs.1, fun hl => hs.2.1 (hlock.1 hl), (h.still c' p hc hs.1).2 hs.2.2⟩
  | crit p => exact ⟨(h.proc c' hc).trans hs.1, hlock.2 hs.2.1, (h.still c' p hc hs.1).2 hs.2.2⟩
  | leaving p =>
    exact ⟨(h.proc c' hc).trans hs.1, hlock.2 hs.2.1, fun hr => hs.2.2 ((h.still c' p hc hs.1).1 hr)⟩
  | back p =>
    exact ⟨(h.proc c' hc).trans hs.1, hlock.2 hs.2.1, fun hr => hs.2.2 ((h.still c' p hc hs.1).1 hr)⟩

theorem Inv.frame (hs : Inv s) (h : Frame c s s') (hfamily : Family s'.table)
    (hfits : Fits s' c (s'.place c))
    (halone : ∀ c' p, c' ≠ c → s'.proc c = some p → s.proc c' ≠ some p)
    (hrunning : ∀ p, (s'.table.proc p).state = .RUNNING → ∃ c, s'.proc c = some p) : Inv s' where
  family := hfamily
  fits c' := by
    by_cases hc : c' = c
    · exact hc ▸ hfits
    · rw [h.place c' hc]
      exact h.fits hc (hs.fits c')
  alone c₁ c₂ p h₁ h₂ := by
    by_cases hc₁ : c₁ = c <;> by_cases hc₂ : c₂ = c
    · rw [hc₁, hc₂]
    · rw [hc₁] at h₁
      rw [h.proc c₂ hc₂] at h₂
      exact absurd h₂ (halone c₂ p hc₂ h₁)
    · rw [hc₂] at h₂
      rw [h.proc c₁ hc₁] at h₁
      exact absurd h₁ (halone c₁ p hc₁ h₂)
    · rw [h.proc c₁ hc₁] at h₁
      rw [h.proc c₂ hc₂] at h₂
      exact hs.alone c₁ c₂ p h₁ h₂
  running := hrunning

theorem Inv.runs (hs : Inv s) (hlock : s.lock ≠ some c) (hproc : s.proc c = some p) :
    (s.table.proc p).state = .RUNNING := by
  have hfits := hs.fits c
  cases hplace : s.place c with
  | top => rw [hplace] at hfits; exact by cases hfits.1.symm.trans hproc
  | wakes => rw [hplace] at hfits; exact absurd hfits.2 hlock
  | scan j => rw [hplace] at hfits; exact absurd hfits.2 hlock
  | chosen q => rw [hplace] at hfits; exact absurd hfits.2.1 hlock
  | run q =>
    rw [hplace] at hfits
    cases Option.some.inj (hfits.1.symm.trans hproc)
    exact hfits.2.2
  | crit q => rw [hplace] at hfits; exact absurd hfits.2.1 hlock
  | leaving q => rw [hplace] at hfits; exact absurd hfits.2.1 hlock
  | back q => rw [hplace] at hfits; exact absurd hfits.2.1 hlock

theorem lock_taken (hlock : s.lock = none) : ∀ c', c' ≠ c → (some c = some c' ↔ s.lock = some c') := by
  intro c' hc
  rw [hlock]
  exact iff_of_false (fun h => hc (Option.some.inj h).symm) (fun h => by cases h)

theorem lock_dropped (hlock : s.lock = some c) :
    ∀ c', c' ≠ c → ((none : Option ν) = some c' ↔ s.lock = some c') := by
  intro c' hc
  rw [hlock]
  exact iff_of_false (fun h => by cases h) (fun h => hc (Option.some.inj h).symm)

variable [DecidableEq ν]

theorem Inv.goto {lk : Option ν} {pl : Place} (hs : Inv s)
    (hlock : ∀ c', c' ≠ c → (lk = some c' ↔ s.lock = some c'))
    (hfits : Fits { s with lock := lk } c pl) : Inv ({ s with lock := lk }.goto c pl) := by
  refine hs.frame (c := c) ⟨?_, fun _ _ => rfl, hlock, fun _ _ _ _ => Iff.rfl, fun _ _ _ _ h => h⟩
    hs.family ?_ ?_ hs.running
  · exact fun c' hc => Function.update_of_ne hc _ _
  · have hplace : ({ s with lock := lk }.goto c pl).place c = pl := Function.update_self ..
    rw [hplace]
    cases pl <;> exact hfits
  · exact fun c' p hc h h' => hc (hs.alone c' c p h' h)

/-- A step on the table by the CPU that has the lock: it may start or stop the process there. -/
theorem Inv.table {t : Table} {pl : Place} (hs : Inv s) (hlock : s.lock = some c) (hfamily : Family t)
    (hstill : ∀ q, s.proc c ≠ some q → Still q s.table t)
    (hfits : Fits { s with table := t } c pl) : Inv ({ s with table := t }.goto c pl) := by
  have hother : ∀ c' q, c' ≠ c → s.proc c' = some q → Still q s.table t := fun c' q hc hq =>
    hstill q fun h => hc (hs.alone c' c q hq h)
  refine hs.frame (c := c) ⟨?_, fun _ _ => rfl, fun _ _ => Iff.rfl, hother, ?_⟩ hfamily ?_ ?_ ?_
  · exact fun c' hc => Function.update_of_ne hc _ _
  · exact fun c' q hc h => absurd (Option.some.inj (hlock.symm.trans h)).symm hc
  · have hplace : ({ s with table := t }.goto c pl).place c = pl := Function.update_self ..
    rw [hplace]
    cases pl <;> exact hfits
  · exact fun c' p hc h h' => hc (hs.alone c' c p h' h)
  · intro q hq
    by_cases hcq : s.proc c = some q
    · exact ⟨c, hcq⟩
    · exact hs.running q ((hstill q hcq).1 hq)

theorem Inv.choose (hs : Inv s) (hlock : s.lock = some c) (hnone : s.proc c = none)
    (hp : (s.table.proc p).state = .RUNNABLE) :
    Inv ({ s with proc := Function.update s.proc c (some p) }.goto c (.chosen p)) := by
  refine hs.frame (c := c) ⟨?_, ?_, fun _ _ => Iff.rfl, fun _ _ _ _ => Iff.rfl, fun _ _ _ _ h => h⟩
    hs.family ?_ ?_ ?_
  · exact fun c' hc => Function.update_of_ne hc _ _
  · exact fun c' hc => Function.update_of_ne hc _ _
  · have hplace : ({ s with proc := Function.update s.proc c (some p) }.goto c (.chosen p)).place c =
        .chosen p := Function.update_self ..
    rw [hplace]
    exact ⟨Function.update_self .., hlock, hp⟩
  · -- another CPU that had the process would be running it
    intro c' q hc hq hq'
    cases (Function.update_self (β := fun _ => Option PPtr) ..).symm.trans hq
    have hrun := hs.runs (fun h => hc (Option.some.inj (hlock.symm.trans h)).symm) hq'
    rw [hp] at hrun
    cases hrun
  · intro q hq
    obtain ⟨c', hc'⟩ := hs.running q hq
    refine ⟨c', (Function.update_of_ne ?_ _ _).trans hc'⟩
    rintro rfl
    rw [hnone] at hc'
    cases hc'

theorem Inv.leave {j : ℕ} (hs : Inv s) (hlock : s.lock = some c) (hproc : s.proc c = some p)
    (hp : (s.table.proc p).state ≠ .RUNNING) :
    Inv ({ s with proc := Function.update s.proc c none }.goto c (.scan j)) := by
  refine hs.frame (c := c) ⟨?_, ?_, fun _ _ => Iff.rfl, fun _ _ _ _ => Iff.rfl, fun _ _ _ _ h => h⟩
    hs.family ?_ ?_ ?_
  · exact fun c' hc => Function.update_of_ne hc _ _
  · exact fun c' hc => Function.update_of_ne hc _ _
  · have hplace : ({ s with proc := Function.update s.proc c none }.goto c (.scan j)).place c =
        .scan j := Function.update_self ..
    rw [hplace]
    exact ⟨Function.update_self .., hlock⟩
  · intro c' q _ hq
    exact by cases (Function.update_self (β := fun _ => Option PPtr) ..).symm.trans hq
  · intro q hq
    obtain ⟨c', hc'⟩ := hs.running q hq
    refine ⟨c', (Function.update_of_ne ?_ _ _).trans hc'⟩
    rintro rfl
    cases Option.some.inj (hproc.symm.trans hc')
    exact hp hq

theorem actor_critical {e : Ptable.Event} (h : critical p e = true) (hq : q ≠ p) : actor e ≠ some q := by
  have hne : ∀ {r : PPtr}, decide (r = p) = true → some r ≠ some q := fun hr heq =>
    hq ((Option.some.inj heq).symm.trans (of_decide_eq_true hr))
  cases e with
  | wakeup | kill => exact fun h => by cases h
  | run | forkFails | forkParent | fatal => cases h
  | _ => exact hne h

theorem actor_unlocked {e : Ptable.Event} (h : unlocked p e = true) : actor e = some p := by
  cases e with
  | forkFails | forkParent | fatal => exact congrArg some (of_decide_eq_true h)
  | _ => cases h

theorem Inv.act {e : Ptable.Event} (hs : Inv s) (hstep : act s c e = .ok s') : Inv s' := by
  have hfits := hs.fits c
  unfold Sched.act at hstep
  split at hstep
  case h_1 hplace =>
    rw [hplace] at hfits
    split at hstep
    · rename_i addr
      cases hstep
      have hwakes : Fits { s with table := s.table.wakeup1 (some (.other addr)) } c .wakes := ⟨hfits.1, hfits.2⟩
      have hnext := hs.table hfits.2 (hs.family.stir (.wakeup1 _ _)) (fun q _ => Still.wakeup1 _) hwakes
      rwa [State.goto, ← hplace, Function.update_eq_self] at hnext
    · cases hstep
      exact hs
  case h_2 p hplace =>
    rw [hplace] at hfits
    split at hstep
    · rename_i he
      obtain ⟨t, ht, rfl⟩ := Run.map_ok hstep
      have hstate : ∀ q, _ := fun q => unlocked_state (q := q) hs.family ht he
      have hrun : (t.proc p).state = .RUNNING := by
        rcases hstate p with h | h
        · exact h.trans hfits.2.2
        · exact by cases hfits.2.2.symm.trans h.1
      refine hs.frame (c := c) ⟨fun _ _ => rfl, fun _ _ => rfl, fun _ _ => Iff.rfl, ?_, ?_⟩
        (hs.family.step ht) ?_ ?_ ?_
      · intro c' q hc hq
        refine step_still hs.family ht ?_
        rw [actor_unlocked he]
        intro heq
        cases Option.some.inj heq
        exact hc (hs.alone c' c p hq hfits.1)
      · intro c' q _ _ hq
        rcases hstate q with h | h
        · exact h.trans hq
        · exact by cases hq.symm.trans h.1
      · show Fits _ c (s.place c)
        rw [hplace]
        exact ⟨hfits.1, hfits.2.1, hrun⟩
      · exact fun c' q hc h h' => hc (hs.alone c' c q h' h)
      · intro q hq
        refine hs.running q ?_
        rcases hstate q with h | h
        · exact h.symm.trans hq
        · exact by cases h.2.symm.trans hq
    · cases hstep
      exact hs
  case h_3 p hplace =>
    rw [hplace] at hfits
    split at hstep
    · rename_i he
      obtain ⟨t, ht, rfl⟩ := Run.map_ok hstep
      refine hs.table hfits.2.1 (hs.family.step ht) ?_ ?_
      · intro q hq
        refine step_still hs.family ht (actor_critical he ?_)
        rintro rfl
        exact hq hfits.1
      · split
        · rename_i hrun
          exact ⟨hfits.1, hfits.2.1, hrun⟩
        · rename_i hrun
          exact ⟨hfits.1, hfits.2.1, hrun⟩
    · cases hstep
      exact hs
  case h_4 =>
    cases hstep
    exact hs

theorem Inv.scheduler (hs : Inv s) (hstep : step s (.scheduler c) = .ok s') : Inv s' := by
  have hfits := hs.fits c
  unfold Sched.step at hstep
  dsimp only at hstep
  split at hstep
  case h_1 hplace =>
    rw [hplace] at hfits
    cases hstep
    split
    · rename_i hfree
      exact hs.goto (lock_taken hfree) ⟨hfits.1, rfl⟩
    · exact hs
  case h_2 j hplace =>
    rw [hplace] at hfits
    cases hstep
    split
    · rename_i hj
      split
      · rename_i hrunnable
        exact hs.choose hfits.2 hfits.1 hrunnable
      · exact hs.goto (fun _ _ => Iff.rfl) ⟨hfits.1, hfits.2⟩
    · exact hs.goto (lock_dropped hfits.2) ⟨hfits.1, fun h => by cases h⟩
  case h_3 p hplace =>
    rw [hplace] at hfits
    obtain ⟨t, ht, rfl⟩ := Run.map_ok hstep
    refine hs.table hfits.2.1 (hs.family.step ht) ?_ ⟨hfits.1, hfits.2.1, ?_⟩
    · intro q hq
      refine step_still hs.family ht fun h => ?_
      cases Option.some.inj h
      exact hq hfits.1
    · cases ht
      rw [if_pos hfits.2.2, Table.set_proc, if_pos rfl]
  case h_4 p hplace =>
    rw [hplace] at hfits
    cases hstep
    exact hs.goto (fun _ _ => Iff.rfl) hfits
  case h_5 p hplace =>
    rw [hplace] at hfits
    cases hstep
    exact hs.leave hfits.2.1 hfits.1 hfits.2.2
  case h_6 =>
    cases hstep
    exact hs

theorem Inv.step {e : Event ν} (hs : Inv s) (hstep : step s e = .ok s') : Inv s' := by
  cases e with
  | scheduler c => exact hs.scheduler hstep
  | act c e => exact hs.act hstep
  | interrupt c =>
    have hfits := hs.fits c
    cases hstep
    split
    · rename_i h
      rw [h.1] at hfits
      exact hs.goto (lock_taken h.2) ⟨hfits.1, rfl⟩
    · exact hs
  | acquire c =>
    have hfits := hs.fits c
    unfold Sched.step at hstep
    dsimp only at hstep
    split at hstep
    · rename_i p hplace
      rw [hplace] at hfits
      cases hstep
      split
      · rename_i hfree
        exact hs.goto (lock_taken hfree) ⟨hfits.1, rfl, hfits.2.2⟩
      · exact hs
    · cases hstep
      exact hs
  | release c =>
    have hfits := hs.fits c
    unfold Sched.step at hstep
    dsimp only at hstep
    split at hstep
    · rename_i p hplace
      rw [hplace] at hfits
      cases hstep
      exact hs.goto (lock_dropped hfits.2.1) ⟨hfits.1, fun h => (by cases h), hfits.2.2⟩
    · rename_i hplace
      rw [hplace] at hfits
      cases hstep
      exact hs.goto (lock_dropped hfits.2) ⟨hfits.1, fun h => by cases h⟩
    · cases hstep
      exact hs

theorem inv_start (ν : Type*) : Inv (start ν) where
  family := family_boot
  fits _ := ⟨rfl, fun h => by cases h⟩
  alone _ _ _ h := by cases h
  running p hp := by
    refine absurd hp ?_
    show (Table.boot.proc p).state ≠ .RUNNING
    rw [Table.boot]
    dsimp only
    split <;> exact fun h => by cases h

/-- A process runs on at most one CPU: whenever the lock is free, a process is `RUNNING` just when it is
the process of exactly one CPU, no two CPUs have the same one, and none has an entry that is unused, an
embryo or a zombie. -/
theorem runs_on_one_cpu {es : List (Event ν)} {s : State ν} (hrun : Run.run step es (start ν) = .ok s)
    (hfree : s.lock = none) :
    (∀ p, (s.table.proc p).state = .RUNNING ↔ ∃! c, s.proc c = some p) ∧
    (∀ c c' p, s.proc c = some p → s.proc c' = some p → c = c') ∧
    ∀ c p, s.proc c = some p → (s.table.proc p).state ∉ [.UNUSED, .EMBRYO, .ZOMBIE] := by
  have hs : Inv s := Run.invariant (P := fun _ _ => True) (fun s e s' hs _ hstep => hs.step hstep)
    (inv_start ν) (.all (fun _ _ => trivial) es _) hrun
  have hruns : ∀ c p, s.proc c = some p → (s.table.proc p).state = .RUNNING := by
    intro c p hproc
    refine hs.runs ?_ hproc
    rw [hfree]
    exact fun h => by cases h
  refine ⟨fun p => ⟨fun hp => ?_, fun ⟨c, hc, _⟩ => hruns c p hc⟩, hs.alone, fun c p hproc => ?_⟩
  · obtain ⟨c, hc⟩ := hs.running p hp
    exact ⟨c, hc, fun c' hc' => hs.alone c' c p hc' hc⟩
  · rw [hruns c p hproc]
    decide

end

local instance neZeroCpus : NeZero 2 := ⟨by decide⟩

attribute [local instance] neZeroProcs

def twoCpus : List (Event (Fin 2)) :=
  [.scheduler 0, .scheduler 0, .scheduler 0, .release 0, .acquire 0, .act 0 (.allocproc 0), .release 0,
    .act 0 (.forkParent 0), .acquire 0, .act 0 (.forkDone 0), .release 0, .scheduler 1, .scheduler 1,
    .scheduler 1, .scheduler 1, .release 1]

/-- A run in which a second CPU takes up the child of `init`. -/
theorem runs_on_one_cpu_sample : ∃ s, Run.run step twoCpus (start (Fin 2)) = .ok s ∧ s.lock = none ∧
    s.proc 0 = some 0 ∧ s.proc 1 = some 1 ∧
      ∀ p, (s.table.proc p).state = .RUNNING ↔ ∃! c, s.proc c = some p := by
  have heval : Run.endsIn (fun s => decide (s.lock = none ∧ s.proc 0 = some 0 ∧ s.proc 1 = some 1))
      (Run.run step twoCpus (start (Fin 2))) = true := by
    decide +kernel
  obtain ⟨s, hrun, htest⟩ := Run.of_endsIn heval
  obtain ⟨hfree, h₀, h₁⟩ := of_decide_eq_true htest
  exact ⟨s, hrun, hfree, h₀, h₁, (runs_on_one_cpu hrun hfree).1⟩

end Xv6.Ptable.Sched
