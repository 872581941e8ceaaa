import Xv6.Ptable

/-!
# Kill

`kill` looks at pids only, and neither `allocproc` nor the failure path of `fork` resets the mark.
-/

namespace Xv6.Ptable

variable {s s' : Table} {p q r : PPtr}

/-- No `kill` has the pid in an unused entry, and no `fork` gives up a child that has been killed. -/
def Aimed (s : Table) : Event → Prop
  | .kill pid => ∀ q, (s.proc q).pid = pid → (s.proc q).state ≠ .UNUSED
  | .forkFails p => ∀ np, (s.proc p).phase = .forking np false → (s.proc np).killed = false
  | _ => True

instance (s : Table) (e : Event) : Decidable (Aimed s e) :=
  match e with
  | .kill pid => inferInstanceAs (Decidable (∀ q, (s.proc q).pid = pid → (s.proc q).state ≠ .UNUSED))
  | .forkFails p =>
    inferInstanceAs (Decidable (∀ np, (s.proc p).phase = .forking np false → (s.proc np).killed = false))
  | .run _ | .yield _ | .allocproc _ | .forkParent _ | .forkDone _ | .exit _ | .wait _ | .sleep _ _
  | .wakeup _ | .fatal _ => .isTrue trivial

/-- What the mark of `kill` says of an entry. -/
structure Proc.Marked (x : Proc) : Prop where
  struck : x.killed = true → x.struck = true
  clean : x.state = .UNUSED → x.killed = false

/-- A process that was never hit has no mark, and no mark is left behind in an entry. -/
def Marked (s : Table) : Prop := ∀ q, (s.proc q).Marked

theorem Marked.set {x : Proc} (hs : Marked s) (hx : x.Marked) : Marked (s.set p x) := by
  intro q
  rw [s.set_proc]
  split
  · exact hx
  · exact hs q

theorem Proc.Marked.keep {x y : Proc} (hx : x.Marked) (hkilled : y.killed = x.killed)
    (hstruck : y.struck = x.struck) (hstate : y.state = .UNUSED → x.state = .UNUSED) : y.Marked where
  struck h := hstruck.trans (hx.struck (hkilled.symm.trans h))
  clean h := hkilled.trans (hx.clean (hstate h))

theorem Marked.setPhase {ph : Phase} (hs : Marked s) : Marked (s.setPhase p ph) :=
  hs.set ((hs p).keep rfl rfl id)

theorem Marked.wakeup1 (hs : Marked s) (c : Option Chan) : Marked (s.wakeup1 c) := by
  intro q
  rw [wakeup1_proc]
  refine (hs q).keep rfl rfl fun h => ?_
  dsimp only at h
  split at h
  · cases h
  · exact h

theorem Marked.reparent (hs : Marked s) : Marked (s.reparent p) := by
  intro q
  rw [reparent_proc]
  exact (hs q).keep rfl rfl id

theorem Marked.exit (hs : Marked s) : Marked (s.exit p) := by
  have hbury : ∀ t : Table, Marked t → Marked (t.setState p .ZOMBIE) := fun t ht =>
    ht.set ((ht p).keep rfl rfl fun h => by cases h)
  have hs₂ := (hs.wakeup1 ((s.proc p).parent.map .proc)).reparent (p := p)
  rw [Table.exit]
  split
  · exact hbury _ (hs₂.wakeup1 _)
  · exact hbury _ hs₂

theorem Marked.allocproc (hs : Marked s) : Marked (s.allocproc p) := by
  rw [Table.allocproc]
  split
  · exact hs
  · rename_i np hfind
    have hfound := List.find?_some hfind
    have hkilled : (s.proc np).killed = false := (hs np).clean (of_decide_eq_true hfound)
    have hnew : Marked (s.embryo np) := by
      intro q
      rw [embryo_proc]
      split
      · exact ⟨fun h => (by cases hkilled.symm.trans h), fun _ => hkilled⟩
      · exact hs q
    exact hnew.setPhase

theorem Marked.wait (hs : Marked s) : Marked (s.wait p) := by
  rw [Table.wait]
  split
  case h_1 q _ =>
    have hreap : Marked (s.reap q p) := by
      exact hs.set ⟨fun h => (by cases h), fun _ => rfl⟩
    exact hreap.setPhase
  case h_2 => exact hs.setPhase
  case h_3 =>
    refine Marked.setPhase ?_
    exact hs.set ((hs p).keep rfl rfl fun h => by cases h)

theorem Marked.step {e : Event} (hs : Marked s) (haim : Aimed s e) (hstep : s.step e = .ok s') :
    Marked s' := by
  cases takes_of_step hstep with
  | stay => exact hs
  | @run p => exact hs.set ((hs p).keep rfl rfl fun h => by cases h)
  | @yield p => exact hs.set ((hs p).keep rfl rfl fun h => by cases h)
  | allocproc => exact hs.allocproc
  | @forkFails p np hphase =>
    have hkilled := haim np hphase
    refine hs.setPhase.set ?_
    rw [setPhase_proc]
    exact ⟨fun h => (by cases hkilled.symm.trans h), fun _ => hkilled⟩
  | @forkParent p np =>
    refine Marked.setPhase ?_
    exact hs.set ((hs np).keep rfl rfl id)
  | @forkDone p np => exact hs.setPhase.set ((hs np).keep rfl rfl fun h => by cases h)
  | exit => exact hs.exit
  | wait => exact hs.wait
  | @sleep p => exact hs.set ((hs p).keep rfl rfl fun h => by cases h)
  | wakeup => exact hs.wakeup1 _
  | @kill pid q hfind =>
    have hfound := List.find?_some hfind
    refine hs.set ⟨fun _ => rfl, fun h => ?_⟩
    dsimp only at h
    split at h
    · cases h
    · exact absurd h (haim q (of_decide_eq_true hfound))
  | fatal hrun => exact hs.set ⟨fun _ => rfl, fun h => by cases hrun.symm.trans h⟩

theorem marked_boot : Marked Table.boot := by
  intro q
  rw [Table.boot]
  dsimp only
  split <;> exact ⟨fun h => (by cases h), fun _ => rfl⟩

theorem allocproc_clean {np : PPtr} (hs : Marked s) (hunused : (s.proc np).state = .UNUSED)
    (hnew : ((s.allocproc p).proc np).state = .EMBRYO) :
    ((s.allocproc p).proc np).killed = false ∧ ((s.allocproc p).proc np).struck = false := by
  rw [Table.allocproc] at hnew ⊢
  split at hnew
  · rw [hunused] at hnew
    cases hnew
  · rename_i m _
    rw [setPhase_proc, embryo_proc] at hnew ⊢
    dsimp only at hnew ⊢
    split at hnew
    · rename_i heq
      subst heq
      rw [if_pos rfl]
      exact ⟨(hs np).clean hunused, rfl⟩
    · rw [hunused] at hnew
      cases hnew

/-- In a run whose steps are all `Aimed`, `kill` finds only a process that is there and changes nothing
else, what `allocproc` finds carries no mark, and a process is marked only after it has been hit. -/
theorem kill_reaches_living {es : List Event} {s : Table} (haim : Run.Admits Table.step Aimed es .boot)
    (hrun : Run.run Table.step es .boot = .ok s) :
    (∀ pid, Aimed s (.kill pid) → (s.kill pid).1 = 0 → ∃ q, (s.proc q).state ≠ .UNUSED ∧
      (s.proc q).pid = pid ∧ ∀ r, r ≠ q → (s.kill pid).2.proc r = s.proc r) ∧
    (∀ p np s', s.step (.allocproc p) = .ok s' → (s.proc np).state = .UNUSED →
      (s'.proc np).state = .EMBRYO → (s'.proc np).killed = false ∧ (s'.proc np).struck = false) ∧
    ∀ q, (s.proc q).killed = true → (s.proc q).struck = true := by
  have hs : Marked s :=
    Run.invariant (fun s e s' hs haim hstep => hs.step haim hstep) marked_boot haim hrun
  refine ⟨fun pid haimed h => ?_, fun p np s' hstep hunused hnew => ?_, fun q => (hs q).struck⟩
  · obtain ⟨q, hq, hothers⟩ := kill_found h
    exact ⟨q, haimed q hq, hq, hothers⟩
  · cases hstep
    split at hnew
    · rename_i hrunning
      rw [if_pos hrunning]
      exact allocproc_clean hs hunused hnew
    · rw [hunused] at hnew
      cases hnew

attribute [local instance] neZeroProcs

def killedChild : List Event :=
  [.run 0, .allocproc 0, .forkParent 0, .forkDone 0, .kill 2, .run 1, .exit 1, .wait 0]

/-- A run in which a child is killed and reaped. -/
theorem kill_reaches_living_sample : ∃ s, Run.Admits Table.step Aimed killedChild .boot ∧
    Run.run Table.step killedChild .boot = .ok s ∧ s.reaped = [(1, 0)] ∧
      ∀ q, (s.proc q).killed = true → (s.proc q).struck = true := by
  have haim : Run.Admits Table.step Aimed killedChild .boot := .of_decide (by decide +kernel)
  have heval : Run.endsIn (fun s => decide (s.reaped = [(1, 0)])) (Run.run Table.step killedChild .boot) =
      true := by
    decide +kernel
  obtain ⟨s, hrun, htest⟩ := Run.of_endsIn heval
  exact ⟨s, haim, hrun, of_decide_eq_true htest, (kill_reaches_living haim hrun).2.2⟩

/-- `kill(0)` succeeds on an unused entry, and the next child starts out killed; so does the child of a
`fork` that comes after one that has given up a killed child. -/
theorem kill_marks_unused :
    (∃ s, Run.run Table.step [.run 0] .boot = .ok s ∧ (s.kill 0).1 = 0 ∧
      ∀ q, (s.proc q).state ≠ .UNUSED → (s.proc q).pid ≠ 0) ∧
    (∃ s, Run.run Table.step [.run 0, .kill 0, .allocproc 0, .forkParent 0, .forkDone 0] .boot = .ok s ∧
      (s.proc 1).state = .RUNNABLE ∧ (s.proc 1).pid = 2 ∧ (s.proc 1).killed = true ∧
        (s.proc 1).struck = false) ∧
    ∃ s, Run.run Table.step [.run 0, .allocproc 0, .kill 2, .forkFails 0, .allocproc 0, .forkParent 0,
        .forkDone 0] .boot = .ok s ∧
      (s.proc 1).state = .RUNNABLE ∧ (s.proc 1).pid = 3 ∧ (s.proc 1).killed = true ∧
        (s.proc 1).struck = false := by
  have hunused : Run.endsIn (fun s => decide ((s.kill 0).1 = 0 ∧
      ∀ q, (s.proc q).state ≠ .UNUSED → (s.proc q).pid ≠ 0)) (Run.run Table.step [.run 0] .boot) = true := by
    decide +kernel
  have hnext : Run.endsIn (fun s => decide ((s.proc 1).state = .RUNNABLE ∧ (s.proc 1).pid = 2 ∧
      (s.proc 1).killed = true ∧ (s.proc 1).struck = false)) (Run.run Table.step
        [.run 0, .kill 0, .allocproc 0, .forkParent 0, .forkDone 0] .boot) = true := by
    decide +kernel
  have hgivenUp : Run.endsIn (fun s => decide ((s.proc 1).state = .RUNNABLE ∧ (s.proc 1).pid = 3 ∧
      (s.proc 1).killed = true ∧ (s.proc 1).struck = false)) (Run.run Table.step [.run 0, .allocproc 0,
        .kill 2, .forkFails 0, .allocproc 0, .forkParent 0, .forkDone 0] .boot) = true := by
    decide +kernel
  obtain ⟨s₁, hrun₁, htest₁⟩ := Run.of_endsIn hunused
  obtain ⟨s₂, hrun₂, htest₂⟩ := Run.of_endsIn hnext
  obtain ⟨s₃, hrun₃, htest₃⟩ := Run.of_endsIn hgivenUp
  exact ⟨⟨s₁, hrun₁, of_decide_eq_true htest₁⟩, ⟨s₂, hrun₂, of_decide_eq_true htest₂⟩,
    s₃, hrun₃, of_decide_eq_true htest₃⟩

end Xv6.Ptable
