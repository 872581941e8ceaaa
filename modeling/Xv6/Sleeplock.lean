import Mathlib.Data.Fintype.Basic
import Xv6.Lib.Monitor
import Xv6.Machine

/-!
# Sleep locks

`acquiresleep` and `releasesleep` on one sleep lock, for any number of processes, with the inner steps of
`sleep` and `wakeup` (`Xv6.Lib.Monitor`): the inner spin lock is the lock of the monitor, `ptable.lock` the
lock of the table, and there is one channel.
-/

namespace Xv6

open Monitor (Act Code)

/-- `struct sleeplock` without the spin lock. -/
structure Sleeplock (ι : Type) where
  locked : Bool
  pid : Option ι
  /-- Whether a process has come through `acquiresleep` and has not released the lock since.  Nothing
  reads it. -/
  holds : ι → Bool

namespace Sleeplock

variable {ι : Type} [DecidableEq ι]

inductive Pos where
  /-- The head of the loop of `acquiresleep`. -/
  | acquire
  | release
  | releaseEnd
deriving DecidableEq, Repr

/-- One step of a process with the spin lock held. -/
def code : Code ι (Sleeplock ι) Unit Pos
  | i, _, lk, .acquire =>
    if lk.locked then (lk, .sleep () .acquire)
    else (⟨true, some i, Function.update lk.holds i true⟩, .ret)
  | i, _, lk, .release => (⟨false, none, Function.update lk.holds i false⟩, .wakeup () .releaseEnd)
  | _, _, lk, .releaseEnd => (lk, .ret)

abbrev State (ι : Type) := Monitor.State ι (Sleeplock ι) Unit Pos

abbrev Event (ι : Type) := Monitor.Event ι Pos

def step (s : State ι) (e : Event ι) : Except Halt (State ι) := .ok (s.next code e)

/-- What `initsleeplock` makes, and no call open. -/
def start (ι : Type) : State ι where
  shared := ⟨false, none, fun _ => false⟩
  lock := none
  table := none
  phase := fun _ => .out
  killed := fun _ => false

/-- The calls: a process releases a lock it holds. -/
def Called (s : State ι) : Event ι → Prop
  | .call _ .acquire => True
  | .call i .release => s.shared.holds i = true
  | .call _ .releaseEnd => False
  | _ => True

instance (s : State ι) (e : Event ι) : Decidable (Called s e) :=
  match e with
  | .call i .release => inferInstanceAs (Decidable (s.shared.holds i = true))
  | .call _ .releaseEnd => .isFalse id
  | .call _ .acquire | .step _ | .kill _ | .take | .give => .isTrue trivial

/-! ### Exclusion -/

inductive Turn (i : ι) (lk : Sleeplock ι) : Pos → Sleeplock ι → Act Unit Pos → Prop
  | wait : lk.locked = true → Turn i lk .acquire lk (.sleep () .acquire)
  | acquire : lk.locked = false →
    Turn i lk .acquire ⟨true, some i, Function.update lk.holds i true⟩ .ret
  | release : Turn i lk .release ⟨false, none, Function.update lk.holds i false⟩ (.wakeup () .releaseEnd)
  | releaseEnd : Turn i lk .releaseEnd lk .ret

theorem turn_of_code {i : ι} {x : Bool} {lk lk' : Sleeplock ι} {k : Pos} {a : Act Unit Pos}
    (h : code i x lk k = (lk', a)) : Turn i lk k lk' a := by
  cases k with
  | acquire =>
    rw [code] at h
    split_ifs at h with hlocked
    · cases h
      exact .wait hlocked
    · cases h
      exact .acquire (Bool.eq_false_of_not_eq_true hlocked)
  | release =>
    cases h
    exact .release
  | releaseEnd =>
    cases h
    exact .releaseEnd

/-- The lock is locked when some process holds it, and then one. -/
structure Exclusive (lk : Sleeplock ι) : Prop where
  one : ∀ i j, lk.holds i = true → lk.holds j = true → i = j
  locked : ∀ i, lk.holds i = true → lk.locked = true

/-- A process that is about to release the lock holds it. -/
def Owned (s : State ι) : Prop := ∀ i, (s.phase i).pos = some .release → s.shared.holds i = true

theorem Exclusive.turn {lk lk' : Sleeplock ι} {i : ι} {k : Pos} {a : Act Unit Pos} (h : Exclusive lk)
    (hk : k = .release → lk.holds i = true) (hturn : Turn i lk k lk' a) : Exclusive lk' := by
  cases hturn with
  | wait | releaseEnd => exact h
  | acquire hlocked =>
    have hnone : ∀ j, lk.holds j = false := fun j =>
      Bool.eq_false_of_not_eq_true fun hj => by
        rw [h.locked j hj] at hlocked
        cases hlocked
    refine ⟨fun j j' hj hj' => ?_, fun _ _ => rfl⟩
    have hself : ∀ j, Function.update lk.holds i true j = true → j = i := by
      intro j hj
      by_contra hne
      rw [Function.update_of_ne hne, hnone j] at hj
      cases hj
    rw [hself j hj, hself j' hj']
  | release =>
    have hnone : ∀ j, Function.update lk.holds i false j = false := by
      intro j
      by_cases hj : j = i
      · rw [hj, Function.update_self]
      · rw [Function.update_of_ne hj]
        exact Bool.eq_false_of_not_eq_true fun hheld => hj (h.one j i hheld (hk rfl))
    refine ⟨fun j j' hj _ => ?_, fun j hj => ?_⟩
    · exact absurd ((hnone j).symm.trans hj) Bool.false_ne_true
    · exact absurd ((hnone j).symm.trans hj) Bool.false_ne_true

theorem Turn.holds {lk lk' : Sleeplock ι} {i j : ι} {k : Pos} {a : Act Unit Pos} (hturn : Turn i lk k lk' a)
    (hj : i ≠ j) : lk'.holds j = lk.holds j := by
  cases hturn with
  | wait | releaseEnd => rfl
  | acquire | release => exact Function.update_of_ne (Ne.symm hj) _ _

theorem Owned.step {s t : State ι} {e : Event ι} (h : Owned s) (hcalled : Called s e)
    (hmove : Monitor.Move code s e t) : Owned t := by
  intro i hi
  rcases hmove.pos hi with ⟨hsame, hshared | ⟨j, k, a, hj, -, hcode⟩⟩ | ⟨k, a, hk, hcode, htarget⟩ | rfl
  · rw [hshared]
    exact h i hsame
  · rw [(turn_of_code hcode).holds hj]
    exact h i hsame
  · -- No step of the code leads back to the beginning of `releasesleep`.
    have hturn := turn_of_code hcode
    generalize t.shared = lk' at hturn
    cases hturn <;> cases htarget
  · cases hmove with
    | stay => exact hcalled
    | call k hi => exact hcalled

theorem Exclusive.step {s t : State ι} {e : Event ι} (h : Exclusive s.shared) (howned : Owned s)
    (hmove : Monitor.Move code s e t) : Exclusive t.shared := by
  rcases hmove.shared with hsame | ⟨i, k, a, hk, hcode⟩
  · rwa [hsame]
  · refine h.turn (fun hrelease => howned i ?_) (turn_of_code hcode)
    rw [hk, hrelease]
    rfl

/-! ### Wakeups -/

/-- A process may sleep while the lock is locked. -/
def cond (_ : Unit) (lk : Sleeplock ι) : Prop := lk.locked = true

def Entry : Pos → Prop
  | .acquire | .release => True
  | .releaseEnd => False

omit [DecidableEq ι] in
theorem entry_of_called {s : State ι} {e : Event ι} (h : Called s e) :
    Monitor.Legal Entry (fun _ _ _ _ => True) s e := by
  cases e with
  | call i k =>
    cases k with
    | acquire | release => trivial
    | releaseEnd => cases h
  | step i => exact fun _ _ => trivial
  | _ => trivial

theorem code_keeps : Monitor.Keeps (code (ι := ι)) Entry (fun _ _ _ _ => True) (fun _ => True)
    (fun _ _ => True) where
  enter _ _ := trivial
  goto _ _ _ := trivial
  wakeup _ _ _ := trivial
  sleep _ _ hcode := by
    cases turn_of_code hcode
    exact ⟨trivial, trivial⟩
  ret _ _ _ := trivial

theorem code_pays : Monitor.Pays (code (ι := ι)) (fun _ _ _ _ => True) Entry (fun _ _ => True) cond
    (fun _ _ => False) where
  goto _ _ hcode := by cases turn_of_code hcode
  wakeup _ _ _ c hc := absurd (Subsingleton.elim _ _) hc
  sleep _ _ hcode := by
    cases turn_of_code hcode with
    | wait hlocked => exact ⟨hlocked, fun _ _ => hlocked⟩
  ret _ _ hcode c hc := by
    cases turn_of_code hcode with
    | acquire => rfl
    | releaseEnd => exact hc.resolve_right id

/-- Sleep locks exclude and strand nobody.  In every run in which processes release the locks they hold, at
most one process holds the lock, and when the inner spin lock is free a process that sleeps on the lock
does so because it is locked. -/
theorem sleeplock_excludes {es : List (Event ι)} {s : State ι} (hcalled : Run.Admits step Called es (start ι))
    (hrun : Run.run step es (start ι) = .ok s) :
    (∀ i j, s.shared.holds i = true → s.shared.holds j = true → i = j) ∧
    (s.lock = none → ∀ i k, s.phase i = .asleep () k → s.shared.locked = true) := by
  let Both (s : State ι) : Prop := Exclusive s.shared ∧ Owned s
  have hone : ∀ s e s', Both s → Called s e → step s e = .ok s' → Both s' := by
    rintro s e s' ⟨hexcl, howned⟩ hc hstep
    cases hstep
    exact ⟨hexcl.step howned (Monitor.next_move e), howned.step hc (Monitor.next_move e)⟩
  have hstart : Both (start ι) := ⟨⟨nofun, nofun⟩, nofun⟩
  have hexcl : Both s := Run.invariant hone hstart hcalled hrun
  have hpaid : Monitor.Paid cond (fun _ _ => False) s := by
    refine (code_pays.run code_keeps ⟨⟨?_, nofun, nofun, fun _ => trivial⟩, ?_, nofun⟩
      (hcalled.imp fun _ _ => entry_of_called) hrun).2
    · exact ⟨fun _ => iff_of_false Bool.false_ne_true nofun, fun _ => iff_of_false Bool.false_ne_true nofun⟩
    · intro i c k hi
      rcases hi with hi | hi <;> cases hi
  exact ⟨hexcl.1.one, fun hfree i k hi => hpaid.free hfree hi⟩

local instance neZeroPair : NeZero 2 := ⟨by decide⟩

/-- One process holds the lock while another goes to sleep on it and is killed. -/
def sampleEvents : List (Event (Fin 2)) :=
  [.call 0 .acquire] ++ List.replicate 2 (.step 0) ++ [.call 1 .acquire] ++ List.replicate 5 (.step 1) ++
    [.give, .kill 1] ++ List.replicate 6 (.step 1) ++ [.give]

theorem sleeplock_excludes_sample : ∃ s, Run.run step sampleEvents (start (Fin 2)) = .ok s ∧
    s.lock = none ∧ s.phase 1 = .asleep () .acquire ∧ s.shared.locked = true := by
  have hcalled : Run.Admits step Called sampleEvents (start (Fin 2)) := .of_decide (by decide +kernel)
  have heval : Run.endsIn (fun s => decide (s.lock = none ∧ s.phase 1 = .asleep () .acquire))
      (Run.run step sampleEvents (start (Fin 2))) = true := by decide +kernel
  obtain ⟨s, hrun, htest⟩ := Run.of_endsIn heval
  obtain ⟨hfree, hasleep⟩ := of_decide_eq_true htest
  exact ⟨s, hrun, hfree, hasleep, (sleeplock_excludes hcalled hrun).2 hfree 1 _ hasleep⟩

end Sleeplock

end Xv6
