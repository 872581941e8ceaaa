import Mathlib.Logic.Function.Basic
import Xv6.Lib.Run

/-!
# Sleeping and waking up under a lock

A shared state behind a spin lock, and any number of threads that work on it.  A thread that cannot go on
sleeps on a channel, and a thread that may have made it possible to go on wakes all sleepers of a channel.
To go to sleep a thread takes the lock of the table of threads, gives up the first lock, marks itself and
switches to a scheduler, which gives up the lock of the table; a wakeup takes the lock of the table.  A
thread may also be woken by being killed.

`Keeps.run` is the rule for invariants of the shared state.  `Pays.run` says that no wakeup is lost: when
the lock is free, a thread sleeps on a channel only while the condition of the channel holds, provided that
no thread gives up the lock while it owes a wakeup.
-/

namespace Monitor

/-- What the code does after one step with the lock held. -/
inductive Act (κ π : Type) where
  | goto (k : π)
  | wakeup (c : κ) (k : π)
  | sleep (c : κ) (k : π)
  /-- The lock is given up and the call returns. -/
  | ret
deriving DecidableEq

/-- How far a thread is. -/
inductive Phase (κ π : Type) where
  | out
  /-- It spins for the lock. -/
  | acquiring (k : π)
  | inside (k : π)
  /-- It has the lock and spins for the lock of the table, to wake the sleepers of a channel. -/
  | waking (c : κ) (k : π)
  /-- It has the lock and spins for the lock of the table, to sleep. -/
  | waiting (c : κ) (k : π)
  | both (c : κ) (k : π)
  /-- It has given up the lock and has not yet marked itself. -/
  | falling (c : κ) (k : π)
  | asleep (c : κ) (k : π)
  | runnable (k : π)
deriving DecidableEq

structure State (ι β κ π : Type) where
  shared : β
  lock : Option ι
  /-- The lock of the table, held by a thread or by a scheduler. -/
  table : Option (Option ι)
  phase : ι → Phase κ π
  killed : ι → Bool

inductive Event (ι π : Type) where
  | call (i : ι) (k : π)
  | step (i : ι)
  | kill (i : ι)
  /-- A scheduler, or a thread outside, takes the lock of the table. -/
  | take
  | give

/-- What a thread does next with the lock held; it sees whether it has been killed. -/
abbrev Code (ι β κ π : Type) := ι → Bool → β → π → β × Act κ π

variable {ι β κ π : Type}

namespace Phase

def woken [DecidableEq κ] (c : κ) : Phase κ π → Phase κ π
  | .asleep c' k => if c' = c then .runnable k else .asleep c' k
  | p => p

def killed : Phase κ π → Phase κ π
  | .asleep _ k => .runnable k
  | p => p

def hasLock : Phase κ π → Bool
  | .inside _ | .waking _ _ | .waiting _ _ | .both _ _ => true
  | _ => false

/-- The phases with the lock of the table. -/
def hasTable : Phase κ π → Bool
  | .both _ _ | .falling _ _ => true
  | _ => false

/-- The lock is given up, and the thread sleeps or is about to. -/
def sleepsOn (c : κ) : Phase κ π → Prop
  | .falling c' _ | .asleep c' _ => c' = c
  | _ => False

def pos : Phase κ π → Option π
  | .out => none
  | .acquiring k | .inside k | .runnable k => some k
  | .waking _ k | .waiting _ k | .both _ k | .falling _ k | .asleep _ k => some k

/-- The channel a thread sleeps on or is about to, and where it goes on afterwards. -/
def chan : Phase κ π → Option (κ × π)
  | .waiting c k | .both c k | .falling c k | .asleep c k => some (c, k)
  | _ => none

/-- Where a thread that is about to take a step of the code is. -/
def inside? : Phase κ π → Option π
  | .inside k => some k
  | _ => none

theorem inside_of_inside? {p : Phase κ π} {k : π} (h : p.inside? = some k) : p = .inside k := by
  cases p with
  | inside k' => exact congrArg _ (Option.some.inj h)
  | _ => cases h

/-- Whether the thread works on the shared state. -/
def active : Phase κ π → Bool
  | .inside _ | .waking _ _ => true
  | _ => false

theorem woken_cases [DecidableEq κ] (c : κ) (p : Phase κ π) :
    p.woken c = p ∨ ∃ k, p = .asleep c k ∧ p.woken c = .runnable k := by
  cases p with
  | asleep c' k =>
    by_cases hc : c' = c
    · exact .inr ⟨k, by rw [hc], if_pos hc⟩
    · exact .inl (if_neg hc)
  | _ => exact .inl rfl

theorem killed_cases (p : Phase κ π) : p.killed = p ∨ ∃ c k, p = .asleep c k ∧ p.killed = .runnable k := by
  cases p with
  | asleep c k => exact .inr ⟨c, k, rfl, rfl⟩
  | _ => exact .inl rfl

/-- What does not tell sleeping from runnable threads is not changed by a wakeup. -/
theorem woken_same [DecidableEq κ] {γ : Type} (f : Phase κ π → γ)
    (hf : ∀ c k, f (.asleep c k) = f (.runnable k)) (c : κ) (p : Phase κ π) : f (p.woken c) = f p := by
  obtain hp | ⟨k, hp, hwoken⟩ := woken_cases c p
  · rw [hp]
  · rw [hwoken, hp, hf]

theorem killed_same {γ : Type} (f : Phase κ π → γ) (hf : ∀ c k, f (.asleep c k) = f (.runnable k))
    (p : Phase κ π) : f p.killed = f p := by
  obtain hp | ⟨c, k, hp, hkilled⟩ := killed_cases p
  · rw [hp]
  · rw [hkilled, hp, hf]

theorem hasLock_of_active {p : Phase κ π} (h : p.active = true) : p.hasLock = true := by
  cases p <;> first | rfl | cases h

theorem pos_of_active {p : Phase κ π} (h : p.active = true) : ∃ k, p.pos = some k := by
  cases p with
  | inside k => exact ⟨k, rfl⟩
  | waking c k => exact ⟨k, rfl⟩
  | _ => cases h

/-- After a wakeup only a thread that has not marked itself yet can sleep on the channel. -/
theorem falling_of_woken [DecidableEq κ] {c : κ} {p : Phase κ π} (h : (p.woken c).sleepsOn c) :
    p.hasTable = true := by
  obtain hp | ⟨k, -, hwoken⟩ := woken_cases c p
  · cases p with
    | falling c' k => rfl
    | asleep c' k =>
      have hc : c' ≠ c := fun hc => by
        rw [woken, if_pos hc] at hp
        cases hp
      rw [hp] at h
      exact absurd h hc
    | _ => cases h
  · rw [hwoken] at h
    cases h

theorem sleepsOn_of_woken [DecidableEq κ] {c c' : κ} {p : Phase κ π} (h : (p.woken c).sleepsOn c') :
    p.sleepsOn c' := by
  obtain hp | ⟨k, -, hwoken⟩ := woken_cases c p
  · rwa [hp] at h
  · rw [hwoken] at h
    cases h

theorem sleepsOn_of_killed {c : κ} {p : Phase κ π} (h : p.killed.sleepsOn c) : p.sleepsOn c := by
  obtain hp | ⟨c', k, -, hkilled⟩ := killed_cases p
  · rwa [hp] at h
  · rw [hkilled] at h
    cases h

end Phase

section Semantics

variable [DecidableEq ι] [DecidableEq κ] {e : Event ι π} {t : State ι β κ π}

namespace State

def setPhase (s : State ι β κ π) (i : ι) (p : Phase κ π) : State ι β κ π :=
  { s with phase := Function.update s.phase i p }

def wakeAll (s : State ι β κ π) (c : κ) : State ι β κ π :=
  { s with phase := fun i => (s.phase i).woken c }

def act (s : State ι β κ π) (i : ι) : Act κ π → State ι β κ π
  | .goto k => s.setPhase i (.inside k)
  | .wakeup c k => s.setPhase i (.waking c k)
  | .sleep c k => s.setPhase i (.waiting c k)
  | .ret => { s.setPhase i .out with lock := none }

def advance (code : Code ι β κ π) (s : State ι β κ π) (i : ι) : State ι β κ π :=
  match s.phase i with
  | .out => s
  | .acquiring k => if s.lock.isNone then { s.setPhase i (.inside k) with lock := some i } else s
  | .inside k =>
    { s with shared := (code i (s.killed i) s.shared k).1 }.act i (code i (s.killed i) s.shared k).2
  | .waking c k => if s.table.isNone then (s.wakeAll c).setPhase i (.inside k) else s
  | .waiting c k => if s.table.isNone then { s.setPhase i (.both c k) with table := some (some i) } else s
  | .both c k => { s.setPhase i (.falling c k) with lock := none }
  | .falling c k => { s.setPhase i (.asleep c k) with table := some none }
  | .asleep _ _ => s
  | .runnable k => if s.table.isNone then s.setPhase i (.acquiring k) else s

def next (code : Code ι β κ π) (s : State ι β κ π) : Event ι π → State ι β κ π
  | .call i k =>
    match s.phase i with
    | .out => s.setPhase i (.acquiring k)
    | _ => s
  | .step i => s.advance code i
  | .kill i =>
    if s.table.isNone then
      { s.setPhase i (s.phase i).killed with killed := Function.update s.killed i true }
    else s
  | .take => if s.table.isNone then { s with table := some none } else s
  | .give => match s.table with
    | some none => { s with table := none }
    | _ => s

end State

inductive Move (code : Code ι β κ π) (s : State ι β κ π) : Event ι π → State ι β κ π → Prop
  | stay (e : Event ι π) : Move code s e s
  | call {i : ι} (k : π) : s.phase i = .out → Move code s (.call i k) (s.setPhase i (.acquiring k))
  | acquire {i : ι} {k : π} : s.phase i = .acquiring k → s.lock = none →
    Move code s (.step i) { s.setPhase i (.inside k) with lock := some i }
  | run {i : ι} {k : π} {b : β} {a : Act κ π} : s.phase i = .inside k →
    code i (s.killed i) s.shared k = (b, a) → Move code s (.step i) ({ s with shared := b }.act i a)
  | wake {i : ι} {c : κ} {k : π} : s.phase i = .waking c k → s.table = none →
    Move code s (.step i) ((s.wakeAll c).setPhase i (.inside k))
  | wait {i : ι} {c : κ} {k : π} : s.phase i = .waiting c k → s.table = none →
    Move code s (.step i) { s.setPhase i (.both c k) with table := some (some i) }
  | release {i : ι} {c : κ} {k : π} : s.phase i = .both c k →
    Move code s (.step i) { s.setPhase i (.falling c k) with lock := none }
  | mark {i : ι} {c : κ} {k : π} : s.phase i = .falling c k →
    Move code s (.step i) { s.setPhase i (.asleep c k) with table := some none }
  | resume {i : ι} {k : π} : s.phase i = .runnable k → s.table = none →
    Move code s (.step i) (s.setPhase i (.acquiring k))
  | kill (i : ι) : s.table = none → Move code s (.kill i)
    { s.setPhase i (s.phase i).killed with killed := Function.update s.killed i true }
  | take : s.table = none → Move code s .take { s with table := some none }
  | give : s.table = some none → Move code s .give { s with table := none }

variable {code : Code ι β κ π} {s : State ι β κ π}

theorem advance_move (i : ι) : Move code s (.step i) (s.advance code i) := by
  unfold State.advance
  split
  case h_1 => exact .stay _
  case h_2 k hi =>
    split
    case isTrue h => exact .acquire hi (Option.isNone_iff_eq_none.1 h)
    case isFalse => exact .stay _
  case h_3 k hi => exact .run hi rfl
  case h_4 c k hi =>
    split
    case isTrue h => exact .wake hi (Option.isNone_iff_eq_none.1 h)
    case isFalse => exact .stay _
  case h_5 c k hi =>
    split
    case isTrue h => exact .wait hi (Option.isNone_iff_eq_none.1 h)
    case isFalse => exact .stay _
  case h_6 c k hi => exact .release hi
  case h_7 c k hi => exact .mark hi
  case h_8 => exact .stay _
  case h_9 k hi =>
    split
    case isTrue h => exact .resume hi (Option.isNone_iff_eq_none.1 h)
    case isFalse => exact .stay _

theorem next_move (e : Event ι π) : Move code s e (s.next code e) := by
  cases e with
  | call i k =>
    rw [State.next]
    split
    case h_1 hi => exact .call k hi
    case h_2 => exact .stay _
  | step i => exact advance_move i
  | kill i =>
    rw [State.next]
    split
    case isTrue h => exact .kill i (Option.isNone_iff_eq_none.1 h)
    case isFalse => exact .stay _
  | take =>
    rw [State.next]
    split
    case isTrue h => exact .take (Option.isNone_iff_eq_none.1 h)
    case isFalse => exact .stay _
  | give =>
    rw [State.next]
    split
    case h_1 h => exact .give h
    case h_2 => exact .stay _

/-- The position an action leads to. -/
def Act.target : Act κ π → Option π
  | .goto k | .wakeup _ k | .sleep _ k => some k
  | .ret => none

/-- What a step does to the positions and the shared state: a thread makes a call, at most; or a thread takes
a step of the code. -/
theorem Move.view (hmove : Move code s e t) :
    (t.shared = s.shared ∧ ∀ j, (t.phase j).pos = (s.phase j).pos ∨
      ∃ k, e = .call j k ∧ s.phase j = .out ∧ (t.phase j).pos = some k) ∨
    ∃ i k a, e = .step i ∧ s.phase i = .inside k ∧ code i (s.killed i) s.shared k = (t.shared, a) ∧
      (t.phase i).pos = a.target ∧ ∀ j, j ≠ i → (t.phase j).pos = (s.phase j).pos := by
  have hset : ∀ {i : ι} {p : Phase κ π}, p.pos = (s.phase i).pos →
      ∀ j, (Function.update s.phase i p j).pos = (s.phase j).pos := by
    intro i p hp j
    by_cases hji : j = i
    · rw [hji, Function.update_self, hp]
    · rw [Function.update_of_ne hji]
  cases hmove with
  | stay => exact .inl ⟨rfl, fun j => .inl rfl⟩
  | @call i k hi =>
    refine .inl ⟨rfl, fun j => ?_⟩
    by_cases hji : j = i
    · subst hji
      exact .inr ⟨k, rfl, hi, by simp [State.setPhase, Phase.pos]⟩
    · exact .inl (by simp [State.setPhase, Function.update_of_ne hji])
  | @acquire i k hi hfree => exact .inl ⟨rfl, fun j => .inl (hset (by rw [hi]; rfl) j)⟩
  | @run i k b a hi hcall =>
    have hshared : ({ s with shared := b }.act i a).shared = b := by cases a <;> rfl
    refine .inr ⟨i, k, a, rfl, hi, hcall.trans (by rw [hshared]), ?_, fun j hj => ?_⟩
    · cases a <;> simp [State.act, State.setPhase, Phase.pos, Act.target]
    · cases a <;> simp [State.act, State.setPhase, Function.update_of_ne hj]
  | @wake i c k hi hfree =>
    refine .inl ⟨rfl, fun j => .inl ?_⟩
    by_cases hji : j = i
    · subst hji
      simp [State.setPhase, hi, Phase.pos]
    · simp only [State.setPhase, State.wakeAll, Function.update_of_ne hji]
      exact Phase.woken_same Phase.pos (fun _ _ => rfl) c _
  | @wait i c k hi hfree => exact .inl ⟨rfl, fun j => .inl (hset (by rw [hi]; rfl) j)⟩
  | @release i c k hi => exact .inl ⟨rfl, fun j => .inl (hset (by rw [hi]; rfl) j)⟩
  | @mark i c k hi => exact .inl ⟨rfl, fun j => .inl (hset (by rw [hi]; rfl) j)⟩
  | @resume i k hi hfree => exact .inl ⟨rfl, fun j => .inl (hset (by rw [hi]; rfl) j)⟩
  | kill i hfree =>
    exact .inl ⟨rfl, fun j => .inl (hset (Phase.killed_same Phase.pos (fun _ _ => rfl) _) j)⟩
  | take hfree => exact .inl ⟨rfl, fun j => .inl rfl⟩
  | give hheld => exact .inl ⟨rfl, fun j => .inl rfl⟩

/-- A thread is where it was, and the shared state was changed by another thread at most; or it has taken a
step of the code; or it has made a call. -/
theorem Move.pos (hmove : Move code s e t) {j : ι} {k' : π}
    (hj : (t.phase j).pos = some k') :
    ((s.phase j).pos = some k' ∧ (t.shared = s.shared ∨
      ∃ i k a, i ≠ j ∧ s.phase i = .inside k ∧ code i (s.killed i) s.shared k = (t.shared, a))) ∨
    (∃ k a, s.phase j = .inside k ∧ code j (s.killed j) s.shared k = (t.shared, a) ∧ a.target = some k') ∨
    e = .call j k' := by
  rcases hmove.view with ⟨hshared, hpos⟩ | ⟨i, k, a, -, hi, hcode, htarget, hothers⟩
  · rcases hpos j with hsame | ⟨k, he, -, hk⟩
    · exact .inl ⟨hsame ▸ hj, .inl hshared⟩
    · rw [hk] at hj
      cases hj
      exact .inr (.inr he)
  · by_cases hji : j = i
    · subst hji
      exact .inr (.inl ⟨k, a, hi, hcode, htarget ▸ hj⟩)
    · exact .inl ⟨hothers j hji ▸ hj, .inr ⟨i, k, a, Ne.symm hji, hi, hcode⟩⟩

theorem Move.kind {γ : Type} {kind : π → γ}
    (hkind : ∀ {i x b k b' a k'}, code i x b k = (b', a) → a.target = some k' → kind k' = kind k)
    (hmove : Move code s e t) {j : ι} {k' : π}
    (hj : (t.phase j).pos = some k') :
    (∃ k, (s.phase j).pos = some k ∧ kind k = kind k') ∨ e = .call j k' := by
  rcases hmove.pos hj with ⟨hsame, -⟩ | ⟨k, a, hk, hcode, htarget⟩ | hcall
  · exact .inl ⟨k', hsame, rfl⟩
  · exact .inl ⟨k, by rw [hk]; rfl, (hkind hcode htarget).symm⟩
  · exact .inr hcall

theorem Move.chan (hmove : Move code s e t) {j : ι} {c : κ} {k : π}
    (hj : (t.phase j).chan = some (c, k)) :
    (s.phase j).chan = some (c, k) ∨ ∃ x b k₀ b', code j x b k₀ = (b', .sleep c k) := by
  have hset : ∀ {i : ι} {p : Phase κ π}, (Function.update s.phase i p j).chan = some (c, k) →
      (p.chan = none ∨ p.chan = (s.phase i).chan) → (s.phase j).chan = some (c, k) := by
    intro i p hchan hp
    by_cases hji : j = i
    · subst hji
      rw [Function.update_self] at hchan
      rcases hp with hp | hp
      · rw [hp] at hchan
        cases hchan
      · rwa [← hp]
    · rwa [Function.update_of_ne hji] at hchan
  cases hmove with
  | stay => exact .inl hj
  | @call i k hi => exact .inl (hset hj (.inl rfl))
  | @acquire i k hi hfree => exact .inl (hset hj (.inl rfl))
  | @run i k₀ b a hi hcall =>
    cases a with
    | sleep c' k' =>
      by_cases hji : j = i
      · subst hji
        simp only [State.act, State.setPhase, Function.update_self] at hj
        cases hj
        exact .inr ⟨_, _, _, _, hcall⟩
      · simp only [State.act, State.setPhase, Function.update_of_ne hji] at hj
        exact .inl hj
    | _ => exact .inl (hset hj (.inl rfl))
  | @wake i c' k' hi hfree =>
    refine .inl ?_
    by_cases hji : j = i
    · subst hji
      simp only [State.setPhase, Function.update_self] at hj
      cases hj
    · simp only [State.setPhase, State.wakeAll, Function.update_of_ne hji] at hj
      obtain hsame | ⟨k'', -, hwoken⟩ := Phase.woken_cases c' (s.phase j)
      · rwa [hsame] at hj
      · rw [hwoken] at hj
        cases hj
  | @wait i c' k' hi hfree => exact .inl (hset hj (.inr (by rw [hi]; rfl)))
  | @release i c' k' hi => exact .inl (hset hj (.inr (by rw [hi]; rfl)))
  | @mark i c' k' hi => exact .inl (hset hj (.inr (by rw [hi]; rfl)))
  | @resume i k' hi hfree => exact .inl (hset hj (.inl rfl))
  | kill i hfree =>
    refine .inl (hset hj ?_)
    obtain hsame | ⟨c', k', -, hkilled⟩ := Phase.killed_cases (s.phase i)
    · exact .inr (by rw [hsame])
    · exact .inl (by rw [hkilled]; rfl)
  | take hfree => exact .inl hj
  | give hheld => exact .inl hj

theorem Move.shared (hmove : Move code s e t) :
    t.shared = s.shared ∨
      ∃ i k a, s.phase i = .inside k ∧ code i (s.killed i) s.shared k = (t.shared, a) := by
  rcases hmove.view with ⟨hshared, -⟩ | ⟨i, k, a, -, hi, hcode, -⟩
  · exact .inl hshared
  · exact .inr ⟨i, k, a, hi, hcode⟩

/-! ### Locks -/

/-- The locks are held by the threads that think so. -/
structure Locks (s : State ι β κ π) : Prop where
  lock : ∀ i, (s.phase i).hasLock = true ↔ s.lock = some i
  table : ∀ i, (s.phase i).hasTable = true ↔ s.table = some (some i)

omit [DecidableEq κ] in
theorem Locks.setPhase (h : Locks s) {i : ι} {p : Phase κ π} {l : Option ι} {m : Option (Option ι)}
    (hlock : p.hasLock = true ↔ l = some i) (htable : p.hasTable = true ↔ m = some (some i))
    (hl : ∀ j, j ≠ i → (s.lock = some j ↔ l = some j))
    (hm : ∀ j, j ≠ i → (s.table = some (some j) ↔ m = some (some j))) {b : β} {x : ι → Bool} :
    Locks (⟨b, l, m, Function.update s.phase i p, x⟩ : State ι β κ π) := by
  refine ⟨fun j => ?_, fun j => ?_⟩ <;> dsimp only
  · by_cases hj : j = i
    · subst hj
      rwa [Function.update_self]
    · rw [Function.update_of_ne hj, h.lock, hl j hj]
  · by_cases hj : j = i
    · subst hj
      rwa [Function.update_self]
    · rw [Function.update_of_ne hj, h.table, hm j hj]

theorem Locks.step (h : Locks s) (hmove : Move code s e t) : Locks t := by
  have hkeep : ∀ j : ι, (s.lock = some j ↔ s.lock = some j) := fun _ => Iff.rfl
  have hother : ∀ {l : Option ι} {i : ι}, (s.lock = none ∨ s.lock = some i) → (l = none ∨ l = some i) →
      ∀ j, j ≠ i → (s.lock = some j ↔ l = some j) := by
    rintro l i (hs | hs) (rfl | rfl) j hj <;> simp [hs, Ne.symm hj]
  have hotherTable : ∀ {m : Option (Option ι)} {i : ι},
      (s.table = none ∨ s.table = some (some i)) → (m = some none ∨ m = some (some i)) →
      ∀ j, j ≠ i → (s.table = some (some j) ↔ m = some (some j)) := by
    rintro m i (hs | hs) (rfl | rfl) j hj <;> simp [hs, Ne.symm hj]
  cases hmove with
  | stay => exact h
  | @call i k hi =>
    refine h.setPhase ?_ ?_ (fun j _ => hkeep j) (fun _ _ => Iff.rfl)
    · rw [← h.lock, hi]
      exact Iff.rfl
    · rw [← h.table, hi]
      exact Iff.rfl
  | @acquire i k hi hfree =>
    refine h.setPhase (iff_of_true rfl rfl) ?_ (hother (.inl hfree) (.inr rfl)) (fun _ _ => Iff.rfl)
    rw [← h.table, hi]
    exact Iff.rfl
  | @run i k b a hi _ =>
    have hlock : s.lock = some i := (h.lock i).1 (by rw [hi]; rfl)
    have htable : ∀ p : Phase κ π, p.hasTable = false → (p.hasTable = true ↔ s.table = some (some i)) := by
      intro p hp
      rw [← h.table, hi, hp]
      exact Iff.rfl
    cases a with
    | goto k' => exact h.setPhase (iff_of_true rfl hlock) (htable _ rfl) (fun j _ => hkeep j) fun _ _ => Iff.rfl
    | wakeup c k' =>
      exact h.setPhase (iff_of_true rfl hlock) (htable _ rfl) (fun j _ => hkeep j) fun _ _ => Iff.rfl
    | sleep c k' =>
      exact h.setPhase (iff_of_true rfl hlock) (htable _ rfl) (fun j _ => hkeep j) fun _ _ => Iff.rfl
    | ret =>
      exact h.setPhase (p := .out) (l := none) (iff_of_false Bool.false_ne_true (Option.some_ne_none i).symm)
        (htable _ rfl) (hother (.inr hlock) (.inl rfl)) fun _ _ => Iff.rfl
  | @wake i c k hi hfree =>
    have hwoken : Locks (s.wakeAll c) := by
      refine ⟨fun j => ?_, fun j => ?_⟩ <;> dsimp only [State.wakeAll]
      · rw [Phase.woken_same Phase.hasLock fun _ _ => rfl, h.lock]
      · rw [Phase.woken_same Phase.hasTable fun _ _ => rfl, h.table]
    refine hwoken.setPhase ?_ ?_ (fun j _ => hkeep j) (fun _ _ => Iff.rfl)
    · refine iff_of_true rfl ((h.lock i).1 ?_)
      rw [hi]
      rfl
    · change _ ↔ s.table = some (some i)
      rw [← h.table, hi]
      exact Iff.rfl
  | @wait i c k hi hfree =>
    refine h.setPhase (iff_of_true rfl ((h.lock i).1 ?_)) (iff_of_true rfl rfl) (fun j _ => hkeep j)
      (hotherTable (.inl hfree) (.inr rfl))
    rw [hi]
    rfl
  | @release i c k hi =>
    have hlock : s.lock = some i := (h.lock i).1 (by rw [hi]; rfl)
    refine h.setPhase (p := .falling c k) (l := none)
      (iff_of_false Bool.false_ne_true (Option.some_ne_none i).symm) ?_ (hother (.inr hlock) (.inl rfl))
      (fun _ _ => Iff.rfl)
    rw [← h.table, hi]
    exact Iff.rfl
  | @mark i c k hi =>
    have htable : s.table = some (some i) := (h.table i).1 (by rw [hi]; rfl)
    refine h.setPhase (p := .asleep c k) (m := some none) ?_ (iff_of_false Bool.false_ne_true (by simp))
      (fun j _ => hkeep j) (hotherTable (.inr htable) (.inl rfl))
    rw [← h.lock, hi]
    exact Iff.rfl
  | @resume i k hi hfree =>
    refine h.setPhase ?_ ?_ (fun j _ => hkeep j) (fun _ _ => Iff.rfl)
    · rw [← h.lock, hi]
      exact Iff.rfl
    · rw [← h.table, hi]
      exact Iff.rfl
  | kill i hfree =>
    refine h.setPhase ?_ ?_ (fun j _ => hkeep j) (fun _ _ => Iff.rfl)
    · rw [Phase.killed_same Phase.hasLock fun _ _ => rfl, h.lock]
    · rw [Phase.killed_same Phase.hasTable fun _ _ => rfl, h.table]
  | take hfree =>
    refine ⟨h.lock, fun j => ?_⟩
    rw [h.table, hfree]
    simp
  | give hheld =>
    refine ⟨h.lock, fun j => ?_⟩
    rw [h.table, hheld]
    simp

/-! ### Invariants of the shared state -/

variable {Entry : π → Prop} {Fair : ι → Bool → β → π → Prop} {Rest : β → Prop} {Track : β → π → Prop}

/-- Calls start at an entry, and steps of the code are fair. -/
def Legal (Entry : π → Prop) (Fair : ι → Bool → β → π → Prop) (s : State ι β κ π) : Event ι π → Prop
  | .call _ k => Entry k
  | .step i => ∀ k, s.phase i = .inside k → Fair i (s.killed i) s.shared k
  | _ => True

instance [DecidablePred Entry] [∀ i x b k, Decidable (Fair i x b k)] (s : State ι β κ π) (e : Event ι π) :
    Decidable (Legal Entry Fair s e) :=
  match e with
  | .call _ k => inferInstanceAs (Decidable (Entry k))
  | .step i =>
    match hi : (s.phase i).inside? with
    | some k =>
      decidable_of_iff (Fair i (s.killed i) s.shared k)
        ⟨fun h k' hk' => by rw [hk'] at hi; cases hi; exact h, fun h => h k (Phase.inside_of_inside? hi)⟩
    | none => .isTrue fun k hk => by rw [hk] at hi; cases hi
  | .kill _ | .take | .give => .isTrue trivial

/-- `Rest` holds while no thread works on the shared state, and `Track` along the code. -/
structure Keeps (code : Code ι β κ π) (Entry : π → Prop) (Fair : ι → Bool → β → π → Prop)
    (Rest : β → Prop) (Track : β → π → Prop) : Prop where
  enter : ∀ {b k}, Rest b → Entry k → Track b k
  goto : ∀ {i x b k b' k'}, Track b k → Fair i x b k → code i x b k = (b', .goto k') → Track b' k'
  wakeup : ∀ {i x b k b' c k'}, Track b k → Fair i x b k → code i x b k = (b', .wakeup c k') → Track b' k'
  sleep : ∀ {i x b k b' c k'}, Track b k → Fair i x b k → code i x b k = (b', .sleep c k') →
    Rest b' ∧ Entry k'
  ret : ∀ {i x b k b'}, Track b k → Fair i x b k → code i x b k = (b', .ret) → Rest b'

structure Tracked (Entry : π → Prop) (Rest : β → Prop) (Track : β → π → Prop) (s : State ι β κ π) :
    Prop where
  locks : Locks s
  entry : ∀ i k, (s.phase i).active = false → (s.phase i).pos = some k → Entry k
  track : ∀ i k, (s.phase i).active = true → (s.phase i).pos = some k → Track s.shared k
  rest : (∀ i, (s.phase i).active = false) → Rest s.shared

omit [DecidableEq ι] [DecidableEq κ] in
theorem Tracked.same (h : Tracked Entry Rest Track s) (hlocks : Locks t)
    (hshared : t.shared = s.shared) (hphase : ∀ j, (t.phase j).active = (s.phase j).active ∧
      ((t.phase j).pos = (s.phase j).pos ∨
        (t.phase j).active = false ∧ ∀ k, (t.phase j).pos = some k → Entry k)) :
    Tracked Entry Rest Track t := by
  refine ⟨hlocks, fun i k hi hpos => ?_, fun i k hi hpos => ?_, fun hall => ?_⟩
  · obtain ⟨hactive, hsame | ⟨-, hentry⟩⟩ := hphase i
    · exact h.entry i k (hactive ▸ hi) (hsame ▸ hpos)
    · exact hentry k hpos
  · obtain ⟨hactive, hsame | ⟨hidle, -⟩⟩ := hphase i
    · rw [hshared]
      exact h.track i k (hactive ▸ hi) (hsame ▸ hpos)
    · rw [hi] at hidle
      cases hidle
  · rw [hshared]
    exact h.rest fun i => (hphase i).1 ▸ hall i

omit [DecidableEq κ] in
theorem Tracked.setPhase (h : Tracked Entry Rest Track s) {i : ι} {p : Phase κ π} {l : Option ι}
    {m : Option (Option ι)} {x : ι → Bool}
    (hlocks : Locks (⟨s.shared, l, m, Function.update s.phase i p, x⟩ : State ι β κ π))
    (hactive : p.active = (s.phase i).active)
    (hpos : p.pos = (s.phase i).pos ∨ p.active = false ∧ ∀ k, p.pos = some k → Entry k) :
    Tracked Entry Rest Track (⟨s.shared, l, m, Function.update s.phase i p, x⟩ : State ι β κ π) := by
  refine h.same hlocks rfl fun j => ?_
  dsimp only
  by_cases hj : j = i
  · subst hj
    rw [Function.update_self]
    exact ⟨hactive, hpos⟩
  · rw [Function.update_of_ne hj]
    exact ⟨rfl, .inl rfl⟩

omit [DecidableEq ι] [DecidableEq κ] in
/-- Only the thread with the lock works on the shared state. -/
theorem Tracked.idle (h : Tracked Entry Rest Track s) {j : ι} (hlock : s.lock ≠ some j) :
    (s.phase j).active = false :=
  Bool.eq_false_iff.2 fun hactive => hlock ((h.locks.lock j).1 (Phase.hasLock_of_active hactive))

omit [DecidableEq κ] in
theorem Tracked.change (h : Tracked Entry Rest Track s) {i : ι} (hidle : ∀ j, j ≠ i → s.lock ≠ some j)
    {p : Phase κ π} {b : β} {l : Option ι} {m : Option (Option ι)} {x : ι → Bool}
    (hlocks : Locks (⟨b, l, m, Function.update s.phase i p, x⟩ : State ι β κ π))
    (htrack : p.active = true → ∀ k, p.pos = some k → Track b k)
    (hrest : p.active = false → Rest b ∧ ∀ k, p.pos = some k → Entry k) :
    Tracked Entry Rest Track (⟨b, l, m, Function.update s.phase i p, x⟩ : State ι β κ π) := by
  refine ⟨hlocks, fun j k hj hpos => ?_, fun j k hj hpos => ?_, fun hall => ?_⟩ <;> dsimp only at *
  · by_cases hji : j = i
    · subst hji
      rw [Function.update_self] at hj hpos
      exact (hrest hj).2 k hpos
    · rw [Function.update_of_ne hji] at hj hpos
      exact h.entry j k hj hpos
  · by_cases hji : j = i
    · subst hji
      rw [Function.update_self] at hj hpos
      exact htrack hj k hpos
    · rw [Function.update_of_ne hji, h.idle (hidle j hji)] at hj
      cases hj
  · have hi := hall i
    rw [Function.update_self] at hi
    exact (hrest hi).1

theorem Tracked.step (hcode : Keeps code Entry Fair Rest Track) (h : Tracked Entry Rest Track s)
    (hlegal : Legal Entry Fair s e) (hmove : Move code s e t) :
    Tracked Entry Rest Track t := by
  have hlocks := h.locks.step hmove
  cases hmove with
  | stay => exact h
  | @call i k hi =>
    refine h.setPhase hlocks (by rw [hi]; rfl) (.inr ⟨rfl, fun k' hk' => ?_⟩)
    cases hk'
    exact hlegal
  | @acquire i k hi hfree =>
    have hlock : ∀ j, s.lock ≠ some j := fun j => by simp [hfree]
    refine h.change (fun j _ => hlock j) hlocks (fun _ k' hk => ?_) nofun
    cases hk
    exact hcode.enter (h.rest fun j => h.idle (hlock j)) (h.entry i k (h.idle (hlock i)) (by rw [hi]; rfl))
  | @run i k b a hi hcall =>
    have hfair := hlegal k hi
    have htrack : Track s.shared k := h.track i k (by rw [hi]; rfl) (by rw [hi]; rfl)
    have hlock : ∀ j, j ≠ i → s.lock ≠ some j := by
      rw [(h.locks.lock i).1 (by rw [hi]; rfl)]
      exact fun j hj hc => hj (Option.some.inj hc).symm
    cases a with
    | goto k' =>
      refine h.change hlock hlocks (fun _ k'' hk => ?_) nofun
      cases hk
      exact hcode.goto htrack hfair hcall
    | wakeup c k' =>
      refine h.change hlock hlocks (fun _ k'' hk => ?_) nofun
      cases hk
      exact hcode.wakeup htrack hfair hcall
    | sleep c k' =>
      obtain ⟨hrest, hentry⟩ := hcode.sleep htrack hfair hcall
      refine h.change hlock hlocks nofun fun _ => ⟨hrest, fun k'' hk => ?_⟩
      cases hk
      exact hentry
    | ret => exact h.change hlock hlocks nofun fun _ => ⟨hcode.ret htrack hfair hcall, nofun⟩
  | @wake i c k hi hfree =>
    refine h.same hlocks rfl fun j => ?_
    by_cases hj : j = i
    · subst hj
      simp only [State.setPhase, Function.update_self, hi]
      exact ⟨rfl, .inl rfl⟩
    · simp only [State.setPhase, State.wakeAll, Function.update_of_ne hj]
      exact ⟨Phase.woken_same Phase.active (fun _ _ => rfl) c _,
        .inl (Phase.woken_same Phase.pos (fun _ _ => rfl) c _)⟩
  | @wait i c k hi hfree => exact h.setPhase hlocks (by rw [hi]; rfl) (.inl (by rw [hi]; rfl))
  | @release i c k hi => exact h.setPhase hlocks (by rw [hi]; rfl) (.inl (by rw [hi]; rfl))
  | @mark i c k hi => exact h.setPhase hlocks (by rw [hi]; rfl) (.inl (by rw [hi]; rfl))
  | @resume i k hi hfree => exact h.setPhase hlocks (by rw [hi]; rfl) (.inl (by rw [hi]; rfl))
  | kill i hfree =>
    exact h.setPhase hlocks (Phase.killed_same Phase.active (fun _ _ => rfl) _)
      (.inl (Phase.killed_same Phase.pos (fun _ _ => rfl) _))
  | take hfree => exact ⟨hlocks, h.entry, h.track, h.rest⟩
  | give hheld => exact ⟨hlocks, h.entry, h.track, h.rest⟩

theorem Keeps.run {ε : Type} (hcode : Keeps code Entry Fair Rest Track) {es : List (Event ι π)}
    (h : Tracked Entry Rest Track s)
    (hadm : Run.Admits (fun s e => (.ok (s.next code e) : Except ε (State ι β κ π))) (Legal Entry Fair) es s)
    (hrun : Run.run (fun s e => (.ok (s.next code e) : Except ε (State ι β κ π))) es s = .ok t) :
    Tracked Entry Rest Track t := by
  refine Run.invariant (fun s e s' hs hlegal hstep => ?_) h hadm hrun
  cases hstep
  exact hs.step hcode hlegal (next_move e)

/-! ### Wakeups -/

/-- The wakeups a thread owes. -/
def Phase.owing (owes : π → κ → Prop) (c : κ) : Phase κ π → Prop
  | .inside k => owes k c
  | .waking c' k => c' = c ∨ owes k c
  | _ => False

/-- No thread gives up the lock while it owes a wakeup: `cond c` is the condition under which a thread may
sleep on `c`. -/
structure Pays (code : Code ι β κ π) (Fair : ι → Bool → β → π → Prop) (Entry : π → Prop)
    (Track : β → π → Prop) (cond : κ → β → Prop) (owes : π → κ → Prop) : Prop where
  goto : ∀ {i x b k b' k'}, Track b k → Fair i x b k → code i x b k = (b', .goto k') →
    ∀ c, cond c b ∨ owes k c → cond c b' ∨ owes k' c
  wakeup : ∀ {i x b k b' c₀ k'}, Track b k → Fair i x b k → code i x b k = (b', .wakeup c₀ k') →
    ∀ c, c ≠ c₀ → cond c b ∨ owes k c → cond c b' ∨ owes k' c
  sleep : ∀ {i x b k b' c₀ k'}, Track b k → Fair i x b k → code i x b k = (b', .sleep c₀ k') →
    cond c₀ b' ∧ ∀ c, cond c b ∨ owes k c → cond c b'
  ret : ∀ {i x b k b'}, Track b k → Fair i x b k → code i x b k = (b', .ret) →
    ∀ c, cond c b ∨ owes k c → cond c b'

/-- Whoever sleeps on a channel may do so, or a wakeup is owed. -/
structure Paid (cond : κ → β → Prop) (owes : π → κ → Prop) (s : State ι β κ π) : Prop where
  ready : ∀ i c k, s.phase i = .waiting c k ∨ s.phase i = .both c k → cond c s.shared
  asleep : ∀ i c, (s.phase i).sleepsOn c →
    cond c s.shared ∨ ∃ j, s.lock = some j ∧ (s.phase j).owing owes c

variable {cond : κ → β → Prop} {owes : π → κ → Prop}

omit [DecidableEq κ] in
theorem Paid.of_update {f : ι → Phase κ π} {i : ι} {p : Phase κ π} {b : β} {l : Option ι}
    {m : Option (Option ι)} {x : ι → Bool} (hready : ∀ c k, p = .waiting c k ∨ p = .both c k → cond c b)
    (hothers : ∀ j, j ≠ i → ∀ c k, f j = .waiting c k ∨ f j = .both c k → cond c b)
    (hsleep : ∀ c, p.sleepsOn c → cond c b ∨ ∃ j, l = some j ∧ (Function.update f i p j).owing owes c)
    (hrest : ∀ j, j ≠ i → ∀ c, (f j).sleepsOn c →
      cond c b ∨ ∃ j, l = some j ∧ (Function.update f i p j).owing owes c) :
    Paid cond owes (⟨b, l, m, Function.update f i p, x⟩ : State ι β κ π) := by
  refine ⟨fun j c k hj => ?_, fun j c hj => ?_⟩ <;> dsimp only at * <;> by_cases hji : j = i
  · subst hji
    rw [Function.update_self] at hj
    exact hready c k hj
  · rw [Function.update_of_ne hji] at hj
    exact hothers j hji c k hj
  · subst hji
    rw [Function.update_self] at hj
    exact hsleep c hj
  · rw [Function.update_of_ne hji] at hj
    exact hrest j hji c hj

omit [DecidableEq κ] in
theorem Paid.setPhase (h : Paid cond owes s) {i : ι} {p : Phase κ π} {m : Option (Option ι)} {x : ι → Bool}
    (hready : ∀ c k, p = .waiting c k ∨ p = .both c k → cond c s.shared)
    (hsleep : ∀ c, p.sleepsOn c → (s.phase i).sleepsOn c)
    (howing : ∀ c, (s.phase i).owing owes c → p.owing owes c) :
    Paid cond owes (⟨s.shared, s.lock, m, Function.update s.phase i p, x⟩ : State ι β κ π) := by
  have hpay : ∀ c, (∃ j, s.lock = some j ∧ (s.phase j).owing owes c) →
      ∃ j, s.lock = some j ∧ (Function.update s.phase i p j).owing owes c := by
    rintro c ⟨j, hj, howes⟩
    refine ⟨j, hj, ?_⟩
    by_cases hji : j = i
    · subst hji
      rw [Function.update_self]
      exact howing c howes
    · rwa [Function.update_of_ne hji]
  exact .of_update hready (fun j _ => h.ready j)
    (fun c hc => (h.asleep i c (hsleep c hc)).imp_right (hpay c))
    fun j _ c hj => (h.asleep j c hj).imp_right (hpay c)

omit [DecidableEq κ] in
theorem Paid.change (h : Paid cond owes s) (hlocks : Locks s) {i : ι} {k : π} (hi : s.phase i = .inside k)
    {p : Phase κ π} {b : β} {l : Option ι} {m : Option (Option ι)} {x : ι → Bool}
    (hready : ∀ c k, p = .waiting c k ∨ p = .both c k → cond c b) (hp : ∀ c, ¬p.sleepsOn c)
    (hpay : ∀ c, cond c s.shared ∨ owes k c → cond c b ∨ l = some i ∧ p.owing owes c) :
    Paid cond owes (⟨b, l, m, Function.update s.phase i p, x⟩ : State ι β κ π) := by
  have hlock : s.lock = some i := (hlocks.lock i).1 (by rw [hi]; rfl)
  refine .of_update hready (fun j hji c k' hj => ?_) (fun c hc => absurd hc (hp c)) fun j _ c hj => ?_
  · have := (hlocks.lock j).1 (by rcases hj with hj | hj <;> rw [hj] <;> rfl)
    rw [hlock] at this
    exact absurd (Option.some.inj this).symm hji
  · have hbefore : cond c s.shared ∨ owes k c := by
      refine (h.asleep j c hj).imp_right ?_
      rintro ⟨j', hj', howes⟩
      rw [hlock] at hj'
      cases hj'
      rwa [hi] at howes
    refine (hpay c hbefore).imp_right ?_
    rintro ⟨hl, howes⟩
    exact ⟨i, hl, by rwa [Function.update_self]⟩

theorem Paid.step (hcode : Pays code Fair Entry Track cond owes) (htracked : Tracked Entry Rest Track s)
    (h : Paid cond owes s) {e : Event ι π} {t : State ι β κ π} (hlegal : Legal Entry Fair s e)
    (hmove : Move code s e t) : Paid cond owes t := by
  have hlocks := htracked.locks
  cases hmove with
  | stay => exact h
  | @call i k hi => exact h.setPhase (by rintro c k (hc | hc) <;> cases hc) nofun (by rw [hi]; nofun)
  | @acquire i k hi hfree =>
    refine .of_update (by rintro c k (hc | hc) <;> cases hc) (fun j _ => h.ready j) nofun
      fun j _ c hj => .inl ?_
    rcases h.asleep j c hj with hc | ⟨j', hj', -⟩
    · exact hc
    · rw [hfree] at hj'
      cases hj'
  | @run i k b a hi hcall =>
    have hfair := hlegal k hi
    have htrack : Track s.shared k := htracked.track i k (by rw [hi]; rfl) (by rw [hi]; rfl)
    have hlock : s.lock = some i := (hlocks.lock i).1 (by rw [hi]; rfl)
    cases a with
    | goto k' =>
      refine h.change hlocks hi (by rintro c k (hc | hc) <;> cases hc) nofun fun c hc => ?_
      exact (hcode.goto htrack hfair hcall c hc).imp_right fun howes => ⟨hlock, howes⟩
    | wakeup c₀ k' =>
      refine h.change hlocks hi (by rintro c k (hc | hc) <;> cases hc) nofun fun c hc => ?_
      by_cases hc₀ : c = c₀
      · exact .inr ⟨hlock, .inl hc₀.symm⟩
      · exact (hcode.wakeup htrack hfair hcall c hc₀ hc).imp_right fun howes => ⟨hlock, .inr howes⟩
    | sleep c₀ k' =>
      obtain ⟨hready, hkeep⟩ := hcode.sleep htrack hfair hcall
      refine h.change hlocks hi ?_ nofun fun c hc => .inl (hkeep c hc)
      rintro c k (hc | hc) <;> cases hc
      exact hready
    | ret =>
      exact h.change hlocks hi (by rintro c k (hc | hc) <;> cases hc) nofun fun c hc =>
        .inl (hcode.ret htrack hfair hcall c hc)
  | @wake i c₀ k hi hfree =>
    have hlock : s.lock = some i := (hlocks.lock i).1 (by rw [hi]; rfl)
    refine .of_update (by rintro c k (hc | hc) <;> cases hc) (fun j _ c k' hj => h.ready j c k' ?_) nofun
      fun j _ c hj => ?_
    · obtain hsame | ⟨k'', -, hwoken⟩ := Phase.woken_cases c₀ (s.phase j)
      · rwa [← hsame]
      · rcases hj with hj | hj <;> cases hwoken.symm.trans hj
    · have hc : c₀ ≠ c := by
        rintro rfl
        -- A thread that has not marked itself holds the lock of the table.
        have := (hlocks.table j).1 (Phase.falling_of_woken hj)
        rw [hfree] at this
        cases this
      refine (h.asleep j c (Phase.sleepsOn_of_woken hj)).imp_right ?_
      rintro ⟨j', hj', howes⟩
      rw [hlock] at hj'
      cases hj'
      rw [hi] at howes
      refine ⟨i, hlock, ?_⟩
      rw [Function.update_self]
      exact howes.resolve_left hc
  | @wait i c k hi hfree =>
    refine h.setPhase ?_ nofun (by rw [hi]; nofun)
    rintro c' k' (hc | hc) <;> cases hc
    exact h.ready i c k (.inl hi)
  | @release i c k hi =>
    have hlock : s.lock = some i := (hlocks.lock i).1 (by rw [hi]; rfl)
    refine .of_update (by rintro c k (hc | hc) <;> cases hc) (fun j _ => h.ready j) (fun c' hc => .inl ?_)
      fun j _ c' hj => .inl ?_
    · cases hc
      exact h.ready i c k (.inr hi)
    · rcases h.asleep j c' hj with hc | ⟨j', hj', howes⟩
      · exact hc
      · rw [hlock] at hj'
        cases hj'
        rw [hi] at howes
        cases howes
  | @mark i c k hi =>
    refine h.setPhase (by rintro c k (hc | hc) <;> cases hc) (fun c' hc' => ?_) (by rw [hi]; nofun)
    rw [hi]
    exact hc'
  | @resume i k hi hfree =>
    exact h.setPhase (by rintro c k (hc | hc) <;> cases hc) nofun (by rw [hi]; nofun)
  | kill i hfree =>
    refine h.setPhase (fun c k hc => ?_) (fun c hc => Phase.sleepsOn_of_killed hc) (fun c hc => ?_)
    · obtain hsame | ⟨c', k', -, hkilled⟩ := Phase.killed_cases (s.phase i)
      · exact h.ready i c k (by rwa [hsame] at hc)
      · rw [hkilled] at hc
        rcases hc with hc | hc <;> cases hc
    · rwa [Phase.killed_same (Phase.owing owes c) fun _ _ => rfl]
  | take hfree => exact ⟨h.ready, h.asleep⟩
  | give hheld => exact ⟨h.ready, h.asleep⟩

/-- No wakeup is lost. -/
theorem Pays.run {ε : Type} (hcode : Keeps code Entry Fair Rest Track)
    (hpays : Pays code Fair Entry Track cond owes) {es : List (Event ι π)} {t : State ι β κ π}
    (h : Tracked Entry Rest Track s ∧ Paid cond owes s)
    (hadm : Run.Admits (fun s e => (.ok (s.next code e) : Except ε (State ι β κ π))) (Legal Entry Fair) es s)
    (hrun : Run.run (fun s e => (.ok (s.next code e) : Except ε (State ι β κ π))) es s = .ok t) :
    Tracked Entry Rest Track t ∧ Paid cond owes t := by
  let Both (s : State ι β κ π) : Prop := Tracked Entry Rest Track s ∧ Paid cond owes s
  have hone : ∀ s e s', Both s → Legal Entry Fair s e →
      (.ok (s.next code e) : Except ε (State ι β κ π)) = .ok s' → Both s' := by
    rintro s e s' ⟨htracked, hpaid⟩ hlegal hstep
    cases hstep
    exact ⟨htracked.step hcode hlegal (next_move e), hpaid.step hpays htracked hlegal (next_move e)⟩
  exact Run.invariant hone h hadm hrun

omit [DecidableEq ι] [DecidableEq κ] in
theorem Paid.free (h : Paid cond owes s) (hfree : s.lock = none) {i : ι} {c : κ} {k : π}
    (hi : s.phase i = .asleep c k) : cond c s.shared := by
  rcases h.asleep i c (by rw [hi]; rfl) with hc | ⟨j, hj, -⟩
  · exact hc
  · rw [hfree] at hj
    cases hj

end Semantics

end Monitor
