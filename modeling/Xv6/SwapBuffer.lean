import Mathlib.Data.Fintype.Basic
import Xv6.Paging
import Xv6.Lib.Run

/-!
# Faults through the shared page buffer

`page_from_disk` reads a page of the swap file straight into its new frame when an entry of the ram monitor
is free, and otherwise into the static `buff`, which it copies into the frame once the read is over.  `readi`
may sleep at every block, so the calls of several processes interleave, and all of them share `buff`.
-/

namespace Xv6.SwapBuffer

variable {ι : Type} [DecidableEq ι]

/-- A call of `page_from_disk`: the bytes of the slot it reads, whether the ram monitor is full, and the
number of blocks `readi` has copied. -/
structure Call where
  slot : Page
  full : Bool
  blocks : ℕ

/-- The frames of the processes, their calls, and the buffer they share.  `source k` is the slot whose block
`k` was read into the buffer last, and `results` the slot and the frame of each call that is over; nothing
reads these two. -/
structure State (ι : Type) where
  buff : Page
  frame : ι → Page
  call : ι → Option Call
  source : ℕ → Page
  results : List (Page × Page)

inductive Event (ι : Type)
  | fault (p : ι) (slot : Page) (full : Bool)
  | readi (p : ι)
  | memmove (p : ι)

/-- Block `k` of a page, read into another one. -/
def readBlock (slot : Page) (k : ℕ) (page : Page) : Page := fun x =>
  if x.val / 512 = k then slot x else page x

/-- Where the blocks of a call go. -/
def State.target (s : State ι) (p : ι) (c : Call) : Page := if c.full then s.buff else s.frame p

/-- The new frame, cleared by `memset`. -/
def State.fault (s : State ι) (p : ι) (slot : Page) (full : Bool) : State ι :=
  { s with
    frame := Function.update s.frame p fun _ => 0
    call := Function.update s.call p (some ⟨slot, full, 0⟩) }

def State.readi (s : State ι) (p : ι) (c : Call) : State ι :=
  let page := readBlock c.slot c.blocks (s.target p c)
  { s with
    buff := if c.full then page else s.buff
    frame := if c.full then s.frame else Function.update s.frame p page
    call := Function.update s.call p (some { c with blocks := c.blocks + 1 })
    source := if c.full then Function.update s.source c.blocks c.slot else s.source }

/-- The end of a call.  Without the buffer the page is in its frame already. -/
def State.memmove (s : State ι) (p : ι) (c : Call) : State ι :=
  { s with
    frame := Function.update s.frame p (s.target p c)
    call := Function.update s.call p none
    results := (c.slot, s.target p c) :: s.results }

def step (s : State ι) : Event ι → Except Halt (State ι)
  | .fault p slot full => .ok (if (s.call p).isSome then s else s.fault p slot full)
  | .readi p =>
    match s.call p with
    | none => .ok s
    | some c => .ok (if c.blocks < 8 then s.readi p c else s)
  | .memmove p =>
    match s.call p with
    | none => .ok s
    | some c => .ok (if c.blocks = 8 then s.memmove p c else s)

def start (buff : Page) (frame : ι → Page) : State ι := ⟨buff, frame, fun _ => none, fun _ => buff, []⟩

/-- The process reads into the buffer. -/
def State.buffers (s : State ι) (p : ι) : Bool := (s.call p).any (·.full)

/-- A block is in the buffer that the process has not copied out. -/
def State.pending (s : State ι) (p : ι) : Bool := (s.call p).any fun c => c.full && c.blocks != 0

/-- No block is read into the buffer while another call has blocks there. -/
def Alone (s : State ι) : Event ι → Prop
  | .readi q => s.buffers q = true → ∀ p, p ≠ q → s.pending p = false
  | _ => True

instance [Fintype ι] (s : State ι) (e : Event ι) : Decidable (Alone s e) := by
  cases e <;> unfold Alone <;> infer_instance

/-- The calls of the given kinds have the blocks they have read. -/
def Kept (B : Bool → Prop) (s : State ι) : Prop :=
  ∀ p c, s.call p = some c → B c.full → ∀ x : Fin 4096, x.val / 512 < c.blocks → s.target p c x = c.slot x

theorem step_cases {s s' : State ι} {e : Event ι} (h : step s e = .ok s') :
    s' = s ∨ (∃ p slot full, s' = s.fault p slot full) ∨
      (∃ p c, e = .readi p ∧ s.call p = some c ∧ s' = s.readi p c) ∨
      ∃ p c, s.call p = some c ∧ c.blocks = 8 ∧ s' = s.memmove p c := by
  cases e <;> simp only [step] at h <;> grind

theorem kept_step {B : Bool → Prop} {s s' : State ι} {e : Event ι} (halone : B true → Alone s e)
    (hk : Kept B s) (h : step s e = .ok s') : Kept B s' := by
  rcases step_cases h with rfl | ⟨p, slot, full, rfl⟩ | ⟨p, c, rfl, hcp, rfl⟩ | ⟨p, c, hcp, -, rfl⟩
  · exact hk
  all_goals
    intro q d hd hB x hx
    by_cases hqp : q = p
  · subst hqp
    simp only [State.fault, Function.update_self, Option.some.injEq] at hd
    subst hd
    exact absurd hx (Nat.not_lt_zero _)
  · simp only [State.fault, Function.update_of_ne hqp] at hd
    simpa [State.fault, State.target, Function.update_of_ne hqp] using hk q d hd hB x hx
  · subst hqp
    simp only [State.readi, Function.update_self, Option.some.injEq] at hd
    subst hd
    have hpage : readBlock c.slot c.blocks (s.target q c) x = c.slot x := by
      unfold readBlock
      split
      · rfl
      · exact hk q c hcp hB x (by simp only at hx; omega)
    cases hf : c.full <;> simpa [State.readi, State.target, hf] using hpage
  · simp only [State.readi, Function.update_of_ne hqp] at hd
    have hold := hk q d hd hB x hx
    cases hdf : d.full <;> cases hf : c.full
    case true.true =>
      -- the other call would lose its blocks, but it has none
      have hnone := halone (hdf ▸ hB) (by simp [State.buffers, hcp, hf]) q hqp
      simp only [State.pending, hd, hdf, Option.any_some, Bool.true_and, bne_eq_false_iff_eq] at hnone
      exact absurd hx (hnone ▸ Nat.not_lt_zero _)
    all_goals simpa [State.readi, State.target, hdf, hf, Function.update_of_ne hqp] using hold
  · subst hqp
    simp only [State.memmove, Function.update_self, reduceCtorEq] at hd
  · simp only [State.memmove, Function.update_of_ne hqp] at hd
    simpa [State.memmove, State.target, Function.update_of_ne hqp] using hk q d hd hB x hx

/-- The buffer holds the blocks that were read last, and the frames those read without it. -/
def Latest (s : State ι) : Prop := (∀ x, s.buff x = s.source (x.val / 512) x) ∧ Kept (· = false) s

theorem latest_step {s s' : State ι} {e : Event ι} (hl : Latest s) (h : step s e = .ok s') : Latest s' := by
  refine ⟨fun x => ?_, kept_step (fun h => by cases h) hl.2 h⟩
  have hs := hl.1
  rcases step_cases h with rfl | ⟨p, slot, full, rfl⟩ | ⟨p, c, -, -, rfl⟩ | ⟨p, c, -, -, rfl⟩
  · exact hs x
  · exact hs x
  · cases hf : c.full
    · simpa [State.readi, hf] using hs x
    · by_cases hx : x.val / 512 = c.blocks <;> simp [State.readi, readBlock, State.target, hf, hx, hs x]
  · exact hs x

/-- Every call has the blocks it has read, and got its own page if it is over. -/
def Apart (s : State ι) : Prop := Kept (fun _ => True) s ∧ ∀ r ∈ s.results, r.2 = r.1

theorem apart_step {s s' : State ι} {e : Event ι} (ha : Apart s) (halone : Alone s e)
    (h : step s e = .ok s') : Apart s' := by
  refine ⟨kept_step (fun _ => halone) ha.1 h, ?_⟩
  obtain ⟨hk, hr⟩ := ha
  rcases step_cases h with rfl | ⟨p, slot, full, rfl⟩ | ⟨p, c, -, -, rfl⟩ | ⟨p, c, hcp, h8, rfl⟩
  · exact hr
  · exact hr
  · exact hr
  · refine List.forall_mem_cons.2 ⟨funext fun x => hk p c hcp trivial x ?_, hr⟩
    rw [h8]
    omega

/-- A call gets the bytes of its own slot exactly when every block of the buffer was last read from those
bytes, and always without the buffer.  Where no block is read into the buffer while another call has blocks
there, all calls do. -/
theorem faults_apart {es : List (Event ι)} {buff : Page} {frame : ι → Page} {s : State ι}
    (hrun : Run.run step es (start buff frame) = .ok s) :
    (∀ p c, s.call p = some c → c.blocks = 8 →
        (s.target p c = c.slot ↔ (c.full = true → ∀ x, s.source (x.val / 512) x = c.slot x))) ∧
      (Run.Admits step Alone es (start buff frame) → ∀ r ∈ s.results, r.2 = r.1) := by
  constructor
  · intro p c hc h8
    obtain ⟨hs, hk⟩ : Latest s := Run.invariant (P := fun _ _ => True) (fun _ _ _ hi _ h => latest_step hi h)
      ⟨fun _ => rfl, fun _ _ h => by cases h⟩ (Run.Admits.all (fun _ _ => trivial) es _) hrun
    cases hf : c.full with
    | false =>
      refine iff_of_true (funext fun x => hk p c hc hf x ?_) (fun h => by cases h)
      rw [h8]
      omega
    | true => simp only [State.target, hf, if_true, forall_const, funext_iff, hs]
  · intro halone
    have hapart : Apart s := Run.invariant (fun _ _ _ => apart_step)
      ⟨fun _ _ h => (by cases h), fun _ h => (by cases h)⟩ halone hrun
    exact hapart.2

/-- The eight blocks of a call, without a pause. -/
def readAll {ι : Type} (p : ι) : List (Event ι) := List.replicate 8 (.readi p)

/-- Two processes fault on a page filled with 1 and one filled with 2. -/
def twoFaults (es : List (Event Bool)) : Except Halt (State Bool) :=
  Run.run step (.fault false (fun _ => 1) true :: .fault true (fun _ => 2) true :: es)
    (start (fun _ => 0) fun _ _ => 0)

theorem faults_apart_turns :
    ∃ s, twoFaults (readAll false ++ .memmove false :: readAll true ++ [.memmove true]) = .ok s ∧
      s.results.length = 2 ∧ ∀ r ∈ s.results, r.2 = r.1 := by
  obtain ⟨s, hs, hlen⟩ := Run.of_endsIn (by decide +kernel : Run.endsIn (fun s => s.results.length == 2)
    (twoFaults (readAll false ++ .memmove false :: readAll true ++ [.memmove true])) = true)
  exact ⟨s, hs, beq_iff_eq.1 hlen, (faults_apart hs).2 (.of_decide (by decide +kernel))⟩

/-- The second process reads its first block while the first has all of its own in the buffer, and the first
gets a page that is not its own. -/
theorem faults_mix :
    ∃ s, twoFaults (readAll false ++ [.readi true, .memmove false]) = .ok s ∧
      s.results.map (fun r => (r.1 0, r.2 0)) = [(1, 2)] ∧ s.frame false 0 = 2 := by
  obtain ⟨s, hs, h⟩ := Run.of_endsIn (by decide +kernel : Run.endsIn
    (fun s => s.results.map (fun r => (r.1 0, r.2 0)) = [(1, 2)] ∧ s.frame false 0 = 2)
    (twoFaults (readAll false ++ [.readi true, .memmove false])) = true)
  exact ⟨s, hs, of_decide_eq_true h⟩

end Xv6.SwapBuffer
