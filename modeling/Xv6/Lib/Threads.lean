import Mathlib.Logic.Function.Basic
import Xv6.Lib.Run

/-!
# Interleaved programs

Any number of threads, each of which may be in the middle of a call.  A call runs a program: atomic
operations on a shared state, each followed by what its result asks for.  One step lets one thread take
one operation, which may block, or starts a call.
-/

namespace Threads

/-- Operations, and what to do with their results. -/
inductive Prog (Op : Type) (Res : Op → Type) (α : Type) where
  | ret (a : α)
  | op (o : Op) (k : Res o → Prog Op Res α)

namespace Prog

variable {Op : Type} {Res : Op → Type} {α β : Type}

def bind : Prog Op Res α → (α → Prog Op Res β) → Prog Op Res β
  | .ret a, f => f a
  | .op o k, f => .op o fun r => (k r).bind f

instance : Monad (Prog Op Res) where
  pure := .ret
  bind := .bind

def perform (o : Op) : Prog Op Res (Res o) := .op o .ret

def isDone : Prog Op Res α → Bool
  | .ret _ => true
  | .op _ _ => false

end Prog

/-- The shared state, and what is left of the calls. -/
structure State (σ ι : Type) (Op : Type) (Res : Op → Type) where
  shared : σ
  prog : ι → Prog Op Res Unit

/-- A thread starts a call, or takes its next operation; `x` is what chance decides. -/
inductive Event (ι κ : Type) where
  | call (i : ι) (c : κ)
  | step (i : ι) (x : Bool)

section Semantics

variable {σ ι κ ε : Type} [DecidableEq ι] {Op : Type} {Res : Op → Type}

/-- One step.  `exec` says what an operation does, with `none` for one that blocks; `enter` what the
start of a call does, with `none` for a thread that cannot make one. -/
def step (exec : σ → ι → Bool → (o : Op) → Except ε (Option (Res o × σ)))
    (enter : σ → ι → κ → Option σ) (body : ι → κ → Prog Op Res Unit) (s : State σ ι Op Res) :
    Event ι κ → Except ε (State σ ι Op Res)
  | .call i c =>
    match (s.prog i).isDone, enter s.shared i c with
    | true, some t => .ok ⟨t, Function.update s.prog i (body i c)⟩
    | _, _ => .ok s
  | .step i x =>
    match s.prog i with
    | .ret _ => .ok s
    | .op o k =>
      match exec s.shared i x o with
      | .error e => .error e
      | .ok none => .ok s
      | .ok (some (r, t)) => .ok ⟨t, Function.update s.prog i (k r)⟩

end Semantics

section Logic

variable {σ ι κ ε : Type} [DecidableEq ι] {Op : Type} {Res : Op → Type} {α β G : Type}

/-- With `g` for what the thread has at the start, every operation meets its condition, and what it has
at the end is in `Q`. -/
def Obeys (Pre : G → Op → Prop) (Next : G → Op → G → Prop) :
    Prog Op Res α → G → (α → G → Prop) → Prop
  | .ret a, g, Q => Q a g
  | .op o k, g, Q => Pre g o ∧ ∀ r g', Next g o g' → Obeys Pre Next (k r) g' Q

variable {Pre : G → Op → Prop} {Next : G → Op → G → Prop}

@[simp] theorem obeys_pure {a : α} {g : G} {Q : α → G → Prop} :
    Obeys Pre Next (pure a : Prog Op Res α) g Q ↔ Q a g := Iff.rfl

@[simp] theorem obeys_ret {a : α} {g : G} {Q : α → G → Prop} :
    Obeys Pre Next (.ret a : Prog Op Res α) g Q ↔ Q a g := Iff.rfl

@[simp] theorem obeys_op {o : Op} {k : Res o → Prog Op Res α} {g : G} {Q : α → G → Prop} :
    Obeys Pre Next (.op o k) g Q ↔ Pre g o ∧ ∀ r g', Next g o g' → Obeys Pre Next (k r) g' Q := Iff.rfl

@[simp] theorem obeys_bind {p : Prog Op Res α} {f : α → Prog Op Res β} {g : G} {Q : β → G → Prop} :
    Obeys Pre Next (p >>= f) g Q ↔ Obeys Pre Next p g fun a g' => Obeys Pre Next (f a) g' Q := by
  induction p generalizing g with
  | ret a => rfl
  | op o k ih => exact and_congr_right' (forall_congr' fun r => forall_congr' fun g' =>
      forall_congr' fun _ => ih r)

/-- Every thread obeys in what is left of its call, and ends with `g₀`.  What a thread has is read off the
shared state by `view`. -/
def Obeying (Pre : G → Op → Prop) (Next : G → Op → G → Prop) (view : σ → ι → G) (g₀ : G)
    (s : State σ ι Op Res) : Prop :=
  ∀ i, Obeys Pre Next (s.prog i) (view s.shared i) fun _ g => g = g₀

/-- An operation does what `Next` says, and leaves the other threads what they have. -/
theorem Obeying.step {exec : σ → ι → Bool → (o : Op) → Except ε (Option (Res o × σ))}
    {enter : σ → ι → κ → Option σ} {body : ι → κ → Prog Op Res Unit} {view : σ → ι → G} {g₀ : G}
    (hexec : ∀ s i x o r t, Pre (view s i) o → exec s i x o = .ok (some (r, t)) →
      Next (view s i) o (view t i) ∧ ∀ j ≠ i, view t j = view s j)
    (henter : ∀ s i c t, enter s i c = some t → view t = view s)
    (hbody : ∀ i c, Obeys Pre Next (body i c) g₀ fun _ g => g = g₀)
    {s s' : State σ ι Op Res} {e : Event ι κ} (h : Obeying Pre Next view g₀ s)
    (hstep : Threads.step exec enter body s e = .ok s') : Obeying Pre Next view g₀ s' := by
  intro i
  cases e with
  | call j c =>
    simp only [Threads.step] at hstep
    split at hstep
    · rename_i t hdone henter'
      cases hstep
      dsimp only
      rw [henter _ _ _ _ henter']
      by_cases hi : i = j
      · subst hi
        have hj := h i
        cases hp : s.prog i with
        | ret a =>
          rw [hp] at hj
          rw [show view s.shared i = g₀ from hj]
          simpa using hbody i c
        | op o k =>
          rw [hp] at hdone
          cases hdone
      · simpa [hi] using h i
    · cases hstep
      exact h i
  | step j x =>
    simp only [Threads.step] at hstep
    split at hstep
    · cases hstep
      exact h i
    · rename_i o k hp
      have hj := h j
      rw [hp] at hj
      split at hstep
      · cases hstep
      · cases hstep
        exact h i
      · rename_i r t hx
        cases hstep
        obtain ⟨hnext, hother⟩ := hexec _ _ _ _ _ _ hj.1 hx
        by_cases hi : i = j
        · subst hi
          simpa using hj.2 r _ hnext
        · simpa [hi, hother i hi] using h i

end Logic

end Threads
