import Mathlib.Data.Nat.Notation

/-!
# Computations that leave a trace

A computation that may stop and emits entries on the way.  What it emitted before it stopped is kept.
`pack` turns the trace of a computation into a single entry.
-/

/-- The entries emitted, and how the computation ended. -/
structure Traced (τ ε α : Type*) where
  trace : List τ
  result : Except ε α

namespace Traced

variable {τ σ ε α β : Type}

/-- Go on with the result, unless the computation has stopped. -/
def andThen (m : Traced τ ε α) (f : α → Traced τ ε β) : Traced τ ε β :=
  match m.result with
  | .ok a => ⟨m.trace ++ (f a).trace, (f a).result⟩
  | .error e => ⟨m.trace, .error e⟩

instance : Monad (Traced τ ε) where
  pure a := ⟨[], .ok a⟩
  bind := andThen

def emit (t : τ) : Traced τ ε Unit := ⟨[t], .ok ()⟩

/-- A computation that emits nothing. -/
def lift (r : Except ε α) : Traced τ ε α := ⟨[], r⟩

/-- The whole trace as one entry. -/
def pack (f : List τ → σ) (m : Traced τ ε α) : Traced σ ε α := ⟨[f m.trace], m.result⟩

variable {m : Traced τ ε α} {f : α → Traced τ ε β}

theorem result_bind (m : Traced τ ε α) (f : α → Traced τ ε β) :
    (m >>= f).result = m.result >>= fun a => (f a).result := by
  change (andThen m f).result = _
  unfold andThen
  cases m.result with
  | ok a => rfl
  | error e => rfl

theorem trace_bind_ok {a : α} (h : m.result = .ok a) : (m >>= f).trace = m.trace ++ (f a).trace := by
  change (andThen m f).trace = _
  unfold andThen
  rw [h]

theorem trace_bind_error {e : ε} (h : m.result = .error e) : (m >>= f).trace = m.trace := by
  change (andThen m f).trace = _
  unfold andThen
  rw [h]

theorem pack_bind_ok {a : α} {g : List τ → σ} {k : α → Traced σ ε β} (h : m.result = .ok a) :
    (m.pack g >>= k) = ⟨g m.trace :: (k a).trace, (k a).result⟩ := by
  change andThen (m.pack g) k = _
  unfold andThen pack
  rw [h]
  rfl

theorem pack_bind_error {e : ε} {g : List τ → σ} {k : α → Traced σ ε β} (h : m.result = .error e) :
    (m.pack g >>= k) = ⟨[g m.trace], .error e⟩ := by
  change andThen (m.pack g) k = _
  unfold andThen pack
  rw [h]

theorem mem_trace_bind {t : τ} (ht : t ∈ (m >>= f).trace) :
    t ∈ m.trace ∨ ∃ a, m.result = .ok a ∧ t ∈ (f a).trace := by
  cases hm : m.result with
  | ok a =>
    rw [trace_bind_ok hm] at ht
    rcases List.mem_append.1 ht with hfirst | hrest
    · exact .inl hfirst
    · exact .inr ⟨a, rfl, hrest⟩
  | error e =>
    rw [trace_bind_error hm] at ht
    exact .inl ht

end Traced
