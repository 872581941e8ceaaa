import Mathlib.Data.Nat.Notation

/-!
# Runs of a step function that may stop

`run step` feeds a list of inputs to a step function.  `Admits` says that every step of a run is
taken in a state and with an input that meet a side condition.  The rules turn what one step
preserves into what a whole run preserves: for an invariant, and for a relation to an abstract state
that moves along, with and without the guarantee that no step stops.
-/

namespace Run

variable {σ τ ε α : Type*}

def run (step : σ → α → Except ε σ) : List α → σ → Except ε σ
  | [], s => .ok s
  | a :: as, s =>
    match step s a with
    | .error e => .error e
    | .ok s' => run step as s'

/-- Every step of the run meets the condition `P`. -/
def Admits (step : σ → α → Except ε σ) (P : σ → α → Prop) : List α → σ → Prop
  | [], _ => True
  | a :: as, s => P s a ∧ ∀ s', step s a = .ok s' → Admits step P as s'

/-- A run of an abstract machine on the same inputs. -/
inductive Follows (R : τ → α → τ → Prop) : τ → List α → τ → Prop
  | nil (t : τ) : Follows R t [] t
  | cons {t t' t'' : τ} {a : α} {as : List α} :
    R t a t' → Follows R t' as t'' → Follows R t (a :: as) t''

/-- Whether every step of the run passes a test. -/
def passes (step : σ → α → Except ε σ) (test : σ → α → Bool) : List α → σ → Bool
  | [], _ => true
  | a :: as, s =>
    test s a &&
      match step s a with
      | .error _ => true
      | .ok s' => passes step test as s'

/-- The run got through, to a state that passes the test. -/
def endsIn (test : σ → Bool) : Except ε σ → Bool
  | .ok s => test s
  | .error _ => false

def stop : Except ε σ → Option ε
  | .ok _ => none
  | .error e => some e

theorem of_endsIn {test : σ → Bool} {r : Except ε σ} (h : endsIn test r = true) :
    ∃ s, r = .ok s ∧ test s = true := by
  cases r with
  | ok s => exact ⟨s, rfl, h⟩
  | error e => cases h

theorem of_stop {r : Except ε σ} {e : ε} (h : stop r = some e) : r = .error e := by
  cases r with
  | ok s => cases h
  | error e' => exact congrArg Except.error (Option.some.inj h)

variable {step : σ → α → Except ε σ} {P : σ → α → Prop}

theorem bind_ok.{u, v} {ε : Type u} {β γ : Type v} {x : Except ε β} {f : β → Except ε γ} {c : γ}
    (h : (x >>= f) = .ok c) : ∃ b, x = .ok b ∧ f b = .ok c := by
  cases x with
  | error e => cases h
  | ok b => exact ⟨b, rfl, h⟩

theorem map_ok {β : Type*} {x : Except ε σ} {f : σ → β} {b : β} (h : x.map f = .ok b) :
    ∃ s, x = .ok s ∧ f s = b := by
  cases x with
  | error e => cases h
  | ok s => exact ⟨s, rfl, Except.ok.inj h⟩

theorem run_cons_ok {a : α} {as : List α} {s s'' : σ} (h : run step (a :: as) s = .ok s'') :
    ∃ s', step s a = .ok s' ∧ run step as s' = .ok s'' := by
  rw [run] at h
  cases hs : step s a with
  | error e =>
    rw [hs] at h
    cases h
  | ok s' =>
    rw [hs] at h
    exact ⟨s', rfl, h⟩

theorem Admits.imp {Q : σ → α → Prop} (hPQ : ∀ s a, P s a → Q s a) {as : List α} {s : σ}
    (h : Admits step P as s) : Admits step Q as s := by
  induction as generalizing s with
  | nil => trivial
  | cons a as ih => exact ⟨hPQ s a h.1, fun s' hs' => ih (h.2 s' hs')⟩

theorem Admits.all (hP : ∀ s a, P s a) (as : List α) (s : σ) : Admits step P as s := by
  induction as generalizing s with
  | nil => trivial
  | cons a as ih => exact ⟨hP s a, fun s' _ => ih s'⟩

theorem Admits.and {Q : σ → α → Prop} {as : List α} {s : σ} (hP : Admits step P as s)
    (hQ : Admits step Q as s) : Admits step (fun s a => P s a ∧ Q s a) as s := by
  induction as generalizing s with
  | nil => trivial
  | cons a as ih => exact ⟨⟨hP.1, hQ.1⟩, fun s' hs' => ih (hP.2 s' hs') (hQ.2 s' hs')⟩

theorem Admits.of_passes {test : σ → α → Bool} (hP : ∀ s a, test s a = true → P s a) {as : List α}
    {s : σ} (h : passes step test as s = true) : Admits step P as s := by
  induction as generalizing s with
  | nil => trivial
  | cons a as ih =>
    obtain ⟨ha, hrest⟩ := Bool.and_eq_true_iff.1 h
    refine ⟨hP s a ha, fun s' hs' => ih ?_⟩
    rwa [hs'] at hrest

theorem Admits.of_decide [∀ s a, Decidable (P s a)] {as : List α} {s : σ}
    (h : passes step (fun s a => decide (P s a)) as s = true) : Admits step P as s :=
  .of_passes (fun _ _ => of_decide_eq_true) h

/-- Invariant rule. -/
theorem invariant {Inv : σ → Prop}
    (hstep : ∀ s a s', Inv s → P s a → step s a = .ok s' → Inv s') {as : List α} {s s' : σ}
    (hs : Inv s) (hadm : Admits step P as s) (hrun : run step as s = .ok s') : Inv s' := by
  induction as generalizing s with
  | nil =>
    cases hrun
    exact hs
  | cons a as ih =>
    obtain ⟨s₁, h₁, hrest⟩ := run_cons_ok hrun
    exact ih (hstep s a s₁ hs hadm.1 h₁) (hadm.2 s₁ h₁) hrest

/-- Invariant rule with an abstract state that moves along. -/
theorem tracks {Sim : σ → τ → Prop} {f : τ → α → τ}
    (hstep : ∀ s t a s', Sim s t → step s a = .ok s' → Sim s' (f t a)) {as : List α} {s s' : σ} {t : τ}
    (hs : Sim s t) (hrun : run step as s = .ok s') : Sim s' (as.foldl f t) := by
  induction as generalizing s t with
  | nil =>
    cases hrun
    exact hs
  | cons a as ih =>
    obtain ⟨s₁, h₁, hrest⟩ := run_cons_ok hrun
    exact ih (hstep s t a s₁ hs h₁) hrest

/-! ### Postconditions -/

/-- The computation got through with a result in `Q`, or stopped in a way that `E` allows. -/
def Meets {β : Type*} (E : ε → Prop) (Q : β → Prop) : Except ε β → Prop
  | .ok b => Q b
  | .error e => E e

theorem Meets.mono {β : Type*} {E : ε → Prop} {Q R : β → Prop} {r : Except ε β} (h : Meets E Q r)
    (hQR : ∀ b, Q b → R b) : Meets E R r := by
  cases r with
  | ok b => exact hQR b h
  | error e => exact h

theorem Meets.and {β : Type*} {E : ε → Prop} {Q R : β → Prop} {r : Except ε β} (hQ : Meets E Q r)
    (hR : Meets E R r) : Meets E (fun b => Q b ∧ R b) r := by
  cases r with
  | ok b => exact ⟨hQ, hR⟩
  | error e => exact hQ

theorem Meets.bind.{u, v} {ε : Type u} {β γ : Type v} {E : ε → Prop} {Q : β → Prop} {R : γ → Prop}
    {x : Except ε β} {f : β → Except ε γ} (h : Meets E Q x) (hf : ∀ b, Q b → Meets E R (f b)) :
    Meets E R (x >>= f) := by
  cases x with
  | ok b => exact hf b h
  | error e => exact h

/-- Invariant rule for steps that may stop. -/
theorem Meets.run {E : ε → Prop} {Inv : σ → Prop}
    (hstep : ∀ s a, Inv s → P s a → Meets E Inv (step s a)) {as : List α} {s : σ} (hs : Inv s)
    (hadm : Admits step P as s) : Meets E Inv (run step as s) := by
  induction as generalizing s with
  | nil => exact hs
  | cons a as ih =>
    have hnext := hstep s a hs hadm.1
    rw [Run.run]
    cases hsa : step s a with
    | error e =>
      rw [hsa] at hnext
      exact hnext
    | ok s' =>
      rw [hsa] at hnext
      exact ih hnext (hadm.2 s' hsa)

/-- Simulation rule for steps that never stop and an abstract machine that is a function. -/
theorem total {Sim : σ → τ → Prop} {f : τ → α → τ}
    (hstep : ∀ s t a, Sim s t → P s a → ∃ s', step s a = .ok s' ∧ Sim s' (f t a))
    {as : List α} {s : σ} {t : τ} (hs : Sim s t) (hadm : Admits step P as s) :
    ∃ s', run step as s = .ok s' ∧ Sim s' (as.foldl f t) := by
  induction as generalizing s t with
  | nil => exact ⟨s, rfl, hs⟩
  | cons a as ih =>
    obtain ⟨s₁, h₁, hs₁⟩ := hstep s t a hs hadm.1
    obtain ⟨s', hrun, hs'⟩ := ih hs₁ (hadm.2 s₁ h₁)
    exact ⟨s', by rw [run, h₁]; exact hrun, hs'⟩

/-- Invariant rule for steps that never stop and each add a cost: the total is zero just when every
step was free. -/
theorem total_cost (Inv : σ → ℕ → Prop) (cost : σ → α → ℕ)
    (hstep : ∀ s n a, Inv s n → P s a → ∃ s', step s a = .ok s' ∧ Inv s' (n + cost s a))
    {as : List α} {s : σ} {n : ℕ} (hs : Inv s n) (hadm : Admits step P as s) :
    ∃ s' k, run step as s = .ok s' ∧ Inv s' (n + k) ∧
      (k = 0 ↔ Admits step (fun s a => cost s a = 0) as s) := by
  induction as generalizing s n with
  | nil => exact ⟨s, 0, rfl, hs, iff_of_true rfl trivial⟩
  | cons a as ih =>
    obtain ⟨s₁, h₁, hs₁⟩ := hstep s n a hs hadm.1
    obtain ⟨s', k, hrun, hs', hk⟩ := ih hs₁ (hadm.2 s₁ h₁)
    refine ⟨s', cost s a + k, by rw [run, h₁]; exact hrun, by rwa [← Nat.add_assoc], ?_⟩
    rw [Nat.add_eq_zero_iff, hk]
    refine and_congr_right fun _ => ⟨fun hrest s₂ h₂ => ?_, fun hrest => hrest s₁ h₁⟩
    cases h₁.symm.trans h₂
    exact hrest

end Run
