import Xv6.Ptable

/-!
# Parents, zombies and wait

Every process but `init` has a living parent, nobody sleeps in `wait` over a zombie child, a zombie is
reaped once, and pids differ.
-/

namespace Xv6.Ptable

/-! ### Parents -/

variable {s s' : Table} {p q r : PPtr} {x : Proc} {np : PPtr} {e : Event}

/-- What holds between any two critical sections. -/
structure Family (s : Table) : Prop where
  init : (s.proc initproc).state.alive
  parent : ∀ p, p ≠ initproc → (s.proc p).state.alive ∨ (s.proc p).state = .ZOMBIE →
    ∃ r, (s.proc p).parent = some r ∧ (s.proc r).state.alive
  other : ∀ p, p ≠ initproc → (s.proc p).parent ≠ some p
  /-- A child being made is an embryo of one process that is still there. -/
  forking : ∀ p np b, (s.proc p).phase = .forking np b →
    (s.proc p).state.alive ∧ (s.proc np).state = .EMBRYO ∧ (b = true → (s.proc np).parent = some p)
  alone : ∀ p p' np b b', (s.proc p).phase = .forking np b → (s.proc p').phase = .forking np b' → p = p'
  waits : ∀ p q, (s.proc p).state = .SLEEPING → (s.proc p).chan = some (.proc p) →
    (s.proc q).parent = some p → (s.proc q).state ≠ .ZOMBIE

/-- A step that only moves processes between the states of the living. -/
structure Moves (s s' : Table) : Prop where
  parent : ∀ q, (s'.proc q).parent = (s.proc q).parent
  phase : ∀ q, (s'.proc q).phase = (s.proc q).phase
  state : ∀ q, (s'.proc q).state = (s.proc q).state ∨
    (s'.proc q).state.alive ∧ (s.proc q).state.alive

/-- Such a step that puts none to sleep on an entry. -/
structure Stirs (s s' : Table) : Prop extends Moves s s' where
  asleep : ∀ q r, (s'.proc q).state = .SLEEPING → (s'.proc q).chan = some (.proc r) →
    (s.proc q).state = .SLEEPING ∧ (s.proc q).chan = some (.proc r)

theorem Stirs.refl (s : Table) : Stirs s s where
  parent _ := rfl
  phase _ := rfl
  state _ := .inl rfl
  asleep _ _ hstate hchan := ⟨hstate, hchan⟩

theorem Moves.alive (h : Moves s s') : (s'.proc q).state.alive = (s.proc q).state.alive := by
  rcases h.state q with heq | ⟨h', h₀⟩
  · rw [heq]
  · rw [h', h₀]

theorem Moves.state_iff (h : Moves s s') {st : ProcState} (hst : st.alive = false) :
    (s'.proc q).state = st ↔ (s.proc q).state = st := by
  rcases h.state q with heq | ⟨h', h₀⟩
  · rw [heq]
  · constructor
    · intro heq
      rw [heq, hst] at h'
      cases h'
    · intro heq
      rw [heq, hst] at h₀
      cases h₀

theorem Family.move (hs : Family s) (h : Moves s s') (hwaits : ∀ p q, (s'.proc p).state = .SLEEPING →
    (s'.proc p).chan = some (.proc p) → (s.proc q).parent = some p → (s.proc q).state ≠ .ZOMBIE) :
    Family s' where
  init := h.alive.trans hs.init
  parent p hp hpresent := by
    rw [h.alive, h.state_iff rfl] at hpresent
    obtain ⟨r, hr, halive⟩ := hs.parent p hp hpresent
    exact ⟨r, (h.parent p).trans hr, h.alive.trans halive⟩
  other p hp := by
    rw [h.parent]
    exact hs.other p hp
  forking p np b hphase := by
    rw [h.phase] at hphase
    rw [h.alive, h.state_iff rfl, h.parent]
    exact hs.forking p np b hphase
  alone p p' np b b' hp hp' := by
    rw [h.phase] at hp hp'
    exact hs.alone p p' np b b' hp hp'
  waits p q hasleep hchan hparent := by
    rw [h.parent] at hparent
    rw [Ne, h.state_iff rfl]
    exact hwaits p q hasleep hchan hparent

theorem Family.stir (hs : Family s) (h : Stirs s s') : Family s' := by
  apply hs.move h.toMoves
  intro p q hasleep hchan
  obtain ⟨hasleep, hchan⟩ := h.asleep p p hasleep hchan
  exact hs.waits p q hasleep hchan

theorem Moves.set (hparent : x.parent = (s.proc p).parent) (hphase : x.phase = (s.proc p).phase)
    (hstate : x.state = (s.proc p).state ∨ x.state.alive ∧ (s.proc p).state.alive) :
    Moves s (s.set p x) := by
  refine ⟨fun q => ?_, fun q => ?_, fun q => ?_⟩ <;> rw [s.set_proc] <;> split
  case isTrue hq => exact hq ▸ hparent
  case isFalse => rfl
  case isTrue hq => exact hq ▸ hphase
  case isFalse => rfl
  case isTrue hq => exact hq ▸ hstate
  case isFalse => exact .inl rfl

theorem Stirs.set (hparent : x.parent = (s.proc p).parent) (hphase : x.phase = (s.proc p).phase)
    (hstate : x.state = (s.proc p).state ∨ x.state.alive ∧ (s.proc p).state.alive)
    (hasleep : ∀ r, x.state = .SLEEPING → x.chan = some (.proc r) →
      (s.proc p).state = .SLEEPING ∧ (s.proc p).chan = some (.proc r)) : Stirs s (s.set p x) := by
  refine ⟨.set hparent hphase hstate, fun q r => ?_⟩
  rw [s.set_proc]
  split
  · rename_i hq
    exact hq ▸ hasleep r
  · exact fun h₁ h₂ => ⟨h₁, h₂⟩

theorem Stirs.wakeup1 (s : Table) (c : Option Chan) : Stirs s (s.wakeup1 c) := by
  have hproc : ∀ q, (s.wakeup1 c).proc q = (s.proc q).woken c := fun q => rfl
  refine ⟨⟨fun q => ?_, fun q => ?_, fun q => ?_⟩, fun q r => ?_⟩ <;> rw [hproc, Proc.woken] <;> split
  case isTrue => rfl
  case isFalse => rfl
  case isTrue => rfl
  case isFalse => rfl
  case isTrue h => exact .inr ⟨rfl, by rw [h.1]; rfl⟩
  case isFalse => exact .inl rfl
  case isTrue => exact fun h => by cases h
  case isFalse => exact fun h₁ h₂ => ⟨h₁, h₂⟩

theorem Family.setPhase {ph : Phase} (hs : Family s) (hph : ∀ np b, ph = .forking np b →
    (s.proc p).state.alive ∧ (s.proc np).state = .EMBRYO ∧ (b = true → (s.proc np).parent = some p) ∧
      ∀ p' b', (s.proc p').phase = .forking np b' → p' = p) : Family (s.setPhase p ph) := by
  constructor <;> simp only [setPhase_proc]
  case init => exact hs.init
  case parent => exact hs.parent
  case other => exact hs.other
  case waits => exact hs.waits
  case forking =>
    intro q np b hq
    split at hq
    · rename_i heq
      obtain ⟨halive, hembryo, hset, -⟩ := hph np b hq
      exact heq ▸ ⟨halive, hembryo, hset⟩
    · exact hs.forking q np b hq
  case alone =>
    intro q q' np b b' hq hq'
    split at hq <;> split at hq'
    · rename_i heq heq'
      rw [heq, heq']
    · rename_i heq _
      rw [heq, (hph np b hq).2.2.2 q' b' hq']
    · rename_i _ heq'
      rw [heq', (hph np b' hq').2.2.2 q b hq]
    · exact hs.alone q q' np b b' hq hq'

/-- An entry with no living process in it is given a new content, short of a zombie. -/
theorem Family.remake (hs : Family s) (hdead : (s.proc np).state.alive = false)
    (hother : x.parent ≠ some np) (hphase : ∀ m b, x.phase ≠ .forking m b) (hzombie : x.state ≠ .ZOMBIE)
    (hasleep : x.state ≠ .SLEEPING)
    (hparent : x.state.alive → ∃ r, x.parent = some r ∧ (s.proc r).state.alive)
    (hforked : ∀ p b, (s.proc p).phase = .forking np b → x.state = .EMBRYO ∧ (b = true → x.parent = some p)) :
    Family (s.set np x) := by
  have halive : ∀ r, (s.proc r).state.alive → ((s.set np x).proc r).state.alive := by
    intro r hr
    rw [s.set_proc, if_neg]
    · exact hr
    · rintro rfl
      rw [hdead] at hr
      cases hr
  constructor
  case init => exact halive initproc hs.init
  case parent =>
    intro p hp hpresent
    rw [s.set_proc] at hpresent ⊢
    split at hpresent
    · rename_i heq
      obtain ⟨r, hr, hr'⟩ := hparent (hpresent.resolve_right hzombie)
      rw [if_pos heq]
      exact ⟨r, hr, halive r hr'⟩
    · rename_i hne
      obtain ⟨r, hr, hr'⟩ := hs.parent p hp hpresent
      rw [if_neg hne]
      exact ⟨r, hr, halive r hr'⟩
  case other =>
    intro p hp
    rw [s.set_proc]
    split
    · rename_i heq
      exact heq ▸ hother
    · exact hs.other p hp
  case forking =>
    intro p m b hp
    rw [s.set_proc] at hp
    split at hp
    · exact absurd hp (hphase m b)
    · obtain ⟨hp', hembryo, hset⟩ := hs.forking p m b hp
      refine ⟨halive p hp', ?_⟩
      rw [s.set_proc]
      split
      · rename_i heq
        exact hforked p b (heq ▸ hp)
      · exact ⟨hembryo, hset⟩
  case alone =>
    intro p p' m b b' hp hp'
    rw [s.set_proc] at hp hp'
    split at hp
    · exact absurd hp (hphase m b)
    · split at hp'
      · exact absurd hp' (hphase m b')
      · exact hs.alone p p' m b b' hp hp'
  case waits =>
    intro p q hp hchan hq
    rw [s.set_proc] at hp hchan hq ⊢
    split at hp
    · exact absurd hp hasleep
    · rename_i hne
      rw [if_neg hne] at hchan
      split
      · exact hzombie
      · rename_i hne'
        rw [if_neg hne'] at hq
        exact hs.waits p q hp hchan hq

/-! The critical section of `exit`. -/

/-- The children of a process go to `init`, which must be awake for the zombies among them. -/
theorem Family.reparent (hs : Family s) (hp : (s.proc p).phase = .user)
    (hinit : (∃ q, (s.proc q).parent = some p ∧ (s.proc q).state = .ZOMBIE) →
      ¬((s.proc initproc).state = .SLEEPING ∧ (s.proc initproc).chan = some (.proc initproc))) :
    Family (s.reparent p) := by
  constructor <;> simp only [reparent_proc]
  case init => exact hs.init
  case parent =>
    intro q hq hpresent
    split
    · exact ⟨initproc, rfl, hs.init⟩
    · exact hs.parent q hq hpresent
  case other =>
    intro q hq
    split
    · exact fun h => hq (Option.some.inj h).symm
    · exact hs.other q hq
  case forking =>
    intro q np b hq
    obtain ⟨halive, hembryo, hset⟩ := hs.forking q np b hq
    refine ⟨halive, hembryo, fun hb => ?_⟩
    -- the child being made is not one of those handed over: its maker is in `fork`
    rw [if_neg]
    · exact hset hb
    · intro h
      cases Option.some.inj ((hset hb).symm.trans h)
      rw [hp] at hq
      cases hq
  case alone => exact hs.alone
  case waits =>
    intro r q hr hchan hq hzombie
    split at hq
    · rename_i hchild
      cases Option.some.inj hq
      exact hinit ⟨q, hchild, hzombie⟩ ⟨hr, hchan⟩
    · exact hs.waits r q hr hchan hq hzombie

/-- A process without children becomes a zombie while its parent is awake. -/
theorem Family.bury (hs : Family s) (hp : p ≠ initproc) (hpalive : (s.proc p).state.alive)
    (hphase : (s.proc p).phase = .user) (hchildless : ∀ q, (s.proc q).parent ≠ some p)
    (hawake : ∀ r, (s.proc p).parent = some r →
      ¬((s.proc r).state = .SLEEPING ∧ (s.proc r).chan = some (.proc r))) :
    Family (s.setState p .ZOMBIE) := by
  have hset : ∀ q, (s.setState p .ZOMBIE).proc q =
      { s.proc q with state := if q = p then .ZOMBIE else (s.proc q).state } := by
    intro q
    rw [Table.setState, s.set_proc]
    split
    · rename_i heq
      rw [heq]
    · rfl
  constructor <;> simp only [hset]
  case init =>
    rw [if_neg hp.symm]
    exact hs.init
  case parent =>
    intro q hq hpresent
    have hpresent' : (s.proc q).state.alive ∨ (s.proc q).state = .ZOMBIE := by
      split at hpresent
      · rename_i heq
        exact .inl (heq ▸ hpalive)
      · exact hpresent
    obtain ⟨r, hr, hralive⟩ := hs.parent q hq hpresent'
    refine ⟨r, hr, ?_⟩
    rw [if_neg]
    · exact hralive
    · rintro rfl
      exact hchildless q hr
  case other => exact hs.other
  case forking =>
    intro q np b hq
    obtain ⟨halive, hembryo, hset⟩ := hs.forking q np b hq
    have hqp : q ≠ p := by
      rintro rfl
      rw [hphase] at hq
      cases hq
    have hnp : np ≠ p := by
      rintro rfl
      rw [hembryo] at hpalive
      cases hpalive
    rw [if_neg hqp, if_neg hnp]
    exact ⟨halive, hembryo, hset⟩
  case alone => exact hs.alone
  case waits =>
    intro r q hr hchan hq
    split at hr
    · cases hr
    · split
      · rename_i heq
        exact absurd ⟨hr, hchan⟩ (hawake r (heq ▸ hq))
      · exact hs.waits r q hr hchan hq

theorem not_asleep_wakeup1 (s : Table) (c : Option Chan) (q : PPtr) :
    ¬(((s.wakeup1 c).proc q).state = .SLEEPING ∧ ((s.wakeup1 c).proc q).chan = c) := by
  rw [wakeup1_proc]
  rintro ⟨hstate, hchan⟩
  dsimp only at hstate hchan
  split at hstate
  · cases hstate
  · rename_i hnot
    exact hnot ⟨hstate, hchan⟩

/-- Waking `init` before the children are handed over comes to the same. -/
theorem exit_eq (s : Table) (p : PPtr) : ∃ s₂, s.exit p = (s₂.reparent p).setState p .ZOMBIE ∧
    Stirs (s.wakeup1 ((s.proc p).parent.map .proc)) s₂ ∧
      ((∃ q, (s₂.proc q).parent = some p ∧ (s₂.proc q).state = .ZOMBIE) →
        ¬((s₂.proc initproc).state = .SLEEPING ∧ (s₂.proc initproc).chan = some (.proc initproc))) := by
  rw [Table.exit]
  split
  · refine ⟨_, ?_, Stirs.wakeup1 _ (some (.proc initproc)), fun _ => ?_⟩
    · rw [wakeup1_reparent]
    · exact not_asleep_wakeup1 _ _ initproc
  · rename_i hnone
    exact ⟨_, rfl, .refl _, fun h => absurd h hnone⟩

section

variable (hs : Family s)

include hs

theorem Family.exit (hp : p ≠ initproc) (hrun : (s.proc p).state = .RUNNING)
    (hphase : (s.proc p).phase = .user) : Family (s.exit p) := by
  obtain ⟨s₂, hs₂, hstir, hinit⟩ := exit_eq s p
  have hwake := Stirs.wakeup1 s ((s.proc p).parent.map .proc)
  have hphase₂ : (s₂.proc p).phase = .user := (hstir.phase p).trans ((hwake.phase p).trans hphase)
  have hparent₂ : (s₂.proc p).parent = (s.proc p).parent := (hstir.parent p).trans (hwake.parent p)
  rw [hs₂]
  refine (((hs.stir hwake).stir hstir).reparent hphase₂ hinit).bury hp ?_ ?_ ?_ ?_
  · rw [reparent_proc]
    show (s₂.proc p).state.alive
    rw [hstir.alive, hwake.alive, hrun]
    rfl
  · rw [reparent_proc]
    exact hphase₂
  · intro q
    rw [reparent_proc]
    dsimp only
    split
    · exact fun h => hp (Option.some.inj h).symm
    · assumption
  · intro r hr
    rw [reparent_proc] at hr ⊢
    dsimp only at hr ⊢
    rw [hparent₂, if_neg (hs.other p hp)] at hr
    rintro ⟨hasleep, hchan⟩
    refine not_asleep_wakeup1 s ((s.proc p).parent.map .proc) r ?_
    rw [hr]
    have := hstir.asleep r r hasleep hchan
    rwa [hr] at this

/-! The loop of `wait`. -/

theorem Family.wait (hrun : (s.proc p).state = .RUNNING) : Family (s.wait p) := by
  rw [Table.wait]
  split
  case h_1 q hreap =>
    obtain ⟨-, hzombie⟩ := waitResult_reap hreap
    have hdead : (s.proc q).state.alive = false := by rw [hzombie]; rfl
    have hs₁ : Family (s.set q { s.proc q with
        state := .UNUSED, pid := 0, parent := none, killed := false }) := by
      refine hs.remake hdead (fun h => by cases h) (fun m b hm => ?_) (fun h => by cases h) (fun h => by cases h)
        (fun h => by cases h) (fun r b hr => ?_)
      · have halive := (hs.forking q m b hm).1
        rw [hdead] at halive
        cases halive
      · have hembryo := (hs.forking r q b hr).2.1
        rw [hzombie] at hembryo
        cases hembryo
    have hs₂ : Family (s.reap q p) := ⟨hs₁.init, hs₁.parent, hs₁.other, hs₁.forking, hs₁.alone, hs₁.waits⟩
    exact hs₂.setPhase (fun np b h => by cases h)
  case h_2 hfail => exact hs.setPhase (fun np b h => by cases h)
  case h_3 hsleep =>
    have hs₁ : Family (s.set p { s.proc p with state := .SLEEPING, chan := some (.proc p) }) := by
      refine hs.move (.set rfl rfl (.inr ⟨rfl, by rw [hrun]; rfl⟩)) ?_
      intro q r hasleep hchan
      rw [s.set_proc] at hasleep hchan
      split at hasleep
      · rename_i heq
        exact heq ▸ waitResult_sleep hsleep r
      · rename_i hne
        rw [if_neg hne] at hchan
        exact hs.waits q r hasleep hchan
    exact hs₁.setPhase (fun np b h => by cases h)

/-! `fork`. -/

theorem Family.allocproc (hrun : (s.proc p).state = .RUNNING) : Family (s.allocproc p) := by
  rw [Table.allocproc]
  split
  · exact hs
  · rename_i np hfind
    have hfound := List.find?_some hfind
    have hunused : (s.proc np).state = .UNUSED := of_decide_eq_true hfound
    have hdead : (s.proc np).state.alive = false := by rw [hunused]; rfl
    have hfree : ∀ r b, (s.proc r).phase ≠ .forking np b := by
      intro r b hr
      have hembryo := (hs.forking r np b hr).2.1
      rw [hunused] at hembryo
      cases hembryo
    have hs₁ : Family (s.set np { s.proc np with
        state := .EMBRYO, pid := s.nextpid, born := s.births, struck := false }) := by
      refine hs.remake hdead ?_ (fun m b hm => ?_) (fun h => by cases h) (fun h => by cases h)
        (fun h => by cases h) (fun r b hr => absurd hr (hfree r b))
      · refine hs.other np ?_
        rintro rfl
        rw [hs.init] at hdead
        cases hdead
      · have halive := (hs.forking np m b hm).1
        rw [hdead] at halive
        cases halive
    have hs₂ : Family (s.embryo np) := ⟨hs₁.init, hs₁.parent, hs₁.other, hs₁.forking, hs₁.alone, hs₁.waits⟩
    refine hs₂.setPhase ?_
    intro m b hm
    cases hm
    refine ⟨?_, ?_, ?_, ?_⟩
    · rw [embryo_proc, if_neg, hrun]
      · rfl
      · rintro rfl
        rw [hrun] at hunused
        cases hunused
    · rw [embryo_proc, if_pos rfl]
    · intro h
      cases h
    · intro p' b' hp'
      rw [embryo_proc] at hp'
      split at hp'
      · exact absurd hp' (hfree np b')
      · exact absurd hp' (hfree p' b')

/-- The child being made, once its maker has let go of it or before: nobody else is making it. -/
theorem Family.embryo {b : Bool} (hphase : (s.proc p).phase = .forking np b) :
    (s.proc np).state.alive = false ∧ np ≠ initproc ∧ (∀ m b', (s.proc np).phase ≠ .forking m b') ∧
      np ≠ p := by
  obtain ⟨halive, hembryo, -⟩ := hs.forking p np b hphase
  have hdead : (s.proc np).state.alive = false := by rw [hembryo]; rfl
  refine ⟨hdead, ?_, fun m b' hm => ?_, ?_⟩
  · rintro rfl
    rw [hs.init] at hdead
    cases hdead
  · rw [(hs.forking np m b' hm).1] at hdead
    cases hdead
  · rintro rfl
    rw [halive] at hdead
    cases hdead

theorem Family.forkFails (hphase : (s.proc p).phase = .forking np false) :
    Family ((s.setPhase p .user).setState np .UNUSED) := by
  obtain ⟨hdead, hinit, hnot, hne⟩ := hs.embryo hphase
  have hs₁ : Family (s.setPhase p .user) := hs.setPhase fun _ _ h => by cases h
  refine hs₁.remake ?_ (hs₁.other np hinit) ?_ (fun h => by cases h) (fun h => by cases h)
    (fun h => by cases h) ?_
  · rw [setPhase_proc]
    exact hdead
  · rw [setPhase_proc]
    simp only [if_neg hne]
    exact hnot
  · intro r b hr
    rw [setPhase_proc] at hr
    dsimp only at hr
    split at hr
    · cases hr
    · rename_i hrp
      exact absurd (hs.alone r p np b false hr hphase) hrp

theorem Family.forkParent (hphase : (s.proc p).phase = .forking np false) :
    Family ((s.set np { s.proc np with parent := some p }).setPhase p (.forking np true)) := by
  obtain ⟨hdead, -, hnot, hne⟩ := hs.embryo hphase
  obtain ⟨halive, hembryo, -⟩ := hs.forking p np false hphase
  have hmaker : ∀ r b, (s.proc r).phase = .forking np b → r = p := fun r b hr =>
    hs.alone r p np b false hr hphase
  have hs₁ : Family (s.set np { s.proc np with parent := some p }) := by
    refine hs.remake hdead (fun h => hne (Option.some.inj h).symm) hnot ?_ ?_ ?_ ?_
    · exact fun h => by cases hembryo.symm.trans h
    · exact fun h => by cases hembryo.symm.trans h
    · exact fun _ => ⟨p, rfl, halive⟩
    · exact fun r b hr => ⟨hembryo, fun _ => congrArg some (hmaker r b hr).symm⟩
  refine hs₁.setPhase ?_
  intro m b hm
  cases hm
  refine ⟨?_, ?_, fun _ => ?_, ?_⟩
  · rw [s.set_proc, if_neg hne.symm]
    exact halive
  · rw [s.set_proc, if_pos rfl]
    exact hembryo
  · rw [s.set_proc, if_pos rfl]
  · intro r b hr
    rw [s.set_proc] at hr
    split at hr
    · exact absurd hr (hnot np b)
    · exact hmaker r b hr

theorem Family.forkDone (hphase : (s.proc p).phase = .forking np true) :
    Family ((s.setPhase p .user).set np { s.proc np with state := .RUNNABLE, phase := .user }) := by
  obtain ⟨hdead, hinit, -, -⟩ := hs.embryo hphase
  obtain ⟨halive, -, hparent⟩ := hs.forking p np true hphase
  have hs₁ : Family (s.setPhase p .user) := hs.setPhase fun _ _ h => by cases h
  refine hs₁.remake ?_ (hs.other np hinit) (fun _ _ h => by cases h) (fun h => by cases h)
    (fun h => by cases h) (fun _ => ⟨p, hparent rfl, ?_⟩) ?_
  · rw [setPhase_proc]
    exact hdead
  · rw [setPhase_proc]
    exact halive
  · intro r b hr
    rw [setPhase_proc] at hr
    dsimp only at hr
    split at hr
    · cases hr
    · rename_i hrp
      exact absurd (hs.alone r p np b true hr hphase) hrp

theorem Family.step (hstep : s.step e = .ok s') : Family s' := by
  have halive : ∀ {p}, (s.proc p).state = .RUNNING → (s.proc p).state.alive := by
    intro p hrun
    rw [hrun]
    rfl
  cases takes_of_step hstep with
  | stay => exact hs
  | run hrunnable =>
    refine hs.stir (.set rfl rfl (.inr ⟨rfl, by rw [hrunnable]; rfl⟩) ?_)
    exact fun r h => by cases h
  | yield hrun => exact hs.stir (.set rfl rfl (.inr ⟨rfl, halive hrun⟩) fun r h => by cases h)
  | allocproc hrun => exact hs.allocproc hrun
  | forkFails hphase => exact hs.forkFails hphase
  | forkParent hphase => exact hs.forkParent hphase
  | forkDone hphase => exact hs.forkDone hphase
  | exit hp hrun hphase => exact hs.exit hp hrun hphase
  | wait hrun => exact hs.wait hrun
  | sleep addr hrun => exact hs.stir (.set rfl rfl (.inr ⟨rfl, halive hrun⟩) fun r _ h => by cases h)
  | wakeup addr => exact hs.stir (.wakeup1 s _)
  | kill hfind =>
    refine hs.stir (.set rfl rfl ?_ fun r h _ => ?_)
    · dsimp only
      split
      · rename_i hasleep
        exact .inr ⟨rfl, by rw [hasleep]; rfl⟩
      · exact .inl rfl
    · dsimp only at h
      split at h
      · cases h
      · contradiction
  | fatal hrun => exact hs.stir (.set rfl rfl (.inl rfl) fun r h₁ h₂ => ⟨h₁, h₂⟩)

end

theorem boot_quiet (p : PPtr) : (Table.boot.proc p).parent = none ∧ (Table.boot.proc p).phase = .user ∧
    (Table.boot.proc p).state ≠ .SLEEPING := by
  rw [Table.boot]
  dsimp only
  split <;> exact ⟨rfl, rfl, fun h => by cases h⟩

theorem family_boot : Family Table.boot where
  init := rfl
  parent p hp hpresent := by
    rw [boot_proc hp] at hpresent
    rcases hpresent with h | h <;> cases h
  other p _ h := by cases (boot_quiet p).1.symm.trans h
  forking p np b h := by cases (boot_quiet p).2.1.symm.trans h
  alone p p' np b b' h := by cases (boot_quiet p).2.1.symm.trans h
  waits p q h := absurd h (boot_quiet p).2.2

/-! ### Reaping -/

/-- A step that makes and reaps no process, and leaves zombies what they are. -/
structure Calm (s s' : Table) : Prop where
  births : s'.births = s.births
  reaped : s'.reaped = s.reaped
  born : ∀ q, (s'.proc q).born = (s.proc q).born
  used : ∀ q, (s.proc q).state = .UNUSED → (s'.proc q).state = .UNUSED
  zombie : ∀ q, (s.proc q).state = .ZOMBIE → (s'.proc q).state = .ZOMBIE

theorem Calm.refl (s : Table) : Calm s s := ⟨rfl, rfl, fun _ => rfl, fun _ h => h, fun _ h => h⟩

theorem Calm.trans {s₁ s₂ s₃ : Table} (h : Calm s₁ s₂) (h' : Calm s₂ s₃) : Calm s₁ s₃ where
  births := h'.births.trans h.births
  reaped := h'.reaped.trans h.reaped
  born q := (h'.born q).trans (h.born q)
  used q hq := h'.used q (h.used q hq)
  zombie q hq := h'.zombie q (h.zombie q hq)

theorem Calm.set (hborn : x.born = (s.proc p).born)
    (hstate : x.state = (s.proc p).state ∨ (s.proc p).state ≠ .UNUSED ∧ (s.proc p).state ≠ .ZOMBIE) :
    Calm s (s.set p x) := by
  refine ⟨rfl, rfl, fun q => ?_, fun q hq => ?_, fun q hq => ?_⟩ <;> rw [s.set_proc] <;> split
  case isTrue heq => exact heq ▸ hborn
  case isFalse => rfl
  case isTrue heq =>
    rw [heq] at hq
    rcases hstate with h | h
    · exact h.trans hq
    · exact absurd hq h.1
  case isFalse => exact hq
  case isTrue heq =>
    rw [heq] at hq
    rcases hstate with h | h
    · exact h.trans hq
    · exact absurd hq h.2
  case isFalse => exact hq

theorem Calm.setPhase (s : Table) (p : PPtr) (ph : Phase) : Calm s (s.setPhase p ph) := .set rfl (.inl rfl)

theorem Calm.wakeup1 (s : Table) (c : Option Chan) : Calm s (s.wakeup1 c) := by
  refine ⟨rfl, rfl, fun q => ?_, fun q hq => ?_, fun q hq => ?_⟩ <;> rw [wakeup1_proc]
  · dsimp only
    rw [if_neg fun h => by rw [hq] at h; cases h.1]
    exact hq
  · dsimp only
    rw [if_neg fun h => by rw [hq] at h; cases h.1]
    exact hq

theorem Calm.reparent (s : Table) (p : PPtr) : Calm s (s.reparent p) := by
  refine ⟨rfl, rfl, fun q => ?_, fun q hq => ?_, fun q hq => ?_⟩ <;> rw [reparent_proc]
  · exact hq
  · exact hq

theorem Calm.exit (hrun : (s.proc p).state = .RUNNING) : Calm s (s.exit p) := by
  have hwake : ∀ (t : Table) c, (t.proc p).state = .RUNNING → ((t.wakeup1 c).proc p).state = .RUNNING := by
    intro t c ht
    rw [wakeup1_proc]
    dsimp only
    rw [if_neg fun h => by rw [ht] at h; cases h.1]
    exact ht
  have hbury : ∀ t : Table, (t.proc p).state = .RUNNING → Calm t (t.setState p .ZOMBIE) := by
    intro t ht
    refine .set rfl (.inr ?_)
    rw [ht]
    decide
  have hrun₁ := hwake s ((s.proc p).parent.map .proc) hrun
  have hrun₂ : (((s.wakeup1 ((s.proc p).parent.map .proc)).reparent p).proc p).state = .RUNNING := by
    rw [reparent_proc]
    exact hrun₁
  refine (Calm.wakeup1 s ((s.proc p).parent.map .proc)).trans ((Calm.reparent _ p).trans ?_)
  rw [Table.exit]
  split
  · exact (Calm.wakeup1 _ _).trans (hbury _ (hwake _ _ hrun₂))
  · exact hbury _ hrun₂

/-- Only `allocproc` makes a process and only `wait` reaps one. -/
theorem step_cases (hs : Family s) (hstep : s.step e = .ok s') :
    Calm s s' ∨ (∃ p, s' = s.allocproc p) ∨
      ∃ p q, e = .wait p ∧ s.waitResult p = .reap q ∧ s' = s.wait p := by
  have hlive : ∀ {p st}, (s.proc p).state = st → st ≠ .UNUSED ∧ st ≠ .ZOMBIE →
      (s.proc p).state ≠ .UNUSED ∧ (s.proc p).state ≠ .ZOMBIE := fun h hst => h ▸ hst
  cases takes_of_step hstep with
  | stay => exact .inl (.refl s)
  | run h => exact .inl (.set rfl (.inr (hlive h (by decide))))
  | yield h => exact .inl (.set rfl (.inr (hlive h (by decide))))
  | @allocproc p => exact .inr (.inl ⟨p, rfl⟩)
  | @forkFails p np hphase =>
    refine .inl ((Calm.setPhase s p .user).trans (.set rfl (.inr ?_)))
    rw [setPhase_proc]
    exact hlive (hs.forking p np false hphase).2.1 (by decide)
  | @forkParent p np hphase =>
    refine .inl (Calm.trans ?_ (Calm.setPhase _ p _))
    exact .set rfl (.inl rfl)
  | @forkDone p np hphase =>
    refine .inl ((Calm.setPhase s p .user).trans (.set ?_ (.inr ?_))) <;> rw [setPhase_proc]
    exact hlive (hs.forking p np true hphase).2.1 (by decide)
  | exit _ hrun => exact .inl (.exit hrun)
  | @wait p h =>
    cases hresult : s.waitResult p with
    | reap q => exact .inr (.inr ⟨p, q, rfl, hresult, rfl⟩)
    | fail =>
      rw [Table.wait, hresult]
      exact .inl (.setPhase s p .user)
    | sleep =>
      rw [Table.wait, hresult]
      refine .inl (Calm.trans ?_ (.setPhase _ p .waiting))
      exact .set rfl (.inr (hlive h (by decide)))
  | sleep addr h => exact .inl (.set rfl (.inr (hlive h (by decide))))
  | wakeup addr => exact .inl (.wakeup1 s _)
  | kill hfind =>
    refine .inl (.set rfl ?_)
    dsimp only
    split
    · rename_i h
      exact .inr (hlive h (by decide))
    · exact .inl rfl
  | fatal => exact .inl (.set rfl (.inl rfl))

/-- The processes in the table and the reaped ones were made by different calls of `allocproc`. -/
structure Births (s : Table) : Prop where
  made : ∀ q, (s.proc q).state ≠ .UNUSED → (s.proc q).born < s.births
  once : ∀ q q', (s.proc q).state ≠ .UNUSED → (s.proc q').state ≠ .UNUSED →
    (s.proc q).born = (s.proc q').born → q = q'
  past : ∀ b ∈ s.reaped.map Prod.fst, b < s.births ∧ ∀ q, (s.proc q).state ≠ .UNUSED → (s.proc q).born ≠ b
  nodup : (s.reaped.map Prod.fst).Nodup

theorem Births.calm (hs : Births s) (h : Calm s s') : Births s' := by
  have hused : ∀ q, (s'.proc q).state ≠ .UNUSED → (s.proc q).state ≠ .UNUSED := fun q hq hq' =>
    hq (h.used q hq')
  constructor <;> simp only [h.births, h.reaped, h.born]
  · exact fun q hq => hs.made q (hused q hq)
  · exact fun q q' hq hq' => hs.once q q' (hused q hq) (hused q' hq')
  · exact fun b hb => ⟨(hs.past b hb).1, fun q hq => (hs.past b hb).2 q (hused q hq)⟩
  · exact hs.nodup

theorem Births.allocproc (hs : Births s) : Births (s.allocproc p) := by
  rw [Table.allocproc]
  split
  · exact hs
  · rename_i np hfind
    have hfound := List.find?_some hfind
    have hunused : (s.proc np).state = .UNUSED := of_decide_eq_true hfound
    have hnew : Births (s.embryo np) := by
      refine ⟨?_, ?_, ?_, hs.nodup⟩ <;> simp only [embryo_proc]
      · intro q hq
        split at hq
        · rename_i heq
          rw [if_pos heq]
          exact Nat.lt_succ_self _
        · rename_i hne
          rw [if_neg hne]
          exact Nat.lt_succ_of_lt (hs.made q hq)
      · intro q q' hq hq' hborn
        split at hq <;> split at hq'
        · rename_i heq heq'
          exact heq.trans heq'.symm
        · rename_i heq hne'
          rw [if_pos heq, if_neg hne'] at hborn
          exact absurd hborn.symm (Nat.ne_of_lt (hs.made q' hq'))
        · rename_i hne heq'
          rw [if_neg hne, if_pos heq'] at hborn
          exact absurd hborn (Nat.ne_of_lt (hs.made q hq))
        · rename_i hne hne'
          rw [if_neg hne, if_neg hne'] at hborn
          exact hs.once q q' hq hq' hborn
      · intro b hb
        obtain ⟨hlt, hnot⟩ := hs.past b hb
        refine ⟨Nat.lt_succ_of_lt hlt, fun q hq => ?_⟩
        split at hq
        · rename_i heq
          rw [if_pos heq]
          exact (Nat.ne_of_lt hlt).symm
        · rename_i hne
          rw [if_neg hne]
          exact hnot q hq
    exact hnew.calm (.setPhase _ p _)

theorem Births.reap (hs : Births s) (hzombie : (s.proc q).state = .ZOMBIE) : Births (s.reap q p) := by
  have hq : (s.proc q).state ≠ .UNUSED := by
    rw [hzombie]
    decide
  have hset : ∀ r, (s.reap q p).proc r = if r = q then
      { s.proc q with state := .UNUSED, pid := 0, parent := none, killed := false } else s.proc r :=
    s.set_proc q _
  -- what is left in the table was there before, and is not `q`
  have hleft : ∀ r, ((s.reap q p).proc r).state ≠ .UNUSED →
      r ≠ q ∧ (s.reap q p).proc r = s.proc r ∧ (s.proc r).state ≠ .UNUSED := by
    intro r hr
    rw [hset] at hr ⊢
    split at hr
    · exact absurd rfl hr
    · rename_i hne
      exact ⟨hne, if_neg hne, hr⟩
  constructor
  · intro r hr
    obtain ⟨-, heq, hr⟩ := hleft r hr
    rw [heq]
    exact hs.made r hr
  · intro r r' hr hr' hborn
    obtain ⟨-, heq, hr⟩ := hleft r hr
    obtain ⟨-, heq', hr'⟩ := hleft r' hr'
    rw [heq, heq'] at hborn
    exact hs.once r r' hr hr' hborn
  · intro b hb
    rcases List.mem_cons.1 hb with rfl | hb
    · refine ⟨hs.made q hq, fun r hr hborn => ?_⟩
      obtain ⟨hne, heq, hr⟩ := hleft r hr
      rw [heq] at hborn
      exact hne (hs.once r q hr hq hborn)
    · refine ⟨(hs.past b hb).1, fun r hr => ?_⟩
      obtain ⟨-, heq, hr⟩ := hleft r hr
      rw [heq]
      exact (hs.past b hb).2 r hr
  · refine List.nodup_cons.2 ⟨fun hmem => ?_, hs.nodup⟩
    exact (hs.past _ hmem).2 q hq rfl

theorem births_boot : Births Table.boot where
  made p hp := by
    rw [Table.boot]
    dsimp only
    split <;> exact Nat.zero_lt_one
  once p q hp hq _ := by
    have hinit : ∀ p, (Table.boot.proc p).state ≠ .UNUSED → p = initproc := by
      intro p hp
      by_contra hne
      rw [boot_proc hne] at hp
      exact hp rfl
    rw [hinit p hp, hinit q hq]
  past b hb := by cases hb
  nodup := .nil

theorem Births.step (hs : Births s) (hfamily : Family s) (hstep : s.step e = .ok s') :
    Births s' := by
  rcases step_cases hfamily hstep with hcalm | ⟨p, rfl⟩ | ⟨p, q, -, hreap, rfl⟩
  · exact hs.calm hcalm
  · exact hs.allocproc
  · rw [wait_reap hreap]
    exact (hs.reap (waitResult_reap hreap).2).calm (.setPhase _ p .user)

theorem step_zombie (hs : Family s) (hstep : s.step e = .ok s')
    (hq : (s.proc q).state = .ZOMBIE) (hq' : (s'.proc q).state ≠ .ZOMBIE) :
    ∃ p, e = .wait p ∧ (s.proc q).parent = some p ∧ (s'.proc q).state = .UNUSED ∧
      s'.reaped = ((s.proc q).born, p) :: s.reaped := by
  rcases step_cases hs hstep with hcalm | ⟨p, rfl⟩ | ⟨p, q', rfl, hreap, rfl⟩
  · exact absurd (hcalm.zombie q hq) hq'
  · refine absurd ?_ hq'
    rw [Table.allocproc]
    split
    · exact hq
    · rename_i np hfind
      have hfound := List.find?_some hfind
      rw [setPhase_proc, embryo_proc, if_neg]
      · exact hq
      · rintro rfl
        rw [hq] at hfound
        cases hfound
  · rw [wait_reap hreap] at hq' ⊢
    have hset : ((s.reap q' p).setPhase p .user).proc q = _ := setPhase_proc _ p .user q
    have hproc : (s.reap q' p).proc q = _ := s.set_proc q' _ q
    rw [hset, hproc] at hq' ⊢
    split at hq'
    · rename_i heq
      subst heq
      rw [if_pos rfl]
      exact ⟨p, rfl, (waitResult_reap hreap).1, rfl, rfl⟩
    · exact absurd hq hq'

/-- `exit` and `wait` never lose a child: in every state that any interleaving reaches, a process that is
there has a living parent, nobody waits who has a zombie child, every zombie is reaped at most once and by
its parent, and `wait` fails only for a process without children or a killed one. -/
theorem exit_wait_keep_children {es : List Event} {s : Table} (hrun : Run.run Table.step es .boot = .ok s) :
    (∀ p, p ≠ initproc → (s.proc p).state ∈ [.SLEEPING, .RUNNABLE, .RUNNING, .ZOMBIE] →
      ∃ r, (s.proc p).parent = some r ∧ (s.proc r).state ∈ [.SLEEPING, .RUNNABLE, .RUNNING]) ∧
    (∀ p q, (s.proc p).state = .SLEEPING → (s.proc p).chan = some (.proc p) →
      (s.proc q).parent = some p → (s.proc q).state ≠ .ZOMBIE) ∧
    (∀ e s' q, s.step e = .ok s' → (s.proc q).state = .ZOMBIE → (s'.proc q).state ≠ .ZOMBIE →
      ∃ p, e = .wait p ∧ (s.proc q).parent = some p ∧ (s'.proc q).state = .UNUSED ∧
        s'.reaped = ((s.proc q).born, p) :: s.reaped) ∧
    (s.reaped.map Prod.fst).Nodup ∧
    ∀ p, s.waitResult p = .fail → (∀ q, (s.proc q).parent ≠ some p) ∨ (s.proc p).killed = true := by
  let Both (s : Table) : Prop := Family s ∧ Births s
  have hone : ∀ s (e : Event) s', Both s → True → s.step e = .ok s' → Both s' := fun s e s' hs _ hstep =>
    ⟨hs.1.step hstep, hs.2.step hs.1 hstep⟩
  obtain ⟨hfamily, hbirths⟩ : Both s :=
    Run.invariant hone ⟨family_boot, births_boot⟩ (.all (fun _ _ => trivial) es _) hrun
  have halive : ∀ {st : ProcState}, st.alive ↔ st ∈ [.SLEEPING, .RUNNABLE, .RUNNING] := by
    intro st
    cases st <;> decide
  refine ⟨fun p hp hstate => ?_, hfamily.waits, fun e s' q => step_zombie hfamily, hbirths.nodup,
    fun p => waitResult_fail⟩
  have hpresent : (s.proc p).state.alive ∨ (s.proc p).state = .ZOMBIE := by
    revert hstate
    cases (s.proc p).state <;> decide
  obtain ⟨r, hr, hralive⟩ := hfamily.parent p hp hpresent
  exact ⟨r, hr, halive.1 hralive⟩

/-- A run in which `init` waits for a child it has forked. -/
theorem exit_wait_keep_children_sample : ∃ s, Run.run Table.step [.run 0, .allocproc 0, .forkParent 0,
      .forkDone 0, .wait 0, .run 1, .exit 1, .run 0, .wait 0] .boot = .ok s ∧
    s.reaped = [(1, 0)] ∧ (s.reaped.map Prod.fst).Nodup := by
  have heval : Run.endsIn (fun s => decide (s.reaped = [(1, 0)])) (Run.run Table.step [.run 0, .allocproc 0,
      .forkParent 0, .forkDone 0, .wait 0, .run 1, .exit 1, .run 0, .wait 0] .boot) = true := by
    decide +kernel
  obtain ⟨s, hrun, htest⟩ := Run.of_endsIn heval
  exact ⟨s, hrun, of_decide_eq_true htest, (exit_wait_keep_children hrun).2.2.2.1⟩

/-- A process has the number of the call of `allocproc` that made it as its pid. -/
structure Numbered (s : Table) : Prop where
  next : s.nextpid = .ofNat 32 (s.births + 1)
  pid : ∀ q, (s.proc q).state ≠ .UNUSED → (s.proc q).pid = .ofNat 32 ((s.proc q).born + 1)

section

attribute [local grind =] Table.set_proc setPhase_proc embryo_proc reparent_proc wakeup1_proc

theorem Numbered.step (hs : Numbered s) (hfamily : Family s) (hstep : s.step e = .ok s') : Numbered s' := by
  obtain ⟨hnext, hpid⟩ := hs
  cases takes_of_step hstep with
  | allocproc =>
    unfold Table.allocproc
    split
    · exact ⟨hnext, hpid⟩
    · exact ⟨(congrArg (· + 1#32) hnext).trans (BitVec.ofNat_add _ 1).symm, by grind⟩
  | @forkDone p np h =>
    have hembryo := (hfamily.forking p np true h).2.1
    exact ⟨hnext, by grind⟩
  | exit =>
    unfold Table.exit
    dsimp only
    split <;> exact ⟨hnext, by grind [Table.setState]⟩
  | @wait p =>
    have hreap : ∀ q r, (s.reap q p).proc r = _ := fun q => s.set_proc q _
    unfold Table.wait
    split <;> exact ⟨hnext, by grind⟩
  | _ => exact ⟨hnext, by grind [Table.setState]⟩

end

theorem numbered_boot : Numbered Table.boot := by
  refine ⟨rfl, fun q hq => ?_⟩
  by_cases h : q = initproc
  · rw [h]
    rfl
  · exact absurd (by rw [boot_proc h]) hq

/-- Processes have different pids, as long as `nextpid` has not come around. -/
theorem pids_distinct {es : List Event} {s : Table} (hrun : Run.run Table.step es .boot = .ok s)
    (hfew : s.births < 2 ^ 32) {p q : PPtr} (hp : (s.proc p).state ≠ .UNUSED)
    (hq : (s.proc q).state ≠ .UNUSED) (hpid : (s.proc p).pid = (s.proc q).pid) : p = q := by
  let All (s : Table) : Prop := Family s ∧ Births s ∧ Numbered s
  have hone : ∀ s (e : Event) s', All s → True → s.step e = .ok s' → All s' := fun s e s' hs _ hstep =>
    ⟨hs.1.step hstep, hs.2.1.step hs.1 hstep, hs.2.2.step hs.1 hstep⟩
  obtain ⟨-, hbirths, hnumbered⟩ : All s := Run.invariant hone ⟨family_boot, births_boot, numbered_boot⟩
    (.all (fun _ _ => trivial) es _) hrun
  have hp' := hbirths.made p hp
  have hq' := hbirths.made q hq
  rw [hnumbered.pid p hp, hnumbered.pid q hq, ← BitVec.toNat_inj, BitVec.toNat_ofNat,
    BitVec.toNat_ofNat] at hpid
  exact hbirths.once p q hp hq (by omega)

theorem pids_distinct_forked : ∃ s, Run.run Table.step [.run 0, .allocproc 0, .forkParent 0, .forkDone 0]
    .boot = .ok s ∧ (s.proc 1).state = .RUNNABLE ∧ (s.proc 0).pid ≠ (s.proc 1).pid := by
  have heval : Run.endsIn (fun s => decide (s.births = 2 ∧ (s.proc 0).state = .RUNNING ∧
      (s.proc 1).state = .RUNNABLE)) (Run.run Table.step [.run 0, .allocproc 0, .forkParent 0, .forkDone 0]
        .boot) = true := by
    decide +kernel
  obtain ⟨s, hrun, htest⟩ := Run.of_endsIn heval
  obtain ⟨hbirths, h₀, h₁⟩ := of_decide_eq_true htest
  refine ⟨s, hrun, h₁, fun hpid => ?_⟩
  exact absurd (pids_distinct hrun (by omega) (by simp [h₀]) (by simp [h₁]) hpid) (by decide)

end Xv6.Ptable
