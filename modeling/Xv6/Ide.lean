import Mathlib.Data.Fintype.Basic
import Xv6.Lib.Linked
import Xv6.Lib.Monitor
import Xv6.Machine

/-!
# The disk driver

`iderw`, `ideintr` and `idestart` of `ide.c`, for any number of processes and interrupts, with the inner steps
of `sleep` and `wakeup` (`Xv6.Lib.Monitor`): `idelock` is the lock of the monitor, `ptable.lock` the lock of
the table, and the channels are the buffers.  The disk takes one command at a time and completes it, with a
status, before it interrupts.
-/

namespace Xv6

open Monitor (Act Code)

namespace Ide

/-- A block of one of the two disks. -/
abbrev Addr := Bool × ℕ

/-- What a caller has put in the buffer it hands to `iderw`. -/
structure Request (δ : Type) where
  addr : Addr
  valid : Bool
  dirty : Bool
  data : δ
deriving DecidableEq

/-- What `idestart` has told the disk. -/
structure Command (β δ : Type) where
  buf : β
  write : Bool
  addr : Addr
  data : δ

end Ide

open Ide

/-- The queue, the buffers and the disk. -/
structure Ide (β δ : Type) where
  idequeue : Option β
  qnext : β → Option β
  addr : β → Addr
  /-- `B_VALID`. -/
  valid : β → Bool
  /-- `B_DIRTY`. -/
  dirty : β → Bool
  data : β → δ
  /-- The command the disk was given last, until its completion is handled. -/
  device : Option (Command β δ)
  disk : Addr → δ
  /-- The buffers passed to `iderw` and not completed, as they came.  Nothing reads it. -/
  pending : List β
  /-- Whether the last request for a buffer was a read.  Nothing reads it. -/
  reads : β → Bool
  /-- Whether it was completed with an error of the device.  Nothing reads it. -/
  failed : β → Bool
  /-- What the device has transferred without an error for it: the block and its content.  Nothing reads
  it. -/
  transfer : β → Option (Addr × δ)

namespace Ide

variable {β δ : Type} [DecidableEq β]

/-- Where a process or an interrupt is in the code. -/
inductive Pos (β δ : Type) where
  | iderw (b : β) (r : Request δ)
  /-- The loop of `iderw` over the queue, with the place that `pp` points to. -/
  | walk (b : β) (r : Request δ) (pp : Option β)
  | start (b : β) (r : Request δ)
  /-- The loop in which `iderw` sleeps. -/
  | wait (b : β) (r : Request δ)
  | ideintr (err : Bool)
  /-- The head of the queue is taken off it. -/
  | read (b : β) (err : Bool)
  | complete (b : β)
  | next
  | panicked (o : Option (β × Request δ))
deriving DecidableEq

/-- `b->qnext = 0` in the buffer as the caller has left it. -/
def post (st : Ide β δ) (b : β) (r : Request δ) : Ide β δ :=
  { st with
    qnext := Function.update st.qnext b none
    addr := Function.update st.addr b r.addr
    valid := Function.update st.valid b r.valid
    dirty := Function.update st.dirty b r.dirty
    data := Function.update st.data b r.data
    pending := st.pending ++ [b]
    reads := Function.update st.reads b (!r.dirty)
    failed := Function.update st.failed b false
    transfer := Function.update st.transfer b none }

/-- `*pp = b`. -/
def put (st : Ide β δ) (pp : Option β) (b : β) : Ide β δ :=
  match pp with
  | none => { st with idequeue := some b }
  | some c => { st with qnext := Function.update st.qnext c (some b) }

omit [DecidableEq β] in
def command (st : Ide β δ) (b : β) : Command β δ := ⟨b, st.dirty b, st.addr b, st.data b⟩

omit [DecidableEq β] in
/-- `idestart`; `none` is a panic. -/
def idestart (st : Ide β δ) (b : β) : Option (Ide β δ) :=
  if fssize ≤ (st.addr b).2 then none else some { st with device := some (st.command b) }

/-- The disk has completed its command, and `ideintr` reads the data of a buffer that is not dirty, unless
`idewait` reports an error. -/
def transferred (st : Ide β δ) (b : β) (err : Bool) : Ide β δ :=
  match st.device with
  | none => st
  | some c =>
    if st.dirty b then
      { st with
        device := none
        disk := if c.write ∧ err = false then Function.update st.disk c.addr c.data else st.disk }
    else if err then { st with device := none, failed := Function.update st.failed b true }
    else
      { st with
        device := none
        data := Function.update st.data b (st.disk c.addr)
        transfer := Function.update st.transfer b (some (c.addr, st.disk c.addr)) }

/-- `b->flags |= B_VALID; b->flags &= ~B_DIRTY`. -/
def completed (st : Ide β δ) (b : β) : Ide β δ :=
  { st with
    valid := Function.update st.valid b true
    dirty := Function.update st.dirty b false
    pending := st.pending.erase b }

/-- One step with `idelock` held. -/
def code {ι : Type} : Code ι (Ide β δ) β (Pos β δ)
  | _, _, st, .iderw b r => (st.post b r, .goto (.walk b r none))
  | _, _, st, .walk b r pp =>
    match Linked.get st.idequeue st.qnext pp with
    | some c => (st, .goto (.walk b r (some c)))
    | none => (st.put pp b, .goto (.start b r))
  | _, _, st, .start b r =>
    if st.idequeue = some b then
      match st.idestart b with
      | some st' => (st', .goto (.wait b r))
      | none => (st, .goto (.panicked (some (b, r))))
    else (st, .goto (.wait b r))
  | _, _, st, .wait b r =>
    if st.valid b = true ∧ st.dirty b = false then (st, .ret) else (st, .sleep b (.wait b r))
  | _, _, st, .ideintr err =>
    match st.idequeue with
    | none => (st, .ret)
    | some b => ({ st with idequeue := st.qnext b }, .goto (.read b err))
  | _, _, st, .read b err => (st.transferred b err, .goto (.complete b))
  | _, _, st, .complete b => (st.completed b, .wakeup b .next)
  | _, _, st, .next =>
    match st.idequeue with
    | none => (st, .ret)
    | some c =>
      match st.idestart c with
      | some st' => (st', .ret)
      | none => (st, .goto (.panicked none))
  | _, _, st, .panicked o => (st, .goto (.panicked o))

abbrev State (ι β δ : Type) := Monitor.State ι (Ide β δ) β (Pos β δ)

abbrev Event (ι β δ : Type) := Monitor.Event ι (Pos β δ)

section
variable {ι : Type}

/-- The buffer of a call of `iderw`. -/
def Pos.buf : Pos β δ → Option β
  | .iderw b _ | .walk b _ _ | .start b _ | .wait b _ => some b
  | .panicked o => o.map Prod.fst
  | _ => none

/-- The request of a call that has put its buffer on the queue. -/
def Pos.posted : Pos β δ → Option (β × Request δ)
  | .walk b r _ | .start b r | .wait b r => some (b, r)
  | .panicked o => o
  | _ => none

end

inductive Turn (st : Ide β δ) : Pos β δ → Ide β δ → Act β (Pos β δ) → Prop
  | post (b : β) (r : Request δ) : Turn st (.iderw b r) (st.post b r) (.goto (.walk b r none))
  | walk (b : β) (r : Request δ) {pp : Option β} {c : β} : Linked.get st.idequeue st.qnext pp = some c →
    Turn st (.walk b r pp) st (.goto (.walk b r (some c)))
  | link (b : β) (r : Request δ) {pp : Option β} : Linked.get st.idequeue st.qnext pp = none →
    Turn st (.walk b r pp) (st.put pp b) (.goto (.start b r))
  | start {b : β} (r : Request δ) : st.idequeue = some b →
    Turn st (.start b r) { st with device := some (st.command b) } (.goto (.wait b r))
  | bad {b : β} (r : Request δ) : st.idequeue = some b → Turn st (.start b r) st (.goto (.panicked (some (b, r))))
  | behind {b : β} (r : Request δ) : st.idequeue ≠ some b → Turn st (.start b r) st (.goto (.wait b r))
  | sleep {b : β} (r : Request δ) : ¬(st.valid b = true ∧ st.dirty b = false) →
    Turn st (.wait b r) st (.sleep b (.wait b r))
  | done {b : β} (r : Request δ) : st.valid b = true → st.dirty b = false → Turn st (.wait b r) st .ret
  | spurious (err : Bool) : st.idequeue = none → Turn st (.ideintr err) st .ret
  | pop {b : β} (err : Bool) : st.idequeue = some b →
    Turn st (.ideintr err) { st with idequeue := st.qnext b } (.goto (.read b err))
  | read (b : β) (err : Bool) : Turn st (.read b err) (st.transferred b err) (.goto (.complete b))
  | complete (b : β) : Turn st (.complete b) (st.completed b) (.wakeup b .next)
  | idle : st.idequeue = none → Turn st .next st .ret
  | next {c : β} : st.idequeue = some c → Turn st .next { st with device := some (st.command c) } .ret
  | badNext {c : β} : st.idequeue = some c → Turn st .next st (.goto (.panicked none))
  | panicked (o : Option (β × Request δ)) : Turn st (.panicked o) st (.goto (.panicked o))

theorem turn_of_code {ι : Type} {i : ι} {x : Bool} {st st' : Ide β δ} {k : Pos β δ} {a : Act β (Pos β δ)}
    (h : code i x st k = (st', a)) : Turn st k st' a := by
  cases k with
  | iderw b r =>
    cases h
    exact .post b r
  | walk b r pp =>
    rw [code] at h
    split at h
    case h_1 c hc =>
      cases h
      exact .walk b r hc
    case h_2 hend =>
      cases h
      exact .link b r hend
  | start b r =>
    rw [code, idestart] at h
    by_cases hhead : st.idequeue = some b
    · rw [if_pos hhead] at h
      split_ifs at h
      · cases h
        exact .bad r hhead
      · cases h
        exact .start r hhead
    · rw [if_neg hhead] at h
      cases h
      exact .behind r hhead
  | wait b r =>
    rw [code] at h
    split_ifs at h with hflags
    · cases h
      exact .done r hflags.1 hflags.2
    · cases h
      exact .sleep r hflags
  | ideintr err =>
    rw [code] at h
    split at h
    case h_1 hnone =>
      cases h
      exact .spurious err hnone
    case h_2 b hhead =>
      cases h
      exact .pop err hhead
  | read b err =>
    cases h
    exact .read b err
  | complete b =>
    cases h
    exact .complete b
  | next =>
    rw [code] at h
    split at h
    case h_1 hnone =>
      cases h
      exact .idle hnone
    case h_2 c hhead =>
      rw [idestart] at h
      split_ifs at h
      · cases h
        exact .badNext hhead
      · cases h
        exact .next hhead
  | panicked o =>
    cases h
    exact .panicked o

/-! ### The queue -/

section
omit [DecidableEq β]

/-- The buffer is to be transferred. -/
def Busy (st : Ide β δ) (b : β) : Prop :=
  ¬(st.valid b = true ∧ st.dirty b = false) ∧ st.reads b = (!st.dirty b) ∧ st.failed b = false ∧
    st.transfer b = none

/-- The data of a buffer read without an error are what the device has transferred for its block. -/
def Synced (st : Ide β δ) (b : β) : Prop :=
  st.reads b = true → (st.failed b = false ↔ st.transfer b = some (st.addr b, st.data b))

/-- The list from `idequeue` on is `queue`, and the disk is at work for `started`. -/
structure Holds (st : Ide β δ) (queue : List β) (started : Option β) : Prop where
  chain : Linked.Chain st.qnext st.idequeue queue
  nodup : st.pending.Nodup
  device : st.device = started.map st.command
  busy : ∀ b ∈ queue, st.Busy b
  synced : ∀ b, b ∉ st.pending → st.Synced b

/-- The queue holds what was passed to `iderw` and is not completed, as it came, and the disk is at work for
the first of it. -/
def Queue (st : Ide β δ) : Prop := st.Holds st.pending st.pending.head?

end

/-- What holds along the code. -/
def Track (st : Ide β δ) : Pos β δ → Prop
  | .iderw _ r => st.Queue ∧ ¬(r.valid = true ∧ r.dirty = false)
  | .walk b _ pp => ∃ l₁ l₂, st.pending = l₁ ++ l₂ ++ [b] ∧ pp = l₁.getLast? ∧ st.qnext b = none ∧ st.Busy b ∧
    st.Holds (l₁ ++ l₂) (l₁ ++ l₂).head?
  | .start b _ => ∃ l, st.pending = l ++ [b] ∧ st.Holds st.pending l.head?
  | .wait _ _ => st.Queue
  | .ideintr _ => st.Queue
  | .read b _ => ∃ l, st.pending = b :: l ∧ st.Busy b ∧ st.Holds l (some b)
  | .complete b => ∃ l, st.pending = b :: l ∧ st.Synced b ∧ st.Holds l none
  | .next => st.Holds st.pending none
  | .panicked _ => True

/-- Where calls start and go on after sleeping. -/
def Entry : Pos β δ → Prop
  | .iderw _ r => ¬(r.valid = true ∧ r.dirty = false)
  | .wait _ _ | .ideintr _ => True
  | _ => False

/-- A buffer that is passed to `iderw` is not on the queue. -/
def Fair {ι : Type} (_ : ι) (_ : Bool) (st : Ide β δ) (k : Pos β δ) : Prop := ∀ b r, k = .iderw b r → b ∉ st.pending

/-! ### One step -/

/-- The fields of a buffer are as before. -/
structure SameAt (st st' : Ide β δ) (c : β) : Prop where
  addr : st'.addr c = st.addr c
  valid : st'.valid c = st.valid c
  dirty : st'.dirty c = st.dirty c
  data : st'.data c = st.data c
  reads : st'.reads c = st.reads c
  failed : st'.failed c = st.failed c
  transfer : st'.transfer c = st.transfer c

section
variable {st st' : Ide β δ} {b c : β} {r : Request δ} {l : List β}

section
omit [DecidableEq β]

theorem SameAt.busy (h : SameAt st st' c) (hc : st.Busy c) : st'.Busy c := by
  rw [Busy, h.valid, h.dirty, h.reads, h.failed, h.transfer]
  exact hc

theorem SameAt.synced (h : SameAt st st' c) (hc : st.Synced c) : st'.Synced c := by
  rw [Synced, h.reads, h.failed, h.transfer, h.addr, h.data]
  exact hc

theorem SameAt.command (h : SameAt st st' c) : st'.command c = st.command c := by
  rw [Ide.command, h.dirty, h.addr, h.data]
  rfl

theorem map_command {o : Option β} (h : ∀ c ∈ o, SameAt st st' c) : o.map st'.command = o.map st.command :=
  Option.map_congr fun c hc => (h c hc).command

end

theorem sameAt_post (st : Ide β δ) (r : Request δ) (hc : c ≠ b) : SameAt st (st.post b r) c :=
  ⟨Function.update_of_ne hc .., Function.update_of_ne hc .., Function.update_of_ne hc ..,
    Function.update_of_ne hc .., Function.update_of_ne hc .., Function.update_of_ne hc ..,
    Function.update_of_ne hc ..⟩

theorem Queue.post (h : st.Queue) (hr : ¬(r.valid = true ∧ r.dirty = false)) (hb : b ∉ st.pending) :
    Track (st.post b r) (.walk b r none) := by
  have hsame : ∀ {c}, c ∈ st.pending → SameAt st (st.post b r) c := by
    rintro c hc
    apply sameAt_post
    rintro rfl
    exact hb hc
  refine ⟨[], st.pending, rfl, rfl, Function.update_self .., ⟨?_, ?_, ?_, ?_⟩, ⟨?_, ?_, ?_, ?_, ?_⟩⟩
  · simpa [Ide.post] using hr
  · simp [Ide.post]
  · exact Function.update_self ..
  · exact Function.update_self ..
  · refine h.chain.congr fun c hc => Function.update_of_ne ?_ ..
    rintro rfl
    exact hb hc
  · change (st.pending ++ [b]).Nodup
    rw [List.nodup_append]
    refine ⟨h.nodup, by simp, fun c hc d hd => ?_⟩
    rw [List.mem_singleton.1 hd]
    rintro rfl
    exact hb hc
  · refine h.device.trans (map_command fun c hc => hsame ?_).symm
    exact List.mem_of_mem_head? hc
  · exact fun c hc => (hsame hc).busy (h.busy c hc)
  · intro c hc
    change c ∉ st.pending ++ [b] at hc
    rw [List.mem_append, List.mem_singleton, not_or] at hc
    exact (sameAt_post st r hc.2).synced (h.synced c hc.1)

omit [DecidableEq β] in
theorem Track.walk {pp : Option β} (h : Track st (.walk b r pp))
    (hc : Linked.get st.idequeue st.qnext pp = some c) : Track st (.walk b r (some c)) := by
  obtain ⟨l₁, l₂, hpending, rfl, hend, hbusy, hholds⟩ := h
  have hrest := hholds.chain.rest
  rw [hc] at hrest
  cases l₂ with
  | nil => cases hrest
  | cons d l₂ =>
    cases hrest.1
    have hlist : l₁ ++ c :: l₂ = (l₁ ++ [c]) ++ l₂ := by simp
    rw [hlist] at hpending hholds
    exact ⟨l₁ ++ [c], l₂, hpending, by simp, hend, hbusy, hholds⟩

theorem Track.link {pp : Option β} (h : Track st (.walk b r pp))
    (hc : Linked.get st.idequeue st.qnext pp = none) : Track (st.put pp b) (.start b r) := by
  obtain ⟨l₁, l₂, hpending, rfl, hend, hbusy, hholds⟩ := h
  have hrest := hholds.chain.rest
  rw [hc] at hrest
  cases l₂ with
  | cons d l₂ => cases hrest.1
  | nil =>
    rw [List.append_nil] at hpending hholds
    have hnodup := hholds.nodup
    rw [hpending, List.nodup_append] at hnodup
    have hb : b ∉ l₁ := fun hb => hnodup.2.2 b hb b (List.mem_singleton_self b) rfl
    have hall : ∀ c ∈ st.pending, st.Busy c := by
      intro c hc
      rw [hpending, List.mem_append, List.mem_singleton] at hc
      rcases hc with hc | rfl
      · exact hholds.busy c hc
      · exact hbusy
    cases hlast : l₁.getLast? with
    | none =>
      rw [List.getLast?_eq_none_iff] at hlast
      subst hlast
      refine ⟨[], hpending, ⟨?_, hholds.nodup, hholds.device, hall, hholds.synced⟩⟩
      change Linked.Chain st.qnext (some b) st.pending
      rw [hpending]
      exact ⟨rfl, hend⟩
    | some c =>
      refine ⟨l₁, hpending, ⟨?_, hholds.nodup, hholds.device, hall, hholds.synced⟩⟩
      change Linked.Chain _ st.idequeue st.pending
      rw [hpending]
      exact hholds.chain.append hlast hnodup.1 hb hend

omit [DecidableEq β] in
theorem Holds.start {o : Option β} (h : st.Holds st.pending o) (hhead : st.idequeue = some b) :
    Queue { st with device := some (st.command b) } := by
  have hfirst : st.pending.head? = some b := h.chain.head?.trans hhead
  refine ⟨h.chain, h.nodup, ?_, h.busy, h.synced⟩
  change _ = st.pending.head?.map _
  rw [hfirst]
  rfl

omit [DecidableEq β] in
theorem Track.behind (h : Track st (.start b r)) (hhead : st.idequeue ≠ some b) : st.Queue := by
  obtain ⟨l, hpending, hholds⟩ := h
  cases l with
  | nil =>
    rw [hpending] at hholds
    exact absurd hholds.chain.1 hhead
  | cons c l =>
    refine ⟨hholds.chain, hholds.nodup, ?_, hholds.busy, hholds.synced⟩
    rw [hpending]
    exact hholds.device

omit [DecidableEq β] in
theorem Queue.pop (h : st.Queue) (err : Bool) (hhead : st.idequeue = some b) :
    Track { st with idequeue := st.qnext b } (.read b err) := by
  have hfirst : st.pending.head? = some b := h.chain.head?.trans hhead
  obtain ⟨l, hpending⟩ : ∃ l, st.pending = b :: l := by
    cases hp : st.pending with
    | nil =>
      rw [hp] at hfirst
      cases hfirst
    | cons c l =>
      rw [hp] at hfirst
      cases hfirst
      exact ⟨l, rfl⟩
  have hchain := h.chain
  have hdevice := h.device
  have hbusy := h.busy
  rw [hpending] at hchain hdevice hbusy
  exact ⟨l, hpending, hbusy b List.mem_cons_self,
    ⟨hchain.2, h.nodup, hdevice, fun c hc => hbusy c (List.mem_cons_of_mem b hc), h.synced⟩⟩

theorem sameAt_transferred (st : Ide β δ) (err : Bool) (hc : c ≠ b) : SameAt st (st.transferred b err) c := by
  unfold transferred
  split
  · exact ⟨rfl, rfl, rfl, rfl, rfl, rfl, rfl⟩
  · split_ifs
    · exact ⟨rfl, rfl, rfl, rfl, rfl, rfl, rfl⟩
    · exact ⟨rfl, rfl, rfl, rfl, rfl, rfl, rfl⟩
    · exact ⟨rfl, rfl, rfl, rfl, rfl, Function.update_of_ne hc .., rfl⟩
    · exact ⟨rfl, rfl, rfl, Function.update_of_ne hc .., rfl, rfl, Function.update_of_ne hc ..⟩

/-- What a transfer does: the data of a read are those of the block, unless there was an error. -/
theorem transferred_synced (hdevice : st.device = some (st.command b)) (hbusy : st.Busy b) (err : Bool) :
    (st.transferred b err).Synced b := by
  obtain ⟨-, hreads, hfailed, htransfer⟩ := hbusy
  unfold transferred
  rw [hdevice]
  dsimp only
  by_cases hdirty : st.dirty b = true
  · rw [if_pos hdirty]
    intro hread
    change st.reads b = true at hread
    rw [hreads, hdirty] at hread
    cases hread
  · rw [if_neg hdirty]
    split_ifs
    · intro _
      simp [htransfer]
    · intro _
      simp [hfailed, command]

theorem Track.transfer {err : Bool} (h : Track st (.read b err)) :
    Track (st.transferred b err) (.complete b) := by
  obtain ⟨l, hpending, hbusy, hholds⟩ := h
  have hne : ∀ {c}, c ∈ l → c ≠ b := by
    rintro c hc rfl
    have hnodup := hholds.nodup
    rw [hpending] at hnodup
    exact (List.nodup_cons.1 hnodup).1 hc
  have hsynced := transferred_synced hholds.device hbusy err
  have hrest : (st.transferred b err).pending = st.pending ∧ (st.transferred b err).qnext = st.qnext ∧
      (st.transferred b err).idequeue = st.idequeue ∧ (st.transferred b err).device = none := by
    unfold transferred
    rw [hholds.device]
    dsimp only [Option.map]
    split_ifs
    · exact ⟨rfl, rfl, rfl, rfl⟩
    · exact ⟨rfl, rfl, rfl, rfl⟩
    · exact ⟨rfl, rfl, rfl, rfl⟩
    · exact ⟨rfl, rfl, rfl, rfl⟩
  obtain ⟨hp, hq, hi, hd⟩ := hrest
  refine ⟨l, hp.trans hpending, hsynced, ⟨?_, ?_, hd, fun c hc => ?_, fun c hc => ?_⟩⟩
  · rw [hq, hi]
    exact hholds.chain
  · rw [hp]
    exact hholds.nodup
  · exact (sameAt_transferred st err (hne hc)).busy (hholds.busy c hc)
  · rw [hp] at hc
    refine (sameAt_transferred st err ?_).synced (hholds.synced c hc)
    rintro rfl
    exact hc (hpending ▸ List.mem_cons_self)

theorem Track.finish (h : Track st (.complete b)) : Track (st.completed b) .next := by
  obtain ⟨l, hpending, hsynced, hholds⟩ := h
  have hnodup := hholds.nodup
  rw [hpending] at hnodup
  obtain ⟨hb, hl⟩ := List.nodup_cons.1 hnodup
  have hp : (st.completed b).pending = l := by
    change st.pending.erase b = l
    rw [hpending, List.erase_cons_head]
  have hsame : ∀ {c}, c ≠ b → SameAt st (st.completed b) c := fun hc =>
    ⟨rfl, Function.update_of_ne hc .., Function.update_of_ne hc .., rfl, rfl, rfl, rfl⟩
  refine ⟨?_, ?_, hholds.device, fun c hc => ?_, fun c hc => ?_⟩
  · rw [hp]
    exact hholds.chain
  · rw [hp]
    exact hl
  · rw [hp] at hc
    refine (hsame ?_).busy (hholds.busy c hc)
    rintro rfl
    exact hb hc
  · rw [hp] at hc
    by_cases hcb : c = b
    · rw [hcb]
      exact hsynced
    · refine (hsame hcb).synced (hholds.synced c ?_)
      rw [hpending, List.mem_cons, not_or]
      exact ⟨hcb, hc⟩

omit [DecidableEq β] in
theorem Track.rest (h : Track st .next) (hnone : st.idequeue = none) : st.Queue := by
  have hhead : st.pending.head? = none := h.chain.head?.trans hnone
  refine ⟨h.chain, h.nodup, ?_, h.busy, h.synced⟩
  rw [hhead]
  exact h.device

theorem keeps {ι : Type} : Monitor.Keeps (code : Code ι (Ide β δ) β (Pos β δ)) Entry Fair Queue Track where
  enter {st k} hqueue hentry := by
    cases k with
    | iderw b r => exact ⟨hqueue, hentry⟩
    | wait b r => exact hqueue
    | ideintr err => exact hqueue
    | _ => cases hentry
  goto htrack hfair hcode := by
    cases turn_of_code hcode with
    | post b r => exact htrack.1.post htrack.2 (hfair b r rfl)
    | walk b r hc => exact htrack.walk hc
    | link b r hend => exact htrack.link hend
    | start r hhead =>
      obtain ⟨l, -, hholds⟩ := htrack
      exact hholds.start hhead
    | behind r hhead => exact htrack.behind hhead
    | pop err hhead => exact Queue.pop htrack err hhead
    | read b err => exact htrack.transfer
    | bad | badNext | panicked => trivial
  wakeup htrack _ hcode := by
    cases turn_of_code hcode with
    | complete b => exact htrack.finish
  sleep htrack _ hcode := by
    cases turn_of_code hcode with
    | sleep r hflags => exact ⟨htrack, trivial⟩
  ret htrack _ hcode := by
    cases turn_of_code hcode with
    | done r hvalid hdirty => exact htrack
    | spurious err hnone => exact htrack
    | idle hnone => exact htrack.rest hnone
    | next hhead => exact Holds.start htrack hhead

end

/-! ### The calls -/

section
variable {ι : Type} [DecidableEq ι] {s t : State ι β δ} {e : Event ι β δ}

def step (s : State ι β δ) (e : Event ι β δ) : Except Halt (State ι β δ) := .ok (s.next code e)

/-- No call open, and nothing asked of the disk. -/
def start (ι : Type) (st : Ide β δ) : State ι β δ where
  shared := { st with
    idequeue := none, device := none, pending := [], reads := fun _ => false, failed := fun _ => false }
  lock := none
  table := none
  phase := fun _ => .out
  killed := fun _ => false

/-- The calls: `iderw` for a buffer that no other call has and that is to be written or read, and interrupts,
which find the command of the disk completed. -/
def Called (s : State ι β δ) : Event ι β δ → Prop
  | .call _ (.iderw b r) =>
    ¬(r.valid = true ∧ r.dirty = false) ∧ ∀ j, (s.phase j).pos.bind Pos.buf ≠ some b
  | .call _ (.ideintr _) => True
  | .call _ _ => False
  | _ => True

instance [Fintype ι] (s : State ι β δ) (e : Event ι β δ) : Decidable (Called s e) :=
  match e with
  | .call _ (.iderw b r) => inferInstanceAs (Decidable
      (¬(r.valid = true ∧ r.dirty = false) ∧ ∀ j, (s.phase j).pos.bind Pos.buf ≠ some b))
  | .call _ (.ideintr _) | .step _ | .kill _ | .take | .give => .isTrue trivial
  | .call _ (.walk ..) | .call _ (.start ..) | .call _ (.wait ..) | .call _ (.read ..)
  | .call _ (.complete ..) | .call _ .next | .call _ (.panicked ..) => .isFalse id

/-- What the calls have put in the shared state. -/
structure Calls (s : State ι β δ) : Prop where
  distinct : ∀ i j k k' b, (s.phase i).pos = some k → (s.phase j).pos = some k' → k.buf = some b →
    k'.buf = some b → i = j
  queued : ∀ b ∈ s.shared.pending, ∃ i k r, (s.phase i).pos = some k ∧ k.posted = some (b, r)
  request : ∀ i k b r, (s.phase i).pos = some k → k.posted = some (b, r) →
    s.shared.addr b = r.addr ∧ s.shared.reads b = !r.dirty

section
omit [DecidableEq β]

theorem Pos.buf_of_posted {k : Pos β δ} {b : β} {r : Request δ} (h : k.posted = some (b, r)) :
    k.buf = some b := by
  cases k with
  | walk | start | wait =>
    cases h
    rfl
  | panicked o =>
    change o = _ at h
    rw [h]
    rfl
  | _ => cases h

end

section
variable {st st' : Ide β δ} {k : Pos β δ} {a : Act β (Pos β δ)} {b : β} {r : Request δ}

section

variable (h : Turn st k st' a)

include h

theorem Turn.buf {k' : Pos β δ} (hk' : a.target = some k') : k'.buf = k.buf := by
  cases h <;> cases hk' <;> rfl

theorem Turn.pending (hb : b ∈ st'.pending) :
    b ∈ st.pending ∨ ∃ r, k = .iderw b r ∧ a = .goto (.walk b r none) := by
  cases h with
  | post c r =>
    rcases List.mem_append.1 hb with hb | hb
    · exact .inl hb
    · rw [List.mem_singleton.1 hb]
      exact .inr ⟨r, rfl, rfl⟩
  | @link c r pp hend =>
    cases pp with
    | none => exact .inl hb
    | some d => exact .inl hb
  | read c err =>
    left
    revert hb
    unfold transferred
    split
    · exact id
    · split_ifs <;> exact id
  | complete c => exact .inl (List.mem_of_mem_erase hb)
  | _ => exact .inl hb

/-- A call keeps its request until it returns, with the flags as it waits for them. -/
theorem Turn.posted (hk : k.posted = some (b, r)) : (∃ k', a.target = some k' ∧ k'.posted = some (b, r)) ∨
      k = .wait b r ∧ st.valid b = true ∧ st.dirty b = false := by
  cases h with
  | walk | link | start | behind | bad | sleep | panicked => exact .inl ⟨_, rfl, hk⟩
  | done r' hvalid hdirty =>
    cases hk
    exact .inr ⟨rfl, hvalid, hdirty⟩
  | _ => cases hk

theorem Turn.request (hb : ∀ r, k ≠ .iderw b r) : st'.addr b = st.addr b ∧ st'.reads b = st.reads b := by
  cases h with
  | post c r =>
    have hne : b ≠ c := by
      rintro rfl
      exact hb r rfl
    exact ⟨Function.update_of_ne hne .., Function.update_of_ne hne ..⟩
  | @link c r pp hend =>
    cases pp with
    | none => exact ⟨rfl, rfl⟩
    | some d => exact ⟨rfl, rfl⟩
  | read c err =>
    unfold transferred
    split
    · exact ⟨rfl, rfl⟩
    · split_ifs <;> exact ⟨rfl, rfl⟩
  | _ => exact ⟨rfl, rfl⟩

theorem Turn.request_of_posted {k' : Pos β δ} (hk' : a.target = some k')
    (hposted : k'.posted = some (b, r)) : (st'.addr b = r.addr ∧ st'.reads b = !r.dirty) ∨
      k.posted = some (b, r) ∧ st'.addr b = st.addr b ∧ st'.reads b = st.reads b := by
  cases h with
  | post c r' =>
    cases hk'
    cases hposted
    exact .inl ⟨Function.update_self .., Function.update_self ..⟩
  | @link c r' pp hend =>
    cases hk'
    exact .inr ⟨hposted, (Turn.link c r' hend).request fun _ h => by cases h⟩
  | walk | start | behind | bad | sleep | panicked =>
    cases hk'
    exact .inr ⟨hposted, rfl, rfl⟩
  | pop | read | complete | badNext =>
    cases hk'
    cases hposted
  | done | spurious | idle | next => cases hk'

theorem Turn.failed (hb : st'.failed b = true) :
    st.failed b = true ∨ k = .read b true ∧ st.dirty b = false := by
  cases h with
  | post c r =>
    by_cases hbc : b = c
    · subst hbc
      simp [Ide.post] at hb
    · left
      simpa [Ide.post, hbc] using hb
  | @link c r pp hend =>
    cases pp with
    | none => exact .inl hb
    | some d => exact .inl hb
  | read c err =>
    unfold transferred at hb
    split at hb
    · exact .inl hb
    · split_ifs at hb with hdirty hwrite herr
      · exact .inl hb
      · exact .inl hb
      · by_cases hbc : b = c
        · subst hbc
          exact .inr ⟨by rw [herr], Bool.eq_false_of_not_eq_true hdirty⟩
        · left
          simpa [hbc] using hb
      · exact .inl hb
  | _ => exact .inl hb

end

end

omit [DecidableEq β] [DecidableEq ι] in
theorem Calls.fair (h : Calls s) {i : ι} {k : Pos β δ} (hi : s.phase i = .inside k) :
    Fair i (s.killed i) s.shared k := by
  rintro b r rfl hb
  obtain ⟨j, k', r', hj, hposted⟩ := h.queued b hb
  have hpos : (s.phase i).pos = some (.iderw b r) := by rw [hi]; rfl
  obtain rfl := h.distinct i j _ k' b hpos hj rfl (Pos.buf_of_posted hposted)
  rw [hpos] at hj
  cases hj
  cases hposted

theorem Calls.step (h : Calls s) (htracked : Monitor.Tracked Entry Queue Track s)
    (hcalled : Called s e) (hmove : Monitor.Move code s e t) : Calls t := by
  refine ⟨fun i j k k' b hi hj hk hk' => ?_, fun b hb => ?_, fun i k b r hi hk => ?_⟩
  · -- either call had its buffer before, or has just been made with a buffer that no call had
    have hkind : ∀ {x l}, (t.phase x).pos = some l →
        (∃ l₀, (s.phase x).pos = some l₀ ∧ l₀.buf = l.buf) ∨ e = .call x l :=
      hmove.kind fun hcode htarget => (turn_of_code hcode).buf htarget
    have hfresh : ∀ {x y l l₀}, e = .call x l → l.buf = some b → (s.phase y).pos = some l₀ →
        l₀.buf = some b → False := by
      rintro x y l l₀ rfl hl hy hl₀
      cases l with
      | iderw c r =>
        cases hl
        exact hcalled.2 y (by rw [hy]; exact hl₀)
      | ideintr => cases hl
      | _ => exact hcalled
    rcases hkind hi with ⟨k₀, hi₀, hk₀⟩ | hcall
    · rcases hkind hj with ⟨k₁, hj₁, hk₁⟩ | hcall'
      · exact h.distinct i j k₀ k₁ b hi₀ hj₁ (hk₀.trans hk) (hk₁.trans hk')
      · exact (hfresh hcall' hk' hi₀ (hk₀.trans hk)).elim
    · rcases hkind hj with ⟨k₁, hj₁, hk₁⟩ | hcall'
      · exact (hfresh hcall hk hj₁ (hk₁.trans hk')).elim
      · rw [hcall] at hcall'
        cases hcall'
        rfl
  · rcases hmove.view with ⟨hshared, hpos⟩ | ⟨i₀, k₀, a, -, hi₀, hcode, htarget, hothers⟩
    · rw [hshared] at hb
      obtain ⟨i, k, r, hi, hk⟩ := h.queued b hb
      rcases hpos i with hsame | ⟨-, -, hout, -⟩
      · exact ⟨i, k, r, hsame.trans hi, hk⟩
      · rw [hout] at hi
        cases hi
    · have hturn := turn_of_code hcode
      rcases hturn.pending hb with hold | ⟨r, rfl, rfl⟩
      · obtain ⟨i, k, r, hi, hk⟩ := h.queued b hold
        by_cases hii : i = i₀
        · subst hii
          obtain rfl : k₀ = k := by
            rw [hi₀] at hi
            exact Option.some.inj hi
          rcases hturn.posted hk with ⟨k', hk', hposted⟩ | ⟨rfl, hvalid, hdirty⟩
          · exact ⟨i, k', r, htarget.trans hk', hposted⟩
          · -- a buffer on the queue is not done
            have hqueue : s.shared.Queue := htracked.track i _ (by rw [hi₀]; rfl) hi
            exact absurd ⟨hvalid, hdirty⟩ (hqueue.busy b hold).1
        · exact ⟨i, k, r, (hothers i hii).trans hi, hk⟩
      · exact ⟨i₀, _, r, htarget, rfl⟩
  · rcases hmove.pos hi with ⟨hold, hshared | ⟨i₀, k₀, a, hne, hi₀, hcode⟩⟩ | ⟨k₀, a, hi₀, hcode, htarget⟩ | rfl
    · rw [hshared]
      exact h.request i k b r hold hk
    · have hsame := (turn_of_code hcode).request (b := b) fun r' hk₀ => by
        subst hk₀
        exact hne (h.distinct i₀ i _ k b (by rw [hi₀]; rfl) hold rfl (Pos.buf_of_posted hk))
      rw [hsame.1, hsame.2]
      exact h.request i k b r hold hk
    · have hpos₀ : (s.phase i).pos = some k₀ := by rw [hi₀]; rfl
      rcases (turn_of_code hcode).request_of_posted htarget hk with ⟨haddr, hreads⟩ | ⟨hk₀, haddr, hreads⟩
      · exact ⟨haddr, hreads⟩
      · rw [haddr, hreads]
        exact h.request i k₀ b r hpos₀ hk₀
    · cases k with
      | iderw | ideintr => cases hk
      | _ => cases hcalled

/-! ### Runs -/

/-- The shared state and the calls, before every step of a run. -/
structure Good (s : State ι β δ) : Prop where
  tracked : Monitor.Tracked Entry Queue Track s
  calls : Calls s

omit [DecidableEq β] [DecidableEq ι] in
theorem good_start (st : Ide β δ) : Good (start ι st) := by
  have hout : ∀ {i : ι} {k : Pos β δ}, ((start ι st).phase i).pos ≠ some k := fun h => by cases h
  have hqueue : (start ι st).shared.Queue :=
    ⟨rfl, List.nodup_nil, rfl, fun b hb => (List.not_mem_nil hb).elim, fun b _ hreads => by cases hreads⟩
  refine ⟨⟨⟨fun i => ?_, fun i => ?_⟩, fun i k _ hi => (hout hi).elim, fun i k _ hi => (hout hi).elim,
    fun _ => hqueue⟩, ⟨fun i _ k _ _ hi => (hout hi).elim, fun b hb => (List.not_mem_nil hb).elim,
    fun i k _ _ hi => (hout hi).elim⟩⟩
  · simp [start, Monitor.Phase.hasLock]
  · simp [start, Monitor.Phase.hasTable]

theorem Good.next (h : Good s) (hcalled : Called s e) : Good (s.next code e) := by
  have hlegal : Monitor.Legal Entry Fair s e := by
    cases e with
    | call i k =>
      cases k with
      | iderw b r => exact hcalled.1
      | ideintr => trivial
      | _ => cases hcalled
    | step i => exact fun k hi => h.calls.fair hi
    | _ => trivial
  exact ⟨h.tracked.step keeps hlegal (Monitor.next_move e), h.calls.step h.tracked hcalled (Monitor.next_move e)⟩

theorem good_of_run {st : Ide β δ} {es : List (Event ι β δ)} (hcalls : Run.Admits step Called es (start ι st))
    (hrun : Run.run step es (start ι st) = .ok s) : Good s := by
  refine Run.invariant (fun s e s' hs hcalled hstep => ?_) (good_start st) hcalls hrun
  cases hstep
  exact hs.next hcalled

/-- The error of the device, if any, is that of a write. -/
def Quiet (s : State ι β δ) (e : Event ι β δ) : Prop :=
  ∀ i b, e = .step i → s.phase i = .inside (.read b true) → s.shared.dirty b = true

/-- No read has failed. -/
def Clean (s : State ι β δ) : Prop := ∀ b, s.shared.failed b = false

theorem Clean.next (hs : Clean s) (hquiet : Quiet s e) : Clean (s.next code e) := by
  intro b
  rcases (Monitor.next_move (s := s) e).view with ⟨hshared, -⟩ | ⟨i, k, a, he, hi, hcode, -⟩
  · rw [hshared]
    exact hs b
  · apply Bool.eq_false_of_not_eq_true
    intro hfailed
    rcases (turn_of_code hcode).failed hfailed with hold | ⟨rfl, hclean⟩
    · rw [hs b] at hold
      cases hold
    · rw [hquiet i b he hi] at hclean
      cases hclean

/-- In every run the queue is the list of the calls not completed, in their order, whenever `idelock` is free;
`iderw` returns with the flags of a completed transfer; and what it returns for a read is the block as the
device has transferred it if and only if the device has reported no error, which holds for all of them when
errors are reported for writes only. -/
theorem iderw_in_sync (st : Ide β δ) {es : List (Event ι β δ)} (hcalls : Run.Admits step Called es (start ι st))
    (hrun : Run.run step es (start ι st) = .ok s) :
    (s.lock = none → Linked.Chain s.shared.qnext s.shared.idequeue s.shared.pending ∧ s.shared.pending.Nodup ∧
      s.shared.device = s.shared.pending.head?.map s.shared.command) ∧
    (∀ i b r, s.phase i = .inside (.wait b r) → (code i (s.killed i) s.shared (.wait b r)).2 = .ret →
      s.shared.dirty b = false ∧ s.shared.valid b = true ∧ (r.dirty = false →
        (s.shared.transfer b = some (r.addr, s.shared.data b) ↔ s.shared.failed b = false))) ∧
    (Run.Admits step Quiet es (start ι st) → ∀ b, s.shared.failed b = false) := by
  have hgood := good_of_run hcalls hrun
  refine ⟨fun hfree => ?_, fun i b r hi hret => ?_, fun hquiet => ?_⟩
  · have hidle : ∀ i, (s.phase i).active = false := by
      intro i
      apply Bool.eq_false_of_not_eq_true
      intro hactive
      have hheld := (hgood.tracked.locks.lock i).1 (Monitor.Phase.hasLock_of_active hactive)
      rw [hfree] at hheld
      cases hheld
    have hqueue := hgood.tracked.rest hidle
    exact ⟨hqueue.chain, hqueue.nodup, hqueue.device⟩
  · have hpos : (s.phase i).pos = some (.wait b r) := by rw [hi]; rfl
    have hqueue : s.shared.Queue := hgood.tracked.track i _ (by rw [hi]; rfl) hpos
    have hflags : s.shared.valid b = true ∧ s.shared.dirty b = false := by
      by_contra hbusy
      rw [code, if_neg hbusy] at hret
      cases hret
    refine ⟨hflags.2, hflags.1, fun hread => ?_⟩
    obtain ⟨haddr, hreads⟩ := hgood.calls.request i _ b r hpos rfl
    have hsynced := hqueue.synced b fun hb => (hqueue.busy b hb).1 hflags
    rw [← haddr]
    exact (hsynced (by rw [hreads, hread]; rfl)).symm
  · have hclean : Clean s := by
      refine Run.invariant (fun s e s' hs hquiet hstep => ?_) (fun _ => rfl) hquiet hrun
      cases hstep
      exact Clean.next hs hquiet
    exact hclean

end

/-- Nothing in the buffers, and blocks of the disk that tell each other apart. -/
def sampleIde : Ide Bool ℕ where
  idequeue := none
  qnext := fun _ => none
  addr := fun _ => (false, 0)
  valid := fun _ => false
  dirty := fun _ => false
  data := fun _ => 0
  device := none
  disk := fun a => a.2
  pending := []
  reads := fun _ => false
  failed := fun _ => false
  transfer := fun _ => none

/-- A process reads block 7, the disk completes the read with the status `err`, and the process is about to
return. -/
def readEvents (err : Bool) : List (Event Bool Bool ℕ) :=
  .call false (.iderw false ⟨(false, 7), false, false, 0⟩) :: List.replicate 8 (.step false) ++
    [.give, .call true (.ideintr err)] ++ List.replicate 6 (.step true) ++ List.replicate 2 (.step false)

theorem iderw_in_sync_read : ∃ s, Run.run step (readEvents false) (start Bool sampleIde) = .ok s ∧
    s.shared.valid false = true ∧ s.shared.transfer false = some ((false, 7), s.shared.data false) := by
  have hcalls : Run.Admits step Called (readEvents false) (start Bool sampleIde) := .of_decide (by decide +kernel)
  have heval : Run.endsIn (fun s => decide
      (s.phase false = .inside (.wait false ⟨(false, 7), false, false, 0⟩) ∧ s.shared.valid false = true ∧
        s.shared.dirty false = false ∧ s.shared.failed false = false))
      (Run.run step (readEvents false) (start Bool sampleIde)) = true := by decide +kernel
  obtain ⟨s, hrun, htest⟩ := Run.of_endsIn heval
  obtain ⟨hi, hvalid, hdirty, hfailed⟩ := of_decide_eq_true htest
  have hsync := (iderw_in_sync sampleIde hcalls hrun).2.1 false false _ hi (by rw [code, if_pos ⟨hvalid, hdirty⟩])
  exact ⟨s, hrun, hvalid, (hsync.2.2 rfl).2 hfailed⟩

/-- With an error `iderw` returns the buffer as valid, with the data it had before, and nothing transferred. -/
theorem iderw_valid_after_error : ∃ s, Run.Admits step Called (readEvents true) (start Bool sampleIde) ∧
    Run.run step (readEvents true) (start Bool sampleIde) = .ok s ∧
    s.phase false = .inside (.wait false ⟨(false, 7), false, false, 0⟩) ∧
    s.shared.valid false = true ∧ s.shared.dirty false = false ∧ s.shared.transfer false = none ∧
    s.shared.data false = 0 ∧ s.shared.disk (false, 7) = 7 ∧
    (s.next code (.step false)).phase false = .out := by
  have hcalls : Run.Admits step Called (readEvents true) (start Bool sampleIde) := .of_decide (by decide +kernel)
  have heval : Run.endsIn (fun s => decide
      (s.phase false = .inside (.wait false ⟨(false, 7), false, false, 0⟩) ∧
        s.shared.valid false = true ∧ s.shared.dirty false = false ∧ s.shared.transfer false = none ∧
        s.shared.data false = 0 ∧ s.shared.disk (false, 7) = 7 ∧
        (s.next code (.step false)).phase false = .out))
      (Run.run step (readEvents true) (start Bool sampleIde)) = true := by decide +kernel
  obtain ⟨s, hrun, htest⟩ := Run.of_endsIn heval
  exact ⟨s, hcalls, hrun, of_decide_eq_true htest⟩

end Ide

end Xv6
