import Mathlib.Data.Fintype.Basic
import Mathlib.Data.List.Basic
import Xv6.Lib.Monitor
import Xv6.Machine

/-!
# Pipes

`pipewrite`, `piperead` and `pipeclose`, for any number of processes.  Each turn of their loops is a step,
and so are the parts of `sleep` and `wakeup` (`Xv6.Lib.Monitor`); `p->lock` is the lock of the monitor and
`ptable.lock` the lock of the table.  That the page of a pipe is given back when both of its ends are
closed is left out: no call is open on it then.
-/

namespace Xv6

open Monitor (Act Code)

/-- `struct pipe` without the lock. -/
structure Pipe where
  data : Fin 512 → Byte
  nread : BitVec 32
  nwrite : BitVec 32
  readopen : Bool
  writeopen : Bool
  /-- All bytes stored, in order.  Nothing reads it. -/
  stored : List Byte
  /-- What the calls of `piperead` have returned, in order.  Nothing reads it. -/
  returned : List (List Byte)

namespace Pipe

/-- `&p->nread` and `&p->nwrite`. -/
inductive Chan where
  | nread
  | nwrite
deriving DecidableEq, Repr

inductive Pos where
  /-- The head of the loop of `pipewrite`, with the bytes still to write.  `fresh` says whether a byte was
  stored since the lock was taken or since the last call of `wakeup`; nothing reads it. -/
  | write (bytes : List Byte) (fresh : Bool)
  /-- Before `sleep` in `pipewrite`. -/
  | writeSleep (bytes : List Byte)
  | writeEnd
  /-- The head of the first loop of `piperead`. -/
  | read (n : ℤ)
  /-- The head of the second loop, with the bytes copied so far. -/
  | copy (n : ℤ) (got : List Byte)
  | readEnd (n : ℤ) (got : List Byte)
  | close (writable : Bool)
  | closeEnd (writable : Bool)
deriving DecidableEq

/-- The place in the ring for a counter. -/
def slot (n : BitVec 32) : Fin 512 := ⟨n.toNat % 512, Nat.mod_lt _ (by decide)⟩

def store (p : Pipe) (x : Byte) : Pipe :=
  { p with
    data := Function.update p.data (slot p.nwrite) x
    nwrite := p.nwrite + 1
    stored := p.stored ++ [x] }

def full (p : Pipe) : Prop := p.nwrite = p.nread + 512

instance (p : Pipe) : Decidable (full p) := inferInstanceAs (Decidable (_ = _))

def empty (p : Pipe) : Prop := p.nread = p.nwrite

instance (p : Pipe) : Decidable (empty p) := inferInstanceAs (Decidable (_ = _))

/-- One step of a process with the lock held. -/
def code {ι : Type} : Code ι Pipe Chan Pos
  | _, _, p, .write [] _ => (p, .wakeup .nread .writeEnd)
  | _, killed, p, .write (x :: bytes) _ =>
    if full p then
      if p.readopen = false ∨ killed then (p, .ret)
      else (p, .wakeup .nread (.writeSleep (x :: bytes)))
    else (store p x, .goto (.write bytes true))
  | _, _, p, .writeSleep bytes => (p, .sleep .nwrite (.write bytes false))
  | _, _, p, .writeEnd => (p, .ret)
  | _, killed, p, .read n =>
    if empty p ∧ p.writeopen then
      if killed then (p, .ret) else (p, .sleep .nread (.read n))
    else (p, .goto (.copy n []))
  | _, _, p, .copy n got =>
    if (got.length : ℤ) < n ∧ ¬empty p then
      ({ p with nread := p.nread + 1 }, .goto (.copy n (got ++ [p.data (slot p.nread)])))
    else (p, .wakeup .nwrite (.readEnd n got))
  | _, _, p, .readEnd _ got => ({ p with returned := p.returned ++ [got] }, .ret)
  | _, _, p, .close true => ({ p with writeopen := false }, .wakeup .nread (.closeEnd true))
  | _, _, p, .close false => ({ p with readopen := false }, .wakeup .nwrite (.closeEnd false))
  | _, _, p, .closeEnd _ => (p, .ret)

abbrev State (ι : Type) := Monitor.State ι Pipe Chan Pos

abbrev Event (ι : Type) := Monitor.Event ι Pos

def step {ι : Type} [DecidableEq ι] (s : State ι) (e : Event ι) : Except Halt (State ι) := .ok (s.next code e)

/-- What `pipealloc` makes of a page, and no call open. -/
def start (ι : Type) (data : Fin 512 → Byte) : State ι where
  shared := ⟨data, 0, 0, true, true, [], []⟩
  lock := none
  table := none
  phase := fun _ => .out
  killed := fun _ => false

/-- The calls of `pipewrite`, `piperead` and `pipeclose`. -/
def Entry : Pos → Prop
  | .write _ fresh => fresh = false
  | .read _ => True
  | .close _ => True
  | _ => False

instance : DecidablePred Entry := fun k =>
  match k with
  | .write _ fresh => inferInstanceAs (Decidable (fresh = false))
  | .read _ | .close _ => .isTrue trivial
  | .writeSleep _ | .writeEnd | .copy _ _ | .readEnd _ _ | .closeEnd _ => .isFalse id

/-! ### The ring -/

def count (p : Pipe) : ℕ := (p.nwrite - p.nread).toNat

def contents (p : Pipe) : List Byte :=
  (List.range (count p)).map fun j => p.data (slot (p.nread + BitVec.ofNat 32 j))

variable {p p' : Pipe} {ι : Type} {k : Pos} {a : Act Chan Pos}

theorem empty_iff : empty p ↔ count p = 0 := by
  unfold empty count
  constructor
  · intro h
    rw [h, BitVec.sub_self]
    rfl
  · intro h
    bv_omega

theorem full_iff : full p ↔ count p = 512 := by
  unfold full count
  constructor <;> intro h <;> bv_omega

theorem count_store (x : Byte) (h : count p < 512) : count (store p x) = count p + 1 := by
  unfold count store at *
  dsimp only
  bv_omega

theorem count_take (h : ¬empty p) : count { p with nread := p.nread + 1 } = count p - 1 := by
  unfold count empty at *
  dsimp only
  bv_omega

/-- The places of the bytes in the pipe are not the place that is written next. -/
theorem slot_ne {j : ℕ} (hj : j < count p) (h : count p < 512) :
    slot (p.nread + BitVec.ofNat 32 j) ≠ slot p.nwrite := by
  unfold count at *
  intro heq
  have := congrArg Fin.val heq
  simp only [slot] at this
  have hsum : p.nwrite.toNat = (p.nread.toNat + (p.nwrite - p.nread).toNat) % 2 ^ 32 := by
    rw [BitVec.toNat_sub]
    omega
  rw [BitVec.toNat_add, BitVec.toNat_ofNat, Nat.mod_mod_of_dvd _ (by decide)] at this
  omega

theorem contents_store (x : Byte) (h : count p < 512) :
    contents (store p x) = contents p ++ [x] := by
  unfold contents
  rw [count_store x h, List.range_succ, List.map_append]
  congr 1
  · refine List.map_congr_left fun j hj => ?_
    exact Function.update_of_ne (slot_ne (List.mem_range.1 hj) h) _ _
  · have hnext : p.nread + BitVec.ofNat 32 (count p) = p.nwrite := by
      unfold count
      rw [BitVec.ofNat_toNat, BitVec.setWidth_eq]
      bv_omega
    simp only [List.map_cons, List.map_nil, store, hnext, Function.update_self]

theorem contents_take (h : ¬empty p) :
    contents p = p.data (slot p.nread) :: contents { p with nread := p.nread + 1 } := by
  have hpos : count p = (count p - 1) + 1 := by
    have := mt empty_iff.2 h
    omega
  unfold contents
  rw [count_take h, hpos, List.range_succ_eq_map, List.map_cons, List.map_map, Nat.add_sub_cancel]
  congr 1
  · simp
  · refine List.map_congr_left fun j _ => ?_
    simp only [Function.comp]
    congr 2
    rw [BitVec.add_assoc]
    congr 1
    change BitVec.ofNat 32 (j + 1) = 1 + BitVec.ofNat 32 j
    bv_omega

/-! ### First in, first out -/

inductive Turn (killed : Bool) (p : Pipe) : Pos → Pipe → Act Chan Pos → Prop
  | written (fresh : Bool) : Turn killed p (.write [] fresh) p (.wakeup .nread .writeEnd)
  | writeStop {x : Byte} {bytes : List Byte} {fresh : Bool} :
    full p → p.readopen = false ∨ killed = true → Turn killed p (.write (x :: bytes) fresh) p .ret
  | writeBlock {x : Byte} {bytes : List Byte} {fresh : Bool} : full p → p.readopen = true →
    Turn killed p (.write (x :: bytes) fresh) p (.wakeup .nread (.writeSleep (x :: bytes)))
  | store {x : Byte} {bytes : List Byte} {fresh : Bool} : ¬full p →
    Turn killed p (.write (x :: bytes) fresh) (store p x) (.goto (.write bytes true))
  | writeSleep (bytes : List Byte) :
    Turn killed p (.writeSleep bytes) p (.sleep .nwrite (.write bytes false))
  | writeEnd : Turn killed p .writeEnd p .ret
  | readStop (n : ℤ) : Turn killed p (.read n) p .ret
  | readSleep {n : ℤ} : empty p → p.writeopen = true →
    Turn killed p (.read n) p (.sleep .nread (.read n))
  | readStart {n : ℤ} : (empty p → p.writeopen = false) → Turn killed p (.read n) p (.goto (.copy n []))
  | take {n : ℤ} {got : List Byte} : ¬empty p →
    Turn killed p (.copy n got) { p with nread := p.nread + 1 }
      (.goto (.copy n (got ++ [p.data (slot p.nread)])))
  | copied {n : ℤ} {got : List Byte} : n ≤ got.length ∨ empty p →
    Turn killed p (.copy n got) p (.wakeup .nwrite (.readEnd n got))
  | readEnd (n : ℤ) (got : List Byte) :
    Turn killed p (.readEnd n got) { p with returned := p.returned ++ [got] } .ret
  | closeWrite :
    Turn killed p (.close true) { p with writeopen := false } (.wakeup .nread (.closeEnd true))
  | closeRead :
    Turn killed p (.close false) { p with readopen := false } (.wakeup .nwrite (.closeEnd false))
  | closeEnd (writable : Bool) : Turn killed p (.closeEnd writable) p .ret

theorem code_turn (i : ι) (killed : Bool) (p : Pipe) (k : Pos) :
    Turn killed p k (code i killed p k).1 (code i killed p k).2 := by
  cases k with
  | write bytes fresh =>
    cases bytes with
    | nil => exact .written fresh
    | cons x bytes =>
      rw [code]
      split_ifs with hfull hstop
      · exact .writeStop hfull hstop
      · exact .writeBlock hfull (Bool.eq_true_of_not_eq_false fun h => hstop (.inl h))
      · exact .store hfull
  | writeSleep bytes => exact .writeSleep bytes
  | writeEnd => exact .writeEnd
  | read n =>
    rw [code]
    split_ifs with hempty hkilled
    · exact .readStop n
    · exact .readSleep hempty.1 hempty.2
    · exact .readStart fun he => Bool.eq_false_of_not_eq_true fun hw => hempty ⟨he, hw⟩
  | copy n got =>
    rw [code]
    split_ifs with hmore
    · exact .take hmore.2
    · refine .copied ?_
      by_cases hn : n ≤ got.length
      · exact .inl hn
      · exact .inr (not_not.1 fun hne => hmore ⟨not_le.1 hn, hne⟩)
  | readEnd n got => exact .readEnd n got
  | close writable =>
    cases writable with
    | true => exact .closeWrite
    | false => exact .closeRead
  | closeEnd writable => exact .closeEnd writable

theorem turn_of_code {i : ι} {killed : Bool} (h : code i killed p k = (p', a)) : Turn killed p k p' a := by
  have := code_turn i killed p k
  rwa [h] at this

/-- The stored bytes are those returned and those in the pipe. -/
structure Rest (p : Pipe) : Prop where
  count_le : count p ≤ 512
  stored : p.stored = p.returned.flatten ++ contents p

/-- What holds while a call works on the pipe. -/
def Track (p : Pipe) : Pos → Prop
  | .writeSleep _ => Rest p ∧ full p ∧ p.readopen = true
  | .copy n got =>
    count p ≤ 512 ∧ p.stored = p.returned.flatten ++ got ++ contents p ∧
      (got = [] → n ≤ 0 ∨ (empty p → p.writeopen = false))
  | .readEnd n got =>
    count p ≤ 512 ∧ p.stored = p.returned.flatten ++ got ++ contents p ∧
      (got = [] → n ≤ 0 ∨ empty p ∧ p.writeopen = false)
  | _ => Rest p

theorem track_of_entry (h : Rest p) (hk : Entry k) : Track p k := by
  cases k <;> first | exact h | cases hk

theorem Rest.store (h : Rest p) (hfull : ¬full p) (x : Byte) : Rest (store p x) := by
  have hlt : count p < 512 := lt_of_le_of_ne h.count_le (mt full_iff.2 hfull)
  refine ⟨?_, ?_⟩
  · rw [count_store x hlt]
    exact hlt
  · change p.stored ++ [x] = p.returned.flatten ++ contents (Pipe.store p x)
    rw [contents_store x hlt, h.stored, List.append_assoc]

theorem code_keeps (Fair : ι → Bool → Pipe → Pos → Prop) :
    Monitor.Keeps code Entry Fair Rest Track where
  enter := track_of_entry
  goto := by
    intro i x p k p' k' h _ hcode
    cases turn_of_code hcode with
    | store hfull => exact Rest.store h hfull _
    | readStart hclosed =>
      refine ⟨h.count_le, ?_, fun _ => .inr hclosed⟩
      rw [List.append_nil]
      exact h.stored
    | take hne =>
      obtain ⟨hle, hstored, -⟩ := h
      refine ⟨?_, ?_, fun hnil => absurd hnil (by simp)⟩
      · rw [count_take hne]
        omega
      · refine hstored.trans ?_
        rw [contents_take hne]
        simp
  wakeup := by
    intro i x p k p' c k' h _ hcode
    cases turn_of_code hcode with
    | written => exact h
    | writeBlock hfull hopen => exact ⟨h, hfull, hopen⟩
    | copied hend =>
      obtain ⟨hle, hstored, hnone⟩ := h
      refine ⟨hle, hstored, fun hnil => ?_⟩
      rw [hnil] at hend
      rcases hend with hn | hempty
      · exact .inl hn
      · exact (hnone hnil).imp_right fun hclosed => ⟨hempty, hclosed hempty⟩
    | closeWrite => exact ⟨h.count_le, h.stored⟩
    | closeRead => exact ⟨h.count_le, h.stored⟩
  sleep := by
    intro i x p k p' c k' h _ hcode
    cases turn_of_code hcode with
    | writeSleep => exact ⟨h.1, rfl⟩
    | readSleep => exact ⟨h, trivial⟩
  ret := by
    intro i x p k p' h _ hcode
    cases turn_of_code hcode with
    | writeStop => exact h
    | writeEnd => exact h
    | readStop => exact h
    | readEnd n got =>
      obtain ⟨hle, hstored, -⟩ := h
      refine ⟨hle, ?_⟩
      change p.stored = (p.returned ++ [got]).flatten ++ contents p
      rw [hstored]
      simp
    | closeEnd => exact h

theorem start_tracked (ι : Type) (data : Fin 512 → Byte) : Monitor.Tracked Entry Rest Track (start ι data) where
  locks := ⟨fun _ => iff_of_false Bool.false_ne_true nofun, fun _ => iff_of_false Bool.false_ne_true nofun⟩
  entry := nofun
  track := nofun
  rest := fun _ => ⟨by simp [start, count], by simp [start, contents, count]⟩

/-- Pipes are queues.  Whatever the processes do, there are never more than `PIPESIZE` bytes in the pipe,
the bytes in the ring are the ones stored and not yet taken, what the reads have returned is the beginning
of what was stored, and a read that is about to return no byte was asked for none or has found the pipe
empty and the write end closed. -/
theorem pipe_fifo {ι : Type} [DecidableEq ι] {data : Fin 512 → Byte} {es : List (Event ι)} {s : State ι}
    (hcalls : Run.Admits step (Monitor.Legal Entry fun _ _ _ _ => True) es (start ι data))
    (hrun : Run.run step es (start ι data) = .ok s) :
    (s.shared.nwrite - s.shared.nread).toNat ≤ 512 ∧
      (∃ taken, s.shared.stored = taken ++ contents s.shared ∧ s.shared.returned.flatten <+: taken) ∧
      s.shared.returned.flatten <+: s.shared.stored ∧
      ∀ i n, s.phase i = .inside (.readEnd n []) →
        n ≤ 0 ∨ s.shared.nread = s.shared.nwrite ∧ s.shared.writeopen = false := by
  have h := (code_keeps _).run (start_tracked ι data) hcalls hrun
  have hqueue : count s.shared ≤ 512 ∧
      ∃ taken, s.shared.stored = taken ++ contents s.shared ∧ s.shared.returned.flatten <+: taken := by
    by_cases hidle : ∀ i, (s.phase i).active = false
    · have hrest := h.rest hidle
      exact ⟨hrest.count_le, _, hrest.stored, List.prefix_rfl⟩
    · push Not at hidle
      obtain ⟨i, hi⟩ := hidle
      have hactive := Bool.eq_true_of_not_eq_false hi
      obtain ⟨k, hk⟩ := Monitor.Phase.pos_of_active hactive
      have htrack := h.track i k hactive hk
      cases k with
      | copy n got => exact ⟨htrack.1, _, htrack.2.1, List.prefix_append _ _⟩
      | readEnd n got => exact ⟨htrack.1, _, htrack.2.1, List.prefix_append _ _⟩
      | writeSleep bytes => exact ⟨htrack.1.count_le, _, htrack.1.stored, List.prefix_rfl⟩
      | _ => exact ⟨htrack.count_le, _, htrack.stored, List.prefix_rfl⟩
  obtain ⟨hle, taken, hstored, hprefix⟩ := hqueue
  refine ⟨hle, ⟨taken, hstored, hprefix⟩, ?_, fun i n hi => ?_⟩
  · rw [hstored]
    exact hprefix.trans (List.prefix_append _ _)
  · have htrack := h.track i (.readEnd n []) (by rw [hi]; rfl) (by rw [hi]; rfl)
    exact htrack.2.2 rfl

/-- The two processes of the samples are written as numbers. -/
local instance neZeroPair : NeZero 2 := ⟨by decide⟩

/-- A reader that goes to sleep on the empty pipe, a writer that wakes it, and what the reader gets. -/
def sampleEvents : List (Event (Fin 2)) :=
  [.call 1 (.read 2)] ++ List.replicate 5 (.step 1) ++ [.give, .call 0 (.write [1, 2, 3] false)] ++
    List.replicate 7 (.step 0) ++ List.replicate 8 (.step 1)

theorem pipe_fifo_sample : ∃ s, Run.run step sampleEvents (start (Fin 2) fun _ => 0) = .ok s ∧
    s.shared.returned = [[1, 2]] ∧ s.shared.returned.flatten <+: s.shared.stored := by
  have hcalls : Run.Admits step (Monitor.Legal Entry fun _ _ _ _ => True) sampleEvents
      (start (Fin 2) fun _ => 0) := .of_decide (by decide +kernel)
  have heval : Run.endsIn (fun s => decide (s.shared.returned = [[1, 2]]))
      (Run.run step sampleEvents (start (Fin 2) fun _ => 0)) = true := by decide +kernel
  obtain ⟨s, hrun, htest⟩ := Run.of_endsIn heval
  exact ⟨s, hrun, of_decide_eq_true htest, (pipe_fifo hcalls hrun).2.2.1⟩

/-! ### Wakeups -/

def Pos.reads : Pos → Bool
  | .read _ | .copy _ _ | .readEnd _ _ => true
  | _ => false

def Pos.closesRead : Pos → Bool
  | .close false | .closeEnd false => true
  | _ => false

/-- How `file.c` uses the read end: `piperead` is called while the end is open, and `pipeclose` when the
last reference to it is dropped, so that no call of `piperead` is open. -/
def Filed {ι : Type} (s : State ι) : Event ι → Prop
  | .call _ (.read _) => s.shared.readopen = true ∧ ∀ j, ∀ k ∈ (s.phase j).pos, k.closesRead = false
  | .call _ (.close false) => ∀ j, ∀ k ∈ (s.phase j).pos, k.reads = false
  | _ => True

instance {ι : Type} [Fintype ι] (s : State ι) (e : Event ι) : Decidable (Filed s e) :=
  match e with
  | .call _ (.read _) => inferInstanceAs (Decidable (_ ∧ _))
  | .call _ (.close false) => inferInstanceAs (Decidable (∀ _, _))
  | .call _ (.close true) | .call _ (.write _ _) | .call _ (.writeSleep _) | .call _ .writeEnd => .isTrue trivial
  | .call _ (.copy _ _) | .call _ (.readEnd _ _) | .call _ (.closeEnd _) => .isTrue trivial
  | .step _ | .kill _ | .take | .give => .isTrue trivial

/-- A writer that finds the pipe full, with the read end open, and has stored a byte since it took the lock
or last called `wakeup`, has not been killed. -/
def Patient {ι : Type} (_ : ι) (killed : Bool) (p : Pipe) : Pos → Prop
  | .write (_ :: _) true => full p → p.readopen = true → killed = false
  | _ => True

instance {ι : Type} (i : ι) (killed : Bool) (p : Pipe) (k : Pos) : Decidable (Patient i killed p k) :=
  match k with
  | .write (_ :: _) true => inferInstanceAs (Decidable (_ → _))
  | .write (_ :: _) false | .write [] _ | .writeSleep _ | .writeEnd | .read _ | .copy _ _ | .readEnd _ _ =>
    .isTrue trivial
  | .close _ | .closeEnd _ => .isTrue trivial

/-- When a process may sleep.  Nobody sleeps on `&p->nread` once the read end is closed. -/
def cond : Chan → Pipe → Prop
  | .nread, p => empty p ∧ p.writeopen = true ∨ p.readopen = false
  | .nwrite, p => full p ∧ p.readopen = true

/-- A writer owes a wakeup for the bytes it has stored, a reader for those it has taken. -/
def owes : Pos → Chan → Prop
  | .write _ fresh, .nread => fresh = true
  | .copy _ got, .nwrite => got ≠ []
  | _, _ => False

theorem code_pays (ι : Type) : Monitor.Pays (code (ι := ι)) Patient Entry Track cond owes where
  goto := by
    intro i x p k p' k' _ _ hcode c hc
    cases turn_of_code hcode with
    | store hfull =>
      cases c with
      | nread => exact .inr rfl
      | nwrite => exact absurd hc (by rintro (hc | hc) <;> [exact hfull hc.1; exact hc])
    | readStart => exact .inl (hc.resolve_right (by cases c <;> exact id))
    | take hne =>
      cases c with
      | nread =>
        refine .inl (.inr ?_)
        rcases hc with (hc | hc) | hc
        · exact absurd hc.1 hne
        · exact hc
        · cases hc
      | nwrite => exact .inr (List.append_ne_nil_of_right_ne_nil _ (List.cons_ne_nil _ _))
  wakeup := by
    intro i x p k p' c₀ k' _ _ hcode c hne hc
    cases turn_of_code hcode with
    | written | writeBlock | closeWrite =>
      cases c with
      | nread => exact absurd rfl hne
      | nwrite => exact .inl (hc.resolve_right id)
    | copied =>
      cases c with
      | nread => exact .inl (hc.resolve_right id)
      | nwrite => exact absurd rfl hne
    | closeRead =>
      cases c with
      | nread => exact .inl (.inr rfl)
      | nwrite => exact absurd rfl hne
  sleep := by
    intro i x p k p' c₀ k' htrack _ hcode
    cases turn_of_code hcode with
    | writeSleep => exact ⟨htrack.2, fun c hc => hc.resolve_right (by cases c <;> exact id)⟩
    | readSleep hempty hopen =>
      exact ⟨.inl ⟨hempty, hopen⟩, fun c hc => hc.resolve_right (by cases c <;> exact id)⟩
  ret := by
    intro i x p k p' _ hfair hcode c hc
    cases turn_of_code hcode with
    | @writeStop y bytes fresh hfull hstop =>
      cases c with
      | nwrite => exact hc.resolve_right id
      | nread =>
        cases hopen : p.readopen with
        | false => exact .inr hopen
        | true =>
          refine hc.resolve_right ?_
          rintro rfl
          have hkilled := hfair hfull hopen
          rw [hkilled, hopen] at hstop
          rcases hstop with hstop | hstop <;> cases hstop
    | writeEnd | readStop | closeEnd => exact hc.resolve_right (by cases c <;> exact id)
    | readEnd =>
      cases c with
      | nread => exact hc.resolve_right id
      | nwrite => exact hc.resolve_right id

/-- While a process is in `piperead`, the read end is open and nobody is closing it; only such processes
sleep on `&p->nread`. -/
structure ReadEnd {ι : Type} (s : State ι) : Prop where
  opened : ∀ i, ∀ k ∈ (s.phase i).pos, k.reads = true →
    s.shared.readopen = true ∧ ∀ j, ∀ k' ∈ (s.phase j).pos, k'.closesRead = false
  sleeper : ∀ i k, (s.phase i).chan = some (.nread, k) → k.reads = true

theorem code_kind {i : ι} {x : Bool} {k' : Pos}
    (hcode : code i x p k = (p', a)) (hk' : a.target = some k') :
    (k'.reads, k'.closesRead) = (k.reads, k.closesRead) := by
  cases turn_of_code hcode <;> first | cases hk'; rfl | cases hk'

theorem readopen_of_code {i : ι} {x : Bool}
    (hcode : code i x p k = (p', a)) (hk : k.closesRead = false) : p'.readopen = p.readopen := by
  cases turn_of_code hcode <;> first | rfl | cases hk

theorem ReadEnd.step [DecidableEq ι] {s t : State ι} {e : Event ι} (h : ReadEnd s)
    (hlegal : Monitor.Legal Entry Patient s e) (hfiled : Filed s e) (hmove : Monitor.Move code s e t) :
    ReadEnd t := by
  have hkind : ∀ {j k'}, (t.phase j).pos = some k' →
      (∃ k, (s.phase j).pos = some k ∧ k.reads = k'.reads ∧ k.closesRead = k'.closesRead) ∨
        e = .call j k' := fun hj =>
    (hmove.kind code_kind hj).imp_left fun ⟨k, hk, heq⟩ => ⟨k, hk, Prod.mk.inj heq⟩
  refine ⟨fun i k hi hreads => ?_, fun i k hi => ?_⟩
  · -- The read end was open before, and nobody was closing it.
    have hbefore : s.shared.readopen = true ∧ ∀ j, ∀ k' ∈ (s.phase j).pos, k'.closesRead = false := by
      rcases hkind hi with ⟨k₀, hk₀, heq, -⟩ | rfl
      · exact h.opened i k₀ hk₀ (heq.trans hreads)
      · cases k with
        | read n => exact hfiled
        | copy n got => cases hlegal
        | readEnd n got => cases hlegal
        | _ => cases hreads
    refine ⟨?_, fun j k' hj => ?_⟩
    · rcases hmove.shared with hsame | ⟨j, k', a, hj, hcode⟩
      · rw [hsame]
        exact hbefore.1
      · rw [readopen_of_code hcode (hbefore.2 j k' (by rw [hj]; rfl))]
        exact hbefore.1
    · rcases hkind hj with ⟨k₀, hk₀, -, heq⟩ | rfl
      · rw [← heq]
        exact hbefore.2 j k₀ hk₀
      · cases k' with
        | close writable =>
          cases writable with
          | true => rfl
          | false =>
            -- The end is closed by a call that finds nobody in `piperead`.
            rcases hkind hi with ⟨k₀, hk₀, heq, -⟩ | hcall
            · have := hfiled i k₀ hk₀
              rw [heq, hreads] at this
              cases this
            · cases hcall
              cases hreads
        | closeEnd writable => cases hlegal
        | _ => rfl
  · rcases hmove.chan hi with hsame | ⟨x, p, k₀, p', hcode⟩
    · exact h.sleeper i k hsame
    · cases turn_of_code hcode
      rfl

theorem start_readEnd (ι : Type) (data : Fin 512 → Byte) : ReadEnd (start ι data) := ⟨nofun, nofun⟩

theorem start_paid (ι : Type) (data : Fin 512 → Byte) : Monitor.Paid cond owes (start ι data) := by
  refine ⟨fun i c k hi => ?_, nofun⟩
  rcases hi with hi | hi <;> cases hi

/-- No wakeup is lost on a pipe.  In every run in which `file.c` uses the read end as it does and every writer
that finds the pipe full after storing a byte is patient, whenever `p->lock` is free, a process that
sleeps on `&p->nread` does so because the pipe is empty and the write end open, and one that sleeps on
`&p->nwrite` because the pipe is full and the read end open. -/
theorem pipe_wakeups {ι : Type} [DecidableEq ι] {data : Fin 512 → Byte} {es : List (Event ι)} {s : State ι}
    (hcalls : Run.Admits step (Monitor.Legal Entry Patient) es (start ι data))
    (hfiled : Run.Admits step Filed es (start ι data))
    (hrun : Run.run step es (start ι data) = .ok s) (hfree : s.lock = none) :
    (∀ i k, s.phase i = .asleep .nread k →
      s.shared.nread = s.shared.nwrite ∧ s.shared.writeopen = true) ∧
    (∀ i k, s.phase i = .asleep .nwrite k →
      s.shared.nwrite = s.shared.nread + 512 ∧ s.shared.readopen = true) := by
  obtain ⟨-, hpaid⟩ := (code_pays ι).run (code_keeps _)
    ⟨start_tracked ι data, start_paid ι data⟩ hcalls hrun
  have hends : ReadEnd s := by
    refine Run.invariant (fun s e s' hs hboth hstep => ?_) (start_readEnd ι data) (hcalls.and hfiled) hrun
    cases hstep
    exact hs.step hboth.1 hboth.2 (Monitor.next_move e)
  refine ⟨fun i k hi => ?_, fun i k hi => hpaid.free hfree hi⟩
  refine (hpaid.free hfree hi).resolve_right fun hclosed => ?_
  have hreads := hends.sleeper i k (by rw [hi]; rfl)
  have hopen := (hends.opened i k (by rw [hi]; rfl) hreads).1
  rw [hclosed] at hopen
  cases hopen

/-- A reader waits, and a writer is about to take the lock. -/
def waitEvents : List (Event (Fin 2)) :=
  [.call 1 (.read 2)] ++ List.replicate 5 (.step 1) ++ [.give, .call 0 (.write [1] false)]

theorem pipe_wakeups_sample : ∃ s, Run.run step waitEvents (start (Fin 2) fun _ => 0) = .ok s ∧
    s.phase 1 = .asleep .nread (.read 2) ∧ s.shared.nread = s.shared.nwrite := by
  have hcalls : Run.Admits step (Monitor.Legal Entry Patient) waitEvents (start (Fin 2) fun _ => 0) :=
    .of_decide (by decide +kernel)
  have hfiled : Run.Admits step Filed waitEvents (start (Fin 2) fun _ => 0) := .of_decide (by decide +kernel)
  have heval : Run.endsIn (fun s => decide (s.lock = none ∧ s.phase 1 = .asleep .nread (.read 2)))
      (Run.run step waitEvents (start (Fin 2) fun _ => 0)) = true := by decide +kernel
  obtain ⟨s, hrun, htest⟩ := Run.of_endsIn heval
  obtain ⟨hfree, hasleep⟩ := of_decide_eq_true htest
  exact ⟨s, hrun, hasleep, ((pipe_wakeups hcalls hfiled hrun hfree).1 1 _ hasleep).1⟩

/-- A reader waits; a writer that has been killed stores 512 bytes and returns. -/
def lostEvents : List (Event (Fin 2)) :=
  [.call 1 (.read 1)] ++ List.replicate 5 (.step 1) ++
    [.give, .kill 0, .call 0 (.write (List.replicate 513 7) false)] ++ List.replicate 514 (.step 0)

set_option maxRecDepth 100000 in
/-- The wakeup for those bytes is lost: the lock is free, the reader sleeps on, and the pipe is full. -/
theorem killed_writer_strands_reader : ∃ s, Run.run step lostEvents (start (Fin 2) fun _ => 0) = .ok s ∧
    s.lock = none ∧ s.phase 0 = .out ∧ s.phase 1 = .asleep .nread (.read 1) ∧
    s.shared.writeopen = true ∧ s.shared.readopen = true ∧
    s.shared.nwrite = s.shared.nread + 512 := by
  have heval : Run.endsIn (fun s => decide (s.lock = none ∧ s.phase 0 = .out ∧
      s.phase 1 = .asleep .nread (.read 1) ∧ s.shared.writeopen = true ∧ s.shared.readopen = true ∧
      s.shared.nwrite = s.shared.nread + 512))
      (Run.run step lostEvents (start (Fin 2) fun _ => 0)) = true := by decide +kernel
  obtain ⟨s, hrun, htest⟩ := Run.of_endsIn heval
  exact ⟨s, hrun, of_decide_eq_true htest⟩

end Pipe

end Xv6
