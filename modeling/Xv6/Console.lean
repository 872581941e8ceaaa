import Xv6.Lib.Monitor
import Xv6.Lib.Window
import Xv6.Machine

/-!
# The console's input

`consoleintr` and `consoleread`, for any number of readers.  `cons.lock` is the lock of the monitor
(`Xv6.Lib.Monitor`), each turn of the loops is a step, and the parts of `sleep` and `wakeup` are steps.
An interrupt enters like a call, with the characters that `getc` will return.

Besides the ring, the state records what was typed, committed and read.  No step looks at these
records, and the main result compares the ring and the readers' buffers with them.  The echo on the
screen and `procdump` are left out; neither touches the input buffer.
-/

namespace Xv6

open Monitor (Act Code)
open Window (slot window)

/-- `input`, and records of what happened to it. -/
structure Console where
  buf : Fin 128 → Byte
  r : BitVec 32
  w : BitVec 32
  e : BitVec 32
  /-- The characters typed since the last commit and not erased again. -/
  line : List Byte
  /-- All characters committed so far. -/
  committed : List Byte
  /-- All characters taken out of the ring by readers, `^D` included. -/
  taken : List Byte
  /-- All characters put into the readers' buffers. -/
  copied : List Byte
  /-- What each call of `consoleread` returned, and whether it had taken a `^D`. -/
  returned : List (List Byte × Bool)

namespace Console

/-- `&input.r`. -/
inductive Chan where
  | r
deriving DecidableEq, Repr

inductive Pos where
  /-- The head of the loop of `consoleintr`, with the characters still to come. -/
  | intr (chars : List Byte)
  /-- The head of the loop for `^U`. -/
  | kill (chars : List Byte)
  /-- The head of the loop of `consoleread`, with the size asked for and the bytes copied so far; the
  variable `n` of the code is their difference. -/
  | read (target : ℤ) (got : List Byte)
  /-- The end of `consoleread`.  `eof` says whether it took a `^D`; nothing reads it. -/
  | readEnd (target : ℤ) (got : List Byte) (eof : Bool)
deriving DecidableEq

/-- `C(x)`, Control-x. -/
def ctrl (x : Char) : Byte := UInt8.ofNat (x.toNat - 64)

/-- The place in the ring for a counter has to be computed for the samples. -/
local instance neZeroRing : NeZero 128 := ⟨by decide⟩

/-- `input.buf[input.e++ % INPUT_BUF] = c`. -/
def store (p : Console) (c : Byte) : Console :=
  { p with
    buf := Function.update p.buf (slot 128 p.e) c
    e := p.e + 1
    line := p.line ++ [c] }

/-- `input.e--`. -/
def erase (p : Console) : Console := { p with e := p.e - 1, line := p.line.dropLast }

/-- `input.w = input.e`. -/
def commit (p : Console) : Console :=
  { p with w := p.e, committed := p.committed ++ p.line, line := [] }

/-- `c = input.buf[input.r++ % INPUT_BUF]`. -/
def take (p : Console) : Console :=
  { p with r := p.r + 1, taken := p.taken ++ [p.buf (slot 128 p.r)] }

/-- One step of a process with the lock held. -/
def code {ι : Type} : Code ι Console Chan Pos
  | _, _, p, .intr [] => (p, .ret)
  | _, _, p, .intr (c :: chars) =>
    if c = ctrl 'P' then (p, .goto (.intr chars))
    else if c = ctrl 'U' then (p, .goto (.kill chars))
    else if c = ctrl 'H' ∨ c = 0x7F then
      (if p.e ≠ p.w then p.erase else p, .goto (.intr chars))
    else if c ≠ 0 ∧ p.e - p.r < 128 then
      let c := if c = 13 then 10 else c
      let p := p.store c
      if c = 10 ∨ c = ctrl 'D' ∨ p.e = p.r + 128 then (p.commit, .wakeup .r (.intr chars))
      else (p, .goto (.intr chars))
    else (p, .goto (.intr chars))
  | _, _, p, .kill chars =>
    if p.e ≠ p.w ∧ p.buf (slot 128 (p.e - 1)) ≠ 10 then (p.erase, .goto (.kill chars))
    else (p, .goto (.intr chars))
  | _, killed, p, .read target got =>
    if (got.length : ℤ) < target then
      if p.r = p.w then
        if killed then (p, .ret) else (p, .sleep .r (.read target got))
      else
        let c := p.buf (slot 128 p.r)
        if c = ctrl 'D' then
          -- with bytes in hand `input.r--` puts the `^D` back for the next call
          if got ≠ [] then (p, .goto (.readEnd target got false))
          else (p.take, .goto (.readEnd target got true))
        else
          let p := { p.take with copied := p.copied ++ [c] }
          if c = 10 then (p, .goto (.readEnd target (got ++ [c]) false))
          else (p, .goto (.read target (got ++ [c])))
    else (p, .goto (.readEnd target got false))
  | _, _, p, .readEnd _ got eof => ({ p with returned := p.returned ++ [(got, eof)] }, .ret)

abbrev State (ι : Type) := Monitor.State ι Console Chan Pos

abbrev Event (ι : Type) := Monitor.Event ι Pos

def step {ι : Type} [DecidableEq ι] (s : State ι) (e : Event ι) : Except Halt (State ι) := .ok (s.next code e)

/-- The console at boot: the counters are 0, and no call is open. -/
def start (ι : Type) (buf : Fin 128 → Byte) : State ι where
  shared := ⟨buf, 0, 0, 0, [], [], [], [], []⟩
  lock := none
  table := none
  phase := fun _ => .out
  killed := fun _ => false

/-- Where the lock is taken: an interrupt, a call of `consoleread`, and a call that slept. -/
def Entry : Pos → Prop
  | .intr _ | .read _ _ => True
  | _ => False

instance : DecidablePred Entry := fun k =>
  match k with
  | .intr _ | .read _ _ => .isTrue trivial
  | .kill _ | .readEnd _ _ _ => .isFalse id

/-! ### The ring -/

/-- The ring holds the committed characters that nobody has taken, and then the line being edited; the
readers' buffers have got what was taken. -/
structure Lines (p : Console) : Prop where
  le : (p.w - p.r).toNat ≤ (p.e - p.r).toNat
  full : (p.e - p.r).toNat ≤ 128
  ring : ∃ unread, p.committed = p.taken ++ unread ∧ unread.length = (p.w - p.r).toNat ∧
    window p.buf p.r (p.e - p.r).toNat = unread ++ p.line
  copied : p.copied = p.taken.filter (· ≠ ctrl 'D')

theorem add_sub_eq (a b : BitVec 32) : a + BitVec.ofNat 32 (b - a).toNat = b := by
  rw [BitVec.ofNat_toNat, BitVec.setWidth_eq]
  bv_omega

variable {p : Console} {ι : Type} {k : Pos}

/-- A character typed is added at the end, and no unread one is overwritten. -/
theorem Lines.store (h : Lines p) (hlt : p.e - p.r < 128) (c : Byte) :
    Lines (p.store c) := by
  have hlt' : (p.e - p.r).toNat < 128 := hlt
  have hcount : (p.e + 1 - p.r).toNat = (p.e - p.r).toNat + 1 := by bv_omega
  obtain ⟨unread, hcommitted, hlen, hring⟩ := h.ring
  refine ⟨?_, ?_, ⟨unread, hcommitted, hlen, ?_⟩, h.copied⟩
  · show (p.w - p.r).toNat ≤ (p.e + 1 - p.r).toNat
    have := h.le
    omega
  · show (p.e + 1 - p.r).toNat ≤ 128
    omega
  · show window (Function.update p.buf (slot 128 p.e) c) p.r (p.e + 1 - p.r).toNat =
      unread ++ (p.line ++ [c])
    have hupdate : window (Function.update p.buf (slot 128 p.e) c) p.r (p.e - p.r).toNat =
        window p.buf p.r (p.e - p.r).toNat := by
      have := Window.window_update (by decide) p.buf p.r hlt' c
      rwa [add_sub_eq] at this
    rw [hcount, Window.window_succ, add_sub_eq, Function.update_self, hupdate, hring,
      List.append_assoc]

theorem Lines.erase (h : Lines p) (hne : p.e ≠ p.w) : Lines p.erase := by
  have hle := h.le
  have hlt : (p.w - p.r).toNat < (p.e - p.r).toNat := by bv_omega
  have hcount : (p.e - 1 - p.r).toNat + 1 = (p.e - p.r).toNat := by bv_omega
  have hfull := h.full
  obtain ⟨unread, hcommitted, hlen, hring⟩ := h.ring
  have hline : p.line ≠ [] := by
    intro hnil
    have := congrArg List.length hring
    rw [Window.length_window, hnil, List.append_nil] at this
    omega
  refine ⟨?_, ?_, ⟨unread, hcommitted, hlen, ?_⟩, h.copied⟩
  · show (p.w - p.r).toNat ≤ (p.e - 1 - p.r).toNat
    omega
  · show (p.e - 1 - p.r).toNat ≤ 128
    omega
  · show window p.buf p.r (p.e - 1 - p.r).toNat = unread ++ p.line.dropLast
    rw [← hcount, Window.window_succ] at hring
    rw [← List.dropLast_append_of_ne_nil hline, ← hring, List.dropLast_concat]

theorem Lines.commit (h : Lines p) : Lines p.commit := by
  obtain ⟨unread, hcommitted, hlen, hring⟩ := h.ring
  refine ⟨le_rfl, h.full, ⟨unread ++ p.line, ?_, ?_, ?_⟩, h.copied⟩
  · show p.committed ++ p.line = p.taken ++ (unread ++ p.line)
    rw [hcommitted, List.append_assoc]
  · show (unread ++ p.line).length = (p.e - p.r).toNat
    rw [← hring, Window.length_window]
  · show window p.buf p.r (p.e - p.r).toNat = unread ++ p.line ++ []
    rw [hring, List.append_nil]

theorem Lines.take (h : Lines p) (hne : p.r ≠ p.w) {copied : List Byte}
    (hcopied : copied = p.copied ++ [p.buf (slot 128 p.r)].filter (· ≠ ctrl 'D')) :
    Lines { p.take with copied := copied } := by
  have hle := h.le
  have hfull := h.full
  have hw : (p.w - (p.r + 1)).toNat + 1 = (p.w - p.r).toNat := by bv_omega
  have he : (p.e - (p.r + 1)).toNat + 1 = (p.e - p.r).toNat := by bv_omega
  obtain ⟨unread, hcommitted, hlen, hring⟩ := h.ring
  rw [← he, Window.window_cons] at hring
  cases unread with
  | nil =>
    rw [List.length_nil] at hlen
    omega
  | cons c unread =>
    obtain ⟨hc, hrest⟩ := List.cons.inj hring
    rw [List.length_cons] at hlen
    refine ⟨?_, ?_, ⟨unread, ?_, ?_, hrest⟩, ?_⟩
    · show (p.w - (p.r + 1)).toNat ≤ (p.e - (p.r + 1)).toNat
      omega
    · show (p.e - (p.r + 1)).toNat ≤ 128
      omega
    · show p.committed = p.taken ++ [p.buf (slot 128 p.r)] ++ unread
      rw [hcommitted, hc, List.append_assoc]
      rfl
    · show unread.length = (p.w - (p.r + 1)).toNat
      omega
    · show copied = (p.taken ++ [p.buf (slot 128 p.r)]).filter (· ≠ ctrl 'D')
      rw [hcopied, h.copied, List.filter_append]

/-! ### End of file -/

/-- Each `^D` taken belongs to a call that returned no byte, but for `k` of them whose calls are about
to. -/
structure Ends (p : Console) (k : ℕ) : Prop where
  count : p.taken.count (ctrl 'D') = p.returned.countP (·.2) + k
  empty : ∀ x ∈ p.returned, x.2 = true → x.1 = []

theorem Ends.take (h : Ends p 0) (hc : p.buf (slot 128 p.r) ≠ ctrl 'D')
    (copied : List Byte) : Ends { p.take with copied := copied } 0 := by
  refine ⟨?_, h.empty⟩
  show (p.taken ++ [p.buf (slot 128 p.r)]).count (ctrl 'D') = p.returned.countP (·.2) + 0
  rw [List.count_append, h.count, List.count_singleton, if_neg (by simpa using hc)]

theorem Ends.takeEof (h : Ends p 0) (hc : p.buf (slot 128 p.r) = ctrl 'D') :
    Ends p.take 1 := by
  refine ⟨?_, h.empty⟩
  show (p.taken ++ [p.buf (slot 128 p.r)]).count (ctrl 'D') = p.returned.countP (·.2) + 1
  rw [List.count_append, h.count, List.count_singleton, if_pos (by simpa using hc)]

theorem Ends.ret {got : List Byte} {eof : Bool} (h : Ends p eof.toNat)
    (hgot : eof = true → got = []) : Ends { p with returned := p.returned ++ [(got, eof)] } 0 := by
  refine ⟨?_, fun x hx hx2 => ?_⟩
  · show p.taken.count (ctrl 'D') = (p.returned ++ [(got, eof)]).countP (·.2) + 0
    rw [List.countP_append, h.count]
    cases eof <;> rfl
  · rcases List.mem_append.1 hx with hx | hx
    · exact h.empty x hx hx2
    · rw [List.mem_singleton] at hx
      subst hx
      exact hgot hx2

/-! ### The line discipline -/

inductive Turn (killed : Bool) (p : Console) : Pos → Console → Act Chan Pos → Prop
  | intrEnd : Turn killed p (.intr []) p .ret
  | ignored (c : Byte) (chars : List Byte) : Turn killed p (.intr (c :: chars)) p (.goto (.intr chars))
  | killLine (c : Byte) (chars : List Byte) : Turn killed p (.intr (c :: chars)) p (.goto (.kill chars))
  | backspace {c : Byte} {chars : List Byte} : p.e ≠ p.w →
    Turn killed p (.intr (c :: chars)) p.erase (.goto (.intr chars))
  | typed {c x : Byte} {chars : List Byte} : p.e - p.r < 128 →
    Turn killed p (.intr (c :: chars)) (p.store x) (.goto (.intr chars))
  | committed {c x : Byte} {chars : List Byte} : p.e - p.r < 128 →
    Turn killed p (.intr (c :: chars)) (p.store x).commit (.wakeup .r (.intr chars))
  | killed {chars : List Byte} : p.e ≠ p.w → Turn killed p (.kill chars) p.erase (.goto (.kill chars))
  | killEnd (chars : List Byte) : Turn killed p (.kill chars) p (.goto (.intr chars))
  | readStop {target : ℤ} {got : List Byte} : p.r = p.w → killed = true →
    Turn killed p (.read target got) p .ret
  | readSleep {target : ℤ} {got : List Byte} : p.r = p.w →
    Turn killed p (.read target got) p (.sleep .r (.read target got))
  | stop (target : ℤ) (got : List Byte) :
    Turn killed p (.read target got) p (.goto (.readEnd target got false))
  | eof {target : ℤ} : p.r ≠ p.w → p.buf (slot 128 p.r) = ctrl 'D' →
    Turn killed p (.read target []) p.take (.goto (.readEnd target [] true))
  | newline {target : ℤ} {got : List Byte} : p.r ≠ p.w → p.buf (slot 128 p.r) ≠ ctrl 'D' →
    Turn killed p (.read target got) { p.take with copied := p.copied ++ [p.buf (slot 128 p.r)] }
      (.goto (.readEnd target (got ++ [p.buf (slot 128 p.r)]) false))
  | copy {target : ℤ} {got : List Byte} : p.r ≠ p.w → p.buf (slot 128 p.r) ≠ ctrl 'D' →
    Turn killed p (.read target got) { p.take with copied := p.copied ++ [p.buf (slot 128 p.r)] }
      (.goto (.read target (got ++ [p.buf (slot 128 p.r)])))
  | readEnd (target : ℤ) (got : List Byte) (eof : Bool) :
    Turn killed p (.readEnd target got eof) { p with returned := p.returned ++ [(got, eof)] } .ret

theorem code_turn (i : ι) (killed : Bool) (p : Console) (k : Pos) :
    Turn killed p k (code i killed p k).1 (code i killed p k).2 := by
  cases k with
  | intr chars =>
    cases chars with
    | nil => exact .intrEnd
    | cons c chars =>
      rw [code]
      dsimp only
      split_ifs with hP hU hH he hstore hnl hcommit
      · exact .ignored c chars
      · exact .killLine c chars
      · exact .backspace he
      · exact .ignored c chars
      · exact .committed hstore.2
      · exact .typed hstore.2
      · exact .committed hstore.2
      · exact .typed hstore.2
      · exact .ignored c chars
  | kill chars =>
    rw [code]
    split_ifs with hmore
    · exact .killed hmore.1
    · exact .killEnd chars
  | read target got =>
    rw [code]
    dsimp only
    split_ifs with hn hempty hkilled heof hgot hnl
    · exact .readStop hempty hkilled
    · exact .readSleep hempty
    · exact .stop target got
    · rw [not_not.1 hgot]
      exact .eof hempty heof
    · exact .newline hempty heof
    · exact .copy hempty heof
    · exact .stop target got
  | readEnd target got eof => exact .readEnd target got eof

theorem turn_of_code {i : ι} {killed : Bool} {p' : Console} {a : Act Chan Pos}
    (h : code i killed p k = (p', a)) : Turn killed p k p' a := by
  have := code_turn i killed p k
  rwa [h] at this

/-- Whether a call at this place has taken a `^D`. -/
def Pos.eof : Pos → Bool
  | .readEnd _ _ eof => eof
  | _ => false

/-- Whether the call that works on the console has taken a `^D` and is about to return. -/
def eofPending {ι : Type} (s : State ι) : Bool :=
  ((s.lock.bind fun i => (s.phase i).pos).map Pos.eof).getD false

/-- What holds while no call works on the console. -/
structure Rest (p : Console) : Prop where
  lines : Lines p
  ends : Ends p 0

/-- What holds while a call works on the console. -/
def Track (p : Console) : Pos → Prop
  | .readEnd _ got eof => Lines p ∧ Ends p eof.toNat ∧ (eof = true → got = [])
  | _ => Rest p

theorem lines_of_track (h : Track p k) : Lines p := by
  cases k with
  | readEnd target got eof => exact h.1
  | _ => exact Rest.lines h

theorem ends_of_track (h : Track p k) : Ends p k.eof.toNat := by
  cases k with
  | readEnd target got eof => exact h.2.1
  | _ => exact Rest.ends h

theorem Lines.copy (h : Lines p) (hne : p.r ≠ p.w)
    (hc : p.buf (slot 128 p.r) ≠ ctrl 'D') :
    Lines { p.take with copied := p.copied ++ [p.buf (slot 128 p.r)] } := by
  apply h.take hne
  simp [hc]

theorem Lines.eof (h : Lines p) (hne : p.r ≠ p.w)
    (hc : p.buf (slot 128 p.r) = ctrl 'D') : Lines p.take := by
  apply h.take hne
  simp [hc]

theorem code_keeps (Fair : ι → Bool → Console → Pos → Prop) :
    Monitor.Keeps code Entry Fair Rest Track where
  enter := by
    intro p k h hk
    cases k <;> first | exact h | cases hk
  goto := by
    intro i x p k p' k' h _ hcode
    cases turn_of_code hcode with
    | ignored => exact h
    | killLine => exact h
    | backspace hne => exact ⟨h.lines.erase hne, h.ends.count, h.ends.empty⟩
    | typed hlt => exact ⟨h.lines.store hlt _, h.ends.count, h.ends.empty⟩
    | killed hne => exact ⟨h.lines.erase hne, h.ends.count, h.ends.empty⟩
    | killEnd => exact h
    | stop => exact ⟨h.lines, h.ends, by simp⟩
    | eof hne hc => exact ⟨h.lines.eof hne hc, h.ends.takeEof hc, fun _ => rfl⟩
    | newline hne hc => exact ⟨h.lines.copy hne hc, h.ends.take hc _, by simp⟩
    | copy hne hc => exact ⟨h.lines.copy hne hc, h.ends.take hc _⟩
  wakeup := by
    intro i x p k p' c k' h _ hcode
    cases turn_of_code hcode with
    | committed hlt => exact ⟨(h.lines.store hlt _).commit, h.ends.count, h.ends.empty⟩
  sleep := by
    intro i x p k p' c k' h _ hcode
    cases turn_of_code hcode with
    | readSleep => exact ⟨h, trivial⟩
  ret := by
    intro i x p k p' h _ hcode
    cases turn_of_code hcode with
    | intrEnd => exact h
    | readStop => exact h
    | readEnd target got eof =>
      obtain ⟨hlines, hends, hgot⟩ := h
      exact ⟨⟨hlines.le, hlines.full, hlines.ring, hlines.copied⟩, hends.ret hgot⟩

theorem start_tracked (ι : Type) (buf : Fin 128 → Byte) :
    Monitor.Tracked Entry Rest Track (start ι buf) where
  locks := ⟨fun _ => iff_of_false Bool.false_ne_true nofun, fun _ => iff_of_false Bool.false_ne_true nofun⟩
  entry := nofun
  track := nofun
  rest := fun _ => ⟨⟨by simp [start], by simp [start], ⟨[], by simp [start]⟩, rfl⟩, ⟨rfl, by simp [start]⟩⟩

theorem code_committed {i : ι} {killed : Bool} {p' : Console} {a : Act Chan Pos}
    (h : code i killed p k = (p', a)) : p.committed <+: p'.committed := by
  cases turn_of_code h with
  | committed => exact List.prefix_append _ _
  | _ => exact List.prefix_rfl

theorem run_committed [DecidableEq ι] {es : List (Event ι)} {s t : State ι}
    (hrun : Run.run step es s = .ok t) : s.shared.committed <+: t.shared.committed := by
  induction es generalizing s with
  | nil =>
    cases hrun
    exact List.prefix_rfl
  | cons e es ih =>
    obtain ⟨u, hstep, hrest⟩ := Run.run_cons_ok hrun
    refine List.IsPrefix.trans ?_ (ih hrest)
    cases hstep
    have hmove : Monitor.Move code s e (s.next code e) := Monitor.next_move e
    rcases hmove.shared with hsame | ⟨i, k, a, -, hcode⟩
    · simp [hsame]
    · exact code_committed hcode

theorem Lines.parts (h : Lines p) :
    p.committed = p.taken ++ window p.buf p.r (p.w - p.r).toNat ∧
      p.line = window p.buf p.w (p.e - p.w).toNat := by
  obtain ⟨unread, hcommitted, hlen, hring⟩ := h.ring
  have hle := h.le
  have hsum : (p.e - p.r).toNat = (p.w - p.r).toNat + (p.e - p.w).toNat := by bv_omega
  rw [hsum, Window.window_add, add_sub_eq] at hring
  obtain ⟨hunread, hline⟩ := List.append_inj hring (by rw [Window.length_window, hlen])
  exact ⟨by rw [hcommitted, hunread], hline.symm⟩

theorem eofPending_of_idle {s : State ι} (h : Monitor.Tracked Entry Rest Track s)
    (hidle : ∀ i, (s.phase i).active = false) : eofPending s = false := by
  unfold eofPending
  cases hlock : s.lock with
  | none => rfl
  | some i =>
    cases hpos : (s.phase i).pos with
    | none => simp [hpos]
    | some k =>
      have hentry := h.entry i k (hidle i) hpos
      cases k with
      | intr chars => simp [hpos, Pos.eof]
      | read target got => simp [hpos, Pos.eof]
      | kill chars => cases hentry
      | readEnd target got eof => cases hentry

theorem eofPending_of_active {s : State ι} (h : Monitor.Tracked Entry Rest Track s) {i : ι}
    (hactive : (s.phase i).active = true) (hk : (s.phase i).pos = some k) :
    eofPending s = k.eof := by
  have hlock := (h.locks.lock i).1 (Monitor.Phase.hasLock_of_active hactive)
  simp [eofPending, hlock, hk]

/-- The line discipline.  Whatever is typed and read, in every reached state the counters are in order
and the ring is not overfull; the places from `r` to `w` hold the characters that were committed and not
yet taken, and those from `w` to `e` the line as it was edited.  What was committed earlier is a beginning
of what is committed now.  The characters copied to readers are those taken, without the `^D`; and
each `^D` that was taken belongs to a call that returns no byte. -/
theorem console_discipline {ι : Type} [DecidableEq ι] {buf : Fin 128 → Byte} {es : List (Event ι)}
    {s : State ι}
    (hcalls : Run.Admits step (Monitor.Legal Entry fun _ _ _ _ => True) es (start ι buf))
    (hrun : Run.run step es (start ι buf) = .ok s) :
    ((s.shared.w - s.shared.r).toNat ≤ (s.shared.e - s.shared.r).toNat ∧
      (s.shared.e - s.shared.r).toNat ≤ 128) ∧
    (s.shared.committed =
        s.shared.taken ++ window s.shared.buf s.shared.r (s.shared.w - s.shared.r).toNat ∧
      s.shared.line = window s.shared.buf s.shared.w (s.shared.e - s.shared.w).toNat) ∧
    (∀ es' t, Run.run step es' s = .ok t → s.shared.committed <+: t.shared.committed) ∧
    s.shared.copied = s.shared.taken.filter (· ≠ ctrl 'D') ∧
    s.shared.taken.count (ctrl 'D') = s.shared.returned.countP (·.2) + (eofPending s).toNat ∧
    (∀ x ∈ s.shared.returned, x.2 = true → x.1 = []) ∧
    ∀ i target got, (s.phase i).pos = some (.readEnd target got true) → got = [] := by
  have h := (code_keeps _).run (start_tracked ι buf) hcalls hrun
  have hstate : Lines s.shared ∧ Ends s.shared (eofPending s).toNat := by
    by_cases hidle : ∀ i, (s.phase i).active = false
    · rw [eofPending_of_idle h hidle]
      exact ⟨(h.rest hidle).lines, (h.rest hidle).ends⟩
    · push Not at hidle
      obtain ⟨i, hi⟩ := hidle
      have hactive := Bool.eq_true_of_not_eq_false hi
      obtain ⟨k, hk⟩ := Monitor.Phase.pos_of_active hactive
      have htrack := h.track i k hactive hk
      rw [eofPending_of_active h hactive hk]
      exact ⟨lines_of_track htrack, ends_of_track htrack⟩
  obtain ⟨hlines, hends⟩ := hstate
  refine ⟨⟨hlines.le, hlines.full⟩, hlines.parts, fun _ _ => run_committed, hlines.copied, hends.count,
    hends.empty, fun i target got hi => ?_⟩
  cases hactive : (s.phase i).active with
  | false => exact absurd (h.entry i _ hactive hi) id
  | true => exact (h.track i _ hactive hi).2.2 rfl

/-- The two processes of the samples are written as numbers. -/
local instance neZeroUsers : NeZero 2 := ⟨by decide⟩

/-- A reader that goes to sleep, a line with a correction and a `^D` typed, and three reads. -/
def sampleEvents : List (Event (Fin 2)) :=
  [.call 1 (.read 9 [])] ++ List.replicate 5 (.step 1) ++ [.give, .call 0 (.intr [97, 98, 8, 99, 13, 100, 4])] ++
    List.replicate 12 (.step 0) ++ List.replicate 8 (.step 1) ++ [.call 1 (.read 9 [])] ++
    List.replicate 4 (.step 1) ++ [.call 1 (.read 9 [])] ++ List.replicate 3 (.step 1)

theorem console_discipline_sample : ∃ s, Run.run step sampleEvents (start (Fin 2) fun _ => 0) = .ok s ∧
    s.shared.returned = [([97, 99, 10], false), ([100], false), ([], true)] ∧
    s.shared.copied = s.shared.taken.filter (· ≠ ctrl 'D') := by
  have hcalls : Run.Admits step (Monitor.Legal Entry fun _ _ _ _ => True) sampleEvents
      (start (Fin 2) fun _ => 0) := .of_decide (by decide +kernel)
  have heval : Run.endsIn (fun s => decide (s.shared.returned =
      [([97, 99, 10], false), ([100], false), ([], true)]))
      (Run.run step sampleEvents (start (Fin 2) fun _ => 0)) = true := by decide +kernel
  obtain ⟨s, hrun, htest⟩ := Run.of_endsIn heval
  exact ⟨s, hrun, of_decide_eq_true htest, (console_discipline hcalls hrun).2.2.2.1⟩

end Console

end Xv6
