import Xv6.Contents

/-!
# An open file shared by several processes

`filewrite` and `fileread` of any number of processes on one `struct file` of a regular file.  The chunks of
`filewrite` and the calls of `fileread` are the steps, each with the inode locked, on the blocks of the disk.
-/

namespace Xv6.SharedFile

/-- A `filewrite` under way: `i` of the `n` bytes at `addr` are written. -/
structure Call where
  addr : ℕ → Byte
  n : ℕ
  i : ℕ

/-- What a chunk or a read has moved.  `src` is what was written. -/
structure Transfer (ν : Type*) where
  proc : ν
  off : ℕ
  len : ℕ
  src : Option (ℕ → Byte)

/-- The open file, the disk under it and the processes. -/
structure State (ν : Type*) where
  fs : Fs
  ip : Fin 50
  off : ℕ
  readable : Bool
  writable : Bool
  call : ν → Option Call
  /-- What has been moved so far, in the order of the lock.  Nothing reads it. -/
  log : List (Transfer ν)

inductive Event (ν : Type*) where
  /-- A process calls `filewrite`. -/
  | filewrite (p : ν) (addr : ℕ → Byte) (n : ℕ)
  /-- The next round of its loop. -/
  | chunk (p : ν)
  | fileread (p : ν) (n : ℕ)

section
variable {ν : Type*}

/-- `f->off += r`. -/
def State.moved (s : State ν) (fs : Fs) (p : ν) (len : ℕ) (src : Option (ℕ → Byte)) : State ν :=
  { s with fs := fs, off := s.off + len, log := s.log ++ [⟨p, s.off, len, src⟩] }

def fileread (s : State ν) (p : ν) (n : ℕ) : Except Halt (State ν) :=
  if s.readable then
    match s.fs.ilock s.ip with
    | .error e => .error e
    | .ok fs =>
      match fs.readi s.ip s.off n [] with
      | .error e => .error e
      | .ok (none, fs) => .ok { s with fs := fs }
      | .ok (some dst, fs) => .ok (s.moved fs p dst.length none)
  else .ok s

variable [DecidableEq ν]

/-- The loop of `filewrite` stops or goes on. -/
def State.setCall (s : State ν) (p : ν) (c : Option Call) : State ν :=
  { s with call := Function.update s.call p c }

/-- One round of the loop of `filewrite`. -/
def chunk (s : State ν) (p : ν) (c : Call) : Except Halt (State ν) :=
  if c.i < c.n then
    let n1 := min (c.n - c.i) maxChunk
    let src := fun k => c.addr (c.i + k)
    match s.fs.ilock s.ip with
    | .error e => .error e
    | .ok fs =>
      match fs.writei s.ip src s.off n1 with
      | .error e => .error e
      | .ok (none, fs) => .ok ({ s with fs := fs }.setCall p none)
      | .ok (some r, fs) =>
        if r ≠ n1 then .error (.panic "short filewrite")
        else .ok ((s.moved fs p r (some src)).setCall p (some { c with i := c.i + r }))
  else .ok (s.setCall p none)

def step (s : State ν) : Event ν → Except Halt (State ν)
  | .filewrite p addr n =>
    match s.call p with
    | none => .ok (if s.writable then s.setCall p (some ⟨addr, n, 0⟩) else s)
    | some _ => .ok s
  | .chunk p =>
    match s.call p with
    | none => .ok s
    | some c => chunk s p c
  | .fileread p n =>
    match s.call p with
    | none => fileread s p n
    | some _ => .ok s

end

/-! ### The log -/

variable {ν : Type*}

def total (log : List (Transfer ν)) : ℕ := (log.map Transfer.len).sum

def Covers (t : Transfer ν) (k : ℕ) : Prop := t.src ≠ none ∧ t.off ≤ k ∧ k < t.off + t.len

/-- What the log says of the file, which was `f₀` when the offset was `off₀`. -/
structure Record (f₀ : File) (off₀ : ℕ) (log : List (Transfer ν)) (f : File) (off : ℕ) : Prop where
  /-- The offset has advanced by what was moved. -/
  advance : off = off₀ + total log
  /-- Each range begins where the one before it ends. -/
  ranges : ∀ l₁ t l₂, log = l₁ ++ t :: l₂ → t.off = off₀ + total l₁
  before : ∀ t ∈ log, t.off + t.len ≤ off
  apart : log.Pairwise fun t u => t.off + t.len ≤ u.off
  written : ∀ t ∈ log, ∀ src, t.src = some src →
    0 < t.len ∧ ∀ k, k < t.len → f.byte (t.off + k) = src k
  others : ∀ k, k < f.size → (∀ t ∈ log, ¬Covers t k) → k < f₀.size ∧ f.byte k = f₀.byte k
  inside : off ≤ f.size

theorem total_append (log : List (Transfer ν)) (t : Transfer ν) : total (log ++ [t]) = total log + t.len := by
  simp [total]

section
variable {f₀ f g : File} {off₀ off : ℕ} {log : List (Transfer ν)}

theorem record_nil (h : off ≤ f.size) : Record f off ([] : List (Transfer ν)) f off where
  advance := rfl
  ranges l₁ t l₂ hl := by simp at hl
  before _ ht := nomatch ht
  apart := .nil
  written _ ht := nomatch ht
  others _ hk _ := ⟨hk, rfl⟩
  inside := h

section

variable (h : Record f₀ off₀ log f off)

include h

theorem Record.agrees (hg : g.Agrees f) : Record f₀ off₀ log g off where
  advance := h.advance
  ranges := h.ranges
  before := h.before
  apart := h.apart
  written t ht src hsrc := by
    obtain ⟨hpos, hbytes⟩ := h.written t ht src hsrc
    have hend := (h.before t ht).trans h.inside
    exact ⟨hpos, fun k hk => (hg.byte _ (by rw [hg.size]; omega)).trans (hbytes k hk)⟩
  others k hk hnot := by
    rw [hg.byte k hk]
    rw [hg.size] at hk
    exact h.others k hk hnot
  inside := by
    rw [hg.size]
    exact h.inside

theorem Record.append {f' : File} {x : Transfer ν} (hx : x.off = off)
    (hwritten : ∀ t ∈ log ++ [x], ∀ src, t.src = some src →
      0 < t.len ∧ ∀ k, k < t.len → f'.byte (t.off + k) = src k)
    (hothers : ∀ k, k < f'.size → (∀ t ∈ log ++ [x], ¬Covers t k) → k < f₀.size ∧ f'.byte k = f₀.byte k)
    (hinside : off + x.len ≤ f'.size) : Record f₀ off₀ (log ++ [x]) f' (off + x.len) where
  advance := by
    rw [total_append, h.advance, Nat.add_assoc]
  ranges l₁ t l₂ hl := by
    rcases List.eq_nil_or_concat l₂ with rfl | ⟨l, y, rfl⟩
    · obtain ⟨hlog, ht⟩ := List.append_inj' hl rfl
      cases ht
      rw [hx, h.advance, hlog]
    · rw [List.concat_eq_append, ← List.cons_append, ← List.append_assoc] at hl
      exact h.ranges l₁ t l (List.append_inj' hl rfl).1
  before t ht := by
    rcases List.mem_append.1 ht with ht | ht
    · exact (h.before t ht).trans (Nat.le_add_right _ _)
    · rw [List.mem_singleton.1 ht, hx]
  apart := by
    refine List.pairwise_append.2 ⟨h.apart, List.pairwise_singleton _ _, fun t ht u hu => ?_⟩
    rw [List.mem_singleton.1 hu, hx]
    exact h.before t ht
  written := hwritten
  others := hothers
  inside := hinside

theorem Record.read (p : ν) {len : ℕ} (hlen : off + len ≤ f.size) :
    Record f₀ off₀ (log ++ [⟨p, off, len, none⟩]) f (off + len) := by
  refine h.append rfl ?_ ?_ hlen
  · intro t ht src hsrc
    rcases List.mem_append.1 ht with ht | ht
    · exact h.written t ht src hsrc
    · rw [List.mem_singleton.1 ht] at hsrc
      cases hsrc
  · exact fun k hk hnot => h.others k hk fun t ht => hnot t (List.mem_append_left _ ht)

theorem Record.write (p : ν) {src : ℕ → Byte} {n : ℕ} (hn : 0 < n) :
    Record f₀ off₀ (log ++ [⟨p, off, n, some src⟩]) (f.overwrite src off n) (off + n) := by
  refine h.append rfl ?_ ?_ (File.overwrite_size f src hn)
  · intro t ht src' hsrc
    rcases List.mem_append.1 ht with ht | ht
    · -- what was written before lies below the offset
      obtain ⟨hpos, hbytes⟩ := h.written t ht src' hsrc
      have hend := h.before t ht
      refine ⟨hpos, fun k hk => ?_⟩
      show (if off ≤ t.off + k ∧ t.off + k < off + n then src (t.off + k - off) else f.byte (t.off + k)) = _
      rw [if_neg (by omega)]
      exact hbytes k hk
    · rw [List.mem_singleton.1 ht] at hsrc ⊢
      cases hsrc
      refine ⟨hn, fun k hk => ?_⟩
      change k < n at hk
      show (if off ≤ off + k ∧ off + k < off + n then src (off + k - off) else f.byte (off + k)) = _
      rw [if_pos (by omega), Nat.add_sub_cancel_left]
  · intro k hk hnot
    have hout : ¬(off ≤ k ∧ k < off + n) := fun hin =>
      hnot ⟨p, off, n, some src⟩ (List.mem_append_right _ (List.mem_singleton.2 rfl)) ⟨fun h => (nomatch h), hin⟩
    have hinside := h.inside
    have hk' : k < f.size := by
      change k < if 0 < n ∧ f.size < off + n then off + n else f.size at hk
      split_ifs at hk <;> omega
    obtain ⟨hlt, hsame⟩ := h.others k hk' fun t ht => hnot t (List.mem_append_left _ ht)
    refine ⟨hlt, ?_⟩
    show (if off ≤ k ∧ k < off + n then src (k - off) else f.byte k) = _
    rw [if_neg hout]
    exact hsame

end

end

/-! ### Runs -/

/-- The file has been opened: nothing is under way. -/
structure Opened (s : State ν) : Prop where
  sound : s.fs.Sound
  locked : s.fs.Locked s.ip
  regular : (s.fs.icache s.ip).type ≠ Fs.tDev
  inside : s.off ≤ (s.fs.icache s.ip).size
  log : s.log = []

/-- What holds between two steps. -/
structure Good (s₀ s : State ν) : Prop where
  sound : s.fs.Sound
  locked : s.fs.Locked s.ip
  regular : (s.fs.icache s.ip).type ≠ Fs.tDev
  record : Record (s₀.fs.file s₀.ip) s₀.off s.log (s.fs.file s.ip) s.off

theorem ilock_locked {fs : Fs} {i : Fin 50} (h : fs.Locked i) : fs.ilock i = .ok fs := by
  have href := h.1
  unfold Fs.ilock
  dsimp only
  rw [if_neg (by omega), if_pos h.2]

variable {s₀ s s' : State ν} {p : ν}

theorem Opened.good (h : Opened s) : Good s s where
  sound := h.sound
  locked := h.locked
  regular := h.regular
  record := by
    rw [h.log]
    exact record_nil h.inside

theorem Good.fileread {n : ℕ} (h : Good s₀ s) (hstep : fileread s p n = .ok s') : Good s₀ s' := by
  unfold SharedFile.fileread at hstep
  rw [ilock_locked h.locked] at hstep
  dsimp only at hstep
  split_ifs at hstep
  · rcases Fs.readi_content h.sound h.locked h.regular s.off n [] with hread | ⟨m, -, hm, hread⟩
    · rw [hread] at hstep
      cases hstep
      exact ⟨h.sound, h.locked, h.regular, h.record⟩
    · rw [hread] at hstep
      cases hstep
      refine ⟨h.sound, h.locked, h.regular, ?_⟩
      rw [List.length_map, List.length_range]
      exact h.record.read p hm
  · cases hstep
    exact h

variable [DecidableEq ν]

theorem Good.setCall {c : Option Call} (h : Good s₀ s) : Good s₀ (s.setCall p c) :=
  ⟨h.sound, h.locked, h.regular, h.record⟩

theorem Good.chunk {c : Call} (h : Good s₀ s) (hstep : chunk s p c = .ok s') : Good s₀ s' := by
  unfold SharedFile.chunk at hstep
  rw [ilock_locked h.locked] at hstep
  dsimp only at hstep
  split_ifs at hstep with hi
  · have hpos : 0 < min (c.n - c.i) maxChunk := by
      simp only [maxChunk]
      omega
    generalize min (c.n - c.i) maxChunk = n1 at hpos hstep
    generalize (fun k => c.addr (c.i + k)) = src at hstep
    have hsound := Fs.writei_meets h.sound h.locked src s.off n1
    have hrefines := Fs.writei_refines h.sound h.locked h.regular src s.off n1
    cases hw : s.fs.writei s.ip src s.off n1 with
    | error e =>
      rw [hw] at hstep
      cases hstep
    | ok r =>
      obtain ⟨res, fs⟩ := r
      rw [hw] at hstep hsound hrefines
      obtain ⟨hlocked, htype, hcase⟩ := hrefines
      rcases hcase with ⟨-, hnone⟩ | ⟨hres, f, hfile, hagrees⟩
      · cases hnone
        cases hstep
        exact Good.setCall ⟨h.sound, h.locked, h.regular, h.record⟩
      · cases hres
        dsimp only at hstep
        rw [if_neg (fun hc => hc rfl)] at hstep
        cases hstep
        refine Good.setCall ⟨hsound, hlocked, ?_, ?_⟩
        · change (fs.icache s.ip).type ≠ _
          rw [htype]
          exact h.regular
        · refine Record.agrees ?_ hagrees
          rw [File.writei_some hfile]
          exact h.record.write p hpos
  · cases hstep
    exact h.setCall

theorem Good.step {e : Event ν} (h : Good s₀ s) (hstep : step s e = .ok s') : Good s₀ s' := by
  cases e with
  | filewrite p addr n =>
    rw [SharedFile.step] at hstep
    split at hstep
    · cases hstep
      split
      · exact h.setCall
      · exact h
    · cases hstep
      exact h
  | chunk p =>
    rw [SharedFile.step] at hstep
    split at hstep
    · cases hstep
      exact h
    · exact h.chunk hstep
  | fileread p n =>
    rw [SharedFile.step] at hstep
    split at hstep
    · exact h.fileread hstep
    · cases hstep
      exact h

/-- Writers that share an open file lose no update: in every run of the chunks and reads of any number of
processes the ranges follow each other in the order of the lock, every accepted chunk is in the file at its
own range, and the offset has advanced by what was moved. -/
theorem shared_offset_keeps_updates {es : List (Event ν)} (hopened : Opened s₀)
    (hrun : Run.run step es s₀ = .ok s) :
    Record (s₀.fs.file s₀.ip) s₀.off s.log (s.fs.file s.ip) s.off := by
  have hgood : Good s₀ s := Run.invariant (P := fun _ _ => True) (fun _ _ _ h _ hstep => h.step hstep)
    hopened.good (.all (fun _ _ => trivial) es s₀) hrun
  exact hgood.record

local instance neZeroInodes : NeZero 50 := ⟨by decide⟩

/-- A disk with an empty file that is open. -/
def openedDisk : Fs :=
  match Run.run Fs.step [.ialloc 2, .ilock 0] Fs.sample with
  | .ok fs => fs
  | .error _ => Fs.sample

theorem openedDisk_sound : openedDisk.Sound := by
  have hlegal : Run.Admits Fs.step Fs.Legal [.ialloc 2, .ilock 0] Fs.sample := .of_decide (by decide +kernel)
  have hmeets : Run.Meets Fs.Stops Fs.Sound (Run.run Fs.step [.ialloc 2, .ilock 0] Fs.sample) :=
    Run.Meets.run (fun _ _ hs hop => hs.step hop) Fs.sample_image.sound hlegal
  unfold openedDisk
  split
  · rename_i fs hfs
    rw [hfs] at hmeets
    exact hmeets
  · exact Fs.sample_image.sound

def sampleState : State Bool := ⟨openedDisk, 0, 0, true, true, fun _ => none, []⟩

def sampleEvents : List (Event Bool) :=
  [.filewrite true (fun _ => 7) 1600, .filewrite false (fun _ => 9) 3, .chunk true, .chunk false,
    .chunk true]

/-- A write of two chunks, with the write of another process between them. -/
theorem shared_offset_keeps_updates_sample : Opened sampleState ∧
    ∃ s, Run.run step sampleEvents sampleState = .ok s ∧
      s.log.map (fun t => (t.off, t.len)) = [(0, 1536), (1536, 3), (1539, 64)] ∧ s.off = 1603 ∧
      Record (sampleState.fs.file 0) 0 s.log (s.fs.file s.ip) s.off := by
  have hopened : Opened sampleState :=
    ⟨openedDisk_sound, by decide +kernel, by decide +kernel, Nat.zero_le _, rfl⟩
  have heval : Run.endsIn (fun s => decide (s.log.map (fun t => (t.off, t.len)) =
      [(0, 1536), (1536, 3), (1539, 64)] ∧ s.off = 1603)) (Run.run step sampleEvents sampleState) = true := by
    decide +kernel
  obtain ⟨s, hrun, htest⟩ := Run.of_endsIn heval
  obtain ⟨hlog, hoff⟩ := of_decide_eq_true htest
  exact ⟨hopened, s, hrun, hlog, hoff, shared_offset_keeps_updates hopened hrun⟩

end Xv6.SharedFile
