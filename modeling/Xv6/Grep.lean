import Xv6.Memmove
import Xv6.Regexp

/-!
# `grep` and the chunks of its input

The loop of `grep` over the buffer of 1024 bytes: what is read is put behind the unfinished line, the
complete lines are matched in place, and the rest is moved to the front.  `feed` says what should happen to
the characters one by one, which does not depend on chunks.  The loop does the same as long as every read
finishes a line; a read that does not makes it forget the line.
-/

namespace Xv6.Grep

open Memory

/-! ### The source -/

def nul : Char := Char.ofNat 0

/-- The size of `buf`; no string in it is longer. -/
def bufSize : ℕ := 1024

def strchr (buf : ℕ → Char) (c : Char) : ℕ → ℕ → Option ℕ
  | 0, _ => none
  | fuel + 1, s =>
    if buf s = nul then none else if buf s = c then some s else strchr buf c fuel (s + 1)

/-- The string at `s`. -/
def cstring (buf : ℕ → Char) : ℕ → ℕ → List Char
  | 0, _ => []
  | fuel + 1, s => if buf s = nul then [] else buf s :: cstring buf fuel (s + 1)

def bytes (buf : ℕ → Char) (p q : ℕ) : List Char := (List.range (q - p)).map fun k => buf (p + k)

/-- The inner loop of `grep`, with what has been written so far. -/
def scanLines (pattern : List Char) :
    ℕ → ℕ → (ℕ → Char) → List Char → ℕ × (ℕ → Char) × List Char
  | 0, p, buf, out => (p, buf, out)
  | fuel + 1, p, buf, out =>
    match strchr buf '\n' bufSize p with
    | none => (p, buf, out)
    | some q =>
      let cut := Function.update buf q nul
      if match_ pattern (cstring cut bufSize p) then
        let buf := Function.update cut q '\n'
        scanLines pattern fuel (q + 1) buf (out ++ bytes buf p (q + 1))
      else scanLines pattern fuel (q + 1) cut out

structure State where
  buf : ℕ → Char
  m : ℕ
  out : List Char

def start : State := ⟨fun _ => nul, 0, []⟩

/-- What `grep` does with the bytes of one `read`. -/
def step (pattern : List Char) (s : State) (chunk : List Char) : State :=
  let m := s.m + chunk.length
  let buf := Function.update (splice s.buf s.m chunk.length fun k => chunk.getD k nul) m nul
  let (p, buf, out) := scanLines pattern bufSize 0 buf s.out
  let m := if p = 0 then 0 else m
  if 0 < m then ⟨Ulib.memmove buf 0 p (m - p), m - p, out⟩ else ⟨buf, m, out⟩

/-- What `grep` writes when `read` returns these chunks and then 0. -/
def grep (pattern : List Char) (chunks : List (List Char)) : List Char :=
  (chunks.foldl (step pattern) start).out

/-- The chunks are not empty and not longer than requested. -/
def Requested (pattern : List Char) : State → List (List Char) → Prop
  | _, [] => True
  | s, c :: cs => c ≠ [] ∧ c.length ≤ bufSize - s.m - 1 ∧ Requested pattern (step pattern s c) cs

/-! ### The lines one by one -/

/-- The output and the unfinished line after one more character. -/
def feed (pattern : List Char) (s : List Char × List Char) (c : Char) : List Char × List Char :=
  if c = '\n' then (s.1 ++ if match_ pattern s.2 then s.2 ++ ['\n'] else [], []) else (s.1, s.2 ++ [c])

def matching (pattern : List Char) (lines : List (List Char)) : List Char :=
  (lines.filter (match_ pattern)).flatMap (· ++ ['\n'])

section Feed

variable {pattern out cur : List Char} {text : List Char}

theorem feed_newline (pattern out cur : List Char) : feed pattern (out, cur) '\n' =
    (out ++ if match_ pattern cur then cur ++ ['\n'] else [], []) := if_pos rfl

theorem foldl_feed_of_notMem (h : '\n' ∉ text) :
    text.foldl (feed pattern) (out, cur) = (out, cur ++ text) := by
  induction text generalizing cur with
  | nil => simp
  | cons c text ih =>
    simp only [List.mem_cons, not_or] at h
    rw [List.foldl_cons, feed, if_neg (Ne.symm h.1), ih h.2]
    simp

theorem foldl_feed_lines (pattern out : List Char) {lines : List (List Char)} (h : ∀ l ∈ lines, '\n' ∉ l) :
    (lines.flatMap (· ++ ['\n'])).foldl (feed pattern) (out, []) = (out ++ matching pattern lines, []) := by
  induction lines generalizing out with
  | nil => simp [matching]
  | cons l lines ih =>
    simp only [List.mem_cons, forall_eq_or_imp] at h
    rw [List.flatMap_cons, List.foldl_append, List.foldl_append, foldl_feed_of_notMem h.1,
      List.nil_append, List.foldl_cons, List.foldl_nil, feed_newline, ih _ h.2, matching, matching,
      List.filter_cons, List.append_assoc]
    split <;> simp

theorem length_feed_le (pattern : List Char) (text : List Char) (s : List Char × List Char) :
    (text.foldl (feed pattern) s).1.length + (text.foldl (feed pattern) s).2.length ≤
      s.1.length + s.2.length + text.length := by
  induction text generalizing s with
  | nil => simp
  | cons c text ih =>
    have hone : (feed pattern s c).1.length + (feed pattern s c).2.length ≤ s.1.length + s.2.length + 1 := by
      rw [feed]
      split_ifs <;> simp <;> omega
    have hrest := ih (feed pattern s c)
    rw [List.foldl_cons, List.length_cons]
    omega

theorem length_unfinished_le (pattern text : List Char) (s : List Char × List Char) :
    (text.foldl (feed pattern) s).2.length ≤ s.2.length + text.length := by
  induction text generalizing s with
  | nil => simp
  | cons c text ih =>
    have hone : (feed pattern s c).2.length ≤ s.2.length + 1 := by
      rw [feed]
      split_ifs <;> simp
    have hrest := ih (feed pattern s c)
    rw [List.foldl_cons, List.length_cons]
    omega

theorem length_unfinished_lt (pattern : List Char) (s : List Char × List Char)
    (h : '\n' ∈ text) : (text.foldl (feed pattern) s).2.length < s.2.length + text.length := by
  obtain ⟨line, rest, rfl, hfirst⟩ := List.eq_append_cons_of_mem h
  have hrest (out : List Char) := length_unfinished_le pattern rest (out, [])
  rw [← Prod.mk.eta (p := s), List.foldl_append, foldl_feed_of_notMem hfirst, List.foldl_cons, feed_newline]
  apply Nat.lt_of_le_of_lt (hrest _)
  simp
  omega

theorem mem_unfinished (pattern : List Char) {s : List Char × List Char} {c : Char}
    (h : c ∈ (text.foldl (feed pattern) s).2) : c ∈ s.2 ∨ c ∈ text := by
  induction text generalizing s with
  | nil => exact Or.inl h
  | cons d text ih =>
    rw [List.foldl_cons] at h
    rcases ih h with hmem | hmem
    · rw [feed] at hmem
      split at hmem
      · simp at hmem
      · rcases List.mem_append.1 hmem with hmem | hmem
        · exact Or.inl hmem
        · exact Or.inr (by rw [List.mem_singleton.1 hmem]; exact List.mem_cons_self)
    · exact Or.inr (List.mem_cons_of_mem _ hmem)

theorem newline_notMem_unfinished (pattern text : List Char) {s : List Char × List Char} (h : '\n' ∉ s.2) :
    '\n' ∉ (text.foldl (feed pattern) s).2 := by
  induction text generalizing s with
  | nil => exact h
  | cons c text ih =>
    rw [List.foldl_cons]
    apply ih
    rw [feed]
    split
    · simp
    · rename_i hc
      simp [h, Ne.symm hc]

end Feed

/-! ### The buffer -/

section Buffer

variable {buf : ℕ → Char} {p fuel : ℕ} {text : List Char}

theorem strchr_some {c : Char} {rest : List Char} (hc : c ≠ nul) (h : At buf p (text ++ c :: rest))
    (hnul : nul ∉ text) (hmem : c ∉ text) (hfuel : text.length < fuel) :
    strchr buf c fuel p = some (p + text.length) := by
  induction text generalizing p fuel with
  | nil =>
    obtain ⟨fuel, rfl⟩ := Nat.exists_eq_succ_of_ne_zero (Nat.pos_iff_ne_zero.1 hfuel)
    rw [strchr, (at_cons.1 h).1, if_neg hc, if_pos rfl]
    rfl
  | cons t text ih =>
    simp only [List.mem_cons, not_or] at hnul hmem
    rw [List.cons_append, at_cons] at h
    rw [List.length_cons] at hfuel
    obtain ⟨fuel, rfl⟩ := Nat.exists_eq_succ_of_ne_zero (by omega : fuel ≠ 0)
    rw [strchr, h.1, if_neg (Ne.symm hnul.1), if_neg (Ne.symm hmem.1), ih h.2 hnul.2 hmem.2 (by omega),
      List.length_cons, Nat.add_assoc, Nat.add_comm 1]

theorem strchr_none {c : Char} (h : At buf p (text ++ [nul])) (hnul : nul ∉ text) (hmem : c ∉ text)
    (hfuel : text.length < fuel) : strchr buf c fuel p = none := by
  induction text generalizing p fuel with
  | nil =>
    obtain ⟨fuel, rfl⟩ := Nat.exists_eq_succ_of_ne_zero (Nat.pos_iff_ne_zero.1 hfuel)
    rw [strchr, (at_cons.1 h).1, if_pos rfl]
  | cons t text ih =>
    simp only [List.mem_cons, not_or] at hnul hmem
    rw [List.cons_append, at_cons] at h
    rw [List.length_cons] at hfuel
    obtain ⟨fuel, rfl⟩ := Nat.exists_eq_succ_of_ne_zero (by omega : fuel ≠ 0)
    rw [strchr, h.1, if_neg (Ne.symm hnul.1), if_neg (Ne.symm hmem.1), ih h.2 hnul.2 hmem.2 (by omega)]

theorem cstring_eq (h : At buf p (text ++ [nul])) (hnul : nul ∉ text) (hfuel : text.length < fuel) :
    cstring buf fuel p = text := by
  induction text generalizing p fuel with
  | nil =>
    obtain ⟨fuel, rfl⟩ := Nat.exists_eq_succ_of_ne_zero (Nat.pos_iff_ne_zero.1 hfuel)
    rw [cstring, (at_cons.1 h).1, if_pos rfl]
  | cons t text ih =>
    simp only [List.mem_cons, not_or] at hnul
    rw [List.cons_append, at_cons] at h
    rw [List.length_cons] at hfuel
    obtain ⟨fuel, rfl⟩ := Nat.exists_eq_succ_of_ne_zero (by omega : fuel ≠ 0)
    rw [cstring, h.1, if_neg (Ne.symm hnul.1), ih h.2 hnul.2 (by omega)]

theorem bytes_eq (h : At buf p text) : bytes buf p (p + text.length) = text := by
  rw [bytes, Nat.add_sub_cancel_left]
  apply List.ext_getElem
  · simp
  · intro k hk hk'
    simpa using h k hk'

theorem at_update_behind (h : At buf p text) (c : Char) :
    At (Function.update buf (p + text.length) c) p (text ++ [c]) := by
  rw [at_append]
  refine ⟨h.congr fun x _ hx => Function.update_of_ne (by omega) _ _, ?_⟩
  rw [at_cons]
  exact ⟨Function.update_self .., at_nil _ _⟩

end Buffer

theorem scanLines_spec (pattern : List Char) {fuel p : ℕ} {buf : ℕ → Char} {text : List Char}
    (out : List Char) (h : At buf p (text ++ [nul])) (hnul : nul ∉ text) (hfuel : text.length < fuel)
    (hsize : text.length < bufSize) :
    ∃ p' buf', scanLines pattern fuel p buf out =
        (p', buf', (text.foldl (feed pattern) (out, [])).1) ∧
      At buf' p' (text.foldl (feed pattern) (out, [])).2 ∧
      p' + (text.foldl (feed pattern) (out, [])).2.length = p + text.length := by
  induction fuel generalizing p buf out text with
  | zero => exact absurd hfuel (Nat.not_lt_zero _)
  | succ fuel ih =>
    rw [scanLines]
    by_cases hline : '\n' ∈ text
    · obtain ⟨line, rest, rfl, hfirst⟩ := List.eq_append_cons_of_mem hline
      simp only [List.mem_append, List.mem_cons, not_or] at hnul
      simp only [List.length_append, List.length_cons] at hfuel hsize
      rw [List.append_assoc, List.cons_append] at h
      rw [strchr_some (by decide) h hnul.1 hfirst (by omega)]
      rw [at_append, at_cons] at h
      -- Whatever is put over the newline, the loop goes on with the text behind it.
      have hrest (b : ℕ → Char) (out : List Char) (hb : ∀ x, p + line.length < x → b x = buf x) :=
        ih out (h.2.2.congr fun x hx _ => hb x (by omega) : At b (p + line.length + 1) (rest ++ [nul]))
          hnul.2.2 (by omega) (by omega)
      simp only [cstring_eq (at_update_behind h.1 nul) hnul.1 (by omega : line.length < bufSize),
        List.foldl_append, foldl_feed_of_notMem hfirst, List.foldl_cons, List.nil_append, feed_newline,
        List.length_append, List.length_cons, Function.update_idem]
      split
      · have hbytes : bytes (Function.update buf (p + line.length) '\n') p (p + line.length + 1) =
            line ++ ['\n'] := by
          simpa [Nat.add_assoc] using bytes_eq (at_update_behind h.1 '\n')
        rw [hbytes]
        obtain ⟨p', buf', hscan, hat, hend⟩ := hrest (Function.update buf (p + line.length) '\n')
          (out ++ (line ++ ['\n'])) fun x hx => Function.update_of_ne (by omega) _ _
        exact ⟨p', buf', hscan, hat, by omega⟩
      · obtain ⟨p', buf', hscan, hat, hend⟩ := hrest (Function.update buf (p + line.length) nul)
          (out ++ []) fun x hx => Function.update_of_ne (by omega) _ _
        rw [List.append_nil] at hscan
        exact ⟨p', buf', by simpa using hscan, hat, by omega⟩
    · rw [strchr_none h hnul hline hsize, foldl_feed_of_notMem hline]
      exact ⟨p, buf, rfl, (at_append.1 h).1, rfl⟩

/-! ### The chunks -/

/-- Between two reads the buffer begins with the unfinished line. -/
structure Holds (s : State) (out cur : List Char) : Prop where
  out_eq : s.out = out
  m_eq : s.m = cur.length
  atStart : At s.buf 0 cur
  newline : '\n' ∉ cur
  noNul : nul ∉ cur

section Chunks

variable {pattern : List Char} {s : State} {out cur chunk : List Char}

theorem holds_start : Holds start [] [] := ⟨rfl, rfl, at_nil _ _, by simp, by simp⟩

theorem at_read (h : Holds s out cur) (chunk : List Char) :
    At (Function.update (splice s.buf s.m chunk.length fun k => chunk.getD k nul) (s.m + chunk.length) nul) 0
      (cur ++ chunk ++ [nul]) := by
  have hread : At (splice s.buf s.m chunk.length fun k => chunk.getD k nul) 0 (cur ++ chunk) := by
    rw [at_append, Nat.zero_add, ← h.m_eq]
    exact ⟨h.atStart.splice (Or.inl (by rw [h.m_eq, Nat.zero_add])), At.of_splice _ _ _ _⟩
  have hclosed := at_update_behind hread nul
  rwa [List.length_append, Nat.zero_add, ← h.m_eq] at hclosed

/-- One round of the loop over the characters of the chunk, before it looks at `p`. -/
theorem scan_chunk (pattern : List Char) (h : Holds s out cur) (hnul : nul ∉ chunk)
    (hsize : s.m + chunk.length < bufSize) :
    ∃ p buf, scanLines pattern bufSize 0 (Function.update
        (splice s.buf s.m chunk.length fun k => chunk.getD k nul) (s.m + chunk.length) nul) s.out =
        (p, buf, (chunk.foldl (feed pattern) (out, cur)).1) ∧
      At buf p (chunk.foldl (feed pattern) (out, cur)).2 ∧
      p + (chunk.foldl (feed pattern) (out, cur)).2.length = s.m + chunk.length := by
  have hlength : (cur ++ chunk).length < bufSize := by rwa [List.length_append, ← h.m_eq]
  have hscan := scanLines_spec pattern s.out (at_read h chunk) (by simp [h.noNul, hnul]) hlength hlength
  rw [List.foldl_append, foldl_feed_of_notMem h.newline, List.nil_append, List.length_append, ← h.m_eq,
    Nat.zero_add] at hscan
  rwa [← h.out_eq]

theorem step_newline (pattern : List Char) (h : Holds s out cur) (hnul : nul ∉ chunk)
    (hsize : s.m + chunk.length < bufSize) (hline : '\n' ∈ chunk) :
    Holds (step pattern s chunk) (chunk.foldl (feed pattern) (out, cur)).1
      (chunk.foldl (feed pattern) (out, cur)).2 := by
  obtain ⟨p, buf, hscan, hat, hend⟩ := scan_chunk pattern h hnul hsize
  have hshort : (chunk.foldl (feed pattern) (out, cur)).2.length < s.m + chunk.length := by
    rw [h.m_eq]
    exact length_unfinished_lt pattern (out, cur) hline
  simp only [step, hscan]
  rw [if_neg (by omega : p ≠ 0), if_pos (by omega), Ulib.memmove_down _ (Nat.zero_le p)]
  refine ⟨rfl, (by omega : s.m + chunk.length - p = _), ?_,
    newline_notMem_unfinished pattern chunk h.newline, ?_⟩
  · intro k hk
    rw [← hat k hk, Nat.zero_add]
    have hinside : splice buf 0 (s.m + chunk.length - p) (fun k => buf (p + k)) k = buf (p + k) :=
      splice_inside (by omega)
    exact hinside
  · intro hmem
    exact (mem_unfinished pattern hmem).elim h.noNul hnul

/-- A chunk that finishes no line is forgotten, and the unfinished line with it. -/
theorem step_no_newline (pattern : List Char) (h : Holds s out cur) (hnul : nul ∉ chunk)
    (hsize : s.m + chunk.length < bufSize) (hline : '\n' ∉ chunk) :
    Holds (step pattern s chunk) out [] := by
  obtain ⟨p, buf, hscan, hat, hend⟩ := scan_chunk pattern h hnul hsize
  rw [foldl_feed_of_notMem hline] at hscan hend
  rw [List.length_append, h.m_eq] at hend
  simp only [step, hscan]
  rw [if_pos (by omega : p = 0), if_neg (Nat.lt_irrefl 0)]
  exact ⟨rfl, rfl, at_nil _ _, by simp, by simp⟩

end Chunks

variable {s : State} {out cur : List Char} {chunks : List (List Char)}

theorem run_newlines (pattern : List Char)
    (h : Holds s out cur) (hnul : nul ∉ chunks.flatten) (hread : Requested pattern s chunks)
    (hlines : ∀ c ∈ chunks, '\n' ∈ c) :
    (chunks.foldl (step pattern) s).out = (chunks.flatten.foldl (feed pattern) (out, cur)).1 := by
  induction chunks generalizing s out cur with
  | nil => exact h.out_eq
  | cons c chunks ih =>
    rw [List.flatten_cons, List.mem_append, not_or] at hnul
    rw [List.forall_mem_cons] at hlines
    obtain ⟨hne, hlen, hread⟩ := hread
    have hpos := List.length_pos_of_ne_nil hne
    have hstep := step_newline pattern h hnul.1 (by omega) hlines.1
    rw [List.foldl_cons, List.flatten_cons, List.foldl_append]
    exact ih hstep hnul.2 hread hlines.2

/-- The output is not longer than the input, and a read that finishes no line makes it shorter, whatever is
matched. -/
theorem length_run_le (pattern : List Char)
    (h : Holds s out cur) (hnul : nul ∉ chunks.flatten) (hread : Requested pattern s chunks) :
    (chunks.foldl (step pattern) s).out.length ≤ out.length + cur.length + chunks.flatten.length ∧
      ((∃ c ∈ chunks, '\n' ∉ c) →
        (chunks.foldl (step pattern) s).out.length < out.length + cur.length + chunks.flatten.length) := by
  induction chunks generalizing s out cur with
  | nil =>
    rw [List.foldl_nil, h.out_eq]
    exact ⟨by omega, fun hlost => by simp at hlost⟩
  | cons c chunks ih =>
    rw [List.flatten_cons, List.mem_append, not_or] at hnul
    obtain ⟨hne, hlen, hread⟩ := hread
    have hpos := List.length_pos_of_ne_nil hne
    rw [List.foldl_cons, List.flatten_cons, List.length_append]
    by_cases hline : '\n' ∈ c
    · obtain ⟨hle, hlt⟩ := ih (step_newline pattern h hnul.1 (by omega) hline) hnul.2 hread
      have hfeed := length_feed_le pattern c (out, cur)
      simp only at hfeed
      refine ⟨by omega, fun hlost => ?_⟩
      have := hlt (by simpa [hline] using hlost)
      omega
    · have hrun := (ih (step_no_newline pattern h hnul.1 (by omega) hline) hnul.2 hread).1
      rw [List.length_nil] at hrun
      exact ⟨by omega, fun _ => by omega⟩

theorem match_nil (text : List Char) : match_ [] text = true := by
  cases text with
  | nil => rfl
  | cons t text =>
    rw [match_, matchLoop, matchhere, Bool.true_or]
    simp

theorem matching_nil (lines : List (List Char)) : matching [] lines = lines.flatMap (· ++ ['\n']) := by
  rw [matching, List.filter_eq_self.2 fun line _ => match_nil line]

/-- For an input of lines without NULs, read in chunks that are not empty and not longer than requested:
`grep` writes the lines that match, whatever the pattern, exactly if every chunk finishes a line. -/
theorem grep_chunks_iff {lines chunks : List (List Char)} (hlines : ∀ l ∈ lines, '\n' ∉ l ∧ nul ∉ l)
    (hsplit : chunks.flatten = lines.flatMap (· ++ ['\n']))
    (hread : ∀ pattern, Requested pattern start chunks) :
    (∀ pattern, grep pattern chunks = matching pattern lines) ↔ ∀ c ∈ chunks, '\n' ∈ c := by
  have hnul : nul ∉ chunks.flatten := by
    rw [hsplit, List.mem_flatMap]
    rintro ⟨l, hl, hmem⟩
    rw [List.mem_append, List.mem_singleton] at hmem
    exact hmem.elim (hlines l hl).2 (by decide)
  constructor
  · intro h
    by_contra hnot
    push Not at hnot
    have hlt := (length_run_le [] holds_start hnul (hread [])).2 hnot
    have heq := h []
    rw [grep, matching_nil, ← hsplit] at heq
    rw [heq] at hlt
    simp at hlt
  · intro h pattern
    rw [grep, run_newlines pattern holds_start hnul (hread pattern) h, hsplit,
      foldl_feed_lines pattern [] fun l hl => (hlines l hl).1, List.nil_append]

/-- A line read in one piece. -/
theorem grep_chunks_iff_sample :
    grep ['b', '$'] [['a', 'b', '\n']] = matching ['b', '$'] [['a', 'b']] :=
  have hlines : ∀ l ∈ [['a', 'b']], '\n' ∉ l ∧ nul ∉ l := by simp [nul]
  (grep_chunks_iff hlines rfl (by simp [Requested, start, bufSize])).2 (by simp) _

/-- A line whose first letter comes alone is not found by that letter. -/
theorem grep_loses_line :
    ['a', 'b', '\n'] = [['a'], ['b', '\n']].flatten ∧ Requested ['a'] start [['a'], ['b', '\n']] ∧
      matching ['a'] [['a', 'b']] = ['a', 'b', '\n'] ∧ grep ['a'] [['a'], ['b', '\n']] = [] := by
  refine ⟨rfl, ?_, by decide, by decide +kernel⟩
  refine ⟨by simp, by decide, by simp, by decide +kernel, trivial⟩

end Xv6.Grep
