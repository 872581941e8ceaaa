import Mathlib.Data.List.TakeWhile
import Mathlib.Data.Nat.Notation
import Mathlib.Tactic.Tauto

/-!
# The parser of the shell

`parsecmd` of `sh.c` and the routines below it.  A `char *` into the command line is a position, and the
line is given without the NUL that ends it; the trees hold positions, and `nulterminate` writes into the
line.  Reading `*s` at the end of the line gives the NUL.

Memory for the tree and for the stack is taken to be there.
-/

namespace Xv6.Shell

def nul : Char := Char.ofNat 0

def whitespace : List Char := [' ', '\t', '\r', '\n', Char.ofNat 11]

def symbols : List Char := ['<', '|', '>', '&', ';', '(', ')']

def maxargs : ℕ := 10

def oRdonly : ℕ := 0

/-- `O_WRONLY | O_CREATE`. -/
def oWronlyCreate : ℕ := 0x201

/-- A string of the line: where it starts and where it ends. -/
abbrev Ptr := ℕ × ℕ

/-- `struct cmd`, with strings of type `α`. -/
inductive Cmd (α : Type) where
  | exec (argv : List α)
  | redir (cmd : Cmd α) (file : α) (mode fd : ℕ)
  | pipe (left right : Cmd α)
  | list (left right : Cmd α)
  | back (cmd : Cmd α)
deriving DecidableEq, Repr

namespace Cmd

variable {α β : Type}

/-- One more argument for the `struct execcmd` below the redirections that have been wrapped around it. -/
def addArg (a : α) : Cmd α → Cmd α
  | exec argv => exec (argv ++ [a])
  | redir cmd file mode fd => redir (cmd.addArg a) file mode fd
  | cmd => cmd

def map (f : α → β) : Cmd α → Cmd β
  | exec argv => exec (argv.map f)
  | redir cmd file mode fd => redir (cmd.map f) (f file) mode fd
  | pipe left right => pipe (left.map f) (right.map f)
  | list left right => list (left.map f) (right.map f)
  | back cmd => back (cmd.map f)

def strings : Cmd α → List α
  | exec argv => argv
  | redir cmd file _ _ => file :: cmd.strings
  | pipe left right => left.strings ++ right.strings
  | list left right => left.strings ++ right.strings
  | back cmd => cmd.strings

end Cmd

/-- Why there is no tree. -/
inductive Stop where
  /-- The recursion was cut off; `parsecmd` allows for enough. -/
  | fuel
  | panic (msg : String)
deriving DecidableEq, Repr

section Source

variable (line : List Char)

/-- `*s`. -/
def deref (s : ℕ) : Char := line.getD s nul

/-- `while(s < es && test(*s)) s++`. -/
def advance (test : Char → Bool) (s : ℕ) : ℕ := s + ((line.drop s).takeWhile test).length

def skip (s : ℕ) : ℕ := advance line (fun c => decide (c ∈ whitespace)) s

def isWord (c : Char) : Bool := decide (c ∉ whitespace ∧ c ∉ symbols)

/-- What `gettoken` returns: the token, the string and the new position. -/
structure Got where
  ret : Char
  q : ℕ
  eq : ℕ
  next : ℕ

/-- The `switch` of `gettoken`. -/
def token (q : ℕ) : Char × ℕ :=
  if deref line q = nul then (nul, q)
  else if deref line q ∈ ['|', '(', ')', ';', '&', '<'] then (deref line q, q + 1)
  else if deref line q = '>' then
    if deref line (q + 1) = '>' then ('+', q + 2) else ('>', q + 1)
  else ('a', advance line isWord q)

def gettoken (s : ℕ) : Got :=
  let q := skip line s
  ⟨(token line q).1, q, (token line q).2, skip line (token line q).2⟩

def peek (s : ℕ) (toks : List Char) : Bool × ℕ :=
  (decide (deref line (skip line s) ≠ nul ∧ deref line (skip line s) ∈ toks), skip line s)

def redircmd {α : Type} (tok : Char) (cmd : Cmd α) (file : α) : Cmd α :=
  if tok = '<' then .redir cmd file oRdonly 0 else .redir cmd file oWronlyCreate 1

def parseredirs : ℕ → Cmd Ptr → ℕ → Except Stop (Cmd Ptr × ℕ)
  | 0, _, _ => .error .fuel
  | fuel + 1, cmd, s =>
    if (peek line s ['<', '>']).1 then
      let tok := gettoken line (peek line s ['<', '>']).2
      let file := gettoken line tok.next
      if file.ret ≠ 'a' then .error (.panic "missing file for redirection")
      else parseredirs fuel (redircmd tok.ret cmd (file.q, file.eq)) file.next
    else .ok (cmd, (peek line s ['<', '>']).2)

/-- The loop of `parseexec`. -/
def argLoop : ℕ → Cmd Ptr → ℕ → ℕ → Except Stop (Cmd Ptr × ℕ)
  | 0, _, _, _ => .error .fuel
  | fuel + 1, ret, argc, s =>
    if (peek line s ['|', ')', '&', ';']).1 then .ok (ret, (peek line s ['|', ')', '&', ';']).2)
    else
      let tok := gettoken line (peek line s ['|', ')', '&', ';']).2
      if tok.ret = nul then .ok (ret, tok.next)
      else if tok.ret ≠ 'a' then .error (.panic "syntax")
      else if maxargs ≤ argc + 1 then .error (.panic "too many args")
      else do
        let (ret, s) ← parseredirs line fuel (ret.addArg (tok.q, tok.eq)) tok.next
        argLoop fuel ret (argc + 1) s

/-- The loop of `parseline`. -/
def backLoop : ℕ → Cmd Ptr → ℕ → Except Stop (Cmd Ptr × ℕ)
  | 0, _, _ => .error .fuel
  | fuel + 1, cmd, s =>
    if (peek line s ['&']).1 then
      backLoop fuel (.back cmd) (gettoken line (peek line s ['&']).2).next
    else .ok (cmd, (peek line s ['&']).2)

mutual

def parseline : ℕ → ℕ → Except Stop (Cmd Ptr × ℕ)
  | 0, _ => .error .fuel
  | fuel + 1, s => do
    let (cmd, s) ← parsepipe fuel s
    let (cmd, s) ← backLoop line fuel cmd s
    if (peek line s [';']).1 then
      let (rest, s) ← parseline fuel (gettoken line (peek line s [';']).2).next
      return (.list cmd rest, s)
    else return (cmd, (peek line s [';']).2)

def parsepipe : ℕ → ℕ → Except Stop (Cmd Ptr × ℕ)
  | 0, _ => .error .fuel
  | fuel + 1, s => do
    let (cmd, s) ← parseexec fuel s
    if (peek line s ['|']).1 then
      let (rest, s) ← parsepipe fuel (gettoken line (peek line s ['|']).2).next
      return (.pipe cmd rest, s)
    else return (cmd, (peek line s ['|']).2)

def parseexec : ℕ → ℕ → Except Stop (Cmd Ptr × ℕ)
  | 0, _ => .error .fuel
  | fuel + 1, s =>
    if (peek line s ['(']).1 then parseblock fuel (peek line s ['(']).2
    else do
      let (ret, s) ← parseredirs line fuel (.exec []) (peek line s ['(']).2
      argLoop line fuel ret 0 s

def parseblock : ℕ → ℕ → Except Stop (Cmd Ptr × ℕ)
  | 0, _ => .error .fuel
  | fuel + 1, s =>
    if (peek line s ['(']).1 then do
      let (cmd, s) ← parseline fuel (gettoken line (peek line s ['(']).2).next
      if (peek line s [')']).1 then
        parseredirs line fuel cmd (gettoken line (peek line s [')']).2).next
      else throw (.panic "syntax - missing )")
    else .error (.panic "parseblock")

end

end Source

/-- `nulterminate`, which writes into the line. -/
def nulterminate : Cmd Ptr → List Char → List Char
  | .exec argv, buf => argv.foldl (fun buf arg => buf.set arg.2 nul) buf
  | .redir cmd file _ _, buf => (nulterminate cmd buf).set file.2 nul
  | .pipe left right, buf => nulterminate right (nulterminate left buf)
  | .list left right, buf => nulterminate right (nulterminate left buf)
  | .back cmd, buf => nulterminate cmd buf

/-- `parsecmd`: the tree, and the line with its NUL as `nulterminate` leaves it. -/
def parsecmd (line : List Char) : Except Stop (Cmd Ptr × List Char) := do
  let (cmd, s) ← parseline line (4 * line.length + 4) 0
  if (peek line s []).2 ≠ line.length then throw (.panic "syntax")
  else return (cmd, nulterminate cmd (line ++ [nul]))

/-- The string that starts at a position. -/
def cstring (buf : List Char) (q : ℕ) : List Char := (buf.drop q).takeWhile (· ≠ nul)

/-! ### Tokens -/

inductive Token where
  | symbol (c : Char)
  /-- `>>`. -/
  | append
  | word (w : List Char)
deriving DecidableEq, Repr

/-- What `gettoken` returns for a token. -/
def Token.code : Token → Char
  | .symbol c => c
  | .append => '+'
  | .word _ => 'a'

/-- How a string falls into tokens: words are as long as they can be, and `>>` goes before `>`. -/
inductive Lexes : List Char → List Token → Prop
  | nil : Lexes [] []
  | space {c : Char} {s : List Char} {ts : List Token} :
    c ∈ whitespace → Lexes s ts → Lexes (c :: s) ts
  | symbol {c : Char} {s : List Char} {ts : List Token} :
    c ∈ symbols → (c = '>' → s.head? ≠ some '>') → Lexes s ts → Lexes (c :: s) (.symbol c :: ts)
  | append {s : List Char} {ts : List Token} : Lexes s ts → Lexes ('>' :: '>' :: s) (.append :: ts)
  | word {w s : List Char} {ts : List Token} :
    w ≠ [] → (∀ c ∈ w, isWord c) → (∀ c, s.head? = some c → ¬ isWord c) → Lexes s ts →
      Lexes (w ++ s) (.word w :: ts)

/-- Whether the next token starts with one of these symbols. -/
def starts (toks : List Char) : List Token → Bool
  | .symbol c :: _ => decide (c ∈ toks)
  | .append :: _ => decide ('>' ∈ toks)
  | _ => false

/-- What is left of the line at a position. -/
structure At (line : List Char) (s : ℕ) (ts : List Token) : Prop where
  le : s ≤ line.length
  lexes : Lexes (line.drop s) ts

/-- A string of the line that is a whole word. -/
structure IsWord (line : List Char) (p : Ptr) : Prop where
  lt : p.1 < p.2
  le : p.2 ≤ line.length
  inside : ∀ i, p.1 ≤ i → i < p.2 → isWord (deref line i)
  stops : p.2 = line.length ∨ ¬ isWord (deref line p.2)

def slice (line : List Char) (p : Ptr) : List Char := (line.drop p.1).take (p.2 - p.1)

theorem symbols_disjoint : ∀ c ∈ symbols, c ∉ whitespace := by
  simp [symbols, whitespace]

theorem nul_notMem : nul ∉ whitespace ∧ nul ∉ symbols := by decide

theorem mem_symbols {c : Char} :
    c ∈ symbols ↔ c ∈ ['|', '(', ')', ';', '&', '<'] ∨ c = '>' := by
  simp only [symbols, List.mem_cons, List.not_mem_nil, or_false]
  tauto

theorem isWord_iff {c : Char} : isWord c = true ↔ c ∉ whitespace ∧ c ∉ symbols := by
  simp [isWord]

section Lines

variable {line : List Char} {s : ℕ} {ts : List Token} {tok : Token} {rest l : List Char}

theorem drop_advance (test : Char → Bool) (s : ℕ) :
    line.drop (advance line test s) = (line.drop s).dropWhile test := by
  rw [advance, ← List.drop_drop]
  generalize line.drop s = rest
  have h : (rest.takeWhile test ++ rest.dropWhile test).drop (rest.takeWhile test).length =
      rest.dropWhile test := List.drop_left
  rwa [List.takeWhile_append_dropWhile] at h

theorem le_advance (test : Char → Bool) (s : ℕ) : s ≤ advance line test s := Nat.le_add_right _ _

theorem advance_le (test : Char → Bool) (h : s ≤ line.length) : advance line test s ≤ line.length := by
  have htake := (List.takeWhile_sublist (l := line.drop s) test).length_le
  rw [List.length_drop] at htake
  rw [advance]
  omega

theorem deref_eq (line : List Char) (s : ℕ) : deref line s = (line.drop s).headD nul := by
  rw [deref, List.getD_eq_getElem?_getD, List.headD_eq_head?_getD, List.head?_drop]

theorem deref_of_drop {c : Char} (h : line.drop s = c :: rest) :
    deref line s = c := by
  rw [deref_eq, h, List.headD_cons]

theorem Lexes.dropWhile (h : Lexes l ts) :
    Lexes (l.dropWhile fun c => decide (c ∈ whitespace)) ts := by
  induction h with
  | nil => exact .nil
  | space hc _ ih => rwa [List.dropWhile_cons_of_pos (by simpa using hc)]
  | symbol hc hgt hs _ =>
    rw [List.dropWhile_cons_of_neg (by simpa using symbols_disjoint _ hc)]
    exact .symbol hc hgt hs
  | append hs _ =>
    rw [List.dropWhile_cons_of_neg (by decide)]
    exact .append hs
  | @word w s ts hw hall hstop hs _ =>
    cases w with
    | nil => exact absurd rfl hw
    | cons c w =>
      rw [List.cons_append, List.dropWhile_cons_of_neg]
      · exact .word hw hall hstop hs
      · simpa using (isWord_iff.1 (hall c List.mem_cons_self)).1

theorem At.skip (h : At line s ts) : At line (skip line s) ts where
  le := advance_le _ h.le
  lexes := by
    rw [Shell.skip, drop_advance]
    exact h.lexes.dropWhile

theorem skip_head {c : Char} (h : line.drop (skip line s) = c :: rest) :
    c ∉ whitespace := by
  rw [skip, drop_advance] at h
  have hne : (line.drop s).dropWhile (fun c => decide (c ∈ whitespace)) ≠ [] := by
    rw [h]
    exact List.cons_ne_nil _ _
  have hhead := List.head_dropWhile_not (fun c => decide (c ∈ whitespace)) hne
  simpa only [h, List.head_cons, decide_eq_false_iff_not] using hhead

theorem exists_lexes (l : List Char) : ∃ ts, Lexes l ts := by
  induction hn : l.length using Nat.strongRecOn generalizing l with
  | ind n ih =>
    cases l with
    | nil => exact ⟨[], .nil⟩
    | cons c rest =>
      subst hn
      by_cases hspace : c ∈ whitespace
      · obtain ⟨ts, hts⟩ := ih _ (Nat.lt_succ_self _) rest rfl
        exact ⟨ts, .space hspace hts⟩
      by_cases hsym : c ∈ symbols
      · by_cases happ : c = '>' ∧ rest.head? = some '>'
        · obtain ⟨rfl, hhead⟩ := happ
          obtain ⟨rest, rfl⟩ := List.head?_eq_some_iff.1 hhead
          obtain ⟨ts, hts⟩ := ih _ (by simp only [List.length_cons]; omega) rest rfl
          exact ⟨_, .append hts⟩
        · obtain ⟨ts, hts⟩ := ih _ (Nat.lt_succ_self _) rest rfl
          exact ⟨_, .symbol hsym (fun hgt hhead => happ ⟨hgt, hhead⟩) hts⟩
      · -- the word is the longest run that starts here
        have hc : isWord c = true := isWord_iff.2 ⟨hspace, hsym⟩
        have hlen : ((c :: rest).dropWhile isWord).length < (c :: rest).length := by
          rw [List.dropWhile_cons_of_pos hc, List.length_cons]
          exact Nat.lt_succ_of_le (List.dropWhile_sublist isWord).length_le
        obtain ⟨ts, hts⟩ := ih _ hlen _ rfl
        refine ⟨.word ((c :: rest).takeWhile isWord) :: ts, ?_⟩
        have hword := Lexes.word (w := (c :: rest).takeWhile isWord) ?_ ?_ ?_ hts
        · rwa [List.takeWhile_append_dropWhile] at hword
        · rw [List.takeWhile_cons_of_pos hc]
          exact List.cons_ne_nil _ _
        · intro d hd
          exact List.mem_takeWhile_imp hd
        · intro d hd
          have hne : (c :: rest).dropWhile isWord ≠ [] := by
            intro hnil
            rw [hnil] at hd
            cases hd
          have := List.head_dropWhile_not isWord hne
          rw [List.head?_eq_some_head hne] at hd
          rw [← Option.some.inj hd, this]
          exact Bool.false_ne_true

/-! ### `peek` and `gettoken` in terms of tokens -/

theorem le_skip : s ≤ skip line s := le_advance _ s

theorem Lexes.uncons (h : Lexes l (tok :: ts)) (hl : ∀ c, l.head? = some c → c ∉ whitespace) :
    (∃ c rest, l = c :: rest ∧ tok = .symbol c ∧ c ∈ symbols ∧ (c = '>' → rest.head? ≠ some '>') ∧
      Lexes rest ts) ∨
    (∃ rest, l = '>' :: '>' :: rest ∧ tok = .append ∧ Lexes rest ts) ∨
    ∃ w rest, l = w ++ rest ∧ tok = .word w ∧ w ≠ [] ∧ (∀ c ∈ w, isWord c) ∧
      (∀ c, rest.head? = some c → ¬ isWord c) ∧ Lexes rest ts := by
  cases h with
  | space hc _ => exact absurd hc (hl _ rfl)
  | symbol hc hgt hs => exact .inl ⟨_, _, rfl, rfl, hc, hgt, hs⟩
  | append hs => exact .inr (.inl ⟨_, rfl, rfl, hs⟩)
  | word hw hall hstop hs => exact .inr (.inr ⟨_, _, rfl, rfl, hw, hall, hstop, hs⟩)

theorem Lexes.eq_nil (h : Lexes l []) (hl : ∀ c, l.head? = some c → c ∉ whitespace) :
    l = [] := by
  cases h with
  | nil => rfl
  | space hc _ => exact absurd hc (hl _ rfl)

theorem At.head_skip : ∀ c, (line.drop (Shell.skip line s)).head? = some c → c ∉ whitespace := by
  intro c hc
  obtain ⟨rest, hrest⟩ := List.head?_eq_some_iff.1 hc
  exact skip_head hrest

theorem peek_at (toks : List Char) (h : At line s ts) (htoks : ∀ c ∈ toks, c ∈ symbols) :
    (peek line s toks).1 = starts toks ts ∧ At line (peek line s toks).2 ts ∧
      s ≤ (peek line s toks).2 := by
  refine ⟨?_, h.skip, le_skip⟩
  rw [peek]
  dsimp only
  cases ts with
  | nil =>
    have hnil : line.drop (skip line s) = [] := h.skip.lexes.eq_nil At.head_skip
    rw [deref_eq, hnil]
    simp [starts, nul]
  | cons tok ts =>
    rcases h.skip.lexes.uncons At.head_skip with
      ⟨c, rest, hrest, rfl, hc, -, -⟩ | ⟨rest, hrest, rfl, -⟩ | ⟨w, rest, hrest, rfl, hw, hall, -, -⟩
    · have hne : c ≠ nul := by
        rintro rfl
        exact nul_notMem.2 hc
      simp [deref_of_drop hrest, starts, hne]
    · rw [deref_of_drop hrest]
      simp [starts, nul]
    · cases w with
      | nil => exact absurd rfl hw
      | cons c w =>
        have hc : c ∉ toks := fun hmem => (isWord_iff.1 (hall c List.mem_cons_self)).2 (htoks c hmem)
        rw [deref_of_drop hrest]
        simp [starts, hc]

theorem gettoken_end (h : At line s []) :
    (gettoken line s).ret = nul ∧ At line (gettoken line s).next [] ∧ s ≤ (gettoken line s).next := by
  have hnil : line.drop (skip line s) = [] := h.skip.lexes.eq_nil At.head_skip
  have htok : token line (skip line s) = (nul, skip line s) := by
    rw [token, deref_eq, hnil]
    exact if_pos rfl
  rw [gettoken]
  dsimp only
  rw [htok]
  exact ⟨rfl, h.skip.skip, Nat.le_trans le_skip le_skip⟩

theorem At.of_drop {n : ℕ} {a : List Char} (hs : s ≤ line.length) (hdrop : line.drop s = a ++ rest)
    (hn : n = s + a.length) (hrest : Lexes rest ts) : At line n ts where
  le := by
    have := congrArg List.length hdrop
    rw [List.length_drop, List.length_append] at this
    omega
  lexes := by
    rw [hn, ← List.drop_drop, hdrop, List.drop_left]
    exact hrest

theorem advance_word {q : ℕ} {w : List Char} (hdrop : line.drop q = w ++ rest)
    (hall : ∀ c ∈ w, isWord c) (hstop : ∀ c, rest.head? = some c → ¬ isWord c) :
    advance line isWord q = q + w.length := by
  rw [advance, hdrop, List.takeWhile_append_of_pos hall]
  cases rest with
  | nil => simp
  | cons c rest => rw [List.takeWhile_cons_of_neg (hstop c rfl), List.append_nil]

theorem isWord_of_drop {q : ℕ} {w : List Char} (hq : q ≤ line.length)
    (hdrop : line.drop q = w ++ rest) (hw : w ≠ []) (hall : ∀ c ∈ w, isWord c)
    (hstop : ∀ c, rest.head? = some c → ¬ isWord c) :
    IsWord line (q, q + w.length) ∧ slice line (q, q + w.length) = w := by
  have hlen : line.length = q + w.length + rest.length := by
    have := congrArg List.length hdrop
    rw [List.length_drop, List.length_append] at this
    omega
  have hpos : 0 < w.length := List.length_pos_iff.2 hw
  refine ⟨⟨by dsimp only; omega, by dsimp only; omega, fun i hi hlt => ?_, ?_⟩, ?_⟩
  · have hmem : deref line i ∈ w := by
      rw [deref_eq, show i = q + (i - q) by omega, ← List.drop_drop, hdrop,
        List.drop_append_of_le_length (by omega)]
      have hne : w.drop (i - q) ≠ [] := by
        rw [Ne, List.drop_eq_nil_iff]
        dsimp only at hlt
        omega
      obtain ⟨c, tail, hc⟩ := List.exists_cons_of_ne_nil hne
      rw [hc]
      exact List.mem_of_mem_drop (by rw [hc]; exact List.mem_cons_self)
    exact hall _ hmem
  · cases rest with
    | nil =>
      left
      simpa using hlen.symm
    | cons c rest =>
      right
      have hend : line.drop (q + w.length) = c :: rest := by
        rw [← List.drop_drop, hdrop, List.drop_left]
      rw [deref_of_drop hend]
      exact hstop c rfl
  · rw [slice]
    dsimp only
    rw [hdrop, Nat.add_sub_cancel_left, List.take_left]

theorem gettoken_at (hnul : nul ∉ line) (h : At line s (tok :: ts)) :
    (gettoken line s).ret = tok.code ∧ At line (gettoken line s).next ts ∧ s < (gettoken line s).next ∧
      ∀ w, tok = .word w → IsWord line ((gettoken line s).q, (gettoken line s).eq) ∧
        slice line ((gettoken line s).q, (gettoken line s).eq) = w := by
  have hq := h.skip.le
  rw [gettoken]
  dsimp only
  rcases h.skip.lexes.uncons At.head_skip with
    ⟨c, rest, hrest, rfl, hc, hgt, hs⟩ | ⟨rest, hrest, rfl, hs⟩ | ⟨w, rest, hrest, rfl, hw, hall, hstop, hs⟩
  · have htok : token line (skip line s) = (c, skip line s + 1) := by
      have hne : c ≠ nul := by
        rintro rfl
        exact nul_notMem.2 hc
      rw [token, deref_of_drop hrest, if_neg hne]
      rcases mem_symbols.1 hc with hmem | rfl
      · rw [if_pos hmem]
      · have hsecond : deref line (skip line s + 1) ≠ '>' := by
          rw [deref_eq, ← List.drop_drop, hrest, List.drop_one, List.tail_cons]
          intro hd
          cases rest with
          | nil => exact absurd hd (by decide)
          | cons d rest =>
            rw [List.headD_cons] at hd
            exact hgt rfl (congrArg some hd)
        rw [if_neg (by decide), if_pos rfl, if_neg hsecond]
    have hnext : At line (skip line s + 1) ts := .of_drop (a := [c]) hq hrest rfl hs
    rw [htok]
    refine ⟨rfl, hnext.skip, ?_, fun w hw => by cases hw⟩
    exact Nat.lt_of_lt_of_le (Nat.lt_succ_of_le le_skip) le_skip
  · have htok : token line (skip line s) = ('+', skip line s + 2) := by
      have hsecond : deref line (skip line s + 1) = '>' := by
        rw [deref_eq, ← List.drop_drop, hrest]
        rfl
      rw [token, deref_of_drop hrest, if_neg (by decide), if_neg (by decide), if_pos rfl, if_pos hsecond]
    have hnext : At line (skip line s + 2) ts := .of_drop (a := ['>', '>']) hq hrest rfl hs
    rw [htok]
    refine ⟨rfl, hnext.skip, ?_, fun w hw => by cases hw⟩
    exact Nat.lt_of_lt_of_le (Nat.lt_of_le_of_lt le_skip (Nat.lt_add_of_pos_right Nat.two_pos)) le_skip
  · have htok : token line (skip line s) = ('a', skip line s + w.length) := by
      have hadvance := advance_word hrest hall hstop
      obtain ⟨c, tail, rfl⟩ := List.exists_cons_of_ne_nil hw
      have hc : c ∉ symbols := (isWord_iff.1 (hall c List.mem_cons_self)).2
      rw [mem_symbols, not_or] at hc
      have hne : c ≠ nul := by
        rintro rfl
        exact hnul (List.mem_of_mem_drop (by rw [hrest]; exact List.mem_cons_self))
      rw [token, deref_of_drop hrest, if_neg hne, if_neg hc.1, if_neg hc.2, hadvance]
    have hnext : At line (skip line s + w.length) ts := .of_drop hq hrest rfl hs
    have hpos : 0 < w.length := List.length_pos_iff.2 hw
    rw [htok]
    refine ⟨rfl, hnext.skip, ?_, fun w' hw' => ?_⟩
    · exact Nat.lt_of_lt_of_le (Nat.lt_of_le_of_lt le_skip (Nat.lt_add_of_pos_right hpos)) le_skip
    · cases hw'
      exact isWord_of_drop hq hrest hw hall hstop

end Lines

end Xv6.Shell
