import Mathlib.Logic.Function.Iterate
import Xv6.Lib.Run
import Xv6.Shell

/-!
# The grammar of the shell

    line  ::= pipe '&'* [';' line]
    pipe  ::= exec ['|' pipe]
    exec  ::= '(' line ')' redir* | redir* (word redir*)*
    redir ::= ('<' | '>' | '>>') word

with at most `MAXARGS - 1` words.  `Derives` says which trees these rules give to a list of tokens.
`parsecmd` returns a tree exactly for the lines that have one, it is that tree, and after `nulterminate`
its strings are the words.

* `Ends` is what a parsing routine may end with; running out of fuel is one of the outcomes.
* Soundness is by induction on the fuel (`Sound`), completeness by induction on the derivation
  (`Derives.parses`); the tokens that can follow a phrase are in `Follows`.
-/

namespace Xv6.Shell

/-! ### Derivations -/

inductive Direction where
  | input
  | output
  | append
deriving DecidableEq, Repr

def Direction.token : Direction → Token
  | .input => .symbol '<'
  | .output => .symbol '>'
  | .append => .append

def redirect (t : Cmd (List Char)) : Direction × List Char → Cmd (List Char)
  | (.input, file) => .redir t file oRdonly 0
  | (.output, file) => .redir t file oWronlyCreate 1
  | (.append, file) => .redir t file oWronlyCreate 1

/-- The first redirection ends up innermost. -/
def redirectAll (t : Cmd (List Char)) (rs : List (Direction × List Char)) : Cmd (List Char) :=
  rs.foldl redirect t

/-- The tokens of `redir*`. -/
def redirTokens (rs : List (Direction × List Char)) : List Token :=
  rs.flatMap fun r => [r.1.token, .word r.2]

/-- The tokens of `(word redir*)*`. -/
def argTokens (args : List (List Char × List (Direction × List Char))) : List Token :=
  args.flatMap fun a => .word a.1 :: redirTokens a.2

inductive Phrase where
  | line
  | pipe
  | exec

/-- `Derives x ts t us`: the tokens `ts` start with a phrase `x`, its tree is `t`, and `us` is left. -/
inductive Derives : Phrase → List Token → Cmd (List Char) → List Token → Prop
  | lineEnd {n : ℕ} {ts us : List Token} {t : Cmd (List Char)} :
    Derives .pipe ts t (List.replicate n (.symbol '&') ++ us) → Derives .line ts (Cmd.back^[n] t) us
  | lineList {n : ℕ} {ts us vs : List Token} {t u : Cmd (List Char)} :
    Derives .pipe ts t (List.replicate n (.symbol '&') ++ .symbol ';' :: us) → Derives .line us u vs →
      Derives .line ts (.list (Cmd.back^[n] t) u) vs
  | pipeEnd {ts us : List Token} {t : Cmd (List Char)} :
    Derives .exec ts t us → Derives .pipe ts t us
  | pipeMore {ts us vs : List Token} {t u : Cmd (List Char)} :
    Derives .exec ts t (.symbol '|' :: us) → Derives .pipe us u vs → Derives .pipe ts (.pipe t u) vs
  | block {ts us : List Token} {t : Cmd (List Char)} {rs : List (Direction × List Char)} :
    Derives .line ts t (.symbol ')' :: (redirTokens rs ++ us)) →
      Derives .exec (.symbol '(' :: ts) (redirectAll t rs) us
  | words {rs : List (Direction × List Char)} {args : List (List Char × List (Direction × List Char))}
      {us : List Token} : args.length ≤ maxargs - 1 →
    Derives .exec (redirTokens rs ++ (argTokens args ++ us))
      (redirectAll (.exec (args.map Prod.fst)) (rs ++ args.flatMap Prod.snd)) us

/-- The line has the tree `t`. -/
def Parses (line : List Char) (t : Cmd (List Char)) : Prop :=
  ∃ ts, Lexes line ts ∧ Derives .line ts t []

/-! ### Outcomes -/

/-- What a routine may end with. -/
def Ends {α : Type} (onFuel onPanic : Prop) (Q : α → Prop) : Except Stop α → Prop
  | .ok a => Q a
  | .error .fuel => onFuel
  | .error (.panic _) => onPanic

namespace Ends

variable {α β : Type} {F F' P : Prop} {Q R : α → Prop} {x : Except Stop α}

theorem mono (h : Ends F P Q x) (hF : F → F') (hQ : ∀ a, Q a → R a) : Ends F' P R x := by
  cases x with
  | ok a => exact hQ a h
  | error e =>
    cases e with
    | fuel => exact hF h
    | panic msg => exact h

theorem bind {S : β → Prop} {f : α → Except Stop β} (h : Ends F P Q x) (hf : ∀ a, Q a → Ends F P S (f a)) :
    Ends F P S (x >>= f) := by
  cases x with
  | ok a => exact hf a h
  | error e =>
    cases e with
    | fuel => exact h
    | panic msg => exact h

theorem exists_ok (h : Ends F True Q x) (h' : Ends True False R x) (hF : ¬ F) : ∃ a, x = .ok a ∧ R a := by
  cases x with
  | ok a => exact ⟨a, rfl, h'⟩
  | error e =>
    cases e with
    | fuel => exact absurd h hF
    | panic msg => exact absurd h' id

theorem ne_fuel (h : Ends F P Q x) (hF : ¬ F) : x ≠ .error .fuel := by
  rintro rfl
  exact hF h

theorem of_ok {a : α} (h : Ends F P Q x) (hx : x = .ok a) : Q a := by
  subst hx
  exact h

end Ends

/-! ### Trees over the line -/

/-- The tree over positions stands for the tree over words. -/
structure Reads (line : List Char) (cmd : Cmd Ptr) (t : Cmd (List Char)) : Prop where
  tree : cmd.map (slice line) = t
  words : ∀ p ∈ cmd.strings, IsWord line p

section Trees

variable {line : List Char} {cmd cmd' : Cmd Ptr} {t t' : Cmd (List Char)} {p : Ptr}

theorem Reads.back (h : Reads line cmd t) : Reads line (.back cmd) (.back t) :=
  ⟨congrArg Cmd.back h.tree, h.words⟩

theorem reads_two {f : ∀ {α : Type}, Cmd α → Cmd α → Cmd α}
    (hmap : (f cmd cmd').map (slice line) = f (cmd.map (slice line)) (cmd'.map (slice line)))
    (hstrings : (f cmd cmd').strings = cmd.strings ++ cmd'.strings) (h : Reads line cmd t)
    (h' : Reads line cmd' t') : Reads line (f cmd cmd') (f t t') := by
  refine ⟨by rw [hmap, h.tree, h'.tree], fun p hp => ?_⟩
  rw [hstrings, List.mem_append] at hp
  exact hp.elim (h.words p) (h'.words p)

theorem Reads.list (h : Reads line cmd t) (h' : Reads line cmd' t') :
    Reads line (.list cmd cmd') (.list t t') :=
  reads_two (f := Cmd.list) rfl rfl h h'

theorem Reads.pipe (h : Reads line cmd t) (h' : Reads line cmd' t') :
    Reads line (.pipe cmd cmd') (.pipe t t') :=
  reads_two (f := Cmd.pipe) rfl rfl h h'

theorem Reads.redir (h : Reads line cmd t) (hp : IsWord line p) (mode fd : ℕ) :
    Reads line (.redir cmd p mode fd) (.redir t (slice line p) mode fd) where
  tree := by rw [Cmd.map, h.tree]
  words q hq := by
    rcases List.mem_cons.1 hq with rfl | hq
    · exact hp
    · exact h.words q hq

theorem Reads.redircmd (h : Reads line cmd t) (hp : IsWord line p) (d : Direction) :
    Reads line (redircmd d.token.code cmd p) (redirect t (d, slice line p)) := by
  cases d <;> exact h.redir hp _ _

theorem map_addArg (f : Ptr → List Char) (cmd : Cmd Ptr) (p : Ptr) :
    (cmd.addArg p).map f = (cmd.map f).addArg (f p) := by
  induction cmd with
  | exec argv => simp [Cmd.addArg, Cmd.map]
  | redir cmd file mode fd ih => simp [Cmd.addArg, Cmd.map, ih]
  | pipe _ _ _ _ => rfl
  | list _ _ _ _ => rfl
  | back _ _ => rfl

theorem mem_strings_addArg {q : Ptr} (h : q ∈ (cmd.addArg p).strings) : q ∈ cmd.strings ∨ q = p := by
  induction cmd with
  | exec argv => simpa [Cmd.addArg, Cmd.strings] using h
  | redir cmd file mode fd ih =>
    rcases List.mem_cons.1 h with rfl | h
    · exact .inl List.mem_cons_self
    · exact (ih h).imp_left (List.mem_cons_of_mem _)
  | pipe _ _ _ _ => exact .inl h
  | list _ _ _ _ => exact .inl h
  | back _ _ => exact .inl h

theorem Reads.addArg (h : Reads line cmd t) (hp : IsWord line p) :
    Reads line (cmd.addArg p) (t.addArg (slice line p)) where
  tree := by rw [map_addArg, h.tree]
  words q hq := by
    rcases mem_strings_addArg hq with hq | rfl
    · exact h.words q hq
    · exact hp

theorem addArg_redirectAll (w : List Char) (rs : List (Direction × List Char)) (t : Cmd (List Char)) :
    (redirectAll t rs).addArg w = redirectAll (t.addArg w) rs := by
  induction rs generalizing t with
  | nil => rfl
  | cons r rs ih =>
    obtain ⟨d, file⟩ := r
    rw [redirectAll, List.foldl_cons, ← redirectAll, ih, redirectAll, redirectAll, List.foldl_cons]
    cases d <;> rfl

theorem redirectAll_append (t : Cmd (List Char)) (rs rs' : List (Direction × List Char)) :
    redirectAll t (rs ++ rs') = redirectAll (redirectAll t rs) rs' := List.foldl_append

end Trees

/-! ### Next tokens -/

section Tokens

variable {line : List Char} {s : ℕ} {ts : List Token} {tok : Token}

theorem starts_iff {toks : List Char} :
    starts toks ts = true ↔ ∃ tok us, ts = tok :: us ∧
      ((∃ c ∈ toks, tok = .symbol c) ∨ '>' ∈ toks ∧ tok = .append) := by
  cases ts with
  | nil => simp [starts]
  | cons tok us => cases tok <;> simp [starts]

theorem starts_symbol {c : Char} (hc : c ≠ '>') (h : starts [c] ts = true) :
    ∃ us, ts = .symbol c :: us := by
  obtain ⟨tok, us, rfl, ⟨d, hd, rfl⟩ | ⟨hd, -⟩⟩ := starts_iff.1 h
  · rw [List.mem_singleton.1 hd]
    exact ⟨us, rfl⟩
  · exact absurd (List.mem_singleton.1 hd).symm hc

theorem starts_redir (h : starts ['<', '>'] ts = true) :
    ∃ (d : Direction) (us : List Token), ts = d.token :: us := by
  obtain ⟨tok, us, rfl, ⟨c, hc, rfl⟩ | ⟨-, rfl⟩⟩ := starts_iff.1 h
  · simp only [List.mem_cons, List.not_mem_nil, or_false] at hc
    rcases hc with rfl | rfl
    · exact ⟨.input, us, rfl⟩
    · exact ⟨.output, us, rfl⟩
  · exact ⟨.append, us, rfl⟩

theorem starts_self (c : Char) (us : List Token) : starts [c] (.symbol c :: us) = true := by
  simp [starts]

theorem starts_token (d : Direction) (us : List Token) : starts ['<', '>'] (d.token :: us) = true := by
  cases d <;> rfl

theorem starts_disjoint {toks toks' : List Char} (hd : ∀ c ∈ toks, c ∉ toks')
    (h : starts toks ts = true) : starts toks' ts = false := by
  obtain ⟨tok, us, rfl, ⟨c, hc, rfl⟩ | ⟨hc, rfl⟩⟩ := starts_iff.1 h
  · simpa [starts] using hd c hc
  · simpa [starts] using hd _ hc

theorem starts_mono {toks toks' : List Char} (hs : ∀ c ∈ toks, c ∈ toks') (h : starts toks ts = true) :
    starts toks' ts = true := by
  obtain ⟨tok, us, rfl, ⟨c, hc, rfl⟩ | ⟨hc, rfl⟩⟩ := starts_iff.1 h
  · exact decide_eq_true (hs c hc)
  · exact decide_eq_true (hs _ hc)

theorem symbols_codes : ∀ c ∈ symbols, c ≠ nul ∧ c ≠ 'a' := by
  simp [symbols, nul]

theorem At.code (h : At line s (tok :: ts)) :
    tok.code ≠ nul ∧ (tok.code = 'a' → ∃ w, tok = .word w) := by
  rcases h.skip.lexes.uncons At.head_skip with
    ⟨c, rest, -, rfl, hc, -, -⟩ | ⟨rest, -, rfl, -⟩ | ⟨w, rest, -, rfl, -, -, -, -⟩
  · exact ⟨(symbols_codes c hc).1, fun ha => absurd ha (symbols_codes c hc).2⟩
  · exact ⟨by decide, fun ha => absurd ha (by decide)⟩
  · exact ⟨show 'a' ≠ nul by decide, fun _ => ⟨w, rfl⟩⟩

end Tokens

/-! ### Soundness -/

section Soundness

variable {line : List Char} {s fuel : ℕ} {ts : List Token} {cmd : Cmd Ptr} {t : Cmd (List Char)}

theorem backLoop_sound (hnul : nul ∉ line) (hat : At line s ts) (hcmd : Reads line cmd t) :
    Ends (fuel < line.length - s + 1) True (fun r => ∃ n us, ts = List.replicate n (.symbol '&') ++ us ∧
      Reads line r.1 (Cmd.back^[n] t) ∧ At line r.2 us ∧ s ≤ r.2) (backLoop line fuel cmd s) := by
  induction fuel generalizing s ts cmd t with
  | zero => exact Nat.succ_pos _
  | succ fuel ih =>
    obtain ⟨hpeek, hat', hle⟩ := peek_at ['&'] hat (by simp [symbols])
    rw [backLoop, hpeek]
    split
    · rename_i hstart
      obtain ⟨us, rfl⟩ := starts_symbol (by decide) hstart
      obtain ⟨-, hnext, hlt, -⟩ := gettoken_at hnul hat'
      have hbound := hnext.le
      refine (ih hnext hcmd.back).mono (by omega) ?_
      rintro r ⟨n, vs, rfl, hr, hvs, hle'⟩
      exact ⟨n + 1, vs, rfl, hr, hvs, by omega⟩
    · exact ⟨0, ts, rfl, hcmd, hat', hle⟩

theorem parseredirs_sound (hnul : nul ∉ line) (hat : At line s ts) (hcmd : Reads line cmd t) :
    Ends (fuel < line.length - s + 1) True (fun r => ∃ rs us, ts = redirTokens rs ++ us ∧
      Reads line r.1 (redirectAll t rs) ∧ At line r.2 us ∧ s ≤ r.2) (parseredirs line fuel cmd s) := by
  induction fuel generalizing s ts cmd t with
  | zero => exact Nat.succ_pos _
  | succ fuel ih =>
    obtain ⟨hpeek, hat', hle⟩ := peek_at ['<', '>'] hat (by simp [symbols])
    rw [parseredirs, hpeek]
    split
    · rename_i hstart
      obtain ⟨d, us, rfl⟩ := starts_redir hstart
      obtain ⟨hret, hnext, hlt, -⟩ := gettoken_at hnul hat'
      dsimp only
      split
      · trivial
      · rename_i hfile
        rw [not_not] at hfile
        cases us with
        | nil =>
          -- at the end of the line there is no file
          rw [(gettoken_end hnext).1] at hfile
          exact absurd hfile (by decide)
        | cons tok us =>
          obtain ⟨hcode, hafter, hlt', hword⟩ := gettoken_at hnul hnext
          rw [hcode] at hfile
          obtain ⟨w, rfl⟩ := hnext.code.2 hfile
          obtain ⟨hw, hslice⟩ := hword w rfl
          have hbound := hafter.le
          have hread := hcmd.redircmd hw d
          rw [hslice] at hread
          rw [hret]
          refine (ih hafter hread).mono (by omega) ?_
          rintro r ⟨rs, vs, rfl, hr, hvs, hle'⟩
          exact ⟨(d, w) :: rs, vs, rfl, hr, hvs, by omega⟩
    · exact ⟨[], ts, rfl, hcmd, hat', hle⟩

theorem argLoop_sound (hnul : nul ∉ line) {argc : ℕ} {rs : List (Direction × List Char)}
    {ws : List (List Char)} (hat : At line s ts) (hcmd : Reads line cmd (redirectAll (.exec ws) rs))
    (hargc : argc < maxargs) :
    Ends (fuel < line.length - s + 1) True (fun r => ∃ args us, ts = argTokens args ++ us ∧
      argc + args.length < maxargs ∧
      Reads line r.1 (redirectAll (.exec (ws ++ args.map Prod.fst)) (rs ++ args.flatMap Prod.snd)) ∧
      At line r.2 us ∧ s ≤ r.2) (argLoop line fuel cmd argc s) := by
  induction fuel generalizing s ts cmd argc rs ws with
  | zero => exact Nat.succ_pos _
  | succ fuel ih =>
    obtain ⟨-, hat', hle⟩ := peek_at ['|', ')', '&', ';'] hat (by simp [symbols])
    have hdone : ∀ {n : ℕ}, At line n ts → s ≤ n → ∃ args us, ts = argTokens args ++ us ∧
        argc + args.length < maxargs ∧
        Reads line cmd (redirectAll (.exec (ws ++ args.map Prod.fst)) (rs ++ args.flatMap Prod.snd)) ∧
        At line n us ∧ s ≤ n := by
      intro n hn hsn
      refine ⟨[], ts, rfl, hargc, ?_, hn, hsn⟩
      simpa using hcmd
    rw [argLoop]
    split
    · exact hdone hat' hle
    · dsimp only
      cases ts with
      | nil =>
        obtain ⟨hret, hnext, hle'⟩ := gettoken_end hat'
        rw [if_pos hret]
        exact hdone hnext (by omega)
      | cons tok us =>
        obtain ⟨hret, hnext, hlt, hword⟩ := gettoken_at hnul hat'
        rw [if_neg (by rw [hret]; exact hat'.code.1)]
        split
        · trivial
        · rename_i hcode
          rw [hret, not_not] at hcode
          obtain ⟨w, rfl⟩ := hat'.code.2 hcode
          obtain ⟨hw, hslice⟩ := hword w rfl
          split
          · trivial
          · rename_i hmax
            have hbound := hnext.le
            have hread := hcmd.addArg hw
            rw [hslice, addArg_redirectAll] at hread
            refine Ends.bind ((parseredirs_sound hnul hnext hread).mono (by omega) fun _ h => h) ?_
            rintro ⟨ret, n⟩ ⟨rs', vs, rfl, hret', hvs, hle'⟩
            rw [← redirectAll_append] at hret'
            have hvsle := hvs.le
            refine (ih hvs hret' (by omega)).mono (by dsimp only at *; omega) ?_
            rintro r ⟨args, xs, rfl, hlen, hr, hxs, hle''⟩
            refine ⟨(w, rs') :: args, xs, ?_, ?_, ?_, hxs, ?_⟩
            · simp [argTokens]
            · rw [List.length_cons]
              omega
            · simpa using hr
            · dsimp only at *
              omega

/-- What a routine for the phrase `x` may return at `s`. -/
def Found (line : List Char) (x : Phrase) (s : ℕ) (ts : List Token) (r : Cmd Ptr × ℕ) : Prop :=
  ∃ t us, Derives x ts t us ∧ Reads line r.1 t ∧ At line r.2 us ∧ s ≤ r.2

/-- The routines return phrases, and the fuel they need is four times what is left of the line, and the
place in the cycle of calls. -/
structure Sound (line : List Char) (fuel : ℕ) : Prop where
  onLine : ∀ {s ts}, At line s ts →
    Ends (fuel < 4 * (line.length - s) + 4) True (Found line .line s ts) (parseline line fuel s)
  onPipe : ∀ {s ts}, At line s ts →
    Ends (fuel < 4 * (line.length - s) + 3) True (Found line .pipe s ts) (parsepipe line fuel s)
  onExec : ∀ {s ts}, At line s ts →
    Ends (fuel < 4 * (line.length - s) + 2) True (Found line .exec s ts) (parseexec line fuel s)
  onBlock : ∀ {s ts}, At line s ts →
    Ends (fuel < 4 * (line.length - s) + 1) True (Found line .exec s ts) (parseblock line fuel s)

theorem Sound.zero (line : List Char) : Sound line 0 := by
  constructor
  all_goals
    intro s ts _
    simp only [Shell.parseline, Shell.parsepipe, Shell.parseexec, Shell.parseblock]
    exact Nat.succ_pos _

theorem Sound.parseline (hnul : nul ∉ line) (h : Sound line fuel) (hat : At line s ts) :
    Ends (fuel + 1 < 4 * (line.length - s) + 4) True (Found line .line s ts)
      (parseline line (fuel + 1) s) := by
  rw [Shell.parseline]
  refine Ends.bind ((h.onPipe hat).mono (by omega) fun _ h => h) ?_
  rintro ⟨cmd, n₁⟩ ⟨t, us, hderives, hcmd, hus, hle⟩
  refine Ends.bind ((backLoop_sound hnul hus hcmd).mono (by dsimp only at *; omega) fun _ h => h) ?_
  rintro ⟨cmd', n₂⟩ ⟨k, vs, rfl, hcmd', hvs, hle'⟩
  have hbound := hvs.le
  dsimp only at *
  obtain ⟨hpeek, hat', hskip⟩ := peek_at [';'] hvs (by simp [symbols])
  rw [hpeek]
  split
  · rename_i hstart
    obtain ⟨xs, rfl⟩ := starts_symbol (by decide) hstart
    obtain ⟨-, hnext, hlt, -⟩ := gettoken_at hnul hat'
    have hbound' := hnext.le
    refine Ends.bind ((h.onLine hnext).mono (by omega) fun _ h => h) ?_
    rintro ⟨rest, n₃⟩ ⟨u, ys, hrest, hread, hys, hle₃⟩
    exact ⟨_, ys, .lineList hderives hrest, hcmd'.list hread, hys, by dsimp only at *; omega⟩
  · exact ⟨_, vs, .lineEnd hderives, hcmd', hat', by dsimp only; omega⟩

theorem Sound.parsepipe (hnul : nul ∉ line) (h : Sound line fuel) (hat : At line s ts) :
    Ends (fuel + 1 < 4 * (line.length - s) + 3) True (Found line .pipe s ts)
      (parsepipe line (fuel + 1) s) := by
  rw [Shell.parsepipe]
  refine Ends.bind ((h.onExec hat).mono (by omega) fun _ h => h) ?_
  rintro ⟨cmd, n₁⟩ ⟨t, us, hderives, hcmd, hus, hle⟩
  have hbound := hus.le
  dsimp only at *
  obtain ⟨hpeek, hat', hskip⟩ := peek_at ['|'] hus (by simp [symbols])
  rw [hpeek]
  split
  · rename_i hstart
    obtain ⟨vs, rfl⟩ := starts_symbol (by decide) hstart
    obtain ⟨-, hnext, hlt, -⟩ := gettoken_at hnul hat'
    have hbound' := hnext.le
    refine Ends.bind ((h.onPipe hnext).mono (by omega) fun _ h => h) ?_
    rintro ⟨rest, n₂⟩ ⟨u, xs, hrest, hread, hxs, hle₂⟩
    exact ⟨_, xs, .pipeMore hderives hrest, hcmd.pipe hread, hxs, by dsimp only at *; omega⟩
  · exact ⟨_, us, .pipeEnd hderives, hcmd, hat', by dsimp only; omega⟩

theorem Sound.parseexec (hnul : nul ∉ line) (h : Sound line fuel) (hat : At line s ts) :
    Ends (fuel + 1 < 4 * (line.length - s) + 2) True (Found line .exec s ts)
      (parseexec line (fuel + 1) s) := by
  obtain ⟨-, hat', hskip⟩ := peek_at ['('] hat (by simp [symbols])
  rw [Shell.parseexec]
  split
  · refine (h.onBlock hat').mono (by omega) ?_
    rintro r ⟨t, us, hderives, hread, hus, hle⟩
    exact ⟨t, us, hderives, hread, hus, by omega⟩
  · have hempty : Reads line (.exec []) (redirectAll (.exec []) []) := ⟨rfl, fun p hp => by cases hp⟩
    refine Ends.bind ((parseredirs_sound hnul hat' hempty).mono (by omega) fun _ h => h) ?_
    rintro ⟨ret, n₁⟩ ⟨rs, us, hts, hret, hus, hle⟩
    dsimp only at *
    rw [← redirectAll_append, List.nil_append] at hret
    refine (argLoop_sound hnul hus hret (by decide)).mono (by omega) ?_
    rintro r ⟨args, vs, rfl, hlen, hr, hvs, hle₂⟩
    rw [List.nil_append] at hr
    rw [hts]
    exact ⟨_, vs, .words (by omega), hr, hvs, by omega⟩

theorem Sound.parseblock (hnul : nul ∉ line) (h : Sound line fuel) (hat : At line s ts) :
    Ends (fuel + 1 < 4 * (line.length - s) + 1) True (Found line .exec s ts)
      (parseblock line (fuel + 1) s) := by
  obtain ⟨hpeek, hat', hskip⟩ := peek_at ['('] hat (by simp [symbols])
  rw [Shell.parseblock, hpeek]
  split
  · rename_i hstart
    obtain ⟨us, rfl⟩ := starts_symbol (by decide) hstart
    obtain ⟨-, hnext, hlt, -⟩ := gettoken_at hnul hat'
    have hbound := hnext.le
    refine Ends.bind ((h.onLine hnext).mono (by omega) fun _ h => h) ?_
    rintro ⟨cmd, n₁⟩ ⟨t, vs, hderives, hcmd, hvs, hle⟩
    dsimp only at *
    obtain ⟨hpeek', hat₂, hskip'⟩ := peek_at [')'] hvs (by simp [symbols])
    rw [hpeek']
    split
    · rename_i hclose
      obtain ⟨xs, rfl⟩ := starts_symbol (by decide) hclose
      obtain ⟨-, hnext', hlt', -⟩ := gettoken_at hnul hat₂
      refine (parseredirs_sound hnul hnext' hcmd).mono (by omega) ?_
      rintro r ⟨rs, ys, rfl, hr, hys, hle₂⟩
      exact ⟨_, ys, .block hderives, hr, hys, by omega⟩
    · trivial
  · trivial

theorem sound (hnul : nul ∉ line) (fuel : ℕ) : Sound line fuel := by
  induction fuel with
  | zero => exact .zero line
  | succ fuel ih =>
    exact ⟨ih.parseline hnul, ih.parsepipe hnul, ih.parseexec hnul, ih.parseblock hnul⟩

end Soundness

/-! ### Completeness -/

/-- The tokens that can stand after a phrase. -/
def Follows : Phrase → List Token → Prop
  | .line, us => us = [] ∨ starts [')'] us = true
  | .pipe, us => us = [] ∨ starts [')', '&', ';'] us = true
  | .exec, us => us = [] ∨ starts ['|', ')', '&', ';'] us = true

def parse (line : List Char) : Phrase → ℕ → ℕ → Except Stop (Cmd Ptr × ℕ)
  | .line => parseline line
  | .pipe => parsepipe line
  | .exec => parseexec line

section Completeness

variable {line : List Char} {s fuel : ℕ} {us : List Token} {cmd : Cmd Ptr} {t : Cmd (List Char)}

theorem not_starts_of_follows {toks toks' : List Char} (hd : ∀ c ∈ toks, c ∉ toks')
    (h : us = [] ∨ starts toks us = true) : starts toks' us = false := by
  rcases h with rfl | h
  · rfl
  · exact starts_disjoint hd h

theorem not_starts_args {toks : List Char} {args : List (List Char × List (Direction × List Char))}
    (hd : ∀ c ∈ ['|', ')', '&', ';'], c ∉ toks) (hus : Follows .exec us) :
    starts toks (argTokens args ++ us) = false := by
  cases args with
  | nil => exact not_starts_of_follows hd hus
  | cons a args => rfl

theorem backLoop_complete (hnul : nul ∉ line) {n : ℕ}
    (hat : At line s (List.replicate n (.symbol '&') ++ us)) (hus : starts ['&'] us = false)
    (hcmd : Reads line cmd t) :
    Ends True False (fun r => Reads line r.1 (Cmd.back^[n] t) ∧ At line r.2 us)
      (backLoop line fuel cmd s) := by
  induction fuel generalizing s n cmd t with
  | zero => trivial
  | succ fuel ih =>
    obtain ⟨hpeek, hat', -⟩ := peek_at ['&'] hat (by simp [symbols])
    rw [backLoop, hpeek]
    cases n with
    | zero =>
      rw [List.replicate_zero, List.nil_append] at hat' ⊢
      rw [hus]
      exact ⟨hcmd, hat'⟩
    | succ n =>
      obtain ⟨-, hnext, -, -⟩ := gettoken_at hnul hat'
      have hrest := ih hnext hcmd.back
      exact hrest

theorem parseredirs_complete (hnul : nul ∉ line) {rs : List (Direction × List Char)}
    (hat : At line s (redirTokens rs ++ us)) (hus : starts ['<', '>'] us = false) (hcmd : Reads line cmd t) :
    Ends True False (fun r => Reads line r.1 (redirectAll t rs) ∧ At line r.2 us)
      (parseredirs line fuel cmd s) := by
  induction fuel generalizing s rs cmd t with
  | zero => trivial
  | succ fuel ih =>
    obtain ⟨hpeek, hat', -⟩ := peek_at ['<', '>'] hat (by simp [symbols])
    rw [parseredirs, hpeek]
    cases rs with
    | nil =>
      rw [redirTokens, List.flatMap_nil, List.nil_append] at hat' ⊢
      rw [hus]
      exact ⟨hcmd, hat'⟩
    | cons r rs =>
      obtain ⟨d, w⟩ := r
      have htokens : redirTokens ((d, w) :: rs) ++ us = d.token :: .word w :: (redirTokens rs ++ us) := rfl
      rw [htokens] at hat' ⊢
      rw [if_pos (starts_token d _)]
      obtain ⟨hret, hnext, -, -⟩ := gettoken_at hnul hat'
      obtain ⟨hcode, hafter, -, hword⟩ := gettoken_at hnul hnext
      obtain ⟨hw, hslice⟩ := hword w rfl
      have hread := hcmd.redircmd hw d
      rw [hslice] at hread
      dsimp only
      rw [hret, if_neg (by rw [hcode]; exact not_not.2 rfl)]
      have hrest := ih hafter hread
      exact hrest

theorem argLoop_complete (hnul : nul ∉ line) {argc : ℕ} {rs : List (Direction × List Char)}
    {ws : List (List Char)} {args : List (List Char × List (Direction × List Char))}
    (hat : At line s (argTokens args ++ us)) (hus : Follows .exec us)
    (hargc : argc + args.length < maxargs) (hcmd : Reads line cmd (redirectAll (.exec ws) rs)) :
    Ends True False (fun r =>
      Reads line r.1 (redirectAll (.exec (ws ++ args.map Prod.fst)) (rs ++ args.flatMap Prod.snd)) ∧
        At line r.2 us) (argLoop line fuel cmd argc s) := by
  induction fuel generalizing s argc rs ws args cmd with
  | zero => trivial
  | succ fuel ih =>
    obtain ⟨hpeek, hat', -⟩ := peek_at ['|', ')', '&', ';'] hat (by simp [symbols])
    rw [argLoop, hpeek]
    cases args with
    | nil =>
      have htokens : argTokens [] ++ us = us := rfl
      rw [htokens] at hat' ⊢
      have hread : Reads line cmd (redirectAll (.exec (ws ++ [])) (rs ++ [])) := by simpa using hcmd
      rcases hus with rfl | hus
      · obtain ⟨hret, hnext, -⟩ := gettoken_end hat'
        rw [if_neg (by simp [starts])]
        dsimp only
        rw [if_pos hret]
        exact ⟨hread, hnext⟩
      · rw [hus]
        exact ⟨hread, hat'⟩
    | cons a args =>
      obtain ⟨w, rs'⟩ := a
      have htokens : argTokens ((w, rs') :: args) ++ us =
          .word w :: (redirTokens rs' ++ (argTokens args ++ us)) := by simp [argTokens]
      rw [htokens] at hat' ⊢
      obtain ⟨hret, hnext, -, hword⟩ := gettoken_at hnul hat'
      obtain ⟨hw, hslice⟩ := hword w rfl
      have hread := hcmd.addArg hw
      rw [hslice, addArg_redirectAll] at hread
      rw [List.length_cons] at hargc
      -- after a word comes another word, or what follows the command
      have hstop : starts ['<', '>'] (argTokens args ++ us) = false := not_starts_args (by simp) hus
      rw [if_neg (by simp [starts])]
      dsimp only
      rw [hret, Token.code, if_neg (show 'a' ≠ nul by decide), if_neg (show ¬ 'a' ≠ 'a' from not_not.2 rfl),
        if_neg (by omega)]
      refine Ends.bind (parseredirs_complete hnul hnext hstop hread) ?_
      rintro ⟨ret, n⟩ ⟨hret', hn⟩
      rw [← redirectAll_append] at hret'
      refine (ih hn (by omega) hret').mono id ?_
      rintro r ⟨hr, hr'⟩
      exact ⟨by simpa [Cmd.addArg] using hr, hr'⟩

theorem ends_parse {x : Phrase} {Q : Cmd Ptr × ℕ → Prop}
    (h : ∀ fuel, Ends True False Q (parse line x (fuel + 1) s)) (fuel : ℕ) :
    Ends True False Q (parse line x fuel s) := by
  cases fuel with
  | zero =>
    cases x <;> simp only [parse, parseline, parsepipe, parseexec] <;> trivial
  | succ fuel => exact h fuel

theorem Derives.parses (hnul : nul ∉ line) {x : Phrase} {ts : List Token} (h : Derives x ts t us)
    (hus : Follows x us) (fuel : ℕ) (hat : At line s ts) :
    Ends True False (fun r => Reads line r.1 t ∧ At line r.2 us) (parse line x fuel s) := by
  induction h generalizing s fuel with
  | @lineEnd n ts us t _ ih =>
    refine ends_parse (fun fuel => ?_) fuel
    rw [parse, parseline]
    have hpipe : Follows .pipe (List.replicate n (.symbol '&') ++ us) := by
      cases n with
      | zero => exact hus.imp_right (starts_mono (by simp))
      | succ n => exact .inr rfl
    refine Ends.bind (ih hpipe fuel hat) ?_
    rintro ⟨cmd, n₁⟩ ⟨hcmd, hn₁⟩
    refine Ends.bind (backLoop_complete hnul hn₁ (not_starts_of_follows (by simp) hus) hcmd) ?_
    rintro ⟨cmd', n₂⟩ ⟨hcmd', hn₂⟩
    obtain ⟨hpeek, hat', -⟩ := peek_at [';'] hn₂ (by simp [symbols])
    dsimp only at *
    rw [hpeek, not_starts_of_follows (by simp) hus]
    exact ⟨hcmd', hat'⟩
  | @lineList n ts us vs t u _ _ ihpipe ihline =>
    refine ends_parse (fun fuel => ?_) fuel
    rw [parse, parseline]
    have hpipe : Follows .pipe (List.replicate n (.symbol '&') ++ .symbol ';' :: us) := by
      cases n <;> exact .inr rfl
    refine Ends.bind (ihpipe hpipe fuel hat) ?_
    rintro ⟨cmd, n₁⟩ ⟨hcmd, hn₁⟩
    refine Ends.bind (backLoop_complete hnul hn₁ rfl hcmd) ?_
    rintro ⟨cmd', n₂⟩ ⟨hcmd', hn₂⟩
    obtain ⟨hpeek, hat', -⟩ := peek_at [';'] hn₂ (by simp [symbols])
    obtain ⟨-, hnext, -, -⟩ := gettoken_at hnul hat'
    dsimp only at *
    rw [hpeek, if_pos (starts_self _ _)]
    refine Ends.bind (ihline hus fuel hnext) ?_
    rintro ⟨rest, n₃⟩ ⟨hrest, hn₃⟩
    exact ⟨hcmd'.list hrest, hn₃⟩
  | @pipeEnd ts us t _ ih =>
    refine ends_parse (fun fuel => ?_) fuel
    rw [parse, parsepipe]
    refine Ends.bind (ih (hus.imp_right (starts_mono (by simp))) fuel hat) ?_
    rintro ⟨cmd, n₁⟩ ⟨hcmd, hn₁⟩
    obtain ⟨hpeek, hat', -⟩ := peek_at ['|'] hn₁ (by simp [symbols])
    dsimp only at *
    rw [hpeek, not_starts_of_follows (by simp) hus]
    exact ⟨hcmd, hat'⟩
  | @pipeMore ts us vs t u _ _ ihexec ihpipe =>
    refine ends_parse (fun fuel => ?_) fuel
    rw [parse, parsepipe]
    refine Ends.bind (ihexec (.inr rfl) fuel hat) ?_
    rintro ⟨cmd, n₁⟩ ⟨hcmd, hn₁⟩
    obtain ⟨hpeek, hat', -⟩ := peek_at ['|'] hn₁ (by simp [symbols])
    obtain ⟨-, hnext, -, -⟩ := gettoken_at hnul hat'
    dsimp only at *
    rw [hpeek, if_pos (starts_self _ _)]
    refine Ends.bind (ihpipe hus fuel hnext) ?_
    rintro ⟨rest, n₂⟩ ⟨hrest, hn₂⟩
    exact ⟨hcmd.pipe hrest, hn₂⟩
  | @block ts us t rs _ ih =>
    refine ends_parse (fun fuel => ?_) fuel
    obtain ⟨hpeek, hat', -⟩ := peek_at ['('] hat (by simp [symbols])
    rw [parse, parseexec, hpeek, if_pos (starts_self _ _)]
    cases fuel with
    | zero =>
      rw [parseblock]
      trivial
    | succ fuel =>
      obtain ⟨hpeek', hat₂, -⟩ := peek_at ['('] hat' (by simp [symbols])
      obtain ⟨-, hnext, -, -⟩ := gettoken_at hnul hat₂
      rw [parseblock, hpeek', if_pos (starts_self _ _)]
      refine Ends.bind (ih (.inr rfl) fuel hnext) ?_
      rintro ⟨cmd, n₁⟩ ⟨hcmd, hn₁⟩
      obtain ⟨hclose, hat₃, -⟩ := peek_at [')'] hn₁ (by simp [symbols])
      obtain ⟨-, hnext', -, -⟩ := gettoken_at hnul hat₃
      dsimp only at *
      rw [hclose, if_pos (starts_self _ _)]
      exact parseredirs_complete hnul hnext' (not_starts_of_follows (by simp) hus) hcmd
  | @words rs args us hlen =>
    refine ends_parse (fun fuel => ?_) fuel
    obtain ⟨hpeek, hat', -⟩ := peek_at ['('] hat (by simp [symbols])
    have hopen : starts ['('] (redirTokens rs ++ (argTokens args ++ us)) = false := by
      cases rs with
      | nil => exact not_starts_args (by simp) hus
      | cons r rs => exact starts_disjoint (by simp) (starts_token r.1 _)
    have hstop : starts ['<', '>'] (argTokens args ++ us) = false := not_starts_args (by simp) hus
    have hempty : Reads line (.exec []) (redirectAll (.exec []) []) := ⟨rfl, fun p hp => by cases hp⟩
    rw [parse, parseexec, hpeek, hopen]
    refine Ends.bind (parseredirs_complete hnul hat' hstop hempty) ?_
    rintro ⟨ret, n₁⟩ ⟨hret, hn₁⟩
    rw [← redirectAll_append, List.nil_append] at hret
    have hargs : 0 + args.length < maxargs := by
      simp only [maxargs] at *
      omega
    exact argLoop_complete hnul hn₁ hus hargs hret

end Completeness

/-! ### The strings -/

/-- The buffer with a NUL at some places. -/
def Marked (ends : List ℕ) (buf buf' : List Char) : Prop :=
  ∀ i : ℕ, buf'[i]? = if i ∈ ends then buf[i]?.map fun _ => nul else buf[i]?

section Strings

variable {line buf buf' buf'' : List Char} {ends ends' : List ℕ} {cmd : Cmd Ptr} {p : Ptr}

theorem Marked.refl (buf : List Char) : Marked [] buf buf := fun i => by simp

theorem Marked.trans (h : Marked ends buf buf') (h' : Marked ends' buf' buf'') :
    Marked (ends ++ ends') buf buf'' := by
  intro i
  rw [h' i, h i]
  by_cases hi : i ∈ ends <;> by_cases hi' : i ∈ ends' <;> simp [hi, hi', Function.comp_def]

theorem Marked.set (buf : List Char) (e : ℕ) : Marked [e] buf (buf.set e nul) := by
  intro i
  rw [List.getElem?_set]
  by_cases hi : e = i
  · subst hi
    by_cases hlt : e < buf.length <;> simp [hlt]
  · rw [if_neg hi, if_neg (by simpa using Ne.symm hi)]

theorem marked_args (argv : List Ptr) (buf : List Char) :
    Marked (argv.map Prod.snd) buf (argv.foldl (fun buf arg => buf.set arg.2 nul) buf) := by
  induction argv generalizing buf with
  | nil => exact .refl buf
  | cons a argv ih => exact (Marked.set buf a.2).trans (ih _)

/-- `nulterminate` writes a NUL at the end of every string, and nowhere else. -/
theorem marked_nulterminate (cmd : Cmd Ptr) (buf : List Char) :
    Marked (cmd.strings.map Prod.snd) buf (nulterminate cmd buf) := by
  induction cmd generalizing buf with
  | exec argv => exact marked_args argv buf
  | redir cmd file mode fd ih =>
    intro i
    rw [nulterminate, ((ih buf).trans (Marked.set _ file.2)) i]
    have hends : i ∈ cmd.strings.map Prod.snd ++ [file.2] ↔ i ∈ (file :: cmd.strings).map Prod.snd := by
      simp [or_comm]
    exact if_congr hends rfl rfl
  | pipe left right ihl ihr =>
    rw [Cmd.strings, List.map_append]
    exact (ihl buf).trans (ihr _)
  | list left right ihl ihr =>
    rw [Cmd.strings, List.map_append]
    exact (ihl buf).trans (ihr _)
  | back cmd ih => exact ih buf

theorem cstring_eq {q : ℕ} {w : List Char} (hw : nul ∉ w) (hget : ∀ k < w.length, buf[q + k]? = w[k]?)
    (hend : buf[q + w.length]? = some nul) : cstring buf q = w := by
  have htake : (buf.drop q).take w.length = w := by
    apply List.ext_getElem?
    intro k
    by_cases hk : k < w.length
    · rw [List.getElem?_take_of_lt hk, List.getElem?_drop, hget k hk]
    · rw [List.getElem?_take_eq_none (by omega), List.getElem?_eq_none (by omega)]
  have hrest : (buf.drop q).drop w.length = nul :: (buf.drop q).drop (w.length + 1) := by
    rw [List.drop_drop, List.drop_drop, ← Nat.add_assoc]
    obtain ⟨hlt, hnul⟩ := List.getElem?_eq_some_iff.1 hend
    rw [List.drop_eq_getElem_cons hlt, hnul]
  rw [cstring, ← List.take_append_drop w.length (buf.drop q), htake, hrest,
    List.takeWhile_append_of_pos, List.takeWhile_cons_of_neg (by simp), List.append_nil]
  intro c hc
  rw [decide_eq_true_eq]
  rintro rfl
  exact hw hc

theorem IsWord.length_slice (hp : IsWord line p) : (slice line p).length = p.2 - p.1 := by
  have := hp.le
  rw [slice, List.length_take, List.length_drop]
  omega

theorem IsWord.notMem_ends (hp : IsWord line p) (hwords : ∀ q ∈ cmd.strings, IsWord line q) {i : ℕ}
    (hi : p.1 ≤ i) (hlt : i < p.2) : i ∉ cmd.strings.map Prod.snd := by
  intro hmem
  obtain ⟨q, hq, rfl⟩ := List.mem_map.1 hmem
  have := hp.le
  rcases (hwords q hq).stops with hend | hstop
  · omega
  · exact hstop (hp.inside q.2 hi hlt)

theorem cstring_word (hnul : nul ∉ line) (hwords : ∀ q ∈ cmd.strings, IsWord line q) (hp : p ∈ cmd.strings) :
    cstring (nulterminate cmd (line ++ [nul])) p.1 = slice line p := by
  have hword := hwords p hp
  have hlt := hword.lt
  have hle := hword.le
  have hmarked := marked_nulterminate cmd (line ++ [nul])
  apply cstring_eq
  · exact fun h => hnul (List.mem_of_mem_drop (List.mem_of_mem_take h))
  · intro k hk
    rw [hword.length_slice] at hk
    rw [hmarked, if_neg (hword.notMem_ends hwords (Nat.le_add_right _ _) (by omega)),
      List.getElem?_append_left (by omega), slice, List.getElem?_take_of_lt hk, List.getElem?_drop]
  · rw [hword.length_slice, Nat.add_sub_cancel' hlt.le, hmarked,
      if_pos (List.mem_map.2 ⟨p, hp, rfl⟩), List.getElem?_eq_getElem (by simp; omega)]
    rfl

theorem Cmd.map_congr {α β : Type} {f g : α → β} {cmd : Cmd α} (h : ∀ p ∈ cmd.strings, f p = g p) :
    cmd.map f = cmd.map g := by
  induction cmd with
  | exec argv => exact congrArg Cmd.exec (List.map_congr_left h)
  | redir cmd file mode fd ih =>
    rw [map, map, ih fun p hp => h p (List.mem_cons_of_mem _ hp), h file List.mem_cons_self]
  | pipe left right ihl ihr =>
    rw [map, map, ihl fun p hp => h p (List.mem_append_left _ hp),
      ihr fun p hp => h p (List.mem_append_right _ hp)]
  | list left right ihl ihr =>
    rw [map, map, ihl fun p hp => h p (List.mem_append_left _ hp),
      ihr fun p hp => h p (List.mem_append_right _ hp)]
  | back cmd ih => rw [map, map, ih h]

theorem Reads.cstrings {t : Cmd (List Char)} (hnul : nul ∉ line) (h : Reads line cmd t) :
    cmd.map (fun p => cstring (nulterminate cmd (line ++ [nul])) p.1) = t := by
  rw [← h.tree]
  exact Cmd.map_congr fun p hp => cstring_word hnul h.words hp

end Strings

/-! ### `parsecmd` -/

section Parsecmd

variable {line : List Char} {s : ℕ} {us : List Token}

theorem At.start {ts : List Token} (h : Lexes line ts) : At line 0 ts :=
  ⟨Nat.zero_le _, by rwa [List.drop_zero]⟩

theorem At.skip_eq_length_iff (h : At line s us) : Shell.skip line s = line.length ↔ us = [] := by
  have hle := h.skip.le
  constructor
  · intro hskip
    have hlex := h.skip.lexes
    rw [hskip, List.drop_length] at hlex
    cases us with
    | nil => rfl
    | cons tok us =>
      rcases hlex.uncons (fun c hc => by cases hc) with
        ⟨c, rest, hrest, -⟩ | ⟨rest, hrest, -⟩ | ⟨w, rest, hrest, -, hw, -⟩
      · cases hrest
      · cases hrest
      · exact absurd (List.append_eq_nil_iff.1 hrest.symm).1 hw
  · rintro rfl
    have hnil := List.drop_eq_nil_iff.1 (h.skip.lexes.eq_nil At.head_skip)
    omega

end Parsecmd

/-- `parsecmd` returns a tree exactly for the lines of the grammar, and the tree is that of the line, with
the words as NUL-terminated strings; otherwise it panics. -/
theorem parsecmd_iff {line : List Char} (hnul : nul ∉ line) :
    (∀ t, Parses line t ↔ ∃ cmd buf, parsecmd line = .ok (cmd, buf) ∧
      cmd.map (fun p => cstring buf p.1) = t) ∧ parsecmd line ≠ .error .fuel := by
  obtain ⟨ts, hts⟩ := exists_lexes line
  have hsound := (sound hnul (4 * line.length + 4)).onLine (.start hts)
  refine ⟨fun t => ⟨?_, ?_⟩, ?_⟩
  · rintro ⟨ts', hts', hderives⟩
    have hcomplete := hderives.parses hnul (.inl rfl) (4 * line.length + 4) (.start hts')
    obtain ⟨⟨cmd, s⟩, hrun, hread, hat⟩ := hsound.exists_ok hcomplete (by omega)
    refine ⟨cmd, _, ?_, hread.cstrings hnul⟩
    rw [parsecmd, hrun]
    exact if_neg (not_not.2 (hat.skip_eq_length_iff.2 rfl))
  · rintro ⟨cmd, buf, hrun, rfl⟩
    obtain ⟨⟨cmd', s⟩, hparse, hrun⟩ := Run.bind_ok hrun
    obtain ⟨t, us, hderives, hread, hat, -⟩ := hsound.of_ok hparse
    dsimp only at hrun hread hat
    split at hrun
    · cases hrun
    · rename_i hskip
      cases hrun
      obtain rfl := hat.skip_eq_length_iff.1 (not_not.1 hskip)
      rw [hread.cstrings hnul]
      exact ⟨ts, hts, hderives⟩
  · have hends : Ends (4 * line.length + 4 < 4 * (line.length - 0) + 4) True (fun _ => True)
        (parsecmd line) := by
      refine hsound.bind ?_
      intro r _
      dsimp only
      split <;> trivial
    exact hends.ne_fuel (by omega)

/-- `(ls;cat<a)|wc>b&`. -/
theorem parsecmd_iff_sample :
    Parses "(ls;cat<a)|wc>b&".toList
      (.back (.pipe (.list (.exec ["ls".toList]) (.redir (.exec ["cat".toList]) "a".toList oRdonly 0))
        (.redir (.exec ["wc".toList]) "b".toList oWronlyCreate 1))) := by
  have heval : Run.endsIn (fun r => decide (r.1.map (fun p => cstring r.2 p.1) =
      .back (.pipe (.list (.exec ["ls".toList]) (.redir (.exec ["cat".toList]) "a".toList oRdonly 0))
        (.redir (.exec ["wc".toList]) "b".toList oWronlyCreate 1))))
      (parsecmd "(ls;cat<a)|wc>b&".toList) = true := by
    decide +kernel
  obtain ⟨⟨cmd, buf⟩, hrun, htest⟩ := Run.of_endsIn heval
  exact ((parsecmd_iff (by decide)).1 _).2 ⟨cmd, buf, hrun, of_decide_eq_true htest⟩

end Xv6.Shell
