import Mathlib.Computability.Language

/-!
# The regular expressions of `grep`

`match`, `matchhere` and `matchstar` of `grep.c` on NUL-terminated strings, which are the lists of their
characters.  A pattern stands for a language: the product of the languages of its items, with `^` and `$`
saying whether the matched part has to be a prefix or a suffix of the text.
-/

open scoped Computability

namespace Xv6.Grep

/-! ### The source -/

/-- `matchstar`, with `matchhere` of the rest of the pattern: the loop looks at the rest first and then
goes over one more character. -/
def starLoop (here : List Char → Bool) (c : Char) : List Char → Bool
  | [] => here []
  | t :: text => here (t :: text) || ((t == c || c == '.') && starLoop here c text)

def matchhere : List Char → List Char → Bool
  | [], _ => true
  | c :: '*' :: re, text => starLoop (matchhere re) c text
  | ['$'], text => text.isEmpty
  | _ :: _, [] => false
  | c :: re, t :: text => (c == '.' || c == t) && matchhere re text

def matchstar (c : Char) (re text : List Char) : Bool := starLoop (matchhere re) c text

/-- The loop of `match`, which looks at the empty string at the end as well. -/
def matchLoop (re : List Char) : List Char → Bool
  | [] => matchhere re []
  | t :: text => matchhere re (t :: text) || matchLoop re text

def match_ : List Char → List Char → Bool
  | '^' :: re, text => matchhere re text
  | re, text => matchLoop re text

/-! ### What a pattern means -/

/-- A character or `.`, which may be starred. -/
structure Item where
  char : Char
  starred : Bool
deriving DecidableEq, Repr

/-- A pattern, read from the left. -/
structure Pattern where
  /-- It starts with `^`. -/
  fromStart : Bool
  items : List Item
  /-- It ends with `$`. -/
  toEnd : Bool
deriving DecidableEq, Repr

/-- The items, and whether a `$` is left as the last character. -/
def readItems : List Char → List Item × Bool
  | [] => ([], false)
  | c :: '*' :: re => (⟨c, true⟩ :: (readItems re).1, (readItems re).2)
  | ['$'] => ([], true)
  | c :: re => (⟨c, false⟩ :: (readItems re).1, (readItems re).2)

def Pattern.read : List Char → Pattern
  | '^' :: re => ⟨true, (readItems re).1, (readItems re).2⟩
  | re => ⟨false, (readItems re).1, (readItems re).2⟩

/-- The strings of one character that `c` matches. -/
def charLang (c : Char) : Language Char := {w | ∃ t, w = [t] ∧ (c = '.' ∨ c = t)}

def Item.lang (i : Item) : Language Char := if i.starred then (charLang i.char)∗ else charLang i.char

/-- Concatenations of matches of the items. -/
def itemsLang (is : List Item) : Language Char := (is.map Item.lang).prod

/-- Some part of the text matches. -/
def Pattern.Matches (p : Pattern) (text : List Char) : Prop :=
  ∃ before part after, text = before ++ part ++ after ∧ part ∈ itemsLang p.items ∧
    (p.fromStart → before = []) ∧ (p.toEnd → after = [])

/-! ### Correctness -/

theorem mem_charLang_star {c : Char} {w : List Char} :
    w ∈ (charLang c)∗ ↔ ∀ t ∈ w, c = '.' ∨ c = t := by
  rw [Language.mem_kstar]
  constructor
  · rintro ⟨L, rfl, hL⟩ t ht
    obtain ⟨y, hy, hty⟩ := List.mem_flatten.1 ht
    obtain ⟨s, rfl, hs⟩ := hL y hy
    rwa [List.mem_singleton.1 hty]
  · intro h
    refine ⟨w.map fun t => [t], by rw [← List.flatMap_def, List.flatMap_singleton'], fun y hy => ?_⟩
    obtain ⟨t, ht, rfl⟩ := List.mem_map.1 hy
    exact ⟨t, rfl, h t ht⟩

theorem itemsLang_cons (i : Item) (is : List Item) : itemsLang (i :: is) = i.lang * itemsLang is := by
  simp [itemsLang]

theorem starLoop_iff {here : List Char → Bool} {c : Char} {text : List Char} :
    starLoop here c text = true ↔
      ∃ w rest, text = w ++ rest ∧ (∀ t ∈ w, c = '.' ∨ c = t) ∧ here rest = true := by
  induction text with
  | nil => simp [starLoop]
  | cons t text ih =>
    rw [starLoop, Bool.or_eq_true, Bool.and_eq_true, ih]
    constructor
    · rintro (hhere | ⟨htest, w, rest, rfl, hw, hrest⟩)
      · exact ⟨[], t :: text, rfl, by simp, hhere⟩
      · refine ⟨t :: w, rest, rfl, ?_, hrest⟩
        simp only [Bool.or_eq_true, beq_iff_eq] at htest
        simp only [List.mem_cons, forall_eq_or_imp]
        exact ⟨htest.symm.imp_right Eq.symm, hw⟩
    · rintro ⟨w, rest, htext, hw, hrest⟩
      cases w with
      | nil =>
        left
        rw [htext]
        exact hrest
      | cons s w =>
        obtain ⟨rfl, rfl⟩ := List.cons.inj htext
        simp only [List.mem_cons, forall_eq_or_imp] at hw
        refine .inr ⟨?_, w, rest, rfl, hw.2, hrest⟩
        simp only [Bool.or_eq_true, beq_iff_eq]
        exact hw.1.symm.imp_left Eq.symm

theorem matchhere_char {c : Char} {re text : List Char} (hstar : ∀ re', re = '*' :: re' → False)
    (hend : c = '$' → re = [] → False) : matchhere (c :: re) text = true ↔
      ∃ t rest, text = t :: rest ∧ (c = '.' ∨ c = t) ∧ matchhere re rest = true := by
  cases text with
  | nil =>
    rw [matchhere]
    · simp
    · exact hstar
    · exact hend
  | cons t text =>
    rw [matchhere]
    · simp [and_assoc]
    · exact hstar
    · exact hend

theorem matchhere_iff (re text : List Char) :
    matchhere re text = true ↔ ∃ part after, text = part ++ after ∧
      part ∈ itemsLang (readItems re).1 ∧ ((readItems re).2 = true → after = []) := by
  induction re using readItems.induct generalizing text with
  | case1 =>
    simp only [matchhere, readItems, true_iff]
    exact ⟨[], text, rfl, rfl, by simp⟩
  | case2 c re ih =>
    rw [matchhere, starLoop_iff, readItems]
    simp only [itemsLang_cons, Item.lang, if_true, Language.mem_mul]
    constructor
    · rintro ⟨w, rest, rfl, hw, hrest⟩
      obtain ⟨part, after, rfl, hpart, hend⟩ := (ih rest).1 hrest
      exact ⟨w ++ part, after, by simp, ⟨w, mem_charLang_star.2 hw, part, hpart, rfl⟩, hend⟩
    · rintro ⟨_, after, rfl, ⟨w, hw, part, hpart, rfl⟩, hend⟩
      exact ⟨w, part ++ after, by simp, mem_charLang_star.1 hw, (ih _).2 ⟨part, after, rfl, hpart, hend⟩⟩
  | case3 =>
    rw [matchhere, readItems, List.isEmpty_iff]
    constructor
    · rintro rfl
      exact ⟨[], [], rfl, rfl, fun _ => rfl⟩
    · rintro ⟨part, after, rfl, hpart, hend⟩
      rw [(hpart : part = []), hend rfl]
      rfl
  | case4 c re hstar hend ih =>
    rw [matchhere_char hstar hend, readItems]
    · simp only [itemsLang_cons, Item.lang, Bool.false_eq_true, if_false, Language.mem_mul]
      constructor
      · rintro ⟨t, rest, rfl, ht, hrest⟩
        obtain ⟨part, after, rfl, hpart, hafter⟩ := (ih rest).1 hrest
        exact ⟨t :: part, after, rfl, ⟨[t], ⟨t, rfl, ht⟩, part, hpart, rfl⟩, hafter⟩
      · rintro ⟨_, after, rfl, ⟨_, ⟨t, rfl, ht⟩, part, hpart, rfl⟩, hafter⟩
        exact ⟨t, part ++ after, rfl, ht, (ih _).2 ⟨part, after, rfl, hpart, hafter⟩⟩
    · exact hstar
    · exact hend

theorem matchLoop_iff (re text : List Char) :
    matchLoop re text = true ↔ ∃ before rest, text = before ++ rest ∧ matchhere re rest = true := by
  induction text with
  | nil => simp [matchLoop]
  | cons t text ih =>
    rw [matchLoop, Bool.or_eq_true, ih]
    constructor
    · rintro (hhere | ⟨before, rest, rfl, hrest⟩)
      · exact ⟨[], t :: text, rfl, hhere⟩
      · exact ⟨t :: before, rest, rfl, hrest⟩
    · rintro ⟨before, rest, htext, hrest⟩
      cases before with
      | nil =>
        left
        rw [htext]
        exact hrest
      | cons s before =>
        obtain ⟨rfl, rfl⟩ := List.cons.inj htext
        exact .inr ⟨before, rest, rfl, hrest⟩

/-- `match` returns 1 exactly when the text has a part that the pattern describes. -/
theorem match_correct (re text : List Char) :
    match_ re text = true ↔ (Pattern.read re).Matches text := by
  unfold match_ Pattern.read
  split
  · rw [matchhere_iff]
    simp only [Pattern.Matches]
    constructor
    · rintro ⟨part, after, rfl, hpart, hend⟩
      exact ⟨[], part, after, rfl, hpart, fun _ => rfl, hend⟩
    · rintro ⟨before, part, after, rfl, hpart, hstart, hend⟩
      exact ⟨part, after, by rw [hstart trivial, List.nil_append], hpart, hend⟩
  · rw [matchLoop_iff]
    simp only [Pattern.Matches, Bool.false_eq_true, false_implies, true_and]
    constructor
    · rintro ⟨before, rest, rfl, hrest⟩
      obtain ⟨part, after, rfl, hpart, hend⟩ := (matchhere_iff _ _).1 hrest
      exact ⟨before, part, after, by simp, hpart, hend⟩
    · rintro ⟨before, part, after, rfl, hpart, hend⟩
      exact ⟨before, part ++ after, by simp, (matchhere_iff _ _).2 ⟨part, after, rfl, hpart, hend⟩⟩

example : Pattern.read "^a.*$*$".toList =
    ⟨true, [⟨'a', false⟩, ⟨'.', true⟩, ⟨'$', true⟩], true⟩ := by decide

end Xv6.Grep
