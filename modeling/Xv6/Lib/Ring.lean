import Mathlib.Data.List.Chain
import Mathlib.Data.List.Perm.Basic
import Mathlib.Order.Lattice

/-!
# Circular linked lists

`Links next l` says that `next` leads from every element of `l` to the one after it; a circular list
with first element `a` is `Links next (a :: l ++ [a])`.  The rules say which links have to be written
to insert and to remove an element, that a circular list may be read from any of its elements, and
where a new element belongs in one that is in ascending order from its first element on.  `Double` is
a circular list that is linked both ways, with the four writes of a removal and of an insertion at the
front.
-/

namespace Ring

variable {α : Type*} {next next' : α → α} {a b s z : α} {l A R : List α}

/-- Every element is linked to the one after it. -/
def Links (next : α → α) (l : List α) : Prop := l.IsChain fun x y => next x = y

theorem links_cons_cons : Links next (a :: b :: l) ↔ next a = b ∧ Links next (b :: l) :=
  List.isChain_cons_cons

theorem links_split : Links next (A ++ s :: R) ↔ Links next (A ++ [s]) ∧ Links next (s :: R) :=
  List.isChain_split

theorem Links.congr (h : Links next (l ++ [z])) (hl : ∀ x ∈ l, next' x = next x) :
    Links next' (l ++ [z]) := by
  induction l with
  | nil => exact List.isChain_singleton z
  | cons a l ih =>
    cases l with
    | nil =>
      refine links_cons_cons.2 ⟨?_, List.isChain_singleton z⟩
      rw [hl a List.mem_cons_self]
      exact (links_cons_cons.1 h).1
    | cons b l =>
      refine links_cons_cons.2 ⟨?_, ih (links_cons_cons.1 h).2 fun x hx =>
        hl x (List.mem_cons_of_mem a hx)⟩
      rw [hl a List.mem_cons_self]
      exact (links_cons_cons.1 h).1

theorem Links.replaceHead (h : Links next (s :: (R ++ [z]))) (hb : next' b = next s)
    (hR : ∀ x ∈ R, next' x = next x) : Links next' (b :: (R ++ [z])) := by
  cases R with
  | nil =>
    refine links_cons_cons.2 ⟨?_, List.isChain_singleton z⟩
    rw [hb]
    exact (links_cons_cons.1 h).1
  | cons c R =>
    refine links_cons_cons.2 ⟨?_, Links.congr (links_cons_cons.1 h).2 hR⟩
    rw [hb]
    exact (links_cons_cons.1 h).1

theorem Links.insertAfter (h : Links next (A ++ s :: (R ++ [z]))) (hs : next' s = b)
    (hb : next' b = next s) (hA : ∀ x ∈ A, next' x = next x) (hR : ∀ x ∈ R, next' x = next x) :
    Links next' (A ++ s :: b :: (R ++ [z])) := by
  obtain ⟨hfront, hback⟩ := links_split.1 h
  exact links_split.2 ⟨hfront.congr hA, links_cons_cons.2 ⟨hs, hback.replaceHead hb hR⟩⟩

theorem Links.removeAfter (h : Links next (A ++ s :: b :: (R ++ [z]))) (hs : next' s = next b)
    (hA : ∀ x ∈ A, next' x = next x) (hR : ∀ x ∈ R, next' x = next x) :
    Links next' (A ++ s :: (R ++ [z])) := by
  obtain ⟨hfront, hback⟩ := links_split.1 h
  exact links_split.2 ⟨hfront.congr hA, (links_cons_cons.1 hback).2.replaceHead hs hR⟩

theorem Links.unique {l' : List α} (h : Links next (s :: (l ++ [z]))) (hz : z ∉ l)
    (h' : Links next (s :: (l' ++ [z]))) (hz' : z ∉ l') : l = l' := by
  induction l generalizing s l' with
  | nil =>
    cases l' with
    | nil => rfl
    | cons d l' =>
      have hd := (links_cons_cons.1 h').1.symm.trans (links_cons_cons.1 h).1
      exact absurd (hd ▸ List.mem_cons_self) hz'
  | cons c l ih =>
    cases l' with
    | nil =>
      have hc := (links_cons_cons.1 h).1.symm.trans (links_cons_cons.1 h').1
      exact absurd (hc ▸ List.mem_cons_self) hz
    | cons d l' =>
      obtain ⟨hc, hrest⟩ := links_cons_cons.1 h
      obtain ⟨hd, hrest'⟩ := links_cons_cons.1 h'
      obtain rfl : c = d := hc.symm.trans hd
      rw [ih hrest (fun hm => hz (List.mem_cons_of_mem c hm)) hrest'
        fun hm => hz' (List.mem_cons_of_mem c hm)]

theorem Links.rotate (h : Links next (a :: l ++ [a])) (hs : s ∈ a :: l) :
    ∃ l', Links next (s :: l' ++ [s]) ∧ (s :: l').Perm (a :: l) := by
  obtain ⟨A, R, hsplit⟩ := List.append_of_mem hs
  cases A with
  | nil =>
    cases hsplit
    exact ⟨l, h, List.Perm.refl _⟩
  | cons c A =>
    obtain ⟨rfl, rfl⟩ : a = c ∧ l = A ++ s :: R := List.cons.inj hsplit
    have hsplit : Links next ((a :: A) ++ s :: (R ++ [a])) := by simpa using h
    obtain ⟨hfront, hback⟩ := links_split.1 hsplit
    refine ⟨R ++ a :: A, ?_, ?_⟩
    · have hjoin : Links next ((s :: R) ++ a :: (A ++ [s])) := links_split.2 ⟨hback, hfront⟩
      simpa using hjoin
    · rw [← List.cons_append, ← List.cons_append]
      exact List.perm_append_comm

theorem exists_place [LinearOrder α] (hasc : (s :: l).Pairwise (· < ·)) (hs : s < a)
    (hne : ∀ x ∈ l, x ≠ a) :
    ∃ A p R, s :: l = A ++ p :: R ∧ (∀ x ∈ A, x < a) ∧ p < a ∧ ∀ y ∈ R, a < y := by
  induction l generalizing s with
  | nil => exact ⟨[], s, [], rfl, by simp, hs, by simp⟩
  | cons d l ih =>
    obtain ⟨-, hrest⟩ := List.pairwise_cons.1 hasc
    by_cases hd : d < a
    · obtain ⟨A, p, R, hsplit, hA, hp, hR⟩ :=
        ih hrest hd fun x hx => hne x (List.mem_cons_of_mem d hx)
      refine ⟨s :: A, p, R, by rw [hsplit, List.cons_append], fun x hx => ?_, hp, hR⟩
      rcases List.mem_cons.1 hx with rfl | hx
      · exact hs
      · exact hA x hx
    · have had : a < d := lt_of_le_of_ne (not_lt.1 hd) (hne d List.mem_cons_self).symm
      refine ⟨[], s, d :: l, rfl, by simp, hs, fun y hy => ?_⟩
      rcases List.mem_cons.1 hy with rfl | hy
      · exact had
      · exact lt_trans had ((List.pairwise_cons.1 hrest).1 y hy)

/-! ### Doubly linked lists -/

/-- The circular list `h :: l`, linked in both directions. -/
structure Double (next prev : α → α) (h : α) (l : List α) : Prop where
  nodup : (h :: l).Nodup
  next : Links next (h :: l ++ [h])
  prev : Links prev (h :: l.reverse ++ [h])

variable {prev prev' : α → α} {h : α} {L : List α}

theorem Double.symm (hd : Double next prev h l) : Double prev next h l.reverse where
  nodup := (hd.nodup.perm ((List.reverse_perm l).symm.cons h))
  next := hd.prev
  prev := by
    rw [List.reverse_reverse]
    exact hd.next

theorem Double.next_eq (hd : Double next prev h (L ++ b :: R)) : ∃ A, h :: L = A ++ [prev b] := by
  have hprev := hd.prev
  rw [List.reverse_append, List.reverse_cons] at hprev
  obtain ⟨A, a, hA⟩ : ∃ A a, h :: L = A ++ [a] :=
    ⟨(h :: L).dropLast, (h :: L).getLast (by simp), (List.dropLast_append_getLast _).symm⟩
  refine ⟨A, ?_⟩
  have hrev : L.reverse ++ [h] = a :: A.reverse := by
    have := congrArg List.reverse hA
    simpa using this
  have hback : Links prev ((h :: R.reverse) ++ b :: (L.reverse ++ [h])) := by simpa using hprev
  rw [hrev] at hback
  rw [(links_cons_cons.1 (links_split.1 hback).2).1, hA]

variable [DecidableEq α]

theorem Double.remove_next (hd : Double next prev h (L ++ b :: R))
    (hnext : ∀ x, next' x = if x = prev b then next b else next x) :
    Links next' (h :: (L ++ R) ++ [h]) := by
  obtain ⟨A, hA⟩ := hd.next_eq
  have hnodup := hd.nodup
  have hlinks := hd.next
  rw [← List.cons_append, hA] at hnodup hlinks
  rw [← List.cons_append, hA]
  have hlinks' : Links next (A ++ prev b :: b :: (R ++ [h])) := by simpa using hlinks
  have hnodup' : (A ++ prev b :: b :: R).Nodup := by simpa using hnodup
  rw [List.nodup_append, List.nodup_cons] at hnodup'
  have hgoal : Links next' (A ++ prev b :: (R ++ [h])) := by
    refine hlinks'.removeAfter ?_ (fun x hx => ?_) fun x hx => ?_
    · rw [hnext, if_pos rfl]
    · rw [hnext, if_neg (hnodup'.2.2 x hx _ List.mem_cons_self)]
    · rw [hnext, if_neg]
      rintro rfl
      exact hnodup'.2.1.1 (List.mem_cons_of_mem b hx)
  simpa using hgoal

theorem Double.remove (hd : Double next prev h (L ++ b :: R))
    (hnext : ∀ x, next' x = if x = prev b then next b else next x)
    (hprev : ∀ x, prev' x = if x = next b then prev b else prev x) :
    Double next' prev' h (L ++ R) where
  nodup := hd.nodup.sublist (by simp)
  next := hd.remove_next hnext
  prev := by
    have hsymm := hd.symm
    rw [List.reverse_append, List.reverse_cons, List.append_assoc] at hsymm
    rw [List.reverse_append]
    exact Double.remove_next hsymm hprev

theorem Double.insert (hd : Double next prev h l) (hb : b ∉ h :: l)
    (hnext : ∀ x, next' x = if x = h then b else if x = b then next h else next x)
    (hprev : ∀ x, prev' x = if x = next h then b else if x = b then h else prev x) :
    Double next' prev' h (b :: l) := by
  have hbh : b ≠ h := fun hc => hb (hc ▸ List.mem_cons_self)
  have hbl : b ∉ l := fun hc => hb (List.mem_cons_of_mem h hc)
  have hhl : h ∉ l := (List.nodup_cons.1 hd.nodup).1
  refine ⟨?_, ?_, ?_⟩
  · refine List.nodup_cons.2 ⟨?_, List.nodup_cons.2 ⟨hbl, (List.nodup_cons.1 hd.nodup).2⟩⟩
    intro hc
    rcases List.mem_cons.1 hc with rfl | hc
    · exact hbh rfl
    · exact hhl hc
  · have hlinks : Links next ([] ++ h :: (l ++ [h])) := hd.next
    refine hlinks.insertAfter ?_ ?_ (fun x hx => by cases hx) fun x hx => ?_
    · rw [hnext, if_pos rfl]
    · rw [hnext, if_neg hbh, if_pos rfl]
    · have hxh : x ≠ h := fun hc => hhl (hc ▸ hx)
      have hxb : x ≠ b := fun hc => hbl (hc ▸ hx)
      rw [hnext, if_neg hxh, if_neg hxb]
  · -- the element that was first, or `h` itself, is the last one before `h` the other way round
    obtain ⟨A, hA⟩ : ∃ A, h :: l.reverse = A ++ [next h] := by
      cases l with
      | nil => exact ⟨[], by rw [(links_cons_cons.1 hd.next).1]; rfl⟩
      | cons c l =>
        refine ⟨h :: l.reverse, ?_⟩
        rw [(links_cons_cons.1 hd.next).1]
        simp
    have hnodup : (A ++ [next h]).Nodup := hA ▸ hd.symm.nodup
    rw [List.nodup_append] at hnodup
    have hlinks := hd.prev
    rw [hA, List.append_assoc] at hlinks
    have hlinks' : Links prev (A ++ next h :: ([] ++ [h])) := hlinks
    have hmem : ∀ x ∈ A, x ∈ h :: l := fun x hx => by
      have : x ∈ h :: l.reverse := hA ▸ List.mem_append_left _ hx
      simpa using this
    have hnb : next h ≠ b := by
      rintro hc
      have : next h ∈ h :: l.reverse := hA ▸ List.mem_append_right _ List.mem_cons_self
      exact hb (by simpa [hc] using this)
    have hgoal : Links prev' (A ++ next h :: b :: ([] ++ [h])) := by
      refine hlinks'.insertAfter ?_ ?_ (fun x hx => ?_) fun x hx => by cases hx
      · rw [hprev, if_pos rfl]
      · rw [hprev, if_neg hnb.symm, if_pos rfl]
        exact (links_cons_cons.1 (links_split.1 hlinks').2).1.symm
      · rw [hprev, if_neg (hnodup.2.2 x hx _ List.mem_cons_self), if_neg]
        rintro rfl
        exact hb (hmem _ hx)
    rw [List.reverse_cons, ← List.cons_append, hA]
    simpa using hgoal

end Ring
