import Xv6.Changes
import Xv6.Refinement

/-!
# Protection bits across a page-out

`page_out` keeps the permission bits of an entry, and `page_in` sets `PTE_W` and `PTE_U` whatever they
were.  A page that comes back is therefore writable and open to user code; only the mark of `pmalloc`
survives.  The protection is preserved exactly for pages that had both bits to begin with.
-/

namespace Xv6

open Machine

/-- What evictions, faults and the processor do to an entry. -/
inductive PteMove : Pte → Pte → Prop
  | soft {x y : Pte} (h : softBits y = softBits x) : PteMove x y
  | pageOut (x : Pte) : PteMove x (pageOutPte x)
  | pageIn (x : Pte) (f : ℕ) : PteMove x (pageInPte x (paOf f))

abbrev PteMoves : Pte → Pte → Prop := Relation.ReflTransGen PteMove

/-- The permission bits and the mark of `pmalloc` agree. -/
def SameProtection (x y : Pte) : Prop :=
  flagOn y pteW = flagOn x pteW ∧ flagOn y pteU = flagOn x pteU ∧ flagOn y pte1 = flagOn x pte1

instance (x y : Pte) : Decidable (SameProtection x y) := inferInstanceAs (Decidable (_ ∧ _ ∧ _))

section

variable {x y z : Pte}

theorem PteMove.pmalloc (h : PteMove x y) : flagOn y pte1 = flagOn x pte1 := by
  cases h with
  | soft h => exact flagOn_pte1_congr h
  | pageOut => exact pageOutPte_pmalloc _
  | pageIn => exact pageInPte_pmalloc _

/-- An entry that is present again is open: this holds of an absent entry, and every move keeps it. -/
theorem PteMove.open (h : PteMove x y)
    (hx : flagOn x pteP = true → flagOn x pteW = true ∧ flagOn x pteU = true)
    (hy : flagOn y pteP = true) : flagOn y pteW = true ∧ flagOn y pteU = true := by
  cases h with
  | soft h =>
    rw [flagOn_pteP_congr h] at hy
    rw [flagOn_pteW_congr h, flagOn_pteU_congr h]
    exact hx hy
  | pageOut =>
    rw [pageOutPte_present] at hy
    cases hy
  | pageIn => exact ⟨pageInPte_writable _ _, pageInPte_user _ _⟩

theorem PteMoves.pmalloc (h : PteMoves x y) : flagOn y pte1 = flagOn x pte1 := by
  induction h with
  | refl => rfl
  | tail _ hmove ih => exact hmove.pmalloc.trans ih

theorem PteMoves.open (h : PteMoves x y) (hx : flagOn x pteP = false)
    (hy : flagOn y pteP = true) : flagOn y pteW = true ∧ flagOn y pteU = true := by
  have hopen : flagOn y pteP = true → flagOn y pteW = true ∧ flagOn y pteU = true := by
    clear hy
    induction h with
    | refl =>
      intro hp
      rw [hx] at hp
      cases hp
    | tail _ hmove ih => exact hmove.open ih
  exact hopen hy

/-- A page that was out and came back has its old protection if and only if it had both bits. -/
theorem PteMoves.sameProtection_iff (hout : PteMoves x z) (hz : flagOn z pteP = false)
    (hback : PteMoves z y) (hy : flagOn y pteP = true) :
    SameProtection x y ↔ flagOn x pteW = true ∧ flagOn x pteU = true := by
  obtain ⟨hW, hU⟩ := hback.open hz hy
  rw [SameProtection, hW, hU, eq_comm, eq_comm (a := true) (b := flagOn x pteU)]
  constructor
  · exact fun h => ⟨h.1, h.2.1⟩
  · exact fun h => ⟨h.1, h.2, PteMoves.pmalloc (hout.trans hback)⟩

end

/-! ### Steps of the process -/

section

variable {S : Scope} {sel : Selection} {m m' : Machine} {d v : ℕ}

theorem entry_move {a : ℕ} {pte pte' : Pte} (hwalk : m.walkpgdir d a = some pte)
    (hmove : PteMove pte pte') (d' v : ℕ) :
    PteMove (entry m.dirs d' v) (entry (m.setPte d a pte').dirs d' v) := by
  rcases walk_store hwalk pte' d' (4096 * v) with ⟨hnew, hold⟩ | hsame
  · rw [entry_of_walk hold, setPte, entry_of_walk hnew]
    exact hmove
  · rw [setPte, entry, entry, hsame]
    exact .soft rfl

/-- What a change does to an entry of a directory that is neither built nor given back: paging, or, for
a page that may be mapped, an entry without the mark of `pmalloc`. -/
theorem Change.entry_cases {n : ℕ} (h : Change S m n m') (hv : v < 0x100000)
    (hM : ¬ ∀ v, S.map d v) :
    PteMove (entry m.dirs d v) (entry m'.dirs d v) ∨
      S.map d v ∧ (userPages ≤ v ∨ flagOn (entry m'.dirs d v) pte1 = false) := by
  have hne : ∀ {d'}, (∀ v, S.map d' v) → d ≠ d' := by
    rintro d' hM' rfl
    exact hM hM'
  have hsame : ∀ {d' v' : ℕ} {pte pte' : Pte}, v' < 0x100000 → ¬(d = d' ∧ v = v') →
      m.walkpgdir d' (4096 * v') = some pte →
      PteMove (entry m.dirs d v) (entry (store m.dirs d' (4096 * v') pte') d v) := by
    intro d' v' pte pte' hv' hne hwalk
    rw [entry_store_ne (hasTable_of_walk hwalk) hv' _ hv hne]
    exact .soft rfl
  cases h with
  | data h =>
    rw [h]
    exact Or.inl (.soft rfl)
  | proc h => exact Or.inl (.soft rfl)
  | soft hwalk hs => exact Or.inl (entry_move hwalk (.soft hs) d v)
  | evict hE hwalk hf => exact Or.inl (entry_move hwalk (.pageOut _) d v)
  | take d' v' hf => exact Or.inl (.soft rfl)
  | fetch hv' howner hwalk hpg => exact Or.inl (entry_move hwalk (.pageIn _ _) d v)
  | fetchNull hnull hv' hwalk hpg => exact Or.inl (entry_move hwalk (.pageIn _ 0x80000) d v)
  | table hf hnone =>
    left
    show PteMove _ (entry (addTable _ _ _ _) d v)
    rw [entry_addTable hnone]
    exact .soft rfl
  | @map d' v' f pte perm hperm hmark hv' hM' howner hwalk hp =>
    by_cases heq : d = d' ∧ v = v'
    · obtain ⟨rfl, rfl⟩ := heq
      refine Or.inr ⟨hM', Or.inr ?_⟩
      show flagOn (entry (store _ _ _ _) d v) pte1 = false
      rw [entry_store_self (hasTable_of_walk hwalk) hv, mapPte_pmalloc]
      exact hmark.resolve_right hM
    · exact Or.inl (hsame (lt_trans hv' (by decide)) heq hwalk)
  | @drop d' v' pte hv' hM' hwalk hp hf =>
    by_cases heq : d = d' ∧ v = v'
    · obtain ⟨rfl, rfl⟩ := heq
      refine Or.inr ⟨hM', Or.inr ?_⟩
      show flagOn (entry (store _ _ _ _) d v) pte1 = false
      rw [entry_store_self (hasTable_of_walk hwalk) hv]
      decide
    · exact Or.inl (hsame (lt_trans hv' (by decide)) heq hwalk)
  | newDir hM' hf =>
    rw [entry_congr (Function.update_of_ne (hne hM') _ _)]
    exact Or.inl (.soft rfl)
  | @kmap d' v' f pte perm hperm hv' hM' hwalk =>
    by_cases heq : d = d' ∧ v = v'
    · obtain ⟨rfl, rfl⟩ := heq
      exact Or.inr ⟨hM', Or.inl hv'.1⟩
    · exact Or.inl (hsame hv'.2 heq hwalk)
  | guard hM' hwalk =>
    rw [setPte, entry_congr (store_of_ne (hne hM') _ _ _)]
    exact Or.inl (.soft rfl)
  | mark hM' hwalk => exact Or.inl (entry_move hwalk (.pageOut _) d v)
  | dropDir hM' htables hd' =>
    rw [entry_congr (Function.update_of_ne (hne hM') _ _), freeTables_keeps htables]
    exact Or.inl (.soft rfl)

theorem Change.move {n : ℕ} (h : Change S m n m') (hv : v < 0x100000) (hM : ¬ S.map d v) :
    PteMove (entry m.dirs d v) (entry m'.dirs d v) := by
  rcases h.entry_cases hv fun hall => hM (hall v) with hmove | ⟨hmap, -⟩
  · exact hmove
  · exact absurd hmap hM

theorem Changes.moves {n : ℕ} (h : Changes S n m m') (hv : v < 0x100000) (hM : ¬ S.map d v) :
    PteMoves (entry m.dirs d v) (entry m'.dirs d v) := by
  induction h with
  | refl => exact .refl
  | tail _ hc ih => exact ih.tail (hc.move hv hM)

/-- The step releases none of the process's pages, and other processes leave its entries alone. -/
def KeepsPages (m : Machine) : Event → Prop
  | .sbrk n => 0 ≤ n
  | .load va => va < 0x100000000
  | .store va _ => va < 0x100000000
  | .others next => ∀ v < userPages,
      softBits (entry next.dirs m.proc.pgdir v) = softBits (entry m.dirs m.proc.pgdir v)

/-- What has happened to the pages the process had in `m`. -/
structure Keeps (m m' : Machine) : Prop where
  pgdir : m'.proc.pgdir = m.proc.pgdir
  sz : m.proc.sz ≤ m'.proc.sz
  moves : ∀ v < userPages, v < pagesOf m.proc.sz → PteMoves (m.pte v) (m'.pte v)

theorem Keeps.refl (m : Machine) : Keeps m m := ⟨rfl, le_rfl, fun _ _ _ => .refl⟩

theorem Keeps.trans {m'' : Machine} (h : Keeps m m') (h' : Keeps m' m'') : Keeps m m'' := by
  refine ⟨h'.pgdir.trans h.pgdir, h.sz.trans h'.sz, fun v hv hlt => ?_⟩
  have hlt' : v < pagesOf m'.proc.sz := by
    have := h.sz
    simp only [pagesOf] at *
    omega
  exact (h.moves v hv hlt).trans (h'.moves v hv hlt')

theorem Changes.keeps {n : ℕ} (h : Changes S n m m')
    (hM : ∀ v < pagesOf m.proc.sz, ¬ S.map m.proc.pgdir v) : Keeps m m' := by
  obtain ⟨-, -, hdir, hsz, -⟩ := h.id
  refine ⟨hdir, hsz.ge, fun v hv hlt => ?_⟩
  rw [pte, pte, hdir]
  exact h.moves (lt_trans hv (by decide)) (hM v hlt)

/-- Anything may be evicted, and pages from `n` on may be mapped. -/
def above (sel : Selection) (n : ℕ) : Scope := ⟨sel, fun _ => True, fun _ v => n ≤ v, True⟩

theorem tracks_above (sel : Selection) (n : ℕ) (p : Proc) : Tracks (above sel n) p := fun _ => ⟨trivial, trivial⟩

theorem growproc_keeps {n : Int} {r : Int} (hn : 0 ≤ n)
    (hrun : m.growproc sel n = .ok (r, m')) : Keeps m m' := by
  unfold growproc at hrun
  dsimp only at hrun
  split at hrun
  · obtain ⟨⟨sz, m₁⟩, halloc, hrun⟩ := Run.bind_ok hrun
    have hc := allocuvm_changes (S := above sel (pagesOf m.proc.sz)) halloc
      (tracks_above _ _ _) (fun _ _ => trivial) fun _ hv => hv
    have hkeeps := hc.keeps fun v hv => not_le.2 hv
    dsimp only at hrun
    split at hrun
    · cases hrun
      exact hkeeps
    · rename_i hsz
      cases hrun
      exact ⟨hkeeps.pgdir, (allocuvm_mono hsz halloc).1, hkeeps.moves⟩
  · split at hrun
    · omega
    · cases hrun
      exact Keeps.refl _

theorem access_keeps {va : ℕ} {write : Bool} {r : Option ℕ}
    (hrun : m.access sel va write = .ok (r, m')) (hva : va < 0x100000000) : Keeps m m' := by
  have hc := access_changes (S := above sel (pagesOf m.proc.sz)) hrun (tracks_above _ _ _) hva
    fun _ => trivial
  exact hc.keeps fun v hv => not_le.2 hv

theorem step_keeps {e : Event} (he : KeepsPages m e) (hrun : step sel m e = .ok m') :
    Keeps m m' := by
  cases e with
  | sbrk n =>
    obtain ⟨⟨r, m₁⟩, hgrow, hrun⟩ := Run.bind_ok hrun
    cases hrun
    exact growproc_keeps he hgrow
  | load va =>
    obtain ⟨⟨b, m₁⟩, hload, hrun⟩ := Run.bind_ok hrun
    cases hrun
    obtain ⟨⟨f, m₂⟩, haccess, hrun⟩ := Run.bind_ok hload
    cases hrun
    exact access_keeps haccess he
  | store va b =>
    obtain ⟨⟨f, m₂⟩, haccess, hrun⟩ := Run.bind_ok hrun
    have hkeeps := access_keeps haccess he
    cases f with
    | none =>
      cases hrun
      exact hkeeps
    | some f =>
      cases hrun
      exact ⟨hkeeps.pgdir, hkeeps.sz, hkeeps.moves⟩
  | others next =>
    cases hrun
    exact ⟨rfl, le_rfl, fun v hv _ => .single (.soft (he v hv))⟩

theorem run_keeps {events : List Event} (hadm : Run.Admits (step sel) KeepsPages events m)
    (hrun : Run.run (step sel) events m = .ok m') : Keeps m m' := by
  have hstep : ∀ s e s', Keeps m s → KeepsPages s e → step sel s e = .ok s' → Keeps m s' :=
    fun _ _ _ h he hs => h.trans (step_keeps he hs)
  exact Run.invariant hstep (Keeps.refl m) hadm hrun

/-- In every run of the process, a user page that was evicted and is present again has the protection
it had before if and only if it was writable and open to user code. -/
theorem protection_preserved_iff {m₁ : Machine} {before after : List Event} (hv : v < userPages)
    (hlt : v < pagesOf m.proc.sz) (hbefore : Run.Admits (step sel) KeepsPages before m)
    (hrun : Run.run (step sel) before m = .ok m₁) (hout : ¬ m₁.Present v)
    (hafter : Run.Admits (step sel) KeepsPages after m₁)
    (hrun' : Run.run (step sel) after m₁ = .ok m') (hback : m'.Present v) :
    SameProtection (m.pte v) (m'.pte v) ↔
      flagOn (m.pte v) pteW = true ∧ flagOn (m.pte v) pteU = true := by
  have h₁ := run_keeps hbefore hrun
  have h₂ := run_keeps hafter hrun'
  refine PteMoves.sameProtection_iff (h₁.moves v hv hlt) (Bool.eq_false_of_not_eq_true hout)
    (h₂.moves v hv ?_) hback
  have := h₁.sz
  simp only [pagesOf] at *
  omega

end

/-- Page 0 of a sixteen-page image is evicted by a growth and comes back as it was. -/
theorem protection_preserved_sample :
    ∃ m₁ m', Run.run (step .SCFIFO) [.sbrk 4096] (sampleMachine 16 16 8) = .ok m₁ ∧
      ¬ m₁.Present 0 ∧ Run.run (step .SCFIFO) [.load 0] m₁ = .ok m' ∧
      SameProtection ((sampleMachine 16 16 8).pte 0) (m'.pte 0) := by
  have heval : Run.endsIn (fun m₁ => decide (¬ m₁.Present 0 ∧
      Run.endsIn (fun m' => decide (m'.Present 0)) (Run.run (step .SCFIFO) [.load 0] m₁) = true))
      (Run.run (step .SCFIFO) [.sbrk 4096] (sampleMachine 16 16 8)) = true := by
    decide +kernel
  obtain ⟨m₁, hrun, htest⟩ := Run.of_endsIn heval
  obtain ⟨hout, hload⟩ := of_decide_eq_true htest
  obtain ⟨m', hrun', hback⟩ := Run.of_endsIn hload
  refine ⟨m₁, m', hrun, hout, hrun', ?_⟩
  have hgrow : Run.Admits (step .SCFIFO) KeepsPages [.sbrk 4096] (sampleMachine 16 16 8) :=
    ⟨show (0 : Int) ≤ 4096 by decide, fun _ _ => trivial⟩
  have htouch : Run.Admits (step .SCFIFO) KeepsPages [.load 0] m₁ :=
    ⟨show 0 < 0x100000000 by decide, fun _ _ => trivial⟩
  exact (protection_preserved_iff (by decide) (by decide) hgrow hrun hout htouch hrun'
    (of_decide_eq_true hback)).2 (by decide +kernel)

/-- The write protection of page 13, set as `protect_page` does, and the guard page 14 are both gone
once the two pages have been evicted and touched again. -/
theorem protection_lost :
    ∃ m m₁ m', (sampleMachine 16 16 40).turnFlag (4096 * 13) pteW false = .ok m ∧
      Run.run (step .SCFIFO) [.sbrk 61440] m = .ok m₁ ∧ ¬ m₁.Present 13 ∧ ¬ m₁.Present 14 ∧
      Run.run (step .SCFIFO) [.load (4096 * 13), .load (4096 * 14)] m₁ = .ok m' ∧
      m'.proc.killed = false ∧ m'.Present 13 ∧ m'.Present 14 ∧
      ¬ SameProtection (m.pte 13) (m'.pte 13) ∧ ¬ SameProtection (m.pte 14) (m'.pte 14) := by
  have heval : Run.endsIn (fun m => Run.endsIn (fun m₁ => decide (¬ m₁.Present 13 ∧ ¬ m₁.Present 14) &&
      Run.endsIn (fun m' => decide (m'.proc.killed = false ∧ m'.Present 13 ∧ m'.Present 14 ∧
        ¬ SameProtection (m.pte 13) (m'.pte 13) ∧ ¬ SameProtection (m.pte 14) (m'.pte 14)))
      (Run.run (step .SCFIFO) [.load (4096 * 13), .load (4096 * 14)] m₁))
      (Run.run (step .SCFIFO) [.sbrk 61440] m))
      ((sampleMachine 16 16 40).turnFlag (4096 * 13) pteW false) = true := by
    decide +kernel
  obtain ⟨m, hprotect, heval⟩ := Run.of_endsIn heval
  obtain ⟨m₁, hrun, heval⟩ := Run.of_endsIn heval
  rw [Bool.and_eq_true] at heval
  obtain ⟨m', hrun', htest⟩ := Run.of_endsIn heval.2
  obtain ⟨hout, hguard⟩ := of_decide_eq_true heval.1
  obtain ⟨hkilled, hback, hback', hlost, hlost'⟩ := of_decide_eq_true htest
  exact ⟨m, m₁, m', hprotect, hrun, hout, hguard, hrun', hkilled, hback, hback', hlost, hlost'⟩

end Xv6
