import Xv6.Exec
import Xv6.Fork

/-!
# Making and replacing address spaces

`setupkvm`, `copyuvm`, `freevm`, `exec` and `fork` broken into changes.  `exec` puts at most
`execLoads` pages in the queue, however many segments the program has, since the segments grow one
image below `KERNBASE`.
-/

namespace Xv6

open Machine

/-- The pages an `allocuvm` with result `r` can have gone through: a failure may come at any page. -/
def pagesReached (r : Option ℕ) : ℕ := (r.map pagesOf).getD userPages

/-- A bound for the pages `exec` loads, with the second chances given on the way. -/
def execLoads : ℕ := 36 * userPages

section

variable {S : Scope} {n : ℕ} {m m' : Machine} {d : ℕ} {count sz : ℕ} {r : Option ℕ}

theorem freevm_changes (hM : ∀ v, S.map d v) (hrun : m.freevm S.sel d = .ok m') :
    Changes S n m m' := by
  obtain ⟨⟨r, m₁⟩, hdealloc, hrun⟩ := Run.bind_ok hrun
  obtain ⟨m₂, htables, hrun⟩ := Run.bind_ok hrun
  obtain ⟨m₃, hfree, hrun⟩ := Run.bind_ok hrun
  cases hrun
  obtain ⟨rfl, hvalid⟩ := kfree_ok hfree
  have hc : Changes S n m m₁ := deallocuvm_changes hdealloc le_rfl fun v _ => hM v
  have hkend : m₂.kend = m₁.kend := by rw [freeTables_keeps htables]
  rw [hkend] at hvalid
  exact hc.tail (.dropDir hM htables hvalid)

theorem mapLoop_changes (hM : ∀ v, S.map d v) {perm : Pte}
    (hperm : flagOn perm pteU = false ∧ flagOn perm ptePG = false) {v f a : ℕ} {ok : Bool}
    (hrun : mapLoop d perm count a f m = .ok (ok, m')) (ha : 0 < count → a = 4096 * v)
    (hv : userPages ≤ v) (hend : v + count ≤ 0x100000) : Changes S n m m' := by
  refine mapLoop_induct (motive := fun _ _ m => Changes S n m m') hrun ha hend (fun _ => .refl)
    (fun _ _ _ _ _ _ => .refl) fun w g m m₁ hw _ halloc ht _ ih => ?_
  obtain ⟨hc, -, -⟩ := walkpgdirAlloc_changes (S := S) (n := 0) halloc
  exact hc.trans (.head (.kmap hperm ⟨by omega, by omega⟩ (hM w) (walk_eq_entry ht)) ih) (by omega)

theorem kmapLoop_changes (hM : ∀ v, S.map d v) {lo : ℕ} {l : List (ℕ × ℕ × ℕ × Pte)}
    (hl : Ascending lo l) (hlo : userPages ≤ lo)
    (hrun : kmapLoop S.sel d l m = .ok (r, m')) : Changes S n m m' := by
  obtain ⟨-, hdone⟩ | ⟨-, m₁, hc, hfree⟩ := kmapLoop_induct (P := fun m₁ => Changes S 0 m m₁) hl hlo hrun .refl
    fun _ _ _ _ _ _ _ hv hend _ hU hPG hmap h =>
      h.trans (mapLoop_changes (n := 0) hM ⟨hU, hPG⟩ hmap (fun _ => rfl) hv hend) le_rfl
  · exact hdone.trans (.refl (n := n)) (by omega)
  · exact hc.trans (freevm_changes (n := n) hM hfree) (by omega)

theorem setupkvm_changes (hM : ∀ d v, S.map d v)
    (hlayout : 0x100 < m.kdata ∧ m.kdata < phystopFrame)
    (hrun : m.setupkvm S.sel = .ok (r, m')) : Changes S n m m' := by
  unfold setupkvm at hrun
  split at hrun
  · cases hrun
    exact .refl
  · rename_i pgdir m₁ hkalloc
    obtain ⟨rest, hf, rfl⟩ := kalloc_ok hkalloc
    refine .head (.newDir (hM pgdir) hf) ?_
    exact kmapLoop_changes (hM pgdir) (kmap_ascending hlayout) le_rfl hrun

/-! ### Copies -/

theorem copyLoop_changes (hM : ∀ v, S.map d v) {pgdir w : ℕ}
    (hend : w + count ≤ userPages)
    (hrun : copyLoop S.sel pgdir d count (4096 * w) m = .ok (r, m')) : Changes S n m m' := by
  induction count generalizing w m with
  | zero =>
    cases hrun
    exact .refl
  | succ count ih =>
    have hw : w < userPages := by omega
    have hdiv : 4096 * w / 4096 = w := by omega
    have hnext : 4096 * w + 4096 = 4096 * (w + 1) := by omega
    unfold copyLoop at hrun
    rw [hnext, hdiv] at hrun
    split at hrun
    · cases hrun
    · rename_i pte hwalk
      split at hrun
      · split at hrun
        · obtain ⟨m₁, hout, hrun⟩ := Run.bind_ok hrun
          obtain ⟨pte', hwalk', rfl⟩ := pageOut_ok hout
          exact .head (.mark hM hwalk') (.head (.proc .pageOut) (ih (by omega) hrun))
        · rename_i hpg
          split at hrun
          · obtain ⟨m₁, hfree, hrun⟩ := Run.bind_ok hrun
            cases hrun
            exact freevm_changes hM hfree
          · rename_i f m₀ hkalloc
            obtain ⟨rest, hf, rfl⟩ := kalloc_ok hkalloc
            obtain ⟨⟨ok, m₁⟩, hmap, hrun⟩ := Run.bind_ok hrun
            have hperm : (pteFlags pte).toNat < 4096 ∧ flagOn (pteFlags pte) ptePG = false :=
              ⟨pteFlags_lt pte, (flagOn_pteFlags pte (by decide)).trans
                (Bool.eq_false_of_not_eq_true hpg)⟩
            have hc₀ : Changes S 0 m ((({ m with freelist := rest }.setOwner f d w).setFrame f
                (m.data (frameOf pte)))) :=
              .head (.take d w hf) (Changes.setFrame _ _ _)
            have hc₁ : Changes S 0 m m₁ := hc₀.trans (k := 0)
              (mappages_changes hmap hperm (Or.inr hM) hw (hM w) (by simp [setOwner, setFrame])).1 le_rfl
            cases ok with
            | false =>
              obtain ⟨m₂, hfree, hrun⟩ := Run.bind_ok hrun
              cases hrun
              exact hc₁.trans (freevm_changes (n := n) hM hfree) (by omega)
            | true => exact hc₁.trans (ih (by omega) hrun) (by omega)
      · cases hrun

theorem copyuvm_changes (hM : ∀ d v, S.map d v) {pgdir : ℕ}
    (hlayout : 0x100 < m.kdata ∧ m.kdata < phystopFrame) (hsz : sz ≤ kernBase)
    (hrun : m.copyuvm S.sel pgdir sz = .ok (r, m')) : Changes S n m m' := by
  obtain ⟨⟨d, m₁⟩, hsetup, hrun⟩ := Run.bind_ok hrun
  have hc : Changes S 0 m m₁ := setupkvm_changes hM hlayout hsetup
  cases d with
  | none =>
    cases hrun
    exact hc.mono (by omega)
  | some d =>
    refine hc.trans (copyLoop_changes (n := n) (w := 0) (hM d) ?_ hrun) (by omega)
    simp only [pagesOf, userPages, kernBase] at *
    omega

/-! ### Programs -/

theorem DataOnly.changes (h : DataOnly m m') : Changes S n m m' := by
  refine .single (.data ?_)
  rw [h]

theorem allocuvm_reaches {oldsz newsz r : ℕ} (ht : Tracks S m.proc)
    (hE : ∀ v < userPages, S.evict (4096 * v)) (hM : ∀ v, S.map d v)
    (hrun : m.allocuvm S.sel d oldsz newsz = .ok (r, m')) :
    Changes S (18 * (pagesReached (if r = 0 then none else some r) - pagesOf oldsz)) m m' := by
  by_cases hnew : kernBase ≤ newsz
  · rw [allocuvm, if_pos hnew] at hrun
    cases hrun
    exact .refl
  · have hc := allocuvm_changes hrun ht hE fun v _ => hM v
    split_ifs with hr
    · refine hc.mono (Nat.mul_le_mul_left 18 (Nat.sub_le_sub_right ?_ _))
      simp only [pagesReached, Option.map_none, Option.getD_none, pagesOf, userPages, kernBase] at *
      omega
    · by_cases hle : oldsz ≤ newsz
      · obtain rfl := (allocuvm_mono hr hrun).2.2 hle
        exact hc
      · rw [allocuvm, if_neg hnew, if_pos (by omega)] at hrun
        cases hrun
        exact .refl

theorem pagesOf_le_reached (hsz : sz < kernBase)
    (hr : ∀ sz', r = some sz' → sz ≤ sz') : pagesOf sz ≤ pagesReached r := by
  cases r with
  | none =>
    simp only [pagesReached, Option.map_none, Option.getD_none, pagesOf, userPages, kernBase] at *
    omega
  | some sz' =>
    have := hr sz' rfl
    simp only [pagesReached, Option.map_some, Option.getD_some, pagesOf]
    omega

theorem loadSegments_changes (ht : Tracks S m.proc) (hE : ∀ v < userPages, S.evict (4096 * v))
    (hM : ∀ v, S.map d v) {ip : File} {off : ℕ} (hsz : sz < kernBase)
    (hrun : loadSegments S.sel ip d count off sz m = .ok (r, m')) :
    Changes S (18 * (pagesReached r - pagesOf sz)) m m' := by
  induction count generalizing off sz m with
  | zero =>
    cases hrun
    exact .refl
  | succ count ih =>
    unfold loadSegments at hrun
    dsimp only at hrun
    split at hrun
    · cases hrun
      exact .refl
    split at hrun
    · exact ih ht hsz hrun
    split at hrun
    · cases hrun
      exact .refl
    split at hrun
    · cases hrun
      exact .refl
    obtain ⟨⟨sz₁, m₁⟩, halloc, hrun⟩ := Run.bind_ok hrun
    have hc := allocuvm_reaches ht hE hM halloc
    dsimp only at hrun
    split at hrun
    · rename_i hz
      cases hrun
      rwa [if_pos hz] at hc
    · rename_i hz
      rw [if_neg hz] at hc
      obtain ⟨hge, hlt, -⟩ := allocuvm_mono hz halloc
      have hsz₁ := hlt hsz
      have hfar : Changes S (18 * (pagesReached none - pagesOf sz)) m m₁ :=
        hc.mono (Nat.mul_le_mul_left 18 (Nat.sub_le_sub_right
          (pagesOf_le_reached (r := none) hsz₁ (by simp)) _))
      split at hrun
      · cases hrun
        exact hfar
      · obtain ⟨⟨ok, m₂⟩, hload, hrun⟩ := Run.bind_ok hrun
        have hdata : Changes S 0 m₁ m₂ := (loaduvm_ok hload).changes
        cases ok with
        | false =>
          cases hrun
          exact hfar.trans hdata le_rfl
        | true =>
          have hc₂ := hc.trans hdata le_rfl
          refine hc₂.trans (ih (hc₂.tracks ht) hsz₁ hrun) ?_
          have hmono : pagesOf sz ≤ pagesOf sz₁ := by
            simp only [pagesOf]
            omega
          have hreach : pagesOf sz₁ ≤ pagesReached r := pagesOf_le_reached hsz₁ fun sz' hr => by
            subst hr
            exact (loadSegments_mono hrun).1
          simp only [pagesReached, Option.map_some, Option.getD_some] at hreach ⊢
          omega

theorem pagesReached_le (h : ∀ sz, r = some sz → sz < kernBase) :
    pagesReached r ≤ userPages := by
  cases r with
  | none => exact le_rfl
  | some sz =>
    have := h sz rfl
    simp only [pagesReached, Option.map_some, Option.getD_some, pagesOf, userPages, kernBase] at *
    omega

theorem allocuvm_stack {r : ℕ} (hsz : sz < kernBase)
    (hrun : m.allocuvm S.sel d (pgRoundUp sz) ((pgRoundUp sz + 8192) % 0x100000000) = .ok (r, m'))
    (hr : r ≠ 0) : r < kernBase := by
  have hle : pgRoundUp sz ≤ (pgRoundUp sz + 8192) % 0x100000000 := by
    rw [pgRoundUp_eq hsz.le]
    simp only [pagesOf, kernBase] at *
    omega
  have hnew := (allocuvm_mono hr hrun).2.2 hle
  by_contra hge
  rw [allocuvm, if_pos (hnew ▸ not_lt.1 hge)] at hrun
  cases hrun
  exact hr rfl

theorem loadImage_changes (ht : Tracks S m.proc) (hE : ∀ v < userPages, S.evict (4096 * v))
    (hM : ∀ v, S.map d v) {ip : File} {argv : List (List Byte)}
    (hrun : m.loadImage S.sel d ip argv = .ok (r, m')) :
    Changes S execLoads m m' ∧ ∀ sz, r = some sz → sz < kernBase := by
  obtain ⟨⟨r₁, m₁⟩, hload, hrun⟩ := Run.bind_ok hrun
  have hsz₁ : ∀ sz, r₁ = some sz → sz < kernBase := by
    rintro sz rfl
    exact (loadSegments_mono hload).2 (by decide)
  have hc : Changes S (18 * userPages) m m₁ := by
    refine (loadSegments_changes ht hE hM (by decide) hload).mono ?_
    have := pagesReached_le hsz₁
    omega
  cases r₁ with
  | none =>
    cases hrun
    exact ⟨hc.mono (by decide), by simp⟩
  | some sz =>
    obtain ⟨⟨sz₂, m₂⟩, halloc, hrun⟩ := Run.bind_ok hrun
    have hstack := allocuvm_stack (hsz₁ sz rfl) halloc
    have hc₂ : Changes S execLoads m m₂ := by
      refine hc.trans (allocuvm_reaches (hc.tracks ht) hE hM halloc) ?_
      have := pagesReached_le (r := if sz₂ = 0 then none else some sz₂) fun sz' h => by
        split_ifs at h with hz
        cases h
        exact hstack hz
      simp only [execLoads]
      omega
    dsimp only at hrun
    split at hrun
    · cases hrun
      exact ⟨hc₂, by simp⟩
    · rename_i hz
      obtain ⟨m₃, hclear, hrun⟩ := Run.bind_ok hrun
      obtain ⟨⟨ok, m₄⟩, hpush, hrun⟩ := Run.bind_ok hrun
      cases hrun
      have hc₃ : Changes S execLoads m m₃ := by
        unfold clearpteu at hclear
        split at hclear
        · cases hclear
        · rename_i pte hwalk
          cases hclear
          exact hc₂.tail (.guard hM hwalk)
      refine ⟨hc₃.trans (k := 0) (pushStack_ok hpush).changes le_rfl, fun sz' h => ?_⟩
      cases ok with
      | false => cases h
      | true =>
        cases h
        exact hstack hz

/-- `exec` fails without touching the process but for its queue, or commits to the new image and gives
the old one back. -/
theorem exec_changes (ht : Tracks S m.proc) (hE : ∀ v < userPages, S.evict (4096 * v))
    (hM : ∀ d v, S.map d v) (hlayout : 0x100 < m.kdata ∧ m.kdata < phystopFrame)
    {ip : Option File} {argv : List (List Byte)} {ok : Bool}
    (hrun : m.exec S.sel ip argv = .ok (ok, m')) :
    Changes S execLoads m m' ∨ ∃ m₁ pgdir sz, sz < kernBase ∧ Changes S execLoads m m₁ ∧
      Changes S 0 (m₁.setProc (commit m₁.proc pgdir sz)) m' := by
  unfold exec at hrun
  split at hrun
  · cases hrun
    exact Or.inl .refl
  split at hrun
  · cases hrun
    exact Or.inl .refl
  split at hrun
  · cases hrun
    exact Or.inl .refl
  obtain ⟨⟨d, m₁⟩, hsetup, hrun⟩ := Run.bind_ok hrun
  have hc : Changes S 0 m m₁ := setupkvm_changes hM hlayout hsetup
  cases d with
  | none =>
    cases hrun
    exact Or.inl (hc.mono (by decide))
  | some d =>
    obtain ⟨⟨r, m₂⟩, hload, hrun⟩ := Run.bind_ok hrun
    obtain ⟨hc', hsz⟩ := loadImage_changes (hc.tracks ht) hE (hM d) hload
    have hc₂ : Changes S execLoads m m₂ := hc.trans hc' (by omega)
    cases r with
    | none =>
      obtain ⟨m₃, hfree, hrun⟩ := Run.bind_ok hrun
      cases hrun
      exact Or.inl (hc₂.trans (k := 0) (freevm_changes (hM d) hfree) le_rfl)
    | some sz =>
      obtain ⟨m₃, hfree, hrun⟩ := Run.bind_ok hrun
      cases hrun
      exact Or.inr ⟨m₂, d, sz, hsz sz rfl, hc₂, freevm_changes (hM _) hfree⟩

/-! ### Children -/

/-- The child `fork` makes of the running process `p` in the entry `np` of the process table. -/
structure IsChild (p np : Proc) (nextpid : ℕ) (child : Proc) : Prop where
  sz : child.sz = p.sz
  pid : child.pid = nextpid
  paged : 2 < p.pid → child.lastInQueue = p.lastInQueue ∧ ∀ i,
    child.ramMonitor i = { p.ramMonitor i with pgdir := child.pgdir } ∧
    child.swapMonitor i = { p.swapMonitor i with pgdir := child.pgdir }
  unpaged : ¬ 2 < p.pid → child.lastInQueue = 0 ∧ child.ramMonitor = np.ramMonitor ∧
    child.swapMonitor = np.swapMonitor

/-- `fork` finds no entry or no frame for a kernel stack, or it takes one, works on the copy, and gives
the frame back when the copy failed. -/
theorem fork_changes (hM : ∀ d v, S.map d v)
    (hlayout : 0x100 < m.kdata ∧ m.kdata < phystopFrame) (hsz : m.proc.sz ≤ kernBase)
    {slot child : Option Proc} {nextpid : ℕ}
    (hrun : m.fork S.sel slot nextpid = .ok (child, m')) :
    child = none ∧ m' = m ∨ ∃ np kstack rest m₁, slot = some np ∧ m.freelist = kstack :: rest ∧
      Changes S n { m with freelist := rest } m₁ ∧
      (child = none ∧ m' = m₁.freed kstack ∧ m₁.kend ≤ kstack ∧ kstack < phystopFrame ∨
        ∃ c, child = some c ∧ m' = m₁ ∧ IsChild m₁.proc np nextpid c) := by
  unfold fork at hrun
  split at hrun
  · cases hrun
    exact Or.inl ⟨rfl, rfl⟩
  rename_i np
  split at hrun
  · cases hrun
    exact Or.inl ⟨rfl, rfl⟩
  rename_i kstack m₀ hkalloc
  obtain ⟨rest, hf, rfl⟩ := kalloc_ok hkalloc
  obtain ⟨⟨d, m₁⟩, hcopy, hrun⟩ := Run.bind_ok hrun
  have hc : Changes S n { m with freelist := rest } m₁ := copyuvm_changes hM hlayout hsz hcopy
  refine Or.inr ⟨np, kstack, rest, m₁, rfl, hf, hc, ?_⟩
  cases d with
  | none =>
    obtain ⟨m₂, hfree, hrun⟩ := Run.bind_ok hrun
    cases hrun
    exact Or.inl ⟨rfl, kfree_ok hfree⟩
  | some d =>
    dsimp only at hrun
    split at hrun
    · rename_i hpid
      split at hrun
      · cases hrun
      · cases hrun
        exact Or.inr ⟨_, rfl, rfl, rfl, rfl, fun _ => ⟨rfl, fun i => ⟨rfl, rfl⟩⟩,
          fun h => absurd hpid h⟩
    · rename_i hpid
      cases hrun
      exact Or.inr ⟨_, rfl, rfl, rfl, rfl, fun h => absurd h hpid, fun _ => ⟨rfl, rfl, rfl⟩⟩

end

end Xv6
