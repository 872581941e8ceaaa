import Xv6.Changes

/-!
# What `deallocuvm` takes away

`Dropped sel d R m m'` says that the present pages of `R` in directory `d` were given back, with their
entries in `ram_monitor`, and that nothing else changed.  In a state with sound frames `deallocuvm`
always comes to its end and does exactly this, whatever the page tables look like: pages without a
page table and pages that are not present, paged-out ones among them, are passed over.
-/

namespace Xv6

open Machine

/-- The present pages of `R` in directory `d` are gone, and so are the entries that tracked them. -/
structure Dropped (sel : Selection) (d : ℕ) (R : Set ℕ) (m m' : Machine) : Prop where
  same : m' = { m with
    freelist := m'.freelist
    data := m'.data
    dirs := m'.dirs
    owner := m'.owner
    proc := { m.proc with ramMonitor := m'.proc.ramMonitor } }
  frames : FramesOk m'
  table : ∀ d' w, HasTable m'.dirs d' w ↔ HasTable m.dirs d' w
  gone : ∀ w < userPages, w ∈ R → flagOn (entry m.dirs d w) pteP → entry m'.dirs d w = 0
  kept : ∀ d' w, w < 0x100000 →
    ¬ (d' = d ∧ w < userPages ∧ w ∈ R ∧ flagOn (entry m.dirs d w) pteP) →
    entry m'.dirs d' w = entry m.dirs d' w
  data : ∀ d' w, w < userPages → flagOn (entry m.dirs d' w) pteP → ¬ (d' = d ∧ w ∈ R) →
    m'.data (frameOf (entry m.dirs d' w)) = m.data (frameOf (entry m.dirs d' w))
  free : m.freelist <:+ m'.freelist
  ram : ∀ i, (m'.proc.ramMonitor i).used → m'.proc.ramMonitor i = m.proc.ramMonitor i ∧
    (sel ≠ .NONE → (m.proc.ramMonitor i).pgdir = d → ∀ w < userPages, w ∈ R →
      flagOn (entry m.dirs d w) pteP → (m.proc.ramMonitor i).pVa ≠ 4096 * w)
  ramLost : ∀ i, m'.proc.ramMonitor i = m.proc.ramMonitor i ∨
    (m.proc.ramMonitor i).pgdir = d ∧ ∃ w < userPages, w ∈ R ∧
      flagOn (entry m.dirs d w) pteP ∧ (m.proc.ramMonitor i).pVa = 4096 * w

namespace Dropped

variable {sel : Selection} {d : ℕ} {R R' : Set ℕ} {m m' m'' : Machine}

theorem of_absent (h : FramesOk m) (habs : ∀ w < userPages, w ∈ R → ¬ flagOn (entry m.dirs d w) pteP) :
    Dropped sel d R m m where
  same := rfl
  frames := h
  table _ _ := Iff.rfl
  gone w hw hR hp := absurd hp (habs w hw hR)
  kept _ _ _ _ := rfl
  data _ _ _ _ _ := rfl
  free := List.suffix_refl _
  ram _ _ := ⟨rfl, fun _ _ w hw hR hp => absurd hp (habs w hw hR)⟩
  ramLost _ := Or.inl rfl

theorem entry_present (h : Dropped sel d R m m') {d' w : ℕ} (hw : w < userPages)
    (hp : flagOn (entry m'.dirs d' w) pteP) :
    entry m'.dirs d' w = entry m.dirs d' w ∧ ¬ (d' = d ∧ w ∈ R) := by
  have hlt : w < 0x100000 := lt_trans hw (by decide)
  by_cases hc : d' = d ∧ w < userPages ∧ w ∈ R ∧ flagOn (entry m.dirs d w) pteP
  · obtain ⟨rfl, -, hR, hq⟩ := hc
    rw [h.gone w hw hR hq] at hp
    exact absurd hp (by decide)
  · have hkept := h.kept d' w hlt hc
    refine ⟨hkept, fun hin => hc ?_⟩
    obtain ⟨rfl, hR⟩ := hin
    rw [hkept] at hp
    exact ⟨rfl, hw, hR, hp⟩

theorem trans (h : Dropped sel d R m m') (h' : Dropped sel d R' m' m'') :
    Dropped sel d (R ∪ R') m m'' where
  same := by rw [h'.same, h.same]
  frames := h'.frames
  table d' w := (h'.table d' w).trans (h.table d' w)
  gone w hw hR hp := by
    have hlt : w < 0x100000 := lt_trans hw (by decide)
    by_cases hR₁ : w ∈ R
    · have hz := h.gone w hw hR₁ hp
      rw [h'.kept d w hlt fun hc => by rw [hz] at hc; exact absurd hc.2.2.2 (by decide), hz]
    · have hsame := h.kept d w hlt fun hc => hR₁ hc.2.2.1
      exact h'.gone w hw (hR.resolve_left hR₁) (by rwa [hsame])
  kept d' w hlt hno := by
    have h₁ := h.kept d' w hlt fun hc => hno ⟨hc.1, hc.2.1, Or.inl hc.2.2.1, hc.2.2.2⟩
    rw [h'.kept d' w hlt fun hc => ?_, h₁]
    obtain ⟨rfl, hw, hR, hp⟩ := hc
    rw [h₁] at hp
    exact hno ⟨rfl, hw, Or.inr hR, hp⟩
  data d' w hw hp hno := by
    have hlt : w < 0x100000 := lt_trans hw (by decide)
    have hsame := h.kept d' w hlt fun hc => hno ⟨hc.1, Or.inl hc.2.2.1⟩
    have h₂ := h'.data d' w hw (by rwa [hsame]) fun hc => hno ⟨hc.1, Or.inr hc.2⟩
    rw [hsame] at h₂
    rw [h₂, h.data d' w hw hp fun hc => hno ⟨hc.1, Or.inl hc.2⟩]
  free := h.free.trans h'.free
  ram i hi := by
    obtain ⟨he', hno'⟩ := h'.ram i hi
    obtain ⟨he, hno⟩ := h.ram i (he' ▸ hi)
    refine ⟨he'.trans he, fun hsel hdir w hw hR hp => ?_⟩
    by_cases hR₁ : w ∈ R
    · exact hno hsel hdir w hw hR₁ hp
    · have hsame := h.kept d w (lt_trans hw (by decide)) fun hc => hR₁ hc.2.2.1
      rw [← he]
      exact hno' hsel (he ▸ hdir) w hw (hR.resolve_left hR₁) (by rwa [hsame])
  ramLost i := by
    rcases h.ramLost i with he | ⟨hdir, w, hw, hR, hp, hva⟩
    · rcases h'.ramLost i with he' | ⟨hdir, w, hw, hR, hp, hva⟩
      · exact Or.inl (he'.trans he)
      · have hsame := (h.entry_present hw hp).1
        rw [he] at hdir hva
        rw [hsame] at hp
        exact Or.inr ⟨hdir, w, hw, Or.inr hR, hp, hva⟩
    · exact Or.inr ⟨hdir, w, hw, Or.inl hR, hp, hva⟩

end Dropped

/-! ### One page -/

section

variable {sel : Selection} {d v : ℕ} {m : Machine} {pte : Pte}

/-- Page `v` of directory `d` given back, with the entry that tracks it. -/
def Machine.dropPage (sel : Selection) (m : Machine) (d v : ℕ) (pte : Pte) : Machine :=
  let m' := m.freed (frameOf pte)
  (if sel = .NONE then m' else m'.setProc (untrack m'.proc d (4096 * v))).setPte d (4096 * v) 0

theorem dropPage_eq (sel : Selection) (m : Machine) (d v : ℕ) (pte : Pte) :
    m.dropPage sel d v pte = { (m.freed (frameOf pte)).setPte d (4096 * v) 0 with
      proc := if sel = .NONE then m.proc else untrack m.proc d (4096 * v) } := dropAt_eq ..

@[simp] theorem dropPage_dirs (sel : Selection) (m : Machine) (d v : ℕ) (pte : Pte) :
    (m.dropPage sel d v pte).dirs = store m.dirs d (4096 * v) 0 := by rw [dropPage_eq]; rfl

@[simp] theorem dropPage_kend (sel : Selection) (m : Machine) (d v : ℕ) (pte : Pte) :
    (m.dropPage sel d v pte).kend = m.kend := by rw [dropPage_eq]; rfl

theorem untrack_used {p : Proc} {a : ℕ} {i : Fin 16} (h : ((untrack p d a).ramMonitor i).used) :
    (untrack p d a).ramMonitor i = p.ramMonitor i ∧
      ((p.ramMonitor i).pgdir = d → (p.ramMonitor i).pVa ≠ a) := by
  simp only [untrack] at h ⊢
  split_ifs at h ⊢ with hc
  exact ⟨rfl, fun hd ha => hc ⟨h, ha, hd⟩⟩

theorem untrack_cases (p : Proc) (a : ℕ) (i : Fin 16) :
    (untrack p d a).ramMonitor i = p.ramMonitor i ∨
      (p.ramMonitor i).pgdir = d ∧ (p.ramMonitor i).pVa = a := by
  simp only [untrack]
  split_ifs with hc
  · exact Or.inr ⟨hc.2.2, hc.2.1⟩
  · exact Or.inl rfl

theorem FramesOk.drop (h : FramesOk m) (hv : v < userPages) (ht : HasTable m.dirs d v)
    (hp : flagOn (entry m.dirs d v) pteP) {m' : Machine} (hk : m'.kend = m.kend)
    (hf : m'.freelist = frameOf (entry m.dirs d v) :: m.freelist)
    (ho : m'.owner = Function.update m.owner (frameOf (entry m.dirs d v)) none)
    (hd : m'.dirs = Xv6.store m.dirs d (4096 * v) 0) : FramesOk m' := by
  have hlt : v < 0x100000 := lt_trans hv (by decide)
  have hstore : FramesOk { m with dirs := Xv6.store m.dirs d (4096 * v) 0 } :=
    h.store ht hlt (fun _ hc => absurd hc (by decide)) (fun _ _ _ => by decide) rfl rfl rfl rfl
  refine hstore.release (h.owned d v hv hp) ?_ hk hf ho hd
  intro d' w hw hq heq
  simp only [entry_store ht hlt 0 d' (lt_trans hw (by decide))] at hq heq
  split_ifs at hq heq with hc
  · exact absurd hq (by decide)
  · exact hc (h.frame_inj hw hv hq hp heq)

theorem dropPage_dropped (h : FramesOk m) (hv : v < userPages)
    (hwalk : m.walkpgdir d (4096 * v) = some pte) (hp : flagOn pte pteP) :
    Dropped sel d {v} m (m.dropPage sel d v pte) := by
  have hlt : v < 0x100000 := lt_trans hv (by decide)
  have ht : HasTable m.dirs d v := hasTable_of_walk hwalk
  obtain rfl := entry_of_walk hwalk
  rw [dropPage_eq]
  refine ⟨?_, h.drop hv ht hp rfl rfl rfl rfl, fun d' w => hasTable_store m.dirs d _ 0 d' w, fun w hw hR _ => ?_,
    fun d' w hw hno => entry_store_ne ht hlt 0 hw ?_, fun d' w hw hq hno => ?_, List.suffix_cons _ _,
    fun i hi => ?_, fun i => ?_⟩
  · dsimp only
    split_ifs <;> rfl
  · obtain rfl : w = v := hR
    exact entry_store_self ht hlt 0
  · rintro ⟨rfl, rfl⟩
    exact hno ⟨rfl, hv, rfl, hp⟩
  · exact Function.update_of_ne (fun heq => hno (h.frame_inj hw hv hq hp heq)) _ _
  · dsimp only at hi ⊢
    split_ifs at hi ⊢ with hsel
    · exact ⟨rfl, fun hc => absurd hsel hc⟩
    · obtain ⟨he, hno⟩ := untrack_used hi
      refine ⟨he, fun _ hdir w _ hR _ => ?_⟩
      obtain rfl : w = v := hR
      exact hno hdir
  · dsimp only
    split_ifs with hsel
    · exact Or.inl rfl
    · refine (untrack_cases m.proc (4096 * v) i).imp_right fun hc => ?_
      exact ⟨hc.1, v, hv, rfl, hp, hc.2⟩

/-! ### The loop -/

/-- One round of `deallocuvm`'s loop: page `v` is given back if it is present. -/
def Machine.dropPresent (sel : Selection) (d : ℕ) (m : Machine) (v : ℕ) : Machine :=
  if flagOn (entry m.dirs d v) pteP then m.dropPage sel d v (entry m.dirs d v) else m

/-- The present pages of the user in directory `d` are in frames that `kfree` takes. -/
def PagesValid (d : ℕ) (m : Machine) : Prop :=
  0 < m.kend ∧ ∀ v < userPages, flagOn (entry m.dirs d v) pteP →
    m.kend ≤ frameOf (entry m.dirs d v) ∧ frameOf (entry m.dirs d v) < phystopFrame

theorem PagesValid.dropPage (h : PagesValid d m) (hv : v < userPages)
    (hp : flagOn (entry m.dirs d v) pteP) (sel : Selection) (pte : Pte) :
    PagesValid d (m.dropPage sel d v pte) := by
  have ht : HasTable m.dirs d v := hasTable_of_present hp
  refine ⟨by rw [dropPage_kend]; exact h.1, fun w hw hq => ?_⟩
  rw [dropPage_dirs, entry_store ht (lt_trans hv (by decide)) 0 d (lt_trans hw (by decide))] at hq ⊢
  rw [dropPage_kend]
  split_ifs at hq ⊢
  · exact absurd hq (by decide)
  · exact h.2 w hw hq

theorem foldl_dropPresent_absent {l : List ℕ} (h : ∀ v ∈ l, ¬ flagOn (entry m.dirs d v) pteP) :
    l.foldl (dropPresent sel d) m = m := by
  induction l with
  | nil => rfl
  | cons v l ih =>
    rw [List.forall_mem_cons] at h
    rw [List.foldl_cons, dropPresent, if_neg h.1]
    exact ih h.2

theorem foldl_dropPresent_skip {p q n : ℕ} (hpn : p ≤ n)
    (h : ∀ v, p ≤ v → v < n → ¬ flagOn (entry m.dirs d v) pteP) :
    (List.range' p (q - p)).foldl (dropPresent sel d) m =
      (List.range' n (q - n)).foldl (dropPresent sel d) m := by
  rcases Nat.le_total n q with hnq | hnq
  · have hsplit : List.range' p (q - p) = List.range' p (n - p) ++ List.range' n (q - n) := by
      have happend := List.range'_append_1 (s := p) (m := n - p) (n := q - n)
      rw [Nat.add_sub_cancel' hpn] at happend
      rw [happend]
      congr 1
      omega
    have habsent : ∀ v ∈ List.range' p (n - p), ¬ flagOn (entry m.dirs d v) pteP := by
      intro v hv
      rw [List.mem_range'_1] at hv
      exact h v hv.1 (by omega)
    rw [hsplit, List.foldl_append, foldl_dropPresent_absent habsent]
  · have habsent : ∀ v ∈ List.range' p (q - p), ¬ flagOn (entry m.dirs d v) pteP := by
      intro v hv
      rw [List.mem_range'_1] at hv
      exact h v hv.1 (by omega)
    rw [Nat.sub_eq_zero_of_le hnq, foldl_dropPresent_absent habsent]
    rfl

/-- `deallocuvm`'s loop comes to its end and looks at the pages from `p` to the old size one by one: those
it skips have no page table. -/
theorem deallocLoop_eq (sel : Selection) (d : ℕ) {oldsz : ℕ} (hold : oldsz ≤ kernBase) (fuel : ℕ) {m : Machine}
    {p : ℕ} (h : PagesValid d m) (hfuel : pagesOf oldsz ≤ p + fuel) :
    deallocLoop sel d oldsz fuel (4096 * p) m =
      .ok ((List.range' p (pagesOf oldsz - p)).foldl (dropPresent sel d) m) := by
  induction fuel generalizing m p with
  | zero =>
    have hlt : ¬ 4096 * p < oldsz := by
      simp only [pagesOf] at hfuel
      omega
    rw [deallocLoop, if_neg hlt, Nat.sub_eq_zero_of_le (show pagesOf oldsz ≤ p from hfuel)]
    rfl
  | succ fuel ih =>
    by_cases hlt : 4096 * p < oldsz
    · have hpq : p < pagesOf oldsz := by
        simp only [pagesOf]
        omega
      have hpu : p < userPages := by
        simp only [userPages, kernBase] at *
        omega
      have hrange : pagesOf oldsz - p = pagesOf oldsz - (p + 1) + 1 := by omega
      rw [deallocLoop, if_pos hlt]
      cases hwalk : m.walkpgdir d (4096 * p) with
      | none =>
        -- No page table: the rest of its pages is skipped.
        have hnext : (pdx (4096 * p) + 1) * 0x400000 = 4096 * (1024 * (p / 1024 + 1)) := by
          rw [pdx_page, Nat.mod_eq_of_lt (by simp only [userPages] at hpu; omega)]
          omega
        simp only [hnext, ih (p := 1024 * (p / 1024 + 1)) h (by omega)]
        refine congrArg Except.ok (foldl_dropPresent_skip (by omega) fun w hlo hhi hq => ?_).symm
        have hnone : ¬ HasTable m.dirs d w := by
          have hsame : pdx (4096 * w) = pdx (4096 * p) := by
            rw [pdx_page, pdx_page]
            congr 1
            omega
          rw [HasTable, hsame]
          exact walk_eq_none_iff.1 hwalk
        rw [entry_of_not_hasTable hnone] at hq
        exact absurd hq (by decide)
      | some pte =>
        obtain rfl := entry_of_walk hwalk
        rw [hrange, List.range'_succ, List.foldl_cons, dropPresent,
          show 4096 * p + 4096 = 4096 * (p + 1) by omega]
        by_cases hp : flagOn (entry m.dirs d p) pteP = true
        · have hvalid := h.2 p hpu hp
          have hpos := h.1
          rw [if_pos hp, ← ih (h.dropPage hpu hp sel _) (by omega)]
          simp only [hp, if_true, if_neg (show ¬ frameOf (entry m.dirs d p) = 0 by omega),
            kfree_eq hvalid, bind, Except.bind]
          rfl
        · rw [if_neg hp, ← ih h (by omega)]
          simp only [if_neg hp]
    · have hend : pagesOf oldsz ≤ p := by
        simp only [pagesOf]
        omega
      rw [deallocLoop, if_neg hlt, Nat.sub_eq_zero_of_le hend]
      rfl

theorem FramesOk.pagesValid (h : FramesOk m) (d : ℕ) : PagesValid d m :=
  ⟨h.kend_pos, fun _ hv hp => h.frame_valid hv hp⟩

theorem foldl_dropPresent_dropped (sel : Selection) (d : ℕ) {l : List ℕ} (hl : ∀ v ∈ l, v < userPages)
    (h : FramesOk m) : Dropped sel d {w | w ∈ l} m (l.foldl (dropPresent sel d) m) := by
  induction l generalizing m with
  | nil => exact Dropped.of_absent h fun w _ hR => absurd hR List.not_mem_nil
  | cons v l ih =>
    rw [List.forall_mem_cons] at hl
    have hone : Dropped sel d {v} m (m.dropPresent sel d v) := by
      rw [dropPresent]
      split_ifs with hp
      · exact dropPage_dropped h hl.1 (walk_eq_entry (hasTable_of_present hp)) hp
      · refine Dropped.of_absent h fun w _ hR => ?_
        obtain rfl : w = v := hR
        exact hp
    have hset : ({v} ∪ {w | w ∈ l} : Set ℕ) = {w | w ∈ v :: l} := by
      ext w
      simp
    exact hset ▸ hone.trans (ih hl.2 hone.frames)

theorem deallocLoop_dropped (sel : Selection) (d : ℕ) {oldsz : ℕ} (hold : oldsz ≤ kernBase) (fuel : ℕ) {m : Machine} {p : ℕ}
    (h : FramesOk m) (hfuel : pagesOf oldsz ≤ p + fuel) :
    ∃ m', deallocLoop sel d oldsz fuel (4096 * p) m = .ok m' ∧
      Dropped sel d {w | p ≤ w ∧ w < pagesOf oldsz} m m' := by
  refine ⟨_, deallocLoop_eq sel d hold fuel (h.pagesValid d) hfuel, ?_⟩
  have hset : {w | w ∈ List.range' p (pagesOf oldsz - p)} = {w | p ≤ w ∧ w < pagesOf oldsz} := by
    ext w
    simp only [Set.mem_ofPred_eq, List.mem_range'_1]
    omega
  rw [← hset]
  refine foldl_dropPresent_dropped sel d (fun v hv => ?_) h
  rw [List.mem_range'_1] at hv
  simp only [pagesOf, userPages, kernBase] at *
  omega

theorem deallocuvm_dropped (sel : Selection) (d : ℕ) {oldsz newsz : ℕ} (hold : oldsz ≤ kernBase) (hlt : newsz < oldsz)
    (h : FramesOk m) : ∃ m', m.deallocuvm sel d oldsz newsz = .ok (newsz, m') ∧
      Dropped sel d {w | pagesOf newsz ≤ w ∧ w < pagesOf oldsz} m m' := by
  have hfuel : pagesOf oldsz ≤ pagesOf newsz + (oldsz / 4096 + 1) := by
    simp only [pagesOf]
    omega
  obtain ⟨m', hrun, hd⟩ := deallocLoop_dropped sel d hold _ h hfuel
  refine ⟨m', ?_, hd⟩
  rw [deallocuvm, if_neg (by omega), pgRoundUp_eq (by omega), hrun]
  rfl

end

end Xv6
