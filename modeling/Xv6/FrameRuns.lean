import Xv6.Accounting

/-!
# Frames over whole runs

What `setupkvm`, `allocuvm`, `copyuvm`, `deallocuvm` and `freevm` do to the places of frames, and what
follows for every sequence of them.  `kalloc` fails when the free list is empty, which may be at any point of
a call: how long the list is when a call starts is up to the rest of the kernel, which takes frames and gives
them back between the calls.
-/

namespace Xv6

open Machine

namespace Accounting

def Balanced (m : Machine) (b : Books) : Prop := Account m.kend m.freelist m.dirs b

section
variable {sel : Selection} {m m' : Machine} {b : Books} {d v f a : ℕ} {pte pte' perm : Pte}
  {count oldsz newsz : ℕ} {r : Option ℕ}

theorem Balanced.congr (h : Balanced m b) (hkend : m'.kend = m.kend) (hfree : m'.freelist = m.freelist)
    (hdirs : m'.dirs = m.dirs) : Balanced m' b := by
  rw [Balanced, hkend, hfree, hdirs]
  exact h

theorem Balanced.free_perm {b' : Books} (h : Balanced m b) (h' : Balanced m' b') (hkend : m'.kend = m.kend)
    (htarget : ∀ c, target m'.dirs b' c = target m.dirs b c) : m'.freelist.Perm m.freelist := by
  refine (List.perm_ext_iff_of_nodup h'.nodup h.nodup).2 fun f => ?_
  have hused : decide (f ∉ m'.freelist) = true ↔ decide (f ∉ m.freelist) = true := by
    rw [h'.exact.used_iff, h.exact.used_iff]
    simp only [htarget, hkend]
  simpa only [decide_eq_true_iff, not_iff_not] using hused

theorem walk_table (hwalk : m.walkpgdir d a = some pte) :
    HasTable m.dirs d (a / 4096) ∧ entry m.dirs d (a / 4096) = pte := by
  rw [walkpgdir, walk_page] at hwalk
  exact ⟨hasTable_of_walk hwalk, entry_of_walk hwalk⟩

/-! ### Mapping -/

theorem walkpgdirAlloc_balanced (h : Balanced m b) (hd : d ∈ b.live)
    (hrun : m.walkpgdirAlloc d (4096 * v) = some m') : Balanced m' b := by
  obtain ⟨-, rfl⟩ | ⟨hnone, f, rest, hf, rfl⟩ := walkpgdirAlloc_cases hrun
  · exact h
  · exact Account.addTable h hf hd (by simp [HasTable, hnone])

theorem mappages_balanced {ok : Bool} (h : Balanced m b) (hhand : b.hand = some f) (hf : f ≠ 0)
    (hd : d ∈ b.live) (hv : v < userPages) (hperm : perm.toNat < 4096)
    (hrun : m.mappages d (4096 * v) 4096 f perm = .ok (ok, m')) :
    ok = false ∨ Balanced m' { b with hand := none } := by
  have htarget : target m.dirs b .hand = f := by
    rw [target, hhand]
    rfl
  have hvalid := not_not.1 (htarget ▸ h.exact.free (p := .hand) (by rwa [htarget]))
  have hlt : f < 0x100000 := lt_trans hvalid.2 (by decide)
  rw [mappages_page_eq (lt_trans hv (by decide)), mapLoop] at hrun
  split at hrun
  · cases hrun
    exact .inl rfl
  · rename_i m₁ halloc
    have h₁ := walkpgdirAlloc_balanced h hd halloc
    split at hrun
    · cases hrun
    · rename_i pte hwalk
      split at hrun
      · cases hrun
      · rename_i habsent
        cases hrun
        refine .inr (Account.map h₁ hhand (hasTable_of_walk hwalk) hv ?_ (mapPte_present perm)
          (frameOf_mapPte perm hlt hperm) hf)
        rw [entry_of_walk hwalk]
        exact Bool.not_eq_true _ ▸ habsent

theorem mapLoop_balanced {ok : Bool} (h : Balanced m b) (hd : d ∈ b.live)
    (ha : 0 < count → a = 4096 * v) (hv : userPages ≤ v) (hend : v + count ≤ 0x100000)
    (hrun : mapLoop d perm count a f m = .ok (ok, m')) : Balanced m' b := by
  refine mapLoop_induct (motive := fun _ _ m => Balanced m b → Balanced m' b) hrun ha hend (fun _ => id)
    (fun _ _ _ _ _ _ => id) (fun w g m m₁ hw _ halloc ht _ ih h => ih ?_) h
  exact Account.store (walkpgdirAlloc_balanced h hd halloc) ht (by omega) fun hu => absurd hu (by omega)

/-! ### Releasing pages -/

theorem deallocuvm_balanced {r : ℕ} (h : Balanced m b) (hold : oldsz ≤ kernBase)
    (hrun : m.deallocuvm sel d oldsz newsz = .ok (r, m')) : Balanced m' b := by
  refine deallocuvm_induct (P := fun m => Balanced m b → Balanced m' b) hrun id
    (fun a m pte hlt ha hwalk hp hne _ ih h => ih ?_) h
  obtain ⟨v, rfl⟩ : ∃ v, a = 4096 * v := ⟨a / 4096, by omega⟩
  have hv : v < userPages := by
    simp only [userPages, kernBase] at *
    omega
  obtain rfl := entry_of_walk hwalk
  rw [dropAt_eq]
  exact Account.drop h (hasTable_of_walk hwalk) hv hp (x := 0) rfl rfl hne

theorem deallocLoop_absent {fuel : ℕ} (hold : oldsz ≤ kernBase) (ha : a % 4096 = 0)
    (hrun : deallocLoop sel d oldsz fuel a m = .ok m') {w : ℕ} (hw : w < userPages)
    (habsent : a ≤ 4096 * w ∧ 4096 * w < oldsz ∨ flagOn (entry m.dirs d w) pteP = false) :
    flagOn (entry m'.dirs d w) pteP = false := by
  have hlt : w < 0x100000 := lt_trans hw (by decide)
  refine deallocLoop_induct (motive := fun a m => a % 4096 = 0 →
      a ≤ 4096 * w ∧ 4096 * w < oldsz ∨ flagOn (entry m.dirs d w) pteP = false →
        flagOn (entry m'.dirs d w) pteP = false) hrun (fun a _ _ h => h.resolve_left (by omega))
    (fun a m _ hwalk ih ha h => ih (by omega) ?_) (fun a m pte _ hwalk hp ih ha h => ih (by omega) ?_)
    (fun a m pte _ hwalk _ _ _ ih ha h => ih (by omega) ?_) ha habsent
  · obtain ⟨v, rfl⟩ : ∃ v, a = 4096 * v := ⟨a / 4096, by omega⟩
    by_cases hp : pdx (4096 * w) = pdx (4096 * v)
    · right
      have hnone : ¬HasTable m.dirs d w := by
        rw [HasTable, hp]
        exact walk_eq_none_iff.1 hwalk
      rw [entry_of_not_hasTable hnone]
      rfl
    · refine h.imp_left fun hr => ⟨?_, hr.2⟩
      simp only [pdx, userPages, kernBase] at *
      omega
  · obtain ⟨v, rfl⟩ : ∃ v, a = 4096 * v := ⟨a / 4096, by omega⟩
    by_cases hwv : w = v
    · rw [hwv, entry_of_walk hwalk]
      exact .inr hp
    · exact h.imp_left fun hr => by omega
  · obtain ⟨v, rfl⟩ : ∃ v, a = 4096 * v := ⟨a / 4096, by omega⟩
    rw [dropAt_eq]
    change _ ∨ flagOn (entry (store m.dirs d (4096 * v) 0) d w) pteP = false
    by_cases hwv : w = v
    · subst hwv
      rw [entry_store_self (hasTable_of_walk hwalk) hlt]
      exact .inr rfl
    · have hv : v < 0x100000 := by
        simp only [kernBase] at *
        omega
      rw [entry_store_ne (hasTable_of_walk hwalk) hv 0 hlt fun hc => hwv hc.2]
      exact h.imp_left fun hr => by omega

/-- The directory `d` without the page tables in the slots `l`. -/
def cutAll (dirs : ℕ → PgDir) (d : ℕ) (l : List ℕ) : ℕ → PgDir :=
  fun e j => if e = d ∧ j ∈ l then none else dirs e j

theorem freeTables_balanced {l : List ℕ} (hrun : freeTables d l m = .ok m') {dirs : ℕ → PgDir} (hl : l.Nodup)
    (h : Account m.kend m.freelist dirs b) (hsame : ∀ i ∈ l, dirs d i = m.dirs d i)
    (hempty : ∀ w, w < userPages → flagOn (entry dirs d w) pteP = false) :
    Account m'.kend m'.freelist (cutAll dirs d l) b := by
  induction l generalizing m dirs with
  | nil =>
    cases hrun
    have hall : cutAll dirs d [] = dirs := by
      funext e j
      exact if_neg fun hc => absurd hc.2 List.not_mem_nil
    rwa [hall]
  | cons i l ih =>
    obtain ⟨hi, hl⟩ := List.nodup_cons.1 hl
    have hhead := hsame i List.mem_cons_self
    have hall : cutAll dirs d (i :: l) = cutAll (cut dirs d i) d l := by
      funext e j
      rw [cutAll, cutAll, cut_apply]
      by_cases he : e = d
      · by_cases hj : j = i
        · simp [he, hj]
        · simp [he, hj]
      · simp [he]
    unfold freeTables at hrun
    split at hrun
    · rename_i hnone
      have hcut : cut dirs d i = dirs := by
        funext e j
        rw [cut_apply]
        split_ifs with heq
        · rw [heq.1, heq.2, hhead, hnone]
        · rfl
      rw [hall, hcut]
      exact ih hrun hl h (fun j hj => hsame j (List.mem_cons_of_mem i hj)) hempty
    · rename_i t ht
      obtain ⟨m₁, hfree, hrun⟩ := Run.bind_ok hrun
      obtain ⟨rfl, hvalid, -⟩ := kfree_ok hfree
      have hne : t.frame ≠ 0 := Nat.pos_iff_ne_zero.1 (lt_of_lt_of_le h.kend_pos hvalid)
      rw [hall]
      refine ih hrun hl (h.dropTable (hhead.trans ht) hempty hne) (fun j hj => ?_) fun w hw => ?_
      · have hne : j ≠ i := fun hc => hi (hc ▸ hj)
        rw [cut_apply, if_neg fun hc => hne hc.2]
        exact hsame j (List.mem_cons_of_mem i hj)
      · rw [entry_cut]
        split_ifs
        · rfl
        · exact hempty w hw

theorem freevm_balanced (h : Balanced m b) (hd : d ∈ b.live) (hrun : m.freevm sel d = .ok m') :
    Balanced m' { b with live := b.live.erase d } := by
  obtain ⟨⟨r, m₁⟩, hdealloc, hrun⟩ := Run.bind_ok hrun
  obtain ⟨m₂, htables, hrun⟩ := Run.bind_ok hrun
  obtain ⟨m₃, hfree, hrun⟩ := Run.bind_ok hrun
  cases hrun
  have h₁ := deallocuvm_balanced h le_rfl hdealloc
  have hempty : ∀ w, w < userPages → flagOn (entry m₁.dirs d w) pteP = false := by
    intro w hw
    rw [deallocuvm, if_neg (by decide)] at hdealloc
    obtain ⟨m₁', hloop, hdealloc⟩ := Run.bind_ok hdealloc
    cases hdealloc
    refine deallocLoop_absent le_rfl (by decide) hloop hw (.inl ⟨?_, ?_⟩)
    · rw [pgRoundUp]
      omega
    · simp only [userPages, kernBase] at *
      omega
  have h₂ := freeTables_balanced htables List.nodup_range h₁ (fun _ _ => rfl) hempty
  have hdirs := (freeTables_ok htables).2
  have hcut : cutAll m₁.dirs d (List.range 1024) = Function.update m₂.dirs d fun _ => none := by
    funext e j
    rw [cutAll, hdirs]
    by_cases he : e = d
    · subst he
      rw [Function.update_self]
      split_ifs with hj
      · rfl
      · exact h₁.bounded e j (not_lt.1 fun hc => hj ⟨rfl, List.mem_range.2 hc⟩)
    · rw [Function.update_of_ne he, if_neg fun hc => he hc.1]
  obtain ⟨rfl, hvalid, -⟩ := kfree_ok hfree
  rw [hcut] at h₂
  refine Account.dropDir h₂ hd (fun i => ?_) ?_
  · exact congrFun (Function.update_self d (fun _ => none) m₂.dirs) i
  · exact Nat.pos_iff_ne_zero.1 (lt_of_lt_of_le h₂.kend_pos hvalid)

/-! ### Building directories -/

theorem kmapLoop_balanced {lo : ℕ} {l : List (ℕ × ℕ × ℕ × Pte)} (hl : Ascending lo l)
    (hlo : userPages ≤ lo) (h : Balanced m b) (hd : d ∈ b.live) (hrun : kmapLoop sel d l m = .ok (r, m')) :
    r = some d ∧ Balanced m' b ∨ r = none ∧ Balanced m' { b with live := b.live.erase d } := by
  obtain hdone | ⟨hr, m₁, h₁, hfree⟩ := kmapLoop_induct (P := fun m => Balanced m b) hl hlo hrun h
    fun _ _ _ _ _ _ _ hv hend _ _ _ hmap h => mapLoop_balanced h hd (fun _ => rfl) hv hend hmap
  · exact .inl hdone
  · exact .inr ⟨hr, freevm_balanced h₁ hd hfree⟩

theorem setupkvm_balanced (hlayout : 0x100 < m.kdata ∧ m.kdata < phystopFrame)
    (h : Balanced m b) (hrun : m.setupkvm sel = .ok (r, m')) :
    (∃ d, r = some d ∧ Balanced m' { b with live := insert d b.live }) ∨ r = none ∧ Balanced m' b := by
  unfold setupkvm at hrun
  split at hrun
  · cases hrun
    exact .inr ⟨rfl, h⟩
  · rename_i d m₁ halloc
    obtain ⟨rest, hf, rfl⟩ := kalloc_ok halloc
    have hnew := h.fresh (hf ▸ List.mem_cons_self)
    have h₁ : Balanced (m.emptyDir d rest) { b with live := insert d b.live } := Account.newDir h hf
    obtain ⟨rfl, hdone⟩ | ⟨rfl, hfreed⟩ :=
      kmapLoop_balanced (kmap_ascending hlayout) le_rfl h₁ (Finset.mem_insert_self d _) hrun
    · exact .inl ⟨d, rfl, hdone⟩
    · rw [Finset.erase_insert hnew] at hfreed
      exact .inr ⟨rfl, hfreed⟩

/-! ### Growing -/

theorem Balanced.soft (h : Balanced m b) (ha : a < 0x100000000) (hwalk : m.walkpgdir d a = some pte)
    (hs : softBits pte' = softBits pte) : Balanced (m.setPte d a pte') b := by
  obtain ⟨htable, rfl⟩ := walk_table hwalk
  show Account _ _ (store m.dirs d a pte') _
  rw [store_page]
  exact Account.store h htable (by omega) fun _ => ⟨flagOn_pteP_congr hs, frameOf_congr hs⟩

/-- The addresses in the monitors are user addresses. -/
def Low (p : Proc) : Prop := ∀ i, (p.ramMonitor i).pVa < kernBase ∧ (p.swapMonitor i).pVa < kernBase

/-- Changes of user addresses, in whatever directory. -/
def anywhere (sel : Selection) : Scope := ⟨sel, (· < kernBase), fun _ _ => True, True⟩

theorem scfifoLoop_balanced {fuel : ℕ} {i : Fin 16} (h : Balanced m b) (hlow : Low m.proc)
    (hrun : scfifoLoop fuel m = .ok (i, m')) : Balanced m' b := by
  induction fuel generalizing m with
  | zero => cases hrun
  | succ fuel ih =>
    unfold scfifoLoop at hrun
    split at hrun
    · cases hrun
    · rename_i ret _
      dsimp only at hrun
      split at hrun
      · cases hrun
      · rename_i pte hwalk
        have ha : (m.proc.ramMonitor ret).pVa < 0x100000000 := lt_trans (hlow ret).1 (by decide)
        split at hrun
        · refine ih ?_ ?_ hrun
          · exact h.soft ha hwalk (softBits_clear_accessed pte)
          · exact Tracks.enqueue (S := anywhere .SCFIFO) (p := m.proc) hlow ret (hlow ret).1
        · cases hrun
          exact h

theorem replacePageByPolicy_balanced {i : Fin 16} (h : Balanced m b) (hlow : Low m.proc)
    (hrun : m.replacePageByPolicy sel = .ok (i, m')) : Balanced m' b := by
  unfold replacePageByPolicy at hrun
  split at hrun
  · split at hrun
    · cases hrun
    · cases hrun
      exact h
  · exact scfifoLoop_balanced h hlow hrun
  · cases hrun

theorem write2file_same {r : Int} (hrun : m.write2file a d = .ok (r, m')) : m' = m.setProc m'.proc := by
  unfold write2file at hrun
  split at hrun
  · cases hrun
    rfl
  · obtain ⟨f, -, hrun⟩ := Run.bind_ok hrun
    dsimp only at hrun
    split at hrun
    · cases hrun
      rfl
    · cases hrun
      rfl

theorem swap_balanced (h : Balanced m b) (hlow : Low m.proc) (hrun : m.swap sel d a = .ok m') :
    Balanced m' b := by
  obtain ⟨⟨i, m₁⟩, hpol, hrun⟩ := Run.bind_ok hrun
  have h₁ : Balanced m₁ b := replacePageByPolicy_balanced (m := countOut m) h hlow hpol
  have hlow₁ : Low m₁.proc :=
    (replacePageByPolicy_changes (S := anywhere sel) hpol).1.tracks (m := countOut m) hlow
  dsimp only at hrun
  split at hrun
  · cases hrun
  · rename_i pte hwalk
    obtain ⟨⟨r, m₂⟩, hwrite, hrun⟩ := Run.bind_ok hrun
    obtain ⟨m₃, hfree, hrun⟩ := Run.bind_ok hrun
    obtain ⟨m₄, hout, hrun⟩ := Run.bind_ok hrun
    cases hrun
    have hsame := write2file_same hwrite
    obtain ⟨rfl, hvalid, -⟩ := kfree_ok hfree
    obtain ⟨pte', hwalk', rfl⟩ := pageOut_ok hout
    rw [hsame] at hvalid hwalk' ⊢
    obtain rfl : pte = pte' := Option.some.inj (hwalk.symm.trans hwalk')
    obtain ⟨htable, rfl⟩ := walk_table hwalk
    have hv : (m₁.proc.ramMonitor i).pVa / 4096 < userPages := by
      have := (hlow₁ i).1
      simp only [userPages, kernBase] at *
      omega
    have hne : frameOf (entry m₁.dirs (m₁.proc.ramMonitor i).pgdir ((m₁.proc.ramMonitor i).pVa / 4096)) ≠ 0 :=
      Nat.pos_iff_ne_zero.1 (lt_of_lt_of_le h₁.kend_pos hvalid)
    have hpresent : flagOn (entry m₁.dirs (m₁.proc.ramMonitor i).pgdir
        ((m₁.proc.ramMonitor i).pVa / 4096)) pteP = true := by
      by_contra hc
      exact hne (h₁.cleared _ _ hv (Bool.not_eq_true _ ▸ hc))
    show Account _ (_ :: _) (store m₁.dirs _ (m₁.proc.ramMonitor i).pVa _) _
    rw [store_page]
    exact Account.drop h₁ htable hv hpresent (pageOutPte_present _) (frameOf_pageOutPte _) hne

theorem trackPage_balanced (h : Balanced m b) (hlow : Low m.proc)
    (hrun : m.trackPage sel d a count = .ok m') : Balanced m' b := by
  unfold trackPage at hrun
  split at hrun
  · split at hrun
    · cases hrun
      exact h
    · exact swap_balanced h hlow hrun
  · cases hrun
    exact h

theorem kalloc_balanced {m₀ : Machine} (h : Balanced m b) (hhand : b.hand = none)
    (hrun : m.kalloc = some (f, m₀)) (d v : ℕ) (page : Page) :
    Balanced ((m₀.setOwner f d v).setFrame f page) { b with hand := some f } ∧ f ≠ 0 := by
  obtain ⟨rest, hf, rfl⟩ := kalloc_ok hrun
  exact ⟨Account.take h hf hhand, h.pos (hf ▸ List.mem_cons_self)⟩

/-- The test passes, or there is nothing to test. -/
def whenOk {α : Type} (r : Except Halt α) (test : α → Bool) : Bool :=
  match r with
  | .error _ => true
  | .ok a => test a

/-- Whether every `mappages` in the loop of `allocuvm` found its frames. -/
def allocLoopMaps (sel : Selection) (pgdir oldsz : ℕ) : ℕ → ℕ → Machine → Bool
  | 0, _, _ => true
  | count + 1, i, m =>
    let a := pgRoundUp oldsz + 4096 * i
    match m.kalloc with
    | none => true
    | some (f, m) =>
      let m := (m.setOwner f pgdir (a / 4096)).setFrame f fun _ => 0
      whenOk (m.mappages pgdir a 4096 f (pteW ||| pteU)) fun (ok, m) => ok &&
        whenOk (m.trackPage sel pgdir a (pgRoundUp oldsz / 4096 + (i + 1))) fun m =>
          allocLoopMaps sel pgdir oldsz count (i + 1) m

def allocuvmMaps (sel : Selection) (m : Machine) (pgdir oldsz newsz : ℕ) : Bool :=
  if kernBase ≤ newsz then true
  else if newsz < oldsz then true
  else allocLoopMaps sel pgdir oldsz ((newsz - pgRoundUp oldsz + 4095) / 4096) 0 m

/-- Whether every `mappages` in the loop of `copyuvm` found its frames. -/
def copyLoopMaps (pgdir d : ℕ) : ℕ → ℕ → Machine → Bool
  | 0, _, _ => true
  | count + 1, i, m =>
    match m.walkpgdir pgdir i with
    | none => true
    | some pte =>
      if flagOn pte pteP then
        if flagOn pte ptePG then
          whenOk (m.pageOut i d) fun m => copyLoopMaps pgdir d count (i + 4096) m
        else match m.kalloc with
          | none => true
          | some (f, m) =>
            let m := (m.setOwner f d (i / 4096)).setFrame f (m.data (frameOf pte))
            whenOk (m.mappages d i 4096 f (pteFlags pte)) fun (ok, m) =>
              ok && copyLoopMaps pgdir d count (i + 4096) m
      else true

def copyuvmMaps (sel : Selection) (m : Machine) (pgdir sz : ℕ) : Bool :=
  whenOk (m.setupkvm sel) fun (d, m) =>
    match d with
    | none => true
    | some d => copyLoopMaps pgdir d (pagesOf sz) 0 m

theorem low_page (sel : Selection) : ∀ v < userPages, (anywhere sel).evict (4096 * v) := by
  intro v hv
  show 4096 * v < kernBase
  simp only [kernBase, userPages] at *
  omega

theorem allocLoop_balanced {i r : ℕ} (h : Balanced m b) (hhand : b.hand = none)
    (hd : d ∈ b.live) (hlow : Low m.proc) (hnew : newsz ≤ kernBase) (hold : oldsz ≤ kernBase)
    (hend : 0 < count → pagesOf oldsz + i + count ≤ userPages)
    (hmaps : allocLoopMaps sel d oldsz count i m = true)
    (hrun : allocLoop sel d oldsz newsz count i m = .ok (r, m')) : Balanced m' b := by
  induction count generalizing i m with
  | zero =>
    cases hrun
    exact h
  | succ count ih =>
    have hlt : pagesOf oldsz + i < userPages := by
      have := hend (Nat.succ_pos count)
      omega
    have ha : pgRoundUp oldsz + 4096 * i = 4096 * (pagesOf oldsz + i) := by
      rw [pgRoundUp_eq hold]
      omega
    unfold allocLoop at hrun
    unfold allocLoopMaps at hmaps
    simp only [ha] at hrun hmaps
    cases hkalloc : m.kalloc with
    | none =>
      rw [hkalloc] at hrun
      obtain ⟨⟨r', m₁⟩, hdealloc, hrun⟩ := Run.bind_ok hrun
      cases hrun
      exact deallocuvm_balanced h hnew hdealloc
    | some fm =>
      obtain ⟨f, m₀⟩ := fm
      rw [hkalloc] at hrun hmaps
      obtain ⟨⟨ok, m₁⟩, hmap, hrest⟩ := Run.bind_ok hrun
      obtain ⟨m₂, htrack, hloop⟩ := Run.bind_ok hrest
      dsimp only at hmap htrack hmaps
      rw [hmap] at hmaps
      obtain ⟨rfl, hmaps⟩ : ok = true ∧ _ := Bool.and_eq_true_iff.1 hmaps
      rw [htrack] at hmaps
      obtain ⟨h₀, hne⟩ := kalloc_balanced h hhand hkalloc d (4096 * (pagesOf oldsz + i) / 4096) fun _ => 0
      have h₁ : Balanced m₁ b := by
        have hmapped := mappages_balanced h₀ rfl hne hd hlt (by decide) hmap
        rw [← hhand] at hmapped
        exact hmapped.resolve_left (by decide)
      have hlow₁ : Low m₁.proc := by
        have hsame := (mapLoop_ok 1 ((mappages_page_eq (lt_trans hlt (by decide))).symm.trans hmap)
          (fun _ => rfl) (by simp only [userPages] at hlt; omega)).1.same
        obtain ⟨rest, -, rfl⟩ := kalloc_ok hkalloc
        rw [hsame]
        exact hlow
      have hlow₂ : Low m₂.proc :=
        (trackPage_changes (S := anywhere sel) htrack hlow₁ (low_page sel _ hlt)).tracks hlow₁
      refine ih (trackPage_balanced h₁ hlow₁ htrack) hlow₂ (fun _ => ?_) hmaps hloop
      have := hend (Nat.succ_pos count)
      omega

theorem allocuvm_balanced {r : ℕ} (h : Balanced m b) (hhand : b.hand = none) (hd : d ∈ b.live)
    (hlow : Low m.proc) (hmaps : allocuvmMaps sel m d oldsz newsz = true)
    (hrun : m.allocuvm sel d oldsz newsz = .ok (r, m')) : Balanced m' b := by
  unfold allocuvm at hrun
  unfold allocuvmMaps at hmaps
  split_ifs at hrun hmaps with hkern hless
  · cases hrun
    exact h
  · cases hrun
    exact h
  · refine allocLoop_balanced h hhand hd hlow (by omega) (by omega) (fun hpos => ?_) hmaps hrun
    rw [pgRoundUp_eq (by omega)] at hpos ⊢
    simp only [pagesOf, kernBase, userPages] at *
    omega

/-! ### Copying -/

theorem copyLoop_balanced {pgdir w : ℕ} (h : Balanced m b) (hhand : b.hand = none)
    (hd : d ∈ b.live) (hend : w + count ≤ userPages)
    (hfresh : ∀ v, w ≤ v → v < userPages → flagOn (entry m.dirs d v) pteP = false)
    (hmaps : copyLoopMaps pgdir d count (4096 * w) m = true)
    (hrun : copyLoop sel pgdir d count (4096 * w) m = .ok (r, m')) :
    r = some d ∧ Balanced m' b ∨ r = none ∧ Balanced m' { b with live := b.live.erase d } := by
  induction count generalizing w m with
  | zero =>
    cases hrun
    exact .inl ⟨rfl, h⟩
  | succ count ih =>
    have hw : w < userPages := by omega
    have hlt : ∀ {v}, v < userPages → v < 0x100000 := fun hv => lt_trans hv (by decide)
    have hnext : 4096 * w + 4096 = 4096 * (w + 1) := by omega
    unfold copyLoop at hrun
    unfold copyLoopMaps at hmaps
    rw [hnext] at hrun hmaps
    cases hwalk : m.walkpgdir pgdir (4096 * w) with
    | none =>
      rw [hwalk] at hrun
      cases hrun
    | some pte =>
      rw [hwalk] at hrun hmaps
      dsimp only at hrun hmaps
      split_ifs at hrun hmaps with hp hpg
      · -- the copy's entry is empty, and marking it as paged out leaves it without a frame
        obtain ⟨m₁, hout, hrun⟩ := Run.bind_ok hrun
        rw [hout] at hmaps
        obtain ⟨pte', hwalk', rfl⟩ := pageOut_ok hout
        have habsent := hfresh w le_rfl hw
        obtain rfl := entry_of_walk hwalk'
        refine ih ?_ (by omega) (fun v hv hvu => ?_) hmaps hrun
        · refine Account.store h (hasTable_of_walk hwalk') (hlt hw) fun _ => ?_
          rw [pageOutPte_present, frameOf_pageOutPte, habsent, h.cleared d w hw habsent]
          exact ⟨rfl, rfl⟩
        · show flagOn (entry (store m.dirs d (4096 * w) _) d v) pteP = false
          rw [entry_store_ne (hasTable_of_walk hwalk') (hlt hw) _ (hlt hvu) (by omega)]
          exact hfresh v (by omega) hvu
      · cases hkalloc : m.kalloc with
        | none =>
          rw [hkalloc] at hrun
          obtain ⟨m₁, hfree, hrun⟩ := Run.bind_ok hrun
          cases hrun
          exact .inr ⟨rfl, freevm_balanced h hd hfree⟩
        | some fm =>
          obtain ⟨f, m₀⟩ := fm
          rw [hkalloc] at hrun hmaps
          obtain ⟨⟨ok, m₁⟩, hmap, hrun⟩ := Run.bind_ok hrun
          dsimp only at hmap hmaps hrun
          rw [hmap] at hmaps
          obtain ⟨rfl, hmaps⟩ := Bool.and_eq_true_iff.1 hmaps
          obtain ⟨h₀, hne⟩ := kalloc_balanced h hhand hkalloc d (4096 * w / 4096) (m₀.data (frameOf pte))
          have h₁ : Balanced m₁ b := by
            have hmapped := mappages_balanced h₀ rfl hne hd hw (pteFlags_lt pte) hmap
            rw [← hhand] at hmapped
            exact hmapped.resolve_left (by decide)
          refine ih h₁ (by omega) (fun v hv hvu => ?_) hmaps hrun
          have hkept := (mapLoop_ok 1 ((mappages_page_eq (hlt hw)).symm.trans hmap) (fun _ => rfl)
            (by simp only [userPages] at hw; omega)).2 v (hlt hvu) (.inr hv)
          obtain ⟨rest, -, rfl⟩ := kalloc_ok hkalloc
          rw [hkept]
          exact hfresh v (by omega) hvu

theorem copyuvm_balanced {pgdir sz : ℕ} (hlayout : 0x100 < m.kdata ∧ m.kdata < phystopFrame)
    (h : Balanced m b) (hhand : b.hand = none) (hsz : sz ≤ kernBase)
    (hmaps : copyuvmMaps sel m pgdir sz = true) (hrun : m.copyuvm sel pgdir sz = .ok (r, m')) :
    (∃ d, r = some d ∧ Balanced m' { b with live := insert d b.live }) ∨ r = none ∧ Balanced m' b := by
  obtain ⟨⟨d, m₁⟩, hsetup, hrun⟩ := Run.bind_ok hrun
  rw [copyuvmMaps, hsetup] at hmaps
  obtain ⟨d, rfl, h₁⟩ | ⟨rfl, h₁⟩ := setupkvm_balanced hlayout h hsetup
  · obtain ⟨rest, hf, -, hzero⟩ := setupkvm_ok sel hlayout hsetup
    have hnew := h.fresh (hf ▸ List.mem_cons_self)
    obtain ⟨rfl, hdone⟩ | ⟨rfl, hfreed⟩ :=
      copyLoop_balanced (w := 0) h₁ hhand (Finset.mem_insert_self d _)
        (by simp only [pagesOf, userPages, kernBase] at *; omega)
        (fun v _ hv => by rw [hzero v hv]; rfl) hmaps hrun
    · exact .inl ⟨d, rfl, hdone⟩
    · rw [Finset.erase_insert hnew] at hfreed
      exact .inr ⟨rfl, hfreed⟩
  · cases hrun
    exact .inr ⟨rfl, h₁⟩

end

/-! ### Runs -/

/-- The machine, with the directories in use and the frames the rest of the kernel holds. -/
structure State where
  m : Machine
  live : Finset ℕ
  outside : Finset ℕ

def State.books (s : State) : Books := ⟨s.live, s.outside, none⟩

/-- The calls on address spaces, and what happens between them. -/
inductive Event where
  | setupkvm
  | allocuvm (pgdir oldsz newsz : ℕ)
  | copyuvm (pgdir sz : ℕ)
  | deallocuvm (pgdir oldsz newsz : ℕ)
  | freevm (pgdir : ℕ)
  /-- The rest of the kernel takes a frame or gives one back. -/
  | kalloc
  | kfree (f : ℕ)
  /-- A process touches its memory. -/
  | touch (va : BitVec 32) (write : Bool)
  /-- Another process runs. -/
  | switch (p : Proc)

/-- A directory that was built, if any, is in use. -/
def State.built (s : State) : Option ℕ × Machine → State
  | (none, m) => { s with m := m }
  | (some d, m) => { s with m := m, live := insert d s.live }

def step (sel : Selection) (s : State) : Event → Except Halt State
  | .setupkvm => do return s.built (← s.m.setupkvm sel)
  | .allocuvm d oldsz newsz => do
    let (_, m) ← s.m.allocuvm sel d oldsz newsz
    return { s with m := m }
  | .copyuvm d sz => do return s.built (← s.m.copyuvm sel d sz)
  | .deallocuvm d oldsz newsz => do
    let (_, m) ← s.m.deallocuvm sel d oldsz newsz
    return { s with m := m }
  | .freevm d => do
    let m ← s.m.freevm sel d
    return { s with m := m, live := s.live.erase d }
  | .kalloc =>
    match s.m.kalloc with
    | none => .ok s
    | some (f, m) => .ok { s with m := m, outside := insert f s.outside }
  | .kfree f => do
    let m ← s.m.kfree f
    return { s with m := m, outside := s.outside.erase f }
  | .touch va write => .ok { s with m := s.m.touch va.toNat write }
  | .switch p => .ok { s with m := s.m.setProc p }

/-- The calls that make sense: on directories in use and sizes of user memory, of frames that were taken, and
by processes whose monitors name user memory. -/
def Proper (s : State) : Event → Prop
  | .allocuvm d _ _ => d ∈ s.live
  | .copyuvm d sz => d ∈ s.live ∧ sz ≤ kernBase
  | .deallocuvm d oldsz _ => d ∈ s.live ∧ oldsz ≤ kernBase
  | .freevm d => d ∈ s.live
  | .kfree f => f ∈ s.outside
  | .switch p => Low p
  | _ => True

/-- No `mappages` fails once the frame it is to map was allocated. -/
def Maps (sel : Selection) (s : State) : Event → Prop
  | .allocuvm d oldsz newsz => allocuvmMaps sel s.m d oldsz newsz = true
  | .copyuvm d sz => copyuvmMaps sel s.m d sz = true
  | _ => True

/-- Before the first call: every frame after the kernel is free. -/
structure Start (s : State) : Prop where
  kend : 0 < s.m.kend
  layout : 0x100 < s.m.kdata ∧ s.m.kdata < phystopFrame
  nodup : s.m.freelist.Nodup
  free : ∀ f, f ∈ s.m.freelist ↔ s.m.kend ≤ f ∧ f < phystopFrame
  dirs : ∀ d i, s.m.dirs d i = none
  low : Low s.m.proc
  live : s.live = ∅
  outside : s.outside = ∅

/-- Every frame is on the free list once, or in one place and no other. -/
def Accounted (s : State) : Prop :=
  s.m.freelist.Nodup ∧ ∀ f, s.m.kend ≤ f → f < phystopFrame →
    (f ∈ s.m.freelist ∧ ∀ c, target s.m.dirs s.books c ≠ f) ∨
      f ∉ s.m.freelist ∧ ∃! c, target s.m.dirs s.books c = f

variable {s : State} {d : ℕ}

theorem Balanced.accounted (h : Balanced s.m s.books) : Accounted s := by
  refine ⟨h.nodup, fun f hlo hhi => ?_⟩
  by_cases hf : f ∈ s.m.freelist
  · exact .inl ⟨hf, fun c => h.exact.ne_target (unused_of_mem hf) c⟩
  · refine .inr ⟨hf, ?_⟩
    obtain hfixed | ⟨c, hne, hc⟩ := (h.exact.used_iff f).1 (decide_eq_true hf)
    · exact absurd ⟨hlo, hhi⟩ hfixed
    · refine ⟨c, hc, fun c' hc' => ?_⟩
      refine h.exact.once (hc'.trans hc.symm ▸ hne) (hc'.trans hc.symm)

/-- The books, and what the calls rely on besides. -/
structure Sound (s : State) : Prop where
  balanced : Balanced s.m s.books
  layout : 0x100 < s.m.kdata ∧ s.m.kdata < phystopFrame
  low : Low s.m.proc

theorem Start.sound (h : Start s) : Sound s := by
  have hentry : ∀ d v, entry s.m.dirs d v = 0 := fun d v => by
    rw [entry, walk, h.dirs]
    rfl
  have hnull : ∀ c, target s.m.dirs s.books c = 0 := by
    intro c
    cases c with
    | dir d => exact if_neg (by rw [State.books, h.live]; exact Finset.notMem_empty d)
    | table d i =>
      rw [target, h.dirs]
      rfl
    | page d v =>
      rw [target, hentry]
      exact if_neg fun hc => absurd hc.2 (by decide)
    | outside f => exact if_neg (by rw [State.books, h.outside]; exact Finset.notMem_empty f)
    | hand => rfl
  refine ⟨⟨h.kend, h.nodup, ⟨?_, fun hp => absurd (hnull _) hp, fun hp => absurd (hnull _) hp, fun f => ?_⟩,
    fun d _ => h.dirs d, fun d v _ _ => ?_, fun d i _ => h.dirs d i⟩, h.layout, h.low⟩
  · exact fun hc => absurd hc.1 (not_le.2 h.kend)
  · rw [decide_eq_true_iff, h.free]
    refine ⟨Or.inl, fun hc => hc.resolve_right ?_⟩
    rintro ⟨c, hc, -⟩
    exact hc (hnull c)
  · rw [hentry]
    rfl

section
variable {sel : Selection} {s s' : State}

/-- A call that changes the process only along the way keeps it in user memory. -/
theorem Sound.changes {m' : Machine} {n : ℕ} (h : Sound s) (hc : Changes (anywhere sel) n s.m m') {t : State}
    (hm : t.m = m') (hb : Balanced m' t.books) : Sound t := by
  obtain ⟨-, hkdata, -⟩ := hc.id
  subst hm
  exact ⟨hb, by rw [hkdata]; exact h.layout, hc.tracks h.low⟩

theorem Sound.built {m' : Machine} {n : ℕ} {r : Option ℕ} (h : Sound s) (hc : Changes (anywhere sel) n s.m m')
    (hb : (∃ d, r = some d ∧ Balanced m' { s.books with live := insert d s.books.live }) ∨
      r = none ∧ Balanced m' s.books) : Sound (s.built (r, m')) := by
  obtain ⟨d, rfl, hb⟩ | ⟨rfl, hb⟩ := hb
  · exact h.changes hc rfl hb
  · exact h.changes hc rfl hb

theorem Sound.step {e : Event} (h : Sound s) (hproper : Proper s e) (hmaps : Maps sel s e)
    (hstep : step sel s e = .ok s') : Sound s' := by
  have hM : ∀ d v, (anywhere sel).map d v := fun _ _ => trivial
  cases e with
  | setupkvm =>
    obtain ⟨⟨r, m⟩, hrun, hstep⟩ := Run.bind_ok hstep
    cases hstep
    exact h.built (setupkvm_changes (n := 0) hM h.layout hrun) (setupkvm_balanced h.layout h.balanced hrun)
  | allocuvm d oldsz newsz =>
    obtain ⟨⟨r, m⟩, hrun, hstep⟩ := Run.bind_ok hstep
    cases hstep
    exact h.changes (allocuvm_changes hrun h.low (low_page sel) fun v _ => hM d v) rfl
      (allocuvm_balanced h.balanced rfl hproper h.low hmaps hrun)
  | copyuvm d sz =>
    obtain ⟨⟨r, m⟩, hrun, hstep⟩ := Run.bind_ok hstep
    cases hstep
    exact h.built (copyuvm_changes (n := 0) hM h.layout hproper.2 hrun)
      (copyuvm_balanced h.layout h.balanced rfl hproper.2 hmaps hrun)
  | deallocuvm d oldsz newsz =>
    obtain ⟨⟨r, m⟩, hrun, hstep⟩ := Run.bind_ok hstep
    cases hstep
    exact h.changes (deallocuvm_changes (n := 0) hrun hproper.2 fun v _ => hM d v) rfl
      (deallocuvm_balanced h.balanced hproper.2 hrun)
  | freevm d =>
    obtain ⟨m, hrun, hstep⟩ := Run.bind_ok hstep
    cases hstep
    exact h.changes (freevm_changes (n := 0) (hM d) hrun) rfl (freevm_balanced h.balanced hproper hrun)
  | kalloc =>
    rw [Accounting.step] at hstep
    split at hstep
    · cases hstep
      exact h
    · rename_i f m hrun
      obtain ⟨rest, hf, rfl⟩ := kalloc_ok hrun
      cases hstep
      exact ⟨Account.takeOutside h.balanced hf, h.layout, h.low⟩
  | kfree f =>
    obtain ⟨m, hrun, hstep⟩ := Run.bind_ok hstep
    obtain ⟨rfl, hvalid, -⟩ := kfree_ok hrun
    cases hstep
    refine ⟨Account.giveOutside h.balanced hproper ?_, h.layout, h.low⟩
    exact Nat.pos_iff_ne_zero.1 (lt_of_lt_of_le h.balanced.kend_pos hvalid)
  | touch va write =>
    cases hstep
    refine h.changes (touch_changes (S := anywhere sel) (n := 0) s.m va.toNat write) rfl ?_
    show Balanced (s.m.touch va.toNat write) s.books
    unfold touch
    split
    · exact h.balanced
    · rename_i pte hwalk
      exact h.balanced.soft va.isLt hwalk (softBits_touch pte write)
  | switch p =>
    cases hstep
    exact ⟨h.balanced, h.layout, hproper⟩

/-- As long as no `mappages` fails after the frame it is to map was allocated, every frame stays on the free
list or in one place, in every run of the calls. -/
theorem frames_accounted {es : List Event} (hstart : Start s) (hproper : Run.Admits (step sel) Proper es s)
    (hmaps : Run.Admits (step sel) (Maps sel) es s) (hrun : Run.run (step sel) es s = .ok s') :
    Accounted s' := by
  have hone : ∀ s e s', Sound s → Proper s e ∧ Maps sel s e → step sel s e = .ok s' → Sound s' :=
    fun _ _ _ h hc hstep => h.step hc.1 hc.2 hstep
  exact (Run.invariant hone hstart.sound (hproper.and hmaps) hrun).balanced.accounted

end

/-! ### A machine that runs out of frames -/

theorem mapLoop_slot {i count v a f : ℕ} {perm : Pte} {m m' : Machine} {ok : Bool} (hnone : m.dirs d i = none)
    (hslot : ∀ w, v ≤ w → w < v + count → pdx (4096 * w) ≠ i) (ha : 0 < count → a = 4096 * v)
    (hend : v + count ≤ 0x100000) (hrun : mapLoop d perm count a f m = .ok (ok, m')) : m'.dirs d i = none := by
  refine mapLoop_induct (motive := fun _ _ m => m.dirs d i = none → m'.dirs d i = none) hrun ha hend
    (fun _ => id) (fun _ _ _ _ _ _ => id) (fun w g m m₁ hw hlt halloc _ _ ih hnone => ih ?_) hnone
  have hnone₁ : m₁.dirs d i = none := by
    obtain ⟨-, rfl⟩ | ⟨-, g, rest, -, rfl⟩ := walkpgdirAlloc_cases halloc
    · exact hnone
    · show addTable m.dirs d (4096 * w) g d i = none
      rw [addTable, Function.update_self, Function.update_of_ne (hslot w hw hlt).symm]
      exact hnone
  refine Option.isNone_iff_eq_none.1 ((isNone_store m₁.dirs d _ _ d i).trans ?_)
  rw [hnone₁]
  rfl

theorem kmapLoop_slot {sel : Selection} {i lo : ℕ} {m m' : Machine} {l : List (ℕ × ℕ × ℕ × Pte)}
    (hl : Ascending lo l) (hlo : userPages ≤ lo) (hi : i ∉ kernelSlots) (hnone : m.dirs d i = none)
    (hrun : kmapLoop sel d l m = .ok (some d, m')) : m'.dirs d i = none := by
  obtain ⟨-, hdone⟩ | ⟨hr, -⟩ := kmapLoop_induct (P := fun m => m.dirs d i = none) hl hlo hrun hnone
    fun v count _ _ _ _ _ _ hend hslots _ _ hmap hnone => by
      refine mapLoop_slot hnone (fun w hw hwc => ?_) (fun _ => rfl) hend hmap
      rintro rfl
      rw [pdx_page, Nat.mod_eq_of_lt (by omega)] at hi
      exact hi (hslots w hw hwc)
  · exact hdone
  · cases hr

/-- Everything free but the kernel, which ends at 0x115000. -/
def booted : State where
  m :=
    { kend := 0x115
      kdata := 0x109
      freelist := List.range' 0x115 (phystopFrame - 0x115)
      data := fun _ _ => 0
      dirs := fun _ _ => none
      owner := fun _ => none
      buff := fun _ => 0
      proc :=
        { sz := 0
          pgdir := 0
          pid := 1
          killed := false
          swapFile := ⟨0, fun _ => 0⟩
          ramMonitor := fun _ => ⟨false, 0, 0, 0⟩
          swapMonitor := fun _ => ⟨false, 0, 0, 0⟩
          pagesInFile := 0
          lastInQueue := 0
          protectedPages := 0
          pageFaultCounter := 0 } }
  live := ∅
  outside := ∅

theorem booted_start : Start booted where
  kend := by decide
  layout := by decide
  nodup := List.nodup_range'
  free f := by
    show f ∈ List.range' 0x115 (phystopFrame - 0x115) ↔ 0x115 ≤ f ∧ f < phystopFrame
    rw [List.mem_range'_1]
    rfl
  dirs _ _ := rfl
  low _ := ⟨Nat.two_pow_pos 31, Nat.two_pow_pos 31⟩
  live := rfl
  outside := rfl

theorem booted_setupkvm (sel : Selection) : ∃ d m, booted.m.setupkvm sel = .ok (some d, m) ∧
    m.dirs d 0 = none ∧ 0 < m.freelist.length ∧ m.proc.pid = 1 := by
  have hf : booted.m.freelist = 0x115 :: List.range' 0x116 (phystopFrame - 0x116) :=
    List.range'_succ (n := phystopFrame - 0x116)
  have hlen : (List.range' 0x116 (phystopFrame - 0x116)).length = phystopFrame - 0x116 := List.length_range'
  have hmany : 64 < phystopFrame - 0x116 := by decide
  obtain ⟨m, hrun, hbuilds, -, -, hleft⟩ := setupkvm_spec sel hf (by omega) booted_start.layout
  refine ⟨_, m, hrun, ?_, by omega, ?_⟩
  · have hslot : 0 ∉ kernelSlots := by
      rw [kernelSlots, Finset.mem_union, Finset.mem_Icc, Finset.mem_Icc]
      omega
    exact kmapLoop_slot (kmap_ascending booted_start.layout) le_rfl hslot rfl hrun
  · rw [hbuilds.same]
    rfl

/-- All frames but one are taken, and `allocuvm` asked for one page. -/
def drain (d : ℕ) : ℕ → List Event
  | 0 => [.allocuvm d 0 4096]
  | k + 1 => .kalloc :: drain d k

/-- The last frame is lost: it is not free, and no directory refers to it. -/
theorem drain_loses (sel : Selection) {k : ℕ} (h : Sound s) (hd : d ∈ s.live)
    (hnone : s.m.dirs d 0 = none) (hpid : s.m.proc.pid = 1) (hlen : s.m.freelist.length = k + 1) :
    Run.Admits (step sel) Proper (drain d k) s ∧ ∃ s', Run.run (step sel) (drain d k) s = .ok s' ∧
      ∃ f, s'.m.kend ≤ f ∧ f < phystopFrame ∧ f ∉ s'.m.freelist ∧ ∀ c, target s'.m.dirs s'.books c ≠ f := by
  induction k generalizing s with
  | zero =>
    obtain ⟨f, hf⟩ := List.length_eq_one_iff.1 hlen
    have hmem : f ∈ s.m.freelist := hf ▸ List.mem_cons_self
    have hvalid : s.m.kend ≤ f ∧ f < phystopFrame := by
      by_contra hc
      have hused := (h.balanced.exact.used_iff f).2 (.inl hc)
      rw [unused_of_mem hmem] at hused
      cases hused
    let m : Machine := ({ s.m with freelist := [] }.setOwner f d 0).setFrame f fun _ => 0
    have hmap : m.mappages d (4096 * 0) 4096 f (pteW ||| pteU) = .ok (false, m) := by
      rw [mappages_page_eq (by decide), mapLoop]
      have halloc : m.walkpgdirAlloc d (4096 * 0) = none := by
        unfold walkpgdirAlloc
        rw [show m.dirs d (pdx (4096 * 0)) = none from hnone]
        rfl
      rw [halloc]
    have hrun : s.m.allocuvm sel d 0 4096 = .ok (4096, m) := by
      have hkalloc : s.m.kalloc = some (f, { s.m with freelist := [] }) := by
        rw [kalloc, hf]
      have htrack : m.trackPage sel d (4096 * 0) 1 = .ok m := if_neg fun hc => by
        have hbig : 2 < s.m.proc.pid := hc.1
        omega
      rw [allocuvm, if_neg (by decide), if_neg (by decide)]
      show allocLoop sel d 0 4096 1 0 s.m = _
      rw [allocLoop, hkalloc]
      show (m.mappages d (4096 * 0) 4096 f (pteW ||| pteU) >>= _) = _
      rw [hmap]
      show (m.trackPage sel d (4096 * 0) 1 >>= _) = _
      rw [htrack]
      rfl
    refine ⟨⟨hd, fun _ _ => trivial⟩, { s with m := m }, ?_, f, hvalid.1, hvalid.2, List.not_mem_nil,
      fun c => h.balanced.exact.ne_target (unused_of_mem hmem) c⟩
    have hstep : step sel s (.allocuvm d 0 4096) = .ok { s with m := m } := by
      rw [step, hrun]
      rfl
    rw [drain, Run.run, hstep]
    rfl
  | succ k ih =>
    obtain ⟨f, rest, hf⟩ := List.exists_cons_of_length_eq_add_one hlen
    have hkalloc : s.m.kalloc = some (f, { s.m with freelist := rest }) := by
      rw [kalloc, hf]
    have hstep : step sel s .kalloc =
        .ok { s with m := { s.m with freelist := rest }, outside := insert f s.outside } := by
      rw [step, hkalloc]
    have hrest : rest.length = k + 1 := by
      rw [hf] at hlen
      exact Nat.succ.inj hlen
    obtain ⟨hadmits, s', hrun, hlost⟩ := ih (h.step (e := .kalloc) trivial trivial hstep) hd hnone hpid hrest
    refine ⟨⟨trivial, fun s₁ hs₁ => ?_⟩, s', ?_, hlost⟩
    · cases hstep.symm.trans hs₁
      exact hadmits
    · rw [drain, Run.run, hstep]
      exact hrun

/-- The first directory, on the machine as it boots. -/
theorem frames_accounted_sample : ∃ s, Run.run (step .SCFIFO) [.setupkvm] booted = .ok s ∧ s.live.Nonempty ∧
    Accounted s := by
  obtain ⟨d, m, hsetup, -⟩ := booted_setupkvm .SCFIFO
  have hrun : Run.run (step .SCFIFO) [.setupkvm] booted = .ok (booted.built (some d, m)) := by
    rw [Run.run, step, hsetup]
    rfl
  refine ⟨_, hrun, ⟨d, Finset.mem_insert_self d _⟩, ?_⟩
  have hall : ∀ P : State → Event → Prop, P booted .setupkvm → Run.Admits (step .SCFIFO) P [.setupkvm] booted :=
    fun _ hP => ⟨hP, fun _ _ => trivial⟩
  exact frames_accounted booted_start (hall _ trivial) (hall _ trivial) hrun

/-- With one frame left `allocuvm` gets it for the page, `mappages` finds none for the page table, and the
frame is neither mapped nor given back. -/
theorem allocuvm_loses_frame : ∃ es s f, Run.Admits (step .SCFIFO) Proper es booted ∧
    Run.run (step .SCFIFO) es booted = .ok s ∧ s.m.kend ≤ f ∧ f < phystopFrame ∧ f ∉ s.m.freelist ∧
    (∀ c, target s.m.dirs s.books c ≠ f) ∧ ¬Accounted s := by
  obtain ⟨d, m, hsetup, hnone, hlen, hpid⟩ := booted_setupkvm .SCFIFO
  have hstep : step .SCFIFO booted .setupkvm = .ok (booted.built (some d, m)) := by
    rw [step, hsetup]
    rfl
  have hsound := booted_start.sound.step (e := .setupkvm) trivial trivial hstep
  obtain ⟨k, hk⟩ : ∃ k, m.freelist.length = k + 1 := ⟨m.freelist.length - 1, by omega⟩
  obtain ⟨hadmits, s, hrun, f, hlo, hhi, hnot, hlost⟩ :=
    drain_loses .SCFIFO hsound (Finset.mem_insert_self d _) hnone hpid hk
  refine ⟨.setupkvm :: drain d k, s, f, ⟨trivial, fun s₁ hs₁ => ?_⟩, ?_, hlo, hhi, hnot, hlost, fun hacc => ?_⟩
  · cases hstep.symm.trans hs₁
    exact hadmits
  · rw [Run.run, hstep]
    exact hrun
  · obtain ⟨hfree, -⟩ | ⟨-, c, hc, -⟩ := hacc.2 f hlo hhi
    · exact hnot hfree
    · exact hlost c hc

end Accounting

end Xv6
