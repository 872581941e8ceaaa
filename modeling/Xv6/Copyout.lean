import Xv6.Exec

/-!
# `copyout`

`userPhys` is the byte of physical memory behind an address of the user, and `address va k` the address of
byte `k` of a range, which may go round the top of the address space.  A range whose pages are all there
for the user is filled with the source; at the first page that is not, `copyout` returns -1, unless the
page has no page table: `uva2ka` does not test what `walkpgdir` returned.
-/

namespace Xv6

open Machine

/-! ### What the user sees -/

/-- The byte of memory behind address `a`, for a page that is present and for the user. -/
def userPhys (dirs : ℕ → PgDir) (d a : ℕ) : Option (ℕ × Fin 4096) :=
  match walk dirs d a with
  | none => none
  | some pte => if flagOn pte pteP && flagOn pte pteU then some (frameOf pte, pageOff a) else none

def seen (m : Machine) (d a : ℕ) : Option Byte := (userPhys m.dirs d a).map fun b => m.data b.1 b.2

/-- The address of byte `k` of the range at `va`. -/
def address (va k : ℕ) : ℕ := (va + k) % 0x100000000

/-- The first `k` addresses of the range are the user's. -/
def UserUpTo (dirs : ℕ → PgDir) (d va k : ℕ) : Prop := ∀ j < k, (userPhys dirs d (address va j)).isSome

/-- Memory was written only where the user sees the range. -/
def WritesOnly (d va len : ℕ) (m m' : Machine) : Prop :=
  DataOnly m m' ∧ ∀ b : ℕ × Fin 4096, (∀ k < len, userPhys m.dirs d (address va k) ≠ some b) →
    m'.data b.1 b.2 = m.data b.1 b.2

/-- `copyout` fills a range of the user and refuses any other. -/
def CopiesOut (m : Machine) (d va : ℕ) (bytes : List Byte) : Prop :=
  (UserUpTo m.dirs d va bytes.length → ∃ m', m.copyout d va bytes = .ok (true, m') ∧
    WritesOnly d va bytes.length m m' ∧
    (∀ k, (h : k < bytes.length) → seen m' d (address va k) = some bytes[k]) ∧
    ∀ a < 0x100000000, (∀ k < bytes.length, a ≠ address va k) → seen m' d a = seen m d a) ∧
  (¬ UserUpTo m.dirs d va bytes.length → ∃ m', m.copyout d va bytes = .ok (false, m') ∧
    WritesOnly d va bytes.length m m')

/-- The first page of the range that is not the user's, if there is one, has a page table. -/
def StopsAtTable (dirs : ℕ → PgDir) (d va len : ℕ) : Prop :=
  ∀ k < len, UserUpTo dirs d va k → walk dirs d (address va k) ≠ none

/-- No byte of a range of the user is seen at another address as well. -/
def SeenOnce (dirs : ℕ → PgDir) (d va len : ℕ) : Prop :=
  UserUpTo dirs d va len → ∀ k < len, ∀ a < 0x100000000, a ≠ address va k →
    userPhys dirs d a ≠ userPhys dirs d (address va k)

/-! ### Addresses -/

section

variable {dirs : ℕ → PgDir} {d va k : ℕ}

theorem address_zero (hva : va < 0x100000000) : address va 0 = va := Nat.mod_eq_of_lt hva

theorem address_inj {j len : ℕ} (hlen : len < 0x100000000) (hj : j < len) (hk : k < len)
    (h : address va j = address va k) : j = k := by
  simp only [address] at h
  omega

theorem address_page (hva : va < 0x100000000) (hk : k < 4096 - va % 4096) : address va k = va + k := by
  simp only [address]
  omega

theorem address_next (va k : ℕ) :
    address ((pgRoundDown va + 4096) % 0x100000000) k = address va (4096 - va % 4096 + k) := by
  simp only [address, pgRoundDown]
  omega

theorem walk_pgRoundDown (dirs : ℕ → PgDir) (d va : ℕ) : walk dirs d (pgRoundDown va) = walk dirs d va := by
  rw [walk_page dirs d va, walk_page dirs d (pgRoundDown va), pgRoundDown]
  congr 2
  omega

theorem userPhys_page (hva : va < 0x100000000) (hk : k < 4096 - va % 4096) :
    userPhys dirs d (address va k) = (userPhys dirs d va).map fun b => (b.1, pageOff (va + k)) := by
  have hwalk : walk dirs d (va + k) = walk dirs d va := by
    rw [walk_page dirs d (va + k), walk_page dirs d va]
    congr 2
    omega
  rw [address_page hva hk, userPhys, userPhys, hwalk]
  cases walk dirs d va with
  | none => rfl
  | some pte =>
    dsimp only
    split_ifs <;> rfl

end

/-! ### One page -/

section

variable {m : Machine} {d va fuel : ℕ} {bytes : List Byte} {f : ℕ}

theorem copyoutLoop_wild (hne : bytes ≠ []) (hnone : walk m.dirs d va = none) :
    copyoutLoop d (fuel + 1) va bytes m = .error .wild := by
  rw [copyoutLoop, if_neg hne, uva2ka, walkpgdir, walk_pgRoundDown, hnone]
  rfl

theorem copyoutLoop_refused (hne : bytes ≠ []) (htable : walk m.dirs d va ≠ none)
    (huser : userPhys m.dirs d va = none) : copyoutLoop d (fuel + 1) va bytes m = .ok (false, m) := by
  obtain ⟨pte, hpte⟩ := Option.ne_none_iff_exists'.1 htable
  rw [userPhys, hpte] at huser
  have hflags : (flagOn pte pteP && flagOn pte pteU) = false := by
    by_contra hon
    rw [Bool.not_eq_false] at hon
    simp [hon] at huser
  rw [copyoutLoop, if_neg hne, uva2ka, walkpgdir, walk_pgRoundDown, hpte]
  simp only [hflags, bind, Except.bind]
  rfl

/-- The part of the source that goes to the page of `va`. -/
def copyPage (m : Machine) (f va : ℕ) (bytes : List Byte) : Machine :=
  m.setFrame f (patch (m.data f) (va % 4096) (bytes.take (4096 - va % 4096)))

theorem copyoutLoop_page (hne : bytes ≠ []) {x : Fin 4096}
    (huser : userPhys m.dirs d va = some (f, x)) :
    copyoutLoop d (fuel + 1) va bytes m = copyoutLoop d fuel ((pgRoundDown va + 4096) % 0x100000000)
      (bytes.drop (4096 - va % 4096)) (copyPage m f va bytes) := by
  rw [userPhys] at huser
  cases hpte : walk m.dirs d va with
  | none => simp [hpte] at huser
  | some pte =>
    rw [hpte] at huser
    dsimp only at huser
    split at huser
    · rename_i hflags
      obtain ⟨rfl, -⟩ := Prod.mk.inj (Option.some.inj huser)
      have hdrop : bytes.drop (min (4096 - va % 4096) bytes.length) = bytes.drop (4096 - va % 4096) := by
        rcases Nat.le_total (4096 - va % 4096) bytes.length with hle | hle
        · rw [Nat.min_eq_left hle]
        · rw [Nat.min_eq_right hle, List.drop_length, List.drop_eq_nil_of_le hle]
      rw [copyoutLoop, if_neg hne, uva2ka, walkpgdir, walk_pgRoundDown, hpte]
      simp only [hflags, if_true, bind, Except.bind, hdrop, ← List.take_eq_take_min]
      rfl
    · cases huser

theorem copyPage_data_at {k : ℕ} (hk : k < 4096 - va % 4096) (h : k < bytes.length) :
    (copyPage m f va bytes).data f (pageOff (va + k)) = bytes[k] := by
  have hoff : (pageOff (va + k)).val = va % 4096 + k := by
    show (va + k) % 4096 = _
    omega
  show Function.update m.data f _ f _ = _
  rw [Function.update_self, patch, hoff, if_pos (by simp; omega)]
  simp [List.getD, hk, h]

theorem copyPage_data {x : Fin 4096} (hva : va < 0x100000000)
    (huser : userPhys m.dirs d va = some (f, x)) {b : ℕ × Fin 4096}
    (hb : ∀ k < bytes.length, userPhys m.dirs d (address va k) ≠ some b) :
    (copyPage m f va bytes).data b.1 b.2 = m.data b.1 b.2 := by
  obtain ⟨g, y⟩ := b
  show Function.update m.data f _ g y = m.data g y
  by_cases hg : g = f
  · subst hg
    rw [Function.update_self, patch]
    refine if_neg fun hin => ?_
    rw [List.length_take] at hin
    have hy : pageOff (va + (y.val - va % 4096)) = y := by
      apply Fin.ext
      show (va + (y.val - va % 4096)) % 4096 = y.val
      have := y.isLt
      omega
    apply hb (y.val - va % 4096) (by omega)
    rw [userPhys_page hva (by omega), huser, Option.map_some, hy]
  · rw [Function.update_of_ne hg]

end

/-! ### All pages -/

section

variable {m : Machine} {d : ℕ} {va fuel : ℕ} {bytes : List Byte} {m' : Machine}

theorem UserUpTo.next {dirs : ℕ → PgDir} {k : ℕ} {b : ℕ × Fin 4096} (hva : va < 0x100000000)
    (huser : userPhys dirs d va = some b)
    (h : UserUpTo dirs d ((pgRoundDown va + 4096) % 0x100000000) k) :
    UserUpTo dirs d va (4096 - va % 4096 + k) := by
  intro j hj
  by_cases hpage : j < 4096 - va % 4096
  · rw [userPhys_page hva hpage, huser]
    rfl
  · have hrest := h (j - (4096 - va % 4096)) (by omega)
    rwa [address_next, Nat.add_sub_cancel' (Nat.le_of_not_lt hpage)] at hrest

theorem WritesOnly.next {f : ℕ} {x : Fin 4096}
    (hva : va < 0x100000000) (huser : userPhys m.dirs d va = some (f, x))
    (h : WritesOnly d ((pgRoundDown va + 4096) % 0x100000000) (bytes.drop (4096 - va % 4096)).length
      (copyPage m f va bytes) m') : WritesOnly d va bytes.length m m' := by
  refine ⟨(DataOnly.setFrame _ _ _).trans h.1, fun b hb => ?_⟩
  rw [h.2 b fun k hk => ?_, copyPage_data hva huser hb]
  rw [address_next]
  rw [List.length_drop] at hk
  exact hb _ (by omega)

theorem copyoutLoop_outcome (hva : va < 0x100000000)
    (hfuel : bytes.length < fuel) :
    (∃ m', copyoutLoop d fuel va bytes m = .ok (true, m') ∧ UserUpTo m.dirs d va bytes.length ∧
      WritesOnly d va bytes.length m m') ∨
    (∃ m', ∃ k < bytes.length, copyoutLoop d fuel va bytes m = .ok (false, m') ∧
      UserUpTo m.dirs d va k ∧ userPhys m.dirs d (address va k) = none ∧
      walk m.dirs d (address va k) ≠ none ∧ WritesOnly d va bytes.length m m') ∨
    ∃ k < bytes.length, copyoutLoop d fuel va bytes m = .error .wild ∧ UserUpTo m.dirs d va k ∧
      walk m.dirs d (address va k) = none := by
  induction fuel generalizing va bytes m with
  | zero => exact absurd hfuel (Nat.not_lt_zero _)
  | succ fuel ih =>
    by_cases hne : bytes = []
    · subst hne
      exact Or.inl ⟨m, rfl, fun j hj => absurd hj (Nat.not_lt_zero j), rfl, fun _ _ => rfl⟩
    have hpos := List.length_pos_of_ne_nil hne
    have hstart : UserUpTo m.dirs d va 0 := fun j hj => absurd hj (Nat.not_lt_zero j)
    cases huser : userPhys m.dirs d va with
    | none =>
      by_cases htable : walk m.dirs d va = none
      · refine Or.inr (Or.inr ⟨0, hpos, copyoutLoop_wild hne htable, hstart, ?_⟩)
        rwa [address_zero hva]
      · refine Or.inr (Or.inl ⟨m, 0, hpos, copyoutLoop_refused hne htable huser, hstart, ?_, ?_,
          rfl, fun _ _ => rfl⟩)
        · rwa [address_zero hva]
        · rwa [address_zero hva]
    | some b =>
      obtain ⟨f, x⟩ := b
      have hlen : (bytes.drop (4096 - va % 4096)).length = bytes.length - (4096 - va % 4096) :=
        List.length_drop
      rw [copyoutLoop_page hne huser]
      rcases ih (m := copyPage m f va bytes) (Nat.mod_lt (pgRoundDown va + 4096) (by decide))
        (by omega : (bytes.drop (4096 - va % 4096)).length < fuel) with
        ⟨m', hrun, hall, hw⟩ | ⟨m', k, hk, hrun, hupto, hnone, htable, hw⟩ | ⟨k, hk, hrun, hupto, hnone⟩
      · refine Or.inl ⟨m', hrun, fun j hj => ?_, hw.next hva huser⟩
        exact (hall.next hva huser) j (by omega)
      · rw [address_next] at hnone htable
        exact Or.inr (Or.inl ⟨m', _, by omega, hrun, hupto.next hva huser, hnone, htable,
          hw.next hva huser⟩)
      · rw [address_next] at hnone
        exact Or.inr (Or.inr ⟨_, by omega, hrun, hupto.next hva huser, hnone⟩)

theorem copyoutLoop_true (hva : va < 0x100000000)
    (hfuel : bytes.length < fuel) (hrun : copyoutLoop d fuel va bytes m = .ok (true, m')) :
    UserUpTo m.dirs d va bytes.length ∧ WritesOnly d va bytes.length m m' := by
  rcases copyoutLoop_outcome hva hfuel with ⟨m'', hrun', hall, hw⟩ | ⟨m'', k, -, hrun', -⟩ | ⟨k, -, hrun', -⟩
  · rw [hrun] at hrun'
    cases hrun'
    exact ⟨hall, hw⟩
  · rw [hrun] at hrun'
    cases hrun'
  · rw [hrun] at hrun'
    cases hrun'

theorem WritesOnly.userPhys_eq {len : ℕ} (h : WritesOnly d va len m m') (a : ℕ) :
    userPhys m'.dirs d a = userPhys m.dirs d a := by
  rw [h.1]

theorem copyoutLoop_content (hva : va < 0x100000000)
    (hfuel : bytes.length < fuel) (hrun : copyoutLoop d fuel va bytes m = .ok (true, m'))
    (hapart : ∀ j < bytes.length, ∀ k < bytes.length, j ≠ k →
      userPhys m.dirs d (address va j) ≠ userPhys m.dirs d (address va k))
    {k : ℕ} (hk : k < bytes.length) : seen m' d (address va k) = some bytes[k] := by
  induction fuel generalizing va bytes m k with
  | zero => exact absurd hfuel (Nat.not_lt_zero _)
  | succ fuel ih =>
    obtain ⟨hall, hwrites⟩ := copyoutLoop_true hva hfuel hrun
    have hne : bytes ≠ [] := List.ne_nil_of_length_pos (by omega)
    obtain ⟨⟨f, x⟩, huser⟩ := Option.isSome_iff_exists.1 (hall 0 (by omega))
    rw [address_zero hva] at huser
    rw [copyoutLoop_page hne huser] at hrun
    have hlen : (bytes.drop (4096 - va % 4096)).length = bytes.length - (4096 - va % 4096) :=
      List.length_drop
    have hnext : (pgRoundDown va + 4096) % 0x100000000 < 0x100000000 := Nat.mod_lt _ (by decide)
    by_cases hpage : k < 4096 - va % 4096
    · -- The byte is written now, and the rest of the range does not touch it.
      have hbyte : userPhys m.dirs d (address va k) = some (f, pageOff (va + k)) := by
        rw [userPhys_page hva hpage, huser, Option.map_some]
      have hrest := (copyoutLoop_true hnext (by omega) hrun).2.2 (f, pageOff (va + k)) fun j hj => by
        rw [address_next, ← hbyte]
        exact hapart _ (by omega) k hk (by omega)
      rw [seen, hwrites.userPhys_eq, hbyte, Option.map_some, hrest]
      exact congrArg some (copyPage_data_at hpage hk)
    · have hstep := ih hnext (by omega) hrun (fun i hi j hj hij => by
        rw [address_next, address_next]
        exact hapart _ (by omega) _ (by omega) (by omega)) (k := k - (4096 - va % 4096)) (by omega)
      rw [address_next, Nat.add_sub_cancel' (Nat.le_of_not_lt hpage), List.getElem_drop] at hstep
      rw [hstep]
      congr 2
      omega

end

section

variable {m : Machine} {d va len : ℕ}

theorem userPhys_of_walk_none {dirs : ℕ → PgDir} {a : ℕ} (h : walk dirs d a = none) :
    userPhys dirs d a = none := by
  rw [userPhys, h]

/-- A page without a page table where the user's pages end makes `copyout` fail to return. -/
theorem stopsAtTable_of_copiesOut {bytes : List Byte} (hva : va < 0x100000000)
    (h : CopiesOut m d va bytes) : StopsAtTable m.dirs d va bytes.length := by
  intro k hk hupto hnone
  have huser := userPhys_of_walk_none hnone
  -- Only the page of byte `k` can end the copy.
  have hwild : m.copyout d va bytes = .error .wild := by
    rcases copyoutLoop_outcome hva (Nat.lt_succ_self bytes.length) with
      ⟨m', -, hall, -⟩ | ⟨m', j, hj, -, hupto', huser', htable, -⟩ | ⟨j, -, hrun, -⟩
    · have hsome := hall k hk
      rw [huser] at hsome
      cases hsome
    · rcases Nat.lt_trichotomy j k with hlt | rfl | hlt
      · have hsome := hupto j hlt
        rw [huser'] at hsome
        cases hsome
      · exact absurd hnone htable
      · have hsome := hupto' k hlt
        rw [huser] at hsome
        cases hsome
    · exact hrun
  by_cases hall : UserUpTo m.dirs d va bytes.length
  · obtain ⟨m', hrun, -⟩ := h.1 hall
    rw [hwild] at hrun
    cases hrun
  · obtain ⟨m', hrun, -⟩ := h.2 hall
    rw [hwild] at hrun
    cases hrun

theorem seenOnce_of_copiesOut
    (h : ∀ data bytes, bytes.length = len → CopiesOut { m with data := data } d va bytes) :
    SeenOnce m.dirs d va len := by
  intro hall k hk a ha hne heq
  -- A source with one byte that differs from the others and from the memory.
  have hlength : ((List.replicate len (0 : Byte)).set k 1).length = len := by simp
  obtain ⟨m', -, hwrites, hin, hout⟩ := (h (fun _ _ => 0) _ hlength).1 (by rwa [hlength])
  have hsame : seen m' d a = seen m' d (address va k) := by
    rw [seen, seen, hwrites.userPhys_eq, hwrites.userPhys_eq]
    exact congrArg _ heq
  rw [hin k (by rwa [hlength]), List.getElem_set_self] at hsame
  by_cases hrange : ∃ j < len, a = address va j
  · obtain ⟨j, hj, rfl⟩ := hrange
    have hjk : k ≠ j := by
      rintro rfl
      exact hne rfl
    rw [hin j (by rwa [hlength]), List.getElem_set_ne hjk, List.getElem_replicate] at hsame
    exact absurd hsame (by decide)
  · push Not at hrange
    obtain ⟨b, hb⟩ := Option.isSome_iff_exists.1 (hall k hk)
    rw [hout a ha (by rwa [hlength]), seen] at hsame
    simp only [heq, hb, Option.map_some] at hsame
    exact absurd hsame (by decide)

theorem copiesOut_of_stopsAtTable {bytes : List Byte} (hva : va < 0x100000000)
    (hlen : bytes.length < 0x100000000) (hstop : StopsAtTable m.dirs d va bytes.length)
    (honce : SeenOnce m.dirs d va bytes.length) : CopiesOut m d va bytes := by
  rcases copyoutLoop_outcome hva (Nat.lt_succ_self bytes.length) with
    ⟨m', hrun, hall, hw⟩ | ⟨m', k, hk, hrun, hupto, hnone, -, hw⟩ | ⟨k, hk, -, hupto, hnone⟩
  · refine ⟨fun _ => ⟨m', hrun, hw, fun k hk => ?_, fun a ha hout => ?_⟩, fun hnot => absurd hall hnot⟩
    · refine copyoutLoop_content hva (Nat.lt_succ_self _) hrun (fun i hi j hj hij => ?_) hk
      exact honce hall j hj _ (Nat.mod_lt _ (by decide)) fun heq => hij (address_inj hlen hi hj heq)
    · rw [seen, seen, hw.userPhys_eq]
      cases hb : userPhys m.dirs d a with
      | none => rfl
      | some b =>
        refine congrArg some (hw.2 b fun k hk heq => ?_)
        exact honce hall k hk a ha (hout k hk) (by rw [hb, heq])
  · refine ⟨fun hall => ?_, fun _ => ⟨m', hrun, hw⟩⟩
    have hsome := hall k hk
    rw [hnone] at hsome
    cases hsome
  · exact absurd hnone (hstop k hk hupto)

end

/-- For every memory and source of a given length: `copyout` fills a range of the user and refuses any
other, exactly if it does not come to a page without a page table and the range is seen nowhere else. -/
theorem copyout_iff (m : Machine) (d : ℕ) {va len : ℕ} (hva : va < 0x100000000) (hlen : len < 0x100000000) :
    (∀ data bytes, bytes.length = len → CopiesOut { m with data := data } d va bytes) ↔
      StopsAtTable m.dirs d va len ∧ SeenOnce m.dirs d va len := by
  constructor
  · intro h
    have hone := stopsAtTable_of_copiesOut hva (h m.data (List.replicate len 0) (by simp))
    rw [List.length_replicate] at hone
    exact ⟨hone, seenOnce_of_copiesOut h⟩
  · rintro ⟨hstop, honce⟩ data bytes rfl
    exact copiesOut_of_stopsAtTable hva hlen hstop honce

theorem sample_userPhys {n frames a : ℕ} {last : Int} (hn : n ≤ 16) (ha : a < 0x100000000)
    {b : ℕ × Fin 4096} (h : userPhys (sampleMachine n last frames).dirs 512 a = some b) :
    b = (528 + a / 4096, pageOff a) := by
  rw [userPhys, walk_page] at h
  cases hpte : walk (sampleMachine n last frames).dirs 512 (4096 * (a / 4096)) with
  | none => simp [hpte] at h
  | some pte =>
    have hentry := entry_of_walk hpte
    rw [sample_entry hn (by omega), if_pos rfl] at hentry
    rw [hpte, ← hentry] at h
    dsimp only at h
    split at h
    · rename_i hflags
      by_cases hv : a / 4096 < n
      · rw [← Option.some.inj h, (samplePte_flags hn hv).2.2.2.1]
      · rw [samplePte, if_neg hv] at hflags
        exact absurd hflags (by decide)
    · cases h

/-- The image of four pages of `sampleMachine`: two bytes across the end of the first page. -/
theorem copyout_iff_two : CopiesOut (sampleMachine 4 4 8) 512 4095 [65, 66] := by
  refine (copyout_iff (sampleMachine 4 4 8) 512 (by decide) (by decide)).2 ⟨?_, ?_⟩
    (sampleMachine 4 4 8).data [65, 66] rfl
  · intro k hk _
    have htwo : k = 0 ∨ k = 1 := by
      rw [List.length_cons, List.length_singleton] at hk
      omega
    rcases htwo with rfl | rfl
    · exact Option.some_ne_none _
    · exact Option.some_ne_none _
  · intro hall k hk a ha hne heq
    obtain ⟨b, hb⟩ := Option.isSome_iff_exists.1 (hall k hk)
    have haddr : address 4095 k < 0x100000000 := Nat.mod_lt _ (by decide)
    have hpages := (sample_userPhys (by decide) ha (heq.trans hb)).symm.trans
      (sample_userPhys (by decide) haddr hb)
    have hpage := (Prod.mk.inj hpages).1
    have hoff : a % 4096 = address 4095 k % 4096 := congrArg Fin.val (Prod.mk.inj hpages).2
    omega

/-- An address behind the only page table: the null pointer is dereferenced instead of a refusal. -/
theorem copyout_without_table :
    walk (sampleMachine 4 4 8).dirs 512 0x400000 = none ∧
      (sampleMachine 4 4 8).copyout 512 0x400000 [65] = .error .wild :=
  ⟨rfl, rfl⟩

end Xv6
