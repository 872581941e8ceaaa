import Xv6.HeapRuns

/-!
# `malloc` on 32-bit words

`nbytes + sizeof(Header) - 1`, the byte count given to `sbrk` and its signed parameter are words.  A request
close to `2 ^ 32` wraps to one unit, and one of `2 ^ 31` bytes or more asks `sbrk` for a negative number of
bytes, which moves the break down, takes everything, or does nothing and is taken for memory.  For smaller
requests the functions are those of the heap without the words.
-/

namespace Xv6

namespace Umalloc

/-- How a part of a call ends. -/
inductive Outcome where
  | null
  | ptr (p : ℕ)
  /-- The process has touched a page that is not there. -/
  | killed
  /-- The break has moved down.  What the call does in the memory that is left is not followed. -/
  | cut
deriving DecidableEq, Repr

/-- What a call meets: whether the kernel has memory for `sbrk`, and the pages from the break on that can be
touched, as a growth that was given up leaves pages on disk. -/
structure Env where
  granted : Bool
  left : ℕ → Bool

/-! ### `free` -/

def joinUpper (h : Heap) (p bp : ℕ) : Heap :=
  if (bp + 8 * h.size bp) % 2 ^ 32 = h.ptr p then
    (h.setSize bp ((h.size bp + h.size (h.ptr p)) % 2 ^ 32)).setPtr bp (h.ptr (h.ptr p))
  else h.setPtr bp (h.ptr p)

def joinLower (h : Heap) (p bp : ℕ) : Heap :=
  if (p + 8 * h.size p) % 2 ^ 32 = bp then
    (h.setSize p ((h.size p + h.size bp) % 2 ^ 32)).setPtr p (h.ptr bp)
  else h.setPtr p bp

def free (h : Heap) (ap : ℕ) : Except Halt Heap := do
  let bp := ap - 8
  let p ← h.findPlace bp (h.brk + 2) h.freep
  return (joinLower (joinUpper h p bp) p bp).setFreep p

/-! ### `sbrk` -/

/-- `sbrk` with `n` for the word that is read as an `int`, with `growproc` under it. -/
def sbrk (env : Env) (h : Heap) (n : ℕ) : Outcome × Heap :=
  if n = 0 then (.ptr h.brk, h)
  else if n < 2 ^ 31 then
    if env.granted ∧ h.brk + n < kernBase then (.ptr h.brk, h.extend 0 (n / 8)) else (.null, h)
  else
    -- `deallocuvm` is given the wrapped sum as the new size, and 0 is taken for a failure
    let newsz := (h.brk + n) % 2 ^ 32
    if h.brk ≤ newsz then (.ptr h.brk, h)
    else if newsz = 0 then (.killed, h)
    else (.cut, { h with brk := newsz })

/-- Whether the page of `a` can be touched. -/
def touchable (env : Env) (h : Heap) (a : ℕ) : Bool := decide (a / 4096 < pagesOf h.brk) || env.left (a / 4096)

/-- `morecore`; the header it writes is the first access to the memory from `sbrk`. -/
def morecore (env : Env) (h : Heap) (nu : ℕ) : Except Halt (Outcome × Heap) :=
  let nu := Heap.atLeast nu
  match sbrk env h (8 * nu % 2 ^ 32) with
  | (.ptr hp, h) =>
    if touchable env h hp then do
      let h ← free (h.setSize hp nu) (hp + 8)
      return (.ptr h.freep, h)
    else .ok (.killed, h)
  | r => .ok r

/-! ### `malloc` -/

def nunits (nbytes : ℕ) : ℕ := (nbytes + 7) % 2 ^ 32 / 8 + 1

/-- The loop of `malloc`, up to the element before the first block that is large enough. -/
def findBlock (env : Env) (nunits : ℕ) : ℕ → Heap → ℕ → Except Halt (Outcome × Heap)
  | 0, _, _ => .error .livelock
  | fuel + 1, h, prevp =>
    let p := h.ptr prevp
    if nunits ≤ h.size p then .ok (.ptr prevp, h)
    else if p = h.freep then do
      match ← morecore env h nunits with
      | (.ptr p, h) => findBlock env nunits fuel h p
      | r => return r
    else findBlock env nunits fuel h p

/-- What `malloc` does with the block after `prevp`. -/
def take (h : Heap) (prevp n : ℕ) : ℕ × Heap :=
  let p := h.ptr prevp
  if h.size p = n then (p, (h.setPtr prevp (h.ptr p)).setFreep prevp)
  else
    let rest := h.size p - n
    let q := (p + 8 * rest) % 2 ^ 32
    (q, ((h.setSize p rest).setSize q n).setFreep prevp)

def malloc (env : Env) (h : Heap) (nbytes : ℕ) : Except Halt (Outcome × Heap) := do
  match ← findBlock env (nunits nbytes) (2 * h.init.brk + 4) h.init h.init.freep with
  | (.ptr prevp, h) =>
    let (p, h) := take h prevp (nunits nbytes)
    return (.ptr ((p + 8) % 2 ^ 32), h)
  | r => return r

open Heap Ring

variable {h h' : Heap} {ps : List ℕ} {bs : List Block} {b : Block} {env : Env} {p n nu nbytes : ℕ}

/-! ### Below `KERNBASE` nothing wraps -/

/-- `sbrk` as the heap without words has it. -/
def Env.grant (env : Env) : ℕ → Option ℕ := fun _ => if env.granted then some 0 else none

def outcome (r : Option ℕ × Heap) : Outcome × Heap :=
  match r with
  | (none, h) => (.null, h)
  | (some p, h) => (.ptr p, h)

theorem stop_le_brk (ho : HeapOk h ps bs) {x : ℕ} (hx : x ∈ ps) : x + 8 * h.size x ≤ h.brk := by
  by_cases hsize : h.size x = 0
  · have hlow := ho.low
    by_cases hbase : x = h.base
    · omega
    · have := (ho.size x hx hbase).1
      omega
  · exact ho.stop_le hx (by omega)

theorem joinUpper_eq (hstop : p + 8 * h.size p < 2 ^ 32) {q : ℕ} (hnext : h.size (h.ptr q) < 2 ^ 29) :
    joinUpper h q p = h.joinUpper q p := by
  unfold joinUpper Heap.joinUpper
  rw [Nat.mod_eq_of_lt hstop, Nat.mod_eq_of_lt (by omega)]

theorem joinLower_eq {q : ℕ} (hstop : q + 8 * h.size q < 2 ^ 32) (hsize : h.size p < 2 ^ 31) :
    joinLower h q p = h.joinLower q p := by
  unfold joinLower Heap.joinLower
  rw [Nat.mod_eq_of_lt hstop, Nat.mod_eq_of_lt (by omega)]

theorem size_joinUpper_le (h : Heap) (q p : ℕ) :
    (h.joinUpper q p).size p ≤ h.size p + h.size (h.ptr q) := by
  unfold Heap.joinUpper
  split_ifs
  · rw [size_setPtr, size_setSize, if_pos rfl]
  · rw [size_setPtr]
    omega

theorem size_joinUpper_ne (h : Heap) {q p : ℕ} (hne : q ≠ p) : (h.joinUpper q p).size q = h.size q := by
  unfold Heap.joinUpper
  split_ifs
  · rw [size_setPtr, size_setSize, if_neg hne]
  · rw [size_setPtr]

theorem ptr_mem (hl : FreeList h ps) (hp : p ∈ ps) : h.ptr p ∈ ps := by
  obtain ⟨A, R, hps⟩ := List.append_of_mem hp
  rcases hl.next hps with ⟨-, hptr⟩ | ⟨y, R', rfl, hptr⟩
  · rw [hptr]
    exact hl.mem_base
  · rw [hptr, hps]
    simp

theorem free_eq (ho : HeapOk h ps (b :: bs)) (hbrk : h.brk < kernBase) :
    free h (b.addr + 8) = h.free (b.addr + 8) := by
  simp only [kernBase] at hbrk
  obtain ⟨A, p, R, hpl⟩ := ho.exists_place
  have hp : p ∈ ps := by simp [hpl.split]
  have hstop : b.addr + 8 * h.size b.addr ≤ h.brk := by
    rw [ho.header b List.mem_cons_self]
    exact ho.inUse_stop_le List.mem_cons_self
  have hpstop := stop_le_brk ho hp
  have hnext := stop_le_brk ho (ptr_mem ho.toFreeList hp)
  have hupper : joinUpper h p b.addr = h.joinUpper p b.addr := joinUpper_eq (by omega) (by omega)
  have hle := size_joinUpper_le h p b.addr
  have hlower : joinLower (h.joinUpper p b.addr) p b.addr = (h.joinUpper p b.addr).joinLower p b.addr := by
    apply joinLower_eq
    · rw [size_joinUpper_ne h hpl.place.1.ne]
      omega
    · omega
  rw [free, Heap.free, Nat.add_sub_cancel, ho.findPlace hpl]
  change Except.ok _ = Except.ok _
  rw [hupper, hlower]

theorem sbrk_units (env : Env) (h : Heap) (hpos : 0 < n) (hn : 8 * n < 2 ^ 31) :
    sbrk env h (8 * n) =
      if env.granted ∧ h.brk + 8 * n < kernBase then (.ptr h.brk, h.extend 0 n) else (.null, h) := by
  rw [sbrk, if_neg (by omega), if_pos hn, Nat.mul_div_cancel_left _ (by decide)]

theorem sbrk_grant (env : Env) (h : Heap) (n : ℕ) : h.sbrk env.grant n =
    if env.granted ∧ h.brk + 8 * n < kernBase then some (h.brk, h.extend 0 n) else none := by
  unfold Heap.sbrk Env.grant
  cases env.granted with
  | false => rfl
  | true => simp

theorem atLeast_pos (nu : ℕ) : 0 < atLeast nu := by
  unfold atLeast
  split_ifs
  · decide
  · omega

theorem touchable_extend (env : Env) (h : Heap) (hpos : 0 < n) : touchable env (h.extend 0 n) h.brk = true := by
  have hpage : h.brk / 4096 < pagesOf (h.extend 0 n).brk := by
    change h.brk / 4096 < (h.brk + 0 + 8 * n + 4095) / 4096
    omega
  rw [touchable, decide_eq_true hpage]
  rfl

theorem morecore_eq (ho : HeapOk h ps bs) (hnu : 8 * atLeast nu < 2 ^ 31) :
    morecore env h nu = (h.morecore env.grant nu).map outcome := by
  have hpos := atLeast_pos nu
  unfold morecore Heap.morecore
  dsimp only
  rw [Nat.mod_eq_of_lt (by omega), sbrk_units env h hpos hnu, sbrk_grant]
  split_ifs with hroom
  · obtain ⟨ho₁, -⟩ := ho.extend 0 hpos
    have hfree := free_eq ho₁ (show (h.extend 0 (atLeast nu)).brk < kernBase from hroom.2)
    dsimp only [Nat.add_zero] at hfree ⊢
    rw [if_pos (touchable_extend env h hpos), hfree]
    cases ((h.extend 0 (atLeast nu)).setSize h.brk (atLeast nu)).free (h.brk + 8) with
    | error e => rfl
    | ok h₂ => rfl
  · rfl

theorem brk_free {ap : ℕ} (hfree : h.free ap = .ok h') : h'.brk = h.brk := by
  obtain ⟨p, -, hfree⟩ := Run.bind_ok hfree
  cases hfree
  unfold Heap.joinLower Heap.joinUpper
  split_ifs
  · rfl
  · rfl
  · rfl
  · rfl

theorem brk_morecore {grant : ℕ → Option ℕ} {r : Option ℕ} (hbrk : h.brk < kernBase)
    (hrun : h.morecore grant nu = .ok (r, h')) : h'.brk < kernBase := by
  unfold Heap.morecore Heap.sbrk at hrun
  split at hrun
  · cases hrun
    exact hbrk
  · rename_i hp h₁ hsbrk
    obtain ⟨h₂, hfree, hrun⟩ := Run.bind_ok hrun
    cases hrun
    rw [brk_free hfree]
    split at hsbrk
    · cases hsbrk
    · split_ifs at hsbrk with hroom
      cases hsbrk
      exact hroom

theorem findBlock_eq (env : Env) (fuel s : ℕ) (ho : HeapOk h ps bs) (hn : 8 * atLeast n < 2 ^ 31) :
    findBlock env n fuel h s = (Heap.findBlock env.grant n n fuel h s).map outcome := by
  induction fuel generalizing h ps s with
  | zero => rfl
  | succ fuel ih =>
    rw [findBlock, Heap.findBlock]
    split_ifs
    · rfl
    · rw [morecore_eq ho hn]
      rcases ho.morecore env.grant n with hfail | ⟨h₁, ps₁, hmc, ho₁, -⟩
      · rw [hfail]
        rfl
      · rw [hmc]
        exact ih _ ho₁
    · exact ih _ ho

theorem take_eq (ho : HeapOk h ps bs) (hbrk : h.brk < kernBase) {prevp : ℕ} (hp : prevp ∈ ps) :
    take h prevp n = h.take prevp n := by
  simp only [kernBase] at hbrk
  have hstop := stop_le_brk ho (ptr_mem ho.toFreeList hp)
  unfold take Heap.take
  dsimp only
  rw [Nat.mod_eq_of_lt (by omega)]

theorem morecore_none (h : Heap) (env : Env) (nu : ℕ) :
    h.morecore env.grant nu = .ok (none, h) ↔ ¬(env.granted ∧ h.brk + 8 * atLeast nu < kernBase) := by
  rw [Heap.morecore, sbrk_grant]
  split_ifs with hroom
  · refine iff_of_false (fun hrun => ?_) (not_not.2 hroom)
    obtain ⟨h₂, -, hrun⟩ := Run.bind_ok hrun
    cases hrun
  · exact iff_of_true rfl hroom

theorem brk_take (h : Heap) (prevp n : ℕ) : (h.take prevp n).2.brk = h.brk := by
  unfold Heap.take
  dsimp only
  split_ifs
  · rfl
  · rfl

theorem malloc_found {g : Heap} {prevp : ℕ} (hg : HeapOk g ps bs) (hbrk : g.brk < kernBase) (hmem : prevp ∈ ps)
    (hfound : findBlock env (nunits nbytes) (2 * h.init.brk + 4) h.init h.init.freep = .ok (.ptr prevp, g)) :
    malloc env h nbytes = .ok (.ptr ((g.take prevp (nunits nbytes)).1 + 8), (g.take prevp (nunits nbytes)).2) := by
  have hle : (g.take prevp (nunits nbytes)).1 ≤ g.brk := by
    have hstop := stop_le_brk hg (ptr_mem hg.toFreeList hmem)
    unfold Heap.take
    dsimp only
    split_ifs
    · dsimp only
      omega
    · dsimp only
      omega
  simp only [kernBase] at hbrk
  rw [malloc, hfound]
  change Except.ok (Outcome.ptr (((take g prevp (nunits nbytes)).1 + 8) % 2 ^ 32),
    (take g prevp (nunits nbytes)).2) = _
  rw [take_eq hg hbrk hmem, Nat.mod_eq_of_lt (by omega)]

/-- A call for a positive number of bytes, as `sbrk` reads it, is the call without words for as many units. -/
theorem malloc_small (ho : HeapOk h.init ps bs) (hbrk : h.brk < kernBase) {m : ℕ}
    (hm : nunits nbytes = Heap.nunits m) (hn : 8 * atLeast (nunits nbytes) < 2 ^ 31) :
    ∃ r h', h.malloc env.grant m = .ok (r, h') ∧ malloc env h nbytes = .ok (outcome (r, h')) ∧
      h.brk ≤ h'.brk ∧ h'.brk < kernBase ∧
      (r = none ↔ (∀ x ∈ ps, h.init.size x < nunits nbytes) ∧
        ¬(env.granted ∧ h.brk + 8 * atLeast (nunits nbytes) < kernBase)) := by
  have hsame : h.init.brk = h.brk := (init_same h).brk
  have hlen := ho.length_le
  have heq := findBlock_eq env (2 * h.init.brk + 4) h.init.freep ho hn
  rcases ho.findBlock_cases env.grant (Or.inl (le_refl (nunits nbytes)))
    (show 2 * ps.length + 1 < 2 * h.init.brk + 4 by omega) with
    ⟨prevp, hmem, hle, hok⟩ | ⟨hsmall, ⟨hmc, hok⟩ | ⟨prevp, g, qs, hok, hog, hgrows, -, hmc, hmem, hle⟩⟩
  · rw [hok] at heq
    refine ⟨some _, _, ?_, malloc_found ho (hsame.symm ▸ hbrk) hmem heq, ?_, ?_, ?_⟩
    · rw [Heap.malloc, Heap.search, ← hm, hok]
      rfl
    · rw [brk_take, hsame]
    · rw [brk_take, hsame]
      exact hbrk
    · refine iff_of_false (Option.some_ne_none _) fun hc => ?_
      have := hc.1 _ (ptr_mem ho.toFreeList hmem)
      omega
  · rw [hok] at heq
    refine ⟨none, h.init, ?_, ?_, hsame.ge, hsame.symm ▸ hbrk, ?_⟩
    · rw [Heap.malloc, Heap.search, ← hm, hok]
      rfl
    · rw [malloc, heq]
      rfl
    · refine iff_of_true rfl ⟨hsmall, ?_⟩
      rw [← hsame]
      exact (morecore_none h.init env _).1 hmc
  · rw [hok] at heq
    have hbrk' : g.brk < kernBase := brk_morecore (hsame.symm ▸ hbrk) hmc
    refine ⟨some _, _, ?_, malloc_found hog hbrk' hmem heq, ?_, ?_, ?_⟩
    · rw [Heap.malloc, Heap.search, ← hm, hok]
      rfl
    · rw [brk_take, ← hsame]
      exact hgrows.brk
    · rw [brk_take]
      exact hbrk'
    · refine iff_of_false (Option.some_ne_none _) fun hc => ?_
      have hnone := (morecore_none h.init env (nunits nbytes)).2 (hsame.symm ▸ hc.2)
      cases hnone.symm.trans hmc

/-! ### `2 ^ 31` bytes and more -/

/-- The list of `g` in a heap that has obtained what `h` has. -/
def listOf (g h : Heap) : Heap :=
  { g with brk := h.brk, regions := h.regions, pte1 := h.pte1, pteW := h.pteW }

theorem findPlace_listOf (g h : Heap) (bp fuel s : ℕ) :
    (listOf g h).findPlace bp fuel s = g.findPlace bp fuel s := by
  induction fuel generalizing s with
  | zero => rfl
  | succ fuel ih =>
    rw [findPlace, findPlace]
    exact ite_congr rfl (fun _ => rfl) fun _ => ih _

/-- Memory that was not obtained is freed as if it had been, if its end is not taken for `base`. -/
theorem free_beyond (ho : HeapOk h ps bs) (hbrk : h.brk < kernBase) (hpos : 0 < n) (hle : n ≤ 2 ^ 29)
    (hend : (h.brk + 8 * n) % 2 ^ 32 ≠ h.base) :
    ∃ g ps', free (h.setSize h.brk n) (h.brk + 8) = .ok (listOf g h) ∧ HeapOk g ps' bs ∧
      g.brk = h.brk + 8 * n ∧ g.base = h.base ∧ ps'.length ≤ ps.length + 1 ∧ ∃ x ∈ ps', n ≤ g.size x := by
  simp only [kernBase] at hbrk
  obtain ⟨hoe, -⟩ := ho.extend 0 hpos
  rw [Nat.add_zero] at hoe
  set e := (h.extend 0 n).setSize h.brk n with he
  obtain ⟨g, ps', hfree, hog, -, hlen, hsame, x, hx, hsize⟩ := hoe.free
  have hlist : h.setSize h.brk n = listOf e h := rfl
  refine ⟨g, ps', ?_, hog, hsame.brk, hsame.base, hlen, x, hx, hsize⟩
  obtain ⟨A, p, R, hpl⟩ := hoe.exists_place
  -- the new memory is above everything on the list, so `base` comes next
  have hp : p ∈ ps := by simp [hpl.split]
  have hstop := stop_le_brk ho hp
  have hbelow : ∀ y ∈ ps, y < h.brk := by
    intro y hy
    have hlow := ho.low
    have hy' := stop_le_brk ho hy
    by_cases hbase : y = h.base
    · omega
    · have := (ho.size y hy hbase).1
      omega
  have hptr : e.ptr p = h.base := by
    rcases hoe.toFreeList.next hpl.split with ⟨-, hptr⟩ | ⟨y, R', rfl, -⟩
    · exact hptr
    · have hback := hpl.back y List.mem_cons_self
      change h.brk + 8 * n ≤ y at hback
      have := hbelow y (by simp [hpl.split])
      omega
  have hsizeb : e.size h.brk = n := hoe.header _ List.mem_cons_self
  have hsizep : e.size p = h.size p := by
    rw [he, size_setSize, if_neg (hbelow p hp).ne]
    rfl
  have hplace : (listOf e h).findPlace h.brk (h.brk + 2) h.freep = .ok p := by
    rw [findPlace_listOf]
    exact hoe.findPlace_of_length hpl (ho.length_le.trans (Nat.le_add_right _ 2))
  have hupper : joinUpper (listOf e h) p h.brk = listOf (e.joinUpper p h.brk) h := by
    have hlow := ho.low
    rw [joinUpper, if_neg, Heap.joinUpper, if_neg]
    · rfl
    · rw [hptr]
      omega
    · change (h.brk + 8 * e.size h.brk) % 2 ^ 32 ≠ e.ptr p
      rw [hptr, hsizeb]
      exact hend
  have hlower : joinLower (listOf (e.joinUpper p h.brk) h) p h.brk =
      listOf ((e.joinUpper p h.brk).joinLower p h.brk) h := by
    have hle' := size_joinUpper_le e p h.brk
    have hbase : e.size h.base = 0 := hoe.baseSize
    rw [hptr, hbase] at hle'
    rw [joinLower_eq]
    · rw [Heap.joinLower, Heap.joinLower, apply_ite (listOf · h)]
      rfl
    · change p + 8 * (e.joinUpper p h.brk).size p < 2 ^ 32
      rw [size_joinUpper_ne e (hbelow p hp).ne]
      omega
    · change (e.joinUpper p h.brk).size h.brk < 2 ^ 31
      omega
  have hg : e.free (h.brk + 8) = .ok (((e.joinUpper p h.brk).joinLower p h.brk).setFreep p) := by
    rw [Heap.free, Nat.add_sub_cancel, hoe.findPlace hpl]
    rfl
  cases hg.symm.trans hfree
  rw [hlist, free, Nat.add_sub_cancel]
  change ((listOf e h).findPlace h.brk (h.brk + 2) h.freep >>= _) = _
  rw [hplace]
  change Except.ok _ = Except.ok _
  rw [hupper, hlower]
  rfl

theorem atLeast_big (hn : 2 ^ 28 ≤ n) : atLeast n = n := if_neg (by omega)

theorem sbrk_big (env : Env) (hbrk : h.brk < kernBase) (hn : 2 ^ 28 ≤ n) (hle : n ≤ 2 ^ 29) :
    sbrk env h (8 * atLeast n % 2 ^ 32) =
      if n = 2 ^ 29 ∨ h.brk + 8 * n < 2 ^ 32 then (.ptr h.brk, h)
      else if h.brk + 8 * n = 2 ^ 32 then (.killed, h)
      else (.cut, { h with brk := h.brk + 8 * n - 2 ^ 32 }) := by
  simp only [kernBase] at hbrk
  rw [atLeast_big hn]
  by_cases htop : n = 2 ^ 29
  · rw [if_pos (Or.inl htop), htop]
    rfl
  · rw [Nat.mod_eq_of_lt (by omega), sbrk, if_neg (by omega), if_neg (by omega)]
    dsimp only
    by_cases hfits : h.brk + 8 * n < 2 ^ 32
    · rw [Nat.mod_eq_of_lt hfits, if_pos (by omega), if_pos (Or.inr hfits)]
    · have hmod : (h.brk + 8 * n) % 2 ^ 32 = h.brk + 8 * n - 2 ^ 32 := by omega
      rw [hmod, if_neg (by omega), if_neg (show ¬(n = 2 ^ 29 ∨ h.brk + 8 * n < 2 ^ 32) by omega)]
      by_cases hzero : h.brk + 8 * n = 2 ^ 32
      · rw [if_pos (by omega), if_pos hzero]
      · rw [if_neg (by omega), if_neg hzero]

theorem findBlock_big (env : Env) {fuel : ℕ} (ho : HeapOk h ps bs) (hbrk : h.brk < kernBase) (hn : 2 ^ 28 ≤ n)
    (hfuel : ps.length ≤ fuel) :
    findBlock env n fuel h h.freep = (do
      match ← morecore env h n with
      | (.ptr p, h) => findBlock env n (fuel - ps.length) h p
      | r => return r) := by
  simp only [kernBase] at hbrk
  obtain ⟨l, hlinks, hperm, hne⟩ := ho.toFreeList.fromFreep
  have hlen : l.length + 1 = ps.length := by simpa using hperm.length_eq
  rcases pass (F := fun fuel s => findBlock env n fuel h s) (fun prevp => .ok (.ptr prevp, h)) (fun _ _ => rfl)
    hlinks hne (show l.length < fuel by omega) with ⟨prevp, hmem, hle, -⟩ | ⟨-, hmore⟩
  · have := stop_le_brk ho (ptr_mem ho.toFreeList (hperm.mem_iff.1 hmem))
    omega
  · rw [← hlen, ← Nat.sub_sub]
    exact hmore

theorem findBlock_meets (env : Env) {fuel x : ℕ} {g : Heap} (hg : HeapOk g ps bs) (h : Heap) (hx : x ∈ ps)
    (hsize : n ≤ g.size x) (hfuel : ps.length ≤ fuel) :
    ∃ prevp ∈ ps, n ≤ g.size (g.ptr prevp) ∧
      findBlock env n fuel (listOf g h) g.freep = .ok (.ptr prevp, listOf g h) := by
  obtain ⟨l, hlinks, hperm, hne⟩ := hg.toFreeList.fromFreep
  have hlen : l.length + 1 = ps.length := by simpa using hperm.length_eq
  have hlinks' : Links (listOf g h).ptr (g.freep :: l ++ [(listOf g h).freep]) := hlinks
  rcases pass (F := fun fuel s => findBlock env n fuel (listOf g h) s) (fun prevp => .ok (.ptr prevp, listOf g h))
    (fun _ _ => rfl) hlinks' hne (show l.length < fuel by omega) with ⟨prevp, hmem, hle, hok⟩ | ⟨hsmall, -⟩
  · exact ⟨prevp, hperm.mem_iff.1 hmem, hle, hok⟩
  · have hlt : g.size x < n := hsmall x (FreeList.mem_fromFreep hperm hx)
    omega

theorem malloc_beyond (ho : HeapOk h.init ps bs) (hbrk : h.brk < kernBase) (hn : 2 ^ 28 ≤ nunits nbytes)
    (hle : nunits nbytes ≤ 2 ^ 29)
    (hnothing : nunits nbytes = 2 ^ 29 ∨ h.brk + 8 * nunits nbytes < 2 ^ 32)
    (htouch : touchable env h h.brk = true) :
    ∃ p h', malloc env h nbytes = .ok (.ptr p, h') ∧ h'.regions = h.regions ∧ h.base + 16 ≤ p := by
  have hsame := init_same h
  have hlen := ho.length_le
  have hlow := ho.low
  have hbrk₁ : h.init.brk < kernBase := hsame.brk.symm ▸ hbrk
  have hend : (h.init.brk + 8 * nunits nbytes) % 2 ^ 32 ≠ h.init.base := by
    simp only [kernBase] at hbrk₁
    rcases hnothing with htop | hfits
    · rw [htop]
      omega
    · rw [← hsame.brk] at hfits
      rw [Nat.mod_eq_of_lt hfits]
      omega
  obtain ⟨g, qs, hfree, hog, hgbrk, hgbase, hqs, x, hx, hsize⟩ := free_beyond ho hbrk₁ (by omega) hle hend
  have hmore : morecore env h.init (nunits nbytes) = .ok (.ptr g.freep, listOf g h.init) := by
    rw [← hsame.brk] at hnothing
    have htouch₁ : touchable env h.init h.init.brk = true := by
      rw [touchable, hsame.brk]
      exact htouch
    unfold morecore
    dsimp only
    rw [sbrk_big env hbrk₁ hn hle, if_pos hnothing]
    dsimp only
    rw [if_pos htouch₁, atLeast_big hn, hfree]
    rfl
  obtain ⟨prevp, hmem, hfits, hfound⟩ := findBlock_meets env hog h.init hx hsize
    (show qs.length ≤ 2 * h.init.brk + 4 - ps.length by omega)
  have hstop := stop_le_brk hog (ptr_mem hog.toFreeList hmem)
  have hfirst : h.base + 8 ≤ g.ptr prevp := by
    have hbase : g.ptr prevp ≠ g.base := by
      intro hc
      rw [hc, hog.baseSize] at hfits
      omega
    have := (hog.size _ (ptr_mem hog.toFreeList hmem) hbase).2
    rw [hgbase, hsame.base] at this
    exact this
  have hrun : malloc env h nbytes = .ok (.ptr (((take (listOf g h.init) prevp (nunits nbytes)).1 + 8) % 2 ^ 32),
      (take (listOf g h.init) prevp (nunits nbytes)).2) := by
    rw [malloc, findBlock_big env ho hbrk₁ hn (by omega), hmore]
    change (findBlock env (nunits nbytes) (2 * h.init.brk + 4 - ps.length) (listOf g h.init) g.freep >>= _) = _
    rw [hfound]
    rfl
  refine ⟨_, _, hrun, ?_, ?_⟩
  · unfold take
    dsimp only
    split_ifs
    · exact hsame.regions
    · exact hsame.regions
  · simp only [kernBase] at hbrk₁
    have hp : (take (listOf g h.init) prevp (nunits nbytes)).1 =
        g.ptr prevp + 8 * (g.size (g.ptr prevp) - nunits nbytes) := by
      unfold take
      dsimp only
      change (if g.size (g.ptr prevp) = nunits nbytes then _ else _ : ℕ × Heap).1 = _
      split_ifs with heq
      · rw [heq, Nat.sub_self]
        rfl
      · exact Nat.mod_eq_of_lt (by change g.ptr prevp + 8 * (g.size (g.ptr prevp) - nunits nbytes) < _; omega)
    rw [hp, Nat.mod_eq_of_lt (by omega)]
    omega

theorem morecore_fails {r : Outcome} {h₁ : Heap} (hsbrk : sbrk env h (8 * atLeast nu % 2 ^ 32) = (r, h₁))
    (hr : ∀ p, r ≠ .ptr p) : morecore env h nu = .ok (r, h₁) := by
  unfold morecore
  dsimp only
  rw [hsbrk]
  cases r with
  | ptr p => exact absurd rfl (hr p)
  | null => rfl
  | killed => rfl
  | cut => rfl

theorem morecore_faults {h₁ : Heap} (hsbrk : sbrk env h (8 * atLeast nu % 2 ^ 32) = (.ptr p, h₁))
    (htouch : touchable env h₁ p = false) : morecore env h nu = .ok (.killed, h₁) := by
  unfold morecore
  dsimp only
  rw [hsbrk]
  dsimp only
  rw [if_neg (by rw [htouch]; decide)]

theorem malloc_stops {r : Outcome} {h₁ : Heap} (ho : HeapOk h.init ps bs) (hbrk : h.brk < kernBase)
    (hn : 2 ^ 28 ≤ nunits nbytes) (hmore : morecore env h.init (nunits nbytes) = .ok (r, h₁))
    (hr : ∀ p, r ≠ .ptr p) : malloc env h nbytes = .ok (r, h₁) := by
  have hlen := ho.length_le
  rw [malloc, findBlock_big env ho ((init_same h).brk.symm ▸ hbrk) hn (by omega), hmore]
  cases r with
  | ptr p => exact absurd rfl (hr p)
  | null => rfl
  | killed => rfl
  | cut => rfl

/-! ### Enough memory or none -/

/-- What a call for `nbytes` bytes owes the program: all of them, if it returns a pointer, apart from what is
in use, and no less memory than before. -/
structure Serves (s : Alloc) (nbytes : ℕ) (r : Outcome) (h : Heap) : Prop where
  owned : ∀ p, r = .ptr p → ∀ x, p ≤ x → x < p + nbytes → h.Owned x ∧ x < h.brk
  apart : ∀ p, r = .ptr p → ∀ l ∈ s.live, p + nbytes ≤ l.ptr ∨ l.ptr + l.bytes ≤ p
  brk : s.heap.brk ≤ h.brk

/-- When a call does: the request is below `2 ^ 31 - 15` bytes, or it wraps to one unit and there is none, or
`sbrk` takes all memory or leaves the break where there is no page behind it. -/
def Fits (env : Env) (h : Heap) (nbytes : ℕ) : Prop :=
  nbytes ≤ 2 ^ 31 - 16 ∨
  (2 ^ 32 - 7 ≤ nbytes ∧ h.init.ptr h.base = h.base ∧ ¬(env.granted ∧ h.brk + 32768 < kernBase)) ∨
  (2 ^ 31 - 16 < nbytes ∧ nbytes < 2 ^ 32 - 7 ∧
    (h.brk + 8 * nunits nbytes = 2 ^ 32 ∨
      (nunits nbytes = 2 ^ 29 ∨ h.brk + 8 * nunits nbytes < 2 ^ 32) ∧ touchable env h h.brk = false))

inductive Call where
  | malloc (nbytes : ℕ) (env : Env)
  | free (ap : ℕ)
  | write (mem : ℕ → Header)

/-- A call of a program; a process that is gone makes no further ones. -/
def step (s : Alloc) : Call → Except Halt Alloc
  | .malloc nbytes env => do
    let (r, h) ← malloc env s.heap nbytes
    match r with
    | .ptr p => return s.give h (some p) nbytes .malloc
    | .null => return s.give h none nbytes .malloc
    | _ => .error .wild
  | .free ap => do
    let h ← free s.heap ap
    return s.drop h ap
  | .write mem => return { s with heap := { s.heap with mem := mem } }

/-- The requests fit, only pointers in hand are freed, and the program writes to the bytes it has asked for
and to no other. -/
def Legal (s : Alloc) : Call → Prop
  | .malloc nbytes env => nbytes < 2 ^ 32 ∧ Fits env s.heap nbytes
  | .free ap => ∃ l ∈ s.live, l.ptr = ap
  | .write mem => s.Legal (.write mem)

section
variable {s s' : Alloc} {lost : ℕ}

theorem owned_lt (ho : HeapOk h.init ps bs) {x : ℕ} (hx : h.Owned x) : x < h.brk := by
  obtain ⟨r, hr, -, hlt⟩ := hx
  have hsame := init_same h
  have hle := ho.regions r (hsame.regions.symm ▸ hr)
  rw [hsame.brk] at hle
  omega

theorem small (hi : s.Inv ps lost) (hbrk : s.heap.brk < kernBase) (env : Env) {m : ℕ}
    (hm : nunits nbytes = Heap.nunits m) (hn : 8 * atLeast (nunits nbytes) < 2 ^ 31) :
    ∃ r h' ps', malloc env s.heap nbytes = .ok (outcome (r, h')) ∧ (s.give h' r m .malloc).Inv ps' lost ∧
      s.heap.brk ≤ h'.brk ∧ h'.brk < kernBase ∧
      (r = none ↔ (∀ x ∈ ps, s.heap.init.size x < nunits nbytes) ∧
        ¬(env.granted ∧ s.heap.brk + 8 * atLeast (nunits nbytes) < kernBase)) := by
  obtain ⟨r, h', hrun, hwords, hge, hlt, hnone⟩ := malloc_small hi.ok hbrk hm hn
  obtain ⟨s', ps', hstep, hi'⟩ := hi.malloc env.grant m
  change (s.heap.malloc env.grant m >>= _) = _ at hstep
  rw [hrun] at hstep
  cases hstep
  exact ⟨r, h', ps', hwords, hi', hge, hlt, hnone⟩

theorem serves_nothing {r : Outcome} (hr : ∀ p, r ≠ .ptr p) (hge : s.heap.brk ≤ h.brk) : Serves s nbytes r h :=
  ⟨fun p hp => absurd hp (hr p), fun p hp => absurd hp (hr p), hge⟩

theorem serves_of_inv {h' : Heap} {r : Option ℕ} (hi : (s.give h' r nbytes .malloc).Inv ps lost)
    (hge : s.heap.brk ≤ h'.brk) : Serves s nbytes (outcome (r, h')).1 h' := by
  cases r with
  | none => exact serves_nothing (by simp [outcome]) hge
  | some p =>
    obtain ⟨qs, hsafe⟩ := hi.safe
    refine ⟨fun q hq x hlo hhi => ?_, fun q hq l hl => ?_, hge⟩
    · cases hq
      have howned := (hsafe.owned _ List.mem_cons_self).2 x (by change p - 8 ≤ x; omega) hhi
      exact ⟨howned, owned_lt hi.ok howned⟩
    · cases hq
      have hapart := (List.pairwise_cons.1 hsafe.live).1 l hl
      change p + nbytes ≤ l.ptr - 8 ∨ l.ptr + l.bytes ≤ p - 8 at hapart
      omega

theorem nunits_small (hn : nbytes ≤ 2 ^ 31 - 16) :
    nunits nbytes = Heap.nunits nbytes ∧ 8 * atLeast (nunits nbytes) < 2 ^ 31 := by
  have hmod : nunits nbytes = (nbytes + 7) / 8 + 1 := by
    rw [nunits, Nat.mod_eq_of_lt (by omega)]
  refine ⟨hmod, ?_⟩
  unfold atLeast
  split_ifs
  · decide
  · omega

theorem no_unit_iff (hl : FreeList h ps) : (∀ x ∈ ps, h.size x < 1) ↔ h.ptr h.base = h.base := by
  constructor
  · intro hnone
    by_contra hne
    have hmem := ptr_mem hl hl.mem_base
    have := (hl.size _ hmem hne).1
    have := hnone _ hmem
    omega
  · intro hptr x hx
    rcases hl.next (A := []) hl.eq_cons with ⟨htail, -⟩ | ⟨y, R, htail, hy⟩
    · rw [hl.eq_cons, htail, List.mem_singleton] at hx
      rw [hx, hl.baseSize]
      decide
    · -- the element after `base` would be `base`
      have hlt := (hl.lt_of_mem (A := []) hl.eq_cons (htail ▸ List.mem_cons_self : y ∈ ps.tail)).1
      omega

theorem nunits_wrap (hlo : 2 ^ 32 - 7 ≤ nbytes) (hhi : nbytes < 2 ^ 32) : nunits nbytes = 1 := by
  unfold nunits
  omega

theorem nunits_big (hlo : 2 ^ 31 - 16 < nbytes) (hhi : nbytes < 2 ^ 32 - 7) :
    2 ^ 28 ≤ nunits nbytes ∧ nunits nbytes ≤ 2 ^ 29 := by
  unfold nunits
  omega

theorem wrap (hi : s.Inv ps lost) (hbrk : s.heap.brk < kernBase) (env : Env) (hlo : 2 ^ 32 - 7 ≤ nbytes)
    (hhi : nbytes < 2 ^ 32) :
    ∃ r h' ps', malloc env s.heap nbytes = .ok (outcome (r, h')) ∧ (s.give h' r 0 .malloc).Inv ps' lost ∧
      s.heap.brk ≤ h'.brk ∧ h'.brk < kernBase ∧
      (r = none ↔ s.heap.init.ptr s.heap.base = s.heap.base ∧
        ¬(env.granted ∧ s.heap.brk + 32768 < kernBase)) := by
  have hone := nunits_wrap hlo hhi
  obtain ⟨r, h', ps', hrun, hi', hge, hlt, hnone⟩ := small hi hbrk env
    (hone.trans (by decide : 1 = Heap.nunits 0)) (by rw [hone]; decide)
  rw [hone, no_unit_iff hi.ok.toFreeList, (init_same s.heap).base, show 8 * atLeast 1 = 32768 by decide] at hnone
  exact ⟨r, h', ps', hrun, hi', hge, hlt, hnone⟩

theorem wrap_iff (hi : s.Inv ps lost) (hbrk : s.heap.brk < kernBase) (env : Env) (hlo : 2 ^ 32 - 7 ≤ nbytes)
    (hhi : nbytes < 2 ^ 32) :
    ∃ r h', malloc env s.heap nbytes = .ok (r, h') ∧
      (Serves s nbytes r h' ↔
        s.heap.init.ptr s.heap.base = s.heap.base ∧ ¬(env.granted ∧ s.heap.brk + 32768 < kernBase)) := by
  obtain ⟨r, h', ps', hrun, -, hge, hlt, hnone⟩ := wrap hi hbrk env hlo hhi
  cases r with
  | none => exact ⟨_, _, hrun, iff_of_true (serves_nothing (by simp) hge) (hnone.1 rfl)⟩
  | some p =>
    refine ⟨_, _, hrun, iff_of_false (fun hserves => ?_) fun hc => Option.some_ne_none p (hnone.2 hc)⟩
    have hx := (hserves.owned p rfl (p + nbytes - 1) (by omega) (by omega)).2
    simp only [kernBase] at hlt
    omega

/-- A request of `2 ^ 31` bytes or so is served only if the process ends. -/
theorem big_iff (hi : s.Inv ps lost) (hbrk : s.heap.brk < kernBase) (env : Env) (hlo : 2 ^ 31 - 16 < nbytes)
    (hhi : nbytes < 2 ^ 32 - 7) :
    ∃ r h', malloc env s.heap nbytes = .ok (r, h') ∧
      (Serves s nbytes r h' ↔ s.heap.brk + 8 * nunits nbytes = 2 ^ 32 ∨
        (nunits nbytes = 2 ^ 29 ∨ s.heap.brk + 8 * nunits nbytes < 2 ^ 32) ∧
          touchable env s.heap s.heap.brk = false) ∧
      (Serves s nbytes r h' → r = .killed) := by
  obtain ⟨hn, hle⟩ := nunits_big hlo hhi
  have hsame := init_same s.heap
  have hbrk₁ : s.heap.init.brk < kernBase := hsame.brk.symm ▸ hbrk
  have hpos : 0 < s.heap.brk := by
    have := hi.ok.low
    rw [hsame.brk] at this
    omega
  have hsbrk := sbrk_big env hbrk₁ hn hle
  rw [hsame.brk] at hsbrk
  by_cases hnothing : nunits nbytes = 2 ^ 29 ∨ s.heap.brk + 8 * nunits nbytes < 2 ^ 32
  · have hne : s.heap.brk + 8 * nunits nbytes ≠ 2 ^ 32 := by omega
    rw [if_pos hnothing] at hsbrk
    cases htouch : touchable env s.heap s.heap.brk with
    | true =>
      obtain ⟨p, h', hrun, hregions, hp⟩ := malloc_beyond hi.ok hbrk hn hle hnothing htouch
      have hfails : ¬Serves s nbytes (.ptr p) h' := by
        intro hserves
        obtain ⟨r, hr, -, hlt⟩ := (hserves.owned p rfl (p + nbytes - 1) (by omega) (by omega)).1
        rw [hregions] at hr
        have hend := hi.ok.regions r (hsame.regions.symm ▸ hr)
        simp only [kernBase] at hbrk₁
        omega
      refine ⟨_, _, hrun, iff_of_false hfails ?_, fun hserves => absurd hserves hfails⟩
      rintro (hall | ⟨-, hfalse⟩)
      · exact hne hall
      · cases hfalse
    | false =>
      have htouch₁ : touchable env s.heap.init s.heap.brk = false := by
        rw [touchable, hsame.brk]
        exact htouch
      have hrun := malloc_stops hi.ok hbrk hn (morecore_faults hsbrk htouch₁) (by simp)
      exact ⟨_, _, hrun, iff_of_true (serves_nothing (by simp) hsame.brk.ge) (Or.inr ⟨hnothing, rfl⟩), fun _ => rfl⟩
  · rw [if_neg hnothing] at hsbrk
    by_cases hall : s.heap.brk + 8 * nunits nbytes = 2 ^ 32
    · rw [if_pos hall] at hsbrk
      have hrun := malloc_stops hi.ok hbrk hn (morecore_fails hsbrk (by simp)) (by simp)
      exact ⟨_, _, hrun, iff_of_true (serves_nothing (by simp) hsame.brk.ge) (Or.inl hall), fun _ => rfl⟩
    · rw [if_neg hall] at hsbrk
      have hrun := malloc_stops hi.ok hbrk hn (morecore_fails hsbrk (by simp)) (by simp)
      have hfails : ∀ {h₁ : Heap}, h₁.brk = s.heap.brk + 8 * nunits nbytes - 2 ^ 32 →
          ¬Serves s nbytes .cut h₁ := by
        intro h₁ hb hserves
        have := hserves.brk
        omega
      refine ⟨_, _, hrun, iff_of_false (hfails rfl) ?_, fun hserves => absurd hserves (hfails rfl)⟩
      rintro (hc | ⟨hc, -⟩)
      · exact hall hc
      · exact hnothing hc

theorem serves_iff (hi : s.Inv ps lost) (hbrk : s.heap.brk < kernBase) (env : Env) (hn : nbytes < 2 ^ 32) :
    ∃ r h', malloc env s.heap nbytes = .ok (r, h') ∧ (Serves s nbytes r h' ↔ Fits env s.heap nbytes) := by
  by_cases hsmall : nbytes ≤ 2 ^ 31 - 16
  · obtain ⟨hm, hunits⟩ := nunits_small hsmall
    obtain ⟨r, h', ps', hrun, hi', hge, -⟩ := small hi hbrk env hm hunits
    have hserves := serves_of_inv hi' hge
    cases r with
    | none => exact ⟨_, _, hrun, iff_of_true hserves (Or.inl hsmall)⟩
    | some p => exact ⟨_, _, hrun, iff_of_true hserves (Or.inl hsmall)⟩
  · by_cases hwrap : 2 ^ 32 - 7 ≤ nbytes
    · obtain ⟨r, h', hrun, hserves⟩ := wrap_iff hi hbrk env hwrap hn
      refine ⟨r, h', hrun, hserves.trans ⟨fun hc => Or.inr (Or.inl ⟨hwrap, hc⟩), ?_⟩⟩
      rintro (hc | ⟨-, hc⟩ | ⟨-, hc, -⟩)
      · exact absurd hc hsmall
      · exact hc
      · omega
    · obtain ⟨r, h', hrun, hserves, -⟩ := big_iff hi hbrk env (not_le.1 hsmall) (not_le.1 hwrap)
      refine ⟨r, h', hrun, hserves.trans
        ⟨fun hc => Or.inr (Or.inr ⟨not_le.1 hsmall, not_le.1 hwrap, hc⟩), ?_⟩⟩
      rintro (hc | ⟨hc, -⟩ | ⟨-, -, hc⟩)
      · exact absurd hc hsmall
      · exact absurd hc hwrap
      · exact hc

theorem step_malloc {q : Option ℕ} {h' : Heap} {nbytes : ℕ} (hrun : malloc env s.heap nbytes = .ok (outcome (q, h'))) :
    step s (.malloc nbytes env) = .ok (s.give h' q nbytes .malloc) := by
  change (malloc env s.heap nbytes >>= _) = _
  rw [hrun]
  cases q with
  | none => rfl
  | some p => rfl

theorem free_live {l : Live} (hi : s.Inv ps lost) (hbrk : s.heap.brk < kernBase) (hl : l ∈ s.live) :
    free s.heap l.ptr = s.heap.free l.ptr := by
  have hok := hi.heapOk (hi.freep_ne hl)
  obtain ⟨L, R, hlive⟩ := List.append_of_mem (List.mem_map_of_mem (f := Live.block) hl)
  have hfree := free_eq (hok.perm (hlive ▸ List.perm_middle)) hbrk
  have hlow := (hok.inUse l.block (List.mem_map_of_mem hl)).2.1
  have haddr : l.block.addr + 8 = l.ptr := by
    change s.heap.base + 8 ≤ l.ptr - 8 at hlow
    change l.ptr - 8 + 8 = l.ptr
    omega
  rwa [haddr] at hfree

def Kept (s : Alloc) : Prop := (∃ ps lost, s.Inv ps lost) ∧ s.heap.brk < kernBase

theorem Kept.allocates (h : Kept s) (hn : nbytes < 2 ^ 32) (hfits : Fits env s.heap nbytes)
    (hstep : step s (.malloc nbytes env) = .ok s') : Kept s' := by
  obtain ⟨⟨ps, lost, hi⟩, hbrk⟩ := h
  rcases hfits with hsmall | ⟨hwrap, hempty, hrefused⟩ | ⟨hlo, hhi, hends⟩
  · obtain ⟨hm, hunits⟩ := nunits_small hsmall
    obtain ⟨r, h', ps', hrun, hi', -, hlt, -⟩ := small hi hbrk env hm hunits
    cases (step_malloc hrun).symm.trans hstep
    refine ⟨⟨ps', lost, hi'⟩, ?_⟩
    cases r with
    | none => exact hlt
    | some p => exact hlt
  · obtain ⟨r, h', ps', hrun, hi', -, hlt, hnone⟩ := wrap hi hbrk env hwrap hn
    obtain rfl := hnone.2 ⟨hempty, hrefused⟩
    cases (step_malloc hrun).symm.trans hstep
    exact ⟨⟨ps', lost, hi'⟩, hlt⟩
  · obtain ⟨r, h', hrun, hserves, hkilled⟩ := big_iff hi hbrk env hlo hhi
    change (malloc env s.heap nbytes >>= _) = _ at hstep
    rw [hrun, hkilled (hserves.2 hends)] at hstep
    cases hstep

theorem Kept.step {c : Call} (h : Kept s) (hc : Legal s c) (hstep : step s c = .ok s') : Kept s' := by
  cases c with
  | malloc nbytes env => exact h.allocates hc.1 hc.2 hstep
  | free ap =>
    obtain ⟨⟨ps, lost, hi⟩, hbrk⟩ := h
    obtain ⟨l, hl, rfl⟩ := hc
    obtain ⟨h', ps', hfree, hi'⟩ := hi.free hl
    have hwords : free s.heap l.ptr = .ok h' := (free_live hi hbrk hl).trans hfree
    change (free s.heap l.ptr >>= _) = _ at hstep
    rw [hwords] at hstep
    cases hstep
    refine ⟨⟨ps', lost, hi'⟩, ?_⟩
    change h'.brk < kernBase
    rw [brk_free hfree]
    exact hbrk
  | write mem =>
    obtain ⟨⟨ps, lost, hi⟩, hbrk⟩ := h
    cases hstep
    exact ⟨⟨ps, lost, hi.write hc⟩, hbrk⟩

end

/-- In every state that a program reaches by `malloc` and `free`, by requests that fit, and for every request:
the call is served if and only if the request fits. -/
theorem malloc_serves_iff {s₀ s : Alloc} {cs : List Call} (hfresh : s₀.Fresh) (hbrk : s₀.heap.brk < kernBase)
    (hlegal : Run.Admits step Legal cs s₀) (hrun : Run.run step cs s₀ = .ok s) (env : Env) {nbytes : ℕ}
    (hn : nbytes < 2 ^ 32) :
    (∃ r h', malloc env s.heap nbytes = .ok (r, h') ∧ Serves s nbytes r h') ↔ Fits env s.heap nbytes := by
  have hkept : Kept s := Run.invariant (fun s c s' h hc hs => h.step hc hs) ⟨⟨_, _, hfresh.inv⟩, hbrk⟩ hlegal hrun
  obtain ⟨⟨ps, lost, hi⟩, hbrk'⟩ := hkept
  obtain ⟨r, h', hmalloc, hserves⟩ := serves_iff hi hbrk' env hn
  rw [← hserves]
  constructor
  · rintro ⟨r', h'', hmalloc', hserves'⟩
    cases hmalloc.symm.trans hmalloc'
    exact hserves'
  · exact fun hserves' => ⟨r, h', hmalloc, hserves'⟩

/-- The kernel has memory, and no page is left behind the break. -/
def plenty : Env := ⟨true, fun _ => false⟩

theorem malloc_serves_iff_sample :
    ∃ s, Run.run step [.malloc 100 plenty] Alloc.sampleAlloc = .ok s ∧
      ((∃ r h', malloc plenty s.heap 4294967295 = .ok (r, h') ∧ Serves s 4294967295 r h') ↔
        Fits plenty s.heap 4294967295) := by
  have hlegal : Run.Admits step Legal [.malloc 100 plenty] Alloc.sampleAlloc :=
    ⟨⟨by decide, Or.inl (by decide)⟩, fun _ _ => trivial⟩
  have hends : Run.endsIn (fun _ => true) (Run.run step [.malloc 100 plenty] Alloc.sampleAlloc) = true := by
    decide +kernel
  obtain ⟨s, hrun, -⟩ := Run.of_endsIn hends
  exact ⟨s, hrun, malloc_serves_iff Alloc.sampleAlloc_fresh (by decide) hlegal hrun plenty (by decide)⟩

/-- The first call of a program: a request of `2 ^ 32 - 1` bytes gets a block that ends at the break, and one of
`2 ^ 32 - 16` bytes lowers the break. -/
theorem malloc_serves_less :
    (∃ h', malloc plenty Alloc.sampleAlloc.heap 4294967295 = .ok (.ptr 36864, h') ∧ h'.brk = 36864 ∧
        ¬Serves Alloc.sampleAlloc 4294967295 (.ptr 36864) h') ∧
      ∃ h', malloc plenty Alloc.sampleAlloc.heap 4294967280 = .ok (.cut, h') ∧
        h'.brk < Alloc.sampleAlloc.heap.brk := by
  constructor
  · have hends : Run.endsIn (fun r => r.1 = .ptr 36864 && r.2.brk = 36864)
        (malloc plenty Alloc.sampleAlloc.heap 4294967295) = true := by
      decide +kernel
    obtain ⟨⟨r, h'⟩, hrun, htest⟩ := Run.of_endsIn hends
    obtain ⟨hr, hbrk⟩ := Bool.and_eq_true_iff.1 htest
    obtain rfl : r = .ptr 36864 := of_decide_eq_true hr
    have hbrk : h'.brk = 36864 := of_decide_eq_true hbrk
    refine ⟨h', hrun, hbrk, fun hserves => ?_⟩
    have := (hserves.owned 36864 rfl 36864 le_rfl (by decide)).2
    omega
  · have hends : Run.endsIn (fun r => r.1 = .cut && r.2.brk < Alloc.sampleAlloc.heap.brk)
        (malloc plenty Alloc.sampleAlloc.heap 4294967280) = true := by
      decide +kernel
    obtain ⟨⟨r, h'⟩, hrun, htest⟩ := Run.of_endsIn hends
    obtain ⟨hr, hbrk⟩ := Bool.and_eq_true_iff.1 htest
    obtain rfl : r = .cut := of_decide_eq_true hr
    exact ⟨h', hrun, of_decide_eq_true hbrk⟩

end Umalloc

end Xv6
