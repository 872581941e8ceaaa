import Mathlib.Data.List.Pairwise
import Mathlib.Data.List.Sort
import Xv6.Policy

/-!
# Second chance as a rotating queue

The used entries of `ram_monitor`, in the order of their numbers, are a queue.  A round of
`select_SCFIFO` looks at its first entry: one whose page has been accessed loses the bit and goes to
the end, the first other one is returned.  A whole call therefore moves the longest run of accessed
entries from the front of the queue to its end (`selectSCFIFO_rotates`).  This needs the numbers of
the used entries not to lie above `last_in_queue`, from which the new ones are taken; `LoadOrder` is
that and more, and holds in every run before the counter wraps.
-/

namespace Xv6

open Machine

/-- The used entries of `ram_monitor` in increasing order of `place_in_queue`. -/
def Proc.queue (p : Proc) : List (Fin 16) :=
  ((List.finRange 16).filter fun i => (p.ramMonitor i).used).insertionSort fun i j =>
    (p.ramMonitor i).placeInQueue ≤ (p.ramMonitor j).placeInQueue

/-- The accessed bit of the page that entry `i` tracks. -/
def Machine.isAccessed (m : Machine) (i : Fin 16) : Bool :=
  match m.walkpgdir (m.proc.ramMonitor i).pgdir (m.proc.ramMonitor i).pVa with
  | none => false
  | some pte => flagOn pte pteA

/-- Entry `e` tracks the page of `va` in the directory `pgdir`. -/
def PMonitor.Tracks (e : PMonitor) (pgdir va : ℕ) : Prop :=
  pgdir = e.pgdir ∧ pdx va = pdx e.pVa ∧ ptx va = ptx e.pVa

instance (e : PMonitor) (pgdir va : ℕ) : Decidable (e.Tracks pgdir va) :=
  inferInstanceAs (Decidable (_ ∧ _ ∧ _))

/-- What a call of `select_SCFIFO` finds: numbers that are all different, room for one more number
per entry, and tracked pages that are all different and have a page table. -/
structure Queued (m : Machine) : Prop where
  places : ∀ i j, (m.proc.ramMonitor i).used → (m.proc.ramMonitor j).used →
    (m.proc.ramMonitor i).placeInQueue = (m.proc.ramMonitor j).placeInQueue → i = j
  int : -0x80000000 ≤ m.proc.lastInQueue
  room : m.proc.lastInQueue + 16 < 0x80000000
  uint : ∀ i, (m.proc.ramMonitor i).used → (m.proc.ramMonitor i).pVa < 0x100000000
  pages : ∀ i j, (m.proc.ramMonitor i).used → (m.proc.ramMonitor j).used →
    (m.proc.ramMonitor i).pgdir = (m.proc.ramMonitor j).pgdir →
    (m.proc.ramMonitor i).pVa / 4096 = (m.proc.ramMonitor j).pVa / 4096 → i = j
  pte : ∀ i, (m.proc.ramMonitor i).used →
    (m.walkpgdir (m.proc.ramMonitor i).pgdir (m.proc.ramMonitor i).pVa).isSome

/-- No used entry has a number that `last_in_queue` has still to reach. -/
def Behind (p : Proc) : Prop :=
  ∀ i, (p.ramMonitor i).used → (p.ramMonitor i).placeInQueue ≤ p.lastInQueue

/-- The entries of `l` got new numbers and their pages lost the accessed bit; everything else is as
before. -/
structure Swept (m : Machine) (l : List (Fin 16)) (m' : Machine) : Prop where
  kept : ∀ i, i ∉ l → m'.proc.ramMonitor i = m.proc.ramMonitor i
  moved : ∀ i ∈ l, ∃ place,
    m'.proc.ramMonitor i = { m.proc.ramMonitor i with placeInQueue := place }
  walk : ∀ pgdir va, m'.walkpgdir pgdir va =
    if ∃ i ∈ l, (m.proc.ramMonitor i).Tracks pgdir va then
      (m.walkpgdir pgdir va).map (· &&& ~~~pteA)
    else m.walkpgdir pgdir va
  tables : ∀ pgdir k, (m'.dirs pgdir k).map (·.frame) = (m.dirs pgdir k).map (·.frame)
  rest : ∃ dirs ramMonitor, m' = { m with
    dirs := dirs
    proc := { m.proc with
      ramMonitor := ramMonitor
      lastInQueue := m.proc.lastInQueue + l.length } }

/-! ### The queue -/

/-- The list `l` of entries in the order of their numbers. -/
def InOrder (p : Proc) (l : List (Fin 16)) : Prop :=
  l.Pairwise fun i j => (p.ramMonitor i).placeInQueue < (p.ramMonitor j).placeInQueue

section

variable {p : Proc} {l : List (Fin 16)}

theorem InOrder.inj (h : InOrder p l) {i j : Fin 16} (hi : i ∈ l) (hj : j ∈ l)
    (heq : (p.ramMonitor i).placeInQueue = (p.ramMonitor j).placeInQueue) : i = j := by
  have : Std.Symm fun i j => (p.ramMonitor i).placeInQueue ≠ (p.ramMonitor j).placeInQueue :=
    ⟨fun _ _ => Ne.symm⟩
  by_contra hne
  exact (h.imp ne_of_lt).forall hi hj hne heq

end

namespace Proc

variable {p : Proc} {i : Fin 16} {l : List (Fin 16)}

theorem mem_queue : i ∈ p.queue ↔ (p.ramMonitor i).used := by
  simp [queue]

theorem queue_nodup (p : Proc) : p.queue.Nodup :=
  (List.perm_insertionSort _ _).nodup_iff.2 ((List.nodup_finRange 16).filter _)

theorem queue_sorted (p : Proc) : p.queue.Pairwise fun i j =>
    (p.ramMonitor i).placeInQueue ≤ (p.ramMonitor j).placeInQueue := by
  have : Std.Total fun i j => (p.ramMonitor i).placeInQueue ≤ (p.ramMonitor j).placeInQueue :=
    ⟨fun _ _ => le_total _ _⟩
  have : IsTrans (Fin 16) fun i j =>
      (p.ramMonitor i).placeInQueue ≤ (p.ramMonitor j).placeInQueue :=
    ⟨fun _ _ _ => le_trans⟩
  exact List.pairwise_insertionSort _ _

/-- With different numbers the queue is the only list of the used entries in order. -/
theorem queue_eq (horder : InOrder p l) (hmem : ∀ i, i ∈ l ↔ (p.ramMonitor i).used) :
    p.queue = l := by
  have hnodup : l.Nodup := by
    apply horder.imp
    rintro i j hlt rfl
    exact lt_irrefl _ hlt
  have hperm : p.queue.Perm l :=
    (List.perm_ext_iff_of_nodup p.queue_nodup hnodup).2 fun i => mem_queue.trans (hmem i).symm
  apply hperm.eq_of_pairwise _ p.queue_sorted (horder.imp le_of_lt)
  intro i j hi hj hij hji
  exact horder.inj (hperm.mem_iff.1 hi) hj (le_antisymm hij hji)

theorem oldest_eq_head {rest : List (Fin 16)} (horder : InOrder p (i :: rest))
    (hmem : ∀ j, j ∈ i :: rest ↔ (p.ramMonitor j).used)
    (hle : (p.ramMonitor i).placeInQueue ≤ 0x7FFFFFFF) : p.oldest = some i := by
  have hi : (p.ramMonitor i).used := (hmem i).1 List.mem_cons_self
  obtain ⟨j, hj⟩ := oldest_isSome hi hle
  have hmin := Scan.rel_of_best (p := fun i => (p.ramMonitor i).used) le_refl
    (fun _ _ _ => le_trans) (fun _ _ h => le_of_lt (not_le.1 h)) hj i (List.mem_finRange i) hi
  rw [hj]
  rcases List.mem_cons.1 ((hmem j).2 (used_of_oldest hj)) with rfl | hrest
  · rfl
  · exact absurd hmin (not_le.2 ((List.pairwise_cons.1 horder).1 j hrest))

end Proc

/-! ### One round -/

section

variable {m m' m'' : Machine} {i j : Fin 16} {pte : Pte} {l : List (Fin 16)}

/-- The state after entry `i`, whose page has the entry `pte`, got its second chance. -/
def Machine.requeue (m : Machine) (i : Fin 16) (pte : Pte) : Machine :=
  let e := m.proc.ramMonitor i
  let last := incr m.proc.lastInQueue
  (m.setPte e.pgdir e.pVa (pte &&& ~~~pteA)).setProc
    { m.proc.setRam i { e with placeInQueue := last } with lastInQueue := last }

theorem frame_store (dirs : ℕ → PgDir) (d a : ℕ) (y : Pte) (d' k : ℕ) :
    (store dirs d a y d' k).map (·.frame) = (dirs d' k).map (·.frame) := by
  unfold store
  cases ht : dirs d (pdx a) with
  | none => rfl
  | some t =>
    by_cases hd : d' = d
    · subst hd
      by_cases hk : k = pdx a
      · simp [hk, ht]
      · simp [hk]
    · simp [hd]

theorem Swept.refl (m : Machine) : Swept m [] m where
  kept _ _ := rfl
  moved _ hi := by cases hi
  walk _ _ := by simp
  tables _ _ := rfl
  rest := ⟨m.dirs, m.proc.ramMonitor, by simp⟩

theorem Swept.same (h : Swept m l m') (i : Fin 16) : ∃ place,
    m'.proc.ramMonitor i = { m.proc.ramMonitor i with placeInQueue := place } := by
  by_cases hi : i ∈ l
  · exact h.moved i hi
  · exact ⟨_, h.kept i hi⟩

theorem Swept.used (h : Swept m l m') (i : Fin 16) :
    (m'.proc.ramMonitor i).used = (m.proc.ramMonitor i).used := by
  obtain ⟨place, heq⟩ := h.same i
  rw [heq]

theorem Swept.tracks (h : Swept m l m') (i : Fin 16) (pgdir va : ℕ) :
    (m'.proc.ramMonitor i).Tracks pgdir va ↔ (m.proc.ramMonitor i).Tracks pgdir va := by
  obtain ⟨place, heq⟩ := h.same i
  rw [heq]
  rfl

theorem Swept.trans {l' : List (Fin 16)} (h : Swept m l m') (h' : Swept m' l' m'') :
    Swept m (l ++ l') m'' where
  kept i hi := by
    rw [List.mem_append, not_or] at hi
    rw [h'.kept i hi.2, h.kept i hi.1]
  moved i _ := by
    obtain ⟨place, heq⟩ := h'.same i
    obtain ⟨place', heq'⟩ := h.same i
    exact ⟨place, by rw [heq, heq']⟩
  walk pgdir va := by
    have hor : (∃ i ∈ l ++ l', (m.proc.ramMonitor i).Tracks pgdir va) ↔
        (∃ i ∈ l, (m.proc.ramMonitor i).Tracks pgdir va) ∨
          ∃ i ∈ l', (m'.proc.ramMonitor i).Tracks pgdir va := by
      simp only [h.tracks, List.mem_append, or_and_right, exists_or]
    rw [h'.walk, h.walk]
    by_cases hl : ∃ i ∈ l, (m.proc.ramMonitor i).Tracks pgdir va
    · rw [if_pos (hor.2 (.inl hl)), if_pos hl]
      split_ifs
      · simp [Function.comp_def, BitVec.and_assoc]
      · rfl
    · rw [if_neg hl]
      simp only [hor, hl, false_or]
  tables pgdir k := (h'.tables pgdir k).trans (h.tables pgdir k)
  rest := by
    obtain ⟨dirs, mon, rfl⟩ := h.rest
    obtain ⟨dirs', mon', rfl⟩ := h'.rest
    refine ⟨dirs', mon', ?_⟩
    simp [add_assoc]

theorem requeue_swept (hwalk : m.walkpgdir (m.proc.ramMonitor i).pgdir (m.proc.ramMonitor i).pVa =
    some pte) (hlast : incr m.proc.lastInQueue = m.proc.lastInQueue + 1) :
    Swept m [i] (m.requeue i pte) where
  kept j hj := by
    rw [List.mem_singleton] at hj
    simp [requeue, setProc, Proc.setRam, hj]
  moved j hj := by
    rw [List.mem_singleton] at hj
    subst hj
    exact ⟨incr m.proc.lastInQueue, by simp [requeue, setProc, Proc.setRam]⟩
  walk pgdir va := by
    have hstore := walk_store_eq hwalk (pte &&& ~~~pteA) pgdir va
    simp only [List.mem_singleton, exists_eq_left, PMonitor.Tracks]
    simp only [walkpgdir, requeue, setProc, setPte] at hstore ⊢
    rw [hstore]
    split_ifs with hcell
    · obtain ⟨rfl, hp, ht⟩ := hcell
      have hsame : walk m.dirs (m.proc.ramMonitor i).pgdir va = some pte := by
        rw [← hwalk, walkpgdir, walk, walk, hp, ht]
      rw [hsame]
      rfl
    · rfl
  tables pgdir k := frame_store _ _ _ _ _ _
  rest := ⟨(m.requeue i pte).dirs, (m.requeue i pte).proc.ramMonitor,
    by simp [requeue, setProc, setPte, Proc.setRam, hlast]⟩

/-! ### The whole call -/

/-- Between two rounds: the entries of `done` have had their second chance, those of `todo` not. -/
structure Rotating (m : Machine) (todo done : List (Fin 16)) : Prop where
  order : InOrder m.proc (todo ++ done)
  mem : ∀ i, i ∈ todo ++ done ↔ (m.proc.ramMonitor i).used
  clear : ∀ i ∈ done, m.isAccessed i = false
  behind : Behind m.proc
  int : -0x80000000 ≤ m.proc.lastInQueue
  room : m.proc.lastInQueue + todo.length < 0x80000000
  pages : ∀ i j pgdir va, (m.proc.ramMonitor i).used → (m.proc.ramMonitor j).used →
    (m.proc.ramMonitor i).Tracks pgdir va → (m.proc.ramMonitor j).Tracks pgdir va → i = j
  pte : ∀ i, (m.proc.ramMonitor i).used →
    (m.walkpgdir (m.proc.ramMonitor i).pgdir (m.proc.ramMonitor i).pVa).isSome

theorem Swept.isAccessed_of_notMem (h : Swept m l m') (hi : (m.proc.ramMonitor i).used)
    (hl : ∀ j ∈ l, (m.proc.ramMonitor j).used)
    (hpages : ∀ i j pgdir va, (m.proc.ramMonitor i).used → (m.proc.ramMonitor j).used →
      (m.proc.ramMonitor i).Tracks pgdir va → (m.proc.ramMonitor j).Tracks pgdir va → i = j)
    (hmem : i ∉ l) : m'.isAccessed i = m.isAccessed i := by
  have hne : ¬ ∃ j ∈ l, (m.proc.ramMonitor j).Tracks (m.proc.ramMonitor i).pgdir
      (m.proc.ramMonitor i).pVa := by
    rintro ⟨j, hj, ht⟩
    rw [hpages i j _ _ hi (hl j hj) ⟨rfl, rfl, rfl⟩ ht] at hmem
    exact hmem hj
  rw [isAccessed, isAccessed, h.kept i hmem, h.walk, if_neg hne]

theorem Swept.isAccessed_of_mem (h : Swept m l m') (hmem : i ∈ l) : m'.isAccessed i = false := by
  obtain ⟨place, heq⟩ := h.moved i hmem
  rw [isAccessed, heq, h.walk, if_pos ⟨i, hmem, rfl, rfl, rfl⟩]
  cases m.walkpgdir (m.proc.ramMonitor i).pgdir (m.proc.ramMonitor i).pVa with
  | none => rfl
  | some pte => exact clear_pteA_pteA pte

theorem incr_eq_of_int {x : Int} (h : -0x80000000 ≤ x) (hx : x + 1 < 0x80000000) :
    incr x = x + 1 := by
  rw [incr, Int.bmod_eq_of_le (by omega) (by omega)]

section

variable {todo done : List (Fin 16)}

theorem Rotating.incr (h : Rotating m (i :: todo) done) :
    incr m.proc.lastInQueue = m.proc.lastInQueue + 1 := by
  have hroom := h.room
  rw [List.length_cons] at hroom
  exact incr_eq_of_int h.int (by push_cast at hroom; omega)

theorem Rotating.next (h : Rotating m (i :: todo) done)
    (hwalk : m.walkpgdir (m.proc.ramMonitor i).pgdir (m.proc.ramMonitor i).pVa = some pte) :
    Rotating (m.requeue i pte) todo (done ++ [i]) := by
  have hsw := requeue_swept hwalk h.incr
  have hi : (m.proc.ramMonitor i).used := (h.mem i).1 List.mem_cons_self
  have hlast : (m.requeue i pte).proc.lastInQueue = m.proc.lastInQueue + 1 := h.incr
  have hnew : ((m.requeue i pte).proc.ramMonitor i).placeInQueue = m.proc.lastInQueue + 1 := by
    simp [requeue, setProc, Proc.setRam, h.incr]
  obtain ⟨hfirst, hrest⟩ := List.pairwise_cons.1 h.order
  have hne : ∀ j ∈ todo ++ done, j ≠ i := by
    rintro j hj rfl
    exact lt_irrefl _ (hfirst j hj)
  have hkept : ∀ j ∈ todo ++ done, (m.requeue i pte).proc.ramMonitor j = m.proc.ramMonitor j :=
    fun j hj => hsw.kept j (by simpa using hne j hj)
  refine ⟨?_, fun j => ?_, fun j hj => ?_, fun j hj => ?_, ?_, ?_, fun j k pgdir va hj hk => ?_,
    fun j hj => ?_⟩
  · rw [InOrder, ← List.append_assoc, List.pairwise_append]
    refine ⟨hrest.imp_of_mem fun {j k} hj hk hlt => ?_, List.pairwise_singleton _ _,
      fun j hj k hk => ?_⟩
    · rwa [hkept j hj, hkept k hk]
    · rw [List.mem_singleton] at hk
      rw [hk, hnew, hkept j hj]
      have := h.behind j ((h.mem j).1 (List.mem_cons_of_mem i hj))
      omega
  · rw [hsw.used, ← h.mem j, ← List.append_assoc, List.mem_append, List.mem_singleton,
      List.cons_append, List.mem_cons, or_comm]
  · rcases List.mem_append.1 hj with hdone | hlastj
    · have hmem : j ∈ todo ++ done := List.mem_append_right todo hdone
      rw [hsw.isAccessed_of_notMem ((h.mem j).1 (List.mem_cons_of_mem i hmem)) (by simpa using hi)
        h.pages (by simpa using hne j hmem)]
      exact h.clear j hdone
    · exact hsw.isAccessed_of_mem hlastj
  · rw [hlast]
    by_cases hji : j = i
    · rw [hji, hnew]
    · rw [hsw.kept j (by simpa using hji)]
      rw [hsw.used] at hj
      have := h.behind j hj
      omega
  · rw [hlast]
    have := h.int
    omega
  · have hroom := h.room
    rw [List.length_cons] at hroom
    rw [hlast]
    push_cast at hroom
    omega
  · rw [hsw.used] at hj hk
    rw [hsw.tracks, hsw.tracks]
    exact h.pages j k pgdir va hj hk
  · rw [hsw.used] at hj
    obtain ⟨place, heq⟩ := hsw.same j
    rw [heq, hsw.walk]
    split_ifs
    · rw [Option.isSome_map]
      exact h.pte j hj
    · exact h.pte j hj

theorem Rotating.round {q : List (Fin 16)} (h : Rotating m todo done) (hq : todo ++ done = i :: q)
    (fuel : ℕ) : ∃ pte,
      m.walkpgdir (m.proc.ramMonitor i).pgdir (m.proc.ramMonitor i).pVa = some pte ∧
      scfifoLoop (fuel + 1) m =
        if m.isAccessed i then scfifoLoop fuel (m.requeue i pte) else .ok (i, m) := by
  have hmem : ∀ j, j ∈ i :: q ↔ (m.proc.ramMonitor j).used := hq ▸ h.mem
  have hi : (m.proc.ramMonitor i).used := (hmem i).1 List.mem_cons_self
  have hle : (m.proc.ramMonitor i).placeInQueue ≤ 0x7FFFFFFF := by
    have := h.behind i hi
    have := h.room
    omega
  have hold : m.proc.oldest = some i := Proc.oldest_eq_head (hq ▸ h.order) hmem hle
  obtain ⟨pte, hpte⟩ := Option.isSome_iff_exists.1 (h.pte i hi)
  refine ⟨pte, hpte, ?_⟩
  rw [scfifoLoop]
  simp only [hold, hpte, isAccessed, flagOn_pteFlags _ (show 0xFFF#32 &&& pteA = pteA by decide)]
  rfl

/-- The loop moves the run of accessed entries at the front of `todo` to the end of the queue and
returns the entry that is then first. -/
theorem Rotating.loop (fuel : ℕ) {m : Machine} {todo done : List (Fin 16)}
    (h : Rotating m todo done) (hne : todo ++ done ≠ []) (hfuel : todo.length < fuel) :
    ∃ front rest i m', todo = front ++ rest ∧ (∀ j ∈ front, m.isAccessed j) ∧
      (∀ j ∈ rest.head?, m.isAccessed j = false) ∧
      scfifoLoop fuel m = .ok (i, m') ∧ Swept m front m' ∧
      InOrder m'.proc (rest ++ (done ++ front)) ∧ (rest ++ (done ++ front)).head? = some i := by
  induction fuel generalizing m todo done with
  | zero => omega
  | succ fuel ih =>
    cases todo with
    | nil =>
      -- every entry has had its second chance: the oldest of them is returned
      cases done with
      | nil => exact absurd rfl hne
      | cons i q =>
        obtain ⟨pte, -, hrun⟩ := h.round rfl fuel
        rw [if_neg (by simp [h.clear i List.mem_cons_self])] at hrun
        refine ⟨[], [], i, m, rfl, by simp, by simp, hrun, Swept.refl m, ?_, by simp⟩
        simpa using h.order
    | cons i todo =>
      obtain ⟨pte, hpte, hrun⟩ := h.round (List.cons_append ..) fuel
      by_cases hA : m.isAccessed i = true
      · rw [if_pos hA] at hrun
        have hnext := h.next hpte
        have hsw := requeue_swept hpte h.incr
        obtain ⟨front, rest, k, m', rfl, hfront, hhead, hloop, hsw', horder, hk⟩ :=
          ih hnext (by simp) (by simpa using hfuel)
        have hsame : ∀ j ∈ front ++ rest, (m.requeue i pte).isAccessed j = m.isAccessed j := by
          intro j hj
          have hlt := (List.pairwise_cons.1 h.order).1 j (List.mem_append_left _ hj)
          have hji : j ≠ i := by
            rintro rfl
            exact lt_irrefl _ hlt
          refine hsw.isAccessed_of_notMem ((h.mem j).1 ?_) ?_ h.pages (by simpa using hji)
          · exact List.mem_cons_of_mem i (List.mem_append_left _ hj)
          · simpa using (h.mem i).1 List.mem_cons_self
        refine ⟨i :: front, rest, k, m', rfl, ?_, ?_, by rw [hrun, hloop], hsw.trans hsw', ?_, ?_⟩
        · intro j hj
          rcases List.mem_cons.1 hj with rfl | hj
          · exact hA
          · rw [← hsame j (List.mem_append_left _ hj)]
            exact hfront j hj
        · intro j hj
          rw [← hsame j (List.mem_append_right _ (List.mem_of_mem_head? hj))]
          exact hhead j hj
        · simpa using horder
        · simpa using hk
      · rw [if_neg hA] at hrun
        refine ⟨[], i :: todo, i, m, rfl, by simp, ?_, hrun, Swept.refl m, ?_, rfl⟩
        · simpa using hA
        · simpa using h.order

end

theorem Queued.rotating (h : Queued m) (hbehind : Behind m.proc) : Rotating m m.proc.queue [] := by
  have hstrict : InOrder m.proc m.proc.queue := by
    refine (m.proc.queue_sorted.and m.proc.queue_nodup).imp_of_mem fun {i j} hi hj hij => ?_
    refine lt_of_le_of_ne hij.1 fun heq => hij.2 ?_
    exact h.places i j (Proc.mem_queue.1 hi) (Proc.mem_queue.1 hj) heq
  have hlength : m.proc.queue.length ≤ 16 := by
    simpa using m.proc.queue_nodup.length_le_card
  refine ⟨by simpa using hstrict, fun i => by simpa using Proc.mem_queue, by simp, hbehind, h.int,
    ?_, fun i j pgdir va hi hj hti htj => ?_, h.pte⟩
  · have := h.room
    omega
  · have hvi := h.uint i hi
    have hvj := h.uint j hj
    obtain ⟨hdi, hpi, hxi⟩ := hti
    obtain ⟨hdj, hpj, hxj⟩ := htj
    refine h.pages i j hi hj (hdi.symm.trans hdj) ?_
    simp only [pdx] at hpi hpj
    simp only [ptx] at hxi hxj
    omega

/-- `select_SCFIFO` is second-chance replacement: the accessed entries at the front of the queue lose
their bit and go to its end in the order they had, the entry that is then first is returned, and
nothing else changes.  When every entry was accessed, that is the oldest one again. -/
theorem selectSCFIFO_rotates (hex : ∃ i, (m.proc.ramMonitor i).used) (h : Queued m)
    (hbehind : Behind m.proc) :
    ∃ i m', m.selectSCFIFO = .ok (i, m') ∧
      m'.proc.queue =
        m.proc.queue.dropWhile m.isAccessed ++ m.proc.queue.takeWhile m.isAccessed ∧
      m'.proc.queue.head? = some i ∧ Swept m (m.proc.queue.takeWhile m.isAccessed) m' := by
  obtain ⟨i₀, hi₀⟩ := hex
  have hlength : m.proc.queue.length ≤ 16 := by
    simpa using m.proc.queue_nodup.length_le_card
  have hne : m.proc.queue ++ [] ≠ [] := by
    simpa using List.ne_nil_of_mem (Proc.mem_queue.2 hi₀)
  obtain ⟨front, rest, i, m', hq, hfront, hrest, hrun, hsw, horder, hhead⟩ :=
    (h.rotating hbehind).loop 17 hne (by omega)
  have hsplit : rest.takeWhile m.isAccessed = [] ∧ rest.dropWhile m.isAccessed = rest := by
    cases rest with
    | nil => simp
    | cons j rest => simp [hrest j rfl]
  have htake : m.proc.queue.takeWhile m.isAccessed = front := by
    rw [hq, List.takeWhile_append_of_pos hfront, hsplit.1, List.append_nil]
  have hdrop : m.proc.queue.dropWhile m.isAccessed = rest := by
    rw [hq, List.dropWhile_append_of_pos hfront, hsplit.2]
  have hqueue : m'.proc.queue = rest ++ front := by
    refine Proc.queue_eq horder fun j => ?_
    rw [hsw.used, ← Proc.mem_queue, hq]
    simp only [List.mem_append, or_comm]
  refine ⟨i, m', hrun, ?_, ?_, ?_⟩
  · rw [hqueue, htake, hdrop]
  · rw [hqueue]
    exact hhead
  · rw [htake]
    exact hsw

end

/-- A process with the pages 0 and 1 in entries 0 and 1, numbered 5 and 10, of which page 0 has been
accessed. -/
def twoPages (last : Int) : Machine where
  kend := 0
  kdata := 0
  freelist := []
  data _ _ := 0
  dirs d k := if d = 7 ∧ k = 0 then some ⟨8, fun v => if v = 0 then pteP ||| pteA else pteP⟩ else none
  owner _ := none
  buff _ := 0
  proc :=
    { sz := 8192
      pgdir := 7
      pid := 3
      killed := false
      swapFile := ⟨0, fun _ => 0⟩
      ramMonitor := fun i => ⟨decide (i.val < 2), 7, 4096 * i.val, 5 * (i.val + 1)⟩
      swapMonitor := fun _ => ⟨false, 0, 0, 0⟩
      pagesInFile := 0
      lastInQueue := last
      protectedPages := 0
      pageFaultCounter := 0 }

theorem twoPages_queued (last : Int) (hint : -0x80000000 ≤ last) (hroom : last + 16 < 0x80000000) :
    Queued (twoPages last) where
  places := by
    simp only [twoPages]
    omega
  int := hint
  room := hroom
  uint := by
    simp only [twoPages]
    omega
  pages := by
    simp only [twoPages]
    omega
  pte i hi := by
    have hlt : i.val < 2 := by simpa [twoPages] using hi
    have hpdx : pdx (4096 * i.val) = 0 := by
      rw [pdx_page]
      omega
    simp [twoPages, walkpgdir, walk, hpdx]

/-- With the numbers up to `last_in_queue` page 0 goes behind page 1, which is returned. -/
theorem selectSCFIFO_rotates_two :
    (twoPages 10).proc.queue = [0, 1] ∧ ∃ m', (twoPages 10).selectSCFIFO = .ok (1, m') ∧
      m'.proc.queue = [1, 0] ∧ Swept (twoPages 10) [0] m' := by
  have hq : (twoPages 10).proc.queue = [0, 1] := by decide +kernel
  have htake : (twoPages 10).proc.queue.takeWhile (twoPages 10).isAccessed = [0] := by
    decide +kernel
  have hdrop : (twoPages 10).proc.queue.dropWhile (twoPages 10).isAccessed = [1] := by
    decide +kernel
  obtain ⟨i, m', hrun, hqueue, hhead, hsw⟩ := selectSCFIFO_rotates ⟨0, by decide⟩
    (twoPages_queued 10 (by decide) (by decide)) (by unfold Behind; decide)
  rw [htake, hdrop] at hqueue
  rw [hqueue] at hhead
  rw [htake] at hsw
  cases hhead
  exact ⟨hq, m', hrun, hqueue, hsw⟩

/-- With numbers above `last_in_queue` the new number of page 0 is still the smallest, and page 0 is
returned although page 1 has not been accessed. -/
theorem selectSCFIFO_above_last :
    (∃ i, ((twoPages 0).proc.ramMonitor i).used) ∧ Queued (twoPages 0) ∧
      ¬ ∃ i m', (twoPages 0).selectSCFIFO = .ok (i, m') ∧
        m'.proc.queue = (twoPages 0).proc.queue.dropWhile (twoPages 0).isAccessed ++
          (twoPages 0).proc.queue.takeWhile (twoPages 0).isAccessed ∧
        m'.proc.queue.head? = some i ∧
        Swept (twoPages 0) ((twoPages 0).proc.queue.takeWhile (twoPages 0).isAccessed) m' := by
  refine ⟨⟨0, by decide⟩, twoPages_queued 0 (by decide) (by decide), ?_⟩
  rintro ⟨i, m', hrun, hqueue, hhead, -⟩
  have hfirst : (twoPages 0).selectSCFIFO.toOption.map (·.1) = some 0 := by decide +kernel
  rw [hrun] at hfirst
  cases hfirst
  have hsecond : ((twoPages 0).proc.queue.dropWhile (twoPages 0).isAccessed ++
      (twoPages 0).proc.queue.takeWhile (twoPages 0).isAccessed).head? = some 1 := by decide +kernel
  rw [hqueue, hsecond] at hhead
  exact absurd hhead (by decide)

end Xv6
