import Xv6.Lib.Run
import Xv6.Growth

/-!
# A process and its memory

The events in the life of one process between system calls and faults: `sbrk`, user loads and
stores with the faults they cause, and whatever the rest of the machine does meanwhile.  As long as
every step finds the frames, slots and victims it needs, the process sees a flat memory.
-/

namespace Xv6

open Machine

def FlatPage.write (x : FlatPage) (k : Fin 4096) (b : Byte) : FlatPage :=
  match x with
  | .data bytes => .data (Function.update bytes k b)
  | .guard => .guard
  | .absent => .absent

/-! ### Touching and storing -/

section

variable {sel : Selection} {m : Machine} {n v va : ℕ} {X : Set ℕ} {flat : Flat}

theorem walkpgdir_page (m : Machine) (hva : va / 4096 = v) (ht : HasTable m.dirs m.proc.pgdir v) :
    m.walkpgdir m.proc.pgdir va = some (m.pte v) := by
  rw [walkpgdir, walk_page, hva]
  exact walk_eq_entry ht

theorem touch_view (m : Machine) (hva : va / 4096 = v) (hv : v < 0x100000)
    (ht : HasTable m.dirs m.proc.pgdir v) (write : Bool) : SameView m (m.touch va write) := by
  have htouch : m.touch va write = m.setPte m.proc.pgdir (4096 * v)
      (m.pte v ||| (if write then pteA ||| pteD else pteA)) := by
    simp only [touch, walkpgdir_page m hva ht, setPte]
    rw [store_page, hva]
  rw [htouch]
  exact SameView.of_dirs rfl rfl rfl (AgreeSoft.store ht hv (softBits_touch _ _)) rfl rfl rfl rfl
    (fun _ => rfl) rfl (fun _ => rfl)

theorem Ready.storeByte (h : Ready sel m n X flat) (hv : v < userPages) (hp : m.Present v)
    (k : Fin 4096) (b : Byte) :
    Ready sel (m.setFrame (frameOf (m.pte v)) (Function.update (m.data (frameOf (m.pte v))) k b))
      n X (Function.update flat v ((flat v).write k b)) := by
  let page := Function.update (m.data (frameOf (m.pte v))) k b
  have hpaged : Paged (m.setFrame (frameOf (m.pte v)) page) n X :=
    { h.toPaged with frames := h.frames.congr rfl rfl rfl rfl }
  have hmove : Move m (m.setFrame (frameOf (m.pte v)) page) v := by
    refine ⟨rfl, fun _ => Iff.rfl, fun _ _ _ => rfl, fun w hw hne hpw => ?_,
      fun _ hu _ => ⟨hu, rfl, rfl⟩⟩
    exact Function.update_of_ne (h.toPaged.frame_ne hv hw hp hpw hne) _ _
  refine ⟨h.toSpace.move hmove hpaged ?_, ⟨h.queue.le, h.queue.pos, h.queue.last⟩⟩
  have hok := h.page v hv
  cases hflat : flat v with
  | absent =>
    rw [hflat] at hok
    exact absurd hok hp.not_absent
  | guard => exact hp.not_absent
  | data bytes =>
    rw [hflat] at hok
    refine ⟨Or.inl ⟨hp, ?_⟩, hok.2⟩
    rcases hok.1 with ⟨-, hd⟩ | ⟨ho, -⟩
    · rw [← hd]
      exact Function.update_self _ _ _
    · exact absurd ho hp.not_pagedOut

end

/-! ### User accesses -/

/-- A page fault at `va` finds what it needs: a free frame, and a queue number. -/
def FaultOk (sel : Selection) (m : Machine) (va : ℕ) : Prop :=
  m.PagedOut (va / 4096) →
    m.freelist ≠ [] ∧ (sel = .LIFO → m.proc.lastInQueue + 1 ≤ 0x7FFFFFFF)

/-- The outcome of a user access to page `v`: the process goes on with the page in a frame, or it is
killed, which never happens at a data page. -/
structure Accessed (sel : Selection) (m m' : Machine) (s : FlatMem) (v : ℕ) (f : Option ℕ) :
    Prop where
  sees : Sees sel m' s
  packed : Packed sel m (pagesOf s.sz) → Packed sel m' (pagesOf s.sz)
  frame : ∀ f', f = some f' →
    v < userPages ∧ m'.Present v ∧ f' = frameOf (m'.pte v) ∧ m'.proc.killed = false
  data : ∀ bytes, s.page v = .data bytes → f ≠ none

section

variable {sel : Selection} {m : Machine} {s : FlatMem} {v va : ℕ}

theorem translate_eq (m : Machine) (hva : va / 4096 = v) (ht : HasTable m.dirs m.proc.pgdir v)
    (write : Bool) : m.translate va write =
      if flagOn (m.pte v) pteP && flagOn (m.pte v) pteU && (!write || flagOn (m.pte v) pteW)
      then some (frameOf (m.pte v)) else none := by
  simp only [Machine.translate, walkpgdir_page m hva ht]

theorem Sees.congr {m' : Machine} (h : Sees sel m s) (hv : SameView m m') (hid : SameId m m')
    (hq : QueueOk sel m'.proc) : Sees sel m' s :=
  ⟨hid.sz.trans h.sz, hid.pid ▸ h.pid, ⟨h.ready.toSpace.congr hv, hq⟩, h.above, fun hs => by
    rw [swapCount, hv.swap]
    exact h.unpaged hs⟩

theorem isFlagOn_eq (m : Machine) (hva : va / 4096 = v) (ht : HasTable m.dirs m.proc.pgdir v)
    (flag : Pte) : m.isFlagOn va flag = .ok (flagOn (m.pte v) flag) := by
  simp only [isFlagOn, walkpgdir_page m hva ht]

theorem Packed.congr {m' : Machine} {n : ℕ} (h : Packed sel m n) (hv : SameView m m') :
    Packed sel m' n := by
  intro hs
  rw [ramCount, swapCount, hv.ram, hv.swap]
  exact h hs

theorem Accessed.touch (h : Sees sel m s) (halive : m.proc.killed = false) (hva : va / 4096 = v)
    (hv : v < userPages) (ht : HasTable m.dirs m.proc.pgdir v) (hp : m.Present v) (write : Bool) :
    Accessed sel m (m.touch va write) s v (some (frameOf (m.pte v))) := by
  have hlt : v < 0x100000 := lt_trans hv (by decide)
  have hview := touch_view m hva hlt ht write
  have hproc : (m.touch va write).proc = m.proc := by
    rw [Machine.touch, walkpgdir_page m hva ht]
    rfl
  have hid : SameId m (m.touch va write) := by
    constructor <;> rw [hproc]
  refine ⟨h.congr hview hid (hproc ▸ h.ready.queue), fun hp => hp.congr hview, ?_, by simp⟩
  rintro f' hf'
  cases hf'
  refine ⟨hv, (hview.present_iff hlt).2 hp, ?_, hid.killed.trans halive⟩
  rw [frameOf_congr (hview.pteSoft hlt)]

theorem Sees.pagedOut (h : Sees sel m s) (hv : v < userPages) (hout : m.PagedOut v) :
    v < pagesOf s.sz ∧ sel ≠ .NONE ∧ 0 < swapCount m := by
  have hlt : v < pagesOf s.sz := by
    by_contra hc
    exact hout.not_absent (h.ready.above v (by omega) hv)
  obtain ⟨j, hj, -⟩ := h.ready.swap.mem_iff.1 (mem_swapPages.2 ⟨hlt, hout⟩)
  have hpos : 0 < swapCount m := SlotTable.usedCount_pos_iff.2 ⟨j, hj⟩
  refine ⟨hlt, fun hs => ?_, hpos⟩
  rw [h.unpaged hs] at hpos
  exact lt_irrefl 0 hpos

theorem access_spec (h : Sees sel m s) (halive : m.proc.killed = false) (hva : va / 4096 = v)
    (hv : v < 0x100000) (ht : HasTable m.dirs m.proc.pgdir v) (hfault : FaultOk sel m va)
    (write : Bool) : ∃ f m', m.access sel va write = .ok (f, m') ∧ Accessed sel m m' s v f := by
  have hkernel : ∀ {flag}, flag = pteU ∨ flag = ptePG → flagOn (m.pte v) flag → v < userPages := by
    intro flag hflag hon
    by_contra hc
    obtain ⟨hU, hPG⟩ := h.ready.kernel v (by omega) hv
    rcases hflag with rfl | rfl
    · rw [hU] at hon
      cases hon
    · rw [hPG] at hon
      cases hon
  have htr := translate_eq m hva ht write
  by_cases hc : (flagOn (m.pte v) pteP && flagOn (m.pte v) pteU &&
      (!write || flagOn (m.pte v) pteW)) = true
  · rw [if_pos hc] at htr
    simp only [Bool.and_eq_true] at hc
    have hu := hkernel (Or.inl rfl) hc.1.2
    exact ⟨_, _, by rw [Machine.access, htr], Accessed.touch h halive hva hu ht hc.1.1 write⟩
  · rw [if_neg hc] at htr
    by_cases hpg : flagOn (m.pte v) ptePG = true
    · have hu := hkernel (Or.inr rfl) hpg
      have hnp : ¬ m.Present v := fun hp => by
        rw [h.ready.exclusive v hu hp] at hpg
        cases hpg
      have hout : m.PagedOut v := ⟨Bool.eq_false_iff.2 hnp, hpg⟩
      obtain ⟨hlt, hsel, hpos⟩ := h.pagedOut hu hout
      obtain ⟨hfree, hwrap⟩ := hfault (by rw [hva]; exact hout)
      obtain ⟨m₁, hdisk, hs⟩ := pageFromDisk_spec hsel h.ready hva hlt hout
        (fun hx => hsel (mem_transit.1 hx)) hfree hwrap
      have hpacked : Packed sel m (pagesOf s.sz) → Packed sel m₁ (pagesOf s.sz) := by
        intro hp _
        obtain ⟨hram, hswap⟩ := hp hsel
        obtain ⟨hram', hswap'⟩ := hs.full (by omega)
        omega
      have hsees : Sees sel m₁ s := ⟨hs.id.sz.trans h.sz, hs.id.pid ▸ h.pid, hs.ready, h.above,
        fun hn => absurd hn hsel⟩
      have ht₁ : HasTable m₁.dirs m₁.proc.pgdir v :=
        hs.ready.toPaged.hasTable (lt_of_lt_of_le hlt h.ready.size)
      have halive₁ : m₁.proc.killed = false := hs.id.killed.trans halive
      have htrap : m.trap sel va true = .ok m₁ := by
        rw [trap, if_pos ⟨h.pid, rfl⟩]
        simp only [isFlagOn_eq m hva ht, hpg, hdisk, bind, Except.bind, if_true]
        rfl
      have htr₁ : m₁.translate va write = some (frameOf (m₁.pte v)) := by
        have hp₁ : flagOn (m₁.pte v) pteP = true := hs.present
        rw [translate_eq m₁ hva ht₁, if_pos]
        simp [hp₁, hs.accessible.1, hs.accessible.2]
      have hacc := Accessed.touch hsees halive₁ hva hu ht₁ hs.present write
      refine ⟨some (frameOf (m₁.pte v)), m₁.touch va write, ?_,
        ⟨hacc.sees, fun hp => hacc.packed (hpacked hp), hacc.frame, hacc.data⟩⟩
      rw [Machine.access, htr]
      simp only [htrap, halive₁, htr₁, bind, Except.bind]
      rfl
    · have hdead : m.trap sel va true = .ok (m.setProc { m.proc with killed := true }) := by
        rw [trap, if_pos ⟨h.pid, rfl⟩]
        simp only [isFlagOn_eq m hva ht, trapDefault, hpg, bind, Except.bind, Bool.false_eq_true,
          if_false, if_true]
        rfl
      refine ⟨none, m.setProc { m.proc with killed := true }, ?_, ⟨?_, ?_, by simp, ?_⟩⟩
      · rw [Machine.access, htr]
        simp only [hdead, bind, Except.bind]
        rfl
      · exact ⟨h.sz, h.pid, h.ready.setProc rfl rfl rfl rfl rfl, h.above, h.unpaged⟩
      · exact id
      · intro bytes hdata
        have hlt : v < userPages := by
          by_contra hc
          have := h.above v (le_of_lt (lt_of_lt_of_le (lt_of_le_of_lt h.ready.size (by decide))
            (not_lt.1 hc)))
          rw [hdata] at this
          cases this
        have hok := h.ready.page v hlt
        rw [hdata] at hok
        rcases hok.1 with ⟨hp, -⟩ | ⟨ho, -⟩
        · have hp' : flagOn (m.pte v) pteP = true := hp
          exact absurd (by simp [hp', hok.2.1, hok.2.2]) hc
        · exact absurd ho.2 hpg

end

/-! ### Events -/

/-- A step in the life of a process. -/
inductive Event where
  | sbrk (n : Int)
  | load (va : ℕ)
  | store (va : ℕ) (b : Byte)
  /-- Other processes run and the processor sets accessed bits; `next` is the state they leave,
  apart from the process itself. -/
  | others (next : Machine)

def step (sel : Selection) (m : Machine) : Event → Except Halt Machine
  | .sbrk n => do
    let (_, m) ← m.growproc sel n
    return m
  | .load va => do
    let (_, m) ← m.load sel va
    return m
  | .store va b => m.storeByte sel va b
  | .others next => .ok { next with proc := m.proc }

namespace FlatMem

def store (s : FlatMem) (va : ℕ) (b : Byte) : FlatMem :=
  ⟨s.sz, Function.update s.page (va / 4096) ((s.page (va / 4096)).write (pageOff va) b)⟩

/-- One step of a process with a flat memory; a growth may fail for lack of frames. -/
inductive Step : FlatMem → Event → FlatMem → Prop
  | sbrk (s : FlatMem) (n : Int) (ok : Bool) : Step s (.sbrk n) (s.sbrk n ok)
  | load (s : FlatMem) (va : ℕ) : Step s (.load va) s
  | store (s : FlatMem) (va : ℕ) (b : Byte) : Step s (.store va b) (s.store va b)
  | others (s : FlatMem) (next : Machine) : Step s (.others next) s

/-- One step of a process with a flat memory when no growth fails. -/
def step (s : FlatMem) : Event → FlatMem
  | .sbrk n => s.sbrk n true
  | .load _ => s
  | .store va b => s.store va b
  | .others _ => s

end FlatMem

/-- The step finds what it needs: the process runs, a growth stays within the page limit and finds
slots and victims, a shrink releases resident pages only, a fault finds a free frame, and the rest of
the machine leaves the process alone. -/
def Clean (sel : Selection) (m : Machine) (e : Event) : Prop :=
  m.proc.killed = false ∧ match e with
    | .sbrk n => SbrkOk sel m n
    | .load va => va < 0x100000000 ∧ FaultOk sel m va
    | .store va _ => va < 0x100000000 ∧ FaultOk sel m va
    | .others next => SameView m { next with proc := m.proc }

section

variable {sel : Selection} {m m' : Machine} {s : FlatMem} {va : ℕ}

theorem access_noTable (h : Sees sel m s) (ht : ¬ HasTable m.dirs m.proc.pgdir (va / 4096))
    (write : Bool) : m.access sel va write = .error (.panic "turn flag: no pte found") := by
  have hwalk : m.walkpgdir m.proc.pgdir va = none := by
    rw [walkpgdir, walk_page]
    exact walk_eq_none_iff.2 ht
  have htrap : m.trap sel va true = .error (.panic "turn flag: no pte found") := by
    rw [trap, if_pos ⟨h.pid, rfl⟩]
    simp only [isFlagOn, hwalk, bind, Except.bind]
  simp only [Machine.access, Machine.translate, hwalk, htrap, bind, Except.bind]

theorem access_ok (h : Sees sel m s) (halive : m.proc.killed = false) (hva : va < 0x100000000)
    (hfault : FaultOk sel m va) {write : Bool} {f : Option ℕ}
    (hrun : m.access sel va write = .ok (f, m')) : Accessed sel m m' s (va / 4096) f := by
  by_cases ht : HasTable m.dirs m.proc.pgdir (va / 4096)
  · obtain ⟨f', m'', hrun', hacc⟩ := access_spec h halive rfl (by omega) ht hfault write
    rw [hrun, Except.ok.injEq, Prod.mk.injEq] at hrun'
    obtain ⟨rfl, rfl⟩ := hrun'
    exact hacc
  · rw [access_noTable h ht] at hrun
    cases hrun

theorem FlatMem.store_above (h : Sees sel m s) (va : ℕ) (b : Byte) (v : ℕ)
    (hv : pagesOf s.sz ≤ v) : (s.store va b).page v = .absent := by
  show Function.update s.page (va / 4096) _ v = .absent
  by_cases hva : v = va / 4096
  · subst hva
    rw [Function.update_self, h.above _ hv]
    rfl
  · rw [Function.update_of_ne hva]
    exact h.above v hv

theorem Sees.setFrame (h : Sees sel m s) (hv : va / 4096 < userPages)
    (hp : m.Present (va / 4096)) (b : Byte) :
    Sees sel (m.setFrame (frameOf (m.pte (va / 4096)))
      (Function.update (m.data (frameOf (m.pte (va / 4096)))) (pageOff va) b))
      (s.store va b) :=
  ⟨h.sz, h.pid, h.ready.storeByte hv hp _ b, FlatMem.store_above h va b, h.unpaged⟩

theorem FlatMem.store_eq_self (hno : ∀ bytes, s.page (va / 4096) ≠ .data bytes) (b : Byte) :
    s.store va b = s := by
  have hwrite : (s.page (va / 4096)).write (pageOff va) b = s.page (va / 4096) := by
    cases hpage : s.page (va / 4096) with
    | absent => rfl
    | guard => rfl
    | data bytes => exact absurd hpage (hno bytes)
  rw [FlatMem.store, hwrite, Function.update_eq_self]

theorem Accessed.store {f : Option ℕ} (hacc : Accessed sel m m' s (va / 4096) f)
    (hrun : m.access sel va true = .ok (f, m')) (b : Byte) :
    ∃ m'', m.storeByte sel va b = .ok m'' ∧ Sees sel m'' (s.store va b) ∧
      (Packed sel m (pagesOf s.sz) → Packed sel m'' (pagesOf s.sz)) := by
  cases f with
  | none =>
    refine ⟨m', ?_, ?_, hacc.packed⟩
    · simp only [Machine.storeByte, hrun, bind, Except.bind]
      rfl
    · rw [FlatMem.store_eq_self fun bytes hdata => hacc.data bytes hdata rfl]
      exact hacc.sees
  | some f =>
    obtain ⟨hv, hp, rfl, -⟩ := hacc.frame f rfl
    refine ⟨_, ?_, hacc.sees.setFrame hv hp b, hacc.packed⟩
    simp only [Machine.storeByte, hrun, bind, Except.bind]
    rfl

theorem Sees.others (h : Sees sel m s) {next : Machine}
    (hview : SameView m { next with proc := m.proc }) :
    Sees sel { next with proc := m.proc } s :=
  h.congr hview ⟨rfl, rfl, rfl, rfl⟩ h.ready.queue

theorem step_load_ok (hstep : step sel m (.load va) = .ok m') :
    ∃ f, m.access sel va false = .ok (f, m') := by
  simp only [step, Machine.load, bind, Except.bind] at hstep
  cases haccess : m.access sel va false with
  | error e =>
    rw [haccess] at hstep
    cases hstep
  | ok r =>
    rw [haccess] at hstep
    cases hstep
    exact ⟨r.1, rfl⟩

theorem step_store_ok {b : Byte} (hstep : step sel m (.store va b) = .ok m') :
    ∃ f m₁, m.access sel va true = .ok (f, m₁) := by
  simp only [step, Machine.storeByte, bind, Except.bind] at hstep
  cases haccess : m.access sel va true with
  | error e =>
    rw [haccess] at hstep
    cases hstep
  | ok r => exact ⟨r.1, r.2, rfl⟩

theorem step_sees (h : Sees sel m s) {e : Event} (hclean : Clean sel m e)
    (hstep : step sel m e = .ok m') : ∃ s', FlatMem.Step s e s' ∧ Sees sel m' s' := by
  obtain ⟨halive, hok⟩ := hclean
  cases e with
  | sbrk n =>
    by_cases hn : 0 < n
    · obtain ⟨r, m₁, ok, hrun, h₁, -⟩ := growproc_grow h hok hn
      simp only [step, hrun, bind, Except.bind] at hstep
      cases hstep
      exact ⟨_, .sbrk s n ok, h₁⟩
    · obtain ⟨r, m₁, hrun, h₁, -⟩ := growproc_shrink h hok hn true
      simp only [step, hrun, bind, Except.bind] at hstep
      cases hstep
      exact ⟨_, .sbrk s n true, h₁⟩
  | load va =>
    obtain ⟨f, haccess⟩ := step_load_ok hstep
    exact ⟨s, .load s va, (access_ok h halive hok.1 hok.2 haccess).sees⟩
  | store va b =>
    obtain ⟨f, m₁, haccess⟩ := step_store_ok hstep
    obtain ⟨m₂, hstore, h₂, -⟩ :=
      (access_ok h halive hok.1 hok.2 haccess).store haccess b
    rw [step, hstore] at hstep
    cases hstep
    exact ⟨_, .store s va b, h₂⟩
  | others next =>
    cases hstep
    exact ⟨s, .others s next, h.others hok⟩

end

/-! ### Growth only -/

section

variable {sel : Selection} {m : Machine} {s : FlatMem} {va : ℕ}

end

end Xv6
