import Xv6.Refinement

/-!
# Pointer arguments of system calls

`argint`, `argptr` and `argstr` accept what lies below the size of the process.  Whether the kernel can then
touch it is another matter: a fault that it takes itself is not resolved, also when the page is paged out.
-/

namespace Xv6

namespace Machine

/-! ### Fetching -/

/-- A byte that the kernel reads at a user address. -/
def kread (m : Machine) (va : ℕ) : Except Halt Byte := do
  let f ← m.kaddr va false
  return m.data f (pageOff va)

/-- `fetchint`; `none` is the result -1. -/
def fetchint (m : Machine) (addr : ℕ) : Except Halt (Option ℕ) :=
  if m.proc.sz ≤ addr ∨ m.proc.sz < (addr + 4) % 0x100000000 then .ok none
  else do
    let b₀ ← m.kread addr
    let b₁ ← m.kread (addr + 1)
    let b₂ ← m.kread (addr + 2)
    let b₃ ← m.kread (addr + 3)
    return some (b₀.toNat + 256 * b₁.toNat + 65536 * b₂.toNat + 16777216 * b₃.toNat)

/-- The loop of `fetchstr`, with `count` bytes up to the end of the process: where the NUL is. -/
def strLoop (m : Machine) : ℕ → ℕ → Except Halt (Option ℕ)
  | 0, _ => .ok none
  | count + 1, s => do
    if (← m.kread s) = 0 then return some s else m.strLoop count (s + 1)

/-- `fetchstr`: the length of the string. -/
def fetchstr (m : Machine) (addr : ℕ) : Except Halt (Option ℕ) :=
  if m.proc.sz ≤ addr then .ok none
  else do
    let s ← m.strLoop (m.proc.sz - addr) addr
    return s.map fun s => s - addr

/-- `argint`, with the saved stack pointer of the process. -/
def argint (m : Machine) (esp n : ℕ) : Except Halt (Option ℕ) :=
  m.fetchint ((esp + 4 + 4 * n) % 0x100000000)

def argptr (m : Machine) (esp n : ℕ) (size : Int) : Except Halt (Option ℕ) := do
  match ← m.argint esp n with
  | none => return none
  | some i =>
    if size < 0 ∨ m.proc.sz ≤ i ∨ m.proc.sz < (i + size.toNat) % 0x100000000 then return none
    else return some i

def argstr (m : Machine) (esp n : ℕ) : Except Halt (Option ℕ) := do
  match ← m.argint esp n with
  | none => return none
  | some addr => m.fetchstr addr

/-- The kernel reads or writes `count` bytes from `va` on. -/
def accessRange (m : Machine) (write : Bool) : ℕ → ℕ → Except Halt Unit
  | 0, _ => .ok ()
  | count + 1, va => do
    let _ ← m.kaddr va write
    m.accessRange write count (va + 1)

end Machine

open Machine

/-- What a system call takes: a number, a range of memory that it reads or writes, or a string. -/
inductive Param where
  | word
  | block (size : Int) (write : Bool)
  | string

/-- The argument number `n` is fetched and, when it was accepted, all of it is used. -/
def Machine.argument (m : Machine) (esp n : ℕ) : Param → Except Halt Unit
  | .word => do
    let _ ← m.argint esp n
  | .block size write => do
    match ← m.argptr esp n size with
    | none => return
    | some i => m.accessRange write size.toNat i
  | .string => do
    let _ ← m.argstr esp n

/-! ### What is touched -/

/-- The kernel's own map, or a page that is present and, for a write, writable. -/
def Machine.Usable (m : Machine) (va : ℕ) (write : Bool) : Prop :=
  va < kernBase → m.Present (va / 4096) ∧ (write = true → flagOn (m.pte (va / 4096)) pteW = true)

def Machine.byteAt (m : Machine) (va : ℕ) : Byte :=
  m.data (if kernBase ≤ va then (va - kernBase) / 4096 else frameOf (m.pte (va / 4096))) (pageOff va)

def Machine.wordAt (m : Machine) (a : ℕ) : ℕ :=
  (m.byteAt a).toNat + 256 * (m.byteAt (a + 1)).toNat + 65536 * (m.byteAt (a + 2)).toNat +
    16777216 * (m.byteAt (a + 3)).toNat

def Machine.Accepts (m : Machine) (a n : ℕ) : Prop := a < m.proc.sz ∧ (a + n) % 0x100000000 ≤ m.proc.sz

/-- The bytes that an argument with the word at `a` makes the kernel read or write, besides the word. -/
def Machine.Reaches (m : Machine) (i : ℕ) : Param → ℕ → Bool → Prop
  | .word, _, _ => False
  | .block size write, va, w =>
    0 ≤ size ∧ m.Accepts i size.toNat ∧ i ≤ va ∧ va < i + size.toNat ∧ w = write
  | .string, va, w => i ≤ va ∧ va < m.proc.sz ∧ (∀ k, i ≤ k → k < va → m.byteAt k ≠ 0) ∧ w = false

/-- The word of an argument that is accepted, and what it points to. -/
def Machine.Touches (m : Machine) (a : ℕ) (p : Param) (va : ℕ) (w : Bool) : Prop :=
  m.Accepts a 4 ∧ ((a ≤ va ∧ va < a + 4 ∧ w = false) ∨ m.Reaches (m.wordAt a) p va w)

/-! ### Panics -/

def NoPanic {α : Type} (x : Except Halt α) : Prop := ∀ msg, x ≠ .error (.panic msg)

section

variable {α : Type} {m : Machine} {va a i n : ℕ} {write : Bool}

theorem noPanic_ok (x : α) : NoPanic (.ok x) := fun _ hc => by cases hc

theorem noPanic_kaddr {f : ℕ → Except Halt α} : NoPanic (m.kaddr va write >>= f) ↔ m.Usable va write ∧
    NoPanic (f (if kernBase ≤ va then (va - kernBase) / 4096 else frameOf (m.pte (va / 4096)))) := by
  have hfault : ¬NoPanic ((.error (m.kernelFault va) : Except Halt ℕ) >>= f) := by
    intro hsafe
    unfold kernelFault at hsafe
    split at hsafe <;> exact hsafe _ rfl
  rw [kaddr, Usable]
  by_cases hk : kernBase ≤ va
  · rw [if_pos hk, if_pos hk]
    exact ⟨fun h => ⟨fun hc => absurd hc (Nat.not_lt.2 hk), h⟩, fun h => h.2⟩
  rw [if_neg hk, if_neg hk, walkpgdir, walk_page]
  by_cases ht : HasTable m.dirs m.proc.pgdir (va / 4096)
  · rw [walk_eq_entry ht]
    change NoPanic ((if flagOn (m.pte (va / 4096)) pteP && (!write || flagOn (m.pte (va / 4096)) pteW) then _ else _)
      >>= f) ↔ _
    have hflags : (flagOn (m.pte (va / 4096)) pteP && (!write || flagOn (m.pte (va / 4096)) pteW)) = true ↔
        m.Present (va / 4096) ∧ (write = true → flagOn (m.pte (va / 4096)) pteW = true) := by
      cases write <;> simp [Machine.Present]
    split_ifs with hc
    · exact ⟨fun h => ⟨fun _ => hflags.1 hc, h⟩, fun h => h.2⟩
    · exact iff_of_false hfault fun h => hc (hflags.2 (h.1 (Nat.not_le.1 hk)))
  · rw [walk_eq_none_iff.2 ht]
    exact iff_of_false hfault fun h => ht (hasTable_of_present (h.1 (Nat.not_le.1 hk)).1)

theorem noPanic_kread {f : Byte → Except Halt α} :
    NoPanic (m.kread va >>= f) ↔ m.Usable va false ∧ NoPanic (f (m.byteAt va)) := by
  rw [kread, bind_assoc]
  exact noPanic_kaddr

theorem noPanic_fetchint {f : Option ℕ → Except Halt α} : NoPanic (m.fetchint a >>= f) ↔
    (m.Accepts a 4 → (∀ va, a ≤ va → va < a + 4 → m.Usable va false) ∧ NoPanic (f (some (m.wordAt a)))) ∧
      (¬m.Accepts a 4 → NoPanic (f none)) := by
  rw [fetchint]
  by_cases hacc : m.Accepts a 4
  · rw [if_neg (by rw [Accepts] at hacc; omega)]
    simp only [bind_assoc, noPanic_kread, hacc, not_true_eq_false, forall_true_left, IsEmpty.forall_iff, and_true]
    refine ⟨fun ⟨h₀, h₁, h₂, h₃, h⟩ => ⟨fun va hle hlt => ?_, h⟩, fun ⟨hu, h⟩ => ⟨hu _ (by omega) (by omega),
      hu _ (by omega) (by omega), hu _ (by omega) (by omega), hu _ (by omega) (by omega), h⟩⟩
    obtain rfl | rfl | rfl | rfl : va = a ∨ va = a + 1 ∨ va = a + 2 ∨ va = a + 3 := by omega
    exacts [h₀, h₁, h₂, h₃]
  · rw [if_pos (by rw [Accepts] at hacc; omega)]
    simp only [hacc, IsEmpty.forall_iff, not_false_eq_true, forall_true_left, true_and]
    rfl

theorem noPanic_strLoop {f : Option ℕ → Except Halt α} (hf : ∀ r, NoPanic (f r)) (count s : ℕ) :
    NoPanic (m.strLoop count s >>= f) ↔ ∀ va, s ≤ va → va < s + count →
      (∀ k, s ≤ k → k < va → m.byteAt k ≠ 0) → m.Usable va false := by
  induction count generalizing s with
  | zero => exact iff_of_true (hf none) fun va hle hlt => by omega
  | succ count ih =>
    rw [strLoop, bind_assoc, noPanic_kread]
    refine ⟨fun ⟨hu, h⟩ va hle hlt hno => ?_, fun h => ⟨h s le_rfl (by omega) fun k _ _ => by omega, ?_⟩⟩
    · obtain rfl | hlt' := hle.eq_or_lt
      · exact hu
      rw [if_neg (hno s le_rfl hlt'), ih] at h
      exact h va hlt' (by omega) fun k hk => hno k (by omega)
    · split_ifs with hz
      · exact hf _
      · refine (ih (s + 1)).2 fun va hle hlt hno => h va (by omega) (by omega) fun k hk hkv => ?_
        obtain rfl | hlt' := hk.eq_or_lt
        · exact hz
        · exact hno k hlt' hkv

theorem noPanic_accessRange (count i : ℕ) : NoPanic (m.accessRange write count i) ↔
    ∀ va, i ≤ va → va < i + count → m.Usable va write := by
  induction count generalizing i with
  | zero => exact iff_of_true (noPanic_ok ()) fun va hle hlt => by omega
  | succ count ih =>
    rw [accessRange, noPanic_kaddr, ih]
    refine ⟨fun ⟨hu, h⟩ va hle hlt => ?_, fun h => ⟨h i le_rfl (by omega), fun va hle hlt => h va (by omega) (by omega)⟩⟩
    obtain rfl | hlt' := hle.eq_or_lt
    · exact hu
    · exact h va hlt' (by omega)

theorem noPanic_argint {g : Option ℕ → Except Halt Unit} {p : Param} {esp : ℕ} (hnone : NoPanic (g none))
    (hsome : ∀ i, NoPanic (g (some i)) ↔ ∀ va w, m.Reaches i p va w → m.Usable va w) :
    NoPanic (m.argint esp n >>= g) ↔
      ∀ va w, m.Touches ((esp + 4 + 4 * n) % 0x100000000) p va w → m.Usable va w := by
  rw [argint, noPanic_fetchint, hsome]
  refine ⟨fun ⟨h, _⟩ va w ⟨hacc, ht⟩ => ?_, fun h => ⟨fun hacc => ⟨fun va hle hlt => ?_, fun va w hr => ?_⟩,
    fun _ => hnone⟩⟩
  · rcases ht with ⟨hle, hlt, rfl⟩ | hr
    · exact (h hacc).1 va hle hlt
    · exact (h hacc).2 va w hr
  · exact h va false ⟨hacc, .inl ⟨hle, hlt, rfl⟩⟩
  · exact h va w ⟨hacc, .inr hr⟩

/-- Using an argument does not make the kernel panic exactly if all the bytes it touches are in pages that are
present, and writable where they are written. -/
theorem argument_noPanic_iff (m : Machine) (esp n : ℕ) (p : Param) : NoPanic (m.argument esp n p) ↔
    ∀ va w, m.Touches ((esp + 4 + 4 * n) % 0x100000000) p va w → m.Usable va w := by
  cases p with
  | word => exact noPanic_argint (noPanic_ok ()) fun i => iff_of_true (noPanic_ok ()) fun _ _ hc => hc.elim
  | block size write =>
    rw [argument, argptr, bind_assoc]
    refine noPanic_argint (noPanic_ok ()) fun i => ?_
    dsimp only
    split_ifs with hc
    · refine iff_of_true (noPanic_ok ()) fun va w hr => ?_
      obtain ⟨hsize, hacc, -⟩ := hr
      rw [Accepts] at hacc
      omega
    · refine (noPanic_accessRange size.toNat i).trans ⟨?_, fun h va hle hlt => h va write ⟨?_, ?_, hle, hlt, rfl⟩⟩
      · rintro h va w ⟨-, -, hle, hlt, rfl⟩
        exact h va hle hlt
      · omega
      · rw [Accepts]
        omega
  | string =>
    rw [argument, argstr, bind_assoc]
    refine noPanic_argint (noPanic_ok ()) fun i => ?_
    dsimp only
    rw [fetchstr]
    split_ifs with hc
    · refine iff_of_true (noPanic_ok ()) fun va w hr => ?_
      obtain ⟨hle, hlt, -⟩ := hr
      omega
    · rw [bind_assoc]
      refine (noPanic_strLoop (fun _ => noPanic_ok ()) _ i).trans ⟨?_, fun h va hle hlt hno => ?_⟩
      swap
      · exact h va false ⟨hle, by omega, hno, rfl⟩
      rintro h va w ⟨hle, hlt, hno, rfl⟩
      exact h va hle (by omega) hno

/-- Page 0 of a process that grows past sixteen pages goes to disk.  Then `write(fd, 0, 1)`, with the arguments
on page 1, makes the kernel panic. -/
theorem argument_panics : ExecImage .SCFIFO (sampleMachine 16 16 8) (sampleMem 16) ∧
    ∃ m, Run.run (step .SCFIFO) [.sbrk 4096] (sampleMachine 16 16 8) = .ok m ∧
    2 < m.proc.pid ∧ m.PagedOut 0 ∧ m.Accepts 0 1 ∧
      m.argument 4096 1 (.block 1 false) = .error (.panic "trap") ∧
      m.trap .SCFIFO 0 false = .error (.panic "trap") := by
  have heval : Run.endsIn (fun m => decide (2 < m.proc.pid ∧ m.PagedOut 0 ∧ 1 < m.proc.sz ∧
      Run.stop (m.argument 4096 1 (.block 1 false)) = some (.panic "trap") ∧
      Run.stop (m.trap .SCFIFO 0 false) = some (.panic "trap")))
      (Run.run (step .SCFIFO) [.sbrk 4096] (sampleMachine 16 16 8)) = true := by
    decide +kernel
  obtain ⟨m, hrun, htest⟩ := Run.of_endsIn heval
  obtain ⟨hpid, hout, hsz, hargument, htrap⟩ := of_decide_eq_true htest
  exact ⟨sample_image (by decide) le_rfl (by decide) (by decide), m, hrun, hpid, hout, ⟨by omega, by omega⟩,
    Run.of_stop hargument, Run.of_stop htrap⟩

end

end Xv6
