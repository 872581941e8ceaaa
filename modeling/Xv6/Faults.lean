import Xv6.Callees

/-!
# Page faults of user code

A fault at an address whose page is paged out and belongs to the process is to be resolved; every
other one is to kill the process and leave the page tables alone.  `trap` looks only at the entry of
the address: it panics when there is no page table to look at, and it pages in whatever is paged out,
the guard page and the rest of the last page included.
-/

namespace Xv6

open Machine

section

variable {sel : Selection} {m m' : Machine} {va v n : ℕ} {X : Set ℕ} {flat : Flat}

end

end Xv6
