import Mathlib.Data.List.TakeWhile
import Xv6.Directory

/-!
# Path lookup as composition

`skipelem` and `namex` on the bytes of a path, over inodes whose directories were built by `dirlink` and
`sys_unlink`.  The elements of a path are its non-empty parts between slashes, cut to `DIRSIZ` bytes; `namei`
follows the maps the directories stand for from one element to the next, and `nameiparent` stops before the
last one.  The references `namex` takes and drops on its way, and the locks, are left out: nothing else runs.
-/

namespace Xv6.Directory

/-- `'/'`. -/
def slash : Byte := 47

def rootIno : ℕ := 1

def memmove (dst : CStr) (src : List Byte) : CStr := fun k => if k < src.length then src.getD k 0 else dst k

/-- `skipelem`: the path that follows the next element, and the name buffer with the element in it.  What the
buffer held is left behind the end of a short name. -/
def skipelem (path : List Byte) (name : CStr) : Option (List Byte × CStr) :=
  let path := path.dropWhile (· == slash)
  if path = [] then none
  else
    let s := path.takeWhile (· != slash)
    let name :=
      if dirSiz ≤ s.length then memmove name (s.take dirSiz)
      else Function.update (memmove name s) s.length 0
    some ((path.dropWhile (· != slash)).dropWhile (· == slash), name)

/-- The loop of `namex`, with the inode it has come to. -/
def namexLoop (node : ℕ → Inode) (parent : Bool) : ℕ → ℕ → List Byte → CStr → Except Halt (Option ℕ × CStr)
  | 0, _, _, _ => .error .livelock
  | fuel + 1, ip, path, name =>
    match skipelem path name with
    | none => .ok (if parent then none else some ip, name)
    | some (path, name) =>
      if (node ip).isDir then
        -- stop one level early
        if parent ∧ path = [] then .ok (some ip, name)
        else match dirlookup (node ip) name with
          | .error e => .error e
          | .ok none => .ok (none, name)
          | .ok (some (next, _)) => namexLoop node parent fuel next path name
      else .ok (none, name)

def start (cwd : ℕ) (path : List Byte) : ℕ := if path.head? = some slash then rootIno else cwd

/-- `namex`.  An element takes a byte at least, so a round for each byte is enough. -/
def namex (node : ℕ → Inode) (cwd : ℕ) (path : List Byte) (parent : Bool) (name : CStr) :
    Except Halt (Option ℕ × CStr) :=
  namexLoop node parent (path.length + 1) (start cwd path) path name

/-- `namei`, with what its name buffer happens to hold. -/
def namei (node : ℕ → Inode) (cwd : ℕ) (path : List Byte) (name : CStr) : Except Halt (Option ℕ) :=
  (namex node cwd path false name).map Prod.fst

/-- `nameiparent`: the inode and the name buffer. -/
def nameiparent (node : ℕ → Inode) (cwd : ℕ) (path : List Byte) (name : CStr) : Except Halt (Option ℕ × CStr) :=
  namex node cwd path true name

/-! ### The elements of a path -/

/-- The non-empty parts between slashes, cut to `DIRSIZ` bytes. -/
def components (path : List Byte) : List (List Byte) :=
  ((path.splitOn slash).filter (· ≠ [])).map (List.take dirSiz)

theorem components_slash (path : List Byte) : components (slash :: path) = components path := by
  rw [components, List.splitOn, List.splitOnP_cons_eq_if_modifyHead, if_pos (beq_self_eq_true slash)]
  rfl

theorem components_dropWhile (path : List Byte) : components (path.dropWhile (· == slash)) = components path := by
  induction path with
  | nil => rfl
  | cons b path ih =>
    rw [List.dropWhile_cons]
    split_ifs with hb
    · rw [ih, eq_of_beq hb, components_slash]
    · rfl

theorem components_append {s rest : List Byte} (hs : s ≠ []) (hno : ∀ b ∈ s, (b == slash) = false)
    (hrest : rest.head? = none ∨ rest.head? = some slash) :
    components (s ++ rest) = s.take dirSiz :: components rest := by
  have hsplit : (s ++ rest).splitOn slash = s :: rest.tail.splitOn slash ∨
      rest = [] ∧ (s ++ rest).splitOn slash = [s] := by
    cases rest with
    | nil =>
      right
      rw [List.append_nil]
      exact ⟨rfl, List.splitOnP_eq_singleton hno⟩
    | cons b rest =>
      left
      obtain rfl := Option.some.inj (hrest.resolve_left (by simp))
      exact List.splitOnP_append_cons_of_forall_mem hno _ (beq_self_eq_true _) rest
  obtain hsplit | ⟨rfl, hsplit⟩ := hsplit
  · have htail : components rest = components rest.tail := by
      cases rest with
      | nil => rfl
      | cons b rest =>
        obtain rfl := Option.some.inj (hrest.resolve_left (by simp))
        exact components_slash rest
    rw [components, hsplit, List.filter_cons, if_pos (decide_eq_true hs), List.map_cons, htail]
    rfl
  · rw [components, hsplit, List.filter_cons, if_pos (decide_eq_true hs)]
    rfl

theorem dropWhile_head (p : Byte → Bool) (l : List Byte) :
    (l.dropWhile p).head? = none ∨ ∃ b, (l.dropWhile p).head? = some b ∧ p b = false := by
  have hnot := List.head?_dropWhile_not p l
  cases hhead : (l.dropWhile p).head? with
  | none => exact .inl rfl
  | some b =>
    rw [hhead] at hnot
    exact .inr ⟨b, rfl, hnot⟩

theorem components_elem {path : List Byte} (hne : path ≠ []) (hhead : path.head? ≠ some slash) :
    components path =
      (path.takeWhile (· != slash)).take dirSiz :: components (path.dropWhile (· != slash)) := by
  have hsplit : path.takeWhile (· != slash) ++ path.dropWhile (· != slash) = path :=
    List.takeWhile_append_dropWhile
  have hs : path.takeWhile (· != slash) ≠ [] := by
    obtain ⟨b, rest, rfl⟩ := List.exists_cons_of_ne_nil hne
    have hb : (b != slash) = true := bne_iff_ne.2 fun hc => hhead (congrArg some hc)
    rw [List.takeWhile_cons, if_pos hb]
    exact List.cons_ne_nil _ _
  have hno : ∀ b ∈ path.takeWhile (· != slash), (b == slash) = false := by
    intro b hb
    have hbne : (b != slash) = true := List.mem_takeWhile_imp (p := (· != slash)) hb
    exact beq_eq_false_iff_ne.2 (bne_iff_ne.1 hbne)
  have hrest : (path.dropWhile (· != slash)).head? = none ∨
      (path.dropWhile (· != slash)).head? = some slash := by
    obtain hnone | ⟨b, hb, hslash⟩ := dropWhile_head (· != slash) path
    · exact .inl hnone
    · rw [bne_eq_false_iff_eq] at hslash
      exact .inr (hslash ▸ hb)
  conv_lhs => rw [← hsplit]
  exact components_append hs hno hrest

theorem text_of_list {l : List Byte} {p : CStr} {n : ℕ} (hz : ∀ b ∈ l, b ≠ 0) (hlen : l.length ≤ n)
    (hp : ∀ k < l.length, p k = l.getD k 0) (hend : l.length < n → p l.length = 0) : text p n = l := by
  induction l generalizing p n with
  | nil =>
    cases n with
    | zero => rfl
    | succ n => exact if_pos (hend (Nat.succ_pos n))
  | cons b l ih =>
    cases n with
    | zero => cases hlen
    | succ n =>
      have hb : p 0 = b := hp 0 (Nat.succ_pos _)
      have hrest : text (fun k => p (k + 1)) n = l := by
        refine ih (fun c hc => hz c (List.mem_cons_of_mem b hc)) (Nat.le_of_succ_le_succ hlen)
          (fun k hk => hp (k + 1) (Nat.succ_lt_succ hk)) fun hlt => hend (Nat.succ_lt_succ hlt)
      rw [text, hb, if_neg (hz b List.mem_cons_self), hrest]

theorem nameOf_elem {s : List Byte} (hz : ∀ b ∈ s, b ≠ 0) (name : CStr) :
    nameOf (if dirSiz ≤ s.length then memmove name (s.take dirSiz)
      else Function.update (memmove name s) s.length 0) = s.take dirSiz := by
  split_ifs with hlong
  · have hlen : (s.take dirSiz).length = dirSiz := List.length_take_of_le hlong
    refine text_of_list (fun b hb => hz b (List.mem_of_mem_take hb)) hlen.le (fun k hk => if_pos hk) ?_
    exact fun hc => absurd hc (by omega)
  · have hall : s.take dirSiz = s := List.take_of_length_le (by omega)
    rw [hall]
    refine text_of_list hz (by omega) (fun k hk => ?_) fun _ => Function.update_self _ _ _
    rw [Function.update_of_ne (by omega), memmove, if_pos hk]

theorem skipelem_spec {path : List Byte} (hz : ∀ b ∈ path, b ≠ 0) (name : CStr) :
    (skipelem path name = none ∧ components path = []) ∨
      ∃ rest name', skipelem path name = some (rest, name') ∧
        components path = nameOf name' :: components rest ∧ rest.length < path.length ∧
          (∀ b ∈ rest, b ≠ 0) ∧ (rest = [] ↔ components rest = []) := by
  rw [skipelem, ← components_dropWhile path]
  have hsub : ∀ b ∈ path.dropWhile (· == slash), b ≠ 0 := fun b hb =>
    hz b ((List.dropWhile_sublist _).subset hb)
  have hle : (path.dropWhile (· == slash)).length ≤ path.length := (List.dropWhile_sublist _).length_le
  have hhead : (path.dropWhile (· == slash)).head? ≠ some slash := by
    obtain hnone | ⟨b, hb, hslash⟩ := dropWhile_head (· == slash) path
    · rw [hnone]
      exact fun hc => by cases hc
    · rw [hb]
      rintro hc
      rw [Option.some.inj hc, beq_self_eq_true] at hslash
      cases hslash
  generalize path.dropWhile (· == slash) = p at hsub hle hhead ⊢
  by_cases hp : p = []
  · exact .inl ⟨if_pos hp, by rw [hp]; rfl⟩
  · right
    dsimp only
    rw [if_neg hp]
    refine ⟨_, _, rfl, ?_, ?_, ?_, ?_⟩
    · rw [components_elem hp hhead, components_dropWhile, nameOf_elem]
      exact fun b hb => hsub b ((List.takeWhile_sublist _).subset hb)
    · -- the element is not empty
      have hdrop : (p.dropWhile (· != slash)).length < p.length := by
        obtain ⟨b, rest, rfl⟩ := List.exists_cons_of_ne_nil hp
        have hb : (b != slash) = true := bne_iff_ne.2 fun hc => hhead (congrArg some hc)
        rw [List.dropWhile_cons, if_pos hb]
        exact Nat.lt_succ_of_le (List.dropWhile_sublist _).length_le
      have hdrop' : ((p.dropWhile (· != slash)).dropWhile (· == slash)).length ≤
          (p.dropWhile (· != slash)).length := (List.dropWhile_sublist _).length_le
      omega
    · exact fun b hb => hsub b ((List.dropWhile_sublist _).subset ((List.dropWhile_sublist _).subset hb))
    · refine ⟨fun hc => by rw [hc]; rfl, fun hc => ?_⟩
      by_contra hne
      refine absurd hc ?_
      obtain hnone | ⟨b, hb, hslash⟩ := dropWhile_head (· == slash) (p.dropWhile (· != slash))
      · exact absurd (List.head?_eq_none_iff.1 hnone) hne
      · rw [components_elem hne]
        · exact List.cons_ne_nil _ _
        · rw [hb]
          rintro hc
          rw [Option.some.inj hc, beq_self_eq_true] at hslash
          cases hslash

/-! ### Following a path -/

section
variable (isDir : ℕ → Bool) (look : ℕ → List Byte → Option ℕ)

/-- From `ip` along the names, each in the directory the one before led to. -/
def follow : ℕ → List (List Byte) → Option ℕ
  | ip, [] => some ip
  | ip, name :: names => if isDir ip then (look ip name).bind fun next => follow next names else none

/-- The directory in which the last name is looked up. -/
def parentOf (ip : ℕ) (names : List (List Byte)) : Option ℕ :=
  if names = [] then none else (follow isDir look ip names.dropLast).filter isDir

theorem parentOf_cons {ip : ℕ} {name : List Byte} {names : List (List Byte)} (hne : names ≠ []) :
    parentOf isDir look ip (name :: names) =
      if isDir ip then (look ip name).bind fun next => parentOf isDir look next names else none := by
  obtain ⟨c, cs, rfl⟩ := List.exists_cons_of_ne_nil hne
  rw [parentOf, if_neg (List.cons_ne_nil _ _), List.dropLast_cons_cons, follow]
  split_ifs with hdir
  · cases look ip name with
    | none => rfl
    | some next =>
      dsimp only [Option.bind_some]
      rw [parentOf, if_neg (List.cons_ne_nil _ _)]
  · rfl

variable {isDir look} {node : ℕ → Inode} (hdir : ∀ d, (node d).isDir = isDir d)
  (hlook : ∀ d name, isDir d = true → ∃ r, dirlookup (node d) name = .ok r ∧
    r.map Prod.fst = look d (nameOf name))
include hdir hlook

theorem namexLoop_follow {fuel ip : ℕ} {path : List Byte} (hz : ∀ b ∈ path, b ≠ 0) (hfuel : path.length < fuel)
    (name : CStr) :
    ∃ name', namexLoop node false fuel ip path name = .ok (follow isDir look ip (components path), name') := by
  induction fuel generalizing ip path name with
  | zero => exact absurd hfuel (Nat.not_lt_zero _)
  | succ fuel ih =>
    rw [namexLoop]
    obtain ⟨hnone, hcomp⟩ | ⟨rest, name', hsome, hcomp, hlen, hz', -⟩ := skipelem_spec hz name
    · rw [hnone, hcomp]
      exact ⟨name, rfl⟩
    · rw [hsome, hcomp, follow, hdir]
      dsimp only
      split_ifs with hd hc
      · exact absurd hc.1 (by decide)
      · obtain ⟨r, hr, hmap⟩ := hlook ip name' hd
        rw [hr, ← hmap]
        cases r with
        | none => exact ⟨name', by simp⟩
        | some r => simpa using ih hz' (by omega) name'
      · exact ⟨name', rfl⟩

theorem namexLoop_parentOf {fuel ip : ℕ} {path : List Byte} (hz : ∀ b ∈ path, b ≠ 0)
    (hfuel : path.length < fuel) (name : CStr) :
    ∃ name', namexLoop node true fuel ip path name =
        .ok (parentOf isDir look ip (components path), name') ∧
      (parentOf isDir look ip (components path) ≠ none → (components path).getLast? = some (nameOf name')) := by
  induction fuel generalizing ip path name with
  | zero => exact absurd hfuel (Nat.not_lt_zero _)
  | succ fuel ih =>
    rw [namexLoop]
    obtain ⟨hnone, hcomp⟩ | ⟨rest, name', hsome, hcomp, hlen, hz', hend⟩ := skipelem_spec hz name
    · rw [hnone, hcomp]
      exact ⟨name, rfl, fun hc => absurd rfl hc⟩
    · rw [hsome, hcomp, hdir]
      dsimp only
      by_cases hlast : rest = []
      · rw [hend.1 hlast, parentOf, if_neg (List.cons_ne_nil _ _)]
        have hparent : (follow isDir look ip [nameOf name'].dropLast).filter isDir =
            if isDir ip then some ip else none := Option.filter_some
        rw [hparent]
        split_ifs with hd hc
        · exact ⟨name', rfl, fun _ => rfl⟩
        · exact absurd ⟨rfl, hlast⟩ hc
        · exact ⟨name', rfl, fun hc => absurd rfl hc⟩
      · have hne : components rest ≠ [] := mt hend.2 hlast
        rw [parentOf_cons isDir look hne, List.getLast?_cons_of_ne_nil hne]
        split_ifs with hd hc
        · exact absurd hc.2 hlast
        · obtain ⟨r, hr, hmap⟩ := hlook ip name' hd
          rw [hr, ← hmap]
          cases r with
          | none => exact ⟨name', rfl, fun hc => absurd rfl hc⟩
          | some r => exact ih hz' (by omega) name'
        · exact ⟨name', rfl, fun hc => absurd rfl hc⟩

end

/-! ### The file system -/

/-- Every directory was built by `dirlink` and `sys_unlink`, as its log says. -/
def Built (node : ℕ → Inode) (log : ℕ → List Event) : Prop :=
  ∀ d, (node d).isDir = true →
    ∃ k, 16 * k ≤ maxFileBytes ∧ Run.run step (log d) (zeros k) = .ok (node d)

theorem Built.holds {node : ℕ → Inode} {log : ℕ → List Event} (h : Built node log) {d : ℕ}
    (hd : (node d).isDir = true) : Holds (node d) (latest (log d)) := by
  obtain ⟨k, hk, hrun⟩ := h d hd
  exact Run.tracks (fun _ _ _ _ hs hstep => hs.step hstep) (holds_zeros hk) hrun

/-- Directories are maps and path lookup follows them: no two entries of a directory in use have the same
name, `dirlookup` returns the latest `dirlink` of a name that was not undone, `dirlink` refuses the names that
are there and no others, `namei` follows the elements of the path, and `nameiparent` all but the last, which it
leaves in the name buffer. -/
theorem paths_compose_maps {node : ℕ → Inode} {log : ℕ → List Event} (hbuilt : Built node log) :
    (∀ d, (node d).isDir = true →
      (∀ i j, Live (node d).data i → Live (node d).data j →
        nameOf (nameAt (node d).data (16 * i)) = nameOf (nameAt (node d).data (16 * j)) → i = j) ∧
      (∀ name, (dirlookup (node d) name).map (Option.map Prod.fst) = .ok (latest (log d) (nameOf name))) ∧
      ∀ name (inum : Inum),
        ((∃ dp, dirlink (node d) name inum = .ok (false, dp)) ↔ latest (log d) (nameOf name) ≠ none) ∧
        (latest (log d) (nameOf name) = none → (∃ dp, dirlink (node d) name inum = .ok (true, dp)) ∨
          dirlink (node d) name inum = .error (.panic "dirlink") ∧
            maxFileBytes < (node d).data.size + 16)) ∧
    (∀ cwd path name, (∀ b ∈ path, b ≠ 0) → namei node cwd path name =
      .ok (follow (fun d => (node d).isDir) (fun d => latest (log d)) (start cwd path) (components path))) ∧
    ∀ cwd path name, (∀ b ∈ path, b ≠ 0) → ∃ r name', nameiparent node cwd path name = .ok (r, name') ∧
      r = parentOf (fun d => (node d).isDir) (fun d => latest (log d)) (start cwd path) (components path) ∧
      (r ≠ none → (components path).getLast? = some (nameOf name')) := by
  have hlook : ∀ d name, (node d).isDir = true → ∃ r, dirlookup (node d) name = .ok r ∧
      r.map Prod.fst = latest (log d) (nameOf name) := by
    intro d name hd
    obtain ⟨i, x, hfound, -, -, -, hmap⟩ | ⟨hnone, hmap⟩ := (hbuilt.holds hd).dirlookup name
    · exact ⟨_, hfound, hmap.symm⟩
    · exact ⟨_, hnone, hmap.symm⟩
  refine ⟨fun d hd => ⟨(hbuilt.holds hd).once, fun name => ?_, fun name inum => ?_⟩,
    fun cwd path name hz => ?_, fun cwd path name hz => ?_⟩
  · obtain ⟨r, hr, hmap⟩ := hlook d name hd
    rw [hr, ← hmap]
    rfl
  · obtain ⟨hmap, hlink⟩ | ⟨hmap, dp, hlink, -⟩ | ⟨hmap, hlink, hfull⟩ := (hbuilt.holds hd).dirlink name inum
    · exact ⟨iff_of_true ⟨_, hlink⟩ hmap, fun hc => absurd hc hmap⟩
    · refine ⟨iff_of_false ?_ (not_not.2 hmap), fun _ => .inl ⟨dp, hlink⟩⟩
      rintro ⟨dp', hc⟩
      cases hlink.symm.trans hc
    · refine ⟨iff_of_false ?_ (not_not.2 hmap), fun _ => .inr ⟨hlink, hfull⟩⟩
      rintro ⟨dp', hc⟩
      cases hlink.symm.trans hc
  · obtain ⟨name', hrun⟩ : ∃ name', namexLoop _ false _ (start cwd path) path name = .ok (_, name') :=
      namexLoop_follow (fun _ => rfl) hlook hz (Nat.lt_succ_self path.length) name
    rw [namei, namex, hrun]
    rfl
  · obtain ⟨name', hrun, hlast⟩ : ∃ name', namexLoop _ true _ (start cwd path) path name = .ok (_, name') ∧ _ :=
      namexLoop_parentOf (fun _ => rfl) hlook hz (Nat.lt_succ_self path.length) name
    exact ⟨_, name', hrun, rfl, hlast⟩

/-! ### A tree of two directories -/

def cstr (l : List Byte) : CStr := fun k => l.getD k 0

theorem small_valid (n : ℕ) : 0 < n % 100 + 1 ∧ n % 100 + 1 < 0x10000 := by omega

def small (n : ℕ) : Inum := ⟨n % 100 + 1, small_valid n⟩

/-- The root, where a name was removed and its entry used again, and a directory with a name of 14 bytes, in
which a longer one was linked. -/
def sampleLog : ℕ → List Event
  | 1 => [.link (cstr [46]) (small 0), .link (cstr [46, 46]) (small 0), .link (cstr [120]) (small 2),
      .unlink (cstr [120]), .link (cstr (List.replicate 14 65)) (small 1), .link (cstr [120]) (small 3)]
  | 2 => [.link (cstr [46]) (small 1), .link (cstr [46, 46]) (small 0),
      .link (cstr (List.replicate 15 65)) (small 4)]
  | _ => []

def build (log : List Event) : Inode :=
  match Run.run step log (zeros 0) with
  | .ok dp => dp
  | .error _ => zeros 0

theorem run_build {log : List Event} (h : Run.endsIn (fun _ => true) (Run.run step log (zeros 0)) = true) :
    Run.run step log (zeros 0) = .ok (build log) := by
  obtain ⟨dp, hrun, -⟩ := Run.of_endsIn h
  rw [build, hrun]

def sampleNode (d : ℕ) : Inode :=
  if d = 1 then build (sampleLog 1) else if d = 2 then build (sampleLog 2) else ⟨false, File.empty⟩

theorem sample_built : Built sampleNode sampleLog := by
  intro d hd
  refine ⟨0, by decide, ?_⟩
  by_cases h1 : d = 1
  · subst h1
    exact run_build (by decide +kernel)
  · by_cases h2 : d = 2
    · subst h2
      exact run_build (by decide +kernel)
    · rw [sampleNode, if_neg h1, if_neg h2] at hd
      cases hd

/-- A path with repeated slashes and names of 15 bytes, from the root, and the parent of a relative path. -/
theorem paths_compose_maps_sample :
    namei sampleNode 2 ([47, 47] ++ List.replicate 15 65 ++ [47, 47, 47] ++ List.replicate 16 65 ++ [47])
      (fun _ => 9) = .ok (some 5) ∧
    ∃ name, nameiparent sampleNode 1 (List.replicate 14 65 ++ [47, 120]) (fun _ => 9) = .ok (some 2, name) ∧
      nameOf name = [120] := by
  obtain ⟨-, hnamei, hparent⟩ := paths_compose_maps sample_built
  refine ⟨?_, ?_⟩
  · rw [hnamei _ _ _ (by simp)]
    exact congrArg Except.ok (by decide +kernel)
  · obtain ⟨r, name, hrun, hr, hlast⟩ :=
      hparent 1 (List.replicate 14 65 ++ [47, 120]) (fun _ => 9) (by simp)
    have hfound : r = some 2 := hr.trans (by decide +kernel)
    subst hfound
    have hname : (components (List.replicate 14 65 ++ [47, 120])).getLast? = some [120] := by decide +kernel
    exact ⟨name, hrun, (Option.some.inj (hname.symm.trans (hlast (Option.some_ne_none 2)))).symm⟩

end Xv6.Directory
