import Mathlib.Data.Fintype.Basic
import Xv6.Lib.Run
import Xv6.Machine

/-!
# Blocks and inodes

The block allocator, the inode cache and the contents of inodes: `balloc`, `bfree`, `ialloc`, `iupdate`,
`iget`, `idup`, `ilock`, `iput`, `bmap`, `itrunc`, `readi` and `writei` of `fs.c`.  A disk is its free map,
its inodes and its blocks; blocks are bytes, and an indirect block is read as words.  The functions run
one after the other, as they do for a caller that holds the locks they ask for.
-/

namespace Xv6

abbrev BlockData := ℕ → Byte

namespace BlockData

/-- `((uint*)data)[j]`. -/
def word (data : BlockData) (j : ℕ) : ℕ :=
  (data (4 * j)).toNat + 256 * ((data (4 * j + 1)).toNat +
    256 * ((data (4 * j + 2)).toNat + 256 * (data (4 * j + 3)).toNat))

/-- `((uint*)data)[j] = v`. -/
def setWord (data : BlockData) (j v : ℕ) : BlockData := fun k =>
  if k / 4 = j then UInt8.ofNat (v / 256 ^ (k % 4)) else data k

/-- `memmove(data + off, src, m)`. -/
def copyIn (data : BlockData) (off m : ℕ) (src : ℕ → Byte) : BlockData := fun k =>
  if off ≤ k ∧ k < off + m then src (k - off) else data k

end BlockData

/-- `struct dinode`.  `addrs 12` is the indirect block. -/
structure Dinode where
  type : ℕ
  major : Int
  minor : Int
  nlink : ℕ
  size : ℕ
  addrs : Fin 13 → ℕ

/-- `struct inode` without its lock. -/
structure Inode extends Dinode where
  inum : ℕ
  ref : ℕ
  valid : Bool

/-- A file system and the inode cache. -/
structure Fs where
  /-- `sb.size`. -/
  size : ℕ
  /-- `sb.nblocks`: the blocks behind the fixed ones. -/
  nblocks : ℕ
  /-- `sb.ninodes`. -/
  ninodes : ℕ
  /-- The blocks of the free map. -/
  bitmap : ℕ → BlockData
  dinode : ℕ → Dinode
  block : ℕ → BlockData
  icache : Fin 50 → Inode

namespace Fs

def setBlock (fs : Fs) (b : ℕ) (data : BlockData) : Fs := { fs with block := Function.update fs.block b data }

def setInode (fs : Fs) (i : Fin 50) (ip : Inode) : Fs := { fs with icache := Function.update fs.icache i ip }

/-- `1 << (bi % 8)`. -/
def mask (bi : ℕ) : Byte := 1 <<< UInt8.ofNat (bi % 8)

/-- The bit of `b` in the free map, with 4096 bits a block. -/
def bit (fs : Fs) (b : ℕ) : Bool := (fs.bitmap (b / 4096) (b % 4096 / 8) &&& mask (b % 4096)) != 0

/-- The byte of `b` in the free map replaced. -/
def setByte (fs : Fs) (b : ℕ) (x : Byte) : Fs :=
  let data := Function.update (fs.bitmap (b / 4096)) (b % 4096 / 8) x
  { fs with bitmap := Function.update fs.bitmap (b / 4096) data }

/-- `bp->data[bi/8] |= m`. -/
def mark (fs : Fs) (b : ℕ) : Fs :=
  fs.setByte b (fs.bitmap (b / 4096) (b % 4096 / 8) ||| mask (b % 4096))

/-- `bp->data[bi/8] &= ~m`. -/
def unmark (fs : Fs) (b : ℕ) : Fs :=
  fs.setByte b (fs.bitmap (b / 4096) (b % 4096 / 8) &&& ~~~mask (b % 4096))

/-- The inner loop of `balloc`, over the bits of the map block for `b` from `bi` on. -/
def freeBit (fs : Fs) (b : ℕ) : ℕ → ℕ → Option ℕ
  | 0, _ => none
  | k + 1, bi =>
    if b + bi < fs.size then if fs.bit (b + bi) then freeBit fs b k (bi + 1) else some (b + bi)
    else none

/-- The outer loop of `balloc`. -/
def freeBlock (fs : Fs) : ℕ → ℕ → Option ℕ
  | 0, _ => none
  | k + 1, b =>
    if b < fs.size then
      match fs.freeBit b 4096 0 with
      | some r => some r
      | none => freeBlock fs k (b + 4096)
    else none

def balloc (fs : Fs) : Except Halt (ℕ × Fs) :=
  match fs.freeBlock (fs.size / 4096 + 1) 0 with
  | some b => .ok (b, (fs.mark b).setBlock b fun _ => 0)
  | none => .error (.panic "balloc: out of blocks")

def bfree (fs : Fs) (b : ℕ) : Except Halt Fs :=
  if fs.bit b = false then .error (.panic "freeing free block") else .ok (fs.unmark b)

def iupdate (fs : Fs) (i : Fin 50) : Fs :=
  { fs with dinode := Function.update fs.dinode (fs.icache i).inum (fs.icache i).toDinode }

def iget (fs : Fs) (inum : ℕ) : Except Halt (Fin 50 × Fs) :=
  match (List.finRange 50).find? fun i => 0 < (fs.icache i).ref ∧ (fs.icache i).inum = inum with
  | some i => .ok (i, fs.setInode i { fs.icache i with ref := (fs.icache i).ref + 1 })
  | none =>
    match (List.finRange 50).find? fun i => (fs.icache i).ref = 0 with
    | some i => .ok (i, fs.setInode i { fs.icache i with inum := inum, ref := 1, valid := false })
    | none => .error (.panic "iget: no inodes")

def ialloc (fs : Fs) (type : ℕ) : Except Halt (Fin 50 × Fs) :=
  match (List.range' 1 (fs.ninodes - 1)).find? fun inum => (fs.dinode inum).type = 0 with
  | some inum =>
    iget { fs with dinode := Function.update fs.dinode inum ⟨type, 0, 0, 0, 0, fun _ => 0⟩ } inum
  | none => .error (.panic "ialloc: no inodes")

def idup (fs : Fs) (i : Fin 50) : Fs :=
  fs.setInode i { fs.icache i with ref := (fs.icache i).ref + 1 }

def ilock (fs : Fs) (i : Fin 50) : Except Halt Fs :=
  let ip := fs.icache i
  if ip.ref < 1 then .error (.panic "ilock")
  else if ip.valid then .ok fs
  else if (fs.dinode ip.inum).type = 0 then .error (.panic "ilock: no type")
  else .ok (fs.setInode i { toDinode := fs.dinode ip.inum, inum := ip.inum, ref := ip.ref, valid := true })

/-- `ip->addrs[k] = b`. -/
def setAddr (fs : Fs) (i : Fin 50) (k : Fin 13) (b : ℕ) : Fs :=
  fs.setInode i { fs.icache i with addrs := Function.update (fs.icache i).addrs k b }

/-- The slot of block `bn` of a file, below the indirect ones. -/
def direct (bn : ℕ) (h : bn < 12) : Fin 13 := ⟨bn, Nat.lt_succ_of_lt h⟩

/-- `bmap` for a slot of the inode. -/
def bmapSlot (fs : Fs) (i : Fin 50) (k : Fin 13) : Except Halt (ℕ × Fs) :=
  if (fs.icache i).addrs k = 0 then do
    let (b, fs) ← fs.balloc
    return (b, fs.setAddr i k b)
  else .ok ((fs.icache i).addrs k, fs)

/-- `bmap` for an entry of the indirect block `ind`. -/
def bmapEntry (fs : Fs) (ind j : ℕ) : Except Halt (ℕ × Fs) :=
  if (fs.block ind).word j = 0 then do
    let (b, fs) ← fs.balloc
    return (b, fs.setBlock ind ((fs.block ind).setWord j b))
  else .ok ((fs.block ind).word j, fs)

def bmap (fs : Fs) (i : Fin 50) (bn : ℕ) : Except Halt (ℕ × Fs) :=
  if h : bn < 12 then fs.bmapSlot i (direct bn h)
  else if bn - 12 < 128 then do
    let (ind, fs) ← fs.bmapSlot i 12
    fs.bmapEntry ind (bn - 12)
  else .error (.panic "bmap: out of range")

/-- The first loop of `itrunc`. -/
def freeSlots (i : Fin 50) : List (Fin 13) → Fs → Except Halt Fs
  | [], fs => .ok fs
  | k :: ks, fs =>
    if (fs.icache i).addrs k = 0 then freeSlots i ks fs
    else do
      let fs ← fs.bfree ((fs.icache i).addrs k)
      freeSlots i ks (fs.setAddr i k 0)

/-- The second loop of `itrunc`, over the words `a` of the indirect block. -/
def freeEntries (a : ℕ → ℕ) : List ℕ → Fs → Except Halt Fs
  | [], fs => .ok fs
  | j :: js, fs =>
    if a j = 0 then freeEntries a js fs
    else do
      let fs ← fs.bfree (a j)
      freeEntries a js fs

/-- The part of `itrunc` for the indirect block. -/
def freeIndirect (fs : Fs) (i : Fin 50) : Except Halt Fs :=
  let ind := (fs.icache i).addrs 12
  if ind = 0 then .ok fs
  else do
    let fs ← freeEntries (fs.block ind).word (List.range 128) fs
    let fs ← fs.bfree ind
    return fs.setAddr i 12 0

/-- The slots below the indirect one. -/
def directSlots : List (Fin 13) := (List.finRange 12).map Fin.castSucc

def itrunc (fs : Fs) (i : Fin 50) : Except Halt Fs := do
  let fs ← freeSlots i directSlots fs
  let fs ← fs.freeIndirect i
  return (fs.setInode i { fs.icache i with size := 0 }).iupdate i

def iput (fs : Fs) (i : Fin 50) : Except Halt Fs := do
  let ip := fs.icache i
  let fs ←
    if ip.valid ∧ ip.nlink = 0 ∧ ip.ref = 1 then do
      let fs ← fs.itrunc i
      let fs := (fs.setInode i { fs.icache i with type := 0 }).iupdate i
      pure (fs.setInode i { fs.icache i with valid := false })
    else pure fs
  return fs.setInode i { fs.icache i with ref := (fs.icache i).ref - 1 }

def tDev : ℕ := 3

/-- Whether `devsw[major]` has functions: those of the console. -/
def hasDev (major : Int) : Bool := major == 1

/-- The loop of `readi`, with the bytes read so far. -/
def readLoop (i : Fin 50) : ℕ → ℕ → ℕ → List Byte → Fs → Except Halt (List Byte × Fs)
  | 0, _, _, _, _ => .error .livelock
  | fuel + 1, left, off, dst, fs =>
    if 0 < left then do
      let (b, fs) ← fs.bmap i (off / 512)
      let m := min left (512 - off % 512)
      let bytes := (List.range m).map fun k => fs.block b (off % 512 + k)
      readLoop i fuel (left - m) (off + m) (dst ++ bytes) fs
    else .ok (dst, fs)

/-- `readi`; `none` is the result -1.  A device delivers `input`. -/
def readi (fs : Fs) (i : Fin 50) (off n : ℕ) (input : List Byte) : Except Halt (Option (List Byte) × Fs) :=
  let ip := fs.icache i
  if ip.type = tDev then if hasDev ip.major then .ok (some (input.take n), fs) else .ok (none, fs)
  else if ip.size < off ∨ (off + n) % 2 ^ 32 < off then .ok (none, fs)
  else do
    let n := if ip.size < off + n then ip.size - off else n
    let (dst, fs) ← readLoop i (n + 1) n off [] fs
    return (some dst, fs)

def writeLoop (i : Fin 50) : ℕ → (ℕ → Byte) → ℕ → ℕ → Fs → Except Halt Fs
  | 0, _, _, _, _ => .error .livelock
  | fuel + 1, src, left, off, fs =>
    if 0 < left then do
      let (b, fs) ← fs.bmap i (off / 512)
      let m := min left (512 - off % 512)
      let fs := fs.setBlock b ((fs.block b).copyIn (off % 512) m src)
      writeLoop i fuel (fun k => src (m + k)) (left - m) (off + m) fs
    else .ok fs

/-- `writei`; `none` is the result -1. -/
def writei (fs : Fs) (i : Fin 50) (src : ℕ → Byte) (off n : ℕ) : Except Halt (Option ℕ × Fs) :=
  let ip := fs.icache i
  if ip.type = tDev then if hasDev ip.major then .ok (some n, fs) else .ok (none, fs)
  else if ip.size < off ∨ (off + n) % 2 ^ 32 < off then .ok (none, fs)
  else if maxFileBytes < off + n then .ok (none, fs)
  else do
    let fs ← writeLoop i (n + 1) src n off fs
    if 0 < n ∧ (fs.icache i).size < off + n then
      return (some n, (fs.setInode i { fs.icache i with size := off + n }).iupdate i)
    else return (some n, fs)

end Fs

end Xv6
