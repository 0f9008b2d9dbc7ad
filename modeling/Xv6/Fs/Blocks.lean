/-
  Xv6.Fs.Blocks — disk blocks and the inodes that hold them (`balloc`,
  `bfree`, `bmap`, `itrunc`, `readi`, `writei` of `kernel/fs.c`).

  A step is one of these calls on one inode, under its lock.  A block is its
  contents as `uint`s, which is how `bmap` and `itrunc` read an indirect block;
  `byteAt` and `storeBytes` are the same block as bytes.  The copies from and
  to user memory are inputs, and so is what `bmap` allocates with: `fileread`
  runs outside of a transaction, where `balloc` must not be called.

  `core` is the valid copy in the inode table, `dino` the inode on disk.
-/
import Xv6.Fs.Namespace
import Xv6.Lib.Bytes

namespace Xv6

open Function (update)

/-! ## §1. The disk. -/

/-- the direct blocks of an inode -/
def NDIRECT : Nat := 12

/-- `BSIZE / sizeof(uint)` -/
def NINDIRECT : Nat := 256

/-- blocks in a file, at most -/
def MAXFILE : Nat := NDIRECT + NINDIRECT

/-- What the code uses of the super block, and where the data blocks start. -/
structure Super where
  size : Nat
  nmeta : Nat

/-- The block is a data block. -/
def Super.isData (sb : Super) (b : Nat) : Bool := decide (sb.nmeta ≤ b ∧ b < sb.size)

/-- `struct dinode`, without link count and device numbers. -/
structure Dino where
  type : Option InodeType
  size : Nat
  addrs : Fin (NDIRECT + 1) → Nat

/-- The cell of `addrs` for the indirect block. -/
def INDIRECT : Fin (NDIRECT + 1) := Fin.last NDIRECT

/-- `ip->addrs[a] = b` -/
def Dino.setAddr (ip : Dino) (a : Fin (NDIRECT + 1)) (b : Nat) : Dino :=
  { ip with addrs := update ip.addrs a b }

/-- Why a call does not return. -/
inductive BlkFault where
  | disabled
  | panic (msg : String)
  deriving DecidableEq, Repr

/-- What a call returns. -/
abbrev BlkResult := Except BlkFault

/-- The disk and the inode table. -/
structure BlkSys (k : Nat) where
  /-- the bit of the bitmap -/
  used : Nat → Bool
  blk : Nat → Fin NINDIRECT → Nat
  dino : Inum k → Dino
  core : Inum k → Option Dino

namespace BlkSys

variable {k : Nat}

/-- A bit of the bitmap changes. -/
def setUsed (s : BlkSys k) (b : Nat) (x : Bool) : BlkSys k :=
  { s with used := update s.used b x }

/-- A block changes. -/
def setBlk (s : BlkSys k) (b : Nat) (x : Fin NINDIRECT → Nat) : BlkSys k :=
  { s with blk := update s.blk b x }

/-- An inode on disk changes. -/
def setDino (s : BlkSys k) (i : Inum k) (x : Dino) : BlkSys k :=
  { s with dino := update s.dino i x }

/-- An entry of the inode table changes. -/
def setCore (s : BlkSys k) (i : Inum k) (x : Option Dino) : BlkSys k :=
  { s with core := update s.core i x }

/-! ## §2. `fs.c`. -/

/-- `balloc()`: the first free block, zeroed; 0 when there is none. -/
def balloc (sb : Super) (s : BlkSys k) : BlkSys k × Nat :=
  match (List.range sb.size).find? fun b => !s.used b with
  | none => (s, 0)
  | some b => ((s.setUsed b true).setBlk b fun _ => 0, b)

/-- `bfree(b)` -/
def bfree (s : BlkSys k) (b : Nat) : BlkResult (BlkSys k) :=
  if s.used b = false then .error (.panic "freeing free block") else .ok (s.setUsed b false)

/-- What an empty cell is filled with. -/
abbrev Alloc (k : Nat) := BlkSys k → BlkResult (BlkSys k × Nat)

/-- `balloc()` inside a transaction. -/
def ballocIn (sb : Super) : Alloc k := fun s => .ok (s.balloc sb)

/-- An empty cell of `addrs` is filled. -/
def fillAddr (alloc : Alloc k) (s : BlkSys k) (ip : Dino) (a : Fin (NDIRECT + 1)) : BlkResult (BlkSys k × Dino × Nat) :=
  if ip.addrs a = 0 then do
    let (s, addr) ← alloc s
    .ok (if addr = 0 then (s, ip, 0) else (s, ip.setAddr a addr, addr))
  else .ok (s, ip, ip.addrs a)

/-- An empty entry of the indirect block `ind` is filled. -/
def fillEntry (alloc : Alloc k) (s : BlkSys k) (ind : Nat) (j : Fin NINDIRECT) : BlkResult (BlkSys k × Nat) :=
  if s.blk ind j = 0 then do
    let (s, addr) ← alloc s
    .ok (if addr = 0 then (s, 0) else (s.setBlk ind (update (s.blk ind) j addr), addr))
  else .ok (s, s.blk ind j)

/-- `bmap(ip, bn)` -/
def bmap (alloc : Alloc k) (s : BlkSys k) (ip : Dino) (bn : Nat) : BlkResult (BlkSys k × Dino × Nat) :=
  if h : bn < NDIRECT then s.fillAddr alloc ip ⟨bn, Nat.lt_succ_of_lt h⟩
  else if h : bn - NDIRECT < NINDIRECT then do
    let (s, ip, ind) ← s.fillAddr alloc ip INDIRECT
    if ind = 0 then .ok (s, ip, 0)
    else
      let (s, addr) ← s.fillEntry alloc ind ⟨bn - NDIRECT, h⟩
      .ok (s, ip, addr)
  else .error (.panic "bmap: out of range")

/-- `iupdate(ip)` -/
def iupdate (s : BlkSys k) (i : Inum k) (ip : Dino) : BlkSys k :=
  (s.setDino i ip).setCore i (some ip)

/-- One turn of the first loop of `itrunc()`. -/
def truncDirect (x : BlkSys k × Dino) (a : Fin NDIRECT) : BlkResult (BlkSys k × Dino) :=
  if x.2.addrs a.castSucc = 0 then .ok x
  else do
    let s ← x.1.bfree (x.2.addrs a.castSucc)
    .ok (s, x.2.setAddr a.castSucc 0)

/-- One turn of its second loop, over the entries `a` of the indirect block. -/
def truncIndirect (a : Fin NINDIRECT → Nat) (s : BlkSys k) (j : Fin NINDIRECT) :
    BlkResult (BlkSys k) :=
  if a j = 0 then .ok s else s.bfree (a j)

/-- The part of `itrunc()` for the indirect block. -/
def truncRest (s : BlkSys k) (ip : Dino) : BlkResult (BlkSys k × Dino) :=
  if ip.addrs INDIRECT = 0 then .ok (s, ip)
  else do
    let s ← (List.finRange NINDIRECT).foldlM (truncIndirect (s.blk (ip.addrs INDIRECT))) s
    let s ← s.bfree (ip.addrs INDIRECT)
    .ok (s, ip.setAddr INDIRECT 0)

/-- `itrunc(ip)` -/
def itrunc (s : BlkSys k) (i : Inum k) (ip : Dino) : BlkResult (BlkSys k × Dino) := do
  let x ← (List.finRange NDIRECT).foldlM truncDirect (s, ip)
  let y ← truncRest x.1 x.2
  .ok (y.1.iupdate i { y.2 with size := 0 }, { y.2 with size := 0 })

/-- Byte `o` of a block. -/
def byteAt (x : Fin NINDIRECT → Nat) (o : Nat) : UInt8 :=
  Lib.leByte (x ⟨o / 4 % NINDIRECT, Nat.mod_lt _ (by decide)⟩) (o % 4)

/-- Bytes are stored in a block, from byte `o` on. -/
def storeBytes (x : Fin NINDIRECT → Nat) (o : Nat) (bs : List UInt8) : Fin NINDIRECT → Nat := fun j =>
  Lib.leNat (fun t => if o ≤ t ∧ t < o + bs.length then bs.getD (t - o) 0 else byteAt x t) (4 * j) 4

/-- `either_copyin(dst, user_src, src, len)`: the bytes that it stores at `dst`, and whether it returns 0. -/
abbrev Copyin := Nat → Nat → List UInt8 × Bool

/-- The loop of `writei()`; every turn copies at least one byte, so `fuel = n`
turns are enough.  Returns where the loop stopped. -/
def writeLoop (sb : Super) (copyin : Copyin) (src n : Nat) :
    Nat → BlkSys k → Dino → Nat → Nat → BlkResult (BlkSys k × Dino × Nat)
  | 0, s, ip, off, _ => .ok (s, ip, off)
  | fuel + 1, s, ip, off, tot =>
    if n ≤ tot then .ok (s, ip, off)
    else do
      let (s, ip, addr) ← s.bmap (ballocIn sb) ip (off / BSIZE)
      if addr = 0 then .ok (s, ip, off)
      else
        let m := min (n - tot) (BSIZE - off % BSIZE)
        let copied := copyin (u64 (src + tot)) m
        -- what was copied is in the buffer, also when the copy failed
        let s := s.setBlk addr (storeBytes (s.blk addr) (off % BSIZE) copied.1)
        if copied.2 then writeLoop sb copyin src n fuel s ip (off + m) (tot + m)
        else .ok (s, ip, off)

/-- `writei()` with its result; `off` and `n` are `uint`s. -/
def writei (sb : Super) (copyin : Copyin) (s : BlkSys k) (i : Inum k) (ip : Dino) (src off n : Nat) :
    BlkResult (BlkSys k × Dino × Int) :=
  if ip.size < off ∨ (off + n) % 2 ^ 32 < off then .ok (s, ip, -1)
  else if MAXFILE * BSIZE < (off + n) % 2 ^ 32 then .ok (s, ip, -1)
  else do
    let (s, ip, off') ← writeLoop sb copyin src n n s ip off 0
    let ip := if ip.size < off' then { ip with size := off' } else ip
    .ok (s.iupdate i ip, ip, ((off' - off : Nat) : Int))

/-- `either_copyout(user_dst, dst + tot, src, len)` for the bytes `src`: whether it returns 0. -/
abbrev Copyout := Nat → List UInt8 → Bool

/-- The loop of `readi()`: the bytes that it copies out, and whether no copy failed. -/
def readLoop (alloc : Alloc k) (copyout : Copyout) (n : Nat) :
    Nat → BlkSys k → Dino → Nat → Nat → BlkResult (BlkSys k × Dino × List UInt8 × Bool)
  | 0, s, ip, _, _ => .ok (s, ip, [], true)
  | fuel + 1, s, ip, off, tot =>
    if n ≤ tot then .ok (s, ip, [], true)
    else do
      let (s, ip, addr) ← s.bmap alloc ip (off / BSIZE)
      if addr = 0 then .ok (s, ip, [], true)
      else
        let m := min (n - tot) (BSIZE - off % BSIZE)
        let bs := (List.range m).map fun t => byteAt (s.blk addr) (off % BSIZE + t)
        if copyout tot bs then
          let (s, ip, rest, ok) ← readLoop alloc copyout n fuel s ip (off + m) (tot + m)
          .ok (s, ip, bs ++ rest, ok)
        else .ok (s, ip, [], false)

/-- `readi()`: the bytes that it copies out, and its result; it does not write the inode back. -/
def readi (alloc : Alloc k) (s : BlkSys k) (ip : Dino) (off n : Nat) (copyout : Copyout) :
    BlkResult (BlkSys k × Dino × List UInt8 × Int) :=
  if ip.size < off ∨ (off + n) % 2 ^ 32 < off then .ok (s, ip, [], 0)
  else do
    let n := if ip.size < off + n then ip.size - off else n
    let (s, ip, bs, ok) ← readLoop alloc copyout n n s ip off 0
    .ok (s, ip, bs, if ok then (bs.length : Int) else -1)

/-- `ilock()`: the copy in the table, read from disk if it is not valid. -/
def ilock (s : BlkSys k) (i : Inum k) : BlkResult (BlkSys k × Dino) :=
  let ip := (s.core i).getD (s.dino i)
  if ip.type = none then .error (.panic "ilock: no type") else .ok (s.setCore i (some ip), ip)

/-! ## §3. The system. -/

/-- The calls, each in a transaction. -/
inductive BlkStep (k : Nat) where
  /-- `ialloc()` of a free inode -/
  | ialloc (i : Inum k) (type : InodeType)
  | write (i : Inum k) (src off n : Nat) (copyin : Copyin)
  /-- the `readi()` of `dirlookup` or `exec` -/
  | read (i : Inum k) (off n : Nat) (copyout : Copyout)
  /-- `open()` with `O_TRUNC` -/
  | trunc (i : Inum k)
  /-- `iput()` of the last reference to an inode without links -/
  | free (i : Inum k)
  /-- the entry of the inode table is recycled -/
  | evict (i : Inum k)

/-- What a call does. -/
def step (sb : Super) (s : BlkSys k) (c : BlkStep k) : BlkResult (BlkSys k) :=
  match c with
  | .ialloc i type =>
    if (s.dino i).type ≠ none then .error .disabled
    else .ok (s.setDino i ⟨some type, 0, fun _ => 0⟩)
  | .write i src off n copyin => do
      let (s, ip) ← s.ilock i
      let (s, _) ← s.writei sb copyin i ip src off n
      .ok s
  | .read i off n copyout => do
      let (s, ip) ← s.ilock i
      let (s, ip, _) ← s.readi (ballocIn sb) ip off n copyout
      .ok (s.setCore i (some ip))
  | .trunc i => do
      let (s, ip) ← s.ilock i
      let (s, _) ← s.itrunc i ip
      .ok s
  | .free i => do
      let (s, ip) ← s.ilock i
      let (s, ip) ← s.itrunc i ip
      .ok ((s.iupdate i { ip with type := none }).setCore i none)
  | .evict i => .ok (s.setCore i none)

end BlkSys

end Xv6
