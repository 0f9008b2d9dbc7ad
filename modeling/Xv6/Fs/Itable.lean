/-
  Xv6.Fs.Itable — the inode table (`iget`, `idup`, `ilock`, `iunlock`,
  `iput`, `ialloc` of `kernel/fs.c`) and the calls that change links under
  the inode locks.

  Processes interleave at `itable.lock` and the sleep locks: a step is what a
  process does while it holds `itable.lock`, or between taking and releasing
  inode locks.  `iput` and `ialloc`, which let go of the table in the middle,
  have program counters.  A process calls these functions in any order that
  keeps to their contracts: it drops, duplicates and locks only what it has a
  reference to, reads and writes only what it has locked, and gets new
  references from directory entries.

  The entry `.` of a directory is the directory; `dotdot` is its entry `..`,
  `dirent` the others.  `refs p e` counts the references process `p` has to
  entry `e` of the table.
-/
import Xv6.Fs.Blocks

namespace Xv6

open Function (update)

/-! ## §1. The table and the disk. -/

/-- maximum number of active i-nodes -/
def NINODE : Nat := 50

instance : NeZero NINODE := ⟨by decide⟩

/-- A device and an inode number on it. -/
abbrev Ino (m k : Nat) := Fin (m + 2) × Inum k

/-- `(ROOTDEV, ROOTINO)` -/
def rootIno {m k : Nat} : Ino m k := (1, ROOTINO)

/-- `struct dinode`, and the fields of `struct inode` copied from it. -/
structure DiskInode where
  type : Option InodeType
  major : Int
  minor : Int
  nlink : Int
  size : Nat
  addrs : Fin (NDIRECT + 1) → Nat

/-- An inode as `ialloc` leaves it. -/
def DiskInode.zeroed (type : Option InodeType) : DiskInode := ⟨type, 0, 0, 0, 0, fun _ => 0⟩

/-- An index of `itable.inode`. -/
abbrev Entry := Fin NINODE

/-- Where a process is in `iput` or `ialloc`. -/
inductive ItPc (m k : Nat) where
  | idle
  /-- `iput` has locked the inode and released the table -/
  | freeing (e : Entry)
  /-- the inode on disk is free; `valid` is still set -/
  | freed (e : Entry)
  /-- the inode is unlocked; the reference is still to be dropped -/
  | putting (e : Entry)
  /-- `ialloc` has taken the inode on disk and will call `iget` -/
  | allocating (i : Ino m k)
  deriving DecidableEq

/-- A link that a process has counted and not made, or erased and not counted. -/
inductive Pend (m k : Nat) where
  | none
  /-- `sys_link` has raised `nlink` -/
  | counted (i : Ino m k)
  /-- `sys_unlink` has erased the directory entry -/
  | erased (e : Entry)
  deriving DecidableEq

/-- Why a call does not return. -/
inductive ItFault where
  | disabled
  | panic (msg : String)
  deriving DecidableEq, Repr

/-- What a call returns. -/
abbrev ItResult := Except ItFault

/-- The inode table, the disk inodes and what the processes hold. -/
structure ItSys (m k n : Nat) where
  key : Entry → Ino m k
  ref : Entry → Nat
  valid : Entry → Bool
  /-- the holder of the sleep lock -/
  lock : Entry → Option Slot
  copy : Entry → DiskInode
  disk : Ino m k → DiskInode
  dotdot : Ino m k → Option (Inum k)
  dirent : Ino m k → Fin n → Option (Inum k)
  refs : Slot → Entry → Nat
  pc : Slot → ItPc m k
  pend : Slot → Pend m k

namespace ItSys

variable {m k n : Nat}

/-- The counts of an entry change. -/
def setRef (s : ItSys m k n) (p : Slot) (e : Entry) (x y : Nat) : ItSys m k n :=
  { s with
    ref := update s.ref e x
    refs := update s.refs p (update (s.refs p) e y) }

/-- `ip->ref++` for process `p` -/
def addRef (s : ItSys m k n) (p : Slot) (e : Entry) : ItSys m k n :=
  s.setRef p e (s.ref e + 1) (s.refs p e + 1)

/-- `ip->ref--` for process `p` -/
def dropRef (s : ItSys m k n) (p : Slot) (e : Entry) : ItSys m k n :=
  s.setRef p e (s.ref e - 1) (s.refs p e - 1)

/-- The lock of an entry changes hands. -/
def setLock (s : ItSys m k n) (e : Entry) (x : Option Slot) : ItSys m k n :=
  { s with lock := update s.lock e x }

/-- `ip->valid` changes. -/
def setValid (s : ItSys m k n) (e : Entry) (x : Bool) : ItSys m k n :=
  { s with valid := update s.valid e x }

/-- The copy of the disk inode changes. -/
def setCopy (s : ItSys m k n) (e : Entry) (x : DiskInode) : ItSys m k n :=
  { s with copy := update s.copy e x }

/-- The entry is used for another inode. -/
def setKey (s : ItSys m k n) (e : Entry) (x : Ino m k) : ItSys m k n :=
  { s with key := update s.key e x }

/-- A disk inode changes. -/
def setDisk (s : ItSys m k n) (i : Ino m k) (x : DiskInode) : ItSys m k n :=
  { s with disk := update s.disk i x }

/-- A process comes to another place. -/
def setPc (s : ItSys m k n) (p : Slot) (x : ItPc m k) : ItSys m k n :=
  { s with pc := update s.pc p x }

/-- What a process still has to do changes. -/
def setPend (s : ItSys m k n) (p : Slot) (x : Pend m k) : ItSys m k n :=
  { s with pend := update s.pend p x }

/-- A `..` entry changes. -/
def setDotdot (s : ItSys m k n) (i : Ino m k) (x : Option (Inum k)) : ItSys m k n :=
  { s with dotdot := update s.dotdot i x }

/-- A directory entry changes. -/
def setDirent (s : ItSys m k n) (i : Ino m k) (o : Fin n) (x : Option (Inum k)) : ItSys m k n :=
  { s with dirent := update s.dirent i (update (s.dirent i) o x) }

/-- The contents of an inode are discarded. -/
def clearDir (s : ItSys m k n) (i : Ino m k) : ItSys m k n :=
  { s with dotdot := update s.dotdot i none, dirent := update s.dirent i fun _ => none }

/-- Fields of a locked inode are changed and written back with `iupdate()`. -/
def update (s : ItSys m k n) (e : Entry) (x : DiskInode) : ItSys m k n :=
  (s.setCopy e x).setDisk (s.key e) x

/-! ## §2. `fs.c`. -/

/-- `iget()` for process `p`: the entry of the inode, or an empty one. -/
def iget (s : ItSys m k n) (p : Slot) (i : Ino m k) : ItResult (ItSys m k n) :=
  match (List.finRange NINODE).find? fun e => 0 < s.ref e ∧ s.key e = i with
  | some e => .ok (s.addRef p e)
  | none =>
    match (List.finRange NINODE).find? fun e => s.ref e = 0 with
    | none => .error (.panic "iget: no inodes")
    | some e => .ok (((s.setKey e i).setValid e false).addRef p e)

/-- `ilock()`; waits while the lock is taken. -/
def ilock (s : ItSys m k n) (p : Slot) (e : Entry) : ItResult (ItSys m k n) :=
  if s.lock e ≠ none then .error .disabled
  else if s.valid e then .ok (s.setLock e (some p))
  else if (s.disk (s.key e)).type = none then .error (.panic "ilock: no type")
  else .ok (((s.setLock e (some p)).setCopy e (s.disk (s.key e))).setValid e true)

/-- `iunlock(ip)` -/
def iunlock (s : ItSys m k n) (p : Slot) (e : Entry) : ItResult (ItSys m k n) :=
  if s.lock e = some p then .ok (s.setLock e none) else .error (.panic "iunlock")

/-- `iput()` up to where it releases the table for the first time.  With
`ref == 1` nobody has the inode locked; otherwise `acquiresleep` would sleep
with the table locked. -/
def iput (s : ItSys m k n) (p : Slot) (e : Entry) : ItResult (ItSys m k n) :=
  if s.ref e = 1 ∧ s.valid e = true ∧ (s.copy e).nlink = 0 then
    if s.lock e = none then .ok ((s.setLock e (some p)).setPc p (.freeing e))
    else .error (.panic "sched locks")
  else .ok (s.dropRef p e)

/-- The parts of `iput()` and `ialloc()` that follow. -/
def next (s : ItSys m k n) (p : Slot) : ItResult (ItSys m k n) :=
  match s.pc p with
  | .idle => .error .disabled
  -- itrunc, type = 0, iupdate
  | .freeing e =>
    .ok (((s.update e { s.copy e with type := none, size := 0, addrs := fun _ => 0 }).clearDir
      (s.key e)).setPc p (.freed e))
  -- valid = 0, releasesleep
  | .freed e => .ok (((s.setValid e false).setLock e none).setPc p (.putting e))
  | .putting e => .ok ((s.dropRef p e).setPc p .idle)
  | .allocating i => (s.setPc p .idle).iget p i

/-- `ialloc()` up to its call of `iget()`, for a free inode. -/
def ialloc (s : ItSys m k n) (p : Slot) (i : Ino m k) (type : InodeType) : ItResult (ItSys m k n) :=
  if (s.disk i).type ≠ none ∨ i.2 = 0 then .error .disabled
  else .ok (((s.setDisk i (.zeroed (some type))).clearDir i).setPc p (.allocating i))

/-! ## §3. Links, under the inode locks. -/

/-- `dirlookup()` in the locked directory `d`: the entry found names `i`. -/
def lookup (s : ItSys m k n) (p : Slot) (d : Entry) (found : Option (Inum k)) :
    ItResult (ItSys m k n) :=
  if (s.copy d).type ≠ some .T_DIR then .error (.panic "dirlookup not DIR")
  else
    match found with
    | none => .error .disabled
    | some i => s.iget p ((s.key d).1, i)

/-- The first locked part of `sys_link()`. -/
def linkUp (s : ItSys m k n) (p : Slot) (e : Entry) : ItResult (ItSys m k n) :=
  if (s.copy e).type = some .T_DIR then .error .disabled
  else .ok ((s.update e { s.copy e with nlink := short ((s.copy e).nlink + 1) }).setPend p
    (.counted (s.key e)))

/-- Its second part: the entry is made. -/
def linkIn (s : ItSys m k n) (p : Slot) (d : Entry) (o : Fin n) : ItResult (ItSys m k n) :=
  match s.pend p with
  | .counted i =>
    if (s.copy d).type = some .T_DIR ∧ (s.key d).1 = i.1 ∧ s.dirent (s.key d) o = none then
      .ok ((s.setDirent (s.key d) o (some i.2)).setPend p .none)
    else .error .disabled
  | _ => .error .disabled

/-- The label `bad` of `sys_link()`. -/
def linkBad (s : ItSys m k n) (p : Slot) (e : Entry) : ItResult (ItSys m k n) :=
  if s.pend p = .counted (s.key e) then
    .ok ((s.update e { s.copy e with nlink := short ((s.copy e).nlink - 1) }).setPend p .none)
  else .error .disabled

/-- `create()` makes the entries for the new inode `e` in the directory `d`. -/
def linkNew (s : ItSys m k n) (d e : Entry) (o : Fin n) : ItResult (ItSys m k n) :=
  if (s.copy d).type = some .T_DIR ∧ (s.copy e).nlink = 0 ∧ (s.key e).1 = (s.key d).1
      ∧ s.dirent (s.key d) o = none then
    let s₁ := (s.update e { s.copy e with nlink := 1 }).setDirent (s.key d) o (some (s.key e).2)
    .ok (if (s.copy e).type = some .T_DIR then
      (s₁.update d { s.copy d with nlink := short ((s.copy d).nlink + 1) }).setDotdot (s.key e)
        (some (s.key d).2)
    else s₁)
  else .error .disabled

/-- `isdirempty()` -/
def isdirempty (s : ItSys m k n) (i : Ino m k) : Bool :=
  (List.finRange n).all fun o => (s.dirent i o).isNone

/-- `sys_unlink()` erases the entry `o` of the directory `d` that names `e`. -/
def unlinkEntry (s : ItSys m k n) (p : Slot) (d e : Entry) (o : Fin n) : ItResult (ItSys m k n) :=
  if (s.copy d).type = some .T_DIR ∧ (s.key e).1 = (s.key d).1
      ∧ s.dirent (s.key d) o = some (s.key e).2 then
    if (s.copy e).nlink < 1 then .error (.panic "unlink: nlink < 1")
    else if (s.copy e).type = some .T_DIR ∧ s.isdirempty (s.key e) = false then .error .disabled
    else
      let s₁ := (s.setDirent (s.key d) o none).setPend p (.erased e)
      .ok (if (s.copy e).type = some .T_DIR then
        s₁.update d { s.copy d with nlink := short ((s.copy d).nlink - 1) } else s₁)
  else .error .disabled

/-- `sys_unlink()` lowers the link count. -/
def unlinkDrop (s : ItSys m k n) (p : Slot) : ItResult (ItSys m k n) :=
  match s.pend p with
  | .erased e =>
    .ok ((s.update e { s.copy e with nlink := short ((s.copy e).nlink - 1) }).setPend p .none)
  | _ => .error .disabled

/-! ## §4. The system. -/

/-- The steps of the file system calls. -/
inductive ItStep (m k n : Nat) where
  /-- `iget(ROOTDEV, ROOTINO)` in `namex()` -/
  | igetRoot (p : Slot)
  | lookupDot (p : Slot) (d : Entry)
  | lookupUp (p : Slot) (d : Entry)
  | lookup (p : Slot) (d : Entry) (o : Fin n)
  | idup (p : Slot) (e : Entry)
  /-- a reference is handed to another process, as by `fork()` and shared files -/
  | pass (p q : Slot) (e : Entry)
  | ilock (p : Slot) (e : Entry)
  | iunlock (p : Slot) (e : Entry)
  | iput (p : Slot) (e : Entry)
  | next (p : Slot)
  | ialloc (p : Slot) (i : Ino m k) (type : InodeType)
  /-- `writei()`, `itrunc()` -/
  | write (p : Slot) (e : Entry) (size : Nat) (addrs : Fin (NDIRECT + 1) → Nat)
  | linkUp (p : Slot) (e : Entry)
  | linkIn (p : Slot) (d : Entry) (o : Fin n)
  | linkBad (p : Slot) (e : Entry)
  | linkNew (p : Slot) (d e : Entry) (o : Fin n)
  | unlinkEntry (p : Slot) (d e : Entry) (o : Fin n)
  | unlinkDrop (p : Slot)

/-- The process is in none of the functions, and not in the middle of `sys_unlink`. -/
def Free (s : ItSys m k n) (p : Slot) : Prop := s.pc p = .idle ∧ ∀ e, s.pend p ≠ .erased e

instance (s : ItSys m k n) (p : Slot) : Decidable (s.Free p) :=
  inferInstanceAs (Decidable (_ ∧ _))

/-- The process has a reference besides the one for its lock or its `iput`. -/
def Spare (s : ItSys m k n) (p : Slot) (e : Entry) : Prop :=
  (if s.lock e = some p ∨ s.pc p = .putting e then 1 else 0) < s.refs p e

instance (s : ItSys m k n) (p : Slot) (e : Entry) : Decidable (s.Spare p e) :=
  inferInstanceAs (Decidable (_ < _))

/-- The contracts of the functions. -/
def Allowed (s : ItSys m k n) : ItStep m k n → Prop
  | .igetRoot p => s.Free p
  | .lookupDot p d | .lookupUp p d | .lookup p d _ => s.Free p ∧ s.lock d = some p
  | .idup p e => s.Free p ∧ 0 < s.refs p e
  | .pass p q e => p ≠ q ∧ s.Spare p e
  | .ilock p e => s.Free p ∧ 0 < s.refs p e
  | .iunlock p e => s.pc p = .idle ∧ s.pend p ≠ .erased e
  | .iput p e => s.pc p = .idle ∧ s.Spare p e
  | .next _ => True
  | .ialloc p _ _ => s.Free p
  | .write p e _ _ => s.Free p ∧ s.lock e = some p
  | .linkUp p e => s.Free p ∧ s.lock e = some p ∧ s.pend p = .none
  | .linkIn p d _ => s.Free p ∧ s.lock d = some p
  | .linkBad p e => s.Free p ∧ s.lock e = some p
  | .linkNew p d e _ => s.Free p ∧ s.lock d = some p ∧ s.lock e = some p ∧ d ≠ e
  | .unlinkEntry p d e _ => s.Free p ∧ s.lock d = some p ∧ s.lock e = some p ∧ d ≠ e
      ∧ s.pend p = .none
  | .unlinkDrop p => s.pc p = .idle

instance (s : ItSys m k n) (c : ItStep m k n) : Decidable (s.Allowed c) := by
  cases c <;> unfold Allowed <;> infer_instance

/-- What a step does. -/
def step (s : ItSys m k n) (c : ItStep m k n) : ItResult (ItSys m k n) :=
  if s.Allowed c then
    match c with
    | .igetRoot p => s.iget p rootIno
    | .lookupDot p d => s.lookup p d (some (s.key d).2)
    | .lookupUp p d => s.lookup p d (s.dotdot (s.key d))
    | .lookup p d o => s.lookup p d (s.dirent (s.key d) o)
    | .idup p e => .ok (s.addRef p e)
    | .pass p q e => .ok ((s.dropRef p e).addRef q e)
    | .ilock p e => s.ilock p e
    | .iunlock p e => s.iunlock p e
    | .iput p e => s.iput p e
    | .next p => s.next p
    | .ialloc p i type => s.ialloc p i type
    | .write _ e size addrs => .ok (s.update e { s.copy e with size := size, addrs := addrs })
    | .linkUp p e => s.linkUp p e
    | .linkIn p d o => s.linkIn p d o
    | .linkBad p e => s.linkBad p e
    | .linkNew _ d e o => s.linkNew d e o
    | .unlinkEntry p d e o => s.unlinkEntry p d e o
    | .unlinkDrop p => s.unlinkDrop p
  else .error .disabled

/-- Nobody goes up from a removed directory or makes a link in it, and no link
count is at its limit. -/
def Fits (s : ItSys m k n) : ItStep m k n → Prop
  | .lookupUp _ d => (s.copy d).nlink ≠ 0
  | .linkUp _ e => (s.copy e).nlink < 32767
  | .linkIn _ d _ => (s.copy d).nlink ≠ 0
  | .linkNew _ d _ _ => (s.copy d).nlink ≠ 0 ∧ (s.copy d).nlink < 32767
  | _ => True

instance (s : ItSys m k n) (c : ItStep m k n) : Decidable (s.Fits c) := by
  cases c <;> unfold Fits <;> infer_instance

end ItSys

end Xv6
