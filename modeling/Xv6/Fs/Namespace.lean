/-
  Xv6.Fs.Namespace — directories, links and the calls that change them
  (`namex`, `dirlookup`, `dirlink`, `iput` of `kernel/fs.c`; `sys_link`,
  `sys_unlink`, `create`, `sys_open`, `sys_chdir` of `kernel/sysfile.c`).

  A step is one system call of one process, from `begin_op` to `end_op`.
  An inode is its type, its link count and, for a directory, its entries; the
  blocks that hold them are the matter of `Xv6.Fs.Blocks`.  Whether a
  directory can grow and whether a descriptor can be had are inputs.

  The disk has `k + 2` inodes and a directory room for `n` entries.
-/
import Xv6.File.Ftable

namespace Xv6

open Function (update)

/-! ## §1. Inodes and directories. -/

/-- An inode number; `0` is never allocated. -/
abbrev Inum (k : Nat) := Fin (k + 2)

instance (priority := 2000) Inum.neZero (k : Nat) : NeZero (k + 2) := ⟨nofun⟩

/-- the inode of the root directory -/
def ROOTINO {k : Nat} : Inum k := 1

/-- A path element, cut to `DIRSIZ` bytes. -/
abbrev Name := String

/-- The value of a C `short`. -/
def short (x : Int) : Int := (x + 32768) % 65536 - 32768

theorem short_of_lt {x : Int} (hlo : -32768 ≤ x) (hhi : x < 32768) : short x = x := by
  unfold short
  omega

/-- Why a call does not return. -/
inductive NsFault where
  | disabled
  | panic (msg : String)
  /-- a process waits for a lock it holds -/
  | deadlock
  deriving DecidableEq, Repr

/-- What a call returns. -/
abbrev NsResult := Except NsFault

/-- The directory tree, and what the processes refer to. -/
structure NsSys (k n : Nat) where
  /-- `none` is a free inode -/
  type : Inum k → Option InodeType
  nlink : Inum k → Int
  /-- `none` is an entry whose `inum` is 0 -/
  dirent : Inum k → Fin n → Option (Name × Inum k)
  cwd : Slot → Option (Inum k)
  /-- references from the file table -/
  files : Inum k → Nat

namespace NsSys

variable {k n : Nat}

/-- The type of an inode changes. -/
def setType (s : NsSys k n) (i : Inum k) (x : Option InodeType) : NsSys k n :=
  { s with type := update s.type i x }

/-- A link count changes. -/
def setNlink (s : NsSys k n) (i : Inum k) (x : Int) : NsSys k n :=
  { s with nlink := update s.nlink i x }

/-- The entries of a directory change. -/
def setDir (s : NsSys k n) (i : Inum k) (x : Fin n → Option (Name × Inum k)) : NsSys k n :=
  { s with dirent := update s.dirent i x }

/-- One entry changes. -/
def setEntry (s : NsSys k n) (d : Inum k) (o : Fin n) (x : Option (Name × Inum k)) : NsSys k n :=
  s.setDir d (update (s.dirent d) o x)

/-- A working directory changes. -/
def setCwd (s : NsSys k n) (p : Slot) (x : Option (Inum k)) : NsSys k n :=
  { s with cwd := update s.cwd p x }

/-- The number of open files of an inode changes. -/
def setFiles (s : NsSys k n) (i : Inum k) (x : Nat) : NsSys k n :=
  { s with files := update s.files i x }

/-- Somebody's working directory or open file. -/
def Referenced (s : NsSys k n) (i : Inum k) : Prop := 0 < s.files i ∨ ∃ p, s.cwd p = some i

instance (s : NsSys k n) (i : Inum k) : Decidable (s.Referenced i) :=
  inferInstanceAs (Decidable (_ ∨ _))

/-! ## §2. `fs.c`. -/

/-- What `iput` does to an inode without links: `itrunc`, type 0. -/
def ifree (s : NsSys k n) (i : Inum k) : NsSys k n := (s.setDir i fun _ => none).setType i none

/-- `iput()`, where the caller's reference is no longer counted and `hand` are
the inodes the call still has references to. -/
def iput (s : NsSys k n) (hand : List (Inum k)) (i : Inum k) : NsSys k n :=
  if s.Referenced i ∨ i ∈ hand then s
  else if s.type i ≠ none ∧ s.nlink i = 0 then s.ifree i
  else s

/-- `ialloc()`: the first free inode, zeroed. -/
def ialloc (s : NsSys k n) (type : InodeType) : Option (NsSys k n × Inum k) :=
  match (List.finRange (k + 2)).find? fun i => i ≠ 0 ∧ s.type i = none with
  | none => none
  | some i => some (((s.setDir i fun _ => none).setType i (some type)).setNlink i 0, i)

/-- `dirlookup()`: the first entry with this name. -/
def dirlookup (s : NsSys k n) (dp : Inum k) (name : Name) : Option (Fin n × Inum k) :=
  (List.finRange n).findSome? fun o =>
    match s.dirent dp o with
    | none => none
    | some (nm, i) => if nm = name then some (o, i) else none

/-- `dirlink()`: in the first empty entry; `room` is whether `writei` finds a
block when it needs one.  `none` is the return value -1. -/
def dirlink (s : NsSys k n) (dp : Inum k) (name : Name) (i : Inum k) (room : Bool) :
    Option (NsSys k n) :=
  match s.dirlookup dp name with
  | some _ => none
  | none =>
    match (List.finRange n).find? fun o => s.dirent dp o = none with
    | none => none
    | some o => if room then some (s.setEntry dp o (some (name, i))) else none

/-- The check at the end of `ilock()`. -/
def ilock (s : NsSys k n) (i : Inum k) : NsResult InodeType :=
  match s.type i with
  | none => .error (.panic "ilock: no type")
  | some type => .ok type

/-- The loop of `namex()`. -/
def walk (s : NsSys k n) (hand : List (Inum k)) (parent : Bool) (ip : Inum k) :
    List Name → NsResult (NsSys k n × Option (Inum k × Name))
  | [] => .ok (if parent then (s.iput hand ip, none) else (s, some (ip, "")))
  | name :: path => do
      let type ← s.ilock ip
      if type ≠ .T_DIR then .ok (s.iput hand ip, none)
      else if parent && path.isEmpty then .ok (s, some (ip, name))
      else
        match s.dirlookup ip name with
        | none => .ok (s.iput hand ip, none)
        | some (_, next) => walk (s.iput (next :: hand) ip) hand parent next path

/-- A path: whether it starts with `/`, and its elements. -/
structure Path where
  rooted : Bool
  names : List Name

/-- `namex()`; every process has a working directory. -/
def namex (s : NsSys k n) (hand : List (Inum k)) (parent : Bool) (p : Slot) (path : Path) :
    NsResult (NsSys k n × Option (Inum k × Name)) :=
  if path.rooted then s.walk hand parent ROOTINO path.names
  else
    match s.cwd p with
    | none => .error .disabled
    | some d => s.walk hand parent d path.names

/-- `namei(path)` -/
def namei (s : NsSys k n) (p : Slot) (path : Path) := s.namex [] false p path

/-- `nameiparent(path, name)` -/
def nameiparent (s : NsSys k n) (hand : List (Inum k)) (p : Slot) (path : Path) :=
  s.namex hand true p path

/-! ## §3. `sysfile.c`. -/

/-- The part of `create()` after the label `fail`. -/
def createFail (s : NsSys k n) (dp ip : Inum k) : NsSys k n :=
  ((s.setNlink ip 0).iput [dp] ip).iput [] dp

/-- The directory entries `create()` makes. -/
def createLinks (s : NsSys k n) (dp ip : Inum k) (name : Name) (type : InodeType)
    (room : Bool × Bool × Bool) : NsSys k n × Bool :=
  let made :=
    if type = .T_DIR then
      match s.dirlink ip "." ip room.1 with
      | none => (s, false)
      | some s =>
        match s.dirlink ip ".." dp room.2.1 with
        | none => (s, false)
        | some s => (s, true)
    else (s, true)
  if made.2 then
    match made.1.dirlink dp name ip room.2.2 with
    | none => (made.1, false)
    | some s => (s, true)
  else made

/-- `create()`; the inode it returns is in the caller's hand. -/
def create (s : NsSys k n) (p : Slot) (path : Path) (type : InodeType) (room : Bool × Bool × Bool) :
    NsResult (NsSys k n × Option (Inum k)) := do
  match ← s.nameiparent [] p path with
  | (s, none) => .ok (s, none)
  | (s, some (dp, name)) =>
    match s.dirlookup dp name with
    | some (_, ip) => do
        let s := s.iput [ip] dp
        let old ← s.ilock ip
        if type = .T_FILE ∧ (old = .T_FILE ∨ old = .T_DEVICE) then .ok (s, some ip)
        else .ok (s.iput [] ip, none)
    | none =>
      match s.ialloc type with
      | none => .ok (s.iput [] dp, none)
      | some (s, ip) =>
        let s := s.setNlink ip 1
        match s.createLinks dp ip name type room with
        | (s, false) => .ok (s.createFail dp ip, none)
        | (s, true) =>
          -- now that success is guaranteed: for ".."
          let s := if type = .T_DIR then s.setNlink dp (short (s.nlink dp + 1)) else s
          .ok (s.iput [ip] dp, some ip)

/-- An inode is created and nobody keeps it. -/
def makeInode (s : NsSys k n) (p : Slot) (path : Path) (type : InodeType)
    (room : Bool × Bool × Bool) : NsResult (NsSys k n) := do
  match ← s.create p path type room with
  | (s, none) => .ok s
  | (s, some ip) => .ok (s.iput [] ip)

/-- `sys_mkdir()` -/
def sys_mkdir (s : NsSys k n) (p : Slot) (path : Path) (room : Bool × Bool × Bool) :=
  s.makeInode p path .T_DIR room

/-- `sys_mknod()` -/
def sys_mknod (s : NsSys k n) (p : Slot) (path : Path) (room : Bool × Bool × Bool) :=
  s.makeInode p path .T_DEVICE room

/-- The end of `sys_open()`: `granted` is that the device number is valid and
that a file and a descriptor were found. -/
def openEnd (s : NsSys k n) (ip : Inum k) (granted : Bool) : NsSys k n :=
  if granted then s.setFiles ip (s.files ip + 1) else s.iput [] ip

/-- `sys_open()`; `granted` is whether a file and a descriptor are found -/
def sys_open (s : NsSys k n) (p : Slot) (path : Path) (omode : Nat) (room : Bool × Bool × Bool)
    (granted : Bool) : NsResult (NsSys k n) := do
  if omode &&& O_CREATE ≠ 0 then
    match ← s.create p path .T_FILE room with
    | (s, none) => .ok s
    | (s, some ip) => .ok (s.openEnd ip granted)
  else
    match ← s.namei p path with
    | (s, none) => .ok s
    | (s, some (ip, _)) => do
        let type ← s.ilock ip
        if type = .T_DIR ∧ omode ≠ O_RDONLY then .ok (s.iput [] ip)
        else .ok (s.openEnd ip granted)

/-- The part of `sys_link()` after the label `bad`. -/
def linkBad (s : NsSys k n) (ip : Inum k) : NsSys k n :=
  (s.setNlink ip (short (s.nlink ip - 1))).iput [] ip

/-- `sys_link()` -/
def sys_link (s : NsSys k n) (p : Slot) (old new : Path) (room : Bool) : NsResult (NsSys k n) := do
  match ← s.namei p old with
  | (s, none) => .ok s
  | (s, some (ip, _)) => do
      let type ← s.ilock ip
      if type = .T_DIR then .ok (s.iput [] ip)
      else
        let s := s.setNlink ip (short (s.nlink ip + 1))
        match ← s.nameiparent [ip] p new with
        | (s, none) => .ok (s.linkBad ip)
        | (s, some (dp, name)) =>
          match s.dirlink dp name ip room with
          | none => .ok ((s.iput [ip] dp).linkBad ip)
          | some s => .ok ((s.iput [ip] dp).iput [] ip)

/-- `isdirempty()`: nothing but the first two entries. -/
def isdirempty (s : NsSys k n) (dp : Inum k) : Bool :=
  (List.finRange n).all fun o => decide (o.val < 2) || (s.dirent dp o).isNone

/-- The part of `sys_unlink()` after its checks. -/
def unlinkEntry (s : NsSys k n) (dp : Inum k) (off : Fin n) (ip : Inum k) (type : InodeType) :
    NsSys k n :=
  let s := s.setEntry dp off none
  let s := if type = .T_DIR then s.setNlink dp (short (s.nlink dp - 1)) else s
  let s := s.iput [ip] dp
  (s.setNlink ip (short (s.nlink ip - 1))).iput [] ip

/-- `sys_unlink()` -/
def sys_unlink (s : NsSys k n) (p : Slot) (path : Path) : NsResult (NsSys k n) := do
  match ← s.nameiparent [] p path with
  | (s, none) => .ok s
  | (s, some (dp, name)) =>
    if name = "." ∨ name = ".." then .ok (s.iput [] dp)
    else
      match s.dirlookup dp name with
      | none => .ok (s.iput [] dp)
      | some (off, ip) =>
        if ip = dp then .error .deadlock
        else do
          let type ← s.ilock ip
          if s.nlink ip < 1 then .error (.panic "unlink: nlink < 1")
          else if type = .T_DIR ∧ s.isdirempty ip = false then
            .ok ((s.iput [dp] ip).iput [] dp)
          else .ok (s.unlinkEntry dp off ip type)

/-- `sys_chdir()` -/
def sys_chdir (s : NsSys k n) (p : Slot) (path : Path) : NsResult (NsSys k n) := do
  match ← s.namei p path with
  | (s, none) => .ok s
  | (s, some (ip, _)) => do
      let type ← s.ilock ip
      if type ≠ .T_DIR then .ok (s.iput [] ip)
      else
        match s.cwd p with
        | none => .error .disabled
        | some old => .ok ((s.setCwd p (some ip)).iput [] old)

/-- The last reference of the file table to an inode is closed. -/
def close (s : NsSys k n) (i : Inum k) : NsResult (NsSys k n) :=
  if s.files i = 0 then .error .disabled
  else .ok ((s.setFiles i (s.files i - 1)).iput [] i)

/-- What `exit()` does after its files are closed. -/
def exit (s : NsSys k n) (p : Slot) : NsResult (NsSys k n) :=
  match s.cwd p with
  | none => .error .disabled
  | some d => .ok ((s.setCwd p none).iput [] d)

/-- `np->cwd = idup(p->cwd)` -/
def fork (s : NsSys k n) (p np : Slot) : NsResult (NsSys k n) :=
  match s.cwd p, s.cwd np with
  | some d, none => .ok (s.setCwd np (some d))
  | _, _ => .error .disabled

/-! ## §4. The system. -/

/-- The system calls on paths. -/
inductive NsStep where
  | mkdir (p : Slot) (path : Path) (room : Bool × Bool × Bool)
  | mknod (p : Slot) (path : Path) (room : Bool × Bool × Bool)
  | open_ (p : Slot) (path : Path) (omode : Nat) (room : Bool × Bool × Bool) (granted : Bool)
  | link (p : Slot) (old new : Path) (room : Bool)
  | unlink (p : Slot) (path : Path)
  | chdir (p : Slot) (path : Path)
  | close (i : Nat)
  | fork (p np : Slot)
  | exit (p : Slot)

/-- One call of a process; a process has a working directory. -/
def step (s : NsSys k n) (c : NsStep) : NsResult (NsSys k n) :=
  match c with
  | .mkdir p path room => s.sys_mkdir p path room
  | .mknod p path room => s.sys_mknod p path room
  | .open_ p path omode room granted => s.sys_open p path omode room granted
  | .link p old new room => s.sys_link p old new room
  | .unlink p path => s.sys_unlink p path
  | .chdir p path => s.sys_chdir p path
  | .close i => if h : i < k + 2 then s.close ⟨i, h⟩ else .error .disabled
  | .fork p np => s.fork p np
  | .exit p => s.exit p

/-- An image as `mkfs` makes it without files: a root directory. -/
def mkfs (k n : Nat) : NsSys k n where
  type := fun i => if i = ROOTINO then some .T_DIR else none
  nlink := fun i => if i = ROOTINO then 1 else 0
  dirent := fun i o =>
    if i = ROOTINO then
      if o.val = 0 then some (".", ROOTINO) else if o.val = 1 then some ("..", ROOTINO) else none
    else none
  cwd := fun p => if p = initproc then some ROOTINO else none
  files := fun _ => 0

end NsSys

end Xv6
