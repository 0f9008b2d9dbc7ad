/-
  Xv6.File.Ftable — open files and file descriptors (`kernel/file.c`,
  `pipealloc` and `pipeclose` of `kernel/pipe.c`, the calls of
  `kernel/sysfile.c` that deal in descriptors, and what `fork` and `exit` do
  to them).

  A step is one system call of one process, with every failure path.  What
  path lookup finds, what `kalloc` returns and whether copies to user memory
  succeed are inputs of the step.

  `allocs` and `frees` count the pipe pages allocated and freed; no step
  reads them.
-/
import Xv6.Proc.State
import Xv6.File.Pipe

namespace Xv6

open Function (update)

/-! ## §1. The tables. -/

/-- open files per process -/
def NOFILE : Nat := 16

/-- open files per system -/
def NFILE : Nat := 100

/-- maximum major device number -/
def NDEV : Int := 10

/-- `open` for reading -/
def O_RDONLY : Nat := 0x000
/-- `open` for writing -/
def O_WRONLY : Nat := 0x001
/-- `open` for both -/
def O_RDWR : Nat := 0x002
/-- `open` creates the file -/
def O_CREATE : Nat := 0x200

/-- The type of an inode in use. -/
inductive InodeType where
  | T_DIR
  | T_FILE
  | T_DEVICE
  deriving DecidableEq, Repr

/-- The kinds of `struct file`. -/
inductive FdType where
  | FD_NONE
  | FD_PIPE
  | FD_INODE
  | FD_DEVICE
  deriving DecidableEq, Repr

/-- An index of `ftable.file`. -/
abbrev FileId := Fin NFILE

/-- A descriptor slot `p->ofile[fd]`. -/
abbrev FdSlot := Slot × Fin NOFILE

/-- `struct file`; a pipe is the page it is in, an inode its table entry. -/
structure File where
  type : FdType
  ref : Nat
  readable : Bool
  writable : Bool
  pipe : Nat
  ip : Nat
  off : Nat
  major : Int
  deriving DecidableEq, Repr

/-- Why a call does not return. -/
inductive FileFault where
  | disabled
  | panic (msg : String)
  /-- a pipe page or an inode entry is used that has been freed -/
  | freed
  | null
  deriving DecidableEq, Repr

/-- What a call returns. -/
abbrev FileResult := Except FileFault

/-- The open files, and what they refer to. -/
structure FtSys where
  file : FileId → File
  ofile : FdSlot → Option FileId
  cwd : Slot → Option Nat
  /-- processes that have not exited -/
  live : Slot → Bool
  /-- `ip->ref` -/
  iref : Nat → Nat
  pipes : Nat → Option Pipe
  allocs : Nat → Nat
  frees : Nat → Nat

namespace FtSys

/-- An entry of the file table changes. -/
def setFile (s : FtSys) (f : FileId) (x : File) : FtSys :=
  { s with file := update s.file f x }

/-- A descriptor changes. -/
def setFd (s : FtSys) (k : FdSlot) (x : Option FileId) : FtSys :=
  { s with ofile := update s.ofile k x }

/-- A working directory changes. -/
def setCwd (s : FtSys) (p : Slot) (x : Option Nat) : FtSys :=
  { s with cwd := update s.cwd p x }

/-- A process is born or dies. -/
def setLive (s : FtSys) (p : Slot) (x : Bool) : FtSys :=
  { s with live := update s.live p x }

/-- The page of a pipe changes. -/
def setPipe (s : FtSys) (pg : Nat) (x : Option Pipe) : FtSys :=
  { s with pipes := update s.pipes pg x }

/-! ## §2. `file.c` and `pipe.c`. -/

/-- A reference to inode `i` more, as `namei`, `create` and `idup` leave it. -/
def idup (s : FtSys) (i : Nat) : FtSys :=
  { s with iref := update s.iref i (s.iref i + 1) }

/-- `iput(ip)`, as far as the count goes -/
def iput (s : FtSys) (i : Nat) : FileResult FtSys :=
  if s.iref i = 0 then .error .freed
  else .ok { s with iref := update s.iref i (s.iref i - 1) }

/-- `filealloc()` -/
def filealloc (s : FtSys) : Option (FtSys × FileId) :=
  match (List.finRange NFILE).find? fun f => (s.file f).ref = 0 with
  | some f => some (s.setFile f { s.file f with ref := 1 }, f)
  | none => none

/-- `filedup(f)` -/
def filedup (s : FtSys) (f : FileId) : FileResult FtSys :=
  if (s.file f).ref < 1 then .error (.panic "filedup")
  else .ok (s.setFile f { s.file f with ref := (s.file f).ref + 1 })

/-- `kfree((char*)pi)` -/
def kfreePipe (s : FtSys) (pg : Nat) : FtSys :=
  { s with
    pipes := update s.pipes pg none
    frees := update s.frees pg (s.frees pg + 1) }

/-- `pipeclose(pi, writable)` -/
def closePipe (s : FtSys) (pg : Nat) (writable : Bool) : FileResult FtSys :=
  match s.pipes pg with
  | none => .error .freed
  | some pi =>
    let pi := pipeclose pi writable
    if pi.readopen = false ∧ pi.writeopen = false then .ok (s.kfreePipe pg)
    else .ok (s.setPipe pg (some pi))

/-- `fileclose(f)` -/
def fileclose (s : FtSys) (f : FileId) : FileResult FtSys :=
  let ff := s.file f
  if ff.ref < 1 then .error (.panic "fileclose")
  else if ff.ref - 1 > 0 then .ok (s.setFile f { ff with ref := ff.ref - 1 })
  else
    let s := s.setFile f { ff with ref := 0, type := .FD_NONE }
    match ff.type with
    | .FD_PIPE => s.closePipe ff.pipe ff.writable
    | .FD_INODE => s.iput ff.ip
    | .FD_DEVICE => s.iput ff.ip
    | .FD_NONE => .ok s

/-- The end of `pipealloc`: a pipe in page `pg` with its two files. -/
def newPipe (s : FtSys) (pg : Nat) (page : Nat → UInt8) (f0 f1 : FileId) : FtSys :=
  let s := { s with
    pipes := update s.pipes pg (some (Pipe.alloc page))
    allocs := update s.allocs pg (s.allocs pg + 1) }
  let s := s.setFile f0 { s.file f0 with
    type := .FD_PIPE, readable := true, writable := false, pipe := pg }
  s.setFile f1 { s.file f1 with type := .FD_PIPE, readable := false, writable := true, pipe := pg }

/-- `pipealloc(&f0, &f1)`; `page` is what `kalloc` returns. -/
def pipealloc (s : FtSys) (page : Option (Nat × (Nat → UInt8))) :
    FileResult (FtSys × Option (FileId × FileId)) :=
  match s.filealloc with
  | none => .ok (s, none)
  | some (s, f0) =>
    match s.filealloc with
    | none => do
        let s ← s.fileclose f0
        .ok (s, none)
    | some (s, f1) =>
      match page with
      | none => do
          let s ← s.fileclose f0
          let s ← s.fileclose f1
          .ok (s, none)
      | some (pg, data) => .ok (s.newPipe pg data f0 f1, some (f0, f1))

/-! ## §3. `sysfile.c`, `fork` and `exit`. -/

/-- `fdalloc(f)` -/
def fdalloc (s : FtSys) (p : Slot) (f : FileId) : Option (FtSys × Fin NOFILE) :=
  match (List.finRange NOFILE).find? fun fd => s.ofile (p, fd) = none with
  | some fd => some (s.setFd (p, fd) (some f), fd)
  | none => none

/-- `sys_dup()` -/
def sys_dup (s : FtSys) (p : Slot) (fd : Fin NOFILE) : FileResult FtSys :=
  match s.ofile (p, fd) with
  | none => .ok s
  | some f =>
    match s.fdalloc p f with
    | none => .ok s
    | some (s, _) => s.filedup f

/-- `sys_close()` -/
def sys_close (s : FtSys) (p : Slot) (fd : Fin NOFILE) : FileResult FtSys :=
  match s.ofile (p, fd) with
  | none => .ok s
  | some f => (s.setFd (p, fd) none).fileclose f

/-- `f->ip = ip` and the other fields `sys_open` sets -/
def openFile (x : File) (omode i : Nat) (type : InodeType) (major : Int) : File :=
  let x := if type = .T_DEVICE then { x with type := .FD_DEVICE, major := major }
    else { x with type := .FD_INODE, off := 0 }
  { x with
    ip := i
    readable := omode &&& O_WRONLY = 0
    writable := omode &&& O_WRONLY ≠ 0 ∨ omode &&& O_RDWR ≠ 0 }

/-- `sys_open()`; `found` is the inode that `create` or `namei` returns, with
its type and major number. -/
def sys_open (s : FtSys) (p : Slot) (omode : Nat) (found : Option (Nat × InodeType × Int)) :
    FileResult FtSys :=
  match found with
  | none => .ok s
  | some (i, type, major) =>
    let s := s.idup i
    if omode &&& O_CREATE = 0 ∧ type = .T_DIR ∧ omode ≠ O_RDONLY then s.iput i
    else if type = .T_DEVICE ∧ (major < 0 ∨ major ≥ NDEV) then s.iput i
    else
      match s.filealloc with
      | none => s.iput i
      | some (s, f) =>
        match s.fdalloc p f with
        | none => do
            let s ← s.fileclose f
            s.iput i
        | some (s, _) => .ok (s.setFile f (openFile (s.file f) omode i type major))

/-- `sys_pipe()`; `copied` is the result of the two `copyout`s. -/
def sys_pipe (s : FtSys) (p : Slot) (page : Option (Nat × (Nat → UInt8))) (copied : Bool) :
    FileResult FtSys := do
  let (s, r) ← s.pipealloc page
  match r with
  | none => .ok s
  | some (rf, wf) =>
    match s.fdalloc p rf with
    | none => do
        let s ← s.fileclose rf
        s.fileclose wf
    | some (s, fd0) =>
      match s.fdalloc p wf with
      | none => do
          let s ← (s.setFd (p, fd0) none).fileclose rf
          s.fileclose wf
      | some (s, fd1) =>
        if copied then .ok s
        else do
          let s ← ((s.setFd (p, fd0) none).setFd (p, fd1) none).fileclose rf
          s.fileclose wf

/-- `sys_chdir()` -/
def sys_chdir (s : FtSys) (p : Slot) (found : Option (Nat × InodeType)) : FileResult FtSys :=
  match found with
  | none => .ok s
  | some (i, type) =>
    let s := s.idup i
    if type ≠ .T_DIR then s.iput i
    else
      match s.cwd p with
      | none => .error .null
      | some old => do
          let s ← s.iput old
          .ok (s.setCwd p (some i))

/-- One turn of the loop over descriptors in `fork`. -/
def forkTurn (p np : Slot) (s : FtSys) (fd : Fin NOFILE) : FileResult FtSys :=
  match s.ofile (p, fd) with
  | none => .ok s
  | some f => do
      let s ← s.filedup f
      .ok (s.setFd (np, fd) (some f))

/-- `fork()` after `uvmcopy` -/
def fork (s : FtSys) (p np : Slot) : FileResult FtSys := do
  let s ← (List.finRange NOFILE).foldlM (forkTurn p np) (s.setLive np true)
  match s.cwd p with
  | none => .error .null
  | some i => .ok ((s.idup i).setCwd np (some i))

/-- One turn of the loop over descriptors in `exit`. -/
def exitTurn (p : Slot) (s : FtSys) (fd : Fin NOFILE) : FileResult FtSys :=
  match s.ofile (p, fd) with
  | none => .ok s
  | some f => do
      let s ← s.fileclose f
      .ok (s.setFd (p, fd) none)

/-- `exit()`, up to `p->cwd = 0` -/
def exit (s : FtSys) (p : Slot) : FileResult FtSys :=
  if p = initproc then .error (.panic "init exiting")
  else do
    let s ← (List.finRange NOFILE).foldlM (exitTurn p) s
    match s.cwd p with
    | none => .error .null
    | some i => do
        let s ← s.iput i
        .ok ((s.setCwd p none).setLive p false)

/-- A critical section of `pipewrite` (`write`) or `piperead`, in a call of
`filewrite` or `fileread`. -/
inductive PipeIo where
  | write (killed : Nat → Bool) (copyin : Nat → Option UInt8) (addr : Nat) (n : Int) (i : Nat)
  | read (killed : Bool) (copyout : Nat → Bool) (addr : Nat) (n : Int)

/-- What the section does to the pipe. -/
def PipeIo.run (io : PipeIo) (pi : Pipe) : Pipe :=
  match io with
  | .write killed copyin addr n i => (pipewriteSection killed copyin addr n pi i).1
  | .read killed copyout addr n => (pipereadSection killed copyout addr n pi).1

/-- `f->writable` or `f->readable` -/
def PipeIo.allowed (io : PipeIo) (x : File) : Bool :=
  match io with
  | .write .. => x.writable
  | .read .. => x.readable

/-- `sys_read()` and `sys_write()` -/
def sys_rw (s : FtSys) (p : Slot) (fd : Fin NOFILE) (io : PipeIo) : FileResult FtSys :=
  match s.ofile (p, fd) with
  | none => .ok s
  | some f =>
    if io.allowed (s.file f) = false then .ok s
    else
      match (s.file f).type with
      | .FD_PIPE =>
        match s.pipes (s.file f).pipe with
        | none => .error .freed
        | some pi => .ok (s.setPipe (s.file f).pipe (some (io.run pi)))
      | .FD_INODE => if s.iref (s.file f).ip = 0 then .error .freed else .ok s
      | .FD_DEVICE => .ok s
      | .FD_NONE => .error (.panic "fileread")

/-! ## §4. The system. -/

/-- The system calls on files. -/
inductive FileStep where
  | dup (p : Slot) (fd : Fin NOFILE)
  | close (p : Slot) (fd : Fin NOFILE)
  | open_ (p : Slot) (omode : Nat) (found : Option (Nat × InodeType × Int))
  | pipe (p : Slot) (page : Option (Nat × (Nat → UInt8))) (copied : Bool)
  | chdir (p : Slot) (found : Option (Nat × InodeType))
  | rw (p : Slot) (fd : Fin NOFILE) (io : PipeIo)
  | fork (p np : Slot)
  | exit (p : Slot)

/-- The process that makes the step. -/
def FileStep.by : FileStep → Slot
  | .dup p _ | .close p _ | .open_ p _ _ | .pipe p _ _ | .chdir p _ | .rw p _ _ | .fork p _
  | .exit p => p

/-- `kalloc` returns a page that is not in use. -/
def pageFree (s : FtSys) (page : Option (Nat × (Nat → UInt8))) : Bool :=
  match page with
  | none => true
  | some (pg, _) => (s.pipes pg).isNone

/-- What a system call does. -/
def step (s : FtSys) (i : FileStep) : FileResult FtSys :=
  if s.live i.by = false then .error .disabled
  else
    match i with
    | .dup p fd => s.sys_dup p fd
    | .close p fd => s.sys_close p fd
    | .open_ p omode found => s.sys_open p omode found
    | .pipe p page copied => if s.pageFree page then s.sys_pipe p page copied else .error .disabled
    | .chdir p found => s.sys_chdir p found
    | .rw p fd io => s.sys_rw p fd io
    | .fork p np => if s.live np then .error .disabled else s.fork p np
    | .exit p => s.exit p

/-- After `userinit`: `init` has the root directory and no open files. -/
def boot (root : Nat) (zero : File) : FtSys where
  file := fun _ => { zero with type := .FD_NONE, ref := 0 }
  ofile := fun _ => none
  cwd := fun p => if p = initproc then some root else none
  live := fun p => p = initproc
  iref := fun i => if i = root then 1 else 0
  pipes := fun _ => none
  allocs := fun _ => 0
  frees := fun _ => 0

/-- The states of all sequences of calls. -/
abbrev Reachable (s : FtSys) : Prop :=
  Lib.Reach (fun s => ∃ root zero, s = boot root zero) (fun _ _ => True) step s

end FtSys

end Xv6
