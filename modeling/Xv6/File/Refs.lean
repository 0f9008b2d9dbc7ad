/-
  Xv6.File.Refs — the reference counts of open files are exact.

  `Inv s e ei` is the invariant in the middle of a system call: `e f` is the
  number of references to file `f` that are neither in a descriptor slot nor
  still to be counted, `ei` the same for inodes.  Each function of `file.c`
  changes them by one; between system calls they are zero.

  Main result: `open_file_refs`.
-/
import Xv6.File.Ftable
import Xv6.Lib.Holders

namespace Xv6

namespace FtSys

open Function (update update_eq_self update_of_ne update_self)
open Lib (holders holders_update holders_pos holders_eq_zero holders_none holders_update_int)

variable {s s' : FtSys} {e e' : FileId → Int} {ei ei' : Nat → Int} {f : FileId} {p : Slot}

/-! ## §1. What a file refers to. -/

/-- The inode a file holds a reference to. -/
def inodeOf (x : File) : Option Nat :=
  if x.type = .FD_INODE ∨ x.type = .FD_DEVICE then some x.ip else none

/-- The pipe a file is the end of that has the given `writable`. -/
def endOf (writable : Bool) (x : File) : Option Nat :=
  if x.type = .FD_PIPE ∧ x.writable = writable then some x.pipe else none

/-- The inodes that open files refer to. -/
def inodes (s : FtSys) : FileId → Option Nat := fun f => inodeOf (s.file f)

/-- The ends of pipes that open files refer to. -/
def ends (s : FtSys) (writable : Bool) : FileId → Option Nat := fun f => endOf writable (s.file f)

/-- The end of the pipe is open. -/
def isOpen (writable : Bool) (pi : Option Pipe) : Bool :=
  match pi with
  | none => false
  | some pi => if writable then pi.writeopen else pi.readopen

theorem inodes_setFile (s : FtSys) (f : FileId) (x : File) : (s.setFile f x).inodes = update s.inodes f (inodeOf x) :=
  Function.comp_update inodeOf s.file f x

theorem ends_setFile (s : FtSys) (f : FileId) (x : File) (w : Bool) :
    (s.setFile f x).ends w = update (s.ends w) f (endOf w x) :=
  Function.comp_update (endOf w) s.file f x

/-! ## §2. The invariant. -/

/-- One reference more (or less) on the way. -/
def bump {α : Type} [DecidableEq α] (e : α → Int) (a : α) (n : Int) : α → Int :=
  update e a (e a + n)

theorem bump_apply {α : Type} [DecidableEq α] (e : α → Int) (a b : α) (n : Int) :
    bump e a n b = e b + if b = a then n else 0 := by
  unfold bump
  by_cases hb : b = a
  · rw [hb, update_self, if_pos rfl]
  · rw [update_of_ne hb, if_neg hb, Int.add_zero]

theorem bump_undo {α : Type} [DecidableEq α] (e : α → Int) (a : α) {m n : Int} (hmn : m + n = 0) :
    bump (bump e a m) a n = e := by
  funext b
  rw [bump_apply, bump_apply]
  split <;> omega

/-- The counts are the numbers of references, up to the excess `e` and `ei` in the middle of a call. -/
structure Inv (s : FtSys) (e : FileId → Int) (ei : Nat → Int) : Prop where
  ref : ∀ f, ((s.file f).ref : Int) = holders s.ofile f + e f
  closed : ∀ f, (s.file f).ref = 0 → (s.file f).type = .FD_NONE
  iref : ∀ i, (s.iref i : Int) = holders s.inodes i + holders s.cwd i + ei i
  /-- a pipe has one file for each open end -/
  ends : ∀ w pg, holders (s.ends w) pg = if isOpen w (s.pipes pg) then 1 else 0
  /-- and is there as long as one is open -/
  open_ : ∀ pg, s.pipes pg ≠ none → isOpen true (s.pipes pg) = true ∨ isOpen false (s.pipes pg) = true
  frees : ∀ pg, s.allocs pg = s.frees pg + if s.pipes pg = none then 0 else 1
  dead : ∀ p fd, s.live p = false → s.ofile (p, fd) = none

variable (h : s.Inv e ei)
include h

theorem Inv.congr (he : ∀ f, e' f = e f) (hei : ∀ i, ei' i = ei i) : s.Inv e' ei' :=
  ⟨fun f => by rw [he]; exact h.ref f, h.closed, fun i => by rw [hei]; exact h.iref i, h.ends,
    h.open_, h.frees, h.dead⟩

theorem Inv.ref_setFile {x : File} {n : Int} (hx : x.ref = (s.file f).ref + n) (g : FileId) :
    (((s.setFile f x).file g).ref : Int) = holders s.ofile g + bump e f n g := by
  have hg := h.ref g
  show ((update s.file f x g).ref : Int) = _
  rw [bump_apply]
  by_cases hgf : g = f
  · rw [hgf] at hg ⊢
    rw [update_self, if_pos rfl]
    omega
  · rw [update_of_ne hgf, if_neg hgf, Int.add_zero]
    exact hg

theorem Inv.closed_setFile {x : File} (hx : x.ref = 0 → x.type = .FD_NONE) (g : FileId) :
    ((s.setFile f x).file g).ref = 0 → ((s.setFile f x).file g).type = .FD_NONE := by
  show (update s.file f x g).ref = 0 → (update s.file f x g).type = .FD_NONE
  by_cases hgf : g = f
  · rw [hgf, update_self]
    exact hx
  · rw [update_of_ne hgf]
    exact h.closed g

/-- The reference count of a file changes and nothing else. -/
theorem Inv.setRef {n : Nat} (hn : n ≠ 0) :
    (s.setFile f { s.file f with ref := n }).Inv (bump e f (n - (s.file f).ref)) ei := by
  have hin : (s.setFile f { s.file f with ref := n }).inodes = s.inodes := by
    rw [inodes_setFile]
    exact update_eq_self f s.inodes
  have hends : ∀ w, (s.setFile f { s.file f with ref := n }).ends w = s.ends w := by
    intro w
    rw [ends_setFile]
    exact update_eq_self f (s.ends w)
  refine ⟨h.ref_setFile (by dsimp only; omega), h.closed_setFile fun h0 => absurd h0 hn, fun i => ?_, fun w pg => ?_,
    h.open_, h.frees, h.dead⟩
  · rw [hin]; exact h.iref i
  · rw [hends]; exact h.ends w pg

/-- A descriptor slot is written. -/
theorem Inv.setFd (k : FdSlot) (x : Option FileId)
    (hlive : x ≠ none → s.live k.1 = true) :
    (s.setFd k x).Inv (fun g => e g + (if s.ofile k = some g then 1 else 0)
      - if x = some g then 1 else 0) ei := by
  refine ⟨fun g => ?_, h.closed, h.iref, h.ends, h.open_, h.frees, fun p fd hp => ?_⟩
  · have hg := h.ref g
    show ((s.file g).ref : Int) = holders (update s.ofile k x) g + _
    rw [holders_update_int]
    omega
  show update s.ofile k x (p, fd) = none
  by_cases hk : (p, fd) = k
  · rw [hk, update_self]
    by_contra hx
    have := hlive hx
    rw [← hk] at this
    exact Bool.noConfusion (hp.symm.trans this)
  · rw [update_of_ne hk]
    exact h.dead p fd hp

/-! ## §3. The functions of `file.c`. -/

theorem Inv.filealloc (halloc : s.filealloc = some (s', f)) :
    s'.Inv (bump e f 1) ei ∧ (s'.file f).type = .FD_NONE ∧ s'.live = s.live ∧ s'.ofile = s.ofile
      ∧ s'.pipes = s.pipes ∧ s'.cwd = s.cwd ∧ (∀ g, g ≠ f → s'.file g = s.file g) ∧ (s.file f).ref = 0 := by
  unfold FtSys.filealloc at halloc
  split at halloc
  · next g hfind =>
    cases halloc
    have htest := List.find?_some hfind
    have hzero : (s.file f).ref = 0 := of_decide_eq_true htest
    have hset := h.setRef (f := f) (n := 1) Nat.one_ne_zero
    rw [hzero] at hset
    refine ⟨hset, ?_, rfl, rfl, rfl, rfl, fun g hg => update_of_ne hg .., hzero⟩
    show (update s.file f { s.file f with ref := 1 } f).type = _
    rw [update_self]
    exact h.closed f hzero
  · cases halloc

theorem Inv.filedup (hf : 1 ≤ (s.file f).ref) :
    ∃ s', s.filedup f = .ok s' ∧ s'.Inv (bump e f 1) ei ∧ s'.ofile = s.ofile ∧ s'.live = s.live ∧ s'.cwd = s.cwd := by
  refine ⟨_, if_neg (by omega), ?_, rfl, rfl, rfl⟩
  refine (h.setRef (f := f) (n := (s.file f).ref + 1) (Nat.succ_ne_zero _)).congr (fun g => ?_)
    fun _ => rfl
  rw [bump_apply, bump_apply]
  split <;> omega

variable {i : Nat}

theorem Inv.setIref {m : Nat} {n : Int} (hm : m = s.iref i + n) :
    ({ s with iref := update s.iref i m } : FtSys).Inv e (bump ei i n) := by
  refine ⟨h.ref, h.closed, fun j => ?_, h.ends, h.open_, h.frees, h.dead⟩
  have hj := h.iref j
  show ((update s.iref i m j : Nat) : Int) = holders s.inodes j + holders s.cwd j + bump ei i n j
  rw [bump_apply]
  by_cases hji : j = i
  · rw [hji] at hj ⊢
    rw [update_self, if_pos rfl]
    omega
  · rw [update_of_ne hji, if_neg hji]
    omega

theorem Inv.iput (hi : 1 ≤ s.iref i) :
    ∃ s', s.iput i = .ok s' ∧ s'.Inv e (bump ei i (-1)) ∧ s'.ofile = s.ofile ∧ s'.live = s.live
      ∧ s'.cwd = s.cwd ∧ s'.file = s.file :=
  ⟨_, if_neg (by omega), h.setIref (by omega), rfl, rfl, rfl, rfl⟩

theorem Inv.idup (i : Nat) : (s.idup i).Inv e (bump ei i 1) := h.setIref (by omega)

/-- `f->ref = 0; f->type = FD_NONE` -/
def emptied (s : FtSys) (f : FileId) : FtSys :=
  s.setFile f { s.file f with ref := 0, type := .FD_NONE }

theorem Inv.emptied_ref (hf : (s.file f).ref = 1) (g : FileId) :
    (((s.emptied f).file g).ref : Int) = holders s.ofile g + bump e f (-1) g :=
  h.ref_setFile (by rw [hf]; rfl) g

theorem Inv.emptied_closed (g : FileId) :
    ((s.emptied f).file g).ref = 0 → ((s.emptied f).file g).type = .FD_NONE :=
  h.closed_setFile (fun _ => rfl) g

omit h

theorem inodes_emptied (s : FtSys) (f : FileId) (i : Nat) :
    holders (s.emptied f).inodes i + (if inodeOf (s.file f) = some i then 1 else 0)
      = holders s.inodes i := by
  unfold emptied
  rw [inodes_setFile]
  exact holders_update s.inodes f none i

theorem ends_emptied (s : FtSys) (f : FileId) (w : Bool) (pg : Nat) :
    holders ((s.emptied f).ends w) pg + (if endOf w (s.file f) = some pg then 1 else 0)
      = holders (s.ends w) pg := by
  unfold emptied
  rw [ends_setFile]
  exact holders_update (s.ends w) f none pg

/-- The last reference to a file that is not a pipe. -/
theorem Inv.emptied (h : s.Inv e ei) (hf : (s.file f).ref = 1) (hpipe : (s.file f).type ≠ .FD_PIPE) :
    (s.emptied f).Inv (bump e f (-1)) fun i => ei i + if inodeOf (s.file f) = some i then 1 else 0 := by
  refine ⟨h.emptied_ref hf, h.emptied_closed, fun i => ?_, fun w pg => ?_, h.open_, h.frees, h.dead⟩
  · have h1 := h.iref i
    have h2 := inodes_emptied s f i
    show (s.iref i : Int) = holders (s.emptied f).inodes i + holders s.cwd i + _
    by_cases hi : inodeOf (s.file f) = some i
    · simp only [if_pos hi] at h2 ⊢
      omega
    · simp only [if_neg hi] at h2 ⊢
      omega
  · have h2 := ends_emptied s f w pg
    have hno : endOf w (s.file f) = none := if_neg fun hc => hpipe hc.1
    rw [hno, if_neg (Option.some_ne_none _).symm] at h2
    exact h2.trans (h.ends w pg)

theorem isOpen_pipeclose (w w' : Bool) (pi : Pipe) :
    isOpen w' (some (pipeclose pi w)) = if w' = w then false else isOpen w' (some pi) := by
  cases w <;> cases w' <;> rfl

variable {pi : Pipe}

theorem isOpen_some_false (h : pi.readopen = false ∧ pi.writeopen = false) (w : Bool) : isOpen w (some pi) = false := by
  cases w
  · exact h.1
  · exact h.2

variable {pg : Nat}

/-- What `closePipe` leaves in the page. -/
theorem closePipe_eq {w : Bool} (hpi : s.pipes pg = some pi) :
    ∃ s' x, s.closePipe pg w = .ok s'
      ∧ s' = { s with pipes := update s.pipes pg x, frees := s'.frees }
      ∧ (∀ w', isOpen w' x = if w' = w then false else isOpen w' (some pi))
      ∧ (x ≠ none → isOpen true x = true ∨ isOpen false x = true)
      ∧ ∀ g, s'.frees g = s.frees g + if g = pg ∧ x = none then 1 else 0 := by
  unfold FtSys.closePipe
  rw [hpi]
  dsimp only
  split
  · next hboth =>
    refine ⟨_, none, rfl, rfl, fun w' => ?_, fun hne => absurd rfl hne, fun g => ?_⟩
    · rw [← isOpen_pipeclose, isOpen_some_false hboth]
      rfl
    · show update s.frees pg (s.frees pg + 1) g = _
      by_cases hg : g = pg
      · rw [hg, update_self, if_pos ⟨rfl, rfl⟩]
      · rw [update_of_ne hg, if_neg fun hc => hg hc.1]
        rfl
  next hboth =>
  refine ⟨_, some (pipeclose pi w), rfl, rfl, fun w' => isOpen_pipeclose w w' pi, fun _ => ?_,
    fun g => ?_⟩
  · show (pipeclose pi w).writeopen = true ∨ (pipeclose pi w).readopen = true
    by_contra hno
    exact hboth ⟨Bool.eq_false_iff.mpr fun h => hno (.inr h),
      Bool.eq_false_iff.mpr fun h => hno (.inl h)⟩
  · rw [if_neg fun hc => nomatch hc.2]
    rfl

include h

/-- The last reference to an end of a pipe. -/
theorem Inv.close_pipe (hf : (s.file f).ref = 1) (htype : (s.file f).type = .FD_PIPE) :
    ∃ s', (s.emptied f).closePipe (s.file f).pipe (s.file f).writable = .ok s'
      ∧ s'.Inv (bump e f (-1)) ei ∧ s'.ofile = s.ofile ∧ s'.live = s.live ∧ s'.cwd = s.cwd := by
  have hend : endOf (s.file f).writable (s.file f) = some (s.file f).pipe := if_pos ⟨htype, rfl⟩
  have hopen : isOpen (s.file f).writable (s.pipes (s.file f).pipe) = true := by
    by_contra hno
    have h1 := h.ends (s.file f).writable (s.file f).pipe
    rw [if_neg hno] at h1
    exact holders_eq_zero.mp h1 f hend
  cases hpi : s.pipes (s.file f).pipe with
  | none =>
    rw [hpi] at hopen
    cases hopen
  | some pi =>
    rw [hpi] at hopen
    obtain ⟨s', x, hrun, hs', hx, hxopen, hfrees⟩ :=
      closePipe_eq (s := s.emptied f) (w := (s.file f).writable) hpi
    have hpipes : ∀ pg, s'.pipes pg = if pg = (s.file f).pipe then x else s.pipes pg := by
      intro pg
      rw [hs']
      exact Function.update_apply ..
    have hsame : s'.file = (s.emptied f).file := by rw [hs']
    have hends' : ∀ w, s'.ends w = (s.emptied f).ends w := fun w => by
      unfold FtSys.ends
      rw [hsame]
    have hin' : s'.inodes = (s.emptied f).inodes := by
      unfold FtSys.inodes
      rw [hsame]
    refine ⟨s', hrun, ⟨?_, ?_, fun i => ?_, fun w pg => ?_, fun pg hpg => ?_, fun pg => ?_, ?_⟩,
      by rw [hs']; rfl, by rw [hs']; rfl, by rw [hs']; rfl⟩
    · rw [hs']; exact h.emptied_ref hf
    · rw [hs']; exact h.emptied_closed
    · have h1 := h.iref i
      have h2 := inodes_emptied s f i
      have hno : inodeOf (s.file f) = none :=
        if_neg (by rw [htype]; rintro (hc | hc) <;> cases hc)
      rw [hno, if_neg nofun, Nat.add_zero] at h2
      rw [hin', h2, hs']
      exact h1
    · have h1 := h.ends w pg
      have h2 := ends_emptied s f w pg
      rw [hends', hpipes]
      by_cases hpg : pg = (s.file f).pipe
      · rw [if_pos hpg, hx w]
        rw [hpg] at h1 h2 ⊢
        rw [hpi] at h1
        by_cases hw : w = (s.file f).writable
        · rw [hw] at h1 h2 ⊢
          rw [hend, if_pos rfl] at h2
          rw [hopen, if_pos rfl] at h1
          rw [if_pos rfl, if_neg Bool.false_ne_true]
          omega
        · have hne : endOf w (s.file f) = none := if_neg fun hc => hw hc.2.symm
          rw [hne, if_neg nofun] at h2
          rw [if_neg hw, ← h1]
          exact h2
      · have hne : endOf w (s.file f) ≠ some pg := by
          intro hc
          unfold endOf at hc
          split at hc
          · exact hpg (Option.some.inj hc).symm
          · cases hc
        rw [if_neg hne] at h2
        rw [if_neg hpg, ← h1]
        exact h2
    · rw [hpipes] at hpg ⊢
      by_cases hp : pg = (s.file f).pipe
      · rw [if_pos hp] at hpg ⊢
        exact hxopen hpg
      · rw [if_neg hp] at hpg ⊢
        exact h.open_ pg hpg
    · have h1 := h.frees pg
      have h2 := hfrees pg
      have halloc : s'.allocs pg = s.allocs pg := by rw [hs']; rfl
      have hold : (s.emptied f).frees pg = s.frees pg := rfl
      rw [halloc, h2, hpipes, hold]
      by_cases hp : pg = (s.file f).pipe
      · rw [hp, hpi, if_neg nofun] at h1
        rw [if_pos hp, hp]
        by_cases hx0 : x = none
        · rw [if_pos ⟨rfl, hx0⟩, if_pos hx0]; omega
        · rw [if_neg fun hc => hx0 hc.2, if_neg hx0]; omega
      · rw [if_neg hp, if_neg fun hc => hp hc.1]
        exact h1
    · rw [hs']; exact h.dead

/-- **fileclose** gives up one reference, and with the last one the inode
reference or the end of the pipe that the file stands for. -/
theorem Inv.fileclose (hf : 1 ≤ (s.file f).ref) (hei : ∀ i, 0 ≤ ei i) :
    ∃ s', s.fileclose f = .ok s' ∧ s'.Inv (bump e f (-1)) ei ∧ s'.ofile = s.ofile
      ∧ s'.live = s.live ∧ s'.cwd = s.cwd := by
  unfold FtSys.fileclose
  rw [if_neg (by omega)]
  by_cases hmore : (s.file f).ref - 1 > 0
  · rw [if_pos hmore]
    refine ⟨_, rfl, ?_, rfl, rfl, rfl⟩
    refine (h.setRef (f := f) (n := (s.file f).ref - 1) (by omega)).congr (fun g => ?_) fun _ => rfl
    rw [bump_apply, bump_apply]
    split <;> omega
  rw [if_neg hmore]
  have hone : (s.file f).ref = 1 := by omega
  -- the inode reference goes with the file
  have hput : inodeOf (s.file f) = some (s.file f).ip → (s.file f).type ≠ .FD_PIPE →
      ∃ s', (s.emptied f).iput (s.file f).ip = .ok s'
        ∧ s'.Inv (bump e f (-1)) ei ∧ s'.ofile = s.ofile ∧ s'.live = s.live ∧ s'.cwd = s.cwd := by
    intro hat hpipe
    have hpos : 1 ≤ s.iref (s.file f).ip := by
      have h1 := h.iref (s.file f).ip
      have h2 := holders_pos (t := s.inodes) (i := f) hat
      have h3 := hei (s.file f).ip
      omega
    obtain ⟨s', hrun, hinv, hofile, hlive, hcwd, -⟩ := (h.emptied hone hpipe).iput hpos
    refine ⟨s', hrun, hinv.congr (fun _ => rfl) fun i => ?_, hofile, hlive, hcwd⟩
    rw [bump_apply, hat]
    by_cases hi : i = (s.file f).ip
    · rw [if_pos hi, if_pos (by rw [hi])]; omega
    · rw [if_neg hi, if_neg fun hc => hi (Option.some.inj hc).symm]; omega
  cases htype : (s.file f).type with
  | FD_NONE =>
    refine ⟨_, rfl, (h.emptied hone (by rw [htype]; exact nofun)).congr (fun _ => rfl) fun i => ?_,
      rfl, rfl, rfl⟩
    have hno : inodeOf (s.file f) = none :=
      if_neg (by rw [htype]; rintro (hc | hc) <;> cases hc)
    rw [hno, if_neg nofun, Int.add_zero]
  | FD_INODE => exact hput (if_pos (.inl htype)) (by rw [htype]; exact nofun)
  | FD_DEVICE => exact hput (if_pos (.inr htype)) (by rw [htype]; exact nofun)
  | FD_PIPE => exact h.close_pipe hone htype

/-! ## §4. Descriptors, directories and new files. -/

variable {k : FdSlot}

theorem Inv.clearFd (hk : s.ofile k = some f) : (s.setFd k none).Inv (bump e f 1) ei := by
  refine (h.setFd k none fun hne => absurd rfl hne).congr (fun g => ?_) fun _ => rfl
  rw [bump_apply, hk]
  simp only [reduceCtorEq, if_false, Option.some.injEq, eq_comm (a := f)]
  omega

theorem Inv.fillFd (hk : s.ofile k = none) (f : FileId)
    (hlive : s.live k.1 = true) : (s.setFd k (some f)).Inv (bump e f (-1)) ei := by
  refine (h.setFd k (some f) fun _ => hlive).congr (fun g => ?_) fun _ => rfl
  rw [bump_apply, hk]
  simp only [reduceCtorEq, if_false, Option.some.injEq, eq_comm (a := f)]
  split <;> omega

omit h in
theorem fdalloc_some {fd : Fin NOFILE} (halloc : s.fdalloc p f = some (s', fd)) :
    s' = s.setFd (p, fd) (some f) ∧ s.ofile (p, fd) = none := by
  unfold FtSys.fdalloc at halloc
  split at halloc
  · next g hfind =>
    cases halloc
    have htest := List.find?_some hfind
    exact ⟨rfl, of_decide_eq_true htest⟩
  · cases halloc

theorem Inv.setCwd (p : Slot) (x : Option Nat) :
    (s.setCwd p x).Inv e fun i => ei i + (if s.cwd p = some i then 1 else 0)
      - if x = some i then 1 else 0 := by
  refine ⟨h.ref, h.closed, fun i => ?_, h.ends, h.open_, h.frees, h.dead⟩
  have hi := h.iref i
  show (s.iref i : Int) = holders s.inodes i + holders (update s.cwd p x) i + _
  rw [holders_update_int]
  omega

theorem Inv.setLive (p : Slot) (x : Bool)
    (hp : x = false → ∀ fd, s.ofile (p, fd) = none) : (s.setLive p x).Inv e ei := by
  refine ⟨h.ref, h.closed, h.iref, h.ends, h.open_, h.frees, fun q fd hq => ?_⟩
  have hq : update s.live p x q = false := hq
  by_cases hqp : q = p
  · rw [hqp, update_self] at hq
    rw [hqp]
    exact hp hq fd
  · rw [update_of_ne hqp] at hq
    exact h.dead q fd hq

/-- A file that stood for nothing takes over the reference to an inode. -/
theorem Inv.openFile (hnone : (s.file f).type = .FD_NONE)
    (hf : (s.file f).ref ≠ 0) {x : File} (href : x.ref = (s.file f).ref)
    (hx : inodeOf x = some i) (hpipe : x.type ≠ .FD_PIPE) : (s.setFile f x).Inv e (bump ei i (-1)) := by
  have hold : inodeOf (s.file f) = none := if_neg (by rw [hnone]; rintro (hc | hc) <;> cases hc)
  have hends : ∀ w, (s.setFile f x).ends w = s.ends w := by
    intro w
    have he : endOf w x = endOf w (s.file f) := by
      unfold endOf
      rw [hnone, if_neg fun hc => hpipe hc.1]
      rfl
    rw [ends_setFile, he]
    exact update_eq_self f (s.ends w)
  refine ⟨fun g => ?_, h.closed_setFile fun h0 => absurd (href ▸ h0) hf, fun j => ?_, fun w pg => ?_, h.open_, h.frees,
    h.dead⟩
  · show ((update s.file f x g).ref : Int) = _
    by_cases hgf : g = f
    · rw [hgf, update_self, href]; exact h.ref f
    · rw [update_of_ne hgf]; exact h.ref g
  · have hj := h.iref j
    have hup := holders_update s.inodes f (inodeOf x) j
    rw [show s.inodes f = none from hold, if_neg nofun, hx] at hup
    rw [inodes_setFile, hx, bump_apply]
    show (s.iref j : Int) = holders (update s.inodes f (some i)) j + holders s.cwd j + _
    by_cases hji : j = i
    · rw [if_pos (by rw [hji])] at hup
      omega
    · rw [if_neg fun hc => hji (Option.some.inj hc).symm] at hup
      omega
  · rw [hends]; exact h.ends w pg

/-- Two files that stood for nothing become the ends of a new pipe. -/
theorem Inv.newPipe (hpg : s.pipes pg = none) (data : Nat → UInt8)
    {f0 f1 : FileId} (hne : f0 ≠ f1) (hn0 : (s.file f0).type = .FD_NONE)
    (hn1 : (s.file f1).type = .FD_NONE) (hf0 : (s.file f0).ref ≠ 0) (hf1 : (s.file f1).ref ≠ 0) :
    (s.newPipe pg data f0 f1).Inv e ei := by
  have hfile : ∀ g, ((s.newPipe pg data f0 f1).file g).ref = (s.file g).ref
      ∧ inodeOf ((s.newPipe pg data f0 f1).file g) = inodeOf (s.file g)
      ∧ ((s.file g).ref = 0 → (s.newPipe pg data f0 f1).file g = s.file g)
      ∧ ∀ w, endOf w ((s.newPipe pg data f0 f1).file g)
        = if g = (if w then f1 else f0) then some pg else endOf w (s.file g) := by
    intro g
    unfold FtSys.newPipe FtSys.setFile
    dsimp only
    by_cases hg1 : g = f1
    · rw [hg1, update_self, update_of_ne hne.symm]
      refine ⟨rfl, ?_, fun h0 => absurd h0 hf1, fun w => ?_⟩
      · simp [inodeOf, hn1]
      · cases w <;> simp [endOf, hn1, hne.symm]
    rw [update_of_ne hg1]
    by_cases hg0 : g = f0
    · rw [hg0, update_self]
      refine ⟨rfl, ?_, fun h0 => absurd h0 hf0, fun w => ?_⟩
      · simp [inodeOf, hn0]
      · cases w <;> simp [endOf, hn0, hne]
    · rw [update_of_ne hg0]
      refine ⟨rfl, rfl, fun _ => rfl, fun w => ?_⟩
      cases w <;> simp [hg0, hg1]
  have hin : (s.newPipe pg data f0 f1).inodes = s.inodes := funext fun g => (hfile g).2.1
  have hends : ∀ w, (s.newPipe pg data f0 f1).ends w
      = update (s.ends w) (if w then f1 else f0) (some pg) := by
    intro w
    funext g
    show endOf w ((s.newPipe pg data f0 f1).file g) = _
    rw [(hfile g).2.2.2 w]
    by_cases hg : g = if w then f1 else f0
    · rw [if_pos hg, hg, update_self]
    · rw [if_neg hg, update_of_ne hg]
      rfl
  have hpipes : ∀ g, (s.newPipe pg data f0 f1).pipes g
      = if g = pg then some (Pipe.alloc data) else s.pipes g := fun _ => Function.update_apply ..
  refine ⟨fun g => ?_, fun g hg => ?_, fun i => ?_, fun w g => ?_, fun g hg => ?_, fun g => ?_,
    h.dead⟩
  · rw [(hfile g).1]; exact h.ref g
  · rw [(hfile g).1] at hg
    rw [(hfile g).2.2.1 hg]
    exact h.closed g hg
  · rw [hin]; exact h.iref i
  · have hfree : ∀ g', s.ends w g' ≠ some pg := by
      have h0 := h.ends w pg
      rw [hpg] at h0
      exact holders_eq_zero.mp h0
    have hnoend : s.ends w (if w then f1 else f0) = none := by
      cases w <;> simp [FtSys.ends, endOf, hn0, hn1]
    have hup := holders_update (s.ends w) (if w then f1 else f0) (some pg) g
    have hg := h.ends w g
    simp only [hnoend, reduceCtorEq, if_false, Nat.add_zero, Option.some.injEq] at hup
    rw [hends, hpipes]
    by_cases hgp : g = pg
    · have hzero := holders_eq_zero.mpr hfree
      have hopen : isOpen w (some (Pipe.alloc data)) = true := by cases w <;> rfl
      rw [hgp] at hup ⊢
      rw [if_pos rfl, hopen, if_pos rfl, hup, hzero, if_pos rfl]
    · rw [hup, if_neg (Ne.symm hgp), if_neg hgp, ← hg, Nat.add_zero]
  · rw [hpipes] at hg ⊢
    by_cases hgp : g = pg
    · rw [if_pos hgp]
      exact .inl rfl
    · rw [if_neg hgp] at hg ⊢
      exact h.open_ g hg
  · have hg := h.frees g
    rw [hpipes]
    show update s.allocs pg (s.allocs pg + 1) g = s.frees g + _
    by_cases hgp : g = pg
    · rw [hgp, hpg, if_pos rfl] at hg
      rw [hgp, update_self, if_pos rfl, if_neg (Option.some_ne_none _)]
      omega
    · rw [update_of_ne hgp, if_neg hgp]
      exact hg

omit h

/-! ## §5. System calls. -/

/-- Between system calls. -/
structure Balanced (s : FtSys) : Prop where
  inv : s.Inv (fun _ => 0) (fun _ => 0)
  cwd : ∀ p, s.live p = true ↔ s.cwd p ≠ none

/-- The call leaves the directories and the set of processes as they were. -/
structure SameProcs (s s' : FtSys) : Prop where
  live : s'.live = s.live
  cwd : s'.cwd = s.cwd

theorem Balanced.of_inv (h : s.Balanced) (hinv : s'.Inv (fun _ => 0) (fun _ => 0)) (hsame : SameProcs s s') :
    s'.Balanced := by
  refine ⟨hinv, fun p => ?_⟩
  rw [hsame.live, hsame.cwd]
  exact h.cwd p

/-- A file in a descriptor slot, or on the way, has a reference. -/
theorem Inv.ref_pos (h : s.Inv e ei) (hf : 1 ≤ e f) : 1 ≤ (s.file f).ref := by
  have := h.ref f
  omega

theorem Inv.fd_ref (h : s.Inv (fun _ => 0) ei) (hk : s.ofile k = some f) : 1 ≤ (s.file f).ref := by
  have h1 := h.ref f
  have h2 := holders_pos hk
  omega

theorem Balanced.sys_dup (h : s.Balanced) (hlive : s.live p = true) (fd : Fin NOFILE) :
    ∃ s', s.sys_dup p fd = .ok s' ∧ s'.Balanced := by
  unfold FtSys.sys_dup
  cases hfd : s.ofile (p, fd) with
  | none => exact ⟨s, rfl, h⟩
  | some f =>
    dsimp only
    cases halloc : s.fdalloc p f with
    | none => exact ⟨s, rfl, h⟩
    | some r =>
      obtain ⟨s₁, fd'⟩ := r
      obtain ⟨rfl, hnone⟩ := fdalloc_some halloc
      have hfill := h.inv.fillFd hnone f hlive
      obtain ⟨s', hrun, hinv, -, hl, hc⟩ := hfill.filedup (f := f) (h.inv.fd_ref hfd)
      rw [bump_undo _ f (by decide)] at hinv
      exact ⟨s', hrun, h.of_inv hinv ⟨hl, hc⟩⟩

theorem Balanced.sys_close (h : s.Balanced) (fd : Fin NOFILE) : ∃ s', s.sys_close p fd = .ok s' ∧ s'.Balanced := by
  unfold FtSys.sys_close
  cases hfd : s.ofile (p, fd) with
  | none => exact ⟨s, rfl, h⟩
  | some f =>
    have hclear := h.inv.clearFd hfd
    obtain ⟨s', hrun, hinv, -, hl, hc⟩ :=
      hclear.fileclose (f := f) (h.inv.fd_ref hfd) fun _ => Int.le_refl 0
    rw [bump_undo _ f (by decide)] at hinv
    exact ⟨s', hrun, h.of_inv hinv ⟨hl, hc⟩⟩

/-- An inode found and given back. -/
theorem Inv.put_back (h : s.Inv (fun _ => 0) (bump (fun _ => 0) i 1)) :
    ∃ s', s.iput i = .ok s' ∧ s'.Inv (fun _ => 0) (fun _ => 0) ∧ SameProcs s s' := by
  have hpos : 1 ≤ s.iref i := by
    have := h.iref i
    rw [bump_apply, if_pos rfl] at this
    omega
  obtain ⟨s', hrun, hinv, -, hl, hc, -⟩ := h.iput hpos
  rw [bump_undo _ i (by decide)] at hinv
  exact ⟨s', hrun, hinv, hl, hc⟩

theorem Balanced.put_back (h : s.Balanced) (i : Nat) : ∃ s', (s.idup i).iput i = .ok s' ∧ s'.Balanced := by
  obtain ⟨s', hrun, hinv, hsame⟩ := (h.inv.idup i).put_back
  exact ⟨s', hrun, h.of_inv hinv ⟨hsame.live, hsame.cwd⟩⟩

theorem openFile_type (x : File) (omode i : Nat) (type : InodeType) (major : Int) :
    (FtSys.openFile x omode i type major).type = .FD_INODE ∨ (FtSys.openFile x omode i type major).type = .FD_DEVICE := by
  unfold FtSys.openFile
  by_cases ht : type = .T_DEVICE
  · rw [if_pos ht]; exact .inr rfl
  · rw [if_neg ht]; exact .inl rfl

theorem openFile_ref (x : File) (omode i : Nat) (type : InodeType) (major : Int) :
    (FtSys.openFile x omode i type major).ref = x.ref := by
  unfold FtSys.openFile
  by_cases ht : type = .T_DEVICE
  · rw [if_pos ht]
  · rw [if_neg ht]

theorem Balanced.sys_open (h : s.Balanced) (hlive : s.live p = true) (omode : Nat)
    (found : Option (Nat × InodeType × Int)) : ∃ s', s.sys_open p omode found = .ok s' ∧ s'.Balanced := by
  unfold FtSys.sys_open
  cases found with
  | none => exact ⟨s, rfl, h⟩
  | some r =>
    obtain ⟨i, type, major⟩ := r
    dsimp only
    have hdup := h.inv.idup i
    split
    · exact h.put_back i
    split
    · exact h.put_back i
    cases halloc : (s.idup i).filealloc with
    | none => exact h.put_back i
    | some r =>
      obtain ⟨s₁, f⟩ := r
      obtain ⟨hinv₁, hnone, hl₁, ho₁, -, hc₁, -, -⟩ := hdup.filealloc halloc
      dsimp only
      have hpos : 1 ≤ (s₁.file f).ref := hinv₁.ref_pos (by rw [bump_apply, if_pos rfl]; omega)
      cases hfd : s₁.fdalloc p f with
      | none =>
        have hei : ∀ j, 0 ≤ bump (fun _ => (0 : Int)) i 1 j := by
          intro j
          rw [bump_apply]
          split <;> omega
        obtain ⟨s₂, hrun₂, hinv₂, -, hl₂, hc₂⟩ := hinv₁.fileclose hpos hei
        rw [bump_undo _ f (by decide)] at hinv₂
        obtain ⟨s', hrun, hinv, hsame⟩ := hinv₂.put_back
        refine ⟨s', ?_, h.of_inv hinv
          ⟨hsame.live.trans (hl₂.trans hl₁), hsame.cwd.trans (hc₂.trans hc₁)⟩⟩
        rw [hrun₂]
        exact hrun
      | some r =>
        obtain ⟨s₂, fd⟩ := r
        obtain ⟨rfl, hfree⟩ := fdalloc_some hfd
        have hfill := hinv₁.fillFd hfree f (by rw [hl₁]; exact hlive)
        refine ⟨_, rfl, ?_⟩
        have hopen := hfill.openFile (f := f) (i := i)
          (x := FtSys.openFile (s₁.file f) omode i type major) hnone (Nat.ne_of_gt hpos)
          (openFile_ref ..) ?_ ?_
        · rw [bump_undo _ f (by decide), bump_undo _ i (by decide)] at hopen
          exact h.of_inv hopen ⟨hl₁, hc₁⟩
        · unfold inodeOf
          unfold FtSys.openFile
          split <;> rfl
        · intro hp
          rcases openFile_type (s₁.file f) omode i type major with ht | ht
          · exact nomatch ht.symm.trans hp
          · exact nomatch ht.symm.trans hp

variable {page : Option (Nat × (Nat → UInt8))}

/-- Two files on the way are closed. -/
theorem Inv.close_both {rf wf : FileId} (hne : rf ≠ wf) (h : s.Inv (bump (bump (fun _ => 0) rf 1) wf 1) (fun _ => 0)) :
    ∃ s₁ s', s.fileclose rf = .ok s₁ ∧ s₁.fileclose wf = .ok s' ∧ s'.Inv (fun _ => 0) (fun _ => 0) ∧ SameProcs s s' := by
  have hpos : 1 ≤ (s.file rf).ref := h.ref_pos (by
    rw [bump_apply, bump_apply, if_neg hne, if_pos rfl]; omega)
  obtain ⟨s₁, hrun₁, hinv₁, -, hl₁, hc₁⟩ := h.fileclose hpos fun _ => Int.le_refl 0
  have hpos₁ : 1 ≤ (s₁.file wf).ref := hinv₁.ref_pos (by
    rw [bump_apply, bump_apply, bump_apply, if_neg hne.symm, if_neg hne.symm, if_pos rfl]; omega)
  obtain ⟨s', hrun, hinv, -, hl, hc⟩ := hinv₁.fileclose hpos₁ fun _ => Int.le_refl 0
  refine ⟨s₁, s', hrun₁, hrun, hinv.congr (fun g => ?_) fun _ => rfl, hl.trans hl₁, hc.trans hc₁⟩
  rw [bump_apply, bump_apply, bump_apply, bump_apply]
  split <;> split <;> omega

/-- **pipealloc** hands out the two ends of a new pipe, or nothing. -/
theorem Balanced.pipealloc (h : s.Balanced) (hpage : s.pageFree page = true) :
    (∃ s', s.pipealloc page = .ok (s', none) ∧ s'.Balanced)
    ∨ ∃ s' rf wf, s.pipealloc page = .ok (s', some (rf, wf)) ∧ rf ≠ wf
      ∧ s'.Inv (bump (bump (fun _ => 0) rf 1) wf 1) (fun _ => 0) ∧ SameProcs s s' := by
  unfold FtSys.pipealloc
  cases halloc₀ : s.filealloc with
  | none => exact .inl ⟨s, rfl, h⟩
  | some r =>
    obtain ⟨s₀, f0⟩ := r
    obtain ⟨hinv₀, hn0, hl₀, -, hp₀, hc₀, -, -⟩ := h.inv.filealloc halloc₀
    have hpos₀ : 1 ≤ (s₀.file f0).ref := hinv₀.ref_pos (by rw [bump_apply, if_pos rfl]; omega)
    dsimp only
    cases halloc₁ : s₀.filealloc with
    | none =>
      obtain ⟨s', hrun, hinv, -, hl, hc⟩ := hinv₀.fileclose hpos₀ fun _ => Int.le_refl 0
      rw [bump_undo _ f0 (by decide)] at hinv
      refine .inl ⟨s', ?_, h.of_inv hinv ⟨hl.trans hl₀, hc.trans hc₀⟩⟩
      rw [hrun]
      rfl
    | some r =>
      obtain ⟨s₁, f1⟩ := r
      obtain ⟨hinv₁, hn1, hl₁, -, hp₁, hc₁, hother, hzero⟩ := hinv₀.filealloc halloc₁
      have hne : f0 ≠ f1 := by
        rintro rfl
        omega
      have hpos₁ : 1 ≤ (s₁.file f1).ref := hinv₁.ref_pos (by
        rw [bump_apply, bump_apply, if_neg hne.symm, if_pos rfl]; omega)
      have hpos₀' : 1 ≤ (s₁.file f0).ref := by rw [hother f0 hne]; exact hpos₀
      cases page with
      | none =>
        obtain ⟨s₂, s', hrun₂, hrun, hinv, hsame⟩ := hinv₁.close_both hne
        refine .inl ⟨s', ?_, h.of_inv hinv ⟨hsame.live.trans (hl₁.trans hl₀), hsame.cwd.trans (hc₁.trans hc₀)⟩⟩
        dsimp only
        rw [hrun₂]
        show (do let s ← s₂.fileclose f1; Except.ok (s, none)) = _
        rw [hrun]
        rfl
      | some r =>
        obtain ⟨pg, data⟩ := r
        have hpg : s₁.pipes pg = none := by
          rw [hp₁, hp₀]
          exact Option.isNone_iff_eq_none.mp hpage
        refine .inr ⟨_, f0, f1, rfl, hne, ?_, hl₁.trans hl₀, hc₁.trans hc₀⟩
        exact hinv₁.newPipe hpg data hne (by rw [hother f0 hne]; exact hn0) hn1
          (Nat.ne_of_gt hpos₀') (Nat.ne_of_gt hpos₁)

theorem Balanced.sys_pipe (h : s.Balanced) (hlive : s.live p = true) (hpage : s.pageFree page = true) (copied : Bool) :
    ∃ s', s.sys_pipe p page copied = .ok s' ∧ s'.Balanced := by
  unfold FtSys.sys_pipe
  rcases h.pipealloc hpage with ⟨s', hrun, hbal⟩ | ⟨s₀, rf, wf, hrun, hne, hinv, hsame⟩
  · exact ⟨s', by rw [hrun]; rfl, hbal⟩
  rw [hrun]
  simp only [bind, Except.bind]
  -- the roll-back, from any state with the two files on the way
  have hclose : ∀ t : FtSys, t.Inv (bump (bump (fun _ => 0) rf 1) wf 1) (fun _ => 0) →
      SameProcs s t → ∃ s', (do let s ← t.fileclose rf; s.fileclose wf) = .ok s' ∧ s'.Balanced := by
    intro t ht hst
    obtain ⟨s₁, s', hrun₁, hrun', hinv', hsame'⟩ := ht.close_both hne
    refine ⟨s', ?_, h.of_inv hinv'
      ⟨hsame'.live.trans hst.live, hsame'.cwd.trans hst.cwd⟩⟩
    rw [hrun₁]
    exact hrun'
  cases hfd0 : s₀.fdalloc p rf with
  | none => exact hclose s₀ hinv hsame
  | some r =>
    obtain ⟨s₁, fd0⟩ := r
    obtain ⟨rfl, hfree0⟩ := fdalloc_some hfd0
    have hinv₁ := hinv.fillFd hfree0 rf (by rw [hsame.live]; exact hlive)
    have hat0 : (s₀.setFd (p, fd0) (some rf)).ofile (p, fd0) = some rf := update_self ..
    dsimp only
    cases hfd1 : (s₀.setFd (p, fd0) (some rf)).fdalloc p wf with
    | none =>
      refine hclose _ ((hinv₁.clearFd hat0).congr (fun g => ?_) fun _ => rfl) ⟨hsame.live, hsame.cwd⟩
      rw [bump_apply _ rf, bump_apply _ rf]
      split <;> omega
    | some r =>
      obtain ⟨s₂, fd1⟩ := r
      obtain ⟨rfl, hfree1⟩ := fdalloc_some hfd1
      have hinv₂ := hinv₁.fillFd hfree1 wf (by
        show s₀.live p = true
        rw [hsame.live]
        exact hlive)
      dsimp only
      split
      · refine ⟨_, rfl, h.of_inv (hinv₂.congr (fun g => ?_) fun _ => rfl) ⟨hsame.live, hsame.cwd⟩⟩
        rw [bump_apply, bump_apply, bump_apply, bump_apply]
        split <;> split <;> omega
      -- both descriptors are taken back
      have hne01 : (p, fd1) ≠ (p, fd0) := by
        intro he
        rw [he] at hfree1
        rw [hfree1] at hat0
        cases hat0
      have hk0 : ((s₀.setFd (p, fd0) (some rf)).setFd (p, fd1) (some wf)).ofile (p, fd0)
          = some rf := by
        unfold FtSys.setFd at hat0 ⊢
        dsimp only at hat0 ⊢
        rw [update_of_ne hne01.symm]
        exact hat0
      have hclear := hinv₂.clearFd hk0
      have hk1 : (((s₀.setFd (p, fd0) (some rf)).setFd (p, fd1) (some wf)).setFd (p, fd0)
          none).ofile (p, fd1) = some wf := by
        unfold FtSys.setFd
        dsimp only
        rw [update_of_ne hne01, update_self]
      refine hclose _ ((hclear.clearFd hk1).congr (fun g => ?_) fun _ => rfl)
        ⟨hsame.live, hsame.cwd⟩
      simp only [bump_apply]
      split <;> split <;> omega

/-! ## §6. `chdir`, `fork` and `exit`. -/

theorem Inv.iref_cwd (h : s.Inv e fun _ => 0) (hi : s.cwd p = some i) : 1 ≤ s.iref i := by
  have h1 := h.iref i
  have h2 := holders_pos hi
  omega

theorem Balanced.sys_chdir (h : s.Balanced) (hlive : s.live p = true)
    (found : Option (Nat × InodeType)) : ∃ s', s.sys_chdir p found = .ok s' ∧ s'.Balanced := by
  unfold FtSys.sys_chdir
  cases found with
  | none => exact ⟨s, rfl, h⟩
  | some r =>
    obtain ⟨i, type⟩ := r
    dsimp only
    have hdup := h.inv.idup i
    split
    · exact h.put_back i
    cases hcwd : (s.idup i).cwd p with
    | none => exact absurd hcwd ((h.cwd p).mp hlive)
    | some old =>
      have hpos : 1 ≤ (s.idup i).iref old := by
        have h1 := h.inv.iref_cwd hcwd
        show 1 ≤ update s.iref i (s.iref i + 1) old
        by_cases ho : old = i
        · rw [ho, update_self]; omega
        · rw [update_of_ne ho]; exact h1
      obtain ⟨s₁, hrun, hinv, -, hl, hc, -⟩ := hdup.iput hpos
      have hset := hinv.setCwd p (some i)
      refine ⟨s₁.setCwd p (some i), ?_, ⟨hset.congr (fun _ => rfl) fun j => ?_, fun q => ?_⟩⟩
      · dsimp only
        rw [hrun]
        rfl
      · have hold : s₁.cwd p = some old := by rw [hc]; exact hcwd
        rw [hold]
        simp only [bump_apply, Option.some.injEq, eq_comm (b := j)]
        split <;> split <;> omega
      show s₁.live q = true ↔ update s₁.cwd p (some i) q ≠ none
      rw [hl]
      by_cases hqp : q = p
      · rw [hqp, update_self]
        exact ⟨fun _ => nofun, fun _ => hlive⟩
      · rw [update_of_ne hqp, hc]
        exact h.cwd q

/-- **The loop of `fork`**, over the descriptors still to be copied. -/
theorem fork_loop {np : Slot} (l : List (Fin NOFILE)) (hnodup : l.Nodup) :
    ∀ s : FtSys, s.Inv (fun _ => 0) (fun _ => 0) → s.live np = true → (∀ fd ∈ l, s.ofile (np, fd) = none) →
      ∃ s', l.foldlM (forkTurn p np) s = .ok s' ∧ s'.Inv (fun _ => 0) (fun _ => 0) ∧ SameProcs s s' := by
  induction l with
  | nil => exact fun s h _ _ => ⟨s, rfl, h, rfl, rfl⟩
  | cons fd l ih =>
    intro s h hlive hnone
    obtain ⟨hnot, hnodup⟩ := List.nodup_cons.mp hnodup
    have hturn : ∃ s₁, forkTurn p np s fd = .ok s₁ ∧ s₁.Inv (fun _ => 0) (fun _ => 0)
        ∧ SameProcs s s₁ ∧ ∀ fd' ∈ l, s₁.ofile (np, fd') = none := by
      unfold forkTurn
      cases hfd : s.ofile (p, fd) with
      | none => exact ⟨s, rfl, h, ⟨rfl, rfl⟩, fun fd' hm => hnone fd' (List.mem_cons_of_mem fd hm)⟩
      | some f =>
        obtain ⟨s₁, hrun, hinv, ho, hl, hc⟩ := h.filedup (h.fd_ref hfd)
        have hfree : s₁.ofile (np, fd) = none := by
          rw [ho]
          exact hnone fd List.mem_cons_self
        have hfill := hinv.fillFd hfree f (by rw [hl]; exact hlive)
        rw [bump_undo _ f (by decide)] at hfill
        refine ⟨s₁.setFd (np, fd) (some f), ?_, hfill, ⟨hl, hc⟩, fun fd' hm => ?_⟩
        · dsimp only
          rw [hrun]
          rfl
        have hfd' : (np, fd') ≠ (np, fd) := by
          rintro ⟨⟩
          exact hnot hm
        unfold FtSys.setFd
        dsimp only
        rw [update_of_ne hfd', ho]
        exact hnone fd' (List.mem_cons_of_mem fd hm)
    obtain ⟨s₁, hrun₁, hinv₁, hsame₁, hnone₁⟩ := hturn
    obtain ⟨s', hrun, hinv, hsame⟩ := ih hnodup s₁ hinv₁ (by rw [hsame₁.live]; exact hlive) hnone₁
    refine ⟨s', ?_, hinv, hsame.live.trans hsame₁.live, hsame.cwd.trans hsame₁.cwd⟩
    rw [List.foldlM_cons, hrun₁]
    exact hrun

theorem Balanced.fork (h : s.Balanced) {np : Slot} (hlive : s.live p = true)
    (hdead : s.live np = false) : ∃ s', s.fork p np = .ok s' ∧ s'.Balanced := by
  have hset := h.inv.setLive np true fun he => Bool.noConfusion he
  obtain ⟨s₁, hrun, hinv, hl, hc⟩ := fork_loop (List.finRange NOFILE)
    (List.nodup_finRange NOFILE) _ hset (update_self ..) fun fd _ => h.inv.dead np fd hdead
  have hcwd : s₁.cwd = s.cwd := hc
  have hlive₁ : s₁.live = update s.live np true := hl
  cases hp : s.cwd p with
  | none => exact absurd hp ((h.cwd p).mp hlive)
  | some i =>
    have hnp : s.cwd np = none := by
      by_contra hcon
      exact Bool.noConfusion (hdead.symm.trans ((h.cwd np).mpr hcon))
    have hold : (s₁.idup i).cwd np = none := (congrFun hcwd np).trans hnp
    have hset := (hinv.idup i).setCwd np (some i)
    refine ⟨(s₁.idup i).setCwd np (some i), ?_, ⟨hset.congr (fun _ => rfl) fun j => ?_, fun q => ?_⟩⟩
    · unfold FtSys.fork
      rw [hrun]
      simp only [bind, Except.bind, hcwd, hp]
    · rw [hold]
      simp only [bump_apply, reduceCtorEq, if_false, Option.some.injEq, eq_comm (b := j)]
      split <;> omega
    · show s₁.live q = true ↔ update s₁.cwd np (some i) q ≠ none
      rw [hlive₁, hcwd]
      by_cases hq : q = np
      · simp [hq]
      · rw [update_of_ne hq, update_of_ne hq]
        exact h.cwd q

/-- **The loop of `exit`**, over the descriptors still to be closed. -/
theorem exit_loop (p : Slot) (l : List (Fin NOFILE)) : ∀ s : FtSys, s.Inv (fun _ => 0) (fun _ => 0) →
      ∃ s', l.foldlM (exitTurn p) s = .ok s' ∧ s'.Inv (fun _ => 0) (fun _ => 0) ∧ SameProcs s s'
        ∧ (∀ fd ∈ l, s'.ofile (p, fd) = none) ∧ ∀ fd, s.ofile (p, fd) = none → s'.ofile (p, fd) = none := by
  induction l with
  | nil => exact fun s h => ⟨s, rfl, h, ⟨rfl, rfl⟩, nofun, fun _ hn => hn⟩
  | cons fd l ih =>
    intro s h
    have hturn : ∃ s₁, exitTurn p s fd = .ok s₁ ∧ s₁.Inv (fun _ => 0) (fun _ => 0)
        ∧ SameProcs s s₁ ∧ s₁.ofile (p, fd) = none
        ∧ ∀ fd', s.ofile (p, fd') = none → s₁.ofile (p, fd') = none := by
      unfold exitTurn
      cases hfd : s.ofile (p, fd) with
      | none => exact ⟨s, rfl, h, ⟨rfl, rfl⟩, hfd, fun _ hn => hn⟩
      | some f =>
        obtain ⟨s₁, hrun, hinv, ho, hl, hc⟩ := h.fileclose (h.fd_ref hfd) fun _ => Int.le_refl 0
        -- the slot still points to the file
        have hfd₁ : s₁.ofile (p, fd) = some f := by rw [ho]; exact hfd
        have hclear := hinv.clearFd hfd₁
        rw [bump_undo _ f (by decide)] at hclear
        refine ⟨s₁.setFd (p, fd) none, ?_, hclear, ⟨hl, hc⟩, update_self .., fun fd' hn => ?_⟩
        · dsimp only
          rw [hrun]
          rfl
        unfold FtSys.setFd
        dsimp only
        by_cases he : (p, fd') = (p, fd)
        · rw [he, update_self]
        · rw [update_of_ne he, ho]
          exact hn
    obtain ⟨s₁, hrun₁, hinv₁, hsame₁, hnone₁, hkeep₁⟩ := hturn
    obtain ⟨s', hrun, hinv, hsame, hnone, hkeep⟩ := ih s₁ hinv₁
    refine ⟨s', ?_, hinv, ⟨hsame.live.trans hsame₁.live, hsame.cwd.trans hsame₁.cwd⟩,
      fun fd' hm => ?_, fun fd' hn => hkeep fd' (hkeep₁ fd' hn)⟩
    · rw [List.foldlM_cons, hrun₁]
      exact hrun
    · rcases List.mem_cons.mp hm with rfl | hm
      · exact hkeep _ hnone₁
      · exact hnone fd' hm

theorem Balanced.exit (h : s.Balanced) (hlive : s.live p = true) :
    s.exit p = .error (.panic "init exiting") ∨ ∃ s', s.exit p = .ok s' ∧ s'.Balanced := by
  unfold FtSys.exit
  split
  · exact .inl rfl
  right
  obtain ⟨s₁, hrun, hinv, ⟨hl, hc⟩, hnone, -⟩ := exit_loop p (List.finRange NOFILE) s h.inv
  cases hp : s.cwd p with
  | none => exact absurd hp ((h.cwd p).mp hlive)
  | some i =>
    have hcwd : s₁.cwd p = some i := by rw [hc]; exact hp
    obtain ⟨s₂, hrun₂, hinv₂, ho₂, hl₂, hc₂, -⟩ := hinv.iput (hinv.iref_cwd hcwd)
    have hold : s₂.cwd p = some i := by rw [hc₂]; exact hcwd
    have hset := hinv₂.setCwd p none
    have hdead := hset.setLive p false fun _ fd => by
      show s₂.ofile (p, fd) = none
      rw [ho₂]
      exact hnone fd (List.mem_finRange fd)
    refine ⟨(s₂.setCwd p none).setLive p false, ?_,
      ⟨hdead.congr (fun _ => rfl) fun j => ?_, fun q => ?_⟩⟩
    · rw [hrun]
      simp only [bind, Except.bind, hcwd, hrun₂]
    · rw [hold]
      simp only [bump_apply, reduceCtorEq, if_false, Option.some.injEq, eq_comm (b := j)]
      split <;> omega
    · show update s₂.live p false q = true ↔ update s₂.cwd p none q ≠ none
      rw [hl₂, hl, hc₂, hc]
      by_cases hq : q = p
      · simp [hq]
      · rw [update_of_ne hq, update_of_ne hq]
        exact h.cwd q

/-! ## §7. Reading and writing. -/

theorem pipewriteLoop_open (killed : Nat → Bool) (copyin : Nat → Option UInt8) (addr k : Nat) : ∀ (pi : Pipe) (i : Nat),
      (pipewriteLoop killed copyin addr k pi i).1.readopen = pi.readopen
        ∧ (pipewriteLoop killed copyin addr k pi i).1.writeopen = pi.writeopen := by
  induction k with
  | zero => exact fun pi i => ⟨rfl, rfl⟩
  | succ k ih =>
    intro pi i
    unfold pipewriteLoop
    split
    · exact ⟨rfl, rfl⟩
    · split
      · exact ⟨rfl, rfl⟩
      · split
        · exact ⟨rfl, rfl⟩
        · exact ih _ _

theorem pipereadLoop_open (copyout : Nat → Bool) (addr k : Nat) :
    ∀ (pi : Pipe) (i : Nat), (pipereadLoop copyout addr k pi i).1.readopen = pi.readopen
      ∧ (pipereadLoop copyout addr k pi i).1.writeopen = pi.writeopen := by
  induction k with
  | zero => exact fun pi i => ⟨rfl, rfl⟩
  | succ k ih =>
    intro pi i
    unfold pipereadLoop
    split
    · exact ⟨rfl, rfl⟩
    · dsimp only
      split
      · exact ih _ _
      · exact ⟨rfl, rfl⟩

/-- Reading and writing open and close nothing. -/
theorem PipeIo.run_open (io : PipeIo) (pi : Pipe) (w : Bool) : isOpen w (some (io.run pi)) = isOpen w (some pi) := by
  have hboth : (io.run pi).readopen = pi.readopen ∧ (io.run pi).writeopen = pi.writeopen := by
    cases io with
    | write killed copyin addr n i => exact pipewriteLoop_open ..
    | read killed copyout addr n =>
      show (pipereadSection killed copyout addr n pi).1.readopen = pi.readopen
        ∧ (pipereadSection killed copyout addr n pi).1.writeopen = pi.writeopen
      unfold pipereadSection
      split
      · split <;> exact ⟨rfl, rfl⟩
      · exact pipereadLoop_open ..
  cases w with
  | false => exact hboth.1
  | true => exact hboth.2

/-- The contents of a pipe are written and its ends stay as they are. -/
theorem Inv.setPipe (h : s.Inv e ei) (hpg : s.pipes pg ≠ none)
    (hopen : ∀ w, isOpen w (some pi) = isOpen w (s.pipes pg)) : (s.setPipe pg (some pi)).Inv e ei := by
  have hsame : ∀ w q, isOpen w (update s.pipes pg (some pi) q) = isOpen w (s.pipes q) := by
    intro w q
    by_cases hq : q = pg
    · rw [hq, update_self, hopen]
    · rw [update_of_ne hq]
  have hnone : ∀ q, update s.pipes pg (some pi) q = none ↔ s.pipes q = none := by
    intro q
    by_cases hq : q = pg
    · rw [hq, update_self]
      exact ⟨nofun, fun hn => absurd hn hpg⟩
    · rw [update_of_ne hq]
  refine ⟨h.ref, h.closed, h.iref, fun w q => ?_, fun q hq => ?_, fun q => ?_, h.dead⟩
  · show holders (s.ends w) q = if isOpen w (update s.pipes pg (some pi) q) then 1 else 0
    simp only [hsame]
    exact h.ends w q
  · show isOpen true (update s.pipes pg (some pi) q) = true ∨ _
    rw [hsame]
    refine (h.open_ q fun hn => hq ((hnone q).mpr hn)).imp id fun hr => ?_
    exact (hsame false q).trans hr
  · show s.allocs q = s.frees q + if update s.pipes pg (some pi) q = none then 0 else 1
    simp only [hnone]
    exact h.frees q

theorem Balanced.sys_rw (h : s.Balanced) (fd : Fin NOFILE) (io : PipeIo) :
    s.sys_rw p fd io = .error (.panic "fileread") ∨ ∃ s', s.sys_rw p fd io = .ok s' ∧ s'.Balanced := by
  unfold FtSys.sys_rw
  cases hfd : s.ofile (p, fd) with
  | none => exact .inr ⟨s, rfl, h⟩
  | some f =>
    dsimp only
    split
    · exact .inr ⟨s, rfl, h⟩
    cases htype : (s.file f).type with
    | FD_NONE => exact .inl rfl
    | FD_DEVICE => exact .inr ⟨s, rfl, h⟩
    | FD_INODE =>
      have hpos : 0 < s.iref (s.file f).ip := by
        have h1 := h.inv.iref (s.file f).ip
        have h2 : 0 < holders s.inodes (s.file f).ip :=
          holders_pos (i := f) (if_pos (.inl htype))
        omega
      exact .inr ⟨s, if_neg (Nat.ne_of_gt hpos), h⟩
    | FD_PIPE =>
      -- the page is still there: this file is one of its open ends
      have hopen : isOpen (s.file f).writable (s.pipes (s.file f).pipe) = true := by
        by_contra hno
        have h1 := h.inv.ends (s.file f).writable (s.file f).pipe
        rw [if_neg hno] at h1
        exact holders_eq_zero.mp h1 f (if_pos ⟨htype, rfl⟩)
      cases hpi : s.pipes (s.file f).pipe with
      | none =>
        rw [hpi] at hopen
        cases hopen
      | some pi =>
        refine .inr ⟨s.setPipe (s.file f).pipe (some (io.run pi)), rfl,
          ⟨h.inv.setPipe (by rw [hpi]; exact nofun) fun w => ?_, h.cwd⟩⟩
        rw [PipeIo.run_open, hpi]

/-! ## §8. Every step. -/

theorem Balanced.boot (root : Nat) (zero : File) : (FtSys.boot root zero).Balanced := by
  refine ⟨⟨fun f => ?_, fun _ _ => rfl, fun i => ?_, fun w pg => ?_, fun _ hpg => absurd rfl hpg,
    fun _ => rfl, fun _ _ _ => rfl⟩, fun p => ?_⟩
  · have h0 : holders (FtSys.boot root zero).ofile f = 0 := holders_none f
    rw [h0]
    rfl
  · have h0 : holders (FtSys.boot root zero).inodes i = 0 := holders_none i
    have h1 : holders (FtSys.boot root zero).cwd i = if i = root then 1 else 0 := by
      have hcwd : (FtSys.boot root zero).cwd = update (fun _ => none) initproc (some root) := by
        funext p
        unfold FtSys.boot update
        simp only [eq_rec_constant, dite_eq_ite]
      have hup := holders_update (fun _ : Slot => (none : Option Nat)) initproc (some root) i
      rw [← hcwd, holders_none] at hup
      simp only [reduceCtorEq, if_false, Option.some.injEq, eq_comm (b := i)] at hup
      omega
    show ((if i = root then 1 else 0 : Nat) : Int) = _
    omega
  · exact holders_none pg
  · show decide (p = initproc) = true ↔ (if p = initproc then some root else none) ≠ none
    by_cases hp : p = initproc <;> simp [hp]

/-- A call is refused, or the kernel panics, or the books are balanced again. -/
theorem Balanced.step (h : s.Balanced) (i : FileStep) :
    (∃ s', s.step i = .ok s' ∧ s'.Balanced) ∨ s.step i = .error .disabled ∨ ∃ msg, s.step i = .error (.panic msg) := by
  unfold FtSys.step
  split
  · exact .inr (.inl rfl)
  rename_i hlive
  have hlive : s.live i.by = true := Bool.of_not_eq_false hlive
  cases i with
  | dup p fd => exact .inl (h.sys_dup hlive fd)
  | close p fd => exact .inl (h.sys_close fd)
  | open_ p omode found => exact .inl (h.sys_open hlive omode found)
  | pipe p page copied =>
    dsimp only
    split
    · rename_i hpage
      exact .inl (h.sys_pipe hlive hpage copied)
    · exact .inr (.inl rfl)
  | chdir p found => exact .inl (h.sys_chdir hlive found)
  | rw p fd io =>
    rcases h.sys_rw fd io with herr | hok
    · exact .inr (.inr ⟨_, herr⟩)
    · exact .inl hok
  | fork p np =>
    dsimp only
    split
    · exact .inr (.inl rfl)
    · rename_i hdead
      exact .inl (h.fork hlive (Bool.of_not_eq_true hdead))
  | exit p =>
    rcases h.exit hlive with herr | hok
    · exact .inr (.inr ⟨_, herr⟩)
    · exact .inl hok

theorem Reachable.balanced (h : s.Reachable) : s.Balanced := by
  refine h.invariant (fun s hs => ?_) fun s i s' hs _ hstep => ?_
  · obtain ⟨root, zero, rfl⟩ := hs
    exact Balanced.boot root zero
  · rcases hs.step i with ⟨s₁, hok, hbal⟩ | herr | ⟨msg, herr⟩
    · obtain rfl : s₁ = s' := Except.ok.inj (hok.symm.trans hstep)
      exact hbal
    · cases herr.symm.trans hstep
    · cases herr.symm.trans hstep

/-- The pipe page `pg` has an open end in the file table. -/
def PipeHeld (s : FtSys) (pg : Nat) : Prop :=
  ∃ f, (s.file f).type = .FD_PIPE ∧ (s.file f).pipe = pg

theorem ends_eq_some {w : Bool} : s.ends w f = some pg ↔
    ((s.file f).type = .FD_PIPE ∧ (s.file f).writable = w) ∧ (s.file f).pipe = pg := by
  unfold FtSys.ends endOf
  split
  · rename_i hc
    exact ⟨fun h => ⟨hc, Option.some.inj h⟩, fun h => congrArg some h.2⟩
  · rename_i hc
    exact ⟨nofun, fun h => absurd h.1 hc⟩

/-- A pipe page is there exactly while a file of the table is one of its ends. -/
theorem Inv.pipe_held (h : s.Inv e ei) (pg : Nat) : s.pipes pg ≠ none ↔ s.PipeHeld pg := by
  constructor
  · intro hpg
    have hfile : ∀ w, isOpen w (s.pipes pg) = true → s.PipeHeld pg := by
      intro w hw
      have h1 := h.ends w pg
      rw [if_pos hw] at h1
      have hne : holders (s.ends w) pg ≠ 0 := by omega
      by_contra hno
      refine hne (holders_eq_zero.mpr fun f hf => hno ⟨f, ?_⟩)
      have := ends_eq_some.mp hf
      exact ⟨this.1.1, this.2⟩
    exact (h.open_ pg hpg).elim (hfile true) (hfile false)
  · rintro ⟨f, htype, hpipe⟩ hnone
    have h1 := h.ends (s.file f).writable pg
    rw [hnone, if_neg (by unfold isOpen; exact Bool.noConfusion)] at h1
    exact holders_eq_zero.mp h1 f (ends_eq_some.mpr ⟨⟨htype, rfl⟩, hpipe⟩)

/-- **The counts of open files are exact**, whatever calls were made and however
they failed.  A file counts the descriptors that point to it, a pipe page is
there as long as one of its two ends is open and is freed once, an inode
counts its open files and working directories, and no call uses a page or an
inode that has been freed. -/
theorem open_file_refs (h : s.Reachable) :
    (∀ f, (s.file f).ref = holders s.ofile f)
    ∧ (∀ f, (s.file f).ref = 0 → (s.file f).type = .FD_NONE ∧ ∀ k, s.ofile k ≠ some f)
    ∧ (∀ pg, s.pipes pg ≠ none ↔ s.PipeHeld pg)
    ∧ (∀ f g, (s.file f).type = .FD_PIPE → (s.file g).type = .FD_PIPE →
        (s.file f).pipe = (s.file g).pipe → (s.file f).writable = (s.file g).writable → f = g)
    ∧ (∀ pg, s.allocs pg = s.frees pg + if s.pipes pg = none then 0 else 1)
    ∧ (∀ i, s.iref i = holders s.inodes i + holders s.cwd i)
    ∧ ∀ i, s.step i ≠ .error .freed := by
  have hbal := h.balanced
  refine ⟨fun f => ?_, fun f hf => ⟨hbal.inv.closed f hf, ?_⟩, hbal.inv.pipe_held,
    fun f g hf hg hpipe hw => ?_, hbal.inv.frees, fun i => ?_, fun i herr => ?_⟩
  · have := hbal.inv.ref f
    omega
  · have := hbal.inv.ref f
    exact holders_eq_zero.mp (by omega)
  · -- each end of a pipe is in one file
    refine Lib.holders_unique (t := s.ends (s.file f).writable) (a := (s.file f).pipe) ?_
      (ends_eq_some.mpr ⟨⟨hf, rfl⟩, rfl⟩) (ends_eq_some.mpr ⟨⟨hg, hw.symm⟩, hpipe.symm⟩)
    rw [hbal.inv.ends]
    split <;> omega
  · have := hbal.inv.iref i
    omega
  · rcases hbal.step i with ⟨s', hok, -⟩ | hdis | ⟨msg, hpanic⟩
    · cases herr.symm.trans hok
    · cases herr.symm.trans hdis
    · cases herr.symm.trans hpanic

/-- `init` opens the console and a pipe, forks, and both close the reading end. -/
def pipeRun : List FileStep :=
  [.open_ 0 2 (some (5, .T_DEVICE, 1)), .pipe 0 (some (9, fun _ => 0)) true, .fork 0 1,
    .close 0 ⟨1, by decide⟩, .close 1 ⟨1, by decide⟩, .exit 1]

theorem open_file_refs_pipeRun : ∃ s : FtSys, s.Reachable ∧ s.frees 9 = 0 ∧ s.PipeHeld 9 ∧ s.iref 5 = 1
      ∧ (s.file ⟨2, by decide⟩).ref = 1 ∧ holders s.ofile ⟨2, by decide⟩ = 1 := by
  have hreach : ∃ s : FtSys, s.Reachable ∧ decide (s.frees 9 = 0 ∧ (s.pipes 9).isSome ∧ s.iref 5 = 1
      ∧ (s.file ⟨2, by decide⟩).ref = 1) = true :=
    Lib.Reach.of_reaches (s := boot 1 ⟨.FD_NONE, 0, false, false, 0, 0, 0, 0⟩) pipeRun _ ⟨_, _, rfl⟩
      (by decide +kernel)
  obtain ⟨s, hs, htest⟩ := hreach
  obtain ⟨hfrees, hpipe, hiref, href⟩ := of_decide_eq_true htest
  obtain ⟨hcount, -, hheld, -⟩ := open_file_refs hs
  refine ⟨s, hs, hfrees, (hheld 9).mp fun hn => ?_, hiref, href, (hcount _).symm.trans href⟩
  rw [hn] at hpipe
  cases hpipe

end FtSys

end Xv6
