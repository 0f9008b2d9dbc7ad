/-
  Xv6.Fs.Holes — files have no holes, so reads never allocate
  (`kernel/fs.c`, `kernel/file.c`).

  `bmap` is shared by `readi` and `writei` and calls `balloc` on an empty cell.
  `balloc` calls `log_write`, which panics outside of a transaction, and
  `fileread` runs outside of one.  A call of `readi` that does not depend on its
  allocation does not allocate.

  Main results: `no_holes`, `no_holes_crossed`.
-/
import Xv6.Fs.BlockOwn

namespace Xv6

namespace BlkSys

variable {k : Nat} {sb : Super} {s s' : BlkSys k} {i : Inum k} {ip ip' : Dino} {b : Nat}

/-! ## §1. Reading with any allocation. -/

/-- `balloc()` outside of a transaction: marking a block is a `log_write`. -/
def ballocOut (sb : Super) : Alloc k := fun s =>
  match s.balloc sb with
  | (s', b) => if b = 0 then .ok (s', 0) else .error (.panic "log_write outside of trans")

/-- `fileread()` of an inode, from `ilock` to `iunlock`. -/
def fileread (alloc : Alloc k) (s : BlkSys k) (i : Inum k) (off n : Nat) (copyout : Copyout) : BlkResult (BlkSys k) := do
  let (s, ip) ← s.ilock i
  let (s, ip, _) ← s.readi alloc ip off n copyout
  .ok (s.setCore i (some ip))

/-! ## §2. No holes. -/

/-- The file system outside the inode table is the same. -/
def SameDisk (s s' : BlkSys k) : Prop := s'.used = s.used ∧ s'.blk = s.blk ∧ s'.dino = s.dino

/-- **Files have no holes.**  In every state that calls on a sound image lead to, every inode in use has a block for
every index below `size / BSIZE`, rounded up, on disk and in the inode table.  So `fileread` does the same whatever an
allocation would do: it does not allocate, it does not call `log_write`, and the disk stays as it is. -/
theorem no_holes (h : Reachable sb s) : (∀ i, (s.dino i).type ≠ none → s.Mapped i (s.dino i).size)
      ∧ (∀ i x, s.core i = some x → x = s.dino i) ∧ ∀ i off n copyout, (s.dino i).type ≠ none → ∃ s', SameDisk s s'
          ∧ s.step sb (.read i off n copyout) = .ok s' ∧ ∀ alloc, s.fileread alloc i off n copyout = .ok s' := by
  have hgood := h.good
  refine ⟨hgood.inv.whole, fun i x hx => (hgood.agree i x hx).1, fun i off n copyout htype => ?_⟩
  have hget : (s.core i).getD (s.dino i) = s.dino i := by
    cases hc : s.core i with
    | none => rfl
    | some x => exact (hgood.agree i x hc).1
  have hlock : s.ilock i = .ok (s.setCore i (some (s.dino i)), s.dino i) := by
    unfold ilock
    rw [hget, if_neg htype]
  have hself : (s.setCore i (some (s.dino i))).setDino i (s.dino i) = s.setCore i (some (s.dino i)) :=
    setDino_eq_self rfl
  have hmap : ((s.setCore i (some (s.dino i))).setDino i (s.dino i)).Mapped i (s.dino i).size := by
    rw [hself]
    exact hgood.inv.whole i htype
  obtain ⟨bs, r, hread⟩ := readi_mapped copyout htype hmap off n
  have hrun : ∀ alloc, s.fileread alloc i off n copyout
      = .ok ((s.setCore i (some (s.dino i))).setCore i (some (s.dino i))) := by
    intro alloc
    exact (Lib.bind_of_ok hlock).trans (Lib.bind_of_ok (hread alloc))
  exact ⟨(s.setCore i (some (s.dino i))).setCore i (some (s.dino i)), ⟨rfl, rfl, rfl⟩, hrun (ballocIn sb), hrun⟩

/-- After a full and a failed write the file is read, with the `balloc` that panics. -/
theorem no_holes_writeRun : ∃ s s' : BlkSys 1, Reachable ⟨4, 2⟩ s ∧ (s.dino 2).size = 1024 ∧ s.Mapped 2 1024
      ∧ SameDisk s s' ∧ s.fileread (ballocOut ⟨4, 2⟩) 2 0 1024 (fun _ _ => true) = .ok s' := by
  have hreach : ∃ s : BlkSys 1, Reachable ⟨4, 2⟩ s
      ∧ decide ((s.dino 2).size = 1024 ∧ (s.dino 2).type ≠ none) = true :=
    Lib.Reach.of_reaches writeRun _ smallDisk_image (by decide +kernel)
  obtain ⟨s, hs, htest⟩ := hreach
  obtain ⟨hsize, htype⟩ := of_decide_eq_true htest
  obtain ⟨hwhole, -, hread⟩ := no_holes hs
  obtain ⟨s', hsame, -, hrun⟩ := hread 2 0 1024 (fun _ _ => true) htype
  exact ⟨s, s', hs, hsize, hsize ▸ hwhole 2 htype, hsame, hrun _⟩

/-- A disk with a file that has no holes, but all of whose blocks are block 3, the indirect one too. -/
def crossedDisk : BlkSys 1 where
  used := fun b => decide (b < 4)
  blk := fun _ _ => 3
  dino := fun i => if i = 2 then ⟨some .T_FILE, 13 * BSIZE, fun _ => 3⟩ else ⟨none, 0, fun _ => 0⟩
  core := fun _ => none

/-- **On an image whose blocks are held twice** a write of zeros makes a hole: no holes at the start is not enough. -/
theorem no_holes_crossed :
    ∃ s : BlkSys 1, Lib.Reach (fun s => ∀ i, (s.dino i).type ≠ none → s.Mapped i (s.dino i).size) (fun _ _ => True)
      (step ⟨4, 2⟩) s ∧ ¬ ∀ i, (s.dino i).type ≠ none → s.Mapped i (s.dino i).size := by
  have hwhole : ∀ i, (crossedDisk.dino i).type ≠ none → crossedDisk.Mapped i (crossedDisk.dino i).size := by
    intro i htype bn hbn
    obtain rfl : i = 2 := by
      by_contra hi
      apply htype
      show (if i = 2 then (⟨some .T_FILE, 13 * BSIZE, fun _ => 3⟩ : Dino) else ⟨none, 0, fun _ => 0⟩).type = none
      rw [if_neg hi]
    have hcell : ∀ c, crossedDisk.held (2, c) ≠ none := by
      intro c
      cases c with
      | inl a | inr j => nofun
    have hsize : (crossedDisk.dino 2).size = 13 * BSIZE := rfl
    rw [hsize] at hbn
    unfold BSIZE at hbn
    unfold cellOf
    split
    · exact ⟨_, rfl, hcell _⟩
    · have hlt : bn - NDIRECT < NINDIRECT := by
        unfold NDIRECT NINDIRECT
        omega
      rw [dif_pos hlt]
      exact ⟨_, rfl, hcell _⟩
  have hreach : ∃ s : BlkSys 1,
      Lib.Reach (fun s => ∀ i, (s.dino i).type ≠ none → s.Mapped i (s.dino i).size) (fun _ _ => True) (step ⟨4, 2⟩) s
      ∧ decide ((s.dino 2).type ≠ none ∧ (s.dino 2).size = 13 * BSIZE ∧ s.held (2, .inr ⟨0, by decide⟩) = none) = true :=
    Lib.Reach.of_reaches [.write 2 0 0 1024 fun _ len => (List.replicate len 0, true)] _ hwhole (by decide +kernel)
  obtain ⟨s, hs, htest⟩ := hreach
  obtain ⟨htype, hsize, hnone⟩ := of_decide_eq_true htest
  refine ⟨s, hs, fun hall => ?_⟩
  obtain ⟨c, hc, hheld⟩ := hall 2 htype 12 (by rw [hsize]; decide)
  cases hc
  exact hheld hnone

end BlkSys

end Xv6
