/-
  Xv6.File.Fileread — how much `fileread` stores (`kernel/file.c`, with
  `piperead`, `consoleread` and the loop of `readi`).

  The pipe and the console take `n` as an `int` and do nothing if it is not
  positive.  `readi` takes it as a `uint`: there -1 is a length that ends
  beyond every file, which is cut to what is left of the file.

  Main result: `reads_within`.
-/
import Xv6.Dev.Console
import Xv6.Fs.Blocks

namespace Xv6

/-! ## §1. The readers. -/

/-- What a call meets: the pipe or the console in each of its critical sections, with whether the caller is then killed;
the inode; and what a copy of `m` bytes to an address does, `some k` if it fails with `k` bytes stored. -/
structure ReadEnv where
  pipe : List (Bool × Pipe)
  cons : List (Bool × Cons)
  size : UInt32
  bmap : Nat → Nat
  copy : Nat → Nat → Option Nat

/-- The copy of one byte. -/
def ReadEnv.copyout (w : ReadEnv) (a : Nat) : Bool := (w.copy a 1).isNone

/-- `piperead`, section by section: the bytes stored, which its counter counts, and the result. -/
def pipereadCall (copyout : Nat → Bool) (addr : Nat) (n : Int) : List (Bool × Pipe) → Nat × Option Int
  | [] => (0, none)
  | (killed, pi) :: ss =>
    match (pipereadSection killed copyout addr n pi).2.2 with
    | .ret r => (r.toNat, some r)
    | .sleep _ => pipereadCall copyout addr n ss

/-- The bytes that `consolereadLoop` stores. -/
def consoleStores (copyout : Nat → Bool) : Nat → Cons → Nat → Nat
  | 0, _, _ => 0
  | n + 1, cons, dst =>
    if cons.r = cons.w then 0
    else
      let c := cons.buf (Cons.index cons.r)
      if c = EOT ∨ copyout dst = false then 0
      else if c = NL then 1
      else consoleStores copyout n { cons with r := cons.r + 1 } (u64 (dst + 1)) + 1

/-- `consoleread`, section by section, with `n` bytes to go. -/
def consolereadCall (copyout : Nat → Bool) (target : Nat) : Nat → Nat → List (Bool × Cons) → Nat × Option Int
  | _, _, [] => (0, none)
  | n, dst, (killed, cons) :: ss =>
    match (consolereadLoop killed copyout target n cons dst).2.2 with
    | .ret r => (consoleStores copyout n cons dst, some r)
    | .sleep n' dst' =>
      let (k, r) := consolereadCall copyout target n' dst' ss
      (consoleStores copyout n cons dst + k, r)

/-- The loop of `readi` to a user address: the bytes stored, and the result.  Every turn copies a byte at least. -/
def readiLoop (w : ReadEnv) (n : Nat) : Nat → Nat → Nat → Nat → Nat × Int
  | 0, _, tot, _ => (0, tot)
  | fuel + 1, off, tot, dst =>
    if n ≤ tot then (0, tot)
    else if w.bmap (off / BSIZE) = 0 then (0, tot)
    else
      let m := min (n - tot) (BSIZE - off % BSIZE)
      match w.copy dst m with
      | some k => (min k m, -1)
      | none =>
        let (k, r) := readiLoop w n fuel (off + m) (tot + m) (u64 (dst + m))
        (m + k, r)

/-- `readi(ip, 1, dst, off, n)`, where `off` and `n` are of type `uint`; `tot` is returned as an `int`. -/
def readiUser (w : ReadEnv) (dst off n : Nat) : Nat × Int :=
  if off > w.size.toNat ∨ (off + n) % 2 ^ 32 < off then (0, 0)
  else
    let n := if (off + n) % 2 ^ 32 > w.size.toNat then w.size.toNat - off else n
    let (k, tot) := readiLoop w n n off 0 dst
    (k, tot.bmod (2 ^ 32))

/-- the major number of the console -/
def CONSOLE : Int := 1

/-- `fileread(f, addr, n)`: the bytes stored, the result if the call has returned, and the offset. -/
def fileread (w : ReadEnv) (f : File) (addr : Nat) (n : Int32) : FileResult (Nat × Option Int × Nat) :=
  if f.readable = false then .ok (0, some (-1), f.off)
  else
    match f.type with
    | .FD_PIPE =>
      let (k, r) := pipereadCall w.copyout addr n.toInt w.pipe
      .ok (k, r, f.off)
    | .FD_DEVICE =>
      if f.major < 0 ∨ f.major ≥ NDEV ∨ f.major ≠ CONSOLE then .ok (0, some (-1), f.off)
      else
        let (k, r) := consolereadCall w.copyout n.toInt.toNat n.toInt.toNat addr w.cons
        .ok (k, r, f.off)
    | .FD_INODE =>
      let (k, r) := readiUser w addr f.off (n.toInt % 2 ^ 32).toNat
      .ok (k, some r, if r > 0 then (f.off + r.toNat) % 2 ^ 32 else f.off)
    | .FD_NONE => .error (.panic "fileread")

/-! ## §2. What they store. -/

theorem pipereadLoop_le (copyout : Nat → Bool) (addr k : Nat) : ∀ (pi : Pipe) (i : Nat),
    (pipereadLoop copyout addr k pi i).2.2 ≤ i + k := by
  induction k with
  | zero => exact fun _ _ => le_rfl
  | succ k ih =>
    intro pi i
    rw [pipereadLoop]
    split
    · exact Nat.le_add_right ..
    · dsimp only
      split
      · exact (ih _ (i + 1)).trans (by omega)
      · exact Nat.le_add_right ..

theorem pipereadCall_le (copyout : Nat → Bool) (addr : Nat) (n : Int) (ss : List (Bool × Pipe)) :
    (pipereadCall copyout addr n ss).1 ≤ n.toNat ∧ ∀ r, (pipereadCall copyout addr n ss).2 = some r → r ≤ n.toNat := by
  induction ss with
  | nil => exact ⟨Nat.zero_le _, nofun⟩
  | cons s ss ih =>
    rw [pipereadCall]
    split
    · rename_i r hret
      have hr : r ≤ n.toNat := by
        unfold pipereadSection at hret
        split at hret
        · split at hret <;> cases hret
          omega
        · cases hret
          exact Int.ofNat_le.mpr ((pipereadLoop_le copyout addr n.toNat s.2 0).trans_eq (Nat.zero_add _))
      exact ⟨by omega, fun r' h => Option.some.inj h ▸ hr⟩
    · exact ih

/-- One section of `consoleread` stores a byte for each that is then no longer to go. -/
theorem consoleread_stores (killed : Bool) (copyout : Nat → Bool) (target n : Nat) : ∀ (cons : Cons) (dst : Nat),
    consoleStores copyout n cons dst ≤ n
      ∧ (∀ r, (consolereadLoop killed copyout target n cons dst).2.2 = .ret r → r ≤ target)
      ∧ ∀ n' dst', (consolereadLoop killed copyout target n cons dst).2.2 = .sleep n' dst' →
        n' + consoleStores copyout n cons dst = n := by
  induction n with
  | zero => exact fun _ _ => ⟨le_rfl, fun r h => by cases h; exact le_rfl, nofun⟩
  | succ n ih =>
    intro cons dst
    obtain ⟨hle, hret, hsleep⟩ := ih { cons with r := cons.r + 1 } (u64 (dst + 1))
    rw [consolereadLoop, consoleStores]
    by_cases hempty : cons.r = cons.w
    · rw [if_pos hempty, if_pos hempty]
      refine ⟨Nat.zero_le _, fun r h => ?_, fun n' dst' h => ?_⟩
      · split at h <;> cases h
        omega
      · split at h <;> cases h
        rfl
    rw [if_neg hempty, if_neg hempty]
    by_cases heot : cons.buf (Cons.index cons.r) = EOT
    · rw [if_pos heot, if_pos (.inl heot)]
      refine ⟨Nat.zero_le _, fun r h => ?_, fun n' dst' h => ?_⟩
      · split at h <;> cases h <;> omega
      · split at h <;> cases h
    rw [if_neg heot]
    by_cases hfail : copyout dst = false
    · rw [if_pos hfail, if_pos (.inr hfail)]
      exact ⟨Nat.zero_le _, fun r h => by cases h; omega, nofun⟩
    · rw [if_neg hfail, if_neg (not_or.mpr ⟨heot, hfail⟩)]
      split
      · exact ⟨by omega, fun r h => by cases h; omega, nofun⟩
      · exact ⟨by omega, hret, fun n' dst' h => by rw [← Nat.add_assoc, hsleep n' dst' h]⟩

theorem consolereadCall_le (copyout : Nat → Bool) (target : Nat) (ss : List (Bool × Cons)) : ∀ n dst,
    (consolereadCall copyout target n dst ss).1 ≤ n
      ∧ ∀ r, (consolereadCall copyout target n dst ss).2 = some r → r ≤ target := by
  induction ss with
  | nil => exact fun _ _ => ⟨Nat.zero_le _, nofun⟩
  | cons s ss ih =>
    intro n dst
    obtain ⟨hle, hret, hsleep⟩ := consoleread_stores s.1 copyout target n s.2 dst
    rw [consolereadCall]
    split
    · exact ⟨hle, fun r' h => Option.some.inj h ▸ hret _ ‹_›⟩
    · rename_i n' dst' hx
      have hn := hsleep n' dst' hx
      obtain ⟨hle', hret'⟩ := ih n' dst'
      exact ⟨by dsimp only; omega, hret'⟩

/-- **The loop of `readi`**, by induction on its turns. -/
theorem readiLoop_le (w : ReadEnv) (n fuel : Nat) : ∀ off tot dst, tot ≤ n →
    (readiLoop w n fuel off tot dst).1 ≤ n - tot ∧ -1 ≤ (readiLoop w n fuel off tot dst).2
      ∧ (readiLoop w n fuel off tot dst).2 ≤ n := by
  induction fuel with
  | zero => exact fun _ tot _ h => ⟨Nat.zero_le _, by dsimp only [readiLoop]; omega⟩
  | succ fuel ih =>
    intro off tot dst h
    rw [readiLoop]
    split
    · exact ⟨Nat.zero_le _, by dsimp only; omega⟩
    split
    · exact ⟨Nat.zero_le _, by dsimp only; omega⟩
    dsimp only
    split
    · exact ⟨by omega, by dsimp only; omega⟩
    · obtain ⟨hle, hr⟩ := ih (off + min (n - tot) (BSIZE - off % BSIZE)) (tot + min (n - tot) (BSIZE - off % BSIZE))
        (u64 (dst + min (n - tot) (BSIZE - off % BSIZE))) (by omega)
      exact ⟨by dsimp only; omega, hr⟩

/-- What `readi` stores and returns ends within the file, and within `n` if that is not negative as an `int`. -/
theorem readiUser_le (w : ReadEnv) (dst off n : Nat) (hn : n < 2 ^ 31) :
    (readiUser w dst off n).1 ≤ n ∧ (readiUser w dst off n).2 ≤ n ∧ (0 < (readiUser w dst off n).2 →
      off + (readiUser w dst off n).2 ≤ w.size.toNat) := by
  unfold readiUser
  split
  · exact ⟨Nat.zero_le _, Int.natCast_nonneg _, fun h => absurd h (lt_irrefl _)⟩
  rename_i hoff
  dsimp only
  generalize hm : (if (off + n) % 2 ^ 32 > w.size.toNat then w.size.toNat - off else n) = m
  have hmn : m ≤ n ∧ off + m ≤ w.size.toNat := by split at hm <;> omega
  obtain ⟨hk, hlo, hhi⟩ := readiLoop_le w m m off 0 dst (Nat.zero_le m)
  rw [Int.bmod_eq_of_le (by omega) (by omega)]
  omega

/-- The first piece cannot be read: there is no block, or its copy fails at once. -/
def ReadEnv.Stuck (w : ReadEnv) (dst off : Nat) : Prop :=
  w.bmap (off / BSIZE) = 0 ∨ w.copy dst (min (w.size.toNat - off) (BSIZE - off % BSIZE)) = some 0

/-- **A negative length**: nothing is stored if `off + n` wraps around or nothing of the file is left, or if the first
piece cannot be read.  Otherwise the length is cut to the rest of the file, and something is stored. -/
theorem readiUser_negative (w : ReadEnv) (dst off n : Nat) (hn : 2 ^ 31 ≤ n) (hlt : n < 2 ^ 32) :
    ((off + n < 2 ^ 32 → off < w.size.toNat → w.Stuck dst off) →
        (readiUser w dst off n).1 = 0 ∧ (readiUser w dst off n).2 ≤ 0)
      ∧ (off + n < 2 ^ 32 → off < w.size.toNat → ¬ w.Stuck dst off → 0 < (readiUser w dst off n).1) := by
  have hsize := w.size.toNat_lt
  have hmod : off % BSIZE < BSIZE := Nat.mod_lt _ (by decide)
  have hblock : BSIZE = 1024 := rfl
  by_cases hcut : off + n < 2 ^ 32 ∧ off < w.size.toNat
  · -- what is left of the file is read
    obtain ⟨m, hm, hread⟩ : ∃ m, min (m + 1) (BSIZE - off % BSIZE) = min (w.size.toNat - off) (BSIZE - off % BSIZE)
        ∧ readiUser w dst off n = ((readiLoop w (m + 1) (m + 1) off 0 dst).1,
          (readiLoop w (m + 1) (m + 1) off 0 dst).2.bmod (2 ^ 32)) := by
      unfold readiUser
      rw [Nat.mod_eq_of_lt hcut.1, if_neg (by omega)]
      split
      · exact ⟨w.size.toNat - off - 1, by rw [Nat.sub_add_cancel (by omega)], by rw [Nat.sub_add_cancel (by omega)]⟩
      · refine ⟨n - 1, ?_, by rw [Nat.sub_add_cancel (by omega)]⟩
        omega
    have hpos : 0 < min (m + 1) (BSIZE - off % BSIZE) := by omega
    rw [hread, readiLoop, if_neg (by omega), Nat.sub_zero, hm]
    rw [hm] at hpos
    refine ⟨fun hstuck => ?_, fun _ _ hnot => ?_⟩
    · rcases hstuck hcut.1 hcut.2 with hmap | hcopy
      · rw [if_pos hmap]
        exact ⟨rfl, le_of_eq rfl⟩
      · by_cases hmap : w.bmap (off / BSIZE) = 0
        · rw [if_pos hmap]
          exact ⟨rfl, le_of_eq rfl⟩
        · rw [if_neg hmap]
          dsimp only
          rw [hcopy]
          exact ⟨Nat.zero_min _, (by decide : (-1 : Int).bmod (2 ^ 32) ≤ 0)⟩
    · obtain ⟨hmap, hcopy⟩ := not_or.mp hnot
      rw [if_neg hmap]
      dsimp only
      cases hc : w.copy dst (min (w.size.toNat - off) (BSIZE - off % BSIZE)) with
      | none =>
        dsimp only
        omega
      | some k =>
        have hk : k ≠ 0 := fun hk => hcopy (hk ▸ hc)
        dsimp only
        omega
  · refine ⟨fun _ => ?_, fun hlow hoff => absurd ⟨hlow, hoff⟩ hcut⟩
    unfold readiUser
    split
    · exact ⟨rfl, le_rfl⟩
    · -- the offset is the size
      have hzero : (if (off + n) % 2 ^ 32 > w.size.toNat then w.size.toNat - off else n) = 0 := by
        rw [if_pos (by omega)]
        omega
      dsimp only
      rw [hzero]
      exact ⟨rfl, le_of_eq rfl⟩

/-- At most `max(n, 0)` bytes are stored and reported, and the offset of an inode file moves on by what is reported. -/
def Within (w : ReadEnv) (f : File) (addr : Nat) (n : Int32) : Prop :=
  ∃ k r off, fileread w f addr n = .ok (k, r, off) ∧ (k : Int) ≤ max n.toInt 0 ∧ (∀ x, r = some x → x ≤ max n.toInt 0)
    ∧ (f.type = .FD_INODE → ∃ x, r = some x ∧ off = f.off + x.toNat) ∧ (f.type ≠ .FD_INODE → off = f.off)

/-- **When a read keeps to its length**: for pipes and the console always; for inodes if `n` is not negative, if the offset
is at least `-n` or the size of the file, or if nothing can be read there. -/
theorem reads_within (w : ReadEnv) (f : File) (addr : Nat) (n : Int32) (hkind : f.type ≠ .FD_NONE) :
    Within w f addr n ↔ (f.readable = true → f.type = .FD_INODE → n.toInt < 0 → (f.off : Int) < -n.toInt →
      f.off < w.size.toNat → w.Stuck addr f.off) := by
  unfold Within fileread
  by_cases hreadable : f.readable = false
  · rw [if_pos hreadable, hreadable]
    exact ⟨fun _ => nofun, fun _ => ⟨_, _, _, rfl, by omega, fun x h => by cases h; omega, fun _ => ⟨-1, rfl, rfl⟩, fun _ => rfl⟩⟩
  rw [if_neg hreadable]
  have hn := n.toInt_lt
  have hlo := n.le_toInt
  cases htype : f.type with
  | FD_NONE => exact absurd htype hkind
  | FD_PIPE =>
    obtain ⟨hk, hr⟩ := pipereadCall_le w.copyout addr n.toInt w.pipe
    exact ⟨fun _ _ => nofun, fun _ => ⟨_, _, _, rfl, by omega, fun x h => (hr x h).trans (by omega), nofun, fun _ => rfl⟩⟩
  | FD_DEVICE =>
    refine ⟨fun _ _ => nofun, fun _ => ?_⟩
    dsimp only
    split
    · exact ⟨_, _, _, rfl, by omega, fun x h => by cases h; omega, nofun, fun _ => rfl⟩
    · obtain ⟨hk, hr⟩ := consolereadCall_le w.copyout n.toInt.toNat w.cons n.toInt.toNat addr
      exact ⟨_, _, _, rfl, by omega, fun x h => (hr x h).trans (by omega), nofun, fun _ => rfl⟩
  | FD_INODE =>
    dsimp only
    by_cases hpos : 0 ≤ n.toInt
    · refine ⟨fun _ _ _ hneg => absurd hneg (by omega), fun _ => ?_⟩
      have hint : (n.toInt % 2 ^ 32).toNat = n.toInt.toNat := by rw [Int.emod_eq_of_lt hpos (by omega)]
      obtain ⟨hk, hr, hoff⟩ := readiUser_le w addr f.off n.toInt.toNat (by omega)
      have hsize := w.size.toNat_lt
      rw [hint]
      generalize readiUser w addr f.off n.toInt.toNat = res at hk hr hoff ⊢
      refine ⟨_, _, _, rfl, by omega, fun x h => by cases h; omega, fun _ => ⟨_, rfl, ?_⟩, fun h => absurd rfl h⟩
      split
      · exact Nat.mod_eq_of_lt (by omega)
      · rw [Int.toNat_of_nonpos (by omega), Nat.add_zero]
    · -- `n` is a length of at least 2^31
      obtain ⟨hnone, hsome⟩ := readiUser_negative w addr f.off (n.toInt % 2 ^ 32).toNat (by omega) (by omega)
      constructor
      · rintro ⟨k, r, off, hrun, hk, -⟩ - - - hlow hoff
        by_contra hnot
        have hstored := hsome (by omega) hoff hnot
        cases hrun
        omega
      · intro hstuck
        obtain ⟨hzero, hr⟩ := hnone fun hlow hoff =>
          hstuck (Bool.not_eq_false _ ▸ hreadable) rfl (by omega) (by omega) hoff
        refine ⟨_, _, _, rfl, by omega, fun x h => by cases h; omega, fun _ => ⟨_, rfl, ?_⟩, fun h => absurd rfl h⟩
        rw [if_neg (by omega), Int.toNat_of_nonpos hr, Nat.add_zero]

/-- A file of five bytes, all of it readable to any address. -/
def fiveBytes : ReadEnv := ⟨[], [], 5, fun _ => 1, fun _ _ => none⟩

/-- That file, opened for reading. -/
def fiveOpen : File := ⟨.FD_INODE, 1, true, false, 0, 0, 0, 0⟩

theorem reads_within_three : ∃ k r off, fileread fiveBytes fiveOpen 4096 3 = .ok (k, r, off) ∧ (k : Int) ≤ 3
    ∧ (∀ x, r = some x → x ≤ 3) ∧ ∃ x, r = some x ∧ off = 0 + x.toNat := by
  obtain ⟨k, r, off, hrun, hk, hr, hoff, -⟩ :=
    (reads_within fiveBytes fiveOpen 4096 3 nofun).mpr fun _ _ hneg => absurd hneg (by decide)
  exact ⟨k, r, off, hrun, hk, hr, hoff rfl⟩

/-- `read(fd, buf, -1)` stores the whole of the file. -/
theorem reads_all : fileread fiveBytes fiveOpen 4096 (-1) = .ok (5, some 5, 5) := by
  decide +kernel

end Xv6
