/-
  Xv6.Fs.Directory — the bytes of one directory (`namecmp`, `dirlookup`,
  `dirlink` of `kernel/fs.c`, `strncmp`, `strncpy` of `kernel/string.c`, and
  `sys_unlink` of `kernel/sysfile.c` after the lookup of the parent).

  A name is what stands in memory from a pointer on: `name[DIRSIZ]` need not
  have a NUL.  A directory has no holes, so `bmap` fails only for a block that
  has to be allocated (`room` says whether one can be).

  Main result: `directory_is_map`.
-/
import Xv6.Fs.Blocks

namespace Xv6.Directory

open Function (update update_apply)

/-- the bytes of a name in a directory -/
def DIRSIZ : Nat := 14

/-- `sizeof(struct dirent)` -/
def DIRENT : Nat := 16

/-! ## §1. Strings. -/

/-- `strncmp(p, q, n)` -/
def strncmp : Nat → (Nat → UInt8) → (Nat → UInt8) → Int
  | 0, _, _ => 0
  | n + 1, p, q =>
      if p 0 ≠ 0 ∧ p 0 = q 0 then strncmp n (fun i => p (i + 1)) (fun i => q (i + 1))
      else (p 0).toNat - (q 0).toNat

/-- The `n` bytes that `strncpy(s, t, n)` stores. -/
def strncpy : Nat → (Nat → UInt8) → List UInt8
  | 0, _ => []
  | n + 1, t => if t 0 = 0 then List.replicate (n + 1) 0 else t 0 :: strncpy n fun i => t (i + 1)

/-- `namecmp(s, t)` -/
def namecmp (s t : Nat → UInt8) : Int := strncmp DIRSIZ s t

/-- The string of at most `n` bytes at a pointer. -/
def str : Nat → (Nat → UInt8) → List UInt8
  | 0, _ => []
  | n + 1, p => if p 0 = 0 then [] else p 0 :: str n fun i => p (i + 1)

theorem strncmp_eq_zero (n : Nat) : ∀ p q : Nat → UInt8, strncmp n p q = 0 ↔ str n p = str n q := by
  induction n with
  | zero => exact fun _ _ => iff_of_true rfl rfl
  | succ n ih =>
    intro p q
    rw [strncmp, str, str]
    by_cases heq : p 0 = q 0
    · rw [← heq]
      by_cases hp : p 0 = 0
      · simp [hp]
      · simp [hp, ih]
    · have hne : (p 0).toNat ≠ (q 0).toNat := fun h => heq (UInt8.toNat_inj.mp h)
      rw [if_neg fun h => heq h.2]
      refine iff_of_false (by omega) ?_
      split <;> split <;> simp_all

theorem str_congr {n : Nat} : ∀ {p q : Nat → UInt8}, (∀ i < n, p i = q i) → str n p = str n q := by
  induction n with
  | zero => exact fun _ => rfl
  | succ n ih =>
    intro p q h
    rw [str, str, h 0 (Nat.succ_pos n), ih fun i hi => h (i + 1) (Nat.succ_lt_succ hi)]

/-- **`strncpy` keeps the string.** -/
theorem str_strncpy (n : Nat) : ∀ t : Nat → UInt8, str n (fun i => (strncpy n t).getD i 0) = str n t := by
  induction n with
  | zero => exact fun _ => rfl
  | succ n ih =>
    intro t
    by_cases ht : t 0 = 0
    · simp [strncpy, str, ht]
    · simp [strncpy, str, ht, ← ih fun i => t (i + 1)]

theorem length_strncpy (n : Nat) : ∀ t : Nat → UInt8, (strncpy n t).length = n := by
  induction n with
  | zero => exact fun _ => rfl
  | succ n ih =>
    intro t
    rw [strncpy]
    split
    · exact List.length_replicate
    · rw [List.length_cons, ih]

/-! ## §2. The directory. -/

/-- A directory as a file. -/
structure Dir where
  size : Nat
  data : Nat → UInt8

namespace Dir

variable {d d' : Dir} {j k : Nat}

/-- The entry at offset `k * sizeof(de)`. -/
def inum (d : Dir) (k : Nat) : Nat := (d.data (DIRENT * k)).toNat + 256 * (d.data (DIRENT * k + 1)).toNat

/-- Where the name of entry `k` is. -/
def name (d : Dir) (k : Nat) : Nat → UInt8 := fun i => d.data (DIRENT * k + 2 + i)

/-- The loops over the entries, from entry `k` on; `readi` returns less than an entry only at the end of the file. -/
def scan (d : Dir) (msg : String) (stop : Nat → Bool) : Nat → Nat → Except String Nat
  | 0, k => .ok k
  | fuel + 1, k =>
      if d.size ≤ DIRENT * k then .ok k
      else if d.size < DIRENT * k + DIRENT then .error msg
      else if stop k then .ok k
      else d.scan msg stop fuel (k + 1)

/-- The entry with the name: its inum and its offset. -/
def dirlookup (d : Dir) (name : Nat → UInt8) : Except String (Option (Nat × Nat)) := do
  let k ← d.scan "dirlookup read" (fun k => d.inum k ≠ 0 ∧ namecmp name (d.name k) = 0) (d.size + 1) 0
  if DIRENT * k < d.size then .ok (some (d.inum k, DIRENT * k)) else .ok none

/-- `bmap()`: whether there is a block, or room for one. -/
def bmap (d : Dir) (room : Bool) (bn : Nat) : Bool := decide (bn * BSIZE < d.size) || room

/-- The loop of `writei` from kernel memory: the bytes, the offset and `tot`. -/
def writeiLoop (bmap : Nat → Bool) (src : List UInt8) :
    Nat → (Nat → UInt8) → Nat → Nat → (Nat → UInt8) × Nat × Nat
  | 0, data, off, tot => (data, off, tot)
  | fuel + 1, data, off, tot =>
      if src.length ≤ tot ∨ bmap (off / BSIZE) = false then (data, off, tot)
      else
        let m := min (src.length - tot) (BSIZE - off % BSIZE)
        writeiLoop bmap src fuel (fun a => if off ≤ a ∧ a < off + m then src.getD (tot + (a - off)) 0 else data a)
          (off + m) (tot + m)

/-- `writei()` from kernel memory. -/
def writei (d : Dir) (room : Bool) (off : Nat) (src : List UInt8) : Dir × Int :=
  if d.size < off ∨ MAXFILE * BSIZE < off + src.length then (d, -1)
  else
    let (data, off, tot) := writeiLoop (d.bmap room) src src.length d.data off 0
    (⟨max d.size off, data⟩, tot)

/-- `dirlink(dp, name, inum)` -/
def dirlink (d : Dir) (name : Nat → UInt8) (inum : Nat) (room : Bool) : Except String (Dir × Int) := do
  match ← d.dirlookup name with
  | some _ => .ok (d, -1)
  | none =>
    let k ← d.scan "dirlink read" (fun k => d.inum k = 0) (d.size + 1) 0
    let (d', n) := d.writei room (DIRENT * k) (.ofNat inum :: .ofNat (inum / 256) :: strncpy DIRSIZ name)
    .ok (d', if n ≠ DIRENT then -1 else 0)

/-- The string literals `"."` and `".."`. -/
def dots (n : Nat) : Nat → UInt8 := fun i => if i < n then 46 else 0

/-- `sys_unlink` in the parent; `busy` if what is found is a directory that is not empty. -/
def unlink (d : Dir) (name : Nat → UInt8) (busy : Bool) : Except String (Dir × Int) := do
  if namecmp name (dots 1) = 0 ∨ namecmp name (dots 2) = 0 then .ok (d, -1)
  else
    match ← d.dirlookup name with
    | none => .ok (d, -1)
    | some (_, off) =>
      if busy then .ok (d, -1)
      else
        let (d', n) := d.writei false off (List.replicate DIRENT 0)
        if n ≠ DIRENT then .error "unlink: writei" else .ok (d', 0)

/-- The binding in entry `k`. -/
def entry (d : Dir) (k : Nat) : Option (List UInt8 × Nat) :=
  if DIRENT * k < d.size ∧ d.inum k ≠ 0 then some (str DIRSIZ (d.name k), d.inum k) else none

/-- Whole entries, of different names. -/
structure Ok (d : Dir) : Prop where
  whole : d.size % DIRENT = 0
  small : d.size ≤ MAXFILE * BSIZE
  distinct : ∀ {j k nm i i'}, d.entry j = some (nm, i) → d.entry k = some (nm, i') → j = k

/-! ## §3. One call. -/

/-- **The loops end** at the first entry where they stop, or behind the last one. -/
theorem scan_spec (h : d.size % DIRENT = 0) (msg : String) (stop : Nat → Bool) (fuel : Nat) : ∀ k,
    DIRENT * k ≤ d.size → d.size ≤ k + fuel → ∃ j, d.scan msg stop fuel k = .ok j ∧ DIRENT * j ≤ d.size
      ∧ (∀ i, k ≤ i → i < j → stop i = false) ∧ (DIRENT * j < d.size → stop j = true) := by
  induction fuel with
  | zero => exact fun k hk hfuel => ⟨k, rfl, hk, fun i hi hj => by omega, fun hlt => by simp only [DIRENT] at hlt; omega⟩
  | succ fuel ih =>
    intro k hk hfuel
    rw [scan]
    split
    · exact ⟨k, rfl, hk, fun i hi hj => by omega, fun hlt => by omega⟩
    rename_i hlt
    rw [if_neg (by simp only [DIRENT] at h hlt ⊢; omega)]
    split
    · rename_i hstop
      exact ⟨k, rfl, hk, fun i hi hj => by omega, fun _ => hstop⟩
    rename_i hgo
    obtain ⟨j, hrun, hj, hno, hyes⟩ := ih (k + 1) (by simp only [DIRENT] at h hlt ⊢; omega) (by omega)
    refine ⟨j, hrun, hj, fun i hi hij => ?_, hyes⟩
    by_cases hik : i = k
    · exact hik ▸ Bool.eq_false_iff.mpr hgo
    · exact hno i (by omega) hij

/-- The directory after an entry is written. -/
def put (d : Dir) (k : Nat) (src : List UInt8) : Dir :=
  ⟨max d.size (DIRENT * k + DIRENT), fun a =>
    if DIRENT * k ≤ a ∧ a < DIRENT * k + DIRENT then src.getD (a - DIRENT * k) 0 else d.data a⟩

/-- **`writei` of an entry** is all or nothing: entries do not cross blocks. -/
theorem writei_entry (d : Dir) (room : Bool) {src : List UInt8} (hsrc : src.length = DIRENT) (hk : DIRENT * k ≤ d.size) :
    d.writei room (DIRENT * k) src = (d, -1) ∧ MAXFILE * BSIZE < DIRENT * k + DIRENT
      ∨ d.writei room (DIRENT * k) src = (d, 0) ∧ d.bmap room (DIRENT * k / BSIZE) = false
      ∨ d.writei room (DIRENT * k) src = (d.put k src, (DIRENT : Int)) ∧ DIRENT * k + DIRENT ≤ MAXFILE * BSIZE := by
  unfold writei
  rw [hsrc]
  by_cases hmax : MAXFILE * BSIZE < DIRENT * k + DIRENT
  · exact .inl ⟨if_pos (.inr hmax), hmax⟩
  rw [if_neg (by omega)]
  show _ ∨ (match writeiLoop (d.bmap room) src (15 + 1) d.data (DIRENT * k) 0 with | (data, off, tot) => _) = _ ∧ _
    ∨ (match writeiLoop (d.bmap room) src (15 + 1) d.data (DIRENT * k) 0 with | (data, off, tot) => _) = _ ∧ _
  rw [writeiLoop, hsrc]
  cases hblock : d.bmap room (DIRENT * k / BSIZE) with
  | false =>
    refine .inr (.inl ⟨?_, rfl⟩)
    show ((⟨max d.size (DIRENT * k), d.data⟩ : Dir), (0 : Int)) = (d, 0)
    rw [max_eq_left hk]
  | true =>
    have hm : min (DIRENT - 0) (BSIZE - DIRENT * k % BSIZE) = DIRENT := by
      simp only [DIRENT, BSIZE]
      omega
    rw [if_neg (by simp [DIRENT]), hm, writeiLoop, hsrc, if_pos (.inl (by omega))]
    simp only [Nat.zero_add]
    exact .inr (.inr ⟨rfl, by omega⟩)

/-- No other entry changes. -/
theorem entry_put (src : List UInt8) (hk : DIRENT * k ≤ d.size) :
    (d.put k src).entry = update d.entry k ((d.put k src).entry k) := by
  refine Function.eq_update_iff.mpr ⟨rfl, fun j hj => ?_⟩
  have hbyte : ∀ i < DIRENT, (d.put k src).data (DIRENT * j + i) = d.data (DIRENT * j + i) := by
    intro i hi
    refine if_neg ?_
    simp only [DIRENT] at hi ⊢
    omega
  have hinum : (d.put k src).inum j = d.inum j := by
    rw [inum, inum, hbyte 1 (by decide)]
    exact congrArg (fun b : UInt8 => b.toNat + _) (hbyte 0 (by decide))
  have hsize : DIRENT * j < (d.put k src).size ↔ DIRENT * j < d.size := by
    simp only [put, DIRENT] at hk ⊢
    omega
  have hname : str DIRSIZ ((d.put k src).name j) = str DIRSIZ (d.name j) := by
    refine str_congr fun i hi => ?_
    rw [name, name, Nat.add_assoc, hbyte (2 + i) (by simp only [DIRSIZ, DIRENT] at hi ⊢; omega)]
  unfold entry
  simp only [hinum, hname, hsize]

theorem put_byte (d : Dir) (k : Nat) (src : List UInt8) {i : Nat} (hi : i < DIRENT) :
    (d.put k src).data (DIRENT * k + i) = src.getD i 0 := by
  have hin : DIRENT * k ≤ DIRENT * k + i ∧ DIRENT * k + i < DIRENT * k + DIRENT := by omega
  show (if _ then _ else _) = _
  rw [if_pos hin, Nat.add_sub_cancel_left]

/-- The binding that an entry is written for. -/
theorem entry_put_self (d : Dir) (k : Nat) (nm : Nat → UInt8) {i : Nat} (hpos : 0 < i) (hlt : i < 2 ^ 16) :
    (d.put k (.ofNat i :: .ofNat (i / 256) :: strncpy DIRSIZ nm)).entry k = some (str DIRSIZ nm, i) := by
  have hinum : (d.put k (.ofNat i :: .ofNat (i / 256) :: strncpy DIRSIZ nm)).inum k = i := by
    rw [inum, put_byte d k _ (by decide), ← Nat.add_zero (DIRENT * k), put_byte d k _ (by decide)]
    simp only [List.getD_cons_zero, List.getD_cons_succ, UInt8.toNat_ofNat']
    omega
  have hname : str DIRSIZ ((d.put k (.ofNat i :: .ofNat (i / 256) :: strncpy DIRSIZ nm)).name k) = str DIRSIZ nm := by
    rw [← str_strncpy DIRSIZ nm]
    refine str_congr fun t ht => ?_
    rw [name, Nat.add_assoc, put_byte d k _ (by simp only [DIRSIZ, DIRENT] at ht ⊢; omega), Nat.add_comm 2]
    rfl
  unfold entry
  rw [hinum, hname, if_pos ⟨by simp only [put, DIRENT]; omega, by omega⟩]

theorem entry_put_zero (d : Dir) (k : Nat) : (d.put k (List.replicate DIRENT 0)).entry k = none := by
  refine if_neg fun h => h.2 ?_
  rw [inum, put_byte d k _ (by decide), ← Nat.add_zero (DIRENT * k), put_byte d k _ (by decide)]
  rfl

/-- Writing a whole entry whose name is not in another one. -/
theorem Ok.put (h : d.Ok) {src : List UInt8} (hk : DIRENT * k ≤ d.size) (hmax : DIRENT * k + DIRENT ≤ MAXFILE * BSIZE)
    (hnew : ∀ nm i, (d.put k src).entry k = some (nm, i) → ∀ j i', d.entry j ≠ some (nm, i')) : (d.put k src).Ok := by
  have hwhole := h.whole
  refine ⟨?_, max_le h.small hmax, fun {a b nm i i'} ha hb => ?_⟩
  · simp only [Dir.put, DIRENT] at hwhole hk ⊢
    omega
  rw [entry_put src hk, update_apply] at ha hb
  split at ha <;> split at hb
  · omega
  · exact absurd hb (hnew nm i ha b i')
  · exact absurd ha (hnew nm i' hb a i)
  · exact h.distinct ha hb

/-- **`dirlookup`** finds the entry of the string, with its offset. -/
theorem dirlookup_spec (h : d.Ok) (nm : Nat → UInt8) :
    (d.dirlookup nm = .ok none ∧ ∀ k i, d.entry k ≠ some (str DIRSIZ nm, i))
      ∨ ∃ k i, d.dirlookup nm = .ok (some (i, DIRENT * k)) ∧ d.entry k = some (str DIRSIZ nm, i) := by
  obtain ⟨j, hrun, hj, hno, hyes⟩ := scan_spec h.whole "dirlookup read"
    (fun k => d.inum k ≠ 0 ∧ namecmp nm (d.name k) = 0) (d.size + 1) 0 (Nat.zero_le _) (by omega)
  unfold dirlookup
  rw [Lib.bind_of_ok hrun]
  by_cases hlt : DIRENT * j < d.size
  · have hstop := of_decide_eq_true (hyes hlt)
    have hname := (strncmp_eq_zero _ _ _).mp hstop.2
    refine .inr ⟨j, d.inum j, if_pos hlt, ?_⟩
    rw [entry, if_pos ⟨hlt, hstop.1⟩, hname]
  refine .inl ⟨if_neg hlt, fun k i he => ?_⟩
  unfold entry at he
  split at he
  · rename_i hlive
    obtain ⟨hname, -⟩ := Prod.mk.inj (Option.some.inj he)
    have hkj : k < j := by simp only [DIRENT] at hlt hlive; omega
    exact of_decide_eq_false (hno k (Nat.zero_le k) hkj) ⟨hlive.2, (strncmp_eq_zero _ _ _).mpr hname.symm⟩
  · cases he

/-- **`dirlink`** adds the binding in the first free entry, or changes nothing. -/
theorem dirlink_spec (h : d.Ok) (nm : Nat → UInt8) (room : Bool) {i : Nat} (hpos : 0 < i) (hlt : i < 2 ^ 16) :
    ∃ d' r, d.dirlink nm i room = .ok (d', r) ∧ d'.Ok ∧ (r = -1 ∧ d' = d
      ∨ r = 0 ∧ (∀ k i', d.entry k ≠ some (str DIRSIZ nm, i')) ∧ ∃ k, d.entry k = none ∧ (∀ j < k, d.entry j ≠ none)
        ∧ (DIRENT * k < d.size → d'.size = d.size) ∧ d'.entry = update d.entry k (some (str DIRSIZ nm, i))) := by
  unfold dirlink
  rcases dirlookup_spec h nm with ⟨hlook, habsent⟩ | ⟨k, i', hlook, -⟩
  · rw [Lib.bind_of_ok hlook]
    obtain ⟨k, hrun, hk, hno, hyes⟩ := scan_spec h.whole "dirlink read" (fun k => d.inum k = 0) (d.size + 1) 0
      (Nat.zero_le _) (by omega)
    rw [Lib.bind_of_ok hrun]
    have hlen : (UInt8.ofNat i :: .ofNat (i / 256) :: strncpy DIRSIZ nm).length = DIRENT := by
      rw [List.length_cons, List.length_cons, length_strncpy]
      rfl
    rcases writei_entry d room hlen hk with ⟨hw, -⟩ | ⟨hw, -⟩ | ⟨hw, hmax⟩
    · rw [hw]
      exact ⟨d, -1, rfl, h, .inl ⟨rfl, rfl⟩⟩
    · rw [hw]
      exact ⟨d, -1, rfl, h, .inl ⟨rfl, rfl⟩⟩
    rw [hw]
    have hself := entry_put_self d k nm hpos hlt
    refine ⟨_, 0, rfl, h.put hk hmax fun nm' i' he => ?_, .inr ⟨rfl, habsent, k, ?_, fun j hj => ?_, fun hin => ?_, ?_⟩⟩
    · cases hself.symm.trans he
      exact habsent
    · exact if_neg fun hlive => hlive.2 (of_decide_eq_true (hyes hlive.1))
    · have hlive := of_decide_eq_false (hno j (Nat.zero_le j) hj)
      rw [entry, if_pos ⟨by simp only [DIRENT] at hk ⊢; omega, hlive⟩]
      nofun
    · have hwhole := h.whole
      simp only [Dir.put, DIRENT] at hwhole hin ⊢
      omega
    · rw [entry_put _ hk, hself]
  · rw [Lib.bind_of_ok hlook]
    exact ⟨d, -1, rfl, h, .inl ⟨rfl, rfl⟩⟩

/-- **`unlink`** removes the binding of the name, or changes nothing. -/
theorem unlink_spec (h : d.Ok) (nm : Nat → UInt8) (busy : Bool) :
    ∃ d' r, d.unlink nm busy = .ok (d', r) ∧ d'.Ok ∧ (r = -1 ∧ d' = d
      ∨ r = 0 ∧ ∃ k i, d.entry k = some (str DIRSIZ nm, i) ∧ d'.entry = update d.entry k none) := by
  unfold unlink
  split
  · exact ⟨d, -1, rfl, h, .inl ⟨rfl, rfl⟩⟩
  rcases dirlookup_spec h nm with ⟨hlook, -⟩ | ⟨k, i, hlook, hentry⟩
  · rw [Lib.bind_of_ok hlook]
    exact ⟨d, -1, rfl, h, .inl ⟨rfl, rfl⟩⟩
  rw [Lib.bind_of_ok hlook]
  cases busy with
  | true => exact ⟨d, -1, rfl, h, .inl ⟨rfl, rfl⟩⟩
  | false =>
    have hk : DIRENT * k < d.size := by
      unfold entry at hentry
      split at hentry
      · exact (‹_ ∧ _›).1
      · cases hentry
    have hwhole := h.whole
    have hsmall := h.small
    have hfits : DIRENT * k + DIRENT ≤ d.size := by simp only [DIRENT] at hk hwhole ⊢; omega
    have hlen : (List.replicate DIRENT (0 : UInt8)).length = DIRENT := List.length_replicate
    rcases writei_entry d false hlen hk.le with ⟨-, hbig⟩ | ⟨-, hmap⟩ | ⟨hw, hmax⟩
    · omega
    · have hin : DIRENT * k / BSIZE * BSIZE < d.size := (Nat.div_mul_le_self _ _).trans_lt hk
      rw [bmap, decide_eq_true hin] at hmap
      cases hmap
    · have hnone := entry_put_zero d k
      refine ⟨_, 0, by dsimp only; rw [hw]; rfl, h.put hk.le hmax fun nm' i' he => ?_, .inr ⟨rfl, k, i, hentry, ?_⟩⟩
      · cases hnone.symm.trans he
      · rw [entry_put _ hk.le, hnone]

end Dir

/-! ## §4. Runs. -/

/-- The operations on a directory. -/
inductive Op where
  | link (name : Nat → UInt8) (inum : Nat) (room : Bool)
  | unlink (name : Nat → UInt8) (busy : Bool)

/-- Inode numbers fit into an entry. -/
def Op.Valid : Op → Prop
  | .link _ inum _ => 0 < inum ∧ inum < 2 ^ 16
  | .unlink .. => True

instance (op : Op) : Decidable op.Valid := by
  cases op <;> unfold Op.Valid <;> infer_instance

/-- One operation. -/
def Dir.step (d : Dir) : Op → Except String Dir
  | .link name inum room => Prod.fst <$> d.dirlink name inum room
  | .unlink name busy => Prod.fst <$> d.unlink name busy

theorem Dir.Ok.step {d d' : Dir} {op : Op} (h : d.Ok) (hop : op.Valid) (hst : d.step op = .ok d') : d'.Ok := by
  cases op with
  | link name inum room =>
    obtain ⟨d₁, r, hrun, hok, -⟩ := dirlink_spec h name room hop.1 hop.2
    rw [Dir.step, hrun] at hst
    cases hst
    exact hok
  | unlink name busy =>
    obtain ⟨d₁, r, hrun, hok, -⟩ := unlink_spec h name busy
    rw [Dir.step, hrun] at hst
    cases hst
    exact hok

/-- **A directory is a finite map**, after any links and unlinks: the names are distinct and the entries whole; a lookup
gives the binding of the string and its offset; a link adds the binding of a new name in the first free entry, or changes
nothing; an unlink removes the binding of the name, or changes nothing. -/
theorem directory_is_map {d₀ d : Dir} (h₀ : d₀.Ok) (hd : Lib.Reach (· = d₀) (fun _ (op : Op) => op.Valid) Dir.step d) :
    d.Ok ∧ (∀ nm : Nat → UInt8, ∃ res, d.dirlookup nm = .ok res
        ∧ ∀ i off, res = some (i, off) ↔ ∃ k, off = DIRENT * k ∧ d.entry k = some (str DIRSIZ nm, i))
      ∧ (∀ nm room i, 0 < i → i < 2 ^ 16 → ∃ d' r, d.dirlink nm i room = .ok (d', r) ∧ (r = -1 ∧ d' = d
        ∨ r = 0 ∧ (∀ k i', d.entry k ≠ some (str DIRSIZ nm, i')) ∧ ∃ k, d.entry k = none ∧ (∀ j < k, d.entry j ≠ none)
          ∧ (DIRENT * k < d.size → d'.size = d.size) ∧ d'.entry = update d.entry k (some (str DIRSIZ nm, i))))
      ∧ ∀ nm busy, ∃ d' r, d.unlink nm busy = .ok (d', r) ∧ (r = -1 ∧ d' = d
        ∨ r = 0 ∧ ∃ k i, d.entry k = some (str DIRSIZ nm, i) ∧ d'.entry = update d.entry k none) := by
  have h : d.Ok := by
    refine Lib.Reach.invariant ?_ (fun s op s' hs hop hst => hs.step hop hst) hd
    rintro _ rfl
    exact h₀
  refine ⟨h, fun nm => ?_, fun nm room i hpos hlt => ?_, fun nm busy => ?_⟩
  · rcases Dir.dirlookup_spec h nm with ⟨hlook, habsent⟩ | ⟨k, i, hlook, hentry⟩
    · exact ⟨none, hlook, fun i off => ⟨nofun, fun ⟨k, _, hk⟩ => absurd hk (habsent k i)⟩⟩
    refine ⟨_, hlook, fun i' off => ⟨fun heq => ?_, fun ⟨k', hoff, hk'⟩ => ?_⟩⟩
    · cases heq
      exact ⟨k, rfl, hentry⟩
    · obtain rfl := h.distinct hentry hk'
      cases hentry.symm.trans hk'
      rw [hoff]
  · obtain ⟨d', r, hrun, -, hcase⟩ := Dir.dirlink_spec h nm room hpos hlt
    exact ⟨d', r, hrun, hcase⟩
  · obtain ⟨d', r, hrun, -, hcase⟩ := Dir.unlink_spec h nm busy
    exact ⟨d', r, hrun, hcase⟩

/-- A name of `n` times the byte `c`. -/
def name (c : UInt8) (n : Nat) : Nat → UInt8 := fun i => if i < n then c else 0

/-- A name of 14 bytes, one of 20, and one whose entry is free again. -/
def threeLinks : List Op :=
  [.link (name 97 14) 5 true, .link (name 99 1) 7 true, .link (name 98 20) 6 true, .unlink (name 99 1) false]

theorem directory_is_map_threeLinks : ∃ d, (⟨0, fun _ => 0⟩ : Dir).Ok
    ∧ Lib.Reach (· = ⟨0, fun _ => 0⟩) (fun _ (op : Op) => op.Valid) Dir.step d
    ∧ d.entry 0 = some (List.replicate 14 97, 5) ∧ d.entry 1 = none ∧ d.entry 2 = some (List.replicate 14 98, 6)
    ∧ d.dirlookup (name 98 20) = .ok (some (6, 32))
    ∧ ∃ d' r, d.unlink (name 97 14) false = .ok (d', r) ∧ (r = -1 ∧ d' = d
      ∨ r = 0 ∧ ∃ k i, d.entry k = some (List.replicate 14 97, i) ∧ d'.entry = update d.entry k none) := by
  have h : (⟨0, fun _ => 0⟩ : Dir).Ok := ⟨rfl, Nat.zero_le _, fun h => by cases h⟩
  have hrun : Lib.reaches (fun _ (op : Op) => op.Valid) Dir.step ⟨0, fun _ => 0⟩ threeLinks (fun d => decide
      (d.entry 0 = some (List.replicate 14 97, 5) ∧ d.entry 1 = none ∧ d.entry 2 = some (List.replicate 14 98, 6))) = true := by
    decide +kernel
  obtain ⟨d, hd, hend⟩ := @Lib.Reach.of_reaches _ _ _ (· = ⟨0, fun _ => 0⟩) _ _ _ _ _ _ rfl hrun
  obtain ⟨h0, h1, h2⟩ := of_decide_eq_true hend
  obtain ⟨-, hlook, -, hunlink⟩ := directory_is_map h hd
  obtain ⟨res, hres, hiff⟩ := hlook (name 98 20)
  rw [(hiff 6 32).mpr ⟨2, rfl, h2⟩] at hres
  exact ⟨d, h, hd, h0, h1, h2, hres, hunlink (name 97 14) false⟩

end Xv6.Directory
