/-
  Xv6.Fs.Contents — files as arrays of bytes (`writei`, `readi` of
  `kernel/fs.c`, `filewrite` of `kernel/file.c`) over the blocks of
  `Xv6.Fs.Blocks`.

  `writei` copies its bytes with `either_copyin`, block by block.  A `Source`
  is the memory it copies from: a copy stores the bytes up to the first that
  cannot be read, and the loop then stops with these bytes in the buffer.

  Main results: `short_write`, `byte_array`.
-/
import Xv6.Fs.Bio
import Xv6.Fs.Holes
import Xv6.Proc.Copyin

namespace Xv6

namespace BlkSys

open Function (update update_of_ne update_self)

variable {k : Nat} {sb : Super} {s s' : BlkSys k} {i : Inum k} {ip ip' : Dino} {b : Nat}

/-! ## §1. The bytes of a file. -/

/-- **A block after a store**, byte by byte. -/
theorem byteAt_storeBytes (x : Fin NINDIRECT → Nat) (o : Nat) (bs : List UInt8) {t : Nat} (ht : t < BSIZE) :
    byteAt (storeBytes x o bs) t = if o ≤ t ∧ t < o + bs.length then bs.getD (t - o) 0 else byteAt x t := by
  have hword : 4 * (t / 4 % NINDIRECT) + t % 4 = t := by
    simp only [BSIZE, NINDIRECT] at *
    omega
  show Lib.leByte (Lib.leNat _ (4 * (t / 4 % NINDIRECT)) 4) (t % 4) = _
  rw [Lib.leByte_leNat _ _ _ (Nat.mod_lt _ (by decide)), hword]

/-- Byte `a` of file `i`. -/
def byte (s : BlkSys k) (i : Inum k) (a : Nat) : UInt8 :=
  ((cellOf (a / BSIZE)).map fun c => byteAt (s.data (i, c)) (a % BSIZE)).getD 0

/-- What a `readi` finds at `a`: nothing beyond the size. -/
def seen (s : BlkSys k) (i : Inum k) (a : Nat) : Option UInt8 := if a < (s.dino i).size then some (s.byte i a) else none

/-- The bytes from `off` to `off'` are replaced. -/
def splice (src : Nat → UInt8) (off off' : Nat) (f : Nat → UInt8) : Nat → UInt8 := fun a =>
  if off ≤ a ∧ a < off' then src a else f a

theorem byte_of_cell {a : Nat} {c : Cell} (h : cellOf (a / BSIZE) = some c) (s : BlkSys k) (i : Inum k) :
    s.byte i a = byteAt (s.data (i, c)) (a % BSIZE) := by
  unfold byte
  rw [h]
  rfl

/-- The bytes of a file are those of its blocks. -/
theorem byte_congr (h : ∀ c, c ≠ .inl INDIRECT → s'.data (i, c) = s.data (i, c)) : s'.byte i = s.byte i := by
  funext a
  cases hc : cellOf (a / BSIZE) with
  | none =>
    unfold byte
    rw [hc]
    rfl
  | some c => rw [byte_of_cell hc, byte_of_cell hc, h c (cellOf_ne hc)]

theorem SameData.byte (h : SameData s s') (i : Inum k) : s'.byte i = s.byte i := byte_congr fun c hc => h (i, c) hc

theorem cellOf_isSome {bn : Nat} (h : bn < MAXFILE) : ∃ c, cellOf bn = some c := by
  unfold cellOf
  split
  · exact ⟨_, rfl⟩
  · rw [dif_pos (by simp only [MAXFILE, NDIRECT, NINDIRECT] at *; omega)]
    exact ⟨_, rfl⟩

theorem data_setBlk (h : Inv sb s) {c : Cell} (hc : s.held (i, c) = some b) (hcell : c ≠ .inl INDIRECT)
    (x : Fin NINDIRECT → Nat) : (s.setBlk b x).data = update s.data (i, c) x := by
  funext c'
  unfold data
  rw [(h.setBlk hc hcell x).2]
  show ((s.held c').map (update s.blk b x)).getD _ = _
  by_cases hcc : c' = (i, c)
  · rw [hcc, hc, update_self, Option.map_some, update_self]
    rfl
  rw [update_of_ne hcc]
  cases hx : s.held c' with
  | none => rfl
  | some y =>
    have hy : y ≠ b := fun hy => hcc (h.owned.unique (hy ▸ hx) hc)
    rw [Option.map_some, Option.map_some, update_of_ne hy]

/-- **Bytes are stored in a block of a file**: they replace those at `off`, and the other files stay. -/
theorem Inv.storeBytes (h : Inv sb s) {c : Cell} {off : Nat} (hcell : cellOf (off / BSIZE) = some c)
    (hc : s.held (i, c) = some b) (bs : List UInt8) (hlen : off % BSIZE + bs.length ≤ BSIZE) :
    (s.setBlk b (storeBytes (s.blk b) (off % BSIZE) bs)).byte i
        = splice (fun a => bs.getD (a - off) 0) off (off + bs.length) (s.byte i)
      ∧ ∀ j, j ≠ i → (s.setBlk b (BlkSys.storeBytes (s.blk b) (off % BSIZE) bs)).byte j = s.byte j := by
  have hdata := data_setBlk h hc (cellOf_ne hcell) (BlkSys.storeBytes (s.blk b) (off % BSIZE) bs)
  have hold : s.data (i, c) = s.blk b := by
    unfold data
    rw [hc]
    rfl
  refine ⟨funext fun a => ?_, fun j hj => byte_congr fun c' _ => ?_⟩
  · unfold splice
    by_cases hblock : a / BSIZE = off / BSIZE
    · have ha : cellOf (a / BSIZE) = some c := hblock ▸ hcell
      rw [byte_of_cell ha, byte_of_cell ha, hdata, update_self, byteAt_storeBytes _ _ _ (Nat.mod_lt _ (by decide)), hold]
      have hmod : a % BSIZE - off % BSIZE = a - off := by simp only [BSIZE] at *; omega
      rw [hmod]
      refine if_congr ?_ rfl rfl
      simp only [BSIZE] at *
      omega
    · rw [if_neg (by simp only [BSIZE] at *; omega)]
      unfold byte
      cases ha : cellOf (a / BSIZE) with
      | none => rfl
      | some c' =>
        have hne : (i, c') ≠ (i, c) := fun he => hblock (cellOf_inj ha ((Prod.mk.inj he).2 ▸ hcell))
        rw [hdata, Option.map_some, Option.map_some, update_of_ne hne]
  · rw [hdata, update_of_ne fun he => hj (Prod.mk.inj he).1]

/-! ## §2. The loop of `writei`. -/

/-- `either_copyin` from a memory: a copy stores the bytes that can be read, up to `len` of them or up to the first that
cannot. -/
structure Copies (view : Nat → Option UInt8) (copyin : Copyin) : Prop where
  le : ∀ src len, (copyin src len).1.length ≤ len
  bytes : ∀ src len t, t < (copyin src len).1.length → view (src + t) = (copyin src len).1[t]?
  full : ∀ src len, (copyin src len).2 = true → (copyin src len).1.length = len
  stop : ∀ src len, (copyin src len).2 = false →
    (copyin src len).1.length < len ∧ view (src + (copyin src len).1.length) = none
  /-- the last byte of the address space cannot be read -/
  bound : ∀ a, view a ≠ none → a + 1 < 2 ^ 64

/-- The memory that `writei` copies from. -/
structure Source where
  view : Nat → Option UInt8
  copyin : Copyin
  copies : Copies view copyin

/-- **`copyin` copies from the memory of the process.** -/
theorem copyinTo_copies (km : Kmem) (pt : Pagetable) : Copies (pt.view km) (Exec.copyinTo km pt) where
  le src len := (Exec.copyinTo_reads km pt src len).le
  bytes src len := (Exec.copyinTo_reads km pt src len).bytes
  full src len := (Exec.copyinTo_reads km pt src len).full
  stop src len := (Exec.copyinTo_reads km pt src len).stop
  bound a ha := by
    have huser : pt.user (a / PGSIZE) = true := by
      by_contra hno
      exact ha (if_neg hno)
    have hpage := (user_iff.mp huser).1
    simp only [MAXVPN, PGSIZE] at hpage
    omega

/-- `either_copyin` with `user_src`. -/
def Source.user (km : Kmem) (pt : Pagetable) : Source := ⟨pt.view km, Exec.copyinTo km pt, copyinTo_copies km pt⟩

/-- How many of the `n` bytes at `src` can be read before the first that cannot. -/
def Source.readable (S : Source) : Nat → Nat → Nat
  | _, 0 => 0
  | src, n + 1 => if (S.view src).isSome then S.readable (src + 1) n + 1 else 0

/-- The byte at `src`. -/
def Source.at (S : Source) (src : Nat) : UInt8 := (S.view src).getD 0

variable {S : Source} {src off n off' l : Nat}

theorem Source.readable_spec (S : Source) (n : Nat) : ∀ src, S.readable src n ≤ n
    ∧ (∀ t < S.readable src n, S.view (src + t) ≠ none)
    ∧ (S.readable src n < n → S.view (src + S.readable src n) = none) := by
  induction n with
  | zero => exact fun _ => ⟨le_rfl, nofun, nofun⟩
  | succ n ih =>
    intro src
    obtain ⟨hle, hbytes, hstop⟩ := ih (src + 1)
    rw [readable]
    split
    · rename_i hsome
      refine ⟨Nat.succ_le_succ hle, fun t ht => ?_, fun hlt => ?_⟩
      · cases t with
        | zero => exact Option.isSome_iff_ne_none.mp hsome
        | succ t =>
          rw [show src + (t + 1) = src + 1 + t by omega]
          exact hbytes t (by omega)
      · rw [show src + (S.readable (src + 1) n + 1) = src + 1 + S.readable (src + 1) n by omega]
        exact hstop (by omega)
    · rename_i hnone
      exact ⟨Nat.zero_le _, nofun, fun _ => Option.not_isSome_iff_eq_none.mp hnone⟩

/-- The readable bytes end at the first that cannot be read. -/
theorem Source.readable_eq {r : Nat} (hr : r < n) (hbytes : ∀ t < r, S.view (src + t) ≠ none)
    (hstop : S.view (src + r) = none) : S.readable src n = r := by
  obtain ⟨hle, hbytes', hstop'⟩ := S.readable_spec n src
  rcases Nat.lt_trichotomy (S.readable src n) r with hlt | heq | hgt
  · exact absurd (hstop' (by omega)) (hbytes _ hlt)
  · exact heq
  · exact absurd hstop (hbytes' r hgt)

/-- The bytes of a copy. -/
theorem Source.copied (S : Source) (src len t : Nat) (ht : t < (S.copyin src len).1.length) :
    S.view (src + t) ≠ none ∧ (S.copyin src len).1.getD t 0 = S.at (src + t) := by
  have hview := S.copies.bytes src len t ht
  refine ⟨fun hnone => ?_, ?_⟩
  · rw [hnone, List.getElem?_eq_getElem ht] at hview
    cases hview
  · rw [List.getD_eq_getElem?_getD, ← hview]
    rfl

/-- What stopped the loop at `off'`, with `l` more bytes in the buffer: the end of the copy, an empty cell that could not be
filled, or a byte that cannot be read. -/
inductive Stopped (S : Source) (i : Inum k) (s : BlkSys k) (src off n off' l : Nat) : Prop where
  | done : off' = off + n → l = 0 → Stopped S i s src off n off' l
  | full (c : Cell) : l = 0 → cellOf (off' / BSIZE) = some c → s.held (i, c) = none → Stopped S i s src off n off' l
  | fault : off' = off ∨ off' % BSIZE = 0 → off' % BSIZE + l < BSIZE → off' + l < off + n →
      S.view (src + (off' - off + l)) = none → Stopped S i s src off n off' l

/-- What the loop of `writei` does to the files, for `n` bytes at `src`. -/
structure Wrote (S : Source) (i : Inum k) (s s' : BlkSys k) (src off n off' l : Nat) : Prop where
  le : off ≤ off'
  ge : off' + l ≤ off + n
  read : ∀ t < off' - off + l, S.view (src + t) ≠ none
  bytes : s'.byte i = splice (fun a => S.at (src + (a - off))) off (off' + l) (s.byte i)
  other : ∀ j, j ≠ i → s'.byte j = s.byte j
  stopped : Stopped S i s src off n off' l

theorem splice_empty (f g : Nat → UInt8) (off : Nat) : splice f off off g = g := funext fun _ => if_neg (by omega)

/-- Two stores, one after the other. -/
theorem splice_splice {f f' g : Nat → UInt8} {m e : Nat} (hf : ∀ a, m ≤ a → f' a = f a) (hm : off ≤ m) (he : m ≤ e) :
    splice f' m e (splice f off m g) = splice f off e g := by
  funext a
  unfold splice
  by_cases ha : m ≤ a
  · rw [hf a ha]
    grind
  · grind

/-- The loop stops before its first copy. -/
theorem Wrote.refl (h : SameData s s') (hstop : Stopped S i s src off n off 0) : Wrote S i s s' src off n off 0 :=
  ⟨le_rfl, Nat.le_add_right .., fun _ ht => absurd ht (by omega), by rw [h.byte, Nat.add_zero, splice_empty], fun j _ => h.byte j, hstop⟩

/-- **`bmap` returns** for a block of a file, and it returns 0 only for an empty cell. -/
theorem bmap_total (h : Inv sb (s.setDino i ip)) (hip : ip.type ≠ none) (bn : Nat) (hbn : bn < MAXFILE) :
    ∃ s₁ ip₁ addr c, s.bmap (ballocIn sb) ip bn = .ok (s₁, ip₁, addr) ∧ cellOf bn = some c ∧ Grew sb i s ip s₁ ip₁
      ∧ SameData (s.setDino i ip) (s₁.setDino i ip₁) ∧ (addr = 0 → (s.setDino i ip).held (i, c) = none)
      ∧ (addr ≠ 0 → (s₁.setDino i ip₁).held (i, c) = some addr) := by
  obtain ⟨c, hc⟩ := cellOf_isSome hbn
  obtain ⟨⟨s₁, ip₁, addr⟩, hrun⟩ : ∃ x, s.bmap (ballocIn sb) ip bn = .ok x := by
    cases hrun : s.bmap (ballocIn sb) ip bn with
    | ok x => exact ⟨x, rfl⟩
    | error err => exact absurd (bmap_error hrun).2 (by omega)
  obtain ⟨hgrew, hcell, hsame⟩ := h.bmap hip hrun
  refine ⟨s₁, ip₁, addr, c, hrun, hc, hgrew, hsame, fun h0 => ?_, fun hne => ?_⟩
  · by_contra hheld
    obtain ⟨addr', hne, hmapped⟩ := bmap_mapped hip hc hheld
    cases (hmapped (ballocIn sb)).symm.trans hrun
    exact hne h0
  · obtain ⟨c', hc', -, hheld⟩ := hcell hne
    cases hc.symm.trans hc'
    exact hheld

/-- **The loop of `writei`**, by induction on the turns left. -/
theorem writeLoop_wrote (S : Source) (src n fuel : Nat) : ∀ (s : BlkSys k) (ip : Dino) (off tot : Nat),
    Inv sb (s.setDino i ip) → ip.type ≠ none → off + (n - tot) ≤ MAXFILE * BSIZE → n - tot ≤ fuel → src + tot < 2 ^ 64 →
      ∃ s' ip' off' l, writeLoop sb S.copyin src n fuel s ip off tot = .ok (s', ip', off')
        ∧ Wrote S i (s.setDino i ip) (s'.setDino i ip') (src + tot) off (n - tot) off' l := by
  induction fuel with
  | zero =>
    intro s ip off tot h hip hmax hfuel hsrc
    exact ⟨s, ip, off, 0, rfl, .refl (fun _ _ => rfl) (.done (by omega) rfl)⟩
  | succ fuel ih =>
    intro s ip off tot h hip hmax hfuel hsrc
    by_cases hdone : n ≤ tot
    · refine ⟨s, ip, off, 0, ?_, .refl (fun _ _ => rfl) (.done (by omega) rfl)⟩
      rw [writeLoop, if_pos hdone]
    obtain ⟨s₁, ip₁, addr, c, hbmap, hc, hgrew, hsame, hempty, hheld⟩ := bmap_total h hip (off / BSIZE) (by
      simp only [MAXFILE, NDIRECT, NINDIRECT, BSIZE] at hmax ⊢
      omega)
    rw [writeLoop, if_neg hdone, hbmap]
    change ∃ s' ip' off' l, (if addr = 0 then _ else _) = _ ∧ _
    by_cases haddr : addr = 0
    · exact ⟨s₁, ip₁, off, 0, if_pos haddr, .refl hsame (.full c rfl hc (hempty haddr))⟩
    rw [if_neg haddr, show u64 (src + tot) = src + tot from Nat.mod_eq_of_lt hsrc]
    generalize hm : min (n - tot) (BSIZE - off % BSIZE) = m
    have hmpos : 0 < m ∧ off % BSIZE + m ≤ BSIZE ∧ m ≤ n - tot := by
      simp only [BSIZE] at hm ⊢
      omega
    have hle := S.copies.le (src + tot) m
    have hcopied := S.copied (src + tot) m
    have hfull := S.copies.full (src + tot) m
    have hstop := S.copies.stop (src + tot) m
    generalize hbs : (S.copyin (src + tot) m).1 = bs at hle hcopied hfull hstop ⊢
    -- the turn stores what was copied
    have hinv₂ : Inv sb ((s₁.setBlk addr (storeBytes (s₁.blk addr) (off % BSIZE) bs)).setDino i ip₁) :=
      (hgrew.inv.setBlk (hheld haddr) (cellOf_ne hc) _).1
    have hheld₂ : ((s₁.setBlk addr (storeBytes (s₁.blk addr) (off % BSIZE) bs)).setDino i ip₁).held = (s₁.setDino i ip₁).held :=
      (hgrew.inv.setBlk (hheld haddr) (cellOf_ne hc) _).2
    obtain ⟨hbytes, hother⟩ := hgrew.inv.storeBytes hc (hheld haddr) bs (by omega)
    have hbytes₂ : ((s₁.setBlk addr (storeBytes (s₁.blk addr) (off % BSIZE) bs)).setDino i ip₁).byte i
        = splice (fun a => S.at (src + tot + (a - off))) off (off + bs.length) ((s.setDino i ip).byte i) := by
      refine hbytes.trans ?_
      rw [hsame.byte]
      funext a
      unfold splice
      split
      · exact (hcopied (a - off) (by omega)).2
      · rfl
    have hother₂ : ∀ j, j ≠ i → ((s₁.setBlk addr (storeBytes (s₁.blk addr) (off % BSIZE) bs)).setDino i ip₁).byte j
        = (s.setDino i ip).byte j := fun j hj => (hother j hj).trans (hsame.byte j)
    cases hok : (S.copyin (src + tot) m).2 with
    | true =>
      have hlen := hfull hok
      have hlast := S.copies.bound _ (hcopied (m - 1) (by omega)).1
      obtain ⟨s', ip', off', l, hrun, hw⟩ := ih (s₁.setBlk addr (storeBytes (s₁.blk addr) (off % BSIZE) bs)) ip₁ (off + m) (tot + m)
        hinv₂ (by rw [hgrew.type_eq]; exact hip) (by omega) (by omega) (by omega)
      have hle' := hw.le
      have hge' := hw.ge
      -- the bytes of this turn, and those of the turns after it
      refine ⟨s', ip', off', l, hrun, by omega, by omega, fun t ht => ?_, ?_, fun j hj => (hw.other j hj).trans (hother₂ j hj), ?_⟩
      · by_cases htm : t < m
        · exact (hcopied t (by omega)).1
        · have hread := hw.read (t - m) (by omega)
          rwa [show src + (tot + m) + (t - m) = src + tot + t by omega] at hread
      · rw [hw.bytes, hbytes₂, hlen]
        refine splice_splice (fun a ha => ?_) (by omega) (by omega)
        exact congrArg S.at (by omega)
      · cases hw.stopped with
        | done hoff hl => exact .done (by omega) hl
        | full c' hl hc' hnone =>
          refine .full c' hl hc' ?_
          by_contra hsome
          obtain ⟨x, hx⟩ := Option.ne_none_iff_exists'.mp hsome
          rw [hheld₂, hgrew.grows _ x hx] at hnone
          cases hnone
        | fault hstart hblock hlt hnone =>
          refine .fault ?_ hblock (by omega) ?_
          · simp only [BSIZE] at *
            omega
          · rwa [show src + (tot + m) + (off' - (off + m) + l) = src + tot + (off' - off + l) by omega] at hnone
    | false =>
      -- the loop stops, with the bytes before the fault in the block
      obtain ⟨hlt, hnone⟩ := hstop hok
      refine ⟨s₁.setBlk addr (storeBytes (s₁.blk addr) (off % BSIZE) bs), ip₁, off, bs.length, rfl, le_rfl, by omega, fun t ht => ?_,
        hbytes₂, hother₂, .fault (.inl rfl) (by omega) (by omega) ?_⟩
      · exact (hcopied t (by omega)).1
      · rwa [Nat.sub_self, Nat.zero_add]

/-- A call of `writei` for inode `i` that was not refused and stopped at `off'`. -/
structure Writes (S : Source) (i : Inum k) (s s' : BlkSys k) (src off n off' l : Nat) (ip' : Dino) : Prop where
  wrote : Wrote S i s s' src off n off' l
  start : off ≤ (s.dino i).size
  bound : off + n ≤ MAXFILE * BSIZE
  size : ip'.size = max (s.dino i).size off'
  dino : s'.dino = update s.dino i ip'
  core : s'.core = update s.core i (some ip')

/-- **`writei`** returns; it refuses the call, or it has run its loop and written the inode back. -/
theorem Good.writei_spec (h : Good sb s) (htype : (s.dino i).type ≠ none) (S : Source) (hsrc : src < 2 ^ 64) (hoff : off < 2 ^ 32)
    (hn : n < 2 ^ 32) : ∃ s' ip' r, s.writei sb S.copyin i (s.dino i) src off n = .ok (s', ip', r) ∧ Good sb s'
      ∧ ((r = -1 ∧ s' = s ∧ ¬ (off ≤ (s.dino i).size ∧ off + n ≤ MAXFILE * BSIZE))
        ∨ ∃ off' l, r = (off' - off : Nat) ∧ Writes S i s s' src off n off' l ip') := by
  have hwrap : MAXFILE * BSIZE < 2 ^ 32 := by decide
  by_cases hlow : (s.dino i).size < off ∨ (off + n) % 2 ^ 32 < off
  · exact ⟨s, s.dino i, -1, if_pos hlow, h, .inl ⟨rfl, rfl, by omega⟩⟩
  by_cases hhigh : MAXFILE * BSIZE < (off + n) % 2 ^ 32
  · refine ⟨s, s.dino i, -1, ?_, h, .inl ⟨rfl, rfl, by omega⟩⟩
    rw [BlkSys.writei, if_neg hlow, if_pos hhigh]
  have hself := setDino_eq_self (s := s) (i := i) rfl
  have hinv : Inv sb (s.setDino i (s.dino i)) := by rw [hself]; exact h.inv
  obtain ⟨s₁, ip₁, off', l, hloop, hw⟩ := writeLoop_wrote S src n n s (s.dino i) off 0 hinv htype (by omega) (by omega) hsrc
  -- blocks before the end of the file are there, so the write leaves no hole
  have hmap : (s.setDino i (s.dino i)).Mapped i off := by
    rw [hself]
    exact fun bn hbn => h.inv.whole i htype bn (by omega)
  obtain ⟨hgrew, -⟩ := Inv.writeLoop S.copyin src n n s _ off 0 hinv htype hmap hloop
  have hip : (if ip₁.size < off' then { ip₁ with size := off' } else ip₁) = { ip₁ with size := max ip₁.size off' } := by
    split
    · rw [max_eq_right (by omega)]
    · rw [max_eq_left (by omega)]
  have hrun : s.writei sb S.copyin i (s.dino i) src off n
      = .ok (s₁.iupdate i { ip₁ with size := max ip₁.size off' }, { ip₁ with size := max ip₁.size off' }, ((off' - off : Nat) : Int)) := by
    rw [BlkSys.writei, if_neg hlow, if_neg hhigh, hloop, ← hip]
    rfl
  have hbyte : ∀ j, (s₁.iupdate i { ip₁ with size := max ip₁.size off' }).byte j = (s₁.setDino i ip₁).byte j := by
    refine fun j => byte_congr fun c _ => ?_
    show (((s₁.setDino i _).held (j, c)).map s₁.blk).getD _ = _
    rw [held_setSize]
    rfl
  rw [hself] at hw
  refine ⟨_, _, _, hrun, h.writei rfl htype hrun, .inr ⟨off', l, rfl, ⟨hw.le, hw.ge, hw.read, ?_, fun j hj => ?_, hw.stopped⟩,
    by omega, by omega, by rw [← hgrew.size_eq], ?_, ?_⟩⟩
  · rw [hbyte]
    exact hw.bytes
  · rw [hbyte]
    exact hw.other j hj
  · show update s₁.dino i _ = _
    rw [hgrew.dino_eq]
  · show update s₁.core i _ = _
    rw [hgrew.core_eq]

/-! ## §3. Short writes. -/

/-- The bytes of the block in which the buffer ends that `writei` has copied before it finds out: where the file has bytes
there, they are the same. -/
def Harmless (S : Source) (s : BlkSys k) (i : Inum k) (src off n : Nat) : Prop :=
  off ≤ (s.dino i).size → off + n ≤ MAXFILE * BSIZE → S.readable src n < n → ∀ a, off ≤ a →
    (off + S.readable src n) / BSIZE * BSIZE ≤ a → a < off + S.readable src n → a < (s.dino i).size → S.at (src + (a - off)) = s.byte i a

/-- The file stays as it is outside of the `r` bytes at `off` that are reported, and everywhere if the call fails. -/
structure Reported (i : Inum k) (s s' : BlkSys k) (off : Nat) (r : Int) : Prop where
  fails : r = -1 → s' = s
  keeps : 0 ≤ r → ∀ a, ¬ (off ≤ a ∧ a < off + r.toNat) → s'.seen i a = s.seen i a

/-- The bytes in the buffer of the last block are those that `Harmless` speaks of. -/
theorem Writes.reported_iff (h : Writes S i s s' src off n off' l ip') (hwhole : s.Mapped i (s.dino i).size) :
    Reported i s s' off (off' - off : Nat) ↔ Harmless S s i src off n := by
  have hw := h.wrote
  have hle := hw.le
  have hge := hw.ge
  have hstart := h.start
  have hsize : (s'.dino i).size = max (s.dino i).size off' := by rw [h.dino, update_self, h.size]
  obtain ⟨hrle, hrbytes, hrstop⟩ := S.readable_spec n src
  have hbyte : ∀ a, s'.byte i a = if off ≤ a ∧ a < off' + l then S.at (src + (a - off)) else s.byte i a :=
    fun a => congrFun hw.bytes a
  constructor
  · intro hrep _ _ hshort a hoff hblock hlast ha
    -- the blocks before `a` are there, so the loop came to the byte that cannot be read
    have hend : off' + l = off + S.readable src n ∧ off' ≤ a := by
      cases hw.stopped with
      | done hoff' hl => exact absurd (hrstop hshort) (hw.read _ (by omega))
      | full c hl hc hnone =>
        have hreach : off' - off ≤ S.readable src n := by
          by_contra hgt
          exact hw.read _ (by omega) (hrstop hshort)
        obtain ⟨c', hc', hheld⟩ := hwhole (off' / BSIZE) (by simp only [BSIZE] at *; omega)
        cases hc.symm.trans hc'
        exact absurd hnone hheld
      | fault hbegin hin hlt hnone =>
        have hr := S.readable_eq (n := n) (by omega) hw.read hnone
        rw [hr] at hblock ⊢
        simp only [BSIZE] at *
        omega
    have hkept := hrep.keeps (Int.natCast_nonneg _) a (by rw [Int.toNat_natCast]; omega)
    rw [seen, seen, if_pos (by omega), if_pos ha, hbyte a, if_pos (by omega)] at hkept
    exact Option.some.inj hkept
  · intro hsame
    refine ⟨fun hr => by omega, fun _ a ha => ?_⟩
    rw [Int.toNat_natCast] at ha
    unfold seen
    by_cases hin : a < (s.dino i).size
    · rw [if_pos (by omega), if_pos hin, hbyte a]
      split
      · cases hw.stopped with
        | done hoff' hl => omega
        | full c hl hc hnone => omega
        | fault hbegin hblock hlt hnone =>
          have hr := S.readable_eq (n := n) (by omega) hw.read hnone
          refine congrArg some (hsame hstart h.bound (by omega) a (by omega) ?_ (by omega) hin)
          rw [hr]
          simp only [BSIZE] at *
          omega
      · rfl
    · rw [if_neg (by omega), if_neg hin]

/-- **A short write changes only what it reports**, exactly if the copy does not end in the middle of a block over bytes of the
file that are different: with all of the buffer readable, or with none of it readable in that block, or beyond the size. -/
theorem short_write (h : Reachable sb s) (htype : (s.dino i).type ≠ none) (S : Source) (hsrc : src < 2 ^ 64) (hoff : off < 2 ^ 32)
    (hn : n < 2 ^ 32) : (∃ s' ip' r, s.writei sb S.copyin i (s.dino i) src off n = .ok (s', ip', r) ∧ Reported i s s' off r)
      ↔ Harmless S s i src off n := by
  obtain ⟨s', ip', r, hrun, -, hcase⟩ := h.good.writei_spec htype S hsrc hoff hn
  have hiff : Reported i s s' off r ↔ Harmless S s i src off n := by
    rcases hcase with ⟨rfl, rfl, hrefused⟩ | ⟨off', l, rfl, hw⟩
    · exact iff_of_true ⟨fun _ => rfl, fun hr => absurd hr (by decide)⟩ fun hstart hbound => absurd ⟨hstart, hbound⟩ hrefused
    · exact hw.reported_iff (h.good.inv.whole i htype)
  rw [← hiff]
  refine ⟨fun ⟨t, jp, q, hq, hrep⟩ => ?_, fun hrep => ⟨s', ip', r, hrun, hrep⟩⟩
  cases hrun.symm.trans hq
  exact hrep

/-- A file of one block of sevens. -/
def sevensRun : List (BlkStep 1) := [.write 2 0 0 1024 (sevens 1024)]

/-- The memory of a process with one page of zeros. -/
def onePage : Source := .user (fullMem Layout.small) oomParent

/-- A `writei` to the file of sevens, run: what was checked of it. -/
theorem sevens_write (src off n : Nat) (test : BlkSys 1 → BlkSys 1 → Int → Bool)
    (h : Lib.reaches (fun _ _ => True) (step ⟨4, 2⟩) (smallDisk .T_FILE 0) sevensRun (fun s =>
      decide ((s.dino 2).type ≠ none ∧ (s.dino 2).size = 1024) && (s.writei ⟨4, 2⟩ onePage.copyin 2 (s.dino 2) src off n).toOption.any
        (fun x => test s x.1 x.2.2)) = true) :
    ∃ s s' ip' r, Reachable ⟨4, 2⟩ s ∧ (s.dino 2).type ≠ none ∧ (s.dino 2).size = 1024
      ∧ s.writei ⟨4, 2⟩ onePage.copyin 2 (s.dino 2) src off n = .ok (s', ip', r) ∧ test s s' r = true := by
  obtain ⟨s, hs, htest⟩ := Lib.Reach.of_reaches sevensRun _ smallDisk_image h
  obtain ⟨hfile, hret⟩ := Bool.and_eq_true_iff.mp htest
  obtain ⟨htype, hsize⟩ := of_decide_eq_true hfile
  cases hrun : s.writei ⟨4, 2⟩ onePage.copyin 2 (s.dino 2) src off n with
  | error err =>
    rw [hrun] at hret
    cases hret
  | ok x =>
    rw [hrun] at hret
    exact ⟨s, x.1, x.2.1, x.2.2, hs, htype, hsize, hrun, hret⟩

/-- Two bytes are appended of which the second cannot be read: nothing is reported, and the file is as it was. -/
theorem short_write_append : ∃ (s s' : BlkSys 1) (ip' : Dino), Reachable ⟨4, 2⟩ s ∧ onePage.readable 4095 2 = 1
    ∧ s.writei ⟨4, 2⟩ onePage.copyin 2 (s.dino 2) 4095 1024 2 = .ok (s', ip', 0) ∧ ∀ a, s'.seen 2 a = s.seen 2 a := by
  obtain ⟨s, s', ip', r, hs, htype, hsize, hrun, hr⟩ := sevens_write 4095 1024 2 (fun _ _ r => decide (r = 0)) (by decide +kernel)
  obtain rfl := of_decide_eq_true hr
  have hharmless : Harmless onePage s 2 4095 1024 2 := fun _ _ _ a ha _ _ hin => by omega
  obtain ⟨t, jp, q, hq, hrep⟩ := (short_write hs htype onePage (by decide) (by decide) (by decide)).mpr hharmless
  cases hrun.symm.trans hq
  exact ⟨s, s', ip', hs, by decide +kernel, hrun, fun a => hrep.keeps le_rfl a (by omega)⟩

/-- **A copy that fails half-way**: of two bytes the first is at the end of a user page and the next page is not mapped.
`writei` returns 0 and has changed the first byte of the file. -/
theorem short_write_changes : ∃ (s s' : BlkSys 1) (ip' : Dino), Reachable ⟨4, 2⟩ s
    ∧ s.writei ⟨4, 2⟩ onePage.copyin 2 (s.dino 2) 4095 0 2 = .ok (s', ip', 0) ∧ s.seen 2 0 = some 7 ∧ s'.seen 2 0 = some 0 := by
  obtain ⟨s, s', ip', r, hs, -, -, hrun, htest⟩ := sevens_write 4095 0 2
    (fun s s' r => decide (r = 0 ∧ s.seen 2 0 = some 7 ∧ s'.seen 2 0 = some 0)) (by decide +kernel)
  obtain ⟨rfl, hseen⟩ := of_decide_eq_true htest
  exact ⟨s, s', ip', hs, hrun, hseen⟩

/-! ## §4. Files as arrays of bytes. -/

/-- **The loop of `readi`** copies out the bytes of the file. -/
theorem readLoop_bytes (h : Inv sb s) (htype : (s.dino i).type ≠ none) (alloc : Alloc k) (copyout : Copyout) (n fuel : Nat) :
    ∀ off tot bs, off + (n - tot) ≤ (s.dino i).size → n - tot ≤ fuel →
      readLoop alloc copyout n fuel s (s.dino i) off tot = .ok (s, s.dino i, bs, true) →
      bs = (List.range (n - tot)).map fun t => s.byte i (off + t) := by
  have hself := setDino_eq_self (s := s) (i := i) rfl
  induction fuel with
  | zero =>
    intro off tot bs _ hfuel hrun
    cases hrun
    rw [Nat.le_zero.mp hfuel]
    rfl
  | succ fuel ih =>
    intro off tot bs hoff hfuel hrun
    rw [readLoop] at hrun
    split at hrun
    · cases hrun
      rw [Nat.sub_eq_zero_of_le ‹_›]
      rfl
    obtain ⟨c, hc, hheld⟩ := h.whole i htype (off / BSIZE) (by
      have := Nat.div_mul_le_self off BSIZE
      omega)
    obtain ⟨addr, hne, hbmap⟩ := bmap_mapped htype hc (hself.symm ▸ hheld)
    obtain ⟨-, hcell, -⟩ := Inv.bmap (hself.symm ▸ h) htype (hbmap (ballocIn sb))
    obtain ⟨c', hc', -, hheld'⟩ := hcell hne
    cases hc.symm.trans hc'
    rw [hself] at hheld'
    have hdata : s.data (i, c) = s.blk addr := by
      unfold data
      rw [hheld']
      rfl
    rw [hbmap] at hrun
    change (if addr = 0 then _ else _) = _ at hrun
    rw [if_neg hne] at hrun
    generalize hm : min (n - tot) (BSIZE - off % BSIZE) = m at hrun
    split at hrun
    · obtain ⟨⟨s₁, ip₁, rest, ok⟩, hloop, hend⟩ := Lib.bind_ok hrun
      cases hend
      -- the bytes of this block, and those after it
      have hblock : ∀ t ∈ List.range m, byteAt (s.blk addr) (off % BSIZE + t) = s.byte i (off + t) := by
        intro t ht
        have ht := List.mem_range.mp ht
        have hdiv : (off + t) / BSIZE = off / BSIZE := by unfold BSIZE at *; omega
        have hmod : (off + t) % BSIZE = off % BSIZE + t := by unfold BSIZE at *; omega
        rw [byte_of_cell (hdiv ▸ hc), hdata, hmod]
      rw [ih (off + m) (tot + m) rest (by omega) (by unfold BSIZE at hm; omega) hloop,
        show n - tot = m + (n - (tot + m)) by omega, List.range_add, List.map_append, List.map_congr_left hblock, List.map_map]
      exact congrArg _ (List.map_congr_left fun t _ => congrArg (s.byte i) (Nat.add_assoc off m t))
    · cases hrun

/-- `readi` fails only if a copy fails. -/
theorem readLoop_copies {copyout : Copyout} (hcopy : ∀ t bs, copyout t bs = true) (alloc : Alloc k) (n fuel : Nat) :
    ∀ (s : BlkSys k) (ip : Dino) (off tot : Nat) {bs : List UInt8} {ok : Bool},
      readLoop alloc copyout n fuel s ip off tot = .ok (s', ip', bs, ok) → ok = true := by
  induction fuel with
  | zero =>
    intro s ip off tot bs ok hrun
    cases hrun
    rfl
  | succ fuel ih =>
    intro s ip off tot bs ok hrun
    rw [readLoop] at hrun
    split at hrun
    · cases hrun
      rfl
    obtain ⟨⟨s₁, ip₁, addr⟩, -, hrest⟩ := Lib.bind_ok hrun
    dsimp only at hrest
    split at hrest
    · cases hrest
      rfl
    rw [if_pos (hcopy _ _)] at hrest
    obtain ⟨⟨s₂, ip₂, rest, ok'⟩, hloop, hend⟩ := Lib.bind_ok hrest
    cases hend
    exact ih _ _ _ _ hloop

/-- The bytes that `readi` returns for a range: those of the file up to its size, and none if the range goes beyond 2^32. -/
def clipped (s : BlkSys k) (i : Inum k) (off n : Nat) : List UInt8 :=
  if off + n < 2 ^ 32 then (List.range (min n ((s.dino i).size - off))).map fun t => s.byte i (off + t) else []

/-- **`readi`** leaves everything as it is, and what it has copied out is the range of the file. -/
theorem Good.readi_bytes (h : Good sb s) (htype : (s.dino i).type ≠ none) (hoff : off < 2 ^ 32) (hn : n < 2 ^ 32) (copyout : Copyout) :
    ∃ bs r, (∀ alloc, s.readi alloc (s.dino i) off n copyout = .ok (s, s.dino i, bs, r))
      ∧ (r ≠ -1 → bs = s.clipped i off n ∧ r = bs.length) ∧ ((∀ t cs, copyout t cs = true) → r ≠ -1) := by
  obtain ⟨bs, r, hrun⟩ := h.readi rfl htype off n copyout
  refine ⟨bs, r, hrun, ?_⟩
  have hread := hrun (ballocIn sb)
  unfold clipped
  unfold BlkSys.readi at hread
  split at hread
  · cases hread
    refine ⟨fun _ => ⟨?_, rfl⟩, fun _ => by decide⟩
    split
    · rw [show min n ((s.dino i).size - off) = 0 by omega]
      rfl
    · rfl
  · obtain ⟨⟨s₁, ip₁, bs₁, ok⟩, hloop, hend⟩ := Lib.bind_ok hread
    cases hend
    have hclip : (if (s.dino i).size < off + n then (s.dino i).size - off else n) = min n ((s.dino i).size - off) := by
      split <;> omega
    have hrange : off + n < 2 ^ 32 := by omega
    rw [hclip] at hloop
    simp only [if_pos hrange]
    cases ok with
    | true => exact ⟨fun _ => ⟨readLoop_bytes h.inv htype (ballocIn sb) copyout (min n ((s.dino i).size - off)) (min n ((s.dino i).size - off)) off 0 bs
        (by omega) (by omega) hloop, rfl⟩, fun _ => by simp⟩
    | false =>
      refine ⟨fun hr => absurd rfl hr, fun hcopy => ?_⟩
      cases readLoop_copies hcopy _ _ _ _ _ _ _ hloop

/-- The bytes of file `i` from `off` on are replaced by `n` bytes of `src`, and nothing else. -/
structure Replaced (i : Inum k) (src : Nat → UInt8) (s s' : BlkSys k) (off n : Nat) : Prop where
  bytes : s'.byte i = splice src off (off + n) (s.byte i)
  size : (s'.dino i).size = max (s.dino i).size (off + n)
  other : ∀ j, j ≠ i → s'.dino j = s.dino j ∧ s'.core j = s.core j ∧ s'.byte j = s.byte j

/-- **A `writei` that returns `n`** has read and stored all the bytes. -/
theorem Good.replaced (h : Good sb s) (htype : (s.dino i).type ≠ none) (hsrc : src < 2 ^ 64) (hoff : off < 2 ^ 32) (hn : n < 2 ^ 32)
    (hrun : s.writei sb S.copyin i (s.dino i) src off n = .ok (s', ip', n)) :
    Good sb s' ∧ (s'.dino i).type ≠ none ∧ (∀ t < n, S.view (src + t) ≠ none) ∧ Replaced i (fun a => S.at (src + (a - off))) s s' off n
      ∧ off + n ≤ MAXFILE * BSIZE := by
  obtain ⟨t', jp, q, hq, hgood, hcase⟩ := h.writei_spec htype S hsrc hoff hn
  cases hq.symm.trans hrun
  obtain ⟨hr, -⟩ | ⟨off', l, hr, hw⟩ := hcase
  · cases hr
  have hle := hw.wrote.le
  have hge := hw.wrote.ge
  obtain ⟨rfl, rfl⟩ : off' = off + n ∧ l = 0 := by omega
  obtain ⟨hip, htype'⟩ := hgood.agree i ip' (by rw [hw.core, update_self])
  refine ⟨hgood, hip ▸ htype', fun t ht => hw.wrote.read t (by omega), ⟨hw.wrote.bytes, ?_, fun j hj => ⟨?_, ?_, hw.wrote.other j hj⟩⟩, hw.bound⟩
  · rw [hw.dino, update_self]
    exact hw.size
  · rw [hw.dino, update_of_ne hj]
  · rw [hw.core, update_of_ne hj]

/-- `max` of `filewrite()` -/
def FILEMAX : Nat := (MAXOPBLOCKS - 1 - 1 - 2) / 2 * BSIZE

/-- The loop of `filewrite()` on an inode with `f->off = off`, from its byte `d` on: where `f->off` is then, and the bytes that
are done.  Every turn that goes on has written a byte, so `fuel = n` turns are enough. -/
def filewriteLoop (sb : Super) (copyin : Copyin) (i : Inum k) (addr n : Nat) :
    Nat → BlkSys k → Nat → Nat → BlkResult (BlkSys k × Nat × Nat)
  | 0, s, off, d => .ok (s, off, d)
  | fuel + 1, s, off, d =>
    if n ≤ d then .ok (s, off, d)
    else do
      let n1 := min (n - d) FILEMAX
      let (s, ip) ← s.ilock i
      let (s, _, r) ← s.writei sb copyin i ip (u64 (addr + d)) off n1
      let off := if 0 < r then (off + r.toNat) % 2 ^ 32 else off
      if r ≠ n1 then .ok (s, off, d) else filewriteLoop sb copyin i addr n fuel s off (d + r.toNat)

/-- `filewrite()` of an inode; `n` is not negative. -/
def filewrite (sb : Super) (copyin : Copyin) (s : BlkSys k) (i : Inum k) (addr off n : Nat) : BlkResult (BlkSys k × Nat × Int) := do
  let (s, off, d) ← filewriteLoop sb copyin i addr n n s off 0
  .ok (s, off, if d = n then (n : Int) else -1)

/-- **The loop of `filewrite`**, if it gets to the end: its pieces add up. -/
theorem filewriteLoop_replaced (S : Source) {addr n : Nat} (fuel : Nat) : ∀ (s : BlkSys k) (off d : Nat) {s' : BlkSys k}
    {off' : Nat}, Good sb s → (s.dino i).type ≠ none → off ≤ (s.dino i).size → off < 2 ^ 32 → d ≤ n → addr + d < 2 ^ 64 →
      filewriteLoop sb S.copyin i addr n fuel s off d = .ok (s', off', n) → off' = off + (n - d)
        ∧ (∀ t < n - d, S.view (addr + d + t) ≠ none) ∧ Replaced i (fun a => S.at (addr + d + (a - off))) s s' off (n - d) := by
  have hmax : FILEMAX = 3072 := by decide
  have hdone : ∀ (s : BlkSys k) (off : Nat), off ≤ (s.dino i).size → off = off + (n - n) ∧ (∀ t < n - n, S.view (addr + n + t) ≠ none)
      ∧ Replaced i (fun a => S.at (addr + n + (a - off))) s s off (n - n) := by
    intro s off hsize
    refine ⟨by omega, fun t ht => by omega, ?_, by omega, fun _ _ => ⟨rfl, rfl, rfl⟩⟩
    rw [Nat.sub_self, Nat.add_zero, splice_empty]
  induction fuel with
  | zero =>
    intro s off d s' off' h htype hsize hoff hd haddr hrun
    cases hrun
    exact hdone s off hsize
  | succ fuel ih =>
    intro s off d s' off' h htype hsize hoff hd haddr hrun
    rw [filewriteLoop] at hrun
    split at hrun
    · cases hrun
      exact hdone s off hsize
    rename_i hmore
    obtain ⟨⟨s₁, ip⟩, hlock, hpiece⟩ := Lib.bind_ok hrun
    obtain ⟨⟨s₂, ip', r⟩, hwrite, hnext⟩ := Lib.bind_ok hpiece
    dsimp only at hwrite hnext
    clear hpiece hrun
    have hsame : s₁.dino = s.dino ∧ s₁.byte = s.byte ∧ ∀ j, j ≠ i → s₁.core j = s.core j := by
      unfold BlkSys.ilock at hlock
      dsimp only at hlock
      split at hlock
      · cases hlock
      · cases hlock
        exact ⟨rfl, rfl, fun j hj => update_of_ne hj ..⟩
    obtain ⟨hgood₁, rfl, htype₁⟩ := h.ilock hlock
    generalize hn1 : min (n - d) FILEMAX = n1 at hwrite hnext
    by_cases hr : r = n1
    · -- the piece was written whole, so `f->off` and the address move on together
      subst hr
      rw [if_neg (not_not.mpr rfl), if_pos (by omega), Int.toNat_natCast] at hnext
      rw [show u64 (addr + d) = addr + d from Nat.mod_eq_of_lt haddr] at hwrite
      obtain ⟨hgood₂, htype₂, hread, hw, hbound⟩ := hgood₁.replaced htype₁ haddr hoff (by omega) hwrite
      have hsize₂ := hw.size
      have hlast := S.copies.bound _ (hread (n1 - 1) (by omega))
      have hsmall : off + n1 < 2 ^ 32 := by simp only [MAXFILE, NDIRECT, NINDIRECT, BSIZE] at hbound; omega
      rw [Nat.mod_eq_of_lt hsmall] at hnext
      obtain ⟨hoff', hread', hrest⟩ := ih s₂ (off + n1) (d + n1) hgood₂ htype₂ (by omega) hsmall (by omega) (by omega) hnext
      rw [hsame.1] at hsize₂
      refine ⟨by omega, fun t ht => ?_, ?_, ?_, fun j hj => ?_⟩
      · by_cases hfirst : t < n1
        · exact hread t hfirst
        · have hbyte := hread' (t - n1) (by omega)
          rwa [show addr + (d + n1) + (t - n1) = addr + d + t by omega] at hbyte
      · rw [hrest.bytes, hw.bytes, hsame.2.1, show off + n1 + (n - (d + n1)) = off + (n - d) by omega]
        refine splice_splice (fun a ha => congrArg S.at (by omega)) (by omega) (by omega)
      · rw [hrest.size, hsize₂]
        omega
      · obtain ⟨hd', hc', hb'⟩ := hrest.other j hj
        obtain ⟨hd₁, hc₁, hb₁⟩ := hw.other j hj
        rw [hd', hd₁, hc', hc₁, hb', hb₁, hsame.1, hsame.2.1, hsame.2.2 j hj]
        exact ⟨rfl, rfl, rfl⟩
    · rw [if_pos hr] at hnext
      have hend : d = n := congrArg (fun x => x.2.2) (Except.ok.inj hnext)
      omega

/-- **Files are arrays of bytes.**  A `writei` that returns `n` has copied `n` bytes at `src` to `[off, off + n)` of its file and
leaves the other files as they are; a `readi` changes nothing and gives the bytes of its range, unless a copy to the user fails;
a `filewrite` that returns `n` does what one such `writei` does. -/
theorem byte_array (h : Reachable sb s) (htype : (s.dino i).type ≠ none) : (∀ (S : Source) (src off n : Nat) s' ip', src < 2 ^ 64 →
      off + n ≤ MAXFILE * BSIZE → s.writei sb S.copyin i (s.dino i) src off n = .ok (s', ip', n) →
      (∀ t < n, S.view (src + t) ≠ none) ∧ Replaced i (fun a => S.at (src + (a - off))) s s' off n)
    ∧ (∀ off n copyout, off < 2 ^ 32 → n < 2 ^ 32 → ∃ bs r, (∀ alloc, s.readi alloc (s.dino i) off n copyout = .ok (s, s.dino i, bs, r))
      ∧ (r ≠ -1 → bs = s.clipped i off n ∧ r = bs.length) ∧ ((∀ t cs, copyout t cs = true) → r ≠ -1))
    ∧ ∀ (S : Source) (addr off n : Nat) s' off', addr < 2 ^ 64 → off ≤ (s.dino i).size → off < 2 ^ 32 →
      s.filewrite sb S.copyin i addr off n = .ok (s', off', n) → off' = off + n
        ∧ (∀ t < n, S.view (addr + t) ≠ none) ∧ Replaced i (fun a => S.at (addr + (a - off))) s s' off n := by
  refine ⟨fun S src off n s' ip' hsrc hmax hrun => ?_, fun off n copyout hoff hn => h.good.readi_bytes htype hoff hn copyout,
    fun S addr off n s' off' haddr hsize hoff hrun => ?_⟩
  · simp only [MAXFILE, NDIRECT, NINDIRECT, BSIZE] at hmax
    obtain ⟨-, -, hread, hw, -⟩ := h.good.replaced htype hsrc (by omega) (by omega) hrun
    exact ⟨hread, hw⟩
  · obtain ⟨⟨s₁, off₁, d⟩, hloop, hend⟩ := Lib.bind_ok hrun
    obtain ⟨rfl, rfl, hret⟩ : s₁ = s' ∧ off₁ = off' ∧ (if d = n then (n : Int) else -1) = n := by
      have hpair := Except.ok.inj hend
      exact ⟨congrArg Prod.fst hpair, congrArg (fun x => x.2.1) hpair, congrArg (fun x => x.2.2) hpair⟩
    obtain rfl : d = n := by
      by_contra hne
      rw [if_neg hne] at hret
      omega
    exact filewriteLoop_replaced S d s off 0 h.good htype hsize hoff (Nat.zero_le _) haddr hloop

/-- A zero is written over the first seven, the end of the file is read, and six bytes are written across its end. -/
theorem byte_array_one : ∃ (s s' s'' : BlkSys 1) (ip' : Dino), Reachable ⟨4, 2⟩ s
    ∧ s.writei ⟨4, 2⟩ onePage.copyin 2 (s.dino 2) 4095 0 1 = .ok (s', ip', 1) ∧ s.byte 2 0 = 7 ∧ s'.byte 2 0 = 0
    ∧ Replaced 2 (fun a => onePage.at (4095 + (a - 0))) s s' 0 1
    ∧ s.readi (ballocIn ⟨4, 2⟩) (s.dino 2) 1022 10 (fun _ _ => true) = .ok (s, s.dino 2, [s.byte 2 1022, s.byte 2 1023], 2)
    ∧ s.filewrite ⟨4, 2⟩ onePage.copyin 2 4090 1020 6 = .ok (s'', 1026, 6)
    ∧ Replaced 2 (fun a => onePage.at (4090 + (a - 1020))) s s'' 1020 6 := by
  obtain ⟨s, s', ip', r, hs, htype, hsize, hrun, htest⟩ := sevens_write 4095 0 1 (fun s s' r =>
    decide (r = 1 ∧ s.byte 2 0 = 7 ∧ s'.byte 2 0 = 0) && (s.filewrite ⟨4, 2⟩ onePage.copyin 2 4090 1020 6).toOption.any
      fun x => x.2 == (1026, 6)) (by decide +kernel)
  obtain ⟨hfirst, hfile⟩ := Bool.and_eq_true_iff.mp htest
  obtain ⟨rfl, hold, hnew⟩ := of_decide_eq_true hfirst
  obtain ⟨⟨s'', off', n⟩, hwhole, hend⟩ := Exec.ok_of_any hfile
  obtain ⟨rfl, rfl⟩ := Prod.mk.inj (beq_iff_eq.mp hend)
  obtain ⟨hwrite, hread, hfilewrite⟩ := byte_array hs htype
  refine ⟨s, s', s'', ip', hs, hrun, hold, hnew, (hwrite onePage 4095 0 1 s' ip' (by decide) (by decide) hrun).2, ?_, hwhole,
    (hfilewrite onePage 4090 1020 6 s'' 1026 (by decide) (by omega) (by decide) hwhole).2.2⟩
  obtain ⟨bs, q, hq, hbytes, hok⟩ := hread 1022 10 (fun _ _ => true) (by decide) (by decide)
  obtain ⟨hbs, hlen⟩ := hbytes (hok fun _ _ => rfl)
  have hclip : s.clipped 2 1022 10 = [s.byte 2 1022, s.byte 2 1023] := by
    rw [clipped, hsize, if_pos (by decide)]
    rfl
  rw [hlen, hbs, hclip] at hq
  exact hq (ballocIn ⟨4, 2⟩)

end BlkSys

end Xv6
