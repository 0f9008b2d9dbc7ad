/-
  Xv6.Fs.BlockOwn — every data block in use is held once.

  `held` lists the non-zero block numbers in the inodes and indirect blocks,
  `mark` the data blocks that the bitmap marks.  In the middle of a call the
  in-memory inode is ahead of the disk; the invariant is then stated for the
  disk with that inode written back.

  Main results: `block_ownership`, `block_ownership_hole`.
-/
import Xv6.Fs.Blocks
import Xv6.Lib.Holders

namespace Xv6

namespace BlkSys

open Function (update update_eq_self update_of_ne update_self)
open Lib (holders Exact bind_ok)

variable {k : Nat} {sb : Super} {s s' : BlkSys k} {i : Inum k} {ip ip' : Dino} {b : Nat}

/-! ## §1. What an inode holds. -/

/-- A cell of `addrs` or an entry of the indirect block. -/
abbrev Cell := Fin (NDIRECT + 1) ⊕ Fin NINDIRECT

/-- A block number, 0 being none. -/
def nonzero (b : Nat) : Option Nat := if b = 0 then none else some b

theorem nonzero_eq_some {b c : Nat} : nonzero b = some c ↔ b = c ∧ c ≠ 0 := by
  unfold nonzero
  split
  · rename_i h0
    exact ⟨nofun, fun h => absurd (h.1.symm.trans h0) h.2⟩
  · rename_i h0
    exact ⟨fun h => ⟨Option.some.inj h, Option.some.inj h ▸ h0⟩, fun h => congrArg some h.1⟩

/-- Entry `j` of the indirect block `ind`, if there is one. -/
def entryOf (blk : Nat → Fin NINDIRECT → Nat) (ind : Nat) (j : Fin NINDIRECT) : Option Nat :=
  if ind = 0 then none else nonzero (blk ind j)

/-- What a cell of an inode holds. -/
def heldBy (blk : Nat → Fin NINDIRECT → Nat) (ip : Dino) : Cell → Option Nat
  | .inl a => nonzero (ip.addrs a)
  | .inr j => entryOf blk (ip.addrs INDIRECT) j

/-- A free inode holds nothing. -/
def holds (blk : Nat → Fin NINDIRECT → Nat) (ip : Dino) (c : Cell) : Option Nat :=
  if ip.type = none then none else heldBy blk ip c

/-- The block numbers held by allocated inodes. -/
def held (s : BlkSys k) : Inum k × Cell → Option Nat := fun c => holds s.blk (s.dino c.1) c.2

/-- The data blocks marked in the bitmap. -/
def mark (sb : Super) (s : BlkSys k) (b : Nat) : Bool := sb.isData b && s.used b

/-- The cell for block `bn` of a file. -/
def cellOf (bn : Nat) : Option Cell :=
  if h : bn < NDIRECT then some (.inl ⟨bn, Nat.lt_succ_of_lt h⟩)
  else if h : bn - NDIRECT < NINDIRECT then some (.inr ⟨bn - NDIRECT, h⟩)
  else none

/-- The file has a block for every byte below `size`. -/
def Mapped (s : BlkSys k) (i : Inum k) (size : Nat) : Prop :=
  ∀ bn, bn * BSIZE < size → ∃ c, cellOf bn = some c ∧ s.held (i, c) ≠ none

/-- Every data block in use is held once, and files are whole. -/
structure Inv (sb : Super) (s : BlkSys k) : Prop where
  owned : Exact (mark sb s) s.held
  super : 0 < sb.nmeta
  metaUsed : ∀ b < sb.nmeta, s.used b = true
  /-- no file has a hole -/
  whole : ∀ i, (s.dino i).type ≠ none → s.Mapped i (s.dino i).size

theorem held_self (ip : Dino) (hip : ip.type ≠ none) (c : Cell) : (s.setDino i ip).held (i, c) = heldBy s.blk ip c := by
  show holds s.blk (update s.dino i ip i) c = _
  rw [update_self]
  exact if_neg hip

theorem held_other {i' : Inum k} (hi : i' ≠ i) (c : Cell) : (s.setDino i ip).held (i', c) = s.held (i', c) := by
  show holds s.blk (update s.dino i ip i') c = _
  rw [update_of_ne hi]
  rfl

variable {blk : Nat → Fin NINDIRECT → Nat}

/-- The contents of a block that is not its indirect block do not matter to an inode. -/
theorem holds_setBlk (x : Fin NINDIRECT → Nat)
    (hno : holds blk ip (.inl INDIRECT) ≠ some b) (c : Cell) : holds (update blk b x) ip c = holds blk ip c := by
  unfold holds at *
  by_cases ht : ip.type = none
  · rw [if_pos ht, if_pos ht]
  rw [if_neg ht] at hno ⊢
  rw [if_neg ht]
  cases c with
  | inl a => rfl
  | inr j =>
    unfold heldBy entryOf
    dsimp only
    by_cases h0 : ip.addrs INDIRECT = 0
    · rw [if_pos h0, if_pos h0]
    · rw [if_neg h0, if_neg h0, update_of_ne]
      intro heq
      exact hno (nonzero_eq_some.mpr ⟨heq, heq ▸ h0⟩)

theorem held_setBlk (x : Fin NINDIRECT → Nat) (hno : ∀ i', s.held (i', .inl INDIRECT) ≠ some b) :
    (s.setBlk b x).held = s.held := by
  funext ⟨i', c⟩
  exact holds_setBlk x (hno i') c

theorem mark_setUsed (hb : sb.isData b = true) (x : Bool) : mark sb (s.setUsed b x) = update (mark sb s) b x := by
  funext c
  unfold mark setUsed
  dsimp only
  by_cases hc : c = b
  · rw [hc, update_self, update_self, hb, Bool.true_and]
  · rw [update_of_ne hc, update_of_ne hc]

/-! ## §2. `balloc` and `bfree`. -/

/-- **`balloc`** finds a data block that is not in use, or changes nothing. -/
theorem Inv.balloc (h : Inv sb (s.setDino i ip)) (hrun : s.balloc sb = (s', b)) : (b = 0 ∧ s' = s) ∨
      (b ≠ 0 ∧ sb.isData b = true ∧ s.used b = false ∧ s' = (s.setUsed b true).setBlk b fun _ => 0) := by
  unfold BlkSys.balloc at hrun
  split at hrun
  · cases hrun
    exact .inl ⟨rfl, rfl⟩
  rename_i b' hfind
  obtain ⟨rfl, rfl⟩ := Prod.mk.inj hrun
  have hfree : s.used b' = false := by
    have := List.find?_some hfind
    simpa using this
  have hlt : b' < sb.size := List.mem_range.mp (List.mem_of_find?_eq_some hfind)
  have hmeta : sb.nmeta ≤ b' := by
    by_contra hno
    have hused : s.used b' = true := h.metaUsed b' (by omega)
    rw [hfree] at hused
    cases hused
  have hpos := h.super
  exact .inr ⟨by omega, decide_eq_true ⟨hmeta, hlt⟩, hfree, rfl⟩

/-- A block in use can be freed. -/
theorem bfree_ok (h : s.used b = true) : s.bfree b = .ok (s.setUsed b false) := by
  unfold bfree
  rw [if_neg (by rw [h]; exact Bool.noConfusion)]

variable {bn : Nat}

theorem cellOf_ne {c : Cell} (h : cellOf bn = some c) : c ≠ .inl INDIRECT := by
  rintro rfl
  unfold cellOf at h
  split at h
  · rename_i hbn
    have hval : bn = NDIRECT := congrArg Fin.val (Sum.inl.inj (Option.some.inj h))
    omega
  · split at h <;> cases h

theorem cellOf_inj {bn' : Nat} {c : Cell} (h : cellOf bn = some c) (h' : cellOf bn' = some c) : bn = bn' := by
  unfold cellOf at h h'
  split at h
  · cases h
    split at h'
    · exact (congrArg Fin.val (Sum.inl.inj (Option.some.inj h'))).symm
    · split at h' <;> cases h'
  split at h
  · cases h
    split at h'
    · cases h'
    · split at h'
      · have hval : bn' - NDIRECT = bn - NDIRECT := congrArg Fin.val (Sum.inr.inj (Option.some.inj h'))
        omega
      · cases h'
  · cases h

/-- Every block number that was held is held by the same cell. -/
def Grows (s s' : BlkSys k) : Prop := ∀ c x, s.held c = some x → s'.held c = some x

theorem Mapped.grows {size : Nat} (h : s.Mapped i size) (hg : Grows s s') : s'.Mapped i size := by
  intro bn hbn
  obtain ⟨c, hc, hne⟩ := h bn hbn
  refine ⟨c, hc, fun hnone => ?_⟩
  cases hx : s.held (i, c) with
  | none => exact hne hx
  | some x =>
    rw [hg _ x hx] at hnone
    cases hnone

/-- What is in the block of a cell, zeros where there is none. -/
def data (s : BlkSys k) (c : Inum k × Cell) : Fin NINDIRECT → Nat := ((s.held c).map s.blk).getD fun _ => 0

/-- The files have the same contents. -/
def SameData (s s' : BlkSys k) : Prop := ∀ c, c.2 ≠ .inl INDIRECT → s'.data c = s.data c

variable {c : Inum k × Cell}

/-- **A block is attached**: the table grows by one cell and the bitmap by one mark. -/
theorem Inv.attach (h : Inv sb s) (hc : s.held c = none)
    (hdata : sb.isData b = true) (hfree : s.used b = false) (hused : s'.used = update s.used b true)
    (hheld : s'.held = update s.held c (some b)) (hzero : s'.blk b = fun _ => 0)
    (hblk : ∀ c x, c.2 ≠ .inl INDIRECT → s.held c = some x → s'.blk x = s.blk x)
    (hdino : ∀ i, (s'.dino i).type = (s.dino i).type ∧ (s'.dino i).size = (s.dino i).size) :
    Inv sb s' ∧ Grows s s' ∧ SameData s s' := by
  have hg : Grows s s' := by
    intro c' x hx
    rw [hheld]
    by_cases hcc : c' = c
    · rw [hcc, hc] at hx
      cases hx
    · rw [update_of_ne hcc]
      exact hx
  have hmark : mark sb s' = update (mark sb s) b true := by
    rw [← mark_setUsed hdata]
    unfold mark setUsed
    rw [hused]
  refine ⟨⟨?_, h.super, fun b' hb' => ?_, fun i hi => ?_⟩, hg, fun c' hc' => ?_⟩
  · rw [hmark, hheld]
    refine h.owned.take ?_ hc
    unfold mark
    rw [hfree, Bool.and_false]
  · rw [hused]
    by_cases hbb : b' = b
    · rw [hbb, update_self]
    · rw [update_of_ne hbb]
      exact h.metaUsed b' hb'
  · obtain ⟨ht, hs⟩ := hdino i
    rw [ht] at hi
    rw [hs]
    exact (h.whole i hi).grows hg
  · unfold data
    rw [hheld]
    by_cases hcc : c' = c
    · rw [hcc, update_self, hc, Option.map_some, hzero]
      rfl
    · rw [update_of_ne hcc]
      cases hx : s.held c' with
      | none => rfl
      | some x => rw [Option.map_some, Option.map_some, hblk c' x hc' hx]

/-- A free block is held by nobody. -/
theorem Inv.unheld (h : Inv sb s) (hfree : s.used b = false) (c : Inum k × Cell) : s.held c ≠ some b := by
  refine h.owned.unheld ?_ c
  unfold mark
  rw [hfree, Bool.and_false]

/-! ## §3. `bmap`. -/

/-- The in-memory inode `ip` of `i` and the disk become `ip'` and `s'`: blocks
were attached and nothing was lost. -/
structure Grew (sb : Super) (i : Inum k) (s : BlkSys k) (ip : Dino) (s' : BlkSys k) (ip' : Dino) :
    Prop where
  inv : Inv sb (s'.setDino i ip')
  grows : Grows (s.setDino i ip) (s'.setDino i ip')
  type_eq : ip'.type = ip.type
  size_eq : ip'.size = ip.size
  dino_eq : s'.dino = s.dino
  core_eq : s'.core = s.core

theorem Grew.refl (h : Inv sb (s.setDino i ip)) : Grew sb i s ip s ip :=
  ⟨h, fun _ _ hx => hx, rfl, rfl, rfl, rfl⟩

theorem Grew.trans {s'' : BlkSys k} {ip'' : Dino} (h : Grew sb i s ip s' ip')
    (h' : Grew sb i s' ip' s'' ip'') : Grew sb i s ip s'' ip'' :=
  ⟨h'.inv, fun c x hx => h'.grows c x (h.grows c x hx), h'.type_eq.trans h.type_eq,
    h'.size_eq.trans h.size_eq, h'.dino_eq.trans h.dino_eq, h'.core_eq.trans h.core_eq⟩

theorem dino_setDino (s : BlkSys k) (i : Inum k) (ip ip' : Dino) (ht : ip'.type = ip.type)
    (hs : ip'.size = ip.size) (j : Inum k) : ((s.setDino i ip').dino j).type = ((s.setDino i ip).dino j).type
      ∧ ((s.setDino i ip').dino j).size = ((s.setDino i ip).dino j).size := by
  show (update s.dino i ip' j).type = (update s.dino i ip j).type ∧ _
  by_cases hj : j = i
  · show _ ∧ (update s.dino i ip' j).size = (update s.dino i ip j).size
    rw [hj, update_self, update_self]
    exact ⟨ht, hs⟩
  · show _ ∧ (update s.dino i ip' j).size = (update s.dino i ip j).size
    rw [update_of_ne hj, update_of_ne hj]
    exact ⟨rfl, rfl⟩

/-- One cell of the inode at hand changes. -/
theorem held_cell {t : BlkSys k} {c : Cell} {x : Option Nat} (hip : ip.type ≠ none) (hip' : ip'.type ≠ none)
    (hself : ∀ c', heldBy t.blk ip' c' = if c' = c then x else heldBy s.blk ip c')
    (hrest : ∀ i' ≠ i, ∀ c', t.held (i', c') = s.held (i', c')) :
    (t.setDino i ip').held = update (s.setDino i ip).held (i, c) x := by
  funext ⟨i', c'⟩
  by_cases hi : i' = i
  · rw [hi, held_self ip' hip', hself]
    by_cases hc : c' = c
    · rw [if_pos hc, hc, update_self]
    · rw [if_neg hc, update_of_ne (by simp [hc]), held_self _ hip]
  · rw [update_of_ne (by simp [hi]), held_other hi, held_other hi, hrest i' hi]

variable {a : Fin (NDIRECT + 1)}

/-- What the inode holds after a new, zeroed block went into an empty cell of `addrs`. -/
theorem heldBy_fillAddr
    (h0 : ip.addrs a = 0) (hb : b ≠ 0) (hne : ip.addrs INDIRECT ≠ b) (c : Cell) :
    heldBy (update blk b fun _ => 0) (ip.setAddr a b) c
      = if c = .inl a then some b else heldBy blk ip c := by
  cases c with
  | inl a' =>
    show nonzero (update ip.addrs a b a') = _
    by_cases ha : a' = a
    · rw [ha, update_self, if_pos rfl]
      exact nonzero_eq_some.mpr ⟨rfl, hb⟩
    · rw [update_of_ne ha, if_neg (by simp [ha])]
      rfl
  | inr j =>
    show entryOf _ (update ip.addrs a b INDIRECT) j = entryOf blk (ip.addrs INDIRECT) j
    by_cases ha : a = INDIRECT
    · -- a new indirect block has no entries
      subst ha
      rw [update_self, h0]
      unfold entryOf
      rw [if_neg hb, update_self, if_pos rfl]
      rfl
    · rw [update_of_ne (Ne.symm ha)]
      unfold entryOf
      rw [update_of_ne hne]

variable {addr : Nat}

theorem Inv.fillAddr (h : Inv sb (s.setDino i ip)) (hip : ip.type ≠ none) (hrun : s.fillAddr (ballocIn sb) ip a = .ok (s', ip', addr)) :
    Grew sb i s ip s' ip' ∧ (addr ≠ 0 → ip'.addrs a = addr) ∧ SameData (s.setDino i ip) (s'.setDino i ip') := by
  unfold BlkSys.fillAddr at hrun
  split at hrun
  · rename_i h0
    rcases halloc : s.balloc sb with ⟨s₁, b⟩
    rw [ballocIn, halloc] at hrun
    have hrun : (if b = 0 then (s₁, ip, 0) else (s₁, ip.setAddr a b, b)) = (s', ip', addr) := Except.ok.inj hrun
    rcases h.balloc halloc with ⟨rfl, rfl⟩ | ⟨hb, hdata, hfree, rfl⟩
    · rw [if_pos rfl] at hrun
      cases hrun
      exact ⟨.refl h, fun hne => absurd rfl hne, fun _ _ => rfl⟩
    rw [if_neg hb] at hrun
    obtain ⟨rfl, hrest⟩ := Prod.mk.inj hrun
    obtain ⟨rfl, rfl⟩ := Prod.mk.inj hrest
    have hunheld := h.unheld hfree
    have hne : ip.addrs INDIRECT ≠ b := by
      intro heq
      refine hunheld (i, .inl INDIRECT) ?_
      rw [held_self _ hip]
      exact nonzero_eq_some.mpr ⟨heq, hb⟩
    have hcell : (s.setDino i ip).held (i, .inl a) = none := by
      rw [held_self _ hip]
      show nonzero (ip.addrs a) = none
      rw [h0]
      rfl
    have hheld : (((s.setUsed b true).setBlk b fun _ => 0).setDino i (ip.setAddr a b)).held
        = update (s.setDino i ip).held (i, .inl a) (some b) := by
      refine held_cell hip hip (heldBy_fillAddr h0 hb hne) fun i' hi c => holds_setBlk _ ?_ c
      have := hunheld (i', .inl INDIRECT)
      rw [held_other hi] at this
      exact this
    have hnew : ∀ c x, (s.setDino i ip).held c = some x → x ≠ b := fun c x hx hxb => hunheld c (hxb ▸ hx)
    obtain ⟨hinv, hg, hsame⟩ := h.attach hcell hdata hfree rfl hheld (update_self ..)
      (fun c x _ hx => update_of_ne (hnew c x hx) ..) fun j => dino_setDino s i ip (ip.setAddr a b) rfl rfl j
    exact ⟨⟨hinv, hg, rfl, rfl, rfl, rfl⟩, fun _ => update_self .., hsame⟩
  · cases hrun
    exact ⟨.refl h, fun _ => rfl, fun _ _ => rfl⟩

variable {j : Fin NINDIRECT}

/-- What the inode holds after a new block went into an empty entry of its indirect block. -/
theorem heldBy_fillEntry {ind : Nat}
    (hind : ip.addrs INDIRECT = ind) (h0 : ind ≠ 0) (hb : b ≠ 0) (hne : ind ≠ b) (c : Cell) :
    heldBy (update (update blk b fun _ => 0) ind
        (update (update blk b (fun _ => 0) ind) j b)) ip c
      = if c = .inr j then some b else heldBy blk ip c := by
  cases c with
  | inl a => rw [if_neg (by simp)]; rfl
  | inr j' =>
    unfold heldBy entryOf
    dsimp only
    rw [hind, if_neg h0, if_neg h0, update_self, update_of_ne hne]
    by_cases hj : j' = j
    · rw [hj, update_self, if_pos rfl]
      exact nonzero_eq_some.mpr ⟨rfl, hb⟩
    · rw [update_of_ne hj, if_neg (by simp [hj])]

theorem Inv.fillEntry (h : Inv sb (s.setDino i ip)) (hip : ip.type ≠ none) {ind : Nat}
    (hind : ip.addrs INDIRECT = ind) (h0 : ind ≠ 0) (hrun : s.fillEntry (ballocIn sb) ind j = .ok (s', addr)) :
    Grew sb i s ip s' ip ∧ (addr ≠ 0 → (s'.setDino i ip).held (i, .inr j) = some addr)
      ∧ SameData (s.setDino i ip) (s'.setDino i ip) := by
  have hheld_ind : (s.setDino i ip).held (i, .inl INDIRECT) = some ind := by
    rw [held_self _ hip]
    exact nonzero_eq_some.mpr ⟨hind, h0⟩
  unfold BlkSys.fillEntry at hrun
  split at hrun
  · rename_i hz
    rcases halloc : s.balloc sb with ⟨s₁, b⟩
    rw [ballocIn, halloc] at hrun
    have hrun : (if b = 0 then (s₁, 0) else (s₁.setBlk ind (update (s₁.blk ind) j b), b)) = (s', addr) := Except.ok.inj hrun
    rcases h.balloc halloc with ⟨rfl, rfl⟩ | ⟨hb, hdata, hfree, rfl⟩
    · rw [if_pos rfl] at hrun
      cases hrun
      exact ⟨.refl h, fun hne => absurd rfl hne, fun _ _ => rfl⟩
    rw [if_neg hb] at hrun
    obtain ⟨rfl, rfl⟩ := Prod.mk.inj hrun
    have hunheld := h.unheld hfree
    have hne : ind ≠ b := fun heq => hunheld _ (heq ▸ hheld_ind)
    have hcell : (s.setDino i ip).held (i, .inr j) = none := by
      rw [held_self _ hip]
      show entryOf s.blk (ip.addrs INDIRECT) j = none
      rw [hind]
      unfold entryOf
      rw [if_neg h0, hz]
      rfl
    have hheld : ((((s.setUsed b true).setBlk b fun _ => 0).setBlk ind (update
        (((s.setUsed b true).setBlk b fun _ => 0).blk ind) j b)).setDino i ip).held
        = update (s.setDino i ip).held (i, .inr j) (some b) := by
      refine held_cell hip hip (heldBy_fillEntry hind h0 hb hne) fun i' hi c => ?_
      -- the indirect block is held by `i` alone
      have hb' : s.held (i', .inl INDIRECT) ≠ some b := by
        have := hunheld (i', .inl INDIRECT)
        rw [held_other hi] at this
        exact this
      have hind' : s.held (i', .inl INDIRECT) ≠ some ind := by
        intro hx
        have hcells := h.owned.unique (i := (i', Sum.inl INDIRECT)) (by rw [held_other hi]; exact hx)
          hheld_ind
        exact hi (congrArg Prod.fst hcells)
      refine (holds_setBlk _ ?_ c).trans (holds_setBlk _ hb' c)
      show holds (update s.blk b fun _ => 0) (s.dino i') (.inl INDIRECT) ≠ some ind
      exact hind'
    have hold : ∀ c x, c.2 ≠ .inl INDIRECT → (s.setDino i ip).held c = some x → x ≠ ind ∧ x ≠ b := fun c x hc hx =>
      ⟨fun he => hc (congrArg Prod.snd (h.owned.unique (he ▸ hx) hheld_ind)), fun he => hunheld c (he ▸ hx)⟩
    obtain ⟨hinv, hg, hsame⟩ := h.attach hcell hdata hfree rfl hheld
      ((update_of_ne hne.symm ..).trans (update_self ..))
      (fun c x hc hx => (update_of_ne (hold c x hc hx).1 ..).trans (update_of_ne (hold c x hc hx).2 ..))
      fun j => dino_setDino s i ip ip rfl rfl j
    refine ⟨⟨hinv, hg, rfl, rfl, rfl, rfl⟩, fun _ => ?_, hsame⟩
    rw [hheld, update_self]
  · rename_i hz
    cases hrun
    refine ⟨.refl h, fun hne => ?_, fun _ _ => rfl⟩
    rw [held_self _ hip]
    show entryOf s.blk (ip.addrs INDIRECT) j = _
    rw [hind]
    unfold entryOf
    rw [if_neg h0]
    exact nonzero_eq_some.mpr ⟨rfl, hne⟩

/-- **`bmap`** attaches what it allocates, and returns a block of the file. -/
theorem Inv.bmap (h : Inv sb (s.setDino i ip)) (hip : ip.type ≠ none) (hrun : s.bmap (ballocIn sb) ip bn = .ok (s', ip', addr)) :
    Grew sb i s ip s' ip' ∧ (addr ≠ 0 → ∃ c, cellOf bn = some c ∧ c ≠ .inl INDIRECT
      ∧ (s'.setDino i ip').held (i, c) = some addr) ∧ SameData (s.setDino i ip) (s'.setDino i ip') := by
  unfold BlkSys.bmap at hrun
  split at hrun
  · rename_i hbn
    obtain ⟨hgrew, haddr, hsame⟩ := h.fillAddr hip hrun
    refine ⟨hgrew, fun hne => ⟨_, dif_pos hbn, fun hcell => ?_, ?_⟩, hsame⟩
    · have hval := congrArg Fin.val (Sum.inl.inj hcell)
      have hval : bn = NDIRECT := hval
      omega
    · rw [held_self _ (by rw [hgrew.type_eq]; exact hip)]
      exact nonzero_eq_some.mpr ⟨haddr hne, hne⟩
  rename_i hbn
  split at hrun
  · rename_i hbn'
    obtain ⟨⟨s₁, ip₁, ind⟩, hfill, hrun⟩ := bind_ok hrun
    dsimp only at hrun
    obtain ⟨hgrew, hind, hsame⟩ := h.fillAddr hip hfill
    split at hrun
    · cases hrun
      exact ⟨hgrew, fun hne => absurd rfl hne, hsame⟩
    rename_i h0
    obtain ⟨⟨s₂, addr₂⟩, hentry, hrun⟩ := bind_ok hrun
    cases hrun
    obtain ⟨hgrew', haddr, hsame'⟩ := hgrew.inv.fillEntry (by rw [hgrew.type_eq]; exact hip) (hind h0) h0 hentry
    refine ⟨hgrew.trans hgrew', fun hne => ⟨.inr ⟨bn - NDIRECT, hbn'⟩, ?_, by simp, haddr hne⟩,
      fun c hc => (hsame' c hc).trans (hsame c hc)⟩
    unfold cellOf
    rw [dif_neg hbn, dif_pos hbn']
  · cases hrun

/-! ## §4. `writei` and `readi`. -/

/-- Data is written into a block of a file. -/
theorem Inv.setBlk (h : Inv sb s) {c : Cell} (hc : s.held (i, c) = some b) (hcell : c ≠ .inl INDIRECT)
    (x : Fin NINDIRECT → Nat) : Inv sb (s.setBlk b x) ∧ (s.setBlk b x).held = s.held := by
  have hheld : (s.setBlk b x).held = s.held := by
    refine held_setBlk x fun i' hi' => hcell ?_
    exact (congrArg Prod.snd (h.owned.unique hi' hc)).symm
  refine ⟨⟨?_, h.super, h.metaUsed, fun j hj bn hbn => ?_⟩, hheld⟩
  · rw [hheld]
    exact h.owned
  · obtain ⟨c', hc', hne⟩ := h.whole j hj bn hbn
    exact ⟨c', hc', by rw [hheld]; exact hne⟩

/-- After a turn that wrote the block at `off`, everything up to the new offset is there. -/
theorem Mapped.advance {off m : Nat} (h : s.Mapped i off) (hm : m ≤ BSIZE - off % BSIZE)
    {c : Cell} (hc : cellOf (off / BSIZE) = some c) (hheld : s.held (i, c) ≠ none) : s.Mapped i (off + m) := by
  intro bn hbn
  have hpos : 0 < BSIZE := by decide
  have hdiv := Nat.div_add_mod off BSIZE
  have hmod := Nat.mod_lt off hpos
  have hle : bn ≤ off / BSIZE := by
    refine Nat.le_of_lt_succ (Nat.lt_of_mul_lt_mul_right (a := BSIZE) ?_)
    rw [Nat.succ_mul, Nat.mul_comm (off / BSIZE)]
    omega
  rcases Nat.lt_or_eq_of_le hle with hlt | rfl
  · refine h bn ?_
    have hmul : (bn + 1) * BSIZE ≤ off / BSIZE * BSIZE := Nat.mul_le_mul_right BSIZE hlt
    rw [Nat.succ_mul, Nat.mul_comm (off / BSIZE)] at hmul
    omega
  · exact ⟨c, hc, hheld⟩

/-- **The loop of `writei`**, by induction on the turns left. -/
theorem Inv.writeLoop (copyin : Copyin) (src n fuel : Nat) :
    ∀ (s : BlkSys k) (ip : Dino) (off tot : Nat) {off' : Nat}, Inv sb (s.setDino i ip) →
      ip.type ≠ none → (s.setDino i ip).Mapped i off → writeLoop sb copyin src n fuel s ip off tot = .ok (s', ip', off') →
      Grew sb i s ip s' ip' ∧ (s'.setDino i ip').Mapped i off' := by
  induction fuel with
  | zero =>
    intro s ip off tot off' h hip hmap hrun
    cases hrun
    exact ⟨.refl h, hmap⟩
  | succ fuel ih =>
    intro s ip off tot off' h hip hmap hrun
    unfold BlkSys.writeLoop at hrun
    split at hrun
    · cases hrun
      exact ⟨.refl h, hmap⟩
    obtain ⟨⟨s₁, ip₁, addr⟩, hbmap, hrun⟩ := bind_ok hrun
    obtain ⟨hgrew, hcell, -⟩ := h.bmap hip hbmap
    have hmap₁ := hmap.grows hgrew.grows
    dsimp only at hrun
    split at hrun
    · cases hrun
      exact ⟨hgrew, hmap₁⟩
    rename_i haddr
    obtain ⟨c, hc, hne, hheld⟩ := hcell haddr
    -- what the copy leaves in the block does not matter here
    generalize copyin (u64 (src + tot)) (min (n - tot) (BSIZE - off % BSIZE)) = copied at hrun
    generalize storeBytes (s₁.blk addr) (off % BSIZE) copied.1 = y at hrun
    obtain ⟨hinv, hsame⟩ := hgrew.inv.setBlk hheld hne y
    -- the block is written, whether or not the whole copy succeeds
    have hwrote : Grew sb i s ip (s₁.setBlk addr y) ip₁ := by
      refine hgrew.trans ⟨hinv, fun c' x hx => ?_, rfl, rfl, rfl, rfl⟩
      show ((s₁.setDino i ip₁).setBlk addr y).held c' = some x
      rw [hsame]
      exact hx
    have hmap₂ : ((s₁.setBlk addr y).setDino i ip₁).Mapped i off :=
      hmap.grows hwrote.grows
    split at hrun
    · have hheld' : ((s₁.setBlk addr y).setDino i ip₁).held (i, c) ≠ none := by
        show ((s₁.setDino i ip₁).setBlk addr y).held (i, c) ≠ none
        rw [hsame, hheld]
        exact nofun
      obtain ⟨hgrew', hmap'⟩ := ih _ _ _ _ hwrote.inv (by rw [hgrew.type_eq]; exact hip)
        (hmap₂.advance (Nat.min_le_right ..) hc hheld') hrun
      exact ⟨hwrote.trans hgrew', hmap'⟩
    · cases hrun
      exact ⟨hwrote, hmap₂⟩

theorem Inv.setCore (h : Inv sb s) (i : Inum k) (x : Option Dino) : Inv sb (s.setCore i x) :=
  ⟨h.owned, h.super, h.metaUsed, h.whole⟩

theorem held_setSize (size : Nat) :
    (s.setDino i { ip with size := size }).held = (s.setDino i ip).held := by
  funext ⟨i', c⟩
  by_cases hi : i' = i
  · subst hi
    show holds s.blk (update s.dino i' _ i') c = holds s.blk (update s.dino i' _ i') c
    rw [update_self, update_self]
    rfl
  · rw [held_other hi, held_other hi]

/-- The size in the inode is raised to what has been written. -/
theorem Inv.setSize (h : Inv sb (s.setDino i ip)) {size : Nat} (hmap : (s.setDino i ip).Mapped i size) :
    Inv sb (s.setDino i { ip with size := size }) := by
  refine ⟨?_, h.super, h.metaUsed, fun j hj bn hbn => ?_⟩
  · rw [held_setSize]
    exact h.owned
  rw [held_setSize]
  by_cases hji : j = i
  · subst hji
    refine hmap bn ?_
    have hbn : bn * BSIZE < (update s.dino j { ip with size := size } j).size := hbn
    rw [update_self] at hbn
    exact hbn
  have hj : (update s.dino i _ j).type ≠ none := hj
  have hbn : bn * BSIZE < (update s.dino i _ j).size := hbn
  rw [update_of_ne hji] at hj hbn
  refine h.whole j ?_ bn ?_
  · show (update s.dino i ip j).type ≠ none
    rw [update_of_ne hji]
    exact hj
  · show bn * BSIZE < (update s.dino i ip j).size
    rw [update_of_ne hji]
    exact hbn

/-! ### Reading, with any allocation. -/

/-- **A mapped block is found** without allocating. -/
theorem bmap_mapped (hip : ip.type ≠ none) {c : Cell} (hc : cellOf bn = some c)
    (hheld : (s.setDino i ip).held (i, c) ≠ none) :
    ∃ addr, addr ≠ 0 ∧ ∀ alloc : Alloc k, s.bmap alloc ip bn = .ok (s, ip, addr) := by
  rw [held_self _ hip] at hheld
  unfold cellOf at hc
  unfold bmap
  split at hc
  · rename_i hbn
    cases hc
    have hne : ip.addrs ⟨bn, Nat.lt_succ_of_lt hbn⟩ ≠ 0 := fun h0 => hheld (if_pos h0)
    refine ⟨_, hne, fun alloc => ?_⟩
    rw [dif_pos hbn, fillAddr, if_neg hne]
  rename_i hbn
  split at hc
  · rename_i hbn'
    cases hc
    have hheld : entryOf s.blk (ip.addrs INDIRECT) ⟨bn - NDIRECT, hbn'⟩ ≠ none := hheld
    unfold entryOf at hheld
    have h0 : ip.addrs INDIRECT ≠ 0 := fun h0 => hheld (if_pos h0)
    rw [if_neg h0] at hheld
    have hne : s.blk (ip.addrs INDIRECT) ⟨bn - NDIRECT, hbn'⟩ ≠ 0 := fun hz => hheld (if_pos hz)
    refine ⟨_, hne, fun alloc => ?_⟩
    rw [dif_neg hbn, dif_pos hbn', fillAddr, if_neg h0]
    show (if ip.addrs INDIRECT = 0 then _ else _) = _
    rw [if_neg h0, fillEntry, if_neg hne]
    rfl
  · cases hc

/-- The loop of `readi` leaves everything as it is, and copies the same bytes, whatever the allocation would do. -/
theorem readLoop_mapped (copyout : Copyout) (hip : ip.type ≠ none) (hmap : (s.setDino i ip).Mapped i ip.size) (n fuel : Nat) :
    ∀ off tot, off + (n - tot) ≤ ip.size →
      ∃ bs ok, ∀ alloc, readLoop alloc copyout n fuel s ip off tot = .ok (s, ip, bs, ok) := by
  induction fuel with
  | zero => exact fun _ _ _ => ⟨[], true, fun _ => rfl⟩
  | succ fuel ih =>
    intro off tot hoff
    by_cases hend : n ≤ tot
    · refine ⟨[], true, fun alloc => ?_⟩
      rw [readLoop, if_pos hend]
    obtain ⟨c, hc, hheld⟩ := hmap (off / BSIZE) (by
      have := Nat.div_mul_le_self off BSIZE
      omega)
    obtain ⟨addr, hne, hbmap⟩ := bmap_mapped hip hc hheld
    have hm : min (n - tot) (BSIZE - off % BSIZE) ≤ n - tot := Nat.min_le_left ..
    obtain ⟨rest, ok, hrest⟩ := ih (off + min (n - tot) (BSIZE - off % BSIZE)) (tot + min (n - tot) (BSIZE - off % BSIZE)) (by omega)
    cases hcopy : copyout tot ((List.range (min (n - tot) (BSIZE - off % BSIZE))).map
        fun t => byteAt (s.blk addr) (off % BSIZE + t)) with
    | true =>
      refine ⟨(List.range (min (n - tot) (BSIZE - off % BSIZE))).map (fun t => byteAt (s.blk addr) (off % BSIZE + t)) ++ rest,
        ok, fun alloc => ?_⟩
      rw [readLoop, if_neg hend, hbmap alloc]
      show (if addr = 0 then _ else if copyout _ _ = true then _ else _) = _
      rw [if_neg hne, if_pos hcopy, hrest alloc]
      rfl
    | false =>
      refine ⟨[], false, fun alloc => ?_⟩
      rw [readLoop, if_neg hend, hbmap alloc]
      show (if addr = 0 then _ else if copyout _ _ = true then _ else _) = _
      rw [if_neg hne, if_neg (Bool.eq_false_iff.mp hcopy)]

theorem readi_mapped (copyout : Copyout) (hip : ip.type ≠ none) (hmap : (s.setDino i ip).Mapped i ip.size) (off n : Nat) :
    ∃ bs r, ∀ alloc, s.readi alloc ip off n copyout = .ok (s, ip, bs, r) := by
  by_cases hoff : ip.size < off ∨ (off + n) % 2 ^ 32 < off
  · refine ⟨[], 0, fun alloc => ?_⟩
    rw [readi, if_pos hoff]
  · obtain ⟨bs, ok, hrun⟩ := readLoop_mapped copyout hip hmap (if ip.size < off + n then ip.size - off else n)
      (if ip.size < off + n then ip.size - off else n) off 0 (by split <;> omega)
    refine ⟨bs, if ok then (bs.length : Int) else -1, fun alloc => ?_⟩
    rw [readi, if_neg hoff]
    dsimp only
    rw [hrun alloc]
    rfl

/-! ## §5. `itrunc`. -/

variable {T : Inum k × Cell → Option Nat}

/-- A held block is in use, and a data block. -/
theorem used_of_marked (h : Exact (mark sb s) T) (hc : T c = some b) : sb.isData b = true ∧ s.used b = true :=
  Bool.and_eq_true_iff.mp (h.marked hc)

/-- **A held block is freed.** -/
theorem free_marked (h : Exact (mark sb s) T) (hc : T c = some b) : s.bfree b = .ok (s.setUsed b false)
      ∧ Exact (mark sb (s.setUsed b false)) (update T c none) := by
  obtain ⟨hdata, hused⟩ := used_of_marked h hc
  refine ⟨bfree_ok hused, ?_⟩
  rw [mark_setUsed hdata]
  exact h.free hc

/-- The bits of the metadata blocks stay. -/
theorem metaUsed_free (h : Exact (mark sb s) T) (hc : T c = some b) (hmeta : ∀ b < sb.nmeta, s.used b = true) :
    ∀ b' < sb.nmeta, (s.setUsed b false).used b' = true := by
  intro b' hb'
  have hdata := (used_of_marked h hc).1
  have hne : b' ≠ b := by
    rintro rfl
    have := (of_decide_eq_true hdata).1
    omega
  show update s.used b false b' = true
  rw [update_of_ne hne]
  exact hmeta b' hb'

/-- What is left of `held` in the middle of `itrunc`: the metadata is marked,
and the rest of the disk is as it was. -/
structure Truncating (sb : Super) (i : Inum k) (s₀ s : BlkSys k) (ip : Dino) : Prop where
  owned : Exact (mark sb s) (s.setDino i ip).held
  metaUsed : ∀ b < sb.nmeta, s.used b = true
  blk_eq : s.blk = s₀.blk
  dino_eq : s.dino = s₀.dino
  core_eq : s.core = s₀.core

theorem setAddr_self (ip : Dino) (a : Fin (NDIRECT + 1)) (b : Nat) : (ip.setAddr a b).addrs a = b := by
  show update ip.addrs a b a = b
  rw [update_self]

theorem setAddr_of_ne (ip : Dino) {a' : Fin (NDIRECT + 1)} (b : Nat) (h : a' ≠ a) :
    (ip.setAddr a b).addrs a' = ip.addrs a' := by
  show update ip.addrs a b a' = ip.addrs a'
  rw [update_of_ne h]

theorem heldBy_clear {a : Fin NDIRECT} (c : Cell) :
    heldBy blk (ip.setAddr a.castSucc 0) c
      = if c = .inl a.castSucc then none else heldBy blk ip c := by
  have hne : INDIRECT ≠ a.castSucc := (Fin.castSucc_lt_last a).ne'
  cases c with
  | inl a' =>
    show nonzero (update ip.addrs a.castSucc 0 a') = _
    by_cases ha : a' = a.castSucc
    · rw [ha, update_self, if_pos rfl]
      rfl
    · rw [update_of_ne ha, if_neg (by simp [ha])]
      rfl
  | inr j =>
    show entryOf blk (update ip.addrs a.castSucc 0 INDIRECT) j = _
    rw [update_of_ne hne]
    rfl

/-- **The first loop of `itrunc`**, over the cells still to be cleared. -/
theorem truncDirect_loop {s₀ : BlkSys k} (l : List (Fin NDIRECT)) :
    ∀ (s : BlkSys k) (ip : Dino), ip.type ≠ none → Truncating sb i s₀ s ip →
      ∃ s' ip', l.foldlM truncDirect (s, ip) = .ok (s', ip') ∧ Truncating sb i s₀ s' ip'
        ∧ ip'.type = ip.type ∧ ip'.addrs INDIRECT = ip.addrs INDIRECT
        ∧ (∀ a ∈ l, ip'.addrs a.castSucc = 0) ∧ ∀ a, ip.addrs a = 0 → ip'.addrs a = 0 := by
  induction l with
  | nil => exact fun s ip _ h => ⟨s, ip, rfl, h, rfl, rfl, nofun, fun _ ha => ha⟩
  | cons a l ih =>
    intro s ip hip h
    have hturn : ∃ s₁ ip₁, truncDirect (s, ip) a = .ok (s₁, ip₁) ∧ Truncating sb i s₀ s₁ ip₁
        ∧ ip₁.type = ip.type ∧ ip₁.addrs INDIRECT = ip.addrs INDIRECT ∧ ip₁.addrs a.castSucc = 0
        ∧ ∀ a', ip.addrs a' = 0 → ip₁.addrs a' = 0 := by
      unfold truncDirect
      split
      · rename_i h0
        exact ⟨s, ip, rfl, h, rfl, rfl, h0, fun _ ha => ha⟩
      rename_i h0
      have hheld : (s.setDino i ip).held (i, .inl a.castSucc) = some (ip.addrs a.castSucc) := by
        rw [held_self _ hip]
        exact nonzero_eq_some.mpr ⟨rfl, h0⟩
      obtain ⟨hrun, hexact⟩ := free_marked h.owned hheld
      have htable : ((s.setUsed (ip.addrs a.castSucc) false).setDino i (ip.setAddr a.castSucc 0)).held
          = update (s.setDino i ip).held (i, .inl a.castSucc) none := by
        exact held_cell hip hip heldBy_clear fun _ _ _ => rfl
      refine ⟨s.setUsed (ip.addrs a.castSucc) false, ip.setAddr a.castSucc 0, by rw [hrun]; rfl,
        ⟨?_, metaUsed_free h.owned hheld h.metaUsed, h.blk_eq, h.dino_eq, h.core_eq⟩, rfl,
        setAddr_of_ne ip 0 (Fin.castSucc_lt_last a).ne', setAddr_self .., fun a' ha' => ?_⟩
      · rw [htable]
        exact hexact
      · by_cases haa : a' = a.castSucc
        · rw [haa, setAddr_self]
        · rw [setAddr_of_ne ip 0 haa]
          exact ha'
    obtain ⟨s₁, ip₁, hrun₁, h₁, ht₁, hind₁, hzero₁, hkeep₁⟩ := hturn
    obtain ⟨s', ip', hrun, h', ht, hind, hzero, hkeep⟩ := ih s₁ ip₁ (by rw [ht₁]; exact hip) h₁
    refine ⟨s', ip', ?_, h', ht.trans ht₁, hind.trans hind₁, fun a' ha' => ?_,
      fun a' ha' => hkeep a' (hkeep₁ a' ha')⟩
    · rw [List.foldlM_cons, hrun₁]
      exact hrun
    · rcases List.mem_cons.mp ha' with rfl | hm
      · exact hkeep _ hzero₁
      · exact hzero a' hm

/-- The table without the entries `l` of the indirect block of `i`. -/
def dropEntries (T : Inum k × Cell → Option Nat) (i : Inum k) (l : List (Fin NINDIRECT)) :
    Inum k × Cell → Option Nat :=
  fun c => if ∃ j ∈ l, c = (i, .inr j) then none else T c

theorem dropEntries_cons (T : Inum k × Cell → Option Nat) (i : Inum k) (j : Fin NINDIRECT)
    (l : List (Fin NINDIRECT)) : dropEntries T i (j :: l) = dropEntries (update T (i, .inr j) none) i l := by
  funext c
  unfold dropEntries
  by_cases hl : ∃ j' ∈ l, c = (i, .inr j')
  · rw [if_pos hl, if_pos]
    obtain ⟨j', hj', hc⟩ := hl
    exact ⟨j', List.mem_cons_of_mem j hj', hc⟩
  rw [if_neg hl]
  by_cases hc : c = (i, .inr j)
  · rw [hc, update_self, if_pos]
    exact ⟨j, List.mem_cons_self, rfl⟩
  · rw [update_of_ne hc, if_neg]
    rintro ⟨j', hj', hc'⟩
    rcases List.mem_cons.mp hj' with rfl | hm
    · exact hc hc'
    · exact hl ⟨j', hm, hc'⟩

/-- **The second loop of `itrunc`.**  The entries are not cleared on disk; they
are dropped from the table one by one. -/
theorem truncIndirect_loop {a : Fin NINDIRECT → Nat} (l : List (Fin NINDIRECT)) (hnodup : l.Nodup) :
    ∀ (s : BlkSys k) (T : Inum k × Cell → Option Nat), Exact (mark sb s) T →
      (∀ b < sb.nmeta, s.used b = true) → (∀ j ∈ l, T (i, .inr j) = nonzero (a j)) →
      ∃ s', l.foldlM (truncIndirect a) s = .ok s' ∧ Exact (mark sb s') (dropEntries T i l)
        ∧ (∀ b < sb.nmeta, s'.used b = true) ∧ s'.blk = s.blk ∧ s'.dino = s.dino ∧ s'.core = s.core := by
  induction l with
  | nil =>
    intro s T h hmeta _
    refine ⟨s, rfl, ?_, hmeta, rfl, rfl, rfl⟩
    have hsame : dropEntries T i [] = T := by
      funext c
      exact if_neg (by rintro ⟨_, hm, _⟩; cases hm)
    rw [hsame]
    exact h
  | cons j l ih =>
    intro s T h hmeta hentries
    obtain ⟨hnot, hnodup⟩ := List.nodup_cons.mp hnodup
    have hj := hentries j List.mem_cons_self
    have hturn : ∃ s₁, truncIndirect a s j = .ok s₁
        ∧ Exact (mark sb s₁) (update T (i, .inr j) none)
        ∧ (∀ b < sb.nmeta, s₁.used b = true) ∧ s₁.blk = s.blk ∧ s₁.dino = s.dino ∧ s₁.core = s.core := by
      unfold truncIndirect
      split
      · rename_i h0
        refine ⟨s, rfl, ?_, hmeta, rfl, rfl, rfl⟩
        have hnone : T (i, .inr j) = none := by
          rw [hj, h0]
          rfl
        rw [← hnone, update_eq_self]
        exact h
      · rename_i h0
        have hsome : T (i, .inr j) = some (a j) := hj.trans (nonzero_eq_some.mpr ⟨rfl, h0⟩)
        obtain ⟨hrun, hexact⟩ := free_marked h hsome
        exact ⟨_, hrun, hexact, metaUsed_free h hsome hmeta, rfl, rfl, rfl⟩
    obtain ⟨s₁, hrun₁, h₁, hmeta₁, hb₁, hd₁, hc₁⟩ := hturn
    obtain ⟨s', hrun, h', hmeta', hb, hd, hc⟩ := ih hnodup s₁ _ h₁ hmeta₁ fun j' hj' => by
      have hne : j' ≠ j := fun he => hnot (he ▸ hj')
      rw [update_of_ne (by simp [hne])]
      exact hentries j' (List.mem_cons_of_mem j hj')
    refine ⟨s', ?_, ?_, hmeta', hb.trans hb₁, hd.trans hd₁, hc.trans hc₁⟩
    · rw [List.foldlM_cons, hrun₁]
      exact hrun
    · rw [dropEntries_cons]
      exact h'

/-- **The indirect block** and its entries are freed; the inode then holds nothing. -/
theorem Truncating.rest {s₀ : BlkSys k} (h : Truncating sb i s₀ s ip) (hip : ip.type ≠ none)
    (hdirect : ∀ a : Fin NDIRECT, ip.addrs a.castSucc = 0) :
    ∃ s' ip', s.truncRest ip = .ok (s', ip') ∧ Truncating sb i s₀ s' ip' ∧ ip'.type = ip.type ∧ ∀ a, ip'.addrs a = 0 := by
  have hall : ∀ ip' : Dino, (∀ a : Fin NDIRECT, ip'.addrs a.castSucc = 0) → ip'.addrs INDIRECT = 0 →
      ∀ a, ip'.addrs a = 0 := by
    intro ip' hd hl a
    induction a using Fin.lastCases with
    | last => exact hl
    | cast a => exact hd a
  unfold truncRest
  by_cases h0 : ip.addrs INDIRECT = 0
  · exact ⟨s, ip, if_pos h0, h, rfl, hall ip hdirect h0⟩
  have hentries : ∀ j ∈ List.finRange NINDIRECT, (s.setDino i ip).held (i, .inr j)
      = nonzero (s.blk (ip.addrs INDIRECT) j) := by
    intro j _
    rw [held_self _ hip]
    exact if_neg h0
  obtain ⟨s₂, hrun₂, h₂, hmeta₂, hb₂, hd₂, hc₂⟩ := truncIndirect_loop (List.finRange NINDIRECT)
    (List.nodup_finRange NINDIRECT) s _ h.owned h.metaUsed hentries
  have hind : dropEntries (s.setDino i ip).held i (List.finRange NINDIRECT) (i, .inl INDIRECT)
      = some (ip.addrs INDIRECT) := by
    unfold dropEntries
    rw [if_neg (by rintro ⟨_, _, hc⟩; simp at hc), held_self _ hip]
    exact nonzero_eq_some.mpr ⟨rfl, h0⟩
  obtain ⟨hrun₃, h₃⟩ := free_marked h₂ hind
  refine ⟨s₂.setUsed (ip.addrs INDIRECT) false, ip.setAddr INDIRECT 0, ?_,
    ⟨?_, metaUsed_free h₂ hind hmeta₂, hb₂.trans h.blk_eq, hd₂.trans h.dino_eq, hc₂.trans h.core_eq⟩, rfl,
    hall _ (fun a => ?_) (setAddr_self ..)⟩
  · rw [if_neg h0, hrun₂]
    show (s₂.bfree (ip.addrs INDIRECT) >>= fun s => Except.ok (s, ip.setAddr INDIRECT 0)) = _
    rw [hrun₃]
    rfl
  · have htable : ((s₂.setUsed (ip.addrs INDIRECT) false).setDino i (ip.setAddr INDIRECT 0)).held
        = update (dropEntries (s.setDino i ip).held i (List.finRange NINDIRECT))
          (i, .inl INDIRECT) none := by
      funext ⟨i', c⟩
      by_cases hi : i' = i
      · subst hi
        rw [held_self (ip.setAddr INDIRECT 0) hip]
        cases c with
        | inl a =>
          show nonzero ((ip.setAddr INDIRECT 0).addrs a) = _
          by_cases ha : a = INDIRECT
          · rw [ha, setAddr_self, update_self]
            rfl
          · rw [setAddr_of_ne ip 0 ha, update_of_ne (by simp [ha])]
            unfold dropEntries
            rw [if_neg (by rintro ⟨_, _, hc⟩; simp at hc), held_self _ hip]
            rfl
        | inr j =>
          show entryOf _ ((ip.setAddr INDIRECT 0).addrs INDIRECT) j = _
          rw [setAddr_self, update_of_ne (by simp)]
          unfold dropEntries
          rw [if_pos ⟨j, List.mem_finRange j, rfl⟩]
          rfl
      · rw [update_of_ne (by simp [hi]), held_other hi]
        unfold dropEntries
        rw [if_neg (by rintro ⟨_, _, hc⟩; simp [hi] at hc), held_other hi]
        show holds s₂.blk (s₂.dino i') c = holds s.blk (s.dino i') c
        rw [hb₂, hd₂]
    rw [htable]
    exact h₃
  · rw [setAddr_of_ne ip 0 (show a.castSucc ≠ INDIRECT from (Fin.castSucc_lt_last a).ne)]
    exact hdirect a

/-- The other inodes when one is written. -/
theorem setDino_of_ne {j : Inum k} (h : j ≠ i) : (s.setDino i ip).dino j = s.dino j := by
  show update s.dino i ip j = s.dino j
  rw [update_of_ne h]

theorem setDino_self : (s.setDino i ip).dino i = ip := by
  show update s.dino i ip i = ip
  rw [update_self]

/-- **`itrunc`** frees precisely what the inode holds. -/
theorem Inv.itrunc (h : Inv sb (s.setDino i ip)) (hip : ip.type ≠ none) :
    ∃ s' ip', s.itrunc i ip = .ok (s', ip') ∧ Inv sb s' ∧ ip'.type = ip.type ∧ ip'.size = 0
      ∧ (∀ a, ip'.addrs a = 0) ∧ s'.dino = update s.dino i ip' ∧ s'.core = update s.core i (some ip') := by
  obtain ⟨s₁, ip₁, hrun₁, h₁, ht₁, -, hzero₁, -⟩ := truncDirect_loop (List.finRange NDIRECT) s ip hip
    (⟨h.owned, h.metaUsed, rfl, rfl, rfl⟩ : Truncating sb i s s ip)
  obtain ⟨s₂, ip₂, hrun₂, h₂, ht₂, hzero₂⟩ := h₁.rest (by rw [ht₁]; exact hip)
    fun a => hzero₁ a (List.mem_finRange a)
  have hinv : Inv sb (s₂.setDino i { ip₂ with size := 0 }) := by
    refine ⟨?_, h.super, h₂.metaUsed, fun j hj bn hbn => ?_⟩
    · rw [held_setSize]
      exact h₂.owned
    by_cases hji : j = i
    · rw [hji, setDino_self] at hbn
      exact absurd hbn (Nat.not_lt_zero _)
    -- other files are as they were
    have hdino : s₂.dino j = s.dino j := congrFun h₂.dino_eq j
    rw [setDino_of_ne hji, hdino] at hj hbn
    obtain ⟨c, hc, hne⟩ := h.whole j (by rw [setDino_of_ne hji]; exact hj) bn
      (by rw [setDino_of_ne hji]; exact hbn)
    refine ⟨c, hc, ?_⟩
    rw [held_other hji] at hne ⊢
    show holds s₂.blk (s₂.dino j) c ≠ none
    rw [hdino, h₂.blk_eq]
    exact hne
  refine ⟨s₂.iupdate i { ip₂ with size := 0 }, { ip₂ with size := 0 }, ?_, hinv.setCore i _, ht₂.trans ht₁,
    rfl, hzero₂, ?_, ?_⟩
  · unfold BlkSys.itrunc
    rw [hrun₁]
    show (s₁.truncRest ip₁ >>= _) = _
    rw [hrun₂]
    rfl
  · show update s₂.dino i _ = _
    rw [h₂.dino_eq]
  · show update s₂.core i _ = _
    rw [h₂.core_eq]

/-! ## §6. Every run. -/

/-- Between two calls: the copies in the inode table are those on disk. -/
structure Good (sb : Super) (s : BlkSys k) : Prop where
  inv : Inv sb s
  agree : ∀ i x, s.core i = some x → x = s.dino i ∧ x.type ≠ none

theorem setDino_eq_self (h : ip = s.dino i) : s.setDino i ip = s := by
  subst h
  unfold setDino
  rw [update_eq_self]

variable (h : Good sb s)
include h

theorem Good.ilock (hrun : s.ilock i = .ok (s', ip)) : Good sb s' ∧ ip = s'.dino i ∧ ip.type ≠ none := by
  unfold BlkSys.ilock at hrun
  have hget : (s.core i).getD (s.dino i) = s.dino i := by
    cases hc : s.core i with
    | none => rfl
    | some x => exact (h.agree i x hc).1
  rw [hget] at hrun
  dsimp only at hrun
  split at hrun
  · cases hrun
  rename_i htype
  cases hrun
  refine ⟨⟨h.inv.setCore i _, fun j x hx => ?_⟩, rfl, htype⟩
  have hx : update s.core i (some (s.dino i)) j = some x := hx
  by_cases hj : j = i
  · rw [hj, update_self] at hx
    cases hx
    exact ⟨by rw [hj]; rfl, htype⟩
  · rw [update_of_ne hj] at hx
    exact h.agree j x hx

/-- The inode is written back at the end of a call. -/
theorem Good.iupdate (hdino : s'.dino = s.dino) (hcore : s'.core = s.core)
    (hinv : Inv sb (s'.setDino i ip)) (hip : ip.type ≠ none) : Good sb (s'.iupdate i ip) := by
  refine ⟨hinv.setCore i _, fun j x hx => ?_⟩
  have hx : update s'.core i (some ip) j = some x := hx
  show x = update s'.dino i ip j ∧ _
  by_cases hj : j = i
  · rw [hj, update_self] at hx
    cases hx
    rw [hj, update_self]
    exact ⟨rfl, hip⟩
  · rw [update_of_ne hj, hcore] at hx
    rw [update_of_ne hj, hdino]
    exact h.agree j x hx

theorem Good.itrunc (hip : ip = s.dino i) (htype : ip.type ≠ none) :
    ∃ s' ip', s.itrunc i ip = .ok (s', ip') ∧ Good sb s' ∧ s'.dino i = ip' ∧ ip'.size = 0 ∧ ∀ a, ip'.addrs a = 0 := by
  have hinv : Inv sb (s.setDino i ip) := by rw [setDino_eq_self hip]; exact h.inv
  obtain ⟨s', ip', hrun, hinv', htype', hsize, hzero, hdino, hcore⟩ := hinv.itrunc htype
  have hself : s'.dino i = ip' := by rw [hdino, update_self]
  refine ⟨s', ip', hrun, ⟨hinv', fun j x hx => ?_⟩, hself, hsize, hzero⟩
  rw [hcore] at hx
  by_cases hj : j = i
  · rw [hj, update_self] at hx
    cases hx
    rw [hj]
    exact ⟨hself.symm, by rw [htype']; exact htype⟩
  · rw [update_of_ne hj] at hx
    rw [hdino, update_of_ne hj]
    exact h.agree j x hx

theorem Good.writei (hip : ip = s.dino i) (htype : ip.type ≠ none) {src off n : Nat} {r : Int}
    {copyin : Copyin} (hrun : s.writei sb copyin i ip src off n = .ok (s', ip', r)) : Good sb s' := by
  unfold BlkSys.writei at hrun
  split at hrun
  · cases hrun
    exact h
  rename_i hoff
  split at hrun
  · cases hrun
    exact h
  obtain ⟨⟨s₁, ip₁, off₁⟩, hloop, hrest⟩ := bind_ok hrun
  have hself := setDino_eq_self hip
  have hinv : Inv sb (s.setDino i ip) := by rw [hself]; exact h.inv
  have hmap : (s.setDino i ip).Mapped i off := by
    intro bn hbn
    rw [hself]
    exact h.inv.whole i (hip ▸ htype) bn (by rw [← hip]; omega)
  obtain ⟨hgrew, hmap₁⟩ := Inv.writeLoop copyin src n n s ip off 0 hinv htype hmap hloop
  have htype₁ : ip₁.type ≠ none := by rw [hgrew.type_eq]; exact htype
  cases hrest
  split
  · exact h.iupdate hgrew.dino_eq hgrew.core_eq (hgrew.inv.setSize hmap₁) htype₁
  · exact h.iupdate hgrew.dino_eq hgrew.core_eq hgrew.inv htype₁

theorem Good.readi (hip : ip = s.dino i) (htype : ip.type ≠ none) (off n : Nat) (copyout : Copyout) :
    ∃ bs r, ∀ alloc, s.readi alloc ip off n copyout = .ok (s, ip, bs, r) := by
  have hmap : (s.setDino i ip).Mapped i ip.size := by
    rw [setDino_eq_self hip, hip]
    exact h.inv.whole i (hip ▸ htype)
  exact readi_mapped copyout htype hmap off n

omit h

/-- An inode without blocks holds nothing. -/
theorem holds_zero (ip : Dino) (hzero : ∀ a, ip.addrs a = 0) (c : Cell) : holds blk ip c = none := by
  unfold holds
  split
  · rfl
  cases c with
  | inl a =>
    show nonzero (ip.addrs a) = none
    rw [hzero]
    rfl
  | inr j =>
    show entryOf blk (ip.addrs INDIRECT) j = none
    rw [hzero]
    rfl

theorem held_empty (x : Option InodeType) (size : Nat) (hzero : ∀ a, ip.addrs a = 0)
    (hdino : s.dino i = ip ∨ (s.dino i).type = none) : (s.setDino i ⟨x, size, ip.addrs⟩).held = s.held := by
  funext ⟨i', c⟩
  by_cases hi : i' = i
  · subst hi
    have hleft : (s.setDino i' ⟨x, size, ip.addrs⟩).held (i', c) = none := by
      show holds s.blk (update s.dino i' _ i') c = none
      rw [update_self]
      exact holds_zero ⟨x, size, ip.addrs⟩ hzero c
    rw [hleft]
    show none = holds s.blk (s.dino i') c
    rcases hdino with hip | hfree
    · rw [hip]
      exact (holds_zero _ hzero c).symm
    · unfold holds
      rw [if_pos hfree]
  · exact held_other hi c

include h

/-- An inode without blocks is allocated or freed. -/
theorem Good.retype (x : Option InodeType) (ip : Dino) (hzero : ∀ a, ip.addrs a = 0)
    (hdino : s.dino i = ip ∨ (s.dino i).type = none) : Inv sb (s.setDino i ⟨x, 0, ip.addrs⟩) := by
  have hheld := held_empty x 0 hzero hdino
  refine ⟨?_, h.inv.super, h.inv.metaUsed, fun j hj bn hbn => ?_⟩
  · rw [hheld]
    exact h.inv.owned
  by_cases hji : j = i
  · rw [hji, setDino_self] at hbn
    exact absurd hbn (Nat.not_lt_zero _)
  · rw [setDino_of_ne hji] at hj hbn
    rw [hheld]
    exact h.inv.whole j hj bn hbn

theorem Good.step {c : BlkStep k} (hstep : s.step sb c = .ok s') : Good sb s' := by
  cases c with
  | ialloc i type =>
    unfold BlkSys.step at hstep
    dsimp only at hstep
    split at hstep
    · cases hstep
    rename_i hfree
    have hfree : (s.dino i).type = none := not_not.mp hfree
    cases hstep
    refine ⟨h.retype (some type) ⟨some type, 0, fun _ => 0⟩ (fun _ => rfl) (.inr hfree), fun j x hx => ?_⟩
    have hji : j ≠ i := by
      rintro rfl
      obtain ⟨rfl, htype⟩ := h.agree j x hx
      exact htype hfree
    rw [setDino_of_ne hji]
    exact h.agree j x hx
  | write i src off n copyin =>
    obtain ⟨⟨s₁, ip⟩, hlock, hstep⟩ := bind_ok hstep
    obtain ⟨hgood, hip, htype⟩ := h.ilock hlock
    obtain ⟨⟨s₂, ip₂, r⟩, hwrite, hrest⟩ := bind_ok hstep
    cases hrest
    exact hgood.writei hip htype hwrite
  | read i off n copyout =>
    obtain ⟨⟨s₁, ip⟩, hlock, hstep⟩ := bind_ok hstep
    obtain ⟨hgood, hip, htype⟩ := h.ilock hlock
    obtain ⟨⟨s₂, ip₂, bs, r⟩, hread, hrest⟩ := bind_ok hstep
    obtain ⟨bs', r', hrun⟩ := hgood.readi hip htype off n copyout
    cases (hrun (ballocIn sb)).symm.trans hread
    cases hrest
    refine ⟨hgood.inv.setCore i _, fun j x hx => ?_⟩
    have hx : update s₁.core i (some ip) j = some x := hx
    by_cases hj : j = i
    · rw [hj, update_self] at hx
      cases hx
      rw [hj]
      exact ⟨hip, htype⟩
    · rw [update_of_ne hj] at hx
      exact hgood.agree j x hx
  | trunc i =>
    obtain ⟨⟨s₁, ip⟩, hlock, hstep⟩ := bind_ok hstep
    obtain ⟨hgood, hip, htype⟩ := h.ilock hlock
    obtain ⟨s₂, ip₂, hrun, hgood₂, -⟩ := hgood.itrunc hip htype
    obtain ⟨⟨s₃, ip₃⟩, htrunc, hrest⟩ := bind_ok hstep
    cases hrun.symm.trans htrunc
    exact Except.ok.inj hrest ▸ hgood₂
  | free i =>
    obtain ⟨⟨s₁, ip⟩, hlock, hstep⟩ := bind_ok hstep
    obtain ⟨hgood, hip, htype⟩ := h.ilock hlock
    obtain ⟨s₂, ip₂, hrun, hgood₂, hip₂, hsize, hzero⟩ := hgood.itrunc hip htype
    obtain ⟨⟨s₃, ip₃⟩, htrunc, hrest⟩ := bind_ok hstep
    cases hrun.symm.trans htrunc
    cases hrest
    have hinv : Inv sb (s₂.setDino i { ip₂ with type := none }) := by
      have := hgood₂.retype none ip₂ hzero (.inl hip₂)
      rw [← hsize] at this
      exact this
    refine ⟨(hinv.setCore i _).setCore i none, fun j x hx => ?_⟩
    have hx : update (update s₂.core i _) i none j = some x := hx
    have hji : j ≠ i := by
      rintro rfl
      rw [update_self] at hx
      cases hx
    rw [update_of_ne hji, update_of_ne hji] at hx
    show x = update s₂.dino i _ j ∧ _
    rw [update_of_ne hji]
    exact hgood₂.agree j x hx
  | evict i =>
    cases hstep
    refine ⟨h.inv.setCore i none, fun j x hx => ?_⟩
    have hx : update s.core i none j = some x := hx
    have hji : j ≠ i := by
      rintro rfl
      rw [update_self] at hx
      cases hx
    rw [update_of_ne hji] at hx
    exact h.agree j x hx

omit h

variable {err : BlkFault}

/-- A computation that fails has failed in one of its parts. -/
theorem bind_error {α β : Type} {x : BlkResult α} {f : α → BlkResult β}
    (h : (x >>= f) = .error err) : x = .error err ∨ ∃ a, x = .ok a ∧ f a = .error err := by
  cases x with
  | error e =>
    exact .inl (congrArg Except.error (Except.error.inj h))
  | ok a => exact .inr ⟨a, rfl, h⟩

theorem fillAddr_ok (s : BlkSys k) (ip : Dino) (a : Fin (NDIRECT + 1)) : s.fillAddr (ballocIn sb) ip a ≠ .error err := by
  unfold BlkSys.fillAddr
  split
  · exact nofun
  · exact nofun

theorem fillEntry_ok (s : BlkSys k) (ind : Nat) (j : Fin NINDIRECT) : s.fillEntry (ballocIn sb) ind j ≠ .error err := by
  unfold BlkSys.fillEntry
  split
  · exact nofun
  · exact nofun

/-- `bmap` fails only beyond the last block of a file. -/
theorem bmap_error (h : s.bmap (ballocIn sb) ip bn = .error err) : err = .panic "bmap: out of range" ∧ MAXFILE ≤ bn := by
  unfold BlkSys.bmap at h
  split at h
  · exact absurd h (fillAddr_ok s ip _)
  split at h
  · rcases bind_error h with hfill | ⟨⟨s₁, ip₁, ind⟩, -, hrest⟩
    · exact absurd hfill (fillAddr_ok s ip _)
    dsimp only at hrest
    split at hrest
    · cases hrest
    · rcases bind_error hrest with hentry | ⟨_, -, hend⟩
      · exact absurd hentry (fillEntry_ok s₁ ind _)
      · cases hend
  · exact ⟨(Except.error.inj h).symm, by unfold MAXFILE; omega⟩

theorem writeLoop_error {copyin : Copyin} {src n : Nat} (fuel : Nat) : ∀ (s : BlkSys k) (ip : Dino) (off tot : Nat),
      writeLoop sb copyin src n fuel s ip off tot = .error err → err = .panic "bmap: out of range" := by
  induction fuel with
  | zero =>
    intro s ip off tot h
    cases h
  | succ fuel ih =>
    intro s ip off tot h
    unfold BlkSys.writeLoop at h
    split at h
    · cases h
    rcases bind_error h with hb | ⟨⟨s₁, ip₁, addr⟩, -, hrest⟩
    · exact (bmap_error hb).1
    dsimp only at hrest
    split at hrest
    · cases hrest
    · split at hrest
      · exact ih _ _ _ _ hrest
      · cases hrest

theorem ilock_error (h : s.ilock i = .error err) : err = .panic "ilock: no type" := by
  unfold BlkSys.ilock at h
  dsimp only at h
  split at h
  · exact (Except.error.inj h).symm
  · cases h

/-- **No call frees a free block.** -/
theorem Good.no_double_free (h : Good sb s) (c : BlkStep k) : s.step sb c ≠ .error (.panic "freeing free block") := by
  intro herr
  cases c with
  | ialloc i type =>
    unfold BlkSys.step at herr
    dsimp only at herr
    split at herr
    · cases herr
    · cases herr
  | write i src off n copyin =>
    rcases bind_error herr with hlock | ⟨⟨s₁, ip⟩, -, herr⟩
    · exact absurd (BlkFault.panic.inj (ilock_error hlock)) (by decide)
    rcases bind_error herr with hwrite | ⟨⟨s₂, ip₂⟩, -, hrest⟩
    · unfold BlkSys.writei at hwrite
      split at hwrite
      · cases hwrite
      · split at hwrite
        · cases hwrite
        · rcases bind_error hwrite with hloop | ⟨⟨s₂, ip₂, off₂⟩, -, hrest⟩
          · exact absurd (BlkFault.panic.inj (writeLoop_error _ _ _ _ _ hloop)) (by decide)
          · cases hrest
    · cases hrest
  | read i off n copyout =>
    rcases bind_error herr with hlock | ⟨⟨s₁, ip⟩, hlock, herr⟩
    · exact absurd (BlkFault.panic.inj (ilock_error hlock)) (by decide)
    obtain ⟨hgood, hip, htype⟩ := h.ilock hlock
    rcases bind_error herr with hread | ⟨⟨s₂, ip₂⟩, -, hrest⟩
    · obtain ⟨bs, r, hrun⟩ := hgood.readi hip htype off n copyout
      cases (hrun (ballocIn sb)).symm.trans hread
    · cases hrest
  | trunc i | free i =>
    rcases bind_error herr with hlock | ⟨⟨s₁, ip⟩, hlock, herr⟩
    · exact absurd (BlkFault.panic.inj (ilock_error hlock)) (by decide)
    · obtain ⟨hgood, hip, htype⟩ := h.ilock hlock
      obtain ⟨s₂, ip₂, hrun, -⟩ := hgood.itrunc hip htype
      rcases bind_error herr with htrunc | ⟨⟨s₃, ip₃⟩, -, hrest⟩
      · cases hrun.symm.trans htrunc
      · cases hrest
  | evict i => cases herr

/-- Every block number held is that of a data block in use, no block is held
twice, and every data block in use is held. -/
structure Ownership (sb : Super) (s : BlkSys k) : Prop where
  data : ∀ c b, s.held c = some b → sb.isData b = true ∧ s.used b = true
  once : ∀ b c c', s.held c = some b → s.held c' = some b → c = c'
  covered : ∀ b, sb.isData b = true → s.used b = true → ∃ c, s.held c = some b

theorem ownership_iff : Ownership sb s ↔ Exact (mark sb s) s.held := by
  constructor
  · intro h b
    by_cases hm : mark sb s b = true
    · obtain ⟨hdata, hused⟩ := Bool.and_eq_true_iff.mp hm
      obtain ⟨c, hc⟩ := h.covered b hdata hused
      have hpos := Lib.holders_pos hc
      have hle : holders s.held b ≤ 1 := by
        refine Finset.card_le_one.mpr fun c hc c' hc' => ?_
        exact h.once b c c' (Finset.mem_filter.mp hc).2 (Finset.mem_filter.mp hc').2
      rw [if_pos hm]
      omega
    · rw [if_neg hm]
      refine Lib.holders_eq_zero.mpr fun c hc => hm ?_
      obtain ⟨hdata, hused⟩ := h.data c b hc
      exact Bool.and_eq_true_iff.mpr ⟨hdata, hused⟩
  · intro h
    refine ⟨fun c b hc => used_of_marked h hc, fun b c c' hc hc' => h.unique hc hc', fun b hdata hused => ?_⟩
    by_contra hno
    have hb := h b
    have hm : mark sb s b = true := Bool.and_eq_true_iff.mpr ⟨hdata, hused⟩
    rw [if_pos hm, Lib.holders_eq_zero.mpr fun c hc => hno ⟨c, hc⟩] at hb
    cases hb

/-- A sound image: besides the ownership of blocks, the metadata blocks are
marked and no inode has a hole. -/
structure Image (sb : Super) (s : BlkSys k) : Prop where
  own : Ownership sb s
  super : 0 < sb.nmeta
  metaUsed : ∀ b < sb.nmeta, s.used b = true
  whole : ∀ i, (s.dino i).type ≠ none → s.Mapped i (s.dino i).size
  cold : ∀ i, s.core i = none

/-- The states of all sequences of calls. -/
abbrev Reachable (sb : Super) (s : BlkSys k) : Prop :=
  Lib.Reach (Image sb) (fun _ _ => True) (step sb) s

theorem Reachable.good (h : Reachable sb s) : Good sb s := by
  refine h.invariant (fun s hs => ?_) fun s c s' hs _ hstep => hs.step hstep
  refine ⟨⟨ownership_iff.mp hs.own, hs.super, hs.metaUsed, hs.whole⟩, fun i x hx => ?_⟩
  rw [hs.cold i] at hx
  cases hx

/-- **Disk blocks.**  In every state that calls on a sound image lead to, whatever
failed on the way, every data block in use is held exactly once and nothing
else is held, on disk and in the inode table, and no call can free a block
that is free. -/
theorem block_ownership (h : Reachable sb s) : Ownership sb s ∧ (∀ i x, s.core i = some x → x = s.dino i)
      ∧ ∀ c, s.step sb c ≠ .error (.panic "freeing free block") := by
  have hgood := h.good
  exact ⟨ownership_iff.mpr hgood.inv.owned, fun i x hx => (hgood.agree i x hx).1, hgood.no_double_free⟩

instance (priority := 2001) neZero_three : NeZero (1 + 2) := ⟨nofun⟩

/-- A disk with two metadata blocks, two data blocks and an inode of `size` bytes
without blocks. -/
def smallDisk (type : InodeType) (size : Nat) : BlkSys 1 where
  used := fun b => decide (b < 2)
  blk := fun _ _ => 0
  dino := fun i => if i = 2 then ⟨some type, size, fun _ => 0⟩ else ⟨none, 0, fun _ => 0⟩
  core := fun _ => none

theorem smallDisk_held (type : InodeType) (size : Nat) (c : Inum 1 × Cell) : (smallDisk type size).held c = none := by
  refine holds_zero _ (fun a => ?_) c.2
  show (if c.1 = 2 then (⟨some type, size, fun _ => 0⟩ : Dino) else ⟨none, 0, fun _ => 0⟩).addrs a = 0
  split <;> rfl

theorem smallDisk_own (type : InodeType) (size : Nat) : Ownership ⟨4, 2⟩ (smallDisk type size) := by
  refine ⟨fun c b hc => ?_, fun b c c' hc => ?_, fun b hdata hused => ?_⟩
  · rw [smallDisk_held] at hc
    cases hc
  · rw [smallDisk_held] at hc
    cases hc
  · have h1 := (of_decide_eq_true hdata).1
    have h2 : b < 2 := of_decide_eq_true hused
    dsimp only at h1
    omega

/-- A buffer of sevens, of which `readable` bytes can be read. -/
def sevens (readable : Nat) : Copyin := fun src len =>
  (List.replicate (min len (readable - src)) 7, decide (src + len ≤ readable))

/-- A block is written, and the next write fails after four bytes. -/
def writeRun : List (BlkStep 1) :=
  [.write 2 0 0 1024 (sevens 1024), .write 2 0 1024 10 (sevens 4), .evict 2]

theorem smallDisk_image : Image ⟨4, 2⟩ (smallDisk .T_FILE 0) := by
  refine ⟨smallDisk_own .T_FILE 0, by decide, fun b hb => decide_eq_true hb, fun i _ bn hbn => ?_, fun _ => rfl⟩
  have hsize : ((smallDisk .T_FILE 0).dino i).size = 0 := by
    unfold smallDisk
    dsimp only
    split <;> rfl
  rw [hsize] at hbn
  exact absurd hbn (Nat.not_lt_zero _)

theorem block_ownership_writeRun : ∃ s : BlkSys 1, Reachable ⟨4, 2⟩ s ∧ s.used 3 = true ∧ (∃ c, s.held c = some 3)
      ∧ s.step ⟨4, 2⟩ (.free 2) ≠ .error (.panic "freeing free block") := by
  have hreach : ∃ s : BlkSys 1, Reachable ⟨4, 2⟩ s ∧ decide (s.used 3 = true) = true :=
    Lib.Reach.of_reaches writeRun _ smallDisk_image (by decide +kernel)
  obtain ⟨s, hs, htest⟩ := hreach
  have hused := of_decide_eq_true htest
  obtain ⟨hown, -, hfree⟩ := block_ownership hs
  exact ⟨s, hs, hused, hown.covered 3 (by decide) hused, hfree _⟩

/-- The `unlink` of a name that is not there, in a directory with a hole: `dirlookup` reads the 64 entries, and the inode is
forgotten. -/
def holeRun : List (BlkStep 1) := (List.range 64).map (fun e => .read 2 (16 * e) 16 fun _ _ => true) ++ [.evict 2]

/-- On an image with a hole a read attaches a block in memory only, and it is lost. -/
theorem block_ownership_hole :
    ∃ s : BlkSys 1, Lib.Reach (fun s => Ownership ⟨4, 2⟩ s ∧ ∀ i, s.core i = none) (fun _ _ => True)
      (step ⟨4, 2⟩) s ∧ ¬ Ownership ⟨4, 2⟩ s := by
  have hreach : ∃ s : BlkSys 1, Lib.Reach (fun s => Ownership ⟨4, 2⟩ s ∧ ∀ i, s.core i = none)
      (fun _ _ => True) (step ⟨4, 2⟩) s
      ∧ decide (s.used 2 = true ∧ ∀ i a, (s.dino i).addrs a = 0) = true :=
    Lib.Reach.of_reaches holeRun _ ⟨smallDisk_own .T_DIR 1024, fun _ => rfl⟩ (by decide +kernel)
  obtain ⟨s, hs, htest⟩ := hreach
  obtain ⟨hused, hzero⟩ := of_decide_eq_true htest
  refine ⟨s, hs, fun hown => ?_⟩
  obtain ⟨c, hc⟩ := hown.covered 2 (by decide) hused
  have hnone : s.held c = none := holds_zero _ (hzero c.1) c.2
  rw [hnone] at hc
  cases hc

end BlkSys

end Xv6
