/-
  Xv6.Fs.InodeTable — what holds of the inode table in every run.

  The table and the links hold each other up.  A directory entry names an
  inode with links, so `iget` never takes an inode that `iput` is freeing;
  and because the holder of a lock sees the inode as it is on disk, the calls
  that change links change the counts that are there.

  The one hole is the entry `..` of a directory that was removed while some
  process still used it: its parent may be removed and freed meanwhile.

  Main results: `inode_table`, `inode_table_race`.
-/
import Xv6.Fs.ItableInv
import Xv6.Fs.ItableLinks

namespace Xv6

open Function (update_comm update_eq_self_iff update_idem update_of_ne update_self)
open Lib (holders holders_eq_zero)

/-- The inode of a link that is counted and not made. -/
def Pend.link {m k : Nat} : Pend m k → Option (Ino m k)
  | .counted i => some i
  | _ => .none

/-- The table entry of a link that is erased and not counted. -/
def Pend.entry {m k : Nat} : Pend m k → Option Entry
  | .erased e => some e
  | _ => .none

namespace ItSys

variable {m k n : Nat} {s s' : ItSys m k n} {p q : Slot} {e e' d : Entry} {i : Ino m k} {o : Fin n}

/-! ## §1. The links of a state. -/

/-- The links, as the table and the disk have them. -/
def view (s : ItSys m k n) : LinkView m k n where
  type i := (s.disk i).type
  nlink i := (s.disk i).nlink
  dotdot := s.dotdot
  dirent := s.dirent
  counted p := (s.pend p).link
  erased p := (s.pend p).entry.map s.key

/-- The invariant of table and links. -/
structure Inv (s : ItSys m k n) : Prop where
  table : s.TabInv
  links : s.view.Consistent
  /-- an erased link is counted before its inode is unlocked -/
  held : ∀ p e, s.pend p = .erased e → s.lock e = some p ∧ s.pc p ≠ .freeing e ∧ s.pc p ≠ .freed e

theorem erased_of_pend (h : s.pend p = .erased e) : s.view.erased p = some (s.key e) := by
  show ((s.pend p).entry).map s.key = _
  rw [h]
  rfl

theorem pend_of_erased (h : s.view.erased p = some i) : ∃ e, s.pend p = .erased e ∧ s.key e = i := by
  have h : ((s.pend p).entry).map s.key = some i := h
  cases hp : s.pend p with
  | none | counted j => rw [hp] at h; cases h
  | erased e =>
    rw [hp] at h
    exact ⟨e, rfl, Option.some.inj h⟩

theorem erased_none (hp : ∀ e, s.pend p ≠ .erased e) : s.view.erased p = none := by
  cases hv : s.view.erased p with
  | none => rfl
  | some i =>
    obtain ⟨e, he, -⟩ := pend_of_erased hv
    exact absurd he (hp e)

/-- The view depends on the disk, the directories and the pending links only. -/
theorem view_congr (htype : ∀ i, (s'.disk i).type = (s.disk i).type)
    (hnlink : ∀ i, (s'.disk i).nlink = (s.disk i).nlink) (hdot : s'.dotdot = s.dotdot)
    (hent : s'.dirent = s.dirent) (hpend : s'.pend = s.pend)
    (hkey : ∀ p e, s.pend p = .erased e → s'.key e = s.key e) : s'.view = s.view := by
  have herased : s'.view.erased = s.view.erased := by
    funext p
    show ((s'.pend p).entry).map s'.key = ((s.pend p).entry).map s.key
    rw [hpend]
    cases hp : s.pend p with
    | none | counted j => rfl
    | erased e => exact congrArg some (hkey p e hp)
  have hcounted : s'.view.counted = s.view.counted := by
    funext p
    show (s'.pend p).link = (s.pend p).link
    rw [hpend]
  have htype : s'.view.type = s.view.type := funext htype
  have hnlink : s'.view.nlink = s.view.nlink := funext hnlink
  have heta : ∀ v : LinkView m k n,
      v = ⟨v.type, v.nlink, v.dotdot, v.dirent, v.counted, v.erased⟩ := fun _ => rfl
  rw [heta s'.view, htype, hnlink, hcounted, herased, heta s.view]
  show LinkView.mk _ _ s'.dotdot s'.dirent _ _ = LinkView.mk _ _ s.dotdot s.dirent _ _
  rw [hdot, hent]

/-- A locked inode is written back with its type. -/
theorem view_update (x : DiskInode) (hx : x.type = (s.disk (s.key e)).type) :
    (s.update e x).view = { s.view with nlink := Function.update s.view.nlink (s.key e) x.nlink } := by
  have htype : (s.update e x).view.type = s.view.type := by
    funext i
    show (Function.update s.disk (s.key e) x i).type = (s.disk i).type
    by_cases hi : i = s.key e
    · rw [hi, update_self, hx]
    · rw [update_of_ne hi]
  have hnlink : (s.update e x).view.nlink = Function.update s.view.nlink (s.key e) x.nlink :=
    Function.comp_update DiskInode.nlink s.disk (s.key e) x
  show LinkView.mk (s.update e x).view.type (s.update e x).view.nlink _ _ _ _ = _
  rw [htype, hnlink]
  rfl

theorem view_setPend (x : Pend m k) :
    (s.setPend p x).view = { s.view with counted := Function.update s.view.counted p x.link,
                                         erased := Function.update s.view.erased p (x.entry.map s.key) } := by
  have hcounted : (s.setPend p x).view.counted = Function.update s.view.counted p x.link :=
    Function.comp_update Pend.link s.pend p x
  have herased : (s.setPend p x).view.erased = Function.update s.view.erased p (x.entry.map s.key) :=
    Function.comp_update (fun y : Pend m k => y.entry.map s.key) s.pend p x
  show LinkView.mk _ _ _ _ (s.setPend p x).view.counted (s.setPend p x).view.erased = _
  rw [hcounted, herased]
  rfl

variable (h : s.Inv)
include h

/-! ## §2. Between the table and the links. -/

theorem Inv.linked_type (hi : (s.disk i).nlink ≠ 0) : (s.disk i).type ≠ none :=
  fun htype => hi (h.links.free i htype)

variable (hlock : s.lock e = some p)
include hlock

/-- Nobody is removing an inode that another process has locked. -/
theorem Inv.unerased (hfree : s.Free p) :
    holders s.view.erased (s.key e) = 0 := by
  refine holders_eq_zero.mpr fun q hq => ?_
  obtain ⟨e', hpend, hkey⟩ := pend_of_erased hq
  have hheld := (h.held q e' hpend).1
  obtain rfl := h.table.uniq e' e (h.table.ref_pos hheld) (h.table.ref_pos hlock) hkey
  rw [hlock] at hheld
  cases hheld
  exact hfree.2 e' hpend

omit hlock

/-- Who has locked a directory, and is not removing it, sees it alive while it has links. -/
theorem Inv.live (hlock : s.lock d = some p) (hfree : s.Free p)
    (hlinked : (s.copy d).nlink ≠ 0) : s.view.live (s.key d) := by
  obtain ⟨-, hcopy, -⟩ := h.table.holder hlock hfree.1
  refine ⟨?_, h.unerased hlock hfree⟩
  show (s.disk (s.key d)).nlink ≠ 0
  rw [← hcopy]
  exact hlinked

/-- A step that touches neither links nor the locks of erased links. -/
theorem Inv.of_view (htab : s'.TabInv) (hview : s'.view = s.view) (hpend : s'.pend = s.pend)
    (hheld : ∀ q e, s.pend q = .erased e → s'.lock e = some q ∧ s'.pc q ≠ .freeing e ∧ s'.pc q ≠ .freed e) : s'.Inv :=
  ⟨htab, hview ▸ h.links, fun q e hq => hheld q e (hpend ▸ hq)⟩

/-- References change; the rest stays. -/
theorem Inv.of_refs (htab : s'.TabInv) (hdisk : s'.disk = s.disk) (hdot : s'.dotdot = s.dotdot)
    (hent : s'.dirent = s.dirent) (hpend : s'.pend = s.pend) (hlock : s'.lock = s.lock) (hpc : s'.pc = s.pc)
    (hkey : ∀ e, 0 < s.ref e → s'.key e = s.key e) : s'.Inv := by
  refine h.of_view htab (view_congr (fun i => by rw [hdisk]) (fun i => by rw [hdisk]) hdot hent hpend
    fun q e hq => hkey e (h.table.ref_pos (h.held q e hq).1)) hpend fun q e hq => ?_
  rw [hlock, hpc]
  exact h.held q e hq

/-- **`iget`.** -/
theorem Inv.iget (htype : (s.disk i).type ≠ none)
    (hnofree : ∀ e q, s.key e = i → s.pc q ≠ .freeing e) (hnofresh : ∀ q, s.pc q ≠ .allocating i)
    (hrun : s.iget p i = .ok s') : s'.Inv := by
  obtain ⟨htab, hdisk, hent, hdot, hpend, hlock, hpc, hkey⟩ := h.table.iget htype hnofree hnofresh hrun
  exact h.of_refs htab hdisk hdot hent hpend hlock hpc hkey

/-- **`iget` of an inode with links**, which nobody is freeing or taking. -/
theorem Inv.iget_linked (hi : (s.disk i).nlink ≠ 0) (hrun : s.iget p i = .ok s') : s'.Inv := by
  refine h.iget (h.linked_type hi) (fun e q hk hq => ?_) (fun q hq => hi (h.table.fresh q i hq).2.1) hrun
  have := (h.table.sole q e hq).1
  rw [hk] at this
  exact hi this

omit h in
theorem lookup_ok {found : Option (Inum k)} (hrun : s.lookup p d found = .ok s') :
    ∃ j, found = some j ∧ s.iget p ((s.key d).1, j) = .ok s' := by
  unfold lookup at hrun
  split at hrun
  · cases hrun
  · cases found with
    | none => cases hrun
    | some j => exact ⟨j, rfl, hrun⟩

/-- A locked inode can be found again. -/
theorem Inv.iget_held (hlock : s.lock d = some p) (hpc : s.pc p = .idle)
    (hrun : s.iget p (s.key d) = .ok s') : s'.Inv := by
  obtain ⟨htype, hnofree, hnofresh⟩ := h.table.holder_kept hlock hpc
  refine h.iget htype (fun e q hk hq => ?_) hnofresh hrun
  have hpos : 0 < s.ref e := h.table.ref_pos (h.table.own q e (.inl hq))
  obtain rfl := h.table.uniq e d hpos (h.table.ref_pos hlock) hk
  exact hnofree q hq

/-! ## §3. The functions of `fs.c`. -/

omit h in
/-- A reference is handed over: the order of the two updates does not matter. -/
theorem pass_eq (hpq : p ≠ q) (hpos : 0 < s.ref e) : (s.dropRef p e).addRef q e = (s.addRef q e).dropRef p e := by
  have href : (s.dropRef p e).ref e + 1 = (s.addRef q e).ref e - 1 := by
    show (s.setRef p e _ _).ref e + 1 = (s.setRef q e _ _).ref e - 1
    rw [ref_setRef, ref_setRef, if_pos rfl, if_pos rfl]
    omega
  have hq : (s.dropRef p e).refs q = s.refs q := update_of_ne (Ne.symm hpq) ..
  have hp : (s.addRef q e).refs p = s.refs p := update_of_ne hpq ..
  unfold addRef dropRef at *
  unfold setRef at *
  simp only at href hq hp ⊢
  rw [href, hq, hp, update_idem, update_idem, update_comm hpq]

theorem Inv.pass (hpq : p ≠ q) (hspare : s.Spare p e) : ((s.dropRef p e).addRef q e).Inv := by
  have hpos : 0 < s.refs p e := Nat.lt_of_le_of_lt (Nat.zero_le _) hspare
  have href : 0 < s.ref e := Nat.lt_of_lt_of_le hpos (h.table.refs_le p e)
  rw [pass_eq hpq href]
  have hspare' : (s.addRef q e).Spare p e := by
    unfold Spare
    rw [show (s.addRef q e).refs p = s.refs p from update_of_ne hpq ..]
    exact hspare
  exact h.of_refs ((h.table.addRef href (h.table.spare_kept hspare)).dropRef hspare') rfl rfl rfl rfl rfl rfl
    fun _ _ => rfl

/-- **`idup`.** -/
theorem Inv.idup (hpc : s.pc p = .idle) (hpos : 0 < s.refs p e) : (s.addRef p e).Inv := by
  have hlive : s.stale p e < s.refs p e := by
    rw [stale_idle hpc]
    exact hpos
  have hkept := h.table.kept hlive fun hf => nomatch hpc.symm.trans hf
  exact h.of_refs (h.table.addRef (Nat.lt_of_lt_of_le hpos (h.table.refs_le p e)) hkept)
    rfl rfl rfl rfl rfl rfl fun _ _ => rfl

/-- A free lock is taken. -/
theorem Inv.held_acquire (hlock : s.lock e = none) (x : Option Slot) (hq : s.pend q = .erased e') :
    Function.update s.lock e x e' = some q := by
  have hheld := (h.held q e' hq).1
  have hne : e' ≠ e := fun he => by
    rw [he, hlock] at hheld
    cases hheld
  rw [update_of_ne hne]
  exact hheld

/-- A process moves on to `x`. -/
theorem Inv.held_setPc (hq : s.pend q = .erased e') {x : ItPc m k}
    (hx : q = p → x ≠ .freeing e' ∧ x ≠ .freed e') :
    Function.update s.pc p x q ≠ .freeing e' ∧ Function.update s.pc p x q ≠ .freed e' := by
  by_cases hqp : q = p
  · rw [hqp, update_self]
    exact hx hqp
  · rw [update_of_ne hqp]
    exact (h.held q e' hq).2

/-- **`ilock`.** -/
theorem Inv.ilock (hpc : s.pc p = .idle) (hpos : 0 < s.refs p e) (hrun : s.ilock p e = .ok s') : s'.Inv := by
  have htab := h.table.ilock hpc hpos hrun
  unfold ItSys.ilock at hrun
  split at hrun
  · cases hrun
  rename_i hlock
  have hlock : s.lock e = none := not_not.mp hlock
  split at hrun
  · cases hrun
    exact h.of_view htab rfl rfl fun q e' hq => ⟨h.held_acquire hlock _ hq, (h.held q e' hq).2⟩
  · split at hrun
    · cases hrun
    · cases hrun
      exact h.of_view htab rfl rfl fun q e' hq => ⟨h.held_acquire hlock _ hq, (h.held q e' hq).2⟩

/-- **`iunlock`**, not of an inode whose link is erased and not counted. -/
theorem Inv.iunlock (hpc : s.pc p = .idle) (hpend : s.pend p ≠ .erased e)
    (hrun : s.iunlock p e = .ok s') : s'.Inv := by
  have htab := h.table.iunlock hpc hrun
  obtain ⟨hlock, rfl⟩ := Lib.guard_ok hrun
  refine h.of_view htab rfl rfl fun q e' hq => ⟨?_, (h.held q e' hq).2⟩
  have hheld := (h.held q e' hq).1
  have hne : e' ≠ e := fun he => by
    rw [he, hlock] at hheld
    rw [he, ← Option.some.inj hheld] at hq
    exact hpend hq
  show Function.update s.lock e none e' = some q
  rw [update_of_ne hne]
  exact hheld

/-- **`iput`**, up to where it releases the table. -/
theorem Inv.iput (hpc : s.pc p = .idle) (hspare : s.Spare p e) (hrun : s.iput p e = .ok s') : s'.Inv := by
  have htab := h.table.iput hpc hspare hrun
  unfold ItSys.iput at hrun
  split at hrun
  · split at hrun
    · rename_i hlock
      cases hrun
      refine h.of_view htab rfl rfl fun q e' hq => ⟨h.held_acquire hlock _ hq,
        h.held_setPc hq fun _ => ⟨fun he => ?_, nofun⟩⟩
      have hheld := (h.held q e' hq).1
      rw [← ItPc.freeing.inj he, hlock] at hheld
      cases hheld
    · cases hrun
  · cases hrun
    exact h.of_refs htab rfl rfl rfl rfl rfl rfl fun _ _ => rfl

/-- An inode without links is given a type and cleared. -/
theorem Inv.reset (hzero : (s.disk i).nlink = 0) (x : DiskInode) (hx : x.nlink = 0)
    (hdisk : s'.disk = Function.update s.disk i x) (hdot : s'.dotdot = Function.update s.dotdot i none)
    (hent : s'.dirent = Function.update s.dirent i fun _ => none) (hpend : s'.pend = s.pend)
    (hkey : s'.key = s.key) : s'.view.Consistent := by
  have htype : (fun j => (s'.disk j).type) = Function.update s.view.type i x.type := by
    rw [hdisk]
    exact Function.comp_update DiskInode.type s.disk i x
  have hnlink : (fun j => (s'.disk j).nlink) = s.view.nlink := by
    funext j
    rw [hdisk]
    by_cases hj : j = i
    · rw [hj, update_self, hx]
      exact hzero.symm
    · rw [update_of_ne hj]
      rfl
  have hview : s'.view = { s.view with type := Function.update s.view.type i x.type,
                                       dotdot := Function.update s.view.dotdot i none,
                                       dirent := Function.update s.view.dirent i fun _ => none } := by
    unfold view at *
    rw [htype, hnlink, hdot, hent, hpend, hkey]
  rw [hview]
  exact h.links.reset hzero x.type

/-- **The inode is freed on disk.** -/
theorem Inv.free (hpc : s.pc p = .freeing e) (x : DiskInode) (hx : x.nlink = (s.copy e).nlink) :
    (((s.update e x).clearDir (s.key e)).setPc p (.freed e)).Inv := by
  have hlock := h.table.own p e (.inl hpc)
  have hzero := (h.table.sole p e hpc).1
  have hcopy := (h.table.agree_locked hlock fun hf => nomatch hpc.symm.trans hf).1
  have hx0 : x.nlink = 0 := by rw [hx, hcopy, hzero]
  refine ⟨h.table.free hpc x hx, h.reset hzero x hx0 rfl rfl rfl rfl rfl, fun q e' hq => ?_⟩
  refine ⟨(h.held q e' hq).1, h.held_setPc hq fun hqp => ⟨nofun, fun he => ?_⟩⟩
  rw [hqp, ← ItPc.freed.inj he] at hq
  exact (h.held p e hq).2.1 hpc

/-- **The freed inode is unlocked.** -/
theorem Inv.settle (hpc : s.pc p = .freed e) :
    (((s.setValid e false).setLock e none).setPc p (.putting e)).Inv := by
  have hlock := h.table.own p e (.inr hpc)
  refine h.of_view (h.table.settle hpc) rfl rfl fun q e' hq => ?_
  obtain ⟨hheld, hnot⟩ := h.held q e' hq
  have hne : e' ≠ e := fun he => by
    rw [he, hlock] at hheld
    rw [he, ← Option.some.inj hheld] at hnot
    exact hnot.2 hpc
  refine ⟨?_, h.held_setPc hq fun _ => ⟨nofun, nofun⟩⟩
  show Function.update s.lock e none e' = some q
  rw [update_of_ne hne]
  exact hheld

/-- **The parts of `iput` and `ialloc` that follow.** -/
theorem Inv.next (hrun : s.next p = .ok s') : s'.Inv := by
  unfold ItSys.next at hrun
  cases hpc : s.pc p with
  | idle => rw [hpc] at hrun; cases hrun
  | freeing e =>
    rw [hpc] at hrun
    cases hrun
    exact h.free hpc _ rfl
  | freed e =>
    rw [hpc] at hrun
    cases hrun
    exact h.settle hpc
  | putting e =>
    rw [hpc] at hrun
    cases hrun
    exact h.of_view (h.table.put hpc) rfl rfl fun q e' hq =>
      ⟨(h.held q e' hq).1, h.held_setPc hq fun _ => ⟨nofun, nofun⟩⟩
  | allocating i =>
    rw [hpc] at hrun
    have hmid : (s.setPc p .idle).Inv :=
      h.of_view (h.table.allocated hpc) rfl rfl fun q e' hq =>
        ⟨(h.held q e' hq).1, h.held_setPc hq fun _ => ⟨nofun, nofun⟩⟩
    obtain ⟨htype, -, hstale⟩ := h.table.fresh p i hpc
    refine hmid.iget htype (fun e q hk hq => ?_) (fun q hq => ?_) hrun
    · have hq := (pc_other hq nofun).2
      have hlock := h.table.own q e (.inl hq)
      have h1 := hstale e q hk (h.table.ref_pos hlock)
      have h2 := h.table.lock_ref e q hlock
      have h3 : s.stale q e = 0 := by
        unfold stale
        rw [hq]
        exact if_neg (by rintro (h | h) <;> cases h)
      omega
    · obtain ⟨hqp, hq⟩ := pc_other hq nofun
      exact hqp (h.table.fresh_uniq q p i hq hpc)

/-- **`ialloc`** up to its call of `iget`. -/
theorem Inv.ialloc (hpc : s.pc p = .idle) {type : InodeType}
    (hrun : s.ialloc p i type = .ok s') : s'.Inv := by
  have htab := h.table.ialloc hpc hrun
  unfold ItSys.ialloc at hrun
  split at hrun
  · cases hrun
  rename_i hfree
  have hzero : (s.disk i).nlink = 0 := h.links.free i (not_not.mp (not_or.mp hfree).1)
  cases hrun
  exact ⟨htab, h.reset hzero (.zeroed (some type)) rfl rfl rfl rfl rfl rfl, fun q e' hq =>
    ⟨(h.held q e' hq).1, h.held_setPc hq fun _ => ⟨nofun, nofun⟩⟩⟩

/-! ## §4. The calls that change links. -/

include hlock

/-- **`writei` and `itrunc`.** -/
theorem Inv.write (hpc : s.pc p = .idle) (x : DiskInode)
    (htype : x.type = (s.copy e).type) (hnlink : x.nlink = (s.copy e).nlink) : (s.update e x).Inv := by
  obtain ⟨-, hcopy, -⟩ := h.table.holder hlock hpc
  refine h.of_view (h.table.update hlock hpc x htype) ?_ rfl h.held
  have hself : Function.update s.view.nlink (s.key e) x.nlink = s.view.nlink := by
    rw [update_eq_self_iff, hnlink, hcopy]
    rfl
  rw [view_update x (by rw [htype, hcopy]), hself]

omit hlock

omit h

theorem held_setPend {x : Pend m k} (hq : Function.update s.pend p x q = .erased e)
    (hx : ∀ e, x ≠ .erased e) : s.pend q = .erased e := by
  by_cases hqp : q = p
  · rw [hqp, update_self] at hq
    exact absurd hq (hx e)
  · rwa [update_of_ne hqp] at hq

theorem update_none {p : Slot} {t : Slot → Option α} (h : t p = none) : Function.update t p none = t := by
  rw [update_eq_self_iff]
  exact h.symm

include h

include hlock

/-- The link count of a locked inode changes, and what is pending for the holder. -/
theorem Inv.relink (hpc : s.pc p = .idle) {l : Int} (hl : 0 ≤ l ∧ l ≤ 32767)
    {x : Pend m k} (hx : ∀ e, x ≠ .erased e)
    (hv : (LinkView.mk s.view.type (Function.update s.view.nlink (s.key e) l) s.view.dotdot s.view.dirent
      (Function.update s.view.counted p x.link) (Function.update s.view.erased p (x.entry.map s.key))).Consistent) :
    ((s.update e { s.copy e with nlink := short l }).setPend p x).Inv := by
  obtain ⟨-, hcopy, -⟩ := h.table.holder hlock hpc
  have htab := h.table.update hlock hpc { s.copy e with nlink := short l } rfl
  refine ⟨htab.congr _ _ _, ?_, fun q e' hq => h.held q e' (held_setPend hq hx)⟩
  rw [view_setPend, view_update _ (by rw [hcopy]), short_of_lt (by omega) (by omega)]
  exact hv

/-- **The first part of `sys_link`.** -/
theorem Inv.linkUp (hfree : s.Free p) (hpend : s.pend p = .none)
    (hroom : (s.copy e).nlink < 32767) (hrun : s.linkUp p e = .ok s') : s'.Inv := by
  obtain ⟨-, hcopy, htype⟩ := h.table.holder hlock hfree.1
  unfold ItSys.linkUp at hrun
  split at hrun
  · cases hrun
  rename_i hdir
  cases hrun
  have hnonneg : 0 ≤ (s.disk (s.key e)).nlink := h.links.nlink_nonneg (s.key e)
  rw [hcopy] at hroom hdir
  have hcounted : s.view.counted p = none := congrArg Pend.link hpend
  have hup := h.links.up (i := s.key e) hcounted hdir htype hroom
  refine h.relink hlock hfree.1 (by rw [hcopy]; omega) (fun _ => nofun) ?_
  show (LinkView.mk _ _ _ _ _ (Function.update s.view.erased p none)).Consistent
  rw [update_none (erased_none hfree.2), hcopy]
  exact hup

/-- **The label `bad` of `sys_link`.** -/
theorem Inv.linkBad (hfree : s.Free p)
    (hrun : s.linkBad p e = .ok s') : s'.Inv := by
  obtain ⟨-, hcopy, -⟩ := h.table.holder hlock hfree.1
  obtain ⟨hpend, rfl⟩ := Lib.guard_ok hrun
  have hcounted : s.view.counted p = some (s.key e) := congrArg Pend.link hpend
  have hnonneg : 0 ≤ (s.disk (s.key e)).nlink := h.links.nlink_nonneg (s.key e)
  have hbound : (s.disk (s.key e)).nlink ≤ 32767 := h.links.bound (s.key e)
  have hpos : (s.disk (s.key e)).nlink ≠ 0 := h.links.counted_linked hcounted
  refine h.relink hlock hfree.1 (by rw [hcopy]; omega) (fun _ => nofun) ?_
  show (LinkView.mk _ _ _ _ _ (Function.update s.view.erased p none)).Consistent
  rw [update_none (erased_none hfree.2), hcopy]
  exact h.links.down hcounted

omit hlock

/-- **The second part of `sys_link`.** -/
theorem Inv.linkIn (hlock : s.lock d = some p) (hfree : s.Free p)
    (hlinked : (s.copy d).nlink ≠ 0) (hrun : s.linkIn p d o = .ok s') : s'.Inv := by
  obtain ⟨-, hcopy, -⟩ := h.table.holder hlock hfree.1
  unfold ItSys.linkIn at hrun
  cases hpend : s.pend p with
  | none => rw [hpend] at hrun; cases hrun
  | erased e => exact absurd hpend (hfree.2 e)
  | counted i =>
    rw [hpend] at hrun
    dsimp only at hrun
    split at hrun
    · rename_i hc
      obtain ⟨hdir, hdev, hslot⟩ := hc
      cases hrun
      have hcounted : s.view.counted p = some i := congrArg Pend.link hpend
      refine ⟨h.table.congr _ _ _, ?_, fun q e' hq => h.held q e' (held_setPend hq fun _ => nofun)⟩
      rw [hcopy] at hdir
      rw [view_setPend]
      show (LinkView.mk _ _ _ _ _ (Function.update s.view.erased p none)).Consistent
      rw [update_none (erased_none hfree.2)]
      exact h.links.linkIn hcounted hdir (h.live hlock hfree hlinked) hdev hslot
    · cases hrun

/-- **`create`.** -/
theorem Inv.linkNew (hd : s.lock d = some p) (he : s.lock e = some p) (hfree : s.Free p)
    (hne : d ≠ e) (hlinked : (s.copy d).nlink ≠ 0) (hroom : (s.copy d).nlink < 32767)
    (hrun : s.linkNew d e o = .ok s') : s'.Inv := by
  obtain ⟨-, hcopyd, -⟩ := h.table.holder hd hfree.1
  obtain ⟨-, hcopye, htype⟩ := h.table.holder he hfree.1
  have hkey : s.key d ≠ s.key e := h.table.key_ne (h.table.ref_pos he) (h.table.ref_pos hd) hne
  have hlive := h.live hd hfree hlinked
  have hnonneg : 0 ≤ (s.disk (s.key d)).nlink := h.links.nlink_nonneg (s.key d)
  unfold ItSys.linkNew at hrun
  split at hrun
  · rename_i hc
    obtain ⟨hdir, hzero, hdev, hslot⟩ := hc
    rw [hcopyd] at hdir hroom
    rw [hcopye] at hzero
    have hview := view_update (s := s) (e := e) { s.copy e with nlink := 1 } (by rw [hcopye])
    have htab := h.table.update he hfree.1 { s.copy e with nlink := 1 } rfl
    let s₁ := (s.update e { s.copy e with nlink := 1 }).setDirent (s.key d) o (some (s.key e).2)
    have htab₁ : s₁.TabInv := htab.congr _ _ _
    have hview₁ : s₁.view = { s.view with
        nlink := Function.update s.view.nlink (s.key e) 1
        dirent := Function.update s.view.dirent (s.key d)
          (Function.update (s.view.dirent (s.key d)) o (some (s.key e).2)) } := by
      have hs₁ : s₁.view = { (s.update e { s.copy e with nlink := 1 }).view with
          dirent := Function.update s.view.dirent (s.key d)
            (Function.update (s.view.dirent (s.key d)) o (some (s.key e).2)) } := rfl
      rw [hs₁, hview]
    have hcopy₁ : s₁.copy d = s.copy d := update_of_ne hne ..
    have hdisk₁ : s₁.disk (s₁.key d) = s.disk (s.key d) := update_of_ne hkey ..
    cases hrun
    split
    · rename_i hidir
      rw [hcopye] at hidir
      have hy : ({ s.copy d with nlink := short ((s.copy d).nlink + 1) } : DiskInode).type
          = (s₁.disk (s₁.key d)).type := by
        rw [hdisk₁, hcopyd]
      refine ⟨(htab₁.update hd hfree.1 _ (by rw [hcopy₁])).congr _ _ _, ?_, h.held⟩
      show ({ (s₁.update d _).view with dotdot := Function.update s.dotdot (s.key e) _ } : LinkView m k n).Consistent
      rw [view_update (s := s₁) (e := d) _ hy, hview₁]
      refine h.links.linkNew hdir hlive hroom hzero htype hdev hslot (fun j => ?_) fun j => ?_
      · by_cases hj : j = s.key e
        · rw [hj, update_self, if_pos ⟨rfl, hidir⟩]
        · rw [update_of_ne hj, if_neg fun hc => hj hc.1]
          rfl
      show Function.update (Function.update s.view.nlink (s.key e) 1) (s.key d) (short _) j = _
      rw [hcopyd, short_of_lt (by omega) (by omega)]
      by_cases hjd : j = s.key d
      · rw [hjd, update_self, if_neg hkey, if_pos ⟨rfl, hidir⟩]
        rfl
      · rw [update_of_ne hjd]
        by_cases hje : j = s.key e
        · rw [hje, update_self, if_pos rfl]
        · rw [update_of_ne hje, if_neg hje, if_neg fun hc => hjd hc.1]
    · rename_i hfile
      rw [hcopye] at hfile
      refine ⟨htab₁, ?_, h.held⟩
      refine hview₁ ▸ h.links.linkNew hdir hlive hroom hzero htype hdev hslot (fun j => ?_) fun j => ?_
      · rw [if_neg fun hc => hfile hc.2]
      · by_cases hje : j = s.key e
        · rw [hje, update_self, if_pos rfl]
        · rw [update_of_ne hje, if_neg hje, if_neg fun hc => hfile hc.2]
  · cases hrun

omit h in
theorem isdirempty_iff : s.isdirempty i = true ↔ ∀ o, s.dirent i o = none := by
  unfold isdirempty
  simp only [List.all_eq_true, List.mem_finRange, Option.isNone_iff_eq_none, true_implies]

/-- **`sys_unlink` erases an entry.** -/
theorem Inv.unlinkEntry (hd : s.lock d = some p) (he : s.lock e = some p) (hfree : s.Free p)
    (hpend : s.pend p = .none) (hrun : s.unlinkEntry p d e o = .ok s') : s'.Inv := by
  obtain ⟨-, hcopyd, -⟩ := h.table.holder hd hfree.1
  obtain ⟨-, hcopye, -⟩ := h.table.holder he hfree.1
  unfold ItSys.unlinkEntry at hrun
  split at hrun
  · rename_i hc
    obtain ⟨-, hdev, hslot⟩ := hc
    split at hrun
    · cases hrun
    split at hrun
    · cases hrun
    rename_i hempty
    rw [hcopye] at hempty
    have hempty : s.view.type (s.key e) = some .T_DIR → ∀ o, s.view.dirent (s.key e) o = none := by
      intro hdir
      refine isdirempty_iff.mp ?_
      cases hb : s.isdirempty (s.key e) with
      | true => rfl
      | false => exact absurd ⟨hdir, hb⟩ hempty
    have hnone : s.view.erased p = none := erased_none hfree.2
    have hcounted : Function.update s.view.counted p none = s.view.counted := update_none (congrArg Pend.link hpend)
    have hnonneg : 0 ≤ (s.disk (s.key d)).nlink := h.links.nlink_nonneg (s.key d)
    have hbound : (s.disk (s.key d)).nlink ≤ 32767 := h.links.bound (s.key d)
    have hheld : ∀ q e', Function.update s.pend p (.erased e) q = .erased e' →
        s.lock e' = some q ∧ s.pc q ≠ .freeing e' ∧ s.pc q ≠ .freed e' := by
      intro q e' hq
      by_cases hqp : q = p
      · rw [hqp, update_self] at hq
        rw [hqp, ← Pend.erased.inj hq, hfree.1]
        exact ⟨he, nofun, nofun⟩
      · rw [update_of_ne hqp] at hq
        exact h.held q e' hq
    let s₁ := (s.setDirent (s.key d) o none).setPend p (.erased e)
    have htab₁ : s₁.TabInv := h.table.congr _ _ _
    have hview₁ : s₁.view = { s.view with
        dirent := Function.update s.view.dirent (s.key d) (Function.update (s.view.dirent (s.key d)) o none)
        erased := Function.update s.view.erased p (some (s.key e)) } := by
      refine (view_setPend (s := s.setDirent (s.key d) o none) (p := p) (.erased e)).trans ?_
      show LinkView.mk _ _ _ _ (Function.update s.view.counted p none) _ = _
      rw [hcounted]
      rfl
    cases hrun
    split
    · rename_i hdir
      rw [hcopye] at hdir
      have hview₂ := view_update (s := s₁) (e := d)
        { s.copy d with nlink := short ((s.copy d).nlink - 1) } (by rw [hcopyd]; rfl)
      rw [hview₁] at hview₂
      refine ⟨htab₁.update hd hfree.1 _ rfl, ?_, hheld⟩
      refine hview₂ ▸ h.links.erase hslot hdev (h.unerased he hfree) hempty hnone fun j => ?_
      show Function.update s.view.nlink (s.key d) (short _) j = _
      rw [hcopyd, short_of_lt (by omega) (by omega)]
      by_cases hj : j = s.key d
      · rw [hj, update_self, if_pos ⟨rfl, hdir⟩]
        rfl
      · rw [update_of_ne hj, if_neg fun hc => hj hc.1]
    · rename_i hfile
      rw [hcopye] at hfile
      refine ⟨htab₁, ?_, hheld⟩
      refine hview₁ ▸ h.links.erase hslot hdev (h.unerased he hfree) hempty hnone fun j => ?_
      rw [if_neg fun hc => hfile hc.2]
  · cases hrun

/-- **`sys_unlink` lowers the count.** -/
theorem Inv.unlinkDrop (hpc : s.pc p = .idle) (hrun : s.unlinkDrop p = .ok s') : s'.Inv := by
  unfold ItSys.unlinkDrop at hrun
  cases hpend : s.pend p with
  | none | counted i => rw [hpend] at hrun; cases hrun
  | erased e =>
    rw [hpend] at hrun
    cases hrun
    have hlock := (h.held p e hpend).1
    obtain ⟨-, hcopy, -⟩ := h.table.holder hlock hpc
    have herased := erased_of_pend hpend
    have hnonneg : 0 ≤ (s.disk (s.key e)).nlink := h.links.nlink_nonneg (s.key e)
    have hbound : (s.disk (s.key e)).nlink ≤ 32767 := h.links.bound (s.key e)
    have hpos : (s.disk (s.key e)).nlink ≠ 0 := h.links.erased_linked herased
    have hcounted : Function.update s.view.counted p none = s.view.counted := update_none (congrArg Pend.link hpend)
    refine h.relink hlock hpc (by rw [hcopy]; omega) (fun _ => nofun) ?_
    show (LinkView.mk _ _ _ _ (Function.update s.view.counted p none) _).Consistent
    rw [hcounted, hcopy]
    exact h.links.drop herased

omit h

/-! ## §5. Runs. -/

/-- **One step.** -/
theorem Inv.step {c : ItStep m k n} (h : s.Inv) (hfits : s.Fits c) (hrun : s.step c = .ok s') : s'.Inv := by
  unfold ItSys.step at hrun
  split at hrun
  · rename_i hallow
    cases c with
    | igetRoot p => exact h.iget_linked h.links.root_linked hrun
    | lookupDot p d =>
      obtain ⟨j, hj, hget⟩ := lookup_ok hrun
      cases hj
      exact h.iget_held hallow.2 hallow.1.1 hget
    | lookupUp p d =>
      obtain ⟨j, hj, hget⟩ := lookup_ok hrun
      exact h.iget_linked (h.links.up_linked (h.live hallow.2 hallow.1 hfits) hj) hget
    | lookup p d o =>
      obtain ⟨j, hj, hget⟩ := lookup_ok hrun
      exact h.iget_linked (h.links.linked hj) hget
    | idup p e =>
      cases hrun
      exact h.idup hallow.1.1 hallow.2
    | pass p q e =>
      cases hrun
      exact h.pass hallow.1 hallow.2
    | ilock p e => exact h.ilock hallow.1.1 hallow.2 hrun
    | iunlock p e => exact h.iunlock hallow.1 hallow.2 hrun
    | iput p e => exact h.iput hallow.1 hallow.2 hrun
    | next p => exact h.next hrun
    | ialloc p i type => exact h.ialloc hallow.1 hrun
    | write p e size addrs =>
      cases hrun
      exact h.write hallow.2 hallow.1.1 _ rfl rfl
    | linkUp p e => exact h.linkUp hallow.2.1 hallow.1 hallow.2.2 hfits hrun
    | linkIn p d o => exact h.linkIn hallow.2 hallow.1 hfits hrun
    | linkBad p e => exact h.linkBad hallow.2 hallow.1 hrun
    | linkNew p d e o =>
      exact h.linkNew hallow.2.1 hallow.2.2.1 hallow.1 hallow.2.2.2 hfits.1 hfits.2 hrun
    | unlinkEntry p d e o =>
      exact h.unlinkEntry hallow.2.1 hallow.2.2.1 hallow.1 hallow.2.2.2.2 hrun
    | unlinkDrop p => exact h.unlinkDrop hallow hrun
  · cases hrun

/-- An empty table over a consistent disk. -/
structure Booted (s : ItSys m k n) : Prop where
  ref : ∀ e, s.ref e = 0
  refs : ∀ p e, s.refs p e = 0
  lock : ∀ e, s.lock e = none
  pc : ∀ p, s.pc p = .idle
  pend : ∀ p, s.pend p = .none
  links : s.view.Consistent

theorem Booted.inv (h : s.Booted) : s.Inv := by
  have hpc : ∀ p x, x ≠ .idle → s.pc p ≠ x := fun p x hx hp => hx (hp ▸ h.pc p)
  have hlock : ∀ e p, s.lock e ≠ some p := fun e p hp => by
    rw [h.lock] at hp
    cases hp
  have href : ∀ e, ¬ 0 < s.ref e := fun e hp => by
    rw [h.ref] at hp
    exact Nat.lt_irrefl 0 hp
  refine ⟨⟨fun e => ?_, fun e _ hp => absurd hp (href e), fun e p hp => absurd hp (hlock e p),
    fun p e hp => absurd hp (hpc p _ nofun), fun p e _ => hlock e p, fun p e hp => ?_,
    fun e p hp => absurd hp (hlock e p), fun e hp => absurd hp (href e), fun p e hp => ?_,
    fun p e hp => absurd hp (hpc p _ nofun), fun p i hp => absurd hp (hpc p _ nofun),
    fun p _ i hp => absurd hp (hpc p _ nofun)⟩, h.links, fun p e hp => ?_⟩
  · rw [h.ref, Finset.sum_eq_zero fun p _ => h.refs p e]
  · exact hp.elim (fun hp => absurd hp (hpc p _ nofun)) fun hp => absurd hp (hpc p _ nofun)
  · rw [h.refs] at hp
    exact absurd hp (Nat.not_lt_zero _)
  · rw [h.pend] at hp
    cases hp

/-- The states of all runs. -/
def Reachable (s : ItSys m k n) : Prop := Lib.Reach Booted (fun _ _ => True) step s

/-- Reached by steps that all fit. -/
def FitReachable (s : ItSys m k n) : Prop := Lib.Reach Booted Fits step s

/-- What the inode table promises. -/
structure InodeTable (s : ItSys m k n) : Prop where
  one_entry : ∀ e e', 0 < s.ref e → 0 < s.ref e' → s.key e = s.key e' → e = e'
  counts : ∀ e, s.ref e = ∑ p, s.refs p e
  /-- a valid entry that nobody has locked is as on disk -/
  valid : ∀ e, 0 < s.ref e → s.valid e = true → s.lock e = none → s.copy e = s.disk (s.key e)
  /-- who has an inode locked, and is not freeing it, reads what is on disk -/
  fresh : ∀ e p, s.lock e = some p → s.pc p = .idle → s.valid e = true ∧ s.copy e = s.disk (s.key e)
  /-- an inode is freed by the last `iput`, without links and other references -/
  freed : ∀ c s', s.step c = .ok s' → ∀ i, (s.disk i).type ≠ none → (s'.disk i).type = none →
    ∃ p e, c = .next p ∧ s.pc p = .freeing e ∧ s.key e = i ∧ (s.disk i).nlink = 0 ∧ s.refs p e = 1
      ∧ (∀ q, q ≠ p → s.refs q e = 0) ∧ ∀ e', 0 < s.ref e' → s.key e' = i → e' = e

/-! ## §6. Who frees an inode. -/

theorem iget_disk (hrun : s.iget p i = .ok s') : s'.disk = s.disk := by
  unfold ItSys.iget at hrun
  split at hrun
  · rw [← Except.ok.inj hrun]
    rfl
  · split at hrun
    · cases hrun
    · rw [← Except.ok.inj hrun]
      rfl

theorem ilock_disk (hrun : s.ilock p e = .ok s') : s'.disk = s.disk := by
  unfold ItSys.ilock at hrun
  split at hrun
  · cases hrun
  split at hrun
  · rw [← Except.ok.inj hrun]
    rfl
  · split at hrun
    · cases hrun
    · rw [← Except.ok.inj hrun]
      rfl

theorem iput_disk (hrun : s.iput p e = .ok s') : s'.disk = s.disk := by
  unfold ItSys.iput at hrun
  split at hrun
  · split at hrun
    · rw [← Except.ok.inj hrun]
      rfl
    · cases hrun
  · rw [← Except.ok.inj hrun]
    rfl

/-- The inodes that are allocated in `s` are so in `s'`. -/
def Keeps (s s' : ItSys m k n) : Prop := ∀ i, (s.disk i).type ≠ none → (s'.disk i).type ≠ none

theorem Keeps.of_disk (h : s'.disk = s.disk) : s.Keeps s' := fun i hi => by
  rw [h]
  exact hi

theorem Keeps.write {i : Ino m k} {x : DiskInode} (hdisk : s'.disk = Function.update s.disk i x)
    (hx : x.type ≠ none) : s.Keeps s' := by
  intro j hj
  rw [hdisk]
  by_cases hji : j = i
  · rw [hji, update_self]
    exact hx
  · rw [update_of_ne hji]
    exact hj

theorem Keeps.trans {s₁ : ItSys m k n} (h : s.Keeps s₁) (h' : s₁.Keeps s') : s.Keeps s' :=
  fun i hi => h' i (h i hi)

theorem TabInv.copy_type (h : s.TabInv) (hlock : s.lock e = some p) (hpc : s.pc p = .idle) : (s.copy e).type ≠ none := by
  obtain ⟨-, hcopy, htype⟩ := h.holder hlock hpc
  rw [hcopy]
  exact htype

/-- **Links are changed in allocated inodes.** -/
theorem Inv.keeps_links (h : s.Inv) (hd : s.lock d = some p) (he : s.lock e = some p) (hpc : s.pc p = .idle)
    (hrun : s.linkNew d e o = .ok s' ∨ s.unlinkEntry p d e o = .ok s') : s.Keeps s' := by
  have htd := h.table.copy_type hd hpc
  have hte := h.table.copy_type he hpc
  rcases hrun with hrun | hrun
  · unfold ItSys.linkNew at hrun
    split at hrun
    · rw [← Except.ok.inj hrun]
      have hfirst : s.Keeps ((s.update e { s.copy e with nlink := 1 }).setDirent (s.key d) o
        (some (s.key e).2)) := Keeps.write (x := { s.copy e with nlink := 1 }) rfl hte
      split
      · exact hfirst.trans (Keeps.write rfl htd)
      · exact hfirst
    · cases hrun
  unfold ItSys.unlinkEntry at hrun
  split at hrun
  · split at hrun
    · cases hrun
    split at hrun
    · cases hrun
    · rw [← Except.ok.inj hrun]
      split
      · exact Keeps.write rfl htd
      · exact Keeps.of_disk rfl
  · cases hrun

/-- **No step frees an inode** but the one of `iput`. -/
theorem Inv.keeps {c : ItStep m k n} (h : s.Inv) (hrun : s.step c = .ok s') (hc : ∀ p, c ≠ .next p) : s.Keeps s' := by
  unfold ItSys.step at hrun
  split at hrun
  · rename_i hallow
    cases c with
    | igetRoot p => exact .of_disk (iget_disk hrun)
    | lookupDot p d | lookupUp p d | lookup p d o => exact .of_disk (iget_disk (lookup_ok hrun).choose_spec.2)
    | idup p e | pass p q e =>
      cases hrun
      exact .of_disk rfl
    | ilock p e => exact .of_disk (ilock_disk hrun)
    | iunlock p e =>
      obtain ⟨-, rfl⟩ := Lib.guard_ok hrun
      exact .of_disk rfl
    | iput p e => exact .of_disk (iput_disk hrun)
    | next p => exact absurd rfl (hc p)
    | ialloc p i type =>
      dsimp only [ItSys.ialloc] at hrun
      split at hrun
      · cases hrun
      · cases hrun
        exact Keeps.write (x := .zeroed (some type)) rfl nofun
    | write p e size addrs =>
      cases hrun
      exact Keeps.write rfl (h.table.copy_type hallow.2 hallow.1.1)
    | linkUp p e =>
      dsimp only [ItSys.linkUp] at hrun
      split at hrun
      · cases hrun
      · cases hrun
        exact Keeps.write rfl (h.table.copy_type hallow.2.1 hallow.1.1)
    | linkIn p d o =>
      dsimp only [ItSys.linkIn] at hrun
      split at hrun
      · split at hrun
        · cases hrun
          exact .of_disk rfl
        · cases hrun
      · cases hrun
    | linkBad p e =>
      obtain ⟨-, rfl⟩ := Lib.guard_ok hrun
      exact Keeps.write rfl (h.table.copy_type hallow.2 hallow.1.1)
    | linkNew p d e o => exact h.keeps_links hallow.2.1 hallow.2.2.1 hallow.1.1 (.inl hrun)
    | unlinkEntry p d e o => exact h.keeps_links hallow.2.1 hallow.2.2.1 hallow.1.1 (.inr hrun)
    | unlinkDrop p =>
      dsimp only [ItSys.unlinkDrop] at hrun
      cases hpend : s.pend p with
      | none | counted i => rw [hpend] at hrun; cases hrun
      | erased e =>
        rw [hpend] at hrun
        cases hrun
        exact Keeps.write rfl (h.table.copy_type (h.held p e hpend).1 hallow)
  · cases hrun

/-- **The step of `iput` that frees** is taken at its program counter. -/
theorem next_frees (hrun : s.next p = .ok s') (hi : (s.disk i).type ≠ none) (hi' : (s'.disk i).type = none) :
    ∃ e, s.pc p = .freeing e ∧ s.key e = i := by
  unfold ItSys.next at hrun
  cases hpc : s.pc p with
  | idle => rw [hpc] at hrun; cases hrun
  | freeing e =>
    rw [hpc] at hrun
    cases hrun
    refine ⟨e, rfl, ?_⟩
    by_contra hne
    have hi' : (Function.update s.disk (s.key e) _ i).type = none := hi'
    rw [update_of_ne (Ne.symm hne)] at hi'
    exact hi hi'
  | freed e | putting e =>
    rw [hpc] at hrun
    cases hrun
    exact absurd hi' hi
  | allocating j =>
    rw [hpc] at hrun
    rw [iget_disk hrun] at hi'
    exact absurd hi' hi

/-- The last reference. -/
theorem TabInv.sole_ref (h : s.TabInv) (hpc : s.pc p = .freeing e) : s.refs p e = 1 ∧ ∀ q, q ≠ p → s.refs q e = 0 := by
  have h1 := (h.sole p e hpc).2
  have h2 := h.lock_ref e p (h.own p e (.inl hpc))
  have h3 := h.refs_le p e
  refine ⟨by omega, fun q hq => ?_⟩
  have := h.two_refs hq e
  omega

theorem Inv.inodeTable (h : s.Inv) : s.InodeTable := by
  refine ⟨h.table.uniq, h.table.ref_eq, fun e hp hv hl => ?_, fun e p hl hpc => ?_, fun c s' hrun i hi hi' => ?_⟩
  · exact (h.table.agree e hp hv fun p hpc => h.table.own_unlocked hl (.inr hpc)).1
  · obtain ⟨hvalid, hcopy, -⟩ := h.table.holder hl hpc
    exact ⟨hvalid, hcopy⟩
  by_cases hc : ∃ p, c = .next p
  · obtain ⟨p, rfl⟩ := hc
    obtain ⟨e, hpc, rfl⟩ := next_frees (by simpa [ItSys.step, Allowed] using hrun) hi hi'
    obtain ⟨hone, hothers⟩ := h.table.sole_ref hpc
    refine ⟨p, e, rfl, hpc, rfl, (h.table.sole p e hpc).1, hone, hothers, fun e' hp hk => ?_⟩
    exact h.table.uniq e' e hp (h.table.ref_pos (h.table.own p e (.inl hpc))) hk
  · exact absurd hi' (h.keeps hrun (fun p hp => hc ⟨p, hp⟩) i hi)

/-- **The inode table in every run** whose steps all fit. -/
theorem inode_table (h : s.FitReachable) : s.InodeTable := by
  have hinv : s.Inv := h.invariant (fun s hs => hs.inv) fun s c s' hs hfits hrun => hs.step hfits hrun
  exact hinv.inodeTable

/-! ## §7. A removed directory leads back to a freed one. -/

/-- An image with the directories `/`, `/p` and `/p/d`. -/
def image : ItSys 0 2 1 where
  key _ := rootIno
  ref _ := 0
  valid _ := false
  lock _ := none
  copy _ := .zeroed none
  disk i :=
    if i = (1, 1) ∨ i = (1, 2) then { DiskInode.zeroed (some .T_DIR) with nlink := 2 }
    else if i = (1, 3) then { DiskInode.zeroed (some .T_DIR) with nlink := 1 }
    else .zeroed none
  dotdot i := if i = (1, 1) ∨ i = (1, 2) then some 1 else if i = (1, 3) then some 2 else none
  dirent i _ := if i = (1, 1) then some 2 else if i = (1, 2) then some 3 else none
  refs _ _ := 0
  pc _ := .idle
  pend _ := .none

theorem image_booted : image.Booted :=
  ⟨fun _ => rfl, fun _ _ => rfl, fun _ => rfl, fun _ => rfl, fun _ => rfl,
    { root_dir := by decide
      root_up := by decide
      root_top := by decide
      count := by decide +kernel
      bound := by decide
      dirs := by decide
      free := by decide
      once := by decide +kernel
      bare := by decide +kernel
      parent := by decide +kernel
      file := nofun
      single := by decide +kernel
      cut := nofun }⟩

/-- Process 0 does `chdir("/p/d")`: the directory is entry 0 of the table. -/
def enterRun : List (ItStep 0 2 1) :=
  [.igetRoot 0, .ilock 0 0, .lookup 0 0 0, .iunlock 0 0, .iput 0 0, .ilock 0 1, .lookup 0 1 0, .iunlock 0 1,
    .iput 0 1]

/-- Process 1 does `unlink("/p/d")`. -/
def removeRun : List (ItStep 0 2 1) :=
  [.igetRoot 1, .ilock 1 1, .lookup 1 1 0, .iunlock 1 1, .iput 1 1, .ilock 1 2, .iunlock 1 2, .ilock 1 2,
    .lookup 1 2 0, .ilock 1 0, .unlinkEntry 1 2 0 0, .iunlock 1 2, .iput 1 2, .unlinkDrop 1, .iunlock 1 0,
    .iput 1 0]

/-- It does `unlink("/p")`, up to where its last `iput` has released the table. -/
def removeParentRun : List (ItStep 0 2 1) :=
  [.igetRoot 1, .ilock 1 1, .iunlock 1 1, .ilock 1 1, .lookup 1 1 0, .ilock 1 2, .unlinkEntry 1 1 2 0,
    .iunlock 1 1, .iput 1 1, .unlinkDrop 1, .iunlock 1 2, .iput 1 2]

theorem step_free (hpc : s.pc p = .freeing e) : ∃ s', s.step (.next p) = .ok s' ∧ (s'.disk (s.key e)).type = none := by
  refine ⟨_, by simp only [step, Allowed, if_true, next, hpc]; rfl, ?_⟩
  show (Function.update s.disk (s.key e) _ (s.key e)).type = none
  rw [update_self]

/-- Both directories are removed, and the parent is freed by its last reference. -/
theorem inode_table_removed :
    ∃ s : ItSys 0 2 1, s.FitReachable ∧ s.pc 1 = .freeing 2 ∧ (s.disk (1, 2)).nlink = 0 ∧ s.refs 1 2 = 1
      ∧ s.refs 0 2 = 0 ∧ s.ref 0 = ∑ p, s.refs p 0 := by
  have hreach : ∃ s : ItSys 0 2 1, s.FitReachable ∧ decide (s.pc 1 = .freeing 2 ∧ s.key 2 = (1, 2)
      ∧ (s.disk (1, 2)).type ≠ none) = true :=
    Lib.Reach.of_reaches (enterRun ++ removeRun ++ removeParentRun) _ image_booted (by decide +kernel)
  obtain ⟨s, hs, htest⟩ := hreach
  obtain ⟨hpc, hkey, htype⟩ := of_decide_eq_true htest
  have htable := inode_table hs
  obtain ⟨s', hrun, hfreed⟩ := step_free hpc
  rw [hkey] at hfreed
  obtain ⟨p, e, hc, hpc', -, hnlink, hone, hothers, -⟩ := htable.freed _ s' hrun (1, 2) htype hfreed
  obtain rfl := ItStep.next.inj hc
  obtain rfl := ItPc.freeing.inj (hpc.symm.trans hpc')
  exact ⟨s, hs, hpc, hnlink, hone, hothers 0 (by decide), htable.counts 0⟩

/-- Then process 0 does `chdir("..")`. -/
def upRun : List (ItStep 0 2 1) := [.idup 0 0, .ilock 0 0, .lookupUp 0 0]

/-- The parent is about to be freed, and process 0 has a reference to it. -/
theorem inode_table_race : ∃ s : ItSys 0 2 1, s.Reachable ∧ ¬ s.InodeTable := by
  have hreach : ∃ s : ItSys 0 2 1, s.Reachable ∧ decide (s.pc 1 = .freeing 2 ∧ s.key 2 = (1, 2)
      ∧ (s.disk (1, 2)).type ≠ none ∧ s.refs 0 2 = 1) = true :=
    Lib.Reach.of_reaches (enterRun ++ removeRun ++ removeParentRun ++ upRun) _ image_booted (by decide +kernel)
  obtain ⟨s, hs, htest⟩ := hreach
  obtain ⟨hpc, hkey, htype, href⟩ := of_decide_eq_true htest
  refine ⟨s, hs, fun htable => ?_⟩
  obtain ⟨s', hrun, hfreed⟩ := step_free hpc
  rw [hkey] at hfreed
  obtain ⟨p, e, hc, hpc', -, -, -, hothers, -⟩ := htable.freed _ s' hrun (1, 2) htype hfreed
  obtain rfl := ItStep.next.inj hc
  obtain rfl := ItPc.freeing.inj (hpc.symm.trans hpc')
  rw [hothers 0 (by decide)] at href
  cases href

end ItSys

end Xv6
