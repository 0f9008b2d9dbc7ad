/-
  Xv6.Fs.ItableLinks — link counts under every interleaving of the calls that
  change them.

  `LinkView` is what the counts are about: the directory entries, the entries
  `..`, and the links that some process has counted and not made yet
  (`counted`) or erased and not counted yet (`erased`).  A directory is live
  from `create` until its entry is erased.  `Consistent` says that a link
  count is the number of entries, of live subdirectories and of such pending
  links, and each change of `sys_link`, `sys_unlink`, `create`, `ialloc` and
  `iput` keeps it.
-/
import Xv6.Fs.Itable
import Xv6.Lib.Holders

namespace Xv6

open Function (update update_eq_self_iff update_of_ne update_self)
open Lib (holders holders_update holders_fill holders_clear holders_pos holders_eq_zero holders_unique)

/-- The links of a file system. -/
structure LinkView (m k n : Nat) where
  type : Ino m k → Option InodeType
  nlink : Ino m k → Int
  dotdot : Ino m k → Option (Inum k)
  dirent : Ino m k → Fin n → Option (Inum k)
  /-- `sys_link` has counted the link and not made it -/
  counted : Slot → Option (Ino m k)
  /-- `sys_unlink` has erased the link and not counted it -/
  erased : Slot → Option (Ino m k)

namespace LinkView

variable {m k n : Nat} {v w : LinkView m k n} {d i j : Ino m k} {o : Fin n} {p : Slot}

/-! ## §1. Counting links. -/

theorem ne_of_only {P : Prop} [Decidable P] (h : ¬ (j = i ∧ P)) : (if P then some i else none) ≠ some j := by
  rw [Ne, Option.ite_none_right_eq_some]
  exact fun he => h ⟨(Option.some.inj he.2).symm, he.1⟩

/-- A directory with links that nobody is removing. -/
def live (v : LinkView m k n) (d : Ino m k) : Prop := v.nlink d ≠ 0 ∧ holders v.erased d = 0

instance (v : LinkView m k n) (d : Ino m k) : Decidable (v.live d) :=
  inferInstanceAs (Decidable (_ ∧ _))

/-- What the entry at a place in a directory names. -/
def links (v : LinkView m k n) (c : Ino m k × Fin n) : Option (Ino m k) :=
  (v.dirent c.1 c.2).map (c.1.1, ·)

/-- What the entry `..` of a live directory names. -/
def ups (v : LinkView m k n) (d : Ino m k) : Option (Ino m k) :=
  if v.live d ∧ d ≠ rootIno then (v.dotdot d).map (d.1, ·) else none

/-- The links of an inode, those under way included. -/
def total (v : LinkView m k n) (i : Ino m k) : Nat :=
  holders v.links i + holders v.ups i + holders v.counted i + holders v.erased i
    + if i = rootIno then 1 else 0

/-- Link counts are the numbers of links. -/
structure Consistent (v : LinkView m k n) : Prop where
  root_dir : v.type rootIno = some .T_DIR
  root_up : v.dotdot rootIno = some ROOTINO
  root_top : holders v.links rootIno = 0
  count : ∀ i, v.nlink i = v.total i
  bound : ∀ i, v.nlink i ≤ 32767
  dirs : ∀ d, v.type d ≠ some .T_DIR → v.dotdot d = none ∧ ∀ o, v.dirent d o = none
  free : ∀ i, v.type i = none → v.nlink i = 0
  once : ∀ i, v.type i = some .T_DIR → holders v.links i ≤ 1
  bare : ∀ d, ¬ v.live d → ∀ o, v.dirent d o = none
  parent : ∀ d, v.live d → v.type d = some .T_DIR → d ≠ rootIno →
    ∃ j o, v.dotdot d = some j ∧ v.dirent (d.1, j) o = some d.2
  file : ∀ p i, v.counted p = some i → v.type i ≠ some .T_DIR
  single : ∀ i, holders v.erased i ≤ 1
  cut : ∀ p i, v.erased p = some i →
    i ≠ rootIno ∧ (v.type i = some .T_DIR → holders v.links i = 0)

theorem links_some {j : Inum k} (h : v.dirent d o = some j) : v.links (d, o) = some (d.1, j) := by
  show (v.dirent d o).map _ = _
  rw [h]
  rfl

theorem links_none (h : v.dirent d o = none) : v.links (d, o) = none := by
  show (v.dirent d o).map _ = _
  rw [h]
  rfl

variable (h : v.Consistent)
include h

theorem Consistent.nlink_nonneg (i : Ino m k) : 0 ≤ v.nlink i := by
  rw [h.count i]
  exact Int.natCast_nonneg _

theorem Consistent.root_linked : v.nlink rootIno ≠ 0 := by
  rw [h.count rootIno, total, if_pos rfl]
  omega

/-- **An entry of a directory names an inode with links.** -/
theorem Consistent.linked {j : Inum k} (hent : v.dirent d o = some j) : v.nlink (d.1, j) ≠ 0 := by
  have := holders_pos (links_some hent)
  rw [h.count, total]
  omega

/-- **So does the entry `..` of a live directory.** -/
theorem Consistent.up_linked (hlive : v.live d) {j : Inum k} (hup : v.dotdot d = some j) :
    v.nlink (d.1, j) ≠ 0 := by
  by_cases hroot : d = rootIno
  · have hj : j = ROOTINO := by
      rw [hroot, h.root_up] at hup
      exact (Option.some.inj hup).symm
    rw [hroot, hj]
    exact h.root_linked
  have hups : v.ups d = some (d.1, j) := by
    unfold ups
    rw [if_pos ⟨hlive, hroot⟩, hup]
    rfl
  have := holders_pos hups
  rw [h.count, total]
  omega

theorem Consistent.counted_linked (hp : v.counted p = some i) : v.nlink i ≠ 0 := by
  have := holders_pos hp
  rw [h.count, total]
  omega

theorem Consistent.erased_linked (hp : v.erased p = some i) : v.nlink i ≠ 0 := by
  have := holders_pos hp
  rw [h.count, total]
  omega

/-- An inode without links is named nowhere. -/
theorem Consistent.unlinked (hzero : v.nlink i = 0) :
    holders v.links i = 0 ∧ holders v.ups i = 0 ∧ holders v.counted i = 0 ∧ holders v.erased i = 0 ∧ i ≠ rootIno := by
  have hcount := h.count i
  rw [hzero, total] at hcount
  refine ⟨by omega, by omega, by omega, by omega, fun hroot => ?_⟩
  rw [if_pos hroot] at hcount
  omega

/-- An entry stands only in a live directory. -/
theorem Consistent.live_of_dirent {j : Inum k} (hent : v.dirent d o = some j) : v.live d := by
  by_contra hdead
  rw [h.bare d hdead o] at hent
  cases hent

theorem Consistent.dir_of_dirent {j : Inum k} (hent : v.dirent d o = some j) :
    v.type d = some .T_DIR := by
  by_contra hno
  rw [(h.dirs d hno).2 o] at hent
  cases hent

omit h in
/-- Only directories count as subdirectories. -/
theorem ups_congr (hdot : w.dotdot = v.dotdot)
    (hlive : ∀ d, v.dotdot d ≠ none → (w.live d ↔ v.live d)) : w.ups = v.ups := by
  funext d
  unfold ups
  rw [hdot]
  by_cases hd : v.dotdot d = none
  · rw [hd, Option.map_none, ite_self, ite_self]
  · simp only [hlive d hd]

theorem Consistent.dir_of_dotdot (hd : v.dotdot d ≠ none) : v.type d = some .T_DIR := by
  by_contra hno
  exact hd (h.dirs d hno).1

/-! ## §2. Counts and pending links. -/

/-- **A count follows the pending links**, and no directory dies or comes to life. -/
theorem Consistent.recount {x : Int} {c r : Slot → Option (Ino m k)}
    (hcounted : ∀ j, j ≠ i → holders c j = holders v.counted j) (herased : ∀ j, j ≠ i → holders r j = holders v.erased j)
    (hself : x + (holders v.counted i + holders v.erased i : Nat) = v.nlink i + (holders c i + holders r i : Nat))
    (hx : x ≤ 32767) (hused : v.type i ≠ none)
    (hlive : v.type i = some .T_DIR → (x ≠ 0 ∧ holders r i = 0 ↔ v.live i))
    (hfile : ∀ p i, c p = some i → v.type i ≠ some .T_DIR) (hsingle : holders r i ≤ 1)
    (hcut : ∀ p i, r p = some i → v.erased p = some i) :
    ({ v with nlink := update v.nlink i x, counted := c, erased := r } : LinkView m k n).Consistent := by
  let w : LinkView m k n := { v with nlink := update v.nlink i x, counted := c, erased := r }
  have hself' : w.nlink i = x := update_self ..
  have hother : ∀ j, j ≠ i → w.nlink j = v.nlink j := fun j hj => update_of_ne hj ..
  have hlive' : ∀ d, v.type d = some .T_DIR → (w.live d ↔ v.live d) := by
    intro d hd
    by_cases hdi : d = i
    · unfold live
      rw [hdi, hself']
      exact hlive (hdi ▸ hd)
    · show w.nlink d ≠ 0 ∧ holders r d = 0 ↔ _
      rw [hother d hdi, herased d hdi]
      rfl
  have hups : w.ups = v.ups := ups_congr rfl fun d hd => hlive' d (h.dir_of_dotdot hd)
  show w.Consistent
  refine ⟨h.root_dir, h.root_up, h.root_top, fun j => ?_, fun j => ?_, h.dirs, fun j hj => ?_, h.once,
    fun d hd o => ?_, fun d hd hdir => h.parent d ((hlive' d hdir).mp hd) hdir, hfile, fun j => ?_,
    fun p j hp => h.cut p j (hcut p j hp)⟩
  · have hcount := h.count j
    show _ = ((holders v.links j + holders w.ups j + holders c j + holders r j + _ : Nat) : Int)
    unfold total at hcount
    rw [hups]
    by_cases hj : j = i
    · rw [hj, hself']
      rw [hj] at hcount
      omega
    · rw [hother j hj, hcounted j hj, herased j hj]
      exact hcount
  · by_cases hj : j = i
    · rw [hj, hself']
      exact hx
    · rw [hother j hj]
      exact h.bound j
  · rw [hother j fun he => hused (he ▸ hj)]
    exact h.free j hj
  · by_cases hdir : v.type d = some .T_DIR
    · exact h.bare d (fun hl => hd ((hlive' d hdir).mpr hl)) o
    · exact (h.dirs d hdir).2 o
  · show holders r j ≤ 1
    by_cases hj : j = i
    · rw [hj]
      exact hsingle
    · rw [herased j hj]
      exact h.single j

/-- Only files are counted ahead. -/
theorem Consistent.file_update {x : Option (Ino m k)} (hx : ∀ i, x = some i → v.type i ≠ some .T_DIR)
    (q : Slot) (j : Ino m k) (hq : update v.counted p x q = some j) : v.type j ≠ some .T_DIR := by
  rw [Function.update_apply] at hq
  split at hq
  · exact hx j hq
  · exact h.file q j hq

/-- **The first part of `sys_link`.** -/
theorem Consistent.up (hp : v.counted p = none) (hdir : v.type i ≠ some .T_DIR)
    (htype : v.type i ≠ none) (hroom : v.nlink i < 32767) :
    ({ v with nlink := update v.nlink i (v.nlink i + 1),
              counted := update v.counted p (some i) } : LinkView m k n).Consistent := by
  have hfill := holders_fill hp i
  refine h.recount (fun j hj => ?_) (fun _ _ => rfl) ?_ (by omega) htype (fun hd => absurd hd hdir)
    (h.file_update fun j hj => Option.some.inj hj ▸ hdir) (h.single i) fun _ _ => id
  · exact (hfill j).trans (by rw [if_neg hj, Nat.add_zero])
  · have hself := hfill i
    rw [if_pos rfl] at hself
    omega

/-- **`sys_link` gives up.** -/
theorem Consistent.down (hp : v.counted p = some i) :
    ({ v with nlink := update v.nlink i (v.nlink i - 1),
              counted := update v.counted p none } : LinkView m k n).Consistent := by
  have hclear := holders_clear hp
  have hbound := h.bound i
  refine h.recount (fun j hj => ?_) (fun _ _ => rfl) ?_ (by omega)
    (fun hf => h.counted_linked hp (h.free i hf)) (fun hd => absurd hd (h.file p i hp)) (h.file_update nofun) (h.single i)
    fun _ _ => id
  · have hother := hclear j
    rw [if_neg hj] at hother
    exact hother
  · have hself := hclear i
    rw [if_pos rfl] at hself
    omega

/-- A directory that is being removed has no subdirectories, and no link but the erased one. -/
theorem Consistent.last_link (hp : v.erased p = some i) (hdir : v.type i = some .T_DIR) :
    v.nlink i = 1 := by
  obtain ⟨hroot, hcut⟩ := h.cut p i hp
  have hone : holders v.erased i = 1 := Nat.le_antisymm (h.single i) (holders_pos hp)
  have hdead : ¬ v.live i := fun hl => by
    rw [hl.2] at hone
    cases hone
  have hups : holders v.ups i = 0 := by
    refine holders_eq_zero.mpr fun c hc => ?_
    unfold ups at hc
    split at hc
    · rename_i hlive
      obtain ⟨j, hj, hji⟩ := Option.map_eq_some_iff.mp hc
      have hcdir := h.dir_of_dotdot (d := c) (by rw [hj]; exact nofun)
      obtain ⟨j', o, hj', hent⟩ := h.parent c hlive.1 hcdir hlive.2
      obtain rfl := Option.some.inj (hj ▸ hj')
      rw [hji, h.bare i hdead o] at hent
      cases hent
    · cases hc
  have hcounted : holders v.counted i = 0 := holders_eq_zero.mpr fun q hq => h.file q i hq hdir
  rw [h.count i, total, hcut hdir, hups, hcounted, hone, if_neg hroot]
  rfl

/-- **`sys_unlink` lowers the count.** -/
theorem Consistent.drop (hp : v.erased p = some i) :
    ({ v with nlink := update v.nlink i (v.nlink i - 1),
              erased := update v.erased p none } : LinkView m k n).Consistent := by
  have hone : holders v.erased i = 1 := Nat.le_antisymm (h.single i) (holders_pos hp)
  have hclear := holders_clear hp
  have hself := hclear i
  have hbound := h.bound i
  rw [if_pos rfl] at hself
  refine h.recount (fun _ _ => rfl) (fun j hj => ?_) (by omega) (by omega)
    (fun hf => h.erased_linked hp (h.free i hf)) (fun hd => ?_) h.file (by omega) fun q j hq => ?_
  · have hother := hclear j
    rw [if_neg hj] at hother
    exact hother
  · have hlast := h.last_link hp hd
    show _ ↔ _ ∧ holders v.erased i = 0
    omega
  · rw [Function.update_apply] at hq
    split at hq
    · cases hq
    · exact hq

/-! ## §3. Inodes are freed and taken. -/

/-- **An inode without links changes its type and loses its contents.** -/
theorem Consistent.reset (hzero : v.nlink i = 0) (t : Option InodeType) :
    ({ v with type := update v.type i t,
              dotdot := update v.dotdot i none,
              dirent := update v.dirent i fun _ => none } : LinkView m k n).Consistent := by
  obtain ⟨hl0, -, hc0, he0, hroot⟩ := h.unlinked hzero
  have hdead : ¬ v.live i := fun hl => hl.1 hzero
  let w : LinkView m k n := { v with type := update v.type i t,
                                     dotdot := update v.dotdot i none,
                                     dirent := update v.dirent i fun _ => none }
  have hent : w.dirent = v.dirent := by
    show update v.dirent i (fun _ => none) = _
    rw [update_eq_self_iff]
    exact (funext fun o => h.bare i hdead o).symm
  have hlinks : w.links = v.links := by
    funext c
    unfold links
    rw [hent]
  have htype : ∀ j, j ≠ i → w.type j = v.type j := fun j hj => update_of_ne hj ..
  have hdot : ∀ j, j ≠ i → w.dotdot j = v.dotdot j := fun j hj => update_of_ne hj ..
  have hups : w.ups = v.ups := by
    funext c
    show (if v.live c ∧ c ≠ rootIno then (w.dotdot c).map _ else none)
      = if v.live c ∧ c ≠ rootIno then (v.dotdot c).map _ else none
    by_cases hc : c = i
    · rw [hc, if_neg fun hl => hdead hl.1, if_neg fun hl => hdead hl.1]
    · rw [hdot c hc]
  show w.Consistent
  refine ⟨by rw [htype _ hroot.symm]; exact h.root_dir, by rw [hdot _ hroot.symm]; exact h.root_up,
    by rw [hlinks]; exact h.root_top, fun j => ?_, h.bound, fun d hd => ?_, fun j hj => ?_, fun j hj => ?_,
    fun d hd o => by rw [hent]; exact h.bare d hd o, fun d hd hdir hr => ?_, fun q j hq => ?_, h.single,
    fun q j hq => ?_⟩
  · unfold total
    rw [hlinks, hups]
    exact h.count j
  · by_cases hdi : d = i
    · rw [hdi]
      exact ⟨update_self .., fun o => by rw [hent]; exact h.bare i hdead o⟩
    · rw [htype d hdi] at hd
      rw [hdot d hdi, hent]
      exact h.dirs d hd
  · by_cases hji : j = i
    · rw [hji]
      exact hzero
    · exact h.free j (htype j hji ▸ hj)
  · rw [hlinks]
    by_cases hji : j = i
    · rw [hji, hl0]
      exact Nat.zero_le 1
    · exact h.once j (htype j hji ▸ hj)
  · have hdi : d ≠ i := fun he => hdead (he ▸ hd)
    rw [htype d hdi] at hdir
    rw [hdot d hdi, hent]
    exact h.parent d hd hdir hr
  · have hji : j ≠ i := fun he => holders_eq_zero.mp hc0 q (he ▸ hq)
    rw [htype j hji]
    exact h.file q j hq
  · have hji : j ≠ i := fun he => holders_eq_zero.mp he0 q (he ▸ hq)
    rw [htype j hji, hlinks]
    exact h.cut q j hq

omit h

/-! ## §4. Entries are made and erased. -/

theorem links_update (hent : w.dirent = update v.dirent d (update (v.dirent d) o x)) :
    w.links = update v.links (d, o) (x.map (d.1, ·)) := by
  funext c
  show (w.dirent c.1 c.2).map _ = _
  rw [hent]
  by_cases hc : c = (d, o)
  · rw [hc, update_self, update_self, update_self]
  rw [update_of_ne hc]
  by_cases hd : c.1 = d
  · have ho : c.2 ≠ o := fun ho => hc (Prod.ext hd ho)
    rw [← hd, update_self, update_of_ne ho]
    rfl
  · rw [update_of_ne hd]
    rfl

/-- An empty entry is filled. -/
theorem holders_entry (hent : w.dirent = update v.dirent d (update (v.dirent d) o (some i.2)))
    (hslot : v.dirent d o = none) (hdev : i.1 = d.1) (j : Ino m k) :
    holders w.links j = holders v.links j + if j = i then 1 else 0 := by
  have hi : (some i.2).map (d.1, ·) = some i := by rw [← hdev]; rfl
  rw [links_update hent, hi]
  exact holders_fill (links_none hslot) i j

/-- The other entries stay. -/
theorem dirent_kept (hent : w.dirent = update v.dirent d (update (v.dirent d) o x)) (hslot : v.dirent d o = none)
    {d' : Ino m k} {o' : Fin n} {j : Inum k} (hj : v.dirent d' o' = some j) : w.dirent d' o' = some j := by
  rw [hent]
  by_cases hd : d' = d
  · have ho : o' ≠ o := fun ho => by
      rw [hd, ho, hslot] at hj
      cases hj
    rw [hd, update_self, update_of_ne ho, ← hd]
    exact hj
  · rw [update_of_ne hd]
    exact hj

include h

/-- **The second part of `sys_link`.** -/
theorem Consistent.linkIn (hp : v.counted p = some i) (hdir : v.type d = some .T_DIR)
    (hlive : v.live d) (hdev : d.1 = i.1) (hslot : v.dirent d o = none) :
    ({ v with dirent := update v.dirent d (update (v.dirent d) o (some i.2)),
              counted := update v.counted p none } : LinkView m k n).Consistent := by
  let w : LinkView m k n :=
    { v with dirent := update v.dirent d (update (v.dirent d) o (some i.2)),
             counted := update v.counted p none }
  have hfile := h.file p i hp
  have hups : w.ups = v.ups := rfl
  have hfill := holders_entry (v := v) (w := w) rfl hslot hdev.symm
  have hother : ∀ j, j ≠ i → holders w.links j = holders v.links j := fun j hj => by rw [hfill, if_neg hj, Nat.add_zero]
  have hne_dir : ∀ j, v.type j = some .T_DIR → j ≠ i := fun j hj he => hfile (he ▸ hj)
  have hrest : ∀ d', d' ≠ d → w.dirent d' = v.dirent d' := fun d' hd => update_of_ne hd ..
  show w.Consistent
  refine ⟨h.root_dir, h.root_up, by rw [hother _ (hne_dir _ h.root_dir)]; exact h.root_top, fun j => ?_,
    h.bound, fun d' hd' => ?_, h.free, fun j hj => by rw [hother j (hne_dir j hj)]; exact h.once j hj,
    fun d' hd' => ?_, fun d' hd' hdir' hr => ?_, fun q j hq => ?_, h.single, fun q j hq => ?_⟩
  · have h1 := hfill j
    have h2 : holders w.counted j + _ = _ := holders_clear hp j
    have h3 := h.count j
    unfold total at h3 ⊢
    have h4 : w.nlink j = v.nlink j := rfl
    have h5 : w.erased = v.erased := rfl
    rw [hups, h5]
    omega
  · rw [hrest d' fun he => hd' (he ▸ hdir)]
    exact h.dirs d' hd'
  · rw [hrest d' fun he => hd' (he ▸ hlive)]
    exact h.bare d' hd'
  · obtain ⟨j, o', hj, hent⟩ := h.parent d' hd' hdir' hr
    exact ⟨j, o', hj, dirent_kept rfl hslot hent⟩
  · exact h.file_update (x := none) nofun q j hq
  · refine ⟨(h.cut q j hq).1, fun hj => ?_⟩
    rw [hother j (hne_dir j hj)]
    exact (h.cut q j hq).2 hj

/-- **`create` makes the entries.** -/
theorem Consistent.linkNew (hdir : v.type d = some .T_DIR) (hlive : v.live d)
    (hroom : v.nlink d < 32767) (hzero : v.nlink i = 0) (htype : v.type i ≠ none) (hdev : i.1 = d.1)
    (hslot : v.dirent d o = none) {dotdot : Ino m k → Option (Inum k)}
    (hdot : ∀ j, dotdot j = if j = i ∧ v.type i = some .T_DIR then some d.2 else v.dotdot j) {nlink : Ino m k → Int}
    (hnlink : ∀ j, nlink j = if j = i then 1 else
      if j = d ∧ v.type i = some .T_DIR then v.nlink d + 1 else v.nlink j) :
    ({ v with nlink, dotdot, dirent := update v.dirent d (update (v.dirent d) o (some i.2)) } : LinkView m k n).Consistent := by
  let w : LinkView m k n := { v with nlink, dotdot, dirent := update v.dirent d (update (v.dirent d) o (some i.2)) }
  have hdot : ∀ j, w.dotdot j = _ := hdot
  have hnlink : ∀ j, w.nlink j = _ := hnlink
  obtain ⟨hl0, hu0, hc0, he0, hroot⟩ := h.unlinked hzero
  have hdi : d ≠ i := fun he => hlive.1 (he ▸ hzero)
  have hdead : ¬ v.live i := fun hl => hl.1 hzero
  have hfill := holders_entry (v := v) (w := w) rfl hslot hdev
  have hother : ∀ j, j ≠ i → holders w.links j = holders v.links j := fun j hj => by rw [hfill, if_neg hj, Nat.add_zero]
  have hself : holders w.links i = 1 := by rw [hfill, hl0, if_pos rfl]
  have hlive_i : w.live i := by
    refine ⟨?_, he0⟩
    rw [hnlink, if_pos rfl]
    decide
  have hlive_other : ∀ j, j ≠ i → (w.live j ↔ v.live j) := by
    intro j hj
    unfold live
    rw [hnlink, if_neg hj]
    split
    · rename_i hc
      have h1 := h.nlink_nonneg d
      have h2 := hlive.1
      rw [hc.1]
      constructor
      · exact fun hl => ⟨h2, hl.2⟩
      · exact fun hl => ⟨by omega, hl.2⟩
    · exact Iff.rfl
  -- the new directory is a subdirectory of `d`
  have hups : w.ups = update v.ups i (if v.type i = some .T_DIR then some d else none) := by
    funext c
    by_cases hc : c = i
    · rw [hc, update_self]
      unfold ups
      rw [if_pos ⟨hlive_i, hroot⟩, hdot]
      split
      · rw [if_pos ‹_ ∧ _›.2, hdev]
        rfl
      · rename_i hno
        have hfile : v.type i ≠ some .T_DIR := fun ht => hno ⟨rfl, ht⟩
        rw [if_neg hfile, (h.dirs i hfile).1]
        rfl
    · have hdot_c : w.dotdot c = v.dotdot c := by
        rw [hdot, if_neg fun hh => hc hh.1]
      rw [update_of_ne hc]
      unfold ups
      rw [hdot_c]
      simp only [hlive_other c hc]
  have hups_i : v.ups i = none := by
    exact if_neg fun hl => hdead hl.1
  have hrest : ∀ d', d' ≠ d → w.dirent d' = v.dirent d' := fun d' hd => update_of_ne hd ..
  show w.Consistent
  refine ⟨h.root_dir, ?_, by rw [hother _ hroot.symm]; exact h.root_top, fun j => ?_, fun j => ?_,
    fun d' hd' => ?_, fun j hj => ?_, fun j hj => ?_, fun d' hd' => ?_, fun d' hd' hdir' hr => ?_, h.file,
    h.single, fun q j hq => ?_⟩
  · rw [hdot, if_neg fun hc => hroot hc.1.symm]
    exact h.root_up
  · have h1 := holders_update v.ups i (if v.type i = some .T_DIR then some d else none) j
    have h3 := h.count j
    rw [hups_i, ← hups] at h1
    simp only [reduceCtorEq, if_false] at h1
    show _ = ((holders w.links j + holders w.ups j + holders v.counted j + holders v.erased j + _ : Nat) : Int)
    unfold total at h3
    rw [hnlink]
    by_cases hj : j = i
    · rw [hj] at h1 ⊢
      rw [if_neg (ne_of_only fun hc => hdi hc.1.symm)] at h1
      rw [if_pos rfl, hself, hc0, he0, if_neg hroot]
      omega
    rw [if_neg hj, hother j hj]
    by_cases hc : j = d ∧ v.type i = some .T_DIR
    · rw [if_pos hc.2, hc.1, if_pos rfl] at h1
      rw [hc.1] at h3
      rw [if_pos hc, hc.1]
      omega
    rw [if_neg (ne_of_only hc)] at h1
    rw [if_neg hc]
    omega
  · have := h.bound j
    rw [hnlink]
    split
    · decide
    · split
      · omega
      · exact this
  · have hne : d' ≠ d := fun he => hd' (he ▸ hdir)
    rw [hrest d' hne, hdot, if_neg fun hc => hd' (by rw [hc.1]; exact hc.2)]
    exact h.dirs d' hd'
  · have hj : v.type j = none := hj
    have hji : j ≠ i := fun he => htype (he ▸ hj)
    have hjd : j ≠ d := fun he => by
      rw [he, hdir] at hj
      cases hj
    rw [hnlink, if_neg hji, if_neg fun hc => hjd hc.1]
    exact h.free j hj
  · by_cases hji : j = i
    · rw [hji, hself]
    · rw [hother j hji]
      exact h.once j hj
  · have hd'i : d' ≠ i := fun he => hd' (he ▸ hlive_i)
    have hdead' : ¬ v.live d' := fun hl => hd' ((hlive_other d' hd'i).mpr hl)
    rw [hrest d' fun he => hdead' (he ▸ hlive)]
    exact h.bare d' hdead'
  · by_cases hd'i : d' = i
    · rw [hd'i] at hdir' ⊢
      refine ⟨d.2, o, by rw [hdot, if_pos ⟨rfl, hdir'⟩], ?_⟩
      show update v.dirent d _ (i.1, d.2) o = _
      rw [hdev, update_self, update_self]
    · obtain ⟨j, o', hj, hje⟩ := h.parent d' ((hlive_other d' hd'i).mp hd') hdir' hr
      refine ⟨j, o', ?_, dirent_kept rfl hslot hje⟩
      rw [hdot, if_neg fun hc => hd'i hc.1]
      exact hj
  · rw [hother j fun he => holders_eq_zero.mp he0 q (he ▸ hq)]
    exact h.cut q j hq

/-- **`sys_unlink` erases an entry.** -/
theorem Consistent.erase (hslot : v.dirent d o = some i.2) (hdev : i.1 = d.1)
    (hfresh : holders v.erased i = 0) (hempty : v.type i = some .T_DIR → ∀ o, v.dirent i o = none)
    (hp : v.erased p = none) {nlink : Ino m k → Int}
    (hnlink : ∀ j, nlink j = if j = d ∧ v.type i = some .T_DIR then v.nlink d - 1 else v.nlink j) :
    ({ v with nlink, dirent := update v.dirent d (update (v.dirent d) o none),
              erased := update v.erased p (some i) } : LinkView m k n).Consistent := by
  let w : LinkView m k n := { v with nlink, dirent := update v.dirent d (update (v.dirent d) o none),
                                     erased := update v.erased p (some i) }
  have hnlink : ∀ j, w.nlink j = _ := hnlink
  have hdir := h.dir_of_dirent hslot
  have hlive := h.live_of_dirent hslot
  have hslot_i : v.links (d, o) = some i := by
    rw [links_some hslot, ← hdev]
  have hpos : 0 < holders v.links i := holders_pos hslot_i
  have hroot : i ≠ rootIno := fun he => by
    rw [he, h.root_top] at hpos
    exact Nat.lt_irrefl 0 hpos
  have hlive_i : v.live i := by
    refine ⟨?_, hfresh⟩
    rw [h.count, total]
    omega
  have hholders : ∀ j, holders w.links j + (if j = i then 1 else 0) = holders v.links j := by
    rw [links_update (v := v) (w := w) rfl]
    exact holders_clear hslot_i
  have herasedj : ∀ j, holders w.erased j = holders v.erased j + if j = i then 1 else 0 := holders_fill hp i
  -- the entry is the only one that names the directory, so its `..` is `d`
  have hup_i : v.ups i = if v.type i = some .T_DIR then some d else none := by
    unfold ups
    rw [if_pos ⟨hlive_i, hroot⟩]
    split
    · rename_i hidir
      obtain ⟨j, o', hj, hje⟩ := h.parent i hlive_i hidir hroot
      have hc := holders_unique (h.once i hidir) hslot_i
        (links_some (d := (i.1, j)) hje)
      rw [hj, (Prod.mk.inj hc).1]
      rfl
    · rename_i hfile
      rw [(h.dirs i hfile).1]
      rfl
  have hnlink_d : v.type i = some .T_DIR → 2 ≤ v.nlink d := by
    intro hidir
    have hcount := h.count d
    have hupd : 0 < holders v.ups d := holders_pos (i := i) (by rw [hup_i, if_pos hidir])
    rw [total] at hcount
    by_cases hdr : d = rootIno
    · rw [if_pos hdr] at hcount
      omega
    · obtain ⟨j, o', -, hje⟩ := h.parent d hlive hdir hdr
      have hlinked : 0 < holders v.links d := holders_pos (links_some (d := (d.1, j)) hje)
      omega
  have hdead_i : ¬ w.live i := fun hl => by
    have := herasedj i
    rw [hl.2, if_pos rfl] at this
    omega
  have hlive_other : ∀ j, j ≠ i → (w.live j ↔ v.live j) := by
    intro j hj
    unfold live
    have := herasedj j
    rw [this, hnlink]
    split
    · rename_i hc
      have h1 := hnlink_d hc.2
      rw [hc.1]
      constructor
      · exact fun hl => ⟨by omega, hl.2⟩
      · exact fun hl => ⟨by omega, hl.2⟩
    · exact Iff.rfl
  have hups : w.ups = update v.ups i none := by
    funext c
    by_cases hc : c = i
    · rw [hc, update_self]
      exact if_neg fun hl => hdead_i hl.1
    · rw [update_of_ne hc]
      unfold ups
      simp only [hlive_other c hc]
      rfl
  have hsub : ∀ d' o' j, w.dirent d' o' = some j → v.dirent d' o' = some j := by
    intro d' o' j hj
    have hj : update v.dirent d _ d' o' = some j := hj
    by_cases hd : d' = d
    · rw [hd, update_self] at hj
      by_cases ho : o' = o
      · rw [ho, update_self] at hj
        cases hj
      · rw [update_of_ne ho] at hj
        rw [hd]
        exact hj
    · rwa [update_of_ne hd] at hj
  have hnone : ∀ d' o', v.dirent d' o' = none → w.dirent d' o' = none := by
    intro d' o' hno
    cases hw : w.dirent d' o' with
    | none => rfl
    | some j =>
      rw [hsub d' o' j hw] at hno
      cases hno
  show w.Consistent
  refine ⟨h.root_dir, h.root_up, ?_, fun j => ?_, fun j => ?_,
    fun d' hd' => ⟨(h.dirs d' hd').1, fun o' => hnone d' o' ((h.dirs d' hd').2 o')⟩, fun j hj => ?_, fun j hj => ?_,
    fun d' hd' o' => ?_, fun d' hd' hdir' hr => ?_, h.file, fun j => ?_, fun q j hq => ?_⟩
  · have := hholders rootIno
    rw [if_neg hroot.symm, h.root_top] at this
    exact this
  · have h1 := holders_update v.ups i none j
    have h2 := hholders j
    have h3 := h.count j
    have h4 := herasedj j
    rw [hup_i, ← hups] at h1
    simp only [reduceCtorEq, if_false] at h1
    show _ = ((holders w.links j + holders w.ups j + holders v.counted j + holders w.erased j + _ : Nat) : Int)
    unfold total at h3
    rw [hnlink]
    by_cases hc : j = d ∧ v.type i = some .T_DIR
    · rw [if_pos hc.2, hc.1, if_pos rfl] at h1
      rw [hc.1] at h2 h3 h4
      rw [if_pos hc, hc.1]
      omega
    rw [if_neg (ne_of_only hc)] at h1
    rw [if_neg hc]
    omega
  · have := h.bound j
    rw [hnlink]
    split
    · rename_i hc
      rw [hc.1] at this
      omega
    · exact this
  · have hj : v.type j = none := hj
    have hjd : j ≠ d := fun he => by
      rw [he, hdir] at hj
      cases hj
    rw [hnlink, if_neg fun hc => hjd hc.1]
    exact h.free j hj
  · have h1 := hholders j
    have h2 := h.once j hj
    omega
  · refine hnone d' o' ?_
    by_cases hd'i : d' = i
    · rw [hd'i]
      by_cases hidir : v.type i = some .T_DIR
      · exact hempty hidir o'
      · exact (h.dirs i hidir).2 o'
    · exact h.bare d' (fun hl => hd' ((hlive_other d' hd'i).mpr hl)) o'
  · have hd'i : d' ≠ i := fun he => hdead_i (he ▸ hd')
    obtain ⟨j, o', hj, hje⟩ := h.parent d' ((hlive_other d' hd'i).mp hd') hdir' hr
    refine ⟨j, o', hj, ?_⟩
    show update v.dirent d _ (d'.1, j) o' = _
    by_cases hd : (d'.1, j) = d
    · rw [hd] at hje
      have ho : o' ≠ o := fun ho => by
        rw [ho, hslot] at hje
        have hdev' : d'.1 = d.1 := by rw [← hd]
        exact hd'i (Prod.ext (hdev'.trans hdev.symm) (Option.some.inj hje).symm)
      rw [hd, update_self, update_of_ne ho]
      exact hje
    · rw [update_of_ne hd]
      exact hje
  · have h1 := herasedj j
    have h2 := h.single j
    by_cases hj : j = i
    · rw [hj, if_pos rfl, hfresh] at h1
      rw [hj, h1]
    · rw [if_neg hj] at h1
      omega
  · have hq : update v.erased p (some i) q = some j := hq
    by_cases hqp : q = p
    · rw [hqp, update_self] at hq
      cases hq
      refine ⟨hroot, fun hidir => ?_⟩
      have h1 := hholders i
      have h2 := h.once i hidir
      rw [if_pos rfl] at h1
      omega
    · rw [update_of_ne hqp] at hq
      refine ⟨(h.cut q j hq).1, fun hjdir => ?_⟩
      have h1 := hholders j
      have h2 := (h.cut q j hq).2 hjdir
      omega

end LinkView

end Xv6
