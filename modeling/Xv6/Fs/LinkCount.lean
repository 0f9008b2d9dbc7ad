/-
  Xv6.Fs.LinkCount — link counts and reachability.

  An entry other than `.` and `..` is a link.  `Inv s e` says that every link
  count is the number of links and subdirectories, up to the `e i` links that
  the call in progress has counted and not yet made, and that the links to
  directories form a tree.  `Settled` says that what nobody can reach has been
  freed.  Between calls `e` is zero.

  The calls keep this as long as nothing is created in a directory that has
  been removed; `create` and `sys_link` do not check for that.

  Main results: `link_counts`, `link_counts_orphan`.
-/
import Xv6.Fs.Namespace
import Xv6.Lib.Holders

namespace Xv6

namespace NsSys

open Function (update update_eq_self update_idem update_of_ne update_self)
open Lib (holders holders_update holders_pos holders_eq_zero bind_ok)

variable {k n : Nat} {s s' : NsSys k n} {e e' : Inum k → Int} {d i ip dp : Inum k} {o : Fin n}
  {hand hand' : List (Inum k)} {nm : Name}

/-! ## §1. Links and subdirectories. -/

/-- The inode an entry is a link to. -/
def target (x : Name × Inum k) : Option (Inum k) :=
  if x.1 = "." ∨ x.1 = ".." then none else some x.2

/-- The links. -/
def links (s : NsSys k n) : Inum k × Fin n → Option (Inum k) :=
  fun c => (s.dirent c.1 c.2).bind target

/-- The directory a subdirectory is linked in. -/
def parentOf (type : Inum k → Option InodeType) (d : Inum k) (x : Option (Inum k)) :
    Option (Inum k) :=
  match x with
  | none => none
  | some i => if type i = some .T_DIR then some d else none

/-- The subdirectories. -/
def subdirs (s : NsSys k n) : Inum k × Fin n → Option (Inum k) :=
  fun c => parentOf s.type c.1 (s.links c)

theorem dirent_setEntry (s : NsSys k n) (d : Inum k) (o o' : Fin n) (x : Option (Name × Inum k)) :
    (s.setEntry d o x).dirent d o' = if o' = o then x else s.dirent d o' := by
  show update s.dirent d (update (s.dirent d) o x) d o' = _
  rw [update_self]
  by_cases ho : o' = o
  · rw [ho, update_self, if_pos rfl]
  · rw [update_of_ne ho, if_neg ho]

theorem links_setEntry (s : NsSys k n) (d : Inum k) (o : Fin n) (x : Option (Name × Inum k)) :
    (s.setEntry d o x).links = update s.links (d, o) (x.bind target) := by
  funext ⟨d', o'⟩
  show (update s.dirent d (update (s.dirent d) o x) d' o').bind target = _
  by_cases hd : d' = d
  · rw [hd, update_self]
    by_cases ho : o' = o
    · rw [ho, update_self, update_self]
    · rw [update_of_ne ho, update_of_ne (by simp [ho])]
      rfl
  · rw [update_of_ne hd, update_of_ne (by simp [hd])]
    rfl

theorem subdirs_setEntry (s : NsSys k n) (d : Inum k) (o : Fin n) (x : Option (Name × Inum k)) :
    (s.setEntry d o x).subdirs = update s.subdirs (d, o) (parentOf s.type d (x.bind target)) := by
  funext c
  show parentOf s.type c.1 ((s.setEntry d o x).links c) = _
  rw [links_setEntry]
  by_cases hc : c = (d, o)
  · rw [hc, update_self, update_self]
  · rw [update_of_ne hc, update_of_ne hc]
    rfl

/-- The type of an inode nobody links to does not matter. -/
theorem subdirs_setType (hno : ∀ c, s.links c ≠ some i) (x : Option InodeType) : (s.setType i x).subdirs = s.subdirs := by
  funext c
  show parentOf (update s.type i x) c.1 (s.links c) = parentOf s.type c.1 (s.links c)
  unfold parentOf
  cases hc : s.links c with
  | none => rfl
  | some j =>
    have hne : j ≠ i := fun he => hno c (by rw [hc, he])
    dsimp only
    rw [update_of_ne hne]

/-- A directory without links is emptied. -/
theorem links_clear (hno : ∀ o, s.links (i, o) = none) : (s.setDir i fun _ => none).links = s.links := by
  funext ⟨d, o⟩
  show (update s.dirent i (fun _ => none) d o).bind target = _
  by_cases hd : d = i
  · rw [hd, update_self]
    exact (hno o).symm
  · rw [update_of_ne hd]
    rfl

theorem subdirs_clear (hno : ∀ o, s.links (i, o) = none) : (s.setDir i fun _ => none).subdirs = s.subdirs := by
  funext c
  show parentOf s.type c.1 ((s.setDir i fun _ => none).links c) = _
  rw [links_clear hno]
  rfl

/-! ## §2. The invariant. -/

/-- A link counted and not made, or made and not counted. -/
def bump (e : Inum k → Int) (i : Inum k) (x : Int) : Inum k → Int := update e i (e i + x)

theorem bump_apply (e : Inum k → Int) (i j : Inum k) (x : Int) :
    bump e i x j = e j + if j = i then x else 0 := by
  unfold bump
  by_cases hj : j = i
  · rw [hj, update_self, if_pos rfl]
  · rw [update_of_ne hj, if_neg hj, Int.add_zero]

/-- Link counts are the numbers of links, up to the excess `e` in the middle of a call. -/
structure Inv (s : NsSys k n) (e : Inum k → Int) : Prop where
  root_dir : s.type ROOTINO = some .T_DIR
  root_top : holders s.links ROOTINO = 0
  entries : ∀ d o, s.dirent d o ≠ none → s.type d = some .T_DIR
  count : ∀ i, s.nlink i = holders s.links i + holders s.subdirs i + (if i = ROOTINO then 1 else 0) + e i
  alive : ∀ i, s.type i = none → s.nlink i = 0 ∧ ¬ s.Referenced i
  /-- a directory has one link -/
  once : ∀ i, s.type i = some .T_DIR → holders s.links i ≤ 1
  /-- a removed directory is empty -/
  orphan : ∀ d, d ≠ ROOTINO → holders s.links d = 0 → ∀ o, s.links (d, o) = none
  ranked : ∃ r : Inum k → Nat, ∀ d o c, s.links (d, o) = some c → s.type c = some .T_DIR → r d < r c

/-- Every directory starts with `.` and `..`. -/
def Dotted (s : NsSys k n) (d : Inum k) : Prop :=
  (∃ o, o.val = 0 ∧ s.dirent d o = some (".", d)) ∧ ∃ o i, o.val = 1 ∧ s.dirent d o = some ("..", i)

/-- What has no links and no references is free, apart from what the call has in hand. -/
def Settled (s : NsSys k n) (hand : List (Inum k)) : Prop :=
  ∀ i, ¬ s.Referenced i → i ∉ hand → s.nlink i = 0 → s.type i = none

theorem Inv.congr (h : s.Inv e) (he : ∀ i, e' i = e i) : s.Inv e' :=
  ⟨h.root_dir, h.root_top, h.entries, fun i => by rw [he]; exact h.count i, h.alive, h.once, h.orphan,
    h.ranked⟩

theorem Settled.mono (h : s.Settled hand) (hsub : ∀ i ∈ hand, i ∈ hand') : s.Settled hand' :=
  fun i hr hi => h i hr fun hm => hi (hsub i hm)

theorem Settled.setNlink_ne (h : s.Settled hand) {x : Int} (hx : x ≠ 0) : (s.setNlink i x).Settled hand := by
  intro j hr hj hz
  have hz : update s.nlink i x j = 0 := hz
  by_cases hji : j = i
  · rw [hji, update_self] at hz
    exact absurd hz hx
  · rw [update_of_ne hji] at hz
    exact h j hr hj hz

/-- A link count is written. -/
theorem Inv.setNlink (h : s.Inv e) (x : Int) (hx : s.type i = none → x = 0) :
    (s.setNlink i x).Inv (bump e i (x - s.nlink i)) := by
  refine ⟨h.root_dir, h.root_top, h.entries, fun j => ?_, fun j hj => ?_, h.once, h.orphan, h.ranked⟩
  · have hj := h.count j
    show update s.nlink i x j = holders s.links j + holders s.subdirs j + _ + _
    rw [bump_apply]
    by_cases hji : j = i
    · rw [hji] at hj ⊢
      rw [update_self, if_pos rfl]
      omega
    · rw [update_of_ne hji, if_neg hji]
      omega
  · have hj : s.type j = none := hj
    refine ⟨?_, (h.alive j hj).2⟩
    show update s.nlink i x j = 0
    by_cases hji : j = i
    · rw [hji, update_self]
      exact hx (by rw [← hji]; exact hj)
    · rw [update_of_ne hji]
      exact (h.alive j hj).1

/-- A directory that can hold links: the root, or one that is linked. -/
theorem Inv.linked (h : s.Inv e) (he : e d = 0) (hd : s.nlink d ≠ 0) : d = ROOTINO ∨ 0 < holders s.links d := by
  by_contra hno
  have hroot : d ≠ ROOTINO := fun hr => hno (.inl hr)
  have hzero : holders s.links d = 0 := by omega
  have hsub : holders s.subdirs d = 0 := by
    refine holders_eq_zero.mpr fun c hc => ?_
    -- a subdirectory of `d` is a link in `d`
    obtain ⟨d', o⟩ := c
    unfold subdirs parentOf at hc
    split at hc
    · cases hc
    rename_i j hj
    split at hc
    · obtain rfl : d' = d := Option.some.inj hc
      rw [h.orphan d' hroot hzero o] at hj
      cases hj
    · cases hc
  have hcount := h.count d
  rw [hzero, hsub, if_neg hroot, he] at hcount
  exact hd hcount

/-- A directory with a link in it is the root or linked. -/
theorem Inv.holder_linked (h : s.Inv e) (hlink : s.links (d, o) = some i) : d = ROOTINO ∨ 0 < holders s.links d := by
  by_contra hno
  have hz := h.orphan d (fun hr => hno (.inl hr)) (by omega) o
  rw [hlink] at hz
  cases hz

theorem links_empty (h : s.dirent d o = none) : s.links (d, o) = none := by
  unfold links
  rw [h]
  rfl

/-- An entry is written in a directory. -/
theorem Inv.entries_set (h : s.Inv e) (hdir : s.type d = some .T_DIR) {x : Option (Name × Inum k)} (d' : Inum k) (o' : Fin n)
    (hne : (s.setEntry d o x).dirent d' o' ≠ none) : s.type d' = some .T_DIR := by
  by_cases hd : d' = d
  · rw [hd]; exact hdir
  · refine h.entries d' o' fun hn => hne ?_
    show update s.dirent d _ d' o' = none
    rw [update_of_ne hd]
    exact hn

/-- An entry that is not a link is written, in an empty slot. -/
theorem Inv.setDot (h : s.Inv e) (hdot : nm = "." ∨ nm = "..")
    (hdir : s.type d = some .T_DIR) (hempty : s.dirent d o = none) : (s.setEntry d o (some (nm, i))).Inv e := by
  have hlinks : (s.setEntry d o (some (nm, i))).links = s.links := by
    rw [links_setEntry]
    show update s.links (d, o) (target (nm, i)) = s.links
    unfold target
    rw [if_pos hdot, ← links_empty hempty, update_eq_self]
  have hsubs : (s.setEntry d o (some (nm, i))).subdirs = s.subdirs := by
    funext c
    show parentOf s.type c.1 ((s.setEntry d o (some (nm, i))).links c) = _
    rw [hlinks]
    rfl
  exact ⟨h.root_dir, by rw [hlinks]; exact h.root_top, h.entries_set hdir, fun j => by rw [hlinks, hsubs]; exact h.count j,
    h.alive, fun j => by rw [hlinks]; exact h.once j, fun j => by rw [hlinks]; exact h.orphan j,
    by rw [hlinks]; exact h.ranked⟩

theorem target_dot (hdot : nm = "." ∨ nm = "..") : target (nm, i) = none := if_pos hdot

theorem target_link (hdot : ¬ (nm = "." ∨ nm = "..")) : target (nm, i) = some i := if_neg hdot

theorem links_of_entry (hdot : ¬ (nm = "." ∨ nm = "..")) (he : s.dirent d o = some (nm, i)) :
    s.links (d, o) = some i := by
  unfold links
  rw [he]
  exact target_link hdot

variable {t : Inum k × Fin n → Option (Inum k)}

/-- The number of links after one was written where there was none. -/
theorem holders_add {c : Inum k × Fin n} (hc : t c = none)
    (x : Option (Inum k)) (j : Inum k) :
    holders (update t c x) j = holders t j + if x = some j then 1 else 0 := by
  have := holders_update t c x j
  rw [hc] at this
  simpa using this

/-- The number of links after one was erased. -/
theorem holders_erase (t : Inum k × Fin n → Option (Inum k)) (c : Inum k × Fin n) (j : Inum k) :
    holders (update t c none) j + (if t c = some j then 1 else 0) = holders t j := by
  have := holders_update t c none j
  simpa using this

variable {x : Option (Inum k)}

theorem parentOf_eq_some {type : Inum k → Option InodeType} {j : Inum k} :
    parentOf type d x = some j ↔ d = j ∧ ∃ i, x = some i ∧ type i = some .T_DIR := by
  unfold parentOf
  cases x with
  | none => exact ⟨nofun, fun ⟨_, _, hx, _⟩ => nomatch hx⟩
  | some i =>
    dsimp only
    split
    · rename_i ht
      exact ⟨fun h => ⟨Option.some.inj h, i, rfl, ht⟩, fun h => congrArg some h.1⟩
    · rename_i ht
      refine ⟨nofun, fun ⟨_, i', hi, ht'⟩ => absurd ?_ ht⟩
      rw [Option.some.inj hi]
      exact ht'

/-- **A link is made** in a directory that is itself linked.  It had been counted
for the inode; for a subdirectory the parent is still to be counted. -/
theorem Inv.addLink (h : s.Inv e) (hdot : ¬ (nm = "." ∨ nm = ".."))
    (hdir : s.type dp = some .T_DIR) (hlive : dp = ROOTINO ∨ 0 < holders s.links dp)
    (hempty : s.dirent dp o = none) (hroot : ip ≠ ROOTINO)
    (hnew : s.type ip = some .T_DIR → holders s.links ip = 0) :
    (s.setEntry dp o (some (nm, ip))).Inv
      (bump (bump e ip (-1)) dp (if s.type ip = some .T_DIR then -1 else 0)) := by
  have hno := links_empty hempty
  have hnosub : s.subdirs (dp, o) = none := by
    unfold subdirs
    rw [hno]
    rfl
  have hlinks : (s.setEntry dp o (some (nm, ip))).links = update s.links (dp, o) (some ip) := by
    rw [links_setEntry]
    show update s.links (dp, o) (target (nm, ip)) = _
    rw [target_link hdot]
  have hsubs : (s.setEntry dp o (some (nm, ip))).subdirs
      = update s.subdirs (dp, o) (parentOf s.type dp (some ip)) := by
    rw [subdirs_setEntry]
    show update s.subdirs (dp, o) (parentOf s.type dp (target (nm, ip))) = _
    rw [target_link hdot]
  have hl : ∀ j, holders (s.setEntry dp o (some (nm, ip))).links j
      = holders s.links j + if ip = j then 1 else 0 := by
    intro j
    rw [hlinks, holders_add hno]
    simp only [Option.some.injEq]
  have hs : ∀ j, holders (s.setEntry dp o (some (nm, ip))).subdirs j
      = holders s.subdirs j + if dp = j ∧ s.type ip = some .T_DIR then 1 else 0 := by
    intro j
    rw [hsubs, holders_add hnosub]
    simp only [parentOf_eq_some, Option.some.injEq, exists_eq_left']
  refine ⟨h.root_dir, ?_, h.entries_set hdir, fun j => ?_, h.alive, fun j hj => ?_, fun d' hd' hz o' => ?_, ?_⟩
  · rw [hl, if_neg hroot, h.root_top]
  · have hj := h.count j
    show s.nlink j = _
    rw [hl, hs, bump_apply, bump_apply]
    simp only [eq_comm (a := ip), eq_comm (a := dp)]
    by_cases hd : s.type ip = some .T_DIR
    · simp only [hd, and_true, if_true]
      split <;> split <;> omega
    · simp only [hd, and_false, if_false]
      split <;> omega
  · have hj : s.type j = some .T_DIR := hj
    rw [hl]
    by_cases hij : ip = j
    · rw [if_pos hij, ← hij, hnew (by rw [hij]; exact hj)]
    · rw [if_neg hij]
      exact h.once j hj
  · -- a directory without links is not `dp`
    rw [hl] at hz
    have hz' : holders s.links d' = 0 := by omega
    have hne : d' ≠ dp := by
      rintro rfl
      rcases hlive with hr | hp
      · exact hd' hr
      · omega
    rw [hlinks, update_of_ne (by simp [hne])]
    exact h.orphan d' hd' hz' o'
  obtain ⟨r, hr⟩ := h.ranked
  by_cases hd : s.type ip = some .T_DIR
  · -- a new directory is below its parent, and nothing is below it
    have hbare := h.orphan ip hroot (hnew hd)
    have hunlinked := holders_eq_zero.mp (hnew hd)
    refine ⟨update r ip (r dp + 1), fun d' o' c hc ht => ?_⟩
    rw [hlinks] at hc
    have hne : d' ≠ ip ∨ (d', o') = (dp, o) := by
      by_cases hcell : (d', o') = (dp, o)
      · exact .inr hcell
      · left
        rintro rfl
        rw [update_of_ne hcell, hbare o'] at hc
        cases hc
    by_cases hcell : (d', o') = (dp, o)
    · obtain rfl : ip = c := by
        rw [hcell, update_self] at hc
        exact Option.some.inj hc
      obtain rfl : d' = dp := congrArg Prod.fst hcell
      have hpi : d' ≠ ip := by
        rintro rfl
        rcases hlive with hr | hp
        · exact hroot hr
        · rw [hnew hd] at hp
          omega
      rw [update_self, update_of_ne hpi]
      omega
    · rw [update_of_ne hcell] at hc
      have hci : c ≠ ip := by
        rintro rfl
        exact hunlinked _ hc
      rw [update_of_ne (hne.resolve_right hcell), update_of_ne hci]
      exact hr d' o' c hc ht
  · refine ⟨r, fun d' o' c hc ht => ?_⟩
    rw [hlinks] at hc
    by_cases hcell : (d', o') = (dp, o)
    · rw [hcell, update_self] at hc
      rw [← Option.some.inj hc] at ht
      exact absurd ht hd
    · rw [update_of_ne hcell] at hc
      exact hr d' o' c hc ht

/-- **A link is erased.**  The counts are still to follow. -/
theorem Inv.eraseLink (h : s.Inv e) (hlink : s.links (dp, o) = some ip)
    (hbare : s.type ip = some .T_DIR → ∀ o', s.links (ip, o') = none) :
    (s.setEntry dp o none).Inv
      (bump (bump e ip 1) dp (if s.type ip = some .T_DIR then 1 else 0)) := by
  have hlinks : (s.setEntry dp o none).links = update s.links (dp, o) none :=
    links_setEntry s dp o none
  have hsubs : (s.setEntry dp o none).subdirs = update s.subdirs (dp, o) none :=
    subdirs_setEntry s dp o none
  have hl : ∀ j, holders (s.setEntry dp o none).links j + (if ip = j then 1 else 0)
      = holders s.links j := by
    intro j
    have := holders_erase s.links (dp, o) j
    rw [← hlinks, hlink] at this
    simpa only [Option.some.injEq] using this
  have hs : ∀ j, holders (s.setEntry dp o none).subdirs j
      + (if dp = j ∧ s.type ip = some .T_DIR then 1 else 0) = holders s.subdirs j := by
    intro j
    have hcell : s.subdirs (dp, o) = parentOf s.type dp (some ip) := by
      unfold subdirs
      rw [hlink]
    have := holders_erase s.subdirs (dp, o) j
    rw [← hsubs, hcell] at this
    simpa only [parentOf_eq_some, Option.some.injEq, exists_eq_left'] using this
  refine ⟨h.root_dir, ?_, fun d' o' hne => ?_, fun j => ?_, h.alive, fun j hj => ?_,
    fun d' hd' hz o' => ?_, ?_⟩
  · have h1 := hl ROOTINO
    rw [h.root_top] at h1
    omega
  · refine h.entries d' o' fun hn => hne ?_
    show update s.dirent dp _ d' o' = none
    by_cases hd : d' = dp
    · subst hd
      rw [update_self]
      by_cases ho : o' = o
      · rw [ho, update_self]
      · rw [update_of_ne ho]
        exact hn
    · rw [update_of_ne hd]
      exact hn
  · have hj := h.count j
    have h1 := hl j
    have h2 := hs j
    show s.nlink j = _
    rw [bump_apply, bump_apply]
    simp only [eq_comm (a := ip), eq_comm (a := dp)] at h1 h2
    by_cases hd : s.type ip = some .T_DIR
    · simp only [hd, and_true, if_true] at h2 ⊢
      split_ifs at hj h1 h2 ⊢ <;> omega
    · simp only [hd, and_false, if_false] at h2 ⊢
      split_ifs at hj h1 ⊢ <;> omega
  · have hj : s.type j = some .T_DIR := hj
    have h1 := hl j
    have h2 := h.once j hj
    omega
  · rw [hlinks]
    by_cases hcell : (d', o') = (dp, o)
    · rw [hcell, update_self]
    rw [update_of_ne hcell]
    have h1 := hl d'
    by_cases hip : ip = d'
    · subst hip
      by_cases hd : s.type ip = some .T_DIR
      · exact hbare hd o'
      -- only a directory has entries
      have hn : s.dirent ip o' = none := by
        by_contra hne
        exact hd (h.entries ip o' hne)
      exact links_empty hn
    · rw [if_neg hip] at h1
      exact h.orphan d' hd' (by omega) o'
  · obtain ⟨r, hr⟩ := h.ranked
    refine ⟨r, fun d' o' c hc ht => hr d' o' c ?_ ht⟩
    rw [hlinks] at hc
    by_cases hcell : (d', o') = (dp, o)
    · rw [hcell, update_self] at hc
      cases hc
    · rw [update_of_ne hcell] at hc
      exact hc

/-! ## §3. Inodes are allocated and freed. -/

/-- Nothing links to an inode without links, and it has no links itself. -/
theorem Inv.unlinked (h : s.Inv e) (he : e i = 0) (hz : s.nlink i = 0) :
    i ≠ ROOTINO ∧ (∀ c, s.links c ≠ some i) ∧ ∀ o, s.links (i, o) = none := by
  have hcount := h.count i
  have hroot : i ≠ ROOTINO := by
    rintro hr
    rw [if_pos hr] at hcount
    omega
  exact ⟨hroot, holders_eq_zero.mp (by omega), h.orphan i hroot (by omega)⟩

/-- The type of an inode without links is written, and its contents cleared. -/
theorem Inv.retype (h : s.Inv e) (he : e i = 0) (hz : s.nlink i = 0) (x : Option InodeType)
    (hx : x = none → ¬ s.Referenced i) : ((s.setDir i fun _ => none).setType i x).Inv e := by
  obtain ⟨hroot, hunlinked, hbare⟩ := h.unlinked he hz
  have hlinks : ((s.setDir i fun _ => none).setType i x).links = s.links := links_clear hbare
  have hsubs : ((s.setDir i fun _ => none).setType i x).subdirs = s.subdirs := by
    have hno : ∀ c, (s.setDir i fun _ => none).links c ≠ some i := by
      rw [links_clear hbare]
      exact hunlinked
    rw [subdirs_setType hno, subdirs_clear hbare]
  have htype : ∀ j, j ≠ i → ((s.setDir i fun _ => none).setType i x).type j = s.type j :=
    fun j hj => update_of_ne hj ..
  refine ⟨?_, by rw [hlinks]; exact h.root_top, fun d o hne => ?_, fun j => ?_, fun j hj => ?_,
    fun j hj => ?_, fun d => by rw [hlinks]; exact h.orphan d, ?_⟩
  · rw [htype _ hroot.symm]
    exact h.root_dir
  · have hne : update s.dirent i (fun _ => none) d o ≠ none := hne
    by_cases hd : d = i
    · rw [hd, update_self] at hne
      exact absurd rfl hne
    · rw [update_of_ne hd] at hne
      rw [htype d hd]
      exact h.entries d o hne
  · rw [hlinks, hsubs]
    exact h.count j
  · by_cases hji : j = i
    · subst hji
      have hj : update s.type j x j = none := hj
      rw [update_self] at hj
      exact ⟨hz, hx hj⟩
    · rw [htype j hji] at hj
      exact h.alive j hj
  · rw [hlinks]
    by_cases hji : j = i
    · rw [hji, holders_eq_zero.mpr hunlinked]
      omega
    · rw [htype j hji] at hj
      exact h.once j hj
  · rw [hlinks]
    obtain ⟨r, hr⟩ := h.ranked
    refine ⟨r, fun d o c hc ht => hr d o c hc ?_⟩
    rw [← ht]
    exact (htype c fun hci => hunlinked _ (by rw [hc, hci])).symm

/-- Between two calls, or in the middle of one that has inodes in hand. -/
structure Tidy (s : NsSys k n) (hand : List (Inum k)) : Prop where
  inv : s.Inv fun _ => 0
  dotted : ∀ d, s.type d = some .T_DIR → s.Dotted d
  settled : s.Settled hand

/-- Nothing is freed as long as everything is settled. -/
theorem Settled.iput_eq (h : s.Settled hand) (i : Inum k) : s.iput hand i = s := by
  unfold iput
  split
  · rfl
  · rename_i hno
    split
    · rename_i hz
      exact absurd (h i (fun hr => hno (.inl hr)) (fun hm => hno (.inr hm)) hz.2) hz.1
    · rfl

theorem Settled.iput_any (h : s.Settled []) (hand : List (Inum k)) (i : Inum k) : s.iput hand i = s := by
  have hall : s.Settled hand := h.mono fun _ hm => nomatch hm
  exact hall.iput_eq i

theorem Dotted.ifree (h : s.Dotted d) (hd : d ≠ i) : (s.ifree i).Dotted d := by
  have hdir : (s.ifree i).dirent d = s.dirent d := update_of_ne hd ..
  unfold Dotted
  rw [hdir]
  exact h

/-- An inode without links and references is freed. -/
theorem Inv.ifree (h : s.Inv fun _ => 0) (hz : s.nlink i = 0) (hunref : ¬ s.Referenced i)
    (hdotted : ∀ d, d ≠ i → s.type d = some .T_DIR → s.Dotted d) (hsettled : s.Settled (i :: hand)) :
    (s.ifree i).Tidy hand := by
  refine ⟨h.retype rfl hz none fun _ => hunref, fun d hd => ?_, fun j hr hj hz => ?_⟩
  · have hd : update s.type i none d = some .T_DIR := hd
    by_cases hdi : d = i
    · rw [hdi, update_self] at hd
      cases hd
    · rw [update_of_ne hdi] at hd
      exact (hdotted d hdi hd).ifree hdi
  · show update s.type i none j = none
    by_cases hji : j = i
    · rw [hji, update_self]
    · rw [update_of_ne hji]
      exact hsettled j hr (fun hm => (List.mem_cons.mp hm).elim hji hj) hz

/-- **`iput`** settles the inode that the call lets go of. -/
theorem Tidy.iput (h : s.Tidy (i :: hand)) : (s.iput hand i).Tidy hand := by
  unfold NsSys.iput
  split
  · rename_i hkeep
    refine ⟨h.inv, h.dotted, fun j hr hj hz => ?_⟩
    by_cases hji : j = i
    · rw [hji] at hr hj
      exact absurd hkeep (not_or.mpr ⟨hr, hj⟩)
    · exact h.settled j hr (fun hm => (List.mem_cons.mp hm).elim hji hj) hz
  rename_i hno
  split
  · rename_i hfree
    exact h.inv.ifree hfree.2 (fun hr => hno (.inl hr)) (fun d _ => h.dotted d) h.settled
  · rename_i hkeep
    refine ⟨h.inv, h.dotted, fun j hr hj hz => ?_⟩
    by_cases hji : j = i
    · subst hji
      by_contra ht
      exact hkeep ⟨ht, hz⟩
    · exact h.settled j hr (fun hm => (List.mem_cons.mp hm).elim hji hj) hz

/-! ## §4. Path lookup. -/

/-- What `namex` finds, when nothing is freed on the way. -/
def seek (s : NsSys k n) (parent : Bool) (ip : Inum k) : List Name → NsResult (Option (Inum k × Name))
  | [] => .ok (if parent then none else some (ip, ""))
  | name :: path => do
      let type ← s.ilock ip
      if type ≠ .T_DIR then .ok none
      else if parent && path.isEmpty then .ok (some (ip, name))
      else
        match s.dirlookup ip name with
        | none => .ok none
        | some (_, next) => seek s parent next path

theorem Settled.walk_eq (h : s.Settled hand) (parent : Bool) (path : List Name) :
    ∀ ip, s.walk hand parent ip path = (s.seek parent ip path).map fun r => (s, r) := by
  induction path with
  | nil =>
    intro ip
    unfold walk seek
    rw [h.iput_eq]
    cases parent <;> rfl
  | cons name path ih =>
    intro ip
    unfold walk seek
    cases s.ilock ip with
    | error err => rfl
    | ok type =>
      show (if type ≠ .T_DIR then _ else _) = Except.map _ (if type ≠ .T_DIR then _ else _)
      rw [h.iput_eq]
      split
      · rfl
      split
      · rfl
      cases s.dirlookup ip name with
      | none => rfl
      | some r =>
        have hsub : s.Settled (r.2 :: hand) := h.mono fun _ hm => List.mem_cons_of_mem _ hm
        dsimp only
        rw [hsub.iput_eq]
        exact ih r.2

/-- What `nameiparent` finds is a directory. -/
theorem seek_dir (path : List Name) : ∀ ip, s.seek true ip path = .ok (some (dp, nm)) → s.type dp = some .T_DIR := by
  induction path with
  | nil =>
    intro ip h
    cases h
  | cons name path ih =>
    intro ip h
    unfold seek ilock at h
    cases htype : s.type ip with
    | none => rw [htype] at h; cases h
    | some type =>
      rw [htype] at h
      have h : (if type ≠ .T_DIR then Except.ok none
        else if true && path.isEmpty then Except.ok (some (ip, name))
        else match s.dirlookup ip name with
          | none => Except.ok none
          | some (_, next) => s.seek true next path : NsResult _) = .ok (some (dp, nm)) := h
      split at h
      · cases h
      rename_i hdir
      split at h
      · obtain rfl : ip = dp := congrArg Prod.fst (Option.some.inj (Except.ok.inj h))
        rw [htype, not_not.mp hdir]
      · split at h
        · cases h
        · exact ih _ h

theorem seek_setNlink (i : Inum k) (x : Int) (parent : Bool) (path : List Name) :
    ∀ ip, (s.setNlink i x).seek parent ip path = s.seek parent ip path := by
  induction path with
  | nil => exact fun _ => rfl
  | cons name path ih =>
    intro ip
    unfold seek
    simp only [ih]
    rfl

/-- Where the lookup of a path starts. -/
def start (s : NsSys k n) (p : Slot) (path : Path) : Option (Inum k) :=
  if path.rooted then some ROOTINO else s.cwd p

variable {p : Slot} {path : Path} {r : Option (Inum k × Name)}

/-- **`namex`** changes nothing. -/
theorem Settled.namex (h : s.Settled hand) {parent : Bool} (hrun : s.namex hand parent p path = .ok (s', r)) :
    s' = s ∧ ∃ ip, s.start p path = some ip ∧ s.seek parent ip path.names = .ok r := by
  have hwalk : ∀ ip, s.walk hand parent ip path.names = .ok (s', r) →
      s' = s ∧ s.seek parent ip path.names = .ok r := by
    intro ip hw
    rw [h.walk_eq] at hw
    cases hseek : s.seek parent ip path.names with
    | error err => rw [hseek] at hw; cases hw
    | ok r' =>
      rw [hseek] at hw
      have hpair : (s, r') = (s', r) := Except.ok.inj hw
      exact ⟨(congrArg Prod.fst hpair).symm, congrArg Except.ok (congrArg Prod.snd hpair)⟩
  unfold NsSys.namex at hrun
  unfold start
  split at hrun
  · rename_i hroot
    obtain ⟨hs, hseek⟩ := hwalk _ hrun
    exact ⟨hs, ROOTINO, if_pos hroot, hseek⟩
  rename_i hroot
  rw [if_neg hroot]
  split at hrun
  · cases hrun
  · rename_i d hd
    obtain ⟨hs, hseek⟩ := hwalk _ hrun
    exact ⟨hs, d, hd, hseek⟩

theorem Settled.namex_of_seek (h : s.Settled hand) {parent : Bool} {ip : Inum k} (hstart : s.start p path = some ip)
    (hseek : s.seek parent ip path.names = .ok r) : s.namex hand parent p path = .ok (s, r) := by
  have hwalk : s.walk hand parent ip path.names = .ok (s, r) := by
    rw [h.walk_eq, hseek]
    rfl
  unfold NsSys.namex
  unfold start at hstart
  split
  · rename_i hroot
    rw [if_pos hroot] at hstart
    rw [Option.some.inj hstart]
    exact hwalk
  · rename_i hroot
    rw [if_neg hroot] at hstart
    rw [hstart]
    exact hwalk

/-! ## §5. Directory entries. -/

theorem dirlookup_some (h : s.dirlookup d nm = some (o, i)) : s.dirent d o = some (nm, i) := by
  obtain ⟨o', -, ho'⟩ := List.exists_of_findSome?_eq_some h
  split at ho'
  · cases ho'
  rename_i nm' i' he
  split at ho'
  · rename_i hnm
    obtain ⟨rfl, rfl⟩ : o' = o ∧ i' = i := Prod.mk.inj (Option.some.inj ho')
    rw [he, hnm]
  · cases ho'

theorem dirlookup_none (h : s.dirlookup d nm = none) (o : Fin n) (i : Inum k) : s.dirent d o ≠ some (nm, i) := by
  intro he
  have := List.findSome?_eq_none_iff.mp h o (List.mem_finRange o)
  rw [he] at this
  dsimp only at this
  rw [if_pos rfl] at this
  cases this

/-- A name that is not in a directory is neither `.` nor `..`. -/
theorem Dotted.link_name (h : s.Dotted d) (hno : s.dirlookup d nm = none) : ¬ (nm = "." ∨ nm = "..") := by
  obtain ⟨⟨o, -, ho⟩, o', i, -, ho'⟩ := h
  rintro (rfl | rfl)
  · exact dirlookup_none hno o d ho
  · exact dirlookup_none hno o' i ho'

/-- **`dirlink`** writes the first empty slot of a directory without the name. -/
theorem dirlink_some {room : Bool} (h : s.dirlink d nm i room = some s') :
    s.dirlookup d nm = none ∧ ∃ o, s.dirent d o = none ∧ (∀ j < o, s.dirent d j ≠ none)
      ∧ s' = s.setEntry d o (some (nm, i)) := by
  unfold dirlink at h
  split at h
  · cases h
  rename_i hno
  split at h
  · cases h
  rename_i o hfind
  split at h
  · refine ⟨hno, o, ?_, fun j hj => ?_, (Option.some.inj h).symm⟩
    · have hfound := List.find?_some hfind
      simpa using hfound
    -- `o` is the first of the slots in their order
    obtain ⟨-, m, hm, ho, hfirst⟩ := List.find?_eq_some_iff_getElem.mp hfind
    have hlt : j.val < m := by
      rw [List.getElem_finRange] at ho
      have : m = o.val := congrArg Fin.val ho
      omega
    have hj := hfirst j.val hlt
    simpa using hj
  · cases h

/-- An entry is written and no directory loses its dots. -/
theorem Dotted.setEntry (h : s.Dotted d) {x : Option (Name × Inum k)}
    (ho : s.dirent dp o = none ∨ ∃ nm i, ¬ (nm = "." ∨ nm = "..") ∧ s.dirent dp o = some (nm, i)) :
    (s.setEntry dp o x).Dotted d := by
  have hsame : ∀ o' nm i, (nm = "." ∨ nm = "..") → s.dirent d o' = some (nm, i) →
      (s.setEntry dp o x).dirent d o' = some (nm, i) := by
    intro o' nm i hdot he
    show update s.dirent dp (update (s.dirent dp) o x) d o' = _
    by_cases hd : d = dp
    · subst hd
      have hne : o' ≠ o := by
        rintro rfl
        rcases ho with hn | ⟨nm', i', hno, hs⟩
        · rw [hn] at he; cases he
        · rw [hs] at he
          cases he
          exact hno hdot
      rw [update_self, update_of_ne hne]
      exact he
    · rw [update_of_ne hd]
      exact he
  obtain ⟨⟨o₀, h₀, he₀⟩, o₁, i₁, h₁, he₁⟩ := h
  exact ⟨⟨o₀, h₀, hsame _ _ _ (.inl rfl) he₀⟩, o₁, i₁, h₁, hsame _ _ _ (.inr rfl) he₁⟩

/-- Only references change, and every reference is to an inode in use. -/
theorem Tidy.refs (h : s.Tidy hand) (htype : s'.type = s.type) (hnlink : s'.nlink = s.nlink)
    (hdir : s'.dirent = s.dirent) (halive : ∀ j, s'.Referenced j → s.type j ≠ none)
    (hsettled : ∀ j, j ∉ hand' → ¬ s'.Referenced j → j ∉ hand ∧ ¬ s.Referenced j) : s'.Tidy hand' := by
  obtain ⟨type, nlink, dirent, cwd, files⟩ := s
  obtain ⟨type', nlink', dirent', cwd', files'⟩ := s'
  subst htype hnlink hdir
  refine ⟨⟨h.inv.root_dir, h.inv.root_top, h.inv.entries, h.inv.count, fun i hi => ?_, h.inv.once,
    h.inv.orphan, h.inv.ranked⟩, h.dotted, fun j hr hj hz => ?_⟩
  · exact ⟨(h.inv.alive i hi).1, fun hr => halive i hr hi⟩
  · obtain ⟨hj', hr'⟩ := hsettled j hj hr
    exact h.settled j hr' hj' hz

theorem Tidy.inUse (h : s.Tidy hand) (hr : s.Referenced i) : s.type i ≠ none :=
  fun ht => (h.inv.alive i ht).2 hr

/-! ## §6. `create`. -/

/-- An inode that `create` has allocated and not linked yet. -/
structure Fresh (s : NsSys k n) (ip : Inum k) (type : InodeType) : Prop where
  inv : s.Inv (bump (fun _ => 0) ip 1)
  dotted : ∀ d, d ≠ ip → s.type d = some .T_DIR → s.Dotted d
  settled : s.Settled [ip]
  type_eq : s.type ip = some type
  unref : ¬ s.Referenced ip
  one : s.nlink ip = 1

variable {type : InodeType}

theorem Fresh.unlinked (h : s.Fresh ip type) : ip ≠ ROOTINO ∧ holders s.links ip = 0 := by
  have hcount := h.inv.count ip
  rw [h.one, bump_apply, if_pos rfl] at hcount
  by_cases hr : ip = ROOTINO
  · rw [if_pos hr] at hcount
    omega
  · rw [if_neg hr] at hcount
    exact ⟨hr, by omega⟩

/-- **`ialloc`** -/
theorem Tidy.ialloc (h : s.Tidy []) (halloc : s.ialloc type = some (s', ip)) :
    (s'.setNlink ip 1).Fresh ip type ∧ s.type ip = none
      ∧ (∀ d, d ≠ ip → (s'.setNlink ip 1).type d = s.type d ∧ (s'.setNlink ip 1).nlink d = s.nlink d
        ∧ (s'.setNlink ip 1).dirent d = s.dirent d) ∧ ∀ o, (s'.setNlink ip 1).dirent ip o = none := by
  unfold NsSys.ialloc at halloc
  split at halloc
  · cases halloc
  rename_i i hfind
  obtain ⟨hs, rfl⟩ := Prod.mk.inj (Option.some.inj halloc)
  have hfree : s.type i = none := by
    have hfound := List.find?_some hfind
    simp only [decide_eq_true_eq] at hfound
    exact hfound.2
  obtain ⟨hz, hunref⟩ := h.inv.alive i hfree
  have hret := h.inv.retype rfl hz (some type) nofun
  have htype : ((s.setDir i fun _ => none).setType i (some type)).type i = some type := by
    show update s.type i (some type) i = some type
    rw [update_self]
  have hinv := (hret.setNlink (i := i) 0 fun _ => rfl).setNlink (i := i) 1 fun hn => by
    have hn : ((s.setDir i fun _ => none).setType i (some type)).type i = none := hn
    rw [htype] at hn
    cases hn
  subst hs
  have hother : ∀ d, d ≠ i →
      update s.type i (some type) d = s.type d
      ∧ update (update s.nlink i 0) i 1 d = s.nlink d
      ∧ update s.dirent i (fun _ => none) d = s.dirent d := fun d hd =>
    ⟨update_of_ne hd .., by rw [update_of_ne hd, update_of_ne hd],
      update_of_ne hd ..⟩
  refine ⟨⟨hinv.congr fun j => ?_, fun d hd ht => ?_, fun j hr hj hzero => ?_, htype, hunref,
    update_self ..⟩, hfree, hother, fun o => ?_⟩
  · have h1 : ((s.setDir i fun _ => none).setType i (some type)).nlink i = 0 := hz
    have h2 : (((s.setDir i fun _ => none).setType i (some type)).setNlink i 0).nlink i = 0 :=
      update_self ..
    simp only [bump_apply]
    split <;> omega
  · obtain ⟨ht', -, hd'⟩ := hother d hd
    have ht : update s.type i (some type) d = _ := ht
    rw [ht'] at ht
    have hdot := h.dotted d ht
    unfold Dotted at hdot ⊢
    rw [← hd'] at hdot
    exact hdot
  · have hji : j ≠ i := fun he => hj (he ▸ List.mem_cons_self)
    obtain ⟨ht', hn', -⟩ := hother j hji
    exact ht'.trans (h.settled j hr nofun (hn'.symm.trans hzero))
  · show update s.dirent i (fun _ => none) i o = none
    rw [update_self]

theorem Fresh.setDot (h : s.Fresh ip type) (hdot : nm = "." ∨ nm = "..")
    (hdir : type = .T_DIR) (hempty : s.dirent ip o = none) : (s.setEntry ip o (some (nm, i))).Fresh ip type :=
  ⟨h.inv.setDot hdot (by rw [h.type_eq, hdir]) hempty, fun d hd ht =>
    (h.dotted d hd ht).setEntry (.inl hempty), h.settled, h.type_eq, h.unref, h.one⟩

/-- The label `fail`: the inode is freed again. -/
theorem Fresh.createFail (h : s.Fresh ip type) (hne : dp ≠ ip) : (s.createFail dp ip).Tidy [] := by
  have hinv : (s.setNlink ip 0).Inv fun _ => 0 := by
    refine (h.inv.setNlink (i := ip) 0 fun _ => rfl).congr fun j => ?_
    rw [h.one]
    simp only [bump_apply]
    split <;> omega
  have hzero : (s.setNlink ip 0).nlink ip = 0 := update_self ..
  have hfree : (s.setNlink ip 0).iput [dp] ip = (s.setNlink ip 0).ifree ip := by
    unfold NsSys.iput
    rw [if_neg, if_pos]
    · refine ⟨?_, hzero⟩
      show s.type ip ≠ none
      rw [h.type_eq]
      exact nofun
    · rintro (hr | hm)
      · exact h.unref hr
      · exact hne (List.mem_singleton.mp hm).symm
  have htidy : ((s.setNlink ip 0).ifree ip).Tidy [] := by
    refine hinv.ifree hzero h.unref h.dotted fun j hr hj hz => h.settled j hr hj ?_
    exact (update_of_ne (fun he : j = ip => hj (he ▸ List.mem_cons_self)) ..).symm.trans hz
  unfold NsSys.createFail
  rw [hfree, htidy.settled.iput_eq]
  exact htidy

theorem Inv.nlink_nonneg (h : s.Inv e) (he : e i = 0) : 0 ≤ s.nlink i := by
  have := h.count i
  omega

/-- **The new inode is linked** and its parent counted. -/
theorem Fresh.dirlink {room : Bool} (h : s.Fresh ip type)
    (hdots : type = .T_DIR → s.Dotted ip) (hne : dp ≠ ip) (hdir : s.type dp = some .T_DIR)
    (hlive : s.nlink dp ≠ 0) (hmax : s.nlink dp < 32767)
    (hrun : s.dirlink dp nm ip room = some s') :
    (if type = .T_DIR then s'.setNlink dp (short (s'.nlink dp + 1)) else s').Tidy [] := by
  obtain ⟨hno, o, hempty, -, rfl⟩ := dirlink_some hrun
  obtain ⟨hroot, hzero⟩ := h.unlinked
  have he : bump (fun _ => (0 : Int)) ip 1 dp = 0 := by rw [bump_apply, if_neg hne]; rfl
  have hinv := h.inv.addLink ((h.dotted dp hne hdir).link_name hno) hdir (h.inv.linked he hlive)
    hempty hroot fun _ => hzero
  have hdotted : ∀ d, (s.setEntry dp o (some (nm, ip))).type d = some .T_DIR →
      (s.setEntry dp o (some (nm, ip))).Dotted d := by
    intro d ht
    have htype : s.type d = some .T_DIR := ht
    by_cases hd : d = ip
    · rw [hd] at htype ⊢
      rw [h.type_eq] at htype
      exact (hdots (Option.some.inj htype)).setEntry (.inl hempty)
    · exact (h.dotted d hd htype).setEntry (.inl hempty)
  have hsettled : (s.setEntry dp o (some (nm, ip))).Settled [] := by
    intro j hr _ hz
    by_cases hj : j = ip
    · rw [hj] at hz
      exact absurd (h.one.symm.trans hz) Int.one_ne_zero
    · exact h.settled j hr (fun hm => hj (List.mem_singleton.mp hm)) hz
  rw [h.type_eq] at hinv
  by_cases htype : type = .T_DIR
  · rw [if_pos htype]
    have hnonneg := h.inv.nlink_nonneg he
    have hshort : short ((s.setEntry dp o (some (nm, ip))).nlink dp + 1) = s.nlink dp + 1 :=
      short_of_lt (show -32768 ≤ s.nlink dp + 1 by omega) (show s.nlink dp + 1 < 32768 by omega)
    rw [hshort]
    refine ⟨(hinv.setNlink (i := dp) (s.nlink dp + 1) fun hn => ?_).congr fun j => ?_,
      hdotted, hsettled.setNlink_ne (by omega)⟩
    · have hn : s.type dp = none := hn
      rw [hdir] at hn
      cases hn
    · show (0 : Int) = bump _ dp (s.nlink dp + 1 - s.nlink dp) j
      rw [htype]
      simp only [bump_apply, if_true]
      split <;> split <;> omega
  · rw [if_neg htype]
    refine ⟨hinv.congr fun j => ?_, hdotted, hsettled⟩
    have hnd : ¬ some type = some InodeType.T_DIR := fun he => htype (Option.some.inj he)
    simp only [bump_apply, hnd, if_false]
    split <;> split <;> omega

/-- The first two entries of a new directory. -/
theorem dots_made {room₁ room₂ : Bool} {s₁ s₂ : NsSys k n} (hbare : ∀ o, s.dirent ip o = none)
    (h₁ : s.dirlink ip "." ip room₁ = some s₁) (h₂ : s₁.dirlink ip ".." dp room₂ = some s₂) : s₂.Dotted ip := by
  obtain ⟨-, o₁, -, hfirst₁, rfl⟩ := dirlink_some h₁
  obtain ⟨-, o₂, hempty₂, hfirst₂, rfl⟩ := dirlink_some h₂
  have hdir : ∀ o, (s.setEntry ip o₁ (some (".", ip))).dirent ip o
      = if o = o₁ then some (".", ip) else none := by
    intro o
    rw [dirent_setEntry, hbare]
  -- the empty slots before the chosen ones are none at all
  have ho₁ : o₁.val = 0 := by
    by_contra hne
    have hlt : (⟨0, by have := o₁.isLt; omega⟩ : Fin n) < o₁ := by
      show 0 < o₁.val
      omega
    exact hfirst₁ _ hlt (hbare _)
  have hne₂ : o₂ ≠ o₁ := by
    rintro rfl
    rw [hdir, if_pos rfl] at hempty₂
    cases hempty₂
  have ho₂ : o₂.val = 1 := by
    by_contra hne
    have hlt : (⟨1, by have := o₂.isLt; omega⟩ : Fin n) < o₂ := by
      show 1 < o₂.val
      omega
    refine hfirst₂ _ hlt ?_
    rw [hdir, if_neg]
    intro heq
    have := congrArg Fin.val heq
    dsimp only at this
    omega
  refine ⟨⟨o₁, ho₁, ?_⟩, o₂, dp, ho₂, ?_⟩
  · rw [dirent_setEntry, if_neg hne₂.symm, hdir, if_pos rfl]
  · rw [dirent_setEntry, if_pos rfl]

variable {room : Bool × Bool × Bool}

/-- **The entries that `create` makes**, or what it undoes. -/
theorem Fresh.createLinks {made : Bool}
    (h : s.Fresh ip type) (hbare : ∀ o, s.dirent ip o = none) (hne : dp ≠ ip)
    (hdir : s.type dp = some .T_DIR) (hlive : s.nlink dp ≠ 0) (hmax : s.nlink dp < 32767)
    (hrun : s.createLinks dp ip nm type room = (s', made)) :
    (made = false → (s'.createFail dp ip).Tidy [])
      ∧ (made = true →
        (if type = .T_DIR then s'.setNlink dp (short (s'.nlink dp + 1)) else s').Tidy []
          ∧ s'.type ip = some type) := by
  -- the last entry, once the dots are there
  have hlast : ∀ s₂ : NsSys k n, s₂.Fresh ip type → (type = .T_DIR → s₂.Dotted ip) →
      s₂.type dp = s.type dp → s₂.nlink dp = s.nlink dp →
      (∀ r, s₂.dirlink dp nm ip room.2.2 = r → r.elim (s₂, false) (·, true) = (s', made)) →
      (made = false → (s'.createFail dp ip).Tidy [])
        ∧ (made = true →
          (if type = .T_DIR then s'.setNlink dp (short (s'.nlink dp + 1)) else s').Tidy []
            ∧ s'.type ip = some type) := by
    intro s₂ hfresh hdots ht hn hrun
    cases hlink : s₂.dirlink dp nm ip room.2.2 with
    | none =>
      cases hrun _ hlink
      exact ⟨fun _ => hfresh.createFail hne, nofun⟩
    | some s₃ =>
      cases hrun _ hlink
      refine ⟨nofun, fun _ => ⟨hfresh.dirlink hdots hne (ht.trans hdir) (hn ▸ hlive) (hn ▸ hmax) hlink, ?_⟩⟩
      obtain ⟨-, o, -, -, rfl⟩ := dirlink_some hlink
      exact hfresh.type_eq
  unfold NsSys.createLinks at hrun
  by_cases htype : type = .T_DIR
  · dsimp only at hrun
    rw [if_pos htype] at hrun
    cases h₁ : s.dirlink ip "." ip room.1 with
    | none =>
      rw [h₁] at hrun
      cases hrun
      exact ⟨fun _ => h.createFail hne, nofun⟩
    | some s₁ =>
      rw [h₁] at hrun
      obtain ⟨-, o₁, hempty₁, -, hs₁⟩ := dirlink_some h₁
      have hfresh₁ : s₁.Fresh ip type := by
        rw [hs₁]
        exact h.setDot (.inl rfl) htype hempty₁
      cases h₂ : s₁.dirlink ip ".." dp room.2.1 with
      | none =>
        simp only [h₂] at hrun
        cases hrun
        exact ⟨fun _ => hfresh₁.createFail hne, nofun⟩
      | some s₂ =>
        simp only [h₂] at hrun
        obtain ⟨-, o₂, hempty₂, -, hs₂⟩ := dirlink_some h₂
        have hfresh₂ : s₂.Fresh ip type := by
          rw [hs₂]
          exact hfresh₁.setDot (.inr rfl) htype hempty₂
        refine hlast s₂ hfresh₂ (fun _ => dots_made hbare h₁ h₂) ?_ ?_ fun r hr => by
          rw [hr] at hrun
          cases r <;> exact hrun
        · rw [hs₂, hs₁]; rfl
        · rw [hs₂, hs₁]; rfl
  · dsimp only at hrun
    rw [if_neg htype] at hrun
    refine hlast s h (fun ht => absurd ht htype) rfl rfl fun r hr => ?_
    simp only [hr] at hrun
    cases r <;> exact hrun

/-! ## §7. The calls. -/

/-- Nothing new is made in a directory without links. -/
def Keeps (s : NsSys k n) (p : Slot) (path : Path) : Prop :=
  match s.nameiparent [] p path with
  | .ok (s', some (dp, nm)) => s'.nlink dp ≠ 0 ∨ (s'.dirlookup dp nm).isSome
  | _ => True

instance (s : NsSys k n) (p : Slot) (path : Path) : Decidable (s.Keeps p path) := by
  unfold Keeps
  split <;> infer_instance

theorem ilock_ok (h : s.ilock i = .ok type) : s.type i = some type := by
  unfold ilock at h
  split at h
  · cases h
  · rename_i t ht
    rw [ht, Except.ok.inj h]

variable (h : s.Tidy [])
include h

theorem Tidy.iput_nil (i : Inum k) : (s.iput [] i).Tidy [] := by
  rw [h.settled.iput_eq]
  exact h

theorem Tidy.create (hmax : ∀ i, s.nlink i < 32767) {r : Option (Inum k)} (hkeep : s.Keeps p path)
    (hrun : s.create p path type room = .ok (s', r)) : s'.Tidy [] ∧ ∀ ip, r = some ip → s'.type ip ≠ none := by
  obtain ⟨⟨s₁, found⟩, hname, hrun⟩ := bind_ok hrun
  unfold Keeps at hkeep
  rw [hname] at hkeep
  obtain ⟨rfl, start, -, hseek⟩ := h.settled.namex hname
  cases found with
  | none =>
    cases hrun
    exact ⟨h, nofun⟩
  | some found =>
    obtain ⟨dp, nm⟩ := found
    have hdir := seek_dir _ _ hseek
    dsimp only at hkeep hrun
    cases hlook : s₁.dirlookup dp nm with
    | some hit =>
      -- the name exists
      obtain ⟨o, ip⟩ := hit
      rw [hlook] at hrun
      dsimp only at hrun
      rw [h.settled.iput_any] at hrun
      obtain ⟨old, hold, hrun⟩ := bind_ok hrun
      split at hrun
      · cases hrun
        refine ⟨h, fun ip' hip => ?_⟩
        rw [← Option.some.inj hip, ilock_ok hold]
        exact nofun
      · cases hrun
        exact ⟨h.iput_nil ip, nofun⟩
    | none =>
      rw [hlook] at hrun hkeep
      have hlive : s₁.nlink dp ≠ 0 := hkeep.resolve_right (by simp)
      cases halloc : s₁.ialloc type with
      | none =>
        rw [halloc] at hrun
        cases hrun
        exact ⟨h.iput_nil dp, nofun⟩
      | some new =>
        obtain ⟨s₂, ip⟩ := new
        rw [halloc] at hrun
        dsimp only at hrun
        obtain ⟨hfresh, hfree, hother, hbare⟩ := h.ialloc halloc
        have hne : dp ≠ ip := by
          rintro rfl
          rw [hfree] at hdir
          cases hdir
        obtain ⟨ht, hn, -⟩ := hother dp hne
        rcases hlinks : (s₂.setNlink ip 1).createLinks dp ip nm type room with ⟨s₃, made⟩
        obtain ⟨hfail, hdone⟩ := hfresh.createLinks hbare hne (ht.trans hdir) (hn.symm ▸ hlive)
          (hn.symm ▸ hmax dp) hlinks
        rw [hlinks] at hrun
        cases made with
        | false =>
          cases hrun
          exact ⟨hfail rfl, nofun⟩
        | true =>
          obtain ⟨htidy, htype⟩ := hdone rfl
          dsimp only at hrun
          rw [htidy.settled.iput_any] at hrun
          cases hrun
          refine ⟨htidy, fun ip' hip => ?_⟩
          cases hip
          have hsome : s₃.type ip ≠ none := by
            rw [htype]
            exact nofun
          split
          · exact hsome
          · exact hsome

theorem Tidy.makeInode (hmax : ∀ i, s.nlink i < 32767) (hkeep : s.Keeps p path)
    (hrun : s.makeInode p path type room = .ok s') : s'.Tidy [] := by
  obtain ⟨⟨s₁, r⟩, hcreate, hrun⟩ := bind_ok hrun
  obtain ⟨htidy, -⟩ := h.create hmax hkeep hcreate
  cases r with
  | none => exact Except.ok.inj hrun ▸ htidy
  | some ip => exact Except.ok.inj hrun ▸ htidy.iput_nil ip

theorem Tidy.openEnd (hip : s.type ip ≠ none) (granted : Bool) : (s.openEnd ip granted).Tidy [] := by
  unfold NsSys.openEnd
  split
  · have href : ∀ j, (s.setFiles ip (s.files ip + 1)).Referenced j ↔ s.Referenced j ∨ j = ip := by
      intro j
      show (0 < update s.files ip (s.files ip + 1) j ∨ _) ↔ _
      by_cases hj : j = ip
      · rw [hj, update_self]
        exact ⟨fun _ => .inr rfl, fun _ => .inl (Nat.succ_pos _)⟩
      · rw [update_of_ne hj]
        exact ⟨fun hr => .inl hr, fun hr => hr.resolve_right hj⟩
    refine h.refs rfl rfl rfl (fun j hr => ?_) fun j _ hr => ⟨nofun, fun hr' => hr ((href j).mpr (.inl hr'))⟩
    rcases (href j).mp hr with hr | rfl
    · exact h.inUse hr
    · exact hip
  · exact h.iput_nil ip

theorem Tidy.sys_open (hmax : ∀ i, s.nlink i < 32767)
    {omode : Nat} {granted : Bool} (hkeep : omode &&& O_CREATE ≠ 0 → s.Keeps p path)
    (hrun : s.sys_open p path omode room granted = .ok s') : s'.Tidy [] := by
  unfold NsSys.sys_open at hrun
  split at hrun
  · rename_i hcreate
    obtain ⟨⟨s₁, r⟩, hc, hrun⟩ := bind_ok hrun
    obtain ⟨htidy, htype⟩ := h.create hmax (hkeep hcreate) hc
    cases r with
    | none => exact Except.ok.inj hrun ▸ htidy
    | some ip => exact Except.ok.inj hrun ▸ htidy.openEnd (htype ip rfl) granted
  obtain ⟨⟨s₁, r⟩, hname, hrun⟩ := bind_ok hrun
  obtain ⟨rfl, -⟩ := h.settled.namex hname
  cases r with
  | none => exact Except.ok.inj hrun ▸ h
  | some r =>
    obtain ⟨type, hlock, hrun⟩ := bind_ok hrun
    split at hrun
    · exact Except.ok.inj hrun ▸ h.iput_nil r.1
    · exact Except.ok.inj hrun ▸ h.openEnd (by rw [ilock_ok hlock]; exact nofun) granted

omit h

/-- The link count of an inode in the hand of a call. -/
theorem Settled.setNlink (h : s.Settled []) (x : Int) : (s.setNlink i x).Settled [i] := by
  intro j hr hj hz
  have hji : j ≠ i := fun he => hj (he ▸ List.mem_cons_self)
  have hz : update s.nlink i x j = 0 := hz
  rw [update_of_ne hji] at hz
  exact h j hr nofun hz

include h

/-- The label `bad` of `sys_link`. -/
theorem Tidy.linkBad (hmax : s.nlink ip < 32767) :
    ((s.setNlink ip (short (s.nlink ip + 1))).linkBad ip).Tidy [] := by
  have hnonneg := h.inv.nlink_nonneg (i := ip) rfl
  have hup : short (s.nlink ip + 1) = s.nlink ip + 1 := short_of_lt (by omega) (by omega)
  have hdown : short ((s.setNlink ip (s.nlink ip + 1)).nlink ip - 1) = s.nlink ip := by
    show short (update s.nlink ip (s.nlink ip + 1) ip - 1) = _
    rw [update_self, short_of_lt] <;> omega
  have hback : (s.setNlink ip (s.nlink ip + 1)).setNlink ip (s.nlink ip) = s := by
    show { s with nlink := update (update s.nlink ip _) ip (s.nlink ip) } = s
    rw [update_idem, update_eq_self]
  rw [hup]
  unfold NsSys.linkBad
  rw [hdown, hback]
  exact h.iput_nil ip

theorem Tidy.sys_link (hmax : ∀ i, s.nlink i < 32767) {old new : Path}
    {room : Bool} (hkeep : s.Keeps p new) (hrun : s.sys_link p old new room = .ok s') : s'.Tidy [] := by
  obtain ⟨⟨s₁, r⟩, hname, hrun⟩ := bind_ok hrun
  obtain ⟨rfl, -⟩ := h.settled.namex hname
  cases r with
  | none => exact Except.ok.inj hrun ▸ h
  | some r =>
    obtain ⟨ip, nm₀⟩ := r
    obtain ⟨type, hlock, hrun⟩ := bind_ok hrun
    have htype := ilock_ok hlock
    have hip : s₁.type ip ≠ none := by rw [htype]; exact nofun
    split at hrun
    · exact Except.ok.inj hrun ▸ h.iput_nil ip
    rename_i hnotdir
    have hnonneg := h.inv.nlink_nonneg (i := ip) rfl
    have hip_max := hmax ip
    have hup : short (s₁.nlink ip + 1) = s₁.nlink ip + 1 := short_of_lt (by omega) (by omega)
    have hset : (s₁.setNlink ip (short (s₁.nlink ip + 1))).Settled [ip] := h.settled.setNlink _
    obtain ⟨⟨s₂, r⟩, hparent, hrun⟩ := bind_ok hrun
    obtain ⟨rfl, start, hstart, hseek⟩ := hset.namex hparent
    cases r with
    | none => exact Except.ok.inj hrun ▸ h.linkBad hip_max
    | some r =>
      obtain ⟨dp, nm⟩ := r
      rw [seek_setNlink] at hseek
      have hdir := seek_dir _ _ hseek
      dsimp only at hrun
      cases hlink : (s₁.setNlink ip (short (s₁.nlink ip + 1))).dirlink dp nm ip room with
      | none =>
        rw [hlink] at hrun
        rw [hset.iput_eq] at hrun
        exact Except.ok.inj hrun ▸ h.linkBad hip_max
      | some s₃ =>
        rw [hlink] at hrun
        obtain ⟨hno, o, hempty, -, hs₃⟩ := dirlink_some hlink
        have hno : s₁.dirlookup dp nm = none := hno
        -- the parent found before the count was raised is the same
        have hlive : s₁.nlink dp ≠ 0 := by
          have hfound : s₁.nameiparent [] p new = .ok (s₁, some (dp, nm)) :=
            h.settled.namex_of_seek hstart hseek
          unfold Keeps at hkeep
          rw [hfound] at hkeep
          dsimp only at hkeep
          rw [hno] at hkeep
          exact hkeep.resolve_right (by simp)
        have hnd : ¬ s₁.type ip = some .T_DIR := by
          rw [htype]
          exact fun he => hnotdir (Option.some.inj he)
        have hroot : ip ≠ ROOTINO := fun he => hnd (he ▸ h.inv.root_dir)
        have hinv := (h.inv.setNlink (i := ip) (s₁.nlink ip + 1) fun hn => absurd hn hip).addLink
          (s := s₁.setNlink ip (s₁.nlink ip + 1)) ((h.dotted dp hdir).link_name hno) hdir
          (h.inv.linked rfl hlive) hempty hroot fun ht => absurd ht hnd
        have htidy : s₃.Tidy [] := by
          rw [hs₃, hup]
          refine ⟨hinv.congr fun j => ?_, fun d hd => Dotted.setEntry (s := s₁.setNlink ip _)
            (h.dotted d hd) (.inl hempty), h.settled.setNlink_ne (by omega)⟩
          show (0 : Int) = bump _ dp (if s₁.type ip = some .T_DIR then -1 else 0) j
          simp only [bump_apply, hnd, if_false]
          split <;> split <;> omega
        dsimp only at hrun
        rw [htidy.settled.iput_any, htidy.settled.iput_any] at hrun
        exact Except.ok.inj hrun ▸ htidy

omit h in
/-- An empty directory has no links. -/
theorem isdirempty_bare (hdots : s.Dotted d) (hempty : s.isdirempty d = true) (o : Fin n) : s.links (d, o) = none := by
  have ho := List.all_eq_true.mp hempty o (List.mem_finRange o)
  obtain ⟨⟨o₀, h₀, he₀⟩, o₁, i₁, h₁, he₁⟩ := hdots
  unfold links
  by_cases hlt : o.val < 2
  · by_cases hz : o.val = 0
    · obtain rfl : o = o₀ := Fin.ext (hz.trans h₀.symm)
      rw [he₀]
      exact target_dot (.inl rfl)
    · obtain rfl : o = o₁ := Fin.ext (by omega)
      rw [he₁]
      exact target_dot (.inr rfl)
  · rw [decide_eq_false hlt, Bool.false_or] at ho
    rw [Option.isNone_iff_eq_none.mp ho]
    rfl

/-- **The end of `sys_unlink`.** -/
theorem Tidy.unlinkEntry (hmax : ∀ i, s.nlink i < 32767)
    (hdot : ¬ (nm = "." ∨ nm = "..")) (hentry : s.dirent dp o = some (nm, ip)) (hne : ip ≠ dp)
    (htype : s.type ip = some type) (hempty : type = .T_DIR → s.isdirempty ip = true) :
    (s.unlinkEntry dp o ip type).Tidy [] := by
  have hlink := links_of_entry hdot hentry
  have hdirp : s.type dp = some .T_DIR := h.inv.entries dp o (by rw [hentry]; exact nofun)
  have hinv := h.inv.eraseLink hlink fun ht =>
    isdirempty_bare (h.dotted ip ht) (hempty (Option.some.inj (htype.symm.trans ht)))
  rw [htype] at hinv
  have hdotted : ∀ d, s.type d = some .T_DIR → (s.setEntry dp o none).Dotted d := fun d hd =>
    (h.dotted d hd).setEntry (.inr ⟨nm, ip, hdot, hentry⟩)
  -- the parent is linked, and stays so
  have hcount_dp := h.inv.count dp
  have hlive := h.inv.holder_linked hlink
  have hsub : type = .T_DIR → 0 < holders s.subdirs dp := by
    intro ht
    refine holders_pos (i := (dp, o)) ?_
    unfold subdirs
    rw [hlink]
    exact if_pos (by rw [htype, ht])
  have hcount_ip := h.inv.count ip
  have hmax_dp := hmax dp
  have hmax_ip := hmax ip
  -- the two counts
  have hmid : ∃ s₁ : NsSys k n,
      (if type = .T_DIR then (s.setEntry dp o none).setNlink dp
        (short ((s.setEntry dp o none).nlink dp - 1)) else s.setEntry dp o none) = s₁
      ∧ s₁.Inv (bump (fun _ => 0) ip 1) ∧ s₁.Settled [ip] ∧ s₁.type = s.type
      ∧ s₁.nlink ip = s.nlink ip ∧ ∀ d, s.type d = some .T_DIR → s₁.Dotted d := by
    by_cases ht : type = .T_DIR
    · rw [if_pos ht]
      have hshort : short ((s.setEntry dp o none).nlink dp - 1) = s.nlink dp - 1 := by
        show short (s.nlink dp - 1) = _
        rw [short_of_lt] <;> omega
      rw [hshort]
      have hnz : s.nlink dp - 1 ≠ 0 := by
        have hsub := hsub ht
        rcases hlive with hr | hp
        · rw [if_pos hr] at hcount_dp
          omega
        · omega
      refine ⟨_, rfl, (hinv.setNlink (i := dp) (s.nlink dp - 1) fun hn => ?_).congr fun j => ?_,
        fun j hr _ hz => h.settled.setNlink_ne hnz j hr nofun hz, rfl, update_of_ne hne .., hdotted⟩
      · have hn : s.type dp = none := hn
        rw [hdirp] at hn
        cases hn
      · show bump (fun _ => 0) ip 1 j = bump _ dp (s.nlink dp - 1 - s.nlink dp) j
        rw [ht]
        simp only [bump_apply, if_true]
        split <;> split <;> omega
    · rw [if_neg ht]
      have hnd : ¬ some type = some InodeType.T_DIR := fun he => ht (Option.some.inj he)
      refine ⟨_, rfl, hinv.congr fun j => ?_, fun j hr _ hz => h.settled j hr nofun hz, rfl, rfl, hdotted⟩
      simp only [bump_apply, hnd, if_false]
      split <;> omega
  obtain ⟨s₁, hs₁, hinv₁, hset₁, htype₁, hnlink₁, hdotted₁⟩ := hmid
  unfold NsSys.unlinkEntry
  dsimp only
  rw [hs₁, hset₁.iput_eq, hnlink₁]
  have hshort : short (s.nlink ip - 1) = s.nlink ip - 1 := by
    rw [short_of_lt] <;> omega
  rw [hshort]
  refine Tidy.iput ⟨(hinv₁.setNlink (i := ip) (s.nlink ip - 1) fun hn => ?_).congr fun j => ?_,
    fun d hd => hdotted₁ d (htype₁ ▸ hd), fun j hr hj hz => ?_⟩
  · rw [htype₁, htype] at hn
    cases hn
  · rw [hnlink₁]
    simp only [bump_apply]
    split <;> omega
  · have hji : j ≠ ip := fun he => hj (he ▸ List.mem_cons_self)
    have hz : update s₁.nlink ip (s.nlink ip - 1) j = 0 := hz
    rw [update_of_ne hji] at hz
    exact hset₁ j hr hj hz

theorem Tidy.sys_unlink (hmax : ∀ i, s.nlink i < 32767)
    (hrun : s.sys_unlink p path = .ok s') : s'.Tidy [] := by
  obtain ⟨⟨s₁, r⟩, hname, hrun⟩ := bind_ok hrun
  obtain ⟨rfl, -⟩ := h.settled.namex hname
  cases r with
  | none => exact Except.ok.inj hrun ▸ h
  | some r =>
    obtain ⟨dp, nm⟩ := r
    dsimp only at hrun
    split at hrun
    · exact Except.ok.inj hrun ▸ h.iput_nil dp
    rename_i hdot
    split at hrun
    · exact Except.ok.inj hrun ▸ h.iput_nil dp
    rename_i off ip hlook
    split at hrun
    · cases hrun
    rename_i hne
    obtain ⟨type, hlock, hrun⟩ := bind_ok hrun
    split at hrun
    · cases hrun
    split at hrun
    · rw [h.settled.iput_any, h.settled.iput_any] at hrun
      exact Except.ok.inj hrun ▸ h
    · rename_i hempty
      refine Except.ok.inj hrun ▸ h.unlinkEntry hmax hdot (dirlookup_some hlook) hne
        (ilock_ok hlock) fun ht => ?_
      by_contra hno
      exact hempty ⟨ht, Bool.of_not_eq_true hno⟩

/-- A working directory is replaced; the old one is in the hand of the call. -/
theorem Tidy.setCwd (hx : ∀ i, x = some i → s.type i ≠ none) (hold : ∀ i, s.cwd p = some i → i ∈ hand) :
    (s.setCwd p x).Tidy hand := by
  refine h.refs rfl rfl rfl (fun j hr => ?_) fun j hj hr => ⟨nofun, fun hr' => ?_⟩
  · rcases hr with hf | ⟨q, hq⟩
    · exact h.inUse (.inl hf)
    have hq : update s.cwd p x q = some j := hq
    by_cases hqp : q = p
    · rw [hqp, update_self] at hq
      exact hx j hq
    · rw [update_of_ne hqp] at hq
      exact h.inUse (.inr ⟨q, hq⟩)
  rcases hr' with hf | ⟨q, hq⟩
  · exact hr (.inl hf)
  by_cases hqp : q = p
  · exact hj (hold j (hqp ▸ hq))
  · refine hr (.inr ⟨q, ?_⟩)
    show update s.cwd p x q = some j
    rw [update_of_ne hqp]
    exact hq

theorem Tidy.sys_chdir (hrun : s.sys_chdir p path = .ok s') : s'.Tidy [] := by
  obtain ⟨⟨s₁, r⟩, hname, hrun⟩ := bind_ok hrun
  obtain ⟨rfl, -⟩ := h.settled.namex hname
  cases r with
  | none => exact Except.ok.inj hrun ▸ h
  | some r =>
    obtain ⟨ip, nm₀⟩ := r
    obtain ⟨type, hlock, hrun⟩ := bind_ok hrun
    split at hrun
    · exact Except.ok.inj hrun ▸ h.iput_nil ip
    split at hrun
    · cases hrun
    rename_i old hold
    refine Except.ok.inj hrun ▸ Tidy.iput (h.setCwd (fun i hi => ?_) fun i hi => ?_)
    · rw [← Option.some.inj hi, ilock_ok hlock]
      exact nofun
    · rw [hold] at hi
      exact Option.some.inj hi ▸ List.mem_cons_self

theorem Tidy.exit (hrun : s.exit p = .ok s') : s'.Tidy [] := by
  unfold NsSys.exit at hrun
  split at hrun
  · cases hrun
  · rename_i d hd
    refine Except.ok.inj hrun ▸ Tidy.iput (h.setCwd nofun fun i hi => ?_)
    rw [hd] at hi
    exact Option.some.inj hi ▸ List.mem_cons_self

theorem Tidy.fork {np : Slot} (hrun : s.fork p np = .ok s') : s'.Tidy [] := by
  unfold NsSys.fork at hrun
  split at hrun
  · rename_i d hp hnp
    refine Except.ok.inj hrun ▸ h.setCwd (fun i hi => ?_) fun i hi => ?_
    · exact Option.some.inj hi ▸ h.inUse (.inr ⟨p, hp⟩)
    · rw [hnp] at hi
      cases hi
  · cases hrun

theorem Tidy.close (hrun : s.close i = .ok s') : s'.Tidy [] := by
  unfold NsSys.close at hrun
  split at hrun
  · cases hrun
  rename_i hpos
  have hiff : ∀ j, j ≠ i →
      ((s.setFiles i (s.files i - 1)).Referenced j ↔ s.Referenced j) := by
    intro j hj
    show (0 < update s.files i (s.files i - 1) j ∨ _) ↔ _
    rw [update_of_ne hj]
    rfl
  refine Except.ok.inj hrun ▸ Tidy.iput (h.refs rfl rfl rfl (fun j hr => ?_) fun j hj hr =>
    ⟨nofun, fun hr' => ?_⟩)
  · by_cases hji : j = i
    · exact h.inUse (.inl (by rw [hji]; omega))
    · exact h.inUse ((hiff j hji).mp hr)
  · exact hr ((hiff j fun he => hj (he ▸ List.mem_cons_self)).mpr hr')

/-! ## §8. Every run. -/

/-- The condition on a call: what it creates or links goes into a directory
that has not been removed. -/
def Fits (s : NsSys k n) : NsStep → Prop
  | .mkdir p path _ => s.Keeps p path
  | .mknod p path _ => s.Keeps p path
  | .open_ p path omode _ _ => omode &&& O_CREATE ≠ 0 → s.Keeps p path
  | .link p _ new _ => s.Keeps p new
  | _ => True

instance (s : NsSys k n) (c : NsStep) : Decidable (s.Fits c) := by
  cases c <;> unfold Fits <;> infer_instance

/-- No count is at its limit. -/
def Bounded (s : NsSys k n) : Prop := ∀ i, s.nlink i < 32767

instance (s : NsSys k n) : Decidable s.Bounded := inferInstanceAs (Decidable (∀ _, _))

theorem Tidy.step (hmax : s.Bounded) {c : NsStep} (hfits : s.Fits c)
    (hstep : s.step c = .ok s') : s'.Tidy [] := by
  cases c with
  | mkdir p path room | mknod p path room => exact h.makeInode hmax hfits hstep
  | open_ p path omode room granted => exact h.sys_open hmax hfits hstep
  | link p old new room => exact h.sys_link hmax hfits hstep
  | unlink p path => exact h.sys_unlink hmax hstep
  | chdir p path => exact h.sys_chdir hstep
  | close i =>
    unfold NsSys.step at hstep
    dsimp only at hstep
    split at hstep
    · exact h.close hstep
    · cases hstep
  | fork p np => exact h.fork hstep
  | exit p => exact h.exit hstep

omit h

/-- A directory reachable from the root. -/
inductive Reaches (s : NsSys k n) : Inum k → Prop
  | root : Reaches s ROOTINO
  | sub {d c : Inum k} {o : Fin n} (hd : Reaches s d) (hlink : s.links (d, o) = some c)
      (hc : s.type c = some .T_DIR) : Reaches s c

/-- The links in reachable directories. -/
noncomputable def reachedLinks (s : NsSys k n) : Inum k × Fin n → Option (Inum k) :=
  open Classical in fun c => if s.Reaches c.1 then s.links c else none

/-- The link counts are right. -/
structure LinkCounts (s : NsSys k n) : Prop where
  named : ∀ i, s.type i ≠ none → 0 < s.nlink i → ∃ d o nm, s.Reaches d ∧ s.dirent d o = some (nm, i)
    ∧ (i ≠ ROOTINO → nm ≠ "." ∧ nm ≠ "..")
  file : ∀ i, s.type i ≠ none → s.type i ≠ some .T_DIR → s.nlink i = holders s.reachedLinks i
  dir : ∀ d, s.Reaches d → s.nlink d = 1 + holders s.subdirs d
  freed : ∀ i, ¬ s.Referenced i → i ≠ ROOTINO → (∀ d o, s.Reaches d → s.links (d, o) ≠ some i) →
    s.type i = none

theorem links_entry (h : s.links (d, o) = some i) : ∃ nm, s.dirent d o = some (nm, i) ∧ ¬ (nm = "." ∨ nm = "..") := by
  unfold links at h
  cases hx : s.dirent d o with
  | none =>
    rw [hx] at h
    cases h
  | some x =>
    rw [hx] at h
    have h : target x = some i := h
    unfold target at h
    split at h
    · cases h
    · rename_i hdot
      exact ⟨x.1, by rw [← Option.some.inj h], hdot⟩

theorem exists_holder (h : 0 < holders t i) : ∃ d o, t (d, o) = some i := by
  by_contra hno
  have hz : holders t i = 0 := holders_eq_zero.mpr fun c hc => hno ⟨c.1, c.2, hc⟩
  omega

/-- **Every linked directory is reachable**, by induction on its rank. -/
theorem Inv.reaches (h : s.Inv e) (hdir : s.type d = some .T_DIR)
    (hlinked : d = ROOTINO ∨ 0 < holders s.links d) : s.Reaches d := by
  obtain ⟨r, hr⟩ := h.ranked
  have hall : ∀ m d, r d = m → s.type d = some .T_DIR → (d = ROOTINO ∨ 0 < holders s.links d) →
      s.Reaches d := by
    intro m
    induction m using Nat.strongRecOn with
    | ind m ih =>
      intro d hm hdir hlinked
      rcases hlinked with rfl | hpos
      · exact .root
      · obtain ⟨d', o, hlink⟩ := exists_holder hpos
        obtain ⟨nm, hentry, -⟩ := links_entry hlink
        have hdir' : s.type d' = some .T_DIR := h.entries d' o (by rw [hentry]; exact nofun)
        have hlt : r d' < m := hm ▸ hr d' o d hlink hdir
        exact .sub (ih (r d') hlt d' rfl hdir' (h.holder_linked hlink)) hlink hdir
  exact hall (r d) d rfl hdir hlinked

/-- Every link is in a reachable directory. -/
theorem Inv.link_reached (h : s.Inv e) (hlink : s.links (d, o) = some i) : s.Reaches d := by
  obtain ⟨nm, hentry, -⟩ := links_entry hlink
  exact h.reaches (h.entries d o (by rw [hentry]; exact nofun)) (h.holder_linked hlink)

theorem Inv.reachedLinks_eq (h : s.Inv e) : s.reachedLinks = s.links := by
  funext c
  unfold reachedLinks
  split
  · rfl
  · rename_i hno
    cases hc : s.links c with
    | none => rfl
    | some i => exact absurd (h.link_reached hc) hno

theorem Inv.no_subdirs (h : s.Inv e) (hnd : s.type i ≠ some .T_DIR) : holders s.subdirs i = 0 := by
  refine holders_eq_zero.mpr fun c hc => ?_
  obtain ⟨hci, j, hlink, -⟩ := parentOf_eq_some.mp hc
  obtain ⟨nm, hentry, -⟩ := links_entry (d := c.1) (o := c.2) hlink
  exact hnd (hci ▸ h.entries c.1 c.2 (by rw [hentry]; exact nofun))

theorem Tidy.linkCounts (h : s.Tidy []) : s.LinkCounts := by
  refine ⟨fun i hi hpos => ?_, fun i hi hnd => ?_, fun d hd => ?_, fun i hr hroot hno => ?_⟩
  · by_cases hroot : i = ROOTINO
    · -- the root is named by its own `.`
      obtain ⟨⟨o, -, ho⟩, -⟩ := h.dotted ROOTINO h.inv.root_dir
      exact ⟨ROOTINO, o, ".", .root, hroot ▸ ho, fun hne => absurd hroot hne⟩
    · have hlinked := (h.inv.linked rfl (Int.ne_of_gt hpos)).resolve_left hroot
      obtain ⟨d, o, hlink⟩ := exists_holder hlinked
      obtain ⟨nm, hentry, hdot⟩ := links_entry hlink
      exact ⟨d, o, nm, h.inv.link_reached hlink, hentry, fun _ => not_or.mp hdot⟩
  · have hroot : i ≠ ROOTINO := fun he => hnd (he ▸ h.inv.root_dir)
    rw [h.inv.count i, h.inv.reachedLinks_eq, h.inv.no_subdirs hnd, if_neg hroot]
    omega
  · have hcount := h.inv.count d
    cases hd with
    | root =>
      rw [h.inv.root_top, if_pos rfl] at hcount
      omega
    | sub hd' hlink hdir =>
      have hpos := holders_pos hlink
      have honce := h.inv.once d hdir
      have hroot : d ≠ ROOTINO := by
        rintro rfl
        rw [h.inv.root_top] at hpos
        omega
      rw [if_neg hroot] at hcount
      omega
  · have hzero : holders s.links i = 0 :=
      holders_eq_zero.mpr fun c hc => hno c.1 c.2 (h.inv.link_reached hc) hc
    refine h.settled i hr nofun ?_
    by_contra hne
    rcases h.inv.linked rfl hne with hroot' | hpos
    · exact hroot hroot'
    · omega

/-- The system starts: a file system with `init` in its root directory. -/
def Booted (s : NsSys k n) : Prop :=
  s.Tidy [] ∧ (∀ i, s.files i = 0) ∧ ∀ p, s.cwd p = if p = initproc then some ROOTINO else none

/-- The states of all runs. -/
abbrev Reachable (s : NsSys k n) : Prop := Lib.Reach Booted (fun s _ => s.Bounded) step s

/-- The states of the runs in which nothing is put into a removed directory. -/
abbrev KeptReachable (s : NsSys k n) : Prop :=
  Lib.Reach Booted (fun s c => s.Bounded ∧ s.Fits c) step s

/-- **Link counts and reachability.**  As long as nothing is created in a removed
directory, between any two calls every linked inode is named in a reachable
directory, the counts are the numbers of links and of subdirectories, and what
is neither reachable nor referenced has been freed. -/
theorem link_counts (h : s.KeptReachable) : s.LinkCounts := by
  have htidy : s.Tidy [] := h.invariant (fun s hs => hs.1) fun s c s' hs hok hstep =>
    hs.step hok.1 hok.2 hstep
  exact htidy.linkCounts

/-- The image of `mkfs` is consistent. -/
theorem mkfs_booted (k n : Nat) (hn : 2 ≤ n) : (mkfs k n).Booted := by
  have hlinks : ∀ c, (mkfs k n).links c = none := by
    rintro ⟨d, o⟩
    unfold links mkfs
    dsimp only
    split
    · split
      · exact target_dot (.inl rfl)
      · split
        · exact target_dot (.inr rfl)
        · rfl
    · rfl
  have hl : ∀ i, holders (mkfs k n).links i = 0 := fun i =>
    holders_eq_zero.mpr fun c hc => by rw [hlinks] at hc; cases hc
  have hs : ∀ i, holders (mkfs k n).subdirs i = 0 := fun i =>
    holders_eq_zero.mpr fun c hc => by
      unfold subdirs at hc
      rw [hlinks] at hc
      cases hc
  have hroot : ∀ i, i ≠ ROOTINO → (mkfs k n).type i = none := fun i hi => if_neg hi
  have hdir : (mkfs k n).type ROOTINO = some .T_DIR := by
    show (if (ROOTINO : Inum k) = ROOTINO then some InodeType.T_DIR else none) = _
    rw [if_pos rfl]
  have hone : (mkfs k n).nlink ROOTINO = 1 := by
    show (if (ROOTINO : Inum k) = ROOTINO then (1 : Int) else 0) = 1
    rw [if_pos rfl]
  have href : ∀ i, (mkfs k n).Referenced i → i = ROOTINO := by
    rintro i (hf | ⟨p, hp⟩)
    · exact absurd hf (Nat.lt_irrefl 0)
    · unfold mkfs at hp
      dsimp only at hp
      split at hp
      · exact (Option.some.inj hp).symm
      · cases hp
  refine ⟨⟨⟨hdir, hl _, fun d o hne => ?_, fun i => ?_, fun i hi => ?_, fun i _ => ?_,
    fun d _ _ o => hlinks (d, o), fun _ => 0, fun d o c hc => ?_⟩, fun d hd => ?_, fun i _ _ hz => ?_⟩,
    fun _ => rfl, fun _ => rfl⟩
  · by_contra hno
    by_cases hd : d = ROOTINO
    · exact hno (if_pos hd)
    · exact hne (if_neg hd)
  · rw [hl, hs]
    show (if i = ROOTINO then (1 : Int) else 0) = _
    split <;> omega
  · have hi' : i ≠ ROOTINO := by
      rintro rfl
      cases hi
    exact ⟨if_neg hi', fun hr => hi' (href i hr)⟩
  · rw [hl]
    omega
  · rw [hlinks] at hc
    cases hc
  · have hdr : d = ROOTINO := by
      by_contra hne
      rw [hroot d hne] at hd
      cases hd
    subst hdr
    refine ⟨⟨⟨0, by omega⟩, rfl, ?_⟩, ⟨1, by omega⟩, ROOTINO, rfl, ?_⟩
    · unfold mkfs
      simp
    · unfold mkfs
      simp
  · by_contra hne
    have hi : i = ROOTINO := by
      by_contra hno
      exact hne (hroot i hno)
    rw [hi, hone] at hz
    omega

/-- `init` makes and links a file, makes a directory, goes there and removes it. -/
def keptRun : List NsStep :=
  [.open_ 0 ⟨true, ["f"]⟩ O_CREATE (true, true, true) true, .link 0 ⟨true, ["f"]⟩ ⟨false, ["g"]⟩ true,
    .mkdir 0 ⟨true, ["a"]⟩ (true, true, true), .chdir 0 ⟨false, ["a"]⟩, .unlink 0 ⟨true, ["a"]⟩]

theorem link_counts_keptRun : ∃ s : NsSys 2 5, s.KeptReachable ∧ s.nlink 2 = 2 ∧ holders s.reachedLinks 2 = 2
      ∧ s.nlink ROOTINO = 1 + holders s.subdirs ROOTINO := by
  have hreach : ∃ s : NsSys 2 5, s.KeptReachable
      ∧ decide (s.nlink 2 = 2 ∧ s.type 2 = some .T_FILE) = true :=
    Lib.Reach.of_reaches keptRun _ (mkfs_booted 2 5 (by decide)) (by decide +kernel)
  obtain ⟨s, hs, htest⟩ := hreach
  obtain ⟨hnlink, htype⟩ := of_decide_eq_true htest
  have hcounts := link_counts hs
  have hfile := hcounts.file 2 (by rw [htype]; exact nofun) (by rw [htype]; exact nofun)
  refine ⟨s, hs, hnlink, ?_, hcounts.dir _ .root⟩
  omega

/-- `init` makes a directory, goes there, removes it and creates a file in it. -/
def orphanRun : List NsStep :=
  [.mkdir 0 ⟨true, ["a"]⟩ (true, true, true), .chdir 0 ⟨true, ["a"]⟩, .unlink 0 ⟨true, ["a"]⟩,
    .open_ 0 ⟨false, ["x"]⟩ O_CREATE (true, true, true) true]

/-- The file has a link that no path leads to. -/
theorem link_counts_orphan : ∃ s : NsSys 2 4, s.Reachable ∧ ¬ s.LinkCounts := by
  have hreach : ∃ s : NsSys 2 4, s.Reachable ∧ decide (s.type 3 = some .T_FILE ∧ s.nlink 3 = 1
      ∧ (∀ c, s.links c = some 3 → c.1 = 2) ∧ ∀ c, s.links c ≠ some 2) = true :=
    Lib.Reach.of_reaches orphanRun _ (mkfs_booted 2 4 (by decide)) (by decide +kernel)
  obtain ⟨s, hs, htest⟩ := hreach
  obtain ⟨htype, hnlink, honly, hunlinked⟩ := of_decide_eq_true htest
  refine ⟨s, hs, fun hcounts => ?_⟩
  obtain ⟨d, o, nm, hd, hentry, hnm⟩ := hcounts.named 3 (by rw [htype]; exact nofun)
    (by rw [hnlink]; decide)
  have hdot : ¬ (nm = "." ∨ nm = "..") := not_or.mpr (hnm (by decide))
  obtain rfl : d = 2 := honly _ (links_of_entry hdot hentry)
  cases hd with
  | sub hd' hlink hdir => exact hunlinked _ hlink

end NsSys

end Xv6
