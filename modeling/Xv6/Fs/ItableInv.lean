/-
  Xv6.Fs.ItableInv — references, locks and copies in the inode table under
  every interleaving.

  Who is in the middle of `iput` or `ialloc` decides what the others may rely
  on: `TabInv` says it once for each program counter, and there is one lemma
  for each thing that a step does to the table.
-/
import Xv6.Fs.Itable
import Xv6.Lib.Holders

namespace Xv6

namespace ItSys

open Function (update_of_ne update_self)

variable {m k n : Nat} {s s' : ItSys m k n} {p q : Slot} {e e' d : Entry} {i : Ino m k}

/-! ## §1. The table. -/

/-- The reference of an `iput` whose inode is already free on disk. -/
def stale (s : ItSys m k n) (p : Slot) (e : Entry) : Nat :=
  if s.pc p = .freed e ∨ s.pc p = .putting e then 1 else 0

/-- Counts, keys, locks and copies agree. -/
structure TabInv (s : ItSys m k n) : Prop where
  ref_eq : ∀ e, s.ref e = ∑ p, s.refs p e
  uniq : ∀ e e', 0 < s.ref e → 0 < s.ref e' → s.key e = s.key e' → e = e'
  lock_ref : ∀ e p, s.lock e = some p → 0 < s.refs p e
  busy : ∀ p e, s.pc p = .putting e → 0 < s.refs p e
  unlocked : ∀ p e, s.pc p = .putting e → s.lock e ≠ some p
  own : ∀ p e, s.pc p = .freeing e ∨ s.pc p = .freed e → s.lock e = some p
  locked : ∀ e p, s.lock e = some p → s.valid e = true
  agree : ∀ e, 0 < s.ref e → s.valid e = true → (∀ p, s.pc p ≠ .freed e) →
    s.copy e = s.disk (s.key e) ∧ (s.disk (s.key e)).type ≠ none
  alive : ∀ p e, s.stale p e < s.refs p e → (s.disk (s.key e)).type ≠ none
  sole : ∀ p e, s.pc p = .freeing e → (s.disk (s.key e)).nlink = 0 ∧ s.ref e = 1
  fresh : ∀ p i, s.pc p = .allocating i → (s.disk i).type ≠ none ∧ (s.disk i).nlink = 0
    ∧ ∀ e q, s.key e = i → 0 < s.ref e → s.refs q e ≤ s.stale q e
  fresh_uniq : ∀ p q i, s.pc p = .allocating i → s.pc q = .allocating i → p = q

theorem refs_setRef (s : ItSys m k n) (p q : Slot) (e e' : Entry) (x y : Nat) :
    (s.setRef p e x y).refs q e' = if q = p ∧ e' = e then y else s.refs q e' := by
  show Function.update s.refs p (Function.update (s.refs p) e y) q e' = _
  by_cases hq : q = p
  · subst hq
    simp only [update_self, Function.update_apply, true_and]
  · rw [update_of_ne hq, if_neg fun h => hq h.1]

theorem ref_setRef (s : ItSys m k n) (p : Slot) (e e' : Entry) (x y : Nat) :
    (s.setRef p e x y).ref e' = if e' = e then x else s.ref e' :=
  Function.update_apply ..

/-- The references of one process to one entry change. -/
theorem sum_setRef (s : ItSys m k n) (p : Slot) (e e' : Entry) (x y : Nat) :
    (∑ q, (s.setRef p e x y).refs q e') + (if e' = e then s.refs p e else 0)
      = (∑ q, s.refs q e') + if e' = e then y else 0 := by
  by_cases he : e' = e
  · subst he
    have hfun : (fun q => (s.setRef p e' x y).refs q e') = Function.update (fun q => s.refs q e') p y := by
      funext q
      rw [refs_setRef]
      by_cases hq : q = p
      · rw [hq, if_pos ⟨rfl, rfl⟩, update_self]
      · rw [if_neg fun h => hq h.1, update_of_ne hq]
    rw [if_pos rfl, if_pos rfl, hfun, Finset.sum_update_of_mem (Finset.mem_univ p),
      ← Finset.add_sum_erase Finset.univ (fun q => s.refs q e') (Finset.mem_univ p),
      Finset.sdiff_singleton_eq_erase]
    omega
  · have hsum : (∑ q, (s.setRef p e x y).refs q e') = ∑ q, s.refs q e' := by
      refine Finset.sum_congr rfl fun q _ => ?_
      rw [refs_setRef, if_neg fun h => he h.2]
    rw [if_neg he, if_neg he, hsum]

variable (h : s.TabInv)
include h

/-- The count stays the number of references. -/
theorem TabInv.ref_eq_setRef {x y : Nat} (hxy : x + s.refs p e = s.ref e + y) (e' : Entry) :
    (s.setRef p e x y).ref e' = ∑ q, (s.setRef p e x y).refs q e' := by
  have hsum := sum_setRef s p e e' x y
  have heq := h.ref_eq e'
  rw [ref_setRef]
  split
  · rename_i he
    rw [if_pos he, if_pos he] at hsum
    rw [he] at heq hsum ⊢
    omega
  · rename_i he
    rw [if_neg he, if_neg he] at hsum
    omega

theorem TabInv.refs_le (p : Slot) (e : Entry) : s.refs p e ≤ s.ref e := by
  rw [h.ref_eq e]
  exact Finset.single_le_sum (f := fun q => s.refs q e) (fun _ _ => Nat.zero_le _) (Finset.mem_univ p)

theorem TabInv.two_refs (hpq : p ≠ q) (e : Entry) : s.refs p e + s.refs q e ≤ s.ref e := by
  rw [h.ref_eq e, ← Finset.add_sum_erase Finset.univ _ (Finset.mem_univ p)]
  have hq : q ∈ Finset.univ.erase p := Finset.mem_erase.mpr ⟨hpq.symm, Finset.mem_univ q⟩
  have := Finset.single_le_sum (f := fun q => s.refs q e) (fun _ _ => Nat.zero_le _) hq
  omega

/-- Who frees an inode has it locked. -/
theorem TabInv.own_unlocked (hlock : s.lock e = none) (hq : s.pc q = .freeing e ∨ s.pc q = .freed e) :
    False :=
  nomatch hlock.symm.trans (h.own q e hq)

/-- An entry without references is not locked and in nobody's hands. -/
theorem TabInv.unused (he : s.ref e = 0) :
    s.lock e = none ∧ ∀ p, s.pc p ≠ .freeing e ∧ s.pc p ≠ .freed e ∧ s.pc p ≠ .putting e := by
  have hzero : ∀ p, s.refs p e = 0 := fun p => by
    have := h.refs_le p e
    omega
  have hlock : s.lock e = none := by
    cases hl : s.lock e with
    | none => rfl
    | some p =>
      have := h.lock_ref e p hl
      rw [hzero p] at this
      exact absurd this (Nat.lt_irrefl 0)
  refine ⟨hlock, fun p => ⟨fun hpc => h.own_unlocked hlock (.inl hpc), fun hpc => h.own_unlocked hlock (.inr hpc),
    fun hpc => ?_⟩⟩
  have := h.busy p e hpc
  rw [hzero p] at this
  exact absurd this (Nat.lt_irrefl 0)

variable (hlock : s.lock e = some p)
include hlock

theorem TabInv.ref_pos : 0 < s.ref e :=
  Nat.lt_of_lt_of_le (h.lock_ref e p hlock) (h.refs_le p e)

/-- A locked entry that the holder has not freed is as on disk. -/
theorem TabInv.agree_locked (hpc : s.pc p ≠ .freed e) :
    s.copy e = s.disk (s.key e) ∧ (s.disk (s.key e)).type ≠ none := by
  refine h.agree e (h.ref_pos hlock) (h.locked e p hlock) fun q hq => hpc ?_
  have := h.own q e (.inr hq)
  rw [hlock] at this
  rw [Option.some.inj this]
  exact hq

variable (hpc : s.pc p = .idle)
include hpc

/-- A process that has an inode locked, and is not freeing it, sees it as on disk. -/
theorem TabInv.holder :
    s.valid e = true ∧ s.copy e = s.disk (s.key e) ∧ (s.disk (s.key e)).type ≠ none :=
  ⟨h.locked e p hlock, h.agree_locked hlock fun hf => nomatch hpc.symm.trans hf⟩

omit hpc

omit hlock

theorem TabInv.key_ne (hpos : 0 < s.ref e) (hp : 0 < s.ref e') (hne : e' ≠ e) : s.key e' ≠ s.key e :=
  fun hk => hne (h.uniq e' e hp hpos hk)

/-- The inode of an entry is allocated, and nobody frees or takes it. -/
def Kept (s : ItSys m k n) (e : Entry) : Prop :=
  (s.disk (s.key e)).type ≠ none ∧ (∀ q, s.pc q ≠ .freeing e) ∧ ∀ q, s.pc q ≠ .allocating (s.key e)

/-- A reference that is not one of a finishing `iput` keeps the inode. -/
theorem TabInv.kept (hlive : s.stale p e < s.refs p e) (hpc : s.pc p ≠ .freeing e) : s.Kept e := by
  have hpos : 0 < s.refs p e := Nat.lt_of_le_of_lt (Nat.zero_le _) hlive
  refine ⟨h.alive p e hlive, fun q hq => ?_, fun q hq => ?_⟩
  · have hqp : q ≠ p := fun he => hpc (he ▸ hq)
    have h1 := (h.sole q e hq).2
    have h2 := h.lock_ref e q (h.own q e (.inl hq))
    have h3 := h.two_refs hqp e
    omega
  · have := (h.fresh q _ hq).2.2 e p rfl (Nat.lt_of_lt_of_le hpos (h.refs_le p e))
    omega

omit h in
theorem stale_idle (hpc : s.pc p = .idle) (e : Entry) : s.stale p e = 0 := by
  unfold stale
  rw [if_neg]
  rw [hpc]
  rintro (h | h) <;> cases h

include hlock

include hpc

theorem TabInv.holder_kept : s.Kept e := by
  refine h.kept ?_ fun hf => by rw [hpc] at hf; cases hf
  rw [stale_idle hpc]
  exact h.lock_ref e p hlock

omit hpc

omit hlock

/-! ## §2. References. -/

/-- **A reference more** to an inode that nobody frees or allocates, in the one entry for it. -/
theorem TabInv.gain (huniq : ∀ e', e' ≠ e → 0 < s.ref e' → s.key e' ≠ s.key e)
    (hvalid : s.valid e = true → 0 < s.ref e) (hkept : s.Kept e) : (s.addRef p e).TabInv := by
  obtain ⟨htype, hnofree, hnofresh⟩ := hkept
  have href : ∀ e', (s.addRef p e).ref e' = if e' = e then s.ref e + 1 else s.ref e' :=
    fun e' => ref_setRef ..
  have hrefs : ∀ q e', (s.addRef p e).refs q e' = if q = p ∧ e' = e then s.refs p e + 1 else s.refs q e' :=
    fun q e' => refs_setRef ..
  have hmono : ∀ q e', s.refs q e' ≤ (s.addRef p e).refs q e' := by
    intro q e'
    rw [hrefs]
    split
    · rename_i hc
      rw [hc.1, hc.2]
      omega
    · exact Nat.le_refl _
  have hposof : ∀ e', e' ≠ e → 0 < (s.addRef p e).ref e' → 0 < s.ref e' := by
    intro e' hne hp
    rw [href, if_neg hne] at hp
    exact hp
  refine ⟨h.ref_eq_setRef (by omega), fun e₁ e₂ h1 h2 hk => ?_,
    fun e' q hl => Nat.lt_of_lt_of_le (h.lock_ref e' q hl) (hmono q e'),
    fun q e' hq => Nat.lt_of_lt_of_le (h.busy q e' hq) (hmono q e'), h.unlocked, h.own, h.locked,
    fun e' hp hv => h.agree e' ?_ hv, fun q e' hq => ?_, fun q e' hq => ?_, fun q i hq => ?_, h.fresh_uniq⟩
  · have hk : s.key e₁ = s.key e₂ := hk
    by_cases h1e : e₁ = e
    · by_cases h2e : e₂ = e
      · rw [h1e, h2e]
      · exact absurd (by rw [← hk, h1e]) (huniq e₂ h2e (hposof e₂ h2e h2))
    · by_cases h2e : e₂ = e
      · exact absurd (by rw [hk, h2e]) (huniq e₁ h1e (hposof e₁ h1e h1))
      · exact h.uniq e₁ e₂ (hposof e₁ h1e h1) (hposof e₂ h2e h2) hk
  · by_cases he : e' = e
    · rw [he] at hv ⊢
      exact hvalid hv
    · exact hposof e' he hp
  · by_cases he : e' = e
    · rw [he]
      exact htype
    · rw [hrefs, if_neg fun hc => he hc.2] at hq
      exact h.alive q e' hq
  · have he : e' ≠ e := fun he => hnofree q (he ▸ hq)
    obtain ⟨h1, h2⟩ := h.sole q e' hq
    rw [href, if_neg he]
    exact ⟨h1, h2⟩
  · obtain ⟨h1, h2, h3⟩ := h.fresh q i hq
    refine ⟨h1, h2, fun e' q' hk hp => ?_⟩
    have he : e' ≠ e := fun he => hnofresh q (by rw [← he, show s.key e' = i from hk]; exact hq)
    rw [hrefs, if_neg fun hc => he hc.2]
    exact h3 e' q' hk (hposof e' he hp)

/-- To an entry in use. -/
theorem TabInv.addRef (hpos : 0 < s.ref e) (hkept : s.Kept e) : (s.addRef p e).TabInv :=
  h.gain (fun _ hne hp => h.key_ne hpos hp hne) (fun _ => hpos) hkept

/-- A spare reference keeps the inode. -/
theorem TabInv.spare_kept (hspare : s.Spare p e) : s.Kept e := by
  unfold Spare at hspare
  have hlive : s.stale p e < s.refs p e := by
    refine Nat.lt_of_le_of_lt ?_ hspare
    unfold stale
    split
    · rename_i hpc
      rw [if_pos (hpc.imp (fun hf => h.own p e (.inr hf)) id)]
    · exact Nat.zero_le _
  refine h.kept hlive fun hpc => ?_
  have hlock := h.own p e (.inl hpc)
  have h1 := (h.sole p e hpc).2
  have h2 := h.refs_le p e
  rw [if_pos (.inl hlock)] at hspare
  omega

omit h in
theorem ref_of_dropRef (hp : 0 < (s.dropRef p e).ref e') : 0 < s.ref e' := by
  have hp : 0 < (s.setRef p e (s.ref e - 1) _).ref e' := hp
  rw [ref_setRef] at hp
  split at hp
  · rename_i he
    rw [he]
    omega
  · exact hp

/-- **A reference less**, that is needed for nothing else. -/
theorem TabInv.dropRef (hspare : s.Spare p e) : (s.dropRef p e).TabInv := by
  have hnofree := (h.spare_kept hspare).2.1
  unfold Spare at hspare
  have hle := h.refs_le p e
  have href : ∀ e', (s.dropRef p e).ref e' = if e' = e then s.ref e - 1 else s.ref e' :=
    fun e' => ref_setRef ..
  have hrefs : ∀ q e', (s.dropRef p e).refs q e' = if q = p ∧ e' = e then s.refs p e - 1 else s.refs q e' :=
    fun q e' => refs_setRef ..
  have hmono : ∀ q e', (s.dropRef p e).refs q e' ≤ s.refs q e' := by
    intro q e'
    rw [hrefs]
    split
    · rename_i hc
      rw [hc.1, hc.2]
      omega
    · exact Nat.le_refl _
  have hkeep : ∀ q e', (s.lock e' = some q ∨ s.pc q = .putting e') → 0 < s.refs q e' →
      0 < (s.dropRef p e).refs q e' := by
    intro q e' hneed hq
    rw [hrefs]
    split
    · rename_i hc
      rw [hc.1, hc.2] at hneed
      rw [if_pos hneed] at hspare
      omega
    · exact hq
  refine ⟨h.ref_eq_setRef (by omega), fun e₁ e₂ h1 h2 => h.uniq e₁ e₂ (ref_of_dropRef h1) (ref_of_dropRef h2),
    fun e' q hl => hkeep q e' (.inl hl) (h.lock_ref e' q hl),
    fun q e' hq => hkeep q e' (.inr hq) (h.busy q e' hq), h.unlocked, h.own, h.locked,
    fun e' hp => h.agree e' (ref_of_dropRef hp), fun q e' hq => h.alive q e' (Nat.lt_of_lt_of_le hq (hmono q e')),
    fun q e' hq => ?_, fun q i hq => ?_, h.fresh_uniq⟩
  · have he : e' ≠ e := fun he => hnofree q (he ▸ hq)
    obtain ⟨h1, h2⟩ := h.sole q e' hq
    rw [href, if_neg he]
    exact ⟨h1, h2⟩
  · obtain ⟨h1, h2, h3⟩ := h.fresh q i hq
    exact ⟨h1, h2, fun e' q' hk hp => Nat.le_trans (hmono q' e') (h3 e' q' hk (ref_of_dropRef hp))⟩

omit h

theorem pc_setPc (s : ItSys m k n) (p q : Slot) (x : ItPc m k) :
    (s.setPc p x).pc q = if q = p then x else s.pc q :=
  Function.update_apply ..

theorem pc_of_setPc {x y : ItPc m k} (hq : (s.setPc p x).pc q = y) : (q = p ∧ x = y) ∨ (q ≠ p ∧ s.pc q = y) := by
  rw [pc_setPc] at hq
  split at hq
  · exact .inl ⟨‹_›, hq⟩
  · exact .inr ⟨‹_›, hq⟩

/-- A process that is not at `x` is another one. -/
theorem pc_other {x y : ItPc m k} (hq : (s.setPc p x).pc q = y) (hy : y ≠ x) : q ≠ p ∧ s.pc q = y :=
  (pc_of_setPc hq).resolve_left fun h => hy h.2.symm

theorem stale_setPc_ne (s : ItSys m k n) (x : ItPc m k) (hq : q ≠ p) (e : Entry) :
    (s.setPc p x).stale q e = s.stale q e := by
  unfold stale
  rw [pc_setPc, if_neg hq]

include h

/-- A process moves on to `x`, which is not past freeing an inode. -/
theorem TabInv.setPc (x : ItPc m k) (hpc : s.pc p = .idle ∨ ∃ i, s.pc p = .allocating i)
    (hfreed : ∀ e, x ≠ .freed e) (hputting : ∀ e, x ≠ .putting e)
    (hfreeing : ∀ e, x = .freeing e → s.lock e = some p ∧ (s.disk (s.key e)).nlink = 0 ∧ s.ref e = 1)
    (hfresh : ∀ i, x = .allocating i → (s.disk i).type ≠ none ∧ (s.disk i).nlink = 0
      ∧ (∀ e q, s.key e = i → 0 < s.ref e → s.refs q e ≤ s.stale q e)
      ∧ ∀ q, q ≠ p → s.pc q ≠ .allocating i) : (s.setPc p x).TabInv := by
  have hnot : ∀ e, s.pc p ≠ .freed e ∧ s.pc p ≠ .putting e := by
    intro e
    rcases hpc with hpc | ⟨i, hpc⟩ <;> rw [hpc] <;> exact ⟨nofun, nofun⟩
  have hst : ∀ q e, (s.setPc p x).stale q e = s.stale q e := by
    intro q e
    by_cases hq : q = p
    · unfold stale
      rw [hq, pc_setPc, if_pos rfl, if_neg (not_or.mpr ⟨hfreed e, hputting e⟩),
        if_neg (not_or.mpr (hnot e))]
    · exact stale_setPc_ne s x hq e
  have hfreed' : ∀ q e, (s.setPc p x).pc q = .freed e → s.pc q = .freed e := fun q e hq =>
    (pc_other hq (hfreed e).symm).2
  have hputting' : ∀ q e, (s.setPc p x).pc q = .putting e → s.pc q = .putting e := fun q e hq =>
    (pc_other hq (hputting e).symm).2
  refine ⟨h.ref_eq, h.uniq, h.lock_ref, fun q e hq => h.busy q e (hputting' q e hq),
    fun q e hq => h.unlocked q e (hputting' q e hq), fun q e hq => ?_, h.locked, fun e hp hv hno => ?_,
    fun q e hq => h.alive q e ((hst q e) ▸ hq), fun q e hq => ?_, fun q i hq => ?_, fun q q' i hq hq' => ?_⟩
  · rcases hq with hq | hq
    · rcases pc_of_setPc hq with ⟨rfl, hx⟩ | ⟨-, hq⟩
      · exact (hfreeing e hx).1
      · exact h.own q e (.inl hq)
    · exact h.own q e (.inr (hfreed' q e hq))
  · refine h.agree e hp hv fun q hq => hno q ?_
    have hqp : q ≠ p := fun hqp => (hnot e).1 (hqp ▸ hq)
    rw [pc_setPc, if_neg hqp]
    exact hq
  · rcases pc_of_setPc hq with ⟨-, hx⟩ | ⟨-, hq⟩
    · exact (hfreeing e hx).2
    · exact h.sole q e hq
  · have hold : (s.disk i).type ≠ none ∧ (s.disk i).nlink = 0
        ∧ ∀ e q, s.key e = i → 0 < s.ref e → s.refs q e ≤ s.stale q e := by
      rcases pc_of_setPc hq with ⟨-, hx⟩ | ⟨-, hq⟩
      · obtain ⟨h1, h2, h3, -⟩ := hfresh i hx
        exact ⟨h1, h2, h3⟩
      · exact h.fresh q i hq
    refine ⟨hold.1, hold.2.1, fun e q' hk hp => ?_⟩
    rw [hst]
    exact hold.2.2 e q' hk hp
  · rcases pc_of_setPc hq with ⟨hqp, hx⟩ | ⟨hqp, hq⟩
    · rcases pc_of_setPc hq' with ⟨hqp', -⟩ | ⟨hqp', hq'⟩
      · rw [hqp, hqp']
      · exact absurd hq' ((hfresh i hx).2.2.2 q' hqp')
    · rcases pc_of_setPc hq' with ⟨-, hx⟩ | ⟨-, hq'⟩
      · exact absurd hq ((hfresh i hx).2.2.2 q hqp)
      · exact h.fresh_uniq q q' i hq hq'

/-- `ialloc` goes on to `iget`. -/
theorem TabInv.allocated (hpc : s.pc p = .allocating i) : (s.setPc p .idle).TabInv :=
  h.setPc _ (.inr ⟨i, hpc⟩) nofun nofun nofun nofun

/-- **`iput` drops its reference.** -/
theorem TabInv.put (hpc : s.pc p = .putting e) : ((s.dropRef p e).setPc p .idle).TabInv := by
  have hpos := h.busy p e hpc
  have hle := h.refs_le p e
  have hone : s.stale p e = 1 := if_pos (.inr hpc)
  have hzero : ∀ e', e' ≠ e → s.stale p e' = 0 := by
    intro e' hne
    unfold stale
    rw [hpc]
    refine if_neg ?_
    rintro (hf | hf)
    · cases hf
    · exact hne (ItPc.putting.inj hf).symm
  have hst : ∀ q e', ((s.dropRef p e).setPc p .idle).stale q e' = if q = p then 0 else s.stale q e' := by
    intro q e'
    by_cases hq : q = p
    · rw [if_pos hq]
      unfold stale
      rw [pc_setPc, if_pos hq]
      exact if_neg (by rintro (h | h) <;> cases h)
    · rw [if_neg hq]
      exact stale_setPc_ne _ _ hq e'
  have href : ∀ e', ((s.dropRef p e).setPc p .idle).ref e' = if e' = e then s.ref e - 1 else s.ref e' :=
    fun e' => ref_setRef (p := p) (y := s.refs p e - 1) ..
  have hrefs : ∀ q e', ((s.dropRef p e).setPc p .idle).refs q e'
      = if q = p ∧ e' = e then s.refs p e - 1 else s.refs q e' := fun q e' => refs_setRef (x := s.ref e - 1) ..
  have hposof : ∀ e', 0 < ((s.dropRef p e).setPc p .idle).ref e' → 0 < s.ref e' := fun _ => ref_of_dropRef (p := p)
  have hback : ∀ q x, ((s.dropRef p e).setPc p .idle).pc q = x → x ≠ .idle → q ≠ p ∧ s.pc q = x := fun _ _ => pc_other
  have hother : ∀ q e', q ≠ p → ((s.dropRef p e).setPc p .idle).refs q e' = s.refs q e' := fun q e' hq => by
    rw [hrefs, if_neg fun hc => hq hc.1]
  refine ⟨h.ref_eq_setRef (by omega), fun e₁ e₂ h1 h2 => h.uniq e₁ e₂ (hposof e₁ h1) (hposof e₂ h2), fun e' q hl => ?_,
    fun q e' hq => ?_, fun q e' hq => h.unlocked q e' (hback q _ hq nofun).2, fun q e' hq => ?_, h.locked,
    fun e' hp hv hno => ?_, fun q e' hq => ?_, fun q e' hq => ?_, fun q i hq => ?_, fun q q' i hq hq' => ?_⟩
  · have hl : s.lock e' = some q := hl
    rw [hrefs, if_neg]
    · exact h.lock_ref e' q hl
    · rintro ⟨rfl, rfl⟩
      exact h.unlocked q e' hpc hl
  · obtain ⟨hqp, hq⟩ := hback q _ hq nofun
    rw [hother q e' hqp]
    exact h.busy q e' hq
  · rcases hq with hq | hq
    · exact h.own q e' (.inl (hback q _ hq nofun).2)
    · exact h.own q e' (.inr (hback q _ hq nofun).2)
  · refine h.agree e' (hposof e' hp) hv fun q hq => hno q ?_
    have hqp : q ≠ p := by
      rintro rfl
      rw [hpc] at hq
      cases hq
    rw [pc_setPc, if_neg hqp]
    exact hq
  · by_cases hqp : q = p
    · rw [hst, if_pos hqp, hrefs] at hq
      refine h.alive p e' ?_
      split at hq
      · rename_i hc
        rw [hc.2, hone]
        omega
      · rename_i hc
        have hne : e' ≠ e := fun he => hc ⟨hqp, he⟩
        rw [hqp] at hq
        rw [hzero e' hne]
        exact hq
    · rw [hst, if_neg hqp, hother q e' hqp] at hq
      exact h.alive q e' hq
  · obtain ⟨hqp, hq⟩ := hback q _ hq nofun
    obtain ⟨h1, h2⟩ := h.sole q e' hq
    have h3 := h.lock_ref e' q (h.own q e' (.inl hq))
    have h4 := h.two_refs hqp e'
    have hne : e' ≠ e := fun hee => by
      rw [hee] at h1 h2 h3 h4
      omega
    rw [href, if_neg hne]
    exact ⟨h1, h2⟩
  · obtain ⟨h1, h2, h3⟩ := h.fresh q i (hback q _ hq nofun).2
    refine ⟨h1, h2, fun e' q' hk hp => ?_⟩
    have h4 := h3 e' q' hk (hposof e' hp)
    by_cases hqp : q' = p
    · rw [hst, if_pos hqp, hrefs]
      split
      · rename_i hc
        rw [hc.1, hc.2, hone] at h4
        omega
      · rename_i hc
        have hne : e' ≠ e := fun he => hc ⟨hqp, he⟩
        exact Nat.le_trans h4 (Nat.le_of_eq (hqp ▸ hzero e' hne))
    · rw [hst, if_neg hqp, hother q' e' hqp]
      exact h4
  · exact h.fresh_uniq q q' i (hback q _ hq nofun).2 (hback q' _ hq' nofun).2

/-- An empty entry is relabelled. -/
theorem TabInv.take (he : s.ref e = 0) (i : Ino m k) : ((s.setKey e i).setValid e false).TabInv := by
  obtain ⟨hlock, hpcs⟩ := h.unused he
  have hkey : ∀ e', e' ≠ e → ((s.setKey e i).setValid e false).key e' = s.key e' :=
    fun e' hne => update_of_ne hne ..
  have hvalid : ∀ e', e' ≠ e → ((s.setKey e i).setValid e false).valid e' = s.valid e' :=
    fun e' hne => update_of_ne hne ..
  have hne_of_pos : ∀ e', 0 < s.ref e' → e' ≠ e := fun e' hp he' => by
    rw [he', he] at hp
    exact Nat.lt_irrefl 0 hp
  have hne_of_refs : ∀ q e', 0 < s.refs q e' → e' ≠ e := fun q e' hp =>
    hne_of_pos e' (Nat.lt_of_lt_of_le hp (h.refs_le q e'))
  refine ⟨h.ref_eq, fun e₁ e₂ h1 h2 hk => ?_, h.lock_ref, h.busy, h.unlocked, h.own, fun e' q hl => ?_,
    fun e' hp hv hno => ?_, fun q e' hq => ?_, fun q e' hq => ?_, fun q j hq => ?_, h.fresh_uniq⟩
  · rw [hkey e₁ (hne_of_pos e₁ h1), hkey e₂ (hne_of_pos e₂ h2)] at hk
    exact h.uniq e₁ e₂ h1 h2 hk
  · have hheld : s.lock e' = some q := hl
    have hne : e' ≠ e := fun hee => by
      rw [hee, hlock] at hheld
      cases hheld
    rw [hvalid e' hne]
    exact h.locked e' q hheld
  · have hne := hne_of_pos e' hp
    rw [hvalid e' hne] at hv
    rw [hkey e' hne]
    exact h.agree e' hp hv hno
  · have hne := hne_of_refs q e' (Nat.lt_of_le_of_lt (Nat.zero_le _) hq)
    rw [hkey e' hne]
    exact h.alive q e' hq
  · have hne : e' ≠ e := fun he' => (hpcs q).1 (he' ▸ hq)
    rw [hkey e' hne]
    exact h.sole q e' hq
  · obtain ⟨h1, h2, h3⟩ := h.fresh q j hq
    refine ⟨h1, h2, fun e' q' hk hp => ?_⟩
    rw [hkey e' (hne_of_pos e' hp)] at hk
    exact h3 e' q' hk hp

/-- The first reference to an entry, for an inode that is not in the table. -/
theorem TabInv.addFirst (he : s.ref e = 0) (hvalid : s.valid e = false)
    (hnot : ∀ e', 0 < s.ref e' → s.key e' ≠ s.key e) (htype : (s.disk (s.key e)).type ≠ none)
    (hnofresh : ∀ q, s.pc q ≠ .allocating (s.key e)) : (s.addRef p e).TabInv :=
  h.gain (fun e' _ => hnot e') (fun hv => nomatch hvalid.symm.trans hv) ⟨htype, fun q => ((h.unused he).2 q).1, hnofresh⟩

/-- **`iget`** of an inode that is allocated and not being freed or taken. -/
theorem TabInv.iget (htype : (s.disk i).type ≠ none)
    (hnofree : ∀ e q, s.key e = i → s.pc q ≠ .freeing e) (hnofresh : ∀ q, s.pc q ≠ .allocating i)
    (hrun : s.iget p i = .ok s') :
    s'.TabInv ∧ s'.disk = s.disk ∧ s'.dirent = s.dirent ∧ s'.dotdot = s.dotdot ∧ s'.pend = s.pend
      ∧ s'.lock = s.lock ∧ s'.pc = s.pc ∧ ∀ e, 0 < s.ref e → s'.key e = s.key e := by
  unfold ItSys.iget at hrun
  split at hrun
  · rename_i e hfind
    have hfound := List.find?_some hfind
    simp only [decide_eq_true_eq] at hfound
    obtain ⟨hpos, hkey⟩ := hfound
    cases hrun
    subst hkey
    exact ⟨h.addRef hpos ⟨htype, fun q => hnofree e q rfl, hnofresh⟩, rfl, rfl, rfl, rfl, rfl, rfl, fun _ _ => rfl⟩
  rename_i hnone
  have hnot : ∀ e', 0 < s.ref e' → s.key e' ≠ i := by
    intro e' hp hk
    have := List.find?_eq_none.mp hnone e' (List.mem_finRange e')
    simp only [decide_eq_true_eq] at this
    exact this ⟨hp, hk⟩
  split at hrun
  · cases hrun
  rename_i e hfind
  have hfound := List.find?_some hfind
  simp only [decide_eq_true_eq] at hfound
  cases hrun
  have hkey : ((s.setKey e i).setValid e false).key e = i := update_self ..
  have hvalid : ((s.setKey e i).setValid e false).valid e = false := update_self ..
  refine ⟨(h.take hfound i).addFirst hfound hvalid (fun e' hp => ?_) ?_ fun q => ?_, rfl, rfl, rfl,
    rfl, rfl, rfl, fun e' hp => ?_⟩
  · rw [hkey]
    have hne : e' ≠ e := by
      rintro rfl
      have hp : 0 < s.ref e' := hp
      omega
    show Function.update s.key e i e' ≠ i
    rw [update_of_ne hne]
    exact hnot e' hp
  · rw [hkey]
    exact htype
  · rw [hkey]
    exact hnofresh q
  · have hne : e' ≠ e := by
      rintro rfl
      omega
    show Function.update s.key e i e' = _
    rw [update_of_ne hne]

/-! ## §3. Locks and copies. -/

include hpc

/-- **`acquiresleep`** on a valid entry. -/
theorem TabInv.acquire (hpos : 0 < s.refs p e)
    (hlock : s.lock e = none) (hvalid : s.valid e = true) : (s.setLock e (some p)).TabInv := by
  have hl : ∀ e' q, (s.setLock e (some p)).lock e' = some q → (e' = e ∧ q = p) ∨ s.lock e' = some q := by
    intro e' q hq
    by_cases he : e' = e
    · have hq : Function.update s.lock e (some p) e' = some q := hq
      rw [he, update_self] at hq
      exact .inl ⟨he, (Option.some.inj hq).symm⟩
    · have hq : Function.update s.lock e (some p) e' = some q := hq
      rw [update_of_ne he] at hq
      exact .inr hq
  refine ⟨h.ref_eq, h.uniq, fun e' q hq => ?_, h.busy, fun q e' hq hc => ?_, fun q e' hq => ?_,
    fun e' q hq => ?_, h.agree, h.alive, h.sole, h.fresh, h.fresh_uniq⟩
  · rcases hl e' q hq with ⟨rfl, rfl⟩ | hq
    · exact hpos
    · exact h.lock_ref e' q hq
  · have hput : s.pc q = .putting e' := hq
    rcases hl e' q hc with ⟨-, hqp⟩ | hc
    · rw [hqp, hpc] at hput
      cases hput
    · exact h.unlocked q e' hput hc
  · have hown := h.own q e' hq
    have hne : e' ≠ e := fun he => by
      rw [he, hlock] at hown
      cases hown
    show Function.update s.lock e (some p) e' = _
    rw [update_of_ne hne]
    exact hown
  · rcases hl e' q hq with ⟨rfl, -⟩ | hq
    · exact hvalid
    · exact h.locked e' q hq

omit hpc in
/-- `ilock` reads the inode from disk. -/
theorem TabInv.load (htype : (s.disk (s.key e)).type ≠ none) :
    ((s.setCopy e (s.disk (s.key e))).setValid e true).TabInv := by
  refine ⟨h.ref_eq, h.uniq, h.lock_ref, h.busy, h.unlocked, h.own, fun e' q hq => ?_, fun e' hp hv hno => ?_,
    h.alive, h.sole, h.fresh, h.fresh_uniq⟩
  · show Function.update s.valid e true e' = true
    by_cases he : e' = e
    · rw [he, update_self]
    · rw [update_of_ne he]
      exact h.locked e' q hq
  show Function.update s.copy e _ e' = _ ∧ _
  by_cases he : e' = e
  · rw [he, update_self]
    exact ⟨rfl, htype⟩
  · have hv : Function.update s.valid e true e' = true := hv
    rw [update_of_ne he] at hv ⊢
    exact h.agree e' hp hv hno

/-- **`ilock`.** -/
theorem TabInv.ilock (hpos : 0 < s.refs p e)
    (hrun : s.ilock p e = .ok s') : s'.TabInv := by
  unfold ItSys.ilock at hrun
  split at hrun
  · cases hrun
  rename_i hlock
  have hlock : s.lock e = none := not_not.mp hlock
  split at hrun
  · rename_i hvalid
    cases hrun
    exact h.acquire hpc hpos hlock hvalid
  · split at hrun
    · cases hrun
    · rename_i htype
      cases hrun
      exact (h.load htype).acquire hpc hpos hlock (update_self ..)

/-- **`iunlock`.** -/
theorem TabInv.iunlock (hrun : s.iunlock p e = .ok s') : s'.TabInv := by
  unfold ItSys.iunlock at hrun
  split at hrun
  · rename_i hlock
    cases hrun
    have hl : ∀ e' q, (s.setLock e none).lock e' = some q → s.lock e' = some q := by
      intro e' q hq
      have hq : Function.update s.lock e none e' = some q := hq
      by_cases he : e' = e
      · rw [he, update_self] at hq
        cases hq
      · rwa [update_of_ne he] at hq
    refine ⟨h.ref_eq, h.uniq, fun e' q hq => h.lock_ref e' q (hl e' q hq), h.busy,
      fun q e' hq hc => h.unlocked q e' hq (hl e' q hc), fun q e' hq => ?_,
      fun e' q hq => h.locked e' q (hl e' q hq), h.agree, h.alive, h.sole, h.fresh, h.fresh_uniq⟩
    have hown := h.own q e' hq
    have hne : e' ≠ e := fun he => by
      rw [he, hlock] at hown
      cases hown
      rcases hq with hq | hq <;> rw [show s.pc p = _ from hq] at hpc <;> cases hpc
    show Function.update s.lock e none e' = _
    rw [update_of_ne hne]
    exact hown
  · cases hrun

include hlock

/-- The holder of the lock writes the inode back, with its type. -/
theorem TabInv.update (x : DiskInode)
    (hx : x.type = (s.copy e).type) : (s.update e x).TabInv := by
  obtain ⟨-, hcopy, htype⟩ := h.holder hlock hpc
  obtain ⟨-, hnofree, hnofresh⟩ := h.holder_kept hlock hpc
  have hself : (s.update e x).disk (s.key e) = x := update_self ..
  have hother : ∀ j, j ≠ s.key e → (s.update e x).disk j = s.disk j := fun j hj => update_of_ne hj ..
  have hne_key : ∀ e', 0 < s.ref e' → e' ≠ e → s.key e' ≠ s.key e := fun _ => h.key_ne (h.ref_pos hlock)
  have htype' : ∀ j, (s.disk j).type ≠ none → ((s.update e x).disk j).type ≠ none := by
    intro j hj
    by_cases hk : j = s.key e
    · rw [hk, hself, hx, hcopy]
      exact htype
    · rw [hother j hk]
      exact hj
  refine ⟨h.ref_eq, h.uniq, h.lock_ref, h.busy, h.unlocked, h.own, h.locked, fun e' hp hv hno => ?_,
    fun q e' hq => htype' _ (h.alive q e' hq), fun q e' hq => ?_, fun q i hq => ?_, h.fresh_uniq⟩
  · show Function.update s.copy e x e' = (s.update e x).disk (s.key e') ∧ _
    by_cases he : e' = e
    · rw [he, update_self, hself]
      refine ⟨rfl, ?_⟩
      show ((s.update e x).disk (s.key e)).type ≠ none
      exact htype' _ htype
    · rw [update_of_ne he, hother _ (hne_key e' hp he)]
      refine ⟨(h.agree e' hp hv hno).1, ?_⟩
      show ((s.update e x).disk (s.key e')).type ≠ none
      exact htype' _ (h.agree e' hp hv hno).2
  · have he : e' ≠ e := fun he => hnofree q (he ▸ hq)
    show ((s.update e x).disk (s.key e')).nlink = 0 ∧ _
    have hp : 0 < s.ref e' := h.ref_pos (h.own q e' (.inl hq))
    rw [hother _ (hne_key e' hp he)]
    exact h.sole q e' hq
  · have hne : i ≠ s.key e := fun he => hnofresh q (he ▸ hq)
    rw [hother i hne]
    exact h.fresh q i hq

omit hlock

/-! ## §4. `iput` and `ialloc`. -/

/-- `iput` finds the last reference to an inode without links. -/
theorem TabInv.startFree (hpos : 0 < s.refs p e) (hone : s.ref e = 1)
    (hvalid : s.valid e = true) (hnlink : (s.copy e).nlink = 0) (hlock : s.lock e = none) :
    ((s.setLock e (some p)).setPc p (.freeing e)).TabInv := by
  have hcopy := (h.agree e (by omega) hvalid fun q hq => h.own_unlocked hlock (.inr hq)).1
  refine (h.acquire hpc hpos hlock hvalid).setPc _ (.inl hpc) nofun nofun (fun e' he => ?_) nofun
  obtain rfl := ItPc.freeing.inj he
  refine ⟨update_self .., ?_, hone⟩
  show (s.disk (s.key e)).nlink = 0
  rw [← hcopy]
  exact hnlink

/-- **`iput`**, its first part. -/
theorem TabInv.iput (hspare : s.Spare p e)
    (hrun : s.iput p e = .ok s') : s'.TabInv := by
  unfold ItSys.iput at hrun
  split at hrun
  · rename_i hlast
    split at hrun
    · rename_i hlock
      cases hrun
      exact h.startFree hpc (Nat.lt_of_le_of_lt (Nat.zero_le _) hspare) hlast.1 hlast.2.1 hlast.2.2 hlock
    · cases hrun
  · cases hrun
    exact h.dropRef hspare

omit hpc

/-- **The inode is freed on disk.** -/
theorem TabInv.free (hpc : s.pc p = .freeing e) (x : DiskInode) (hx : x.nlink = (s.copy e).nlink) :
    (((s.update e x).clearDir (s.key e)).setPc p (.freed e)).TabInv := by
  obtain ⟨hnlink, hone⟩ := h.sole p e hpc
  have hlock := h.own p e (.inl hpc)
  have hrefp := h.lock_ref e p hlock
  have hpos := h.ref_pos hlock
  have hst0 : ∀ e', s.stale p e' = 0 := fun e' => by
    unfold stale
    rw [hpc]
    exact if_neg (by rintro (h | h) <;> cases h)
  let t := ((s.update e x).clearDir (s.key e)).setPc p (.freed e)
  have hother : ∀ j, j ≠ s.key e → t.disk j = s.disk j := fun j hj => update_of_ne hj ..
  have hback : ∀ q y, t.pc q = y → y ≠ .freed e → q ≠ p ∧ s.pc q = y := fun _ _ => pc_other
  have hst : ∀ q e', s.stale q e' ≤ t.stale q e' := by
    intro q e'
    by_cases hq : q = p
    · rw [hq, hst0]
      exact Nat.zero_le _
    · exact Nat.le_of_eq (stale_setPc_ne _ _ hq e').symm
  have hnot : ∀ q e', q ≠ p → s.pc q = .freeing e' → e' ≠ e := by
    rintro q e' hqp hq rfl
    have := h.own q e' (.inl hq)
    rw [hlock] at this
    exact hqp (Option.some.inj this).symm
  have hne_key : ∀ e', 0 < s.ref e' → e' ≠ e → s.key e' ≠ s.key e := fun _ => h.key_ne hpos
  have hstp : t.stale p e = 1 := by
    refine if_pos (.inl ?_)
    show Function.update s.pc p (.freed e) p = _
    rw [update_self]
  show t.TabInv
  refine ⟨h.ref_eq, h.uniq, h.lock_ref, fun q e' hq => h.busy q e' (hback q _ hq nofun).2,
    fun q e' hq => h.unlocked q e' (hback q _ hq nofun).2, fun q e' hq => ?_, h.locked,
    fun e' hp hv hno => ?_, fun q e' hq => ?_, fun q e' hq => ?_, fun q j hq => ?_,
    fun q q' i hq hq' => h.fresh_uniq q q' i (hback q _ hq nofun).2 (hback q' _ hq' nofun).2⟩
  · by_cases hqp : q = p
    · have hpcq : t.pc q = .freed e := by
        rw [hqp]
        exact update_self ..
      rw [hpcq] at hq
      rcases hq with hq | hq
      · cases hq
      · rw [← ItPc.freed.inj hq, hqp]
        exact hlock
    · have hpcq : t.pc q = s.pc q := update_of_ne hqp ..
      rw [hpcq] at hq
      exact h.own q e' hq
  · have hp : 0 < s.ref e' := hp
    have hne : e' ≠ e := by
      rintro rfl
      exact hno p (update_self ..)
    show Function.update s.copy e x e' = t.disk (s.key e') ∧ (t.disk (s.key e')).type ≠ none
    rw [update_of_ne hne, hother _ (hne_key e' hp hne)]
    refine h.agree e' hp hv fun q hq => hno q ?_
    have hqp : q ≠ p := by
      rintro rfl
      rw [hpc] at hq
      cases hq
    show Function.update s.pc p (.freed e) q = _
    rw [update_of_ne hqp]
    exact hq
  · have hq' : t.stale q e' < s.refs q e' := hq
    have hp : 0 < s.ref e' := Nat.lt_of_lt_of_le (Nat.lt_of_le_of_lt (Nat.zero_le _) hq') (h.refs_le q e')
    have hne : e' ≠ e := by
      rintro rfl
      by_cases hqp : q = p
      · rw [hqp, hstp] at hq'
        have := h.refs_le p e'
        omega
      · have := h.two_refs hqp e'
        omega
    show (t.disk (s.key e')).type ≠ none
    rw [hother _ (hne_key e' hp hne)]
    exact h.alive q e' (Nat.lt_of_le_of_lt (hst q e') hq')
  · obtain ⟨hqp, hq⟩ := hback q _ hq nofun
    have hne := hnot q e' hqp hq
    have hp : 0 < s.ref e' := h.ref_pos (h.own q e' (.inl hq))
    show (t.disk (s.key e')).nlink = 0 ∧ s.ref e' = 1
    rw [hother _ (hne_key e' hp hne)]
    exact h.sole q e' hq
  · obtain ⟨h1, h2, h3⟩ := h.fresh q j (hback q _ hq nofun).2
    have hne : j ≠ s.key e := fun he => by
      have := h3 e p he.symm hpos
      rw [hst0] at this
      omega
    rw [hother j hne]
    exact ⟨h1, h2, fun e' q' hk hp => Nat.le_trans (h3 e' q' hk hp) (hst q' e')⟩

/-- **The freed inode is unlocked.** -/
theorem TabInv.settle (hpc : s.pc p = .freed e) :
    (((s.setValid e false).setLock e none).setPc p (.putting e)).TabInv := by
  have hlock := h.own p e (.inr hpc)
  let t := ((s.setValid e false).setLock e none).setPc p (.putting e)
  have hpcp : t.pc p = .putting e := update_self ..
  have hpcq : ∀ q, q ≠ p → t.pc q = s.pc q := fun q hq => update_of_ne hq ..
  have hlocke : t.lock e = none := update_self ..
  have hlock' : ∀ e', e' ≠ e → t.lock e' = s.lock e' := fun e' he => update_of_ne he ..
  have hl : ∀ e' q, t.lock e' = some q → e' ≠ e ∧ s.lock e' = some q := by
    intro e' q hq
    by_cases he : e' = e
    · rw [he, hlocke] at hq
      cases hq
    · rw [hlock' e' he] at hq
      exact ⟨he, hq⟩
  have hst : ∀ q e', t.stale q e' = s.stale q e' := by
    intro q e'
    by_cases hq : q = p
    · unfold stale
      rw [hq, hpcp, hpc]
      by_cases he : e = e'
      · rw [he, if_pos (.inr rfl), if_pos (.inl rfl)]
      rw [if_neg, if_neg]
      · rintro (hf | hf)
        · exact he (ItPc.freed.inj hf)
        · cases hf
      · rintro (hf | hf)
        · cases hf
        · exact he (ItPc.putting.inj hf)
    · exact stale_setPc_ne _ _ hq e'
  have hback : ∀ q y, t.pc q = y → y ≠ .putting e → q ≠ p ∧ s.pc q = y := fun _ _ => pc_other
  show t.TabInv
  refine ⟨h.ref_eq, h.uniq, fun e' q hq => h.lock_ref e' q (hl e' q hq).2, fun q e' hq => ?_,
    fun q e' hq => ?_, fun q e' hq => ?_, fun e' q hq => ?_, fun e' hp hv hno => ?_,
    fun q e' hq => h.alive q e' ((hst q e') ▸ hq), fun q e' hq => h.sole q e' (hback q _ hq nofun).2,
    fun q i hq => ?_, fun q q' i hq hq' => h.fresh_uniq q q' i (hback q _ hq nofun).2 (hback q' _ hq' nofun).2⟩
  · by_cases hqp : q = p
    · rw [hqp, hpcp] at hq
      rw [hqp, ← ItPc.putting.inj hq]
      exact h.lock_ref e p hlock
    · rw [hpcq q hqp] at hq
      exact h.busy q e' hq
  · intro hc
    obtain ⟨hne, hc⟩ := hl e' q hc
    by_cases hqp : q = p
    · rw [hqp, hpcp] at hq
      exact hne (ItPc.putting.inj hq).symm
    · rw [hpcq q hqp] at hq
      exact h.unlocked q e' hq hc
  · have hq : q ≠ p ∧ (s.pc q = .freeing e' ∨ s.pc q = .freed e') := by
      rcases hq with hq | hq
      · exact ⟨(hback q _ hq nofun).1, .inl (hback q _ hq nofun).2⟩
      · exact ⟨(hback q _ hq nofun).1, .inr (hback q _ hq nofun).2⟩
    have hown := h.own q e' hq.2
    have hne : e' ≠ e := fun he => by
      rw [he, hlock] at hown
      exact hq.1 (Option.some.inj hown).symm
    rw [hlock' e' hne]
    exact hown
  · obtain ⟨hne, hq⟩ := hl e' q hq
    show Function.update s.valid e false e' = true
    rw [update_of_ne hne]
    exact h.locked e' q hq
  · have hv : Function.update s.valid e false e' = true := hv
    have hne : e' ≠ e := fun he => by
      rw [he, update_self] at hv
      cases hv
    rw [update_of_ne hne] at hv
    refine h.agree e' hp hv fun q hq => hno q ?_
    have hqp : q ≠ p := fun hqp => by
      rw [hqp, hpc] at hq
      exact hne (ItPc.freed.inj hq).symm
    rw [hpcq q hqp]
    exact hq
  · obtain ⟨h1, h2, h3⟩ := h.fresh q i (hback q _ hq nofun).2
    refine ⟨h1, h2, fun e' q' hk hp => ?_⟩
    rw [hst]
    exact h3 e' q' hk hp

include hpc

/-- **`ialloc`** takes a free inode. -/
theorem TabInv.ialloc {type : InodeType}
    (hrun : s.ialloc p i type = .ok s') : s'.TabInv := by
  unfold ItSys.ialloc at hrun
  split at hrun
  · cases hrun
  rename_i hfree
  have htype : (s.disk i).type = none := not_not.mp (not_or.mp hfree).1
  cases hrun
  have hdead : ∀ e q, s.key e = i → s.refs q e ≤ s.stale q e := fun e q hk =>
    Nat.le_of_not_lt fun hlt => h.alive q e hlt (hk ▸ htype)
  have hself : ((s.setDisk i (.zeroed (some type))).clearDir i).disk i = .zeroed (some type) :=
    update_self ..
  have hother : ∀ j, j ≠ i → ((s.setDisk i (.zeroed (some type))).clearDir i).disk j = s.disk j :=
    fun j hj => update_of_ne hj ..
  have hnofresh : ∀ q, s.pc q ≠ .allocating i := fun q hq => (h.fresh q i hq).1 htype
  have hmid : ((s.setDisk i (.zeroed (some type))).clearDir i).TabInv := by
    refine ⟨h.ref_eq, h.uniq, h.lock_ref, h.busy, h.unlocked, h.own, h.locked, fun e hp hv hno => ?_,
      fun q e hq => ?_, fun q e hq => ?_, fun q j hq => ?_, h.fresh_uniq⟩
    · obtain ⟨h1, h2⟩ := h.agree e hp hv hno
      have hne : s.key e ≠ i := fun hk => h2 (hk ▸ htype)
      show s.copy e = ((s.setDisk i (.zeroed (some type))).clearDir i).disk (s.key e) ∧
        (((s.setDisk i (.zeroed (some type))).clearDir i).disk (s.key e)).type ≠ none
      rw [hother _ hne]
      exact ⟨h1, h2⟩
    · have h2 := h.alive q e hq
      show (((s.setDisk i (.zeroed (some type))).clearDir i).disk (s.key e)).type ≠ none
      have hne : s.key e ≠ i := fun hk => h2 (hk ▸ htype)
      rw [hother _ hne]
      exact h2
    · show (((s.setDisk i (.zeroed (some type))).clearDir i).disk (s.key e)).nlink = 0 ∧ _
      refine ⟨?_, (h.sole q e hq).2⟩
      by_cases hk : s.key e = i
      · rw [hk, hself]
        rfl
      · rw [hother _ hk]
        exact (h.sole q e hq).1
    · rw [hother j fun hj => hnofresh q (hj ▸ hq)]
      exact h.fresh q j hq
  refine hmid.setPc _ (.inl hpc) nofun nofun nofun fun j hj => ?_
  obtain rfl := ItPc.allocating.inj hj
  rw [hself]
  exact ⟨nofun, rfl, fun e q hk _ => hdead e q hk, fun q _ => hnofresh q⟩

omit hpc

/-- The directories and the unfinished links do not concern the table. -/
theorem TabInv.congr (dotdot : Ino m k → Option (Inum k))
    (dirent : Ino m k → Fin n → Option (Inum k)) (pend : Slot → Pend m k) :
    ({ s with dotdot := dotdot, dirent := dirent, pend := pend } : ItSys m k n).TabInv :=
  ⟨h.ref_eq, h.uniq, h.lock_ref, h.busy, h.unlocked, h.own, h.locked, h.agree, h.alive, h.sole, h.fresh,
    h.fresh_uniq⟩

end ItSys

end Xv6
