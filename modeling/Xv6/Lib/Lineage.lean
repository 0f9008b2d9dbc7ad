/-
  Xv6.Lib.Lineage — a family of numbered individuals in reusable slots.

  A slot is unused, or holds an individual that is new, alive or a zombie.
  Individuals are numbered in the order of birth.  A new one is adopted by a
  parent and then becomes alive; one that dies has no children left, because
  they have been given to the root; a zombie is reaped, which empties its
  slot.

  Main results:
    * `Lineage.Inv.step`  — each step keeps the invariant: parents are alive
      and older than their children, and nobody is reaped twice,
    * `Lineage.Inv.climb` — following parents leads to the root.
-/
import Mathlib.Logic.Function.Basic
import Mathlib.Data.List.Nodup

namespace Xv6.Lib

open Function (update update_eq_self update_of_ne update_self)

/-- The stages of a life. -/
inductive Life where
  | unused
  | new
  | alive
  | zombie
  deriving DecidableEq, Repr

/-- Individuals with parents, numbered in the order of their births. -/
structure Lineage (α : Type) where
  life : α → Life
  parent : α → Option α
  born : α → Nat
  births : Nat
  reaped : List Nat

namespace Lineage

variable {α : Type} [DecidableEq α] {root : α} {f f' : Lineage α}

/-- An individual comes to another stage. -/
def setLife (f : Lineage α) (a : α) (x : Life) : Lineage α :=
  { f with life := update f.life a x }

/-- A parent changes. -/
def setParent (f : Lineage α) (a : α) (x : Option α) : Lineage α :=
  { f with parent := update f.parent a x }

/-- A birth gets its number. -/
def numbered (f : Lineage α) (a : α) : Lineage α :=
  { f with born := update f.born a f.births, births := f.births + 1 }

/-- A death is recorded. -/
def record (f : Lineage α) (a : α) : Lineage α := { f with reaped := f.born a :: f.reaped }

/-- What can happen to a lineage. -/
inductive Step (root : α) (f : Lineage α) : Lineage α → Prop
  | birth (a : α) : f.life a = .unused → Step root f ((f.setLife a .new).numbered a)
  /-- one that was never adopted disappears -/
  | drop (a : α) : f.life a = .new → f.parent a = none → Step root f (f.setLife a .unused)
  | adopt (a p : α) : f.life a = .new → f.life p = .alive → f.born p < f.born a →
      Step root f (f.setParent a (some p))
  | start (a p : α) : f.life a = .new → f.parent a = some p → Step root f (f.setLife a .alive)
  | toRoot (a p : α) : f.parent a = some p → Step root f (f.setParent a (some root))
  | die (a : α) : a ≠ root → f.life a = .alive → (∀ c, f.parent c ≠ some a) →
      Step root f (f.setLife a .zombie)
  | reap (a : α) : f.life a = .zombie →
      Step root f (((f.setLife a .unused).setParent a none).record a)

/-- Parents are alive and older than their children. -/
structure Inv (root : α) (f : Lineage α) : Prop where
  root_alive : f.life root = .alive
  root_parent : f.parent root = none
  root_first : ∀ c, f.life c ≠ .unused → c ≠ root → f.born root < f.born c
  parent : ∀ c p, f.parent c = some p → f.life p = .alive ∧ f.born p < f.born c
  child : ∀ c, c ≠ root → f.life c = .alive ∨ f.life c = .zombie → f.parent c ≠ none
  unused : ∀ c, f.life c = .unused → f.parent c = none
  born_lt : ∀ c, f.life c ≠ .unused → f.born c < f.births
  born_inj : ∀ c c', f.life c ≠ .unused → f.life c' ≠ .unused → f.born c = f.born c' → c = c'
  reaped : f.reaped.Nodup ∧ ∀ n ∈ f.reaped, n < f.births ∧ ∀ c, f.life c ≠ .unused → f.born c ≠ n

variable (h : f.Inv root)
include h

/-- A slot changes, and stays in use if it was. -/
theorem Inv.setLife {a : α} {x : Life} (hused : f.life a ≠ .unused)
    (hroot : a = root → x = .alive) (hx : x ≠ .unused) (hpar : (∀ c, f.parent c ≠ some a) ∨ x = .alive)
    (hchild : a = root ∨ f.parent a ≠ none ∨ x = .new) : (f.setLife a x).Inv root := by
  have hiff : ∀ c, (f.setLife a x).life c ≠ .unused ↔ f.life c ≠ .unused := by
    intro c
    unfold Lineage.setLife
    dsimp only
    by_cases hc : c = a
    · rw [hc, update_self]; exact ⟨fun _ => hused, fun _ => hx⟩
    · rw [update_of_ne hc]
  refine ⟨?_, h.root_parent, fun c hc => h.root_first c ((hiff c).mp hc), fun c p hp => ?_,
    fun c hc hl => ?_, fun c hc => ?_, fun c hc => h.born_lt c ((hiff c).mp hc),
    fun c c' hc hc' => h.born_inj c c' ((hiff c).mp hc) ((hiff c').mp hc'), h.reaped.1,
    fun n hn => ⟨(h.reaped.2 n hn).1, fun c hc => (h.reaped.2 n hn).2 c ((hiff c).mp hc)⟩⟩
  · show update f.life a x root = .alive
    by_cases hr : root = a
    · rw [hr, update_self]; exact hroot hr.symm
    · rw [update_of_ne hr]; exact h.root_alive
  · obtain ⟨halive, hborn⟩ := h.parent c p hp
    refine ⟨?_, hborn⟩
    show update f.life a x p = .alive
    by_cases hpa : p = a
    · rw [hpa, update_self]
      exact hpar.resolve_left fun hno => hno c (hpa ▸ hp)
    · rw [update_of_ne hpa]; exact halive
  · by_cases hca : c = a
    · rcases hchild with hr | hn | hnew
      · exact absurd (hca.trans hr) hc
      · exact hca ▸ hn
      · have hl : update f.life a x c = .alive ∨ update f.life a x c = .zombie := hl
        rw [hca, update_self, hnew] at hl
        exact hl.elim nofun nofun
    · have hl : update f.life a x c = .alive ∨ update f.life a x c = .zombie := hl
      rw [update_of_ne hca] at hl
      exact h.child c hc hl
  · exact h.unused c (not_not.mp fun hne => (hiff c).mpr hne hc)

/-- A slot is emptied: nobody has it as parent, and it has none. -/
theorem Inv.empty {a : α} (hroot : a ≠ root) (hlife : f.life a ≠ .alive) :
    ((f.setLife a .unused).setParent a none).Inv root := by
  have hiff : ∀ c, ((f.setLife a .unused).setParent a none).life c ≠ .unused →
      f.life c ≠ .unused ∧ c ≠ a := by
    intro c hc
    have hc : update f.life a .unused c ≠ .unused := hc
    by_cases hca : c = a
    · rw [hca, update_self] at hc
      exact absurd rfl hc
    · rw [update_of_ne hca] at hc
      exact ⟨hc, hca⟩
  have hparent : ∀ c p, ((f.setLife a .unused).setParent a none).parent c = some p →
      f.parent c = some p := by
    intro c p hp
    have hp : update f.parent a none c = some p := hp
    by_cases hca : c = a
    · rw [hca, update_self] at hp
      cases hp
    · rw [update_of_ne hca] at hp
      exact hp
  have hlife' : ∀ c, c ≠ a → ((f.setLife a .unused).setParent a none).life c = f.life c :=
    fun c hc => update_of_ne hc ..
  have hparent' : ∀ c, c ≠ a → ((f.setLife a .unused).setParent a none).parent c = f.parent c :=
    fun c hc => update_of_ne hc ..
  refine ⟨?_, ?_, fun c hc => h.root_first c (hiff c hc).1, fun c p hp => ?_, fun c hc hl => ?_,
    fun c hc => ?_, fun c hc => h.born_lt c (hiff c hc).1,
    fun c c' hc hc' => h.born_inj c c' (hiff c hc).1 (hiff c' hc').1, h.reaped.1,
    fun n hn => ⟨(h.reaped.2 n hn).1, fun c hc => (h.reaped.2 n hn).2 c (hiff c hc).1⟩⟩
  · rw [hlife' root hroot.symm]; exact h.root_alive
  · rw [hparent' root hroot.symm]; exact h.root_parent
  · obtain ⟨halive, hborn⟩ := h.parent c p (hparent c p hp)
    rw [hlife' p fun he => hlife (he ▸ halive)]
    exact ⟨halive, hborn⟩
  · have hca : c ≠ a := by
      rintro rfl
      have hc' : ((f.setLife c .unused).setParent c none).life c = .unused :=
        update_self ..
      rw [hc'] at hl
      exact hl.elim nofun nofun
    rw [hlife' c hca] at hl
    rw [hparent' c hca]
    exact h.child c hc hl
  · by_cases hca : c = a
    · rw [hca]; exact update_self ..
    · rw [hlife' c hca] at hc
      rw [hparent' c hca]
      exact h.unused c hc

/-- A parent link is set, to one who is alive and older. -/
theorem Inv.setParent {a p : α} (hroot : a ≠ root) (hused : f.life a ≠ .unused)
    (halive : f.life p = .alive) (hborn : f.born p < f.born a) : (f.setParent a (some p)).Inv root := by
  have hparent' : ∀ c, c ≠ a → (f.setParent a (some p)).parent c = f.parent c :=
    fun c hc => update_of_ne hc ..
  have hat : (f.setParent a (some p)).parent a = some p := update_self ..
  refine ⟨h.root_alive, ?_, h.root_first, fun c q hq => ?_, fun c hc hl => ?_, fun c hc => ?_,
    h.born_lt, h.born_inj, h.reaped⟩
  · rw [hparent' root hroot.symm]; exact h.root_parent
  · by_cases hca : c = a
    · rw [hca, hat] at hq
      cases hq
      exact ⟨halive, hca ▸ hborn⟩
    · rw [hparent' c hca] at hq
      exact h.parent c q hq
  · by_cases hca : c = a
    · rw [hca, hat]; exact nofun
    · rw [hparent' c hca]; exact h.child c hc hl
  · by_cases hca : c = a
    · exact absurd hc (hca ▸ hused)
    · rw [hparent' c hca]; exact h.unused c hc

theorem Inv.birth {a : α} (ha : f.life a = .unused) : ((f.setLife a .new).numbered a).Inv root := by
  have hroot : a ≠ root := by
    rintro rfl
    exact nomatch ha.symm.trans h.root_alive
  have hnone := h.unused a ha
  have hlife : ∀ c, c ≠ a → ((f.setLife a .new).numbered a).life c = f.life c :=
    fun c hc => update_of_ne hc ..
  have hborn : ∀ c, c ≠ a → ((f.setLife a .new).numbered a).born c = f.born c :=
    fun c hc => update_of_ne hc ..
  have hnew : ((f.setLife a .new).numbered a).life a = .new := update_self ..
  have hnum : ((f.setLife a .new).numbered a).born a = f.births := update_self ..
  have hnotParent : ∀ c p, f.parent c = some p → c ≠ a ∧ p ≠ a := by
    intro c p hp
    refine ⟨fun hc => ?_, fun hpa => ?_⟩
    · rw [hc, hnone] at hp
      cases hp
    · have halive := (h.parent c p hp).1
      rw [hpa, ha] at halive
      cases halive
  refine ⟨?_, h.root_parent, fun c hc hcr => ?_, fun c p hp => ?_, fun c hc hl => ?_,
    fun c hc => ?_, fun c hc => ?_, fun c c' hc hc' he => ?_, h.reaped.1, fun n hn => ?_⟩
  · rw [hlife root hroot.symm]; exact h.root_alive
  · rw [hborn root hroot.symm]
    by_cases hca : c = a
    · rw [hca, hnum]
      exact h.born_lt root (by rw [h.root_alive]; exact nofun)
    · rw [hlife c hca] at hc
      rw [hborn c hca]
      exact h.root_first c hc hcr
  · obtain ⟨hc, hpa⟩ := hnotParent c p hp
    rw [hlife p hpa, hborn p hpa, hborn c hc]
    exact h.parent c p hp
  · by_cases hca : c = a
    · rw [hca, hnew] at hl
      exact hl.elim nofun nofun
    · rw [hlife c hca] at hl
      exact h.child c hc hl
  · by_cases hca : c = a
    · rw [hca]; exact hnone
    · rw [hlife c hca] at hc
      exact h.unused c hc
  · by_cases hca : c = a
    · rw [hca, hnum]; exact Nat.lt_succ_self _
    · rw [hlife c hca] at hc
      rw [hborn c hca]
      exact Nat.lt_succ_of_lt (h.born_lt c hc)
  · -- the number is new
    by_cases hca : c = a <;> by_cases hca' : c' = a
    · rw [hca, hca']
    · rw [hlife c' hca'] at hc'
      rw [hca, hnum, hborn c' hca'] at he
      exact absurd he (Nat.ne_of_gt (h.born_lt c' hc'))
    · rw [hlife c hca] at hc
      rw [hca', hnum, hborn c hca] at he
      exact absurd he (Nat.ne_of_lt (h.born_lt c hc))
    · rw [hlife c hca] at hc
      rw [hlife c' hca'] at hc'
      rw [hborn c hca, hborn c' hca'] at he
      exact h.born_inj c c' hc hc' he
  · obtain ⟨hlt, hne⟩ := h.reaped.2 n hn
    refine ⟨Nat.lt_succ_of_lt hlt, fun c hc => ?_⟩
    by_cases hca : c = a
    · rw [hca, hnum]; exact Nat.ne_of_gt hlt
    · rw [hlife c hca] at hc
      rw [hborn c hca]
      exact hne c hc

/-- **Each step keeps the invariant.** -/
theorem Inv.step (hst : Step root f f') : f'.Inv root := by
  cases hst with
  | birth a ha => exact h.birth ha
  | drop a ha hp =>
    have hroot : a ≠ root := by
      rintro rfl
      exact nomatch ha.symm.trans h.root_alive
    have hset := h.empty hroot (by rw [ha]; exact nofun)
    have hself : (f.setLife a .unused).setParent a none = f.setLife a .unused := by
      rw [← hp]
      exact congrArg (fun g => { f.setLife a .unused with parent := g })
        (update_eq_self a f.parent)
    rw [hself] at hset
    exact hset
  | adopt a p ha hp hborn =>
    have hroot : a ≠ root := by
      rintro rfl
      exact nomatch ha.symm.trans h.root_alive
    exact h.setParent hroot (by rw [ha]; exact nofun) hp hborn
  | start a p ha hp =>
    exact h.setLife (by rw [ha]; exact nofun) (fun _ => rfl) nofun (.inr rfl)
      (.inr (.inl (by rw [hp]; exact nofun)))
  | toRoot a p hp =>
    have hroot : a ≠ root := by
      rintro rfl
      exact nomatch h.root_parent.symm.trans hp
    have hused : f.life a ≠ .unused := by
      intro hu
      exact nomatch (h.unused a hu).symm.trans hp
    exact h.setParent hroot hused h.root_alive (h.root_first a hused hroot)
  | die a hroot ha hno =>
    exact h.setLife (by rw [ha]; exact nofun) (fun he => absurd he hroot) nofun (.inl hno)
      (.inr (.inl (h.child a hroot (.inl ha))))
  | reap a ha =>
    have hroot : a ≠ root := by
      rintro rfl
      exact nomatch ha.symm.trans h.root_alive
    have hused : f.life a ≠ .unused := by rw [ha]; exact nofun
    have hset := h.empty hroot (by rw [ha]; exact nofun)
    refine ⟨hset.root_alive, hset.root_parent, hset.root_first, hset.parent, hset.child,
      hset.unused, hset.born_lt, hset.born_inj, ?_, fun n hn => ?_⟩
    · exact List.nodup_cons.mpr ⟨fun hm => (h.reaped.2 _ hm).2 a hused rfl, h.reaped.1⟩
    rcases List.mem_cons.mp hn with rfl | hn
    · refine ⟨h.born_lt a hused, fun c hc he => ?_⟩
      have hc' : update f.life a .unused c ≠ .unused := hc
      by_cases hca : c = a
      · rw [hca, update_self] at hc'
        exact hc' rfl
      · rw [update_of_ne hca] at hc'
        exact hca (h.born_inj c a hc' hused he)
    · exact hset.reaped.2 n hn

/-- The `n`-th ancestor. -/
def climb (f : Lineage α) : Nat → α → Option α
  | 0, a => some a
  | n + 1, a => (f.parent a).bind (f.climb n)

/-- **Following parents leads to the root.** -/
theorem Inv.climb (a : α) (ha : f.life a = .alive ∨ f.life a = .zombie) :
    ∃ n, f.climb n a = some root := by
  -- parents are older, so induct on the number
  induction hn : f.born a using Nat.strongRecOn generalizing a with
  | ind k ih =>
    by_cases hroot : a = root
    · exact ⟨0, by rw [hroot]; rfl⟩
    cases hp : f.parent a with
    | none => exact absurd hp (h.child a hroot ha)
    | some p =>
      obtain ⟨halive, hlt⟩ := h.parent a p hp
      obtain ⟨n, hclimb⟩ := ih (f.born p) (hn ▸ hlt) p (.inl halive) rfl
      refine ⟨n + 1, ?_⟩
      unfold Lineage.climb
      rw [hp]
      exact hclimb

omit h

end Lineage

end Xv6.Lib
