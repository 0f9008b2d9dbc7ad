/-
  Xv6.Lib.Locks — the spin locks that one processor holds.

  A processor may not take a lock that it holds, nor give back one that it
  does not hold; `panic` says what becomes of it then.  `noff` counts the nested sections without interrupts, one
  for each lock.  `Holds c S` says that `c` holds exactly the locks in `S`.

  `pick` is a scan that looks at every element under its lock and keeps the
  lock of the best one so far, giving back the lock of the one it replaces.

  Main results:
    * `acquire_spec`, `release_spec` — one lock,
    * `pick_spec` — the scan ends with the first minimum of the elements that
      qualify, and holds its lock only.
-/
import Mathlib.Data.Finset.Card
import Mathlib.Data.Finset.Option
import Mathlib.Data.List.MinMax

namespace Xv6.Lib

open Function (update update_of_ne update_self)

variable {ι ε : Type} [DecidableEq ι]

/-- Why the use of a lock stops the processor. -/
inductive LockPanic where
  /-- the lock is held already -/
  | acquire
  /-- the lock is not held -/
  | release
  /-- there is no section to leave -/
  | pop_off
  deriving DecidableEq, Repr

/-- The locks that a CPU holds, and its nesting depth. -/
structure Locks (ι : Type) where
  held : ι → Bool
  noff : Nat

namespace Locks

section

variable (panic : LockPanic → ε)

/-- `acquire` -/
def acquire (c : Locks ι) (i : ι) : Except ε (Locks ι) :=
  if c.held i then .error (panic .acquire) else .ok ⟨update c.held i true, c.noff + 1⟩

/-- `release` -/
def release (c : Locks ι) (i : ι) : Except ε (Locks ι) :=
  if c.held i = false then .error (panic .release)
  else if c.noff < 1 then .error (panic .pop_off)
  else .ok ⟨update c.held i false, c.noff - 1⟩

end

/-- Exactly the locks in `S` are held. -/
structure Holds (c : Locks ι) (S : Finset ι) : Prop where
  held : ∀ i, c.held i = true ↔ i ∈ S
  noff : c.noff = S.card

variable (panic : LockPanic → ε) {c : Locks ι} {S : Finset ι} {i : ι}

/-- A lock that is not held can be taken. -/
theorem acquire_spec (h : c.Holds S) (hi : i ∉ S) : ∃ c', acquire panic c i = .ok c' ∧ c'.Holds (insert i S) := by
  have hfree : ¬ c.held i = true := fun hheld => hi ((h.held i).mp hheld)
  refine ⟨_, if_neg hfree, fun j => ?_, ?_⟩
  · show update c.held i true j = true ↔ _
    rw [Finset.mem_insert]
    by_cases hj : j = i
    · rw [hj, update_self]
      exact ⟨fun _ => .inl rfl, fun _ => rfl⟩
    · rw [update_of_ne hj, h.held]
      exact ⟨.inr, fun hor => hor.resolve_left hj⟩
  · show c.noff + 1 = _
    rw [Finset.card_insert_of_notMem hi, h.noff]

/-- A lock that is held can be given back. -/
theorem release_spec (h : c.Holds S) (hi : i ∈ S) : ∃ c', release panic c i = .ok c' ∧ c'.Holds (S.erase i) := by
  have hheld : ¬ c.held i = false := by
    rw [(h.held i).mpr hi]
    exact Bool.noConfusion
  have hpos := Finset.card_pos.mpr ⟨i, hi⟩
  have hnoff : ¬ c.noff < 1 := by
    rw [h.noff]
    omega
  refine ⟨⟨update c.held i false, c.noff - 1⟩, ?_, fun j => ?_, ?_⟩
  · rw [release, if_neg hheld, if_neg hnoff]
  · show update c.held i false j = true ↔ _
    rw [Finset.mem_erase]
    by_cases hj : j = i
    · rw [hj, update_self]
      exact ⟨fun hf => (nomatch hf), fun hand => absurd rfl hand.1⟩
    · rw [update_of_ne hj, h.held]
      exact ⟨fun hin => ⟨hj, hin⟩, fun hand => hand.2⟩
  · show c.noff - 1 = _
    rw [Finset.card_erase_of_mem hi, h.noff]

/-- Taking the locks of a list, one after the other. -/
theorem acquire_all {β : Type} (g : β → ι → β) (l : List ι) : ∀ {c : Locks ι} {S : Finset ι} (x : β), c.Holds S →
    l.Nodup → (∀ i ∈ l, i ∉ S) →
    ∃ c', l.foldlM (fun (x : Locks ι × β) i => acquire panic x.1 i >>= fun c => .ok (c, g x.2 i)) (c, x)
        = .ok (c', l.foldl g x) ∧ c'.Holds (S ∪ l.toFinset) := by
  induction l with
  | nil =>
    intro c S x h _ _
    rw [List.toFinset_nil, Finset.union_empty]
    exact ⟨c, rfl, h⟩
  | cons i l ih =>
    intro c S x h hnd hdisj
    obtain ⟨hil, hnd⟩ := List.nodup_cons.mp hnd
    obtain ⟨c₁, hacq, h₁⟩ := acquire_spec panic h (hdisj i (List.mem_cons_self ..))
    have hdisj₁ : ∀ j ∈ l, j ∉ insert i S := by
      intro j hj hin
      rcases Finset.mem_insert.mp hin with rfl | hS
      · exact hil hj
      · exact hdisj j (List.mem_cons_of_mem i hj) hS
    obtain ⟨c', hrun, h'⟩ := ih (g x i) h₁ hnd hdisj₁
    refine ⟨c', ?_, ?_⟩
    · rw [List.foldlM_cons, hacq]
      exact hrun
    · rw [List.toFinset_cons, Finset.union_insert, ← Finset.insert_union]
      exact h'

/-- Giving them back. -/
theorem release_all (l : List ι) : ∀ {c : Locks ι} {S : Finset ι}, c.Holds S → l.Nodup → (∀ i ∈ l, i ∈ S) →
    ∃ c', l.foldlM (release panic) c = .ok c' ∧ c'.Holds (S \ l.toFinset) := by
  induction l with
  | nil =>
    intro c S h _ _
    rw [List.toFinset_nil, Finset.sdiff_empty]
    exact ⟨c, rfl, h⟩
  | cons i l ih =>
    intro c S h hnd hsub
    obtain ⟨hil, hnd⟩ := List.nodup_cons.mp hnd
    obtain ⟨c₁, hrel, h₁⟩ := release_spec panic h (hsub i (List.mem_cons_self ..))
    have hsub₁ : ∀ j ∈ l, j ∈ S.erase i := by
      intro j hj
      refine Finset.mem_erase.mpr ⟨?_, hsub j (List.mem_cons_of_mem i hj)⟩
      rintro rfl
      exact hil hj
    obtain ⟨c', hrun, h'⟩ := ih h₁ hnd hsub₁
    refine ⟨c', ?_, ?_⟩
    · rw [List.foldlM_cons, hrel]
      exact hrun
    · rw [List.toFinset_cons, Finset.sdiff_insert, ← Finset.erase_sdiff_comm]
      exact h'

/-! ## A scan that keeps the lock of the best element. -/

section Pick

variable (panic : LockPanic → ε) (ok : ι → Bool) (better : ι → ι → Bool)

/-- `i`, whose lock is held, is taken if it qualifies and there is none yet, or it is better. -/
def challenge (c : Locks ι) (best : Option ι) (i : ι) : Except ε (Locks ι × Option ι) :=
  if ok i then
    match best with
    | none => .ok (c, some i)
    | some b =>
      if better i b then do
        let c ← release panic c b
        .ok (c, some i)
      else .ok (c, some b)
  else .ok (c, best)

/-- The lock of `i` is given back unless `i` is the best. -/
def settle (x : Locks ι × Option ι) (i : ι) : Except ε (Locks ι × Option ι) :=
  if x.2 ≠ some i then do
    let c ← release panic x.1 i
    .ok (c, x.2)
  else .ok x

/-- One turn of the scan. -/
def pickTurn (x : Locks ι × Option ι) (i : ι) : Except ε (Locks ι × Option ι) := do
  let c ← acquire panic x.1 i
  let y ← challenge panic ok better c x.2 i
  settle panic y i

/-- A scan that keeps the lock of the best so far. -/
def pick (l : List ι) (c : Locks ι) : Except ε (Locks ι × Option ι) := l.foldlM (pickTurn panic ok better) (c, none)

end Pick

section PickSpec

variable {ok : ι → Bool} {β : Type} [LinearOrder β] {f : ι → β}

/-- **One turn** keeps the lock of the best element only. -/
theorem pickTurn_spec {b : Option ι} (h : c.Holds b.toFinset) (hi : i ∉ b.toFinset) :
    ∃ c', pickTurn panic ok (fun i j => decide (f i < f j)) (c, b) i
        = .ok (c', if ok i then List.argAux (fun a b => f a < f b) b i else b)
      ∧ c'.Holds (if ok i then List.argAux (fun a b => f a < f b) b i else b).toFinset := by
  obtain ⟨c₁, hacq, h₁⟩ := acquire_spec panic h hi
  have hne : b ≠ some i := by
    rintro rfl
    exact hi (by simp)
  have hback : ∃ c', release panic c₁ i = .ok c' ∧ c'.Holds b.toFinset := by
    obtain ⟨c', hrel, h'⟩ := release_spec panic h₁ (Finset.mem_insert_self i _)
    rw [Finset.erase_insert hi] at h'
    exact ⟨c', hrel, h'⟩
  obtain ⟨c', hrel, h'⟩ := hback
  have hturn : pickTurn panic ok (fun i j => decide (f i < f j)) (c, b) i
      = challenge panic ok (fun i j => decide (f i < f j)) c₁ b i >>= fun y => settle panic y i := by
    unfold pickTurn
    rw [hacq]
    rfl
  -- the lock of `i` goes back
  have hkeep : settle panic (c₁, b) i = .ok (c', b) := by
    unfold settle
    rw [if_pos hne, hrel]
    rfl
  rw [hturn]
  unfold challenge
  cases hok : ok i with
  | false => exact ⟨c', hkeep, h'⟩
  | true =>
    cases b with
    | none => exact ⟨c₁, if_neg (fun hno => hno rfl), h₁⟩
    | some b =>
      have hib : i ≠ b := fun heq => hne (by rw [heq])
      simp only [if_true, List.argAux]
      by_cases hlt : f i < f b
      · -- the lock of the one replaced is given back
        obtain ⟨c₂, hrel₂, h₂⟩ := release_spec panic h₁ (Finset.mem_insert_of_mem (by simp : b ∈ (some b).toFinset))
        have hset : (insert i (some b).toFinset).erase b = (some i).toFinset := by
          ext j
          simp only [Finset.mem_erase, Finset.mem_insert, Option.mem_toFinset, Option.mem_def, Option.some.injEq]
          constructor
          · rintro ⟨hjb, hji | hjb'⟩
            · exact hji.symm
            · exact absurd hjb'.symm hjb
          · intro hij
            rw [← hij]
            exact ⟨hib, .inl rfl⟩
        rw [hset] at h₂
        rw [if_pos hlt, if_pos (decide_eq_true hlt), hrel₂]
        exact ⟨c₂, if_neg (fun hno => hno rfl), h₂⟩
      · rw [if_neg hlt, if_neg (by simpa using hlt)]
        exact ⟨c', hkeep, h'⟩

/-- Only elements that qualify are taken. -/
theorem pickTurn_ok {better : ι → ι → Bool} {b b' : Option ι} {c' : Locks ι} (hb : ∀ j ∈ b, ok j = true)
    (hrun : pickTurn panic ok better (c, b) i = .ok (c', b')) : ∀ j ∈ b', ok j = true := by
  unfold pickTurn at hrun
  cases hacq : acquire panic c i with
  | error e =>
    rw [hacq] at hrun
    cases hrun
  | ok c₁ =>
    rw [hacq] at hrun
    change (challenge panic ok better c₁ b i >>= fun y => settle panic y i) = _ at hrun
    cases hch : challenge panic ok better c₁ b i with
    | error e =>
      rw [hch] at hrun
      cases hrun
    | ok y =>
      rw [hch] at hrun
      have hy : y.2 = b' := by
        change settle panic y i = _ at hrun
        unfold settle at hrun
        split at hrun
        · cases hrel : release panic y.1 i with
          | error e =>
            rw [hrel] at hrun
            cases hrun
          | ok c₂ =>
            rw [hrel] at hrun
            exact congrArg Prod.snd (Except.ok.inj hrun)
        · exact congrArg Prod.snd (Except.ok.inj hrun)
      subst hy
      unfold challenge at hch
      split at hch
      · rename_i hi
        have hone : ∀ j ∈ some i, ok j = true := by
          intro j hj
          rw [← Option.some.inj hj]
          exact hi
        split at hch
        · rw [← congrArg Prod.snd (Except.ok.inj hch)]
          exact hone
        split at hch
        · cases hrel : release panic c₁ _ with
          | error e =>
            rw [hrel] at hch
            cases hch
          | ok c₂ =>
            rw [hrel] at hch
            rw [← congrArg Prod.snd (Except.ok.inj hch)]
            exact hone
        · rw [← congrArg Prod.snd (Except.ok.inj hch)]
          exact hb
      · rw [← congrArg Prod.snd (Except.ok.inj hch)]
        exact hb

/-- **The scan** finds the first minimum and holds its lock only. -/
theorem pick_spec {l : List ι} (hnd : l.Nodup) (h : c.Holds ∅) :
    ∃ c', pick panic ok (fun i j => decide (f i < f j)) l c = .ok (c', (l.filter ok).argmin f)
      ∧ c'.Holds ((l.filter ok).argmin f).toFinset := by
  -- by induction on the elements already seen
  have hrun : ∀ (l : List ι) (b : Option ι) (c : Locks ι), l.Nodup → (∀ j ∈ b, j ∉ l) → c.Holds b.toFinset →
      ∃ c', l.foldlM (pickTurn panic ok fun i j => decide (f i < f j)) (c, b)
          = .ok (c', (l.filter ok).foldl (List.argAux fun a b => f a < f b) b)
        ∧ c'.Holds ((l.filter ok).foldl (List.argAux fun a b => f a < f b) b).toFinset := by
    intro l
    induction l with
    | nil =>
      intro b c _ _ h
      exact ⟨c, rfl, h⟩
    | cons i l ih =>
      intro b c hnd hb h
      obtain ⟨hil, hnd⟩ := List.nodup_cons.mp hnd
      have hi : i ∉ b.toFinset := by
        rw [Option.mem_toFinset]
        exact fun hmem => hb i hmem (List.mem_cons_self ..)
      obtain ⟨c₁, hturn, h₁⟩ : ∃ c₁, pickTurn panic ok (fun i j => decide (f i < f j)) (c, b) i = .ok (c₁, _) ∧ _ :=
        pickTurn_spec panic h hi
      have hb₁ : ∀ j ∈ (if ok i then List.argAux (fun a b => f a < f b) b i else b), j ∉ l := by
        intro j hj
        by_cases hji : j = i
        · rw [hji]
          exact hil
        refine fun hjl => hb j ?_ (List.mem_cons_of_mem i hjl)
        split at hj
        · cases b with
          | none =>
            simp only [List.argAux, Option.mem_def, Option.some.injEq] at hj
            exact absurd hj.symm hji
          | some b =>
            simp only [List.argAux] at hj
            split at hj
            · simp only [Option.mem_def, Option.some.injEq] at hj
              exact absurd hj.symm hji
            · exact hj
        · exact hj
      obtain ⟨c', hrest, h'⟩ := ih _ c₁ hnd hb₁ h₁
      have hfold : ((i :: l).filter ok).foldl (List.argAux fun a b => f a < f b) b
          = (l.filter ok).foldl (List.argAux fun a b => f a < f b)
            (if ok i then List.argAux (fun a b => f a < f b) b i else b) := by
        cases hok : ok i with
        | false => rw [List.filter_cons_of_neg (by simp [hok])]; rfl
        | true => rw [List.filter_cons_of_pos hok]; rfl
      rw [hfold]
      refine ⟨c', ?_, h'⟩
      rw [List.foldlM_cons, hturn]
      exact hrest
  obtain ⟨c', hfold, h'⟩ := hrun l none c hnd (fun _ hj => (nomatch hj)) h
  exact ⟨c', hfold, h'⟩

end PickSpec

end Locks

end Xv6.Lib
