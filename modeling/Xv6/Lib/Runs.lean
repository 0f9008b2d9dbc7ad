/-
  Xv6.Lib.Runs — runs of a fallible, labelled transition system.

  A system is a partial step function `step : σ → ι → Except ε σ`: a label
  `ι` names what is done, `Except.error` is a run that stops (a panic, a
  fault), `Except.ok` is the next state.  A run is a list of labels; `Reach`
  is the set of states that runs visit when every step also satisfies a
  condition `ok` on the state it starts from.

  Main results:
    * `Reach.invariant`  — what holds at the start and survives every
      allowed step holds in every state reached,
    * `foldlM_invariant` — the same for an invariant of the labels so far,
    * `Reach.of_run`     — an executed list of labels is a run,
    * `Reach.of_reaches` — the same with a test of the last state.
-/
import Mathlib.Data.List.Induction

namespace Xv6.Lib

variable {σ ι ε α : Type} {x : Except ε α}

/-- A computation that succeeds has succeeded in its first part. -/
theorem bind_ok {β : Type} {f : α → Except ε β} {r : β} (h : (x >>= f) = .ok r) : ∃ a, x = .ok a ∧ f a = .ok r := by
  cases x with
  | error e => cases h
  | ok a => exact ⟨a, rfl, h⟩

/-- A guarded step that succeeds had its guard. -/
theorem guard_ok {c : Prop} [Decidable c] {a b : α} {e : ε}
    (h : (if c then .ok a else .error e : Except ε α) = .ok b) : c ∧ a = b := by
  split at h
  · exact ⟨‹c›, Except.ok.inj h⟩
  · cases h

/-- A computation goes on with the result of its first part. -/
theorem bind_of_ok {β : Type} {f : α → Except ε β} {a : α} (h : x = .ok a) : (x >>= f) = f a := by
  rw [h]
  rfl

/-- The states visited by runs from `init` all of whose steps satisfy `ok`. -/
inductive Reach (init : σ → Prop) (ok : σ → ι → Prop) (step : σ → ι → Except ε σ) :
    σ → Prop
  | start {s : σ} : init s → Reach init ok step s
  | next {s s' : σ} {i : ι} :
      Reach init ok step s → ok s i → step s i = .ok s' → Reach init ok step s'

variable {init : σ → Prop} {ok : σ → ι → Prop} {step : σ → ι → Except ε σ}

/-- **The invariant rule.** -/
theorem Reach.invariant {I : σ → Prop} (h0 : ∀ s, init s → I s)
    (hstep : ∀ s i s', I s → ok s i → step s i = .ok s' → I s') {s : σ} (h : Reach init ok step s) : I s := by
  induction h with
  | start hs => exact h0 _ hs
  | next _ hok hst ih => exact hstep _ _ _ ih hok hst

/-- **The invariant rule for histories**: what holds of the empty list of labels at `s₀` and survives every step holds of
every list executed from `s₀`. -/
theorem foldlM_invariant {I : List ι → σ → Prop} {s₀ : σ} (h0 : I [] s₀)
    (hstep : ∀ is s i s', I is s → step s i = .ok s' → I (is ++ [i]) s') (is : List ι) :
    ∀ {s : σ}, is.foldlM step s₀ = .ok s → I is s := by
  induction is using List.reverseRecOn with
  | nil =>
    intro s h
    cases h
    exact h0
  | append_singleton is i ih =>
    intro s h
    rw [List.foldlM_append] at h
    obtain ⟨s₁, hinit, hlast⟩ := bind_ok h
    obtain ⟨s₂, hi, hnil⟩ := bind_ok hlast
    obtain rfl := Except.ok.inj hnil
    exact hstep is s₁ i s₂ (ih hinit) hi

section Execution

variable [∀ s i, Decidable (ok s i)]

/-- Execute a list of labels from the left, checking the condition at each step. -/
def runList (ok : σ → ι → Prop) [∀ s i, Decidable (ok s i)] (step : σ → ι → Except ε σ) :
    σ → List ι → Option σ
  | s, [] => some s
  | s, i :: is =>
    if ok s i then
      match step s i with
      | .ok s' => runList ok step s' is
      | .error _ => none
    else none

theorem Reach.of_run (is : List ι) : ∀ {s s' : σ}, Reach init ok step s →
    runList ok step s is = some s' → Reach init ok step s' := by
  induction is with
  | nil =>
    intro s s' hs h
    cases h
    exact hs
  | cons i is ih =>
    intro s s' hs h
    unfold runList at h
    split at h
    · next hok =>
      cases hst : step s i with
      | error e => rw [hst] at h; cases h
      | ok t => rw [hst] at h; exact ih (.next hs hok hst) h
    · cases h

/-- The run succeeds and its last state passes a test. -/
def reaches (ok : σ → ι → Prop) [∀ s i, Decidable (ok s i)] (step : σ → ι → Except ε σ) (s : σ)
    (is : List ι) (test : σ → Bool) : Bool :=
  (runList ok step s is).any test

/-- **An executed run** reaches a state that passes its test. -/
theorem Reach.of_reaches {s : σ} (is : List ι) (test : σ → Bool) (hs : init s)
    (h : reaches ok step s is test = true) : ∃ s', Reach init ok step s' ∧ test s' = true := by
  unfold reaches at h
  cases hrun : runList ok step s is with
  | none => rw [hrun] at h; cases h
  | some s' =>
    rw [hrun] at h
    exact ⟨s', Reach.of_run is (.start hs) hrun, h⟩

end Execution

end Xv6.Lib
