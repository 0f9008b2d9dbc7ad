/-
  Xv6.Lib.Radix — radix trees in a heap.

  A heap `h : α → ι → ω` gives every node a row of words.  A word may point to
  another node (`ptr`).  From a root, a path of indices leads to a node, or
  nowhere.  The nodes at most `d` steps from the root form a TREE if no node
  is reached on two paths; the words of the nodes at depth `d` are the values
  of the tree.

  Two operations keep a tree a tree:
    * `node_store`, `read_store`     — writing a word of a node at depth `d`
      moves no node and changes one value,
    * `node_install`, `read_install` — pointing an empty word above that depth
      to a new, cleared node adds a path and changes no value.
-/
import Mathlib.Data.List.Induction
import Mathlib.Logic.Function.Basic

namespace Xv6.Lib.Radix

open Function (update update_of_ne update_self)

variable {α ι ω β : Type}

/-- The node at the end of a path. -/
def node (ptr : ω → Option α) (h : α → ι → ω) (root : α) (p : List ι) : Option α :=
  p.foldlM (fun a i => ptr (h a i)) root

/-- Go down a path, one step with a state after the other. -/
def descend {σ : Type} (f : σ → α → ι → σ × Option α) : List ι → σ → α → σ × Option α
  | [], s, a => (s, some a)
  | i :: is, s, a =>
    match f s a i with
    | (s, none) => (s, none)
    | (s, some b) => descend f is s b

/-- No node at most `d` steps away is reached on two paths. -/
def Tree (ptr : ω → Option α) (h : α → ι → ω) (root : α) (d : Nat) : Prop :=
  ∀ p q a, p.length ≤ d → q.length ≤ d → node ptr h root p = some a → node ptr h root q = some a → p = q

variable {ptr : ω → Option α} {h h' : α → ι → ω} {root a b : α} {d : Nat} {p q : List ι} {i : ι} {w : ω}

theorem node_nil : node ptr h root [] = some root := rfl

/-- The first step of a path. -/
theorem node_cons (i : ι) (p : List ι) : node ptr h a (i :: p) = (ptr (h a i)).bind fun b => node ptr h b p :=
  List.foldlM_cons ..

/-- Going down without effects. -/
theorem descend_pure {σ : Type} {f : σ → α → ι → σ × Option α} {s : σ} (hf : ∀ a i, f s a i = (s, ptr (h a i)))
    (p : List ι) : ∀ a, descend f p s a = (s, node ptr h a p) := by
  induction p with
  | nil => exact fun _ => rfl
  | cons i p ih =>
    intro a
    rw [descend, hf, node_cons]
    cases ptr (h a i) with
    | none => rfl
    | some b => exact ih b

/-- **Going down with effects**: a relation that every step establishes, together with the place reached, holds between
the first state and the last. -/
theorem descend_rel {σ : Type} {f : σ → α → ι → σ × Option α} {R : σ → σ → Prop} {P : σ → List ι → α → Prop} {d : Nat}
    (htrans : ∀ s t u, R s t → R t u → R s u)
    (hstep : ∀ s p a i s' r, R s s → P s p a → p.length < d → f s a i = (s', r) →
      R s s' ∧ R s' s' ∧ ∀ b, r = some b → P s' (p ++ [i]) b) (is : List ι) :
    ∀ s p a s' r, R s s → P s p a → p.length + is.length ≤ d → descend f is s a = (s', r) →
      R s s' ∧ ∀ b, r = some b → P s' (p ++ is) b := by
  induction is with
  | nil =>
    intro s p a s' r hs hp _ hrun
    cases hrun
    refine ⟨hs, fun b hb => ?_⟩
    cases hb
    rw [List.append_nil]
    exact hp
  | cons i is ih =>
    intro s p a s' r hs hp hlen hrun
    rw [List.length_cons] at hlen
    rw [descend] at hrun
    match hw : f s a i with
    | (t, none) =>
      rw [hw] at hrun
      obtain ⟨rfl, rfl⟩ := Prod.mk.inj hrun
      exact ⟨(hstep s p a i t none hs hp (by omega) hw).1, fun b hb => nomatch hb⟩
    | (t, some c) =>
      rw [hw] at hrun
      obtain ⟨hst, htt, hat⟩ := hstep s p a i t (some c) hs hp (by omega) hw
      have hlen' : (p ++ [i]).length + is.length ≤ d := by
        rw [List.length_append, List.length_singleton]
        omega
      obtain ⟨hrel, hend⟩ := ih t (p ++ [i]) c s' r htt (hat c rfl) hlen' hrun
      rw [List.append_assoc] at hend
      exact ⟨htrans s t s' hst hrel, hend⟩

/-- The last step of a path. -/
theorem node_snoc (p : List ι) (i : ι) : node ptr h root (p ++ [i]) = (node ptr h root p).bind fun a => ptr (h a i) := by
  unfold node
  rw [List.foldlM_append]
  cases p.foldlM (fun a i => ptr (h a i)) root with
  | none => rfl
  | some a => exact Option.bind_fun_some _

theorem node_step (hp : node ptr h root p = some a) : node ptr h root (p ++ [i]) = ptr (h a i) := by
  rw [node_snoc, hp]
  rfl

/-- A path depends on the words of the nodes before its end only. -/
theorem node_congr (q : List ι)
    (hsame : ∀ p a i, p.length < q.length → node ptr h root p = some a → ptr (h' a i) = ptr (h a i)) :
    node ptr h' root q = node ptr h root q := by
  induction q using List.reverseRecOn with
  | nil => rfl
  | append_singleton q i ih =>
    have hlen : (q ++ [i]).length = q.length + 1 := by simp
    rw [node_snoc, node_snoc, ih fun p a j hp => hsame p a j (by omega)]
    cases hq : node ptr h root q with
    | none => rfl
    | some a => exact hsame q a i (by omega) hq

/-- The value at the end of a path. -/
def read (ptr : ω → Option α) (val : ω → Option β) (h : α → ι → ω) (root : α) (q : List ι) (j : ι) : Option β :=
  (node ptr h root q).bind fun a => val (h a j)

variable {val : ω → Option β}

/-- Nodes and values depend on the words of the nodes only. -/
theorem read_congr (hsame : ∀ p a i, p.length ≤ d → node ptr h root p = some a → h' a i = h a i) (hq : q.length ≤ d)
    (j : ι) : read ptr val h' root q j = read ptr val h root q j := by
  have hnode : node ptr h' root q = node ptr h root q := by
    apply node_congr
    intro p a i hp hpa
    rw [hsame p a i (by omega) hpa]
  unfold read
  rw [hnode]
  cases hn : node ptr h root q with
  | none => rfl
  | some a => exact congrArg val (hsame q a j hq hn)

theorem Tree.of_node (ht : Tree ptr h root d)
    (hsame : ∀ q, q.length ≤ d → node ptr h' root q = node ptr h root q) : Tree ptr h' root d := by
  intro p q a hp hq hpa hqa
  rw [hsame p hp] at hpa
  rw [hsame q hq] at hqa
  exact ht p q a hp hq hpa hqa

variable [DecidableEq α] [DecidableEq ι]

/-- One word is written. -/
def set (h : α → ι → ω) (a : α) (i : ι) (w : ω) : α → ι → ω :=
  update h a (update (h a) i w)

theorem set_same (h : α → ι → ω) (a : α) (i : ι) (w : ω) : set h a i w a i = w := by
  rw [set, update_self, update_self]

theorem set_ne (h : α → ι → ω) (w : ω) {a b : α} {i j : ι} (hne : b ≠ a ∨ j ≠ i) : set h a i w b j = h b j := by
  unfold set
  by_cases hb : b = a
  · subst hb
    rw [update_self]
    exact update_of_ne (hne.resolve_left fun hc => hc rfl) ..
  · rw [update_of_ne hb]

/-! ## §1. Writing a value. -/

/-- **Writing a word of a node at depth `d`** moves no node. -/
theorem node_store (ht : Tree ptr h root d) (hp : node ptr h root p = some a) (hd : p.length = d) (i : ι) (w : ω)
    (hq : q.length ≤ d) : node ptr (set h a i w) root q = node ptr h root q := by
  apply node_congr
  intro p' a' j hlen hp'
  have hne : a' ≠ a := by
    rintro rfl
    have hpp := ht p' p a' (by omega) (by omega) hp' hp
    rw [hpp] at hlen
    omega
  rw [set_ne h w (.inl hne)]

/-- **It changes one value.** -/
theorem read_store (ht : Tree ptr h root d) (hp : node ptr h root p = some a) (hd : p.length = d) (i : ι) (w : ω)
    (hq : q.length = d) (j : ι) :
    read ptr val (set h a i w) root q j = if q = p ∧ j = i then val w else read ptr val h root q j := by
  unfold read
  rw [node_store ht hp hd i w (Nat.le_of_eq hq)]
  by_cases hqp : q = p
  · subst hqp
    rw [hp]
    show val (set h a i w a j) = if q = q ∧ j = i then val w else val (h a j)
    by_cases hj : j = i
    · rw [hj, set_same, if_pos ⟨rfl, rfl⟩]
    · rw [set_ne h w (.inr hj), if_neg fun hc => hj hc.2]
  rw [if_neg fun hc => hqp hc.1]
  cases hn : node ptr h root q with
  | none => rfl
  | some b =>
    -- another path leads to another node
    have hba : b ≠ a := by
      intro heq
      rw [heq] at hn
      exact hqp (ht q p a (Nat.le_of_eq hq) (Nat.le_of_eq hd) hn hp)
    show val (set h a i w b j) = val (h b j)
    rw [set_ne h w (.inl hba)]

/-! ## §2. Adding a node. -/

/-- The heap with a new, cleared node `b`, which word `i` of `a` points to. -/
def install (h : α → ι → ω) (zero : ω) (a : α) (i : ι) (b : α) (w : ω) : α → ι → ω :=
  set (update h b fun _ => zero) a i w

variable {zero : ω}

/-- **A new node** is reached on its path, and nothing else changes. -/
theorem node_install (hp : node ptr h root p = some a) (hd : p.length < d) (ht : Tree ptr h root d)
    (hempty : ptr (h a i) = none) (hw : ptr w = some b) (hzero : ptr zero = none)
    (hfresh : ∀ q, q.length ≤ d → node ptr h root q ≠ some b) (q : List ι) (hq : q.length ≤ d) :
    node ptr (install h zero a i b w) root q = if q = p ++ [i] then some b else node ptr h root q := by
  have hab : a ≠ b := by
    rintro rfl
    exact hfresh p (by omega) hp
  -- by induction on the path: one step at a time
  induction q using List.reverseRecOn with
  | nil =>
    rw [if_neg (by simp)]
    rfl
  | append_singleton q j ih =>
    have hqlen : (q ++ [j]).length = q.length + 1 := by simp
    rw [node_snoc, ih (by omega)]
    by_cases hqp : q = p ++ [i]
    · -- below the new node there is nothing, and there was nothing before
      have hne : q ++ [j] ≠ p ++ [i] := by
        intro heq
        have := congrArg List.length heq
        rw [hqp] at this
        simp at this
      rw [if_pos hqp, if_neg hne, node_snoc, hqp, node_step hp, hempty]
      show ptr (install h zero a i b w b j) = none
      rw [install, set_ne _ w (.inl hab.symm), update_self]
      exact hzero
    rw [if_neg hqp]
    cases hqn : node ptr h root q with
    | none =>
      have hne : q ++ [j] ≠ p ++ [i] := by
        intro heq
        obtain ⟨rfl, -⟩ := List.append_inj' heq rfl
        rw [hp] at hqn
        cases hqn
      rw [if_neg hne, node_snoc, hqn]
      rfl
    | some c =>
      have hcb : c ≠ b := by
        rintro rfl
        exact hfresh q (by omega) hqn
      show ptr (install h zero a i b w c j) = _
      by_cases hpath : q ++ [j] = p ++ [i]
      · obtain ⟨rfl, hji⟩ := List.append_inj' hpath rfl
        obtain rfl := List.cons.inj hji |>.1
        rw [hp] at hqn
        cases hqn
        rw [if_pos rfl, install, set_same, hw]
      · rw [if_neg hpath, node_step hqn, install, set_ne, update_of_ne hcb]
        by_contra hc
        simp only [not_or, not_not] at hc
        obtain ⟨rfl, rfl⟩ := hc
        exact hpath (by rw [ht q p c (by omega) (by omega) hqn hp])

/-- **The values stay**: those below the new node were nothing and are nothing. -/
theorem read_install (hp : node ptr h root p = some a) (hd : p.length < d) (ht : Tree ptr h root d)
    (hempty : ptr (h a i) = none) (hw : ptr w = some b) (hzero : ptr zero = none) (hval : val zero = none)
    (hfresh : ∀ q, q.length ≤ d → node ptr h root q ≠ some b) (hq : q.length = d) (j : ι) :
    read ptr val (install h zero a i b w) root q j = read ptr val h root q j := by
  have hab : b ≠ a := by
    rintro rfl
    exact hfresh p (by omega) hp
  unfold read
  rw [node_install hp hd ht hempty hw hzero hfresh q (Nat.le_of_eq hq)]
  by_cases hqp : q = p ++ [i]
  · rw [if_pos hqp, hqp, node_step hp, hempty]
    show val (install h zero a i b w b j) = none
    rw [install, set_ne _ w (.inl hab), update_self]
    exact hval
  rw [if_neg hqp]
  cases hn : node ptr h root q with
  | none => rfl
  | some c =>
    have hcb : c ≠ b := fun heq => hfresh q (Nat.le_of_eq hq) (heq ▸ hn)
    -- the word written is one of a node above the values
    have hca : c ≠ a := by
      rintro rfl
      have hlen := congrArg List.length (ht q p c (Nat.le_of_eq hq) (by omega) hn hp)
      omega
    show val (install h zero a i b w c j) = val (h c j)
    rw [install, set_ne _ w (.inl hca), update_of_ne hcb]

/-- The tree stays one. -/
theorem Tree.install (ht : Tree ptr h root d) (hp : node ptr h root p = some a) (hd : p.length < d)
    (hempty : ptr (h a i) = none) (hw : ptr w = some b) (hzero : ptr zero = none)
    (hfresh : ∀ q, q.length ≤ d → node ptr h root q ≠ some b) : Tree ptr (install h zero a i b w) root d := by
  intro p₁ p₂ c h₁ h₂ hc₁ hc₂
  rw [node_install hp hd ht hempty hw hzero hfresh p₁ h₁] at hc₁
  rw [node_install hp hd ht hempty hw hzero hfresh p₂ h₂] at hc₂
  split at hc₁
  · rename_i e₁
    cases hc₁
    split at hc₂
    · rename_i e₂
      rw [e₁, e₂]
    · exact absurd hc₂ (hfresh p₂ h₂)
  · split at hc₂
    · cases hc₂
      exact absurd hc₁ (hfresh p₁ h₁)
    · exact ht p₁ p₂ c h₁ h₂ hc₁ hc₂

end Xv6.Lib.Radix
