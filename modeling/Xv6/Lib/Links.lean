/-
  Xv6.Lib.Links — circular doubly linked lists through a head node.

  A node's neighbours are given by two functions.  `Links.Ring h l` says
  that from `h` the `next` links run through `l` and back to `h`, that the
  `prev` links run the other way, and that no node is met twice.

  Main results:
    * `Ring.remove` — unlinking a node takes it out of the list,
    * `Ring.insert` — linking a node behind the head puts it in front,
    * `Ring.find_next`, `Ring.find_prev` — a scan along the links is a
      search of the list from its front, respectively from its back.
-/
import Mathlib.Data.List.Chain
import Mathlib.Data.List.Nodup
import Mathlib.Logic.Function.Basic

namespace Xv6.Lib

open Function (update update_of_ne update_self)

/-- A doubly linked list, by its pointers. -/
structure Links (α : Type) where
  next : α → α
  prev : α → α

namespace Links

variable {α : Type}

/-! ## §1. Chains of linked nodes. -/

/-- `y` comes right after `x`. -/
def Adj (d : Links α) (x y : α) : Prop := d.next x = y ∧ d.prev y = x

/-- A chain survives changes of `next` at no node but the last and of `prev`
at no node but the first. -/
theorem chain_congr {d d' : Links α} {c : List α} (h : c.IsChain d.Adj) (hnext : ∀ x ∈ c.dropLast, d'.next x = d.next x)
    (hprev : ∀ y ∈ c.tail, d'.prev y = d.prev y) : c.IsChain d'.Adj := by
  induction c with
  | nil => exact .nil
  | cons x c ih =>
    cases c with
    | nil => exact .singleton x
    | cons y c =>
      rw [List.isChain_cons_cons] at h ⊢
      obtain ⟨⟨hn, hp⟩, hrest⟩ := h
      refine ⟨⟨?_, ?_⟩, ih hrest ?_ ?_⟩
      · rw [hnext x (by simp), hn]
      · rw [hprev y (by simp), hp]
      · intro z hz
        exact hnext z (by simp only [List.dropLast_cons_cons, List.mem_cons]; exact .inr hz)
      · intro z hz
        exact hprev z (List.mem_cons_of_mem y hz)

/-- The pointers are a ring through `h` and `l`. -/
structure Ring (d : Links α) (h : α) (l : List α) : Prop where
  nodup : (h :: l).Nodup
  chain : (h :: (l ++ [h])).IsChain d.Adj

variable {d : Links α} {h b : α} {l : List α}

theorem Ring.empty (hn : d.next h = h) (hp : d.prev h = h) : d.Ring h [] where
  nodup := List.nodup_singleton h
  chain := by
    show [h, h].IsChain d.Adj
    rw [List.isChain_pair]
    exact ⟨hn, hp⟩

/-- The list with the head behind it has a first node. -/
theorem exists_head (l : List α) (h : α) : ∃ y r, l ++ [h] = y :: r := by
  cases l with
  | nil => exact ⟨h, [], rfl⟩
  | cons y l => exact ⟨y, l ++ [h], rfl⟩

/-- Read backwards, a ring is a ring. -/
theorem Ring.flip (hr : d.Ring h l) : Ring ⟨d.prev, d.next⟩ h l.reverse where
  nodup := by
    have hnd := hr.nodup
    simp only [List.nodup_cons, List.mem_reverse, List.nodup_reverse] at hnd ⊢
    exact hnd
  chain := by
    have hrev : h :: (l.reverse ++ [h]) = (h :: (l ++ [h])).reverse := by simp
    rw [hrev, List.isChain_reverse]
    exact hr.chain.imp fun x y hadj => ⟨hadj.2, hadj.1⟩

/-! ## §2. Removal and insertion. -/

variable [DecidableEq α]

/-- `b->next->prev = b->prev; b->prev->next = b->next` -/
def remove (d : Links α) (b : α) : Links α :=
  let d := { d with prev := update d.prev (d.next b) (d.prev b) }
  { d with next := update d.next (d.prev b) (d.next b) }

/-- `b->next = h->next; b->prev = h; h->next->prev = b; h->next = b` -/
def insert (d : Links α) (h b : α) : Links α :=
  let d := { d with next := update d.next b (d.next h) }
  let d := { d with prev := update d.prev b h }
  let d := { d with prev := update d.prev (d.next h) b }
  { d with next := update d.next h b }

/-- The first node before `h` that passes the test, following `step`. -/
def find (step : α → α) (h : α) (test : α → Bool) : Nat → α → Option α
  | 0, _ => none
  | k + 1, b => if b = h then none else if test b then some b else find step h test k (step b)

/-- **Unlinking** `b`. -/
theorem Ring.remove {l₁ l₂ : List α} (hr : d.Ring h (l₁ ++ b :: l₂)) : (d.remove b).Ring h (l₁ ++ l₂) := by
  have hnd := hr.nodup
  have hc : ((h :: l₁) ++ (b :: (l₂ ++ [h]))).IsChain d.Adj := by
    have := hr.chain
    simpa using this
  obtain ⟨hc₁, hc₂, hjoin⟩ := List.isChain_append.mp hc
  obtain ⟨x, hx⟩ : ∃ x, (h :: l₁).getLast? = some x :=
    ⟨_, List.getLast?_eq_some_getLast (List.cons_ne_nil h l₁)⟩
  obtain ⟨y, r, hy⟩ := exists_head l₂ h
  rw [hy, List.isChain_cons_cons] at hc₂
  obtain ⟨⟨hby, hyb⟩, hc₃⟩ := hc₂
  have hxb : d.Adj x b := hjoin x hx b rfl
  have hxmem : x ∈ h :: l₁ := List.mem_of_getLast? hx
  have hymem : y ∈ l₂ ++ [h] := by rw [hy]; exact List.mem_cons_self
  -- the three parts of the ring are disjoint
  have hdisj : ∀ z ∈ h :: l₁, z ∉ b :: l₂ := by
    rw [← List.cons_append, List.nodup_append] at hnd
    intro z hz hz'
    exact hnd.2.2 z hz z hz' rfl
  have hbl₂ : b ∉ l₂ := by
    rw [← List.cons_append, List.nodup_append] at hnd
    exact (List.nodup_cons.mp hnd.2.1).1
  have hndl₁ : (h :: l₁).Nodup := by
    rw [← List.cons_append, List.nodup_append] at hnd
    exact hnd.1
  have hndl₂ : (h :: l₂).Nodup := by
    refine List.Nodup.sublist ?_ hnd
    exact (List.Sublist.trans (List.sublist_cons_self b l₂)
      (List.sublist_append_right l₁ (b :: l₂))).cons_cons h
  have hyne : b ≠ y := by
    rintro rfl
    rcases List.mem_append.mp hymem with hm | hm
    · exact hbl₂ hm
    · rw [List.mem_singleton] at hm
      exact hdisj h List.mem_cons_self (by rw [← hm]; exact List.mem_cons_self)
  have hnext' : (d.remove b).next = update d.next x y := by
    unfold Links.remove
    dsimp only
    rw [hby, hxb.2, update_of_ne hyne, hxb.2]
  have hprev' : (d.remove b).prev = update d.prev y x := by
    unfold Links.remove
    rw [hby, hxb.2]
  have hyl₁ : y ∉ l₁ := by
    intro hm
    rcases List.mem_append.mp hymem with hm' | hm'
    · exact hdisj y (List.mem_cons_of_mem h hm) (List.mem_cons_of_mem b hm')
    · rw [List.mem_singleton] at hm'
      exact (List.nodup_cons.mp hndl₁).1 (hm' ▸ hm)
  constructor
  · refine List.Nodup.sublist ?_ hnd
    exact (List.Sublist.append_left (List.sublist_cons_self b l₂) l₁).cons_cons h
  have hgoal : ((h :: l₁) ++ (l₂ ++ [h])).IsChain (d.remove b).Adj := by
    rw [List.isChain_append]
    refine ⟨chain_congr hc₁ ?_ ?_, ?_, ?_⟩
    · -- x is the last node of this part, so no `next` in it changes
      intro z hz
      rw [hnext', update_of_ne]
      rintro rfl
      have hlast : (h :: l₁) = (h :: l₁).dropLast ++ [z] := by
        rw [List.getLast?_eq_some_iff] at hx
        obtain ⟨ys, hys⟩ := hx
        rw [hys, List.dropLast_concat]
      rw [hlast, List.nodup_append] at hndl₁
      exact hndl₁.2.2 z hz z (List.mem_singleton_self z) rfl
    · intro z hz
      rw [hprev', update_of_ne]
      rintro rfl
      exact hyl₁ hz
    · rw [hy]
      refine chain_congr hc₃ ?_ ?_
      · intro z hz
        rw [← hy, List.dropLast_concat] at hz
        rw [hnext', update_of_ne]
        rintro rfl
        exact hdisj z hxmem (List.mem_cons_of_mem b hz)
      -- y is the first node of this part, so no `prev` in it changes
      intro z hz
      rw [hprev', update_of_ne]
      rintro rfl
      have hnd' : (l₂ ++ [h]).Nodup := by
        have hperm : (l₂ ++ [h]).Perm (h :: l₂) := List.perm_append_singleton h l₂
        exact hperm.nodup_iff.mpr hndl₂
      rw [hy] at hnd'
      exact (List.nodup_cons.mp hnd').1 hz
    · intro z hz w hw
      rw [hx] at hz
      rw [hy] at hw
      cases hz
      cases hw
      refine ⟨?_, ?_⟩
      · rw [hnext', update_self]
      · rw [hprev', update_self]
  simpa using hgoal

/-- **Linking** `b` behind the head. -/
theorem Ring.insert (hr : d.Ring h l) (hb : b ∉ h :: l) : (d.insert h b).Ring h (b :: l) := by
  obtain ⟨y, r, hy⟩ := exists_head l h
  have hc := hr.chain
  rw [hy, List.isChain_cons_cons] at hc
  obtain ⟨⟨hhy, hyh⟩, hc⟩ := hc
  have hbh : b ≠ h := fun he => hb (he ▸ List.mem_cons_self)
  have hby : b ≠ y := by
    have hm : y ∈ l ++ [h] := by rw [hy]; exact List.mem_cons_self
    rintro rfl
    rcases List.mem_append.mp hm with hm | hm
    · exact hb (List.mem_cons_of_mem h hm)
    · exact hbh (List.mem_singleton.mp hm)
  have hnext' : (d.insert h b).next = update (update d.next b y) h b := by
    unfold Links.insert
    rw [hhy]
  have hprev' : (d.insert h b).prev = update (update d.prev b h) y b := by
    unfold Links.insert
    dsimp only
    rw [update_of_ne (Ne.symm hbh), hhy]
  have hnd' : (l ++ [h]).Nodup := (List.perm_append_singleton h l).nodup_iff.mpr hr.nodup
  constructor
  · have hnd := hr.nodup
    simp only [List.nodup_cons, List.mem_cons, not_or] at hnd hb ⊢
    exact ⟨⟨Ne.symm hbh, hnd.1⟩, hb.2, hnd.2⟩
  show (h :: b :: (l ++ [h])).IsChain (d.insert h b).Adj
  rw [hy, List.isChain_cons_cons, List.isChain_cons_cons]
  refine ⟨⟨?_, ?_⟩, ⟨?_, ?_⟩, chain_congr hc ?_ ?_⟩
  · rw [hnext', update_self]
  · rw [hprev', update_of_ne hby, update_self]
  · rw [hnext', update_of_ne hbh, update_self]
  · rw [hprev', update_self]
  · intro z hz
    rw [← hy, List.dropLast_concat] at hz
    have hzh : z ≠ h := fun he => (List.nodup_cons.mp hr.nodup).1 (he ▸ hz)
    have hzb : z ≠ b := fun he => hb (List.mem_cons_of_mem h (he ▸ hz))
    rw [hnext', update_of_ne hzh, update_of_ne hzb]
  intro z hz
  have hzy : z ≠ y := by
    rintro rfl
    rw [hy] at hnd'
    exact (List.nodup_cons.mp hnd').1 hz
  have hzb : z ≠ b := by
    rintro rfl
    have hm : z ∈ l ++ [h] := by rw [hy]; exact List.mem_cons_of_mem y hz
    rcases List.mem_append.mp hm with hm | hm
    · exact hb (List.mem_cons_of_mem h hm)
    · exact hbh (List.mem_singleton.mp hm)
  rw [hprev', update_of_ne hzy, update_of_ne hzb]

/-! ## §3. Scans. -/

theorem find_chain (test : α → Bool) (l : List α) : ∀ {b : α} {r : List α}, h ∉ l →
    (l ++ [h]) = b :: r → (b :: r).IsChain d.Adj → find d.next h test (l.length + 1) b = l.find? test := by
  induction l with
  | nil =>
    intro b r _ heq _
    cases heq
    simp [find]
  | cons x l ih =>
    intro b r hnot heq hchain
    cases heq
    have hxh : x ≠ h := fun he => hnot (he ▸ List.mem_cons_self)
    show (if x = h then none else if test x then some x
      else find d.next h test (l.length + 1) (d.next x)) = _
    rw [if_neg hxh, List.find?_cons]
    cases test x with
    | true => rfl
    | false =>
      obtain ⟨y, r, hy⟩ := exists_head l h
      change (x :: (l ++ [h])).IsChain d.Adj at hchain
      rw [hy, List.isChain_cons_cons] at hchain
      show find d.next h test (l.length + 1) (d.next x) = _
      rw [hchain.1.1]
      exact ih (fun hm => hnot (List.mem_cons_of_mem x hm)) hy hchain.2

/-- **A scan** along `next` searches the list from its front. -/
theorem Ring.find_next (hr : d.Ring h l) (test : α → Bool) {n : Nat} (hn : n = l.length + 1) :
    find d.next h test n (d.next h) = l.find? test := by
  subst hn
  obtain ⟨y, r, hy⟩ := exists_head l h
  have hc := hr.chain
  rw [hy, List.isChain_cons_cons] at hc
  rw [hc.1.1]
  exact find_chain test l (List.nodup_cons.mp hr.nodup).1 hy hc.2

/-- **A scan** along `prev` searches the list from its back. -/
theorem Ring.find_prev (hr : d.Ring h l) (test : α → Bool) {n : Nat} (hn : n = l.length + 1) :
    find d.prev h test n (d.prev h) = l.reverse.find? test :=
  hr.flip.find_next test (by rw [hn, List.length_reverse])

end Links

end Xv6.Lib
