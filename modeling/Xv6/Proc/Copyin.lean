/-
  Xv6.Proc.Copyin — reading user memory (`copyin` and `copyinstr` of
  `kernel/vm.c`).

  Both go from page to page.  `copyinTo` says what `copyin` has stored also
  when it fails; `copyinstr` is the same walk, cut at the first NUL.

  Main result: `reads_flat_view`.
-/
import Xv6.Proc.Exec

namespace Xv6.Exec

variable {km : Kmem} {pt : Pagetable} {srcva len : Nat} {bs : List UInt8} {ok : Bool}

/-- The pages that `walkaddr` finds are the user pages. -/
theorem user_of_walkaddr {pa : Nat} (h : walkaddr pt (PGROUNDDOWN srcva) = some pa) : pt.user (srcva / PGSIZE) = true := by
  unfold walkaddr at h
  split at h
  · cases h
  rename_i hva
  split at h
  · cases h
  rename_i e hfind
  have he := flat_of_find (by omega) hfind
  rw [pagedown_div] at he
  split at h
  · cases h
  split at h
  · cases h
  · rw [user_iff, he]
    refine ⟨?_, Bool.not_eq_false _ ▸ ‹_›, Bool.not_eq_false _ ▸ ‹_›⟩
    simp only [PGROUNDDOWN, PGSIZE, MAXVA, MAXVPN] at hva ⊢
    omega

/-- What a walk over user memory has copied: the bytes that the process sees from `srcva` on, up to `len` of them or up to
the first that it does not see. -/
structure Reads (km : Kmem) (pt : Pagetable) (srcva len : Nat) (bs : List UInt8) (ok : Bool) : Prop where
  le : bs.length ≤ len
  bytes : ∀ i, i < bs.length → pt.view km (srcva + i) = bs[i]?
  full : ok = true → bs.length = len
  stop : ok = false → bs.length < len ∧ pt.view km (srcva + bs.length) = none

/-- The bytes of one page. -/
theorem read_page {n i : Nat} (huser : pt.user (srcva / PGSIZE) = true) (hn : n ≤ PGSIZE - srcva % PGSIZE) (hi : i < n) :
    pt.view km (srcva + i) = (km.read (pt.flat (srcva / PGSIZE)).pa (srcva % PGSIZE) n)[i]? := by
  have hpage : (srcva + i) / PGSIZE = srcva / PGSIZE ∧ (srcva + i) % PGSIZE = srcva % PGSIZE + i := by
    simp only [PGSIZE] at *
    omega
  rw [Pagetable.view, hpage.1, hpage.2, if_pos huser, Kmem.read, List.getElem?_map, List.getElem?_range hi]
  rfl

/-- Two walks one after the other. -/
theorem Reads.append {n m : Nat} {cs : List UInt8} (h : Reads km pt srcva n bs true) (h' : Reads km pt (srcva + n) m cs ok) :
    Reads km pt srcva (n + m) (bs ++ cs) ok := by
  have hn := h.full rfl
  refine ⟨?_, fun i hi => ?_, fun hok => ?_, fun hok => ?_⟩
  · rw [List.length_append, hn]
    exact Nat.add_le_add_left h'.le n
  · by_cases hfirst : i < bs.length
    · rw [List.getElem?_append_left hfirst]
      exact h.bytes i hfirst
    · rw [List.length_append] at hi
      rw [List.getElem?_append_right (by omega), ← h'.bytes _ (by omega)]
      congr 1
      omega
  · rw [List.length_append, hn, h'.full hok]
  · obtain ⟨hlt, hnone⟩ := h'.stop hok
    rw [List.length_append, hn, ← Nat.add_assoc]
    exact ⟨by omega, hnone⟩

/-- **`copyin`**, page by page. -/
theorem copyinTo_reads (km : Kmem) (pt : Pagetable) (srcva len : Nat) :
    Reads km pt srcva len (copyinTo km pt srcva len).1 (copyinTo km pt srcva len).2 := by
  fun_induction copyinTo km pt srcva len with
  | case1 => exact ⟨le_rfl, nofun, fun _ => rfl, nofun⟩
  | case2 srcva len hlen va0 hwalk =>
    refine ⟨Nat.zero_le _, nofun, nofun, fun _ => ⟨Nat.pos_of_ne_zero hlen, if_neg fun huser => ?_⟩⟩
    have hfound : walkaddr pt (PGROUNDDOWN srcva) = _ := walkaddr_user huser
    cases hwalk.symm.trans hfound
  | case3 srcva len hlen va0 pa0 hwalk n rest ok hrest ih =>
    have huser := user_of_walkaddr hwalk
    obtain rfl := Option.some.inj ((walkaddr_user huser).symm.trans hwalk)
    have hoff : srcva - va0 = srcva % PGSIZE := sub_pagedown srcva
    have hn : n = min (PGSIZE - srcva % PGSIZE) len := by rw [← hoff]
    have hpage : Reads km pt srcva n (km.read (pt.flat (srcva / PGSIZE)).pa (srcva % PGSIZE) n) true := by
      have hlength : (km.read (pt.flat (srcva / PGSIZE)).pa (srcva % PGSIZE) n).length = n := by simp [Kmem.read]
      exact ⟨hlength.le, fun i hi => read_page huser (by omega) (hlength ▸ hi), fun _ => hlength, nofun⟩
    rw [hrest] at ih
    rw [hoff]
    -- the next page starts after these bytes, unless they were the last
    by_cases hlast : n = len
    · rw [hlast, Nat.sub_self, copyinTo, if_pos rfl] at hrest
      cases hrest
      rw [List.append_nil, ← hlast]
      exact hpage
    have hnext : va0 + PGSIZE = srcva + n := by
      show PGROUNDDOWN srcva + PGSIZE = _
      simp only [PGROUNDDOWN, PGSIZE] at hn ⊢
      omega
    rw [hnext] at ih
    have hboth := hpage.append ih
    rwa [show n + (len - n) = len by omega] at hboth

/-- The bytes up to the first NUL. -/
theorem takeWhile_nul {as : List UInt8} (has : 0 ∉ as) (cs : List UInt8) : (as ++ 0 :: cs).takeWhile (· ≠ 0) = as := by
  have hpos : ∀ a ∈ as, decide (a ≠ 0) = true := fun a ha => decide_eq_true (ne_of_mem_of_not_mem ha has)
  rw [List.takeWhile_append_of_pos hpos]
  simp

/-- **`copyinstr` is the same walk**, cut at the first NUL. -/
theorem copyinstr_eq (km : Kmem) (pt : Pagetable) (srcva max : Nat) :
    copyinstr km pt srcva max = if 0 ∈ (copyinTo km pt srcva max).1
      then ((copyinTo km pt srcva max).1.takeWhile (· ≠ 0) ++ [0], true) else ((copyinTo km pt srcva max).1, false) := by
  fun_induction copyinstr km pt srcva max with
  | case1 => simp [copyinTo]
  | case2 srcva max hmax va0 hwalk =>
    rw [copyinTo, if_neg hmax]
    simp [va0, hwalk]
  | case3 srcva max hmax va0 pa0 hwalk n page hzero =>
    rw [copyinTo, if_neg hmax]
    simp only [va0, hwalk]
    obtain ⟨as, cs, hpage, has⟩ := List.eq_append_cons_of_mem hzero
    rw [if_pos (List.mem_append_left _ hzero), show km.read _ _ _ = page from rfl, hpage, List.append_assoc, List.cons_append,
      takeWhile_nul has, takeWhile_nul has]
  | case4 srcva max hmax va0 pa0 hwalk n page hzero rest got_null hrest ih =>
    rw [copyinTo, if_neg hmax]
    simp only [va0, hwalk]
    rw [show km.read _ _ _ = page from rfl]
    rw [hrest] at ih
    have hpos : ∀ a ∈ page, decide (a ≠ 0) = true := fun a ha => decide_eq_true (ne_of_mem_of_not_mem ha hzero)
    simp only [List.mem_append, hzero, false_or]
    split at ih
    · rw [if_pos ‹_›, List.takeWhile_append_of_pos hpos, List.append_assoc]
      cases ih
      rfl
    · rw [if_neg ‹_›]
      cases ih
      rfl

/-- **`copyin` and `copyinstr` read what the process sees**, at any address: `copyin` succeeds exactly if all the pages are
valid user pages, and then has stored exactly their bytes; `copyinstr` succeeds exactly if there is a NUL among the first
`max` bytes with valid user pages up to it, and then has stored the string and its NUL.  Neither stores more. -/
theorem reads_flat_view (km : Kmem) (pt : Pagetable) (srcva : Nat) :
    (∀ len, ∃ bs ok, copyinTo km pt srcva len = (bs, ok) ∧ copyin km pt srcva len = (if ok then some bs else none) ∧ bs.length ≤ len
      ∧ (ok = true ↔ ∀ i, i < len → pt.user ((srcva + i) / PGSIZE) = true)
      ∧ (ok = true → bs.length = len ∧ ∀ i, i < len → bs[i]? = pt.view km (srcva + i)))
    ∧ ∀ max, ∃ bs ok, copyinstr km pt srcva max = (bs, ok) ∧ bs.length ≤ max
      ∧ (ok = true ↔ ∃ k, k < max ∧ pt.view km (srcva + k) = some 0 ∧ ∀ i, i < k → pt.user ((srcva + i) / PGSIZE) = true)
      ∧ (ok = true → ∃ str, bs = str ++ [0] ∧ 0 ∉ str ∧ ∀ i, i < bs.length → bs[i]? = pt.view km (srcva + i)) := by
  have hseen : ∀ a, pt.user (a / PGSIZE) = true ↔ pt.view km a ≠ none := by
    intro a
    unfold Pagetable.view
    split <;> simp_all
  refine ⟨fun len => ?_, fun max => ?_⟩
  · have h := copyinTo_reads km pt srcva len
    refine ⟨_, _, rfl, rfl, h.le, ⟨fun hok i hi => ?_, fun hall => ?_⟩, fun hok => ⟨h.full hok, fun i hi => ?_⟩⟩
    · have hlt : i < (copyinTo km pt srcva len).1.length := by rw [h.full hok]; exact hi
      rw [hseen, h.bytes i hlt, List.getElem?_eq_getElem hlt]
      exact nofun
    · by_contra hok
      obtain ⟨hlt, hnone⟩ := h.stop (Bool.not_eq_true _ ▸ hok)
      exact (hseen _).mp (hall _ hlt) hnone
    · exact (h.bytes i (by rw [h.full hok]; exact hi)).symm
  have h := copyinTo_reads km pt srcva max
  rw [copyinstr_eq]
  generalize (copyinTo km pt srcva max).1 = bs at h
  by_cases hzero : (0 : UInt8) ∈ bs
  · obtain ⟨as, cs, rfl, has⟩ := List.eq_append_cons_of_mem hzero
    have hle := h.le
    rw [List.length_append, List.length_cons] at hle
    have hbytes : ∀ i, i < (as ++ [(0 : UInt8)]).length → (as ++ [(0 : UInt8)])[i]? = pt.view km (srcva + i) := by
      intro i hi
      rw [h.bytes i (by simp only [List.length_append, List.length_cons, List.length_nil] at hi ⊢; omega),
        show as ++ 0 :: cs = as ++ [0] ++ cs by simp, List.getElem?_append_left hi]
    rw [if_pos hzero, takeWhile_nul has]
    refine ⟨_, _, rfl, by rw [List.length_append, List.length_singleton]; omega, ⟨fun _ => ⟨as.length, by omega, ?_, fun i hi => ?_⟩,
      fun _ => rfl⟩, fun _ => ⟨as, rfl, has, hbytes⟩⟩
    · rw [← hbytes _ (by simp)]
      simp
    · rw [hseen, ← hbytes i (by rw [List.length_append]; omega), List.getElem?_append_left hi, List.getElem?_eq_getElem hi]
      exact nofun
  rw [if_neg hzero]
  refine ⟨_, _, rfl, h.le, ⟨nofun, fun ⟨k, hk, hnul, hall⟩ => absurd ?_ hzero⟩, nofun⟩
  -- the walk has not stopped before the NUL
  by_cases hin : k < bs.length
  · rw [h.bytes k hin] at hnul
    exact List.mem_of_getElem? hnul
  cases hok : (copyinTo km pt srcva max).2 with
  | true => have := h.full hok; omega
  | false =>
    have hnone := (h.stop hok).2
    by_cases heq : bs.length = k
    · rw [heq, hnul] at hnone
      cases hnone
    · exact absurd hnone ((hseen _).mp (hall _ (by omega)))

end Xv6.Exec
