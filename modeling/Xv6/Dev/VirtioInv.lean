/-
  Xv6.Dev.VirtioInv — every request is tracked.

  The invariant has two halves.  `DescInv` is about descriptors: the chains
  in flight are formatted, disjoint, and hold every descriptor that is not
  free.  `QueueInv` is about progress: the first descriptors of the requests
  that the driver has not seen finished stand in a row of three queues — the
  entries of `used` it has not read, the chains the device works on, the
  entries of `avail` the device has not read — each of them once.

  Main result:
    * `DiskSys.request_tracking` — it holds in every interleaving, whatever
      the indices' wrap-arounds.
-/
import Xv6.Dev.Virtio

namespace Xv6.DiskSys

open Function (update update_apply update_of_ne update_self)

variable {ι : Type} {s s' : DiskSys ι} {i j : ι} {r r' : DiskReq}

/-! ## §1. The invariant. -/

/-- The first descriptors of the requests on their way. -/
def stages (s : DiskSys ι) : List Nat :=
  s.disk.used.since s.disk.used_idx ++ s.working ++ s.disk.avail.since s.seen

/-- What holds of the descriptors. -/
structure DescInv (s : DiskSys ι) : Prop where
  linked : ∀ i r, (s.proc i).pc = .wait r →
    r.Linked s.disk.table ∧ (s.disk.info r.head).b = some r.b ∧ s.lock r.b = some i
  disjoint : ∀ i j r r' k, (s.proc i).pc = .wait r → (s.proc j).pc = .wait r' → k ∈ r.descs → k ∈ r'.descs → i = j
  covered : ∀ k < NUM, s.disk.table.free k = false → ∃ i r, (s.proc i).pc = .wait r ∧ k ∈ r.descs
  locked : ∀ i b n w, (s.proc i).pc = .alloc b n w → s.lock b = some i

/-- What holds of the rings and the request numbers. -/
structure QueueInv (s : DiskSys ι) : Prop where
  numbers : ∀ i r, (s.proc i).pc = .wait r → s.req r.head = r.num ∧ s.owner r.b = r.num
    ∧ (s.bdisk r.b = true → r.head ∈ s.stages) ∧ (s.bdisk r.b = false → r.num ∈ s.clears)
  stage : ∀ h ∈ s.stages, ∃ i r, (s.proc i).pc = .wait r ∧ r.head = h ∧ s.bdisk r.b = true
  nodup : (s.clears ++ s.stages.map s.req).Nodup
  below : ∀ q ∈ s.clears ++ s.stages.map s.req, q < s.nreq
  completions : s.completions = s.clears ++ (s.disk.used.since s.disk.used_idx).map s.req
  finished : ∀ q ∈ s.finished, q ∈ s.clears
  account : ∀ q < s.nreq, (∃ i r, (s.proc i).pc = .wait r ∧ r.num = q) ∨ q ∈ s.finished

/-- The invariant of the driver. -/
structure Inv (s : DiskSys ι) : Prop where
  descs : s.DescInv
  queues : s.QueueInv

theorem head_mem (r : DiskReq) : r.head ∈ r.descs := List.mem_cons_self

/-- Processes hold different buffers. -/
theorem DescInv.buf_ne (h : s.DescInv) (hi : (s.proc i).pc = .wait r) (hj : (s.proc j).pc = .wait r')
    (hij : j ≠ i) : r'.b ≠ r.b := by
  intro hb
  have h1 := (h.linked i r hi).2.2
  have h2 := (h.linked j r' hj).2.2
  rw [hb, h1] at h2
  exact hij (Option.some.inj h2).symm

theorem DescInv.head_ne (h : s.DescInv) (hi : (s.proc i).pc = .wait r) (hj : (s.proc j).pc = .wait r')
    (hij : j ≠ i) : r'.head ≠ r.head := fun he =>
  hij (h.disjoint j i r' r r'.head hj hi (head_mem r') (he ▸ head_mem r))

theorem QueueInv.stages_nodup (h : s.QueueInv) : s.stages.Nodup :=
  List.Nodup.of_map s.req (List.nodup_append.mp h.nodup).2.1

theorem Inv.stages_lt (h : s.Inv) : ∀ k ∈ s.stages, k < NUM := by
  intro k hk
  obtain ⟨i, r, hi, rfl, -⟩ := h.queues.stage k hk
  exact ((h.descs.linked i r hi).1.taken _ (head_mem r)).1

/-- Different descriptors are at most 8. -/
theorem length_le {l : List Nat} (hnodup : l.Nodup) (hlt : ∀ k ∈ l, k < NUM) : l.length ≤ NUM := by
  have hsub : l ⊆ List.range NUM := fun k hk => List.mem_range.mpr (hlt k hk)
  have hle := (List.subperm_of_subset hnodup hsub).length_le
  rwa [List.length_range] at hle

theorem stages_length (s : DiskSys ι) : s.stages.length
    = (s.disk.used.since s.disk.used_idx).length + s.working.length + (s.disk.avail.since s.seen).length := by
  rw [stages, List.length_append, List.length_append]

/-! ## §2. Steps that keep the requests where they are. -/

/-- The requests in flight and everything that counts them are the same. -/
theorem QueueInv.congr (h : s.QueueInv) (hpc : ∀ i r, (s'.proc i).pc = .wait r ↔ (s.proc i).pc = .wait r)
    (hstages : s'.stages = s.stages) (hused : s'.disk.used.since s'.disk.used_idx = s.disk.used.since s.disk.used_idx)
    (hbdisk : s'.bdisk = s.bdisk) (hreq : s'.req = s.req) (howner : s'.owner = s.owner) (hnreq : s'.nreq = s.nreq)
    (hcomp : s'.completions = s.completions) (hclears : s'.clears = s.clears)
    (hfin : s'.finished = s.finished) : s'.QueueInv := by
  refine ⟨fun i r hi => ?_, fun k hk => ?_, ?_, ?_, ?_, ?_, fun q hq => ?_⟩
  · rw [hreq, howner, hbdisk, hstages, hclears]
    exact h.numbers i r ((hpc i r).mp hi)
  · rw [hstages] at hk
    obtain ⟨i, r, hi, hrest⟩ := h.stage k hk
    exact ⟨i, r, (hpc i r).mpr hi, hbdisk ▸ hrest⟩
  · rw [hclears, hstages, hreq]
    exact h.nodup
  · rw [hclears, hstages, hreq, hnreq]
    exact h.below
  · rw [hcomp, hclears, hused, hreq]
    exact h.completions
  · rw [hfin, hclears]
    exact h.finished
  · rw [hnreq] at hq
    rw [hfin]
    rcases h.account q hq with ⟨i, r, hi, hnum⟩ | hdone
    · exact .inl ⟨i, r, (hpc i r).mpr hi, hnum⟩
    · exact .inr hdone

/-- The processes are where they were, and so is the descriptor table. -/
theorem DescInv.congr (h : s.DescInv) (hpc : ∀ i, (s'.proc i).pc = (s.proc i).pc)
    (htable : s'.disk.table = s.disk.table) (hinfo : ∀ k, (s'.disk.info k).b = (s.disk.info k).b)
    (hlock : s'.lock = s.lock) : s'.DescInv := by
  refine ⟨fun i r hi => ?_, fun i j r r' k hi hj => ?_, fun k hk hfree => ?_, fun i b n w hi => ?_⟩
  · rw [htable, hinfo, hlock]
    exact h.linked i r (hpc i ▸ hi)
  · exact h.disjoint i j r r' k (hpc i ▸ hi) (hpc j ▸ hj)
  · rw [htable] at hfree
    obtain ⟨i, r, hi, hmem⟩ := h.covered k hk hfree
    exact ⟨i, r, (hpc i).trans hi, hmem⟩
  · rw [hlock]
    exact h.locked i b n w (hpc i ▸ hi)

/-- Only who sleeps, and whether the handler runs, has changed. -/
theorem Inv.congr (h : s.Inv) (hpc : ∀ i, (s'.proc i).pc = (s.proc i).pc)
    (heq : { s' with proc := s.proc, intr := s.intr } = s) : s'.Inv := by
  obtain ⟨disk, bdisk, lock, proc, intr, seen, working, nreq, req, owner, completions, clears, finished⟩ := s
  obtain ⟨disk', bdisk', lock', proc', intr', seen', working', nreq', req', owner', completions', clears',
    finished'⟩ := s'
  obtain ⟨rfl, rfl, rfl, rfl, rfl, rfl, rfl, rfl, rfl, rfl, rfl⟩ := heq
  exact ⟨h.descs.congr hpc rfl (fun _ => rfl) rfl,
    h.queues.congr (fun i r => by rw [hpc i]) rfl rfl rfl rfl rfl rfl rfl rfl rfl⟩

theorem pc_wakeup (s : DiskSys ι) (c : DiskChan) (i : ι) : ((s.wakeup c).proc i).pc = (s.proc i).pc := by
  show (if (s.proc i).chan = some c then { s.proc i with chan := none } else s.proc i).pc = _
  split <;> rfl

theorem Inv.wakeup (h : s.Inv) (c : DiskChan) : (s.wakeup c).Inv := h.congr (pc_wakeup s c) rfl

variable [DecidableEq ι]

theorem proc_setProc (s : DiskSys ι) (i j : ι) (p : DiskProc) :
    (s.setProc i p).proc j = if j = i then p else s.proc j := by
  show update s.proc i p j = _
  by_cases hj : j = i
  · rw [hj, update_self, if_pos rfl]
  · rw [update_of_ne hj, if_neg hj]

/-- A process sleeps or is woken up where it is. -/
theorem Inv.setChan (h : s.Inv) {p : DiskProc} (hp : p.pc = (s.proc i).pc) : (s.setProc i p).Inv := by
  refine h.congr (fun j => ?_) rfl
  rw [proc_setProc]
  split
  · rename_i hj
    rw [hj, hp]
  · rfl

omit [DecidableEq ι] in
/-- A sleep lock changes hands; those of busy processes stay. -/
theorem Inv.setLock (h : s.Inv) {b : Nat} {x : Option ι} (hkeep : ∀ b' j, (s.proc j).pc ≠ .idle → s.lock b' = some j → b' ≠ b) :
    ({ s with lock := update s.lock b x } : DiskSys ι).Inv := by
  refine ⟨⟨fun j r hj => ?_, h.descs.disjoint, h.descs.covered, fun j b' n w hj => ?_⟩,
    h.queues.congr (fun _ _ => Iff.rfl) rfl rfl rfl rfl rfl rfl rfl rfl rfl⟩
  · obtain ⟨hlinked, hinfo, hlock⟩ := h.descs.linked j r hj
    exact ⟨hlinked, hinfo, (update_of_ne (hkeep _ j (by rw [hj]; nofun) hlock) ..).trans hlock⟩
  · have hlock := h.descs.locked j b' n w hj
    exact (update_of_ne (hkeep _ j (by rw [hj]; nofun) hlock) ..).trans hlock

omit [DecidableEq ι] in
theorem Inv.acquiresleep (h : s.Inv) {b : Nat} (hfree : s.lock b = none) :
    ({ s with lock := update s.lock b (some i) } : DiskSys ι).Inv := by
  refine h.setLock fun b' j _ hj he => ?_
  rw [he, hfree] at hj
  cases hj

omit [DecidableEq ι] in
theorem Inv.releasesleep (h : s.Inv) {b : Nat} (hidle : (s.proc i).pc = .idle) (hheld : s.lock b = some i) :
    ({ s with lock := update s.lock b none } : DiskSys ι).Inv := by
  refine h.setLock fun b' j hbusy hj he => ?_
  rw [he, hheld] at hj
  exact hbusy (Option.some.inj hj ▸ hidle)

/-- A call of `virtio_disk_rw` begins. -/
theorem Inv.virtio_disk_rw (h : s.Inv) {b n : Nat} {w : Bool} (hidle : (s.proc i).pc = .idle)
    (hheld : s.lock b = some i) : (s.setProc i ⟨.alloc b n w, none⟩).Inv := by
  have hpc : ∀ j r, ((s.setProc i ⟨.alloc b n w, none⟩).proc j).pc = .wait r ↔ (s.proc j).pc = .wait r := by
    intro j r
    rw [proc_setProc]
    split
    · rename_i hj
      rw [hj, hidle]
      exact ⟨nofun, nofun⟩
    · rfl
  refine ⟨⟨fun j r hj => h.descs.linked j r ((hpc j r).mp hj),
    fun j k r r' d hj hk => h.descs.disjoint j k r r' d ((hpc j r).mp hj) ((hpc k r').mp hk), fun k hk hfree => ?_,
    fun j b' n' w' hj => ?_⟩, h.queues.congr hpc rfl rfl rfl rfl rfl rfl rfl rfl rfl⟩
  · obtain ⟨j, r, hj, hmem⟩ := h.descs.covered k hk hfree
    exact ⟨j, r, (hpc j r).mpr hj, hmem⟩
  rw [proc_setProc] at hj
  split at hj
  · rename_i hji
    obtain ⟨rfl, -, -⟩ := DiskPc.alloc.inj hj
    rw [hji]
    exact hheld
  · exact h.descs.locked j b' n' w' hj

omit [DecidableEq ι] in
/-- A failed `alloc3_desc` leaves the chains. -/
theorem Inv.table (h : s.Inv) {t : DescTable} (hsame : s.disk.table.Same t) :
    ({ s with disk := { s.disk with table := t } } : DiskSys ι).Inv := by
  refine ⟨⟨fun j r hj => ?_, h.descs.disjoint, fun k hk hfree => ?_, h.descs.locked⟩,
    h.queues.congr (fun _ _ => Iff.rfl) rfl rfl rfl rfl rfl rfl rfl rfl rfl⟩
  · obtain ⟨hlinked, hrest⟩ := h.descs.linked j r hj
    refine ⟨hlinked.congr (fun k hk => hsame.desc k (hlinked.taken k hk).2) fun k hk => ?_, hrest⟩
    rw [hsame.free]
    exact (hlinked.taken k hk).2
  · have hfree : t.free k = false := hfree
    rw [hsame.free] at hfree
    exact h.descs.covered k hk hfree

/-! ## §3. A request is submitted. -/

section Submit

variable {b n : Nat} {w : Bool} {x y z : Nat} {free : Nat → Bool}

/-- The state in which `virtio_disk_rw` waits for its request. -/
def submitted (s : DiskSys ι) (i : ι) (r : DiskReq) (free : Nat → Bool) : DiskSys ι :=
  ({ s with
    disk := s.disk.submit { s.disk.table with free := free } r
    bdisk := update s.bdisk r.b true
    nreq := s.nreq + 1
    req := update s.req r.head s.nreq
    owner := update s.owner r.b s.nreq } : DiskSys ι).setProc i ⟨.wait r, some (.buf r.b)⟩

theorem pc_submitted (s : DiskSys ι) (i j : ι) (r : DiskReq) (free : Nat → Bool) :
    ((s.submitted i r free).proc j).pc = if j = i then .wait r else (s.proc j).pc := by
  show ((DiskSys.setProc _ i _).proc j).pc = _
  rw [proc_setProc]
  split <;> rfl

omit [DecidableEq ι] in
/-- The descriptors that `alloc3_desc` hands out belong to no chain. -/
theorem DescInv.fresh (h : s.DescInv) (hfree : ∀ k ∈ r.descs, k < NUM ∧ s.disk.table.free k = true)
    (hj : (s.proc j).pc = .wait r') {k : Nat} (hk : k ∈ r'.descs) : k ∉ r.descs := by
  intro hmem
  have h1 := ((h.linked j r' hj).1.taken k hk).2
  rw [(hfree k hmem).2] at h1
  cases h1

theorem DescInv.submitted (h : s.DescInv) (hpc : (s.proc i).pc = .alloc r.b n w) (hnodup : r.descs.Nodup)
    (hfree : ∀ k ∈ r.descs, k < NUM ∧ s.disk.table.free k = true)
    (hleft : ∀ k, free k = true ↔ s.disk.table.free k = true ∧ k ∉ r.descs) : (s.submitted i r free).DescInv := by
  have hnot : ∀ k, (free k = false) ↔ (s.disk.table.free k = false ∨ k ∈ r.descs) := by
    intro k
    rw [← Bool.not_eq_true, ← Bool.not_eq_true, hleft k, not_and_or, not_not]
  refine ⟨fun j r' hj => ?_, fun j k r₁ r₂ d hj hk hd₁ hd₂ => ?_, fun k hk hfk => ?_, fun j b' n' w' hj => ?_⟩
  · rw [pc_submitted] at hj
    split at hj
    · rename_i hji
      obtain rfl := DiskPc.wait.inj hj
      rw [hji]
      refine ⟨DiskReq.linked_format hnodup fun k hk => ⟨(hfree k hk).1, (hnot k).mpr (.inr hk)⟩, ?_,
        h.locked i r.b n w hpc⟩
      show (update s.disk.info r.head _ r.head).b = _
      rw [update_self]
    · obtain ⟨hlinked, hinfo, hlock⟩ := h.linked j r' hj
      refine ⟨hlinked.congr (fun k hk => DiskReq.format_other (h.fresh hfree hj hk))
        fun k hk => (hnot k).mpr (.inl (hlinked.taken k hk).2), ?_, hlock⟩
      have hne : r'.head ≠ r.head := fun he => h.fresh hfree hj (head_mem r') (he ▸ head_mem r)
      show (update s.disk.info r.head _ r'.head).b = _
      rw [update_of_ne hne, hinfo]
  · rw [pc_submitted] at hj hk
    split at hj
    · rename_i hji
      obtain rfl := DiskPc.wait.inj hj
      split at hk
      · rename_i hki
        rw [hji, hki]
      · exact absurd hd₁ (h.fresh hfree hk hd₂)
    · split at hk
      · obtain rfl := DiskPc.wait.inj hk
        exact absurd hd₂ (h.fresh hfree hj hd₁)
      · exact h.disjoint j k r₁ r₂ d hj hk hd₁ hd₂
  · rcases (hnot k).mp hfk with hold | hmem
    · obtain ⟨j, r', hj, hd⟩ := h.covered k hk hold
      refine ⟨j, r', ?_, hd⟩
      have hji : j ≠ i := fun he => by rw [he, hpc] at hj; cases hj
      rw [pc_submitted, if_neg hji, hj]
    · exact ⟨i, r, by rw [pc_submitted, if_pos rfl], hmem⟩
  · rw [pc_submitted] at hj
    split at hj
    · cases hj
    · exact h.locked j b' n' w' hj

theorem Inv.submitted (h : s.Inv) (hpc : (s.proc i).pc = .alloc r.b n w) (hnodup : r.descs.Nodup)
    (hfree : ∀ k ∈ r.descs, k < NUM ∧ s.disk.table.free k = true)
    (hleft : ∀ k, free k = true ↔ s.disk.table.free k = true ∧ k ∉ r.descs) (hnum : r.num = s.nreq) :
    (s.submitted i r free).Inv := by
  refine ⟨h.descs.submitted hpc hnodup hfree hleft, ?_⟩
  -- the new first descriptor is not on its way yet, so there is room for it
  have hnew : r.head ∉ s.stages := by
    intro hmem
    obtain ⟨j, r', hj, he, -⟩ := h.queues.stage _ hmem
    exact h.descs.fresh hfree hj (head_mem r') (he ▸ head_mem r)
  have hroom : (s.disk.avail.since s.seen).length < 8 := by
    have hle := length_le (l := r.head :: s.stages) (List.nodup_cons.mpr ⟨hnew, h.queues.stages_nodup⟩)
      (by
        intro k hk
        rcases List.mem_cons.mp hk with rfl | hk
        · exact (hfree _ (head_mem r)).1
        · exact h.stages_lt k hk)
    rw [List.length_cons, stages_length] at hle
    simp only [NUM] at hle
    omega
  have hstages : (s.submitted i r free).stages = s.stages ++ [r.head] := by
    show _ ++ _ ++ (s.disk.avail.put r.head).since s.seen = _
    rw [Virtq.since_put _ _ _ hroom, ← List.append_assoc]
    rfl
  have hmap : ∀ l : List Nat, (∀ k ∈ l, k ∈ s.stages) → l.map (update s.req r.head s.nreq) = l.map s.req := by
    intro l hl
    apply List.map_congr_left
    intro k hk
    exact update_of_ne (fun he : k = r.head => hnew (he ▸ hl k hk)) ..
  have hreqs : (s.submitted i r free).stages.map (s.submitted i r free).req = s.stages.map s.req ++ [s.nreq] := by
    rw [hstages, List.map_append]
    show s.stages.map (update s.req r.head s.nreq) ++ [update s.req r.head s.nreq r.head] = _
    rw [hmap s.stages fun _ hk => hk, update_self]
  refine ⟨fun j r' hj => ?_, fun k hk => ?_, ?_, fun q hq => ?_, ?_, h.queues.finished, fun q hq => ?_⟩
  · rw [pc_submitted] at hj
    rw [hstages]
    split at hj
    · obtain rfl := DiskPc.wait.inj hj
      refine ⟨(update_self ..).trans hnum.symm, (update_self ..).trans hnum.symm,
        fun _ => List.mem_append_right _ List.mem_cons_self, fun hb => ?_⟩
      have hb : update s.bdisk r.b true r.b = false := hb
      rw [update_self] at hb
      cases hb
    rename_i hji
    obtain ⟨hreq, howner, hstage, hclear⟩ := h.queues.numbers j r' hj
    have hb : r'.b ≠ r.b := by
      intro he
      have h1 := (h.descs.linked j r' hj).2.2
      rw [he, h.descs.locked i r.b n w hpc] at h1
      exact hji (Option.some.inj h1).symm
    have hh : r'.head ≠ r.head := fun he => h.descs.fresh hfree hj (head_mem r') (he ▸ head_mem r)
    have hbd : (s.submitted i r free).bdisk r'.b = s.bdisk r'.b := update_of_ne hb ..
    refine ⟨(update_of_ne hh ..).trans hreq, (update_of_ne hb ..).trans howner, ?_, ?_⟩
    · rw [hbd]
      exact fun hd => List.mem_append_left _ (hstage hd)
    · rw [hbd]
      exact hclear
  · rw [hstages] at hk
    rcases List.mem_append.mp hk with hold | hlast
    · obtain ⟨j, r', hj, he, hd⟩ := h.queues.stage k hold
      have hji : j ≠ i := fun he => by rw [he, hpc] at hj; cases hj
      refine ⟨j, r', by rw [pc_submitted, if_neg hji, hj], he, ?_⟩
      show update s.bdisk r.b true r'.b = true
      rw [update_apply]
      split
      · rfl
      · exact hd
    · obtain rfl := List.mem_singleton.mp hlast
      exact ⟨i, r, by rw [pc_submitted, if_pos rfl], rfl, update_self ..⟩
  · rw [hreqs]
    show (s.clears ++ (s.stages.map s.req ++ [s.nreq])).Nodup
    rw [← List.append_assoc]
    refine List.nodup_append.mpr ⟨h.queues.nodup, List.nodup_singleton _, fun q hq q' hq' he => ?_⟩
    have := h.queues.below q hq
    rw [List.mem_singleton.mp hq'] at he
    omega
  · rw [hreqs] at hq
    rw [← List.append_assoc] at hq
    show q < s.nreq + 1
    rcases List.mem_append.mp hq with hold | hlast
    · have := h.queues.below q hold
      omega
    · rw [List.mem_singleton.mp hlast]
      omega
  · show s.completions = s.clears ++ (s.disk.used.since s.disk.used_idx).map (update s.req r.head s.nreq)
    rw [hmap _ fun k hk => List.mem_append_left _ (List.mem_append_left _ hk)]
    exact h.queues.completions
  · have hq : q < s.nreq + 1 := hq
    by_cases hlast : q = s.nreq
    · exact .inl ⟨i, r, by rw [pc_submitted, if_pos rfl], hnum.trans hlast.symm⟩
    · rcases h.queues.account q (by omega) with ⟨j, r', hj, he⟩ | hdone
      · have hji : j ≠ i := fun he => by rw [he, hpc] at hj; cases hj
        exact .inl ⟨j, r', by rw [pc_submitted, if_neg hji, hj], he⟩
      · exact .inr hdone

end Submit

/-- **A section of the loop around `alloc3_desc`** does not fail. -/
theorem Inv.tryAlloc (h : s.Inv) {b n : Nat} {w : Bool} (hpc : (s.proc i).pc = .alloc b n w) :
    ∃ s', s.tryAlloc i b n w = .ok s' ∧ s'.Inv := by
  unfold DiskSys.tryAlloc
  rcases alloc3_desc_spec s.disk.table with ⟨t, woken, halloc, hsame⟩ | ⟨x, y, z, free, halloc, hnodup, hfree, hleft⟩
  · rw [halloc]
    refine ⟨_, rfl, ?_⟩
    have htable := h.table hsame
    split
    · refine (htable.wakeup .free).setChan ?_
      rw [pc_wakeup]
      exact hpc.symm
    · exact htable.setChan hpc.symm
  · rw [halloc]
    exact ⟨_, rfl, h.submitted (r := ⟨b, n, w, x, y, z, s.nreq⟩) hpc hnodup hfree hleft rfl⟩

/-! ## §4. A request is finished. -/

/-- **A section of the loop around `b->disk`** does not fail. -/
theorem Inv.tryFinish (h : s.Inv) (hpc : (s.proc i).pc = .wait r) : ∃ s', s.tryFinish i r = .ok s' ∧ s'.Inv := by
  unfold DiskSys.tryFinish
  cases hb : s.bdisk r.b with
  | true => exact ⟨_, rfl, h.setChan hpc.symm⟩
  | false =>
    obtain ⟨hlinked, hinfo, hlock⟩ := h.descs.linked i r hpc
    obtain ⟨t, hfree, hset, hdesc⟩ := free_chain_spec hlinked
    simp only [Bool.false_eq_true, if_false, hfree]
    refine ⟨_, rfl, ?_⟩
    -- nobody else is woken up inside a chain, so the processes are looked at before `wakeup`
    have hnot : ∀ k, t.free k = false ↔ s.disk.table.free k = false ∧ k ∉ r.descs := by
      intro k
      rw [← Bool.not_eq_true, ← Bool.not_eq_true, hset k, not_or]
    let d : VirtioDisk := { s.disk with
      table := t
      info := update s.disk.info r.head { s.disk.info r.head with b := none } }
    let u : DiskSys ι := ({ s with disk := d, finished := s.finished ++ [r.num] } : DiskSys ι).setProc i ⟨.idle, none⟩
    have hpcu : ∀ j r', (u.proc j).pc = .wait r' ↔ j ≠ i ∧ (s.proc j).pc = .wait r' := by
      intro j r'
      show ((DiskSys.setProc _ i _).proc j).pc = _ ↔ _
      rw [proc_setProc]
      split
      · rename_i hj
        exact ⟨nofun, fun hc => absurd hj hc.1⟩
      · rename_i hj
        exact ⟨fun hc => ⟨hj, hc⟩, fun hc => hc.2⟩
    have hu : u.Inv := by
      refine ⟨⟨fun j r' hj => ?_, fun j k r₁ r₂ dd hj hk => ?_, fun k hk hfk => ?_, fun j b' n' w' hj => ?_⟩,
        fun j r' hj => ?_, fun k hk => ?_, h.queues.nodup, h.queues.below, h.queues.completions, fun q hq => ?_,
        fun q hq => ?_⟩
      · obtain ⟨hji, hj⟩ := (hpcu j r').mp hj
        obtain ⟨hlinked', hinfo', hlock'⟩ := h.descs.linked j r' hj
        have hother : ∀ k ∈ r'.descs, k ∉ r.descs := fun k hk hmem =>
          hji (h.descs.disjoint j i r' r k hj hpc hk hmem)
        refine ⟨hlinked'.congr (fun k hk => hdesc k (hother k hk))
          fun k hk => (hnot k).mpr ⟨(hlinked'.taken k hk).2, hother k hk⟩, ?_, hlock'⟩
        show (update s.disk.info r.head _ r'.head).b = _
        rw [update_of_ne (h.descs.head_ne hpc hj hji), hinfo']
      · exact h.descs.disjoint j k r₁ r₂ dd ((hpcu j r₁).mp hj).2 ((hpcu k r₂).mp hk).2
      · obtain ⟨hold, hmem⟩ := (hnot k).mp hfk
        obtain ⟨j, r', hj, hd⟩ := h.descs.covered k hk hold
        have hji : j ≠ i := by
          intro he
          rw [he, hpc] at hj
          exact hmem (DiskPc.wait.inj hj ▸ hd)
        exact ⟨j, r', (hpcu j r').mpr ⟨hji, hj⟩, hd⟩
      · have hj : ((DiskSys.setProc _ i _).proc j).pc = _ := hj
        rw [proc_setProc] at hj
        split at hj
        · cases hj
        · exact h.descs.locked j b' n' w' hj
      · exact h.queues.numbers j r' ((hpcu j r').mp hj).2
      · obtain ⟨j, r', hj, he, hd⟩ := h.queues.stage k hk
        have hji : j ≠ i := by
          intro he'
          rw [he', hpc] at hj
          rw [← DiskPc.wait.inj hj, hb] at hd
          cases hd
        exact ⟨j, r', (hpcu j r').mpr ⟨hji, hj⟩, he, hd⟩
      · rcases List.mem_append.mp hq with hold | hlast
        · exact h.queues.finished q hold
        · rw [List.mem_singleton.mp hlast]
          exact (h.queues.numbers i r hpc).2.2.2 hb
      · rcases h.queues.account q hq with ⟨j, r', hj, he⟩ | hdone
        · by_cases hji : j = i
          · rw [hji, hpc] at hj
            rw [← DiskPc.wait.inj hj] at he
            exact .inr (List.mem_append_right _ (he ▸ List.mem_cons_self))
          · exact .inl ⟨j, r', (hpcu j r').mpr ⟨hji, hj⟩, he⟩
        · exact .inr (List.mem_append_left _ hdone)
    refine hu.congr (fun j => ?_) rfl
    show ((DiskSys.setProc _ i _).proc j).pc = ((DiskSys.setProc _ i _).proc j).pc
    rw [proc_setProc, proc_setProc]
    split
    · rfl
    · exact pc_wakeup _ _ j

/-! ## §5. The handler and the device. -/

omit [DecidableEq ι] in
/-- What the handler finds in the next entry of `used`. -/
theorem Inv.used_next (h : s.Inv) (hne : s.disk.used_idx ≠ s.disk.used.idx) :
    ∃ i r, (s.proc i).pc = .wait r ∧ r.head = s.disk.used.get s.disk.used_idx ∧ s.bdisk r.b = true
      ∧ (s.disk.info (s.disk.used.get s.disk.used_idx)).b = some r.b := by
  have hmem : s.disk.used.get s.disk.used_idx ∈ s.stages := by
    refine List.mem_append_left _ (List.mem_append_left _ ?_)
    rw [Virtq.since_next _ _ hne]
    exact List.mem_cons_self
  obtain ⟨i, r, hi, he, hd⟩ := h.queues.stage _ hmem
  exact ⟨i, r, hi, he, hd, he ▸ (h.descs.linked i r hi).2.1⟩

/-- **One turn of `virtio_disk_intr`** clears the `b->disk` of the request it read. -/
theorem Inv.intrNext (h : s.Inv) (hne : s.disk.used_idx ≠ s.disk.used.idx) (hpc : (s.proc i).pc = .wait r)
    (hhead : r.head = s.disk.used.get s.disk.used_idx) :
    ({ s with
      disk := { s.disk with used_idx := s.disk.used_idx + 1 }
      bdisk := update s.bdisk r.b false
      clears := s.clears ++ [s.owner r.b] } : DiskSys ι).Inv := by
  have hnext := Virtq.since_next s.disk.used s.disk.used_idx hne
  rw [← hhead] at hnext
  obtain ⟨hreq, howner, -, -⟩ := h.queues.numbers i r hpc
  generalize hs' : ({ s with
      disk := { s.disk with used_idx := s.disk.used_idx + 1 }
      bdisk := update s.bdisk r.b false
      clears := s.clears ++ [s.owner r.b] } : DiskSys ι) = s'
  have hstages : s.stages = r.head :: s'.stages := by
    rw [← hs', stages, hnext]
    rfl
  have hnotin : r.head ∉ s'.stages := (List.nodup_cons.mp (hstages ▸ h.queues.stages_nodup)).1
  have hproc : s'.proc = s.proc := by rw [← hs']
  have hreqs : s'.req = s.req := by rw [← hs']
  have hclears : s'.clears = s.clears ++ [r.num] := by rw [← hs', ← howner]
  have hbdisk : s'.bdisk = update s.bdisk r.b false := by rw [← hs']
  have hlist : s'.clears ++ s'.stages.map s'.req = s.clears ++ s.stages.map s.req := by
    rw [hclears, hreqs, hstages, List.map_cons, hreq, List.append_assoc]
    rfl
  refine ⟨h.descs.congr (fun j => by rw [hproc]) (by rw [← hs']) (fun k => by rw [← hs']) (by rw [← hs']),
    fun j r' hj => ?_, fun k hk => ?_, ?_, ?_, ?_, ?_, ?_⟩
  · rw [hproc] at hj
    obtain ⟨hreq', howner', hstage', hclear'⟩ := h.queues.numbers j r' hj
    refine ⟨by rw [hreqs, hreq'], by rw [← hs', ← howner'], ?_, ?_⟩
    · intro hd
      rw [hbdisk, update_apply] at hd
      split at hd
      · cases hd
      rename_i hb
      have hold := hstage' hd
      rw [hstages] at hold
      rcases List.mem_cons.mp hold with he | hold
      · -- the same first descriptor, so the same request
        have hji : j = i := h.descs.disjoint j i r' r r'.head hj hpc (head_mem r') (he ▸ head_mem r)
        rw [hji, hpc] at hj
        exact absurd (congrArg DiskReq.b (DiskPc.wait.inj hj).symm) hb
      · exact hold
    · intro hd
      rw [hclears]
      by_cases hji : j = i
      · rw [hji, hpc] at hj
        rw [← DiskPc.wait.inj hj]
        exact List.mem_append_right _ List.mem_cons_self
      · rw [hbdisk, update_of_ne (h.descs.buf_ne hpc hj hji)] at hd
        exact List.mem_append_left _ (hclear' hd)
  · have hold : k ∈ s.stages := by
      rw [hstages]
      exact List.mem_cons_of_mem _ hk
    obtain ⟨j, r', hj, he, hd⟩ := h.queues.stage k hold
    have hji : j ≠ i := by
      intro he'
      rw [he', hpc] at hj
      rw [← DiskPc.wait.inj hj] at he
      exact hnotin (he ▸ hk)
    refine ⟨j, r', by rw [hproc, hj], he, ?_⟩
    rw [hbdisk, update_of_ne (h.descs.buf_ne hpc hj hji), hd]
  · rw [hlist]
    exact h.queues.nodup
  · rw [hlist, ← hs']
    exact h.queues.below
  · have hcomp := h.queues.completions
    rw [hnext, List.map_cons, hreq] at hcomp
    rw [hclears, hreqs, List.append_assoc, ← hs']
    exact hcomp
  · intro q hq
    rw [hclears]
    rw [← hs'] at hq
    exact List.mem_append_left _ (h.queues.finished q hq)
  · rw [← hs']
    exact h.queues.account

omit [DecidableEq ι] in
/-- **The device takes a chain.** -/
theorem Inv.fetch (h : s.Inv) (hne : s.seen ≠ s.disk.avail.idx) :
    ({ s with working := s.working ++ [s.disk.avail.get s.seen], seen := s.seen + 1 } : DiskSys ι).Inv := by
  refine ⟨h.descs.congr (fun _ => rfl) rfl (fun _ => rfl) rfl,
    h.queues.congr (fun _ _ => Iff.rfl) ?_ rfl rfl rfl rfl rfl rfl rfl rfl⟩
  show _ ++ (s.working ++ [s.disk.avail.get s.seen]) ++ s.disk.avail.since (s.seen + 1) = _
  rw [stages, Virtq.since_next _ _ hne, List.append_assoc, List.append_assoc, List.append_assoc]
  rfl

omit [DecidableEq ι] in
/-- The status goes where the driver has put it. -/
theorem writeStatus_keeps (d : VirtioDisk) (k : Nat) (st : UInt8) :
    (d.writeStatus k st).table = d.table ∧ (d.writeStatus k st).avail = d.avail ∧ (d.writeStatus k st).used = d.used
      ∧ (d.writeStatus k st).used_idx = d.used_idx ∧ ∀ j, ((d.writeStatus k st).info j).b = (d.info j).b := by
  unfold VirtioDisk.writeStatus
  dsimp only
  split
  · refine ⟨rfl, rfl, rfl, rfl, fun j => ?_⟩
    rename_i m _
    show (update d.info m _ j).b = _
    by_cases hj : j = m
    · rw [hj, update_self]
    · rw [update_of_ne hj]
  · exact ⟨rfl, rfl, rfl, rfl, fun _ => rfl⟩

omit [DecidableEq ι] in
/-- **The device finishes a chain.** -/
theorem Inv.complete (h : s.Inv) {k : Nat} {st : UInt8} (hk : k ∈ s.working) :
    ({ s with
      disk := { s.disk.writeStatus k st with used := (s.disk.writeStatus k st).used.put k }
      working := s.working.erase k
      completions := s.completions ++ [s.req k] } : DiskSys ι).Inv := by
  obtain ⟨htable, havail, hused, hidx, hinfo⟩ := writeStatus_keeps s.disk k st
  generalize hs' : ({ s with
      disk := { s.disk.writeStatus k st with used := (s.disk.writeStatus k st).used.put k }
      working := s.working.erase k
      completions := s.completions ++ [s.req k] } : DiskSys ι) = s'
  have hroom : (s.disk.used.since s.disk.used_idx).length < 8 := by
    have hle := length_le h.queues.stages_nodup h.stages_lt
    have hpos : 0 < s.working.length := List.length_pos_of_mem hk
    rw [stages_length] at hle
    simp only [NUM] at hle
    omega
  have hqueue : s'.disk.used.since s'.disk.used_idx = s.disk.used.since s.disk.used_idx ++ [k] := by
    rw [← hs']
    show ((s.disk.writeStatus k st).used.put k).since (s.disk.writeStatus k st).used_idx = _
    rw [hused, hidx, Virtq.since_put _ _ _ hroom]
  have hperm : s'.stages.Perm s.stages := by
    unfold stages
    rw [hqueue]
    have hwork : s'.working = s.working.erase k := by rw [← hs']
    have hav : s'.disk.avail.since s'.seen = s.disk.avail.since s.seen := by
      rw [← hs']
      show (s.disk.writeStatus k st).avail.since s.seen = _
      rw [havail]
    rw [hwork, hav, List.append_assoc _ [k]]
    exact ((List.perm_cons_erase hk).symm.append_left _).append_right _
  have hproc : s'.proc = s.proc := by rw [← hs']
  have hreqs : s'.req = s.req := by rw [← hs']
  have hclears : s'.clears = s.clears := by rw [← hs']
  have hbdisk : s'.bdisk = s.bdisk := by rw [← hs']
  have hlist : (s'.clears ++ s'.stages.map s'.req).Perm (s.clears ++ s.stages.map s.req) := by
    rw [hclears, hreqs]
    exact (hperm.map s.req).append_left _
  refine ⟨h.descs.congr (fun j => by rw [hproc]) (by rw [← hs']; exact htable) (fun j => by rw [← hs']; exact hinfo j)
    (by rw [← hs']), fun j r hj => ?_, fun m hm => ?_, hlist.nodup_iff.mpr h.queues.nodup, fun q hq => ?_, ?_, ?_, ?_⟩
  · rw [hproc] at hj
    obtain ⟨hreq, howner, hstage, hclear⟩ := h.queues.numbers j r hj
    rw [hreqs, hbdisk, hclears]
    exact ⟨hreq, by rw [← hs']; exact howner, fun hd => hperm.mem_iff.mpr (hstage hd), hclear⟩
  · rw [hproc, hbdisk]
    exact h.queues.stage m (hperm.mem_iff.mp hm)
  · rw [← hs']
    exact h.queues.below q (hlist.mem_iff.mp hq)
  · rw [hqueue, hclears, hreqs, List.map_append, ← List.append_assoc, ← h.queues.completions, ← hs']
    rfl
  · rw [← hs']
    exact h.queues.finished
  · rw [← hs']
    exact h.queues.account

/-! ## §6. Runs. -/

/-- **One step** keeps the invariant, and fails only where it should. -/
theorem Inv.step (h : s.Inv) (c : DiskStep ι) : (∃ s', s.step c = .ok s' ∧ s'.Inv) ∨ s.step c = .error .disabled
      ∨ s.step c = .error (.panic "virtio_disk_intr status") := by
  cases c with
  | acquiresleep i b =>
    by_cases hc : (s.proc i).pc = .idle ∧ s.lock b = none
    · exact .inl ⟨_, if_pos hc, h.acquiresleep hc.2⟩
    · exact .inr (.inl (if_neg hc))
  | releasesleep i b =>
    by_cases hc : (s.proc i).pc = .idle ∧ s.lock b = some i
    · exact .inl ⟨_, if_pos hc, h.releasesleep hc.1 hc.2⟩
    · exact .inr (.inl (if_neg hc))
  | virtio_disk_rw i b n w =>
    by_cases hc : (s.proc i).pc = .idle ∧ s.lock b = some i
    · exact .inl ⟨_, if_pos hc, h.virtio_disk_rw hc.1 hc.2⟩
    · exact .inr (.inl (if_neg hc))
  | run i =>
    by_cases hc : s.intr = false ∧ (s.proc i).chan = none
    · simp only [DiskSys.step, if_pos hc]
      cases hpc : (s.proc i).pc with
      | idle => exact .inr (.inl rfl)
      | alloc b n w => exact .inl (h.tryAlloc hpc)
      | wait r => exact .inl (h.tryFinish hpc)
    · exact .inr (.inl (if_neg hc))
  | virtio_disk_intr =>
    by_cases hc : s.intr = false
    · exact .inl ⟨_, if_pos hc, h.congr (fun _ => rfl) rfl⟩
    · exact .inr (.inl (if_neg hc))
  | intrNext =>
    by_cases hc : s.intr = true ∧ s.disk.used_idx ≠ s.disk.used.idx
    · simp only [DiskSys.step, if_pos hc]
      split
      · exact .inr (.inr rfl)
      · obtain ⟨i, r, hi, hhead, -, hinfo⟩ := h.used_next hc.2
        rw [hinfo]
        exact .inl ⟨_, rfl, (h.intrNext hc.2 hi hhead).wakeup _⟩
    · exact .inr (.inl (if_neg hc))
  | intrEnd =>
    by_cases hc : s.intr = true ∧ s.disk.used_idx = s.disk.used.idx
    · exact .inl ⟨_, if_pos hc, h.congr (fun _ => rfl) rfl⟩
    · exact .inr (.inl (if_neg hc))
  | fetch =>
    by_cases hc : s.seen ≠ s.disk.avail.idx
    · exact .inl ⟨_, if_pos hc, h.fetch hc⟩
    · exact .inr (.inl (if_neg hc))
  | complete k st =>
    by_cases hc : k ∈ s.working
    · exact .inl ⟨_, if_pos hc, h.complete hc⟩
    · exact .inr (.inl (if_neg hc))
  | kill i => exact .inl ⟨_, rfl, h.setChan rfl⟩

omit [DecidableEq ι] in
theorem Init.inv (h : s.Init) : s.Inv := by
  obtain ⟨hfree, havail, hused, hidx, hpc, hseen, hwork, hnreq, hcomp, hclears, hfin⟩ := h
  have hnone : ∀ i r, (s.proc i).pc ≠ .wait r := fun i r hi => by rw [hpc] at hi; cases hi
  have hemp : s.disk.used.since s.disk.used_idx = [] := Virtq.since_self (by rw [hidx, hused])
  have hstages : s.stages = [] := by
    rw [stages, hemp, hwork, Virtq.since_self (by rw [hseen, havail])]
    rfl
  refine ⟨⟨fun i r hi => absurd hi (hnone i r), fun i _ r _ _ hi => absurd hi (hnone i r), fun k hk hf => ?_,
    fun i b n w hi => ?_⟩, fun i r hi => absurd hi (hnone i r), fun k hk => ?_, ?_, fun q hq => ?_, ?_, fun q hq => ?_,
    fun q hq => ?_⟩
  · rw [hfree k hk] at hf
    cases hf
  · rw [hpc] at hi
    cases hi
  · rw [hstages] at hk
    exact absurd hk List.not_mem_nil
  · rw [hclears, hstages]
    exact List.nodup_nil
  · rw [hclears, hstages] at hq
    exact absurd hq List.not_mem_nil
  · rw [hcomp, hclears, hemp]
    rfl
  · rw [hfin] at hq
    exact absurd hq List.not_mem_nil
  · rw [hnreq] at hq
    exact absurd hq (Nat.not_lt_zero q)

omit [DecidableEq ι] in
theorem mem_chain {k : Nat} : k ∈ s.chain i ↔ ∃ r, (s.proc i).pc = .wait r ∧ k ∈ r.descs := by
  unfold chain
  cases hpc : (s.proc i).pc with
  | wait r => exact ⟨fun hk => ⟨r, rfl, hk⟩, fun ⟨r', hr, hk⟩ => DiskPc.wait.inj hr ▸ hk⟩
  | idle | alloc b n w => exact ⟨fun hk => absurd hk List.not_mem_nil, fun ⟨_, hr, _⟩ => nomatch hr⟩

theorem Inv.tracked (h : s.Inv) : s.Tracked := by
  refine ⟨fun k hk => ?_, fun i => ?_, ?_, (List.nodup_append.mp h.queues.nodup).1, fun i r hi => ?_, fun q hq => ?_,
    fun t w halloc => ?_, fun i r hi => ?_, fun c f hf => ?_⟩
  · cases hfree : s.disk.table.free k with
    | true =>
      refine .inl ⟨rfl, fun i hi => ?_⟩
      obtain ⟨r, hr, hmem⟩ := mem_chain.mp hi
      have := ((h.descs.linked i r hr).1.taken k hmem).2
      rw [hfree] at this
      cases this
    | false =>
      obtain ⟨i, r, hi, hmem⟩ := h.descs.covered k hk hfree
      refine .inr ⟨rfl, i, mem_chain.mpr ⟨r, hi, hmem⟩, fun j hj => ?_⟩
      obtain ⟨r', hr', hmem'⟩ := mem_chain.mp hj
      exact h.descs.disjoint j i r' r k hr' hi hmem' hmem
  · cases hpc : (s.proc i).pc with
    | wait r =>
      have hlinked := (h.descs.linked i r hpc).1
      have hchain : s.chain i = r.descs := by
        unfold chain
        rw [hpc]
      rw [hchain]
      exact ⟨hlinked.nodup, fun k hk => (hlinked.taken k hk).1⟩
    | _ =>
      have hchain : s.chain i = [] := by
        unfold chain
        rw [hpc]
      rw [hchain]
      exact ⟨List.nodup_nil, fun k hk => absurd hk List.not_mem_nil⟩
  · rw [h.queues.completions]
    exact List.prefix_append ..
  · obtain ⟨hreq, -, hstage, hclear⟩ := h.queues.numbers i r hi
    refine ⟨hclear, fun hmem => ?_⟩
    by_contra hb
    have hin := hstage (by simpa using hb)
    -- a request on its way has another number than those cleared
    exact (List.nodup_append.mp h.queues.nodup).2.2 r.num hmem r.num
      (List.mem_map.mpr ⟨r.head, hin, hreq⟩) rfl
  · rcases h.queues.account q hq with hwait | hdone
    · exact .inl hwait
    · exact .inr ⟨hdone, h.queues.finished q hdone⟩
  · rcases alloc3_desc_spec s.disk.table with ⟨t', w', halloc', hsame⟩ | ⟨x, y, z, free, halloc', -⟩
    · rw [halloc'] at halloc
      cases halloc
      exact hsame.free
    · rw [halloc'] at halloc
      cases halloc
  · obtain ⟨t, hfree, hset, -⟩ := free_chain_spec (h.descs.linked i r hi).1
    exact ⟨t, hfree, hset⟩
  · rcases h.step c with ⟨s', hs', -⟩ | hdis | hpanic
    · rw [hs'] at hf
      cases hf
    · rw [hdis] at hf
      exact .inl (Except.error.inj hf).symm
    · rw [hpanic] at hf
      exact .inr (Except.error.inj hf).symm

/-- **Requests are tracked**, in every interleaving with the device and however long the run. -/
theorem request_tracking (h : s.Reachable) : s.Tracked := by
  have hinv : s.Inv := h.invariant (fun s hs => hs.inv) fun s c s' hs _ hrun => by
    rcases hs.step c with ⟨s'', hs'', hinv⟩ | hdis | hpanic
    · rw [hs''] at hrun
      exact Except.ok.inj hrun ▸ hinv
    · rw [hdis] at hrun
      cases hrun
    · rw [hpanic] at hrun
      cases hrun
  exact hinv.tracked

/-- Two requests of two processes are finished in the other order, and a third has to wait for descriptors. -/
theorem request_tracking_overlap : ∃ s : DiskSys (Fin 3), s.Reachable
      ∧ (s.completions = [1, 0] ∧ s.clears = [1] ∧ s.finished = [1] ∧ (s.proc 2).pc = .alloc 7 9 true
        ∧ (s.proc 2).chan = none) ∧ s.Tracked := by
  have hinit : Init (⟨⟨⟨fun _ => ⟨.null, 0, 0, 0⟩, fun _ => true⟩, ⟨0, fun _ => 0⟩, ⟨0, fun _ => 0⟩, 0, fun _ => ⟨none, 0⟩,
      fun _ => ⟨false, 0⟩⟩, fun _ => false, fun _ => none, fun _ => ⟨.idle, none⟩, false, 0, [], 0, fun _ => 0,
      fun _ => 0, [], [], []⟩ : DiskSys (Fin 3)) :=
    ⟨fun _ _ => rfl, rfl, rfl, rfl, fun _ => rfl, rfl, rfl, rfl, rfl, rfl, rfl⟩
  obtain ⟨s, hs, hend⟩ : ∃ s : DiskSys (Fin 3), s.Reachable ∧ decide (s.completions = [1, 0] ∧ s.clears = [1]
      ∧ s.finished = [1] ∧ (s.proc 2).pc = .alloc 7 9 true ∧ (s.proc 2).chan = none) = true :=
    Lib.Reach.of_reaches
      [.acquiresleep 0 5, .virtio_disk_rw 0 5 1 false, .run 0, .acquiresleep 1 6, .virtio_disk_rw 1 6 2 true, .run 1,
        .acquiresleep 2 7, .virtio_disk_rw 2 7 9 true, .run 2, .fetch, .fetch, .complete 3 0, .virtio_disk_intr,
        .intrNext, .intrEnd, .complete 0 0, .run 1]
      _ hinit (by decide +kernel)
  exact ⟨s, hs, decide_eq_true_eq.mp hend, request_tracking hs⟩

end Xv6.DiskSys
