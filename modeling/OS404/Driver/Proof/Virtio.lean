import OS404.Driver.Proof.Descriptor
import OS404.Lib.Ring
import OS404.Lib.Run
import Mathlib.Data.List.Nodup
import Mathlib.Data.List.Pairwise
import Mathlib.Data.List.Perm.Subperm

/-!
# The virtio ring protocol

`DiskSystem.Ok s Q U`: the descriptors in use are those of the requests that have not resumed, and
each request is in one place: in the available ring (`Q`), with the device, in the used ring (`U`),
or handled and about to resume. Every step keeps this (`Ok.rw`, `Ok.take`, `Ok.complete`,
`Ok.handle`, `Ok.resume`) as long as no buffer is submitted twice, and under it no step faults.

* `ring_protocol`: the ownership of the descriptors, and what the interrupt handler consumes.
-/

namespace Driver

open Lib (RingHolds)

/-! ## The invariant -/

namespace DiskSystem

variable {s s' : DiskSystem} {Q U : List Nat} {r r' : Request} {buf blockNo i : Nat} {w : Bool}

/-- The descriptors of the requests that have not resumed. -/
def inUse (s : DiskSystem) : List Nat := s.requests.flatMap Request.descs

/-- The heads that the device has taken. -/
def heads (s : DiskSystem) : List Nat := s.taken.map Prod.fst

/-- The invariant (module doc). -/
structure Ok (s : DiskSystem) (Q U : List Nat) : Prop where
  nodup : s.inUse.Nodup
  lt : ∀ i ∈ s.inUse, i < queueSize
  free : ∀ i < queueSize, (s.disk.free i = false ↔ i ∈ s.inUse)
  chained : ∀ r ∈ s.requests, s.disk.Chained r
  bufs : (s.requests.map Request.buf).Nodup
  avail : RingHolds queueSize (2 ^ 16) s.disk.avail.ring s.seen s.disk.avail.idx Q
  used : RingHolds queueSize (2 ^ 16) s.disk.used.ring s.disk.usedIdx s.disk.used.idx U
  status : ∀ t ∈ s.taken, t.2 = .status t.1
  out : (Q ++ s.heads ++ U).Nodup
  sub : ∀ i ∈ Q ++ s.heads ++ U, ∃ r ∈ s.requests, r.i₀ = i
  waits : ∀ r ∈ s.requests, (s.disk.bufDisk r.buf = true ↔ r.i₀ ∈ Q ++ s.heads ++ U)
  completed : ∀ r ∈ s.requests, (r.completed = true ↔ r.i₀ ∉ Q ++ s.heads)
  written : ∀ i ∈ U, (s.disk.info i).status = 0
  consumed : s.completed = s.consumed ++ U
  freed : ∀ r ∈ s.freed, r.completed = true

theorem init_ok : Ok init [] [] where
  nodup := List.nodup_nil
  lt := by simp [inUse, init]
  free := by simp [inUse, init, VirtDisk.init]
  chained := by simp [init]
  bufs := List.nodup_nil
  avail := .nil (by decide)
  used := .nil (by decide)
  status := by simp [init]
  out := List.nodup_nil
  sub := by simp [init, heads]
  waits := by simp [init]
  completed := by simp [init]
  written := by simp
  consumed := rfl
  freed := by simp [init]

theorem mem_inUse (hr : r ∈ s.requests) (hi : i ∈ r.descs) : i ∈ s.inUse :=
  List.mem_flatMap.2 ⟨r, hr, hi⟩

theorem head_mem_descs (r : Request) : r.i₀ ∈ r.descs := List.mem_cons_self

namespace Ok

theorem descs_nodup (h : Ok s Q U) (hr : r ∈ s.requests) : r.descs.Nodup :=
  (List.nodup_flatMap.1 h.nodup).1 r hr

theorem descs_disjoint (h : Ok s Q U) (hr : r ∈ s.requests) (hr' : r' ∈ s.requests) (hne : r ≠ r') :
    r.descs.Disjoint r'.descs := by
  have hsymm : Std.Symm (Function.onFun List.Disjoint Request.descs) := ⟨fun _ _ hd _ hi hi' => hd hi' hi⟩
  exact (List.nodup_flatMap.1 h.nodup).2.forall hr hr' hne

theorem head_inj (h : Ok s Q U) (hr : r ∈ s.requests) (hr' : r' ∈ s.requests) (he : r.i₀ = r'.i₀) :
    r = r' := by
  by_contra hne
  exact h.descs_disjoint hr hr' hne (head_mem_descs r) (he ▸ head_mem_descs r')

theorem buf_inj (h : Ok s Q U) (hr : r ∈ s.requests) (hr' : r' ∈ s.requests) (he : r.buf = r'.buf) :
    r = r' :=
  List.inj_on_of_nodup_map h.bufs hr hr' he

theorem in_use (h : Ok s Q U) (hr : r ∈ s.requests) (hi : i ∈ r.descs) : s.disk.free i = false :=
  (h.free i (h.lt i (mem_inUse hr hi))).2 (mem_inUse hr hi)

/-- A descriptor that is free belongs to no request. -/
theorem fresh (h : Ok s Q U) (hi : s.disk.free i = true) : i ∉ s.inUse := by
  intro hmem
  rw [(h.free i (h.lt i hmem)).2 hmem] at hi
  cases hi

/-- A head on its way belongs to a request. -/
theorem out_mem (h : Ok s Q U) (hi : i ∈ Q ++ s.heads ++ U) : i ∈ s.inUse := by
  obtain ⟨r, hr, rfl⟩ := h.sub i hi
  exact mem_inUse hr (head_mem_descs r)

theorem out_length (h : Ok s Q U) : (Q ++ s.heads ++ U).length ≤ queueSize := by
  have hsub : (Q ++ s.heads ++ U).Subperm (List.range queueSize) :=
    List.Nodup.subperm h.out fun i hi => List.mem_range.2 (h.lt i (h.out_mem hi))
  simpa using List.Subperm.length_le hsub

/-- There is a free descriptor, so the rings have room for one more head. -/
theorem room (h : Ok s Q U) (hi : i < queueSize) (hf : s.disk.free i = true) :
    (Q ++ s.heads ++ U).length < queueSize := by
  have hnew : i ∉ Q ++ s.heads ++ U := fun hmem => h.fresh hf (h.out_mem hmem)
  have hsub : (i :: (Q ++ s.heads ++ U)).Subperm (List.range queueSize) := by
    refine List.Nodup.subperm (List.nodup_cons.2 ⟨hnew, h.out⟩) fun j hj => List.mem_range.2 ?_
    obtain rfl | hj := List.mem_cons.1 hj
    · exact hi
    · exact h.lt j (h.out_mem hj)
  have hlen := List.Subperm.length_le hsub
  rw [List.length_cons, List.length_range] at hlen
  exact hlen

/-! ## Steps -/

/-- A failed `alloc_descs` clears only descriptors that are free. -/
theorem retry (h : Ok s Q U) {desc : Nat → VirtqDesc}
    (hdesc : ∀ i, s.disk.free i = false → desc i = s.disk.desc i) :
    Ok { s with disk := { s.disk with desc } } Q U where
  nodup := h.nodup
  lt := h.lt
  free := h.free
  chained r hr := (h.chained r hr).congr (fun i hi => hdesc i (h.in_use hr hi)) rfl
  bufs := h.bufs
  avail := h.avail
  used := h.used
  status := h.status
  out := h.out
  sub := h.sub
  waits := h.waits
  completed := h.completed
  written := h.written
  consumed := h.consumed
  freed := h.freed

/-- The state after `r` was submitted. -/
def submitted (s : DiskSystem) (r : Request) (blockNo : Nat) (w : Bool) : DiskSystem :=
  { s with disk := s.disk.submitted r blockNo w, requests := s.requests ++ [r] }

theorem submit (h : Ok s Q U) (hL : s.disk.Lendable r.descs) (hc : r.completed = false)
    (hbuf : ∀ r' ∈ s.requests, r'.buf ≠ r.buf) :
    Ok (submitted s r blockNo w) (Q ++ [r.i₀]) U := by
  have hnew : ∀ i ∈ r.descs, i ∉ s.inUse := fun i hi => h.fresh (hL.free i hi)
  have hout : r.i₀ ∉ Q ++ s.heads ++ U := fun hmem =>
    hnew _ (head_mem_descs r) (h.out_mem hmem)
  have hother : ∀ r' ∈ s.requests, r'.i₀ ≠ r.i₀ := fun r' hr' he =>
    hnew _ (head_mem_descs r) (he ▸ mem_inUse hr' (head_mem_descs r'))
  have hmem : ∀ i, i ∈ Q ++ [r.i₀] ++ s.heads ++ U ↔ i = r.i₀ ∨ i ∈ Q ++ s.heads ++ U := by
    intro i
    simp only [List.mem_append, List.mem_singleton]
    tauto
  have huse : (submitted s r blockNo w).inUse = s.inUse ++ r.descs := by
    simp [inUse, submitted]
  have hreq : ∀ {p : Request → Prop}, (∀ r' ∈ s.requests, p r') → p r →
      ∀ r' ∈ s.requests ++ [r], p r' := by
    intro p hold hr r' hr'
    obtain hr' | hr' := List.mem_append.1 hr'
    · exact hold r' hr'
    · rw [List.mem_singleton.1 hr']
      exact hr
  refine
    { nodup := ?_, lt := ?_, free := ?_, chained := hreq ?_ ?_, bufs := ?_, avail := ?_,
      used := h.used, status := h.status, out := ?_, sub := ?_, waits := hreq ?_ ?_,
      completed := hreq ?_ ?_, written := ?_, consumed := h.consumed, freed := h.freed }
  · rw [huse]
    exact h.nodup.append hL.nodup fun i hi hi' => hnew i hi' hi
  · rw [huse]
    intro i hi
    obtain hi | hi := List.mem_append.1 hi
    · exact h.lt i hi
    · exact hL.lt i hi
  · intro i hi
    rw [huse, List.mem_append, ← h.free i hi, ← Bool.not_eq_true, ← Bool.not_eq_true]
    have hfree : (submitted s r blockNo w).disk.free i = true ↔ s.disk.free i = true ∧ i ∉ r.descs :=
      VirtDisk.lend_free
    rw [hfree]
    tauto
  · intro r' hr'
    refine (h.chained r' hr').congr (fun i hi => ?_) ?_
    · exact VirtDisk.submitted_desc fun hi' => hnew i hi' (mem_inUse hr' hi)
    · exact congrArg Info.buf (VirtDisk.submitted_info (hother r' hr'))
  · exact VirtDisk.submitted_chained hL.nodup
  · have hbufs : (submitted s r blockNo w).requests.map Request.buf =
        s.requests.map Request.buf ++ [r.buf] := by simp [submitted]
    rw [hbufs]
    refine h.bufs.append (List.nodup_singleton _) fun b hb hb' => ?_
    obtain ⟨r', hr', rfl⟩ := List.mem_map.1 hb
    exact hbuf r' hr' (List.mem_singleton.1 hb')
  · have hroom := h.room (hL.lt _ (head_mem_descs r)) (hL.free _ (head_mem_descs r))
    rw [List.length_append, List.length_append] at hroom
    exact h.avail.push (by decide) (by omega) r.i₀
  · have hperm : (Q ++ [r.i₀] ++ s.heads ++ U).Perm (r.i₀ :: (Q ++ s.heads ++ U)) := by
      simp
    exact hperm.nodup_iff.2 (List.nodup_cons.2 ⟨hout, h.out⟩)
  · intro i hi
    obtain rfl | hi := (hmem i).1 hi
    · exact ⟨r, List.mem_append_right _ (List.mem_singleton_self r), rfl⟩
    · obtain ⟨r', hr', he⟩ := h.sub i hi
      exact ⟨r', List.mem_append_left _ hr', he⟩
  · intro r' hr'
    have hb : (submitted s r blockNo w).disk.bufDisk r'.buf = s.disk.bufDisk r'.buf :=
      Function.update_of_ne (hbuf r' hr') ..
    rw [hb, h.waits r' hr']
    exact ((hmem r'.i₀).trans (or_iff_right (hother r' hr'))).symm
  · have hb : (submitted s r blockNo w).disk.bufDisk r.buf = true := Function.update_self ..
    exact iff_of_true hb ((hmem r.i₀).2 (.inl rfl))
  · intro r' hr'
    rw [h.completed r' hr']
    have hne := hother r' hr'
    change r'.i₀ ∉ Q ++ s.heads ↔ r'.i₀ ∉ Q ++ [r.i₀] ++ s.heads
    simp only [List.mem_append, List.mem_singleton]
    tauto
  · change r.completed = true ↔ r.i₀ ∉ Q ++ [r.i₀] ++ s.heads
    simp [hc]
  · intro i hi
    have hne : i ≠ r.i₀ := fun he => hout (he ▸ List.mem_append_right _ hi)
    have hinfo : (submitted s r blockNo w).disk.info i = s.disk.info i :=
      VirtDisk.submitted_info hne
    rw [hinfo]
    exact h.written i hi

/-- The device takes the oldest head of the available ring. -/
theorem take (h : Ok s (i :: Q) U) :
    s.take = some { s with
        seen := (s.seen + 1) % 2 ^ 16
        taken := s.taken ++ [(i, .status i)] } ∧
      Ok { s with seen := (s.seen + 1) % 2 ^ 16, taken := s.taken ++ [(i, .status i)] } Q U := by
  have hne : s.seen ≠ s.disk.avail.idx := fun he => by
    have := (h.avail.eq_iff (by decide)).1 he
    cases this
  obtain ⟨r, hr, rfl⟩ := h.sub i (by simp)
  have hhead := h.avail.head
  have hstatus := (h.chained r hr).statusAddr
  -- The head moves from the front of the available ring to the device's list.
  have hperm : (Q ++ (s.heads ++ [r.i₀])).Perm (r.i₀ :: Q ++ s.heads) := by
    rw [← List.append_assoc]
    exact List.perm_append_singleton _ _
  have hheads : ∀ seen, heads { s with seen, taken := s.taken ++ [(r.i₀, .status r.i₀)] } =
      s.heads ++ [r.i₀] := by simp [heads]
  refine ⟨?_, ?_⟩
  · unfold DiskSystem.take
    rw [if_neg hne]
    dsimp only
    rw [hhead, hstatus]
  · refine
      { nodup := h.nodup, lt := h.lt, free := h.free, chained := h.chained, bufs := h.bufs,
        avail := h.avail.pop (by decide) (by decide), used := h.used, status := ?_, out := ?_,
        sub := ?_, waits := ?_, completed := ?_, written := h.written, consumed := h.consumed,
        freed := h.freed }
    · intro t ht
      obtain ht | ht := List.mem_append.1 ht
      · exact h.status t ht
      · rw [List.mem_singleton.1 ht]
    · rw [hheads]
      exact (hperm.append_right U).nodup_iff.2 h.out
    · rw [hheads]
      exact fun j hj => h.sub j ((hperm.append_right U).mem_iff.1 hj)
    · rw [hheads]
      exact fun r' hr' => (h.waits r' hr').trans (hperm.append_right U).mem_iff.symm
    · rw [hheads]
      exact fun r' hr' => (h.completed r' hr').trans (not_congr hperm.mem_iff.symm)

/-- The requests after the device completed head `i`. -/
def mark (i : Nat) (r : Request) : Request := if r.i₀ = i then { r with completed := true } else r

theorem mark_same (i : Nat) (r : Request) :
    (mark i r).descs = r.descs ∧ (mark i r).i₀ = r.i₀ ∧ (mark i r).buf = r.buf := by
  unfold mark
  split <;> exact ⟨rfl, rfl, rfl⟩

theorem mark_chained {d : VirtDisk} (h : d.Chained r) : d.Chained (mark i r) := by
  unfold mark
  split
  · exact ⟨h.head, h.data, h.last, h.buf⟩
  · exact h

/-- The device completes a head that it has taken. -/
theorem complete (h : Ok s Q U) (hi : i ∈ s.heads) :
    ∃ s', s.complete i = some s' ∧ Ok s' Q (U ++ [i]) := by
  obtain ⟨t, hfind⟩ : ∃ t, s.taken.find? (·.1 == i) = some t := by
    obtain ⟨t, ht, rfl⟩ := List.mem_map.1 hi
    exact Option.isSome_iff_exists.1 (List.find?_isSome.2 ⟨t, ht, beq_self_eq_true _⟩)
  have ht := List.mem_of_find?_eq_some hfind
  have hti : t.1 = i := eq_of_beq (List.find?_some (p := fun t : Nat × DescAddr => t.1 == i) hfind)
  obtain ⟨r, hr, hri⟩ := h.sub i (by simp [hi])
  -- The head moves from the device's list to the end of the used ring.
  have hheads : s.heads.Perm (i :: (s.taken.erase t).map Prod.fst) := by
    have := (List.perm_cons_erase ht).map Prod.fst
    rwa [List.map_cons, hti] at this
  have hperm : (Q ++ (s.taken.erase t).map Prod.fst ++ (U ++ [i])).Perm (Q ++ s.heads ++ U) := by
    refine List.Perm.symm (((hheads.append_left Q).append_right U).trans ?_)
    simp only [List.append_assoc]
    refine List.Perm.append_left Q ?_
    rw [← List.append_assoc, List.cons_append]
    exact (List.perm_append_singleton _ _).symm
  have hrest : ∀ j, j ∈ Q ++ s.heads ↔ j = i ∨ j ∈ Q ++ (s.taken.erase t).map Prod.fst := by
    intro j
    rw [List.mem_append, hheads.mem_iff, List.mem_cons, List.mem_append]
    tauto
  have hgone : i ∉ Q ++ (s.taken.erase t).map Prod.fst := by
    have hnd := hperm.nodup_iff.2 h.out
    intro hmem
    exact (List.nodup_append.1 hnd).2.2 i hmem i (by simp) rfl
  refine ⟨_, by unfold DiskSystem.complete; rw [hfind], ?_⟩
  have huse : ∀ {s' : DiskSystem}, s'.requests = s.requests.map (mark i) → s'.inUse = s.inUse := by
    intro s' hs'
    unfold inUse
    rw [hs', List.flatMap_map]
    exact List.flatMap_congr fun r' _ => (mark_same i r').1
  have hreq : ∀ {p : Request → Prop}, (∀ r' ∈ s.requests, p (mark i r')) →
      ∀ r' ∈ s.requests.map (mark i), p r' := by
    intro p hp r' hr'
    obtain ⟨r'', hr'', rfl⟩ := List.mem_map.1 hr'
    exact hp r'' hr''
  have hstat := h.status t ht
  rw [hti] at hstat
  have hinfo : ∀ j, ((s.disk.complete i t.2).info j).buf = (s.disk.info j).buf := by
    intro j
    rw [hstat]
    unfold VirtDisk.complete
    dsimp only
    by_cases hj : j = i
    · rw [hj, Function.update_self]
    · rw [Function.update_of_ne hj]
  refine
    { nodup := ?_, lt := ?_, free := ?_, chained := hreq ?_, bufs := ?_, avail := h.avail,
      used := ?_, status := ?_, out := hperm.nodup_iff.2 h.out, sub := ?_, waits := hreq ?_,
      completed := hreq ?_, written := ?_, consumed := ?_, freed := h.freed }
  · rw [huse rfl]
    exact h.nodup
  · rw [huse rfl]
    exact h.lt
  · rw [huse rfl]
    exact h.free
  · intro r' hr'
    exact mark_chained ((h.chained r' hr').congr (fun _ _ => rfl) (hinfo _))
  · have hbufs : (s.requests.map (mark i)).map Request.buf = s.requests.map Request.buf := by
      rw [List.map_map]
      exact List.map_congr_left fun r' _ => (mark_same i r').2.2
    exact hbufs.symm ▸ h.bufs
  · have hlen := h.out_length
    have hpos : 0 < s.heads.length := List.length_pos_of_mem hi
    rw [List.length_append, List.length_append] at hlen
    exact h.used.push (by decide) (by omega) i
  · exact fun t' ht' => h.status t' (List.mem_of_mem_erase ht')
  · intro j hj
    obtain ⟨r', hr', he⟩ := h.sub j (hperm.mem_iff.1 hj)
    exact ⟨mark i r', List.mem_map_of_mem hr', (mark_same i r').2.1.trans he⟩
  · intro r' hr'
    rw [(mark_same i r').2.1, (mark_same i r').2.2]
    exact (h.waits r' hr').trans hperm.mem_iff.symm
  · intro r' hr'
    rw [(mark_same i r').2.1]
    have hold := h.completed r' hr'
    rw [hrest] at hold
    by_cases he : r'.i₀ = i
    · rw [mark, if_pos he, he]
      exact iff_of_true rfl hgone
    · rw [mark, if_neg he, hold]
      exact not_congr (or_iff_right he)
  · intro j hj
    rw [hstat]
    unfold VirtDisk.complete
    dsimp only
    by_cases hj' : j = i
    · rw [hj', Function.update_self]
    · rw [Function.update_of_ne hj']
      obtain hj | hj := List.mem_append.1 hj
      · exact h.written j hj
      · exact absurd (List.mem_singleton.1 hj) hj'
  · change s.completed ++ [i] = s.consumed ++ (U ++ [i])
    rw [h.consumed, List.append_assoc]

/-- The driver after the interrupt handler handled the request `r`. -/
def handled (d : VirtDisk) (r : Request) : VirtDisk :=
  { d with
    bufDisk := Function.update d.bufDisk r.buf false
    usedIdx := (d.usedIdx + 1) % 2 ^ 16 }

/-- The handler reads the oldest head of the used ring and finds the buffer of its request. -/
theorem handle (h : Ok s Q (i :: U)) :
    ∃ r ∈ s.requests, r.i₀ = i ∧ r.completed = true ∧ s.disk.handle = .ok (i, handled s.disk r) ∧
      Ok { s with disk := handled s.disk r, consumed := s.consumed ++ [i] } Q U := by
  obtain ⟨r, hr, rfl⟩ := h.sub i (by simp)
  have hout : r.i₀ ∉ Q ++ s.heads ++ U ∧ (Q ++ s.heads ++ U).Nodup :=
    List.nodup_cons.1 (List.nodup_middle.1 h.out)
  have hmem : ∀ j, j ∈ Q ++ s.heads ++ r.i₀ :: U ↔ j = r.i₀ ∨ j ∈ Q ++ s.heads ++ U := by
    intro j
    simp only [List.mem_append, List.mem_cons]
    tauto
  refine ⟨r, hr, rfl, ?_, ?_, ?_⟩
  · exact (h.completed r hr).2 fun hq => hout.1 (List.mem_append_left _ hq)
  · unfold VirtDisk.handle
    have hlt := h.lt _ (mem_inUse hr (head_mem_descs r))
    have hstatus := h.written r.i₀ List.mem_cons_self
    rw [h.used.head]
    dsimp only
    rw [if_neg (by omega), if_neg (by rw [hstatus]; decide), (h.chained r hr).buf]
    rfl
  · refine
      { nodup := h.nodup, lt := h.lt, free := h.free, chained := ?_, bufs := h.bufs,
        avail := h.avail, used := h.used.pop (by decide) (by decide), status := h.status,
        out := hout.2, sub := ?_, waits := ?_, completed := h.completed, written := ?_,
        consumed := ?_, freed := h.freed }
    · exact fun r' hr' => (h.chained r' hr').congr (fun _ _ => rfl) rfl
    · exact fun j hj => h.sub j ((hmem j).2 (.inr hj))
    · intro r' hr'
      change Function.update s.disk.bufDisk r.buf false r'.buf = true ↔ r'.i₀ ∈ Q ++ s.heads ++ U
      by_cases he : r' = r
      · subst he
        rw [Function.update_self]
        exact iff_of_false (by decide) hout.1
      · rw [Function.update_of_ne fun hb => he (h.buf_inj hr' hr hb), h.waits r' hr', hmem]
        exact or_iff_right fun hb => he (h.head_inj hr' hr hb)
    · exact fun j hj => h.written j (List.mem_cons_of_mem _ hj)
    · change s.completed = s.consumed ++ [r.i₀] ++ U
      rw [h.consumed, List.append_assoc, List.singleton_append]

/-- A requester whose buffer's flag is 0 has its request completed, and frees its own chain. -/
theorem resume (h : Ok s Q U) (hr : r ∈ s.requests) (hw : s.disk.bufDisk r.buf = false) :
    r.completed = true ∧
    s.resume r = .ok { s with
      disk := s.disk.resumed r, requests := s.requests.erase r, freed := s.freed ++ [r] } ∧
    Ok { s with
      disk := s.disk.resumed r, requests := s.requests.erase r, freed := s.freed ++ [r] } Q U := by
  have hout : r.i₀ ∉ Q ++ s.heads ++ U := by
    rw [← h.waits r hr, hw]
    decide
  have hdone : r.completed = true :=
    (h.completed r hr).2 fun hq => hout (List.mem_append_left _ hq)
  have hrun := VirtDisk.rwEnd_ok (h.chained r hr) (h.descs_nodup hr)
    (fun i hi => h.lt i (mem_inUse hr hi)) (fun i hi => h.in_use hr hi)
  have hmem : ∀ r', r' ∈ s.requests.erase r ↔ r' ≠ r ∧ r' ∈ s.requests := fun _ =>
    (List.Nodup.of_map _ h.bufs).mem_erase_iff
  have hperm : s.inUse.Perm (r.descs ++ (s.requests.erase r).flatMap Request.descs) := by
    have := (List.perm_cons_erase hr).flatMap_right Request.descs
    rwa [List.flatMap_cons] at this
  have hnodup := List.nodup_append.1 (hperm.nodup_iff.1 h.nodup)
  have hother : ∀ r' ∈ s.requests.erase r, ∀ i ∈ r'.descs, i ∉ r.descs := by
    intro r' hr' i hi hi'
    exact hnodup.2.2 i hi' i (List.mem_flatMap.2 ⟨r', hr', hi⟩) rfl
  have hreq : ∀ {p : Request → Prop}, (∀ r' ∈ s.requests, p r') →
      ∀ r' ∈ s.requests.erase r, p r' := fun hp r' hr' => hp r' (List.mem_of_mem_erase hr')
  refine ⟨hdone, by unfold DiskSystem.resume; rw [hrun]; rfl, ?_⟩
  refine
    { nodup := hnodup.2.1, lt := ?_, free := ?_, chained := ?_, bufs := ?_, avail := h.avail,
      used := h.used, status := h.status, out := h.out, sub := ?_, waits := hreq h.waits,
      completed := hreq h.completed, written := ?_, consumed := h.consumed, freed := ?_ }
  · exact fun i hi => h.lt i (hperm.mem_iff.2 (List.mem_append_right _ hi))
  · intro i hi
    change (s.disk.free i || decide (i ∈ r.descs)) = false ↔
      i ∈ (s.requests.erase r).flatMap Request.descs
    rw [Bool.or_eq_false_iff, h.free i hi, hperm.mem_iff, List.mem_append, decide_eq_false_iff_not]
    have hdis : i ∈ (s.requests.erase r).flatMap Request.descs → i ∉ r.descs :=
      fun hi' hi'' => hnodup.2.2 i hi'' i hi' rfl
    tauto
  · intro r' hr'
    refine (h.chained r' (List.mem_of_mem_erase hr')).congr (fun i hi => ?_) ?_
    · exact if_neg (hother r' hr' i hi)
    · refine congrArg Info.buf (Function.update_of_ne (fun he => ?_) ..)
      exact hother r' hr' _ (head_mem_descs r') (he ▸ head_mem_descs r)
  · exact h.bufs.sublist (List.erase_sublist.map _)
  · intro i hi
    obtain ⟨r', hr', rfl⟩ := h.sub i hi
    exact ⟨r', (hmem r').2 ⟨fun he => hout (he ▸ hi), hr'⟩, rfl⟩
  · intro i hi
    have hne : i ≠ r.i₀ := fun he => hout (he ▸ List.mem_append_right _ hi)
    change (Function.update s.disk.info r.i₀ _ i).status = 0
    rw [Function.update_of_ne hne]
    exact h.written i hi
  · intro r' hr'
    obtain hr' | hr' := List.mem_append.1 hr'
    · exact h.freed r' hr'
    · rw [List.mem_singleton.1 hr']
      exact hdone

/-- The handler's loop goes on exactly while the used ring has a head for it. -/
theorem used_cases (h : Ok s Q U) :
    (s.disk.usedIdx = s.disk.used.idx ∧ U = []) ∨
      s.disk.usedIdx ≠ s.disk.used.idx ∧ ∃ i U', U = i :: U' := by
  have heq := h.used.eq_iff (by decide)
  cases U with
  | nil => exact .inl ⟨heq.2 rfl, rfl⟩
  | cons i U' => exact .inr ⟨fun he => List.cons_ne_nil _ _ (heq.1 he), i, U', rfl⟩

/-- A run of the handler ends, and has then read every head that the device put into the ring. -/
theorem handler_ends (h : Ok s Q U) {fuel : Nat} (hfuel : U.length < fuel) :
    ∃ d, s.disk.virtioDiskInterruptHandler fuel = .ok d ∧ d.usedIdx = d.used.idx := by
  induction U generalizing s fuel with
  | nil =>
    obtain ⟨fuel, rfl⟩ := Nat.exists_eq_succ_of_ne_zero (Nat.ne_zero_of_lt hfuel)
    have heq := (h.used.eq_iff (by decide)).2 rfl
    exact ⟨s.disk, by rw [VirtDisk.virtioDiskInterruptHandler, if_pos heq], heq⟩
  | cons i U ih =>
    obtain ⟨fuel, rfl⟩ := Nat.exists_eq_succ_of_ne_zero (Nat.ne_zero_of_lt hfuel)
    have hne : s.disk.usedIdx ≠ s.disk.used.idx := fun he =>
      List.cons_ne_nil _ _ ((h.used.eq_iff (by decide)).1 he)
    obtain ⟨r, -, -, -, hrun, hok⟩ := h.handle
    rw [VirtDisk.virtioDiskInterruptHandler, if_neg hne, hrun]
    exact ih hok (Nat.lt_of_succ_lt_succ hfuel)

end Ok

/-! ## Runs -/

theorem take_requests (h : s.take = some s') : s'.requests = s.requests := by
  unfold DiskSystem.take at h
  split at h
  · cases h
  · cases h
    rfl

theorem complete_requests (h : s.complete i = some s') :
    s'.requests = s.requests.map (Ok.mark i) := by
  unfold DiskSystem.complete at h
  split at h
  · cases h
  · cases h
    rfl

theorem interrupt_requests (h : s.interrupt = some (.ok s')) : s'.requests = s.requests := by
  unfold DiskSystem.interrupt at h
  split at h
  · cases h
  · obtain ⟨⟨id, disk⟩, -, hs'⟩ := Res.bind_eq_ok.1 (Option.some.inj h)
    cases hs'
    rfl

/-- A submission is for a buffer that no request waits for. -/
def Alone (s : DiskSystem) (buf : Nat) : Prop := ∀ r ∈ s.requests, r.buf ≠ buf

/-- A requester in front of the wait either submits its request or finds too few descriptors. -/
theorem Ok.rw (h : Ok s Q U) (hbuf : s.Alone buf) (blockNo : Nat) (w : Bool) :
    (∃ r s', s.rw buf blockNo w = .ok (some r, s') ∧ r.buf = buf ∧ r.completed = false ∧
      s'.requests = s.requests ++ [r] ∧ Ok s' (Q ++ [r.i₀]) U) ∨
    ∃ s', s.rw buf blockNo w = .ok (none, s') ∧ s'.requests = s.requests ∧
      s'.disk.free = s.disk.free ∧ Ok s' Q U := by
  unfold DiskSystem.rw
  obtain ⟨r, hrun, rfl, hc, hL⟩ | ⟨desc, hrun, hdesc⟩ := s.disk.rwStart_cases buf blockNo w
  · rw [hrun]
    exact .inl ⟨r, _, rfl, rfl, hc, rfl, h.submit hL hc hbuf⟩
  · rw [hrun]
    refine .inr ⟨_, rfl, List.append_nil _, rfl, ?_⟩
    rw [Option.toList_none, List.append_nil]
    exact h.retry hdesc

/-- The operations of the system in which no two requests share a buffer. -/
def Allowed (s : DiskSystem) : DiskOp → Prop
  | .rw buf _ _ => s.Alone buf
  | _ => True

theorem Ok.step {op : DiskOp} {res : Res DiskSystem} (h : Ok s Q U) (hop : s.Allowed op)
    (hst : s.step op = some res) : ∃ s' Q' U', res = .ok s' ∧ Ok s' Q' U' := by
  cases op with
  | rw buf blockNo w =>
    obtain ⟨r, s', hrun, -, -, -, hok⟩ | ⟨s', hrun, -, -, hok⟩ := h.rw hop blockNo w
    · rw [DiskSystem.step, hrun] at hst
      exact ⟨s', _, _, (Option.some.inj hst).symm, hok⟩
    · rw [DiskSystem.step, hrun] at hst
      exact ⟨s', _, _, (Option.some.inj hst).symm, hok⟩
  | take =>
    cases Q with
    | nil =>
      have heq := (h.avail.eq_iff (by decide)).2 rfl
      rw [DiskSystem.step, DiskSystem.take, if_pos heq] at hst
      cases hst
    | cons i Q =>
      obtain ⟨hrun, hok⟩ := h.take
      rw [DiskSystem.step, hrun] at hst
      exact ⟨_, _, _, (Option.some.inj hst).symm, hok⟩
  | complete i =>
    by_cases hi : i ∈ s.heads
    · obtain ⟨s', hrun, hok⟩ := h.complete hi
      rw [DiskSystem.step, hrun] at hst
      exact ⟨s', _, _, (Option.some.inj hst).symm, hok⟩
    · have hnone : s.taken.find? (·.1 == i) = none := by
        refine List.find?_eq_none.2 fun t ht heq => hi ?_
        exact List.mem_map.2 ⟨t, ht, eq_of_beq heq⟩
      rw [DiskSystem.step, DiskSystem.complete, hnone] at hst
      cases hst
  | interrupt =>
    unfold DiskSystem.step DiskSystem.interrupt at hst
    obtain ⟨heq, -⟩ | ⟨hne, i, U', rfl⟩ := h.used_cases
    · rw [if_pos heq] at hst
      cases hst
    · obtain ⟨r, -, -, -, hrun, hok⟩ := h.handle
      rw [if_neg hne, hrun] at hst
      exact ⟨_, _, _, (Option.some.inj hst).symm, hok⟩
  | resume i =>
    dsimp only [DiskSystem.step] at hst
    cases hr : s.request i with
    | none => rw [hr] at hst; cases hst
    | some r =>
      rw [hr] at hst
      dsimp only at hst
      by_cases hw : s.disk.bufDisk r.buf = true
      · rw [if_pos hw] at hst
        cases hst
      · obtain ⟨-, hrun, hok⟩ := h.resume (List.mem_of_find?_eq_some hr) (Bool.not_eq_true _ ▸ hw)
        rw [if_neg hw, hrun] at hst
        exact ⟨_, _, _, (Option.some.inj hst).symm, hok⟩

theorem Ok.step_ok {op : DiskOp} (h : Ok s Q U) (hop : s.Allowed op)
    (hst : s.step op = some (.ok s')) : ∃ Q' U', Ok s' Q' U' := by
  obtain ⟨s'', Q', U', he, hok⟩ := h.step hop hst
  cases he
  exact ⟨Q', U', hok⟩

/-- A step in which no two requests share a buffer. -/
def Step (s : DiskSystem) (op : DiskOp) (s' : DiskSystem) : Prop :=
  s.Allowed op ∧ s.step op = some (.ok s')

theorem run_ok {ops : List DiskOp} (hrun : Lib.Run Step init ops s) : ∃ Q U, Ok s Q U := by
  refine hrun.invariant (I := fun s => ∃ Q U, Ok s Q U) ⟨_, _, init_ok⟩ ?_
  rintro s op s' ⟨Q, U, h⟩ ⟨hop, hst⟩
  exact h.step_ok hop hst

/-- In every reachable state, with no two requests for one buffer:
* the descriptors with `free` 0 are exactly those of the requests that have not resumed, no two
  requests have one in common, and each request's three are its chain;
* a failed `alloc_descs` leaves `free` as it was;
* the handler has read a first part of the heads that the device put into the used ring, in order,
  and has read all of them exactly when the two indices agree; while they differ, it reads the next
  of them, which is the head of a completed request, finds its buffer in `info`, and clears the flag
  of that buffer only;
* no step panics or leaves the defined behaviour, and the handler's loop ends. -/
theorem ring_protocol {ops : List DiskOp} (hrun : Lib.Run Step init ops s) :
    (s.inUse.Nodup ∧ (∀ i < queueSize, (s.disk.free i = false ↔ ∃ r ∈ s.requests, i ∈ r.descs)) ∧
      ∀ r ∈ s.requests, s.disk.Chained r) ∧
    (∀ d, s.disk.allocDescs = .ok (none, d) → d.free = s.disk.free) ∧
    (s.consumed <+: s.completed ∧
      (s.disk.usedIdx = s.disk.used.idx ↔ s.consumed = s.completed) ∧
      (s.disk.usedIdx ≠ s.disk.used.idx → ∃ r ∈ s.requests, r.completed = true ∧
        s.consumed ++ [r.i₀] <+: s.completed ∧ (s.disk.info r.i₀).buf = some r.buf ∧
        s.disk.handle = .ok (r.i₀, { s.disk with
          bufDisk := Function.update s.disk.bufDisk r.buf false
          usedIdx := (s.disk.usedIdx + 1) % 2 ^ 16 }))) ∧
    (∀ op res, s.Allowed op → s.step op = some res → ∃ s', res = .ok s') ∧
    ∃ fuel d, s.disk.virtioDiskInterruptHandler fuel = .ok d ∧ d.usedIdx = d.used.idx := by
  obtain ⟨Q, U, h⟩ := run_ok hrun
  refine ⟨⟨h.nodup, fun i hi => ?_, h.chained⟩, fun d hd => ?_, ⟨?_, ?_, fun hne => ?_⟩,
    fun op res hop hst => ?_, ?_⟩
  · rw [h.free i hi]
    exact List.mem_flatMap
  · obtain ⟨i₀, i₁, i₂, halloc, -⟩ | ⟨desc, halloc, -⟩ := s.disk.allocDescs_cases
    · rw [halloc] at hd
      cases hd
    · rw [halloc] at hd
      cases hd
      rfl
  · exact ⟨U, h.consumed.symm⟩
  · rw [h.used.eq_iff (by decide), h.consumed]
    exact ⟨fun hU => by rw [hU, List.append_nil], fun he => by simpa using he⟩
  · obtain ⟨heq, -⟩ | ⟨-, i, U', rfl⟩ := h.used_cases
    · exact absurd heq hne
    · obtain ⟨r, hr, rfl, hc, hhandle, -⟩ := h.handle
      refine ⟨r, hr, hc, ⟨U', ?_⟩, (h.chained r hr).buf, hhandle⟩
      rw [h.consumed, List.append_assoc, List.singleton_append]
  · obtain ⟨s', -, -, he, -⟩ := h.step hop hst
    exact ⟨s', he⟩
  · exact ⟨U.length + 1, h.handler_ends (Nat.lt_succ_self _)⟩

instance : ∀ (s : DiskSystem) (op : DiskOp), Decidable (s.Allowed op)
  | s, .rw buf _ _ => inferInstanceAs (Decidable (∀ r ∈ s.requests, r.buf ≠ buf))
  | _, .take => inferInstanceAs (Decidable True)
  | _, .complete _ => inferInstanceAs (Decidable True)
  | _, .interrupt => inferInstanceAs (Decidable True)
  | _, .resume _ => inferInstanceAs (Decidable True)

/-- The state after an allowed step. -/
def next (s : DiskSystem) (op : DiskOp) : Option DiskSystem :=
  if s.Allowed op then (s.step op).bind Except.toOption else none

theorem step_of_next {op : DiskOp} (h : s.next op = some s') : Step s op s' := by
  unfold next at h
  split at h
  · case isTrue hop => exact ⟨hop, Res.eq_ok_of_bind_toOption h⟩
  · cases h

/-- Two requests, of which the device completes the second first; its requester has resumed when the
device completes the other. -/
def outOfOrder : List DiskOp :=
  [.rw 4 7 false, .rw 9 8 true, .take, .take, .complete 3, .interrupt, .resume 3, .complete 0]

theorem ring_protocol_outOfOrder :
    ∃ s, Lib.Run Step init outOfOrder s ∧ s.consumed = [3] ∧ s.completed = [3, 0] ∧
      s.disk.usedIdx ≠ s.disk.used.idx ∧ ∃ r ∈ s.requests, s.consumed ++ [r.i₀] <+: s.completed := by
  have hx : ((Lib.exec next init outOfOrder).any fun s =>
      decide (s.consumed = [3] ∧ s.completed = [3, 0] ∧ s.disk.usedIdx ≠ s.disk.used.idx)) = true := by
    decide +kernel
  obtain ⟨s, hs, hx⟩ := (Option.any_eq_true _ _).1 hx
  obtain ⟨hcons, hcomp, hne⟩ := of_decide_eq_true hx
  have hrun : Lib.Run Step init outOfOrder s := by
    refine Lib.run_of_exec ?_ hs
    exact fun _ _ _ h => step_of_next h
  obtain ⟨r, hr, -, hnext, -⟩ := (ring_protocol hrun).2.2.1.2.2 hne
  exact ⟨s, hrun, hcons, hcomp, hne, r, hr, hnext⟩

end DiskSystem

end Driver
