import OS404.Driver.Concurrent
import OS404.Driver.Proof.Buffer

/-!
# `bget` is atomic

`bget_works`: alone, the accesses of `bget` do what `BufferCache.bget` says. With its lock this is so
for any number of callers.

* `bget_atomic`: the calls that have returned, in the order of their `spin_unlock`s, are calls of
  `BufferCache.bget`, one after the other, and no two callers are ever between the lock and the unlock.
-/

namespace Driver

open BufferCache Lib

section
variable {ι : Type} {c c' : BufferCache} {dev b i n : Nat}

abbrev Works (ι : Type) := (bgetSections ι).Works

/-! ## One call -/

/-- Where the first loop ends. -/
def afterFirst (dev b : Nat) : Option Nat → BgetAt
  | some j => .loadRefcnt j
  | none => .second dev b bufferNum

/-- The first loop from buffer `i`, with `m` buffers left. -/
theorem first_works (ι : Type) (c : BufferCache) (dev b : Nat) : ∀ (m i : Nat), i + m = bufferNum - 1 →
    Works ι (.first dev b i) c
      (afterFirst dev b (c.search (fun x => x.dev == dev && x.blockNo == b) (List.range' i m))) c
  | 0, i, h => by
    have hi : ¬ i < bufferNum - 1 := by omega
    have hw : bgetWork (.first dev b i) c = some (.second dev b bufferNum, c) := by simp [bgetWork, hi]
    exact .cons hw .refl
  | m + 1, i, h => by
    have hi : i < bufferNum - 1 := by omega
    have hnext := first_works ι c dev b m (i + 1) (by omega)
    rw [List.range'_succ, search, List.find?_cons]
    by_cases hdev : (c.buf i).dev = dev
    · have hw : bgetWork (.first dev b i) c = some (.sameBlock dev b i, c) := by
        simp [bgetWork, hi, hdev]
      refine .cons hw ?_
      by_cases hb : (c.buf i).blockNo = b
      · have hw : bgetWork (.sameBlock dev b i) c = some (.loadRefcnt i, c) := by simp [bgetWork, hb]
        refine .cons hw ?_
        simp only [hdev, hb, beq_self_eq_true, Bool.and_self]
        exact .refl
      · have hw : bgetWork (.sameBlock dev b i) c = some (.first dev b (i + 1), c) := by
          simp [bgetWork, hb]
        refine .cons hw ?_
        simp only [hdev, hb, beq_self_eq_true, beq_eq_decide, decide_false, Bool.and_false]
        exact hnext
    · have hw : bgetWork (.first dev b i) c = some (.first dev b (i + 1), c) := by
        simp [bgetWork, hi, hdev]
      refine .cons hw ?_
      simp only [hdev, beq_eq_decide, decide_false, Bool.false_and]
      exact hnext

/-- Where the second loop ends. -/
def afterSecond (dev b : Nat) : Option Nat → BgetAt
  | some j => .setDev dev b j
  | none => .panic

/-- The second loop, with the buffers below `n` left. -/
theorem second_works (ι : Type) (c : BufferCache) (dev b n : Nat) :
    Works ι (.second dev b n) c
      (afterSecond dev b (c.search (fun x => x.refcnt == 0) (List.range n).reverse)) c := by
  induction n with
  | zero => exact .cons (rfl : bgetWork (.second dev b 0) c = some (.panic, c)) .refl
  | succ n ih =>
    rw [List.range_succ, List.reverse_append, List.reverse_singleton, List.singleton_append, search,
      List.find?_cons]
    by_cases hr : (c.buf n).refcnt = 0
    · have hw : bgetWork (.second dev b (n + 1)) c = some (.setDev dev b n, c) := by simp [bgetWork, hr]
      refine .cons hw ?_
      simp only [hr, beq_self_eq_true]
      exact .refl
    · have hw : bgetWork (.second dev b (n + 1)) c = some (.second dev b n, c) := by simp [bgetWork, hr]
      refine .cons hw ?_
      simp only [hr, beq_eq_decide, decide_false]
      exact ih

/-- `buf->refcnt++`. -/
theorem refcnt_works (ι : Type) (c : BufferCache) (i : Nat) :
    Works ι (.loadRefcnt i) c (.unlock i)
      (c.put i { c.buf i with refcnt := (c.buf i).refcnt + 1 }) :=
  .cons (rfl : bgetWork (.loadRefcnt i) c = some (.storeRefcnt i ((c.buf i).refcnt + 1), c))
    (.cons (rfl : bgetWork (.storeRefcnt i ((c.buf i).refcnt + 1)) c = some (.unlock i, _)) .refl)

/-- The four assignments to a free buffer. -/
theorem fill_works (ι : Type) (c : BufferCache) (dev b i : Nat) :
    Works ι (.setDev dev b i) c (.unlock i)
      (c.put i { c.buf i with
        dev, blockNo := b, valid := false, refcnt := (c.buf i).refcnt + 1 }) := by
  refine .cons (rfl : bgetWork (.setDev dev b i) c = some (.setBlockNo b i, _)) ?_
  refine .cons (rfl : bgetWork (.setBlockNo b i) _ = some (.setValid i, _)) ?_
  refine .cons (rfl : bgetWork (.setValid i) _ = some (.loadRefcnt i, _)) ?_
  have h := refcnt_works ι (((c.put i { c.buf i with dev }).put i
    { (c.put i { c.buf i with dev }).buf i with blockNo := b }).put i
    { ((c.put i { c.buf i with dev }).put i
      { (c.put i { c.buf i with dev }).buf i with blockNo := b }).buf i with valid := false }) i
  simpa [put] using h

/-- Alone, the accesses of `bget` do what `BufferCache.bget` says. -/
theorem bget_works (ι : Type) (c : BufferCache) (dev b : Nat) :
    (bgetSections ι).Computes (.first dev b 0) c (c.bget dev b) fun r => (.unlock r.1, r.2) := by
  have hfirst := first_works ι c dev b (bufferNum - 1) 0 (Nat.zero_add _)
  have hsecond := second_works ι c dev b bufferNum
  rw [← List.range_eq_range'] at hfirst
  refine .after hfirst ?_
  unfold bget
  cases c.search (fun x => x.dev == dev && x.blockNo == b) (List.range (bufferNum - 1)) with
  | some i => exact refcnt_works ι c i
  | none =>
    refine .after hsecond ?_
    cases c.search (fun x => x.refcnt == 0) (List.range bufferNum).reverse with
    | some i => exact fill_works ι c dev b i
    | none => exact ⟨.panic, c, .refl, rfl⟩

/-! ## All callers -/

theorem bgetStep_of_serial {e : SectionEvent ι BgetAt} (h : (bgetSections ι).Serial c e c') :
    BgetStep c e c' := by
  cases h with
  | quiet => exact .quiet
  | done hbegan hfin =>
    obtain ⟨dev, b, rfl⟩ := hbegan
    obtain ⟨⟨n, c'⟩, hb, rfl, rfl⟩ := (bget_works ι c dev b).of_finishes hfin fun _ => rfl
    exact .bget hb

variable [DecidableEq ι] {es : List (SectionEvent ι BgetAt)} {t : Callers ι}

/-- Whatever the order of their accesses, the calls of `bget` by any callers are atomic: in the order of
their `spin_unlock`s they are calls of `bget` one after the other, with the buffers that they returned,
and this is what the cache holds whenever the lock is free. No two callers are between `spin_lock` and
`spin_unlock` together. -/
theorem bget_atomic (h : Run (Threads.Step Lock.spinLock (bgetSections ι)) (Callers.init ι c) es t) :
    (∃ c', Run BgetStep c es c' ∧ (t.word = 0 → t.shared = c')) ∧
      ∀ i j, t.Inside i → t.Inside j → i = j := by
  obtain ⟨c', hrun, howner⟩ := Threads.serial (not_not.2 rfl) (fun _ _ _ => bgetStep_of_serial) h
  exact ⟨⟨c', hrun, fun hw => howner.shared (not_not.2 hw)⟩, fun _ _ => howner.one⟩

end

/-- Two callers in front of the lock. -/
def twoCallers : Callers Bool :=
  ((Callers.init Bool (.zeroed fun _ _ => 0)).move false (.wait (.first 0 0 0))).move true
    (.wait (.first 0 0 0))

/-- The first caller spins while the other one is in `bget`; both get buffer 0. -/
theorem bget_atomic_two : ∃ es t c, Run (Threads.Step Lock.spinLock (bgetSections Bool))
      (Callers.init Bool (.zeroed fun _ _ => 0)) es t ∧
    es.filter (· ≠ .quiet) =
      [.done true (.first 0 0 0) (.unlock 0), .done false (.first 0 0 0) (.unlock 0)] ∧
    Run BgetStep (.zeroed fun _ _ => 0) es c ∧ (c.buf 0).refcnt = 2 := by
  have hx : ((Threads.turns Lock.spinLock (bgetSections Bool) twoCallers
      [true, false, true, true, false, true, true, true, false, false, false, false, false, false]).any
        fun q => decide (q.1.filter (· ≠ .quiet) =
          [.done true (.first 0 0 0) (.unlock 0), .done false (.first 0 0 0) (.unlock 0)] ∧
          q.2.word = 0 ∧ (q.2.shared.buf 0).refcnt = 2)) = true := by
    decide +kernel
  obtain ⟨⟨es, t⟩, hs, hx⟩ := (Option.any_eq_true _ _).1 hx
  obtain ⟨hes, hfree, hrefcnt⟩ := of_decide_eq_true hx
  have hrun : Run (Threads.Step Lock.spinLock (bgetSections Bool))
      (Callers.init Bool (.zeroed fun _ _ => 0)) (.quiet :: .quiet :: es) t :=
    .cons (.call rfl ⟨0, 0, rfl⟩) (.cons (.call rfl ⟨0, 0, rfl⟩) (Threads.run_of_turns hs))
  obtain ⟨⟨c, hc, hshared⟩, -⟩ := bget_atomic hrun
  refine ⟨_, t, c, hrun, by simpa using hes, hc, ?_⟩
  rw [← hshared hfree]
  exact hrefcnt

end Driver
