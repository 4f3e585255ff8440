import OS404.Lib.Chain
import OS404.Sched.Proof.Table

/-!
# The ready queues

`QueueOk s Q`: `Q k` are the nodes of queue `k`, in order. Each node stands for one queued task and
each queued task has one node, in the queue of its `order`; a queued task is ready.

* `setQueue_spec`: `set_Queue` queues exactly the ready and running tasks that have no node, and
  never runs its removing branch.
* `dispatch_spec`: taking the next task to run.
* `schedule_spec`: the whole of `schedule()`.
-/

namespace Sched

open Lib

/-- `q->next` -/
def State.nnext (s : State) (q : Ptr) : Ptr := ((s.nodes q).map QNode.next).getD 0

theorem nnext_eq {s : State} {q : Ptr} {n : QNode} (h : s.nodes q = some n) : s.nnext q = n.next := by
  simp [State.nnext, h]

/-- The pids in the nodes `L`. -/
def State.qpids (s : State) (L : List Ptr) : List Int :=
  L.map fun q => ((s.nodes q).map QNode.pid).getD 0

/-- The queues hold the nodes `Q`, one for each queued task. -/
structure QueueOk (s : State) (Q : Nat → List Ptr) : Prop where
  link : ∀ k < 5, Linked (· = 0) s.nnext (s.head k) (Q k)
  node : ∀ k < 5, ∀ q ∈ Q k, ∃ n t, s.nodes q = some n ∧ s.tasks n.task = some t ∧ t.pid ≠ 0 ∧
    t.pid = n.pid ∧ t.order = k ∧ t.inQueue = true ∧ t.state = .ready
  uniq : ∀ k < 5, ∀ k' < 5, ∀ q ∈ Q k, ∀ q' ∈ Q k', ∀ n n', s.nodes q = some n →
    s.nodes q' = some n' → n.task = n'.task → q = q'
  last : ∀ k < 5, ∀ q, (Q k).getLast? = some q → s.tail k = q
  full : ∀ p t, s.tasks p = some t → t.inQueue = true →
    ∃ k < 5, ∃ q ∈ Q k, ∃ n, s.nodes q = some n ∧ n.task = p

section
variable {s s' : State} {Q : Nat → List Ptr}

theorem QueueOk.ready (h : QueueOk s Q) {p : Ptr} {t : Task} (ht : s.tasks p = some t)
    (hq : t.inQueue = true) : t.state = .ready ∧ t.pid ≠ 0 ∧ t.order < 5 := by
  obtain ⟨k, hk, q, hmem, n, hn, rfl⟩ := h.full p t ht hq
  obtain ⟨n', t', hn', ht', h0, -, ho, -, hr⟩ := h.node k hk q hmem
  rw [hn] at hn'
  cases hn'
  rw [ht] at ht'
  cases ht'
  exact ⟨hr, h0, by omega⟩

/-- The queues read of the tasks only the queued ones, and of these four fields. -/
theorem QueueOk.frame (h : QueueOk s Q) (hn : s'.nodes = s.nodes) (hh : s'.head = s.head)
    (htl : s'.tail = s.tail)
    (hold : ∀ p t, s.tasks p = some t → t.inQueue = true → ∃ t', s'.tasks p = some t' ∧
      t'.inQueue = true ∧ t'.pid = t.pid ∧ t'.order = t.order ∧ t'.state = t.state)
    (hnew : ∀ p t', s'.tasks p = some t' → t'.inQueue = true →
      ∃ t, s.tasks p = some t ∧ t.inQueue = true) : QueueOk s' Q := by
  have hnx : s'.nnext = s.nnext := by
    funext q
    simp only [State.nnext, hn]
  constructor
  case link => simpa only [hnx, hh] using h.link
  case node =>
    intro k hk q hq
    obtain ⟨n, t, hn', ht, h0, hpid, ho, hin, hr⟩ := h.node k hk q hq
    obtain ⟨t', ht', h1, h2, h3, h4⟩ := hold _ t ht hin
    exact ⟨n, t', hn ▸ hn', ht', h2 ▸ h0, h2.trans hpid, h3.trans ho, h1, h4.trans hr⟩
  case uniq => simpa only [hn] using h.uniq
  case last => simpa only [htl] using h.last
  case full =>
    intro p t' ht' hin
    obtain ⟨t, ht, hin⟩ := hnew p t' ht' hin
    simpa only [hn] using h.full p t ht hin

/-- Changing tasks that are not queued, in fields other than `in_Queue`. -/
theorem QueueOk.map (h : QueueOk s Q) {g : Ptr → Task → Task}
    (hg : ∀ p t, s.tasks p = some t → (g p t).inQueue = t.inQueue ∧
      (t.inQueue = true → (g p t).pid = t.pid ∧ (g p t).order = t.order ∧
        (g p t).state = t.state)) : QueueOk (s.mapTasks g) Q := by
  refine h.frame rfl rfl rfl (fun p t ht hin => ?_) fun p t' ht' hin => ?_
  · obtain ⟨h1, h2⟩ := hg p t ht
    exact ⟨_, mapTasks_of_some ht, h1.trans hin, h2 hin⟩
  · obtain ⟨t, ht, rfl⟩ := mapTasks_eq_some.1 ht'
    exact ⟨t, ht, (hg p t ht).1 ▸ hin⟩

/-- The queues do not depend on the other variables. -/
theorem QueueOk.congr (h : QueueOk s Q) (hn : s'.nodes = s.nodes) (ht : s'.tasks = s.tasks)
    (hh : s'.head = s.head) (htl : s'.tail = s.tail) : QueueOk s' Q := by
  refine h.frame hn hh htl (fun p t hp hin => ⟨t, ht ▸ hp, hin, rfl, rfl, rfl⟩) fun p t hp hin => ?_
  exact ⟨t, ht ▸ hp, hin⟩

/-! ## Putting a task at the end of its queue -/

/-- `s` with other queues. -/
def State.withQueues (s : State) (nodes : Ptr → Option QNode) (head tail : Nat → Ptr) : State :=
  { s with nodes := nodes, head := head, tail := tail }

@[simp] theorem withQueues_tasks (nodes : Ptr → Option QNode) (head tail : Nat → Ptr) :
    (s.withQueues nodes head tail).tasks = s.tasks := rfl

theorem TabOk.withQueues (h : TabOk s) (nodes : Ptr → Option QNode) (head tail : Nat → Ptr) :
    TabOk (s.withQueues nodes head tail) := ⟨h.slot, h.live, h.pids, h.zero⟩

/-- The queues after a new node `q` with contents `n` was linked behind those of queue `k`. -/
structure Pushed (s : State) (Q : Nat → List Ptr) (k : Nat) (q : Ptr) (n : QNode)
    (nodes : Ptr → Option QNode) (head tail : Nat → Ptr) : Prop where
  new : nodes q = some n
  old : ∀ q' m, s.nodes q' = some m → ∃ m', nodes q' = some m' ∧ m'.pid = m.pid ∧ m'.task = m.task
  link : ∀ j < 5, Linked (· = 0) (s.withQueues nodes head tail).nnext (head j)
    (Function.update Q k (Q k ++ [q]) j)
  last : tail k = q
  lasts : ∀ j ≠ k, tail j = s.tail j

theorem mem_update_append {k j : Nat} {q q' : Ptr} :
    q' ∈ Function.update Q k (Q k ++ [q]) j ↔ q' ∈ Q j ∨ q' = q ∧ j = k := by
  by_cases hj : j = k
  · subst hj
    simp
  · simp [hj]

/-- `linkTail` links the new node behind the last one of its queue and changes no other list. -/
theorem linkTail_spec (h : QueueOk s Q) {k : Nat} (hk : k < 5) {q : Ptr} {n : QNode} (h0 : q ≠ 0)
    (hq : s.nodes q = none) (hn : n.next = 0) :
    ∃ nodes head tail, linkTail k q n s = .ok (s.withQueues nodes head tail) ∧
      Pushed s Q k q n nodes head tail := by
  have hfresh : ∀ j < 5, ∀ q' ∈ Q j, q' ≠ q := fun j hj q' hq' he => by
    obtain ⟨m, -, hm, -⟩ := h.node j hj q' hq'
    rw [he, hq] at hm
    cases hm
  have hlk := h.link k hk
  by_cases hh : s.head k = 0
  · have hnil : Q k = [] := hlk.unique (linked_nil.2 hh)
    refine ⟨_, _, _, by rw [linkTail, if_pos hh]; rfl, by simp [State.setNode], ?_, ?_,
      by simp, fun j hj => by simp [hj]⟩
    · intro q' m hm
      have hne : q' ≠ q := fun he => by rw [he, hq] at hm; cases hm
      exact ⟨m, by simp [State.setNode, hne, hm], rfl, rfl⟩
    · intro j hj
      by_cases hjk : j = k
      · subst hjk
        simp [hnil, h0, State.nnext, State.withQueues, State.setNode, hn]
      · simp only [Function.update_of_ne hjk]
        refine (h.link j hj).congr fun q' hq' => ?_
        simp [State.nnext, State.withQueues, State.setNode, hfresh j hj q' hq']
  · obtain ⟨L, l, hL⟩ : ∃ L l, Q k = L ++ [l] := by
      rcases List.eq_nil_or_concat (Q k) with hnil | ⟨L, l, hL⟩
      · rw [hnil] at hlk
        exact absurd hlk hh
      · exact ⟨L, l, by simpa using hL⟩
    have htl : s.tail k = l := h.last k hk l (by simp [hL])
    have hlmem : l ∈ Q k := by simp [hL]
    obtain ⟨m, -, hm, -⟩ := h.node k hk l hlmem
    have hlq : l ≠ q := hfresh k hk l hlmem
    have hget : s.getNode (s.tail k) = .ok m := getNode_eq_ok.2 (htl ▸ hm)
    refine ⟨_, _, _, by rw [linkTail, if_neg hh, hget]; rfl, by simp [State.setNode], ?_, ?_,
      by simp, fun j hj => by simp [hj, State.setNode]⟩
    · intro q' m' hm'
      have hne : q' ≠ q := fun he => by rw [he, hq] at hm'; cases hm'
      by_cases hql : q' = l
      · subst hql
        rw [hm] at hm'
        cases hm'
        exact ⟨{ m with next := q }, by simp [State.setNode, hne, htl], rfl, rfl⟩
      · exact ⟨m', by simp [State.setNode, hne, htl, hql, hm'], rfl, rfl⟩
    · intro j hj
      by_cases hjk : j = k
      · subst hjk
        rw [Function.update_self, hL]
        rw [hL] at hlk
        refine hlk.snoc h0 ?_ ?_ ?_ ?_
        · rw [← hL]
          exact fun hmem => hfresh j hj q hmem rfl
        · intro a ha
          have hal : a ≠ l := by
            rintro rfl
            exact List.disjoint_of_nodup_append hlk.nodup ha (.head _)
          have haq : a ≠ q := hfresh j hj a (by simp [hL, ha])
          simp [State.nnext, State.withQueues, State.setNode, haq, htl, hal]
        · simp [State.nnext, State.withQueues, State.setNode, hlq, htl]
        · simp [State.nnext, State.withQueues, State.setNode, hn]
      · simp only [Function.update_of_ne hjk]
        refine (h.link j hj).congr fun q' hq' => ?_
        have hql : q' ≠ l := by
          rintro rfl
          -- `l` stands for one task, which is in one queue
          obtain ⟨m₁, t₁, hm₁, ht₁, -, -, ho₁, -⟩ := h.node j hj q' hq'
          obtain ⟨m₂, t₂, hm₂, ht₂, -, -, ho₂, -⟩ := h.node k hk q' hlmem
          rw [hm₁] at hm₂
          cases hm₂
          rw [ht₁] at ht₂
          cases ht₂
          omega
        simp [State.nnext, State.withQueues, State.setNode, hfresh j hj q' hq', htl, hql]

theorem mallocNode_spec {fresh fresh' : List Ptr} {q : Ptr}
    (h : mallocNode s fresh = .ok (q, fresh')) : q ≠ 0 ∧ s.nodes q = none := by
  cases fresh with
  | nil => cases h
  | cons q' fs =>
    rw [mallocNode] at h
    split at h
    · rename_i hq
      cases h
      exact hq
    · cases h

/-- The pids in the queues: a new one behind those of queue `k`. -/
theorem Pushed.qpids (h : QueueOk s Q) {k : Nat} {q : Ptr} {n : QNode} {nodes : Ptr → Option QNode}
    {head tail : Nat → Ptr} (hp : Pushed s Q k q n nodes head tail) (hs' : s'.nodes = nodes) {j : Nat}
    (hj : j < 5) : s'.qpids (Function.update Q k (Q k ++ [q]) j) =
      s.qpids (Q j) ++ if k = j then [n.pid] else [] := by
  have hold : s'.qpids (Q j) = s.qpids (Q j) := by
    refine List.map_congr_left fun q' hq' => ?_
    obtain ⟨m, -, hm, -⟩ := h.node j hj q' hq'
    obtain ⟨m', hm', hpid, -⟩ := hp.old q' m hm
    rw [hs', hm, hm', Option.map_some, Option.map_some, hpid]
  by_cases hjk : k = j
  · subst hjk
    rw [Function.update_self, if_pos rfl, ← hold]
    simp [State.qpids, hs', hp.new]
  · rw [Function.update_of_ne (Ne.symm hjk), if_neg hjk, List.append_nil, hold]

/-- No other address is taken. -/
theorem linkTail_nodes {k : Nat} {q : Ptr} {n : QNode} (hl : linkTail k q n s = .ok s') {q' : Ptr}
    (hne : q' ≠ q) (hnone : s.nodes q' = none) : s'.nodes q' = none := by
  unfold linkTail at hl
  split at hl
  · cases hl
    simp [State.setNode, hne, hnone]
  · obtain ⟨last, hlast, hl⟩ := Res.bind_eq_ok.1 hl
    cases hl
    have hql : q' ≠ s.tail k := fun he => by
      rw [he, getNode_eq_ok.1 hlast] at hnone
      cases hnone
    simp [State.setNode, hne, hql, hnone]

/-- A task that was not queued, behind the tasks of its next order. -/
theorem QueueOk.push (h : QueueOk s Q) {p q : Ptr} {t : Task} {nodes : Ptr → Option QNode}
    {head tail : Nat → Ptr} (ht : s.tasks p = some t) (hpid : t.pid ≠ 0) (hin : t.inQueue = false)
    (hlt : nextOrder t < 5) (hp : Pushed s Q (nextOrder t) q ⟨t.pid, p, 0⟩ nodes head tail) :
    QueueOk ((s.mapTasks fun q u => if q = p then queuedTask u else u).withQueues nodes head tail)
      (Function.update Q (nextOrder t) (Q (nextOrder t) ++ [q])) := by
  have htasks : ∀ p' u, s.tasks p' = some u →
      (s.mapTasks fun q u => if q = p then queuedTask u else u).tasks p' =
        some (if p' = p then queuedTask u else u) := fun p' u hu =>
    mapTasks_of_some (g := fun q u => if q = p then queuedTask u else u) hu
  -- an old node still stands for its task, which is not `p`
  have hnode : ∀ j < 5, ∀ q' ∈ Q j, ∃ m, nodes q' = some m ∧ m.task ≠ p ∧
      ∃ m₀, s.nodes q' = some m₀ ∧ m.task = m₀.task ∧ m.pid = m₀.pid := by
    intro j hj q' hq'
    obtain ⟨m₀, u, hm₀, hu, -, -, -, hinu, -⟩ := h.node j hj q' hq'
    obtain ⟨m, hm, hmp, hmt⟩ := hp.old q' m₀ hm₀
    refine ⟨m, hm, fun hmp' => ?_, m₀, hm₀, hmt, hmp⟩
    rw [← hmt, hmp', ht] at hu
    cases hu
    rw [hin] at hinu
    cases hinu
  constructor
  case link => exact hp.link
  case node =>
    intro j hj q' hq'
    rw [withQueues_tasks]
    rcases mem_update_append.1 hq' with hq' | ⟨rfl, rfl⟩
    · obtain ⟨m, hm, hmp, m₀, hm₀, hmt, hmpid⟩ := hnode j hj q' hq'
      obtain ⟨m₁, u, hm₁, hu, hu0, hup, huo, huq, hur⟩ := h.node j hj q' hq'
      rw [hm₀] at hm₁
      cases hm₁
      refine ⟨m, u, hm, ?_, hu0, by rw [hmpid, hup], huo, huq, hur⟩
      rw [hmt, htasks _ u hu, if_neg (hmt ▸ hmp)]
    · exact ⟨_, queuedTask t, hp.new, by rw [htasks p t ht, if_pos rfl], hpid, rfl, rfl, rfl, rfl⟩
  case uniq =>
    intro j hj j' hj' a ha b hb n n' hn hn' hnn
    -- the new node stands for `p`, and an old one does not
    have hne : ∀ {j a b n n'}, j < 5 → a ∈ Q j → b = q → nodes a = some n → nodes b = some n' →
        n.task ≠ n'.task := by
      intro j a b n n' hj ha hb hn hn' hnn
      obtain ⟨m, hm, hmp, -⟩ := hnode j hj a ha
      obtain rfl : m = n := Option.some.inj (hm.symm.trans hn)
      rw [hb, hp.new] at hn'
      cases hn'
      exact hmp hnn
    rcases mem_update_append.1 ha with ha | ⟨ha, -⟩ <;>
      rcases mem_update_append.1 hb with hb | ⟨hb, -⟩
    · obtain ⟨m, hm, -, m₀, hm₀, hmt, -⟩ := hnode j hj a ha
      obtain ⟨m', hm', -, m₀', hm₀', hmt', -⟩ := hnode j' hj' b hb
      have hna : m = n := Option.some.inj (hm.symm.trans hn)
      have hnb : m' = n' := Option.some.inj (hm'.symm.trans hn')
      exact h.uniq j hj j' hj' a ha b hb m₀ m₀' hm₀ hm₀' (by rw [← hmt, ← hmt', hna, hnb, hnn])
    · exact absurd hnn (hne hj ha hb hn hn')
    · exact absurd hnn.symm (hne hj' hb ha hn' hn)
    · rw [ha, hb]
  case last =>
    intro j hj q' hq'
    by_cases hjk : j = nextOrder t
    · subst hjk
      rw [Function.update_self, List.getLast?_append] at hq'
      have hqq : q = q' := by simpa using hq'
      exact hp.last.trans hqq
    · rw [Function.update_of_ne hjk] at hq'
      exact (hp.lasts j hjk).trans (h.last j hj q' hq')
  case full =>
    intro p' u' hu' hinu
    rw [withQueues_tasks] at hu'
    obtain ⟨u, hu, rfl⟩ := mapTasks_eq_some.1 hu'
    by_cases hpp : p' = p
    · subst hpp
      exact ⟨nextOrder t, hlt, q, mem_update_append.2 (.inr ⟨rfl, rfl⟩), _, hp.new, rfl⟩
    · rw [if_neg hpp] at hinu
      obtain ⟨j, hj, q', hq', m₀, hm₀, hmt₀⟩ := h.full p' u hu hinu
      obtain ⟨m, hm, -, m₁, hm₁, hmt, -⟩ := hnode j hj q' hq'
      rw [hm₀] at hm₁
      cases hm₁
      exact ⟨j, hj, q', mem_update_append.2 (.inl hq'), m, hm, hmt.trans hmt₀⟩

theorem set_queuedTask {p : Ptr} {t : Task} (ht : s.tasks p = some t) :
    s.set p (queuedTask t) = s.mapTasks fun q u => if q = p then queuedTask u else u := by
  rw [set_eq_map ht]
  refine mapTasks_congr fun q u hu => ?_
  by_cases hqp : q = p
  · subst hqp
    rw [ht] at hu
    cases hu
    simp
  · simp [hqp]

/-- Queueing the task `p`. -/
theorem enqueue_spec (h : QueueOk s Q) {p : Ptr} {t : Task} {fresh fresh' : List Ptr}
    (ht : s.tasks p = some t) (hpid : t.pid ≠ 0) (hin : t.inQueue = false) (ho : t.order ≤ 4)
    (he : enqueue p fresh s = .ok (s', fresh')) : ∃ Q' nodes head tail,
      s' = (s.mapTasks fun q u => if q = p then queuedTask u else u).withQueues nodes head tail ∧
      QueueOk s' Q' ∧
      ∀ k < 5, s'.qpids (Q' k) = s.qpids (Q k) ++ if nextOrder t = k then [t.pid] else [] := by
  have hlt : nextOrder t < 5 := by
    unfold nextOrder
    split <;> omega
  have hget : s.get p = .ok t := get_eq_ok.2 ht
  rw [enqueue, hget, Res.ok_bind, if_neg (by omega)] at he
  obtain ⟨⟨q, fresh₁⟩, hmal, he⟩ := Res.bind_eq_ok.1 he
  obtain ⟨s₁, hlink, he⟩ := Res.bind_eq_ok.1 he
  obtain ⟨h0, hq⟩ := mallocNode_spec hmal
  obtain ⟨nodes, head, tail, hl, hpush⟩ :=
    linkTail_spec h hlt (n := ⟨t.pid, p, 0⟩) h0 hq rfl
  rw [hl] at hlink
  cases hlink
  have hs' : s' = (s.mapTasks fun q u => if q = p then queuedTask u else u).withQueues
      nodes head tail := by
    simp only [Res.pure_eq_ok, Except.ok.injEq, Prod.mk.injEq] at he
    rw [← he.1, ← set_queuedTask ht]
    rfl
  refine ⟨_, nodes, head, tail, hs', hs' ▸ h.push ht hpid hin hlt hpush, fun k hk => ?_⟩
  exact hpush.qpids h (by rw [hs']; rfl) hk

/-- Queueing succeeds with the first of the new addresses, and takes no other. -/
theorem enqueue_returns (h : QueueOk s Q) {p q : Ptr} {t : Task} {fresh : List Ptr}
    (ht : s.tasks p = some t) (ho : t.order ≤ 4) (h0 : q ≠ 0) (hq : s.nodes q = none) :
    ∃ s', enqueue p (q :: fresh) s = .ok (s', fresh) ∧
      ∀ q' ≠ q, s.nodes q' = none → s'.nodes q' = none := by
  have hlt : nextOrder t < 5 := by
    unfold nextOrder
    split <;> omega
  have hget : s.get p = .ok t := get_eq_ok.2 ht
  obtain ⟨nodes, head, tail, hl, -⟩ := linkTail_spec h hlt (n := ⟨t.pid, p, 0⟩) h0 hq rfl
  have hmal : mallocNode s (q :: fresh) = .ok (q, fresh) := if_pos ⟨h0, hq⟩
  refine ⟨(s.withQueues nodes head tail).set p (queuedTask t), ?_, fun q' hne hnone => ?_⟩
  · rw [enqueue, hget, Res.ok_bind, if_neg (by omega), hmal, Res.ok_bind]
    dsimp only
    rw [hl]
    rfl
  · exact linkTail_nodes hl hne hnone

/-! ## The loop of `set_Queue` -/

/-- The tasks that `set_Queue` queues. -/
def NeedsQueue (t : Task) : Prop := t.inQueue = false ∧ (t.state = .ready ∨ t.state = .running)

instance (t : Task) : Decidable (NeedsQueue t) := inferInstanceAs (Decidable (_ ∧ _))

/-- A task that has not exited is in one of the five queues' orders. -/
def OrderOk (s : State) : Prop := ∀ p t, s.tasks p = some t → t.state ≠ .zombine → t.order ≤ 4

theorem OrderOk.map (ho : OrderOk s) {g : Ptr → Task → Task}
    (hg : ∀ p t, s.tasks p = some t → (g p t).state ≠ .zombine →
      t.state ≠ .zombine ∧ (t.order ≤ 4 → (g p t).order ≤ 4)) : OrderOk (s.mapTasks g) := by
  intro p t' ht' hz
  obtain ⟨t, ht, rfl⟩ := mapTasks_eq_some.1 ht'
  obtain ⟨hz', hle⟩ := hg p t ht hz
  exact hle (ho p t ht hz')

theorem NeedsQueue.not_zombine {t : Task} (hn : NeedsQueue t) : t.state ≠ .zombine := by
  rcases hn.2 with h | h <;> rw [h] <;> decide

theorem nextOrder_le {t : Task} (h : t.order ≤ 4) : nextOrder t ≤ 4 := by
  unfold nextOrder
  split <;> omega

/-- The pid that a turn of `set_Queue` for slot `i` puts at the end of queue `k`. -/
def arrival (s : State) (k i : Nat) : Option Int :=
  (s.tasks (s.task i)).bind fun t => if NeedsQueue t ∧ nextOrder t = k then some t.pid else none

/-- One turn: the task of the slot is queued if it needs to be. -/
theorem setQueueSlot_spec (hT : TabOk s) (h : QueueOk s Q) (ho : OrderOk s)
    {r : Nat → State → Res State} {i : Nat} {fresh fresh' : List Ptr} (hi : 1 ≤ i ∧ i < 64)
    (hs : setQueueSlot r i fresh s = .ok (s', fresh')) : ∃ Q' nodes head tail,
      s' = (s.mapTasks fun _ t => if t.pcbId = i ∧ NeedsQueue t then queuedTask t else t).withQueues
        nodes head tail ∧ QueueOk s' Q' ∧
      ∀ k < 5, s'.qpids (Q' k) = s.qpids (Q k) ++ (arrival s k i).toList := by
  -- if no task in the slot needs to be queued, nothing changes
  have hsame : (∀ p t, s.tasks p = some t → t.pcbId = i → ¬ NeedsQueue t) → s' = s →
      ∃ Q' nodes head tail, s' = (s.mapTasks fun _ t =>
        if t.pcbId = i ∧ NeedsQueue t then queuedTask t else t).withQueues nodes head tail ∧
        QueueOk s' Q' ∧ ∀ k < 5, s'.qpids (Q' k) = s.qpids (Q k) ++ (arrival s k i).toList := by
    rintro hno rfl
    refine ⟨Q, s'.nodes, s'.head, s'.tail, ?_, h, fun k _ => ?_⟩
    · rw [mapTasks_id fun p t ht => if_neg fun hx => hno p t ht hx.1 hx.2]
      rfl
    · have harr : arrival s' k i = none := by
        unfold arrival
        cases ht : s'.tasks (s'.task i) with
        | none => rfl
        | some t =>
          have hpcb := (hT.slot_eq_iff ht hi.2).1 rfl
          exact if_neg fun hx => hno _ t ht hpcb hx.1
      rw [harr, Option.toList_none, List.append_nil]
  rw [setQueueSlot] at hs
  split at hs
  · rename_i h0
    cases hs
    refine hsame (fun p t ht hpcb _ => ?_) rfl
    obtain ⟨hp, -, hslot⟩ := hT.live p t ht
    rw [hpcb, h0] at hslot
    exact hp hslot.symm
  rename_i h0
  obtain ⟨t, ht, hpcb⟩ := hT.slot i hi.2 h0
  have hget : s.get (s.task i) = .ok t := get_eq_ok.2 ht
  have honly : ∀ p u, s.tasks p = some u → u.pcbId = i → p = s.task i ∧ u = t := by
    intro p u hu hpu
    have hp := (hT.slot_eq_iff hu hi.2).2 hpu
    subst hp
    rw [ht] at hu
    cases hu
    exact ⟨rfl, rfl⟩
  rw [hget, Res.ok_bind] at hs
  split at hs
  · rename_i hin
    split at hs
    · rename_i hst
      have hneed : NeedsQueue t := ⟨hin, hst⟩
      have hpid : t.pid ≠ 0 := fun hp => by
        have := (hT.pcbId_zero_iff ht).2 hp
        omega
      obtain ⟨Q', nodes, head, tail, he, hq, hpids⟩ :=
        enqueue_spec h ht hpid hin (ho _ t ht hneed.not_zombine) hs
      refine ⟨Q', nodes, head, tail, ?_, hq, fun k hk => ?_⟩
      · rw [he]
        congr 1
        refine mapTasks_congr fun p u hu => ?_
        by_cases hp : p = s.task i
        · subst hp
          rw [ht] at hu
          cases hu
          simp [hpcb, hneed]
        · have hpu : u.pcbId ≠ i := fun hx => hp (honly p u hu hx).1
          simp [hp, hpu]
      · rw [hpids k hk]
        by_cases hk' : nextOrder t = k
        · simp [arrival, ht, hneed, hk']
        · simp [arrival, ht, hk']
    · rename_i hst
      cases hs
      refine hsame (fun p u hu hpu hx => ?_) rfl
      obtain ⟨-, rfl⟩ := honly p u hu hpu
      exact hst hx.2
  · rename_i hin
    have hin : t.inQueue = true := by simpa using hin
    have hr := (h.ready ht hin).1
    rw [if_pos (.inr hr)] at hs
    cases hs
    refine hsame (fun p u hu hpu hx => ?_) rfl
    obtain ⟨-, rfl⟩ := honly p u hu hpu
    cases hin.symm.trans hx.1

/-- After a turn the table and the queues are in order again. -/
theorem setQueueSlot_keeps (hT : TabOk s) (h : QueueOk s Q) (ho : OrderOk s)
    {r : Nat → State → Res State} {i : Nat} {fresh fresh' : List Ptr} (hi : 1 ≤ i ∧ i < 64)
    (hs : setQueueSlot r i fresh s = .ok (s', fresh')) :
    TabOk s' ∧ OrderOk s' ∧ ∃ Q', QueueOk s' Q' := by
  obtain ⟨Q', nodes, head, tail, rfl, hq, -⟩ := setQueueSlot_spec hT h ho hi hs
  refine ⟨(hT.map fun p t _ => ?_).withQueues .., ho.map fun p t ht hz => ?_, Q', hq⟩
  · split
    · exact ⟨rfl, rfl, rfl⟩
    · exact ⟨rfl, rfl, rfl⟩
  · split
    · rename_i hx
      exact ⟨hx.2.not_zombine, nextOrder_le⟩
    · rename_i hx
      rw [if_neg hx] at hz
      exact ⟨hz, id⟩

/-- The turns for the other slots see the same tasks. -/
theorem arrival_congr (hT : TabOk s) {nodes : Ptr → Option QNode} {head tail : Nat → Ptr} {i j : Nat}
    (hj : j < 64) (hne : j ≠ i) (k : Nat) :
    arrival ((s.mapTasks fun _ t => if t.pcbId = i ∧ NeedsQueue t then queuedTask t else t).withQueues
      nodes head tail) k j = arrival s k j := by
  unfold arrival
  rw [withQueues_tasks]
  show ((s.mapTasks _).tasks (s.task j)).bind _ = _
  cases ht : s.tasks (s.task j) with
  | none => rw [mapTasks_tasks, ht, Option.map_none]
  | some t =>
    have hpcb := (hT.slot_eq_iff ht hj).1 rfl
    rw [mapTasks_of_some ht, if_neg fun hx => hne (hpcb.symm.trans hx.1)]

/-- The loop queues the tasks of its slots that need it, in the order of the slots. -/
theorem setQueueLoop_spec {r : Nat → State → Res State} : ∀ {is : List Nat} {s s' : State}
    {Q : Nat → List Ptr} {fresh fresh' : List Ptr}, TabOk s → QueueOk s Q → OrderOk s →
    is.Nodup → (∀ i ∈ is, 1 ≤ i ∧ i < 64) → setQueueLoop r is fresh s = .ok (s', fresh') →
    ∃ Q' nodes head tail,
      s' = (s.mapTasks fun _ t => if t.pcbId ∈ is ∧ NeedsQueue t then queuedTask t else t).withQueues
        nodes head tail ∧ QueueOk s' Q' ∧
      ∀ k < 5, s'.qpids (Q' k) = s.qpids (Q k) ++ is.filterMap (arrival s k)
  | [], s, s', Q, fresh, fresh', _, h, _, _, _, hs => by
    cases hs
    refine ⟨Q, s.nodes, s.head, s.tail, ?_, h, fun k _ => (List.append_nil _).symm⟩
    rw [mapTasks_id fun p t ht => if_neg (by simp)]
    rfl
  | i :: is, s, s', Q, fresh, fresh', hT, h, ho, hnd, his, hs => by
    obtain ⟨hi, hnd⟩ := List.nodup_cons.1 hnd
    obtain ⟨⟨s₁, fresh₁⟩, h1, h2⟩ := Res.bind_eq_ok.1 hs
    obtain ⟨hT₁, ho₁, -⟩ := setQueueSlot_keeps hT h ho (his i (.head _)) h1
    obtain ⟨Q₁, nodes₁, head₁, tail₁, he, hq, hpids₁⟩ :=
      setQueueSlot_spec hT h ho (his i (.head _)) h1
    obtain ⟨Q', nodes, head, tail, he', hq', hpids⟩ := setQueueLoop_spec hT₁ hq ho₁ hnd
      (fun j hj => his j (.tail _ hj)) h2
    refine ⟨Q', nodes, head, tail, ?_, hq', fun k hk => ?_⟩
    · rw [he', he]
      show ((s.mapTasks _).mapTasks _).withQueues nodes head tail = _
      rw [mapTasks_mapTasks]
      congr 1
      refine mapTasks_congr fun p t ht => ?_
      by_cases hx : t.pcbId = i ∧ NeedsQueue t
      · have hno : ¬ NeedsQueue (queuedTask t) := fun hn => by cases hn.1
        rw [if_pos hx, if_neg fun hy => hno hy.2, if_pos ⟨by simp [hx.1], hx.2⟩]
      · rw [if_neg hx]
        by_cases hn : NeedsQueue t
        · have hne : t.pcbId ≠ i := fun he => hx ⟨he, hn⟩
          simp [hn, hne]
        · simp [hn]
    · have hrest : is.filterMap (arrival s₁ k) = is.filterMap (arrival s k) := by
        refine List.filterMap_congr fun j hj => ?_
        rw [he]
        have hne : j ≠ i := fun hx => hi (hx ▸ hj)
        exact arrival_congr hT (his j (.tail _ hj)).2 hne k
      rw [hpids k hk, hpids₁ k hk, hrest, List.append_assoc]
      congr 1
      cases harr : arrival s k i with
      | none => rw [List.filterMap_cons_none harr, Option.toList_none, List.nil_append]
      | some x => rw [List.filterMap_cons_some harr, Option.toList_some, List.singleton_append]

/-- The loop succeeds with enough new addresses. -/
theorem setQueueLoop_returns {r : Nat → State → Res State} : ∀ {is : List Nat} {s : State}
    {Q : Nat → List Ptr} {fresh : List Ptr}, TabOk s → QueueOk s Q → OrderOk s →
    (∀ i ∈ is, 1 ≤ i ∧ i < 64) → is.length ≤ fresh.length → fresh.Nodup →
    (∀ q ∈ fresh, q ≠ 0 ∧ s.nodes q = none) → ∃ x, setQueueLoop r is fresh s = .ok x
  | [], _, _, _, _, _, _, _, _, _, _ => ⟨_, rfl⟩
  | i :: is, s, Q, fresh, hT, h, ho, his, hlen, hnd, hfresh => by
    -- a turn leaves the addresses, or takes the first of them
    have hturn : ∃ s₁ fresh₁, setQueueSlot r i fresh s = .ok (s₁, fresh₁) ∧
        is.length ≤ fresh₁.length ∧ fresh₁.Nodup ∧ ∀ q ∈ fresh₁, q ≠ 0 ∧ s₁.nodes q = none := by
      have hsame : is.length ≤ fresh.length := by
        rw [List.length_cons] at hlen
        omega
      unfold setQueueSlot
      split
      · exact ⟨s, fresh, rfl, hsame, hnd, hfresh⟩
      rename_i h0
      obtain ⟨t, ht, -⟩ := hT.slot i (his i (.head _)).2 h0
      have hget : s.get (s.task i) = .ok t := get_eq_ok.2 ht
      rw [hget, Res.ok_bind]
      split
      · rename_i hin
        split
        · rename_i hst
          cases fresh with
          | nil => cases hlen
          | cons q fs =>
            obtain ⟨hq, hnd⟩ := List.nodup_cons.1 hnd
            obtain ⟨h0, hnone⟩ := hfresh q (.head _)
            have hneed : NeedsQueue t := ⟨hin, hst⟩
            obtain ⟨s₁, hs₁, hnodes⟩ :=
              @enqueue_returns s Q h _ q t fs ht (ho _ t ht hneed.not_zombine) h0 hnone
            refine ⟨s₁, fs, hs₁, by simpa using hlen, hnd, fun q' hq' => ?_⟩
            obtain ⟨h0', hnone'⟩ := hfresh q' (.tail _ hq')
            exact ⟨h0', hnodes q' (fun he => hq (he ▸ hq')) hnone'⟩
        · exact ⟨s, fresh, rfl, hsame, hnd, hfresh⟩
      · rename_i hin
        have hr := (h.ready ht (by simpa using hin)).1
        rw [if_pos (.inr hr)]
        exact ⟨s, fresh, rfl, hsame, hnd, hfresh⟩
    obtain ⟨s₁, fresh₁, hslot, hlen₁, hnd₁, hfresh₁⟩ := hturn
    obtain ⟨hT₁, ho₁, Q₁, hq⟩ := setQueueSlot_keeps hT h ho (his i (.head _)) hslot
    rw [setQueueLoop, hslot]
    exact setQueueLoop_returns hT₁ hq ho₁ (fun j hj => his j (.tail _ hj)) hlen₁ hnd₁ hfresh₁

/-- `set_Queue` does the same with any code in the place of its removing branch. -/
theorem setQueueLoop_congr {r r' : Nat → State → Res State} : ∀ {is : List Nat} {s : State}
    {Q : Nat → List Ptr} {fresh : List Ptr}, TabOk s → QueueOk s Q → OrderOk s →
    (∀ i ∈ is, 1 ≤ i ∧ i < 64) → setQueueLoop r is fresh s = setQueueLoop r' is fresh s
  | [], _, _, _, _, _, _, _ => rfl
  | i :: is, s, Q, fresh, hT, h, ho, his => by
    have hslot : setQueueSlot r i fresh s = setQueueSlot r' i fresh s := by
      unfold setQueueSlot
      split
      · rfl
      rename_i h0
      obtain ⟨t, ht, -⟩ := hT.slot i (his i (.head _)).2 h0
      have hget : s.get (s.task i) = .ok t := get_eq_ok.2 ht
      rw [hget, Res.ok_bind, Res.ok_bind]
      by_cases hin : t.inQueue = true
      · -- a queued task is ready
        have hr := (h.ready ht hin).1
        simp only [hin, hr, Bool.true_eq_false, if_false, or_true, if_true]
      · have hin : t.inQueue = false := by simpa using hin
        rw [if_pos hin, if_pos hin]
    rw [setQueueLoop, setQueueLoop, ← hslot]
    cases h1 : setQueueSlot r i fresh s with
    | error e => rfl
    | ok x =>
      obtain ⟨hT₁, ho₁, Q₁, hq⟩ := setQueueSlot_keeps hT h ho (his i (.head _)) h1
      exact setQueueLoop_congr hT₁ hq ho₁ fun j hj => his j (.tail _ hj)

/-- What `set_Queue` does to one task. -/
def queueMap (t : Task) : Task := if t.pid ≠ 0 ∧ NeedsQueue t then queuedTask t else t

/-- `set_Queue` queues exactly the ready and running tasks other than task 0 that have no node. -/
theorem setQueue_spec (hT : TabOk s) (h : QueueOk s Q) (ho : OrderOk s)
    {fresh fresh' : List Ptr} (hs : setQueue fresh s = .ok (s', fresh')) : ∃ Q' nodes head tail,
      s' = (s.mapTasks fun _ t => queueMap t).withQueues nodes head tail ∧ QueueOk s' Q' ∧
      ∀ k < 5, s'.qpids (Q' k) = s.qpids (Q k) ++ slotsDown.filterMap (arrival s k) := by
  obtain ⟨Q', nodes, head, tail, he, hq, hpids⟩ := setQueueLoop_spec hT h ho slotsDown_nodup
    (fun i hi => mem_slotsDown.1 hi) hs
  refine ⟨Q', nodes, head, tail, ?_, hq, hpids⟩
  rw [he]
  congr 1
  refine mapTasks_congr fun p t ht => ?_
  have hiff := hT.pcbId_zero_iff ht
  have hlt := (hT.live p t ht).2.1
  have hmem : t.pcbId ∈ slotsDown ↔ t.pid ≠ 0 := by
    rw [mem_slotsDown]
    omega
  simp only [queueMap, hmem]

/-! ## The next task to run -/

theorem firstQueue_some : ∀ {n k r : Nat}, firstQueue s n k = some r →
    r < k + n ∧ s.head r ≠ 0 ∧ ∀ j, k ≤ j → j < r → s.head j = 0
  | 0, _, _, h => by cases h
  | n + 1, k, r, h => by
    rw [firstQueue] at h
    split at h
    · rename_i h0
      obtain ⟨hlt, hr, hbefore⟩ := firstQueue_some h
      refine ⟨by omega, hr, fun j hj hjr => ?_⟩
      by_cases hjk : j = k
      · exact hjk ▸ h0
      · exact hbefore j (by omega) hjr
    · rename_i h0
      cases h
      exact ⟨by omega, h0, fun j hj hjr => absurd hjr (by omega)⟩

theorem firstQueue_none : ∀ {n k : Nat}, firstQueue s n k = none →
    ∀ j, k ≤ j → j < k + n → s.head j = 0
  | 0, _, _, _, _, hlt => absurd hlt (by omega)
  | n + 1, k, h, j, hj, hlt => by
    rw [firstQueue] at h
    split at h
    · rename_i h0
      by_cases hjk : j = k
      · exact hjk ▸ h0
      · exact firstQueue_none h j (by omega) (by omega)
    · cases h

theorem QueueOk.nil_iff (h : QueueOk s Q) {k : Nat} (hk : k < 5) : Q k = [] ↔ s.head k = 0 := by
  have hlk := h.link k hk
  refine ⟨fun hQ => ?_, fun h0 => hlk.unique (linked_nil.2 h0)⟩
  rw [hQ] at hlk
  exact hlk

/-- The task that `schedule` has taken from its queue. -/
def runningTask (t : Task) : Task := { t with inQueue := false, state := .running }

/-- Taking the first node off queue `k`. -/
theorem QueueOk.pop (h : QueueOk s Q) {k : Nat} (hk : k < 5) {q : Ptr} {L : List Ptr} {n : QNode}
    (hQ : Q k = q :: L) (hn : s.nodes q = some n) :
    QueueOk ((s.mapTasks fun p u => if p = n.task then runningTask u else u).withQueues
      (Function.update s.nodes q none) (Function.update s.head k n.next) s.tail)
      (Function.update Q k L) := by
  have hqk : q ∈ Q k := by simp [hQ]
  have hlk := h.link k hk
  have hnd := hlk.nodup
  rw [hQ] at hlk hnd
  have hqL : q ∉ L := (List.nodup_cons.1 hnd).1
  -- the other queues do not hold `q`
  have hmem : ∀ j < 5, ∀ q' ∈ Function.update Q k L j, q' ∈ Q j ∧ q' ≠ q := by
    intro j hj q' hq'
    by_cases hjk : j = k
    · subst hjk
      rw [Function.update_self] at hq'
      exact ⟨by simp [hQ, hq'], fun he => hqL (he ▸ hq')⟩
    · rw [Function.update_of_ne hjk] at hq'
      refine ⟨hq', fun he => hjk ?_⟩
      obtain ⟨m, u, hm, hu, -, -, ho, -⟩ := h.node j hj q (he ▸ hq')
      obtain ⟨m', u', hm', hu', -, -, ho', -⟩ := h.node k hk q hqk
      rw [hm] at hm'
      cases hm'
      rw [hu] at hu'
      cases hu'
      rw [← ho, ho']
  constructor
  case link =>
    intro j hj
    have hnx : ∀ q' ∈ Function.update Q k L j, ((s.mapTasks fun p u =>
        if p = n.task then runningTask u else u).withQueues (Function.update s.nodes q none)
        (Function.update s.head k n.next) s.tail).nnext q' = s.nnext q' := fun q' hq' => by
      simp [State.nnext, State.withQueues, (hmem j hj q' hq').2]
    by_cases hjk : j = k
    · subst hjk
      rw [Function.update_self] at hnx ⊢
      refine Linked.congr ?_ hnx
      have h2 := (linked_cons.1 hlk).2.2
      rw [nnext_eq hn] at h2
      simpa [State.withQueues] using h2
    · rw [Function.update_of_ne hjk] at hnx ⊢
      refine Linked.congr ?_ hnx
      simpa [State.withQueues, hjk] using h.link j hj
  case node =>
    intro j hj q' hq'
    obtain ⟨hq', hne⟩ := hmem j hj q' hq'
    obtain ⟨m, u, hm, hu, h0, hpid, ho, hin, hr⟩ := h.node j hj q' hq'
    have htask : m.task ≠ n.task := fun he => hne (h.uniq j hj k hk q' hq' q hqk m n hm hn he)
    refine ⟨m, u, by simp [State.withQueues, hne, hm], ?_, h0, hpid, ho, hin, hr⟩
    rw [withQueues_tasks, mapTasks_of_some hu, if_neg htask]
  case uniq =>
    intro j hj j' hj' q₁ hq₁ q₂ hq₂ n₁ n₂ hn₁ hn₂ he
    obtain ⟨hq₁, hne₁⟩ := hmem j hj q₁ hq₁
    obtain ⟨hq₂, hne₂⟩ := hmem j' hj' q₂ hq₂
    simp only [State.withQueues, Function.update_of_ne hne₁, Function.update_of_ne hne₂] at hn₁ hn₂
    exact h.uniq j hj j' hj' q₁ hq₁ q₂ hq₂ n₁ n₂ hn₁ hn₂ he
  case last =>
    intro j hj l hl
    refine h.last j hj l ?_
    by_cases hjk : j = k
    · subst hjk
      rw [Function.update_self] at hl
      rw [hQ, List.getLast?_cons, hl, Option.getD_some]
    · rwa [Function.update_of_ne hjk] at hl
  case full =>
    intro p u' hu' hin
    rw [withQueues_tasks] at hu'
    obtain ⟨u, hu, rfl⟩ := mapTasks_eq_some.1 hu'
    by_cases hp : p = n.task
    · rw [if_pos hp] at hin
      cases hin
    · rw [if_neg hp] at hin
      obtain ⟨j, hj, q', hq', m, hm, hmt⟩ := h.full p u hu hin
      have hne : q' ≠ q := fun he => by
        rw [he, hn] at hm
        cases hm
        exact hp hmt.symm
      refine ⟨j, hj, q', ?_, m, by simp [State.withQueues, hne, hm], hmt⟩
      by_cases hjk : j = k
      · subst hjk
        rw [hQ] at hq'
        rw [Function.update_self]
        exact (List.mem_cons.1 hq').resolve_left hne
      · rwa [Function.update_of_ne hjk]

/-- The state after the first node of queue `k`, `q` with contents `n`, was taken off. -/
def State.popped (s : State) (k : Nat) (q : Ptr) (n : QNode) : State :=
  { (s.mapTasks fun p u => if p = n.task then runningTask u else u).withQueues
      (Function.update s.nodes q none) (Function.update s.head k n.next) s.tail with
    current := n.task }

/-- `dispatch` takes the first task of the first queue that is not empty, or task 0. -/
theorem dispatch_cases (h : QueueOk s Q) :
    ((∀ k < 5, Q k = []) ∧ dispatch s = .ok { s with current := s.task 0 }) ∨
    ∃ k q L n t, k < 5 ∧ (∀ j < k, Q j = []) ∧ Q k = q :: L ∧ s.nodes q = some n ∧
      s.tasks n.task = some t ∧ dispatch s = .ok (s.popped k q n) ∧
      QueueOk (s.popped k q n) (Function.update Q k L) := by
  unfold dispatch
  cases hf : firstQueue s 5 0 with
  | none =>
    refine .inl ⟨fun k hk => (h.nil_iff hk).2 ?_, rfl⟩
    exact firstQueue_none hf k (Nat.zero_le k) (by omega)
  | some k =>
    obtain ⟨hk, h0, hbefore⟩ := firstQueue_some hf
    have hk : k < 5 := by omega
    have hlk := h.link k hk
    obtain ⟨q, L, hQ⟩ := List.exists_cons_of_ne_nil fun hnil => h0 ((h.nil_iff hk).1 hnil)
    rw [hQ] at hlk
    have hhead : s.head k = q := (linked_cons.1 hlk).1
    obtain ⟨n, t, hn, ht, -⟩ := h.node k hk q (by simp [hQ])
    have hget : s.getNode q = .ok n := getNode_eq_ok.2 hn
    refine .inr ⟨k, q, L, n, t, hk, fun j hj => ?_, hQ, hn, ht, ?_, ?_⟩
    · exact (h.nil_iff (by omega)).2 (hbefore j (Nat.zero_le j) hj)
    · dsimp only
      rw [hhead, hget, Res.ok_bind,
        modify_eq_map (s := { s with head := Function.update s.head k n.next }) ht]
      rfl
    · exact (h.pop hk hQ hn).congr rfl rfl rfl rfl

/-- `dispatch` takes a queued task off its queue, or task 0 if the queues are empty. -/
theorem dispatch_spec (hT : TabOk s) (h : QueueOk s Q) (hs : dispatch s = .ok s') :
    ∃ Q' nodes head tail cur,
      s' = { (s.mapTasks fun q t => if q = cur ∧ t.pid ≠ 0 then runningTask t else t).withQueues
        nodes head tail with current := cur } ∧ QueueOk s' Q' ∧
      (cur = s.task 0 ∨ ∃ t, s.tasks cur = some t ∧ t.pid ≠ 0 ∧ t.inQueue = true) := by
  obtain ⟨-, hd⟩ | ⟨k, q, L, n, t, hk, -, hQ, hn, ht, hd, hq⟩ := dispatch_cases h
  · rw [hd] at hs
    cases hs
    refine ⟨Q, s.nodes, s.head, s.tail, s.task 0, ?_, h.congr rfl rfl rfl rfl, .inl rfl⟩
    rw [mapTasks_id fun p t ht => if_neg fun hx => hx.2 ((hT.zero_iff ht).1 hx.1)]
    rfl
  · rw [hd] at hs
    cases hs
    obtain ⟨n', t', hn', ht', hpid, -, -, hin, -⟩ := h.node k hk q (by simp [hQ])
    rw [hn] at hn'
    cases hn'
    rw [ht] at ht'
    cases ht'
    refine ⟨Function.update Q k L, Function.update s.nodes q none, Function.update s.head k n.next,
      s.tail, n.task, ?_, hq, .inr ⟨t, ht, hpid, hin⟩⟩
    have hmap : (s.mapTasks fun q u => if q = n.task ∧ u.pid ≠ 0 then runningTask u else u)
        = s.mapTasks fun q u => if q = n.task then runningTask u else u := by
      refine mapTasks_congr fun q u hu => ?_
      by_cases hq : q = n.task
      · subst hq
        rw [ht] at hu
        cases hu
        simp [hpid]
      · simp [hq]
    rw [hmap]
    rfl

/-! ## The whole of `schedule` -/

/-- What `schedule` does to one task: one that still waits is as before, one that no longer waits has
its signal word cleared. -/
structure Scheduled (t t' : Task) : Prop extends Calm t t' where
  zero : t.pid = 0 → t' = t
  wait : t'.state = .wait → t' = t
  woken : t.state = .wait → t'.state ≠ .wait → t'.signal = 0
  signal : t.state ≠ .wait → t'.signal = t.signal

theorem Scheduled.refl (t : Task) : Scheduled t t :=
  ⟨.refl t, fun _ => rfl, fun _ => rfl, fun h h' => absurd h h', fun _ => rfl⟩

theorem Scheduled.not_wait {t t' : Task} (h : Scheduled t t') (hw : t.state ≠ .wait) :
    t'.state ≠ .wait := fun hx => hw (h.wait hx ▸ hx)

theorem Scheduled.trans {t t' t'' : Task} (h : Scheduled t t') (h' : Scheduled t' t'') :
    Scheduled t t'' where
  pid := h'.pid.trans h.pid
  pcbId := h'.pcbId.trans h.pcbId
  exitCode := h'.exitCode.trans h.exitCode
  father := h'.father.trans h.father
  zombine := h'.zombine.trans h.zombine
  stop hs := h'.stop (h.stop hs)
  zero h0 := (h'.zero (h.pid.trans h0)).trans (h.zero h0)
  wait hw := by
    have he := h'.wait hw
    exact he.trans (h.wait (he ▸ hw))
  woken hw hw'' := by
    by_cases hw' : t'.state = .wait
    · exact h'.woken hw' hw''
    · exact (h'.signal hw').trans (h.woken hw hw')
  signal hw := (h'.signal (h.not_wait hw)).trans (h.signal hw)

/-- What `alter_state` does to one task. -/
def alterMap (t : Task) : Task := if t.pid = 0 then t else alterTask t

theorem scheduled_alterMap (t : Task) : Scheduled t (alterMap t) := by
  unfold alterMap
  split
  · exact .refl t
  · rename_i h0
    unfold alterTask
    split
    · rename_i hw
      exact ⟨⟨⟨rfl, rfl, rfl⟩, rfl, by simp [hw.1], fun _ => nofun⟩, fun h => absurd h h0, nofun,
        fun _ _ => rfl, fun h => absurd hw.1 h⟩
    · exact .refl t

theorem scheduled_queueMap (t : Task) : Scheduled t (queueMap t) := by
  unfold queueMap
  split
  · rename_i h
    have hz := h.2.not_zombine
    have hw : t.state ≠ .wait := by rcases h.2.2 with h | h <;> rw [h] <;> decide
    exact ⟨⟨⟨rfl, rfl, rfl⟩, rfl, by simp [queuedTask, hz], fun _ => nofun⟩, fun h0 => absurd h0 h.1,
      nofun, fun h => absurd h hw, fun _ => rfl⟩
  · exact .refl t

theorem scheduled_running {t : Task} (h0 : t.pid ≠ 0) (h : t.state = .ready) :
    Scheduled t (runningTask t) :=
  ⟨⟨⟨rfl, rfl, rfl⟩, rfl, by simp [runningTask, h], fun _ => nofun⟩, fun h => absurd h h0,
    nofun, fun hw => absurd (h.symm.trans hw) (by decide), fun _ => rfl⟩

/-- `alter_state` changes every task but task 0. -/
theorem alterState_eq (hT : TabOk s) : alterState s = .ok (s.mapTasks fun _ t => alterMap t) :=
  hT.forTasks_slotsDown fun t => by unfold alterTask; split <;> exact ⟨rfl, rfl, rfl⟩

/-- `alter_state` leaves the queues in order. -/
theorem QueueOk.alter (h : QueueOk s Q) : QueueOk (s.mapTasks fun _ t => alterMap t) Q := by
  refine h.map fun p t ht => ?_
  by_cases hin : t.inQueue = true
  · -- a queued task is ready, so it is not one that waits
    have hr := (h.ready ht hin).1
    simp [alterMap, alterTask, hr]
  · unfold alterMap alterTask
    split <;> try split
    all_goals exact ⟨rfl, fun hx => absurd hx hin⟩

theorem OrderOk.alter (ho : OrderOk s) : OrderOk (s.mapTasks fun _ t => alterMap t) := by
  refine ho.map fun p t _ hz => ⟨fun hx => hz ((scheduled_alterMap t).zombine.2 hx), ?_⟩
  unfold alterMap alterTask
  split <;> try split
  all_goals exact id

theorem OrderOk.queue (ho : OrderOk s) : OrderOk (s.mapTasks fun _ t => queueMap t) := by
  refine ho.map fun p t _ hz => ⟨fun hx => hz ((scheduled_queueMap t).zombine.2 hx), ?_⟩
  unfold queueMap
  split
  · exact nextOrder_le
  · exact id

/-- `schedule()` changes the tasks as `Scheduled` says, keeps the queues in order and ends in task 0
or a task it has taken off its queue. -/
theorem schedule_spec (hT : TabOk s) (h : QueueOk s Q) (ho : OrderOk s) {fresh : List Ptr}
    (hs : schedule fresh s = .ok s') :
    ∃ Q' nodes head tail cur g,
      s' = { (s.mapTasks g).withQueues nodes head tail with current := cur } ∧
      QueueOk s' Q' ∧ OrderOk s' ∧ (∀ p t, s.tasks p = some t → Scheduled t (g p t)) ∧
      ∃ t', s'.tasks cur = some t' ∧ t'.inQueue = false ∧ (t'.pid = 0 ∨ t'.state = .running) := by
  obtain ⟨s₁, h1, hs⟩ := Res.bind_eq_ok.1 hs
  obtain ⟨⟨s₂, fresh'⟩, h2, h3⟩ := Res.bind_eq_ok.1 hs
  rw [alterState_eq hT] at h1
  cases h1
  have hT₁ := hT.map fun p t (_ : s.tasks p = some t) => (scheduled_alterMap t).toSameId
  obtain ⟨Q₂, nodes₂, head₂, tail₂, he₂, hq₂, -⟩ := setQueue_spec hT₁ h.alter ho.alter h2
  rw [mapTasks_mapTasks] at he₂
  have hT₂ : TabOk s₂ := by
    rw [he₂]
    exact (hT.map fun p t _ =>
      ((scheduled_alterMap t).trans (scheduled_queueMap _)).toSameId).withQueues ..
  have ho₂ : OrderOk s₂ := by
    have := ho.alter.queue
    rw [mapTasks_mapTasks] at this
    rwa [he₂]
  have htasks₂ : ∀ p t, s.tasks p = some t → s₂.tasks p = some (queueMap (alterMap t)) := by
    intro p t ht
    rw [he₂, withQueues_tasks, mapTasks_of_some ht]
  obtain ⟨Q₃, nodes, head, tail, cur, he₃, hq₃, hcur⟩ := dispatch_spec hT₂ hq₂ h3
  -- the task switched to was ready
  have hready : ∀ t, s₂.tasks cur = some t → t.pid ≠ 0 → t.state = .ready := by
    intro t ht h0
    rcases hcur with hc | ⟨t', ht', -, hin⟩
    · exact absurd ((hT₂.zero_iff ht).1 hc) h0
    · rw [ht] at ht'
      cases ht'
      exact (hq₂.ready ht hin).1
  refine ⟨Q₃, nodes, head, tail, cur, fun p t => if p = cur ∧ (queueMap (alterMap t)).pid ≠ 0 then
    runningTask (queueMap (alterMap t)) else queueMap (alterMap t), ?_, hq₃, ?_, ?_, ?_⟩
  · rw [he₃, he₂]
    show { ((s.mapTasks _).mapTasks _).withQueues _ _ _ with current := cur } = _
    rw [mapTasks_mapTasks]
  · rw [he₃]
    refine ho₂.map fun p t ht hz => ?_
    split
    · rename_i hp
      have hr := hready t (hp.1 ▸ ht) hp.2
      exact ⟨by rw [hr]; decide, id⟩
    · rename_i hp
      rw [if_neg hp] at hz
      exact ⟨hz, id⟩
  · intro p t ht
    have h12 := (scheduled_alterMap t).trans (scheduled_queueMap _)
    dsimp only
    split
    · rename_i hp
      exact h12.trans (scheduled_running hp.2 (hready _ (hp.1 ▸ htasks₂ p t ht) hp.2))
    · exact h12
  · obtain ⟨t, ht⟩ : ∃ t, s₂.tasks cur = some t := by
      rcases hcur with rfl | ⟨t, ht, -⟩
      · obtain ⟨t, ht, -⟩ := hT₂.zero
        exact ⟨t, ht⟩
      · exact ⟨t, ht⟩
    have ht₃ : s'.tasks cur = some (if cur = cur ∧ t.pid ≠ 0 then runningTask t else t) := by
      rw [he₃]
      exact mapTasks_of_some
        (g := fun q t => if q = cur ∧ t.pid ≠ 0 then runningTask t else t) ht
    refine ⟨_, ht₃, ?_⟩
    by_cases h0 : t.pid = 0
    · rw [if_neg fun hx => hx.2 h0]
      refine ⟨?_, .inl h0⟩
      by_contra hin
      exact (hq₂.ready ht (by simpa using hin)).2.1 h0
    · rw [if_pos ⟨rfl, h0⟩]
      exact ⟨rfl, .inr rfl⟩

end

end Sched
