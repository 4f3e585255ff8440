import OS404.Fs.Table
import OS404.Fs.Proof.LongName
import OS404.Lib.Run

/-!
# The identity of the entries of the inode table

Runs of `fat32_inode_get`, `fat32_inode_dup` and `fat32_inode_put` on the table, with the calls
counted for each entry since it was filled. Between the calls the rest of the kernel may change an
entry, but not its identity or its count.

* `fat32InodeGet_cases`: a get that returns takes a matching entry or, when there is none, the first
  free one;
* `table_identity`: when every `dev` has 8 bits and only inodes in use are duplicated, an inode is in
  at most one entry in use, whose count is exact and which is not recycled, and a get panics only when
  all entries are in use.

`fat32_inode_get` compares all 32 bits of `dev` with the 8 bits that it stored, and a pointer that is
kept after its last put may be to an entry whose inode is now in another one (`table_identity_lost`).
-/

namespace Fs

open Lib (Prog Run)
open Driver (Sector)
open Str

/-! ## Reading and writing entries -/

namespace Inodes

variable (t : Inodes) (e : Entry)

@[simp] theorem deref_slot (i : Fin nentry) : t.deref (.slot i) = t.entry i := rfl

@[simp] theorem store_slot_entry (i : Fin nentry) :
    (t.store (.slot i) e).entry = Function.update t.entry i e := rfl

theorem deref_store (p q : Ptr) : (t.store p e).deref q = if q = p then e else t.deref q := by
  cases p with
  | root => cases q <;> rfl
  | slot i =>
    cases q with
    | root => rfl
    | slot j => simp [Function.update_apply]

theorem store_store (e' : Entry) (p : Ptr) : (t.store p e).store p e' = t.store p e' := by
  cases p with
  | root => rfl
  | slot i => simp [store]

@[simp] theorem deref_store_self (p : Ptr) : (t.store p e).deref p = e := by
  rw [deref_store, if_pos rfl]

theorem deref_store_ne {p q : Ptr} (h : q ≠ p) : (t.store p e).deref q = t.deref q := by
  rw [deref_store, if_neg h]

end Inodes

/-! ## The functions -/

section
variable {t t' : Inodes} {dev inum parentoff : Nat} {name : List (BitVec 8)} {i : Fin nentry}

theorem incRef_ok {e e' : Entry} (h : e.incRef = .ok e') : e' = { e with ref := e.ref + 1 } := by
  unfold Entry.incRef at h
  split at h
  · cases h
  · exact (Except.ok.inj h).symm

theorem decRef_ok {e e' : Entry} (h : e.decRef = .ok e') : e' = { e with ref := e.ref - 1 } := by
  unfold Entry.decRef at h
  split at h
  · cases h
  · exact (Except.ok.inj h).symm

theorem fat32InodeDup_ok {p : Ptr} (h : fat32InodeDup t p = .ok t') :
    t' = t.store p { t.deref p with ref := (t.deref p).ref + 1 } := by
  obtain ⟨e, he, ht⟩ := Res.bind_eq_ok.1 h
  rw [← incRef_ok he]
  exact (Except.ok.inj ht).symm

theorem getLoop_hit {is : List (Fin nentry)} {empty : Option (Fin nentry)}
    (h : getLoop t dev inum is empty = .hit i) : (t.entry i).Matches dev inum := by
  induction is generalizing empty with
  | nil => cases h
  | cons j is ih =>
    rw [getLoop] at h
    split at h
    case isTrue hj =>
      cases h
      exact hj
    case isFalse => exact ih h

/-- The first free entry. -/
def firstFree (t : Inodes) : Option (Fin nentry) :=
  (List.finRange nentry).find? fun i => (t.entry i).ref = 0

theorem getLoop_empty {is : List (Fin nentry)} {empty o : Option (Fin nentry)}
    (h : getLoop t dev inum is empty = .empty o) :
    (∀ j ∈ is, ¬ (t.entry j).Matches dev inum) ∧
    o = empty.or (is.find? fun j => (t.entry j).ref = 0) := by
  induction is generalizing empty with
  | nil =>
    cases h
    exact ⟨nofun, by simp⟩
  | cons j is ih =>
    rw [getLoop] at h
    split at h
    · cases h
    · rename_i hj
      obtain ⟨hno, ho⟩ := ih h
      refine ⟨List.forall_mem_cons.2 ⟨hj, hno⟩, ?_⟩
      rw [ho]
      cases empty with
      | some k => simp
      | none =>
        by_cases h0 : (t.entry j).ref = 0
        · rw [if_pos ⟨rfl, h0⟩]
          simp [h0]
        · rw [if_neg fun hc => h0 hc.2]
          simp [h0]

theorem firstFree_some (h : firstFree t = some i) : (t.entry i).ref = 0 := by
  have h0 := List.find?_some h
  exact of_decide_eq_true h0

theorem firstFree_none (h : firstFree t = none) (i : Fin nentry) : (t.entry i).ref ≠ 0 :=
  fun h0 => List.find?_eq_none.1 h i (List.mem_finRange i) (decide_eq_true h0)

/-- A recycled entry has its new identity and one reference; links and parent are those of the
entry before. -/
structure Entry.Recycled (e e' : Entry) (dev inum parentoff : Nat) : Prop where
  dev : e'.dev = BitVec.ofNat 8 dev
  iIno : e'.iIno = inum
  ref : e'.ref = 1
  valid : e'.valid = false
  iNlink : e'.iNlink = e.iNlink
  parent : e'.parent = e.parent
  parentOff : e'.parentOff = parentoff
  fname : e'.fname.length = e.fname.length

theorem recycle_ok {e e' : Entry} (h : e.recycle dev inum name parentoff = .ok e') :
    e.Recycled e' dev inum parentoff := by
  obtain ⟨len, -, h⟩ := Res.bind_eq_ok.1 h
  obtain ⟨fname, hcopy, h⟩ := Res.bind_eq_ok.1 h
  cases h
  refine ⟨rfl, rfl, rfl, rfl, rfl, rfl, rfl, ?_⟩
  obtain ⟨hle, -, rfl⟩ := strncpy_eq_ok.1 hcopy
  rw [List.length_append, copied_length, List.length_drop]
  omega

/-- A get takes a matching entry, or the first free one when there is none. -/
theorem fat32InodeGet_cases (h : fat32InodeGet t dev inum name parentoff = .ok (i, t')) :
    ((t.entry i).Matches dev inum ∧
      t' = t.store (.slot i) { t.entry i with ref := (t.entry i).ref + 1 }) ∨
    ((∀ j, ¬ (t.entry j).Matches dev inum) ∧ firstFree t = some i ∧
      ∃ e, (t.entry i).Recycled e dev inum parentoff ∧ t' = t.store (.slot i) e) := by
  unfold fat32InodeGet at h
  split at h
  · rename_i j hj
    obtain ⟨e, he, ht⟩ := Res.bind_eq_ok.1 h
    cases ht
    rw [incRef_ok he]
    exact .inl ⟨getLoop_hit hj, rfl⟩
  · cases h
  · rename_i j hj
    obtain ⟨e, he, ht⟩ := Res.bind_eq_ok.1 h
    cases ht
    obtain ⟨hno, hfree⟩ := getLoop_empty hj
    exact .inr ⟨fun j => hno j (List.mem_finRange j), hfree.symm, e, recycle_ok he, rfl⟩

/-! ## Panics -/

theorem recycle_error {e : Entry} {f : Fault} (h : e.recycle dev inum name parentoff = .error f) :
    f = .ub := by
  cases Res.bind_eq_error.1 h with
  | inl h => exact strlen_error h
  | inr h =>
    obtain ⟨len, -, h⟩ := h
    cases Res.bind_eq_error.1 h with
    | inl h => exact strncpy_error h
    | inr h =>
      obtain ⟨fname, -, h⟩ := h
      cases h

/-- A get panics only when no entry is free. -/
theorem fat32InodeGet_panic {msg : String}
    (h : fat32InodeGet t dev inum name parentoff = .error (.panic msg)) : firstFree t = none := by
  unfold fat32InodeGet at h
  split at h
  · cases Res.bind_eq_error.1 h with
    | inl h =>
      unfold Entry.incRef at h
      split at h <;> cases h
    | inr h =>
      obtain ⟨e, -, h⟩ := h
      cases h
  · rename_i hj
    exact (getLoop_empty hj).2.symm
  · cases Res.bind_eq_error.1 h with
    | inl h => cases recycle_error h
    | inr h =>
      obtain ⟨e, -, h⟩ := h
      cases h

/-- A put of the last reference to a file without links deletes it. -/
abbrev Entry.Deleted (e : Entry) : Prop := e.ref = 1 ∧ e.valid ∧ e.iNlink = 0

theorem not_deleted_of_iNlink {e : Entry} (h : e.iNlink ≠ 0) : ¬ e.Deleted := fun hd => h hd.2.2

/-- Every other put takes one reference away. -/
theorem fat32InodePut_run {sb sb' : Superblock} {fuel : Nat} {d d' : Nat → Sector} {p : Ptr}
    (hn : ¬ (t.deref p).Deleted) (h : (fat32InodePut sb fuel t p).run d = .ok ((sb', t'), d')) :
    sb' = sb ∧ d' = d ∧ t' = t.store p { t.deref p with ref := (t.deref p).ref - 1 } := by
  unfold fat32InodePut at h
  dsimp only at h
  rw [if_neg hn] at h
  obtain ⟨r, d₁, hr, hrest⟩ := Prog.run_bind_eq_ok.1 h
  cases hr
  obtain ⟨e, d₁, hlift, hlast⟩ := Prog.run_bind_eq_ok.1 hrest
  obtain ⟨he, rfl⟩ := Prog.run_lift_eq_ok.1 hlift
  rw [decRef_ok he] at hlast
  cases hlast
  exact ⟨rfl, rfl, rfl⟩

theorem fat32InodePut_returns {sb : Superblock} {fuel : Nat} {d : Nat → Sector} {p : Ptr}
    (hn : ¬ (t.deref p).Deleted) (href : (t.deref p).ref ≠ intMin) :
    (fat32InodePut sb fuel t p).run d =
      .ok ((sb, t.store p { t.deref p with ref := (t.deref p).ref - 1 }), d) := by
  have hdec : (t.deref p).decRef = .ok { t.deref p with ref := (t.deref p).ref - 1 } := if_neg href
  unfold fat32InodePut
  dsimp only
  rw [if_neg hn]
  show (Prog.lift (t.deref p).decRef >>= fun e => pure (sb, t.store p e)).run d = _
  rw [hdec]
  rfl

end

/-! ## Runs -/

/-- The calls on the table, and changes of an entry by the rest of the kernel. -/
inductive TableOp where
  | get (dev inum : Nat) (name : List (BitVec 8)) (parentoff : Nat)
  | dup (i : Fin nentry)
  | put (i : Fin nentry)
  | change (i : Fin nentry) (e : Entry)

/-- The inodes with the number of fills of each entry, and the calls on it since the last one. -/
structure Counted where
  inodes : Inodes
  fills : Fin nentry → Nat
  gets : Fin nentry → Nat
  dups : Fin nentry → Nat
  puts : Fin nentry → Nat

namespace Counted

/-- The table after `inode_table_init`. -/
def init (ip : Inode) : Counted :=
  { inodes := inodeTableInit ip, fills := fun _ => 0, gets := fun _ => 0, dups := fun _ => 0
    puts := fun _ => 0 }

/-- Counting a get that returned entry `i`. -/
def countGet (s : Counted) (i : Fin nentry) (t : Inodes) : Counted :=
  if 0 < (s.inodes.entry i).ref then
    { s with inodes := t, gets := Function.update s.gets i (s.gets i + 1) }
  else
    { inodes := t
      fills := Function.update s.fills i (s.fills i + 1)
      gets := Function.update s.gets i 1
      dups := Function.update s.dups i 0
      puts := Function.update s.puts i 0 }

section
variable (sb : Superblock) (fuel : Nat) (d : Nat → Sector)

/-- One call, on a volume with superblock `sb` and contents `d`. -/
def step (s : Counted) : TableOp → Res Counted
  | .get dev inum name parentoff => do
    let (i, t) ← fat32InodeGet s.inodes dev inum name parentoff
    return s.countGet i t
  | .dup i => do
    let t ← fat32InodeDup s.inodes (.slot i)
    return { s with inodes := t, dups := Function.update s.dups i (s.dups i + 1) }
  | .put i => do
    let ((_, t), _) ← (fat32InodePut sb fuel s.inodes (.slot i)).run d
    return { s with inodes := t, puts := Function.update s.puts i (s.puts i + 1) }
  | .change i e => .ok { s with inodes := s.inodes.store (.slot i) e }

/-- The callers put an inode with links, and at most as often as they got or duplicated it; the rest
of the kernel leaves identity and count. -/
def Fair (s : Counted) : TableOp → Prop
  | .get _ _ _ _ => True
  | .dup _ => True
  | .put i => (s.inodes.entry i).iNlink ≠ 0 ∧ s.puts i < s.gets i + s.dups i
  | .change i e => e.dev = (s.inodes.entry i).dev ∧ e.iIno = (s.inodes.entry i).iIno ∧
      e.ref = (s.inodes.entry i).ref

/-- The callers pass devices of 8 bits and duplicate inodes in use. -/
def Sound (s : Counted) : TableOp → Prop
  | .get dev _ _ _ => dev < 2 ^ 8
  | .dup i => 0 < (s.inodes.entry i).ref
  | .put _ => True
  | .change _ _ => True

instance (s : Counted) : ∀ op, Decidable (s.Fair op)
  | .get _ _ _ _ => isTrue trivial
  | .dup _ => isTrue trivial
  | .put _ => inferInstanceAs (Decidable (_ ∧ _))
  | .change _ _ => inferInstanceAs (Decidable (_ ∧ _ ∧ _))

instance (s : Counted) : ∀ op, Decidable (s.Sound op)
  | .get _ _ _ _ => inferInstanceAs (Decidable (_ < _))
  | .dup _ => inferInstanceAs (Decidable (_ < _))
  | .put _ => isTrue trivial
  | .change _ _ => isTrue trivial

/-- A call that returns. -/
def Step (s : Counted) (op : TableOp) (s' : Counted) : Prop :=
  s.Fair op ∧ s.step sb fuel d op = .ok s'

/-- A call that returns, by callers that keep to the rules. -/
def SoundStep (s : Counted) (op : TableOp) (s' : Counted) : Prop :=
  s.Sound op ∧ s.Step sb fuel d op s'

/-- `Step` as a function. -/
def next (s : Counted) (op : TableOp) : Option Counted :=
  if s.Fair op then (s.step sb fuel d op).toOption else none

/-- `SoundStep` as a function. -/
def soundNext (s : Counted) (op : TableOp) : Option Counted :=
  if s.Sound op then s.next sb fuel d op else none

end

/-- The invariant of the table. -/
structure Ok (s : Counted) : Prop where
  sole : ∀ i j, 0 < (s.inodes.entry i).ref → 0 < (s.inodes.entry j).ref →
    (s.inodes.entry i).dev = (s.inodes.entry j).dev →
    (s.inodes.entry i).iIno = (s.inodes.entry j).iIno → i = j
  count : ∀ i, (s.inodes.entry i).ref = s.gets i + s.dups i - s.puts i
  nonneg : ∀ i, 0 ≤ (s.inodes.entry i).ref

/-- An entry in use keeps its identity and is not filled again. -/
def Keeps (s s' : Counted) : Prop :=
  ∀ i, 0 < (s.inodes.entry i).ref →
    (s'.inodes.entry i).dev = (s.inodes.entry i).dev ∧
    (s'.inodes.entry i).iIno = (s.inodes.entry i).iIno ∧ s'.fills i = s.fills i

variable {sb : Superblock} {fuel : Nat} {d : Nat → Sector} {s s' : Counted} {i : Fin nentry}
  {e : Entry}

/-- The call changes entry `i` to `e` and counts nothing for the others. -/
structure Sets (s s' : Counted) (i : Fin nentry) (e : Entry) : Prop where
  inodes : s'.inodes = s.inodes.store (.slot i) e
  others : ∀ j, j ≠ i → s'.fills j = s.fills j ∧ s'.gets j = s.gets j ∧ s'.dups j = s.dups j ∧
    s'.puts j = s.puts j

namespace Sets

theorem entry_self (h : Sets s s' i e) : s'.inodes.entry i = e := by
  rw [h.inodes]
  exact Function.update_self ..

theorem entry_ne (h : Sets s s' i e) {j : Fin nentry} (hj : j ≠ i) :
    s'.inodes.entry j = s.inodes.entry j := by
  rw [h.inodes]
  exact Function.update_of_ne hj ..

theorem keeps (h : Sets s s' i e)
    (hi : 0 < (s.inodes.entry i).ref →
      e.dev = (s.inodes.entry i).dev ∧ e.iIno = (s.inodes.entry i).iIno ∧ s'.fills i = s.fills i) :
    s.Keeps s' := by
  intro j hj
  by_cases hji : j = i
  · subst hji
    rw [h.entry_self]
    exact hi hj
  · rw [h.entry_ne hji]
    exact ⟨rfl, rfl, (h.others j hji).1⟩

/-- The invariant after a change of one entry, which is not in use for the inode of another one. -/
theorem ok (h : Sets s s' i e) (hs : s.Ok) (hcount : e.ref = s'.gets i + s'.dups i - s'.puts i)
    (h0 : 0 ≤ e.ref)
    (hsole : 0 < e.ref → ∀ j, 0 < (s.inodes.entry j).ref → (s.inodes.entry j).dev = e.dev →
      (s.inodes.entry j).iIno = e.iIno → j = i) : s'.Ok := by
  refine ⟨fun j k hj hk hdev hino => ?_, fun j => ?_, fun j => ?_⟩
  · by_cases hji : j = i
    · subst hji
      rw [h.entry_self] at hj hdev hino
      by_cases hki : k = j
      · exact hki.symm
      · rw [h.entry_ne hki] at hk hdev hino
        exact (hsole hj k hk hdev.symm hino.symm).symm
    · rw [h.entry_ne hji] at hj hdev hino
      by_cases hki : k = i
      · subst hki
        rw [h.entry_self] at hk hdev hino
        exact hsole hk j hj hdev hino
      · rw [h.entry_ne hki] at hk hdev hino
        exact hs.sole j k hj hk hdev hino
  · by_cases hji : j = i
    · subst hji
      rw [h.entry_self]
      exact hcount
    · obtain ⟨-, hg, hd, hp⟩ := h.others j hji
      rw [h.entry_ne hji, hg, hd, hp]
      exact hs.count j
  · by_cases hji : j = i
    · subst hji
      rw [h.entry_self]
      exact h0
    · rw [h.entry_ne hji]
      exact hs.nonneg j

/-- The case of an entry that keeps its identity. -/
theorem ok_of_same (h : Sets s s' i e) (hs : s.Ok)
    (hcount : e.ref = s'.gets i + s'.dups i - s'.puts i) (h0 : 0 ≤ e.ref)
    (hlive : 0 < e.ref → 0 < (s.inodes.entry i).ref)
    (hdev : e.dev = (s.inodes.entry i).dev) (hino : e.iIno = (s.inodes.entry i).iIno) : s'.Ok := by
  refine h.ok hs hcount h0 fun he j hj hjd hji => ?_
  exact hs.sole j i hj (hlive he) (hjd.trans hdev) (hji.trans hino)

end Sets

/-! ### The steps -/

section
variable {t : Inodes}

theorem sets_countGet_hit {dev inum : Nat} (hm : (s.inodes.entry i).Matches dev inum)
    (ht : t = s.inodes.store (.slot i) e) :
    Sets s (s.countGet i t) i e ∧ (s.countGet i t).fills i = s.fills i ∧
      (s.countGet i t).gets i = s.gets i + 1 ∧ (s.countGet i t).dups i = s.dups i ∧
      (s.countGet i t).puts i = s.puts i := by
  unfold countGet
  rw [if_pos hm.1]
  refine ⟨⟨ht, fun j hj => ⟨rfl, Function.update_of_ne hj .., rfl, rfl⟩⟩, rfl, ?_, rfl, rfl⟩
  exact Function.update_self ..

theorem sets_countGet_fill (h0 : (s.inodes.entry i).ref = 0) (ht : t = s.inodes.store (.slot i) e) :
    Sets s (s.countGet i t) i e ∧ (s.countGet i t).gets i = 1 ∧ (s.countGet i t).dups i = 0 ∧
      (s.countGet i t).puts i = 0 := by
  unfold countGet
  rw [if_neg (by omega)]
  refine ⟨⟨ht, fun j hj => ⟨?_, ?_, ?_, ?_⟩⟩, ?_, ?_, ?_⟩
  all_goals first
    | exact Function.update_of_ne hj ..
    | exact Function.update_self ..

end

theorem Ok.get (hs : s.Ok) {dev inum parentoff : Nat} {name : List (BitVec 8)} (hdev : dev < 2 ^ 8)
    (h : s.step sb fuel d (.get dev inum name parentoff) = .ok s') : s'.Ok ∧ s.Keeps s' := by
  obtain ⟨⟨i, t⟩, hget, h⟩ := Res.bind_eq_ok.1 h
  cases h
  obtain ⟨hm, ht⟩ | ⟨hno, hfree, e, hr, ht⟩ := fat32InodeGet_cases hget
  · obtain ⟨hset, hf, hg, hd, hp⟩ := sets_countGet_hit hm ht
    have hc := hs.count i
    have hpos := hm.1
    refine ⟨hset.ok_of_same hs ?_ ?_ (fun _ => hpos) rfl rfl, hset.keeps fun _ => ⟨rfl, rfl, hf⟩⟩
    · dsimp only
      rw [hg, hd, hp]
      omega
    · dsimp only
      omega
  · have h0 := firstFree_some hfree
    obtain ⟨hset, hg, hd, hp⟩ := sets_countGet_fill h0 ht
    refine ⟨hset.ok hs ?_ ?_ ?_, hset.keeps fun hpos => absurd hpos (by omega)⟩
    · rw [hg, hd, hp, hr.ref]
      rfl
    · rw [hr.ref]
      decide
    · intro _ j hj hjd hji
      refine absurd ⟨hj, ?_, hji.trans hr.iIno⟩ (hno j)
      rw [hjd, hr.dev, BitVec.toNat_ofNat]
      exact Nat.mod_eq_of_lt hdev

theorem Ok.dup (hs : s.Ok) (hpos : 0 < (s.inodes.entry i).ref)
    (h : s.step sb fuel d (.dup i) = .ok s') : s'.Ok ∧ s.Keeps s' := by
  obtain ⟨t, hdup, h⟩ := Res.bind_eq_ok.1 h
  cases h
  have hset : Sets s { s with inodes := t, dups := Function.update s.dups i (s.dups i + 1) } i _ :=
    ⟨fat32InodeDup_ok hdup, fun j hj => ⟨rfl, rfl, Function.update_of_ne hj .., rfl⟩⟩
  have hc := hs.count i
  refine ⟨hset.ok_of_same hs ?_ ?_ (fun _ => hpos) rfl rfl, hset.keeps fun _ => ⟨rfl, rfl, rfl⟩⟩
  · dsimp only [Inodes.deref_slot]
    rw [Function.update_self]
    omega
  · dsimp only [Inodes.deref_slot]
    omega

theorem Ok.put (hs : s.Ok) (hlink : (s.inodes.entry i).iNlink ≠ 0)
    (hput : s.puts i < s.gets i + s.dups i) (h : s.step sb fuel d (.put i) = .ok s') :
    s'.Ok ∧ s.Keeps s' := by
  obtain ⟨⟨⟨sb', t⟩, d'⟩, hrun, h⟩ := Res.bind_eq_ok.1 h
  cases h
  obtain ⟨-, -, ht⟩ := fat32InodePut_run (p := .slot i) (not_deleted_of_iNlink hlink) hrun
  have hset : Sets s { s with inodes := t, puts := Function.update s.puts i (s.puts i + 1) } i _ :=
    ⟨ht, fun j hj => ⟨rfl, rfl, rfl, Function.update_of_ne hj ..⟩⟩
  have hc := hs.count i
  refine ⟨hset.ok_of_same hs ?_ ?_ (fun _ => ?_) rfl rfl, hset.keeps fun _ => ⟨rfl, rfl, rfl⟩⟩
  · dsimp only [Inodes.deref_slot]
    rw [Function.update_self]
    omega
  · dsimp only [Inodes.deref_slot]
    omega
  · omega

theorem Ok.change (hs : s.Ok) (hdev : e.dev = (s.inodes.entry i).dev)
    (hino : e.iIno = (s.inodes.entry i).iIno) (href : e.ref = (s.inodes.entry i).ref)
    (h : s.step sb fuel d (.change i e) = .ok s') : s'.Ok ∧ s.Keeps s' := by
  cases h
  have hset : Sets s { s with inodes := s.inodes.store (.slot i) e } i e :=
    ⟨rfl, fun j hj => ⟨rfl, rfl, rfl, rfl⟩⟩
  refine ⟨hset.ok_of_same hs ?_ ?_ (fun he => href ▸ he) hdev hino,
    hset.keeps fun _ => ⟨hdev, hino, rfl⟩⟩
  · rw [href]
    exact hs.count i
  · rw [href]
    exact hs.nonneg i

theorem Ok.step (hs : s.Ok) {op : TableOp} (hst : SoundStep sb fuel d s op s') :
    s'.Ok ∧ s.Keeps s' := by
  obtain ⟨hsound, hfair, h⟩ := hst
  cases op with
  | get dev inum name parentoff => exact hs.get hsound h
  | dup i => exact hs.dup hsound h
  | put i => exact hs.put hfair.1 hfair.2 h
  | change i e => exact hs.change hfair.1 hfair.2.1 hfair.2.2 h

theorem init_ok (ip : Inode) : (init ip).Ok :=
  ⟨fun _ _ h => absurd h (Int.lt_irrefl 0), fun _ => rfl, fun _ => Int.le_refl 0⟩

/-- In every run in which the callers keep to the rules, an inode is in at most one entry in use, its
count is the number of gets and dups less the puts since it was filled, entries in use are kept, and
a get panics only when all entries are in use. -/
theorem table_identity {ip : Inode} {ops : List TableOp}
    (hrun : Run (SoundStep sb fuel d) (init ip) ops s) :
    (∀ i j, 0 < (s.inodes.entry i).ref → 0 < (s.inodes.entry j).ref →
      (s.inodes.entry i).dev = (s.inodes.entry j).dev →
      (s.inodes.entry i).iIno = (s.inodes.entry j).iIno → i = j) ∧
    (∀ i, (s.inodes.entry i).ref = s.gets i + s.dups i - s.puts i) ∧
    (∀ op s', SoundStep sb fuel d s op s' → s.Keeps s') ∧
    ∀ dev inum name parentoff msg,
      fat32InodeGet s.inodes dev inum name parentoff = .error (.panic msg) →
      ∀ i, 0 < (s.inodes.entry i).ref := by
  have hs : s.Ok := hrun.invariant (init_ok ip) fun _ _ _ ht hst => (ht.step hst).1
  refine ⟨hs.sole, hs.count, fun op s' hst => (hs.step hst).2, ?_⟩
  intro dev inum name parentoff msg hget i
  have hne := firstFree_none (fat32InodeGet_panic hget) i
  have hnn := hs.nonneg i
  omega

/-! ## Two runs -/

theorem step_of_next {op : TableOp} (h : s.next sb fuel d op = some s') : s.Step sb fuel d op s' := by
  unfold next at h
  split at h
  case isTrue hf => exact ⟨hf, Res.eq_ok_of_toOption h⟩
  case isFalse => cases h

theorem soundStep_of_next {op : TableOp} (h : s.soundNext sb fuel d op = some s') :
    s.SoundStep sb fuel d op s' := by
  unfold soundNext at h
  split at h
  case isTrue hs => exact ⟨hs, step_of_next h⟩
  case isFalse => cases h

/-- Entry of inode `inum` with `ref` references and a link. -/
def linked (inum : Nat) (ref : Int) : Entry :=
  { Entry.zero with dev := 1, iIno := inum, ref, iNlink := 1 }

/-- Two callers share an inode, and one of them is done with it. -/
def shared : List TableOp :=
  [.get 1 8 [97, 0] 2, .get 1 8 [97, 0] 2, .change 0 (linked 8 2), .dup 0, .put 0]

/-- Inodes 8 and 9 come and go; then 9 is got again, and its old pointer duplicated. -/
def revived : List TableOp :=
  [.get 1 8 [97, 0] 2, .get 1 9 [98, 0] 4, .change 0 (linked 8 1), .change 1 (linked 9 1), .put 0,
    .put 1, .get 1 9 [98, 0] 4, .dup 1]

/-- A device of more than 8 bits. -/
def wideDev : List TableOp := [.get 256 8 [97, 0] 2, .get 256 8 [97, 0] 2]

theorem table_identity_shared :
    ∃ s, Run (SoundStep blankSb 0 fun _ _ => 0) (init blankRoot) shared s ∧
      (s.inodes.entry 0).ref = 2 ∧ ∀ i, (s.inodes.entry i).ref = s.gets i + s.dups i - s.puts i := by
  have hx : ((Lib.exec (soundNext blankSb 0 fun _ _ => 0) (init blankRoot) shared).any fun s =>
      decide ((s.inodes.entry 0).ref = 2)) = true := by decide +kernel
  obtain ⟨s, hs, hx⟩ := (Option.any_eq_true _ _).1 hx
  have hrun : Run (SoundStep blankSb 0 fun _ _ => 0) (init blankRoot) shared s := by
    refine Lib.run_of_exec ?_ hs
    exact fun _ _ _ h => soundStep_of_next h
  exact ⟨s, hrun, of_decide_eq_true hx, (table_identity hrun).2.1⟩

/-- Inode 9 is in two entries in use, and so is inode 8 of device 256. -/
theorem table_identity_lost :
    (∃ s, Run (Step blankSb 0 fun _ _ => 0) (init blankRoot) revived s ∧
      (s.inodes.entry 0).Matches 1 9 ∧ (s.inodes.entry 1).Matches 1 9) ∧
    ∃ s, Run (Step blankSb 0 fun _ _ => 0) (init blankRoot) wideDev s ∧
      (s.inodes.entry 0).Matches 0 8 ∧ (s.inodes.entry 1).Matches 0 8 := by
  constructor
  · have hx : ((Lib.exec (next blankSb 0 fun _ _ => 0) (init blankRoot) revived).any fun s =>
        decide ((s.inodes.entry 0).Matches 1 9 ∧ (s.inodes.entry 1).Matches 1 9)) = true := by
      decide +kernel
    obtain ⟨s, hs, hx⟩ := (Option.any_eq_true _ _).1 hx
    refine ⟨s, Lib.run_of_exec ?_ hs, of_decide_eq_true hx⟩
    exact fun _ _ _ h => step_of_next h
  · have hx : ((Lib.exec (next blankSb 0 fun _ _ => 0) (init blankRoot) wideDev).any fun s =>
        decide ((s.inodes.entry 0).Matches 0 8 ∧ (s.inodes.entry 1).Matches 0 8)) = true := by
      decide +kernel
    obtain ⟨s, hs, hx⟩ := (Option.any_eq_true _ _).1 hx
    refine ⟨s, Lib.run_of_exec ?_ hs, of_decide_eq_true hx⟩
    exact fun _ _ _ h => step_of_next h

end Counted

end Fs
