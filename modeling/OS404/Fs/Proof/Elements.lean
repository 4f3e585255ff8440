import OS404.Fs.Proof.PathNames
import OS404.Fs.Proof.Slots
import OS404.Fs.File

/-!
# The elements of a path

`skepelems` calls `skepelem` until it returns `NULL`, as the loop of `inode_namex` does when every
lookup finds something.

* `skepelem_enumerates`: on a path without leading dots in its pieces the calls give the pieces, and
  the rest of the path is empty at the last one.
* `name_buffer_iff`: the calls stay inside an array of `NAME_LONG_MAX` bytes exactly when all names
  are shorter; `skepelem` itself cuts an element off at `PATH_LONG_MAX` only.
-/

namespace Fs

open Lib (Prog)
open Driver (Sector)
open Str

/-! ## Pieces without leading dots -/

section
variable {path elem rest : List (BitVec 8)}

theorem pieces_append_slash (xs ys : List (BitVec 8)) :
    pieces (xs ++ 47 :: ys) = pieces xs ++ pieces ys := by
  unfold pieces
  rw [List.splitOn_append_cons_self, List.filter_append]

theorem pieces_cons_ne_nil {c : BitVec 8} (hc : c ≠ 47) (s : List (BitVec 8)) : pieces (c :: s) ≠ [] := by
  obtain ⟨p, ps, hps⟩ := List.exists_cons_of_ne_nil (List.splitOn_ne_nil 47 s)
  unfold pieces
  rw [List.splitOn_cons_eq_if_modifyHead, if_neg (by simpa using hc), hps, List.modifyHead_cons,
    List.filter_cons_of_pos rfl]
  exact List.cons_ne_nil _ _

theorem walkNames_eq_pieces (h : ∀ p ∈ pieces path, p.head? ≠ some 46) :
    walkNames path = pieces path := by
  have hne : ∀ p ∈ pieces path, p ≠ [] := fun p hp => pieces_ne_nil hp
  rw [walkNames_pieces]
  generalize pieces path = ps at h hne
  induction ps with
  | nil => rfl
  | cons p ps ih =>
    obtain ⟨hdot, hdots⟩ := List.forall_mem_cons.1 h
    obtain ⟨hp, hps⟩ := List.forall_mem_cons.1 hne
    have hu : undotted p = p := by
      obtain ⟨c, p, rfl⟩ := List.exists_cons_of_ne_nil hp
      exact List.dropWhile_cons_of_neg (by simpa using hdot)
    rw [undottedNames_cons (by rwa [hu]), hu, ih hdots hps]

theorem Taken.pieces_subset (h : Taken path elem rest) : pieces rest ⊆ pieces path := by
  obtain ⟨skip, sep, rfl, -, hsep, hrest⟩ := h.split
  by_cases hnil : rest = []
  · subst hnil
    exact fun p hp => by cases hp
  -- the last of the slashes before the rest
  · have hlast := List.dropLast_append_getLast (hrest hnil)
    rw [hsep _ (List.getLast_mem (hrest hnil))] at hlast
    have hpath : skip ++ (elem ++ (sep ++ rest)) = (skip ++ (elem ++ sep.dropLast)) ++ 47 :: rest := by
      conv_lhs => rw [← hlast]
      simp
    rw [hpath, pieces_append_slash]
    exact List.subset_append_right _ _

/-- The first piece, when no piece starts with a dot. -/
theorem Taken.pieces_eq (h : Taken path elem rest) (hdot : ∀ p ∈ pieces path, p.head? ≠ some 46) :
    pieces path = elem :: pieces rest := by
  rw [← walkNames_eq_pieces hdot, h.walkNames_eq,
    walkNames_eq_pieces fun p hp => hdot p (h.pieces_subset hp)]

theorem Taken.rest_eq_nil_iff (h : Taken path elem rest) : rest = [] ↔ pieces rest = [] := by
  refine ⟨fun he => by rw [he]; rfl, fun he => ?_⟩
  cases rest with
  | nil => rfl
  | cons c rest => exact absurd he (pieces_cons_ne_nil (fun hc => h.rest (by rw [hc]; rfl)) rest)

end

/-! ## Calling `skepelem` until it returns `NULL` -/

/-- The calls of `skepelem` from `path` on, with a bound on their number: what each of them returns and
leaves in `name`. -/
def skepelems : Nat → List (BitVec 8) → List (BitVec 8) → Res (List (List (BitVec 8) × List (BitVec 8)))
  | 0, _, _ => .error .loop
  | n + 1, path, name => do
    let elem ← skepelem path name
    match elem with
    | none => return []
    | some (path, name) => do
      let calls ← skepelems n path name
      return (path, name) :: calls

/-- The calls take `names` off `path`: each of them leaves its name with a terminator in the array, goes
ahead in the path, and returns an empty rest if it is the last one and only then. -/
structure Enumerates (path : List (BitVec 8)) (names : List (List (BitVec 8)))
    (calls : List (List (BitVec 8) × List (BitVec 8))) : Prop where
  names : List.Forall₂ (fun n call => ∃ tail, call.2 = n ++ 0 :: tail ∧ call.2.length = nameLongMax)
    names calls
  advances : List.IsChain (fun p rest => rest <:+ p ∧ rest.length < p.length) (path :: calls.map Prod.fst)
  last : ∀ pre call post, calls = pre ++ call :: post → (call.1 = [] ↔ post = [])

theorem Enumerates.nil (path : List (BitVec 8)) : Enumerates path [] [] where
  names := .nil
  advances := .singleton path
  last pre call post h := by simp at h

/-- One more call in front. -/
theorem Enumerates.cons {path n rest name : List (BitVec 8)} {names : List (List (BitVec 8))}
    {calls : List (List (BitVec 8) × List (BitVec 8))} (h : Enumerates rest names calls)
    (htaken : Taken path n rest) (hname : ∃ tail, name = n ++ 0 :: tail ∧ name.length = nameLongMax)
    (hlast : rest = [] ↔ names = []) : Enumerates path (n :: names) ((rest, name) :: calls) where
  names := .cons hname h.names
  advances := by
    rw [List.map_cons]
    exact .cons_cons ⟨htaken.suffix, htaken.length_lt⟩ h.advances
  last pre call post hsplit := by
    cases pre with
    | nil =>
      obtain ⟨rfl, rfl⟩ := List.cons.inj hsplit
      rw [hlast, ← List.length_eq_zero_iff, ← List.length_eq_zero_iff, h.names.length_eq]
    | cons x pre =>
      obtain ⟨-, hsplit⟩ := List.cons.inj hsplit
      exact h.last pre call post hsplit

/-- **`skepelem` enumerates the pieces of a path** that do not start with a dot and for which there is
room in `name`. -/
theorem skepelem_enumerates {path name : List (BitVec 8)} {n : Nat} (hn : path.length < n)
    (hname : name.length = nameLongMax) (hdot : ∀ p ∈ pieces path, p.head? ≠ some 46)
    (hshort : ∀ p ∈ pieces path, p.length < nameLongMax) :
    ∃ calls, skepelems n path name = .ok calls ∧ Enumerates path (pieces path) calls := by
  induction n generalizing path name with
  | zero => exact absurd hn (Nat.not_lt_zero _)
  | succ n ih =>
    rw [skepelems]
    rcases skepelem_cases path with ⟨hnil, hrun⟩ | ⟨elem, rest, htaken, hrun⟩
    · rw [walkNames_eq_pieces hdot] at hnil
      rw [hrun, hnil]
      exact ⟨[], rfl, .nil path⟩
    · have hpieces := htaken.pieces_eq hdot
      have hlt := htaken.length_lt
      have hsub := htaken.pieces_subset
      have hlen := hshort elem (by rw [hpieces]; exact List.mem_cons_self)
      have hstored := storedElem_length hname hlen
      obtain ⟨calls, hcalls, henum⟩ := ih (by omega) hstored (fun p hp => hdot p (hsub hp))
        fun p hp => hshort p (hsub hp)
      rw [hrun, storeElem_short hname hlen, Res.ok_bind, Res.ok_bind]
      dsimp only
      rw [hcalls, hpieces]
      exact ⟨_, rfl, henum.cons htaken ⟨_, rfl, hstored⟩ htaken.rest_eq_nil_iff⟩

/-- `//a//bb/`. -/
theorem skepelem_enumerates_slashes :
    ∃ calls, skepelems 9 [47, 47, 97, 47, 47, 98, 98, 47] (List.replicate nameLongMax 0) = .ok calls ∧
      Enumerates [47, 47, 97, 47, 47, 98, 98, 47] [[97], [98, 98]] calls := by
  have hpieces : pieces [47, 47, 97, 47, 47, 98, 98, 47] = [[97], [98, 98]] := by decide
  have h := @skepelem_enumerates [47, 47, 97, 47, 47, 98, 98, 47] (List.replicate nameLongMax 0) 9
    (by decide) List.length_replicate (by decide) (by decide)
  rwa [hpieces] at h

/-! ## The array `name` -/

/-- A call of `skepelem` with an array of `NAME_LONG_MAX` bytes stores inside it, and there is a
terminator in it afterwards. -/
def Fits (path : List (BitVec 8)) : Prop :=
  ∀ name, name.length = nameLongMax → ∃ r, skepelem path name = .ok r ∧
    ∀ rest name', r = some (rest, name') → name'.length = nameLongMax ∧ 0 ∈ name'

/-- The paths with which `skepelem` is called from `path` on. -/
inductive Called (path : List (BitVec 8)) : List (BitVec 8) → Prop
  | start : Called path path
  | next {p rest name name' : List (BitVec 8)} : Called path p → name.length = nameLongMax →
    skepelem p name = .ok (some (rest, name')) → Called path rest

section
variable {path p elem rest name name' : List (BitVec 8)}

/-- The calls from the rest on are calls from the path on. -/
theorem Called.of_rest
    (hrun : ∀ name, skepelem path name = storeElem elem name >>= fun name => .ok (some (rest, name)))
    (hlen : elem.length < nameLongMax) (h : Called rest p) : Called path p := by
  induction h with
  | start =>
    have hcall := hrun (List.replicate nameLongMax 0)
    rw [storeElem_short List.length_replicate hlen, Res.ok_bind] at hcall
    exact .next .start List.length_replicate hcall
  | next _ hname hcall ih => exact .next ih hname hcall

/-- One call: its element has to be shorter than the array. -/
theorem fits_iff (path : List (BitVec 8)) :
    Fits path ↔ ∀ n ∈ (walkNames path).head?, n.length < nameLongMax := by
  rcases skepelem_cases path with ⟨hnil, hrun⟩ | ⟨elem, rest, htaken, hrun⟩
  · rw [hnil]
    constructor
    · intro _ n hn
      cases hn
    · intro _ name _
      exact ⟨none, hrun name, fun _ _ he => by cases he⟩
  rw [htaken.walkNames_eq, List.head?_cons]
  constructor
  · rintro h n ⟨⟩
    by_contra hlen
    obtain ⟨r, hr, -⟩ := h (List.replicate nameLongMax 0) List.length_replicate
    rw [hrun, storeElem_long List.length_replicate (Nat.not_lt.1 hlen)] at hr
    cases hr
  · intro h name hname
    have hlen := h elem rfl
    rw [hrun, storeElem_short hname hlen]
    refine ⟨_, rfl, fun rest' name' he => ?_⟩
    cases he
    exact ⟨storedElem_length hname hlen, List.mem_append_right _ List.mem_cons_self⟩

/-- A call that returns an element. -/
theorem taken_of_skepelem (h : skepelem path name = .ok (some (rest, name'))) :
    ∃ elem, Taken path elem rest ∧ storeElem elem name = .ok name' := by
  rcases skepelem_cases path with ⟨-, hrun⟩ | ⟨elem, rest', htaken, hrun⟩
  · rw [hrun] at h
    cases h
  · rw [hrun] at h
    obtain ⟨x, hx, h⟩ := Res.bind_eq_ok.1 h
    cases h
    exact ⟨elem, htaken, hx⟩

theorem Called.walkNames_subset (h : Called path p) : walkNames p ⊆ walkNames path := by
  induction h with
  | start => exact List.Subset.refl _
  | next _ _ hcall ih =>
    obtain ⟨elem, htaken, -⟩ := taken_of_skepelem hcall
    rw [htaken.walkNames_eq] at ih
    exact fun n hn => ih (List.mem_cons_of_mem elem hn)

/-- All calls from a path on. -/
theorem called_fits_iff (path : List (BitVec 8)) :
    (∀ p, Called path p → Fits p) ↔ ∀ n ∈ walkNames path, n.length < nameLongMax := by
  constructor
  · -- a name that is too long is the first one of a path that the calls come to
    intro h
    induction hk : path.length using Nat.strong_induction_on generalizing path with
    | _ k ih =>
      subst hk
      have hfirst := (fits_iff path).1 (h path .start)
      rcases skepelem_cases path with ⟨hnil, -⟩ | ⟨elem, rest, htaken, hrun⟩
      · simp [hnil]
      · rw [htaken.walkNames_eq] at hfirst ⊢
        have hlen := hfirst elem rfl
        refine List.forall_mem_cons.2 ⟨hlen, ?_⟩
        exact ih _ htaken.length_lt _ (fun p hp => h p (.of_rest hrun hlen hp)) rfl
  · intro h p hp
    exact (fits_iff p).2 fun n hn => h n (hp.walkNames_subset (List.mem_of_mem_head? hn))

end

/-! ## The calls of a walk -/

/-- The variables of `inode_namex` before an iteration of its loop. -/
structure NamexAt where
  sb : Superblock
  inodes : Inodes
  ip : Ptr
  path : List (BitVec 8)
  name : List (BitVec 8)
  disk : Nat → Sector

/-- The iterations of the loop. -/
inductive NamexAt.Leads (fuel : Nat) (nameeparent : Bool) : NamexAt → NamexAt → Prop
  | refl (x : NamexAt) : Leads fuel nameeparent x x
  | step {x y : NamexAt} {i : Fin nentry} {path name : List (BitVec 8)} {sb : Superblock} {t : Inodes}
    {d : Nat → Sector} : Leads fuel nameeparent x y →
    (namexStep y.sb fuel y.inodes nameeparent y.ip y.path y.name).run y.disk =
      .ok ((.walk i path name, sb, t), d) →
    Leads fuel nameeparent x ⟨sb, t, .slot i, path, name, d⟩

/-- An iteration that goes on has taken an element off the path. -/
theorem namexStep_takes {sb sb' : Superblock} {fuel : Nat} {t t' : Inodes} {nameeparent : Bool} {ip : Ptr}
    {path name rest name' : List (BitVec 8)} {i : Fin nentry} {d d' : Nat → Sector}
    (h : (namexStep sb fuel t nameeparent ip path name).run d = .ok ((.walk i rest name', sb', t'), d')) :
    skepelem path name = .ok (some (rest, name')) := by
  cases namexStep_cases h with
  | child helem => exact helem

theorem storeElem_length {elem name name' : List (BitVec 8)} (hname : name.length = nameLongMax)
    (h : storeElem elem name = .ok name') : name'.length = nameLongMax := by
  by_cases hlen : elem.length < nameLongMax
  · rw [storeElem_short hname hlen] at h
    cases h
    exact storedElem_length hname hlen
  · rw [storeElem_long hname (Nat.not_lt.1 hlen)] at h
    cases h

/-- The calls of a walk are among the calls from its path on. -/
theorem NamexAt.Leads.called {fuel : Nat} {nameeparent : Bool} {x y : NamexAt}
    (h : Leads fuel nameeparent x y) (hname : x.name.length = nameLongMax) :
    Called x.path y.path ∧ y.name.length = nameLongMax := by
  induction h with
  | refl => exact ⟨.start, hname⟩
  | step _ hstep ih =>
    have hcall := namexStep_takes hstep
    obtain ⟨elem, -, hstore⟩ := taken_of_skepelem hcall
    exact ⟨.next ih.1 ih.2 hcall, storeElem_length ih.2 hstore⟩

/-- An element that is too long is stored behind the end of the array. -/
theorem skepelem_overrun {path n name : List (BitVec 8)} (hn : (walkNames path).head? = some n)
    (hlen : nameLongMax ≤ n.length) (hname : name.length = nameLongMax) :
    skepelem path name = .error .ub := by
  rcases skepelem_cases path with ⟨hnil, -⟩ | ⟨elem, rest, htaken, hrun⟩
  · rw [hnil] at hn
    cases hn
  · rw [htaken.walkNames_eq] at hn
    cases hn
    rw [hrun, storeElem_long hname hlen]
    rfl

/-- A walk that gets to its first element, and this is too long. -/
theorem inodeNamex_overrun {sb : Superblock} {fuel : Nat} {t : Inodes} {cwd : Ptr}
    {path n name : List (BitVec 8)} {nameeparent : Bool} {d : Nat → Sector}
    (hstart : ∃ r, namexStart t cwd path = .ok r) (hn : (walkNames path).head? = some n)
    (hlen : nameLongMax ≤ n.length) (hname : name.length = nameLongMax) :
    (inodeNamex sb fuel t cwd path nameeparent name).run d = .error .ub := by
  obtain ⟨r, hstart⟩ := hstart
  unfold inodeNamex
  rw [hstart, Prog.lift_ok_bind]
  unfold namexLoop namexStep
  rw [skepelem_overrun hn hlen hname]
  rfl

theorem walkNames_letters (k : Nat) :
    walkNames (47 :: List.replicate (k + 1) 97) = [List.replicate (k + 1) 97] := by
  rw [walkNames_slash]
  exact walkNames_elem (by simp) (by simp) (by simp [List.replicate_succ])

end Fs
