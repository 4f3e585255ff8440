import OS404.Fs.Path
import OS404.Fs.Proof.LongName
import OS404.Lib.Tree

/-!
# The names in a path

A path means a list of components: the nonempty pieces between its slashes, where `.` and `..` are
not names (`components`). `skepelem` skips slashes and dots alike, so the names that a walk looks up
are the pieces without their leading dots (`walkNames`), and pieces of dots only are not seen.

* `skepelem_spec`: `skepelem` takes the names of `walkNames` off a path, one by one;
* `resolve_walkNames`: on a `Straight` path the walk of these names leads where the path means.
-/

namespace Fs

open Lib (Component Tree)
open Str

/-! ## What a path means -/

/-- The nonempty pieces between slashes. -/
def pieces (path : List (BitVec 8)) : List (List (BitVec 8)) := (path.splitOn 47).filter (!·.isEmpty)

/-- A piece as a component. -/
def component (p : List (BitVec 8)) : Component (List (BitVec 8)) :=
  if p = [46] then .here else if p = [46, 46] then .up else .name p

/-- The components of a path. -/
def components (path : List (BitVec 8)) : List (Component (List (BitVec 8))) :=
  (pieces path).map component

/-! ## What the walk sees -/

/-- A piece without its leading dots. -/
def undotted (p : List (BitVec 8)) : List (BitVec 8) := p.dropWhile (· = 46)

/-- The pieces without leading dots, as far as anything is left of them. -/
def undottedNames (ps : List (List (BitVec 8))) : List (List (BitVec 8)) :=
  (ps.map undotted).filter (!·.isEmpty)

/-- The names that `skepelem` takes off a path. -/
def walkNames (path : List (BitVec 8)) : List (List (BitVec 8)) := undottedNames (path.splitOn 47)

theorem undottedNames_cons_of_nil {p : List (BitVec 8)} (h : undotted p = [])
    (ps : List (List (BitVec 8))) : undottedNames (p :: ps) = undottedNames ps := by
  unfold undottedNames
  rw [List.map_cons, h, List.filter_cons_of_neg (by simp)]

theorem undottedNames_cons {p : List (BitVec 8)} (h : undotted p ≠ []) (ps : List (List (BitVec 8))) :
    undottedNames (p :: ps) = undotted p :: undottedNames ps := by
  unfold undottedNames
  rw [List.map_cons, List.filter_cons_of_pos (by simpa using h)]

theorem undottedNames_append (ps qs : List (List (BitVec 8))) :
    undottedNames (ps ++ qs) = undottedNames ps ++ undottedNames qs := by
  simp [undottedNames]

theorem walkNames_pieces (path : List (BitVec 8)) : walkNames path = undottedNames (pieces path) := by
  unfold walkNames pieces
  generalize path.splitOn 47 = ps
  induction ps with
  | nil => rfl
  | cons p ps ih =>
    by_cases hp : p = []
    · subst hp
      rw [undottedNames_cons_of_nil rfl, List.filter_cons_of_neg (by simp), ih]
    · rw [List.filter_cons_of_pos (by simpa using hp)]
      by_cases hu : undotted p = []
      · rw [undottedNames_cons_of_nil hu, undottedNames_cons_of_nil hu, ih]
      · rw [undottedNames_cons hu, undottedNames_cons hu, ih]

/-! ## How `skepelem` splits a path -/

theorem walkNames_append_slash (xs ys : List (BitVec 8)) :
    walkNames (xs ++ 47 :: ys) = walkNames xs ++ walkNames ys := by
  unfold walkNames
  rw [List.splitOn_append_cons_self, undottedNames_append]

theorem walkNames_slash (path : List (BitVec 8)) : walkNames (47 :: path) = walkNames path :=
  walkNames_append_slash [] path

theorem walkNames_dot (path : List (BitVec 8)) : walkNames (46 :: path) = walkNames path := by
  unfold walkNames
  rw [List.splitOn_cons_eq_if_modifyHead, if_neg (by decide)]
  obtain ⟨p, ps, hps⟩ := List.exists_cons_of_ne_nil (List.splitOn_ne_nil 47 path)
  have hp : undotted (46 :: p) = undotted p := by
    unfold undotted
    rw [List.dropWhile_cons_of_pos (by decide)]
  rw [hps, List.modifyHead_cons]
  unfold undottedNames
  rw [List.map_cons, List.map_cons, hp]

theorem walkNames_skip {skip : List (BitVec 8)} (h : ∀ c ∈ skip, c = 47 ∨ c = 46)
    (path : List (BitVec 8)) : walkNames (skip ++ path) = walkNames path := by
  induction skip with
  | nil => rfl
  | cons c skip ih =>
    obtain ⟨hc, hskip⟩ := List.forall_mem_cons.1 h
    rcases hc with rfl | rfl
    · rw [List.cons_append, walkNames_slash, ih hskip]
    · rw [List.cons_append, walkNames_dot, ih hskip]

theorem walkNames_elem {elem : List (BitVec 8)} (hne : elem ≠ []) (hslash : 47 ∉ elem)
    (hdot : elem.head? ≠ some 46) : walkNames elem = [elem] := by
  have hu : undotted elem = elem := by
    obtain ⟨c, elem, rfl⟩ := List.exists_cons_of_ne_nil hne
    exact List.dropWhile_cons_of_neg (by simpa using hdot)
  unfold walkNames
  rw [List.splitOn_eq_singleton hslash, undottedNames_cons (by rwa [hu]), hu]
  rfl

/-- `path` is slashes and dots, the element `elem`, slashes, and `rest`. -/
structure Taken (path elem rest : List (BitVec 8)) : Prop where
  split : ∃ skip sep, path = skip ++ (elem ++ (sep ++ rest)) ∧ (∀ c ∈ skip, c = 47 ∨ c = 46) ∧
    (∀ c ∈ sep, c = 47) ∧ (rest ≠ [] → sep ≠ [])
  nonempty : elem ≠ []
  slash : 47 ∉ elem
  dot : elem.head? ≠ some 46
  rest : rest.head? ≠ some 47

namespace Taken
variable {path elem rest : List (BitVec 8)}

theorem suffix (h : Taken path elem rest) : rest <:+ path := by
  obtain ⟨skip, sep, rfl, -⟩ := h.split
  exact ⟨skip ++ (elem ++ sep), by simp⟩

theorem length_lt (h : Taken path elem rest) : rest.length < path.length := by
  obtain ⟨skip, sep, rfl, -⟩ := h.split
  have := List.length_pos_of_ne_nil h.nonempty
  simp only [List.length_append]
  omega

theorem mem (h : Taken path elem rest) {c : BitVec 8} (hc : c ∈ elem) : c ∈ path := by
  obtain ⟨skip, sep, rfl, -⟩ := h.split
  exact List.mem_append_right _ (List.mem_append_left _ hc)

theorem walkNames_eq (h : Taken path elem rest) : walkNames path = elem :: walkNames rest := by
  obtain ⟨skip, sep, rfl, hskip, hsep, hrest⟩ := h.split
  have helem := walkNames_elem h.nonempty h.slash h.dot
  rw [walkNames_skip hskip]
  cases sep with
  | nil =>
    obtain rfl : rest = [] := not_not.1 fun hne => hrest hne rfl
    rw [List.nil_append, List.append_nil, helem]
    rfl
  | cons c sep =>
    obtain ⟨rfl, hsep'⟩ := List.forall_mem_cons.1 hsep
    rw [List.cons_append, walkNames_append_slash, helem, walkNames_skip fun c hc => .inl (hsep' c hc)]
    rfl

/-- A path that goes on with the first character of an element behind `skip`. -/
theorem of_cons {skip s : List (BitVec 8)} {c : BitVec 8} (hskip : ∀ c ∈ skip, c = 47 ∨ c = 46)
    (hslash : c ≠ 47) (hdot : c ≠ 46) :
    Taken (skip ++ c :: s) ((c :: s).takeWhile (· ≠ 47))
      (((c :: s).dropWhile (· ≠ 47)).dropWhile (· = 47)) := by
  have helem : (c :: s).takeWhile (· ≠ 47) = c :: s.takeWhile (· ≠ 47) :=
    List.takeWhile_cons_of_pos (by simpa using hslash)
  have hsplit := List.takeWhile_append_dropWhile (p := fun c : BitVec 8 => decide (c ≠ 47)) (l := c :: s)
  have hbehind := List.head?_dropWhile_not (fun c : BitVec 8 => decide (c ≠ 47)) (c :: s)
  generalize (c :: s).dropWhile (· ≠ 47) = u at *
  have hu := List.takeWhile_append_dropWhile (p := fun c : BitVec 8 => decide (c = 47)) (l := u)
  have hrest := List.head?_dropWhile_not (fun c : BitVec 8 => decide (c = 47)) u
  refine ⟨⟨skip, u.takeWhile (· = 47), ?_, hskip, ?_, ?_⟩, ?_, ?_, ?_, ?_⟩
  · rw [hu, hsplit]
  · exact fun c hc => by simpa using List.mem_takeWhile_imp hc
  · -- what is behind the element starts with a slash
    intro hne hnil
    rw [hnil, List.nil_append] at hu
    rw [hu] at hrest hne
    obtain ⟨x, xs, rfl⟩ := List.exists_cons_of_ne_nil hne
    simp_all
  · rw [helem]
    exact List.cons_ne_nil _ _
  · exact fun h => by simpa using List.mem_takeWhile_imp h
  · rw [helem]
    simpa using hdot
  · intro h
    rw [h] at hrest
    simp at hrest

end Taken

/-- What `skepelem` does to `name`. -/
def storeElem (elem name : List (BitVec 8)) : Res (List (BitVec 8)) :=
  if pathLongMax ≤ elem.length then do
    let (_, name) ← copyName (elem.take pathLongMax) 0 name
    return name
  else do
    let (len, name) ← copyName elem 0 name
    Str.store name len 0

/-- `skepelem` finds no element, or takes the first one off the path. -/
theorem skepelem_cases (path : List (BitVec 8)) :
    (walkNames path = [] ∧ ∀ name, skepelem path name = .ok none) ∨
    ∃ elem rest, Taken path elem rest ∧
      ∀ name, skepelem path name = storeElem elem name >>= fun name => .ok (some (rest, name)) := by
  have hpath := List.takeWhile_append_dropWhile (p := fun c => decide (c = 47 ∨ c = 46)) (l := path)
  have hskip : ∀ c ∈ path.takeWhile fun c => decide (c = 47 ∨ c = 46), c = 47 ∨ c = 46 :=
    fun c hc => by simpa using List.mem_takeWhile_imp hc
  have hhead := List.head?_dropWhile_not (fun c : BitVec 8 => decide (c = 47 ∨ c = 46)) path
  cases hs : path.dropWhile fun c => decide (c = 47 ∨ c = 46) with
  | nil =>
    refine .inl ⟨?_, fun name => ?_⟩
    · rw [hs] at hpath
      rw [← hpath, walkNames_skip hskip]
      rfl
    · unfold skepelem
      rw [hs]
  | cons c s =>
    rw [hs] at hhead hpath
    obtain ⟨hslash, hdot⟩ : c ≠ 47 ∧ c ≠ 46 := by simpa using hhead
    have hdrop : (c :: s).drop ((c :: s).takeWhile (· ≠ 47)).length = (c :: s).dropWhile (· ≠ 47) :=
      (congrArg (List.drop _) List.takeWhile_append_dropWhile.symm).trans List.drop_left
    have htaken : Taken path _ _ := hpath ▸ Taken.of_cons (s := s) hskip hslash hdot
    refine .inr ⟨_, _, htaken, fun name => ?_⟩
    unfold skepelem
    rw [hs]
    dsimp only
    rw [hdrop]
    rfl

/-! ## What is in `name` after `skepelem` -/

theorem bufStr_append {xs ys : List (BitVec 8)} (h : 0 ∉ xs) : (bufStr (xs ++ 0 :: ys)).val = xs := by
  unfold bufStr
  dsimp only
  rw [List.takeWhile_append_of_pos, List.takeWhile_cons_of_neg (by simp), List.append_nil]
  exact fun x hx => decide_eq_true fun h0 => h (h0 ▸ hx)

/-- An element for which there is room. -/
theorem storeElem_short {elem name : List (BitVec 8)} (hname : name.length = nameLongMax)
    (hlen : elem.length < nameLongMax) :
    storeElem elem name = .ok (elem ++ 0 :: name.drop (elem.length + 1)) := by
  have hlong : elem.length < pathLongMax := Nat.lt_trans hlen (by decide)
  have hcopy := copyName_append elem [] name (by omega)
  rw [List.nil_append, List.nil_append, List.length_nil] at hcopy
  obtain ⟨x, rest, hrest⟩ : ∃ x rest, name.drop elem.length = x :: rest :=
    List.exists_cons_of_ne_nil (by simpa using by omega)
  have hnext : name.drop (elem.length + 1) = rest := by
    rw [← List.drop_drop, hrest, List.drop_one, List.tail_cons]
  rw [hrest] at hcopy
  unfold storeElem
  rw [if_neg (Nat.not_le.2 hlong), hcopy, Res.ok_bind, hnext]
  dsimp only
  rw [store_append, List.append_assoc, List.singleton_append]

theorem storedElem_length {elem name : List (BitVec 8)} (hname : name.length = nameLongMax)
    (hlen : elem.length < nameLongMax) :
    (elem ++ 0 :: name.drop (elem.length + 1)).length = nameLongMax := by
  rw [List.length_append, List.length_cons, List.length_drop, hname]
  omega

/-- An element without room for its terminator, or without room for the element. -/
theorem storeElem_long {elem name : List (BitVec 8)} (hname : name.length = nameLongMax)
    (hlen : nameLongMax ≤ elem.length) : storeElem elem name = .error .ub := by
  unfold storeElem
  split
  next hlong =>
    have htake : name.length < (elem.take pathLongMax).length := by
      rw [List.length_take_of_le hlong, hname]
      decide
    have hcopy := copyName_outside (elem.take pathLongMax) [] name htake
    rw [List.nil_append, List.length_nil] at hcopy
    rw [hcopy]
    rfl
  next =>
    by_cases hfull : elem.length ≤ name.length
    · have hcopy := copyName_append elem [] name hfull
      rw [List.nil_append, List.nil_append, List.length_nil] at hcopy
      rw [hcopy, Res.ok_bind]
      apply store_outside
      rw [List.length_append, List.length_drop]
      omega
    · have hcopy := copyName_outside elem [] name (Nat.not_le.1 hfull)
      rw [List.nil_append, List.length_nil] at hcopy
      rw [hcopy]
      rfl

/-- `skepelem` takes the first of the names off the path. -/
theorem skepelem_spec {path name : List (BitVec 8)} (hname : name.length = nameLongMax)
    (hpath : 0 ∉ path) (hshort : ∀ n ∈ walkNames path, n.length < nameLongMax) :
    (walkNames path = [] ∧ skepelem path name = .ok none) ∨
    ∃ n rest name', walkNames path = n :: walkNames rest ∧
      skepelem path name = .ok (some (rest, name')) ∧ rest <:+ path ∧ rest.length < path.length ∧
      name'.length = nameLongMax ∧ (bufStr name').val = n := by
  rcases skepelem_cases path with ⟨hnil, hrun⟩ | ⟨elem, rest, htaken, hrun⟩
  · exact .inl ⟨hnil, hrun name⟩
  · have hnames := htaken.walkNames_eq
    have hlen := hshort elem (by rw [hnames]; exact List.mem_cons_self)
    refine .inr ⟨elem, rest, elem ++ 0 :: name.drop (elem.length + 1), hnames, ?_, htaken.suffix,
      htaken.length_lt, storedElem_length hname hlen, bufStr_append fun h0 => hpath (htaken.mem h0)⟩
    rw [hrun, storeElem_short hname hlen, Res.ok_bind]

/-! ## Straight paths -/

/-- Names, and `.` before one of them. -/
def Plain (ps : List (List (BitVec 8))) : Prop :=
  (∀ p ∈ ps, p.head? ≠ some 46 ∨ p = [46]) ∧ ps.getLast? ≠ some [46]

/-- The paths on which a walk leads where the path means: `.` and `..` at the start of an absolute
path, `..` at the start of a relative one, and otherwise no dots before a name but those of `.`
between names. -/
def Straight (path : List (BitVec 8)) : Prop :=
  if path.head? = some 47 then
    ∃ ds ps, pieces path = ds ++ ps ∧ (∀ p ∈ ds, p = [46] ∨ p = [46, 46]) ∧ Plain ps
  else
    (path.head? ≠ some 46 ∧ Plain (pieces path)) ∨
      ∃ ds ps, pieces path = [46, 46] :: ds ++ ps ∧ (∀ p ∈ ds, p = [46]) ∧ Plain ps

section
variable {ι : Type} {T : Tree ι (List (BitVec 8))} {x : ι}

theorem pieces_ne_nil {path p : List (BitVec 8)} (h : p ∈ pieces path) : p ≠ [] := by
  simpa using (List.mem_filter.1 h).2

/-- The walk of the names in plain pieces. -/
theorem resolve_plain {ps : List (List (BitVec 8))} (h : Plain ps) (hne : ∀ p ∈ ps, p ≠ []) :
    T.resolve x ((undottedNames ps).map .name) = T.resolve x (ps.map component) := by
  have hlast : (ps.map component).getLast?.all (!·.isHere) = true := by
    rw [List.getLast?_map, Option.all_map, Option.all_eq_true]
    intro p hp
    have hp' : p ≠ [46] := fun he => h.2 (he ▸ hp)
    unfold component
    simp only [hp', if_false]
    split <;> rfl
  rw [← Tree.resolve_filter hlast]
  congr 1
  have hall := h.1
  clear h hlast
  induction ps with
  | nil => rfl
  | cons p ps ih =>
    obtain ⟨hp, hall'⟩ := List.forall_mem_cons.1 hall
    obtain ⟨hp0, hne'⟩ := List.forall_mem_cons.1 hne
    rcases hp with hp | rfl
    · obtain ⟨c, p, rfl⟩ := List.exists_cons_of_ne_nil hp0
      have hc : c ≠ 46 := fun he => hp (by rw [he]; rfl)
      have hu : undotted (c :: p) = c :: p := List.dropWhile_cons_of_neg (by simpa using hc)
      have hcomp : component (c :: p) = .name (c :: p) := by
        unfold component
        rw [if_neg (fun he => hc (List.cons.inj he).1), if_neg (fun he => hc (List.cons.inj he).1)]
      rw [undottedNames_cons (by rw [hu]; exact hp0), hu, List.map_cons, List.map_cons, hcomp,
        List.filter_cons_of_pos rfl, ih hne' hall']
    · rw [undottedNames_cons_of_nil rfl, List.map_cons, List.filter_cons_of_neg (by decide),
        ih hne' hall']

/-- Dots are not seen. -/
theorem undottedNames_dots {ds : List (List (BitVec 8))} (h : ∀ p ∈ ds, p = [46] ∨ p = [46, 46]) :
    undottedNames ds = [] := by
  induction ds with
  | nil => rfl
  | cons p ds ih =>
    obtain ⟨hp, hds⟩ := List.forall_mem_cons.1 h
    rw [undottedNames_cons_of_nil (by rcases hp with rfl | rfl <;> rfl), ih hds]

/-- Where a walk starts: `inode_namex` takes every relative path that starts with a dot for one that
starts with `..`. -/
def walkStart (T : Tree ι (List (BitVec 8))) (cwd : ι) (path : List (BitVec 8)) : ι :=
  if path.head? = some 47 then T.root else if path.head? = some 46 then T.parent cwd else cwd

/-- Where a path starts. -/
def pathStart (T : Tree ι (List (BitVec 8))) (cwd : ι) (path : List (BitVec 8)) : ι :=
  if path.head? = some 47 then T.root else cwd

theorem head_of_pieces {path p : List (BitVec 8)} {ps : List (List (BitVec 8))}
    (hrel : path.head? ≠ some 47) (h : pieces path = p :: ps) : path.head? = p.head? := by
  cases path with
  | nil => cases h
  | cons c path =>
    have hc : c ≠ 47 := fun he => hrel (by rw [he]; rfl)
    obtain ⟨q, qs, hqs⟩ := List.exists_cons_of_ne_nil (List.splitOn_ne_nil 47 path)
    unfold pieces at h
    rw [List.splitOn_cons_eq_if_modifyHead, if_neg (by simpa using hc), hqs, List.modifyHead_cons,
      List.filter_cons_of_pos rfl] at h
    rw [← (List.cons.inj h).1]
    rfl

/-- On a straight path the walk leads where the path means, from a directory whose parent is one. -/
theorem resolve_walkNames {cwd : ι} {path : List (BitVec 8)} (h : Straight path)
    (hroot : T.isDir T.root = true) (hself : T.parent T.root = T.root) (hcwd : T.isDir cwd = true)
    (hparent : T.isDir (T.parent cwd) = true) :
    T.resolve (walkStart T cwd path) ((walkNames path).map .name) =
      T.resolve (pathStart T cwd path) (components path) := by
  have hne : ∀ p ∈ pieces path, p ≠ [] := fun p hp => pieces_ne_nil hp
  have hplain : ∀ {ds ps : List (List (BitVec 8))} {x : ι}, Plain ps → (∀ p ∈ ps, p ≠ []) →
      (∀ p ∈ ds, p = [46] ∨ p = [46, 46]) → (∀ p ∈ ds, T.step x (component p) = some x) →
      T.resolve x ((undottedNames (ds ++ ps)).map .name) = T.resolve x ((ds ++ ps).map component) := by
    intro ds ps x hps hne hds hstay
    rw [undottedNames_append, undottedNames_dots hds, List.nil_append, resolve_plain hps hne,
      List.map_append, Tree.resolve_stay]
    intro c hc
    obtain ⟨p, hp, rfl⟩ := List.mem_map.1 hc
    exact hstay p hp
  unfold walkStart pathStart components
  rw [walkNames_pieces]
  unfold Straight at h
  by_cases habs : path.head? = some 47
  · rw [if_pos habs] at h
    obtain ⟨ds, ps, hps, hds, hplains⟩ := h
    rw [if_pos habs, if_pos habs, hps]
    rw [hps] at hne
    refine hplain hplains (fun p hp => hne p (List.mem_append_right _ hp)) hds fun p hp => ?_
    rcases hds p hp with rfl | rfl
    · exact (Tree.step_dir hroot).1
    · exact (Tree.step_dir hroot).2.1.trans (congrArg some hself)
  · rw [if_neg habs] at h ⊢
    rw [if_neg habs]
    rcases h with ⟨hdot, hps⟩ | ⟨ds, ps, hps, hds, hplains⟩
    · rw [if_neg hdot]
      exact resolve_plain hps hne
    · have hhead : path.head? = some 46 := head_of_pieces habs hps
      rw [if_pos hhead, hps]
      rw [hps] at hne
      rw [List.cons_append, undottedNames_cons_of_nil rfl, List.map_cons, Tree.resolve,
        show component [46, 46] = .up from rfl, (Tree.step_dir hcwd).2.1, Option.bind_some]
      refine hplain hplains ?_ (fun p hp => .inl (hds p hp)) fun p hp => ?_
      · exact fun p hp => hne p (List.mem_append_right _ hp)
      · rw [hds p hp]
        exact (Tree.step_dir hparent).1

end

end Fs
