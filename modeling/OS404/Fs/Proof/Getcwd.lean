import OS404.Fs.File
import OS404.Proof.Str

/-!
# The path of the working directory

`Chain t p ds`: the parents of the inode `p` lead to the root, and `ds` are the names on the way from
the root. The recursion of `get_absolute_path` writes `slashed ds`, the names with a slash behind each,
and what is behind it in the buffer stays zero (`getAbsolutePath_chain`); `fat32_getcwd` takes the last
slash away.
-/

namespace Fs

open Str

/-- The names from the root to an inode. The array `fname` may hold anything behind the terminator. -/
inductive Chain (t : Inodes) : Ptr → List (List (BitVec 8)) → Prop
  | root {rest : List (BitVec 8)} : t.root.fname = 47 :: 0 :: rest → Chain t .root []
  | child {p q : Ptr} {ds : List (List (BitVec 8))} {d rest : List (BitVec 8)} : Chain t q ds →
      (t.deref p).parent = some q → (t.deref p).fname = d ++ 0 :: rest → 0 ∉ d → 47 ∉ d →
      Chain t p (ds ++ [d])

/-- `/` for the root, and `/d1/.../dk`. -/
def pathname (ds : List (List (BitVec 8))) : List (BitVec 8) :=
  if ds = [] then [47] else ds.flatMap fun d => 47 :: d

/-- `/d1/.../dk/` -/
def slashed (ds : List (List (BitVec 8))) : List (BitVec 8) := 47 :: ds.flatMap fun d => d ++ [47]

theorem slashed_snoc (ds : List (List (BitVec 8))) (d : List (BitVec 8)) :
    slashed (ds ++ [d]) = slashed ds ++ d ++ [47] := by
  simp [slashed]

/-- The slashes before the names and behind them. -/
theorem slashed_eq (ds : List (List (BitVec 8))) :
    slashed ds = (ds.flatMap fun d => 47 :: d) ++ [47] := by
  induction ds with
  | nil => rfl
  | cons d ds ih =>
    unfold slashed at ih ⊢
    rw [List.flatMap_cons, List.flatMap_cons, List.append_assoc d, List.singleton_append, ih]
    simp

theorem zero_not_mem_slashed {t : Inodes} {p : Ptr} {ds : List (List (BitVec 8))}
    (h : Chain t p ds) : 0 ∉ slashed ds := by
  induction h with
  | root => decide
  | child _ _ _ h0 _ ih =>
    rw [slashed_snoc]
    simp only [List.mem_append, not_or]
    exact ⟨⟨ih, h0⟩, by decide⟩

/-- The name of a directory does not start with a slash. -/
theorem load_name {d : List (BitVec 8)} (rest : List (BitVec 8)) (h : 47 ∉ d) :
    ∃ c, load (d ++ 0 :: rest) 0 = .ok c ∧ c ≠ 47 := by
  cases d with
  | nil => exact ⟨0, rfl, by decide⟩
  | cons x d => exact ⟨x, rfl, fun hx => h (hx ▸ List.mem_cons_self)⟩

/-- A name and a slash are put behind what is in the buffer. -/
theorem append_name {pre d rest : List (BitVec 8)} (hpre : 0 ∉ pre) (h0 : 0 ∉ d) (n : Nat) :
    (do
      let n0 ← strlen (pre ++ List.replicate (d.length + (n + 2)) 0)
      let n1 ← strlen (d ++ 0 :: rest)
      let buf ← strncpy (pre ++ List.replicate (d.length + (n + 2)) 0) n0 (d ++ 0 :: rest) n1
      strncpy buf (n0 + n1) [47, 0] 2) = .ok (pre ++ d ++ [47] ++ List.replicate (n + 1) 0) := by
  have hzero : List.replicate (d.length + (n + 2)) (0 : BitVec 8) =
      0 :: List.replicate (d.length + (n + 1)) 0 := rfl
  have hlen : strlen (pre ++ List.replicate (d.length + (n + 2)) 0) = .ok pre.length := by
    rw [hzero, strlen_append hpre]
  rw [hlen, Res.ok_bind, strlen_append h0, Res.ok_bind, strncpy_append _ _ _ _ h0 (by simp),
    Res.ok_bind, ← List.length_append, strncpy_copied _ _ _ _ (by simp) (.inl (by simp))]
  simp [copied, List.replicate_succ]

/-- The recursion writes the names in the order from the root, and `n + 1` zeros are left. -/
theorem getAbsolutePath_chain {t : Inodes} {p : Ptr} {ds : List (List (BitVec 8))}
    (h : Chain t p ds) {fuel n : Nat} (hfuel : ds.length < fuel) :
    getAbsolutePath t fuel p (List.replicate ((slashed ds).length + (n + 1)) 0) =
      .ok (slashed ds ++ List.replicate (n + 1) 0) := by
  induction h generalizing fuel n with
  | @root rest hname =>
    obtain ⟨fuel, rfl⟩ := Nat.exists_eq_succ_of_ne_zero (Nat.ne_of_gt hfuel)
    have hbuf : List.replicate ((slashed []).length + (n + 1)) (0 : BitVec 8) =
        0 :: 0 :: List.replicate n 0 := by
      simp [slashed, Nat.add_comm 1, List.replicate_succ]
    unfold getAbsolutePath Inodes.deref
    rw [hname, hbuf]
    rfl
  | @child p q ds d rest hq hparent hname h0 h47 ih =>
    obtain ⟨fuel, rfl⟩ := Nat.exists_eq_succ_of_ne_zero (Nat.ne_of_gt (Nat.zero_lt_of_lt hfuel))
    obtain ⟨c, hload, hc⟩ := load_name rest h47
    have hbuf : (slashed (ds ++ [d])).length + (n + 1) =
        (slashed ds).length + (d.length + (n + 1) + 1) := by
      rw [slashed_snoc, List.length_append, List.length_append, List.length_singleton]
      omega
    have hrec := @ih fuel (d.length + (n + 1)) (by simpa using hfuel)
    unfold getAbsolutePath
    simp only [hname, hload, hparent, hbuf, Res.ok_bind, if_pos hc, hrec]
    rw [slashed_snoc]
    exact append_name (zero_not_mem_slashed hq) h0 n

/-- **`fat32_getcwd` spells the path** of the working directory in a buffer of zeros that has room for
the path with a slash at its end, and the terminator. -/
theorem getcwd_spells {t : Inodes} {p : Ptr} {ds : List (List (BitVec 8))} (h : Chain t p ds)
    {fuel m : Nat} (hfuel : ds.length < fuel) (hm : (slashed ds).length < m) :
    fat32Getcwd t fuel p (some (List.replicate m 0)) =
      .ok (some (pathname ds ++ List.replicate (m - (pathname ds).length) 0)) := by
  obtain ⟨n, rfl⟩ : ∃ n, m = (slashed ds).length + (n + 1) := ⟨m - (slashed ds).length - 1, by omega⟩
  have hlen : strlen (slashed ds ++ List.replicate (n + 1) 0) = .ok (slashed ds).length := by
    rw [List.replicate_succ, strlen_append (zero_not_mem_slashed h)]
  unfold fat32Getcwd
  dsimp only
  rw [getAbsolutePath_chain h hfuel, Res.ok_bind, hlen, Res.ok_bind]
  by_cases hds : ds = []
  · subst hds
    simp [slashed, pathname]
  · -- the last slash is in front of the zeros
    have hpath : pathname ds = ds.flatMap fun d => 47 :: d := if_neg hds
    have hsl : slashed ds = pathname ds ++ [47] := by rw [slashed_eq, hpath]
    have hpos : 0 < (pathname ds).length := by
      obtain ⟨d, ds, rfl⟩ := List.exists_cons_of_ne_nil hds
      rw [hpath]
      simp
    rw [hsl, List.length_append, List.length_singleton, if_pos (by omega), List.append_assoc,
      Nat.add_sub_cancel, List.singleton_append, store_append, Res.ok_bind, Nat.add_assoc,
      Nat.add_sub_cancel_left, Nat.add_comm 1 (n + 1), List.append_assoc]
    rfl

/-- A directory `/ab`. -/
def cwdTable : Inodes :=
  { root := { Entry.zero with parent := some .root, fname := 47 :: List.replicate 254 0 }
    entry := fun _ => { Entry.zero with parent := some .root, fname := 97 :: 98 :: List.replicate 253 0 } }

theorem cwdTable_chain : Chain cwdTable (.slot 0) [[97, 98]] :=
  .child (.root rfl) rfl rfl (by decide) (by decide)

theorem getcwd_spells_ab :
    Chain cwdTable (.slot 0) [[97, 98]] ∧
      fat32Getcwd cwdTable 2 (.slot 0) (some (List.replicate 8 0)) =
        .ok (some [47, 97, 98, 0, 0, 0, 0, 0]) :=
  ⟨cwdTable_chain, getcwd_spells cwdTable_chain (by decide) (by decide)⟩

end Fs
