import OS404.Fs.LongName
import OS404.Fs.Proof.Geometry
import OS404.Proof.Str
import Mathlib.Data.List.Basic

/-!
# Long names: encoding and decoding

A name is cut into pieces of 13 characters. The characters of the entry for the rest of a name are
the first 13 of `charsOf rest`: the rest, a 0, and `0xFFFF` (`longEntry_chars`). Decoding an entry
copies its characters up to and with the first 0 (`filterLongname_eq`). `Pieces`: a list of entries
holds a name from a given ordinal on; `longEntries` makes such a list (`longEntries_pieces`).
`RunFrom`: a list of entries has consecutive ordinals and the checksum; the loop of
`fat32_longname_popstack` decodes such a run completely (`popLoop_run`).

* `longname_roundtrip`: what `fat32_fcb_init` wrote for a name is decoded to that name.
-/

namespace Fs

open Lib (Prog)
open Str

/-! ## Storing to an array from left to right -/

theorem copyName_append (xs pre post : List (BitVec 8)) (h : xs.length ≤ post.length) :
    copyName xs pre.length (pre ++ post) =
      .ok ((pre ++ xs).length, pre ++ xs ++ post.drop xs.length) := by
  induction xs generalizing pre post with
  | nil => simp [copyName]
  | cons x xs ih =>
    cases post with
    | nil => simp at h
    | cons y post =>
      have hpre : pre.length + 1 = (pre ++ [x]).length := by simp
      rw [copyName, store_append, Res.ok_bind, hpre, ih _ _ (by simpa using h)]
      simp

theorem copyName_outside (xs pre post : List (BitVec 8)) (h : post.length < xs.length) :
    copyName xs pre.length (pre ++ post) = .error .ub := by
  induction xs generalizing pre post with
  | nil => exact absurd h (Nat.not_lt_zero _)
  | cons x xs ih =>
    rw [copyName]
    cases post with
    | nil =>
      rw [store_outside (by simp)]
      rfl
    | cons y post =>
      have hpre : pre.length + 1 = (pre ++ [x]).length := by simp
      rw [store_append, Res.ok_bind, hpre, ih _ _ (Nat.lt_of_succ_lt_succ h)]

/-! ## One entry -/

/-- The bytes that the decoding of the characters `xs` stores, and whether it stops in them. -/
def validBytes : List Nat → List (BitVec 8) × Bool
  | [] => ([], false)
  | x :: xs =>
    if x ≠ 0 ∧ x ≠ 0xFFFF then
      (BitVec.ofNat 8 (x &&& 0xFF) :: (validBytes xs).1, (validBytes xs).2)
    else ([BitVec.ofNat 8 (x &&& 0xFF)], true)

theorem validBytes_length_le (xs : List Nat) : (validBytes xs).1.length ≤ xs.length := by
  induction xs with
  | nil => exact Nat.le_refl _
  | cons x xs ih =>
    unfold validBytes
    split
    · exact Nat.succ_le_succ ih
    · simp

theorem validBytes_append (xs ys : List Nat) :
    validBytes (xs ++ ys) =
      if (validBytes xs).2 then validBytes xs
      else ((validBytes xs).1 ++ (validBytes ys).1, (validBytes ys).2) := by
  induction xs with
  | nil => simp [validBytes]
  | cons x xs ih =>
    rw [List.cons_append, validBytes, validBytes, ih]
    by_cases hx : x ≠ 0 ∧ x ≠ 0xFFFF
    · rw [if_pos hx, if_pos hx]
      split <;> rfl
    · rw [if_neg hx, if_neg hx]
      rfl

theorem filterChars_eq (xs : List Nat) (pre : List (BitVec 8)) (m : Nat) (h : xs.length ≤ m) :
    filterChars xs pre.length (pre ++ List.replicate m 0) =
      .ok ((pre ++ (validBytes xs).1).length,
        pre ++ (validBytes xs).1 ++ List.replicate (m - (validBytes xs).1.length) 0,
        (validBytes xs).2) := by
  induction xs generalizing pre m with
  | nil => simp [filterChars, validBytes]
  | cons x xs ih =>
    obtain ⟨m, rfl⟩ := Nat.exists_eq_succ_of_ne_zero (Nat.ne_zero_of_lt (Nat.lt_of_lt_of_le
      (Nat.succ_pos xs.length) h))
    rw [filterChars, List.replicate_succ, store_append, Res.ok_bind, validBytes]
    by_cases hx : x ≠ 0 ∧ x ≠ 0xFFFF
    · rw [if_pos hx, if_pos hx]
      have hpre : pre.length + 1 = (pre ++ [BitVec.ofNat 8 (x &&& 0xFF)]).length := by simp
      rw [hpre, ih _ m (Nat.le_of_succ_le_succ h)]
      simp
    · rw [if_neg hx, if_neg hx]
      simp

/-- The characters of an entry. -/
def DirentL.chars (e : DirentL) : List Nat := e.ldirName1 ++ e.ldirName2 ++ e.ldirName3

theorem filterLongname_eq {e : DirentL} {m : Nat} (h : e.chars.length ≤ m) :
    fat32FilterLongname e (List.replicate m 0) =
      .ok ((validBytes e.chars).1.length,
        (validBytes e.chars).1 ++ List.replicate (m - (validBytes e.chars).1.length) 0) := by
  unfold DirentL.chars at h ⊢
  rw [List.length_append, List.length_append] at h
  have h1 := filterChars_eq e.ldirName1 [] m (by omega)
  have hl1 := validBytes_length_le e.ldirName1
  rw [List.nil_append, List.nil_append, List.length_nil] at h1
  unfold fat32FilterLongname
  rw [h1, Res.ok_bind]
  dsimp only
  by_cases hs1 : (validBytes e.ldirName1).2 = true
  · rw [if_pos hs1, List.append_assoc, validBytes_append, if_pos hs1]
    rfl
  rw [if_neg hs1, filterChars_eq _ _ _ (by omega), Res.ok_bind]
  dsimp only
  have hv : validBytes (e.ldirName1 ++ e.ldirName2) =
      ((validBytes e.ldirName1).1 ++ (validBytes e.ldirName2).1, (validBytes e.ldirName2).2) := by
    rw [validBytes_append, if_neg hs1]
  have hl2 := validBytes_length_le e.ldirName2
  by_cases hs2 : (validBytes e.ldirName2).2 = true
  · rw [if_pos hs2, validBytes_append, hv, if_pos hs2]
    simp [Nat.sub_sub]
  · rw [if_neg hs2, filterChars_eq _ _ _ (by omega), Res.ok_bind, validBytes_append, hv, if_neg hs2]
    simp [Nat.sub_sub, Nat.add_assoc]

/-- The characters of an entry for the rest of a name: the first 13 of these. -/
def charsOf (rest : List (BitVec 8)) : List Nat :=
  rest.map BitVec.toNat ++ 0 :: List.replicate 12 0xFFFF

theorem validBytes_of_bytes (bytes : List (BitVec 8)) (h : 0 ∉ bytes) :
    validBytes (bytes.map BitVec.toNat) = (bytes, false) := by
  induction bytes with
  | nil => rfl
  | cons x xs ih =>
    have hx : x ≠ 0 := fun h0 => h (h0 ▸ List.mem_cons_self)
    have hpos : x.toNat ≠ 0 := fun h0 => hx (BitVec.eq_of_toNat_eq h0)
    have hlt := x.isLt
    rw [List.map_cons, validBytes, if_pos ⟨hpos, by omega⟩, ih fun hm => h (List.mem_cons_of_mem _ hm)]
    have hmask : BitVec.ofNat 8 (x.toNat &&& 0xFF) = x := by
      apply BitVec.eq_of_toNat_eq
      rw [BitVec.toNat_ofNat, show (0xFF : Nat) = 2 ^ 8 - 1 from rfl, Nat.and_two_pow_sub_one_eq_mod,
        Nat.mod_mod, Nat.mod_eq_of_lt hlt]
    rw [hmask]

/-- The bytes that the entry for the rest of a name is decoded to. -/
theorem validBytes_charsOf {rest : List (BitVec 8)} (h : 0 ∉ rest) :
    (validBytes ((charsOf rest).take 13)).1 = if 13 ≤ rest.length then rest.take 13 else rest ++ [0] := by
  unfold charsOf
  split
  · case isTrue hlen =>
    rw [List.take_append_of_le_length (by simpa using hlen), ← List.map_take,
      validBytes_of_bytes _ fun hm => h (List.mem_of_mem_take hm)]
  · case isFalse hlen =>
    rw [List.take_append, List.take_of_length_le (by simp; omega), List.length_map]
    obtain ⟨k, hk⟩ : ∃ k, 13 - rest.length = k + 1 := ⟨12 - rest.length, by omega⟩
    rw [hk, List.take_succ_cons, validBytes_append, validBytes_of_bytes _ h]
    simp [validBytes]

/-! ## Filling an entry -/

section
variable {name rest : List (BitVec 8)} {charIdx : Nat}

theorem load_of_drop {x : BitVec 8} (h : name.drop charIdx = x :: rest) :
    load name charIdx = .ok x ∧ name.drop (charIdx + 1) = rest := by
  have hget : name[charIdx]? = some x := by
    have := congrArg (fun l => l[0]?) h
    simpa using this
  constructor
  · unfold load
    rw [hget]
  · rw [← List.drop_drop, h]
    rfl

theorem fillName_done (name : List (BitVec 8)) (n charIdx : Nat) :
    fillName name n charIdx true = .ok (List.replicate n 0xFFFF, charIdx, true) := by
  cases n with
  | zero => rfl
  | succ n => rw [fillName, if_pos rfl]

theorem fillName_full {n : Nat} (h : name.drop charIdx = rest ++ [0]) (h0 : 0 ∉ rest)
    (hn : n ≤ rest.length) :
    fillName name n charIdx false = .ok ((rest.take n).map BitVec.toNat, charIdx + n, false) := by
  induction n generalizing rest charIdx with
  | zero => simp [fillName]
  | succ n ih =>
    cases rest with
    | nil => simp at hn
    | cons x rest =>
      obtain ⟨hload, hdrop⟩ := load_of_drop h
      have hx : x ≠ 0 := fun hx => h0 (hx ▸ List.mem_cons_self)
      rw [fillName, if_neg (by decide), hload, Res.ok_bind, decide_eq_false hx,
        ih hdrop (fun hm => h0 (List.mem_cons_of_mem _ hm)) (Nat.le_of_succ_le_succ hn)]
      simp [Nat.add_comm, Nat.add_left_comm]

theorem fillName_end {n : Nat} (h : name.drop charIdx = rest ++ [0]) (h0 : 0 ∉ rest)
    (hn : rest.length < n) :
    fillName name n charIdx false =
      .ok (rest.map BitVec.toNat ++ 0 :: List.replicate (n - rest.length - 1) 0xFFFF,
        charIdx + rest.length + 1, true) := by
  induction rest generalizing n charIdx with
  | nil =>
    obtain ⟨n, rfl⟩ := Nat.exists_eq_succ_of_ne_zero (Nat.ne_zero_of_lt hn)
    obtain ⟨hload, -⟩ := load_of_drop h
    rw [fillName, if_neg (by decide), hload, Res.ok_bind, decide_eq_true rfl, fillName_done]
    simp
  | cons x rest ih =>
    obtain ⟨n, rfl⟩ := Nat.exists_eq_succ_of_ne_zero (Nat.ne_zero_of_lt hn)
    obtain ⟨hload, hdrop⟩ := load_of_drop h
    have hx : x ≠ 0 := fun hx => h0 (hx ▸ List.mem_cons_self)
    rw [fillName, if_neg (by decide), hload, Res.ok_bind, decide_eq_false hx,
      ih hdrop (fun hm => h0 (List.mem_cons_of_mem _ hm)) (Nat.lt_of_succ_lt_succ hn)]
    have hpad : n + 1 - (rest.length + 1) - 1 = n - rest.length - 1 := by omega
    have hidx : charIdx + 1 + rest.length + 1 = charIdx + (rest.length + 1) + 1 := by omega
    rw [List.length_cons, hpad, Res.ok_bind, hidx]
    rfl

theorem drop_of_drop {k : Nat} (h : name.drop charIdx = rest ++ [0]) (hk : k ≤ rest.length) :
    name.drop (charIdx + k) = rest.drop k ++ [0] := by
  rw [← List.drop_drop, h, List.drop_append_of_le_length hk]

theorem charsOf_take {rest : List (BitVec 8)} (h : rest.length < 13) :
    (charsOf rest).take 13 =
      rest.map BitVec.toNat ++ 0 :: List.replicate (12 - rest.length) 0xFFFF := by
  obtain ⟨k, hk⟩ : ∃ k, 13 - rest.length = k + 1 := ⟨12 - rest.length, by omega⟩
  unfold charsOf
  rw [List.take_append, List.take_of_length_le (by simp; omega), List.length_map, hk,
    List.take_succ_cons, List.take_replicate, show min k 12 = 12 - rest.length by omega]

/-- The entry for the rest of a name, which may end in any of its three parts. -/
theorem longEntry_chars (checksum : BitVec 8) (ord : Nat) (h : name.drop charIdx = rest ++ [0])
    (h0 : 0 ∉ rest) :
    ∃ e, longEntry name checksum ord charIdx =
        .ok (e, if 13 ≤ rest.length then charIdx + 13 else charIdx + rest.length + 1) ∧
      e.ldirOrd = ord % 2 ^ 8 ∧ e.ldirChksum = checksum ∧ e.chars = (charsOf rest).take 13 := by
  have h0d : ∀ k, 0 ∉ rest.drop k := fun k hm => h0 (List.mem_of_mem_drop hm)
  unfold longEntry
  by_cases h5 : rest.length < 5
  · rw [fillName_end h h0 h5, Res.ok_bind]
    dsimp only
    rw [fillName_done, Res.ok_bind]
    dsimp only
    rw [fillName_done, Res.ok_bind, if_neg (by omega)]
    refine ⟨_, rfl, rfl, rfl, ?_⟩
    rw [charsOf_take (by omega)]
    simp only [DirentL.chars, List.append_assoc, List.cons_append, List.replicate_append_replicate]
    congr 3
    omega
  rw [fillName_full h h0 (by omega), Res.ok_bind]
  dsimp only
  have hd5 := drop_of_drop (k := 5) h (by omega)
  have hl5 : (rest.drop 5).length = rest.length - 5 := List.length_drop
  by_cases h11 : rest.length < 11
  · rw [fillName_end hd5 (h0d 5) (by omega), Res.ok_bind]
    dsimp only
    rw [fillName_done, Res.ok_bind, if_neg (by omega)]
    refine ⟨_, by rw [hl5]; simp only [Res.pure_eq_ok]; congr 2; omega, rfl, rfl, ?_⟩
    rw [charsOf_take (by omega)]
    simp only [DirentL.chars, List.append_assoc, List.cons_append, List.replicate_append_replicate]
    rw [← List.append_assoc, ← List.map_append, List.take_append_drop]
    congr 3
    omega
  rw [fillName_full hd5 (h0d 5) (by omega), Res.ok_bind]
  dsimp only
  have hd11 := drop_of_drop (k := 6) hd5 (by omega)
  rw [List.drop_drop, show 5 + 6 = 11 from rfl] at hd11
  have hl11 : (rest.drop 11).length = rest.length - 11 := List.length_drop
  have hname12 : (rest.take 5).map BitVec.toNat ++ ((rest.drop 5).take 6).map BitVec.toNat =
      (rest.take 11).map BitVec.toNat := by
    rw [← List.map_append, ← List.take_add]
  by_cases h13 : rest.length < 13
  · rw [fillName_end hd11 (h0d 11) (by omega), Res.ok_bind, if_neg (by omega)]
    refine ⟨_, by rw [hl11]; simp only [Res.pure_eq_ok]; congr 2; omega, rfl, rfl, ?_⟩
    rw [charsOf_take (by omega)]
    simp only [DirentL.chars]
    rw [hname12, ← List.append_assoc, ← List.map_append, List.take_append_drop]
    congr 3
    omega
  · rw [fillName_full hd11 (h0d 11) (by omega), Res.ok_bind, if_pos (by omega)]
    refine ⟨_, rfl, rfl, rfl, ?_⟩
    simp only [DirentL.chars]
    rw [hname12, ← List.map_append, ← List.take_add]
    unfold charsOf
    rw [List.take_append_of_le_length (by simp; omega), List.map_take]

end

/-! ## The list of entries -/

/-- The entries `es`, in the order in which they are popped, hold the name `rest` from ordinal `i`
on. -/
def Pieces (checksum : BitVec 8) : List DirentL → Nat → List (BitVec 8) → Prop
  | [], _, rest => rest = []
  | e :: es, i, rest =>
    rest ≠ [] ∧ e.ldirOrd = (if es = [] then i ||| 0x40 else i) ∧ e.ldirChksum = checksum ∧
      e.chars = (charsOf rest).take 13 ∧ Pieces checksum es (i + 1) (rest.drop 13)

theorem longEntries_pieces {name : List (BitVec 8)} {nameLen ordMax : Nat} (checksum : BitVec 8)
    (hord : ordMax < 64) (n : Nat) : ∀ (i charIdx : Nat) (rest : List (BitVec 8))
    (stack : List DirentL), name.drop charIdx = rest ++ [0] → 0 ∉ rest →
    nameLen = charIdx + rest.length → i + n = ordMax + 1 → 13 * n < rest.length + 13 →
    rest.length ≤ 13 * n → stack.length + n ≤ capacity →
    ∃ es, longEntries name nameLen ordMax checksum n i charIdx stack = .ok (es.reverse ++ stack) ∧
      es.length = n ∧ Pieces checksum es i rest := by
  induction n with
  | zero =>
    intro i charIdx rest stack _ _ _ _ _ hle _
    exact ⟨[], rfl, rfl, List.eq_nil_of_length_eq_zero (by omega)⟩
  | succ n ih =>
    intro i charIdx rest stack hdrop h0 hlen hi hlt hle hcap
    have hne : charIdx ≠ nameLen := by omega
    have hrest : rest ≠ [] := List.ne_nil_of_length_pos (by omega)
    obtain ⟨e, hrun, hordE, hsum, hchars⟩ :=
      longEntry_chars checksum (if i = ordMax then i ||| 0x40 else i) hdrop h0
    have hlow : (if i = ordMax then i ||| 0x40 else i) < 2 ^ 8 := by
      split
      · exact Nat.or_lt_two_pow (by omega) (by decide)
      · omega
    rw [Nat.mod_eq_of_lt hlow] at hordE
    rw [longEntries, if_neg hne, hrun, Res.ok_bind]
    dsimp only
    rw [if_neg (by omega)]
    cases n with
    | zero =>
      refine ⟨[e], rfl, rfl, hrest, ?_, hsum, hchars, List.drop_of_length_le (by omega)⟩
      rw [hordE, if_pos (by omega), if_pos rfl]
    | succ n =>
      rw [if_pos (by omega)]
      obtain ⟨es, hes, hl, hp⟩ := ih (i + 1) (charIdx + 13) (rest.drop 13) (e :: stack)
        (drop_of_drop (k := 13) hdrop (by omega)) (fun hm => h0 (List.mem_of_mem_drop hm))
        (by rw [List.length_drop]; omega) (by omega) (by rw [List.length_drop]; omega)
        (by rw [List.length_drop]; omega) (by rw [List.length_cons]; omega)
      have hnil : es ≠ [] := fun h => by simp [h] at hl
      refine ⟨e :: es, by rw [hes]; simp, by rw [List.length_cons, hl], hrest, ?_, hsum, hchars, hp⟩
      rw [hordE, if_neg (by omega), if_neg hnil]

/-! ## Decoding a run of entries -/

/-- The entries `es`, in the order in which they are popped, have the ordinals from `i` on, the last
of them marked, and the checksum. -/
def RunFrom (checksum : BitVec 8) : Nat → List DirentL → Prop
  | _, [] => True
  | i, e :: es => e.ldirOrd = (if es = [] then i ||| 0x40 else i) ∧ e.ldirChksum = checksum ∧
      RunFrom checksum (i + 1) es

/-- The bytes that the decoding of the entries copies. -/
def runBytes (es : List DirentL) : List (BitVec 8) := es.flatMap fun e => (validBytes e.chars).1

theorem last_flag (i : Nat) : (i ||| 0x40) &&& 0x40 ≠ 0 := by
  intro h
  have h6 : Nat.testBit ((i ||| 0x40) &&& 0x40) 6 = true := by
    rw [Nat.testBit_and, Nat.testBit_or]
    simp [show Nat.testBit 0x40 6 = true by decide]
  rw [h] at h6
  cases h6

theorem runBytes_cons (e : DirentL) (es : List DirentL) :
    runBytes (e :: es) = (validBytes e.chars).1 ++ runBytes es := List.flatMap_cons

section
variable {fcbSName : List (BitVec 8)} {e e' : DirentL} {es : List DirentL} {cnt : Nat}

/-- The last entry on the stack may have any ordinal. -/
theorem popLoop_last (hsum : e.ldirChksum = chkSum fcbSName 0) (he : e.chars.length ≤ 14)
    (nameIdx : Nat) (nameBuf : List (BitVec 8)) :
    popLoop fcbSName [e] cnt nameIdx nameBuf =
      copyName (validBytes e.chars).1 nameIdx nameBuf >>= fun r => store r.2 r.1 0 >>= fun nameBuf =>
        .ok (if e.ldirOrd &&& 0x40 ≠ 0 then 1 else 0, [], nameBuf) := by
  rw [popLoop, if_neg (by simp), if_neg (fun h => h hsum), filterLongname_eq he, Res.ok_bind]
  dsimp only
  rw [List.take_left' rfl]
  rfl

theorem popLoop_more (hord : e.ldirOrd = cnt) (hsum : e.ldirChksum = chkSum fcbSName 0)
    (he : e.chars.length ≤ 14) (nameIdx : Nat) (nameBuf : List (BitVec 8)) :
    popLoop fcbSName (e :: e' :: es) cnt nameIdx nameBuf =
      copyName (validBytes e.chars).1 nameIdx nameBuf >>= fun r =>
        popLoop fcbSName (e' :: es) ((cnt + 1) % 2 ^ 8) r.1 r.2 := by
  rw [popLoop, if_neg (fun h => h.2 hord.symm), if_neg (fun h => h hsum), filterLongname_eq he,
    Res.ok_bind]
  dsimp only
  rw [List.take_left' rfl]

end

theorem popLoop_run {fcbSName : List (BitVec 8)} {es : List DirentL} :
    ∀ {i : Nat} (pre post : List (BitVec 8)), RunFrom (chkSum fcbSName 0) i es → es ≠ [] →
    (∀ e ∈ es, e.chars.length ≤ 14) → i + es.length ≤ 2 ^ 8 → (runBytes es).length < post.length →
    popLoop fcbSName es i pre.length (pre ++ post) =
      .ok (1, [], pre ++ runBytes es ++ 0 :: post.drop ((runBytes es).length + 1)) := by
  induction es with
  | nil => exact fun _ _ _ h => absurd rfl h
  | cons e es ih =>
    intro i pre post hrun _ hchars hi hpost
    obtain ⟨hord, hsum, hrun'⟩ := hrun
    obtain ⟨he, hes⟩ := List.forall_mem_cons.1 hchars
    rw [runBytes_cons, List.length_append] at hpost
    have hcopy := copyName_append (validBytes e.chars).1 pre post (by omega)
    cases es with
    | nil =>
      rw [if_pos rfl] at hord
      obtain ⟨y, post', hpost'⟩ := List.exists_cons_of_ne_nil
        (List.ne_nil_of_length_pos (by rw [List.length_drop]; omega) :
          post.drop (validBytes e.chars).1.length ≠ [])
      rw [popLoop_last hsum he, hcopy, Res.ok_bind, hpost']
      dsimp only
      rw [store_append, Res.ok_bind, hord, if_pos (last_flag i), runBytes_cons,
        show runBytes [] = [] from rfl, List.append_nil, ← List.drop_drop, hpost']
      simp
    | cons e' es =>
      rw [if_neg (List.cons_ne_nil _ _)] at hord
      rw [popLoop_more hord hsum he, hcopy, Res.ok_bind]
      dsimp only
      rw [Nat.mod_eq_of_lt (by simp only [List.length_cons] at hi; omega),
        ih (pre ++ (validBytes e.chars).1) (post.drop (validBytes e.chars).1.length) hrun' (by simp)
          hes (by simp only [List.length_cons] at hi ⊢; omega) (by rw [List.length_drop]; omega),
        runBytes_cons e, List.drop_drop, List.length_append, List.append_assoc, List.append_assoc,
        Nat.add_assoc]
      simp

/-- Entries that hold a name are a run, and are decoded to the name, with a 0 behind it unless the
last of them is full. -/
theorem Pieces.run {checksum : BitVec 8} {es : List DirentL} :
    ∀ {i : Nat} {rest : List (BitVec 8)}, Pieces checksum es i rest → 0 ∉ rest →
    RunFrom checksum i es ∧ (∀ e ∈ es, e.chars.length ≤ 14) ∧
      (runBytes es = rest ∨ runBytes es = rest ++ [0]) := by
  induction es with
  | nil => exact fun hp _ => ⟨trivial, by simp, .inl (Eq.symm hp)⟩
  | cons e es ih =>
    intro i rest hp h0
    obtain ⟨-, hord, hsum, hchars, hp'⟩ := hp
    obtain ⟨hrun, hlen, hbytes⟩ := ih hp' fun hm => h0 (List.mem_of_mem_drop hm)
    refine ⟨⟨hord, hsum, hrun⟩, ?_, ?_⟩
    · intro x hx
      obtain rfl | hx := List.mem_cons.1 hx
      · rw [hchars]
        exact Nat.le_trans (List.length_take_le _ _) (by decide)
      · exact hlen x hx
    · rw [runBytes_cons, hchars, validBytes_charsOf h0]
      by_cases h13 : 13 ≤ rest.length
      · rw [if_pos h13]
        obtain hb | hb := hbytes
        · exact .inl (by rw [hb, List.take_append_drop])
        · exact .inr (by rw [hb, ← List.append_assoc, List.take_append_drop])
      · rw [if_neg h13]
        have hnil : es = [] := by
          cases es with
          | nil => rfl
          | cons e' es => exact absurd (List.drop_eq_nil_iff.2 (by omega)) hp'.1
        subst hnil
        exact .inr (List.append_nil _)

/-! ## `fat32_fcb_init` -/

theorem isDotName_of_ne {x : BitVec 8} {s : List (BitVec 8)} (h : x ≠ 46) :
    isDotName (x :: s) = .ok false := by
  have hne : (x.toNat : Int) - (46 : BitVec 8).toNat ≠ 0 := by
    intro h0
    have : x.toNat = (46 : BitVec 8).toNat := by omega
    exact h (BitVec.eq_of_toNat_eq this)
  unfold isDotName pathLongMax
  rw [strncmp_of_ne h, Res.ok_bind, strncmp_of_ne h, Res.ok_bind]
  simp only [Res.pure_eq_ok, Except.ok.injEq, decide_eq_false_iff_not, or_self]
  exact hne

/-- The long entries of a new file hold its name. -/
theorem newFcb_pieces {longName : CStr} {dirName : List (BitVec 8)} {attr firstC : Nat} {fcb : Fcb}
    (hlen : longName.val.length ≤ 254) (h : newFcb longName.chars dirName attr firstC = .ok fcb) :
    fcb.short.dirName = dirName ∧ fcb.long.length = (longName.val.length + 12) / 13 ∧
      Pieces (chkSum dirName 0) fcb.long.reverse 1 longName.val := by
  unfold newFcb at h
  rw [strlen_chars, Res.ok_bind] at h
  dsimp only at h
  obtain ⟨ordMax, hord⟩ : ∃ n, n = (longName.val.length + fatLfnLength - 1) / fatLfnLength := ⟨_, rfl⟩
  have hceil : ordMax = (longName.val.length + 12) / 13 := hord
  rw [← hord] at h
  obtain ⟨es, hrun, hl, hp⟩ := longEntries_pieces (chkSum dirName 0) (by omega) ordMax 1 0
    longName.val [] (rfl : longName.chars.drop 0 = _) longName.property (Nat.zero_add _).symm
    (Nat.add_comm _ _) (by omega) (by omega) (by rw [List.length_nil, capacity]; omega)
  rw [hrun, Res.ok_bind] at h
  cases h
  refine ⟨rfl, ?_, ?_⟩
  · rw [List.append_nil, List.length_reverse, hl, hceil]
  · rw [List.append_nil, List.reverse_reverse]
    exact hp

theorem stackPush_all (es : List DirentL) : ∀ stack : List DirentL,
    stack.length + es.length ≤ capacity → es.foldlM stackPush stack = .ok (es.reverse ++ stack) := by
  induction es with
  | nil => exact fun _ _ => rfl
  | cons e es ih =>
    intro stack h
    rw [List.length_cons] at h
    rw [List.foldlM_cons, stackPush, if_neg (by omega), Res.ok_bind,
      ih (e :: stack) (by rw [List.length_cons]; omega)]
    simp

section
variable {σ : Type} {h : Lib.Handler Fault Driver.Sector σ} {c c' : σ} {sb sb' : Superblock}
  {fuel attr n : Nat} {parent : Inode} {longName : CStr} {fileName fileExt : List (BitVec 8)}
  {fcb : Fcb}

/-- A name that does not start with a dot gets long entries and a short one. -/
theorem fcbInit_newFcb (hdot : isDotName longName.chars = .ok false)
    (hrun : (fat32FcbInit sb fuel parent longName attr fileName fileExt).interp h c =
      .ok ((n, fcb, sb'), c')) :
    n = fcb.long.length + 1 ∧ ∃ dirName firstC, newFcb longName.chars dirName attr firstC = .ok fcb := by
  unfold fat32FcbInit at hrun
  obtain ⟨dot, c₁, hl, hr₁⟩ := Prog.interp_bind_eq_ok.1 hrun
  obtain ⟨hd, rfl⟩ := Prog.interp_lift_eq_ok.1 hl
  cases hdot.symm.trans hd
  rw [if_neg (by decide)] at hr₁
  obtain ⟨dirName, c₂, -, hr₂⟩ := Prog.interp_bind_eq_ok.1 hr₁
  obtain ⟨⟨firstC, sb₁⟩, c₃, -, hr₃⟩ := Prog.interp_bind_eq_ok.1 hr₂
  obtain ⟨fcb', c₄, hf, hr₄⟩ := Prog.interp_bind_eq_ok.1 hr₃
  obtain ⟨hfcb, rfl⟩ := Prog.interp_lift_eq_ok.1 hf
  cases hr₄
  exact ⟨rfl, dirName, firstC, hfcb⟩

/-- Whatever the disk, the directory and the contents of the local arrays: when `fat32_fcb_init`
returns for a name that does not start with a dot, it wrote an entry for each 13 characters and the
short one; pushing the long ones in their order and decoding them with the short name gives the name
back. -/
theorem longname_roundtrip (hlen : 1 ≤ longName.val.length ∧ longName.val.length ≤ 254)
    (hdot : longName.val.head? ≠ some 46)
    (hrun : (fat32FcbInit sb fuel parent longName attr fileName fileExt).interp h c =
      .ok ((n, fcb, sb'), c'))
    {nameBuf : List (BitVec 8)} (hbuf : longName.val.length + 2 ≤ nameBuf.length) :
    fcb.long.length = (longName.val.length + 12) / 13 ∧ n = fcb.long.length + 1 ∧
    ∃ stack nameBuf', fcb.long.foldlM stackPush [] = .ok stack ∧
      fat32LongnamePopstack stack fcb.short.dirName nameBuf = .ok (1, [], nameBuf') ∧
      longName.chars <+: nameBuf' := by
  have hnot : isDotName longName.chars = .ok false := by
    unfold CStr.chars
    cases hs : longName.val with
    | nil => simp [hs] at hlen
    | cons x s =>
      refine isDotName_of_ne fun hx => hdot ?_
      rw [hs, hx]
      rfl
  obtain ⟨hn, dirName, firstC, hfcb⟩ := fcbInit_newFcb hnot hrun
  obtain ⟨hname, hk, hp⟩ := newFcb_pieces hlen.2 hfcb
  have hcap : ([] : List DirentL).length + fcb.long.length ≤ capacity := by
    rw [List.length_nil, capacity]
    omega
  have hne : fcb.long.reverse ≠ [] := by
    refine List.ne_nil_of_length_pos ?_
    rw [List.length_reverse]
    omega
  obtain ⟨hrun', hchars, hbytes⟩ := hp.run longName.property
  have hle : (runBytes fcb.long.reverse).length ≤ longName.val.length + 1 := by
    obtain hb | hb := hbytes
    · rw [hb]
      exact Nat.le_succ _
    · rw [hb, List.length_append, List.length_singleton]
  have hpop := popLoop_run [] nameBuf hrun' hne hchars (by rw [List.length_reverse]; omega)
    (by omega)
  refine ⟨hk, hn, _,
    runBytes fcb.long.reverse ++ 0 :: nameBuf.drop ((runBytes fcb.long.reverse).length + 1),
    stackPush_all _ _ hcap, ?_, ?_⟩
  · rw [List.append_nil, hname]
    exact hpop
  · unfold CStr.chars
    obtain hb | hb := hbytes
    · rw [hb]
      exact ⟨_, List.append_assoc _ _ _⟩
    · rw [hb]
      exact List.prefix_append _ _

end

/-- The root of a blank volume. -/
def blankRoot : Inode :=
  { iDev := ⟨rootDev, rfl⟩, iIno := 0, iMode := 0, iSize := 512, iType := .dir, attr := 0x10
    dirLstAccDate := 0, dirWrtTime := 0, dirWrtDate := 0
    clusterStart := 2, clusterEnd := 2, clusterCnt := 1 }

/-- `verification.c`, which needs two entries. -/
def twoEntryName : CStr :=
  ⟨[118, 101, 114, 105, 102, 105, 99, 97, 116, 105, 111, 110, 46, 99], by decide⟩

theorem longname_roundtrip_two :
    ∃ fcb stack nameBuf' sb' disk',
      (fat32FcbInit blankSb 3 blankRoot twoEntryName 0x20 (List.replicate 16 0)
        (List.replicate 4 0)).interp Prog.store (fun _ _ => 0) = .ok ((3, fcb, sb'), disk') ∧
      fcb.long.foldlM stackPush [] = .ok stack ∧
      fat32LongnamePopstack stack fcb.short.dirName (List.replicate 255 0) = .ok (1, [], nameBuf') ∧
      twoEntryName.chars <+: nameBuf' := by
  have hx : ((fat32FcbInit blankSb 3 blankRoot twoEntryName 0x20 (List.replicate 16 0)
      (List.replicate 4 0)).interp Prog.store (fun _ _ => 0)).toOption.isSome = true := by
    decide +kernel
  obtain ⟨⟨⟨n, fcb, sb'⟩, disk'⟩, hrun⟩ := Res.exists_ok_of_isSome hx
  have hbuf : twoEntryName.val.length + 2 ≤ (List.replicate 255 (0 : BitVec 8)).length := by
    rw [List.length_replicate]
    decide
  obtain ⟨hk, hn, stack, nameBuf', hpush, hpop, hname⟩ :=
    longname_roundtrip (by decide) (by decide) hrun hbuf
  have hn3 : n = 3 := by
    rw [hn, hk]
    rfl
  subst hn3
  exact ⟨fcb, stack, nameBuf', sb', disk', hrun, hpush, hpop, hname⟩

end Fs
