import OS404.Driver.Proof.Buffer
import OS404.Fs.Proof.InodeWrite
import OS404.Lib.Run

/-!
# Chains of different files

`chains_disjoint`: as long as every call finds its hints usable, the chains of the files stay well
formed and disjoint. `write_crosslinks` is a call whose hint is on another file's chain: the two
chains share a cluster after it.

* `fcbInit_spec`: `fat32_fcb_init` reads the parent and takes one cluster.
* `write_step`, `fcbInit_step`: what one call does to the chains.
-/

namespace Fs

open Lib (Prog Linked Run storeNat)
open Driver (Sector BufferCache)
open Str

variable {sb : Superblock} {d d' : Nat → Sector} {ip : Inode} {L : List Nat}

/-! ## `fat32_fcb_init` -/

theorem readsOnly_sameNameSectors {name : List (BitVec 8)} {first : Nat} : ∀ (n s ret : Nat),
    (sameNameSectors sb ip name first n s ret).ReadsOnly
  | 0, _, _ => Prog.readsOnly_pure _
  | n + 1, s, ret => by
    unfold sameNameSectors
    refine .bind (Prog.readsOnly_get _) fun d => .bind (Prog.readsOnly_lift _) fun r => ?_
    cases hr : r.2 with
    | true => simp only [hr, if_true]; exact Prog.readsOnly_pure _
    | false =>
      simp only [hr, Bool.false_eq_true, if_false]
      exact readsOnly_sameNameSectors n (s + 1) _

theorem readsOnly_sameNameClusters {name : List (BitVec 8)} : ∀ (fuel iter ret : Nat),
    (sameNameClusters sb ip name fuel iter ret).ReadsOnly
  | 0, _, _ => trivial
  | fuel + 1, iter, ret => by
    unfold sameNameClusters
    split
    · exact Prog.readsOnly_pure _
    · refine .bind (readsOnly_sameNameSectors _ _ _) fun r => ?_
      cases hr : r.2 with
      | true => simp only [hr, if_true]; exact Prog.readsOnly_pure _
      | false =>
        simp only [hr, Bool.false_eq_true, if_false]
        exact .bind (readsOnly_nextCluster _) fun next => readsOnly_sameNameClusters fuel next _

theorem readsOnly_findSameNameCnt (fuel : Nat) (name : List (BitVec 8)) :
    (fat32FindSameNameCnt sb fuel ip name).ReadsOnly := by
  unfold fat32FindSameNameCnt
  split
  · exact .bind (Prog.readsOnly_lift _) fun _ => readsOnly_sameNameClusters _ _ _
  · trivial

theorem readsOnly_shortNameFile (fuel : Nat) (name fileName fileExt : List (BitVec 8)) :
    (shortNameFile sb fuel ip name fileName fileExt).ReadsOnly := by
  unfold shortNameFile
  refine .bind (Prog.readsOnly_lift _) fun _ => .bind (Prog.readsOnly_lift _) fun _ =>
    .bind (Prog.readsOnly_lift _) fun _ => .bind (Prog.readsOnly_lift _) fun _ => ?_
  split
  · exact .bind (readsOnly_findSameNameCnt _ _) fun _ => Prog.readsOnly_lift _
  · exact Prog.readsOnly_pure _

theorem readsOnly_shortNameDir (fuel : Nat) (name fileName : List (BitVec 8)) :
    (shortNameDir sb fuel ip name fileName).ReadsOnly := by
  unfold shortNameDir
  refine .bind (Prog.readsOnly_lift _) fun _ => .bind (Prog.readsOnly_lift _) fun _ =>
    .bind (Prog.readsOnly_lift _) fun _ => .bind (Prog.readsOnly_lift _) fun _ => ?_
  split
  · exact .bind (readsOnly_findSameNameCnt _ _) fun _ => .bind (Prog.readsOnly_lift _) fun _ =>
      .bind (Prog.readsOnly_lift _) fun _ => .bind (Prog.readsOnly_lift _) fun _ =>
      Prog.readsOnly_lift _
  · exact Prog.readsOnly_pure _

/-- **`fat32_fcb_init`**: `.` and `..` take no cluster; the entry of another name has the cluster
that `fat32_cluster_alloc` returned. -/
theorem fcbInit_spec {fuel attr : Nat} {longName : CStr} {fileName fileExt : List (BitVec 8)}
    {r : Nat × Fcb × Superblock}
    (hr : (fat32FcbInit sb fuel ip longName attr fileName fileExt).run d = .ok (r, d')) :
    (isDotName longName.chars = .ok true ∧ r.2.2 = sb ∧ d' = d) ∨
    (isDotName longName.chars ≠ .ok true ∧ ∃ firstC dirName,
      (fat32ClusterAlloc sb ip.iDev).run d = .ok ((firstC, r.2.2), d') ∧
      newFcb longName.chars dirName attr firstC = .ok r.2.1) := by
  obtain ⟨dot, d₁, hd, hr₁⟩ := Prog.run_bind_eq_ok.1 hr
  obtain ⟨hdot, rfl⟩ := Prog.run_lift_eq_ok.1 hd
  rw [hdot]
  cases dot with
  | true =>
    rw [if_pos rfl] at hr₁
    obtain ⟨fcb, d₂, hf, hr₂⟩ := Prog.run_bind_eq_ok.1 hr₁
    obtain ⟨-, rfl⟩ := Prog.run_lift_eq_ok.1 hf
    cases hr₂
    exact .inl ⟨rfl, rfl, rfl⟩
  | false =>
    rw [if_neg (by decide)] at hr₁
    obtain ⟨dirName, d₂, hn, hr₂⟩ := Prog.run_bind_eq_ok.1 hr₁
    obtain rfl : d₂ = d₁ := by
      split at hn
      · exact (readsOnly_shortNameDir _ _ _).run_eq hn
      · exact (readsOnly_shortNameFile _ _ _ _).run_eq hn
    obtain ⟨a, d₃, ha, hr₃⟩ := Prog.run_bind_eq_ok.1 hr₂
    obtain ⟨fcb, d₄, hf, hr₄⟩ := Prog.run_bind_eq_ok.1 hr₃
    obtain ⟨hfcb, rfl⟩ := Prog.run_lift_eq_ok.1 hf
    cases hr₄
    exact .inr ⟨by simp, a.1, dirName, ha, hfcb⟩

/-- The first cluster in the entry of a new file. -/
theorem newFcb_firstClus {name dirName : List (BitVec 8)} {attr c : Nat} {fcb : Fcb}
    (hc : c < 2 ^ 32) (h : newFcb name dirName attr c = .ok fcb) :
    dirFirstClus fcb.short.dirFstClusHI fcb.short.dirFstClusLO = c := by
  unfold newFcb at h
  obtain ⟨len, -, h⟩ := Res.bind_eq_ok.1 h
  obtain ⟨long, -, h⟩ := Res.bind_eq_ok.1 h
  obtain rfl := Except.ok.inj h
  have h1 : c >>> 16 < 2 ^ 16 := by
    rw [Nat.shiftRight_eq_div_pow]
    omega
  have h2 : c % 2 ^ 16 < 2 ^ 16 := Nat.mod_lt _ (by decide)
  show u32 (dirFirstHigh c <<< 16) ||| dirFirstLow c = c
  unfold dirFirstHigh dirFirstLow
  rw [Nat.mod_eq_of_lt h1, show (0xFFFF : Nat) = 2 ^ 16 - 1 from rfl, Nat.and_two_pow_sub_one_eq_mod,
    u32_of_lt (by rw [Nat.shiftLeft_eq]; omega), Nat.shiftLeft_eq, Nat.mul_comm,
    ← Nat.two_pow_add_eq_or_of_lt h2, Nat.shiftRight_eq_div_pow, Nat.div_add_mod]

/-! ## The chains of the files -/

/-- The chain of a file, which is empty when its first cluster is 0. -/
def ChainOf (sb : Superblock) (d : Nat → Sector) (ip : Inode) (L : List Nat) : Prop :=
  (ip.clusterStart = 0 ∧ L = []) ∨
    (L ≠ [] ∧ FatChain sb d ip.clusterStart L ∧ ip.clusterCnt = L.length)

theorem ChainOf.data (h : ChainOf sb d ip L) {c : Nat} (hc : c ∈ L) : DataCluster sb c := by
  rcases h with ⟨-, rfl⟩ | ⟨-, h, -⟩
  · exact absurd hc List.not_mem_nil
  · exact h.data c hc

/-- A file's chain reads only its own entries, and of the superblock only the geometry. -/
theorem ChainOf.congr {x y : Nat} (h : ChainOf sb d ip L)
    (hf : ∀ c ∈ L, fatNext sb d' c = fatNext sb d c) : ChainOf (sb.withFree x y) d' ip L := by
  rcases h with h | ⟨hL, h, hcnt⟩
  · exact .inl h
  · exact .inr ⟨hL, ⟨h.linked.congr hf, h.data⟩, hcnt⟩

theorem ChainOf.unique {M : List Nat} (h : ChainOf sb d ip L) (h' : ChainOf sb d ip M) : L = M := by
  have key : ∀ {L : List Nat}, L ≠ [] → FatChain sb d ip.clusterStart L → ip.clusterStart ≠ 0 := by
    intro L hL h h0
    cases L with
    | nil => exact hL rfl
    | cons a L =>
      have h1 := h.linked.1
      have h2 := (h.data a (.head _)).1
      omega
  rcases h with ⟨h0, rfl⟩ | ⟨hL, h, -⟩
  · rcases h' with ⟨-, rfl⟩ | ⟨hM, h', -⟩
    · rfl
    · exact absurd h0 (key hM h')
  · rcases h' with ⟨h0, -⟩ | ⟨-, h', -⟩
    · exact absurd h0 (key hL h)
    · exact h.linked.unique h'.linked

/-- What a write does to the chains: the file's chain may get hints, and only entries of the file
and of the hints change. -/
structure Grew (sb : Superblock) (d d' : Nat → Sector) (ip : Inode) (L : List Nat) (k : Nat)
    (sb' : Superblock) (ip' : Inode) (L' : List Nat) : Prop where
  super : sb' = sb.withFree (sb.freeCount - k) (sb.nxtFree + k)
  chainOf : ChainOf sb' d' ip' L'
  ino : ip'.iIno = ip.iIno
  sub : ∀ c ∈ L', c ∈ L ∨ c ∈ List.range' sb.nxtFree k
  fat : ∀ c, DataCluster sb c → c ∉ L → c ∉ List.range' sb.nxtFree k →
    fatNext sb d' c = fatNext sb d c

theorem inodeWrite_grew {off n : Nat} {src : List (BitVec 8)} {r : Nat × Superblock × Inode}
    (hv : VolumeOk sb) (hc : ChainOf sb d ip L) (hd : DirentOk sb ip.iIno) (hoff : off < 2 ^ 32)
    (hk : HintsOk sb d sb.nxtFree (if writeAccepts sb ip off n then writeNeeds sb ip off n else 0) L)
    (hr : (fat32InodeWrite sb ip src off n).run d = .ok (r, d')) :
    ∃ k L', k ≤ (if writeAccepts sb ip off n then writeNeeds sb ip off n else 0) ∧
      Grew sb d d' ip L k r.2.1 r.2.2 L' := by
  by_cases ha : writeAccepts sb ip off n = true
  · rw [if_pos ha] at hk ⊢
    rcases hc with ⟨h0, rfl⟩ | ⟨hL, hc, hcnt⟩
    · obtain ⟨k, d₁, ip', hk₁, hch, ⟨h0', hino⟩, hr₂, hu⟩ := inodeWrite_empty hv h0 hoff hk ha hr
      obtain ⟨hsb, hip⟩ := Prod.mk.inj hr₂
      rw [← hip] at h0' hino hu
      have huf := update_fat hv (hino ▸ hd) hu
      refine ⟨k, [], hk₁, hsb, .inl ⟨h0', rfl⟩, hino, fun c hc => absurd hc List.not_mem_nil, ?_⟩
      intro c hcd _ hcr
      rw [huf c hcd.2]
      apply hch.fat c hcd.2
      have := hcd.1
      rw [List.mem_cons, not_or]
      exact ⟨by omega, hcr⟩
    · obtain ⟨k, e, d₁, ip', hk₁, hap, hip, rfl, hu, -, -⟩ :=
        inodeWrite_chain hv hL hc hcnt hoff hk ha hr
      have hino : ip'.iIno = ip.iIno := by rw [hip]
      have huf := update_fat hv (hino ▸ hd) hu
      refine ⟨k, L ++ List.range' sb.nxtFree k, hk₁, rfl, ?_, hino, fun c => List.mem_append.1, ?_⟩
      · refine ChainOf.congr (.inr ⟨by simp [hL], ?_, ?_⟩) fun c hc => huf c (hap.chain.data c hc).2
        · rw [hip]
          exact hap.chain
        · rw [hip, List.length_append, List.length_range', ← hcnt]
      · intro c hcd hcL hcr
        rw [huf c hcd.2]
        apply hap.change.fat c hcd.2
        rw [List.mem_append, Option.mem_toList, not_or]
        exact ⟨fun hm => hcL (List.mem_of_getLast? hm), hcr⟩
  · rw [if_neg ha]
    unfold fat32InodeWrite at hr
    rw [if_neg ha] at hr
    cases hr
    exact ⟨0, L, Nat.le_refl _, rfl, hc.congr fun _ _ => rfl, rfl, fun c hc => .inl hc,
      fun _ _ _ _ => rfl⟩

theorem chainOf_singleton {c : Nat} (hv : VolumeOk sb) (hc : DataCluster sb c)
    (hs : ip.clusterStart = c) (hcnt : ip.clusterCnt = 1) (he : Iseof (fatNext sb d c)) :
    ChainOf sb d ip [c] := by
  refine .inr ⟨by simp, ⟨⟨hs, hc.not_iseof hv, he⟩, fun c' hc' => ?_⟩, hcnt⟩
  rw [List.mem_singleton.1 hc']
  exact hc

namespace Volume

/-- The chains of the files are `chain`, and disjoint. -/
structure Chains (s : Volume) (chain : Nat → List Nat) : Prop where
  cache : BufferCache.Ok rootDev s.cache
  volume : VolumeOk s.sb
  chainOf : ∀ i ip, s.files[i]? = some ip → ChainOf s.sb s.disk ip (chain i)
  dirent : ∀ ip ∈ s.files, DirentOk s.sb ip.iIno
  disjoint : ∀ i j, i < s.files.length → j < s.files.length → i ≠ j →
    (chain i).Disjoint (chain j)

/-- The most clusters that a call takes. -/
def needs (s : Volume) : Call → Nat
  | .write i _ off n =>
    match s.files[i]? with
    | none => 0
    | some ip => if writeAccepts s.sb ip off.toNat n.toNat then writeNeeds s.sb ip off.toNat n.toNat else 0
  | .fcbInit _ _ longName _ _ _ _ => if isDotName longName.chars = .ok true then 0 else 1

/-- The clusters that a call may take, from `nxt_free` on, are data clusters on no file's chain, each
below `FAT_CLUSTER_MAX - 1` and with a zero first byte. -/
def HintsFree (s : Volume) (call : Call) : Prop :=
  ∀ j < s.needs call, Hint s.sb s.disk (s.sb.nxtFree + j) ∧
    ∀ ip ∈ s.files, ∀ L, ChainOf s.sb s.disk ip L → s.sb.nxtFree + j ∉ L

variable {s s' : Volume} {chain : Nat → List Nat}

/-- The chains of `s'` are disjoint, and a cluster that a file got was on no chain before. -/
def StepOk (s s' : Volume) (chain : Nat → List Nat) : Prop :=
  ∃ chain', s'.Chains chain' ∧ ∀ i < s'.files.length, ∀ c ∈ chain' i,
    (i < s.files.length ∧ c ∈ chain i) ∨ ∀ j < s.files.length, c ∉ chain j

/-- File `i` got the chain `L'` of clusters that were its own, `M`, or nobody's, `N`. -/
theorem Chains.set (hc : s.Chains chain) {x y i : Nat} {ip' : Inode} {L' M N : List Nat}
    (hcache : BufferCache.Ok rootDev s'.cache) (hsb : s'.sb = s.sb.withFree x y)
    (hi : s'.files[i]? = some ip') (hj : ∀ j, j ≠ i → s'.files[j]? = s.files[j]?)
    (hL : ChainOf s'.sb s'.disk ip' L') (hd : DirentOk s.sb ip'.iIno)
    (hM : ∀ c ∈ M, i < s.files.length ∧ c ∈ chain i)
    (hN : ∀ c ∈ N, ∀ j < s.files.length, c ∉ chain j) (hsub : ∀ c ∈ L', c ∈ M ∨ c ∈ N)
    (hfat : ∀ c, DataCluster s.sb c → c ∉ M → c ∉ N →
      fatNext s.sb s'.disk c = fatNext s.sb s.disk c) :
    StepOk s s' chain := by
  have hlen : ∀ j, j ≠ i → j < s'.files.length → j < s.files.length := by
    intro j hji hjl
    obtain ⟨ip, hip⟩ : ∃ ip, s'.files[j]? = some ip := ⟨_, List.getElem?_eq_getElem hjl⟩
    rw [hj j hji] at hip
    exact (List.getElem?_eq_some_iff.1 hip).1
  have hMj : ∀ j < s.files.length, j ≠ i → M.Disjoint (chain j) := by
    intro j hjl hji c hcM hcj
    exact hc.disjoint i j (hM c hcM).1 hjl (Ne.symm hji) (hM c hcM).2 hcj
  -- the new chain avoids the others
  have hdis : ∀ j, j ≠ i → j < s'.files.length → L'.Disjoint (chain j) := by
    intro j hji hjl c hcL hcj
    rcases hsub c hcL with hcM | hcN
    · exact hMj j (hlen j hji hjl) hji hcM hcj
    · exact hN c hcN j (hlen j hji hjl) hcj
  refine ⟨Function.update chain i L', ?_, fun j hjl c hcj => ?_⟩
  rotate_left
  · by_cases hji : j = i
    · subst hji
      rw [Function.update_self] at hcj
      exact (hsub c hcj).imp (hM c) (hN c)
    · rw [Function.update_of_ne hji] at hcj
      exact .inl ⟨hlen j hji hjl, hcj⟩
  constructor
  · exact hcache
  · rw [hsb]
    exact hc.volume.withFree x y
  · intro j ip hip
    by_cases hji : j = i
    · subst hji
      rw [hi] at hip
      cases hip
      rw [Function.update_self]
      exact hL
    · rw [Function.update_of_ne hji, hsb]
      have hjl := hlen j hji (List.getElem?_eq_some_iff.1 hip).1
      rw [hj j hji] at hip
      have hch := hc.chainOf j ip hip
      apply hch.congr
      intro c hcj
      exact hfat c (hch.data hcj) (fun hcM => hMj j hjl hji hcM hcj) fun hcN => hN c hcN j hjl hcj
  · intro ip hip
    obtain ⟨j, hip⟩ := List.getElem?_of_mem hip
    rw [hsb]
    by_cases hji : j = i
    · subst hji
      rw [hi] at hip
      cases hip
      exact hd
    · rw [hj j hji] at hip
      exact hc.dirent ip (List.mem_of_getElem? hip)
  · intro j k hjl hkl hjk
    by_cases hji : j = i
    · subst hji
      rw [Function.update_self, Function.update_of_ne (Ne.symm hjk)]
      exact hdis k (Ne.symm hjk) hkl
    · rw [Function.update_of_ne hji]
      by_cases hki : k = i
      · subst hki
        rw [Function.update_self]
        exact fun c h1 h2 => hdis j hji hjl h2 h1
      · rw [Function.update_of_ne hki]
        exact hc.disjoint j k (hlen j hji hjl) (hlen k hki hkl) hjk

/-- The hints of a call are on no chain. -/
theorem HintsFree.not_mem {call : Call} (hc : s.Chains chain) (hh : s.HintsFree call) {c k : Nat}
    (hk : k ≤ s.needs call) (hm : c ∈ List.range' s.sb.nxtFree k) :
    ∀ j < s.files.length, c ∉ chain j := by
  obtain ⟨i, hi, rfl⟩ := List.mem_range'.1 hm
  rw [Nat.one_mul]
  intro j hj
  obtain ⟨ip, hip⟩ : ∃ ip, s.files[j]? = some ip := ⟨_, List.getElem?_eq_getElem hj⟩
  exact (hh i (by omega)).2 ip (List.mem_of_getElem? hip) _ (hc.chainOf j ip hip)

theorem write_step {i : Nat} {src : List (BitVec 8)} {off n : BitVec 32} (hc : s.Chains chain)
    (hh : s.HintsFree (.write i src off n)) (hs : s.step (.write i src off n) = some s') :
    StepOk s s' chain := by
  unfold step at hs
  cases hip : s.files[i]? with
  | none => simp [hip] at hs
  | some ip =>
    simp only [hip] at hs
    split at hs
    next tot sb' ip' cache' he =>
      cases hs
      have hil := (List.getElem?_eq_some_iff.1 hip).1
      obtain ⟨hr, hok, -, -⟩ := (BufferCache.refines_disk rootDev).sound hc.cache he
      have hneeds : s.needs (.write i src off n) = if writeAccepts s.sb ip off.toNat n.toNat then
          writeNeeds s.sb ip off.toNat n.toNat else 0 := by
        simp only [needs, hip]
      have hk : HintsOk s.sb s.disk s.sb.nxtFree (if writeAccepts s.sb ip off.toNat n.toNat then
          writeNeeds s.sb ip off.toNat n.toNat else 0) (chain i) := by
        rw [← hneeds]
        exact fun j hj => ⟨(hh j hj).1,
          (hh j hj).2 ip (List.mem_of_getElem? hip) _ (hc.chainOf i ip hip)⟩
      obtain ⟨k, L', hk₁, hg⟩ := inodeWrite_grew hc.volume (hc.chainOf i ip hip)
        (hc.dirent ip (List.mem_of_getElem? hip)) off.isLt hk hr
      rw [← hneeds] at hk₁
      have hN : ∀ c ∈ List.range' s.sb.nxtFree k, ∀ j < s.files.length, c ∉ chain j :=
        fun c hcm => hh.not_mem hc hk₁ hcm
      refine hc.set hok hg.super (List.getElem?_set_self hil) (fun j hji => ?_) hg.chainOf ?_
        (fun c hcM => ⟨hil, hcM⟩) hN hg.sub hg.fat
      · exact List.getElem?_set_ne (Ne.symm hji)
      · have := hc.dirent ip (List.mem_of_getElem? hip)
        rwa [← hg.ino] at this
    next => cases hs

theorem fcbInit_step {fuel attr : Nat} {parent ip : Inode} {longName : CStr}
    {fileName fileExt : List (BitVec 8)} (hc : s.Chains chain)
    (hh : s.HintsFree (.fcbInit fuel parent longName attr fileName fileExt ip))
    (hs : s.step (.fcbInit fuel parent longName attr fileName fileExt ip) = some s') :
    StepOk s s' chain := by
  unfold step at hs
  dsimp only at hs
  split at hs
  next hd =>
    split at hs
    next cnt fcb sb' cache' he =>
      cases hs
      obtain ⟨hr, hok, -, -⟩ := (BufferCache.refines_disk rootDev).sound hc.cache he
      rcases fcbInit_spec hr with ⟨hdot, rfl, hdisk⟩ | ⟨hdot, firstC, dirName, ha, hf⟩
      · rw [if_pos hdot]
        have hdisk : cache'.disk = s.disk := hdisk
        refine ⟨chain, ⟨hok, hc.volume, fun i ip hip => ?_, hc.dirent, hc.disjoint⟩,
          fun i hi c hci => .inl ⟨hi, hci⟩⟩
        show ChainOf s.sb cache'.disk ip (chain i)
        rw [hdisk]
        exact hc.chainOf i ip hip
      · rw [if_neg hdot]
        have hneeds : s.needs (.fcbInit fuel parent longName attr fileName fileExt ip) = 1 :=
          if_neg hdot
        have hh₁ : Hint s.sb s.disk s.sb.nxtFree := (hh 0 (by omega)).1
        obtain ⟨hr₁, hch, he₁⟩ := clusterAlloc_hit hc.volume hh₁ ha
        obtain ⟨rfl, rfl⟩ := Prod.mk.inj hr₁
        have hlt : s.sb.nxtFree < 2 ^ 32 := by
          have h1 := hc.volume.clusters
          have h2 := hh₁.lt
          omega
        have hstart := newFcb_firstClus hlt hf
        have hN : ∀ c ∈ [s.sb.nxtFree], ∀ j < s.files.length, c ∉ chain j :=
          fun c hcm => hh.not_mem hc (k := 1) (by omega) hcm
        have hj : ∀ j, j ≠ s.files.length →
            (s.files ++ [newInode ip fcb.short])[j]? = s.files[j]? := by
          intro j hj
          by_cases hlt : j < s.files.length
          · exact List.getElem?_append_left hlt
          · have hle : s.files.length + 1 ≤ j := by omega
            rw [List.getElem?_eq_none (by simpa using hle), List.getElem?_eq_none (by omega)]
        have hL : ChainOf (s.sb.withFree (s.sb.freeCount - 1) (s.sb.nxtFree + 1)) cache'.disk
            (newInode ip fcb.short) [s.sb.nxtFree] := by
          refine chainOf_singleton (hc.volume.withFree _ _) hh₁.data hstart rfl ?_
          rw [fatNext_withFree, he₁]
          decide
        have hM : ∀ c ∈ ([] : List Nat), s.files.length < s.files.length ∧ c ∈ chain s.files.length :=
          fun c hcm => absurd hcm List.not_mem_nil
        exact hc.set hok rfl (List.getElem?_concat_length ..) hj hL hd hM hN (fun c => .inr)
          fun c hcd _ hcN => hch.fat c hcd.2 hcN
    next => cases hs
  next => cases hs

theorem step_ok {call : Call} (hc : s.Chains chain) (hh : s.HintsFree call)
    (hs : s.step call = some s') : StepOk s s' chain := by
  cases call with
  | write i src off n => exact write_step hc hh hs
  | fcbInit fuel parent longName attr fileName fileExt ip => exact fcbInit_step hc hh hs

/-- The cache after a mount, and the disk behind it. -/
theorem Mounted.cache {disk : Nat → Sector} (h : s.Mounted disk) :
    BufferCache.Ok rootDev s.cache ∧ s.disk = disk := by
  obtain ⟨sb₀, dev, fuel, root, hm⟩ := h
  obtain ⟨bpb, c₁, hb, hm⟩ := Prog.interp_bind_eq_ok.1 hm
  have hb : (BufferCache.zeroed disk).readBlock rootDev 0 = .ok (bpb, c₁) := by
    rw [readSector, Prog.get, Prog.interp_read] at hb
    obtain ⟨r, hr, hb⟩ := Res.bind_eq_ok.1 hb
    cases hb
    exact hr
  obtain ⟨hok, hd⟩ := BufferCache.ok_of_first (by decide) hb
  obtain ⟨hr, hok', -, -⟩ := (BufferCache.refines_disk rootDev).sound hok hm
  refine ⟨hok', ?_⟩
  rw [← hd]
  refine Prog.ReadsOnly.run_eq ?_ hr
  refine .bind (Prog.readsOnly_get _) fun fsinfo => .bind ?_ fun root => Prog.readsOnly_pure _
  exact .bind (readsOnly_travel _ _ _) fun r => Prog.readsOnly_pure _

/-- A call that meets the condition. -/
def GoodStep (s : Volume) (call : Call) (s' : Volume) : Prop :=
  s.HintsFree call ∧ s.step call = some s'

/-- **No cross-links.** On a volume whose files have disjoint chains at the mount, in every state
that calls reach which all find their hints free: the chains are still well formed and disjoint, and
a cluster that the next such call puts on a chain is on no chain. -/
theorem chains_disjoint {disk : Nat → Sector} {s₀ : Volume} {chain₀ : Nat → List Nat}
    {calls : List Call} (hm : s₀.Mounted disk) (hv : VolumeOk s₀.sb)
    (hc : ∀ i ip, s₀.files[i]? = some ip → ChainOf s₀.sb disk ip (chain₀ i))
    (hd : ∀ ip ∈ s₀.files, DirentOk s₀.sb ip.iIno)
    (hdis : ∀ i j, i < s₀.files.length → j < s₀.files.length → i ≠ j →
      (chain₀ i).Disjoint (chain₀ j))
    (hrun : Run GoodStep s₀ calls s) :
    ∃ chain, s.Chains chain ∧ ∀ call s', GoodStep s call s' → StepOk s s' chain := by
  have h : ∃ chain, s.Chains chain := by
    refine hrun.invariant (I := fun s => ∃ chain, s.Chains chain) ?_ ?_
    · obtain ⟨hok, hdisk⟩ := hm.cache
      exact ⟨chain₀, hok, hv, by rwa [hdisk], hd, hdis⟩
    · intro s call s' ⟨chain, hch⟩ hg
      obtain ⟨chain', hch', -⟩ := step_ok hch hg.1 hg.2
      exact ⟨chain', hch'⟩
  obtain ⟨chain, hch⟩ := h
  exact ⟨chain, hch, fun call s' hg => step_ok hch hg.1 hg.2⟩

/-! ### A small volume -/

/-- One sector per cluster, ten clusters; the FAT is sector 8. -/
def smallBoot : Sector :=
  let d := storeNat (fun _ => 0) 11 2 512
  let d := storeNat d 13 1 1
  let d := storeNat d 14 2 8
  let d := storeNat d 16 1 1
  let d := storeNat d 32 4 19
  let d := storeNat d 36 4 1
  storeNat d 44 4 2

/-- Clusters 2, 3 and 4 are the only ones of their chains. -/
def smallFat : Sector := setDword (setDword (setDword (fun _ => 0) 8 eoc) 12 eoc) 16 eoc

/-- The disk with `Free_Count` 5 and `Nxt_Free` as given. -/
def smallDisk (nxtFree : Nat) (b : Nat) : Sector :=
  if b = 0 then smallBoot
  else if b = sectorFsinfo then setDword (setDword (fun _ => 0) 488 5) 492 nxtFree
  else if b = 8 then smallFat
  else fun _ => 0

/-- A file of one full cluster. -/
def smallFile (ino first : Nat) : Inode :=
  { iDev := ⟨rootDev, rfl⟩, iIno := ino, iMode := 0, iSize := 512, iType := .file, attr := 0x20
    dirLstAccDate := 0, dirWrtTime := 0, dirWrtDate := 0
    clusterStart := first, clusterEnd := first, clusterCnt := 1 }

/-- The superblock that the mount of the disk makes. -/
def smallSb (freeCount nxtFree : Nat) : Superblock :=
  { sDev := ⟨rootDev, rfl⟩, sectorsPerBlock := 1, clusterSize := 512, nSectors := 19, sectorSize := 512
    fatbase := 8, nFats := 1, nSectorsFat := 1, rootClusterS := 2, freeCount, nxtFree }

/-- The volume after the mount, with two files. -/
def smallMount (nxtFree : Nat) : Option Volume :=
  match (fat32FsMount (smallSb 0 0) ⟨rootDev, rfl⟩ 3).interp (BufferCache.handler rootDev)
    (BufferCache.zeroed (smallDisk nxtFree)) with
  | .ok ((sb, _), cache) => some { cache, sb, files := [smallFile 1 3, smallFile 2 4] }
  | .error _ => none

theorem smallMount_mounted {n : Nat} (h : smallMount n = some s) :
    s.Mounted (smallDisk n) ∧ s.files = [smallFile 1 3, smallFile 2 4] := by
  unfold smallMount at h
  split at h
  next sb root cache he =>
    cases h
    exact ⟨⟨_, _, _, root, he⟩, rfl⟩
  next => cases h

theorem smallSb_volumeOk (x y : Nat) : VolumeOk (smallSb x y) :=
  have h : VolumeOk (smallSb 0 0) :=
    ⟨rfl, by decide, by decide, rfl, by decide, by decide, by decide, by decide, by decide, by decide⟩
  h.withFree x y

theorem smallSb_count (x y : Nat) : countofClusters (smallSb x y) = 10 :=
  (@countofClusters_withFree (smallSb 0 0) x y).trans (by decide)

/-- Both files have one cluster. -/
theorem small_chains {n x y : Nat} (h : smallMount n = some s) (hs : s.sb = smallSb x y)
    (hf : Iseof (fatNext s.sb (smallDisk n) 3) ∧ Iseof (fatNext s.sb (smallDisk n) 4)) :
    (∀ i ip, s.files[i]? = some ip → ChainOf s.sb (smallDisk n) ip [i + 3]) ∧
    (∀ ip ∈ s.files, DirentOk s.sb ip.iIno) ∧
    ∀ i j, i < s.files.length → j < s.files.length → i ≠ j → [i + 3].Disjoint [j + 3] := by
  have hv := smallSb_volumeOk x y
  rw [(smallMount_mounted h).2, hs]
  rw [hs] at hf
  refine ⟨fun i ip hip => ?_, ?_, fun i j _ _ hij => ?_⟩
  · match i, hip with
    | 0, hip =>
      cases hip
      exact chainOf_singleton hv ⟨by decide, by rw [smallSb_count]; decide⟩ rfl rfl hf.1
    | 1, hip =>
      cases hip
      exact chainOf_singleton hv ⟨by decide, by rw [smallSb_count]; decide⟩ rfl rfl hf.2
  · intro ip hip
    rcases List.mem_pair.1 hip with rfl | rfl
    · exact fun _ => (by decide : firstDataSector (smallSb 0 0) ≤ fatinumToSector (smallSb 0 0) 1)
    · exact fun _ => (by decide : firstDataSector (smallSb 0 0) ≤ fatinumToSector (smallSb 0 0) 2)
  · simpa using Ne.symm hij

/-- One byte behind the first file's only cluster. -/
def appendCall : Call := .write 0 [] 512 1

/-- `Nxt_Free` is a free cluster. -/
theorem chains_disjoint_append : ∃ s₀ s, s₀.Mounted (smallDisk 5) ∧ Run GoodStep s₀ [appendCall] s ∧
    ∃ chain, s.Chains chain ∧ ∀ call s', GoodStep s call s' → StepOk s s' chain := by
  have hx : ((smallMount 5).any fun s₀ =>
      decide (s₀.sb = smallSb 5 5 ∧ s₀.needs appendCall = 1 ∧
        s₀.disk (firstSectorofCluster s₀.sb 5) 0 = 0) &&
      (s₀.step appendCall).isSome) = true := by decide +kernel
  obtain ⟨s₀, hm, hx⟩ := (Option.any_eq_true _ _).1 hx
  obtain ⟨hx, hsome⟩ := Bool.and_eq_true_iff.1 hx
  obtain ⟨s, hs⟩ := Option.isSome_iff_exists.1 hsome
  obtain ⟨hsb, hneeds, hfirst⟩ := of_decide_eq_true hx
  have hv : VolumeOk s₀.sb := hsb ▸ smallSb_volumeOk 5 5
  obtain ⟨hmt, hfiles⟩ := smallMount_mounted hm
  have hf : Iseof (fatNext s₀.sb (smallDisk 5) 3) ∧ Iseof (fatNext s₀.sb (smallDisk 5) 4) := by
    rw [hsb]
    decide +kernel
  obtain ⟨hc, hd, hdis⟩ := small_chains hm hsb hf
  have hnxt : s₀.sb.nxtFree = 5 := by rw [hsb]; rfl
  have hh : s₀.HintsFree appendCall := by
    intro j hj
    obtain rfl : j = 0 := by omega
    rw [hnxt]
    refine ⟨⟨by decide, by rw [hsb, smallSb_count]; decide, hfirst⟩, fun ip hip L hL h5 => ?_⟩
    obtain ⟨i, hip⟩ := List.getElem?_of_mem hip
    have hil := (List.getElem?_eq_some_iff.1 hip).1
    rw [hmt.cache.2] at hL
    rw [hL.unique (hc i ip hip), List.mem_singleton] at h5
    rw [hfiles] at hil
    simp at hil
    omega
  have hrun : Run GoodStep s₀ [appendCall] s := .snoc .nil ⟨hh, hs⟩
  exact ⟨s₀, s, hmt, hrun, chains_disjoint hmt hv hc hd hdis hrun⟩

/-- `Nxt_Free` is the cluster of the second file: the write links it into the first file's chain. -/
theorem write_crosslinks : ∃ (disk : Nat → Sector) (s₀ s : Volume) (chain₀ : Nat → List Nat),
    s₀.Mounted disk ∧ s₀.Chains chain₀ ∧ DataCluster s₀.sb s₀.sb.nxtFree ∧
    s₀.step appendCall = some s ∧ ∃ ip ip' L L', s.files[0]? = some ip ∧ s.files[1]? = some ip' ∧
      ChainOf s.sb s.disk ip L ∧ ChainOf s.sb s.disk ip' L' ∧ ¬ L.Disjoint L' := by
  have hx : ((smallMount 4).any fun s₀ => decide (s₀.sb = smallSb 5 4) &&
      (s₀.step appendCall).any fun s => decide (s.sb = smallSb 4 5 ∧
        s.files.map (fun ip => (ip.clusterStart, ip.clusterCnt)) = [(3, 2), (4, 1)] ∧
        fatNext s.sb s.disk 3 = 4 ∧ Iseof (fatNext s.sb s.disk 4))) = true := by decide +kernel
  obtain ⟨s₀, hm, hx⟩ := (Option.any_eq_true _ _).1 hx
  obtain ⟨hsb, hx⟩ := Bool.and_eq_true_iff.1 hx
  obtain ⟨s, hs, hx⟩ := (Option.any_eq_true _ _).1 hx
  have hsb := of_decide_eq_true hsb
  obtain ⟨hsb', hfiles, h3, h4⟩ := of_decide_eq_true hx
  have hv := smallSb_volumeOk 4 5
  have hdata : ∀ c, 2 ≤ c → c ≤ 11 → DataCluster s.sb c := fun c h1 h2 =>
    ⟨h1, by rw [hsb', smallSb_count]; exact h2⟩
  obtain ⟨hmt, -⟩ := smallMount_mounted hm
  obtain ⟨hok, hdisk⟩ := hmt.cache
  have hf : Iseof (fatNext s₀.sb (smallDisk 4) 3) ∧ Iseof (fatNext s₀.sb (smallDisk 4) 4) := by
    rw [hsb]
    decide +kernel
  obtain ⟨hc, hd, hdis⟩ := small_chains hm hsb hf
  refine ⟨smallDisk 4, s₀, s, fun i => [i + 3], hmt, ⟨hok, ?_, ?_, hd, hdis⟩, ?_, hs, ?_⟩
  · rw [hsb]
    exact smallSb_volumeOk 5 4
  · rwa [hdisk]
  · rw [hsb]
    exact ⟨by decide, by rw [smallSb_count]; decide⟩
  · obtain ⟨ip, fs, hfs, h1, hfiles⟩ := List.map_eq_cons_iff.1 hfiles
    obtain ⟨ip', fs', rfl, h2, -⟩ := List.map_eq_cons_iff.1 hfiles
    obtain ⟨hs1, hcnt1⟩ := Prod.mk.inj h1
    obtain ⟨hs2, hcnt2⟩ := Prod.mk.inj h2
    have hne : ∀ c, c ≤ 11 → ¬ Iseof c := fun c hc => by omega
    refine ⟨ip, ip', [3, 4], [4], by rw [hfs]; rfl, by rw [hfs]; rfl, .inr ⟨by simp, ⟨?_, ?_⟩, hcnt1⟩,
      chainOf_singleton (hsb' ▸ hv) (hdata 4 (by decide) (by decide)) hs2 hcnt2 h4,
      fun h => h (List.mem_cons_of_mem 3 (.head _)) (.head _)⟩
    · exact ⟨hs1, hne 3 (by decide), h3, hne 4 (by decide), h4⟩
    · intro c hc
      rcases List.mem_pair.1 hc with rfl | rfl
      · exact hdata 3 (by decide) (by decide)
      · exact hdata 4 (by decide) (by decide)

end Volume

end Fs
