import QGpgME.AdjacentRuns
import QGpgME.KeyListJob

/-! The listing of all keys with an old engine in QGpgMEListAllKeysJob, which merges the public
and the secret keys. -/
namespace QGpgME.MergeKeys
open AdjacentRuns KeyListJob
variable {σ R Key F : Type*}

/-- What is known of a key: its fingerprint as far as `ByFingerprint` compares it, and that
merging another key into it keeps this. -/
structure KeyApi (Key F : Type*) where
  fingerprint : Key → F
  mergeWith : Key → Key → Key
  fingerprint_mergeWith : ∀ a b, fingerprint (mergeWith a b) = fingerprint a

/-- `std::adjacent_find`, as an index, which is that of the end if nothing is found. -/
def adjacentFind (pred : Key → Key → Bool) : List Key → Nat
  | [] => 0
  | [_] => 1
  | x :: y :: keys => if pred x y then 0 else adjacentFind pred (y :: keys) + 1

/-- The loop of `unique_by_merge`, by the number of keys from `first` to the end. It is none
where an iterator does not point to a key. -/
def mergeLoop (pred : Key → Key → Bool) (mergeWith : Key → Key → Key) (dest first : Nat) :
    Nat → List Key → Option (List Key × Nat)
  | 0, keys => some (keys, dest + 1)
  | n + 1, keys =>
    (getElem? keys dest).bind fun target => (getElem? keys first).bind fun source =>
      if pred target source then
        mergeLoop pred mergeWith dest (first + 1) n (keys.set dest (mergeWith target source))
      else mergeLoop pred mergeWith (dest + 1) (first + 1) n (keys.set (dest + 1) source)

/-- The keys are compacted in place; what stands behind the end that is returned is left over. -/
def uniqueByMerge (pred : Key → Key → Bool) (mergeWith : Key → Key → Key) (keys : List Key) :
    Option (List Key × Nat) :=
  let first := adjacentFind pred keys
  if first = keys.length then some (keys, keys.length)
  else
    let dest := first
    let first := first + 1
    (getElem? keys dest).bind fun target => (getElem? keys first).bind fun source =>
      mergeLoop pred mergeWith dest (first + 1) (keys.length - (first + 1))
        (keys.set dest (mergeWith target source))

section merging
variable [LinearOrder F] (api : KeyApi Key F)

/-- `ByFingerprint<std::less>` -/
def less (a b : Key) : Bool := api.fingerprint a < api.fingerprint b

/-- `ByFingerprint<std::equal_to>` -/
def equal (a b : Key) : Bool := api.fingerprint a = api.fingerprint b

/-- Of two equal keys `std::merge` takes the one of the first list first. -/
def mergeKeys (merged pub sec : List Key) : Option (List Key) :=
  let merged := merged ++ pub.merge sec fun x y => !less api y x
  (uniqueByMerge (equal api) api.mergeWith merged).map fun (keys, last) => keys.take last

/-- What `std::sort` does: the order of equal keys is not known. -/
structure Sorting (f : Key → F) where
  sort : List Key → List Key
  perm_sort : ∀ keys, (sort keys).Perm keys
  sorted_sort : ∀ keys, SortedBy f (sort keys)

/-- The result, the keys and the secret keys. No pattern is given to the engine. -/
def listKeysLegacy (sorting : Sorting api.fingerprint) (results : ResultApi R)
    (ctx : Context σ R Key) (merge : Bool) (s : σ) :
    Option ((R × List Key × List Key) × σ) :=
  let ((pubResult, pub), s) := doListKeys results ctx [] [] false s
  let r := results.mergeWith results.null pubResult
  let pub := sorting.sort pub
  let ((secResult, sec), s) := doListKeys results ctx [] [] true s
  let r := results.mergeWith r secResult
  let sec := sorting.sort sec
  let merged := if merge then mergeKeys api [] pub sec else some pub
  merged.map fun merged => ((r, merged, sec), s)

end merging

section unique

/-- The key behind `dest` is overwritten: one that is left over, or the very key at `first`. -/
theorem set_behind (done : List Key) (target source : Key) (behind rest : List Key) :
    ∃ behind', behind'.length = behind.length ∧
      (done ++ target :: (behind ++ source :: rest)).set (done.length + 1) source =
        done ++ [target] ++ source :: (behind' ++ rest) := by
  have hset : (done ++ target :: (behind ++ source :: rest)).set (done.length + 1) source =
      done ++ target :: (behind ++ source :: rest).set 0 source := by
    have hone : done.length + 1 - done.length = 0 + 1 := by omega
    rw [List.set_append_right _ _ (Nat.le_add_right _ 1), hone, List.set_cons_succ]
  rw [hset]
  cases behind with
  | nil => exact ⟨[], rfl, by simp⟩
  | cons x behind => exact ⟨behind ++ [source], by simp, by simp⟩

/-- The loop, with the keys that are done, the one at `dest`, keys that are left over and the
keys from `first` on. -/
theorem mergeLoop_eq (pred : Key → Key → Bool) (mergeWith : Key → Key → Key)
    (done : List Key) (target : Key) (behind rest : List Key) :
    ∃ behind', mergeLoop pred mergeWith done.length (done.length + 1 + behind.length) rest.length
        (done ++ target :: (behind ++ rest)) =
      some (done ++ collapseFrom pred mergeWith target rest ++ behind',
        (done ++ collapseFrom pred mergeWith target rest).length) := by
  induction rest generalizing done target behind with
  | nil => exact ⟨behind, by simp [mergeLoop, collapseFrom]⟩
  | cons source rest ih =>
    have hdest : getElem? (done ++ target :: (behind ++ source :: rest)) done.length =
        some target := by
      simp
    have hfirst : getElem? (done ++ target :: (behind ++ source :: rest))
        (done.length + 1 + behind.length) = some source := by
      have hsplit : done ++ target :: (behind ++ source :: rest) =
          done ++ target :: behind ++ source :: rest := by simp
      have hlen : done.length + 1 + behind.length = (done ++ target :: behind).length := by
        rw [List.length_append, List.length_cons]
        omega
      rw [hsplit, hlen, List.getElem?_append_right (Nat.le_refl _), Nat.sub_self]
      rfl
    rw [List.length_cons, mergeLoop, hdest, Option.bind_some, hfirst, Option.bind_some]
    cases hpred : pred target source with
    | true =>
      obtain ⟨behind', hloop⟩ := ih done (mergeWith target source) (behind ++ [source])
      have hset : (done ++ target :: (behind ++ source :: rest)).set done.length
          (mergeWith target source) =
          done ++ mergeWith target source :: (behind ++ [source] ++ rest) := by simp
      refine ⟨behind', ?_⟩
      rw [if_pos rfl, collapseFrom_cons hpred, ← hloop, hset, List.length_append]
      rfl
    | false =>
      obtain ⟨behind₁, hlen, hset⟩ := set_behind done target source behind rest
      obtain ⟨behind', hloop⟩ := ih (done ++ [target]) source behind₁
      refine ⟨behind', ?_⟩
      have hdone : done ++ target :: collapseFrom pred mergeWith source rest =
          done ++ [target] ++ collapseFrom pred mergeWith source rest := by simp
      have hindex : done.length + 1 + behind.length + 1 = done.length + 1 + 1 + behind.length := by
        omega
      rw [hlen, List.length_append, List.length_singleton] at hloop
      rw [if_neg Bool.false_ne_true, collapseFrom_cons_of_not hpred, hset, hdone, hindex]
      exact hloop

/-- Up to the first two equal neighbours the keys stay as they are. -/
theorem adjacentFind_cases (pred : Key → Key → Bool) (mergeWith : Key → Key → Key)
    (keys : List Key) :
    (adjacentFind pred keys = keys.length ∧ collapse pred mergeWith keys = keys) ∨
    ∃ done target source rest, keys = done ++ target :: source :: rest ∧
      adjacentFind pred keys = done.length ∧ pred target source = true ∧
      collapse pred mergeWith keys =
        done ++ collapseFrom pred mergeWith (mergeWith target source) rest := by
  fun_induction adjacentFind pred keys with
  | case1 => exact Or.inl ⟨rfl, rfl⟩
  | case2 x => exact Or.inl ⟨rfl, rfl⟩
  | case3 x y keys hpred =>
    exact Or.inr ⟨[], x, y, keys, rfl, rfl, hpred, collapseFrom_cons hpred keys⟩
  | case4 x y keys hpred ih =>
    have hcollapse : collapse pred mergeWith (x :: y :: keys) =
        x :: collapse pred mergeWith (y :: keys) :=
      collapseFrom_cons_of_not (by simpa using hpred) keys
    cases ih with
    | inl hnone =>
      obtain ⟨hfind, hkeep⟩ := hnone
      exact Or.inl ⟨congrArg (· + 1) hfind, by rw [hcollapse, hkeep]⟩
    | inr hsome =>
      obtain ⟨done, target, source, rest, hkeys, hfind, heq, hrest⟩ := hsome
      refine Or.inr ⟨x :: done, target, source, rest, ?_, congrArg (· + 1) hfind, heq, ?_⟩
      · rw [hkeys, List.cons_append]
      · rw [hcollapse, hrest, List.cons_append]

/-- The compaction in place leaves the collapsed keys in front of the end that it returns. -/
theorem uniqueByMerge_eq (pred : Key → Key → Bool) (mergeWith : Key → Key → Key)
    (keys : List Key) :
    ∃ behind, uniqueByMerge pred mergeWith keys =
      some (collapse pred mergeWith keys ++ behind, (collapse pred mergeWith keys).length) := by
  rw [uniqueByMerge]
  cases adjacentFind_cases pred mergeWith keys with
  | inl hnone =>
    obtain ⟨hfind, hkeep⟩ := hnone
    exact ⟨[], by rw [if_pos hfind, hkeep, List.append_nil]⟩
  | inr hsome =>
    obtain ⟨done, target, source, rest, hkeys, hfind, heq, hcollapse⟩ := hsome
    have hlen : keys.length = done.length + 1 + 1 + rest.length := by
      rw [hkeys, List.length_append, List.length_cons, List.length_cons]
      omega
    have hdest : getElem? keys done.length = some target := by simp [hkeys]
    have hfirst : getElem? keys (done.length + 1) = some source := by simp [hkeys]
    have hset : keys.set done.length (mergeWith target source) =
        done ++ mergeWith target source :: ([source] ++ rest) := by simp [hkeys]
    have hleft : keys.length - (done.length + 1 + 1) = rest.length := by omega
    obtain ⟨behind, hloop⟩ :=
      mergeLoop_eq pred mergeWith done (mergeWith target source) [source] rest
    refine ⟨behind, ?_⟩
    rw [hfind, if_neg (by omega)]
    simp only [hdest, hfirst, Option.bind_some, hset, hleft, hcollapse]
    exact hloop

end unique

section keys
variable [LinearOrder F] {api : KeyApi Key F}

theorem mergeKeys_eq (pub sec : List Key) :
    mergeKeys api [] pub sec =
      some (collapse (SameKey api.fingerprint) api.mergeWith
        (pub.merge sec fun x y => !less api y x)) := by
  obtain ⟨behind, hunique⟩ := uniqueByMerge_eq (equal api) api.mergeWith
    (pub.merge sec fun x y => !less api y x)
  rw [mergeKeys, List.nil_append, hunique, Option.map_some]
  exact congrArg some List.take_left

/-- The keys of two sorted lists are merged to one key for each fingerprint, made of all keys
that have it, the public ones first. -/
theorem mergeKeys_spec {pub sec : List Key} (hpub : SortedBy api.fingerprint pub)
    (hsec : SortedBy api.fingerprint sec) :
    ∃ keys, mergeKeys api [] pub sec = some keys ∧
      (keys.map api.fingerprint).Pairwise (· < ·) ∧
      (∀ f, f ∈ keys.map api.fingerprint ↔
        f ∈ pub.map api.fingerprint ∨ f ∈ sec.map api.fingerprint) ∧
      ∀ key ∈ keys, joined api.mergeWith
        (pub.filter (fun k => api.fingerprint k = api.fingerprint key) ++
          sec.filter fun k => api.fingerprint k = api.fingerprint key) = some key := by
  obtain ⟨hlt, hmem, hjoined⟩ :=
    collapse_sorted api.fingerprint_mergeWith (sortedBy_merge hpub hsec)
  refine ⟨_, mergeKeys_eq pub sec, hlt, fun f => (hmem f).trans ?_, fun key hkey => ?_⟩
  · simp only [List.mem_map, List.mem_merge, or_and_right, exists_or]
  · rw [← filter_merge hpub]
    exact hjoined key hkey

/-- Keys of a number for a fingerprint, with the subkeys that they have. -/
def numberedKeys : KeyApi (Nat × List Nat) Nat where
  fingerprint := Prod.fst
  mergeWith a b := (a.1, a.2 ++ b.2)
  fingerprint_mergeWith _ _ := rfl

/-- A run of three equal keys and one of two. -/
theorem mergeKeys_two_runs :
    ∃ keys, mergeKeys numberedKeys [] [(1, [1]), (1, [2]), (4, [5])] [(1, [3]), (4, [6])] =
        some keys ∧
      (keys.map Prod.fst).Pairwise (· < ·) ∧
      (∀ f, f ∈ keys.map Prod.fst ↔ f ∈ [1, 1, 4] ∨ f ∈ [1, 4]) ∧
      ∀ key ∈ keys, joined numberedKeys.mergeWith
        ([(1, [1]), (1, [2]), (4, [5])].filter (fun k => Prod.fst k = key.1) ++
          [(1, [3]), (4, [6])].filter fun k => Prod.fst k = key.1) = some key :=
  have hpub : SortedBy numberedKeys.fingerprint [(1, [1]), (1, [2]), (4, [5])] := by
    simp [SortedBy, numberedKeys]
  have hsec : SortedBy numberedKeys.fingerprint [(1, [3]), (4, [6])] := by
    simp [SortedBy, numberedKeys]
  mergeKeys_spec hpub hsec

/-- The merged keys of both listings have increasing fingerprints, whatever `std::sort` makes
of equal keys. -/
theorem listKeysLegacy_merged (sorting : Sorting api.fingerprint) (results : ResultApi R)
    (ctx : Context σ R Key) (s : σ) :
    let pub := doListKeys results ctx [] [] false s
    let sec := doListKeys results ctx [] [] true pub.2
    let r := results.mergeWith (results.mergeWith results.null pub.1.1) sec.1.1
    ∃ keys, listKeysLegacy api sorting results ctx true s =
        some ((r, keys, sorting.sort sec.1.2), sec.2) ∧
      (keys.map api.fingerprint).Pairwise (· < ·) ∧
      ∀ f, f ∈ keys.map api.fingerprint ↔
        f ∈ pub.1.2.map api.fingerprint ∨ f ∈ sec.1.2.map api.fingerprint := by
  intro pub sec r
  have hsorted := sortedBy_merge (sorting.sorted_sort pub.1.2) (sorting.sorted_sort sec.1.2)
  obtain ⟨hlt, hmem, -⟩ := collapse_sorted api.fingerprint_mergeWith hsorted
  refine ⟨_, ?_, hlt, fun f => (hmem f).trans ?_⟩
  · simp only [listKeysLegacy, if_true, mergeKeys_eq, Option.map_some]
    rfl
  · simp only [List.mem_map, List.mem_merge, or_and_right, exists_or,
      (sorting.perm_sort _).mem_iff]

end keys

end QGpgME.MergeKeys
