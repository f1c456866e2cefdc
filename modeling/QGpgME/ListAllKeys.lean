import QGpgME.MergeKeys
import Mathlib.Data.List.Nodup

/-! The listing of all keys: one listing that tells of each key whether it has a secret part, or
with an old engine two listings that are merged. -/
namespace QGpgME.ListAllKeys
open AdjacentRuns KeyListJob MergeKeys
variable {σ R Key F : Type*}

/-- `EngineInfo::Version` -/
structure Version where
  major : Nat
  minor : Nat
  patch : Nat

def Version.less (a b : Version) : Bool :=
  if a.major = b.major then
    if a.minor = b.minor then a.patch < b.patch else a.minor < b.minor
  else a.major < b.major

/-- A context with a key list mode and flags. -/
structure ModalContext (σ R Key : Type*) extends Context σ R Key where
  keyListMode : σ → UInt32
  setKeyListMode : UInt32 → σ → σ
  setFlag : QString → QString → σ → Error × σ

namespace ModalContext

def addKeyListMode (ctx : ModalContext σ R Key) (mode : UInt32) (s : σ) : σ :=
  ctx.setKeyListMode (ctx.keyListMode s ||| mode) s

/-- `do_list_keys`, where `withSecret` is `KeyListMode::WithSecret`. -/
def doListKeys (results : ResultApi R) (ctx : ModalContext σ R Key) (withSecret : UInt32) (s : σ) :
    (R × List Key) × σ :=
  let keyListMode := ctx.keyListMode s
  let s := ctx.addKeyListMode withSecret s
  let ((err, answers), s) := ctx.startKeyListing [] false s
  if err.asBool then ((results.ofError err, []), ctx.setKeyListMode keyListMode s)
  else
    let keys := (nextKeys ctx.nullKey answers []).dropLast
    let (result, s) := ctx.endKeyListing s
    let s := ctx.setKeyListMode keyListMode s
    ((result, keys), ctx.cancelPendingOperation s)

end ModalContext

section listing
variable [LinearOrder F] (api : KeyApi Key F) (withSecret : UInt32)

/-- The result, the keys and the secret keys; a flag that cannot be set is only logged. -/
def listKeys (sorting : Sorting api.fingerprint) (results : ResultApi R) (hasSecret : Key → Bool)
    (version : Version) (ctx : ModalContext σ R Key) (merge disableTrustDatabaseCheck : Bool)
    (s : σ) : Option ((R × List Key × List Key) × σ) :=
  if version.less ⟨2, 1, 0⟩ then listKeysLegacy api sorting results ctx.toContext merge s
  else
    let s := if disableTrustDatabaseCheck then
        (ctx.setFlag "no-auto-check-trustdb".toList "1".toList s).2
      else s
    let ((r, keys), s) := ctx.doListKeys results withSecret s
    let keys := sorting.sort keys
    some ((r, keys, keys.filter hasSecret), s)

/-- The key of a public listing with what a secret listing knows of it. -/
def joinSecret (sec : List Key) (key : Key) : Key :=
  match sec.find? fun k => api.fingerprint k = api.fingerprint key with
  | none => key
  | some k => api.mergeWith key k

/-- A keyring as the two kinds of engines list it: no two keys have one fingerprint, each secret
key has its public key, and the full listing tells of a key what merging its secret key tells. -/
structure Keyring (hasSecret : Key → Bool) (pub sec full : List Key) : Prop where
  nodup_pub : (pub.map api.fingerprint).Nodup
  nodup_sec : (sec.map api.fingerprint).Nodup
  sec_subset : ∀ k ∈ sec, api.fingerprint k ∈ pub.map api.fingerprint
  full_perm : full.Perm (pub.map (joinSecret api sec))
  hasSecret_iff : ∀ k ∈ full, hasSecret k = true ↔ api.fingerprint k ∈ sec.map api.fingerprint

/-- An engine that lists the public and the secret keys apart. -/
def ListsApart (ctx : Context σ R Key) (pub sec : List Key) : Prop :=
  ∀ s, (ctx.startKeyListing [] false s).1 = (.noError, pub.map fun k => (k, .noError)) ∧
    (ctx.startKeyListing [] true s).1 = (.noError, sec.map fun k => (k, .noError))

/-- An engine with the mode WithSecret, which is not 0, and which only `setKeyListMode` changes. -/
structure ListsFull (ctx : ModalContext σ R Key) (full : List Key) : Prop where
  mode_ne_zero : withSecret ≠ 0
  listing : ∀ s, ctx.keyListMode s &&& withSecret ≠ 0 →
    (ctx.startKeyListing [] false s).1 = (.noError, full.map fun k => (k, .noError))
  mode_set : ∀ mode s, ctx.keyListMode (ctx.setKeyListMode mode s) = mode
  mode_flag : ∀ name value s, ctx.keyListMode (ctx.setFlag name value s).2 = ctx.keyListMode s
  mode_cancel : ∀ s, ctx.keyListMode (ctx.cancelPendingOperation s) = ctx.keyListMode s

end listing

section keyrings
variable [LinearOrder F] {api : KeyApi Key F} {withSecret : UInt32}

theorem nextKeys_all (nullKey : Key) (keys : List Key) :
    (nextKeys nullKey (keys.map fun k => (k, .noError)) []).dropLast = keys := by
  have hnext : nextKeys nullKey (keys.map fun k => (k, .noError)) [] = keys ++ [nullKey] := by
    induction keys with
    | nil => rfl
    | cons k keys ih =>
      rw [List.map_cons, nextKeys, if_neg (by simp [Error.asBool_noError]), nextKeys_append, ih]
      rfl
  rw [hnext, List.dropLast_concat]

theorem doListKeys_apart {results : ResultApi R} {ctx : Context σ R Key} {pub sec : List Key}
    (h : ListsApart ctx pub sec) (secretOnly : Bool) (s : σ) :
    (doListKeys results ctx [] [] secretOnly s).1.2 = if secretOnly then sec else pub := by
  have hkeys : (ctx.startKeyListing [] secretOnly s).1 =
      (.noError, (if secretOnly then sec else pub).map fun k => (k, .noError)) := by
    cases secretOnly with
    | false => exact (h s).1
    | true => exact (h s).2
  simp only [doListKeys, hkeys, Error.asBool_noError, if_neg Bool.false_ne_true, nextKeys_all]

theorem mode_ne_zero (h : withSecret ≠ 0) (mode : UInt32) :
    (mode ||| withSecret) &&& withSecret ≠ 0 := by
  have hmode : (mode ||| withSecret) &&& withSecret = withSecret := by
    apply UInt32.toBitVec_inj.mp
    simp only [UInt32.toBitVec_and, UInt32.toBitVec_or]
    ext i
    simp
    grind
  rwa [hmode]

theorem doListKeys_full (results : ResultApi R) {ctx : ModalContext σ R Key} {full : List Key}
    (h : ListsFull withSecret ctx full) (s : σ) :
    (ctx.doListKeys results withSecret s).1.2 = full ∧
      ctx.keyListMode (ctx.doListKeys results withSecret s).2 = ctx.keyListMode s := by
  have hmode : ctx.keyListMode (ctx.addKeyListMode withSecret s) &&& withSecret ≠ 0 := by
    rw [ModalContext.addKeyListMode, h.mode_set]
    exact mode_ne_zero h.mode_ne_zero _
  have hkeys := h.listing _ hmode
  simp only [ModalContext.doListKeys, hkeys, Error.asBool_noError, if_neg Bool.false_ne_true,
    nextKeys_all, h.mode_cancel, h.mode_set, and_self]

theorem filter_eq_toList_find (f : Key → F) {keys : List Key} (h : (keys.map f).Nodup) (b : F) :
    keys.filter (fun k => f k = b) = (keys.find? fun k => f k = b).toList := by
  induction keys with
  | nil => rfl
  | cons k keys ih =>
    obtain ⟨hk, hkeys⟩ := List.nodup_cons.mp h
    by_cases hb : f k = b
    · have hnone : keys.filter (fun x => f x = b) = [] := by
        rw [List.filter_eq_nil_iff]
        intro x hx he
        have hxb : f x = b := by simpa using he
        exact hk (List.mem_map.mpr ⟨x, hx, hxb.trans hb.symm⟩)
      rw [List.filter_cons_of_pos (by simpa using hb), hnone,
        List.find?_cons_of_pos (by simpa using hb)]
      rfl
    · rw [List.filter_cons_of_neg (by simpa using hb), ih hkeys,
        List.find?_cons_of_neg (by simpa using hb)]

theorem find_of_perm (f : Key → F) {l m : List Key} (h : (l.map f).Nodup) (hp : m.Perm l)
    (b : F) : (m.find? fun k => f k = b) = l.find? fun k => f k = b := by
  have hm : (m.map f).Nodup := (hp.map f).nodup_iff.mpr h
  have hfilter := hp.filter fun k => f k = b
  rw [filter_eq_toList_find f h, filter_eq_toList_find f hm] at hfilter
  cases hl : l.find? fun k => f k = b with
  | none =>
    rw [hl] at hfilter
    simpa using hfilter
  | some k =>
    rw [hl] at hfilter
    have hone := List.perm_singleton.mp hfilter
    simpa using hone

theorem fingerprint_joinSecret (sec : List Key) (key : Key) :
    api.fingerprint (joinSecret api sec key) = api.fingerprint key := by
  unfold joinSecret
  split
  · rfl
  · exact api.fingerprint_mergeWith _ _

/-- What merging makes of the keys of one fingerprint. -/
theorem joined_eq_joinSecret {pub sec : List Key} (hpub : (pub.map api.fingerprint).Nodup)
    (hsec : (sec.map api.fingerprint).Nodup) {p : Key} (hp : p ∈ pub) :
    joined api.mergeWith (pub.filter (fun k => api.fingerprint k = api.fingerprint p) ++
      sec.filter fun k => api.fingerprint k = api.fingerprint p) = some (joinSecret api sec p) := by
  have hfind : (pub.find? fun k => api.fingerprint k = api.fingerprint p) = some p := by
    cases hf : pub.find? fun k => api.fingerprint k = api.fingerprint p with
    | none =>
      have hno := List.find?_eq_none.mp hf p hp
      simp at hno
    | some k =>
      have hk := List.mem_of_find?_eq_some hf
      have he : api.fingerprint k = api.fingerprint p := by simpa using List.find?_some hf
      rw [List.inj_on_of_nodup_map hpub hk hp he]
  rw [filter_eq_toList_find _ hpub, filter_eq_toList_find _ hsec, hfind]
  unfold joinSecret
  cases sec.find? fun k => api.fingerprint k = api.fingerprint p with
  | none => rfl
  | some k => rfl

theorem eq_of_increasing {l m : List Key} (f : Key → F) (hl : (l.map f).Pairwise (· < ·))
    (hm : (m.map f).Pairwise (· < ·)) (h : l.Perm m) : l = m := by
  rw [List.pairwise_map] at hl hm
  exact h.eq_of_pairwise (fun a b _ _ hab hba => absurd (hab.trans hba) (lt_irrefl _)) hl hm

/-- A sorted list without two keys of one fingerprint. -/
theorem sort_increasing (sorting : Sorting api.fingerprint) {keys : List Key}
    (h : (keys.map api.fingerprint).Nodup) :
    ((sorting.sort keys).map api.fingerprint).Pairwise (· < ·) := by
  have hn : ((sorting.sort keys).map api.fingerprint).Nodup :=
    ((sorting.perm_sort keys).map _).nodup_iff.mpr h
  have hs := sorting.sorted_sort keys
  rw [List.Nodup, List.pairwise_map] at hn
  rw [List.pairwise_map]
  exact hs.imp₂ (fun a b hle hne => lt_of_le_of_ne hle hne) hn

section agreement
variable {hasSecret : Key → Bool} {pub sec full : List Key}

theorem Keyring.map_full (h : Keyring api hasSecret pub sec full) :
    (full.map api.fingerprint).Perm (pub.map api.fingerprint) := by
  have hp := h.full_perm.map api.fingerprint
  have hsame : api.fingerprint ∘ joinSecret api sec = api.fingerprint :=
    funext fun k => fingerprint_joinSecret sec k
  rwa [List.map_map, hsame] at hp

theorem Keyring.nodup_full (h : Keyring api hasSecret pub sec full) :
    (full.map api.fingerprint).Nodup :=
  h.map_full.nodup_iff.mpr h.nodup_pub

/-- What a merge of the two listings collapses to are the keys of the full listing. -/
theorem Keyring.collapse_perm (h : Keyring api hasSecret pub sec full)
    {pub' sec' merged : List Key} (hpub : pub'.Perm pub) (hsec : sec'.Perm sec)
    (hsorted : SortedBy api.fingerprint merged)
    (hmerged : ∀ k, k ∈ merged ↔ k ∈ pub' ∨ k ∈ sec')
    (hfilter : ∀ b, merged.filter (fun k => api.fingerprint k = b) =
      pub'.filter (fun k => api.fingerprint k = b) ++
        sec'.filter fun k => api.fingerprint k = b) :
    (collapse (SameKey api.fingerprint) api.mergeWith merged).Perm full := by
  have hnpub : (pub'.map api.fingerprint).Nodup := (hpub.map _).nodup_iff.mpr h.nodup_pub
  have hnsec : (sec'.map api.fingerprint).Nodup := (hsec.map _).nodup_iff.mpr h.nodup_sec
  obtain ⟨hlt, hmem, hjoined⟩ := collapse_sorted api.fingerprint_mergeWith hsorted
  have hkey : ∀ p ∈ pub', ∀ k ∈ collapse (SameKey api.fingerprint) api.mergeWith merged,
      api.fingerprint k = api.fingerprint p → k = joinSecret api sec p := by
    intro p hp k hk he
    have hj := hjoined k hk
    rw [hfilter, he, joined_eq_joinSecret hnpub hnsec hp, joinSecret,
      find_of_perm _ h.nodup_sec hsec] at hj
    exact (Option.some.inj hj).symm
  have hdistinct := hlt.imp fun hab => ne_of_lt hab
  rw [List.perm_ext_iff_of_nodup (List.Nodup.of_map _ hdistinct) (List.Nodup.of_map _ h.nodup_full)]
  intro k
  rw [h.full_perm.mem_iff, List.mem_map]
  constructor
  · intro hk
    have hf := (hmem _).mp (List.mem_map_of_mem hk)
    obtain ⟨x, hx, hxk⟩ := List.mem_map.mp hf
    obtain ⟨p, hp, he⟩ : ∃ p ∈ pub', api.fingerprint p = api.fingerprint k := by
      cases (hmerged x).mp hx with
      | inl hx => exact ⟨x, hx, hxk⟩
      | inr hx =>
        obtain ⟨p, hp, hpx⟩ := List.mem_map.mp (h.sec_subset x (hsec.mem_iff.mp hx))
        exact ⟨p, hpub.mem_iff.mpr hp, hpx.trans hxk⟩
    exact ⟨p, hpub.mem_iff.mp hp, (hkey p hp k hk he.symm).symm⟩
  · rintro ⟨p, hp, rfl⟩
    have hp' := hpub.mem_iff.mpr hp
    have hf : api.fingerprint p ∈ merged.map api.fingerprint :=
      List.mem_map_of_mem ((hmerged p).mpr (Or.inl hp'))
    obtain ⟨k, hk, he⟩ := List.mem_map.mp ((hmem _).mpr hf)
    rwa [← hkey p hp' k hk he]

/-- The sorted keys of the full listing are the merged keys of the two others. -/
theorem Keyring.mergeKeys_sort (h : Keyring api hasSecret pub sec full)
    (sorting sorting' : Sorting api.fingerprint) :
    mergeKeys api [] (sorting.sort pub) (sorting.sort sec) = some (sorting'.sort full) := by
  have hspub := sorting.sorted_sort pub
  have hsorted := sortedBy_merge hspub (sorting.sorted_sort sec)
  have hlt := (collapse_sorted api.fingerprint_mergeWith hsorted).1
  have hperm := h.collapse_perm (sorting.perm_sort pub) (sorting.perm_sort sec) hsorted
    (fun k => List.mem_merge) (filter_merge hspub _)
  rw [mergeKeys_eq]
  exact congrArg some (eq_of_increasing api.fingerprint hlt (sort_increasing sorting' h.nodup_full)
    (hperm.trans (sorting'.perm_sort full).symm))

/-- The keys that the full listing marks are those of the secret listing. -/
theorem Keyring.map_secret (h : Keyring api hasSecret pub sec full)
    (sorting sorting' : Sorting api.fingerprint) :
    (sorting.sort sec).map api.fingerprint =
      ((sorting'.sort full).filter hasSecret).map api.fingerprint := by
  have hlt := sort_increasing sorting h.nodup_sec
  have hlt' : (((sorting'.sort full).filter hasSecret).map api.fingerprint).Pairwise (· < ·) :=
    (sort_increasing sorting' h.nodup_full).sublist (List.filter_sublist.map _)
  refine List.Perm.eq_of_pairwise (fun a b _ _ hab hba => absurd (hab.trans hba) (lt_irrefl _))
    hlt hlt' ?_
  rw [List.perm_ext_iff_of_nodup (hlt.imp fun hab => ne_of_lt hab)
    (hlt'.imp fun hab => ne_of_lt hab)]
  intro b
  rw [((sorting.perm_sort sec).map _).mem_iff]
  simp only [List.mem_map, List.mem_filter, (sorting'.perm_sort full).mem_iff]
  constructor
  · rintro ⟨k, hk, rfl⟩
    have hf := h.map_full.mem_iff.mpr (h.sec_subset k hk)
    obtain ⟨x, hx, he⟩ := List.mem_map.mp hf
    have hmark := (h.hasSecret_iff x hx).mpr (he ▸ List.mem_map_of_mem hk)
    exact ⟨x, ⟨hx, hmark⟩, he⟩
  · rintro ⟨x, ⟨hx, hmark⟩, rfl⟩
    exact List.mem_map.mp ((h.hasSecret_iff x hx).mp hmark)

/-- Both ways to list the keys give the same keys in the same order, and mark the same ones as
secret; the new one leaves the key list mode as it was. -/
theorem listKeys_agree (h : Keyring api hasSecret pub sec full) {old new : ModalContext σ R Key}
    (hold : ListsApart old.toContext pub sec) (hnew : ListsFull withSecret new full)
    (sorting sorting' : Sorting api.fingerprint) (results : ResultApi R)
    {version version' : Version} (hv : version.less ⟨2, 1, 0⟩ = true)
    (hv' : version'.less ⟨2, 1, 0⟩ = false)
    (merge trust trust' : Bool) (s t : σ) :
    ∃ r r' keys secret secret' s' t',
      listKeys api withSecret sorting results hasSecret version old true trust s =
        some ((r, keys, secret), s') ∧
      listKeys api withSecret sorting' results hasSecret version' new merge trust' t =
        some ((r', keys, secret'), t') ∧
      secret.map api.fingerprint = secret'.map api.fingerprint ∧
      new.keyListMode t' = new.keyListMode t := by
  have hpub : (doListKeys results old.toContext [] [] false s).1.2 = pub :=
    doListKeys_apart hold false s
  have hsec (u : σ) : (doListKeys results old.toContext [] [] true u).1.2 = sec :=
    doListKeys_apart hold true u
  have hfull := doListKeys_full results hnew
  simp only [listKeys, hv, hv', if_true, if_neg Bool.false_ne_true, listKeysLegacy, hpub, hsec,
    h.mergeKeys_sort sorting sorting', Option.map_some, (hfull _).1]
  refine ⟨_, _, _, _, _, _, _, rfl, rfl, h.map_secret sorting sorting', ?_⟩
  rw [(hfull _).2]
  cases trust' with
  | false => rfl
  | true => exact hnew.mode_flag _ _ t

end agreement

/-- Keys of a number for a fingerprint and whether they are secret. -/
def markedKeys : KeyApi (Nat × Bool) Nat where
  fingerprint := Prod.fst
  mergeWith a b := (a.1, a.2 || b.2)
  fingerprint_mergeWith _ _ := rfl

def mergeSorting : Sorting markedKeys.fingerprint where
  sort keys := keys.mergeSort fun a b => decide (a.1 ≤ b.1)
  perm_sort keys := List.mergeSort_perm keys _
  sorted_sort keys := by
    have hs := @List.pairwise_mergeSort _ (fun a b : Nat × Bool => decide (a.1 ≤ b.1))
      (fun a b c hab hbc => by simp at *; omega) (fun a b => by simp; omega) keys
    exact hs.imp fun hab => of_decide_eq_true hab

/-- An engine whose state is its mode, where 16 is the mode WithSecret, with two keys, one of them
secret. -/
def twoKeys : ModalContext UInt32 Error (Nat × Bool) where
  nullKey := (0, false)
  startKeyListing _ secretOnly mode :=
    if secretOnly then ((.noError, [((1, true), .noError)]), mode)
    else if mode &&& 16 = 0 then
      ((.noError, [((2, false), .noError), ((1, false), .noError)]), mode)
    else ((.noError, [((1, true), .noError), ((2, false), .noError)]), mode)
  endKeyListing mode := (.noError, mode)
  cancelPendingOperation mode := mode
  keyListMode mode := mode
  setKeyListMode mode _ := mode
  setFlag _ _ mode := (.noError, mode)

/-- The same keys without the mode. -/
def twoKeysApart : ModalContext UInt32 Error (Nat × Bool) :=
  { twoKeys with startKeyListing := fun _ secretOnly mode =>
      ((.noError, if secretOnly then [((1, true), .noError)]
        else [((2, false), .noError), ((1, false), .noError)]), mode) }

theorem listKeys_agree_twoKeys : ∃ r r' keys secret secret' s' t',
    listKeys markedKeys 16 mergeSorting errorApi Prod.snd ⟨2, 0, 30⟩ twoKeysApart true false 1 =
      some ((r, keys, secret), s') ∧
    listKeys markedKeys 16 mergeSorting errorApi Prod.snd ⟨2, 4, 0⟩ twoKeys false true 1 =
      some ((r', keys, secret'), t') ∧
    secret.map Prod.fst = secret'.map Prod.fst ∧ t' = 1 := by
  have hring : Keyring markedKeys Prod.snd [(2, false), (1, false)] [(1, true)]
      [(1, true), (2, false)] :=
    ⟨by decide, by decide, by decide, List.Perm.swap _ _ _, by decide⟩
  have hold : ListsApart twoKeysApart.toContext [(2, false), (1, false)] [(1, true)] :=
    fun _ => ⟨rfl, rfl⟩
  have hnew : ListsFull 16 twoKeys [(1, true), (2, false)] :=
    ⟨by decide, fun s hs => by
      have hmode : s &&& 16 ≠ 0 := hs
      simp [twoKeys, hmode], fun _ _ => rfl, fun _ _ _ => rfl, fun _ => rfl⟩
  exact listKeys_agree hring hold hnew mergeSorting mergeSorting errorApi rfl rfl false false true
    1 1

end keyrings
end QGpgME.ListAllKeys
