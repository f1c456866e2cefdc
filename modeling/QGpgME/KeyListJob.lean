import QGpgME.ChunkCursor
import QGpgME.GpgError
import QGpgME.QtString
import QGpgME.Rounds
import Mathlib.Tactic.SplitIfs

/-! QGpgMEKeyListJob: listing the keys of many patterns in chunks whose size is found out
by trying. -/
namespace QGpgME.KeyListJob
open ChunkCursor Rounds
variable {σ R Key : Type*}

/-- What GpgME++ documents of `KeyListResult`: an empty result carries no error, a result
made from an error carries that error, and merging error-free results gives an error-free
result. -/
structure ResultApi (R : Type*) where
  error : R → Error
  null : R
  ofError : Error → R
  mergeWith : R → R → R
  error_null : (error null).code = .noError
  error_ofError : ∀ e, error (ofError e) = e
  error_merge : ∀ a b, (error a).code = .noError → (error b).code = .noError →
    (error (mergeWith a b)).code = .noError

/-- A GpgME++ context during key listings. `startKeyListing` also says what the calls of
`nextKey` are going to answer; after these answers `nextKey` gives the null key and
GPG_ERR_EOF. -/
structure Context (σ R Key : Type*) where
  nullKey : Key
  startKeyListing : List QString → Bool → σ → (Error × List (Key × Error)) × σ
  endKeyListing : σ → R × σ
  cancelPendingOperation : σ → σ

/-- `do { keys.push_back(ctx->nextKey(err)); } while (!err);` -/
def nextKeys (nullKey : Key) : List (Key × Error) → List Key → List Key
  | [], keys => keys ++ [nullKey]
  | (key, err) :: answers, keys =>
    if err.asBool then keys ++ [key] else nextKeys nullKey answers (keys ++ [key])

def doListKeys (api : ResultApi R) (ctx : Context σ R Key) (pats : List QString)
    (keys : List Key) (secretOnly : Bool) (s : σ) : (R × List Key) × σ :=
  let ((err, answers), s) := ctx.startKeyListing pats secretOnly s
  if err.asBool then ((api.ofError err, keys), s)
  else
    let keys := (nextKeys ctx.nullKey answers keys).dropLast
    let (result, s) := ctx.endKeyListing s
    ((result, keys), ctx.cancelPendingOperation s)

/-- The variables at the start of a round of the loop, and the state of the engine. -/
structure Loop (σ R Key : Type*) where
  chunkSize : UInt32
  pats : List QString
  keys : List Key
  result : R
  state : σ

namespace Loop

/-- `pats.mid(0, chunkSize)` -/
def chunk (l : Loop σ R Key) : List QString := l.pats.take l.chunkSize.toNat

/-- `pats.mid(chunkSize)` -/
def rest (l : Loop σ R Key) : List QString := l.pats.drop l.chunkSize.toNat

/-- The number of patterns becomes an unsigned int. -/
def start (api : ResultApi R) (pats : List QString) (s : σ) : Loop σ R Key :=
  ⟨.ofNat pats.length, pats, [], api.null, s⟩

end Loop

/-- The body from the label `retry` on. Going back to the label starts `keys` and `result`
afresh, but keeps the patterns that are left. -/
def listChunk (api : ResultApi R) (ctx : Context σ R Key) (secretOnly : Bool) (l : Loop σ R Key) :
    Outcome ((R × List Key) × σ) (Loop σ R Key) :=
  let ((thisResult, keys), s) := doListKeys api ctx l.chunk l.keys secretOnly l.state
  if (api.error thisResult).code = .lineTooLong then
    let chunkSize := l.chunkSize / 2
    if chunkSize < 1 then .returned ((thisResult, keys), s)
    else .again ⟨chunkSize, l.pats, [], api.null, s⟩
  else if (api.error thisResult).code = .eof then .returned ((api.null, []), s)
  else
    let result := api.mergeWith l.result thisResult
    if (api.error result).code ≠ .noError then .returned ((result, keys), s)
    else if l.rest = [] then .returned ((result, keys), s)
    else .again ⟨l.chunkSize, l.rest, keys, result, s⟩

/-- `list_keys`, with at most so many rounds of its loop. The result tuple also has an audit log
and its error, both always empty. -/
def listKeys (api : ResultApi R) (ctx : Context σ R Key) (pats : List QString)
    (secretOnly : Bool) (fuel : Nat) (s : σ) : Outcome ((R × List Key) × σ) (Loop σ R Key) :=
  if pats.length < 2 then .returned (doListKeys api ctx pats [] secretOnly s)
  else rounds (listChunk api ctx secretOnly) fuel (.start api pats s)

section listing
variable {api : ResultApi R} {ctx : Context σ R Key} {secretOnly : Bool}

theorem nextKeys_append (nullKey : Key) (answers : List (Key × Error)) (keys : List Key) :
    nextKeys nullKey answers keys = keys ++ nextKeys nullKey answers [] := by
  induction answers generalizing keys with
  | nil => rfl
  | cons a answers ih =>
    simp only [nextKeys]
    split
    · rfl
    · rw [ih (keys ++ [a.1]), ih ([] ++ [a.1])]
      simp

theorem nextKeys_ne_nil (nullKey : Key) (answers : List (Key × Error)) (keys : List Key) :
    nextKeys nullKey answers keys ≠ [] := by
  induction answers generalizing keys with
  | nil => simp [nextKeys]
  | cons a answers ih =>
    simp only [nextKeys]
    split
    · simp
    · exact ih _

/-- A listing appends to the keys found before and depends on nothing else of them. -/
theorem doListKeys_append (pats : List QString) (keys : List Key) (s : σ) :
    doListKeys api ctx pats keys secretOnly s =
      (((doListKeys api ctx pats [] secretOnly s).1.1,
        keys ++ (doListKeys api ctx pats [] secretOnly s).1.2),
        (doListKeys api ctx pats [] secretOnly s).2) := by
  simp only [doListKeys]
  split_ifs
  · simp
  · rw [nextKeys_append _ _ keys, List.dropLast_append_of_ne_nil (nextKeys_ne_nil _ _ _)]

variable {l : Loop σ R Key} {keys : List Key} {r : R} {s : σ}

theorem half_lt_one {size : UInt32} : size / 2 < 1 ↔ size.toNat / 2 < 1 := by
  rw [UInt32.lt_iff_toNat_lt, UInt32.toNat_div]
  rfl

/-- A chunk that is refused is halved, and the keys found before are dropped. -/
theorem round_refused (hd : doListKeys api ctx l.chunk l.keys secretOnly l.state = ((r, keys), s))
    (hr : (api.error r).code = .lineTooLong) (h : ¬l.chunkSize.toNat / 2 < 1) :
    listChunk api ctx secretOnly l = .again ⟨l.chunkSize / 2, l.pats, [], api.null, s⟩ := by
  rw [listChunk, hd]
  simp only [hr, if_true, if_neg (half_lt_one.not.mpr h)]

/-- Behind a chunk that is answered the loop goes on with the patterns left. -/
theorem round_answered
    (hd : doListKeys api ctx l.chunk l.keys secretOnly l.state = ((r, keys), s))
    (hr : (api.error r).code = .noError) (hresult : (api.error l.result).code = .noError) :
    listChunk api ctx secretOnly l =
      if l.rest = [] then .returned ((api.mergeWith l.result r, keys), s)
      else .again ⟨l.chunkSize, l.rest, keys, api.mergeWith l.result r, s⟩ := by
  have hmerge := api.error_merge l.result r hresult hr
  rw [listChunk, hd]
  simp only [hr, hmerge, reduceCtorEq, if_false, ne_eq, not_true]

end listing

section progress
variable {l : Loop σ R Key}

/-- There are patterns left, and a chunk of them is not empty. -/
structure Loop.Ready (l : Loop σ R Key) : Prop where
  pats_ne : l.pats ≠ []
  size_pos : 0 < l.chunkSize.toNat

/-- The chunk size and the number of patterns left: neither grows, and one of them shrinks. -/
def Loop.measure (l : Loop σ R Key) : Nat := l.chunkSize.toNat + l.pats.length

theorem Loop.Ready.halve (h : l.Ready) (hhalf : ¬l.chunkSize.toNat / 2 < 1) (keys : List Key)
    (result : R) (s : σ) :
    (⟨l.chunkSize / 2, l.pats, keys, result, s⟩ : Loop σ R Key).Ready ∧
      (⟨l.chunkSize / 2, l.pats, keys, result, s⟩ : Loop σ R Key).measure < l.measure := by
  have hsize : (l.chunkSize / 2).toNat = l.chunkSize.toNat / 2 := UInt32.toNat_div _ _
  refine ⟨⟨h.pats_ne, ?_⟩, ?_⟩
  · show 0 < (l.chunkSize / 2).toNat
    omega
  · simp only [Loop.measure]
    omega

theorem Loop.Ready.advance (h : l.Ready) (hrest : l.rest ≠ []) (keys : List Key) (result : R)
    (s : σ) :
    (⟨l.chunkSize, l.rest, keys, result, s⟩ : Loop σ R Key).Ready ∧
      (⟨l.chunkSize, l.rest, keys, result, s⟩ : Loop σ R Key).measure < l.measure := by
  have hpos := h.size_pos
  have hlen := List.length_pos_iff.mpr h.pats_ne
  refine ⟨⟨hrest, hpos⟩, ?_⟩
  simp only [Loop.measure, Loop.rest, List.length_drop]
  omega

/-- What a round can do to the chunk size and the patterns left. -/
theorem round_cases (api : ResultApi R) (ctx : Context σ R Key) (secretOnly : Bool)
    (l : Loop σ R Key) :
    (∃ answer, listChunk api ctx secretOnly l = .returned answer) ∨
    ∃ keys result s,
      (¬l.chunkSize.toNat / 2 < 1 ∧
        listChunk api ctx secretOnly l = .again ⟨l.chunkSize / 2, l.pats, keys, result, s⟩) ∨
      (l.rest ≠ [] ∧
        listChunk api ctx secretOnly l = .again ⟨l.chunkSize, l.rest, keys, result, s⟩) := by
  rw [listChunk]
  generalize doListKeys api ctx l.chunk l.keys secretOnly l.state = answer
  obtain ⟨⟨thisResult, keys⟩, s⟩ := answer
  simp only
  split_ifs with htoo hhalf heof herr hrest
  · exact Or.inl ⟨_, rfl⟩
  · exact Or.inr ⟨_, _, _, Or.inl ⟨half_lt_one.not.mp hhalf, rfl⟩⟩
  · exact Or.inl ⟨_, rfl⟩
  · exact Or.inl ⟨_, rfl⟩
  · exact Or.inl ⟨_, rfl⟩
  · exact Or.inr ⟨_, _, _, Or.inr ⟨hrest, rfl⟩⟩

theorem Loop.Ready.chunk_ne (h : l.Ready) : l.chunk ≠ [] := by
  rw [Loop.chunk, Ne, List.take_eq_nil_iff]
  exact fun hnil => hnil.elim (Nat.ne_of_gt h.size_pos) h.pats_ne

/-- A loop that has patterns and chunks goes on having them, and comes to an end. -/
theorem round_ready (api : ResultApi R) (ctx : Context σ R Key) (secretOnly : Bool)
    (h : l.Ready) :
    (∃ answer, listChunk api ctx secretOnly l = .returned answer) ∨
    ∃ l', listChunk api ctx secretOnly l = .again l' ∧ l'.measure < l.measure ∧ l'.Ready ∧
      l'.pats <:+ l.pats := by
  cases round_cases api ctx secretOnly l with
  | inl hreturned => exact Or.inl hreturned
  | inr hagain =>
    obtain ⟨keys, result, s, ⟨hhalf, hround⟩ | ⟨hrest, hround⟩⟩ := hagain
    · obtain ⟨hready, hless⟩ := h.halve hhalf keys result s
      exact Or.inr ⟨_, hround, hless, hready, List.suffix_rfl⟩
    · obtain ⟨hready, hless⟩ := h.advance hrest keys result s
      exact Or.inr ⟨_, hround, hless, hready, List.drop_suffix _ _⟩

theorem toNat_ofNat_pos {n : Nat} : 0 < (UInt32.ofNat n).toNat ↔ ¬2 ^ 32 ∣ n := by
  rw [UInt32.toNat_ofNat', Nat.dvd_iff_mod_eq_zero, Nat.pos_iff_ne_zero]

theorem Loop.start_ready (api : ResultApi R) {pats : List QString} (hne : pats ≠ [])
    (hsize : ¬2 ^ 32 ∣ pats.length) (s : σ) : (Loop.start api pats s : Loop σ R Key).Ready :=
  ⟨hne, toNat_ofNat_pos.mpr hsize⟩

/-- The chunks are empty from the beginning if the number of patterns is 0 as an unsigned int. -/
theorem Loop.start_zero (api : ResultApi R) {pats : List QString} (hsize : 2 ^ 32 ∣ pats.length)
    (s : σ) : (Loop.start api pats s : Loop σ R Key).chunkSize = 0 := by
  refine UInt32.toNat_inj.mp ?_
  exact Nat.eq_zero_of_not_pos fun h => toNat_ofNat_pos.mp h hsize

theorem Loop.chunk_of_zero (h : l.chunkSize = 0) : l.chunk = [] := by
  simp [Loop.chunk, h]

theorem Loop.start_measure (api : ResultApi R) (pats : List QString) (s : σ) :
    (Loop.start api pats s : Loop σ R Key).measure < 2 * pats.length + 1 := by
  have hle : (UInt32.ofNat pats.length).toNat ≤ pats.length := by
    rw [UInt32.toNat_ofNat']
    exact Nat.mod_le _ _
  simp only [Loop.measure, Loop.start]
  omega

end progress

/-- Whether the patterns of a chunk are together within the limit of the engine. -/
def fits (len : QString → Nat) (limit : Nat) (chunk : List QString) : Bool :=
  (chunk.map len).sum ≤ limit

/-- An engine that refuses exactly the chunks beyond its limit, and otherwise lists the keys of
the patterns in order. Patterns that are empty are ignored: what it lists where there is no other
one is left open. -/
structure LineLimited (api : ResultApi R) (ctx : Context σ R Key) (secretOnly : Bool)
    (len : QString → Nat) (limit : Nat) (keysOf : QString → List Key) : Prop where
  too_long : ∀ chunk s, fits len limit chunk = false →
    (api.error (doListKeys api ctx chunk [] secretOnly s).1.1).code = .lineTooLong
  answered : ∀ chunk s, fits len limit chunk = true →
    (api.error (doListKeys api ctx chunk [] secretOnly s).1.1).code = .noError
  keys : ∀ chunk s, fits len limit chunk = true → chunk ≠ [] → (∀ p ∈ chunk, p ≠ []) →
    (doListKeys api ctx chunk [] secretOnly s).1.2 = chunk.flatMap keysOf

section limited
variable {api : ResultApi R} {ctx : Context σ R Key} {secretOnly : Bool}
  {len : QString → Nat} {limit : Nat} {keysOf : QString → List Key} {l : Loop σ R Key}

theorem round_too_long (hE : LineLimited api ctx secretOnly len limit keysOf)
    (hf : fits len limit l.chunk = false) (h : ¬l.chunkSize.toNat / 2 < 1) :
    ∃ s, listChunk api ctx secretOnly l = .again ⟨l.chunkSize / 2, l.pats, [], api.null, s⟩ := by
  refine ⟨(doListKeys api ctx l.chunk [] secretOnly l.state).2, ?_⟩
  exact round_refused (doListKeys_append _ _ _) (hE.too_long _ _ hf) h

theorem round_fits (hE : LineLimited api ctx secretOnly len limit keysOf)
    (hf : fits len limit l.chunk = true) (hres : (api.error l.result).code = .noError) :
    ∃ r s, (api.error r).code = .noError ∧
      listChunk api ctx secretOnly l =
        if l.rest = [] then
          .returned ((r, l.keys ++ (doListKeys api ctx l.chunk [] secretOnly l.state).1.2), s)
        else .again ⟨l.chunkSize, l.rest,
          l.keys ++ (doListKeys api ctx l.chunk [] secretOnly l.state).1.2, r, s⟩ := by
  have hcode := hE.answered l.chunk l.state hf
  exact ⟨_, _, api.error_merge _ _ hres hcode, round_answered (doListKeys_append _ _ _) hcode hres⟩

/-- A single pattern within the limit is never refused, so a refused chunk can be halved. -/
theorem half_pos_of_refused (hfit : ∀ p ∈ l.pats, len p ≤ limit)
    (hf : fits len limit l.chunk = false) : ¬l.chunkSize.toNat / 2 < 1 := by
  intro h
  have h1 : l.chunkSize.toNat = 0 ∨ l.chunkSize.toNat = 1 := by omega
  rw [Loop.chunk] at hf
  cases hp : l.pats with
  | nil => simp [hp, fits] at hf
  | cons p ps =>
    cases h1 with
    | inl h0 => simp [h0, fits] at hf
    | inr h1 =>
      have hle := hfit p (by simp [hp])
      simp [hp, h1, fits] at hf
      omega

/-- A point of the loop at which patterns are left and no error has been met. -/
structure Loop.Smooth (api : ResultApi R) (pats : List QString) (l : Loop σ R Key) : Prop where
  ready : l.Ready
  left : l.pats <:+ pats
  result : (api.error l.result).code = .noError

def Loop.cursor (pats : List QString) (l : Loop σ R Key) : Cursor :=
  ⟨pats.length - l.pats.length, l.chunkSize.toNat⟩

section collected
variable {pats : List QString} {before out : List Key}

theorem Loop.chunk_cursor (hleft : l.pats <:+ pats) : (l.cursor pats).chunk pats = l.chunk := by
  have hdrop : l.pats = pats.drop (pats.length - l.pats.length) := List.suffix_iff_eq_drop.mp hleft
  rw [Loop.chunk, Cursor.chunk, Loop.cursor, ← hdrop]

theorem Loop.collected_halve (hleft : l.pats <:+ pats) (hf : fits len limit l.chunk = false)
    (hhalf : ¬l.chunkSize.toNat / 2 < 1) {keys : List Key} {result : R} {s : σ}
    (h : Collected (fits len limit) pats keysOf
      ((⟨l.chunkSize / 2, l.pats, keys, result, s⟩ : Loop σ R Key).cursor pats) [] out) :
    Collected (fits len limit) pats keysOf (l.cursor pats) before out := by
  rw [← Loop.chunk_cursor hleft] at hf
  refine .of_refused hf (Nat.not_lt.mp hhalf) ?_
  rwa [Loop.cursor, UInt32.toNat_div] at h

theorem Loop.collected_last (hleft : l.pats <:+ pats) (hf : fits len limit l.chunk = true)
    (hrest : l.rest = []) : Collected (fits len limit) pats keysOf (l.cursor pats) before
      (before ++ l.chunk.flatMap keysOf) := by
  have hlen := hleft.length_le
  rw [← Loop.chunk_cursor hleft] at hf ⊢
  rw [Loop.rest, List.drop_eq_nil_iff] at hrest
  refine .of_last hf ?_
  simp only [Loop.cursor]
  omega

theorem Loop.collected_advance (hleft : l.pats <:+ pats) (hf : fits len limit l.chunk = true)
    (hrest : l.rest ≠ []) {keys : List Key} {result : R} {s : σ}
    (h : Collected (fits len limit) pats keysOf
      ((⟨l.chunkSize, l.rest, keys, result, s⟩ : Loop σ R Key).cursor pats)
      (before ++ l.chunk.flatMap keysOf) out) :
    Collected (fits len limit) pats keysOf (l.cursor pats) before out := by
  have hlen := hleft.length_le
  have hmore := List.length_pos_iff.mpr hrest
  have hdrop : l.rest.length = l.pats.length - l.chunkSize.toNat := List.length_drop
  have hpos : pats.length - l.rest.length =
      pats.length - l.pats.length + l.chunkSize.toNat := by omega
  rw [← Loop.chunk_cursor hleft] at hf h
  refine .of_accepted hf ?_ ?_
  · simp only [Loop.cursor]
    omega
  · rwa [Loop.cursor, hpos] at h

end collected

/-- From any point of the loop the keys are collected that a cursor over the patterns finds. -/
theorem rounds_keys (hE : LineLimited api ctx secretOnly len limit keysOf) {pats : List QString}
    (hne : ∀ p ∈ pats, p ≠ []) (hfit : ∀ p ∈ pats, len p ≤ limit) {fuel : Nat}
    (hfuel : l.measure < fuel) (hl : l.Smooth api pats) :
    ∃ answer : (R × List Key) × σ, rounds (listChunk api ctx secretOnly) fuel l = .returned answer ∧
      (api.error answer.1.1).code = .noError ∧
      Collected (fits len limit) pats keysOf (l.cursor pats) l.keys answer.1.2 := by
  refine returns_of_measure (I := Loop.Smooth api pats) (P := fun l (answer : (R × List Key) × σ) =>
    (api.error answer.1.1).code = .noError ∧
      Collected (fits len limit) pats keysOf (l.cursor pats) l.keys answer.1.2)
    Loop.measure (fun l hl => ?_) hfuel hl
  obtain ⟨hready, hleft, hres⟩ := hl
  cases hf : fits len limit l.chunk with
  | false =>
    have hhalf := half_pos_of_refused (fun p hp => hfit p (hleft.mem hp)) hf
    obtain ⟨s, hround⟩ := round_too_long hE hf hhalf
    obtain ⟨hready', hless⟩ := hready.halve hhalf [] api.null s
    refine Or.inr ⟨_, hround, hless, ⟨hready', hleft, api.error_null⟩, fun answer h => ?_⟩
    exact ⟨h.1, Loop.collected_halve hleft hf hhalf h.2⟩
  | true =>
    have hkeys := hE.keys l.chunk l.state hf hready.chunk_ne fun p hp =>
      hne p (hleft.mem (List.mem_of_mem_take hp))
    obtain ⟨r, s, hr, hround⟩ := round_fits hE hf hres
    rw [hkeys] at hround
    by_cases hrest : l.rest = []
    · rw [if_pos hrest] at hround
      exact Or.inl ⟨_, hround, hr, Loop.collected_last hleft hf hrest⟩
    · rw [if_neg hrest] at hround
      obtain ⟨hready', hless⟩ := hready.advance hrest (l.keys ++ l.chunk.flatMap keysOf) r s
      refine Or.inr ⟨_, hround, hless, ⟨hready', (List.drop_suffix _ _).trans hleft, hr⟩,
        fun answer h => ?_⟩
      exact ⟨h.1, Loop.collected_advance hleft hf hrest h.2⟩

/-- Empty chunks are listed for ever. -/
theorem not_returns_of_empty (hE : LineLimited api ctx secretOnly len limit keysOf)
    {pats : List QString} (hne : pats ≠ []) (hsize : 2 ^ 32 ∣ pats.length) (s : σ)
    (answer : (R × List Key) × σ) :
    ¬Returns (listChunk api ctx secretOnly) (.start api pats s) answer := by
  refine not_returns (I := fun l => l.chunkSize = 0 ∧ l.pats ≠ [] ∧
    (api.error l.result).code = .noError) (fun l hl => ?_)
    ⟨Loop.start_zero api hsize s, hne, api.error_null⟩
  obtain ⟨hzero, hpats, hres⟩ := hl
  have hf : fits len limit l.chunk = true := by simp [Loop.chunk_of_zero hzero, fits]
  have hrest : l.rest = l.pats := by simp [Loop.rest, hzero]
  obtain ⟨r, s, hr, hround⟩ := round_fits hE hf hres
  rw [if_neg (hrest ▸ hpats)] at hround
  exact ⟨_, hround, hzero, hrest ▸ hpats, hr⟩

/-- The keys of all patterns are returned, in pattern order and without an error, exactly
when the number of patterns is not 0 as an unsigned int and no chunk is refused behind a pattern
that has keys. -/
theorem listKeys_complete_iff (hE : LineLimited api ctx secretOnly len limit keysOf)
    (pats : List QString) (hsize : 2 ≤ pats.length) (hne : ∀ p ∈ pats, p ≠ [])
    (hfit : ∀ p ∈ pats, len p ≤ limit) (s : σ) :
    (∃ fuel r s', listKeys api ctx pats secretOnly fuel s =
        .returned ((r, pats.flatMap keysOf), s') ∧ (api.error r).code = .noError) ↔
    ¬2 ^ 32 ∣ pats.length ∧ UndisturbedFrom (fits len limit) (fun p => keysOf p ≠ []) pats
      ⟨0, pats.length % 2 ^ 32⟩ := by
  have hpats : pats ≠ [] := List.length_pos_iff.mp (by omega)
  have hlist : ∀ fuel, listKeys api ctx pats secretOnly fuel s =
      rounds (listChunk api ctx secretOnly) fuel (.start api pats s) := by
    intro fuel
    rw [listKeys, if_neg (by omega)]
  simp only [hlist]
  by_cases hzero : 2 ^ 32 ∣ pats.length
  · refine iff_of_false (fun h => ?_) fun h => h.1 hzero
    obtain ⟨fuel, r, s', hreturned, -⟩ := h
    exact not_returns_of_empty hE hpats hzero s _ ⟨fuel, hreturned⟩
  · rw [and_iff_right hzero]
    obtain ⟨answer, hreturned, hcode, hout⟩ := rounds_keys hE hne hfit
      (Loop.start_measure api pats s)
      ⟨Loop.start_ready api hpats hzero s, List.suffix_rfl, api.error_null⟩
    have hcursor : (Loop.start api pats s : Loop σ R Key).cursor pats =
        ⟨0, pats.length % 2 ^ 32⟩ := by
      rw [Loop.cursor, Loop.start, Nat.sub_self, UInt32.toNat_ofNat']
    rw [hcursor] at hout
    rw [← hout.complete_iff]
    constructor
    · intro h
      obtain ⟨fuel, r, s', hr, -⟩ := h
      have hsame : answer = ((r, pats.flatMap keysOf), s') :=
        Returns.unique ⟨_, hreturned⟩ ⟨_, hr⟩
      rw [hsame]
    · intro hkeys
      rw [← hkeys]
      exact ⟨_, answer.1.1, answer.2, hreturned, hcode⟩

end limited

/-- Results reduced to their error; the first error stays when results are merged. -/
def errorApi : ResultApi Error where
  error := id
  null := Error.noError
  ofError := id
  mergeWith a b := if a.asBool then a else b
  error_null := rfl
  error_ofError _ := rfl
  error_merge a b _ hb := by
    simp only [id_eq] at *
    split_ifs
    · assumption
    · exact hb

/-- An engine without state that knows one key for each pattern. -/
def limitedContext (limit : Nat) : Context Unit Error QString where
  nullKey := []
  startKeyListing pats _ _ :=
    if fits List.length limit pats then ((Error.noError, pats.map fun p => (p, Error.noError)), ())
    else ((⟨.lineTooLong⟩, []), ())
  endKeyListing _ := (Error.noError, ())
  cancelPendingOperation _ := ()

theorem nextKeys_noError (nullKey : QString) (pats : List QString) :
    nextKeys nullKey (pats.map fun p => (p, Error.noError)) [] = pats ++ [nullKey] := by
  induction pats with
  | nil => rfl
  | cons p ps ih =>
    have h0 : ¬Error.noError.asBool = true := by decide
    simp only [List.map_cons, nextKeys]
    rw [if_neg h0, nextKeys_append, ih]
    simp

theorem limitedContext_limited (limit : Nat) :
    LineLimited errorApi (limitedContext limit) false List.length limit fun p => [p] := by
  have hanswer : ∀ chunk s, fits List.length limit chunk = true →
      (doListKeys errorApi (limitedContext limit) chunk [] false s).1 = (Error.noError, chunk) := by
    intro chunk s hf
    simp only [doListKeys, limitedContext, hf, if_true, Error.asBool_noError, nextKeys_noError]
    simp
  constructor
  · intro chunk s hf
    simp only [doListKeys, limitedContext, hf]
    rfl
  · intro chunk s hf
    rw [hanswer chunk s hf]
    rfl
  · intro chunk s hf _ _
    rw [hanswer chunk s hf]
    simp

/-- Four patterns are refused together and listed in two chunks. -/
theorem listKeys_complete_two_chunks :
    (∃ fuel r s', listKeys errorApi (limitedContext 2) [['a'], ['b'], ['c'], ['d']] false fuel () =
        .returned ((r, [['a'], ['b'], ['c'], ['d']]), s') ∧
        (errorApi.error r).code = .noError) ↔
    ¬2 ^ 32 ∣ 4 ∧ UndisturbedFrom (fits List.length 2) (fun p => [p] ≠ [])
      [['a'], ['b'], ['c'], ['d']] ⟨0, 4⟩ :=
  listKeys_complete_iff (limitedContext_limited 2) [['a'], ['b'], ['c'], ['d']] (by decide)
    (by decide) (by decide) ()

/-- All four patterns together are too long, the first two are answered, the last two are
refused: the keys of the first two patterns are lost. -/
theorem listKeys_loses_first_chunk :
    let pats := [['a'], ['b'], ['c', 'c', 'c'], ['d', 'd', 'd']]
    LineLimited errorApi (limitedContext 3) false List.length 3 (fun p => [p]) ∧
      (∀ p ∈ pats, p ≠ [] ∧ p.length ≤ 3) ∧
      listKeys errorApi (limitedContext 3) pats false 5 () =
        .returned ((Error.noError, [['c', 'c', 'c'], ['d', 'd', 'd']]), ()) ∧
      ¬∃ fuel r s', listKeys errorApi (limitedContext 3) pats false fuel () =
        .returned ((r, pats.flatMap fun p => [p]), s') := by
  have hlost : listKeys errorApi (limitedContext 3)
      [['a'], ['b'], ['c', 'c', 'c'], ['d', 'd', 'd']] false 5 () =
      .returned ((Error.noError, [['c', 'c', 'c'], ['d', 'd', 'd']]), ()) := rfl
  refine ⟨limitedContext_limited 3, by decide, hlost, fun h => ?_⟩
  obtain ⟨fuel, r, s', hr⟩ := h
  have hsame := congrArg (fun answer => answer.1.2) (Returns.unique ⟨_, hlost⟩ ⟨_, hr⟩)
  have hkeys : [['c', 'c', 'c'], ['d', 'd', 'd']] =
      [['a'], ['b'], ['c', 'c', 'c'], ['d', 'd', 'd']].flatMap fun p => [p] := hsame
  exact absurd hkeys (by decide)

end QGpgME.KeyListJob
