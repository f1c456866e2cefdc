import QGpgME.KeyListJob
import Mathlib.Data.List.Infix

/-! The chunks of patterns with which `list_keys` starts its key listings. -/
namespace QGpgME.KeyListChunks
open KeyListJob Rounds
variable {σ R Key : Type*}

/-- A context that also keeps the patterns of every listing that is started. -/
def recording (ctx : Context σ R Key) : Context (σ × List (List QString)) R Key where
  nullKey := ctx.nullKey
  startKeyListing pats secretOnly w :=
    let (answer, s) := ctx.startKeyListing pats secretOnly w.1
    (answer, (s, w.2 ++ [pats]))
  endKeyListing w :=
    let (result, s) := ctx.endKeyListing w.1
    (result, (s, w.2))
  cancelPendingOperation w := (ctx.cancelPendingOperation w.1, w.2)

/-- The state of the engine in the end, or behind the rounds made so far. -/
def stateOf : Outcome ((R × List Key) × σ) (Loop σ R Key) → σ
  | .returned (_, s) => s
  | .again l => l.state

/-- The patterns of the listings that are started in at most so many rounds. -/
def chunksStarted (api : ResultApi R) (ctx : Context σ R Key) (pats : List QString)
    (secretOnly : Bool) (fuel : Nat) (s : σ) : List (List QString) :=
  (stateOf (listKeys api (recording ctx) pats secretOnly fuel (s, []))).2

/-- Empty patterns are ignored: a chunk without any other pattern lists all keys. -/
def Restricting (chunk : List QString) : Prop :=
  ∃ p ∈ chunk, p ≠ []

instance (chunk : List QString) : Decidable (Restricting chunk) :=
  inferInstanceAs (Decidable (∃ p ∈ chunk, p ≠ []))

section recorded
variable {api : ResultApi R} {ctx : Context σ R Key} {secretOnly : Bool}

theorem doListKeys_recording (pats : List QString) (keys : List Key) (s : σ)
    (log : List (List QString)) :
    doListKeys api (recording ctx) pats keys secretOnly (s, log) =
      ((doListKeys api ctx pats keys secretOnly s).1,
        ((doListKeys api ctx pats keys secretOnly s).2, log ++ [pats])) := by
  by_cases herr : (ctx.startKeyListing pats secretOnly s).1.1.asBool = true
  · simp [doListKeys, recording, herr]
  · simp [doListKeys, recording, herr]

/-- The same point of the loop with a context that keeps the patterns. -/
def record (l : Loop σ R Key) (log : List (List QString)) :
    Loop (σ × List (List QString)) R Key :=
  ⟨l.chunkSize, l.pats, l.keys, l.result, (l.state, log)⟩

def recordOutcome (log : List (List QString)) :
    Outcome ((R × List Key) × σ) (Loop σ R Key) →
      Outcome ((R × List Key) × σ × List (List QString)) (Loop (σ × List (List QString)) R Key)
  | .returned (answer, s) => .returned (answer, (s, log))
  | .again l => .again (record l log)

theorem round_record (api : ResultApi R) (ctx : Context σ R Key) (secretOnly : Bool)
    (l : Loop σ R Key) (log : List (List QString)) :
    listChunk api (recording ctx) secretOnly (record l log) =
      recordOutcome (log ++ [l.chunk]) (listChunk api ctx secretOnly l) := by
  have hchunk : (record l log).chunk = l.chunk := rfl
  have hrest : (record l log).rest = l.rest := rfl
  simp only [listChunk, hchunk, hrest]
  simp only [record, doListKeys_recording]
  split_ifs
  · rfl
  · rfl
  · rfl
  · rfl
  · rfl
  · rfl

/-- Keeping the patterns changes no answer, and those that are kept are the chunks of the points
at which the rounds begin. -/
theorem rounds_record (fuel : Nat) (l : Loop σ R Key) (log : List (List QString)) :
    rounds (listChunk api (recording ctx) secretOnly) fuel (record l log) =
      recordOutcome (log ++ (points (listChunk api ctx secretOnly) fuel l).map Loop.chunk)
        (rounds (listChunk api ctx secretOnly) fuel l) := by
  induction fuel generalizing l log with
  | zero => simp [rounds, points, recordOutcome]
  | succ fuel ih =>
    have hrecord := round_record api ctx secretOnly l log
    cases hround : listChunk api ctx secretOnly l with
    | returned answer =>
      rw [hround] at hrecord
      rw [rounds_returned hrecord, rounds_returned hround, points_returned hround]
      rfl
    | again l' =>
      rw [hround] at hrecord
      rw [rounds_again hrecord, rounds_again hround, points_again hround, ih]
      simp

theorem stateOf_recordOutcome (log : List (List QString))
    (o : Outcome ((R × List Key) × σ) (Loop σ R Key)) :
    (stateOf (recordOutcome log o)).2 = log := by
  cases o with
  | returned answer => rfl
  | again l => rfl

theorem chunksStarted_eq (pats : List QString) (fuel : Nat) (s : σ) :
    chunksStarted api ctx pats secretOnly fuel s =
      if pats.length < 2 then [pats]
      else (points (listChunk api ctx secretOnly) fuel (.start api pats s)).map Loop.chunk := by
  rw [chunksStarted, listKeys]
  by_cases hsize : pats.length < 2
  · rw [if_pos hsize, if_pos hsize, doListKeys_recording]
    rfl
  · have hstart : (Loop.start api pats (s, []) : Loop (σ × List (List QString)) R Key) =
        record (.start api pats s) [] := rfl
    rw [if_neg hsize, if_neg hsize, hstart, rounds_record, stateOf_recordOutcome]
    rfl

theorem points_ready {l : Loop σ R Key} (h : l.Ready) (fuel : Nat) :
    ∀ x ∈ points (listChunk api ctx secretOnly) fuel l, x.Ready ∧ x.pats <:+ l.pats := by
  refine forall_mem_points (I := fun x : Loop σ R Key => x.Ready ∧ x.pats <:+ l.pats)
    (fun x y hx hround => ?_) fuel ⟨h, List.suffix_rfl⟩
  cases round_ready api ctx secretOnly hx.1 with
  | inl hreturned =>
    obtain ⟨answer, hanswer⟩ := hreturned
    rw [hanswer] at hround
    cases hround
  | inr hagain =>
    obtain ⟨l', hl', -, hready, hleft⟩ := hagain
    rw [hl'] at hround
    cases hround
    exact ⟨hready, hleft.trans hx.2⟩

theorem chunksStarted_part {pats chunk : List QString} {fuel : Nat} {s : σ} (hne : pats ≠ [])
    (hsize : pats.length < 2 ∨ ¬2 ^ 32 ∣ pats.length)
    (hchunk : chunk ∈ chunksStarted api ctx pats secretOnly fuel s) :
    chunk ≠ [] ∧ chunk <:+: pats := by
  rw [chunksStarted_eq] at hchunk
  by_cases hfew : pats.length < 2
  · rw [if_pos hfew, List.mem_singleton] at hchunk
    rw [hchunk]
    exact ⟨hne, List.infix_rfl⟩
  · rw [if_neg hfew] at hchunk
    obtain ⟨l, hl, rfl⟩ := List.mem_map.mp hchunk
    have hstart : (Loop.start api pats s : Loop σ R Key).Ready :=
      Loop.start_ready api hne (hsize.resolve_left hfew) s
    obtain ⟨hready, hleft⟩ := points_ready hstart fuel l hl
    exact ⟨hready.chunk_ne, (List.take_prefix _ _).isInfix.trans hleft.isInfix⟩

end recorded

/-- An engine without keys that takes one pattern at a time. -/
def onePatternContext : Context Unit Error QString where
  nullKey := []
  startKeyListing pats _ _ :=
    if pats.length ≤ 1 then ((Error.noError, []), ()) else ((⟨.lineTooLong⟩, []), ())
  endKeyListing _ := (Error.noError, ())
  cancelPendingOperation _ := ()

section onePattern
variable {secretOnly : Bool}

theorem onePattern_refused {chunk : List QString} (h : 1 < chunk.length) (keys : List QString) :
    doListKeys errorApi onePatternContext chunk keys secretOnly () =
      ((⟨.lineTooLong⟩, keys), ()) := by
  have hlen : ¬chunk.length ≤ 1 := by omega
  simp [doListKeys, onePatternContext, hlen, errorApi, Error.asBool, Error.isCanceled]

theorem onePattern_answered {chunk : List QString} (h : chunk.length ≤ 1) (keys : List QString) :
    doListKeys errorApi onePatternContext chunk keys secretOnly () =
      ((Error.noError, keys), ()) := by
  simp [doListKeys, onePatternContext, h, nextKeys, Error.asBool_noError]

theorem take_of_mem {p : QString} {pats : List QString} {n : Nat} (hone : n = 1)
    (h : p ∈ pats.take n) : pats.take n = [p] := by
  subst hone
  cases pats with
  | nil => simp at h
  | cons q qs =>
    have heq : p = q := by simpa using h
    simp [heq]

/-- The chunks are halved down to single patterns, and then each pattern is given alone. -/
theorem points_onePattern {fuel : Nat} (l : Loop Unit Error QString) (hfuel : l.measure < fuel)
    (hready : l.Ready) (hle : l.chunkSize.toNat ≤ l.pats.length)
    (hres : (errorApi.error l.result).code = .noError) :
    ∀ p ∈ l.pats, [p] ∈
      (points (listChunk errorApi onePatternContext secretOnly) fuel l).map Loop.chunk := by
  induction fuel generalizing l with
  | zero => exact absurd hfuel (Nat.not_lt_zero _)
  | succ fuel ih =>
    intro p hp
    have hpos := hready.size_pos
    have hlen : l.chunk.length = l.chunkSize.toNat := List.length_take_of_le hle
    by_cases hhalf : l.chunkSize.toNat / 2 < 1
    · have hone : l.chunkSize.toNat = 1 := by omega
      have hd : doListKeys errorApi onePatternContext l.chunk l.keys secretOnly l.state = _ :=
        onePattern_answered (hlen.trans hone).le l.keys
      have hround := round_answered hd rfl hres
      rw [← List.take_append_drop l.chunkSize.toNat l.pats] at hp
      cases List.mem_append.mp hp with
      | inl hfirst =>
        have hchunk : l.chunk = [p] := take_of_mem hone hfirst
        rw [← hchunk]
        exact List.mem_map_of_mem (mem_points_first fuel)
      | inr hrest =>
        have hne : l.rest ≠ [] := List.ne_nil_of_mem hrest
        have hpositive := List.length_pos_iff.mpr hne
        obtain ⟨hready', hless⟩ := hready.advance hne l.keys
          (errorApi.mergeWith l.result Error.noError) ()
        rw [if_neg hne] at hround
        rw [points_again hround, List.map_cons]
        refine List.mem_cons_of_mem _ (ih _ (by omega) hready' ?_ ?_ p hrest)
        · exact hone.le.trans hpositive
        · exact errorApi.error_merge _ _ hres rfl
    · have hlong : 1 < l.chunk.length := by omega
      have hd : doListKeys errorApi onePatternContext l.chunk l.keys secretOnly l.state = _ :=
        onePattern_refused hlong l.keys
      have hround := round_refused hd rfl hhalf
      obtain ⟨hready', hless⟩ := hready.halve hhalf [] errorApi.null ()
      have hsize : (l.chunkSize / 2).toNat = l.chunkSize.toNat / 2 := UInt32.toNat_div _ _
      rw [points_again hround, List.map_cons]
      refine List.mem_cons_of_mem _ (ih _ (by omega) hready' ?_ rfl p hp)
      show (l.chunkSize / 2).toNat ≤ l.pats.length
      omega

theorem chunksStarted_onePattern (pats : List QString) (hfew : 2 ≤ pats.length)
    (hsize : ¬2 ^ 32 ∣ pats.length) :
    ∀ p ∈ pats, [p] ∈
      chunksStarted errorApi onePatternContext pats secretOnly (2 * pats.length + 1) () := by
  have hne : pats ≠ [] := List.length_pos_iff.mp (by omega)
  rw [chunksStarted_eq, if_neg (by omega)]
  refine points_onePattern _ (Loop.start_measure _ pats ()) (Loop.start_ready _ hne hsize ()) ?_ rfl
  show (UInt32.ofNat pats.length).toNat ≤ pats.length
  rw [UInt32.toNat_ofNat']
  exact Nat.mod_le _ _

end onePattern

/-- The first chunk is empty if the number of patterns is 0 as an unsigned int. -/
theorem nil_mem_chunksStarted (api : ResultApi R) (ctx : Context σ R Key) (secretOnly : Bool)
    {pats : List QString} (hfew : 2 ≤ pats.length) (hsize : 2 ^ 32 ∣ pats.length) (fuel : Nat)
    (s : σ) : [] ∈ chunksStarted api ctx pats secretOnly (fuel + 1) s := by
  rw [chunksStarted_eq, if_neg (by omega), List.mem_map]
  exact ⟨_, mem_points_first fuel, Loop.chunk_of_zero (Loop.start_zero api hsize s)⟩

theorem two_le_length {p q : QString} {pats : List QString} (hp : p ∈ pats) (hq : q ∈ pats)
    (hpq : p ≠ q) : 2 ≤ pats.length := by
  cases pats with
  | nil => cases hp
  | cons r rest =>
    cases rest with
    | nil =>
      rw [List.mem_singleton] at hp hq
      exact absurd (hp.trans hq.symm) hpq
    | cons r' rest =>
      simp only [List.length_cons]
      omega

/-- Whatever the engine answers, every listing is restricted to a pattern: this holds exactly
of the patterns without an empty one whose number, if there are several, is not 0 as an unsigned
int. -/
theorem restricting_iff (pats : List QString) (hpats : Restricting pats) :
    (∀ (σ R Key : Type) (api : ResultApi R) (ctx : Context σ R Key) (secretOnly : Bool)
      (fuel : Nat) (s : σ), ∀ chunk ∈ chunksStarted api ctx pats secretOnly fuel s,
        Restricting chunk) ↔
    (∀ p ∈ pats, p ≠ []) ∧ (pats.length < 2 ∨ ¬2 ^ 32 ∣ pats.length) := by
  obtain ⟨q, hq, hqne⟩ := hpats
  have hne : pats ≠ [] := List.ne_nil_of_mem hq
  constructor
  · intro h
    have hchunks := h Unit Error QString errorApi onePatternContext false
    have hsize : pats.length < 2 ∨ ¬2 ^ 32 ∣ pats.length := by
      by_contra hcon
      obtain ⟨hfew, hzero⟩ := not_or.mp hcon
      have hnil := nil_mem_chunksStarted errorApi onePatternContext false (Nat.not_lt.mp hfew)
        (not_not.mp hzero) 0 ()
      obtain ⟨r, hr, -⟩ := hchunks _ () [] hnil
      cases hr
    refine ⟨fun p hp hempty => ?_, hsize⟩
    have hfew : 2 ≤ pats.length := two_le_length hp hq fun heq => hqne (heq ▸ hempty)
    obtain ⟨r, hr, hrne⟩ := hchunks _ () _
      (chunksStarted_onePattern pats hfew (hsize.resolve_left (by omega)) p hp)
    rw [List.mem_singleton] at hr
    exact hrne (hr.trans hempty)
  · intro h σ R Key api ctx secretOnly fuel s chunk hchunk
    obtain ⟨hcne, hpart⟩ := chunksStarted_part hne h.2 hchunk
    obtain ⟨p, hp⟩ := List.exists_mem_of_ne_nil chunk hcne
    exact ⟨p, hp, h.1 p (hpart.mem hp)⟩

theorem restricting_iff_two_patterns :
    (∀ (σ R Key : Type) (api : ResultApi R) (ctx : Context σ R Key) (secretOnly : Bool)
      (fuel : Nat) (s : σ), ∀ chunk ∈ chunksStarted api ctx [['a'], ['b']] secretOnly fuel s,
        Restricting chunk) ↔
    (∀ p ∈ [['a'], ['b']], p ≠ []) ∧ (2 < 2 ∨ ¬2 ^ 32 ∣ 2) :=
  restricting_iff [['a'], ['b']] (by decide)

/-- The first two patterns are too long together, so all patterns are given one by one, the
empty one as well. -/
theorem lists_all_keys :
    let pats := [['a', 'a'], ['b', 'b'], []]
    let chunks := chunksStarted errorApi (limitedContext 3) pats false 5 ()
    Restricting pats ∧ chunks = [pats, [['a', 'a']], [['b', 'b']], [[]]] ∧
      ¬∀ chunk ∈ chunks, Restricting chunk := by
  have hchunks : chunksStarted errorApi (limitedContext 3) [['a', 'a'], ['b', 'b'], []] false 5 () =
      [[['a', 'a'], ['b', 'b'], []], [['a', 'a']], [['b', 'b']], [[]]] := rfl
  refine ⟨by decide, hchunks, ?_⟩
  rw [hchunks]
  decide

end QGpgME.KeyListChunks
