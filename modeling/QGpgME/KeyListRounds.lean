import QGpgME.KeyListChunks

/-! The points of the loop of `list_keys` at which a key listing is started, and the shortcut that
takes the place of the loop for fewer than two patterns. -/
namespace QGpgME.KeyListRounds
open KeyListJob KeyListChunks Rounds
variable {σ R Key : Type*}

/-- The chunk of the listing that is started is not empty, and it is taken from the front of the
patterns left, no more of them than the chunk size says. -/
structure Cut (pats : List QString) (l : Loop σ R Key) : Prop where
  chunk_ne : l.chunk ≠ []
  contiguous : l.chunk <+: l.pats
  left : l.pats <:+ pats
  length_le : l.chunk.length ≤ l.chunkSize.toNat

section loop

/-- As many rounds as the measure says are enough. -/
theorem rounds_return (api : ResultApi R) (ctx : Context σ R Key) (secretOnly : Bool)
    {l : Loop σ R Key} {fuel : Nat} (h : l.Ready) (hfuel : l.measure < fuel) :
    ∃ answer, rounds (listChunk api ctx secretOnly) fuel l = .returned answer := by
  refine (returns_of_measure (I := Loop.Ready) (P := fun _ _ => True) Loop.measure
    (fun x hx => ?_) hfuel h).imp fun _ hanswer => hanswer.1
  cases round_ready api ctx secretOnly hx with
  | inl hreturned =>
    obtain ⟨answer, hround⟩ := hreturned
    exact Or.inl ⟨answer, hround, trivial⟩
  | inr hagain =>
    obtain ⟨y, hround, hless, hready, -⟩ := hagain
    exact Or.inr ⟨y, hround, hless, hready, fun _ _ => trivial⟩

/-- However the engine answers, the program ends, and each listing that its loop starts is one
of a chunk that is not empty, cut off the front of the patterns left: this holds exactly of less
than two patterns, and of a number of patterns that is not 0 as an unsigned int. -/
theorem listKeys_terminates_iff (api : ResultApi R) (ctx : Context σ R Key) (secretOnly : Bool)
    (pats : List QString) (s : σ) :
    (∃ fuel answer, listKeys api ctx pats secretOnly fuel s = .returned answer ∧
      (2 ≤ pats.length → chunksStarted api ctx pats secretOnly fuel s =
          (points (listChunk api ctx secretOnly) fuel (.start api pats s)).map Loop.chunk ∧
        ∀ l ∈ points (listChunk api ctx secretOnly) fuel (.start api pats s), Cut pats l)) ↔
    pats.length < 2 ∨ ¬2 ^ 32 ∣ pats.length := by
  by_cases hfew : pats.length < 2
  · refine iff_of_true ⟨0, doListKeys api ctx pats [] secretOnly s, ?_, by omega⟩ (Or.inl hfew)
    rw [listKeys, if_pos hfew]
  rw [or_iff_right hfew]
  simp only [listKeys, if_neg hfew]
  constructor
  · intro h hzero
    obtain ⟨fuel, answer, hanswer, hcut⟩ := h
    cases fuel with
    | zero => cases hanswer
    | succ fuel =>
      have hfirst := (hcut (by omega)).2 _ (mem_points_first fuel)
      exact hfirst.chunk_ne (Loop.chunk_of_zero (Loop.start_zero api hzero s))
  · intro hsize
    have hready : (Loop.start api pats s : Loop σ R Key).Ready :=
      Loop.start_ready api (List.length_pos_iff.mp (by omega)) hsize s
    obtain ⟨answer, hanswer⟩ := rounds_return api ctx secretOnly hready
      (Loop.start_measure api pats s)
    refine ⟨_, answer, hanswer, fun _ => ⟨?_, fun l hl => ?_⟩⟩
    · rw [chunksStarted_eq, if_neg hfew]
    · obtain ⟨hl, hleft⟩ := points_ready hready _ l hl
      exact ⟨hl.chunk_ne, List.take_prefix _ _, hleft, List.length_take_le _ _⟩

/-- So many patterns that their number is 0 as an unsigned int: all keys are listed, for ever. -/
theorem listKeys_endless :
    let pats := List.replicate (2 ^ 32) ['a']
    (∀ fuel answer, listKeys errorApi (limitedContext 1) pats false fuel () ≠ .returned answer) ∧
      [] ∈ chunksStarted errorApi (limitedContext 1) pats false 1 () := by
  intro pats
  have hlen : pats.length = 2 ^ 32 := List.length_replicate
  have hfew : 2 ≤ pats.length := by
    rw [hlen]
    decide
  have hzero : 2 ^ 32 ∣ pats.length := ⟨1, by rw [hlen, Nat.mul_one]⟩
  refine ⟨fun fuel answer h => ?_, nil_mem_chunksStarted _ _ _ hfew hzero 0 ()⟩
  rw [listKeys, if_neg (by omega)] at h
  exact not_returns_of_empty (limitedContext_limited 1) (List.length_pos_iff.mp (by omega)) hzero ()
    answer ⟨fuel, h⟩

end loop

section shortcut
variable {api : ResultApi R} {ctx : Context σ R Key} {secretOnly : Bool} {pats : List QString}
  {s : σ}

/-- The engine refuses the key listing with GPG_ERR_EOF, or ends it with that error. -/
def EndsEarly (api : ResultApi R) (ctx : Context σ R Key) (pats : List QString)
    (secretOnly : Bool) (s : σ) : Prop :=
  let ((err, _), s) := ctx.startKeyListing pats secretOnly s
  if err.asBool then err.code = .eof else (api.error (ctx.endKeyListing s).1).code = .eof

theorem doListKeys_eof_iff (keys : List Key) :
    (api.error (doListKeys api ctx pats keys secretOnly s).1.1).code = .eof ↔
      EndsEarly api ctx pats secretOnly s := by
  simp only [doListKeys, EndsEarly]
  split_ifs
  · rw [api.error_ofError]
  · rfl

/-- A round with a chunk that can neither be halved nor followed by another one. -/
theorem round_last {l : Loop σ R Key} (hhalf : l.chunkSize.toNat / 2 < 1) (hrest : l.rest = [])
    (hmerge : ∀ r, api.mergeWith l.result r = r) :
    listChunk api ctx secretOnly l = .returned
      (if (api.error (doListKeys api ctx l.chunk l.keys secretOnly l.state).1.1).code = .eof then
        ((api.null, []), (doListKeys api ctx l.chunk l.keys secretOnly l.state).2)
      else doListKeys api ctx l.chunk l.keys secretOnly l.state) := by
  have hmin : l.chunkSize / 2 < 1 := half_lt_one.mpr hhalf
  rw [listChunk]
  generalize doListKeys api ctx l.chunk l.keys secretOnly l.state = answer
  obtain ⟨⟨thisResult, keys⟩, s⟩ := answer
  simp only [hmerge]
  split_ifs with htoo heof herr
  · rw [htoo] at heof
    cases heof
  · rfl
  · rfl
  · rfl
  · rfl

/-- The loop for fewer than two patterns makes one round. -/
theorem round_short (hsize : pats.length < 2) (hmerge : ∀ r, api.mergeWith api.null r = r) :
    listChunk api ctx secretOnly (.start api pats s) = .returned
      (if (api.error (doListKeys api ctx pats [] secretOnly s).1.1).code = .eof then
        ((api.null, []), (doListKeys api ctx pats [] secretOnly s).2)
      else doListKeys api ctx pats [] secretOnly s) := by
  have hlen : (UInt32.ofNat pats.length).toNat = pats.length := by
    rw [UInt32.toNat_ofNat']
    omega
  have hchunk : (Loop.start api pats s : Loop σ R Key).chunk = pats := by
    rw [Loop.chunk, Loop.start, hlen, List.take_length]
  have hrest : (Loop.start api pats s : Loop σ R Key).rest = [] := by
    rw [Loop.rest, Loop.start, hlen, List.drop_length]
  have hhalf : (Loop.start api pats s : Loop σ R Key).chunkSize.toNat / 2 < 1 := by
    rw [Loop.start, hlen]
    omega
  rw [round_last hhalf hrest hmerge, hchunk]
  rfl

/-- The shortcut agrees with the loop exactly where the engine does not end the listing
early, which only the loop takes for an empty result. -/
theorem shortcut_agrees_iff (api : ResultApi R) (ctx : Context σ R Key) (secretOnly : Bool)
    (hmerge : ∀ r, api.mergeWith api.null r = r) (hsize : pats.length < 2) (fuel : Nat) (s : σ) :
    ∃ short loop, listKeys api ctx pats secretOnly fuel s = .returned short ∧
      rounds (listChunk api ctx secretOnly) (fuel + 1) (.start api pats s) = .returned loop ∧
      (short.1 = loop.1 ↔ ¬EndsEarly api ctx pats secretOnly s) := by
  refine ⟨_, _, by rw [listKeys, if_pos hsize], rounds_returned (round_short hsize hmerge) fuel, ?_⟩
  rw [← doListKeys_eof_iff []]
  by_cases heof : (api.error (doListKeys api ctx pats [] secretOnly s).1.1).code = .eof
  · rw [if_pos heof]
    refine iff_of_false (fun hsame => ?_) (not_not.mpr heof)
    rw [hsame, api.error_null] at heof
    cases heof
  · rw [if_neg heof]
    exact iff_of_true rfl heof

theorem shortcut_agrees_one_pattern :
    ∃ short loop, listKeys errorApi (limitedContext 0) [['a']] false 0 () = .returned short ∧
      rounds (listChunk errorApi (limitedContext 0) false) 1 (.start errorApi [['a']] ()) =
        .returned loop ∧ short.1 = loop.1 := by
  obtain ⟨short, loop, hshort, hloop, hagree⟩ := shortcut_agrees_iff errorApi
    (limitedContext 0) false (fun _ => rfl) (by decide : [['a']].length < 2) 0 ()
  refine ⟨short, loop, hshort, hloop, hagree.mpr fun hearly => ?_⟩
  have hcode : ErrorCode.lineTooLong = .eof := hearly
  cases hcode

/-- An engine that answers a key and then the end of the listing, as an error. -/
def eofContext : Context Unit Error QString where
  nullKey := []
  startKeyListing _ _ _ := ((Error.noError, [(['k'], Error.noError)]), ())
  endKeyListing _ := (Error.fromCode .eof, ())
  cancelPendingOperation _ := ()

/-- The shortcut returns the error and the key, the loop neither of them. -/
theorem shortcut_passes_eof :
    listKeys errorApi eofContext [['a']] false 0 () =
        .returned ((Error.fromCode .eof, [['k']]), ()) ∧
      rounds (listChunk errorApi eofContext false) 1 (.start errorApi [['a']] ()) =
        .returned ((Error.noError, []), ()) :=
  ⟨rfl, rfl⟩

end shortcut

end QGpgME.KeyListRounds
