import QGpgME.KeyListJob

/-! The loop that fetches the keys of a listing one by one, which the list jobs have in three
copies, over an engine that may answer anything. -/
namespace QGpgME.KeyListLoops
variable {R Key : Type*}

/-- What the engine answers in the course of a listing; the calls of `nextKey` are numbered. -/
structure Engine (R Key : Type*) where
  keyListMode : Nat
  startKeyListing : Error
  nextKey : Nat → Key × Error
  endKeyListing : R

inductive EngineCall where
  | keyListMode
  | addWithSecret
  | setKeyListMode (mode : Nat)
  | startKeyListing (patterns : List QString) (secretOnly : Bool)
  | nextKey
  | endKeyListing
  | cancelPendingOperation
deriving DecidableEq

/-- What a listing function returns, with the calls that it has made. -/
structure Listed (R Key : Type*) where
  result : R
  keys : List Key
  calls : List EngineCall

/-- `do { keys.push_back(ctx->nextKey(err)); } while (!err);` together with the number of the
next call of `nextKey`. -/
def fetch (nextKey : Nat → Key × Error) : Nat → Nat → List Key → Option (List Key × Nat)
  | 0, _, _ => none
  | fuel + 1, called, keys =>
    let (key, err) := nextKey called
    if err.asBool then some (keys ++ [key], called + 1)
    else fetch nextKey fuel (called + 1) (keys ++ [key])

/-- The calls of a listing with its calls of `nextKey` in the middle. -/
def listingCalls (start : EngineCall) (prepare restore : List EngineCall) (called : Nat) :
    List EngineCall :=
  prepare ++ [start] ++ List.replicate called .nextKey ++ [.endKeyListing] ++ restore ++
    [.cancelPendingOperation]

section listing
variable (ofError : Error → R) (engine : Engine R Key) (fuel : Nat)

/-- The listing functions differ in the call that starts the listing, and in the calls before it
and behind the listing that have to do with its mode. -/
def listing (start : EngineCall) (prepare restore : List EngineCall) (keys : List Key) :
    Option (Listed R Key) :=
  if engine.startKeyListing.asBool then
    some ⟨ofError engine.startKeyListing, keys, prepare ++ [start] ++ restore⟩
  else (fetch engine.nextKey fuel 0 keys).map fun (fetched, called) =>
    ⟨engine.endKeyListing, fetched.dropLast, listingCalls start prepare restore called⟩

namespace QGpgMEKeyListJob

def doListKeys (pats : List QString) (keys : List Key) (secretOnly : Bool) :
    Option (Listed R Key) :=
  listing ofError engine fuel (.startKeyListing pats secretOnly) [] [] keys

end QGpgMEKeyListJob

namespace QGpgMEListAllKeysJob

def doListKeysLegacy (keys : List Key) (secretOnly : Bool) : Option (Listed R Key) :=
  listing ofError engine fuel (.startKeyListing [] secretOnly) [] [] keys

def doListKeys (keys : List Key) : Option (Listed R Key) :=
  listing ofError engine fuel (.startKeyListing [] false) [.keyListMode, .addWithSecret]
    [.setKeyListMode engine.keyListMode] keys

end QGpgMEListAllKeysJob

end listing

section loop
variable {nextKey : Nat → Key × Error} {keys : List Key}

/-- The answers without error are passed over. -/
theorem fetch_skip {n called : Nat}
    (h : ∀ i, called ≤ i → i < called + n → (nextKey i).2.asBool = false) (fuel : Nat)
    (keys : List Key) :
    fetch nextKey (n + fuel) called keys = fetch nextKey fuel (called + n)
      (keys ++ (List.range' called n).map fun i => (nextKey i).1) := by
  induction n generalizing called keys with
  | zero => simp
  | succ n ih =>
    have hnow : (nextKey called).2.asBool = false := h called (Nat.le_refl _) (by omega)
    have hlater := @ih (called + 1) (fun i hle hlt => h i (by omega) (by omega))
      (keys ++ [(nextKey called).1])
    have hfuel : n + 1 + fuel = n + fuel + 1 := by omega
    have hcalled : called + 1 + n = called + (n + 1) := by omega
    rw [hfuel, fetch]
    simp only [hnow, Bool.false_eq_true, if_false]
    rw [hlater, hcalled, List.range'_succ, List.map_cons, List.append_assoc, List.singleton_append]

/-- The call made last is the first one that is answered with a true error. -/
theorem fetch_last {fuel called : Nat} {fetched : List Key} {n : Nat}
    (h : fetch nextKey fuel called keys = some (fetched, n)) :
    ∃ last, n = last + 1 ∧ (nextKey last).2.asBool = true := by
  induction fuel generalizing called keys with
  | zero => simp [fetch] at h
  | succ fuel ih =>
    simp only [fetch] at h
    split_ifs at h with herr
    · obtain ⟨-, rfl⟩ := Prod.mk.inj (Option.some.inj h)
      exact ⟨called, rfl, herr⟩
    · exact ih h

end loop

section context
variable {σ : Type*}

/-- Answers of which the last ones are the null key and the end of the listing. -/
def answersOf (nullKey : Key) (answers : List (Key × Error)) (i : Nat) : Key × Error :=
  (getElem? answers i).getD (nullKey, Error.fromCode .eof)

/-- Over finitely many answers the loop is the one of the chunked listing. -/
theorem fetch_answers {nullKey : Key} {answers : List (Key × Error)}
    {nextKey : Nat → Key × Error} {called : Nat}
    (h : ∀ i, nextKey (called + i) = answersOf nullKey answers i) (keys : List Key) :
    ∃ n, fetch nextKey (answers.length + 1) called keys =
      some (KeyListJob.nextKeys nullKey answers keys, n) := by
  have hnow : nextKey called = answersOf nullKey answers 0 := h 0
  induction answers generalizing called keys with
  | nil =>
    refine ⟨called + 1, ?_⟩
    rw [List.length_nil, fetch, hnow]
    rfl
  | cons answer answers ih =>
    obtain ⟨key, err⟩ := answer
    have hnow' : nextKey called = (key, err) := hnow
    have hlater : ∀ i, nextKey (called + 1 + i) = answersOf nullKey answers i := by
      intro i
      have hnext : nextKey (called + (i + 1)) = answersOf nullKey answers i := h (i + 1)
      have hcalled : called + 1 + i = called + (i + 1) := by omega
      rw [hcalled, hnext]
    rw [List.length_cons, fetch, hnow', KeyListJob.nextKeys]
    cases herr : err.asBool with
    | true => exact ⟨called + 1, by simp [herr]⟩
    | false =>
      obtain ⟨n, hn⟩ := ih hlater (keys ++ [key]) (hlater 0)
      exact ⟨n, by simpa [herr] using hn⟩

/-- On a context that says at the start what it is going to answer, the listing is that of the
chunked listing. -/
theorem doListKeys_context (api : KeyListJob.ResultApi R) (ctx : KeyListJob.Context σ R Key)
    (pats : List QString) (keys : List Key) (secretOnly : Bool) (s : σ) :
    let started := ctx.startKeyListing pats secretOnly s
    let engine : Engine R Key := ⟨0, started.1.1, answersOf ctx.nullKey started.1.2,
      (ctx.endKeyListing started.2).1⟩
    (QGpgMEKeyListJob.doListKeys api.ofError engine (started.1.2.length + 1) pats keys
      secretOnly).map (fun listed => (listed.result, listed.keys)) =
        some (KeyListJob.doListKeys api ctx pats keys secretOnly s).1 := by
  intro started engine
  have hstarted : ctx.startKeyListing pats secretOnly s = ((started.1.1, started.1.2), started.2) :=
    rfl
  have hanswers : ∀ i, engine.nextKey (0 + i) = answersOf ctx.nullKey started.1.2 i := by
    intro i
    rw [Nat.zero_add]
  obtain ⟨n, hn⟩ := fetch_answers hanswers keys
  rw [QGpgMEKeyListJob.doListKeys, listing, KeyListJob.doListKeys, hstarted]
  by_cases herr : started.1.1.asBool = true
  · simp [engine, herr]
  · simp [engine, herr, hn]

end context

/-- The engine delivers keys, then the null key with an error; what it answers to further calls
is left open. -/
structure Delivers (engine : Engine R Key) (nullKey : Key) (delivered : List Key) (e : Error) :
    Prop where
  started : engine.startKeyListing.asBool = false
  delivers : ∀ i key, getElem? delivered i = some key → engine.nextKey i = (key, Error.noError)
  fails : engine.nextKey delivered.length = (nullKey, e)

/-- A listing that ends with just the keys delivered behind those that were there, and makes no
further call. -/
def Appends (list : Nat → Option (Listed R Key)) (keys delivered : List Key) : Prop :=
  ∃ fuel listed, list fuel = some listed ∧ listed.keys = keys ++ delivered ∧
    listed.calls.count .nextKey = delivered.length + 1

section delivered
variable {engine : Engine R Key} {nullKey : Key} {delivered keys : List Key} {e : Error}

theorem Delivers.map_range' (h : Delivers engine nullKey delivered e) :
    ((List.range' 0 delivered.length).map fun i => (engine.nextKey i).1) = delivered := by
  apply List.ext_getElem (by simp)
  intro i _ hi
  have hkey := h.delivers i _ (List.getElem?_eq_getElem hi)
  simp [hkey]

theorem Delivers.fetch_eq (h : Delivers engine nullKey delivered e) (he : e.asBool = true)
    (keys : List Key) :
    fetch engine.nextKey (delivered.length + 1) 0 keys =
      some (keys ++ delivered ++ [nullKey], delivered.length + 1) := by
  have hfalse : ∀ i, 0 ≤ i → i < 0 + delivered.length → (engine.nextKey i).2.asBool = false := by
    intro i _ hi
    have hkey := h.delivers i _ (List.getElem?_eq_getElem (by omega))
    rw [hkey]
    rfl
  rw [fetch_skip hfalse, h.map_range', fetch, Nat.zero_add, h.fails]
  simp only [he, if_true]

theorem count_nextKey {start : EngineCall} {prepare restore : List EngineCall}
    (hbefore : EngineCall.nextKey ∉ prepare ++ [start]) (hafter : EngineCall.nextKey ∉ restore)
    (called : Nat) : (listingCalls start prepare restore called).count .nextKey = called := by
  have hrest : EngineCall.nextKey ∉
      EngineCall.endKeyListing :: (restore ++ [.cancelPendingOperation]) := by
    simp [hafter]
  have hsplit : listingCalls start prepare restore called = (prepare ++ [start]) ++
      (List.replicate called .nextKey ++
        .endKeyListing :: (restore ++ [.cancelPendingOperation])) := by
    simp [listingCalls]
  rw [hsplit, List.count_append, List.count_eq_zero_of_not_mem hbefore, List.count_append,
    List.count_eq_zero_of_not_mem hrest, List.count_replicate_self]
  omega

/-- A listing function does what it should for all errors but a cancellation, which its loop
passes over like a key. -/
theorem listing_appends_iff (ofError : Error → R) (h : Delivers engine nullKey delivered e)
    (he : e.code ≠ .noError) {start : EngineCall} {prepare restore : List EngineCall}
    (hbefore : EngineCall.nextKey ∉ prepare ++ [start])
    (hafter : EngineCall.nextKey ∉ restore) :
    Appends (fun fuel => listing ofError engine fuel start prepare restore keys) keys delivered ↔
      e.isCanceled = false := by
  constructor
  · intro happends
    obtain ⟨fuel, listed, hlisted, -, hcalled⟩ := happends
    simp only [listing, h.started, Bool.false_eq_true, if_false] at hlisted
    obtain ⟨⟨fetched, n⟩, hfetch, rfl⟩ := Option.map_eq_some_iff.mp hlisted
    obtain ⟨last, hn, herr⟩ := fetch_last hfetch
    obtain rfl : last = delivered.length := by
      have hsame : n = delivered.length + 1 :=
        (count_nextKey hbefore hafter n).symm.trans hcalled
      omega
    rw [h.fails] at herr
    exact (Error.asBool_eq_true.mp herr).2
  · intro hcanceled
    have htrue : e.asBool = true := Error.asBool_eq_true.mpr ⟨he, hcanceled⟩
    have hlisted : listing ofError engine (delivered.length + 1) start prepare restore keys =
        some ⟨engine.endKeyListing, (keys ++ delivered ++ [nullKey]).dropLast,
          listingCalls start prepare restore (delivered.length + 1)⟩ := by
      simp only [listing, h.started, Bool.false_eq_true, if_false, h.fetch_eq htrue keys,
        Option.map_some]
    exact ⟨_, _, hlisted, List.dropLast_concat, count_nextKey hbefore hafter _⟩

/-- All three listing functions append the keys that the engine delivers, and nothing else, if
and only if the error that ends the keys is no cancellation. -/
theorem doListKeys_appends_iff (ofError : Error → R) (h : Delivers engine nullKey delivered e)
    (he : e.code ≠ .noError) (pats : List QString) (secretOnly : Bool) :
    (Appends (fun fuel => QGpgMEKeyListJob.doListKeys ofError engine fuel pats keys secretOnly)
      keys delivered ↔ e.isCanceled = false) ∧
    (Appends (fun fuel => QGpgMEListAllKeysJob.doListKeys ofError engine fuel keys)
      keys delivered ↔ e.isCanceled = false) ∧
    (Appends (fun fuel => QGpgMEListAllKeysJob.doListKeysLegacy ofError engine fuel keys
      secretOnly) keys delivered ↔ e.isCanceled = false) := by
  refine ⟨?_, ?_, ?_⟩
  · exact listing_appends_iff ofError h he (by simp) (by simp)
  · exact listing_appends_iff ofError h he (by simp) (by simp)
  · exact listing_appends_iff ofError h he (by simp) (by simp)

end delivered

section canceled

/-- Key 1, then an error with the null key 0, and then the end. -/
def sampleEngine (code : ErrorCode) : Engine Unit Nat :=
  ⟨0, Error.noError, fun
    | 0 => (1, Error.noError)
    | 1 => (0, ⟨code⟩)
    | _ => (0, ⟨.eof⟩), ()⟩

theorem sampleEngine_delivers (code : ErrorCode) :
    Delivers (sampleEngine code) 0 [1] ⟨code⟩ := by
  refine ⟨rfl, fun i key hkey => ?_, rfl⟩
  cases i with
  | zero =>
    obtain rfl : 1 = key := Option.some.inj hkey
    rfl
  | succ i => simp at hkey

theorem doListKeys_appends_eof :
    Appends (fun fuel => QGpgMEKeyListJob.doListKeys (fun _ => ()) (sampleEngine .eof) fuel [] []
      false) [] [1] :=
  (doListKeys_appends_iff (fun _ => ()) (sampleEngine_delivers .eof) (by decide) [] false).1.mpr rfl

/-- A canceled listing leaves the null key behind, in each of the three functions. -/
theorem canceled_leaves_nullKey :
    ((QGpgMEKeyListJob.doListKeys (fun _ => ()) (sampleEngine .canceled) 3 [] [] false).map
      Listed.keys = some [1, 0] ∧
    (QGpgMEListAllKeysJob.doListKeys (fun _ => ()) (sampleEngine .canceled) 3 []).map
      Listed.keys = some [1, 0] ∧
    (QGpgMEListAllKeysJob.doListKeysLegacy (fun _ => ()) (sampleEngine .canceled) 3 [] false).map
      Listed.keys = some [1, 0]) ∧
    ¬Appends (fun fuel => QGpgMEKeyListJob.doListKeys (fun _ => ()) (sampleEngine .canceled) fuel []
      [] false) [] [1] := by
  refine ⟨⟨rfl, rfl, rfl⟩, fun h => ?_⟩
  have hdelivers := sampleEngine_delivers .canceled
  have hcanceled := (listing_appends_iff (fun _ => ()) hdelivers (by decide) (by simp)
    (by simp)).mp h
  exact absurd hcanceled (by decide)

end canceled

end QGpgME.KeyListLoops
