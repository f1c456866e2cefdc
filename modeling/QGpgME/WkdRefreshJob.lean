import QGpgME.ListAllKeys
import Mathlib.Data.List.Sort
import Mathlib.Data.List.Lex
import Mathlib.Logic.Embedding.Basic

/-! QGpgMEWKDRefreshJob: the addresses of keys or user IDs are looked up in the WKD by listing
keys in the mode LocateExternal. -/
namespace QGpgME.WkdRefreshJob
open AdjacentRuns KeyListJob MergeKeys Rounds
open ListAllKeys (ModalContext)
variable {σ R Key I F : Type*}

/-- `Key::Origin`, as far as the job tells origins apart. -/
inductive Origin where
  | wkd | other
deriving DecidableEq

structure UserID where
  isRevoked : Bool
  addrSpec : QByteArray
  origin : Origin

/-- The user IDs of each key. -/
def toEmailAddressesOriginatingFromWKD (keys : List (List UserID)) : List QString :=
  keys.foldl (fun emails userIDs => userIDs.foldl (fun emails userID =>
    if !userID.isRevoked && userID.addrSpec ≠ [] && userID.origin = .wkd then
      emails ++ [QString.fromUtf8 userID.addrSpec]
    else emails) emails) []

def toEmailAddresses (userIds : List UserID) : List QString :=
  userIds.foldl (fun emails userId =>
    if !userId.isRevoked && userId.addrSpec ≠ [] then
      emails ++ [QString.fromUtf8 userId.addrSpec]
    else emails) []

/-- `std::unique` keeps the first of neighbours that are equal. -/
def unique (emails : List QString) : List QString :=
  collapse (fun a b => a = b) (fun a _ => a) emails

/-- The addresses with which `startIt` runs the job. Strings are compared through `order`. -/
def emailsOf [LinearOrder F] {order : QString ↪ F} (sorting : Sorting order)
    (keys : List (List UserID)) (userIds : List UserID) : List QString :=
  let emails :=
    if keys ≠ [] then toEmailAddressesOriginatingFromWKD keys else toEmailAddresses userIds
  unique (sorting.sort emails)

/-- A context that also tells the result of the last import. -/
structure ImportContext (σ R Key I : Type*) extends ModalContext σ R Key where
  locateExternal : UInt32
  importResult : σ → I

/-- None if so many rounds of the loop of `list_keys` are not enough. The mode is restored by
`KeyListModeSaver`. The audit log and its error, always empty, are left out. -/
def locateExternalKeys (results : ResultApi R) (ctx : ImportContext σ R Key I) (nullResult : I)
    (emails : List QString) (fuel : Nat) (s : σ) : Option (I × σ) :=
  if emails = [] then some (nullResult, s)
  else
    let keyListMode := ctx.keyListMode s
    let s := ctx.setKeyListMode ctx.locateExternal s
    let s := (ctx.setFlag "auto-key-locate".toList "clear,wkd".toList s).2
    match listKeys results ctx.toContext emails false fuel s with
    | .again _ => none
    | .returned (_, s) =>
      let result := ctx.importResult s
      some (result, ctx.setKeyListMode keyListMode s)

/-- A context that also keeps the mode and the patterns of every listing that is started. -/
def watching (ctx : ImportContext σ R Key I) :
    ImportContext (σ × List (UInt32 × List QString)) R Key I where
  nullKey := ctx.nullKey
  startKeyListing pats secretOnly w :=
    let (answer, s) := ctx.startKeyListing pats secretOnly w.1
    (answer, (s, w.2 ++ [(ctx.keyListMode w.1, pats)]))
  endKeyListing w :=
    let (result, s) := ctx.endKeyListing w.1
    (result, (s, w.2))
  cancelPendingOperation w := (ctx.cancelPendingOperation w.1, w.2)
  keyListMode w := ctx.keyListMode w.1
  setKeyListMode mode w := (ctx.setKeyListMode mode w.1, w.2)
  setFlag name value w :=
    let (err, s) := ctx.setFlag name value w.1
    (err, (s, w.2))
  locateExternal := ctx.locateExternal
  importResult w := ctx.importResult w.1

/-- Only `setKeyListMode` changes the key list mode. -/
structure KeepsMode (ctx : ImportContext σ R Key I) : Prop where
  mode_set : ∀ mode s, ctx.keyListMode (ctx.setKeyListMode mode s) = mode
  mode_flag : ∀ name value s, ctx.keyListMode (ctx.setFlag name value s).2 = ctx.keyListMode s
  mode_start : ∀ pats secretOnly s,
    ctx.keyListMode (ctx.startKeyListing pats secretOnly s).2 = ctx.keyListMode s
  mode_end : ∀ s, ctx.keyListMode (ctx.endKeyListing s).2 = ctx.keyListMode s
  mode_cancel : ∀ s, ctx.keyListMode (ctx.cancelPendingOperation s) = ctx.keyListMode s

/-- An engine that refuses just the chunks beyond its limit. -/
structure Limited (results : ResultApi R) (ctx : Context σ R Key) (len : QString → Nat)
    (limit : Nat) : Prop where
  refused : ∀ chunk s, fits len limit chunk = false →
    (results.error (doListKeys results ctx chunk [] false s).1.1).code = .lineTooLong
  answered : ∀ chunk s, fits len limit chunk = true →
    (results.error (doListKeys results ctx chunk [] false s).1.1).code = .noError

section emails

theorem foldl_selected {α : Type*} (p : α → Bool) (f : α → QString) (l : List α)
    (emails : List QString) :
    l.foldl (fun emails x => if p x then emails ++ [f x] else emails) emails =
      emails ++ (l.filter p).map f := by
  induction l generalizing emails with
  | nil => simp
  | cons x l ih =>
    rw [List.foldl_cons, ih]
    by_cases hp : p x = true <;> simp [hp]

theorem mem_toEmailAddresses {userIds : List UserID} {email : QString} :
    email ∈ toEmailAddresses userIds ↔
      ∃ u ∈ userIds, u.isRevoked = false ∧ u.addrSpec ≠ [] ∧
        email = QString.fromUtf8 u.addrSpec := by
  have heq : toEmailAddresses userIds = ([] : List QString) ++
      (userIds.filter fun u => !u.isRevoked && u.addrSpec ≠ []).map
        fun u => QString.fromUtf8 u.addrSpec := by
    rw [← foldl_selected]
    rfl
  simp only [heq, List.nil_append, List.mem_map, List.mem_filter, Bool.and_eq_true,
    Bool.not_eq_true', decide_eq_true_eq]
  constructor
  · rintro ⟨u, ⟨hu, hr, ha⟩, rfl⟩
    exact ⟨u, hu, hr, ha, rfl⟩
  · rintro ⟨u, hu, hr, ha, rfl⟩
    exact ⟨u, ⟨hu, hr, ha⟩, rfl⟩

theorem foldl_keys (keys : List (List UserID)) (emails : List QString) :
    keys.foldl (fun emails userIDs => userIDs.foldl (fun emails userID =>
      if !userID.isRevoked && userID.addrSpec ≠ [] && userID.origin = .wkd then
        emails ++ [QString.fromUtf8 userID.addrSpec]
      else emails) emails) emails =
    emails ++ toEmailAddresses (keys.flatten.filter fun u => u.origin = .wkd) := by
  induction keys generalizing emails with
  | nil => simp [toEmailAddresses]
  | cons userIDs keys ih =>
    have hfilter : ∀ l : List UserID,
        toEmailAddresses (l.filter fun u => u.origin = .wkd) =
          (l.filter fun u => !u.isRevoked && u.addrSpec ≠ [] && u.origin = .wkd).map
            fun u => QString.fromUtf8 u.addrSpec := by
      intro l
      have hsel := foldl_selected (fun u : UserID => !u.isRevoked && u.addrSpec ≠ [])
        (fun u => QString.fromUtf8 u.addrSpec) (l.filter fun u => u.origin = .wkd) []
      rw [List.filter_filter, List.nil_append] at hsel
      exact hsel
    rw [List.foldl_cons, ih, foldl_selected, hfilter, hfilter, List.flatten_cons,
      List.filter_append, List.map_append, List.append_assoc]

/-- Each string once, in order. -/
theorem unique_sorted [LinearOrder F] {order : QString ↪ F} (sorting : Sorting order)
    (emails : List QString) :
    (unique (sorting.sort emails)).Pairwise (fun a b => order a < order b) ∧
      ∀ email, email ∈ unique (sorting.sort emails) ↔ email ∈ emails := by
  have hsame : (fun a b : QString => decide (a = b)) = SameKey order := by
    funext a b
    simp [SameKey]
  have hjoin : ∀ a b : QString, order ((fun a _ => a) a b) = order a := fun _ _ => rfl
  obtain ⟨hlt, hmem, -⟩ := collapse_sorted hjoin (sorting.sorted_sort emails)
  rw [← hsame] at hlt hmem
  refine ⟨List.pairwise_map.mp hlt, fun email => ?_⟩
  have hiff := hmem (order email)
  rw [List.mem_map_of_injective order.injective, List.mem_map_of_injective order.injective] at hiff
  exact hiff.trans (sorting.perm_sort emails).mem_iff

/-- The addresses that the job looks up are sorted, each once. -/
theorem pairwise_emailsOf [LinearOrder F] {order : QString ↪ F} (sorting : Sorting order)
    (keys : List (List UserID)) (userIds : List UserID) :
    (emailsOf sorting keys userIds).Pairwise (fun a b => order a < order b) :=
  (unique_sorted sorting _).1

/-- They are those of the user IDs that originate from WKD, or of all that are given. -/
theorem mem_emailsOf [LinearOrder F] {order : QString ↪ F} (sorting : Sorting order)
    (keys : List (List UserID)) (userIds : List UserID) (email : QString) :
    email ∈ emailsOf sorting keys userIds ↔
      ∃ u ∈ if keys = [] then userIds else keys.flatten.filter fun u => u.origin = .wkd,
        u.isRevoked = false ∧ u.addrSpec ≠ [] ∧ email = QString.fromUtf8 u.addrSpec := by
  refine ((unique_sorted sorting _).2 email).trans ?_
  by_cases hkeys : keys = []
  · rw [if_neg (not_not.mpr hkeys), if_pos hkeys]
    exact mem_toEmailAddresses
  · rw [if_pos hkeys, if_neg hkeys, toEmailAddressesOriginatingFromWKD, foldl_keys]
    exact mem_toEmailAddresses

end emails

section listings
variable {results : ResultApi R} {ctx : ImportContext σ R Key I} {len : QString → Nat}
  {limit : Nat}

theorem doListKeys_watching (pats : List QString) (keys : List Key) (s : σ)
    (log : List (UInt32 × List QString)) :
    doListKeys results (watching ctx).toContext pats keys false (s, log) =
      ((doListKeys results ctx.toContext pats keys false s).1,
        ((doListKeys results ctx.toContext pats keys false s).2,
          log ++ [(ctx.keyListMode s, pats)])) := by
  by_cases herr : (ctx.startKeyListing pats false s).1.1.asBool = true
  · simp [doListKeys, watching, herr]
  · simp [doListKeys, watching, herr]

theorem KeepsMode.doListKeys (h : KeepsMode ctx) (pats : List QString) (keys : List Key) (s : σ) :
    ctx.keyListMode (KeyListJob.doListKeys results ctx.toContext pats keys false s).2 =
      ctx.keyListMode s := by
  by_cases herr : (ctx.startKeyListing pats false s).1.1.asBool = true
  · simp [KeyListJob.doListKeys, herr, h.mode_start]
  · simp [KeyListJob.doListKeys, herr, h.mode_start, h.mode_end, h.mode_cancel]

/-- What listing patterns with the context in a mode has left in the log: the listings were all
started in the mode, and those that were not refused had each pattern once, in order. -/
structure Covers (len : QString → Nat) (limit : Nat) (mode : UInt32) (pats : List QString)
    (log : List (UInt32 × List QString)) : Prop where
  modes : ∀ x ∈ log, x.1 = mode
  answered : ((log.map Prod.snd).filter (fits len limit)).flatten = pats

theorem Covers.of_refused {mode : UInt32} {pats chunk : List QString}
    {log : List (UInt32 × List QString)} (hf : fits len limit chunk = false)
    (h : Covers len limit mode pats log) : Covers len limit mode pats ((mode, chunk) :: log) := by
  refine ⟨List.forall_mem_cons.mpr ⟨rfl, h.modes⟩, ?_⟩
  simpa [hf] using h.answered

theorem Covers.of_answered {mode : UInt32} {pats chunk : List QString}
    {log : List (UInt32 × List QString)} (hf : fits len limit chunk = true)
    (h : Covers len limit mode pats log) :
    Covers len limit mode (chunk ++ pats) ((mode, chunk) :: log) := by
  refine ⟨List.forall_mem_cons.mpr ⟨rfl, h.modes⟩, ?_⟩
  simpa [hf] using h.answered

theorem covers_nil (mode : UInt32) : Covers len limit mode [] [] := ⟨by simp, rfl⟩

/-- The chunk at the start of the loop is listed in the present mode, and refused just where it
does not fit. -/
theorem doListKeys_limited (hkeep : KeepsMode ctx) (hlim : Limited results ctx.toContext len limit)
    (chunk : List QString) (keys : List Key) (s : σ) (log : List (UInt32 × List QString)) :
    ∃ r keys' s', doListKeys results (watching ctx).toContext chunk keys false (s, log) =
        ((r, keys'), (s', log ++ [(ctx.keyListMode s, chunk)])) ∧
      ctx.keyListMode s' = ctx.keyListMode s ∧
      (results.error r).code = if fits len limit chunk then .noError else .lineTooLong := by
  refine ⟨_, _, _, doListKeys_watching chunk keys s log, hkeep.doListKeys chunk keys s, ?_⟩
  rw [doListKeys_append]
  cases hf : fits len limit chunk with
  | false => exact hlim.refused chunk s hf
  | true => exact hlim.answered chunk s hf

/-- A point of the loop at which no error has been met, and no pattern left is too long. -/
structure Within (results : ResultApi R) (ctx : ImportContext σ R Key I) (len : QString → Nat)
    (limit : Nat) (mode : UInt32) (l : Loop (σ × List (UInt32 × List QString)) R Key) : Prop where
  ready : l.Ready
  fit : ∀ p ∈ l.pats, len p ≤ limit
  result : (results.error l.result).code = .noError
  mode : ctx.keyListMode l.state.1 = mode

/-- What an answer of the loop says of the point from which it was reached: the listings that
cover the patterns left stand behind those made before, and the mode has stayed. -/
def CoversFrom (ctx : ImportContext σ R Key I) (len : QString → Nat) (limit : Nat) (mode : UInt32)
    (l : Loop (σ × List (UInt32 × List QString)) R Key)
    (answer : (R × List Key) × σ × List (UInt32 × List QString)) : Prop :=
  ∃ listings, answer.2.2 = l.state.2 ++ listings ∧ Covers len limit mode l.pats listings ∧
    ctx.keyListMode answer.2.1 = mode

section covered
variable {mode : UInt32} {l : Loop (σ × List (UInt32 × List QString)) R Key}
  {answer : (R × List Key) × σ × List (UInt32 × List QString)} {size : UInt32} {keys : List Key}
  {result : R} {s : σ}

theorem CoversFrom.of_refused (hf : fits len limit l.chunk = false)
    (h : CoversFrom ctx len limit mode
      ⟨size, l.pats, keys, result, (s, l.state.2 ++ [(mode, l.chunk)])⟩ answer) :
    CoversFrom ctx len limit mode l answer := by
  obtain ⟨listings, hlog, hcovers, hmode⟩ := h
  refine ⟨(mode, l.chunk) :: listings, ?_, hcovers.of_refused hf, hmode⟩
  rw [hlog, List.append_assoc]
  rfl

theorem CoversFrom.of_answered (hf : fits len limit l.chunk = true)
    (h : CoversFrom ctx len limit mode
      ⟨size, l.rest, keys, result, (s, l.state.2 ++ [(mode, l.chunk)])⟩ answer) :
    CoversFrom ctx len limit mode l answer := by
  obtain ⟨listings, hlog, hcovers, hmode⟩ := h
  have hsplit : l.chunk ++ l.rest = l.pats := List.take_append_drop _ _
  refine ⟨(mode, l.chunk) :: listings, ?_, hsplit ▸ hcovers.of_answered hf, hmode⟩
  rw [hlog, List.append_assoc]
  rfl

theorem CoversFrom.of_last (hf : fits len limit l.chunk = true) (hlast : l.rest = [])
    (hmode : ctx.keyListMode s = mode) : CoversFrom ctx len limit mode l
      ((result, keys), (s, l.state.2 ++ [(mode, l.chunk)])) := by
  have hsplit : l.chunk ++ l.rest = l.pats := List.take_append_drop _ _
  have hnil : Covers len limit mode l.rest [] := hlast ▸ covers_nil mode
  exact ⟨[(mode, l.chunk)], rfl, hsplit ▸ hnil.of_answered hf, hmode⟩

end covered

/-- From any point of the loop the patterns left are covered. -/
theorem rounds_covers (hkeep : KeepsMode ctx) (hlim : Limited results ctx.toContext len limit)
    {mode : UInt32} {fuel : Nat} {l : Loop (σ × List (UInt32 × List QString)) R Key}
    (hfuel : l.measure < fuel) (hl : Within results ctx len limit mode l) :
    ∃ answer, rounds (listChunk results (watching ctx).toContext false) fuel l =
      .returned answer ∧ CoversFrom ctx len limit mode l answer := by
  refine returns_of_measure (I := Within results ctx len limit mode)
    (P := CoversFrom ctx len limit mode) Loop.measure (fun l hl => ?_) hfuel hl
  obtain ⟨hready, hfit, hres, hmode⟩ := hl
  obtain ⟨r, keys', s₁, hd, hmode₁, hcode⟩ :=
    doListKeys_limited hkeep hlim l.chunk l.keys l.state.1 l.state.2
  rw [hmode] at hd hmode₁
  cases hf : fits len limit l.chunk with
  | false =>
    have hhalf := half_pos_of_refused hfit hf
    rw [hf, if_neg Bool.false_ne_true] at hcode
    obtain ⟨hready', hless⟩ :=
      hready.halve hhalf [] results.null (s₁, l.state.2 ++ [(mode, l.chunk)])
    exact Or.inr ⟨_, round_refused hd hcode hhalf, hless,
      ⟨hready', hfit, results.error_null, hmode₁⟩, fun answer h => h.of_refused hf⟩
  | true =>
    rw [hf, if_pos rfl] at hcode
    have hround := round_answered hd hcode hres
    by_cases hlast : l.rest = []
    · rw [if_pos hlast] at hround
      exact Or.inl ⟨_, hround, .of_last hf hlast hmode₁⟩
    · rw [if_neg hlast] at hround
      obtain ⟨hready', hless⟩ := hready.advance hlast keys' (results.mergeWith l.result r)
        (s₁, l.state.2 ++ [(mode, l.chunk)])
      exact Or.inr ⟨_, hround, hless, ⟨hready', fun p hp => hfit p (List.mem_of_mem_drop hp),
        results.error_merge _ _ hres hcode, hmode₁⟩, fun answer h => h.of_answered hf⟩

theorem listKeys_covers (hkeep : KeepsMode ctx) (hlim : Limited results ctx.toContext len limit)
    (pats : List QString) (hsize : pats.length < 2 ∨ ¬2 ^ 32 ∣ pats.length)
    (hfit : ∀ p ∈ pats, len p ≤ limit) (s : σ) (log : List (UInt32 × List QString)) :
    ∃ answer s' listings, listKeys results (watching ctx).toContext pats false
        (2 * pats.length + 1) (s, log) = .returned (answer, (s', log ++ listings)) ∧
      Covers len limit (ctx.keyListMode s) pats listings ∧
      ctx.keyListMode s' = ctx.keyListMode s := by
  by_cases hfew : pats.length < 2
  · obtain ⟨r, keys', s', hd, hmode, -⟩ := doListKeys_limited hkeep hlim pats [] s log
    refine ⟨(r, keys'), s', [(ctx.keyListMode s, pats)], by rw [listKeys, if_pos hfew, hd], ?_,
      hmode⟩
    have hf : fits len limit pats = true := by
      cases pats with
      | nil => simp [fits]
      | cons p pats =>
        rw [List.length_cons] at hfew
        obtain rfl : pats = [] := List.length_eq_zero_iff.mp (by omega)
        simpa [fits] using hfit p (by simp)
    have hnil : Covers len limit (ctx.keyListMode s) [] [] := covers_nil _
    simpa using hnil.of_answered hf
  · have hready : (Loop.start results pats (s, log) :
        Loop (σ × List (UInt32 × List QString)) R Key).Ready :=
      Loop.start_ready results (List.length_pos_iff.mp (by omega)) (hsize.resolve_left hfew) _
    obtain ⟨⟨answer, s', log'⟩, hreturned, listings, hlog, hcovers, hmode⟩ := rounds_covers hkeep
      hlim (Loop.start_measure results pats (s, log)) ⟨hready, hfit, results.error_null, rfl⟩
    obtain rfl : log' = log ++ listings := hlog
    refine ⟨answer, s', listings, ?_, hcovers, hmode⟩
    rw [listKeys, if_neg hfew, hreturned]

/-- If no address is too long by itself and their number, where there are several, is not 0 as an
unsigned int: the job looks up the addresses of just the user IDs that are to be looked up, each in
one listing that the engine does not refuse, with the mode LocateExternal, and restores the mode.
Without such an address the engine is left alone. -/
theorem locateExternalKeys_emailsOf [LinearOrder F] {order : QString ↪ F}
    (sorting : Sorting order) (hkeep : KeepsMode ctx)
    (hlim : Limited results ctx.toContext len limit) (keys : List (List UserID))
    (userIds : List UserID) (nullResult : I)
    (hfit : ∀ email ∈ emailsOf sorting keys userIds, len email ≤ limit)
    (hsize : (emailsOf sorting keys userIds).length < 2 ∨
      ¬2 ^ 32 ∣ (emailsOf sorting keys userIds).length) (s : σ) :
    ∃ fuel result s' log, locateExternalKeys results (watching ctx) nullResult
        (emailsOf sorting keys userIds) fuel (s, []) = some (result, (s', log)) ∧
      Covers len limit ctx.locateExternal (emailsOf sorting keys userIds) log ∧
      (emailsOf sorting keys userIds).Pairwise (fun a b => order a < order b) ∧
      (∀ email, email ∈ emailsOf sorting keys userIds ↔
        ∃ u ∈ if keys = [] then userIds else keys.flatten.filter fun u => u.origin = .wkd,
          u.isRevoked = false ∧ u.addrSpec ≠ [] ∧ email = QString.fromUtf8 u.addrSpec) ∧
      ctx.keyListMode s' = ctx.keyListMode s ∧
      (emailsOf sorting keys userIds = [] → s' = s ∧ log = []) := by
  by_cases hnone : emailsOf sorting keys userIds = []
  · refine ⟨0, nullResult, s, [], by rw [locateExternalKeys, if_pos hnone], ?_,
      pairwise_emailsOf sorting keys userIds, mem_emailsOf sorting keys userIds, rfl,
      fun _ => ⟨rfl, rfl⟩⟩
    rw [hnone]
    exact covers_nil _
  · obtain ⟨answer, s', log, hlist, hcovers, hmode⟩ := listKeys_covers hkeep hlim
      (emailsOf sorting keys userIds) hsize hfit
      (ctx.setFlag "auto-key-locate".toList "clear,wkd".toList
        (ctx.setKeyListMode ctx.locateExternal s)).2 []
    rw [hkeep.mode_flag, hkeep.mode_set] at hcovers hmode
    refine ⟨2 * (emailsOf sorting keys userIds).length + 1, ctx.importResult s',
      ctx.setKeyListMode (ctx.keyListMode s) s', log, ?_, hcovers,
      pairwise_emailsOf sorting keys userIds, mem_emailsOf sorting keys userIds,
      hkeep.mode_set _ _, fun h => absurd h hnone⟩
    rw [locateExternalKeys, if_neg hnone]
    simp only [watching] at hlist ⊢
    rw [hlist]
    rfl

end listings

/-- An engine whose lines hold two patterns, with the mode as its state. -/
def twoPatterns : ImportContext UInt32 Error QString Unit where
  nullKey := []
  startKeyListing pats _ mode :=
    if fits (fun _ => 1) 2 pats then ((Error.noError, []), mode) else ((⟨.lineTooLong⟩, []), mode)
  endKeyListing mode := (Error.noError, mode)
  cancelPendingOperation mode := mode
  keyListMode mode := mode
  setKeyListMode mode _ := mode
  setFlag _ _ mode := (Error.noError, mode)
  locateExternal := 515
  importResult _ := ()

theorem twoPatterns_limited : Limited errorApi twoPatterns.toContext (fun _ => 1) 2 := by
  constructor
  · intro chunk s hf
    simp only [doListKeys, twoPatterns, hf]
    rfl
  · intro chunk s hf
    simp only [doListKeys, twoPatterns, hf]
    rfl

/-- The order of the code points. -/
def codePoints : QString ↪ List Nat :=
  ⟨fun s => s.map Char.toNat,
    List.map_injective_iff.mpr fun _ _ h => Char.ext (UInt32.toNat_inj.mp h)⟩

def insertionSorting : Sorting codePoints where
  sort emails := emails.insertionSort fun a b => codePoints a ≤ codePoints b
  perm_sort emails := List.perm_insertionSort _ emails
  sorted_sort emails := by
    have : Std.Total fun a b : QString => codePoints a ≤ codePoints b := ⟨fun _ _ => le_total _ _⟩
    have : IsTrans QString fun a b => codePoints a ≤ codePoints b := ⟨fun _ _ _ => le_trans⟩
    exact List.pairwise_insertionSort _ emails

/-- One of the user IDs is revoked, one has no address, and two have the same one. -/
theorem locateExternalKeys_emailsOf_five : ∃ fuel result s' log,
    locateExternalKeys errorApi (watching twoPatterns) ()
      (emailsOf insertionSorting []
        [⟨false, [100], .other⟩, ⟨false, [97], .wkd⟩, ⟨true, [98], .wkd⟩, ⟨false, [], .wkd⟩,
          ⟨false, [97], .other⟩]) fuel (1, []) = some (result, (s', log)) ∧
    (∀ x ∈ log, x.1 = 515) ∧ s' = 1 := by
  have hkeep : KeepsMode twoPatterns := by
    refine ⟨fun _ _ => rfl, fun _ _ _ => rfl, fun pats secretOnly s => ?_, fun _ => rfl,
      fun _ => rfl⟩
    simp only [twoPatterns]
    split_ifs <;> rfl
  obtain ⟨fuel, result, s', log, heq, hcovers, -, -, hmode, -⟩ :=
    locateExternalKeys_emailsOf insertionSorting hkeep twoPatterns_limited []
      [⟨false, [100], .other⟩, ⟨false, [97], .wkd⟩, ⟨true, [98], .wkd⟩, ⟨false, [], .wkd⟩,
        ⟨false, [97], .other⟩] () (fun _ _ => by decide)
      (Or.inr (by decide)) 1
  exact ⟨fuel, result, s', log, heq, hcovers.modes, hmode⟩

end QGpgME.WkdRefreshJob
