import QGpgME.ADQueryResult
import QGpgME.CallTrace
import QGpgME.GpgError

/-! Queries that dirmngr answers over its socket: the Active Directory query and the lookup
in a Web Key Directory. Each is a series of engine calls guarded by the error so far. -/
namespace QGpgME.Dirmngr
open CallTrace

/-- The calls that return an error. The last three are Assuan transactions, the first of them
`GETINFO version`; `cnt` is the number of times dirmngr was waited for before. -/
inductive Call where
  | setEngineFileName (fileName : QByteArray)
  | setEngineHomeDirectory (homeDirectory : QByteArray)
  | createSpawnContext
  | spawn (argv : List QByteArray)
  | getInfo (cnt : Nat)
  | adQuery (cmd : QByteArray)
  | wkdGet (cmd : QByteArray)
deriving DecidableEq

/-- What the engine answers, the source and the data of the last transaction, and what is
configured. -/
structure Environment where
  answer : Trace Call Error → Call → Error
  transaction : Trace Call Error → QByteArray × QByteArray
  dirmngrSocket : QByteArray
  gpgconfName : QByteArray
  homedir : QByteArray
  gpgDisableDirmngr : Bool
  gpgsmDisableDirmngr : Bool

def utf8 (s : String) : QByteArray := QString.toUtf8 s.toList

/-- Backslashes are replaced by slashes. -/
def spawnArguments (env : Environment) : List QByteArray :=
  [env.gpgconfName, utf8 "--homedir", env.homedir.map fun b => if b = 92 then 47 else b,
    utf8 "--launch", utf8 "dirmngr"]

/-- The rounds of the polling loop that are left after the one with number `cnt`. -/
def pollDirmngr (env : Environment) (cnt : Nat) : Nat → Calls Call Error Error
  | 0 => call env.answer (.getInfo cnt)
  | rounds + 1 =>
    ifHandled (fun err => err.code = .assConnectFailed) (call env.answer (.getInfo cnt))
      (pollDirmngr env (cnt + 1) rounds)

def startDirmngr (env : Environment) (disabled : Bool) : Calls Call Error Error :=
  if disabled then pure (Error.fromCode .noDirmngr)
  else
    ifNoError Error.asBool
      (ifNoError Error.asBool (call env.answer .createSpawnContext)
        (call env.answer (.spawn (spawnArguments env))))
      (pollDirmngr env 1 4)

def setUpDirmngrAssuanConnection (env : Environment) (disabled : Bool) :
    Calls Call Error Error :=
  ifNoError Error.asBool
    (ifNoError Error.asBool (call env.answer (.setEngineFileName env.dirmngrSocket))
      (call env.answer (.setEngineHomeDirectory [])))
    (ifHandled (fun err => err.code = .assConnectFailed) (call env.answer (.getInfo 0))
      (startDirmngr env disabled))

namespace ADQueryJob

structure Result where
  error : Error
  attributes : List ADQueryResult.Attribute
  source : QString

def Result.null : Result := ⟨Error.noError, [], []⟩

def Result.ofError (err : Error) : Result := ⟨err, [], []⟩

structure Options where
  rootDSE : Bool
  substituteVariables : Bool

def arguments (filter : QString) (attributes : List QString) (options : Options) :
    List QString :=
  (if options.rootDSE then ["--rootdse".toList] else []) ++
  (if options.substituteVariables then ["--subst".toList] else []) ++
  (if attributes ≠ [] then ["--attr=".toList ++ [','].intercalate attributes] else []) ++
  ["--".toList, filter]

def command (filter : QString) (attributes : List QString) (options : Options) : QByteArray :=
  utf8 "AD_QUERY " ++ QString.toUtf8 ([' '].intercalate (arguments filter attributes options))

/-- Not started if it is disabled for gpg and for gpgsm. -/
def query (env : Environment) (filter : QString) (attributes : List QString)
    (options : Options) : Calls Call Error Error :=
  ifNoError Error.asBool
    (setUpDirmngrAssuanConnection env (env.gpgDisableDirmngr && env.gpgsmDisableDirmngr))
    (call env.answer (.adQuery (command filter attributes options)))

def readTransaction (transaction : QByteArray × QByteArray) : Result :=
  if transaction.2 = [] then .null
  else ⟨Error.noError, ADQueryResult.parseQueryResult transaction.2,
    QString.fromUtf8 transaction.1⟩

def runAdQuery (env : Environment) (filter : QString) (attributes : List QString)
    (options : Options) : Calls Call Error Result := fun s =>
  let (err, s) := query env filter attributes options s
  (if err.asBool then .ofError err else readTransaction (env.transaction s), s)

end ADQueryJob

namespace WKDLookupJob

/-- No key data stands for `Data::null`. -/
structure Result where
  error : Error
  pattern : QByteArray
  keyData : Option QByteArray
  source : QByteArray

def Result.ofError (pattern : QByteArray) (err : Error) : Result := ⟨err, pattern, none, []⟩

/-- Two errors say that there is no key, and are ignored. -/
def runWkdGet (env : Environment) (email : QByteArray) : Calls Call Error Error :=
  ifHandled (fun err => err.code = .noName || err.code = .noData)
    (call env.answer (.wkdGet (utf8 "WKD_GET " ++ email))) (pure Error.noError)

/-- Not started if it is disabled for gpg. -/
def lookup (env : Environment) (pattern : QByteArray) : Calls Call Error Error :=
  ifNoError Error.asBool (setUpDirmngrAssuanConnection env env.gpgDisableDirmngr)
    (runWkdGet env pattern)

def readTransaction (pattern : QByteArray) (transaction : QByteArray × QByteArray) : Result :=
  if transaction.2 = [] then ⟨Error.noError, pattern, none, []⟩
  else ⟨Error.noError, pattern, some transaction.2, transaction.1⟩

def lookupKeys (env : Environment) (email : QString) : Calls Call Error Result := fun s =>
  let pattern := QString.toUtf8 email
  let (err, s) := lookup env pattern s
  (if err.asBool then .ofError pattern err else readTransaction pattern (env.transaction s), s)

end WKDLookupJob

/-- Whether the sources handle this error of a call on purpose: dirmngr is started and
polled up to five times, and a key that is not found is no error. -/
def handled : Call → ErrorCode → Bool
  | .getInfo cnt, code => code = .assConnectFailed && cnt < 5
  | .wkdGet _, code => code = .noName || code = .noData
  | _, _ => false

def Failure (c : Call) (err : Error) : Prop := err.code ≠ .noError ∧ handled c err.code = false

def NotCanceled (err : Error) : Prop := err.isCanceled = false

/-- The two kinds of query. -/
inductive Query where
  | adQuery (filter : QString) (attributes : List QString) (options : ADQueryJob.Options)
  | wkdLookup (email : QString)

namespace Query

/-- The error of the result. -/
def run (env : Environment) : Query → Calls Call Error Error
  | adQuery filter attributes options => fun s =>
    let (result, s) := ADQueryJob.runAdQuery env filter attributes options s
    (result.error, s)
  | wkdLookup email => fun s =>
    let (result, s) := WKDLookupJob.lookupKeys env email s
    (result.error, s)

/-- The error so far when the transaction is read. -/
def calls (env : Environment) : Query → Calls Call Error Error
  | adQuery filter attributes options => ADQueryJob.query env filter attributes options
  | wkdLookup email => WKDLookupJob.lookup env (QString.toUtf8 email)

end Query

theorem asBool_of_failure (c : Call) (err : Error) (h : Failure c err) (hn : NotCanceled err) :
    err.asBool = true := Error.asBool_eq_true.mpr ⟨h.1, hn⟩

theorem failure_of_canceled (c : Call) (err : Error) (h : ¬NotCanceled err) : Failure c err := by
  have hc : err.isCanceled = true := by simpa [NotCanceled] using h
  refine ⟨Error.code_ne_of_isCanceled hc, ?_⟩
  have hcode : err.code = .canceled ∨ err.code = .fullyCanceled := by
    simpa [Error.isCanceled] using hc
  cases c <;> cases hcode <;> simp [handled, *]

theorem notCanceled_of_asBool (err : Error) (h : err.asBool = true) : NotCanceled err :=
  (Error.asBool_eq_true.mp h).2

section sound
variable (env : Environment)

theorem sound_pollDirmngr (cnt rounds : Nat) (h : cnt + rounds ≤ 5) :
    Sound Failure NotCanceled (pollDirmngr env cnt rounds) := by
  induction rounds generalizing cnt with
  | zero => exact sound_call _ _
  | succ rounds ih =>
    refine sound_ifHandled (fun err he hf => ?_) (ih (cnt + 1) (by omega))
    have hcode : err.code = .assConnectFailed := by simpa using he
    have hlt : cnt < 5 := by omega
    have hhandled := hf.2
    simp [handled, hcode, hlt] at hhandled

theorem sound_startDirmngr (disabled : Bool) :
    Sound Failure NotCanceled (startDirmngr env disabled) := by
  cases disabled with
  | true => exact sound_pure _
  | false =>
    have hspawn := sound_ifNoError asBool_of_failure
      (sound_call env.answer .createSpawnContext)
      (sound_call env.answer (.spawn (spawnArguments env)))
    exact sound_ifNoError asBool_of_failure hspawn (sound_pollDirmngr env 1 4 (by omega))

theorem sound_setUpDirmngrAssuanConnection (disabled : Bool) :
    Sound Failure NotCanceled (setUpDirmngrAssuanConnection env disabled) := by
  have hset := sound_ifNoError asBool_of_failure
    (sound_call env.answer (.setEngineFileName env.dirmngrSocket))
    (sound_call env.answer (.setEngineHomeDirectory []))
  refine sound_ifNoError asBool_of_failure hset ?_
  refine sound_ifHandled (fun err he hf => ?_) (sound_startDirmngr env disabled)
  have hcode : err.code = .assConnectFailed := by simpa using he
  have hhandled := hf.2
  simp [handled, hcode] at hhandled

theorem sound_runWkdGet (email : QByteArray) :
    Sound Failure NotCanceled (WKDLookupJob.runWkdGet env email) := by
  refine sound_ifHandled (fun err he hf => ?_) (sound_pure _)
  have hhandled := hf.2
  simp only [handled] at hhandled
  rw [hhandled] at he
  simp at he

theorem sound_calls (q : Query) : Sound Failure NotCanceled (q.calls env) := by
  cases q with
  | adQuery filter attributes options =>
    exact sound_ifNoError asBool_of_failure (sound_setUpDirmngrAssuanConnection env _)
      (sound_call _ _)
  | wkdLookup email =>
    exact sound_ifNoError asBool_of_failure (sound_setUpDirmngrAssuanConnection env _)
      (sound_runWkdGet env _)

end sound

/-- The result carries the error so far where that is true, and none where it is false. -/
theorem run_eq (env : Environment) (q : Query) (s : Trace Call Error) :
    q.run env s =
      (if (q.calls env s).1.asBool then (q.calls env s).1 else Error.noError,
        (q.calls env s).2) := by
  cases q with
  | adQuery filter attributes options =>
    have hread : ∀ t, (ADQueryJob.readTransaction t).error = Error.noError := by
      intro t
      by_cases h : t.2 = [] <;> simp [ADQueryJob.readTransaction, ADQueryJob.Result.null, h]
    cases hq : ADQueryJob.query env filter attributes options s with
    | mk err t =>
      cases he : err.asBool <;>
        simp [Query.run, Query.calls, ADQueryJob.runAdQuery, ADQueryJob.Result.ofError, hq, he,
          hread]
  | wkdLookup email =>
    have hread : ∀ p t, (WKDLookupJob.readTransaction p t).error = Error.noError := by
      intro p t
      by_cases h : t.2 = [] <;> simp [WKDLookupJob.readTransaction, h]
    cases hq : WKDLookupJob.lookup env (QString.toUtf8 email) s with
    | mk err t =>
      cases he : err.asBool <;>
        simp [Query.run, Query.calls, WKDLookupJob.lookupKeys, WKDLookupJob.Result.ofError, hq, he,
          hread]

/-- Where the engine calls return the errors `answers`, the first failure is the last call
and its error is that of the result exactly when none of these errors is a cancellation. -/
theorem stops_at_failure_iff (env : Environment) (q : Query) (answers : List Error)
    (h : (q.run env []).2.map Prod.snd = answers) :
    Stops Failure (q.run env []).2 (q.run env []).1 ↔
      ∀ err ∈ answers, err.isCanceled = false := by
  have hiff := stops_iff Error.noError (sound_calls env q) asBool_of_failure failure_of_canceled
    notCanceled_of_asBool rfl
  rw [run_eq] at h ⊢
  rw [hiff, ← h]
  constructor
  · intro hall err herr
    obtain ⟨x, hx, rfl⟩ := List.mem_map.mp herr
    exact hall x hx
  · intro hall x hx
    exact hall x.2 (List.mem_map_of_mem hx)

/-- An engine that gives these answers in turn. -/
def scripted (answers : List Error) : Environment where
  answer s _ := answers.getD s.length Error.noError
  transaction _ := ([], [])
  dirmngrSocket := utf8 "/run/user/1000/gnupg/S.dirmngr"
  gpgconfName := utf8 "/usr/bin/gpgconf"
  homedir := utf8 "/home/user/.gnupg"
  gpgDisableDirmngr := false
  gpgsmDisableDirmngr := false

/-- The lookup of a key that is not found, after dirmngr had to be started. -/
theorem stops_at_failure_key_not_found :
    let answers := [.noError, .noError, .assConnectFailed, .noError, .noError, .assConnectFailed,
      .noError, .noData].map Error.fromCode
    Stops Failure ((Query.wkdLookup "a@b".toList).run (scripted answers) []).2
        ((Query.wkdLookup "a@b".toList).run (scripted answers) []).1 ↔
      ∀ err ∈ answers, err.isCanceled = false :=
  stops_at_failure_iff (scripted _) (.wkdLookup "a@b".toList) _ (by decide)

/-- A query that was canceled reports no error, like one without data. -/
theorem canceled_query_succeeds :
    let env := scripted ([.noError, .noError, .noError, .canceled].map Error.fromCode)
    let q := Query.adQuery "(objectClass=*)".toList [] ⟨false, false⟩
    (q.run env []).1 = Error.noError ∧
      (∃ c ∈ (q.run env []).2, c.2 = Error.fromCode .canceled) ∧
      ¬Stops Failure (q.run env []).2 (q.run env []).1 := by
  intro env q
  have hcall : (Call.adQuery (ADQueryJob.command "(objectClass=*)".toList [] ⟨false, false⟩),
      Error.fromCode .canceled) ∈ (q.run env []).2 := by decide
  refine ⟨by decide, ⟨_, hcall, rfl⟩, fun h => ?_⟩
  obtain ⟨u, v, huv⟩ := List.append_of_mem hcall
  have hstop := (h u _ _ v huv ⟨by decide, rfl⟩).2
  exact absurd hstop (by decide)

end QGpgME.Dirmngr
