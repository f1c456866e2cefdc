import QGpgME.Dirmngr
import QGpgME.Separators

/-! How a query reaches dirmngr: the connection that is tried, the start of dirmngr on demand,
and the command that is sent over the connection. -/
namespace QGpgME.Dirmngr
open CallTrace

namespace Query

/-- Whether dirmngr is not to be started for this query. -/
def disabled (env : Environment) : Query → Bool
  | adQuery .. => env.gpgDisableDirmngr && env.gpgsmDisableDirmngr
  | wkdLookup _ => env.gpgDisableDirmngr

/-- The call that sends the query. -/
def sending : Query → Call
  | adQuery filter attributes options => .adQuery (ADQueryJob.command filter attributes options)
  | wkdLookup email => .wkdGet (utf8 "WKD_GET " ++ QString.toUtf8 email)

/-- What the job makes of the answer to that call. -/
def received : Query → Error → Error
  | adQuery .., err => err
  | wkdLookup _, err => if err.code = .noName || err.code = .noData then Error.noError else err

end Query

/-- The calls that start dirmngr and wait for it. -/
def startCalls (env : Environment) (disabled : Bool) : List Call :=
  if disabled then []
  else .createSpawnContext :: .spawn (spawnArguments env) :: (List.range' 1 5).map Call.getInfo

/-- The calls before that of a query, in their order. -/
def connectCalls (env : Environment) (disabled : Bool) : List Call :=
  .setEngineFileName env.dirmngrSocket :: .setEngineHomeDirectory [] :: .getInfo 0 ::
    startCalls env disabled

/-- The attempts to connect that were refused from the one with number `cnt` on. -/
def refusals (cnt k : Nat) : Trace Call Error :=
  (List.range' cnt k).map fun i => (.getInfo i, Error.fromCode .assConnectFailed)

theorem refusals_succ (cnt k : Nat) :
    refusals cnt (k + 1) = (.getInfo cnt, Error.fromCode .assConnectFailed) ::
      refusals (cnt + 1) k := rfl

theorem eq_refused {err : Error} (h : err.code = .assConnectFailed) :
    err = Error.fromCode .assConnectFailed := by
  cases err
  exact congrArg Error.mk h

section connection
variable (env : Environment)

/-- The answer to the attempt after `k` ones that were refused. -/
def attempt (cnt : Nat) (s : Trace Call Error) (k : Nat) : Error :=
  env.answer (s ++ refusals cnt k) (.getInfo (cnt + k))

/-- The loop ends with the first attempt that is not refused, or with the last one. -/
theorem pollDirmngr_run (cnt rounds : Nat) (s : Trace Call Error) : ∃ k ≤ rounds,
    pollDirmngr env cnt rounds s = (attempt env cnt s k,
      s ++ refusals cnt k ++ [(.getInfo (cnt + k), attempt env cnt s k)]) ∧
    (k < rounds → (attempt env cnt s k).code ≠ .assConnectFailed) ∧
    ∀ i < k, attempt env cnt s i = Error.fromCode .assConnectFailed := by
  induction rounds generalizing cnt s with
  | zero =>
    refine ⟨0, Nat.le_refl 0, ?_, fun h => absurd h (Nat.lt_irrefl 0),
      fun i hi => absurd hi (Nat.not_lt_zero i)⟩
    simp [pollDirmngr, call, attempt, refusals]
  | succ rounds ih =>
    have hfirst : attempt env cnt s 0 = env.answer s (.getInfo cnt) := by
      simp [attempt, refusals]
    have hrun : pollDirmngr env cnt (rounds + 1) s =
        if (attempt env cnt s 0).code = .assConnectFailed then
          pollDirmngr env (cnt + 1) rounds (s ++ [(.getInfo cnt, attempt env cnt s 0)])
        else (attempt env cnt s 0, s ++ [(.getInfo cnt, attempt env cnt s 0)]) := by
      rw [hfirst, pollDirmngr, ifHandled_run]
      by_cases h : (env.answer s (.getInfo cnt)).code = .assConnectFailed <;> simp [call, h]
    by_cases h : (attempt env cnt s 0).code = .assConnectFailed
    · obtain ⟨k, hk, heq, hlast, hbefore⟩ :=
        ih (cnt + 1) (s ++ [(.getInfo cnt, attempt env cnt s 0)])
      have hnext : ∀ i, attempt env (cnt + 1) (s ++ [(.getInfo cnt, attempt env cnt s 0)]) i =
          attempt env cnt s (i + 1) := by
        intro i
        rw [eq_refused h]
        simp [attempt, refusals_succ, Nat.add_assoc, Nat.add_comm 1 i]
      refine ⟨k + 1, Nat.succ_le_succ hk, ?_, fun hlt => ?_, fun i hi => ?_⟩
      · rw [hrun, if_pos h, heq, hnext, eq_refused h, refusals_succ]
        simp [Nat.add_assoc, Nat.add_comm 1 k]
      · rw [← hnext]
        exact hlast (Nat.lt_of_succ_lt_succ hlt)
      · cases i with
        | zero => exact eq_refused h
        | succ i =>
          rw [← hnext]
          exact hbefore i (Nat.lt_of_succ_lt_succ hi)
    · refine ⟨0, Nat.zero_le _, ?_, fun _ => h, fun i hi => absurd hi (Nat.not_lt_zero i)⟩
      rw [hrun, if_neg h]
      simp [refusals]

/-- What has been called, and that only a greeting leaves no error. -/
structure Greeted (calls : List Call) (s : Trace Call Error) (r : Error × Trace Call Error) :
    Prop where
  calls : ∃ t, r.2 = s ++ t ∧ t.map Prod.fst <+: calls
  established : r.1.asBool = false → ∃ t cnt, r.2 = t ++ [(.getInfo cnt, r.1)]

theorem greeted_pollDirmngr (s : Trace Call Error) :
    Greeted ((List.range' 1 5).map Call.getInfo) s (pollDirmngr env 1 4 s) := by
  obtain ⟨k, hk, heq, -, -⟩ := pollDirmngr_run env 1 4 s
  rw [heq]
  refine ⟨⟨refusals 1 k ++ [(.getInfo (1 + k), attempt env 1 s k)], List.append_assoc .., ?_⟩,
    fun _ => ⟨_, _, rfl⟩⟩
  have hmap : (refusals 1 k).map Prod.fst = (List.range' 1 k).map Call.getInfo := by
    simp [refusals, Function.comp_def]
  have hstart : List.range' 1 (k + 1) <+: List.range' 1 5 :=
    ⟨List.range' (1 + (k + 1)) (4 - k), by
      rw [List.range'_append_1, show k + 1 + (4 - k) = 5 from by omega]⟩
  rw [List.map_append, hmap]
  have hend : List.range' 1 (k + 1) = List.range' 1 k ++ [1 + k] := List.range'_1_concat
  simpa [hend] using hstart.map Call.getInfo

theorem Greeted.cons {calls : List Call} {c : Call} {s : Trace Call Error}
    {r : Error × Trace Call Error} (h : Greeted calls (call env.answer c s).2 r) :
    Greeted (c :: calls) s r := by
  obtain ⟨⟨t, ht, hpre⟩, hest⟩ := h
  refine ⟨⟨(c, env.answer s c) :: t, by simpa [call] using ht, ?_⟩, hest⟩
  simpa using hpre

/-- A call that fails is the last one. -/
theorem greeted_ifNoError {calls : List Call} {c : Call} {next : Calls Call Error Error}
    {s : Trace Call Error}
    (h : Greeted calls (call env.answer c s).2 (next (call env.answer c s).2)) :
    Greeted (c :: calls) s (ifNoError Error.asBool (call env.answer c) next s) := by
  rw [ifNoError_run]
  by_cases hc : (call env.answer c s).1.asBool = true
  · rw [if_pos hc]
    exact ⟨⟨[(c, env.answer s c)], rfl, by simp⟩, fun hf => absurd (hc.symm.trans hf) (by decide)⟩
  · rw [if_neg hc]
    exact h.cons env

theorem greeted_startDirmngr (disabled : Bool) (s : Trace Call Error) :
    Greeted (startCalls env disabled) s (startDirmngr env disabled s) := by
  cases disabled with
  | true => exact ⟨⟨[], (List.append_nil s).symm, List.prefix_refl _⟩, fun h =>
      Bool.noConfusion (h : true = false)⟩
  | false =>
    rw [startDirmngr, if_neg Bool.false_ne_true, ifNoError_assoc]
    exact greeted_ifNoError env (greeted_ifNoError env (greeted_pollDirmngr env _))

theorem greeted_setUpDirmngrAssuanConnection (disabled : Bool) :
    Greeted (connectCalls env disabled) [] (setUpDirmngrAssuanConnection env disabled []) := by
  have hgreet : ∀ s, Greeted (.getInfo 0 :: startCalls env disabled) s
      (ifHandled (fun err => err.code = .assConnectFailed) (call env.answer (.getInfo 0))
        (startDirmngr env disabled) s) := by
    intro s
    rw [ifHandled_run]
    by_cases h : (env.answer s (.getInfo 0)).code = .assConnectFailed
    · simpa [call, h] using (greeted_startDirmngr env disabled _).cons env
    · simp only [call, h]
      exact ⟨⟨[(.getInfo 0, env.answer s (.getInfo 0))], rfl, by simp⟩, fun _ => ⟨_, _, rfl⟩⟩
  rw [setUpDirmngrAssuanConnection, ifNoError_assoc]
  exact greeted_ifNoError env (greeted_ifNoError env (hgreet _))

end connection

/-- What follows the connection. -/
def Query.send (env : Environment) (q : Query) : Calls Call Error Error := fun t =>
  (q.received (env.answer t q.sending), t ++ [(q.sending, env.answer t q.sending)])

theorem calls_eq (env : Environment) (q : Query) :
    q.calls env = ifNoError Error.asBool (setUpDirmngrAssuanConnection env (q.disabled env))
      (q.send env) := by
  cases q with
  | adQuery filter attributes options => rfl
  | wkdLookup email =>
    have hsend : WKDLookupJob.runWkdGet env (QString.toUtf8 email) =
        (Query.wkdLookup email).send env := by
      funext t
      exact ifHandled_pure env.answer _ Error.noError t
    rw [← hsend]
    rfl

/-- An error that counts as none is not reported. -/
def reported (err : Error) : Error := if err.asBool then err else Error.noError

/-- In every environment a job sends just its own query, once at most and as its last call, and
only after a greeting without error; where it is disabled, dirmngr is not started. -/
theorem sends_over_connection (env : Environment) (q : Query) : ∃ connection : Trace Call Error,
    connection.map Prod.fst <+: connectCalls env (q.disabled env) ∧
    ((q.run env []).2 = connection ∧ (q.run env []).1.asBool = true ∨
      (∃ t cnt err, connection = t ++ [(.getInfo cnt, err)] ∧ err.asBool = false) ∧
      (q.run env []).2 = connection ++ [(q.sending, env.answer connection q.sending)] ∧
      (q.run env []).1 = reported (q.received (env.answer connection q.sending))) := by
  obtain ⟨⟨t, ht, hpre⟩, hest⟩ := greeted_setUpDirmngrAssuanConnection env (q.disabled env)
  refine ⟨_, (ht.trans (List.nil_append t) ▸ hpre : _), ?_⟩
  rw [run_eq, calls_eq, ifNoError_run]
  cases herr : (setUpDirmngrAssuanConnection env (q.disabled env) []).1.asBool with
  | true => exact Or.inl ⟨by simp, by rw [if_pos rfl, if_pos herr]; exact herr⟩
  | false =>
    obtain ⟨u, cnt, hu⟩ := hest herr
    exact Or.inr ⟨⟨u, cnt, _, hu, herr⟩, rfl, rfl⟩

/-- A dirmngr: whether it has been launched, and the connections that were refused since. -/
structure Server where
  launched : Bool
  refused : Nat

namespace Server

def see (s : Server) : Call → Server
  | .spawn _ => ⟨true, 0⟩
  | .getInfo _ => ⟨s.launched, s.refused + 1⟩
  | _ => s

/-- It does not run at first. -/
def after (t : Trace Call Error) : Server := t.foldl (fun s c => s.see c.1) ⟨false, 0⟩

def accepts (s : Server) (delay : Nat) : Bool := s.launched && decide (delay ≤ s.refused)

theorem after_refusals (t : Trace Call Error) (cnt k : Nat) :
    after (t ++ refusals cnt k) = ⟨(after t).launched, (after t).refused + k⟩ := by
  induction k generalizing t cnt with
  | zero => simp [refusals]
  | succ k ih =>
    have hone : after (t ++ [(.getInfo cnt, Error.fromCode .assConnectFailed)]) =
        ⟨(after t).launched, (after t).refused + 1⟩ := by
      simp [after, see]
    rw [refusals_succ, List.append_cons, ih, hone, Nat.add_right_comm, Nat.add_assoc]

end Server

/-- The engine can be set up, and dirmngr refuses `delay` connections after its launch. -/
structure StartedOnDemand (env : Environment) (delay : Nat) : Prop where
  setEngineFileName : ∀ t name, env.answer t (.setEngineFileName name) = Error.noError
  setEngineHomeDirectory : ∀ t home, env.answer t (.setEngineHomeDirectory home) = Error.noError
  createSpawnContext : ∀ t, env.answer t .createSpawnContext = Error.noError
  spawn : ∀ t argv, env.answer t (.spawn argv) = Error.noError
  greeting : ∀ t cnt, env.answer t (.getInfo cnt) =
    if (Server.after t).accepts delay then Error.noError else Error.fromCode .assConnectFailed

section demand
variable {env : Environment} {delay : Nat}

/-- The trace when the first connection has been refused. -/
def refused (env : Environment) : Trace Call Error :=
  [(.setEngineFileName env.dirmngrSocket, Error.noError),
    (.setEngineHomeDirectory [], Error.noError),
    (.getInfo 0, Error.fromCode .assConnectFailed)]

def launched (env : Environment) : Trace Call Error :=
  refused env ++
    [(.createSpawnContext, Error.noError), (.spawn (spawnArguments env), Error.noError)]

theorem StartedOnDemand.setUp (h : StartedOnDemand env delay) (disabled : Bool) :
    setUpDirmngrAssuanConnection env disabled [] = startDirmngr env disabled (refused env) := by
  rw [setUpDirmngrAssuanConnection, ifNoError_assoc]
  simp [ifNoError_run, ifHandled_run, call, h.setEngineFileName, h.setEngineHomeDirectory,
    h.greeting, Server.after, Server.see, Server.accepts, Error.fromCode, refused]
  rfl

/-- The last of the five connections is the one with number `min delay 4`, counted from zero. -/
theorem StartedOnDemand.poll (h : StartedOnDemand env delay) :
    let err := if delay < 5 then Error.noError else Error.fromCode .assConnectFailed
    pollDirmngr env 1 4 (launched env) = (err, launched env ++ refusals 1 (min delay 4) ++
      [(.getInfo (1 + min delay 4), err)]) := by
  obtain ⟨k, hk, heq, hlast, hbefore⟩ := pollDirmngr_run env 1 4 (launched env)
  have hattempt : ∀ i, attempt env 1 (launched env) i =
      if delay ≤ i then Error.noError else Error.fromCode .assConnectFailed := by
    intro i
    rw [attempt, h.greeting, Server.after_refusals]
    simp [Server.accepts, launched, refused, Server.after, Server.see]
  have hle : k ≤ delay := by
    refine Nat.le_of_not_lt fun hlt => ?_
    have hrefused := hbefore delay hlt
    rw [hattempt, if_pos (Nat.le_refl delay)] at hrefused
    exact absurd (congrArg Error.code hrefused) (by decide)
  have hge : k < 4 → delay ≤ k := by
    intro hlt
    refine Nat.le_of_not_lt fun hk => hlast hlt ?_
    rw [hattempt, if_neg (Nat.not_le_of_lt hk)]
    rfl
  have hmin : k = min delay 4 := by omega
  have herr : attempt env 1 (launched env) k =
      if delay < 5 then Error.noError else Error.fromCode .assConnectFailed := by
    rw [hattempt]
    exact if_congr (by omega) rfl rfl
  rw [heq, herr, hmin]

theorem StartedOnDemand.start (h : StartedOnDemand env delay) :
    startDirmngr env false (refused env) = pollDirmngr env 1 4 (launched env) := by
  rw [startDirmngr, if_neg Bool.false_ne_true, ifNoError_assoc]
  simp [ifNoError_run, call, h.createSpawnContext, h.spawn, launched]
  rfl

theorem connected_calls (env : Environment) (delay : Nat) (err : Error) :
    (launched env ++ refusals 1 (min delay 4) ++ [(Call.getInfo (1 + min delay 4), err)]).map
      Prod.fst = (connectCalls env false).take (6 + delay) := by
  have hmap : (refusals 1 (min delay 4) ++ [(Call.getInfo (1 + min delay 4), err)]).map
      Prod.fst = (List.range' 1 (min delay 4 + 1)).map Call.getInfo := by
    rw [List.range'_1_concat]
    simp [refusals, Function.comp_def]
  have htake : (List.range' 1 5).take (delay + 1) = List.range' 1 (min delay 4 + 1) := by
    by_cases hlt : delay < 5
    · rw [List.take_range'_of_length_ge (by omega), Nat.min_eq_left (by omega)]
    · rw [List.take_range'_of_length_le (by omega), Nat.min_eq_right (by omega)]
  rw [List.append_assoc, List.map_append, hmap, ← htake, show 6 + delay = delay + 1 + 5 by omega]
  simp [connectCalls, startCalls, launched, refused, List.map_take]

/-- With a dirmngr that does not run, a query is sent exactly if dirmngr may be started and
refuses at most four connections then; up to there all is called in order, each once. -/
theorem StartedOnDemand.query_sent (h : StartedOnDemand env delay) (q : Query) :
    let sent : Bool := !q.disabled env && decide (delay < 5)
    (q.run env []).2.map Prod.fst = (connectCalls env (q.disabled env)).take (6 + delay) ++
      (if sent then [q.sending] else []) ∧
    (sent = false → (q.run env []).1 =
      Error.fromCode (if q.disabled env then .noDirmngr else .assConnectFailed)) := by
  rw [Dirmngr.run_eq, calls_eq, ifNoError_run, h.setUp]
  cases hd : q.disabled env with
  | true =>
    have hstart : startDirmngr env true (refused env) =
        (Error.fromCode .noDirmngr, refused env) := rfl
    have hcalls : (connectCalls env true).take (6 + delay) = (refused env).map Prod.fst :=
      List.take_of_length_le (by simp [connectCalls, startCalls]; omega)
    rw [hstart, hcalls]
    simp [Error.fromCode, Error.asBool, Error.isCanceled]
  | false =>
    rw [h.start, h.poll, ← connected_calls env delay Error.noError]
    by_cases hlt : delay < 5
    · simp [hlt, Query.send, Error.asBool_noError]
    · simp [hlt, Error.fromCode, Error.asBool, Error.isCanceled]

end demand

/-- An engine with such a dirmngr, which has no answer to any query. -/
def starting (delay : Nat) : Environment where
  answer t
    | .getInfo _ =>
      if (Server.after t).accepts delay then Error.noError else Error.fromCode .assConnectFailed
    | .adQuery _ => Error.fromCode .noData
    | .wkdGet _ => Error.fromCode .noData
    | _ => Error.noError
  transaction _ := ([], [])
  dirmngrSocket := utf8 "/run/user/1000/gnupg/S.dirmngr"
  gpgconfName := utf8 "/usr/bin/gpgconf"
  homedir := utf8 "/home/user/.gnupg"
  gpgDisableDirmngr := false
  gpgsmDisableDirmngr := true

/-- With the third connection, eight calls have been made when the query is sent. -/
theorem query_sent_third :
    (((Query.wkdLookup "a@b".toList).run (starting 2) []).2.map Prod.fst =
      (connectCalls (starting 2) false).take 8 ++ [(Query.wkdLookup "a@b".toList).sending]) := by
  have h : StartedOnDemand (starting 2) 2 := ⟨fun _ _ => rfl, fun _ _ => rfl, fun _ => rfl,
    fun _ _ => rfl, fun _ _ => rfl⟩
  exact (h.query_sent (.wkdLookup "a@b".toList)).1

namespace ADQueryJob

/-- What a call gets of a string that is passed as `c_str()`. -/
def cString (b : QByteArray) : QByteArray := b.takeWhile fun x => x ≠ 0

/-- A filter and attributes that a command can carry. -/
structure Sendable (filter : QString) (attributes : List QString) : Prop where
  filter : '\x00' ∉ filter
  attributes : ∀ name ∈ attributes, ' ' ∉ name ∧ ',' ∉ name ∧ '\x00' ∉ name

/-- The arguments in front of the mark that ends them. -/
def switches (attributes : List QString) (options : Options) : List QString :=
  (if options.rootDSE then ["--rootdse".toList] else []) ++
  (if options.substituteVariables then ["--subst".toList] else []) ++
  (if attributes ≠ [] then ["--attr=".toList ++ [','].intercalate attributes] else [])

theorem arguments_eq (filter : QString) (attributes : List QString) (options : Options) :
    arguments filter attributes options = switches attributes options ++ ["--".toList, filter] :=
  rfl

theorem mem_switches {attributes : List QString} {options : Options} {token : QString}
    (h : token ∈ switches attributes options) :
    token = "--rootdse".toList ∨ token = "--subst".toList ∨
      attributes ≠ [] ∧ token = "--attr=".toList ++ [','].intercalate attributes := by
  simp only [switches, List.mem_append, List.mem_ite_nil_right, List.mem_singleton] at h
  obtain (h | h) | h := h
  · exact Or.inl h.2
  · exact Or.inr (Or.inl h.2)
  · exact Or.inr (Or.inr h)

theorem Sendable.switches_plain {filter : QString} {attributes : List QString}
    (h : Sendable filter attributes) (options : Options) :
    ∀ token ∈ switches attributes options,
      (' ' ∉ token ∧ token ≠ "--".toList) ∧ '\x00' ∉ token := by
  intro token ht
  obtain rfl | rfl | ⟨-, rfl⟩ := mem_switches ht
  · decide
  · decide
  · have hjoin : ∀ c ∈ [','].intercalate attributes, c ≠ ' ' ∧ c ≠ '\x00' := by
      intro c hc
      obtain rfl | ⟨name, hn, hc⟩ := Separators.mem_intercalate hc
      · decide
      · obtain ⟨hspace, -, hzero⟩ := h.attributes name hn
        exact ⟨fun heq => hspace (heq ▸ hc), fun heq => hzero (heq ▸ hc)⟩
    refine ⟨⟨fun hc => ?_, by simp⟩, fun hc => ?_⟩
    · have hc := (List.mem_append.mp hc).resolve_left (by decide)
      exact (hjoin ' ' hc).1 rfl
    · have hc := (List.mem_append.mp hc).resolve_left (by decide)
      exact (hjoin '\x00' hc).2 rfl

/-- The command is not cut off where it is passed on. -/
theorem Sendable.cString_command {filter : QString} {attributes : List QString}
    (h : Sendable filter attributes) (options : Options) :
    cString (command filter attributes options) = command filter attributes options := by
  have hplain : '\x00' ∉ "AD_QUERY ".toList ++
      [' '].intercalate (switches attributes options ++ ["--".toList, filter]) := by
    intro hc
    have hc := (List.mem_append.mp hc).resolve_left (by decide)
    obtain hspace | ⟨token, ht, hc⟩ := Separators.mem_intercalate hc
    · exact absurd hspace (by decide)
    · obtain ht | ht := List.mem_append.mp ht
      · exact (h.switches_plain options token ht).2 hc
      · cases List.mem_pair.mp ht with
        | inl hend => exact absurd (hend ▸ hc) (by decide)
        | inr hfilter => exact h.filter (hfilter ▸ hc)
  have hzero : (0 : UInt8) ∉ command filter attributes options := by
    have hmem := Utf8.mem_encode_ascii (a := '\x00') (by decide) |>.not.mpr hplain
    rwa [Utf8.encode_append] at hmem
  exact List.takeWhile_eq_self_iff.mpr fun x hx => by
    simpa using fun hx0 : x = 0 => hzero (hx0 ▸ hx)

/-- A flag is no list of attributes. -/
theorem ne_attr {flag : QString} (h : flag.take 3 ≠ "--a".toList) (names : QString) :
    flag ≠ "--attr=".toList ++ names := by
  intro heq
  rw [heq, List.take_append_of_le_length (by decide)] at h
  exact h rfl

theorem rootDSE_mem_switches (attributes : List QString) (options : Options) :
    "--rootdse".toList ∈ switches attributes options ↔ options.rootDSE = true := by
  simp only [switches, List.mem_append, List.mem_ite_nil_right, List.mem_singleton]
  constructor
  · rintro ((h | h) | h)
    · exact h.1
    · exact absurd h.2 (by decide)
    · exact absurd h.2 (ne_attr (by decide) _)
  · exact fun h => Or.inl (Or.inl ⟨h, trivial⟩)

theorem subst_mem_switches (attributes : List QString) (options : Options) :
    "--subst".toList ∈ switches attributes options ↔ options.substituteVariables = true := by
  simp only [switches, List.mem_append, List.mem_ite_nil_right, List.mem_singleton]
  constructor
  · rintro ((h | h) | h)
    · exact absurd h.2 (by decide)
    · exact h.1
    · exact absurd h.2 (ne_attr (by decide) _)
  · exact fun h => Or.inl (Or.inr ⟨h, trivial⟩)

theorem switches_inj {attributes attributes' : List QString} {options options' : Options}
    (hcomma : ∀ name ∈ attributes, ',' ∉ name) (hcomma' : ∀ name ∈ attributes', ',' ∉ name)
    (heq : switches attributes options = switches attributes' options') :
    attributes = attributes' ∧ options = options' := by
  have hroot : options.rootDSE = options'.rootDSE := by
    rw [Bool.eq_iff_iff, ← rootDSE_mem_switches attributes, heq, rootDSE_mem_switches]
  have hsubst : options.substituteVariables = options'.substituteVariables := by
    rw [Bool.eq_iff_iff, ← subst_mem_switches attributes, heq, subst_mem_switches]
  have hoptions : options = options' := by
    cases options
    cases options'
    exact congrArg₂ Options.mk hroot hsubst
  rw [switches, switches, hroot, hsubst] at heq
  have hattr := List.append_cancel_left heq
  refine ⟨?_, hoptions⟩
  by_cases hnil : attributes = []
  · by_cases hnil' : attributes' = []
    · rw [hnil, hnil']
    · rw [if_neg (not_not.mpr hnil), if_pos hnil'] at hattr
      exact absurd hattr.symm (List.cons_ne_nil _ _)
  · by_cases hnil' : attributes' = []
    · rw [if_pos hnil, if_neg (not_not.mpr hnil')] at hattr
      exact absurd hattr (List.cons_ne_nil _ _)
    · rw [if_pos hnil, if_pos hnil'] at hattr
      have hjoin := List.append_cancel_left (List.singleton_inj.mp hattr)
      rw [← List.splitOn_intercalate ',' hcomma hnil, hjoin,
        List.splitOn_intercalate ',' hcomma' hnil']

/-- No two queries are sent with the same command. -/
theorem command_inj {filter filter' : QString} {attributes attributes' : List QString}
    (h : Sendable filter attributes) (h' : Sendable filter' attributes')
    (options options' : Options) :
    cString (command filter attributes options) = cString (command filter' attributes' options') ↔
      filter = filter' ∧ attributes = attributes' ∧ options = options' := by
  constructor
  · intro heq
    rw [h.cString_command, h'.cString_command, command, command] at heq
    have hargs := congrArg Utf8.decode (List.append_cancel_left heq)
    rw [QString.toUtf8, QString.toUtf8, Utf8.decode_encode, Utf8.decode_encode, arguments_eq,
      arguments_eq] at hargs
    obtain ⟨hswitches, hfilter⟩ := Separators.intercalate_marked_inj (by decide)
      (fun token ht => (h.switches_plain options token ht).1)
      (fun token ht => (h'.switches_plain options' token ht).1) hargs
    exact ⟨hfilter, switches_inj (fun name hn => (h.attributes name hn).2.1)
      (fun name hn => (h'.attributes name hn).2.1) hswitches⟩
  · rintro ⟨rfl, rfl, rfl⟩
    rfl

/-- A filter may hold spaces and even the mark. -/
theorem command_inj_marks :
    cString (command "(cn=a -- b)".toList ["mail".toList, "sn".toList] ⟨true, false⟩) ≠
      cString (command "b)".toList ["mail".toList] ⟨true, false⟩) := by
  have h : Sendable "(cn=a -- b)".toList ["mail".toList, "sn".toList] :=
    ⟨by decide, by decide⟩
  have h' : Sendable "b)".toList ["mail".toList] := ⟨by decide, by decide⟩
  intro heq
  exact absurd ((command_inj h h' ⟨true, false⟩ ⟨true, false⟩).mp heq).1 (by decide)

end ADQueryJob

end QGpgME.Dirmngr
