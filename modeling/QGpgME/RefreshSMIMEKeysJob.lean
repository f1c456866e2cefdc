import QGpgME.EventRun
import QGpgME.GpgError
import QGpgME.QtString
import Mathlib.Tactic.SplitIfs

/-! QGpgMERefreshSMIMEKeysJob as an event-driven machine: the patterns are handed to one
gpgsm process after the other, each time as many as the command line can take. -/
namespace QGpgME.RefreshSMIMEKeysJob
open EventRun

/-- `QProcess::ExitStatus` -/
inductive ExitStatus where
  | normalExit | crashExit
deriving DecidableEq

inductive Protocol where
  | openPGP | cms | unknown
deriving DecidableEq

structure Key where
  protocol : Protocol
  primaryFingerprint : QByteArray

def toFingerprints (keys : List Key) : List QString :=
  keys.map fun k => QString.fromLatin1 k.primaryFingerprint

def maxCmdLength : UInt32 := 32768

def program : QString := "gpgsm".toList

def options : List QString :=
  ["-k".toList, "--with-validation".toList, "--force-crl-refresh".toList,
    "--enable-crl-checks".toList]

/-- The room left for patterns, each followed by one separator. -/
def patternBudget : UInt32 :=
  maxCmdLength - UInt32.ofNat ((program :: options).map fun a => a.length + 1).sum

/-- The loop of startAProcess: the arguments, the patterns left and the budget left. -/
def takePatterns : UInt32 → List QString → List QString × List QString × UInt32
  | commandLineLength, [] => ([], [], commandLineLength)
  | commandLineLength, p :: ps =>
    let pat := (QString.toUtf8 p).trimmed
    let patLength := UInt32.ofNat pat.length
    if patLength ≥ commandLineLength then ([], p :: ps, commandLineLength)
    else if pat = [] then takePatterns commandLineLength ps
    else
      let (arguments, rest) := takePatterns (commandLineLength - (patLength + 1)) ps
      (QString.fromLatin1 pat :: arguments, rest)

inductive Channel where
  | standardOutput | standardError
deriving DecidableEq

/-- What the job asks of its processes or emits, in order. Processes are numbered; reading
from none stands for the call on a null pointer. -/
inductive Output where
  | startProcess (arguments : List QString) (started : Bool)
  | kill (process : Nat)
  | readAll (channel : Channel) (process : Option Nat)
  | done
  | result (err : Error)
  | deleteLater
deriving DecidableEq

/-- Who is going to call slotProcessExited: the running process, or the call queued for an
empty list of keys. -/
inductive PendingExit where
  | process | queued
deriving DecidableEq

/-- The last five fields observe the job: the exit that is still to come, the arguments of
the processes started, how they exited, how many had been started when slotCancel was first
called before the result, and the outputs. -/
structure Job where
  mProcess : Option Nat
  mError : Error
  mPatternsToDo : List QString
  pendingExit : Option PendingExit
  processes : List (List QString)
  exits : List (Int × ExitStatus)
  canceledAt : Option Nat
  outputs : List Output

namespace Job

def new : Job := ⟨none, Error.noError, [], none, [], [], none, []⟩

def emit (s : Job) (os : List Output) : Job := { s with outputs := s.outputs ++ os }

/-- The result has been emitted. -/
def emitted (s : Job) : Bool := s.outputs.any fun o => match o with
  | .result _ => true
  | _ => false

def nextArguments (s : Job) : List QString :=
  options ++ (takePatterns patternBudget s.mPatternsToDo).1

def createProcess (s : Job) (started : Bool) : Job :=
  { s with
    mProcess := some s.processes.length
    mPatternsToDo := (takePatterns patternBudget s.mPatternsToDo).2.1
    outputs := s.outputs ++ [.startProcess s.nextArguments started] }

def running (s : Job) : Job :=
  { s.createProcess true with
    pendingExit := some .process
    processes := s.processes ++ [s.nextArguments] }

def notStarted (s : Job) : Job :=
  { (s.createProcess false).emit [.deleteLater] with mError := Error.fromCode .enoent }

/-- `started` is what waitForStarted returns. -/
def startAProcess (s : Job) (started : Bool) : Job × Error :=
  if s.mPatternsToDo = [] then (s, Error.noError)
  else if started then (s.running, Error.noError)
  else (s.notStarted, s.notStarted.mError)

def start (patterns : List QString) (started : Bool) : Job × Error :=
  let patterns := if patterns = [] then [[' ']] else patterns
  startAProcess { new with mPatternsToDo := patterns } started

def startKeys (keys : List Key) (started : Bool) : Job × Error :=
  if keys = [] then ({ new with pendingExit := some .queued }, Error.noError)
  else if keys.any fun k => k.protocol ≠ .cms then (new, Error.fromCode .invValue)
  else start (toFingerprints keys) started

def slotCancel (s : Job) : Job :=
  let canceledAt := if s.emitted then none else some s.processes.length
  { s with
    mProcess := none
    mError := Error.fromCode .canceled
    canceledAt := s.canceledAt.or canceledAt
    outputs := s.outputs ++ s.mProcess.toList.map .kill }

/-- An unclean exit of the last process counts only where no error is stored. -/
def finalError (s : Job) (exitCode : Int) (exitStatus : ExitStatus) : Error :=
  if !s.mError.asBool && (exitStatus ≠ .normalExit || exitCode ≠ 0)
  then Error.fromCode .general else s.mError

/-- The part of slotProcessExited that ends the job. -/
def finish (s : Job) (exitCode : Int) (exitStatus : ExitStatus) : Job :=
  let s := s.emit [.done]
  let s := { s with mError := s.finalError exitCode exitStatus }
  s.emit [.result s.mError, .deleteLater]

def slotProcessExited (s : Job) (exitCode : Int) (exitStatus : ExitStatus) (started : Bool) :
    Job :=
  if !s.mError.asBool && s.mPatternsToDo ≠ [] then
    let (s, err) := s.startAProcess started
    if err.asBool then { s with mError := err }.finish exitCode exitStatus else s
  else s.finish exitCode exitStatus

end Job

/-- The exit to come is delivered (`started` says whether the next process starts, should
there be one), somebody calls slotCancel, or the running process has output to read. -/
inductive Event where
  | exited (exitCode : Int) (exitStatus : ExitStatus) (started : Bool)
  | cancel
  | readyRead (channel : Channel)

def step (s : Job) : Event → Option Job
  | .exited exitCode exitStatus started =>
    match s.pendingExit with
    | none => none
    | some .queued =>
      if exitCode = 0 ∧ exitStatus = .normalExit then
        some ({ s with pendingExit := none }.slotProcessExited exitCode exitStatus started)
      else none
    | some .process =>
      some ({ s with pendingExit := none, exits := s.exits ++ [(exitCode, exitStatus)] }
        |>.slotProcessExited exitCode exitStatus started)
  | .cancel => some s.slotCancel
  | .readyRead channel =>
    match s.pendingExit with
    | some .process => some (s.emit [.readAll channel s.mProcess])
    | _ => none

/-- The states in which a successful start leaves the job. -/
inductive Started : Job → Prop where
  | patterns (patterns : List QString) (started : Bool)
      (h : (Job.start patterns started).2.asBool = false) : Started (Job.start patterns started).1
  | keys (keys : List Key) (started : Bool)
      (h : (Job.startKeys keys started).2.asBool = false) : Started (Job.startKeys keys started).1

namespace Job

theorem finish_eq (s : Job) (exitCode : Int) (exitStatus : ExitStatus) :
    s.finish exitCode exitStatus = { s with
      mError := s.finalError exitCode exitStatus
      outputs := s.outputs ++ [.done, .result (s.finalError exitCode exitStatus),
        .deleteLater] } := by
  simp [finish, emit, finalError]

theorem mem_finish {s : Job} {exitCode : Int} {exitStatus : ExitStatus} {e : Error} :
    Output.result e ∈ (s.finish exitCode exitStatus).outputs ↔
      Output.result e ∈ s.outputs ∨ e = s.finalError exitCode exitStatus := by
  simp [finish_eq]

theorem finalError_eq {s : Job} {exitCode : Int} {exitStatus : ExitStatus}
    (h : s.mError.asBool = true ∨ (exitCode = 0 ∧ exitStatus = .normalExit)) :
    s.finalError exitCode exitStatus = s.mError := by
  cases h with
  | inl h => simp [finalError, h]
  | inr hclean =>
    obtain ⟨rfl, rfl⟩ := hclean
    simp [finalError]

/-- Success is reported only without a stored error and after a clean exit. -/
theorem finalError_noError {s : Job} {exitCode : Int} {exitStatus : ExitStatus}
    (h : (s.finalError exitCode exitStatus).code = .noError) :
    s.mError.code = .noError ∧ exitCode = 0 ∧ exitStatus = .normalExit := by
  simp only [finalError] at h
  split_ifs at h with hc
  · simp [Error.fromCode] at h
  · have hf : s.mError.asBool = false := by simp [Error.asBool, h]
    simp only [hf, Bool.not_false, Bool.true_and, Bool.or_eq_true, decide_eq_true_eq,
      not_or, not_not] at hc
    exact ⟨h, hc.2, hc.1⟩

theorem mem_running {s : Job} {e : Error} :
    Output.result e ∈ s.running.outputs ↔ Output.result e ∈ s.outputs := by
  simp [running, createProcess]

theorem mem_notStarted {s : Job} {e : Error} :
    Output.result e ∈ s.notStarted.outputs ↔ Output.result e ∈ s.outputs := by
  simp [notStarted, createProcess, emit]

theorem mem_slotCancel {s : Job} {e : Error} :
    Output.result e ∈ s.slotCancel.outputs ↔ Output.result e ∈ s.outputs := by
  simp [slotCancel]

theorem emitted_eq_false {s : Job} :
    s.emitted = false ↔ ∀ e, Output.result e ∉ s.outputs := by
  simp only [emitted, List.any_eq_false]
  constructor
  · intro h e hm
    exact h _ hm rfl
  · intro h o hm
    cases o with
    | result e => exact absurd hm (h e)
    | _ => simp

/-- Everything an exit can lead to: the job ends, the next process runs, or the next process
does not start and the job ends. -/
theorem slotProcessExited_cases (s : Job) (exitCode : Int) (exitStatus : ExitStatus)
    (started : Bool) :
    ((s.mError.asBool = true ∨ s.mPatternsToDo = []) ∧
      s.slotProcessExited exitCode exitStatus started = s.finish exitCode exitStatus) ∨
    (s.mError.asBool = false ∧ s.mPatternsToDo ≠ [] ∧
      ((started = true ∧ s.slotProcessExited exitCode exitStatus started = s.running) ∨
      (started = false ∧ s.slotProcessExited exitCode exitStatus started =
        s.notStarted.finish exitCode exitStatus))) := by
  by_cases hp : s.mPatternsToDo = []
  · exact Or.inl ⟨Or.inr hp, by simp [slotProcessExited, hp]⟩
  · cases he : s.mError.asBool with
    | true => exact Or.inl ⟨Or.inl rfl, by simp [slotProcessExited, he]⟩
    | false =>
      refine Or.inr ⟨rfl, hp, ?_⟩
      cases started with
      | true =>
        refine Or.inl ⟨rfl, ?_⟩
        simp [slotProcessExited, startAProcess, he, hp, Error.asBool_noError]
      | false =>
        refine Or.inr ⟨rfl, ?_⟩
        have hn : s.notStarted.mError.asBool = true := by
          simp [notStarted, Error.fromCode, Error.asBool, Error.isCanceled]
        simp [slotProcessExited, startAProcess, he, hp, hn]

theorem start_eq (patterns : List QString) :
    start patterns true =
      (running { new with mPatternsToDo := if patterns = [] then [[' ']] else patterns },
        Error.noError) := by
  by_cases h : patterns = [] <;> simp [start, startAProcess, h]

theorem start_not_started (patterns : List QString) :
    (start patterns false).2.asBool = true := by
  by_cases h : patterns = [] <;>
    simp [start, startAProcess, h, notStarted, Error.fromCode, Error.asBool, Error.isCanceled]

end Job

theorem Started.cases {s : Job} (h : Started s) :
    (∃ patterns, s = Job.running { Job.new with mPatternsToDo := patterns }) ∨
      s = { Job.new with pendingExit := some .queued } := by
  have hstart : ∀ patterns started, (Job.start patterns started).2.asBool = false →
      ∃ ps, (Job.start patterns started).1 =
        Job.running { Job.new with mPatternsToDo := ps } := by
    intro patterns started h
    cases started with
    | true => exact ⟨_, by rw [Job.start_eq]⟩
    | false => simp [Job.start_not_started] at h
  cases h with
  | patterns patterns started h => exact Or.inl (hstart patterns started h)
  | keys keys started h =>
    simp only [Job.startKeys] at h ⊢
    split_ifs at h ⊢
    · exact Or.inr rfl
    · simp [Error.fromCode, Error.asBool, Error.isCanceled] at h
    · exact Or.inl (hstart _ started h)

/-- A step delivers the exit that is still to come, cancels, or only adds to the outputs. -/
theorem step_cases {s t : Job} {e : Event} (h : step s e = some t) :
    (∃ exitCode exitStatus started exits, e = .exited exitCode exitStatus started ∧
      ((s.pendingExit = some .process ∧ exits = s.exits ++ [(exitCode, exitStatus)]) ∨
        (s.pendingExit = some .queued ∧ exits = s.exits ∧ exitCode = 0 ∧
          exitStatus = .normalExit)) ∧
      t = { s with pendingExit := none, exits := exits }.slotProcessExited exitCode exitStatus
        started) ∨
    (e = .cancel ∧ t = s.slotCancel) ∨
    ∃ channel, e = .readyRead channel ∧ t = s.emit [.readAll channel s.mProcess] := by
  cases e with
  | exited exitCode exitStatus started =>
    refine Or.inl ⟨exitCode, exitStatus, started, ?_⟩
    simp only [step] at h
    split at h
    · simp at h
    · next hq =>
      split_ifs at h with hc
      exact ⟨_, rfl, Or.inr ⟨hq, rfl, hc⟩, (Option.some.inj h).symm⟩
    · next hp => exact ⟨_, rfl, Or.inl ⟨hp, rfl⟩, (Option.some.inj h).symm⟩
  | cancel => exact Or.inr (Or.inl ⟨rfl, (Option.some.inj h).symm⟩)
  | readyRead channel =>
    refine Or.inr (Or.inr ⟨channel, rfl, ?_⟩)
    simp only [step] at h
    split at h
    · exact (Option.some.inj h).symm
    · simp at h

section loop
variable {room : UInt32} {p : QString}

theorem takePatterns_stop (h : UInt32.ofNat (QString.toUtf8 p).trimmed.length ≥ room)
    (ps : List QString) : takePatterns room (p :: ps) = ([], p :: ps, room) := by
  simp only [takePatterns, h, if_true]

theorem takePatterns_skip (h : ¬UInt32.ofNat (QString.toUtf8 p).trimmed.length ≥ room)
    (hblank : (QString.toUtf8 p).trimmed = []) (ps : List QString) :
    takePatterns room (p :: ps) = takePatterns room ps := by
  rw [hblank] at h
  simp only [takePatterns, hblank, h, if_false, if_true]

theorem takePatterns_pass (h : ¬UInt32.ofNat (QString.toUtf8 p).trimmed.length ≥ room)
    (hne : (QString.toUtf8 p).trimmed ≠ []) (ps : List QString) :
    takePatterns room (p :: ps) =
      (QString.fromLatin1 (QString.toUtf8 p).trimmed ::
          (takePatterns (room - (UInt32.ofNat (QString.toUtf8 p).trimmed.length + 1)) ps).1,
        (takePatterns (room - (UInt32.ofNat (QString.toUtf8 p).trimmed.length + 1)) ps).2) := by
  simp only [takePatterns, h, hne, if_false]

end loop

theorem takePatterns_zero (ps : List QString) : takePatterns 0 ps = ([], ps, 0) := by
  cases ps with
  | nil => rfl
  | cons p ps => exact takePatterns_stop UInt32.zero_le ps

/-- A pattern that leaves no room for another one. -/
def FillsCommandLine (p : QString) : Prop := (QString.toUtf8 p).trimmed.length = 32700

theorem takePatterns_full {p : QString} (h : FillsCommandLine p) (ps : List QString) :
    takePatterns patternBudget (p :: ps) =
      ([QString.fromLatin1 (QString.toUtf8 p).trimmed], ps, 0) := by
  have hlen : (QString.toUtf8 p).trimmed.length = 32700 := h
  have hne : (QString.toUtf8 p).trimmed ≠ [] := by
    intro h0
    simp [h0] at hlen
  have hfit : ¬UInt32.ofNat (QString.toUtf8 p).trimmed.length ≥ patternBudget := by
    rw [hlen]
    decide
  have hleft : patternBudget - (UInt32.ofNat (QString.toUtf8 p).trimmed.length + 1) = 0 := by
    rw [hlen]
    decide
  rw [takePatterns_pass hfit hne, hleft, takePatterns_zero]

def longPattern : QString := List.replicate 32700 'a'

theorem length_trimmed_replicate (n : Nat) :
    (QString.toUtf8 (List.replicate n 'a')).trimmed.length = n := by
  have hmem : ∀ c ∈ List.replicate n 'a', c = 'a' := fun c hc => List.eq_of_mem_replicate hc
  have hascii : ∀ c ∈ List.replicate n 'a', Utf8.Ascii c := by
    intro c hc
    rw [hmem c hc]
    decide
  have htrim : QString.asciiTrimmed (List.replicate n 'a') = List.replicate n 'a' := by
    refine trimBy_eq_self fun c hc => ?_
    rw [hmem c hc]
    decide
  rw [QString.trimmed_toUtf8, htrim, QString.toUtf8, Utf8.length_encode_eq_iff.mpr hascii,
    List.length_replicate]

theorem longPattern_fills : FillsCommandLine longPattern := length_trimmed_replicate 32700

section cancellation

/-- Cancellation is final: no process is started any more, and only the cancellation is
ever reported. -/
def CancelFinal (s : Job) : Prop := ∀ n, s.canceledAt = some n →
  s.processes.length = n ∧ ∀ e, Output.result e ∈ s.outputs → e.code = .canceled

/-- The exits a canceled job copes with: a clean one when no patterns are left. -/
def QuietExit (s : Job) : Event → Prop
  | .exited exitCode exitStatus _ => s.canceledAt ≠ none →
      s.mPatternsToDo = [] ∧ exitCode = 0 ∧ exitStatus = .normalExit
  | _ => True

structure CancelInv (s : Job) : Prop where
  stored : s.canceledAt ≠ none → s.mError.code = .canceled
  final : CancelFinal s

theorem CancelInv.of_not_canceled {s : Job} (h : s.canceledAt = none) : CancelInv s :=
  ⟨fun hc => absurd h hc, fun n hn => by simp [h] at hn⟩

theorem slotCancel_cancelInv {s : Job} (h : CancelInv s) : CancelInv s.slotCancel := by
  refine ⟨fun _ => rfl, fun n hn => ?_⟩
  cases hc : s.canceledAt with
  | some m =>
    obtain rfl : m = n := by simpa [Job.slotCancel, hc] using hn
    obtain ⟨hlen, hres⟩ := h.final m hc
    exact ⟨hlen, fun e he => hres e (Job.mem_slotCancel.mp he)⟩
  | none =>
    cases hem : s.emitted with
    | true => simp [Job.slotCancel, hc, hem] at hn
    | false =>
      have hlen : s.processes.length = n := by simpa [Job.slotCancel, hc, hem] using hn
      refine ⟨hlen, fun e he => ?_⟩
      exact absurd (Job.mem_slotCancel.mp he) (Job.emitted_eq_false.mp hem e)

theorem step_cancelInv (s : Job) (e : Event) (t : Job) (h : CancelInv s) (hq : QuietExit s e)
    (ht : step s e = some t) : CancelInv t := by
  obtain ⟨exitCode, exitStatus, started, exits, rfl, -, rfl⟩ | ⟨-, rfl⟩ | ⟨channel, -, rfl⟩ :=
    step_cases ht
  · by_cases hc : s.canceledAt = none
    · refine .of_not_canceled ?_
      obtain ⟨-, ht⟩ | ⟨-, -, ⟨-, ht⟩ | ⟨-, ht⟩⟩ :=
        Job.slotProcessExited_cases { s with pendingExit := none, exits := exits } exitCode
          exitStatus started
      · rw [ht, Job.finish_eq]
        exact hc
      · rw [ht]
        exact hc
      · rw [ht, Job.finish_eq]
        exact hc
    · -- nothing is left to do, and the exit does not replace the stored error
      obtain ⟨hp, hexit⟩ := hq hc
      have hstored := h.stored hc
      have ht : Job.slotProcessExited { s with pendingExit := none, exits := exits } exitCode
          exitStatus started =
          Job.finish { s with pendingExit := none, exits := exits } exitCode exitStatus := by
        simp [Job.slotProcessExited, hp]
      have hfin := Job.finalError_eq (s := { s with pendingExit := none, exits := exits })
        (Or.inr hexit)
      rw [ht]
      refine ⟨fun _ => ?_, fun n hn => ?_⟩
      · rw [Job.finish_eq, hfin]
        exact hstored
      · rw [Job.finish_eq] at hn
        obtain ⟨hlen, hres⟩ := h.final n hn
        refine ⟨by rw [Job.finish_eq]; exact hlen, fun e he => ?_⟩
        cases Job.mem_finish.mp he with
        | inl he => exact hres e he
        | inr heq =>
          obtain rfl := heq
          rw [hfin]
          exact hstored
  · exact slotCancel_cancelInv h
  · refine ⟨h.stored, fun n hn => ?_⟩
    obtain ⟨hlen, hres⟩ := h.final n hn
    exact ⟨hlen, fun e he => hres e (by simpa [Job.emit] using he)⟩

theorem Started.not_canceled {s : Job} (h : Started s) : s.canceledAt = none := by
  obtain ⟨patterns, rfl⟩ | rfl := h.cases <;> rfl

/-- In a run in which every exit of a canceled job is clean and finds no patterns left,
cancellation is final in every state. -/
theorem cancelFinal_of_quiet_exits (s : Job) (hs : Started s) (es : List Event) (t : Job)
    (hq : Along step QuietExit es s) (ht : run step es s = some t) : CancelFinal t :=
  (run_invariant step_cancelInv (.of_not_canceled hs.not_canceled) hq ht).final

theorem cancelFinal_one_pattern :
    CancelFinal ((run step [.cancel, .exited 0 .normalExit true]
      (Job.start [['a']] true).1).get rfl) :=
  cancelFinal_of_quiet_exits _ (.patterns [['a']] true rfl) [.cancel, .exited 0 .normalExit true]
    _ (along_cons trivial rfl (along_cons (fun _ => ⟨rfl, rfl, rfl⟩) rfl trivial)) rfl

theorem process_started_after_cancel {p : QString} (h : FillsCommandLine p) :
    ∃ t, run step [.cancel, .exited 9 .crashExit true] (Job.start [p, ['b']] true).1 = some t ∧
      t.canceledAt = some 1 ∧ t.processes.length = 2 := by
  have hp := takePatterns_full h [['b']]
  have hb : takePatterns patternBudget [['b']] = ([['b']], [], 32699) := by decide
  have hc : (Error.fromCode .canceled).asBool = false := rfl
  simp [run, step, Job.start, Job.startAProcess, Job.running, Job.createProcess, Job.slotCancel,
    Job.emitted, Job.slotProcessExited, hp, hb, hc, Job.new, Error.asBool_noError]

/-- The exit of the killed process replaces the cancellation by a general error, or starts
the next process where patterns are left. -/
theorem cancel_not_final :
    (∃ t, run step [.cancel, .exited 9 .crashExit true] (Job.start [['a']] true).1 = some t ∧
      Output.result (Error.fromCode .general) ∈ t.outputs ∧ ¬CancelFinal t) ∧
    ∃ t, run step [.cancel, .exited 9 .crashExit true]
        (Job.start [longPattern, ['b']] true).1 = some t ∧
      t.processes.length = 2 ∧ ¬CancelFinal t := by
  constructor
  · refine ⟨_, rfl, by decide, fun h => ?_⟩
    exact absurd ((h 1 rfl).2 (Error.fromCode .general) (by decide)) (by decide)
  · obtain ⟨t, ht, hc, hlen⟩ := process_started_after_cancel longPattern_fills
    refine ⟨t, ht, hlen, fun h => ?_⟩
    have := (h 1 hc).1
    omega

end cancellation

section failures

/-- Success means that every process started has exited, normally and with code 0. -/
def SuccessTrue (s : Job) : Prop :=
  ∀ e, Output.result e ∈ s.outputs → e.code = .noError →
    s.exits.length = s.processes.length ∧ ∀ x ∈ s.exits, x = (0, .normalExit)

/-- No process fails while patterns are left and nothing else has gone wrong. -/
def CleanBatch (s : Job) : Event → Prop
  | .exited exitCode exitStatus _ => s.mError.code = .noError → s.mPatternsToDo ≠ [] →
      exitCode = 0 ∧ exitStatus = .normalExit
  | _ => True

/-- At most one process has not exited yet, and the result waits for its exit. -/
structure SuccessInv (s : Job) : Prop where
  counted : s.exits.length + (if s.pendingExit = some .process then 1 else 0) = s.processes.length
  waiting : s.pendingExit ≠ none → ∀ e, Output.result e ∉ s.outputs
  clean : s.pendingExit ≠ none → s.mError.code = .noError → ∀ x ∈ s.exits, x = (0, .normalExit)
  success : SuccessTrue s

theorem finish_successInv {s : Job} {exitCode : Int} {exitStatus : ExitStatus}
    (hp : s.pendingExit = none) (hlen : s.exits.length = s.processes.length)
    (hres : ∀ e, Output.result e ∉ s.outputs)
    (hclean : s.mError.code = .noError → exitCode = 0 → exitStatus = .normalExit →
      ∀ x ∈ s.exits, x = (0, .normalExit)) :
    SuccessInv (s.finish exitCode exitStatus) := by
  refine ⟨?_, fun h => ?_, fun h => ?_, fun e he hcode => ?_⟩
  · rw [Job.finish_eq]
    simp [hp, hlen]
  · rw [Job.finish_eq] at h
    exact absurd hp h
  · rw [Job.finish_eq] at h
    exact absurd hp h
  · obtain he | rfl := Job.mem_finish.mp he
    · exact absurd he (hres e)
    · obtain ⟨h0, h1, h2⟩ := Job.finalError_noError hcode
      rw [Job.finish_eq]
      exact ⟨hlen, hclean h0 h1 h2⟩

theorem running_successInv {s : Job} (hlen : s.exits.length = s.processes.length)
    (hres : ∀ e, Output.result e ∉ s.outputs)
    (hclean : s.mError.code = .noError → ∀ x ∈ s.exits, x = (0, .normalExit)) :
    SuccessInv s.running := by
  have hres' : ∀ e, Output.result e ∉ s.running.outputs :=
    fun e he => hres e (Job.mem_running.mp he)
  refine ⟨?_, fun _ => hres', fun _ => hclean, fun e he => absurd he (hres' e)⟩
  simp [Job.running, Job.createProcess, hlen]

theorem slotCancel_successInv {s : Job} (h : SuccessInv s) : SuccessInv s.slotCancel := by
  refine ⟨h.counted, fun hp e he => h.waiting hp e (Job.mem_slotCancel.mp he), fun _ hc => ?_,
    fun e he => h.success e (Job.mem_slotCancel.mp he)⟩
  simp [Job.slotCancel, Error.fromCode] at hc

theorem step_successInv (s : Job) (e : Event) (t : Job) (h : SuccessInv s) (hc : CleanBatch s e)
    (ht : step s e = some t) : SuccessInv t := by
  obtain ⟨exitCode, exitStatus, started, exits, rfl, hexits, rfl⟩ | ⟨-, rfl⟩ | ⟨channel, -, rfl⟩ :=
    step_cases ht
  · have hlen : exits.length = s.processes.length := by
      have hcount := h.counted
      obtain ⟨hp, rfl⟩ | ⟨hp, rfl, -⟩ := hexits <;> simpa [hp] using hcount
    have hpend : s.pendingExit ≠ none := by
      obtain ⟨hp, -⟩ | ⟨hp, -⟩ := hexits <;> simp [hp]
    have hres := h.waiting hpend
    have hall : s.mError.code = .noError → exitCode = 0 → exitStatus = .normalExit →
        ∀ x ∈ exits, x = (0, .normalExit) := by
      intro hcode h0 h1 x hx
      have hold := h.clean hpend hcode
      cases hexits with
      | inl hprocess =>
        obtain ⟨-, rfl⟩ := hprocess
        cases List.mem_append.mp hx with
        | inl hx => exact hold x hx
        | inr hx => simpa [h0, h1] using hx
      | inr hqueued =>
        obtain ⟨-, rfl, -⟩ := hqueued
        exact hold x hx
    obtain ⟨-, ht⟩ | ⟨-, hp, ⟨-, ht⟩ | ⟨-, ht⟩⟩ :=
      Job.slotProcessExited_cases { s with pendingExit := none, exits := exits } exitCode
        exitStatus started
    · rw [ht]
      exact finish_successInv rfl hlen hres hall
    · rw [ht]
      refine running_successInv hlen hres fun hcode => ?_
      obtain ⟨h0, h1⟩ := hc hcode hp
      exact hall hcode h0 h1
    · rw [ht]
      refine finish_successInv rfl hlen (fun e he => hres e (Job.mem_notStarted.mp he)) ?_
      intro hcode
      simp [Job.notStarted, Error.fromCode] at hcode
  · exact slotCancel_successInv h
  · have hmem : ∀ e, Output.result e ∈ (s.emit [.readAll channel s.mProcess]).outputs ↔
        Output.result e ∈ s.outputs := by
      intro e
      simp [Job.emit]
    exact ⟨h.counted, fun hp e he => h.waiting hp e ((hmem e).mp he), h.clean,
      fun e he => h.success e ((hmem e).mp he)⟩

theorem Started.successInv {s : Job} (h : Started s) : SuccessInv s := by
  cases h.cases with
  | inl hrunning =>
    obtain ⟨patterns, rfl⟩ := hrunning
    exact running_successInv rfl (by simp [Job.new]) (by simp [Job.new])
  | inr hqueued =>
    obtain rfl := hqueued
    refine ⟨rfl, ?_, ?_, ?_⟩ <;> simp [Job.new, SuccessTrue]

/-- In a run in which no process fails while patterns are left, success is reported only
when all processes succeeded. -/
theorem successTrue_of_clean_batches (s : Job) (hs : Started s) (es : List Event) (t : Job)
    (hc : Along step CleanBatch es s) (ht : run step es s = some t) : SuccessTrue t :=
  (run_invariant step_successInv hs.successInv hc ht).success

theorem successTrue_one_pattern :
    SuccessTrue ((run step [.exited 0 .normalExit true] (Job.start [['a']] true).1).get rfl) :=
  successTrue_of_clean_batches _ (.patterns [['a']] true rfl) [.exited 0 .normalExit true] _
    (along_cons (fun _ _ => ⟨rfl, rfl⟩) rfl trivial) rfl

/-- The first of two processes fails, the second one succeeds: success is reported. -/
theorem failure_forgotten_of_full {p : QString} (h : FillsCommandLine p) :
    ∃ t, run step [.exited 2 .normalExit true, .exited 0 .normalExit true]
        (Job.start [p, ['b']] true).1 = some t ∧
      Output.result Error.noError ∈ t.outputs ∧ (2, ExitStatus.normalExit) ∈ t.exits := by
  have hp := takePatterns_full h [['b']]
  have hb : takePatterns patternBudget [['b']] = ([['b']], [], 32699) := by decide
  simp [run, step, Job.start, Job.startAProcess, Job.running, Job.createProcess,
    Job.slotProcessExited, Job.finish_eq, Job.finalError, hp, hb, Job.new, Error.asBool_noError]

theorem failure_forgotten :
    ∃ t, run step [.exited 2 .normalExit true, .exited 0 .normalExit true]
        (Job.start [longPattern, ['b']] true).1 = some t ∧
      Output.result Error.noError ∈ t.outputs ∧ (2, ExitStatus.normalExit) ∈ t.exits ∧
      ¬SuccessTrue t := by
  obtain ⟨t, ht, hres, hexit⟩ := failure_forgotten_of_full longPattern_fills
  refine ⟨t, ht, hres, hexit, fun h => ?_⟩
  simpa using (h _ hres rfl).2 _ hexit

end failures

namespace Job

end Job

/-- What becomes of one pattern. -/
def passed (p : QString) : List QString :=
  if p.asciiTrimmed = [] then [] else [QString.fromLatin1 (QString.toUtf8 p.asciiTrimmed)]

theorem trimmed_toUtf8_eq_nil {p : QString} :
    (QString.toUtf8 p).trimmed = [] ↔ p.asciiTrimmed = [] := by
  rw [QString.trimmed_toUtf8]
  exact Utf8.encode_eq_nil_iff

/-- The loop takes patterns from the front and passes on those that are not blank. -/
theorem takePatterns_spec (budget : UInt32) (ps : List QString) :
    ∃ taken, ps = taken ++ (takePatterns budget ps).2.1 ∧
      (takePatterns budget ps).1 = taken.flatMap passed := by
  induction ps generalizing budget with
  | nil => exact ⟨[], rfl, rfl⟩
  | cons p ps ih =>
    by_cases hstop : UInt32.ofNat (QString.toUtf8 p).trimmed.length ≥ budget
    · rw [takePatterns_stop hstop]
      exact ⟨[], rfl, rfl⟩
    · by_cases hblank : (QString.toUtf8 p).trimmed = []
      · obtain ⟨taken, hps, hargs⟩ := ih budget
        rw [takePatterns_skip hstop hblank]
        refine ⟨p :: taken, congrArg (p :: ·) hps, ?_⟩
        rw [hargs, List.flatMap_cons, passed, if_pos (trimmed_toUtf8_eq_nil.mp hblank)]
        rfl
      · obtain ⟨taken, hps, hargs⟩ :=
          ih (budget - (UInt32.ofNat (QString.toUtf8 p).trimmed.length + 1))
        rw [takePatterns_pass hstop hblank]
        refine ⟨p :: taken, congrArg (p :: ·) hps, ?_⟩
        rw [List.flatMap_cons, passed, if_neg (mt trimmed_toUtf8_eq_nil.mpr hblank), ← hargs,
          QString.trimmed_toUtf8]
        rfl

/-- Whether a pattern fits on a command line that has no other patterns. -/
def Fits (p : QString) : Prop := (QString.toUtf8 p).trimmed.length < patternBudget.toNat

theorem takePatterns_length_le (budget : UInt32) (ps : List QString) :
    (takePatterns budget ps).2.1.length ≤ ps.length := by
  obtain ⟨taken, hps, -⟩ := takePatterns_spec budget ps
  have := congrArg List.length hps
  simp only [List.length_append] at this
  omega

/-- A process takes at least the first pattern, should this one pass the test of the loop. -/
theorem takePatterns_removes {p : QString}
    (hp : UInt32.ofNat (QString.toUtf8 p).trimmed.length < patternBudget) (ps : List QString) :
    (takePatterns patternBudget (p :: ps)).2.1.length < (p :: ps).length := by
  have hgo : ¬UInt32.ofNat (QString.toUtf8 p).trimmed.length ≥ patternBudget :=
    UInt32.not_le.mpr hp
  by_cases hblank : (QString.toUtf8 p).trimmed = []
  · rw [takePatterns_skip hgo hblank]
    exact Nat.lt_succ_of_le (takePatterns_length_le _ _)
  · rw [takePatterns_pass hgo hblank]
    exact Nat.lt_succ_of_le (takePatterns_length_le _ _)

theorem Fits.lt_patternBudget {p : QString} (h : Fits p) :
    UInt32.ofNat (QString.toUtf8 p).trimmed.length < patternBudget := by
  have hp : (QString.toUtf8 p).trimmed.length < 32701 := h
  have hb : patternBudget.toNat = 32701 := rfl
  rw [UInt32.lt_iff_toNat_lt, UInt32.toNat_ofNat', hb]
  omega

theorem takePatterns_shorter {ps : List QString} (hne : ps ≠ []) (hfit : ∀ p ∈ ps, Fits p) :
    (takePatterns patternBudget ps).2.1.length < ps.length := by
  cases ps with
  | nil => exact absurd rfl hne
  | cons p ps => exact takePatterns_removes (hfit p (by simp)).lt_patternBudget ps

section batches
variable {patterns : List QString}

/-- Nothing is canceled and every process starts. -/
def Event.Smooth : Event → Prop
  | .exited _ _ started => started = true
  | .cancel => False
  | .readyRead _ => True

end batches

end QGpgME.RefreshSMIMEKeysJob
