import QGpgME.EventQueue
import QGpgME.EventRun
import QGpgME.GpgError
import QGpgME.QtString
import Mathlib.Logic.Function.Basic
import Mathlib.Tactic.SplitIfs

/-! Any number of threaded jobs: each runs its worker function in a thread of its own, while the
thread in which the job objects live delivers what was posted to them. Slots see signals only
there. A job object is started at most once. -/
namespace QGpgME.ThreadedJob
open EventRun EventQueue

/-- The arguments of a call of `showProgress`. -/
structure Report where
  what : QByteArray
  type : Int
  current : Int
  total : Int

/-- The calls that are queued for a job object. -/
inductive Posted where
  | jobProgress (current total : Int)
  | rawProgress (what : QString) (type current total : Int)
  | progress (what : QString) (current total : Int)
  | slotFinished
  | deferredDelete
deriving DecidableEq

def showProgress (p : Report) : List Posted :=
  [.jobProgress p.current p.total,
    .rawProgress (QString.fromUtf8 p.what) p.type p.current p.total,
    .progress (QString.fromUtf8 p.what) p.current p.total]

/-- The tuple that a worker function returns. -/
structure Result (τ : Type*) where
  values : τ
  auditLog : QString
  auditLogError : Error

inductive Signal (τ : Type*) where
  | jobProgress (current total : Int)
  | rawProgress (what : QString) (type current total : Int)
  | progress (what : QString) (current total : Int)
  | fileProgress (current total : Int)
  | dataProgress (current total : Int)
  | done
  | result (r : Result τ)

/-- A signal with what `auditLogAsHtml` and `auditLogError` tell the slots that it calls. -/
structure Emission (τ : Type*) where
  signal : Signal τ
  auditLog : QString
  auditLogError : Error

/-- 'c' is 99 and 's' is 115; gpgtar's other types are only logged. -/
def emitArchiveProgressSignals {τ : Type*} (what : QString) (type current total : Int) :
    List (Signal τ) :=
  if what ≠ "gpgtar".toList then []
  else if type = 99 then [.fileProgress current total]
  else if type = 115 then [.dataProgress current total]
  else []

/-- From the start of the thread to its entry into `run`, which holds the mutex until the worker
function has returned, to the signal `finished`. -/
inductive Thread where
  | notStarted | started | running | returned | finished
deriving DecidableEq

variable {ι δ τ : Type*}

/-- The thread in which a device lives. -/
inductive Affinity (ι : Type*) where
  | jobThread
  | worker (i : ι)
deriving DecidableEq

/-- `isArchiveJob` tells that the constructor connected rawProgress to
emitArchiveProgressSignals, `devices` are those that were bound to the worker function. -/
structure Job (δ τ : Type*) where
  isArchiveJob : Bool
  hasFunction : Bool
  thread : Thread
  devices : List δ
  result : Result τ
  auditLog : QString
  auditLogError : Error
  cancelRequested : Bool
  deleted : Bool

/-- `held` are the devices to which somebody outside of the jobs has a shared pointer, `locks`
the shared pointers that the worker functions obtained from their weak ones. -/
structure State (ι δ τ : Type*) where
  jobs : ι → Job δ τ
  queue : List (ι × Posted)
  emitted : List (ι × Emission τ)
  affinity : δ → Affinity ι
  held : δ → Bool
  locks : List (ι × δ)

inductive Event (ι δ τ : Type*) where
  | run (i : ι) (devices : List δ)
  | setWorkerFunction (i : ι)
  | startNow (i : ι)
  | enter (i : ι)
  | showProgress (i : ι) (p : Report)
  | returns (i : ι) (r : Result τ)
  | finished (i : ι)
  | deliver
  | slotCancel (i : ι)
  | delete (i : ι)
  | release (d : δ)

/-- What the slots see when a queued call reaches its job. `slotFinished` has taken the audit
log from the result before it emits done. -/
def emits (job : Job δ τ) : Posted → List (Emission τ)
  | .jobProgress current total =>
    [⟨.jobProgress current total, job.auditLog, job.auditLogError⟩]
  | .rawProgress what type current total =>
    ⟨.rawProgress what type current total, job.auditLog, job.auditLogError⟩ ::
      if job.isArchiveJob then (emitArchiveProgressSignals what type current total).map
        fun signal => ⟨signal, job.auditLog, job.auditLogError⟩
      else []
  | .progress what current total =>
    [⟨.progress what current total, job.auditLog, job.auditLogError⟩]
  | .slotFinished =>
    [⟨.done, job.result.auditLog, job.result.auditLogError⟩,
      ⟨.result job.result, job.result.auditLog, job.result.auditLogError⟩]
  | .deferredDelete => []

section steps
variable [DecidableEq ι] [DecidableEq δ]

/-- A device can only be pushed out of the thread that asks for it. -/
def moveToThread (current target : Affinity ι) (affinity : δ → Affinity ι) (d : δ) :
    δ → Affinity ι :=
  if affinity d = current then Function.update affinity d target else affinity

namespace State

def setJob (s : State ι δ τ) (i : ι) (job : Job δ τ) : State ι δ τ :=
  { s with jobs := Function.update s.jobs i job }

/-- The weak pointers to a device can still be locked. -/
def alive (s : State ι δ τ) (d : δ) : Bool := s.held d || s.locks.any fun l => l.2 = d

/-- The devices that the worker function of a job locked. -/
def locked (s : State ι δ τ) (i : ι) : List δ := pending i s.locks

def emit (s : State ι δ τ) (i : ι) (emissions : List (Emission τ)) : State ι δ τ :=
  { s with emitted := s.emitted ++ emissions.map fun e => (i, e) }

def post (s : State ι δ τ) (i : ι) (calls : List Posted) : State ι δ τ :=
  { s with queue := EventQueue.post i calls s.queue }

/-- The destructor; Qt drops what was posted to the object. -/
def delete (s : State ι δ τ) (i : ι) : State ι δ τ :=
  { s.setJob i { s.jobs i with deleted := true } with queue := EventQueue.drop i s.queue }

/-- The thread enters `run` and the worker function locks its weak pointers. -/
def enter (s : State ι δ τ) (i : ι) : State ι δ τ :=
  { s.setJob i { s.jobs i with thread := .running } with
    locks := EventQueue.post i ((s.jobs i).devices.filter s.alive) s.locks }

/-- The worker function returns: the ToThreadMovers are destroyed before the shared pointers. -/
def returns (s : State ι δ τ) (i : ι) (r : Result τ) : State ι δ τ :=
  { s.setJob i { s.jobs i with thread := .returned, result := r } with
    affinity := (s.locked i).foldl (moveToThread (.worker i) .jobThread) s.affinity
    locks := EventQueue.drop i s.locks }

/-- The job's thread carries out the call that waits first. -/
def perform (s : State ι δ τ) (i : ι) (call : Posted) : Option (State ι δ τ) :=
  let job := s.jobs i
  match call with
  | .slotFinished =>
    -- `result` waits for the mutex
    if job.thread = .running then none
    else some (((s.setJob i { job with
      auditLog := job.result.auditLog
      auditLogError := job.result.auditLogError }).emit i (emits job .slotFinished)).post i
        [.deferredDelete])
  | .deferredDelete => some (s.delete i)
  | call => some (s.emit i (emits job call))

end State

def step (s : State ι δ τ) : Event ι δ τ → Option (State ι δ τ)
  | .run i devices =>
    if (s.jobs i).thread = .notStarted ∧ (s.jobs i).deleted = false ∧
        ∀ d ∈ devices, s.held d = true then
      some { s.setJob i { s.jobs i with
          hasFunction := true, thread := .started, devices := devices } with
        affinity := devices.foldl (moveToThread .jobThread (.worker i)) s.affinity }
    else none
  | .setWorkerFunction i =>
    if (s.jobs i).thread = .notStarted ∧ (s.jobs i).deleted = false then
      some (s.setJob i { s.jobs i with hasFunction := true })
    else none
  | .startNow i =>
    if (s.jobs i).thread = .notStarted ∧ (s.jobs i).deleted = false ∧
        (s.jobs i).hasFunction = true then
      some (s.setJob i { s.jobs i with thread := .started })
    else none
  | .enter i =>
    if (s.jobs i).thread = .started then some (s.enter i) else none
  | .showProgress i p =>
    if (s.jobs i).thread = .running then some (s.post i (showProgress p)) else none
  | .returns i r =>
    if (s.jobs i).thread = .running then some (s.returns i r) else none
  | .finished i =>
    if (s.jobs i).thread = .returned then
      some ((s.setJob i { s.jobs i with thread := .finished }).post i [.slotFinished])
    else none
  | .deliver => match s.queue with
    | [] => none
    | p :: q => { s with queue := q }.perform p.1 p.2
  | .slotCancel i =>
    if (s.jobs i).deleted then none
    else some (s.setJob i { s.jobs i with cancelRequested := true })
  | .delete i =>
    if (s.jobs i).deleted = false ∧
        ((s.jobs i).thread = .notStarted ∨ (s.jobs i).thread = .finished) then
      some (s.delete i)
    else none
  | .release d => if s.held d then some { s with held := Function.update s.held d false } else none

end steps
end QGpgME.ThreadedJob
