import QGpgME.DataProvider

/-! QIODeviceDataProvider: the calls of GpgME are passed on to a device. A device that fails
without a system error is taken to be at its end, once. -/
namespace QGpgME.QIODeviceDataProvider
open DataProvider

def EIO : Nat := 5
def EINVAL : Nat := 22
def ESPIPE : Nat := 29

/-- What a call returns, the bytes that are now in the buffer, and `errno`, which is 0 if no
system error is set. Devices answer like this as well. -/
structure Answer where
  value : Int
  data : QByteArray
  errno : Nat
deriving DecidableEq

/-- Without a system error the system error counts as missing. -/
def hasSystemError (errno : Nat) : Bool := errno ≠ 0

inductive ProcessError where
  | failedToStart | crashed | timedout | readError | writeError | unknownError
deriving DecidableEq

inductive ExitStatus where
  | normalExit | crashExit
deriving DecidableEq

/-- A round of `blocking_read` in which no bytes are available: more came, or waiting failed with
the process in this state. -/
inductive Wait where
  | ready
  | failed (error : ProcessError) (exitStatus : ExitStatus) (exitCode : Int) (atEnd : Bool)
      (errno : Nat)
deriving DecidableEq

/-- `blocking_read`. When bytes are available, the device is read. -/
def blockingRead (isQProcess : Bool) : List Wait → Answer → Answer
  | [], device => device
  | .ready :: waits, device => blockingRead isQProcess waits device
  | .failed error exitStatus exitCode atEnd errno :: waits, device =>
    if isQProcess then
      if error = .unknownError ∧ exitStatus = .normalExit ∧ exitCode = 0 then
        if atEnd then ⟨0, [], errno⟩
        -- Reading goes on behind the end of the process, until all has been read.
        else blockingRead isQProcess waits device
      else ⟨-1, [], EIO⟩
    else ⟨0, [], errno⟩

/-- What a device says about its position. -/
structure Position where
  isSequential : Bool
  pos : Int
  size : Int
  seek : Int → Bool

/-- The calls of GpgME, with the `errno` that they find and what the device does. A buffer is a
null pointer or not. -/
inductive Call where
  | read (buffer : Bool) (bufSize errno : Nat) (waits : List Wait) (device : Answer)
  | write (buffer : Bool) (bufSize errno : Nat) (device : Answer)
  | seek (offset : Int) (whence : Whence) (errno : Nat) (device : Position)
  | release (errno : Nat)

end QIODeviceDataProvider

structure QIODeviceDataProvider where
  mErrorOccurred : Bool
  mHaveQProcess : Bool
deriving DecidableEq

namespace QIODeviceDataProvider
open DataProvider

def new (isQProcess : Bool) : QIODeviceDataProvider := ⟨false, isQProcess⟩

/-- What is read from the device. -/
def numRead (mHaveQProcess : Bool) (waits : List Wait) (device : Answer) : Answer :=
  if mHaveQProcess then blockingRead mHaveQProcess waits device else device

def read (p : QIODeviceDataProvider) (buffer : Bool) (bufSize errno : Nat) (waits : List Wait)
    (device : Answer) : Answer × QIODeviceDataProvider :=
  if bufSize = 0 then (⟨0, [], errno⟩, p)
  else if buffer = false then (⟨-1, [], EINVAL⟩, p)
  else
    let outcome := numRead p.mHaveQProcess waits device
    let answer :=
      if outcome.value < 0 ∧ hasSystemError outcome.errno = false then
        if p.mErrorOccurred then { outcome with errno := EIO } else { outcome with value := 0 }
      else outcome
    (answer, if outcome.value < 0 then { p with mErrorOccurred := true } else p)

def write (buffer : Bool) (bufSize errno : Nat) (device : Answer) : Answer :=
  if bufSize = 0 then ⟨0, [], errno⟩
  else if buffer = false then ⟨-1, [], EINVAL⟩
  else device

/-- Sums that are too large for a `qint64` wrap around. -/
def seek (offset : Int) (whence : Whence) (errno : Nat) (device : Position) : Answer :=
  let seekTo (newOffset : Int) : Answer :=
    if device.seek newOffset then ⟨newOffset, [], errno⟩ else ⟨-1, [], EINVAL⟩
  if device.isSequential then ⟨-1, [], ESPIPE⟩
  else
    match whence with
    | .seekSet => seekTo offset
    | .seekCur => seekTo ((device.pos + offset).bmod (2 ^ 64))
    | .seekEnd => seekTo ((device.size + offset).bmod (2 ^ 64))
    | .other => ⟨-1, [], EINVAL⟩

def step (p : QIODeviceDataProvider) : Call → Answer × QIODeviceDataProvider
  | .read buffer bufSize errno waits device => p.read buffer bufSize errno waits device
  | .write buffer bufSize errno device => (write buffer bufSize errno device, p)
  | .seek offset whence errno device => (seek offset whence errno device, p)
  | .release errno => (⟨0, [], errno⟩, p)

/-- The calls in the life of a provider, with the answers that they get. -/
def trace (p : QIODeviceDataProvider) : List Call → List (Call × Answer)
  | [] => []
  | c :: calls => (c, (p.step c).1) :: trace (p.step c).2 calls

def IsRead : Call → Prop
  | .read _ _ _ _ _ => True
  | _ => False

/-- The answer of the device, if the call asks it for bytes. -/
def outcome (isQProcess : Bool) : Call → Option Answer
  | .read buffer bufSize _ waits device =>
    if bufSize = 0 ∨ buffer = false then none else some (numRead isQProcess waits device)
  | _ => none

/-- The device fails. -/
def Fails (isQProcess : Bool) (c : Call) : Prop :=
  ∃ o, outcome isQProcess c = some o ∧ o.value < 0

/-- A failure of the device is reported as its end. -/
def masked (isQProcess : Bool) (x : Call × Answer) : Bool :=
  (outcome isQProcess x.1).any fun o => o.value < 0 ∧ x.2.value = 0

/-- How the answer of the device is to be reported: only the first failure may become the end,
and does if no system error is set. -/
structure Reported (first : Prop) (device answer : Answer) : Prop where
  success : 0 ≤ device.value → answer = device
  masked : device.value < 0 → first → device.errno = 0 → answer.value = 0
  failure : device.value < 0 → ¬(first ∧ device.errno = 0) →
    answer.value = device.value ∧ answer.errno ≠ 0

section calls
variable {p : QIODeviceDataProvider} {c : Call} {o : Answer} {calls : List Call}

theorem outcome_eq_some (h : outcome p.mHaveQProcess c = some o) :
    ∃ buffer bufSize errno waits device, c = .read buffer bufSize errno waits device ∧
      bufSize ≠ 0 ∧ buffer = true ∧ o = numRead p.mHaveQProcess waits device := by
  cases c with
  | read buffer bufSize errno waits device =>
    simp only [outcome] at h
    split at h
    · cases h
    · next hcond =>
      rw [not_or, Bool.not_eq_false] at hcond
      exact ⟨_, _, _, _, _, rfl, hcond.1, hcond.2, (Option.some.inj h).symm⟩
  | write buffer bufSize errno device => cases h
  | seek offset whence errno device => cases h
  | release errno => cases h

/-- What a call does that asks the device for bytes. -/
theorem step_of_outcome (h : outcome p.mHaveQProcess c = some o) :
    p.step c =
      (if o.value < 0 ∧ o.errno = 0 then
        if p.mErrorOccurred then { o with errno := EIO } else { o with value := 0 }
      else o,
      if o.value < 0 then { p with mErrorOccurred := true } else p) := by
  obtain ⟨buffer, bufSize, errno, waits, device, rfl, hsize, rfl, rfl⟩ := outcome_eq_some h
  simp [step, read, hsize, hasSystemError]

/-- A call that does not ask the device for bytes keeps the provider, and sets an error where it
is a read that fails. -/
theorem step_of_none (h : outcome p.mHaveQProcess c = none) :
    (p.step c).2 = p ∧ (IsRead c → (p.step c).1.value < 0 → (p.step c).1.errno ≠ 0) := by
  cases c with
  | read buffer bufSize errno waits device =>
    simp only [outcome, ite_eq_left_iff, reduceCtorEq, imp_false, not_not] at h
    by_cases hsize : bufSize = 0
    · simp [step, read, hsize]
    · simp [step, read, hsize, h.resolve_left hsize, EINVAL]
  | write buffer bufSize errno device => exact ⟨rfl, False.elim⟩
  | seek offset whence errno device => exact ⟨rfl, False.elim⟩
  | release errno => exact ⟨rfl, False.elim⟩

theorem step_reported (h : outcome p.mHaveQProcess c = some o) :
    Reported (p.mErrorOccurred = false) o (p.step c).1 := by
  rw [step_of_outcome h]
  refine ⟨fun hvalue => ?_, fun hvalue hfirst herrno => ?_, fun hvalue hnot => ?_⟩
  · exact if_neg fun hfails => absurd hfails.1 (Int.not_lt.mpr hvalue)
  · simp [hvalue, herrno, hfirst]
  · by_cases herrno : o.errno = 0
    · have hoccurred : p.mErrorOccurred = true := by simpa [herrno] using hnot
      simp [hvalue, herrno, hoccurred, EIO]
    · simp [hvalue, herrno]

/-- The flag remembers that the device has failed. -/
theorem step_mErrorOccurred (p : QIODeviceDataProvider) (c : Call) :
    (p.step c).2.mHaveQProcess = p.mHaveQProcess ∧
      ((p.step c).2.mErrorOccurred = true ↔
        p.mErrorOccurred = true ∨ Fails p.mHaveQProcess c) := by
  cases h : outcome p.mHaveQProcess c with
  | none =>
    rw [(step_of_none h).1]
    simp [Fails, h]
  | some o =>
    rw [step_of_outcome h]
    by_cases hvalue : o.value < 0
    · simp [Fails, h, hvalue]
    · simp [Fails, h, hvalue]

/-- A call in the life of a provider is answered by the provider that the calls before it have
left, which remembers their failures. -/
theorem trace_split {before after : List (Call × Answer)} {a : Answer}
    (h : trace p calls = before ++ (c, a) :: after) :
    ∃ q : QIODeviceDataProvider, q.mHaveQProcess = p.mHaveQProcess ∧
      (q.mErrorOccurred = true ↔
        p.mErrorOccurred = true ∨ ∃ x ∈ before, Fails p.mHaveQProcess x.1) ∧
      a = (q.step c).1 := by
  induction before generalizing p calls with
  | nil =>
    cases calls with
    | nil => cases h
    | cons d calls =>
      obtain ⟨rfl, rfl⟩ := Prod.mk.inj (List.cons.inj h).1
      exact ⟨p, rfl, by simp, rfl⟩
  | cons x before ih =>
    cases calls with
    | nil => cases h
    | cons d calls =>
      obtain ⟨rfl, hrest⟩ := List.cons.inj h
      obtain ⟨q, hsame, hflag, ha⟩ := ih hrest
      obtain ⟨hsame', hflag'⟩ := step_mErrorOccurred p d
      refine ⟨q, hsame.trans hsame', ?_, ha⟩
      rw [hflag, hflag', hsame', or_assoc]
      simp

theorem mem_trace {x : Call × Answer} (h : x ∈ trace p calls) :
    ∃ q : QIODeviceDataProvider, x.2 = (q.step x.1).1 := by
  obtain ⟨before, after, hsplit⟩ := List.append_of_mem h
  obtain ⟨q, -, -, ha⟩ := trace_split hsplit
  exact ⟨q, ha⟩

theorem step_errno (p : QIODeviceDataProvider) (hread : IsRead c)
    (hvalue : (p.step c).1.value < 0) : (p.step c).1.errno ≠ 0 := by
  cases h : outcome p.mHaveQProcess c with
  | none => exact (step_of_none h).2 hread hvalue
  | some o =>
    have hreported := step_reported h
    by_cases ho : o.value < 0
    · by_cases hfirst : p.mErrorOccurred = false ∧ o.errno = 0
      · rw [hreported.masked ho hfirst.1 hfirst.2] at hvalue
        exact absurd hvalue (Int.lt_irrefl 0)
      · exact (hreported.failure ho hfirst).2
    · rw [hreported.success (Int.not_lt.mp ho)] at hvalue
      exact absurd hvalue ho

theorem masked_step (h : masked p.mHaveQProcess (c, (p.step c).1) = true) :
    p.mErrorOccurred = false ∧ Fails p.mHaveQProcess c := by
  obtain ⟨o, ho, hmasked⟩ := (Option.any_eq_true _ _).mp h
  obtain ⟨hvalue, hzero⟩ := of_decide_eq_true hmasked
  refine ⟨Bool.eq_false_iff.mpr fun hoccurred => ?_, o, ho, hvalue⟩
  have hfailure := ((step_reported ho).failure hvalue fun h => by simp [hoccurred] at h).1
  rw [hzero] at hfailure
  exact absurd hvalue (hfailure ▸ Int.lt_irrefl 0)

/-- No failure is hidden once the device has failed, and at most one before. -/
theorem masked_length (p : QIODeviceDataProvider) (calls : List Call) :
    ((trace p calls).filter (masked p.mHaveQProcess)).length ≤
      if p.mErrorOccurred then 0 else 1 := by
  induction calls generalizing p with
  | nil => simp [trace]
  | cons c calls ih =>
    obtain ⟨hsame, hflag⟩ := step_mErrorOccurred p c
    have hrest := ih (p.step c).2
    rw [hsame] at hrest
    rw [trace, List.filter_cons]
    split
    · next hmasked =>
      obtain ⟨hfirst, hfails⟩ := masked_step hmasked
      rw [if_pos (hflag.mpr (Or.inr hfails))] at hrest
      rw [List.length_cons, Nat.le_zero.mp hrest, hfirst]
      exact Nat.le_refl 1
    · refine hrest.trans ?_
      by_cases hoccurred : p.mErrorOccurred = true
      · rw [if_pos (hflag.mpr (Or.inl hoccurred))]
        exact Nat.zero_le _
      · rw [if_neg hoccurred]
        split <;> omega

end calls

/-- In the life of a provider, at most one failure of the device is reported as its end: the
first one, exactly if no system error is set. All other failures are reported as failures, with
a system error, and what is no failure is passed on as it is. So no read returns a negative
value without a system error. -/
theorem trace_reports (isQProcess : Bool) (calls : List Call) :
    let t := trace (new isQProcess) calls
    (∀ before c a after o, t = before ++ (c, a) :: after → outcome isQProcess c = some o →
      Reported (∀ x ∈ before, ¬Fails isQProcess x.1) o a) ∧
    (t.filter (masked isQProcess)).length ≤ 1 ∧
    ∀ x ∈ t, IsRead x.1 → x.2.value < 0 → x.2.errno ≠ 0 := by
  refine ⟨fun before c a after o hsplit ho => ?_, masked_length (new isQProcess) calls, ?_⟩
  · obtain ⟨q, hsame, hflag, rfl⟩ := trace_split hsplit
    have hfirst : q.mErrorOccurred = false ↔ ∀ x ∈ before, ¬Fails isQProcess x.1 := by
      rw [← Bool.not_eq_true, hflag]
      simp [new]
    have hq : outcome q.mHaveQProcess c = some o := by rwa [hsame]
    have hreported := step_reported hq
    rwa [propext hfirst] at hreported
  · intro x hx hread hvalue
    obtain ⟨q, ha⟩ := mem_trace hx
    rw [ha] at hvalue ⊢
    exact step_errno q hread hvalue

end QIODeviceDataProvider
end QGpgME
