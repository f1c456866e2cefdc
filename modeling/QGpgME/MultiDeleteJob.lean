import QGpgME.EventRun
import QGpgME.GpgError
import Mathlib.Data.List.Basic
import Mathlib.Tactic.SplitIfs

/-! MultiDeleteJob as an event-driven machine: the keys are handed to one DeleteJob
after the other, the results of these jobs and calls of slotCancel are the events. -/
namespace QGpgME.MultiDeleteJob
open EventRun
variable {Key Flags : Type*}

/-- What the job asks of others or emits, in order. -/
inductive Output (Key Flags : Type*) where
  | startDeleteJob (key : Key) (flags : Flags) (answer : Error)
  | cancelDeleteJob
  | done
  | result (err : Error) (errorKey : Option Key)
  | jobProgress (current total : Nat)
  | rawProgress (what : String) (type : Char) (current total : Nat)
  | progress (what : String) (current total : Nat)
  | deleteLater
deriving DecidableEq

/-- `mIt` and `mJob` are positions in `mKeys`, the end iterator is the length.
The last four fields observe the job: the started DeleteJob that has not reported yet,
the reports so far, whether slotCancel was called before all keys were deleted, and
the outputs. -/
structure Job (Key Flags : Type*) where
  mKeys : List Key
  flags : Flags
  mIt : Nat
  mJob : Option Nat
  outstanding : Option Nat
  reports : List (Nat × Error)
  canceledEarly : Bool
  outputs : List (Output Key Flags)

namespace Job

def emit (s : Job Key Flags) (os : List (Output Key Flags)) : Job Key Flags :=
  { s with outputs := s.outputs ++ os }

/-- The key at position `i` was handed to a DeleteJob that reported success. -/
def deleted (s : Job Key Flags) (i : Nat) : Bool :=
  s.reports.any fun r => r.1 = i && r.2.code = .noError

def allDeleted (s : Job Key Flags) : Bool :=
  (List.range s.mKeys.length).all s.deleted

/-- `answer` is what `DeleteJob::start` returns; a job that does not start never reports. -/
def handOver (s : Job Key Flags) (key : Key) (answer : Error) : Job Key Flags :=
  { s with
    mJob := some s.mIt
    outstanding := if answer.code = .noError then some s.mIt else none
    outputs := s.outputs ++ [.startDeleteJob key s.flags answer] }

def startAJob (s : Job Key Flags) (answer : Error) : Job Key Flags × Error :=
  match s.mKeys[s.mIt]? with
  | none => (s, Error.noError)
  | some key => (s.handOver key answer, answer)

def start (keys : List Key) (flags : Flags) (answer : Error) : Job Key Flags × Error :=
  let s : Job Key Flags := ⟨keys, flags, 0, none, none, [], false, []⟩
  let (s, err) := s.startAJob answer
  (if err.asBool then s.emit [.deleteLater] else s, err)

def slotCancel (s : Job Key Flags) : Job Key Flags :=
  let s := if s.mJob.isSome then s.emit [.cancelDeleteJob] else s
  { s with mIt := s.mKeys.length, canceledEarly := s.canceledEarly || !s.allDeleted }

/-- The branch of slotResult that ends the job. -/
def finish (s : Job Key Flags) (error : Error) : Job Key Flags :=
  s.emit [.done, .result error (if error.asBool then s.mKeys[s.mIt]? else none), .deleteLater]

/-- The branch of slotResult that goes on with the next key. -/
def reportProgress (s : Job Key Flags) : Job Key Flags :=
  let what := toString s.mIt ++ "/" ++ toString s.mKeys.length
  s.emit [.jobProgress s.mIt s.mKeys.length, .rawProgress what '?' s.mIt s.mKeys.length,
    .progress what s.mIt s.mKeys.length]

def slotResult (s : Job Key Flags) (err answer : Error) : Job Key Flags :=
  let s := { s with mJob := none }
  if err.asBool then s.finish err
  else if s.mIt = s.mKeys.length then s.finish err
  else
    let s := { s with mIt := s.mIt + 1 }
    if s.mIt = s.mKeys.length then s.finish err
    else
      let (s, error) := s.startAJob answer
      if error.asBool then s.finish error else s.reportProgress

end Job

/-- The outstanding DeleteJob reports `err` (`answer` is what the start of the next one
returns, should there be one), or somebody calls slotCancel. -/
inductive Event where
  | result (err answer : Error)
  | cancel

def step (s : Job Key Flags) : Event → Option (Job Key Flags)
  | .result err answer => s.outstanding.map fun i =>
      { s with outstanding := none, reports := s.reports ++ [(i, err)] }.slotResult err answer
  | .cancel => some s.slotCancel

namespace Job

/-- No result has been emitted yet. -/
def Pending (s : Job Key Flags) : Prop := ∀ e k, Output.result e k ∉ s.outputs

theorem allDeleted_iff {s : Job Key Flags} :
    s.allDeleted = true ↔ ∀ i < s.mKeys.length, s.deleted i = true := by
  simp [allDeleted]

theorem deleted_iff {s : Job Key Flags} {i : Nat} :
    s.deleted i = true ↔ ∃ e : Error, (i, e) ∈ s.reports ∧ e.code = .noError := by
  simp only [deleted, List.any_eq_true, Bool.and_eq_true, decide_eq_true_eq, Prod.exists]
  constructor
  · rintro ⟨j, e, hm, rfl, he⟩
    exact ⟨e, hm, he⟩
  · intro ⟨e, hm, he⟩
    exact ⟨i, e, hm, rfl, he⟩

/-- One more report. -/
theorem deleted_iff_of_reports {s t : Job Key Flags} {i j : Nat} {err : Error}
    (h : t.reports = s.reports ++ [(i, err)]) :
    t.deleted j = true ↔ s.deleted j = true ∨ (j = i ∧ err.code = .noError) := by
  simp only [deleted, h, List.any_append, List.any_cons, List.any_nil, Bool.or_false,
    Bool.or_eq_true, Bool.and_eq_true, decide_eq_true_eq]
  rw [eq_comm (a := i)]

@[simp] theorem emit_mKeys (s : Job Key Flags) (os : List (Output Key Flags)) :
    (s.emit os).mKeys = s.mKeys := rfl

@[simp] theorem finish_mKeys (s : Job Key Flags) (error : Error) :
    (s.finish error).mKeys = s.mKeys := rfl

@[simp] theorem reportProgress_mKeys (s : Job Key Flags) : s.reportProgress.mKeys = s.mKeys := rfl

@[simp] theorem startAJob_mKeys (s : Job Key Flags) (answer : Error) :
    (s.startAJob answer).1.mKeys = s.mKeys := by
  cases h : s.mKeys[s.mIt]? <;> simp [startAJob, handOver, h]

@[simp] theorem start_mKeys (keys : List Key) (flags : Flags) (answer : Error) :
    (start keys flags answer).1.mKeys = keys := by
  simp only [start]
  split_ifs <;> simp

@[simp] theorem slotCancel_mKeys (s : Job Key Flags) : s.slotCancel.mKeys = s.mKeys := by
  simp only [slotCancel]
  split_ifs <;> rfl

@[simp] theorem slotResult_mKeys (s : Job Key Flags) (err answer : Error) :
    (s.slotResult err answer).mKeys = s.mKeys := by
  simp only [slotResult]
  split_ifs <;> simp

/-- Everything one report can lead to, in the order in which slotResult decides. -/
theorem slotResult_cases (s : Job Key Flags) (err answer : Error)
    (hle : s.mIt ≤ s.mKeys.length) :
    (err.asBool = true ∧ s.slotResult err answer = { s with mJob := none }.finish err) ∨
    (err.asBool = false ∧ s.mIt = s.mKeys.length ∧
      s.slotResult err answer = { s with mJob := none }.finish err) ∨
    (err.asBool = false ∧ s.mIt + 1 = s.mKeys.length ∧
      s.slotResult err answer = { s with mJob := none, mIt := s.mIt + 1 }.finish err) ∨
    ∃ key, err.asBool = false ∧ s.mKeys[s.mIt + 1]? = some key ∧
      ((answer.asBool = true ∧ s.slotResult err answer =
        ({ s with mJob := none, mIt := s.mIt + 1 }.handOver key answer).finish answer) ∨
      (answer.asBool = false ∧ s.slotResult err answer =
        ({ s with mJob := none, mIt := s.mIt + 1 }.handOver key answer).reportProgress)) := by
  cases he : err.asBool with
  | true => exact Or.inl ⟨rfl, by simp [slotResult, he]⟩
  | false =>
    by_cases hend : s.mIt = s.mKeys.length
    · exact Or.inr (Or.inl ⟨rfl, hend, by simp [slotResult, he, hend]⟩)
    · by_cases hlast : s.mIt + 1 = s.mKeys.length
      · exact Or.inr (Or.inr (Or.inl ⟨rfl, hlast, by simp [slotResult, he, hend, hlast]⟩))
      · have hlt : s.mIt + 1 < s.mKeys.length := by omega
        have hkey : s.mKeys[s.mIt + 1]? = some s.mKeys[s.mIt + 1] := List.getElem?_eq_getElem hlt
        refine Or.inr (Or.inr (Or.inr ⟨_, rfl, hkey, ?_⟩))
        cases ha : answer.asBool with
        | true => exact Or.inl ⟨rfl, by simp [slotResult, startAJob, he, hend, hlast, hkey, ha]⟩
        | false => exact Or.inr ⟨rfl, by simp [slotResult, startAJob, he, hend, hlast, hkey, ha]⟩

theorem mem_finish_iff {s : Job Key Flags} {error e : Error} {k : Option Key}
    (h : s.Pending) : Output.result e k ∈ (s.finish error).outputs ↔
      e = error ∧ k = (if error.asBool then s.mKeys[s.mIt]? else none) := by
  simp [finish, emit, h e k]

/-- What a caller may rely on: success means that every key was deleted, and a job on
which slotCancel was called before that never reports success. -/
structure Faithful (s : Job Key Flags) : Prop where
  all_deleted : ∀ e k, Output.result e k ∈ s.outputs → e.code = .noError →
    ∀ i < s.mKeys.length, s.deleted i = true
  not_success : ∀ e k, Output.result e k ∈ s.outputs → s.canceledEarly = true →
    e.code ≠ .noError

structure Inv (s : Job Key Flags) : Prop where
  it_le : s.mIt ≤ s.mKeys.length
  pending : s.outstanding ≠ none → s.Pending
  position : ∀ i, s.outstanding = some i → i < s.mKeys.length ∧
    (∀ r ∈ s.reports, r.1 < i) ∧ (s.canceledEarly = false → i = s.mIt)
  behind : s.canceledEarly = false → s.Pending → ∀ i < s.mIt, s.deleted i = true
  at_end : s.canceledEarly = true → s.mIt = s.mKeys.length
  faithful : s.Faithful

theorem Faithful.of_pending {s : Job Key Flags} (h : s.Pending) : s.Faithful :=
  ⟨fun e k hm => absurd hm (h e k), fun e k hm => absurd hm (h e k)⟩

/-- A key whose DeleteJob has not reported is not deleted. -/
theorem Inv.not_allDeleted {s : Job Key Flags} (h : s.Inv) {i : Nat}
    (hi : s.outstanding = some i) : s.allDeleted = false := by
  obtain ⟨hlt, hr, -⟩ := h.position i hi
  by_contra hc
  have hd := allDeleted_iff.mp (by simpa using hc) i hlt
  obtain ⟨e, hm, -⟩ := deleted_iff.mp hd
  exact absurd (hr _ hm) (by simp)

theorem Inv.emit {s : Job Key Flags} {os : List (Output Key Flags)} (h : s.Inv)
    (hos : ∀ e k, Output.result e k ∉ os) : (s.emit os).Inv := by
  have hmem : ∀ e k, Output.result e k ∈ (s.emit os).outputs ↔ Output.result e k ∈ s.outputs := by
    intro e k
    simp [Job.emit, hos e k]
  have hp : (s.emit os).Pending ↔ s.Pending := by
    simp only [Pending, hmem]
  exact
    { it_le := h.it_le
      pending := fun ho => hp.mpr (h.pending ho)
      position := h.position
      behind := fun hc hq => h.behind hc (hp.mp hq)
      at_end := h.at_end
      faithful := ⟨fun e k hm => h.faithful.all_deleted e k ((hmem e k).mp hm),
        fun e k hm => h.faithful.not_success e k ((hmem e k).mp hm)⟩ }

theorem finish_inv {s : Job Key Flags} {error : Error} (hp : s.Pending)
    (hle : s.mIt ≤ s.mKeys.length) (ho : s.outstanding = none)
    (hend : s.canceledEarly = true → s.mIt = s.mKeys.length)
    (hall : error.code = .noError → ∀ i < s.mKeys.length, s.deleted i = true)
    (hc : s.canceledEarly = true → error.code ≠ .noError) : (s.finish error).Inv := by
  have hmem : ∀ e k, Output.result e k ∈ (s.finish error).outputs ↔
      e = error ∧ k = (if error.asBool then s.mKeys[s.mIt]? else none) :=
    fun e k => mem_finish_iff hp
  refine ⟨hle, fun h => absurd ho h, fun i hi => ?_, fun _ hq => ?_, hend, ?_, ?_⟩
  · have : s.outstanding = some i := hi
    simp [ho] at this
  · exact absurd ((hmem error _).mpr ⟨rfl, rfl⟩) (hq _ _)
  · intro e k hm hcode
    rw [((hmem e k).mp hm).1] at hcode
    exact hall hcode
  · intro e k hm hcan
    rw [((hmem e k).mp hm).1]
    exact hc hcan

theorem handOver_inv {s : Job Key Flags} {key : Key} {answer : Error} (hp : s.Pending)
    (hlt : s.mIt < s.mKeys.length) (hr : ∀ r ∈ s.reports, r.1 < s.mIt)
    (hc : s.canceledEarly = false) (hb : ∀ i < s.mIt, s.deleted i = true) :
    (s.handOver key answer).Inv := by
  have hp' : (s.handOver key answer).Pending := by
    intro e k
    simp [handOver, hp e k]
  refine ⟨Nat.le_of_lt hlt, fun _ => hp', fun i hi => ?_, fun _ _ => hb, fun h => ?_,
    .of_pending hp'⟩
  · simp only [handOver] at hi
    split at hi
    · obtain rfl : s.mIt = i := by simpa using hi
      exact ⟨hlt, hr, fun _ => rfl⟩
    · simp at hi
  · simp [handOver, hc] at h

/-- Behind the start of a DeleteJob, be it that the job ends there or that it goes on. -/
theorem Inv.started {s t : Job Key Flags} {answer : Error} (h : s.Inv) (hp : s.Pending)
    (hc : s.canceledEarly = false)
    (hstarted : answer.code ≠ .noError → s.outstanding = none)
    (ht : (answer.asBool = true ∧ t = s.finish answer) ∨
      (answer.asBool = false ∧ t = s.reportProgress)) : t.Inv := by
  cases ht with
  | inl hfailed =>
    obtain ⟨ha, rfl⟩ := hfailed
    have hcode := Error.code_ne_of_asBool ha
    exact finish_inv hp h.it_le (hstarted hcode) h.at_end (fun h0 => absurd h0 hcode)
      (fun h1 => by simp [hc] at h1)
  | inr hrunning =>
    obtain ⟨-, rfl⟩ := hrunning
    exact h.emit (by simp)

/-- A cancel moves the iterator to the end. -/
theorem Inv.not_canceledEarly {s : Job Key Flags} (h : s.Inv) (hlt : s.mIt < s.mKeys.length) :
    s.canceledEarly = false := by
  by_contra hc
  have hend := h.at_end (by simpa using hc)
  omega

theorem slotCancel_inv {s : Job Key Flags} (h : s.Inv) : s.slotCancel.Inv := by
  have key : ∀ t : Job Key Flags, t.Inv →
      { t with mIt := t.mKeys.length, canceledEarly := t.canceledEarly || !t.allDeleted }.Inv := by
    intro t ht
    have hfresh : (t.canceledEarly || !t.allDeleted) = false → t.allDeleted = true := by simp
    refine ⟨Nat.le_refl _, ht.pending, fun i hi => ?_, fun hc _ => ?_, fun _ => rfl,
      ht.faithful.all_deleted, fun e k hm hc hcode => ?_⟩
    · obtain ⟨hlt, hr, -⟩ := ht.position i hi
      refine ⟨hlt, hr, fun hc => ?_⟩
      -- an outstanding key is not deleted, so the cancel came early
      simp [ht.not_allDeleted hi] at hc
    · exact allDeleted_iff.mp (hfresh hc)
    · have hall := allDeleted_iff.mpr (ht.faithful.all_deleted e k hm hcode)
      have : t.canceledEarly = true := by simpa [hall] using hc
      exact ht.faithful.not_success e k hm this hcode
  simp only [slotCancel]
  split
  · exact key _ (h.emit (by simp))
  · exact key _ h

end Job

/-- The events after which nothing goes wrong: no DeleteJob succeeds once slotCancel was
called, and none but the last is dismissed before. -/
def Undisturbed (s : Job Key Flags) : Event → Prop
  | .result err _ => (s.canceledEarly = true → err.code ≠ .noError) ∧
      (err.isCanceled = true → s.canceledEarly = true ∨ s.mIt + 1 = s.mKeys.length)
  | .cancel => True

/-- With a success reported for the key at the iterator, nothing up to it is left. -/
theorem deleted_of_success {s t : Job Key Flags} {err : Error} {i : Nat} (h : s.Inv)
    (hi : s.outstanding = some i) (hc : s.canceledEarly = false) (he : err.code = .noError)
    (ht : t.reports = s.reports ++ [(i, err)]) : ∀ j < s.mIt + 1, t.deleted j = true := by
  intro j hj
  have hpos : i = s.mIt := (h.position i hi).2.2 hc
  refine (Job.deleted_iff_of_reports ht).mpr ?_
  by_cases hji : j = i
  · exact Or.inr ⟨hji, he⟩
  · exact Or.inl (h.behind hc (h.pending (by simp [hi])) j (by omega))

/-- The key behind the iterator is handed over only after a success. -/
theorem success_of_next {s : Job Key Flags} {err answer : Error}
    (hlt : s.mIt + 1 < s.mKeys.length) (hc : s.canceledEarly = false)
    (hok : Undisturbed s (.result err answer)) (he : err.asBool = false) :
    err.code = .noError := by
  refine Error.ok_of_false he ?_
  by_contra hcanceled
  cases hok.2 (by simpa using hcanceled) with
  | inl h1 => simp [hc] at h1
  | inr h1 => omega

/-- Handing over the next key after a success keeps the invariant. -/
theorem next_inv {s next : Job Key Flags} {err answer : Error} {i : Nat} (h : s.Inv)
    (hi : s.outstanding = some i) (hok : Undisturbed s (.result err answer))
    (he : err.asBool = false) (hlt : s.mIt + 1 < s.mKeys.length) (key : Key)
    (hnext : next = { s with
      outstanding := none, reports := s.reports ++ [(i, err)], mJob := none,
      mIt := s.mIt + 1 }) : (next.handOver key answer).Inv := by
  have hc : s.canceledEarly = false := h.not_canceledEarly (by omega)
  have hcode : err.code = .noError := success_of_next hlt hc hok he
  obtain ⟨-, hr, hpos⟩ := h.position i hi
  have hiter : i = s.mIt := hpos hc
  have hreports : ∀ r ∈ s.reports ++ [(i, err)], r.1 < s.mIt + 1 := by
    intro r hm
    cases List.mem_append.mp hm with
    | inl hm => exact hiter ▸ Nat.lt_succ_of_lt (hr r hm)
    | inr hm =>
      rw [List.mem_singleton.mp hm, hiter]
      exact Nat.lt_succ_self _
  have hdeleted : ∀ j < s.mIt + 1, next.deleted j = true :=
    deleted_of_success h hi hc hcode (by rw [hnext])
  subst hnext
  exact Job.handOver_inv (h.pending (by simp [hi])) hlt hreports hc hdeleted

theorem slotResult_inv {s : Job Key Flags} {err answer : Error} {i : Nat} (h : s.Inv)
    (hi : s.outstanding = some i) (hok : Undisturbed s (.result err answer)) :
    ({ s with outstanding := none, reports := s.reports ++ [(i, err)] }.slotResult err
      answer).Inv := by
  have hp := h.pending (by simp [hi])
  have hend : s.canceledEarly = true → s.mIt = s.mKeys.length := h.at_end
  have hcan := hok.1
  generalize hs : { s with outstanding := none, reports := s.reports ++ [(i, err)] } = s'
  have hle : s'.mIt ≤ s'.mKeys.length := by simpa [← hs] using h.it_le
  obtain ⟨he, hout⟩ | ⟨he, heq, hout⟩ | ⟨he, heq, hout⟩ | ⟨key, he, hkey, hrest⟩ :=
    s'.slotResult_cases err answer hle
  · -- an error of the last operation
    rw [hout]
    subst hs
    exact Job.finish_inv hp h.it_le rfl hend
      (fun h0 => absurd h0 (Error.code_ne_of_asBool he)) hcan
  · -- the iterator was moved to the end: slotCancel was called
    rw [hout]
    subst hs
    have hc : s.canceledEarly = true := by
      by_contra hc
      obtain ⟨hlt, -, hpos⟩ := h.position i hi
      have hiter := hpos (by simpa using hc)
      simp only at heq
      omega
    exact Job.finish_inv hp h.it_le rfl hend (fun h0 => absurd h0 (hcan hc)) hcan
  · -- the last key
    rw [hout]
    subst hs
    have hlast : s.mIt + 1 = s.mKeys.length := heq
    have hc : s.canceledEarly = false := h.not_canceledEarly (by omega)
    refine Job.finish_inv hp (Nat.le_of_eq heq) rfl (fun h1 => ?_) (fun h0 j hj => ?_)
      (fun h1 => ?_)
    · simp [hc] at h1
    · exact deleted_of_success h hi hc h0 rfl j (by rw [hlast]; exact hj)
    · simp [hc] at h1
  · -- the next key
    subst hs
    have hlt : s.mIt + 1 < s.mKeys.length := (List.getElem?_eq_some_iff.mp hkey).1
    have hc : s.canceledEarly = false := h.not_canceledEarly (by omega)
    refine (next_inv h hi hok he hlt key rfl).started ?_ hc ?_ hrest
    · intro e k
      simp [Job.handOver, hp e k]
    · intro hanswer
      exact if_neg hanswer

theorem step_inv (s : Job Key Flags) (ev : Event) (t : Job Key Flags) (h : s.Inv)
    (hok : Undisturbed s ev) (ht : step s ev = some t) : t.Inv := by
  cases ev with
  | cancel =>
    obtain rfl : s.slotCancel = t := by simpa [step] using ht
    exact Job.slotCancel_inv h
  | result err answer =>
    obtain ⟨i, hi, rfl⟩ := Option.map_eq_some_iff.mp ht
    exact slotResult_inv h hi hok

theorem start_inv (keys : List Key) (flags : Flags) (answer : Error)
    (h : (Job.start keys flags answer).2.asBool = false) :
    (Job.start keys flags answer).1.Inv := by
  cases keys with
  | nil =>
    have hp : (Job.start ([] : List Key) flags answer).1.Pending := by
      intro e k hm
      simp [Job.start, Job.startAJob, Error.asBool_noError] at hm
    refine ⟨Nat.le_refl _, fun _ => hp, fun i hi => ?_, fun _ _ i hi => ?_, fun _ => rfl,
      .of_pending hp⟩
    · simp [Job.start, Job.startAJob, Error.asBool_noError] at hi
    · simp [Job.start, Job.startAJob, Error.asBool_noError] at hi
  | cons key keys =>
    have ha : answer.asBool = false := by simpa [Job.start, Job.startAJob] using h
    simp only [Job.start, Job.startAJob, List.getElem?_cons_zero, ha]
    exact Job.handOver_inv (by intro e k; simp) (by simp) (by simp) rfl (by simp)

theorem step_mKeys (s : Job Key Flags) (ev : Event) (t : Job Key Flags)
    (ht : step s ev = some t) : t.mKeys = s.mKeys := by
  cases ev with
  | cancel =>
    obtain rfl : s.slotCancel = t := by simpa [step] using ht
    simp
  | result err answer =>
    obtain ⟨i, -, rfl⟩ := Option.map_eq_some_iff.mp ht
    simp

/-- In a run in which no DeleteJob succeeds after slotCancel was called and none but the
last is dismissed before, the result is faithful in every state. -/
theorem faithful_of_undisturbed (keys : List Key) (flags : Flags) (answer : Error)
    (es : List Event) (t : Job Key Flags)
    (hs : (Job.start keys flags answer).2.asBool = false)
    (hok : Along step Undisturbed es (Job.start keys flags answer).1)
    (ht : run step es (Job.start keys flags answer).1 = some t) :
    t.mKeys = keys ∧ t.Faithful := by
  constructor
  · rw [run_frame step_mKeys ht, Job.start_mKeys]
  · exact (run_invariant step_inv (start_inv keys flags answer hs) hok ht).faithful

theorem faithful_of_undisturbed_two_keys :
    let t := (run step [.result Error.noError Error.noError, .result Error.noError Error.noError]
      (Job.start [1, 2] () Error.noError).1).get rfl
    t.mKeys = [1, 2] ∧ t.Faithful :=
  faithful_of_undisturbed [1, 2] () Error.noError
    [.result Error.noError Error.noError, .result Error.noError Error.noError] _ (by decide)
    (along_cons ⟨by decide, by decide⟩ rfl (along_cons ⟨by decide, by decide⟩ rfl trivial)) rfl

/-- A key whose deletion succeeds while the job is being canceled makes the whole job
report success, although the second key was never handed to a DeleteJob. -/
theorem success_after_cancel :
    ∃ t, run step [.cancel, .result Error.noError Error.noError]
      (Job.start [1, 2] () Error.noError).1 = some t ∧
      Output.result Error.noError none ∈ t.outputs ∧ t.deleted 1 = false ∧ ¬t.Faithful := by
  refine ⟨_, rfl, by decide, rfl, fun h => ?_⟩
  exact absurd (h.all_deleted Error.noError none (by decide) rfl 1 (by decide)) (by decide)

end QGpgME.MultiDeleteJob
