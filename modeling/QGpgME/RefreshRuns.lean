import QGpgME.RefreshSMIMEKeysJob

/-! How a refresh comes to its end: the one exit that is outstanding is handed on from process
to process, until it is spent on the result. -/
namespace QGpgME.RefreshRuns
open EventRun RefreshSMIMEKeysJob

/-- What the job emits at its end. -/
def isEnding : Output → Bool
  | .done => true
  | .result _ => true
  | _ => false

def endings (s : Job) : List Output := s.outputs.filter isEnding

section endings
variable {s : Job}

theorem endings_append (os : List Output) (hos : ∀ o ∈ os, isEnding o = false) :
    (s.outputs ++ os).filter isEnding = endings s := by
  have hnone : os.filter isEnding = [] := by simpa using hos
  rw [List.filter_append, hnone, List.append_nil, endings]

theorem endings_running : endings s.running = endings s :=
  endings_append _ (by simp [isEnding])

theorem endings_notStarted : endings s.notStarted = endings s := by
  have hcreated : endings (s.createProcess false) = endings s :=
    endings_append _ (by simp [isEnding])
  have hlater : endings s.notStarted = endings (s.createProcess false) :=
    endings_append _ (by simp [isEnding])
  exact hlater.trans hcreated

theorem endings_slotCancel : endings s.slotCancel = endings s :=
  endings_append _ (by simp [isEnding])

theorem endings_readAll (channel : Channel) :
    endings (s.emit [.readAll channel s.mProcess]) = endings s :=
  endings_append _ (by simp [isEnding])

theorem endings_finish (exitCode : Int) (exitStatus : ExitStatus) :
    endings (s.finish exitCode exitStatus) =
      endings s ++ [.done, .result (s.finalError exitCode exitStatus)] := by
  rw [Job.finish_eq, endings, List.filter_append]
  rfl

end endings

/-- One exit is outstanding, of the process started last or, for an empty list of keys, the
queued one. -/
def Outstanding (s : Job) : Prop :=
  s.pendingExit = some .process ∧ s.processes.length = s.exits.length + 1 ∨
    s.pendingExit = some .queued ∧ s.processes = [] ∧ s.exits = []

structure Waiting (s : Job) : Prop where
  outstanding : Outstanding s
  silent : endings s = []

structure Ended (s : Job) : Prop where
  none_outstanding : s.pendingExit = none
  all_exited : s.processes.length = s.exits.length
  told : ∃ e, endings s = [.done, .result e]

section steps
variable {s t : Job} {e : Event}

theorem waiting_running (hexited : s.processes.length = s.exits.length) (hs : endings s = []) :
    Waiting s.running := by
  refine ⟨Or.inl ⟨rfl, ?_⟩, endings_running.trans hs⟩
  show (s.processes ++ [s.nextArguments]).length = s.exits.length + 1
  rw [List.length_append, List.length_singleton, hexited]

theorem ended_finish (hpending : s.pendingExit = none)
    (hexited : s.processes.length = s.exits.length) (hs : endings s = []) (exitCode : Int)
    (exitStatus : ExitStatus) : Ended (s.finish exitCode exitStatus) := by
  have htold : endings (s.finish exitCode exitStatus) =
      [.done, .result (s.finalError exitCode exitStatus)] := by
    rw [endings_finish, hs, List.nil_append]
  refine ⟨?_, ?_, _, htold⟩
  · rw [Job.finish_eq]
    exact hpending
  · rw [Job.finish_eq]
    exact hexited

/-- An exit that has arrived is replaced by that of the next process, or spent on the
result. -/
theorem slotProcessExited_spends (hpending : s.pendingExit = none)
    (hexited : s.processes.length = s.exits.length) (hs : endings s = []) (exitCode : Int)
    (exitStatus : ExitStatus) (started : Bool) :
    Waiting (s.slotProcessExited exitCode exitStatus started) ∨
      Ended (s.slotProcessExited exitCode exitStatus started) := by
  cases Job.slotProcessExited_cases s exitCode exitStatus started with
  | inl hend =>
    rw [hend.2]
    exact Or.inr (ended_finish hpending hexited hs exitCode exitStatus)
  | inr hmore =>
    cases hmore.2.2 with
    | inl hstarted =>
      rw [hstarted.2]
      exact Or.inl (waiting_running hexited hs)
    | inr hfailed =>
      have hsilent : endings s.notStarted = [] := endings_notStarted.trans hs
      rw [hfailed.2]
      exact Or.inr (@ended_finish s.notStarted hpending hexited hsilent exitCode exitStatus)

theorem step_waiting (h : Waiting s) (ht : step s e = some t) : Waiting t ∨ Ended t := by
  cases step_cases ht with
  | inl hexit =>
    obtain ⟨exitCode, exitStatus, started, exits, -, hexits, rfl⟩ := hexit
    have hexited : s.processes.length = exits.length := by
      cases hexits with
      | inl hprocess =>
        obtain ⟨hpending, rfl⟩ := hprocess
        cases h.outstanding with
        | inl hcount =>
          rw [List.length_append, List.length_singleton]
          exact hcount.2
        | inr hqueued => simp [hpending] at hqueued
      | inr hqueued =>
        obtain ⟨hpending, rfl, -⟩ := hqueued
        cases h.outstanding with
        | inl hprocess => simp [hpending] at hprocess
        | inr hnone => simp [hnone.2.1, hnone.2.2]
    exact @slotProcessExited_spends { s with pendingExit := none, exits := exits } rfl hexited
      h.silent exitCode exitStatus started
  | inr hother =>
    cases hother with
    | inl hcancel =>
      obtain ⟨-, rfl⟩ := hcancel
      exact Or.inl ⟨h.outstanding, endings_slotCancel.trans h.silent⟩
    | inr hread =>
      obtain ⟨channel, -, rfl⟩ := hread
      exact Or.inl ⟨h.outstanding, (endings_readAll channel).trans h.silent⟩

/-- Behind the result nothing is started, and nothing more is told. -/
theorem step_ended (h : Ended s) (ht : step s e = some t) :
    Ended t ∧ t.processes = s.processes ∧ endings t = endings s := by
  cases step_cases ht with
  | inl hexit =>
    obtain ⟨exitCode, exitStatus, started, exits, -, hexits, -⟩ := hexit
    cases hexits with
    | inl hprocess => simp [h.none_outstanding] at hprocess
    | inr hqueued => simp [h.none_outstanding] at hqueued
  | inr hother =>
    cases hother with
    | inl hcancel =>
      obtain ⟨-, rfl⟩ := hcancel
      have hsame : endings s.slotCancel = endings s := endings_slotCancel
      exact ⟨⟨h.none_outstanding, h.all_exited, hsame ▸ h.told⟩, rfl, hsame⟩
    | inr hread =>
      obtain ⟨channel, -, rfl⟩ := hread
      have hsame : endings (s.emit [.readAll channel s.mProcess]) = endings s :=
        endings_readAll channel
      exact ⟨⟨h.none_outstanding, h.all_exited, hsame ▸ h.told⟩, rfl, hsame⟩

theorem waiting_started (h : Started s) : Waiting s := by
  cases h.cases with
  | inl hpatterns =>
    obtain ⟨patterns, rfl⟩ := hpatterns
    exact waiting_running rfl rfl
  | inr hqueued =>
    obtain rfl := hqueued
    exact ⟨Or.inr ⟨rfl, rfl, rfl⟩, rfl⟩

theorem run_ended {later : List Event} (h : Ended s) (ht : run step later s = some t) :
    t.processes = s.processes ∧ endings t = endings s := by
  have hall : Along step (fun _ _ => True) later s := along_of_forall (fun _ _ => trivial) s
  have hstep : ∀ v e w, (Ended v ∧ v.processes = s.processes ∧ endings v = endings s) → True →
      step v e = some w → Ended w ∧ w.processes = s.processes ∧ endings w = endings s := by
    intro v e w hv _ hw
    obtain ⟨hended, hprocesses, hendings⟩ := hv
    obtain ⟨hended', hprocesses', hendings'⟩ := step_ended hended hw
    exact ⟨hended', hprocesses'.trans hprocesses, hendings'.trans hendings⟩
  exact (run_invariant hstep ⟨h, rfl, rfl⟩ hall ht).2

end steps

/-- In every state that a started job reaches, one exit is outstanding and nothing has been
told; or the end has been told once, and no process is started any more. -/
theorem exit_or_result {s t : Job} (hs : Started s) {es : List Event}
    (ht : run step es s = some t) :
    (Outstanding t ∧ endings t = []) ∨
    (t.pendingExit = none ∧ t.processes.length = t.exits.length ∧
      (∃ e, endings t = [.done, .result e]) ∧
      ∀ later t', run step later t = some t' →
        t'.processes = t.processes ∧ endings t' = endings t) := by
  have hall : Along step (fun _ _ => True) es s := along_of_forall (fun _ _ => trivial) s
  have hstep : ∀ v e w, Waiting v ∨ Ended v → True → step v e = some w → Waiting w ∨ Ended w := by
    intro v e w hv _ hw
    cases hv with
    | inl hv => exact step_waiting hv hw
    | inr hv => exact Or.inr (step_ended hv hw).1
  cases run_invariant hstep (Or.inl (waiting_started hs)) hall ht with
  | inl hwaiting => exact Or.inl ⟨hwaiting.outstanding, hwaiting.silent⟩
  | inr hended =>
    exact Or.inr ⟨hended.none_outstanding, hended.all_exited, hended.told,
      fun later t' ht' => run_ended hended ht'⟩

/-- Canceled while the only process runs, which then exits. -/
theorem exit_or_result_canceled :
    ∃ t, run step [.cancel, .exited 9 .crashExit true] (Job.start [['a']] true).1 = some t ∧
      endings t = [.done, .result (Error.fromCode .general)] ∧
      (Outstanding t ∧ endings t = [] ∨ t.processes.length = t.exits.length) := by
  refine ⟨_, rfl, rfl, ?_⟩
  cases @exit_or_result _ _ (.patterns [['a']] true rfl) [.cancel, .exited 9 .crashExit true]
      rfl with
  | inl h => exact Or.inl h
  | inr h => exact Or.inr h.2.1

section notifications
variable {s t : Job}

/-- No output of a process is announced between a slotCancel and the exit of this process.
`canceled` says whether slotCancel has been called since the last exit. -/
def quiet : Bool → List Event → Bool
  | _, [] => true
  | _, .cancel :: es => quiet true es
  | _, .exited _ _ _ :: es => quiet false es
  | canceled, .readyRead _ :: es => !canceled && quiet canceled es

/-- The handlers have found a process whenever they were called. -/
def NoNullRead (s : Job) : Prop := ∀ channel, Output.readAll channel none ∉ s.outputs

/-- While a process runs, it is the one of the job unless slotCancel has been called. -/
def Attached (canceled : Bool) (s : Job) : Prop :=
  s.pendingExit = some .process → (s.mProcess = none ↔ canceled = true)

theorem noNullRead_append {os : List Output} (hs : t.outputs = s.outputs ++ os)
    (hos : ∀ channel, Output.readAll channel none ∉ os) : NoNullRead t ↔ NoNullRead s := by
  refine forall_congr' fun channel => ?_
  rw [hs, List.mem_append, or_iff_left (hos channel)]

/-- Behind an exit the next process runs, or none does. -/
theorem slotProcessExited_attached (s : Job) (exitCode : Int) (exitStatus : ExitStatus)
    (started : Bool) (hs : s.pendingExit = none) :
    Attached false (s.slotProcessExited exitCode exitStatus started) ∧
      (NoNullRead (s.slotProcessExited exitCode exitStatus started) ↔ NoNullRead s) := by
  have hfinish : ∀ v : Job, v.pendingExit = none → (NoNullRead v ↔ NoNullRead s) →
      Attached false (v.finish exitCode exitStatus) ∧
        (NoNullRead (v.finish exitCode exitStatus) ↔ NoNullRead s) := by
    intro v hv hread
    rw [Job.finish_eq]
    refine ⟨fun hpending => ?_, (noNullRead_append rfl (by simp)).trans hread⟩
    rw [hv] at hpending
    cases hpending
  obtain ⟨-, ht⟩ | ⟨-, -, ⟨-, ht⟩ | ⟨-, ht⟩⟩ :=
    s.slotProcessExited_cases exitCode exitStatus started
  · rw [ht]
    exact hfinish s hs Iff.rfl
  · rw [ht]
    exact ⟨fun _ => by simp [Job.running, Job.createProcess], noNullRead_append rfl (by simp)⟩
  · rw [ht]
    have hsame : s.notStarted.outputs =
        s.outputs ++ [.startProcess s.nextArguments false, .deleteLater] := by
      simp [Job.notStarted, Job.createProcess, Job.emit]
    exact hfinish s.notStarted hs (noNullRead_append hsame (by simp))

theorem run_noNullRead {canceled : Bool} (hs : Attached canceled s) {es : List Event}
    (ht : run step es s = some t) :
    NoNullRead t ↔ NoNullRead s ∧ quiet canceled es = true := by
  induction es generalizing s canceled with
  | nil =>
    obtain rfl := Option.some.inj ht
    simp [quiet]
  | cons e es ih =>
    obtain ⟨u, hu, hut⟩ := run_cons.mp ht
    obtain ⟨exitCode, exitStatus, started, exits, rfl, -, rfl⟩ | ⟨rfl, rfl⟩ | ⟨channel, rfl, rfl⟩ :=
      step_cases hu
    · obtain ⟨hattached, hread⟩ := slotProcessExited_attached
        { s with pendingExit := none, exits := exits } exitCode exitStatus started rfl
      rw [ih hattached hut, hread]
      rfl
    · have hread : NoNullRead s.slotCancel ↔ NoNullRead s := noNullRead_append rfl (by simp)
      have hattached : Attached true s.slotCancel := fun _ => iff_of_true rfl rfl
      rw [ih hattached hut, hread]
      rfl
    · have hpending : s.pendingExit = some .process := by
        simp only [step] at hu
        split at hu
        · assumption
        · cases hu
      have hnull : s.mProcess = none ↔ canceled = true := hs hpending
      have hattached : Attached canceled (s.emit [.readAll channel s.mProcess]) := hs
      rw [ih hattached hut, quiet]
      cases canceled with
      | true =>
        refine iff_of_false (fun h => h.1 channel ?_) (by simp)
        simp [Job.emit, hnull.mpr rfl]
      | false =>
        have hsome : s.mProcess ≠ none := fun h => Bool.false_ne_true (hnull.mp h)
        have hread : NoNullRead (s.emit [.readAll channel s.mProcess]) ↔ NoNullRead s :=
          noNullRead_append rfl (by simp [hsome.symm])
        rw [hread]
        simp

/-- In a run of a started job the handlers of the output never meet a null pointer if and only
if no output is announced between a slotCancel and the next exit. -/
theorem noNullRead_iff_quiet (hs : Started s) {es : List Event} (ht : run step es s = some t) :
    NoNullRead t ↔ quiet false es = true := by
  have hstart : Attached false s ∧ NoNullRead s := by
    cases hs.cases with
    | inl hpatterns =>
      obtain ⟨patterns, rfl⟩ := hpatterns
      refine ⟨fun _ => by simp [Job.running, Job.createProcess], fun channel => ?_⟩
      simp [Job.running, Job.createProcess, Job.new]
    | inr hqueued =>
      obtain rfl := hqueued
      exact ⟨fun h => by simp at h, fun channel => by simp [Job.new]⟩
  rw [run_noNullRead hstart.1 ht, and_iff_right hstart.2]

theorem noNullRead_one_output :
    ∃ t, run step [.readyRead .standardOutput, .cancel] (Job.start [['a']] true).1 = some t ∧
      NoNullRead t :=
  ⟨_, rfl, (@noNullRead_iff_quiet _ _ (.patterns [['a']] true rfl)
    [.readyRead .standardOutput, .cancel] rfl).mpr rfl⟩

/-- A killed process still has something to say. -/
theorem null_read_after_cancel :
    ∃ t, run step [.cancel, .readyRead .standardOutput] (Job.start [['a']] true).1 = some t ∧
      Output.readAll .standardOutput none ∈ t.outputs ∧ ¬NoNullRead t :=
  ⟨_, rfl, by decide, fun h => h .standardOutput (by decide)⟩

end notifications

end QGpgME.RefreshRuns
