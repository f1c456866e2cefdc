import QGpgME.EventRun
import QGpgME.FileWorkers

/-! Workers that write files run in parallel. To everybody else each of them changes the files
at one moment only, when it renames or appends to its output. -/
namespace QGpgME.ParallelWorkers
open EventRun PartialFile FileWorkers FileWorkers.SignJob

/-- How far a worker has come. A temporary file that cannot be removed is left to a Cleaner. -/
inductive Stage where
  | created
  | working
  | committing
  | appending
  | leaving
  | cleaning
  | ended
deriving DecidableEq

/-- `written` is what the engine has left in the temporary file. -/
structure Worker where
  outputFilePath : FilePath
  appendSignature : Bool
  stage : Stage
  partFileGuard : Option PartialFileGuard
  written : Option QByteArray

namespace Worker

def new (outputFilePath : FilePath) (appendSignature : Bool) : Worker :=
  ⟨outputFilePath, appendSignature, .created, none, none⟩

def tempFileName (w : Worker) : Option FilePath := w.partFileGuard.bind fun g => g.mTempFileName

def underWay (w : Worker) : Prop := w.stage ≠ .created ∧ w.stage ≠ .ended

/-- The worker has nothing more to do with its output. -/
def isDone (w : Worker) : Prop := w.stage = .leaving ∨ w.stage = .cleaning ∨ w.stage = .ended

/-- The temporary file holds what the engine has written. -/
def holdsOutput (w : Worker) : Prop :=
  w.stage = .working ∨ w.stage = .committing ∨ w.stage = .appending

end Worker

/-- What a worker does to the files of others. -/
inductive Effect where
  | publish (output : FilePath) (content : Option QByteArray) (renameFails : Bool)
  | append (output : FilePath) (content : Option QByteArray) (answers : AppendAnswers)

variable {ι : Type*}

/-- `log` lists who has changed an output file, and how. -/
structure State (ι : Type*) where
  files : FileSystem
  workers : ι → Worker
  log : List (ι × Effect)

def initial (files : FileSystem) (workers : ι → FilePath × Bool) : State ι :=
  ⟨files, fun i => .new (workers i).1 (workers i).2, []⟩

inductive Event (ι : Type*) where
  | begin (i : ι) (answers : FileAnswers)
  | write (i : ι) (content : Option QByteArray)
  | finish (i : ι) (succeeded : Bool)
  | commit (i : ι) (answers : FileAnswers)
  | append (i : ι) (answers : AppendAnswers)
  | leave (i : ι) (answers : FileAnswers)
  | clean (i : ι) (answers : FileAnswers)

/-- What the engine has written for a worker after the event. -/
def Event.writtenBy [DecidableEq ι] (j : ι) (old : Option QByteArray) :
    Event ι → Option QByteArray
  | .write i content => if i = j then content else old
  | _ => old

/-- Where a worker goes on when its operation is over. -/
def Worker.afterOperation (w : Worker) (fs : FileSystem) (succeeded : Bool) : Stage :=
  if succeeded then
    if w.appendSignature && (fs w.outputFilePath).isSome then .appending else .committing
  else .leaving

/-- What is left to do after an attempt to remove the temporary file. -/
def Worker.afterRemoval (w : Worker) (fs : FileSystem) : Stage :=
  if w.tempFileName.any fun temp => (fs temp).isSome then .cleaning else .ended

section steps
variable [DecidableEq ι]

def State.set (s : State ι) (i : ι) (w : Worker) (files : FileSystem) (log : List (ι × Effect)) :
    State ι :=
  ⟨files, Function.update s.workers i w, s.log ++ log⟩

/-- One step of one worker. The worker for a detached signature looks for the output file before
it appends or renames. -/
def step (s : State ι) : Event ι → Option (State ι)
  | .begin i answers =>
    let w := s.workers i
    if w.stage = .created then
      let guard := PartialFileGuard.new answers s.files w.outputFilePath
      let stage := if guard.mTempFileName.isSome then .working else .leaving
      some (s.set i { w with partFileGuard := some guard, stage := stage } s.files [])
    else none
  | .write i content =>
    let w := s.workers i
    match w.stage, w.tempFileName with
    | .working, some temp =>
      some (s.set i { w with written := content } (s.files.put temp content) [])
    | _, _ => none
  | .finish i succeeded =>
    let w := s.workers i
    if w.stage = .working then
      some (s.set i { w with stage := w.afterOperation s.files succeeded } s.files [])
    else none
  | .commit i answers =>
    let w := s.workers i
    match w.stage, w.partFileGuard with
    | .committing, some guard =>
      let ((_, guard), files) := guard.commit answers s.files
      some (s.set i { w with partFileGuard := some guard, stage := .leaving } files
        [(i, .publish w.outputFilePath w.written answers.renameFails)])
    | _, _ => none
  | .append i answers =>
    let w := s.workers i
    match w.stage, w.tempFileName with
    | .appending, some temp =>
      let (_, files) := appendSignatureToExistingFile answers s.files temp w.outputFilePath
      some (s.set i { w with stage := .leaving } files
        [(i, .append w.outputFilePath w.written answers)])
    | _, _ => none
  | .leave i answers =>
    let w := s.workers i
    match w.stage, w.partFileGuard with
    | .leaving, some guard =>
      let files := guard.destroy answers s.files
      some (s.set i { w with stage := w.afterRemoval files } files [])
    | _, _ => none
  | .clean i answers =>
    let w := s.workers i
    match w.stage, w.partFileGuard with
    | .cleaning, some guard =>
      let files := guard.destroy answers s.files
      some (s.set i { w with stage := w.afterRemoval files } files [])
    | _, _ => none

/-- The random characters make a name that no other worker uses at the moment and that is no
output file. -/
def Fresh (s : State ι) : Event ι → Prop
  | .begin i answers => ∀ temp,
    createPartFileName answers s.files (s.workers i).outputFilePath = some temp →
      (∀ j, (s.workers j).underWay → (s.workers j).tempFileName ≠ some temp) ∧
        ∀ j, temp ≠ (s.workers j).outputFilePath
  | _ => True

end steps

/-- What is added to an existing signature file. -/
def added (answers : AppendAnswers) : Option QByteArray → Option QByteArray
  | none => none
  | some signature =>
    let newSigData := signature.take answers.bytesRead
    if answers.readOpenFails || newSigData.isEmpty || answers.appendOpenFails then none
    else some (newSigData.take answers.bytesStored)

namespace Effect

def outputFilePath : Effect → FilePath
  | .publish output _ _ => output
  | .append output _ _ => output

def content : Effect → Option QByteArray
  | .publish _ content _ => content
  | .append _ content _ => content

def appends : Effect → Bool
  | .publish _ _ _ => false
  | .append _ _ _ => true

/-- A file appears as a whole, if there was none, or grows. -/
def apply (fs : FileSystem) : Effect → FileSystem
  | .publish output content renameFails =>
    if fs output = none ∧ renameFails = false then fs.put output content else fs
  | .append output content answers =>
    match added answers content with
    | none => fs
    | some bytes => fs.put output (some ((fs output).getD [] ++ bytes))

end Effect

theorem Worker.afterOperation_underWay (w : Worker) (fs : FileSystem) (succeeded : Bool) :
    w.afterOperation fs succeeded ≠ .created ∧ w.afterOperation fs succeeded ≠ .ended := by
  unfold afterOperation
  split_ifs <;> simp

theorem Worker.afterOperation_appending {w : Worker} {fs : FileSystem} {succeeded : Bool}
    (h : w.afterOperation fs succeeded = .appending) : w.appendSignature = true := by
  unfold afterOperation at h
  split_ifs at h with _ hw
  exact (Bool.and_eq_true _ _ ▸ hw).1

theorem Worker.afterRemoval_or (w : Worker) (fs : FileSystem) :
    w.afterRemoval fs = .cleaning ∨ w.afterRemoval fs = .ended := by
  unfold afterRemoval
  split_ifs <;> simp

section effects
variable {fs fs' : FileSystem} {f : FilePath}

namespace Effect

theorem apply_of_ne {e : Effect} (h : f ≠ e.outputFilePath) : e.apply fs f = fs f := by
  cases e with
  | publish output content renameFails =>
    simp only [apply]
    split_ifs
    · exact FileSystem.put_ne h fs content
    · rfl
  | append output content answers =>
    simp only [outputFilePath] at h
    cases ha : added answers content with
    | none => simp [apply, ha]
    | some bytes => simp [apply, ha, FileSystem.put_ne h]

theorem apply_congr {e : Effect} (h : fs f = fs' f) : e.apply fs f = e.apply fs' f := by
  by_cases hf : f = e.outputFilePath
  · subst hf
    cases e with
    | publish output content renameFails =>
      simp only [outputFilePath] at h ⊢
      simp only [apply, h]
      split_ifs
      · simp
      · exact h
    | append output content answers =>
      simp only [outputFilePath] at h ⊢
      cases ha : added answers content with
      | none => simpa [apply, ha] using h
      | some bytes => simp [apply, ha, h]
  · rw [apply_of_ne hf, apply_of_ne hf, h]

end Effect

theorem append_apply (answers : AppendAnswers) (fs : FileSystem) (temp output : FilePath) :
    (appendSignatureToExistingFile answers fs temp output).2 =
      (Effect.append output (fs temp) answers).apply fs := by
  cases hs : fs temp with
  | none => simp [appendSignatureToExistingFile, Effect.apply, added, hs]
  | some signature =>
    simp only [appendSignatureToExistingFile, Effect.apply, added, hs]
    cases hr : answers.readOpenFails <;> cases ha : answers.appendOpenFails <;>
      by_cases hn : signature.take answers.bytesRead = [] <;> simp [hn]

/-- A commit is a publication, but for the temporary file. -/
theorem commit_apply {guard : PartialFileGuard} {temp : FilePath}
    (h : guard.mTempFileName = some temp) (answers : FileAnswers) (hf : f ≠ temp) :
    (guard.commit answers fs).2 f =
      (Effect.publish guard.mFileName (fs temp) answers.renameFails).apply fs f := by
  have hfiles : (guard.commit answers fs).2 = (fs.rename answers temp guard.mFileName).2 := by
    cases hr : fs.rename answers temp guard.mFileName with
    | mk success fs' => cases success <;> simp [PartialFileGuard.commit, h, hr]
  rw [hfiles]
  by_cases hout : f = guard.mFileName
  · subst hout
    rw [FileSystem.rename_new]
    simp only [Effect.apply]
    split_ifs <;> simp
  · rw [FileSystem.rename_ne hf hout, Effect.apply_of_ne hout]

theorem commit_temp {guard : PartialFileGuard} {temp : FilePath}
    (h : guard.mTempFileName = some temp) (answers : FileAnswers) (fs : FileSystem) :
    (guard.commit answers fs).1.2.mFileName = guard.mFileName ∧
      ((guard.commit answers fs).1.2.mTempFileName = some temp ∨
        (guard.commit answers fs).1.2.mTempFileName = none ∧
          (guard.commit answers fs).2 temp = none) := by
  have hne := guard.temp_ne temp h
  cases hx : fs temp with
  | none => simp [PartialFileGuard.commit, FileSystem.rename, h, hx]
  | some content =>
    by_cases hr : ((fs guard.mFileName).isSome || answers.renameFails) = true
    · simp [PartialFileGuard.commit, FileSystem.rename, h, hx, hr]
    · have hput : ((fs.put temp none).put guard.mFileName (some content)) temp = none := by
        rw [FileSystem.put_ne hne, FileSystem.put_self]
      simp [PartialFileGuard.commit, FileSystem.rename, PartialFileGuard.clear, h, hx, hr, hput]

theorem destroy_temp {guard : PartialFileGuard} {temp : FilePath} {answers : FileAnswers}
    (h : guard.mTempFileName = some temp) (hr : answers.removeFails = false) (fs : FileSystem) :
    guard.destroy answers fs temp = none := by
  cases hx : fs temp <;> simp [PartialFileGuard.destroy, FileSystem.removeFile, h, hr, hx]

end effects

section visible
variable {s t : State ι} {f : FilePath}

namespace State

/-- The name of somebody's temporary file. -/
def Hidden (s : State ι) (f : FilePath) : Prop := ∃ i, (s.workers i).tempFileName = some f

open Classical in
/-- The files without the temporary ones of the workers. -/
noncomputable def visible (s : State ι) : FileSystem := fun f =>
  if s.Hidden f then none else s.files f

theorem visible_of_hidden (h : s.Hidden f) : s.visible f = none := if_pos h

theorem visible_of_not_hidden (h : ¬ s.Hidden f) : s.visible f = s.files f := if_neg h

/-- No two workers have one temporary file, and none of these is an output. -/
structure Sound (s : State ι) : Prop where
  idle : ∀ i, (s.workers i).stage = .created →
    (s.workers i).partFileGuard = none ∧ (s.workers i).written = none
  guard : ∀ i g, (s.workers i).partFileGuard = some g →
    g.mFileName = (s.workers i).outputFilePath
  held : ∀ i, (s.workers i).holdsOutput →
    ∃ temp, (s.workers i).tempFileName = some temp ∧ s.files temp = (s.workers i).written
  apart : ∀ i j f, i ≠ j → (s.workers i).underWay → (s.workers j).underWay →
    (s.workers i).tempFileName = some f → (s.workers j).tempFileName ≠ some f
  outside : ∀ i j f, (s.workers i).tempFileName = some f → f ≠ (s.workers j).outputFilePath

/-- Every entry of the log comes from one worker, at the end of its work. -/
structure Logged (s : State ι) : Prop where
  once : (s.log.map Prod.fst).Nodup
  last : ∀ i effect, (i, effect) ∈ s.log → (s.workers i).isDone
  entry : ∀ i effect, (i, effect) ∈ s.log →
    effect.outputFilePath = (s.workers i).outputFilePath ∧
      effect.content = (s.workers i).written ∧
      (effect.appends = true → (s.workers i).appendSignature = true)
  appending : ∀ i, (s.workers i).stage = .appending → (s.workers i).appendSignature = true

/-- A temporary file that exists belongs to a worker on its way. -/
def Cleared (s : State ι) : Prop := ∀ f, s.Hidden f →
  s.files f = none ∨ ∃ i, (s.workers i).underWay ∧ (s.workers i).tempFileName = some f

theorem Sound.not_hidden (h : s.Sound) (j : ι) : ¬ s.Hidden (s.workers j).outputFilePath := by
  rintro ⟨i, hi⟩
  exact h.outside i j _ hi rfl

end State

end visible

section states
variable [DecidableEq ι] {s t : State ι} {i j : ι} {w : Worker} {files : FileSystem}
  {log : List (ι × Effect)} {f : FilePath} {e : Event ι}

namespace State

@[simp] theorem set_self : (s.set i w files log).workers i = w := by simp [set]

theorem set_of_ne (h : j ≠ i) : (s.set i w files log).workers j = s.workers j := by
  simp [set, h]

@[simp] theorem set_files : (s.set i w files log).files = files := rfl

@[simp] theorem set_log : (s.set i w files log).log = s.log ++ log := rfl

theorem set_outputFilePath (h : w.outputFilePath = (s.workers i).outputFilePath) (j : ι) :
    ((s.set i w files log).workers j).outputFilePath = (s.workers j).outputFilePath := by
  by_cases hj : j = i
  · subst hj
    rw [set_self, h]
  · rw [set_of_ne hj]

/-- A worker may change its output and its temporary file; others keep theirs. -/
theorem Sound.change (h : s.Sound) (hstage : w.stage ≠ .created)
    (hout : w.outputFilePath = (s.workers i).outputFilePath)
    (hguard : ∀ g, w.partFileGuard = some g → g.mFileName = w.outputFilePath)
    (hheld : w.holdsOutput → ∃ temp, w.tempFileName = some temp ∧ files temp = w.written)
    (hapart : ∀ f, w.tempFileName = some f → w.underWay →
      ∀ j, j ≠ i → (s.workers j).underWay → (s.workers j).tempFileName ≠ some f)
    (houtside : ∀ f, w.tempFileName = some f → ∀ j, f ≠ (s.workers j).outputFilePath)
    (hfiles : ∀ f, f ≠ (s.workers i).outputFilePath →
      ((s.workers i).underWay → (s.workers i).tempFileName ≠ some f) → files f = s.files f) :
    (s.set i w files log).Sound := by
  refine ⟨fun j hj => ?_, fun j g hg => ?_, fun j hj => ?_, fun j k f hjk hj hk hf => ?_,
    fun j k f hf => ?_⟩
  · by_cases hji : j = i
    · subst hji
      rw [set_self] at hj
      exact absurd hj hstage
    · rw [set_of_ne hji] at hj ⊢
      exact h.idle j hj
  · by_cases hji : j = i
    · subst hji
      rw [set_self] at hg ⊢
      exact hguard g hg
    · rw [set_of_ne hji] at hg ⊢
      exact h.guard j g hg
  · by_cases hji : j = i
    · subst hji
      rw [set_self] at hj ⊢
      exact hheld hj
    · rw [set_of_ne hji] at hj ⊢
      obtain ⟨temp, ht, hw⟩ := h.held j hj
      have hunder : (s.workers j).underWay := by
        obtain hj | hj | hj := hj <;> simp [Worker.underWay, hj]
      have hother := fun hi => h.apart j i temp hji hunder hi ht
      exact ⟨temp, ht, by rw [set_files, hfiles temp (h.outside j i temp ht) hother, hw]⟩
  · by_cases hji : j = i
    · subst hji
      rw [set_self] at hj hf
      rw [set_of_ne (Ne.symm hjk)] at hk ⊢
      exact hapart f hf hj k (Ne.symm hjk) hk
    · rw [set_of_ne hji] at hj hf
      by_cases hki : k = i
      · subst hki
        rw [set_self] at hk ⊢
        exact fun hkf => hapart f hkf hk j hji hj hf
      · rw [set_of_ne hki] at hk ⊢
        exact h.apart j k f hjk hj hk hf
  · rw [set_outputFilePath hout]
    by_cases hji : j = i
    · subst hji
      rw [set_self] at hf
      exact houtside f hf k
    · rw [set_of_ne hji] at hf
      exact h.outside j k f hf

/-- A worker on its way does not take a new name. -/
theorem Sound.set (h : s.Sound) (hi : (s.workers i).underWay) (hstage : w.stage ≠ .created)
    (hout : w.outputFilePath = (s.workers i).outputFilePath)
    (hguard : ∀ g, w.partFileGuard = some g → g.mFileName = w.outputFilePath)
    (hheld : w.holdsOutput → ∃ temp, w.tempFileName = some temp ∧ files temp = w.written)
    (htemp : ∀ f, w.tempFileName = some f → (s.workers i).tempFileName = some f)
    (hfiles : ∀ f, f ≠ (s.workers i).outputFilePath → (s.workers i).tempFileName ≠ some f →
      files f = s.files f) : (s.set i w files log).Sound := by
  refine h.change hstage hout hguard hheld (fun f hf _ j hj hunder => ?_) (fun f hf j => ?_)
    fun f hf hi' => hfiles f hf (hi' hi)
  · exact h.apart i j f (Ne.symm hj) hi hunder (htemp f hf)
  · exact h.outside i j f (htemp f hf)

/-- What is seen after a change, when names come and go with nothing behind them. -/
theorem visible_set {r : FileSystem}
    (hgone : ∀ f, (s.workers i).tempFileName = some f → w.tempFileName = some f ∨ files f = none)
    (hnew : ∀ f, w.tempFileName = some f → (s.workers i).tempFileName = some f ∨ files f = none)
    (hhidden : ∀ f, s.Hidden f → r f = none) (hshown : ∀ f, ¬ s.Hidden f → r f = files f) :
    (s.set i w files log).visible = r := by
  funext f
  by_cases ht : (s.set i w files log).Hidden f
  · rw [visible_of_hidden ht]
    by_cases hs : s.Hidden f
    · rw [hhidden f hs]
    · obtain ⟨j, hj⟩ := ht
      by_cases hji : j = i
      · subst hji
        rw [set_self] at hj
        have hfile := (hnew f hj).resolve_left fun hi => hs ⟨j, hi⟩
        rw [hshown f hs, hfile]
      · rw [set_of_ne hji] at hj
        exact absurd ⟨j, hj⟩ hs
  · rw [visible_of_not_hidden ht, set_files]
    by_cases hs : s.Hidden f
    · obtain ⟨j, hj⟩ := hs
      have hji : j = i := by
        by_contra hji
        exact ht ⟨j, by rwa [set_of_ne hji]⟩
      subst hji
      have hfile := (hgone f hj).resolve_left fun hw => ht ⟨j, by rwa [set_self]⟩
      rw [hfile, hhidden f ⟨j, hj⟩]
    · exact (hshown f hs).symm

theorem visible_set_effect {effect : Effect} (hout : ¬ s.Hidden effect.outputFilePath)
    (hgone : ∀ f, (s.workers i).tempFileName = some f → w.tempFileName = some f ∨ files f = none)
    (hnew : ∀ f, w.tempFileName = some f → (s.workers i).tempFileName = some f)
    (hfiles : ∀ f, (s.workers i).tempFileName ≠ some f → files f = effect.apply s.files f) :
    (s.set i w files log).visible = effect.apply s.visible := by
  refine visible_set hgone (fun f hf => Or.inl (hnew f hf)) (fun f hf => ?_) fun f hf => ?_
  · have hne : f ≠ effect.outputFilePath := fun he => hout (he ▸ hf)
    rw [Effect.apply_of_ne hne, visible_of_hidden hf]
  · rw [Effect.apply_congr (visible_of_not_hidden hf), hfiles f fun hi => hf ⟨i, hi⟩]

theorem visible_set_temp
    (hgone : ∀ f, (s.workers i).tempFileName = some f → w.tempFileName = some f ∨ files f = none)
    (hnew : ∀ f, w.tempFileName = some f → (s.workers i).tempFileName = some f ∨ files f = none)
    (hfiles : ∀ f, (s.workers i).tempFileName ≠ some f → files f = s.files f) :
    (s.set i w files log).visible = s.visible := by
  refine visible_set hgone hnew (fun f hf => visible_of_hidden hf) fun f hf => ?_
  rw [visible_of_not_hidden hf, hfiles f fun hi => hf ⟨i, hi⟩]

theorem set_written (h : w.written = (s.workers i).written) (j : ι) :
    ((s.set i w files log).workers j).written = (s.workers j).written := by
  by_cases hj : j = i
  · subst hj
    rw [set_self, h]
  · rw [set_of_ne hj]

theorem set_appendSignature (h : w.appendSignature = (s.workers i).appendSignature) (j : ι) :
    ((s.set i w files log).workers j).appendSignature = (s.workers j).appendSignature := by
  by_cases hj : j = i
  · subst hj
    rw [set_self, h]
  · rw [set_of_ne hj]

theorem set_requested (hout : w.outputFilePath = (s.workers i).outputFilePath)
    (happend : w.appendSignature = (s.workers i).appendSignature) (j : ι) :
    ((s.set i w files log).workers j).outputFilePath = (s.workers j).outputFilePath ∧
      ((s.set i w files log).workers j).appendSignature = (s.workers j).appendSignature :=
  ⟨set_outputFilePath hout j, set_appendSignature happend j⟩

/-- A worker without an entry goes on without one. -/
theorem Logged.set (h : s.Logged)
    (hstage : ¬ (s.workers i).isDone)
    (happend : w.stage = .appending → w.appendSignature = true) :
    (s.set i w files []).Logged := by
  have hne : ∀ j effect, (j, effect) ∈ s.log → j ≠ i := by
    rintro j effect hj rfl
    exact hstage (h.last j effect hj)
  refine ⟨by simpa using h.once, fun j effect hj => ?_, fun j effect hj => ?_, fun j hj => ?_⟩
  · have hj' : (j, effect) ∈ s.log := by simpa using hj
    rw [set_of_ne (hne j effect hj')]
    exact h.last j effect hj'
  · have hj' : (j, effect) ∈ s.log := by simpa using hj
    rw [set_of_ne (hne j effect hj')]
    exact h.entry j effect hj'
  · by_cases hji : j = i
    · subst hji
      rw [set_self] at hj ⊢
      exact happend hj
    · rw [set_of_ne hji] at hj ⊢
      exact h.appending j hj

/-- A worker leaves with its entry. -/
theorem Logged.set_entry (h : s.Logged) {effect : Effect}
    (hstage : ¬ (s.workers i).isDone)
    (hw : w.stage = .leaving) (hout : effect.outputFilePath = w.outputFilePath)
    (hcontent : effect.content = w.written)
    (happend : effect.appends = true → w.appendSignature = true) :
    (s.set i w files [(i, effect)]).Logged := by
  have hne : ∀ j effect, (j, effect) ∈ s.log → j ≠ i := by
    rintro j effect hj rfl
    exact hstage (h.last j effect hj)
  have hmem : ∀ j e, (j, e) ∈ (s.set i w files [(i, effect)]).log →
      (j, e) ∈ s.log ∧ j ≠ i ∨ j = i ∧ e = effect := by
    intro j e hj
    rw [set_log, List.mem_append, List.mem_singleton, Prod.mk.injEq] at hj
    exact hj.imp_left fun hj => ⟨hj, hne j e hj⟩
  refine ⟨?_, fun j e hj => ?_, fun j e hj => ?_, fun j hj => ?_⟩
  · rw [set_log, List.map_append, List.map_singleton, List.nodup_append]
    refine ⟨h.once, by simp, fun j hj k hk => ?_⟩
    obtain ⟨⟨j, e⟩, hmem, rfl⟩ := List.mem_map.mp hj
    exact List.mem_singleton.mp hk ▸ hne j e hmem
  · obtain ⟨hj, hji⟩ | ⟨rfl, rfl⟩ := hmem j e hj
    · rw [set_of_ne hji]
      exact h.last j e hj
    · exact Or.inl (by rw [set_self, hw])
  · obtain ⟨hj, hji⟩ | ⟨rfl, rfl⟩ := hmem j e hj
    · rw [set_of_ne hji]
      exact h.entry j e hj
    · rw [set_self]
      exact ⟨hout, hcontent, happend⟩
  · by_cases hji : j = i
    · subst hji
      simp [hw] at hj
    · rw [set_of_ne hji] at hj ⊢
      exact h.appending j hj

theorem Logged.end (h : s.Logged) (hstage : w.stage = .cleaning ∨ w.stage = .ended)
    (hout : w.outputFilePath = (s.workers i).outputFilePath)
    (hwritten : w.written = (s.workers i).written)
    (happend : w.appendSignature = (s.workers i).appendSignature) :
    (s.set i w files []).Logged := by
  refine ⟨by simpa using h.once, fun j effect hj => ?_, fun j effect hj => ?_, fun j hj => ?_⟩
  · by_cases hji : j = i
    · rw [hji, set_self]
      exact Or.inr hstage
    · rw [set_of_ne hji]
      exact h.last j effect (by simpa using hj)
  · rw [set_outputFilePath hout, set_written hwritten, set_appendSignature happend]
    exact h.entry j effect (by simpa using hj)
  · by_cases hji : j = i
    · subst hji
      rw [set_self] at hj
      simp [hj] at hstage
    · rw [set_of_ne hji] at hj ⊢
      exact h.appending j hj

theorem Cleared.set (hs : s.Sound) (h : s.Cleared)
    (hnew : ∀ f, w.tempFileName = some f → w.underWay ∨ files f = none)
    (hold : ∀ f, (s.workers i).tempFileName = some f →
      w.tempFileName = some f ∧ w.underWay ∨ files f = none)
    (hfiles : ∀ f, f ≠ (s.workers i).outputFilePath → (s.workers i).tempFileName ≠ some f →
      files f = s.files f) : (s.set i w files log).Cleared := by
  rintro f ⟨j, hj⟩
  by_cases hji : j = i
  · subst hji
    rw [set_self] at hj
    obtain hunder | hnone := hnew f hj
    · exact Or.inr ⟨j, by rw [set_self]; exact ⟨hunder, hj⟩⟩
    · exact Or.inl hnone
  · rw [set_of_ne hji] at hj
    by_cases hi : (s.workers i).tempFileName = some f
    · obtain ⟨hname, hunder⟩ | hnone := hold f hi
      · exact Or.inr ⟨i, by rw [set_self]; exact ⟨hunder, hname⟩⟩
      · exact Or.inl hnone
    · obtain hnone | ⟨k, hunder, hk⟩ := h f ⟨j, hj⟩
      · exact Or.inl (by rw [set_files, hfiles f (hs.outside j i f hj) hi, hnone])
      · have hki : k ≠ i := fun he => hi (he ▸ hk)
        exact Or.inr ⟨k, by rw [set_of_ne hki]; exact ⟨hunder, hk⟩⟩

/-- What a step of a worker does: it keeps its names apart from those of others, and others see
at most one effect. -/
structure Goes (s : State ι) (e : Event ι) (t : State ι) : Prop where
  sound : t.Sound
  logged : s.Logged → t.Logged
  cleared : s.Cleared → t.Cleared
  requested : ∀ j, (t.workers j).outputFilePath = (s.workers j).outputFilePath ∧
    (t.workers j).appendSignature = (s.workers j).appendSignature
  written : ∀ j, (t.workers j).written = e.writtenBy j (s.workers j).written
  seen : ∃ log : List (ι × Effect), t.log = s.log ++ log ∧
    t.visible = (log.map Prod.snd).foldl Effect.apply s.visible

/-- The name that a worker chooses is not in use, so that nobody sees the choice. -/
theorem Sound.begin (h : s.Sound) {answers : FileAnswers} (hf : Fresh s (.begin i answers))
    (ht : step s (.begin i answers) = some t) : Goes s (.begin i answers) t := by
  simp only [step] at ht
  by_cases hstage : (s.workers i).stage = .created
  · rw [if_pos hstage, Option.some.injEq] at ht
    obtain ⟨hguard, hwritten⟩ := h.idle i hstage
    have hold : (s.workers i).tempFileName = none := by simp [Worker.tempFileName, hguard]
    have hfree : ∀ f, createPartFileName answers s.files (s.workers i).outputFilePath = some f →
        s.files f = none := fun f hf => createPartFileName_free hf
    subst ht
    refine ⟨h.change ?_ rfl ?_ ?_ ?_ ?_ fun f _ _ => rfl,
      fun hl => hl.set (by simp [Worker.isDone, hstage]) ?_,
      fun hc => hc.set h (fun f hc => Or.inr (hfree f hc)) (fun f hi => ?_) fun f _ _ => rfl,
      set_requested rfl rfl, set_written rfl, [], by simp, ?_⟩
    · dsimp only
      split_ifs <;> simp
    · intro g hg
      rw [← Option.some.inj hg]
      rfl
    · intro hheld
      obtain ⟨temp, hc⟩ : ∃ temp, createPartFileName answers s.files
          (s.workers i).outputFilePath = some temp := by
        refine Option.isSome_iff_exists.mp ?_
        by_contra hc
        have hno : ¬ (PartialFileGuard.new answers s.files
          (s.workers i).outputFilePath).mTempFileName.isSome = true := hc
        simp [Worker.holdsOutput, hno] at hheld
      exact ⟨temp, hc, (hfree temp hc).trans hwritten.symm⟩
    · exact fun f hc _ j _ hj => (hf f hc).1 j hj
    · exact fun f hc j => (hf f hc).2 j
    · dsimp only
      split_ifs <;> simp
    · simp [hold] at hi
    · refine visible_set_temp (fun f hi => ?_) (fun f hc => Or.inr (hfree f hc)) fun f _ => rfl
      simp [hold] at hi
  · simp [hstage] at ht

theorem Sound.write (h : s.Sound) {content : Option QByteArray}
    (ht : step s (.write i content) = some t) : Goes s (.write i content) t := by
  simp only [step] at ht
  split at ht
  next temp hstage htemp =>
    obtain rfl := Option.some.inj ht
    have hi : (s.workers i).underWay := by simp [Worker.underWay, hstage]
    have hfiles : ∀ f, (s.workers i).tempFileName ≠ some f →
        (s.files.put temp content) f = s.files f := by
      intro f hf
      have hne : f ≠ temp := fun he => hf (he ▸ htemp)
      exact FileSystem.put_ne hne s.files content
    refine ⟨h.set hi (by simp [hstage]) rfl (h.guard i) (fun _ => ⟨temp, htemp, by simp⟩)
      (fun f hf => hf) fun f _ => hfiles f,
      fun hl => hl.set (by simp [Worker.isDone, hstage]) (by simp [hstage]),
      fun hc => hc.set h (fun f _ => Or.inl hi) (fun f hf => Or.inl ⟨hf, hi⟩) fun f _ => hfiles f,
      set_requested rfl rfl, fun j => ?_, [], rfl, ?_⟩
    · by_cases hji : j = i
      · simp [hji, Event.writtenBy]
      · rw [set_of_ne hji, Event.writtenBy, if_neg (Ne.symm hji)]
    · exact visible_set_temp (fun f hf => Or.inl hf) (fun f hf => Or.inl hf) hfiles
  next => simp at ht

theorem Sound.finish (h : s.Sound) {succeeded : Bool}
    (ht : step s (.finish i succeeded) = some t) : Goes s (.finish i succeeded) t := by
  simp only [step] at ht
  split_ifs at ht with hstage
  obtain rfl := Option.some.inj ht
  have hi : (s.workers i).underWay := by simp [Worker.underWay, hstage]
  have hheld := h.held i (Or.inl hstage)
  have hafter := (s.workers i).afterOperation_underWay s.files succeeded
  exact ⟨h.set hi hafter.1 rfl (h.guard i) (fun _ => hheld) (fun f hf => hf) fun f _ _ => rfl,
    fun hl => hl.set (by simp [Worker.isDone, hstage]) (s.workers i).afterOperation_appending,
    fun hc => hc.set h (fun f _ => Or.inl hafter) (fun f hf => Or.inl ⟨hf, hafter⟩)
      fun f _ _ => rfl, set_requested rfl rfl, set_written rfl, [], rfl,
    visible_set_temp (fun f hf => Or.inl hf) (fun f hf => Or.inl hf) fun f _ => rfl⟩

theorem Sound.commit (h : s.Sound) {answers : FileAnswers}
    (ht : step s (.commit i answers) = some t) : Goes s (.commit i answers) t := by
  simp only [step] at ht
  split at ht
  next guard hstage hguard =>
    obtain rfl := Option.some.inj ht
    have hi : (s.workers i).underWay := by simp [Worker.underWay, hstage]
    obtain ⟨temp, htemp, hwritten⟩ := h.held i (Or.inr (Or.inl hstage))
    have hname : guard.mTempFileName = some temp := by
      simpa [Worker.tempFileName, hguard] using htemp
    have hfile := h.guard i guard hguard
    obtain ⟨hkept, hafter⟩ := commit_temp hname answers s.files
    have hwas : ∀ f, (guard.commit answers s.files).1.2.mTempFileName = some f →
        (s.workers i).tempFileName = some f := by
      intro f hf
      obtain hsame | ⟨hnone, -⟩ := hafter
      · rw [htemp, ← hsame, hf]
      · simp [hnone] at hf
    have hgone : ∀ f, (s.workers i).tempFileName = some f →
        (guard.commit answers s.files).1.2.mTempFileName = some f ∨
          (guard.commit answers s.files).2 f = none := by
      intro f hf
      obtain rfl := Option.some.inj (htemp.symm.trans hf)
      exact hafter.imp_right And.right
    have happly : ∀ f, (s.workers i).tempFileName ≠ some f →
        (guard.commit answers s.files).2 f = (Effect.publish (s.workers i).outputFilePath
          (s.workers i).written answers.renameFails).apply s.files f := by
      intro f hf
      have hne : f ≠ temp := fun he => hf (he ▸ htemp)
      rw [commit_apply hname answers hne, hfile, hwritten]
    have hfiles : ∀ f, f ≠ (s.workers i).outputFilePath → (s.workers i).tempFileName ≠ some f →
        (guard.commit answers s.files).2 f = s.files f := by
      intro f hout hf
      rw [happly f hf, Effect.apply_of_ne hout]
    have hleaving : (Stage.leaving ≠ .created ∧ Stage.leaving ≠ .ended) := by simp
    refine ⟨h.set hi (by simp) rfl ?_ (fun hw => ?_) hwas hfiles,
      fun hl => hl.set_entry (by simp [Worker.isDone, hstage]) rfl rfl rfl
        (by simp [Effect.appends]),
      fun hc => hc.set h (fun f _ => Or.inl hleaving)
        (fun f hf => (hgone f hf).imp_left fun hw => ⟨hw, hleaving⟩) hfiles,
      set_requested rfl rfl, set_written rfl, _, rfl, ?_⟩
    · intro g hg
      obtain rfl := Option.some.inj hg
      exact hkept.trans hfile
    · simp [Worker.holdsOutput] at hw
    · rw [List.map_singleton, List.foldl_cons, List.foldl_nil]
      exact visible_set_effect (h.not_hidden i) hgone hwas happly
  next => simp at ht

theorem Sound.append (h : s.Sound) {answers : AppendAnswers}
    (ht : step s (.append i answers) = some t) : Goes s (.append i answers) t := by
  simp only [step] at ht
  split at ht
  next temp hstage htemp =>
    obtain rfl := Option.some.inj ht
    have hi : (s.workers i).underWay := by simp [Worker.underWay, hstage]
    obtain ⟨temp', htemp', hwritten⟩ := h.held i (Or.inr (Or.inr hstage))
    obtain rfl := Option.some.inj (htemp.symm.trans htemp')
    have hfiles := append_apply answers s.files temp (s.workers i).outputFilePath
    rw [hwritten] at hfiles
    have hothers : ∀ f, f ≠ (s.workers i).outputFilePath → (s.workers i).tempFileName ≠ some f →
        (appendSignatureToExistingFile answers s.files temp (s.workers i).outputFilePath).2 f =
          s.files f := by
      intro f hout _
      rw [hfiles, Effect.apply_of_ne hout]
    have hleaving : (Stage.leaving ≠ .created ∧ Stage.leaving ≠ .ended) := by simp
    refine ⟨h.set hi (by simp) rfl (h.guard i) (fun hw => ?_) (fun f hf => hf) hothers,
      fun hl => hl.set_entry (by simp [Worker.isDone, hstage]) rfl rfl rfl
        fun _ => hl.appending i hstage,
      fun hc => hc.set h (fun f _ => Or.inl hleaving) (fun f hf => Or.inl ⟨hf, hleaving⟩) hothers,
      set_requested rfl rfl, set_written rfl, _, rfl, ?_⟩
    · simp [Worker.holdsOutput] at hw
    · rw [List.map_singleton, List.foldl_cons, List.foldl_nil]
      refine visible_set_effect (h.not_hidden i) (fun f hf => Or.inl hf) (fun f hf => hf) ?_
      exact fun f _ => congrFun hfiles f
  next => simp at ht

/-- An attempt to remove the temporary file, by the worker itself or by the Cleaner. -/
theorem Sound.remove (h : s.Sound) {answers : FileAnswers} {guard : PartialFileGuard}
    (hstage : (s.workers i).stage = .leaving ∨ (s.workers i).stage = .cleaning)
    (hguard : (s.workers i).partFileGuard = some guard)
    (he : ∀ j old, e.writtenBy j old = old)
    (ht : t = s.set i { s.workers i with
      stage := (s.workers i).afterRemoval (guard.destroy answers s.files) }
        (guard.destroy answers s.files) []) : Goes s e t := by
  subst ht
  have hi : (s.workers i).underWay := by obtain hs | hs := hstage <;> simp [Worker.underWay, hs]
  have hname : (s.workers i).tempFileName = guard.mTempFileName := by
    simp [Worker.tempFileName, hguard]
  have hfiles : ∀ f, (s.workers i).tempFileName ≠ some f →
      guard.destroy answers s.files f = s.files f := fun f hf =>
    guard.destroy_other answers s.files (hname ▸ hf)
  have hafter := (s.workers i).afterRemoval_or (guard.destroy answers s.files)
  have hgone : ∀ f, (s.workers i).tempFileName = some f →
      ((s.workers i).afterRemoval (guard.destroy answers s.files) = .cleaning ∨
        guard.destroy answers s.files f = none) := by
    intro f hf
    cases hx : guard.destroy answers s.files f with
    | none => exact Or.inr rfl
    | some content => exact Or.inl (by simp [Worker.afterRemoval, hf, hx])
  have hunder : (s.workers i).afterRemoval (guard.destroy answers s.files) = .cleaning →
      Worker.underWay { s.workers i with
        stage := (s.workers i).afterRemoval (guard.destroy answers s.files) } := by
    intro hc
    simp [Worker.underWay, hc]
  refine ⟨h.set hi ?_ rfl (h.guard i) (fun hw => ?_) (fun f hf => hf) fun f _ => hfiles f,
    fun hl => hl.end hafter rfl rfl rfl,
    fun hc => hc.set h (fun f hf => (hgone f hf).imp_left hunder)
      (fun f hf => (hgone f hf).imp_left fun hc => ⟨hf, hunder hc⟩) fun f _ => hfiles f,
    set_requested rfl rfl, fun j => ?_, [], rfl,
    visible_set_temp (fun f hf => Or.inl hf) (fun f hf => Or.inl hf) hfiles⟩
  · obtain ha | ha := hafter <;> simp [ha]
  · obtain ha | ha := hafter <;> simp [Worker.holdsOutput, ha] at hw
  · rw [he]
    exact set_written (by rfl) j

theorem Sound.leave (h : s.Sound) {answers : FileAnswers}
    (ht : step s (.leave i answers) = some t) : Goes s (.leave i answers) t := by
  simp only [step] at ht
  split at ht
  next guard hstage hguard =>
    exact h.remove (Or.inl hstage) hguard (fun _ _ => rfl) (Option.some.inj ht).symm
  next => simp at ht

theorem Sound.clean (h : s.Sound) {answers : FileAnswers}
    (ht : step s (.clean i answers) = some t) : Goes s (.clean i answers) t := by
  simp only [step] at ht
  split at ht
  next guard hstage hguard =>
    exact h.remove (Or.inr hstage) hguard (fun _ _ => rfl) (Option.some.inj ht).symm
  next => simp at ht

theorem Sound.step (h : s.Sound) (hf : Fresh s e) (ht : ParallelWorkers.step s e = some t) :
    Goes s e t := by
  cases e with
  | begin i answers => exact h.begin hf ht
  | write i content => exact h.write ht
  | finish i succeeded => exact h.finish ht
  | commit i answers => exact h.commit ht
  | append i answers => exact h.append ht
  | leave i answers => exact h.leave ht
  | clean i answers => exact h.clean ht

end State

end states

end QGpgME.ParallelWorkers
