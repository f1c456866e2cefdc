import QGpgME.ParallelWorkers

/-! What becomes of the files in a run of parallel workers: the same as if the workers had run
one after another. -/
namespace QGpgME.ParallelWorkers
open EventRun PartialFile FileWorkers

/-- What a publication brings to a file that does not exist. -/
def Effect.published (f : FilePath) : Effect → Option QByteArray
  | .publish output content renameFails =>
    if output = f ∧ renameFails = false then content else none
  | .append _ _ _ => none

variable {ι : Type*}

/-- Workers that do not run in parallel, in the order of the log. Each finds a name, its operation
succeeds with the given output, and it removes what it does not rename. -/
inductive Serially : List (ι × Effect) → FileSystem → FileSystem → Prop where
  | nil (fs : FileSystem) : Serially [] fs fs
  | cons {i : ι} {output temp : FilePath} {outcome : Outcome} {answers : FileAnswers}
      {fs fs' : FileSystem} {log : List (ι × Effect)} (results : Nat)
      (hname : createPartFileName answers fs output = some temp)
      (hremove : answers.removeFails = false) (hsucceeded : outcome.succeeded = true)
      (hrest : Serially log (throughPartFile answers fs output results fun _ => outcome).2 fs') :
      Serially ((i, .publish output outcome.written answers.renameFails) :: log) fs fs'

section serial
variable {fs fs' : FileSystem} {answers : FileAnswers} {output temp : FilePath}
  {operation : FilePath → Outcome} {results : Nat}

/-- A worker by itself publishes what its operation has written. -/
theorem throughPartFile_publish (hname : createPartFileName answers fs output = some temp)
    (hremove : answers.removeFails = false) (hsucceeded : (operation temp).succeeded = true) :
    (throughPartFile answers fs output results operation).2 =
      (Effect.publish output (operation temp).written answers.renameFails).apply fs := by
  have hne := createPartFileName_ne hname
  have hfree := createPartFileName_free hname
  let guard := PartialFileGuard.new answers fs output
  let files := fs.put temp (operation temp).written
  have hguard : guard.mTempFileName = some temp := hname
  have hwork : (throughPartFile answers fs output results operation).2 =
      (guard.commit answers files).1.2.destroy answers (guard.commit answers files).2 := by
    simp only [throughPartFile, PartialFileGuard.new, hname, hsucceeded, if_true, guard, files]
  rw [hwork]
  funext f
  by_cases htemp : f = temp
  · subst htemp
    rw [Effect.apply_of_ne hne, hfree]
    obtain ⟨-, hsame | ⟨hnone, hgone⟩⟩ := commit_temp hguard answers files
    · exact destroy_temp hsame hremove _
    · simpa [PartialFileGuard.destroy, hnone] using hgone
  · have hkept : (guard.commit answers files).1.2.mTempFileName ≠ some f := by
      obtain ⟨-, hsame | ⟨hnone, -⟩⟩ := commit_temp hguard answers files
      · exact fun hf => htemp (Option.some.inj (hf.symm.trans hsame))
      · simp [hnone]
    have hwritten : files temp = (operation temp).written := FileSystem.put_self ..
    rw [PartialFileGuard.destroy_other _ answers _ hkept, commit_apply hguard answers htemp,
      hwritten]
    exact Effect.apply_congr (FileSystem.put_ne htemp fs _)

theorem Serially.files_eq {ι : Type*} {log : List (ι × Effect)} (h : Serially log fs fs') :
    fs' = (log.map Prod.snd).foldl Effect.apply fs := by
  induction h with
  | nil fs => rfl
  | @cons i output temp outcome answers fs fs' log results hname hremove hsucceeded hrest ih =>
    have hpublish : (throughPartFile answers fs output results fun _ => outcome).2 =
        (Effect.publish output outcome.written answers.renameFails).apply fs :=
      throughPartFile_publish hname hremove hsucceeded
    rw [ih, hpublish, List.map_cons, List.foldl_cons]

/-- The first publication counts. -/
theorem foldl_published {effects : List Effect} (h : ∀ e ∈ effects, e.appends = false)
    (fs : FileSystem) (f : FilePath) :
    effects.foldl Effect.apply fs f = (fs f).or (effects.findSome? (Effect.published f)) := by
  induction effects generalizing fs with
  | nil => simp
  | cons e effects ih =>
    obtain ⟨he, heffects⟩ := List.forall_mem_cons.mp h
    have hfirst : e.apply fs f = (fs f).or (e.published f) := by
      cases e with
      | append output content answers => simp [Effect.appends] at he
      | publish output content renameFails =>
        by_cases hf : output = f
        · subst hf
          cases hx : fs output <;> cases renameFails <;> simp [Effect.apply, Effect.published, hx]
        · have hne : f ≠ (Effect.publish output content renameFails).outputFilePath := Ne.symm hf
          rw [Effect.apply_of_ne hne]
          simp [Effect.published, hf]
    rw [List.foldl_cons, ih heffects, hfirst, Option.or_assoc]
    congr 1
    cases hp : e.published f <;> simp [hp]

end serial

section states
variable {s : State ι} {files : FileSystem} {workers : ι → FilePath × Bool}

namespace State

theorem sound_initial (files : FileSystem) (workers : ι → FilePath × Bool) :
    (initial files workers).Sound := by
  refine ⟨fun i _ => ⟨rfl, rfl⟩, fun i g hg => ?_, fun i hi => ?_, fun i j f _ _ _ hf => ?_,
    fun i j f hf => ?_⟩
  · simp [initial, Worker.new] at hg
  · simp [initial, Worker.new, Worker.holdsOutput] at hi
  · simp [initial, Worker.new, Worker.tempFileName] at hf
  · simp [initial, Worker.new, Worker.tempFileName] at hf

theorem logged_initial (files : FileSystem) (workers : ι → FilePath × Bool) :
    (initial files workers).Logged :=
  ⟨List.nodup_nil, by simp [initial], by simp [initial], by simp [initial, Worker.new]⟩

theorem visible_initial (files : FileSystem) (workers : ι → FilePath × Bool) :
    (initial files workers).visible = files := by
  funext f
  refine visible_of_not_hidden ?_
  rintro ⟨i, hi⟩
  simp [initial, Worker.new, Worker.tempFileName] at hi

theorem cleared_initial (files : FileSystem) (workers : ι → FilePath × Bool) :
    (initial files workers).Cleared := by
  rintro f ⟨i, hi⟩
  simp [initial, Worker.new, Worker.tempFileName] at hi

/-- What holds of a run as far as it has come. -/
structure After (files : FileSystem) (workers : ι → FilePath × Bool) (s : State ι) : Prop where
  sound : s.Sound
  logged : s.Logged
  requested : ∀ i, (s.workers i).outputFilePath = (workers i).1 ∧
    (s.workers i).appendSignature = (workers i).2
  seen : s.visible = (s.log.map Prod.snd).foldl Effect.apply files

theorem After.initial (files : FileSystem) (workers : ι → FilePath × Bool) :
    After files workers (initial files workers) :=
  ⟨sound_initial files workers, logged_initial files workers, fun _ => ⟨rfl, rfl⟩,
    visible_initial files workers⟩

end State

theorem not_appends (hafter : s.After files workers) (happend : ∀ i, (workers i).2 = false) :
    ∀ effect ∈ s.log.map Prod.snd, effect.appends = false := by
  intro effect heffect
  obtain ⟨⟨i, effect⟩, hi, rfl⟩ := List.mem_map.mp heffect
  by_contra happ
  have hworker := (hafter.logged.entry i effect hi).2.2 (by simpa using happ)
  rw [(hafter.requested i).2, happend i] at hworker
  simp at hworker

end states

section runs
variable [DecidableEq ι] {s t : State ι} {es : List (Event ι)} {files fs' : FileSystem}
  {workers : ι → FilePath × Bool}

theorem State.After.step {e : Event ι} (h : After files workers s) (hf : Fresh s e)
    (ht : ParallelWorkers.step s e = some t) : After files workers t := by
  have hgoes := h.sound.step hf ht
  obtain ⟨log, hlog, hseen⟩ := hgoes.seen
  refine ⟨hgoes.sound, hgoes.logged h.logged, fun i => ?_, ?_⟩
  · rw [(hgoes.requested i).1, (hgoes.requested i).2]
    exact h.requested i
  · rw [hseen, h.seen, hlog, List.map_append, List.foldl_append]

theorem after_run (ht : run step es (initial files workers) = some t)
    (hfresh : Along step Fresh es (initial files workers)) : t.After files workers :=
  run_invariant (fun _ _ _ hs he ht => hs.step he ht) (.initial files workers) hfresh ht

theorem written_run (hs : s.Sound) (ht : run step es s = some t) (hfresh : Along step Fresh es s)
    (i : ι) : (t.workers i).written = es.foldl (Event.writtenBy i) (s.workers i).written := by
  induction es generalizing s with
  | nil =>
    obtain rfl : s = t := by simpa [run] using ht
    rfl
  | cons e es ih =>
    obtain ⟨u, hu, hut⟩ := run_cons.mp ht
    have hgoes := hs.step hfresh.1 hu
    rw [ih hgoes.sound hut (hfresh.2 u hu), hgoes.written i, List.foldl_cons]

/-- Two workers that want the same file. -/
def twoOutput : FilePath := ⟨[], ['a']⟩

def twoWorkers : Bool → FilePath × Bool := fun _ => (twoOutput, false)

def twoAnswers (c : Char) : FileAnswers := ⟨fun _ => [c], false, false⟩

def twoTemp (c : Char) : FilePath := ⟨[], ['a', '.', c, '.', '.', 'p', 'a', 'r', 't']⟩

def twoRun : List (Event Bool) :=
  [.begin false (twoAnswers 'x'), .begin true (twoAnswers 'y'), .write false (some [1]),
    .write true (some [2]), .finish false true, .finish true true, .commit true (twoAnswers 'y'),
    .commit false (twoAnswers 'x'), .leave false ⟨fun _ => ['x'], false, true⟩,
    .leave true (twoAnswers 'y'), .clean false (twoAnswers 'x')]

theorem twoRun_fresh : Along step Fresh twoRun (initial (fun _ => none) twoWorkers) := by
  refine ⟨fun temp hname => ?_, fun s hs => ⟨fun temp hname => ?_, fun _ _ => ?_⟩⟩
  · obtain rfl : twoTemp 'x' = temp := Option.some.inj hname
    exact ⟨fun j hj => absurd rfl hj.1, fun j => (by decide : twoTemp 'x' ≠ twoOutput)⟩
  · obtain rfl := Option.some.inj hs
    obtain rfl : twoTemp 'y' = temp := Option.some.inj hname
    refine ⟨fun j hj => ?_, fun j => ?_⟩
    · cases j with
      | false => exact (by decide : some (twoTemp 'x') ≠ some (twoTemp 'y'))
      | true => exact absurd rfl hj.1
    · cases j <;> exact (by decide : twoTemp 'y' ≠ twoOutput)
  · iterate 9 refine ⟨trivial, fun _ _ => ?_⟩
    trivial

/-- However the workers interleave, their temporary files apart the files are what the effects in
the log make of them, one after another. Each worker has at most one effect, on its own output,
with what its engine has written last. -/
theorem visible_run (ht : run step es (initial files workers) = some t)
    (hfresh : Along step Fresh es (initial files workers)) :
    t.visible = (t.log.map Prod.snd).foldl Effect.apply files ∧ (t.log.map Prod.fst).Nodup ∧
      ∀ i effect, (i, effect) ∈ t.log → effect.outputFilePath = (workers i).1 ∧
        effect.content = es.foldl (Event.writtenBy i) none := by
  have hafter := after_run ht hfresh
  refine ⟨hafter.seen, hafter.logged.once, fun i effect hi => ?_⟩
  obtain ⟨hout, hcontent, -⟩ := hafter.logged.entry i effect hi
  have hwritten := written_run (State.sound_initial files workers) ht hfresh i
  exact ⟨hout.trans (hafter.requested i).1, hcontent.trans hwritten⟩

theorem visible_run_two : ∃ t, run step twoRun (initial (fun _ => none) twoWorkers) = some t ∧
    t.visible = (t.log.map Prod.snd).foldl Effect.apply (fun _ => none) ∧
      t.log.map Prod.fst = [true, false] :=
  ⟨_, rfl, (visible_run rfl twoRun_fresh).1, rfl⟩

/-- No worker that does not append changes a file that exists, and where several workers have the
same output, the first that publishes it keeps it. -/
theorem visible_first (ht : run step es (initial files workers) = some t)
    (hfresh : Along step Fresh es (initial files workers))
    (happend : ∀ i, (workers i).2 = false) (f : FilePath) :
    t.visible f =
      (files f).or ((t.log.map Prod.snd).findSome? (Effect.published f)) := by
  have hafter := after_run ht hfresh
  rw [hafter.seen, foldl_published (not_appends hafter happend)]

theorem visible_first_two : ∃ t, run step twoRun (initial (fun _ => none) twoWorkers) = some t ∧
    t.visible twoOutput = some [2] :=
  ⟨_, rfl, visible_first rfl twoRun_fresh (fun _ => rfl) twoOutput⟩

theorem cleared_run (hs : s.Sound) (hc : s.Cleared) (ht : run step es s = some t)
    (hfresh : Along step Fresh es s) : t.Cleared := by
  induction es generalizing s with
  | nil =>
    obtain rfl : s = t := by simpa [run] using ht
    exact hc
  | cons e es ih =>
    obtain ⟨u, hu, hut⟩ := run_cons.mp ht
    have hgoes := hs.step hfresh.1 hu
    exact ih hgoes.sound (hgoes.cleared hc) hut (hfresh.2 u hu)

/-- Once no worker is on its way and no temporary file is left to a Cleaner, the files are the
same as if the workers had run one after another, in the order in which they published. -/
theorem files_serially (ht : run step es (initial files workers) = some t)
    (hfresh : Along step Fresh es (initial files workers))
    (hrest : ∀ i, ¬ (t.workers i).underWay) (hserial : Serially t.log files fs') :
    t.files = fs' := by
  have hcleared := cleared_run (State.sound_initial files workers)
    (State.cleared_initial files workers) ht hfresh
  have hvisible : t.visible = t.files := by
    funext f
    by_cases hf : t.Hidden f
    · rw [State.visible_of_hidden hf]
      obtain hnone | ⟨i, hi, -⟩ := hcleared f hf
      · exact hnone.symm
      · exact absurd hi (hrest i)
    · exact State.visible_of_not_hidden hf
  rw [← hvisible, (after_run ht hfresh).seen, hserial.files_eq]

def twoOutcome (byte : UInt8) : Outcome := ⟨[Error.noError], some [byte]⟩

theorem files_serially_two :
    ∃ t fs', run step twoRun (initial (fun _ => none) twoWorkers) = some t ∧
      Serially t.log (fun _ => none) fs' ∧ t.files = fs' ∧ fs' twoOutput = some [2] := by
  have hserial : Serially [(true, .publish twoOutput (twoOutcome 2).written false),
      (false, .publish twoOutput (twoOutcome 1).written false)] (fun _ => none) _ :=
    @Serially.cons _ _ _ (twoTemp 'y') _ (twoAnswers 'y') _ _ _ 1 rfl rfl rfl
      (@Serially.cons _ _ _ (twoTemp 'x') _ (twoAnswers 'x') _ _ _ 1 rfl rfl rfl (.nil _))
  refine ⟨_, _, rfl, hserial, files_serially rfl twoRun_fresh (fun i hi => ?_) hserial, rfl⟩
  cases i <;> exact hi.2 rfl

end runs

end QGpgME.ParallelWorkers
