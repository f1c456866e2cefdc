import QGpgME.ThreadedJob
import Mathlib.Data.List.Infix

/-! What the slots connected to a threaded job see, for every order in which the threads of all
jobs take their steps. -/
namespace QGpgME.ThreadedJob
open EventRun EventQueue
variable {ι δ τ : Type*}

/-- The signals of one report, in the order in which the slots see them. -/
def reported (archive : Bool) (p : Report) : List (Signal τ) :=
  let what := QString.fromUtf8 p.what
  .jobProgress p.current p.total :: .rawProgress what p.type p.current p.total ::
    ((if archive then emitArchiveProgressSignals what p.type p.current p.total else []) ++
      [.progress what p.current p.total])

/-- The signals of an operation that reports `ps` and returns `o`, if it does, when it runs in the
thread of its slots. The audit log is there from done on. -/
def direct (archive : Bool) (ps : List Report) (o : Option (Result τ)) : List (Emission τ) :=
  (ps.flatMap (reported archive)).map (fun s => ⟨s, [], .noError⟩) ++
    match o with
    | none => []
    | some r => [⟨.done, r.auditLog, r.auditLogError⟩, ⟨.result r, r.auditLog, r.auditLogError⟩]

/-- A job as its constructor leaves it. -/
def Job.new [Inhabited τ] (archive : Bool) : Job δ τ :=
  ⟨archive, false, .notStarted, [], ⟨default, [], .noError⟩, [], .noError, false, false⟩

/-- The slots are connected, the devices are in the thread of the jobs. -/
def initial [Inhabited τ] (archive : ι → Bool) (held : δ → Bool) : State ι δ τ :=
  ⟨fun i => .new (archive i), [], [], fun _ => .jobThread, held, []⟩

section histories
variable [DecidableEq ι]

/-- What the operation of a job has reported. -/
def reportsOf (i : ι) (es : List (Event ι δ τ)) : List Report := es.filterMap fun
  | .showProgress j p => if j = i then some p else none
  | _ => none

/-- What it has returned. -/
def resultOf (i : ι) (es : List (Event ι δ τ)) : Option (Result τ) := es.findSome? fun
  | .returns j r => if j = i then some r else none
  | _ => none

theorem reportsOf_append (i : ι) (es fs : List (Event ι δ τ)) :
    reportsOf i (es ++ fs) = reportsOf i es ++ reportsOf i fs := by
  simp [reportsOf]

theorem resultOf_append (i : ι) (es fs : List (Event ι δ τ)) :
    resultOf i (es ++ fs) = (resultOf i es).or (resultOf i fs) := by
  simp [resultOf]

end histories

theorem direct_append (archive : Bool) (ps qs : List Report) :
    direct (τ := τ) archive (ps ++ qs) none =
      direct archive ps none ++ direct archive qs none := by
  simp [direct]

theorem direct_starts (archive : Bool) (ps : List Report) (o : Option (Result τ)) :
    direct archive ps none <+: direct archive ps o := by
  cases o with
  | none => exact List.prefix_refl _
  | some r => simp [direct]

/-- One job, with what its slots have seen and what waits for it. -/
structure View (δ τ : Type*) where
  job : Job δ τ
  seen : List (Emission τ)
  waiting : List Posted

def Posted.isProgress : Posted → Bool
  | .slotFinished | .deferredDelete => false
  | _ => true

/-- Before slotFinished a job has no audit log. -/
def Job.fresh (job : Job δ τ) (archive : Bool) : Prop :=
  job.isArchiveJob = archive ∧ job.deleted = false ∧ job.auditLog = [] ∧
    job.auditLogError = .noError

theorem flatMap_emits {job : Job δ τ} {archive : Bool} (h : job.fresh archive) (p : Report) :
    (showProgress p).flatMap (emits job) = direct archive [p] none := by
  obtain ⟨ha, -, hl, he⟩ := h
  cases archive <;> simp [showProgress, emits, direct, reported, ha, hl, he]

theorem emits_congr {job job' : Job δ τ} {archive : Bool} (h : job.fresh archive)
    (h' : job'.fresh archive) {c : Posted} (hc : c.isProgress = true) :
    emits job c = emits job' c := by
  obtain ⟨ha, -, hl, he⟩ := h
  obtain ⟨ha', -, hl', he'⟩ := h'
  cases c <;> simp_all [emits, Posted.isProgress]

theorem flatMap_emits_congr {job job' : Job δ τ} {archive : Bool} (h : job.fresh archive)
    (h' : job'.fresh archive) {w : List Posted} (hw : ∀ c ∈ w, c.isProgress = true) :
    w.flatMap (emits job) = w.flatMap (emits job') :=
  List.flatMap_congr fun c hc => emits_congr h h' (hw c hc)

/-- How far a job has come, with the reports of its operation, what that returned and whether
somebody deleted the job. -/
inductive Phase (archive : Bool) (ps : List Report) (o : Option (Result τ)) (owner : Prop)
    (v : View δ τ) : Prop where
  | working (job : v.job.fresh archive) (thread : v.job.thread ≠ .finished)
      (result : o = if v.job.thread = .returned then some v.job.result else none)
      (waiting : ∀ c ∈ v.waiting, c.isProgress = true)
      (seen : v.seen ++ v.waiting.flatMap (emits v.job) = direct archive ps none)
  | finished (job : v.job.fresh archive) (thread : v.job.thread = .finished)
      (result : o = some v.job.result) (w : List Posted)
      (waiting : v.waiting = w ++ [.slotFinished]) (progress : ∀ c ∈ w, c.isProgress = true)
      (seen : v.seen ++ w.flatMap (emits v.job) = direct archive ps none)
  | complete (r : Result τ) (result : o = some r) (thread : v.job.thread = .finished)
      (seen : v.seen = direct archive ps (some r))
      (waiting : v.job.deleted = false ∧ v.waiting = [.deferredDelete] ∨
        v.job.deleted = true ∧ v.waiting = [])
  | removed (owner : owner) (deleted : v.job.deleted = true) (waiting : v.waiting = [])
      (thread : v.job.thread = .notStarted ∨ v.job.thread = .finished)
      (seen : v.seen <+: direct archive ps o)

theorem Phase.seen_starts {archive : Bool} {ps : List Report} {o : Option (Result τ)}
    {owner : Prop} {v : View δ τ} (h : Phase archive ps o owner v) :
    v.seen <+: direct archive ps o := by
  cases h with
  | working _ _ _ _ hs => exact (hs ▸ List.prefix_append _ _).trans (direct_starts _ _ _)
  | finished _ _ _ w _ _ hs => exact (hs ▸ List.prefix_append _ _).trans (direct_starts _ _ _)
  | complete r hr _ hs _ => rw [hs, hr]
  | removed _ _ _ _ hs => exact hs

section moves
variable [DecidableEq ι]

/-- What an event does to one job. -/
inductive Moves (i : ι) : Event ι δ τ → View δ τ → View δ τ → Prop where
  | silent {e : Event ι δ τ} {v : View δ τ} {job : Job δ τ} (reports : reportsOf i [e] = [])
      (result : resultOf i [e] = none) (archive : job.isArchiveJob = v.job.isArchiveJob)
      (same : job.result = v.job.result) (log : job.auditLog = v.job.auditLog)
      (error : job.auditLogError = v.job.auditLogError) (deleted : job.deleted = v.job.deleted)
      (thread : job.thread = v.job.thread ∨
        v.job.thread = .notStarted ∧ v.job.deleted = false ∧ job.thread = .started ∨
        v.job.thread = .started ∧ job.thread = .running) :
      Moves i e v { v with job := job }
  | reports {v : View δ τ} {p : Report} (thread : v.job.thread = .running) :
      Moves i (.showProgress i p) v { v with waiting := v.waiting ++ showProgress p }
  | returns {v : View δ τ} {r : Result τ} (thread : v.job.thread = .running) :
      Moves i (.returns i r) v { v with job := { v.job with thread := .returned, result := r } }
  | finished {v : View δ τ} (thread : v.job.thread = .returned) :
      Moves i (.finished i) v { v with
        job := { v.job with thread := .finished }, waiting := v.waiting ++ [.slotFinished] }
  | progress {v : View δ τ} {c : Posted} {w : List Posted} (waiting : v.waiting = c :: w)
      (call : c.isProgress = true) :
      Moves i .deliver v { v with seen := v.seen ++ emits v.job c, waiting := w }
  | slotFinished {v : View δ τ} {w : List Posted} (waiting : v.waiting = .slotFinished :: w) :
      Moves i .deliver v ⟨{ v.job with
          auditLog := v.job.result.auditLog, auditLogError := v.job.result.auditLogError },
        v.seen ++ emits v.job .slotFinished, w ++ [.deferredDelete]⟩
  | deferredDelete {v : View δ τ} {w : List Posted} (waiting : v.waiting = .deferredDelete :: w) :
      Moves i .deliver v ⟨{ v.job with deleted := true }, v.seen, []⟩
  | deletes {v : View δ τ} (deleted : v.job.deleted = false)
      (thread : v.job.thread = .notStarted ∨ v.job.thread = .finished) :
      Moves i (.delete i) v ⟨{ v.job with deleted := true }, v.seen, []⟩

end moves

section phases
variable {archive : Bool} {ps : List Report} {o : Option (Result τ)} {owner owner' : Prop}
  {v : View δ τ}

theorem Phase.mono (h : Phase archive ps o owner v) (hi : owner → owner') :
    Phase archive ps o owner' v := by
  cases h with
  | working hj ht hr hw hs => exact .working hj ht hr hw hs
  | finished hj ht hr w hw hp hs => exact .finished hj ht hr w hw hp hs
  | complete r hr ht hs hw => exact .complete r hr ht hs hw
  | removed ho hd hw ht hs => exact .removed (hi ho) hd hw ht hs

theorem Phase.silent (h : Phase archive ps o owner v) {job : Job δ τ}
    (ha : job.isArchiveJob = v.job.isArchiveJob) (hr : job.result = v.job.result)
    (hl : job.auditLog = v.job.auditLog) (he : job.auditLogError = v.job.auditLogError)
    (hd : job.deleted = v.job.deleted)
    (ht : job.thread = v.job.thread ∨
      v.job.thread = .notStarted ∧ v.job.deleted = false ∧ job.thread = .started ∨
      v.job.thread = .started ∧ job.thread = .running) :
    Phase archive ps o owner { v with job := job } := by
  have hfresh (hj : v.job.fresh archive) : job.fresh archive := by
    simpa [Job.fresh, ha, hl, he, hd] using hj
  cases h with
  | working hj hth hres hw hs =>
    refine .working (hfresh hj) ?_ ?_ hw ?_
    · obtain ht | ⟨-, -, ht⟩ | ⟨-, ht⟩ := ht <;> simp_all
    · obtain ht | ⟨h0, -, ht⟩ | ⟨h0, ht⟩ := ht <;> simp_all
    · rw [← hs, flatMap_emits_congr (hfresh hj) hj hw]
  | finished hj hth hres w hw hp hs =>
    refine .finished (hfresh hj) ?_ (by rw [hres, hr]) w hw hp ?_
    · obtain ht | ⟨h0, -, ht⟩ | ⟨h0, ht⟩ := ht <;> simp_all
    · rw [← hs, flatMap_emits_congr (hfresh hj) hj hp]
  | complete r hres hth hs hw =>
    refine .complete r hres ?_ hs (by simpa [hd] using hw)
    obtain ht | ⟨h0, -, ht⟩ | ⟨h0, ht⟩ := ht <;> simp_all
  | removed ho hdel hw hth hs =>
    refine .removed ho (hd.trans hdel) hw ?_ hs
    obtain ht | ⟨-, h0, -⟩ | ⟨h0, -⟩ := ht
    · simpa [ht] using hth
    · simp [hdel] at h0
    · simp [h0] at hth

theorem Phase.reports (h : Phase archive ps o owner v) (ht : v.job.thread = .running)
    (p : Report) :
    Phase archive (ps ++ [p]) o owner { v with waiting := v.waiting ++ showProgress p } := by
  cases h with
  | working hj hth hres hw hs =>
    refine .working hj hth hres ?_ ?_
    · intro c hc
      cases List.mem_append.mp hc with
      | inl hc => exact hw c hc
      | inr hc =>
        simp only [showProgress, List.mem_cons, List.not_mem_nil, or_false] at hc
        rcases hc with rfl | rfl | rfl <;> rfl
    · simp only [List.flatMap_append]
      rw [← List.append_assoc, hs, flatMap_emits hj, direct_append]
  | finished _ hth => simp [ht] at hth
  | complete _ _ hth => simp [ht] at hth
  | removed _ _ _ hth => simp [ht] at hth

theorem Phase.returns (h : Phase archive ps o owner v) (ht : v.job.thread = .running)
    (r : Result τ) :
    Phase archive ps (o.or (some r)) owner
      { v with job := { v.job with thread := .returned, result := r } } := by
  cases h with
  | working hj hth hres hw hs =>
    have ho : o = none := by simpa [ht] using hres
    have hj' : Job.fresh { v.job with thread := .returned, result := r } archive := hj
    refine .working hj' (by simp) (by simp [ho]) hw ?_
    rw [← hs, flatMap_emits_congr hj' hj hw]
  | finished _ hth => simp [ht] at hth
  | complete _ _ hth => simp [ht] at hth
  | removed _ _ _ hth => simp [ht] at hth

theorem Phase.finishes (h : Phase archive ps o owner v) (ht : v.job.thread = .returned) :
    Phase archive ps o owner { v with
      job := { v.job with thread := .finished }, waiting := v.waiting ++ [.slotFinished] } := by
  cases h with
  | working hj hth hres hw hs =>
    have hj' : Job.fresh { v.job with thread := .finished } archive := hj
    refine .finished hj' rfl (by simpa [ht] using hres) v.waiting rfl hw ?_
    rw [← hs, flatMap_emits_congr hj' hj hw]
  | finished _ hth => simp [ht] at hth
  | complete _ _ hth => simp [ht] at hth
  | removed _ _ _ hth => simp [ht] at hth

theorem Phase.progress (h : Phase archive ps o owner v) {c : Posted} {w : List Posted}
    (hw : v.waiting = c :: w) (hc : c.isProgress = true) :
    Phase archive ps o owner { v with seen := v.seen ++ emits v.job c, waiting := w } := by
  cases h with
  | working hj hth hres hp hs =>
    refine .working hj hth hres (fun d hd => hp d (by simp [hw, hd])) ?_
    rw [← hs, hw, List.flatMap_cons, List.append_assoc]
  | finished hj hth hres w' hw' hp hs =>
    cases w' with
    | nil =>
      obtain ⟨rfl, -⟩ : c = .slotFinished ∧ w = [] := by simpa [hw] using hw'
      simp [Posted.isProgress] at hc
    | cons d w' =>
      obtain ⟨rfl, rfl⟩ : c = d ∧ w = w' ++ [.slotFinished] := by simpa [hw] using hw'
      refine .finished hj hth hres w' rfl (fun d hd => hp d (by simp [hd])) ?_
      rw [← hs, List.flatMap_cons, List.append_assoc]
  | complete r _ _ _ hd =>
    obtain ⟨-, hd⟩ | ⟨-, hd⟩ := hd
    · obtain ⟨rfl, -⟩ : c = .deferredDelete ∧ w = [] := by simpa [hw] using hd
      simp [Posted.isProgress] at hc
    · simp [hw] at hd
  | removed _ _ hd => simp [hw] at hd

theorem Phase.slotFinished (h : Phase archive ps o owner v) {w : List Posted}
    (hw : v.waiting = .slotFinished :: w) :
    Phase archive ps o owner ⟨{ v.job with
        auditLog := v.job.result.auditLog, auditLogError := v.job.result.auditLogError },
      v.seen ++ emits v.job .slotFinished, w ++ [.deferredDelete]⟩ := by
  cases h with
  | working _ _ _ hp =>
    have hc := hp .slotFinished (by simp [hw])
    simp [Posted.isProgress] at hc
  | finished hj hth hres w' hw' hp hs =>
    cases w' with
    | nil =>
      obtain rfl : w = [] := by simpa [hw] using hw'
      have hseen : v.seen = direct archive ps none := by simpa using hs
      refine .complete v.job.result hres hth ?_ (Or.inl ⟨hj.2.1, rfl⟩)
      simp [hseen, direct, emits]
    | cons d w' =>
      obtain ⟨rfl, -⟩ : Posted.slotFinished = d ∧ w = w' ++ [.slotFinished] := by
        simpa [hw] using hw'
      have hc := hp .slotFinished (by simp)
      simp [Posted.isProgress] at hc
  | complete r _ _ _ hd => obtain ⟨-, hd⟩ | ⟨-, hd⟩ := hd <;> simp [hw] at hd
  | removed _ _ hd => simp [hw] at hd

theorem Phase.deferredDelete (h : Phase archive ps o owner v) {w : List Posted}
    (hw : v.waiting = .deferredDelete :: w) :
    Phase archive ps o owner ⟨{ v.job with deleted := true }, v.seen, []⟩ := by
  cases h with
  | working _ _ _ hp =>
    have hc := hp .deferredDelete (by simp [hw])
    simp [Posted.isProgress] at hc
  | finished hj hth hres w' hw' hp hs =>
    cases w' with
    | nil => simp [hw] at hw'
    | cons d w' =>
      obtain ⟨rfl, -⟩ : Posted.deferredDelete = d ∧ w = w' ++ [.slotFinished] := by
        simpa [hw] using hw'
      have hc := hp .deferredDelete (by simp)
      simp [Posted.isProgress] at hc
  | complete r hres hth hs _ => exact .complete r hres hth hs (Or.inr ⟨rfl, rfl⟩)
  | removed _ _ hd => simp [hw] at hd

/-- Whoever deletes a job keeps its slots from all that was still to come. -/
theorem Phase.deletes (h : Phase archive ps o owner v) (ho : owner)
    (ht : v.job.thread = .notStarted ∨ v.job.thread = .finished) :
    Phase archive ps o owner ⟨{ v.job with deleted := true }, v.seen, []⟩ :=
  .removed ho rfl rfl ht h.seen_starts

theorem Phase.move [DecidableEq ι] {i : ι} {e : Event ι δ τ} {w : View δ τ}
    (h : Phase archive ps o owner v) (hm : Moves i e v w) :
    Phase archive (ps ++ reportsOf i [e]) (o.or (resultOf i [e])) (owner ∨ e = .delete i) w := by
  have hold : Phase archive ps o (owner ∨ e = .delete i) v := h.mono Or.inl
  cases hm with
  | silent hr ho ha hs hl he hd ht => simpa [hr, ho] using hold.silent ha hs hl he hd ht
  | reports ht => simpa [reportsOf, resultOf] using hold.reports ht _
  | returns ht => simpa [reportsOf, resultOf] using hold.returns ht _
  | finished ht => simpa [reportsOf, resultOf] using hold.finishes ht
  | progress hw hc => simpa [reportsOf, resultOf] using hold.progress hw hc
  | slotFinished hw => simpa [reportsOf, resultOf] using hold.slotFinished hw
  | deferredDelete hw => simpa [reportsOf, resultOf] using hold.deferredDelete hw
  | deletes hd ht => simpa [reportsOf, resultOf] using hold.deletes (Or.inr rfl) ht

/-- The two signals that end an operation. -/
def Signal.isFinal : Signal τ → Bool
  | .done | .result _ => true
  | _ => false

theorem not_isFinal_of_mem_direct {e : Emission τ} (he : e ∈ direct archive ps none) :
    e.signal.isFinal = false := by
  simp only [direct, List.append_nil, List.mem_map, List.mem_flatMap] at he
  obtain ⟨signal, ⟨p, -, hs⟩, rfl⟩ := he
  simp only [reported, List.mem_cons, List.mem_append, List.not_mem_nil, or_false] at hs
  rcases hs with rfl | rfl | hs | rfl
  · rfl
  · rfl
  · unfold emitArchiveProgressSignals at hs
    split_ifs at hs <;> simp_all [Signal.isFinal]
  · rfl

/-- A job that has ended its operation for its slots is not in its worker function. -/
theorem Phase.thread_of_isFinal (h : Phase archive ps o owner v) {e : Emission τ} (he : e ∈ v.seen)
    (hf : e.signal.isFinal = true) : v.job.thread = .notStarted ∨ v.job.thread = .finished := by
  cases h with
  | working _ _ _ _ hs =>
    have hm : e ∈ direct archive ps none := by simp [← hs, he]
    simp [not_isFinal_of_mem_direct hm] at hf
  | finished _ ht => exact Or.inr ht
  | complete _ _ ht => exact Or.inr ht
  | removed _ _ _ ht => exact ht

end phases

section views
variable [DecidableEq ι]

namespace State

/-- What the slots of a job have seen. -/
def seen (s : State ι δ τ) (i : ι) : List (Emission τ) := pending i s.emitted

def view (s : State ι δ τ) (i : ι) : View δ τ := ⟨s.jobs i, s.seen i, pending i s.queue⟩

theorem view_setJob_of_ne {s : State ι δ τ} {i j : ι} (h : j ≠ i) (job : Job δ τ) :
    (s.setJob j job).view i = s.view i := by
  simp [view, setJob, seen, Function.update_of_ne h.symm]

theorem view_setJob (s : State ι δ τ) (i : ι) (job : Job δ τ) :
    (s.setJob i job).view i = { s.view i with job := job } := by
  simp [view, setJob, seen]

theorem view_post_of_ne {s : State ι δ τ} {i j : ι} (h : j ≠ i) (calls : List Posted) :
    (s.post j calls).view i = s.view i := by
  simp [view, post, seen, pending_post_of_ne h]

theorem view_post (s : State ι δ τ) (i : ι) (calls : List Posted) :
    (s.post i calls).view i = { s.view i with waiting := (s.view i).waiting ++ calls } := by
  simp [view, post, seen]

theorem view_emit_of_ne {s : State ι δ τ} {i j : ι} (h : j ≠ i)
    (emissions : List (Emission τ)) : (s.emit j emissions).view i = s.view i := by
  have hs := pending_post_of_ne h emissions s.emitted
  simpa [view, emit, seen, EventQueue.post] using hs

theorem view_emit (s : State ι δ τ) (i : ι) (emissions : List (Emission τ)) :
    (s.emit i emissions).view i = { s.view i with seen := (s.view i).seen ++ emissions } := by
  have hs := pending_post_self i emissions s.emitted
  simpa [view, emit, seen, EventQueue.post] using hs

theorem view_delete_of_ne {s : State ι δ τ} {i j : ι} (h : j ≠ i) :
    (s.delete j).view i = s.view i := by
  simp [view, delete, setJob, seen, pending_drop_of_ne h, Function.update_of_ne h.symm]

theorem view_delete (s : State ι δ τ) (i : ι) :
    (s.delete i).view i = ⟨{ s.jobs i with deleted := true }, s.seen i, []⟩ := by
  simp [view, delete, setJob, seen]

/-- Only the receiver of a call notices it. -/
theorem view_perform_of_ne {s t : State ι δ τ} {i j : ι} (h : j ≠ i) {c : Posted}
    (ht : s.perform j c = some t) : t.view i = s.view i := by
  cases c with
  | slotFinished =>
    simp only [perform] at ht
    split_ifs at ht
    obtain rfl := Option.some.inj ht
    rw [view_post_of_ne h, view_emit_of_ne h, view_setJob_of_ne h]
  | deferredDelete =>
    obtain rfl := Option.some.inj ht
    exact view_delete_of_ne h
  | jobProgress | rawProgress | progress =>
    obtain rfl := Option.some.inj ht
    exact view_emit_of_ne h _

end State

/-- No delivery concerns a thread or a device. -/
theorem perform_frame {s t : State ι δ τ} {j : ι} {c : Posted} (ht : s.perform j c = some t) :
    (t.affinity = s.affinity ∧ t.held = s.held ∧ t.locks = s.locks) ∧
      ∀ i, (t.jobs i).thread = (s.jobs i).thread ∧ (t.jobs i).devices = (s.jobs i).devices := by
  cases c with
  | slotFinished =>
    simp only [State.perform] at ht
    split_ifs at ht
    obtain rfl := Option.some.inj ht
    refine ⟨⟨rfl, rfl, rfl⟩, fun i => ?_⟩
    by_cases h : i = j <;> simp [State.post, State.emit, State.setJob, h]
  | deferredDelete =>
    obtain rfl := Option.some.inj ht
    refine ⟨⟨rfl, rfl, rfl⟩, fun i => ?_⟩
    by_cases h : i = j <;> simp [State.delete, State.setJob, h]
  | jobProgress | rawProgress | progress =>
    obtain rfl := Option.some.inj ht
    exact ⟨⟨rfl, rfl, rfl⟩, fun i => ⟨rfl, rfl⟩⟩

theorem Moves.stays {i : ι} {e : Event ι δ τ} {v w : View δ τ} (hr : reportsOf i [e] = [])
    (ho : resultOf i [e] = none) (hw : w = v) : Moves i e v w := by
  subst hw
  exact .silent hr ho rfl rfl rfl rfl rfl (Or.inl rfl)

theorem moves_setJob {s u : State ι δ τ} {e : Event ι δ τ} {i j : ι} (job : Job δ τ)
    (hu : ∀ i, u.view i = (s.setJob j job).view i) (hr : ∀ i, reportsOf i [e] = [])
    (ho : ∀ i, resultOf i [e] = none)
    (hj : job.isArchiveJob = (s.jobs j).isArchiveJob ∧ job.result = (s.jobs j).result ∧
      job.auditLog = (s.jobs j).auditLog ∧ job.auditLogError = (s.jobs j).auditLogError ∧
      job.deleted = (s.jobs j).deleted)
    (ht : job.thread = (s.jobs j).thread ∨
      (s.jobs j).thread = .notStarted ∧ (s.jobs j).deleted = false ∧ job.thread = .started ∨
      (s.jobs j).thread = .started ∧ job.thread = .running) :
    Moves i e (s.view i) (u.view i) := by
  rw [hu i]
  by_cases h : j = i
  · subst h
    rw [State.view_setJob]
    obtain ⟨ha, hs, hl, he, hd⟩ := hj
    exact .silent (hr j) (ho j) ha hs hl he hd ht
  · exact .stays (hr i) (ho i) (State.view_setJob_of_ne h job)

variable [DecidableEq δ]

theorem moves_deliver {s t : State ι δ τ} (ht : step s .deliver = some t) (i : ι) :
    Moves i .deliver (s.view i) (t.view i) := by
  cases hq : s.queue with
  | nil => simp [step, hq] at ht
  | cons p q =>
    obtain ⟨j, c⟩ := p
    replace ht : ({ s with queue := q } : State ι δ τ).perform j c = some t := by
      simpa [step, hq] using ht
    by_cases hj : j = i
    · subst hj
      have hwait : (s.view j).waiting = c :: pending j q := by simp [State.view, hq]
      cases c with
      | slotFinished =>
        simp only [State.perform] at ht
        split_ifs at ht
        obtain rfl := Option.some.inj ht
        rw [State.view_post, State.view_emit, State.view_setJob]
        exact .slotFinished hwait
      | deferredDelete =>
        obtain rfl := Option.some.inj ht
        rw [State.view_delete]
        exact .deferredDelete hwait
      | jobProgress | rawProgress | progress =>
        obtain rfl := Option.some.inj ht
        rw [State.view_emit]
        exact .progress hwait rfl
    · apply Moves.stays rfl rfl
      rw [State.view_perform_of_ne hj ht]
      simp [State.view, State.seen, hq, pending_cons_of_ne hj]

theorem deliver_frame {s t : State ι δ τ} (ht : step s .deliver = some t) :
    (t.affinity = s.affinity ∧ t.held = s.held ∧ t.locks = s.locks) ∧
      ∀ i, (t.jobs i).thread = (s.jobs i).thread ∧ (t.jobs i).devices = (s.jobs i).devices := by
  cases hs : s.queue with
  | nil => simp [step, hs] at ht
  | cons p q =>
    have hp : ({ s with queue := q } : State ι δ τ).perform p.1 p.2 = some t := by
      simpa [step, hs] using ht
    have hf := perform_frame hp
    exact hf

/-- A step moves every job by one of the moves. -/
theorem moves_of_step {s t : State ι δ τ} {e : Event ι δ τ} (ht : step s e = some t) (i : ι) :
    Moves i e (s.view i) (t.view i) := by
  cases e with
  | deliver => exact moves_deliver ht i
  | run j devices =>
    simp only [step] at ht
    split_ifs at ht with hc
    obtain rfl := Option.some.inj ht
    exact moves_setJob { s.jobs j with hasFunction := true, thread := .started, devices := devices }
      (fun _ => rfl) (fun _ => rfl) (fun _ => rfl) ⟨rfl, rfl, rfl, rfl, rfl⟩
      (Or.inr (Or.inl ⟨hc.1, hc.2.1, rfl⟩))
  | setWorkerFunction j =>
    simp only [step] at ht
    split_ifs at ht with hc
    obtain rfl := Option.some.inj ht
    exact moves_setJob { s.jobs j with hasFunction := true }
      (fun _ => rfl) (fun _ => rfl) (fun _ => rfl) ⟨rfl, rfl, rfl, rfl, rfl⟩
      (Or.inl rfl)
  | startNow j =>
    simp only [step] at ht
    split_ifs at ht with hc
    obtain rfl := Option.some.inj ht
    exact moves_setJob { s.jobs j with thread := .started }
      (fun _ => rfl) (fun _ => rfl) (fun _ => rfl) ⟨rfl, rfl, rfl, rfl, rfl⟩
      (Or.inr (Or.inl ⟨hc.1, hc.2.1, rfl⟩))
  | enter j =>
    simp only [step] at ht
    split_ifs at ht with hc
    obtain rfl := Option.some.inj ht
    exact moves_setJob { s.jobs j with thread := .running }
      (fun _ => rfl) (fun _ => rfl) (fun _ => rfl) ⟨rfl, rfl, rfl, rfl, rfl⟩
      (Or.inr (Or.inr ⟨hc, rfl⟩))
  | showProgress j p =>
    simp only [step] at ht
    split_ifs at ht with hc
    obtain rfl := Option.some.inj ht
    by_cases h : j = i
    · subst h
      rw [State.view_post]
      exact .reports hc
    · apply Moves.stays (by simp [reportsOf, h]) rfl
      exact State.view_post_of_ne h _
  | returns j r =>
    simp only [step] at ht
    split_ifs at ht with hc
    obtain rfl := Option.some.inj ht
    by_cases h : j = i
    · subst h
      have hm := Moves.returns (i := j) (v := s.view j) (r := r) hc
      rwa [← State.view_setJob] at hm
    · apply Moves.stays rfl (by simp [resultOf, h])
      exact State.view_setJob_of_ne h _
  | finished j =>
    simp only [step] at ht
    split_ifs at ht with hc
    obtain rfl := Option.some.inj ht
    by_cases h : j = i
    · subst h
      rw [State.view_post, State.view_setJob]
      exact .finished hc
    · apply Moves.stays rfl rfl
      rw [State.view_post_of_ne h, State.view_setJob_of_ne h]
  | slotCancel j =>
    simp only [step] at ht
    split_ifs at ht with hc
    obtain rfl := Option.some.inj ht
    exact moves_setJob { s.jobs j with cancelRequested := true }
      (fun _ => rfl) (fun _ => rfl) (fun _ => rfl) ⟨rfl, rfl, rfl, rfl, rfl⟩
      (Or.inl rfl)
  | delete j =>
    simp only [step] at ht
    split_ifs at ht with hc
    obtain rfl := Option.some.inj ht
    by_cases h : j = i
    · subst h
      rw [State.view_delete]
      exact .deletes hc.1 hc.2
    · apply Moves.stays rfl rfl
      exact State.view_delete_of_ne h
  | release d =>
    simp only [step] at ht
    split_ifs at ht with hc
    obtain rfl := Option.some.inj ht
    exact .stays rfl rfl rfl

end views

section draining
variable [DecidableEq ι] [DecidableEq δ] {archive : ι → Bool} {ps : ι → List Report}
  {o : ι → Option (Result τ)} {owner : ι → Prop} {s : State ι δ τ}

/-- The deliveries that a call takes, with that of the deletion that a slotFinished posts. -/
def Posted.weight : Posted → Nat
  | .slotFinished => 2
  | _ => 1

/-- The jobs' thread is never blocked: where it asks for a result the mutex is unlocked. -/
theorem deliver_enabled (h : ∀ i, Phase (archive i) (ps i) (o i) (owner i) (s.view i))
    (hq : s.queue ≠ []) :
    ∃ t, step s .deliver = some t ∧ load Posted.weight t.queue < load Posted.weight s.queue := by
  cases hs : s.queue with
  | nil => exact absurd hs hq
  | cons p q =>
    obtain ⟨i, c⟩ := p
    rw [load_cons]
    cases c with
    | slotFinished =>
      have hw : (s.view i).waiting = .slotFinished :: pending i q := by simp [State.view, hs]
      have ht : (s.jobs i).thread ≠ .running := by
        intro hrun
        cases h i with
        | working _ _ _ hp =>
          have hc := hp .slotFinished (by simp [hw])
          simp [Posted.isProgress] at hc
        | finished _ ht => exact absurd (ht.symm.trans hrun) (by decide)
        | complete _ _ ht => exact absurd (ht.symm.trans hrun) (by decide)
        | removed _ _ hd => simp [hw] at hd
      refine ⟨_, by simp only [step, hs, State.perform, if_neg ht]; rfl, ?_⟩
      simp only [State.post, State.emit, State.setJob, post, load_append, Posted.weight]
      simp only [List.map_cons, List.map_nil, load, Posted.weight]
      omega
    | deferredDelete =>
      refine ⟨_, by simp only [step, hs, State.perform]; rfl, ?_⟩
      have hle := load_drop_le Posted.weight i q
      simp only [State.delete, Posted.weight]
      omega
    | jobProgress | rawProgress | progress =>
      refine ⟨_, by simp only [step, hs, State.perform]; rfl, ?_⟩
      simp [State.emit, Posted.weight]

theorem drain (h : ∀ i, Phase (archive i) (ps i) (o i) (owner i) (s.view i)) :
    ∃ n t, run step (List.replicate n .deliver) s = some t ∧ t.queue = [] ∧
      (∀ i, (t.jobs i).thread = (s.jobs i).thread) ∧
      ∀ i, Phase (archive i) (ps i) (o i) (owner i) (t.view i) := by
  induction hn : load Posted.weight s.queue using Nat.strong_induction_on generalizing s with
  | _ n ih =>
    by_cases hq : s.queue = []
    · exact ⟨0, s, rfl, hq, fun _ => rfl, h⟩
    · obtain ⟨t, ht, hlt⟩ := deliver_enabled h hq
      have hphase (i : ι) : Phase (archive i) (ps i) (o i) (owner i) (t.view i) := by
        simpa [reportsOf, resultOf] using (h i).move (moves_deliver ht i)
      obtain ⟨m, u, hu, hempty, hthread, hall⟩ := ih _ (hn ▸ hlt) hphase rfl
      refine ⟨m + 1, u, ?_, hempty, fun i => ?_, hall⟩
      · rw [List.replicate_succ]
        exact run_cons.mpr ⟨t, ht, hu⟩
      · rw [hthread i, ((deliver_frame ht).2 i).1]

end draining

section runs
variable [DecidableEq ι] [Inhabited τ] {archive : ι → Bool} {held : δ → Bool}
  {es : List (Event ι δ τ)} {s : State ι δ τ}

theorem phase_initial {owner : Prop} (i : ι) :
    Phase (archive i) [] (none : Option (Result τ)) owner
      ((initial archive held : State ι δ τ).view i) :=
  .working ⟨rfl, rfl, rfl, rfl⟩ (by simp [State.view, initial, Job.new])
    (by simp [State.view, initial, Job.new]) (by simp [State.view, initial])
    (by simp [State.view, State.seen, initial, direct])

variable [DecidableEq δ]

theorem phase_run (h : run step es (initial archive held) = some s) (i : ι) :
    Phase (archive i) (reportsOf i es) (resultOf i es) (.delete i ∈ es) (s.view i) := by
  have hstep : ∀ (h : List (Event ι δ τ)) s e t,
      Phase (archive i) (reportsOf i h) (resultOf i h) (.delete i ∈ h) (s.view i) →
      step s e = some t → Phase (archive i) (reportsOf i (h ++ [e])) (resultOf i (h ++ [e]))
        (.delete i ∈ h ++ [e]) (t.view i) := by
    intro h s e t hs ht
    have hm := hs.move (moves_of_step ht i)
    rw [reportsOf_append, resultOf_append]
    exact hm.mono (by simp [eq_comm])
  exact run_history (h := []) hstep (phase_initial i) h

/-- In whatever order the threads of the jobs take their steps, the slots connected to a job see
a beginning of what they would see if its operation ran in their own thread. -/
theorem seen_isPrefix_direct (h : run step es (initial archive held) = some s) (i : ι) :
    s.seen i <+: direct (archive i) (reportsOf i es) (resultOf i es) :=
  (phase_run h i).seen_starts

/-- An archive job with a device and another job, with steps of one between those of the other. -/
def parallel : List (Event Bool Unit Unit) :=
  [.run true [()], .run false [], .enter true, .enter false,
    .showProgress true ⟨[103, 112, 103, 116, 97, 114], 115, 1, 2⟩, .deliver,
    .returns true ⟨(), ['a'], .noError⟩, .showProgress false ⟨[], 0, 1, 1⟩, .slotCancel false,
    .finished true, .deliver, .deliver, .deliver, .deliver, .deliver, .release (), .deliver]

theorem parallel_runs : ∃ s, run step parallel (initial id fun _ => true) = some s :=
  Option.isSome_iff_exists.mp (by decide)

theorem seen_isPrefix_direct_parallel :
    ∃ s, run step parallel (initial id fun _ => true) = some s ∧
      s.seen false <+: direct false [⟨[], 0, 1, 1⟩] none := by
  obtain ⟨s, hs⟩ := parallel_runs
  exact ⟨s, hs, seen_isPrefix_direct hs false⟩

/-- From whatever the threads have done, the jobs' thread can deliver all that waits. Every job
that nobody deleted has then shown its slots each report and, if its thread has finished, its one
done and its one result, and is deleted. -/
theorem drained_seen (h : run step es (initial archive held) = some s) :
    ∃ n t, run step (List.replicate n .deliver) s = some t ∧ t.queue = [] ∧
      ∀ i, .delete i ∉ es →
        if (s.jobs i).thread = .finished then
          (resultOf i es).isSome = true ∧ (t.jobs i).deleted = true ∧
            t.seen i = direct (archive i) (reportsOf i es) (resultOf i es)
        else t.seen i = direct (archive i) (reportsOf i es) none := by
  obtain ⟨n, t, ht, hempty, hthread, hall⟩ := drain (phase_run h)
  refine ⟨n, t, ht, hempty, fun i hdel => ?_⟩
  have hwait : (t.view i).waiting = [] := by simp [State.view, hempty]
  rw [← hthread i]
  cases hall i with
  | working _ hth _ _ hs =>
    rw [if_neg (show (t.jobs i).thread ≠ .finished from hth)]
    rwa [hwait, List.flatMap_nil, List.append_nil] at hs
  | finished _ _ _ w hw => simp [hwait] at hw
  | complete r hr hth hs hw =>
    rw [if_pos (show (t.jobs i).thread = .finished from hth)]
    obtain ⟨-, hw⟩ | ⟨hd, -⟩ := hw
    · simp [hwait] at hw
    · exact ⟨by rw [hr]; rfl, hd, hr ▸ hs⟩
  | removed ho => exact absurd ho hdel

theorem drained_seen_parallel : ∃ s t : State Bool Unit Unit, ∃ n,
    run step parallel (initial id fun _ => true) = some s ∧
      run step (List.replicate n .deliver) s = some t ∧ t.queue = [] := by
  obtain ⟨s, hs⟩ := parallel_runs
  obtain ⟨n, t, ht, hempty, -⟩ := drained_seen hs
  exact ⟨s, t, n, hs, ht, hempty⟩

end runs

section archives

def Signal.isArchive : Signal τ → Bool
  | .fileProgress _ _ | .dataProgress _ _ => true
  | _ => false

/-- What gpgtar's reports tell about files and data. -/
def archiveReports (ps : List Report) : List (Signal τ) := ps.flatMap fun p =>
  emitArchiveProgressSignals (QString.fromUtf8 p.what) p.type p.current p.total

theorem isArchive_of_mem {what : QString} {type current total : Int} {signal : Signal τ}
    (h : signal ∈ emitArchiveProgressSignals what type current total) :
    signal.isArchive = true := by
  unfold emitArchiveProgressSignals at h
  split_ifs at h <;> simp_all [Signal.isArchive]

theorem filter_reported (archive : Bool) (p : Report) :
    (reported (τ := τ) archive p).filter Signal.isArchive =
      if archive then archiveReports [p] else [] := by
  have hall : (archiveReports (τ := τ) [p]).filter Signal.isArchive = archiveReports [p] := by
    apply List.filter_eq_self.mpr
    intro signal hs
    rw [archiveReports, List.flatMap_singleton] at hs
    exact isArchive_of_mem hs
  cases archive with
  | false => simp [reported, Signal.isArchive]
  | true =>
    rw [archiveReports, List.flatMap_singleton] at hall
    simp [reported, Signal.isArchive, hall, archiveReports]

theorem filter_reports (archive : Bool) (ps : List Report) :
    (ps.flatMap (reported (τ := τ) archive)).filter Signal.isArchive =
      if archive then archiveReports ps else [] := by
  induction ps with
  | nil => simp [archiveReports]
  | cons p ps ih =>
    rw [List.flatMap_cons, List.filter_append, filter_reported, ih]
    cases archive <;> simp [archiveReports]

theorem filter_direct (archive : Bool) (ps : List Report) (o : Option (Result τ)) :
    ((direct archive ps o).map Emission.signal).filter Signal.isArchive =
      if archive then archiveReports ps else [] := by
  rw [← filter_reports archive ps]
  cases o <;> simp [direct, Function.comp_def, Signal.isArchive]

variable [DecidableEq ι] [DecidableEq δ] [Inhabited τ] {archive : ι → Bool} {held : δ → Bool}
  {es : List (Event ι δ τ)} {s : State ι δ τ}

/-- An archive job tells the progress of files and data in the order of gpgtar's reports, none
twice and none left out on the way; other jobs never do. -/
theorem archiveProgress_isPrefix (h : run step es (initial archive held) = some s) (i : ι) :
    ((s.seen i).map Emission.signal).filter Signal.isArchive <+:
      if archive i then archiveReports (reportsOf i es) else [] := by
  rw [← filter_direct (archive i) (reportsOf i es) (resultOf i es)]
  exact ((seen_isPrefix_direct h i).map _).filter _

theorem archiveProgress_isPrefix_parallel :
    ∃ s, run step parallel (initial id fun _ => true) = some s ∧
      ((s.seen true).map Emission.signal).filter Signal.isArchive <+: [.dataProgress 1 2] := by
  obtain ⟨s, hs⟩ := parallel_runs
  exact ⟨s, hs, archiveProgress_isPrefix hs true⟩

end archives

end QGpgME.ThreadedJob
