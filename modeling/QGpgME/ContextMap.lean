import QGpgME.EventRun
import QGpgME.QtString
import Mathlib.Logic.Function.Basic
import Mathlib.Tactic.SplitIfs

/-! The threaded jobs, the contexts that they own and `g_context_map`. Two kinds of jobs list
keys with a job of their own on the same context, which they never delete. -/
namespace QGpgME.ContextMap
open EventRun

/-- `other` stands for every job that creates no further job, the key listing among them. -/
inductive Kind where
  | keyForMailbox | wkdRefresh | other
deriving DecidableEq

/-- The thread in which a job object lives; a worker thread delivers no signals to it. -/
inductive Affinity where
  | mainThread | workerThread
deriving DecidableEq

/-- `m_thread`, with the email addresses bound to the function that it runs. -/
inductive Thread where
  | idle
  | running (emails : List QString)
  | finished
deriving DecidableEq

/-- A job is connected to aboutToQuit where the application object exists before it. -/
structure ThreadedJob where
  kind : Kind
  mCtx : Nat
  nested : Bool
  affinity : Affinity
  connected : Bool
  thread : Thread
  deleteLater : Bool
  deleted : Bool
deriving DecidableEq

/-- Jobs and contexts are numbered in the order in which they are created. `canceled` lists
the contexts on which slotCancel acted, with whether they had been destroyed before. -/
structure World where
  app : Bool
  jobs : List ThreadedJob
  contexts : Nat
  destroyed : List Nat
  contextMap : List (Nat × Nat)
  canceled : List (Nat × Bool)

namespace World

def new (app : Bool) : World := ⟨app, [], 0, [], [], []⟩

def live (w : World) (j : Nat) : Option ThreadedJob :=
  (getElem? w.jobs j).filter fun job => !job.deleted

/-- The constructor of a job on context `ctx`, with lateInitialization. -/
def add (w : World) (kind : Kind) (ctx : Nat) (nested : Bool) (affinity : Affinity) : World :=
  { w with
    jobs := w.jobs ++ [⟨kind, ctx, nested, affinity, w.app, .idle, false, false⟩]
    contextMap := w.contextMap ++ [(w.jobs.length, ctx)] }

def create (w : World) (kind : Kind) : World :=
  { w.add kind w.contexts false .mainThread with contexts := w.contexts + 1 }

/-- What `do_work` and `locate_external_keys` do to the jobs. -/
def execute (w : World) (kind : Kind) (ctx : Nat) (emails : List QString) (affinity : Affinity) :
    World :=
  match kind with
  | .keyForMailbox => w.add .other ctx true affinity
  | .wkdRefresh => if emails = [] then w else w.add .other ctx true affinity
  | .other => w

def setJob (w : World) (j : Nat) (job : ThreadedJob) : World := { w with jobs := w.jobs.set j job }

/-- The destructor; the job's own shared pointer is the only one that counts its context. -/
def delete (w : World) (j : Nat) (job : ThreadedJob) : World :=
  { w.setJob j { job with deleted := true } with
    contextMap := w.contextMap.filter fun entry => entry.1 ≠ j
    destroyed := w.destroyed ++ [job.mCtx] }

def slotCancel (w : World) (job : ThreadedJob) : World :=
  { w with canceled := w.canceled ++ [(job.mCtx, decide (job.mCtx ∈ w.destroyed))] }

/-- The live jobs that aboutToQuit reaches. -/
def reached (w : World) : List ThreadedJob :=
  w.jobs.filter fun job => !job.deleted && job.connected && job.affinity = .mainThread

/-- `Job::context` -/
def context (w : World) (j : Nat) : Option Nat :=
  (w.contextMap.find? fun entry => entry.1 = j).map Prod.snd

end World

/-- Somebody creates a job, executes it or starts it, with the email addresses that a WKD
refresh looks up; its thread runs to the end or reports that; a job is deleted or canceled;
the application quits. -/
inductive Event where
  | create (kind : Kind)
  | exec (job : Nat)
  | start (job : Nat) (emails : List QString)
  | work (job : Nat)
  | slotFinished (job : Nat)
  | delete (job : Nat)
  | slotCancel (job : Nat)
  | aboutToQuit

/-- Nobody but its creator has a pointer to a nested job. A job is not deleted while its
thread runs. -/
def step (w : World) : Event → Option World
  | .create kind => some (w.create kind)
  | .exec j => (w.live j).bind fun job =>
    if job.nested = true ∨ job.kind = .wkdRefresh then none
    else some (w.execute job.kind job.mCtx [] .mainThread)
  | .start j emails => (w.live j).bind fun job =>
    if job.nested = true ∨ job.thread ≠ .idle then none
    else some (w.setJob j { job with thread := .running emails })
  | .work j => (w.live j).bind fun job => match job.thread with
    | .running emails => some ((w.setJob j { job with thread := .finished }).execute job.kind
        job.mCtx emails .workerThread)
    | _ => none
  | .slotFinished j => (w.live j).bind fun job =>
    if job.thread = .finished then
      some (w.setJob j { job with thread := .idle, deleteLater := true })
    else none
  | .delete j => (w.live j).bind fun job => match job.thread with
    | .running _ => none
    | _ => if job.nested then none else some (w.delete j job)
  | .slotCancel j => (w.live j).bind fun job => if job.nested then none else some (w.slotCancel job)
  | .aboutToQuit => if w.app then some (w.reached.foldl World.slotCancel w) else none

/-- The context of a live job. -/
def World.owned (w : World) (j : Nat) : Option Nat := (w.live j).map ThreadedJob.mCtx

/-- No entry of the map, no live job and no cancellation has to do with a context that has
been destroyed. -/
structure Sound (w : World) : Prop where
  mapped : ∀ j c, (j, c) ∈ w.contextMap → w.live j ≠ none ∧ c ∉ w.destroyed
  owned : ∀ j c, w.owned j = some c → c ∉ w.destroyed
  canceled : ∀ a ∈ w.canceled, a.2 = false

/-- A job that is deleted shares its context with no other live job. -/
def Unshared (w : World) : Event → Prop
  | .delete j => step w (.delete j) ≠ none → ∀ k, k ≠ j → w.owned k ≠ w.owned j
  | _ => True

structure Inv (w : World) : Prop where
  owned_lt : ∀ j c, w.owned j = some c → c < w.contexts
  destroyed_lt : ∀ c ∈ w.destroyed, c < w.contexts
  mapped : ∀ j c, (j, c) ∈ w.contextMap → w.owned j = some c

namespace World
variable {w : World}

theorem live_eq_some {j : Nat} {job : ThreadedJob} (h : w.live j = some job) :
    getElem? w.jobs j = some job ∧ job.deleted = false := by
  simpa [live, Option.filter_eq_some_iff] using h

theorem setJob_self {j : Nat} {job : ThreadedJob} (h : w.live j = some job) :
    w.setJob j job = w := by
  obtain ⟨hlt, hget⟩ := List.getElem?_eq_some_iff.mp (live_eq_some h).1
  rw [setJob, ← hget, List.set_getElem_self hlt]

theorem owned_of_live {j : Nat} {job : ThreadedJob} (h : w.live j = some job) :
    w.owned j = some job.mCtx := by
  rw [owned, h, Option.map_some]

theorem live_ne_none_iff {j : Nat} : w.live j ≠ none ↔ ∃ c, w.owned j = some c := by
  cases h : w.live j with
  | none => simp [owned, h]
  | some job => simp [owned, h]

theorem owned_length : w.owned w.jobs.length = none := by
  rw [owned, live, List.getElem?_eq_none (Nat.le_refl _)]
  rfl

theorem owned_add (kind : Kind) (ctx : Nat) (nested : Bool) (affinity : Affinity) :
    (w.add kind ctx nested affinity).owned =
      Function.update w.owned w.jobs.length (some ctx) := by
  funext k
  rw [Function.update_apply, owned, live, add]
  split_ifs with hk
  · rw [hk, List.getElem?_concat_length]
    rfl
  · by_cases hlt : k < w.jobs.length
    · rw [List.getElem?_append_left hlt]
      rfl
    · have hout : w.jobs.length + 1 ≤ k := by omega
      have hout' : w.jobs.length ≤ k := by omega
      rw [owned, live, List.getElem?_eq_none (by simpa using hout), List.getElem?_eq_none hout']

/-- A job object that is replaced in the list: its context shows unless it is deleted. -/
theorem owned_setJob {j : Nat} {old job : ThreadedJob} (h : w.live j = some old) :
    (w.setJob j job).owned =
      Function.update w.owned j (if job.deleted then none else some job.mCtx) := by
  obtain ⟨hget, -⟩ := live_eq_some h
  obtain ⟨hlt, -⟩ := List.getElem?_eq_some_iff.mp hget
  funext k
  rw [Function.update_apply, owned, live, setJob]
  split_ifs with hk hdel
  · rw [hk, List.getElem?_set_self hlt]
    simp [hdel]
  · rw [hk, List.getElem?_set_self hlt]
    simp [hdel]
  · rw [List.getElem?_set_ne (Ne.symm hk)]
    rfl

theorem owned_setJob_self {j : Nat} {old job : ThreadedJob} (h : w.live j = some old)
    (hctx : job.mCtx = old.mCtx) (hdel : job.deleted = false) :
    (w.setJob j job).owned = w.owned := by
  rw [owned_setJob h, hdel, hctx, ← owned_of_live h]
  exact Function.update_eq_self j w.owned

theorem owned_setJob_live {j : Nat} {old job : ThreadedJob} (h : w.live j = some old)
    (hctx : job.mCtx = old.mCtx) (hdel : job.deleted = false) :
    (w.setJob j job).owned j = some old.mCtx := by
  rw [owned_setJob_self h hctx hdel]
  exact owned_of_live h

theorem owned_delete {j : Nat} {job : ThreadedJob} (h : w.live j = some job) :
    (w.delete j job).owned = Function.update w.owned j none := by
  have hset : (w.setJob j { job with deleted := true }).owned = _ := owned_setJob h
  exact hset

theorem foldl_slotCancel (jobs : List ThreadedJob) (w : World) :
    jobs.foldl slotCancel w = { w with
      canceled := w.canceled ++
        jobs.map fun job => (job.mCtx, decide (job.mCtx ∈ w.destroyed)) } := by
  induction jobs generalizing w with
  | nil => simp
  | cons job jobs ih => simp [ih, slotCancel]

theorem owned_of_mem_reached {job : ThreadedJob} (h : job ∈ w.reached) :
    ∃ j, w.owned j = some job.mCtx := by
  obtain ⟨hmem, hjob⟩ := List.mem_filter.mp h
  obtain ⟨j, hj⟩ := List.mem_iff_getElem?.mp hmem
  have hdel : job.deleted = false := by
    simp only [Bool.and_eq_true, Bool.not_eq_true'] at hjob
    exact hjob.1.1
  exact ⟨j, owned_of_live (by simp [live, hj, hdel])⟩

end World

section steps
variable {w : World}

/-- Under the invariant it is enough to look at the contexts of the live jobs. -/
theorem sound_iff (h : Inv w) : Sound w ↔
    (∀ j c, w.owned j = some c → c ∉ w.destroyed) ∧ ∀ a ∈ w.canceled, a.2 = false := by
  constructor
  · exact fun hs => ⟨hs.owned, hs.canceled⟩
  · intro ⟨howned, hcanceled⟩
    refine ⟨fun j c hmem => ?_, howned, hcanceled⟩
    exact ⟨World.live_ne_none_iff.mpr ⟨c, h.mapped j c hmem⟩, howned j c (h.mapped j c hmem)⟩

theorem Inv.add (h : Inv w) {ctx : Nat} (hctx : ctx < w.contexts) (kind : Kind) (nested : Bool)
    (affinity : Affinity) : Inv (w.add kind ctx nested affinity) := by
  refine ⟨fun j c hj => ?_, h.destroyed_lt, fun j c hmem => ?_⟩
  · rw [World.owned_add, Function.update_apply] at hj
    split_ifs at hj with heq
    · obtain rfl := Option.some.inj hj
      exact hctx
    · exact h.owned_lt j c hj
  · rw [World.owned_add, Function.update_apply]
    cases List.mem_append.mp hmem with
    | inl hold =>
      have howned := h.mapped j c hold
      have hne : j ≠ w.jobs.length := by
        intro heq
        rw [heq, World.owned_length] at howned
        simp at howned
      rw [if_neg hne]
      exact howned
    | inr hnew =>
      obtain ⟨rfl, rfl⟩ := Prod.mk.inj (List.mem_singleton.mp hnew)
      exact if_pos rfl

theorem Sound.add (h : Inv w) (hs : Sound w) {ctx : Nat} (hctx : ctx < w.contexts)
    (hlive : ctx ∉ w.destroyed) (kind : Kind) (nested : Bool) (affinity : Affinity) :
    Sound (w.add kind ctx nested affinity) := by
  refine (sound_iff (h.add hctx kind nested affinity)).mpr ⟨fun j c hj => ?_, hs.canceled⟩
  rw [World.owned_add, Function.update_apply] at hj
  split_ifs at hj
  · obtain rfl := Option.some.inj hj
    exact hlive
  · exact hs.owned j c hj

theorem Inv.create (h : Inv w) (kind : Kind) : Inv (w.create kind) := by
  have hmore : Inv { w with contexts := w.contexts + 1 } :=
    ⟨fun j c hj => Nat.lt_succ_of_lt (h.owned_lt j c hj),
      fun c hc => Nat.lt_succ_of_lt (h.destroyed_lt c hc), h.mapped⟩
  exact hmore.add (Nat.lt_succ_self _) kind false .mainThread

theorem Sound.create (h : Inv w) (hs : Sound w) (kind : Kind) : Sound (w.create kind) := by
  refine (sound_iff (h.create kind)).mpr ⟨fun j c hj => ?_, hs.canceled⟩
  have hj : (w.add kind w.contexts false .mainThread).owned j = some c := hj
  rw [World.owned_add, Function.update_apply] at hj
  split_ifs at hj
  · obtain rfl := Option.some.inj hj
    exact fun hd => Nat.lt_irrefl _ (h.destroyed_lt _ hd)
  · exact hs.owned j c hj

/-- A change of the job objects that shows no other contexts. -/
theorem Inv.jobs (h : Inv w) {jobs : List ThreadedJob}
    (ho : World.owned { w with jobs := jobs } = w.owned) : Inv { w with jobs := jobs } :=
  ⟨fun j c hj => h.owned_lt j c (ho ▸ hj), h.destroyed_lt, fun j c hm => ho ▸ h.mapped j c hm⟩

theorem Sound.jobs (h : Inv w) (hs : Sound w) {jobs : List ThreadedJob}
    (ho : World.owned { w with jobs := jobs } = w.owned) : Sound { w with jobs := jobs } :=
  (sound_iff (h.jobs ho)).mpr ⟨fun j c hj => hs.owned j c (ho ▸ hj), hs.canceled⟩

theorem execute_cases (kind : Kind) (ctx : Nat) (emails : List QString) (affinity : Affinity) :
    w.execute kind ctx emails affinity = w ∨
      w.execute kind ctx emails affinity = w.add .other ctx true affinity := by
  cases kind with
  | keyForMailbox => exact Or.inr rfl
  | wkdRefresh =>
    simp only [World.execute]
    split_ifs
    · exact Or.inl rfl
    · exact Or.inr rfl
  | other => exact Or.inl rfl

theorem Inv.execute (h : Inv w) {j ctx : Nat} (hj : w.owned j = some ctx) (kind : Kind)
    (emails : List QString) (affinity : Affinity) :
    Inv (w.execute kind ctx emails affinity) := by
  cases execute_cases (w := w) kind ctx emails affinity with
  | inl hsame => rwa [hsame]
  | inr hadd =>
    rw [hadd]
    exact h.add (h.owned_lt j ctx hj) .other true affinity

theorem Sound.execute (h : Inv w) (hs : Sound w) {j ctx : Nat} (hj : w.owned j = some ctx)
    (kind : Kind) (emails : List QString) (affinity : Affinity) :
    Sound (w.execute kind ctx emails affinity) := by
  cases execute_cases (w := w) kind ctx emails affinity with
  | inl hsame => rwa [hsame]
  | inr hadd =>
    rw [hadd]
    exact hs.add h (h.owned_lt j ctx hj) (hs.owned j ctx hj) .other true affinity

theorem Inv.delete (h : Inv w) {j : Nat} {job : ThreadedJob} (hj : w.live j = some job) :
    Inv (w.delete j job) := by
  have howned := World.owned_delete hj
  refine ⟨fun k c hk => ?_, fun c hc => ?_, fun k c hmem => ?_⟩
  · rw [howned, Function.update_apply] at hk
    split_ifs at hk
    exact h.owned_lt k c hk
  · cases List.mem_append.mp hc with
    | inl hold => exact h.destroyed_lt c hold
    | inr hnew =>
      rw [List.mem_singleton.mp hnew]
      exact h.owned_lt j job.mCtx (World.owned_of_live hj)
  · obtain ⟨hmem, hne⟩ := List.mem_filter.mp hmem
    rw [howned, Function.update_of_ne (by simpa using hne)]
    exact h.mapped k c hmem

/-- The deletion of a job leaves a job with a dangling context just where another live job is
on the same context. -/
theorem sound_delete_iff (h : Inv w) (hs : Sound w) {j : Nat} {job : ThreadedJob}
    (hj : w.live j = some job) :
    Sound (w.delete j job) ↔ ∀ k, k ≠ j → w.owned k ≠ w.owned j := by
  have howned := World.owned_delete hj
  have hctx := World.owned_of_live hj
  rw [sound_iff (h.delete hj), howned]
  constructor
  · intro ⟨hall, _⟩ k hk hsame
    rw [hctx] at hsame
    refine hall k job.mCtx ?_ (List.mem_append_right _ (List.mem_singleton_self _))
    rw [Function.update_of_ne hk]
    exact hsame
  · intro hunshared
    refine ⟨fun k c hk hmem => ?_, hs.canceled⟩
    rw [Function.update_apply] at hk
    split_ifs at hk with hne
    cases List.mem_append.mp hmem with
    | inl hold => exact hs.owned k c hk hold
    | inr hnew =>
      rw [List.mem_singleton.mp hnew, ← hctx] at hk
      exact hunshared k hne hk

theorem Sound.cancel (hs : Sound w) {acts : List (Nat × Bool)}
    (h : ∀ a ∈ acts, a.2 = false) : Sound { w with canceled := w.canceled ++ acts } := by
  refine ⟨hs.mapped, hs.owned, fun a ha => ?_⟩
  cases List.mem_append.mp ha with
  | inl hold => exact hs.canceled a hold
  | inr hnew => exact h a hnew

/-- What a step does, job by job. -/
theorem step_cases {e : Event} {v : World} (hv : step w e = some v) :
    (∃ kind, v = w.create kind ∧ Unshared w e) ∨
    (∃ j job new emails affinity, w.live j = some job ∧ new.mCtx = job.mCtx ∧
      new.deleted = false ∧ Unshared w e ∧
      v = (w.setJob j new).execute job.kind job.mCtx emails affinity) ∨
    (∃ j job new, w.live j = some job ∧ new.mCtx = job.mCtx ∧ new.deleted = false ∧
      Unshared w e ∧ v = w.setJob j new) ∨
    (∃ j job, w.live j = some job ∧ e = .delete j ∧ v = w.delete j job) ∨
    ∃ jobs : List ThreadedJob, (∀ job ∈ jobs, ∃ j, w.owned j = some job.mCtx) ∧ Unshared w e ∧
      v = jobs.foldl World.slotCancel w := by
  cases e with
  | create kind => exact Or.inl ⟨kind, (Option.some.inj hv).symm, trivial⟩
  | exec j =>
    obtain ⟨job, hj, hv⟩ := Option.bind_eq_some_iff.mp hv
    split_ifs at hv
    refine Or.inr (Or.inl ⟨j, job, job, [], .mainThread, hj, rfl, (World.live_eq_some hj).2,
      trivial, ?_⟩)
    rw [World.setJob_self hj]
    exact (Option.some.inj hv).symm
  | start j emails =>
    obtain ⟨job, hj, hv⟩ := Option.bind_eq_some_iff.mp hv
    split_ifs at hv
    exact Or.inr (Or.inr (Or.inl ⟨j, job, { job with thread := .running emails }, hj, rfl,
      (World.live_eq_some hj).2, trivial, (Option.some.inj hv).symm⟩))
  | work j =>
    obtain ⟨job, hj, hv⟩ := Option.bind_eq_some_iff.mp hv
    split at hv
    · exact Or.inr (Or.inl ⟨j, job, { job with thread := .finished }, _, _, hj, rfl,
        (World.live_eq_some hj).2, trivial, (Option.some.inj hv).symm⟩)
    · simp at hv
  | slotFinished j =>
    obtain ⟨job, hj, hv⟩ := Option.bind_eq_some_iff.mp hv
    split_ifs at hv
    exact Or.inr (Or.inr (Or.inl ⟨j, job, { job with thread := .idle, deleteLater := true }, hj,
      rfl, (World.live_eq_some hj).2, trivial, (Option.some.inj hv).symm⟩))
  | delete j =>
    obtain ⟨job, hj, hv⟩ := Option.bind_eq_some_iff.mp hv
    refine Or.inr (Or.inr (Or.inr (Or.inl ⟨j, job, hj, rfl, ?_⟩)))
    split at hv
    · simp at hv
    · split_ifs at hv
      exact (Option.some.inj hv).symm
  | slotCancel j =>
    obtain ⟨job, hj, hv⟩ := Option.bind_eq_some_iff.mp hv
    split_ifs at hv
    refine Or.inr (Or.inr (Or.inr (Or.inr ⟨[job], ?_, trivial, (Option.some.inj hv).symm⟩)))
    exact List.forall_mem_singleton.mpr ⟨j, World.owned_of_live hj⟩
  | aboutToQuit =>
    simp only [step] at hv
    split_ifs at hv
    exact Or.inr (Or.inr (Or.inr (Or.inr ⟨w.reached,
      fun job hjob => World.owned_of_mem_reached hjob, trivial, (Option.some.inj hv).symm⟩)))

theorem step_inv (w : World) (e : Event) (v : World) (h : Inv w) (hv : step w e = some v) :
    Inv v := by
  obtain ⟨kind, rfl, -⟩ | ⟨j, job, new, emails, affinity, hj, hctx, hdel, -, rfl⟩ |
    ⟨j, job, new, hj, hctx, hdel, -, rfl⟩ | ⟨j, job, hj, -, rfl⟩ | ⟨jobs, -, -, rfl⟩ :=
    step_cases hv
  · exact h.create kind
  · have hjobs := h.jobs (World.owned_setJob_self hj hctx hdel)
    exact hjobs.execute (World.owned_setJob_live hj hctx hdel) _ _ _
  · exact h.jobs (World.owned_setJob_self hj hctx hdel)
  · exact h.delete hj
  · rw [World.foldl_slotCancel]
    exact ⟨h.owned_lt, h.destroyed_lt, h.mapped⟩

theorem step_sound_iff {e : Event} {v : World} (h : Inv w) (hs : Sound w)
    (hv : step w e = some v) : Sound v ↔ Unshared w e := by
  obtain ⟨kind, rfl, he⟩ | ⟨j, job, new, emails, affinity, hj, hctx, hdel, he, rfl⟩ |
    ⟨j, job, new, hj, hctx, hdel, he, rfl⟩ | ⟨j, job, hj, rfl, rfl⟩ | ⟨jobs, hjobs, he, rfl⟩ :=
    step_cases hv
  · exact iff_of_true (hs.create h kind) he
  · have ho := World.owned_setJob_self hj hctx hdel
    have howned := World.owned_setJob_live hj hctx hdel
    exact iff_of_true ((hs.jobs h ho).execute (h.jobs ho) howned _ _ _) he
  · exact iff_of_true (hs.jobs h (World.owned_setJob_self hj hctx hdel)) he
  · rw [sound_delete_iff h hs hj, Unshared, hv]
    simp
  · refine iff_of_true ?_ he
    rw [World.foldl_slotCancel]
    refine hs.cancel fun a ha => ?_
    obtain ⟨job, hjob, rfl⟩ := List.mem_map.mp ha
    obtain ⟨j, hj⟩ := hjobs job hjob
    simpa using hs.owned j job.mCtx hj

theorem unshared_of_stopped (w : World) (e : Event) (h : step w e = none) : Unshared w e := by
  cases e with
  | delete j => exact fun hne => absurd h hne
  | _ => trivial

theorem new_sound (app : Bool) : Inv (World.new app) ∧ Sound (World.new app) := by
  refine ⟨⟨?_, ?_, ?_⟩, ⟨?_, ?_, ?_⟩⟩
  all_goals simp [World.new, World.owned, World.live]

/-- In every state of a run no map entry, no live job and no cancellation has to do with a
destroyed context, if and only if each job that is deleted is the only one on its context. -/
theorem sound_iff_unshared (app : Bool) (es : List Event) :
    (∀ n w, run step (es.take n) (World.new app) = some w → Sound w) ↔
      Along step Unshared es (World.new app) :=
  forall_states_iff (q := fun _ => True) (fun w e v h _ hv => step_inv w e v h hv)
    (fun _ _ _ h _ hs hv => step_sound_iff h hs hv) unshared_of_stopped (new_sound app).1
    (new_sound app).2 fun _ _ => trivial

/-- A mailbox job that is executed and deleted leaves its nested job behind, with an entry for
the destroyed context, on which the end of the application acts. A WKD refresh leaves one
after each threaded run. -/
theorem nested_job_dangles :
    (∃ w, run step [.create .keyForMailbox, .exec 0, .delete 0, .aboutToQuit]
        (World.new true) = some w ∧
      w.contextMap = [(1, 0)] ∧ w.destroyed = [0] ∧ w.canceled = [(0, true)] ∧ ¬Sound w) ∧
    ∃ w, run step [.create .wkdRefresh, .start 0 ["a@b".toList], .work 0, .slotFinished 0,
        .delete 0] (World.new true) = some w ∧
      w.context 1 = some 0 ∧ w.destroyed = [0] ∧ ¬Sound w := by
  have hmapped : ∀ w : World, (1, 0) ∈ w.contextMap → 0 ∈ w.destroyed → ¬Sound w :=
    fun w hmem hd hs => (hs.mapped 1 0 hmem).2 hd
  constructor
  · exact ⟨_, rfl, rfl, rfl, rfl, hmapped _ (by decide) (by decide)⟩
  · exact ⟨_, rfl, rfl, rfl, hmapped _ (by decide) (by decide)⟩

end steps

end QGpgME.ContextMap
