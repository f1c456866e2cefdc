import QGpgME.MultiDeleteJob

/-! How runs of MultiDeleteJob end: the result comes once and in time, and no key is handed
to a DeleteJob behind one that was not deleted. -/
namespace QGpgME.MultiDeleteRuns
open EventRun MultiDeleteJob
variable {Key Flags : Type*}

/-- The job as start finds it. -/
def fresh (keys : List Key) (flags : Flags) : Job Key Flags :=
  ⟨keys, flags, 0, none, none, [], false, []⟩

theorem start_cons (key : Key) (keys : List Key) (flags : Flags) (answer : Error) :
    (Job.start (key :: keys) flags answer).1 =
      ((fresh (key :: keys) flags).handOver key answer).emit
        (if answer.asBool then [.deleteLater] else []) := by
  cases ha : answer.asBool with
  | true => simp [Job.start, Job.startAJob, fresh, ha]
  | false => simp [Job.start, Job.startAJob, fresh, ha, Job.emit]

/-- The DeleteJob at position `i` has reported. -/
def reported (s : Job Key Flags) (i : Nat) (err : Error) : Job Key Flags :=
  { s with outstanding := none, mJob := none, reports := s.reports ++ [(i, err)] }

def next (s : Job Key Flags) : Job Key Flags := { s with mIt := s.mIt + 1 }

/-- Everything the report of a DeleteJob can lead to. -/
theorem step_result_cases {s t : Job Key Flags} {err answer : Error}
    (hle : s.mIt ≤ s.mKeys.length) (ht : step s (.result err answer) = some t) :
    ∃ i, s.outstanding = some i ∧
      ((err.asBool = true ∧ t = (reported s i err).finish err) ∨
      (err.asBool = false ∧ s.mIt = s.mKeys.length ∧ t = (reported s i err).finish err) ∨
      (err.asBool = false ∧ s.mIt + 1 = s.mKeys.length ∧
        t = (next (reported s i err)).finish err) ∨
      ∃ key, err.asBool = false ∧ getElem? s.mKeys (s.mIt + 1) = some key ∧
        ((answer.asBool = true ∧
          t = ((next (reported s i err)).handOver key answer).finish answer) ∨
        (answer.asBool = false ∧
          t = ((next (reported s i err)).handOver key answer).reportProgress))) := by
  obtain ⟨i, hi, rfl⟩ := Option.map_eq_some_iff.mp ht
  exact ⟨i, hi, Job.slotResult_cases
    { s with outstanding := none, reports := s.reports ++ [(i, err)] } err answer hle⟩

/-- The iterator never passes the end. -/
theorem step_mIt_le (s : Job Key Flags) (e : Event) (t : Job Key Flags)
    (h : s.mIt ≤ s.mKeys.length) (ht : step s e = some t) : t.mIt ≤ t.mKeys.length := by
  rw [step_mKeys s e t ht]
  cases e with
  | cancel =>
    obtain rfl : s.slotCancel = t := by simpa [step] using ht
    simp only [Job.slotCancel]
    split
    · exact Nat.le_refl _
    · exact Nat.le_refl _
  | result err answer =>
    obtain ⟨i, -, ⟨-, rfl⟩ | ⟨-, -, rfl⟩ | ⟨-, hlast, rfl⟩ | ⟨key, -, hkey, ⟨-, rfl⟩ | ⟨-, rfl⟩⟩⟩ :=
      step_result_cases h ht
    · exact h
    · exact h
    · exact Nat.le_of_eq hlast
    · exact Nat.le_of_lt (List.getElem?_eq_some_iff.mp hkey).1
    · exact Nat.le_of_lt (List.getElem?_eq_some_iff.mp hkey).1

section ending

/-- The signals that end the job. -/
def ending : Output Key Flags → Bool
  | .done => true
  | .result _ _ => true
  | _ => false

def endings (s : Job Key Flags) : List (Output Key Flags) := s.outputs.filter ending

/-- While a DeleteJob is outstanding the end has not been signalled; without one, done and
result have been emitted once, in this order, and the job is about to be deleted. -/
structure Settled (s : Job Key Flags) : Prop where
  running : s.outstanding ≠ none → endings s = []
  ended : s.outstanding = none →
    (∃ e k, endings s = [.done, .result e k]) ∧ Output.deleteLater ∈ s.outputs

/-- The next DeleteJob, should there be one, is not answered with a cancellation. -/
def NextStarts (s : Job Key Flags) : Event → Prop
  | .result err answer => s.outstanding ≠ none → err.asBool = false →
      s.mIt + 1 < s.mKeys.length → answer.isCanceled = false
  | .cancel => True

theorem nextStarts_of_stopped (s : Job Key Flags) (e : Event) (h : step s e = none) :
    NextStarts s e := by
  cases e with
  | cancel => trivial
  | result err answer => exact fun hne => absurd (Option.map_eq_none_iff.mp h) hne

theorem endings_append (s : Job Key Flags) {os : List (Output Key Flags)}
    (h : s.outputs.filter ending = []) :
    (s.outputs ++ os).filter ending = os.filter ending := by
  rw [List.filter_append, h, List.nil_append]

theorem finish_settled {s : Job Key Flags} (err : Error) (ho : s.outstanding = none)
    (h : endings s = []) : Settled (s.finish err) := by
  have hout : (s.finish err).outputs = s.outputs ++ [.done, .result err
      (if err.asBool then getElem? s.mKeys s.mIt else none), .deleteLater] := rfl
  have hsignals : endings (s.finish err) = [.done, .result err
      (if err.asBool then getElem? s.mKeys s.mIt else none)] := by
    rw [endings, hout, endings_append s h]
    rfl
  exact ⟨fun hne => absurd ho hne, fun _ => ⟨⟨err, _, hsignals⟩, by simp [hout]⟩⟩

theorem slotCancel_settled {s : Job Key Flags} (h : Settled s) : Settled s.slotCancel := by
  have hadd : ∃ os : List (Output Key Flags), s.slotCancel.outputs = s.outputs ++ os ∧
      os.filter ending = [] ∧ s.slotCancel.outstanding = s.outstanding := by
    simp only [Job.slotCancel]
    split
    · exact ⟨[.cancelDeleteJob], rfl, rfl, rfl⟩
    · exact ⟨[], (List.append_nil _).symm, rfl, rfl⟩
  obtain ⟨os, hout, hos, hsame⟩ := hadd
  have hend : endings s.slotCancel = endings s := by
    rw [endings, hout, List.filter_append, hos, List.append_nil]
    rfl
  refine ⟨fun hne => ?_, fun hnone => ?_⟩
  · rw [hend]
    exact h.running (hsame ▸ hne)
  · rw [hend, hout]
    obtain ⟨hsignals, hlater⟩ := h.ended (hsame ▸ hnone)
    exact ⟨hsignals, List.mem_append_left _ hlater⟩

/-- A key handed over leaves the job settled where its DeleteJob starts. -/
theorem handOver_settled_iff {s : Job Key Flags} (key : Key) {answer : Error}
    (ha : answer.asBool = false) (h : endings s = []) (os : List (Output Key Flags))
    (hos : os.filter ending = []) :
    Settled ((s.handOver key answer).emit os) ↔ answer.isCanceled = false := by
  have hend : endings ((s.handOver key answer).emit os) = [] := by
    have hout : ((s.handOver key answer).emit os).outputs =
        (s.outputs ++ [.startDeleteJob key s.flags answer]) ++ os := rfl
    rw [endings, hout, List.filter_append, endings_append s h, hos]
    rfl
  constructor
  · intro hs
    by_contra hc
    have hcode : answer.code ≠ .noError := Error.code_ne_of_isCanceled (by simpa using hc)
    have hnone : ((s.handOver key answer).emit os).outstanding = none := if_neg hcode
    obtain ⟨⟨e, k, hsignals⟩, -⟩ := hs.ended hnone
    rw [hend] at hsignals
    simp at hsignals
  · intro hc
    have hsome : ((s.handOver key answer).emit os).outstanding = some s.mIt :=
      if_pos (Error.ok_of_false ha hc)
    refine ⟨fun _ => hend, fun hnone => ?_⟩
    rw [hsome] at hnone
    simp at hnone

theorem step_settled_iff {s t : Job Key Flags} {e : Event} (hle : s.mIt ≤ s.mKeys.length)
    (h : Settled s) (ht : step s e = some t) : Settled t ↔ NextStarts s e := by
  cases e with
  | cancel =>
    obtain rfl : s.slotCancel = t := by simpa [step] using ht
    exact iff_of_true (slotCancel_settled h) trivial
  | result err answer =>
    obtain ⟨i, hi, hcases⟩ := step_result_cases hle ht
    have hsilent : endings s = [] := h.running (by simp [hi])
    obtain ⟨he, rfl⟩ | ⟨-, hend, rfl⟩ | ⟨-, hlast, rfl⟩ | ⟨key, he, hkey, hnext⟩ := hcases
    · refine iff_of_true (finish_settled err rfl hsilent) fun _ hfalse => ?_
      simp [he] at hfalse
    · exact iff_of_true (finish_settled err rfl hsilent) fun _ _ hlt => by omega
    · exact iff_of_true (finish_settled err rfl hsilent) fun _ _ hlt => by omega
    · have hlt : s.mIt + 1 < s.mKeys.length := (List.getElem?_eq_some_iff.mp hkey).1
      cases hnext with
      | inl hfailed =>
        obtain ⟨ha, rfl⟩ := hfailed
        obtain ⟨hcode, hcancel⟩ := Error.asBool_eq_true.mp ha
        refine iff_of_true (finish_settled answer (if_neg hcode) ?_) fun _ _ _ => hcancel
        exact endings_append (next (reported s i err)) hsilent
      | inr hrunning =>
        obtain ⟨ha, rfl⟩ := hrunning
        have hstart := handOver_settled_iff (s := next (reported s i err)) key ha hsilent
        rw [Job.reportProgress, hstart]
        · exact ⟨fun hc _ _ _ => hc, fun hc => hc (by simp [hi]) he hlt⟩
        · rfl

theorem start_settled_iff (keys : List Key) (flags : Flags) (answer : Error)
    (hs : (Job.start keys flags answer).2.asBool = false) :
    Settled (Job.start keys flags answer).1 ↔ keys ≠ [] ∧ answer.isCanceled = false := by
  cases keys with
  | nil =>
    refine iff_of_false (fun h => ?_) (by simp)
    obtain ⟨⟨e, k, hsignals⟩, -⟩ := h.ended rfl
    simp [endings, Job.start, Job.startAJob, Error.asBool_noError] at hsignals
  | cons key keys =>
    have ha : answer.asBool = false := by simpa [Job.start, Job.startAJob] using hs
    rw [start_cons, handOver_settled_iff key ha rfl _ (by simp [ha])]
    simp

/-- After a start that returned no error: done and result have been emitted in every state
of a run without an outstanding DeleteJob, and in no other state, if and only if there are
keys and no DeleteJob is answered with a cancellation when it is started. -/
theorem settled_iff (keys : List Key) (flags : Flags) (answer : Error) (es : List Event)
    (hs : (Job.start keys flags answer).2.asBool = false) :
    (∀ n t, run step (es.take n) (Job.start keys flags answer).1 = some t → Settled t) ↔
      keys ≠ [] ∧ answer.isCanceled = false ∧
        Along step NextStarts es (Job.start keys flags answer).1 := by
  have hle : (Job.start keys flags answer).1.mIt ≤
      (Job.start keys flags answer).1.mKeys.length := by
    cases keys with
    | nil => exact Nat.le_refl _
    | cons key keys =>
      rw [start_cons]
      exact Nat.zero_le _
  have hruns := fun hp => forall_states_iff (q := fun _ => True)
    (fun s e t h _ ht => step_mIt_le s e t h ht)
    (fun s e t h _ hs ht => step_settled_iff h hs ht)
    nextStarts_of_stopped hle hp fun e (_ : e ∈ es) => trivial
  rw [← and_assoc, ← start_settled_iff keys flags answer hs]
  constructor
  · intro h
    have hp := h 0 _ rfl
    exact ⟨hp, (hruns hp).mp h⟩
  · intro ⟨hp, halong⟩
    exact (hruns hp).mpr halong

theorem settled_iff_two_keys :
    (∀ n t, run step ([.cancel, .result Error.noError Error.noError].take n)
        (Job.start [1, 2] () Error.noError).1 = some t → Settled t) ↔
      [1, 2] ≠ [] ∧ Error.noError.isCanceled = false ∧
        Along step NextStarts [.cancel, .result Error.noError Error.noError]
          (Job.start [1, 2] () Error.noError).1 :=
  settled_iff [1, 2] () Error.noError [.cancel, .result Error.noError Error.noError] rfl

/-- No keys, no error, and no result; and a job that hangs because the second DeleteJob was
answered with a cancellation, which counts as no error. -/
theorem never_settled :
    ((Job.start ([] : List Nat) () Error.noError).2 = Error.noError ∧
      (Job.start ([] : List Nat) () Error.noError).1.outstanding = none ∧
      (Job.start ([] : List Nat) () Error.noError).1.outputs = [] ∧
      ¬Settled (Job.start ([] : List Nat) () Error.noError).1) ∧
    ∃ t, run step [.result Error.noError (Error.fromCode .canceled)]
        (Job.start [1, 2] () Error.noError).1 = some t ∧
      t.outstanding = none ∧ endings t = [] ∧ ¬Settled t := by
  have hempty : ∀ s : Job Nat Unit, s.outstanding = none → endings s = [] → ¬Settled s := by
    intro s ho hs h
    obtain ⟨⟨e, k, hsignals⟩, -⟩ := h.ended ho
    simp [hs] at hsignals
  exact ⟨⟨rfl, rfl, rfl, hempty _ rfl rfl⟩, _, rfl, rfl, rfl, hempty _ rfl rfl⟩

end ending

section failStop

def handedKey : Output Key Flags → Option Key
  | .startDeleteJob key _ _ => some key
  | _ => none

/-- The keys handed to DeleteJobs, in order. -/
def handed (s : Job Key Flags) : List Key := s.outputs.filterMap handedKey

/-- The keys are handed over in order, each one but the first behind one that was deleted,
and an error is reported with the key handed over last. -/
structure FailStop (s : Job Key Flags) : Prop where
  inOrder : handed s <+: s.mKeys
  afterSuccess : ∀ i, i + 1 < (handed s).length → s.deleted i = true
  errorKey : ∀ e k, Output.result e k ∈ s.outputs → e.code ≠ .noError → k = (handed s).getLast?

/-- The DeleteJob outstanding does not report a cancellation. -/
def NotDismissed (s : Job Key Flags) : Event → Prop
  | .result err _ => s.outstanding ≠ none → err.isCanceled = false
  | .cancel => True

/-- Without slotCancel the iterator stands at the key handed over last, or behind the list. -/
structure HandedInv (s : Job Key Flags) : Prop where
  it_le : s.mIt ≤ s.mKeys.length
  handed_eq : handed s = s.mKeys.take (s.mIt + 1)
  position : ∀ i, s.outstanding = some i → i = s.mIt ∧ s.mIt < s.mKeys.length
  reports : s.outstanding ≠ none → ∀ r ∈ s.reports, r.1 < s.mIt
  pending : s.outstanding ≠ none → s.Pending

theorem notDismissed_of_stopped (s : Job Key Flags) (e : Event) (h : step s e = none) :
    NotDismissed s e := by
  cases e with
  | cancel => trivial
  | result err answer => exact fun hne => absurd (Option.map_eq_none_iff.mp h) hne

theorem handed_finish (s : Job Key Flags) (err : Error) : handed (s.finish err) = handed s := by
  simp [handed, Job.finish, Job.emit, handedKey]

theorem handed_reportProgress (s : Job Key Flags) : handed s.reportProgress = handed s := by
  simp [handed, Job.reportProgress, Job.emit, handedKey]

theorem handed_handOver (s : Job Key Flags) (key : Key) (answer : Error) :
    handed (s.handOver key answer) = handed s ++ [key] := by
  simp [handed, Job.handOver, handedKey]

theorem take_next {keys : List Key} {n : Nat} {key : Key} (h : getElem? keys n = some key) :
    keys.take n ++ [key] = keys.take (n + 1) := by
  rw [List.take_add_one, h]
  rfl

theorem getLast?_take {keys : List Key} {n : Nat} (h : n < keys.length) :
    (keys.take (n + 1)).getLast? = getElem? keys n := by
  rw [List.getLast?_take]
  simp [List.getElem?_eq_getElem h]

theorem finish_handedInv {s : Job Key Flags} (err : Error) (hle : s.mIt ≤ s.mKeys.length)
    (ho : s.outstanding = none) (h : handed s = s.mKeys.take (s.mIt + 1)) :
    HandedInv (s.finish err) := by
  refine ⟨hle, by rw [handed_finish]; exact h, fun i hi => ?_, fun hne => absurd ho hne,
    fun hne => absurd ho hne⟩
  have hi : s.outstanding = some i := hi
  simp [ho] at hi

theorem handOver_handedInv {s : Job Key Flags} {key : Key} (answer : Error)
    (hkey : getElem? s.mKeys s.mIt = some key) (h : handed s = s.mKeys.take s.mIt)
    (hr : ∀ r ∈ s.reports, r.1 < s.mIt) (hp : s.Pending) :
    HandedInv (s.handOver key answer) := by
  obtain ⟨hlt, -⟩ := List.getElem?_eq_some_iff.mp hkey
  refine ⟨Nat.le_of_lt hlt, ?_, fun i hi => ?_, fun _ => hr, fun _ e k => ?_⟩
  · rw [handed_handOver, h]
    exact take_next hkey
  · simp only [Job.handOver] at hi
    split at hi
    · obtain rfl : s.mIt = i := by simpa using hi
      exact ⟨rfl, hlt⟩
    · simp at hi
  · simp [Job.handOver, hp e k]

theorem emit_handedInv {s : Job Key Flags} {os : List (Output Key Flags)} (h : HandedInv s)
    (hos : os.filterMap handedKey = []) (hres : ∀ e k, Output.result e k ∉ os) :
    HandedInv (s.emit os) := by
  refine ⟨h.it_le, ?_, h.position, h.reports, fun hne e k => ?_⟩
  · rw [handed, Job.emit, List.filterMap_append, hos, List.append_nil]
    exact h.handed_eq
  · simp [Job.emit, h.pending hne e k, hres e k]

theorem step_handedInv (s : Job Key Flags) (e : Event) (t : Job Key Flags) (h : HandedInv s)
    (he : e ≠ .cancel) (ht : step s e = some t) : HandedInv t := by
  cases e with
  | cancel => exact absurd rfl he
  | result err answer =>
    obtain ⟨i, hi, hcases⟩ := step_result_cases h.it_le ht
    obtain ⟨rfl, hlt⟩ := h.position i hi
    have hne : s.outstanding ≠ none := by simp [hi]
    obtain ⟨-, rfl⟩ | ⟨-, hend, rfl⟩ | ⟨-, hlast, rfl⟩ | ⟨key, -, hkey, hnext⟩ := hcases
    · exact finish_handedInv err h.it_le rfl h.handed_eq
    · omega
    · refine finish_handedInv err (Nat.le_of_eq hlast) rfl ?_
      have hlen : s.mKeys.length ≤ s.mIt + 1 := Nat.le_of_eq hlast.symm
      have hall : handed s = s.mKeys := h.handed_eq.trans (List.take_of_length_le hlen)
      exact hall.trans (List.take_of_length_le (Nat.le_succ_of_le hlen)).symm
    · have hinv : HandedInv ((next (reported s s.mIt err)).handOver key answer) := by
        refine handOver_handedInv answer hkey h.handed_eq (fun r hr => ?_) (h.pending hne)
        cases List.mem_append.mp hr with
        | inl hr => exact Nat.lt_succ_of_lt (h.reports hne r hr)
        | inr hr =>
          rw [List.mem_singleton.mp hr]
          exact Nat.lt_succ_self _
      cases hnext with
      | inl hfailed =>
        obtain ⟨ha, rfl⟩ := hfailed
        exact finish_handedInv answer hinv.it_le (if_neg (Error.code_ne_of_asBool ha))
          hinv.handed_eq
      | inr hrunning =>
        obtain ⟨-, rfl⟩ := hrunning
        exact emit_handedInv hinv rfl (by simp)

theorem deleted_reported_iff {s : Job Key Flags} {i j : Nat} {err : Error} :
    (reported s i err).deleted j = true ↔ s.deleted j = true ∨ (j = i ∧ err.code = .noError) :=
  Job.deleted_iff_of_reports rfl

/-- What the end of the job adds: the error has to come with the key handed over last. -/
theorem finish_failStop_iff {s : Job Key Flags} {err : Error} (hp : s.Pending)
    (hin : handed s <+: s.mKeys) (hafter : ∀ i, i + 1 < (handed s).length → s.deleted i = true) :
    FailStop (s.finish err) ↔ (err.code ≠ .noError →
      (if err.asBool then getElem? s.mKeys s.mIt else none) = (handed s).getLast?) := by
  constructor
  · intro h hcode
    have hkey := h.errorKey err _ ((Job.mem_finish_iff hp).mpr ⟨rfl, rfl⟩) hcode
    rw [handed_finish] at hkey
    exact hkey
  · intro h
    refine ⟨by rw [handed_finish]; exact hin, by rw [handed_finish]; exact hafter, ?_⟩
    intro e k hmem hcode
    obtain ⟨rfl, rfl⟩ := (Job.mem_finish_iff hp).mp hmem
    rw [handed_finish]
    exact h hcode

section report
variable {s : Job Key Flags}

theorem HandedInv.length_handed (h : HandedInv s) (hlt : s.mIt < s.mKeys.length) :
    (handed s).length = s.mIt + 1 := by
  rw [h.handed_eq, List.length_take]
  omega

theorem HandedInv.getLast_handed (h : HandedInv s) (hlt : s.mIt < s.mKeys.length) :
    (handed s).getLast? = getElem? s.mKeys s.mIt := by
  rw [h.handed_eq, getLast?_take hlt]

/-- The next key is handed over rightly just when the report before was a success. -/
theorem deleted_before_next_iff (h : HandedInv s) (hf : FailStop s)
    (hi : s.outstanding = some s.mIt) (err : Error) :
    (∀ i, i + 1 < s.mIt + 2 → (reported s s.mIt err).deleted i = true) ↔
      err.code = .noError := by
  have hlen := h.length_handed (h.position _ hi).2
  constructor
  · intro hall
    cases deleted_reported_iff.mp (hall s.mIt (by omega)) with
    | inl hdel =>
      obtain ⟨e, hmem, -⟩ := Job.deleted_iff.mp hdel
      exact absurd (h.reports (by simp [hi]) _ hmem) (Nat.lt_irrefl _)
    | inr hcode => exact hcode.2
  · intro hcode i hlt
    refine deleted_reported_iff.mpr ?_
    by_cases heq : i = s.mIt
    · exact Or.inr ⟨heq, hcode⟩
    · exact Or.inl (hf.afterSuccess i (by omega))

end report

/-- The next key is handed over, and its DeleteJob fails to start or is awaited. -/
theorem next_failStop_iff {s t : Job Key Flags} {err answer : Error} {key : Key}
    (h : HandedInv s) (hne : s.outstanding ≠ none) (hlt : s.mIt < s.mKeys.length)
    (hkey : getElem? s.mKeys (s.mIt + 1) = some key)
    (hnext : (answer.asBool = true ∧
        t = ((next (reported s s.mIt err)).handOver key answer).finish answer) ∨
      (answer.asBool = false ∧
        t = ((next (reported s s.mIt err)).handOver key answer).reportProgress)) :
    FailStop t ↔ ∀ i, i + 1 < s.mIt + 2 → (reported s s.mIt err).deleted i = true := by
  have hhanded : handed ((next (reported s s.mIt err)).handOver key answer) =
      handed s ++ [key] := handed_handOver _ _ _
  have hlen : (handed ((next (reported s s.mIt err)).handOver key answer)).length =
      s.mIt + 2 := by
    rw [hhanded, List.length_append, h.length_handed hlt]
    rfl
  have hin : handed ((next (reported s s.mIt err)).handOver key answer) <+: s.mKeys := by
    rw [hhanded, h.handed_eq, take_next hkey]
    exact List.take_prefix _ _
  have hp : ((next (reported s s.mIt err)).handOver key answer).Pending := by
    intro e k
    simpa [Job.handOver, next, reported] using h.pending hne e k
  cases hnext with
  | inl hfailed =>
    obtain ⟨ha, rfl⟩ := hfailed
    constructor
    · intro ht i hlt
      refine ht.afterSuccess i ?_
      rw [handed_finish, hlen]
      exact hlt
    · intro hall
      refine (finish_failStop_iff hp hin (by rw [hlen]; exact hall)).mpr fun _ => ?_
      rw [if_pos ha, hhanded, List.getLast?_concat]
      exact hkey
  | inr hrunning =>
    obtain ⟨-, rfl⟩ := hrunning
    have hsame := handed_reportProgress ((next (reported s s.mIt err)).handOver key answer)
    constructor
    · intro ht i hlt
      refine ht.afterSuccess i ?_
      rw [hsame, hlen]
      exact hlt
    · intro hall
      refine ⟨by rw [hsame]; exact hin, by rw [hsame, hlen]; exact hall, fun e k hmem => ?_⟩
      simp only [Job.reportProgress, Job.emit, List.mem_append, List.mem_cons, reduceCtorEq,
        List.not_mem_nil, or_false] at hmem
      exact absurd hmem (hp e k)

theorem step_failStop_iff {s t : Job Key Flags} {e : Event} (h : HandedInv s) (he : e ≠ .cancel)
    (hf : FailStop s) (ht : step s e = some t) : FailStop t ↔ NotDismissed s e := by
  cases e with
  | cancel => exact absurd rfl he
  | result err answer =>
    obtain ⟨i, hi, hcases⟩ := step_result_cases h.it_le ht
    obtain ⟨rfl, hlt⟩ := h.position i hi
    have hne : s.outstanding ≠ none := by simp [hi]
    have hafter : ∀ j, j + 1 < (handed s).length → (reported s s.mIt err).deleted j = true :=
      fun j hj => deleted_reported_iff.mpr (Or.inl (hf.afterSuccess j hj))
    have hlast := h.getLast_handed hlt
    have hguard : NotDismissed s (.result err answer) ↔ err.isCanceled = false :=
      ⟨fun hd => hd hne, fun hd _ => hd⟩
    rw [hguard]
    obtain ⟨herr, rfl⟩ | ⟨-, hend, rfl⟩ | ⟨herr, -, rfl⟩ | ⟨key, herr, hkey, hnext⟩ := hcases
    · -- the error comes with the key at the iterator
      refine iff_of_true ((finish_failStop_iff (s := reported s s.mIt err) (h.pending hne)
        hf.inOrder hafter).mpr ?_) (Error.asBool_eq_true.mp herr).2
      intro _
      rw [if_pos herr]
      exact hlast.symm
    · omega
    · -- the last key: a cancellation is reported without a key
      refine (finish_failStop_iff (s := next (reported s s.mIt err)) (h.pending hne) hf.inOrder
        hafter).trans ?_
      have hsome : (handed s).getLast? ≠ none := by simp [hlast, hlt]
      rw [if_neg (by simp [herr])]
      constructor
      · intro hkey
        by_contra hc
        exact hsome (hkey (Error.code_ne_of_isCanceled (by simpa using hc))).symm
      · intro hc hcode
        exact absurd (Error.ok_of_false herr hc) hcode
    · have hok : err.isCanceled = false ↔ err.code = .noError :=
        ⟨Error.ok_of_false herr, Error.not_canceled_of_ok⟩
      rw [hok, ← deleted_before_next_iff h hf hi err]
      exact next_failStop_iff h hne hlt hkey hnext

theorem start_handedInv {keys : List Key} (hk : keys ≠ []) (flags : Flags) (answer : Error) :
    HandedInv (Job.start keys flags answer).1 ∧ FailStop (Job.start keys flags answer).1 := by
  cases keys with
  | nil => exact absurd rfl hk
  | cons key keys =>
    have hsilent : (fresh (key :: keys) flags).Pending := by
      intro e k
      simp [fresh]
    have hinv : HandedInv ((fresh (key :: keys) flags).handOver key answer) :=
      handOver_handedInv answer rfl rfl (by simp [fresh]) hsilent
    have hemit : HandedInv (Job.start (key :: keys) flags answer).1 := by
      rw [start_cons]
      exact emit_handedInv hinv (by split_ifs <;> rfl) (by split_ifs <;> simp)
    have hkeys : handed (Job.start (key :: keys) flags answer).1 = [key] := by
      rw [hemit.handed_eq, Job.start_mKeys, start_cons]
      rfl
    refine ⟨hemit, by rw [hkeys, Job.start_mKeys]; exact List.prefix_append [key] keys,
      fun i hi => ?_, fun e k hmem => ?_⟩
    · rw [hkeys, List.length_singleton] at hi
      omega
    · rw [start_cons] at hmem
      cases ha : answer.asBool with
      | true => simp [Job.emit, Job.handOver, fresh, ha] at hmem
      | false => simp [Job.emit, Job.handOver, fresh, ha] at hmem

/-- A run without slotCancel stops at the first key that is not deleted, in every state, if
and only if no DeleteJob reports a cancellation. -/
theorem failStop_iff (keys : List Key) (hk : keys ≠ []) (flags : Flags) (answer : Error)
    (es : List Event) (he : ∀ e ∈ es, e ≠ .cancel) :
    (∀ n t, run step (es.take n) (Job.start keys flags answer).1 = some t →
      t.mKeys = keys ∧ FailStop t) ↔
      Along step NotDismissed es (Job.start keys flags answer).1 := by
  obtain ⟨hinv, hstart⟩ := start_handedInv hk flags answer
  have hruns := forall_states_iff (q := fun e : Event => e ≠ .cancel) step_handedInv
    (fun s e t h he hf ht => step_failStop_iff h he hf ht) notDismissed_of_stopped hinv hstart he
  rw [← hruns]
  constructor
  · exact fun h n t ht => (h n t ht).2
  · intro h n t ht
    exact ⟨by rw [run_frame step_mKeys ht, Job.start_mKeys], h n t ht⟩

theorem failStop_iff_two_keys :
    (∀ n t, run step ([.result Error.noError Error.noError].take n)
        (Job.start [1, 2] () Error.noError).1 = some t → t.mKeys = [1, 2] ∧ FailStop t) ↔
      Along step NotDismissed [.result Error.noError Error.noError]
        (Job.start [1, 2] () Error.noError).1 :=
  failStop_iff [1, 2] (by decide) () Error.noError [.result Error.noError Error.noError] (by simp)

/-- A dismissed confirmation does not stop the job: the second key is deleted behind the first
one, which was not. A cancellation of the last key is reported without a key. -/
theorem dismissed_goes_on :
    (∃ t, run step [.result (Error.fromCode .canceled) Error.noError]
        (Job.start [1, 2] () Error.noError).1 = some t ∧
      handed t = [1, 2] ∧ t.reports = [(0, Error.fromCode .canceled)] ∧ ¬FailStop t) ∧
    ∃ t, run step [.result (Error.fromCode .canceled) Error.noError]
        (Job.start [1] () Error.noError).1 = some t ∧
      Output.result (Error.fromCode .canceled) none ∈ t.outputs ∧ ¬FailStop t := by
  constructor
  · refine ⟨_, rfl, rfl, rfl, fun h => ?_⟩
    exact absurd (h.afterSuccess 0 (by decide)) (by decide)
  · refine ⟨_, rfl, by decide, fun h => ?_⟩
    exact absurd (h.errorKey (Error.fromCode .canceled) none (by decide) (by decide)) (by decide)

end failStop

end QGpgME.MultiDeleteRuns
