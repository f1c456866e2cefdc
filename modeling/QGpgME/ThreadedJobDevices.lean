import QGpgME.ThreadedJobRuns

/-! The devices that a job lends to its worker function: whose thread they live in, and who may
still lock them, for every order of the steps. -/
namespace QGpgME.ThreadedJob
open EventRun EventQueue
variable {ι δ τ : Type*} [DecidableEq ι] [DecidableEq δ]

/-- The worker function of a job may still use its devices. -/
def Job.active (job : Job δ τ) : Prop := job.thread = .started ∨ job.thread = .running

/-- A device is out of the thread of the jobs only for a job that has not returned yet, and a
worker function that runs has locked it. -/
structure Lent (s : State ι δ τ) : Prop where
  away : ∀ i d, s.affinity d = .worker i → s.alive d = true → d ∈ (s.jobs i).devices ∧
    ((s.jobs i).thread = .started ∨ (s.jobs i).thread = .running ∧ (i, d) ∈ s.locks)
  locks : ∀ i d, (i, d) ∈ s.locks → (s.jobs i).thread = .running

theorem affinity_moveToThread {current target : Affinity ι} {affinity : δ → Affinity ι} {d x : δ}
    (h : moveToThread current target affinity d x ≠ affinity x) :
    x = d ∧ affinity d = current ∧ moveToThread current target affinity d x = target := by
  unfold moveToThread at h ⊢
  split_ifs at h ⊢ with hc
  · by_cases hx : x = d
    · subst hx
      exact ⟨rfl, hc, by simp⟩
    · simp [Function.update_of_ne hx] at h
  · exact absurd rfl h

/-- Devices go from one thread to one other, and only those that are listed. -/
theorem affinity_foldl (current target : Affinity ι) (ds : List δ) (affinity : δ → Affinity ι)
    (x : δ) : ds.foldl (moveToThread current target) affinity x = affinity x ∨
      x ∈ ds ∧ affinity x = current ∧
        ds.foldl (moveToThread current target) affinity x = target := by
  induction ds generalizing affinity with
  | nil => exact Or.inl rfl
  | cons d ds ih =>
    rw [List.foldl_cons]
    by_cases h : moveToThread current target affinity d x = affinity x
    · cases ih (moveToThread current target affinity d) with
      | inl hs => exact Or.inl (hs.trans h)
      | inr hm => exact Or.inr ⟨List.mem_cons_of_mem d hm.1, h ▸ hm.2.1, hm.2.2⟩
    · obtain ⟨rfl, hc, ht⟩ := affinity_moveToThread h
      refine Or.inr ⟨by simp, hc, ?_⟩
      cases ih (moveToThread current target affinity x) with
      | inl hs => exact hs.trans ht
      | inr hm => exact hm.2.2

theorem foldl_moveToThread_of_mem {current : Affinity ι} (target : Affinity ι)
    {ds : List δ} {affinity : δ → Affinity ι} {x : δ} (hx : x ∈ ds) (hc : affinity x = current) :
    ds.foldl (moveToThread current target) affinity x = target := by
  induction ds generalizing affinity with
  | nil => simp at hx
  | cons d ds ih =>
    rw [List.foldl_cons]
    by_cases h : x = d
    · subst h
      have hm : moveToThread current target affinity x x = target := by
        simp [moveToThread, hc]
      cases affinity_foldl current target ds (moveToThread current target affinity x) x with
      | inl hs => exact hs.trans hm
      | inr hs => exact hs.2.2
    · apply ih ((List.mem_cons.mp hx).resolve_left h)
      by_cases hm : moveToThread current target affinity d x = affinity x
      · exact hm.trans hc
      · exact absurd (affinity_moveToThread hm).1 h

omit [DecidableEq ι] in
/-- What touches no device keeps the devices lent as they were. -/
theorem Lent.keep {s t : State ι δ τ} (h : Lent s) (ha : t.affinity = s.affinity)
    (hl : t.locks = s.locks) (hh : ∀ d, t.held d = true → s.held d = true)
    (hj : ∀ i, (s.jobs i).active → (t.jobs i).thread = (s.jobs i).thread ∧
      (t.jobs i).devices = (s.jobs i).devices) : Lent t := by
  have halive (d : δ) (hd : t.alive d = true) : s.alive d = true := by
    unfold State.alive at hd ⊢
    rw [hl] at hd
    cases Bool.or_eq_true_iff.mp hd with
    | inl hd => simp [hh d hd]
    | inr hd => simp [hd]
  constructor
  · intro i d hd hal
    obtain ⟨hm, ht⟩ := h.away i d (ha ▸ hd) (halive d hal)
    have hactive : (s.jobs i).active := ht.imp id And.left
    obtain ⟨hth, hdev⟩ := hj i hactive
    rw [hth, hdev, hl]
    exact ⟨hm, ht⟩
  · intro i d hd
    have hrun := h.locks i d (hl ▸ hd)
    rw [(hj i (Or.inr hrun)).1, hrun]

/-- Whoever locks a weak pointer keeps alive what was alive. -/
theorem alive_of_enter {s : State ι δ τ} {j : ι} {d : δ} (h : (s.enter j).alive d = true) :
    s.alive d = true := by
  simp only [State.alive, State.enter, Bool.or_eq_true, List.any_eq_true, decide_eq_true_eq] at h
  obtain h | ⟨⟨i, x⟩, hm, rfl⟩ := h
  · simp [State.alive, show s.held d = true from h]
  · cases mem_post.mp hm with
    | inl hm => exact Bool.or_eq_true_iff.mpr (Or.inr (List.any_eq_true.mpr ⟨_, hm, by simp⟩))
    | inr hm => exact (List.mem_filter.mp hm.2).2

theorem alive_of_returns {s : State ι δ τ} {j : ι} {r : Result τ} {d : δ}
    (h : (s.returns j r).alive d = true) : s.alive d = true := by
  simp only [State.alive, State.returns, Bool.or_eq_true, List.any_eq_true,
    decide_eq_true_eq] at h ⊢
  cases h with
  | inl h => exact Or.inl h
  | inr h =>
    obtain ⟨l, hl, hld⟩ := h
    exact Or.inr ⟨l, (mem_drop.mp hl).1, hld⟩

theorem Lent.enter {s : State ι δ τ} (h : Lent s) (j : ι) : Lent (s.enter j) := by
  constructor
  · intro i d hd ha
    have hold := alive_of_enter ha
    obtain ⟨hm, hth⟩ := h.away i d hd hold
    by_cases hij : i = j
    · subst hij
      have hlock : (i, d) ∈ (s.enter i).locks :=
        mem_post.mpr (Or.inr ⟨rfl, List.mem_filter.mpr ⟨hm, hold⟩⟩)
      simpa [State.enter, State.setJob] using ⟨hm, hlock⟩
    · have hth' := hth.imp id fun hr => And.intro hr.1
        (show (i, d) ∈ (s.enter j).locks from mem_post.mpr (Or.inl hr.2))
      simpa [State.enter, State.setJob, hij] using ⟨hm, hth'⟩
  · intro i d hd
    by_cases hij : i = j
    · simp [State.enter, State.setJob, hij]
    · have hrun := h.locks i d ((mem_post.mp hd).resolve_right fun hm => hij hm.1)
      simpa [State.enter, State.setJob, hij] using hrun

theorem Lent.returns {s : State ι δ τ} (h : Lent s) {j : ι} (hj : (s.jobs j).thread = .running)
    (r : Result τ) : Lent (s.returns j r) := by
  constructor
  · intro i d hd ha
    have hsame : s.affinity d = .worker i := by
      cases affinity_foldl (.worker j) .jobThread (s.locked j) s.affinity d with
      | inl hs => exact hs.symm.trans hd
      | inr hs => exact absurd (hs.2.2.symm.trans hd) (by simp)
    obtain ⟨hm, hth⟩ := h.away i d hsame (alive_of_returns ha)
    by_cases hij : i = j
    · subst hij
      have hlock : d ∈ s.locked i := by
        rw [State.locked, mem_pending]
        simpa [hj] using hth
      have hback := foldl_moveToThread_of_mem .jobThread hlock hsame
      exact absurd (hback.symm.trans hd) (by simp)
    · have hth' := hth.imp id fun hr => And.intro hr.1
        (show (i, d) ∈ (s.returns j r).locks from mem_drop.mpr ⟨hr.2, hij⟩)
      simpa [State.returns, State.setJob, hij] using ⟨hm, hth'⟩
  · intro i d hd
    obtain ⟨hm, hij⟩ := mem_drop.mp hd
    have hrun := h.locks i d hm
    have hne : i ≠ j := hij
    simpa [State.returns, State.setJob, hne] using hrun

/-- A job that starts borrows its devices, and no job that runs is the one that starts. -/
theorem Lent.run {s t : State ι δ τ} {j : ι} {devices : List δ} (h : Lent s)
    (ht : step s (.run j devices) = some t) : Lent t := by
  simp only [ThreadedJob.step] at ht
  split_ifs at ht with hc
  obtain rfl := Option.some.inj ht
  constructor
  · intro i d hd hal
    have hold : s.alive d = true := hal
    cases affinity_foldl .jobThread (.worker j) devices s.affinity d with
    | inl hs =>
      obtain ⟨hm, hth⟩ := h.away i d (hs ▸ hd) hold
      have hij : i ≠ j := by
        rintro rfl
        simp [hc.1] at hth
      simpa [State.setJob, hij] using ⟨hm, hth⟩
    | inr hs =>
      obtain rfl : j = i := by simpa [hd] using hs.2.2.symm.trans hd
      simp [State.setJob, hs.1]
  · intro i d hd
    have hrun := h.locks i d hd
    have hij : i ≠ j := by
      rintro rfl
      simp [hc.1] at hrun
    simpa [State.setJob, hij] using hrun

theorem Lent.step {s t : State ι δ τ} {e : Event ι δ τ} (h : Lent s)
    (ht : step s e = some t) : Lent t := by
  cases e with
  | deliver =>
    obtain ⟨⟨ha, hh, hl⟩, hj⟩ := deliver_frame ht
    exact h.keep ha hl (fun d hd => hh ▸ hd) fun i _ => hj i
  | run j devices => exact h.run ht
  | setWorkerFunction j =>
    simp only [ThreadedJob.step] at ht
    split_ifs at ht with hc
    obtain rfl := Option.some.inj ht
    refine h.keep rfl rfl (fun _ hd => hd) fun i hi => ?_
    by_cases hij : i = j <;> simp [State.setJob, hij]
  | startNow j =>
    simp only [ThreadedJob.step] at ht
    split_ifs at ht with hc
    obtain rfl := Option.some.inj ht
    refine h.keep rfl rfl (fun _ hd => hd) fun i hi => ?_
    have hij : i ≠ j := by
      rintro rfl
      simp [Job.active, hc.1] at hi
    simp [State.setJob, hij]
  | enter j =>
    simp only [ThreadedJob.step] at ht
    split_ifs at ht
    obtain rfl := Option.some.inj ht
    exact h.enter j
  | showProgress j p =>
    simp only [ThreadedJob.step] at ht
    split_ifs at ht with hc
    obtain rfl := Option.some.inj ht
    exact h.keep rfl rfl (fun _ hd => hd) fun i hi => ⟨rfl, rfl⟩
  | returns j r =>
    simp only [ThreadedJob.step] at ht
    split_ifs at ht with hc
    obtain rfl := Option.some.inj ht
    exact h.returns hc r
  | finished j =>
    simp only [ThreadedJob.step] at ht
    split_ifs at ht with hc
    obtain rfl := Option.some.inj ht
    refine h.keep rfl rfl (fun _ hd => hd) fun i hi => ?_
    have hij : i ≠ j := by
      rintro rfl
      simp [Job.active, hc] at hi
    simp [State.setJob, State.post, hij]
  | slotCancel j =>
    simp only [ThreadedJob.step] at ht
    split_ifs at ht with hc
    obtain rfl := Option.some.inj ht
    refine h.keep rfl rfl (fun _ hd => hd) fun i hi => ?_
    by_cases hij : i = j <;> simp [State.setJob, hij]
  | delete j =>
    simp only [ThreadedJob.step] at ht
    split_ifs at ht with hc
    obtain rfl := Option.some.inj ht
    refine h.keep rfl rfl (fun _ hd => hd) fun i hi => ?_
    by_cases hij : i = j <;> simp [State.delete, State.setJob, hij]
  | release d =>
    simp only [ThreadedJob.step] at ht
    split_ifs at ht with hc
    obtain rfl := Option.some.inj ht
    refine h.keep rfl rfl (fun x hx => ?_) fun i hi => ⟨rfl, rfl⟩
    by_cases hxd : x = d
    · rwa [hxd]
    · simpa [Function.update_of_ne hxd] using hx

variable [Inhabited τ] {archive : ι → Bool} {held : δ → Bool} {es : List (Event ι δ τ)}
  {s : State ι δ τ}

omit [DecidableEq ι] in
theorem lent_initial : Lent (initial archive held : State ι δ τ) :=
  ⟨fun i d h => by simp [initial] at h, fun i d h => by simp [initial] at h⟩

theorem lent_run (h : run step es (initial archive held) = some s) : Lent s :=
  run_invariant (fun _ _ _ hl _ ht => Lent.step hl ht) lent_initial
    (along_of_forall (q := fun _ => True) (fun _ _ => trivial) _) h

/-- When a slot sees done or result, the worker has given back all devices: none lives in its
thread any more, and it keeps none from being destroyed. -/
theorem devices_back (h : run step es (initial archive held) = some s) {i : ι}
    {e : Emission τ} (he : e ∈ s.seen i) (hf : e.signal.isFinal = true) :
    (∀ d, s.alive d = true → s.affinity d ≠ .worker i) ∧ ∀ d, (i, d) ∉ s.locks := by
  have hth := (phase_run h i).thread_of_isFinal he hf
  have hl := lent_run h
  replace hth : (s.jobs i).thread = .notStarted ∨ (s.jobs i).thread = .finished := hth
  constructor
  · intro d hd ha
    have hact := (hl.away i d ha hd).2
    cases hth with
    | inl h0 => simp [h0] at hact
    | inr h0 => simp [h0] at hact
  · intro d hd
    have hrun := hl.locks i d hd
    simp [hrun] at hth

theorem devices_back_parallel : ∃ s, run step parallel (initial id fun _ => true) = some s ∧
    ∀ d, s.alive d = true → s.affinity d ≠ .worker true := by
  have hrun : ((run step parallel (initial id fun _ => true)).map fun s =>
      (s.seen true).any fun e => e.signal.isFinal) = some true := by decide
  obtain ⟨s, hs, hany⟩ := Option.map_eq_some_iff.mp hrun
  obtain ⟨e, he, hf⟩ := List.any_eq_true.mp hany
  exact ⟨s, hs, (devices_back hs he hf).1⟩

/-- A device is where the jobs are unless the function of a job that borrowed it has still to
return. -/
theorem affinity_eq_jobThread (h : run step es (initial archive held) = some s) {d : δ}
    (hd : s.alive d = true) (hj : ∀ i, d ∈ (s.jobs i).devices → ¬(s.jobs i).active) :
    s.affinity d = .jobThread := by
  cases ha : s.affinity d with
  | jobThread => rfl
  | worker i =>
    obtain ⟨hm, hth⟩ := (lent_run h).away i d ha hd
    exact absurd (hth.imp id And.left) (hj i hm)

theorem affinity_eq_jobThread_parallel :
    ∃ s, run step (parallel.take 12) (initial id fun _ => true) = some s ∧
      s.affinity () = .jobThread := by
  have hrun : ((run step (parallel.take 12) (initial id fun _ => true)).map fun s =>
      s.alive () && decide ((s.jobs true).thread = .finished) &&
        decide ((s.jobs false).devices = [])) = some true := by decide
  obtain ⟨s, hs, hall⟩ := Option.map_eq_some_iff.mp hrun
  simp only [Bool.and_eq_true, decide_eq_true_eq] at hall
  refine ⟨s, hs, affinity_eq_jobThread hs hall.1.1 fun i hi => ?_⟩
  cases i with
  | true => simp [Job.active, hall.1.2]
  | false => simp [hall.2] at hi

end QGpgME.ThreadedJob
