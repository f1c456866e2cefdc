import QGpgME.RefreshSMIMEKeysJob

/-! How the patterns of a refresh are spread over the gpgsm processes: whether every process
gets a pattern, and whether every process takes one away. -/
namespace QGpgME.RefreshBatches
open EventRun RefreshSMIMEKeysJob

/-- A pattern that startAProcess drops. -/
def Blank (p : QString) : Prop := (QString.toUtf8 p).trimmed = []

instance (p : QString) : Decidable (Blank p) := inferInstanceAs (Decidable (_ = _))

/-- The bytes of a command line that a pattern uses up, with the separator behind it. -/
def cost (p : QString) : Nat := (QString.toUtf8 p).trimmed.length + 1

/-- The room on the command line behind a pattern, on a new one where it does not fit. -/
def pack (room : Nat) (p : QString) : Nat :=
  if Blank p then room
  else if cost p ≤ room then room - cost p
  else patternBudget.toNat - cost p

/-- Some pattern fills its command line to the last byte and only blank ones follow. -/
def Stranded (room : Nat) (ps : List QString) : Prop :=
  ∃ front blanks, ps = front ++ blanks ∧ blanks ≠ [] ∧ (∀ p ∈ blanks, Blank p) ∧
    front.foldl pack room = 0

theorem stranded_nil (room : Nat) : ¬Stranded room [] := by
  intro ⟨front, blanks, hps, hne, _⟩
  exact hne (List.append_eq_nil_iff.mp hps.symm).2

theorem stranded_cons {room : Nat} {p : QString} {ps : List QString} :
    Stranded room (p :: ps) ↔
      (room = 0 ∧ ∀ q ∈ p :: ps, Blank q) ∨ Stranded (pack room p) ps := by
  constructor
  · intro ⟨front, blanks, hps, hne, hblank, hfull⟩
    cases front with
    | nil =>
      obtain rfl : p :: ps = blanks := hps
      exact Or.inl ⟨hfull, hblank⟩
    | cons q front =>
      obtain ⟨rfl, hrest⟩ := List.cons.inj hps
      exact Or.inr ⟨front, blanks, hrest, hne, hblank, hfull⟩
  · intro h
    cases h with
    | inl h => exact ⟨[], p :: ps, rfl, List.cons_ne_nil p ps, h.2, h.1⟩
    | inr h =>
      obtain ⟨front, blanks, hps, hne, hblank, hfull⟩ := h
      exact ⟨p :: front, blanks, congrArg (p :: ·) hps, hne, hblank, hfull⟩

theorem toNat_patternBudget : patternBudget.toNat = 32701 := rfl

/-- A pattern that fits has the same length for the source, which counts it modulo `2 ^ 32`. -/
theorem toNat_length {p : QString} (h : Fits p) :
    (UInt32.ofNat (QString.toUtf8 p).trimmed.length).toNat = (QString.toUtf8 p).trimmed.length := by
  have hlen : (QString.toUtf8 p).trimmed.length < patternBudget.toNat := h
  rw [toNat_patternBudget] at hlen
  rw [UInt32.toNat_ofNat']
  omega

theorem stop_iff {p : QString} (h : Fits p) (room : UInt32) :
    UInt32.ofNat (QString.toUtf8 p).trimmed.length ≥ room ↔ room.toNat < cost p := by
  rw [ge_iff_le, UInt32.le_iff_toNat_le, toNat_length h, cost]
  omega

theorem toNat_room {p : QString} (h : Fits p) {room : UInt32} (hroom : cost p ≤ room.toNat) :
    (room - (UInt32.ofNat (QString.toUtf8 p).trimmed.length + 1)).toNat = room.toNat - cost p := by
  have hlen : (QString.toUtf8 p).trimmed.length < 32701 := h
  have hcost : (UInt32.ofNat (QString.toUtf8 p).trimmed.length + 1).toNat = cost p := by
    rw [UInt32.toNat_add, toNat_length h, cost]
    show _ % 2 ^ 32 = _
    simp only [UInt32.toNat_one]
    omega
  rw [UInt32.toNat_sub_of_le _ _ (by rw [UInt32.le_iff_toNat_le, hcost]; exact hroom), hcost]

/-- Behind a full command line a pattern goes where it goes on a new one. -/
theorem pack_zero {p : QString} (hfit : Fits p) (h : ¬Blank p) :
    pack 0 p = pack patternBudget.toNat p := by
  have hlen : (QString.toUtf8 p).trimmed.length < patternBudget.toNat := hfit
  have hcost : cost p ≤ patternBudget.toNat := hlen
  have hpos : ¬cost p ≤ 0 := by simp [cost]
  simp only [pack, h, if_false, hcost, hpos, if_true]

theorem stranded_zero {ps : List QString} (hne : ps ≠ []) (hfit : ∀ p ∈ ps, Fits p) :
    Stranded 0 ps ↔ (∀ p ∈ ps, Blank p) ∨ Stranded patternBudget.toNat ps := by
  induction ps with
  | nil => exact absurd rfl hne
  | cons p ps ih =>
    have hbudget : patternBudget.toNat ≠ 0 := by decide
    by_cases hp : Blank p
    · have hpack : ∀ room, pack room p = room := fun room => if_pos hp
      rw [stranded_cons, stranded_cons, hpack, hpack]
      by_cases hps : ps = []
      · subst hps
        simp [hp, stranded_nil]
      · rw [ih hps fun q hq => hfit q (List.mem_cons_of_mem p hq)]
        simp only [List.forall_mem_cons, hp, true_and, hbudget, false_and, false_or]
        exact ⟨fun h => h.elim Or.inl id, Or.inr⟩
    · rw [stranded_cons, stranded_cons, pack_zero (hfit p (by simp)) hp]
      simp [hp]

/-- Whether blank patterns are stranded later on shows in the patterns that one process
leaves behind. -/
theorem stranded_iff_rest {ps : List QString} (hfit : ∀ p ∈ ps, Fits p) (room : UInt32) :
    Stranded room.toNat ps ↔ (takePatterns room ps).2.1 ≠ [] ∧
      ((∀ p ∈ (takePatterns room ps).2.1, Blank p) ∨
        Stranded patternBudget.toNat (takePatterns room ps).2.1) := by
  induction ps generalizing room with
  | nil => simp [takePatterns, stranded_nil]
  | cons p ps ih =>
    have hp : Fits p := hfit p (by simp)
    have ih := ih fun q hq => hfit q (List.mem_cons_of_mem p hq)
    by_cases hstop : UInt32.ofNat (QString.toUtf8 p).trimmed.length ≥ room
    · have hcost := (stop_iff hp room).mp hstop
      rw [takePatterns_stop hstop]
      by_cases hblank : Blank p
      · -- a blank pattern is left behind by a full command line only
        have hzero : room.toNat = 0 := by
          have hnil : (QString.toUtf8 p).trimmed = [] := hblank
          simp only [cost, hnil, List.length_nil] at hcost
          omega
        rw [hzero, stranded_zero (List.cons_ne_nil p ps) hfit]
        simp
      · have hpack : pack room.toNat p = pack patternBudget.toNat p := by
          rw [← pack_zero hp hblank]
          have hpos : ¬cost p ≤ 0 := by simp [cost]
          simp only [pack, hblank, if_false, Nat.not_le.mpr hcost, hpos]
        rw [stranded_cons, stranded_cons, hpack]
        simp [hblank]
    · have hcost : cost p ≤ room.toNat := Nat.not_lt.mp (mt (stop_iff hp room).mpr hstop)
      have hzero : room.toNat ≠ 0 := by
        simp only [cost] at hcost
        omega
      rw [stranded_cons]
      simp only [hzero, false_and, false_or]
      by_cases hblank : Blank p
      · rw [takePatterns_skip hstop hblank, ← ih room, pack, if_pos hblank]
      · rw [takePatterns_pass hstop hblank, ← ih, toNat_room hp hcost, pack, if_neg hblank,
          if_pos hcost]

theorem takePatterns_blank {ps : List QString} (h : ∀ p ∈ ps, Blank p) (room : UInt32) :
    (takePatterns room ps).1 = [] := by
  obtain ⟨taken, hps, hargs⟩ := takePatterns_spec room ps
  rw [hargs, List.flatMap_eq_nil_iff]
  intro p hp
  have hblank : Blank p := h p (by rw [hps]; exact List.mem_append_left _ hp)
  exact if_pos (trimmed_toUtf8_eq_nil.mp hblank)

/-- A process gets a pattern where one that fits is left. -/
theorem takePatterns_not_nil {ps : List QString} (hfit : ∀ p ∈ ps, Fits p)
    (h : ∃ p ∈ ps, ¬Blank p) : (takePatterns patternBudget ps).1 ≠ [] := by
  induction ps with
  | nil => simp at h
  | cons p ps ih =>
    have hgo : ¬UInt32.ofNat (QString.toUtf8 p).trimmed.length ≥ patternBudget :=
      UInt32.not_le.mpr (hfit p (by simp)).lt_patternBudget
    by_cases hblank : Blank p
    · obtain ⟨q, hq, hqb⟩ := h
      have hq : q ∈ ps := by
        cases List.mem_cons.mp hq with
        | inl heq => exact absurd (heq ▸ hblank) hqb
        | inr hq => exact hq
      rw [takePatterns_skip hgo hblank]
      exact ih (fun q hq => hfit q (List.mem_cons_of_mem p hq)) ⟨q, hq, hqb⟩
    · rw [takePatterns_pass hgo hblank]
      exact List.cons_ne_nil _ _

theorem mem_of_mem_rest {room : UInt32} {ps : List QString} {p : QString}
    (h : p ∈ (takePatterns room ps).2.1) : p ∈ ps := by
  obtain ⟨taken, hps, -⟩ := takePatterns_spec room ps
  rw [hps]
  exact List.mem_append_right _ h

/-- What start leaves to do for its first process. -/
def queued (patterns : List QString) : Job :=
  { Job.new with mPatternsToDo := if patterns = [] then [[' ']] else patterns }

theorem queued_of_ne_nil {patterns : List QString} (h : patterns ≠ []) :
    (queued patterns).mPatternsToDo = patterns := if_neg h

theorem queued_not_nil (patterns : List QString) : (queued patterns).mPatternsToDo ≠ [] := by
  simp only [queued]
  split_ifs with h
  · exact List.cons_ne_nil _ _
  · exact h

/-- The job has asked for one more process, with the patterns that fit. -/
def NextBatch (s t : Job) : Prop :=
  s.mPatternsToDo ≠ [] ∧ t.mPatternsToDo = (takePatterns patternBudget s.mPatternsToDo).2.1 ∧
    (t.processes = s.processes ∨ t.processes = s.processes ++ [s.nextArguments])

theorem start_nextBatch (patterns : List QString) (started : Bool) :
    NextBatch (queued patterns) (Job.start patterns started).1 := by
  have hne := queued_not_nil patterns
  have hstart : Job.start patterns started = (queued patterns).startAProcess started := rfl
  rw [hstart, Job.startAProcess, if_neg hne]
  cases started with
  | true => exact ⟨hne, rfl, Or.inr rfl⟩
  | false => exact ⟨hne, rfl, Or.inl rfl⟩

/-- A step either leaves the patterns and the processes alone or asks for the next process. -/
theorem step_batches {s t : Job} {e : Event} (h : step s e = some t) :
    (t.mPatternsToDo = s.mPatternsToDo ∧ t.processes = s.processes) ∨ NextBatch s t := by
  obtain ⟨exitCode, exitStatus, started, exits, rfl, -, rfl⟩ | ⟨-, rfl⟩ | ⟨channel, -, rfl⟩ :=
    step_cases h
  · obtain ⟨-, ht⟩ | ⟨-, hp, ⟨-, ht⟩ | ⟨-, ht⟩⟩ :=
      Job.slotProcessExited_cases { s with pendingExit := none, exits := exits } exitCode
        exitStatus started
    · rw [ht, Job.finish_eq]
      exact Or.inl ⟨rfl, rfl⟩
    · rw [ht]
      exact Or.inr ⟨hp, rfl, Or.inr rfl⟩
    · rw [ht, Job.finish_eq]
      exact Or.inr ⟨hp, rfl, Or.inl rfl⟩
  · exact Or.inl ⟨rfl, rfl⟩
  · exact Or.inl ⟨rfl, rfl⟩

/-- While patterns are left, a clean exit starts the next process. -/
theorem clean_exit {s : Job} (hpend : s.pendingExit = some .process)
    (hok : s.mError.asBool = false) (hne : s.mPatternsToDo ≠ []) :
    ∃ t, step s (.exited 0 .normalExit true) = some t ∧ t.pendingExit = some .process ∧
      t.mError.asBool = false ∧ t.processes = s.processes ++ [s.nextArguments] ∧
      t.mPatternsToDo = (takePatterns patternBudget s.mPatternsToDo).2.1 := by
  have hstep : step s (.exited 0 .normalExit true) = some (Job.slotProcessExited
      { s with pendingExit := none, exits := s.exits ++ [(0, .normalExit)] } 0 .normalExit
        true) := by
    simp only [step, hpend]
  refine ⟨_, hstep, ?_⟩
  simp [Job.slotProcessExited, Job.startAProcess, hok, hne, Job.running, Job.createProcess,
    Error.asBool_noError, Job.nextArguments]

section arguments

/-- Every process started got a pattern. -/
def PatternsGiven (s : Job) : Prop :=
  ∀ arguments ∈ s.processes, arguments.drop options.length ≠ []

theorem drop_nextArguments (s : Job) :
    s.nextArguments.drop options.length = (takePatterns patternBudget s.mPatternsToDo).1 :=
  List.drop_left

/-- Every process still to come will get a pattern. -/
structure Sound (ps : List QString) : Prop where
  fits : ∀ p ∈ ps, Fits p
  pattern : ps ≠ [] → ∃ p ∈ ps, ¬Blank p
  rest : ¬Stranded patternBudget.toNat ps

theorem Sound.next {ps : List QString} (h : Sound ps) :
    Sound (takePatterns patternBudget ps).2.1 := by
  have hrest := mt (stranded_iff_rest h.fits patternBudget).mpr h.rest
  refine ⟨fun p hp => h.fits p (mem_of_mem_rest hp), fun hne => ?_, fun hs => ?_⟩
  · by_contra hall
    exact hrest ⟨hne, Or.inl fun p hp => not_not.mp fun hb => hall ⟨p, hp, hb⟩⟩
  · by_cases hne : (takePatterns patternBudget ps).2.1 = []
    · rw [hne] at hs
      exact stranded_nil _ hs
    · exact hrest ⟨hne, Or.inr hs⟩

structure GivenInv (s : Job) : Prop where
  given : PatternsGiven s
  sound : Sound s.mPatternsToDo

theorem NextBatch.givenInv {s t : Job} (hst : NextBatch s t) (h : GivenInv s) : GivenInv t := by
  obtain ⟨hne, hps, hproc⟩ := hst
  refine ⟨?_, by rw [hps]; exact h.sound.next⟩
  cases hproc with
  | inl hsame =>
    rw [PatternsGiven, hsame]
    exact h.given
  | inr hmore =>
    rw [PatternsGiven, hmore]
    intro arguments ha
    cases List.mem_append.mp ha with
    | inl ha => exact h.given arguments ha
    | inr ha =>
      rw [List.mem_singleton.mp ha, drop_nextArguments]
      exact takePatterns_not_nil h.sound.fits (h.sound.pattern hne)

theorem step_givenInv (s : Job) (e : Event) (t : Job) (h : GivenInv s)
    (ht : step s e = some t) : GivenInv t := by
  cases step_batches ht with
  | inl hsame =>
    obtain ⟨hps, hproc⟩ := hsame
    exact ⟨by rw [PatternsGiven, hproc]; exact h.given, by rw [hps]; exact h.sound⟩
  | inr hnext => exact hnext.givenInv h

/-- Stranded blank patterns get a process of their own, after as many clean exits as it
takes to pass on the patterns before them. -/
theorem exists_process_without_pattern {s : Job} (hpend : s.pendingExit = some .process)
    (hok : s.mError.asBool = false) (hfit : ∀ p ∈ s.mPatternsToDo, Fits p)
    (hne : s.mPatternsToDo ≠ []) (h : (∀ p ∈ s.mPatternsToDo, Blank p) ∨
      Stranded patternBudget.toNat s.mPatternsToDo) :
    ∃ es t, run step es s = some t ∧ ¬PatternsGiven t := by
  induction hn : s.mPatternsToDo.length using Nat.strong_induction_on generalizing s with
  | _ n ih =>
    obtain ⟨t, ht, hpend', hok', hproc, hps⟩ := clean_exit hpend hok hne
    cases h with
    | inl hblank =>
      refine ⟨[.exited 0 .normalExit true], t, run_cons.mpr ⟨t, ht, rfl⟩, fun hgiven => ?_⟩
      refine hgiven s.nextArguments (by simp [hproc]) ?_
      rw [drop_nextArguments, takePatterns_blank hblank]
    | inr hstranded =>
      obtain ⟨hne', hrest⟩ := (stranded_iff_rest hfit patternBudget).mp hstranded
      have hshorter := takePatterns_shorter hne hfit
      rw [← hps] at hne' hrest hshorter
      rw [hn] at hshorter
      have hfit' : ∀ p ∈ t.mPatternsToDo, Fits p := by
        rw [hps]
        exact fun p hp => hfit p (mem_of_mem_rest hp)
      obtain ⟨es, u, hu, hbad⟩ := ih _ hshorter hpend' hok' hfit' hne' hrest rfl
      exact ⟨_ :: es, u, run_cons.mpr ⟨t, ht, hu⟩, hbad⟩

/-- For patterns that fit and are not all blank: in every run every process gets a pattern,
if and only if no blank patterns are stranded behind a full command line. -/
theorem patternsGiven_iff (patterns : List QString) (hp : ∃ p ∈ patterns, ¬Blank p)
    (hfit : ∀ p ∈ patterns, Fits p) :
    (∀ started es t, run step es (Job.start patterns started).1 = some t → PatternsGiven t) ↔
      ¬Stranded patternBudget.toNat patterns := by
  have hne : patterns ≠ [] := by
    obtain ⟨p, hp, -⟩ := hp
    exact List.ne_nil_of_mem hp
  have hqueue := queued_of_ne_nil hne
  constructor
  · intro h hs
    have hs' := (stranded_iff_rest hfit patternBudget).mp hs
    have hstart : (Job.start patterns true).1 = (queued patterns).running := by
      rw [Job.start_eq]
      rfl
    have hps : (Job.start patterns true).1.mPatternsToDo =
        (takePatterns patternBudget patterns).2.1 := by
      rw [hstart]
      exact congrArg (fun ps => (takePatterns patternBudget ps).2.1) hqueue
    obtain ⟨es, t, ht, hbad⟩ := exists_process_without_pattern
      (s := (Job.start patterns true).1) (by rw [hstart]; rfl) (by rw [hstart]; rfl)
      (by rw [hps]; exact fun p hp => hfit p (mem_of_mem_rest hp)) (by rw [hps]; exact hs'.1)
      (by rw [hps]; exact hs'.2)
    exact hbad (h true es t ht)
  · intro hs started es t ht
    have hq : GivenInv (queued patterns) := by
      refine ⟨by simp [PatternsGiven, queued, Job.new], ?_⟩
      rw [hqueue]
      exact ⟨hfit, fun _ => hp, hs⟩
    have hstart := (start_nextBatch patterns started).givenInv hq
    exact (run_invariant (fun s e t h _ => step_givenInv s e t h) hstart
      (along_of_forall (q := fun _ => True) (fun _ _ => trivial) _) ht).given

theorem patternsGiven_two_patterns :
    (∀ started es t, run step es (Job.start [['a'], [' ']] started).1 = some t →
      PatternsGiven t) ↔ ¬Stranded patternBudget.toNat [['a'], [' ']] :=
  patternsGiven_iff [['a'], [' ']] ⟨['a'], by simp, by decide⟩
    (by simp only [List.forall_mem_cons, Fits]; decide)

theorem blank_gets_process_of_full {p : QString} (h : FillsCommandLine p) :
    ¬Blank p ∧ Fits p ∧
    ∃ t, run step [.exited 0 .normalExit true] (Job.start [p, [' ']] true).1 = some t ∧
      t.processes.length = 2 ∧ options ∈ t.processes := by
  have hlen : (QString.toUtf8 p).trimmed.length = 32700 := h
  refine ⟨fun hb => ?_, ?_, ?_⟩
  · have hnil : (QString.toUtf8 p).trimmed = [] := hb
    simp [hnil] at hlen
  · rw [Fits, hlen]
    decide
  · have hp := takePatterns_full h [[' ']]
    have hb : takePatterns patternBudget [[' ']] = ([], [], 32701) := by decide
    simp [run, step, Job.start, Job.startAProcess, Job.running, Job.createProcess,
      Job.slotProcessExited, Job.nextArguments, hp, hb, Job.new, Error.asBool_noError]

/-- The first process takes the long pattern, the second one is left with the blank one. -/
theorem blank_gets_process :
    (∃ p ∈ [longPattern, [' ']], ¬Blank p) ∧ (∀ p ∈ [longPattern, [' ']], Fits p) ∧
    ∃ t, run step [.exited 0 .normalExit true] (Job.start [longPattern, [' ']] true).1 = some t ∧
      t.processes.length = 2 ∧ ¬PatternsGiven t := by
  obtain ⟨hnot, hfit, t, ht, hlen, hmem⟩ := blank_gets_process_of_full longPattern_fills
  have hblank : Fits [' '] := by
    rw [Fits]
    decide
  refine ⟨⟨longPattern, List.mem_cons_self, hnot⟩, ?_, t, ht, hlen, fun h => ?_⟩
  · exact List.forall_mem_cons.mpr ⟨hfit, List.forall_mem_singleton.mpr hblank⟩
  · exact h options hmem (List.drop_length)

end arguments

section processes

/-- The test of the loop on a new command line; the source counts the length modulo `2 ^ 32`. -/
def Consumable (p : QString) : Prop :=
  UInt32.ofNat (QString.toUtf8 p).trimmed.length < patternBudget

/-- Where patterns are left, startAProcess either fails or removes one of them. -/
def RemovesPattern (s : Job) : Prop := s.mPatternsToDo ≠ [] → ∀ started,
  (s.startAProcess started).2.asBool = true ∨
    (s.startAProcess started).1.mPatternsToDo.length < s.mPatternsToDo.length

theorem removesPattern_of_consumable {s : Job} (h : ∀ p ∈ s.mPatternsToDo, Consumable p) :
    RemovesPattern s := by
  intro hne started
  rw [Job.startAProcess, if_neg hne]
  cases started with
  | false => exact Or.inl (by simp [Job.notStarted, Error.fromCode, Error.asBool, Error.isCanceled])
  | true =>
    refine Or.inr ?_
    show (takePatterns patternBudget s.mPatternsToDo).2.1.length < _
    cases hps : s.mPatternsToDo with
    | nil => exact absurd hps hne
    | cons p ps => exact takePatterns_removes (h p (by simp [hps])) ps

/-- The patterns left have a process each in reserve. -/
structure BoundInv (bound : Nat) (s : Job) : Prop where
  consumable : ∀ p ∈ s.mPatternsToDo, Consumable p
  counted : s.processes.length + s.mPatternsToDo.length ≤ bound

theorem NextBatch.boundInv {bound : Nat} {s t : Job} (hst : NextBatch s t)
    (h : BoundInv bound s) : BoundInv bound t := by
  obtain ⟨hne, hps, hproc⟩ := hst
  have hcount := h.counted
  have hless : (takePatterns patternBudget s.mPatternsToDo).2.1.length <
      s.mPatternsToDo.length := by
    cases hq : s.mPatternsToDo with
    | nil => exact absurd hq hne
    | cons p ps => exact takePatterns_removes (h.consumable p (by simp [hq])) ps
  refine ⟨?_, ?_⟩
  · rw [hps]
    exact fun p hp => h.consumable p (mem_of_mem_rest hp)
  · rw [hps]
    cases hproc with
    | inl hsame =>
      rw [hsame]
      omega
    | inr hmore =>
      rw [hmore, List.length_append, List.length_singleton]
      omega

theorem step_boundInv {bound : Nat} (s : Job) (e : Event) (t : Job) (h : BoundInv bound s)
    (ht : step s e = some t) : BoundInv bound t := by
  cases step_batches ht with
  | inl hsame =>
    obtain ⟨hps, hproc⟩ := hsame
    exact ⟨by rw [hps]; exact h.consumable, by rw [hps, hproc]; exact h.counted⟩
  | inr hnext => exact hnext.boundInv h

/-- A pattern that fails the test on a new command line fails it on every command line. -/
theorem mem_rest_of_not_consumable {p : QString} (hp : ¬Consumable p) {ps : List QString}
    (hmem : p ∈ ps) {room : UInt32} (hroom : room ≤ patternBudget) :
    p ∈ (takePatterns room ps).2.1 := by
  induction ps generalizing room with
  | nil => simp at hmem
  | cons q ps ih =>
    by_cases hstop : UInt32.ofNat (QString.toUtf8 q).trimmed.length ≥ room
    · rw [takePatterns_stop hstop]
      exact hmem
    · have hlt := UInt32.not_le.mp hstop
      have hmem : p ∈ ps := by
        cases List.mem_cons.mp hmem with
        | inl heq =>
          subst heq
          exact absurd (UInt32.lt_of_lt_of_le hlt hroom) hp
        | inr hmem => exact hmem
      by_cases hblank : (QString.toUtf8 q).trimmed = []
      · rw [takePatterns_skip hstop hblank]
        exact ih hmem hroom
      · rw [takePatterns_pass hstop hblank]
        refine ih hmem (UInt32.le_trans ?_ hroom)
        rw [UInt32.lt_iff_toNat_lt] at hlt
        rw [UInt32.le_iff_toNat_le]
        have hle : UInt32.ofNat (QString.toUtf8 q).trimmed.length + 1 ≤ room := by
          rw [UInt32.le_iff_toNat_le, UInt32.toNat_add, UInt32.toNat_one]
          have := room.toNat_lt
          omega
        rw [UInt32.toNat_sub_of_le _ _ hle]
        exact Nat.sub_le _ _

/-- A pattern that fails the test stays, and every clean exit starts one more process. -/
theorem exists_many_processes {p : QString} (hp : ¬Consumable p) (n : Nat) {s : Job}
    (hpend : s.pendingExit = some .process) (hok : s.mError.asBool = false)
    (hmem : p ∈ s.mPatternsToDo) :
    ∃ t, run step (List.replicate n (.exited 0 .normalExit true)) s = some t ∧
      t.processes.length = s.processes.length + n ∧ p ∈ t.mPatternsToDo := by
  induction n generalizing s with
  | zero => exact ⟨s, rfl, rfl, hmem⟩
  | succ n ih =>
    obtain ⟨u, hu, hpend', hok', hproc, hps⟩ := clean_exit hpend hok (List.ne_nil_of_mem hmem)
    have hmem' : p ∈ u.mPatternsToDo := by
      rw [hps]
      exact mem_rest_of_not_consumable hp hmem (UInt32.le_refl _)
    obtain ⟨t, ht, hlen, hstay⟩ := ih hpend' hok' hmem'
    refine ⟨t, run_cons.mpr ⟨u, hu, ht⟩, ?_, hstay⟩
    rw [hlen, hproc, List.length_append, List.length_singleton]
    omega

theorem start_many_processes {patterns : List QString} {p : QString} (hmem : p ∈ patterns)
    (hp : ¬Consumable p) (n : Nat) :
    ∃ t, run step (List.replicate n (.exited 0 .normalExit true))
        (Job.start patterns true).1 = some t ∧
      t.processes.length = n + 1 ∧ p ∈ t.mPatternsToDo := by
  have hqueue := queued_of_ne_nil (List.ne_nil_of_mem hmem)
  have hstart : (Job.start patterns true).1 = (queued patterns).running := by
    rw [Job.start_eq]
    rfl
  have hmem' : p ∈ (queued patterns).running.mPatternsToDo := by
    refine mem_rest_of_not_consumable hp ?_ (UInt32.le_refl _)
    rw [hqueue]
    exact hmem
  obtain ⟨t, ht, hlen, hstay⟩ := exists_many_processes (s := (queued patterns).running) hp n
    rfl rfl hmem'
  refine ⟨t, by rw [hstart]; exact ht, ?_, hstay⟩
  rw [hlen]
  exact Nat.add_comm 1 n

/-- In every run there are at most as many processes as patterns, each call of startAProcess
removing one, if and only if every pattern passes the test on a new command line. -/
theorem processes_bounded_iff (patterns : List QString) :
    (RemovesPattern (queued patterns) ∧ ∀ started es t,
      run step es (Job.start patterns started).1 = some t →
        RemovesPattern t ∧ t.processes.length ≤ max 1 patterns.length) ↔
      ∀ p ∈ patterns, Consumable p := by
  constructor
  · intro ⟨_, h⟩ p hmem
    by_contra hp
    obtain ⟨t, ht, hlen, -⟩ := start_many_processes hmem hp (max 1 patterns.length)
    have := (h true _ t ht).2
    omega
  · intro h
    have hqueue : BoundInv (max 1 patterns.length) (queued patterns) := by
      by_cases hne : patterns = []
      · subst hne
        refine ⟨?_, by decide⟩
        rw [queued, if_pos rfl]
        exact List.forall_mem_singleton.mpr (by rw [Consumable]; decide)
      · refine ⟨by rw [queued_of_ne_nil hne]; exact h, ?_⟩
        rw [queued_of_ne_nil hne]
        simp only [queued, Job.new, List.length_nil]
        omega
    refine ⟨removesPattern_of_consumable hqueue.consumable, fun started es t ht => ?_⟩
    have hinv := run_invariant (fun s e t h _ => step_boundInv s e t h)
      ((start_nextBatch patterns started).boundInv hqueue)
      (along_of_forall (q := fun _ => True) (fun _ _ => trivial) _) ht
    refine ⟨removesPattern_of_consumable hinv.consumable, ?_⟩
    have := hinv.counted
    omega

theorem not_removesPattern {p : QString} (hp : ¬Consumable p) (ps : List QString) :
    ¬RemovesPattern (queued (p :: ps)) := by
  intro h
  have hqueue := queued_of_ne_nil (List.cons_ne_nil p ps)
  have hstay : (takePatterns patternBudget (p :: ps)).2.1 = p :: ps := by
    rw [takePatterns_stop (UInt32.not_lt.mp hp)]
  cases h (queued_not_nil _) true with
  | inl hfail => simp [Job.startAProcess, queued, Error.asBool_noError] at hfail
  | inr hless =>
    have hless : (takePatterns patternBudget (queued (p :: ps)).mPatternsToDo).2.1.length <
      (queued (p :: ps)).mPatternsToDo.length := hless
    rw [hqueue, hstay] at hless
    exact absurd hless (Nat.lt_irrefl _)

def oversizedPattern : QString := List.replicate 32701 'a'

theorem oversizedPattern_not_consumable : ¬Consumable oversizedPattern := by
  have hlen : (QString.toUtf8 oversizedPattern).trimmed.length = 32701 :=
    length_trimmed_replicate 32701
  rw [Consumable, hlen]
  decide

/-- A pattern one byte too long is never removed and keeps the job starting processes. -/
theorem processes_unbounded :
    ¬RemovesPattern (queued [oversizedPattern]) ∧ ∀ n, ∃ t,
      run step (List.replicate n (.exited 0 .normalExit true))
        (Job.start [oversizedPattern] true).1 = some t ∧
      t.processes.length = n + 1 := by
  refine ⟨not_removesPattern oversizedPattern_not_consumable [], fun n => ?_⟩
  obtain ⟨t, ht, hcount, -⟩ :=
    start_many_processes List.mem_cons_self oversizedPattern_not_consumable n
  exact ⟨t, ht, hcount⟩

end processes

end QGpgME.RefreshBatches
