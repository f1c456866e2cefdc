import QGpgME.EventRun
import QGpgME.PartialFile

/-! Cleaner: temporary files that could not be removed at once are tried again by the
application, until one attempt succeeds. Others may create, change and hold files in between. -/
namespace QGpgME.FileCleaning
open EventRun PartialFile

/-- `remove_file`, with the files that cannot be removed at the moment. -/
def removeFile (busy : FilePath → Bool) (files : FileSystem) (filePath : Option FilePath) :
    Bool × FileSystem :=
  match filePath with
  | none => (true, files)
  | some f =>
    if (files f).isSome then
      if busy f then (false, files) else (true, files.put f none)
    else (true, files)

/-- A Cleaner with the file that it was made for and the outcomes of its attempts. -/
structure Cleaner where
  file : FilePath
  mFilePath : Option FilePath
  timer : Bool
  deleted : Bool
  attempts : List Bool

namespace Cleaner

def new (f : FilePath) : Cleaner := ⟨f, some f, true, false, []⟩

def attempt (c : Cleaner) (success : Bool) : Cleaner :=
  { c with attempts := c.attempts ++ [success] }

/-- What the timer calls; it is a single shot one. -/
def callOnTimeout (busy : FilePath → Bool) (files : FileSystem) (c : Cleaner) :
    Bool × Cleaner × FileSystem :=
  match removeFile busy files c.mFilePath with
  | (true, files) => (true, { c.attempt true with mFilePath := none, timer := false }, files)
  | (false, files) => (false, { c.attempt false with timer := true }, files)

/-- The destructor. -/
def destroy (busy : FilePath → Bool) (files : FileSystem) (c : Cleaner) : Cleaner × FileSystem :=
  match c.mFilePath with
  | none => ({ c with timer := false, deleted := true }, files)
  | some f =>
    match removeFile busy files (some f) with
    | (success, files) => ({ c.attempt success with timer := false, deleted := true }, files)

end Cleaner

/-- What is queued for the thread of the application. -/
inductive Posted where
  | newCleaner (f : FilePath)
  | deferredDelete (i : Nat)
deriving DecidableEq

/-- Cleaners are numbered in the order in which they are made. `refused` lists the files that
could not be removed at once. -/
structure State where
  files : FileSystem
  busy : FilePath → Bool
  queue : List Posted
  cleaners : List Cleaner
  app : Bool
  refused : List FilePath

def initial (files : FileSystem) (busy : FilePath → Bool) : State := ⟨files, busy, [], [], true, []⟩

/-- `write` and `hold` are what others do to the files. -/
inductive Event where
  | removeFile (f : FilePath)
  | deliver
  | timeout (i : Nat)
  | quit
  | write (f : FilePath) (content : Option QByteArray)
  | hold (f : FilePath) (busy : Bool)
deriving DecidableEq

/-- The destructor of the application deletes its children. -/
def destroyAll (busy : FilePath → Bool) : List Cleaner → FileSystem → List Cleaner × FileSystem
  | [], files => ([], files)
  | c :: cleaners, files =>
    let (c, files) := if c.deleted then (c, files) else c.destroy busy files
    let (cleaners, files) := destroyAll busy cleaners files
    (c :: cleaners, files)

namespace State

/-- `Cleaner::removeFile` -/
def requestRemoval (s : State) (f : FilePath) : State :=
  match removeFile s.busy s.files (some f) with
  | (true, files) => { s with files := files }
  | (false, files) => { s with
      files := files, queue := s.queue ++ [.newCleaner f], refused := s.refused ++ [f] }

def setCleaner (s : State) (i : Nat) (c : Cleaner × FileSystem) : State :=
  { s with cleaners := s.cleaners.set i c.1, files := c.2 }

def timeout (s : State) (i : Nat) (c : Cleaner) : State :=
  match c.callOnTimeout s.busy s.files with
  | (true, c) => { s.setCleaner i c with queue := s.queue ++ [.deferredDelete i] }
  | (false, c) => s.setCleaner i c

/-- A cleaner that exists. -/
def live (s : State) (i : Nat) : Option Cleaner :=
  (getElem? s.cleaners i).filter fun c => !c.deleted

def perform (s : State) : Posted → State
  | .newCleaner f => { s with cleaners := s.cleaners ++ [.new f] }
  | .deferredDelete i => match s.live i with
    | none => s
    | some c => s.setCleaner i (c.destroy s.busy s.files)

end State

def step (s : State) : Event → Option State
  | .removeFile f => if s.app then some (s.requestRemoval f) else none
  | .deliver => match s.queue with
    | [] => none
    | call :: queue => some ({ s with queue := queue }.perform call)
  | .timeout i => (s.live i).bind fun c => if c.timer then some (s.timeout i c) else none
  | .quit =>
    if s.app then
      let (cleaners, files) := destroyAll s.busy s.cleaners s.files
      some { s with cleaners := cleaners, files := files, queue := [], app := false }
    else none
  | .write f content => some { s with files := s.files.put f content }
  | .hold f busy => some { s with busy := Function.update s.busy f busy }

/-- What the event loop of the application does by itself. -/
def Event.OfLoop (e : Event) : Prop := e = .deliver ∨ ∃ i, e = .timeout i

def Event.writes (f : FilePath) : Event → Bool
  | .write g _ => g == f
  | _ => false

/-- The file of the cleaner that a queued call is going to make. -/
def Posted.file : Posted → Option FilePath
  | .newCleaner f => some f
  | .deferredDelete _ => none

section files
variable {busy : FilePath → Bool} {files : FileSystem}

theorem removeFile_apply (busy : FilePath → Bool) (files : FileSystem) (p : Option FilePath)
    (g : FilePath) :
    (removeFile busy files p).2 g = if p = some g ∧ busy g = false then none else files g := by
  cases p with
  | none => simp [removeFile]
  | some f =>
    by_cases hfg : f = g
    · subst hfg
      cases hf : files f with
      | none => simp [removeFile, hf]
      | some content => cases hb : busy f <;> simp [removeFile, hf, hb]
    · have hg : (files.put f none) g = files g := FileSystem.put_ne (Ne.symm hfg) files none
      cases hf : files f with
      | none => simp [removeFile, hf, hfg]
      | some content => cases hb : busy f <;> simp [removeFile, hf, hb, hfg, hg]

theorem removeFile_of_free (h : ∀ f, busy f = false) (files : FileSystem) (p : Option FilePath) :
    (removeFile busy files p).1 = true := by
  cases p with
  | none => rfl
  | some f => cases hf : files f <;> simp [removeFile, hf, h f]

theorem removeFile_refused {p : Option FilePath} (h : (removeFile busy files p).1 = false) :
    (∃ f, p = some f) ∧ (removeFile busy files p).2 = files := by
  cases p with
  | none => simp [removeFile] at h
  | some f =>
    refine ⟨⟨f, rfl⟩, ?_⟩
    cases hf : files f with
    | none => simp [removeFile, hf] at h
    | some content =>
      cases hb : busy f with
      | false => simp [removeFile, hf, hb] at h
      | true => simp [removeFile, hf, hb]

end files

section cleaners
variable {busy : FilePath → Bool} {files : FileSystem} {c : Cleaner}

/-- The cleaner after an attempt of its timer. -/
def Cleaner.tried (c : Cleaner) (success : Bool) : Cleaner :=
  if success then { c.attempt true with mFilePath := none, timer := false }
  else { c.attempt false with timer := true }

theorem Cleaner.callOnTimeout_eq (busy : FilePath → Bool) (files : FileSystem) (c : Cleaner) :
    c.callOnTimeout busy files = ((removeFile busy files c.mFilePath).1,
      c.tried (removeFile busy files c.mFilePath).1, (removeFile busy files c.mFilePath).2) := by
  unfold callOnTimeout
  cases h : removeFile busy files c.mFilePath with
  | mk success files' => cases success <;> rfl

theorem Cleaner.destroy_files (busy : FilePath → Bool) (files : FileSystem) (c : Cleaner) :
    (c.destroy busy files).2 = (removeFile busy files c.mFilePath).2 := by
  cases h : c.mFilePath <;> simp [destroy, h, removeFile]

@[simp] theorem Cleaner.destroy_file : (c.destroy busy files).1.file = c.file := by
  cases h : c.mFilePath <;> simp [destroy, h, attempt]

@[simp] theorem Cleaner.destroy_deleted : (c.destroy busy files).1.deleted = true := by
  cases h : c.mFilePath <;> simp [destroy, h]

@[simp] theorem Cleaner.tried_file (success : Bool) : (c.tried success).file = c.file := by
  cases success <;> rfl

@[simp] theorem Cleaner.tried_deleted (success : Bool) :
    (c.tried success).deleted = c.deleted := by
  cases success <;> rfl

/-- A cleaner that still has its file tries again, and has not succeeded; one without tries no
more. -/
structure Cleaner.Sound (c : Cleaner) : Prop where
  once : true ∉ c.attempts.dropLast
  trying : c.deleted = false → c.mFilePath ≠ none →
    c.mFilePath = some c.file ∧ c.timer = true ∧ true ∉ c.attempts
  done : c.mFilePath = none → c.timer = false ∧ true ∈ c.attempts

theorem Cleaner.Sound.new (f : FilePath) : (Cleaner.new f).Sound :=
  ⟨by simp [Cleaner.new], fun _ _ => by simp [Cleaner.new], fun h => by simp [Cleaner.new] at h⟩

theorem Cleaner.Sound.tried (h : c.Sound) (hd : c.deleted = false) (ht : c.timer = true)
    (success : Bool) : (c.tried success).Sound := by
  have hne : c.mFilePath ≠ none := fun hn => by simp [(h.done hn).1] at ht
  obtain ⟨hf, -, hfail⟩ := h.trying hd hne
  cases success with
  | true =>
    refine ⟨?_, fun _ hn => ?_, fun _ => ⟨rfl, by simp [Cleaner.tried, Cleaner.attempt]⟩⟩
    · simpa [Cleaner.tried, Cleaner.attempt] using hfail
    · simp [Cleaner.tried] at hn
  | false =>
    refine ⟨?_, fun _ _ => ⟨hf, rfl, ?_⟩, fun hn => absurd hn hne⟩
    · simpa [Cleaner.tried, Cleaner.attempt] using hfail
    · simpa [Cleaner.tried, Cleaner.attempt] using hfail

theorem Cleaner.Sound.destroy (h : c.Sound) (hd : c.deleted = false) (busy : FilePath → Bool)
    (files : FileSystem) : (c.destroy busy files).1.Sound := by
  cases hf : c.mFilePath with
  | none =>
    refine ⟨?_, fun hd' => by simp at hd', fun _ => ⟨?_, ?_⟩⟩
    · simpa [Cleaner.destroy, hf] using h.once
    · simp [Cleaner.destroy, hf]
    · simpa [Cleaner.destroy, hf] using (h.done hf).2
  | some f =>
    have hfail := (h.trying hd (by simp [hf])).2.2
    refine ⟨?_, fun hd' => by simp at hd', fun hn => ?_⟩
    · simpa [Cleaner.destroy, hf, Cleaner.attempt] using hfail
    · simp [Cleaner.destroy, hf, Cleaner.attempt] at hn

/-- The cleaner is going to try to remove the file. -/
def Cleaner.waits (c : Cleaner) (f : FilePath) : Bool := !c.deleted && c.mFilePath == some f

theorem Cleaner.waits_iff {f : FilePath} :
    c.waits f = true ↔ c.deleted = false ∧ c.mFilePath = some f := by
  simp [Cleaner.waits]

@[simp] theorem Cleaner.destroy_waits (f : FilePath) :
    (c.destroy busy files).1.waits f = false := by
  simp [Cleaner.waits]

theorem Cleaner.tried_waits (f : FilePath) (success : Bool) :
    (c.tried success).waits f = (!success && c.waits f) := by
  cases success <;> simp [Cleaner.waits, Cleaner.tried, Cleaner.attempt]

theorem Cleaner.destroy_apply (busy : FilePath → Bool) (files : FileSystem) (f : FilePath)
    (hd : c.deleted = false) :
    (c.destroy busy files).2 f = files f ∨
      (c.destroy busy files).2 f = none ∧ c.waits f = true := by
  rw [Cleaner.destroy_files, removeFile_apply]
  by_cases hf : c.mFilePath = some f ∧ busy f = false
  · exact Or.inr ⟨if_pos hf, Cleaner.waits_iff.mpr ⟨hd, hf.1⟩⟩
  · exact Or.inl (if_neg hf)

/-- The destructor of the application removes a file only if one of the cleaners has it. -/
theorem destroyAll_apply {f : FilePath} :
    ∀ {cleaners : List Cleaner} {files : FileSystem},
      (destroyAll busy cleaners files).2 f = files f ∨
        (destroyAll busy cleaners files).2 f = none ∧ ∃ c ∈ cleaners, c.waits f = true := by
  intro cleaners
  induction cleaners with
  | nil => intro files; exact Or.inl rfl
  | cons c cleaners ih =>
    intro files
    by_cases hd : c.deleted = true
    · have hrest : (destroyAll busy (c :: cleaners) files).2 = (destroyAll busy cleaners files).2 :=
        by simp [destroyAll, hd]
      rw [hrest]
      obtain h | ⟨h, d, hd, hw⟩ := @ih files
      · exact Or.inl h
      · exact Or.inr ⟨h, d, by simp [hd], hw⟩
    · have hd' : c.deleted = false := by simpa using hd
      have hrest : (destroyAll busy (c :: cleaners) files).2 =
          (destroyAll busy cleaners (c.destroy busy files).2).2 := by simp [destroyAll, hd']
      rw [hrest]
      obtain h | ⟨h, d, hd, hw⟩ := @ih (c.destroy busy files).2
      · rw [h]
        obtain h | ⟨h, hw⟩ := c.destroy_apply busy files f hd'
        · exact Or.inl h
        · exact Or.inr ⟨h, c, by simp, hw⟩
      · exact Or.inr ⟨h, d, by simp [hd], hw⟩

theorem destroyAll_cleaner :
    ∀ {cleaners : List Cleaner} {files : FileSystem},
      ∀ c ∈ (destroyAll busy cleaners files).1, c.deleted = true ∧
        ∃ d ∈ cleaners, c = d ∨ d.deleted = false ∧ ∃ files', c = (d.destroy busy files').1 := by
  intro cleaners
  induction cleaners with
  | nil => intro files c hc; simp [destroyAll] at hc
  | cons d cleaners ih =>
    intro files c hc
    by_cases hd : d.deleted = true
    · simp only [destroyAll, hd, if_true, List.mem_cons] at hc
      cases hc with
      | inl h => exact ⟨by simp [h, hd], d, by simp, Or.inl h⟩
      | inr h =>
        obtain ⟨hdel, e, he, hce⟩ := ih c h
        exact ⟨hdel, e, by simp [he], hce⟩
    · have hd' : d.deleted = false := by simpa using hd
      simp only [destroyAll, hd', List.mem_cons] at hc
      cases hc with
      | inl h => exact ⟨by simp [h], d, by simp, Or.inr ⟨hd', files, by simpa using h⟩⟩
      | inr h =>
        obtain ⟨hdel, e, he, hce⟩ := ih c h
        exact ⟨hdel, e, by simp [he], hce⟩

end cleaners

section states
variable {s t : State} {f : FilePath} {i : Nat} {c d : Cleaner}

namespace State

/-- How many attempts at the file are still to come, queued cleaners included. -/
def waiting (s : State) (f : FilePath) : Nat :=
  s.queue.count (.newCleaner f) + s.cleaners.countP fun c => c.waits f

/-- The cleaner with this number has removed its file. -/
def Ended (cleaners : List Cleaner) (i : Nat) : Prop :=
  ∃ c, getElem? cleaners i = some c ∧ c.mFilePath = none

/-- Every cleaner is sound, and those that have removed their files are the ones that are about
to be deleted. -/
structure Sound (s : State) : Prop where
  cleaner : ∀ c ∈ s.cleaners, c.Sound
  doomed : ∀ i c, s.live i = some c → c.mFilePath = none → .deferredDelete i ∈ s.queue
  ended : ∀ i, .deferredDelete i ∈ s.queue → Ended s.cleaners i

/-- Each file that could not be removed at once has one cleaner, made or about to be. -/
def Filed (s : State) : Prop :=
  s.app = true → s.cleaners.map Cleaner.file ++ s.queue.filterMap Posted.file = s.refused

@[simp] theorem setCleaner_files (s : State) (i : Nat) (r : Cleaner × FileSystem) :
    (s.setCleaner i r).files = r.2 := rfl

theorem live_eq_some : s.live i = some c ↔ getElem? s.cleaners i = some c ∧ c.deleted = false := by
  simp [live, Option.filter_eq_some_iff]

theorem live_mem (h : s.live i = some c) : c ∈ s.cleaners :=
  List.mem_of_getElem? (live_eq_some.mp h).1

theorem live_setCleaner_of_ne {j : Nat} (h : j ≠ i) (r : Cleaner × FileSystem) :
    (s.setCleaner j r).live i = s.live i := by
  simp [live, setCleaner, List.getElem?_set_ne h]

theorem live_setCleaner (h : s.live i = some c) (r : Cleaner × FileSystem) :
    (s.setCleaner i r).live i = if r.1.deleted then none else some r.1 := by
  obtain ⟨hi, -⟩ := live_eq_some.mp h
  obtain ⟨hlt, -⟩ := List.getElem?_eq_some_iff.mp hi
  cases hd : r.1.deleted <;> simp [live, setCleaner, List.getElem?_set_self hlt, hd]

theorem countP_setCleaner (h : s.live i = some c) (r : Cleaner × FileSystem)
    (p : Cleaner → Bool) :
    (s.setCleaner i r).cleaners.countP p + (p c).toNat =
      s.cleaners.countP p + (p r.1).toNat := by
  obtain ⟨hi, -⟩ := live_eq_some.mp h
  obtain ⟨hlt, hc⟩ := List.getElem?_eq_some_iff.mp hi
  have hcount := List.countP_set (p := p) (a := r.1) hlt
  have hpos : p c = true → 0 < s.cleaners.countP p := fun hw =>
    List.countP_pos_iff.mpr ⟨c, live_mem h, hw⟩
  simp only [hc] at hcount
  simp only [setCleaner, hcount]
  cases hw : p c with
  | false => cases hr : p r.1 <;> simp
  | true =>
    have hone := hpos hw
    cases hr : p r.1 <;> simp <;> omega

theorem waiting_setCleaner (h : s.live i = some c) (r : Cleaner × FileSystem) (f : FilePath) :
    (s.setCleaner i r).waiting f + (c.waits f).toNat = s.waiting f + (r.1.waits f).toNat := by
  have hcount := countP_setCleaner h r fun c => c.waits f
  have hq : (s.setCleaner i r).queue = s.queue := rfl
  simp only [waiting, hq]
  omega

theorem map_file_setCleaner (h : s.live i = some c) (r : Cleaner × FileSystem)
    (hr : r.1.file = c.file) :
    (s.setCleaner i r).cleaners.map Cleaner.file = s.cleaners.map Cleaner.file := by
  obtain ⟨hi, -⟩ := live_eq_some.mp h
  have hi' : getElem? (s.cleaners.map Cleaner.file) i = some c.file := by simp [hi]
  obtain ⟨hlt, hget⟩ := List.getElem?_eq_some_iff.mp hi'
  rw [setCleaner, List.map_set, hr, ← hget, List.set_getElem_self]

/-- A file and what still waits for it are as before, or one attempt at the file is over and has
left no file. -/
def Cleans (s t : State) (f : FilePath) : Prop :=
  t.files f = s.files f ∧ t.waiting f = s.waiting f ∨
    t.waiting f + 1 = s.waiting f ∧ t.files f = none

theorem Cleans.of_queue {s' t' : State} (h : Cleans s t f) (hsf : s'.files = s.files)
    (htf : t'.files = t.files) (hs : s'.waiting f = s.waiting f)
    (ht : t'.waiting f = t.waiting f) : Cleans s' t' f := by
  rwa [Cleans, hsf, htf, hs, ht]

/-- The destructor of a cleaner that has removed its file does not touch files. -/
theorem cleans_destroy (h : s.live i = some c) (hn : c.mFilePath = none) (f : FilePath) :
    Cleans s (s.setCleaner i (c.destroy s.busy s.files)) f := by
  have hcount := waiting_setCleaner h (c.destroy s.busy s.files) f
  have hw : c.waits f = false := by simp [Cleaner.waits, hn]
  refine Or.inl ⟨?_, by simpa [hw] using hcount⟩
  simp [Cleaner.destroy, hn]

theorem cleans_tried (h : s.live i = some c) (f : FilePath) :
    Cleans s (s.setCleaner i (c.callOnTimeout s.busy s.files).2) f := by
  have hcount := waiting_setCleaner h (c.callOnTimeout s.busy s.files).2 f
  have happly := removeFile_apply s.busy s.files c.mFilePath f
  have hlive := (live_eq_some.mp h).2
  rw [Cleaner.callOnTimeout_eq] at hcount ⊢
  cases hr : (removeFile s.busy s.files c.mFilePath).1 with
  | false =>
    refine Or.inl ⟨?_, ?_⟩
    · exact congrFun (removeFile_refused hr).2 f
    · simpa [hr, Cleaner.tried_waits] using hcount
  | true =>
    rw [hr, Cleaner.tried_waits, Bool.not_true, Bool.false_and, Bool.toNat_false,
      Nat.add_zero] at hcount
    by_cases hf : c.mFilePath = some f
    · have hw : c.waits f = true := Cleaner.waits_iff.mpr ⟨hlive, hf⟩
      have hnone : (removeFile s.busy s.files c.mFilePath).2 f = none := by
        cases hb : s.busy f with
        | false => simpa [hf, hb] using happly
        | true =>
          cases hx : s.files f with
          | none => simp [happly, hx]
          | some content => simp [hf, removeFile, hx, hb] at hr
      exact Or.inr ⟨by simpa [hw] using hcount, hnone⟩
    · have hw : c.waits f = false := by simp [Cleaner.waits, hf]
      refine Or.inl ⟨?_, by simpa [hw] using hcount⟩
      simpa [setCleaner, hf] using happly

theorem waiting_post (hq : t.queue = s.queue ++ [.deferredDelete i])
    (hc : t.cleaners = s.cleaners) (f : FilePath) : t.waiting f = s.waiting f := by
  simp [waiting, hq, hc]

/-- A call that is delivered or a timer makes at most one attempt at a file. -/
theorem Sound.cleans_step {e : Event} (hs : s.Sound) (he : e.OfLoop)
    (h : FileCleaning.step s e = some t) (f : FilePath) : Cleans s t f := by
  obtain rfl | ⟨i, rfl⟩ := he
  · cases hq : s.queue with
    | nil => simp [FileCleaning.step, hq] at h
    | cons call queue =>
      simp only [FileCleaning.step, hq, Option.some.injEq] at h
      cases call with
      | newCleaner g =>
        refine Or.inl ⟨by rw [← h]; rfl, ?_⟩
        by_cases hg : g = f
        · simp [← h, perform, waiting, hq, hg, Cleaner.new, Cleaner.waits, List.countP_append]
          omega
        · simp [← h, perform, waiting, hq, hg, Cleaner.new, Cleaner.waits, List.countP_append]
      | deferredDelete i =>
        have hw : s.waiting f = ({ s with queue := queue } : State).waiting f := by
          simp [waiting, hq]
        cases hl : ({ s with queue := queue } : State).live i with
        | none =>
          refine Or.inl ⟨?_, ?_⟩
          · simp [← h, perform, hl]
          · rw [hw]
            simp [← h, perform, hl]
        | some c =>
          have hn : c.mFilePath = none := by
            obtain ⟨d, hd, hn⟩ := hs.ended i (by simp [hq])
            obtain rfl : d = c := Option.some.inj (hd.symm.trans (live_eq_some.mp hl).1)
            exact hn
          have hc := cleans_destroy hl hn f
          simp only [perform, hl] at h
          exact h ▸ hc.of_queue rfl rfl hw rfl
  · simp only [FileCleaning.step, Option.bind_eq_some_iff] at h
    obtain ⟨c, hl, h⟩ := h
    split_ifs at h
    have hc := cleans_tried hl f
    obtain rfl := Option.some.inj h
    cases hr : c.callOnTimeout s.busy s.files with
    | mk success r =>
      rw [hr] at hc
      cases success with
      | false => simpa [State.timeout, hr] using hc
      | true =>
        have hw := waiting_post (t := s.timeout i c) (s := s.setCleaner i r) (i := i)
          (by simp [State.timeout, hr, setCleaner]) (by simp [State.timeout, hr]) f
        exact hc.of_queue rfl (by simp [State.timeout, hr]) rfl hw

/-- A request either leaves no file, or makes one more attempt wait. -/
theorem requestRemoval_or (s : State) (g : FilePath) :
    (∃ files, (∀ f, files f = s.files f ∨ f = g ∧ files f = none) ∧ files g = none ∧
      s.requestRemoval g = { s with files := files }) ∨
    s.requestRemoval g =
      { s with queue := s.queue ++ [.newCleaner g], refused := s.refused ++ [g] } := by
  have happly := removeFile_apply s.busy s.files (some g)
  cases hr : removeFile s.busy s.files (some g) with
  | mk success files =>
    simp only [hr] at happly
    cases success with
    | true =>
      refine Or.inl ⟨files, fun f => ?_, ?_, by simp [requestRemoval, hr]⟩
      · by_cases hf : g = f ∧ s.busy f = false
        · exact Or.inr ⟨hf.1.symm, by simp [happly, hf]⟩
        · exact Or.inl (by rw [happly, if_neg (by simpa using hf)])
      · cases hb : s.busy g with
        | false => simp [happly, hb]
        | true =>
          cases hx : s.files g with
          | none => simp [happly, hx]
          | some content => simp [removeFile, hx, hb] at hr
    | false =>
      have hfiles : files = s.files := by
        have hrefused : (removeFile s.busy s.files (some g)).1 = false := by rw [hr]
        have h := (removeFile_refused hrefused).2
        rwa [hr] at h
      exact Or.inr (by simp [requestRemoval, hr, hfiles])

theorem Ended.append {cleaners : List Cleaner} (h : Ended cleaners i) (more : List Cleaner) :
    Ended (cleaners ++ more) i := by
  obtain ⟨d, hd, hn⟩ := h
  obtain ⟨hlt, -⟩ := List.getElem?_eq_some_iff.mp hd
  exact ⟨d, by rw [List.getElem?_append_left hlt, hd], hn⟩

theorem Ended.set {cleaners : List Cleaner} {j : Nat} (h : Ended cleaners i)
    (hc : ∀ d, getElem? cleaners j = some d → d.mFilePath = none → c.mFilePath = none) :
    Ended (cleaners.set j c) i := by
  obtain ⟨d, hd, hn⟩ := h
  obtain ⟨hlt, -⟩ := List.getElem?_eq_some_iff.mp hd
  by_cases hij : i = j
  · subst hij
    exact ⟨c, List.getElem?_set_self hlt, hc d hd hn⟩
  · exact ⟨d, by rw [List.getElem?_set_ne (Ne.symm hij), hd], hn⟩

/-- As far as a request acts at once, it does what a PartialFileGuard does in the end. -/
theorem requestRemoval_files (s : State) {answers : FileAnswers} {f : FilePath}
    (h : answers.removeFails = s.busy f) :
    (s.requestRemoval f).files = s.files.removeFile answers f := by
  cases hx : s.files f with
  | none => simp [requestRemoval, FileCleaning.removeFile, FileSystem.removeFile, hx]
  | some content =>
    cases hb : s.busy f with
    | true =>
      simp [requestRemoval, FileCleaning.removeFile, FileSystem.removeFile, hx, hb, h]
    | false =>
      simp [requestRemoval, FileCleaning.removeFile, FileSystem.removeFile, hx, hb, h]

theorem Sound.setCleaner (h : s.Sound) (hl : s.live i = some c) {r : Cleaner × FileSystem}
    (hr : r.1.Sound) (hd : r.1.deleted = false → r.1.mFilePath ≠ none)
    (hc : c.mFilePath ≠ none) : (s.setCleaner i r).Sound := by
  refine ⟨fun d hd => ?_, fun j d hj hn => ?_, fun j hj => (h.ended j hj).set fun d hd hn => ?_⟩
  · obtain hd | rfl := List.mem_or_eq_of_mem_set hd
    · exact h.cleaner d hd
    · exact hr
  · by_cases hij : i = j
    · subst hij
      rw [live_setCleaner hl] at hj
      split_ifs at hj with hdel
      obtain rfl := Option.some.inj hj
      exact absurd hn (hd (by simpa using hdel))
    · rw [live_setCleaner_of_ne hij] at hj
      exact h.doomed j d hj hn
  · obtain rfl : d = c := Option.some.inj (hd.symm.trans (live_eq_some.mp hl).1)
    exact absurd hn hc

theorem Sound.timeout (h : s.Sound) (hl : s.live i = some c) (ht : c.timer = true) :
    (s.timeout i c).Sound := by
  have hlive := (live_eq_some.mp hl).2
  have hc := h.cleaner c (live_mem hl)
  have hne : c.mFilePath ≠ none := fun hn => by simp [(hc.done hn).1] at ht
  have heq := Cleaner.callOnTimeout_eq s.busy s.files c
  have hsound := fun b => hc.tried hlive ht b
  cases hr : (removeFile s.busy s.files c.mFilePath).1 with
  | false =>
    rw [hr] at heq
    have hset := h.setCleaner hl (r := (c.tried false, (removeFile s.busy s.files c.mFilePath).2))
      (hsound false) (fun _ => hne) hne
    simpa [State.timeout, heq] using hset
  | true =>
    rw [hr] at heq
    have hcleaners : (s.timeout i c).cleaners = s.cleaners.set i (c.tried true) := by
      simp [State.timeout, heq, State.setCleaner]
    have hq : (s.timeout i c).queue = s.queue ++ [.deferredDelete i] := by
      simp [State.timeout, heq]
    refine ⟨fun d hd => ?_, fun j d hj hn => ?_, fun j hj => ?_⟩
    · rw [hcleaners] at hd
      obtain hd | rfl := List.mem_or_eq_of_mem_set hd
      · exact h.cleaner d hd
      · exact hsound true
    · rw [hq]
      by_cases hij : i = j
      · simp [hij]
      · have hj' : s.live j = some d := by
          rw [← live_setCleaner_of_ne hij (c.tried true, (removeFile s.busy s.files c.mFilePath).2)]
          simpa [State.timeout, heq, live] using hj
        exact List.mem_append_left _ (h.doomed j d hj' hn)
    · rw [hcleaners]
      rw [hq, List.mem_append, List.mem_singleton] at hj
      cases hj with
      | inl hj => exact (h.ended j hj).set fun d hd hn => rfl
      | inr hj =>
        obtain rfl : j = i := by simpa using hj
        obtain ⟨hlt, -⟩ := List.getElem?_eq_some_iff.mp (live_eq_some.mp hl).1
        exact ⟨_, List.getElem?_set_self hlt, rfl⟩

theorem Sound.newCleaner {queue : List Posted} {g : FilePath} (h : s.Sound)
    (hq : s.queue = .newCleaner g :: queue) :
    ({ s with queue := queue }.perform (.newCleaner g)).Sound := by
  refine ⟨fun d hd => ?_, fun j d hj hn => ?_, fun j hj => ?_⟩
  · cases List.mem_append.mp hd with
    | inl hd => exact h.cleaner d hd
    | inr hd => exact List.mem_singleton.mp hd ▸ Cleaner.Sound.new g
  · obtain ⟨hj, hdel⟩ := live_eq_some.mp hj
    have hj' : getElem? s.cleaners j = some d := by
      have hget : getElem? (s.cleaners ++ [Cleaner.new g]) j = some d := hj
      rw [List.getElem?_append] at hget
      split_ifs at hget with hlt
      · exact hget
      · obtain rfl := List.mem_singleton.mp (List.mem_of_getElem? hget)
        simp [Cleaner.new] at hn
    have hqueue := h.doomed j d (live_eq_some.mpr ⟨hj', hdel⟩) hn
    have hqueue' : .deferredDelete j ∈ queue := by simpa [hq] using hqueue
    exact hqueue'
  · have hj' : .deferredDelete j ∈ queue := hj
    exact (h.ended j (by simp [hq, hj'])).append _

theorem Sound.deferredDelete {queue : List Posted} (h : s.Sound)
    (hq : s.queue = .deferredDelete i :: queue) :
    ({ s with queue := queue }.perform (.deferredDelete i)).Sound := by
  have hrest : ∀ j d, ({ s with queue := queue } : State).live j = some d →
      d.mFilePath = none → j ≠ i → .deferredDelete j ∈ queue := fun j d hj hn hji => by
    have hd := h.doomed j d hj hn
    simpa [hq, hji] using hd
  have hended : ∀ j, .deferredDelete j ∈ queue → Ended s.cleaners j := fun j hj =>
    h.ended j (by simp [hq, hj])
  cases hl : ({ s with queue := queue } : State).live i with
  | none =>
    simp only [perform, hl]
    refine ⟨h.cleaner, fun j d hj hn => hrest j d hj hn ?_, hended⟩
    rintro rfl
    simp [hl] at hj
  | some c =>
    simp only [perform, hl]
    have hc : c ∈ s.cleaners := live_mem (s := { s with queue := queue }) hl
    refine ⟨fun d hd => ?_, fun j d hj hn => ?_, fun j hj => (hended j hj).set fun d hd hn => ?_⟩
    · obtain hd | rfl := List.mem_or_eq_of_mem_set hd
      · exact h.cleaner d hd
      · exact (h.cleaner c hc).destroy (live_eq_some.mp hl).2 _ _
    · by_cases hij : i = j
      · subst hij
        simp [live_setCleaner hl] at hj
      · rw [live_setCleaner_of_ne hij] at hj
        exact hrest j d hj hn (Ne.symm hij)
    · obtain rfl : d = c := Option.some.inj (hd.symm.trans (live_eq_some.mp hl).1)
      simp [Cleaner.destroy, hn]

/-- What a step keeps of every cleaner. -/
theorem Sound.step {e : Event} (h : s.Sound) (ht : step s e = some t) : t.Sound := by
  cases e with
  | removeFile g =>
    simp only [FileCleaning.step] at ht
    split_ifs at ht
    obtain rfl := Option.some.inj ht
    obtain ⟨files, -, -, heq⟩ | heq := s.requestRemoval_or g
    · rw [heq]
      exact ⟨h.cleaner, h.doomed, h.ended⟩
    · rw [heq]
      refine ⟨h.cleaner, fun j d hj hn => List.mem_append_left _ (h.doomed j d hj hn), ?_⟩
      exact fun j hj => h.ended j (by simpa using hj)
  | deliver =>
    cases hq : s.queue with
    | nil => simp [FileCleaning.step, hq] at ht
    | cons call queue =>
      simp only [FileCleaning.step, hq, Option.some.injEq] at ht
      subst ht
      cases call with
      | newCleaner g => exact h.newCleaner hq
      | deferredDelete i => exact h.deferredDelete hq
  | timeout i =>
    simp only [FileCleaning.step, Option.bind_eq_some_iff] at ht
    obtain ⟨c, hl, ht⟩ := ht
    split_ifs at ht with htimer
    obtain rfl := Option.some.inj ht
    exact h.timeout hl htimer
  | quit =>
    simp only [FileCleaning.step] at ht
    split_ifs at ht
    obtain rfl := Option.some.inj ht
    refine ⟨fun c hc => ?_, fun i c hi _ => ?_, by simp⟩
    · obtain ⟨-, d, hd, rfl | ⟨hdel, files, rfl⟩⟩ := destroyAll_cleaner c hc
      · exact h.cleaner _ hd
      · exact (h.cleaner d hd).destroy hdel _ _
    · obtain ⟨hi, hdel⟩ := live_eq_some.mp hi
      have hdel' := (destroyAll_cleaner c (List.mem_of_getElem? hi)).1
      simp [hdel'] at hdel
  | write g content =>
    obtain rfl := Option.some.inj ht
    exact ⟨h.cleaner, h.doomed, h.ended⟩
  | hold g b =>
    obtain rfl := Option.some.inj ht
    exact ⟨h.cleaner, h.doomed, h.ended⟩

theorem Filed.deliver (h : s.Filed) (ht : step s .deliver = some t) : t.Filed := by
  intro happ
  cases hq : s.queue with
  | nil => simp [FileCleaning.step, hq] at ht
  | cons call queue =>
    simp only [FileCleaning.step, hq, Option.some.injEq] at ht
    subst ht
    cases call with
    | newCleaner g =>
      have hf := h happ
      rw [hq, List.filterMap_cons_some (show Posted.file (.newCleaner g) = some g from rfl)] at hf
      simpa [perform, Cleaner.new] using hf
    | deferredDelete i =>
      cases hl : ({ s with queue := queue } : State).live i with
      | none =>
        simp only [perform, hl] at happ ⊢
        have hf := h happ
        rwa [hq, List.filterMap_cons_none rfl] at hf
      | some c =>
        simp only [perform, hl] at happ ⊢
        have hf := h happ
        rw [hq, List.filterMap_cons_none rfl] at hf
        rw [map_file_setCleaner hl _ Cleaner.destroy_file]
        exact hf

theorem Filed.timeout (h : s.Filed) (ht : FileCleaning.step s (.timeout i) = some t) :
    t.Filed := by
  intro happ
  simp only [FileCleaning.step, Option.bind_eq_some_iff] at ht
  obtain ⟨c, hl, ht⟩ := ht
  split_ifs at ht
  obtain rfl := Option.some.inj ht
  have heq := Cleaner.callOnTimeout_eq s.busy s.files c
  have hfile := map_file_setCleaner hl (c.callOnTimeout s.busy s.files).2 (by simp [heq])
  cases hr : c.callOnTimeout s.busy s.files with
  | mk success r =>
    rw [hr] at hfile
    cases success with
    | false =>
      simp only [State.timeout, hr] at happ ⊢
      rw [hfile]
      exact h happ
    | true =>
      simp only [State.timeout, hr] at happ ⊢
      rw [hfile, List.filterMap_append, List.filterMap_cons_none rfl, List.filterMap_nil,
        List.append_nil]
      exact h happ

theorem Filed.step {e : Event} (h : s.Filed) (ht : step s e = some t) : t.Filed := by
  intro happ
  cases e with
  | removeFile g =>
    simp only [FileCleaning.step] at ht
    split_ifs at ht with hs
    obtain rfl := Option.some.inj ht
    obtain ⟨files, -, -, heq⟩ | heq := s.requestRemoval_or g
    · rw [heq]
      exact h hs
    · rw [heq, ← h hs]
      simp [Posted.file]
  | deliver => exact h.deliver ht happ
  | timeout i => exact h.timeout ht happ
  | quit =>
    simp only [FileCleaning.step] at ht
    split_ifs at ht
    obtain rfl := Option.some.inj ht
    simp at happ
  | write g content =>
    obtain rfl := Option.some.inj ht
    exact h happ
  | hold g b =>
    obtain rfl := Option.some.inj ht
    exact h happ

theorem sound_initial (files : FileSystem) (busy : FilePath → Bool) :
    (initial files busy).Sound :=
  ⟨by simp [initial], fun i c h => by simp [live, initial] at h, by simp [initial]⟩

/-- `n` more attempts at the file may wait, or the file is gone at the price of one of them. -/
def Touches (s t : State) (f : FilePath) (n : Nat) : Prop :=
  t.files f = s.files f ∧ t.waiting f ≤ s.waiting f + n ∨
    t.files f = none ∧ t.waiting f + 1 ≤ s.waiting f + n

theorem Cleans.touches (h : Cleans s t f) (n : Nat) : Touches s t f n := by
  obtain ⟨hf, hw⟩ | ⟨hw, hf⟩ := h
  · exact Or.inl ⟨hf, by omega⟩
  · exact Or.inr ⟨hf, by omega⟩

theorem touches_requestRemoval (s : State) (g f : FilePath) :
    Touches s (s.requestRemoval g) f ([Event.removeFile g].count (.removeFile f)) := by
  obtain ⟨files, hfiles, -, heq⟩ | heq := s.requestRemoval_or g
  · have hw : (s.requestRemoval g).waiting f = s.waiting f := by rw [heq]; rfl
    obtain hf | ⟨rfl, hf⟩ := hfiles f
    · exact Or.inl ⟨by rw [heq]; exact hf, by omega⟩
    · exact Or.inr ⟨by rw [heq]; exact hf, by simp [hw]⟩
  · rw [heq]
    refine Or.inl ⟨rfl, ?_⟩
    by_cases hg : g = f
    · subst hg
      simp [waiting]
      omega
    · simp [waiting, hg]

/-- Files only change by being written, and by being removed for a request. -/
theorem Sound.touches_step {e : Event} (hs : s.Sound) (he : e.writes f = false)
    (ht : FileCleaning.step s e = some t) : Touches s t f ([e].count (.removeFile f)) := by
  cases e with
  | removeFile g =>
    simp only [FileCleaning.step] at ht
    split_ifs at ht
    exact Option.some.inj ht ▸ touches_requestRemoval s g f
  | deliver => exact (hs.cleans_step (Or.inl rfl) ht f).touches _
  | timeout i => exact (hs.cleans_step (Or.inr ⟨i, rfl⟩) ht f).touches _
  | quit =>
    simp only [FileCleaning.step] at ht
    split_ifs at ht
    obtain rfl := Option.some.inj ht
    have hw : (destroyAll s.busy s.cleaners s.files).1.countP (fun c => c.waits f) = 0 := by
      refine List.countP_eq_zero.mpr fun c hc => ?_
      simp [Cleaner.waits, (destroyAll_cleaner c hc).1]
    obtain h | ⟨h, c, hc, hcw⟩ := @destroyAll_apply s.busy f s.cleaners s.files
    · exact Or.inl ⟨h, by simp [waiting, hw]⟩
    · have hpos : 0 < s.cleaners.countP fun c => c.waits f :=
        List.countP_pos_iff.mpr ⟨c, hc, hcw⟩
      exact Or.inr ⟨h, by simp [waiting, hw]; omega⟩
  | write g content =>
    have hg : f ≠ g := by
      rintro rfl
      simp [Event.writes] at he
    obtain rfl := Option.some.inj ht
    exact Or.inl ⟨FileSystem.put_ne hg s.files content, by simp [waiting]⟩
  | hold g b =>
    obtain rfl := Option.some.inj ht
    exact Or.inl ⟨rfl, by simp [waiting]⟩

/-- How much a queued call still gives to do. -/
def workOf : Posted → Nat
  | .newCleaner _ => 3
  | .deferredDelete _ => 1

def work (s : State) : Nat :=
  (s.queue.map workOf).sum + 2 * s.cleaners.countP fun c => c.timer && !c.deleted

/-- What the files hold when the cleaners are through with them. -/
def cleaned (s : State) : FileSystem := fun f => if 0 < s.waiting f then none else s.files f

theorem Cleans.cleaned_eq (h : Cleans s t f) : t.cleaned f = s.cleaned f := by
  obtain ⟨hf, hw⟩ | ⟨hw, hnone⟩ := h
  · simp [cleaned, hf, hw]
  · have hpos : 0 < s.waiting f := by omega
    simp [cleaned, hnone, hpos]

/-- With no busy files each call and each timer brings the end nearer. -/
theorem work_step {e : Event} (he : e.OfLoop)
    (hfree : ∀ f, s.busy f = false) (h : step s e = some t) :
    t.work < s.work ∧ t.busy = s.busy := by
  obtain rfl | ⟨i, rfl⟩ := he
  · cases hq : s.queue with
    | nil => simp [step, hq] at h
    | cons call queue =>
      simp only [step, hq, Option.some.injEq] at h
      cases call with
      | newCleaner g =>
        refine ⟨?_, by rw [← h]; rfl⟩
        simp [← h, perform, work, hq, workOf, Cleaner.new]
        omega
      | deferredDelete i =>
        cases hl : ({ s with queue := queue } : State).live i with
        | none =>
          simp only [perform, hl] at h
          exact ⟨by simp [← h, work, hq, workOf], by rw [← h]⟩
        | some c =>
          simp only [perform, hl] at h
          have hcount := countP_setCleaner hl (c.destroy s.busy s.files)
            fun c => c.timer && !c.deleted
          rw [h] at hcount
          have hqueue : t.queue = queue := by rw [← h]; rfl
          refine ⟨?_, by rw [← h]; rfl⟩
          simp [work, hqueue, hq, workOf] at hcount ⊢
          omega
  · simp only [step, Option.bind_eq_some_iff] at h
    obtain ⟨c, hl, h⟩ := h
    split_ifs at h with htimer
    have hr := removeFile_of_free hfree s.files c.mFilePath
    have hcount := countP_setCleaner hl (c.callOnTimeout s.busy s.files).2
      fun c => c.timer && !c.deleted
    have hlive := (live_eq_some.mp hl).2
    rw [Cleaner.callOnTimeout_eq, hr] at hcount
    simp only [State.timeout, Cleaner.callOnTimeout_eq, hr, Option.some.injEq] at h
    refine ⟨?_, by rw [← h]; rfl⟩
    simp [Cleaner.tried, htimer, hlive] at hcount
    simp [← h, work, workOf, Cleaner.tried, setCleaner] at hcount ⊢
    omega

/-- Where no call is queued and no timer runs, nothing waits for anything. -/
theorem Sound.settled (h : s.Sound)
    (hstuck : ∀ e : Event, e.OfLoop → FileCleaning.step s e = none) :
    s.queue = [] ∧ (∀ c ∈ s.cleaners, c.deleted = true) ∧ s.cleaned = s.files := by
  have hq : s.queue = [] := by
    cases hq : s.queue with
    | nil => rfl
    | cons call queue =>
      have hd := hstuck .deliver (Or.inl rfl)
      simp [FileCleaning.step, hq] at hd
  have hall : ∀ c ∈ s.cleaners, c.deleted = true := by
    intro c hc
    by_contra hdel
    have hdel : c.deleted = false := by simpa using hdel
    obtain ⟨i, hi⟩ := List.getElem?_of_mem hc
    have hl : s.live i = some c := live_eq_some.mpr ⟨hi, hdel⟩
    have ht := hstuck (.timeout i) (Or.inr ⟨i, rfl⟩)
    have htimer : c.timer = false := by simpa [FileCleaning.step, hl] using ht
    by_cases hn : c.mFilePath = none
    · have hdoomed := h.doomed i c hl hn
      simp [hq] at hdoomed
    · have htrying := ((h.cleaner c hc).trying hdel hn).2.1
      simp [htimer] at htrying
  refine ⟨hq, hall, ?_⟩
  funext f
  have hw : s.waiting f = 0 := by
    simp only [waiting, hq, List.count_nil, Nat.zero_add]
    refine List.countP_eq_zero.mpr fun c hc => ?_
    simp [Cleaner.waits, hall c hc]
  simp [cleaned, hw]

end State

end states

section runs
variable {files : FileSystem} {busy : FilePath → Bool} {es : List Event} {e : Event}
  {s t u : State} {f : FilePath}

/-- The program removes the file in this step. -/
def removes (f : FilePath) (e : Event) (s t : State) : Bool :=
  !e.writes f && (s.files f).isSome && (t.files f).isNone

/-- How often the program removes the file in a run. -/
def removals (f : FilePath) : List Event → State → Nat
  | [], _ => 0
  | e :: es, s => match step s e with
    | none => 0
    | some t => (removes f e s t).toNat + removals f es t

/-- What the file holds after an event that is none of the program's. -/
def Event.leaves (f : FilePath) (old : Option QByteArray) : Event → Option QByteArray
  | .write g content => if g = f then content else old
  | _ => old

theorem waiting_of_writes (he : e.writes f = true) (hu : step s e = some u) :
    u.waiting f = s.waiting f := by
  cases e with
  | write g content => rw [← Option.some.inj hu]; rfl
  | _ => simp [Event.writes] at he

theorem removes_add_waiting (hs : s.Sound) (hu : step s e = some u) :
    (removes f e s u).toNat + u.waiting f ≤ s.waiting f + [e].count (.removeFile f) := by
  cases hw : e.writes f with
  | true =>
    have hwait := waiting_of_writes hw hu
    simp [removes, hw]
    omega
  | false =>
    have hone := Bool.toNat_le (removes f e s u)
    obtain ⟨hf, hle⟩ | ⟨hf, hle⟩ := hs.touches_step hw hu
    · have hno : removes f e s u = false := by
        rw [removes, hf]
        cases s.files f <;> simp
      simpa [hno] using hle
    · omega

theorem removals_add_waiting (hs : s.Sound) (ht : run step es s = some t) :
    removals f es s + t.waiting f ≤ s.waiting f + es.count (.removeFile f) := by
  induction es generalizing s with
  | nil =>
    obtain rfl : s = t := by simpa [run] using ht
    simp [removals]
  | cons e es ih =>
    obtain ⟨u, hu, hut⟩ := run_cons.mp ht
    have hfirst := removes_add_waiting (f := f) hs hu
    have hrest := ih (hs.step hu) hut
    have hcount : (e :: es).count (.removeFile f) =
        [e].count (.removeFile f) + es.count (.removeFile f) := by
      rw [← List.count_append, List.singleton_append]
    have hcons : removals f (e :: es) s = (removes f e s u).toNat + removals f es u := by
      simp [removals, hu]
    omega

theorem leaves_step (hs : s.Sound) (hu : step s e = some u) (h : s.waiting f = 0)
    (he : e ≠ .removeFile f) :
    u.waiting f = 0 ∧ u.files f = e.leaves f (s.files f) := by
  cases hw : e.writes f with
  | true =>
    refine ⟨by rw [waiting_of_writes hw hu, h], ?_⟩
    cases e with
    | write g content =>
      obtain rfl : g = f := by simpa [Event.writes] using hw
      simp [← Option.some.inj hu, Event.leaves]
    | _ => simp [Event.writes] at hw
  | false =>
    have hcount : [e].count (.removeFile f) = 0 := by simpa [List.count_singleton] using he
    have hleaves : e.leaves f (s.files f) = s.files f := by
      cases e with
      | write g content =>
        have hg : g ≠ f := by simpa [Event.writes] using hw
        simp [Event.leaves, hg]
      | _ => rfl
    obtain ⟨hf, hle⟩ | ⟨-, hle⟩ := hs.touches_step hw hu
    · exact ⟨by omega, hf.trans hleaves.symm⟩
    · omega

/-- Without a request a file is left alone. -/
theorem files_eq_leaves (hs : s.Sound) (ht : run step es s = some t) (h : s.waiting f = 0)
    (hes : .removeFile f ∉ es) : t.files f = es.foldl (Event.leaves f) (s.files f) := by
  induction es generalizing s with
  | nil =>
    obtain rfl : s = t := by simpa [run] using ht
    rfl
  | cons e es ih =>
    obtain ⟨u, hu, hut⟩ := run_cons.mp ht
    obtain ⟨he, hes⟩ : e ≠ .removeFile f ∧ .removeFile f ∉ es := by
      simpa [eq_comm] using hes
    obtain ⟨hwait, hfile⟩ := leaves_step hs hu h he
    rw [ih (hs.step hu) hut hwait hes, hfile, List.foldl_cons]

/-- In every run each request removes its file at most once, and what has been written anew
stays as long as no request asks for its removal. -/
theorem removals_le_requests (ht : run step es (initial files busy) = some t) (f : FilePath) :
    removals f es (initial files busy) + t.waiting f ≤ es.count (.removeFile f) ∧
      (.removeFile f ∉ es → t.files f = es.foldl (Event.leaves f) (files f)) := by
  have hs := State.sound_initial files busy
  have hwait : (initial files busy).waiting f = 0 := rfl
  refine ⟨?_, files_eq_leaves hs ht hwait⟩
  have hle := removals_add_waiting (f := f) hs ht
  rwa [hwait, Nat.zero_add] at hle

/-- A file that someone holds while its removal is requested. -/
def heldFile : FilePath := ⟨[], ['a']⟩

def heldFiles : FileSystem := fun f => if f = heldFile then some [1] else none

def heldBusy (f : FilePath) : Bool := f = heldFile

def heldRun : List Event := [.removeFile heldFile, .deliver, .timeout 0, .hold heldFile false]

def heldState : State where
  files := heldFiles
  busy := Function.update heldBusy heldFile false
  queue := []
  cleaners := [⟨heldFile, some heldFile, true, false, [false]⟩]
  app := true
  refused := [heldFile]

/-- The file is removed, written anew, and left alone. -/
def heldAgain : List Event :=
  heldRun ++ [.timeout 0, .write heldFile (some [2]), .deliver]

theorem removals_le_requests_held :
    ∃ t, run step heldAgain (initial heldFiles heldBusy) = some t ∧
      removals heldFile heldAgain (initial heldFiles heldBusy) + t.waiting heldFile ≤
        heldAgain.count (.removeFile heldFile) ∧ t.files heldFile = some [2] :=
  ⟨_, rfl, (removals_le_requests rfl heldFile).1, rfl⟩

theorem invariants_run (ht : run step es (initial files busy) = some t) :
    t.Sound ∧ t.Filed := by
  have hstep : ∀ s e t, s.Sound ∧ s.Filed → True → step s e = some t → t.Sound ∧ t.Filed :=
    fun s e t hs _ ht => ⟨hs.1.step ht, hs.2.step ht⟩
  refine run_invariant hstep ⟨State.sound_initial files busy, fun _ => rfl⟩ ?_ ht
  exact along_of_forall (q := fun _ => True) (fun _ _ => trivial) _

/-- As long as the application exists, each file that could not be removed at once has exactly
one cleaner, in the order of the requests; no cleaner touches a file after it has removed it. -/
theorem cleaner_of_refused (ht : run step es (initial files busy) = some t) :
    (t.app = true → t.cleaners.map Cleaner.file ++ t.queue.filterMap Posted.file = t.refused) ∧
      ∀ c ∈ t.cleaners, true ∉ c.attempts.dropLast ∧
        (c.deleted = false → true ∉ c.attempts → c.mFilePath = some c.file ∧ c.timer = true) := by
  obtain ⟨hsound, hfiled⟩ := invariants_run ht
  refine ⟨hfiled, fun c hc => ⟨(hsound.cleaner c hc).once, fun hdel hfail => ?_⟩⟩
  have hne : c.mFilePath ≠ none := fun hn => hfail ((hsound.cleaner c hc).done hn).2
  obtain ⟨hfile, htimer, -⟩ := (hsound.cleaner c hc).trying hdel hne
  exact ⟨hfile, htimer⟩

theorem cleaner_of_refused_held :
    heldState.cleaners.map Cleaner.file ++ heldState.queue.filterMap Posted.file = [heldFile] :=
  have hrun : run step heldRun (initial heldFiles heldBusy) = some heldState := rfl
  (cleaner_of_refused hrun).1 rfl

/-- Once no file is busy, calls and timers come to an end, in whatever order they happen. -/
theorem loop_run (hs : s.Sound) (hes : ∀ e ∈ es, e.OfLoop) (hfree : ∀ f, s.busy f = false)
    (ht : run step es s = some t) : es.length + t.work ≤ s.work ∧ t.cleaned = s.cleaned := by
  induction es generalizing s with
  | nil =>
    obtain rfl : s = t := by simpa [run] using ht
    simp
  | cons e es ih =>
    obtain ⟨u, hu, hut⟩ := run_cons.mp ht
    obtain ⟨he, hes⟩ := List.forall_mem_cons.mp hes
    obtain ⟨hwork, hbusy⟩ := State.work_step he hfree hu
    obtain ⟨hlen, hclean⟩ := ih (hs.step hu) hes (by rwa [hbusy]) hut
    have hfirst : u.cleaned = s.cleaned := by
      funext f
      exact (hs.cleans_step he hu f).cleaned_eq
    refine ⟨?_, hclean.trans hfirst⟩
    rw [List.length_cons]
    omega

/-- From every reachable state, once no file is busy, the event loop comes to rest after at most
`work` steps, in whatever order calls and timers happen. Then no cleaner exists, and just the
files that waited for one are gone. -/
theorem cleaned_at_rest {ls : List Event} (hs : run step es (initial files busy) = some s)
    (hfree : ∀ f, s.busy f = false) (hls : ∀ e ∈ ls, e.OfLoop) (ht : run step ls s = some t) :
    ls.length ≤ s.work ∧ ((∀ e : Event, e.OfLoop → step t e = none) →
      t.queue = [] ∧ (∀ c ∈ t.cleaners, c.deleted = true) ∧
        ∀ f, t.files f = if 0 < s.waiting f then none else s.files f) := by
  obtain ⟨hlen, hclean⟩ := loop_run (invariants_run hs).1 hls hfree ht
  refine ⟨by omega, fun hstuck => ?_⟩
  have hsound := (invariants_run (run_append.trans (by rw [hs]; exact ht))).1
  obtain ⟨hq, hdel, hfiles⟩ := hsound.settled hstuck
  refine ⟨hq, hdel, fun f => ?_⟩
  rw [← hfiles, hclean]
  rfl

theorem cleaned_at_rest_held :
    ∃ t, run step [.timeout 0, .deliver] heldState = some t ∧ 2 ≤ heldState.work ∧
      ((∀ e : Event, e.OfLoop → step t e = none) → t.files heldFile = none) := by
  have hfree : ∀ f, heldState.busy f = false := by
    intro f
    by_cases hf : f = heldFile <;> simp [heldState, heldBusy, hf]
  have hls : ∀ e ∈ [Event.timeout 0, .deliver], e.OfLoop := by
    intro e he
    simp only [List.mem_cons, List.not_mem_nil, or_false] at he
    rcases he with rfl | rfl
    · exact Or.inr ⟨0, rfl⟩
    · exact Or.inl rfl
  have hrun : run step heldRun (initial heldFiles heldBusy) = some heldState := rfl
  refine ⟨_, rfl, (cleaned_at_rest hrun hfree hls rfl).1, fun hstuck => ?_⟩
  exact ((cleaned_at_rest hrun hfree hls rfl).2 hstuck).2.2 heldFile

/-- The file is gone, or an attempt at it is still to come. -/
def Doomed (f : FilePath) (s : State) : Prop := s.files f = none ∨ 0 < s.waiting f

theorem doomed_requestRemoval (s : State) (f : FilePath) : Doomed f (s.requestRemoval f) := by
  obtain ⟨files, -, hgone, heq⟩ | heq := s.requestRemoval_or f
  · exact Or.inl (by rw [heq]; exact hgone)
  · rw [heq]
    have hcount : 0 < (s.queue ++ [Posted.newCleaner f]).count (.newCleaner f) := by simp
    exact Or.inr (Nat.add_pos_left hcount _)

theorem Doomed.of_le (h : Doomed f s) (hw : s.waiting f ≤ u.waiting f)
    (hf : u.files f = s.files f ∨ u.files f = none) : Doomed f u := by
  obtain hgone | hwait := h
  · exact Or.inl (hf.elim (fun hf => hf.trans hgone) id)
  · exact Or.inr (by omega)

theorem Doomed.of_cleans (h : Doomed f s) (hc : State.Cleans s u f) : Doomed f u := by
  obtain ⟨hf, hw⟩ | ⟨-, hgone⟩ := hc
  · exact h.of_le hw.ge (Or.inl hf)
  · exact Or.inl hgone

/-- As long as the application exists, a file is not given up before it is gone. -/
theorem Doomed.step (h : Doomed f s) (hs : s.Sound) (he : e.writes f = false) (hquit : e ≠ .quit)
    (hu : step s e = some u) : Doomed f u := by
  cases e with
  | removeFile g =>
    simp only [FileCleaning.step] at hu
    split_ifs at hu
    obtain rfl := Option.some.inj hu
    obtain ⟨files, hfiles, -, heq⟩ | heq := s.requestRemoval_or g
    · rw [heq]
      exact h.of_le le_rfl ((hfiles f).imp_right And.right)
    · rw [heq]
      have hcount : s.queue.count (Posted.newCleaner f) ≤
          (s.queue ++ [Posted.newCleaner g]).count (.newCleaner f) := by simp
      exact h.of_le (Nat.add_le_add_right hcount _) (Or.inl rfl)
  | deliver => exact h.of_cleans (hs.cleans_step (Or.inl rfl) hu f)
  | timeout i => exact h.of_cleans (hs.cleans_step (Or.inr ⟨i, rfl⟩) hu f)
  | quit => exact absurd rfl hquit
  | write g content =>
    have hg : f ≠ g := by
      rintro rfl
      simp [Event.writes] at he
    obtain rfl := Option.some.inj hu
    exact h.of_le le_rfl (Or.inl (FileSystem.put_ne hg s.files content))
  | hold g b =>
    obtain rfl := Option.some.inj hu
    exact h

theorem doomed_run (h : Doomed f s) (hs : s.Sound)
    (hes : ∀ e ∈ es, e.writes f = false ∧ e ≠ .quit) (ht : run step es s = some t) :
    Doomed f t := by
  have hstep : ∀ s e t, s.Sound ∧ Doomed f s → (e.writes f = false ∧ e ≠ .quit) →
      FileCleaning.step s e = some t → t.Sound ∧ Doomed f t :=
    fun s e t hs he ht => ⟨hs.1.step ht, hs.2.step hs.1 he.1 he.2 ht⟩
  exact (run_invariant hstep ⟨hs, h⟩ (along_of_forall hes s) ht).2

/-- A file whose removal has been requested is gone when the event loop is at rest, however long
others have held it, unless it is written again or the application ends before. -/
theorem requested_gone {rest : List Event}
    (ht : run step (es ++ .removeFile f :: rest) (initial files busy) = some t)
    (hrest : ∀ e ∈ rest, e.writes f = false ∧ e ≠ .quit)
    (hstuck : ∀ e : Event, e.OfLoop → step t e = none) : t.files f = none := by
  have hsound := (invariants_run ht).1
  obtain ⟨s, hs, ht⟩ := Option.bind_eq_some_iff.mp (run_append.symm.trans ht)
  obtain ⟨u, hu, hut⟩ := run_cons.mp ht
  have hdoomed : Doomed f u := by
    have hrequest := hu
    simp only [step] at hrequest
    split_ifs at hrequest
    exact Option.some.inj hrequest ▸ doomed_requestRemoval s f
  obtain hgone | hwait := doomed_run hdoomed ((invariants_run hs).1.step hu) hrest hut
  · exact hgone
  · obtain ⟨-, -, hclean⟩ := hsound.settled hstuck
    have hfile := congrFun hclean f
    rwa [State.cleaned, if_pos hwait, eq_comm] at hfile

/-- The state after the first removal of `heldAgain`, with the cleaner deleted. -/
def releasedState : State where
  files := heldFiles.put heldFile none
  busy := Function.update heldBusy heldFile false
  queue := []
  cleaners := [⟨heldFile, none, false, true, [false, true]⟩]
  app := true
  refused := [heldFile]

theorem requested_gone_held : releasedState.files heldFile = none := by
  have hrun : run step ([] ++ .removeFile heldFile ::
      [.deliver, .timeout 0, .hold heldFile false, .timeout 0, .deliver])
      (initial heldFiles heldBusy) = some releasedState := rfl
  have hrest : ∀ e ∈ [Event.deliver, .timeout 0, .hold heldFile false, .timeout 0, .deliver],
      e.writes heldFile = false ∧ e ≠ .quit := by decide
  refine requested_gone hrun hrest fun e he => ?_
  obtain rfl | ⟨i, rfl⟩ := he
  · rfl
  · cases i <;> rfl

end runs

end QGpgME.FileCleaning
