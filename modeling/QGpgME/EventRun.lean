import Mathlib.Logic.Basic

/-! Runs of an event-driven machine: a step answers an event with the next state,
or with none where the event cannot happen. Independent of any concrete machine. -/
namespace QGpgME.EventRun
variable {σ ε β : Type*}

def run (step : σ → ε → Option σ) : List ε → σ → Option σ
  | [], s => some s
  | e :: es, s => (step s e).bind (run step es)

/-- Every event of the run is taken in a state where `ok` holds of it. -/
def Along (step : σ → ε → Option σ) (ok : σ → ε → Prop) : List ε → σ → Prop
  | [], _ => True
  | e :: es, s => ok s e ∧ ∀ t, step s e = some t → Along step ok es t

variable {step : σ → ε → Option σ} {ok : σ → ε → Prop}

theorem run_cons {e : ε} {es : List ε} {s t : σ} :
    run step (e :: es) s = some t ↔ ∃ u, step s e = some u ∧ run step es u = some t := by
  simp [run, Option.bind_eq_some_iff]

theorem along_cons {e : ε} {es : List ε} {s u : σ} (hok : ok s e) (hu : step s e = some u)
    (h : Along step ok es u) : Along step ok (e :: es) s := by
  refine ⟨hok, fun t ht => ?_⟩
  obtain rfl : u = t := by simpa [hu] using ht
  exact h

theorem along_of_forall {q : ε → Prop} {es : List ε} (h : ∀ e ∈ es, q e) (s : σ) :
    Along step (fun _ e => q e) es s := by
  induction es generalizing s with
  | nil => trivial
  | cons e es ih =>
    exact ⟨h e (by simp), fun t _ => ih (fun x hx => h x (List.mem_cons_of_mem e hx)) t⟩

/-- What one guarded step preserves, a run whose steps all meet the guard preserves. -/
theorem run_invariant {Inv : σ → Prop}
    (hstep : ∀ s e t, Inv s → ok s e → step s e = some t → Inv t)
    {es : List ε} {s t : σ} (hs : Inv s) (hok : Along step ok es s)
    (ht : run step es s = some t) : Inv t := by
  induction es generalizing s with
  | nil =>
    obtain rfl : s = t := by simpa [run] using ht
    exact hs
  | cons e es ih =>
    obtain ⟨u, hu, hut⟩ := run_cons.mp ht
    exact ih (hstep s e u hs hok.1 hu) (hok.2 u hu) hut

theorem run_append {es fs : List ε} {s : σ} :
    run step (es ++ fs) s = (run step es s).bind (run step fs) := by
  induction es generalizing s with
  | nil => rfl
  | cons e es ih =>
    simp only [List.cons_append, run, Option.bind_assoc]
    cases step s e with
    | none => rfl
    | some t => exact ih

/-- What each step carries on from the events so far, a run carries on. -/
theorem run_history {Inv : List ε → σ → Prop}
    (hstep : ∀ h s e t, Inv h s → step s e = some t → Inv (h ++ [e]) t)
    {es h : List ε} {s t : σ} (hs : Inv h s) (ht : run step es s = some t) : Inv (h ++ es) t := by
  induction es generalizing h s with
  | nil =>
    obtain rfl : s = t := by simpa [run] using ht
    simpa using hs
  | cons e es ih =>
    obtain ⟨u, hu, hut⟩ := run_cons.mp ht
    have hnext := ih (hstep h s e u hs hu) hut
    simpa using hnext

/-- What no step changes, no run changes. -/
theorem run_frame {f : σ → β} (hstep : ∀ s e t, step s e = some t → f t = f s)
    {es : List ε} {s t : σ} (ht : run step es s = some t) : f t = f s := by
  induction es generalizing s with
  | nil =>
    obtain rfl : s = t := by simpa [run] using ht
    rfl
  | cons e es ih =>
    obtain ⟨u, hu, hut⟩ := run_cons.mp ht
    exact (ih hut).trans (hstep s e u hu)

/-- Guards that agree under an invariant are interchangeable along a run, if what meets them
keeps the invariant. -/
theorem along_congr {Inv : σ → Prop} {ok' : σ → ε → Prop}
    (hinv : ∀ s e t, Inv s → ok s e → step s e = some t → Inv t)
    (heq : ∀ s e, Inv s → (ok s e ↔ ok' s e)) {s : σ} (hs : Inv s) (es : List ε) :
    Along step ok es s ↔ Along step ok' es s := by
  induction es generalizing s with
  | nil => exact Iff.rfl
  | cons e es ih =>
    rw [Along, Along, ← heq s e hs]
    refine and_congr_right fun hok => ?_
    exact forall₂_congr fun t ht => ih (hinv s e t hs hok ht)

/-- Where each step by an event of the run keeps `P` just when it meets the guard, `P` holds
in every state of the run just when the whole run meets the guard. -/
theorem forall_states_iff {Inv P : σ → Prop} {q : ε → Prop}
    (hinv : ∀ s e t, Inv s → q e → step s e = some t → Inv t)
    (hstep : ∀ s e t, Inv s → q e → P s → step s e = some t → (P t ↔ ok s e))
    (hstop : ∀ s e, step s e = none → ok s e) {s : σ} (hs : Inv s) (hp : P s) {es : List ε}
    (hq : ∀ e ∈ es, q e) :
    (∀ n t, run step (es.take n) s = some t → P t) ↔ Along step ok es s := by
  induction es generalizing s with
  | nil =>
    refine ⟨fun _ => trivial, fun _ n t ht => ?_⟩
    obtain rfl : s = t := by simpa [run] using ht
    exact hp
  | cons e es ih =>
    obtain ⟨he, hes⟩ := List.forall_mem_cons.mp hq
    cases hu : step s e with
    | none =>
      refine ⟨fun _ => ⟨hstop s e hu, fun t ht => by simp [hu] at ht⟩, fun _ n t ht => ?_⟩
      cases n with
      | zero =>
        obtain rfl : s = t := by simpa [run] using ht
        exact hp
      | succ n => simp [run, hu] at ht
    | some u =>
      have hiu : Inv u := hinv s e u hs he hu
      have hpu := hstep s e u hs he hp hu
      have hnext : ∀ n, run step ((e :: es).take (n + 1)) s = run step (es.take n) u := by
        intro n
        simp [run, hu]
      constructor
      · intro h
        have hok : P u := h 1 u (by rw [hnext]; rfl)
        refine along_cons (hpu.mp hok) hu ((ih hiu hok hes).mp fun n t ht => ?_)
        exact h (n + 1) t (by rw [hnext]; exact ht)
      · intro h n t ht
        cases n with
        | zero =>
          obtain rfl : s = t := by simpa [run] using ht
          exact hp
        | succ n =>
          rw [hnext] at ht
          exact (ih hiu (hpu.mpr h.1) hes).mpr (h.2 u hu) n t ht

section answering
variable {α : Type*}

/-- A run of a machine that answers every event. -/
def answers (step : σ → ε → Option (α × σ)) : List ε → σ → Option (List α × σ)
  | [], s => some ([], s)
  | e :: es, s => (step s e).bind fun r =>
    (answers step es r.2).map fun t => (r.1 :: t.1, t.2)

theorem answers_cons {step : σ → ε → Option (α × σ)} {e : ε} {es : List ε} {s t u : σ} {a : α}
    {as : List α} (he : step s e = some (a, t)) (hes : answers step es t = some (as, u)) :
    answers step (e :: es) s = some (a :: as, u) := by
  simp [answers, he, hes]

end answering

end QGpgME.EventRun
