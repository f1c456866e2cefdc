import Mathlib.Data.List.Basic

/-! Programs that make calls answered with an error, with the trace of these calls. The
errors have a truth value that guards each further call. Independent of any engine. -/
namespace QGpgME.CallTrace
universe w
variable {κ ε : Type w}

abbrev Trace (κ ε : Type w) := List (κ × ε)

/-- The answer may depend on all that was called and answered before. -/
abbrev Calls (κ ε α : Type w) := StateM (Trace κ ε) α

def call (answer : Trace κ ε → κ → ε) (c : κ) : Calls κ ε ε := fun t =>
  (answer t c, t ++ [(c, answer t c)])

/-- A call whose answer is ignored. -/
def perform (answer : Trace κ ε → κ → ε) (c : κ) : Calls κ ε PUnit := fun t =>
  (PUnit.unit, t ++ [(c, answer t c)])

/-- `if (b) c;` -/
def performIf (answer : Trace κ ε → κ → ε) (b : Bool) (c : κ) : Calls κ ε PUnit :=
  if b then perform answer c else pure PUnit.unit

/-- `err = m; if (!err) err = next;` -/
def ifNoError (truth : ε → Bool) (m next : Calls κ ε ε) : Calls κ ε ε := do
  let err ← m
  if truth err then pure err else next

/-- `err = m; if (handled(err)) err = next;` -/
def ifHandled (handled : ε → Bool) (m next : Calls κ ε ε) : Calls κ ε ε := do
  let err ← m
  if handled err then next else pure err

/-- A call that fails is the last one, and its error is the one reported. -/
def Stops (failure : κ → ε → Prop) (t : Trace κ ε) (err : ε) : Prop :=
  ∀ u c e v, t = u ++ (c, e) :: v → failure c e → v = [] ∧ err = e

/-- The calls made since the trace `t` are all of the given sort. -/
def Makes (sort : κ → Prop) (t t' : Trace κ ε) : Prop := ∃ u, t' = t ++ u ∧ ∀ c ∈ u, sort c.1

/-- Wherever the program is started, it stops at the first failure, provided that all its
calls are answered with errors of the good sort. -/
def Sound (failure : κ → ε → Prop) (good : ε → Prop) (m : Calls κ ε ε) : Prop :=
  ∀ s, ∃ t, (m s).2 = s ++ t ∧ ((∀ x ∈ t, good x.2) → Stops failure t (m s).1)

variable {failure : κ → ε → Prop} {good : ε → Prop} {truth handled : ε → Bool}

theorem ifNoError_run (m next : Calls κ ε ε) (s : Trace κ ε) :
    ifNoError truth m next s = if truth (m s).1 then m s else next (m s).2 := by
  change (if truth (m s).1 then pure (m s).1 else next : Calls κ ε ε) (m s).2 = _
  split <;> rfl

theorem ifHandled_run (m next : Calls κ ε ε) (s : Trace κ ε) :
    ifHandled handled m next s = if handled (m s).1 then next (m s).2 else m s := by
  change (if handled (m s).1 then next else pure (m s).1 : Calls κ ε ε) (m s).2 = _
  split <;> rfl

/-- A handled error is replaced. -/
theorem ifHandled_pure (answer : Trace κ ε → κ → ε) (c : κ) (ok : ε) (t : Trace κ ε) :
    ifHandled handled (call answer c) (pure ok) t =
      (if handled (answer t c) then ok else answer t c, t ++ [(c, answer t c)]) := by
  rw [ifHandled_run]
  change (if handled (answer t c) then (ok, t ++ [(c, answer t c)]) else call answer c t) = _
  split <;> rfl

/-- Guards by the error so far can be regrouped. -/
theorem ifNoError_assoc (m n next : Calls κ ε ε) :
    ifNoError truth (ifNoError truth m n) next =
      ifNoError truth m (ifNoError truth n next) := by
  funext s
  simp only [ifNoError_run]
  by_cases h : truth (m s).1 = true <;> simp [h]

theorem makes_refl (sort : κ → Prop) (t : Trace κ ε) : Makes sort t t := by
  refine ⟨[], (List.append_nil t).symm, ?_⟩
  intro c hc
  cases hc

theorem makes_call {sort : κ → Prop} {c : κ} (hc : sort c) (answer : Trace κ ε → κ → ε)
    (t : Trace κ ε) : Makes sort t (call answer c t).2 := by
  refine ⟨[(c, answer t c)], rfl, ?_⟩
  intro d hd
  rw [List.mem_singleton.mp hd]
  exact hc

theorem makes_performIf {sort : κ → Prop} {c : κ} (hc : sort c) (answer : Trace κ ε → κ → ε)
    (b : Bool) (t : Trace κ ε) : Makes sort t (performIf answer b c t).2 := by
  unfold performIf
  split
  · exact makes_call hc answer t
  · exact makes_refl sort t

/-- What comes before a call that only the last one can be. -/
theorem before_last {sort : κ → Prop} {l before after : Trace κ ε} {x y : κ × ε}
    (hl : ∀ c ∈ l, ¬sort c.1) (hy : sort y.1) (h : l ++ [x] = before ++ y :: after) :
    before = l := by
  obtain rfl | ⟨after, z, rfl⟩ := List.eq_nil_or_concat after
  · exact (List.append_inj_left' h rfl).symm
  · rw [List.concat_eq_append, ← List.cons_append, ← List.append_assoc] at h
    have hl' := List.append_inj_left' h rfl
    exact absurd hy (hl y (by simp [hl']))

theorem Makes.trans {sort : κ → Prop} {t t' t'' : Trace κ ε} (h : Makes sort t t')
    (h' : Makes sort t' t'') : Makes sort t t'' := by
  obtain ⟨u, rfl, hu⟩ := h
  obtain ⟨u', rfl, hu'⟩ := h'
  refine ⟨u ++ u', List.append_assoc t u u', ?_⟩
  intro c hc
  cases List.mem_append.mp hc with
  | inl hc => exact hu c hc
  | inr hc => exact hu' c hc

theorem stops_nil (err : ε) : Stops failure ([] : Trace κ ε) err := by
  intro u c e v h
  simp at h

theorem stops_append {t₁ t₂ : Trace κ ε} {err : ε} (h₁ : ∀ x ∈ t₁, ¬failure x.1 x.2)
    (h₂ : Stops failure t₂ err) : Stops failure (t₁ ++ t₂) err := by
  intro u c e v h hf
  cases List.append_eq_append_iff.mp h with
  | inl hsplit =>
    obtain ⟨w, -, hw⟩ := hsplit
    exact h₂ w c e v hw hf
  | inr hsplit =>
    obtain ⟨w, hw, hcv⟩ := hsplit
    cases w with
    | nil => exact h₂ [] c e v (by simpa using hcv.symm) hf
    | cons x w =>
      obtain ⟨rfl, -⟩ : (c, e) = x ∧ v = w ++ t₂ := by simpa using hcv
      exact absurd hf (h₁ (c, e) (by simp [hw]))

/-- Where the error reported is false, no call has failed. -/
theorem no_failure_of_stops {t : Trace κ ε} {err : ε} (h : Stops failure t err)
    (hgood : ∀ x ∈ t, good x.2)
    (htruth : ∀ c e, failure c e → good e → truth e = true) (herr : truth err = false) :
    ∀ x ∈ t, ¬failure x.1 x.2 := by
  intro x hx hf
  obtain ⟨u, v, rfl⟩ := List.append_of_mem hx
  obtain ⟨-, rfl⟩ := h u x.1 x.2 v rfl hf
  have ht := htruth x.1 x.2 hf (hgood x hx)
  simp [ht] at herr

theorem sound_pure (err : ε) : Sound failure good (pure err : Calls κ ε ε) := by
  intro s
  exact ⟨[], (List.append_nil s).symm, fun _ => stops_nil err⟩

theorem sound_call (answer : Trace κ ε → κ → ε) (c : κ) :
    Sound failure good (call answer c) := by
  intro s
  refine ⟨[(c, answer s c)], rfl, fun _ => ?_⟩
  intro u d e v h hf
  cases u with
  | nil =>
    obtain ⟨⟨-, rfl⟩, rfl⟩ : (c = d ∧ answer s c = e) ∧ v = [] := by simpa using h
    exact ⟨rfl, rfl⟩
  | cons x u => simp at h

/-- Guarding the next call by the truth value keeps soundness where the failures with errors
of the good sort count as true. -/
theorem sound_ifNoError {m next : Calls κ ε ε}
    (htruth : ∀ c e, failure c e → good e → truth e = true)
    (hm : Sound failure good m) (hn : Sound failure good next) :
    Sound failure good (ifNoError truth m next) := by
  intro s
  obtain ⟨t₁, h₁, hs₁⟩ := hm s
  cases herr : truth (m s).1 with
  | true =>
    rw [ifNoError_run, if_pos herr]
    exact ⟨t₁, h₁, hs₁⟩
  | false =>
    obtain ⟨t₂, h₂, hs₂⟩ := hn (s ++ t₁)
    rw [ifNoError_run, if_neg (by simp [herr]), h₁]
    refine ⟨t₁ ++ t₂, by rw [h₂, List.append_assoc], fun hgood => ?_⟩
    have hgood₁ : ∀ x ∈ t₁, good x.2 := fun x hx => hgood x (List.mem_append_left _ hx)
    have hgood₂ : ∀ x ∈ t₂, good x.2 := fun x hx => hgood x (List.mem_append_right _ hx)
    have hno := no_failure_of_stops (hs₁ hgood₁) hgood₁ htruth herr
    exact stops_append hno (hs₂ hgood₂)

/-- An error that is handled on purpose may be followed by further calls. -/
theorem sound_ifHandled {answer : Trace κ ε → κ → ε} {c : κ} {next : Calls κ ε ε}
    (hhandled : ∀ e, handled e = true → ¬failure c e) (hn : Sound failure good next) :
    Sound failure good (ifHandled handled (call answer c) next) := by
  intro s
  cases he : handled (answer s c) with
  | false =>
    rw [ifHandled_run, if_neg (by simp [call, he])]
    exact sound_call answer c s
  | true =>
    obtain ⟨t₂, h₂, hs₂⟩ := hn (s ++ [(c, answer s c)])
    rw [ifHandled_run, if_pos (by simpa [call] using he)]
    refine ⟨(c, answer s c) :: t₂, h₂.trans (List.append_assoc _ _ _), fun hgood => ?_⟩
    have hno : ∀ x ∈ [(c, answer s c)], ¬failure x.1 x.2 := by
      intro x hx
      obtain rfl := List.mem_singleton.mp hx
      exact hhandled _ he
    exact stops_append hno (hs₂ fun x hx => hgood x (List.mem_cons_of_mem _ hx))

/-- A program that reports its error only where that is true stops at the first failure
exactly when all its calls are answered with errors of the good sort. -/
theorem stops_iff {m : Calls κ ε ε} (ok : ε) (hm : Sound failure good m)
    (htruth : ∀ c e, failure c e → good e → truth e = true)
    (hbad : ∀ c e, ¬good e → failure c e) (hgood : ∀ e, truth e = true → good e)
    (hok : good ok) :
    Stops failure (m []).2 (if truth (m []).1 then (m []).1 else ok) ↔
      ∀ x ∈ (m []).2, good x.2 := by
  obtain ⟨t, ht, hs⟩ := hm []
  rw [List.nil_append] at ht
  rw [ht]
  constructor
  · intro h x hx
    by_contra hb
    obtain ⟨u, v, rfl⟩ := List.append_of_mem hx
    obtain ⟨-, he⟩ := h u x.1 x.2 v rfl (hbad x.1 x.2 hb)
    rw [← he] at hb
    by_cases herr : truth (m []).1 = true
    · rw [if_pos herr] at hb
      exact hb (hgood _ herr)
    · rw [if_neg herr] at hb
      exact hb hok
  · intro hall u c e v huv hf
    obtain ⟨hv, he⟩ := hs hall u c e v huv hf
    have hx : (c, e) ∈ t := by simp [huv]
    have herr := htruth c e hf (hall _ hx)
    rw [← he] at herr
    rw [if_pos herr]
    exact ⟨hv, he⟩

end QGpgME.CallTrace
