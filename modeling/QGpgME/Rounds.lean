import Mathlib.Data.Nat.Basic

/-! A loop whose body either returns or goes on from another point: what it does in at most so
many rounds, when it comes to an end, and when it never does. -/
namespace QGpgME.Rounds
variable {α β : Type*}

inductive Outcome (β α : Type*) where
  | returned (answer : β)
  | again (point : α)
deriving DecidableEq

/-- The outcome `again` of several rounds says that they were not enough. -/
def rounds (body : α → Outcome β α) : Nat → α → Outcome β α
  | 0, x => .again x
  | n + 1, x =>
    match body x with
    | .returned b => .returned b
    | .again y => rounds body n y

/-- The points at which the rounds begin. -/
def points (body : α → Outcome β α) : Nat → α → List α
  | 0, _ => []
  | n + 1, x =>
    match body x with
    | .returned _ => [x]
    | .again y => x :: points body n y

def Returns (body : α → Outcome β α) (x : α) (b : β) : Prop :=
  ∃ n, rounds body n x = .returned b

variable {body : α → Outcome β α} {x y : α} {b : β}

theorem rounds_returned (h : body x = .returned b) (n : Nat) :
    rounds body (n + 1) x = .returned b := by
  simp only [rounds, h]

theorem rounds_again (h : body x = .again y) (n : Nat) :
    rounds body (n + 1) x = rounds body n y := by
  simp only [rounds, h]

theorem points_returned (h : body x = .returned b) (n : Nat) : points body (n + 1) x = [x] := by
  simp only [points, h]

theorem points_again (h : body x = .again y) (n : Nat) :
    points body (n + 1) x = x :: points body n y := by
  simp only [points, h]

theorem mem_points_first (n : Nat) : x ∈ points body (n + 1) x := by
  cases h : body x with
  | returned b =>
    rw [points_returned h]
    exact List.mem_singleton_self x
  | again y =>
    rw [points_again h]
    exact List.mem_cons_self

/-- More rounds change nothing about a loop that has returned. -/
theorem rounds_add {n : Nat} (h : rounds body n x = .returned b) (m : Nat) :
    rounds body (n + m) x = .returned b := by
  induction n generalizing x with
  | zero => cases h
  | succ n ih =>
    rw [Nat.succ_add]
    cases hx : body x with
    | returned b' =>
      rw [rounds_returned hx] at h ⊢
      exact h
    | again y =>
      rw [rounds_again hx] at h ⊢
      exact ih h

theorem Returns.unique {b' : β} (h : Returns body x b) (h' : Returns body x b') : b = b' := by
  obtain ⟨n, hn⟩ := h
  obtain ⟨m, hm⟩ := h'
  have hsum := rounds_add hm n
  rw [Nat.add_comm, rounds_add hn m] at hsum
  exact Outcome.returned.inj hsum

/-- The rule for loops that return: a body that either returns what is wanted of its point, or
goes on to a smaller one of which enough is wanted. -/
theorem returns_of_measure {I : α → Prop} {P : α → β → Prop} (measure : α → Nat)
    (step : ∀ x, I x → (∃ b, body x = .returned b ∧ P x b) ∨
      ∃ y, body x = .again y ∧ measure y < measure x ∧ I y ∧ ∀ b, P y b → P x b)
    {n : Nat} (hn : measure x < n) (hx : I x) : ∃ b, rounds body n x = .returned b ∧ P x b := by
  induction n generalizing x with
  | zero => exact absurd hn (Nat.not_lt_zero _)
  | succ n ih =>
    cases step x hx with
    | inl hreturned =>
      obtain ⟨b, hbody, hb⟩ := hreturned
      exact ⟨b, rounds_returned hbody n, hb⟩
    | inr hagain =>
      obtain ⟨y, hbody, hless, hy, hmap⟩ := hagain
      obtain ⟨b, hb, hP⟩ := ih (by omega) hy
      exact ⟨b, (rounds_again hbody n).trans hb, hmap b hP⟩

/-- The rule for loops that never return. -/
theorem rounds_endless {I : α → Prop} (step : ∀ x, I x → ∃ y, body x = .again y ∧ I y) (n : Nat)
    (hx : I x) : ∃ y, rounds body n x = .again y ∧ I y := by
  induction n generalizing x with
  | zero => exact ⟨x, rfl, hx⟩
  | succ n ih =>
    obtain ⟨y, hbody, hy⟩ := step x hx
    rw [rounds_again hbody]
    exact ih hy

theorem not_returns {I : α → Prop} (step : ∀ x, I x → ∃ y, body x = .again y ∧ I y) (hx : I x) :
    ¬Returns body x b := by
  intro h
  obtain ⟨n, hn⟩ := h
  obtain ⟨y, hy, -⟩ := rounds_endless step n hx
  rw [hn] at hy
  cases hy

/-- What each round hands on to the next one holds at the beginning of all. -/
theorem forall_mem_points {I : α → Prop} (step : ∀ x y, I x → body x = .again y → I y) (n : Nat)
    (hx : I x) : ∀ p ∈ points body n x, I p := by
  induction n generalizing x with
  | zero =>
    intro p hp
    cases hp
  | succ n ih =>
    cases hbody : body x with
    | returned b =>
      rw [points_returned hbody]
      exact List.forall_mem_singleton.mpr hx
    | again y =>
      rw [points_again hbody]
      exact List.forall_mem_cons.mpr ⟨hx, ih (step x y hx hbody)⟩

end QGpgME.Rounds
