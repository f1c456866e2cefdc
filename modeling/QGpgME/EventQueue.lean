import Mathlib.Data.List.Basic

/-! The queue of an event loop: an event waits behind all that were posted before it, and what
waits for a receiver that goes away is dropped. Independent of receivers and events. -/
namespace QGpgME.EventQueue
variable {ι α β : Type*} [DecidableEq ι]

/-- What waits for one receiver. -/
def pending (i : ι) (q : List (ι × α)) : List α := (q.filter fun p => p.1 = i).map Prod.snd

def post (i : ι) (events : List α) (q : List (ι × α)) : List (ι × α) :=
  q ++ events.map fun a => (i, a)

def drop (i : ι) (q : List (ι × α)) : List (ι × α) := q.filter fun p => p.1 ≠ i

@[simp] theorem pending_nil (i : ι) : pending i ([] : List (ι × α)) = [] := rfl

@[simp] theorem pending_cons_self (i : ι) (a : α) (q : List (ι × α)) :
    pending i ((i, a) :: q) = a :: pending i q := by
  simp [pending]

theorem pending_cons_of_ne {i j : ι} (h : j ≠ i) (a : α) (q : List (ι × α)) :
    pending i ((j, a) :: q) = pending i q := by
  simp [pending, h]

theorem pending_append (i : ι) (q p : List (ι × α)) :
    pending i (q ++ p) = pending i q ++ pending i p := by
  simp [pending]

@[simp] theorem pending_post_self (i : ι) (events : List α) (q : List (ι × α)) :
    pending i (post i events q) = pending i q ++ events := by
  rw [post, pending_append]
  induction events with
  | nil => simp
  | cons a events ih => simp_all [pending]

theorem pending_post_of_ne {i j : ι} (h : j ≠ i) (events : List α) (q : List (ι × α)) :
    pending i (post j events q) = pending i q := by
  rw [post, pending_append]
  induction events with
  | nil => simp
  | cons a events ih => simp_all [pending]

@[simp] theorem pending_drop_self (i : ι) (q : List (ι × α)) : pending i (drop i q) = [] := by
  induction q with
  | nil => rfl
  | cons p q ih => by_cases h : p.1 = i <;> simp_all [pending, drop]

theorem pending_drop_of_ne {i j : ι} (h : j ≠ i) (q : List (ι × α)) :
    pending i (drop j q) = pending i q := by
  induction q with
  | nil => rfl
  | cons p q ih =>
    by_cases hj : p.1 = j
    · have hi : p.1 ≠ i := by rwa [hj]
      simp_all [pending, drop]
    · by_cases hi : p.1 = i <;> simp_all [pending, drop]

theorem mem_pending {i : ι} {a : α} {q : List (ι × α)} : a ∈ pending i q ↔ (i, a) ∈ q := by
  simp [pending]

omit [DecidableEq ι] in
theorem mem_post {i j : ι} {a : α} {events : List α} {q : List (ι × α)} :
    (i, a) ∈ post j events q ↔ (i, a) ∈ q ∨ i = j ∧ a ∈ events := by
  simp only [post, List.mem_append, List.mem_map, Prod.mk.injEq]
  constructor
  · rintro (h | ⟨b, hb, rfl, rfl⟩)
    · exact Or.inl h
    · exact Or.inr ⟨rfl, hb⟩
  · rintro (h | ⟨rfl, h⟩)
    · exact Or.inl h
    · exact Or.inr ⟨a, h, rfl, rfl⟩

theorem mem_drop {i : ι} {p : ι × α} {q : List (ι × α)} : p ∈ drop i q ↔ p ∈ q ∧ p.1 ≠ i := by
  simp [drop]

/-- How much work waits, where an event costs what `f` tells. -/
def load (f : α → Nat) : List (ι × α) → Nat
  | [] => 0
  | p :: q => f p.2 + load f q

omit [DecidableEq ι] in
theorem load_cons (f : α → Nat) (p : ι × α) (q : List (ι × α)) :
    load f (p :: q) = f p.2 + load f q := rfl

omit [DecidableEq ι] in
theorem load_append (f : α → Nat) (q p : List (ι × α)) :
    load f (q ++ p) = load f q + load f p := by
  induction q with
  | nil => simp [load]
  | cons a q ih =>
    rw [List.cons_append, load_cons, load_cons, ih]
    omega

theorem load_drop_le (f : α → Nat) (i : ι) (q : List (ι × α)) : load f (drop i q) ≤ load f q := by
  induction q with
  | nil => exact Nat.le_refl _
  | cons p q ih =>
    rw [load_cons]
    by_cases h : p.1 = i
    · have hd : drop i (p :: q) = drop i q := by simp [drop, h]
      rw [hd]
      omega
    · have hd : drop i (p :: q) = p :: drop i q := by simp [drop, h]
      rw [hd, load_cons]
      omega

end QGpgME.EventQueue
