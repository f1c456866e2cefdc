import Mathlib.Data.List.Pairwise
import Mathlib.Order.Lattice

/-! Runs of adjacent elements that belong together, each joined to one element from left to
right. In a list sorted by a key that the joining keeps, these are all elements of a key. -/
namespace QGpgME.AdjacentRuns
variable {α β : Type*}

/-- `d` is what has been joined of the current run. -/
def collapseFrom (same : α → α → Bool) (join : α → α → α) (d : α) : List α → List α
  | [] => [d]
  | x :: l =>
    if same d x then collapseFrom same join (join d x) l
    else d :: collapseFrom same join x l

def collapse (same : α → α → Bool) (join : α → α → α) : List α → List α
  | [] => []
  | x :: l => collapseFrom same join x l

/-- The elements of a list joined from left to right. -/
def joined (join : α → α → α) : List α → Option α
  | [] => none
  | x :: l => some (l.foldl join x)

/-- Elements that do not belong together stay as they are. -/
theorem collapseFrom_cons_of_not {same : α → α → Bool} {join : α → α → α} {d x : α}
    (h : same d x = false) (l : List α) :
    collapseFrom same join d (x :: l) = d :: collapseFrom same join x l := by
  rw [collapseFrom, h, if_neg Bool.false_ne_true]

theorem collapseFrom_cons {same : α → α → Bool} {join : α → α → α} {d x : α}
    (h : same d x = true) (l : List α) :
    collapseFrom same join d (x :: l) = collapseFrom same join (join d x) l := by
  rw [collapseFrom, if_pos h]

section keyed
variable [LinearOrder β] {f : α → β} {join : α → α → α}

/-- Sorted by a key, with no order among the elements of one key. -/
def SortedBy (f : α → β) (l : List α) : Prop := l.Pairwise fun a b => f a ≤ f b

/-- The elements that have the same key. -/
def SameKey (f : α → β) (a b : α) : Bool := f a = f b

theorem SortedBy.cons_join {d x : α} {l : List α} (hjoin : ∀ a b, f (join a b) = f a)
    (h : SortedBy f (d :: x :: l)) : SortedBy f (join d x :: l) := by
  obtain ⟨hd, hl⟩ := List.pairwise_cons.mp h
  refine List.pairwise_cons.mpr ⟨fun b hb => ?_, (List.pairwise_cons.mp hl).2⟩
  rw [hjoin]
  exact hd b (List.mem_cons_of_mem x hb)

/-- Behind an element of another key all keys are greater. -/
theorem SortedBy.lt {d x : α} {l : List α} (h : SortedBy f (d :: x :: l)) (hne : f d ≠ f x) :
    ∀ b ∈ x :: l, f d < f b := by
  obtain ⟨hd, hl⟩ := List.pairwise_cons.mp h
  have hx : f d < f x := lt_of_le_of_ne (hd x List.mem_cons_self) hne
  intro b hb
  cases List.mem_cons.mp hb with
  | inl heq =>
    rw [heq]
    exact hx
  | inr hb => exact lt_of_lt_of_le hx ((List.pairwise_cons.mp hl).1 b hb)

/-- No key is lost and none is new. -/
theorem mem_map_collapseFrom (hjoin : ∀ a b, f (join a b) = f a) (d : α) (l : List α) (b : β) :
    b ∈ (collapseFrom (SameKey f) join d l).map f ↔ b ∈ (d :: l).map f := by
  induction l generalizing d with
  | nil => exact Iff.rfl
  | cons x l ih =>
    by_cases hsame : f d = f x
    · rw [collapseFrom_cons (decide_eq_true hsame), ih]
      simp [hjoin, hsame]
    · rw [collapseFrom_cons_of_not (decide_eq_false hsame), List.map_cons, List.mem_cons, ih]
      exact List.mem_cons.symm

theorem map_collapseFrom_lt (hjoin : ∀ a b, f (join a b) = f a) {d : α} {l : List α}
    (h : SortedBy f (d :: l)) : ((collapseFrom (SameKey f) join d l).map f).Pairwise (· < ·) := by
  induction l generalizing d with
  | nil => exact List.pairwise_singleton _ _
  | cons x l ih =>
    by_cases hsame : f d = f x
    · rw [collapseFrom_cons (decide_eq_true hsame)]
      exact ih (h.cons_join hjoin)
    · rw [collapseFrom_cons_of_not (decide_eq_false hsame), List.map_cons]
      refine List.pairwise_cons.mpr ⟨fun b hb => ?_, ih (List.pairwise_cons.mp h).2⟩
      rw [mem_map_collapseFrom hjoin] at hb
      obtain ⟨a, ha, rfl⟩ := List.mem_map.mp hb
      exact h.lt hsame a ha

/-- Each element is made of all the elements of its key. -/
theorem joined_collapseFrom (hjoin : ∀ a b, f (join a b) = f a) {d : α} {l : List α}
    (h : SortedBy f (d :: l)) {k : α} (hk : k ∈ collapseFrom (SameKey f) join d l) :
    joined join ((d :: l).filter fun a => f a = f k) = some k := by
  induction l generalizing d with
  | nil =>
    rw [List.mem_singleton.mp hk, List.filter_cons, decide_eq_true rfl]
    rfl
  | cons x l ih =>
    by_cases hsame : f d = f x
    · rw [collapseFrom_cons (decide_eq_true hsame)] at hk
      have hjoined := ih (h.cons_join hjoin) hk
      by_cases hd : f d = f k
      · have hx : f x = f k := hsame.symm.trans hd
        simp only [List.filter_cons, hjoin, hd, hx, decide_true, if_true] at hjoined ⊢
        exact hjoined
      · have hx : ¬f x = f k := fun heq => hd (hsame.trans heq)
        simp only [List.filter_cons, hjoin, hd, hx, decide_false, Bool.false_eq_true,
          if_false] at hjoined ⊢
        exact hjoined
    · rw [collapseFrom_cons_of_not (decide_eq_false hsame)] at hk
      have hlt := h.lt hsame
      cases List.mem_cons.mp hk with
      | inl heq =>
        have hnone : (x :: l).filter (fun a => f a = f k) = [] := by
          rw [List.filter_eq_nil_iff]
          intro a ha
          rw [heq, decide_eq_true_eq]
          exact (hlt a ha).ne'
        rw [List.filter_cons, hnone, heq, decide_eq_true rfl]
        rfl
      | inr hk =>
        have hkey : f k ∈ (x :: l).map f :=
          (mem_map_collapseFrom hjoin x l (f k)).mp (List.mem_map_of_mem hk)
        obtain ⟨a, ha, hak⟩ := List.mem_map.mp hkey
        have hd : ¬f d = f k := by
          rw [← hak]
          exact (hlt a ha).ne
        rw [List.filter_cons, decide_eq_false hd]
        exact ih (List.pairwise_cons.mp h).2 hk

/-- A sorted list collapses to one element for each key, made of all elements of this key. -/
theorem collapse_sorted (hjoin : ∀ a b, f (join a b) = f a) {l : List α} (h : SortedBy f l) :
    ((collapse (SameKey f) join l).map f).Pairwise (· < ·) ∧
      (∀ b, b ∈ (collapse (SameKey f) join l).map f ↔ b ∈ l.map f) ∧
      ∀ k ∈ collapse (SameKey f) join l,
        joined join (l.filter fun a => f a = f k) = some k := by
  cases l with
  | nil => simp [collapse]
  | cons x l =>
    exact ⟨map_collapseFrom_lt hjoin h, mem_map_collapseFrom hjoin x l,
      fun k hk => joined_collapseFrom hjoin h hk⟩

end keyed

section merging
variable [LinearOrder β] {f : α → β}

/-- A merge of sorted lists keeps the elements of a key in order, those of the first list in
front. -/
theorem filter_merge {xs : List α} (h : SortedBy f xs) (ys : List α) (b : β) :
    (xs.merge ys fun x y => !decide (f y < f x)).filter (fun a => f a = b) =
      xs.filter (fun a => f a = b) ++ ys.filter fun a => f a = b := by
  induction xs generalizing ys with
  | nil => rw [List.nil_merge, List.filter_nil, List.nil_append]
  | cons x xs ihx =>
    obtain ⟨hx, hxs⟩ := List.pairwise_cons.mp h
    induction ys with
    | nil => rw [List.merge_right, List.filter_nil, List.append_nil]
    | cons y ys ihy =>
      rw [List.cons_merge_cons]
      by_cases hless : f y < f x
      · -- what is left of the first list has greater keys
        rw [decide_eq_true hless, Bool.not_true, if_neg Bool.false_ne_true, List.filter_cons, ihy,
          List.filter_cons (x := y)]
        by_cases hy : f y = b
        · have hnone : (x :: xs).filter (fun a => f a = b) = [] := by
            rw [List.filter_eq_nil_iff]
            intro a ha
            have hle : f x ≤ f a := by
              cases List.mem_cons.mp ha with
              | inl heq => rw [heq]
              | inr ha => exact hx a ha
            rw [decide_eq_true_eq, ← hy]
            exact (lt_of_lt_of_le hless hle).ne'
          rw [hnone, List.nil_append, List.nil_append]
        · rw [decide_eq_false hy, if_neg Bool.false_ne_true, if_neg Bool.false_ne_true]
      · rw [decide_eq_false hless, Bool.not_false, if_pos rfl, List.filter_cons, ihx hxs,
          List.filter_cons (x := x)]
        by_cases hb : f x = b
        · rw [decide_eq_true hb, if_pos rfl, if_pos rfl, List.cons_append]
        · rw [decide_eq_false hb, if_neg Bool.false_ne_true, if_neg Bool.false_ne_true]

theorem sortedBy_merge {xs ys : List α} (hxs : SortedBy f xs) (hys : SortedBy f ys) :
    SortedBy f (xs.merge ys fun x y => !decide (f y < f x)) := by
  have hle : ∀ a b, (!decide (f b < f a)) = true ↔ f a ≤ f b := by
    intro a b
    simp
  have htrans : ∀ a b c, (!decide (f b < f a)) = true → (!decide (f c < f b)) = true →
      (!decide (f c < f a)) = true := by
    intro a b c hab hbc
    exact (hle a c).mpr (((hle a b).mp hab).trans ((hle b c).mp hbc))
  have htotal : ∀ a b, (!decide (f b < f a) || !decide (f a < f b)) = true := by
    intro a b
    rw [Bool.or_eq_true, hle, hle]
    exact le_total (f a) (f b)
  have hmerged := List.pairwise_merge htrans htotal xs ys (hxs.imp fun hab => (hle _ _).mpr hab)
    (hys.imp fun hab => (hle _ _).mpr hab)
  exact hmerged.imp fun hab => (hle _ _).mp hab

end merging

end QGpgME.AdjacentRuns
