import Mathlib.Algebra.GroupWithZero.Nat
import Mathlib.Data.List.Basic

/-! A text cut into pieces of given sizes, as one gets it from reads of these sizes. -/
namespace QGpgME

/-- A text cut into pieces of given sizes, the later ones shorter or empty where it ends. -/
def pieces {α : Type*} : List α → List Nat → List (List α)
  | _, [] => []
  | text, n :: sizes => text.take n :: pieces (text.drop n) sizes

section pieces
variable {α : Type*}

@[simp] theorem length_pieces (text : List α) (sizes : List Nat) :
    (pieces text sizes).length = sizes.length := by
  induction sizes generalizing text with
  | nil => rfl
  | cons n sizes ih => simp [pieces, ih]

/-- No element is lost between two pieces, and none comes twice. -/
theorem flatten_pieces (text : List α) (sizes : List Nat) :
    (pieces text sizes).flatten = text.take sizes.sum := by
  induction sizes generalizing text with
  | nil => simp [pieces]
  | cons n sizes ih => rw [pieces, List.flatten_cons, ih, List.sum_cons, List.take_add]

theorem take_pieces (text : List α) (sizes : List Nat) (k : Nat) :
    (pieces text sizes).take k = pieces text (sizes.take k) := by
  induction sizes generalizing text k with
  | nil => simp [pieces]
  | cons n sizes ih =>
    cases k with
    | zero => simp [pieces]
    | succ k => simp [pieces, ih]

theorem drop_pieces (text : List α) (sizes : List Nat) (k : Nat) :
    (pieces text sizes).drop k = pieces (text.drop (sizes.take k).sum) (sizes.drop k) := by
  induction sizes generalizing text k with
  | nil => simp [pieces]
  | cons n sizes ih =>
    cases k with
    | zero => simp [pieces]
    | succ k => simp [pieces, ih, List.drop_drop]

theorem pieces_nil {sizes : List Nat} {piece : List α} (h : piece ∈ pieces [] sizes) :
    piece = [] := by
  induction sizes with
  | nil => simp [pieces] at h
  | cons n sizes ih =>
    simp only [pieces, List.take_nil, List.drop_nil, List.mem_cons] at h
    cases h with
    | inl h => exact h
    | inr h => exact ih h

/-- An empty piece of positive size stands at the end of the text. -/
theorem flatten_of_piece_nil {text : List α} {sizes : List Nat} {i n : Nat} (hn : 0 < n)
    (hsize : getElem? sizes i = some n) (hpiece : getElem? (pieces text sizes) i = some []) :
    (pieces text (sizes.take i)).flatten = text := by
  induction i generalizing text sizes with
  | zero =>
    cases sizes with
    | nil => simp at hsize
    | cons m sizes =>
      obtain rfl : m = n := by simpa using hsize
      have hnil : text.take m = [] := by simpa [pieces] using hpiece
      cases List.take_eq_nil_iff.mp hnil with
      | inl hzero => omega
      | inr htext => simp [pieces, htext]
  | succ i ih =>
    cases sizes with
    | nil => simp at hsize
    | cons m sizes =>
      have hrest := ih (by simpa using hsize) (by simpa [pieces] using hpiece)
      rw [List.take_succ_cons, pieces, List.flatten_cons, hrest, List.take_append_drop]

/-- Parts that each end in a mark, without the last mark. -/
theorem dropLast_flatMap_mark (mark : α) (parts : List (List α)) :
    (parts.flatMap fun part => part ++ [mark]).dropLast = [mark].intercalate parts := by
  induction parts with
  | nil => rfl
  | cons part parts ih =>
    cases parts with
    | nil => simp
    | cons next parts =>
      have hne : ((next :: parts).flatMap fun part => part ++ [mark]) ≠ [] := by simp
      rw [List.flatMap_cons, List.dropLast_append_of_ne_nil hne, ih,
        List.intercalate_cons_cons]

/-- Joined parts that are not empty begin and end with no mark. -/
theorem intercalate_mark_ends {mark : α} {parts : List (List α)} (hne : ∀ part ∈ parts, part ≠ [])
    (hmark : ∀ part ∈ parts, mark ∉ part) :
    mark ∉ ([mark].intercalate parts).head? ∧ mark ∉ ([mark].intercalate parts).getLast? := by
  induction parts with
  | nil => simp
  | cons part parts ih =>
    obtain ⟨hpart, hne⟩ := List.forall_mem_cons.mp hne
    obtain ⟨hnot, hmark⟩ := List.forall_mem_cons.mp hmark
    obtain ⟨-, hlast⟩ := ih hne hmark
    have hhead : mark ∉ part.head? := fun h => hnot (List.mem_of_mem_head? h)
    cases parts with
    | nil =>
      rw [List.intercalate_singleton]
      exact ⟨hhead, fun h => hnot (List.mem_of_mem_getLast? h)⟩
    | cons next parts =>
      have hrest : [mark].intercalate (next :: parts) ≠ [] := by
        have hnext := hne next List.mem_cons_self
        cases parts <;> simp [hnext]
      rw [List.intercalate_cons_cons]
      constructor
      · rw [List.append_assoc, List.head?_append_of_ne_nil _ hpart]
        exact hhead
      · rw [List.getLast?_append_of_ne_nil _ hrest]
        exact hlast

end pieces

end QGpgME
