import Mathlib.Logic.Relation
import Mathlib.Data.List.Basic

/-! Cutting a list into chunks under a size that is halved whenever a chunk is refused.
A cursor is the position already reached and the chunk size in force; no element type
and no reason for a refusal is fixed here. -/
namespace QGpgME.ChunkCursor
variable {α : Type*}

structure Cursor where
  pos : Nat
  size : Nat
deriving DecidableEq

def Cursor.chunk (c : Cursor) (xs : List α) : List α := (xs.drop c.pos).take c.size

/-- An accepted chunk is passed over, a refused one is tried again at half the size. -/
inductive Step (fits : List α → Bool) (xs : List α) : Cursor → Cursor → Prop where
  | accepted {c : Cursor} : fits (c.chunk xs) = true → c.pos + c.size < xs.length →
      Step fits xs c ⟨c.pos + c.size, c.size⟩
  | refused {c : Cursor} : fits (c.chunk xs) = false → 1 ≤ c.size / 2 →
      Step fits xs c ⟨c.pos, c.size / 2⟩

def Reaches (fits : List α → Bool) (xs : List α) : Cursor → Cursor → Prop :=
  Relation.ReflTransGen (Step fits xs)

/-- No refused chunk stands behind an element that `q` cares about. -/
def UndisturbedFrom (fits : List α → Bool) (q : α → Prop) (xs : List α) (c : Cursor) : Prop :=
  ∀ d, Reaches fits xs c d → fits (d.chunk xs) = false → ∀ x ∈ xs.take d.pos, ¬q x

variable {fits : List α → Bool} {xs : List α}

theorem Step.pos_le {c d : Cursor} (h : Step fits xs c d) : c.pos ≤ d.pos := by
  cases h with
  | accepted _ _ => simp
  | refused _ _ => simp

theorem Reaches.pos_le {c d : Cursor} (h : Reaches fits xs c d) : c.pos ≤ d.pos := by
  induction h with
  | refl => exact Nat.le_refl _
  | tail _ hs ih => exact Nat.le_trans ih hs.pos_le

/-- What is reached from an accepted chunk: itself, or something from the next chunk. -/
theorem reaches_of_accepted {c d : Cursor} (hf : fits (c.chunk xs) = true)
    (h : Reaches fits xs c d) :
    d = c ∨ (c.pos + c.size < xs.length ∧ Reaches fits xs ⟨c.pos + c.size, c.size⟩ d) := by
  cases Relation.ReflTransGen.cases_head h with
  | inl heq =>
    obtain rfl := heq
    exact Or.inl rfl
  | inr hnext =>
    obtain ⟨e, he, hd⟩ := hnext
    cases he with
    | accepted _ hlt => exact Or.inr ⟨hlt, hd⟩
    | refused hr _ => simp [hf] at hr

/-- What is reached from a refused chunk: itself, or something at half the size. -/
theorem reaches_of_refused {c d : Cursor} (hf : fits (c.chunk xs) = false)
    (h : Reaches fits xs c d) :
    d = c ∨ (1 ≤ c.size / 2 ∧ Reaches fits xs ⟨c.pos, c.size / 2⟩ d) := by
  cases Relation.ReflTransGen.cases_head h with
  | inl heq =>
    obtain rfl := heq
    exact Or.inl rfl
  | inr hnext =>
    obtain ⟨e, he, hd⟩ := hnext
    cases he with
    | accepted hr _ => simp [hf] at hr
    | refused _ hle => exact Or.inr ⟨hle, hd⟩

/-- `b` is a refused chunk behind which no other refused chunk stands. -/
structure LastRefused (fits : List α → Bool) (xs : List α) (c b : Cursor) : Prop where
  reached : Reaches fits xs c b
  refused : fits (b.chunk xs) = false
  last : ∀ d, Reaches fits xs c d → fits (d.chunk xs) = false → d.pos ≤ b.pos

theorem LastRefused.of_accepted {c b : Cursor} (hf : fits (c.chunk xs) = true)
    (hlt : c.pos + c.size < xs.length) (h : LastRefused fits xs ⟨c.pos + c.size, c.size⟩ b) :
    LastRefused fits xs c b := by
  refine ⟨Relation.ReflTransGen.head (.accepted hf hlt) h.reached, h.refused, ?_⟩
  intro d hd hr
  cases reaches_of_accepted hf hd with
  | inl heq =>
    obtain rfl := heq
    simp [hf] at hr
  | inr hnext =>
    obtain ⟨-, hd'⟩ := hnext
    exact h.last d hd' hr

theorem LastRefused.of_refused {c b : Cursor} (hf : fits (c.chunk xs) = false)
    (hle : 1 ≤ c.size / 2) (h : LastRefused fits xs ⟨c.pos, c.size / 2⟩ b) :
    LastRefused fits xs c b := by
  refine ⟨Relation.ReflTransGen.head (.refused hf hle) h.reached, h.refused, ?_⟩
  intro d hd hr
  cases reaches_of_refused hf hd with
  | inl heq =>
    obtain rfl := heq
    exact h.reached.pos_le
  | inr hnext =>
    obtain ⟨-, hd'⟩ := hnext
    exact h.last d hd' hr

/-- The first refused chunk is the last one when all that follows it is accepted. -/
theorem LastRefused.self {c : Cursor} (hf : fits (c.chunk xs) = false)
    (h : ∀ d, Reaches fits xs ⟨c.pos, c.size / 2⟩ d → fits (d.chunk xs) = true) :
    LastRefused fits xs c c := by
  refine ⟨.refl, hf, ?_⟩
  intro d hd hr
  cases reaches_of_refused hf hd with
  | inl heq =>
    obtain rfl := heq
    exact Nat.le_refl _
  | inr hnext =>
    obtain ⟨-, hd'⟩ := hnext
    simp [h d hd'] at hr

/-- Only the last refused chunk decides whether a refusal disturbs anything. -/
theorem LastRefused.undisturbed_iff {q : α → Prop} {c b : Cursor}
    (h : LastRefused fits xs c b) :
    UndisturbedFrom fits q xs c ↔ ∀ x ∈ xs.take b.pos, ¬q x := by
  constructor
  · intro hu
    exact hu b h.reached h.refused
  · intro hb d hd hr x hx
    have hle := h.last d hd hr
    have hx' : x ∈ (xs.take b.pos).take d.pos := by
      rwa [List.take_take, Nat.min_eq_left hle]
    exact hb x (List.mem_of_mem_take hx')

section collecting
variable {β : Type*} {found : α → List β} {c : Cursor} {before out : List β}

/-- What is collected from a cursor on if every refusal throws away what was found before: all
that is left, behind what was found before, if no chunk is refused any more; else only what is
left at the last refused chunk. -/
def Collected (fits : List α → Bool) (xs : List α) (found : α → List β) (c : Cursor)
    (before out : List β) : Prop :=
  ((∀ d, Reaches fits xs c d → fits (d.chunk xs) = true) ∧
      out = before ++ (xs.drop c.pos).flatMap found) ∨
    ∃ b, LastRefused fits xs c b ∧ out = (xs.drop b.pos).flatMap found

theorem Collected.of_refused (hf : fits (c.chunk xs) = false) (hle : 1 ≤ c.size / 2)
    (h : Collected fits xs found ⟨c.pos, c.size / 2⟩ [] out) :
    Collected fits xs found c before out := by
  cases h with
  | inl hsmooth =>
    obtain ⟨hall, hout⟩ := hsmooth
    exact Or.inr ⟨c, .self hf hall, hout⟩
  | inr hrefused =>
    obtain ⟨b, hb, hout⟩ := hrefused
    exact Or.inr ⟨b, .of_refused hf hle hb, hout⟩

/-- The last chunk is accepted: nothing else is reached. -/
theorem Collected.of_last (hf : fits (c.chunk xs) = true) (hend : xs.length ≤ c.pos + c.size) :
    Collected fits xs found c before (before ++ (c.chunk xs).flatMap found) := by
  refine Or.inl ⟨fun d hd => ?_, ?_⟩
  · obtain rfl | ⟨hlt, -⟩ := reaches_of_accepted hf hd
    · exact hf
    · omega
  · have hlen : (xs.drop c.pos).length ≤ c.size := by
      rw [List.length_drop]
      omega
    rw [Cursor.chunk, List.take_of_length_le hlen]

theorem Collected.of_accepted (hf : fits (c.chunk xs) = true) (hlt : c.pos + c.size < xs.length)
    (h : Collected fits xs found ⟨c.pos + c.size, c.size⟩
      (before ++ (c.chunk xs).flatMap found) out) : Collected fits xs found c before out := by
  cases h with
  | inl hsmooth =>
    obtain ⟨hall, hout⟩ := hsmooth
    refine Or.inl ⟨fun d hd => ?_, ?_⟩
    · obtain rfl | ⟨-, hd'⟩ := reaches_of_accepted hf hd
      · exact hf
      · exact hall d hd'
    · have hsplit : c.chunk xs ++ xs.drop (c.pos + c.size) = xs.drop c.pos := by
        rw [Cursor.chunk, ← List.drop_drop, List.take_append_drop]
      rw [hout, List.append_assoc, ← List.flatMap_append, hsplit]
  | inr hrefused =>
    obtain ⟨b, hb, hout⟩ := hrefused
    exact Or.inr ⟨b, .of_accepted hf hlt hb, hout⟩

/-- Everything is collected just where no chunk is refused behind an element with which
something was found. -/
theorem Collected.complete_iff {size : Nat} (h : Collected fits xs found ⟨0, size⟩ [] out) :
    out = xs.flatMap found ↔ UndisturbedFrom fits (fun x => found x ≠ []) xs ⟨0, size⟩ := by
  cases h with
  | inl hsmooth =>
    obtain ⟨hall, hout⟩ := hsmooth
    refine iff_of_true hout fun d hd hf => ?_
    exact absurd (hall d hd) (by simp [hf])
  | inr hrefused =>
    obtain ⟨b, hb, hout⟩ := hrefused
    have hsplit : xs.flatMap found =
        (xs.take b.pos).flatMap found ++ (xs.drop b.pos).flatMap found := by
      rw [← List.flatMap_append, List.take_append_drop]
    rw [hb.undisturbed_iff, hout, hsplit, List.self_eq_append_left, List.flatMap_eq_nil_iff]
    exact forall₂_congr fun x _ => not_not.symm

end collecting

end QGpgME.ChunkCursor
