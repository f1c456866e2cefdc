import Mathlib.Data.List.AList
import Mathlib.Data.List.Nodup

/-! Hash tables filled with values under keys of their own, and searches through all of a
table in whatever order it is iterated. -/
namespace QGpgME

abbrev HashTable (α β : Type*) := AList fun _ : α => β

/-- In which order the entries of a table come when it is iterated. -/
structure Iteration (α β : Type*) where
  order : HashTable α β → List ((_ : α) × β)
  perm : ∀ t, (order t).Perm t.entries

namespace HashTable
variable {α β γ : Type*} [DecidableEq α] {key : β → α}

/-- Each value goes under its key, where it replaces an earlier one. -/
def insertAll (key : β → α) (values : List β) (t : HashTable α β) : HashTable α β :=
  values.foldl (fun t b => t.insert (key b) b) t

theorem lookup_insertAll_of_not_mem {values : List β} {a : α} (h : a ∉ values.map key)
    (t : HashTable α β) : (insertAll key values t).lookup a = t.lookup a := by
  induction values generalizing t with
  | nil => rfl
  | cons b values ih =>
    rw [List.map_cons, List.mem_cons, not_or] at h
    rw [insertAll, List.foldl_cons, ← insertAll, ih h.2, AList.lookup_insert_ne h.1]

theorem lookup_insertAll_of_mem {values : List β} (h : (values.map key).Nodup) {b : β}
    (hb : b ∈ values) (t : HashTable α β) :
    (insertAll key values t).lookup (key b) = some b := by
  induction values generalizing t with
  | nil => simp at hb
  | cons c values ih =>
    rw [List.map_cons, List.nodup_cons] at h
    rw [insertAll, List.foldl_cons, ← insertAll]
    cases List.mem_cons.mp hb with
    | inl hbc =>
      obtain rfl := hbc
      rw [lookup_insertAll_of_not_mem h.1, AList.lookup_insert]
    | inr hmem => exact ih h.2 hmem _

/-- What is found in a table that has been filled: what has been put there, by its key. -/
theorem lookup_insertAll {values : List β} (h : (values.map key).Nodup) {a : α} {b : β} :
    (insertAll key values ∅).lookup a = some b ↔ b ∈ values ∧ key b = a := by
  constructor
  · intro hlookup
    by_cases ha : a ∈ values.map key
    · obtain ⟨c, hc, rfl⟩ := List.mem_map.mp ha
      rw [lookup_insertAll_of_mem h hc] at hlookup
      obtain rfl := Option.some.inj hlookup
      exact ⟨hc, rfl⟩
    · rw [lookup_insertAll_of_not_mem ha, AList.lookup_empty] at hlookup
      exact absurd hlookup (by simp)
  · intro hmem
    obtain ⟨hb, rfl⟩ := hmem
    exact lookup_insertAll_of_mem h hb ∅

theorem mem_order {iteration : Iteration α β} {t : HashTable α β} {a : α} {b : β} :
    (⟨a, b⟩ : (_ : α) × β) ∈ iteration.order t ↔ t.lookup a = some b := by
  rw [(iteration.perm t).mem_iff, ← AList.mem_lookup_iff, Option.mem_def]

/-- Of answers of which only one is different, a search finds that one. -/
theorem findSome_unique {l : List β} {f : β → Option γ} {c : γ} (hmem : ∃ b ∈ l, f b = some c)
    (huniq : ∀ b ∈ l, ∀ d, f b = some d → d = c) : l.findSome? f = some c := by
  obtain ⟨b, hb, hfb⟩ := hmem
  have hsome : (l.findSome? f).isSome :=
    List.findSome?_isSome_iff.mpr ⟨b, hb, by rw [hfb]; rfl⟩
  obtain ⟨d, hd⟩ := Option.isSome_iff_exists.mp hsome
  obtain ⟨e, he, hfe⟩ := List.exists_of_findSome?_eq_some hd
  rw [hd, huniq e he d hfe]

end HashTable

end QGpgME
