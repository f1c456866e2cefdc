import Mathlib.Data.List.Basic

/-! Lists split at a separator. Independent of what the lists are about. -/
namespace QGpgME.Separators
variable {α : Type*} [DecidableEq α] {a : α}

theorem not_mem_of_mem_splitOn {s piece : List α} (h : piece ∈ s.splitOn a) : a ∉ piece := by
  induction s generalizing piece with
  | nil => simp_all
  | cons x s ih =>
    rw [List.splitOn_cons_eq_if_modifyHead] at h
    split at h
    · cases List.mem_cons.mp h with
      | inl hempty => simp [hempty]
      | inr hlater => exact ih hlater
    · next hx =>
      obtain ⟨first, rest, hsplit⟩ := List.exists_cons_of_ne_nil (List.splitOn_ne_nil a s)
      rw [hsplit, List.modifyHead_cons] at h
      cases List.mem_cons.mp h with
      | inl hfirst =>
        have hnot : a ∉ first := ih (by simp [hsplit])
        have hne : a ≠ x := fun heq => hx (by simp [heq])
        simp [hfirst, hne, hnot]
      | inr hlater => exact ih (by simp [hsplit, hlater])

/-- Lines that are ended one by one, with one behind them. -/
theorem splitOn_ended {lines : List (List α)} {last : List α} (h : ∀ line ∈ lines, a ∉ line)
    (hlast : a ∉ last) :
    (lines.flatMap (fun line => line ++ [a]) ++ last).splitOn a = lines ++ [last] := by
  induction lines with
  | nil => simpa using List.splitOn_eq_singleton hlast
  | cons line lines ih =>
    obtain ⟨hline, hlines⟩ := List.forall_mem_cons.mp h
    rw [List.flatMap_cons, List.append_assoc, List.append_assoc, List.singleton_append,
      List.splitOn_append_cons_self_of_not_mem hline, ih hlines, List.cons_append]

/-- There is one piece more than there are separators. -/
theorem length_splitOn (s : List α) (a : α) : (s.splitOn a).length = s.count a + 1 := by
  induction s with
  | nil => rfl
  | cons x s ih =>
    rw [List.splitOn_cons_eq_if_modifyHead, List.count_cons]
    split
    · rw [List.length_cons, ih]
    · rw [List.length_modifyHead, ih]

section marks
omit [DecidableEq α]

/-- Two lists with a separator agree up to the first one and behind it. -/
theorem append_cons_inj {x y s t : List α} (hx : a ∉ x) (hy : a ∉ y)
    (h : x ++ a :: s = y ++ a :: t) : x = y ∧ s = t := by
  induction x generalizing y with
  | nil =>
    cases y with
    | nil => exact ⟨rfl, List.tail_eq_of_cons_eq h⟩
    | cons c y => exact absurd (List.head_eq_of_cons_eq h ▸ List.mem_cons_self) hy
  | cons b x ih =>
    cases y with
    | nil => exact absurd (List.head_eq_of_cons_eq h ▸ List.mem_cons_self) hx
    | cons c y =>
      obtain ⟨hxy, hst⟩ := ih (List.not_mem_of_not_mem_cons hx) (List.not_mem_of_not_mem_cons hy)
        (List.tail_eq_of_cons_eq h)
      exact ⟨by rw [List.head_eq_of_cons_eq h, hxy], hst⟩

theorem mem_intercalate {c : α} {tokens : List (List α)} (h : c ∈ [a].intercalate tokens) :
    c = a ∨ ∃ token ∈ tokens, c ∈ token := by
  induction tokens with
  | nil => simp at h
  | cons token tokens ih =>
    by_cases hnil : tokens = []
    · exact Or.inr ⟨token, List.mem_cons_self, by simpa [hnil] using h⟩
    · rw [List.intercalate_cons_of_ne_nil hnil, List.mem_append, List.mem_append,
        List.mem_singleton] at h
      obtain (h | h) | h := h
      · exact Or.inr ⟨token, List.mem_cons_self, h⟩
      · exact Or.inl h
      · obtain heq | ⟨later, hmem, hc⟩ := ih h
        · exact Or.inl heq
        · exact Or.inr ⟨later, List.mem_cons_of_mem _ hmem, hc⟩

theorem intercalate_marked_nil (mark rest : List α) :
    [a].intercalate ([] ++ [mark, rest]) = mark ++ a :: rest := by
  rw [List.nil_append, List.intercalate_cons_cons, List.intercalate_singleton, List.append_assoc,
    List.singleton_append]

theorem intercalate_marked_cons (token mark rest : List α) (tokens : List (List α)) :
    [a].intercalate (token :: tokens ++ [mark, rest]) =
      token ++ a :: [a].intercalate (tokens ++ [mark, rest]) := by
  rw [List.cons_append, List.intercalate_cons_of_ne_nil (by simp), List.append_assoc,
    List.singleton_append]

/-- What stands behind the first token that is the mark may hold separators. -/
theorem intercalate_marked_inj {mark rest rest' : List α} {tokens tokens' : List (List α)}
    (hmark : a ∉ mark) (h : ∀ token ∈ tokens, a ∉ token ∧ token ≠ mark)
    (h' : ∀ token ∈ tokens', a ∉ token ∧ token ≠ mark)
    (heq : [a].intercalate (tokens ++ [mark, rest]) = [a].intercalate (tokens' ++ [mark, rest'])) :
    tokens = tokens' ∧ rest = rest' := by
  induction tokens generalizing tokens' with
  | nil =>
    cases tokens' with
    | nil =>
      rw [intercalate_marked_nil, intercalate_marked_nil] at heq
      exact ⟨rfl, (append_cons_inj hmark hmark heq).2⟩
    | cons token' tokens' =>
      obtain ⟨hnot', hne'⟩ := h' token' List.mem_cons_self
      rw [intercalate_marked_nil, intercalate_marked_cons] at heq
      exact absurd (append_cons_inj hmark hnot' heq).1.symm hne'
  | cons token tokens ih =>
    obtain ⟨⟨hnot, hne⟩, htokens⟩ := List.forall_mem_cons.mp h
    cases tokens' with
    | nil =>
      rw [intercalate_marked_nil, intercalate_marked_cons] at heq
      exact absurd (append_cons_inj hnot hmark heq).1 hne
    | cons token' tokens' =>
      obtain ⟨⟨hnot', -⟩, htokens'⟩ := List.forall_mem_cons.mp h'
      rw [intercalate_marked_cons, intercalate_marked_cons] at heq
      obtain ⟨htoken, hbehind⟩ := append_cons_inj hnot hnot' heq
      obtain ⟨ht, hrest⟩ := ih htokens htokens' hbehind
      exact ⟨by rw [htoken, ht], hrest⟩

end marks

end QGpgME.Separators
