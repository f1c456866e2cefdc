import QGpgME.DnHandles

/-! How the attributes of a distinguished name are arranged by an order. -/
namespace QGpgME.DnHandles
open Dn
variable {u : UpperCase}

/-- The entry of an order in whose place the unknown attributes go. -/
def placeHolder : QString := "_X_".toList

/-- The attributes that an order leaves in: those that it names, and the unknown ones if it has
a place for them. The place holder names no attribute. -/
def ShownBy (attrOrder : List QString) (attr : Attribute u) : Prop :=
  attr.name ≠ placeHolder ∧ (attr.name ∈ attrOrder ∨ placeHolder ∈ attrOrder)

instance (attrOrder : List QString) (attr : Attribute u) : Decidable (ShownBy attrOrder attr) :=
  inferInstanceAs (Decidable (_ ∧ _))

/-- The position in the order by which a name is arranged. -/
def place (attrOrder : List QString) (name : QString) : Nat :=
  if name ∈ attrOrder then attrOrder.idxOf name else attrOrder.idxOf placeHolder

/-- The attributes sorted by the places of their names. Those of the same name, and the ones that
are not listed, are in the same sequence as before. -/
structure Arranged (attrOrder : List QString) (dn result : List (Attribute u)) : Prop where
  perm : result.Perm dn
  sorted : result.Pairwise fun a b => place attrOrder a.name ≤ place attrOrder b.name
  same_name : ∀ name, result.filter (fun a => a.name = name) = dn.filter fun a => a.name = name
  unlisted : result.filter (fun a => a.name ∉ attrOrder) = dn.filter fun a => a.name ∉ attrOrder

/-- A round of the loop of `reorder_dn`. -/
def reorderRound (dn : List (Attribute u)) (acc : List (Attribute u) × List (Attribute u))
    (oit : QString) : List (Attribute u) × List (Attribute u) :=
  if oit = "_X_".toList then (acc.1 ++ acc.2, [])
  else (acc.1 ++ dn.filter fun attr => attr.name = oit, acc.2)

/-- What the loop of `reorder_dn` appends for the rest of an order. -/
def arrangedPieces (dn : List (Attribute u)) :
    List (Attribute u) → List QString → List (Attribute u)
  | _, [] => []
  | unknownEntries, oit :: attrOrder =>
    if oit = placeHolder then unknownEntries ++ arrangedPieces dn [] attrOrder
    else dn.filter (fun attr => attr.name = oit) ++ arrangedPieces dn unknownEntries attrOrder

section pieces
variable {dn unknownEntries : List (Attribute u)} {attrOrder : List QString}

theorem reorderRound_foldl (dn : List (Attribute u)) (attrOrder : List QString)
    (result unknownEntries : List (Attribute u)) :
    (attrOrder.foldl (reorderRound dn) (result, unknownEntries)).1 =
      result ++ arrangedPieces dn unknownEntries attrOrder := by
  induction attrOrder generalizing result unknownEntries with
  | nil => simp [arrangedPieces]
  | cons oit attrOrder ih =>
    rw [List.foldl_cons, arrangedPieces]
    by_cases hoit : oit = placeHolder
    · have hround : reorderRound dn (result, unknownEntries) oit =
          (result ++ unknownEntries, []) := if_pos hoit
      rw [hround, ih, if_pos hoit, List.append_assoc]
    · have hround : reorderRound dn (result, unknownEntries) oit =
          (result ++ dn.filter fun attr => attr.name = oit, unknownEntries) := if_neg hoit
      rw [hround, ih, if_neg hoit, List.append_assoc]

theorem reorderDn_eq_pieces (dn : List (Attribute u)) (attrOrder : List QString) :
    reorderDn dn attrOrder =
      arrangedPieces dn (dn.filter fun attr => attr.name ∉ attrOrder) attrOrder := by
  have hunknown : (dn.filter fun attr => !attrOrder.contains attr.name) =
      dn.filter fun attr => attr.name ∉ attrOrder := by
    refine List.filter_congr fun attr _ => ?_
    simp
  rw [← hunknown]
  exact reorderRound_foldl dn attrOrder [] _

/-- To select from the result is to select beforehand. -/
theorem filter_pieces (p : Attribute u → Bool) (dn unknownEntries : List (Attribute u))
    (attrOrder : List QString) :
    (arrangedPieces dn unknownEntries attrOrder).filter p =
      arrangedPieces (dn.filter p) (unknownEntries.filter p) attrOrder := by
  induction attrOrder generalizing unknownEntries with
  | nil => rfl
  | cons oit attrOrder ih =>
    rw [arrangedPieces, arrangedPieces]
    split
    · rw [List.filter_append, ih, List.filter_nil]
    · rw [List.filter_append, ih, List.filter_filter, List.filter_filter]
      simp only [Bool.and_comm]

theorem pieces_unlisted (h : ∀ attr ∈ dn, attr.name ∉ attrOrder) :
    arrangedPieces dn unknownEntries attrOrder =
      if placeHolder ∈ attrOrder then unknownEntries else [] := by
  induction attrOrder generalizing unknownEntries with
  | nil => rfl
  | cons oit attrOrder ih =>
    have hrest : ∀ attr ∈ dn, attr.name ∉ attrOrder :=
      fun attr hattr hmem => h attr hattr (List.mem_cons_of_mem oit hmem)
    rw [arrangedPieces]
    by_cases hoit : oit = placeHolder
    · rw [if_pos hoit, ih hrest, ite_self, List.append_nil, if_pos (hoit ▸ List.mem_cons_self)]
    · have hnone : (dn.filter fun attr => attr.name = oit) = [] := by
        rw [List.filter_eq_nil_iff]
        intro attr hattr hname
        exact h attr hattr (of_decide_eq_true hname ▸ List.mem_cons_self)
      rw [if_neg hoit, hnone, List.nil_append, ih hrest]
      simp [Ne.symm hoit]

/-- Attributes of one name that the order lists are appended once. -/
theorem pieces_named {name : QString} (hname : ∀ attr ∈ dn, attr.name = name)
    (hne : name ≠ placeHolder) (hlisted : name ∈ attrOrder)
    (hnodup : (attrOrder.filter fun oit => oit ≠ placeHolder).Nodup) :
    arrangedPieces dn [] attrOrder = dn := by
  induction attrOrder with
  | nil => cases hlisted
  | cons oit attrOrder ih =>
    rw [arrangedPieces]
    by_cases hoit : oit = placeHolder
    · subst hoit
      have hrest : name ∈ attrOrder := List.mem_of_ne_of_mem hne hlisted
      rw [List.filter_cons_of_neg (by simp)] at hnodup
      rw [if_pos rfl, List.nil_append, ih hrest hnodup]
    · rw [List.filter_cons_of_pos (by simpa using hoit), List.nodup_cons] at hnodup
      rw [if_neg hoit]
      by_cases hsame : oit = name
      · subst hsame
        have hnot : oit ∉ attrOrder := by
          intro hmem
          exact hnodup.1 (List.mem_filter.mpr ⟨hmem, by simpa using hoit⟩)
        have hall : (dn.filter fun attr => attr.name = oit) = dn :=
          List.filter_eq_self.mpr fun attr hattr => decide_eq_true (hname attr hattr)
        have hnone : ∀ attr ∈ dn, attr.name ∉ attrOrder := by
          intro attr hattr
          rw [hname attr hattr]
          exact hnot
        rw [hall, pieces_unlisted hnone, ite_self, List.append_nil]
      · have hnone : (dn.filter fun attr => attr.name = oit) = [] := by
          rw [List.filter_eq_nil_iff]
          intro attr hattr hmem
          exact hsame ((of_decide_eq_true hmem).symm.trans (hname attr hattr))
        rw [hnone, List.nil_append]
        exact ih (List.mem_of_ne_of_mem (Ne.symm hsame) hlisted) hnodup.2

theorem mem_pieces {attr : Attribute u} (h : attr ∈ arrangedPieces dn unknownEntries attrOrder) :
    attr.name ≠ placeHolder ∧ attr.name ∈ attrOrder ∨
      placeHolder ∈ attrOrder ∧ attr ∈ unknownEntries := by
  induction attrOrder generalizing unknownEntries with
  | nil => cases h
  | cons oit attrOrder ih =>
    rw [arrangedPieces] at h
    split at h
    · next hoit =>
      cases List.mem_append.mp h with
      | inl hunknown => exact Or.inr ⟨hoit ▸ List.mem_cons_self, hunknown⟩
      | inr hlater =>
        have hnamed := (ih hlater).resolve_right fun hnone => List.not_mem_nil hnone.2
        exact Or.inl ⟨hnamed.1, List.mem_cons_of_mem oit hnamed.2⟩
    · next hoit =>
      cases List.mem_append.mp h with
      | inl hfirst =>
        have hname := of_decide_eq_true (List.mem_filter.mp hfirst).2
        exact Or.inl ⟨hname ▸ hoit, hname ▸ List.mem_cons_self⟩
      | inr hlater =>
        cases ih hlater with
        | inl hnamed => exact Or.inl ⟨hnamed.1, List.mem_cons_of_mem oit hnamed.2⟩
        | inr hunknown => exact Or.inr ⟨List.mem_cons_of_mem oit hunknown.1, hunknown.2⟩

end pieces

section places
variable {dn unknownEntries : List (Attribute u)} {oit name : QString} {attrOrder : List QString}

theorem place_self : place (oit :: attrOrder) oit = 0 := by
  rw [place, if_pos List.mem_cons_self, List.idxOf_cons_self]

theorem place_placeHolder (h : name ∉ placeHolder :: attrOrder) :
    place (placeHolder :: attrOrder) name = 0 := by
  rw [place, if_neg h, List.idxOf_cons_self]

theorem place_cons (hne : name ≠ oit) (h : name ∈ attrOrder ∨ oit ≠ placeHolder) :
    place (oit :: attrOrder) name = place attrOrder name + 1 := by
  by_cases hlisted : name ∈ attrOrder
  · rw [place, if_pos (List.mem_cons_of_mem oit hlisted), place, if_pos hlisted,
      List.idxOf_cons_ne _ (Ne.symm hne)]
  · have hnot : name ∉ oit :: attrOrder := by
      rw [List.mem_cons, not_or]
      exact ⟨hne, hlisted⟩
    rw [place, if_neg hnot, place, if_neg hlisted, List.idxOf_cons_ne _ (h.resolve_left hlisted)]

/-- The attributes of the first entry come before those that were sorted by the others. -/
theorem sorted_cons {first rest : List (Attribute u)}
    (hfirst : ∀ attr ∈ first, place (oit :: attrOrder) attr.name = 0)
    (hrest : ∀ attr ∈ rest, attr.name ≠ oit ∧ (attr.name ∈ attrOrder ∨ oit ≠ placeHolder))
    (h : rest.Pairwise fun a b => place attrOrder a.name ≤ place attrOrder b.name) :
    (first ++ rest).Pairwise fun a b =>
      place (oit :: attrOrder) a.name ≤ place (oit :: attrOrder) b.name := by
  refine List.pairwise_append.mpr ⟨?_, ?_, fun a ha b _ => by simp [hfirst a ha]⟩
  · exact List.pairwise_of_forall_mem_list fun a ha b _ => by simp [hfirst a ha]
  · refine h.imp_of_mem fun {a b} ha hb hle => ?_
    rw [place_cons (hrest a ha).1 (hrest a ha).2, place_cons (hrest b hb).1 (hrest b hb).2]
    exact Nat.succ_le_succ hle

theorem pieces_sorted (hunknown : ∀ attr ∈ unknownEntries, attr.name ∉ attrOrder)
    (hnodup : (attrOrder.filter fun oit => oit ≠ placeHolder).Nodup) :
    (arrangedPieces dn unknownEntries attrOrder).Pairwise fun a b =>
      place attrOrder a.name ≤ place attrOrder b.name := by
  induction attrOrder generalizing unknownEntries with
  | nil => exact List.Pairwise.nil
  | cons oit attrOrder ih =>
    rw [arrangedPieces]
    by_cases hoit : oit = placeHolder
    · subst hoit
      rw [List.filter_cons_of_neg (by simp)] at hnodup
      rw [if_pos rfl]
      refine sorted_cons (fun attr hattr => place_placeHolder (hunknown attr hattr))
        (fun attr hattr => ?_) (ih (by simp) hnodup)
      have hnamed := (mem_pieces hattr).resolve_right fun hnone => List.not_mem_nil hnone.2
      exact ⟨hnamed.1, Or.inl hnamed.2⟩
    · rw [List.filter_cons_of_pos (by simpa using hoit), List.nodup_cons] at hnodup
      have hlater : ∀ attr ∈ unknownEntries, attr.name ∉ attrOrder :=
        fun attr hattr hmem => hunknown attr hattr (List.mem_cons_of_mem oit hmem)
      rw [if_neg hoit]
      refine sorted_cons (fun attr hattr => ?_) (fun attr hattr => ⟨?_, Or.inr hoit⟩)
        (ih hlater hnodup.2)
      · rw [of_decide_eq_true (List.mem_filter.mp hattr).2, place_self]
      · intro hname
        cases mem_pieces hattr with
        | inl hnamed =>
          exact hnodup.1 (List.mem_filter.mpr ⟨hname ▸ hnamed.2, by simpa using hoit⟩)
        | inr hentry => exact hunknown attr hentry.2 (hname ▸ List.mem_cons_self)

end places

section arrangement
variable {dn : List (Attribute u)} {attrOrder : List QString}

/-- Two lists with the same attributes of each name, one by one, have the same attributes. -/
theorem perm_of_same_name {dn result : List (Attribute u)}
    (h : ∀ name, result.filter (fun a => a.name = name) = dn.filter fun a => a.name = name) :
    result.Perm dn := by
  rw [List.perm_iff_count]
  intro attr
  have hcount (l : List (Attribute u)) :
      (l.filter fun a => a.name = attr.name).count attr = l.count attr :=
    List.count_filter (decide_eq_true rfl)
  rw [← hcount result, ← hcount dn, h attr.name]

/-- Attributes that are not listed are left as they are. -/
theorem filter_reorderDn_unlisted {p : Attribute u → Bool}
    (hp : ∀ attr, p attr = true → attr.name ∉ attrOrder) :
    (reorderDn dn attrOrder).filter p = (dn.filter (ShownBy attrOrder ·)).filter p := by
  have hnone : ∀ attr ∈ dn.filter p, attr.name ∉ attrOrder :=
    fun attr hattr => hp attr (List.mem_filter.mp hattr).2
  rw [reorderDn_eq_pieces, filter_pieces, pieces_unlisted hnone]
  by_cases hplace : placeHolder ∈ attrOrder
  · rw [if_pos hplace, List.filter_filter, List.filter_filter]
    refine List.filter_congr fun attr _ => ?_
    cases hattr : p attr with
    | true =>
      have hnot := hp attr hattr
      have hne : attr.name ≠ placeHolder := fun heq => hnot (heq ▸ hplace)
      simp [ShownBy, hplace, hnot, hne]
    | false => rfl
  · rw [if_neg hplace, eq_comm, List.filter_eq_nil_iff]
    intro attr hattr hpattr
    have hshown := (List.mem_filter.mp hattr).2
    simp [ShownBy, hplace, hp attr hpattr] at hshown

/-- Attributes of a name that is listed are left as they are. -/
theorem filter_reorderDn_listed
    (hnodup : (attrOrder.filter fun oit => oit ≠ placeHolder).Nodup) {name : QString}
    (hlisted : name ∈ attrOrder) (hname : name ≠ placeHolder) :
    (reorderDn dn attrOrder).filter (fun a => a.name = name) =
      (dn.filter (ShownBy attrOrder ·)).filter fun a => a.name = name := by
  have hunknown : ((dn.filter fun a => a.name ∉ attrOrder).filter fun a => a.name = name) = [] := by
    rw [List.filter_eq_nil_iff]
    intro attr hattr heq
    have hnot := of_decide_eq_true (List.mem_filter.mp hattr).2
    exact hnot (of_decide_eq_true heq ▸ hlisted)
  have hall : ((dn.filter (ShownBy attrOrder ·)).filter fun a => a.name = name) =
      dn.filter fun a => a.name = name := by
    rw [List.filter_filter]
    refine List.filter_congr fun attr _ => ?_
    by_cases heq : attr.name = name
    · simp [ShownBy, heq, hlisted, hname]
    · simp [heq]
  rw [reorderDn_eq_pieces, filter_pieces, hunknown, hall]
  exact pieces_named (fun attr hattr => of_decide_eq_true (List.mem_filter.mp hattr).2) hname
    hlisted hnodup

/-- The place holder names no attribute, before or after. -/
theorem filter_reorderDn_placeHolder (hlisted : placeHolder ∈ attrOrder) :
    (reorderDn dn attrOrder).filter (fun a => a.name = placeHolder) =
      (dn.filter (ShownBy attrOrder ·)).filter fun a => a.name = placeHolder := by
  have hbefore : ((dn.filter (ShownBy attrOrder ·)).filter fun a => a.name = placeHolder) = [] := by
    rw [List.filter_eq_nil_iff]
    intro attr hattr heq
    exact (of_decide_eq_true (List.mem_filter.mp hattr).2).1 (of_decide_eq_true heq)
  rw [hbefore, List.filter_eq_nil_iff, reorderDn_eq_pieces]
  intro attr hattr heq
  have hname : attr.name = placeHolder := of_decide_eq_true heq
  cases mem_pieces hattr with
  | inl hnamed => exact hnamed.1 hname
  | inr hentry =>
    have hnot := of_decide_eq_true (List.mem_filter.mp hentry.2).2
    exact hnot (hname ▸ hlisted)

/-- Reordering arranges the attributes that the order leaves in. -/
theorem reorderDn_shown (dn : List (Attribute u))
    (hnodup : (attrOrder.filter fun oit => oit ≠ placeHolder).Nodup) :
    Arranged attrOrder (dn.filter (ShownBy attrOrder ·)) (reorderDn dn attrOrder) := by
  have hsame : ∀ name, (reorderDn dn attrOrder).filter (fun a => a.name = name) =
      (dn.filter (ShownBy attrOrder ·)).filter fun a => a.name = name := by
    intro name
    by_cases hlisted : name ∈ attrOrder
    · by_cases hname : name = placeHolder
      · subst hname
        exact filter_reorderDn_placeHolder hlisted
      · exact filter_reorderDn_listed hnodup hlisted hname
    · refine filter_reorderDn_unlisted fun attr hattr => ?_
      rw [of_decide_eq_true hattr]
      exact hlisted
  have hunlisted : (reorderDn dn attrOrder).filter (fun a => a.name ∉ attrOrder) =
      (dn.filter (ShownBy attrOrder ·)).filter fun a => a.name ∉ attrOrder :=
    filter_reorderDn_unlisted fun attr hattr => of_decide_eq_true hattr
  refine ⟨perm_of_same_name hsame, ?_, hsame, hunlisted⟩
  rw [reorderDn_eq_pieces]
  exact pieces_sorted (fun attr hattr => of_decide_eq_true (List.mem_filter.mp hattr).2) hnodup

end arrangement

/-- With a place for the attributes that it does not list, an order arranges all attributes;
without one, it arranges exactly those that it lists. -/
theorem reorderDn_arranged {dn : List (Attribute u)} {attrOrder : List QString}
    (hdn : ∀ attr ∈ dn, attr.name ≠ placeHolder)
    (hnodup : (attrOrder.filter fun oit => oit ≠ placeHolder).Nodup) :
    (placeHolder ∈ attrOrder → Arranged attrOrder dn (reorderDn dn attrOrder)) ∧
    (placeHolder ∉ attrOrder →
      Arranged attrOrder (dn.filter fun a => a.name ∈ attrOrder) (reorderDn dn attrOrder)) := by
  have harranged := reorderDn_shown dn hnodup
  constructor
  · intro hplace
    have hall : dn.filter (ShownBy attrOrder ·) = dn :=
      List.filter_eq_self.mpr fun attr hattr => by simp [ShownBy, hplace, hdn attr hattr]
    rwa [hall] at harranged
  · intro hplace
    have hlisted : dn.filter (ShownBy attrOrder ·) = dn.filter fun a => a.name ∈ attrOrder :=
      List.filter_congr fun attr hattr => by simp [ShownBy, hplace, hdn attr hattr]
    rwa [hlisted] at harranged

/-- Two attributes of one name, and an unlisted one, for which the order has two places or
none. -/
theorem reorderDn_arranged_twice :
    let dn := [Attribute.new asciiUpper "DC".toList "a".toList,
      .new asciiUpper "L".toList "b".toList, .new asciiUpper "CN".toList "c".toList,
      .new asciiUpper "DC".toList "d".toList]
    let attrOrder := ["CN".toList, placeHolder, "DC".toList, placeHolder]
    let knownOrder := ["CN".toList, "DC".toList]
    Arranged attrOrder dn (reorderDn dn attrOrder) ∧
      (reorderDn dn attrOrder).map Attribute.value =
        ["c".toList, "b".toList, "a".toList, "d".toList] ∧
      Arranged knownOrder (dn.filter fun a => a.name ∈ knownOrder) (reorderDn dn knownOrder) := by
  intro dn attrOrder knownOrder
  have hdn : ∀ attr ∈ dn, attr.name ≠ placeHolder := by decide +kernel
  have hnodup : (attrOrder.filter fun oit => oit ≠ placeHolder).Nodup := by decide +kernel
  have hknown : (knownOrder.filter fun oit => oit ≠ placeHolder).Nodup := by decide +kernel
  exact ⟨(reorderDn_arranged hdn hnodup).1 (by decide +kernel), by decide +kernel,
    (reorderDn_arranged hdn hknown).2 (by decide +kernel)⟩

end QGpgME.DnHandles
