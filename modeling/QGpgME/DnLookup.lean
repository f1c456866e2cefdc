import QGpgME.DnReorder
import QGpgME.DnRoundTrip

/-! The value that `DN::operator[]` finds under a name, in a distinguished name and in the one
that is read from its reordered form. -/
namespace QGpgME.DnHandles
open EventRun RefCount Dn
variable {u : UpperCase}

/-- `DN::operator[]`, which answers with an empty string where it finds no such name. -/
def valueOf (attributes : List (Attribute u)) (attr : QString) : QString :=
  match attributes.find? fun a => a.name = u.toUpper attr with
  | some a => a.value
  | none => []

theorem valueOf_congr {l m : List (Attribute u)} {attr : QString}
    (h : (l.filter fun a => a.name = u.toUpper attr).head? =
      (m.filter fun a => a.name = u.toUpper attr).head?) : valueOf l attr = valueOf m attr := by
  rw [List.head?_filter, List.head?_filter] at h
  rw [valueOf, valueOf, h]

section reordering
variable {dn : List (Attribute u)} {attrOrder : List QString} {name : QString}

/-- An order that lists a name more than once shows its attributes as often, from the first on. -/
theorem head_pieces (hname : ∀ attr ∈ dn, attr.name = name) (hne : name ≠ placeHolder)
    (hlisted : name ∈ attrOrder) : (arrangedPieces dn [] attrOrder).head? = dn.head? := by
  induction attrOrder with
  | nil => cases hlisted
  | cons oit attrOrder ih =>
    rw [arrangedPieces]
    by_cases hoit : oit = placeHolder
    · rw [if_pos hoit, List.nil_append]
      exact ih (List.mem_of_ne_of_mem (hoit ▸ hne) hlisted)
    · rw [if_neg hoit]
      by_cases hsame : oit = name
      · have hall : (dn.filter fun attr => attr.name = oit) = dn :=
          List.filter_eq_self.mpr fun attr hattr =>
            decide_eq_true ((hname attr hattr).trans hsame.symm)
        rw [hall]
        cases dn with
        | nil => rw [pieces_unlisted (by simp), ite_self, List.nil_append]
        | cons attr dn => rfl
      · have hnone : (dn.filter fun attr => attr.name = oit) = [] := by
          rw [List.filter_eq_nil_iff]
          intro attr hattr hmem
          exact hsame ((of_decide_eq_true hmem).symm.trans (hname attr hattr))
        rw [hnone, List.nil_append]
        exact ih (List.mem_of_ne_of_mem (Ne.symm hsame) hlisted)

theorem head_reorderDn_listed (hne : name ≠ placeHolder) (hlisted : name ∈ attrOrder) :
    ((reorderDn dn attrOrder).filter fun a => a.name = name).head? =
      (dn.filter fun a => a.name = name).head? := by
  have hunknown : ((dn.filter fun a => a.name ∉ attrOrder).filter fun a => a.name = name) = [] := by
    rw [List.filter_eq_nil_iff]
    intro attr hattr heq
    have hnot := of_decide_eq_true (List.mem_filter.mp hattr).2
    exact hnot (of_decide_eq_true heq ▸ hlisted)
  rw [reorderDn_eq_pieces, filter_pieces, hunknown]
  exact head_pieces (fun attr hattr => of_decide_eq_true (List.mem_filter.mp hattr).2) hne hlisted

/-- Whatever the order, a name is found in the reordered form with the value that it has in the
original one, unless the order leaves it out. -/
theorem valueOf_reorderDn (dn : List (Attribute u)) (attrOrder : List QString) (attr : QString)
    (h : u.toUpper attr ≠ placeHolder) :
    valueOf (reorderDn dn attrOrder) attr =
      if u.toUpper attr ∈ attrOrder ∨ placeHolder ∈ attrOrder then valueOf dn attr else [] := by
  by_cases hlisted : u.toUpper attr ∈ attrOrder
  · rw [if_pos (Or.inl hlisted)]
    exact valueOf_congr (head_reorderDn_listed h hlisted)
  · have hfilter : (reorderDn dn attrOrder).filter (fun a => a.name = u.toUpper attr) =
        (dn.filter (ShownBy attrOrder ·)).filter fun a => a.name = u.toUpper attr := by
      refine filter_reorderDn_unlisted fun a ha => ?_
      rw [of_decide_eq_true ha]
      exact hlisted
    by_cases hplace : placeHolder ∈ attrOrder
    · rw [if_pos (Or.inr hplace)]
      apply valueOf_congr
      rw [hfilter, List.filter_filter]
      congr 1
      refine List.filter_congr fun a _ => ?_
      by_cases ha : a.name = u.toUpper attr
      · simp [ShownBy, ha, h, hplace]
      · simp [ha]
    · rw [if_neg (by simp [hlisted, hplace])]
      have hnone : (reorderDn dn attrOrder).find? (fun a => a.name = u.toUpper attr) = none := by
        rw [← List.head?_filter, hfilter, List.filter_filter, List.head?_eq_none_iff,
          List.filter_eq_nil_iff]
        intro a _ ha
        simp only [Bool.and_eq_true, decide_eq_true_eq] at ha
        obtain ⟨ha, -, hshown⟩ := ha
        rw [ha] at hshown
        simp [hlisted, hplace] at hshown
      rw [valueOf, hnone]

theorem mem_of_mem_pieces {attr : Attribute u} {unknownEntries : List (Attribute u)}
    (h : attr ∈ arrangedPieces dn unknownEntries attrOrder) :
    attr ∈ dn ∨ attr ∈ unknownEntries := by
  induction attrOrder generalizing unknownEntries with
  | nil => cases h
  | cons oit attrOrder ih =>
    rw [arrangedPieces] at h
    split_ifs at h with hoit
    · cases List.mem_append.mp h with
      | inl hunknown => exact Or.inr hunknown
      | inr hlater => exact Or.inl ((ih hlater).resolve_right List.not_mem_nil)
    · cases List.mem_append.mp h with
      | inl hfirst => exact Or.inl (List.mem_filter.mp hfirst).1
      | inr hlater => exact ih hlater

theorem mem_of_mem_reorderDn {attr : Attribute u} (h : attr ∈ reorderDn dn attrOrder) :
    attr ∈ dn := by
  rw [reorderDn_eq_pieces] at h
  cases mem_of_mem_pieces h with
  | inl hdn => exact hdn
  | inr hunknown => exact (List.mem_filter.mp hunknown).1

end reordering

section handles
variable {calls : List (Call u)} {s : Store (Private u)} {i : Nat} {d : Private u}

theorem coherent_run (hs : run step calls Store.empty = some s)
    (hkeep : Along step KeepsCache calls Store.empty) : s.Numbered ∧ Coherent s := by
  have hstep : ∀ (s : Store (Private u)) e t, s.Numbered ∧ Coherent s → KeepsCache s e →
      step s e = some t → t.Numbered ∧ Coherent t := by
    intro s e t h hok ht
    exact ⟨step_numbered s e t h.1 ht, (step_coherent_iff h.1 h.2 ht).mpr hok⟩
  exact run_invariant hstep ⟨Store.numbered_empty, coherent_empty⟩ hkeep hs

/-- What can be read back is read back, and no name is read from nothing. -/
theorem parseDn_serialise_all {l : List (Attribute u)} (hnames : ∀ a ∈ l, '=' ∉ a.name)
    (hread : ∀ a ∈ l, ReadBack a) : parseDn u (serialise l [',']).toUtf8 = l := by
  have hcomma : ',' ∈ ",;+".toList := by decide
  obtain ⟨result, hparse, hresult⟩ := reparsed_of_readBack hcomma hnames hread
  rw [parseDn, parseString, QString.toUtf8, hparse]
  exact hresult

/-- In every run that leaves no stale form behind, the name that is read from a handle's reordered
form has the same values as the handle, as far as the order shows them. -/
theorem valueOf_parse_prettyDN (hs : run step calls Store.empty = some s)
    (hkeep : Along step KeepsCache calls Store.empty) (hd : s.view i = some d)
    (hnames : ∀ a ∈ d.attributes, '=' ∉ a.name) (hread : ∀ a ∈ d.attributes, ReadBack a)
    {attr : QString} (h : u.toUpper attr ≠ placeHolder) :
    valueOf (parseDn u (QString.toUtf8 d.prettyDN)) attr =
      if u.toUpper attr ∈ d.order ∨ placeHolder ∈ d.order then valueOf d.attributes attr
      else [] := by
  have hcoherent : d.Coherent := (coherent_run hs hkeep).2 i d hd
  have hparse : parseDn u (QString.toUtf8 d.prettyDN) = reorderDn d.attributes d.order := by
    rw [hcoherent]
    exact parseDn_serialise_all (fun a ha => hnames a (mem_of_mem_reorderDn ha))
      fun a ha => hread a (mem_of_mem_reorderDn ha)
  rw [hparse]
  exact valueOf_reorderDn d.attributes d.order attr h

/-- `CN=a,O=b` in the order O, CN. -/
theorem valueOf_parse_prettyDN_reordered :
    let calls : List (Call asciiUpper) := [.parse "CN=a,O=b".toList,
      .setAttributeOrder 0 ["O".toList, "CN".toList], .prettyDN 0]
    ∃ s d, run step calls Store.empty = some s ∧ s.view 0 = some d ∧
      valueOf (parseDn asciiUpper (QString.toUtf8 d.prettyDN)) "o".toList =
        if asciiUpper.toUpper "o".toList ∈ d.order ∨ placeHolder ∈ d.order then
          valueOf d.attributes "o".toList
        else [] := by
  intro calls
  have hview : ((run step calls Store.empty).bind fun t => t.view 0).map Private.attributes =
      some [Attribute.new asciiUpper "CN".toList ['a'], Attribute.new asciiUpper ['O'] ['b']] := by
    decide +kernel
  obtain ⟨d, hd, hattributes⟩ := Option.map_eq_some_iff.mp hview
  obtain ⟨s, hs, hd⟩ := Option.bind_eq_some_iff.mp hd
  have hkeep : Along step KeepsCache calls Store.empty := by
    refine ⟨trivial, fun t ht => ⟨fun d hd => Or.inl ?_, fun _ _ => ⟨trivial, fun _ _ => trivial⟩⟩⟩
    obtain rfl := Option.some.inj ht
    obtain rfl := Option.some.inj hd
    rfl
  have hread : ∀ a ∈ d.attributes, '=' ∉ a.name ∧ ReadBack a := by
    rw [hattributes]
    refine List.forall_mem_cons.mpr ⟨⟨by decide, ?_⟩, List.forall_mem_singleton.mpr ⟨by decide, ?_⟩⟩
    · constructor <;> decide +kernel
    · constructor <;> decide +kernel
  exact ⟨s, d, hs, hd, valueOf_parse_prettyDN hs hkeep hd (fun a ha => (hread a ha).1)
    (fun a ha => (hread a ha).2) (by decide +kernel)⟩

/-- An order with a name twice. -/
theorem valueOf_reorderDn_twice :
    let dn := [Attribute.new asciiUpper "CN".toList ['a'],
      Attribute.new asciiUpper "CN".toList ['b']]
    valueOf (reorderDn dn ["CN".toList, "CN".toList]) "cn".toList = valueOf dn "cn".toList := by
  intro dn
  have hlookup := valueOf_reorderDn dn ["CN".toList, "CN".toList] "cn".toList
    (by decide +kernel)
  rwa [if_pos (Or.inl (by decide +kernel))] at hlookup

end handles
end QGpgME.DnHandles
