import QGpgME.DnReorder

/-! Which attributes the reordered form of a distinguished name shows. -/
namespace QGpgME.DnHandles
open EventRun RefCount Dn
variable {u : UpperCase}

section reordering

theorem listAttributes_perm {dn dn' : List (Attribute u)} (h : dn.Perm dn') :
    (listAttributes dn).Perm (listAttributes dn') := (h.filter _).map _

/-- Some attributes are left out of the list exactly when one of them is not empty. -/
theorem listAttributes_filter_perm_iff (dn : List (Attribute u)) (p : Attribute u → Bool) :
    (listAttributes (dn.filter p)).Perm (listAttributes dn) ↔
      ∀ attr ∈ dn, attr.name ≠ [] → attr.value ≠ [] → p attr = true := by
  have hcomm : listAttributes (dn.filter p) =
      ((dn.filter fun attr => attr.name ≠ [] ∧ attr.value ≠ []).filter p).map attributeText := by
    rw [listAttributes, List.filter_filter, List.filter_filter]
    simp only [Bool.and_comm]
  have hall : (∀ attr ∈ dn.filter fun attr => attr.name ≠ [] ∧ attr.value ≠ [], p attr = true) ↔
      ∀ attr ∈ dn, attr.name ≠ [] → attr.value ≠ [] → p attr = true := by
    simp [List.mem_filter]
  rw [← hall, hcomm, ← List.length_filter_eq_length_iff]
  constructor
  · intro h
    simpa [listAttributes] using h.length_eq
  · intro h
    rw [List.filter_eq_self.mpr (List.length_filter_eq_length_iff.mp h)]
    exact List.Perm.refl _

end reordering

section runs

namespace Private

/-- What a body is like whose order was not set: it is new, or was made by a copy, and what it
caches is reordered that way. -/
structure Unset (d : Private u) : Prop where
  order : d.order = [] ∨ d.order = copiedOrder
  cache : d.reorderedAttributes = [] ∨ d.reorderedAttributes = reorderDn d.attributes d.order

theorem Unset.fill {d : Private u} (h : d.Unset) :
    d.fill.reorderedAttributes = reorderDn d.attributes d.order := by
  rw [Private.fill]
  split_ifs with hempty
  · rfl
  · cases h.cache with
    | inl hnil => exact absurd hnil hempty
    | inr hcache => exact hcache

theorem kept_unset : Kept (Unset (u := u)) where
  new _ := ⟨Or.inl rfl, Or.inl rfl⟩
  append _ _ h := ⟨h.order, Or.inl rfl⟩
  detach _ _ _ := ⟨Or.inr rfl, Or.inl rfl⟩
  fill d h := by
    have hcache := h.fill
    rw [Private.fill] at hcache ⊢
    split_ifs at hcache ⊢
    · exact ⟨h.order, Or.inr rfl⟩
    · exact ⟨h.order, Or.inr hcache⟩

theorem Unset.nodup_order {d : Private u} (h : d.Unset) : d.order.Nodup := by
  cases h.order with
  | inl hnew =>
    rw [hnew]
    exact List.nodup_nil
  | inr hcopied =>
    rw [hcopied]
    decide

/-- Nothing is lost just where the order leaves in each attribute that is not empty. -/
theorem Unset.shown_iff {d : Private u} (h : d.Unset) :
    d.prettyAttributes.Perm (listAttributes d.attributes) ↔
      ∀ attr ∈ d.attributes, attr.name ≠ [] → attr.value ≠ [] → ShownBy d.order attr := by
  have hperm : d.prettyAttributes.Perm
      (listAttributes (d.attributes.filter (ShownBy d.order ·))) := by
    rw [prettyAttributes, h.fill]
    exact listAttributes_perm (reorderDn_shown d.attributes (h.nodup_order.filter _)).perm
  have hiff := listAttributes_filter_perm_iff d.attributes (ShownBy d.order ·)
  simp only [decide_eq_true_eq] at hiff
  rw [← hiff]
  constructor
  · intro hall
    exact hperm.symm.trans hall
  · intro hall
    exact hperm.trans hall

/-- A new body has an order without a place for any attribute. -/
theorem Unset.shows_iff {d : Private u} (h : d.Unset) :
    d.prettyAttributes.Perm (listAttributes d.attributes) ↔
      listAttributes d.attributes = [] ∨ d.order = copiedOrder ∧
        ∀ attr ∈ d.attributes, attr.value ≠ [] → attr.name ≠ placeHolder := by
  have hnone : listAttributes d.attributes = [] ↔
      ∀ attr ∈ d.attributes, attr.name ≠ [] → ¬attr.value ≠ [] := by
    simp [listAttributes, List.filter_eq_nil_iff]
  rw [h.shown_iff]
  cases h.order with
  | inl hnew =>
    have hother : ([] : List QString) ≠ copiedOrder := by decide
    simp [hnew, hother, hnone, ShownBy]
  | inr hcopied =>
    have hplace : placeHolder ∈ copiedOrder := by decide
    have hname : placeHolder ≠ [] := by decide
    simp only [hcopied, true_and, ShownBy, hplace, or_true, and_true]
    constructor
    · intro hall
      refine Or.inr fun attr hattr hvalue heq => ?_
      exact hall attr hattr (heq ▸ hname) hvalue heq
    · intro hcase attr hattr hne hvalue
      cases hcase with
      | inl hnil => exact absurd hvalue (hnone.mp hnil attr hattr hne)
      | inr hnames => exact hnames attr hattr hvalue

end Private

/-- The call sets an order. -/
def Call.SetsOrder : Call u → Prop
  | .setAttributeOrder _ _ => True
  | _ => False

/-- In every run that sets no order the reordered form of a name shows its attributes, each
once, exactly if there are none, or its body was made by detaching it and no attribute is
called like the place holder. -/
theorem prettyAttributes_perm_iff {calls : List (Call u)} (hcalls : ∀ e ∈ calls, ¬e.SetsOrder)
    {s : Store (Private u)} (hs : run step calls Store.empty = some s) {i : Nat} {d : Private u}
    (hd : s.view i = some d) :
    d.prettyAttributes.Perm (listAttributes d.attributes) ↔
      listAttributes d.attributes = [] ∨ d.order = Private.copiedOrder ∧
        ∀ attr ∈ d.attributes, attr.value ≠ [] → attr.name ≠ placeHolder := by
  have hstep : ∀ s (e : Call u) t, (s.Numbered ∧ ∀ i d, s.view i = some d → d.Unset) →
      ¬e.SetsOrder → step s e = some t → t.Numbered ∧ ∀ i d, t.view i = some d → d.Unset := by
    intro s e t hinv he ht
    refine ⟨step_numbered s e t hinv.1 ht, Private.kept_unset.step hinv.1 hinv.2 ht ?_⟩
    intro this order heq
    rw [heq] at he
    exact he trivial
  have hempty : ∀ i (d : Private u), Store.empty.view i = some d → d.Unset := by
    intro i d hd
    simp [Store.view, Store.target, Store.empty] at hd
  have hreached := run_invariant hstep ⟨Store.numbered_empty, hempty⟩ (along_of_forall hcalls _) hs
  exact (hreached.2 i d hd).shows_iff

theorem prettyAttributes_perm_detached :
    let calls : List (Call asciiUpper) := [.parse "O=a".toList, .copy 0,
      .append 1 (.new asciiUpper "CN".toList "b".toList)]
    ∃ s d, run step calls Store.empty = some s ∧ s.view 1 = some d ∧
      d.prettyAttributes.Perm (listAttributes d.attributes) := by
  intro calls
  have hcalls : ∀ e ∈ calls, ¬e.SetsOrder := by
    simp [calls, Call.SetsOrder]
  have hbody : ((run step calls Store.empty).bind fun s => s.view 1).map (fun d =>
      (d.order, d.attributes.map Attribute.name)) =
      some (Private.copiedOrder, ["O".toList, "CN".toList]) := by decide +kernel
  obtain ⟨d, hd, hbody⟩ := Option.map_eq_some_iff.mp hbody
  obtain ⟨s, hs, hview⟩ := Option.bind_eq_some_iff.mp hd
  obtain ⟨horder, hnames⟩ := Prod.mk.inj hbody
  refine ⟨s, d, hs, hview, ?_⟩
  refine (prettyAttributes_perm_iff hcalls hs hview).mpr (Or.inr ⟨horder, fun attr hattr _ => ?_⟩)
  have hname := List.mem_map_of_mem (f := Attribute.name) hattr
  rw [hnames] at hname
  intro heq
  rw [heq] at hname
  exact absurd hname (by decide)

theorem not_shown {calls : List (Call u)} {i : Nat} {pretty : List QString}
    (attributes : List QString)
    (h : ((run step calls Store.empty).bind fun s => s.view i).map (fun d =>
      (d.prettyAttributes, listAttributes d.attributes)) = some (pretty, attributes))
    (hlen : pretty.length ≠ attributes.length) :
    ∃ s d, run step calls Store.empty = some s ∧ s.view i = some d ∧
      d.prettyAttributes = pretty ∧ ¬d.prettyAttributes.Perm (listAttributes d.attributes) := by
  obtain ⟨d, hd, hforms⟩ := Option.map_eq_some_iff.mp h
  obtain ⟨s, hs, hview⟩ := Option.bind_eq_some_iff.mp hd
  obtain ⟨hpretty, hattributes⟩ := Prod.mk.inj hforms
  refine ⟨s, d, hs, hview, hpretty, fun hperm => hlen ?_⟩
  rw [← hpretty, ← hattributes]
  exact hperm.length_eq

/-- A name that was parsed shows nothing, and one that was detached lacks the attribute that is
called like the place holder. -/
theorem prettyAttributes_lost :
    (∃ s d, run step [Call.parse (u := asciiUpper) "CN=a".toList] Store.empty = some s ∧
      s.view 0 = some d ∧ d.prettyAttributes = [] ∧
      ¬d.prettyAttributes.Perm (listAttributes d.attributes)) ∧
    ∃ s d, run step [.parse "CN=a".toList, .copy 0,
        .append 1 (.new asciiUpper "_X_".toList "b".toList)] Store.empty = some s ∧
      s.view 1 = some d ∧ d.prettyAttributes = ["CN=a".toList] ∧
      ¬d.prettyAttributes.Perm (listAttributes d.attributes) := by
  constructor
  · exact not_shown ["CN=a".toList] (by decide +kernel) (by decide)
  · exact not_shown ["CN=a".toList, "_X_=b".toList] (by decide +kernel) (by decide)

end runs

end QGpgME.DnHandles
