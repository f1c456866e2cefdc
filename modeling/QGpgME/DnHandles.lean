import QGpgME.DistinguishedName
import QGpgME.EventRun
import QGpgME.RefCount

/-! Handles on distinguished names. Copies share one body, in which the attribute order and
the reordered attributes are stored as well; only append detaches a handle. -/
namespace QGpgME.DnHandles
open EventRun RefCount Dn
variable {u : UpperCase}

/-- `reorder_dn`: the known attributes in the desired order, with the unknown ones in the
place of the first `_X_`. -/
def reorderDn (dn : List (Attribute u)) (attrOrder : List QString) : List (Attribute u) :=
  let unknownEntries := dn.filter fun attr => !attrOrder.contains attr.name
  (attrOrder.foldl (fun (result, unknownEntries) oit =>
      if oit = "_X_".toList then (result ++ unknownEntries, [])
      else (result ++ dn.filter fun attr => attr.name = oit, unknownEntries))
    ([], unknownEntries)).1

/-- `DN::Private`, without its reference count. -/
structure Private (u : UpperCase) where
  attributes : List (Attribute u)
  reorderedAttributes : List (Attribute u)
  order : List QString

namespace Private

def new : Private u := ⟨[], [], []⟩

def copiedOrder : List QString :=
  ["CN".toList, "L".toList, "_X_".toList, "OU".toList, "O".toList, "C".toList]

/-- The copy constructor, which does not copy the order. -/
def clone (other : Private u) : Private u :=
  ⟨other.attributes, other.reorderedAttributes, copiedOrder⟩

/-- What prettyDN and prettyAttributes do first. -/
def fill (d : Private u) : Private u :=
  if d.reorderedAttributes = [] then
    { d with reorderedAttributes := reorderDn d.attributes d.order }
  else d

def prettyDN (d : Private u) : QString := serialise d.fill.reorderedAttributes [',']

def prettyAttributes (d : Private u) : List QString := listAttributes d.fill.reorderedAttributes

def append (attr : Attribute u) (d : Private u) : Private u :=
  { d with attributes := d.attributes ++ [attr], reorderedAttributes := [] }

def setAttributeOrder (order : List QString) (d : Private u) : Private u :=
  { d with order := order }

end Private

/-- The calls; handles are numbered in the order in which they are constructed. -/
inductive Call (u : UpperCase) where
  | default
  | parse (dn : QString)
  | parseUtf8 (utf8DN : Option QByteArray)
  | copy (other : Nat)
  | assign (this that : Nat)
  | destroy (this : Nat)
  | append (this : Nat) (attr : Attribute u)
  | setAttributeOrder (this : Nat) (order : List QString)
  | prettyDN (this : Nat)
  | prettyAttributes (this : Nat)
  | dn (this : Nat)

/-- A call on a handle that has been destroyed, or was never constructed, cannot be made. -/
def step (s : Store (Private u)) : Call u → Option (Store (Private u))
  | .default => some (s.create .new)
  | .parse dn => some (s.create { Private.new with attributes := parseDn u (QString.toUtf8 dn) })
  | .parseUtf8 none => some (s.create .new)
  | .parseUtf8 (some utf8DN) =>
    some (s.create { Private.new with attributes := parseDn u (utf8DN.takeWhile (· ≠ 0)) })
  | .copy other => s.copy other
  | .assign this that => s.assign this that
  | .destroy this => s.destroy this
  | .append this attr => (s.detach Private.clone this).bind (·.write (Private.append attr) this)
  | .setAttributeOrder this order => s.write (Private.setAttributeOrder order) this
  | .prettyDN this => s.write Private.fill this
  | .prettyAttributes this => s.write Private.fill this
  | .dn this => (s.target this).map fun _ => s

/-- `DN::attributeOrder` -/
def attributeOrder (s : Store (Private u)) (i : Nat) : Option (List QString) :=
  (s.view i).map Private.order

/-- Another handle whose body is deleted in the call, by its count. -/
def Call.orphans (s : Store (Private u)) : Call u → Nat → Bool
  | .assign this that, k => s.target that ≠ none && s.target this ≠ s.target that &&
      s.orphans this k
  | .destroy this, k => s.orphans this k
  | _, _ => false

/-- What the handles show after a call that deletes no body of another handle. -/
def viewAfter (s : Store (Private u)) : Call u → Nat → Option (Private u)
  | .default => Function.update s.view s.handles.length (some .new)
  | .parse dn => Function.update s.view s.handles.length
      (some { Private.new with attributes := parseDn u (QString.toUtf8 dn) })
  | .parseUtf8 none => Function.update s.view s.handles.length (some .new)
  | .parseUtf8 (some utf8DN) => Function.update s.view s.handles.length
      (some { Private.new with attributes := parseDn u (utf8DN.takeWhile (· ≠ 0)) })
  | .copy other => Function.update s.view s.handles.length (s.view other)
  | .assign this that => Function.update s.view this (s.view that)
  | .destroy this => Function.update s.view this none
  | .append this attr => fun k =>
      if 1 < s.refCount this then
        Function.update s.view this (((s.view this).map .clone).map (.append attr)) k
      else if s.target k = s.target this then (s.view k).map (.append attr) else s.view k
  | .setAttributeOrder this order => fun k =>
      if s.target k = s.target this then (s.view k).map (.setAttributeOrder order) else s.view k
  | .prettyDN this => fun k =>
      if s.target k = s.target this then (s.view k).map .fill else s.view k
  | .prettyAttributes this => fun k =>
      if s.target k = s.target this then (s.view k).map .fill else s.view k
  | .dn _ => s.view

theorem step_numbered (s : Store (Private u)) (e : Call u) (t : Store (Private u))
    (h : s.Numbered) (ht : step s e = some t) : t.Numbered := by
  cases e with
  | default =>
    obtain rfl := Option.some.inj ht
    exact h.create _
  | parse dn =>
    obtain rfl := Option.some.inj ht
    exact h.create _
  | parseUtf8 utf8DN =>
    cases utf8DN with
    | none =>
      obtain rfl := Option.some.inj ht
      exact h.create _
    | some utf8DN =>
      obtain rfl := Option.some.inj ht
      exact h.create _
  | copy other => exact h.copy ht
  | assign this that => exact h.assign ht
  | destroy this => exact h.destroy ht
  | append this attr =>
    obtain ⟨v, hv, hvt⟩ := Option.bind_eq_some_iff.mp ht
    exact (h.detach hv).write hvt
  | setAttributeOrder this order => exact h.write ht
  | prettyDN this => exact h.write ht
  | prettyAttributes this => exact h.write ht
  | dn this =>
    obtain ⟨d, -, rfl⟩ := Option.map_eq_some_iff.mp ht
    exact h

theorem view_step {s t : Store (Private u)} {e : Call u} (h : s.Numbered)
    (ht : step s e = some t) (k : Nat) :
    t.view k = if e.orphans s k then none else viewAfter s e k := by
  cases e with
  | default =>
    obtain rfl := Option.some.inj ht
    exact congrFun (Store.view_create h _) k
  | parse dn =>
    obtain rfl := Option.some.inj ht
    exact congrFun (Store.view_create h _) k
  | parseUtf8 utf8DN =>
    cases utf8DN with
    | none =>
      obtain rfl := Option.some.inj ht
      exact congrFun (Store.view_create h _) k
    | some utf8DN =>
      obtain rfl := Option.some.inj ht
      exact congrFun (Store.view_create h _) k
  | copy other => exact congrFun (Store.view_copy ht) k
  | assign this that =>
    obtain ⟨-, y, -, hy, -⟩ := Store.assign_cases ht
    rw [Store.view_assign ht k]
    simp [Call.orphans, hy, viewAfter]
  | destroy this => exact Store.view_destroy ht k
  | append this attr =>
    obtain ⟨v, hv, hvt⟩ := Option.bind_eq_some_iff.mp ht
    exact Store.view_detach_write h hv hvt k
  | setAttributeOrder this order => exact Store.view_write ht k
  | prettyDN this => exact Store.view_write ht k
  | prettyAttributes this => exact Store.view_write ht k
  | dn this =>
    obtain ⟨d, -, rfl⟩ := Option.map_eq_some_iff.mp ht
    rfl

section views

theorem forall_update {P : Private u → Prop} {f : Nat → Option (Private u)} {i : Nat}
    {x : Option (Private u)} (h : ∀ k d, f k = some d → P d) (hx : ∀ d, x = some d → P d) :
    ∀ k d, Function.update f i x k = some d → P d := by
  intro k d hd
  rw [Function.update_apply] at hd
  split_ifs at hd with hk
  · exact hx d hd
  · exact h k d hd

/-- A property that new bodies have, and that bodies keep but for a change of the order. -/
structure Kept (P : Private u → Prop) : Prop where
  new : ∀ attributes, P { Private.new with attributes := attributes }
  append : ∀ attr d, P d → P (d.append attr)
  detach : ∀ attr d, P d → P (d.clone.append attr)
  fill : ∀ d, P d → P d.fill

/-- What all handles show keeps such a property with every call but setAttributeOrder. -/
theorem Kept.step {P : Private u → Prop} (hP : Kept P) {s t : Store (Private u)} {e : Call u}
    (h : s.Numbered) (hs : ∀ i d, s.view i = some d → P d) (ht : step s e = some t)
    (he : ∀ this order, e ≠ .setAttributeOrder this order) : ∀ i d, t.view i = some d → P d := by
  have hnew : ∀ attributes, ∀ k c, Function.update s.view s.handles.length
      (some { Private.new with attributes := attributes }) k = some c → P c := by
    intro attributes
    refine forall_update hs fun c hc => ?_
    obtain rfl := Option.some.inj hc
    exact hP.new attributes
  have hwrite : ∀ {f : Private u → Private u}, (∀ c, P c → P (f c)) → ∀ this, ∀ k d,
      (if s.target k = s.target this then (s.view k).map f else s.view k) = some d → P d := by
    intro f hf this k d hd
    split_ifs at hd
    · obtain ⟨c, hc, rfl⟩ := Option.map_eq_some_iff.mp hd
      exact hf c (hs k c hc)
    · exact hs k d hd
  suffices hafter : ∀ i d, viewAfter s e i = some d → P d by
    intro i d hd
    rw [view_step h ht] at hd
    split_ifs at hd
    exact hafter i d hd
  cases e with
  | default => exact hnew []
  | parse dn => exact hnew _
  | parseUtf8 utf8DN =>
    cases utf8DN with
    | none => exact hnew []
    | some utf8DN => exact hnew _
  | copy other => exact forall_update hs fun d hd => hs other d hd
  | assign this that => exact forall_update hs fun d hd => hs that d hd
  | destroy this => exact forall_update hs fun d hd => by simp at hd
  | append this attr =>
    intro k d hd
    simp only [viewAfter] at hd
    by_cases hshared : 1 < s.refCount this
    · rw [if_pos hshared] at hd
      refine forall_update hs (fun b hb => ?_) k d hd
      obtain ⟨a, ha, rfl⟩ := Option.map_eq_some_iff.mp hb
      obtain ⟨c, hc, rfl⟩ := Option.map_eq_some_iff.mp ha
      exact hP.detach attr c (hs this c hc)
    · rw [if_neg hshared] at hd
      exact hwrite (hP.append attr) this k d hd
  | setAttributeOrder this order => exact absurd rfl (he this order)
  | prettyDN this => exact hwrite hP.fill this
  | prettyAttributes this => exact hwrite hP.fill this
  | dn this => exact hs

end views

section cache

namespace Private

/-- What prettyDN returns fits the attributes and the order. -/
def Coherent (d : Private u) : Prop :=
  d.prettyDN = serialise (reorderDn d.attributes d.order) [',']

theorem coherent_of_empty {d : Private u} (h : d.reorderedAttributes = []) : d.Coherent := by
  simp only [Coherent, prettyDN, fill, h, if_true]

theorem coherent_iff {d : Private u} : d.Coherent ↔ d.reorderedAttributes = [] ∨
    serialise d.reorderedAttributes [','] = serialise (reorderDn d.attributes d.order) [','] := by
  by_cases h : d.reorderedAttributes = []
  · simp [coherent_of_empty h, h]
  · simp [Coherent, prettyDN, fill, h]

theorem coherent_fill {d : Private u} (h : d.Coherent) : d.fill.Coherent := by
  by_cases hempty : d.reorderedAttributes = []
  · refine coherent_iff.mpr (Or.inr ?_)
    simp only [fill, hempty, if_true]
  · simpa only [fill, hempty, if_false] using h

/-- A body that shows its attributes in order goes on doing so in another one if it has not cached
them, or the new order gives them the same form. -/
theorem coherent_setAttributeOrder {d : Private u} (h : d.Coherent) (order : List QString) :
    (d.setAttributeOrder order).Coherent ↔ d.reorderedAttributes = [] ∨
      serialise (reorderDn d.attributes order) [','] =
        serialise (reorderDn d.attributes d.order) [','] := by
  rw [coherent_iff]
  simp only [setAttributeOrder]
  by_cases hempty : d.reorderedAttributes = []
  · exact iff_of_true (Or.inl hempty) (Or.inl hempty)
  · rw [or_iff_right hempty, or_iff_right hempty, (coherent_iff.mp h).resolve_left hempty]
    exact eq_comm

end Private

/-- No handle shows a stale form. -/
def Coherent (s : Store (Private u)) : Prop := ∀ i d, s.view i = some d → d.Coherent

/-- A change of the order finds nothing cached, or the form of the attributes stays the same. -/
def KeepsCache (s : Store (Private u)) : Call u → Prop
  | .setAttributeOrder this order => ∀ d, s.view this = some d → d.reorderedAttributes = [] ∨
      serialise (reorderDn d.attributes order) [','] =
        serialise (reorderDn d.attributes d.order) [',']
  | _ => True

theorem kept_coherent : Kept (Private.Coherent (u := u)) where
  new _ := Private.coherent_of_empty rfl
  append _ _ _ := Private.coherent_of_empty rfl
  detach _ _ _ := Private.coherent_of_empty rfl
  fill _ h := Private.coherent_fill h

theorem step_coherent_iff {s t : Store (Private u)} {e : Call u} (h : s.Numbered)
    (hs : Coherent s) (ht : step s e = some t) : Coherent t ↔ KeepsCache s e := by
  cases e with
  | setAttributeOrder this order =>
    have hview : ∀ k, t.view k = if s.target k = s.target this then
        (s.view k).map (Private.setAttributeOrder order) else s.view k := view_step h ht
    constructor
    · intro hall d hd
      refine (Private.coherent_setAttributeOrder (hs this d hd) order).mp (hall this _ ?_)
      rw [hview, if_pos rfl, hd, Option.map_some]
    · intro hkeep k d hd
      rw [hview] at hd
      split_ifs at hd with hshared
      · obtain ⟨c, hc, rfl⟩ := Option.map_eq_some_iff.mp hd
        have hthis : s.view this = some c := (Store.view_congr hshared.symm).trans hc
        exact (Private.coherent_setAttributeOrder (hs this c hthis) order).mpr (hkeep c hthis)
      · exact hs k d hd
  | _ => exact iff_of_true (kept_coherent.step h hs ht (by simp)) trivial

theorem coherent_empty : Coherent (Store.empty : Store (Private u)) := by
  intro i d hd
  simp [Store.view, Store.target, Store.empty] at hd

/-- In every state of a run prettyDN fits the attributes and the order of each handle, if and
only if no call of setAttributeOrder leaves behind a cached form in another order. -/
theorem coherent_iff_keepsCache (calls : List (Call u)) :
    (∀ n t, run step (calls.take n) Store.empty = some t → Coherent t) ↔
      Along step KeepsCache calls Store.empty := by
  refine forall_states_iff (q := fun _ => True) (fun s e t h _ ht => step_numbered s e t h ht)
    (fun s e t h _ hs ht => step_coherent_iff h hs ht) ?_ Store.numbered_empty coherent_empty
    fun _ _ => trivial
  intro s e hstop
  cases e with
  | setAttributeOrder this order =>
    have hgone : s.target this = none := Option.map_eq_none_iff.mp hstop
    intro d hd
    simp [Store.view, hgone] at hd
  | _ => trivial

/-- The order set last is the one that attributeOrder returns, but not the one of prettyDN. -/
theorem stale_after_setAttributeOrder :
    let calls : List (Call asciiUpper) := [.parse "CN=a,O=b".toList,
      .setAttributeOrder 0 ["CN".toList, "O".toList], .prettyDN 0,
      .setAttributeOrder 0 ["O".toList, "CN".toList]]
    ∃ t d, run step calls Store.empty = some t ∧ t.view 0 = some d ∧
      d.prettyDN = "CN=a,O=b".toList ∧
      serialise (reorderDn d.attributes d.order) [','] = "O=b,CN=a".toList ∧ ¬Coherent t := by
  intro calls
  have hstale : ((run step calls Store.empty).bind fun t => t.view 0).map (fun d =>
      (d.prettyDN, serialise (reorderDn d.attributes d.order) [','])) =
      some ("CN=a,O=b".toList, "O=b,CN=a".toList) := by decide +kernel
  obtain ⟨d, hd, hforms⟩ := Option.map_eq_some_iff.mp hstale
  obtain ⟨t, ht, hview⟩ := Option.bind_eq_some_iff.mp hd
  obtain ⟨hpretty, horder⟩ := Prod.mk.inj hforms
  refine ⟨t, d, ht, hview, hpretty, horder, fun h => ?_⟩
  have hcoherent : d.prettyDN = _ := h 0 d hview
  rw [hpretty, horder] at hcoherent
  exact absurd hcoherent (by decide)

end cache

section order

/-- The handle that a call sets or destroys. -/
def Call.Sets (i : Nat) : Call u → Prop
  | .assign this that => i = this ∧ i ≠ that
  | .destroy this => i = this
  | .setAttributeOrder this _ => i = this
  | _ => False

/-- A call leaves the order of every handle alone but that of the handle that it sets. -/
def OrderFrame (s : Store (Private u)) (e : Call u) : Prop :=
  ∀ t, step s e = some t → ∀ i, s.view i ≠ none → ¬e.Sets i →
    attributeOrder t i = attributeOrder s i

/-- No body is deleted, by its count, while another handle shows it. -/
def LosesNone (s : Store (Private u)) (e : Call u) : Prop :=
  ∀ k, e.orphans s k = true → s.view k = none

/-- A shared body is not deleted and is given no other order, neither by setAttributeOrder nor by
the copy that append makes. -/
def KeepsOrder (s : Store (Private u)) (e : Call u) : Prop :=
  LosesNone s e ∧ match e with
    | .append this _ => ∀ d, s.view this = some d → 1 < s.refCount this →
        d.order = Private.copiedOrder
    | .setAttributeOrder this order => ∀ k d, k ≠ this → s.target k = s.target this →
        s.view this = some d → d.order = order
    | _ => True

theorem exists_append {s : Store (Private u)} {this : Nat} {d : Private u}
    (hd : s.view this = some d) (attr : Attribute u) :
    ∃ t, step s (.append this attr) = some t := by
  obtain ⟨x, hx⟩ := Store.exists_target hd
  obtain ⟨v, hv⟩ : ∃ v, s.detach Private.clone this = some v :=
    ⟨_, by rw [Store.detach, hx, Option.map_some]⟩
  obtain ⟨y, hy⟩ : ∃ y, v.target this = some y := by
    obtain ⟨x, hx, ⟨-, rfl⟩ | ⟨b, -, -, -, rfl⟩⟩ := Store.detach_cases hv
    · exact ⟨x, hx⟩
    · rw [Store.target_set (Store.lt_length_of_target hx), Function.update_self]
      exact ⟨_, rfl⟩
  exact ⟨_, by simp only [step, hv, Option.bind_some, Store.write, hy, Option.map_some]; rfl⟩

theorem exists_setAttributeOrder {s : Store (Private u)} {this : Nat} {d : Private u}
    (hd : s.view this = some d) (order : List QString) :
    ∃ t, step s (.setAttributeOrder this order) = some t := by
  obtain ⟨x, hx⟩ := Store.exists_target hd
  exact ⟨_, by simp only [step, Store.write, hx, Option.map_some]; rfl⟩

theorem Private.order_fill (d : Private u) : d.fill.order = d.order := by
  rw [fill]
  split_ifs
  · rfl
  · rfl

/-- Changing the body of a handle keeps the order that another one shows. -/
theorem order_kept {s : Store (Private u)} {i this : Nat} {f : Private u → Private u}
    (hf : ∀ d, s.view i = some d → (f d).order = d.order) :
    ((if s.target i = s.target this then (s.view i).map f
      else s.view i).map Private.order) = (s.view i).map Private.order := by
  split_ifs
  · rw [Option.map_map]
    exact Option.map_congr fun d hd => hf d hd
  · rfl

theorem orderFrame_of_keepsOrder {s : Store (Private u)} (h : s.Numbered) {e : Call u}
    (hk : KeepsOrder s e) : OrderFrame s e := by
  intro t ht i hi hsets
  obtain ⟨hlose, hk⟩ := hk
  obtain ⟨c, hc⟩ := Option.ne_none_iff_exists'.mp hi
  have hold : i ≠ s.handles.length := Nat.ne_of_lt (Store.lt_length_of_view hc)
  rw [attributeOrder, attributeOrder, view_step h ht, if_neg fun horphan => hi (hlose i horphan)]
  cases e with
  | default => rw [viewAfter, Function.update_of_ne hold]
  | parse dn => rw [viewAfter, Function.update_of_ne hold]
  | parseUtf8 utf8DN =>
    cases utf8DN with
    | none => rw [viewAfter, Function.update_of_ne hold]
    | some utf8DN => rw [viewAfter, Function.update_of_ne hold]
  | copy other => rw [viewAfter, Function.update_of_ne hold]
  | assign this that =>
    by_cases hthis : i = this
    · obtain rfl : i = that := by
        by_contra hne
        exact hsets ⟨hthis, hne⟩
      rw [viewAfter, hthis, Function.update_self]
    · rw [viewAfter, Function.update_of_ne hthis]
  | destroy this => rw [viewAfter, Function.update_of_ne hsets]
  | append this attr =>
    simp only [viewAfter]
    by_cases hshared : 1 < s.refCount this
    · rw [if_pos hshared]
      by_cases hthis : i = this
      · subst hthis
        rw [Function.update_self, hc]
        exact congrArg some (hk c hc hshared).symm
      · rw [Function.update_of_ne hthis]
    · rw [if_neg hshared]
      exact order_kept fun _ _ => rfl
  | setAttributeOrder this order =>
    simp only [viewAfter]
    by_cases hshared : s.target i = s.target this
    · have hview : s.view this = some c := (Store.view_congr hshared.symm).trans hc
      rw [if_pos hshared, hc]
      exact congrArg some (hk i c hsets hshared hview).symm
    · rw [if_neg hshared]
  | prettyDN this => exact order_kept fun d _ => d.order_fill
  | prettyAttributes this => exact order_kept fun d _ => d.order_fill
  | dn this => rfl

theorem exists_orphans {s : Store (Private u)} {e : Call u} {k : Nat}
    (h : e.orphans s k = true) : (∃ t, step s e = some t) ∧ ¬e.Sets k := by
  cases e with
  | assign this that =>
    simp only [Call.orphans, Bool.and_eq_true, decide_eq_true_eq] at h
    obtain ⟨⟨hthat, -⟩, horphan⟩ := h
    obtain ⟨hk, -, x, hx, -⟩ := Store.orphans_iff.mp horphan
    obtain ⟨y, hy⟩ := Option.ne_none_iff_exists'.mp hthat
    exact ⟨⟨_, by rw [step, Store.assign, hx, hy]; rfl⟩, fun hsets => hk hsets.1⟩
  | destroy this =>
    obtain ⟨hk, -, x, hx, -⟩ := Store.orphans_iff.mp h
    exact ⟨⟨_, by rw [step, Store.destroy, hx]; rfl⟩, hk⟩
  | _ => cases h

theorem losesNone_of_orderFrame {s : Store (Private u)} (h : s.Numbered) {e : Call u}
    (hf : OrderFrame s e) : LosesNone s e := by
  intro k horphan
  obtain ⟨⟨t, ht⟩, hsets⟩ := exists_orphans horphan
  by_contra hview
  have horder := hf t ht k hview hsets
  rw [attributeOrder, attributeOrder, view_step h ht, if_pos horphan] at horder
  exact hview (Option.map_eq_none_iff.mp horder.symm)

theorem keepsOrder_of_orderFrame {s : Store (Private u)} (h : s.Numbered) {e : Call u}
    (hf : OrderFrame s e) : KeepsOrder s e := by
  refine ⟨losesNone_of_orderFrame h hf, ?_⟩
  cases e with
  | append this attr =>
    intro d hd hshared
    obtain ⟨t, ht⟩ := exists_append hd attr
    have hview : t.view this = viewAfter s (.append this attr) this := view_step h ht this
    have horder := hf t ht this (by simp [hd]) id
    simp only [attributeOrder, hview, viewAfter, if_pos hshared, Function.update_self, hd] at horder
    exact (Option.some.inj horder).symm
  | setAttributeOrder this order =>
    intro k d hk hkt hd
    obtain ⟨t, ht⟩ := exists_setAttributeOrder hd order
    have hafter : t.view k = viewAfter s (.setAttributeOrder this order) k := view_step h ht k
    have hview : s.view k = some d := (Store.view_congr hkt).trans hd
    have horder := hf t ht k (by simp [hview]) hk
    simp only [attributeOrder, hafter, viewAfter, if_pos hkt, hview] at horder
    exact (Option.some.inj horder).symm
  | _ => trivial

theorem step_orderFrame_iff {s : Store (Private u)} (h : s.Numbered) (e : Call u) :
    OrderFrame s e ↔ KeepsOrder s e :=
  ⟨keepsOrder_of_orderFrame h, orderFrame_of_keepsOrder h⟩

/-- In a run every call keeps the orders of the other handles, and append that of its own
handle, if and only if no shared body is deleted or given another order. -/
theorem orderFrame_iff_keepsOrder (calls : List (Call u)) :
    Along step OrderFrame calls Store.empty ↔ Along step KeepsOrder calls Store.empty :=
  along_congr (fun s e t h _ ht => step_numbered s e t h ht) (fun _ e h => step_orderFrame_iff h e)
    Store.numbered_empty calls

theorem not_orderFrame {calls : List (Call u)} {e : Call u} {i : Nat} {before : List QString}
    (after : List QString) (h : ((run step calls Store.empty).bind fun s => (step s e).map fun t =>
      (attributeOrder s i, attributeOrder t i)) = some (some before, some after))
    (hne : after ≠ before) (hsets : ¬e.Sets i) :
    ∃ s, run step calls Store.empty = some s ∧ attributeOrder s i = some before ∧
      ¬OrderFrame s e := by
  obtain ⟨s, hs, h⟩ := Option.bind_eq_some_iff.mp h
  obtain ⟨t, ht, h⟩ := Option.map_eq_some_iff.mp h
  obtain ⟨hbefore, hafter⟩ := Prod.mk.inj h
  refine ⟨s, hs, hbefore, fun hf => ?_⟩
  have hview : s.view i ≠ none := by
    intro hnone
    simp [attributeOrder, hnone] at hbefore
  have horder := hf t ht i hview hsets
  rw [hbefore, hafter] at horder
  exact hne (Option.some.inj horder)

/-- The order set on one handle shows in its copy, and a copy loses its order with the first
attribute appended to it. -/
theorem order_not_kept :
    let calls : List (Call asciiUpper) := [.parse "CN=a".toList, .copy 0]
    (∃ s, run step calls Store.empty = some s ∧ attributeOrder s 1 = some [] ∧
      ¬OrderFrame s (.setAttributeOrder 0 ["CN".toList])) ∧
    ∃ s, run step calls Store.empty = some s ∧ attributeOrder s 1 = some [] ∧
      ¬OrderFrame s (.append 1 (.new asciiUpper "O".toList "b".toList)) := by
  intro calls
  constructor
  · refine not_orderFrame ["CN".toList] (by decide +kernel) (by decide) ?_
    exact Nat.one_ne_zero
  · exact not_orderFrame Private.copiedOrder (by decide +kernel) (by decide) id

end order

section counts
variable {s t : Store (Private u)} {e : Call u}

/-- A call that takes the handle off its body: a destruction or an assignment. -/
def Call.Releases (i : Nat) : Call u → Prop
  | .assign this _ => i = this
  | .destroy this => i = this
  | _ => False

/-- There is an int for each handle on a body. -/
def HasRoom (s : Store (Private u)) : Call u → Prop
  | .copy other => s.HasRoom other
  | .assign this that => ∀ d, s.target this = some d → s.target that = some d ∨ s.HasRoom that
  | _ => True

/-- The counts survive a call exactly where an int can count the handles. -/
theorem step_wf_iff (h : s.WF) (ht : step s e = some t) : t.WF ↔ HasRoom s e := by
  cases e with
  | default =>
    obtain rfl := Option.some.inj ht
    exact iff_of_true (h.create _) trivial
  | parse dn =>
    obtain rfl := Option.some.inj ht
    exact iff_of_true (h.create _) trivial
  | parseUtf8 utf8DN =>
    cases utf8DN with
    | none =>
      obtain rfl := Option.some.inj ht
      exact iff_of_true (h.create _) trivial
    | some utf8DN =>
      obtain rfl := Option.some.inj ht
      exact iff_of_true (h.create _) trivial
  | copy other => exact h.copy_iff ht
  | assign this that =>
    obtain ⟨x, y, hx, hy, -⟩ := Store.assign_cases ht
    rw [h.assign_iff ht, hx]
    simp [HasRoom, hx, eq_comm]
  | destroy this => exact iff_of_true (h.destroy ht) trivial
  | append this attr =>
    obtain ⟨v, hv, hvt⟩ := Option.bind_eq_some_iff.mp ht
    exact iff_of_true ((h.detach hv).write hvt) trivial
  | setAttributeOrder this order => exact iff_of_true (h.write ht) trivial
  | prettyDN this => exact iff_of_true (h.write ht) trivial
  | prettyAttributes this => exact iff_of_true (h.write ht) trivial
  | dn this =>
    obtain ⟨d, -, rfl⟩ := Option.map_eq_some_iff.mp ht
    exact iff_of_true h trivial

/-- A released reference that is the last one by the count takes the body with it. -/
theorem mem_freed_unref_iff {i x d : Nat} (h : s.WF) (hi : s.target i = some x)
    {m : Memory (Private u)} (hm : m.lastRef x = s.memory.lastRef x)
    (hfreed : m.freed = s.memory.freed) (hd : d ∉ s.memory.freed) :
    d ∈ (m.unref x).freed ↔ s.target i = some d ∧ s.refCount i = 1 := by
  rw [Memory.freed_unref, hm, hfreed, ← h.lastRef_iff hi, hi, Option.some.injEq]
  split_ifs with hlast
  · rw [List.mem_append, or_iff_right hd, List.mem_singleton, and_iff_left hlast, eq_comm]
  · exact iff_of_false hd fun hone => hlast hone.2

theorem step_freed_iff (h : s.WF) (ht : step s e = some t) {d : Nat} (hd : d ∉ s.memory.freed) :
    d ∈ t.memory.freed ↔ ∃ i, e.Releases i ∧ s.target i = some d ∧ s.refCount i = 1 ∧
      t.target i ≠ some d := by
  have hkeep : t.memory.freed = s.memory.freed → (∀ i, ¬e.Releases i) → (d ∈ t.memory.freed ↔
      ∃ i, e.Releases i ∧ s.target i = some d ∧ s.refCount i = 1 ∧ t.target i ≠ some d) := by
    intro hfreed hnone
    rw [hfreed]
    exact iff_of_false hd fun ⟨i, hi, _⟩ => hnone i hi
  cases e with
  | default =>
    obtain rfl := Option.some.inj ht
    exact hkeep rfl fun _ => id
  | parse dn =>
    obtain rfl := Option.some.inj ht
    exact hkeep rfl fun _ => id
  | parseUtf8 utf8DN =>
    cases utf8DN with
    | none =>
      obtain rfl := Option.some.inj ht
      exact hkeep rfl fun _ => id
    | some utf8DN =>
      obtain rfl := Option.some.inj ht
      exact hkeep rfl fun _ => id
  | copy other =>
    obtain ⟨x, -, rfl⟩ := Option.map_eq_some_iff.mp ht
    exact hkeep rfl fun _ => id
  | assign this that =>
    simp only [Call.Releases, exists_eq_left]
    obtain ⟨x, y, hx, hy, ⟨-, rfl⟩ | ⟨hne, rfl⟩⟩ := Store.assign_cases ht
    · exact iff_of_false hd fun hlast => hlast.2.2 hlast.1
    · have hset : ∀ {m : Memory (Private u)},
          (Store.mk m (s.handles.set this (some y))).target this = some y := by
        intro m
        rw [Store.target_set (Store.lt_length_of_target hx), Function.update_self]
      rw [mem_freed_unref_iff h hx (Store.lastRef_ref hne) rfl hd, hset]
      refine and_congr_right fun hxd => (and_iff_left ?_).symm
      obtain rfl : x = d := Option.some.inj (hx.symm.trans hxd)
      exact fun heq => hne (Option.some.inj heq).symm
  | destroy this =>
    simp only [Call.Releases, exists_eq_left]
    obtain ⟨x, hx, rfl⟩ := Option.map_eq_some_iff.mp ht
    have hset : (Store.mk (s.memory.unref x) (s.handles.set this none)).target this = none := by
      rw [Store.target_set (Store.lt_length_of_target hx), Function.update_self]
    rw [mem_freed_unref_iff h hx rfl rfl hd, hset]
    simp
  | append this attr =>
    obtain ⟨v, hv, hvt⟩ := Option.bind_eq_some_iff.mp ht
    obtain ⟨y, -, rfl⟩ := Option.map_eq_some_iff.mp hvt
    obtain ⟨x, hx, ⟨-, rfl⟩ | ⟨b, hb, hmore, -, rfl⟩⟩ := Store.detach_cases hv
    · exact hkeep rfl fun _ => id
    · refine hkeep ?_ fun _ => id
      have hfresh : x ≠ s.memory.fresh := Balanced.not_fresh h (h.alive hx)
      have hlast : (s.memory.create (Private.clone b.content)).lastRef x = false := by
        refine Memory.not_lastRef_of_shared (b := b) ?_ hmore
        rw [Memory.body_create, if_neg hfresh, hb]
      show ((s.memory.create (Private.clone b.content)).unref x).freed = _
      rw [Memory.freed_unref, hlast, if_neg Bool.false_ne_true]
      rfl
  | setAttributeOrder this order =>
    obtain ⟨x, -, rfl⟩ := Option.map_eq_some_iff.mp ht
    exact hkeep rfl fun _ => id
  | prettyDN this =>
    obtain ⟨x, -, rfl⟩ := Option.map_eq_some_iff.mp ht
    exact hkeep rfl fun _ => id
  | prettyAttributes this =>
    obtain ⟨x, -, rfl⟩ := Option.map_eq_some_iff.mp ht
    exact hkeep rfl fun _ => id
  | dn this =>
    obtain ⟨x, -, rfl⟩ := Option.map_eq_some_iff.mp ht
    exact hkeep rfl fun _ => id

/-- An append writes to a body of a single handle, and no other handle shows the change. -/
def AppendsAlone (s : Store (Private u)) : Prop :=
  ∀ this attr t, step s (.append this attr) = some t →
    (∃ v, s.detach Private.clone this = some v ∧ v.refCount this = 1 ∧
      v.write (Private.append attr) this = some t) ∧
    (∀ d, t.memory.content d ≠ s.memory.content d →
      d = s.memory.fresh ∨ s.target this = some d ∧ s.refCount this = 1) ∧
    ∀ k, k ≠ this → t.view k = s.view k

theorem appendsAlone (h : s.WF) (hs : s.Numbered) : AppendsAlone s := by
  intro this attr t ht
  have hview : ∀ k, t.view k = viewAfter s (.append this attr) k := view_step hs ht
  obtain ⟨v, hv, hvt⟩ := Option.bind_eq_some_iff.mp ht
  refine ⟨⟨v, hv, Store.refCount_detach h hs hv, hvt⟩,
    fun d hd => Store.content_detach_write h hs hv hvt hd, fun k hk => ?_⟩
  simp only [hview, viewAfter]
  obtain ⟨x, hx, -⟩ := Store.detach_cases hv
  by_cases hshared : 1 < s.refCount this
  · rw [if_pos hshared, Function.update_of_ne hk]
  · rw [if_neg hshared, if_neg]
    intro hsame
    exact hshared ((h.shared_iff hx).mpr ⟨k, hk, hsame.trans hx⟩)

/-- The bodies count their handles, and a body is deleted once, with the last of these; an append
shows in one handle only. -/
structure Agrees (s : Store (Private u)) : Prop where
  counted : ∀ d b, s.memory.body d = some b → b.refCount.toInt = s.handles.count (some d)
  live : ∀ d, s.memory.body d ≠ none ↔ ∃ i, s.target i = some d
  not_freed : ∀ i d, s.target i = some d → d ∉ s.memory.freed
  freedOnce : s.memory.freed.Nodup
  freed_iff : ∀ d, d ∈ s.memory.freed ↔ d < s.memory.fresh ∧ ∀ i, s.target i ≠ some d
  freed_with_last : ∀ e t, step s e = some t → ∀ d, d ∉ s.memory.freed → (d ∈ t.memory.freed ↔
    ∃ i, e.Releases i ∧ s.target i = some d ∧ s.refCount i = 1 ∧ t.target i ≠ some d)
  append : AppendsAlone s

theorem agrees_iff (hs : s.Numbered) : Agrees s ↔ s.WF := by
  constructor
  · intro h
    have hgone : ∀ d, s.memory.body d = none ↔ ∀ i, s.target i ≠ some d := by
      intro d
      rw [← not_iff_not, ← Ne, h.live d]
      simp
    refine ⟨fun d b hb => ⟨h.counted d b hb, ?_⟩, fun d hd => ?_, hs.fresh, h.freedOnce,
      fun d => ?_⟩
    · rw [List.count_pos_iff, Store.mem_handles_iff, ← h.live d, hb]
      simp
    · rw [List.count_eq_zero, Store.mem_handles_iff, ← h.live d, hd]
      simp
    · rw [h.freed_iff, hgone]
  · intro h
    have hgone : ∀ d, s.memory.body d = none ↔ ∀ i, s.target i ≠ some d := by
      intro d
      rw [← not_iff_not, ← Ne, h.body_iff]
      simp
    exact {
      counted := fun d b hb => (Balanced.counted h d b hb).1
      live := fun d => h.body_iff
      not_freed := fun i d hd hfreed => h.alive hd ((Balanced.freed_iff h d).mp hfreed).2
      freedOnce := Balanced.freedOnce h
      freed_iff := fun d => by rw [Balanced.freed_iff h d, hgone]
      freed_with_last := fun e t ht d hd => step_freed_iff h ht hd
      append := appendsAlone h hs }

/-- Copies of the one handle of a body. -/
theorem run_copies (c : Private u) (count : Int32) (n : Nat) (m : Memory (Private u))
    (hs : List (Option Nat)) (hhs : (Store.mk m hs).target 0 = some 0)
    (hm : m.body 0 = some ⟨c, count⟩) :
    ∃ m', run step (List.replicate n (.copy 0)) ⟨m, hs⟩ =
        some ⟨m', hs ++ List.replicate n (some 0)⟩ ∧
      m'.body 0 = some ⟨c, count + .ofNat n⟩ := by
  induction n generalizing m hs count with
  | zero =>
    refine ⟨m, by simp [run], ?_⟩
    rw [hm]
    exact congrArg (fun n => some (Body.mk c n)) (Int32.add_zero count).symm
  | succ n ih =>
    have hcopy : step ⟨m, hs⟩ (.copy 0) = some ⟨m.ref 0, hs ++ [some 0]⟩ := by
      rw [step, Store.copy, hhs]
      rfl
    have htarget : (Store.mk (m.ref 0) (hs ++ [some 0])).target 0 = some 0 := by
      have hlt := Store.lt_length_of_target hhs
      rw [Store.target_append, Function.update_of_ne (Nat.ne_of_lt hlt)]
      exact hhs
    have hbody : (m.ref 0).body 0 = some ⟨c, count + 1⟩ := by
      rw [Memory.ref, Memory.body_modify, if_pos rfl, hm]
      rfl
    obtain ⟨m', hrun, hm'⟩ := ih (count + 1) (m.ref 0) (hs ++ [some 0]) htarget hbody
    refine ⟨m', ?_, ?_⟩
    · rw [List.replicate_succ, run, hcopy, Option.bind_some, hrun, List.append_assoc]
      rfl
    · rw [hm', Int32.add_assoc, Nat.add_comm, Int32.ofNat_add]
      rfl

/-- In every state of a run the counts agree with the handles, if and only if no body gets more
handles than an int can count. -/
theorem refCounts_agree_iff (calls : List (Call u)) :
    (∀ n t, run step (calls.take n) Store.empty = some t → Agrees t) ↔
      Along step HasRoom calls Store.empty := by
  refine forall_states_iff (q := fun _ => True) (fun s e t h _ ht => step_numbered s e t h ht)
    (fun s e t h _ hs ht => ?_) (fun s e hstop => ?_) Store.numbered_empty
    ((agrees_iff Store.numbered_empty).mpr Store.wf_empty) fun _ _ => trivial
  · rw [agrees_iff (step_numbered s e t h ht)]
    exact step_wf_iff ((agrees_iff h).mp hs) ht
  · cases e with
    | copy other =>
      have hgone : s.target other = none := Option.map_eq_none_iff.mp hstop
      intro d hd
      simp [hgone] at hd
    | assign this that =>
      intro x hx
      refine Or.inr fun y hy => ?_
      simp [step, Store.assign, hx, hy] at hstop
    | _ => trivial

/-- A body with so many handles that no int is their number. -/
theorem refCounts_overflow :
    let calls : List (Call asciiUpper) := .default :: List.replicate (2 ^ 31 - 1) (.copy 0)
    ∃ s b, run step calls Store.empty = some s ∧ s.handles.count (some 0) = 2 ^ 31 ∧
      s.memory.body 0 = some b ∧ b.refCount.toInt = -2 ^ 31 ∧ ¬Agrees s := by
  intro calls
  have hfirst : ∀ copies : List (Call asciiUpper), run step (.default :: copies) Store.empty =
      run step copies ⟨Memory.empty.create .new, [some 0]⟩ := fun _ => rfl
  obtain ⟨m, hrun, hbody⟩ := run_copies (.new : Private asciiUpper) 1 (2 ^ 31 - 1)
    (Memory.empty.create .new) [some 0] rfl rfl
  have hcount : ([some 0] ++ List.replicate (2 ^ 31 - 1) (some 0)).count (some 0) = 2 ^ 31 := by
    rw [List.count_append, List.count_replicate_self]
    rfl
  have hint : ((1 : Int32) + .ofNat (2 ^ 31 - 1)).toInt = -2 ^ 31 := by decide
  refine ⟨_, _, (hfirst _).trans hrun, hcount, hbody, hint, fun h => ?_⟩
  have hsame := h.counted 0 _ hbody
  rw [hint, hcount] at hsame
  omega

end counts

end QGpgME.DnHandles
