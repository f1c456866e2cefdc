import Mathlib.Algebra.GroupWithZero.Nat
import Mathlib.Data.List.Nodup
import Mathlib.Logic.Function.Basic
import Mathlib.Tactic.SplitIfs

/-! Bodies that carry their own reference count and the handles that share them: a handle is
copied by counting one more reference, a body is deleted with its last reference, and a handle
is detached from a shared body before it is changed. Independent of what a body holds. -/
namespace QGpgME.RefCount
variable {α : Type*}

structure Body (α : Type*) where
  content : α
  refCount : Int32

/-- A body is there from its allocation until it is deleted; `freed` lists the deletions. -/
structure Memory (α : Type*) where
  body : Nat → Option (Body α)
  fresh : Nat
  freed : List Nat

namespace Memory

def empty : Memory α := ⟨fun _ => none, 0, []⟩

/-- A new body, to which nothing refers yet. -/
def alloc (m : Memory α) (c : α) : Memory α :=
  { m with body := Function.update m.body m.fresh (some ⟨c, 0⟩), fresh := m.fresh + 1 }

def modify (m : Memory α) (d : Nat) (f : Body α → Body α) : Memory α :=
  { m with body := Function.update m.body d ((m.body d).map f) }

def ref (m : Memory α) (d : Nat) : Memory α :=
  m.modify d fun b => { b with refCount := b.refCount + 1 }

def delete (m : Memory α) (d : Nat) : Memory α :=
  { m with body := Function.update m.body d none, freed := m.freed ++ [d] }

/-- The count says that the reference that is released is the last one. -/
def lastRef (m : Memory α) (d : Nat) : Bool :=
  match m.body d with
  | none => true
  | some b => b.refCount - 1 ≤ 0

/-- To release a reference to a body that is gone deletes it once more. -/
def unref (m : Memory α) (d : Nat) : Memory α :=
  if m.lastRef d then m.delete d else m.modify d fun b => { b with refCount := b.refCount - 1 }

/-- A new body with its first reference. -/
def create (m : Memory α) (c : α) : Memory α := (m.alloc c).ref m.fresh

def content (m : Memory α) (d : Nat) : Option α := (m.body d).map Body.content

theorem body_modify (m : Memory α) (d : Nat) (f : Body α → Body α) (x : Nat) :
    (m.modify d f).body x = if x = d then (m.body x).map f else m.body x := by
  simp only [modify, Function.update_apply]
  split_ifs with h
  · rw [h]
  · rfl

theorem body_delete (m : Memory α) (d x : Nat) :
    (m.delete d).body x = if x = d then none else m.body x :=
  Function.update_apply _ _ _ _

theorem body_create (m : Memory α) (c : α) (x : Nat) :
    (m.create c).body x = if x = m.fresh then some ⟨c, 1⟩ else m.body x := by
  rw [create, ref, body_modify]
  simp only [alloc, Function.update_apply]
  split_ifs
  · rfl
  · rfl

theorem content_ref (m : Memory α) (d : Nat) : (m.ref d).content = m.content := by
  funext x
  rw [content, content, ref, body_modify]
  split_ifs
  · rw [Option.map_map]
    rfl
  · rfl

theorem content_create (m : Memory α) (c : α) :
    (m.create c).content = Function.update m.content m.fresh (some c) := by
  funext x
  rw [content, body_create, Function.update_apply]
  split_ifs
  · rfl
  · rfl

theorem content_modify {f : Body α → Body α} {g : α → α} (h : ∀ b, (f b).content = g b.content)
    (m : Memory α) (d x : Nat) :
    (m.modify d f).content x = if x = d then (m.content x).map g else m.content x := by
  rw [content, content, body_modify]
  split_ifs
  · rw [Option.map_map, Option.map_map]
    exact congrArg (Option.map · (m.body x)) (funext h)
  · rfl

/-- Releasing a reference deletes the body or counts down. -/
theorem body_unref (m : Memory α) (d x : Nat) :
    (m.unref d).body x = if x = d then
      if m.lastRef d then none
      else (m.body x).map fun b => { b with refCount := b.refCount - 1 }
      else m.body x := by
  rw [unref]
  split_ifs with hlast hx hx
  · rw [body_delete, if_pos hx]
  · rw [body_delete, if_neg hx]
  · rw [body_modify, if_pos hx]
  · rw [body_modify, if_neg hx]

theorem content_unref (m : Memory α) (d x : Nat) :
    (m.unref d).content x = if x = d ∧ m.lastRef d then none else m.content x := by
  rw [content, content, body_unref]
  by_cases hx : x = d
  · by_cases hlast : m.lastRef d = true
    · simp [hx, hlast]
    · rw [if_pos hx, if_neg hlast, if_neg (fun h => hlast h.2), Option.map_map]
      rfl
  · rw [if_neg hx, if_neg fun h => hx h.1]

theorem fresh_unref (m : Memory α) (d : Nat) : (m.unref d).fresh = m.fresh := by
  rw [unref]
  split_ifs
  · rfl
  · rfl

theorem freed_unref (m : Memory α) (d : Nat) :
    (m.unref d).freed = if m.lastRef d then m.freed ++ [d] else m.freed := by
  rw [unref]
  split_ifs
  · rfl
  · rfl

theorem lastRef_congr {m m' : Memory α} {d : Nat} (h : m'.body d = m.body d) :
    m'.lastRef d = m.lastRef d := by
  rw [lastRef, lastRef, h]

/-- One of several references is not the last one. -/
theorem not_lastRef_of_shared {m : Memory α} {d : Nat} {b : Body α} (hb : m.body d = some b)
    (hshared : b.refCount > 1) : m.lastRef d = false := by
  have hlt := Int32.lt_iff_toInt_lt.mp hshared
  have hbound := b.refCount.toInt_lt
  rw [Int32.toInt_one] at hlt
  rw [lastRef, hb]
  refine decide_eq_false fun hle => ?_
  rw [Int32.le_iff_toInt_le, Int32.toInt_sub, Int32.toInt_one, Int32.toInt_zero,
    Int.bmod_eq_of_le (by omega) (by omega)] at hle
  omega

/-- A count of at least one tells the last reference from the others. -/
theorem lastRef_iff {m : Memory α} {d : Nat} {b : Body α} (hb : m.body d = some b)
    (hpos : 0 < b.refCount.toInt) : m.lastRef d = true ↔ b.refCount.toInt = 1 := by
  have hbound := b.refCount.toInt_lt
  rw [lastRef, hb]
  simp only [decide_eq_true_eq]
  rw [Int32.le_iff_toInt_le, Int32.toInt_sub, Int32.toInt_one, Int32.toInt_zero,
    Int.bmod_eq_of_le (by omega) (by omega)]
  omega

end Memory

/-- Every body counts the references to it, as given, and has at least one; what is deleted
has none and has been deleted once. -/
structure Balanced (m : Memory α) (refs : Nat → Nat) : Prop where
  counted : ∀ d b, m.body d = some b → b.refCount.toInt = refs d ∧ 0 < refs d
  gone : ∀ d, m.body d = none → refs d = 0
  fresh : ∀ d, m.fresh ≤ d → m.body d = none
  freedOnce : m.freed.Nodup
  freed_iff : ∀ d, d ∈ m.freed ↔ d < m.fresh ∧ m.body d = none

section balance
variable {m : Memory α} {refs : Nat → Nat}

theorem balanced_empty : Balanced (Memory.empty : Memory α) fun _ => 0 :=
  ⟨by simp [Memory.empty], fun _ _ => rfl, fun _ _ => rfl, List.nodup_nil, by simp [Memory.empty]⟩

theorem Balanced.refs_pos_iff (h : Balanced m refs) {d : Nat} : 0 < refs d ↔ m.body d ≠ none := by
  constructor
  · intro hpos hnone
    have := h.gone d hnone
    omega
  · intro hne
    obtain ⟨b, hb⟩ := Option.ne_none_iff_exists'.mp hne
    exact (h.counted d b hb).2

theorem Balanced.not_fresh (h : Balanced m refs) {d : Nat} (hd : m.body d ≠ none) :
    d ≠ m.fresh := by
  intro heq
  exact hd (h.fresh d (Nat.le_of_eq heq.symm))

theorem Balanced.create (h : Balanced m refs) (c : α) :
    Balanced (m.create c) fun x => refs x + if x = m.fresh then 1 else 0 := by
  have hfresh := h.gone m.fresh (h.fresh m.fresh (Nat.le_refl _))
  refine ⟨fun d b hb => ?_, fun d hd => ?_, fun d hd => ?_, h.freedOnce, fun d => ?_⟩
  · rw [Memory.body_create] at hb
    split_ifs at hb with hx
    · obtain rfl := Option.some.inj hb
      simp [hx, hfresh]
    · simpa [hx] using h.counted d b hb
  · rw [Memory.body_create] at hd
    split_ifs at hd with hx
    simpa [hx] using h.gone d hd
  · have hd : m.fresh + 1 ≤ d := hd
    rw [Memory.body_create, if_neg (by omega)]
    exact h.fresh d (by omega)
  · have hfreed := h.freed_iff d
    rw [Memory.body_create]
    show d ∈ m.freed ↔ d < m.fresh + 1 ∧ _
    split_ifs with hx
    · subst hx
      simp [hfreed]
    · rw [hfreed]
      constructor
      · intro ⟨hlt, hd⟩
        exact ⟨by omega, hd⟩
      · intro ⟨hlt, hd⟩
        exact ⟨by omega, hd⟩

/-- A change of one body that keeps its count in step with its references. -/
theorem Balanced.modify (h : Balanced m refs) {d : Nat} {f : Body α → Body α}
    {refs' : Nat → Nat} (hsame : ∀ x, x ≠ d → refs' x = refs x)
    (hgone : m.body d = none → refs' d = 0)
    (hcount : ∀ b, m.body d = some b → (f b).refCount.toInt = refs' d ∧ 0 < refs' d) :
    Balanced (m.modify d f) refs' := by
  refine ⟨fun x b hb => ?_, fun x hx => ?_, fun x hx => ?_, h.freedOnce, fun x => ?_⟩
  · rw [Memory.body_modify] at hb
    split_ifs at hb with hxd
    · subst hxd
      obtain ⟨b', hb', rfl⟩ := Option.map_eq_some_iff.mp hb
      exact hcount b' hb'
    · rw [hsame x hxd]
      exact h.counted x b hb
  · rw [Memory.body_modify] at hx
    split_ifs at hx with hxd
    · subst hxd
      exact hgone (Option.map_eq_none_iff.mp hx)
    · rw [hsame x hxd]
      exact h.gone x hx
  · rw [Memory.body_modify]
    have := h.fresh x hx
    split_ifs
    · rw [this]
      rfl
    · exact this
  · rw [Memory.body_modify]
    have := h.freed_iff x
    split_ifs
    · rw [Option.map_eq_none_iff]
      exact this
    · exact this

/-- One more reference is counted as long as there is an int for it. -/
theorem Balanced.ref (h : Balanced m refs) {d : Nat} (hd : m.body d ≠ none)
    (hroom : refs d < 2 ^ 31 - 1) :
    Balanced (m.ref d) fun x => refs x + if x = d then 1 else 0 := by
  refine h.modify (fun x hx => by simp [hx]) (fun hnone => absurd hnone hd) fun b hb => ?_
  obtain ⟨hcount, -⟩ := h.counted d b hb
  simp only [if_true]
  rw [Int32.toInt_add, Int32.toInt_one, hcount, Int.bmod_eq_of_le (by omega) (by omega)]
  omega

theorem Balanced.delete (h : Balanced m refs) {d : Nat} (hd : m.body d ≠ none) {refs' : Nat → Nat}
    (hsame : ∀ x, x ≠ d → refs' x = refs x) (hzero : refs' d = 0) :
    Balanced (m.delete d) refs' := by
  have hlt : d < m.fresh := Nat.lt_of_not_le fun hle => hd (h.fresh d hle)
  refine ⟨fun x b hb => ?_, fun x hx => ?_, fun x hx => ?_, ?_, fun x => ?_⟩
  · rw [Memory.body_delete] at hb
    split_ifs at hb with hxd
    rw [hsame x hxd]
    exact h.counted x b hb
  · rw [Memory.body_delete] at hx
    split_ifs at hx with hxd
    · rw [hxd]
      exact hzero
    · rw [hsame x hxd]
      exact h.gone x hx
  · rw [Memory.body_delete]
    split_ifs
    · rfl
    · exact h.fresh x hx
  · have hnot : d ∉ m.freed := fun hmem => hd ((h.freed_iff d).mp hmem).2
    exact List.nodup_append.mpr ⟨h.freedOnce, List.nodup_singleton d, by
      intro x hx y hy hxy
      rw [List.mem_singleton.mp hy] at hxy
      exact hnot (hxy ▸ hx)⟩
  · rw [Memory.body_delete]
    show x ∈ m.freed ++ [d] ↔ x < m.fresh ∧ _
    rw [List.mem_append, List.mem_singleton, h.freed_iff x]
    split_ifs with hxd
    · simp [hxd, hlt]
    · simp [hxd]

theorem Balanced.unref (h : Balanced m refs) {d : Nat} (hd : 0 < refs d) :
    Balanced (m.unref d) fun x => refs x - if x = d then 1 else 0 := by
  have hbody := h.refs_pos_iff.mp hd
  obtain ⟨b, hb⟩ := Option.ne_none_iff_exists'.mp hbody
  obtain ⟨hcount, -⟩ := h.counted d b hb
  have hbound := b.refCount.toInt_lt
  have hlast := Memory.lastRef_iff hb (by omega)
  rw [Memory.unref]
  by_cases hone : m.lastRef d = true
  · rw [if_pos hone]
    have hone := hlast.mp hone
    refine h.delete hbody (fun x hx => by simp [hx]) ?_
    simp only [if_true]
    omega
  · rw [if_neg hone]
    have hmore := hlast.not.mp hone
    refine h.modify (fun x hx => by simp [hx]) (fun hnone => absurd hnone hbody) fun c hc => ?_
    obtain rfl : b = c := Option.some.inj (hb.symm.trans hc)
    simp only [if_true]
    rw [Int32.toInt_sub, Int32.toInt_one, hcount, Int.bmod_eq_of_le (by omega) (by omega)]
    omega

end balance

/-- The handles, numbered; each points to a body until it is destroyed. -/
structure Store (α : Type*) where
  memory : Memory α
  handles : List (Option Nat)

namespace Store

def empty : Store α := ⟨.empty, []⟩

def target (s : Store α) (i : Nat) : Option Nat := (getElem? s.handles i).join

/-- What a handle shows. -/
def view (s : Store α) (i : Nat) : Option α := (s.target i).bind s.memory.content

def refCount (s : Store α) (i : Nat) : Int :=
  ((s.target i).bind s.memory.body).elim 0 fun b => b.refCount.toInt

/-- A new handle on a new body. -/
def create (s : Store α) (c : α) : Store α :=
  ⟨s.memory.create c, s.handles ++ [some s.memory.fresh]⟩

/-- A new handle on the body of another one. -/
def copy (s : Store α) (i : Nat) : Option (Store α) :=
  (s.target i).map fun d => ⟨s.memory.ref d, s.handles ++ [some d]⟩

/-- Assigns handle `j` to handle `i`. -/
def assign (s : Store α) (i j : Nat) : Option (Store α) :=
  (s.target i).bind fun this => (s.target j).map fun that =>
    if this = that then s
    else ⟨(s.memory.ref that).unref this, s.handles.set i (some that)⟩

def destroy (s : Store α) (i : Nat) : Option (Store α) :=
  (s.target i).map fun d => ⟨s.memory.unref d, s.handles.set i none⟩

/-- Gives a handle on a shared body a body of its own, made by `clone`. -/
def detach (s : Store α) (clone : α → α) (i : Nat) : Option (Store α) :=
  (s.target i).map fun d => match s.memory.body d with
    | none => s
    | some b =>
      if b.refCount > 1 then
        ⟨(s.memory.create (clone b.content)).unref d, s.handles.set i (some s.memory.fresh)⟩
      else s

/-- Changes the body of a handle in place. -/
def write (s : Store α) (f : α → α) (i : Nat) : Option (Store α) :=
  (s.target i).map fun d =>
    ⟨s.memory.modify d fun b => { b with content := f b.content }, s.handles⟩

/-- There is an int for one more handle on the body. -/
def HasRoom (s : Store α) (i : Nat) : Prop :=
  ∀ d, s.target i = some d → s.handles.count (some d) < 2 ^ 31 - 1

/-- Another handle on the body of handle `i`, which goes with that one by its count. -/
def orphans (s : Store α) (i k : Nat) : Bool :=
  k ≠ i && s.target k = s.target i && (s.target i).any s.memory.lastRef

/-- No handle points to what is not yet allocated. -/
structure Numbered (s : Store α) : Prop where
  fresh : ∀ d, s.memory.fresh ≤ d → s.memory.body d = none
  targets : ∀ i d, s.target i = some d → d < s.memory.fresh

/-- The counts of all bodies agree with the handles that point to them. -/
def WF (s : Store α) : Prop := Balanced s.memory fun d => s.handles.count (some d)

section handles
variable {hs : List (Option Nat)} {m : Memory α} {i d : Nat}

theorem target_eq_some_iff {s : Store α} :
    s.target i = some d ↔ getElem? s.handles i = some (some d) := Option.join_eq_some_iff

theorem mem_handles_iff {s : Store α} : some d ∈ s.handles ↔ ∃ i, s.target i = some d := by
  rw [List.mem_iff_getElem?]
  exact exists_congr fun i => target_eq_some_iff.symm

theorem count_append_some (d x : Nat) :
    (hs ++ [some d]).count (some x) = hs.count (some x) + if x = d then 1 else 0 := by
  rw [List.count_append, List.count_singleton]
  congr 1
  by_cases h : x = d
  · simp [h]
  · simp [h, Ne.symm h]

theorem count_set_some (hi : getElem? hs i = some (some d)) (y : Option Nat) (x : Nat) :
    (hs.set i y).count (some x) + (if x = d then 1 else 0) =
      hs.count (some x) + if y = some x then 1 else 0 := by
  obtain ⟨hlt, hget⟩ := List.getElem?_eq_some_iff.mp hi
  rw [List.count_set hlt, hget]
  by_cases hx : x = d
  · subst hx
    have hpos : 0 < hs.count (some x) := List.count_pos_iff.mpr (List.mem_of_getElem? hi)
    simp only [beq_self_eq_true, if_true, beq_iff_eq]
    omega
  · simp [hx, Ne.symm hx]

theorem target_append (y : Option Nat) :
    (mk m (hs ++ [y])).target = Function.update (mk m hs).target hs.length y := by
  funext k
  rw [Function.update_apply, target, target]
  split_ifs with hk
  · rw [hk, List.getElem?_concat_length]
    rfl
  · by_cases hlt : k < hs.length
    · rw [List.getElem?_append_left hlt]
    · have hlen : hs.length + 1 ≤ k := by omega
      have hout : hs.length ≤ k := by omega
      rw [List.getElem?_eq_none (by simpa using hlen), List.getElem?_eq_none hout]

theorem target_set (hi : i < hs.length) (y : Option Nat) :
    (mk m (hs.set i y)).target = Function.update (mk m hs).target i y := by
  funext k
  rw [Function.update_apply, target, target]
  split_ifs with hk
  · rw [hk, List.getElem?_set_self hi]
    rfl
  · rw [List.getElem?_set_ne (Ne.symm hk)]

end handles

section operations
variable {s t : Store α} {i j k d : Nat}

theorem exists_target {c : α} (h : s.view i = some c) : ∃ d, s.target i = some d := by
  obtain ⟨d, hd, -⟩ := Option.bind_eq_some_iff.mp h
  exact ⟨d, hd⟩

theorem lt_length_of_target (h : s.target i = some d) : i < s.handles.length :=
  (List.getElem?_eq_some_iff.mp (target_eq_some_iff.mp h)).1

theorem lt_length_of_view {c : α} (h : s.view i = some c) : i < s.handles.length := by
  obtain ⟨d, hd⟩ := exists_target h
  exact lt_length_of_target hd

theorem view_congr (h : s.target i = s.target j) : s.view i = s.view j := by
  rw [view, view, h]

theorem orphans_iff : s.orphans i k = true ↔
    k ≠ i ∧ s.target k = s.target i ∧ ∃ d, s.target i = some d ∧ s.memory.lastRef d = true := by
  simp only [orphans, Bool.and_eq_true, decide_eq_true_eq, Option.any_eq_true, and_assoc]

theorem orphans_congr {m m' : Memory α} {hs : List (Option Nat)}
    (h : ∀ d, (mk m hs).target i = some d → m'.lastRef d = m.lastRef d) :
    (mk m' hs).orphans i k = (mk m hs).orphans i k := by
  rw [Bool.eq_iff_iff, orphans_iff, orphans_iff]
  refine and_congr_right fun _ => and_congr_right fun _ => exists_congr fun d => ?_
  refine and_congr_right fun hd => ?_
  rw [h d hd]

section numbering

theorem numbered_empty : (empty : Store α).Numbered :=
  ⟨fun _ _ => rfl, fun i d h => by simp [target, empty] at h⟩

/-- What is allocated stays so, and handles are set to what others point to or what is new. -/
theorem Numbered.mono (h : s.Numbered) (hle : s.memory.fresh ≤ t.memory.fresh)
    (hbody : ∀ x, t.memory.fresh ≤ x → s.memory.body x = none → t.memory.body x = none)
    (htargets : ∀ k x, t.target k = some x →
      (∃ j, s.target j = some x) ∨ x < t.memory.fresh) : t.Numbered := by
  refine ⟨fun x hx => hbody x hx (h.fresh x (Nat.le_trans hle hx)), fun k x hk => ?_⟩
  cases htargets k x hk with
  | inl hold =>
    obtain ⟨j, hj⟩ := hold
    exact Nat.lt_of_lt_of_le (h.targets j x hj) hle
  | inr hnew => exact hnew

theorem target_append_or {m : Memory α} {y : Option Nat} {x : Nat}
    (h : (mk m (s.handles ++ [y])).target k = some x) : y = some x ∨ s.target k = some x := by
  rw [target_append, Function.update_apply] at h
  split_ifs at h
  · exact Or.inl h
  · exact Or.inr h

theorem target_set_or {m : Memory α} {y : Option Nat} {x : Nat} (hi : i < s.handles.length)
    (h : (mk m (s.handles.set i y)).target k = some x) : y = some x ∨ s.target k = some x := by
  rw [target_set hi, Function.update_apply] at h
  split_ifs at h
  · exact Or.inl h
  · exact Or.inr h

theorem body_create_none {m : Memory α} {c : α} {x : Nat} (hx : (m.create c).fresh ≤ x)
    (h : m.body x = none) : (m.create c).body x = none := by
  have hlt : m.fresh + 1 ≤ x := hx
  rw [Memory.body_create, if_neg (by omega), h]

theorem body_modify_none {m : Memory α} {f : Body α → Body α} {x : Nat} (h : m.body x = none) :
    (m.modify d f).body x = none := by
  rw [Memory.body_modify, h]
  split_ifs
  · rfl
  · rfl

theorem body_unref_none {m : Memory α} {x : Nat} (h : m.body x = none) :
    (m.unref d).body x = none := by
  rw [Memory.body_unref, h]
  split_ifs
  · rfl
  · rfl
  · rfl

theorem Numbered.create (h : s.Numbered) (c : α) : (s.create c).Numbered := by
  refine h.mono (Nat.le_succ _) (fun x hx => body_create_none hx) fun k x hk => ?_
  cases target_append_or hk with
  | inl hnew =>
    obtain rfl := Option.some.inj hnew
    exact Or.inr (Nat.lt_succ_self _)
  | inr hold => exact Or.inl ⟨k, hold⟩

theorem Numbered.copy (h : s.Numbered) (ht : s.copy i = some t) : t.Numbered := by
  obtain ⟨d, hd, rfl⟩ := Option.map_eq_some_iff.mp ht
  refine h.mono (Nat.le_refl _) (fun x _ => body_modify_none) fun k x hk => Or.inl ?_
  cases target_append_or hk with
  | inl hnew => exact ⟨i, hd.trans hnew⟩
  | inr hold => exact ⟨k, hold⟩

theorem Numbered.destroy (h : s.Numbered) (ht : s.destroy i = some t) : t.Numbered := by
  obtain ⟨d, hd, rfl⟩ := Option.map_eq_some_iff.mp ht
  have hfresh := Nat.le_of_eq (Memory.fresh_unref s.memory d).symm
  refine h.mono hfresh (fun x _ => body_unref_none) fun k x hk => Or.inl ?_
  exact ⟨k, (target_set_or (lt_length_of_target hd) hk).resolve_left (by simp)⟩

theorem Numbered.write {f : α → α} (h : s.Numbered) (ht : s.write f i = some t) : t.Numbered := by
  obtain ⟨d, hd, rfl⟩ := Option.map_eq_some_iff.mp ht
  exact h.mono (Nat.le_refl _) (fun x _ => body_modify_none) fun k x hk => Or.inl ⟨k, hk⟩

theorem Numbered.not_fresh (h : s.Numbered) (hd : s.target i = some d) : d ≠ s.memory.fresh :=
  Nat.ne_of_lt (h.targets i d hd)

end numbering

/-- A handle that lets go of its body and takes over another one: what is deleted with its count
shows in no handle any more. -/
theorem view_rebind {m : Memory α} {hs : List (Option Nat)} {y : Option Nat}
    (hd : (mk m hs).target i = some d) (hy : y ≠ some d) (k : Nat) :
    (mk (m.unref d) (hs.set i y)).view k =
      if (mk m hs).orphans i k then none
      else Function.update (mk m hs).view i (y.bind m.content) k := by
  have hlt := lt_length_of_target hd
  have hother : ∀ x, x ≠ d → (m.unref d).content x = m.content x := by
    intro x hx
    rw [Memory.content_unref, if_neg fun h => hx h.1]
  have hset : (mk (m.unref d) (hs.set i y)).target k = if k = i then y
      else (mk m hs).target k := by
    rw [target_set hlt, Function.update_apply]
    rfl
  rw [view, hset, Function.update_apply]
  by_cases hk : k = i
  · have hself : ¬(mk m hs).orphans i k = true := fun h => (orphans_iff.mp h).1 hk
    rw [if_pos hk, if_pos hk, if_neg hself]
    exact Option.bind_congr fun x hx => hother x fun hxd => hy (hxd ▸ hx)
  · rw [if_neg hk, if_neg hk, view]
    cases hx : (mk m hs).target k with
    | none => simp
    | some x =>
      have horphans : (mk m hs).orphans i k = true ↔ x = d ∧ m.lastRef d = true := by
        rw [orphans_iff, hx, hd]
        simp [hk]
      rw [Option.bind_some, Option.bind_some, Memory.content_unref]
      simp only [horphans]

theorem view_create (h : s.Numbered) (c : α) :
    (s.create c).view = Function.update s.view s.handles.length (some c) := by
  funext k
  rw [view, create, target_append, Function.update_apply, Function.update_apply,
    Memory.content_create]
  split_ifs with hk
  · simp
  · refine Option.bind_congr fun d hd => ?_
    rw [Function.update_of_ne (h.not_fresh hd)]

theorem view_copy (ht : s.copy i = some t) :
    t.view = Function.update s.view s.handles.length (s.view i) := by
  obtain ⟨d, hd, rfl⟩ := Option.map_eq_some_iff.mp ht
  funext k
  rw [view, target_append, Function.update_apply, Function.update_apply, Memory.content_ref]
  split_ifs with hk
  · rw [view, hd]
  · rfl

theorem view_destroy (ht : s.destroy i = some t) (k : Nat) :
    t.view k = if s.orphans i k then none else Function.update s.view i none k := by
  obtain ⟨d, hd, rfl⟩ := Option.map_eq_some_iff.mp ht
  exact view_rebind hd (by simp) k

/-- An assignment does nothing between handles of one body; otherwise the handle lets go of
its body and shares the other one. -/
theorem assign_cases (ht : s.assign i j = some t) :
    ∃ this that, s.target i = some this ∧ s.target j = some that ∧
      ((this = that ∧ t = s) ∨
        (this ≠ that ∧ t = ⟨(s.memory.ref that).unref this, s.handles.set i (some that)⟩)) := by
  obtain ⟨this, hthis, ht⟩ := Option.bind_eq_some_iff.mp ht
  obtain ⟨that, hthat, rfl⟩ := Option.map_eq_some_iff.mp ht
  refine ⟨this, that, hthis, hthat, ?_⟩
  split_ifs with heq
  · exact Or.inl ⟨heq, rfl⟩
  · exact Or.inr ⟨heq, rfl⟩

theorem Numbered.assign (h : s.Numbered) (ht : s.assign i j = some t) : t.Numbered := by
  obtain ⟨this, that, hthis, hthat, ⟨-, rfl⟩ | ⟨-, rfl⟩⟩ := assign_cases ht
  · exact h
  · refine h.mono (Nat.le_of_eq (Memory.fresh_unref (s.memory.ref that) this).symm)
      (fun x _ hx => body_unref_none (body_modify_none hx)) fun k x hk => Or.inl ?_
    cases target_set_or (lt_length_of_target hthis) hk with
    | inl hnew => exact ⟨j, hthat.trans hnew⟩
    | inr hold => exact ⟨k, hold⟩

theorem lastRef_ref {m : Memory α} {this that : Nat} (h : this ≠ that) :
    (m.ref that).lastRef this = m.lastRef this := by
  apply Memory.lastRef_congr
  rw [Memory.ref, Memory.body_modify, if_neg h]

theorem view_assign (ht : s.assign i j = some t) (k : Nat) :
    t.view k = if s.target i ≠ s.target j ∧ s.orphans i k then none
      else Function.update s.view i (s.view j) k := by
  obtain ⟨this, that, hthis, hthat, ⟨heq, rfl⟩ | ⟨hne, rfl⟩⟩ := assign_cases ht
  · have hsame : t.target i = t.target j := by rw [hthis, hthat, heq]
    rw [if_neg fun h => h.1 hsame, view_congr hsame.symm, Function.update_eq_self]
  · have hdiffer : s.target i ≠ s.target j := by
      rw [hthis, hthat]
      exact fun h => hne (Option.some.inj h)
    have horphans : (mk (s.memory.ref that) s.handles).orphans i k = s.orphans i k := by
      refine orphans_congr fun d hd => lastRef_ref ?_
      obtain rfl : this = d := Option.some.inj (hthis.symm.trans hd)
      exact hne
    have hview : (mk (s.memory.ref that) s.handles).view = s.view := by
      funext k
      rw [view, Memory.content_ref]
      rfl
    have hthis' : (mk (s.memory.ref that) s.handles).target i = some this := hthis
    rw [view_rebind hthis' fun h => hne (Option.some.inj h).symm, horphans, hview,
      Memory.content_ref, Option.bind_some]
    simp only [ne_eq, hdiffer, not_false_eq_true, true_and]
    rw [view, hthat, Option.bind_some]

theorem refCount_eq {b : Body α} (hd : s.target i = some d) (hb : s.memory.body d = some b) :
    s.refCount i = b.refCount.toInt := by
  rw [refCount, hd, Option.bind_some, hb]
  rfl

/-- By its count a handle keeps its body, or gets a clone of its own. -/
theorem detach_cases {clone : α → α} (ht : s.detach clone i = some t) :
    ∃ d, s.target i = some d ∧ ((s.refCount i ≤ 1 ∧ t = s) ∨
      ∃ b, s.memory.body d = some b ∧ b.refCount > 1 ∧ 1 < s.refCount i ∧
        t = ⟨(s.memory.create (clone b.content)).unref d,
          s.handles.set i (some s.memory.fresh)⟩) := by
  obtain ⟨d, hd, rfl⟩ := Option.map_eq_some_iff.mp ht
  refine ⟨d, hd, ?_⟩
  cases hb : s.memory.body d with
  | none =>
    refine Or.inl ⟨?_, rfl⟩
    rw [refCount, hd, Option.bind_some, hb]
    exact Int.zero_le_ofNat 1
  | some b =>
    have hcount := refCount_eq hd hb
    have hiff : b.refCount > 1 ↔ 1 < s.refCount i := by
      rw [hcount, GT.gt, Int32.lt_iff_toInt_lt, Int32.toInt_one]
    by_cases hmore : b.refCount > 1
    · exact Or.inr ⟨b, rfl, hmore, hiff.mp hmore, if_pos hmore⟩
    · exact Or.inl ⟨Int.not_lt.mp (hiff.not.mp hmore), if_neg hmore⟩

theorem lastRef_create (h : s.Numbered) (hd : s.target i = some d) (c : α) :
    (s.memory.create c).lastRef d = s.memory.lastRef d := by
  apply Memory.lastRef_congr
  rw [Memory.body_create, if_neg (h.not_fresh hd)]

theorem Numbered.detach {clone : α → α} (h : s.Numbered) (ht : s.detach clone i = some t) :
    t.Numbered := by
  obtain ⟨d, hd, ⟨-, rfl⟩ | ⟨b, -, -, -, rfl⟩⟩ := detach_cases ht
  · exact h
  · have hfresh : ((s.memory.create (clone b.content)).unref d).fresh = s.memory.fresh + 1 :=
      Memory.fresh_unref _ d
    refine h.mono (by simp only [hfresh]; omega) (fun x hx hnone => ?_) fun k x hk => ?_
    · exact body_unref_none (body_create_none (Nat.le_trans (Nat.le_of_eq hfresh.symm) hx) hnone)
    · cases target_set_or (lt_length_of_target hd) hk with
      | inl hnew =>
        obtain rfl := Option.some.inj hnew
        exact Or.inr (by simp only [hfresh]; omega)
      | inr hold => exact Or.inl ⟨k, hold⟩

theorem view_detach {clone : α → α} (h : s.Numbered) (ht : s.detach clone i = some t) :
    t.view = Function.update s.view i
      (if 1 < s.refCount i then (s.view i).map clone else s.view i) := by
  obtain ⟨d, hd, ⟨hle, rfl⟩ | ⟨b, hb, hmore, hcount, rfl⟩⟩ := detach_cases ht
  · rw [if_neg (by omega), Function.update_eq_self]
  · funext k
    have hview : s.view i = some b.content := by
      rw [view, hd, Option.bind_some, Memory.content, hb]
      rfl
    have hsame : (mk (s.memory.create (clone b.content)) s.handles).view = s.view := by
      funext x
      rw [view, view, Memory.content_create]
      refine Option.bind_congr fun e he => ?_
      rw [Function.update_of_ne (h.not_fresh he)]
    have hlast := Memory.not_lastRef_of_shared hb hmore
    have hkept : (mk (s.memory.create (clone b.content)) s.handles).orphans i k = false := by
      rw [← Bool.not_eq_true, orphans_iff]
      intro horphan
      obtain ⟨-, -, e, he, hlaste⟩ := horphan
      obtain rfl : d = e := Option.some.inj (hd.symm.trans he)
      rw [lastRef_create h hd, hlast] at hlaste
      cases hlaste
    have hd' : (mk (s.memory.create (clone b.content)) s.handles).target i = some d := hd
    rw [view_rebind hd' fun heq => h.not_fresh hd (Option.some.inj heq).symm, hkept,
      if_neg Bool.false_ne_true, hsame, if_pos hcount, hview, Option.bind_some,
      Memory.content_create, Function.update_self]
    rfl

/-- A change in place shows in all handles of the body. -/
theorem view_write {f : α → α} (ht : s.write f i = some t) (k : Nat) :
    t.view k = if s.target k = s.target i then (s.view k).map f else s.view k := by
  obtain ⟨d, hd, rfl⟩ := Option.map_eq_some_iff.mp ht
  have hcontent := Memory.content_modify (f := fun b => { b with content := f b.content }) (g := f)
    (fun _ => rfl) s.memory d
  show (s.target k).bind _ = _
  rw [view, hd]
  cases hk : s.target k with
  | none => simp
  | some x =>
    rw [Option.bind_some, Option.bind_some, hcontent]
    simp only [Option.some.injEq]

/-- Copy on write: by the count the change shows in the one handle only, or in all handles of the
body. -/
theorem view_detach_write {clone f : α → α} {v : Store α} (h : s.Numbered)
    (hv : s.detach clone i = some v) (ht : v.write f i = some t) (k : Nat) :
    t.view k = if 1 < s.refCount i then
        Function.update s.view i (((s.view i).map clone).map f) k
      else if s.target k = s.target i then (s.view k).map f else s.view k := by
  have hview := view_detach h hv
  rw [view_write ht, hview]
  obtain ⟨d, hd, ⟨hle, rfl⟩ | ⟨b, -, -, hcount, rfl⟩⟩ := detach_cases hv
  · have hno := Int.not_lt.mpr hle
    rw [if_neg hno, if_neg hno, Function.update_eq_self]
  · rw [if_pos hcount, if_pos hcount, target_set (lt_length_of_target hd)]
    by_cases hk : k = i
    · rw [hk, if_pos rfl, Function.update_self, Function.update_self]
    · have hother : ¬s.target k = some s.memory.fresh := fun hk => h.not_fresh hk rfl
      rw [Function.update_self, Function.update_of_ne hk, Function.update_of_ne hk,
        Function.update_of_ne hk]
      exact if_neg hother

section counting

theorem WF.alive (h : WF s) (hd : s.target i = some d) : s.memory.body d ≠ none := by
  refine (Balanced.refs_pos_iff h).mp (List.count_pos_iff.mpr ?_)
  exact List.mem_of_getElem? (target_eq_some_iff.mp hd)

/-- No body has more handles than an int can count. -/
theorem WF.count_lt (h : WF s) (d : Nat) : s.handles.count (some d) < 2 ^ 31 := by
  cases hb : s.memory.body d with
  | none =>
    have hnone := Balanced.gone h d hb
    omega
  | some b =>
    have hcount := (Balanced.counted h d b hb).1
    have hbound := b.refCount.toInt_lt
    omega

theorem wf_empty : WF (empty : Store α) := by
  rw [WF, empty]
  simpa using (balanced_empty : Balanced (Memory.empty : Memory α) _)

/-- A handle that lets go of its body and takes over a reference already counted. -/
theorem WF.rebind {m : Memory α} {hs : List (Option Nat)} {y : Option Nat}
    (hi : getElem? hs i = some (some d))
    (h : Balanced m fun x => hs.count (some x) + if y = some x then 1 else 0) :
    WF ⟨m.unref d, hs.set i y⟩ := by
  have hpos : 0 < hs.count (some d) := List.count_pos_iff.mpr (List.mem_of_getElem? hi)
  have hrefs : (fun x => (hs.set i y).count (some x)) = fun x =>
      (hs.count (some x) + if y = some x then 1 else 0) - if x = d then 1 else 0 := by
    funext x
    have := count_set_some hi y x
    omega
  rw [WF, hrefs]
  exact h.unref (Nat.lt_of_lt_of_le hpos (Nat.le_add_right _ _))

theorem WF.create (h : WF s) (c : α) : WF (s.create c) := by
  rw [WF]
  simp only [Store.create, count_append_some]
  exact Balanced.create h c

/-- The counts survive one more handle exactly where there is an int for it. -/
theorem WF.copy_iff (h : WF s) (ht : s.copy i = some t) : WF t ↔ s.HasRoom i := by
  obtain ⟨d, hd, rfl⟩ := Option.map_eq_some_iff.mp ht
  constructor
  · intro hwf x hx
    obtain rfl : d = x := Option.some.inj (hd.symm.trans hx)
    have hlt := hwf.count_lt d
    rw [count_append_some, if_pos rfl] at hlt
    omega
  · intro hroom
    rw [WF]
    simp only [count_append_some]
    exact Balanced.ref h (h.alive hd) (hroom d hd)

theorem WF.destroy (h : WF s) (ht : s.destroy i = some t) : WF t := by
  obtain ⟨d, hd, rfl⟩ := Option.map_eq_some_iff.mp ht
  rw [WF] at h
  exact WF.rebind (target_eq_some_iff.mp hd) (by simpa using h)

theorem WF.assign_iff (h : WF s) (ht : s.assign i j = some t) :
    WF t ↔ s.target i = s.target j ∨ s.HasRoom j := by
  obtain ⟨this, that, hthis, hthat, ⟨heq, rfl⟩ | ⟨hne, rfl⟩⟩ := assign_cases ht
  · exact iff_of_true h (Or.inl (by rw [hthis, hthat, heq]))
  · have hget := target_eq_some_iff.mp hthis
    have hdiffer : s.target i ≠ s.target j := by
      rw [hthis, hthat]
      exact fun h => hne (Option.some.inj h)
    rw [or_iff_right hdiffer]
    constructor
    · intro hwf x hx
      obtain rfl : that = x := Option.some.inj (hthat.symm.trans hx)
      have hlt := hwf.count_lt that
      have hset := count_set_some hget (some that) that
      rw [if_neg (Ne.symm hne), if_pos rfl] at hset
      have hlt : (s.handles.set i (some that)).count (some that) < 2 ^ 31 := hlt
      omega
    · intro hroom
      refine WF.rebind hget ?_
      have href := Balanced.ref h (h.alive hthat) (hroom that hthat)
      simpa only [Option.some.injEq, eq_comm] using href

theorem WF.detach {clone : α → α} (h : WF s) (ht : s.detach clone i = some t) : WF t := by
  obtain ⟨d, hd, ⟨-, rfl⟩ | ⟨b, -, -, -, rfl⟩⟩ := detach_cases ht
  · exact h
  · refine WF.rebind (target_eq_some_iff.mp hd) ?_
    have hcreate := Balanced.create h (clone b.content)
    simpa only [Option.some.injEq, eq_comm] using hcreate

theorem WF.write {f : α → α} (h : WF s) (ht : s.write f i = some t) : WF t := by
  obtain ⟨d, hd, rfl⟩ := Option.map_eq_some_iff.mp ht
  refine Balanced.modify h (fun _ _ => rfl) (fun hnone => absurd hnone (h.alive hd)) ?_
  exact fun b hb => Balanced.counted h d b hb

theorem WF.refCount_eq_count (h : WF s) (hd : s.target i = some d) :
    s.refCount i = s.handles.count (some d) := by
  obtain ⟨b, hb⟩ := Option.ne_none_iff_exists'.mp (h.alive hd)
  rw [refCount_eq hd hb]
  exact (Balanced.counted h d b hb).1

theorem WF.refCount_pos (h : WF s) (hd : s.target i = some d) : 0 < s.refCount i := by
  rw [h.refCount_eq_count hd]
  have hpos := List.count_pos_iff.mpr (List.mem_of_getElem? (target_eq_some_iff.mp hd))
  exact_mod_cast hpos

theorem WF.lastRef_iff (h : WF s) (hd : s.target i = some d) :
    s.memory.lastRef d = true ↔ s.refCount i = 1 := by
  have hpos := h.refCount_pos hd
  obtain ⟨b, hb⟩ := Option.ne_none_iff_exists'.mp (h.alive hd)
  rw [refCount_eq hd hb] at hpos ⊢
  exact Memory.lastRef_iff hb hpos

/-- A body counts more than one reference where another handle points to it. -/
theorem WF.shared_iff (h : WF s) (hd : s.target i = some d) :
    1 < s.refCount i ↔ ∃ k, k ≠ i ∧ s.target k = some d := by
  have hi := target_eq_some_iff.mp hd
  obtain ⟨hlt, -⟩ := List.getElem?_eq_some_iff.mp hi
  have hrest : 1 < s.handles.count (some d) ↔ some d ∈ s.handles.set i none := by
    have := count_set_some hi none d
    rw [← List.count_pos_iff]
    simp only [if_true, reduceCtorEq, if_false] at this
    omega
  have hmem : some d ∈ s.handles.set i none ↔ ∃ k, k ≠ i ∧ s.target k = some d := by
    rw [List.mem_iff_getElem?]
    refine exists_congr fun k => ?_
    by_cases hk : k = i
    · subst hk
      simp [List.getElem?_set_self hlt]
    · rw [List.getElem?_set_ne (Ne.symm hk), target_eq_some_iff]
      simp [hk]
  rw [h.refCount_eq_count hd, ← hmem, ← hrest]
  exact_mod_cast Iff.rfl

theorem WF.body_iff (h : WF s) : s.memory.body d ≠ none ↔ ∃ i, s.target i = some d := by
  rw [← Balanced.refs_pos_iff h, List.count_pos_iff, mem_handles_iff]

/-- Behind a detach the handle is the only one of its body. -/
theorem refCount_detach {clone : α → α} (h : WF s) (hs : s.Numbered)
    (ht : s.detach clone i = some t) : t.refCount i = 1 := by
  have hwf := h.detach ht
  obtain ⟨d, hd, ⟨hle, rfl⟩ | ⟨b, -, -, -, rfl⟩⟩ := detach_cases ht
  · have hpos := h.refCount_pos hd
    omega
  · have hlt := lt_length_of_target hd
    have hself : (mk ((s.memory.create (clone b.content)).unref d)
        (s.handles.set i (some s.memory.fresh))).target i = some s.memory.fresh := by
      rw [target_set hlt, Function.update_self]
    have hpos := hwf.refCount_pos hself
    have halone := hwf.shared_iff hself
    have hnone : ¬∃ k, k ≠ i ∧ (mk ((s.memory.create (clone b.content)).unref d)
        (s.handles.set i (some s.memory.fresh))).target k = some s.memory.fresh := by
      intro hshared
      obtain ⟨k, hk, hkt⟩ := hshared
      rw [target_set hlt, Function.update_of_ne hk] at hkt
      exact hs.not_fresh hkt rfl
    have hle := halone.not.mpr hnone
    omega

/-- Copy on write: of the bodies that were there, only that of a single handle changes. -/
theorem content_detach_write {clone f : α → α} {v : Store α} (h : WF s) (hs : s.Numbered)
    (hv : s.detach clone i = some v) (ht : v.write f i = some t) {x : Nat}
    (hx : t.memory.content x ≠ s.memory.content x) :
    x = s.memory.fresh ∨ s.target i = some x ∧ s.refCount i = 1 := by
  obtain ⟨e, he, rfl⟩ := Option.map_eq_some_iff.mp ht
  have hwrite : x ≠ e → v.memory.content x ≠ s.memory.content x := by
    intro hne hsame
    apply hx
    rw [Memory.content, Memory.body_modify, if_neg hne]
    exact hsame
  obtain ⟨d, hd, ⟨hle, rfl⟩ | ⟨b, hb, hmore, -, rfl⟩⟩ := detach_cases hv
  · have hxe : x = e := by
      by_contra hne
      exact hwrite hne rfl
    have hpos := h.refCount_pos hd
    exact Or.inr ⟨hxe ▸ he, by omega⟩
  · rw [target_set (lt_length_of_target hd), Function.update_self] at he
    obtain rfl := Option.some.inj he
    refine Or.inl ?_
    by_contra hne
    have hlast := Memory.not_lastRef_of_shared hb hmore
    apply hwrite hne
    rw [Memory.content_unref, lastRef_create hs hd, hlast, if_neg (by simp),
      Memory.content_create, Function.update_of_ne hne]

end counting

end operations

end Store

end QGpgME.RefCount
