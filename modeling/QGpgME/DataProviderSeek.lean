import QGpgME.DataProvider

/-! The positions to which `seek` moves the offset of a QByteArrayDataProvider, and what they
mean for the calls that follow. -/
namespace QGpgME.QByteArrayDataProvider
open DataProvider QByteArray EventRun

/-- Where a seek is to go, as an integer of any size. -/
def target (p : QByteArrayDataProvider) (offset : Int) : Whence → Option Int
  | .seekSet => some offset
  | .seekCur => some (p.mOff + offset)
  | .seekEnd => some (p.mArray.length + offset)
  | .other => none

/-- An offset of 64 bits that is not negative. -/
def Position (t : Int) : Prop := 0 ≤ t ∧ t < 2 ^ 63

instance (t : Int) : Decidable (Position t) := inferInstanceAs (Decidable (_ ∧ _))

/-- A seek goes to its target, and one without a possible target fails and changes nothing. -/
def SeekMeets (p : QByteArrayDataProvider) (offset : Int) (whence : Whence) : Prop :=
  match (p.target offset whence).filter fun t => Position t with
  | some t => (p.seek offset whence).1.value = t ∧ (p.seek offset whence).2.mOff = t
  | none => (p.seek offset whence).1.value = -1 ∧ (p.seek offset whence).2.mOff = p.mOff

/-- The target of a seek is one that an `int` holds, or there is none. -/
def IntTarget (p : QByteArrayDataProvider) (offset : Int) (whence : Whence) : Prop :=
  ∀ t ∈ p.target offset whence, 0 ≤ t ∧ t < 2 ^ 31

/-- A property of the seeks of a run. -/
def OfSeeks (ok : QByteArrayDataProvider → Int → Whence → Prop) (p : QByteArrayDataProvider)
    (call : Call) : Prop :=
  ∀ offset whence, call = .seek offset whence → ok p offset whence

section positions
variable {p q : QByteArrayDataProvider} {offset t : Int} {whence : Whence}

theorem toInt_of_int (h0 : 0 ≤ t) (h : t < 2 ^ 31) : toInt t = t := by
  apply Int.bmod_eq_of_le
  · omega
  · omega

theorem toInt_lt (t : Int) : toInt t < 2 ^ 31 := by
  have h : toInt t < (2 ^ 32 + 1) / 2 := Int.bmod_lt (by decide)
  omega

/-- All ways to seek end in the same conversion of the target. -/
theorem seek_target (h : p.target offset whence = some t) :
    p.seek offset whence = (.success (toInt t) [], { p with mOff := toInt t }) := by
  cases whence with
  | seekSet =>
    obtain rfl := Option.some.inj h
    rfl
  | seekCur =>
    obtain rfl := Option.some.inj h
    have hsum : toInt (toInt p.mOff + offset) = toInt (p.mOff + offset) := Int.bmod_add_bmod
    simp only [seek, hsum]
  | seekEnd =>
    obtain rfl := Option.some.inj h
    rfl
  | other => cases h

theorem seekMeets_other (h : p.target offset whence = none) : SeekMeets p offset whence := by
  cases whence with
  | other => exact ⟨rfl, rfl⟩
  | _ => cases h

theorem seekMeets_target (h : p.target offset whence = some t) :
    SeekMeets p offset whence ↔
      if Position t then toInt t = t else toInt t = -1 ∧ p.mOff = -1 := by
  by_cases ht : Position t
  · have hfilter : (p.target offset whence).filter (fun t => Position t) = some t := by
      simp [h, ht]
    rw [SeekMeets, hfilter, if_pos ht, seek_target h]
    exact and_self_iff
  · have hfilter : (p.target offset whence).filter (fun t => Position t) = none := by
      simp [h, ht]
    rw [SeekMeets, hfilter, if_neg ht, seek_target h]
    constructor
    · intro hmeets
      obtain ⟨hvalue, hoff⟩ : toInt t = -1 ∧ toInt t = p.mOff := hmeets
      exact ⟨hvalue, by rw [← hoff, hvalue]⟩
    · intro hmeets
      obtain ⟨hvalue, hoff⟩ := hmeets
      exact ⟨hvalue, by rw [hoff, ← hvalue]⟩

/-- Outside the range of `int` a seek is right only by chance: where the offset is -1 already,
and the target is taken for -1. -/
theorem seekMeets_iff (p : QByteArrayDataProvider) (offset : Int) (whence : Whence) :
    SeekMeets p offset whence ↔ IntTarget p offset whence ∨
      p.mOff = -1 ∧ ∃ t ∈ p.target offset whence, ¬Position t ∧ toInt t = -1 := by
  cases h : p.target offset whence with
  | none => simp [seekMeets_other h, IntTarget, h]
  | some t =>
    have hint : IntTarget p offset whence ↔ 0 ≤ t ∧ t < 2 ^ 31 := by simp [IntTarget, h]
    rw [seekMeets_target h, hint]
    by_cases ht : Position t
    · have hlt := toInt_lt t
      rw [if_pos ht]
      constructor
      · intro heq
        exact Or.inl ⟨ht.1, by omega⟩
      · intro hcase
        cases hcase with
        | inl hrange => exact toInt_of_int hrange.1 hrange.2
        | inr hchance =>
          obtain ⟨-, s, hs, hpos, -⟩ := hchance
          obtain rfl := Option.some.inj hs
          exact absurd ht hpos
    · rw [if_neg ht]
      constructor
      · intro hvalue
        exact Or.inr ⟨hvalue.2, t, rfl, ht, hvalue.1⟩
      · intro hcase
        cases hcase with
        | inl hrange => exact absurd ⟨hrange.1, by omega⟩ ht
        | inr hchance =>
          obtain ⟨hoff, s, hs, -, hvalue⟩ := hchance
          obtain rfl := Option.some.inj hs
          exact ⟨hvalue, hoff⟩

theorem seekMeets_iff_of_nonneg (hoff : 0 ≤ p.mOff) (offset : Int) (whence : Whence) :
    SeekMeets p offset whence ↔ IntTarget p offset whence := by
  rw [seekMeets_iff]
  constructor
  · intro h
    cases h with
    | inl hrange => exact hrange
    | inr hchance => omega
  · exact Or.inl

end positions

section runs
variable {qt : Qt} {p q : QByteArrayDataProvider}

theorem read_nonneg {buffer : Bool} {bufSize : Nat} {answer : Answer} (hoff : 0 ≤ p.mOff)
    (h : p.read buffer bufSize = some (answer, q)) : 0 ≤ q.mOff := by
  simp only [QByteArrayDataProvider.read] at h
  split_ifs at h
  · obtain ⟨-, rfl⟩ := Prod.mk.inj (Option.some.inj h)
    exact hoff
  · obtain ⟨-, rfl⟩ := Prod.mk.inj (Option.some.inj h)
    exact hoff
  · obtain ⟨-, rfl⟩ := Prod.mk.inj (Option.some.inj h)
    exact hoff
  · obtain ⟨-, rfl⟩ := Prod.mk.inj (Option.some.inj h)
    exact Int.add_nonneg hoff (Int.natCast_nonneg _)

theorem store_nonneg {bytes : QByteArray} {answer : Answer} (hoff : 0 ≤ p.mOff)
    (h : p.store bytes = some (answer, q)) : 0 ≤ q.mOff := by
  simp only [store] at h
  split_ifs at h
  · obtain ⟨-, rfl⟩ := Prod.mk.inj (Option.some.inj h)
    exact hoff
  · obtain ⟨-, rfl⟩ := Prod.mk.inj (Option.some.inj h)
    exact Int.add_nonneg hoff (Int.natCast_nonneg _)

theorem write_nonneg {bytes : QByteArray} {answer : Answer} (hoff : 0 ≤ p.mOff)
    (h : p.write qt bytes = some (answer, q)) : 0 ≤ q.mOff := by
  simp only [write] at h
  split_ifs at h
  · obtain ⟨-, rfl⟩ := Prod.mk.inj (Option.some.inj h)
    exact hoff
  · obtain ⟨ba, -, hstore⟩ := Option.bind_eq_some_iff.mp h
    exact @store_nonneg ⟨ba, p.mOff⟩ q bytes answer hoff hstore
  · exact store_nonneg hoff h

theorem writeNull_nonneg (hoff : 0 ≤ p.mOff) (bufSize : Nat) :
    0 ≤ (p.writeNull bufSize).2.mOff := by
  rw [writeNull]
  split_ifs
  · exact hoff
  · exact hoff

theorem seek_nonneg {offset : Int} {whence : Whence} (hoff : 0 ≤ p.mOff)
    (h : IntTarget p offset whence) : 0 ≤ (p.seek offset whence).2.mOff := by
  cases htarget : p.target offset whence with
  | none =>
    have hmeets := seekMeets_other htarget
    have hkept : (p.seek offset whence).2.mOff = p.mOff := by
      rw [SeekMeets, htarget] at hmeets
      exact hmeets.2
    rw [hkept]
    exact hoff
  | some t =>
    obtain ⟨h0, hlt⟩ := h t htarget
    rw [seek_target htarget, toInt_of_int h0 hlt]
    exact h0

/-- What a step does to the offset; only a seek can make it negative. -/
theorem next_nonneg (p : QByteArrayDataProvider) (call : Call) (q : QByteArrayDataProvider)
    (hoff : 0 ≤ p.mOff) (hok : OfSeeks IntTarget p call) (h : next qt p call = some q) :
    0 ≤ q.mOff := by
  obtain ⟨⟨answer, q⟩, hstep, rfl⟩ := Option.map_eq_some_iff.mp h
  cases call with
  | read buffer bufSize => exact read_nonneg hoff hstep
  | write bytes => exact write_nonneg hoff hstep
  | writeNull bufSize =>
    have hnull := writeNull_nonneg hoff bufSize
    rwa [Option.some.inj hstep] at hnull
  | seek offset whence =>
    have hseek := seek_nonneg hoff (hok offset whence rfl)
    rwa [Option.some.inj hstep] at hseek
  | release =>
    obtain ⟨-, rfl⟩ := Prod.mk.inj (Option.some.inj hstep)
    exact hoff

/-- No bytes in front of the array are copied. -/
theorem read_ne_none (hoff : 0 ≤ p.mOff) (buffer : Bool) (bufSize : Nat) :
    p.read buffer bufSize ≠ none := by
  have hnot : ¬p.mOff < 0 := by omega
  simp only [QByteArrayDataProvider.read, if_neg hnot]
  split_ifs <;> simp

theorem along_seeks_iff (calls : List Call) (initialData : QByteArray) :
    Along (next qt) (OfSeeks SeekMeets) calls (new initialData) ↔
      Along (next qt) (OfSeeks IntTarget) calls (new initialData) := by
  have hguard : ∀ (p : QByteArrayDataProvider) call, 0 ≤ p.mOff →
      (OfSeeks IntTarget p call ↔ OfSeeks SeekMeets p call) := by
    intro p call hoff
    refine forall₃_congr fun offset whence _ => ?_
    rw [seekMeets_iff_of_nonneg hoff]
  exact (along_congr next_nonneg hguard (Int.le_refl 0) calls).symm

/-- The seeks of a run are right just where their targets are values of `int`, and behind such
seeks the offset is not negative and reads stay inside the array. -/
theorem seeks_meet_iff (qt : Qt) (initialData : QByteArray) (calls : List Call) :
    (∀ p offset whence, SeekMeets p offset whence ↔ IntTarget p offset whence ∨
      p.mOff = -1 ∧ ∃ t ∈ p.target offset whence, ¬Position t ∧ toInt t = -1) ∧
    (Along (next qt) (OfSeeks SeekMeets) calls (new initialData) ↔
      Along (next qt) (OfSeeks IntTarget) calls (new initialData)) ∧
    (Along (next qt) (OfSeeks IntTarget) calls (new initialData) →
      ∀ p, run (next qt) calls (new initialData) = some p →
        0 ≤ p.mOff ∧ ∀ buffer bufSize, p.read buffer bufSize ≠ none) := by
  refine ⟨seekMeets_iff, along_seeks_iff calls initialData, ?_⟩
  intro hseeks p hp
  have hoff : 0 ≤ p.mOff := run_invariant next_nonneg (Int.le_refl 0) hseeks hp
  exact ⟨hoff, read_ne_none hoff⟩

theorem seeks_meet_three :
    ∃ p, run (next ⟨.qt6, fun _ => 0⟩) [.seek 3 .seekSet] (new [1, 2]) = some p ∧ 0 ≤ p.mOff := by
  have hseeks : Along (next ⟨.qt6, fun _ => 0⟩) (OfSeeks IntTarget) [.seek 3 .seekSet]
      (new [1, 2]) := by
    refine ⟨fun offset whence hcall t ht => ?_, fun q _ => trivial⟩
    obtain ⟨rfl, rfl⟩ := Call.seek.inj hcall
    obtain rfl := Option.some.inj ht
    decide
  refine ⟨_, rfl, ?_⟩
  exact ((seeks_meet_iff ⟨.qt6, fun _ => 0⟩ [1, 2] [.seek 3 .seekSet]).2.2 hseeks _ rfl).1

/-- A seek to -1 leaves the offset there, and the next read copies what stands in front of the
array; a seek to 2 ^ 31 ends at a negative offset as well. -/
theorem seek_negative :
    (new [1]).seek (-1) .seekSet = (.success (-1) [], ⟨[1], -1⟩) ∧
      read ⟨[1], -1⟩ true 1 = none ∧
      ((new [1]).seek (2 ^ 31) .seekSet).2.mOff = -2 ^ 31 ∧
      ¬SeekMeets (new [1]) (-1) .seekSet ∧ ¬SeekMeets (new [1]) (2 ^ 31) .seekSet := by
  refine ⟨rfl, rfl, rfl, ?_, ?_⟩
  · rw [seekMeets_target rfl]
    decide
  · rw [seekMeets_target rfl]
    decide

end runs

end QGpgME.QByteArrayDataProvider
