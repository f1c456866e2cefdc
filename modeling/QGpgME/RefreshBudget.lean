import QGpgME.RefreshBatches

/-! The room on a command line of gpgsm, which startAProcess counts in an unsigned int, and the
patterns that it takes for it. -/
namespace QGpgME.RefreshBudget
open RefreshSMIMEKeysJob RefreshBatches

/-- A pattern that startAProcess takes from the queue, and the budget at that time. -/
structure Taken where
  pattern : QString
  commandLineLength : UInt32

/-- The size of a pattern, as the source counts it. -/
def patLength (p : QString) : UInt32 := UInt32.ofNat (QString.toUtf8 p).trimmed.length

/-- The rounds of the loop of startAProcess that remove a pattern. -/
def takenPatterns : UInt32 → List QString → List Taken
  | _, [] => []
  | commandLineLength, p :: ps =>
    if patLength p ≥ commandLineLength then []
    else ⟨p, commandLineLength⟩ :: takenPatterns
      (if Blank p then commandLineLength else commandLineLength - (patLength p + 1)) ps

/-- The patterns that the loop removes. -/
def removed (commandLineLength : UInt32) (ps : List QString) : List QString :=
  (takenPatterns commandLineLength ps).map Taken.pattern

/-- The size of a pattern in bytes. -/
def size (p : QString) : Nat := (QString.toUtf8 p).trimmed.length

/-- The room behind a pattern. -/
def left (room : Nat) (p : QString) : Nat := if Blank p then room else room - cost p

/-- Each pattern is strictly shorter than the room that those in front of it leave. -/
def Fitting : Nat → List QString → Prop
  | _, [] => True
  | room, p :: ps => size p < room ∧ Fitting (left room p) ps

/-- What patterns use up together, blank ones nothing. -/
def used (ps : List QString) : Nat := ((ps.filter fun p => ¬Blank p).map cost).sum

/-- The budget never wraps, the command line is within its limit, and no longer part of the
queue than the one removed fits on it. -/
structure BudgetKept (ps : List QString) : Prop where
  no_wrap : ∀ t ∈ takenPatterns patternBudget ps, ¬Blank t.pattern →
    (patLength t.pattern).toNat + 1 ≤ t.commandLineLength.toNat
  within : ((program :: options).map fun a => a.length + 1).sum + used (removed patternBudget ps) ≤
    maxCmdLength.toNat
  fitting : Fitting patternBudget.toNat (removed patternBudget ps)
  longest : ∀ front, front <+: ps → Fitting patternBudget.toNat front →
    front.length ≤ (removed patternBudget ps).length

/-- Where the patterns in front of a pattern of 2 ^ 32 bytes or more fit, its size modulo 2 ^ 32
is no less than the room that they leave. -/
def NoneTruncated (room : Nat) (ps : List QString) : Prop :=
  ∀ before p after, ps = before ++ p :: after → Fitting room before → 2 ^ 32 ≤ size p →
    before.foldl left room ≤ size p % 2 ^ 32

section rounds
variable {room : UInt32} {p : QString} {ps : List QString}

theorem toNat_patLength (p : QString) : (patLength p).toNat = size p % 2 ^ 32 :=
  UInt32.toNat_ofNat'

theorem toNat_patLength_of_lt (h : size p < 2 ^ 32) : (patLength p).toNat = size p := by
  rw [toNat_patLength, Nat.mod_eq_of_lt h]

theorem cost_eq (p : QString) : cost p = size p + 1 := rfl

theorem removed_stop (h : patLength p ≥ room) (ps : List QString) :
    removed room (p :: ps) = [] := by
  rw [removed, takenPatterns, if_pos h, List.map_nil]

theorem removed_take (h : ¬patLength p ≥ room) (ps : List QString) :
    removed room (p :: ps) =
      p :: removed (if Blank p then room else room - (patLength p + 1)) ps := by
  rw [removed, takenPatterns, if_neg h, List.map_cons, removed]

/-- A pattern at which the loop stops takes the room, even by its truncated size. -/
theorem room_le_of_stop (h : patLength p ≥ room) : room.toNat ≤ size p % 2 ^ 32 := by
  rw [← toNat_patLength]
  exact UInt32.le_iff_toNat_le.mp h

theorem mod_lt_of_take (h : ¬patLength p ≥ room) : size p % 2 ^ 32 < room.toNat := by
  rw [← toNat_patLength]
  exact UInt32.lt_iff_toNat_lt.mp (UInt32.not_le.mp h)

/-- A pattern that the loop takes is as short as it seems, if no size is truncated. -/
theorem size_lt_of_take (h : ¬patLength p ≥ room)
    (hp : 2 ^ 32 ≤ size p → room.toNat ≤ size p % 2 ^ 32) : size p < 2 ^ 32 := by
  by_contra hbig
  have hle := hp (Nat.not_lt.mp hbig)
  have hlt := mod_lt_of_take h
  omega

/-- The patterns removed are those that the loop takes from the queue. -/
theorem removed_append (room : UInt32) (ps : List QString) :
    removed room ps ++ (takePatterns room ps).2.1 = ps := by
  induction ps generalizing room with
  | nil => rfl
  | cons p ps ih =>
    by_cases hstop : patLength p ≥ room
    · rw [removed_stop hstop, takePatterns_stop hstop, List.nil_append]
    · by_cases hblank : Blank p
      · rw [removed_take hstop, takePatterns_skip hstop hblank, if_pos hblank, List.cons_append, ih]
      · rw [removed_take hstop, takePatterns_pass hstop hblank, if_neg hblank, List.cons_append]
        exact congrArg (p :: ·) (ih _)

/-- The subtraction of a round, in numbers without bound. -/
theorem toNat_next (h : ¬patLength p ≥ room) (hsize : size p < 2 ^ 32) :
    (if Blank p then room else room - (patLength p + 1)).toNat = left room.toNat p := by
  have hlt := mod_lt_of_take h
  rw [Nat.mod_eq_of_lt hsize] at hlt
  have hroom := room.toNat_lt
  rw [left]
  split_ifs with hblank
  · rfl
  · have hcost : (patLength p + 1).toNat = cost p := by
      rw [UInt32.toNat_add, toNat_patLength_of_lt hsize, cost_eq]
      show _ % 2 ^ 32 = _
      simp only [UInt32.toNat_one]
      omega
    have hle : patLength p + 1 ≤ room := by
      rw [UInt32.le_iff_toNat_le, hcost, cost_eq]
      exact hlt
    rw [UInt32.toNat_sub_of_le _ _ hle, hcost]

/-- The test of the loop keeps the subtraction from wrapping, whatever the patterns are. -/
theorem takenPatterns_no_wrap (room : UInt32) (ps : List QString) :
    ∀ t ∈ takenPatterns room ps, (patLength t.pattern).toNat + 1 ≤ t.commandLineLength.toNat := by
  induction ps generalizing room with
  | nil => simp [takenPatterns]
  | cons p ps ih =>
    rw [takenPatterns]
    split_ifs with hstop
    · simp
    · exact List.forall_mem_cons.mpr
        ⟨UInt32.lt_iff_toNat_lt.mp (UInt32.not_le.mp hstop), ih _⟩
    · exact List.forall_mem_cons.mpr
        ⟨UInt32.lt_iff_toNat_lt.mp (UInt32.not_le.mp hstop), ih _⟩

theorem used_cons (p : QString) (ps : List QString) :
    used (p :: ps) = (if Blank p then 0 else cost p) + used ps := by
  by_cases hblank : Blank p
  · simp [used, hblank]
  · simp [used, hblank]

theorem noneTruncated_cons {room : Nat} : NoneTruncated room (p :: ps) ↔
    (2 ^ 32 ≤ size p → room ≤ size p % 2 ^ 32) ∧
      (size p < room → NoneTruncated (left room p) ps) := by
  constructor
  · intro h
    refine ⟨h [] p ps rfl trivial, fun hfit before q after hsplit hbefore => ?_⟩
    exact h (p :: before) q after (congrArg (p :: ·) hsplit) ⟨hfit, hbefore⟩
  · intro h before q after hsplit hbefore
    cases before with
    | nil =>
      obtain ⟨rfl, -⟩ := List.cons.inj hsplit
      exact h.1
    | cons r before =>
      obtain ⟨rfl, hps⟩ := List.cons.inj hsplit
      exact h.2 hbefore.1 before q after hps hbefore.2

/-- Without truncated sizes the patterns removed are the longest part of the queue that fits. -/
theorem removed_longest (h : NoneTruncated room.toNat ps) :
    Fitting room.toNat (removed room ps) ∧ used (removed room ps) ≤ room.toNat ∧
      ∀ front, front <+: ps → Fitting room.toNat front →
        front.length ≤ (removed room ps).length := by
  induction ps generalizing room with
  | nil =>
    refine ⟨trivial, Nat.zero_le _, fun front hfront _ => ?_⟩
    exact hfront.length_le
  | cons p ps ih =>
    obtain ⟨hp, hrest⟩ := noneTruncated_cons.mp h
    by_cases hstop : patLength p ≥ room
    · rw [removed_stop hstop]
      refine ⟨trivial, Nat.zero_le _, fun front hfront hfits => ?_⟩
      cases front with
      | nil => exact Nat.le_refl 0
      | cons q front =>
        obtain ⟨rfl, -⟩ := List.cons_prefix_cons.mp hfront
        have hle := room_le_of_stop hstop
        have hlt : size q < room.toNat := hfits.1
        have := Nat.mod_le (size q) (2 ^ 32)
        omega
    · have hsize := size_lt_of_take hstop hp
      have hlt := mod_lt_of_take hstop
      rw [Nat.mod_eq_of_lt hsize] at hlt
      have hnext := toNat_next hstop hsize
      obtain ⟨hfits, hused, hlongest⟩ := ih (by rw [hnext]; exact hrest hlt)
      rw [hnext] at hfits hused hlongest
      rw [removed_take hstop]
      refine ⟨⟨hlt, hfits⟩, ?_, fun front hfront hfits' => ?_⟩
      · rw [used_cons]
        rw [left] at hused
        split_ifs at hused ⊢ with hblank
        · omega
        · rw [cost_eq] at hused ⊢
          omega
      · cases front with
        | nil => exact Nat.zero_le _
        | cons q front =>
          obtain ⟨rfl, hps⟩ := List.cons_prefix_cons.mp hfront
          exact Nat.succ_le_succ (hlongest front hps hfits'.2)

/-- A pattern whose size is truncated exceeds the limit by itself. -/
theorem noneTruncated_of_used (h : used (removed room ps) < 2 ^ 32) :
    NoneTruncated room.toNat ps := by
  induction ps generalizing room with
  | nil =>
    intro before p after hsplit
    simp at hsplit
  | cons p ps ih =>
    by_cases hstop : patLength p ≥ room
    · have hle := room_le_of_stop hstop
      refine noneTruncated_cons.mpr ⟨fun _ => hle, fun hlt => ?_⟩
      have := Nat.mod_le (size p) (2 ^ 32)
      omega
    · rw [removed_take hstop, used_cons] at h
      have hsize : size p < 2 ^ 32 := by
        by_contra hbig
        have hblank : ¬Blank p := by
          intro hblank
          have hzero : size p = 0 := by
            rw [size, show (QString.toUtf8 p).trimmed = [] from hblank, List.length_nil]
          omega
        rw [if_neg hblank, cost_eq] at h
        omega
      refine noneTruncated_cons.mpr ⟨fun hbig => by omega, fun _ => ?_⟩
      rw [← toNat_next hstop hsize]
      exact ih (by omega)

end rounds

theorem budgetKept_iff (ps : List QString) :
    BudgetKept ps ↔ NoneTruncated patternBudget.toNat ps := by
  have hfixed : ((program :: options).map fun a => a.length + 1).sum + patternBudget.toNat =
      maxCmdLength.toNat := by decide
  constructor
  · intro h
    have hlimit : maxCmdLength.toNat < 2 ^ 32 := maxCmdLength.toNat_lt
    have hwithin := h.within
    exact noneTruncated_of_used (by omega)
  · intro h
    obtain ⟨hfits, hused, hlongest⟩ := removed_longest h
    exact ⟨fun t ht _ => takenPatterns_no_wrap _ _ t ht, by omega, hfits, hlongest⟩

/-- In a call of startAProcess the command line is within its limit, and filled as far as the
next pattern allows, just where no size is truncated to less than the room that is left. -/
theorem startAProcess_budget_iff (s : Job) (started : Bool) :
    removed patternBudget s.mPatternsToDo ++ (s.startAProcess started).1.mPatternsToDo =
        s.mPatternsToDo ∧
      (BudgetKept s.mPatternsToDo ↔ NoneTruncated patternBudget.toNat s.mPatternsToDo) := by
  refine ⟨?_, budgetKept_iff s.mPatternsToDo⟩
  have happend := removed_append patternBudget s.mPatternsToDo
  rw [Job.startAProcess]
  by_cases hempty : s.mPatternsToDo = []
  · rw [if_pos hempty, hempty]
    rfl
  · rw [if_neg hempty]
    cases started with
    | true => exact happend
    | false => exact happend

/-- A pattern of 4 GiB has the size 0 for the source. -/
def hugePattern : QString := List.replicate (2 ^ 32) 'a'

theorem hugePattern_taken : ¬BudgetKept [hugePattern] := by
  have hsize : size hugePattern = 2 ^ 32 := length_trimmed_replicate (2 ^ 32)
  rw [budgetKept_iff]
  intro h
  have hroom := h [] hugePattern [] rfl trivial (Nat.le_of_eq hsize.symm)
  rw [hsize] at hroom
  exact absurd hroom (by decide)

end QGpgME.RefreshBudget
