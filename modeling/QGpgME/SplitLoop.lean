import QGpgME.ADQueryResult

/-! The loop of `_qgpgme::split` over positions, and the characters that it and the parser of
query results look at. -/
namespace QGpgME.ADQueryResult

/-- An access to a character of a string view of the given size. -/
structure Access where
  index : Nat
  size : Nat
deriving DecidableEq

def Access.InBounds (a : Access) : Prop := a.index < a.size

instance (a : Access) : Decidable a.InBounds := inferInstanceAs (Decidable (_ < _))

/-- The result of the loop so far, with the accesses that were made for it. -/
structure SplitRun where
  result : List QByteArray
  accesses : List Access
deriving DecidableEq

/-- `find` from a position on; none is `npos`. -/
def find (s : QByteArray) (delimiter : UInt8) (start : Nat) : Option Nat :=
  let pos := (s.drop start).idxOf delimiter
  if pos = (s.drop start).length then none else some (start + pos)

/-- The loop of `_qgpgme::split`; none where it runs longer than allowed. -/
def splitLoop : Nat → QByteArray → UInt8 → SplitRun → Nat → Option SplitRun
  | 0, _, _, _, _ => none
  | fuel + 1, s, delimiter, r, start =>
    let stop := (find s delimiter start).getD s.length
    let piece := (s.drop start).take (stop - start)
    let r : SplitRun := ⟨r.result ++ [piece], r.accesses ++ [⟨start, s.length⟩]⟩
    if stop ≠ s.length then splitLoop fuel s delimiter r (stop + 1) else some r

/-- The characters of a line at which the parser looks. -/
def lineAccesses : QByteArray → List Access
  | [] => []
  | front :: rest =>
    let line := front :: rest
    let nameEnd := line.idxOf 58
    ⟨0, line.length⟩ ::
      if front = 32 ∨ nameEnd = line.length then [] else [⟨nameEnd + 1, line.length⟩]

/-- The accesses of `parse_query_result` to its lines. -/
def parseAccesses (resultData : QByteArray) : List Access :=
  (split resultData 10).flatMap lineAccesses

/-- The first colon of a line with a name is its last character. -/
def ColonLast (line : QByteArray) : Prop :=
  line.head? ≠ some 32 ∧ line.idxOf 58 + 1 = line.length

section loop
variable {s : QByteArray} {delimiter : UInt8} {start : Nat}

theorem split_of_not_mem (h : delimiter ∉ s) : split s delimiter = [s] := by
  rw [split_eq_splitOn, List.splitOn_eq_singleton h]

theorem split_append_cons {before : QByteArray} (h : delimiter ∉ before) (rest : QByteArray) :
    split (before ++ delimiter :: rest) delimiter = before :: split rest delimiter := by
  rw [split_eq_splitOn, split_eq_splitOn, List.splitOn_append_cons_self_of_not_mem h]

/-- What is left from a position on ends with the delimiter, or is empty. -/
def EndsHere (delimiter : UInt8) (rest : QByteArray) : Prop :=
  rest = [] ∨ rest.getLast? = some delimiter

theorem endsHere_append_cons (before rest : QByteArray) :
    EndsHere delimiter (before ++ delimiter :: rest) ↔ EndsHere delimiter rest := by
  cases rest with
  | nil => simp [EndsHere]
  | cons b rest => simp [EndsHere, List.getLast?_append]

theorem endsHere_of_not_mem (h : delimiter ∉ s) : EndsHere delimiter s ↔ s = [] := by
  refine or_iff_left fun hlast => h (List.mem_of_getLast? hlast)

theorem find_eq_none (h : delimiter ∉ s.drop start) : find s delimiter start = none := by
  rw [find, List.idxOf_eq_length h, if_pos rfl]

theorem find_eq_some {before rest : QByteArray} (h : delimiter ∉ before)
    (hs : s.drop start = before ++ delimiter :: rest) :
    find s delimiter start = some (start + before.length) := by
  have hpos : (before ++ delimiter :: rest).idxOf delimiter = before.length := by
    rw [List.idxOf_append_of_notMem h, List.idxOf_cons_self, Nat.add_zero]
  rw [find, hs, hpos, if_neg]
  rw [List.length_append, List.length_cons]
  omega

/-- From a position on, the loop appends the pieces of what is left, and reads behind the end
exactly where that is empty or ends with the delimiter. -/
theorem splitLoop_from {fuel : Nat} (hstart : start ≤ s.length) (hfuel : s.length - start < fuel)
    (r : SplitRun) :
    ∃ accesses, splitLoop fuel s delimiter r start =
        some ⟨r.result ++ split (s.drop start) delimiter, r.accesses ++ accesses⟩ ∧
      ((∀ a ∈ accesses, a.InBounds) ↔ ¬EndsHere delimiter (s.drop start)) := by
  induction fuel generalizing r start with
  | zero => omega
  | succ fuel ih =>
    have hlen : (s.drop start).length = s.length - start := List.length_drop
    by_cases hmem : delimiter ∈ s.drop start
    · obtain ⟨before, rest, hs, hbefore⟩ := List.eq_append_cons_of_mem hmem
      have hpiece : (s.drop start).take (start + before.length - start) = before := by
        rw [Nat.add_sub_cancel_left, hs, List.take_left]
      have hrest : s.drop (start + before.length + 1) = rest := by
        rw [Nat.add_assoc, ← List.drop_drop, hs]
        simp [List.drop_append]
      rw [hs, List.length_append, List.length_cons] at hlen
      have hinside : start + before.length ≠ s.length := by omega
      obtain ⟨accesses, hloop, hbounds⟩ := @ih (start + before.length + 1) (by omega) (by omega)
        ⟨r.result ++ [before], r.accesses ++ [⟨start, s.length⟩]⟩
      refine ⟨⟨start, s.length⟩ :: accesses, ?_, ?_⟩
      · rw [splitLoop, find_eq_some hbefore hs, Option.getD_some, hpiece, if_pos hinside, hloop,
          hrest, hs, split_append_cons hbefore]
        simp
      · have hfirst : Access.InBounds ⟨start, s.length⟩ := by
          show start < s.length
          omega
        rw [List.forall_mem_cons, and_iff_right hfirst, hbounds, hrest, hs,
          endsHere_append_cons]
    · refine ⟨[⟨start, s.length⟩], ?_, ?_⟩
      · have hpiece : (s.drop start).take (s.length - start) = s.drop start :=
          List.take_of_length_le (by omega)
        rw [splitLoop, find_eq_none hmem, Option.getD_none, hpiece, split_of_not_mem hmem]
        simp
      · rw [List.forall_mem_singleton, endsHere_of_not_mem hmem, ← List.length_eq_zero_iff, hlen]
        show start < s.length ↔ _
        omega

/-- The loop returns, with the pieces that `split` stands for. -/
theorem splitLoop_run (s : QByteArray) (delimiter : UInt8) :
    ∃ accesses, splitLoop (s.length + 1) s delimiter ⟨[], []⟩ 0 =
        some ⟨split s delimiter, accesses⟩ ∧
      ((∀ a ∈ accesses, a.InBounds) ↔ ¬EndsHere delimiter s) :=
  splitLoop_from (Nat.zero_le _) (by omega) ⟨[], []⟩

end loop

section pieces
variable (s : QByteArray) (delimiter : UInt8)

/-- The loop of split ends. Its pieces have no delimiter in them, and joined with delimiters
they are the string again, so there is one more of them than there are delimiters. -/
theorem splitLoop_pieces :
    ∃ r, splitLoop (s.length + 1) s delimiter ⟨[], []⟩ 0 = some r ∧ r.result ≠ [] ∧
      (∀ piece ∈ r.result, delimiter ∉ piece) ∧ [delimiter].intercalate r.result = s ∧
      r.result.length = s.count delimiter + 1 := by
  obtain ⟨accesses, hrun, -⟩ := splitLoop_run s delimiter
  refine ⟨_, hrun, ?_, delimiter_not_mem_split s delimiter, ?_, ?_⟩
  · rw [split_eq_splitOn]
    exact List.splitOn_ne_nil delimiter s
  · rw [split_eq_splitOn]
    exact List.intercalate_splitOn delimiter
  · rw [split_eq_splitOn]
    exact Separators.length_splitOn s delimiter

end pieces

section bounds

theorem lineAccesses_inBounds_iff (line : QByteArray) :
    (∀ a ∈ lineAccesses line, a.InBounds) ↔ ¬ColonLast line := by
  cases line with
  | nil => simp [lineAccesses, ColonLast]
  | cons front rest =>
    have hfirst : Access.InBounds ⟨0, (front :: rest).length⟩ := Nat.succ_pos _
    have hle : (front :: rest).idxOf 58 ≤ (front :: rest).length := List.idxOf_le_length
    rw [lineAccesses, List.forall_mem_cons, and_iff_right hfirst, ColonLast, List.head?_cons]
    split
    · next hcond =>
      refine iff_of_true (by simp) fun hlast => ?_
      cases hcond with
      | inl hspace => exact hlast.1 (congrArg some hspace)
      | inr hnone => omega
    · next hcond =>
      rw [not_or] at hcond
      have hname : some front ≠ some 32 := fun h => hcond.1 (Option.some.inj h)
      rw [List.forall_mem_singleton, and_iff_right hname]
      show (front :: rest).idxOf 58 + 1 < (front :: rest).length ↔ _
      omega

end bounds

/-- The loop of split stays in a string exactly if that is neither empty nor ends with the
delimiter, and the parser stays in the lines of a text exactly if no line with a name has its
first colon as its last character. -/
theorem accesses_inBounds_iff (s : QByteArray) (delimiter : UInt8) (resultData : QByteArray) :
    (∃ r, splitLoop (s.length + 1) s delimiter ⟨[], []⟩ 0 = some r ∧
      ((∀ a ∈ r.accesses, a.InBounds) ↔ s ≠ [] ∧ s.getLast? ≠ some delimiter)) ∧
    ((∀ a ∈ parseAccesses resultData, a.InBounds) ↔
      ∀ line ∈ split resultData 10, ¬ColonLast line) := by
  constructor
  · obtain ⟨accesses, hrun, hbounds⟩ := splitLoop_run s delimiter
    exact ⟨_, hrun, by rw [hbounds, EndsHere, not_or]⟩
  · rw [parseAccesses]
    constructor
    · intro h line hline
      exact (lineAccesses_inBounds_iff line).mp fun a ha =>
        h a (List.mem_flatMap.mpr ⟨line, hline, ha⟩)
    · intro h a ha
      obtain ⟨line, hline, hmem⟩ := List.mem_flatMap.mp ha
      exact (lineAccesses_inBounds_iff line).mpr (h line hline) a hmem

/-- The empty string, a delimiter at the end, and a line that ends with its first colon. -/
theorem accesses_behind_end :
    (splitLoop 1 [] 44 ⟨[], []⟩ 0).map SplitRun.accesses = some [⟨0, 0⟩] ∧
    (splitLoop 5 [97, 98, 99, 44] 44 ⟨[], []⟩ 0).map SplitRun.accesses =
      some [⟨0, 4⟩, ⟨4, 4⟩] ∧
    parseAccesses [97, 58] = [⟨0, 2⟩, ⟨2, 2⟩] ∧
    ¬Access.InBounds ⟨0, 0⟩ ∧ ¬Access.InBounds ⟨4, 4⟩ ∧ ¬Access.InBounds ⟨2, 2⟩ := by
  decide +kernel

end QGpgME.ADQueryResult
