import QGpgME.ADQueryResult
import Mathlib.Tactic.SplitIfs

/-! Which lines of an AD query result an attribute is made of: the lines by their kinds, a
line that is not recognised and what follows it, and attributes folded over several lines. -/
namespace QGpgME.ADQueryLines
open ADQueryResult

/-- The parser on lines. -/
def parseLines (lines : List QByteArray) : List Attribute := lines.foldl parseLine []

theorem parseQueryResult_eq (text : QByteArray) :
    parseQueryResult text = parseLines (split text 10) := rfl

theorem parse_intercalate {lines : List QByteArray} (h : ∀ line ∈ lines, 10 ∉ line) :
    parseQueryResult ([10].intercalate lines) = parseLines lines := by
  by_cases hne : lines = []
  · rw [hne, List.intercalate_nil, parseQueryResult_eq, split_eq_splitOn, List.splitOn_nil]
    rfl
  · rw [parseQueryResult_eq, split_intercalate hne h]

def Continuation (line : QByteArray) : Prop := line.head? = some 32

/-- A space follows the first colon. -/
def Separated (line : QByteArray) : Prop :=
  line.idxOf 58 < line.length ∧ getElem? line (line.idxOf 58 + 1) = some 32

def Recognised (line : QByteArray) : Prop :=
  line ≠ [] ∧ ¬Continuation line ∧ Separated line

def Unrecognised (line : QByteArray) : Prop :=
  line ≠ [] ∧ ¬Continuation line ∧ ¬Separated line

instance (line : QByteArray) : Decidable (Continuation line) := inferInstanceAs (Decidable (_ = _))

instance (line : QByteArray) : Decidable (Separated line) := inferInstanceAs (Decidable (_ ∧ _))

instance (line : QByteArray) : Decidable (Recognised line) := inferInstanceAs (Decidable (_ ∧ _))

instance (line : QByteArray) : Decidable (Unrecognised line) := inferInstanceAs (Decidable (_ ∧ _))

/-- The attribute that a recognised line starts. -/
def lineAttribute (line : QByteArray) : Attribute :=
  ⟨fromStdStringView (line.take (line.idxOf 58)),
    fromStdStringView (line.drop (line.idxOf 58 + 2))⟩

theorem kinds (line : QByteArray) :
    line = [] ∨ Continuation line ∨ Recognised line ∨ Unrecognised line := by
  by_cases hnil : line = []
  · exact Or.inl hnil
  · by_cases hc : Continuation line
    · exact Or.inr (Or.inl hc)
    · by_cases hs : Separated line
      · exact Or.inr (Or.inr (Or.inl ⟨hnil, hc, hs⟩))
      · exact Or.inr (Or.inr (Or.inr ⟨hnil, hc, hs⟩))

theorem parseLine_continuation_nil {line : QByteArray} (h : Continuation line) :
    parseLine [] line = [] := by
  cases line with
  | nil => rfl
  | cons front rest =>
    obtain rfl : front = 32 := Option.some.inj h
    rfl

theorem parseLine_continuation {line : QByteArray} (h : Continuation line) (init : List Attribute)
    (a : Attribute) : parseLine (init ++ [a]) line =
      init ++ [{ a with value := a.value ++ fromStdStringView line.tail }] := by
  cases line with
  | nil => simp [Continuation] at h
  | cons front rest =>
    obtain rfl : front = 32 := Option.some.inj h
    simp [parseLine]

theorem parseLine_recognised {line : QByteArray} (h : Recognised line) (result : List Attribute) :
    parseLine result line = result ++ [lineAttribute line] := by
  obtain ⟨hne, hc, hlt, hspace⟩ := h
  cases line with
  | nil => exact absurd rfl hne
  | cons front rest =>
    have hfront : front ≠ 32 := fun heq => hc (by rw [Continuation, heq, List.head?_cons])
    have hgo : ¬((front :: rest).idxOf 58 = (front :: rest).length ∨
        getElem? (front :: rest) ((front :: rest).idxOf 58 + 1) ≠ some 32) := by
      intro hstop
      cases hstop with
      | inl heq => omega
      | inr hother => exact hother hspace
    simp only [parseLine, if_neg hfront, if_neg hgo]
    rfl

theorem parseLine_unrecognised {line : QByteArray} (h : Unrecognised line)
    (result : List Attribute) : parseLine result line = result := by
  obtain ⟨hne, hc, hs⟩ := h
  cases line with
  | nil => exact absurd rfl hne
  | cons front rest =>
    have hfront : front ≠ 32 := fun heq => hc (by rw [Continuation, heq, List.head?_cons])
    have hstop : (front :: rest).idxOf 58 = (front :: rest).length ∨
        getElem? (front :: rest) ((front :: rest).idxOf 58 + 1) ≠ some 32 := by
      by_contra hgo
      rw [not_or, not_not] at hgo
      have hle : (front :: rest).idxOf 58 ≤ (front :: rest).length := List.idxOf_le_length
      exact hs ⟨Nat.lt_of_le_of_ne hle hgo.1, hgo.2⟩
    simp only [parseLine, if_neg hfront, if_pos hstop]

/-- Further lines add text to the value of the last attribute and attributes behind it, the
same whatever has been read before. -/
theorem foldl_parseLine (lines : List QByteArray) : ∃ more rest, ∀ init a,
    lines.foldl parseLine (init ++ [a]) =
      init ++ { a with value := a.value ++ more } :: rest := by
  induction lines with
  | nil => exact ⟨[], [], fun init a => by simp⟩
  | cons line lines ih =>
    obtain ⟨more, rest, ih⟩ := ih
    obtain rfl | hc | hr | hu := kinds line
    · exact ⟨more, rest, fun init a => ih init a⟩
    · refine ⟨fromStdStringView line.tail ++ more, rest, fun init a => ?_⟩
      rw [List.foldl_cons, parseLine_continuation hc, ih, List.append_assoc]
    · refine ⟨[], { lineAttribute line with value := (lineAttribute line).value ++ more } :: rest,
        fun init a => ?_⟩
      rw [List.foldl_cons, parseLine_recognised hr, ih, List.append_nil, List.append_assoc]
      rfl
    · refine ⟨more, rest, fun init a => ?_⟩
      rw [List.foldl_cons, parseLine_unrecognised hu, ih]

theorem parseLines_eq_nil_iff {lines : List QByteArray} :
    parseLines lines = [] ↔ ∀ line ∈ lines, ¬Recognised line := by
  induction lines with
  | nil => simp [parseLines]
  | cons line lines ih =>
    rw [List.forall_mem_cons, ← ih]
    have hskip : parseLine [] line = [] →
        (parseLines (line :: lines) = [] ↔ parseLines lines = []) := by
      intro h
      rw [parseLines, List.foldl_cons, h, parseLines]
    obtain rfl | hc | hr | hu := kinds line
    · rw [hskip rfl]
      simp [Recognised]
    · rw [hskip (parseLine_continuation_nil hc)]
      simp [Recognised, hc]
    · obtain ⟨more, rest, hlast⟩ := foldl_parseLine lines
      have hread : parseLines (line :: lines) ≠ [] := by
        have h := hlast [] (lineAttribute line)
        rw [parseLines, List.foldl_cons, parseLine_recognised hr, h]
        exact List.cons_ne_nil _ _
      simp [hread, hr]
    · rw [hskip (parseLine_unrecognised hu [])]
      exact ⟨fun h => ⟨fun hr => hu.2.2 hr.2.2, h⟩, fun h => h.2⟩

/-- Continuation lines add their texts to the value of the last attribute. -/
theorem foldl_continuations {conts : List QByteArray} (h : ∀ line ∈ conts, Continuation line)
    (init : List Attribute) (a : Attribute) :
    conts.foldl parseLine (init ++ [a]) = init ++ [{ a with
      value := a.value ++ conts.flatMap fun line => fromStdStringView line.tail }] := by
  induction conts generalizing a with
  | nil => simp
  | cons line conts ih =>
    rw [List.foldl_cons, parseLine_continuation (h line (by simp)),
      ih fun line hl => h line (List.mem_cons_of_mem _ hl), List.flatMap_cons, List.append_assoc]

theorem foldl_continuations_nil {conts : List QByteArray}
    (h : ∀ line ∈ conts, Continuation line) : conts.foldl parseLine [] = [] := by
  induction conts with
  | nil => rfl
  | cons line conts ih =>
    rw [List.foldl_cons, parseLine_continuation_nil (h line (by simp)),
      ih fun line hl => h line (List.mem_cons_of_mem _ hl)]

/-- To take a line that is not recognised out of the text, with continuation lines directly
behind it, changes nothing if and only if no attribute was read before or the continuation
lines have no text. -/
theorem removed_iff {text line : QByteArray} {before conts after : List QByteArray}
    (hsplit : split text 10 = before ++ line :: (conts ++ after)) (hline : Unrecognised line)
    (hconts : ∀ c ∈ conts, Continuation c) :
    parseQueryResult ([10].intercalate (before ++ after)) = parseQueryResult text ↔
      (∀ l ∈ before, ¬Recognised l) ∨ ∀ c ∈ conts, fromStdStringView c.tail = [] := by
  have hpieces := delimiter_not_mem_split text 10
  rw [hsplit] at hpieces
  have hrest : ∀ l ∈ before ++ after, 10 ∉ l := by
    intro l hl
    refine hpieces l ?_
    cases List.mem_append.mp hl with
    | inl hb => exact List.mem_append_left _ hb
    | inr ha =>
      exact List.mem_append_right _ (List.mem_cons_of_mem _ (List.mem_append_right _ ha))
  have hwith : parseQueryResult text =
      after.foldl parseLine (conts.foldl parseLine (parseLines before)) := by
    rw [parseQueryResult_eq, hsplit, parseLines, List.foldl_append, List.foldl_cons,
      parseLine_unrecognised hline, List.foldl_append]
    rfl
  have hwithout : parseQueryResult ([10].intercalate (before ++ after)) =
      after.foldl parseLine (parseLines before) := by
    rw [parse_intercalate hrest, parseLines, List.foldl_append]
    rfl
  rw [hwith, hwithout, ← parseLines_eq_nil_iff]
  cases List.eq_nil_or_concat (parseLines before) with
  | inl hnil =>
    rw [hnil, foldl_continuations_nil hconts]
    simp
  | inr hlast =>
    obtain ⟨init, a, hread⟩ := hlast
    obtain ⟨more, rest, hafter⟩ := foldl_parseLine after
    rw [hread, List.concat_eq_append, foldl_continuations hconts, hafter, hafter]
    have hvalue : ∀ x : QString, a.value ++ more = a.value ++ x ++ more ↔ x = [] := by
      intro x
      rw [List.append_assoc, List.append_cancel_left_eq, List.self_eq_append_left]
    rw [List.append_cancel_left_eq, List.cons.injEq, Attribute.mk.injEq, hvalue,
      List.flatMap_eq_nil_iff]
    simp

theorem removed_iff_first_line :
    parseQueryResult ([10].intercalate ([] ++ [QString.toUtf8 "a: 1".toList])) =
        parseQueryResult (QString.toUtf8 "bad\n x\na: 1".toList) ↔
      (∀ l ∈ ([] : List QByteArray), ¬Recognised l) ∨
        ∀ c ∈ [QString.toUtf8 " x".toList], fromStdStringView c.tail = [] := by
  have hline : Unrecognised (QString.toUtf8 "bad".toList) := by decide +kernel
  have hcont : Continuation (QString.toUtf8 " x".toList) := by decide +kernel
  refine removed_iff ?_ hline (List.forall_mem_singleton.mpr hcont)
  rw [split_eq_splitOn]
  decide +kernel

/-- The line behind one that is skipped is added to the attribute before that. -/
theorem continuation_misplaced :
    let text := QString.toUtf8 "a: 1\nbad\n x".toList
    split text 10 = [QString.toUtf8 "a: 1".toList, QString.toUtf8 "bad".toList,
      QString.toUtf8 " x".toList] ∧
    Unrecognised (QString.toUtf8 "bad".toList) ∧ Continuation (QString.toUtf8 " x".toList) ∧
    parseQueryResult text = [⟨"a".toList, "1x".toList⟩] ∧
    parseQueryResult ([10].intercalate [QString.toUtf8 "a: 1".toList]) =
      [⟨"a".toList, "1".toList⟩] := by
  refine ⟨?_, ?_, ?_, ?_, ?_⟩
  all_goals decide +kernel

section roundtrip

/-- An attribute as it is written: the value is folded into a first piece behind the name and
further pieces on continuation lines. -/
structure Written where
  name : QString
  first : QString
  more : List QString
  name_ne : name ≠ []
  name_colon : ':' ∉ name
  name_line : '\n' ∉ name
  name_start : name.head? ≠ some ' '
  value_line : ∀ piece ∈ first :: more, '\n' ∉ piece

namespace Written

def toAttribute (w : Written) : Attribute := ⟨w.name, (w.first :: w.more).flatten⟩

def firstLine (w : Written) : QByteArray := QString.toUtf8 (w.name ++ ':' :: ' ' :: w.first)

def lines (w : Written) : List QByteArray :=
  w.firstLine :: w.more.map fun piece => QString.toUtf8 (' ' :: piece)

/-- Neither the name nor a piece of the value begins with a byte order mark. -/
def Unmarked (w : Written) : Prop :=
  ∀ s ∈ w.name :: w.first :: w.more, s.head? ≠ some '\uFEFF'

/-- What is read back: each part is decoded on its own. -/
def readBack (w : Written) : Attribute :=
  ⟨QString.skipMark w.name, (w.first :: w.more).flatMap QString.skipMark⟩

end Written

theorem fromStdStringView_toUtf8 (s : QString) :
    fromStdStringView (QString.toUtf8 s) = QString.skipMark s := by
  rw [fromStdStringView, ← QString.fromUtf8_toUtf8]
  split_ifs with h
  · rw [h]
    rfl
  · rfl

theorem skipMark_eq_self_iff {s : QString} :
    QString.skipMark s = s ↔ s.head? ≠ some '\uFEFF' := by
  cases s with
  | nil => simp [QString.skipMark]
  | cons c s =>
    rw [QString.skipMark, List.head?_cons]
    split_ifs with hc
    · simp [hc]
    · simp [hc]

theorem flatMap_skipMark_iff {pieces : List QString} :
    pieces.flatMap QString.skipMark = pieces.flatten ↔
      ∀ piece ∈ pieces, QString.skipMark piece = piece := by
  have hle : ∀ ps : List QString, (ps.flatMap QString.skipMark).length ≤ ps.flatten.length := by
    intro ps
    induction ps with
    | nil => exact Nat.le_refl _
    | cons p ps ih =>
      have hp := (QString.skipMark_sublist p).length_le
      simp only [List.flatMap_cons, List.flatten_cons, List.length_append]
      omega
  induction pieces with
  | nil => simp
  | cons p ps ih =>
    rw [List.flatMap_cons, List.flatten_cons, List.forall_mem_cons]
    constructor
    · intro h
      have hp := (QString.skipMark_sublist p).length_le
      have hps := hle ps
      have hlen := congrArg List.length h
      rw [List.length_append, List.length_append] at hlen
      obtain ⟨hpiece, hrest⟩ := List.append_inj h (by omega)
      exact ⟨hpiece, ih.mp hrest⟩
    · intro ⟨hpiece, hrest⟩
      rw [hpiece, ih.mpr hrest]

theorem readBack_eq_iff {w : Written} : w.readBack = w.toAttribute ↔ w.Unmarked := by
  rw [Written.readBack, Written.toAttribute, Attribute.mk.injEq, flatMap_skipMark_iff,
    Written.Unmarked]
  simp only [List.forall_mem_cons, skipMark_eq_self_iff]

theorem firstLine_eq (w : Written) : w.firstLine =
    QString.toUtf8 w.name ++ 58 :: 32 :: QString.toUtf8 w.first := by
  rw [Written.firstLine, QString.toUtf8, Utf8.encode_append, Utf8.encode_cons, Utf8.encode_cons]
  rfl

theorem idxOf_firstLine (w : Written) :
    w.firstLine.idxOf 58 = (QString.toUtf8 w.name).length := by
  have hnot : 58 ∉ QString.toUtf8 w.name :=
    fun h => w.name_colon ((Utf8.mem_encode_ascii (a := ':') (by decide)).mp h)
  rw [firstLine_eq, List.idxOf_append_of_notMem hnot, List.idxOf_cons_self, Nat.add_zero]

theorem firstLine_recognised (w : Written) : Recognised w.firstLine := by
  refine ⟨by simp [firstLine_eq], fun hc => ?_, ?_, ?_⟩
  · obtain ⟨c, name, hname⟩ := List.exists_cons_of_ne_nil w.name_ne
    obtain ⟨b, bs, hcode⟩ : ∃ b bs, String.utf8EncodeChar c = b :: bs :=
      List.exists_cons_of_ne_nil (List.ne_nil_of_length_pos (Utf8.encodeChar_length_pos c))
    have hmem : 32 ∈ Utf8.encode [c] := by
      rw [Continuation, firstLine_eq, hname, QString.toUtf8, Utf8.encode_cons, hcode] at hc
      obtain rfl : b = 32 := Option.some.inj hc
      simp [hcode]
    have hspace : ' ' ∈ [c] := (Utf8.mem_encode_ascii (a := ' ') (by decide)).mp hmem
    refine w.name_start ?_
    rw [hname, List.head?_cons, List.mem_singleton.mp hspace]
  · rw [idxOf_firstLine, firstLine_eq]
    simp
  · rw [idxOf_firstLine, firstLine_eq]
    simp

theorem lineAttribute_firstLine (w : Written) : lineAttribute w.firstLine =
    ⟨QString.skipMark w.name, QString.skipMark w.first⟩ := by
  rw [lineAttribute, idxOf_firstLine, firstLine_eq, List.take_left, fromStdStringView_toUtf8,
    List.drop_append, List.drop_of_length_le (Nat.le_add_right _ _), Nat.add_sub_cancel_left,
    List.nil_append]
  exact congrArg _ (fromStdStringView_toUtf8 w.first)

/-- Empty lines are passed over. -/
theorem foldl_filter (lines : List QByteArray) (result : List Attribute) :
    (lines.filter (· ≠ [])).foldl parseLine result = lines.foldl parseLine result := by
  induction lines generalizing result with
  | nil => rfl
  | cons line lines ih =>
    rw [List.filter_cons]
    split_ifs with hne
    · rw [List.foldl_cons, List.foldl_cons, ih]
    · obtain rfl : line = [] := by simpa using hne
      rw [ih]
      rfl

theorem foldl_lines (w : Written) (result : List Attribute) :
    w.lines.foldl parseLine result = result ++ [w.readBack] := by
  have hconts : ∀ line ∈ w.more.map fun piece => QString.toUtf8 (' ' :: piece),
      Continuation line := by
    intro line hline
    obtain ⟨piece, -, rfl⟩ := List.mem_map.mp hline
    rfl
  rw [Written.lines, List.foldl_cons, parseLine_recognised (firstLine_recognised w),
    foldl_continuations hconts, lineAttribute_firstLine, List.flatMap_map, Written.readBack,
    List.flatMap_cons]
  have hpiece : ∀ piece : QString,
      fromStdStringView (QString.toUtf8 (' ' :: piece)).tail = QString.skipMark piece :=
    fun piece => fromStdStringView_toUtf8 piece
  simp only [hpiece]

theorem foldl_written (ws : List Written) (result : List Attribute) :
    (ws.flatMap Written.lines).foldl parseLine result = result ++ ws.map Written.readBack := by
  induction ws generalizing result with
  | nil => simp
  | cons w ws ih =>
    rw [List.flatMap_cons, List.foldl_append, foldl_lines, ih, List.append_assoc]
    rfl

theorem newline_not_mem_lines (w : Written) : ∀ line ∈ w.lines, 10 ∉ line := by
  have hcode : ∀ s : QString, 10 ∈ QString.toUtf8 s → '\n' ∈ s :=
    fun s h => (Utf8.mem_encode_ascii (a := '\n') (by decide)).mp h
  intro line hline hmem
  cases List.mem_cons.mp hline with
  | inl hfirst =>
    rw [hfirst] at hmem
    have hin := hcode _ hmem
    simp only [List.mem_append, List.mem_cons, w.name_line, Char.reduceEq, false_or] at hin
    exact w.value_line w.first List.mem_cons_self hin
  | inr hmore =>
    obtain ⟨piece, hpiece, rfl⟩ := List.mem_map.mp hmore
    have hin := hcode _ hmem
    simp only [List.mem_cons, Char.reduceEq, false_or] at hin
    exact w.value_line piece (List.mem_cons_of_mem _ hpiece) hin

/-- Attributes written with any folding and any empty lines between are read back as they are,
if and only if no name and no piece of a value begins with a byte order mark. -/
theorem parse_written_iff (ws : List Written) (lines : List QByteArray)
    (h : lines.filter (· ≠ []) = ws.flatMap Written.lines) :
    parseQueryResult ([10].intercalate lines) = ws.map Written.toAttribute ↔
      ∀ w ∈ ws, w.Unmarked := by
  have hlines : ∀ line ∈ lines, 10 ∉ line := by
    intro line hline
    by_cases hne : line = []
    · simp [hne]
    · have hmem : line ∈ ws.flatMap Written.lines := by
        rw [← h]
        exact List.mem_filter.mpr ⟨hline, by simpa using hne⟩
      obtain ⟨w, -, hw⟩ := List.mem_flatMap.mp hmem
      exact newline_not_mem_lines w line hw
  rw [parse_intercalate hlines, parseLines, ← foldl_filter, h, foldl_written, List.nil_append,
    List.map_inj_left]
  exact forall₂_congr fun w _ => readBack_eq_iff

/-- A value folded into three pieces, the last one empty. -/
def foldedValue : Written where
  name := "a".toList
  first := " 1:".toList
  more := [": 2".toList, []]
  name_ne := by decide
  name_colon := by decide
  name_line := by decide
  name_start := by decide
  value_line := by decide +kernel

theorem parse_written_iff_foldedValue :
    parseQueryResult ([10].intercalate ([] :: foldedValue.lines ++ [[]])) =
        [foldedValue].map Written.toAttribute ↔ ∀ w ∈ [foldedValue], w.Unmarked :=
  parse_written_iff [foldedValue] ([] :: foldedValue.lines ++ [[]]) (by decide +kernel)

def markedPiece : Written where
  name := "a".toList
  first := "1".toList
  more := ["\uFEFF2".toList]
  name_ne := by decide
  name_colon := by decide
  name_line := by decide
  name_start := by decide
  value_line := by decide +kernel

/-- A byte order mark is kept inside a piece and lost at the beginning of one. -/
theorem mark_lost :
    parseQueryResult ([10].intercalate markedPiece.lines) = [⟨"a".toList, "12".toList⟩] ∧
    [markedPiece].map Written.toAttribute = [⟨"a".toList, "1\uFEFF2".toList⟩] ∧
    parseQueryResult (QString.toUtf8 "a: 1\uFEFF2".toList) =
      [⟨"a".toList, "1\uFEFF2".toList⟩] := by
  refine ⟨?_, ?_, ?_⟩
  all_goals decide +kernel

end roundtrip

end QGpgME.ADQueryLines
