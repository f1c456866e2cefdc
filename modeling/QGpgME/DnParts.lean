import QGpgME.DnParser

/-! The text of a distinguished name part by part: what stands behind a separator changes
nothing in the way the parts in front of it are read. -/
namespace QGpgME.Dn

/-- Where in a part the next character stands: in the type, in front of the value, in the
value, or in a quoted value, there or in the value behind a backslash. -/
inductive Place where
  | key | start | plain | escaped | quoted | quotedEscaped
deriving DecidableEq

namespace Place

/-- In a value that is not quoted. -/
def nextPlain (c : UInt8) : Place :=
  if c = byte '\\' then .escaped
  else if separators.contains c then .key
  else .plain

def next : Place → UInt8 → Place
  | .key, c => if c = byte '=' then .start else .key
  | .start, c =>
    if isBlank c then .start
    else if c = byte '"' then .quoted
    else nextPlain c
  | .plain, c => nextPlain c
  | .escaped, _ => .plain
  | .quoted, c =>
    if c = byte '\\' then .quotedEscaped
    else if c = byte '"' then .plain
    else .quoted
  | .quotedEscaped, _ => .quoted

def after (place : Place) (text : QByteArray) : Place := text.foldl next place

/-- What stands here is neither escaped nor quoted. -/
def bare : Place → Bool
  | .key => true
  | .start => true
  | .plain => true
  | _ => false

end Place

/-- The last character that is no space is a separator, neither escaped nor quoted. -/
def endsInSeparator (place : Place) : QByteArray → Bool
  | [] => false
  | c :: rest =>
    (separators.contains c && place.bare && rest.all isBlank) ||
      endsInSeparator (place.next c) rest

section appended
variable {c : UInt8} {rest : QByteArray}

theorem separator_plain (hc : c ∈ separators) :
    c ∈ valueEnds ∧ isBlank c = false ∧ isHexDigit c = false ∧ c ≠ byte '\\' ∧
      c ≠ byte '"' := by
  revert c
  decide

theorem takeWhile_append_stop {p : UInt8 → Bool} (hc : p c = false) (s : QByteArray) :
    (s ++ c :: rest).takeWhile p = s.takeWhile p := by
  induction s with
  | nil => simp [hc]
  | cons b s ih =>
    rw [List.cons_append, List.takeWhile_cons, List.takeWhile_cons, ih]

theorem dropWhile_append_stop {p : UInt8 → Bool} (hc : p c = false) (s : QByteArray) :
    (s ++ c :: rest).dropWhile p = s.dropWhile p ++ c :: rest := by
  induction s with
  | nil => simp [hc]
  | cons b s ih =>
    rw [List.cons_append, List.dropWhile_cons, List.dropWhile_cons, ih]
    split
    · rfl
    · rfl

theorem removeLeadingSpaces_append (hc : c ∈ separators) (s : QByteArray) :
    removeLeadingSpaces (s ++ c :: rest) = removeLeadingSpaces s ++ c :: rest :=
  dropWhile_append_stop (separator_plain hc).2.1 s

theorem hexValue_append (hc : c ∈ separators) {s left value : QByteArray}
    (h : hexValue s = some (left, value)) :
    hexValue (s ++ c :: rest) = some (left ++ c :: rest, value) := by
  obtain ⟨-, -, hhex, -, -⟩ := separator_plain hc
  obtain ⟨v, hv, hpair⟩ := Option.map_eq_some_iff.mp h
  obtain ⟨rfl, rfl⟩ := Prod.mk.inj hpair
  rw [hexValue, takeWhile_append_stop hhex, dropWhile_append_stop hhex, hv]
  rfl

theorem quotedValue_append {acc s left value : QByteArray}
    (h : quotedValue acc s = some (left, value)) :
    quotedValue acc (s ++ rest) = some (left ++ rest, value) := by
  have hesc : byte '"' ≠ byte '\\' := by decide
  fun_induction quotedValue acc s with
  | case1 => simp at h
  | case2 => simp at h
  | case3 acc s ih =>
    rw [List.cons_append, List.cons_append, quotedValue, if_pos rfl, if_pos rfl]
    exact ih h
  | case4 acc second s hsecond ih =>
    rw [List.cons_append, List.cons_append, quotedValue, if_pos rfl, if_neg hsecond]
    exact ih h
  | case5 acc s =>
    obtain ⟨rfl, rfl⟩ := Prod.mk.inj (Option.some.inj h)
    rw [List.cons_append, quotedValue.eq_def]
    simp only [if_neg hesc, if_true]
  | case6 acc front s hfront hquote ih =>
    rw [List.cons_append, quotedValue.eq_def]
    simp only [if_neg hfront, if_neg hquote]
    exact ih h

theorem unquotedValue_pair {second third : UInt8} (hsecond : ¬escapable.contains second = true)
    (hhex : (isHexDigit second && isHexDigit third) = true) (value : QByteArray) (f : Bool) :
    unquotedValue value f (byte '\\' :: second :: third :: rest) =
      unquotedValue (value ++ [xtoi₂ second third]) false rest := by
  rw [unquotedValue.eq_def]
  simp only [if_true, if_neg hsecond, if_pos hhex]

theorem unquotedValue_append (hc : c ∈ separators) {acc s left value : QByteArray} {f : Bool}
    (h : unquotedValue acc f s = some (left, value)) :
    unquotedValue acc f (s ++ c :: rest) = some (left ++ c :: rest, value) := by
  fun_induction unquotedValue acc f s with
  | case1 acc f =>
    obtain ⟨rfl, rfl⟩ := Prod.mk.inj (Option.some.inj h)
    exact unquotedValue_stop (separator_plain hc).1 acc f
  | case2 => simp at h
  | case3 acc f second s hsecond ih =>
    rw [List.cons_append, List.cons_append, unquotedValue_escaped (by simpa using hsecond)]
    exact ih h
  | case4 => simp at h
  | case5 acc f second hsecond third s hhex ih =>
    rw [List.cons_append, List.cons_append, List.cons_append, unquotedValue_pair hsecond hhex]
    exact ih h
  | case6 => simp at h
  | case7 => simp at h
  | case8 acc f front s _ _ hends =>
    obtain ⟨rfl, rfl⟩ := Prod.mk.inj (Option.some.inj h)
    exact unquotedValue_stop (by simpa using hends) acc f
  | case9 acc f front s hbackslash hquote hends ih =>
    have hplain : front ∉ byte '\\' :: byte '"' :: valueEnds := by
      simp only [List.mem_cons, hbackslash, hquote, false_or]
      simpa using hends
    rw [List.cons_append, unquotedValue_plain hplain]
    exact ih h

theorem parseValue_append (hc : c ∈ separators) {s left value : QByteArray}
    (h : parseValue s = some (left, value)) :
    parseValue (s ++ c :: rest) = some (left ++ c :: rest, value) := by
  cases s with
  | nil => simp [parseValue] at h
  | cons front s =>
    rw [List.cons_append, parseValue]
    rw [parseValue] at h
    split_ifs at h ⊢
    · exact hexValue_append hc h
    · exact quotedValue_append h
    · exact unquotedValue_append hc h

/-- A part that is read is a type, an equals sign and a value. -/
theorem parseDnPart_cases {s left : QByteArray} {dnPair : QByteArray × QByteArray}
    (h : parseDnPart s = some (left, dnPair)) :
    ∃ key tail value, key ≠ [] ∧ byte '=' ∉ key ∧ s = key ++ byte '=' :: tail ∧
      parseValue (removeLeadingSpaces tail) = some (left, value) ∧
      dnPair = (renamed (removeTrailingSpaces key), value) := by
  have hmem : byte '=' ∈ s := by
    by_contra hnot
    simp only [parseDnPart, List.idxOf_eq_length hnot, or_true, if_true] at h
    simp at h
  obtain ⟨key, tail, rfl, hkey⟩ := List.eq_append_cons_of_mem hmem
  have hne : key ≠ [] := by
    intro hnil
    simp [parseDnPart, hnil] at h
  rw [parseDnPart_key hne hkey] at h
  obtain ⟨⟨left', value⟩, hvalue, hpair⟩ := Option.map_eq_some_iff.mp h
  obtain ⟨rfl, rfl⟩ := Prod.mk.inj hpair
  exact ⟨key, tail, value, hne, hkey, rfl, hvalue, rfl⟩

theorem parseDnPart_append (hc : c ∈ separators) {s left : QByteArray}
    {dnPair : QByteArray × QByteArray} (h : parseDnPart s = some (left, dnPair)) :
    parseDnPart (s ++ c :: rest) = some (left ++ c :: rest, dnPair) := by
  obtain ⟨key, tail, value, hne, hkey, rfl, hvalue, rfl⟩ := parseDnPart_cases h
  rw [List.append_assoc, List.cons_append, parseDnPart_key hne hkey,
    removeLeadingSpaces_append hc, parseValue_append hc hvalue, Option.map_some]

end appended

section places

theorem after_append (place : Place) (s t : QByteArray) :
    place.after (s ++ t) = (place.after s).after t := List.foldl_append

theorem after_key {key : QByteArray} (h : byte '=' ∉ key) : Place.key.after key = .key := by
  induction key with
  | nil => rfl
  | cons b key ih =>
    rw [List.mem_cons, not_or] at h
    show (Place.next .key b).after key = .key
    rw [Place.next, if_neg (Ne.symm h.1)]
    exact ih h.2

/-- In front of a value or in one that is not quoted. -/
def Place.InValue (place : Place) : Prop := place = .start ∨ place = .plain

theorem Place.InValue.after_spaces {place : Place} (h : place.InValue) {s : QByteArray}
    (hs : ∀ b ∈ s, isBlank b = true) : place.after s = place := by
  have hspace : place.next (byte ' ') = place := by
    cases h with
    | inl h =>
      rw [h]
      decide
    | inr h =>
      rw [h]
      decide
  induction s with
  | nil => rfl
  | cons b s ih =>
    obtain ⟨hb, hspaces⟩ := List.forall_mem_cons.mp hs
    obtain rfl : b = byte ' ' := by simpa [isBlank] using hb
    rw [after, List.foldl_cons, hspace]
    exact ih hspaces

theorem Place.InValue.next {place : Place} (h : place.InValue) {c : UInt8}
    (hc : c ∈ separators) : place.next c = .key := by
  have hplain : nextPlain c = .key := by
    revert c
    decide
  obtain ⟨-, hblank, -, -, hquote⟩ := separator_plain hc
  cases h with
  | inl h => simp only [h, Place.next, hblank, hquote, hplain, if_false, Bool.false_eq_true]
  | inr h => simp only [h, Place.next, hplain]

theorem quotedValue_place {acc s left value : QByteArray}
    (h : quotedValue acc s = some (left, value)) :
    ∃ used, s = used ++ left ∧ Place.quoted.after used = .plain := by
  have hesc : Place.quoted.next (byte '\\') = .quotedEscaped := by decide
  have hquote : Place.quoted.next (byte '"') = .plain := by decide
  fun_induction quotedValue acc s with
  | case1 => simp at h
  | case2 => simp at h
  | case3 acc s ih =>
    obtain ⟨used, rfl, hused⟩ := ih h
    refine ⟨byte '\\' :: byte '"' :: used, rfl, ?_⟩
    rw [Place.after, List.foldl_cons, List.foldl_cons, hesc]
    exact hused
  | case4 acc second s _ ih =>
    obtain ⟨used, rfl, hused⟩ := ih h
    refine ⟨byte '\\' :: second :: used, rfl, ?_⟩
    rw [Place.after, List.foldl_cons, List.foldl_cons, hesc]
    exact hused
  | case5 acc s =>
    obtain ⟨rfl, rfl⟩ := Prod.mk.inj (Option.some.inj h)
    exact ⟨[byte '"'], rfl, hquote⟩
  | case6 acc front s hfront hnot ih =>
    obtain ⟨used, rfl, hused⟩ := ih h
    refine ⟨front :: used, rfl, ?_⟩
    have hnext : Place.quoted.next front = .quoted := by
      rw [Place.next, if_neg hfront, if_neg hnot]
    rw [Place.after, List.foldl_cons, hnext]
    exact hused

theorem nextPlain_hex {b : UInt8} (hb : isHexDigit b = true) : Place.nextPlain b = .plain := by
  have hall : ∀ b ∈ literal "1234567890abcdefABCDEF", Place.nextPlain b = .plain := by decide
  exact hall b (by simpa [isHexDigit] using hb)

theorem unquotedValue_place {acc s left value : QByteArray} {f : Bool}
    (h : unquotedValue acc f s = some (left, value)) :
    ∃ used, s = used ++ left ∧ Place.plain.after used = .plain := by
  have hesc : Place.plain.next (byte '\\') = .escaped := by decide
  have hsub : ∀ b ∈ separators, b ∈ valueEnds := by decide
  fun_induction unquotedValue acc f s with
  | case1 acc f =>
    obtain ⟨rfl, rfl⟩ := Prod.mk.inj (Option.some.inj h)
    exact ⟨[], rfl, rfl⟩
  | case2 => simp at h
  | case3 acc f second s _ ih =>
    obtain ⟨used, rfl, hused⟩ := ih h
    refine ⟨byte '\\' :: second :: used, rfl, ?_⟩
    rw [Place.after, List.foldl_cons, List.foldl_cons, hesc]
    exact hused
  | case4 => simp at h
  | case5 acc f second _ third s hhex ih =>
    obtain ⟨used, rfl, hused⟩ := ih h
    refine ⟨byte '\\' :: second :: third :: used, rfl, ?_⟩
    have hthird : Place.plain.next third = .plain :=
      nextPlain_hex (Bool.and_eq_true_iff.mp hhex).2
    rw [Place.after, List.foldl_cons, List.foldl_cons, List.foldl_cons, hesc, Place.next, hthird]
    exact hused
  | case6 => simp at h
  | case7 => simp at h
  | case8 acc f front s =>
    obtain ⟨rfl, rfl⟩ := Prod.mk.inj (Option.some.inj h)
    exact ⟨[], rfl, rfl⟩
  | case9 acc f front s hbackslash hquote hends ih =>
    obtain ⟨used, rfl, hused⟩ := ih h
    refine ⟨front :: used, rfl, ?_⟩
    have hnot : ¬separators.contains front = true := by
      intro hmem
      exact hends (by simpa using hsub front (by simpa using hmem))
    have hnext : Place.plain.next front = .plain := by
      rw [Place.next, Place.nextPlain, if_neg hbackslash, if_neg hnot]
    rw [Place.after, List.foldl_cons, hnext]
    exact hused

theorem hexValue_place {s left value : QByteArray} (h : hexValue s = some (left, value)) :
    ∃ used, s = used ++ left ∧ Place.plain.after used = .plain := by
  obtain ⟨v, -, hpair⟩ := Option.map_eq_some_iff.mp h
  obtain ⟨rfl, -⟩ := Prod.mk.inj hpair
  refine ⟨s.takeWhile isHexDigit, (List.takeWhile_append_dropWhile).symm, ?_⟩
  have hhex : ∀ b ∈ s.takeWhile isHexDigit, isHexDigit b = true := fun b => List.mem_takeWhile_imp
  generalize s.takeWhile isHexDigit = digits at hhex
  induction digits with
  | nil => rfl
  | cons b digits ih =>
    obtain ⟨hb, hdigits⟩ := List.forall_mem_cons.mp hhex
    rw [Place.after, List.foldl_cons, Place.next, nextPlain_hex hb]
    exact ih hdigits

theorem parseValue_place {s left value : QByteArray} (h : parseValue s = some (left, value))
    (hs : ∀ b ∈ s.head?, isBlank b = false) :
    ∃ used, s = used ++ left ∧ (Place.start.after used).InValue := by
  have hhash : Place.start.next (byte '#') = .plain := by decide
  have hquote : Place.start.next (byte '"') = .quoted := by decide
  cases s with
  | nil => simp [parseValue] at h
  | cons front s =>
    rw [parseValue] at h
    split_ifs at h with hfront hfront'
    · obtain ⟨used, rfl, hused⟩ := hexValue_place h
      refine ⟨front :: used, rfl, Or.inr ?_⟩
      rw [Place.after, List.foldl_cons, hfront, hhash]
      exact hused
    · obtain ⟨used, rfl, hused⟩ := quotedValue_place h
      refine ⟨front :: used, rfl, Or.inr ?_⟩
      rw [Place.after, List.foldl_cons, hfront', hquote]
      exact hused
    · obtain ⟨used, hsplit, hused⟩ := unquotedValue_place h
      refine ⟨used, hsplit, ?_⟩
      cases used with
      | nil => exact Or.inl rfl
      | cons b used =>
        obtain rfl : front = b := (List.cons.inj hsplit).1
        have hblank : isBlank front = false := hs front rfl
        have hnext : Place.start.next front = Place.plain.next front := by
          simp only [Place.next, hblank, hfront', if_false, Bool.false_eq_true]
        refine Or.inr ?_
        rw [Place.after, List.foldl_cons, hnext]
        exact hused

/-- A part that is read leaves off in or in front of its value. -/
theorem parseDnPart_place {s left : QByteArray} {dnPair : QByteArray × QByteArray}
    (h : parseDnPart s = some (left, dnPair)) :
    ∃ used, s = used ++ left ∧ (Place.key.after used).InValue := by
  obtain ⟨key, tail, value, -, hkey, rfl, hvalue, -⟩ := parseDnPart_cases h
  have hspaces : ∀ b ∈ tail.takeWhile isBlank, isBlank b = true :=
    fun b => List.mem_takeWhile_imp
  have hhead : ∀ b ∈ (removeLeadingSpaces tail).head?, isBlank b = false := by
    intro b hb
    have hnot := List.head?_dropWhile_not isBlank tail
    rw [show (tail.dropWhile isBlank).head? = some b from hb] at hnot
    simpa using hnot
  obtain ⟨used, hused, hplace⟩ := parseValue_place hvalue hhead
  have htail : tail = tail.takeWhile isBlank ++ (used ++ left) := by
    rw [← hused]
    exact (List.takeWhile_append_dropWhile).symm
  have hstart := Place.InValue.after_spaces (Or.inl rfl : Place.start.InValue) hspaces
  refine ⟨key ++ byte '=' :: (tail.takeWhile isBlank ++ used), ?_, ?_⟩
  · rw [List.append_assoc, List.cons_append, List.append_assoc, ← htail]
  · have hequals : Place.key.next (byte '=') = .start := by decide
    rw [after_append, after_key hkey, Place.after, List.foldl_cons, hequals, List.foldl_append]
    rw [Place.after] at hstart hplace
    rw [hstart]
    exact hplace

end places

theorem endsInSeparator_append {x y : QByteArray} {place : Place}
    (h : endsInSeparator (place.after x) y = true) : endsInSeparator place (x ++ y) = true := by
  induction x generalizing place with
  | nil => exact h
  | cons b x ih =>
    rw [List.cons_append, endsInSeparator, Bool.or_eq_true]
    exact Or.inr (ih h)

/-- What stands in front of a separator behind a part. -/
theorem exists_front {s left rest : QByteArray} {separator : UInt8}
    {dnPair : QByteArray × QByteArray}
    (h : parseDnPart (removeLeadingSpaces s) = some (left, dnPair))
    (hleft : removeLeadingSpaces left = separator :: rest) :
    ∃ front, s = front ++ separator :: rest ∧ (Place.key.after front).InValue := by
  have hsplit : ∀ t : QByteArray, t = t.takeWhile isBlank ++ removeLeadingSpaces t :=
    fun t => (List.takeWhile_append_dropWhile).symm
  have hspaces : ∀ t : QByteArray, ∀ b ∈ t.takeWhile isBlank, isBlank b = true :=
    fun t b => List.mem_takeWhile_imp
  have hkey : byte '=' ∉ s.takeWhile isBlank :=
    fun hmem => absurd (hspaces s _ hmem) (by decide)
  obtain ⟨used, hused, hplace⟩ := parseDnPart_place h
  refine ⟨s.takeWhile isBlank ++ (used ++ left.takeWhile isBlank), ?_, ?_⟩
  · rw [List.append_assoc, List.append_assoc, ← hleft, ← hsplit left, ← hused]
    exact hsplit s
  · rw [after_append, after_key hkey, after_append, hplace.after_spaces (hspaces left)]
    exact hplace

/-- A separator behind a part is the last character that is no space, or is followed by parts
that end as the whole does. -/
theorem rest_of_separator {front rest : QByteArray} {separator : UInt8}
    (hfront : (Place.key.after front).InValue) (hsep : separator ∈ separators)
    (hend : endsInSeparator .key (front ++ separator :: rest) = false) :
    removeLeadingSpaces rest ≠ [] ∧ endsInSeparator .key rest = false := by
  constructor
  · intro hblank
    have hbare : (Place.key.after front).bare = true := by
      cases hfront with
      | inl h => rw [h, Place.bare]
      | inr h => rw [h, Place.bare]
    have hspaces : rest.all isBlank = true := by
      simpa using List.dropWhile_eq_nil_iff.mp hblank
    have hlast : endsInSeparator (Place.key.after front) (separator :: rest) = true := by
      rw [endsInSeparator, hbare, hspaces]
      simp [hsep]
    rw [endsInSeparator_append hlast] at hend
    exact absurd hend (by decide)
  · by_contra hrest
    rw [Bool.not_eq_false] at hrest
    have hplace : Place.key.after (front ++ [separator]) = .key := by
      rw [after_append]
      exact hfront.next hsep
    have hwhole : endsInSeparator .key ((front ++ [separator]) ++ rest) = true :=
      endsInSeparator_append (by rw [hplace]; exact hrest)
    rw [List.append_assoc, List.singleton_append, hend] at hwhole
    exact absurd hwhole (by decide)

/-- A string that is accepted is read the same in front of a separator, and what stands behind
that is read by itself: the whole is accepted where the rest is. -/
theorem parseParts_append {s₁ : QByteArray} {parts : Result} (h : parseParts s₁ = some parts)
    (hblank : removeLeadingSpaces s₁ ≠ []) (hend : endsInSeparator .key s₁ = false) {c : UInt8}
    (hc : c ∈ separators) (s₂ : QByteArray) :
    parseParts (s₁ ++ c :: s₂) = (parseParts s₂).map (parts ++ ·) := by
  rw [parseParts_leading hblank] at h
  obtain ⟨⟨left, dnPair⟩, hpart, h⟩ := Option.bind_eq_some_iff.mp h
  obtain ⟨later, hlater, rfl⟩ := Option.map_eq_some_iff.mp h
  have hne : removeLeadingSpaces (s₁ ++ c :: s₂) ≠ [] := by
    rw [removeLeadingSpaces_append hc]
    exact List.append_ne_nil_of_right_ne_nil _ (List.cons_ne_nil c s₂)
  rw [parseParts_leading hne, removeLeadingSpaces_append hc, parseDnPart_append hc hpart,
    Option.bind_some]
  have hnext : nextParts (left ++ c :: s₂) = (parseParts s₂).map (later ++ ·) := by
    rw [nextParts, removeLeadingSpaces_append hc]
    rw [nextParts] at hlater
    cases hleft : removeLeadingSpaces left with
    | nil =>
      rw [hleft] at hlater
      obtain rfl : [] = later := Option.some.inj hlater
      simp [hc]
    | cons separator rest =>
      rw [hleft] at hlater
      simp only at hlater
      split_ifs at hlater with hsep
      have hsep : separator ∈ separators := by simpa using hsep
      obtain ⟨front, hfront, hplace⟩ := exists_front hpart hleft
      rw [hfront] at hend
      obtain ⟨hrest, hend⟩ := rest_of_separator hplace hsep hend
      simp only [List.cons_append]
      rw [if_pos (by simpa using hsep)]
      exact parseParts_append hlater hrest hend hc s₂
  rw [hnext, Option.map_map]
  simp only [Function.comp_def, List.append_assoc]
termination_by s₁.length
decreasing_by
  rw [hfront, List.length_append, List.length_cons]
  omega

/-- The quoted separator at the end does not count. -/
theorem parseParts_append_quoted :
    parseParts (literal "CN=\"a,\"" ++ byte ';' :: literal "O=b") =
      (parseParts (literal "O=b")).map ([(literal "CN", literal "a,")] ++ ·) :=
  parseParts_append (by decide +kernel) (by decide) (by decide) (by decide) (literal "O=b")

end QGpgME.Dn
