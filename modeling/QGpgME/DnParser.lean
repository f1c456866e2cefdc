import QGpgME.QtString

/-! The parser of distinguished names. It reads bytes; a failure is none. -/
namespace QGpgME.Dn

/-- The byte of a character literal. -/
def byte (c : Char) : UInt8 := UInt8.ofNat c.toNat

def literal (s : String) : QByteArray := s.toList.map byte

/-- The names that are shown for attribute types. -/
def oidmap : List (QByteArray × QByteArray) :=
  [(literal "SP", literal "ST"),
    (literal "NameDistinguisher", literal "0.2.262.1.10.7.20"),
    (literal "EMAIL", literal "1.2.840.113549.1.9.1"),
    (literal "CN", literal "2.5.4.3"),
    (literal "SN", literal "2.5.4.4"),
    (literal "SerialNumber", literal "2.5.4.5"),
    (literal "T", literal "2.5.4.12"),
    (literal "D", literal "2.5.4.13"),
    (literal "BC", literal "2.5.4.15"),
    (literal "ADDR", literal "2.5.4.16"),
    (literal "PC", literal "2.5.4.17"),
    (literal "GN", literal "2.5.4.42"),
    (literal "Pseudo", literal "2.5.4.65")]

def isBlank (c : UInt8) : Bool := c = byte ' '

def removeLeadingSpaces (view : QByteArray) : QByteArray := view.dropWhile isBlank

def removeTrailingSpaces (view : QByteArray) : QByteArray := view.rdropWhile isBlank

def xtoi (c : UInt8) : UInt8 :=
  if c ≤ byte '9' then c - byte '0'
  else if c ≤ byte 'F' then c - byte 'A' + 10
  else c - byte 'a' + 10

/-- `xtoi` of two digits -/
def xtoi₂ (first second : UInt8) : UInt8 := 16 * xtoi first + xtoi second

def isHexDigit (c : UInt8) : Bool := (literal "1234567890abcdefABCDEF").contains c

/-- The loop of `parseHexString`. -/
def hexPairs : QByteArray → QByteArray
  | first :: second :: rest => xtoi₂ first second :: hexPairs rest
  | _ => []

def parseHexString (view : QByteArray) : Option QByteArray :=
  if view.length = 0 ∨ view.length % 2 = 1 then none
  else if view.all isHexDigit then some (hexPairs view)
  else none

/-- Empty where the type has no other name. -/
def attributeNameForOID (oid : QByteArray) : QByteArray :=
  let oid := if oid.take 4 = literal "OID." ∨ oid.take 4 = literal "oid." then oid.drop 4 else oid
  ((oidmap.find? fun m => oid = m.2).map Prod.fst).getD []

/-- A value behind a number sign, after what follows it. -/
def hexValue (stringv : QByteArray) : Option (QByteArray × QByteArray) :=
  (parseHexString (stringv.takeWhile isHexDigit)).map fun value =>
    (stringv.dropWhile isHexDigit, value)

/-- Escapes other than that of a quotation mark are kept verbatim. -/
def quotedValue (value : QByteArray) : QByteArray → Option (QByteArray × QByteArray)
  | [] => none
  | front :: rest =>
    if front = byte '\\' then
      match rest with
      | [] => none
      | second :: rest =>
        if second = byte '"' then quotedValue (value ++ [second]) rest
        else quotedValue (value ++ [front, second]) rest
    else if front = byte '"' then some (rest, value)
    else quotedValue (value ++ [front]) rest

/-- The characters that may follow a backslash. -/
def escapable : QByteArray := literal ",=+<>#;\\\" "

/-- The characters that end a value. -/
def valueEnds : QByteArray := literal ",=+<>#;"

def unquotedValue (value : QByteArray) (lastAddedEscapedSpace : Bool) :
    QByteArray → Option (QByteArray × QByteArray)
  | [] => some ([], if lastAddedEscapedSpace then value else removeTrailingSpaces value)
  | front :: rest =>
    if front = byte '\\' then
      match rest with
      | [] => none
      | second :: rest =>
        if escapable.contains second then
          unquotedValue (value ++ [second]) (second = byte ' ') rest
        else
          match rest with
          | [] => none
          | third :: rest =>
            if isHexDigit second && isHexDigit third then
              unquotedValue (value ++ [xtoi₂ second third]) false rest
            else none
    else if front = byte '"' then none
    else if valueEnds.contains front then
      some (front :: rest, if lastAddedEscapedSpace then value else removeTrailingSpaces value)
    else unquotedValue (value ++ [front]) false rest

/-- The value of a part, after what follows it. -/
def parseValue : QByteArray → Option (QByteArray × QByteArray)
  | [] => none
  | front :: rest =>
    if front = byte '#' then hexValue rest
    else if front = byte '"' then quotedValue [] rest
    else unquotedValue [] false (front :: rest)

/-- The type as it is shown. -/
def renamed (key : QByteArray) : QByteArray :=
  let name := attributeNameForOID key
  if name ≠ [] then name else key

/-- `parse_dn_part`: what is left, and the type with its value. -/
def parseDnPart (stringv : QByteArray) :
    Option (QByteArray × (QByteArray × QByteArray)) :=
  let separatorPos := stringv.idxOf (byte '=')
  if separatorPos = 0 ∨ separatorPos = stringv.length then none
  else
    let key := renamed (removeTrailingSpaces (stringv.take separatorPos))
    (parseValue (removeLeadingSpaces (stringv.drop (separatorPos + 1)))).map
      fun (rest, value) => (rest, (key, value))

section lengths

theorem quotedValue_length {value stringv rest v : QByteArray}
    (h : quotedValue value stringv = some (rest, v)) : rest.length ≤ stringv.length := by
  fun_induction quotedValue value stringv with
  | case1 => simp at h
  | case2 => simp at h
  | case3 value _ ih =>
    have := ih h
    simp only [List.length_cons]
    omega
  | case4 _ _ _ _ ih =>
    have := ih h
    simp only [List.length_cons]
    omega
  | case5 value rest =>
    simp only [Option.some.injEq, Prod.mk.injEq] at h
    simp [h.1]
  | case6 value front rest _ _ ih =>
    have := ih h
    simp only [List.length_cons]
    omega

theorem unquotedValue_length {value stringv rest v : QByteArray} {f : Bool}
    (h : unquotedValue value f stringv = some (rest, v)) : rest.length ≤ stringv.length := by
  fun_induction unquotedValue value f stringv with
  | case1 => simp_all
  | case2 => simp at h
  | case3 _ _ _ _ _ ih =>
    have := ih h
    simp only [List.length_cons]
    omega
  | case4 => simp at h
  | case5 _ _ _ _ _ _ _ ih =>
    have := ih h
    simp only [List.length_cons]
    omega
  | case6 => simp at h
  | case7 => simp at h
  | case8 => simp_all
  | case9 _ _ _ _ _ _ _ ih =>
    have := ih h
    simp only [List.length_cons]
    omega

theorem parseValue_length {stringv rest v : QByteArray}
    (h : parseValue stringv = some (rest, v)) : rest.length ≤ stringv.length := by
  cases stringv with
  | nil => simp [parseValue] at h
  | cons front stringv =>
    rw [parseValue] at h
    split at h
    · simp only [hexValue, Option.map_eq_some_iff, Prod.mk.injEq] at h
      obtain ⟨value, -, hrest, -⟩ := h
      have := (List.dropWhile_sublist (l := stringv) isHexDigit).length_le
      rw [← hrest, List.length_cons]
      omega
    · split at h
      · have := quotedValue_length h
        rw [List.length_cons]
        omega
      · exact unquotedValue_length h

/-- Each part takes something off the string. -/
theorem parseDnPart_length {stringv rest : QByteArray} {dnPair : QByteArray × QByteArray}
    (h : parseDnPart stringv = some (rest, dnPair)) : rest.length < stringv.length := by
  simp only [parseDnPart] at h
  split at h
  · simp at h
  · next hpos =>
    simp only [Option.map_eq_some_iff, Prod.mk.injEq] at h
    obtain ⟨⟨r, v⟩, hvalue, hrest, -⟩ := h
    have hr := parseValue_length hvalue
    have hs := (List.dropWhile_sublist (l := stringv.drop (stringv.idxOf (byte '=') + 1))
      isBlank).length_le
    have hd := List.length_drop (i := stringv.idxOf (byte '=') + 1) (l := stringv)
    simp only [removeLeadingSpaces] at hr
    simp only at hrest
    rw [← hrest]
    have := List.idxOf_le_length (a := byte '=') (l := stringv)
    omega

end lengths

abbrev Result := List (QByteArray × QByteArray)

def separators : QByteArray := literal ",;+"

/-- A pair is kept unless its type or its value is empty. -/
def kept (dnPair : QByteArray × QByteArray) : Result :=
  if dnPair.1 ≠ [] ∧ dnPair.2 ≠ [] then [dnPair] else []

/-- The loop of `parseString`, with a failure kept apart from an empty result. -/
def parseParts (string : QByteArray) : Option Result :=
  match _hs : removeLeadingSpaces string with
  | [] => some []
  | front :: string' =>
    match _hp : parseDnPart (front :: string') with
    | none => none
    | some (partResult, dnPair) =>
      match _hr : removeLeadingSpaces partResult with
      | [] => some (kept dnPair)
      | separator :: string'' =>
        if separators.contains separator then (parseParts string'').map (kept dnPair ++ ·)
        else none
termination_by string.length
decreasing_by
  have h1 := (List.dropWhile_sublist (l := string) isBlank).length_le
  have h2 := parseDnPart_length _hp
  have h3 := (List.dropWhile_sublist (l := partResult) isBlank).length_le
  simp only [removeLeadingSpaces] at _hs _hr
  rw [_hs] at h1
  rw [_hr, List.length_cons] at h3
  omega

def parseString (string : QByteArray) : Result := (parseParts string).getD []

section parts

/-- What is read after a part. -/
def nextParts (string : QByteArray) : Option Result :=
  match removeLeadingSpaces string with
  | [] => some []
  | separator :: rest => if separators.contains separator then parseParts rest else none

theorem parseParts_nil : parseParts [] = some [] := by
  rw [parseParts]
  rfl

theorem parseParts_leading {string : QByteArray} (hne : removeLeadingSpaces string ≠ []) :
    parseParts string = (parseDnPart (removeLeadingSpaces string)).bind fun part =>
      (nextParts part.1).map (kept part.2 ++ ·) := by
  rw [parseParts]
  split
  · next hnil => exact absurd hnil hne
  · next front rest hfront =>
    rw [hfront]
    split
    · next hpart => rw [hpart, Option.bind_none]
    · next partResult dnPair hpart =>
      rw [hpart, Option.bind_some, nextParts]
      simp only
      split
      · next hrest => simp [hrest]
      · next separator string' hrest =>
        simp only [hrest]
        split
        · rfl
        · rfl

theorem parseParts_part {string : QByteArray} (hne : string ≠ [])
    (hs : removeLeadingSpaces string = string) :
    parseParts string =
      (parseDnPart string).bind fun part => (nextParts part.1).map (kept part.2 ++ ·) := by
  rw [parseParts_leading (by rw [hs]; exact hne), hs]

theorem parseDnPart_key {key : QByteArray} (hne : key ≠ []) (hkey : byte '=' ∉ key)
    (rest : QByteArray) :
    parseDnPart (key ++ byte '=' :: rest) =
      (parseValue (removeLeadingSpaces rest)).map fun part =>
        (part.1, (renamed (removeTrailingSpaces key), part.2)) := by
  have hpos : (key ++ byte '=' :: rest).idxOf (byte '=') = key.length := by
    rw [List.idxOf_append_of_notMem hkey, List.idxOf_cons_self, Nat.add_zero]
  have hlen : 0 < key.length := List.length_pos_of_ne_nil hne
  have hcond : ¬(key.length = 0 ∨ key.length = (key ++ byte '=' :: rest).length) := by
    rw [List.length_append, List.length_cons]
    omega
  have hdrop : (key ++ byte '=' :: rest).drop (key.length + 1) = rest := by
    simp [List.drop_append]
  simp only [parseDnPart, hpos, if_neg hcond, List.take_left, hdrop]

theorem attributeNameForOID_mem {oid : QByteArray} (h : attributeNameForOID oid ≠ []) :
    ∃ m ∈ oidmap, attributeNameForOID oid = m.1 := by
  simp only [attributeNameForOID] at h ⊢
  generalize (if oid.take 4 = literal "OID." ∨ oid.take 4 = literal "oid." then oid.drop 4
    else oid) = key at h ⊢
  cases hfind : oidmap.find? fun m => key = m.2 with
  | none => simp [hfind] at h
  | some m => exact ⟨m, List.mem_of_find?_eq_some hfind, rfl⟩

theorem equals_not_mem_key {stringv rest : QByteArray} {dnPair : QByteArray × QByteArray}
    (h : parseDnPart stringv = some (rest, dnPair)) : byte '=' ∉ dnPair.1 := by
  simp only [parseDnPart] at h
  split at h
  · simp at h
  simp only [Option.map_eq_some_iff, Prod.mk.injEq] at h
  obtain ⟨part, -, -, hpair⟩ := h
  rw [← hpair]
  simp only [renamed]
  split
  · next hname =>
    obtain ⟨m, hm, hshown⟩ := attributeNameForOID_mem hname
    have hplain : ∀ m ∈ oidmap, byte '=' ∉ m.1 := by decide
    rw [hshown]
    exact hplain m hm
  · intro hm
    have htake := (List.rdropWhile_prefix isBlank _).subset hm
    rw [List.mem_take_iff_idxOf_lt (List.mem_of_mem_take htake)] at htake
    exact absurd htake (Nat.lt_irrefl _)

theorem equals_not_mem_keys {string : QByteArray} {result : Result}
    (h : parseParts string = some result) : ∀ item ∈ result, byte '=' ∉ item.1 := by
  have hkept : ∀ {part rest dnPair}, parseDnPart part = some (rest, dnPair) →
      ∀ item ∈ kept dnPair, byte '=' ∉ item.1 := by
    intro part rest dnPair hpart item hm
    have hitem : item = dnPair := by
      rw [kept] at hm
      split at hm
      · exact List.mem_singleton.mp hm
      · simp at hm
    rw [hitem]
    exact equals_not_mem_key hpart
  fun_induction parseParts string generalizing result with
  | case1 =>
    rw [← Option.some.inj h]
    simp
  | case2 => simp at h
  | case3 _ _ _ _ _ _ hpart =>
    rw [← Option.some.inj h]
    exact hkept hpart
  | case4 _ _ _ _ _ _ hpart _ _ _ _ ih =>
    obtain ⟨later, hlater, happend⟩ := Option.map_eq_some_iff.mp h
    rw [← happend]
    exact List.forall_mem_append.mpr ⟨hkept hpart, ih hlater⟩
  | case5 => simp at h

end parts

section values

theorem unquotedValue_plain {value rest : QByteArray} {f : Bool} {b : UInt8}
    (h : b ∉ byte '\\' :: byte '"' :: valueEnds) :
    unquotedValue value f (b :: rest) = unquotedValue (value ++ [b]) false rest := by
  simp only [List.mem_cons, not_or] at h
  obtain ⟨hbackslash, hquote, hends⟩ := h
  rw [unquotedValue.eq_def]
  simp only [if_neg hbackslash, if_neg hquote]
  rw [if_neg (by simpa using hends)]

theorem unquotedValue_escaped {value rest : QByteArray} {f : Bool} {b : UInt8}
    (h : b ∈ escapable) :
    unquotedValue value f (byte '\\' :: b :: rest) =
      unquotedValue (value ++ [b]) (b = byte ' ') rest := by
  have hb : escapable.contains b = true := by simpa using h
  rw [unquotedValue.eq_def]
  simp only [if_true, if_pos hb]

/-- A value ends in front of such a character; a space that was escaped stays at its end. -/
theorem unquotedValue_stop {rest : QByteArray} {b : UInt8} (h : b ∈ valueEnds)
    (value : QByteArray) (f : Bool) :
    unquotedValue value f (b :: rest) =
      some (b :: rest, if f then value else removeTrailingSpaces value) := by
  have hends : ∀ b ∈ valueEnds, b ≠ byte '\\' ∧ b ≠ byte '"' := by decide
  obtain ⟨hbackslash, hquote⟩ := hends b h
  rw [unquotedValue.eq_def]
  simp only [if_neg hbackslash, if_neg hquote]
  rw [if_pos (by simpa using h)]

end values

end QGpgME.Dn
