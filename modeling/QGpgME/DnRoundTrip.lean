import QGpgME.DistinguishedName

/-! Which distinguished names are read back from the form in which they are written. -/
namespace QGpgME.Dn
open Utf8

section tests

/-- A set of ASCII characters, as bytes and as characters. -/
theorem literal_test {s : String} (h : ∀ c ∈ s.toList, Ascii c) :
    AsciiTest (literal s).contains s.toList.contains where
  agree c hc := by
    rw [Bool.eq_iff_iff, List.contains_iff_mem, List.contains_iff_mem, literal, List.mem_map]
    constructor
    · intro hm
      obtain ⟨d, hd, hdc⟩ := hm
      rwa [← ofNat_toNat_inj (h d hd) hc hdc]
    · exact fun hm => ⟨c, hm, rfl⟩
  high b hb := by
    rw [← Bool.not_eq_true, List.contains_iff_mem, literal, List.mem_map]
    intro hm
    obtain ⟨d, hd, hdb⟩ := hm
    have hd' : d.toNat < 128 := h d hd
    rw [← hdb, byte, UInt8.toNat_ofNat'] at hb
    omega
  ascii c hc := h c (List.contains_iff_mem.mp hc)

def blank (c : Char) : Bool := " ".toList.contains c

theorem blank_test : AsciiTest isBlank blank := by
  have heq : isBlank = (literal " ").contains := by
    funext b
    simp [isBlank, literal]
  rw [heq]
  exact literal_test (by decide)

theorem isSpace_of_blank (c : Char) (h : blank c = true) : QString.isSpace c = true := by
  have hc : c = ' ' := by simpa [blank] using h
  rw [hc]
  decide

theorem encode_ascii_cons {c : Char} (h : Ascii c) (s : QString) :
    encode (c :: s) = byte c :: encode s := by
  rw [encode_cons, encodeChar_ascii h]
  rfl

end tests

section text
variable {tail : QByteArray}

/-- What stands behind a written attribute. -/
def EndsPart (tail : QByteArray) : Prop := ∀ b ∈ tail.head?, b ∈ separators

/-- A test that fails on what the text is escaped with, and on what follows it, stops where it
stops on the bare text. -/
theorem dropWhile_text {p : UInt8 → Bool} {q : Char → Bool} (htest : AsciiTest p q)
    (hq : ∀ c ∈ escaped, q c = false) (htail : ∀ b ∈ tail.head?, p b = false) (w : QString) :
    (encode (escapeUnits w) ++ tail).dropWhile p =
      encode (escapeUnits (w.dropWhile q)) ++ tail := by
  have hrest : tail.dropWhile p = tail := by
    cases tail with
    | nil => rfl
    | cons b tail =>
      rw [List.dropWhile_cons, htail b (by simp), if_neg Bool.false_ne_true]
  rw [List.dropWhile_append, htest.dropWhile_encode, dropWhile_escapeUnits hq, hrest]
  split
  · next hempty => rw [List.isEmpty_iff.mp hempty, List.nil_append]
  · rfl

theorem removeLeadingSpaces_text (htail : EndsPart tail) (w : QString) :
    removeLeadingSpaces (encode (escapeUnits w) ++ tail) =
      encode (escapeUnits (w.dropWhile blank)) ++ tail := by
  have hb : ∀ b ∈ separators, isBlank b = false := by decide
  exact dropWhile_text blank_test (by decide) (fun b h => hb b (htail b h)) w

/-- Written text begins with none of some ASCII characters if its first character is none of
them, or is escaped. -/
theorem text_head {set : String} (hset : ∀ c ∈ set.toList, Ascii c) (hback : '\\' ∉ set.toList)
    {c : Char} (hc : c ∈ set.toList → c ∈ escaped) (w : QString) :
    ∃ b rest, encode (escapeUnits (c :: w)) = b :: rest ∧ b ∉ literal set := by
  have htest := literal_test hset
  have hnot : ∀ {d : Char}, d ∉ set.toList → ∃ b bs, String.utf8EncodeChar d = b :: bs ∧
      b ∉ literal set := by
    intro d hd
    obtain ⟨b, bs, hbytes, hb, -⟩ := htest.encodeChar_head (c := d)
    refine ⟨b, bs, hbytes, fun hm => hd ?_⟩
    rw [← List.contains_iff_mem, ← hb]
    exact List.contains_iff_mem.mpr hm
  rw [escapeUnits_cons]
  by_cases he : escaped.contains c = true
  · obtain ⟨b, bs, hbytes, hb⟩ := hnot hback
    rw [if_pos he, List.cons_append, encode_cons, hbytes, List.cons_append]
    exact ⟨_, _, rfl, hb⟩
  · obtain ⟨b, bs, hbytes, hb⟩ := hnot fun hm => he (List.contains_iff_mem.mpr (hc hm))
    rw [if_neg he, List.singleton_append, encode_cons, hbytes, List.cons_append]
    exact ⟨_, _, rfl, hb⟩

/-- Text that is left behind a value is no separator, so that the string is rejected. -/
theorem nextParts_text (htail : EndsPart tail) {w : QString} (hw : w.dropWhile blank ≠ []) :
    nextParts (encode (escapeUnits w) ++ tail) = none := by
  obtain ⟨c, w', hcons⟩ := List.exists_cons_of_ne_nil hw
  have hsub : ∀ c ∈ ",;+".toList, c ∈ escaped := by decide
  obtain ⟨b, rest, hbytes, hb⟩ := text_head (by decide) (by decide) (hsub c) w'
  have hsep : ¬separators.contains b = true := fun hm => hb (List.contains_iff_mem.mp hm)
  rw [nextParts, removeLeadingSpaces_text htail, hcons, hbytes]
  simp only [List.cons_append]
  rw [if_neg hsep]

/-- Spaces that are left behind a value are skipped. -/
theorem nextParts_blank (htail : EndsPart tail) {w : QString} (hw : w.dropWhile blank = []) :
    nextParts (encode (escapeUnits w) ++ tail) = nextParts tail := by
  have hblank := removeLeadingSpaces_text htail w
  have htail' := removeLeadingSpaces_text htail []
  rw [hw] at hblank
  simp only [escapeUnits, List.flatMap_nil, encode_nil, List.nil_append, List.dropWhile_nil]
    at hblank htail'
  rw [nextParts, nextParts, escapeUnits, hblank, htail']

end text

section values
variable {tail : QByteArray}

/-- The characters that a written value shows as they are, and that the parser takes. -/
def plain (c : Char) : Bool := !"=#".toList.contains c

theorem plain_of_blank (c : Char) (h : blank c = true) : plain c = true := by
  have hc : c = ' ' := by simpa [blank] using h
  rw [hc]
  decide

theorem unquotedValue_bytes {value bytes rest : QByteArray}
    (h : ∀ b ∈ bytes, b ∉ byte '\\' :: byte '"' :: valueEnds) :
    unquotedValue value false (bytes ++ rest) = unquotedValue (value ++ bytes) false rest := by
  induction bytes generalizing value with
  | nil => rw [List.nil_append, List.append_nil]
  | cons b bytes ih =>
    rw [List.cons_append, unquotedValue_plain (h b (by simp)),
      ih fun d hd => h d (by simp [hd]), List.append_assoc, List.singleton_append]

theorem unquotedValue_char {value rest : QByteArray} {c : Char} (hc : plain c = true) :
    unquotedValue value false (encode (escapeUnits [c]) ++ rest) =
      unquotedValue (value ++ encode [c]) false rest := by
  by_cases he : escaped.contains c = true
  · have hesc : ∀ d ∈ escaped, Ascii d ∧ byte d ∈ escapable ∧ byte d ≠ byte ' ' := by decide
    obtain ⟨hascii, hmem, hblank⟩ := hesc c (List.contains_iff_mem.mp he)
    have htext : encode (escapeUnits [c]) = [byte '\\', byte c] := by
      rw [escapeUnits_cons, if_pos he, List.cons_append, encode_ascii_cons (by decide),
        List.singleton_append, encode_ascii_cons hascii]
      rfl
    rw [htext, List.cons_append, List.singleton_append, unquotedValue_escaped hmem,
      decide_eq_false hblank, encode_ascii_cons hascii]
    rfl
  · have htest := literal_test (s := "\\\",=+<>#;") (by decide)
    have hsub : ∀ d ∈ "\\\",=+<>#;".toList, plain d = false ∨ d ∈ escaped := by decide
    have hnot : "\\\",=+<>#;".toList.contains c = false := by
      rw [← Bool.not_eq_true, List.contains_iff_mem]
      intro hm
      cases hsub c hm with
      | inl hp =>
        rw [hp] at hc
        exact absurd hc (by decide)
      | inr hm => exact he (List.contains_iff_mem.mpr hm)
    have htext : escapeUnits [c] = [c] := by
      rw [escapeUnits_cons, if_neg he]
      rfl
    rw [htext]
    refine unquotedValue_bytes fun b hb hm => ?_
    have hfalse := htest.encodeChar_false hnot b (by simpa using hb)
    rw [← Bool.not_eq_true, List.contains_iff_mem] at hfalse
    exact hfalse hm

/-- Escaped text is read up to the first character that ends a value and is not escaped. -/
theorem unquotedValue_text (value : QByteArray) (w : QString) :
    unquotedValue value false (encode (escapeUnits w) ++ tail) =
      unquotedValue (value ++ encode (w.takeWhile plain)) false
        (encode (escapeUnits (w.dropWhile plain)) ++ tail) := by
  induction w generalizing value with
  | nil =>
    rw [List.takeWhile_nil, List.dropWhile_nil, encode_nil, List.append_nil]
  | cons c w ih =>
    by_cases hc : plain c = true
    · have hsplit : encode (escapeUnits (c :: w)) =
          encode (escapeUnits [c]) ++ encode (escapeUnits w) := by
        rw [← encode_append, ← escapeUnits_append, List.singleton_append]
      have htake : encode ((c :: w).takeWhile plain) =
          encode [c] ++ encode (w.takeWhile plain) := by
        rw [List.takeWhile_cons, if_pos hc, ← encode_append, List.singleton_append]
      rw [hsplit, List.append_assoc, unquotedValue_char hc, ih, List.append_assoc, htake,
        List.dropWhile_cons, if_pos hc]
    · rw [List.takeWhile_cons, List.dropWhile_cons, if_neg hc, if_neg hc, encode_nil,
        List.append_nil]

theorem unquotedValue_tail (htail : EndsPart tail) (value : QByteArray) (f : Bool) :
    unquotedValue value f tail = some (tail, if f then value else removeTrailingSpaces value) := by
  cases tail with
  | nil => rfl
  | cons b tail =>
    have hsub : ∀ b ∈ separators, b ∈ valueEnds := by decide
    exact unquotedValue_stop (hsub b (htail b (by simp))) value f

theorem parseValue_unquoted {b : UInt8} {rest : QByteArray} (hb : b ∉ literal "#\"") :
    parseValue (b :: rest) = unquotedValue [] false (b :: rest) := by
  have hne : b ≠ byte '#' ∧ b ≠ byte '"' := by simpa [literal] using hb
  rw [parseValue, if_neg hne.1, if_neg hne.2]

/-- A written value that does not begin with a number sign is read without quotation. -/
theorem parseValue_text (htail : EndsPart tail) {w : QString} (hhash : '#' ∉ w.head?)
    (hne : w ≠ [] ∨ tail ≠ []) :
    parseValue (encode (escapeUnits w) ++ tail) =
      unquotedValue [] false (encode (escapeUnits w) ++ tail) := by
  cases w with
  | nil =>
    have htail' : tail ≠ [] := by simpa using hne
    obtain ⟨b, rest, hcons⟩ := List.exists_cons_of_ne_nil htail'
    have hsub : ∀ b ∈ separators, b ∉ literal "#\"" := by decide
    rw [hcons]
    exact parseValue_unquoted (hsub b (htail b (by simp [hcons])))
  | cons c w =>
    have hhead : c ∈ "#\"".toList → c ∈ escaped := by
      intro hm
      have hsub : ∀ d ∈ "#\"".toList, d = '#' ∨ d ∈ escaped := by decide
      cases hsub c hm with
      | inl hd => exact absurd (by simp [hd]) hhash
      | inr hd => exact hd
    obtain ⟨b, rest, hbytes, hb⟩ := text_head (by decide) (by decide) hhead w
    rw [hbytes, List.cons_append, parseValue_unquoted hb]

/-- It is read up to the first character that ends a value. -/
theorem parseValue_plain (htail : EndsPart tail) {w : QString} (hhash : '#' ∉ w.head?)
    (hne : w ≠ [] ∨ tail ≠ []) :
    parseValue (encode (escapeUnits w) ++ tail) =
      some (encode (escapeUnits (w.dropWhile plain)) ++ tail,
        removeTrailingSpaces (encode (w.takeWhile plain))) := by
  rw [parseValue_text htail hhash hne, unquotedValue_text, List.nil_append]
  cases hleft : w.dropWhile plain with
  | nil => exact unquotedValue_tail htail _ false
  | cons c left =>
    have hc : plain c = false := by
      have := List.head_dropWhile_not plain (l := w) (by simp [hleft])
      simpa [hleft] using this
    have hends : ∀ d ∈ "=#".toList, Ascii d ∧ ¬escaped.contains d = true ∧
      byte d ∈ valueEnds := by decide
    rw [plain, Bool.not_eq_false', List.contains_iff_mem] at hc
    obtain ⟨hascii, hesc, hmem⟩ := hends c hc
    rw [escapeUnits_cons, if_neg hesc, List.singleton_append, encode_ascii_cons hascii,
      List.cons_append, unquotedValue_stop hmem, if_neg Bool.false_ne_true]

theorem hexPairs_length (view : QByteArray) : 2 * (hexPairs view).length ≤ view.length := by
  fun_induction hexPairs view with
  | case1 first second rest ih =>
    simp only [List.length_cons]
    omega
  | case2 => simp

theorem parseHexString_length {view value : QByteArray} (h : parseHexString view = some value) :
    2 * value.length ≤ view.length := by
  rw [parseHexString] at h
  split at h
  · simp at h
  · split at h
    · rw [← Option.some.inj h]
      exact hexPairs_length view
    · simp at h

def hex (c : Char) : Bool := "1234567890abcdefABCDEF".toList.contains c

theorem hex_test : AsciiTest isHexDigit hex := literal_test (by decide)

/-- Digits behind a number sign give fewer characters than they are. -/
theorem hexValue_text (htail : EndsPart tail) {w : QString} {rest value : QByteArray}
    (h : hexValue (encode (escapeUnits w) ++ tail) = some (rest, value)) :
    rest = encode (escapeUnits (w.dropWhile hex)) ++ tail ∧ 2 * value.length ≤ w.length := by
  have hsep : ∀ b ∈ separators, isHexDigit b = false := by decide
  have hdrop := dropWhile_text hex_test (by decide) (fun b hb => hsep b (htail b hb)) w
  simp only [hexValue, Option.map_eq_some_iff, Prod.mk.injEq] at h
  obtain ⟨value', hparse, hrest, hvalue⟩ := h
  rw [← hrest, ← hvalue]
  refine ⟨hdrop, ?_⟩
  have hplain : ∀ c ∈ w.takeWhile hex, Ascii c ∧ c ∉ escaped := by
    intro c hc
    have hdigits : ∀ c ∈ "1234567890abcdefABCDEF".toList, Ascii c ∧ c ∉ escaped := by decide
    exact hdigits c (List.contains_iff_mem.mp (List.mem_takeWhile_imp hc))
  have hbare : escapeUnits (w.takeWhile hex) = w.takeWhile hex :=
    escapeUnits_eq_self fun c hc => (hplain c hc).2
  have hlen : (encode (w.takeWhile hex)).length = (w.takeWhile hex).length :=
    length_encode_eq_iff.mpr fun c hc => (hplain c hc).1
  have htext : encode (escapeUnits w) =
      encode (w.takeWhile hex) ++ encode (escapeUnits (w.dropWhile hex)) := by
    conv_lhs => rw [← List.takeWhile_append_dropWhile (p := hex) (l := w)]
    rw [escapeUnits_append, encode_append, hbare]
  have hsplit := congrArg List.length (List.takeWhile_append_dropWhile (p := isHexDigit)
    (l := encode (escapeUnits w) ++ tail))
  rw [List.length_append, hdrop, htext] at hsplit
  simp only [List.length_append, hlen] at hsplit
  have hle := parseHexString_length hparse
  have htake := (List.takeWhile_prefix hex (l := w)).length_le
  rw [htext] at hle
  omega

/-- What is read of a text up to its end: hexadecimal digits give something shorter, all else
is without equals and number signs and is read as it is. -/
def ReadWhole (w : QString) (value : QByteArray) : Prop :=
  (QString.fromUtf8 value).length < w.length ∨
    value = removeTrailingSpaces (encode w) ∧ '=' ∉ w ∧ '#' ∉ w

/-- A value is rejected, or read up to some rest of its text. -/
theorem parseValue_outcome (htail : EndsPart tail) (w : QString) :
    parseValue (encode (escapeUnits w) ++ tail) = none ∨
      ∃ left value,
        parseValue (encode (escapeUnits w) ++ tail) =
          some (encode (escapeUnits left) ++ tail, value) ∧
        (left.dropWhile blank = [] → ReadWhole w value) := by
  by_cases hempty : w = [] ∧ tail = []
  · obtain ⟨rfl, rfl⟩ := hempty
    exact Or.inl rfl
  by_cases hhash : '#' ∈ w.head?
  · obtain ⟨w', rfl⟩ := List.head?_eq_some_iff.mp hhash
    have hread : parseValue (encode (escapeUnits ('#' :: w')) ++ tail) =
        hexValue (encode (escapeUnits w') ++ tail) := by
      rw [escapeUnits_cons, if_neg (by decide), List.singleton_append,
        encode_ascii_cons (by decide), List.cons_append, parseValue, if_pos rfl]
    rw [hread]
    cases hhex : hexValue (encode (escapeUnits w') ++ tail) with
    | none => exact Or.inl rfl
    | some part =>
      obtain ⟨rest, value⟩ := part
      obtain ⟨hrest, hlen⟩ := hexValue_text htail hhex
      refine Or.inr ⟨w'.dropWhile hex, value, by rw [hrest], fun _ => Or.inl ?_⟩
      have hle := QString.length_fromUtf8_le value
      rw [List.length_cons]
      omega
  · have hleft : (w.dropWhile plain).dropWhile blank = [] → w.dropWhile plain = [] := by
      intro hall
      by_contra hne
      have hp := List.head_dropWhile_not plain hne
      have hb := List.dropWhile_eq_nil_iff.mp hall _ (List.head_mem hne)
      rw [plain_of_blank _ hb] at hp
      exact absurd hp (by decide)
    refine Or.inr ⟨w.dropWhile plain, removeTrailingSpaces (encode (w.takeWhile plain)),
      ?_, fun hall => Or.inr ?_⟩
    · exact parseValue_plain htail hhash (by tauto)
    · have hplain : ∀ c ∈ w, plain c = true := List.dropWhile_eq_nil_iff.mp (hleft hall)
      rw [List.takeWhile_eq_self_iff.mpr hplain]
      refine ⟨rfl, fun hm => ?_, fun hm => ?_⟩
      · exact absurd (hplain _ hm) (by decide)
      · exact absurd (hplain _ hm) (by decide)

end values

section part
variable {u : UpperCase} {tail : QByteArray}

theorem removeTrailingSpaces_text (s : QString) :
    removeTrailingSpaces (encode s) = encode (s.rdropWhile blank) := by
  rw [removeTrailingSpaces, blank_test.rdropWhile_encode]

theorem removeTrailingSpaces_trimmed (s : QString) :
    removeTrailingSpaces (encode s.trimmed) = encode s.trimmed := by
  rw [removeTrailingSpaces_text]
  exact congrArg encode (rdropWhile_trimBy isSpace_of_blank s)

/-- What is visited of a trimmed value does not begin with a space. -/
theorem dropWhile_visited (s : QString) :
    (visited s.trimmed).dropWhile blank = visited s.trimmed := by
  cases hv : visited s.trimmed with
  | nil => rfl
  | cons c rest =>
    have hnot : blank c ≠ true := by
      intro hb
      obtain hhead | hmark := QString.head_firstUnits (c := c) (by rw [← visited, hv]; simp)
      · have hspace : QString.isSpace c = false := trimBy_head hhead
        rw [isSpace_of_blank c hb] at hspace
        exact absurd hspace (by decide)
      · rw [hmark] at hb
        exact absurd hb (by decide)
    rw [List.dropWhile_cons, if_neg hnot]

/-- How a written attribute is read, given how its value is. -/
theorem parseParts_text {a : Attribute u} (hname : '=' ∉ a.name) (htail : EndsPart tail) :
    parseParts (encode (attributeText a) ++ tail) =
      if a.name.trimmed = [] then none
      else (parseValue (encode (dnEscape a.value.trimmed) ++ tail)).bind fun part =>
        (nextParts part.1).map (kept (renamed (encode a.name.trimmed), part.2) ++ ·) := by
  have hsplit : encode (attributeText a) ++ tail =
      encode a.name.trimmed ++ byte '=' :: (encode (dnEscape a.value.trimmed) ++ tail) := by
    rw [attributeText, encode_append, encode_ascii_cons (by decide), List.append_assoc,
      List.cons_append]
  rw [hsplit]
  by_cases hn : a.name.trimmed = []
  · rw [if_pos hn, hn, encode_nil, List.nil_append, parseParts_part (List.cons_ne_nil _ _) rfl]
    simp [parseDnPart]
  · have hkey : encode a.name.trimmed ≠ [] := fun hnil => hn (encode_eq_nil_iff.mp hnil)
    have hequals : byte '=' ∉ encode a.name.trimmed := by
      intro hm
      exact hname (mem_of_mem_trimBy ((mem_encode_ascii (by decide)).mp hm))
    have hleading : (encode a.name.trimmed).dropWhile isBlank = encode a.name.trimmed := by
      rw [blank_test.dropWhile_encode]
      exact congrArg encode (dropWhile_trimBy isSpace_of_blank a.name)
    have htrailing := removeTrailingSpaces_trimmed a.name
    rw [if_neg hn, parseParts_part (by simp [hkey]), parseDnPart_key hkey hequals,
      dnEscape, removeLeadingSpaces_text htail, dropWhile_visited, htrailing, Option.bind_map]
    · rfl
    · rw [removeLeadingSpaces, List.dropWhile_append, hleading, if_neg]
      simpa using hkey

/-- What both the writing and the reading of an attribute leave alone. -/
structure ReadBack (a : Attribute u) : Prop where
  name_ne : a.name ≠ []
  name_trimmed : a.name.trimmed = a.name
  name_mark : a.name.skipMark = a.name
  name_shown : attributeNameForOID a.name.toUtf8 = []
  value_ne : a.value ≠ []
  value_units : a.value.utf16Length < 2 ^ 32
  value_trimmed : a.value.trimmed = a.value
  value_mark : a.value.skipMark = a.value
  value_plain : '=' ∉ a.value ∧ '#' ∉ a.value

theorem eq_of_skipMark_trimmed {s t : QString} (hs : s.skipMark = t) (hst : t.trimmed = s) :
    s = t := by
  have h1 := QString.skipMark_sublist s
  have h2 : t.trimmed.Sublist t := trimBy_sublist t
  rw [hs] at h1
  rw [hst] at h2
  exact h2.antisymm h1

/-- The names that are shown for types are not changed by reading them again. -/
theorem oidmap_shown : ∀ m ∈ oidmap, ∃ s : QString, (∀ c ∈ s, Ascii c) ∧ m.1 = encode s ∧
    attributeNameForOID (encode (s.map Char.toUpper)) = [] ∧
    QString.trimmed (s.map Char.toUpper) = s.map Char.toUpper := by
  have hall : ∀ m ∈ oidmap, (∀ c ∈ QString.fromLatin1 m.1, Ascii c) ∧
      m.1 = encode (QString.fromLatin1 m.1) ∧
      attributeNameForOID (encode ((QString.fromLatin1 m.1).map Char.toUpper)) = [] ∧
      QString.trimmed ((QString.fromLatin1 m.1).map Char.toUpper) =
        (QString.fromLatin1 m.1).map Char.toUpper := by
    decide +kernel
  exact fun m hm => ⟨_, hall m hm⟩

/-- A name that is read back as it was is the same in both directions. -/
theorem name_of_renamed {a : Attribute u}
    (h : u.toUpper (QString.fromUtf8 (renamed (encode a.name.trimmed))) = a.name) :
    a.name.trimmed = a.name ∧ a.name.skipMark = a.name ∧
      attributeNameForOID a.name.toUtf8 = [] := by
  by_cases hshown : attributeNameForOID (encode a.name.trimmed) = []
  · have hkey : renamed (encode a.name.trimmed) = a.name.trimmed.toUtf8 := by
      simp [renamed, hshown, QString.toUtf8]
    have hsub : a.name.trimmed.skipMark.Sublist a.name :=
      (QString.skipMark_sublist _).trans (trimBy_sublist _)
    have hstable : u.toUpper a.name.trimmed.skipMark = a.name.trimmed.skipMark :=
      toUpper_stable fun c hc => a.isUpper c (hsub.subset hc)
    rw [hkey, QString.fromUtf8_toUtf8, hstable] at h
    have heq := eq_of_skipMark_trimmed h rfl
    rw [heq] at h hshown
    exact ⟨heq, h, hshown⟩
  · -- no name that is shown for a type is taken for a type itself
    exfalso
    obtain ⟨m, hm, hname⟩ := attributeNameForOID_mem hshown
    obtain ⟨s, hascii, hbytes, hfinal, htrim⟩ := oidmap_shown m hm
    have hkey : renamed (encode a.name.trimmed) = encode s := by
      rw [renamed, if_pos hshown, hname, hbytes]
    rw [hkey, QString.fromUtf8_encode_ascii hascii, toUpper_ascii hascii] at h
    rw [← h, htrim] at hshown
    exact hshown hfinal

/-- The pair that stands for an attribute is kept, and gives its name and its value. -/
theorem kept_eq {dnPair : QByteArray × QByteArray} {a : Attribute u}
    (h : attributesOf u (kept dnPair) = [a]) :
    dnPair.2 ≠ [] ∧ u.toUpper (QString.fromUtf8 dnPair.1) = a.name ∧
      QString.fromUtf8 dnPair.2 = a.value := by
  rw [kept] at h
  split at h
  · next hne =>
    obtain ⟨hattr, -⟩ := List.cons.inj h
    exact ⟨hne.2, congrArg Attribute.name hattr, congrArg Attribute.value hattr⟩
  · simp [attributesOf] at h

/-- What is read has no more characters than the text. -/
theorem ReadWhole.length_le {w : QString} {value : QByteArray} (h : ReadWhole w value) :
    (QString.fromUtf8 value).length ≤ w.length := by
  cases h with
  | inl hshort => exact Nat.le_of_lt hshort
  | inr hplain =>
    rw [hplain.1, removeTrailingSpaces_text]
    have hread := QString.fromUtf8_toUtf8 (w.rdropWhile blank)
    rw [QString.toUtf8] at hread
    rw [hread]
    exact ((QString.skipMark_sublist _).trans (List.rdropWhile_prefix _ _).sublist).length_le

theorem readBack_of_kept {a : Attribute u} {value : QByteArray} (hn : a.name.trimmed ≠ [])
    (hvalue : ReadWhole (visited a.value.trimmed) value)
    (h : attributesOf u (kept (renamed (encode a.name.trimmed), value)) = [a]) : ReadBack a := by
  obtain ⟨hne, hname, hread⟩ := kept_eq h
  simp only at hname hread hne
  have hle : a.value.trimmed.length ≤ a.value.length := (trimBy_sublist a.value).length_le
  have hunits : QString.utf16Length a.value.trimmed < 2 ^ 32 := by
    -- nothing brings back what is cut off
    by_contra hcut
    have hshort := visited_length hcut
    have hlength := hvalue.length_le
    rw [hread] at hlength
    omega
  rw [visited_eq_self hunits] at hvalue
  cases hvalue with
  | inl hshort =>
    -- a value in hexadecimal digits, shorter than the digits
    rw [hread] at hshort
    omega
  | inr hplain =>
    obtain ⟨hbytes, hequals, hhash⟩ := hplain
    rw [removeTrailingSpaces_trimmed] at hbytes
    have hmark : a.value.trimmed.skipMark = a.value := by
      rw [← QString.fromUtf8_toUtf8, QString.toUtf8, ← hbytes, hread]
    have htrim := eq_of_skipMark_trimmed hmark rfl
    obtain ⟨hntrim, hnmark, hshown⟩ := name_of_renamed hname
    rw [htrim] at hequals hhash hmark hbytes hunits
    rw [hbytes] at hne
    exact {
      name_ne := hntrim ▸ hn
      name_trimmed := hntrim
      name_mark := hnmark
      name_shown := hshown
      value_ne := fun hnil => hne (encode_eq_nil_iff.mpr hnil)
      value_units := hunits
      value_trimmed := htrim
      value_mark := hmark
      value_plain := ⟨hequals, hhash⟩ }

theorem kept_length (dnPair : QByteArray × QByteArray) : (kept dnPair).length ≤ 1 := by
  rw [kept]
  split
  · exact Nat.le_refl 1
  · exact Nat.zero_le 1

/-- A written attribute is rejected, or is read as one attribute at most, and as itself only
if it can be read back. -/
theorem parseParts_step {a : Attribute u} (hname : '=' ∉ a.name) (htail : EndsPart tail) :
    parseParts (encode (attributeText a) ++ tail) = none ∨
      ∃ out : Result, out.length ≤ 1 ∧
        parseParts (encode (attributeText a) ++ tail) = (nextParts tail).map (out ++ ·) ∧
        (attributesOf u out = [a] → ReadBack a) := by
  rw [parseParts_text hname htail]
  by_cases hn : a.name.trimmed = []
  · exact Or.inl (if_pos hn)
  rw [if_neg hn]
  rw [dnEscape]
  obtain hnone | ⟨left, value, hread, hleft⟩ := parseValue_outcome htail (visited a.value.trimmed)
  · exact Or.inl (by rw [hnone, Option.bind_none])
  rw [hread, Option.bind_some]
  by_cases hblank : left.dropWhile blank = []
  · refine Or.inr ⟨kept (renamed (encode a.name.trimmed), value), kept_length _, ?_, ?_⟩
    · rw [nextParts_blank htail hblank]
    · exact fun hout => readBack_of_kept hn (hleft hblank) hout
  · refine Or.inl ?_
    rw [nextParts_text htail hblank]
    rfl

/-- An attribute that can be read back is read as itself. -/
theorem parseParts_readBack {a : Attribute u} (h : ReadBack a) (hname : '=' ∉ a.name)
    (htail : EndsPart tail) :
    parseParts (encode (attributeText a) ++ tail) =
      (nextParts tail).map ([(encode a.name, encode a.value)] ++ ·) := by
  have hhash : '#' ∉ a.value.head? := fun hm => h.value_plain.2 (List.mem_of_mem_head? hm)
  have hall : ∀ c ∈ a.value, plain c = true := by
    intro c hc
    have hne : c ≠ '=' ∧ c ≠ '#' :=
      ⟨fun he => h.value_plain.1 (he ▸ hc), fun he => h.value_plain.2 (he ▸ hc)⟩
    simpa [plain] using hne
  have htrailing : removeTrailingSpaces (encode a.value) = encode a.value := by
    have := removeTrailingSpaces_trimmed a.value
    rwa [h.value_trimmed] at this
  have hread : parseValue (encode (escapeUnits a.value) ++ tail) = some (tail, encode a.value) := by
    rw [parseValue_plain htail hhash (Or.inl h.value_ne), List.takeWhile_eq_self_iff.mpr hall,
      List.dropWhile_eq_nil_iff.mpr hall, htrailing]
    rfl
  have hkey : renamed (encode a.name) = encode a.name := by
    have hshown : attributeNameForOID (encode a.name) = [] := h.name_shown
    simp [renamed, hshown]
  have hkept : kept (encode a.name, encode a.value) = [(encode a.name, encode a.value)] := by
    simp [kept, encode_eq_nil_iff, h.name_ne, h.value_ne]
  rw [parseParts_text hname htail, h.name_trimmed, if_neg h.name_ne, h.value_trimmed, dnEscape,
    visited_eq_self h.value_units, hread, Option.bind_some, hkey, hkept]

theorem attributesOf_readBack {a : Attribute u} (h : ReadBack a) :
    attributesOf u [(encode a.name, encode a.value)] = [a] := by
  have hname : QString.fromUtf8 (encode a.name) = a.name :=
    (QString.fromUtf8_toUtf8 a.name).trans h.name_mark
  have hvalue : QString.fromUtf8 (encode a.value) = a.value :=
    (QString.fromUtf8_toUtf8 a.value).trans h.value_mark
  have heq : Attribute.new u a.name a.value = a := Attribute.ext (toUpper_stable a.isUpper) rfl
  simp only [attributesOf, List.map_cons, List.map_nil, hname, hvalue, heq]

end part

section lists
variable {u : UpperCase} {sep : Char}

theorem byte_separator (hsep : sep ∈ ",;+".toList) : Ascii sep ∧ byte sep ∈ separators := by
  have hall : ∀ c ∈ ",;+".toList, Ascii c ∧ byte c ∈ separators := by decide
  exact hall sep hsep

/-- Behind the first attribute that is written stands what is written of the others. -/
theorem serialise_cons (hsep : sep ∈ ",;+".toList) {a : Attribute u}
    (ha : a.name ≠ [] ∧ a.value ≠ []) (rest : List (Attribute u)) :
    ∃ tail, EndsPart tail ∧
      encode (serialise (a :: rest) [sep]) = encode (attributeText a) ++ tail ∧
      nextParts tail = parseParts (encode (serialise rest [sep])) := by
  obtain ⟨hascii, hmem⟩ := byte_separator hsep
  have hlist : listAttributes (a :: rest) = attributeText a :: listAttributes rest := by
    rw [listAttributes_cons, if_pos ha, List.singleton_append]
  by_cases hrest : listAttributes rest = []
  · refine ⟨[], by simp [EndsPart], ?_, ?_⟩
    · rw [serialise, hlist, hrest, List.intercalate_singleton, List.append_nil]
    · rw [serialise, hrest, List.intercalate_nil, encode_nil, parseParts_nil]
      rfl
  · refine ⟨byte sep :: encode (serialise rest [sep]), by simpa [EndsPart] using hmem, ?_, ?_⟩
    · rw [serialise, hlist, List.intercalate_cons_of_ne_nil hrest, encode_append, encode_append,
        List.append_assoc, encode_ascii_cons hascii, encode_nil]
      rfl
    · have hblank : ∀ b ∈ separators, isBlank b = false := by decide
      have hskip : removeLeadingSpaces (byte sep :: encode (serialise rest [sep])) =
          byte sep :: encode (serialise rest [sep]) := by
        rw [removeLeadingSpaces, List.dropWhile_cons, hblank _ hmem, if_neg Bool.false_ne_true]
      rw [nextParts, hskip]
      exact if_pos (List.contains_iff_mem.mpr hmem)

theorem serialise_skipped {a : Attribute u} (ha : ¬(a.name ≠ [] ∧ a.value ≠ []))
    (rest : List (Attribute u)) : serialise (a :: rest) [sep] = serialise rest [sep] := by
  rw [serialise, serialise, listAttributes_cons, if_neg ha, List.nil_append]

/-- What is read back has no attribute more, and the same ones only if each can be read
back. -/
theorem readBack_of_reparsed (hsep : sep ∈ ",;+".toList) {l : List (Attribute u)}
    (hnames : ∀ a ∈ l, '=' ∉ a.name) {result : Result}
    (h : parseParts (encode (serialise l [sep])) = some result) :
    result.length ≤ l.length ∧ (attributesOf u result = l → ∀ a ∈ l, ReadBack a) := by
  induction l generalizing result with
  | nil =>
    have hnil : serialise ([] : List (Attribute u)) [sep] = [] := rfl
    rw [hnil, encode_nil, parseParts_nil] at h
    rw [← Option.some.inj h]
    exact ⟨Nat.le_refl 0, fun _ => by simp⟩
  | cons a l ih =>
    have hrest : ∀ b ∈ l, '=' ∉ b.name := fun b hb => hnames b (by simp [hb])
    by_cases ha : a.name ≠ [] ∧ a.value ≠ []
    · obtain ⟨tail, htail, hbytes, hnext⟩ := serialise_cons hsep ha l
      rw [hbytes] at h
      cases parseParts_step (hnames a (by simp)) htail with
      | inl hnone =>
        rw [hnone] at h
        simp at h
      | inr hpart =>
        obtain ⟨out, hone, hread, hout⟩ := hpart
        rw [hread, hnext] at h
        obtain ⟨later, hlater, happend⟩ := Option.map_eq_some_iff.mp h
        obtain ⟨hle, hsame⟩ := ih hrest hlater
        rw [← happend, List.length_append, List.length_cons]
        refine ⟨by omega, fun heq => ?_⟩
        rw [attributesOf, List.map_append] at heq
        have hlen := congrArg List.length heq
        simp only [List.length_append, List.length_map, List.length_cons] at hlen
        rw [← List.singleton_append] at heq
        -- neither piece can make up for an attribute that the other one lacks
        obtain ⟨hhead, hlater⟩ := List.append_inj heq (by
          rw [List.length_map, List.length_singleton]
          omega)
        exact List.forall_mem_cons.mpr ⟨hout hhead, hsame hlater⟩
    · -- an attribute that is not written is missing
      rw [serialise_skipped ha] at h
      obtain ⟨hle, -⟩ := ih hrest h
      rw [List.length_cons]
      refine ⟨by omega, fun heq => ?_⟩
      have hlen := congrArg List.length heq
      simp only [attributesOf, List.length_map, List.length_cons] at hlen
      omega

theorem reparsed_of_readBack (hsep : sep ∈ ",;+".toList) {l : List (Attribute u)}
    (hnames : ∀ a ∈ l, '=' ∉ a.name) (h : ∀ a ∈ l, ReadBack a) :
    ∃ result, parseParts (encode (serialise l [sep])) = some result ∧
      attributesOf u result = l := by
  induction l with
  | nil => exact ⟨[], parseParts_nil, rfl⟩
  | cons a l ih =>
    have ha := h a (by simp)
    obtain ⟨later, hlater, heq⟩ :=
      ih (fun b hb => hnames b (by simp [hb])) fun b hb => h b (by simp [hb])
    obtain ⟨tail, htail, hbytes, hnext⟩ := serialise_cons hsep ⟨ha.name_ne, ha.value_ne⟩ l
    refine ⟨[(encode a.name, encode a.value)] ++ later, ?_, ?_⟩
    · rw [hbytes, parseParts_readBack ha (hnames a (by simp)) htail, hnext, hlater]
      rfl
    · have hone := attributesOf_readBack ha
      rw [attributesOf] at hone heq
      rw [attributesOf, List.map_append, hone, heq, List.singleton_append]

/-- A list of attributes is read back from its written form exactly when each of them is. -/
theorem reparsed_iff (hsep : sep ∈ ",;+".toList) {l : List (Attribute u)}
    (hnames : ∀ a ∈ l, '=' ∉ a.name) :
    (∃ result, parseParts (encode (serialise l [sep])) = some result ∧
      attributesOf u result = l) ↔ ∀ a ∈ l, ReadBack a := by
  constructor
  · intro h
    obtain ⟨result, hparse, heq⟩ := h
    exact (readBack_of_reparsed hsep hnames hparse).2 heq
  · exact reparsed_of_readBack hsep hnames

end lists

section domain
variable {u : UpperCase}

/-- A type that is parsed under its own name. -/
structure PlainName (name : QString) : Prop where
  ne : name ≠ []
  chars : ∀ c ∈ name, c ∈ "ABCDEFGHIJKLMNOPQRSTUVWXYZ0123456789.-".toList
  not_renamed : ∀ m ∈ oidmap, name.toUtf8 ≠ m.2 ∧ name.toUtf8 ≠ literal "OID." ++ m.2

/-- The values that are read back from their escaped form, up to a byte order mark and up to the
length that is visited. -/
structure PlainValue (value : QString) : Prop where
  ne : value ≠ []
  trimmed : value.trimmed = value
  equals : '=' ∉ value
  hash : '#' ∉ value

theorem skipMark_eq_self_iff {s : QString} : s.skipMark = s ↔ '\uFEFF' ∉ s.head? := by
  cases s with
  | nil => simp [QString.skipMark]
  | cons c s =>
    rw [QString.skipMark, List.head?_cons, Option.mem_some_iff]
    by_cases hc : c = '\uFEFF'
    · simp [hc]
    · simp [hc]

theorem PlainName.ascii {name : QString} (h : PlainName name) :
    ∀ c ∈ name, Ascii c ∧ QString.isSpace c = false ∧ c ≠ '\uFEFF' ∧ c ≠ '=' ∧ c ≠ 'o' := by
  have hall : ∀ c ∈ "ABCDEFGHIJKLMNOPQRSTUVWXYZ0123456789.-".toList,
      Ascii c ∧ QString.isSpace c = false ∧ c ≠ '\uFEFF' ∧ c ≠ '=' ∧ c ≠ 'o' := by
    decide +kernel
  exact fun c hc => hall c (h.chars c hc)

theorem PlainName.trimmed {name : QString} (h : PlainName name) : name.trimmed = name :=
  trimBy_eq_self fun c hc => (h.ascii c hc).2.1

theorem PlainName.skipMark {name : QString} (h : PlainName name) : name.skipMark = name := by
  rw [skipMark_eq_self_iff]
  intro hm
  exact (h.ascii _ (List.mem_of_mem_head? hm)).2.2.1 rfl

theorem PlainName.equals {name : QString} (h : PlainName name) : '=' ∉ name :=
  fun hm => (h.ascii _ hm).2.2.2.1 rfl

/-- Neither a listed type nor one behind a prefix is found. -/
theorem PlainName.shown {name : QString} (h : PlainName name) :
    attributeNameForOID name.toUtf8 = [] := by
  have hsplit := List.take_append_drop 4 name.toUtf8
  have hlower : name.toUtf8.take 4 ≠ literal "oid." := by
    intro htake
    rw [htake] at hsplit
    have hm : byte 'o' ∈ name.toUtf8 := by
      rw [← hsplit]
      exact List.mem_append_left _ (by decide)
    exact (h.ascii _ ((mem_encode_ascii (by decide)).mp hm)).2.2.2.2 rfl
  rw [attributeNameForOID]
  by_cases hupper : name.toUtf8.take 4 = literal "OID."
  · rw [hupper] at hsplit
    have hnone : oidmap.find? (fun m => name.toUtf8.drop 4 = m.2) = none := by
      rw [List.find?_eq_none]
      intro m hm heq
      rw [of_decide_eq_true heq] at hsplit
      exact (h.not_renamed m hm).2 hsplit.symm
    simp only [hupper, true_or, if_true, hnone]
    rfl
  · have hnone : oidmap.find? (fun m => name.toUtf8 = m.2) = none := by
      rw [List.find?_eq_none]
      intro m hm heq
      exact (h.not_renamed m hm).1 (of_decide_eq_true heq)
    simp only [hupper, hlower, or_self, if_false, hnone]
    rfl

theorem readBack_iff {a : Attribute u} (h : PlainName a.name) :
    ReadBack a ↔ PlainValue a.value ∧ '\uFEFF' ∉ a.value.head? ∧
      QString.utf16Length a.value < 2 ^ 32 := by
  constructor
  · intro hback
    exact ⟨⟨hback.value_ne, hback.value_trimmed, hback.value_plain.1, hback.value_plain.2⟩,
      skipMark_eq_self_iff.mp hback.value_mark, hback.value_units⟩
  · intro hvalue
    obtain ⟨hplain, hmark, hunits⟩ := hvalue
    exact {
      name_ne := h.ne
      name_trimmed := h.trimmed
      name_mark := h.skipMark
      name_shown := h.shown
      value_ne := hplain.ne
      value_units := hunits
      value_trimmed := hplain.trimmed
      value_mark := skipMark_eq_self_iff.mpr hmark
      value_plain := ⟨hplain.equals, hplain.hash⟩ }

/-- A rejected string has no attributes. -/
theorem parseDn_eq_iff {l : List (Attribute u)} (hne : l ≠ []) (string : QByteArray) :
    parseDn u string = l ↔
      ∃ result, parseParts string = some result ∧ attributesOf u result = l := by
  rw [parseDn, parseString]
  cases parseParts string with
  | none => simpa [attributesOf] using hne.symm
  | some result => simp

theorem parseDn_serialise {l : List (Attribute u)} (hne : l ≠ [])
    (hnames : ∀ a ∈ l, '=' ∉ a.name) {sep : Char} (hsep : sep ∈ ",;+".toList) :
    parseDn u (serialise l [sep]).toUtf8 = l ↔ ∀ a ∈ l, ReadBack a := by
  rw [parseDn_eq_iff hne]
  exact reparsed_iff hsep hnames

/-- The exact domain of the serialiser, for names that are parsed as they are. -/
theorem parseDn_serialise_iff {l : List (Attribute u)} (hne : l ≠ [])
    (hnames : ∀ a ∈ l, PlainName a.name) {sep : Char} (hsep : sep ∈ ",;+".toList) :
    parseDn u (serialise l [sep]).toUtf8 = l ↔
      ∀ a ∈ l, PlainValue a.value ∧ '\uFEFF' ∉ a.value.head? ∧
        QString.utf16Length a.value < 2 ^ 32 := by
  rw [parseDn_serialise hne (fun a ha => (hnames a ha).equals) hsep]
  exact forall₂_congr fun a ha => readBack_iff (hnames a ha)

def commonName (value : QString) : Attribute asciiUpper :=
  Attribute.new asciiUpper "CN".toList value

theorem commonName_plain (value : QString) : PlainName (commonName value).name := by
  have hname : (commonName value).name = "CN".toList := rfl
  rw [hname]
  exact ⟨by decide, by decide, by decide +kernel⟩

theorem parseDn_serialise_punctuation :
    parseDn asciiUpper (serialise [commonName ",+\"\\<>;".toList] [';']).toUtf8 =
      [commonName ",+\"\\<>;".toList] := by
  refine (parseDn_serialise_iff (List.cons_ne_nil _ _) ?_ (by decide)).mpr ?_
  · exact List.forall_mem_singleton.mpr (commonName_plain _)
  · exact List.forall_mem_singleton.mpr
      ⟨⟨by decide, by decide +kernel, by decide, by decide⟩, by decide, by decide +kernel⟩

/-- A byte order mark in front of a value is lost. -/
theorem byte_order_mark_lost :
    let l := [commonName "\uFEFFa".toList]
    (∀ a ∈ l, PlainName a.name) ∧
      parseDn asciiUpper (serialise l [',']).toUtf8 = [commonName "a".toList] ∧
      ¬(parseDn asciiUpper (serialise l [',']).toUtf8 = l ↔ ∀ a ∈ l, PlainValue a.value) := by
  intro l
  have hparse : parseDn asciiUpper (serialise l [',']).toUtf8 = [commonName "a".toList] := by
    rw [parseDn, parseString, parseParts]
    decide +kernel
  have hplain : ∀ a ∈ l, PlainValue a.value :=
    List.forall_mem_singleton.mpr ⟨by decide, by decide +kernel, by decide, by decide⟩
  refine ⟨List.forall_mem_singleton.mpr (commonName_plain _), hparse, fun hiff => ?_⟩
  rw [hiff.mpr hplain] at hparse
  exact absurd hparse (by decide +kernel)

end domain

section parsed
variable (u : UpperCase)

/-- The parser takes the string. -/
def Accepted (string : QByteArray) : Prop := (parseParts string).isSome = true

instance (string : QByteArray) : Decidable (Accepted string) :=
  inferInstanceAs (Decidable (_ = true))

theorem equals_not_mem_parsed {string : QByteArray} {result : Result}
    (h : parseParts string = some result) : ∀ a ∈ attributesOf u result, '=' ∉ a.name := by
  intro a ha
  obtain ⟨item, hitem, rfl⟩ := List.mem_map.mp ha
  refine equals_not_mem_toUpper fun hm => ?_
  exact equals_not_mem_keys h item hitem (QString.mem_of_mem_fromUtf8 (by decide) hm)

/-- The attributes of a parsed name are those of its written form exactly when each of them
can be read back. -/
theorem reparse_iff {string : QByteArray} (h : Accepted string) :
    (Accepted (dn (parseDn u string)).toUtf8 ∧
      parseDn u (dn (parseDn u string)).toUtf8 = parseDn u string) ↔
      ∀ a ∈ parseDn u string, ReadBack a := by
  obtain ⟨result, hresult⟩ := Option.isSome_iff_exists.mp h
  have hparsed : parseDn u string = attributesOf u result := by
    rw [parseDn, parseString, hresult, Option.getD_some]
  have hcomma : ',' ∈ ",;+".toList := by decide
  rw [hparsed, ← reparsed_iff hcomma (equals_not_mem_parsed u hresult)]
  constructor
  · intro hboth
    obtain ⟨haccepted, heq⟩ := hboth
    obtain ⟨again, hagain⟩ := Option.isSome_iff_exists.mp haccepted
    rw [parseDn, parseString, hagain, Option.getD_some] at heq
    exact ⟨again, hagain, heq⟩
  · intro hagain
    obtain ⟨again, hagain, heq⟩ := hagain
    have hparse : parseParts (dn (attributesOf u result)).toUtf8 = some again := hagain
    rw [Accepted, parseDn, parseString, hparse]
    exact ⟨rfl, heq⟩

theorem reparse_iff_simple :
    Accepted (literal "CN=a") ∧
      ((Accepted (dn (parseDn asciiUpper (literal "CN=a"))).toUtf8 ∧
        parseDn asciiUpper (dn (parseDn asciiUpper (literal "CN=a"))).toUtf8 =
          parseDn asciiUpper (literal "CN=a")) ↔
        ∀ a ∈ parseDn asciiUpper (literal "CN=a"), ReadBack a) := by
  have haccepted : Accepted (literal "CN=a") := by
    rw [Accepted, parseParts]
    decide +kernel
  exact ⟨haccepted, reparse_iff asciiUpper haccepted⟩

/-- An equals sign is taken in its escaped form, written bare, and then rejected. -/
theorem equals_sign_rejected :
    Accepted (literal "CN=a\\=b") ∧
      ¬(Accepted (dn (parseDn asciiUpper (literal "CN=a\\=b"))).toUtf8 ∧
        parseDn asciiUpper (dn (parseDn asciiUpper (literal "CN=a\\=b"))).toUtf8 =
          parseDn asciiUpper (literal "CN=a\\=b")) := by
  have hparse : parseParts (literal "CN=a\\=b") = some [(literal "CN", literal "a=b")] := by
    rw [parseParts]
    decide +kernel
  have hdn : (dn (parseDn asciiUpper (literal "CN=a\\=b"))).toUtf8 = literal "CN=a=b" := by
    rw [parseDn, parseString, hparse]
    decide +kernel
  have hreject : parseParts (literal "CN=a=b") = none := by
    rw [parseParts]
    decide +kernel
  refine ⟨by simp [Accepted, hparse], fun hboth => ?_⟩
  rw [hdn, Accepted, hreject] at hboth
  exact absurd hboth.1 (by decide)

end parsed

end QGpgME.Dn
