import QGpgME.DnParts
import QGpgME.DnRoundTrip

/-! The values that are written without quotation, as sequences of tokens, and the spaces at
their ends. -/
namespace QGpgME.Dn

/-- The number that a hexadecimal digit stands for. -/
def digitValue (c : UInt8) : Nat :=
  min ((literal "0123456789abcdef").idxOf c) ((literal "0123456789ABCDEF").idxOf c)

/-- The tokens of RFC 2253, byte by byte. A plain byte is none of the special characters, no
backslash and no quotation mark. -/
inductive Token
  | plain (b : UInt8) (h : b ∉ byte '\\' :: byte '"' :: valueEnds)
  | escaped (b : UInt8) (h : b ∈ escapable)
  | pair (first second : UInt8) (h : (isHexDigit first && isHexDigit second) = true)
deriving DecidableEq

def Token.text : Token → QByteArray
  | plain b _ => [b]
  | escaped b _ => [byte '\\', b]
  | pair first second _ => [byte '\\', first, second]

def Token.decoded : Token → UInt8
  | plain b _ => b
  | escaped b _ => b
  | pair first second _ => UInt8.ofNat (16 * digitValue first + digitValue second)

def Token.space : Token := plain (byte ' ') (by decide)

def Token.escapedSpace : Token := escaped (byte ' ') (by decide)

def written (tokens : List Token) : QByteArray := tokens.flatMap Token.text

/-- Without the plain spaces at the end. -/
def shown (tokens : List Token) : List Token := tokens.rdropWhile fun t => t = Token.space

/-- The value that the tokens stand for. -/
def meant (tokens : List Token) : QByteArray := (shown tokens).map Token.decoded

/-- If an escaped space is the last token but for plain spaces, it is a backslash with a space,
and no plain space follows it. -/
def SpacesKept (tokens : List Token) (spaces : Nat) : Prop :=
  ∀ t ∈ (shown tokens).getLast?, t.decoded = byte ' ' →
    spaces = 0 ∧ tokens.getLast? = some Token.escapedSpace

instance (tokens : List Token) (spaces : Nat) : Decidable (SpacesKept tokens spaces) :=
  inferInstanceAs (Decidable (∀ t ∈ _, _ → _))

section trailing
variable {α β : Type*} {p q : α → Bool}

theorem rdropWhile_map {r : β → Bool} (f : α → β) (l : List α) :
    (l.map f).rdropWhile r = (l.rdropWhile (r ∘ f)).map f := by
  rw [List.rdropWhile, List.rdropWhile, ← List.map_reverse, List.dropWhile_map, List.map_reverse]

/-- What a test drops at the end is dropped by a weaker test as well. -/
theorem rdropWhile_rdropWhile (h : ∀ a, p a = true → q a = true) (l : List α) :
    (l.rdropWhile p).rdropWhile q = l.rdropWhile q := by
  induction l using List.reverseRecOn with
  | nil => rfl
  | append_singleton l a ih =>
    by_cases hp : p a = true
    · rw [List.rdropWhile_concat_pos p l a hp, List.rdropWhile_concat_pos q l a (h a hp), ih]
    · rw [List.rdropWhile_concat_neg p l a hp]

theorem map_rdropWhile_eq_iff (f : α → β) (l : List α) :
    (l.rdropWhile q).map f = l.map f ↔ ∀ a ∈ l.getLast?, ¬q a = true := by
  have hprefix := List.rdropWhile_prefix q l
  have hself : (l.rdropWhile q).map f = l.map f ↔ l.rdropWhile q = l := by
    constructor
    · intro h
      apply hprefix.eq_of_length
      simpa using congrArg List.length h
    · intro h
      rw [h]
  rw [hself, List.rdropWhile_eq_self_iff]
  constructor
  · intro h a ha
    obtain ⟨hne, hlast⟩ := List.mem_getLast?_eq_getLast ha
    rw [hlast]
    exact h hne
  · intro h hne
    exact h _ (List.getLast?_eq_some_getLast hne)

end trailing

section reading
variable {rest : QByteArray} {tokens : List Token}

/-- The flag that the parser has set behind the tokens. -/
def lastAddedEscapedSpace (f : Bool) (tokens : List Token) : Bool :=
  (tokens.getLast?.map fun t => decide (t = Token.escapedSpace)).getD f

theorem lastAddedEscapedSpace_cons (f : Bool) (t : Token) (tokens : List Token) :
    lastAddedEscapedSpace f (t :: tokens) =
      lastAddedEscapedSpace (t = Token.escapedSpace) tokens := by
  rw [lastAddedEscapedSpace, lastAddedEscapedSpace, List.getLast?_cons]
  cases tokens.getLast? with
  | none => rfl
  | some t' => rfl

theorem lastAddedEscapedSpace_iff :
    lastAddedEscapedSpace false tokens = true ↔ tokens.getLast? = some Token.escapedSpace := by
  rw [lastAddedEscapedSpace]
  cases tokens.getLast? with
  | none => simp
  | some t => simp

theorem xtoi_digit {c : UInt8} (h : isHexDigit c = true) : xtoi c = UInt8.ofNat (digitValue c) := by
  have hall : ∀ c ∈ literal "1234567890abcdefABCDEF", xtoi c = UInt8.ofNat (digitValue c) := by
    decide
  exact hall c (List.contains_iff_mem.mp h)

theorem xtoi₂_digits {first second : UInt8}
    (h : (isHexDigit first && isHexDigit second) = true) :
    xtoi₂ first second = UInt8.ofNat (16 * digitValue first + digitValue second) := by
  rw [Bool.and_eq_true] at h
  rw [xtoi₂, xtoi_digit h.1, xtoi_digit h.2, UInt8.ofNat_add, UInt8.ofNat_mul]
  rfl

/-- One round of the parser's loop. -/
theorem unquotedValue_token (t : Token) (value : QByteArray) (f : Bool) :
    unquotedValue value f (t.text ++ rest) =
      unquotedValue (value ++ [t.decoded]) (t = Token.escapedSpace) rest := by
  cases t with
  | plain b h =>
    exact unquotedValue_plain h
  | escaped b h =>
    have hflag : (Token.escaped b h = Token.escapedSpace) ↔ b = byte ' ' := by
      simp [Token.escapedSpace]
    rw [Token.text, List.cons_append, List.singleton_append, unquotedValue_escaped h,
      decide_eq_decide.mpr hflag]
    rfl
  | pair first second h =>
    have hdigits : ∀ c ∈ literal "1234567890abcdefABCDEF", ¬escapable.contains c = true := by
      decide
    have hfirst : ¬escapable.contains first = true := by
      rw [Bool.and_eq_true] at h
      exact hdigits first (List.contains_iff_mem.mp h.1)
    rw [Token.text, List.cons_append, List.cons_append, List.singleton_append,
      unquotedValue_pair hfirst h, xtoi₂_digits h]
    rfl

/-- The loop over all the tokens. -/
theorem unquotedValue_written (tokens : List Token) (value : QByteArray) (f : Bool) :
    unquotedValue value f (written tokens ++ rest) =
      unquotedValue (value ++ tokens.map Token.decoded) (lastAddedEscapedSpace f tokens) rest := by
  induction tokens generalizing value f with
  | nil => simp [written, lastAddedEscapedSpace]
  | cons t tokens ih =>
    have htext : written (t :: tokens) ++ rest = t.text ++ (written tokens ++ rest) :=
      List.append_assoc _ _ _
    rw [htext, unquotedValue_token, ih, lastAddedEscapedSpace_cons, List.map_cons,
      List.append_assoc, List.singleton_append]

/-- The value that the parser takes the tokens for. -/
def taken (tokens : List Token) : QByteArray :=
  if lastAddedEscapedSpace false tokens then tokens.map Token.decoded
  else removeTrailingSpaces (tokens.map Token.decoded)

theorem text_cons (t : Token) :
    ∃ b bs, t.text = b :: bs ∧ b ∉ literal "#\"" ∧ (t ≠ Token.space → isBlank b = false) := by
  cases t with
  | plain b h =>
    have hsub : ∀ b ∈ literal "#\"", b ∈ byte '\\' :: byte '"' :: valueEnds := by decide
    refine ⟨b, [], rfl, fun hm => h (hsub b hm), fun hne => ?_⟩
    rw [isBlank, decide_eq_false_iff_not]
    intro hblank
    subst hblank
    exact hne rfl
  | escaped b h => exact ⟨byte '\\', [b], rfl, by decide, fun _ => by decide⟩
  | pair first second h => exact ⟨byte '\\', [first, second], rfl, by decide, fun _ => by decide⟩

/-- What is parsed behind the equals sign. -/
theorem parseValue_written {t : Token} (ht : t ≠ Token.space) (hrest : EndsPart rest)
    (tokens : List Token) :
    parseValue (removeLeadingSpaces (written (t :: tokens) ++ rest)) =
      some (rest, taken (t :: tokens)) := by
  obtain ⟨b, bs, htext, hb, hblank⟩ := text_cons t
  have hcons : written (t :: tokens) ++ rest = b :: (bs ++ written tokens ++ rest) := by
    rw [written, List.flatMap_cons, htext]
    rfl
  have hleading : removeLeadingSpaces (written (t :: tokens) ++ rest) =
      written (t :: tokens) ++ rest := by
    rw [hcons, removeLeadingSpaces, List.dropWhile_cons, hblank ht, if_neg Bool.false_ne_true]
  have hread : parseValue (written (t :: tokens) ++ rest) =
      unquotedValue [] false (written (t :: tokens) ++ rest) := by
    rw [hcons, parseValue_unquoted hb]
  rw [hleading, hread, unquotedValue_written, unquotedValue_tail hrest, List.nil_append, taken]

/-- The parser drops an escaped space exactly where its flag does not speak of the last token
that is to be kept. -/
theorem taken_eq_meant_iff (tokens : List Token) :
    taken tokens = meant tokens ↔ ∀ t ∈ (shown tokens).getLast?, t.decoded = byte ' ' →
      lastAddedEscapedSpace false tokens = true := by
  by_cases hflag : lastAddedEscapedSpace false tokens = true
  · have hshown : shown tokens = tokens := by
      rw [shown, List.rdropWhile_eq_self_iff]
      intro hne
      have hlast := lastAddedEscapedSpace_iff.mp hflag
      rw [List.getLast?_eq_some_getLast hne] at hlast
      rw [Option.some.inj hlast]
      decide
    rw [taken, if_pos hflag, meant, hshown]
    simp [hflag]
  · have hdrop : (shown tokens).rdropWhile (isBlank ∘ Token.decoded) =
        tokens.rdropWhile (isBlank ∘ Token.decoded) := by
      apply rdropWhile_rdropWhile
      intro t ht
      rw [of_decide_eq_true ht]
      rfl
    have htaken : taken tokens =
        ((shown tokens).rdropWhile (isBlank ∘ Token.decoded)).map Token.decoded := by
      rw [taken, if_neg hflag, removeTrailingSpaces, rdropWhile_map, hdrop]
    rw [htaken, meant, map_rdropWhile_eq_iff]
    simp [hflag, isBlank]

end reading

section padding
variable (tokens : List Token) (spaces : Nat)

/-- The tokens with plain spaces behind them, which are tokens as well. -/
def padded : List Token := tokens ++ List.replicate spaces Token.space

theorem written_padded :
    written (padded tokens spaces) = written tokens ++ List.replicate spaces (byte ' ') := by
  have hspaces : written (List.replicate spaces Token.space) =
      List.replicate spaces (byte ' ') := by
    induction spaces with
    | zero => rfl
    | succ n ih =>
      rw [List.replicate_succ, List.replicate_succ, ← ih]
      rfl
  rw [padded, written, List.flatMap_append]
  exact congrArg (written tokens ++ ·) hspaces

theorem shown_padded : shown (padded tokens spaces) = shown tokens := by
  rw [padded]
  induction spaces with
  | zero => rw [List.replicate_zero, List.append_nil]
  | succ n ih =>
    rw [List.replicate_succ', ← List.append_assoc, shown]
    rw [List.rdropWhile_concat_pos _ _ _ (by decide)]
    exact ih

theorem lastAddedEscapedSpace_padded :
    lastAddedEscapedSpace false (padded tokens spaces) = true ↔
      spaces = 0 ∧ tokens.getLast? = some Token.escapedSpace := by
  rw [lastAddedEscapedSpace_iff, padded]
  cases spaces with
  | zero => simp
  | succ n =>
    have hne : Token.space ≠ Token.escapedSpace := by decide
    rw [List.replicate_succ', ← List.append_assoc, List.getLast?_concat]
    simp [hne]

end padding

/-- A value is taken as it is meant, with its escaped spaces and without the plain ones at its
end, exactly when its last character is no escaped space that the flag misses. -/
theorem parseDnPart_written_iff {key rest : QByteArray} (hne : key ≠ []) (hkey : byte '=' ∉ key)
    {t : Token} (ht : t ≠ Token.space) (tokens : List Token) (spaces : Nat)
    (hrest : EndsPart rest) :
    parseDnPart (key ++ byte '=' ::
        (written (t :: tokens) ++ List.replicate spaces (byte ' ') ++ rest)) =
      some (rest, (renamed (removeTrailingSpaces key), meant (t :: tokens))) ↔
    SpacesKept (t :: tokens) spaces := by
  have hmeant : meant (padded (t :: tokens) spaces) = meant (t :: tokens) := by
    rw [meant, meant, shown_padded]
  have hread := parseValue_written ht hrest (tokens ++ List.replicate spaces Token.space)
  have hpadded : t :: (tokens ++ List.replicate spaces Token.space) =
      padded (t :: tokens) spaces := rfl
  rw [hpadded] at hread
  have hiff := taken_eq_meant_iff (padded (t :: tokens) spaces)
  rw [shown_padded, lastAddedEscapedSpace_padded, hmeant] at hiff
  rw [parseDnPart_key hne hkey, ← written_padded, hread, SpacesKept, ← hiff]
  simp

/-- The letter `a`. -/
def letterA : Token := .plain (byte 'a') (by decide)

def hexSpace : Token := .pair (byte '2') (byte '0') (by decide)

theorem parseDnPart_trailing_space :
    parseDnPart (literal "CN=a\\ ") = some ([], (literal "CN", literal "a ")) :=
  (@parseDnPart_written_iff (literal "CN") [] (by decide) (by decide) letterA (by decide)
    [Token.escapedSpace] 0 (by simp [EndsPart])).mpr (by decide)

/-- A space is lost that is written in hexadecimal digits, or followed by a plain space. -/
theorem escaped_space_lost :
    parseDnPart (literal "CN=a\\20") = some ([], (literal "CN", literal "a")) ∧
      parseDnPart (literal "CN=a\\  ") = some ([], (literal "CN", literal "a")) ∧
      parseDnPart (literal "CN" ++ byte '=' :: written [letterA, hexSpace]) ≠
        some ([], (literal "CN", meant [letterA, hexSpace])) ∧
      parseDnPart (literal "CN" ++ byte '=' ::
          (written [letterA, Token.escapedSpace] ++ List.replicate 1 (byte ' '))) ≠
        some ([], (literal "CN", meant [letterA, Token.escapedSpace])) := by
  decide +kernel

end QGpgME.Dn
