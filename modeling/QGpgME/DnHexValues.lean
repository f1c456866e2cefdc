import QGpgME.DnValues

/-! The values that are written in hexadecimal digits behind a number sign. -/
namespace QGpgME.Dn

/-- A hexadecimal digit, in upper or lower case. -/
def HexDigit (c : UInt8) : Prop := digitValue c < 16

instance (c : UInt8) : Decidable (HexDigit c) := inferInstanceAs (Decidable (_ < _))

/-- The bytes are spelled by two digits each. -/
inductive Spells : QByteArray → QByteArray → Prop where
  | nil : Spells [] []
  | cons {first second b : UInt8} {digits bytes : QByteArray} (hfirst : HexDigit first)
      (hsecond : HexDigit second) (hb : b.toNat = 16 * digitValue first + digitValue second)
      (h : Spells digits bytes) : Spells (first :: second :: digits) (b :: bytes)

section spelling
variable {digits bytes rest : QByteArray}

theorem isHexDigit_iff (c : UInt8) : isHexDigit c = true ↔ HexDigit c := by
  have hlower : (literal "0123456789abcdef").length = 16 := by decide
  have hupper : (literal "0123456789ABCDEF").length = 16 := by decide
  have hboth : HexDigit c ↔
      c ∈ literal "0123456789abcdef" ∨ c ∈ literal "0123456789ABCDEF" := by
    rw [← List.idxOf_lt_length_iff, ← List.idxOf_lt_length_iff, hlower, hupper, HexDigit,
      digitValue]
    omega
  have hto : ∀ c ∈ literal "1234567890abcdefABCDEF",
      c ∈ literal "0123456789abcdef" ∨ c ∈ literal "0123456789ABCDEF" := by decide
  have hfromLower : ∀ c ∈ literal "0123456789abcdef",
      c ∈ literal "1234567890abcdefABCDEF" := by decide
  have hfromUpper : ∀ c ∈ literal "0123456789ABCDEF",
      c ∈ literal "1234567890abcdefABCDEF" := by decide
  rw [hboth, isHexDigit, List.contains_iff_mem]
  constructor
  · exact hto c
  · intro h
    cases h with
    | inl h => exact hfromLower c h
    | inr h => exact hfromUpper c h

theorem Spells.hexDigit (h : Spells digits bytes) : ∀ c ∈ digits, HexDigit c := by
  induction h with
  | nil => simp
  | cons hfirst hsecond _ _ ih =>
    exact List.forall_mem_cons.mpr ⟨hfirst, List.forall_mem_cons.mpr ⟨hsecond, ih⟩⟩

theorem Spells.length_eq (h : Spells digits bytes) : digits.length = 2 * bytes.length := by
  induction h with
  | nil => rfl
  | cons _ _ _ _ ih =>
    simp only [List.length_cons]
    omega

/-- The loop over the pairs of digits gives the bytes back. -/
theorem Spells.hexPairs_eq (h : Spells digits bytes) : hexPairs digits = bytes := by
  induction h with
  | nil => rfl
  | @cons first second b digits bytes hfirst hsecond hb _ ih =>
    have hdigits : (isHexDigit first && isHexDigit second) = true := by
      rw [Bool.and_eq_true, isHexDigit_iff, isHexDigit_iff]
      exact ⟨hfirst, hsecond⟩
    rw [hexPairs, ih, xtoi₂_digits hdigits, ← hb, UInt8.ofNat_toNat]

/-- The scan for the end of the digits finds it in front of what is no digit. -/
theorem hexValue_digits (hdigits : ∀ c ∈ digits, HexDigit c)
    (hrest : ∀ c ∈ rest.head?, ¬HexDigit c) :
    hexValue (digits ++ rest) = (parseHexString digits).map fun value => (rest, value) := by
  have hall : ∀ c ∈ digits, isHexDigit c = true := fun c hc => (isHexDigit_iff c).mpr (hdigits c hc)
  have hstop : rest.takeWhile isHexDigit = [] ∧ rest.dropWhile isHexDigit = rest := by
    cases rest with
    | nil => exact ⟨rfl, rfl⟩
    | cons c rest =>
      have hc : ¬isHexDigit c = true := (isHexDigit_iff c).not.mpr (hrest c rfl)
      rw [List.takeWhile_cons, List.dropWhile_cons, if_neg hc, if_neg hc]
      exact ⟨rfl, rfl⟩
  rw [hexValue, List.takeWhile_append_of_pos hall, List.dropWhile_append_of_pos hall, hstop.1,
    hstop.2, List.append_nil]

theorem parseDnPart_numberSign {key : QByteArray} (hne : key ≠ []) (hkey : byte '=' ∉ key)
    (spaces : Nat) (hdigits : ∀ c ∈ digits, HexDigit c) (hrest : ∀ c ∈ rest.head?, ¬HexDigit c) :
    parseDnPart (key ++ byte '=' ::
        (List.replicate spaces (byte ' ') ++ byte '#' :: (digits ++ rest))) =
      (parseHexString digits).map fun value =>
        (rest, (renamed (removeTrailingSpaces key), value)) := by
  have hspaces : ∀ c ∈ List.replicate spaces (byte ' '), isBlank c = true := by
    intro c hc
    rw [List.eq_of_mem_replicate hc]
    rfl
  have hleading : removeLeadingSpaces
      (List.replicate spaces (byte ' ') ++ byte '#' :: (digits ++ rest)) =
        byte '#' :: (digits ++ rest) := by
    rw [removeLeadingSpaces, List.dropWhile_append_of_pos hspaces]
    rfl
  have hread : parseValue (byte '#' :: (digits ++ rest)) = hexValue (digits ++ rest) := rfl
  rw [parseDnPart_key hne hkey, hleading, hread, hexValue_digits hdigits hrest, Option.map_map]
  rfl

end spelling

/-- A value in hexadecimal digits is read byte for byte, and is refused without digits or with
an odd number of them. -/
theorem parseDnPart_hex {key rest : QByteArray} (hne : key ≠ []) (hkey : byte '=' ∉ key)
    (spaces : Nat) (hrest : ∀ c ∈ rest.head?, ¬HexDigit c) :
    (∀ digits b, b ≠ [] → Spells digits b →
      parseDnPart (key ++ byte '=' ::
          (List.replicate spaces (byte ' ') ++ byte '#' :: (digits ++ rest))) =
        some (rest, (renamed (removeTrailingSpaces key), b))) ∧
    ∀ digits, (∀ c ∈ digits, HexDigit c) → digits = [] ∨ digits.length % 2 = 1 →
      parseDnPart (key ++ byte '=' ::
        (List.replicate spaces (byte ' ') ++ byte '#' :: (digits ++ rest))) = none := by
  constructor
  · intro digits b hb h
    have hlen := h.length_eq
    have hpos : 0 < b.length := List.length_pos_of_ne_nil hb
    have hcond : ¬(digits.length = 0 ∨ digits.length % 2 = 1) := by omega
    have hall : digits.all isHexDigit = true := by
      rw [List.all_eq_true]
      exact fun c hc => (isHexDigit_iff c).mpr (h.hexDigit c hc)
    rw [parseDnPart_numberSign hne hkey spaces h.hexDigit hrest, parseHexString, if_neg hcond,
      if_pos hall, h.hexPairs_eq]
    rfl
  · intro digits hdigits hlen
    rw [← List.length_eq_zero_iff] at hlen
    rw [parseDnPart_numberSign hne hkey spaces hdigits hrest, parseHexString, if_pos hlen]
    rfl

theorem parseDnPart_hex_mixed :
    parseDnPart (literal "CN=  #c3Bc,O=x") = some (literal ",O=x", (literal "CN", [0xC3, 0xBC])) ∧
      parseDnPart (literal "CN=  #c3B,O=x") = none := by
  have hrest : ∀ c ∈ (literal ",O=x").head?, ¬HexDigit c := by decide +kernel
  have h := @parseDnPart_hex (literal "CN") (literal ",O=x") (by decide) (by decide) 2 hrest
  have hspells : Spells (literal "c3Bc") [0xC3, 0xBC] :=
    .cons (by decide) (by decide) (by decide) (.cons (by decide) (by decide) (by decide) .nil)
  exact ⟨h.1 (literal "c3Bc") _ (by decide) hspells,
    h.2 (literal "c3B") (by decide) (by decide)⟩

end QGpgME.Dn
