import QGpgME.Utf8
import Mathlib.Algebra.GroupWithZero.Nat
import Mathlib.Algebra.Ring.Int.Defs

/-! The strings and byte arrays of Qt, with the conversions and the trimming that the
sources use. -/
namespace QGpgME
variable {α : Type*}

/-- Strings of Qt, as sequences of Unicode scalar values. -/
abbrev QString := List Char

abbrev QByteArray := List UInt8

def trimBy (p : α → Bool) (s : List α) : List α := (s.dropWhile p).rdropWhile p

namespace QByteArray

/-- `isspace` of the C locale -/
def isSpace (b : UInt8) : Bool := b = 32 || (9 ≤ b && b ≤ 13)

def trimmed (b : QByteArray) : QByteArray := trimBy isSpace b

end QByteArray

namespace QString

def toUtf8 (s : QString) : QByteArray := Utf8.encode s

/-- A byte order mark in front is skipped. -/
def fromUtf8 (b : QByteArray) : QString :=
  if [0xEF, 0xBB, 0xBF].isPrefixOf b then Utf8.decode (b.drop 3) else Utf8.decode b

/-- Each UTF-16 unit beyond Latin-1 becomes a question mark. -/
def toLatin1 (s : QString) : QByteArray := s.flatMap fun c =>
  if c.toNat < 256 then [UInt8.ofNat c.toNat]
  else if c.toNat < 0x10000 then [63] else [63, 63]

def fromLatin1 (b : QByteArray) : QString := b.map fun x => Char.ofNat x.toNat

/-- `QChar::isSpace` -/
def isSpace (c : Char) : Bool :=
  c.toNat = 0x20 || (9 ≤ c.toNat && c.toNat ≤ 13) || c.toNat = 0x85 || c.toNat = 0xA0 ||
  c.toNat = 0x1680 || (0x2000 ≤ c.toNat && c.toNat ≤ 0x200A) || c.toNat = 0x2028 ||
  c.toNat = 0x2029 || c.toNat = 0x202F || c.toNat = 0x205F || c.toNat = 0x3000

def trimmed (s : QString) : QString := trimBy isSpace s

/-- The spaces among ASCII, as one byte each. -/
def isAsciiSpace (c : Char) : Bool := c.toNat = 32 || (9 ≤ c.toNat && c.toNat ≤ 13)

def asciiTrimmed (s : QString) : QString := trimBy isAsciiSpace s

def replace (s : QString) (before : Char) (after : QString) : QString :=
  s.flatMap fun c => if c = before then after else [c]

def number (n : Int) : QString :=
  if n < 0 then '-' :: Nat.toDigits 10 n.natAbs else Nat.toDigits 10 n.natAbs

/-- `QString::length`, which counts UTF-16 units. -/
def utf16Length (s : QString) : Nat := (s.map fun c => if c.toNat < 0x10000 then 1 else 2).sum

/-- The first UTF-16 units of a string. Where they end inside a surrogate pair, its first half is
the question mark that `toUtf8` makes of it. -/
def firstUnits : QString → Nat → QString
  | [], _ => []
  | _ :: _, 0 => []
  | c :: s, n + 1 =>
    if c.toNat < 0x10000 then c :: firstUnits s n
    else if n = 0 then ['?']
    else c :: firstUnits s (n - 1)

/-- The digits behind the sign, if that is what they are and the number is in range. -/
def ofDigits (negative : Bool) (digits : QString) : Option Int :=
  if digits ≠ [] ∧ digits.all Char.isDigit then
    let n : Int := Nat.ofDigitChars 10 digits 0
    let n := if negative then -n else n
    if -2 ^ 31 ≤ n ∧ n < 2 ^ 31 then some n else none
  else none

/-- None where `ok` is set to false. -/
def toInt (s : QString) : Option Int :=
  match trimmed s with
  | '-' :: digits => ofDigits true digits
  | '+' :: digits => ofDigits false digits
  | digits => ofDigits false digits

end QString

section trimming
variable {p : α → Bool}

theorem trimBy_sublist (s : List α) : (trimBy p s).Sublist s :=
  (List.rdropWhile_prefix p _).sublist.trans (List.dropWhile_sublist p)

theorem mem_of_mem_trimBy {s : List α} {a : α} (h : a ∈ trimBy p s) : a ∈ s :=
  (trimBy_sublist s).subset h

theorem trimBy_eq_self {s : List α} (h : ∀ a ∈ s, p a = false) : trimBy p s = s := by
  have hd : s.dropWhile p = s := by
    cases s with
    | nil => rfl
    | cons a s => rw [List.dropWhile_cons, h a (by simp), if_neg Bool.false_ne_true]
  rw [trimBy, hd, List.rdropWhile_eq_self_iff]
  intro hl
  rw [h _ (List.getLast_mem hl)]
  exact Bool.false_ne_true

theorem trimBy_head {s : List α} {a : α} (h : a ∈ (trimBy p s).head?) : p a = false := by
  have hprefix : trimBy p s <+: s.dropWhile p := List.rdropWhile_prefix p _
  obtain ⟨t, ht⟩ := hprefix
  obtain ⟨rest, hrest⟩ := List.head?_eq_some_iff.mp h
  rw [hrest, List.cons_append] at ht
  have hne : s.dropWhile p ≠ [] := by simp [← ht]
  simpa [← ht] using List.head_dropWhile_not p hne

theorem trimBy_last {s : List α} (h : trimBy p s ≠ []) : p ((trimBy p s).getLast h) = false := by
  by_contra hp
  exact List.rdropWhile_last_not p (s.dropWhile p) h (by simpa [trimBy] using hp)

variable {q : α → Bool} (hqp : ∀ a, q a = true → p a = true)
include hqp

theorem dropWhile_trimBy (s : List α) : (trimBy p s).dropWhile q = trimBy p s := by
  cases ht : trimBy p s with
  | nil => rfl
  | cons a t =>
    have ha : p a = false := trimBy_head (s := s) (by simp [ht])
    have hq : ¬q a = true := by
      intro hq
      rw [hqp a hq] at ha
      exact absurd ha (by decide)
    rw [List.dropWhile_cons, if_neg hq]

theorem rdropWhile_trimBy (s : List α) : (trimBy p s).rdropWhile q = trimBy p s := by
  rw [List.rdropWhile_eq_self_iff]
  intro hl hq
  have hlast := trimBy_last hl
  rw [hqp _ hq] at hlast
  exact absurd hlast (by decide)

end trimming

namespace QString
open Utf8

theorem ascii_of_isAsciiSpace {c : Char} (h : isAsciiSpace c = true) : Ascii c := by
  simp only [isAsciiSpace, Bool.or_eq_true, Bool.and_eq_true, decide_eq_true_eq] at h
  show c.toNat < 128
  omega

theorem isSpace_test : AsciiTest QByteArray.isSpace isAsciiSpace where
  agree c h := by
    have h' : c.toNat < 128 := h
    have h1 : c.toNat % 2 ^ 8 = c.toNat := by omega
    simp only [QByteArray.isSpace, isAsciiSpace, UInt8.le_iff_toNat_le, ← UInt8.toNat_inj,
      UInt8.toNat_ofNat', h1]
    rfl
  high b h := by
    simp only [QByteArray.isSpace, UInt8.le_iff_toNat_le, ← UInt8.toNat_inj]
    simp
    omega
  ascii c h := ascii_of_isAsciiSpace h

/-- Trimming the code of a string removes ASCII spaces and no part of any other character. -/
theorem trimmed_toUtf8 (s : QString) : QByteArray.trimmed (toUtf8 s) = toUtf8 (asciiTrimmed s) := by
  rw [QByteArray.trimmed, trimBy, toUtf8, isSpace_test.dropWhile_encode,
    isSpace_test.rdropWhile_encode]
  rfl

/-- Without the byte order mark, if there is one in front. -/
def skipMark : QString → QString
  | [] => []
  | c :: s => if c = '\uFEFF' then s else c :: s

theorem skipMark_sublist (s : QString) : (skipMark s).Sublist s := by
  cases s with
  | nil => exact List.Sublist.refl _
  | cons c s =>
    rw [skipMark]
    split
    · exact List.sublist_cons_self c s
    · exact List.Sublist.refl _

/-- The round trip over UTF-8 loses a byte order mark and nothing else. -/
theorem fromUtf8_toUtf8 (s : QString) : fromUtf8 (toUtf8 s) = skipMark s := by
  have hmark : String.utf8EncodeChar '\uFEFF' = [0xEF, 0xBB, 0xBF] := by decide
  cases s with
  | nil => rfl
  | cons c s =>
    rw [fromUtf8, skipMark]
    by_cases hc : c = '\uFEFF'
    · have htail : toUtf8 (c :: s) = [0xEF, 0xBB, 0xBF] ++ toUtf8 s := by
        rw [hc, toUtf8, encode_cons, hmark]
        rfl
      have hprefix : [0xEF, 0xBB, 0xBF].isPrefixOf (toUtf8 (c :: s)) = true := by
        rw [htail]
        exact List.isPrefixOf_iff_prefix.mpr (List.prefix_append _ _)
      rw [if_pos hc, if_pos hprefix, htail]
      exact decode_encode s
    · rw [if_neg hc, if_neg, toUtf8, decode_encode]
      intro hprefix
      obtain ⟨rest, hrest⟩ := List.isPrefixOf_iff_prefix.mp hprefix
      have hread := decode_encode (c :: s)
      rw [← hmark] at hrest
      rw [toUtf8] at hrest
      rw [← hrest, decode_encodeChar] at hread
      exact hc (List.cons.inj hread).1.symm

section units
variable {s : QString} {n : Nat}

theorem utf16Length_cons (c : Char) (s : QString) :
    utf16Length (c :: s) = (if c.toNat < 0x10000 then 1 else 2) + utf16Length s := by
  rw [utf16Length, List.map_cons, List.sum_cons]
  rfl

theorem firstUnits_eq_self (h : utf16Length s ≤ n) : firstUnits s n = s := by
  fun_induction firstUnits s n with
  | case1 => rfl
  | case2 c s =>
    rw [utf16Length_cons] at h
    split at h <;> omega
  | case3 c s n hc ih =>
    rw [utf16Length_cons, if_pos hc] at h
    rw [ih (by omega)]
  | case4 c s hc =>
    rw [utf16Length_cons, if_neg hc] at h
    omega
  | case5 c s n hc hn ih =>
    rw [utf16Length_cons, if_neg hc] at h
    rw [ih (by omega)]

theorem utf16Length_le (s : QString) : utf16Length s ≤ 2 * s.length := by
  induction s with
  | nil => exact Nat.le_refl 0
  | cons c s ih =>
    rw [utf16Length_cons, List.length_cons]
    split <;> omega

/-- A character has two units at most, and the last one may be there by half. -/
theorem firstUnits_length (s : QString) (n : Nat) :
    2 * (firstUnits s n).length + utf16Length s ≤ 2 * s.length + n + 1 := by
  fun_induction firstUnits s n with
  | case1 => exact Nat.zero_le _
  | case2 c s =>
    have hle := utf16Length_le (c :: s)
    rw [List.length_nil]
    omega
  | case3 c s n hc ih =>
    rw [utf16Length_cons, if_pos hc, List.length_cons, List.length_cons]
    omega
  | case4 c s hc =>
    have hle := utf16Length_le s
    rw [utf16Length_cons, if_neg hc, List.length_singleton, List.length_cons]
    omega
  | case5 c s n hc hn ih =>
    rw [utf16Length_cons, if_neg hc, List.length_cons, List.length_cons]
    omega

theorem head_firstUnits {c : Char} (h : c ∈ (firstUnits s n).head?) : c ∈ s.head? ∨ c = '?' := by
  cases s with
  | nil => exact Or.inl h
  | cons d s =>
    cases n with
    | zero => simp [firstUnits] at h
    | succ n =>
      rw [firstUnits] at h
      split_ifs at h with hd hn
      · exact Or.inl h
      · exact Or.inr (by simpa using h.symm)
      · exact Or.inl h

end units

theorem toLatin1_ascii {s : QString} (h : ∀ c ∈ s, Ascii c) : toLatin1 s = encode s := by
  rw [encode_ascii h, toLatin1, List.map_eq_flatMap]
  refine List.flatMap_congr fun c hc => ?_
  have hc' : c.toNat < 128 := h c hc
  rw [if_pos (by omega)]

theorem length_fromUtf8_le (b : QByteArray) : (fromUtf8 b).length ≤ b.length := by
  rw [fromUtf8]
  split
  · have := length_decode_le (b.drop 3)
    rw [List.length_drop] at this
    omega
  · exact length_decode_le b

/-- An ASCII character is read from its own byte, also behind a mark. -/
theorem count_fromUtf8 {a : Char} (ha : Ascii a) (b : QByteArray) :
    (fromUtf8 b).count a = b.count (UInt8.ofNat a.toNat) := by
  rw [fromUtf8]
  split
  · next hmark =>
    obtain ⟨rest, hrest⟩ := List.isPrefixOf_iff_prefix.mp hmark
    have hnot : UInt8.ofNat a.toNat ∉ String.utf8EncodeChar '\uFEFF' := by
      intro hm
      have hlt : a.toNat < 128 := ha
      have hhigh := (encodeChar_not_ascii (c := '\uFEFF') (by decide)).1 _ hm
      rw [UInt8.toNat_ofNat'] at hhigh
      omega
    have hbytes : String.utf8EncodeChar '\uFEFF' = [0xEF, 0xBB, 0xBF] := by decide
    rw [hbytes] at hnot
    rw [count_decode ha, ← hrest, List.count_append, List.count_eq_zero_of_not_mem hnot,
      Nat.zero_add]
    rfl
  · exact count_decode ha b

theorem mem_of_mem_fromUtf8 {a : Char} (ha : Ascii a) {b : QByteArray} (h : a ∈ fromUtf8 b) :
    UInt8.ofNat a.toNat ∈ b := by
  rw [← List.count_pos_iff, ← count_fromUtf8 ha]
  exact List.count_pos_iff.mpr h

theorem fromUtf8_encode_ascii {s : QString} (h : ∀ c ∈ s, Ascii c) : fromUtf8 (encode s) = s := by
  have hread : fromUtf8 (encode s) = skipMark s := fromUtf8_toUtf8 s
  cases s with
  | nil => exact hread
  | cons c s =>
    have hc : c ≠ '\uFEFF' := by
      intro hc
      have hascii := h c (by simp)
      rw [hc] at hascii
      exact absurd hascii (by decide)
    rw [hread, skipMark, if_neg hc]

/-- Each character outside Latin-1 adds a question mark, and two units beyond the first plane. -/
theorem toLatin1_counts (s : QString) :
    s.length ≤ (toLatin1 s).length ∧ s.count '?' ≤ (toLatin1 s).count 63 ∧
      ((toLatin1 s).count 63 = s.count '?' → (∀ c ∈ s, c.toNat < 256) ∧
        (toLatin1 s).length = s.length) := by
  induction s with
  | nil => simp [toLatin1]
  | cons c s ih =>
    obtain ⟨hlen, hcount, heq⟩ := ih
    by_cases hc : c.toNat < 256
    · have hhead : toLatin1 (c :: s) = UInt8.ofNat c.toNat :: toLatin1 s := by
        simp [toLatin1, hc]
      have hq : (UInt8.ofNat c.toNat = 63) ↔ c = '?' := by
        rw [← UInt8.toNat_inj, UInt8.toNat_ofNat', Nat.mod_eq_of_lt (by simpa using hc)]
        constructor
        · intro h
          exact Char.toNat_inj.mp h
        · intro h
          rw [h]
          rfl
      rw [hhead]
      simp only [List.length_cons, List.count_cons, beq_iff_eq, hq]
      refine ⟨by omega, by split <;> omega, fun h => ?_⟩
      obtain ⟨hall, hl⟩ := heq (by split at h <;> omega)
      exact ⟨List.forall_mem_cons.mpr ⟨hc, hall⟩, by omega⟩
    · have hne : ¬c = '?' := by
        intro h
        rw [h] at hc
        exact hc (by decide)
      have hhead : ∃ n, 0 < n ∧ toLatin1 (c :: s) = List.replicate n 63 ++ toLatin1 s := by
        by_cases hp : c.toNat < 0x10000
        · exact ⟨1, by omega, by simp [toLatin1, hc, hp]⟩
        · exact ⟨2, by omega, by simp [toLatin1, hc, hp, List.replicate]⟩
      obtain ⟨n, hn, hhead⟩ := hhead
      rw [hhead]
      simp only [List.length_append, List.length_replicate, List.length_cons, List.count_append,
        List.count_replicate_self, List.count_cons_of_ne hne]
      exact ⟨by omega, by omega, fun h => by omega⟩

/-- Reading Latin-1 as UTF-8 adds no character in front. -/
theorem fromUtf8_toLatin1_ne_cons {c : Char} (hc : c ≠ '?') (s : QString) :
    fromUtf8 (toLatin1 s) ≠ c :: s := by
  intro h
  obtain ⟨-, -, hcounts⟩ := toLatin1_counts s
  have hcount := count_fromUtf8 (a := '?') (by decide) (toLatin1 s)
  rw [h, List.count_cons_of_ne hc] at hcount
  obtain ⟨-, hlen⟩ := hcounts hcount.symm
  have hle := length_fromUtf8_le (toLatin1 s)
  rw [h, hlen, List.length_cons] at hle
  omega

/-- Reading Latin-1 as UTF-8 gives the string back for ASCII strings only. -/
theorem fromUtf8_toLatin1_iff {s : QString} :
    fromUtf8 (toLatin1 s) = s ↔ ∀ c ∈ s, Ascii c := by
  constructor
  · intro h
    obtain ⟨-, -, hcounts⟩ := toLatin1_counts s
    have hcount := count_fromUtf8 (a := '?') (by decide) (toLatin1 s)
    rw [h] at hcount
    obtain ⟨hsmall, hl⟩ := hcounts hcount.symm
    by_cases hbom : [0xEF, 0xBB, 0xBF].isPrefixOf (toLatin1 s) = true
    · -- the mark is lost, so the result is too short
      have hmark := (List.isPrefixOf_iff_prefix.mp hbom).length_le
      rw [fromUtf8, if_pos hbom] at h
      have hle := length_decode_le ((toLatin1 s).drop 3)
      rw [h, List.length_drop, hl] at hle
      simp only [List.length_cons, List.length_nil] at hmark
      omega
    · rw [fromUtf8, if_neg hbom] at h
      have hdecode : (decode (toLatin1 s)).length = (toLatin1 s).length := by rw [h, hl]
      have hmap := decode_eq_map_of_length hdecode
      rw [h] at hmap
      intro c hc
      have hlt := hsmall c hc
      rw [hmap] at hc
      obtain ⟨b, -, hb⟩ := List.mem_map.mp hc
      by_cases hb' : b.toNat < 128
      · obtain ⟨a, ha, hab, -⟩ := exists_ascii_of_lt hb'
        rw [if_pos hb', ← hab] at hb
        rwa [← hb]
      · rw [if_neg hb'] at hb
        rw [← hb] at hlt
        exact absurd hlt (by decide)
  · intro h
    rw [toLatin1_ascii h, fromUtf8_encode_ascii h]

theorem number_natCast (n : Nat) : number n = Nat.toDigits 10 n := by
  simp [number]

theorem ofDigits_toDigits {n : Nat} (h : n < 2 ^ 31) :
    ofDigits false (Nat.toDigits 10 n) = some (n : Int) := by
  have hall : (Nat.toDigits 10 n).all Char.isDigit = true :=
    List.all_eq_true.mpr fun c hc => Nat.isDigit_of_mem_toDigits (by decide) (by decide) hc
  have hrange : -2 ^ 31 ≤ (n : Int) ∧ (n : Int) < 2 ^ 31 := by omega
  rw [ofDigits, if_pos ⟨Nat.toDigits_ne_nil, hall⟩]
  simp only [Nat.ofDigitChars_ten_toDigits, Bool.false_eq_true, if_false, if_pos hrange]

/-- A number that fits in an `int` is read back from its digits. -/
theorem toInt_number {n : Nat} (h : n < 2 ^ 31) : toInt (number n) = some (n : Int) := by
  have hdigit : ∀ c ∈ Nat.toDigits 10 n, 48 ≤ c.toNat ∧ c.toNat ≤ 57 := by
    intro c hc
    have hd := Nat.isDigit_of_mem_toDigits (by decide) (by decide) hc
    simp only [Char.isDigit, ge_iff_le, Bool.and_eq_true, decide_eq_true_eq,
      UInt32.le_iff_toNat_le] at hd
    exact hd
  have htrim : trimmed (Nat.toDigits 10 n) = Nat.toDigits 10 n := by
    refine trimBy_eq_self fun c hc => ?_
    have := hdigit c hc
    simp only [isSpace, Bool.or_eq_false_iff, decide_eq_false_iff_not, Bool.and_eq_false_iff]
    omega
  rw [toInt, number_natCast, htrim, ← ofDigits_toDigits h]
  split
  · next digits heq =>
    have := hdigit '-' (by simp [heq])
    exact absurd this (by decide)
  · next digits heq =>
    have := hdigit '+' (by simp [heq])
    exact absurd this (by decide)
  · rfl

end QString
end QGpgME
