import QGpgME.DnParser
import Mathlib.Tactic.SplitIfs

/-! The attributes of a distinguished name and the form in which they are written. -/
namespace QGpgME.Dn
open Utf8

/-- What is relied on in the case conversion of Qt: it goes character by character, a
converted character stays as it is, and no character turns into an equals sign. -/
structure UpperCase where
  upper : Char → QString
  ascii : ∀ c, Ascii c → upper c = [c.toUpper]
  stable : ∀ c, ∀ d ∈ upper c, upper d = [d]
  equals : ∀ c, '=' ∈ upper c → c = '='

/-- `QString::toUpper` -/
def UpperCase.toUpper (u : UpperCase) (s : QString) : QString := s.flatMap u.upper

/-- Every attribute is built with its name in upper case. -/
@[ext] structure Attribute (u : UpperCase) where
  name : QString
  value : QString
  isUpper : ∀ c ∈ name, u.upper c = [c]

variable {u : UpperCase}

instance : DecidableEq (Attribute u) := fun a b =>
  decidable_of_iff (a.name = b.name ∧ a.value = b.value) Attribute.ext_iff.symm

/-- The constructor of `DN::Attribute`. -/
def Attribute.new (u : UpperCase) (name value : QString) : Attribute u where
  name := u.toUpper name
  value := value
  isUpper d hd := by
    obtain ⟨c, -, hc⟩ := List.mem_flatMap.mp hd
    exact u.stable c d hc

/-- The list that `parse_dn` builds from the parts. -/
def attributesOf (u : UpperCase) (parsed : Result) : List (Attribute u) :=
  parsed.map fun item => Attribute.new u (QString.fromUtf8 item.1) (QString.fromUtf8 item.2)

def parseDn (u : UpperCase) (view : QByteArray) : List (Attribute u) :=
  attributesOf u (parseString view)

def escaped : QString := ",+\"\\<>;".toList

/-- The loop of `dn_escape`, over the units that it visits. -/
def escapeUnits (s : QString) : QString :=
  s.flatMap fun ch => if escaped.contains ch then ['\\', ch] else [ch]

/-- The units that `dn_escape` visits: the end of its loop is an `unsigned int`. -/
def visited (s : QString) : QString := QString.firstUnits s (QString.utf16Length s % 2 ^ 32)

def dnEscape (s : QString) : QString := escapeUnits (visited s)

/-- One attribute of the list. -/
def attributeText (attr : Attribute u) : QString :=
  attr.name.trimmed ++ '=' :: dnEscape attr.value.trimmed

def listAttributes (dn : List (Attribute u)) : List QString :=
  (dn.filter fun attr => attr.name ≠ [] ∧ attr.value ≠ []).map attributeText

def serialise (dn : List (Attribute u)) (sep : QString) : QString :=
  sep.intercalate (listAttributes dn)

/-- `DN::dn`, on the attributes of the name. -/
def dn (attributes : List (Attribute u)) : QString := serialise attributes [',']

section upper

theorem toUpper_ascii {s : QString} (h : ∀ c ∈ s, Ascii c) :
    u.toUpper s = s.map Char.toUpper := by
  rw [UpperCase.toUpper, List.map_eq_flatMap]
  exact List.flatMap_congr fun c hc => u.ascii c (h c hc)

theorem toUpper_stable {s : QString} (h : ∀ c ∈ s, u.upper c = [c]) : u.toUpper s = s := by
  conv_rhs => rw [← List.flatMap_singleton' s]
  exact List.flatMap_congr h

theorem equals_not_mem_toUpper {s : QString} (h : '=' ∉ s) : '=' ∉ u.toUpper s := by
  intro hm
  obtain ⟨c, hc, he⟩ := List.mem_flatMap.mp hm
  exact h (u.equals c he ▸ hc)

theorem toUpper_toNat (c : Char) :
    c.toUpper.toNat = if 97 ≤ c.toNat ∧ c.toNat ≤ 122 then c.toNat - 32 else c.toNat := by
  have hrange : ('a'.val ≤ c.val ∧ c.val ≤ 'z'.val) ↔ (97 ≤ c.toNat ∧ c.toNat ≤ 122) := by
    rw [UInt32.le_iff_toNat_le, UInt32.le_iff_toNat_le]
    rfl
  delta Char.toUpper
  split
  · next h =>
    have h' := hrange.mp h
    have hval : (c.val + ('A'.val - 'a'.val)).toNat = c.toNat - 32 := by
      have hshift : ('A'.val - 'a'.val).toNat = 2 ^ 32 - 32 := by decide
      rw [UInt32.toNat_add, hshift]
      show (c.toNat + (2 ^ 32 - 32)) % 2 ^ 32 = c.toNat - 32
      omega
    rw [if_pos h']
    exact hval
  · next h => rw [if_neg fun h' => h (hrange.mpr h')]

/-- The conversion on ASCII, with every other character kept. -/
def asciiUpper : UpperCase where
  upper c := [c.toUpper]
  ascii _ _ := rfl
  stable c d hd := by
    have hupper : c.toUpper.toUpper = c.toUpper := by
      rw [← Char.toNat_inj, toUpper_toNat, toUpper_toNat]
      split_ifs with h h' <;> omega
    rw [List.mem_singleton.mp hd, hupper]
  equals c hc := by
    have hupper := congrArg Char.toNat (List.mem_singleton.mp hc)
    rw [toUpper_toNat] at hupper
    have hnat : '='.toNat = 61 := rfl
    rw [hnat] at hupper
    refine Char.toNat_inj.mp ?_
    split_ifs at hupper <;> omega

end upper

section text
variable {p : Char → Bool}

theorem visited_eq_self {s : QString} (h : QString.utf16Length s < 2 ^ 32) : visited s = s := by
  rw [visited, Nat.mod_eq_of_lt h]
  exact QString.firstUnits_eq_self (Nat.le_refl _)

/-- A string whose length no `unsigned int` holds is cut short. -/
theorem visited_length {s : QString} (h : ¬QString.utf16Length s < 2 ^ 32) :
    (visited s).length < s.length := by
  have hcut := QString.firstUnits_length s (QString.utf16Length s % 2 ^ 32)
  rw [visited]
  omega

theorem escapeUnits_cons (c : Char) (s : QString) :
    escapeUnits (c :: s) = (if escaped.contains c then ['\\', c] else [c]) ++ escapeUnits s := rfl

theorem escapeUnits_append (s t : QString) :
    escapeUnits (s ++ t) = escapeUnits s ++ escapeUnits t := List.flatMap_append

/-- Escaping is transparent to a test that no escaped character and no backslash passes. -/
theorem dropWhile_escapeUnits (hp : ∀ c ∈ escaped, p c = false) (s : QString) :
    (escapeUnits s).dropWhile p = escapeUnits (s.dropWhile p) := by
  have hbackslash : p '\\' = false := hp '\\' (by decide)
  induction s with
  | nil => rfl
  | cons c s ih =>
    rw [escapeUnits_cons]
    by_cases hc : escaped.contains c = true
    · have hpc : p c = false := hp c (by simpa using hc)
      have hdrop : (c :: s).dropWhile p = c :: s := by simp [hpc]
      rw [if_pos hc, hdrop, escapeUnits_cons, if_pos hc, List.cons_append, List.dropWhile_cons,
        hbackslash, if_neg Bool.false_ne_true]
    · rw [if_neg hc, List.singleton_append, List.dropWhile_cons, List.dropWhile_cons]
      split
      · exact ih
      · rw [escapeUnits_cons, if_neg hc, List.singleton_append]

theorem escapeUnits_eq_self {s : QString} (h : ∀ c ∈ s, c ∉ escaped) : escapeUnits s = s := by
  induction s with
  | nil => rfl
  | cons c s ih =>
    have hc : ¬escaped.contains c = true := by simpa using h c (by simp)
    rw [escapeUnits_cons, if_neg hc, ih fun d hd => h d (by simp [hd]), List.singleton_append]

theorem listAttributes_cons (a : Attribute u) (dn : List (Attribute u)) :
    listAttributes (a :: dn) =
      (if a.name ≠ [] ∧ a.value ≠ [] then [attributeText a] else []) ++ listAttributes dn := by
  simp only [listAttributes, List.filter_cons, decide_eq_true_eq]
  split
  · rfl
  · rfl

end text

end QGpgME.Dn
