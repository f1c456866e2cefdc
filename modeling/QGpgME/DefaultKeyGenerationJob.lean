import QGpgME.QtString
import QGpgME.Separators

/-! The parameters of the default key generation: a text of lines, into which the email and the
name are spliced by `QString::arg`. -/
namespace QGpgME

namespace QString

/-- A piece of a format: a character, or a place marker with its text. -/
inductive FormatPiece where
  | char (c : Char)
  | marker (text : QString) (number : Nat)
deriving DecidableEq

/-- One or two digits behind the percent sign, with an L in front of them or not. The result is
the number with the length of what has been read. -/
def placeMarker : QString → Option (Nat × Nat)
  | 'L' :: s => (digits s).map fun (number, length) => (number, length + 1)
  | s => digits s
where
  digit (c : Char) : Nat := c.toNat - '0'.toNat
  digits : QString → Option (Nat × Nat)
    | [] => none
    | [c] => if c.isDigit then some (digit c, 1) else none
    | c :: d :: _ =>
      if c.isDigit then
        if d.isDigit then some (digit c * 10 + digit d, 2) else some (digit c, 1)
      else none

/-- The first number counts the characters that belong to the place marker just read. -/
def formatPieces : Nat → QString → List FormatPiece
  | _, [] => []
  | skip + 1, _ :: s => formatPieces skip s
  | 0, c :: s =>
    match if c = '%' then placeMarker s else none with
    | some (number, length) => .marker (c :: s.take length) number :: formatPieces length s
    | none => .char c :: formatPieces 0 s

def FormatPiece.number : FormatPiece → Option Nat
  | .char _ => none
  | .marker _ number => some number

def markerNumbers (pieces : List FormatPiece) : List Nat :=
  (pieces.filterMap FormatPiece.number).dedup

/-- The place markers of the lowest number get the first value, and so on. -/
def FormatPiece.fill (numbers : List Nat) (values : List QString) : FormatPiece → QString
  | .char c => [c]
  | .marker text number =>
    (getElem? values (numbers.filter fun lower => lower < number).length).getD text

/-- `QString::arg`. What has been put in is not looked at again. -/
def arg (format : QString) (values : List QString) : QString :=
  let pieces := formatPieces 0 format
  pieces.flatMap (FormatPiece.fill (markerNumbers pieces) values)

theorem filterMap_chars (s : QString) :
    (s.map FormatPiece.char).filterMap FormatPiece.number = [] := by
  rw [List.filterMap_map, List.filterMap_eq_nil_iff]
  exact fun _ _ => rfl

theorem flatMap_fill_chars (numbers : List Nat) (values : List QString) (s : QString) :
    (s.map FormatPiece.char).flatMap (FormatPiece.fill numbers values) = s := by
  induction s with
  | nil => rfl
  | cons c s ih => rw [List.map_cons, List.flatMap_cons, ih]; rfl

end QString

namespace DefaultKeyGenerationJob
open Separators

def argsFormat : QString :=
  ["<GnupgKeyParms format=\"internal\">\n",
   "%ask-passphrase\n",
   "key-type:      RSA\n",
   "key-length:    2048\n",
   "key-usage:     sign\n",
   "subkey-type:   RSA\n",
   "subkey-length: 2048\n",
   "subkey-usage:  encrypt\n",
   "%1",
   "%2",
   "</GnupgKeyParms>"].flatMap String.toList

/-- `DefaultKeyGenerationJob::start`, with what it passes on to the start of a key generation
job. -/
def start (email name : QString) : QString :=
  let namePart := if name.isEmpty then [] else QString.arg "name-real:     %1\n".toList [name]
  let mailPart := if email.isEmpty then [] else QString.arg "name-email:    %1\n".toList [email]
  QString.arg argsFormat [mailPart, namePart]

/-- The parameters that are the same for all keys. -/
def fixedLines : List QString :=
  ["<GnupgKeyParms format=\"internal\">", "%ask-passphrase", "key-type:      RSA",
    "key-length:    2048", "key-usage:     sign", "subkey-type:   RSA", "subkey-length: 2048",
    "subkey-usage:  encrypt"].map String.toList

def closingTag : QString := "</GnupgKeyParms>".toList

/-- A line with a keyword and, behind the colon and blanks, its value. -/
def Gives (keyword value line : QString) : Prop :=
  ∃ blanks : QString, (∀ c ∈ blanks, c = ' ') ∧ line = keyword ++ ':' :: (blanks ++ value)

/-- One line for a value, and none for an empty value. -/
def Asked (keyword value : QString) (lines : List QString) : Prop :=
  if value = [] then lines = [] else ∃ line, lines = [line] ∧ Gives keyword value line

/-- The lines of the text are the fixed ones and those that the email and the name ask for. -/
def Expected (email name text : QString) : Prop :=
  ∃ mailLines nameLines,
    Asked "name-email".toList email mailLines ∧ Asked "name-real".toList name nameLines ∧
    (text.splitOn '\n').Perm (fixedLines ++ [closingTag] ++ mailLines ++ nameLines)

def mailLines (email : QString) : List QString :=
  if email = [] then [] else ["name-email:    ".toList ++ email]

def nameLines (name : QString) : List QString :=
  if name = [] then [] else ["name-real:     ".toList ++ name]

section parameters
variable {email name : QString}

theorem start_eq (email name : QString) :
    start email name =
      (fixedLines ++ mailLines email ++ nameLines name).flatMap (fun line => line ++ ['\n']) ++
        closingTag := by
  have hname : QString.arg "name-real:     %1\n".toList [name] =
      "name-real:     ".toList ++ (name ++ ['\n']) := rfl
  have hmail : QString.arg "name-email:    %1\n".toList [email] =
      "name-email:    ".toList ++ (email ++ ['\n']) := rfl
  have hargs (mailPart namePart : QString) : QString.arg argsFormat [mailPart, namePart] =
      fixedLines.flatMap (fun line => line ++ ['\n']) ++
        (mailPart ++ (namePart ++ closingTag)) := by
    have hpieces : QString.formatPieces 0 argsFormat =
        (fixedLines.flatMap fun line => line ++ ['\n']).map .char ++
          (.marker "%1".toList 1 :: .marker "%2".toList 2 :: closingTag.map .char) := by
      decide +kernel
    have hnumbers : QString.markerNumbers (QString.formatPieces 0 argsFormat) = [1, 2] := by
      rw [hpieces, QString.markerNumbers, List.filterMap_append, QString.filterMap_chars]
      simp only [List.filterMap_cons, QString.filterMap_chars]
      rfl
    simp only [QString.arg, hnumbers]
    rw [hpieces, List.flatMap_append, List.flatMap_cons, List.flatMap_cons,
      QString.flatMap_fill_chars, QString.flatMap_fill_chars]
    rfl
  rw [start, hargs, hname, hmail]
  by_cases hemail : email = [] <;> by_cases hempty : name = [] <;>
    simp [mailLines, nameLines, hemail, hempty]

theorem start_lines (hemail : '\n' ∉ email) (hname : '\n' ∉ name) :
    (start email name).splitOn '\n' =
      fixedLines ++ mailLines email ++ nameLines name ++ [closingTag] := by
  rw [start_eq]
  refine splitOn_ended (fun line hline => ?_) (by decide)
  have hfixed : ∀ line ∈ fixedLines, '\n' ∉ line := by decide +kernel
  have hmailKeyword : '\n' ∉ "name-email:    ".toList := by decide +kernel
  have hnameKeyword : '\n' ∉ "name-real:     ".toList := by decide +kernel
  obtain (hline | hline) | hline := by simpa only [List.mem_append] using hline
  · exact hfixed line hline
  · have heq : line = "name-email:    ".toList ++ email := by
      by_cases hempty : email = [] <;> simp_all [mailLines]
    rw [heq, List.mem_append, not_or]
    exact ⟨hmailKeyword, hemail⟩
  · have heq : line = "name-real:     ".toList ++ name := by
      by_cases hempty : name = [] <;> simp_all [nameLines]
    rw [heq, List.mem_append, not_or]
    exact ⟨hnameKeyword, hname⟩

theorem gives_padded (keyword value : QString) (n : Nat) :
    Gives keyword value (keyword ++ ':' :: (List.replicate n ' ' ++ value)) :=
  ⟨_, fun _ hc => List.eq_of_mem_replicate hc, rfl⟩

theorem asked_mailLines (email : QString) : Asked "name-email".toList email (mailLines email) := by
  by_cases hempty : email = []
  · simp [Asked, mailLines, hempty]
  · simp only [Asked, mailLines, if_neg hempty]
    exact ⟨_, rfl, gives_padded _ email 4⟩

theorem asked_nameLines (name : QString) : Asked "name-real".toList name (nameLines name) := by
  by_cases hempty : name = []
  · simp [Asked, nameLines, hempty]
  · simp only [Asked, nameLines, if_neg hempty]
    exact ⟨_, rfl, gives_padded _ name 5⟩

theorem Asked.mem {keyword value : QString} {lines : List QString}
    (h : Asked keyword value lines) {c : Char} (hc : c ∈ value) : ∃ line ∈ lines, c ∈ line := by
  have hne : value ≠ [] := List.ne_nil_of_mem hc
  rw [Asked, if_neg hne] at h
  obtain ⟨line, rfl, blanks, -, rfl⟩ := h
  exact ⟨_, List.mem_singleton_self _, by simp [hc]⟩

/-- A line break is in no line, so it cannot be given. -/
theorem Expected.not_mem {text : QString} (h : Expected email name text) :
    '\n' ∉ email ∧ '\n' ∉ name := by
  obtain ⟨mail, real, hmail, hreal, hperm⟩ := h
  have hnot : ∀ line ∈ mail ++ real, '\n' ∉ line := by
    intro line hline
    have hmem : line ∈ fixedLines ++ [closingTag] ++ mail ++ real := by
      rw [List.append_assoc]
      exact List.mem_append_right _ hline
    exact not_mem_of_mem_splitOn (hperm.mem_iff.mpr hmem)
  refine ⟨fun hbreak => ?_, fun hbreak => ?_⟩
  · obtain ⟨line, hline, hin⟩ := hmail.mem hbreak
    exact hnot line (List.mem_append_left _ hline) hin
  · obtain ⟨line, hline, hin⟩ := hreal.mem hbreak
    exact hnot line (List.mem_append_right _ hline) hin

end parameters

/-- The parameters are the fixed ones with those that are asked for if and only if neither the
email nor the name has a line break. -/
theorem start_expected_iff (email name : QString) :
    Expected email name (start email name) ↔ '\n' ∉ email ∧ '\n' ∉ name := by
  constructor
  · exact Expected.not_mem
  · rintro ⟨hemail, hname⟩
    refine ⟨_, _, asked_mailLines email, asked_nameLines name, ?_⟩
    rw [start_lines hemail hname]
    have hswap : (mailLines email ++ nameLines name ++ [closingTag]).Perm
        ([closingTag] ++ (mailLines email ++ nameLines name)) := List.perm_append_comm
    simpa using hswap.append_left fixedLines

/-- A name that brings a parameter of its own. -/
theorem name_adds_length :
    "key-length:    1024".toList ∈
      (start "a@b".toList "A\nkey-length:    1024".toList).splitOn '\n' ∧
    ¬Expected "a@b".toList "A\nkey-length:    1024".toList
      (start "a@b".toList "A\nkey-length:    1024".toList) := by
  refine ⟨by decide +kernel, fun h => ?_⟩
  exact h.not_mem.2 (by decide +kernel)

end DefaultKeyGenerationJob
end QGpgME
