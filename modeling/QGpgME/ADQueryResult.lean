import QGpgME.QtString
import QGpgME.Separators

/-! The text with which dirmngr answers an AD_QUERY, and the attributes read from it. -/
namespace QGpgME.ADQueryResult

/-- `_qgpgme::split` -/
def split (s : QByteArray) (delimiter : UInt8) : List QByteArray :=
  let piece := s.takeWhile fun b => b ≠ delimiter
  match _h : s.dropWhile fun b => b ≠ delimiter with
  | [] => [piece]
  | _ :: rest => piece :: split rest delimiter
termination_by s.length
decreasing_by
  have hle := (List.dropWhile_sublist (l := s) fun b => b ≠ delimiter).length_le
  rw [_h, List.length_cons] at hle
  omega

structure Attribute where
  name : QString
  value : QString
deriving DecidableEq

def fromStdStringView (s : QByteArray) : QString := if s = [] then [] else QString.fromUtf8 s

/-- One round of the loop. Where the colon is the last character of a line, the character
read behind it is the line feed or the final NUL of the text, and no space. -/
def parseLine (result : List Attribute) (line : QByteArray) : List Attribute :=
  match line with
  | [] => result
  | front :: rest =>
    if front = 32 then
      match result.getLast? with
      | none => result
      | some last =>
        result.dropLast ++ [{ last with value := last.value ++ fromStdStringView rest }]
    else
      let nameEnd := line.idxOf 58
      if nameEnd = line.length ∨ getElem? line (nameEnd + 1) ≠ some 32 then result
      else result ++ [⟨fromStdStringView (line.take nameEnd),
        fromStdStringView (line.drop (nameEnd + 2))⟩]

def parseQueryResult (resultData : QByteArray) : List Attribute :=
  (split resultData 10).foldl parseLine []

theorem split_eq_splitOn (s : QByteArray) (delimiter : UInt8) :
    split s delimiter = s.splitOn delimiter := by
  fun_induction split s delimiter with
  | case1 s piece hdrop =>
    have hpiece : piece = s := by
      rw [← List.append_nil piece, ← hdrop]
      exact List.takeWhile_append_dropWhile
    have hnot : delimiter ∉ s := by
      intro hmem
      simpa using List.dropWhile_eq_nil_iff.mp hdrop delimiter hmem
    rw [List.splitOn_eq_singleton hnot, hpiece]
  | case2 s piece b rest hdrop ih =>
    have hpiece : piece ++ b :: rest = s := by
      rw [← hdrop]
      exact List.takeWhile_append_dropWhile
    have hb : b = delimiter := by
      have hhead := List.head?_dropWhile_not (fun b => decide (b ≠ delimiter)) s
      rw [hdrop] at hhead
      simpa using hhead
    have hnot : delimiter ∉ piece := by
      intro hmem
      simpa using List.mem_takeWhile_imp hmem
    rw [ih, ← hpiece, hb, List.splitOn_append_cons_self_of_not_mem hnot]

theorem delimiter_not_mem_split (s : QByteArray) (delimiter : UInt8) :
    ∀ piece ∈ split s delimiter, delimiter ∉ piece := by
  intro piece hpiece
  rw [split_eq_splitOn] at hpiece
  exact Separators.not_mem_of_mem_splitOn hpiece

theorem split_intercalate {lines : List QByteArray} (hne : lines ≠ [])
    (h : ∀ line ∈ lines, 10 ∉ line) : split ([10].intercalate lines) 10 = lines := by
  rw [split_eq_splitOn, List.splitOn_intercalate 10 h hne]

end QGpgME.ADQueryResult
