import QGpgME.DefaultKeyGenerationJob
import QGpgME.GpgError

/-! The audit log of a job as HTML: diagnostics of the engine are shown as they are, whatever
characters they hold. -/
namespace QGpgME

namespace QString

/-- What `QString::toHtmlEscaped` makes of a character. -/
def escapedChar : Char → QString
  | '<' => "&lt;".toList
  | '>' => "&gt;".toList
  | '&' => "&amp;".toList
  | '"' => "&quot;".toList
  | c => [c]

def toHtmlEscaped (s : QString) : QString := s.flatMap escapedChar

end QString

namespace AuditLog

inductive Protocol where
  | openPGP
  | cms
  | unknown
deriving DecidableEq

structure AuditLogFlags where
  withHelp : Bool
  html : Bool
  diagnostic : Bool
deriving DecidableEq

/-- What the function asks the context for, and the texts of errors. -/
structure Context where
  protocol : Protocol
  lastError : Error
  getAuditLog : AuditLogFlags → Error × QByteArray
  errorAsString : Error → QString
  fromLocal8Bit : QByteArray → QString

def stringFromGpgOutput (ctx : Context) (ba : QByteArray) : QString := ctx.fromLocal8Bit ba

def markupDiagnostics (data : QString) : QString :=
  QString.arg "<pre>%1</pre>".toList [QString.toHtmlEscaped data]

def cmsAuditLogFlags : AuditLogFlags := ⟨true, true, false⟩

def openPGPAuditLogFlags : AuditLogFlags := ⟨false, false, true⟩

def diagnosticAuditLog : AuditLogFlags := ⟨false, false, true⟩

/-- The text, and the error that is handed back to the caller, who has passed one in. -/
def auditLogAsHtml (ctx : Context) (err : Error) : QString × Error :=
  if ctx.protocol = .openPGP then
    let (err, ba) := ctx.getAuditLog openPGPAuditLogFlags
    if err.asBool then (ctx.errorAsString err, err)
    else (markupDiagnostics (stringFromGpgOutput ctx ba), err)
  else if ctx.protocol = .cms then
    if ctx.lastError.asBool then
      let (err, ba) := ctx.getAuditLog diagnosticAuditLog
      if err.asBool then (ctx.errorAsString err, err)
      else (markupDiagnostics (stringFromGpgOutput ctx ba), err)
    else
      let (err, ba) := ctx.getAuditLog cmsAuditLogFlags
      if err.asBool then (ctx.errorAsString err, err) else (QString.fromUtf8 ba, err)
  else ("Unsupported protocol for Audit Log".toList, err)

/-- The text that a reader of HTML sees. -/
def htmlText : QString → QString
  | '&' :: 'l' :: 't' :: ';' :: s => '<' :: htmlText s
  | '&' :: 'g' :: 't' :: ';' :: s => '>' :: htmlText s
  | '&' :: 'a' :: 'm' :: 'p' :: ';' :: s => '&' :: htmlText s
  | '&' :: 'q' :: 'u' :: 'o' :: 't' :: ';' :: s => '"' :: htmlText s
  | c :: s => c :: htmlText s
  | [] => []

/-- Text that opens and closes no element and no attribute value. -/
def PlainText (s : QString) : Prop := '<' ∉ s ∧ '>' ∉ s ∧ '"' ∉ s

instance (s : QString) : Decidable (PlainText s) := inferInstanceAs (Decidable (_ ∧ _))

/-- The log is a diagnostic of the engine. -/
def Context.Diagnoses (ctx : Context) : Prop :=
  ctx.protocol = .openPGP ∨ ctx.protocol = .cms ∧ ctx.lastError.asBool = true

section escaping

theorem escapedChar_plain (c : Char) : PlainText (QString.escapedChar c) := by
  unfold QString.escapedChar
  split
  · decide
  · decide
  · decide
  · decide
  · next hlt hgt _ hquot =>
    refine ⟨fun h => hlt ?_, fun h => hgt ?_, fun h => hquot ?_⟩
    · exact (List.mem_singleton.mp h).symm
    · exact (List.mem_singleton.mp h).symm
    · exact (List.mem_singleton.mp h).symm

theorem toHtmlEscaped_plain (s : QString) : PlainText (QString.toHtmlEscaped s) := by
  refine ⟨fun h => ?_, fun h => ?_, fun h => ?_⟩
  all_goals
    obtain ⟨c, -, hc⟩ := List.mem_flatMap.mp h
    have hplain := escapedChar_plain c
  · exact hplain.1 hc
  · exact hplain.2.1 hc
  · exact hplain.2.2 hc

theorem htmlText_cons {c : Char} (h : c ≠ '&') (s : QString) :
    htmlText (c :: s) = c :: htmlText s := by
  rw [htmlText] <;> simp [h]

theorem htmlText_escapedChar (c : Char) (s : QString) :
    htmlText (QString.escapedChar c ++ s) = c :: htmlText s := by
  unfold QString.escapedChar
  split
  · rfl
  · rfl
  · rfl
  · rfl
  · next _ _ hamp _ =>
    rw [List.singleton_append, htmlText_cons hamp]

theorem htmlText_toHtmlEscaped (s : QString) : htmlText (QString.toHtmlEscaped s) = s := by
  induction s with
  | nil => rfl
  | cons c s ih =>
    have hcons : QString.toHtmlEscaped (c :: s) =
        QString.escapedChar c ++ QString.toHtmlEscaped s := rfl
    rw [hcons, htmlText_escapedChar, ih]

/-- What is spliced in is not read as a place marker. -/
theorem markupDiagnostics_eq (data : QString) :
    markupDiagnostics data =
      "<pre>".toList ++ QString.toHtmlEscaped data ++ "</pre>".toList := by
  have hpieces : QString.formatPieces 0 "<pre>%1</pre>".toList =
      "<pre>".toList.map .char ++ .marker "%1".toList 1 :: "</pre>".toList.map .char := by
    decide +kernel
  have hnumbers : QString.markerNumbers (QString.formatPieces 0 "<pre>%1</pre>".toList) = [1] := by
    decide +kernel
  simp only [markupDiagnostics, QString.arg, hnumbers]
  rw [hpieces, List.flatMap_append, List.flatMap_cons, QString.flatMap_fill_chars,
    QString.flatMap_fill_chars, List.append_assoc]
  rfl

end escaping

/-- Whatever the engine reports, a diagnostic that is shown has no markup but the element around
it, and reads as the engine has written it. -/
theorem auditLogAsHtml_diagnostic (ctx : Context) (err : Error) (h : ctx.Diagnoses) :
    let (html, err') := auditLogAsHtml ctx err
    err' = (ctx.getAuditLog diagnosticAuditLog).1 ∧
      (err'.asBool = true → html = ctx.errorAsString err') ∧
      (err'.asBool = false → ∃ body : QString, html = "<pre>".toList ++ body ++ "</pre>".toList ∧
        PlainText body ∧
          htmlText body = ctx.fromLocal8Bit (ctx.getAuditLog diagnosticAuditLog).2) := by
  have hlog : auditLogAsHtml ctx err =
      let (err, ba) := ctx.getAuditLog diagnosticAuditLog
      if err.asBool then (ctx.errorAsString err, err)
      else (markupDiagnostics (stringFromGpgOutput ctx ba), err) := by
    obtain hp | ⟨hp, hlast⟩ := h
    · rw [auditLogAsHtml, if_pos hp]
      rfl
    · rw [auditLogAsHtml, if_neg (by simp [hp]), if_pos hp, if_pos hlast]
  rw [hlog]
  cases ha : ctx.getAuditLog diagnosticAuditLog with
  | mk err ba =>
    cases he : err.asBool with
    | true => simp [he]
    | false =>
      have hmarkup := markupDiagnostics_eq (stringFromGpgOutput ctx ba)
      have hplain := toHtmlEscaped_plain (stringFromGpgOutput ctx ba)
      have htext := htmlText_toHtmlEscaped (stringFromGpgOutput ctx ba)
      simp only [he]
      exact ⟨rfl, by simp [he], fun _ => ⟨_, hmarkup, hplain, htext⟩⟩

/-- An engine whose diagnostic looks like HTML. -/
def trickyContext : Context where
  protocol := .cms
  lastError := Error.fromCode .general
  getAuditLog := fun _ => (Error.noError, [60, 98, 62, 37, 49, 38])
  errorAsString := fun _ => []
  fromLocal8Bit := QString.fromLatin1

theorem auditLogAsHtml_diagnostic_tricky :
    ∃ body : QString, (auditLogAsHtml trickyContext Error.noError).1 =
      "<pre>".toList ++ body ++ "</pre>".toList ∧
        PlainText body ∧ htmlText body = "<b>%1&".toList :=
  (auditLogAsHtml_diagnostic trickyContext Error.noError (Or.inr ⟨rfl, rfl⟩)).2.2 rfl

end AuditLog
end QGpgME
