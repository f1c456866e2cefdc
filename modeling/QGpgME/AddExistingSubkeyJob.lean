import QGpgME.CallTrace
import QGpgME.GpgError
import QGpgME.Gregorian
import QGpgME.QtString

/-! The addition of an existing subkey to a key, with the text that carries its expiration. -/
namespace QGpgME.AddExistingSubkeyJob
open CallTrace Gregorian
variable {Key : Type}

/-- What the job reads of a subkey. `expirationTime` is a `time_t`. -/
structure Subkey where
  keyGrips : List QByteArray
  keyGrip : QByteArray
  neverExpires : Bool
  expirationTime : Int

/-- What the edit interactor is told. -/
structure GpgAddExistingSubkeyEditInteractor where
  keyGrip : QByteArray
  expiry : Option QByteArray
deriving DecidableEq

inductive ContextCall (Key : Type) where
  | setFlag (name value : QString)
  | edit (key : Key) (interactor : GpgAddExistingSubkeyEditInteractor)

/-- The error, the audit log and its error. -/
abbrev Result := Error × QString × Error

/-- The Julian day of the first day of 1970. -/
def epochDay : Nat := 2440588

/-- A number of a fixed width in a format of date and time. -/
def padded (width n : Nat) : QString := (Nat.toDigits 10 n).leftpad width '0'

/-- `QDateTime::fromSecsSinceEpoch(secs, UTC).toString(u"yyyyMMdd'T'hhmmss")` -/
def isoTime (secs : Nat) : QString :=
  let date := ofJulianDay (epochDay + secs / 86400)
  let time := secs % 86400
  padded 4 date.year ++ (padded 2 date.month ++ (padded 2 date.day ++ ('T' ::
    (padded 2 (time / 3600) ++ (padded 2 (time / 60 % 60) ++ padded 2 (time % 60))))))

/-- The conversion to `uint_least32_t` -/
def toUint32 (time : Int) : Nat := (time % 2 ^ 32).toNat

def Subkey.interactor (subkey : Subkey) : GpgAddExistingSubkeyEditInteractor where
  keyGrip := subkey.keyGrip
  expiry :=
    if subkey.neverExpires then none
    else some (isoTime (toUint32 subkey.expirationTime)).toUtf8

/-- `GPG_ERR_NOT_SUPPORTED` is 60. -/
def addSubkey (answer : Trace (ContextCall Key) Error → ContextCall Key → Error)
    (auditLog : Trace (ContextCall Key) Error → QString × Error) (key : Key) (subkey : Subkey) :
    Calls (ContextCall Key) Error Result := do
  if subkey.keyGrips.length > 1 then
    return (.fromCode (.other 60), [], .noError)
  perform answer (.setFlag "extended-edit".toList "1".toList)
  let err ← call answer (.edit key subkey.interactor)
  return (err, auditLog (← get))

/-- The number in a part of a text. -/
def field (s : QString) (start length : Nat) : Nat :=
  Nat.ofDigitChars 10 ((s.drop start).take length) 0

/-- What such a text means: the days since 1970 are counted through the calendar. None if it is
not the text of a date and a time. -/
def readIsoTime (s : QString) : Option Nat :=
  let date : Date := ⟨field s 0 4, field s 4 2, field s 6 2⟩
  if s.length = 15 ∧ s[8]? = some 'T' ∧ date.Valid ∧
      field s 9 2 < 24 ∧ field s 11 2 < 60 ∧ field s 13 2 < 60 then
    some (date.daysSince 1970 * 86400 + field s 9 2 * 3600 + field s 11 2 * 60 + field s 13 2)
  else none

theorem length_padded {width n : Nat} (h : 0 < width) (hn : n < 10 ^ width) :
    (padded width n).length = width := by
  rw [padded, List.length_leftpad]
  exact Nat.max_eq_left ((Nat.length_toDigits_le_iff (by decide) h).mpr hn)

theorem ofDigitChars_padded (width n : Nat) : Nat.ofDigitChars 10 (padded width n) 0 = n := by
  rw [padded, List.leftpad, Nat.ofDigitChars_append, Nat.ofDigitChars_replicate_zero, Nat.mul_zero,
    Nat.ofDigitChars_ten_toDigits]

theorem field_padded {s t : QString} {n : Nat} {start width : Nat} (hw : 0 < width)
    (hn : n < 10 ^ width) (hs : s.drop start = padded width n ++ t) :
    field s start width = n := by
  have hlen := length_padded hw hn
  rw [field, hs, List.take_append_of_le_length (Nat.le_of_eq hlen.symm), List.take_of_length_le
    (Nat.le_of_eq hlen), ofDigitChars_padded]

theorem drop_padded {width n : Nat} (hw : 0 < width) (hn : n < 10 ^ width) (k : Nat)
    (t : QString) : (padded width n ++ t).drop (width + k) = t.drop k := by
  have hlen := length_padded hw hn
  rw [List.drop_append, hlen, Nat.add_sub_cancel_left, List.drop_of_length_le (by omega),
    List.nil_append]

/-- What fits into the parts of the text. -/
structure Fits (date : Date) (time : Nat) : Prop where
  valid : date.Valid
  year : date.year < 10 ^ 4
  time : time < 86400

theorem Fits.two {date : Date} {time : Nat} (h : Fits date time) :
    date.month < 10 ^ 2 ∧ date.day < 10 ^ 2 ∧ time / 3600 < 10 ^ 2 ∧ time / 60 % 60 < 10 ^ 2 ∧
      time % 60 < 10 ^ 2 := by
  obtain ⟨⟨⟨-, hmonth⟩, -, hday⟩, -, htime⟩ := h
  have hle := daysInMonth_le date.year date.month
  omega

/-- The text of a date and a time of the day. -/
def text (date : Date) (time : Nat) : QString :=
  padded 4 date.year ++ (padded 2 date.month ++ (padded 2 date.day ++ ('T' ::
    (padded 2 (time / 3600) ++ (padded 2 (time / 60 % 60) ++ padded 2 (time % 60))))))

theorem readIsoTime_text {date : Date} {time : Nat} (h : Fits date time) :
    readIsoTime (text date time) = some (date.daysSince 1970 * 86400 + time) := by
  obtain ⟨hmonth, hday, hhour, hminute, hsecond⟩ := h.two
  have htwo : 0 < 2 := by decide
  have h4 := drop_padded (by decide : 0 < 4) h.year
  have hm := drop_padded htwo hmonth
  have hd := drop_padded htwo hday
  have hh := drop_padded htwo hhour
  have hi := drop_padded htwo hminute
  -- what is left of the text where each part begins
  have hdrop4 : (text date time).drop 4 = _ := h4 0 _
  have hdrop6 : (text date time).drop 6 = _ := (h4 2 _).trans (hm 0 _)
  have hdrop8 : (text date time).drop 8 = _ := (h4 4 _).trans ((hm 2 _).trans (hd 0 _))
  have hdrop9 : (text date time).drop 9 = _ := (h4 5 _).trans ((hm 3 _).trans (hd 1 _))
  have hdrop11 : (text date time).drop 11 = _ :=
    (h4 7 _).trans ((hm 5 _).trans ((hd 3 _).trans (hh 0 _)))
  have hdrop13 : (text date time).drop 13 = _ :=
    (h4 9 _).trans ((hm 7 _).trans ((hd 5 _).trans ((hh 2 _).trans (hi 0 _))))
  rw [List.drop_zero] at hdrop4 hdrop6 hdrop8 hdrop11 hdrop13
  have hfield0 : field (text date time) 0 4 = date.year := field_padded (by decide) h.year rfl
  have hfield4 : field (text date time) 4 2 = date.month := field_padded htwo hmonth hdrop4
  have hfield6 : field (text date time) 6 2 = date.day := field_padded htwo hday hdrop6
  have hfield9 : field (text date time) 9 2 = time / 3600 := field_padded htwo hhour hdrop9
  have hfield11 : field (text date time) 11 2 = time / 60 % 60 := field_padded htwo hminute hdrop11
  have hfield13 : field (text date time) 13 2 = time % 60 := by
    refine field_padded (t := []) htwo hsecond ?_
    rw [hdrop13, List.append_nil]
  have hmark : (text date time)[8]? = some 'T' := by
    rw [← List.head?_drop, hdrop8]
    rfl
  have hlength : (text date time).length = 15 := by
    simp only [text, List.length_append, List.length_cons, length_padded htwo hmonth,
      length_padded htwo hday, length_padded htwo hhour, length_padded htwo hminute,
      length_padded htwo hsecond, length_padded (by decide : 0 < 4) h.year]
  have htime := h.time
  rw [readIsoTime, hfield0, hfield4, hfield6, hfield9, hfield11, hfield13,
    if_pos ⟨hlength, hmark, h.valid, by omega, by omega, by omega⟩]
  have hsum : time / 3600 * 3600 + (time / 60 % 60 * 60 + time % 60) = time := by omega
  rw [Nat.add_assoc, Nat.add_assoc, hsum]

/-- The seconds since 1970 that a text denotes are those it was made of. -/
theorem readIsoTime_isoTime {secs : Nat} (h : secs < 2 ^ 32) :
    readIsoTime (isoTime secs) = some secs := by
  have hfirst : newYear 1969 = epochDay := by decide
  have hle : epochDay ≤ epochDay + secs / 86400 := Nat.le_add_right _ _
  have hdays : (ofJulianDay (epochDay + secs / 86400)).daysSince 1970 = secs / 86400 := by
    have hcount : (ofJulianDay (epochDay + secs / 86400)).daysSince 1970 + newYear 1969 =
        epochDay + secs / 86400 := daysSince_ofJulianDay (hfirst.trans_le hle)
    rw [hfirst] at hcount
    generalize epochDay = base at hcount ⊢
    omega
  have hfits : Fits (ofJulianDay (epochDay + secs / 86400)) (secs % 86400) := by
    refine ⟨ofJulianDay_valid (Nat.le_trans (by decide) hle), ?_, Nat.mod_lt _ (by decide)⟩
    have hyears := years_le 1970 (ofJulianDay (epochDay + secs / 86400))
    rw [hdays] at hyears
    omega
  have hread := readIsoTime_text hfits
  rw [hdays, Nat.div_add_mod'] at hread
  exact hread

theorem toUint32_lt (time : Int) : toUint32 time < 2 ^ 32 := by
  rw [toUint32]
  omega

section job
variable (answer : Trace (ContextCall Key) Error → ContextCall Key → Error)
  (auditLog : Trace (ContextCall Key) Error → QString × Error) (key : Key) (subkey : Subkey)

theorem addSubkey_run (s : Trace (ContextCall Key) Error) :
    (addSubkey answer auditLog key subkey s).2 =
      if subkey.keyGrips.length > 1 then s
      else
        let flag := ContextCall.setFlag "extended-edit".toList "1".toList
        let edit := ContextCall.edit key subkey.interactor
        s ++ [(flag, answer s flag), (edit, answer (s ++ [(flag, answer s flag)]) edit)] := by
  rw [addSubkey]
  split
  · rfl
  · exact List.append_assoc s _ _

/-- A subkey is only added together with an expiration that means the one that it has, as far as
it fits into 32 bits, or without any if it never expires; one with several keygrips is not. -/
theorem addSubkey_expires (s : Trace (ContextCall Key) Error) {k : Key} {err : Error}
    {interactor : GpgAddExistingSubkeyEditInteractor} (t : Trace (ContextCall Key) Error)
    (hrun : (addSubkey answer auditLog key subkey s).2 = s ++ t)
    (hmem : (.edit k interactor, err) ∈ t) :
    k = key ∧ subkey.keyGrips.length ≤ 1 ∧ interactor.keyGrip = subkey.keyGrip ∧
      (interactor.expiry = none ↔ subkey.neverExpires = true) ∧
      ∀ expiry, interactor.expiry = some expiry →
        ∃ secs : Nat, readIsoTime (Utf8.decode expiry) = some secs ∧
          (secs : Int) = subkey.expirationTime % 2 ^ 32 := by
  rw [addSubkey_run] at hrun
  split at hrun
  · rw [List.self_eq_append_right.mp hrun] at hmem
    exact absurd hmem List.not_mem_nil
  · next hgrips =>
    rw [← List.append_cancel_left hrun] at hmem
    have hedit : (ContextCall.edit k interactor) = .edit key subkey.interactor := by
      simp only [List.mem_cons, Prod.mk.injEq, reduceCtorEq, false_and, List.not_mem_nil, or_false,
        false_or] at hmem
      exact hmem.1
    obtain ⟨rfl, rfl⟩ := ContextCall.edit.inj hedit
    refine ⟨rfl, by omega, rfl, ?_, fun expiry hexpiry => ?_⟩
    · simp [Subkey.interactor]
    · simp only [Subkey.interactor] at hexpiry
      split at hexpiry
      · cases hexpiry
      · obtain rfl := Option.some.inj hexpiry
        refine ⟨toUint32 subkey.expirationTime, ?_, ?_⟩
        · rw [QString.toUtf8, Utf8.decode_encode]
          exact readIsoTime_isoTime (toUint32_lt _)
        · rw [toUint32]
          omega

end job

/-- A subkey that expires at the beginning of a March without a leap day in front of it. -/
def untilMarch2100 : Subkey := ⟨[[65]], [65], false, 4107542400⟩

theorem addSubkey_expires_2100 : ∃ secs : Nat,
    readIsoTime "21000301T000000".toList = some secs ∧ (secs : Int) = 4107542400 := by
  have hmem : (ContextCall.edit () untilMarch2100.interactor, Error.noError) ∈
      (addSubkey (fun _ _ => .noError) (fun _ => ([], .noError)) () untilMarch2100 []).2 :=
    List.mem_cons_of_mem _ (List.mem_singleton.mpr rfl)
  have hexpiry : untilMarch2100.interactor.expiry =
      some (QString.toUtf8 "21000301T000000".toList) := by decide
  obtain ⟨-, -, -, -, hread⟩ := addSubkey_expires _ _ () untilMarch2100 [] _
    (List.nil_append _).symm hmem
  obtain ⟨secs, hsecs, heq⟩ := hread _ hexpiry
  rw [QString.toUtf8, Utf8.decode_encode] at hsecs
  exact ⟨secs, hsecs, heq⟩

end QGpgME.AddExistingSubkeyJob
