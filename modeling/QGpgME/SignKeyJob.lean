import QGpgME.CallTrace
import QGpgME.GpgError
import QGpgME.QtString
import Mathlib.Order.Lattice

/-! The certification of keys, with the flag that sets the expiration of a certification. -/
namespace QGpgME.SignKeyJob
open CallTrace
variable {Key : Type}

/-- A date by its Julian day; `none` is the date that is not valid. -/
abbrev QDate := Option Int

/-- The Julian day of a date in the Gregorian calendar, which has no year 0. -/
def julianDay (year month day : Int) : Int :=
  let year := if year < 0 then year + 1 else year
  let a := (14 - month) / 12
  let y := year + 4800 - a
  let m := month + 12 * a - 3
  day + (153 * m + 2) / 5 + 365 * y + y / 4 - y / 100 + y / 400 - 32045

def maxAllowedDate : Int := julianDay 2106 2 5

-- the end of the next day is still a number of seconds of 32 bits
example : (maxAllowedDate + 2 - julianDay 1970 1 1) * 86400 < 2 ^ 32 := by decide

inductive TrustSignatureTrust where
  | noTrust | partialTrust | completeTrust
deriving DecidableEq

structure TrustSignatureProperties where
  trust : TrustSignatureTrust
  depth : Nat
  scope : QString

/-- The bits of the signing options. -/
structure SigningOptions where
  exportable : Bool
  nonRevocable : Bool
  trust : Bool

/-- What an edit interactor for the signing is told. -/
structure GpgSignKeyEditInteractor (Key : Type) where
  userIDsToSign : List Nat
  checkLevel : Nat
  signingOptions : SigningOptions
  key : Key
  dupeOk : Bool
  trustSignatureTrust : TrustSignatureTrust
  trustSignatureDepth : Nat
  trustSignatureScope : QByteArray

inductive ContextCall (Key : Type) where
  | setFlag (name value : QString)
  | addSignatureNotation (name : QString) (value : QByteArray)
  | addSigningKey (signer : Key)
  | edit (key : Key) (interactor : GpgSignKeyEditInteractor Key)

/-- The error, the audit log and its error. -/
abbrev Result := Error × QString × Error

/-- The arguments of `sign_key`. A signer that is none is the null key. -/
structure Request (Key : Type) where
  key : Key
  uids : List Nat
  checkLevel : Nat
  signer : Option Key
  opts : SigningOptions
  dupeOk : Bool
  remark : QString
  trustSignature : TrustSignatureProperties
  expirationDate : QDate

/-- `QGpgMESignKeyJob::Private`, without the mark that the job has been started. -/
structure Private (Key : Type) where
  userIDsToSign : List Nat
  signingKey : Option Key
  checkLevel : Nat
  exportable : Bool
  nonRevocable : Bool
  dupeOk : Bool
  remark : QString
  trustSignature : TrustSignatureProperties
  expiration : QDate

/-- What `start` binds to `sign_key`. -/
def Private.start (d : Private Key) (key : Key) : Request Key where
  key := key
  uids := d.userIDsToSign
  checkLevel := d.checkLevel
  signer := d.signingKey
  opts := ⟨d.exportable, d.nonRevocable, d.trustSignature.trust ≠ .noTrust⟩
  dupeOk := d.dupeOk
  remark := d.remark
  trustSignature := d.trustSignature
  expirationDate := d.expiration

/-- Without the option the trust signature stays at its defaults. -/
def Request.interactor (r : Request Key) : GpgSignKeyEditInteractor Key where
  userIDsToSign := r.uids
  checkLevel := r.checkLevel
  signingOptions := r.opts
  key := r.key
  dupeOk := r.dupeOk
  trustSignatureTrust := if r.opts.trust then r.trustSignature.trust else .noTrust
  trustSignatureDepth := if r.opts.trust then r.trustSignature.depth else 0
  trustSignatureScope := if r.opts.trust then r.trustSignature.scope.toUtf8 else []

/-- The job asks for a trust signature just where there is one to ask for. -/
theorem interactor_start (d : Private Key) (key : Key) :
    (d.start key).interactor.trustSignatureTrust = d.trustSignature.trust := by
  by_cases h : d.trustSignature.trust = .noTrust
  · simp [Request.interactor, Private.start, h]
  · simp [Request.interactor, Private.start, h]

section program
variable (answer : Trace (ContextCall Key) Error → ContextCall Key → Error)

/-- What is told to the context before the signer is. The remark is passed on as a C string. -/
def prepare (r : Request Key) : Calls (ContextCall Key) Error Unit := do
  performIf answer r.dupeOk (.setFlag "extended-edit".toList "1".toList)
  performIf answer (!r.remark.isEmpty)
    (.addSignatureNotation "rem@gnupg.org".toList (r.remark.toUtf8.takeWhile (· ≠ 0)))

def addSigner (signer : Option Key) : Calls (ContextCall Key) Error Error :=
  match signer with
  | some signer => call answer (.addSigningKey signer)
  | none => pure .noError

def setCertExpire (expirationDate : QDate) (today : Int) : Calls (ContextCall Key) Error Unit :=
  match expirationDate with
  | some date =>
    let clippedExpirationDate := if date ≤ maxAllowedDate then date else maxAllowedDate
    let daysFromNow := clippedExpirationDate - today
    if daysFromNow > 0 then
      perform answer (.setFlag "cert-expire".toList (QString.number daysFromNow ++ ['d']))
    else pure ()
  | none => perform answer (.setFlag "cert-expire".toList "0".toList)

/-- `today` is the current date, `auditLog` what the context logs. -/
def signKey (auditLog : Trace (ContextCall Key) Error → QString × Error) (today : Int)
    (r : Request Key) : Calls (ContextCall Key) Error Result := do
  prepare answer r
  let err ← addSigner answer r.signer
  if err.asBool then
    return (err, [], .noError)
  setCertExpire answer r.expirationDate today
  let err ← call answer (.edit r.key r.interactor)
  return (err, auditLog (← get))

end program

/-- The value that a call gives to the flag for the expiration. -/
def ContextCall.certExpire : ContextCall Key → Option QString
  | setFlag name value => if name = "cert-expire".toList then some value else none
  | _ => none

def ContextCall.IsEdit : ContextCall Key → Prop
  | edit _ _ => True
  | _ => False

/-- The value that some calls leave in the flag. -/
def certExpire (calls : Trace (ContextCall Key) Error) : Option QString :=
  (calls.filterMap fun c => c.1.certExpire).getLast?

/-- What the flag has to be: 0 just where no date is given, else a number of days, which does not
lead beyond the date, as far as it is allowed, where that lies in the future. -/
def FlagMeets (expirationDate : QDate) (today : Int) (flag : Option QString) : Prop :=
  ∃ value, flag = some value ∧ (value = "0".toList ↔ expirationDate = none) ∧
    ∀ date ∈ expirationDate, ∃ n : Int, 0 < n ∧ value = QString.number n ++ ['d'] ∧
      (today < min date maxAllowedDate → today + n ≤ min date maxAllowedDate)

/-- The calls made since the trace `t` set the flag as they have to before they edit a key. -/
def Meets (r : Request Key) (today : Int) (t t' : Trace (ContextCall Key) Error) : Prop :=
  ∀ before c e after, c.IsEdit → t' = t ++ (before ++ (c, e) :: after) →
    FlagMeets r.expirationDate today (certExpire before)

/-- The value that the job gives to the flag. -/
def expireFlag (expirationDate : QDate) (today : Int) : Option QString :=
  match expirationDate with
  | some date =>
    if today < min date maxAllowedDate then
      some (QString.number (min date maxAllowedDate - today) ++ ['d'])
    else none
  | none => some "0".toList

theorem days_ne_zero (n : Int) : QString.number n ++ ['d'] ≠ "0".toList := by
  intro h
  have hlast := congrArg List.getLast? h
  rw [List.getLast?_concat] at hlast
  exact absurd hlast (by decide)

/-- Only a date that is not in the future gets no flag, or a wrong one. -/
theorem flagMeets_iff (expirationDate : QDate) (today : Int) :
    FlagMeets expirationDate today (expireFlag expirationDate today) ↔
      ∀ date ∈ expirationDate, today < min date maxAllowedDate := by
  cases expirationDate with
  | none =>
    refine iff_of_true ⟨"0".toList, rfl, iff_of_true rfl rfl, ?_⟩ ?_
    · intro date hdate
      cases hdate
    · intro date hdate
      cases hdate
  | some date =>
    rw [expireFlag]
    by_cases hfuture : today < min date maxAllowedDate
    · rw [if_pos hfuture]
      refine iff_of_true ⟨_, rfl, iff_of_false (days_ne_zero _) (by simp), ?_⟩ ?_
      · intro d hd
        obtain rfl := Option.some.inj hd
        exact ⟨min date maxAllowedDate - today, by omega, rfl, fun _ => by omega⟩
      · intro d hd
        obtain rfl := Option.some.inj hd
        exact hfuture
    · rw [if_neg hfuture]
      refine iff_of_false (fun hmeets => ?_) fun hall => hfuture (hall date rfl)
      obtain ⟨value, hvalue, -⟩ := hmeets
      cases hvalue

section calls
variable (answer : Trace (ContextCall Key) Error → ContextCall Key → Error)
  (t : Trace (ContextCall Key) Error)

/-- The calls that neither edit a key nor set the flag. -/
def ContextCall.Prepares (c : ContextCall Key) : Prop := ¬c.IsEdit ∧ c.certExpire = none

theorem prepares_setFlag {name : QString} (h : name ≠ "cert-expire".toList) (value : QString) :
    (ContextCall.setFlag name value : ContextCall Key).Prepares := ⟨id, if_neg h⟩

theorem prepare_makes (r : Request Key) :
    Makes ContextCall.Prepares t (prepare answer r t).2 := by
  have hflag : (ContextCall.setFlag "extended-edit".toList "1".toList : ContextCall Key).Prepares :=
    prepares_setFlag (by decide) _
  have hremark : (ContextCall.addSignatureNotation "rem@gnupg.org".toList
      (r.remark.toUtf8.takeWhile (· ≠ 0)) : ContextCall Key).Prepares := ⟨id, rfl⟩
  exact (makes_performIf hflag answer _ t).trans (makes_performIf hremark answer _ _)

theorem addSigner_makes (signer : Option Key) :
    Makes ContextCall.Prepares t (addSigner answer signer t).2 := by
  cases signer with
  | none => exact makes_refl _ t
  | some signer => exact makes_call ⟨id, rfl⟩ answer t

/-- The flag is set once, or not at all. -/
theorem setCertExpire_makes (expirationDate : QDate) (today : Int) :
    ∃ v, (setCertExpire answer expirationDate today t).2 = t ++ v ∧ (∀ c ∈ v, ¬c.1.IsEdit) ∧
      (v.filterMap fun c => c.1.certExpire) = (expireFlag expirationDate today).toList := by
  have hset : ∀ value, ∃ v, (perform answer (.setFlag "cert-expire".toList value) t).2 = t ++ v ∧
      (∀ c ∈ v, ¬c.1.IsEdit) ∧ (v.filterMap fun c => c.1.certExpire) = [value] := by
    intro value
    refine ⟨[(.setFlag "cert-expire".toList value, answer t _)], rfl, ?_, rfl⟩
    intro c hc
    rw [List.mem_singleton.mp hc]
    exact id
  cases expirationDate with
  | none => exact hset _
  | some date =>
    have hclip : (if date ≤ maxAllowedDate then date else maxAllowedDate) =
        min date maxAllowedDate := (Int.min_def _ _).symm
    have hdays : min date maxAllowedDate - today > 0 ↔ today < min date maxAllowedDate := by
      omega
    simp only [setCertExpire, expireFlag, hclip, hdays]
    by_cases hfuture : today < min date maxAllowedDate
    · rw [if_pos hfuture, if_pos hfuture]
      exact hset _
    · rw [if_neg hfuture, if_neg hfuture]
      exact ⟨[], (List.append_nil t).symm, by simp, rfl⟩

/-- The program up to its edit. -/
theorem signKey_run (auditLog : Trace (ContextCall Key) Error → QString × Error) (today : Int)
    (r : Request Key) {signed : Error × Trace (ContextCall Key) Error}
    (hsigned : addSigner answer r.signer (prepare answer r t).2 = signed) :
    (signKey answer auditLog today r t).2 =
      if signed.1.asBool then signed.2
      else (call answer (.edit r.key r.interactor)
        (setCertExpire answer r.expirationDate today signed.2).2).2 := by
  subst hsigned
  change ((if (addSigner answer r.signer (prepare answer r t).2).1.asBool then
      pure ((addSigner answer r.signer (prepare answer r t).2).1, [], .noError)
    else do
      setCertExpire answer r.expirationDate today
      let err ← call answer (.edit r.key r.interactor)
      return (err, auditLog (← get)) : Calls (ContextCall Key) Error Result)
      (addSigner answer r.signer (prepare answer r t).2).2).2 = _
  split
  · rfl
  · rfl

/-- The engine does not accept the signer. -/
def SignerRefused (r : Request Key) : Prop :=
  ∃ signer, r.signer = some signer ∧
    (answer (prepare answer r t).2 (.addSigningKey signer)).asBool = true

theorem signerRefused_iff (r : Request Key) : SignerRefused answer t r ↔
    (addSigner answer r.signer (prepare answer r t).2).1.asBool = true := by
  rw [SignerRefused]
  cases r.signer with
  | none =>
    have hnone : (addSigner answer none (prepare answer r t).2).1 = Error.noError := rfl
    simp [hnone, Error.asBool_noError]
  | some signer => simp [addSigner, call]

/-- A certification is made without the flag, or with a wrong one, exactly if the signer is
accepted and the date, as far as it is allowed, does not lie in the future. -/
theorem signKey_meets_iff (auditLog : Trace (ContextCall Key) Error → QString × Error)
    (today : Int) (r : Request Key) :
    Meets r today t (signKey answer auditLog today r t).2 ↔
      SignerRefused answer t r ∨ ∀ date ∈ r.expirationDate, today < min date maxAllowedDate := by
  have hprepared := (prepare_makes answer t r).trans (addSigner_makes answer _ r.signer)
  obtain ⟨u, hu, hsort⟩ := hprepared
  rw [signerRefused_iff, signKey_run answer t auditLog today r rfl]
  simp only [hu]
  by_cases herr : (addSigner answer r.signer (prepare answer r t).2).1.asBool = true
  · rw [if_pos herr]
    refine iff_of_true (fun before c e after hc hsplit => ?_) (Or.inl herr)
    have hcalls := List.append_cancel_left hsplit
    exact absurd hc (hsort (c, e) (by simp [hcalls])).1
  · rw [if_neg herr, or_iff_right herr, ← flagMeets_iff]
    obtain ⟨v, hv, hnoEdit, hflag⟩ := setCertExpire_makes answer (t ++ u) r.expirationDate today
    have hlast : (call answer (.edit r.key r.interactor)
        (setCertExpire answer r.expirationDate today (t ++ u)).2).2 =
        t ++ (u ++ v ++ [(.edit r.key r.interactor, answer (t ++ u ++ v)
          (.edit r.key r.interactor))]) := by
      rw [hv, call, List.append_assoc, List.append_assoc, List.append_assoc]
    have hedit : ∀ c ∈ u ++ v, ¬c.1.IsEdit :=
      List.forall_mem_append.mpr ⟨fun c hc => (hsort c hc).1, hnoEdit⟩
    have hcertExpire : certExpire (u ++ v) = expireFlag r.expirationDate today := by
      have hnone : u.filterMap (fun c => c.1.certExpire) = [] :=
        List.filterMap_eq_nil_iff.mpr fun c hc => (hsort c hc).2
      rw [certExpire, List.filterMap_append, hnone, hflag, List.nil_append]
      cases expireFlag r.expirationDate today with
      | none => rfl
      | some value => rfl
    rw [hlast]
    constructor
    · intro hmeets
      rw [← hcertExpire]
      exact hmeets (u ++ v) (.edit r.key r.interactor) _ [] trivial rfl
    · intro hflagMeets before c e after hc hsplit
      have hbefore := before_last hedit hc (List.append_cancel_left hsplit)
      rw [hbefore, hcertExpire]
      exact hflagMeets

end calls

/-- A job with the default settings but for the expiration. -/
def certification (expiration : QDate) : Request Unit :=
  Private.start ⟨[], none, 0, false, false, false, [], ⟨.noTrust, 0, []⟩, expiration⟩ ()

/-- On the day on which it is to expire, a certification is made without any expiration set. -/
theorem expiration_today_ignored :
    let today := julianDay 2026 1 1
    let calls := (signKey (fun _ _ => Error.noError) (fun _ => ([], .noError)) today
      (certification (some today)) []).2
    calls.map Prod.fst = [.edit () (certification (some today)).interactor] ∧
      ¬Meets (certification (some today)) today [] calls := by
  intro today calls
  have hcalls : calls = [(.edit () (certification (some today)).interactor, Error.noError)] := rfl
  rw [hcalls]
  refine ⟨rfl, fun hmeets => ?_⟩
  obtain ⟨value, hvalue, -⟩ := hmeets [] (.edit () (certification (some today)).interactor) _ []
    trivial rfl
  cases hvalue

end QGpgME.SignKeyJob
