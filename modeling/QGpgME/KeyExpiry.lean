import QGpgME.CallTrace
import QGpgME.GpgError
import QGpgME.QtString
import Mathlib.Order.Lattice

/-! The expiration date-times that QGpgMEQuickJob and QGpgMEChangeExpiryJob are given, and the
seconds from now that they make of them, where 0 means that the key never expires. -/
namespace QGpgME.KeyExpiry
open CallTrace
variable {Key Subkey Flags : Type}

/-- Milliseconds since the epoch, in the range of `qint64`. -/
structure MSecs where
  value : Int
  lower : -2 ^ 63 ≤ value
  upper : value < 2 ^ 63
deriving DecidableEq

/-- `none` is the date-time that is not valid. -/
abbrev QDateTime := Option MSecs

/-- `toMSecsSinceEpoch() / 1000` -/
def MSecs.secs (t : MSecs) : Int := t.value.tdiv 1000

/-- `currentSecsSinceEpoch()`, the full seconds of the clock -/
def MSecs.currentSecs (now : MSecs) : Int := now.value / 1000

/-- `now.secsTo(t)`, of the exact difference in milliseconds -/
def MSecs.secsTo (now t : MSecs) : Int := (t.value - now.value).tdiv 1000

inductive SetExpireFlags where
  | default | allSubkeys
deriving DecidableEq

inductive ContextCall (Key Subkey Flags : Type) where
  | createKey (uid algo : QByteArray) (expires : UInt64) (flags : Flags)
  | createSubkey (key : Key) (algo : QByteArray) (expires : UInt64) (flags : Flags)
  | setExpire (key : Key) (expires : UInt64) (subkeys : List Subkey) (flags : SetExpireFlags)
deriving DecidableEq

def ContextCall.expires : ContextCall Key Subkey Flags → UInt64
  | createKey _ _ e _ => e
  | createSubkey _ _ e _ => e
  | setExpire _ e _ _ => e

/-- The error, the audit log and its error. -/
abbrev Result := Error × QString × Error

/-- `ChangeExpiryJob::Options` -/
structure Options where
  updatePrimaryKey : Bool
  updateAllSubkeys : Bool
deriving DecidableEq

section workers
variable (answer : Trace (ContextCall Key Subkey Flags) Error →
  ContextCall Key Subkey Flags → Error)

namespace QGpgMEQuickJob

/-- The conversion that both workers make, to an `unsigned long` of 64 bits. -/
def expiration (expires : QDateTime) (now : MSecs) : UInt64 :=
  match expires with
  | some t => UInt64.ofInt (t.secs - now.currentSecs)
  | none => 0

def createWorker (now : MSecs) (uid : QString) (algo : QByteArray) (expires : QDateTime)
    (flags : Flags) : Calls (ContextCall Key Subkey Flags) Error Result := do
  let error ← call answer (.createKey uid.toUtf8 algo (expiration expires now) flags)
  pure (error, [], .noError)

def addSubkeyWorker (now : MSecs) (key : Key) (algo : QByteArray) (expires : QDateTime)
    (flags : Flags) : Calls (ContextCall Key Subkey Flags) Error Result := do
  let error ← call answer (.createSubkey key algo (expiration expires now) flags)
  pure (error, [], .noError)

end QGpgMEQuickJob

namespace QGpgMEChangeExpiryJob

def expiration (expiry : QDateTime) (now : MSecs) : UInt64 :=
  match expiry with
  | some t => UInt64.ofInt (max (now.secsTo t) 1)
  | none => 0

/-- The second step, for the subkeys. -/
def changeSubkeys (key : Key) (expires : UInt64) (subkeys : List Subkey) (options : Options) :
    Calls (ContextCall Key Subkey Flags) Error Error :=
  if !subkeys.isEmpty then call answer (.setExpire key expires subkeys .default)
  else if options.updateAllSubkeys then call answer (.setExpire key expires [] .allSubkeys)
  else pure .noError

def changeExpiry (now : MSecs) (key : Key) (expiry : QDateTime) (subkeys : List Subkey)
    (options : Options) : Calls (ContextCall Key Subkey Flags) Error Result := do
  let expires := expiration expiry now
  let mut err := Error.noError
  if subkeys.isEmpty || options.updatePrimaryKey then
    err ← call answer (.setExpire key expires [] .default)
    if err.asBool || err.isCanceled then
      return (err, [], .noError)
  err ← changeSubkeys answer key expires subkeys options
  return (err, [], .noError)

end QGpgMEChangeExpiryJob
end workers

/-- What the seconds passed on have to be: 0 only where there is no expiration, else at
least 1, and if more than that, no longer than there is left until the expiration. -/
def Meets (expires : QDateTime) (now : MSecs) (passed : UInt64) : Prop :=
  (passed = 0 ↔ expires = none) ∧
    ∀ t ∈ expires, 1 ≤ passed.toNat ∧ 1000 * (passed.toNat : Int) ≤ max 1000 (t.value - now.value)

/-- A valid date-time lies in the second behind the current one, or in a later one and there as
far into the second as the current time or further. -/
def Later (expires : QDateTime) (now : MSecs) : Prop :=
  ∀ t ∈ expires, t.secs = now.currentSecs + 1 ∨ now.currentSecs + 1 < t.secs ∧
    now.value - 1000 * now.currentSecs ≤ t.value - 1000 * t.secs

theorem toNat_ofInt (x : Int) : ((UInt64.ofInt x).toNat : Int) = x % 2 ^ 64 := by
  have h : (x % 2 ^ 64).toNat < 2 ^ 64 := by omega
  change (((BitVec.ofNat 64 (x % 2 ^ 64).toNat).toNat : Nat) : Int) = _
  rw [BitVec.toNat_ofNat, Nat.mod_eq_of_lt h]
  omega

/-- Where there is no expiration, the 0 passed on is the right one. -/
theorem meets_none (now : MSecs) : Meets none now 0 := by
  constructor
  · simp
  · intro t ht
    cases ht

theorem meets_some {t now : MSecs} {v : UInt64} : Meets (some t) now v ↔
    1 ≤ v.toNat ∧ 1000 * (v.toNat : Int) ≤ max 1000 (t.value - now.value) := by
  constructor
  · intro h
    exact h.2 t rfl
  · intro h
    constructor
    · have hv : v ≠ 0 := by
        intro h0
        rw [h0] at h
        exact absurd h.1 (by decide)
      simpa using hv
    · intro s hs
      obtain rfl := Option.some.inj hs
      exact h

/-- A division that rounds toward zero, by means of the one that rounds down. -/
theorem tdiv_thousand (x : Int) :
    x.tdiv 1000 = if 0 ≤ x then x / 1000 else -(-x / 1000) := by
  by_cases h : 0 ≤ x
  · rw [if_pos h]
    exact Int.tdiv_eq_ediv_of_nonneg h
  · have hx : 0 ≤ -x := by omega
    rw [if_neg h, ← Int.tdiv_eq_ediv_of_nonneg hx, Int.neg_tdiv, neg_neg]

theorem secs_bounds (t : MSecs) : -2 ^ 60 < t.secs ∧ t.secs < 2 ^ 60 ∧
    -1000 < t.value - 1000 * t.secs ∧ t.value - 1000 * t.secs < 1000 := by
  have hl := t.lower
  have hu := t.upper
  rw [MSecs.secs, tdiv_thousand]
  omega

theorem currentSecs_bounds (now : MSecs) : -2 ^ 60 < now.currentSecs ∧ now.currentSecs < 2 ^ 60 ∧
    0 ≤ now.value - 1000 * now.currentSecs ∧ now.value - 1000 * now.currentSecs < 1000 := by
  have hl := now.lower
  have hu := now.upper
  unfold MSecs.currentSecs
  omega

/-- The difference of two times converted to `unsigned long` is the difference only where it
is not negative; and what is cut off both times may make it too long by a second. -/
theorem meets_ofInt_iff (t now : MSecs) :
    Meets (some t) now (UInt64.ofInt (t.secs - now.currentSecs)) ↔ Later (some t) now := by
  have hlater : Later (some t) now ↔ t.secs = now.currentSecs + 1 ∨
      now.currentSecs + 1 < t.secs ∧
        now.value - 1000 * now.currentSecs ≤ t.value - 1000 * t.secs := by
    simp [Later]
  have ht := secs_bounds t
  have hn := currentSecs_bounds now
  have hv := toNat_ofInt (t.secs - now.currentSecs)
  rw [meets_some, hlater]
  omega

theorem quickJob_meets_iff (expires : QDateTime) (now : MSecs) :
    Meets expires now (QGpgMEQuickJob.expiration expires now) ↔ Later expires now := by
  cases expires with
  | none => simpa [QGpgMEQuickJob.expiration, Later] using meets_none now
  | some t => exact meets_ofInt_iff t now

/-- The full seconds between two times are no longer than the time between them, unless it has
passed. -/
theorem secsTo_le (now t : MSecs) :
    1000 * max (now.secsTo t) 1 ≤ max 1000 (t.value - now.value) := by
  rw [MSecs.secsTo, tdiv_thousand]
  omega

theorem secsTo_lt (now t : MSecs) : now.secsTo t < 2 ^ 62 := by
  have hl := now.lower
  have hu := t.upper
  rw [MSecs.secsTo, tdiv_thousand]
  omega

/-- The conversion with the clamp is right for all pairs of times. -/
theorem changeExpiry_meets (expiry : QDateTime) (now : MSecs) :
    Meets expiry now (QGpgMEChangeExpiryJob.expiration expiry now) := by
  cases expiry with
  | none => exact meets_none now
  | some t =>
    have hle := secsTo_le now t
    have hlt := secsTo_lt now t
    have hv := toNat_ofInt (max (now.secsTo t) 1)
    have hmod : max (now.secsTo t) 1 % 2 ^ 64 = max (now.secsTo t) 1 := by omega
    rw [hmod] at hv
    change Meets (some t) now (UInt64.ofInt (max (now.secsTo t) 1))
    rw [meets_some]
    omega

section calls
variable (answer : Trace (ContextCall Key Subkey Flags) Error →
    ContextCall Key Subkey Flags → Error)
  (t : Trace (ContextCall Key Subkey Flags) Error) (now : MSecs)

/-- The calls made since the trace `t` all pass on the same seconds. -/
def PassesOn (passed : UInt64) (t' : Trace (ContextCall Key Subkey Flags) Error) : Prop :=
  ∃ u, t' = t ++ u ∧ ∀ c ∈ u, c.1.expires = passed

theorem passesOn_iff {passed : UInt64} {t' : Trace (ContextCall Key Subkey Flags) Error} :
    PassesOn t passed t' ↔ Makes (fun c => c.expires = passed) t t' := Iff.rfl

theorem passesOn_refl (passed : UInt64) : PassesOn t passed t :=
  (passesOn_iff t).mpr (makes_refl _ t)

theorem passesOn_call (c : ContextCall Key Subkey Flags) :
    PassesOn t c.expires (call answer c t).2 := by
  rw [passesOn_iff]
  apply makes_call
  rfl

theorem PassesOn.trans {t t' t'' : Trace (ContextCall Key Subkey Flags) Error} {passed : UInt64}
    (h : PassesOn t passed t') (h' : PassesOn t' passed t'') : PassesOn t passed t'' :=
  (passesOn_iff t).mpr (((passesOn_iff t).mp h).trans ((passesOn_iff t').mp h'))

namespace QGpgMEChangeExpiryJob

theorem changeSubkeys_passesOn (key : Key) (expires : UInt64) (subkeys : List Subkey)
    (options : Options) :
    PassesOn t expires (changeSubkeys answer key expires subkeys options t).2 := by
  unfold changeSubkeys
  split
  · exact passesOn_call answer t (.setExpire key expires subkeys .default)
  · split
    · exact passesOn_call answer t (.setExpire key expires [] .allSubkeys)
    · exact passesOn_refl t expires

/-- The two steps of `changeExpiry`; an error or a cancellation leaves the second one out. -/
theorem changeExpiry_run (key : Key) (expiry : QDateTime) (subkeys : List Subkey)
    (options : Options) {first : Error × Trace (ContextCall Key Subkey Flags) Error}
    (hfirst : call answer (.setExpire key (expiration expiry now) [] .default) t = first) :
    (changeExpiry answer now key expiry subkeys options t).2 =
      if subkeys.isEmpty || options.updatePrimaryKey then
        if first.1.asBool || first.1.isCanceled then first.2
        else (changeSubkeys answer key (expiration expiry now) subkeys options first.2).2
      else (changeSubkeys answer key (expiration expiry now) subkeys options t).2 := by
  unfold changeExpiry
  by_cases hp : (subkeys.isEmpty || options.updatePrimaryKey) = true
  · rw [if_pos hp, if_pos hp]
    by_cases he : (first.1.asBool || first.1.isCanceled) = true
    · simp only [bind, StateT.bind, hfirst, if_pos he]
      rfl
    · simp only [bind, StateT.bind, hfirst, if_neg he]
      rfl
  · rw [if_neg hp, if_neg hp]
    rfl

theorem changeExpiry_passesOn (key : Key) (expiry : QDateTime) (subkeys : List Subkey)
    (options : Options) : PassesOn t (expiration expiry now)
      (changeExpiry answer now key expiry subkeys options t).2 := by
  have hfirst := passesOn_call answer t (.setExpire key (expiration expiry now) [] .default)
  rw [changeExpiry_run answer t now key expiry subkeys options rfl]
  by_cases hp : (subkeys.isEmpty || options.updatePrimaryKey) = true
  · rw [if_pos hp]
    split
    · exact hfirst
    · exact hfirst.trans (changeSubkeys_passesOn answer _ key _ subkeys options)
  · rw [if_neg hp]
    exact changeSubkeys_passesOn answer t key _ subkeys options

end QGpgMEChangeExpiryJob

namespace QGpgMEQuickJob

/-- Of a single call with seconds in it, the seconds can be read off. -/
theorem single_meets_iff (mk : UInt64 → ContextCall Key Subkey Flags)
    (hmk : ∀ v, (mk v).expires = v) (expires : QDateTime) (passed : UInt64) (error : Error) :
    (∃ v e, t ++ [(mk passed, error)] = t ++ [(mk v, e)] ∧ Meets expires now v) ↔
      Meets expires now passed := by
  constructor
  · intro h
    obtain ⟨v, e, hcalls, hv⟩ := h
    have hlast : (mk passed, error) = (mk v, e) := by simpa using hcalls
    have hpassed : passed = v := by
      rw [← hmk passed, ← hmk v]
      exact congrArg ContextCall.expires (Prod.ext_iff.mp hlast).1
    rw [hpassed]
    exact hv
  · intro h
    exact ⟨passed, error, rfl, h⟩

theorem createWorker_meets_iff (uid : QString) (algo : QByteArray) (expires : QDateTime)
    (flags : Flags) :
    (∃ v e, (createWorker answer now uid algo expires flags t).2 =
        t ++ [(.createKey uid.toUtf8 algo v flags, e)] ∧ Meets expires now v) ↔
      Later expires now := by
  rw [← quickJob_meets_iff]
  exact single_meets_iff t now (.createKey uid.toUtf8 algo · flags) (fun _ => rfl) expires _ _

theorem addSubkeyWorker_meets_iff (key : Key) (algo : QByteArray) (expires : QDateTime)
    (flags : Flags) :
    (∃ v e, (addSubkeyWorker answer now key algo expires flags t).2 =
        t ++ [(.createSubkey key algo v flags, e)] ∧ Meets expires now v) ↔
      Later expires now := by
  rw [← quickJob_meets_iff]
  exact single_meets_iff t now (.createSubkey key algo · flags) (fun _ => rfl) expires _ _

/-- For a date-time in the current second or before it neither worker passes on what it has to, and
for a later one only if the seconds cut off do not add up to one too many; the job that changes an
expiration always does. -/
theorem workers_meet_iff (uid : QString) (key : Key) (algo : QByteArray) (expires : QDateTime)
    (flags : Flags) (subkeys : List Subkey) (options : Options) :
    ((∃ v e, (createWorker answer now uid algo expires flags t).2 =
        t ++ [(.createKey uid.toUtf8 algo v flags, e)] ∧ Meets expires now v) ↔
      Later expires now) ∧
    ((∃ v e, (addSubkeyWorker answer now key algo expires flags t).2 =
        t ++ [(.createSubkey key algo v flags, e)] ∧ Meets expires now v) ↔
      Later expires now) ∧
    ∃ v, PassesOn t v
        (QGpgMEChangeExpiryJob.changeExpiry answer now key expires subkeys options t).2 ∧
      Meets expires now v := by
  constructor
  · exact createWorker_meets_iff answer t now uid algo expires flags
  · constructor
    · exact addSubkeyWorker_meets_iff answer t now key algo expires flags
    · have hcalls := QGpgMEChangeExpiryJob.changeExpiry_passesOn answer t now key expires
        subkeys options
      exact ⟨_, hcalls, changeExpiry_meets expires now⟩

/-- In the second of the current time the key never expires, one second earlier it lives for more
than 500 billion years, and a second that has nearly passed is counted in full. -/
theorem workers_now_and_before :
    let now : MSecs := ⟨1700000000000, by decide, by decide⟩
    let before : MSecs := ⟨1699999999000, by decide, by decide⟩
    let late : MSecs := ⟨999, by decide, by decide⟩
    let tenth : MSecs := ⟨10000, by decide, by decide⟩
    let answer : Trace (ContextCall Unit Unit Unit) Error → ContextCall Unit Unit Unit → Error :=
      fun _ _ => .noError
    (createWorker answer now ['a'] [] (some now) () []).2 =
        [(.createKey [97] [] 0 (), .noError)] ∧
      (addSubkeyWorker answer now () [] (some before) () []).2 =
        [(.createSubkey () [] 18446744073709551615 (), .noError)] ∧
      (createWorker answer late ['a'] [] (some tenth) () []).2 =
        [(.createKey [97] [] 10 (), .noError)] ∧
      ¬Meets (some now) now 0 ∧ ¬Meets (some before) now 18446744073709551615 ∧
      ¬Meets (some tenth) late 10 := by
  refine ⟨by decide, by decide, by decide, ?_, ?_, ?_⟩ <;> (rw [meets_some]; decide)

end QGpgMEQuickJob
end calls

end QGpgME.KeyExpiry
