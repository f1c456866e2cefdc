import QGpgME.GpgError
import QGpgME.QtString

/-! QGpgMEKeyForMailboxJob: of the user IDs with a given mailbox, the one to use, found by a
loop that keeps the best one so far. -/
namespace QGpgME.KeyForMailbox

/-- `GpgME::UserID::Validity`, in ascending order. -/
inductive Validity where
  | unknown | undefined | never | marginal | full | ultimate
deriving DecidableEq

namespace Validity

def rank : Validity → Nat
  | unknown => 0
  | undefined => 1
  | never => 2
  | marginal => 3
  | full => 4
  | ultimate => 5

theorem rank_injective {v w : Validity} (h : v.rank = w.rank) : v = w := by
  cases v <;> cases w <;> first | rfl | exact absurd h (by decide)

end Validity

structure UserID where
  email : QByteArray
  validity : Validity
  isRevoked : Bool
  isInvalid : Bool
deriving DecidableEq

structure Subkey where
  canEncrypt : Bool
  isRevoked : Bool
  isInvalid : Bool
  isDisabled : Bool
  creationTime : Int
deriving DecidableEq

structure Key where
  canEncrypt : Bool
  isExpired : Bool
  isRevoked : Bool
  isInvalid : Bool
  isDisabled : Bool
  userIDs : List UserID
  subkeys : List Subkey
deriving DecidableEq

/-- A user ID with the key that it belongs to. -/
structure Candidate where
  key : Key
  uid : UserID
deriving DecidableEq

def keyIsOk (k : Key) : Bool := !k.isExpired && !k.isRevoked && !k.isInvalid && !k.isDisabled

def uidIsOk (c : Candidate) : Bool := keyIsOk c.key && !c.uid.isRevoked && !c.uid.isInvalid

def subkeyIsOk (s : Subkey) : Bool := !s.isRevoked && !s.isInvalid && !s.isDisabled

/-- The creation time of the last encryption subkey that is not bad. -/
def encryptionTime (canEncrypt : Bool) (k : Key) : Int :=
  k.subkeys.foldl (fun time s =>
    if (canEncrypt && s.canEncrypt) && subkeyIsOk s then s.creationTime else time) 0

/-- One round of the inner loop, with a user ID that has the mailbox. -/
def consider (canEncrypt : Bool) (chosen : Option Candidate) (u : Candidate) : Option Candidate :=
  match chosen with
  | none => some u
  | some c =>
    if (!uidIsOk c && uidIsOk u) || c.uid.validity.rank < u.uid.validity.rank then some u
    else if c.uid.validity = u.uid.validity && uidIsOk u then
      if encryptionTime canEncrypt c.key < encryptionTime canEncrypt u.key then some u else some c
    else some c

structure KeyListResult where
  error : Error
deriving DecidableEq

/-- The tuple returned, where none stands for the null key and the null user ID. -/
structure ResultType where
  result : KeyListResult
  chosen : Option Candidate
  auditLog : QString
  auditLogError : Error
deriving DecidableEq

/-- The key is passed over by the loop. -/
def skipped (canEncrypt : Bool) (k : Key) : Bool := canEncrypt && !k.canEncrypt

section job
variable (toLower : QString → QString)

def hasMailbox (mailbox : QString) (u : UserID) : Bool :=
  toLower (QString.fromUtf8 u.email) = toLower mailbox

/-- The listing of the mailbox is given with its result and its keys. -/
def doWork (listing : KeyListResult × List Key) (mailbox : QString) (canEncrypt : Bool) :
    ResultType :=
  let (result, keys) := listing
  if result.error.asBool then ⟨result, none, [], Error.noError⟩
  else
    let chosen := keys.foldl (fun chosen k =>
      if skipped canEncrypt k then chosen
      else k.userIDs.foldl (fun chosen u =>
        if hasMailbox toLower mailbox u then consider canEncrypt chosen ⟨k, u⟩ else chosen)
          chosen) none
    ⟨result, chosen, [], Error.noError⟩

/-- The user IDs with the mailbox, of the keys that are asked for. -/
def candidates (keys : List Key) (mailbox : QString) (canEncrypt : Bool) : List Candidate :=
  (keys.filter fun k => !skipped canEncrypt k).flatMap fun k =>
    (k.userIDs.filter fun u => hasMailbox toLower mailbox u).map fun u => ⟨k, u⟩

variable {toLower} {mailbox : QString} {canEncrypt : Bool}

theorem foldl_userIDs (k : Key) (uids : List UserID) (chosen : Option Candidate) :
    uids.foldl (fun chosen u =>
        if hasMailbox toLower mailbox u then consider canEncrypt chosen ⟨k, u⟩ else chosen) chosen =
      ((uids.filter fun u => hasMailbox toLower mailbox u).map fun u => ⟨k, u⟩).foldl
        (consider canEncrypt) chosen := by
  induction uids generalizing chosen with
  | nil => rfl
  | cons u uids ih =>
    cases hu : hasMailbox toLower mailbox u with
    | true => simp [hu, ih]
    | false => simp [hu, ih]

theorem doWork_error {listing : KeyListResult × List Key}
    (h : listing.1.error.asBool = true) :
    (doWork toLower listing mailbox canEncrypt).chosen = none := by
  simp only [doWork, h, if_true]

theorem doWork_chosen {result : KeyListResult} (h : result.error.asBool = false)
    (keys : List Key) :
    (doWork toLower (result, keys) mailbox canEncrypt).chosen =
      (candidates toLower keys mailbox canEncrypt).foldl (consider canEncrypt) none := by
  have hkeys : ∀ chosen, keys.foldl (fun chosen k =>
      if skipped canEncrypt k then chosen
      else k.userIDs.foldl (fun chosen u =>
        if hasMailbox toLower mailbox u then consider canEncrypt chosen ⟨k, u⟩ else chosen)
          chosen) chosen =
      (candidates toLower keys mailbox canEncrypt).foldl (consider canEncrypt) chosen := by
    induction keys with
    | nil => intro chosen; rfl
    | cons k keys ih =>
      intro chosen
      rw [List.foldl_cons, ih]
      cases hk : skipped canEncrypt k with
      | true => simp [candidates, hk]
      | false => simp [candidates, hk, foldl_userIDs]
  simp only [doWork, h, Bool.false_eq_true, if_false]
  exact hkeys none

end job

section choice
variable {canEncrypt : Bool} {c u : Candidate} {cs : List Candidate}

/-- Usable before unusable, and then by validity. -/
def Better (c d : Candidate) : Prop :=
  uidIsOk c = true ∧ uidIsOk d = false ∨
    uidIsOk c = uidIsOk d ∧ d.uid.validity.rank < c.uid.validity.rank

/-- What is expected of a choice. -/
def BestOf (cs : List Candidate) : Option Candidate → Prop
  | none => cs = []
  | some c => c ∈ cs ∧ ∀ d ∈ cs, ¬Better d c

/-- No candidate is usable; or some usable one that no other usable one exceeds has no unusable
one of higher validity behind it. -/
def NotOvertaken (cs : List Candidate) : Prop :=
  (∀ d ∈ cs, uidIsOk d = false) ∨
    ∃ before c after, cs = before ++ c :: after ∧ uidIsOk c = true ∧
      (∀ d ∈ cs, uidIsOk d = true → d.uid.validity.rank ≤ c.uid.validity.rank) ∧
      ∀ d ∈ after, uidIsOk d = false → d.uid.validity.rank ≤ c.uid.validity.rank

/-- The three ways in which a round can end. -/
theorem consider_cases (canEncrypt : Bool) (c u : Candidate) :
    ((uidIsOk c = false ∧ uidIsOk u = true ∨ c.uid.validity.rank < u.uid.validity.rank) ∧
      consider canEncrypt (some c) u = some u) ∨
    (c.uid.validity.rank = u.uid.validity.rank ∧ uidIsOk u = true ∧ uidIsOk c = true ∧
      (consider canEncrypt (some c) u = some c ∨ consider canEncrypt (some c) u = some u)) ∨
    (u.uid.validity.rank ≤ c.uid.validity.rank ∧
      (uidIsOk u = true → uidIsOk c = true ∧ u.uid.validity.rank < c.uid.validity.rank) ∧
      consider canEncrypt (some c) u = some c) := by
  by_cases hbetter : ((!uidIsOk c && uidIsOk u) ||
      c.uid.validity.rank < u.uid.validity.rank) = true
  · refine Or.inl ⟨by simpa using hbetter, ?_⟩
    simp only [consider, hbetter, if_true]
  · obtain ⟨hok, hle⟩ : (uidIsOk u = true → uidIsOk c = true) ∧
        u.uid.validity.rank ≤ c.uid.validity.rank := by
      cases hc : uidIsOk c <;> simpa [hc] using hbetter
    by_cases hequal : (c.uid.validity = u.uid.validity && uidIsOk u) = true
    · obtain ⟨hvalidity, hu⟩ : c.uid.validity = u.uid.validity ∧ uidIsOk u = true := by
        simpa using hequal
      refine Or.inr (Or.inl ⟨congrArg Validity.rank hvalidity, hu, hok hu, ?_⟩)
      simp only [consider, hbetter, hequal, if_true]
      by_cases hnewer : encryptionTime canEncrypt c.key < encryptionTime canEncrypt u.key
      · exact Or.inr (by simp [hnewer])
      · exact Or.inl (by simp [hnewer])
    · refine Or.inr (Or.inr ⟨hle, fun hu => ⟨hok hu, ?_⟩, ?_⟩)
      · have hne : c.uid.validity.rank ≠ u.uid.validity.rank := by
          intro hrank
          exact hequal (by simp [Validity.rank_injective hrank, hu])
        omega
      · simp only [consider, hbetter, hequal]
        rfl

/-- The chosen one stays or is replaced by the one considered. -/
theorem consider_eq (canEncrypt : Bool) (c u : Candidate) :
    ∃ d, consider canEncrypt (some c) u = some d ∧ (d = c ∨ d = u) := by
  cases consider_cases canEncrypt c u with
  | inl h => exact ⟨u, h.2, Or.inr rfl⟩
  | inr h =>
    cases h with
    | inl h =>
      cases h.2.2.2 with
      | inl hkept => exact ⟨c, hkept, Or.inl rfl⟩
      | inr hnew => exact ⟨u, hnew, Or.inr rfl⟩
    | inr h => exact ⟨c, h.2.2, Or.inl rfl⟩

theorem foldl_mem (cs : List Candidate) (c : Candidate) :
    ∃ d, cs.foldl (consider canEncrypt) (some c) = some d ∧ d ∈ c :: cs := by
  induction cs generalizing c with
  | nil => exact ⟨c, rfl, List.mem_cons_self⟩
  | cons u cs ih =>
    obtain ⟨d, hd, hdc⟩ := consider_eq canEncrypt c u
    obtain ⟨e, he, hmem⟩ := ih d
    refine ⟨e, by rw [List.foldl_cons, hd, he], ?_⟩
    cases List.mem_cons.mp hmem with
    | inl heq =>
      cases hdc with
      | inl hc => simp [heq, hc]
      | inr hu => simp [heq, hu]
    | inr hin => simp [hin]

/-- A usable choice that nothing behind it exceeds in validity keeps its quality. -/
theorem foldl_keeps (hc : uidIsOk c = true)
    (hle : ∀ d ∈ cs, d.uid.validity.rank ≤ c.uid.validity.rank) :
    ∃ d, cs.foldl (consider canEncrypt) (some c) = some d ∧ uidIsOk d = true ∧
      d.uid.validity.rank = c.uid.validity.rank := by
  induction cs generalizing c with
  | nil => exact ⟨c, rfl, hc, rfl⟩
  | cons u cs ih =>
    obtain ⟨hu, hle⟩ := List.forall_mem_cons.mp hle
    rw [List.foldl_cons]
    cases consider_cases canEncrypt c u with
    | inl h =>
      cases h.1 with
      | inl hbad => simp [hc] at hbad
      | inr hlt => omega
    | inr h =>
      cases h with
      | inl h =>
        cases h.2.2.2 with
        | inl hkept =>
          rw [hkept]
          exact ih hc hle
        | inr hnew =>
          rw [hnew]
          obtain ⟨d, hd, hok, hrank⟩ := ih h.2.1 (by rw [← h.1]; exact hle)
          exact ⟨d, hd, hok, hrank.trans h.1.symm⟩
      | inr h =>
        rw [h.2.2]
        exact ih hc hle

/-- Among unusable ones the validity decides. -/
theorem foldl_unusable (hc : uidIsOk c = false) (hcs : ∀ d ∈ cs, uidIsOk d = false) :
    ∃ d, cs.foldl (consider canEncrypt) (some c) = some d ∧
      ∀ e ∈ c :: cs, e.uid.validity.rank ≤ d.uid.validity.rank := by
  induction cs generalizing c with
  | nil => exact ⟨c, rfl, by simp⟩
  | cons u cs ih =>
    obtain ⟨hu, hcs⟩ := List.forall_mem_cons.mp hcs
    rw [List.foldl_cons]
    cases consider_cases canEncrypt c u with
    | inl h =>
      obtain ⟨d, hd, hmax⟩ := ih hu hcs
      have hlt : c.uid.validity.rank < u.uid.validity.rank := by
        cases h.1 with
        | inl hok => simp [hu] at hok
        | inr hlt => exact hlt
      have hud := hmax u List.mem_cons_self
      rw [h.2]
      exact ⟨d, hd, List.forall_mem_cons.mpr ⟨by omega, hmax⟩⟩
    | inr h =>
      cases h with
      | inl h => simp [hu] at h
      | inr h =>
        obtain ⟨d, hd, hmax⟩ := ih hc hcs
        obtain ⟨hcd, hmax⟩ := List.forall_mem_cons.mp hmax
        have huc := h.1
        rw [h.2.2]
        refine ⟨d, hd, List.forall_mem_cons.mpr ⟨hcd, ?_⟩⟩
        exact List.forall_mem_cons.mpr ⟨by omega, hmax⟩

/-- A usable choice has a usable one of its validity from which on no unusable one has been
of higher validity. -/
theorem exists_not_overtaken (hc : uidIsOk c = true)
    (h : cs.foldl (consider canEncrypt) none = some c) :
    ∃ before d after, cs = before ++ d :: after ∧ uidIsOk d = true ∧
      d.uid.validity.rank = c.uid.validity.rank ∧
      ∀ e ∈ after, uidIsOk e = false → e.uid.validity.rank ≤ c.uid.validity.rank := by
  induction cs using List.reverseRecOn generalizing c with
  | nil => simp at h
  | append_singleton cs u ih =>
    rw [List.foldl_append, List.foldl_cons, List.foldl_nil] at h
    by_cases hu : c = u
    · obtain rfl := hu
      exact ⟨cs, c, [], rfl, hc, rfl, by simp⟩
    · cases hfold : cs.foldl (consider canEncrypt) none with
      | none =>
        rw [hfold, consider] at h
        exact absurd (Option.some.inj h).symm hu
      | some b =>
        rw [hfold] at h
        obtain ⟨d, hd, hdb⟩ := consider_eq canEncrypt b u
        have hbc : b = c := by
          rw [hd] at h
          obtain rfl := Option.some.inj h
          cases hdb with
          | inl hb => exact hb.symm
          | inr heq => exact absurd heq hu
        obtain rfl := hbc
        obtain ⟨before, d, after, rfl, hok, hrank, hafter⟩ := ih hc hfold
        refine ⟨before, d, after ++ [u], by simp, hok, hrank, fun e he hbad => ?_⟩
        cases List.mem_append.mp he with
        | inl hin => exact hafter e hin hbad
        | inr hlast =>
          obtain rfl := List.mem_singleton.mp hlast
          cases consider_cases canEncrypt b e with
          | inl hreplaced =>
            rw [hreplaced.2] at h
            exact absurd (Option.some.inj h).symm hu
          | inr hkept =>
            cases hkept with
            | inl hequal => exact Nat.le_of_eq hequal.1.symm
            | inr hless => exact hless.1

theorem mem_of_foldl (h : cs.foldl (consider canEncrypt) none = some c) : c ∈ cs := by
  cases cs with
  | nil => simp at h
  | cons u cs =>
    obtain ⟨d, hd, hmem⟩ := @foldl_mem canEncrypt cs u
    rw [List.foldl_cons, consider, hd] at h
    exact Option.some.inj h ▸ hmem

/-- Where a usable candidate comes that no usable one exceeds, the choice is as good. -/
theorem consider_best (hu : uidIsOk u = true) (chosen : Option Candidate)
    (hmax : ∀ c, chosen = some c → uidIsOk c = true →
      c.uid.validity.rank ≤ u.uid.validity.rank) :
    ∃ d, consider canEncrypt chosen u = some d ∧ uidIsOk d = true ∧
      d.uid.validity.rank = u.uid.validity.rank := by
  cases chosen with
  | none => exact ⟨u, rfl, hu, rfl⟩
  | some c =>
    cases consider_cases canEncrypt c u with
    | inl h => exact ⟨u, h.2, hu, rfl⟩
    | inr h =>
      cases h with
      | inl h =>
        cases h.2.2.2 with
        | inl hkept => exact ⟨c, hkept, h.2.2.1, h.1⟩
        | inr hnew => exact ⟨u, hnew, hu, rfl⟩
      | inr h =>
        obtain ⟨hc, hlt⟩ := h.2.1 hu
        have hle := hmax c rfl hc
        omega

theorem notOvertaken_of_bestOf (h : BestOf cs (cs.foldl (consider canEncrypt) none)) :
    NotOvertaken cs := by
  cases hchosen : cs.foldl (consider canEncrypt) none with
  | none =>
    rw [hchosen] at h
    obtain rfl : cs = [] := h
    exact Or.inl (by simp)
  | some c =>
    rw [hchosen] at h
    obtain ⟨hmem, hbest⟩ : c ∈ cs ∧ ∀ d ∈ cs, ¬Better d c := h
    cases hc : uidIsOk c with
    | false =>
      refine Or.inl fun d hd => ?_
      by_contra hok
      exact hbest d hd (Or.inl ⟨by simpa using hok, hc⟩)
    | true =>
      obtain ⟨before, d, after, hsplit, hd, hrank, hafter⟩ := exists_not_overtaken hc hchosen
      refine Or.inr ⟨before, d, after, hsplit, hd, fun e he hok => ?_, ?_⟩
      · by_contra hlt
        exact hbest e he (Or.inr ⟨hok.trans hc.symm, by omega⟩)
      · rw [hrank]
        exact hafter

theorem bestOf_of_notOvertaken (h : NotOvertaken cs) :
    BestOf cs (cs.foldl (consider canEncrypt) none) := by
  cases h with
  | inl hbad =>
    cases cs with
    | nil => rfl
    | cons c cs =>
      obtain ⟨hc, hcs⟩ := List.forall_mem_cons.mp hbad
      obtain ⟨d, hd, hmax⟩ := @foldl_unusable canEncrypt c cs hc hcs
      have hchosen : (c :: cs).foldl (consider canEncrypt) none = some d := hd
      rw [hchosen]
      refine ⟨mem_of_foldl hchosen, fun e he hbetter => ?_⟩
      cases hbetter with
      | inl hok => simp [hbad e he] at hok
      | inr hlt => exact absurd (hmax e he) (by omega)
  | inr hgood =>
    obtain ⟨before, c, after, hsplit, hc, hmax, hafter⟩ := hgood
    have hbefore : ∀ b, before.foldl (consider canEncrypt) none = some b → uidIsOk b = true →
        b.uid.validity.rank ≤ c.uid.validity.rank := by
      intro b hb hok
      exact hmax b (by rw [hsplit]; exact List.mem_append_left _ (mem_of_foldl hb)) hok
    obtain ⟨b, hb, hok, hrank⟩ := @consider_best canEncrypt c hc _ hbefore
    have hle : ∀ d ∈ after, d.uid.validity.rank ≤ b.uid.validity.rank := by
      intro d hd
      rw [hrank]
      cases hdok : uidIsOk d with
      | true => exact hmax d (by rw [hsplit]; simp [hd]) hdok
      | false => exact hafter d hd hdok
    obtain ⟨d, hd, hdok, hdrank⟩ := @foldl_keeps canEncrypt b after hok hle
    have hchosen : cs.foldl (consider canEncrypt) none = some d := by
      rw [hsplit, List.foldl_append, List.foldl_cons, hb, hd]
    rw [hchosen]
    refine ⟨mem_of_foldl hchosen, fun e he hbetter => ?_⟩
    cases hbetter with
    | inl hbad => simp [hdok] at hbad
    | inr hlt => exact absurd (hmax e he (hlt.1.trans hdok)) (by omega)

end choice

/-- The job chooses a best candidate, and none only where there is no candidate, if and only if
a usable candidate that it should choose is not overtaken by an unusable one, and no candidate is
dropped for an error of the listing. -/
theorem doWork_best_iff (toLower : QString → QString) (listing : KeyListResult × List Key)
    (mailbox : QString) (canEncrypt : Bool) :
    BestOf (candidates toLower listing.2 mailbox canEncrypt)
        (doWork toLower listing mailbox canEncrypt).chosen ↔
      NotOvertaken (candidates toLower listing.2 mailbox canEncrypt) ∧
        (listing.1.error.asBool = true →
          candidates toLower listing.2 mailbox canEncrypt = []) := by
  cases herror : listing.1.error.asBool with
  | true =>
    rw [doWork_error herror]
    constructor
    · intro hnone
      have hempty : candidates toLower listing.2 mailbox canEncrypt = [] := hnone
      rw [hempty]
      exact ⟨Or.inl (by simp), fun _ => rfl⟩
    · exact fun h => h.2 rfl
  | false =>
    rw [doWork_chosen herror]
    exact ⟨fun h => ⟨notOvertaken_of_bestOf h, nofun⟩, fun h => bestOf_of_notOvertaken h.1⟩

/-- A key with the one user ID `a`. -/
def sampleKey (isDisabled : Bool) (validity : Validity) : Key :=
  ⟨true, false, false, false, isDisabled, [⟨[97], validity, false, false⟩], []⟩

/-- A disabled key of higher validity takes the place of a usable one. -/
theorem doWork_disabled :
    let listing := (KeyListResult.mk Error.noError,
      [sampleKey false .marginal, sampleKey true .full])
    (doWork id listing ['a'] true).chosen =
        some ⟨sampleKey true .full, ⟨[97], .full, false, false⟩⟩ ∧
      ¬BestOf (candidates id listing.2 ['a'] true) (doWork id listing ['a'] true).chosen := by
  intro listing
  have hchosen : (doWork id listing ['a'] true).chosen =
      some ⟨sampleKey true .full, ⟨[97], .full, false, false⟩⟩ := by decide +kernel
  refine ⟨hchosen, fun h => ?_⟩
  rw [hchosen] at h
  have husable : ⟨sampleKey false .marginal, ⟨[97], .marginal, false, false⟩⟩ ∈
      candidates id listing.2 ['a'] true := by decide +kernel
  exact h.2 _ husable (Or.inl ⟨rfl, rfl⟩)

end QGpgME.KeyForMailbox
