import QGpgME.KeyForMailbox
import Mathlib.Data.List.MinMax

/-! Which of the user IDs of the same validity is chosen by the creation times of the subkeys
for encryption. -/
namespace QGpgME.KeyForMailbox

/-- The subkeys that can encrypt and are not bad. -/
def encryptionSubkeys (k : Key) : List Subkey :=
  k.subkeys.filter fun s => s.canEncrypt && subkeyIsOk s

/-- The newest of the subkeys of one key is newer than all those of another one. -/
def Newer (k l : Key) : Prop :=
  ∃ s ∈ encryptionSubkeys k, ∀ t ∈ encryptionSubkeys l, t.creationTime < s.creationTime

instance (k l : Key) : Decidable (Newer k l) := inferInstanceAs (Decidable (∃ s ∈ _, _))

/-- Usable and of the same validity. -/
def Rival (d c : Candidate) : Prop := uidIsOk d = true ∧ d.uid.validity = c.uid.validity

/-- What is expected of a choice that is usable. -/
def NoneNewer (cs : List Candidate) (chosen : Option Candidate) : Prop :=
  ∀ c, chosen = some c → uidIsOk c = true → ∀ d ∈ cs, Rival d c → ¬Newer d.key c.key

/-- Usable, and of the highest validity among those that are. -/
def Top (cs : List Candidate) (c : Candidate) : Prop :=
  uidIsOk c = true ∧ ∀ d ∈ cs, uidIsOk d = true → d.uid.validity.rank ≤ c.uid.validity.rank

instance (cs : List Candidate) (c : Candidate) : Decidable (Top cs c) :=
  inferInstanceAs (Decidable (_ ∧ _))

/-- No unusable candidate of higher validity comes behind one of the top, and of two of the top
the one with the newer subkey is the one with the newer subkey listed last. -/
structure WellListed (cs : List Candidate) : Prop where
  not_overtaken : cs.Pairwise fun c e =>
    Top cs c → uidIsOk e = false → e.uid.validity.rank ≤ c.uid.validity.rank
  listed_last : ∀ c ∈ cs, ∀ d ∈ cs, Top cs c → Top cs d → Newer d.key c.key →
    encryptionTime true c.key < encryptionTime true d.key

section rounds
variable {c d u : Candidate} {cs before after : List Candidate}

theorem Top.validity_eq (hc : Top cs c) (hd : Top cs d) (hmemc : c ∈ cs) (hmemd : d ∈ cs) :
    c.uid.validity = d.uid.validity :=
  Validity.rank_injective (Nat.le_antisymm (hd.2 c hmemc hc.1) (hc.2 d hmemd hd.1))

/-- Of the top are the usable candidates of its validity. -/
theorem Top.of_rival (hc : Top cs c) (h : Rival d c) : Top cs d := by
  refine ⟨h.1, fun e he hok => ?_⟩
  rw [h.2]
  exact hc.2 e he hok

theorem Top.rank_lt (hc : Top cs c) (hok : uidIsOk d = true) (hd : ¬Top cs d) :
    d.uid.validity.rank < c.uid.validity.rank := by
  by_contra hle
  exact hd ⟨hok, fun e he hok => Nat.le_trans (hc.2 e he hok) (Nat.not_lt.mp hle)⟩

theorem exists_top (hmem : c ∈ cs) (hc : uidIsOk c = true) : ∃ d ∈ cs, Top cs d := by
  have hin : ∀ e, e ∈ cs.filter (fun d => uidIsOk d) ↔ e ∈ cs ∧ uidIsOk e = true :=
    fun e => List.mem_filter
  let rank := fun d : Candidate => d.uid.validity.rank
  cases hmax : (cs.filter fun d => uidIsOk d).argmax rank with
  | none =>
    have hnone : c ∈ [] := by
      rw [← List.argmax_eq_none.mp hmax]
      exact (hin c).mpr ⟨hmem, hc⟩
    exact absurd hnone (by simp)
  | some d =>
    obtain ⟨hd, hok⟩ := (hin d).mp (List.argmax_mem hmax)
    refine ⟨d, hd, hok, fun e he heok => ?_⟩
    exact @List.le_of_mem_argmax _ _ _ rank _ _ _ ((hin e).mpr ⟨he, heok⟩) hmax

/-- The round for a usable candidate. -/
theorem consider_usable (hu : uidIsOk u = true) :
    consider true (some c) u =
      if uidIsOk c = true ∧ ¬c.uid.validity.rank < u.uid.validity.rank ∧
        ¬(c.uid.validity = u.uid.validity ∧
          encryptionTime true c.key < encryptionTime true u.key) then some c else some u := by
  cases hc : uidIsOk c with
  | false => simp [consider, hc, hu]
  | true =>
    by_cases hrank : c.uid.validity.rank < u.uid.validity.rank
    · simp [consider, hrank]
    · by_cases heq : c.uid.validity = u.uid.validity
      · by_cases htime : encryptionTime true c.key < encryptionTime true u.key
        · simp [consider, hc, hu, heq, htime]
        · simp [consider, hc, hu, heq, htime]
      · simp [consider, hc, hu, hrank, heq]

/-- The round for an unusable candidate. -/
theorem consider_unusable (hu : uidIsOk u = false) :
    consider true (some c) u =
      if c.uid.validity.rank < u.uid.validity.rank then some u else some c := by
  simp only [consider, hu, Bool.and_false, Bool.false_or, decide_eq_true_eq, Bool.false_eq_true,
    if_false]

/-- Of the top, with the newest subkey listed last among those of the top that have been met. -/
def Leads (cs before : List Candidate) (c : Candidate) : Prop :=
  c ∈ before ∧ Top cs c ∧
    ∀ d ∈ before, Top cs d → encryptionTime true d.key ≤ encryptionTime true c.key

theorem Leads.append (h : Leads cs before c)
    (hu : Top cs u → encryptionTime true u.key ≤ encryptionTime true c.key) :
    Leads cs (before ++ [u]) c := by
  refine ⟨List.mem_append_left _ h.1, h.2.1, List.forall_mem_append.mpr ⟨h.2.2, ?_⟩⟩
  exact List.forall_mem_singleton.mpr hu

/-- One that leads is replaced by one of the top with a newer subkey listed last. -/
theorem consider_top (h : Leads cs before c) (hsub : before ⊆ cs) (hu : Top cs u)
    (hmem : u ∈ cs) : ∃ d, consider true (some c) u = some d ∧ Leads cs (before ++ [u]) d := by
  have hvalidity : c.uid.validity = u.uid.validity := h.2.1.validity_eq hu (hsub h.1) hmem
  rw [consider_usable hu.1]
  by_cases htime : encryptionTime true c.key < encryptionTime true u.key
  · refine ⟨u, if_neg fun hkept => hkept.2.2 ⟨hvalidity, htime⟩, by simp, hu, ?_⟩
    refine List.forall_mem_append.mpr ⟨fun d hd htop => ?_, by simp⟩
    exact Int.le_of_lt (Int.lt_of_le_of_lt (h.2.2 d hd htop) htime)
  · refine ⟨c, if_pos ⟨h.2.1.1, ?_, fun hless => htime hless.2⟩, h.append fun _ => ?_⟩
    · exact Int.not_lt.mp htime
    · rw [hvalidity]
      exact Nat.lt_irrefl _

/-- The first one of the top is chosen. -/
theorem consider_first (hnone : ∀ d ∈ before, ¬Top cs d) (hu : Top cs u) :
    consider true (before.foldl (consider true) none) u = some u := by
  cases hchosen : before.foldl (consider true) none with
  | none => rfl
  | some b =>
    have hb : b ∈ before := mem_of_foldl hchosen
    rw [consider_usable hu.1, if_neg]
    exact fun hkept => hkept.2.1 (hu.rank_lt hkept.1 (hnone b hb))

/-- One that leads stays where one comes that is not of the top. -/
theorem consider_other (h : WellListed cs) (hcs : cs = before ++ u :: after)
    (hlead : Leads cs before c) (hu : ¬Top cs u) : consider true (some c) u = some c := by
  cases hok : uidIsOk u with
  | true =>
    have hlt := hlead.2.1.rank_lt hok hu
    rw [consider_usable hok, if_pos]
    refine ⟨hlead.2.1.1, Nat.lt_asymm hlt, fun heq => ?_⟩
    rw [heq.1] at hlt
    exact Nat.lt_irrefl _ hlt
  | false =>
    have hpairs := h.not_overtaken
    rw [hcs] at hpairs
    have hle := (List.pairwise_append.mp hpairs).2.2 c hlead.1 u List.mem_cons_self
    rw [← hcs] at hle
    rw [consider_unusable hok, if_neg (Nat.not_lt.mpr (hle hlead.2.1 hok))]

/-- As soon as one of the top has been met, the choice is one of them that leads. -/
theorem foldl_leads (h : WellListed cs) (hcs : cs = before ++ after)
    (htop : ∃ d ∈ before, Top cs d) :
    ∃ c, before.foldl (consider true) none = some c ∧ Leads cs before c := by
  induction before using List.reverseRecOn generalizing after with
  | nil =>
    obtain ⟨d, hd, -⟩ := htop
    cases hd
  | append_singleton before u ih =>
    have hcs' : cs = before ++ u :: after := by rw [hcs, List.append_assoc]; rfl
    have hsub : before ⊆ cs := hcs' ▸ List.subset_append_left before (u :: after)
    have hmem : u ∈ cs := hcs' ▸ List.mem_append_right before List.mem_cons_self
    rw [List.foldl_append, List.foldl_cons, List.foldl_nil]
    by_cases hmet : ∃ d ∈ before, Top cs d
    · obtain ⟨c, hc, hlead⟩ := ih hcs' hmet
      rw [hc]
      by_cases hu : Top cs u
      · exact consider_top hlead hsub hu hmem
      · exact ⟨c, consider_other h hcs' hlead hu, hlead.append fun htop => absurd htop hu⟩
    · have hnone : ∀ d ∈ before, ¬Top cs d := fun d hd htop => hmet ⟨d, hd, htop⟩
      have hu : Top cs u := by
        obtain ⟨d, hd, htop⟩ := htop
        obtain hd | hd := List.mem_append.mp hd
        · exact absurd htop (hnone d hd)
        · exact List.mem_singleton.mp hd ▸ htop
      refine ⟨u, consider_first hnone hu, by simp, hu, ?_⟩
      exact List.forall_mem_append.mpr ⟨fun d hd htop => absurd htop (hnone d hd), by simp⟩

theorem noneNewer_of_wellListed (h : WellListed cs) :
    NoneNewer cs (cs.foldl (consider true) none) := by
  intro c hc hok d hd hrival hnewer
  obtain ⟨c', hc', hmem, htop, hmax⟩ :=
    foldl_leads h (List.append_nil cs).symm (exists_top (mem_of_foldl hc) hok)
  obtain rfl := Option.some.inj (hc'.symm.trans hc)
  have hd' : Top cs d := htop.of_rival hrival
  exact absurd (h.listed_last _ hmem d hd htop hd' hnewer) (Int.not_lt.mpr (hmax d hd hd'))

end rounds

/-- A key with the one user ID `a`, and subkeys for encryption that were created then. -/
def subkeyed (times : List Int) : Key :=
  ⟨true, false, false, false, false, [⟨[97], .full, false, false⟩],
    times.map fun time => ⟨true, false, false, false, time⟩⟩

/-- Of equally valid user IDs that are usable the job chooses one with the newest subkey for
encryption where the candidates are well listed. -/
theorem doWork_newest (toLower : QString → QString) (listing : KeyListResult × List Key)
    (mailbox : QString) (h : listing.1.error.asBool = true ∨
      WellListed (candidates toLower listing.2 mailbox true)) :
    NoneNewer (candidates toLower listing.2 mailbox true)
      (doWork toLower listing mailbox true).chosen := by
  cases herror : listing.1.error.asBool with
  | true =>
    rw [doWork_error herror]
    exact nofun
  | false =>
    rw [doWork_chosen herror]
    exact noneNewer_of_wellListed (h.resolve_left (by simp [herror]))

/-- Two keys that list their newest subkeys last. -/
theorem doWork_newest_last :
    NoneNewer (candidates id [subkeyed [5], subkeyed [3, 10]] ['a'] true)
      (doWork id (⟨Error.noError⟩, [subkeyed [5], subkeyed [3, 10]]) ['a'] true).chosen := by
  refine doWork_newest id (⟨Error.noError⟩, [subkeyed [5], subkeyed [3, 10]]) ['a'] (Or.inr ?_)
  constructor <;> decide +kernel

/-- The newest subkey does not count where it is listed first. -/
theorem doWork_older :
    let listing := (KeyListResult.mk Error.noError, [subkeyed [5], subkeyed [10, 3]])
    (doWork id listing ['a'] true).chosen =
        some ⟨subkeyed [5], ⟨[97], .full, false, false⟩⟩ ∧
      ¬NoneNewer (candidates id listing.2 ['a'] true) (doWork id listing ['a'] true).chosen := by
  intro listing
  have hchosen : (doWork id listing ['a'] true).chosen =
      some ⟨subkeyed [5], ⟨[97], .full, false, false⟩⟩ := by decide +kernel
  refine ⟨hchosen, fun h => ?_⟩
  have hrival : ⟨subkeyed [10, 3], ⟨[97], .full, false, false⟩⟩ ∈
      candidates id listing.2 ['a'] true := by decide +kernel
  refine h _ hchosen (by decide) _ hrival ⟨by decide, rfl⟩ ?_
  exact ⟨⟨true, false, false, false, 10⟩, by decide, by decide⟩

end QGpgME.KeyForMailbox
