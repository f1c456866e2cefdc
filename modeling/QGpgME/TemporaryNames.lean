import QGpgME.PartialFile
import Mathlib.Tactic.NormNum
import Mathlib.Tactic.SplitIfs

/-! The random characters in the names of temporary files, made of the numbers of a random
generator. -/
namespace QGpgME.TemporaryNames
open PartialFile

/-- The character for six bits; 62 and 63 are ignored. -/
def character (ch : Nat) : Option Char :=
  if ch < 26 then some (Char.ofNat (ch + 'A'.toNat))
  else if ch < 26 + 26 then some (Char.ofNat (ch - 26 + 'a'.toNat))
  else if ch < 26 + 26 + 10 then some (Char.ofNat (ch - 26 - 26 + '0'.toNat))
  else none

/-- The inner loop, which shifts the number to the right. -/
def characterLoop (count : Nat) (rnd : Nat) (randomChars : QString) : QString :=
  if 3 < rnd then
    let randomChars := randomChars ++ (character (rnd % 64)).toList
    if count ≤ randomChars.length then randomChars
    else characterLoop count (rnd / 64) randomChars
  else randomChars
termination_by rnd
decreasing_by omega

/-- The outer loop, with the numbers that the generator is going to give. None where they are
used up before it ends. -/
def randomLoop (count : Nat) : List UInt32 → QString → Option (QString × List UInt32)
  | [], _ => none
  | rnd :: rnds, randomChars =>
    let randomChars := characterLoop count (rnd ||| 0x80000000).toNat randomChars
    if randomChars.length < count then randomLoop count rnds randomChars
    else some (randomChars, rnds)

def getRandomCharacters (count : Int) (rnds : List UInt32) : Option (QString × List UInt32) :=
  if count < 0 then some ([], rnds) else randomLoop count.toNat rnds []

/-- The loop of `createPartFileName`, by the attempts that are left. -/
def attemptLoop (fs : FileSystem) (f : FilePath) :
    Nat → List UInt32 → Option (Option FilePath × List UInt32)
  | 0, rnds => some (none, rnds)
  | attempts + 1, rnds =>
    (getRandomCharacters 8 rnds).bind fun (randomCharacters, rnds) =>
      if (fs (candidate f randomCharacters)).isNone then
        some (some (candidate f randomCharacters), rnds)
      else attemptLoop fs f attempts rnds

/-- `createPartFileName` with the numbers from which the random characters are made. -/
def createPartFileNameFrom (fs : FileSystem) (f : FilePath) (rnds : List UInt32) :
    Option (Option FilePath × List UInt32) :=
  attemptLoop fs f maxAttempts rnds

/-- The five groups of six bits that a number gives, without its two highest bits. -/
def groups (rnd : Nat) : List Nat :=
  [rnd % 64, rnd / 64 % 64, rnd / 64 ^ 2 % 64, rnd / 64 ^ 3 % 64, rnd / 64 ^ 4 % 64]

/-- All the characters that a number gives. -/
def charactersOf (rnd : UInt32) : QString := (groups rnd.toNat).filterMap character

section loops
variable {count : Nat} {randomChars : QString}

theorem character_length (ch : Nat) : (character ch).toList.length ≤ 1 := by
  cases character ch <;> simp

/-- The `n` lowest groups of six bits. -/
def lowGroups (n rnd : Nat) : List Nat := (List.range n).map fun i => rnd / 64 ^ i % 64

theorem lowGroups_succ (n rnd : Nat) :
    lowGroups (n + 1) rnd = rnd % 64 :: lowGroups n (rnd / 64) := by
  rw [lowGroups, List.range_succ_eq_map, List.map_cons, List.map_map]
  have hshift : ((fun i => rnd / 64 ^ i % 64) ∘ Nat.succ) = fun i => rnd / 64 / 64 ^ i % 64 := by
    funext i
    simp only [Function.comp_apply, Nat.succ_eq_add_one, Nat.pow_succ, Nat.div_div_eq_div_mul]
    rw [Nat.mul_comm]
  rw [hshift, Nat.pow_zero, Nat.div_one]
  rfl

/-- The inner loop over a number with `n` groups below its highest bits. -/
theorem characterLoop_eq (n : Nat) {rnd : Nat} (hlow : 2 * 64 ^ n ≤ rnd)
    (hhigh : rnd < 4 * 64 ^ n) (hlen : randomChars.length < count) :
    characterLoop count rnd randomChars =
      (randomChars ++ (lowGroups n rnd).filterMap character).take count := by
  induction n generalizing rnd randomChars with
  | zero =>
    rw [characterLoop, if_neg (by omega), lowGroups, List.range_zero, List.map_nil,
      List.filterMap_nil, List.append_nil, List.take_of_length_le (by omega)]
  | succ n ih =>
    have hpow : 64 ^ (n + 1) = 64 * 64 ^ n := by rw [Nat.pow_succ, Nat.mul_comm]
    have hpos : 0 < 64 ^ n := Nat.pow_pos (by decide)
    have hchars : (lowGroups (n + 1) rnd).filterMap character =
        (character (rnd % 64)).toList ++ (lowGroups n (rnd / 64)).filterMap character := by
      rw [lowGroups_succ, List.filterMap_cons]
      cases character (rnd % 64) <;> rfl
    have hone := character_length (rnd % 64)
    rw [characterLoop, if_pos (by omega), hchars, ← List.append_assoc]
    by_cases hfull : count ≤ (randomChars ++ (character (rnd % 64)).toList).length
    · have hlen' : (randomChars ++ (character (rnd % 64)).toList).length = count := by
        rw [List.length_append] at hfull ⊢
        omega
      rw [if_pos hfull, List.take_append_of_le_length (Nat.le_of_eq hlen'.symm),
        List.take_of_length_le (Nat.le_of_eq hlen')]
    · rw [if_neg hfull]
      exact ih (by omega) (by omega) (by omega)

theorem groups_eq (rnd : UInt32) :
    lowGroups 5 (rnd ||| 0x80000000).toNat = groups rnd.toNat := by
  have hor : (rnd ||| 0x80000000).toNat % 2 ^ 30 = rnd.toNat % 2 ^ 30 := by
    rw [UInt32.toNat_or, Nat.or_mod_two_pow]
    simp
  simp only [lowGroups, groups, List.range, List.range.loop, List.map_cons, List.map_nil]
  norm_num at hor ⊢
  refine ⟨by omega, by omega, by omega, by omega, by omega⟩

/-- With the highest bit set, the loop sees all five groups of a number. -/
theorem characterLoop_charactersOf (rnd : UInt32) (hlen : randomChars.length < count) :
    characterLoop count (rnd ||| 0x80000000).toNat randomChars =
      (randomChars ++ charactersOf rnd).take count := by
  have hlow : 2 * 64 ^ 5 ≤ (rnd ||| 0x80000000).toNat := by
    rw [UInt32.toNat_or]
    exact Nat.right_le_or
  have hhigh : (rnd ||| 0x80000000).toNat < 4 * 64 ^ 5 := by
    have hlt := (rnd ||| 0x80000000).toNat_lt
    omega
  rw [characterLoop_eq 5 hlow hhigh hlen, groups_eq, charactersOf]

/-- The outer loop ends just if the numbers give enough characters, and its result is what they
give, cut off at the count. -/
theorem randomLoop_eq (rnds : List UInt32) (hlen : randomChars.length < count) :
    (∀ s rest, randomLoop count rnds randomChars = some (s, rest) →
      s = (randomChars ++ rnds.flatMap charactersOf).take count ∧ s.length = count ∧
        rest <:+ rnds) ∧
    ((randomLoop count rnds randomChars).isSome ↔
      count ≤ (randomChars ++ rnds.flatMap charactersOf).length) := by
  induction rnds generalizing randomChars with
  | nil =>
    refine ⟨fun s rest h => by simp [randomLoop] at h, ?_⟩
    simp [randomLoop]
    omega
  | cons rnd rnds ih =>
    have hchars := characterLoop_charactersOf rnd hlen
    have hassoc : randomChars ++ (rnd :: rnds).flatMap charactersOf =
        randomChars ++ charactersOf rnd ++ rnds.flatMap charactersOf := by
      rw [List.flatMap_cons, List.append_assoc]
    rw [randomLoop, hchars, hassoc]
    by_cases hfull : (randomChars ++ charactersOf rnd).length < count
    · have htake : (randomChars ++ charactersOf rnd).take count =
          randomChars ++ charactersOf rnd := List.take_of_length_le (Nat.le_of_lt hfull)
      rw [htake, if_pos hfull]
      obtain ⟨hsome, hiff⟩ := ih hfull
      refine ⟨fun s rest h => ?_, hiff⟩
      obtain ⟨hs, hl, hrest⟩ := hsome s rest h
      exact ⟨hs, hl, hrest.trans (List.suffix_cons rnd rnds)⟩
    · have hlength : ((randomChars ++ charactersOf rnd).take count).length = count := by
        rw [List.length_take]
        omega
      rw [if_neg (by omega)]
      refine ⟨fun s rest h => ?_, ?_⟩
      · obtain ⟨rfl, rfl⟩ := Prod.mk.inj (Option.some.inj h)
        refine ⟨?_, hlength, List.suffix_cons rnd _⟩
        exact (List.take_append_of_le_length (Nat.not_lt.mp hfull)).symm
      · simp only [Option.isSome_some, true_iff]
        rw [List.length_append]
        omega

/-- `{A-Z, a-z, 0-9}` -/
def IsAlphanumeric (c : Char) : Prop :=
  ('A' ≤ c ∧ c ≤ 'Z') ∨ ('a' ≤ c ∧ c ≤ 'z') ∨ ('0' ≤ c ∧ c ≤ '9')

instance (c : Char) : Decidable (IsAlphanumeric c) := inferInstanceAs (Decidable (_ ∨ _ ∨ _))

theorem isAlphanumeric_of_character {ch : Nat} {c : Char} (h : ch < 64)
    (hc : character ch = some c) : IsAlphanumeric c := by
  have hall : ∀ ch < 64, ((character ch).all fun c => decide (IsAlphanumeric c)) = true := by
    decide
  simpa [hc] using hall ch h

/-- The six bits for a character. -/
def bitsOf (c : Char) : Nat :=
  if c ≤ '9' then c.toNat - '0'.toNat + 52
  else if c ≤ 'Z' then c.toNat - 'A'.toNat
  else c.toNat - 'a'.toNat + 26

theorem character_bitsOf_ofNat : ∀ n < 128, IsAlphanumeric (Char.ofNat n) →
    bitsOf (Char.ofNat n) < 62 ∧ character (bitsOf (Char.ofNat n)) = some (Char.ofNat n) := by
  decide

theorem character_bitsOf {c : Char} (h : IsAlphanumeric c) :
    bitsOf c < 62 ∧ character (bitsOf c) = some c := by
  have hlt : c.toNat < 128 := by
    have hle : ∀ d : Char, c ≤ d → d.toNat < 128 → c.toNat < 128 := fun d hd hlt =>
      Nat.lt_of_le_of_lt (UInt32.le_iff_toNat_le.mp hd) hlt
    rcases h with h | h | h
    · exact hle 'Z' h.2 (by decide)
    · exact hle 'z' h.2 (by decide)
    · exact hle '9' h.2 (by decide)
  have hn := character_bitsOf_ofNat c.toNat hlt
  rw [Char.ofNat_toNat] at hn
  exact hn h

theorem isAlphanumeric_of_mem {rnds : List UInt32} {c : Char}
    (h : c ∈ rnds.flatMap charactersOf) : IsAlphanumeric c := by
  obtain ⟨rnd, -, hc⟩ := List.mem_flatMap.mp h
  obtain ⟨ch, hch, hcc⟩ := List.mem_filterMap.mp hc
  refine isAlphanumeric_of_character ?_ hcc
  simp only [groups, List.mem_cons, List.not_mem_nil, or_false] at hch
  omega

theorem getRandomCharacters_loop (count : Nat) (rnds : List UInt32) :
    getRandomCharacters count rnds = randomLoop count rnds [] := by
  have hnonneg : ¬((count : Int) < 0) := by omega
  rw [getRandomCharacters, if_neg hnonneg, Int.toNat_natCast]

/-- The characters that are returned are those that the numbers give, five groups of bits a
number, cut off at the count; they are returned just if the numbers give enough. -/
theorem getRandomCharacters_eq {count : Nat} (hcount : 0 < count) (rnds : List UInt32) :
    (∀ s rest, getRandomCharacters count rnds = some (s, rest) →
      s = (rnds.flatMap charactersOf).take count ∧ s.length = count ∧
        (∀ c ∈ s, IsAlphanumeric c) ∧ rest <:+ rnds) ∧
    ((getRandomCharacters count rnds).isSome ↔ count ≤ (rnds.flatMap charactersOf).length) := by
  have hempty : ([] : QString).length < count := hcount
  obtain ⟨hsome, hiff⟩ := randomLoop_eq rnds hempty
  rw [getRandomCharacters_loop]
  refine ⟨fun s rest h => ?_, hiff⟩
  obtain ⟨hs, hlen, hrest⟩ := hsome s rest h
  refine ⟨hs, hlen, fun c hc => ?_, hrest⟩
  rw [hs] at hc
  exact isAlphanumeric_of_mem (List.mem_of_mem_take hc)

/-- A number whose lowest group is that of the character, and whose other groups are ignored. -/
def numberFor (c : Char) : UInt32 := UInt32.ofNat (bitsOf c + 0x3FFFFFC0)

theorem charactersOf_numberFor {c : Char} (h : IsAlphanumeric c) :
    charactersOf (numberFor c) = [c] := by
  obtain ⟨hlt, hc⟩ := character_bitsOf h
  have hnat : (numberFor c).toNat = bitsOf c + 1073741760 := by
    rw [numberFor, UInt32.toNat_ofNat']
    omega
  have hgroups : groups (numberFor c).toNat = [bitsOf c, 63, 63, 63, 63] := by
    rw [hnat, groups]
    norm_num
    refine ⟨by omega, by omega, by omega, by omega, by omega⟩
  have hignored : character 63 = none := by decide
  rw [charactersOf, hgroups, List.filterMap_cons_some hc]
  simp [hignored]

/-- Every string of these characters can come up. -/
theorem getRandomCharacters_possible {s : QString} (hs : s ≠ [])
    (hall : ∀ c ∈ s, IsAlphanumeric c) :
    ∃ rnds rest, getRandomCharacters s.length rnds = some (s, rest) := by
  have hchars : (s.map numberFor).flatMap charactersOf = s := by
    have hone : ∀ t : QString, (∀ c ∈ t, IsAlphanumeric c) →
        (t.map numberFor).flatMap charactersOf = t := by
      intro t ht
      induction t with
      | nil => rfl
      | cons c t ih =>
        rw [List.map_cons, List.flatMap_cons, charactersOf_numberFor (ht c (by simp)),
          ih fun d hd => ht d (by simp [hd])]
        rfl
    exact hone s hall
  have hempty : ([] : QString).length < s.length := List.length_pos_iff.mpr hs
  obtain ⟨hsome, hiff⟩ := randomLoop_eq (s.map numberFor) hempty
  rw [hchars, List.nil_append] at hiff hsome
  obtain ⟨⟨t, rest⟩, ht⟩ := Option.isSome_iff_exists.mp (hiff.mpr (Nat.le_refl _))
  obtain ⟨heq, -, -⟩ := hsome t rest ht
  rw [List.take_length] at heq
  refine ⟨s.map numberFor, rest, ?_⟩
  rw [getRandomCharacters_loop, ← heq]
  rw [← heq] at ht
  exact ht

end loops

section names
variable {fs : FileSystem} {f : FilePath}

/-- Eight characters of the set. -/
def IsRandomPart (s : QString) : Prop := s.length = 8 ∧ ∀ c ∈ s, IsAlphanumeric c

theorem isRandomPart_of_getRandomCharacters {rnds rest : List UInt32} {s : QString}
    (h : getRandomCharacters 8 rnds = some (s, rest)) : IsRandomPart s := by
  have hempty : ([] : QString).length < 8 := by decide
  obtain ⟨hs, hlen, -⟩ := (randomLoop_eq rnds hempty).1 s rest h
  refine ⟨hlen, fun c hc => ?_⟩
  rw [hs] at hc
  exact isAlphanumeric_of_mem (List.mem_of_mem_take hc)

/-- The loop goes through the candidates in turn, each with random characters of its own. -/
theorem attemptLoop_eq (attempts : Nat) {rnds rest : List UInt32} {temp : Option FilePath}
    (h : attemptLoop fs f attempts rnds = some (temp, rest)) :
    ∃ randomCharacters : Nat → QString, (∀ i < attempts, IsRandomPart (randomCharacters i)) ∧
      temp = ((List.range attempts).map fun i => candidate f (randomCharacters i)).find?
        fun c => (fs c).isNone := by
  induction attempts generalizing rnds with
  | zero =>
    obtain ⟨rfl, -⟩ := Prod.mk.inj (Option.some.inj h)
    exact ⟨fun _ => [], fun i hi => absurd hi (Nat.not_lt_zero i), rfl⟩
  | succ attempts ih =>
    obtain ⟨⟨s, rnds'⟩, hs, hrest⟩ := Option.bind_eq_some_iff.mp h
    have hpart := isRandomPart_of_getRandomCharacters hs
    by_cases hfree : (fs (candidate f s)).isNone = true
    · simp only [hfree, if_true, Option.some.injEq, Prod.mk.injEq] at hrest
      refine ⟨fun _ => s, fun _ _ => hpart, ?_⟩
      simpa [List.range_succ_eq_map, hfree] using hrest.1.symm
    · simp only [hfree] at hrest
      obtain ⟨randomCharacters, hall, heq⟩ := ih hrest
      refine ⟨fun i => if i = 0 then s else randomCharacters (i - 1), fun i hi => ?_, ?_⟩
      · cases i with
        | zero => exact hpart
        | succ i => exact hall i (by omega)
      · simpa [List.range_succ_eq_map, hfree, Function.comp_def] using heq

/-- The temporary name lies beside the file, carries eight random characters and is not in use;
there is none just after ten candidates that are all in use. -/
theorem createPartFileNameFrom_eq {rnds rest : List UInt32} {temp : Option FilePath}
    (h : createPartFileNameFrom fs f rnds = some (temp, rest)) (renameFails removeFails : Bool) :
    ∃ randomCharacters : Nat → QString,
      (∀ i < maxAttempts, IsRandomPart (randomCharacters i)) ∧
      temp = createPartFileName ⟨randomCharacters, renameFails, removeFails⟩ fs f ∧
      (∀ t, temp = some t → t.path = f.path ∧ t ≠ f ∧ fs t = none ∧
        ∃ i < maxAttempts, t = candidate f (randomCharacters i)) ∧
      (temp = none → ∀ i < maxAttempts, (fs (candidate f (randomCharacters i))).isSome) := by
  obtain ⟨randomCharacters, hall, heq⟩ := attemptLoop_eq maxAttempts h
  refine ⟨randomCharacters, hall, heq, fun t ht => ?_, fun hnone i hi => ?_⟩
  · have hfind := heq.symm.trans ht
    obtain ⟨i, hi, hi'⟩ := List.mem_map.mp (List.mem_of_find?_eq_some hfind)
    have hfree := List.find?_some hfind
    refine ⟨by rw [← hi']; rfl, by rw [← hi']; exact candidate_ne f _, by simpa using hfree, i,
      List.mem_range.mp hi, hi'.symm⟩
  · have hfind := heq.symm.trans hnone
    have hused := List.find?_eq_none.mp hfind (candidate f (randomCharacters i))
      (List.mem_map.mpr ⟨i, List.mem_range.mpr hi, rfl⟩)
    cases hc : fs (candidate f (randomCharacters i)) with
    | none => simp [hc] at hused
    | some content => rfl

end names

/-- Numbers that give four characters each, behind a group that is ignored. -/
def fourEach : List UInt32 := [0xFF, 0xFF, 0xFF]

theorem getRandomCharacters_eq_fourEach : ∃ rest,
    getRandomCharacters 8 fourEach = some ("DAAADAAA".toList, rest) := by
  have hcount : 0 < 8 := by decide
  obtain ⟨hsome, hiff⟩ := getRandomCharacters_eq hcount fourEach
  obtain ⟨⟨s, rest⟩, hs⟩ := Option.isSome_iff_exists.mp (hiff.mpr (by decide))
  obtain ⟨heq, -⟩ := hsome s rest hs
  have htake : (fourEach.flatMap charactersOf).take 8 = "DAAADAAA".toList := by decide
  exact ⟨rest, by rw [← htake, ← heq]; exact hs⟩

theorem getRandomCharacters_possible_name : ∃ rnds rest,
    getRandomCharacters "YHgf2tEl".toList.length rnds = some ("YHgf2tEl".toList, rest) :=
  getRandomCharacters_possible (by decide) (by decide)

theorem createPartFileNameFrom_eq_fourEach : ∃ temp rest,
    createPartFileNameFrom (fun _ => none) ⟨[], "this.is.tar".toList⟩ fourEach =
      some (temp, rest) ∧ ∀ t, temp = some t → t.path = [] := by
  have hempty : ([] : QString).length < 8 := by decide
  obtain ⟨⟨s, rest⟩, hs⟩ : ∃ answer, getRandomCharacters 8 fourEach = some answer :=
    Option.isSome_iff_exists.mp ((randomLoop_eq fourEach hempty).2.mpr (by decide))
  have hname : createPartFileNameFrom (fun _ => none) ⟨[], "this.is.tar".toList⟩ fourEach =
      some (some (candidate ⟨[], "this.is.tar".toList⟩ s), rest) := by
    simp [createPartFileNameFrom, maxAttempts, attemptLoop, hs]
  obtain ⟨_, -, -, hbeside, -⟩ := createPartFileNameFrom_eq hname false false
  exact ⟨_, rest, hname, fun t ht => (hbeside t ht).1⟩

end QGpgME.TemporaryNames
