import Mathlib.Data.List.Basic
import Mathlib.Data.List.DropRight

/-! UTF-8 over lists of bytes, with a decoder that replaces every byte it cannot use. The
code of a single character and its parser are those of the core library. -/
namespace QGpgME.Utf8

/-- A statement about the members of a list is decided along the list, also where the type is
finite. -/
instance (priority := 2000) decidableForallMem {α : Type*} {l : List α} {p : α → Prop}
    [DecidablePred p] : Decidable (∀ a ∈ l, p a) := List.decidableBAll p l

def Ascii (c : Char) : Prop := c.toNat < 128

instance (c : Char) : Decidable (Ascii c) := inferInstanceAs (Decidable (c.toNat < 128))

def encode (s : List Char) : List UInt8 := s.flatMap String.utf8EncodeChar

/-- `skip` counts the bytes that still belong to the last character. -/
def decodeFrom (skip : Nat) : List UInt8 → List Char
  | [] => []
  | b :: bs =>
    match skip with
    | n + 1 => decodeFrom n bs
    | 0 =>
      match (b :: bs).toByteArray.utf8DecodeChar? 0 with
      | some c => c :: decodeFrom (c.utf8Size - 1) bs
      | none => '\uFFFD' :: decodeFrom 0 bs

def decode (bs : List UInt8) : List Char := decodeFrom 0 bs

@[simp] theorem encode_nil : encode [] = [] := rfl

@[simp] theorem encode_cons (c : Char) (s : List Char) :
    encode (c :: s) = String.utf8EncodeChar c ++ encode s := rfl

@[simp] theorem encode_append (s t : List Char) : encode (s ++ t) = encode s ++ encode t := by
  simp [encode]

theorem encodeChar_ascii {c : Char} (h : Ascii c) :
    String.utf8EncodeChar c = [UInt8.ofNat c.toNat] := by
  have h' : c.val.toNat ≤ 127 := Nat.le_of_lt_succ h
  rw [String.utf8EncodeChar, if_pos h']
  rfl

theorem encodeChar_length_pos (c : Char) : 0 < (String.utf8EncodeChar c).length := by
  rw [String.length_utf8EncodeChar]
  exact c.utf8Size_pos

/-- The code of a character outside ASCII has no ASCII byte, and more than one byte. -/
theorem encodeChar_not_ascii {c : Char} (h : ¬Ascii c) :
    (∀ b ∈ String.utf8EncodeChar c, 128 ≤ b.toNat) ∧
      1 < (String.utf8EncodeChar c).length := by
  have h' : ¬c.val.toNat ≤ 127 := fun hle => h (Nat.lt_succ_of_le hle)
  simp only [String.utf8EncodeChar, h', if_false]
  split
  · simp only [List.mem_cons, List.not_mem_nil, or_false, List.length_cons, List.length_nil]
    refine ⟨?_, by omega⟩
    rintro b (rfl | rfl) <;> simp only [UInt8.toNat_ofNat'] <;> omega
  · split
    · simp only [List.mem_cons, List.not_mem_nil, or_false, List.length_cons, List.length_nil]
      refine ⟨?_, by omega⟩
      rintro b (rfl | rfl | rfl) <;> simp only [UInt8.toNat_ofNat'] <;> omega
    · simp only [List.mem_cons, List.not_mem_nil, or_false, List.length_cons, List.length_nil]
      refine ⟨?_, by omega⟩
      rintro b (rfl | rfl | rfl | rfl) <;> simp only [UInt8.toNat_ofNat'] <;> omega

theorem encode_eq_nil_iff {s : List Char} : encode s = [] ↔ s = [] := by
  cases s with
  | nil => simp
  | cons c s =>
    have hpos := encodeChar_length_pos c
    simp only [encode_cons, List.append_eq_nil_iff, reduceCtorEq, iff_false]
    intro hnil
    rw [hnil.1, List.length_nil] at hpos
    exact absurd hpos (by decide)

theorem ofNat_toNat_inj {c d : Char} (hc : Ascii c) (hd : Ascii d)
    (h : UInt8.ofNat c.toNat = UInt8.ofNat d.toNat) : c = d := by
  have hc' : c.toNat < 128 := hc
  have hd' : d.toNat < 128 := hd
  have := congrArg UInt8.toNat h
  simp only [UInt8.toNat_ofNat'] at this
  exact Char.toNat_inj.mp (by omega)

/-- An ASCII byte of the code stands for that very character. -/
theorem mem_encode_ascii {a : Char} (ha : Ascii a) {s : List Char} :
    UInt8.ofNat a.toNat ∈ encode s ↔ a ∈ s := by
  have ha' : a.toNat < 128 := ha
  induction s with
  | nil => simp
  | cons c s ih =>
    rw [encode_cons, List.mem_append, List.mem_cons]
    refine or_congr ?_ ih
    by_cases hc : Ascii c
    · rw [encodeChar_ascii hc, List.mem_singleton]
      exact ⟨ofNat_toNat_inj ha hc, fun h => by rw [h]⟩
    · constructor
      · intro hm
        have := (encodeChar_not_ascii hc).1 _ hm
        simp only [UInt8.toNat_ofNat'] at this
        omega
      · rintro rfl
        exact absurd ha hc

theorem length_le_encode (s : List Char) : s.length ≤ (encode s).length := by
  induction s with
  | nil => simp
  | cons c s ih =>
    have := encodeChar_length_pos c
    simp only [encode_cons, List.length_append, List.length_cons]
    omega

/-- A string is as long as its code exactly when it is ASCII. -/
theorem length_encode_eq_iff {s : List Char} :
    (encode s).length = s.length ↔ ∀ c ∈ s, Ascii c := by
  induction s with
  | nil => simp
  | cons c s ih =>
    have hle := length_le_encode s
    simp only [encode_cons, List.length_append, List.length_cons, List.forall_mem_cons, ← ih]
    by_cases hc : Ascii c
    · simp [encodeChar_ascii hc, hc]
      omega
    · have := (encodeChar_not_ascii hc).2
      simp only [hc, false_and, iff_false]
      omega

theorem decodeFrom_skip (xs ys : List UInt8) :
    decodeFrom xs.length (xs ++ ys) = decode ys := by
  induction xs with
  | nil => rfl
  | cons x xs ih => simpa [decodeFrom] using ih

/-- The code of a character is read back, whatever follows it. -/
theorem decode_encodeChar (c : Char) (bs : List UInt8) :
    decode (String.utf8EncodeChar c ++ bs) = c :: decode bs := by
  cases he : String.utf8EncodeChar c with
  | nil => simpa [he] using encodeChar_length_pos c
  | cons x xs =>
    have hlen : c.utf8Size - 1 = xs.length := by
      rw [← String.length_utf8EncodeChar, he]
      simp
    have hdec : (x :: (xs ++ bs)).toByteArray.utf8DecodeChar? 0 = some c := by
      rw [← List.cons_append, ← he, List.toByteArray_append]
      exact ByteArray.utf8DecodeChar?_utf8EncodeChar_append
    simp only [decode, List.cons_append, decodeFrom, hdec, hlen, decodeFrom_skip]

theorem decode_encode (s : List Char) : decode (encode s) = s := by
  induction s with
  | nil => rfl
  | cons c s ih => rw [encode_cons, decode_encodeChar, ih]

/-- An ASCII byte is decoded on its own. -/
theorem decode_ascii {c : Char} (h : Ascii c) (bs : List UInt8) :
    decode (UInt8.ofNat c.toNat :: bs) = c :: decode bs := by
  simpa [encodeChar_ascii h] using decode_encodeChar c bs

theorem encode_ascii {s : List Char} (h : ∀ c ∈ s, Ascii c) :
    encode s = s.map fun c => UInt8.ofNat c.toNat := by
  induction s with
  | nil => rfl
  | cons c s ih =>
    rw [encode_cons, encodeChar_ascii (h c (by simp)), ih fun d hd => h d (by simp [hd])]
    rfl

/-- Decoding either reads the code of one character or replaces one byte. -/
theorem decode_cons (b : UInt8) (bs : List UInt8) :
    (∃ c rest, b :: bs = String.utf8EncodeChar c ++ rest ∧ decode (b :: bs) = c :: decode rest) ∨
      decode (b :: bs) = '\uFFFD' :: decode bs := by
  cases hd : (b :: bs).toByteArray.utf8DecodeChar? 0 with
  | none => exact Or.inr (by simp [decode, decodeFrom, hd])
  | some c =>
    have h := congrArg (fun a : ByteArray => a.data.toList)
      (ByteArray.eq_of_utf8DecodeChar?_eq_some hd)
    simp only [List.toList_data_toByteArray, ByteArray.data_append, Array.toList_append] at h
    exact Or.inl ⟨c, _, h, (congrArg decode h).trans (decode_encodeChar c _)⟩

theorem length_decode_le (bs : List UInt8) : (decode bs).length ≤ bs.length := by
  generalize hn : bs.length = n
  induction n using Nat.strongRecOn generalizing bs with
  | ind n ih =>
    cases bs with
    | nil => simp [decode, decodeFrom]
    | cons b bs =>
      cases decode_cons b bs with
      | inl hread =>
        obtain ⟨c, rest, hb, hd⟩ := hread
        have hc := encodeChar_length_pos c
        have hlen := congrArg List.length hb
        simp only [List.length_append] at hlen
        have := ih rest.length (by omega) rest rfl
        rw [hd, List.length_cons]
        omega
      | inr hd =>
        have := ih bs.length (by simp [← hn]) bs rfl
        rw [hd]
        simp only [List.length_cons] at hn ⊢
        omega

theorem exists_ascii_of_lt {b : UInt8} (h : b.toNat < 128) :
    ∃ c, Ascii c ∧ c = Char.ofNat b.toNat ∧ b = UInt8.ofNat c.toNat := by
  have hc : (Char.ofNat b.toNat).toNat = b.toNat := by
    have hv : b.toNat.isValidChar := Or.inl (by omega)
    rw [Char.ofNat, dif_pos hv]
    rfl
  refine ⟨_, ?_, rfl, ?_⟩
  · simpa only [Ascii, hc] using h
  · rw [hc, UInt8.ofNat_toNat]

/-- Where decoding does not shorten, every byte was decoded on its own. -/
theorem decode_eq_map_of_length {bs : List UInt8} (h : (decode bs).length = bs.length) :
    decode bs = bs.map fun b => if b.toNat < 128 then Char.ofNat b.toNat else '\uFFFD' := by
  induction bs with
  | nil => rfl
  | cons b bs ih =>
    have hle := length_decode_le bs
    by_cases hb : b.toNat < 128
    · obtain ⟨c, hc, hcb, hbc⟩ := exists_ascii_of_lt hb
      have hd : decode (b :: bs) = c :: decode bs := by
        rw [hbc, decode_ascii hc]
      rw [hd, List.length_cons, List.length_cons] at h
      rw [hd, List.map_cons, ← ih (by omega), if_pos hb, hcb]
    · obtain ⟨c, rest, hbs, hd⟩ | hd := decode_cons b bs
      · -- a longer code would shorten
        exfalso
        have hn : ¬Ascii c := by
          intro hc
          have hlt : c.toNat < 128 := hc
          rw [encodeChar_ascii hc] at hbs
          obtain ⟨rfl, -⟩ : b = UInt8.ofNat c.toNat ∧ bs = rest := by simpa using hbs
          simp only [UInt8.toNat_ofNat'] at hb
          omega
        have := (encodeChar_not_ascii hn).2
        have hlen := congrArg List.length hbs
        have hr := length_decode_le rest
        rw [hd] at h
        simp only [List.length_append, List.length_cons] at hlen h
        omega
      · rw [hd, List.length_cons, List.length_cons] at h
        rw [hd, List.map_cons, ← ih (by omega), if_neg hb]

/-- ASCII characters come from their own bytes only. -/
theorem count_decode {a : Char} (ha : Ascii a) (bs : List UInt8) :
    (decode bs).count a = bs.count (UInt8.ofNat a.toNat) := by
  have ha' : a.toNat < 128 := ha
  have hone : ∀ c, List.count a [c] =
      List.count (UInt8.ofNat a.toNat) (String.utf8EncodeChar c) := by
    intro c
    by_cases hca : c = a
    · subst c
      simp [encodeChar_ascii ha]
    · have hnot : UInt8.ofNat a.toNat ∉ String.utf8EncodeChar c := by
        intro hm
        have hm' : UInt8.ofNat a.toNat ∈ encode [c] := by simpa using hm
        have := (mem_encode_ascii ha).mp hm'
        simp only [List.mem_singleton] at this
        exact hca this.symm
      rw [List.count_eq_zero_of_not_mem hnot, List.count_eq_zero_of_not_mem]
      simpa using Ne.symm hca
  generalize hn : bs.length = n
  induction n using Nat.strongRecOn generalizing bs with
  | ind n ih =>
    cases bs with
    | nil => rfl
    | cons b bs =>
      cases decode_cons b bs with
      | inl hread =>
        obtain ⟨c, rest, hb, hd⟩ := hread
        have hpos := encodeChar_length_pos c
        have hlen := congrArg List.length hb
        simp only [List.length_append] at hlen
        have hrest := ih rest.length (by omega) rest rfl
        rw [hd, hb, ← List.singleton_append, List.count_append, List.count_append, hone, hrest]
      | inr hd =>
        have hrest := ih bs.length (by simp [← hn]) bs rfl
        have hne : a ≠ '\uFFFD' := by
          intro h
          subst h
          exact absurd ha' (by decide)
        have hb : b ≠ UInt8.ofNat a.toNat := by
          intro h
          rw [h, decode_ascii ha, List.cons.injEq] at hd
          exact hne hd.1
        rw [hd, List.count_cons_of_ne (Ne.symm hne), List.count_cons_of_ne hb, hrest]

/-- A test of bytes and one of characters that agree on ASCII and fail elsewhere. -/
structure AsciiTest (p : UInt8 → Bool) (q : Char → Bool) : Prop where
  agree : ∀ c, Ascii c → p (UInt8.ofNat c.toNat) = q c
  high : ∀ b : UInt8, 128 ≤ b.toNat → p b = false
  ascii : ∀ c, q c = true → Ascii c

section tests
variable {p : UInt8 → Bool} {q : Char → Bool} (h : AsciiTest p q)
include h

theorem AsciiTest.encodeChar_head {c : Char} :
    ∃ b bs, String.utf8EncodeChar c = b :: bs ∧ p b = q c ∧ (q c = true → bs = []) := by
  by_cases hc : Ascii c
  · exact ⟨_, [], encodeChar_ascii hc, h.agree c hc, fun _ => rfl⟩
  · have hn : q c = false := by
      by_contra hq
      exact hc (h.ascii c (by simpa using hq))
    cases he : String.utf8EncodeChar c with
    | nil => simpa [he] using encodeChar_length_pos c
    | cons b bs =>
      have hb := h.high b ((encodeChar_not_ascii hc).1 b (by simp [he]))
      exact ⟨b, bs, rfl, by rw [hb, hn], fun hq => by simp [hn] at hq⟩

theorem AsciiTest.encodeChar_false {c : Char} (hc : q c = false) :
    ∀ b ∈ String.utf8EncodeChar c, p b = false := by
  intro b hb
  by_cases ha : Ascii c
  · rw [encodeChar_ascii ha, List.mem_singleton] at hb
    rw [hb, h.agree c ha, hc]
  · exact h.high b ((encodeChar_not_ascii ha).1 b hb)

theorem AsciiTest.dropWhile_encode (s : List Char) :
    (encode s).dropWhile p = encode (s.dropWhile q) := by
  induction s with
  | nil => rfl
  | cons c s ih =>
    obtain ⟨b, bs, he, hb, hbs⟩ := h.encodeChar_head (c := c)
    rw [encode_cons, he, List.cons_append, List.dropWhile_cons, List.dropWhile_cons, hb]
    split
    · next hq => rw [hbs hq, List.nil_append, ih]
    · rw [encode_cons, he, List.cons_append]

theorem AsciiTest.rdropWhile_encode (s : List Char) :
    (encode s).rdropWhile p = encode (s.rdropWhile q) := by
  induction s using List.reverseRecOn with
  | nil => rfl
  | append_singleton s c ih =>
    have hcode : encode [c] = String.utf8EncodeChar c := by simp
    rw [encode_append, List.rdropWhile_concat, hcode]
    by_cases hq : q c = true
    · have hc := h.ascii c hq
      rw [if_pos hq, encodeChar_ascii hc, List.rdropWhile_concat, h.agree c hc, if_pos hq, ih]
    · have hne : String.utf8EncodeChar c ≠ [] := List.ne_nil_of_length_pos (encodeChar_length_pos c)
      rw [if_neg hq, List.rdropWhile_eq_self_iff.mpr, encode_append, hcode]
      intro hl
      rw [List.getLast_append_of_ne_nil _ hne,
        h.encodeChar_false (by simpa using hq) _ (List.getLast_mem hne)]
      exact Bool.false_ne_true

end tests

end QGpgME.Utf8
