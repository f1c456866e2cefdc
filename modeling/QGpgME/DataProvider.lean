import QGpgME.EventRun
import QGpgME.Pieces
import QGpgME.QtString

/-! QByteArrayDataProvider: the bytes of a byte array, read and written at an offset that
`seek` moves. -/
namespace QGpgME

/-- The size type of the containers of Qt: `int`, or `qsizetype`. -/
inductive QtVersion where
  | qt5 | qt6
deriving DecidableEq

/-- Where sizes stop being representable. -/
def QtVersion.sizeLimit : QtVersion → Nat
  | .qt5 => 2 ^ 31
  | .qt6 => 2 ^ 63

/-- `memory` is what resizing finds in the bytes that it adds. -/
structure Qt where
  version : QtVersion
  memory : Nat → UInt8

namespace QByteArray

/-- The size that `resize` makes of a `size_t`: it is converted to the size type, and a negative
size is taken for 0. -/
def newSize (qt : Qt) (size : Nat) : Nat :=
  let converted := size % (2 * qt.version.sizeLimit)
  if converted < qt.version.sizeLimit then converted else 0

def resize (qt : Qt) (ba : QByteArray) (size : Nat) : QByteArray :=
  ba.take (newSize qt size) ++
    (List.range' ba.length (newSize qt size - ba.length)).map qt.memory

@[simp] theorem length_resize (qt : Qt) (ba : QByteArray) (size : Nat) :
    (resize qt ba size).length = newSize qt size := by
  simp only [resize, List.length_append, List.length_take, List.length_map, List.length_range']
  omega

theorem newSize_le (qt : Qt) (size : Nat) : newSize qt size ≤ size := by
  by_cases h : size % (2 * qt.version.sizeLimit) < qt.version.sizeLimit
  · rw [newSize, if_pos h]
    exact Nat.mod_le _ _
  · rw [newSize, if_neg h]
    exact Nat.zero_le _

theorem newSize_of_lt {qt : Qt} {size : Nat} (h : size < qt.version.sizeLimit) :
    newSize qt size = size := by
  have hmod : size % (2 * qt.version.sizeLimit) = size := Nat.mod_eq_of_lt (by omega)
  rw [newSize, hmod, if_pos h]

theorem newSize_lt (qt : Qt) (size : Nat) : newSize qt size < qt.version.sizeLimit := by
  by_cases h : size % (2 * qt.version.sizeLimit) < qt.version.sizeLimit
  · rw [newSize, if_pos h]
    exact h
  · rw [newSize, if_neg h]
    cases qt.version <;> decide

/-- An array that keeps its size keeps its content. -/
theorem resize_length {qt : Qt} {ba : QByteArray} {size : Nat}
    (h : newSize qt size = ba.length) : resize qt ba size = ba := by
  simp [resize, h]

end QByteArray

namespace DataProvider

/-- What `GpgME::Error::setSystemError` is called with. -/
inductive SystemError where
  | einval | eio | ebadf
deriving DecidableEq

/-- The value returned, what has been copied to the buffer, and the error that is set. -/
structure Answer where
  value : Int
  data : QByteArray
  error : Option SystemError
deriving DecidableEq

def Answer.success (value : Int) (data : QByteArray) : Answer := ⟨value, data, none⟩

/-- The answer of a read that returns these bytes. -/
def Answer.piece (bytes : QByteArray) : Answer := .success bytes.length bytes

def Answer.failure (error : SystemError) : Answer := ⟨-1, [], some error⟩

/-- What `whence` may say. -/
inductive Whence where
  | seekSet | seekCur | seekEnd | other
deriving DecidableEq

/-- The calls of GpgME. A buffer is a null pointer or one that has the size given with it. -/
inductive Call where
  | read (buffer : Bool) (bufSize : Nat)
  | write (bytes : QByteArray)
  | writeNull (bufSize : Nat)
  | seek (offset : Int) (whence : Whence)
  | release
deriving DecidableEq

end DataProvider

structure QByteArrayDataProvider where
  mArray : QByteArray
  mOff : Int
deriving DecidableEq

namespace QByteArrayDataProvider
open DataProvider QByteArray EventRun

def new (initialData : QByteArray) : QByteArrayDataProvider := ⟨initialData, 0⟩

/-- `memset` behind the old content; none where its size would be negative. -/
def resizeAndInit (qt : Qt) (ba : QByteArray) (size : Nat) : Option QByteArray :=
  let resized := resize qt ba size
  if size = resized.length then
    if ba.length ≤ size then
      some (resized.take ba.length ++ List.replicate (size - ba.length) 0)
    else none
  else some resized

/-- None where bytes in front of the array would be copied. -/
def read (p : QByteArrayDataProvider) (buffer : Bool) (bufSize : Nat) :
    Option (Answer × QByteArrayDataProvider) :=
  if bufSize = 0 then some (.success 0 [], p)
  else if buffer = false then some (.failure .einval, p)
  else if p.mArray.length ≤ p.mOff then some (.success 0 [], p)
  else if p.mOff < 0 then none
  else
    let amount := min bufSize (p.mArray.length - p.mOff.toNat)
    some (.success amount ((p.mArray.drop p.mOff.toNat).take amount),
      { p with mOff := p.mOff + amount })

/-- `memcpy` over the bytes at an offset. -/
def copyTo (ba : QByteArray) (offset : Nat) (bytes : QByteArray) : QByteArray :=
  ba.take offset ++ bytes ++ ba.drop (offset + bytes.length)

/-- The part of `write` behind the resizing. None where the assertion fails, or bytes in front
of the array would be overwritten. -/
def store (p : QByteArrayDataProvider) (bytes : QByteArray) :
    Option (Answer × QByteArrayDataProvider) :=
  if p.mArray.length ≤ p.mOff then some (.failure .eio, p)
  else if p.mOff < 0 ∨ p.mArray.length - p.mOff < bytes.length then none
  else some (.success bytes.length [],
    ⟨copyTo p.mArray p.mOff.toNat bytes, p.mOff + bytes.length⟩)

/-- The sum of the offset and the size is one of `size_t`. -/
def write (qt : Qt) (p : QByteArrayDataProvider) (bytes : QByteArray) :
    Option (Answer × QByteArrayDataProvider) :=
  if bytes = [] then some (.success 0 [], p)
  else if p.mArray.length ≤ p.mOff then
    (resizeAndInit qt p.mArray ((p.mOff + bytes.length).toNat % 2 ^ 64)).bind fun ba =>
      store { p with mArray := ba } bytes
  else store p bytes

def writeNull (p : QByteArrayDataProvider) (bufSize : Nat) : Answer × QByteArrayDataProvider :=
  if bufSize = 0 then (.success 0 [], p) else (.failure .einval, p)

/-- The value of an `int` that an integer is converted to. -/
def toInt (n : Int) : Int := n.bmod (2 ^ 32)

def seek (p : QByteArrayDataProvider) (offset : Int) (whence : Whence) :
    Answer × QByteArrayDataProvider :=
  let moved (newOffset : Int) := (Answer.success newOffset [], { p with mOff := newOffset })
  match whence with
  | .seekSet => moved (toInt offset)
  | .seekCur => moved (toInt (toInt p.mOff + offset))
  | .seekEnd => moved (toInt (p.mArray.length + offset))
  | .other => (.failure .einval, p)

def release (p : QByteArrayDataProvider) : QByteArrayDataProvider := { p with mArray := [] }

def step (qt : Qt) (p : QByteArrayDataProvider) : Call → Option (Answer × QByteArrayDataProvider)
  | .read buffer bufSize => p.read buffer bufSize
  | .write bytes => p.write qt bytes
  | .writeNull bufSize => some (p.writeNull bufSize)
  | .seek offset whence => some (p.seek offset whence)
  | .release => some (.success 0 [], p.release)

section write
variable {qt : Qt} {p : QByteArrayDataProvider} {ba bytes : QByteArray}

theorem length_resizeAndInit {size : Nat} {ba' : QByteArray}
    (h : resizeAndInit qt ba size = some ba') : ba'.length = newSize qt size := by
  simp only [resizeAndInit] at h
  split_ifs at h with heq hle
  · obtain rfl := Option.some.inj h
    rw [length_resize] at heq
    simp only [List.length_append, List.length_take, length_resize, List.length_replicate]
    omega
  · obtain rfl := Option.some.inj h
    exact length_resize qt ba size

theorem resizeAndInit_grows {size : Nat} (hle : ba.length ≤ size)
    (hlt : size < qt.version.sizeLimit) :
    resizeAndInit qt ba size = some (ba ++ List.replicate (size - ba.length) 0) := by
  have hnew : newSize qt size = size := newSize_of_lt hlt
  have hold : (resize qt ba size).take ba.length = ba := by
    rw [resize, hnew, List.take_of_length_le hle, List.take_left]
  simp only [resizeAndInit, length_resize, hnew, if_true]
  rw [if_pos hle, hold]

theorem resizeAndInit_keeps {size : Nat} (h : newSize qt size = ba.length) :
    resizeAndInit qt ba size = some ba := by
  by_cases heq : size = ba.length
  · obtain rfl := heq
    simp [resizeAndInit, resize_length h]
  · simp [resizeAndInit, resize_length h, heq]

theorem newSize_size_t (qt : Qt) (size : Nat) :
    newSize qt (size % 2 ^ 64) = newSize qt size := by
  have hdvd : 2 * qt.version.sizeLimit ∣ 2 ^ 64 := by
    cases qt.version <;> decide
  rw [newSize, newSize, Nat.mod_mod_of_dvd _ hdvd]

/-- The content that a write at an offset leaves: zeros up to the offset where the old content
ends in front of it. -/
def written (ba : QByteArray) (offset : Nat) (bytes : QByteArray) : QByteArray :=
  (ba ++ List.replicate (offset - ba.length) 0).take offset ++ bytes ++
    ba.drop (offset + bytes.length)

/-- A write that fails changes nothing, and any other one has written all its bytes. -/
def WriteMeets (qt : Qt) (p : QByteArrayDataProvider) (bytes : QByteArray) : Prop :=
  ∃ answer p', p.write qt bytes = some (answer, p') ∧
    (answer.value = -1 ∧ p' = p ∨
      answer.value = bytes.length ∧ p'.mOff = p.mOff + bytes.length ∧
        p'.mArray = written p.mArray p.mOff.toNat bytes)

/-- The write ends inside the data; or it starts at the end or behind it, and the size that it
needs can be had, or is one that `resize` takes for the present size. -/
def Room (qt : Qt) (p : QByteArrayDataProvider) (bytes : QByteArray) : Prop :=
  p.mOff + bytes.length ≤ p.mArray.length ∨
    p.mArray.length ≤ p.mOff ∧
      (p.mOff + bytes.length < qt.version.sizeLimit ∨
        newSize qt (p.mOff + bytes.length).toNat = p.mArray.length)

theorem store_inside {offset : Int} (hbytes : bytes ≠ []) (hoff : 0 ≤ offset)
    (h : offset + bytes.length ≤ ba.length) :
    store ⟨ba, offset⟩ bytes = some (.success bytes.length [],
      ⟨copyTo ba offset.toNat bytes, offset + bytes.length⟩) := by
  have hpos : 0 < bytes.length := List.length_pos_iff.mpr hbytes
  have hinside : ¬(ba.length : Int) ≤ offset := by omega
  have hfits : ¬(offset < 0 ∨ (ba.length : Int) - offset < bytes.length) := by omega
  rw [store, if_neg hinside, if_neg hfits]

theorem write_inside (hbytes : bytes ≠ []) (hoff : 0 ≤ p.mOff)
    (h : p.mOff + bytes.length ≤ p.mArray.length) :
    p.write qt bytes = some (.success bytes.length [],
      ⟨written p.mArray p.mOff.toNat bytes, p.mOff + bytes.length⟩) := by
  have hpos : 0 < bytes.length := List.length_pos_iff.mpr hbytes
  have hno : p.mOff.toNat - p.mArray.length = 0 := by omega
  rw [write, if_neg hbytes, if_neg (by omega), store_inside hbytes hoff h, copyTo, written, hno,
    List.replicate_zero, List.append_nil]

/-- A write at the end, or behind it, with zeros in between. -/
theorem write_behind (hbytes : bytes ≠ []) (h : p.mArray.length ≤ p.mOff)
    (hlt : p.mOff + bytes.length < qt.version.sizeLimit) :
    p.write qt bytes = some (.success bytes.length [],
      ⟨written p.mArray p.mOff.toNat bytes, p.mOff + bytes.length⟩) := by
  have hlimit : qt.version.sizeLimit < 2 ^ 64 := by
    cases qt.version <;> decide
  have hsize : (p.mOff + bytes.length).toNat % 2 ^ 64 = p.mOff.toNat + bytes.length := by
    rw [Nat.mod_eq_of_lt (by omega)]
    omega
  have hgrown : resizeAndInit qt p.mArray (p.mOff.toNat + bytes.length) =
      some (p.mArray ++ List.replicate (p.mOff.toNat + bytes.length - p.mArray.length) 0) :=
    resizeAndInit_grows (by omega) (by omega)
  have hzeros : p.mOff.toNat + bytes.length - p.mArray.length =
      p.mOff.toNat - p.mArray.length + bytes.length := by
    omega
  have hoff : 0 ≤ p.mOff := by omega
  rw [write, if_neg hbytes, if_pos h, hsize, hgrown, Option.bind_some,
    store_inside hbytes hoff (by simp; omega)]
  have hcontent : copyTo
      (p.mArray ++ List.replicate (p.mOff.toNat + bytes.length - p.mArray.length) 0)
      p.mOff.toNat bytes = written p.mArray p.mOff.toNat bytes := by
    have hfront : p.mOff.toNat =
        (p.mArray ++ List.replicate (p.mOff.toNat - p.mArray.length) (0 : UInt8)).length := by
      simp
      omega
    have hend : p.mArray.drop (p.mOff.toNat + bytes.length) = [] :=
      List.drop_eq_nil_of_le (by omega)
    have hend' : (p.mArray ++ List.replicate (p.mOff.toNat + bytes.length - p.mArray.length)
        (0 : UInt8)).drop (p.mOff.toNat + bytes.length) = [] :=
      List.drop_eq_nil_of_le (by simp; omega)
    rw [copyTo, written, hend, hend', hzeros, List.replicate_add, ← List.append_assoc]
    rw [List.take_append_of_le_length hfront.le]
  rw [hcontent]

/-- A write that starts inside the data has to end inside it. -/
theorem writeMeets_iff (hoff : 0 ≤ p.mOff) (hbytes : bytes ≠ []) :
    WriteMeets qt p bytes ↔ Room qt p bytes := by
  have hpos : 0 < bytes.length := List.length_pos_iff.mpr hbytes
  constructor
  · intro h
    obtain ⟨answer, p', hwrite, h⟩ := h
    rw [write, if_neg hbytes] at hwrite
    by_cases hend : p.mArray.length ≤ p.mOff
    · rw [if_pos hend] at hwrite
      obtain ⟨ba, hba, hstore⟩ := Option.bind_eq_some_iff.mp hwrite
      have hlen : ba.length = newSize qt (p.mOff + bytes.length).toNat := by
        rw [length_resizeAndInit hba, newSize_size_t]
      refine Or.inr ⟨hend, ?_⟩
      simp only [store] at hstore
      split_ifs at hstore with hpast hout
      · obtain ⟨rfl, rfl⟩ := Prod.mk.inj (Option.some.inj hstore)
        cases h with
        | inl h =>
          have heq : ba = p.mArray := congrArg mArray h.2
          exact Or.inr (by rw [← hlen, heq])
        | inr h =>
          have hvalue : (-1 : Int) = bytes.length := h.1
          omega
      · have hle := newSize_le qt (p.mOff + bytes.length).toNat
        have hlt := newSize_lt qt (p.mOff + bytes.length).toNat
        exact Or.inl (by omega)
    · rw [if_neg hend] at hwrite
      simp only [store, if_neg hend] at hwrite
      split_ifs at hwrite with hout
      exact Or.inl (by omega)
  · intro h
    cases h with
    | inl h => exact ⟨_, _, write_inside hbytes hoff h, Or.inr ⟨rfl, rfl, rfl⟩⟩
    | inr h =>
      obtain ⟨hend, h⟩ := h
      cases h with
      | inl h => exact ⟨_, _, write_behind hbytes hend h, Or.inr ⟨rfl, rfl, rfl⟩⟩
      | inr h =>
        have hkept : resizeAndInit qt p.mArray ((p.mOff + bytes.length).toNat % 2 ^ 64) =
            some p.mArray := resizeAndInit_keeps (by rw [newSize_size_t]; exact h)
        have hfail : p.write qt bytes = some (.failure .eio, p) := by
          rw [write, if_neg hbytes, if_pos hend, hkept, Option.bind_some, store, if_pos hend]
        exact ⟨_, _, hfail, Or.inl ⟨rfl, rfl⟩⟩

/-- Chunks written at the end, one after the other. -/
theorem writes_concatenate {chunks : List QByteArray} (hchunks : ∀ c ∈ chunks, c ≠ [])
    (htotal : ba.length + chunks.flatten.length < qt.version.sizeLimit) :
    answers (step qt) (chunks.map .write) ⟨ba, ba.length⟩ =
      some (chunks.map fun c => .success c.length [],
        ⟨ba ++ chunks.flatten, (ba ++ chunks.flatten).length⟩) := by
  induction chunks generalizing ba with
  | nil => simp [answers]
  | cons c chunks ih =>
    obtain ⟨hc, hchunks⟩ := List.forall_mem_cons.mp hchunks
    rw [List.flatten_cons, List.length_append] at htotal
    have hroom : (ba.length : Int) + c.length < qt.version.sizeLimit := by omega
    have hbehind := @write_behind qt ⟨ba, ba.length⟩ c hc (Int.le_refl _) hroom
    have hwritten : written ba (ba.length : Int).toNat c = ba ++ c := by
      simp [written]
    rw [hwritten, ← Int.natCast_add, ← List.length_append] at hbehind
    have hlater := @ih (ba ++ c) hchunks (by rw [List.length_append]; omega)
    rw [List.append_assoc, ← List.flatten_cons] at hlater
    exact answers_cons hbehind hlater

end write

/-- The state after a call. -/
def next (qt : Qt) (p : QByteArrayDataProvider) (call : Call) : Option QByteArrayDataProvider :=
  (step qt p call).map Prod.snd

/-- A property of the writes of a run, where they have bytes and do not start in front of the
array. -/
def OfWrites (ok : QByteArrayDataProvider → QByteArray → Prop) (p : QByteArrayDataProvider)
    (call : Call) : Prop :=
  ∀ bytes, call = .write bytes → bytes ≠ [] → 0 ≤ p.mOff → ok p bytes

/-- The writes of a run of calls do what they should just where each of them has room. -/
theorem writes_meet_iff (qt : Qt) (initialData : QByteArray) (calls : List Call) :
    Along (next qt) (OfWrites (WriteMeets qt)) calls (new initialData) ↔
      Along (next qt) (OfWrites (Room qt)) calls (new initialData) := by
  have hcall : ∀ p call, True → (OfWrites (WriteMeets qt) p call ↔ OfWrites (Room qt) p call) := by
    intro p call _
    constructor
    · intro h bytes hcall hbytes hoff
      exact (writeMeets_iff hoff hbytes).mp (h bytes hcall hbytes hoff)
    · intro h bytes hcall hbytes hoff
      exact (writeMeets_iff hoff hbytes).mpr (h bytes hcall hbytes hoff)
  exact along_congr (fun _ _ _ _ _ _ => trivial) hcall trivial calls

/-- Four bytes over the last two of six. -/
theorem write_past_end :
    ∃ p, run (next ⟨.qt6, fun _ => 0⟩) [.seek 4 .seekSet] (new [1, 2, 3, 4, 5, 6]) = some p ∧
      0 ≤ p.mOff ∧ p.write ⟨.qt6, fun _ => 0⟩ [7, 8, 9, 10] = none ∧
      ¬WriteMeets ⟨.qt6, fun _ => 0⟩ p [7, 8, 9, 10] := by
  have hnone : write ⟨.qt6, fun _ => 0⟩ ⟨[1, 2, 3, 4, 5, 6], 4⟩ [7, 8, 9, 10] = none := rfl
  refine ⟨⟨[1, 2, 3, 4, 5, 6], 4⟩, rfl, by decide, hnone, ?_⟩
  intro h
  obtain ⟨answer, p', hwrite, -⟩ := h
  rw [hnone] at hwrite
  exact absurd hwrite (by simp)

section read
variable {p : QByteArrayDataProvider}

/-- What reads from here on can still return. -/
def remaining (p : QByteArrayDataProvider) : QByteArray := p.mArray.drop p.mOff.toNat

theorem read_piece (hoff : 0 ≤ p.mOff) {bufSize : Nat} (hsize : 0 < bufSize) :
    ∃ p', p.read true bufSize = some (.piece (p.remaining.take bufSize), p') ∧ 0 ≤ p'.mOff ∧
      p'.mArray = p.mArray ∧ p'.remaining = p.remaining.drop bufSize := by
  by_cases hend : p.mArray.length ≤ p.mOff
  · have hnil : p.remaining = [] := List.drop_eq_nil_of_le (by omega)
    refine ⟨p, ?_, hoff, rfl, by rw [hnil, List.drop_nil]⟩
    rw [QByteArrayDataProvider.read, if_neg (by omega), if_neg (by decide), if_pos hend, hnil,
      List.take_nil]
    rfl
  · have hlen : p.remaining.length = p.mArray.length - p.mOff.toNat := List.length_drop
    have htake : p.remaining.take (min bufSize (p.mArray.length - p.mOff.toNat)) =
        p.remaining.take bufSize := by
      rw [← hlen, ← List.take_eq_take_min]
    have hamount : (p.remaining.take bufSize).length =
        min bufSize (p.mArray.length - p.mOff.toNat) := by
      rw [List.length_take, hlen]
    refine ⟨⟨p.mArray, p.mOff + (p.remaining.take bufSize).length⟩, ?_, ?_, rfl, ?_⟩
    · rw [QByteArrayDataProvider.read, if_neg (by omega), if_neg (by decide), if_neg hend,
        if_neg (by omega), ← remaining]
      simp only [htake]
      simp only [hamount, Answer.piece]
    · exact Int.add_nonneg hoff (Int.natCast_nonneg _)
    · have hnat : (p.mOff + (p.remaining.take bufSize).length).toNat =
          p.mOff.toNat + min bufSize p.remaining.length := by
        rw [List.length_take]
        omega
      rw [remaining, hnat, ← List.drop_drop, ← remaining]
      by_cases hall : bufSize ≤ p.remaining.length
      · rw [min_eq_left hall]
      · have hle : p.remaining.length ≤ bufSize := by omega
        rw [min_eq_right hle, List.drop_length, List.drop_eq_nil_of_le hle]

theorem reads_pieces {qt : Qt} (hoff : 0 ≤ p.mOff) {sizes : List Nat}
    (hsizes : ∀ n ∈ sizes, 0 < n) :
    ∃ p', answers (step qt) (sizes.map (.read true)) p =
      some ((pieces p.remaining sizes).map .piece, p') ∧ p'.mArray = p.mArray := by
  induction sizes generalizing p with
  | nil => exact ⟨p, rfl, rfl⟩
  | cons n sizes ih =>
    obtain ⟨hn, hsizes⟩ := List.forall_mem_cons.mp hsizes
    obtain ⟨q, hread, hq, harray, hrest⟩ := read_piece hoff hn
    obtain ⟨p', hreads, harray'⟩ := ih hq hsizes
    rw [hrest] at hreads
    exact ⟨p', answers_cons hread hreads, harray'.trans harray⟩

theorem data_map_piece (parts : List QByteArray) :
    (parts.map Answer.piece).map Answer.data = parts := by
  rw [List.map_map]
  exact List.map_id parts

/-- A read of no bytes comes only after the whole text. -/
theorem flatten_before_zero {text : QByteArray} {sizes : List Nat} (hsizes : ∀ n ∈ sizes, 0 < n)
    {before after : List Answer} {read : Answer}
    (hsplit : (pieces text sizes).map .piece = before ++ read :: after)
    (hzero : read.value = 0) : (before.map Answer.data).flatten = text := by
  obtain ⟨front, back, hpieces, rfl, hback⟩ := List.map_eq_append_iff.mp hsplit
  obtain ⟨part, later, rfl, rfl, -⟩ := List.map_eq_cons_iff.mp hback
  have hnil : part = [] := by simpa [Answer.piece, Answer.success] using hzero
  have hpiece : getElem? (pieces text sizes) front.length = some [] := by
    simp [hpieces, hnil]
  have hlt : front.length < sizes.length := by
    rw [← length_pieces text sizes, hpieces, List.length_append, List.length_cons]
    omega
  have hread := flatten_of_piece_nil (hsizes _ (List.getElem_mem hlt))
    (List.getElem?_eq_getElem hlt) hpiece
  rw [← take_pieces, hpieces, List.take_left] at hread
  rw [data_map_piece, hread]

/-- What the chunks written one after the other come to is what the reads after a rewind
return, up to where these end. -/
theorem write_then_read (qt : Qt) {chunks : List QByteArray} (hchunks : ∀ c ∈ chunks, c ≠ [])
    (htotal : chunks.flatten.length < 2 ^ 31) {sizes : List Nat} (hsizes : ∀ n ∈ sizes, 0 < n) :
    ∃ p rewound p' reads,
      answers (step qt) (chunks.map .write) (new []) =
        some (chunks.map fun c => .success c.length [], p) ∧
      p.mArray = chunks.flatten ∧
      step qt p (.seek 0 .seekSet) = some (.success 0 [], rewound) ∧
      answers (step qt) (sizes.map (.read true)) rewound = some (reads, p') ∧
      (∀ read ∈ reads, read.value = read.data.length) ∧
      (reads.map Answer.data).flatten <+: chunks.flatten ∧
      (∀ before read after, reads = before ++ read :: after → read.value = 0 →
        (before.map Answer.data).flatten = chunks.flatten) ∧
      (∀ k, chunks.flatten.length ≤ (sizes.take k).sum →
        ((reads.take k).map Answer.data).flatten = chunks.flatten ∧
          ∀ read ∈ reads.drop k, read.value = 0) := by
  have hlimit : 2 ^ 31 ≤ qt.version.sizeLimit := by
    cases qt.version <;> decide
  have hwrites := @writes_concatenate qt [] chunks hchunks (by rw [List.length_nil]; omega)
  have hrest : remaining ⟨chunks.flatten, 0⟩ = chunks.flatten := by simp [remaining]
  obtain ⟨p', hreads, -⟩ :=
    @reads_pieces ⟨chunks.flatten, 0⟩ qt (Int.le_refl 0) sizes hsizes
  rw [hrest] at hreads
  refine ⟨_, ⟨chunks.flatten, 0⟩, p', _, hwrites, rfl, rfl, hreads, ?_, ?_, ?_, ?_⟩
  · intro read hread
    obtain ⟨part, -, rfl⟩ := List.mem_map.mp hread
    rfl
  · rw [data_map_piece, flatten_pieces]
    exact List.take_prefix _ _
  · intro before read after hsplit hzero
    exact flatten_before_zero hsizes hsplit hzero
  · intro k hk
    rw [← List.map_take, ← List.map_drop, take_pieces, drop_pieces, data_map_piece, flatten_pieces,
      List.take_of_length_le hk, List.drop_eq_nil_of_le hk]
    refine ⟨rfl, fun read hread => ?_⟩
    obtain ⟨part, hpart, rfl⟩ := List.mem_map.mp hread
    rw [pieces_nil hpart]
    rfl

/-- Five bytes in two chunks, read in threes. -/
theorem write_then_read_five :
    ∃ p rewound p' reads,
      answers (step ⟨.qt6, fun _ => 0⟩) ([[1, 2], [3, 4, 5]].map .write) (new []) =
        some ([[1, 2], [3, 4, 5]].map fun c : QByteArray => .success c.length [], p) ∧
      p.mArray = [1, 2, 3, 4, 5] ∧
      step ⟨.qt6, fun _ => 0⟩ p (.seek 0 .seekSet) = some (.success 0 [], rewound) ∧
      answers (step ⟨.qt6, fun _ => 0⟩) ([3, 3, 3].map (.read true)) rewound =
        some (reads, p') ∧
      ((reads.take 2).map Answer.data).flatten = [1, 2, 3, 4, 5] := by
  obtain ⟨p, rewound, p', reads, hwrites, harray, hseek, hreads, -, -, -, hall⟩ :=
    @write_then_read ⟨.qt6, fun _ => 0⟩ [[1, 2], [3, 4, 5]] (by decide) (by decide) [3, 3, 3]
      (by decide)
  exact ⟨p, rewound, p', reads, hwrites, harray, hseek, hreads, (hall 2 (by decide)).1⟩

end read

end QByteArrayDataProvider

end QGpgME
