import QGpgME.Client
import QGpgME.DataProviderSeek
import QGpgME.QIODeviceDataProvider

/-! Data that GpgME reads and writes through a QIODevice, or in a byte array: no client can tell
a buffer from an array that holds the same bytes. -/
namespace QGpgME.DataDevices
open DataProvider QByteArrayDataProvider

/-- A QBuffer that has been opened. -/
structure QBuffer where
  data : QByteArray
  ioIndex : Nat
  readable : Bool
  writable : Bool
deriving DecidableEq

namespace QBuffer

/-- `setData`, then `open(QIODevice::ReadOnly)`. -/
def readOnly (data : QByteArray) : QBuffer := ⟨data, 0, true, false⟩

def read (d : QBuffer) (maxSize : Nat) : QIODeviceDataProvider.Answer × QBuffer :=
  if d.readable then
    let bytes := (d.data.drop d.ioIndex).take maxSize
    (⟨bytes.length, bytes, 0⟩, { d with ioIndex := d.ioIndex + bytes.length })
  else (⟨-1, [], 0⟩, d)

def write (qt : Qt) (d : QBuffer) (bytes : QByteArray) :
    QIODeviceDataProvider.Answer × QBuffer :=
  if d.writable ∧ d.ioIndex + bytes.length < qt.version.sizeLimit then
    (⟨bytes.length, [], 0⟩,
      { d with data := written d.data d.ioIndex bytes, ioIndex := d.ioIndex + bytes.length })
  else (⟨-1, [], 0⟩, d)

/-- A buffer that can be written grows when it is left behind its end. -/
def seek (d : QBuffer) (pos : Int) : Bool × QBuffer :=
  if pos < 0 then (false, d)
  else if pos.toNat ≤ d.data.length then (true, { d with ioIndex := pos.toNat })
  else if d.writable then
    (true, { d with
      data := d.data ++ List.replicate (pos.toNat - d.data.length) 0, ioIndex := pos.toNat })
  else (false, d)

/-- What the buffer tells a provider that seeks. -/
def position (d : QBuffer) : QIODeviceDataProvider.Position :=
  ⟨false, d.ioIndex, d.data.length, fun pos => (d.seek pos).1⟩

end QBuffer

/-- A call of a provider for a buffer. No system error is set before it. -/
def deviceStep (qt : Qt) (s : QIODeviceDataProvider × QBuffer) :
    Call → Option (QIODeviceDataProvider.Answer × (QIODeviceDataProvider × QBuffer))
  | .read buffer bufSize =>
    let (answer, p) := s.1.read buffer bufSize 0 [] (s.2.read bufSize).1
    some (answer, p, if bufSize = 0 ∨ buffer = false then s.2 else (s.2.read bufSize).2)
  | .write bytes =>
    let answer := QIODeviceDataProvider.write true bytes.length 0 (s.2.write qt bytes).1
    some (answer, s.1, if bytes = [] then s.2 else (s.2.write qt bytes).2)
  | .writeNull bufSize => some (QIODeviceDataProvider.write false bufSize 0 ⟨0, [], 0⟩, s)
  | .seek offset whence =>
    let answer := QIODeviceDataProvider.seek offset whence 0 s.2.position
    some (answer, s.1, if answer.errno = 0 then (s.2.seek answer.value).2 else s.2)
  | .release => some (⟨0, [], 0⟩, s.1, { s.2 with readable := false, writable := false })

/-- The value of `errno` for an error. -/
def errnoOf : Option SystemError → Nat
  | none => 0
  | some .eio => QIODeviceDataProvider.EIO
  | some .ebadf => 9
  | some .einval => QIODeviceDataProvider.EINVAL

/-- A call of a provider for a byte array. -/
def byteArrayStep (qt : Qt) (p : QByteArrayDataProvider) (c : Call) :
    Option (QIODeviceDataProvider.Answer × QByteArrayDataProvider) :=
  (p.step qt c).map fun a => (⟨a.1.value, a.1.data, errnoOf a.1.error⟩, a.2)

/-- A call that stays inside the data, or writes on from its end, with sizes that the container
and `int` can hold. -/
def Inside (qt : Qt) (readable writable : Bool) (p : QByteArrayDataProvider) : Call → Prop
  | .read _ _ => readable = true
  | .write bytes => writable = true ∧ p.mOff + bytes.length < qt.version.sizeLimit ∧
      (p.mOff + bytes.length ≤ p.mArray.length ∨ p.mOff = p.mArray.length)
  | .writeNull _ => True
  | .seek offset whence => ∀ t ∈ p.target offset whence, 0 ≤ t ∧ t < 2 ^ 31 ∧ t ≤ p.mArray.length
  | .release => False

/-- The buffer holds what the array holds. -/
structure Same (readable writable : Bool) (p : QByteArrayDataProvider)
    (s : QIODeviceDataProvider × QBuffer) : Prop where
  provider : s.1 = .new false
  data : s.2.data = p.mArray
  offset : (s.2.ioIndex : Int) = p.mOff
  inside : s.2.ioIndex ≤ s.2.data.length
  readable : s.2.readable = readable
  writable : s.2.writable = writable

section same
variable {qt : Qt} {r w : Bool} {p : QByteArrayDataProvider} {q : QIODeviceDataProvider}
  {d : QBuffer} {bytes : QByteArray} {i : Nat}

theorem Same.eta (h : Same r w p (q, d)) : p = ⟨d.data, d.ioIndex⟩ ∧ q = .new false := by
  obtain ⟨hq, hdata, hoff, -, -, -⟩ := h
  exact ⟨by rw [hdata, hoff], hq⟩

theorem Same.of_offset (h : Same r w p (q, d)) (hi : i ≤ d.data.length) :
    Same r w ⟨d.data, i⟩ (q, { d with ioIndex := i }) :=
  ⟨h.provider, rfl, rfl, hi, h.readable, h.writable⟩

theorem byteArray_read (data : QByteArray) (i : Nat) {bufSize : Nat} (hsize : bufSize ≠ 0) :
    byteArrayStep qt ⟨data, i⟩ (.read true bufSize) =
      some (⟨((data.drop i).take bufSize).length, (data.drop i).take bufSize, 0⟩,
        ⟨data, (i + ((data.drop i).take bufSize).length : Nat)⟩) := by
  by_cases hend : data.length ≤ i
  · have hnil : data.drop i = [] := List.drop_eq_nil_of_le hend
    simp [byteArrayStep, step, QByteArrayDataProvider.read, hsize, hend, hnil, Answer.success,
      errnoOf]
  · have htake : (data.drop i).take (min bufSize (data.length - i)) =
        (data.drop i).take bufSize := by
      rw [← List.length_drop, ← List.take_eq_take_min]
    have hneg : ¬((i : Int) < 0) := by omega
    simp [byteArrayStep, step, QByteArrayDataProvider.read, hsize, hend, hneg, Answer.success,
      errnoOf, htake]

/-- An answer of the device that is no failure is passed on. -/
theorem read_of_device {bufSize : Nat} (hsize : bufSize ≠ 0)
    {device : QIODeviceDataProvider.Answer} (hvalue : ¬device.value < 0) :
    QIODeviceDataProvider.read (.new false) true bufSize 0 [] device = (device, .new false) := by
  have hpassed : ¬(device.value < 0 ∧
      QIODeviceDataProvider.hasSystemError device.errno = false) := fun h => hvalue h.1
  rw [QIODeviceDataProvider.read, if_neg hsize, if_neg (by decide)]
  simp only [QIODeviceDataProvider.numRead, QIODeviceDataProvider.new, Bool.false_eq_true, if_false,
    if_neg hpassed, if_neg hvalue]

theorem device_read (hr : d.readable = true) {bufSize : Nat} (hsize : bufSize ≠ 0) :
    deviceStep qt (.new false, d) (.read true bufSize) =
      some (⟨((d.data.drop d.ioIndex).take bufSize).length,
          (d.data.drop d.ioIndex).take bufSize, 0⟩, .new false,
        { d with ioIndex := d.ioIndex + ((d.data.drop d.ioIndex).take bufSize).length }) := by
  have hmoved : ¬(bufSize = 0 ∨ true = false) := by simp [hsize]
  simp only [deviceStep, QBuffer.read, if_pos hr]
  rw [read_of_device hsize (Int.not_lt.mpr (Int.natCast_nonneg _)), if_neg hmoved]

theorem same_read (h : Same r w p (q, d)) (hr : r = true) (buffer : Bool) (bufSize : Nat) :
    ∃ a p' s', byteArrayStep qt p (.read buffer bufSize) = some (a, p') ∧
      deviceStep qt (q, d) (.read buffer bufSize) = some (a, s') ∧ Same r w p' s' := by
  obtain ⟨rfl, rfl⟩ := h.eta
  by_cases hzero : bufSize = 0
  · refine ⟨⟨0, [], 0⟩, _, (.new false, d), ?_, ?_, h⟩
    · simp [byteArrayStep, step, QByteArrayDataProvider.read, Answer.success, errnoOf, hzero]
    · simp [deviceStep, QIODeviceDataProvider.read, hzero]
  · cases buffer with
    | false =>
      refine ⟨⟨-1, [], 22⟩, _, (.new false, d), ?_, ?_, h⟩
      · simp [byteArrayStep, step, QByteArrayDataProvider.read, hzero, Answer.failure, errnoOf,
          QIODeviceDataProvider.EINVAL]
      · simp [deviceStep, QIODeviceDataProvider.read, hzero, QIODeviceDataProvider.EINVAL]
    | true =>
      refine ⟨_, _, _, byteArray_read _ _ hzero, device_read (h.readable.trans hr) hzero, ?_⟩
      refine h.of_offset ?_
      have hin : d.ioIndex ≤ d.data.length := h.inside
      rw [List.length_take, List.length_drop]
      omega

theorem length_written (data : QByteArray) (hi : i ≤ data.length) :
    i + bytes.length ≤ (written data i bytes).length := by
  have hno : i - data.length = 0 := by omega
  simp [written, hno]
  omega

theorem byteArray_write (hbytes : bytes ≠ [])
    (hlt : (i : Int) + bytes.length < qt.version.sizeLimit)
    (hroom : (i : Int) + bytes.length ≤ d.data.length ∨ (i : Int) = d.data.length) :
    byteArrayStep qt ⟨d.data, i⟩ (.write bytes) = some (⟨bytes.length, [], 0⟩,
      ⟨written d.data i bytes, (i + bytes.length : Nat)⟩) := by
  have hwrite : write qt ⟨d.data, i⟩ bytes = some (.success bytes.length [],
      ⟨written d.data i bytes, (i : Int) + bytes.length⟩) := by
    cases hroom with
    | inl h => exact write_inside hbytes (Int.natCast_nonneg i) h
    | inr h => exact write_behind hbytes (Int.le_of_eq h.symm) hlt
  simp [byteArrayStep, step, hwrite, Answer.success, errnoOf]

theorem same_write (h : Same r w p (q, d)) (hw : w = true)
    (hlt : p.mOff + bytes.length < qt.version.sizeLimit)
    (hroom : p.mOff + bytes.length ≤ p.mArray.length ∨ p.mOff = p.mArray.length) :
    ∃ a p' s', byteArrayStep qt p (.write bytes) = some (a, p') ∧
      deviceStep qt (q, d) (.write bytes) = some (a, s') ∧ Same r w p' s' := by
  obtain ⟨rfl, rfl⟩ := h.eta
  have hin : d.ioIndex ≤ d.data.length := h.inside
  by_cases hbytes : bytes = []
  · refine ⟨⟨0, [], 0⟩, _, (.new false, d), ?_, ?_, h⟩
    · simp [byteArrayStep, step, QByteArrayDataProvider.write, hbytes, Answer.success, errnoOf]
    · simp [deviceStep, QIODeviceDataProvider.write, hbytes]
  · refine ⟨_, _, (.new false, { d with
        data := written d.data d.ioIndex bytes, ioIndex := d.ioIndex + bytes.length }),
      byteArray_write hbytes hlt hroom, ?_, ?_⟩
    · have hwritable : d.writable = true := h.writable.trans hw
      have hlt' : d.ioIndex + bytes.length < qt.version.sizeLimit := by
        have hlt'' : (d.ioIndex : Int) + bytes.length < qt.version.sizeLimit := hlt
        omega
      simp [deviceStep, QIODeviceDataProvider.write, QBuffer.write, hbytes, hwritable, hlt']
    · exact ⟨rfl, rfl, rfl, length_written d.data hin, h.readable, h.writable⟩

theorem same_writeNull (h : Same r w p (q, d)) (bufSize : Nat) :
    ∃ a p' s', byteArrayStep qt p (.writeNull bufSize) = some (a, p') ∧
      deviceStep qt (q, d) (.writeNull bufSize) = some (a, s') ∧ Same r w p' s' := by
  by_cases hzero : bufSize = 0
  · refine ⟨⟨0, [], 0⟩, p, (q, d), ?_, ?_, h⟩
    · simp [byteArrayStep, step, writeNull, hzero, Answer.success, errnoOf]
    · simp [deviceStep, QIODeviceDataProvider.write, hzero]
  · refine ⟨⟨-1, [], 22⟩, p, (q, d), ?_, ?_, h⟩
    · simp [byteArrayStep, step, writeNull, hzero, Answer.failure, errnoOf,
        QIODeviceDataProvider.EINVAL]
    · simp [deviceStep, QIODeviceDataProvider.write, hzero, QIODeviceDataProvider.EINVAL]

theorem device_seek {t : Int} {offset : Int} {whence : Whence}
    (ht : target ⟨d.data, d.ioIndex⟩ offset whence = some t) (h0 : 0 ≤ t) (hint : t < 2 ^ 31)
    (hle : t ≤ d.data.length) :
    deviceStep qt (q, d) (.seek offset whence) =
      some (⟨t, [], 0⟩, q, { d with ioIndex := t.toNat }) := by
  have hmod : t.bmod (2 ^ 64) = t := Int.bmod_eq_of_le (by omega) (by omega)
  have hseek : d.seek t = (true, { d with ioIndex := t.toNat }) := by
    rw [QBuffer.seek, if_neg (by omega), if_pos (by omega)]
  have hanswer : QIODeviceDataProvider.seek offset whence 0 d.position = ⟨t, [], 0⟩ := by
    cases whence with
    | seekSet =>
      obtain rfl := Option.some.inj ht
      simp [QIODeviceDataProvider.seek, QBuffer.position, hseek]
    | seekCur =>
      have hsum : (d.ioIndex + offset).bmod (2 ^ 64) = t := by rw [Option.some.inj ht, hmod]
      simp only [QIODeviceDataProvider.seek, QBuffer.position, hsum, hseek, Bool.false_eq_true,
        if_false, if_true]
    | seekEnd =>
      have hsum : (d.data.length + offset).bmod (2 ^ 64) = t := by rw [Option.some.inj ht, hmod]
      simp only [QIODeviceDataProvider.seek, QBuffer.position, hsum, hseek, Bool.false_eq_true,
        if_false, if_true]
    | other => simp [target] at ht
  simp [deviceStep, hanswer, hseek]

theorem same_seek (h : Same r w p (q, d)) {offset : Int} {whence : Whence}
    (ht : ∀ t ∈ p.target offset whence, 0 ≤ t ∧ t < 2 ^ 31 ∧ t ≤ p.mArray.length) :
    ∃ a p' s', byteArrayStep qt p (.seek offset whence) = some (a, p') ∧
      deviceStep qt (q, d) (.seek offset whence) = some (a, s') ∧ Same r w p' s' := by
  obtain ⟨rfl, rfl⟩ := h.eta
  cases hp : target ⟨d.data, d.ioIndex⟩ offset whence with
  | none =>
    obtain rfl : whence = .other := by cases whence <;> simp [target] at hp ⊢
    refine ⟨⟨-1, [], 22⟩, _, (.new false, d), ?_, ?_, h⟩
    · simp [byteArrayStep, step, seek, Answer.failure, errnoOf, QIODeviceDataProvider.EINVAL]
    · simp [deviceStep, QIODeviceDataProvider.seek, QBuffer.position, QIODeviceDataProvider.EINVAL]
  | some t =>
    obtain ⟨h0, hint, hle⟩ := ht t hp
    have hle : t ≤ d.data.length := hle
    have hto : ((t.toNat : Nat) : Int) = t := by omega
    refine ⟨⟨t, [], 0⟩, ⟨d.data, t.toNat⟩, (.new false, { d with ioIndex := t.toNat }), ?_,
      device_seek hp h0 hint hle, h.of_offset (by omega)⟩
    simp [byteArrayStep, step, seek_target hp, toInt_of_int h0 hint, Answer.success, errnoOf, hto]

/-- A buffer answers every call inside the data just as a byte array does. -/
theorem same_step (qt : Qt) (r w : Bool) :
    Client.Simulates (byteArrayStep qt) (Inside qt r w) (deviceStep qt) (Same r w) := by
  rintro p ⟨q, d⟩ c h hc
  cases c with
  | read buffer bufSize => exact same_read h hc buffer bufSize
  | write bytes => exact same_write h hc.1 hc.2.1 hc.2.2
  | writeNull bufSize => exact same_writeNull h bufSize
  | seek offset whence => exact same_seek h hc
  | release => exact absurd hc id

/-- A client that stays inside the data gets the same from a buffer as from a byte array, and
leaves the same data in both. -/
theorem serve_buffer {ρ : Type*} (client : Client Call QIODeviceDataProvider.Answer ρ)
    (data : QByteArray) (h : client.Along (byteArrayStep qt) (Inside qt r w) (.new data)) :
    ∃ result p q d, client.serve (byteArrayStep qt) (.new data) = some (result, p) ∧
      client.serve (deviceStep qt) (.new false, ⟨data, 0, r, w⟩) = some (result, q, d) ∧
      d.data = p.mArray ∧ (d.ioIndex : Int) = p.mOff := by
  have hsame : Same r w (.new data) (.new false, ⟨data, 0, r, w⟩) :=
    ⟨rfl, rfl, rfl, Nat.zero_le _, rfl, rfl⟩
  obtain ⟨result, p, ⟨q, d⟩, harray, hdevice, hend⟩ := (same_step qt r w).serve client hsame h
  exact ⟨result, p, q, d, harray, hdevice, hend.data, hend.offset⟩

/-- Two bytes are read, and three are written over the last of them and on behind it. -/
theorem serve_buffer_overwrites :
    ∃ result p q d,
      (Client.ask (.read true 2) fun a => .ask (.seek (-1) .seekEnd) fun _ =>
          .ask (.write [7]) fun _ => .ask (.write [8, 9]) fun _ => .done a.data).serve
        (byteArrayStep ⟨.qt5, fun _ => 0⟩) (.new [1, 2, 3]) = some (result, p) ∧
      (Client.ask (.read true 2) fun a => .ask (.seek (-1) .seekEnd) fun _ =>
          .ask (.write [7]) fun _ => .ask (.write [8, 9]) fun _ => .done a.data).serve
        (deviceStep ⟨.qt5, fun _ => 0⟩) (.new false, ⟨[1, 2, 3], 0, true, true⟩) =
          some (result, q, d) ∧
      d.data = p.mArray ∧ (d.ioIndex : Int) = p.mOff := by
  refine serve_buffer _ _ ⟨rfl, fun a ha => ?_⟩
  obtain rfl := Option.some.inj ha
  refine ⟨fun t ht => ?_, fun a ha => ?_⟩
  · obtain rfl := Option.some.inj ht
    decide
  obtain rfl := Option.some.inj ha
  refine ⟨⟨rfl, by decide, Or.inl (by decide)⟩, fun a ha => ?_⟩
  obtain rfl := Option.some.inj ha
  exact ⟨⟨rfl, by decide, Or.inr (by decide)⟩, fun _ _ => trivial⟩

end same

end QGpgME.DataDevices
