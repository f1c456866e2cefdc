import QGpgME.DataDevices
import QGpgME.FileWorkers

/-! The workers that take their data from a device or a byte array: started with arrays, a job
does what it does with buffers that hold them. -/
namespace QGpgME.DeviceJobs
open DataProvider DataDevices QByteArrayDataProvider
open FileWorkers (EncryptionFlags SignatureMode)
variable {Key R : Type*}

/-- The encodings of a Data. -/
inductive Encoding where
  | auto | binary | base64 | armor | mime | url | urlEsc | url0
deriving DecidableEq

/-- What is set of a Data, its provider apart. -/
structure DataSettings where
  encoding : Encoding
  sizeHint : Option Nat
  fileName : Option QString
deriving DecidableEq

/-- Nothing is set. -/
def DataSettings.unset : DataSettings := ⟨.auto, none, none⟩

/-- What an operation ends with: its results, and what `audit_log_as_html` gives then. -/
structure Outcome (R : Type*) where
  results : R
  log : QString
  auditLogError : Error

/-- An operation of GpgME on two Data. -/
abbrev Operation (R : Type*) :=
  Client (Call ⊕ Call) QIODeviceDataProvider.Answer (Outcome R)

/-- A GpgME++ context. The signing keys are those added before; `signingResult` and
`signingResults` make the results of an operation whose signing keys are refused. -/
structure Context (Key R : Type*) extends FileWorkers.Context Key where
  signingResult : Error → R
  signingResults : Error → R
  encryptData : List Key → DataSettings → DataSettings → EncryptionFlags → Operation R
  signData : List Key → DataSettings → DataSettings → SignatureMode → Operation R
  signAndEncryptData : List Key → List Key → DataSettings → DataSettings → EncryptionFlags →
    Operation R
  decryptData : DataSettings → DataSettings → Operation R
  decryptAndVerifyData : Bool → DataSettings → DataSettings → Operation R
  verifyOpaqueData : Bool → DataSettings → DataSettings → Operation R
  verifyDetachedData : Bool → DataSettings → DataSettings → Operation R

/-- The result tuple of a worker, and its devices afterwards. -/
structure Done (R : Type*) where
  results : R
  data : QByteArray
  log : QString
  auditLogError : Error
  input : QBuffer
  output : Option QBuffer

/-- The size of a buffer is known, so it is set. -/
def inputSettings (input : QBuffer) (encoding : Encoding) (fileName : Option QString) :
    DataSettings :=
  ⟨encoding, some input.data.length, fileName⟩

def outputSettings (outputIsBase64Encoded : Bool) : DataSettings :=
  { DataSettings.unset with encoding := if outputIsBase64Encoded then .base64 else .auto }

/-- `QFileInfo{fileName}.fileName()`, which is set if it is not empty. -/
def pureFileName (fileName : QString) : Option QString :=
  let pure := (fileName.reverse.takeWhile fun c => c ≠ '/').reverse
  if pure = [] then none else some pure

/-- The end of the workers: without an output device the output is returned. -/
def transfer (qt : Qt) (operation : Operation R) (input : QBuffer) (output : Option QBuffer) :
    Option (Done R) :=
  match output with
  | none =>
    (operation.serve (Client.both (deviceStep qt) (byteArrayStep qt))
      ((.new false, input), .new [])).map fun r =>
        ⟨r.1.results, r.2.2.mArray, r.1.log, r.1.auditLogError, r.2.1.2, none⟩
  | some output =>
    (operation.serve (Client.both (deviceStep qt) (deviceStep qt))
      ((.new false, input), (.new false, output))).map fun r =>
        ⟨r.1.results, [], r.1.log, r.1.auditLogError, r.2.1.2, some r.2.2.2⟩

/-- The keys are added first. A key that is refused ends the worker. -/
def withSigners (ctx : Context Key R) (signers : List Key) (refused : Error → R)
    (input : QBuffer) (output : Option QBuffer) (go : List Key → Option (Done R)) :
    Option (Done R) :=
  match FileWorkers.addSigningKeys ctx.toContext signers with
  | .error err => some ⟨refused err, [], [], Error.noError, input, output⟩
  | .ok keys => go keys

namespace EncryptJob

def encrypt (qt : Qt) (ctx : Context Key R) (recipients : List Key) (plainText : QBuffer)
    (cipherText : Option QBuffer) (eflags : EncryptionFlags) (outputIsBase64Encoded : Bool)
    (inputEncoding : Encoding) (fileName : QString) : Option (Done R) :=
  transfer qt (ctx.encryptData recipients
    (inputSettings plainText inputEncoding (pureFileName fileName))
    (outputSettings outputIsBase64Encoded) eflags) plainText cipherText

def encryptQba (qt : Qt) (ctx : Context Key R) (recipients : List Key) (plainText : QByteArray)
    (eflags : EncryptionFlags) (outputIsBase64Encoded : Bool) (inputEncoding : Encoding)
    (fileName : QString) : Option (Done R) :=
  encrypt qt ctx recipients (.readOnly plainText) none eflags outputIsBase64Encoded inputEncoding
    fileName

end EncryptJob

namespace SignJob

def sign (qt : Qt) (ctx : Context Key R) (signers : List Key) (plainText : QBuffer)
    (signature : Option QBuffer) (mode : SignatureMode) (outputIsBase64Encoded : Bool) :
    Option (Done R) :=
  withSigners ctx signers ctx.signingResult plainText signature fun keys =>
    transfer qt (ctx.signData keys (inputSettings plainText .auto none)
      (outputSettings outputIsBase64Encoded) mode) plainText signature

def signQba (qt : Qt) (ctx : Context Key R) (signers : List Key) (plainText : QByteArray)
    (mode : SignatureMode) (outputIsBase64Encoded : Bool) : Option (Done R) :=
  sign qt ctx signers (.readOnly plainText) none mode outputIsBase64Encoded

end SignJob

namespace SignEncryptJob

def signEncrypt (qt : Qt) (ctx : Context Key R) (signers recipients : List Key)
    (plainText : QBuffer) (cipherText : Option QBuffer) (eflags : EncryptionFlags)
    (outputIsBase64Encoded : Bool) (fileName : QString) : Option (Done R) :=
  withSigners ctx signers ctx.signingResults plainText cipherText fun keys =>
    transfer qt (ctx.signAndEncryptData keys recipients
      (inputSettings plainText .auto (pureFileName fileName))
      (outputSettings outputIsBase64Encoded) eflags) plainText cipherText

def signEncryptQba (qt : Qt) (ctx : Context Key R) (signers recipients : List Key)
    (plainText : QByteArray) (eflags : EncryptionFlags) (outputIsBase64Encoded : Bool)
    (fileName : QString) : Option (Done R) :=
  signEncrypt qt ctx signers recipients (.readOnly plainText) none eflags outputIsBase64Encoded
    fileName

end SignEncryptJob

namespace DecryptJob

def decrypt (qt : Qt) (ctx : Context Key R) (cipherText : QBuffer) (plainText : Option QBuffer) :
    Option (Done R) :=
  transfer qt (ctx.decryptData (inputSettings cipherText .auto none) .unset) cipherText plainText

def decryptQba (qt : Qt) (ctx : Context Key R) (cipherText : QByteArray) : Option (Done R) :=
  decrypt qt ctx (.readOnly cipherText) none

end DecryptJob

namespace DecryptVerifyJob

/-- The flag `proc-all-sigs` is set before the worker starts. -/
def decryptVerify (qt : Qt) (ctx : Context Key R) (processAllSignatures : Bool)
    (cipherText : QBuffer) (plainText : Option QBuffer) : Option (Done R) :=
  transfer qt (ctx.decryptAndVerifyData processAllSignatures
    (inputSettings cipherText .auto none) .unset) cipherText plainText

def decryptVerifyQba (qt : Qt) (ctx : Context Key R) (processAllSignatures : Bool)
    (cipherText : QByteArray) : Option (Done R) :=
  decryptVerify qt ctx processAllSignatures (.readOnly cipherText) none

end DecryptVerifyJob

namespace VerifyOpaqueJob

def verifyOpaque (qt : Qt) (ctx : Context Key R) (processAllSignatures : Bool)
    (signedData : QBuffer) (plainText : Option QBuffer) : Option (Done R) :=
  transfer qt (ctx.verifyOpaqueData processAllSignatures
    (inputSettings signedData .auto none) .unset) signedData plainText

def verifyOpaqueQba (qt : Qt) (ctx : Context Key R) (processAllSignatures : Bool)
    (signedData : QByteArray) : Option (Done R) :=
  verifyOpaque qt ctx processAllSignatures (.readOnly signedData) none

end VerifyOpaqueJob

namespace VerifyDetachedJob

/-- The size of the signed data is known, that of the signature is not set. -/
def verifyDetached (qt : Qt) (ctx : Context Key R) (processAllSignatures : Bool)
    (signature signedData : QBuffer) : Option (Outcome R) :=
  ((ctx.verifyDetachedData processAllSignatures .unset (inputSettings signedData .auto none)).serve
    (Client.both (deviceStep qt) (deviceStep qt))
    ((.new false, signature), (.new false, signedData))).map Prod.fst

/-- No size is set. -/
def verifyDetachedQba (qt : Qt) (ctx : Context Key R) (processAllSignatures : Bool)
    (signature signedData : QByteArray) : Option (Outcome R) :=
  ((ctx.verifyDetachedData processAllSignatures .unset .unset).serve
    (Client.both (byteArrayStep qt) (byteArrayStep qt))
    (.new signature, .new signedData)).map Prod.fst

end VerifyDetachedJob

/-- What the workers with an output are started with, the data apart. -/
inductive Request (Key : Type*) where
  | encrypt (recipients : List Key) (eflags : EncryptionFlags) (outputIsBase64Encoded : Bool)
      (inputEncoding : Encoding) (fileName : QString)
  | sign (signers : List Key) (mode : SignatureMode) (outputIsBase64Encoded : Bool)
  | signEncrypt (signers recipients : List Key) (eflags : EncryptionFlags)
      (outputIsBase64Encoded : Bool) (fileName : QString)
  | decrypt
  | decryptVerify (processAllSignatures : Bool)
  | verifyOpaque (processAllSignatures : Bool)

namespace Request

/-- The worker for devices. -/
def withDevices (qt : Qt) (ctx : Context Key R) (input : QBuffer) (output : Option QBuffer) :
    Request Key → Option (Done R)
  | encrypt recipients eflags base64 encoding fileName =>
    EncryptJob.encrypt qt ctx recipients input output eflags base64 encoding fileName
  | sign signers mode base64 => SignJob.sign qt ctx signers input output mode base64
  | signEncrypt signers recipients eflags base64 fileName =>
    SignEncryptJob.signEncrypt qt ctx signers recipients input output eflags base64 fileName
  | decrypt => DecryptJob.decrypt qt ctx input output
  | decryptVerify processAll => DecryptVerifyJob.decryptVerify qt ctx processAll input output
  | verifyOpaque processAll => VerifyOpaqueJob.verifyOpaque qt ctx processAll input output

/-- The worker for byte arrays. -/
def withArrays (qt : Qt) (ctx : Context Key R) (data : QByteArray) : Request Key → Option (Done R)
  | encrypt recipients eflags base64 encoding fileName =>
    EncryptJob.encryptQba qt ctx recipients data eflags base64 encoding fileName
  | sign signers mode base64 => SignJob.signQba qt ctx signers data mode base64
  | signEncrypt signers recipients eflags base64 fileName =>
    SignEncryptJob.signEncryptQba qt ctx signers recipients data eflags base64 fileName
  | decrypt => DecryptJob.decryptQba qt ctx data
  | decryptVerify processAll => DecryptVerifyJob.decryptVerifyQba qt ctx processAll data
  | verifyOpaque processAll => VerifyOpaqueJob.verifyOpaqueQba qt ctx processAll data

/-- The operation that is made, or the results of a request whose signers are refused. -/
def operation (ctx : Context Key R) (input : QBuffer) : Request Key → Except R (Operation R)
  | encrypt recipients eflags base64 encoding fileName =>
    .ok (ctx.encryptData recipients (inputSettings input encoding (pureFileName fileName))
      (outputSettings base64) eflags)
  | sign signers mode base64 =>
    match FileWorkers.addSigningKeys ctx.toContext signers with
    | .error err => .error (ctx.signingResult err)
    | .ok keys => .ok (ctx.signData keys (inputSettings input .auto none) (outputSettings base64)
        mode)
  | signEncrypt signers recipients eflags base64 fileName =>
    match FileWorkers.addSigningKeys ctx.toContext signers with
    | .error err => .error (ctx.signingResults err)
    | .ok keys => .ok (ctx.signAndEncryptData keys recipients
        (inputSettings input .auto (pureFileName fileName)) (outputSettings base64) eflags)
  | decrypt => .ok (ctx.decryptData (inputSettings input .auto none) .unset)
  | decryptVerify processAll =>
    .ok (ctx.decryptAndVerifyData processAll (inputSettings input .auto none) .unset)
  | verifyOpaque processAll =>
    .ok (ctx.verifyOpaqueData processAll (inputSettings input .auto none) .unset)

end Request

section requests
variable {qt : Qt} {ctx : Context Key R} {input : QBuffer} {output : Option QBuffer}

/-- All the workers make their operation in one way. -/
theorem withDevices_eq (request : Request Key) :
    request.withDevices qt ctx input output =
      match request.operation ctx input with
      | .error r => some ⟨r, [], [], Error.noError, input, output⟩
      | .ok operation => transfer qt operation input output := by
  cases request with
  | sign signers mode base64 =>
    simp only [Request.withDevices, Request.operation, SignJob.sign, withSigners]
    cases FileWorkers.addSigningKeys ctx.toContext signers <;> rfl
  | signEncrypt signers recipients eflags base64 fileName =>
    simp only [Request.withDevices, Request.operation, SignEncryptJob.signEncrypt, withSigners]
    cases FileWorkers.addSigningKeys ctx.toContext signers <;> rfl
  | _ => rfl

theorem withArrays_eq (data : QByteArray) (request : Request Key) :
    request.withArrays qt ctx data = request.withDevices qt ctx (.readOnly data) none := by
  cases request <;> rfl

theorem deviceStep_isSome (s : QIODeviceDataProvider × QBuffer) (c : Call) :
    (deviceStep qt s c).isSome := by
  cases c <;> rfl

/-- The output of an operation is written inside the data, or on from its end. -/
def WritesInside (qt : Qt) (readable : Bool) (input : QBuffer) (operation : Operation R) : Prop :=
  operation.Along (Client.both (deviceStep qt) (byteArrayStep qt))
    (Client.BothOk (fun _ _ => True) (Inside qt readable true)) ((.new false, input), .new [])

/-- An output buffer is filled with what is returned without one. -/
theorem transfer_agree {readable : Bool} {operation : Operation R}
    (h : WritesInside qt readable input operation) :
    ∃ done i, transfer qt operation input none = some done ∧
      transfer qt operation input (some ⟨[], 0, readable, true⟩) =
        some { done with data := [], output := some ⟨done.data, i, readable, true⟩ } := by
  have hself : Client.Simulates (deviceStep qt) (fun _ _ => True) (deviceStep qt) Eq :=
    Client.Simulates.self fun s c _ => deviceStep_isSome s c
  have hboth := hself.both (same_step qt readable true)
  have hsame : Same readable true (.new []) (.new false, ⟨[], 0, readable, true⟩) :=
    ⟨rfl, rfl, rfl, Nat.le_refl 0, rfl, rfl⟩
  obtain ⟨r, ⟨⟨q, input'⟩, p⟩, ⟨⟨q₂, input₂⟩, q', d⟩, harray, hdevice, heq, hend⟩ :=
    hboth.serve operation
      (s := ((.new false, input), .new []))
      (t := ((.new false, input), (.new false, ⟨[], 0, readable, true⟩))) ⟨rfl, hsame⟩ h
  obtain ⟨rfl, rfl⟩ := Prod.mk.inj heq
  obtain ⟨-, hdata, -, -, hread, hwrite⟩ := hend
  refine ⟨⟨r.results, p.mArray, r.log, r.auditLogError, input', none⟩, d.ioIndex, ?_, ?_⟩
  · simp [transfer, harray]
  · have hd : d = ⟨p.mArray, d.ioIndex, readable, true⟩ := by
      rw [← hdata, ← hread, ← hwrite]
    simp only [transfer, hdevice, Option.map_some]
    rw [← hd]

/-- Started with a byte array, each of the six jobs ends with the results that it ends with when
its input is a buffer, and returns what it writes to an output buffer then. -/
theorem withArrays_agree {readable : Bool} (request : Request Key) (data : QByteArray)
    (h : ∀ operation, request.operation ctx (.readOnly data) = .ok operation →
      WritesInside qt readable (.readOnly data) operation) :
    ∃ done output, request.withArrays qt ctx data = some done ∧
      request.withDevices qt ctx (.readOnly data) (some ⟨[], 0, readable, true⟩) =
        some { done with data := [], output := some output } ∧ output.data = done.data := by
  rw [withArrays_eq, withDevices_eq, withDevices_eq]
  cases hop : request.operation ctx (.readOnly data) with
  | error r =>
    exact ⟨⟨r, [], [], Error.noError, .readOnly data, none⟩, _, rfl, rfl, rfl⟩
  | ok operation =>
    obtain ⟨done, i, harray, hdevice⟩ := transfer_agree (h operation hop)
    exact ⟨done, _, harray, hdevice, rfl⟩

/-- The operation stays inside the signature and the signed data, and writes to neither. -/
def ReadsInside (qt : Qt) (signature signedData : QByteArray) (operation : Operation R) : Prop :=
  operation.Along (Client.both (byteArrayStep qt) (byteArrayStep qt))
    (Client.BothOk (Inside qt true false) (Inside qt true false)) (.new signature, .new signedData)

/-- Arrays are verified like buffers, if the size hint that only buffers get does not matter. -/
theorem verifyDetached_agree (processAllSignatures : Bool) (signature signedData : QByteArray)
    (hhint : ctx.verifyDetachedData processAllSignatures .unset
        (inputSettings (.readOnly signedData) .auto none) =
      ctx.verifyDetachedData processAllSignatures .unset .unset)
    (h : ReadsInside qt signature signedData
      (ctx.verifyDetachedData processAllSignatures .unset .unset)) :
    ∃ outcome,
      VerifyDetachedJob.verifyDetachedQba qt ctx processAllSignatures signature signedData =
        some outcome ∧
      VerifyDetachedJob.verifyDetached qt ctx processAllSignatures (.readOnly signature)
        (.readOnly signedData) = some outcome := by
  have hsame : ∀ data, Same true false (.new data) (.new false, .readOnly data) := fun data =>
    ⟨rfl, rfl, rfl, Nat.zero_le _, rfl, rfl⟩
  have hboth := (same_step qt true false).both (same_step qt true false)
  obtain ⟨r, s', t', harray, hdevice, -⟩ :=
    hboth.serve _
      (t := ((.new false, .readOnly signature), (.new false, .readOnly signedData)))
      ⟨hsame signature, hsame signedData⟩ h
  refine ⟨r, ?_, ?_⟩
  · simp [VerifyDetachedJob.verifyDetachedQba, harray]
  · rw [VerifyDetachedJob.verifyDetached, hhint]
    simp [hdevice]

/-- A context whose operations copy what they read at once. -/
def copying : Context Nat Unit where
  isNull _ := false
  addSigningKey _ := Error.noError
  encrypt _ _ _ _ := (Error.noError, none)
  sign _ _ _ _ := (Error.noError, none)
  signAndEncrypt _ _ _ _ _ := ((Error.noError, Error.noError), none)
  decryptAndVerify _ _ _ := ((Error.noError, Error.noError), none)
  verifyOpaqueSignature _ _ _ := (Error.noError, none)
  signingResult _ := ()
  signingResults _ := ()
  encryptData _ _ _ _ := copy
  signData _ _ _ _ := copy
  signAndEncryptData _ _ _ _ _ := copy
  decryptData _ _ := copy
  decryptAndVerifyData _ _ _ := copy
  verifyOpaqueData _ _ _ := copy
  verifyDetachedData _ _ _ := .ask (.inl (.read true 9)) fun _ =>
    .ask (.inr (.read true 9)) fun _ => .done ⟨(), [], Error.noError⟩
where
  copy : Operation Unit := .ask (.inl (.read true 9)) fun a =>
    .ask (.inr (.write a.data)) fun _ => .done ⟨(), [], Error.noError⟩

theorem withArrays_agree_copying :
    ∃ done output, (Request.sign [1] ⟨true, false, false, false⟩ false).withArrays
        ⟨.qt6, fun _ => 0⟩ copying [1, 2, 3] = some done ∧
      (Request.sign [1] ⟨true, false, false, false⟩ false).withDevices ⟨.qt6, fun _ => 0⟩ copying
        (.readOnly [1, 2, 3]) (some ⟨[], 0, false, true⟩) =
        some { done with data := [], output := some output } ∧ output.data = done.data := by
  refine withArrays_agree _ _ fun operation hop => ?_
  obtain rfl : copying.copy = operation := Except.ok.inj hop
  refine ⟨trivial, fun a ha => ?_⟩
  obtain rfl := Option.some.inj ha
  exact ⟨⟨rfl, by decide, Or.inr rfl⟩, fun _ _ => trivial⟩

theorem verifyDetached_agree_copying :
    ∃ outcome,
      VerifyDetachedJob.verifyDetachedQba ⟨.qt6, fun _ => 0⟩ copying true [1] [2, 3] =
        some outcome ∧
      VerifyDetachedJob.verifyDetached ⟨.qt6, fun _ => 0⟩ copying true (.readOnly [1])
        (.readOnly [2, 3]) = some outcome :=
  verifyDetached_agree true [1] [2, 3] rfl ⟨rfl, fun _ _ => ⟨rfl, fun _ _ => trivial⟩⟩

end requests

end QGpgME.DeviceJobs
