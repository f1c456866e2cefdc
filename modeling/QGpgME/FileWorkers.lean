import QGpgME.GpgError
import QGpgME.PartialFile
import Mathlib.Tactic.SplitIfs

/-! The workers that write their output to a file, all but one of them in the same course:
the operation writes a temporary file, which is renamed where the operation reports success.
The audit log and its error, which end every result tuple, are left out. -/
namespace QGpgME.FileWorkers
open PartialFile
variable {Key : Type*}

structure EncryptionFlags where
  encryptFile : Bool
  encryptArchive : Bool
  others : Nat
deriving DecidableEq

structure SignatureMode where
  detached : Bool
  clearsigned : Bool
  signArchive : Bool
  signFile : Bool
deriving DecidableEq

/-- The input of an operation: a file, or the files of a list, taken relative to the base
directory if that is not empty. -/
inductive Input where
  | file (filePath : QString)
  | fileList (paths : List QString) (baseDirectory : QString)

/-- What a GpgME++ context answers to its operations, together with what it writes to the
output file. The signing keys are those added before. -/
structure Context (Key : Type*) where
  isNull : Key → Bool
  addSigningKey : Key → Error
  encrypt : List Key → Input → FilePath → EncryptionFlags → Error × Option QByteArray
  sign : List Key → Input → FilePath → SignatureMode → Error × Option QByteArray
  signAndEncrypt : List Key → List Key → Input → FilePath → EncryptionFlags →
    (Error × Error) × Option QByteArray
  decryptAndVerify : Bool → Input → FilePath → (Error × Error) × Option QByteArray
  verifyOpaqueSignature : Bool → Input → FilePath → Error × Option QByteArray

/-- The errors of the results of an operation, and what it wrote. -/
structure Outcome where
  results : List Error
  written : Option QByteArray

namespace Outcome

def ofResult (r : Error × Option QByteArray) : Outcome := ⟨[r.1], r.2⟩

def ofResults (r : (Error × Error) × Option QByteArray) : Outcome := ⟨[r.1.1, r.1.2], r.2⟩

def succeeded (o : Outcome) : Bool := o.results.all fun e => e.code = .noError

theorem succeeded_iff {o : Outcome} :
    o.succeeded = true ↔ ∀ e ∈ o.results, e.code = .noError := by
  simp [succeeded]

end Outcome

/-- The loop over the signers stops at the first error that counts as one. -/
def addSigningKeys (ctx : Context Key) : List Key → Except Error (List Key)
  | [] => .ok []
  | signer :: signers =>
    if ctx.isNull signer then addSigningKeys ctx signers
    else if (ctx.addSigningKey signer).asBool then .error (ctx.addSigningKey signer)
    else (addSigningKeys ctx signers).map fun keys => signer :: keys

/-- The course of the workers. Their tuples have `results` results. -/
def throughPartFile (answers : FileAnswers) (fs : FileSystem) (outputFilePath : FilePath)
    (results : Nat) (operation : FilePath → Outcome) : List Error × FileSystem :=
  let partFileGuard := PartialFileGuard.new answers fs outputFilePath
  match partFileGuard.mTempFileName with
  | none =>
    (List.replicate results (Error.fromCode .eexist), partFileGuard.destroy answers fs)
  | some temp =>
    let outcome := operation temp
    let fs := fs.put temp outcome.written
    if outcome.succeeded then
      let ((_, partFileGuard), fs) := partFileGuard.commit answers fs
      (outcome.results, partFileGuard.destroy answers fs)
    else (outcome.results, partFileGuard.destroy answers fs)

namespace EncryptJob

def encrypt (ctx : Context Key) (recipients : List Key) (inputFilePath : QString)
    (flags : EncryptionFlags) (temp : FilePath) : Outcome :=
  .ofResult (ctx.encrypt recipients (.file inputFilePath) temp { flags with encryptFile := true })

def encryptToFilename (ctx : Context Key) (answers : FileAnswers) (fs : FileSystem)
    (recipients : List Key) (inputFilePath : QString) (outputFilePath : FilePath)
    (flags : EncryptionFlags) : List Error × FileSystem :=
  throughPartFile answers fs outputFilePath 1 (encrypt ctx recipients inputFilePath flags)

end EncryptJob

namespace SignEncryptJob

def signEncrypt (ctx : Context Key) (signers recipients : List Key) (inputFilePath : QString)
    (flags : EncryptionFlags) (temp : FilePath) : Outcome :=
  match addSigningKeys ctx signers with
  | .error err => ⟨[err, Error.noError], none⟩
  | .ok keys => .ofResults (ctx.signAndEncrypt keys recipients (.file inputFilePath) temp
      { flags with encryptFile := true })

def signEncryptToFilename (ctx : Context Key) (answers : FileAnswers) (fs : FileSystem)
    (signers recipients : List Key) (inputFilePath : QString) (outputFilePath : FilePath)
    (flags : EncryptionFlags) : List Error × FileSystem :=
  throughPartFile answers fs outputFilePath 2
    (signEncrypt ctx signers recipients inputFilePath flags)

end SignEncryptJob

namespace DecryptVerifyJob

def decryptVerify (ctx : Context Key) (inputFilePath : QString) (processAllSignatures : Bool)
    (temp : FilePath) : Outcome :=
  .ofResults (ctx.decryptAndVerify processAllSignatures (.file inputFilePath) temp)

def decryptVerifyFromFilename (ctx : Context Key) (answers : FileAnswers) (fs : FileSystem)
    (inputFilePath : QString) (outputFilePath : FilePath) (processAllSignatures : Bool) :
    List Error × FileSystem :=
  throughPartFile answers fs outputFilePath 2 (decryptVerify ctx inputFilePath processAllSignatures)

end DecryptVerifyJob

namespace VerifyOpaqueJob

def verify (ctx : Context Key) (inputFilePath : QString) (processAllSignatures : Bool)
    (temp : FilePath) : Outcome :=
  .ofResult (ctx.verifyOpaqueSignature processAllSignatures (.file inputFilePath) temp)

def verifyFromFilename (ctx : Context Key) (answers : FileAnswers) (fs : FileSystem)
    (inputFilePath : QString) (outputFilePath : FilePath) (processAllSignatures : Bool) :
    List Error × FileSystem :=
  throughPartFile answers fs outputFilePath 1 (verify ctx inputFilePath processAllSignatures)

end VerifyOpaqueJob

namespace SignArchiveJob

def sign (ctx : Context Key) (signers : List Key) (paths : List QString)
    (baseDirectory : QString) (temp : FilePath) : Outcome :=
  match addSigningKeys ctx signers with
  | .error err => ⟨[err], none⟩
  | .ok keys => .ofResult (ctx.sign keys (.fileList paths baseDirectory) temp
      ⟨false, false, true, false⟩)

def signToFilename (ctx : Context Key) (answers : FileAnswers) (fs : FileSystem)
    (signers : List Key) (paths : List QString) (outputFileName : FilePath)
    (baseDirectory : QString) : List Error × FileSystem :=
  throughPartFile answers fs outputFileName 1 (sign ctx signers paths baseDirectory)

end SignArchiveJob

namespace EncryptArchiveJob

def encrypt (ctx : Context Key) (recipients : List Key) (paths : List QString)
    (flags : EncryptionFlags) (baseDirectory : QString) (temp : FilePath) : Outcome :=
  .ofResult (ctx.encrypt recipients (.fileList paths baseDirectory) temp
    { flags with encryptArchive := true })

def encryptToFilename (ctx : Context Key) (answers : FileAnswers) (fs : FileSystem)
    (recipients : List Key) (paths : List QString) (outputFileName : FilePath)
    (flags : EncryptionFlags) (baseDirectory : QString) : List Error × FileSystem :=
  throughPartFile answers fs outputFileName 1 (encrypt ctx recipients paths flags baseDirectory)

end EncryptArchiveJob

namespace SignEncryptArchiveJob

def signEncrypt (ctx : Context Key) (signers recipients : List Key) (paths : List QString)
    (encryptionFlags : EncryptionFlags) (baseDirectory : QString) (temp : FilePath) : Outcome :=
  match addSigningKeys ctx signers with
  | .error err => ⟨[err, Error.noError], none⟩
  | .ok keys => .ofResults (ctx.signAndEncrypt keys recipients (.fileList paths baseDirectory) temp
      { encryptionFlags with encryptArchive := true })

def signEncryptToFilename (ctx : Context Key) (answers : FileAnswers) (fs : FileSystem)
    (signers recipients : List Key) (paths : List QString) (outputFileName : FilePath)
    (encryptionFlags : EncryptionFlags) (baseDirectory : QString) : List Error × FileSystem :=
  throughPartFile answers fs outputFileName 2
    (signEncrypt ctx signers recipients paths encryptionFlags baseDirectory)

end SignEncryptArchiveJob

namespace SignJob

/-- What happens to the files when a signature is appended: whether the new signature can be
opened and how much of it is read, whether the existing file can be opened, what `write`
returns, and how much is in the file once it is closed (closing ignores a failed flush). -/
structure AppendAnswers where
  readOpenFails : Bool
  bytesRead : Nat
  appendOpenFails : Bool
  bytesWritten : Int
  bytesStored : Nat

def sign (ctx : Context Key) (signers : List Key) (inputFilePath : QString)
    (flags : SignatureMode) (temp : FilePath) : Outcome :=
  match addSigningKeys ctx signers with
  | .error err => ⟨[err], none⟩
  | .ok keys => .ofResult (ctx.sign keys (.file inputFilePath) temp { flags with signFile := true })

/-- Appends the new signature to the existing file; false where the worker then returns a
general error. -/
def appendSignatureToExistingFile (append : AppendAnswers) (fs : FileSystem)
    (temp outputFilePath : FilePath) : Bool × FileSystem :=
  match fs temp with
  | none => (false, fs)
  | some signature =>
    if append.readOpenFails then (false, fs)
    else
      let newSigData := signature.take append.bytesRead
      if newSigData = [] then (false, fs)
      else if append.appendOpenFails then (false, fs)
      else
        let old := (fs outputFilePath).getD []
        let fs := fs.put outputFilePath (some (old ++ newSigData.take append.bytesStored))
        (append.bytesWritten = newSigData.length, fs)

def signToFilename (ctx : Context Key) (answers : FileAnswers) (append : AppendAnswers)
    (fs : FileSystem) (signers : List Key) (inputFilePath : QString) (outputFilePath : FilePath)
    (flags : SignatureMode) (appendSignature : Bool) : List Error × FileSystem :=
  let partFileGuard := PartialFileGuard.new answers fs outputFilePath
  match partFileGuard.mTempFileName with
  | none => ([Error.fromCode .eexist], partFileGuard.destroy answers fs)
  | some temp =>
    -- a signer that is refused ends the worker before anything is written
    let outcome := sign ctx signers inputFilePath flags temp
    let fs := fs.put temp outcome.written
    if outcome.succeeded then
      if appendSignature && flags.detached && (fs outputFilePath).isSome then
        let (appended, fs) := appendSignatureToExistingFile append fs temp outputFilePath
        (if appended then outcome.results else [Error.fromCode .general],
          partFileGuard.destroy answers fs)
      else
        let ((_, partFileGuard), fs) := partFileGuard.commit answers fs
        (outcome.results, partFileGuard.destroy answers fs)
    else (outcome.results, partFileGuard.destroy answers fs)

end SignJob

/-- What the workers are started with, the output file apart. -/
inductive Request (Key : Type*) where
  | encrypt (recipients : List Key) (inputFilePath : QString) (flags : EncryptionFlags)
  | sign (signers : List Key) (inputFilePath : QString) (flags : SignatureMode)
      (appendSignature : Bool)
  | signEncrypt (signers recipients : List Key) (inputFilePath : QString)
      (flags : EncryptionFlags)
  | decryptVerify (inputFilePath : QString) (processAllSignatures : Bool)
  | verifyOpaque (inputFilePath : QString) (processAllSignatures : Bool)
  | signArchive (signers : List Key) (paths : List QString) (baseDirectory : QString)
  | encryptArchive (recipients : List Key) (paths : List QString) (flags : EncryptionFlags)
      (baseDirectory : QString)
  | signEncryptArchive (signers recipients : List Key) (paths : List QString)
      (flags : EncryptionFlags) (baseDirectory : QString)

namespace Request

/-- The results of the worker, and the files after it. -/
def work (ctx : Context Key) (answers : FileAnswers) (append : SignJob.AppendAnswers)
    (fs : FileSystem) (output : FilePath) : Request Key → List Error × FileSystem
  | encrypt recipients input flags =>
    EncryptJob.encryptToFilename ctx answers fs recipients input output flags
  | sign signers input flags appendSignature =>
    SignJob.signToFilename ctx answers append fs signers input output flags appendSignature
  | signEncrypt signers recipients input flags =>
    SignEncryptJob.signEncryptToFilename ctx answers fs signers recipients input output flags
  | decryptVerify input processAllSignatures =>
    DecryptVerifyJob.decryptVerifyFromFilename ctx answers fs input output processAllSignatures
  | verifyOpaque input processAllSignatures =>
    VerifyOpaqueJob.verifyFromFilename ctx answers fs input output processAllSignatures
  | signArchive signers paths baseDirectory =>
    SignArchiveJob.signToFilename ctx answers fs signers paths output baseDirectory
  | encryptArchive recipients paths flags baseDirectory =>
    EncryptArchiveJob.encryptToFilename ctx answers fs recipients paths output flags baseDirectory
  | signEncryptArchive signers recipients paths flags baseDirectory =>
    SignEncryptArchiveJob.signEncryptToFilename ctx answers fs signers recipients paths output
      flags baseDirectory

/-- What the engine answers when it is given the temporary file. -/
def operation (ctx : Context Key) : Request Key → FilePath → Outcome
  | encrypt recipients input flags => EncryptJob.encrypt ctx recipients input flags
  | sign signers input flags _ => SignJob.sign ctx signers input flags
  | signEncrypt signers recipients input flags =>
    SignEncryptJob.signEncrypt ctx signers recipients input flags
  | decryptVerify input processAllSignatures =>
    DecryptVerifyJob.decryptVerify ctx input processAllSignatures
  | verifyOpaque input processAllSignatures =>
    VerifyOpaqueJob.verify ctx input processAllSignatures
  | signArchive signers paths baseDirectory =>
    SignArchiveJob.sign ctx signers paths baseDirectory
  | encryptArchive recipients paths flags baseDirectory =>
    EncryptArchiveJob.encrypt ctx recipients paths flags baseDirectory
  | signEncryptArchive signers recipients paths flags baseDirectory =>
    SignEncryptArchiveJob.signEncrypt ctx signers recipients paths flags baseDirectory

/-- The content of an existing signature file to which the signature is to be appended. -/
def appendsTo (fs : FileSystem) (output : FilePath) : Request Key → Option QByteArray
  | sign _ _ flags appendSignature =>
    if appendSignature && flags.detached then fs output else none
  | _ => none

end Request

section saving
variable {ctx : Context Key} {answers : FileAnswers} {append : SignJob.AppendAnswers}
  {fs : FileSystem} {output : FilePath} {results : Nat} {operation : FilePath → Outcome}

/-- Success means that the output file holds what the engine wrote, behind what a signature
was to be appended to. -/
def Saved (ctx : Context Key) (answers : FileAnswers) (append : SignJob.AppendAnswers)
    (fs : FileSystem) (output : FilePath) (request : Request Key) : Prop :=
  (∀ e ∈ (request.work ctx answers append fs output).1, e.code = .noError) →
    ∃ temp bytes, createPartFileName answers fs output = some temp ∧
      (request.operation ctx temp).written = some bytes ∧
      (request.work ctx answers append fs output).2 output =
        some ((request.appendsTo fs output).getD [] ++ bytes)

/-- A file that was written can be put in place, or is there already. -/
def Placeable (answers : FileAnswers) (fs : FileSystem) (output : FilePath) (o : Outcome) : Prop :=
  ∃ bytes, o.written = some bytes ∧
    ((fs output = none ∧ answers.renameFails = false) ∨ fs output = some bytes)

/-- Nothing that the worker checks goes wrong when the signature is appended. -/
structure Accepted (append : SignJob.AppendAnswers) (bytes : QByteArray) : Prop where
  readable : append.readOpenFails = false
  not_empty : bytes.take append.bytesRead ≠ []
  writable : append.appendOpenFails = false
  written : append.bytesWritten = (bytes.take append.bytesRead).length

/-- A signature that is not refused on the way is read and stored as a whole. -/
def Appendable (append : SignJob.AppendAnswers) (o : Outcome) : Prop :=
  ∀ bytes, o.written = some bytes → Accepted append bytes →
    (bytes.take append.bytesRead).take append.bytesStored = bytes

/-- The condition for `Saved`: an operation that succeeds finds its way to the output file. -/
def CanSave (ctx : Context Key) (answers : FileAnswers) (append : SignJob.AppendAnswers)
    (fs : FileSystem) (output : FilePath) (request : Request Key) : Prop :=
  ∀ temp, createPartFileName answers fs output = some temp →
    (request.operation ctx temp).succeeded = true →
    match request.appendsTo fs output with
    | none => Placeable answers fs output (request.operation ctx temp)
    | some _ => Appendable append (request.operation ctx temp)

theorem throughPartFile_none (h : createPartFileName answers fs output = none) :
    throughPartFile answers fs output results operation =
      (List.replicate results (Error.fromCode .eexist), fs) := by
  simp [throughPartFile, PartialFileGuard.new, PartialFileGuard.destroy, h]

theorem throughPartFile_results (results : Nat) (operation : FilePath → Outcome)
    {temp : FilePath} (h : createPartFileName answers fs output = some temp) :
    (throughPartFile answers fs output results operation).1 = (operation temp).results := by
  simp only [throughPartFile, PartialFileGuard.new, h]
  split_ifs <;> rfl

/-- Where the operation succeeds, the output file is the temporary one if nothing is in the
way of the rename, and as before if something is. -/
theorem throughPartFile_output (results : Nat) (operation : FilePath → Outcome)
    {temp : FilePath} (h : createPartFileName answers fs output = some temp)
    (hs : (operation temp).succeeded = true) :
    (throughPartFile answers fs output results operation).2 output =
      if fs output = none ∧ answers.renameFails = false then (operation temp).written
      else fs output := by
  have hne := createPartFileName_ne h
  have hput := FileSystem.put_ne (Ne.symm hne) fs (operation temp).written
  have hcommit := (PartialFileGuard.new answers fs output).commit_destroy answers
    (fs.put temp (operation temp).written) temp h
  simp only [throughPartFile, PartialFileGuard.new, h, hs, if_true] at hcommit ⊢
  simpa [hput] using hcommit

theorem throughPartFile_saved_iff (hr : results ≠ 0) :
    ((∀ e ∈ (throughPartFile answers fs output results operation).1, e.code = .noError) →
      ∃ temp bytes, createPartFileName answers fs output = some temp ∧
        (operation temp).written = some bytes ∧
        (throughPartFile answers fs output results operation).2 output = some bytes) ↔
    ∀ temp, createPartFileName answers fs output = some temp →
      (operation temp).succeeded = true → Placeable answers fs output (operation temp) := by
  cases hc : createPartFileName answers fs output with
  | none =>
    have hfail : ¬∀ e ∈ (throughPartFile answers fs output results operation).1,
        e.code = .noError := by
      intro h
      rw [throughPartFile_none hc] at h
      have he := h (Error.fromCode .eexist) (List.mem_replicate.mpr ⟨hr, rfl⟩)
      simp [Error.fromCode] at he
    constructor
    · intro _ temp ht
      simp at ht
    · intro _ h
      exact absurd h hfail
  | some temp =>
    have hres := throughPartFile_results results operation hc
    have hout := throughPartFile_output results operation hc
    rw [hres, ← Outcome.succeeded_iff]
    constructor
    · intro h t ht hs
      obtain rfl : temp = t := by simpa using ht
      obtain ⟨t, bytes, ht, hw, ho⟩ := h hs
      obtain rfl : temp = t := by simpa using ht
      rw [hout hs, hw] at ho
      refine ⟨bytes, hw, ?_⟩
      by_cases hfree : fs output = none ∧ answers.renameFails = false
      · exact Or.inl hfree
      · rw [if_neg hfree] at ho
        exact Or.inr ho
    · intro h hs
      obtain ⟨bytes, hw, hplace⟩ := h temp rfl hs
      refine ⟨temp, bytes, rfl, hw, ?_⟩
      rw [hout hs, hw]
      cases hplace with
      | inl hfree => rw [if_pos hfree]
      | inr hsame =>
        rw [if_neg (by simp [hsame])]
        exact hsame

/-- Without an existing file to append to, signing takes the common course. -/
theorem signToFilename_eq (signers : List Key) (inputFilePath : QString) (flags : SignatureMode)
    (appendSignature : Bool)
    (h : (Request.sign signers inputFilePath flags appendSignature).appendsTo fs output = none) :
    SignJob.signToFilename ctx answers append fs signers inputFilePath output flags
        appendSignature =
      throughPartFile answers fs output 1 (SignJob.sign ctx signers inputFilePath flags) := by
  cases hc : createPartFileName answers fs output with
  | none => simp [SignJob.signToFilename, throughPartFile, PartialFileGuard.new, hc]
  | some temp =>
    have hput := FileSystem.put_ne (Ne.symm (createPartFileName_ne hc)) fs
      (SignJob.sign ctx signers inputFilePath flags temp).written
    have hno : (appendSignature && flags.detached && (fs output).isSome) = false := by
      by_cases ha : (appendSignature && flags.detached) = true
      · rw [Request.appendsTo, if_pos ha] at h
        simp [h]
      · simp [ha]
    simp only [SignJob.signToFilename, throughPartFile, PartialFileGuard.new, hc, hput, hno]
    rfl

theorem appendSignature_refused {temp : FilePath}
    (h : ∀ bytes, fs temp = some bytes → ¬Accepted append bytes) :
    (SignJob.appendSignatureToExistingFile append fs temp output).1 = false := by
  cases ht : fs temp with
  | none => simp [SignJob.appendSignatureToExistingFile, ht]
  | some bytes =>
    have hb := h bytes ht
    simp only [SignJob.appendSignatureToExistingFile, ht]
    split_ifs with hread hempty hopen
    · rfl
    · rfl
    · rfl
    · simp only [decide_eq_false_iff_not]
      intro hw
      exact hb ⟨by simpa using hread, hempty, by simpa using hopen, hw⟩

theorem appendSignature_accepted {temp : FilePath} {bytes old : QByteArray}
    (ht : fs temp = some bytes) (ho : fs output = some old) (h : Accepted append bytes) :
    SignJob.appendSignatureToExistingFile append fs temp output =
      (true, fs.put output
        (some (old ++ (bytes.take append.bytesRead).take append.bytesStored))) := by
  simp [SignJob.appendSignatureToExistingFile, ht, ho, h.readable, h.not_empty, h.writable,
    h.written]

theorem appendsTo_eq_some {signers : List Key} {inputFilePath : QString} {flags : SignatureMode}
    {appendSignature : Bool} {old : QByteArray}
    (h : (Request.sign signers inputFilePath flags appendSignature).appendsTo fs output =
      some old) :
    (appendSignature && flags.detached) = true ∧ fs output = some old := by
  by_cases ha : (appendSignature && flags.detached) = true
  · rw [Request.appendsTo, if_pos ha] at h
    exact ⟨ha, h⟩
  · rw [Request.appendsTo, if_neg ha] at h
    simp at h

section appending
variable {signers : List Key} {inputFilePath : QString} {flags : SignatureMode}
  {appendSignature : Bool} {temp : FilePath} {old : QByteArray}

/-- With an existing file to append to, nothing is renamed. -/
theorem signToFilename_append
    (h : (Request.sign signers inputFilePath flags appendSignature).appendsTo fs output = some old)
    (hc : createPartFileName answers fs output = some temp)
    (hs : (SignJob.sign ctx signers inputFilePath flags temp).succeeded = true) :
    SignJob.signToFilename ctx answers append fs signers inputFilePath output flags
        appendSignature =
      (if (SignJob.appendSignatureToExistingFile append (fs.put temp
          (SignJob.sign ctx signers inputFilePath flags temp).written) temp output).1
        then (SignJob.sign ctx signers inputFilePath flags temp).results
        else [Error.fromCode .general],
        (PartialFileGuard.new answers fs output).destroy answers
          (SignJob.appendSignatureToExistingFile append (fs.put temp
            (SignJob.sign ctx signers inputFilePath flags temp).written) temp output).2) := by
  obtain ⟨ha, hold⟩ := appendsTo_eq_some h
  have hput := FileSystem.put_ne (Ne.symm (createPartFileName_ne hc)) fs
    (SignJob.sign ctx signers inputFilePath flags temp).written
  simp only [SignJob.signToFilename, PartialFileGuard.new, hc, hs, if_true, hput, ha, hold,
    Option.isSome_some, Bool.and_self]

theorem signToFilename_refused (append : SignJob.AppendAnswers)
    (h : (Request.sign signers inputFilePath flags appendSignature).appendsTo fs output = some old)
    (hc : createPartFileName answers fs output = some temp)
    (hs : (SignJob.sign ctx signers inputFilePath flags temp).succeeded = true)
    (hn : ∀ bytes, (SignJob.sign ctx signers inputFilePath flags temp).written = some bytes →
      ¬Accepted append bytes) :
    (SignJob.signToFilename ctx answers append fs signers inputFilePath output flags
      appendSignature).1 = [Error.fromCode .general] := by
  have href : (SignJob.appendSignatureToExistingFile append (fs.put temp
      (SignJob.sign ctx signers inputFilePath flags temp).written) temp output).1 = false := by
    refine appendSignature_refused fun bytes hb => hn bytes ?_
    rwa [FileSystem.put_self] at hb
  rw [signToFilename_append h hc hs, href]
  rfl

theorem signToFilename_accepted {bytes : QByteArray}
    (h : (Request.sign signers inputFilePath flags appendSignature).appendsTo fs output = some old)
    (hc : createPartFileName answers fs output = some temp)
    (hs : (SignJob.sign ctx signers inputFilePath flags temp).succeeded = true)
    (hw : (SignJob.sign ctx signers inputFilePath flags temp).written = some bytes)
    (hacc : Accepted append bytes) :
    (SignJob.signToFilename ctx answers append fs signers inputFilePath output flags
        appendSignature).1 = (SignJob.sign ctx signers inputFilePath flags temp).results ∧
      (SignJob.signToFilename ctx answers append fs signers inputFilePath output flags
        appendSignature).2 output =
        some (old ++ (bytes.take append.bytesRead).take append.bytesStored) := by
  obtain ⟨-, hold⟩ := appendsTo_eq_some h
  have hput := FileSystem.put_ne (Ne.symm (createPartFileName_ne hc)) fs (some bytes)
  have happ := appendSignature_accepted (FileSystem.put_self fs temp (some bytes))
    (hput.trans hold) hacc
  rw [signToFilename_append h hc hs, hw, happ]
  refine ⟨rfl, ?_⟩
  have hd := (PartialFileGuard.new answers fs output).destroy_fileName answers
  simp only [PartialFileGuard.new] at hd ⊢
  rw [hd, FileSystem.put_self]

theorem signToFilename_success
    (h : ∀ e ∈ (SignJob.signToFilename ctx answers append fs signers inputFilePath output flags
      appendSignature).1, e.code = .noError) :
    ∃ temp, createPartFileName answers fs output = some temp ∧
      (SignJob.sign ctx signers inputFilePath flags temp).succeeded = true := by
  cases hc : createPartFileName answers fs output with
  | none =>
    have he := h (Error.fromCode .eexist) (by
      simp [SignJob.signToFilename, PartialFileGuard.new, hc])
    simp [Error.fromCode] at he
  | some temp =>
    refine ⟨temp, rfl, ?_⟩
    by_cases hs : (SignJob.sign ctx signers inputFilePath flags temp).succeeded = true
    · exact hs
    · simp only [SignJob.signToFilename, PartialFileGuard.new, hc, if_neg hs] at h
      exact Outcome.succeeded_iff.mpr h

/-- Whether an appended signature is saved does not depend on the rename. -/
theorem append_saved_iff
    (h : (Request.sign signers inputFilePath flags appendSignature).appendsTo fs output =
      some old) :
    Saved ctx answers append fs output (.sign signers inputFilePath flags appendSignature) ↔
      ∀ temp, createPartFileName answers fs output = some temp →
        (SignJob.sign ctx signers inputFilePath flags temp).succeeded = true →
        Appendable append (SignJob.sign ctx signers inputFilePath flags temp) := by
  simp only [Saved, h, Option.getD_some, Request.work, Request.operation]
  constructor
  · intro hsaved temp hc hs bytes hw hacc
    obtain ⟨hres, hout⟩ := signToFilename_accepted h hc hs hw hacc
    rw [hres, hout] at hsaved
    obtain ⟨t, bytes', ht, hw', hbytes⟩ := hsaved (Outcome.succeeded_iff.mp hs)
    obtain rfl : temp = t := by simpa [hc] using ht
    obtain rfl : bytes = bytes' := by simpa [hw] using hw'
    simpa using hbytes
  · intro hcan hres
    obtain ⟨temp, hc, hs⟩ := signToFilename_success hres
    by_cases hacc : ∃ bytes, (SignJob.sign ctx signers inputFilePath flags temp).written =
        some bytes ∧ Accepted append bytes
    · obtain ⟨bytes, hw, hacc⟩ := hacc
      have hout := (signToFilename_accepted h hc hs hw hacc).2
      rw [hcan temp hc hs bytes hw hacc] at hout
      exact ⟨temp, bytes, hc, hw, hout⟩
    · have href := signToFilename_refused append h hc hs
        fun bytes hw ha => hacc ⟨bytes, hw, ha⟩
      rw [href] at hres
      have he := hres (Error.fromCode .general) (by simp)
      simp [Error.fromCode] at he

end appending

theorem throughPartFile_other {g : FilePath} (hg : g ≠ output)
    (ht : createPartFileName answers fs output ≠ some g) :
    (throughPartFile answers fs output results operation).2 g = fs g := by
  cases hc : createPartFileName answers fs output with
  | none => rw [throughPartFile_none hc]
  | some temp =>
    have hne : g ≠ temp := fun he => ht (he ▸ hc)
    have hput := FileSystem.put_ne hne fs (operation temp).written
    by_cases hs : (operation temp).succeeded = true
    · have hcommit := (PartialFileGuard.new answers fs output).commit_destroy_other answers
        (fs.put temp (operation temp).written) ht hg
      simp only [throughPartFile, PartialFileGuard.new, hc, hs, if_true] at hcommit ⊢
      exact hcommit.trans hput
    · have hd := (PartialFileGuard.new answers fs output).destroy_other answers
        (fs.put temp (operation temp).written) ht
      simp only [throughPartFile, PartialFileGuard.new, hc, if_neg hs] at hd ⊢
      exact hd.trans hput

theorem appendSignature_other {temp g : FilePath} (hg : g ≠ output) :
    (SignJob.appendSignatureToExistingFile append fs temp output).2 g = fs g := by
  cases ht : fs temp with
  | none => simp [SignJob.appendSignatureToExistingFile, ht]
  | some bytes =>
    simp only [SignJob.appendSignatureToExistingFile, ht]
    split_ifs
    · rfl
    · rfl
    · rfl
    · exact FileSystem.put_ne hg fs _

/-- Whatever happens, a worker touches no file but the output and the temporary one. -/
theorem work_other (request : Request Key) {g : FilePath} (hg : g ≠ output)
    (ht : createPartFileName answers fs output ≠ some g) :
    (request.work ctx answers append fs output).2 g = fs g := by
  cases request with
  | sign signers input flags appendSignature =>
    cases h : (Request.sign signers input flags appendSignature).appendsTo fs output with
    | none =>
      simp only [Request.work, signToFilename_eq signers input flags appendSignature h]
      exact throughPartFile_other hg ht
    | some old =>
      cases hc : createPartFileName answers fs output with
      | none =>
        simp [Request.work, SignJob.signToFilename, PartialFileGuard.new,
          PartialFileGuard.destroy, hc]
      | some temp =>
        have hne : g ≠ temp := fun he => ht (he ▸ hc)
        have hput := FileSystem.put_ne hne fs (SignJob.sign ctx signers input flags temp).written
        have hd := fun fs' => (PartialFileGuard.new answers fs output).destroy_other answers fs' ht
        by_cases hs : (SignJob.sign ctx signers input flags temp).succeeded = true
        · rw [Request.work, signToFilename_append h hc hs]
          exact (hd _).trans ((appendSignature_other hg).trans hput)
        · have hd := hd (fs.put temp (SignJob.sign ctx signers input flags temp).written)
          simp only [Request.work, SignJob.signToFilename, PartialFileGuard.new, hc,
            if_neg hs] at hd ⊢
          exact hd.trans hput
  | encrypt => exact throughPartFile_other hg ht
  | signEncrypt => exact throughPartFile_other hg ht
  | decryptVerify => exact throughPartFile_other hg ht
  | verifyOpaque => exact throughPartFile_other hg ht
  | signArchive => exact throughPartFile_other hg ht
  | encryptArchive => exact throughPartFile_other hg ht
  | signEncryptArchive => exact throughPartFile_other hg ht

/-- Success means a saved output file exactly when an operation that succeeds has written a
file that can be put in place, or has written a signature that is appended as a whole. -/
theorem saved_iff (ctx : Context Key) (answers : FileAnswers) (append : SignJob.AppendAnswers)
    (fs : FileSystem) (output : FilePath) (request : Request Key) :
    Saved ctx answers append fs output request ↔
      CanSave ctx answers append fs output request := by
  cases request with
  | sign signers input flags appendSignature =>
    cases h : (Request.sign signers input flags appendSignature).appendsTo fs output with
    | none =>
      simp only [Saved, CanSave, h, Option.getD_none, List.nil_append, Request.work,
        Request.operation, signToFilename_eq signers input flags appendSignature h]
      exact throughPartFile_saved_iff (by decide)
    | some old =>
      rw [append_saved_iff h, CanSave, h]
      rfl
  | encrypt => exact throughPartFile_saved_iff (by decide)
  | signEncrypt => exact throughPartFile_saved_iff (by decide)
  | decryptVerify => exact throughPartFile_saved_iff (by decide)
  | verifyOpaque => exact throughPartFile_saved_iff (by decide)
  | signArchive => exact throughPartFile_saved_iff (by decide)
  | encryptArchive => exact throughPartFile_saved_iff (by decide)
  | signEncryptArchive => exact throughPartFile_saved_iff (by decide)

/-- A context without signers whose every operation succeeds and writes one byte. -/
def oneByteContext : Context Unit where
  isNull _ := false
  addSigningKey _ := Error.noError
  encrypt _ _ _ _ := (Error.noError, some [1])
  sign _ _ _ _ := (Error.noError, some [1])
  signAndEncrypt _ _ _ _ _ := ((Error.noError, Error.noError), some [1])
  decryptAndVerify _ _ _ := ((Error.noError, Error.noError), some [1])
  verifyOpaqueSignature _ _ _ := (Error.noError, some [1])

/-- The output file exists already: the rename fails, success is reported and the output of
the operation is deleted. -/
theorem output_lost :
    ∃ (answers : FileAnswers) (append : SignJob.AppendAnswers) (output : FilePath),
      let fs : FileSystem := FileSystem.put (fun _ => none) output (some [2])
      let request : Request Unit := .encrypt [] "plain".toList ⟨false, false, 0⟩
      let after := request.work oneByteContext answers append fs output
      after.1 = [Error.noError] ∧ after.2 output = some [2] ∧
        ¬Saved oneByteContext answers append fs output request := by
  refine ⟨⟨fun _ => "YHgf2tEl".toList, false, false⟩, ⟨false, 0, false, 0, 0⟩,
    ⟨".".toList, "out.gpg".toList⟩, by decide, by decide, ?_⟩
  intro h
  obtain ⟨temp, bytes, -, hw, hout⟩ := h (by decide)
  have hw' : some [1] = some bytes := hw
  obtain rfl : [1] = bytes := Option.some.inj hw'
  exact absurd hout (by decide)

end saving
end QGpgME.FileWorkers
