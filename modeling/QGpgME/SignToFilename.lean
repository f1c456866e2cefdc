import QGpgME.FileWorkers

/-! What a signing to a file that ends in an error leaves behind. -/
namespace QGpgME.FileWorkers
open PartialFile

/-- After an error the output file is as before, and no temporary file is left unless removing
it fails. -/
def Undone (answers : FileAnswers) (fs : FileSystem) (output : FilePath)
    (after : List Error × FileSystem) : Prop :=
  (∃ e ∈ after.1, e.code ≠ .noError) →
    after.2 output = fs output ∧
      (answers.removeFails = false →
        ∀ temp, createPartFileName answers fs output = some temp → after.2 temp = none)

/-- `write` to the existing file returns something else than the size of the signature, and a
part of it has reached the file. -/
structure PartWritten (append : SignJob.AppendAnswers) (bytes : QByteArray) : Prop where
  readable : append.readOpenFails = false
  not_empty : bytes.take append.bytesRead ≠ []
  writable : append.appendOpenFails = false
  refused : append.bytesWritten ≠ (bytes.take append.bytesRead).length
  stored : (bytes.take append.bytesRead).take append.bytesStored ≠ []

section appending
variable {append : SignJob.AppendAnswers} {fs : FileSystem} {temp output : FilePath}
  {bytes old : QByteArray}

/-- An append that fails before it writes, or writes nothing, changes no file's content. -/
theorem append_failed (ho : fs output = some old)
    (hfail : (SignJob.appendSignatureToExistingFile append fs temp output).1 = false)
    (hpart : ∀ bytes, fs temp = some bytes → ¬PartWritten append bytes) :
    (SignJob.appendSignatureToExistingFile append fs temp output).2 output = fs output := by
  cases ht : fs temp with
  | none => simp [SignJob.appendSignatureToExistingFile, ht]
  | some bytes =>
    simp only [SignJob.appendSignatureToExistingFile, ht] at hfail ⊢
    split_ifs at hfail ⊢ with hread hempty hopen
    · rfl
    · rfl
    · rfl
    · have hstored : (bytes.take append.bytesRead).take append.bytesStored = [] := by
        by_contra hne
        exact hpart bytes ht ⟨by simpa using hread, hempty, by simpa using hopen,
          of_decide_eq_false hfail, hne⟩
      simp [hstored, ho]

theorem append_partWritten (ht : fs temp = some bytes) (ho : fs output = some old)
    (h : PartWritten append bytes) :
    SignJob.appendSignatureToExistingFile append fs temp output =
      (false, fs.put output
        (some (old ++ (bytes.take append.bytesRead).take append.bytesStored))) := by
  have hrefused : decide (append.bytesWritten = (bytes.take append.bytesRead).length) = false :=
    decide_eq_false h.refused
  simp only [SignJob.appendSignatureToExistingFile, ht, ho, h.readable, if_neg h.not_empty,
    h.writable, hrefused, Bool.false_eq_true, if_false, Option.getD_some]

end appending

section signing
variable {Key : Type*} {ctx : Context Key} {answers : FileAnswers}
  {append : SignJob.AppendAnswers} {fs : FileSystem} {output temp : FilePath}
  {signers : List Key} {inputFilePath : QString} {flags : SignatureMode} {appendSignature : Bool}

theorem destroy_temp (h : createPartFileName answers fs output = some temp)
    (hremove : answers.removeFails = false) (fs' : FileSystem) :
    (PartialFileGuard.new answers fs output).destroy answers fs' temp = none := by
  simp only [PartialFileGuard.destroy, PartialFileGuard.new, h, FileSystem.removeFile, hremove]
  cases hfile : fs' temp with
  | none => simp [hfile]
  | some content => simp

/-- Whatever is done to the files, the guard removes its temporary file. -/
theorem undone_of_output {results : List Error} {fs' : FileSystem}
    (houtput : fs' output = fs output) :
    Undone answers fs output
      (results, (PartialFileGuard.new answers fs output).destroy answers fs') := by
  intro _
  constructor
  · exact ((PartialFileGuard.new answers fs output).destroy_fileName answers fs').trans houtput
  · intro hremove temp hc
    exact destroy_temp hc hremove fs'

theorem undone_of_success {after : List Error × FileSystem}
    (h : ∀ e ∈ after.1, e.code = .noError) : Undone answers fs output after := by
  intro herror
  obtain ⟨e, he, hcode⟩ := herror
  exact absurd (h e he) hcode

theorem undone_of_rejected (h : ∀ temp, createPartFileName answers fs output = some temp →
      (SignJob.sign ctx signers inputFilePath flags temp).succeeded = false) :
    Undone answers fs output (SignJob.signToFilename ctx answers append fs signers inputFilePath
      output flags appendSignature) := by
  cases hc : createPartFileName answers fs output with
  | none =>
    have hresult : SignJob.signToFilename ctx answers append fs signers inputFilePath output flags
        appendSignature = ([Error.fromCode .eexist],
          (PartialFileGuard.new answers fs output).destroy answers fs) := by
      simp [SignJob.signToFilename, PartialFileGuard.new, hc]
    rw [hresult]
    exact undone_of_output rfl
  | some temp =>
    have hresult : SignJob.signToFilename ctx answers append fs signers inputFilePath output flags
        appendSignature = ((SignJob.sign ctx signers inputFilePath flags temp).results,
          (PartialFileGuard.new answers fs output).destroy answers
            (fs.put temp (SignJob.sign ctx signers inputFilePath flags temp).written)) := by
      simp [SignJob.signToFilename, PartialFileGuard.new, hc, h temp hc]
    rw [hresult]
    exact undone_of_output (FileSystem.put_ne (Ne.symm (createPartFileName_ne hc)) fs _)

/-- Without a file to append to, an operation that succeeds is no error. -/
theorem undone_of_committed
    (happend :
      (Request.sign signers inputFilePath flags appendSignature).appendsTo fs output = none)
    (hc : createPartFileName answers fs output = some temp)
    (hs : (SignJob.sign ctx signers inputFilePath flags temp).succeeded = true) :
    Undone answers fs output (SignJob.signToFilename ctx answers append fs signers inputFilePath
      output flags appendSignature) := by
  apply undone_of_success
  rw [signToFilename_eq signers inputFilePath flags appendSignature happend,
    throughPartFile_results 1 _ hc]
  exact Outcome.succeeded_iff.mp hs

/-- No signature is appended in part. -/
def NoPartWritten (ctx : Context Key) (answers : FileAnswers) (append : SignJob.AppendAnswers)
    (fs : FileSystem) (signers : List Key) (inputFilePath : QString) (output : FilePath)
    (flags : SignatureMode) (appendSignature : Bool) : Prop :=
  ∀ temp bytes, createPartFileName answers fs output = some temp →
    (SignJob.sign ctx signers inputFilePath flags temp).succeeded = true →
    (SignJob.sign ctx signers inputFilePath flags temp).written = some bytes →
    appendSignature = true → flags.detached = true → (fs output).isSome = true →
    ¬PartWritten append bytes

section appended
variable {old : QByteArray}
  (happend : (Request.sign signers inputFilePath flags appendSignature).appendsTo fs output =
    some old)
  (hc : createPartFileName answers fs output = some temp)
  (hs : (SignJob.sign ctx signers inputFilePath flags temp).succeeded = true)
include happend hc hs

theorem undone_of_appended
    (hpart : ∀ bytes, (SignJob.sign ctx signers inputFilePath flags temp).written = some bytes →
      ¬PartWritten append bytes) :
    Undone answers fs output (SignJob.signToFilename ctx answers append fs signers inputFilePath
      output flags appendSignature) := by
  obtain ⟨-, ho⟩ := appendsTo_eq_some happend
  have hput := FileSystem.put_ne (Ne.symm (createPartFileName_ne hc)) fs
    (SignJob.sign ctx signers inputFilePath flags temp).written
  rw [signToFilename_append happend hc hs]
  cases happended : (SignJob.appendSignatureToExistingFile append (fs.put temp
      (SignJob.sign ctx signers inputFilePath flags temp).written) temp output).1 with
  | true => exact undone_of_success (Outcome.succeeded_iff.mp hs)
  | false =>
    have hkept := append_failed (hput.trans ho) happended
      (fun bytes hb => hpart bytes (by rwa [FileSystem.put_self] at hb))
    exact undone_of_output (hkept.trans hput)

theorem not_undone_of_partWritten {bytes : QByteArray}
    (hw : (SignJob.sign ctx signers inputFilePath flags temp).written = some bytes)
    (hpart : PartWritten append bytes) :
    ¬Undone answers fs output (SignJob.signToFilename ctx answers append fs signers inputFilePath
      output flags appendSignature) := by
  obtain ⟨-, ho⟩ := appendsTo_eq_some happend
  have hput := FileSystem.put_ne (Ne.symm (createPartFileName_ne hc)) fs (some bytes)
  have hwritten := append_partWritten (FileSystem.put_self fs temp (some bytes))
    (hput.trans ho) hpart
  rw [signToFilename_append happend hc hs, hw, hwritten]
  intro hundone
  have hsame := (hundone ⟨Error.fromCode .general, List.mem_singleton_self _, by decide⟩).1
  have hdestroy := (PartialFileGuard.new answers fs output).destroy_fileName answers
    ((fs.put temp (some bytes)).put output
      (some (old ++ (bytes.take append.bytesRead).take append.bytesStored)))
  have hlonger := (hdestroy.symm.trans hsame).trans ho
  rw [show (PartialFileGuard.new answers fs output).mFileName = output from rfl,
    FileSystem.put_self] at hlonger
  exact hpart.stored (List.append_right_eq_self.mp (Option.some.inj hlonger))

end appended

/-- A signing that ends in an error leaves the files as they were if and only if no signature
is appended in part. -/
theorem signToFilename_undone_iff (ctx : Context Key) (answers : FileAnswers)
    (append : SignJob.AppendAnswers) (fs : FileSystem) (signers : List Key)
    (inputFilePath : QString) (output : FilePath) (flags : SignatureMode)
    (appendSignature : Bool) :
    Undone answers fs output (SignJob.signToFilename ctx answers append fs signers inputFilePath
      output flags appendSignature) ↔
    NoPartWritten ctx answers append fs signers inputFilePath output flags appendSignature := by
  constructor
  · intro hundone temp bytes hc hs hw happend hdetached hexists hpart
    obtain ⟨old, ho⟩ := Option.isSome_iff_exists.mp hexists
    have happendsTo : (Request.sign signers inputFilePath flags appendSignature).appendsTo fs
        output = some old := by
      rw [Request.appendsTo, happend, hdetached]
      exact ho
    exact not_undone_of_partWritten happendsTo hc hs hw hpart hundone
  · intro hno
    by_cases hsucceeds : ∃ temp, createPartFileName answers fs output = some temp ∧
        (SignJob.sign ctx signers inputFilePath flags temp).succeeded = true
    · obtain ⟨temp, hc, hs⟩ := hsucceeds
      cases happend : (Request.sign signers inputFilePath flags appendSignature).appendsTo fs
          output with
      | none => exact undone_of_committed happend hc hs
      | some old =>
        obtain ⟨hflags, ho⟩ := appendsTo_eq_some happend
        rw [Bool.and_eq_true] at hflags
        exact undone_of_appended happend hc hs fun bytes hw =>
          hno temp bytes hc hs hw hflags.1 hflags.2 (by rw [ho]; rfl)
    · refine undone_of_rejected fun temp hc => ?_
      by_contra hs
      exact hsucceeds ⟨temp, hc, by simpa using hs⟩

/-- The disk is full behind the first byte of a signature of two bytes. -/
theorem short_append_kept :
    let ctx : Context Unit := { oneByteContext with
      sign := fun _ _ _ _ => (Error.noError, some [1, 2]) }
    let answers : FileAnswers := ⟨fun _ => "YHgf2tEl".toList, false, false⟩
    let append : SignJob.AppendAnswers := ⟨false, 2, false, 1, 1⟩
    let output : FilePath := ⟨".".toList, "file.sig".toList⟩
    let fs : FileSystem := FileSystem.put (fun _ => none) output (some [9])
    let after := SignJob.signToFilename ctx answers append fs [] "file".toList output
      ⟨true, false, false, false⟩ true
    after.1 = [Error.fromCode .general] ∧ after.2 output = some [9, 1] ∧
      ¬Undone answers fs output after := by
  intro ctx answers append output fs after
  have herror : after.1 = [Error.fromCode .general] := by decide
  have hfile : after.2 output = some [9, 1] := by decide
  refine ⟨herror, hfile, fun hundone => ?_⟩
  have hsame := (hundone ⟨Error.fromCode .general, by rw [herror]; simp, by decide⟩).1
  rw [hfile] at hsame
  exact absurd hsame (by decide)

end signing

end QGpgME.FileWorkers
