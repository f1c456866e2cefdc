import QGpgME.QtString
import Mathlib.Logic.Function.Basic

/-! PartialFileGuard: an output file is written under a temporary name beside the requested
one, and renamed when it is complete. -/
namespace QGpgME.PartialFile

/-- A file name as QFileInfo splits it at the last slash. -/
structure FilePath where
  path : QString
  fileName : QString
deriving DecidableEq

namespace FilePath

/-- The part before the first dot. -/
def baseName (f : FilePath) : QString := f.fileName.takeWhile fun c => c ≠ '.'

/-- The part after the first dot. -/
def completeSuffix (f : FilePath) : QString := (f.fileName.dropWhile fun c => c ≠ '.').tail

end FilePath

/-- What the files hold. -/
abbrev FileSystem := FilePath → Option QByteArray

/-- What is decided outside: the random characters of each attempt, and whether renaming
and removing a file that could be renamed or removed fails all the same. -/
structure FileAnswers where
  randomCharacters : Nat → QString
  renameFails : Bool
  removeFails : Bool

namespace FileSystem

def put (fs : FileSystem) (f : FilePath) (content : Option QByteArray) : FileSystem :=
  Function.update fs f content

/-- `QFile::rename` -/
def rename (answers : FileAnswers) (fs : FileSystem) (old new : FilePath) : Bool × FileSystem :=
  match fs old with
  | none => (false, fs)
  | some content =>
    if (fs new).isSome || answers.renameFails then (false, fs)
    else (true, (fs.put old none).put new (some content))

/-- `Cleaner::removeFile`, as far as it acts at once. -/
def removeFile (answers : FileAnswers) (fs : FileSystem) (f : FilePath) : FileSystem :=
  if (fs f).isSome && !answers.removeFails then fs.put f none else fs

@[simp] theorem put_self (fs : FileSystem) (f : FilePath) (content : Option QByteArray) :
    fs.put f content f = content := by
  simp [put]

theorem put_ne {f g : FilePath} (h : g ≠ f) (fs : FileSystem) (content : Option QByteArray) :
    fs.put f content g = fs g := by
  simp [put, h]

theorem removeFile_ne {f g : FilePath} (h : g ≠ f) (answers : FileAnswers) (fs : FileSystem) :
    removeFile answers fs f g = fs g := by
  by_cases hr : ((fs f).isSome && !answers.removeFails) = true
  · rw [removeFile, if_pos hr, put_ne h]
  · rw [removeFile, if_neg hr]

/-- What a file holds after a rename to it. -/
theorem rename_new (answers : FileAnswers) (fs : FileSystem) (old new : FilePath) :
    (rename answers fs old new).2 new =
      if fs new = none ∧ answers.renameFails = false then fs old else fs new := by
  cases ho : fs old with
  | none =>
    cases hn : fs new <;> simp [rename, ho, hn]
  | some content =>
    cases hn : fs new with
    | none =>
      cases hr : answers.renameFails <;> simp [rename, ho, hn, hr]
    | some other => simp [rename, ho, hn]

theorem rename_ne {old new g : FilePath} (ho : g ≠ old) (hn : g ≠ new) (answers : FileAnswers)
    (fs : FileSystem) : (rename answers fs old new).2 g = fs g := by
  cases h : fs old with
  | none => simp [rename, h]
  | some content =>
    by_cases hr : ((fs new).isSome || answers.renameFails) = true
    · simp only [rename, h, if_pos hr]
    · simp only [rename, h, if_neg hr, put_ne hn, put_ne ho]

end FileSystem

def maxAttempts : Nat := 10

def candidate (f : FilePath) (randomCharacters : QString) : FilePath :=
  ⟨f.path, f.baseName ++ ['.'] ++ randomCharacters ++ ['.'] ++ f.completeSuffix ++ ".part".toList⟩

/-- None where the source returns an empty name. -/
def createPartFileName (answers : FileAnswers) (fs : FileSystem) (f : FilePath) :
    Option FilePath :=
  ((List.range maxAttempts).map fun attempt => candidate f (answers.randomCharacters attempt)).find?
    fun c => (fs c).isNone

theorem candidate_ne (f : FilePath) (randomCharacters : QString) :
    candidate f randomCharacters ≠ f := by
  intro h
  have hlen := congrArg (fun g : FilePath => g.fileName.length) h
  have hsplit := congrArg List.length
    (List.takeWhile_append_dropWhile (p := fun c => c ≠ '.') (l := f.fileName))
  simp only [candidate, FilePath.baseName, FilePath.completeSuffix, List.length_append,
    List.length_tail, List.length_singleton] at hlen hsplit
  omega

theorem createPartFileName_ne {answers : FileAnswers} {fs : FileSystem} {f temp : FilePath}
    (h : createPartFileName answers fs f = some temp) : temp ≠ f := by
  have hm := List.mem_of_find?_eq_some h
  obtain ⟨attempt, -, rfl⟩ := List.mem_map.mp hm
  exact candidate_ne f _

/-- The name chosen is not in use. -/
theorem createPartFileName_free {answers : FileAnswers} {fs : FileSystem} {f temp : FilePath}
    (h : createPartFileName answers fs f = some temp) : fs temp = none := by
  have hp := List.find?_some h
  simpa using hp

/-- The temporary name is gone after a commit; it never is the requested one. -/
structure PartialFileGuard where
  mFileName : FilePath
  mTempFileName : Option FilePath
  temp_ne : ∀ temp, mTempFileName = some temp → temp ≠ mFileName

namespace PartialFileGuard

def new (answers : FileAnswers) (fs : FileSystem) (fileName : FilePath) : PartialFileGuard :=
  ⟨fileName, createPartFileName answers fs fileName, fun _ h => createPartFileName_ne h⟩

/-- The destructor. -/
def destroy (guard : PartialFileGuard) (answers : FileAnswers) (fs : FileSystem) : FileSystem :=
  match guard.mTempFileName with
  | none => fs
  | some temp => fs.removeFile answers temp

def clear (guard : PartialFileGuard) : PartialFileGuard :=
  ⟨guard.mFileName, none, fun _ h => by simp at h⟩

def commit (guard : PartialFileGuard) (answers : FileAnswers) (fs : FileSystem) :
    (Bool × PartialFileGuard) × FileSystem :=
  match guard.mTempFileName with
  | none => ((false, guard), fs)
  | some temp =>
    match fs.rename answers temp guard.mFileName with
    | (true, fs) => ((true, guard.clear), fs)
    | (false, fs) => ((false, guard), fs)

/-- The guard never touches the requested file on its way out. -/
theorem destroy_fileName (guard : PartialFileGuard) (answers : FileAnswers) (fs : FileSystem) :
    guard.destroy answers fs guard.mFileName = fs guard.mFileName := by
  cases h : guard.mTempFileName with
  | none => rw [destroy, h]
  | some temp =>
    have hne := guard.temp_ne temp h
    rw [destroy, h]
    exact FileSystem.removeFile_ne (Ne.symm hne) answers fs

/-- What the requested file holds after a commit and the end of the guard. -/
theorem commit_destroy (guard : PartialFileGuard) (answers : FileAnswers) (fs : FileSystem)
    (temp : FilePath) (h : guard.mTempFileName = some temp) :
    (guard.commit answers fs).1.2.destroy answers (guard.commit answers fs).2 guard.mFileName =
      if fs guard.mFileName = none ∧ answers.renameFails = false then fs temp
      else fs guard.mFileName := by
  have hnew := FileSystem.rename_new answers fs temp guard.mFileName
  cases hr : fs.rename answers temp guard.mFileName with
  | mk success fs' =>
    rw [hr] at hnew
    cases success with
    | true => simpa [commit, h, hr, destroy, clear] using hnew
    | false =>
      have hd := destroy_fileName guard answers fs'
      simp only [commit, h, hr]
      rw [hd]
      exact hnew

theorem destroy_other (guard : PartialFileGuard) (answers : FileAnswers) (fs : FileSystem)
    {g : FilePath} (h : guard.mTempFileName ≠ some g) :
    guard.destroy answers fs g = fs g := by
  cases ht : guard.mTempFileName with
  | none => rw [destroy, ht]
  | some temp =>
    have hne : g ≠ temp := fun he => h (he ▸ ht)
    rw [destroy, ht]
    exact FileSystem.removeFile_ne hne answers fs

/-- Files other than the two of the guard stay as they are. -/
theorem commit_destroy_other (guard : PartialFileGuard) (answers : FileAnswers)
    (fs : FileSystem) {g : FilePath} (h : guard.mTempFileName ≠ some g)
    (hg : g ≠ guard.mFileName) :
    (guard.commit answers fs).1.2.destroy answers (guard.commit answers fs).2 g = fs g := by
  cases ht : guard.mTempFileName with
  | none =>
    have hd := destroy_other guard answers fs h
    simpa only [commit, ht] using hd
  | some temp =>
    have hne : g ≠ temp := fun he => h (he ▸ ht)
    have hren := FileSystem.rename_ne hne hg answers fs
    cases hr : fs.rename answers temp guard.mFileName with
    | mk success fs' =>
      rw [hr] at hren
      cases success with
      | true => simpa [commit, ht, hr, destroy, clear] using hren
      | false =>
        have hd := destroy_other guard answers fs' h
        simp only [commit, ht, hr]
        rw [hd]
        exact hren

end PartialFileGuard
end QGpgME.PartialFile
