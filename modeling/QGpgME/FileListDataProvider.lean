import QGpgME.DataProvider
import Mathlib.Data.List.Forall2

/-! FileListDataProvider: a list of file names as a text that can only be read, the names
separated by NUL bytes. -/
namespace QGpgME

/-- The space that is reserved for the result does not show in it. -/
def encodeFilenames (filenames : List QString) : QByteArray :=
  if filenames = [] then []
  else
    (filenames.foldl (fun ret f => if f ≠ [] then ret ++ (QString.toUtf8 f ++ [0]) else ret)
      []).dropLast

structure FileListDataProvider where
  mProvider : QByteArrayDataProvider

namespace FileListDataProvider
open DataProvider EventRun

def new (filenames : List QString) : FileListDataProvider :=
  ⟨QByteArrayDataProvider.new (encodeFilenames filenames)⟩

def read (p : FileListDataProvider) (buffer : Bool) (bufSize : Nat) :
    Option (Answer × FileListDataProvider) :=
  (p.mProvider.read buffer bufSize).map fun r => (r.1, ⟨r.2⟩)

def write (p : FileListDataProvider) : Answer × FileListDataProvider := (.failure .ebadf, p)

def seek (p : FileListDataProvider) (offset : Int) (whence : Whence) :
    Answer × FileListDataProvider :=
  let (answer, mProvider) := p.mProvider.seek offset whence
  (answer, ⟨mProvider⟩)

def release (p : FileListDataProvider) : FileListDataProvider := ⟨p.mProvider.release⟩

def step (p : FileListDataProvider) : Call → Option (Answer × FileListDataProvider)
  | .read buffer bufSize => p.read buffer bufSize
  | .write _ => some p.write
  | .writeNull _ => some p.write
  | .seek offset whence => some (p.seek offset whence)
  | .release => some (.success 0 [], p.release)

section text
variable {filenames : List QString}

/-- The names that are packed. -/
def packed (filenames : List QString) : List QString := filenames.filter fun f => f ≠ []

theorem foldl_packed (filenames : List QString) (ret : QByteArray) :
    filenames.foldl (fun ret f => if f ≠ [] then ret ++ (QString.toUtf8 f ++ [0]) else ret) ret =
      ret ++ ((packed filenames).map QString.toUtf8).flatMap fun part => part ++ [0] := by
  induction filenames generalizing ret with
  | nil => simp [packed]
  | cons f filenames ih =>
    rw [List.foldl_cons, ih]
    by_cases hf : f = []
    · simp [packed, hf]
    · simp [packed, hf]

theorem encodeFilenames_eq (filenames : List QString) :
    encodeFilenames filenames = [0].intercalate ((packed filenames).map QString.toUtf8) := by
  by_cases h : filenames = []
  · simp [encodeFilenames, h, packed]
  · rw [encodeFilenames, if_neg h, foldl_packed, List.nil_append]
    exact dropLast_flatMap_mark 0 _

theorem zero_not_mem_toUtf8 {f : QString} (h : '\x00' ∉ f) : 0 ∉ QString.toUtf8 f := by
  have hascii : Utf8.Ascii '\x00' := by decide
  intro hmem
  exact h ((Utf8.mem_encode_ascii hascii).mp hmem)

theorem zero_not_mem_packed (hnul : ∀ f ∈ filenames, '\x00' ∉ f) :
    ∀ part ∈ (packed filenames).map QString.toUtf8, 0 ∉ part := by
  intro part hpart
  obtain ⟨f, hf, rfl⟩ := List.mem_map.mp hpart
  exact zero_not_mem_toUtf8 (hnul f (List.mem_of_mem_filter hf))

theorem packed_toUtf8_ne_nil :
    ∀ part ∈ (packed filenames).map QString.toUtf8, part ≠ [] := by
  intro part hpart
  obtain ⟨f, hf, rfl⟩ := List.mem_map.mp hpart
  have hne : f ≠ [] := by simpa using (List.mem_filter.mp hf).2
  exact fun h => hne (Utf8.encode_eq_nil_iff.mp h)

/-- Where there is a name to pack, the text falls into the codes of the packed names. -/
theorem splitOn_encodeFilenames (hnul : ∀ f ∈ filenames, '\x00' ∉ f)
    (hne : packed filenames ≠ []) :
    (encodeFilenames filenames).splitOn 0 = (packed filenames).map QString.toUtf8 := by
  rw [encodeFilenames_eq]
  exact List.splitOn_intercalate 0 (zero_not_mem_packed hnul) (by simpa using hne)

theorem decode_toUtf8 (names : List QString) :
    (names.map QString.toUtf8).map Utf8.decode = names := by
  rw [List.map_map]
  calc
    names.map (Utf8.decode ∘ QString.toUtf8) = names.map id :=
      List.map_congr_left fun f _ => Utf8.decode_encode f
    _ = names := List.map_id names

end text

section calls
variable {p : FileListDataProvider}

/-- A call that asks for bytes, or one that tries to write. -/
def ReadOrWrite : Call → Prop
  | .read buffer bufSize => buffer = true ∧ 0 < bufSize
  | .write _ => True
  | .writeNull _ => True
  | _ => False

def readSize : Call → Nat
  | .read _ bufSize => bufSize
  | _ => 0

/-- A read counts the bytes that it returns, and a write fails. -/
def Answers (call : Call) (answer : Answer) : Prop :=
  match call with
  | .read _ _ => answer.value = answer.data.length ∧ answer.error = none
  | _ => answer = .failure .ebadf

theorem step_readOrWrite (hoff : 0 ≤ p.mProvider.mOff) {call : Call} (hcall : ReadOrWrite call) :
    ∃ answer p', step p call = some (answer, p') ∧ Answers call answer ∧
      answer.data = p.mProvider.remaining.take (readSize call) ∧ 0 ≤ p'.mProvider.mOff ∧
      p'.mProvider.remaining = p.mProvider.remaining.drop (readSize call) := by
  cases call with
  | read buffer bufSize =>
    obtain ⟨hbuffer, hsize⟩ := hcall
    obtain ⟨q, hread, hq, -, hrest⟩ := QByteArrayDataProvider.read_piece hoff hsize
    refine ⟨.piece (p.mProvider.remaining.take bufSize), ⟨q⟩, ?_, ⟨rfl, rfl⟩, rfl, hq, hrest⟩
    rw [step, FileListDataProvider.read, hbuffer, hread]
    rfl
  | write bytes => exact ⟨_, p, rfl, rfl, rfl, hoff, rfl⟩
  | writeNull bufSize => exact ⟨_, p, rfl, rfl, rfl, hoff, rfl⟩
  | seek offset whence => exact hcall.elim
  | release => exact hcall.elim

theorem calls_pieces (hoff : 0 ≤ p.mProvider.mOff) {calls : List Call}
    (hcalls : ∀ call ∈ calls, ReadOrWrite call) :
    ∃ replies p', answers step calls p = some (replies, p') ∧ List.Forall₂ Answers calls replies ∧
      replies.map Answer.data = pieces p.mProvider.remaining (calls.map readSize) := by
  induction calls generalizing p with
  | nil => exact ⟨[], p, rfl, .nil, rfl⟩
  | cons call calls ih =>
    obtain ⟨hcall, hcalls⟩ := List.forall_mem_cons.mp hcalls
    obtain ⟨answer, q, hstep, hanswer, hdata, hq, hrest⟩ := step_readOrWrite hoff hcall
    obtain ⟨replies, p', hlater, hall, hpieces⟩ := ih hq hcalls
    refine ⟨answer :: replies, p', answers_cons hstep hlater, .cons hanswer hall, ?_⟩
    rw [List.map_cons, List.map_cons, pieces, hdata, hpieces, hrest]

/-- A read that returns no bytes comes after the whole text. -/
theorem flatten_before_zero {text : QByteArray} {calls : List Call} {replies : List Answer}
    (hall : List.Forall₂ Answers calls replies)
    (hpieces : replies.map Answer.data = pieces text (calls.map readSize))
    {i bufSize : Nat} {reply : Answer} (hsize : 0 < bufSize)
    (hcall : getElem? calls i = some (.read true bufSize))
    (hreply : getElem? replies i = some reply) (hzero : reply.value = 0) :
    ((replies.take i).map Answer.data).flatten = text := by
  obtain ⟨hlt, hcall'⟩ := List.getElem?_eq_some_iff.mp hcall
  obtain ⟨hlt', hreply'⟩ := List.getElem?_eq_some_iff.mp hreply
  have hanswer : Answers (.read true bufSize) reply := by
    have h := hall.get hlt hlt'
    rwa [List.get_eq_getElem, List.get_eq_getElem, hcall', hreply'] at h
  have hdata : reply.data = [] := by
    have hvalue : reply.value = reply.data.length := hanswer.1
    exact List.length_eq_zero_iff.mp (by omega)
  have hsizes : getElem? (calls.map readSize) i = some bufSize := by
    rw [List.getElem?_map, hcall]
    rfl
  have hpiece : getElem? (pieces text (calls.map readSize)) i = some [] := by
    rw [← hpieces, List.getElem?_map, hreply, Option.map_some, hdata]
  rw [List.map_take, hpieces, take_pieces]
  exact flatten_of_piece_nil hsize hsizes hpiece

/-- The reads of a fresh provider return the packed names, whatever is tried to write. -/
theorem reads_filenames {filenames : List QString} (hnul : ∀ f ∈ filenames, '\x00' ∉ f)
    {calls : List Call} (hcalls : ∀ call ∈ calls, ReadOrWrite call) :
    let names := filenames.filter fun f => f ≠ []
    let text := [0].intercalate (names.map QString.toUtf8)
    (∃ replies p', answers step calls (new filenames) = some (replies, p') ∧
      List.Forall₂ Answers calls replies ∧
      replies.map Answer.data = pieces text (calls.map readSize) ∧
      (∀ i bufSize reply, getElem? calls i = some (.read true bufSize) →
        getElem? replies i = some reply → reply.value = 0 →
          ((replies.take i).map Answer.data).flatten = text) ∧
      (text.length ≤ (calls.map readSize).sum → (replies.map Answer.data).flatten = text)) ∧
    (names ≠ [] → (text.splitOn 0).map Utf8.decode = names) ∧
    0 ∉ text.head? ∧ 0 ∉ text.getLast? ∧ (names = [] → text = []) := by
  intro names text
  have htext : encodeFilenames filenames = text := encodeFilenames_eq filenames
  have hrest : (new filenames).mProvider.remaining = text := htext
  obtain ⟨replies, p', hanswers, hall, hpieces⟩ :=
    @calls_pieces (new filenames) (Int.le_refl 0) calls hcalls
  rw [hrest] at hpieces
  obtain ⟨hhead, hlast⟩ := intercalate_mark_ends packed_toUtf8_ne_nil (zero_not_mem_packed hnul)
  refine ⟨⟨replies, p', hanswers, hall, hpieces, ?_, ?_⟩, ?_, hhead, hlast, ?_⟩
  · intro i bufSize reply hcall hreply hzero
    have hread : ReadOrWrite (.read true bufSize) := hcalls _ (List.mem_of_getElem? hcall)
    exact flatten_before_zero hall hpieces hread.2 hcall hreply hzero
  · intro hlong
    rw [hpieces, flatten_pieces, List.take_of_length_le hlong]
  · intro hne
    rw [← htext, splitOn_encodeFilenames hnul hne]
    exact decode_toUtf8 names
  · intro hnil
    show [0].intercalate (names.map QString.toUtf8) = []
    rw [hnil]
    rfl

/-- Two names with an empty one between them, and a write between two reads. -/
theorem reads_filenames_two :
    ∃ replies p', answers step [.read true 2, .write [120], .read true 5]
      (new ["a".toList, [], "bc".toList]) = some (replies, p') ∧
      (replies.map Answer.data).flatten = [97, 0, 98, 99] := by
  have h := @reads_filenames ["a".toList, [], "bc".toList] (by decide)
    [.read true 2, .write [120], .read true 5] (by simp [ReadOrWrite])
  obtain ⟨⟨replies, p', hanswers, -, -, -, hall⟩, -⟩ := h
  exact ⟨replies, p', hanswers, hall (by decide +kernel)⟩

end calls

end FileListDataProvider

end QGpgME
