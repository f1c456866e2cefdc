import Mathlib.Logic.Basic

/-! The part of GpgME++'s `Error` that the jobs read: its code and its truth value. -/
namespace QGpgME

/-- The codes of libgpg-error the sources name; `other` stands for every further code. -/
inductive ErrorCode where
  | noError | general | invValue | enoent | eexist | eof | lineTooLong
  | canceled | fullyCanceled | noDirmngr | assConnectFailed | noName | noData
  | other (n : Nat)
deriving DecidableEq

structure Error where
  code : ErrorCode
deriving DecidableEq

namespace Error

/-- `Error()` -/
def noError : Error := ⟨.noError⟩

def fromCode (c : ErrorCode) : Error := ⟨c⟩

def isCanceled (e : Error) : Bool := e.code = .canceled || e.code = .fullyCanceled

/-- `operator bool`: a cancellation does not count as an error. -/
def asBool (e : Error) : Bool := e.code ≠ .noError && !e.isCanceled

theorem asBool_noError : noError.asBool = false := rfl

theorem asBool_eq_true {e : Error} :
    e.asBool = true ↔ e.code ≠ .noError ∧ e.isCanceled = false := by
  simp [asBool]

/-- A false error is either no error at all or a cancellation. -/
theorem asBool_eq_false {e : Error} :
    e.asBool = false ↔ e.code = .noError ∨ e.isCanceled = true := by
  by_cases h : e.code = .noError <;> simp [asBool, h]

theorem code_ne_of_asBool {e : Error} (h : e.asBool = true) : e.code ≠ .noError :=
  (asBool_eq_true.mp h).1

theorem not_canceled_of_ok {e : Error} (h : e.code = .noError) : e.isCanceled = false := by
  simp [isCanceled, h]

theorem code_ne_of_isCanceled {e : Error} (h : e.isCanceled = true) : e.code ≠ .noError := by
  intro h0
  simp [not_canceled_of_ok h0] at h

theorem ok_of_false {e : Error} (h : e.asBool = false) (hc : e.isCanceled = false) :
    e.code = .noError := by
  cases asBool_eq_false.mp h with
  | inl h0 => exact h0
  | inr h1 => simp [hc] at h1

end Error
end QGpgME
