import Mathlib.Data.Int.Notation
import Mathlib.Logic.Function.Basic
import UtilityFramework.Lib.Transition

/-!
# The errors manager

`Errors::ErrorsManager`: a trigger row reports OK, FAIL or NONE, which updates the status of the
errors that subscribe to it; each write of an error's row is notified, and the notification
updates the rows of the groups that the error belongs to. Notifications wait in the queue of the
dispatcher's worker, which takes one at a time and reads the clock when it updates an error.

`Row::Write(val)` forces the report: a row that is written with what it holds is notified all the
same, as an error's row always is. Only a trigger row may be written without, and is not notified
then if it holds the status already. A trigger row is written by one thread at a time. The count
of a group starts at 0, so that it is never negative, and is taken to stay below `2 ^ 31`.
-/

namespace UtilityFramework

/-- `CommonTypes::StatusEnum`. -/
inductive StatusEnum
  | statusNone
  | statusFail
  | statusOk
  deriving DecidableEq

/-- `CommonTypes::ErrorStatusEnum`. -/
inductive ErrorStatusEnum
  | notExist
  | exist
  | pendToExist
  | vanished
  | repeated
  | pendToRepeat
  deriving DecidableEq

namespace ErrorStatusEnum

/-- The statuses for which an error is counted. -/
def Existing (status : ErrorStatusEnum) : Prop := status = repeated ∨ status = exist

/-- The statuses for which an error is taken off. -/
def Gone (status : ErrorStatusEnum) : Prop := status = vanished ∨ status = notExist

/-- The other statuses. -/
def Pending (status : ErrorStatusEnum) : Prop := status = pendToExist ∨ status = pendToRepeat

instance : DecidablePred Existing := fun _ => inferInstanceAs (Decidable (_ ∨ _))

instance : DecidablePred Gone := fun _ => inferInstanceAs (Decidable (_ ∨ _))

instance : DecidablePred Pending := fun _ => inferInstanceAs (Decidable (_ ∨ _))

/-- The status of an error that is set. -/
def set : ErrorStatusEnum → ErrorStatusEnum
  | vanished => repeated
  | notExist => exist
  | pendToExist => exist
  | pendToRepeat => repeated
  | exist => exist
  | repeated => repeated

/-- The status of an error that fails while it is pendable. -/
def pend (status : ErrorStatusEnum) (currentCount : UInt16) : ErrorStatusEnum :=
  if status = notExist ∨ (status = vanished ∧ currentCount = 1) then pendToExist
  else pendToRepeat

theorem existing_set (status : ErrorStatusEnum) : status.set.Existing := by
  cases status <;> decide

theorem pending_pend (status : ErrorStatusEnum) (currentCount : UInt16) :
    (status.pend currentCount).Pending := by
  rw [pend]
  split_ifs
  · decide
  · decide

theorem Existing.not_pending {status : ErrorStatusEnum} (h : status.Existing) :
    ¬ status.Pending := by
  rcases h with rfl | rfl
  · decide
  · decide

theorem gone_iff (status : ErrorStatusEnum) :
    status.Gone ↔ ¬ status.Existing ∧ ¬ status.Pending := by
  cases status <;> decide

end ErrorStatusEnum

/-- `CommonTypes::ErrorStatusStruct`. A time stamp is the same 64 bits with and without a
sign. -/
structure ErrorStatusStruct (ε : Type*) where
  status : ErrorStatusEnum
  timeStamp : UInt64
  pendable : Bool
  errorKey : ε
  currentCount : UInt16
  valid : Bool

/-- `CommonTypes::ErrorGroupStruct`; of a group row that is an integer, the number alone. -/
structure ErrorGroupStruct where
  numOfExistingErrors : ℕ
  lastError : String

/-- What the errors, the groups and the trigger rows are declared with: the rows of the error
store, the groups of each error in the order in which they are listed, and the errors that
subscribe to each trigger row. -/
structure ErrorsConfig (ε γ τ : Type*) where
  description : ε → String
  repeatsToSet : ε → Int16
  delayToSet : ε → UInt64
  groups : ε → List γ
  isComplex : γ → Bool
  subscribers : τ → List ε

/-- A notification that waits for the worker: of a trigger row for one of its errors, or of an
error's row. -/
inductive ErrorsJob (ε : Type*)
  | updateError (errorRow : ε) (errorStatus : StatusEnum)
  | updateGroups (errorRow : ε) (error : ErrorStatusStruct ε)

/-- An errors manager with the rows it works on. -/
structure ErrorsManager (ε γ τ : Type*) where
  triggers : τ → Option StatusEnum
  errors : ε → ErrorStatusStruct ε
  groups : γ → ErrorGroupStruct
  queue : List (ErrorsJob ε)

/-- A trigger row is written, or the worker takes the next notification, at a time. -/
inductive ErrorsAction (τ : Type*)
  | write (trigger : τ) (status : StatusEnum) (forceReport : Bool)
  | work (now : UInt64)

namespace ErrorsConfig

variable {ε γ τ : Type*} (c : ErrorsConfig ε γ τ)

/-! ### Updating an error -/

/-- The error is still pendable when it fails. -/
def StaysPendable (error : ErrorStatusStruct ε) (errorRow : ε) (now : UInt64) : Prop :=
  error.pendable = true ∧ ¬ error.timeStamp + c.delayToSet errorRow < now

instance (error : ErrorStatusStruct ε) (errorRow : ε) (now : UInt64) :
    Decidable (c.StaysPendable error errorRow now) := inferInstanceAs (Decidable (_ ∧ _))

/-- The error has failed often enough to be set. -/
def IsSet (error : ErrorStatusStruct ε) (errorRow : ε) : Prop :=
  c.repeatsToSet errorRow = 0 ∨
    ((error.currentCount.toNat : ℤ).tmod (c.repeatsToSet errorRow).toInt = 0 ∧
      error.pendable = false)

instance (error : ErrorStatusStruct ε) (errorRow : ε) : Decidable (c.IsSet error errorRow) :=
  inferInstanceAs (Decidable (_ ∨ _))

/-- A failure is counted, and ends the delay if that is over. -/
def countFail (error : ErrorStatusStruct ε) (errorRow : ε) (now : UInt64) :
    ErrorStatusStruct ε :=
  { error with
    currentCount := error.currentCount + 1
    pendable := decide (c.StaysPendable error errorRow now) }

/-- Setting an error that has failed often enough. -/
def setFail (error : ErrorStatusStruct ε) (errorRow : ε) : ErrorStatusStruct ε :=
  if c.IsSet error errorRow then { error with status := error.status.set } else error

/-- Leaving an error pending that is still pendable. -/
def pendFail (error : ErrorStatusStruct ε) : ErrorStatusStruct ε :=
  if error.pendable then { error with status := error.status.pend error.currentCount }
  else error

/-- `UpdateError`, for the status of a valid error. -/
def newStatus (error : ErrorStatusStruct ε) (errorRow : ε) (now : UInt64) :
    StatusEnum → ErrorStatusStruct ε
  | .statusOk =>
    if error.status.Existing then { error with status := .vanished } else error
  | .statusFail => pendFail (c.setFail (c.countFail error errorRow now) errorRow)
  | .statusNone => { error with status := .notExist }

/-- `UpdateError`: what is written to the error's row; nothing if the error is not valid. -/
def updateError (error : ErrorStatusStruct ε) (errorRow : ε) (errorStatus : StatusEnum)
    (now : UInt64) : Option (ErrorStatusStruct ε) :=
  if error.valid then
    some { c.newStatus error errorRow now errorStatus with timeStamp := now }
  else none

/-! ### Updating the groups -/

variable [DecidableEq γ]

/-- `UpdateGroupError`: the row of the group after it. -/
def updateGroupError (group : γ) (row : ErrorGroupStruct) (error : ErrorStatusStruct ε) :
    ErrorGroupStruct :=
  let lastError := if c.isComplex group then c.description error.errorKey else row.lastError
  if error.status.Existing then ⟨row.numOfExistingErrors + 1, lastError⟩
  else if error.status.Gone then
    if 0 < row.numOfExistingErrors then ⟨row.numOfExistingErrors - 1, lastError⟩ else row
  else ⟨row.numOfExistingErrors, lastError⟩

/-- The function that an error's row is subscribed with. -/
def updateGroups (groups : γ → ErrorGroupStruct) (errorRow : ε) (error : ErrorStatusStruct ε) :
    γ → ErrorGroupStruct :=
  (c.groups errorRow).foldl
    (fun groups group => Function.update groups group
      (c.updateGroupError group (groups group) error)) groups

end ErrorsConfig

namespace ErrorsManager

variable {ε γ τ : Type*} (c : ErrorsConfig ε γ τ)

/-- The manager after `Init`. -/
def init (triggers : τ → Option StatusEnum) (now : UInt64) : ErrorsManager ε γ τ where
  triggers := triggers
  errors e := ⟨.notExist, now, decide (0 < c.delayToSet e), e, 0, true⟩
  groups _ := ⟨0, ""⟩
  queue := []

/-- Writing an error's row, which is notified in any case. -/
def writeError [DecidableEq ε] (s : ErrorsManager ε γ τ) (errorRow : ε)
    (error : ErrorStatusStruct ε) : ErrorsManager ε γ τ :=
  { s with
    errors := Function.update s.errors errorRow error
    queue := s.queue ++ [.updateGroups errorRow error] }

/-- One step: a trigger row is written, which is notified to the errors that subscribe to it if
the report is forced or the row changes, or the worker takes a notification. -/
def step [DecidableEq ε] [DecidableEq γ] [DecidableEq τ] (s : ErrorsManager ε γ τ) :
    ErrorsAction τ → Option (ErrorsManager ε γ τ)
  | .write trigger status forceReport =>
    if forceReport = false ∧ s.triggers trigger = some status then some s
    else some { s with
      triggers := Function.update s.triggers trigger (some status)
      queue := s.queue ++ (c.subscribers trigger).map fun e => .updateError e status }
  | .work now =>
    match s.queue with
    | [] => none
    | .updateError e status :: queue =>
      match c.updateError (s.errors e) e status now with
      | some error => some (writeError { s with queue := queue } e error)
      | none => some { s with queue := queue }
    | .updateGroups e error :: queue =>
      some { s with queue := queue, groups := c.updateGroups s.groups e error }

end ErrorsManager

end UtilityFramework
