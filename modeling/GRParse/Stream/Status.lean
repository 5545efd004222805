import Mathlib.Init

/-!
# Statuses

What a call returns: a code, and a message where it failed.
-/

namespace GRParse

/-- The codes of a gRPC status. -/
inductive StatusCode where
  | ok
  | cancelled
  | unknown
  | invalidArgument
  | deadlineExceeded
  | notFound
  | alreadyExists
  | permissionDenied
  | resourceExhausted
  | failedPrecondition
  | aborted
  | outOfRange
  | unimplemented
  | internal
  | unavailable
  | dataLoss
  | unauthenticated
  deriving DecidableEq, Repr

structure Status where
  code : StatusCode := .ok
  message : String := ""
  deriving DecidableEq, Repr

/-- Whether a status is OK. -/
def Status.ok (status : Status) : Bool :=
  status.code = .ok

end GRParse
