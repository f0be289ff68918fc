import Mathlib.Tactic

/-!
`Utilities/status.hpp`: a status is a code with its message. Codes from 400 up
to 599 are errors, and so is a status made of a message alone; the control codes
from 600 on are not.
-/

namespace FortyTwo.Webserv

structure Status where
  code : Nat
  msg : String
  deriving DecidableEq, Repr

namespace Status

def ok : Status := ⟨200, "OK"⟩
def continue_ : Status := ⟨100, "Continue"⟩
def badRequest : Status := ⟨400, "BadRequest"⟩
def unauthorized : Status := ⟨401, "Unauthorized"⟩
def forbidden : Status := ⟨403, "Forbidden"⟩
def notFound : Status := ⟨404, "NotFound"⟩
def methodNotAllowed : Status := ⟨405, "MethodNotAllowed"⟩
def conflict : Status := ⟨409, "Conflict"⟩
def requestEntityTooLarge : Status := ⟨413, "RequestEntityTooLarge"⟩
def requestHeaderFieldsTooLarge : Status := ⟨431, "RequestHeaderFieldsTooLarge"⟩
def internalServerError : Status := ⟨500, "InternalServerError"⟩
def notImplemented : Status := ⟨501, "NotImplemented"⟩
def httpVersionNotSupported : Status := ⟨505, "HTTPVersionNotSupported"⟩
def noMime : Status := ⟨603, "mime not found"⟩
def noFilename : Status := ⟨604, "filename not found"⟩
def invalidFilenameFormat : Status := ⟨609, "invalid filename format"⟩
def dataIsNotReady : Status := ⟨610, "the data is not ready for processing"⟩
def incomplete : Status := ⟨600, "not enough data"⟩

/-- `Status(error_msg)`, with the code `CustomError`. -/
def custom (errorMsg : String) : Status := ⟨1000, errorMsg⟩

/-- `_is_error`; `operator bool` is its negation. Only `Status(error_msg)` has
the code `CustomError`. -/
def isError (status : Status) : Bool :=
  (decide (400 ≤ status.code) && decide (status.code < 600)) || status.code == 1000

@[simp] theorem ok_isError : ok.isError = false := rfl
@[simp] theorem badRequest_isError : badRequest.isError = true := rfl
@[simp] theorem requestEntityTooLarge_isError : requestEntityTooLarge.isError = true := rfl
@[simp] theorem requestHeaderFieldsTooLarge_isError :
    requestHeaderFieldsTooLarge.isError = true := rfl
@[simp] theorem notImplemented_isError : notImplemented.isError = true := rfl
@[simp] theorem httpVersionNotSupported_isError : httpVersionNotSupported.isError = true := rfl
@[simp] theorem noMime_isError : noMime.isError = false := rfl
@[simp] theorem noFilename_isError : noFilename.isError = false := rfl
@[simp] theorem invalidFilenameFormat_isError : invalidFilenameFormat.isError = false := rfl
@[simp] theorem dataIsNotReady_isError : dataIsNotReady.isError = false := rfl

end Status

end FortyTwo.Webserv
