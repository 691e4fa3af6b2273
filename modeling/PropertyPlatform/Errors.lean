import PropertyPlatform.Platform

/-!
# Errors and the central error handler

An error is either one of the application's own (`AppError`), whose message the
client may see, or anything else a library rejects with.
-/

namespace PropertyPlatform

open Js

structure AppError where
  message : String
  statusCode : ℕ
  code : String
  details : Option Value

/-- An error of a library or of the runtime, with the fields the services read. -/
structure NativeError where
  message : String
  errno : Option ℤ
  code : Option String
  deriving DecidableEq

inductive Err where
  | app (e : AppError)
  | native (e : NativeError)

def validationError (message : String) (details : Value) : Err :=
  .app ⟨message, 400, "VALIDATION_ERROR", some details⟩

def notFoundError (message : String) : Err := .app ⟨message, 404, "NOT_FOUND", none⟩

def conflictError (message : String) : Err := .app ⟨message, 409, "CONFLICT", none⟩

def unauthorizedError (message : String) : Err := .app ⟨message, 401, "UNAUTHORIZED", none⟩

def tooManyRequestsError (message : String) : Err := .app ⟨message, 429, "RATE_LIMITED", none⟩

def typeError (message : String) : Err := .native ⟨message, none, none⟩

def duplicateMessage : String := "An identical enquiry has already been submitted recently."

/-- `err?.errno === 1062 || err?.code === 'ER_DUP_ENTRY'`. -/
def NativeError.isDuplicateEntry (e : NativeError) : Bool :=
  e.errno == some 1062 || e.code == some "ER_DUP_ENTRY"

def Err.isDuplicateEntry : Err → Bool
  | .app e => e.code == "ER_DUP_ENTRY"
  | .native e => e.isDuplicateEntry

/-- What is sent to the client: `res.status(statusCode).json(body)`. -/
structure Response where
  statusCode : ℕ
  body : Value

/-- The response `errorHandler` sends for an error. -/
def errorHandler (P : Platform) (requestId : String) : Err → Response
  | .app e =>
    { statusCode := e.statusCode
      body := .object [
        ("success", .bool false),
        ("error", .object (
          ([("code", .str e.code), ("message", .str e.message)] : List (JsString × Value)) ++
          (e.details.map fun d => (("details" : JsString), d)).toList)),
        ("requestId", .str requestId)] }
  | .native e =>
    { statusCode := 500
      body := .object [
        ("success", .bool false),
        ("error", .object (
          ([("code", .str "INTERNAL_ERROR"),
            ("message", .str "Something went wrong. Please try again later.")] :
            List (JsString × Value)) ++
          if P.isProd then [] else [(("debug" : JsString), Value.str e.message)])),
        ("requestId", .str requestId)] }

end PropertyPlatform
