import SignOff.Http.Response

/-!
# Rejections

A request that is turned away before the workflow sees it gets a line of text, not JSON. What is wrong
with the path counts before the query, and that before the body.
-/

namespace SignOff.Http

/-- Why a request is turned away before the workflow sees it. -/
inductive Rejection where
  | pathNotText
  | invalidQuery
  | notJson
  | tooLarge
  | malformed
  | mismatched
deriving DecidableEq, Repr

/-- The status of an answer to a request that is turned away. -/
def Rejection.status : Rejection → Nat
  | .pathNotText => 400
  | .invalidQuery => 400
  | .notJson => 415
  | .tooLarge => 413
  | .malformed => 400
  | .mismatched => 422

/-- A rejection is an error of the caller. -/
theorem Rejection.le_status (r : Rejection) : 400 ≤ r.status := by cases r <;> decide

/-- The line that tells a caller why the request is turned away. -/
def Rejection.message : Rejection → String
  | .pathNotText => "the path does not stand for text"
  | .invalidQuery => "the query cannot be understood"
  | .notJson => "a body of JSON is expected"
  | .tooLarge => "the body is too large"
  | .malformed => "the body is not valid JSON"
  | .mismatched => "the body does not have the expected shape"

/-- The response to a request that is turned away. -/
def Rejection.response (r : Rejection) : Response := ⟨r.status, .text r.message⟩

end SignOff.Http
