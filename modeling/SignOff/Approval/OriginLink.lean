import SignOff.Approval.Submission
import SignOff.Text.Numeral

/-!
# Origin links

A submission that is about a record of some table leaves a link from that record to the application.
Links are numbered in the order of their submissions.
-/

namespace SignOff

/-- The link from a record to the application that was submitted for it. -/
structure OriginLink where
  id : String
  applicationId : String
  tableCode : String
  key : Option String
  subSequence : Option Int
deriving DecidableEq, Repr

/-- The id of the link with a number. -/
def OriginLink.idOf (number : Nat) : String := "APF_REL_" ++ Text.decimal number

end SignOff
