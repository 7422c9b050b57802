import SignOff.Approval.Deciding

/-!
# Batches

The answer to a batch of decisions: what each item led to, in the order of the items. A batch is
carried out as a whole or not at all, so an answer never holds a failed item.
-/

namespace SignOff

/-- What an item of a batch led to. -/
structure BatchResult where
  applicationId : String
  success : Bool
  message : String
deriving DecidableEq, Repr

/-- What a batch led to. -/
structure BatchSummary where
  total : Nat
  succeeded : Nat
  failed : Nat
  results : List BatchResult
deriving DecidableEq, Repr

namespace BatchSummary

/-- The result of an item whose decision has been recorded. -/
def recorded (id : String) (status : Status) : BatchResult :=
  ⟨id, true, "decision recorded; application is " ++ status.name⟩

/-- The answer to a batch whose items have all been recorded. -/
def ofResults (results : List BatchResult) : BatchSummary :=
  ⟨results.length, results.length, 0, results⟩

end BatchSummary

end SignOff
