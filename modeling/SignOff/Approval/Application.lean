import SignOff.Calendar.Date
import SignOff.Number.Int64
import SignOff.Text.Blank

/-!
# Applications

What a requester hands in for approval: its header, its status and a detail document that other
programs fill. Every stored decision raises the version of the header by one, in 64 bits.
-/

namespace SignOff

/-- Where an application stands. -/
inductive Status where
  | pending
  | approved
  | rejected
deriving DecidableEq, Repr

namespace Status

/-- The stored name of a status. -/
def name : Status → String
  | .pending => "pending"
  | .approved => "approved"
  | .rejected => "rejected"

/-- The name of a status in JSON texts. -/
def capitals : Status → String
  | .pending => "PENDING"
  | .approved => "APPROVED"
  | .rejected => "REJECTED"

/-- The status with a stored name; white space around it and letter case do not matter. -/
def parse? (s : String) : Option Status :=
  let key := Text.lower (Text.trim s)
  if key = "pending" then some .pending
  else if key = "approved" then some .approved
  else if key = "rejected" then some .rejected
  else none

/-- The status with a name of JSON texts. -/
def ofCapitals? (s : String) : Option Status :=
  if s = "PENDING" then some .pending
  else if s = "APPROVED" then some .approved
  else if s = "REJECTED" then some .rejected
  else none

theorem parse?_name (s : Status) : parse? s.name = some s := by cases s <;> rfl

theorem ofCapitals?_capitals (s : Status) : ofCapitals? s.capitals = some s := by
  cases s <;> rfl

end Status

/-- The header of an application. -/
structure Application where
  id : String
  title : Option String
  document : Option String
  status : Status
  requester : String
  requestedOn : Date
  requesterOpinion : Option String
  version : Int
deriving DecidableEq

namespace Application

/-- The version has 64 bits. -/
def Fits (a : Application) : Prop := IsInt64 a.version

instance (a : Application) : Decidable a.Fits := inferInstanceAs (Decidable (IsInt64 _))

/-- The version after one more decision.

After the greatest version of 64 bits comes the least one. Programs that check their sums stop there instead,
and the decision comes to nothing. -/
def nextVersion (a : Application) : Int := wrapInt64 (a.version + 1)

/-- Below the greatest version the next one is greater by one. -/
theorem nextVersion_of_lt {a : Application} (h : a.Fits) (hlt : a.version < Text.int64Greatest) :
    a.nextVersion = a.version + 1 :=
  wrapInt64_of_isInt64 ⟨Int.le_trans h.1 (Int.le_add_one (Int.le_refl _)), hlt⟩

end Application

end SignOff
