import FrontEnd.Token

/-! Diagnostics: faults with the place where they were found. -/

namespace FrontEnd

structure Diagnostic where
  fault : Fault
  place : Position
deriving DecidableEq, Repr, Inhabited

namespace Diagnostic

def shown (d : Diagnostic) : String := d.fault.message ++ " at " ++ d.place.shown

/-- A broken block only sums up faults that were reported inside it. -/
def isReportable (d : Diagnostic) : Bool := d.fault != .brokenBlock

/-- The diagnostics worth showing, in their order. -/
def reportable (ds : List Diagnostic) : List Diagnostic := ds.filter isReportable

theorem mem_reportable {d : Diagnostic} {ds : List Diagnostic} :
    d ∈ reportable ds ↔ d ∈ ds ∧ d.fault ≠ .brokenBlock := by
  simp [reportable, isReportable]

end Diagnostic

end FrontEnd
