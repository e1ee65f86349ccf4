import RuleHighlight.Category
import RuleHighlight.Text.Extent

namespace RuleHighlight

structure Candidate extends Range where
  category : Category
  priority : Int
  deriving DecidableEq, Repr

structure Span extends Range where
  category : Category
  deriving DecidableEq, Repr

namespace Candidate

def isEmpty (c : Candidate) : Bool := decide (c.stop ≤ c.start)

def overlaps (a b : Candidate) : Bool := decide (a.start < b.stop ∧ b.start < a.stop)

/-- The order in which candidates are considered: by start, then by priority. -/
def before (a b : Candidate) : Bool :=
  decide (a.start < b.start ∨ a.start = b.start ∧ a.priority ≤ b.priority)

def toSpan (c : Candidate) : Span := ⟨c.toRange, c.category⟩

end Candidate

end RuleHighlight
