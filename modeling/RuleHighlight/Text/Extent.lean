/-!
Ranges of a text, counted in characters. An `Extent` lies at natural offsets, as the patterns find
it. A `Range` may hold any integers, and taking it out of a text follows the clamping rule: a
negative offset counts from the end, and what is still outside is moved to the nearer end.
-/

namespace RuleHighlight

structure Extent where
  start : Nat
  stop : Nat
  deriving DecidableEq, Repr

structure Range where
  start : Int
  stop : Int
  deriving DecidableEq, Repr

namespace Extent

def toRange (e : Extent) : Range := ⟨e.start, e.stop⟩

def longestFirst (a b : Extent) : Bool :=
  decide (a.start < b.start ∨ a.start = b.start ∧ b.stop ≤ a.stop)

end Extent

namespace Text

/-- The place in a text of the given length that an offset stands for. -/
def clamp (length : Nat) (offset : Int) : Nat :=
  if offset < 0 then (length + offset).toNat else min offset.toNat length

def slice (text : List Char) (start stop : Int) : List Char :=
  let i := clamp text.length start
  let j := clamp text.length stop
  (text.drop i).take (j - i)

def sliceFrom (text : List Char) (start : Int) : List Char := text.drop (clamp text.length start)

theorem clamp_of_le {length n : Nat} (h : n ≤ length) : clamp length (n : Int) = n := by
  unfold clamp
  split <;> omega

theorem slice_of_le {text : List Char} {i j : Nat} (hi : i ≤ text.length) (hj : j ≤ text.length) :
    slice text i j = (text.drop i).take (j - i) := by
  simp [slice, clamp_of_le hi, clamp_of_le hj]

end Text

def Range.textIn (r : Range) (text : List Char) : List Char := Text.slice text r.start r.stop

end RuleHighlight
