import RuleHighlight.Text.CharClass
import RuleHighlight.Text.Occurrence

/-!
Byte sequences such as `4D5A??90`: nibbles in pairs, neither preceded nor followed by a word
character or a dot. From left to right, the longest sequence at each place is taken.

A run of nibbles is cut on its own. A sequence opens at the start of the run, if the text before
allows it, or right after a wildcard. It closes at the end of the run, if the text after allows it
and the parity fits, or else right before the last wildcard at a fitting parity. So two passes for
the wildcards and one for the sequences do.
-/

namespace RuleHighlight.ByteSequence

open CharClass

def lastWildcard (parity : Nat) : Nat → List Char → Option Nat
  | _, [] => none
  | pos, c :: rest =>
    match lastWildcard parity (pos + 1) rest with
    | some i => some i
    | none => if c = '?' ∧ pos % 2 = parity then some pos else none

structure Closings where
  runEnd : Option Nat
  evenWildcard : Option Nat
  oddWildcard : Option Nat
  deriving DecidableEq, Repr

namespace Closings

def ofRun (r : Run) : Closings :=
  { runEnd := if r.after.head?.any blocksBytes then none else some r.chars.length
    evenWildcard := lastWildcard 0 0 r.chars
    oddWildcard := lastWildcard 1 0 r.chars }

def farthest (c : Closings) (pos : Nat) : Option Nat :=
  let atWildcard := (if pos % 2 = 0 then c.evenWildcard else c.oddWildcard).filter (pos < ·)
  match c.runEnd with
  | some stop => if pos < stop ∧ (stop - pos) % 2 = 0 then some stop else atWildcard
  | none => atWildcard

end Closings

/-- The sequences of a run from an offset on. The flag tells whether one may open there, and the
first number how many characters the last one still covers. -/
def cut (closings : Closings) : Nat → Nat → Bool → List Char → List Extent
  | _, _, _, [] => []
  | covered + 1, pos, _, c :: rest => cut closings covered (pos + 1) (c == '?') rest
  | 0, pos, opens, c :: rest =>
    match if opens then closings.farthest pos else none with
    | some stop => ⟨pos, stop⟩ :: cut closings (stop - pos - 1) (pos + 1) (c == '?') rest
    | none => cut closings 0 (pos + 1) (c == '?') rest

def ofRun (r : Run) : List Extent :=
  cut (.ofRun r) 0 0 (!r.before.head?.any blocksBytes) r.chars

def all (text : List Char) : List Extent :=
  (Run.all isNibble text).flatMap fun (pos, r) =>
    (ofRun r).map fun e => ⟨pos + e.start, pos + e.stop⟩

end RuleHighlight.ByteSequence
