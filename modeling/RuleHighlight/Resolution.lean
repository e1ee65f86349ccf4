import RuleHighlight.Span

/-!
Overlap resolution. Candidates are considered by start and then by priority, those that tie in the
order in which they came, and one is accepted if it overlaps nothing accepted so far. What loses is
dropped whole. Since the accepted ones are disjoint and ascending, the last of them decides.
-/

namespace RuleHighlight

structure Resolution where
  accepted : List Candidate
  rejected : List Candidate
  deriving DecidableEq, Repr

namespace Resolution

def sift : Option Int → List Candidate → Resolution
  | _, [] => ⟨[], []⟩
  | last, c :: rest =>
    if c.isEmpty then
      sift last rest
    else if last.any (c.start < ·) then
      let r := sift last rest
      { r with rejected := c :: r.rejected }
    else
      let r := sift (some c.stop) rest
      { r with accepted := c :: r.accepted }

def ofCandidates (candidates : List Candidate) : Resolution :=
  sift none (candidates.mergeSort Candidate.before)

end Resolution

def resolve (candidates : List Candidate) : List Candidate :=
  (Resolution.ofCandidates candidates).accepted

end RuleHighlight
