namespace RuleHighlight

/-- The root is empty for a relative path and otherwise one slash, or the two slashes that some
systems tell from one. -/
structure Path where
  root : String
  names : List String
  deriving DecidableEq, Repr

namespace Path

def pieces : List Char → List (List Char)
  | [] => [[]]
  | c :: rest =>
    match pieces rest with
    | p :: ps => if c = '/' then [] :: p :: ps else (c :: p) :: ps
    | [] => [[c]]

def rootOf : List Char → String
  | '/' :: '/' :: '/' :: _ => "/"
  | '/' :: '/' :: _ => "//"
  | '/' :: _ => "/"
  | _ => ""

def ofString (s : String) : Path :=
  ⟨rootOf s.toList, ((pieces s.toList).map String.ofList).filter (fun n => n != "" && n != ".")⟩

def isAbsolute (p : Path) : Bool := !p.root.isEmpty

def join (dir p : Path) : Path := if p.isAbsolute then p else ⟨dir.root, dir.names ++ p.names⟩

def child (dir : Path) (name : String) : Path := dir.join (ofString name)

def toString (p : Path) : String :=
  if p.root.isEmpty && p.names.isEmpty then "."
  else p.root ++ "/".intercalate p.names

def isUsable (p : Path) : Bool := !p.names.any (fun n => n.toList.contains '\x00')

def maxWidth : Nat := 4095

def isTooLong (p : Path) : Bool := maxWidth < p.toString.utf8ByteSize

end Path

end RuleHighlight
