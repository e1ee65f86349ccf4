import RuleHighlight.Yaml.SetOrder

namespace RuleHighlight.Yaml

structure Document where
  root : Value
  collections : Array Collection

namespace Document

variable (doc : Document)

def ofScalar (s : Scalar) : Document := ⟨.scalar s, #[]⟩

def collectionAt (p : Place) : Collection := (doc.collections[p]?).getD (.list [])

def isPresent : Value → Bool
  | .scalar s => s.isPresent
  | .collection p => (doc.collectionAt p).isPresent

def entries? : Value → Option (List (Scalar × Value))
  | .scalar _ => none
  | .collection p =>
    match doc.collectionAt p with
    | .mapping entries => some entries
    | _ => none

def printInside : Nat → List Place → Value → Except PrintFault String
  | _, _, .scalar s => s.print
  | 0, _, .collection _ => .error .tooDeep
  | fuel + 1, shown, .collection p => do
    let listed {α : Type} (item : α → Except PrintFault String) (items : List α) :
        Except PrintFault String := do
      if shown.contains p then return "..." else return ", ".intercalate (← items.mapM item)
    let print := printInside fuel (p :: shown)
    match doc.collectionAt p with
    | .list items => return "[" ++ (← listed print items) ++ "]"
    | .pairs items =>
      let pair : Value × Value → Except PrintFault String := fun (a, b) => do
        return "(" ++ (← print a) ++ ", " ++ (← print b) ++ ")"
      return "[" ++ (← listed pair items) ++ "]"
    | .set [] => return "set()"
    | .set keys => return "\x7b" ++ (← listed Scalar.print (Scalar.setOrder keys)) ++ "\x7d"
    | .mapping entries =>
      let entry : Scalar × Value → Except PrintFault String := fun (k, v) => do
        return (← k.print) ++ ": " ++ (← print v)
      return "\x7b" ++ (← listed entry entries) ++ "\x7d"

def print (depth : Nat) (v : Value) : Except PrintFault String := doc.printInside depth [] v

end Document

end RuleHighlight.Yaml
