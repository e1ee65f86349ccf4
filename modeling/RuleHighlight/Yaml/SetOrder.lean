import RuleHighlight.Yaml.Value

/-!
The order in which the keys of a set are shown. A set shows numbers by slots: a number asks for the
slot that its remainder names, and where that is taken, for further ones that the rest of the number
leads to.
-/

namespace RuleHighlight.Yaml.Scalar

/-- A fraction `m * 2 ^ e` by the prime 2^61 - 1, by which 2^61 counts as one, with its sign. -/
def remainder (m e : Int) : Int :=
  m.sign * ((m.natAbs * Nat.pow 2 (e % 61).toNat % 2305843009213693951 : Nat) : Int)

def remainder? : Scalar → Option Int
  | float (.infinite negative) => some (if negative then -314159 else 314159)
  | float x => x.dyadic?.map fun (m, e) => remainder m e
  | k => k.asInteger?.map (remainder · 0)

def slotWord (r : Int) : Nat := ((if r = -1 then -2 else r) % 18446744073709551616).toNat

def freeSlot (size : Nat) (taken : List Nat) : Nat → Nat → Nat → Nat
  | 0, slot, _ => slot
  | fuel + 1, slot, rest =>
    let run := if slot + 9 < size then 10 else 1
    match (List.range run).find? (fun d => !taken.contains (slot + d)) with
    | some d => slot + d
    | none => freeSlot size taken fuel ((5 * slot + 1 + rest / 32) % size) (rest / 32)

def slotCount (keys : Nat) : Nat :=
  if keys ≤ 4 then 8 else Nat.pow 2 (max 4 ((2 * keys).log2 + 1))

def setOrder (keys : List Scalar) : List Scalar :=
  let size := slotCount keys.length
  match keys.mapM remainder? with
  | none => keys
  | some remainders =>
    let slots := remainders.foldl (fun taken r =>
      freeSlot size taken (size + 16) (slotWord r % size) (slotWord r) :: taken) []
    ((slots.reverse.zip keys).mergeSort (fun a b => a.1 ≤ b.1)).map Prod.snd

end RuleHighlight.Yaml.Scalar
