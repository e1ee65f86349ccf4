import RuleHighlight.Text.DecimalDigit

/-!
Reading integers in a base between 2 and 16, liberally: blanks around the number, a sign, the prefix
of the base, single underscores between digits and the decimal digits of any script are allowed.
Writing them in base ten has a limit.
-/

namespace RuleHighlight.Text

/-- The most digits that an integer in base ten is written with, and read with in a document. -/
def maxDigits : Nat := 4300

def leastOverlong : Nat := Nat.pow 10 maxDigits

inductive SizeFault
  | tooManyDigits
  deriving DecidableEq, Repr

def SizeFault.message : SizeFault → String
  | tooManyDigits =>
    "Exceeds the limit (" ++ toString maxDigits ++ " digits) for integer string conversion; " ++
      "use sys.set_int_max_str_digits() to increase the limit"

def isSpace (c : Char) : Bool :=
  let n := c.toNat
  decide (9 ≤ n ∧ n ≤ 13) || n == 32 || n == 133 || n == 160 || n == 5760 ||
    decide (8192 ≤ n ∧ n ≤ 8202) || n == 8232 || n == 8233 || n == 8239 || n == 8287 || n == 12288

def trim (s : List Char) : List Char :=
  ((s.dropWhile isSpace).reverse.dropWhile isSpace).reverse

def digitValue? (c : Char) : Option Nat :=
  if 'a' ≤ c ∧ c ≤ 'f' then some (c.toNat - 87)
  else if 'A' ≤ c ∧ c ≤ 'F' then some (c.toNat - 55)
  else decimalValue? c

namespace Integer

def Writable (n : Int) : Prop := n.natAbs < leastOverlong

instance (n : Int) : Decidable (Writable n) := inferInstanceAs (Decidable (_ < _))

def print (n : Int) : Except SizeFault String :=
  if Writable n then .ok (toString n) else .error .tooManyDigits

def readDigits? (base : Nat) : Nat → List Char → Option Nat
  | value, [] => some value
  | value, '_' :: c :: rest =>
    match digitValue? c with
    | some d => if d < base then readDigits? base (value * base + d) rest else none
    | none => none
  | value, c :: rest =>
    match digitValue? c with
    | some d => if d < base then readDigits? base (value * base + d) rest else none
    | none => none

def readUnsigned? (base : Nat) : List Char → Option Nat
  | [] => none
  | '_' :: _ => none
  | c :: rest => readDigits? base 0 (c :: rest)

def baseMark (base : Nat) (c : Char) : Bool :=
  base == 16 && (c == 'x' || c == 'X') || base == 8 && (c == 'o' || c == 'O') ||
    base == 2 && (c == 'b' || c == 'B')

def dropBase (base : Nat) : List Char → List Char
  | '0' :: c :: rest =>
    if baseMark base c then
      match rest with
      | '_' :: rest' => rest'
      | _ => rest
    else
      '0' :: c :: rest
  | s => s

def read? (base : Nat) (s : List Char) : Option Int :=
  match trim s with
  | '-' :: rest => (readUnsigned? base (dropBase base rest)).map (fun n => -(n : Int))
  | '+' :: rest => (readUnsigned? base (dropBase base rest)).map (fun n => (n : Int))
  | rest => (readUnsigned? base (dropBase base rest)).map (fun n => (n : Int))

def leadingDigits (s : List Char) : Nat :=
  let digits (s : List Char) : Nat := (s.takeWhile (fun c => (decimalValue? c).isSome)).length
  match s.dropWhile isSpace with
  | '-' :: rest => digits rest
  | '+' :: rest => digits rest
  | rest => digits rest

end Integer

end RuleHighlight.Text
