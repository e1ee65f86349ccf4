import RuleHighlight.Text.Integer
import RuleHighlight.Text.Quoted
import RuleHighlight.Yaml.Timestamp

namespace RuleHighlight.Yaml

open Text (CodeText)

inductive ScalarFault
  | codePoint
  | codePointSize
  | calendar (fault : CalendarFault)
  | integer (base : Nat) (text : CodeText)
  | integerSize (digits : Nat)
  | float (text : CodeText)
  | floatRange
  | emptyNumber
  | truthValue (text : CodeText)
  | timestamp
  deriving DecidableEq, Repr

inductive DepthFault
  | nodes
  | merges
  | shown
  deriving DecidableEq, Repr

inductive Fault
  | malformed
  | scalar (fault : ScalarFault)
  | tooDeep (fault : DepthFault)
  deriving DecidableEq, Repr

namespace ScalarFault

def maxShown : Nat := 200

def message : ScalarFault → String
  | codePoint => "chr() arg not in range(0x110000)"
  | codePointSize => "Python int too large to convert to C int"
  | calendar fault => fault.message
  | integer base text =>
    "invalid literal for int() with base " ++ toString base ++ ": " ++
      String.ofList (text.quoted.toList.take maxShown)
  | integerSize digits =>
    "Exceeds the limit (" ++ toString Text.maxDigits ++ " digits) for integer string conversion: " ++
      "value has " ++ toString digits ++
      " digits; use sys.set_int_max_str_digits() to increase the limit"
  | float text => "could not convert string to float: " ++ text.quoted
  | floatRange => "int too large to convert to float"
  | emptyNumber => "string index out of range"
  | truthValue text => text.quoted
  | timestamp => "'NoneType' object has no attribute 'groupdict'"

end ScalarFault

def DepthFault.message : DepthFault → String
  | nodes => "maximum recursion depth exceeded"
  | merges => "maximum recursion depth exceeded in comparison"
  | shown => "maximum recursion depth exceeded while getting the repr of an object"

inductive PrintFault
  | size (fault : Text.SizeFault)
  | tooDeep
  deriving DecidableEq, Repr

end RuleHighlight.Yaml
