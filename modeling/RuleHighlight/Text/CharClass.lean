namespace RuleHighlight.CharClass

def isWord (c : Char) : Bool := c.isAlphanum || c == '_'

def isWordStart (c : Char) : Bool := c.isAlpha || c == '_'

def isBlank (c : Char) : Bool :=
  c == ' ' || c == '\t' || c == '\n' || c == '\r' || c == '\x0c' || c == '\x0b'

def isLineEnd (c : Char) : Bool := c == '\n' || c == '\r'

def isHexDigit (c : Char) : Bool :=
  c.isDigit || ('a' ≤ c && c ≤ 'f') || ('A' ≤ c && c ≤ 'F')

def isNibble (c : Char) : Bool := isHexDigit c || c == '?'

def isOperator (c : Char) : Bool :=
  c == '-' || c == '+' || c == '/' || c == '*' || c == '=' || c == '<' || c == '>' || c == ':'

def blocksBytes (c : Char) : Bool := c == '.' || isWord c

end RuleHighlight.CharClass
