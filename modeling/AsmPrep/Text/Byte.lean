/-
The bytes of an assembler source, and the classes a scanner sorts them into.

Sources are byte strings in no particular encoding, so a class is a test on one byte,
and a byte above 127 belongs to none.
-/
namespace AsmPrep

abbrev Byte := UInt8

namespace Byte

/-! ### The bytes that mean something to the preprocessor -/

abbrev tab : Byte := 9
abbrev newline : Byte := 10
abbrev formFeed : Byte := 12
abbrev carriageReturn : Byte := 13
abbrev space : Byte := 32
abbrev doubleQuote : Byte := 34
abbrev hash : Byte := 35
abbrev dollar : Byte := 36
abbrev percent : Byte := 37
abbrev singleQuote : Byte := 39
abbrev openParen : Byte := 40
abbrev closeParen : Byte := 41
abbrev comma : Byte := 44
abbrev dot : Byte := 46
abbrev zero : Byte := 48
abbrev one : Byte := 49
abbrev seven : Byte := 55
abbrev nine : Byte := 57
abbrev colon : Byte := 58
abbrev semicolon : Byte := 59
abbrev openAngle : Byte := 60
abbrev equals : Byte := 61
abbrev closeAngle : Byte := 62
abbrev question : Byte := 63
abbrev atSign : Byte := 64
abbrev backslash : Byte := 92
abbrev underscore : Byte := 95
abbrev closeBrace : Byte := 125

/-! ### Classes -/

def isUpper (c : Byte) : Bool := 65 ≤ c && c ≤ 90

def isLower (c : Byte) : Bool := 97 ≤ c && c ≤ 122

def isLetter (c : Byte) : Bool := isUpper c || isLower c

def isDigit (c : Byte) : Bool := zero ≤ c && c ≤ nine

def isAlphanumeric (c : Byte) : Bool := isLetter c || isDigit c

def isHexDigit (c : Byte) : Bool :=
  isDigit c || (65 ≤ c && c ≤ 70) || (97 ≤ c && c ≤ 102)

def isOctalDigit (c : Byte) : Bool := zero ≤ c && c ≤ seven

def isBinaryDigit (c : Byte) : Bool := c == zero || c == one

/-- Whether an identifier may begin with the byte. -/
def isIdentStart (c : Byte) : Bool := isLetter c || c == underscore

/-- Whether an identifier may go on with the byte. -/
def isIdentChar (c : Byte) : Bool := isAlphanumeric c || c == underscore

/-- The sigils that may stand before an identifier, as in `.label` or `#imm`. -/
def isSigil (c : Byte) : Bool :=
  c == dot || c == hash || c == dollar || c == percent || c == atSign

/-- White space, line ends included.  A vertical tab is none. -/
def isSpace (c : Byte) : Bool :=
  c == tab || c == newline || c == formFeed || c == carriageReturn || c == space

/-- White space within a line. -/
def isBlank (c : Byte) : Bool := c != newline && isSpace c

def isQuote (c : Byte) : Bool := c == doubleQuote || c == singleQuote

/-- The lower-case form of an ASCII letter, and any other byte as it is. -/
def toLower (c : Byte) : Byte := if isUpper c then c + 32 else c

end Byte

end AsmPrep
