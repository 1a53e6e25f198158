import QueryPlan.Binary64.Shortest
import QueryPlan.Json.Basic
/-!
# QueryPlan.Json.Printer

**Writing JSON text** in its compact form: no blanks, members in the order in which the value
holds them. Quotes, backslashes and control characters are escaped, everything else stands for
itself.
-/

namespace QueryPlan

namespace Json

/-- Floating point numbers keep `.0` when they are whole. Leading digits from the fifth place
behind the point to the sixteenth before it are written positionally, and an exponent has
a sign. -/
def numberFormat : DecimalFormat := ⟨some (-5, 15), ".0"⟩

/-- A hexadecimal digit in lower case. -/
def hexDigit (n : Nat) : Char := Char.ofNat (if n < 10 then 48 + n else 87 + n)

/-- A character inside a string. -/
def escape (c : Char) : List Char :=
  if c == '"' then ['\\', '"']
  else if c == '\\' then ['\\', '\\']
  else if c == '\x08' then ['\\', 'b']
  else if c == '\x0c' then ['\\', 'f']
  else if c == '\n' then ['\\', 'n']
  else if c == '\r' then ['\\', 'r']
  else if c == '\t' then ['\\', 't']
  else if c.toNat < 0x20 then
    ['\\', 'u', '0', '0', hexDigit (c.toNat / 16), hexDigit (c.toNat % 16)]
  else [c]

/-- A string between quotes. -/
def quote (s : String) : String :=
  String.ofList ('"' :: s.toList.flatMap escape ++ ['"'])

/-- Texts between an opening and a closing character, commas between them. -/
def enclose (opening closing : String) (parts : List String) : String :=
  opening ++ ",".intercalate parts ++ closing

mutual

/-- The compact text of a value. -/
def text : Json → String
  | .null => "null"
  | .bool true => "true"
  | .bool false => "false"
  | .integer i => toString i
  | .float x => x.text numberFormat
  | .string s => quote s
  | .array elements => enclose "[" "]" (textAll elements)
  | .object members => enclose "\x7b" "\x7d" (textMembers members)

/-- The texts of the elements. -/
def textAll : List Json → List String
  | [] => []
  | j :: rest => text j :: textAll rest

/-- The texts of the members, each a name and a value. -/
def textMembers : List (String × Json) → List String
  | [] => []
  | (n, j) :: rest => (quote n ++ ":" ++ text j) :: textMembers rest

end

/-- The characters that fit into a number of bytes. -/
def takeBytes (limit : Nat) : List Char → List Char
  | [] => []
  | c :: cs => if c.utf8Size ≤ limit then c :: takeBytes (limit - c.utf8Size) cs else []

/-- The length in bytes up to which a report quotes a value. -/
def excerptLimit : Nat := 120

/-- The text of a value as a report quotes it: a long one is cut and marked. -/
def excerpt (j : Json) : String :=
  let s := j.text
  if excerptLimit < s.utf8ByteSize then
    String.ofList (takeBytes excerptLimit s.toList) ++ "..."
  else s

end Json

end QueryPlan
