import QueryPlan.Error
import QueryPlan.Json.Written
/-!
# QueryPlan.Json.Reader

**Reading JSON text.** The reader takes what the standard allows and no more: no comments, no
trailing commas, no leading zeros, no control characters in strings, nothing behind the value.
It gives the text's structure; a text that is read as a value has to have one, with no more than
`Json.maxDepth` containers around anything.

Every reader takes the characters that are left and gives what it read and what is left behind
it. `readWritten` goes down one level of fuel per call and each call consumes a character, so
the length of the text is fuel enough.
-/

namespace QueryPlan

namespace Json

/-- The greatest number of containers around a value. -/
def maxDepth : Nat := 127

/-- The blanks of JSON. -/
def isBlank (c : Char) : Bool := c == ' ' || c == '\n' || c == '\t' || c == '\r'

/-- The text from its first character on that is no blank. -/
def skipBlanks : List Char → List Char
  | [] => []
  | c :: cs => if isBlank c then skipBlanks cs else c :: cs

/-- The value of a hexadecimal digit. -/
def hexValue? (c : Char) : Option Nat :=
  if '0' ≤ c && c ≤ '9' then some (c.toNat - 48)
  else if 'a' ≤ c && c ≤ 'f' then some (c.toNat - 87)
  else if 'A' ≤ c && c ≤ 'F' then some (c.toNat - 55)
  else none

/-- Four hexadecimal digits. -/
def readHex4 : List Char → Option (Nat × List Char)
  | a :: b :: c :: d :: cs => do
    let a ← hexValue? a
    let b ← hexValue? b
    let c ← hexValue? c
    let d ← hexValue? d
    return (((a * 16 + b) * 16 + c) * 16 + d, cs)
  | _ => none

/-- An escape, behind its backslash. -/
def readEscape : List Char → Option (Piece × List Char)
  | '"' :: cs => some (.plain '"', cs)
  | '\\' :: cs => some (.plain '\\', cs)
  | '/' :: cs => some (.plain '/', cs)
  | 'b' :: cs => some (.plain '\x08', cs)
  | 'f' :: cs => some (.plain '\x0c', cs)
  | 'n' :: cs => some (.plain '\n', cs)
  | 'r' :: cs => some (.plain '\r', cs)
  | 't' :: cs => some (.plain '\t', cs)
  | 'u' :: cs => do
    let (u, cs) ← readHex4 cs
    return (.unit u, cs)
  | _ => none

/-- The pieces of a string behind its opening quote. -/
def readPieces : Nat → List Char → Option (List Piece × List Char)
  | 0, _ => none
  | _, [] => none
  | fuel + 1, c :: cs =>
    if c == '"' then some ([], cs)
    else if c == '\\' then do
      let (piece, cs) ← readEscape cs
      let (rest, cs) ← readPieces fuel cs
      return (piece :: rest, cs)
    else if c.toNat < 0x20 then none
    else do
      let (rest, cs) ← readPieces fuel cs
      return (.plain c :: rest, cs)

/-- A string behind its opening quote. -/
def readString (cs : List Char) : Option (List Piece × List Char) :=
  readPieces (cs.length + 1) cs

/-- Digits, at least one. -/
def readDigits (cs : List Char) : Option (List Char × List Char) :=
  match cs.takeWhile Char.isDigit with
  | [] => none
  | digits => some (digits, cs.dropWhile Char.isDigit)

/-- The digits of a whole part: no zero leads another digit. -/
def readWhole (cs : List Char) : Option (List Char × List Char) :=
  match readDigits cs with
  | some ('0' :: _ :: _, _) => none
  | read => read

/-- The digits behind a point, or nothing without a point. -/
def readFraction : List Char → Option (Option (List Char) × List Char)
  | '.' :: cs => do
    let (digits, cs) ← readDigits cs
    return (some digits, cs)
  | cs => some (none, cs)

/-- The exponent behind its letter, or nothing without the letter. -/
def readExponent : List Char → Option (Option (Bool × List Char) × List Char)
  | [] => some (none, [])
  | c :: cs =>
    if c == 'e' || c == 'E' then do
      let (positive, cs) := match cs with
        | '+' :: cs => (true, cs)
        | '-' :: cs => (false, cs)
        | cs => (true, cs)
      let (digits, cs) ← readDigits cs
      return (some (positive, digits), cs)
    else some (none, c :: cs)

/-- A number behind its sign. -/
def readMagnitude (negative : Bool) (cs : List Char) : Option (Numeral × List Char) := do
  let (whole, cs) ← readWhole cs
  let (fraction, cs) ← readFraction cs
  let (exponent, cs) ← readExponent cs
  return (⟨negative, whole, fraction, exponent⟩, cs)

/-- A number. -/
def readNumeral : List Char → Option (Numeral × List Char)
  | '-' :: cs => readMagnitude true cs
  | cs => readMagnitude false cs

mutual

/-- A value inside of which containers nest at most so deep, blanks before it skipped. -/
def readWritten : Nat → Nat → List Char → Option (Written × List Char)
  | 0, _, _ => none
  | fuel + 1, depth, cs =>
    match skipBlanks cs with
    | 'n' :: 'u' :: 'l' :: 'l' :: cs => some (.null, cs)
    | 't' :: 'r' :: 'u' :: 'e' :: cs => some (.bool true, cs)
    | 'f' :: 'a' :: 'l' :: 's' :: 'e' :: cs => some (.bool false, cs)
    | '"' :: cs => do
      let (pieces, cs) ← readString cs
      return (.string pieces, cs)
    | '[' :: cs =>
      match depth with
      | 0 => none
      | depth + 1 =>
        match skipBlanks cs with
        | ']' :: cs => some (.array [], cs)
        | cs => do
          let (elements, cs) ← readElements fuel depth cs
          return (.array elements, cs)
    | '\x7b' :: cs =>
      match depth with
      | 0 => none
      | depth + 1 =>
        match skipBlanks cs with
        | '\x7d' :: cs => some (.object [], cs)
        | cs => do
          let (members, cs) ← readMembers fuel depth cs
          return (.object members, cs)
    | cs => do
      let (n, cs) ← readNumeral cs
      return (.number n, cs)

/-- The elements of an array up to its closing bracket; there is at least one. -/
def readElements : Nat → Nat → List Char → Option (List Written × List Char)
  | 0, _, _ => none
  | fuel + 1, depth, cs => do
    let (value, cs) ← readWritten fuel depth cs
    match skipBlanks cs with
    | ',' :: cs =>
      let (rest, cs) ← readElements fuel depth cs
      return (value :: rest, cs)
    | ']' :: cs => return ([value], cs)
    | _ => none

/-- The members of an object up to its closing brace; there is at least one. -/
def readMembers : Nat → Nat → List Char → Option (List (List Piece × Written) × List Char)
  | 0, _, _ => none
  | fuel + 1, depth, cs =>
    match skipBlanks cs with
    | '"' :: cs => do
      let (name, cs) ← readString cs
      match skipBlanks cs with
      | ':' :: cs =>
        let (value, cs) ← readWritten fuel depth cs
        match skipBlanks cs with
        | ',' :: cs =>
          let (rest, cs) ← readMembers fuel depth cs
          return ((name, value) :: rest, cs)
        | '\x7d' :: cs => return ([(name, value)], cs)
        | _ => none
      | _ => none
    | _ => none

end

/-- What a text says in which containers nest at most so deep. -/
def Written.ofTextWithin? (depth : Nat) (text : String) : Option Written :=
  let cs := text.toList
  match readWritten (cs.length + 1) depth cs with
  | some (w, rest) => if (skipBlanks rest).isEmpty then some w else none
  | none => none

/-- What a text says. No text holds more containers than characters. -/
def Written.ofText? (text : String) : Option Written := ofTextWithin? text.length text

/-- The value that a text holds, with the members of its objects as written. -/
def ofText? (text : String) : Option Json := do (← Written.ofTextWithin? maxDepth text).value?

/-- The value that a text holds; any other text is malformed. -/
def ofText (text : String) : Result Json := .ofOption .malformed (ofText? text)

end Json

end QueryPlan
