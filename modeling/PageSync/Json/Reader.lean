import PageSync.Json.Basic

/-!
# Reading JSON

Every reader takes what it reads off the beginning of a text and returns the rest, or fails. Texts
are read to any depth; a limit on it is for those who look into the value.
-/

namespace PageSync.Json

/-- Reads a value of some type off the beginning of a text. -/
abbrev Reader (α : Type) := List Char → Option (α × List Char)

/-- The characters that may stand between the parts of a value. -/
def isBlank (c : Char) : Bool := c == ' ' || c == '\n' || c == '\r' || c == '\t'

/-- Leaves out blanks. -/
def skipBlanks (text : List Char) : List Char := text.dropWhile isBlank

/-- Reads a fixed text. -/
def expect : List Char → List Char → Option (List Char)
  | [], text => some text
  | _ :: _, [] => none
  | c :: cs, d :: rest => if c = d then expect cs rest else none

/-! ### Numbers -/

/-- The value of a digit. -/
def digitValue (c : Char) : Nat := c.toNat - '0'.toNat

/-- The number that digits stand for. -/
def digitsValue (digits : List Char) : Nat :=
  digits.foldl (fun n c => 10 * n + digitValue c) 0

/-- Reads one digit or more. -/
def readDigits : Reader (List Char) := fun text =>
  match text.takeWhile Char.isDigit with
  | [] => none
  | c :: digits => some (c :: digits, text.dropWhile Char.isDigit)

/-- Reads the digits before the point: a single zero, or digits of which the first is none. -/
def readWhole : Reader (List Char)
  | '0' :: rest => some (['0'], rest)
  | text => readDigits text

/-- Reads a point and digits, if there is a point. -/
def readFraction : Reader (List Char)
  | '.' :: rest => readDigits rest
  | text => some ([], text)

/-- Reads an exponent, if there is one. -/
def readExponent : Reader (Option Int) := fun text =>
  match text with
  | c :: rest =>
    if c = 'e' ∨ c = 'E' then do
      let (isNegative, rest) := match rest with
        | '-' :: rest => (true, rest)
        | '+' :: rest => (false, rest)
        | rest => (false, rest)
      let (digits, rest) ← readDigits rest
      let size : Int := digitsValue digits
      return (some (if isNegative then -size else size), rest)
    else some (none, text)
  | [] => some (none, text)

/-- Reads a number. -/
def readNumber : Reader JsonNumber := fun text => do
  let (isNegative, text) := match text with
    | '-' :: rest => (true, rest)
    | text => (false, text)
  let (whole, text) ← readWhole text
  let (fraction, text) ← readFraction text
  let (exponent, text) ← readExponent text
  return ({
    isNegative
    decimal := ⟨digitsValue (whole ++ fraction), exponent.getD 0 - fraction.length⟩
    isInteger := fraction.isEmpty && exponent.isNone }, text)

/-! ### Strings -/

/-- A part of a string: a character, or a unit of sixteen bits that may be half of one. -/
inductive Part
  | char (c : Char)
  | unit (code : Nat)

/-- The value of a hexadecimal digit. -/
def hexValue? (c : Char) : Option Nat :=
  if c.isDigit then some (digitValue c)
  else if 'a' ≤ c ∧ c ≤ 'f' then some (c.toNat - 'a'.toNat + 10)
  else if 'A' ≤ c ∧ c ≤ 'F' then some (c.toNat - 'A'.toNat + 10)
  else none

/-- The character for which an escape of one letter stands. -/
def escaped? : Char → Option Char
  | '"' => some '"'
  | '\\' => some '\\'
  | '/' => some '/'
  | 'b' => some '\x08'
  | 'f' => some '\x0c'
  | 'n' => some '\n'
  | 'r' => some '\r'
  | 't' => some '\t'
  | _ => none

/-- Reads the parts of a string up to and with the closing quote. -/
def readParts : Reader (List Part)
  | [] => none
  | '"' :: rest => some ([], rest)
  | '\\' :: 'u' :: a :: b :: c :: d :: rest => do
    let code := 4096 * (← hexValue? a) + 256 * (← hexValue? b) + 16 * (← hexValue? c) + (← hexValue? d)
    let (parts, rest) ← readParts rest
    return (.unit code :: parts, rest)
  | '\\' :: c :: rest => do
    let c ← escaped? c
    let (parts, rest) ← readParts rest
    return (.char c :: parts, rest)
  | c :: rest =>
    if c.toNat < 32 ∨ c = '\\' then none
    else do
      let (parts, rest) ← readParts rest
      return (.char c :: parts, rest)

/-- The text of the parts of a string. Two halves of a character have to follow each other. -/
def textOfParts : List Part → Option (List Char)
  | [] => some []
  | .char c :: rest => (textOfParts rest).map (c :: ·)
  | .unit high :: .unit low :: rest =>
    if 0xD800 ≤ high ∧ high < 0xDC00 then
      if 0xDC00 ≤ low ∧ low < 0xE000 then
        (textOfParts rest).map
          (Char.ofNat (0x10000 + 0x400 * (high - 0xD800) + (low - 0xDC00)) :: ·)
      else none
    else if 0xDC00 ≤ high ∧ high < 0xE000 then none
    else (textOfParts (.unit low :: rest)).map (Char.ofNat high :: ·)
  | .unit code :: rest =>
    if 0xD800 ≤ code ∧ code < 0xE000 then none
    else (textOfParts rest).map (Char.ofNat code :: ·)

/-- Reads a string behind its opening quote. -/
def readString : Reader (Option String) := fun text => do
  let (parts, rest) ← readParts text
  return ((textOfParts parts).map String.ofList, rest)

/-! ### Values -/

/-- Reads further items of an array up to and with the closing bracket, at most so many. -/
def readItems (readValue : Reader Json) : Nat → Reader (List Json)
  | 0, _ => none
  | count + 1, text =>
    match skipBlanks text with
    | ']' :: rest => some ([], rest)
    | ',' :: rest => do
      let (item, rest) ← readValue rest
      let (items, rest) ← readItems readValue count rest
      return (item :: items, rest)
    | _ => none

/-- Reads a name, a colon and a value. -/
def readMember (readValue : Reader Json) : Reader (Option String × Json) := fun text =>
  match skipBlanks text with
  | '"' :: rest => do
    let (name, rest) ← readString rest
    match skipBlanks rest with
    | ':' :: rest => do
      let (value, rest) ← readValue rest
      return ((name, value), rest)
    | _ => none
  | _ => none

/-- Reads further members of an object up to and with the closing brace, at most so many. -/
def readMembers (readValue : Reader Json) : Nat → Reader (List (Option String × Json))
  | 0, _ => none
  | count + 1, text =>
    match skipBlanks text with
    | '\x7d' :: rest => some ([], rest)
    | ',' :: rest => do
      let (member, rest) ← readMember readValue rest
      let (members, rest) ← readMembers readValue count rest
      return (member :: members, rest)
    | _ => none

/-- Reads a value of at most so many levels, in a text of the given length. -/
def readValue (length : Nat) : Nat → Reader Json
  | 0, _ => none
  | levels + 1, text =>
    match skipBlanks text with
    | '"' :: rest => do
      let (text, rest) ← readString rest
      return (.string text, rest)
    | '[' :: rest =>
      match skipBlanks rest with
      | ']' :: rest => some (.array [], rest)
      | rest => do
        let (item, rest) ← readValue length levels rest
        let (items, rest) ← readItems (readValue length levels) length rest
        return (.array (item :: items), rest)
    | '\x7b' :: rest =>
      match skipBlanks rest with
      | '\x7d' :: rest => some (.object [], rest)
      | rest => do
        let (member, rest) ← readMember (readValue length levels) rest
        let (members, rest) ← readMembers (readValue length levels) length rest
        return (.object (member :: members), rest)
    | 'n' :: rest => (expect "ull".toList rest).map (.null, ·)
    | 't' :: rest => (expect "rue".toList rest).map (.bool true, ·)
    | 'f' :: rest => (expect "alse".toList rest).map (.bool false, ·)
    | text => do
      let (n, rest) ← readNumber text
      return (.number n, rest)

/-- Reads a text that consists of one value, with blanks around it. -/
def parse (text : String) : Option Json :=
  let chars := text.toList
  match readValue chars.length (chars.length + 1) chars with
  | some (value, rest) => if (skipBlanks rest).isEmpty then some value else none
  | none => none

end PageSync.Json
