import PageSync.Decimal

/-!
# JSON values

A JSON value keeps what its readers may want to know: the members of an object in their order and
with repetitions, and of a number whether it was written as an integer. A string whose escapes
pair up to no text is a value as well, but one that has no text.
-/

namespace PageSync

/-- A number as it is written. -/
structure JsonNumber where
  /-- Whether there is a minus sign. -/
  isNegative : Bool := false
  /-- The number without its sign. -/
  decimal : Decimal
  /-- Whether there is neither a fraction nor an exponent. -/
  isInteger : Bool := true
deriving DecidableEq

/-- A JSON value. -/
inductive Json
  | null
  | bool (value : Bool)
  | number (number : JsonNumber)
  | string (text : Option String)
  | array (items : List Json)
  | object (members : List (Option String × Json))

namespace Json

instance : Inhabited Json := ⟨.null⟩

/-- The value of a natural number. -/
def ofNat (n : Nat) : Json := .number { decimal := ⟨n, 0⟩ }

/-- The value of a text. -/
def ofString (text : String) : Json := .string (some text)

/-- The object with the given members. -/
def record (members : List (String × Json)) : Json :=
  .object (members.map fun (name, value) => (some name, value))

/-! ### Text -/

/-- The digit of a number below sixteen. -/
def hexDigit (n : Nat) : Char := "0123456789abcdef".toList.getD n '0'

/-- What is written for a character of a string. -/
def quoteChar (c : Char) : List Char :=
  if c = '"' then "\\\"".toList
  else if c = '\\' then "\\\\".toList
  else if c = '\n' then "\\n".toList
  else if c = '\r' then "\\r".toList
  else if c = '\t' then "\\t".toList
  else if c = '\x08' then "\\b".toList
  else if c = '\x0c' then "\\f".toList
  else if c.toNat < 32 then "\\u00".toList ++ [hexDigit (c.toNat / 16), hexDigit (c.toNat % 16)]
  else [c]

/-- A text between quotes. -/
def quote (text : String) : String :=
  "\"" ++ String.ofList (text.toList.flatMap quoteChar) ++ "\""

/-- The written form of a number. -/
def numberText (number : JsonNumber) : String :=
  (if number.isNegative then "-" else "") ++ Nat.repr number.decimal.digits ++
    (if number.decimal.exponent = 0 then "" else "e" ++ toString number.decimal.exponent)

/-- The written form of a string; one without text is written as an empty one. -/
def stringText (text : Option String) : String := quote (text.getD "")

/-- The written form of a value, without any blanks. -/
def text : Json → String
  | .null => "null"
  | .bool true => "true"
  | .bool false => "false"
  | .number n => numberText n
  | .string s => stringText s
  | .array [] => "[]"
  | .array (item :: rest) => "[" ++ item.text ++ itemsText rest ++ "]"
  | .object [] => "\x7b\x7d"
  | .object ((name, value) :: rest) =>
    "\x7b" ++ stringText name ++ ":" ++ value.text ++ membersText rest ++ "\x7d"
where
  /-- The items of an array after the first one. -/
  itemsText : List Json → String
    | [] => ""
    | item :: rest => "," ++ item.text ++ itemsText rest
  /-- The members of an object after the first one. -/
  membersText : List (Option String × Json) → String
    | [] => ""
    | (name, value) :: rest => "," ++ stringText name ++ ":" ++ value.text ++ membersText rest

end Json

end PageSync
