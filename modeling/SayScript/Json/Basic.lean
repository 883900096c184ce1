import SayScript.Text.Lines

/-! # JSON values and their text

    Values are written over several lines, two spaces for each level, the
    fields of an object in their given order.  An array or object with
    nothing in it takes one line. -/

namespace SayScript

/-- A JSON value.  Numbers are natural. -/
inductive Json where
  | null
  | bool (b : Bool)
  | number (n : Nat)
  | text (s : String)
  | array (items : List Json)
  | object (fields : List (String × Json))
  deriving Inhabited, Repr

namespace Json

/-- The two hexadecimal digits of a number below 256. -/
def hexPair (n : Nat) : List Char :=
  [Nat.digitChar (n / 16 % 16), Nat.digitChar (n % 16)]

/-- A character of a quoted text.  Quotes, backslashes and control characters
    below the space are escaped, nothing else. -/
def quoteChar (c : Char) : List Char :=
  match c with
  | '"' => ['\\', '"']
  | '\\' => ['\\', '\\']
  | '\x08' => ['\\', 'b']
  | '\t' => ['\\', 't']
  | '\n' => ['\\', 'n']
  | '\x0c' => ['\\', 'f']
  | '\r' => ['\\', 'r']
  | c =>
    if c.toNat < 0x20 then ['\\', 'u', '0', '0'] ++ hexPair c.toNat else [c]

/-- A text in quotes. -/
def quote (s : String) : String :=
  String.ofList ('"' :: s.toList.flatMap quoteChar ++ ['"'])

/-- Puts a comma after the last line of every part but the last part. -/
def separate : List (List String) → List String
  | [] => []
  | [part] => part
  | part :: rest =>
    part.dropLast ++ (part.getLast?.map (· ++ ",")).toList ++ separate rest

/-- The lines of a bracketed list of parts. -/
def bracket (left right : String) (parts : List (List String)) :
    List String :=
  if parts.isEmpty then [left ++ right]
  else left :: (separate parts).map ("  " ++ ·) ++ [right]

/-- Puts a name before the first line of a value. -/
def nameField (name : String) : List String → List String
  | [] => []
  | first :: others => (quote name ++ ": " ++ first) :: others

mutual

/-- The lines of a value. -/
def lines : Json → List String
  | null => ["null"]
  | bool b => [if b then "true" else "false"]
  | number n => [toString n]
  | text s => [quote s]
  | array items => bracket "[" "]" (itemLines items)
  | object fields => bracket "\x7b" "\x7d" (fieldLines fields)

/-- The lines of each item of an array. -/
def itemLines : List Json → List (List String)
  | [] => []
  | item :: rest => item.lines :: itemLines rest

/-- The lines of each field of an object. -/
def fieldLines : List (String × Json) → List (List String)
  | [] => []
  | (name, value) :: rest => nameField name value.lines :: fieldLines rest

end

/-- The text of a value, without a final line feed. -/
def pretty (v : Json) : String :=
  "\n".intercalate v.lines

end Json

end SayScript
