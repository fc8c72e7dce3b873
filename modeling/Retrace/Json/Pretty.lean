import Retrace.Json.Basic

/-!
# JSON text

* `Json.quoted` : a string with its quotes and escapes;
* `Json.pretty` : a value on several lines, two blanks a level.
-/

namespace Retrace

namespace Json

/-- The digit of a hexadecimal place. -/
def hexDigit (n : Nat) : Char :=
  if n < 10 then Char.ofNat (48 + n) else Char.ofNat (87 + n)

/-- How a character stands in a quoted string. Only quotes, backslashes and characters below the
blank are escaped. -/
def escaped (c : Char) : String :=
  if c = '"' then "\\\""
  else if c = '\\' then "\\\\"
  else if c = '\x08' then "\\b"
  else if c = '\t' then "\\t"
  else if c = '\n' then "\\n"
  else if c = '\x0c' then "\\f"
  else if c = '\r' then "\\r"
  else if c.toNat < 32 then
    "\\u00" ++ String.ofList [hexDigit (c.toNat / 16), hexDigit (c.toNat % 16)]
  else String.singleton c

def quoted (s : String) : String :=
  s.toList.foldl (fun out c => out ++ escaped c) "\"" ++ "\""

/-- A line end and the indentation of a level. -/
def newline (level : Nat) : String :=
  String.ofList ('\n' :: List.replicate (2 * level) ' ')

mutual

/-- Appends a value that starts at the given level. -/
def appendTo (out : String) (level : Nat) : Json → String
  | null => out ++ "null"
  | bool true => out ++ "true"
  | bool false => out ++ "false"
  | int n => out ++ n.repr
  | decimal literal => out ++ literal
  | str s => out ++ quoted s
  | arr [] => out ++ "[]"
  | arr (first :: rest) =>
    let out := appendTo (out ++ "[" ++ newline (level + 1)) (level + 1) first
    appendItems out (level + 1) rest ++ newline level ++ "]"
  | obj [] => out ++ "\x7b\x7d"
  | obj ((name, value) :: rest) =>
    let out := out ++ "\x7b" ++ newline (level + 1) ++ quoted name ++ ": "
    appendFields (appendTo out (level + 1) value) (level + 1) rest ++ newline level ++ "\x7d"

def appendItems (out : String) (level : Nat) : List Json → String
  | [] => out
  | item :: rest => appendItems (appendTo (out ++ "," ++ newline level) level item) level rest

def appendFields (out : String) (level : Nat) : List (String × Json) → String
  | [] => out
  | (name, value) :: rest =>
    let out := out ++ "," ++ newline level ++ quoted name ++ ": "
    appendFields (appendTo out level value) level rest

end

/-- A value on several lines: every item and member on a line of its own, two blanks a level. -/
def pretty (j : Json) : String := appendTo "" 0 j

end Json

end Retrace
