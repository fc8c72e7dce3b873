/-!
# Text without terminal control

A terminal obeys some characters of a text instead of showing them: the control characters, and the
sequences that begin with the escape character. A message that is not meant for a terminal is
written without them.

* `Terminal.Sequence` : how far an escape sequence has come;
* `Terminal.Place` : where a reader of the text stands;
* `Terminal.visible` : the characters that are shown.
-/

namespace Retrace.Terminal

/-- How far an escape sequence has come. -/
inductive Sequence where
  /-- Right after the escape character. -/
  | opened
  /-- After intermediate characters; the next character from `0` on is the last. -/
  | extended
  /-- After `[`; parameters up to a character from `@` on. -/
  | control
  /-- After `]`; a command that ends with the bell. -/
  | command
  /-- After `P`, which begins the head of a device string. -/
  | device
  /-- After parameters in the head of a device string. -/
  | deviceParameters
  /-- After intermediate characters in the head of a device string. -/
  | deviceExtended
  /-- After the head of a device string, complete or not well formed, or after one of the characters
  `X`, `^` and `_`; a string up to its terminator. -/
  | string
  deriving DecidableEq, Repr

/-- Where a reader of the text stands. -/
inductive Place where
  /-- In shown text, which may have cut in on a sequence. -/
  | text (interrupted : Option Sequence)
  | inside (sequence : Sequence)
  deriving DecidableEq, Repr

/-- The characters that are control characters and blanks at once. -/
def isSpacing (c : Char) : Bool :=
  c == '\t' || c == '\n' || c == '\x0c' || c == '\r'

/-- The characters that a terminal shows in text. -/
def isShown (c : Char) : Bool :=
  isSpacing c || (' ' ≤ c && c != '\x7f')

namespace Sequence

/-- Whether spacing is shown in the middle of the sequence. -/
def yields : Sequence → Bool
  | opened | extended | control => true
  | command | device | deviceParameters | deviceExtended | string => false

/-- What a character does after the escape character. -/
def openedBy (c : Char) : Place :=
  if c = '[' then .inside control
  else if c = ']' then .inside command
  else if c = 'P' then .inside device
  else if c = 'X' ∨ c = '^' ∨ c = '_' then .inside string
  else if ' ' ≤ c ∧ c ≤ '/' then .inside extended
  else if '0' ≤ c ∧ c ≤ '~' then .text none
  else .inside opened

/-- What a character does in the head of a device string after `P`. -/
def deviceOpenedBy (c : Char) : Sequence :=
  if ' ' ≤ c ∧ c ≤ '/' then deviceExtended
  else if '0' ≤ c ∧ c ≤ '?' then deviceParameters
  else if '@' ≤ c ∧ c ≤ '~' then string
  else device

/-- What a character does after parameters in the head of a device string. Parameters are digits,
colons and semicolons; only the first character may also be one of `<`, `=`, `>` and `?`. -/
def deviceParametersBy (c : Char) : Sequence :=
  if ' ' ≤ c ∧ c ≤ '/' then deviceExtended
  else if '<' ≤ c ∧ c ≤ '~' then string
  else deviceParameters

/-- The place after a character of the sequence. The terminator of a string is the byte 9C, also
within the encoding of a character. -/
def next : Sequence → Char → Place
  | opened, c => openedBy c
  | extended, c => if '0' ≤ c ∧ c ≤ '~' then .text none else .inside extended
  | control, c => if '@' ≤ c ∧ c ≤ '~' then .text none else .inside control
  | command, c => if c = '\x07' then .text none else .inside command
  | device, c => .inside (deviceOpenedBy c)
  | deviceParameters, c => .inside (deviceParametersBy c)
  | deviceExtended, c => .inside (if '0' ≤ c ∧ c ≤ '~' then string else deviceExtended)
  | string, c => if (String.utf8EncodeChar c).contains 0x9C then .text none else .inside string

end Sequence

namespace Place

/-- Whether a character is shown at this place. -/
def shows : Place → Char → Bool
  | text _, c => isShown c
  | inside s, c => s.yields && isSpacing c

/-- The place after a character. Escape opens a sequence and cancel and substitute end one, wherever
they stand. Any other hidden character takes text back to the sequence it has cut in on. -/
def next (place : Place) (c : Char) : Place :=
  if c = '\x1b' then inside .opened
  else if c = '\x18' ∨ c = '\x1a' then text none
  else
    match place with
    | text interrupted =>
      if isShown c then text (if c ≤ '\x7f' then interrupted else none)
      else interrupted.elim (text none) inside
    | inside s => if place.shows c then text (some s) else s.next c

end Place

/-- The shown characters of a text that is read from a place on. -/
def visibleFrom (place : Place) : List Char → List Char
  | [] => []
  | c :: rest =>
    if place.shows c then c :: visibleFrom (place.next c) rest
    else visibleFrom (place.next c) rest

/-- The shown characters of a text. -/
def visible (cs : List Char) : List Char :=
  visibleFrom (.text none) cs

end Retrace.Terminal
