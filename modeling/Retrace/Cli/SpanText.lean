import Retrace.Layout
import Retrace.Text.Blank
import Retrace.Text.Numeral

/-!
# Spans as text

A span is written `START..END`. Reading cuts the text at its first `..` and takes blanks around
either side.

* `Span.parse` : the span a text denotes;
* `SpanError` : why a text denotes none; the side before the dots is looked at first.
-/

namespace Retrace

/-- Why a text denotes no span. A bad side is quoted as it was written. -/
inductive SpanError where
  | noDots (text : String)
  | badStart (side : String) (reason : SizeError)
  | badStop (side : String) (reason : SizeError)
  deriving DecidableEq, Repr

namespace SpanError

def message : SpanError → String
  | noDots text => s!"expected START..END, got '{text}'"
  | badStart side reason => s!"invalid range start '{side}': {reason.message}"
  | badStop side reason => s!"invalid range end '{side}': {reason.message}"

end SpanError

namespace Span

/-- The text before and after the first two dots in a row. -/
def cutAtDots : List Char → Option (List Char × List Char)
  | '.' :: '.' :: rest => some ([], rest)
  | c :: rest => (cutAtDots rest).map fun (left, right) => (c :: left, right)
  | [] => none

/-- The span a text denotes. -/
def parse (text : List Char) : Except SpanError Span :=
  match cutAtDots text with
  | none => .error (.noDots (String.ofList text))
  | some (left, right) =>
    match Size.parse (Text.trim left) with
    | .error reason => .error (.badStart (String.ofList left) reason)
    | .ok start =>
      match Size.parse (Text.trim right) with
      | .error reason => .error (.badStop (String.ofList right) reason)
      | .ok stop => .ok ⟨start, stop⟩

end Span

end Retrace
