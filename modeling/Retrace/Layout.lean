import Retrace.Word

/-!
# Memory layouts

* `Span` : a half-open range of addresses;
* `Layout` : the number of cells and where input and output live; any numbers are a layout;
* `Layout.validate` : a layout a machine accepts, or the first reason why not;
* `Layout.standard` : the third quarter is input, the last quarter is output.
-/

namespace Retrace

/-- The addresses from `start` up to and without `stop`. -/
structure Span where
  start : Size
  stop : Size
  deriving DecidableEq, Repr

namespace Span

/-- The number of addresses; none if the span ends before it starts. -/
def length (s : Span) : Nat := s.stop.toNat - s.start.toNat

def text (s : Span) : String := s!"{s.start.text}..{s.stop.text}"

end Span

/-- The number of cells and the spans of input and output. -/
structure Layout where
  size : Size
  input : Span
  output : Span
  deriving DecidableEq, Repr

/-- One of the two spans of a layout. -/
inductive Region where
  | input | output
  deriving DecidableEq, Repr

/-- Why a layout is refused. -/
inductive LayoutError where
  | emptyMemory
  | inverted (region : Region) (span : Span)
  | outOfBounds (region : Region) (span : Span) (size : Size)
  deriving DecidableEq, Repr

def Region.name : Region → String
  | input => "input"
  | output => "output"

namespace LayoutError

def message : LayoutError → String
  | emptyMemory => "memory size must be at least 1"
  | inverted region span => s!"{region.name} range {span.text} is inverted"
  | outOfBounds region span size =>
    s!"{region.name} range {span.text} exceeds memory size {size.text}"

end LayoutError

namespace Layout

/-- A span must not end before it starts, nor past the memory. -/
def validateSpan (size : Size) (region : Region) (span : Span) : Except LayoutError Unit :=
  if span.stop < span.start then .error (.inverted region span)
  else if size < span.stop then .error (.outOfBounds region span size)
  else .ok ()

/-- There must be a cell, and both spans must fit; the input span is looked at first. -/
def validate (l : Layout) : Except LayoutError Unit :=
  if l.size = 0 then .error .emptyMemory
  else do
    validateSpan l.size .input l.input
    validateSpan l.size .output l.output

/-- The layout itself, if it is accepted. -/
def validated (l : Layout) : Except LayoutError Layout := do
  l.validate
  return l

/-- The first half is free, the third quarter is input, the last quarter is output. -/
def standard (size : Size) : Layout :=
  let half := size / 2
  let threeQuarters := size - size / 4
  { size, input := ⟨half, threeQuarters⟩, output := ⟨threeQuarters, size⟩ }

/-- The standard layout of the default size. -/
def default : Layout := standard 256

end Layout

end Retrace
