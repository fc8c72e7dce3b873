import Retrace.Word

/-!
# Memory scripts

A script is a finite dialogue with a memory: it asks for cells, stores values, and every later
action may depend on what was read. Instructions are scripts, so the rules for addresses outside
the memory are stated once, by whoever answers the script.

* `Script` : reads and writes that end in a result;
* `Access` : one action of a script together with the value read or written;
* `Script.ofRequests` : a fixed list of actions, whose result is the list of values read.
-/

namespace Retrace

/-- A finite sequence of reads and writes that ends in a result. -/
inductive Script (α : Type) where
  | done (result : α)
  | read (address : Word) (next : Word → Script α)
  | write (address value : Word) (next : Script α)

/-- A read with the value it gave, or a write with the value it stored. -/
inductive Access where
  | read (address value : Word)
  | write (address value : Word)
  deriving DecidableEq, Repr

/-- An action asked of a memory. -/
inductive Request where
  | read (address : Word)
  | write (address value : Word)
  deriving DecidableEq, Repr

namespace Script

variable {α : Type}

/-- The script that carries out `requests` after the values `seen`, latest first, were read. -/
def ofRequestsFrom (seen : List Word) : List Request → Script (List Word)
  | [] => done seen.reverse
  | .read address :: rest => read address fun value => ofRequestsFrom (value :: seen) rest
  | .write address value :: rest => write address value (ofRequestsFrom seen rest)

/-- Carries out `requests` in order; the result is the values read. -/
def ofRequests (requests : List Request) : Script (List Word) :=
  ofRequestsFrom [] requests

end Script

end Retrace
