import Retrace.Main
import Retrace.Session
import Retrace.Proofs.Interpreter
import Retrace.Proofs.Operations
import Retrace.Proofs.TimeTravel
import Retrace.Proofs.Navigation
import Retrace.Proofs.Grammar
import Retrace.Proofs.RoundTrip
import Retrace.Proofs.Halting
import Retrace.Proofs.Listeners
import Retrace.Proofs.Input
import Retrace.Proofs.Footprint
import Retrace.Proofs.Growth
import Retrace.Proofs.SpareSlots
import Retrace.Proofs.Commands
import Retrace.Proofs.Bounds
import Retrace.Proofs.JsonForms
import Retrace.Proofs.Lossless
import Retrace.Proofs.Rounding
import Retrace.Proofs.Truncation
import Retrace.Proofs.Arithmetic
import Retrace.Proofs.FirstFault
import Retrace.Proofs.Account
import Retrace.Proofs.Patches
import Retrace.Proofs.Assignment
import Retrace.Proofs.OperandKinds
import Retrace.Proofs.Joining
import Retrace.Proofs.FallThrough
import Retrace.Proofs.OutputText
import Retrace.Proofs.UniqueLines
import Retrace.Proofs.SpanFormat
import Retrace.Proofs.Scanner
