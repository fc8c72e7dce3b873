import Retrace.Cli.Arguments
import Retrace.Cli.Report

/-!
# The help page

* `Verb.synopsis`, `Verb.purpose` : the arguments of a command, and what it is for;
* `Setting.purpose` : what an option is for;
* `Cli.helpPage` : the commands and the options, one a line.
-/

namespace Retrace.Cli

/-- The arguments of a command. -/
def Verb.synopsis : Verb → String
  | check | disassemble => "FILE"
  | run => "FILE [OPTIONS]"
  | trace => "FILE [OPTIONS] [--json]"
  | catalog => "[MNEMONIC]"

def Verb.purpose : Verb → String
  | check => "compile a source file and count its statements"
  | run => "run a program until it halts and print its output"
  | trace => "run a program and print every step"
  | disassemble => "compile a source file and print it in canonical form"
  | catalog => "list the instructions, or describe one of them"

def Setting.purpose : Setting → String
  | input => "text put into the input range before the first step"
  | maxSteps => "the most steps to execute, 10000 unless given"
  | memorySize => "the number of memory cells, 256 unless given"
  | inputRange => "the input range as START..END, the third quarter unless given"
  | outputRange => "the output range as START..END, the last quarter unless given"

/-- A line of two columns. -/
def helpLine (term meaning : String) : String :=
  s!"  {Text.padRight 32 term} {meaning}\n"

/-- The commands and the options, one a line. -/
def helpPage : String :=
  "Commands:\n" ++
    String.join (Verb.all.map fun v => helpLine s!"{v.name} {v.synopsis}" v.purpose) ++
    "\nOptions:\n" ++
    String.join
      (Setting.all.map fun s => helpLine s!"--{s.name} <{s.placeholder}>" s.purpose) ++
    helpLine "--json" "print the trace as JSON" ++
    helpLine "-h, --help" "print this page"

end Retrace.Cli
