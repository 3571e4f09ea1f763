import BlockBasic.Console
/-!
# Invocation — the command line

A command line is a command, at most one file, and options in any place.  Without a file the source is the standard
input.
-/
namespace BlockBasic

structure Invocation where
  command      : Option Command := none
  file         : Option Text := none
  /-- Lines ending in ` _` stay apart. -/
  separate     : Bool := false
  tabs         : Bool := false
  indent       : Nat := 4
deriving DecidableEq

namespace Invocation

/-- Takes the arguments one by one; there is no invocation when one of them has no meaning. -/
def read : Invocation → List Text → Option Invocation
  | i, []          => some i
  | i, a :: rest   =>
    if a = "--no-continuation".toList then read { i with separate := true } rest
    else if a = "--tabs".toList then read { i with tabs := true } rest
    else if a = "--indent".toList then
      match rest with
      | n :: rest => (Text.decimal? n).bind (fun n => read { i with indent := n } rest)
      | []        => none
    else
      match i.command, i.file with
      | none, _      =>
        if a = "parse".toList then read { i with command := some .parse } rest
        else if a = "tokens".toList then read { i with command := some .tokens } rest
        else none
      | some _, none => read { i with file := some a } rest
      | _, _         => none

def conventions (i : Invocation) : Conventions := if i.separate then { continuation := none } else {}

/-- The indentation a command line asks for: tabs go before a number of spaces. -/
def indentation (i : Invocation) : Indent := if i.tabs then .tab else .spaces i.indent

def run? (i : Invocation) (input : Opening) : Option Outcome :=
  i.command.map (fun c => c.run i.conventions i.indentation input)

end Invocation
end BlockBasic
