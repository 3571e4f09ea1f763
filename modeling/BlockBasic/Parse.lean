import BlockBasic.Reference.Scan
import BlockBasic.Source.Feed
import BlockBasic.Visit
/-!
# Parse — a source taken through every stage

The lines of a source become tokens, the tokens declarations, and both together a tree.  Each stage reports what it finds
wrong and goes on, so there is a tree for every source that can be read; a source that cannot has one report and nothing
else.
-/
namespace BlockBasic

/-- **All that comes of a source.** -/
structure Parse where
  program     : Program := []
  references  : Table := Table.empty
  lines       : List CodeLine := []
  diagnostics : List Diagnostic := []

namespace Parse

def failed (d : Diagnostic) : Parse := { diagnostics := [d] }

/-- What comes of logical lines: the reports of the tokens, then of the declarations, then of the tree. -/
def ofLines (source : List SourceLine) : Parse :=
  let lines := source.map (fun l => CodeLine.ofSource l.number l.text)
  let declared := declarations lines
  ⟨Program.ofLines declared.1 lines, declared.1, lines,
    lines.flatMap CodeLine.diagnostics ++ declared.2 ++ Program.diagnostics (programRuns lines)⟩

def ofFeed (o : Conventions) (f : Feed) : Parse :=
  match f.logicalLines o with
  | .ok lines => ofLines lines
  | .error d  => failed d

def ofText (o : Conventions) (t : Text) : Parse := ofFeed o (Feed.ofText t)

def isFatal (p : Parse) : Bool := p.diagnostics.any Diagnostic.isFatal

def hasErrors (p : Parse) : Bool := !p.diagnostics.isEmpty

/-! ## Names without a declaration -/

def undeclared? : Visit → Option Text
  | .expression (.atom _ (.reference name none)) => some name
  | _                                            => none

def addName (names : List Text) (name : Text) : List Text :=
  if names.any (Text.alike · name) then names else names ++ [name]

/-- **The names that are used and not declared**, in the spelling and order of their first use; the parameters of routines
are not among them. -/
def unresolved (p : Parse) : List Text :=
  (((Node.visitsOf p.program).filterMap undeclared?).foldl addName []).filter (fun name => !p.references.isParameter name)

end Parse
end BlockBasic
