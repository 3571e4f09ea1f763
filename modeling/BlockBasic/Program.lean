import BlockBasic.Block.Assembly
import BlockBasic.Statement
/-!
# Program — statements in their blocks

The tree of a program is the blocks of its runs with each run built into its statement.  The reports are those of the
runs in order, first on a run's expressions and then on what its terminator fails to close; the blocks that are never
closed come last, the innermost first.
-/
namespace BlockBasic

abbrev Program := List (Node Statement)

namespace Program

/-- **The program of a sequence of runs.**  Names refer to the declarations of `table`. -/
def ofRuns (table : Table) (runs : List Run) : Program := Node.mapList (Run.statement table) (blockTree runs)

def diagnosticsFrom : Assembly → List Run → List Diagnostic
  | a, []      => a.blocks.map Assembly.unclosedDiagnostic
  | a, r :: rs => r.diagnostics ++ a.terminatorDiagnostics r ++ diagnosticsFrom (a.step r) rs

def diagnostics (runs : List Run) : List Diagnostic := diagnosticsFrom {} runs

def ofLines (table : Table) (lines : List CodeLine) : Program := ofRuns table (programRuns lines)

end Program
end BlockBasic
