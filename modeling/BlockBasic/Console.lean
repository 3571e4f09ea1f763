import BlockBasic.Listing
import BlockBasic.Parse
/-!
# Console — what the program prints

The command `parse` prints the listing of a source and, on the error stream, its diagnostics in bold, each above its line
with the column underlined.  The command `tokens` prints each logical line and its tokens.  A source that cannot be opened
or read is one diagnostic.
-/
namespace BlockBasic

/-! ## Styles -/

namespace Style

def bold : Text := "\x1b[1m".toList

def underline : Text := "\x1b[4m".toList

def plain : Text := "\x1b[0m".toList

end Style

def Column.contains (c : Column) (i : Nat) : Bool := decide (c.start ≤ i) && decide (i < c.stop)

namespace Decoration

def switch (on wanted : Bool) : Text :=
  if on = wanted then [] else if wanted then Style.underline else Style.plain

/-- The rest of a line from position `i`, with the underline `on` or off before it.  An empty column right behind the
line is shown as an underlined space. -/
def walk (c : Column) : (i : Nat) → (on : Bool) → Text → Text
  | i, on, []      =>
    if c.start = i ∧ c.stop ≤ c.start then Style.underline ++ ' ' :: Style.plain else switch on false
  | i, on, x :: xs => switch on (c.contains i) ++ x :: walk c (i + 1) (c.contains i) xs

end Decoration

/-- **A line with a column of it underlined.** -/
def decorate (source : Text) (c : Column) : Text := Decoration.walk c 0 false source

/-! ## Reports -/

def Diagnostic.line (d : Diagnostic) : Text := Style.bold ++ d.report ++ Style.plain ++ ['\n']

def Parse.lineOf? (p : Parse) (d : Diagnostic) : Option CodeLine :=
  d.line?.bind (fun number => p.lines.find? (fun l => l.number == number))

def Parse.reportOn (p : Parse) (d : Diagnostic) : Text :=
  d.line ++ (match p.lineOf? d with
    | some l => "    ".toList ++ decorate l.source d.column ++ ['\n']
    | none   => [])

def CodeLine.tokenReport (l : CodeLine) : Text :=
  Text.padLeft 5 (Text.ofNat l.number) ++ ' ' :: (l.source ++ ['\n']) ++
    l.tokens.flatMap (fun t => "      ".toList ++ t.shown ++ ['\n'])

/-! ## Commands -/

inductive Command where
  | parse | tokens
deriving DecidableEq

inductive Opening where
  | opened (feed : Feed)
  | missing (path : Text)
  | refused (reason : Text)

structure Outcome where
  code   : Nat
  output : Text
  errors : Text
deriving DecidableEq

namespace Outcome

def failure (d : Diagnostic) : Outcome := ⟨1, [], d.line⟩

def ofParse (i : Indent) (p : Parse) : Outcome :=
  ⟨if p.hasErrors then 1 else 0, listing i p.program, p.diagnostics.flatMap p.reportOn⟩

def ofTokens (o : Conventions) (f : Feed) : Outcome :=
  match f.logicalLines o with
  | .ok lines => ⟨0, lines.flatMap (fun l => (CodeLine.ofSource l.number l.text).tokenReport), []⟩
  | .error d  => failure d

end Outcome

def Command.run (command : Command) (o : Conventions) (i : Indent) (input : Opening) : Outcome :=
  match input with
  | .missing path   => .failure (Fault.unreadable ("FILE NOT FOUND ".toList ++ path)).diagnostic
  | .refused reason => .failure (Fault.unreadable reason).diagnostic
  | .opened feed    =>
    match command with
    | .parse  => .ofParse i (Parse.ofFeed o feed)
    | .tokens => .ofTokens o feed

end BlockBasic
