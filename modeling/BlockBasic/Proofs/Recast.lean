import BlockBasic.Proofs.Kinds
import BlockBasic.Proofs.UpperCase
/-!
# Recast — the same statement in another guise

A guise writes each letter in some case and moves lines and positions about.  Building a statement looks at neither: it
looks up names up to case and carries places along.  So the statement of a run in another guise is the statement of the
run in that guise (`statement_recast`), and so are the reports on it (`faultsOf_recast`).
-/
namespace BlockBasic

/-- **A guise**: a case for each letter, and other places for lines and columns.  What stands nowhere stays so. -/
structure Guise where
  letter         : Char → Char
  toUpper_letter : ∀ c, (letter c).toUpper = c.toUpper
  line           : Nat → Nat
  position       : Nat → Nat
  position_zero  : position 0 = 0

namespace Guise

def upper : Guise := ⟨Char.toUpper, Text.toUpper_toUpper, id, id, rfl⟩

def text (g : Guise) (t : Text) : Text := t.map g.letter

def column (g : Guise) (c : Column) : Column := ⟨g.position c.start, g.position c.stop⟩

variable (g : Guise)

theorem column_none : g.column Column.none = Column.none := by
  rw [column, Column.none, g.position_zero]

theorem blind {p : Char → Bool} (hp : Text.Blind p) (c : Char) : p (g.letter c) = p c := by
  rw [← hp (g.letter c), g.toUpper_letter, hp]

theorem letter_eq_self {c : Char} (h : c.isAlpha = false) : g.letter c = c := by
  have hc : (g.letter c).toUpper = c := by rw [g.toUpper_letter, (Text.toUpper_eq_iff h).2 rfl]
  exact (Text.toUpper_eq_iff h).1 hc

theorem letter_eq_iff {c x : Char} (hx : x.isAlpha = false) : g.letter c = x ↔ c = x := by
  rw [← Text.toUpper_eq_iff hx, g.toUpper_letter, Text.toUpper_eq_iff hx]

@[simp] theorem text_cons (c : Char) (t : Text) : g.text (c :: t) = g.letter c :: g.text t := rfl

@[simp] theorem text_append (s t : Text) : g.text (s ++ t) = g.text s ++ g.text t := List.map_append

theorem text_eq_self {t : Text} (h : ∀ c ∈ t, c.isAlpha = false) : g.text t = t :=
  (List.map_congr_left fun c hc => g.letter_eq_self (h c hc)).trans (List.map_id t)

theorem upper_text (t : Text) : (g.text t).upper = t.upper := by
  rw [Text.upper, Text.upper, text, List.map_map]
  exact List.map_congr_left fun c _ => g.toUpper_letter c

/-! ## What is read from a text, and written -/

theorem decimal?_text (t : Text) : (g.text t).decimal? = t.decimal? := by
  have hall : (g.text t).all Char.isDigit = t.all Char.isDigit := by
    rw [text, List.all_map]
    exact congrArg t.all (funext (g.blind Text.blind_isDigit))
  by_cases hd : t.all Char.isDigit = true
  · rw [g.text_eq_self fun c hc => Text.isAlpha_of_isDigit (List.all_eq_true.1 hd c hc)]
  · rw [Text.decimal?, Text.decimal?, if_neg (fun h => hd (hall ▸ h.2)), if_neg (fun h => hd h.2)]

theorem ofDigits?_text (t : Text) : Literal.ofDigits? (g.text t) = Literal.ofDigits? t := by
  rw [Literal.ofDigits?, Literal.ofDigits?, g.decimal?_text]

theorem ofDecimal?_text (t : Text) : Double.ofDecimal? (g.text t) = Double.ofDecimal? t := by
  have hdot : (fun c => c != '.') ∘ g.letter = (fun c => c != '.') :=
    funext (g.blind (p := fun c => !(c == '.')) (Text.blind_beq (by decide)).not)
  have hwhole : (g.text t).takeWhile (· != '.') = g.text (t.takeWhile (· != '.')) := by
    rw [text, List.takeWhile_map, hdot, text]
  have hfraction : ((g.text t).dropWhile (· != '.')).drop 1 = g.text ((t.dropWhile (· != '.')).drop 1) := by
    rw [text, List.dropWhile_map, hdot, text, List.map_drop]
  have hlength : (g.text ((t.dropWhile (· != '.')).drop 1)).length = ((t.dropWhile (· != '.')).drop 1).length :=
    List.length_map _
  simp only [Double.ofDecimal?, hwhole, hfraction, ← text_append, decimal?_text, hlength]

theorem doubleQuotes_text (t : Text) : (g.text t).doubleQuotes = g.text t.doubleQuotes := by
  have hq : g.letter '"' = '"' := g.letter_eq_self (by decide)
  induction t with
  | nil => rfl
  | cons c t ih =>
    have hc : g.letter c = '"' ↔ c = '"' := g.letter_eq_iff (by decide)
    rw [text_cons, Text.doubleQuotes, Text.doubleQuotes, ih]
    by_cases h : c = '"'
    · rw [if_pos (hc.2 h), if_pos h, text_cons, text_cons, hq]
    · rw [if_neg (fun h' => h (hc.1 h')), if_neg h, text_cons]

theorem quote_text (t : Text) : (g.text t).quote = g.text t.quote := by
  have hq : g.letter '"' = '"' := g.letter_eq_self (by decide)
  rw [Text.quote, Text.quote, text_cons, text_append, doubleQuotes_text, text_cons, hq]
  rfl

end Guise

/-! ## Tokens -/

namespace Token

def recast (g : Guise) (t : Token) : Token := ⟨t.kind, g.text t.text, g.column t.column⟩

/-- A separator is a sign without a case. -/
def Caseless (g : Guise) (t : Token) : Prop := t.kind = .separator → g.text t.text = t.text

variable (g : Guise)

@[simp] theorem kind_recast (t : Token) : (t.recast g).kind = t.kind := rfl

@[simp] theorem text_recast (t : Token) : (t.recast g).text = g.text t.text := rfl

theorem source_recast (t : Token) : (t.recast g).source = g.text t.source := by
  unfold source
  rw [kind_recast]
  split
  · exact g.quote_text t.text
  · rfl

theorem handle?_recast (t : Token) : Phrase.handle? (t.recast g) = Phrase.handle? t := by
  rw [Phrase.handle?, Phrase.handle?, kind_recast, text_recast, g.decimal?_text]

end Token

theorem Phrase.phrases_recast (g : Guise) (inOpen : Bool) (ts : List Token) :
    phrases inOpen (ts.map (Token.recast g)) = (phrases inOpen ts).map (Phrase.map (Token.recast g)) :=
  Phrase.phrases_map (Token.kind_recast g) (Token.handle?_recast g) inOpen ts

theorem Phrase.column_recast (g : Guise) (p : Phrase) : (p.map (Token.recast g)).column = g.column p.column := by
  rw [Phrase.column, Phrase.first_map, Phrase.last_map]
  rfl

/-! ## Reports -/

def Fault.recast (g : Guise) : Fault → Fault
  | .unreadable reason    => .unreadable (g.text reason)
  | .mismatched form line => .mismatched form (g.line line)
  | .strayCloser text     => .strayCloser (g.text text)
  | .duplicate name line  => .duplicate (g.text name) (g.line line)
  | f                     => f

namespace Nest

variable (g : Guise)

def recastFault (f : Column × Fault) : Column × Fault := (g.column f.1, f.2.recast g)

theorem phraseFaults_recast (p : Phrase) :
    phraseFaults (p.map (Token.recast g)) = (phraseFaults p).map (recastFault g) := by
  cases p with
  | token t =>
    simp only [Phrase.map, phraseFaults, Token.kind_recast]
    split <;> rfl
  | handle | mode | access => rfl

theorem closingFaults_recast (b : Bracket) (o : Token) (c : Option Token) :
    closingFaults b (o.recast g) (c.map (Token.recast g)) = (closingFaults b o c).map (recastFault g) := by
  cases c <;> rfl

mutual

theorem faults_recast (limit : Limit) (depth : Nat) : ∀ (n : Nest),
    faults limit depth (n.map (Token.recast g)) = (faults limit depth n).map (recastFault g)
  | .leaf p => phraseFaults_recast g p
  | .group b o body c => by
    rw [map, faults, faults, closingFaults_recast]
    split
    · rfl
    · rw [List.map_append, faultsOf_recast limit (depth + 1) body]

theorem faultsOf_recast (limit : Limit) (depth : Nat) : ∀ (ns : List Nest),
    faultsOf limit depth (mapList (Token.recast g) ns) = (faultsOf limit depth ns).map (recastFault g)
  | [] => rfl
  | n :: ns => by
    rw [mapList, faultsOf, faultsOf, List.map_append, faults_recast limit depth n, faultsOf_recast limit depth ns]

end

theorem toList_map_recast (c : Option Token) : (c.map (Token.recast g)).toList = c.toList.map (Token.recast g) := by
  cases c <;> rfl

theorem groupColumn_recast (o : Token) (body : List Nest) (c : Option Token) :
    groupColumn (o.recast g) (mapList (Token.recast g) body) (c.map (Token.recast g)) =
      g.column (groupColumn o body c) := by
  have hlast : ∀ ts : List Token, (ts.map (Token.recast g)).getLastD (o.recast g) = (ts.getLastD o).recast g := by
    intro ts
    rw [List.getLastD_eq_getLast?, List.getLast?_map, List.getLastD_eq_getLast?]
    cases ts.getLast? <;> rfl
  rw [groupColumn, tokensOf_mapList, toList_map_recast, ← List.map_append, ← List.map_cons, hlast]
  rfl

theorem rawText_recast (b : Bracket) (body : List Nest) (c : Option Token) :
    rawText b (mapList (Token.recast g) body) (c.map (Token.recast g)) = g.text (rawText b body c) := by
  have hopening : g.letter b.opening = b.opening := g.letter_eq_self (by cases b <;> decide)
  have hspace : g.letter ' ' = ' ' := g.letter_eq_self (by decide)
  rw [rawText, tokensOf_mapList, toList_map_recast, ← List.map_append, rawText, Guise.text_cons, hopening,
    List.flatMap_map, Guise.text, List.map_flatMap]
  congr 2
  funext t
  simp only [Token.kind_recast, Token.source_recast]
  split
  · rfl
  · rfl
  · rw [List.map_append, List.map_singleton, hspace]
    rfl

end Nest

/-! ## Expressions -/

def Literal.recast (g : Guise) : Literal → Literal
  | .string t => .string (g.text t)
  | v         => v

def Atom.recast (g : Guise) : Atom → Atom
  | .fileName name      => .fileName (g.text name)
  | .literal v spelling => .literal (v.recast g) (g.text spelling)
  | .reference name key => .reference (g.text name) key
  | .malformed text     => .malformed (g.text text)
  | a                   => a

def Table.SameKeys (t u : Table) : Prop :=
  ∀ name, (t.lookup name).map Declaration.key = (u.lookup name).map Declaration.key

theorem Table.lookup_text (g : Guise) (t : Table) (name : Text) : t.lookup (g.text name) = t.lookup name := by
  rw [lookup, lookup, Key.ofName, Key.ofName, g.upper_text, Key.ofName, Key.ofName]

namespace Expression

variable (g : Guise)

mutual

def recast : Expression → Expression
  | .atom c a                   => .atom (g.column c) (a.recast g)
  | .group c b arguments closed => .group (g.column c) b (recastArguments arguments) closed

def recastList : List Expression → List Expression
  | []      => []
  | e :: es => recast e :: recastList es

def recastArguments : List (List Expression) → List (List Expression)
  | []      => []
  | a :: as => recastList a :: recastArguments as

end

theorem recastList_append : ∀ (xs ys : List Expression), recastList g (xs ++ ys) = recastList g xs ++ recastList g ys
  | [], _ => rfl
  | x :: xs, ys => by rw [List.cons_append, recastList, recastList_append xs ys, recastList, List.cons_append]

theorem isSeparator_recast : ∀ (e : Expression), (e.recast g).isSeparator = e.isSeparator
  | .atom _ (.separator _) | .group _ _ _ _ => rfl
  | .atom _ (.keyword _) | .atom _ (.handle _) | .atom _ (.mode _ _) | .atom _ (.fileName _) | .atom _ (.literal _ _)
  | .atom _ (.operator _) | .atom _ (.reference _ _) | .atom _ (.malformed _) => rfl

theorem tokenAtom_recast {t u : Table} (h : t.SameKeys u) {x : Token} (hx : x.Caseless g) :
    tokenAtom u (x.recast g) = (tokenAtom t x).recast g := by
  have hhash : g.text ['#'] = ['#'] := congrArg (fun c => [c]) (g.letter_eq_self (by decide))
  unfold tokenAtom
  rw [Token.kind_recast, Token.text_recast, g.ofDigits?_text, g.ofDecimal?_text, Table.lookup_text, ← h]
  cases hk : x.kind with
  | name | string => rfl
  | separator => rw [hx hk]; rfl
  | integer =>
    cases hv : Literal.ofDigits? x.text with
    | none => rfl
    | some v =>
      obtain ⟨n, -, rfl⟩ := Option.map_eq_some_iff.1 hv
      simp only [Atom.recast]
      split <;> rfl
  | float => cases Double.ofDecimal? x.text <;> rfl
  | hash => simp only [Atom.recast, hhash]
  | _ => rfl

def Piece.recast : Piece → Piece
  | .expression e         => .expression (e.recast g)
  | .access word a stop   => .access (word.recast g) a (g.position stop)

theorem phrasePiece_recast {t u : Table} (h : t.SameKeys u) {p : Phrase} (hp : ∀ x ∈ p.tokens, x.Caseless g) :
    phrasePiece u (p.map (Token.recast g)) = (phrasePiece t p).recast g := by
  have hcolumn := Phrase.column_recast g p
  cases p with
  | token x =>
    simp only [Phrase.map, phrasePiece, Piece.recast, recast]
    rw [tokenAtom_recast g h (hp x List.mem_cons_self)]
    rfl
  | handle | mode => exact congrArg (fun c => Piece.expression (.atom c _)) hcolumn
  | access x y more a => exact congrArg (fun c : Column => Piece.access (x.recast g) a c.stop) hcolumn

theorem grant?_recastList (a : FileAccess) (stop : Nat) : ∀ (es : List Expression),
    grant? a (g.position stop) (recastList g es) = (grant? a stop es).map (recastList g)
  | [] => rfl
  | e :: es => by
    have ih := grant?_recastList a stop es
    unfold recastList grant?
    rw [ih]
    cases grant? a stop es with
    | some granted => rfl
    | none =>
      cases e with
      | group c b arguments closed => rfl
      | atom c x => cases x <;> rfl

theorem settle_recastList (es : List Expression) : ∀ (p : Piece),
    settle (recastList g es) (p.recast g) = recastList g (settle es p)
  | .expression e => (recastList_append g es [e]).symm
  | .access word a stop => by
    rw [Piece.recast, settle, settle, grant?_recastList]
    cases grant? a stop es with
    | some granted => rfl
    | none => exact (recastList_append g es [.atom word.column (.keyword (.word .access))]).symm

theorem foldl_settle_recast : ∀ (ps : List Piece) (es : List Expression),
    (ps.map (Piece.recast g)).foldl settle (recastList g es) = recastList g (ps.foldl settle es)
  | [], _ => rfl
  | p :: ps, es => by rw [List.map_cons, List.foldl_cons, settle_recastList, foldl_settle_recast ps, List.foldl_cons]

theorem cutArguments_recastList : ∀ (es : List Expression),
    cutArguments (recastList g es) = recastArguments g (cutArguments es)
  | [] => rfl
  | e :: es => by
    rw [recastList, cutArguments, cutArguments, isSeparator_recast, cutArguments_recastList es]
    split
    · rfl
    · cases cutArguments es <;> rfl

theorem argumentsOf_recastList (es : List Expression) :
    argumentsOf (recastList g es) = recastArguments g (argumentsOf es) := by
  cases es with
  | nil => rfl
  | cons e es => exact cutArguments_recastList g (e :: es)

mutual

theorem nestPiece_recast (limit : Limit) {t u : Table} (h : t.SameKeys u) (depth : Nat) : ∀ (n : Nest),
    (∀ x ∈ n.tokens, x.Caseless g) →
      nestPiece limit u depth (n.map (Token.recast g)) = (nestPiece limit t depth n).recast g
  | .leaf p, hn => phrasePiece_recast g h hn
  | .group b o body c, hn => by
    have hbody : ∀ x ∈ Nest.tokensOf body, x.Caseless g := fun x hx =>
      hn x (List.mem_cons_of_mem o (List.mem_append_left _ hx))
    rw [Nest.map, nestPiece, nestPiece, Nest.groupColumn_recast, Nest.rawText_recast, Option.isSome_map,
      nestPieces_recast limit h (depth + 1) body hbody]
    split
    · rfl
    · have hfold := foldl_settle_recast g (nestPieces limit t (depth + 1) body) []
      rw [recastList] at hfold
      rw [hfold, argumentsOf_recastList, Piece.recast, recast]

theorem nestPieces_recast (limit : Limit) {t u : Table} (h : t.SameKeys u) (depth : Nat) : ∀ (ns : List Nest),
    (∀ x ∈ Nest.tokensOf ns, x.Caseless g) →
      nestPieces limit u depth (Nest.mapList (Token.recast g) ns) = (nestPieces limit t depth ns).map (Piece.recast g)
  | [], _ => rfl
  | n :: ns, hns => by
    rw [Nest.tokensOf] at hns
    rw [Nest.mapList, nestPieces, nestPieces, List.map_cons,
      nestPiece_recast limit h depth n (fun x hx => hns x (List.mem_append_left _ hx)),
      nestPieces_recast limit h depth ns (fun x hx => hns x (List.mem_append_right _ hx))]

end

/-- **Nests in another guise make the expressions in that guise.** -/
theorem ofNests_recast (limit : Limit) {t u : Table} (h : t.SameKeys u) {ns : List Nest}
    (hns : ∀ x ∈ Nest.tokensOf ns, x.Caseless g) :
    ofNests limit u (Nest.mapList (Token.recast g) ns) = recastList g (ofNests limit t ns) := by
  rw [ofNests, nestPieces_recast g limit h 0 ns hns]
  exact foldl_settle_recast g _ []

mutual

theorem nameFile?_recast : ∀ (e : Expression), nameFile? (e.recast g) = (nameFile? e).map (recast g)
  | .atom c a => by
    cases a with
    | literal value spelling => cases value <;> rfl
    | _ => rfl
  | .group c b arguments closed => by
    rw [recast, nameFile?, nameFile?, nameFileInArguments?_recast arguments, Option.map_map, Option.map_map]
    rfl

theorem nameFileIn?_recast : ∀ (es : List Expression), nameFileIn? (recastList g es) = (nameFileIn? es).map (recastList g)
  | [] => rfl
  | e :: es => by
    rw [recastList, nameFileIn?, nameFileIn?, nameFile?_recast e, nameFileIn?_recast es]
    cases nameFile? e with
    | some named => rfl
    | none => cases nameFileIn? es <;> rfl

theorem nameFileInArguments?_recast : ∀ (as : List (List Expression)),
    nameFileInArguments? (recastArguments g as) = (nameFileInArguments? as).map (recastArguments g)
  | [] => rfl
  | a :: as => by
    rw [recastArguments, nameFileInArguments?, nameFileInArguments?, nameFileIn?_recast a,
      nameFileInArguments?_recast as]
    cases nameFileIn? a with
    | some named => rfl
    | none => cases nameFileInArguments? as <;> rfl

end

theorem nameFile_recastList (es : List Expression) : nameFile (recastList g es) = recastList g (nameFile es) := by
  rw [nameFile, nameFile, nameFileIn?_recast]
  cases nameFileIn? es <;> rfl

end Expression

/-! ## Statements -/

def Statement.recast (g : Guise) (s : Statement) : Statement :=
  ⟨g.line s.line, g.column s.column, s.keyword.map (fun k => (g.column k.1, k.2)), Expression.recastList g s.expressions⟩

namespace Run

def recast (g : Guise) (r : Run) : Run := ⟨g.line r.index, g.line r.number, r.tokens.map (Token.recast g)⟩

variable (g : Guise)

theorem kinds_recast (r : Run) : (r.recast g).tokens.map Token.kind = r.tokens.map Token.kind := by
  rw [recast, List.map_map]
  rfl

theorem role_recast (r : Run) : (r.recast g).role = r.role := role_of_kinds (kinds_recast g r)

theorem isOpen_recast (r : Run) : (r.recast g).isOpen = r.isOpen := by
  rw [isOpen, isOpen, word?_of_kinds (kinds_recast g r)]

theorem column_recast (r : Run) : (r.recast g).column = g.column r.column := by
  rw [column, recast, List.head?_map, List.getLast?_map, column]
  cases r.tokens.head? with
  | none => exact (g.column_none).symm
  | some t =>
    cases r.tokens.getLast? with
    | none => exact (g.column_none).symm
    | some u => rfl

theorem keyword?_recast (r : Run) : (r.recast g).keyword? = r.keyword?.map (fun k => (g.column k.1, k.2)) := by
  rw [keyword?, keyword?, recast, List.head?_map]
  cases r.tokens.head? with
  | none => rfl
  | some t =>
    rw [Option.map_some, Option.bind_some, Option.bind_some, Option.map_map, Token.kind_recast]
    rfl

theorem operands_recast (r : Run) : (r.recast g).operands = r.operands.map (Token.recast g) := by
  rw [operands, operands, keyword?_recast, Option.isSome_map]
  split
  · exact List.map_drop.symm
  · rfl

theorem nests_recast (limit : Limit) (r : Run) :
    (r.recast g).nests limit = Nest.mapList (Token.recast g) (r.nests limit) := by
  rw [nests, nests, isOpen_recast, operands_recast, Phrase.phrases_recast, Nest.mapList_ofPhrases (Token.kind_recast g)]

theorem tokensOf_nests (limit : Limit) (r : Run) : Nest.tokensOf (r.nests limit) = r.operands :=
  Nest.tokensOf_ofPhrases_phrases limit r.isOpen r.operands

theorem mem_operands {r : Run} {t : Token} (h : t ∈ r.operands) : t ∈ r.tokens := by
  unfold operands at h
  split at h
  · exact List.mem_of_mem_drop h
  · exact h

theorem mem_of_nests {limit : Limit} {r : Run} {t : Token} (h : t ∈ Nest.tokensOf (r.nests limit)) : t ∈ r.tokens :=
  mem_operands (tokensOf_nests limit r ▸ h)

theorem statement_recast {t u : Table} (h : t.SameKeys u) {r : Run} (hr : ∀ x ∈ r.tokens, x.Caseless g) :
    (r.recast g).statement u = (r.statement t).recast g := by
  have hnests : ∀ limit, Expression.ofNests limit u ((r.recast g).nests limit) =
      Expression.recastList g (Expression.ofNests limit t (r.nests limit)) := by
    intro limit
    rw [nests_recast]
    exact Expression.ofNests_recast g limit h (fun x hx => hr x (mem_of_nests hx))
  have hexpressions : ∀ limit, (r.recast g).expressions limit u = Expression.recastList g (r.expressions limit t) := by
    intro limit
    rw [expressions, expressions, isOpen_recast, hnests]
    split
    · exact Expression.nameFile_recastList g _
    · rfl
  rw [statement, statement, statementWithin, statementWithin, hexpressions, keyword?_recast, column_recast]
  rfl

theorem diagnostics_recast (r : Run) : (r.recast g).diagnostics =
    (Nest.faultsOf (some maxNesting) 0 (r.nests (some maxNesting))).map
      (fun f => (f.2.recast g).located (g.line r.number) (g.column f.1)) := by
  rw [diagnostics, diagnosticsWithin, nests_recast, Nest.faultsOf_recast, List.map_map]
  rfl

end Run
end BlockBasic
