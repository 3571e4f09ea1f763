import BlockBasic.Proofs.Reading
import BlockBasic.Listing
/-!
# Written — the nests that a listing writes

A listing writes each expression as certain phrases in certain brackets (`Expression.nests`).  An expression is
`Restorable` if its phrases can be read and its groups are closed, not too deep and cut at their separators; then
building what was written gives the expression back (`ofNests_nestsOf`), and nothing is wrong with it
(`whole_nestsOf`).  To name a file in an `OPEN` statement changes neither the text nor the nests.
-/
namespace BlockBasic

open Lexer

/-! ## The tokens of a listing -/

namespace Keyword

def kind : Keyword → Kind
  | .word w     => .word w
  | .dataType d => .dataType d
  | .function f => .function f

theorem ofKind?_kind (k : Keyword) : ofKind? k.kind = some k := by cases k <;> rfl

theorem eq_kind_of_ofKind? {kind : Kind} {k : Keyword} (h : ofKind? kind = some k) : kind = k.kind := by
  cases kind <;> cases h <;> rfl

def token (k : Keyword) : Token := ⟨k.kind, k.spelling, Column.none⟩

theorem isReadable_token (k : Keyword) : k.token.isReadable = true := by
  have hw : ∀ w ∈ Word.all, (word w).token.isReadable = true := by decide +kernel
  have hd : ∀ d ∈ DataType.all, (dataType d).token.isReadable = true := by decide +kernel
  have hf : ∀ f ∈ Function.all, (function f).token.isReadable = true := by decide +kernel
  cases k with
  | word w => exact hw w w.mem_all
  | dataType d => exact hd d d.mem_all
  | function f => exact hf f f.mem_all

theorem sound_token (k : Keyword) : k.token.Sound :=
  ⟨k.isReadable_token, by cases k <;> exact Kind.noConfusion, by cases k <;> exact Kind.noConfusion⟩

end Keyword

def Operator.token (o : Operator) : Token := ⟨Kind.ofOperator o, o.spelling, Column.none⟩

theorem Operator.isReadable_token (o : Operator) : o.token.isReadable = true := by
  have h : ∀ o ∈ Operator.all, o.token.isReadable = true := by decide +kernel
  exact h o o.mem_all

theorem Operator.sound_token (o : Operator) : o.token.Sound :=
  ⟨o.isReadable_token, by cases o <;> exact Kind.noConfusion, by cases o <;> exact Kind.noConfusion⟩

namespace FileMode

def word : FileMode → Word
  | input  => .input
  | output => .output
  | append => .append
  | binary => .binary
  | random => .random

theorem text_eq_spelling (m : FileMode) : m.text = m.word.spelling := by cases m <;> rfl

theorem ofWord?_word (m : FileMode) : ofWord? m.word = some m := by cases m <;> rfl

theorem kind_eq {t : Token} {m : FileMode} (h : t.word?.bind ofWord? = some m) : t.kind = .word m.word := by
  obtain ⟨w, hw, hm⟩ := Option.bind_eq_some_iff.1 h
  rw [Phrase.kind_of_word? hw]
  cases w <;> cases hm <;> rfl

def phrase (m : FileMode) : Phrase := .mode (Keyword.word .for_).token (Keyword.word m.word).token m

end FileMode

def FileAccess.phrase (a : FileAccess) : Phrase :=
  match a with
  | read      => .access (Keyword.word .access).token (Keyword.word .read).token none a
  | write     => .access (Keyword.word .access).token (Keyword.word .write).token none a
  | readWrite => .access (Keyword.word .access).token (Keyword.word .read).token (some (Keyword.word .write).token) a

def Atom.phrases : Atom → List Phrase
  | .keyword k             => [.token k.token]
  | .handle n              => [.handle ⟨.hash, ['#'], Column.none⟩ ⟨.integer, Text.ofNat n, Column.none⟩ n]
  | .mode m none           => [m.phrase]
  | .mode m (some a)       => [m.phrase, a.phrase]
  | .fileName t            => [.token ⟨.string, t, Column.none⟩]
  | .literal (.string t) _ => [.token ⟨.string, t, Column.none⟩]
  | .literal (.integer _) spelled | .literal (.float _) spelled =>
    [.token ⟨numberKind spelled, spelled, Column.none⟩]
  | .operator o            => [.token o.token]
  | .reference name _      => [.token ⟨.name, name, Column.none⟩]
  | .separator c           => [.token ⟨.separator, [c], Column.none⟩]
  | .malformed t           => [.token ⟨.colon, t, Column.none⟩]

namespace Bracket

def openingToken (b : Bracket) : Token := ⟨.opener b, [b.opening], Column.none⟩

def closingToken (b : Bracket) : Token := ⟨.closer b, [b.closing], Column.none⟩

end Bracket

namespace Expression

def comma : Expression := .atom Column.none (.separator ',')

def commaNest : Nest := .leaf (.token ⟨.separator, [','], Column.none⟩)

mutual

def nests : Expression → List Nest
  | .atom _ a              => a.phrases.map .leaf
  | .group _ b arguments _ => [.group b b.openingToken (argumentNests arguments) (some b.closingToken)]

def nestsOf : List Expression → List Nest
  | []      => []
  | e :: es => nests e ++ nestsOf es

def argumentNests : List (List Expression) → List Nest
  | []      => []
  | a :: as => nestsOf a ++ laterNests as

def laterNests : List (List Expression) → List Nest
  | []      => []
  | a :: as => commaNest :: (nestsOf a ++ laterNests as)

end

theorem nestsOf_eq_flatMap (es : List Expression) : nestsOf es = es.flatMap nests := by
  induction es with
  | nil => rfl
  | cons e es ih => rw [nestsOf, ih, List.flatMap_cons]

@[simp] theorem nestsOf_append (xs ys : List Expression) : nestsOf (xs ++ ys) = nestsOf xs ++ nestsOf ys := by
  simp only [nestsOf_eq_flatMap, List.flatMap_append]

theorem laterNests_eq_flatMap (as : List (List Expression)) :
    laterNests as = as.flatMap (fun a => commaNest :: nestsOf a) := by
  induction as with
  | nil => rfl
  | cons a as ih => rw [laterNests, ih, List.flatMap_cons, List.cons_append]

/-! ## What can be restored -/

end Expression

/-- An atom that can be read and built from what a listing writes for it. -/
structure Atom.Restorable (table : Table) (inOpen : Bool) (a : Atom) : Prop where
  formed : ∀ p ∈ a.phrases, p.Formed inOpen ∧ p.isSettled = true
  sound  : ∀ p ∈ a.phrases, ∀ t ∈ p.tokens, t.Sound
  builds : ∀ before : List Expression, ((a.phrases.map (Expression.phrasePiece table)).map
    Expression.Piece.unplaced).foldl Expression.settle before = before ++ [.atom Column.none a]

namespace Expression

/-- **An expression that a listing gives back**, inside `depth` groups.  A colon needs brackets around it. -/
inductive Restorable (limit : Limit) (table : Table) (inOpen : Bool) : Nat → Expression → Prop
  | atom {depth : Nat} {c : Column} {a : Atom} : a.Restorable table inOpen →
      (depth = 0 → ∀ p ∈ a.phrases, p.first.kind ≠ .colon) → Restorable limit table inOpen depth (.atom c a)
  | group {depth : Nat} {c : Column} {b : Bracket} {arguments : List (List Expression)} :
      limit.exceeded depth = false → arguments ≠ [[]] → (∀ a ∈ arguments, ∀ e ∈ a, e.isSeparator = false) →
      (∀ a ∈ arguments, ∀ e ∈ a, Restorable limit table inOpen (depth + 1) e) →
      Restorable limit table inOpen depth (.group c b arguments true)

/-! ## What is written is built again -/

def barePieces (limit : Limit) (table : Table) (depth : Nat) (ns : List Nest) : List Piece :=
  (nestPieces limit table depth ns).map Piece.unplaced

theorem nestPieces_eq_map (limit : Limit) (table : Table) (depth : Nat) (ns : List Nest) :
    nestPieces limit table depth ns = ns.map (nestPiece limit table depth) := by
  induction ns with
  | nil => rfl
  | cons n ns ih => rw [nestPieces, ih, List.map_cons]

theorem barePieces_append (limit : Limit) (table : Table) (depth : Nat) (xs ys : List Nest) :
    barePieces limit table depth (xs ++ ys) = barePieces limit table depth xs ++ barePieces limit table depth ys := by
  simp only [barePieces, nestPieces_eq_map, List.map_append]

theorem cutArguments_join : ∀ (a : List Expression) (as : List (List Expression)),
    (∀ x ∈ a :: as, ∀ e ∈ x, e.isSeparator = false) → cutArguments (a ++ as.flatMap (fun x => comma :: x)) = a :: as
  | [], [], _ => rfl
  | [], a :: as, h => by
    have ih := cutArguments_join a as (fun x hx => h x (List.mem_cons_of_mem [] hx))
    rw [List.nil_append, List.flatMap_cons, List.cons_append, cutArguments, ih]
    rfl
  | e :: a, as, h => by
    have he : e.isSeparator = false := h (e :: a) List.mem_cons_self e List.mem_cons_self
    have ih := cutArguments_join a as (fun x hx => by
      rcases List.mem_cons.1 hx with rfl | hx
      · exact fun y hy => h (e :: x) List.mem_cons_self y (List.mem_cons_of_mem e hy)
      · exact h x (List.mem_cons_of_mem _ hx))
    rw [List.cons_append, cutArguments, he, if_neg (by simp), ih]

theorem unplacedArguments_eq_map (as : List (List Expression)) : unplacedArguments as = as.map unplacedList := by
  induction as with
  | nil => rfl
  | cons a as ih => rw [unplacedArguments, ih, List.map_cons]

theorem argumentsOf_join {a : List Expression} {as : List (List Expression)} (hne : a :: as ≠ [[]])
    (h : ∀ x ∈ a :: as, ∀ e ∈ x, e.isSeparator = false) :
    argumentsOf (a ++ as.flatMap (fun x => comma :: x)) = a :: as := by
  have hsome : (a ++ as.flatMap (fun x => comma :: x)).isEmpty = false := by
    cases a with
    | cons e es => rfl
    | nil =>
      cases as with
      | cons b bs => rfl
      | nil => exact absurd rfl hne
  rw [argumentsOf, hsome, if_neg (by simp), cutArguments_join a as h]

theorem foldl_nestsOf {limit : Limit} {table : Table} {depth : Nat} : ∀ {es : List Expression},
    (∀ e ∈ es, ∀ before, (barePieces limit table depth (nests e)).foldl settle before = before ++ [e.unplaced]) →
      ∀ before, (barePieces limit table depth (nestsOf es)).foldl settle before = before ++ unplacedList es
  | [], _, before => by simp [nestsOf, barePieces, nestPieces]
  | e :: es, h, before => by
    rw [nestsOf, barePieces_append, List.foldl_append, h e List.mem_cons_self,
      foldl_nestsOf (fun x hx => h x (List.mem_cons_of_mem e hx)), unplacedList, List.append_assoc,
      List.singleton_append]

theorem foldl_laterNests {limit : Limit} {table : Table} {depth : Nat} : ∀ {as : List (List Expression)},
    (∀ a ∈ as, ∀ e ∈ a, ∀ before,
      (barePieces limit table depth (nests e)).foldl settle before = before ++ [e.unplaced]) →
      ∀ before, (barePieces limit table depth (laterNests as)).foldl settle before =
        before ++ (unplacedArguments as).flatMap (fun a => comma :: a)
  | [], _, before => by simp [laterNests, barePieces, nestPieces, unplacedArguments]
  | a :: as, h, before => by
    have hcomma : barePieces limit table depth [commaNest] = [.expression comma] := rfl
    rw [laterNests, ← List.singleton_append, barePieces_append, hcomma, List.foldl_append, barePieces_append,
      List.foldl_append, foldl_nestsOf (h a List.mem_cons_self),
      foldl_laterNests (fun x hx => h x (List.mem_cons_of_mem a hx))]
    simp [settle, unplacedArguments]

/-- **A restorable expression is built from the nests that a listing writes for it.** -/
theorem Restorable.builds {limit : Limit} {table : Table} {inOpen : Bool} {depth : Nat} {e : Expression}
    (h : Restorable limit table inOpen depth e) : ∀ before,
      (barePieces limit table depth (nests e)).foldl settle before = before ++ [e.unplaced] := by
  induction h with
  | @atom depth c a ha _ =>
    intro before
    have hp : nestPieces limit table depth (a.phrases.map .leaf) = a.phrases.map (phrasePiece table) := by
      rw [nestPieces_eq_map, List.map_map]
      rfl
    rw [nests, barePieces, hp]
    exact ha.builds before
  | @group depth c b arguments hdeep hne hsep _ ih =>
    intro before
    have hbody : argumentsOf ((barePieces limit table (depth + 1) (argumentNests arguments)).foldl settle []) =
        unplacedArguments arguments := by
      cases arguments with
      | nil => rfl
      | cons a as =>
        have hsep' : ∀ x ∈ unplacedList a :: unplacedArguments as, ∀ e ∈ x, e.isSeparator = false := by
          rw [unplacedArguments_eq_map, ← List.map_cons]
          intro x hx e he
          obtain ⟨y, hy, rfl⟩ := List.mem_map.1 hx
          rw [unplacedList_eq_map] at he
          obtain ⟨z, hz, rfl⟩ := List.mem_map.1 he
          rw [isSeparator_unplaced]
          exact hsep y hy z hz
        have hne' : unplacedList a :: unplacedArguments as ≠ [[]] := by
          intro he
          apply hne
          cases a with
          | cons x xs => simp [unplacedList] at he
          | nil => cases as <;> simp [unplacedArguments] at he ⊢
        rw [argumentNests, barePieces_append, List.foldl_append, foldl_nestsOf (ih a List.mem_cons_self),
          foldl_laterNests (fun x hx => ih x (List.mem_cons_of_mem a hx)), List.nil_append,
          argumentsOf_join hne' hsep']
        rfl
    have hpiece : barePieces limit table depth (nests (.group c b arguments true)) =
        [.expression (.group Column.none b (unplacedArguments arguments) true)] := by
      rw [nests, barePieces, nestPieces, nestPieces, nestPiece, hdeep, if_neg (by simp), List.map_cons, List.map_nil,
        Piece.unplaced, unplaced, ← argumentsOf_unplacedList, foldl_settle_unplaced, unplacedList_nil]
      rw [barePieces] at hbody
      rw [hbody]
      rfl
    rw [hpiece]
    rfl

/-- **A listing's nests are built into the expressions that were listed.** -/
theorem ofNests_nestsOf {limit : Limit} {table : Table} {inOpen : Bool} {es : List Expression}
    (h : ∀ e ∈ es, Restorable limit table inOpen 0 e) :
    unplacedList (ofNests limit table (nestsOf es)) = unplacedList es := by
  rw [ofNests, foldl_settle_unplaced]
  exact foldl_nestsOf (fun e he => (h e he).builds) []

/-! ## Nothing is wrong with what is written -/

theorem mem_nestsOf {n : Nest} {es : List Expression} : n ∈ nestsOf es ↔ ∃ e ∈ es, n ∈ nests e := by
  rw [nestsOf_eq_flatMap, List.mem_flatMap]

theorem mem_argumentNests {n : Nest} : ∀ {as : List (List Expression)}, n ∈ argumentNests as →
    n = commaNest ∨ ∃ a ∈ as, ∃ e ∈ a, n ∈ nests e
  | [], h => absurd h List.not_mem_nil
  | a :: as, h => by
    rw [argumentNests, laterNests_eq_flatMap, List.mem_append, List.mem_flatMap, mem_nestsOf] at h
    rcases h with ⟨e, he, hn⟩ | ⟨x, hx, hn⟩
    · exact .inr ⟨a, List.mem_cons_self, e, he, hn⟩
    · rcases List.mem_cons.1 hn with rfl | hn
      · exact .inl rfl
      · obtain ⟨e, he, hn⟩ := mem_nestsOf.1 hn
        exact .inr ⟨x, List.mem_cons_of_mem a hx, e, he, hn⟩

theorem Restorable.whole {limit : Limit} {table : Table} {inOpen : Bool} {depth : Nat} {e : Expression}
    (h : Restorable limit table inOpen depth e) : ∀ n ∈ nests e, Nest.Whole limit inOpen depth n := by
  induction h with
  | atom ha _ =>
    intro n hn
    obtain ⟨p, hp, rfl⟩ := List.mem_map.1 hn
    exact .leaf (ha.formed p hp).1 (ha.formed p hp).2
  | group hdeep _ _ _ ih =>
    intro n hn
    rw [nests, List.mem_singleton] at hn
    rw [hn]
    refine .group rfl rfl hdeep (fun m hm => ?_)
    rcases mem_argumentNests hm with rfl | ⟨a, ha, e, he, hm⟩
    · exact .leaf trivial rfl
    · exact ih a ha e he m hm

/-- **Nothing is wrong with the nests that a listing writes.** -/
theorem whole_nestsOf {limit : Limit} {table : Table} {inOpen : Bool} {depth : Nat} {es : List Expression}
    (h : ∀ e ∈ es, Restorable limit table inOpen depth e) : ∀ n ∈ nestsOf es, Nest.Whole limit inOpen depth n := by
  intro n hn
  obtain ⟨e, he, hn⟩ := mem_nestsOf.1 hn
  exact (h e he).whole n hn

theorem Restorable.sound {limit : Limit} {table : Table} {inOpen : Bool} {depth : Nat} {e : Expression}
    (h : Restorable limit table inOpen depth e) : ∀ t ∈ Nest.tokensOf (nests e), t.Sound := by
  induction h with
  | atom ha _ =>
    intro t ht
    rw [nests, Nest.tokensOf_eq_flatMap, List.flatMap_map] at ht
    obtain ⟨p, hp, ht⟩ := List.mem_flatMap.1 ht
    exact ha.sound p hp t ht
  | @group depth c b arguments _ _ _ _ ih =>
    have hdelimiter : ∀ t ∈ [b.openingToken, b.closingToken, ⟨.separator, [','], Column.none⟩], t.Sound := by
      have hread : ∀ t ∈ [b.openingToken, b.closingToken, ⟨.separator, [','], Column.none⟩],
          t.isReadable = true ∧ t.kind ≠ .error ∧ t.kind ≠ .string := by
        cases b <;> decide +kernel
      exact fun t ht => ⟨(hread t ht).1, (hread t ht).2.1, fun hk => absurd hk (hread t ht).2.2⟩
    intro t ht
    simp only [nests, Nest.tokensOf, Nest.tokens, List.append_nil, Option.toList_some, List.mem_cons, List.mem_append,
      List.not_mem_nil, or_false] at ht
    rcases ht with rfl | ht | rfl
    · exact hdelimiter _ (by simp)
    · rw [Nest.tokensOf_eq_flatMap] at ht
      obtain ⟨n, hn, ht⟩ := List.mem_flatMap.1 ht
      rcases mem_argumentNests hn with rfl | ⟨a, ha, e, he, hn⟩
      · rw [show t = ⟨.separator, [','], Column.none⟩ by simpa [commaNest, Nest.tokens, Phrase.tokens] using ht]
        exact hdelimiter _ (by simp)
      · refine ih a ha e he t ?_
        rw [Nest.tokensOf_eq_flatMap]
        exact List.mem_flatMap.2 ⟨n, hn, ht⟩
    · exact hdelimiter _ (by simp)

theorem sound_nestsOf {limit : Limit} {table : Table} {inOpen : Bool} {depth : Nat} {es : List Expression}
    (h : ∀ e ∈ es, Restorable limit table inOpen depth e) : ∀ t ∈ Nest.tokensOf (nestsOf es), t.Sound := by
  intro t ht
  rw [Nest.tokensOf_eq_flatMap, nestsOf_eq_flatMap, List.flatMap_assoc] at ht
  obtain ⟨e, he, ht⟩ := List.mem_flatMap.1 ht
  rw [← Nest.tokensOf_eq_flatMap] at ht
  exact (h e he).sound t ht

/-! ## The name of a file -/

/-- What a listing sees of an expression: its text, its nests, and how it stands to its neighbours. -/
structure LooksLike (x y : Expression) : Prop where
  text    : x.text = y.text
  nests   : x.nests = y.nests
  applies : x.applies = y.applies
  spaced  : ∀ p, spaced p x = spaced p y

theorem sequenceText_congr {x y : Expression} (h : x.applies = y.applies) (es : List Expression) :
    sequenceText (some x) es = sequenceText (some y) es := by
  have hs : ∀ e, spaced x e = spaced y e := by
    intro e
    unfold spaced
    rw [h]
  cases es with
  | nil => rfl
  | cons e es => rw [sequenceText, sequenceText, gap, gap, hs]

mutual

theorem looksLike_nameFile? : ∀ {e named : Expression}, nameFile? e = some named → LooksLike named e
  | .atom c a, named, h => by
    cases a with
    | literal value spelling =>
      cases value with
      | string t =>
        cases h
        exact ⟨rfl, rfl, rfl, fun _ => rfl⟩
      | integer | float => cases h
    | _ => cases h
  | .group c b arguments closed, named, h => by
    obtain ⟨as, has, rfl⟩ := Option.map_eq_some_iff.1 h
    obtain ⟨⟨h1, -⟩, ⟨h2, -⟩⟩ := looksLike_nameFileInArguments? has
    exact ⟨by rw [text, text, h1], by rw [nests, nests, h2], rfl, fun _ => rfl⟩

theorem looksLike_nameFileIn? : ∀ {es named : List Expression}, nameFileIn? es = some named →
    (∀ previous, sequenceText previous named = sequenceText previous es) ∧ nestsOf named = nestsOf es
  | e :: es, named, h => by
    rw [nameFileIn?] at h
    cases he : nameFile? e with
    | some x =>
      rw [he] at h
      cases h
      have hx := looksLike_nameFile? he
      refine ⟨fun previous => ?_, by rw [nestsOf, nestsOf, hx.nests]⟩
      have hgap : gap previous x = gap previous e := by
        cases previous with
        | none => rfl
        | some p => rw [gap, gap, hx.spaced]
      rw [sequenceText, sequenceText, hgap, hx.text, sequenceText_congr hx.applies]
    | none =>
      rw [he] at h
      obtain ⟨rest, hr, rfl⟩ := Option.map_eq_some_iff.1 h
      obtain ⟨h1, h2⟩ := looksLike_nameFileIn? hr
      exact ⟨fun previous => by rw [sequenceText, sequenceText, h1], by rw [nestsOf, nestsOf, h2]⟩

theorem looksLike_nameFileInArguments? : ∀ {as named : List (List Expression)}, nameFileInArguments? as = some named →
    (argumentsText named = argumentsText as ∧ laterArgumentsText named = laterArgumentsText as) ∧
      (argumentNests named = argumentNests as ∧ laterNests named = laterNests as)
  | a :: as, named, h => by
    rw [nameFileInArguments?] at h
    cases ha : nameFileIn? a with
    | some x =>
      rw [ha] at h
      cases h
      obtain ⟨h1, h2⟩ := looksLike_nameFileIn? ha
      refine ⟨⟨?_, ?_⟩, ⟨?_, ?_⟩⟩
      · rw [argumentsText, argumentsText, h1]
      · rw [laterArgumentsText, laterArgumentsText, h1]
      · rw [argumentNests, argumentNests, h2]
      · rw [laterNests, laterNests, h2]
    | none =>
      rw [ha] at h
      obtain ⟨rest, hr, rfl⟩ := Option.map_eq_some_iff.1 h
      obtain ⟨⟨-, h1⟩, ⟨-, h2⟩⟩ := looksLike_nameFileInArguments? hr
      refine ⟨⟨?_, ?_⟩, ⟨?_, ?_⟩⟩
      · rw [argumentsText, argumentsText, h1]
      · rw [laterArgumentsText, laterArgumentsText, h1]
      · rw [argumentNests, argumentNests, h2]
      · rw [laterNests, laterNests, h2]

end

theorem looksLike_nameFile (es : List Expression) :
    (∀ previous, sequenceText previous (nameFile es) = sequenceText previous es) ∧ nestsOf (nameFile es) = nestsOf es := by
  rw [nameFile]
  cases h : nameFileIn? es with
  | none => exact ⟨fun _ => rfl, rfl⟩
  | some named => exact looksLike_nameFileIn? h

end Expression
end BlockBasic
