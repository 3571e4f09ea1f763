import Mathlib.Data.List.Basic
import BlockBasic.Proofs.Nesting
/-!
# Colons — where statements end, and where a colon in a statement goes

The runs of a line are what is between its dividers, and they hold all other tokens of the line in order
(`CodeLine.runs_eq_split`, `CodeLine.flatten_runs`).  Dividers are told by counting brackets of any type, while building
pairs them by type.  The count is never greater than the number of groups that building has open
(`Nest.Pairing.Sealed.step`), so a colon that the count finds inside brackets is inside a group when it is built.
-/
namespace BlockBasic

/-! ## The runs of a line -/

namespace CodeLine

/-- Tokens that begin inside `depth` brackets, each with the depth before it. -/
def leveled (depth : Nat) (ts : List Token) : List (Token × Nat) := ts.zip (ts.scanl depthAfter depth)

theorem leveled_cons (depth : Nat) (t : Token) (ts : List Token) :
    leveled depth (t :: ts) = (t, depth) :: leveled (depthAfter depth t) ts := by
  rw [leveled, List.scanl_cons, List.zip_cons_cons, leveled]

def divides (x : Token × Nat) : Bool := isDivider x.2 x.1

theorem stretches_eq_split (depth : Nat) (ts : List Token) :
    stretches depth ts = ((leveled depth ts).splitOnP divides).map (List.map Prod.fst) := by
  induction ts generalizing depth with
  | nil => rfl
  | cons t ts ih =>
    rw [stretches, leveled_cons, List.splitOnP_cons_eq_if_modifyHead, divides]
    by_cases hd : isDivider depth t = true
    · obtain rfl : depth = 0 := by simp_all [isDivider]
      have hk : t.kind = .colon := by simp_all [isDivider]
      rw [if_pos hd, if_pos hd, List.map_cons, ih, depthAfter, hk]
      rfl
    · rw [if_neg hd, if_neg hd, ih]
      cases hs : (leveled (depthAfter depth t) ts).splitOnP divides with
      | nil       => exact absurd hs (List.splitOnP_ne_nil _ _)
      | cons r rs => rfl

theorem flatten_splitOnP {α : Type} (p : α → Bool) (xs : List α) :
    (xs.splitOnP p).flatten = xs.filter (fun x => !p x) := by
  induction xs with
  | nil => rfl
  | cons x xs ih =>
    rw [List.splitOnP_cons_eq_if_modifyHead]
    by_cases hx : p x = true
    · rw [if_pos hx, List.flatten_cons, ih, List.filter_cons_of_neg (by simp [hx])]
      rfl
    · rw [if_neg hx, List.filter_cons_of_pos (by simp [hx]), ← ih]
      cases hs : xs.splitOnP p with
      | nil       => exact absurd hs (List.splitOnP_ne_nil _ _)
      | cons r rs => rfl

/-- **The runs of a line are what is between dividers**, where anything is. -/
theorem runs_eq_split (l : CodeLine) :
    l.runs = (((leveled 0 l.tokens).splitOnP divides).map (List.map Prod.fst)).filter (fun ts => !ts.isEmpty) := by
  rw [runs, stretches_eq_split]

/-- **The runs of a line hold its tokens but the dividers, in order.** -/
theorem flatten_runs (l : CodeLine) :
    l.runs.flatten = ((leveled 0 l.tokens).filter (fun x => !divides x)).map Prod.fst := by
  rw [runs_eq_split, List.flatten_filter_not_isEmpty, ← List.map_flatten, flatten_splitOnP]

theorem undivided_others {depth : Nat} {xs ys : List Token} (h : ∀ t ∈ xs, t.kind.isBracket = false)
    (hu : undivided depth (xs ++ ys) = true) : undivided depth ys = true := by
  rw [undivided_append, Bool.and_eq_true, (foldl_depthAfter_others depth h).1] at hu
  exact hu.2

end CodeLine

/-! ## Where colons stand when brackets are paired -/

namespace Nest

def isColon : Nest → Bool
  | .leaf (.token t) => t.kind == .colon
  | _                => false

variable {inOpen : Bool} {p : Phrase}

theorem isColon_leaf (h : (leaf p).isColon = true) : ∃ t, p = .token t ∧ t.kind = .colon := by
  cases p with
  | token t => exact ⟨t, rfl, by simpa [isColon] using h⟩
  | _       => cases h

namespace Pairing

/-- Nests outside all groups, of which `frames` are open, with no colon among them. -/
def NoColon : (frames : List Frame) → (current : List Nest) → Prop
  | [], current => ∀ n ∈ current, n.isColon = false
  | f :: fs, _  => NoColon fs f.before

theorem NoColon.append {frames : List Frame} {current : List Nest} (h : NoColon frames current) {n : Nest}
    (hn : frames = [] → n.isColon = false) : NoColon frames (current ++ [n]) := by
  cases frames with
  | nil       => exact List.forall_mem_append.2 ⟨h, List.forall_mem_singleton.2 (hn rfl)⟩
  | cons f fs => exact h

theorem NoColon.putAway {f : Frame} {fs : List Frame} {current : List Nest} (h : NoColon (f :: fs) current)
    (body : List Nest) (closing : Option Token) :
    NoColon fs (f.before ++ [.group f.bracket f.opening body closing]) := by
  have hbefore : NoColon fs f.before := h
  exact hbefore.append fun _ => rfl

theorem NoColon.finish : ∀ {frames : List Frame} {current : List Nest}, NoColon frames current →
    ∀ n ∈ Pairing.finish frames current, n.isColon = false
  | [], _, h            => h
  | _ :: _, current, h => (h.putAway current none).finish

/-- **The invariant of pairing the tokens of a run**, of which `depth` brackets are open when types are not looked at: no
fewer groups are open, and outside all groups there is no colon. -/
structure Sealed (depth : Nat) (s : Pairing) : Prop where
  depth_le : depth ≤ s.frames.length
  noColon  : NoColon s.frames s.current

variable {depth : Nat} {s : Pairing}

theorem Sealed.add (h : s.Sealed depth) (hcolon : (leaf p).isColon = true → depth ≠ 0) :
    (s.add (.leaf p)).Sealed depth := by
  refine ⟨h.depth_le, h.noColon.append fun hframes => ?_⟩
  have hzero : depth = 0 := by simpa [hframes] using h.depth_le
  exact Bool.eq_false_iff.2 fun hc => hcolon hc hzero

theorem Sealed.mono (h : s.Sealed depth) {left : Nat} (hle : left ≤ depth) : s.Sealed left :=
  ⟨Nat.le_trans hle h.depth_le, h.noColon⟩

theorem Sealed.opens (h : s.Sealed depth) (limit : Limit) {b : Bracket} (hk : p.first.kind = .opener b) :
    (s.step limit p).Sealed (depth + 1) := by
  rw [step_opener hk]
  exact ⟨Nat.succ_le_succ h.depth_le, h.noColon⟩

/-- A closing bracket takes the count down also where it closes no group. -/
theorem Sealed.closes (h : s.Sealed depth) (limit : Limit) {b : Bracket} (hk : p.first.kind = .closer b) :
    (s.step limit p).Sealed (depth - 1) := by
  have hstray : (s.add (.leaf p)).Sealed (depth - 1) := by
    refine (h.add fun hc => ?_).mono (Nat.sub_le depth 1)
    obtain ⟨t, rfl, ht⟩ := isColon_leaf hc
    cases ht.symm.trans hk
  obtain ⟨frames, current⟩ := s
  cases frames with
  | nil       => rwa [step_stray hk (by simp)]
  | cons f fs =>
    by_cases hfits : fits limit b f fs = true
    · rw [step_closes hk hfits]
      have hle : depth ≤ fs.length + 1 := h.depth_le
      exact ⟨Nat.sub_le_of_le_add hle, NoColon.putAway h.noColon current (some p.first)⟩
    · rw [step_stray hk (by simpa using hfits)]
      exact hstray

theorem Sealed.step (h : s.Sealed depth) (limit : Limit) (hp : p.Formed inOpen) {ts : List Token}
    (hu : CodeLine.undivided depth (p.tokens ++ ts) = true) :
    ∃ left, (s.step limit p).Sealed left ∧ CodeLine.undivided left ts = true := by
  rcases p.first.kind.bracket_cases with ⟨b, hk⟩ | ⟨b, hk⟩ | hk
  · rw [eq_token_of_bracket hp (.inl ⟨b, hk⟩), Phrase.tokens, List.singleton_append, CodeLine.undivided,
      depthAfter_opener hk, Bool.and_eq_true] at hu
    exact ⟨depth + 1, h.opens limit hk, hu.2⟩
  · rw [eq_token_of_bracket hp (.inr ⟨b, hk⟩), Phrase.tokens, List.singleton_append, CodeLine.undivided,
      depthAfter_closer hk, Bool.and_eq_true] at hu
    exact ⟨depth - 1, h.closes limit hk, hu.2⟩
  · refine ⟨depth, ?_, CodeLine.undivided_others (hp.no_bracket hk) hu⟩
    rw [step_other hk]
    refine h.add fun hc => ?_
    obtain ⟨t, rfl, ht⟩ := isColon_leaf hc
    -- A colon outside brackets would divide the run.
    rw [Phrase.tokens, List.singleton_append, CodeLine.undivided, CodeLine.isDivider, ht, Bool.and_eq_true] at hu
    simpa using hu.1

theorem Sealed.foldl (limit : Limit) : ∀ {ps : List Phrase} {s : Pairing} {depth : Nat}, s.Sealed depth →
    (∀ p ∈ ps, p.Formed inOpen) → CodeLine.undivided depth (ps.flatMap Phrase.tokens) = true →
      ∃ left, (ps.foldl (Pairing.step limit) s).Sealed left
  | [], _, depth, h, _, _ => ⟨depth, h⟩
  | p :: ps, _, _, h, hps, hu => by
    rw [List.flatMap_cons] at hu
    obtain ⟨left, hleft, hrest⟩ := h.step limit (hps p List.mem_cons_self) hu
    exact hleft.foldl limit (fun q hq => hps q (List.mem_cons_of_mem p hq)) hrest

end Pairing

/-- **Outside the groups of a run there is no colon.** -/
theorem not_isColon_ofPhrases (limit : Limit) (inOpen : Bool) {ts : List Token} (hu : CodeLine.undivided 0 ts = true) :
    ∀ n ∈ ofPhrases limit (phrases inOpen ts), n.isColon = false := by
  have hstart : Pairing.Sealed 0 {} := ⟨Nat.le_refl 0, nofun⟩
  rw [← Phrase.flatMap_tokens_phrases inOpen ts] at hu
  obtain ⟨left, h⟩ := hstart.foldl limit (Phrase.formed_phrases inOpen ts) hu
  exact h.noColon.finish

end Nest

/-! ## The top of a statement -/

namespace Expression

/-- What an expression shows to one who looks for what is malformed: a text, or a group with what is malformed in it. -/
inductive Sight where
  | text (c : Column) (t : Text)
  | group (c : Column) (inside : List (Column × Text))

def Sight.ofText (x : Column × Text) : Sight := .text x.1 x.2

def sight : Expression → Option Sight
  | .atom c a              => (malformed? (c, a)).map Sight.ofText
  | .group c _ arguments _ => some (.group c (malformedOf arguments.flatten))

theorem eq_group_of_sight {e : Expression} {c : Column} {inside : List (Column × Text)}
    (h : e.sight = some (.group c inside)) :
    ∃ b arguments closed, e = .group c b arguments closed ∧ malformedOf arguments.flatten = inside := by
  cases e with
  | atom d a =>
    obtain ⟨x, -, hx⟩ := Option.map_eq_some_iff.1 h
    cases hx
  | group d b arguments closed =>
    cases h
    exact ⟨b, arguments, closed, rfl, rfl⟩

def Piece.sight : Piece → Option Sight
  | .expression e => e.sight
  | .access _ _ _ => none

theorem sight_settle (es : List Expression) (p : Piece) :
    (settle es p).filterMap sight = es.filterMap sight ++ p.sight.toList := by
  cases p with
  | expression e =>
    rw [settle, List.filterMap_append, Piece.sight]
    cases h : e.sight <;> simp [h]
  | access word a stop =>
    rw [settle, Piece.sight, Option.toList_none, List.append_nil]
    cases hg : grant? a stop es with
    | some granted =>
      obtain ⟨before, c, m, access, after, rfl, -, rfl⟩ := grant?_eq_some hg
      simp [List.filterMap_cons, sight, malformed?]
    | none => simp [List.filterMap_cons, sight, malformed?]

theorem sight_foldl_settle (ps : List Piece) (es : List Expression) :
    (ps.foldl settle es).filterMap sight = es.filterMap sight ++ ps.filterMap Piece.sight := by
  induction ps generalizing es with
  | nil         => exact (List.append_nil _).symm
  | cons p ps ih =>
    rw [List.foldl_cons, ih, sight_settle]
    cases h : p.sight <;> simp [h]

theorem sight_nameFile (es : List Expression) : (nameFile es).filterMap sight = es.filterMap sight := by
  have hone : ∀ {e named : Expression}, nameFile? e = some named → named.sight = e.sight := by
    intro e named h
    cases e with
    | atom c a =>
      cases a with
      | literal value spelling =>
        cases value with
        | string t =>
          cases h
          rfl
        | integer | float => cases h
      | _ => cases h
    | group c b arguments closed =>
      obtain ⟨as, has, rfl⟩ := Option.map_eq_some_iff.1 h
      have hin := steady_malformed?.nameBlind.nameFileInArguments? has
      rw [atomsOfArguments_eq_flatten, atomsOfArguments_eq_flatten] at hin
      exact congrArg (fun inside => some (Sight.group c inside)) hin
  have hall : ∀ {es named : List Expression}, nameFileIn? es = some named →
      named.filterMap sight = es.filterMap sight := by
    intro es
    induction es with
    | nil => exact fun h => nomatch h
    | cons e es ih =>
      intro named h
      unfold nameFileIn? at h
      split at h
      · rename_i x hx
        cases h
        rw [List.filterMap_cons, List.filterMap_cons, hone hx]
      · obtain ⟨rest, hr, rfl⟩ := Option.map_eq_some_iff.1 h
        rw [List.filterMap_cons, List.filterMap_cons, ih hr]
  unfold nameFile
  cases h : nameFileIn? es with
  | none       => rfl
  | some named => exact hall h

end Expression

namespace Nest

open Expression (Sight nestPiece nestPieces)

variable {limit : Limit} {table : Table}

def sight (limit : Limit) : Nest → Option Sight
  | .group _ opening body closing => some (.group (groupColumn opening body closing) (malformedOf limit 1 body))
  | n                             => (malformed limit 0 n).head?.map Sight.ofText

theorem sight_nestPiece (hlimit : limit.exceeded 0 = false) {n : Nest} (h : ∀ t ∈ n.tokens, t.Lexed) :
    (nestPiece limit table 0 n).sight = n.sight limit := by
  cases n with
  | leaf p =>
    cases p with
    | token t =>
      have ht := (h t (List.mem_singleton_self t)).malformed? table t.column
      simp only [nestPiece, Expression.phrasePiece, Expression.Piece.sight, Expression.sight, sight, malformed, ht]
      split <;> rfl
    | _ => rfl
  | group b o body c =>
    have hin := malformedOf_eq_atoms limit table 1 fun t ht =>
      h t (List.mem_cons_of_mem o (List.mem_append_left c.toList ht))
    rw [nestPiece, if_neg (by simp [hlimit]), Expression.Piece.sight, Expression.sight, Expression.malformedOf,
      ← Expression.atomsOfArguments_eq_flatten, steady_malformed?.argumentsOf, steady_malformed?.foldl_settle,
      filterMap_atoms_nestPieces limit table steady_malformed?, hin]
    rfl

end Nest

/-- **The top of a statement shows what its nests show.** -/
theorem Run.sight_expressions {r : Run} {limit : Limit} (hlimit : limit.exceeded 0 = false)
    (h : ∀ t ∈ r.tokens, t.Lexed) (table : Table) :
    (r.expressions limit table).filterMap Expression.sight = (r.nests limit).filterMap (Nest.sight limit) := by
  have hnests : (Expression.ofNests limit table (r.nests limit)).filterMap Expression.sight =
      (r.nests limit).filterMap (Nest.sight limit) := by
    rw [Expression.ofNests, Expression.sight_foldl_settle, Expression.nestPieces_eq_map, List.filterMap_map]
    refine (List.nil_append _).trans (List.filterMap_congr fun n hn => ?_)
    exact Nest.sight_nestPiece hlimit fun t ht => h t (mem_of_nests (Nest.mem_tokensOf hn ht))
  unfold expressions
  split
  · rw [Expression.sight_nameFile, hnests]
  · exact hnests

/-! ## Colons in groups -/

theorem Phrase.Formed.kinds {inOpen : Bool} {p : Phrase} (hp : p.Formed inOpen) : p = .token p.first ∨
    ∀ t ∈ p.tokens, t.kind = .hash ∨ t.kind = .integer ∨ ∃ w, t.kind = .word w := by
  cases p with
  | token t => exact .inl rfl
  | handle t u n =>
    right
    simp only [Phrase.tokens, List.forall_mem_cons]
    exact ⟨.inl hp.1, .inr (.inl (handle?_eq_some hp.2).1), nofun⟩
  | mode t u m =>
    obtain ⟨w, hw, -⟩ := Option.bind_eq_some_iff.1 hp.2.2
    right
    simp only [Phrase.tokens, List.forall_mem_cons]
    exact ⟨.inr (.inr ⟨_, hp.2.1⟩), .inr (.inr ⟨w, kind_of_word? hw⟩), nofun⟩
  | access t u more a =>
    right
    cases more with
    | none =>
      obtain ⟨-, ht, hu⟩ := hp
      simp only [Phrase.tokens, Option.toList_none, List.forall_mem_cons]
      refine ⟨.inr (.inr ⟨_, ht⟩), ?_, nofun⟩
      rcases hu with ⟨hu, -⟩ | ⟨hu, -⟩ <;> exact .inr (.inr ⟨_, kind_of_word? hu⟩)
    | some v =>
      obtain ⟨-, ht, hu, hv, -⟩ := hp
      simp only [Phrase.tokens, Option.toList_some, List.forall_mem_cons]
      exact ⟨.inr (.inr ⟨_, ht⟩), .inr (.inr ⟨_, kind_of_word? hu⟩), .inr (.inr ⟨_, kind_of_word? hv⟩), nofun⟩

namespace Nest

variable {limit : Limit} {inOpen : Bool} {depth : Nat} {tokens : List Token} {t : Token}

theorem colon_leaf {p : Phrase} (hp : p.Formed inOpen) (hk : t.kind = .colon) (ht : t ∈ p.tokens) : p = .token t := by
  rcases hp.kinds with hone | hkinds
  · rw [hone] at ht ⊢
    rw [List.mem_singleton.1 ht]
  · have := hkinds t ht
    simp [hk] at this

theorem colon_group {b : Bracket} {o : Token} {body : List Nest} {c : Option Token}
    (h : Paired limit inOpen depth (.group b o body c)) (hk : t.kind = .colon)
    (ht : t ∈ (group b o body c).tokens) : ∃ n ∈ body, t ∈ n.tokens := by
  cases h with
  | group ho hc _ =>
    rw [Nest.tokens] at ht
    rcases List.mem_cons.1 ht with rfl | ht
    · cases ho.symm.trans hk
    · rcases List.mem_append.1 ht with ht | ht
      · rw [tokensOf_eq_flatMap] at ht
        exact List.mem_flatMap.1 ht
      · obtain ⟨b', hkind, -⟩ := hc t (Option.mem_toList.1 ht)
        cases hkind.symm.trans hk

/-- **A colon is left as text**, by itself or in the text of a group that is too deep. -/
theorem Paired.colon_malformed (horder : Column.InOrder (Token.columns tokens)) (hlexed : ∀ t ∈ tokens, t.Lexed)
    (hk : t.kind = .colon) {n : Nest} (h : Paired limit inOpen depth n) : t ∈ n.tokens → n.tokens <:+: tokens →
    (t.column, [':']) ∈ malformed limit depth n ∨
      ∃ x ∈ malformed limit depth n, x.1.holds t = true ∧ x.2 = textIn tokens x.1 := by
  induction h with
  | @leaf depth p hp _ =>
    intro ht hin
    have htext : t.text = [':'] := (hlexed t (hin.subset ht)).text_of_mark (by rw [hk]; rfl)
    rw [colon_leaf hp hk ht]
    simp [malformed, hk, htext, Kind.isBare]
  | @group depth b o body c ho hc hbody ih =>
    intro ht hin
    have hgroup : Column.InOrder (Token.columns (Nest.group b o body c).tokens) := Token.inOrder_sublist horder hin.sublist
    rw [malformed]
    by_cases hd : limit.exceeded depth = true
    · rw [if_pos hd]
      exact .inr ⟨_, List.mem_singleton_self _, (spans_groupColumn o body c).holds_of_mem hgroup t ht,
        (textIn_groupColumn horder hlexed ho hin).symm⟩
    · obtain ⟨n, hn, ht⟩ := colon_group (.group ho hc hbody) hk ht
      rw [if_neg hd]
      rcases ih n hn ht ((tokens_within_group hn).trans hin) with hx | ⟨x, hx, hholds⟩
      · exact .inl (mem_malformedOf.2 ⟨n, hn, hx⟩)
      · exact .inr ⟨x, mem_malformedOf.2 ⟨n, hn, hx⟩, hholds⟩

end Nest

namespace Run

variable {r : Run}

theorem colon_mem_operands {t : Token} (ht : t ∈ r.tokens) (hk : t.kind = .colon) : t ∈ r.operands := by
  cases hkeyword : r.keyword? with
  | none   => rwa [operands_of_keyword?_eq_none hkeyword]
  | some k =>
    obtain ⟨c, k⟩ := k
    obtain ⟨u, ts, hts, hkind, hoperands⟩ := keyword?_eq_some hkeyword
    rw [hts] at ht
    rcases List.mem_cons.1 ht with rfl | ht
    · rw [hkind] at hk
      cases k <;> cases hk
    · rwa [hoperands]

theorem not_isColon_nests (hu : CodeLine.undivided 0 r.tokens = true) (limit : Limit) :
    ∀ n ∈ r.nests limit, n.isColon = false :=
  Nest.not_isColon_ofPhrases limit r.isOpen (undivided_operands hu)

theorem no_colon_at_top (hu : CodeLine.undivided 0 r.tokens = true) (hlexed : ∀ t ∈ r.tokens, t.Lexed) (table : Table)
    (c : Column) : .atom c (.malformed [':']) ∉ (r.statement table).expressions := by
  intro hmem
  have hsight : Expression.Sight.text c [':'] ∈ (r.nests nestingLimit).filterMap (Nest.sight nestingLimit) := by
    rw [← sight_expressions (by decide) hlexed table]
    exact List.mem_filterMap.2 ⟨_, hmem, rfl⟩
  obtain ⟨n, hn, hshown⟩ := List.mem_filterMap.1 hsight
  cases n with
  | group => cases hshown
  | leaf p =>
    cases p with
    | handle | mode | access => cases hshown
    | token t =>
      have ht : t.Lexed := hlexed t (mem_of_nests (Nest.mem_tokensOf hn (List.mem_singleton_self t)))
      have hcolon := not_isColon_nests hu nestingLimit _ hn
      simp only [Nest.sight, Nest.malformed] at hshown
      split at hshown
      · rename_i hbare
        have htext : t.text = [':'] := by
          simp only [List.head?_cons, Option.map_some, Expression.Sight.ofText, Option.some.injEq] at hshown
          exact (Expression.Sight.text.inj hshown).2
        have hkind := ht.kind_of_text (fun hs => by rw [hs] at hbare; cases hbare) (by decide) htext
        rw [Nest.isColon, ← Option.some.inj hkind] at hcolon
        cases hcolon
      · cases hshown

/-- **Every colon of a statement ends in one of its groups.** -/
theorem colon_in_group (hu : CodeLine.undivided 0 r.tokens = true) (hlexed : ∀ t ∈ r.tokens, t.Lexed)
    (horder : Column.InOrder (Token.columns r.tokens)) (table : Table) {t : Token} (ht : t ∈ r.tokens)
    (hk : t.kind = .colon) : ∃ c b arguments closed, .group c b arguments closed ∈ (r.statement table).expressions ∧
      ((t.column, [':']) ∈ Expression.malformedOf arguments.flatten ∨
        ∃ x ∈ Expression.malformedOf arguments.flatten, x.1.holds t = true ∧ x.2 = textIn r.tokens x.1) := by
  have hoperand := colon_mem_operands ht hk
  rw [← tokensOf_nests nestingLimit r, Nest.tokensOf_eq_flatMap] at hoperand
  obtain ⟨n, hn, htn⟩ := List.mem_flatMap.1 hoperand
  have hpaired := paired_nests nestingLimit r n hn
  have hin : n.tokens <:+: r.tokens := (Nest.tokens_within hn).trans (tokensOf_nests_within nestingLimit r)
  cases n with
  | leaf p =>
    -- A colon by itself would stand outside all groups.
    have hcolon := not_isColon_nests hu nestingLimit _ hn
    cases hpaired with
    | leaf hp _ =>
      rw [Nest.colon_leaf hp hk htn, Nest.isColon, hk] at hcolon
      cases hcolon
  | group b o body c =>
    have hsight : Expression.Sight.group (Nest.groupColumn o body c) (Nest.malformedOf nestingLimit 1 body) ∈
        (r.statement table).expressions.filterMap Expression.sight := by
      rw [show (r.statement table).expressions = r.expressions nestingLimit table from rfl,
        sight_expressions (by decide) hlexed table]
      exact List.mem_filterMap.2 ⟨_, hn, rfl⟩
    obtain ⟨e, he, hshown⟩ := List.mem_filterMap.1 hsight
    obtain ⟨b', arguments, closed, rfl, hinside⟩ := Expression.eq_group_of_sight hshown
    obtain ⟨m, hm, htm⟩ := Nest.colon_group hpaired hk htn
    have hbody : Nest.Paired nestingLimit r.isOpen 1 m := by
      cases hpaired with
      | group _ _ hbody => exact hbody m hm
    refine ⟨_, b', arguments, closed, he, ?_⟩
    rw [hinside]
    rcases hbody.colon_malformed horder hlexed hk htm ((Nest.tokens_within_group hm).trans hin) with hx | ⟨x, hx, hholds⟩
    · exact .inl (Nest.mem_malformedOf.2 ⟨m, hm, hx⟩)
    · exact .inr ⟨x, Nest.mem_malformedOf.2 ⟨m, hm, hx⟩, hholds⟩

end Run

/-! ## Lines and programs -/

theorem exists_run_of_mem_entries {table : Table} {lines : List CodeLine} {e : Nat × Statement}
    (h : e ∈ Node.entriesOf 0 (Program.ofLines table lines)) : ∃ r ∈ programRuns lines, r.statement table = e.2 := by
  have hitems : (Node.entriesOf 0 (Program.ofLines table lines)).map Prod.snd =
      (programRuns lines).map (Run.statement table) := itemsOf_ofRuns table (programRuns lines)
  have hmem : e.2 ∈ (programRuns lines).map (Run.statement table) := hitems ▸ List.mem_map_of_mem h
  exact List.mem_map.1 hmem

theorem exists_line_of_mem_programRuns {source : List SourceLine} {r : Run}
    (h : r ∈ programRuns (source.map fun l => CodeLine.ofSource l.number l.text)) :
    ∃ l ∈ source, r.number = l.number ∧ r.tokens ∈ (CodeLine.ofSource l.number l.text).runs := by
  obtain ⟨m, hm, hnumber, htokens⟩ := mem_runsFrom h
  obtain ⟨l, hl, rfl⟩ := List.mem_map.1 hm
  exact ⟨l, hl, hnumber, htokens⟩

/-- **Splitting lines into statements agrees with building them.**

- The runs of a line are what is between its colons at depth zero, where there is anything; in order they hold the tokens of
  the line, except for these colons.
- In the program of any lines no statement has a colon among the expressions at its top.  Each colon that is left in a run
  is in one of the statement's groups, as text by itself or in the text of a group that is too deep. -/
theorem splitting_agrees_with_building :
    (∀ l : CodeLine, (∀ ts ∈ l.runs, ts ≠ []) ∧
      l.runs = (((CodeLine.leveled 0 l.tokens).splitOnP CodeLine.divides).map (List.map Prod.fst)).filter
        (fun ts => !ts.isEmpty) ∧
      l.runs.flatten = ((CodeLine.leveled 0 l.tokens).filter (fun x => !CodeLine.divides x)).map Prod.fst) ∧
    ∀ (table : Table) (source : List SourceLine),
      let lines := source.map fun l => CodeLine.ofSource l.number l.text
      (∀ e ∈ Node.entriesOf 0 (Program.ofLines table lines), ∀ c, .atom c (.malformed [':']) ∉ e.2.expressions) ∧
      ∀ r ∈ programRuns lines, ∀ t ∈ r.tokens, t.kind = .colon →
        ∃ c b arguments closed, .group c b arguments closed ∈ (r.statement table).expressions ∧
          ((t.column, [':']) ∈ Expression.malformedOf arguments.flatten ∨
            ∃ x ∈ Expression.malformedOf arguments.flatten, x.1.holds t = true ∧ x.2 = textIn r.tokens x.1) := by
  refine ⟨fun l => ⟨fun ts hts => CodeLine.ne_nil_of_mem_runs hts, l.runs_eq_split, l.flatten_runs⟩,
    fun table source => ⟨fun e he c => ?_, fun r hr t ht hk => ?_⟩⟩
  · obtain ⟨r, hr, hstatement⟩ := exists_run_of_mem_entries he
    obtain ⟨l, -, -, htokens⟩ := exists_line_of_mem_programRuns hr
    rw [← hstatement]
    exact Run.no_colon_at_top (CodeLine.undivided_of_mem_runs htokens) (lexed_of_mem_runs htokens) table c
  · obtain ⟨l, -, -, htokens⟩ := exists_line_of_mem_programRuns hr
    exact Run.colon_in_group (CodeLine.undivided_of_mem_runs htokens) (lexed_of_mem_runs htokens)
      (inOrder_of_mem_runs htokens) table ht hk

/-- A bracket that closes no group takes the count down, and the colon is inside brackets all the same. -/
example : (CodeLine.ofSource 1 "PRINT ([a) : b".toList).runs.length = 1 := by decide

end BlockBasic
