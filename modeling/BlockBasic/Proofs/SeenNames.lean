import BlockBasic.Proofs.Balanced
import BlockBasic.Proofs.Signs
/-!
# SeenNames — what there is to see of closed nests

What a run declares is read off its tokens, and the tree is built of the same tokens in another way: one pass counts
brackets, the other pairs them by type and does not look into groups that are too deep.  Both are compared on closed
nests, one nest after the other.  Outside `OPEN` statements each of them is an expression of its own (`ofNest`), and its
tokens show as much as the expression does: a name, a separator, the operator of an assignment, or nothing
(`ofNest_cases`).  So the items, the parameters and the target of an assignment are the same on both sides.
-/
namespace BlockBasic

def Token.IsClassed (t : Token) : Prop := ∀ o, t.kind.operator? = some o → t.kind = Kind.ofOperator o

def Operator.isAssigning : Operator → Bool
  | assign | plusAssign | minusAssign | multiplyAssign | divideAssign => true
  | _                                                                 => false

theorem Operator.isAssigning_eq_true {o : Operator} : o.isAssigning = true ↔ Kind.ofOperator o = .assignment o := by
  cases o <;> simp [isAssigning, Kind.ofOperator]

namespace Scan

theorem startsAssigning_cons {t : Token} {ts : List Token} :
    startsAssigning (t :: ts) = true ↔ ∃ o, t.kind = .assignment o := by
  cases hk : t.kind <;> simp [startsAssigning, hk]

def afterSize : List Token → List Token
  | []      => []
  | b :: bs => if b.kind = .opener .square then afterGroup bs else b :: bs

theorem target?_cons (t : Token) (ts : List Token) :
    target? (t :: ts) = if t.kind = .name then if startsAssigning (afterSize ts) then some t else none else none := by
  cases ts with
  | nil => rfl
  | cons b bs =>
    by_cases hb : b.kind = .opener .square <;> simp [target?, afterSize, hb]

end Scan

namespace Expression

/-! ## Names in expressions -/

def name? : Expression → Option Token
  | .atom c (.reference name _) => some ⟨.name, name, c⟩
  | _                           => none

def assigns : Expression → Bool
  | .atom _ (.operator o) => o.isAssigning
  | _                     => false

def firstName? (es : List Expression) : Option Token := es.findSome? name?

theorem firstName?_cons (e : Expression) (es : List Expression) :
    firstName? (e :: es) = e.name?.or (firstName? es) := by
  cases h : e.name? <;> simp [firstName?, h]

/-- **The first name of each stretch between separators.** -/
def itemNames (es : List Expression) : List Token := (cutArguments es).filterMap firstName?

theorem filterMap_argumentsOf (es : List Expression) : (argumentsOf es).filterMap firstName? = itemNames es := by
  cases es <;> rfl

def afterSize : List Expression → List Expression
  | .group _ .square _ _ :: es => es
  | es                         => es

/-- **The name that comes first, if it is assigned a value**; it may have a size. -/
def target? (es : List Expression) : Option Token :=
  if (afterSize es.tail).head?.any assigns then es.head?.bind name? else none

def parameters : List Expression → List Token
  | .group _ .round arguments _ :: _ => arguments.filterMap firstName?
  | _                                => []

/-- **The routine that is declared by a header with these expressions**, if the first of them is a name. -/
def routine? (index number : Nat) (kind : RoutineKind) (es : List Expression) : Option Declaration :=
  (es.head?.bind name?).map fun name =>
    ⟨name.text, .routine kind, index, number, (parameters es.tail).map Token.text, none⟩

/-! ### Names of tokens -/

/-- **What can be seen of a token's expression**: it is a name, a separator or an operator as the token is one, and else
none of them. -/
theorem tokenAtom_cases (table : Table) (t : Token) :
    (t.kind = .name ∧ ∃ key, tokenAtom table t = .reference t.text key) ∨
    (t.kind = .separator ∧ ∃ c, tokenAtom table t = .separator c) ∨
    (∃ o, t.kind.operator? = some o ∧ tokenAtom table t = .operator o) ∨
    (t.kind ≠ .name ∧ t.kind ≠ .separator ∧ t.kind.operator? = none ∧ ∀ c, name? (.atom c (tokenAtom table t)) = none ∧
      isSeparator (.atom c (tokenAtom table t)) = false ∧ assigns (.atom c (tokenAtom table t)) = false) := by
  unfold tokenAtom
  cases hk : t.kind with
  | name => exact .inl ⟨rfl, _, rfl⟩
  | separator => exact .inr (.inl ⟨rfl, _, rfl⟩)
  | arithmetic | assignment | comparison | logical | bitwise | increment | decrement =>
    exact .inr (.inr (.inl ⟨_, rfl, rfl⟩))
  | integer =>
    refine .inr (.inr (.inr ⟨nofun, nofun, rfl, fun c => ?_⟩))
    cases Literal.ofDigits? t.text <;> exact ⟨rfl, rfl, rfl⟩
  | float =>
    refine .inr (.inr (.inr ⟨nofun, nofun, rfl, fun c => ?_⟩))
    cases Double.ofDecimal? t.text <;> exact ⟨rfl, rfl, rfl⟩
  | _ => exact .inr (.inr (.inr ⟨nofun, nofun, rfl, fun c => ⟨rfl, rfl, rfl⟩⟩))

theorem name?_tokenAtom (table : Table) (t : Token) :
    name? (.atom t.column (tokenAtom table t)) = if t.kind = .name then some t else none := by
  rcases tokenAtom_cases table t with ⟨hk, key, h⟩ | ⟨hk, c, h⟩ | ⟨o, ho, h⟩ | ⟨hk, -, -, h⟩
  · obtain ⟨kind, text, column⟩ := t
    rw [h, if_pos hk, show kind = .name from hk]
    rfl
  · rw [h, hk]
    rfl
  · rw [h, if_neg (by rintro hk; rw [hk] at ho; cases ho)]
    rfl
  · rw [(h t.column).1, if_neg hk]

theorem isSeparator_tokenAtom (table : Table) (t : Token) :
    isSeparator (.atom t.column (tokenAtom table t)) = (t.kind == .separator) := by
  rcases tokenAtom_cases table t with ⟨hk, key, h⟩ | ⟨hk, c, h⟩ | ⟨o, ho, h⟩ | ⟨-, hk, -, h⟩
  · rw [h, hk]
    rfl
  · rw [h, hk]
    rfl
  · rw [h]
    exact (beq_eq_false_iff_ne.2 (by rintro hk; rw [hk] at ho; cases ho)).symm
  · rw [(h t.column).2.1, beq_eq_false_iff_ne.2 hk]

theorem assigns_tokenAtom (table : Table) {t : Token} (ht : t.IsClassed) :
    assigns (.atom t.column (tokenAtom table t)) = true ↔ ∃ o, t.kind = .assignment o := by
  have hsome : ∀ o, t.kind = .assignment o → t.kind.operator? = some o := fun o hk => by rw [hk]; rfl
  rcases tokenAtom_cases table t with ⟨hk, key, h⟩ | ⟨hk, c, h⟩ | ⟨o, ho, h⟩ | ⟨-, -, hk, h⟩
  · rw [h, hk]
    exact iff_of_false nofun nofun
  · rw [h, hk]
    exact iff_of_false nofun nofun
  · rw [h]
    refine Operator.isAssigning_eq_true.trans ⟨fun he => ⟨o, (ht o ho).trans he⟩, fun ⟨o', he⟩ => ?_⟩
    obtain rfl : o = o' := Option.some.inj (ho.symm.trans (hsome o' he))
    exact (ht o ho).symm.trans he
  · rw [(h t.column).2.2]
    refine iff_of_false nofun (fun ⟨o, he⟩ => ?_)
    rw [hsome o he] at hk
    cases hk

/-! ### Expressions of nests -/

section

variable (limit : Limit) (table : Table) (depth : Nat)

def ofNest (n : Nest) : Expression :=
  match nestPiece limit table depth n with
  | .expression e    => e
  | .access word _ _ => .atom word.column (.keyword (.word .access))

theorem nestPiece_of_closed {n : Nest} (h : n.Closed false) :
    nestPiece limit table depth n = .expression (ofNest limit table depth n) := by
  cases h with
  | @leaf p hp hno =>
    cases p with
    | token | handle => rfl
    | mode => exact absurd hp.1 Bool.false_ne_true
    | access t u more a => cases more <;> exact absurd hp.1 Bool.false_ne_true
  | group =>
    unfold ofNest nestPiece
    split <;> rfl

theorem foldl_nestPieces_of_closed {ns : List Nest} (h : ∀ n ∈ ns, n.Closed false) :
    (nestPieces limit table depth ns).foldl settle [] = ns.map (ofNest limit table depth) := by
  have hpieces : nestPieces limit table depth ns = (ns.map (ofNest limit table depth)).map .expression := by
    rw [nestPieces_eq_map, List.map_map]
    exact List.map_congr_left (fun n hn => nestPiece_of_closed limit table depth (h n hn))
  rw [hpieces, foldl_settle_expressions, List.nil_append]

theorem ofNest_group (hd : limit.exceeded depth = false) (b : Bracket) (o : Token) {body : List Nest} (c : Option Token)
    (h : ∀ n ∈ body, n.Closed false) : ofNest limit table depth (.group b o body c) =
      .group (Nest.groupColumn o body c) b (argumentsOf (body.map (ofNest limit table (depth + 1)))) c.isSome := by
  rw [ofNest, nestPiece, if_neg (by simp [hd]), foldl_nestPieces_of_closed limit table (depth + 1) h]

/-- **What can be seen of a closed nest**: it is one token, and is seen as that token is; or it begins with a `#` or with a
bracket, and nothing is seen of it. -/
theorem ofNest_cases {n : Nest} (h : n.Closed false) :
    (∃ t, n = .leaf (.token t) ∧ t.kind.isBracket = false ∧
      ofNest limit table depth n = .atom t.column (tokenAtom table t)) ∨
    ((∃ t u k, n = .leaf (.handle t u k) ∧ t.kind = .hash ∧ u.kind = .integer) ∨
      (∃ b o body c, n = .group b o body (some c) ∧ o.kind = .opener b ∧ c.kind = .closer b ∧
        ∀ m ∈ body, m.Closed false)) ∧
      (ofNest limit table depth n).name? = none ∧ (ofNest limit table depth n).isSeparator = false ∧
      (ofNest limit table depth n).assigns = false := by
  cases h with
  | @leaf p hp hno =>
    cases p with
    | token t => exact .inl ⟨t, rfl, hno, rfl⟩
    | handle t u k => exact .inr ⟨.inl ⟨t, u, k, rfl, hp.1, (Phrase.handle?_eq_some hp.2).1⟩, rfl, rfl, rfl⟩
    | mode => exact absurd hp.1 Bool.false_ne_true
    | access t u more a => cases more <;> exact absurd hp.1 Bool.false_ne_true
  | @group b o c body ho hc hbody =>
    refine .inr ⟨.inr ⟨b, o, body, c, rfl, ho, hc, hbody⟩, ?_⟩
    cases hd : limit.exceeded depth <;> simp [ofNest, nestPiece, hd, name?, isSeparator, assigns]

end

/-! ## The same names on both sides -/

section

variable (limit : Limit) (table : Table) (depth : Nat) {ns : List Nest} (h : ∀ n ∈ ns, n.Closed false)

/-! ### Items -/

/-- The first names of stretches, that of the first stretch only if it is wanted. -/
def itemNamesFrom (wanted : Bool) (es : List Expression) : List Token :=
  (if wanted then cutArguments es else (cutArguments es).tail).filterMap firstName?

theorem itemNamesFrom_separator (wanted : Bool) {e : Expression} (he : e.isSeparator = true) (es : List Expression) :
    itemNamesFrom wanted (e :: es) = itemNamesFrom true es := by
  unfold itemNamesFrom
  rw [cutArguments, if_pos he]
  cases wanted <;> rfl

theorem itemNamesFrom_other (wanted : Bool) {e : Expression} (he : e.isSeparator = false) (es : List Expression) :
    itemNamesFrom wanted (e :: es) =
      if wanted then
        match e.name? with
        | some t => t :: itemNamesFrom false es
        | none   => itemNamesFrom true es
      else itemNamesFrom false es := by
  unfold itemNamesFrom
  cases hcut : cutArguments es with
  | nil => exact absurd hcut (cutArguments_ne_nil es)
  | cons a as =>
    have hcons : cutArguments (e :: es) = (e :: a) :: as := by simp [cutArguments, he, hcut]
    rw [hcons]
    cases wanted with
    | false => rfl
    | true =>
      simp only [if_true, List.filterMap_cons, firstName?_cons]
      cases e.name? <;> rfl

include h in
/-- **Outside groups both passes see the same items.** -/
theorem itemNames_tokensOf (wanted : Bool) : Scan.itemNames 0 wanted (Nest.tokensOf ns) =
    itemNamesFrom wanted (ns.map (ofNest limit table depth)) := by
  induction ns generalizing wanted with
  | nil => cases wanted <;> rfl
  | cons n ns ih =>
    have ih := fun w => ih (fun m hm => h m (List.mem_cons_of_mem n hm)) w
    rw [List.map_cons]
    rcases ofNest_cases limit table depth (h n List.mem_cons_self) with ⟨t, rfl, hno, he⟩ | ⟨hn, hname, hsep, -⟩
    · have hseparator := isSeparator_tokenAtom table t
      have hname := name?_tokenAtom table t
      rw [← he] at hseparator hname
      rw [Nest.tokensOf_token, Scan.itemNames_outside hno, ih, ih]
      by_cases hk : t.kind = .separator
      · rw [itemNamesFrom_separator wanted (hseparator.trans (beq_iff_eq.2 hk)), if_pos hk]
      · rw [itemNamesFrom_other wanted (hseparator.trans (beq_eq_false_iff_ne.2 hk)), if_neg hk, hname]
        by_cases hn : t.kind = .name <;> simp [hn]
    · have hpassed : Scan.itemNames 0 wanted (Nest.tokensOf (n :: ns)) = Scan.itemNames 0 wanted (Nest.tokensOf ns) := by
        rcases hn with ⟨t, u, k, rfl, ht, hu⟩ | ⟨b, o, body, c, rfl, ho, hc, hbody⟩
        · simp only [Nest.tokensOf_handle, Scan.itemNames, ht, hu]
        · rw [Nest.tokensOf_group, Scan.itemNames_group (Nest.balanced_tokensOf hbody) hc _ ho]
      rw [hpassed, ih, itemNamesFrom_other wanted hsep, hname]
      cases wanted <;> rfl

include h in
theorem parameters_tokensOf (hd : limit.exceeded depth = false) :
    Scan.parameters (Nest.tokensOf ns) = (parameters (ns.map (ofNest limit table depth))).map Token.text := by
  cases ns with
  | nil => rfl
  | cons n ns =>
    rcases ofNest_cases limit table depth (h n List.mem_cons_self) with ⟨t, rfl, hno, he⟩ |
      ⟨⟨t, u, k, rfl, ht, -⟩ | ⟨b, o, body, c, rfl, ho, hc, hbody⟩, -⟩
    · rw [List.map_cons, he, Nest.tokensOf_token, Scan.parameters, if_neg (Kind.ne_opener hno .round)]
      rfl
    · rw [Nest.tokensOf_handle, Scan.parameters, if_neg (by simp [ht])]
      rfl
    · rw [List.map_cons, ofNest_group limit table depth hd b o (some c) hbody, Nest.tokensOf_group, Scan.parameters, ho,
        Scan.groupInside_closed (Nest.balanced_tokensOf hbody) hc]
      cases b with
      | square => rfl
      | round =>
        rw [if_pos rfl, itemNames_tokensOf limit table (depth + 1) hbody, parameters, filterMap_argumentsOf]
        rfl

/-! ### Assignments -/

include h in
theorem startsAssigning_tokensOf (ht : ∀ t ∈ Nest.tokensOf ns, t.IsClassed) :
    Scan.startsAssigning (Nest.tokensOf ns) = (ns.map (ofNest limit table depth)).head?.any assigns := by
  cases ns with
  | nil => rfl
  | cons n ns =>
    rw [List.map_cons, List.head?_cons, Option.any_some]
    rcases ofNest_cases limit table depth (h n List.mem_cons_self) with ⟨t, rfl, -, he⟩ | ⟨hn, -, -, hassigns⟩
    · rw [he, Bool.eq_iff_iff, assigns_tokenAtom table (ht t List.mem_cons_self)]
      exact Scan.startsAssigning_cons
    · rw [hassigns]
      rcases hn with ⟨t, u, k, rfl, hk, -⟩ | ⟨b, o, body, c, rfl, hk, -⟩
      · simp [Nest.tokensOf_handle, Scan.startsAssigning, hk]
      · simp [Nest.tokensOf_group, Scan.startsAssigning, hk]

include h in
theorem afterSize_tokensOf (hd : limit.exceeded depth = false) : ∃ ms, ms <:+ ns ∧
    Scan.afterSize (Nest.tokensOf ns) = Nest.tokensOf ms ∧
    afterSize (ns.map (ofNest limit table depth)) = ms.map (ofNest limit table depth) := by
  cases ns with
  | nil => exact ⟨[], List.suffix_refl _, rfl, rfl⟩
  | cons n ns =>
    rcases ofNest_cases limit table depth (h n List.mem_cons_self) with ⟨t, rfl, hno, he⟩ |
      ⟨⟨t, u, k, rfl, ht, -⟩ | ⟨b, o, body, c, rfl, ho, hc, hbody⟩, -⟩
    · refine ⟨_, List.suffix_refl _, ?_, by rw [List.map_cons, he]; rfl⟩
      rw [Nest.tokensOf_token, Scan.afterSize, if_neg (Kind.ne_opener hno .square)]
    · refine ⟨_, List.suffix_refl _, ?_, rfl⟩
      simp [Nest.tokensOf_handle, Scan.afterSize, ht]
    · rw [List.map_cons, ofNest_group limit table depth hd b o (some c) hbody]
      cases b with
      | round =>
        refine ⟨_, List.suffix_refl _, ?_, ?_⟩
        · simp [Nest.tokensOf_group, Scan.afterSize, ho]
        · rw [List.map_cons, ofNest_group limit table depth hd .round o (some c) hbody]
          rfl
      | square =>
        refine ⟨ns, List.suffix_cons _ ns, ?_, rfl⟩
        rw [Nest.tokensOf_group, Scan.afterSize, if_pos ho, Scan.afterGroup_closed (Nest.balanced_tokensOf hbody) hc]

include h in
theorem head_tokensOf :
    (∃ t ms, ns = .leaf (.token t) :: ms ∧ t.kind = .name ∧ (ofNest limit table depth (.leaf (.token t))).name? = some t) ∨
    (∀ t ∈ (Nest.tokensOf ns).head?, t.kind ≠ .name) ∧ (ns.map (ofNest limit table depth)).head?.bind name? = none := by
  cases ns with
  | nil => exact .inr ⟨by simp, rfl⟩
  | cons n ns =>
    rcases ofNest_cases limit table depth (h n List.mem_cons_self) with ⟨t, rfl, -, he⟩ | ⟨hn, hname, -, -⟩
    · have hname := name?_tokenAtom table t
      rw [← he] at hname
      by_cases hk : t.kind = .name
      · exact .inl ⟨t, ns, rfl, hk, by rw [hname, if_pos hk]⟩
      · refine .inr ⟨fun u hu => ?_, by rw [List.map_cons, List.head?_cons, Option.bind_some, hname, if_neg hk]⟩
        obtain rfl : t = u := by simpa [Nest.tokensOf_token] using hu
        exact hk
    · refine .inr ⟨fun u hu => ?_, hname⟩
      rcases hn with ⟨t, v, k, rfl, ht, -⟩ | ⟨b, o, body, c, rfl, ho, -⟩
      · obtain rfl : t = u := by simpa [Nest.tokensOf_handle] using hu
        simp [ht]
      · obtain rfl : o = u := by simpa [Nest.tokensOf_group] using hu
        simp [ho]

include h in
theorem target?_tokensOf (hd : limit.exceeded depth = false) (ht : ∀ t ∈ Nest.tokensOf ns, t.IsClassed) :
    Scan.target? (Nest.tokensOf ns) = target? (ns.map (ofNest limit table depth)) := by
  rcases head_tokensOf limit table depth h with ⟨t, ms, rfl, hk, hname⟩ | ⟨hk, hname⟩
  · obtain ⟨rest, hrest, hsize, hsize'⟩ := afterSize_tokensOf limit table depth
      (fun n hn => h n (List.mem_cons_of_mem _ hn)) hd
    have hclosed : ∀ n ∈ rest, n.Closed false := fun n hn => h n (List.mem_cons_of_mem _ (hrest.subset hn))
    have hop : ∀ u ∈ Nest.tokensOf rest, u.IsClassed := by
      intro u hu
      obtain ⟨pre, hpre⟩ := hrest
      refine ht u (List.mem_append_right _ ?_)
      rw [← hpre, Nest.tokensOf_append]
      exact List.mem_append_right _ hu
    rw [Nest.tokensOf_token, Scan.target?_cons, if_pos hk, hsize, startsAssigning_tokensOf limit table depth hclosed hop,
      target?, List.map_cons, List.tail_cons, hsize', List.head?_cons, Option.bind_some, hname]
  · rw [target?, hname, ite_self]
    cases hts : Nest.tokensOf ns with
    | nil => rfl
    | cons t ts =>
      rw [hts] at hk
      rw [Scan.target?_cons, if_neg (hk t rfl)]

end

end Expression
end BlockBasic
