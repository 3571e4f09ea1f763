import BlockBasic.Proofs.Pieces
/-!
# Weights — a listing writes no more than was there

A listing spells a phrase anew, drops what an access clause repeats, and adds nothing.  So a weight of phrases that `Falls`
when a phrase is spelled anew is no larger for what a statement is listed as than for what it was made from
(`written_ofNests`).  Two weights are of use: the number of the phrases (`falls_one`), and the ink of their tokens
(`falls_ink`).
-/
namespace BlockBasic

open Lexer

namespace Phrase

/-- **A phrase as a listing writes it.** -/
def listed : Phrase → Phrase
  | .token t        => .token t.listed
  | .handle _ _ n   => .handle ⟨.hash, ['#'], Column.none⟩ ⟨.integer, Text.ofNat n, Column.none⟩ n
  | .mode _ _ m     => m.phrase
  | .access _ _ _ a => a.phrase

/-- **A weight that a listing does not raise**: of a phrase, of an access that is left alone, and of a separator. -/
structure Falls (w : Phrase → Nat) : Prop where
  listed : ∀ {inOpen : Bool} {p : Phrase}, p.Formed inOpen → (∀ t ∈ p.tokens, t.Sound) → w p.listed ≤ w p
  alone  : ∀ a : FileAccess, w (.token (Keyword.word .access).token) ≤ w a.phrase
  comma  : ∀ {t : Token}, t.Sound → t.kind = .separator → w (.token ⟨.separator, [','], Column.none⟩) ≤ w (.token t)

def total (w : Phrase → Nat) (ps : List Phrase) : Nat := (ps.map w).sum

theorem total_append (w : Phrase → Nat) (ps qs : List Phrase) : total w (ps ++ qs) = total w ps + total w qs := by
  rw [total, List.map_append, List.sum_append]
  rfl

theorem total_cons (w : Phrase → Nat) (p : Phrase) (ps : List Phrase) : total w (p :: ps) = w p + total w ps := rfl

@[simp] theorem total_singleton (w : Phrase → Nat) (p : Phrase) : total w [p] = w p := Nat.add_zero _

end Phrase

namespace Token.Sound

variable {t : Token} {b : Bracket}

theorem listed_opening (h : t.Sound) (hk : t.kind = .opener b) : t.listed = b.openingToken := by
  obtain ⟨c, hx, -, hd⟩ := h.delimiter (by rw [hk]; rfl)
  have hc : c = b.opening := by
    rw [hk] at hd
    unfold Kind.ofDelimiter? at hd
    split at hd <;> cases hd <;> rfl
  rw [Token.listed_of_other (by rw [hk]; rfl) (by rw [hk]; rfl), Token.unplaced, hk, hx, hc]
  rfl

theorem listed_closing (h : t.Sound) (hk : t.kind = .closer b) : t.listed = b.closingToken := by
  obtain ⟨c, hx, -, hd⟩ := h.delimiter (by rw [hk]; rfl)
  have hc : c = b.closing := by
    rw [hk] at hd
    unfold Kind.ofDelimiter? at hd
    split at hd <;> cases hd <;> rfl
  rw [Token.listed_of_other (by rw [hk]; rfl) (by rw [hk]; rfl), Token.unplaced, hk, hx, hc]
  rfl

end Token.Sound

/-! ## What is written weighs no more -/

namespace Expression

open Nest (flat flatOf)
open Phrase (Falls total)

variable {w : Phrase → Nat}

def written (w : Phrase → Nat) (es : List Expression) : Nat := total w (flatOf (nestsOf es))

theorem written_append (es fs : List Expression) : written w (es ++ fs) = written w es + written w fs := by
  rw [written, nestsOf_append, Nest.flatOf_append, Phrase.total_append]
  rfl

theorem written_cons (e : Expression) (es : List Expression) : written w (e :: es) = written w [e] + written w es :=
  written_append [e] es

theorem written_atom (c : Column) (a : Atom) : written w [.atom c a] = total w a.phrases := by
  have hflat : flatOf (a.phrases.map .leaf) = a.phrases := by
    rw [Nest.flatOf_eq_flatMap, List.flatMap_map]
    exact List.flatMap_singleton' a.phrases
  rw [written, nestsOf, nestsOf, List.append_nil, nests, hflat]

def Piece.weight (w : Phrase → Nat) : Piece → Nat
  | .expression e => written w [e]
  | .access _ a _ => w a.phrase

theorem written_grant? {a : FileAccess} {stop : Nat} : ∀ {es granted : List Expression}, grant? a stop es = some granted →
    written w granted ≤ written w es + w a.phrase
  | [], _, h => by cases h
  | e :: es, granted, h => by
    unfold grant? at h
    cases hr : grant? a stop es with
    | some rest =>
      rw [hr] at h
      cases h
      have ih := written_grant? hr
      rw [written_cons e rest, written_cons e es]
      omega
    | none =>
      rw [hr] at h
      simp only at h
      split at h
      · cases h
        rename_i c m x
        have hmode : w m.phrase ≤ written w [.atom c (.mode m x)] := by
          rw [written_atom]
          cases x with
          | none => exact Nat.le_refl _
          | some b => exact Nat.le_add_right _ _
        rw [written_cons, written_cons (.atom c (.mode m x)), written_atom, Atom.phrases, Phrase.total_cons,
          Phrase.total_singleton]
        omega
      · cases h

/-- **One step**: putting a piece after expressions adds no more than the weight of the piece. -/
theorem written_settle (hw : Falls w) (es : List Expression) (p : Piece) :
    written w (settle es p) ≤ written w es + p.weight w := by
  cases p with
  | expression e => exact Nat.le_of_eq (written_append es [e])
  | access word a stop =>
    rw [settle]
    cases hg : grant? a stop es with
    | some granted => exact written_grant? hg
    | none =>
      have halone := hw.alone a
      rw [Option.getD_none, written_append, written_atom, Atom.phrases, Phrase.total_singleton, Piece.weight]
      omega

theorem written_foldl (hw : Falls w) (ps : List Piece) (es : List Expression) :
    written w (ps.foldl settle es) ≤ written w es + (ps.map (Piece.weight w)).sum := by
  induction ps generalizing es with
  | nil => exact Nat.le_refl _
  | cons p ps ih =>
    have hstep := written_settle hw es p
    have hrest := ih (settle es p)
    rw [List.foldl_cons, List.map_cons, List.sum_cons]
    omega

theorem written_separator (hw : Falls w) {limit : Limit} {table : Table} {inOpen : Bool} {depth : Nat} {e : Expression}
    (h : Restorable limit table inOpen depth e) (hs : e.isSeparator = true) :
    w (.token ⟨.separator, [','], Column.none⟩) ≤ written w [e] := by
  cases h with
  | group => cases hs
  | @atom _ c a ha _ =>
    cases a with
    | separator d =>
      rw [written_atom, Atom.phrases, Phrase.total_singleton]
      exact hw.comma (ha.sound _ List.mem_cons_self _ List.mem_cons_self) rfl
    | _ => cases hs

theorem total_cutArguments (hw : Falls w) {limit : Limit} {table : Table} {inOpen : Bool} {depth : Nat}
    {es : List Expression} (h : ∀ e ∈ es, Restorable limit table inOpen depth e) :
    total w (flatOf (argumentNests (cutArguments es))) ≤ written w es := by
  induction es with
  | nil => exact Nat.le_refl _
  | cons e es ih =>
    have hrest := ih (fun x hx => h x (List.mem_cons_of_mem e hx))
    cases hc : cutArguments es with
    | nil => exact absurd hc (cutArguments_ne_nil es)
    | cons a as =>
      rw [hc] at hrest
      rw [written_cons, cutArguments, hc]
      split
      · rename_i hs
        have hcomma := written_separator hw (h e List.mem_cons_self) hs
        have hlist : total w (flatOf (argumentNests ([] :: a :: as))) =
            w (.token ⟨.separator, [','], Column.none⟩) + total w (flatOf (argumentNests (a :: as))) := rfl
        omega
      · have hlist : total w (flatOf (argumentNests ((e :: a) :: as))) =
            written w [e] + total w (flatOf (argumentNests (a :: as))) := by
          simp only [argumentNests, nestsOf, Nest.flatOf_append, Phrase.total_append, written, Nat.add_assoc, List.append_nil]
        show total w (flatOf (argumentNests ((e :: a) :: as))) ≤ _
        omega

theorem total_argumentsOf (hw : Falls w) {limit : Limit} {table : Table} {inOpen : Bool} {depth : Nat}
    {es : List Expression} (h : ∀ e ∈ es, Restorable limit table inOpen depth e) :
    total w (flatOf (argumentNests (argumentsOf es))) ≤ written w es := by
  cases es with
  | nil => exact Nat.le_refl _
  | cons e es => exact total_cutArguments hw h

theorem written_nestPieces (hw : Falls w) {limit : Limit} {table : Table} {depth : Nat} {ns : List Nest}
    (h : ∀ n ∈ ns, (nestPiece limit table depth n).weight w ≤ total w (flat n)) :
    written w ((nestPieces limit table depth ns).foldl settle []) ≤ total w (flatOf ns) := by
  have hpieces : ((nestPieces limit table depth ns).map (Piece.weight w)).sum ≤ total w (flatOf ns) := by
    induction ns with
    | nil => exact Nat.le_refl _
    | cons n ns ih =>
      have hn := h n List.mem_cons_self
      have hns := ih (fun m hm => h m (List.mem_cons_of_mem n hm))
      rw [nestPieces, List.map_cons, List.sum_cons, flatOf, Phrase.total_append]
      omega
  have hfold := written_foldl hw (nestPieces limit table depth ns) []
  have hnil : written w [] = 0 := rfl
  omega

theorem weight_nestPiece (hw : Falls w) {limit : Limit} {table : Table} {inOpen : Bool} {depth : Nat} {n : Nest}
    (h : Nest.Whole limit inOpen depth n) : (∀ t ∈ n.tokens, t.Sound) →
      (nestPiece limit table depth n).weight w ≤ total w (flat n) := by
  induction h with
  | @leaf depth p hp hs =>
    intro ht
    have hlisted := hw.listed hp ht
    rw [flat, Phrase.total_singleton]
    cases p with
    | token t =>
      have hphrases : (tokenAtom table t).phrases = [.token t.listed] := (tokenAtom_listed (ht t List.mem_cons_self) hs).1
      rw [nestPiece, phrasePiece, Piece.weight, written_atom, hphrases, Phrase.total_singleton]
      exact hlisted
    | handle t u n | mode t u m =>
      rw [nestPiece, phrasePiece, Piece.weight, written_atom, Atom.phrases, Phrase.total_singleton]
      exact hlisted
    | access t u more a => exact hlisted
  | @group depth b o t body ho hc hdeep hbody ih =>
    intro ht
    have hsound : ∀ n ∈ body, ∀ u ∈ n.tokens, u.Sound := fun n hn u hu => ht u (Nest.mem_tokens_group hn hu)
    have hlisted : ∀ u, u.Sound → w (.token u.listed) ≤ w (.token u) := fun u hu =>
      hw.listed (show (Phrase.token u).Formed inOpen from trivial) (fun x hx => (List.mem_singleton.1 hx) ▸ hu)
    have hso := ht o List.mem_cons_self
    have hst := ht t (List.mem_cons_of_mem o (List.mem_append_right _ (by simp)))
    have hopen := hlisted o hso
    have hclose := hlisted t hst
    rw [hso.listed_opening ho] at hopen
    rw [hst.listed_closing hc] at hclose
    have hitems := written_nestPieces hw (fun n hn => ih n hn (hsound n hn))
    have hrestorable : ∀ e ∈ (nestPieces limit table (depth + 1) body).foldl settle [],
        Restorable limit table inOpen (depth + 1) e :=
      restorable_nestPieces (fun n hn => restorable_nestPiece (hbody n hn) (hsound n hn)
        (fun hd => absurd hd (Nat.succ_ne_zero depth)))
    have harguments := total_argumentsOf hw hrestorable
    rw [nestPiece, hdeep, if_neg (by simp), Piece.weight, written, nestsOf, nestsOf, List.append_nil, nests]
    simp only [flatOf, flat, List.append_nil, Option.toList_some, List.map_cons, List.map_nil, Phrase.total_cons,
      Phrase.total_append]
    omega

/-- **A listing writes no more than its statement was made from.** -/
theorem written_ofNests (hw : Falls w) {limit : Limit} {table : Table} {inOpen : Bool} {ns : List Nest}
    (h : ∀ n ∈ ns, Nest.Whole limit inOpen 0 n) (ht : ∀ t ∈ Nest.tokensOf ns, t.Sound) :
    written w (ofNests limit table ns) ≤ total w (flatOf ns) :=
  written_nestPieces hw (fun n hn => weight_nestPiece hw (h n hn) (fun _ hm => ht _ (Nest.mem_tokensOf hn hm)))

end Expression

/-! ## The number of phrases -/

theorem Phrase.falls_one : Phrase.Falls (fun _ => 1) :=
  ⟨fun _ _ => Nat.le_refl 1, fun _ => Nat.le_refl 1, fun _ _ => Nat.le_refl 1⟩

theorem Phrase.total_one (ps : List Phrase) : Phrase.total (fun _ => 1) ps = ps.length := by
  simp [Phrase.total]

/-! ## Ink -/

def inkOf (ts : List Token) : Nat := (ts.map (fun t => t.source.ink)).sum

theorem inkOf_append (ts us : List Token) : inkOf (ts ++ us) = inkOf ts + inkOf us := by
  rw [inkOf, List.map_append, List.sum_append]
  rfl

theorem inkOf_cons (t : Token) (ts : List Token) : inkOf (t :: ts) = t.source.ink + inkOf ts := rfl

theorem inkOf_unplaced (ts : List Token) : inkOf (ts.map Token.unplaced) = inkOf ts := by
  rw [inkOf, List.map_map]
  rfl

theorem Phrase.total_ink (ps : List Phrase) :
    Phrase.total (fun p => inkOf p.tokens) ps = inkOf (ps.flatMap Phrase.tokens) := by
  induction ps with
  | nil => rfl
  | cons p ps ih => rw [total_cons, ih, List.flatMap_cons, inkOf_append]

/-- **The ink of a line is the ink of its tokens.** -/
theorem Lexer.Spelled.ink {i : Nat} {text : Text} {ts : List Token} (h : Spelled i text ts) : text.ink = inkOf ts := by
  induction h with
  | nil => rfl
  | gap hc _ ih => rw [Text.ink_cons_of_blank (Text.isBlank_of_isGap hc), ih]
  | token _ _ _ ih => rw [Text.ink_append, ih, inkOf_cons]

theorem length_spelling : ∀ p ∈ Kind.vocabulary,
    (Keyword.ofKind? p.2).all (fun k => decide (k.spelling.length ≤ p.1.length)) = true ∧
      p.2.operator?.all (fun o => decide (o.spelling.length ≤ p.1.length)) = true := by decide +kernel

namespace Text

theorem digitsValue_lt : ∀ {t : Text} (n : Nat), (∀ c ∈ t, c.isDigit = true) →
    digitsValue n t < (n + 1) * Nat.pow 10 t.length
  | [], n, _ => by simp [digitsValue]
  | c :: cs, n, h => by
    have hc : c.toNat - 48 ≤ 9 := by
      have hd := h c List.mem_cons_self
      simp only [Char.isDigit, Bool.and_eq_true, decide_eq_true_eq, UInt32.le_iff_toNat_le, ge_iff_le] at hd
      have hle : c.toNat ≤ 57 := hd.2
      omega
    calc digitsValue n (c :: cs) = digitsValue (10 * n + (c.toNat - 48)) cs := rfl
      _ < (10 * n + (c.toNat - 48) + 1) * Nat.pow 10 cs.length :=
        digitsValue_lt _ (fun d hd => h d (List.mem_cons_of_mem c hd))
      _ ≤ ((n + 1) * 10) * Nat.pow 10 cs.length := Nat.mul_le_mul_right _ (by omega)
      _ = (n + 1) * Nat.pow 10 (c :: cs).length := by rw [Nat.mul_assoc, Nat.mul_comm 10]; rfl

theorem length_ofNat_le {t : Text} {n : Nat} (h : decimal? t = some n) : (ofNat n).length ≤ t.length := by
  rw [decimal?] at h
  split at h
  · rename_i hd
    have hlt := digitsValue_lt 0 (List.all_eq_true.1 hd.2)
    rw [Option.some.inj h, Nat.zero_add, Nat.one_mul] at hlt
    exact (Nat.length_toDigits_le_iff (by decide) (List.length_pos_iff.2 hd.1)).2 hlt
  · cases h

end Text

namespace Token.Sound

variable {t : Token}

theorem ink_source (h : t.Sound) (hs : t.kind ≠ .string) : t.source.ink = t.text.length := by
  rw [Token.source_of_ne_string hs, Text.ink_of_visible (h.isVisible hs)]

theorem ink_keyword (h : t.Sound) {k : Keyword} (hk : t.kind = k.kind) : k.token.source.ink ≤ t.source.ink := by
  obtain ⟨c, cs, -, hf⟩ := h.form
  have hkeyword : t.kind.isKeyword = true := by rw [hk]; cases k <;> rfl
  have hstring : k.kind ≠ .string := by cases k <;> exact Kind.noConfusion
  have hlen := (length_spelling _ (Kind.mem_vocabulary (hf.entry_of_kind (.inl hkeyword)))).1
  simp only [hk, Keyword.ofKind?_kind, Option.all_some, decide_eq_true_eq, Text.upper, List.length_map] at hlen
  rw [h.ink_source (hk ▸ hstring), k.sound_token.ink_source hstring]
  exact hlen

theorem ink_operator (h : t.Sound) {o : Operator} (ho : t.kind.operator? = some o) : o.token.source.ink ≤ t.source.ink := by
  obtain ⟨c, cs, -, hf⟩ := h.form
  have hx := hf.entry_of_kind (.inr (by rw [ho]; rfl))
  have hlen := (length_spelling _ (Kind.mem_vocabulary hx)).2
  simp only [ho, Option.all_some, decide_eq_true_eq, Text.upper, List.length_map] at hlen
  rw [h.ink_source (ne_string_of_ofSpelling? hx), o.sound_token.ink_source (by cases o <;> exact Kind.noConfusion)]
  exact hlen

theorem ink_delimiter (h : t.Sound) (hk : t.kind.isDelimiter = true) : t.source.ink = 1 := by
  obtain ⟨c, hx, -⟩ := h.delimiter hk
  rw [h.ink_source (fun hs => by rw [hs] at hk; cases hk), hx]
  rfl

theorem ink_handle (h : t.Sound) {n : Nat} (hn : Phrase.handle? t = some n) :
    (⟨.integer, Text.ofNat n, Column.none⟩ : Token).source.ink ≤ t.source.ink := by
  obtain ⟨hk, hd, -⟩ := Phrase.handle?_eq_some hn
  have hsound : Token.Sound ⟨.integer, Text.ofNat n, Column.none⟩ :=
    ⟨Expression.isReadable_ofNat n, Kind.noConfusion, Kind.noConfusion⟩
  rw [hsound.ink_source Kind.noConfusion, h.ink_source (by rw [hk]; exact Kind.noConfusion)]
  exact Text.length_ofNat_le hd

theorem ink_listed (h : t.Sound) : t.listed.source.ink ≤ t.source.ink := by
  cases hk : Keyword.ofKind? t.kind with
  | some k =>
    rw [Token.listed_of_keyword hk]
    exact h.ink_keyword (Keyword.eq_kind_of_ofKind? hk)
  | none =>
    cases ho : t.kind.operator? with
    | some o =>
      rw [Token.listed_of_operator hk ho]
      exact h.ink_operator ho
    | none =>
      rw [Token.listed_of_other hk ho]
      exact Nat.le_refl _

end Token.Sound

/-- **A listing adds no ink.** -/
theorem Phrase.falls_ink : Phrase.Falls (fun p => inkOf p.tokens) := by
  have hword : ∀ {t : Token} {w : Word}, t.Sound → t.kind = .word w → (Keyword.word w).token.source.ink ≤ t.source.ink :=
    fun ht hk => ht.ink_keyword hk
  refine ⟨fun {inOpen p} hp ht => ?_, fun a => ?_, fun {t} ht hk => ?_⟩
  · cases p with
    | token t => exact Nat.add_le_add_right (ht t List.mem_cons_self).ink_listed 0
    | handle t u n =>
      have hhash := (ht t List.mem_cons_self).ink_delimiter (by rw [hp.1]; rfl)
      have hnumber := (ht u (List.mem_cons_of_mem t List.mem_cons_self)).ink_handle hp.2
      exact Nat.add_le_add (Nat.le_of_eq hhash.symm) (Nat.add_le_add_right hnumber 0)
    | mode t u m =>
      have hfor := hword (ht t List.mem_cons_self) hp.2.1
      have hmode := hword (ht u (List.mem_cons_of_mem t List.mem_cons_self)) (FileMode.kind_eq hp.2.2)
      exact Nat.add_le_add hfor (Nat.add_le_add_right hmode 0)
    | access t u more a =>
      have hu := ht u (List.mem_cons_of_mem t List.mem_cons_self)
      cases more with
      | none =>
        obtain ⟨-, hk, ⟨hw, rfl⟩ | ⟨hw, rfl⟩⟩ := hp
        · exact Nat.add_le_add (hword (ht t List.mem_cons_self) hk)
            (Nat.add_le_add_right (hword hu (Phrase.kind_of_word? hw)) 0)
        · exact Nat.add_le_add (hword (ht t List.mem_cons_self) hk)
            (Nat.add_le_add_right (hword hu (Phrase.kind_of_word? hw)) 0)
      | some v =>
        obtain ⟨-, hk, hr, hw, rfl⟩ := hp
        have hv := ht v (List.mem_cons_of_mem t (List.mem_cons_of_mem u List.mem_cons_self))
        exact Nat.add_le_add (hword (ht t List.mem_cons_self) hk) (Nat.add_le_add (hword hu (Phrase.kind_of_word? hr))
          (Nat.add_le_add_right (hword hv (Phrase.kind_of_word? hw)) 0))
  · cases a <;> exact Nat.add_le_add_left (Nat.zero_le _) _
  · exact Nat.add_le_add_right (Nat.le_of_eq (ht.ink_delimiter (by rw [hk]; rfl)).symm) 0

end BlockBasic
