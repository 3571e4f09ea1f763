import BlockBasic.Expression.Descent
import BlockBasic.Proofs.Balanced
/-!
# Descending — descending into groups reads what pairing brackets builds

The reader that descends and the walk that keeps a stack of open groups stop at the same tokens: what the reader puts down
inside the open groups is what the walk puts into the innermost of them (`Descent.follows`), and the count by which a
group that is too deep is passed over ends where the walk has taken all groups above it off the stack
(`Descent.exists_passed`).  So both make the same expressions and find the same faults, and the reader ends outside all
groups (`Descent.read_eq`).
-/
namespace BlockBasic

open Expression (settle phrasePiece nestPiece nestPieces argumentsOf ofNests)
open Nest (Frame Pairing phraseFaults closingFaults faults faultsOf tokensOf groupColumn rawText)
open Nest.Pairing (finish fits)

theorem Kind.bracket_cases (k : Kind) : (∃ b, k = .opener b) ∨ (∃ b, k = .closer b) ∨ k.isBracket = false := by
  cases k <;> simp [isBracket]

namespace Nest.Pairing

variable {limit : Limit} {s : Pairing} {p : Phrase}

theorem step_opener {b : Bracket} (h : p.first.kind = .opener b) :
    s.step limit p = ⟨⟨b, p.first, s.current⟩ :: s.frames, []⟩ := by simp [step, h]

theorem step_other (h : p.first.kind.isBracket = false) : s.step limit p = s.add (.leaf p) := by
  unfold step
  split <;> simp_all [Kind.isBracket]

theorem step_stray {b : Bracket} (h : p.first.kind = .closer b)
    (hno : ∀ f fs, s.frames = f :: fs → fits limit b f fs = false) : s.step limit p = s.add (.leaf p) := by
  cases hf : s.frames with
  | nil       => simp [step, h, hf]
  | cons f fs => simp [step, h, hf, hno f fs hf]

theorem step_closes {b : Bracket} {f : Frame} {fs : List Frame} {current : List Nest} (h : p.first.kind = .closer b)
    (hfits : fits limit b f fs = true) : (Pairing.mk (f :: fs) current).step limit p =
      ⟨fs, f.before ++ [.group f.bracket f.opening current (some p.first)]⟩ := by simp [step, h, hfits]

def walk (limit : Limit) (s : Pairing) (ps : List Phrase) : List Nest :=
  let t := ps.foldl (step limit) s
  finish t.frames t.current

theorem walk_cons (limit : Limit) (s : Pairing) (p : Phrase) (ps : List Phrase) :
    walk limit s (p :: ps) = walk limit (s.step limit p) ps := rfl

def putAway : List Frame → (closing : Option Token) → (body : List Nest) → Pairing
  | [], _, body            => ⟨[], body⟩
  | f :: fs, closing, body => ⟨fs, f.before ++ [.group f.bracket f.opening body closing]⟩

theorem walk_nil (limit : Limit) (frames : List Frame) (current : List Nest) :
    walk limit ⟨frames, current⟩ [] = walk limit (putAway frames none current) [] := by
  cases frames <;> rfl

theorem tokensOf_finish_append (fs : List Frame) (xs ys : List Nest) :
    tokensOf (finish fs (xs ++ ys)) = tokensOf (finish fs xs) ++ tokensOf ys := by
  induction fs generalizing xs ys with
  | nil => exact tokensOf_append xs ys
  | cons f fs ih =>
    have hcons : ∀ zs, finish (f :: fs) zs = finish fs (f.before ++ [.group f.bracket f.opening zs none]) := fun _ => rfl
    rw [hcons, hcons, ih, ih, List.append_assoc]
    simp [tokensOf, tokens]

end Nest.Pairing

namespace Descent

open Nest.Pairing (walk walk_cons walk_nil putAway step_opener step_other step_stray step_closes tokensOf_finish_append)

/-! ## Where the last token stops -/

/-- Where tokens stop that follow a token which stops at `n`. -/
def stopAfter (n : Nat) (ts : List Token) : Nat := ts.foldl (fun _ t => t.column.stop) n

theorem stopAfter_append (n : Nat) (ts us : List Token) : stopAfter n (ts ++ us) = stopAfter (stopAfter n ts) us :=
  List.foldl_append

theorem stopAfter_tokens (n : Nat) (p : Phrase) : stopAfter n p.tokens = p.last.column.stop := by
  cases p with
  | access t u more a => cases more <;> rfl
  | _                 => rfl

theorem groupColumn_eq (o : Token) (body : List Nest) (c : Option Token) : groupColumn o body c =
    ⟨o.column.start, stopAfter o.column.stop (tokensOf body ++ c.toList)⟩ := by
  have hlast : ∀ (ts : List Token) (t : Token), ((t :: ts).getLastD t).column.stop = stopAfter t.column.stop ts := by
    intro ts
    induction ts with
    | nil       => exact fun _ => rfl
    | cons u us ih => exact fun _ => ih u
  rw [groupColumn, hlast]

theorem rawText_eq (b : Bracket) (body : List Nest) (c : Option Token) :
    rawText b body c = b.opening :: (tokensOf body ++ c.toList).flatMap spaced := rfl

theorem missing_eq (b : Bracket) (o : Token) (c : Option Token) : missing b o c.isSome = closingFaults b o c := by
  cases c <;> rfl

/-! ## Passing over a group -/

/-- **How a group `f` that is too deep is passed over**, from where the groups `inner` are open in it: the tokens `more` go
by, and the group turns out to have `body` in it and to be closed by `closing`. -/
structure Passed (limit : Limit) (f : Frame) (fs inner : List Frame) (current : List Nest) (before : Text) (last : Nat)
    (ps : List Phrase) (body : List Nest) (closing : Option Token) (more : List Token) : Prop where
  tokens : tokensOf body ++ closing.toList = tokensOf (finish inner current) ++ more
  text   : (skip (inner.length + 1) before last ps).text = before ++ more.flatMap spaced
  stop   : (skip (inner.length + 1) before last ps).stop = stopAfter last more
  closed : (skip (inner.length + 1) before last ps).closed = closing.isSome
  walk   : walk limit ⟨inner ++ f :: fs, current⟩ ps =
    walk limit (putAway (f :: fs) closing body) (skip (inner.length + 1) before last ps).rest

section

variable {limit : Limit} {inOpen : Bool} {f : Frame} {fs inner inner' : List Frame} {current current' body : List Nest}
  {closing : Option Token} {more : List Token} {before : Text} {last : Nat} {p : Phrase} {ps : List Phrase}

theorem Passed.cons (h : Passed limit f fs inner' current' (before ++ p.tokens.flatMap spaced) p.last.column.stop ps body
      closing more)
    (hskip : skip (inner.length + 1) before last (p :: ps) =
      skip (inner'.length + 1) (before ++ p.tokens.flatMap spaced) p.last.column.stop ps)
    (hstep : Pairing.step limit ⟨inner ++ f :: fs, current⟩ p = ⟨inner' ++ f :: fs, current'⟩)
    (htokens : tokensOf (finish inner' current') = tokensOf (finish inner current) ++ p.tokens) :
    Passed limit f fs inner current before last (p :: ps) body closing (p.tokens ++ more) := by
  refine ⟨?_, ?_, ?_, ?_, ?_⟩
  · rw [h.tokens, htokens, List.append_assoc]
  · rw [hskip, h.text, List.flatMap_append, List.append_assoc]
  · rw [hskip, h.stop, stopAfter_append, stopAfter_tokens]
  · rw [hskip, h.closed]
  · rw [hskip, walk_cons, hstep, h.walk]

theorem exists_passed (hdeep : limit.exceeded fs.length = true) (hps : ∀ p ∈ ps, p.Formed inOpen) :
    ∀ (inner : List Frame) (current : List Nest) (before : Text) (last : Nat), ∃ body closing more,
      Passed limit f fs inner current before last ps body closing more := by
  -- The count is one more than `inner` is long: each bracket changes both alike, as beyond the limit any type closes.
  induction ps with
  | nil =>
    intro inner current before last
    refine ⟨finish inner current, none, [], rfl, (List.append_nil before).symm, rfl, rfl, ?_⟩
    exact List.foldl_append
  | cons p ps ih =>
    intro inner current before last
    have hp := hps p List.mem_cons_self
    have ih := ih fun q hq => hps q (List.mem_cons_of_mem p hq)
    rcases p.first.kind.bracket_cases with ⟨b, hk⟩ | ⟨b, hk⟩ | hk
    · obtain ⟨body, closing, more, h⟩ := ih (⟨b, p.first, current⟩ :: inner) [] (before ++ p.tokens.flatMap spaced)
        p.last.column.stop
      refine ⟨body, closing, p.tokens ++ more, h.cons (by simp [skip, hk]) (step_opener hk) ?_⟩
      rw [Nest.Pairing.eq_token_of_bracket hp (.inl ⟨b, hk⟩)]
      exact tokensOf_finish_append inner current [.group b p.first [] none]
    · cases inner with
      | nil =>
        -- The bracket closes the group itself.
        have hfits : fits limit b f fs = true := by simp [fits, hdeep]
        have hskip : skip 1 before last (p :: ps) = ⟨before ++ p.tokens.flatMap spaced, p.last.column.stop, true, ps⟩ := by
          simp [skip, hk]
        have hone := Nest.Pairing.eq_token_of_bracket hp (.inr ⟨b, hk⟩)
        refine ⟨current, some p.first, p.tokens, ?_, ?_, ?_, ?_, ?_⟩
        · rw [hone]
          rfl
        · exact congrArg Skipped.text hskip
        · exact (congrArg Skipped.stop hskip).trans (stopAfter_tokens last p).symm
        · exact congrArg Skipped.closed hskip
        · rw [List.nil_append, walk_cons, step_closes hk hfits, List.length_nil, Nat.zero_add, hskip]
          rfl
      | cons g gs =>
        have hfits : fits limit b g (gs ++ f :: fs) = true := by
          have := Limit.exceeded_of_le hdeep (n := (gs ++ f :: fs).length) (by simp; omega)
          rw [fits, this, Bool.or_true]
        obtain ⟨body, closing, more, h⟩ := ih gs (g.before ++ [.group g.bracket g.opening current (some p.first)])
          (before ++ p.tokens.flatMap spaced) p.last.column.stop
        refine ⟨body, closing, p.tokens ++ more, h.cons (by simp [skip, hk]) (step_closes hk hfits) ?_⟩
        rw [Nest.Pairing.eq_token_of_bracket hp (.inr ⟨b, hk⟩),
          show finish (g :: gs) current = finish gs (g.before ++ [.group g.bracket g.opening current none]) from rfl]
        simp [tokensOf_finish_append, tokensOf, Nest.tokens, Phrase.tokens, Phrase.first]
    · obtain ⟨body, closing, more, h⟩ := ih inner (current ++ [.leaf p]) (before ++ p.tokens.flatMap spaced)
        p.last.column.stop
      refine ⟨body, closing, p.tokens ++ more, h.cons ?_ (step_other hk) ?_⟩
      · cases hkind : p.first.kind <;> simp_all [skip, Kind.isBracket]
      · simp [tokensOf_finish_append, tokensOf, Nest.tokens]

end

/-! ## Reading a sequence -/

section

variable (limit : Limit) (table : Table)

abbrev reading (closing? : Option Bracket) (items : List Expression) (s : Reader) (ps : List Phrase) : Reading :=
  (sequence limit table closing? items s ps).1

variable {limit table} {closing? : Option Bracket} {items : List Expression} {s : Reader} {p : Phrase} {ps : List Phrase}

theorem reading_nil : reading limit table closing? items s [] = ⟨items, closing?.isNone, s, []⟩ := by
  rw [reading, sequence]

theorem reading_closes {b : Bracket} (hk : p.first.kind = .closer b) :
    reading limit table (some b) items s (p :: ps) = ⟨items, true, s.advance p, ps⟩ := by
  rw [reading, sequence]
  simp [hk]

theorem reading_leaf (ho : ∀ b, p.first.kind ≠ .opener b) (hc : ∀ b, p.first.kind = .closer b → closing? ≠ some b) :
    reading limit table closing? items s (p :: ps) =
      reading limit table closing? (settle items (phrasePiece table p)) ((s.advance p).report (phraseFaults p)) ps := by
  rw [reading, sequence]
  cases hk : p.first.kind <;> simp_all

theorem reading_deep {b : Bracket} (hk : p.first.kind = .opener b) (hdeep : limit.exceeded s.depth = true) :
    reading limit table closing? items s (p :: ps) =
      let k := skip 1 [b.opening] p.last.column.stop ps
      reading limit table closing? (items ++ [.atom ⟨p.first.column.start, k.stop⟩ (.malformed k.text)])
        { s with stop := k.stop,
                 faults := s.faults ++ (p.first.column, .tooDeep (limit.getD 0)) :: missing b p.first k.closed } k.rest := by
  rw [reading, sequence]
  simp [hk, hdeep]

theorem reading_group {b : Bracket} (hk : p.first.kind = .opener b) (hdeep : limit.exceeded s.depth = false) :
    reading limit table closing? items s (p :: ps) =
      let inner := reading limit table (some b) [] (s.advance p).enter ps
      reading limit table closing?
        (items ++ [.group ⟨p.first.column.start, inner.reader.stop⟩ b (argumentsOf inner.items) inner.closed])
        (inner.reader.leave.report (missing b p.first inner.closed)) inner.rest := by
  rw [reading, sequence]
  simp [hk, hdeep]

end

/-- **How a sequence is read** inside the open groups `frames`, the innermost of which has `current` in it: the nests `ns`
are put there, and `closing` ends the group. -/
structure Reads (limit : Limit) (table : Table) (frames : List Frame) (current : List Nest) (items : List Expression)
    (s : Reader) (ps : List Phrase) (r : Reading) (ns : List Nest) (closing : Option Token) : Prop where
  items  : r.items = (nestPieces limit table frames.length ns).foldl settle items
  depth  : r.reader.depth = frames.length
  faults : r.reader.faults = s.faults ++ faultsOf limit frames.length ns
  stop   : r.reader.stop = stopAfter s.stop (tokensOf ns ++ closing.toList)
  closed : frames ≠ [] → r.closed = closing.isSome
  rest   : closing = none → r.rest = []
  top    : frames = [] → closing = none
  walk   : walk limit ⟨frames, current⟩ ps = walk limit (putAway frames closing (current ++ ns)) r.rest

section

variable {limit : Limit} {table : Table} {inOpen : Bool} {frames : List Frame} {current ns : List Nest} {n : Nest}
  {items : List Expression} {s s' : Reader} {p : Phrase} {ps rest : List Phrase} {r : Reading} {closing : Option Token}

theorem Reads.cons {e : List Expression} (h : Reads limit table frames (current ++ [n]) e s' rest r ns closing)
    (he : e = settle items (nestPiece limit table frames.length n))
    (hfaults : s'.faults = s.faults ++ Nest.faults limit frames.length n) (hstop : s'.stop = stopAfter s.stop n.tokens)
    (hwalk : Nest.Pairing.walk limit ⟨frames, current⟩ ps = Nest.Pairing.walk limit ⟨frames, current ++ [n]⟩ rest) :
    Reads limit table frames current items s ps r (n :: ns) closing where
  items  := by rw [h.items, he, nestPieces, List.foldl_cons]
  depth  := h.depth
  faults := by rw [h.faults, hfaults, faultsOf, List.append_assoc]
  stop   := by rw [h.stop, hstop, tokensOf, List.append_assoc, stopAfter_append _ n.tokens]
  closed := h.closed
  rest   := h.rest
  top    := h.top
  walk   := by rw [hwalk, h.walk, List.append_assoc, List.singleton_append]

variable (limit table) in
/-- That reading the phrases goes where the walk goes, from wherever it starts. -/
def Follows (ps : List Phrase) : Prop := ∀ (frames : List Frame) (current : List Nest) (items : List Expression)
  (s : Reader), s.depth = frames.length → (∀ f fs, frames = f :: fs → limit.exceeded fs.length = false) →
  ∃ ns closing, Reads limit table frames current items s ps
    (reading limit table (frames.head?.map Frame.bracket) items s ps) ns closing

theorem Follows.after {items' : List Expression} (h : Follows limit table rest) (hdepth : s'.depth = frames.length)
    (hroom : ∀ f fs, frames = f :: fs → limit.exceeded fs.length = false)
    (hitems : items' = settle items (nestPiece limit table frames.length n))
    (hfaults : s'.faults = s.faults ++ faults limit frames.length n) (hstop : s'.stop = stopAfter s.stop n.tokens)
    (hwalk : walk limit ⟨frames, current⟩ ps = walk limit ⟨frames, current ++ [n]⟩ rest) :
    ∃ ns closing, Reads limit table frames current items s ps
      (reading limit table (frames.head?.map Frame.bracket) items' s' rest) ns closing := by
  obtain ⟨ns, closing, hr⟩ := h frames (current ++ [n]) items' s' hdepth hroom
  exact ⟨n :: ns, closing, hr.cons hitems hfaults hstop hwalk⟩

section

variable (hdepth : s.depth = frames.length) (hroom : ∀ f fs, frames = f :: fs → limit.exceeded fs.length = false)
include hdepth hroom

theorem Follows.leaf (h : Follows limit table ps) (ho : ∀ b, p.first.kind ≠ .opener b)
    (hc : ∀ b, p.first.kind = .closer b → frames.head?.map Frame.bracket ≠ some b)
    (hstep : Pairing.step limit ⟨frames, current⟩ p = ⟨frames, current ++ [.leaf p]⟩) :
    ∃ ns closing, Reads limit table frames current items s (p :: ps)
      (reading limit table (frames.head?.map Frame.bracket) items s (p :: ps)) ns closing := by
  rw [reading_leaf ho hc]
  refine h.after (n := .leaf p) hdepth hroom rfl rfl (stopAfter_tokens _ p).symm ?_
  rw [walk_cons, hstep]

theorem Follows.deep {b : Bracket} (h : ∀ {qs}, qs <:+ ps → Follows limit table qs) (hps : ∀ q ∈ ps, q.Formed inOpen)
    (hp : p.Formed inOpen) (hk : p.first.kind = .opener b) (hdeep : limit.exceeded frames.length = true) :
    ∃ ns closing, Reads limit table frames current items s (p :: ps)
      (reading limit table (frames.head?.map Frame.bracket) items s (p :: ps)) ns closing := by
  have hone : p.last = p.first := by rw [Nest.Pairing.eq_token_of_bracket hp (.inl ⟨b, hk⟩)]; rfl
  obtain ⟨body, closing, more, hpassed⟩ := exists_passed (f := ⟨b, p.first, current⟩) hdeep hps [] [] [b.opening]
    p.last.column.stop
  have hmore : tokensOf body ++ closing.toList = more := hpassed.tokens
  have htext : (skip 1 [b.opening] p.last.column.stop ps).text = rawText b body closing := by
    rw [rawText_eq, hmore]
    exact hpassed.text
  have hstop : (skip 1 [b.opening] p.last.column.stop ps).stop = stopAfter p.first.column.stop more := by
    rw [← hone]
    exact hpassed.stop
  have hclosed : (skip 1 [b.opening] p.last.column.stop ps).closed = closing.isSome := hpassed.closed
  rw [reading_deep hk (hdepth ▸ hdeep)]
  refine (h (skip_suffix ..)).after (n := .group b p.first body closing) hdepth hroom ?_ ?_ ?_ ?_
  · rw [nestPiece, if_pos hdeep, settle, groupColumn_eq, hmore, htext, hstop]
  · rw [faults, if_pos hdeep, hclosed, missing_eq]
  · rw [hstop, ← hmore]
    rfl
  · rw [walk_cons, step_opener hk]
    exact hpassed.walk

theorem Follows.group {b : Bracket} (h : ∀ {qs}, qs <:+ ps → Follows limit table qs) (hp : p.Formed inOpen)
    (hk : p.first.kind = .opener b) (hdeep : limit.exceeded frames.length = false) :
    ∃ ns closing, Reads limit table frames current items s (p :: ps)
      (reading limit table (frames.head?.map Frame.bracket) items s (p :: ps)) ns closing := by
  have hone : p.last = p.first := by rw [Nest.Pairing.eq_token_of_bracket hp (.inl ⟨b, hk⟩)]; rfl
  obtain ⟨body, closing, hbody⟩ := h List.suffix_rfl (⟨b, p.first, current⟩ :: frames) [] [] (s.advance p).enter
    (congrArg (· + 1) hdepth) (by rintro f fs he; cases he; exact hdeep)
  have hafter : (reading limit table (some b) [] (s.advance p).enter ps).rest <:+ ps :=
    (sequence limit table (some b) [] (s.advance p).enter ps).2
  have hclosed : (reading limit table (some b) [] (s.advance p).enter ps).closed = closing.isSome :=
    hbody.closed (List.cons_ne_nil _ _)
  have hstop : (reading limit table (some b) [] (s.advance p).enter ps).reader.stop =
      stopAfter p.first.column.stop (tokensOf body ++ closing.toList) := by
    rw [← hone]
    exact hbody.stop
  rw [reading_group hk (hdepth ▸ hdeep)]
  refine (h hafter).after (n := .group b p.first body closing) (congrArg (· - 1) hbody.depth) hroom ?_ ?_ ?_ ?_
  · have hitems : (reading limit table (some b) [] (s.advance p).enter ps).items =
        (nestPieces limit table (frames.length + 1) body).foldl settle [] := hbody.items
    rw [nestPiece, if_neg (by simp [hdeep]), settle, groupColumn_eq, hstop, hclosed, hitems]
  · have hfound : (reading limit table (some b) [] (s.advance p).enter ps).reader.faults =
        s.faults ++ faultsOf limit (frames.length + 1) body := hbody.faults
    rw [faults, if_neg (by simp [hdeep]), hclosed, missing_eq, ← List.append_assoc, ← hfound]
    rfl
  · exact hstop
  · rw [walk_cons, step_opener hk]
    exact hbody.walk

end

theorem Follows.nil : Follows limit table [] := by
  intro frames current items s hdepth _
  rw [reading_nil]
  refine ⟨[], none, rfl, hdepth, (List.append_nil _).symm, rfl, fun hne => ?_, fun _ => rfl, fun _ => rfl, ?_⟩
  · cases frames with
    | nil       => exact absurd rfl hne
    | cons f fs => rfl
  · rw [List.append_nil]
    exact walk_nil limit frames current

theorem reads_closes {f : Frame} {fs : List Frame} (hdepth : s.depth = (f :: fs).length) (hp : p.Formed inOpen)
    (hk : p.first.kind = .closer f.bracket) : Reads limit table (f :: fs) current items s (p :: ps)
      (reading limit table (some f.bracket) items s (p :: ps)) [] (some p.first) := by
  have hfits : fits limit f.bracket f fs = true := by simp [fits]
  rw [reading_closes hk]
  refine ⟨rfl, hdepth, (List.append_nil _).symm, ?_, fun _ => rfl, fun h => absurd h (Option.some_ne_none _),
    fun h => absurd h (List.cons_ne_nil f fs), ?_⟩
  · rw [Nest.Pairing.eq_token_of_bracket hp (.inr ⟨f.bracket, hk⟩)]
    rfl
  · rw [walk_cons, step_closes hk hfits, List.append_nil]
    rfl

/-- **A closing bracket ends the sequence or stays where it is.** -/
theorem Follows.closer {b : Bracket} (h : Follows limit table ps) (hdepth : s.depth = frames.length)
    (hroom : ∀ f fs, frames = f :: fs → limit.exceeded fs.length = false) (hp : p.Formed inOpen)
    (hk : p.first.kind = .closer b) : ∃ ns closing, Reads limit table frames current items s (p :: ps)
      (reading limit table (frames.head?.map Frame.bracket) items s (p :: ps)) ns closing := by
  cases frames with
  | nil       => exact h.leaf hdepth hroom (by simp [hk]) (by simp) (step_stray hk (by simp))
  | cons f fs =>
    by_cases hb : f.bracket = b
    · exact ⟨[], some p.first, reads_closes hdepth hp (hb ▸ hk)⟩
    · -- A bracket of the other type closes nothing, as the open group is within the limit.
      refine h.leaf hdepth hroom (by simp [hk]) (by simpa [hk] using hb) (step_stray hk fun g gs he => ?_)
      cases he
      simp [fits, hb, hroom f fs rfl]

/-- **Reading goes where the walk goes.** -/
theorem follows (hps : ∀ p ∈ ps, p.Formed inOpen) : Follows limit table ps := by
  -- A group takes more than one phrase, so the rest may be any suffix.
  induction hlen : ps.length using Nat.strongRecOn generalizing ps with
  | ind m ih =>
    cases ps with
    | nil       => exact .nil
    | cons p ps =>
      intro frames current items s hdepth hroom
      have hp := hps p List.mem_cons_self
      have hrest : ∀ q ∈ ps, q.Formed inOpen := fun q hq => hps q (List.mem_cons_of_mem p hq)
      have hsuffix : ∀ {qs}, qs <:+ ps → Follows limit table qs := by
        intro qs hqs
        have hle := hqs.length_le
        rw [List.length_cons] at hlen
        exact ih qs.length (by omega) (fun q hq => hrest q (hqs.subset hq)) rfl
      rcases p.first.kind.bracket_cases with ⟨b, hk⟩ | ⟨b, hk⟩ | hk
      · cases hdeep : limit.exceeded frames.length with
        | true  => exact Follows.deep hdepth hroom hsuffix hrest hp hk hdeep
        | false => exact Follows.group hdepth hroom hsuffix hp hk hdeep
      · exact (hsuffix List.suffix_rfl).closer hdepth hroom hp hk
      · have hc : ∀ b, p.first.kind = .closer b → frames.head?.map Frame.bracket ≠ some b := by
          intro b hb
          rw [hb] at hk
          cases hk
        exact (hsuffix List.suffix_rfl).leaf hdepth hroom (Kind.ne_opener hk) hc (step_other hk)

end

/-- **Descending makes the expressions that pairing makes, finds the same faults, and ends outside all groups.** -/
theorem read_eq {inOpen : Bool} (limit : Limit) (table : Table) {ps : List Phrase} (hps : ∀ p ∈ ps, p.Formed inOpen) :
    (read limit table ps).items = ofNests limit table (Nest.ofPhrases limit ps) ∧
    (read limit table ps).reader.faults = faultsOf limit 0 (Nest.ofPhrases limit ps) ∧
    (read limit table ps).reader.depth = 0 ∧ (read limit table ps).rest = [] := by
  have hfollows : Follows limit table ps := follows hps
  obtain ⟨ns, closing, h⟩ := hfollows [] [] [] {} rfl (fun f fs h => absurd h.symm (List.cons_ne_nil f fs))
  have hrest : (read limit table ps).rest = [] := h.rest (h.top rfl)
  have hns : Nest.ofPhrases limit ps = ns := h.walk.trans (congrArg (walk limit ⟨[], ns⟩) hrest)
  rw [hns]
  exact ⟨h.items, h.faults, h.depth, hrest⟩

end Descent
end BlockBasic
