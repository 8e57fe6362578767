import Mathlib.Data.List.DropRight
import Sm83.Proofs.Token.Form
import Sm83.Proofs.Token.Sound

/-!
# Nothing is lost in reading tokens

A text whose tokens reach its end is made up of gaps and lexemes, one lexeme for each token. A gap
holds nothing but blanks, comments and continuations, a lexeme is what its token is written as, and
the token stands at the line and column where its lexeme starts.
-/

namespace Sm83

/-- What stands on the last line of a text. -/
def lastLine (cs : List Char) : List Char :=
  cs.rtakeWhile (· ≠ '\n')

@[simp] theorem lastLine_nil : lastLine [] = [] := rfl

theorem lastLine_newline (cs : List Char) : lastLine (cs ++ ['\n']) = [] := by
  simp [lastLine]

theorem lastLine_concat (cs : List Char) {c : Char} (hc : c ≠ '\n') :
    lastLine (cs ++ [c]) = lastLine cs ++ [c] := by
  simp [lastLine, hc]

/-- Only blanks stand on the last line of a text. -/
def EndsBlank (cs : List Char) : Prop :=
  ∀ c ∈ lastLine cs, isBlank c = true

theorem EndsBlank.concat {cs : List Char} {c : Char} (h : EndsBlank cs) (hc : isBlank c = true) :
    EndsBlank (cs ++ [c]) := by
  have hline : c ≠ '\n' := by
    rintro rfl
    cases hc
  intro d hd
  rw [lastLine_concat cs hline, List.mem_append, List.mem_singleton] at hd
  rcases hd with hd | rfl
  · exact h d hd
  · exact hc

/-- What may stand between two lexemes, with the text before it and behind it. A comment goes up to
the end of its line, and an asterisk starts one only behind blanks. -/
inductive GapText : (before text after : List Char) → Prop
  | nothing {before after : List Char} : GapText before [] after
  | blank {before text after : List Char} {c : Char} (hc : isBlank c = true)
      (h : GapText (before ++ [c]) text after) : GapText before (c :: text) after
  | comment {before body after : List Char} {c : Char} (hc : c = ';' ∨ c = '*' ∧ EndsBlank before)
      (hbody : '\n' ∉ body) (hafter : after = [] ∨ after.head? = some '\n') :
    GapText before (c :: body) after
  | continuation {before blanks comment text after : List Char}
      (hblanks : ∀ c ∈ blanks, isBlank c = true)
        (hcomment : comment = [] ∨ ∃ body, comment = ';' :: body ∧ '\n' ∉ body)
      (h : GapText (before ++ ('\\' :: blanks ++ comment ++ ['\n'])) text after) :
    GapText before ('\\' :: blanks ++ comment ++ ['\n'] ++ text) after

theorem head?_drop_restOfLine_eq (cs : List Char) :
    cs.drop (restOfLine cs).length = [] ∨ (cs.drop (restOfLine cs).length).head? = some '\n' := by
  by_cases hline : '\n' ∈ cs
  · rcases drop_restOfLine hline with ⟨rest, hrest⟩
    exact .inr (by rw [hrest]; rfl)
  · refine .inl ?_
    have hall : restOfLine cs = cs := by
      rw [restOfLine, List.takeWhile_eq_self_iff]
      intro c hc
      apply decide_eq_true
      rintro rfl
      exact hline hc
    rw [hall, List.drop_length]

theorem gap_pending {k : Nat} {cs : List Char} (fresh : Bool) (hk : k ≤ cs.length) :
    (gap k fresh cs).length = k + (gap 0 fresh (cs.drop k)).length ∧
      (gap k fresh cs).stray = (gap 0 fresh (cs.drop k)).stray := by
  induction k generalizing cs with
  | zero => simp
  | succ k ih =>
    cases cs with
    | nil => simp at hk
    | cons c rest =>
      rcases ih (by simpa using hk) with ⟨hlength, hstray⟩
      rw [gap, List.drop_succ_cons]
      refine ⟨?_, hstray⟩
      simp only [Gap.succ, hlength]
      omega

/-- The text of a gap. -/
theorem gapText_gap {before cs : List Char} {fresh : Bool}
    (hfresh : fresh = true → EndsBlank before) (hstray : (gap 0 fresh cs).stray = false) :
    GapText before (cs.take (gap 0 fresh cs).length) (cs.drop (gap 0 fresh cs).length) := by
  induction hn : cs.length using Nat.strong_induction_on generalizing before cs fresh with
  | _ n ih =>
    cases cs with
    | nil => exact .nothing
    | cons c rest =>
      rw [gap] at hstray ⊢
      split at hstray
      · next hblank =>
        rw [if_pos hblank]
        refine .blank hblank (ih rest.length (by simp [← hn]) ?_ hstray rfl)
        exact fun h => (hfresh h).concat hblank
      · next hblank =>
        rw [if_neg hblank]
        split at hstray
        · next hcomment =>
          rw [if_pos hcomment]
          simp only [Nat.add_comm 1, List.take_succ_cons, List.drop_succ_cons]
          refine .comment ?_ ?_ (head?_drop_restOfLine_eq rest)
          · simp only [Bool.or_eq_true, Bool.and_eq_true, decide_eq_true_eq] at hcomment
            exact hcomment.imp_right fun h => ⟨h.1, hfresh h.2⟩
          · rw [restOfLine, take_takeWhile]
            exact newline_not_mem_restOfLine rest
        · next hcomment =>
          rw [if_neg hcomment]
          split at hstray
          · next hslash =>
            subst hslash
            rw [if_pos rfl]
            split at hstray
            · next k hk =>
              -- the line goes on behind the end of the physical one, which is not fresh then
              rcases continuation?_eq_some hk with
                ⟨blanks, comment, behind, rfl, rfl, hblanks, hcomment⟩
              have hle := (continuation?_bounds hk).2
              rcases gap_pending false hle with ⟨hlength, hsame⟩
              rw [List.drop_left] at hlength hsame
              have hgap : GapText (before ++ ('\\' :: blanks ++ comment ++ ['\n']))
                  (behind.take (gap 0 false behind).length)
                  (behind.drop (gap 0 false behind).length) :=
                ih behind.length (by simp [← hn]; omega) (by simp) (hsame ▸ hstray) rfl
              simp only [Gap.succ, hlength, List.take_succ_cons, List.drop_succ_cons,
                List.take_length_add_append, List.drop_length_add_append]
              exact .continuation hblanks hcomment hgap
            · cases hstray
          · next hslash =>
            rw [if_neg hslash]
            exact .nothing

/-- The token stands right behind a text. -/
structure Token.StandsBehind (t : Token) (before : List Char) : Prop where
  line : t.line = 1 + before.count '\n'
  column : t.column = 1 + (lastLine before).length

namespace Cursor

/-- The cursor stands right behind a text. -/
structure Behind (before : List Char) (c : Cursor) : Prop where
  line : c.line = 1 + before.count '\n'
  column : c.column = 1 + (lastLine before).length
  fresh : c.fresh = true → EndsBlank before

namespace Behind

variable {before cs rest : List Char} {c : Cursor}

theorem start (text : List Char) : (Cursor.start text).Behind [] :=
  ⟨rfl, rfl, fun _ c hc => by simp at hc⟩

theorem step {ch : Char} (h : c.Behind before) (hc : c.rest = ch :: rest) :
    c.step.Behind (before ++ [ch]) := by
  simp only [Cursor.step, hc]
  split
  · next hline =>
    subst hline
    refine ⟨?_, ?_, ?_⟩
    · simp [h.line, Nat.add_assoc]
    · rw [lastLine_newline]
      rfl
    · intro _ d hd
      rw [lastLine_newline] at hd
      cases hd
  · next hline =>
    refine ⟨?_, ?_, ?_⟩
    · simp [h.line, hline]
    · simp only [h.column, lastLine_concat before hline, List.length_append, List.length_singleton,
        Nat.add_assoc]
    · intro hfresh
      rw [Bool.and_eq_true] at hfresh
      exact (h.fresh hfresh.1).concat hfresh.2

theorem skip (h : c.Behind before) (hc : c.rest = cs ++ rest) :
    (c.skip cs.length).Behind (before ++ cs) := by
  induction cs generalizing before c with
  | nil => simpa [Cursor.skip] using h
  | cons ch cs ih =>
    have hstep : c.step.rest = cs ++ rest := by
      have hrest := rest_skip 1 c
      rw [hc] at hrest
      exact hrest
    have hbehind := ih (h.step hc) hstep
    rw [List.append_assoc, List.singleton_append] at hbehind
    exact hbehind

theorem pass (h : c.Behind before) (hc : c.rest = cs ++ rest) :
    (c.pass cs.length).Behind (before ++ cs) := by
  have hskip := h.skip hc
  refine ⟨hskip.line, hskip.column, ?_⟩
  intro hfresh
  simp only [Cursor.pass, hc, List.take_left, Bool.and_eq_true] at hfresh
  have hline : '\n' ∉ cs := by
    intro hmem
    cases List.all_eq_true.mp hfresh.2 '\n' hmem
  apply hskip.fresh
  rw [skip_within hc hline, hfresh.1, hfresh.2]
  rfl

end Behind

end Cursor

/-- A gap and the lexeme behind it, with its token. -/
structure Piece where
  gap : List Char
  lexeme : List Char
  token : Token

/-- The characters of a piece. -/
def Piece.text (p : Piece) : List Char :=
  p.gap ++ p.lexeme

/-- The piece stands between two texts. -/
structure Piece.Fits (before after : List Char) (p : Piece) : Prop where
  gap : GapText before p.gap (p.lexeme ++ after)
  lexeme : p.token.lexeme.WrittenAs p.lexeme
  place : p.token.StandsBehind (before ++ p.gap)

/-- The pieces stand one behind the other, the first of them behind a text. -/
def PiecesFit (before : List Char) (pieces : List Piece) : Prop :=
  ∀ front p back, pieces = front ++ p :: back →
    p.Fits (before ++ front.flatMap Piece.text) (back.flatMap Piece.text)

theorem PiecesFit.cons {before : List Char} {p : Piece} {pieces : List Piece}
    (hp : p.Fits before (pieces.flatMap Piece.text)) (h : PiecesFit (before ++ p.text) pieces) :
    PiecesFit before (p :: pieces) := by
  rintro front q back heq
  cases front with
  | nil =>
    cases heq
    simpa using hp
  | cons first front =>
    rw [List.cons_append, List.cons.injEq] at heq
    rcases heq with ⟨rfl, heq⟩
    rw [List.flatMap_cons, ← List.append_assoc]
    exact h front q back heq

namespace Cursor

variable {source : Source} {c c' : Cursor} {t : Token} {before : List Char}

theorem normalToken_piece (hc : c.Behind before) (h : c.normalToken source = .ok (t, c')) :
    ∃ p : Piece, p.token = t ∧ c.rest = p.text ++ c'.rest ∧ p.Fits before c'.rest ∧
      c'.Behind (before ++ p.text) := by
  rcases normalToken_eq_ok_iff.mp h with ⟨hstray, l, n, hscan, rfl, rfl⟩
  have hgap := gapText_gap hc.fresh hstray
  have hcut : c.rest = c.rest.take (gap 0 c.fresh c.rest).length ++
      c.rest.drop (gap 0 c.fresh c.rest).length := (List.take_append_drop _ _).symm
  have hlength : (c.rest.take (gap 0 c.fresh c.rest).length).length =
      (gap 0 c.fresh c.rest).length :=
    List.length_take_of_le (gap_length_le 0 c.fresh c.rest)
  have hhere := hc.pass hcut
  rw [hlength] at hhere
  rw [← rest_pass] at hgap hcut
  generalize c.rest.take (gap 0 c.fresh c.rest).length = g at hgap hcut hhere
  generalize c.pass (gap 0 c.fresh c.rest).length = here at hscan hgap hcut hhere
  have hskip := hhere.skip (List.take_append_drop n here.rest).symm
  rw [List.length_take_of_le (length_le_of_scan hscan)] at hskip
  refine ⟨⟨g, here.rest.take n, here.token .normal l⟩, rfl, ?_, ⟨?_, ?_, ?_⟩, ?_⟩
  · rw [hcut, Piece.text, rest_skip, List.append_assoc, List.take_append_drop]
  · rw [rest_skip, List.take_append_drop]
    exact hgap
  · exact scan_written hscan
  · exact ⟨hhere.line, hhere.column⟩
  · rw [Piece.text, ← List.append_assoc]
    exact hskip

theorem Yields.pieces {ts : List Token} (h : c.Yields source .normal ts) (hc : c.Behind before) :
    ∃ pieces : List Piece, pieces.map Piece.token = ts ∧ c.rest = pieces.flatMap Piece.text ∧
      PiecesFit before pieces := by
  induction h generalizing before with
  | @last c c' t hnext ht =>
    rcases normalToken_piece hc hnext with ⟨p, rfl, hrest, hfits, _⟩
    rw [(next_step hnext).finish ht] at hrest hfits
    refine ⟨[p], rfl, by simpa using hrest, .cons hfits ?_⟩
    rintro front q back heq
    simp at heq
  | @more c c' t ts hnext ht _ ih =>
    rcases normalToken_piece hc hnext with ⟨p, rfl, hrest, hfits, hbehind⟩
    rcases ih hbehind with ⟨pieces, hts, hpieces, hall⟩
    rw [hpieces] at hrest hfits
    exact ⟨p ::
      pieces, by rw [List.map_cons, hts], by rw [List.flatMap_cons, hrest], .cons hfits hall⟩

end Cursor

/-- A source whose tokens reach its end is the concatenation of gaps and lexemes, one lexeme for
each token and the last one for the end of the source. Every token stands where its lexeme does. -/
theorem tokens_lossless {text file : String} {ts : List Token}
    (h : (Source.ofText text file).tokens = (ts, none)) :
    endsOnce ts = true ∧ ∃ pieces : List Piece,
      pieces.map Piece.token = ts ∧ uniformLineEnds text.toList = pieces.flatMap Piece.text ∧
      ∀ front p back, pieces = front ++ p :: back →
        p.Fits (front.flatMap Piece.text) (back.flatMap Piece.text) := by
  have hyields := Cursor.Yields.of_normalTokens h
  rcases hyields.pieces (.start _) with ⟨pieces, hts, htext, hall⟩
  exact ⟨hyields.reachesEnd, pieces, hts, htext, hall⟩

/-- A source with a comment of either kind, a continued line and a carriage return. -/
theorem tokens_lossless_continued :
    let text := " * note\r\n.x: Db $1F, \\ ; more\n &17 * 2, \"\\t\""
    let ts := (Source.ofText text "a").tokens
    ts.2 = none ∧ ts.1.length = 12 ∧ endsOnce ts.1 = true ∧ ∃ pieces : List Piece,
      pieces.map Piece.token = ts.1 ∧ uniformLineEnds text.toList = pieces.flatMap Piece.text ∧
      ∀ front p back, pieces = front ++ p :: back →
        p.Fits (front.flatMap Piece.text) (back.flatMap Piece.text) := by
  intro text ts
  have hread : ts = (ts.1, none) := Prod.ext rfl (by decide +kernel)
  exact ⟨congrArg Prod.snd hread, by decide +kernel, tokens_lossless hread⟩

end Sm83
