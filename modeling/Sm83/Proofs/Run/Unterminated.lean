import Sm83.Proofs.Run.Places

/-!
# Blocks without an end

A body that is never closed is reported on the line that the cursor stands on when the body is asked
for. For a macro that is the line of its word. A repetition has read the end of its line by then, so
the line that is named and shown is the one behind it.
-/

namespace Sm83

theorem Run.fails_of_parse {source : Source} {state : State} {f : Failure} {r : Run}
    (h : Run.parse source state = .error f r) : r.Fails source.text f := by
  have hkeeps := Step.keeps_parse Step.modest_pure _
    (Step.ready_start source state (.empty 100 false))
  have hparse : Step.parse (fun _ => pure ()) (.start source state (.empty 100 false)) =
      .error f r := h
  rw [hparse] at hkeeps
  exact hkeeps

theorem Step.onward_of_expression {r r₁ r₂ : Run} {t : Token} {e : Expr}
    (he : Step.expression r = .ok e r₁) (hpeek : Step.peek r₁ = .ok t r₂) :
    r.stream.Onward r₂.stream := by
  have hexpression : Step.Woven .free (fun _ => true) Step.expression _ := Step.woven_expression
  have hnext : Step.Woven .free (fun _ => true) Step.peek _ := Step.woven_peek
  exact (hexpression.onward he).trans (hnext.onward hpeek)

theorem Step.line_le_of_expression {r r₁ r₂ : Run} {word newline : Token} {count : Expr}
    (hordered : r.stream.Ordered) (hword : r.stream.Takes word)
    (hcount : Step.expression r = .ok count r₁) (hpeek : Step.peek r₁ = .ok newline r₂) :
    word.line ≤ newline.line := by
  rcases (Step.onward_of_expression hcount hpeek).ordered hordered with ⟨hordered₂, _, hpassed⟩
  rcases Reading.buffer_of_peek (Step.reading_eq_ok hpeek) with ⟨rest, hbuffer⟩
  calc word.line = r.stream.passed := by rw [Stream.passed, hword.previous]; rfl
    _ ≤ r₂.stream.passed := hpassed
    _ ≤ r₂.stream.here := hordered₂.behind
    _ = newline.line := by rw [Stream.here, hbuffer]

/-- A block without an end is reported, with the text of the line, on the line of the word that
opens the body of a macro. Of a repetition it is reported on the line behind the newline that ends
the count, and so never on the line of its word. The word, the count and the newline are the last
that the run has read. -/
theorem Run.unterminated_block_place {text file closing : String} {state : State} {e : Error}
    {r : Run} (h : Run.parse (.ofText text file) state = .error (.error e) r)
    (hcause : e.cause = .lexical (.unterminatedBlock closing)) :
    (closing = Directive.macroEnd.word ∧ ∃ word : Token, r.stream.previous = some word ∧
      word.lexeme = .keyword Directive.macroStart.word ∧
      e.location = some ⟨file, word.line, 1⟩ ∧
      e.sourceLine = (Source.ofText text file).line? word.line) ∨
    (closing = Directive.repeatEnd.word ∧
      ∃ (word newline : Token) (count : Expr) (r₁ r₂ r₃ : Run), r₁.stream.previous = some word ∧
        r₁.stream.history.head? = some (.consumed .code word) ∧
        word.lexeme = .keyword Directive.repeatStart.word ∧ Step.expression r₁ = .ok count r₂ ∧
        Step.peek r₂ = .ok newline r₃ ∧ newline.lexeme = .newline ∧
        r₁.stream.history <:+ r.stream.history ∧ r₃.stream.history <:+ r.stream.history ∧
        r.stream.previous = some newline ∧ word.line ≤ newline.line ∧
        e.location = some ⟨file, newline.line + 1, 1⟩ ∧
        e.sourceLine = (Source.ofText text file).line? (newline.line + 1)) := by
  rcases reached_of_parse_error h with ⟨r₀, hr₀, hline⟩
  rcases hr₀.error_place hline with ⟨l, hl, hfile, _, _, _, hsource⟩
  have hshown : e.sourceLine = (Source.ofText text file).line? l.line := by
    rw [hsource, hcause]
    rfl
  rcases fails_of_parse h with ⟨word, ⟨_, hordinary⟩ | ⟨_, hopener, hblock⟩⟩
  · -- every other failure has an ordinary cause, and an open block is none
    have hordinary : e.cause.isOrdinary = true := hordinary
    rw [hcause] at hordinary
    cases hordinary
  · cases hblock
    cases hl
    cases hcause
    have hfile : r.stream.source.file = file := hfile
    rw [hfile] at hshown ⊢
    cases hopener with
    | definition last opens line =>
      rw [line] at hshown ⊢
      exact .inl ⟨rfl, _, last, opens, rfl, hshown⟩
    | repetition ordered first opens hcount hpeek ends last tied line =>
      rw [line] at hshown ⊢
      have honward := Step.onward_of_expression hcount hpeek
      exact .inr ⟨rfl, _, _, _, _, _, _, first.previous, first.history, opens, hcount, hpeek, ends,
        honward.history.trans tied, tied, last, Step.line_le_of_expression ordered first hcount
          hpeek,
        rfl, hshown⟩

/-- The word of a macro is followed by a comment and a body without an end. -/
theorem Run.unterminated_block_place_macro : ∃ e r word,
    Run.parse (.ofText "nop\nm: MACRO ; twice\n nop\nrept\nendr\n" "f.asm") (.fresh false) =
      .error (.error e) r ∧
      e.cause = .lexical (.unterminatedBlock "endm") ∧ r.stream.previous = some word ∧
      word.lexeme = .keyword "macro" ∧ e.location = some ⟨"f.asm", word.line, 1⟩ ∧
      e.sourceLine = some "m: MACRO ; twice" := by
  have hfails : Outcome.failsWith (fun e => e.cause == .lexical (.unterminatedBlock "endm") &&
      e.location == some ⟨"f.asm", 2, 1⟩)
      (Run.parse (.ofText "nop\nm: MACRO ; twice\n nop\nrept\nendr\n" "f.asm") (.fresh false)) =
        true := by
    decide +kernel
  rcases Outcome.exists_of_failsWith hfails with ⟨e, r, hparse, htest⟩
  simp only [Bool.and_eq_true, beq_iff_eq] at htest
  rcases unterminated_block_place hparse htest.1 with
    ⟨_, word, hlast, hword, hlocation, hline⟩ | ⟨hother, _⟩
  · have htwo : (2 : Int) = word.line := by simpa [htest.2] using hlocation
    rw [← htwo] at hline
    exact ⟨e, r, word, hparse, htest.1, hlast, hword, hlocation, hline.trans (by decide +kernel)⟩
  · exact absurd hother (by decide)

/-- A repetition on the first line is reported on the second. -/
theorem Run.unterminated_repetition_behind : ∃ e r,
    Run.parse (.ofText "rept 2\nnop\n" "<input>") (.fresh false) = .error (.error e) r ∧
      e.cause = .lexical (.unterminatedBlock "endr") ∧
      (Source.ofText "rept 2\nnop\n" "<input>").tokens.1.head? =
        some ⟨.keyword "rept", 1, 1, .normal⟩ ∧
      e.location = some ⟨"<input>", 2, 1⟩ ∧ e.sourceLine = some "nop" := by
  have hfails : Outcome.failsWith (fun e => e.cause == .lexical (.unterminatedBlock "endr") &&
      e.location == some ⟨"<input>", 2, 1⟩ && e.sourceLine == some "nop")
      (Run.parse (.ofText "rept 2\nnop\n" "<input>") (.fresh false)) = true := by
    decide +kernel
  rcases Outcome.exists_of_failsWith hfails with ⟨e, r, hparse, htest⟩
  simp only [Bool.and_eq_true, beq_iff_eq] at htest
  exact ⟨e, r, hparse, htest.1.1, by decide +kernel, htest.1.2, htest.2⟩

end Sm83
