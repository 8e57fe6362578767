import Sm83.Proofs.Run.Reached
import Sm83.Proofs.Token.Places

/-!
# Errors of a line

The constructs of a line give the errors inside them a place, and the line itself is the last of
these constructs. So an error that leaves the reading of a source has a place, on the line that is
being read or behind it, and is shown with the text there unless its cause omits it.
-/

namespace Sm83

open Outcome

theorem Error.location_locate_some (e : Error) (l : Location) (line : Option String) :
    (e.locate (some l) line).location = e.location.or (some l) := by
  cases hlocation : e.location with
  | none => rw [location_locate hlocation, Option.none_or]
  | some l' => rw [locate_of_located hlocation, hlocation, Option.some_or]

theorem Text.toList_prefix_join (separator part : String) (parts : List String) :
    part.toList <+: (Text.join separator (part :: parts)).toList := by
  cases parts with
  | nil => simp [Text.join]
  | cons part' parts =>
    rw [Text.join, String.intercalate_cons_cons, String.append_assoc, String.toList_append]
    exact List.prefix_append _ _

theorem Error.render_located {e : Error} {l : Location} (h : e.location = some l) :
    (l.render ++ ": error: " ++ e.cause.message).toList <+: e.render.toList := by
  simp only [render, h, List.cons_append]
  exact Text.toList_prefix_join _ _ _

namespace Step

variable {α β γ : Type}

/-- The step `y`, run from `r`, comes to running `x` from `u`, inside constructs that give errors
the listed places, the innermost first. -/
inductive Inside (x : Step β) (u : Run) : {α : Type} → Step α → Run → List Location → Prop
  | here : Inside x u x u []
  | first {α γ : Type} {y : Step α} {r : Run} {places : List Location} (k : α → Step γ)
      (h : Inside x u y r places) : Inside x u (y >>= k) r places
  | next {α γ : Type} {y : Step α} {k : α → Step γ} {a : α} {r r' : Run} {places : List Location}
      (hy : y r = .ok a r') (h : Inside x u (k a) r' places) : Inside x u (y >>= k) r places
  | located {α : Type} {y : Step α} {r : Run} {places : List Location} (t : Token)
      (h : Inside x u y r places) :
      Inside x u (located t y) r (places ++ [r.stream.source.locate t])

variable {x : Step β} {y : Step α} {u r r' : Run} {t : Token} {e : Error} {places : List Location}

theorem located_error (h : y r = .error (.error e) r') (t : Token) :
    located t y r = .error (.error (e.locate (some (r.stream.source.locate t))
      (r.stream.source.line? t.line))) r' := by
  show locatedAt _ _ y r = _
  simp only [locatedAt, h]

theorem Inside.map (f : α → γ) (h : Inside x u y r places) : Inside x u (f <$> y) r places := by
  rw [map_eq_pure_bind]
  exact h.first _

theorem Inside.error (h : Inside x u y r places) (hx : x u = .error (.error e) r') :
    ∃ e', y r = .error (.error e') r' ∧ e'.cause = e.cause ∧
      e'.location = e.location.or places.head? := by
  -- from the failing part outwards, one construct at a time
  induction h with
  | here => exact ⟨e, hx, rfl, by simp⟩
  | first k _ ih =>
    rcases ih with ⟨e', he', hplace⟩
    exact ⟨e', run_bind_of_error he' k, hplace⟩
  | next hy _ ih =>
    rcases ih with ⟨e', he', hplace⟩
    exact ⟨e', (run_bind_of_ok hy _).trans he', hplace⟩
  | located t _ ih =>
    rcases ih with ⟨e', he', hcause, hlocation⟩
    refine ⟨_, located_error he' t, by simpa using hcause, ?_⟩
    -- the place of this construct is the last to be tried
    rw [Error.location_locate_some, hlocation, Option.or_assoc, List.head?_append]
    rfl

variable {r₁ : Run}

theorem inside_nextLine (hpeek : peek r = .ok t r₁) (ht : t.isEnd = false)
    (h : Inside x u line r₁ places) :
    Inside x u nextLine r (places ++ [r₁.stream.source.locate t]) := by
  refine .next hpeek ?_
  rw [ht]
  exact (h.located t).map some

theorem inside_constant {r₂ : Run} {e : Expr} (hpeek : peek r = .ok t r₁)
    (hread : expression r₁ = .ok e r₂) :
    Inside (ofExcept (e.constant r₂.state.resolver)) r₂ constant r [r₂.stream.source.locate t] :=
  .next hpeek (.next hread (.next rfl (.located t .here)))

theorem inside_reservation (hword : advance r = .ok t r₁) (h : Inside x u constant r₁ places) :
    Inside x u (data .ds) r (places ++ [r₁.stream.source.locate t]) :=
  .next hword (.first _ (.located t (.first _ h)))

theorem inside_count {t' : Token} {rest : List Token} {s₁ s₂ : Stream} {count : Expr}
    (hbuffer : r.stream.buffer = t :: rest) (ht : t.lexeme = .keyword "ds")
    (hpeek : Reading.peek (r.stream.consume .code t rest) = .ok t' s₁)
    (hread : Expr.read r.state.qualify s₁ = .ok count s₂) :
    ∃ u, Inside (ofExcept (count.constant r.state.resolver)) u line r
      [s₂.source.locate t', r.stream.source.locate t] := by
  have hagain : ∀ r' : Run, r'.stream = r.stream → peek r' = .ok t (r'.follow r'.stream) :=
    fun r' hr' => peek_buffered (hr' ▸ hbuffer)
  -- the line, its body and the directive look at the same word
  let r₃ := ((r.follow r.stream).follow r.stream).follow r.stream
  have hword : advance r₃ = .ok t (r₃.follow (r.stream.consume .code t rest)) :=
    advanceAs_buffered (r := r₃) hbuffer .code
  let r₄ := r₃.follow (r.stream.consume .code t rest)
  have hfirst : peek r₄ = .ok t' (r₄.follow s₁) := by
    simp only [peek, reading, show r₄.stream = r.stream.consume .code t rest from rfl, hpeek]
  have hcount : expression (r₄.follow s₁) = .ok count ((r₄.follow s₁).follow s₂) := by
    show reading (Expr.read r.state.qualify) (r₄.follow s₁) = _
    simp only [reading, show (r₄.follow s₁).stream = s₁ from rfl, hread]
  have hdata := inside_reservation hword (inside_constant hfirst hcount)
  refine ⟨(r₄.follow s₁).follow s₂, .next (hagain r rfl) ?_⟩
  rw [ht]
  refine .next (hagain _ rfl) ?_
  rw [ht]
  exact .first _ (.next (hagain _ rfl) hdata)

theorem peek_error {f : Failure} (h : peek r = .error f r') :
    r.stream.cursor.next r.stream.source r.stream.register.commit.current = .error f := by
  simp only [peek, reading] at h
  cases hbuffer : r.stream.buffer with
  | cons t rest =>
    rw [Reading.peek_buffered hbuffer] at h
    cases h
  | nil =>
    have hopen : r.stream.atEnd = false := by simp [Stream.atEnd, hbuffer]
    rw [Reading.peek, Reading.peekAt_fresh (by simp [hbuffer]) hopen] at h
    cases hnext : r.stream.cursor.next r.stream.source r.stream.register.commit.current with
    | ok p =>
      rw [hnext] at h
      cases h
    | error f' =>
      rw [hnext] at h
      cases h
      rfl

theorem located_eq_error (h : located t y r = .error (.error e) r') :
    ∃ e₀ : Error, e = e₀.locate (some (r.stream.source.locate t))
      (r.stream.source.line? t.line) := by
  change locatedAt _ _ y r = _ at h
  unfold locatedAt at h
  split at h
  · next e₀ _ _ =>
    cases h
    exact ⟨e₀, rfl⟩
  · next hother =>
    exact absurd h (hother e r')

theorem nextLine_error_cases (h : nextLine r = .error (.error e) r') :
    peek r = .error (.error e) r' ∨
      ∃ t r₁, peek r = .ok t r₁ ∧ located t line r₁ = .error (.error e) r' := by
  cases hpeek : peek r with
  | error f r₁ =>
    cases (run_bind_of_error hpeek _).symm.trans h
    exact .inl rfl
  | ok t r₁ =>
    refine .inr ⟨t, r₁, rfl, ?_⟩
    have hrest := (run_bind_of_ok hpeek _).symm.trans h
    cases ht : t.isEnd with
    | true =>
      rw [ht] at hrest
      cases hrest
    | false =>
      rw [ht] at hrest
      have hmap : (some <$> located t line) r₁ = .error (.error e) r' := hrest
      rw [map_eq_pure_bind] at hmap
      cases hlocated : located t line r₁ with
      | ok ss u => cases (run_bind_of_ok hlocated _).symm.trans hmap
      | error f u =>
        cases (run_bind_of_error hlocated _).symm.trans hmap
        rfl

theorem location_of_nextLine_error (h : nextLine r = .error (.error e) r') :
    ∃ l, e.location = some l := by
  rcases nextLine_error_cases h with hpeek | ⟨t, r₁, _, hlocated⟩
  · rcases Cursor.next_error (peek_error hpeek) with ⟨c, column, fault, _, herror⟩
    cases herror
    exact ⟨_, rfl⟩
  · rcases located_eq_error hlocated with ⟨e₀, rfl⟩
    rw [Error.location_locate_some]
    cases e₀.location <;> simp

theorem nextLine_error_standsIn {text file : String} {b : Nat}
    (hr : r.stream.From (.ofText text file) b) (h : nextLine r = .error (.error e) r') :
    ∃ b', b ≤ b' ∧ e.StandsIn (.ofText text file) b' ∧ ∀ t r₁, peek r = .ok t r₁ → t.line ≤ b' := by
  have hpeeked := (woven_peek : Woven (.places (.ofText text file) b) (fun _ => true) _ _).watched
  rcases nextLine_error_cases h with hpeek | ⟨t, r₁, hpeek, hlocated⟩
  · refine ⟨b, Nat.le_refl b, hpeeked.of_error ⟨hr, trivial⟩ hpeek, ?_⟩
    intro t r₁ hok
    rw [hpeek] at hok
    cases hok
  · -- from the first token on, nothing that stands before it is met
    rcases hpeeked.of_ok ⟨hr, trivial⟩ hpeek with ⟨⟨hr₁, _⟩, ht⟩
    rcases Reading.buffer_of_peek (reading_eq_ok hpeek) with ⟨rest, hbuffer⟩
    have hfrom := hr₁.of_next hbuffer
    have hwatched : Woven (.places (.ofText text file) t.line) (fun _ => true) (located t line) _ :=
      woven_line.located ⟨Nat.le_refl t.line, ht.2⟩
    refine ⟨t.line, ht.1, hwatched.watched.of_error ⟨hfrom, trivial⟩ hlocated, ?_⟩
    intro t' r₁' hok
    rw [hpeek] at hok
    cases hok
    exact Nat.le_refl _

end Step

namespace Run

variable {text file : String} {state : State} {r r' : Run} {e : Error}

theorem Reached.from_start (hr : Reached (.ofText text file) state r) :
    r.stream.From (.ofText text file) 1 :=
  (hr.watched (w := .places (.ofText text file) 1) ⟨.start _, trivial⟩).1

theorem Reached.error_place (hr : Reached (.ofText text file) state r)
    (h : Step.nextLine r = .error (.error e) r') :
    ∃ l, e.location = some l ∧ l.file = file ∧ 1 ≤ l.line ∧
      l.line ≤ (Source.ofText text file).lines.length ∧
      (∀ t r₁, Step.peek r = .ok t r₁ → t.line ≤ l.line) ∧
      e.sourceLine = if e.cause.omitsLine then none else (Source.ofText text file).line?
        l.line := by
  rcases Step.nextLine_error_standsIn hr.from_start h with ⟨b, hb, hstands, hfirst⟩
  rcases Step.location_of_nextLine_error h with ⟨l, hl⟩
  simp only [Error.StandsIn, hl] at hstands
  rcases hstands with ⟨hfile, hlow, hhigh, hline⟩
  refine ⟨l, hl, hfile, by omega, hhigh, ?_, hline⟩
  intro t r₁ hpeek
  have ht := hfirst t r₁ hpeek
  omega

/-- Every error of a source has a place on a line of it, and the text of this line, unless the cause
is one of those that omit it: a token that an expression cannot have, a call with a wrong number of
arguments, a repetition without a line end, and a name that is taken. -/
theorem errors_shown (text file : String) (state : State) (e : Error) (r : Run)
    (h : Run.parse (.ofText text file) state = .error (.error e) r) :
    ∃ l line, e.location = some l ∧ 1 ≤ l.line ∧
      (Source.ofText text file).lines[(l.line - 1).toNat]? = some line ∧
      e.sourceLine = if e.cause.omitsLine then none else some line := by
  rcases reached_of_parse_error h with ⟨r₀, hr₀, hline⟩
  rcases hr₀.error_place hline with ⟨l, hl, _, hlow, hhigh, _, hsource⟩
  rcases Source.line?_eq_some hlow hhigh with ⟨line, hshown⟩
  rw [hshown] at hsource
  rw [Source.line?, if_pos hlow] at hshown
  exact ⟨l, line, hl, hlow, hshown, hsource⟩

/-- An operand that an instruction does not take is shown with its line. -/
theorem errors_shown_operand : ∃ e r,
    Run.parse (.ofText "nop\r\n ld 5, a" "f.asm") (.fresh false) = .error (.error e) r ∧
    e.location = some ⟨"f.asm", 2, 2⟩ ∧ e.sourceLine = some " ld 5, a" := by
  have hfails :
    failsWith (fun e => e.location == some ⟨"f.asm", 2, 2⟩ && !e.cause.omitsLine)
      (Run.parse (.ofText "nop\r\n ld 5, a" "f.asm") (.fresh false)) = true := by
    decide +kernel
  rcases exists_of_failsWith hfails with ⟨e, r, hparse, htest⟩
  simp only [Bool.and_eq_true, beq_iff_eq, Bool.not_eq_true'] at htest
  rcases errors_shown _ _ _ e r hparse with ⟨l, line, hl, _, hline, hsource⟩
  rw [htest.1] at hl
  cases hl
  have htext : (Source.ofText "nop\r\n ld 5, a" "f.asm").lines[1]? = some " ld 5, a" := by
    decide +kernel
  cases hline.symm.trans htext
  rw [htest.2] at hsource
  exact ⟨e, r, hparse, htest.1, hsource⟩

/-- A parenthesis where an expression is to start has a place, but is shown without its line. -/
theorem stray_parenthesis_without_line : ∃ e r,
    Run.parse (.ofText "db )" "<input>") (.fresh false) = .error (.error e) r ∧
    e.location = some ⟨"<input>", 1, 4⟩ ∧ e.sourceLine = none := by
  have hfails :
    failsWith (fun e => e.location == some ⟨"<input>", 1, 4⟩ && e.sourceLine == none)
      (Run.parse (.ofText "db )" "<input>") (.fresh false)) = true := by
    decide +kernel
  rcases exists_of_failsWith hfails with ⟨e, r, hparse, htest⟩
  simp only [Bool.and_eq_true, beq_iff_eq] at htest
  exact ⟨e, r, hparse, htest⟩

/-- Every error of a source has a place in its file, on the line being read or behind it, which is
shown first. An error that arises inside a line leaves the reading with the place that it has, and
without one with that of the innermost construct around it, of which the line is the outermost. -/
theorem errors_located (text file : String) (state : State) :
    (∀ e r, Run.parse (.ofText text file) state = .error (.error e) r →
      ∃ r₀ l, Reached (.ofText text file) state r₀ ∧ Step.nextLine r₀ = .error (.error e) r ∧
        e.location = some l ∧ l.file = file ∧ 1 ≤ l.line ∧
        l.line ≤ (Source.ofText text file).lines.length ∧
        (∀ t r₁, Step.peek r₀ = .ok t r₁ → t.line ≤ l.line) ∧
        (l.render ++ ": error: " ++ e.cause.message).toList <+: e.render.toList) ∧
    ∀ {β : Type} (x : Step β) (r₀ r₁ u r : Run) (t : Token) (places : List Location) (e : Error),
      Reached (.ofText text file) state r₀ → Step.peek r₀ = .ok t r₁ → t.isEnd = false →
      Step.Inside x u Step.line r₁ places → x u = .error (.error e) r →
      ∃ e', Run.parse (.ofText text file) state = .error (.error e') r ∧ e'.cause = e.cause ∧
        e'.location = e.location.or (places ++ [(Source.ofText text file).locate t]).head? := by
  constructor
  · intro e r h
    rcases reached_of_parse_error h with ⟨r₀, hr₀, hline⟩
    rcases hr₀.error_place hline with ⟨l, hl, hfile, hlow, hhigh, hfirst, _⟩
    exact ⟨r₀, l, hr₀, hline, hl, hfile, hlow, hhigh, hfirst, Error.render_located hl⟩
  · intro β x r₀ r₁ u r t places e hr₀ hpeek ht hinside hx
    rcases (Step.inside_nextLine hpeek ht hinside).error hx with ⟨e', hnext, hcause, hlocation⟩
    -- the place of the line is given by the source that the run reads
    have hwatched : Step.Woven (.places (.ofText text file) 1) (fun _ => true) Step.peek _ :=
      Step.woven_peek
    rw [(hwatched.watched.of_ok ⟨hr₀.from_start, trivial⟩ hpeek).1.1.reads] at hlocation
    exact ⟨e', parse_error_of_reached hr₀ hnext, hcause, hlocation⟩

/-- The second line fails inside the construct of the count, that of the word before it and its own.
-/
theorem errors_located_division : ∃ r₀ r₁ u r t e,
    Reached (.ofText "nop\n ds 1 / 0" "f.asm") (.fresh false) r₀ ∧
    Step.peek r₀ = .ok t r₁ ∧ t.isEnd = false ∧
    Step.Inside (Step.ofExcept (.error (.expression .divisionByZero)) : Step Int) u Step.line r₁
      [⟨"f.asm", 2, 5⟩, ⟨"f.asm", 2, 2⟩] ∧
    Run.parse (.ofText "nop\n ds 1 / 0" "f.asm") (.fresh false) = .error (.error e) r ∧
    e.location = some ⟨"f.asm", 2, 5⟩ ∧
      "f.asm:2:5: error: division by zero".toList <+: e.render.toList := by
  -- one line has been read; then come the word, the start of the count, and all of the count
  have hprobe : endsWith (fun o u => o.isSome &&
      endsWith (fun t r₁ => t.lexeme == .keyword "ds" &&
        r₁.stream.source.locate t == ⟨"f.asm", 2, 2⟩ &&
        endsWith (fun t' s₁ =>
          endsWith (fun e s₂ => s₂.source.locate t' == ⟨"f.asm", 2, 5⟩ &&
            e == .binary .div (.literal 1) (.literal 0)) (Expr.read r₁.state.qualify s₁))
          (Reading.peek (r₁.stream.consume .code t r₁.stream.buffer.tail)))
        (Step.peek { u with statements := u.statements ++ o.getD [] }))
      (Step.nextLine
        (.start (.ofText "nop\n ds 1 / 0" "f.asm") (.fresh false) (.empty 100 false))) = true := by
    decide +kernel
  simp only [endsWith_iff, Bool.and_eq_true, beq_iff_eq, Option.isSome_iff_exists] at hprobe
  rcases hprobe with
    ⟨_, u, hline, ⟨ss, rfl⟩, t, r₁, hpeek, ⟨ht, hword⟩, t', s₁, hpeek', e, s₂, hread, hcount, rfl⟩
  rcases Reading.buffer_of_peek (Step.reading_eq_ok hpeek) with ⟨rest, hbuffer⟩
  rw [hbuffer] at hpeek'
  rcases Step.inside_count hbuffer ht hpeek' hread with ⟨v, hinside⟩
  rw [hcount, hword] at hinside
  have hend : t.isEnd = false := by simp [Token.isEnd, ht]
  have hreached : Reached _ _ _ := .line .start hline
  rcases errors_located "nop\n ds 1 / 0" "f.asm" (.fresh false) with ⟨hplaced, hlaw⟩
  rcases hlaw _ _ _ _ _ _ _ _ hreached hpeek hend hinside rfl with ⟨e, hparse, hcause, hlocation⟩
  refine ⟨_, r₁, v, v, t, e, hreached, hpeek, hend, hinside, hparse, hlocation, ?_⟩
  rcases hplaced e v hparse with ⟨_, l, _, _, hl, _, _, _, _, hshown⟩
  rw [hlocation] at hl
  cases hl
  rw [hcause] at hshown
  exact hshown

end Run

end Sm83
