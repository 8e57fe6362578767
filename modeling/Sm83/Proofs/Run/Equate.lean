import Sm83.Proofs.Run.Operands
import Sm83.Proofs.Run.Operates
import Sm83.Proofs.Run.Sequence
import Sm83.Proofs.Token.Written

/-!
# The line that defines a constant

A line with a name and a definer goes as the definer goes. One with the word `equ` and a written
number defines the name as a constant with this number. Whatever lines follow it, the line is read
as if it stood alone, and the source can be read further exactly if the name can be defined.
-/

namespace Sm83

open Outcome Word Step

variable {name text : String} {base n : Nat}

namespace Step

variable {definer : Definer} {name : String} {v : Int} {t : Token} {l : Location} {r g u w : Run}
  {x : Symbol}

theorem located_fails {α : Type} {y : Step α} {f : Failure} (t : Token) (h : y r = .error f u) :
    ∃ f', located t y r = .error f' u := by
  show ∃ f', locatedAt _ _ y r = .error f' u
  unfold locatedAt
  rw [h]
  cases f with
  | error e => exact ⟨_, rfl⟩
  | _ => exact ⟨_, rfl⟩

theorem definer?_word : ∀ d ∈ Definer.words, definer? (.keyword d.word) = some d := by decide

theorem lexeme_of_definer? {s : Lexeme} (h : definer? s = some definer) :
    s = .punct .equals ∨ ∃ w, s = .keyword w ∧ w ≠ Directive.macroStart.word := by
  cases s with
  | keyword w =>
    refine .inr ⟨w, rfl, ?_⟩
    rintro rfl
    cases h
  | punct p =>
    cases p with
    | equals => exact .inl rfl
    | _ => cases h
  | _ => cases h

theorem ne_eof_of_definer? {s : Lexeme} (h : definer? s = some definer) : s ≠ .eof := by
  rintro rfl
  cases h

/-- A run that reads normal tokens, from a cursor on behind those that it has read ahead. -/
structure Rests (source : Source) (c : Cursor) (ahead : List Token) (r : Run) : Prop where
  source : r.stream.source = source
  cursor : r.stream.cursor = c
  buffer : r.stream.buffer = ahead
  normal : r.stream.register.commit.current = .normal

namespace Rests

variable {source : Source} {c c' : Cursor}

theorem peek_fresh (h : Rests source c [] r) (hnext : c.next source .normal = .ok (t, c')) :
    ∃ r', peek r = .ok t r' ∧ Rests source c' [t] r' := by
  have hread : r.stream.cursor.next r.stream.source r.stream.register.commit.current =
      .ok (t, c') := by
    rw [h.source, h.cursor, h.normal, hnext]
  refine ⟨_, reading_of_ok (Reading.peek_fresh h.buffer hread), h.source, rfl, rfl, ?_⟩
  show r.stream.register.commit.commit.current = _
  rw [Register.commit_commit, h.normal]

theorem peek_again (h : Rests source c [t] r) : ∃ r', peek r = .ok t r' ∧ Rests source c [t] r' :=
  ⟨_, peek_buffered h.buffer, h.source, h.cursor, h.buffer, h.normal⟩

theorem advance (h : Rests source c [t] r) (ht : t.lexeme ≠ .eof) :
    ∃ r', advance r = .ok t r' ∧ Rests source c [] r' := by
  refine ⟨_, advanceAs_buffered h.buffer .code, h.source, h.cursor, ?_, h.normal⟩
  simp [Run.follow, Run.note, Stream.consume, Token.isEnd_eq_false ht]

theorem peek_error (h : Rests source c [] r) {f : Failure}
    (hnext : c.next source .normal = .error f) : ∃ r', peek r = .error f r' := by
  have hread : r.stream.cursor.next r.stream.source r.stream.register.commit.current =
      .error f := by
    rw [h.source, h.cursor, h.normal, hnext]
  have hpeek : ∃ s', Reading.peek r.stream = .error f s' := Reading.peek_error h.buffer hread
  rcases hpeek with ⟨s', hpeek⟩
  exact ⟨_, by simp only [peek, reading, hpeek]; rfl⟩

end Rests

/-- A run that finds a name and a definer at the start of a line. The name is the token `t` at the
place `l`, and the run gets to `g` behind the definer. -/
inductive Heads (definer : Definer) (name : String) (t : Token) (l : Location) (r g : Run) : Prop
  | intro {word : Token} {a b c d f : Run}
    (first : peek r = .ok t a) (label : t.lexeme = .label name)
    (again : peek a = .ok t b) (taken : advance b = .ok t c)
    (next : peek c = .ok word d) (spelled : definer? word.lexeme = some definer)
    (still : peek d = .ok word f) (passed : discard advance f = .ok () g)
    (place : l = g.stream.source.locate t)

namespace Heads

/-- A line with a definer goes as the definer goes. -/
theorem line_eq (h : Heads definer name t l r g) : ∃ a, peek r = .ok t a ∧ t.isEnd = false ∧
    line a = (do
      let symbol ← located t (defineBy definer name (some l))
      endLine
      pure [⟨l, .symbol symbol.name symbol.kind symbol.value definer⟩] : Step (List Statement))
        g := by
  rcases h with
    @⟨word, a, b, c, d, f, first, label, again, taken, next, spelled, still, passed, rfl⟩
  refine ⟨a, first, by simp [Token.isEnd, label], ?_⟩
  have hcolon : colon c = .ok none d := by
    show (peek >>= _) c = _
    rw [run_bind_of_ok next]
    rcases lexeme_of_definer? spelled with hl | ⟨w, hl, _⟩ <;>
      · rw [hl]
        rfl
  have hmacro : word.lexeme.isKeyword Directive.macroStart.word = false := by
    rcases lexeme_of_definer? spelled with hl | ⟨w, hl, hne⟩
    · simp [hl, Lexeme.isKeyword]
    · simpa [hl, Lexeme.isKeyword] using hne
  have hdefinition : definition t name d = (do
      let symbol ← located t (defineBy definer name (some (g.stream.source.locate t)))
      endLine
      pure ⟨g.stream.source.locate t, .symbol symbol.name symbol.kind symbol.value definer⟩ :
        Step Statement) g := by
    show (peek >>= _) d = _
    rw [run_bind_of_ok still, hmacro]
    simp only [spelled]
    show (discard advance >>= _) f = _
    rw [run_bind_of_ok passed]
    rfl
  show (peek >>= _) a = _
  rw [run_bind_of_ok again, label]
  show (advance >>= _) b = _
  rw [run_bind_of_ok taken]
  rw [run_bind_of_ok hcolon]
  simp only [bind, EStateM.bind] at hdefinition ⊢
  rw [hdefinition]
  cases located t (defineBy definer name (some (g.stream.source.locate t))) g with
  | error f r' => rfl
  | ok x r' =>
    dsimp only
    cases endLine r' with
    | error f r'' => rfl
    | ok _ r'' => rfl

theorem nextLine_ok (h : Heads definer name t l r g)
    (hdefine : defineBy definer name (some l) g = .ok x u) (hend : endLine u = .ok () w) :
    nextLine r = .ok (some [⟨l, .symbol x.name x.kind x.value definer⟩]) w := by
  rcases h.line_eq with ⟨a, first, hopen, hline⟩
  rw [run_bind_of_ok (located_of_ok t hdefine), run_bind_of_ok hend] at hline
  exact (nextLine_eq_ok_iff first hopen).mpr hline

theorem nextLine_error (h : Heads definer name t l r g) {f : Failure}
    (hdefine : defineBy definer name (some l) g = .error f u) : ∃ f, nextLine r = .error f u := by
  rcases h.line_eq with ⟨a, first, hopen, hline⟩
  rcases located_fails t hdefine with ⟨f', hrefused⟩
  rw [run_bind_of_error hrefused] at hline
  rcases located_fails t hline with ⟨f'', hlocated⟩
  refine ⟨f'', ?_⟩
  show (peek >>= _) r = _
  rw [run_bind_of_ok first]
  simp only [hopen]
  show EStateM.map some (located t line) a = _
  unfold EStateM.map
  rw [hlocated]

theorem follow {e : Frame} {m : Nat} {r' : Run} (h : Heads definer name t l r g)
    (hat : Run.At e .normal m true [] r r') :
    ∃ l' g', Heads definer name (e.token t) l' r' g' ∧ ∃ k, Run.At e .normal k false [] g g' := by
  rcases h with
    @⟨word, a, b, c, d, f, first, label, again, taken, next, spelled, still, passed, place⟩
  have hopen : t.isEnd = false := by simp [Token.isEnd, label]
  have hopen' : word.isEnd = false := Token.isEnd_eq_false (ne_eof_of_definer? spelled)
  -- one token after the other, as the line looks at them
  rcases follows_peek.of_ok hat first with ⟨_, a', first', rfl, hat⟩
  rcases follows_peek_again.of_ok hat again with ⟨_, b', again', ⟨_, rfl⟩, hat⟩
  rcases (follows_advance hopen).of_ok hat taken with ⟨_, c', taken', ⟨_, rfl⟩, hat⟩
  rcases follows_peek.of_ok hat next with ⟨_, d', next', rfl, hat⟩
  rcases follows_peek_again.of_ok hat still with ⟨_, f', still', ⟨_, rfl⟩, hat⟩
  rcases (follows_discard_advance hopen').of_ok hat passed with ⟨_, g', passed', _, hat⟩
  refine ⟨_, g', ⟨first', ?_, again', taken', next', ?_, still', passed', rfl⟩, _, hat.forget⟩
  · rw [Frame.lexeme_token_of_not_isEnd hopen, label]
  · rw [Frame.lexeme_token_of_not_isEnd hopen', spelled]

theorem of_delivers {word : Token} {ts : List Token} (ht : t.lexeme = .label name)
    (hword : definer? word.lexeme = some definer) (h : r.stream.Delivers (t :: word :: ts)) :
    ∃ l g, Heads definer name t l r g ∧ g.stream.Delivers ts ∧ g.state = r.state := by
  have hadvance : Runs advance (t :: word :: ts) t (word :: ts) :=
    .reading (.advance (Token.isEnd_eq_false (by simp [ht])) _)
  rcases Runs.peek t _ r h with ⟨a, first, ha, hsa⟩
  rcases Runs.peek t _ a ha with ⟨b, again, hb, hsb⟩
  rcases hadvance b hb with ⟨c, taken, hc, hsc⟩
  rcases Runs.peek word _ c hc with ⟨d, next, hd, hsd⟩
  rcases Runs.peek word _ d hd with ⟨f, still, hf, hsf⟩
  rcases Runs.discard (ne_eof_of_definer? hword) _ f hf with ⟨g, passed, hg, hsg⟩
  refine ⟨_, g, ⟨first, ht, again, taken, next, hword, still, passed, rfl⟩, hg, ?_⟩
  rw [hsg, hsf, hsd, hsc, hsb, hsa]

/-- The first two tokens make the head of a line, whatever comes behind them. -/
theorem of_rests {source : Source} {c c₁ c₂ : Cursor} {word : Token} (h : Rests source c [] r)
    (hfirst : c.next source .normal = .ok (t, c₁)) (ht : t.lexeme = .label name)
    (hnext : c₁.next source .normal = .ok (word, c₂))
    (hword : definer? word.lexeme = some definer) :
    ∃ l g, Heads definer name t l r g ∧ Rests source c₂ [] g := by
  rcases h.peek_fresh hfirst with ⟨r₁, first, h⟩
  rcases h.peek_again with ⟨r₂, again, h⟩
  rcases h.advance (by simp [ht]) with ⟨r₃, taken, h⟩
  rcases h.peek_fresh hnext with ⟨r₄, next, h⟩
  rcases h.peek_again with ⟨r₅, still, h⟩
  rcases h.advance (ne_eof_of_definer? hword) with ⟨g, passed, h⟩
  have passed' : discard advance r₅ = .ok () g := by
    show EStateM.map _ advance r₅ = _
    simp only [EStateM.map, passed]
  exact ⟨_, g, ⟨first, ht, again, taken, next, hword, still, passed', rfl⟩, h⟩

end Heads

/-- A run that finds a name, the word `equ` and a value at the start of a line, and gets to `u`
behind the value. -/
def Equates (name : String) (v : Int) (t : Token) (l : Location) (r u : Run) : Prop :=
  ∃ g, Heads .equ name t l r g ∧ constant g = .ok v u

namespace Equates

theorem nextLine_ok (h : Equates name v t l r u) {s : State}
    (hdefine : u.state.defineConstant name v false (some l) = .ok (x, s))
    (hend : endLine ({ u with state := s }.note (Event.ofDefinition u.state x)) = .ok () w) :
    nextLine r = .ok (some [⟨l, .symbol x.name x.kind x.value .equ⟩]) w := by
  rcases h with ⟨g, hheads, hvalue⟩
  refine hheads.nextLine_ok ?_ hend
  show (constant >>= fun value => define _) g = _
  rw [run_bind_of_ok hvalue, define_run, hdefine]

theorem nextLine_error (h : Equates name v t l r u) {e : Error}
    (hdefine : u.state.defineConstant name v false (some l) = .error e) :
    ∃ f, nextLine r = .error f u := by
  rcases h with ⟨g, hheads, hvalue⟩
  apply hheads.nextLine_error (f := .error e)
  show (constant >>= fun value => define _) g = _
  rw [run_bind_of_ok hvalue, define_run, hdefine]

theorem follow {e : Frame} {m : Nat} {r' : Run} (h : Equates name v t l r u)
    (hat : Run.At e .normal m true [] r r') :
    ∃ l' u', Equates name v (e.token t) l' r' u' ∧ ∃ k, Run.At e .normal k false [] u u' := by
  rcases h with ⟨g, hheads, hvalue⟩
  rcases hheads.follow hat with ⟨l', g', hheads', k, hat⟩
  rcases follows_constant.of_ok hat hvalue with ⟨_, u', hvalue', rfl, hat⟩
  exact ⟨l', u', ⟨g', hheads', hvalue'⟩, _, hat⟩

end Equates

theorem runs_constant_number {u : Token} (ht : t.lexeme = .number v) (hu : u.lexeme = .eof) :
    Runs constant [t, u] (wrap v) [u] := by
  have hderives : ∀ qualify, Expr.Derives qualify 0 [t] (.literal v) :=
    fun _ => Expr.Derives.mono (.number ht) (Nat.zero_le 8) (Nat.le_refl 8)
  have hstops : Expr.Stops 0 [u] := by simp [Expr.stops_cons_iff, hu, Expr.binding?]
  refine (Runs.peek t [u]).bind ?_
  refine (Runs.expression hderives hstops).bind ?_
  intro run hrun
  exact ⟨run, rfl, hrun, rfl⟩

theorem equates_of_delivers {word number last : Token} (ht : t.lexeme = .label name)
    (hword : word.lexeme = .keyword Definer.equ.word) (hnumber : number.lexeme = .number v)
    (hlast : last.lexeme = .eof) (h : r.stream.Delivers [t, word, number, last]) :
    ∃ l u, Equates name (wrap v) t l r u ∧ u.stream.Delivers [last] ∧ u.state = r.state := by
  rcases Heads.of_delivers ht (hword ▸ definer?_word .equ (by decide)) h with
    ⟨l, g, hheads, hg, hsg⟩
  rcases runs_constant_number hnumber hlast g hg with ⟨u, value, hu, hsu⟩
  exact ⟨l, u, ⟨g, hheads, value⟩, hu, hsu.trans hsg⟩

theorem endLine_delivers {last : Token} (hlast : last.lexeme = .eof)
    (h : r.stream.Delivers [last]) :
    ∃ w, endLine r = .ok () w ∧ w.state = r.state ∧ w.stream.buffer ≠ [] := by
  rcases Reading.peek_of_delivers h with ⟨stream, hstream, _, hbuffer⟩
  have hpeek : peek r = .ok last (r.follow stream) := by
    simp only [peek, reading, hstream]
  refine ⟨r.follow stream, ?_, rfl, ?_⟩
  · show (peek >>= _) r = _
    rw [run_bind_of_ok hpeek, hlast]
    rfl
  · intro hempty
    rw [show (r.follow stream).stream = stream from rfl] at hempty
    rw [hempty] at hbuffer
    cases hbuffer

end Step

theorem head_ne_star (hname : isGlobalName name = true) (rest : List Char) :
    ((name.toList ++ rest).dropWhile isBlank).head? ≠ some '*' := by
  rcases headIs_iff.mp (parts_of_isGlobalName hname).1 with ⟨c, cs, hcs, hc⟩
  rw [hcs, List.cons_append, List.dropWhile_cons_of_neg (by simp [isBlank_of_isNameStart hc])]
  rintro ⟨⟩
  exact absurd hc (by decide)

theorem Lexes.definition {d : Definer} {cs : List Char} {ls : List Lexeme}
    (hname : isGlobalName name = true) (hdefiner : d ∈ Definer.words) (h : Lexes cs ls) :
    Lexes (name.toList ++ ' ' :: (d.word.toList ++ ' ' :: cs))
      (.label name :: .keyword d.word :: ls) := by
  have hall : ∀ d ∈ Definer.words, d.word ∈ Keyword.all := by decide
  have hrest : Lexes (' ' :: (d.word.toList ++ ' ' :: cs)) (.keyword d.word :: ls) :=
    .blank (.keyword (.of_mem (hall d hdefiner)) rfl (.blank h))
  have hdeclares : declares (' ' :: (d.word.toList ++ ' ' :: cs)) = true := by
    cases d with
    | assign => simp [Definer.words] at hdefiner
    | _ => rfl
  rcases parts_of_isGlobalName hname with ⟨hstart, hchars, hfree⟩
  refine .word hstart hchars (by simp) ?_ hrest
  rw [scan_word hstart hchars rfl, hfree, hdeclares]
  rfl

/-- A name, the word `equ` and a written number. -/
def equateLine (name text : String) : String :=
  name ++ " equ " ++ text

theorem equateLine_lexes (hname : isGlobalName name = true) {ls : List Lexeme}
    (h : Lexes text.toList ls) :
    Lexes (equateLine name text).toList (.label name :: .keyword Definer.equ.word :: ls) := by
  have hform : (equateLine name text).toList =
      name.toList ++ ' ' :: (Definer.equ.word.toList ++ ' ' :: text.toList) := by
    simp [equateLine, Definer.word]
  rw [hform]
  exact .definition hname (by decide) h

theorem equateLine_plain (hname : isGlobalName name = true) (h : Written base text.toList n)
    {c : Char} (hc : c ∈ (equateLine name text).toList) : c ≠ '\n' ∧ c ≠ '\r' ∧ c ≠ '\\' := by
  simp only [equateLine, String.toList_append, List.mem_append] at hc
  rcases hc with (hc | hc) | hc
  · have hchar := (parts_of_isGlobalName hname).2.1 c hc
    refine ⟨?_, ?_, ?_⟩ <;>
      · rintro rfl
        exact absurd hchar (by decide)
  · have hword : c = ' ' ∨ c = 'e' ∨ c = 'q' ∨ c = 'u' ∨ c = ' ' := by simpa using hc
    rcases hword with rfl | rfl | rfl | rfl | rfl <;> simp
  · have hplain := h.plain c hc
    exact ⟨hplain.newline, hplain.carriage, hplain.slash⟩

theorem equateLine_endsPlain (hname : isGlobalName name = true) (h : Written base text.toList n) :
    EndsPlain (equateLine name text).toList := by
  intro before after heq
  have hmem : '\\' ∈ (equateLine name text).toList := by simp [heq]
  exact absurd rfl (equateLine_plain hname h hmem).2.2

theorem equateLine_text (hname : isGlobalName name = true) (h : Written base text.toList n)
    (file : String) :
    (Source.ofText (equateLine name text) file).text = (equateLine name text).toList :=
  uniformLineEnds_eq_self fun hmem => (equateLine_plain hname h hmem).2.1 rfl

theorem equateLine_tokens (hname : isGlobalName name = true)
    (hlexes : Lexes text.toList [.number (wrap n)]) (file : String) :
    ∃ t word number last, (Source.ofText (equateLine name text) file).tokens =
        ([t, word, number, last], none) ∧ t.lexeme = .label name ∧
      word.lexeme = .keyword Definer.equ.word ∧ number.lexeme = .number (wrap n) ∧
      last.lexeme = .eof := by
  have hfirst : ((equateLine name text).toList.dropWhile isBlank).head? ≠ some '*' := by
    simp only [equateLine, String.toList_append, List.append_assoc]
    exact head_ne_star hname _
  rcases (equateLine_lexes hname hlexes).tokens file hfirst with ⟨ts, last, htokens, hts, hlast⟩
  rcases List.map_eq_cons_iff.mp hts with ⟨t, ts, rfl, ht, hts⟩
  rcases List.map_eq_cons_iff.mp hts with ⟨word, ts, rfl, hword, hts⟩
  rcases List.map_eq_cons_iff.mp hts with ⟨number, ts, rfl, hnumber, hts⟩
  rw [List.map_eq_nil_iff.mp hts] at htokens
  exact ⟨t, word, number, last, htokens, ht, hword, hnumber, hlast⟩

section

variable {name text : String} {base n : Nat} (hname : isGlobalName name = true)
  (h : Written base text.toList n)

include hname

theorem Run.start_equates (hlexes : Lexes text.toList [.number (wrap n)]) (file : String)
    (state : State) (diagnostics : Diagnostics) :
    ∃ t l u last,
      Step.Equates name (wrap n) t l
        (.start (.ofText (equateLine name text) file) state diagnostics) u ∧
      last.lexeme = .eof ∧ u.stream.Delivers [last] ∧ u.state = state := by
  rcases equateLine_tokens hname hlexes file with
    ⟨t, word, number, last, htokens, ht, hword, hnumber, hlast⟩
  have hdelivers := Stream.delivers_ofSource htokens
  rcases equates_of_delivers
    (r := .start (.ofText (equateLine name text) file) state diagnostics) ht hword hnumber hlast
    hdelivers
    with ⟨l, u, hequates, hend, hstate⟩
  rw [wrap_wrap] at hequates
  exact ⟨t, l, u, last, hequates, hlast, hend, hstate⟩

include h

theorem Run.at_equateLine {file : String} {second whole : Source} (hfile : whole.file = file)
    (htext : whole.text = (equateLine name text).toList ++ '\n' :: second.text) {r : Run}
    (hstream : r.stream = .ofSource whole) (hstatements : r.statements = []) :
    Run.At (.first (.ofText (equateLine name text) file) r.state second.text) .normal
      ((Source.ofText (equateLine name text) file).text.length + 1) true []
      (.start (.ofText (equateLine name text) file) r.state r.diagnostics) r := by
  have hplain := equateLine_endsPlain hname h
  rw [← equateLine_text hname h file] at htext hplain
  have hreads : Reads (.first (.ofText (equateLine name text) file) r.state second.text) .normal
      ((Source.ofText (equateLine name text) file).text.length + 1) true []
      (.ofSource (.ofText (equateLine name text) file)) (.ofSource whole) :=
    Run.reads_first hfile htext hplain
  rw [← hstream] at hreads
  refine ⟨hreads, hreads.sound, hreads.framed.file, .refl r.state 0, hstatements, ?_, ?_⟩
  · intro st hst
    cases hst
  · intro p hp
    cases hp

/-- The outcome of a line that defines a name, at the start of a longer source that a run stands at:
the source cannot be read further if the name cannot be defined. Otherwise the line has one
statement, and the run stands behind it as a run over the line alone stands at its end. -/
theorem Run.nextLine_equate (hlexes : Lexes text.toList [.number (wrap n)]) {file : String}
    {second whole : Source} (hfile : whole.file = file)
    (htext : whole.text = (equateLine name text).toList ++ '\n' :: second.text) {r : Run}
    (hstream : r.stream = .ofSource whole) (hstatements : r.statements = []) :
    ∃ l, (∀ e, r.state.defineConstant name n false (some l) = .error e →
        ∃ f w, nextLine r = .error f w) ∧
      ∀ x s, r.state.defineConstant name n false (some l) = .ok (x, s) →
        ∃ u w, nextLine r = .ok (some [⟨l, .symbol x.name x.kind x.value .equ⟩]) w ∧
          u.state = s ∧
          On (.first (.ofText (equateLine name text) file) r.state second.text)
            (Past (.first (.ofText (equateLine name text) file) r.state second.text)) u w := by
  rcases Run.start_equates hname hlexes file r.state r.diagnostics with
    ⟨t, l, u, last, hequates, hlast, hend, hstate⟩
  have hstart := Run.at_equateLine hname h hfile htext hstream hstatements
  have hvalue : ∀ s place, State.defineConstant s name (wrap n) false place =
      s.defineConstant name n false place := by
    intro s place
    simp only [State.defineConstant, wrap_wrap]
  refine ⟨l, ?_, ?_⟩
  · intro e herror
    rcases hequates.follow hstart with ⟨l', u', hequates', k, hon⟩
    have hstate' : u'.state = r.state := hon.framed.state.eq_of_zero.trans hstate
    rcases State.defineConstant_alike r.state name n false (some l) (some l') with
      ⟨_, _, hok, _, _⟩ | ⟨_, e', _, herror'⟩
    · rw [herror] at hok
      cases hok
    · rcases hequates'.nextLine_error (by rw [hstate', hvalue]; exact herror') with ⟨f, hline⟩
      exact ⟨f, u', hline⟩
  · intro x s hdefine
    have hdefined : u.state.defineConstant name (wrap n) false (some l) = .ok (x, s) := by
      rw [hstate, hvalue]
      exact hdefine
    rcases endLine_delivers (r := { u with state := s }.note (Event.ofDefinition u.state x))
      hlast hend with ⟨w, hendLine, hsame, hbuffer⟩
    have hline := hequates.nextLine_ok hdefined hendLine
    rcases follows_nextLine.of_ok hstart hline with ⟨o', w', hline', ⟨ss', rfl, rfl, _⟩, hdone⟩
    have hsame' := down_zero_statements [⟨l, .symbol x.name x.kind x.value .equ⟩]
    change nextLine r = .ok (some (List.map (Statement.down 0) _)) w' at hline'
    rw [hsame'] at hline'
    refine ⟨w, w', hline', hsame, ?_⟩
    -- the end has been looked at, so the longer source has been read past it
    cases hdone.stream with
    | more hreads _ => exact absurd hreads.buffer_eq hbuffer
    | ended _ hnone _ => cases hnone
    | past hpast => exact ⟨hpast, hdone.sound, hdone.file, hdone.framed⟩

/-- A line that defines a name as too many decimal digits cannot be read, whatever lines follow it.
-/
theorem Run.nextLine_equate_long (hlong : base = 10 ∧ Text.decimalLimit < text.toList.length)
    {rest : List Char} {whole : Source}
    (htext : whole.text = (equateLine name text).toList ++ '\n' :: rest) {r : Run}
    (hstream : r.stream = .ofSource whole) : ∃ f w, nextLine r = .error f w := by
  rcases parts_of_isGlobalName hname with ⟨hstart, hchars, hfree⟩
  have hequ : Reserved Definer.equ.word := .of_mem (by decide)
  have hform : whole.text = name.toList ++ ' ' :: (Definer.equ.word.toList ++
      ' ' :: (text.toList ++ '\n' :: rest)) := by
    simp [htext, equateLine, Definer.word]
  -- the name is found to be a label, since the definer stands behind it
  rcases Cursor.next_word whole (c := .start whole.text) hform hstart hchars rfl with
    ⟨c, hfirst, hc, hused⟩
  rw [hfree, if_neg Bool.false_ne_true] at hfirst
  rcases Cursor.next_word whole (c := c.step) (by rw [Cursor.step_blank rfl hc]) hequ.start
    hequ.chars rfl with ⟨c', hsecond, hc', hused'⟩
  rw [hequ.lower, hequ.reserved, if_pos rfl] at hsecond
  have hthird : c'.next whole .normal = .error (.numeral (.tooLong text.toList.length)) := by
    have hscan := h.scan_eq
    have hhead := h.startsLexeme_head
    rw [if_pos hlong] at hscan
    rcases List.exists_cons_of_ne_nil h.ne_nil with ⟨d, ds, hds⟩
    rw [hds] at hscan hhead hc'
    have hquote : d ≠ '"' := by
      rintro rfl
      rcases hlong with ⟨rfl, -⟩
      cases h with
      | decimal digits => exact absurd (digits.isDigit '"' (by simp [hds])) (by decide)
    rw [← scan_append_bar_eq (d := '\n') (u := rest) rfl hquote] at hscan
    have hstep := Cursor.step_blank rfl hc'
    rw [Cursor.next, Cursor.normalToken_blank rfl hc', hds]
    exact Cursor.normalToken_numeral whole (by rw [hstep]; rfl) (hhead d rfl)
      (by simp [hstep, hused']) hscan
  have hrests : Step.Rests whole (.start whole.text) [] r := by
    constructor <;> rw [hstream] <;> rfl
  have hnext := (Cursor.normalToken_blank rfl hc).trans hsecond
  have hword := definer?_word .equ (by decide)
  rcases Step.Heads.of_rests hrests hfirst rfl hnext hword with ⟨l, g, hheads, hg⟩
  rcases hg.peek_error hthird with ⟨w, hpeek⟩
  have hdefine : defineBy .equ name (some l) g = .error _ w :=
    run_bind_of_error (run_bind_of_error hpeek _) _
  rcases hheads.nextLine_error hdefine with ⟨f, hline⟩
  exact ⟨f, w, hline⟩

end

end Sm83
