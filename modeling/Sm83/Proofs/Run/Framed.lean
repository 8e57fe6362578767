import Sm83.Proofs.Expr.Tandem
import Sm83.Proofs.Legal
import Sm83.Proofs.State.Relocation
import Sm83.Run.Basic

/-!
# Runs in a frame

A run over a source, and a run over the larger source it is set in. Both states come from the same
operations on states that differ in places only, with the places further down in the larger one, and
the statements of the larger run are those it had before and then those of the smaller one, further
down as well.
-/

namespace Sm83

open Outcome

variable {r : Run} {text : List Char}

/-! ## Statements -/

/-- A statement some lines further down. -/
def Statement.down (k : Nat) (s : Statement) : Statement :=
  { s with location := s.location.down k }

/-- An expression among the arguments is legal. -/
def Argument.legal : Argument → Bool
  | expr e => e.legal
  | word _ => true

/-- The expressions of a statement that are evaluated after its line has been read are legal. -/
def Form.legal : Form → Bool
  | assertion a => a.condition.legal
  | directive _ args => args.all Argument.legal
  | instruction _ _ record _ _ => record.legal
  | _ => true

/-! ## Runs -/

/-- A run over a source, and one over the larger source. -/
structure Run.Framed (e : Frame) (r r' : Run) : Prop where
  state : State.Moved e.state e.outer e.lines r.state r'.state
  statements : r'.statements = e.statements ++ r.statements.map (Statement.down e.lines)
  legal : ∀ s ∈ r.statements, s.form.legal = true
  pending : ∀ p ∈ r.pending, p.2.condition.legal = true

/-- Two runs whose streams are related. -/
structure On (e : Frame) (P : Stream → Stream → Prop) (r r' : Run) : Prop where
  stream : P r.stream r'.stream
  sound : r.stream.Sound e.text
  file : r.stream.source.file = e.file ∧ r'.stream.source.file = e.file
  framed : Run.Framed e r r'

theorem On.done {e : Frame} {m : Nat} {r' : Run} (h : Done e m r.stream r'.stream)
    (hframed : Run.Framed e r r') : On e (Done e m) r r' :=
  ⟨h, h.kept.1, h.kept.2, hframed⟩

theorem On.done_mono {e : Frame} {m m' : Nat} {r' : Run} (h : On e (Done e m) r r') (hm : m ≤ m') :
    On e (Done e m') r r' :=
  .done (h.stream.mono hm) h.framed

/-- The token has just been consumed. -/
structure Stream.Takes (s : Stream) (t : Token) : Prop where
  previous : s.previous = some t
  history : s.history.head? = some (.consumed .code t)

/-- What opens the block with a closing word has been consumed last: the word of a macro, on the
line of the cursor, or the newline behind the count of a repetition, on the line before that of the
cursor. -/
inductive Stream.Opener (s : Stream) : String → Prop
  | definition {word : Token} (last : s.previous = some word)
      (opens : word.lexeme = .keyword Directive.macroStart.word)
        (line : s.cursor.line = word.line) :
      Opener s Directive.macroEnd.word
  | repetition {word newline : Token} {count : Expr} {r r₁ r₂ : Run} (ordered : r.stream.Ordered)
      (first : r.stream.Takes word) (opens : word.lexeme = .keyword Directive.repeatStart.word)
      (hcount : Step.expression r = .ok count r₁) (hpeek : Step.peek r₁ = .ok newline r₂)
      (ends : newline.lexeme = .newline) (last : s.previous = some newline)
      (tied : r₂.stream.history <:+ s.history) (line : s.cursor.line = newline.line + 1) :
      Opener s Directive.repeatEnd.word

theorem Stream.Opener.of_eq {s s' : Stream} {closing : String} (h : s.Opener closing)
    (hprevious : s'.previous = s.previous) (hhistory : s.history <:+ s'.history)
    (hcursor : s'.cursor = s.cursor) : s'.Opener closing := by
  cases h with
  | definition last opens line => exact .definition (hprevious.trans last) opens (hcursor ▸ line)
  | repetition ordered first opens hcount hpeek ends last tied line =>
    exact .repetition ordered first opens hcount hpeek ends (hprevious.trans last)
      (tied.trans hhistory) (hcursor ▸ line)

/-- A failure of a run: one of its stream, or a block without an end. -/
def Run.Fails (text : List Char) (f : Failure) (r : Run) : Prop :=
  ∃ closing, r.stream.Halts text closing (·.Opener closing) f

theorem Run.Fails.of_stream {f : Failure} (h : r.stream.Fails text f) : r.Fails text f :=
  ⟨"", .inl h⟩

theorem Run.Fails.sound {f : Failure} (h : r.Fails text f) : r.stream.Sound text := by
  rcases h with ⟨_, hfails | hblock⟩
  · exact hfails.1
  · exact hblock.1

theorem Run.Fails.ne_exhausted (h : r.Fails text .exhausted) : False := by
  rcases h with ⟨_, hfails | ⟨_, _, hblock⟩⟩
  · exact hfails.2
  · cases hblock

theorem Run.Fails.locate {err : Error} (l : Location) (line : Option String)
    (h : r.Fails text (.error err)) : r.Fails text (.error (err.locate (some l) line)) := by
  rcases h with ⟨closing, ⟨hs, herr⟩ | ⟨hs, hopener, hblock⟩⟩
  · refine .of_stream ⟨hs, ?_⟩
    show (err.locate (some l) line).cause.isOrdinary = true
    rw [Error.cause_locate]
    exact herr
  · cases hblock
    exact ⟨closing, .inr ⟨hs, hopener, rfl⟩⟩

/-- A step of the larger run follows one of the run. -/
abbrev Step.Follows {α β : Type} (e : Frame) (P : Run → Run → Prop) (x : Step α) (y : Step β)
    (R : α → β → Prop) (Q : α → Run → Run → Prop) : Prop :=
  Sm83.Follows (e.after.isSome = true) (Run.Fails e.text) P x y R Q

/-- The same value on both sides, which has a property. -/
def Same {α : Type} (p : α → Prop) (a b : α) : Prop :=
  a = b ∧ p a

theorem Follows.bind_same {σ α β : Type} {lenient : Prop} {Fails : Failure → σ → Prop}
    {P : σ → σ → Prop} {x y : EStateM Failure σ α} {p : α → Prop} {Q : α → σ → σ → Prop}
    {k k' : α → EStateM Failure σ β} {R' : β → β → Prop} {Q' : β → σ → σ → Prop}
    (hx : Follows lenient Fails P x y (Same p) Q)
    (hk : ∀ a, p a → Follows lenient Fails (Q a) (k a) (k' a) R' Q') :
    Follows lenient Fails P (x >>= k) (y >>= k') R' Q' :=
  hx.bind fun a _ h => h.1 ▸ hk a h.2

/-- Two runs that read under a setting. -/
abbrev Run.At (e : Frame) (g : Setting) (m : Nat) (tight : Bool) (ts : List Token) :
    Run → Run → Prop :=
  On e (Reads e g m tight ts)

/-- The same step in both runs, within a line. -/
abbrev Step.Tracks {α : Type} (e : Frame) (m : Nat) (x : Step α) (R : α → α → Prop) : Prop :=
  Step.Follows e (Run.At e .normal m false []) x x R fun _ => Run.At e .normal m false []

namespace On

variable {e : Frame} {g : Setting} {m : Nat} {tight : Bool} {ts : List Token} {r r' : Run}

theorem mono {m' : Nat} (h : Run.At e g m tight ts r r') (hm : m ≤ m') :
    Run.At e g m' tight ts r r' :=
  ⟨h.stream.mono hm, h.sound, h.file, h.framed⟩

theorem pred (h : Run.At e g (m - 1) tight ts r r') : Run.At e g m tight ts r r' :=
  ⟨h.stream.pred, h.sound, h.file, h.framed⟩

theorem forget (h : Run.At e g m tight ts r r') : Run.At e g m false [] r r' :=
  ⟨h.stream.forget, h.sound, h.file, h.framed⟩

theorem tighten {t : Token} (h : Run.At e g m tight [t] r r') (ht : t.lexeme.endsLine = true) :
    Run.At e g m true [t] r r' :=
  ⟨h.stream.tighten ht, h.sound, h.file, h.framed⟩

end On

namespace Step

variable {e : Frame} {P : Stream → Stream → Prop} {g : Setting} {m n n' : Nat} {tight : Bool}
  {ts : List Token} {t : Token} {α β : Type} {R : α → β → Prop} {Q : α → Run → Run → Prop}

/-! ## General steps -/

theorem follows_reading_of {x : Reading α} {y : Reading β} {Q : α → Stream → Stream → Prop}
    {Fails : Failure → Stream → Prop} (h : Sm83.Follows (e.after.isSome = true) Fails P x y R Q)
    (hfails : ∀ f (r : Run), Fails f r.stream → r.Fails e.text f)
    (hQ : ∀ a s s', Q a s s' → s.Sound e.text ∧ s.source.file = e.file ∧ s'.source.file = e.file) :
    Step.Follows e (On e P) (reading x) (reading y) R fun a => On e (Q a) := by
  intro r r' hr
  have hxy := h r.stream r'.stream hr.stream
  unfold reading
  revert hxy
  generalize x r.stream = xs
  generalize y r'.stream = ys
  intro hxy
  cases hxy with
  | ok hab hs =>
    have hkept := hQ _ _ _ hs
    exact .ok hab ⟨hs, hkept.1, hkept.2, ⟨hr.framed.state, hr.framed.statements, hr.framed.legal,
      hr.framed.pending⟩⟩
  | error hf => exact .error (hfails _ (r.follow _) hf)
  | further hafter hf => exact .further hafter (hfails _ (r.follow _) hf)

theorem follows_reading {x : Reading α} {y : Reading β} {Q : α → Stream → Stream → Prop}
    (h : Reading.Follows e P x y R Q)
    (hQ : ∀ a s s', Q a s s' → s.Sound e.text ∧ s.source.file = e.file ∧ s'.source.file = e.file) :
    Step.Follows e (On e P) (reading x) (reading y) R fun a => On e (Q a) :=
  follows_reading_of h (fun _ _ => .of_stream) hQ

theorem follows_throw {f f' : Failure} (hf : ∀ s : Stream, s.Sound e.text → s.Fails e.text f) :
    Step.Follows e (On e P) (throw f) (throw f') R Q :=
  Follows.throw fun _ _ h => .of_stream (hf _ h.sound)

theorem follows_stop {cause cause' : Cause} (h : cause.isOrdinary = true) :
    Step.Follows e (On e P) (stop cause) (stop cause') R Q :=
  follows_throw fun _ hs => ⟨hs, h⟩

theorem follows_fail {t' : Token} {expected expected' : Expectation} :
    Step.Follows e (On e P) (fail t expected) (fail t' expected') R Q := by
  apply Follows.get_bind
  intro r r' _
  exact follows_throw fun _ hs => ⟨hs, rfl⟩

theorem follows_ofExcept {p : α → Prop} {x : Except Cause α} (hx : Proper p x) :
    Step.Follows e (On e P) (ofExcept x) (ofExcept x) (Same p) fun _ => On e P := by
  cases x with
  | ok a => exact .pure ⟨rfl, hx⟩ fun _ _ h => h
  | error cause => exact follows_stop hx

theorem follows_note (events events' : List Event) :
    Step.Follows e (On e P) (note events) (note events') (fun _ _ => True) fun _ => On e P :=
  Follows.modify fun _ _ h => ⟨h.stream, h.sound, h.file,
    ⟨h.framed.state, h.framed.statements, h.framed.legal, h.framed.pending⟩⟩

theorem follows_locatedAt {x : Step α} {y : Step β} {P : Run → Run → Prop}
    (h : Step.Follows e P x y R Q) (l l' : Location) (line line' : Option String) :
    Step.Follows e P (locatedAt l line x) (locatedAt l' line' y) R Q := by
  intro r r' hr
  have hxy := h r r' hr
  unfold locatedAt
  revert hxy
  generalize x r = xs
  generalize y r' = ys
  intro hxy
  cases hxy with
  | ok hab hs => exact .ok hab hs
  | @error f f' s s' hf =>
    cases f with
    | error err =>
      cases f' with
      | error err' => exact .error (hf.locate l line)
      | numeral fault => exact .error (hf.locate l line)
      | exhausted => exact .error (hf.locate l line)
    | numeral fault =>
      cases f' with
      | error err' => exact .error hf
      | numeral fault' => exact .error hf
      | exhausted => exact .error hf
    | exhausted => exact hf.ne_exhausted.elim
  | @further f s b s' hafter hf =>
    cases f with
    | error err => exact .further hafter (hf.locate l line)
    | numeral fault => exact .further hafter hf
    | exhausted => exact hf.ne_exhausted.elim

theorem follows_located {x : Step α} {y : Step β} {P : Run → Run → Prop}
    (h : Step.Follows e P x y R Q) (t t' : Token) :
    Step.Follows e P (located t x) (located t' y) R Q :=
  Follows.get_bind fun _ _ _ => follows_locatedAt h _ _ _ _

theorem follows_locationOf (t : Token) :
    Step.Follows e (On e P) (locationOf t) (locationOf (e.token t))
      (fun l l' => l' = l.down e.lines) fun _ => On e P := by
  apply Follows.get_bind
  intro r r' hr
  refine .pure ?_ fun _ _ h => h
  simp [Source.locate, Token.location, Frame.token, Location.down, hr.file]

/-! ## Tokens -/

theorem sound_reads {s s' : Stream} (h : Reads e g m tight ts s s') :
    s.Sound e.text ∧ s.source.file = e.file ∧ s'.source.file = e.file :=
  ⟨h.sound, h.framed.file⟩

theorem follows_peek [g.IsOpen] :
    Step.Follows e (Run.At e g m tight []) peek peek (fun t t' => t' = e.token t)
      fun t => Run.At e g m tight [t] :=
  follows_reading Reading.follows_peek fun _ _ _ => sound_reads

theorem follows_peek_bind [g.IsOpen] {k k' : Token → Step α} {R : α → α → Prop}
    (hk : ∀ t, Step.Follows e (Run.At e g m tight [t]) (k t) (k' (e.token t)) R Q) :
    Step.Follows e (Run.At e g m tight []) (peek >>= k) (peek >>= k') R Q :=
  follows_peek.bind fun t _ heq => heq ▸ hk t

theorem follows_peek_again :
    Step.Follows e (Run.At e g m tight (t :: ts)) peek peek (fun u u' => u = t ∧ u' = e.token t)
      fun _ => Run.At e g m tight (t :: ts) :=
  follows_reading Reading.follows_peek_again fun _ _ _ => sound_reads

theorem follows_peekAt [g.IsOpen] (ts : List Token) (hopen : ∀ t ∈ ts, t.lexeme.endsLine = false) :
    Step.Follows e (Run.At e g m tight ts) (peekAt ts.length) (peekAt ts.length)
      (fun t t' => t' = e.token t) fun t => Run.At e g m tight (ts ++ [t]) :=
  follows_reading (Reading.follows_peekAt ts hopen) fun _ _ _ => sound_reads

theorem follows_advanceAs (ht : t.isEnd = false) :
    Step.Follows e (Run.At e g m tight (t :: ts)) (advanceAs g.role) (advanceAs g.role)
      (fun u u' => u = t ∧ u' = e.token t) fun _ => Run.At e g (m - 1) tight ts :=
  follows_reading (Reading.follows_advanceAs ht) fun _ _ _ => sound_reads

theorem follows_advance (ht : t.isEnd = false) :
    Step.Follows e (Run.At e .normal m tight (t :: ts)) advance advance
      (fun u u' => u = t ∧ u' = e.token t) fun _ => Run.At e .normal (m - 1) tight ts :=
  follows_advanceAs (g := .normal) ht

theorem follows_discard_advance (ht : t.isEnd = false) :
    Step.Follows e (Run.At e .normal m tight (t :: ts)) (discard advance) (discard advance)
      (fun _ _ => True) fun _ => Run.At e .normal (m - 1) tight ts :=
  (follows_advance ht).discard fun _ _ _ h => h

theorem follows_advance_block {closing opening : String} (hclosing : closing.isEmpty = false) :
    Step.Follows e (On e fun s s' => Reads e (.block closing opening) m true [] s s' ∧
      s.Opener closing) (advanceAs .block) (advanceAs .block)
      (fun t t' => t' = e.token t ∧ t.isEnd = false)
      fun _ => Run.At e (.block closing opening) (m - 1) true [] :=
  follows_reading_of (Reading.follows_advance_block hclosing fun _ h =>
    h.of_eq rfl List.suffix_rfl rfl)
    (fun _ _ h => ⟨closing, h⟩) fun _ _ _ => sound_reads

theorem follows_accept (p : Punct) :
    Step.Follows e (Run.At e .normal m false []) (accept p) (accept p) Eq
      fun b => Run.At e .normal (m - b.toNat) false [] := by
  refine follows_peek_bind fun t => ?_
  rw [e.lexeme_congr (Lexeme.isPunct p) rfl t]
  split
  · next hp =>
    apply Follows.next (follows_discard_advance (Token.isEnd_of_test _ rfl hp))
    exact .pure rfl fun _ _ h => h
  · exact .pure rfl fun _ _ h => h.forget

theorem follows_expect (p : Punct) (expected : Expectation) :
    Tracks e m (expect p expected) (fun _ _ => True) := by
  refine follows_peek_bind fun t => ?_
  rw [e.lexeme_congr (Lexeme.isPunct p) rfl t]
  split
  · next hp =>
    have ht := Token.isEnd_of_test _ rfl hp
    exact (follows_discard_advance ht).post fun _ _ _ h => h.pred
  · exact follows_fail

theorem follows_atLineEnd : Tracks e m atLineEnd Eq := by
  refine follows_peek_bind fun t => ?_
  rw [e.lexeme_congr Lexeme.endsLine rfl t]
  exact .pure rfl fun _ _ h => h.forget

theorem follows_request {g' : Setting} (hplain : g'.Plain) (heffective : g'.effective = g') :
    Step.Follows e (Run.At e g m true []) (request g') (request g') (fun _ _ => True)
      fun _ => Run.At e g' m true [] := by
  apply Follows.modify
  intro r r' h
  have hreads := h.stream.request hplain heffective (by simp) (by simp)
  exact ⟨hreads, hreads.sound, h.file,
    ⟨h.framed.state, h.framed.statements, h.framed.legal, h.framed.pending⟩⟩

theorem follows_bound {k k' : Nat → Step α} {R : α → α → Prop}
    (h : ∀ j n n', j ≤ m → j ≤ n → j ≤ n' →
      Step.Follows e (Run.At e g j tight ts) (k n) (k' n') R Q) :
    Step.Follows e (Run.At e g m tight ts) (bound >>= k) (bound >>= k') R Q := by
  intro r r' hr
  have hbound := hr.stream.left_lt_bound
  exact h _ _ _ hr.stream.left (Nat.le_of_lt hbound.1) (Nat.le_of_lt hbound.2) r r'
    ⟨hr.stream.least, hr.sound, hr.file, hr.framed⟩

section

variable {r : Run} {rest : List Token} (h : r.stream.buffer = t :: rest)
include h

theorem peek_buffered : peek r = .ok t (r.follow r.stream) := by
  simp only [peek, reading, Reading.peek_buffered h]

theorem advanceAs_buffered (role : Role) :
    advanceAs role r = .ok t (r.follow (r.stream.consume role t rest)) := by
  simp only [advanceAs, reading, Reading.advanceAs_buffered role h]

theorem discard_advanceAs_buffered (role : Role) :
    (discard (advanceAs role) : Step Unit) r =
      .ok () (r.follow (r.stream.consume role t rest)) := by
  show EStateM.map (fun _ => ()) (advanceAs role) r = _
  simp only [EStateM.map, advanceAs_buffered h]

end

/-- What is known of the run before a token is consumed stays known. -/
theorem follows_advance_last {K : Run → Prop} (ht : t.isEnd = false) :
    Step.Follows e (fun r r' => Run.At e .normal m true [t] r r' ∧ K r) advance advance
      (fun u u' => u = t ∧ u' = e.token t) fun _ r r' => Run.At e .normal (m - 1) true [] r r' ∧
        r.stream.Takes t ∧ ∃ r₀, K r₀ ∧ r₀.stream.history <:+ r.stream.history := by
  have hlast : ∀ (r : Run) u r₁, r.stream.buffer = [t] ∧ K r → advance r = .ok u r₁ →
      r₁.stream.Takes t ∧ ∃ r₀, K r₀ ∧ r₀.stream.history <:+ r₁.stream.history := by
    rintro r u r₁ ⟨hbuffer, hr⟩ hadvance
    rw [advance, advanceAs_buffered hbuffer] at hadvance
    cases hadvance
    exact ⟨⟨rfl, rfl⟩, r, hr, List.suffix_cons _ _⟩
  exact ((follows_advance ht).keeping hlast).pre fun _ _ h => ⟨h.1, h.1.stream.buffer_eq, h.2⟩

theorem follows_newline (ht : t.lexeme = .newline) :
    Step.Follows e (Run.At e .normal m true [t]) (discard advance) (discard advance)
      (fun _ _ => True) fun _ => On e (Done e (m - 1)) := by
  intro r r' h
  rcases h.stream.consume (by simp [Token.isEnd, ht]) with ⟨rest, hbuffer, hbuffer', hreads⟩
  rw [h.stream.buffer_eq] at hbuffer
  cases hbuffer
  show Agree _ _ _ _ ((discard (advanceAs .code) : Step Unit) r)
    ((discard (advanceAs .code) : Step Unit) r')
  rw [discard_advanceAs_buffered h.stream.buffer_eq, discard_advanceAs_buffered hbuffer']
  exact .ok trivial (.done (.more hreads fun u hu => Option.some.inj hu ▸ ht)
    ⟨h.framed.state, h.framed.statements, h.framed.legal, h.framed.pending⟩)

/-- The end of a line in a frame: behind it, or past the source. -/
theorem follows_endLine :
    Step.Follows e (Run.At e .normal m tight []) endLine endLine (fun _ _ => True)
      fun _ => On e (Done e m) := by
  refine follows_peek_bind fun t => ?_
  rcases e.lexeme_cases t with hsame | ⟨heof, hline, hafter⟩
  · rw [hsame]
    split
    · next hnewline =>
      have hends : t.lexeme.endsLine = true := by simp [hnewline, Lexeme.endsLine]
      exact ((follows_newline hnewline).pre fun _ _ h => h.tighten hends).post fun _ _ _ h =>
        h.done_mono (Nat.sub_le m 1)
    · next heof =>
      apply Follows.pure trivial
      intro r r' h
      have hnone : e.after = none := by
        cases hafter : e.after with
        | none => rfl
        | some text => simp [Frame.token, Frame.lexeme, hafter, heof] at hsame
      have ht : t.isEnd = true := by simp [Token.isEnd, heof]
      have htight := h.tighten (by simp [heof, Lexeme.endsLine])
      exact ⟨.ended ht hnone htight.stream, h.sound, h.file, h.framed⟩
    · exact follows_fail
  · -- the source ends here, and the larger one goes on
    rw [heof, hline]
    intro r r' h
    have htight := (h.tighten (by simp [heof, Lexeme.endsLine])).stream
    have hbuffer : r'.stream.buffer = [e.token t] := by
      rw [htight.framed.buffer, htight.buffer_eq]
      rfl
    have hpast := htight.past (by simp [Token.isEnd, heof]) hafter
    show Agree _ _ _ _ (.ok () r) ((discard (advanceAs .code) : Step Unit) r')
    rw [discard_advanceAs_buffered hbuffer]
    exact .ok trivial ⟨.past hpast, h.sound, h.file,
      ⟨h.framed.state, h.framed.statements, h.framed.legal, h.framed.pending⟩⟩

theorem follows_moreItems {p : α → Prop} {item item' : Step α}
    (hitem : ∀ k ≤ m, Step.Follows e (Run.At e .normal k false []) item item' (Same p)
      fun _ => Run.At e .normal k false [])
    (hn : m ≤ n) (hn' : m ≤ n') {items : List α} (hitems : ∀ a ∈ items, p a) :
    Step.Follows e (Run.At e .normal m false []) (moreItems item n items) (moreItems item' n' items)
      (Same fun as => ∀ a ∈ as, p a) fun _ => Run.At e .normal m false [] := by
  -- on the tokens left: each round takes a comma
  induction m generalizing n n' items with
  | zero => exact .vacuous fun _ _ h => Nat.lt_irrefl 0 h.stream.pos
  | succ m ih =>
    rcases Nat.exists_eq_add_of_le' hn with ⟨n, rfl⟩
    rcases Nat.exists_eq_add_of_le' hn' with ⟨n', rfl⟩
    refine .bind_eq (follows_accept .comma) fun b => ?_
    cases b with
    | false => exact .pure ⟨rfl, hitems⟩ fun _ _ h => h
    | true =>
      refine .bind_same (hitem m (Nat.le_succ m)) fun a ha => ?_
      have hmore : ∀ b ∈ items ++ [a], p b :=
        List.forall_mem_append.mpr ⟨hitems, List.forall_mem_singleton.mpr ha⟩
      have hrest := ih (fun k hk => hitem k (Nat.le_succ_of_le hk)) (Nat.le_add_left m n)
        (Nat.le_add_left m n') hmore
      exact hrest.post fun _ _ _ h => h.mono (Nat.le_succ m)

/-! ## Expressions -/

theorem follows_resolver :
    Step.Follows e (On e P) resolver resolver Eq fun _ => On e P := by
  apply Follows.get_bind
  intro r r' h
  exact .pure h.framed.state.resolver_eq fun _ _ h => h

theorem follows_expression : Tracks e m expression (Same fun a => a.legal = true) := by
  apply Follows.get_bind
  intro r r' h
  rw [h.framed.state.qualify_eq]
  exact follows_reading (Expr.reads_read (w := e.tandem) (State.proper_qualify r'.state))
    fun _ _ _ => sound_reads

theorem follows_valued {f : Resolver → Expr → Except Cause α} (t t' : Token) {a : Expr}
    (hf : ∀ r, Proper (fun _ => True) (f r a)) :
    Step.Follows e (On e P)
      (resolver >>= fun r => located t (ofExcept (f r a)))
      (resolver >>= fun r => located t' (ofExcept (f r a)))
      Eq fun _ => On e P := by
  refine .bind_eq follows_resolver fun r => ?_
  refine follows_located ?_ t t'
  exact (follows_ofExcept (hf r)).mono (fun _ _ h => h) (fun _ _ h => h.1) fun _ _ _ _ _ h => h

theorem follows_constant : Tracks e m constant Eq := by
  refine follows_peek_bind fun t => ?_
  refine .bind_same (follows_expression.pre fun _ _ h => h.forget) fun a ha => ?_
  exact follows_valued (f := fun r a => a.constant r) _ _ (Expr.proper_constant ha)

theorem follows_constantText : Tracks e m constantText Eq := by
  refine follows_peek_bind fun t => ?_
  refine .bind_same (follows_expression.pre fun _ _ h => h.forget) fun a ha => ?_
  exact follows_valued (f := fun r a => a.constantText r) _ _ (Expr.proper_constantText ha)

theorem follows_expressions : Tracks e m expressions (Same fun as => ∀ a ∈ as, a.legal = true) := by
  refine .bind_eq follows_atLineEnd fun b => ?_
  split
  · refine .pure ⟨rfl, ?_⟩ fun _ _ h => h
    intro a ha
    cases ha
  · refine .bind_same follows_expression fun first hfirst => ?_
    apply follows_bound
    intro j n n' hj hn hn'
    have hone : ∀ a ∈ [first], a.legal = true := by simpa using hfirst
    exact (follows_moreItems (fun _ _ => follows_expression) hn hn' hone).post
      fun _ _ _ h => h.mono hj

/-! ## The state -/

theorem follows_moved {u u' : State} (hmoved : State.Moved e.state e.outer e.lines u u') :
    Step.Follows e (On e P) (modify fun r => { r with state := u })
      (modify fun r => { r with state := u' }) (fun _ _ => True) fun _ => On e P :=
  Follows.modify fun _ _ h => ⟨h.stream, h.sound, h.file,
    ⟨hmoved, h.framed.statements, h.framed.legal, h.framed.pending⟩⟩

theorem follows_define (op : Operation) {f f' : State → Except Error (Symbol × State)}
    (hf : ∀ s, s.perform op = (f s).map fun r => (.symbol r.1, r.2))
    (hf' : ∀ s, s.perform (op.down e.lines) = (f' s).map fun r => (.symbol r.1, r.2)) :
    Step.Follows e (On e P) (define f) (define f') (fun x x' => x.placeless = x'.placeless)
      fun _ => On e P := by
  apply Follows.get_bind
  intro r r' h
  rcases h.framed.state.perform op with
    ⟨answer, answer', u, u', hok, hok', hanswer, hmoved⟩ | ⟨err, err', herror, herror'⟩
  · rw [hf, map_eq_ok_iff] at hok
    rw [hf', map_eq_ok_iff] at hok'
    rcases hok with ⟨⟨x, v⟩, hx, heq⟩
    rcases hok' with ⟨⟨x', v'⟩, hx', heq'⟩
    cases heq
    cases heq'
    simp only [hx, hx']
    apply Follows.next (follows_moved hmoved)
    apply Follows.next (follows_note _ _)
    exact .pure (Answer.symbol.inj hanswer) fun _ _ h => h
  · have hordinary := State.isOrdinary_of_perform herror
    rw [hf, map_eq_error_iff] at herror
    rw [hf', map_eq_error_iff] at herror'
    simp only [herror, herror']
    exact follows_throw fun _ hs => ⟨hs, hordinary⟩

theorem follows_change (op : Operation) {f f' : State → Except Error State}
    {events events' : State → List Event} (hf : ∀ s, s.perform op = (f s).map fun s => (.done, s))
    (hf' : ∀ s, s.perform (op.down e.lines) = (f' s).map fun s => (.done, s)) :
    Step.Follows e (On e P) (change f events) (change f' events') (fun _ _ => True)
      fun _ => On e P := by
  apply Follows.get_bind
  intro r r' h
  rcases h.framed.state.perform op with
    ⟨answer, answer', u, u', hok, hok', _, hmoved⟩ | ⟨err, err', herror, herror'⟩
  · rw [hf, map_eq_ok_iff] at hok
    rw [hf', map_eq_ok_iff] at hok'
    rcases hok with ⟨v, hv, heq⟩
    rcases hok' with ⟨v', hv', heq'⟩
    cases heq
    cases heq'
    simp only [hv, hv']
    apply Follows.next (follows_moved hmoved)
    exact follows_note _ _
  · have hordinary := State.isOrdinary_of_perform herror
    rw [hf, map_eq_error_iff] at herror
    rw [hf', map_eq_error_iff] at herror'
    simp only [herror, herror']
    exact follows_throw fun _ hs => ⟨hs, hordinary⟩

theorem follows_update (op : Operation) {answer : State → Answer} {f : State → State}
    (hf : ∀ s : State, s.perform op = .ok (answer s, f s)) (hdown : op.down e.lines = op) :
    Step.Follows e (On e P) (update f) (update f) (fun _ _ => True) fun _ => On e P := by
  apply Follows.modify
  intro r r' h
  have hmoved := h.framed.state.after op
  simp only [hdown, State.after, hf] at hmoved
  exact ⟨h.stream, h.sound, h.file,
    ⟨hmoved, h.framed.statements, h.framed.legal, h.framed.pending⟩⟩

end Step

end Sm83
