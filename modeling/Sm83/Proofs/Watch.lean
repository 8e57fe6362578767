import Sm83.Proofs.Causes
import Sm83.Proofs.Token.Retraced
import Sm83.Run.Line

/-!
# Watching a source being read

Some properties hold of everything that is met while a source is read: of tokens, expressions, the
scope of local names, and errors. They follow from laws about single tokens, and the walk over the
parts of a line that carries them to whole lines is made once.
-/

namespace Sm83

/-- An action has ended in a state with the invariant `P` and with a value that `Q` holds of, or
with an error that `E` allows. -/
def EndsWell {σ α : Type} (P : σ → Prop) (E : Error → Prop) (Q : α → Prop) :
    EStateM.Result Failure σ α → Prop
  | .ok a s => P s ∧ Q a
  | .error f _ => ∀ e, f = .error e → E e

/-- From every state with the invariant, the action ends well. -/
def Guarded {σ α : Type} (P : σ → Prop) (E : Error → Prop) (x : EStateM Failure σ α)
    (Q : α → Prop) : Prop :=
  ∀ s, P s → EndsWell P E Q (x s)

namespace Guarded

variable {σ α β : Type} {P : σ → Prop} {E : Error → Prop} {x : EStateM Failure σ α}
  {k : α → EStateM Failure σ β} {Q : α → Prop} {Q' : β → Prop} {s s' : σ}

theorem of_ok (hx : Guarded P E x Q) (hs : P s) {a : α} (h : x s = .ok a s') : P s' ∧ Q a := by
  have hxs := hx s hs
  rw [h] at hxs
  exact hxs

theorem of_error (hx : Guarded P E x Q) (hs : P s) {e : Error} (h : x s = .error (.error e) s') :
    E e := by
  have hxs := hx s hs
  rw [h] at hxs
  exact hxs e rfl

theorem pure {a : α} (h : Q a) : Guarded P E (pure a) Q :=
  fun _ hs => ⟨hs, h⟩

theorem exhausted : Guarded P E (throw .exhausted : EStateM Failure σ α) Q := by
  intro s _ e h
  cases h

theorem throw {f : Failure} (h : ∀ e, f = .error e → E e) :
    Guarded P E (throw f : EStateM Failure σ α) Q :=
  fun _ _ => h

theorem bind_at (hx : EndsWell P E Q (x s)) (hk : ∀ a s', x s = .ok a s' → P s' → Q a →
    EndsWell P E Q' (k a s')) : EndsWell P E Q' ((x >>= k) s) := by
  show EndsWell P E Q' (EStateM.bind x k s)
  unfold EStateM.bind
  cases hxs : x s with
  | ok a s' =>
    rw [hxs] at hx
    exact hk a s' hxs hx.1 hx.2
  | error f s' =>
    rw [hxs] at hx
    exact hx

theorem bind (hx : Guarded P E x Q) (hk : ∀ a, Q a → Guarded P E (k a) Q') :
    Guarded P E (x >>= k) Q' :=
  fun s hs => bind_at (hx s hs) fun a s' _ hs' ha => hk a ha s' hs'

theorem get_bind {k : σ → EStateM Failure σ β} (hk : ∀ s, P s → Guarded P E (k s) Q') :
    Guarded P E (get >>= k) Q' :=
  fun s hs => hk s hs s hs

theorem modify {f : σ → σ} (h : ∀ s, P s → P (f s)) : Guarded P E (modify f) fun _ => True :=
  fun s hs => ⟨h s hs, trivial⟩

end Guarded

/-- Properties of what is met while a source is read. -/
structure Watch where
  stream : Stream → Prop
  scope : Option String → Prop
  token : Token → Prop
  expr : Expr → Prop
  error : Error → Prop

namespace Watch

/-- A run whose tokens and whose scope are watched. -/
def run (w : Watch) (r : Run) : Prop :=
  w.stream r.stream ∧ w.scope r.state.scope

/-- The place is that of the token in a source that is watched. -/
def locates (w : Watch) (t : Token) (l : Location) : Prop :=
  ∃ s, w.stream s ∧ l = s.source.locate t

theorem locates.line {w : Watch} {t : Token} {l : Location} (h : w.locates t l) :
    l.line = t.line := by
  rcases h with ⟨s, _, rfl⟩
  rfl

/-- A watched token declares the name. -/
def declares (w : Watch) (spelling : String) : Prop :=
  ∃ t, w.token t ∧ Step.declared? t.lexeme = some spelling

/-- The laws that carry the properties from single tokens to all that is read. -/
class Lawful (w : Watch) : Prop where
  /-- Tokens that have been read ahead are watched. -/
  ahead : ∀ {s : Stream} {t : Token}, w.stream s → t ∈ s.buffer → w.token t
  read : ∀ {s : Stream} {t : Token} {c : Cursor}, w.stream s →
    s.cursor.next s.source s.register.commit.current = .ok (t, c) → w.stream (s.read t c)
  consume : ∀ {s : Stream} {t : Token} {rest : List Token} (role : Role), w.stream s →
    s.buffer = t :: rest → w.stream (s.consume role t rest)
  request : ∀ {s : Stream} (setting : Setting), w.stream s → w.stream (s.request setting)
  lexical : ∀ {s : Stream} {e : Error}, w.stream s →
    s.cursor.next s.source s.register.commit.current = .error (.error e) → w.error e
  number : ∀ {t : Token} {v : Int}, w.token t → t.lexeme = .number v → w.expr (.literal v)
  text : ∀ s : String, w.expr (.text s)
  name : ∀ {t : Token} {s : String}, w.token t → t.lexeme = .name s → w.expr (.symbol s)
  localName : ∀ {t : Token} {s full : String} {state : State}, w.token t → t.lexeme = .localName s →
    w.scope state.scope → state.qualify s = .ok full → w.expr (.symbol full)
  unary : ∀ {op : UnaryOp} {e : Expr}, (∀ s, op ≠ .other s) → w.expr e → w.expr (.unary op e)
  binary : ∀ {op : BinaryOp} {a b : Expr}, (∀ s, op ≠ .other s) → w.expr a → w.expr b →
    w.expr (.binary op a b)
  call : ∀ {f : Function} {args : List Expr}, f ∈ Function.builtin → f.accepts args.length = true →
    (∀ e ∈ args, w.expr e) → w.expr (.call f args)
  /-- A global label that a token declares becomes the scope. -/
  label : ∀ {t : Token} {s full : String} {state : State}, w.token t →
    Step.declared? t.lexeme = some s → w.scope state.scope → state.qualify s = .ok full →
    isLocalName full = false → w.scope (some full)
  /-- An error that arises at a token without the line of that token. -/
  bare : ∀ {s : Stream} {t : Token} {cause : Cause}, w.stream s → w.token t →
    cause.omitsLine = true → w.error ⟨cause, some (s.source.locate t), none⟩
  /-- An error that arises at a token. -/
  lined : ∀ {s : Stream} {t : Token} {cause : Cause}, w.stream s → w.token t →
    cause.omitsLine = false → w.error ⟨cause, some (s.source.locate t), s.source.line? t.line⟩
  unplaced : ∀ {cause : Cause}, cause.omitsLine = false → w.error (.unlocated cause)
  /-- An error is given the place of a token. -/
  placed : ∀ {s : Stream} {e : Error} {t : Token}, w.error e → w.stream s → w.token t →
    w.error (e.locate (some (s.source.locate t)) (s.source.line? t.line))

/-- Nothing is asked of what is met. -/
def free : Watch :=
  ⟨fun _ => True, fun _ => True, fun _ => True, fun _ => True, fun _ => True⟩

instance lawful_free : free.Lawful := by
  constructor <;> intros <;> trivial

theorem declares_free (spelling : String) : free.declares spelling :=
  ⟨⟨.label spelling, 1, 1, .normal⟩, trivial, rfl⟩

end Watch

namespace Reading

variable {α : Type} {w : Watch}

/-- The reading is watched, and what it returns has the property. -/
abbrev Watched (w : Watch) (x : Reading α) (Q : α → Prop) : Prop :=
  Guarded w.stream w.error x Q

variable [h : w.Lawful]

theorem watched_lex : Watched w lex fun _ => True := by
  intro s hs
  simp only [lex]
  cases hnext : s.cursor.next s.source s.register.commit.current with
  | ok next => exact ⟨h.read hs hnext, trivial⟩
  | error f =>
    intro e he
    subst he
    exact h.lexical hs hnext

theorem watched_fill (n : Nat) : Watched w (fill n) fun _ => True := by
  induction n with
  | zero => exact .pure trivial
  | succ n ih =>
    refine .get_bind fun s _ => ?_
    split
    · exact watched_lex.bind fun _ _ => ih
    · exact .pure trivial

/-- A token that is seen is watched. -/
theorem watched_peekAt (n : Nat) : Watched w (peekAt n) w.token := by
  refine .get_bind fun s _ => ?_
  refine (watched_fill _).bind fun _ _ => ?_
  refine .get_bind fun s hs => ?_
  split
  · next t ht =>
    refine .pure (h.ahead hs ?_)
    -- behind the end of the source, its last token is seen again
    cases hat : s.buffer[n]? with
    | some u =>
      rw [hat] at ht
      cases ht
      exact List.mem_of_getElem? hat
    | none =>
      rw [hat] at ht
      exact List.mem_of_getLast? ht
  · exact .exhausted

theorem watched_peek : Watched w peek w.token :=
  watched_peekAt 0

theorem watched_advanceAs (role : Role) : Watched w (advanceAs role) w.token := by
  intro s hs
  cases hpeek : peek s with
  | error f s' =>
    rw [advanceAs_of_peek_error role hpeek]
    have hf := watched_peek s hs
    rw [hpeek] at hf
    exact hf
  | ok t s' =>
    rcases watched_peek.of_ok hs hpeek with ⟨hs', ht⟩
    rcases buffer_of_peek hpeek with ⟨rest, hbuffer⟩
    rw [advanceAs_of_peek role hpeek hbuffer]
    exact ⟨h.consume role hs' hbuffer, ht⟩

end Reading

end Sm83
