import Sm83.Proofs.Run.Framed
import Sm83.Run.Line

/-!
# The parts of a line in a frame

What stands on a line of a source is read as the same in the larger source, up to places: raw
arguments and blocks, definitions, directives and instructions. The reading modes are asked for and
given up within each part, and every expression that is evaluated later is legal.
-/

namespace Sm83

/-- The statements of the source and of the larger one. -/
def Alike (e : Frame) (s s' : Statement) : Prop :=
  s' = s.down e.lines ∧ s.form.legal = true

namespace Step

variable {e : Frame} {P : Stream → Stream → Prop} {g : Setting} {m n n' : Nat} {tight : Bool}
  {ts : List Token} {t : Token}

theorem follows_statement (t : Token) {form : Form} (hform : form.legal = true) :
    Step.Follows e (On e P) (do pure (⟨← locationOf t, form⟩ : Statement))
      (do pure (⟨← locationOf (e.token t), form⟩ : Statement)) (Alike e) fun _ => On e P := by
  apply Follows.bind (follows_locationOf t)
  rintro l _ rfl
  exact .pure ⟨rfl, hform⟩ fun _ _ h => h

/-! ## Raw parts -/

theorem follows_finish {α : Type} (a : α) (ht : t.lexeme.endsLine = true) :
    Step.Follows e (Run.At e .arguments m true [t])
      (do discard (advanceAs .argument); request .normal; pure a)
      (do discard (advanceAs .argument); request .normal; pure a) Eq fun _ => On e (Done e m) := by
  intro r r' h
  have hbuffer := h.stream.buffer_eq
  have hbuffer' : r'.stream.buffer = [e.token t] := by
    rw [h.stream.framed.buffer, hbuffer]
    rfl
  show Agree _ _ _ _ (EStateM.bind (discard (advanceAs .argument)) _ r)
    (EStateM.bind (discard (advanceAs .argument)) _ r')
  simp only [EStateM.bind, discard_advanceAs_buffered hbuffer, discard_advanceAs_buffered hbuffer']
  exact .ok rfl (.done (h.stream.finish ht)
    ⟨h.framed.state, h.framed.statements, h.framed.legal, h.framed.pending⟩)

/-- Raw arguments in a frame. -/
theorem follows_moreArguments (hn : m ≤ n) (hn' : m ≤ n') {isOpen : Bool} {args : List String} :
    Step.Follows e (Run.At e .arguments m true []) (moreArguments n isOpen args)
      (moreArguments n' isOpen args) Eq fun _ => On e (Done e m) := by
  -- on the tokens left: each round takes a text or a comma
  induction m generalizing n n' isOpen args with
  | zero => exact .vacuous fun _ _ h => Nat.lt_irrefl 0 h.stream.pos
  | succ m ih =>
    rcases Nat.exists_eq_add_of_le' hn with ⟨n, rfl⟩
    rcases Nat.exists_eq_add_of_le' hn' with ⟨n', rfl⟩
    have hrest : ∀ isOpen args, Step.Follows e (Run.At e .arguments m true [])
        (moreArguments (n + m) isOpen args) (moreArguments (n' + m) isOpen args) Eq
        fun _ => On e (Done e (m + 1)) := fun _ _ =>
      (ih (Nat.le_add_left m n) (Nat.le_add_left m n')).post fun _ _ _ h =>
        h.done_mono (Nat.le_succ m)
    have hmore : ∀ (t : Token) isOpen args, t.isEnd = false →
        Step.Follows e (Run.At e .arguments (m + 1) true [t])
          (do discard (advanceAs .argument); moreArguments (n + m) isOpen args)
          (do discard (advanceAs .argument); moreArguments (n' + m) isOpen args) Eq
          fun _ => On e (Done e (m + 1)) := by
      intro t isOpen args ht
      apply Follows.next ((follows_advanceAs (g := .arguments) ht).discard fun _ _ _ h => h)
      exact hrest isOpen args
    refine follows_peek_bind fun t => ?_
    -- the token is the same in both, or the end of the one text is a line end in the other
    rcases e.lexeme_cases t with hsame | ⟨heof, hline, _⟩
    · rw [hsame]
      split
      · next hl => exact hmore t _ _ (by simp [Token.isEnd, hl])
      · next hl => exact hmore t _ _ (by simp [Token.isEnd, hl])
      · next hl => exact follows_finish _ (by rw [hl]; rfl)
      · next hl => exact follows_finish _ (by rw [hl]; rfl)
      · exact follows_fail
    · have hends : t.lexeme.endsLine = true := by rw [heof]; rfl
      rw [heof, hline]
      exact follows_finish _ hends

theorem follows_rawArguments :
    Step.Follows e (Run.At e g m true []) rawArguments rawArguments Eq
      fun _ => On e (Done e m) := by
  have hplain : Setting.arguments.Plain := by
    intro word hword
    cases hword
  apply Follows.next (follows_request hplain rfl)
  apply follows_bound
  intro j n n' hj hn hn'
  exact (follows_moreArguments hn hn').post fun _ _ _ h => h.done_mono hj

theorem follows_rawBlock {closing opening : String} (hclosing : closing.isEmpty = false)
    (hplain : dotAbove ∉ closing.toList) :
    Step.Follows e (fun r r' => Run.At e g m true [] r r' ∧ r.stream.Opener closing)
      (rawBlock closing opening) (rawBlock closing opening) Eq fun _ => Run.At e .normal m true
        [] := by
  have hblock : (Setting.block closing opening).Plain := by
    intro word hword
    simp only [Setting.block, Setting.closing?, hclosing] at hword
    cases hword
    exact hplain
  have hkept : ∀ (r : Run) u r₁, r.stream.Opener closing →
      request (.block closing opening) r = .ok u r₁ → r₁.stream.Opener closing := by
    intro r u r₁ h hrequest
    cases hrequest
    exact h.of_eq rfl (List.suffix_cons _ _) rfl
  apply Follows.next ((follows_request hblock rfl).keeping hkept)
  refine .bind ((follows_advance_block hclosing).pre fun _ _ h =>
    ⟨⟨h.1.stream, h.2⟩, h.1.sound, h.1.file, h.1.framed⟩) ?_
  rintro body _ ⟨rfl, hbody⟩
  apply Follows.next (follows_request Setting.plain_normal rfl)
  rw [Frame.lexeme_token_of_not_isEnd hbody]
  exact .pure rfl fun _ _ h => h.pred

theorem follows_macroBody (name : Token) (spelling : String)
    (ht : t.lexeme = .keyword Directive.macroStart.word) :
    Step.Follows e (Run.At e .normal m true [t]) (macroBody name spelling)
      (macroBody (e.token name) spelling) (Alike e) fun _ => On e (Done e (m - 1)) := by
  have hend : t.isEnd = false := by simp [Token.isEnd, ht]
  apply Follows.next
    (((follows_advance_last (K := fun _ => True) hend).discard fun _ _ _ h => h).pre
    fun _ _ h => ⟨h, trivial⟩)
  refine .bind_eq
    ((follows_rawBlock (g := .normal) (m := m - 1) (by decide) (by decide)).pre ?_) fun body => ?_
  · rintro r r' ⟨h, ⟨hlast, _⟩, _⟩
    have hwithin := h.stream.ordered.within t _ (h.stream.latest?_eq.trans hlast) ht
    exact ⟨h, .definition hlast ht hwithin.2⟩
  apply Follows.next follows_endLine
  apply Follows.next (follows_note _ _)
  exact follows_statement name rfl

theorem follows_macroCall (spelling : String) (ht : t.isEnd = false) :
    Step.Follows e (Run.At e .normal m true [t]) (macroCall spelling) (macroCall spelling) (Alike e)
      fun _ => On e (Done e (m - 1)) := by
  apply Follows.bind (follows_advance ht)
  rintro _ _ ⟨rfl, rfl⟩
  refine .bind_eq follows_rawArguments fun args => ?_
  exact follows_statement _ rfl

/-- A repetition in a frame, or its report. -/
theorem follows_repetition (ht : t.lexeme = .keyword Directive.repeatStart.word) :
    Step.Follows e (Run.At e .normal m true [t]) repetition repetition (Alike e)
      fun _ => Run.At e .normal (m - 1) false [] := by
  have hend : t.isEnd = false := by simp [Token.isEnd, ht]
  apply Follows.bind
    ((follows_advance_last (K := fun _ => True) hend).pre fun _ _ h => ⟨h, trivial⟩)
  rintro word _ ⟨rfl, rfl⟩
  -- how the count is read is kept in mind, for a block that has no end
  have hcount : ∀ (r : Run) count r₁, r.stream.Ordered ∧ r.stream.Takes word →
      expression r = .ok count r₁ →
      ∃ r, r.stream.Ordered ∧ r.stream.Takes word ∧ expression r = .ok count r₁ :=
    fun r count r₁ hr hread => ⟨r, hr.1, hr.2, hread⟩
  apply Follows.bind_same ((follows_expression.keeping hcount).pre fun _ _ h =>
    ⟨h.1.forget, h.1.stream.ordered, h.2.1⟩)
  intro count _
  have hpeek : ∀ (r₁ : Run) u r₂,
      (∃ r, r.stream.Ordered ∧ r.stream.Takes word ∧ expression r = .ok count r₁) →
      peek r₁ = .ok u r₂ → ∃ r r₁, r.stream.Ordered ∧ r.stream.Takes word ∧
        expression r = .ok count r₁ ∧ peek r₁ = .ok u r₂ := by
    rintro r₁ u r₂ ⟨r, hr, hfirst, hread⟩ hu
    exact ⟨r, r₁, hr, hfirst, hread, hu⟩
  apply Follows.bind (follows_peek.keeping hpeek)
  rintro u _ rfl
  have hunterminated : ∀ (P : Stream → Stream → Prop) (r r' : Run), On e P r r' → ∃ f q,
      (do throw (.error ⟨.grammar .unterminatedRepeat, some (← locationOf word), none⟩) :
        Step Statement) r = .error f q ∧ q.Fails e.text f := by
    intro P r r' h
    exact ⟨_, _, rfl, .of_stream ⟨h.sound, rfl⟩⟩
  rcases e.lexeme_cases u with hsame | ⟨heof, hline, hafter⟩
  · rw [hsame]
    split
    · next hl =>
      have hu : u.isEnd = false := by simp [Token.isEnd, hl]
      have hends : u.lexeme.endsLine = true := by simp [hl, Lexeme.endsLine]
      apply Follows.next (((follows_advance_last hu).discard fun _ _ _ h => h).pre fun _ _ h =>
        ⟨h.1.tighten hends, h.2⟩)
      refine .bind_eq
        ((follows_rawBlock (g := .normal) (m := m - 1 - 1) (by decide) (by decide)).pre ?_)
        fun body => ?_
      · rintro s s' ⟨h, hlast, r₂, ⟨r, r₁, hordered, hfirst, hcount, hpeek⟩, htied⟩
        have hopens := h.stream.ordered.opens u (h.stream.latest?_eq.trans hlast.previous) hl
        exact ⟨h, .repetition hordered hfirst ht hcount hpeek hl hlast.previous htied hopens.line⟩
      exact (follows_statement word rfl).post fun _ _ _ h => h.forget.pred
    · apply Follows.get_bind
      intro r r' _
      exact (follows_throw fun _ hs => ⟨hs, rfl⟩).pre fun _ _ h => h.1
    · exact follows_fail.pre fun _ _ h => h.1
  · rw [heof, hline]
    exact .alone hafter fun r r' h => hunterminated _ r r' h.1

/-! ## Definitions -/

theorem placeless_parts {x x' : Symbol} (h : x.placeless = x'.placeless) :
    x.name = x'.name ∧ x.kind = x'.kind ∧ x.value = x'.value ∧ x.exported = x'.exported ∧
      x.placed = x'.placed := by
  have hname := congrArg Symbol.name h
  have hkind := congrArg Symbol.kind h
  have hvalue := congrArg Symbol.value h
  have hexported := congrArg Symbol.exported h
  have hplaced := congrArg Symbol.placed h
  exact ⟨hname, hkind, hvalue, hexported, hplaced⟩

theorem follows_label (name : Token) (spelling : String) (exported : Bool) :
    Step.Follows e (On e P) (label name spelling exported) (label (e.token name) spelling exported)
      (Alike e) fun _ => On e P := by
  apply Follows.bind (follows_locationOf name)
  rintro l _ rfl
  refine .bind (follows_located (follows_define (.defineLabel spelling exported (some l))
    (fun _ => rfl) fun _ => rfl) name (e.token name)) ?_
  intro x x' hx
  rcases placeless_parts hx with ⟨hname, _, hvalue, hexported, hplaced⟩
  rw [← hname, ← hvalue, ← hexported, ← hplaced]
  exact .pure ⟨rfl, rfl⟩ fun _ _ h => h

theorem follows_storageField (spelling : String) (width : Int) (l : Location) :
    Step.Follows e (Run.At e .normal m false []) (storageField spelling width (some l))
      (storageField spelling width (some (l.down e.lines)))
      (fun x x' => x.placeless = x'.placeless) fun _ => Run.At e .normal m false [] := by
  have hfield : ∀ count : Int, Step.Follows e (Run.At e .normal m false [])
      (do
        let offset := (← get).state.storage
        update fun s => (s.advanceStorage (count * width)).2
        define fun s => s.defineConstant spelling offset false (some l))
      (do
        let offset := (← get).state.storage
        update fun s => (s.advanceStorage (count * width)).2
        define fun s => s.defineConstant spelling offset false (some (l.down e.lines)))
      (fun x x' => x.placeless = x'.placeless) fun _ => Run.At e .normal m false [] := by
    intro count
    apply Follows.get_bind
    intro r r' h
    rw [← h.framed.state.storage_eq]
    apply Follows.next (follows_update (.advanceStorage (count * width)) (fun _ => rfl) rfl)
    exact follows_define (.defineConstant spelling r.state.storage false (some l))
      (fun _ => rfl) (fun _ => rfl)
  refine .bind_eq follows_atLineEnd fun b => ?_
  split
  · exact hfield 1
  · refine .bind_eq follows_constant fun count => ?_
    exact hfield count

theorem follows_defineBy (definer : Definer) (spelling : String) (l : Location) :
    Step.Follows e (Run.At e .normal m false []) (defineBy definer spelling (some l))
      (defineBy definer spelling (some (l.down e.lines)))
      (fun x x' => x.placeless = x'.placeless) fun _ => Run.At e .normal m false [] := by
  have hvariable : Step.Follows e (Run.At e .normal m false [])
      (do let value ← constant; define fun s => s.defineVariable spelling value (some l))
      (do
        let value ← constant
        define fun s => s.defineVariable spelling value (some (l.down e.lines)))
      (fun x x' => x.placeless = x'.placeless) fun _ => Run.At e .normal m false [] := by
    refine .bind_eq follows_constant fun value => ?_
    exact follows_define (.defineVariable spelling value (some l)) (fun _ => rfl) (fun _ => rfl)
  cases definer with
  | equ =>
    refine .bind_eq follows_constant fun value => ?_
    exact follows_define (.defineConstant spelling value false (some l)) (fun _ => rfl)
      (fun _ => rfl)
  | set => exact hvariable
  | assign => exact hvariable
  | equs =>
    refine .bind_eq follows_constantText fun text => ?_
    exact follows_define (.defineText spelling text (some l)) (fun _ => rfl) (fun _ => rfl)
  | rb => exact follows_storageField spelling 1 l
  | rw => exact follows_storageField spelling 2 l
  | rl => exact follows_storageField spelling 4 l

/-- A definition in a frame. -/
theorem follows_definition (name : Token) (spelling : String) :
    Step.Follows e (Run.At e .normal m true [t]) (definition name spelling)
      (definition (e.token name) spelling) (Alike e) fun _ => On e (Done e m) := by
  apply Follows.bind follows_peek_again
  rintro t _ ⟨rfl, rfl⟩
  rw [e.lexeme_congr (Lexeme.isKeyword Directive.macroStart.word) rfl]
  split
  · next hmacro =>
    have hword : t.lexeme = .keyword Directive.macroStart.word := by
      cases hl : t.lexeme with
      | keyword w => simpa [hl, Lexeme.isKeyword] using hmacro
      | _ => simp [hl, Lexeme.isKeyword] at hmacro
    exact (follows_macroBody name spelling hword).post fun _ _ _ h => h.done_mono (Nat.sub_le m 1)
  · rw [e.lexeme_congr definer? rfl]
    split
    · exact follows_fail
    · next definer hdefiner =>
      have ht := Token.isEnd_of_spells definer? rfl hdefiner
      apply Follows.next (follows_discard_advance ht)
      apply Follows.bind (follows_locationOf name)
      rintro l _ rfl
      have hdefine := (follows_defineBy (e := e) (m := m - 1) definer spelling l).pre
        fun _ _ (h : Run.At e .normal (m - 1) true [] _ _) => h.forget
      apply Follows.bind (follows_located hdefine name (e.token name))
      intro x x' hx
      rcases placeless_parts hx with ⟨hname, hkind, hvalue, _, _⟩
      rw [← hname, ← hkind, ← hvalue]
      apply Follows.next follows_endLine
      exact .pure ⟨rfl, rfl⟩ fun _ _ h => h.done_mono (Nat.sub_le m 1)

/-! ## Sections -/

theorem follows_moreAttributes (hn : m ≤ n) (hn' : m ≤ n') {attributes : Attributes} :
    Step.Follows e (Run.At e .normal m false []) (moreAttributes n attributes)
      (moreAttributes n' attributes) Eq fun _ => Run.At e .normal m false [] := by
  induction m generalizing n n' attributes with
  | zero => exact .vacuous fun _ _ h => Nat.lt_irrefl 0 h.stream.pos
  | succ m ih =>
    rcases Nat.exists_eq_add_of_le' hn with ⟨n, rfl⟩
    rcases Nat.exists_eq_add_of_le' hn' with ⟨n', rfl⟩
    refine .bind_eq (follows_accept .comma) fun b => ?_
    cases b with
    | false => exact .pure rfl fun _ _ h => h
    | true =>
      refine follows_peek_bind fun t => ?_
      rw [e.lexeme_congr attribute? rfl t]
      cases hword : attribute? t.lexeme with
      | none => exact follows_fail
      | some word =>
        apply Follows.next (follows_discard_advance (Token.isEnd_of_spells _ rfl hword))
        split
        · exact follows_fail
        · apply Follows.next (follows_expect _ _)
          refine .bind_eq follows_constant fun value => ?_
          apply Follows.next (follows_expect _ _)
          exact ((ih (Nat.le_add_left m n) (Nat.le_add_left m n')).pre fun _ _ h => h.pred).post
            fun _ _ _ h => h.mono (Nat.le_succ m)

theorem follows_region : Tracks e m region Eq := by
  refine follows_peek_bind fun t => ?_
  rw [e.lexeme_congr region? rfl t]
  cases hregion : region? t.lexeme with
  | none => exact follows_fail
  | some region =>
    apply Follows.next (follows_discard_advance (Token.isEnd_of_spells _ rfl hregion))
    exact .pure rfl fun _ _ h => h.pred

theorem follows_fixedAddress : Tracks e m fixedAddress Eq := by
  refine .bind_eq (follows_accept .leftBracket) fun b => ?_
  cases b with
  | false => exact .pure rfl fun _ _ h => h
  | true =>
    refine .bind_eq follows_constant fun address => ?_
    apply Follows.next (follows_expect _ _)
    exact .pure rfl fun _ _ h => h.pred

theorem follows_enter (requested : Section) :
    Step.Follows e (On e P) (enter requested) (enter requested) Eq fun _ => On e P := by
  refine .bind_same (follows_ofExcept requested.proper_make) fun block _ => ?_
  split
  · apply Follows.next (follows_change (.enterLoad block) (fun _ => rfl) (fun _ => rfl))
    exact .pure rfl fun _ _ h => h
  · apply Follows.next (follows_change (.enterSection block) (fun _ => rfl) (fun _ => rfl))
    exact .pure rfl fun _ _ h => h

theorem follows_placement (load : Bool) (ht : t.isEnd = false) :
    Step.Follows e (Run.At e .normal m true [t]) (placement load) (placement load) (Alike e)
      fun _ => Run.At e .normal (m - 1) false [] := by
  apply Follows.bind (follows_advance ht)
  rintro word _ ⟨rfl, rfl⟩
  refine .bind_eq (follows_constantText.pre fun _ _ h => h.forget) fun name => ?_
  apply Follows.next (follows_expect _ _)
  refine .bind_eq follows_region fun region => ?_
  refine .bind_eq follows_fixedAddress fun address => ?_
  apply follows_bound
  intro j n n' hj hn hn'
  refine .bind_eq (follows_moreAttributes hn hn') fun attributes => ?_
  refine .bind_eq (follows_located (follows_enter _) word (e.token word)) fun block => ?_
  exact (follows_statement word rfl).post fun _ _ _ h => h.mono hj

/-! ## Data -/

theorem proper_dataValue (r : Resolver) (width : Int) {a : Expr} (ha : a.legal = true) :
    Proper (fun b => b.legal = true) (dataValue r width a) := by
  unfold dataValue
  split
  · rfl
  · split
    · exact Expr.proper_operand ha r .byte
    · split
      · exact Expr.proper_operand ha r .word
      · exact Expr.proper_fold ha r

theorem follows_values (d : Directive) : Tracks e m (values d) Eq := by
  refine .bind_same follows_expressions fun given hgiven => ?_
  refine .bind_eq follows_resolver fun r => ?_
  have hstored := Proper.mapM fun a ha => proper_dataValue r (unitWidth d) (hgiven a ha)
  refine .bind_same (follows_ofExcept hstored) fun stored _ => ?_
  exact .pure rfl fun _ _ h => h

theorem follows_reservation : Tracks e m reservation Eq := by
  have hfill : ∀ k, Step.Follows e (Run.At e .normal k false [])
      (do let a ← expression; ofExcept (a.operand (← resolver) .byte))
      (do let a ← expression; ofExcept (a.operand (← resolver) .byte))
      (Same fun a => a.legal = true) fun _ => Run.At e .normal k false [] := by
    intro k
    refine .bind_same follows_expression fun a ha => ?_
    refine .bind_eq follows_resolver fun r => ?_
    exact follows_ofExcept (Expr.proper_operand ha r .byte)
  refine .bind_eq follows_constant fun count => ?_
  split
  · exact follows_stop rfl
  · apply follows_bound
    intro j n n' hj hn hn'
    refine .bind_same (follows_moreItems (fun k _ => hfill k) hn hn' (by simp))
      fun fills _ => ?_
    exact .pure rfl fun _ _ h => h.mono hj

theorem follows_data (d : Directive) (ht : t.isEnd = false) :
    Step.Follows e (Run.At e .normal m true [t]) (data d) (data d) (Alike e)
      fun _ => Run.At e .normal (m - 1) false [] := by
  apply Follows.bind (follows_advance ht)
  rintro word _ ⟨rfl, rfl⟩
  have hgiven : Step.Follows e (Run.At e .normal (m - 1) true [])
      (if d = .ds then reservation else values d) (if d = .ds then reservation else values d) Eq
      fun _ => Run.At e .normal (m - 1) false [] := by
    refine .pre ?_ fun _ _ h => h.forget
    split
    · exact follows_reservation
    · exact follows_values d
  apply Follows.bind (follows_located hgiven word (e.token word))
  rintro ⟨stored, size⟩ _ rfl
  apply Follows.next (follows_update (.advance size) (fun _ => rfl) rfl)
  exact follows_statement word rfl

/-! ## Assertions and symbols -/

theorem follows_gravity : Tracks e m gravity Eq := by
  refine follows_peek_bind fun t => ?_
  rw [e.lexeme_congr gravity? rfl t]
  cases hgravity : gravity? t.lexeme with
  | none => exact .pure rfl fun _ _ h => h.forget
  | some gravity =>
    apply Follows.next (follows_discard_advance (Token.isEnd_of_spells _ rfl hgravity))
    apply Follows.next (follows_expect _ _)
    exact .pure rfl fun _ _ h => h.pred

theorem follows_assertion (isStatic : Bool) (ht : t.isEnd = false) :
    Step.Follows e (Run.At e .normal m true [t]) (assertion isStatic) (assertion isStatic) (Alike e)
      fun _ => Run.At e .normal (m - 1) false [] := by
  apply Follows.bind (follows_advance ht)
  rintro word _ ⟨rfl, rfl⟩
  refine .bind_eq (follows_gravity.pre fun _ _ h => h.forget) fun gravity => ?_
  refine .bind_same follows_expression fun condition hcondition => ?_
  refine .bind_eq (follows_accept .comma) fun b => ?_
  cases b with
  | false => exact follows_statement word hcondition
  | true =>
    have hmessage : Tracks e (m - 1 - 1) (some <$> constantText) Eq :=
      follows_constantText.map (fun _ _ h => congrArg some h) fun _ _ _ h => h
    refine .bind_eq hmessage fun message => ?_
    refine .post (follows_statement word ?_) fun _ _ _ h => h.pred
    exact hcondition

theorem follows_symbolAction (d : Directive) :
    Tracks e m (symbolAction d) (Same fun _ => True) := by
  refine follows_peek_bind fun t => ?_
  rw [e.lexeme_congr spelling? rfl t]
  cases hspelling : spelling? t.lexeme with
  | none => exact follows_fail
  | some spelling =>
    apply Follows.next (follows_discard_advance (Token.isEnd_of_spells _ rfl hspelling))
    apply Follows.bind (follows_locationOf t)
    rintro l _ rfl
    refine follows_located ?_ t (e.token t)
    apply Follows.get_bind
    intro r r' h
    rw [← h.framed.state.qualify_eq]
    refine .bind_same (follows_ofExcept (State.proper_qualify r.state spelling))
      fun name _ => ?_
    split
    · apply Follows.next (follows_change (.purge name) (fun _ => rfl) (fun _ => rfl))
      exact .pure ⟨rfl, trivial⟩ fun _ _ h => h.pred
    · refine .next (follows_change (.exportName name (some l)) (fun _ => rfl)
        (fun _ => rfl)) ?_
      exact .pure ⟨rfl, trivial⟩ fun _ _ h => h.pred

theorem follows_symbolList (d : Directive) :
    Tracks e m (symbolList d) (Same fun as => as.all Argument.legal = true) := by
  refine .bind_same (follows_symbolAction d) fun first _ => ?_
  apply follows_bound
  intro j n n' hj hn hn'
  refine .bind_same (follows_moreItems (fun _ _ => follows_symbolAction d) hn hn' (by simp))
    fun names _ => ?_
  refine .pure ⟨rfl, ?_⟩ fun _ _ h => h.mono hj
  simp [List.all_map, Argument.legal]

/-! ## All directives -/

/-- Arguments of a directive in a frame. -/
theorem follows_directiveArguments (d : Directive) :
    Tracks e m (directiveArguments d) (Same fun as => as.all Argument.legal = true) := by
  have hnone : Tracks e m (pure []) (Same fun as : List Argument => as.all Argument.legal = true) :=
    Follows.pure ⟨rfl, rfl⟩ fun _ _ h => h
  unfold directiveArguments
  split
  · apply Follows.get_bind
    intro r r' _
    apply Follows.next (follows_change .endLoad (fun _ => rfl) (fun _ => rfl))
    exact hnone
  · apply Follows.next (follows_change .pushSection (fun _ => rfl) (fun _ => rfl))
    exact hnone
  · apply Follows.next (follows_change .popSection (fun _ => rfl) (fun _ => rfl))
    exact hnone
  · exact hnone
  · exact hnone
  · exact hnone
  · exact hnone
  · apply Follows.next (follows_update (.resetStorage 0) (fun _ => rfl) rfl)
    exact hnone
  · refine .bind_eq follows_constant fun value => ?_
    apply Follows.next (follows_update (.resetStorage value) (fun _ => rfl) rfl)
    exact .pure ⟨rfl, rfl⟩ fun _ _ h => h
  · exact follows_symbolList _
  · exact follows_symbolList _
  · exact follows_symbolList _
  · refine follows_expressions.map ?_ fun _ _ _ h => h
    rintro as _ ⟨rfl, has⟩
    refine ⟨rfl, ?_⟩
    show (as.map Argument.expr).all Argument.legal = true
    rw [List.all_map, List.all_eq_true]
    exact has

theorem follows_directive {d : Directive} (hd : d ≠ .option) (hword : t.lexeme = .keyword d.word) :
    Step.Follows e (Run.At e .normal m true [t]) (directive d) (directive d) (Alike e)
      fun _ => Run.At e .normal (m - 1) false [] := by
  have ht : t.isEnd = false := by simp [Token.isEnd, hword]
  apply Follows.bind follows_peek_again
  rintro _ _ ⟨rfl, rfl⟩
  split
  · exact follows_placement false ht
  · exact follows_placement true ht
  · exact follows_data _ ht
  · exact follows_data _ ht
  · exact follows_data _ ht
  · exact follows_data _ ht
  · exact follows_assertion false ht
  · exact follows_assertion true ht
  · exact follows_repetition hword
  · exact absurd rfl hd
  iterate 13 exact follows_fail
  · apply Follows.next (follows_discard_advance ht)
    refine .bind_same ((follows_directiveArguments _).pre fun _ _ h => h.forget)
      fun args hargs => ?_
    exact follows_statement _ hargs

theorem follows_option (ht : t.isEnd = false) :
    Step.Follows e (Run.At e .normal m true [t]) (directive .option) (directive .option) (Alike e)
      fun _ => On e (Done e (m - 1)) := by
  apply Follows.bind follows_peek_again
  rintro _ _ ⟨rfl, rfl⟩
  apply Follows.next (follows_discard_advance ht)
  refine .bind_eq follows_rawArguments fun args => ?_
  apply follows_statement _
  show (args.map Argument.word).all Argument.legal = true
  simp [List.all_map, Argument.legal]

/-! ## Instructions -/

/-- Two readings of an operand follow one another. -/
abbrev OperandAlike (e : Frame) (m : Nat) (P : Run → Run → Prop) (x y : Step Operand) :
    Prop :=
  Step.Follows e P x y (Same fun o => o.legal = true) fun _ => Run.At e .normal m false []

theorem follows_stackOffset (negative : Bool) (ht : t.isEnd = false) :
    OperandAlike e m (Run.At e .normal m false [t]) (stackOffset negative)
      (stackOffset negative) := by
  apply Follows.next (follows_discard_advance ht)
  refine .bind_same follows_expression fun a ha => ?_
  refine .pure ⟨rfl, ?_⟩ fun _ _ h => h.pred
  cases negative with
  | true =>
    have hneg : (Expr.unary .neg a).legal = true := Expr.everyCall_unary.mpr ha
    exact hneg
  | false => exact ha

theorem follows_registerOperand (reg : Reg) (ht : t.isEnd = false) :
    OperandAlike e m (Run.At e .normal m false [t]) (registerOperand reg)
      (registerOperand reg) := by
  apply Follows.next (follows_discard_advance ht)
  split
  · refine follows_peek_bind fun u => ?_
    rcases e.lexeme_cases u with hsame | ⟨heof, hline, _⟩
    · rw [hsame]
      split
      · next hl =>
        exact (follows_stackOffset false (by simp [Token.isEnd, hl])).post fun _ _ _ h => h.pred
      · next hl =>
        exact (follows_stackOffset true (by simp [Token.isEnd, hl])).post fun _ _ _ h => h.pred
      · exact .pure ⟨rfl, rfl⟩ fun _ _ h => h.forget.pred
    · rw [heof, hline]
      exact .pure ⟨rfl, rfl⟩ fun _ _ h => h.forget.pred
  · exact .pure ⟨rfl, rfl⟩ fun _ _ h => h.pred

theorem follows_pointerOperand (p : Pointer) (ht : t.isEnd = false) :
    OperandAlike e m (Run.At e .normal m false [t]) (pointerOperand p) (pointerOperand p) := by
  have hclose : ∀ (p : Pointer) (k : Nat), k ≤ m →
      OperandAlike e m (Run.At e .normal k false [])
        (do expect .rightBracket .closingBracket; pure (.pointer p))
        (do expect .rightBracket .closingBracket; pure (.pointer p)) := by
    intro p k hk
    apply Follows.next (follows_expect _ _)
    exact .pure ⟨rfl, rfl⟩ fun _ _ h => h.mono hk
  apply Follows.next (follows_discard_advance ht)
  split
  · refine follows_peek_bind fun u => ?_
    rcases e.lexeme_cases u with hsame | ⟨heof, hline, _⟩
    · rw [hsame]
      split
      · next hl =>
        apply Follows.next (follows_discard_advance (by simp [Token.isEnd, hl]))
        exact hclose _ _ (by omega)
      · next hl =>
        apply Follows.next (follows_discard_advance (by simp [Token.isEnd, hl]))
        exact hclose _ _ (by omega)
      · exact (hclose _ _ (Nat.sub_le m 1)).pre fun _ _ h => h.forget
    · rw [heof, hline]
      exact (hclose _ _ (Nat.sub_le m 1)).pre fun _ _ h => h.forget
  · exact hclose _ _ (Nat.sub_le m 1)

/-- Two runs that have looked for a pointer to the highest page: if it comes next, its four tokens
have been read ahead. -/
def HighPointer (e : Frame) (m : Nat) (found : Bool) (r r' : Run) : Prop :=
  Run.At e .normal m false [] r r' ∧ (found = true → ∃ a b c d : Token,
    (∀ u ∈ [a, b, c, d], u.isEnd = false) ∧ Run.At e .normal m false [a, b, c, d] r r')

theorem highPointer_none {r r' : Run} (h : Run.At e .normal m false ts r r') :
    HighPointer e m false r r' := by
  refine ⟨h.forget, ?_⟩
  intro hfound
  cases hfound

theorem not_endsLine_of_test (f : Lexeme → Bool) (hf : f .newline = false) (hf' : f .eof = false)
    (h : f t.lexeme = true) : t.lexeme.endsLine = false := by
  cases hl : t.lexeme with
  | newline => simp [hl, hf] at h
  | eof => simp [hl, hf'] at h
  | _ => rfl

theorem follows_highPointerAhead :
    Step.Follows e (Run.At e .normal m false [t]) highPointerAhead highPointerAhead Eq
      (HighPointer e m) := by
  apply Follows.bind follows_peek_again
  rintro t _ ⟨rfl, rfl⟩
  have hsame := e.lexeme_congr (fun l => l = Lexeme.number 0xFF00) (by simp) t
  simp only [hsame]
  split
  · next hnumber =>
    have ht : t.lexeme.endsLine = false := by simp [hnumber, Lexeme.endsLine]
    apply Follows.bind (follows_peekAt [t] (by simpa using ht))
    rintro u _ rfl
    rw [e.lexeme_congr (Lexeme.isPunct .plus) rfl]
    split
    · next hplus =>
      have hu := not_endsLine_of_test (Lexeme.isPunct .plus) rfl rfl hplus
      apply Follows.bind (follows_peekAt [t, u] (by simpa using ⟨ht, hu⟩))
      rintro v _ rfl
      rw [e.lexeme_congr (Lexeme.isKeyword "c") rfl]
      split
      · next hc =>
        have hv := not_endsLine_of_test (Lexeme.isKeyword "c") rfl rfl hc
        apply Follows.bind (follows_peekAt [t, u, v] (by simpa using ⟨ht, hu, hv⟩))
        rintro w _ rfl
        rw [e.lexeme_congr (Lexeme.isPunct .rightBracket) rfl]
        apply Follows.pure rfl
        intro r r' h
        refine ⟨h.forget, ?_⟩
        intro hbracket
        have hends : ∀ x ∈ [t, u, v, w], x.isEnd = false := by
          have hw := Token.isEnd_of_test (Lexeme.isPunct .rightBracket) rfl hbracket
          simpa using ⟨Token.isEnd_of_not_endsLine ht, Token.isEnd_of_not_endsLine hu,
            Token.isEnd_of_not_endsLine hv, hw⟩
        exact ⟨t, u, v, w, hends, h⟩
      · exact .pure rfl fun _ _ => highPointer_none
    · exact .pure rfl fun _ _ => highPointer_none
  · exact .pure rfl fun _ _ => highPointer_none

theorem follows_bracketed (ht : t.isEnd = false) :
    OperandAlike e m (Run.At e .normal m false [t]) bracketed bracketed := by
  apply Follows.next (follows_discard_advance ht)
  refine follows_peek_bind fun u => ?_
  rw [e.lexeme_congr pointer? rfl u]
  cases hpointer : pointer? u.lexeme with
  | some p =>
    have hu := Token.isEnd_of_spells pointer? rfl hpointer
    exact (follows_pointerOperand p hu).post fun _ _ _ h => h.pred
  | none =>
    refine .bind_eq follows_highPointerAhead fun found => ?_
    cases found with
    | true =>
      intro r r' h
      rcases h.2 rfl with ⟨a, b, c, d, hends, hat⟩
      refine Follows.bind (follows_discard_advance (hends a (by simp))) (fun _ _ _ => ?_) r r' hat
      refine Follows.bind (follows_discard_advance (hends b (by simp))) fun _ _ _ => ?_
      refine .bind (follows_discard_advance (hends c (by simp))) fun _ _ _ => ?_
      refine .bind (follows_discard_advance (hends d (by simp))) fun _ _ _ => ?_
      exact .pure ⟨rfl, rfl⟩ fun _ _ h => h.mono (by omega)
    | false =>
      refine .pre ?_ fun _ _ h => h.1
      refine .bind_same follows_expression fun address haddress => ?_
      apply Follows.next (follows_expect _ _)
      exact .pure ⟨rfl, haddress⟩ fun _ _ h => h.pred

theorem follows_operand :
    OperandAlike e m (Run.At e .normal m false []) operand operand := by
  have himmediate : ∀ t : Token, OperandAlike e m (Run.At e .normal m false [t])
      (.immediate <$> expression) (.immediate <$> expression) := by
    intro t
    refine (follows_expression.pre fun _ _ h => h.forget).map ?_ fun _ _ _ h => h
    rintro a _ ⟨rfl, ha⟩
    exact ⟨rfl, ha⟩
  refine follows_peek_bind fun t => ?_
  rcases e.lexeme_cases t with hsame | ⟨heof, hline, _⟩
  · rw [hsame]
    split
    · next w hl =>
      have ht : t.isEnd = false := by simp [Token.isEnd, hl]
      split
      · exact follows_registerOperand _ ht
      · apply Follows.next (follows_discard_advance ht)
        exact .pure ⟨rfl, rfl⟩ fun _ _ h => h.pred
      · exact himmediate t
    · next hl => exact follows_bracketed (by simp [Token.isEnd, hl])
    · exact himmediate t
  · rw [heof, hline]
    exact himmediate t

theorem follows_operands : Tracks e m operands (Same fun os => ∀ o ∈ os, o.legal = true) := by
  refine .bind_eq follows_atLineEnd fun b => ?_
  split
  · refine .pure ⟨rfl, ?_⟩ fun _ _ h => h
    intro o ho
    cases ho
  · refine .bind_same follows_operand fun first hfirst => ?_
    apply follows_bound
    intro j n n' hj hn hn'
    have hone : ∀ o ∈ [first], o.legal = true := by simpa using hfirst
    exact (follows_moreItems (fun _ _ => follows_operand) hn hn' hone).post
      fun _ _ _ h => h.mono hj

theorem follows_instruction (mnemonic : Mnemonic) (ht : t.isEnd = false) :
    Step.Follows e (Run.At e .normal m true [t]) (instruction mnemonic) (instruction mnemonic)
      (Alike e) fun _ => Run.At e .normal (m - 1) false [] := by
  apply Follows.bind (follows_advance ht)
  rintro word _ ⟨rfl, rfl⟩
  refine .bind_same (follows_operands.pre fun _ _ h => h.forget) fun operands hoperands => ?_
  have hencode : Step.Follows e (Run.At e .normal (m - 1) false [])
      (do ofExcept (encode (← resolver) mnemonic operands))
      (do ofExcept (encode (← resolver) mnemonic operands)) (Same fun record => record.legal = true)
      fun _ => Run.At e .normal (m - 1) false [] := by
    refine .bind_eq follows_resolver fun r => ?_
    exact follows_ofExcept (legal_encode hoperands r mnemonic)
  refine .bind_same (follows_located hencode word (e.token word)) fun record hrecord => ?_
  apply Follows.next (follows_note _ _)
  apply Follows.get_bind
  intro r r' h
  rcases h.framed.state.section_eq with ⟨hload, hcurrent, hpc, hloadPc⟩
  dsimp only
  rw [← hload, ← hcurrent, ← hpc, ← hloadPc]
  apply Follows.next (follows_update (.advance record.size) (fun _ => rfl) rfl)
  exact follows_statement word hrecord

end Step

end Sm83
