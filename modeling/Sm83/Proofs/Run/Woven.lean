import Sm83.Proofs.Run.Retraced

/-!
# How lines are woven

The walk over the parts of a line, made once: how each of them is put together from elementary
steps, which operations it may perform on the state, and what it returns where the source is
watched. The expressions in the operands of an instruction are watched ones.
-/

namespace Sm83

/-! ## Written operands -/

namespace Operand

/-- The operand has a spelling: its register, condition or pointer is one that a word names. -/
def isWritten : Operand → Bool
  | register r => Reg.all.contains r
  | condition k => [Condition.nz, .z, .nc].contains k
  | pointer p => [Pointer.hl, .bc, .de, .hli, .hld, .c].contains p
  | memory _ | immediate _ | stackOffset _ => true

theorem ne_atHl_of_isWritten {o : Operand} (h : o.isWritten = true) : o ≠ .register .atHl := by
  rintro rfl
  cases h

theorem isWritten_register {w : String} {r : Reg} (h : Reg.ofWord? w = some r) :
    (register r).isWritten = true :=
  List.contains_iff_mem.mpr (List.mem_of_find?_eq_some h)

theorem isWritten_condition {w : String} {k : Condition} (h : Condition.ofWord? w = some k) :
    (condition k).isWritten = true :=
  List.contains_iff_mem.mpr (List.mem_of_find?_eq_some h)

theorem isWritten_pointer {w : String} {p : Pointer} (h : Pointer.ofWord? w = some p) :
    (pointer p).isWritten = true :=
  List.contains_iff_mem.mpr (List.mem_of_find?_eq_some h)

end Operand

/-! ## Parts of a line -/

/-- A part of a line that starts with a token of its own. -/
inductive Part where
  | call (spelling : String)
  | instruction (m : Mnemonic)
  | directive (d : Directive)
  | conditional (d : Directive)
  deriving DecidableEq, Repr

/-- The form is one that the statement of this part can have. -/
def Form.isOf : Part → Form → Bool
  | .call _, macroCall .. => true
  | .instruction _, instruction .. => true
  | .conditional _, conditional .. => true
  | .directive d, placement _ => d = .sectionStart || d = .loadStart
  | .directive d, data .. => d = .db || d = .dw || d = .dl || d = .ds
  | .directive d, assertion _ => d = .assertion || d = .staticAssertion
  | .directive d, repetition .. => d = .repeatStart
  | .directive d, directive d' _ => d' = d
  | _, _ => false

/-! ## Steps of a line -/

/-- The expressions in the operands of an instruction have a property. -/
def Form.OperandsAre (p : Expr → Prop) : Form → Prop
  | instruction _ operands .. => ∀ o ∈ operands, ∀ e ∈ o.expr?, p e
  | _ => True

/-- A statement whose operands are watched. -/
def Watch.statement (w : Watch) (st : Statement) : Prop :=
  st.form.OperandsAre w.expr

/-- A statement at a token, with a form of some kind. -/
def Watch.tells (w : Watch) (t : Token) (P : Form → Prop) (st : Statement) : Prop :=
  w.statement st ∧ P st.form ∧ st.location.line = t.line

/-- The operations that a directive can ask of the state. -/
def Operation.suits (d : Directive) : Operation → Bool
  | enterSection _ | enterLoad _ => d = .sectionStart || d = .loadStart
  | endLoad => d = .loadEnd
  | pushSection => d = .sectionPush
  | popSection => d = .sectionPop
  | advance _ => d = .db || d = .dw || d = .dl || d = .ds
  | resetStorage _ => d = .storageReset || d = .storageSet
  | purge _ | exportName .. => d = .purge || d = .exportNames || d = .globalNames
  | _ => false

namespace Part

/-- The step that reads the part. -/
def step : Part → Step Statement
  | call spelling => Step.macroCall spelling
  | instruction m => Step.instruction m
  | directive d => Step.directive d
  | conditional d => Step.conditional d

/-- The operations that the part can ask of the state. -/
def allows : Part → Operation → Bool
  | call _, _ | conditional _, _ => false
  | instruction _, op => op.suits .db
  | directive d, op => op.suits d

end Part

namespace Step

variable {α β : Type} {w : Watch} [h : w.Lawful] {allowed : Operation → Bool} {Q : α → Prop}
  {d : Directive}

/-! ## General steps -/

theorem woven_stop {cause : Cause} (hcause : cause.omitsLine = false) :
    Woven w allowed (stop cause : Step α) Q := by
  refine .throw ?_ _
  intro e he
  cases he
  exact h.unplaced hcause

theorem woven_ofExcept {x : Except Cause α} (hx : ShowsLine x) :
    Woven w allowed (ofExcept x) fun a => x = .ok a := by
  cases x with
  | ok a => exact .pure rfl
  | error cause => exact woven_stop (hx cause rfl)

omit h in
theorem woven_locationOf (t : Token) : Woven w allowed (locationOf t) (w.locates t) := by
  refine .get_bind fun r r' halike hr => ?_
  rw [show r'.stream.source.locate t = r.stream.source.locate t by
    rw [Source.locate, Source.locate, halike.file]]
  exact .pure ⟨r.stream, hr.1, rfl⟩

theorem woven_fail {t : Token} (ht : w.token t) {expected : Expectation}
    (hexpected : expected.isOfExpression = false) :
    Woven w allowed (fail t expected : Step α) Q := by
  refine .get_bind fun r r' _ hr => .throw ?_ _
  intro e he
  cases he
  exact h.lined hr.1 ht hexpected

omit h in
theorem woven_bound_bind {k k' : Nat → Step β} {Q : β → Prop}
    (hk : ∀ n n', Weaves w allowed (k n) (k' n') Q) :
    Weaves w allowed (bound >>= k) (bound >>= k') Q :=
  .get_bind fun r r' _ _ => hk r.stream.bound r'.stream.bound

omit h in
theorem woven_resolver : Woven w allowed resolver fun _ => True := by
  refine .get_bind fun r r' halike _ => ?_
  rw [halike.state]
  exact .pure trivial

omit h in
theorem woven_statement (t : Token) {form : Form} {P : Form → Prop}
    (hform : form.OperandsAre w.expr) (hP : P form) :
    Woven w allowed (do pure (⟨← locationOf t, form⟩ : Statement)) (w.tells t P) := by
  refine (woven_locationOf t).bind ?_
  rintro _ ⟨s, _, rfl⟩
  exact .pure ⟨hform, hP, rfl⟩

/-! ## Tokens -/

theorem woven_peekAt (n : Nat) : Woven w allowed (peekAt n) w.token :=
  .reading (Reading.retraces_peekAt n) (Reading.watched_peekAt n)

theorem woven_peek : Woven w allowed peek w.token :=
  woven_peekAt 0

theorem woven_advanceAs (role : Role) : Woven w allowed (advanceAs role) w.token :=
  .reading (Reading.retraces_advanceAs role) (Reading.watched_advanceAs role)

theorem woven_advance : Woven w allowed (discard advance) fun _ => True :=
  (woven_advanceAs .code).discard

/-- The step consumes a token before anything else, and what it returns is as the token says. -/
def Begins (w : Watch) (allowed : Operation → Bool) (x : Step α) (Q : Token → α → Prop) : Prop :=
  ∃ k : Token → Step α, x = advance >>= k ∧ ∀ t, w.token t → Woven w allowed (k t) (Q t)

/-- The same of a step that may look at the token first: it consumes the token or fails at it. -/
inductive Opens (w : Watch) (allowed : Operation → Bool) (Q : Token → α → Prop) : Step α → Prop
  | begins {x : Step α} (h : Begins w allowed x Q) : Opens w allowed Q x
  | peek {k : Token → Step α} (h : ∀ t, w.token t → Begins w allowed (k t) Q ∨
      (∃ k' : Unit → Step α, k t = discard advance >>= k' ∧ Woven w allowed (k' ()) (Q t)) ∨
      ∃ expected : Expectation, expected.isOfExpression = false ∧ k t = fail t expected) :
      Opens w allowed Q (peek >>= k)

theorem Begins.woven {x : Step α} {Q : Token → α → Prop} {Q' : α → Prop} (hx : Begins w allowed x Q)
    (h : ∀ t a, Q t a → Q' a) : Woven w allowed x Q' := by
  rcases hx with ⟨k, rfl, hk⟩
  exact (woven_advanceAs .code).bind fun t ht => (hk t ht).imp (h t)

theorem Opens.woven {x : Step α} {Q : Token → α → Prop} {Q' : α → Prop} (hx : Opens w allowed Q x)
    (h : ∀ t a, Q t a → Q' a) : Woven w allowed x Q' := by
  cases hx with
  | begins hx => exact hx.woven h
  | peek hk =>
    refine woven_peek.bind fun t ht => ?_
    rcases hk t ht with hbegins | ⟨k', hk, hwoven⟩ | ⟨expected, hexpected, hk⟩
    · exact hbegins.woven h
    · rw [hk]
      exact woven_advance.bind fun _ _ => hwoven.imp (h t)
    · rw [hk]
      exact woven_fail ht hexpected

theorem woven_accept (p : Punct) : Woven w allowed (accept p) fun _ => True := by
  refine woven_peek.bind fun t _ => ?_
  split
  · exact woven_advance.bind fun _ _ => .pure trivial
  · exact .pure trivial

theorem woven_expect (p : Punct) {expected : Expectation}
    (hexpected : expected.isOfExpression = false) :
    Woven w allowed (expect p expected) fun _ => True := by
  refine woven_peek.bind fun t ht => ?_
  split
  · exact woven_advance
  · exact woven_fail ht hexpected

theorem woven_atLineEnd : Woven w allowed atLineEnd fun _ => True :=
  woven_peek.bind fun _ _ => .pure trivial

theorem woven_endLine : Woven w allowed endLine fun _ => True := by
  refine woven_peek.bind fun t ht => ?_
  split
  · exact woven_advance
  · exact .pure trivial
  · exact woven_fail ht rfl

theorem woven_moreItems {item : Step α} (hitem : Woven w allowed item Q) (n n' : Nat)
    {items : List α} (hitems : ∀ a ∈ items, Q a) :
    Weaves w allowed (moreItems item n items) (moreItems item n' items) fun items => ∀ a ∈ items,
      Q a := by
  induction n generalizing n' items with
  | zero => exact .throw (by simp) _
  | succ n ih =>
    refine .fuelled (moreItems item · items) rfl (fun n' => ?_) n'
    refine (woven_accept .comma).bind fun more _ => ?_
    split
    · refine hitem.bind fun next hnext => ih n' ?_
      exact List.forall_mem_append.mpr ⟨hitems, by simpa using hnext⟩
    · exact .pure hitems

/-! ## Expressions -/

theorem woven_expression : Woven w allowed expression w.expr := by
  refine .get_bind fun r r' halike hr => ?_
  rw [halike.state]
  exact .reading ((Expr.weaves_read trivial).retraces rfl) (Expr.weaves_read hr.2).watched

theorem woven_valued {f : Resolver → Expr → Except Cause α} (hf : ∀ r e, ShowsLine (f r e)) :
    Woven w allowed (do
      let t ← peek
      let e ← expression
      located t (ofExcept (f (← resolver) e))) fun _ => True := by
  refine woven_peek.bind fun t ht => ?_
  refine woven_expression.bind fun e _ => ?_
  exact woven_resolver.bind fun r _ => (woven_ofExcept (hf r e)).forget.located ht

theorem woven_constant : Woven w allowed constant fun _ => True :=
  woven_valued Expr.showsLine_constant

theorem woven_constantText : Woven w allowed constantText fun _ => True :=
  woven_valued Expr.showsLine_constantText

theorem woven_expressions : Woven w allowed expressions fun es => ∀ e ∈ es, w.expr e := by
  refine woven_atLineEnd.bind fun ends _ => ?_
  split
  · exact .pure (by simp)
  · refine woven_expression.bind fun first hfirst => ?_
    exact woven_bound_bind fun n n' => woven_moreItems woven_expression n n' (by simpa using hfirst)

/-! ## The state -/

omit h in
theorem admits_of_undefined {op : Operation} (hop : op.defined? = none) : Admits w op := by
  constructor
  · intro hdefines
    rw [hop] at hdefines
    cases hdefines
  · rintro spelling exported location rfl
    cases hop

omit h in
theorem woven_change (op : Operation) (hop : op.Issued) (hallowed : allowed op = true)
    (hnone : op.defined? = none) {f : State → Except Error State} {events : State → List Event}
    (hf : ∀ s : State, s.perform op = (f s).map fun s => (.done, s)) :
    Woven w allowed (change f events) fun _ => True :=
  .performs hop hallowed (admits_of_undefined hnone) (performs_change hf)

omit h in
theorem woven_update (op : Operation) (hop : op.Issued) (hallowed : allowed op = true)
    (hnone : op.defined? = none) {answer : State → Answer} {f : State → State}
    (hf : ∀ s : State, s.perform op = .ok (answer s, f s)) :
    Woven w allowed (update f) fun _ => True :=
  .performs hop hallowed (admits_of_undefined hnone) (performs_update hf)

/-! ## Raw parts -/

theorem woven_moreArguments (n n' : Nat) (isOpen : Bool) (args : List String) :
    Weaves w allowed (moreArguments n isOpen args) (moreArguments n' isOpen args) fun _ =>
      True := by
  have hconsume : Woven w allowed (discard (advanceAs .argument)) fun _ => True :=
    (woven_advanceAs .argument).discard
  induction n generalizing n' isOpen args with
  | zero => exact .throw (by simp) _
  | succ n ih =>
    refine .fuelled (moreArguments · isOpen args) rfl (fun n' => ?_) n'
    refine woven_peek.bind fun t ht => ?_
    split
    · exact hconsume.bind fun _ _ => ih n' _ _
    · exact hconsume.bind fun _ _ => ih n' _ _
    · exact hconsume.bind fun _ _ => (Weaves.request _).bind fun _ _ => .pure trivial
    · exact hconsume.bind fun _ _ => (Weaves.request _).bind fun _ _ => .pure trivial
    · exact woven_fail ht rfl

theorem woven_rawArguments : Woven w allowed rawArguments fun _ => True :=
  (Weaves.request _).bind fun _ _ => woven_bound_bind fun n n' => woven_moreArguments n n' _ _

theorem woven_rawBlock (closing opening : String) :
    Woven w allowed (rawBlock closing opening) fun _ => True := by
  refine (Weaves.request _).bind fun _ _ => ?_
  refine (woven_advanceAs .block).bind fun body _ => ?_
  exact (Weaves.request _).bind fun _ _ => .pure trivial

theorem woven_macroBody (name : Token) (spelling : String) :
    Woven w allowed (macroBody name spelling)
      (w.tells name fun form => ∃ body, form = .macroBody spelling body) := by
  refine woven_advance.bind fun _ _ => ?_
  refine (woven_rawBlock _ _).bind fun body _ => ?_
  refine woven_endLine.bind fun _ _ => ?_
  exact (Weaves.note _ _).bind fun _ _ => woven_statement name trivial ⟨body, rfl⟩

/-- A step that begins with the first token of a part. -/
abbrev BeginsPart (w : Watch) (allowed : Operation → Bool) (p : Part) (x : Step Statement) : Prop :=
  Begins w allowed x fun t => w.tells t (·.isOf p = true)

theorem begins_macroCall (spelling : String) :
    BeginsPart w allowed (.call spelling) (macroCall spelling) := by
  refine ⟨_, rfl, fun name _ => ?_⟩
  exact woven_rawArguments.bind fun args _ => woven_statement name trivial rfl

theorem begins_repetition : BeginsPart w allowed (.directive .repeatStart) repetition := by
  refine ⟨_, rfl, fun word hword => ?_⟩
  refine woven_expression.bind fun count _ => ?_
  refine woven_peek.bind fun t ht => ?_
  split
  · refine woven_advance.bind fun _ _ => ?_
    exact (woven_rawBlock _ _).bind fun body _ => woven_statement word trivial rfl
  · refine (woven_locationOf word).bind fun location hlocation => .throw ?_ _
    rcases hlocation with ⟨s, hs, rfl⟩
    intro e he
    cases he
    exact h.bare hs hword rfl
  · exact woven_fail ht rfl

/-! ## Definitions -/

section

variable {spelling : String} {name : Token} (hname : w.token name)
  (hall : ∀ op : Operation, op.defined? = none ∨ op.defined? = some spelling → allowed op = true)
include hname hall

omit h in
theorem woven_label (hlabel : w.declares spelling) (exported : Bool) :
    Woven w allowed (label name spelling exported)
      (w.tells name fun form => ∃ full exported value placed,
        form = .label full exported value placed) := by
  refine (woven_locationOf name).bind fun location hlocation => ?_
  have hadmits : Admits w (.defineLabel spelling exported (some location)) := by
    refine ⟨fun _ => ⟨name, location, hname, hlocation, rfl⟩, ?_⟩
    intro spelling' exported' location' hop
    cases hop
    exact hlabel
  have hdefine : Woven w allowed (define fun s => s.defineLabel spelling exported (some location))
      fun _ => True :=
    .performs (show Operation.Issued (.defineLabel spelling exported (some location)) from trivial)
      (hall _ (.inr rfl)) hadmits (performs_define fun _ => rfl)
  exact (hdefine.located hname).bind fun _ _ => .pure ⟨trivial, ⟨_, _, _, _, rfl⟩, hlocation.line⟩

omit w h allowed hname hall in
theorem says_label {exported : Bool} {r r' : Run} {st : Statement}
    (hst : label name spelling exported r = .ok st r') :
    (∃ full exported value placed, st.form = .label full exported value placed) ∧
      st.location.line = name.line :=
  ((woven_label trivial (fun _ _ => rfl) (Watch.declares_free spelling) exported).returns hst).2

omit h in
theorem woven_define {location : Location} (hlocation : w.locates name location) (op : Operation)
    (hissued : op.Issued) (hplace : op.place = some location)
    (hdefined : op.defined? = some spelling)
    (hop : ∀ spelling exported location, op ≠ .defineLabel spelling exported location)
    {f : State → Except Error (Symbol × State)}
    (hf : ∀ s : State, s.perform op = (f s).map fun r => (.symbol r.1, r.2)) :
    Woven w allowed (define f) fun _ => True := by
  refine .performs hissued (hall op (.inr hdefined))
    ⟨fun _ => ⟨name, location, hname, hlocation, hplace⟩, ?_⟩ (performs_define hf)
  intro spelling exported location hlabel
  exact absurd hlabel (hop spelling exported location)

variable {location : Location} (hlocation : w.locates name location)
include hlocation

theorem woven_storageField (width : Int) :
    Woven w allowed (storageField spelling width (some location)) fun _ => True := by
  refine woven_atLineEnd.bind fun ends _ => ?_
  have hfield : ∀ count : Int, Woven w allowed (do
      let offset := (← get).state.storage
      update fun s => (s.advanceStorage (count * width)).2
      define fun s => s.defineConstant spelling offset false (some location)) fun _ => True := by
    intro count
    refine .get_bind fun r r' halike _ => ?_
    rw [halike.state]
    refine (woven_update (.advanceStorage (count * width)) trivial (hall _ (.inl rfl)) rfl
      fun _ => rfl).bind fun _ _ => ?_
    exact woven_define hname hall hlocation
      (.defineConstant spelling r.state.storage false (some location))
      trivial rfl rfl (by simp) fun _ => rfl
  split
  · exact hfield 1
  · exact woven_constant.bind fun count _ => hfield count

theorem woven_defineBy (definer : Definer) :
    Woven w allowed (defineBy definer spelling (some location)) fun _ => True := by
  have hdefine := @woven_define w allowed spelling name hname hall location hlocation
  cases definer with
  | equ =>
    refine woven_constant.bind fun value _ => ?_
    exact hdefine (.defineConstant spelling value false (some location)) trivial rfl rfl (by simp)
      fun _ => rfl
  | set | assign =>
    refine woven_constant.bind fun value _ => ?_
    exact hdefine (.defineVariable spelling value (some location)) trivial rfl rfl (by simp)
      fun _ => rfl
  | equs =>
    refine woven_constantText.bind fun text _ => ?_
    exact hdefine (.defineText spelling text (some location)) trivial rfl rfl (by simp) fun _ => rfl
  | rb => exact woven_storageField hname hall hlocation 1
  | rw => exact woven_storageField hname hall hlocation 2
  | rl => exact woven_storageField hname hall hlocation 4

omit hlocation in
theorem woven_definition : Woven w allowed (definition name spelling) (w.tells name fun form =>
    (∃ body, form = .macroBody spelling body) ∨
      ∃ full kind value definer, form = .symbol full kind value definer) := by
  refine woven_peek.bind fun t ht => ?_
  split
  · exact (woven_macroBody name spelling).imp fun _ hst => ⟨hst.1, .inl hst.2.1, hst.2.2⟩
  · split
    · exact woven_fail ht rfl
    · next definer _ =>
      refine woven_advance.bind fun _ _ => ?_
      refine (woven_locationOf name).bind fun location hlocation => ?_
      refine ((woven_defineBy hname hall hlocation definer).located hname).bind fun symbol _ => ?_
      exact woven_endLine.bind fun _ _ => .pure ⟨trivial, .inr ⟨_, _, _, _, rfl⟩, hlocation.line⟩

end

/-! ## Directives -/

/-- One attribute of a section, added to those it has. -/
def oneAttribute (attributes : Attributes) : Step Attributes := do
  let t ← peek
  match attribute? t.lexeme with
  | none => fail t .attributeName
  | some word =>
    discard advance
    if (attributes.get? word).isSome then fail t (.freshAttribute word)
    else
      expect .leftBracket (.attributeStart word)
      let value ← constant
      expect .rightBracket (.attributeEnd word)
      pure (attributes.set word value)

theorem moreAttributes_succ (n : Nat) (attributes : Attributes) :
    moreAttributes (n + 1) attributes = (do
      if ← accept .comma then moreAttributes n (← oneAttribute
        attributes) else pure attributes) := by
  refine bind_congr fun more => ?_
  cases more with
  | false => rfl
  | true =>
    simp only [if_true, oneAttribute, bind_assoc]
    refine bind_congr fun t => ?_
    cases attribute? t.lexeme with
    | none => rfl
    | some word =>
      simp only [bind_assoc]
      refine bind_congr fun _ => ?_
      split
      · rfl
      · simp only [bind_assoc, pure_bind]

theorem woven_oneAttribute (attributes : Attributes) :
    Woven w allowed (oneAttribute attributes) fun _ => True := by
  refine woven_peek.bind fun t ht => ?_
  split
  · exact woven_fail ht rfl
  · refine woven_advance.bind fun _ _ => ?_
    split
    · exact woven_fail ht rfl
    · refine (woven_expect _ rfl).bind fun _ _ => ?_
      refine woven_constant.bind fun value _ => ?_
      exact (woven_expect _ rfl).bind fun _ _ => .pure trivial

theorem woven_moreAttributes (n n' : Nat) (attributes : Attributes) :
    Weaves w allowed (moreAttributes n attributes) (moreAttributes n' attributes)
      fun _ => True := by
  induction n generalizing n' attributes with
  | zero => exact .throw (by simp) _
  | succ n ih =>
    refine .fuelled (moreAttributes · attributes) rfl (fun n' => ?_) n'
    rw [moreAttributes_succ, moreAttributes_succ]
    refine (woven_accept .comma).bind fun more _ => ?_
    split
    · exact (woven_oneAttribute attributes).bind fun _ _ => ih n' _
    · exact .pure trivial

theorem woven_region : Woven w allowed region fun _ => True := by
  refine woven_peek.bind fun t ht => ?_
  split
  · exact woven_advance.bind fun _ _ => .pure trivial
  · exact woven_fail ht rfl

theorem woven_fixedAddress : Woven w allowed fixedAddress fun _ => True := by
  refine (woven_accept _).bind fun given _ => ?_
  split
  · refine woven_constant.bind fun address _ => ?_
    exact (woven_expect _ rfl).bind fun _ _ => .pure trivial
  · exact .pure trivial

theorem woven_enter (hall : ∀ op : Operation, op.suits .sectionStart = true → allowed op = true)
    (requested : Section) : Woven w allowed (enter requested) fun _ => True := by
  refine (woven_ofExcept requested.showsLine_make).bind fun block hmake => ?_
  split
  · next hload =>
    refine (woven_change (.enterLoad block) ?_ (hall _ rfl) rfl fun _ => rfl).bind fun _ _ =>
      .pure trivial
    exact ⟨hload, requested, hmake⟩
  · next hload =>
    refine (woven_change (.enterSection block) ?_ (hall _ rfl) rfl fun _ => rfl).bind
      fun _ _ => .pure trivial
    exact ⟨by simpa using hload, requested, hmake⟩

theorem begins_placement
    (hall : ∀ op : Operation, op.suits .sectionStart = true → allowed op = true)
    (hd : ∀ block, (Form.placement block).isOf (.directive d) = true) (load : Bool) :
    BeginsPart w allowed (.directive d) (placement load) := by
  refine ⟨_, rfl, fun word hword => ?_⟩
  refine woven_constantText.bind fun name _ => ?_
  refine (woven_expect _ rfl).bind fun _ _ => ?_
  refine woven_region.bind fun region _ => ?_
  refine woven_fixedAddress.bind fun address _ => ?_
  refine woven_bound_bind fun n n' => ?_
  refine (woven_moreAttributes n n' _).bind fun attributes _ => ?_
  refine ((woven_enter hall _).located hword).bind fun block _ => ?_
  exact woven_statement word trivial (hd block)

theorem showsLine_dataValue (r : Resolver) (width : Int) (e : Expr) :
    ShowsLine (dataValue r width e) := by
  unfold dataValue
  split
  · exact showsLine_ok _
  · split
    · exact Expr.showsLine_operand r _ _
    · split
      · exact Expr.showsLine_operand r _ _
      · exact Expr.showsLine_fold r _

theorem woven_values (d : Directive) : Woven w allowed (values d) fun _ => True := by
  refine woven_expressions.bind fun given _ => ?_
  refine woven_resolver.bind fun r _ => ?_
  have hstored := ShowsLine.mapM (showsLine_dataValue r (unitWidth d)) given
  exact (woven_ofExcept hstored).bind fun stored _ => .pure trivial

theorem woven_reservation : Woven w allowed reservation fun _ => True := by
  refine woven_constant.bind fun count _ => ?_
  split
  · exact woven_stop rfl
  · have hfill : Woven w allowed (do
        let e ← expression
        ofExcept (e.operand (← resolver) .byte)) fun _ => True := by
      refine woven_expression.bind fun e _ => ?_
      exact woven_resolver.bind fun r _ => (woven_ofExcept (e.showsLine_operand r .byte)).forget
    refine woven_bound_bind fun n n' => ?_
    exact (woven_moreItems hfill n n' (by simp)).bind fun fills _ => .pure trivial

theorem begins_data (hall : ∀ op : Operation, op.suits .db = true → allowed op = true)
    (hd : ∀ values size, (Form.data d values size).isOf (.directive d) = true) :
    BeginsPart w allowed (.directive d) (data d) := by
  refine ⟨_, rfl, fun word hword => ?_⟩
  have hstored : Woven w allowed (if d = .ds then reservation else values d) fun _ => True := by
    split
    · exact woven_reservation
    · exact woven_values d
  refine (hstored.located hword).bind fun stored _ => ?_
  refine (woven_update (.advance stored.2) trivial (hall _ rfl) rfl fun _ => rfl).bind fun _ _ => ?_
  exact woven_statement word trivial (hd _ _)

theorem woven_gravity : Woven w allowed gravity fun _ => True := by
  refine woven_peek.bind fun t ht => ?_
  split
  · refine woven_advance.bind fun _ _ => ?_
    exact (woven_expect _ rfl).bind fun _ _ => .pure trivial
  · exact .pure trivial

theorem begins_assertion (hd : ∀ a, (Form.assertion a).isOf (.directive d) = true)
    (isStatic : Bool) : BeginsPart w allowed (.directive d) (assertion isStatic) := by
  refine ⟨_, rfl, fun word _ => ?_⟩
  refine woven_gravity.bind fun gravity _ => ?_
  refine woven_expression.bind fun condition _ => ?_
  refine (woven_accept _).bind fun given _ => ?_
  split
  · have hmessage : Woven w allowed (some <$> constantText) fun _ => True :=
      woven_constantText.map _ fun _ _ => trivial
    exact hmessage.bind fun message _ => woven_statement word trivial (hd _)
  · exact woven_statement word trivial (hd _)

theorem woven_symbolAction (hall : ∀ op : Operation, op.suits .purge = true → allowed op = true)
    (d : Directive) : Woven w allowed (symbolAction d) fun _ => True := by
  refine woven_peek.bind fun t ht => ?_
  split
  · exact woven_fail ht rfl
  · next spelling _ =>
    refine woven_advance.bind fun _ _ => ?_
    refine (woven_locationOf t).bind fun location _ => ?_
    refine (Weaves.get_bind fun r r' halike _ => ?_).located ht
    rw [halike.state]
    refine (woven_ofExcept (r.state.showsLine_qualify spelling)).bind fun name _ => ?_
    split
    · exact (woven_change (.purge name) trivial (hall _ rfl) rfl fun _ => rfl).bind
        fun _ _ => .pure trivial
    · exact (woven_change (.exportName name (some location)) trivial (hall _ rfl) rfl
        fun _ => rfl).bind fun _ _ => .pure trivial

theorem woven_symbolList (hall : ∀ op : Operation, op.suits .purge = true → allowed op = true)
    (d : Directive) : Woven w allowed (symbolList d) fun _ => True := by
  refine (woven_symbolAction hall d).bind fun first _ => ?_
  refine woven_bound_bind fun n n' => ?_
  exact (woven_moreItems (woven_symbolAction hall d) n n' (by simp)).bind fun names _ =>
    .pure trivial

section

variable {d : Directive} (hall : ∀ op : Operation, op.suits d = true → allowed op = true)
include hall

theorem woven_directiveArguments : Woven w allowed (directiveArguments d) fun _ => True := by
  unfold directiveArguments
  split
  · refine .get_bind fun r r' halike _ => ?_
    rw [halike.state]
    exact (woven_change .endLoad trivial (hall _ rfl) rfl fun _ => rfl).bind fun _ _ =>
      .pure trivial
  · exact (woven_change .pushSection trivial (hall _ rfl) rfl fun _ => rfl).bind fun _ _ =>
      .pure trivial
  · exact (woven_change .popSection trivial (hall _ rfl) rfl fun _ => rfl).bind fun _ _ =>
      .pure trivial
  iterate 4 exact .pure trivial
  · exact (woven_update (.resetStorage 0) trivial (hall _ rfl) rfl fun _ => rfl).bind
      fun _ _ => .pure trivial
  · refine woven_constant.bind fun value _ => ?_
    exact (woven_update (.resetStorage value) trivial (hall _ rfl) rfl fun _ => rfl).bind
      fun _ _ => .pure trivial
  iterate 3 exact woven_symbolList hall _
  · exact woven_expressions.map _ fun _ _ => trivial

theorem opens_directive :
    Opens w allowed (fun t => w.tells t (·.isOf (.directive d) = true)) (directive d) := by
  have hpassed : ∀ {d : Directive} {args : List Argument},
      (Form.directive d args).isOf (.directive d) = true := by
    simp [Form.isOf]
  refine .peek fun t ht => ?_
  split
  · exact .inl (begins_placement hall (fun _ => rfl) false)
  · exact .inl (begins_placement hall (fun _ => rfl) true)
  iterate 4 exact .inl (begins_data hall fun _ _ => rfl)
  · exact .inl (begins_assertion (fun _ => rfl) false)
  · exact .inl (begins_assertion (fun _ => rfl) true)
  · exact .inl begins_repetition
  · refine .inr (.inl ⟨_, rfl, ?_⟩)
    exact woven_rawArguments.bind fun args _ => woven_statement t trivial hpassed
  -- words that need a name before them, parts of conditionals, and words without a meaning
  iterate 13 exact .inr (.inr ⟨_, rfl, rfl⟩)
  refine .inr (.inl ⟨_, rfl, ?_⟩)
  exact (woven_directiveArguments hall).bind fun args _ => woven_statement t trivial hpassed

end

/-! ## Instructions -/

/-- An operand is a written one, and the expression in it, if there is one, is watched. -/
abbrev WovenOperand (w : Watch) (allowed : Operation → Bool) (x : Step Operand) : Prop :=
  Woven w allowed x fun o => o.isWritten = true ∧ ∀ e ∈ o.expr?, w.expr e

omit h in
theorem wovenOperand_pure {o : Operand} (hwritten : o.isWritten = true) (ho : o.expr? = none) :
    WovenOperand w allowed (pure o) := by
  refine .pure ⟨hwritten, ?_⟩
  intro e he
  rw [ho] at he
  cases he

theorem woven_stackOffset (negative : Bool) : WovenOperand w allowed (stackOffset negative) := by
  refine woven_advance.bind fun _ _ => ?_
  refine woven_expression.bind fun e he => .pure ⟨rfl, ?_⟩
  intro e' he'
  cases he'
  split
  · exact h.unary (by simp) he
  · exact he

theorem woven_registerOperand {r : Reg} (hr : (Operand.register r).isWritten = true) :
    WovenOperand w allowed (registerOperand r) := by
  refine woven_advance.bind fun _ _ => ?_
  split
  · refine woven_peek.bind fun t _ => ?_
    split
    · exact woven_stackOffset false
    · exact woven_stackOffset true
    · exact wovenOperand_pure hr rfl
  · exact wovenOperand_pure hr rfl

theorem woven_pointerOperand {p : Pointer} (hp : (Operand.pointer p).isWritten = true) :
    WovenOperand w allowed (pointerOperand p) := by
  refine woven_advance.bind fun _ _ => ?_
  have hclose : ∀ p : Pointer, (Operand.pointer p).isWritten = true → WovenOperand w allowed (do
      expect .rightBracket .closingBracket
      Pure.pure (Operand.pointer p)) :=
    fun p hp => (woven_expect _ rfl).bind fun _ _ => wovenOperand_pure hp rfl
  split
  · refine woven_peek.bind fun t _ => ?_
    split
    · exact woven_advance.bind fun _ _ => hclose _ rfl
    · exact woven_advance.bind fun _ _ => hclose _ rfl
    · exact hclose _ hp
  · exact hclose _ hp

theorem woven_highPointerAhead : Woven w allowed highPointerAhead fun _ => True := by
  refine woven_peek.bind fun t _ => ?_
  split
  · refine (woven_peekAt 1).bind fun t _ => ?_
    split
    · refine (woven_peekAt 2).bind fun t _ => ?_
      split
      · exact (woven_peekAt 3).bind fun t _ => .pure trivial
      · exact .pure trivial
    · exact .pure trivial
  · exact .pure trivial

theorem woven_bracketed : WovenOperand w allowed bracketed := by
  refine woven_advance.bind fun _ _ => ?_
  refine woven_peek.bind fun t _ => ?_
  split
  · next p hp =>
    apply woven_pointerOperand
    unfold pointer? at hp
    split at hp
    · exact Operand.isWritten_pointer hp
    · cases hp
  · refine woven_highPointerAhead.bind fun ahead _ => ?_
    split
    · refine woven_advance.bind fun _ _ => ?_
      refine woven_advance.bind fun _ _ => ?_
      refine woven_advance.bind fun _ _ => ?_
      exact woven_advance.bind fun _ _ => wovenOperand_pure rfl rfl
    · refine woven_expression.bind fun address haddress => ?_
      refine (woven_expect _ rfl).bind fun _ _ => .pure ⟨rfl, ?_⟩
      intro e he
      cases he
      exact haddress

theorem woven_operand : WovenOperand w allowed operand := by
  have himmediate : WovenOperand w allowed (.immediate <$> expression) := by
    refine woven_expression.map _ fun e he => ⟨rfl, ?_⟩
    intro e' he'
    cases he'
    exact he
  refine woven_peek.bind fun t _ => ?_
  split
  · split
    · next hr => exact woven_registerOperand (Operand.isWritten_register hr)
    · next hk =>
        exact woven_advance.bind fun _ _ => wovenOperand_pure (Operand.isWritten_condition hk) rfl
    · exact himmediate
  · exact woven_bracketed
  · exact himmediate

theorem woven_operands :
    Woven w allowed operands fun os => ∀ o ∈ os, o.isWritten = true ∧ ∀ e ∈ o.expr?, w.expr e := by
  refine woven_atLineEnd.bind fun ends _ => ?_
  split
  · exact .pure (by simp)
  · refine woven_operand.bind fun first hfirst => ?_
    exact woven_bound_bind fun n n' => woven_moreItems woven_operand n n' (by simpa using hfirst)

theorem begins_instruction (hall : ∀ op : Operation, op.suits .db = true → allowed op = true)
    (m : Mnemonic) : BeginsPart w allowed (.instruction m) (instruction m) := by
  refine ⟨_, rfl, fun word hword => ?_⟩
  refine woven_operands.bind fun operands hoperands => ?_
  have hencode : Woven w allowed (do ofExcept (encode (← resolver) m operands)) fun _ => True :=
    woven_resolver.bind fun r _ => (woven_ofExcept (Encode.showsLine_encode r m operands)).forget
  refine (hencode.located hword).bind fun record _ => ?_
  refine (Weaves.note _ _).bind fun _ _ => ?_
  refine .get_bind fun r r' halike _ => ?_
  rw [halike.state]
  refine (woven_update (.advance record.size) trivial (hall _ rfl) rfl fun _ => rfl).bind fun _ _ =>
    ?_
  exact woven_statement word (fun o ho => (hoperands o ho).2) rfl

/-! ## Lines -/

/-- The statements of a line are watched. -/
abbrev WovenLine (w : Watch) (allowed : Operation → Bool) (x : Step (List Statement)) : Prop :=
  Woven w allowed x fun ss => ∀ st ∈ ss, w.statement st

omit h in
theorem woven_single {x : Step Statement} (hx : Woven w allowed x w.statement) :
    WovenLine w allowed (do
      let statement ← x
      pure [statement]) :=
  hx.bind fun st hst => .pure (by simpa using hst)

theorem begins_conditional (d : Directive) :
    BeginsPart w allowed (.conditional d) (conditional d) := by
  refine ⟨_, rfl, fun word _ => ?_⟩
  have hend : ∀ condition : Option Expr, Woven w allowed (do
      endLine
      Pure.pure (⟨← locationOf word, .conditional d condition⟩ : Statement))
      (w.tells word (·.isOf (.conditional d) = true)) :=
    fun condition => woven_endLine.bind fun _ _ => woven_statement word trivial rfl
  split
  · have hcondition : Woven w allowed (some <$> expression) fun _ => True :=
      woven_expression.map _ fun _ _ => trivial
    exact hcondition.bind fun condition _ => hend condition
  · exact hend none

theorem opens_step {p : Part} (hall : ∀ op, p.allows op = true → allowed op = true) :
    Opens w allowed (fun t => w.tells t (·.isOf p = true)) p.step := by
  cases p with
  | call spelling => exact .begins (begins_macroCall spelling)
  | instruction m => exact .begins (begins_instruction hall m)
  | directive d => exact opens_directive hall
  | conditional d => exact .begins (begins_conditional d)

theorem woven_step {p : Part} (hall : ∀ op, p.allows op = true → allowed op = true) :
    Woven w allowed p.step w.statement :=
  (opens_step hall).woven fun _ _ hst => hst.1

omit w h allowed in
theorem isOf_of_step {p : Part} {r r' : Run} {st : Statement} (hst : p.step r = .ok st r') :
    st.form.isOf p = true :=
  ((opens_step (w := .free)  fun _ _ => rfl).woven fun _ _ hst => hst.2.1).returns hst

theorem woven_colon : Woven w allowed colon fun _ => True := by
  refine woven_peek.bind fun t _ => ?_
  split
  · exact woven_advance.bind fun _ _ => .pure trivial
  · exact woven_advance.bind fun _ _ => .pure trivial
  · exact .pure trivial

theorem suits_defined? {op : Operation} (hop : op.suits d = true) : op.defined? = none := by
  cases op <;> first | rfl | cases hop

/-- The body of a line is woven. -/
theorem woven_body (hall : ∀ op : Operation, op.defined? = none → allowed op = true) :
    WovenLine w allowed body := by
  have hsuits : ∀ (d : Directive) (op : Operation), op.suits d = true → allowed op = true :=
    fun d op hop => hall op (suits_defined? hop)
  have hempty : WovenLine w allowed (do
      endLine
      pure []) :=
    woven_endLine.bind fun _ _ => .pure (by simp)
  refine woven_peek.bind fun t ht => ?_
  split
  · exact hempty
  · exact hempty
  · exact woven_single (woven_step (p := .call _) fun _ hop => nomatch hop)
  · split
    · refine (woven_step (p := .instruction _) (hsuits .db)).bind fun st hst => ?_
      exact woven_endLine.bind fun _ _ => .pure (by simpa using hst)
    · refine (woven_step (p := .directive _) (hsuits _)).bind fun st hst => ?_
      split
      · exact woven_endLine.bind fun _ _ => .pure (by simpa using hst)
      · exact .pure (by simpa using hst)
    · exact woven_fail ht rfl
  · exact woven_fail ht rfl

theorem begins_declaration {spelling : String} (hlabel : w.declares spelling)
    (hall : ∀ op : Operation, op.defined? = none ∨ op.defined? = some spelling →
      allowed op = true) :
    Begins w allowed (declaration spelling) fun _ ss => ∀ st ∈ ss, w.statement st := by
  refine ⟨_, rfl, fun name hname => ?_⟩
  refine woven_colon.bind fun mark _ => ?_
  have hdefinition := woven_single ((woven_definition hname hall).imp fun _ hst => hst.1)
  split
  · exact hdefinition
  · refine woven_peek.bind fun _ _ => ?_
    split
    · exact hdefinition
    · refine (woven_label hname hall hlabel _).bind fun st hst => ?_
      refine (woven_body fun op hop => hall op (.inl hop)).bind fun rest hrest => .pure ?_
      exact List.forall_mem_cons.mpr ⟨hst.1, hrest⟩

/-- A line is woven. -/
theorem woven_line : WovenLine w (fun _ => true) line := by
  refine woven_peek.bind fun t ht => ?_
  split
  · exact woven_advance.bind fun _ _ => .pure (by simp)
  · split
    · exact woven_single (woven_step (p := .conditional _) fun _ _ => rfl)
    · next hspelling => exact (begins_declaration
        ⟨t, ht, hspelling⟩ fun _ _ => rfl).woven fun _ _ hss => hss
    · exact woven_body fun _ _ => rfl

theorem woven_nextLine :
    Woven w (fun _ => true) nextLine fun next => ∀ ss, next = some ss →
      ∀ st ∈ ss, w.statement st := by
  refine woven_peek.bind fun t ht => ?_
  split
  · exact .pure (by simp)
  · refine (woven_line.located ht).map _ ?_
    intro ss hss ss' hss'
    cases hss'
    exact hss

omit w h in
theorem retraces_nextLine : Retraces nextLine nextLine :=
  woven_nextLine.retraces

omit w h in
/-- A line changes the state by operations only. -/
theorem operates_nextLine : Operates nextLine :=
  woven_nextLine.operates

end Step

end Sm83
