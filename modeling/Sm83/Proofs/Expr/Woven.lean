import Sm83.Proofs.Watch

/-!
# How expressions are woven

The walk over the reader of expressions, made once. What a watch says of tokens is carried on to the
expressions and errors that come of them, and an expression read from some lines is read from the
same lines again, whatever stands behind them and with any fuel that does not run out.
-/

namespace Sm83

namespace Reading

/-- The first reading is watched, and the second retraces it. Where nothing is watched, what the
first returns is known of all its runs. -/
structure Weaves {α : Type} (w : Watch) (x y : Reading α) (Q : α → Prop) : Prop where
  watched : Watched w x Q
  retraces : w = .free → Retraces x y

namespace Weaves

variable {α β : Type} {w : Watch} {x y : Reading α} {Q : α → Prop} {Q' : β → Prop}

theorem pure {a : α} (h : Q a) : Weaves w (pure a) (pure a) Q :=
  ⟨.pure h, fun _ => .pure a⟩

theorem throw {f : Failure} (h : ∀ e, f = .error e → w.error e) (y : Reading α) :
    Weaves w (throw f) y Q :=
  ⟨.throw h, fun _ => .throw f y⟩

theorem bind {k k' : α → Reading β} (hx : Weaves w x y Q)
    (hk : ∀ a, Q a → Weaves w (k a) (k' a) Q') : Weaves w (x >>= k) (y >>= k') Q' := by
  refine ⟨hx.watched.bind fun a ha => (hk a ha).watched, ?_⟩
  rintro rfl
  exact (hx.retraces rfl).bind_of fun h => (hk _ (hx.watched.of_ok trivial h).2).retraces rfl

theorem map (f : α → β) (hx : Weaves w x y Q) (h : ∀ a, Q a → Q' (f a)) :
    Weaves w (f <$> x) (f <$> y) Q' := by
  rw [map_eq_pure_bind, map_eq_pure_bind]
  exact hx.bind fun a ha => pure (h a ha)

theorem discard (hx : Weaves w x y Q) : Weaves w (discard x) (discard y) fun _ => True :=
  hx.map _ fun _ _ => trivial

theorem fuelled (run : Nat → Reading α) (hzero : run 0 = MonadExcept.throw Failure.exhausted)
    (hsucc : ∀ n, Weaves w x (run (n + 1)) Q) (n : Nat) : Weaves w x (run n) Q :=
  ⟨(hsucc 0).watched, fun hw => .fuelled run hzero (fun n => (hsucc n).retraces hw) n⟩

variable [w.Lawful]

theorem peek : Weaves w peek peek w.token :=
  ⟨watched_peekAt 0, fun _ => retraces_peek⟩

theorem advance : Weaves w advance advance w.token :=
  ⟨watched_advanceAs .code, fun _ => retraces_advanceAs .code⟩

end Weaves

end Reading

namespace Expr

theorem operator?_ne_other {level : List (Punct × BinaryOp)} (hlevel : level ∈ levels) {l : Lexeme}
    {op : BinaryOp} (h : operator? level l = some op) (s : String) : op ≠ .other s := by
  have hknown : ∀ level ∈ levels, ∀ o ∈ level, ∀ s, o.2 ≠ BinaryOp.other s := by
    simp [levels, or_imp, forall_and]
  cases l with
  | punct p =>
    obtain ⟨o, hfind, rfl⟩ := Option.map_eq_some_iff.mp h
    exact hknown level hlevel o (List.mem_of_find?_eq_some hfind) s
  | _ => cases h

theorem mem_builtin_of_function? {l : Lexeme} {f : Function} (h : function? l = some f) :
    f ∈ Function.builtin := by
  cases l with
  | keyword word =>
    have hfind : Function.builtin.find? (fun f => f.word == word) = some f := h
    exact List.mem_of_find?_eq_some hfind
  | _ => cases h

open Reading (Weaves)

variable {α : Type} {w : Watch} [h : w.Lawful]

theorem watched_prefixed? {l : Lexeme} {apply : Expr → Expr} (hl : prefixed? l = some apply)
    {e : Expr} (he : w.expr e) : w.expr (apply e) := by
  unfold prefixed? at hl
  split at hl <;> cases hl
  · exact h.unary (by simp) he
  · exact h.unary (by simp) he
  · exact h.unary (by simp) he
  · exact he

theorem weaves_advance : Weaves w (discard Reading.advance) (discard Reading.advance) fun _ =>
    True :=
  Weaves.advance.discard

theorem weaves_failAt {t : Token} (ht : w.token t) {fault : GrammarFault}
    (hfault : (Cause.grammar fault).omitsLine = true) {Q : α → Prop} :
    Weaves w (failAt t fault) (failAt t fault) Q := by
  refine ⟨.get_bind fun s hs => .throw ?_, fun _ => ⟨fun h => (by cases h), fun h => (by cases h)⟩⟩
  intro e he
  cases he
  exact h.bare hs ht hfault

theorem weaves_expectPunct (p : Punct) {expected : Expectation}
    (hexpected : expected.isOfExpression = true) :
    Weaves w (expectPunct p expected) (expectPunct p expected) fun _ => True := by
  refine Weaves.peek.bind fun t ht => ?_
  split
  · exact weaves_advance
  · have hfault : (Cause.grammar (.mismatch expected t.lexeme)).omitsLine = true := hexpected
    exact weaves_failAt ht hfault

/-- The operators of a level make watched expressions of watched ones. -/
def Joins (w : Watch) (level : List (Punct × BinaryOp)) : Prop :=
  ∀ {l : Lexeme} {op : BinaryOp} {a b : Expr}, operator? level l = some op → w.expr a → w.expr b →
    w.expr (.binary op a b)

/-- Names are completed to watched ones, or not at all. -/
def Completes (w : Watch) (qualify : String → Except Cause String) : Prop :=
  ∀ {t : Token} {s : String}, w.token t → t.lexeme = .localName s →
    (∀ full, qualify s = .ok full → w.expr (.symbol full)) ∧
      ∀ cause, qualify s = .error cause → w.error (.unlocated cause)

section

variable {operand operand' : Reading Expr} (hoperand : Weaves w operand operand' w.expr)

include hoperand

theorem weaves_chain {level : List (Punct × BinaryOp)} (hlevel : Joins w level) (n n' : Nat)
    {left : Expr} (hleft : w.expr left) :
    Weaves w (chain level operand n left) (chain level operand' n' left) w.expr := by
  induction n generalizing n' left with
  | zero => exact .throw (by simp) _
  | succ n ih =>
    refine .fuelled (chain level operand' · left) rfl (fun n' => ?_) n'
    refine Weaves.peek.bind fun t ht => ?_
    split
    · exact .pure hleft
    · next op hop =>
      refine weaves_advance.bind fun _ _ => ?_
      refine hoperand.bind fun right hright => ih n' ?_
      exact hlevel hop hleft hright

theorem weaves_ladder (n n' : Nat) {tighter : List (List (Punct × BinaryOp))}
    (htighter : ∀ level ∈ tighter, Joins w level) :
    Weaves w (ladder n operand tighter) (ladder n' operand' tighter) w.expr := by
  induction tighter with
  | nil => exact hoperand
  | cons level tighter ih =>
    have hinner := ih fun level hlevel => htighter level (List.mem_cons_of_mem _ hlevel)
    exact hinner.bind fun left hleft => weaves_chain hinner (htighter level List.mem_cons_self) n n'
      hleft

theorem weaves_readPrefixed (n n' : Nat) :
    Weaves w (readPrefixed operand n) (readPrefixed operand' n') w.expr := by
  induction n generalizing n' with
  | zero => exact .throw (by simp) _
  | succ n ih =>
    refine .fuelled (readPrefixed operand') rfl (fun n' => ?_) n'
    refine Weaves.peek.bind fun t ht => ?_
    split
    · next apply happly =>
      exact weaves_advance.bind fun _ _ => (ih n').map apply fun e he => watched_prefixed? happly he
    · exact hoperand

theorem weaves_moreArguments (n n' : Nat) {args : List Expr} (hargs : ∀ e ∈ args, w.expr e) :
    Weaves w (moreArguments operand n args) (moreArguments operand' n' args) fun args => ∀ e ∈ args,
      w.expr e := by
  induction n generalizing n' args with
  | zero => exact .throw (by simp) _
  | succ n ih =>
    refine .fuelled (moreArguments operand' · args) rfl (fun n' => ?_) n'
    refine Weaves.peek.bind fun t ht => ?_
    split
    · refine weaves_advance.bind fun _ _ => ?_
      refine hoperand.bind fun e he => ih n' ?_
      exact List.forall_mem_append.mpr ⟨hargs, by simpa using he⟩
    · exact .pure hargs

theorem weaves_readCall {f : Function} (hf : f ∈ Function.builtin) (n n' : Nat) :
    Weaves w (readCall f operand n) (readCall f operand' n') w.expr := by
  refine Weaves.advance.bind fun name hname => ?_
  refine (weaves_expectPunct _ rfl).bind fun _ _ => ?_
  refine Weaves.peek.bind fun t ht => ?_
  have hclose : ∀ args : List Expr, (∀ e ∈ args, w.expr e) → ∀ close : Reading Expr, close = (do
      expectPunct .rightParen (.callEnd f)
      if f.accepts args.length then pure (call f args) else failAt name (.arity f args.length)) →
      Weaves w close close w.expr := by
    rintro args hargs _ rfl
    refine (weaves_expectPunct _ rfl).bind fun _ _ => ?_
    split
    · next haccepts => exact .pure (h.call hf haccepts hargs)
    · exact weaves_failAt hname rfl
  split
  · exact hclose [] (by simp) _ rfl
  · refine hoperand.bind fun first hfirst => ?_
    exact (weaves_moreArguments hoperand n n' (by simpa using hfirst)).bind fun args hargs =>
      hclose args hargs _ rfl

theorem weaves_readAtom {qualify : String → Except Cause String} (hqualify : Completes w qualify)
    (n n' : Nat) : Weaves w (readAtom qualify operand n) (readAtom qualify operand' n') w.expr := by
  refine Weaves.peek.bind fun t ht => ?_
  split
  · next v hl => exact weaves_advance.bind fun _ _ => .pure (h.number ht hl)
  · exact weaves_advance.bind fun _ _ => .pure (h.text _)
  · next s hl => exact weaves_advance.bind fun _ _ => .pure (h.name ht hl)
  · next s hl =>
    refine weaves_advance.bind fun _ _ => ?_
    split
    · next full hfull => exact .pure ((hqualify ht hl).1 full hfull)
    · next cause hcause =>
      refine .throw ?_ _
      intro e he
      cases he
      exact (hqualify ht hl).2 cause hcause
  · refine weaves_advance.bind fun _ _ => ?_
    refine hoperand.bind fun e he => ?_
    exact (weaves_expectPunct _ rfl).bind fun _ _ => .pure he
  · split
    · next f hf => exact weaves_readCall hoperand (mem_builtin_of_function? hf) n n'
    · exact weaves_failAt ht rfl

end

/-- Expressions are woven at any fuel. -/
theorem weaves_readWithin {qualify : String → Except Cause String} (hqualify : Completes w qualify)
    (n n' : Nat) : Weaves w (readWithin qualify n) (readWithin qualify n') w.expr := by
  induction n generalizing n' with
  | zero => exact .throw (by simp) _
  | succ n ih =>
    refine .fuelled (readWithin qualify) rfl (fun n' => ?_) n'
    have hatom := weaves_readAtom (ih n') hqualify n n'
    exact weaves_ladder (weaves_readPrefixed hatom n n') n n' fun _ hlevel _ _ _ _ hop =>
      h.binary (operator?_ne_other hlevel hop)

/-- Reading an expression is woven. -/
theorem weaves_read {state : State} (hscope : w.scope state.scope) :
    Weaves w (read state.qualify) (read state.qualify) w.expr := by
  have hqualify : Completes w state.qualify := fun ht hl =>
    ⟨fun full => h.localName ht hl hscope,
      fun cause hcause => h.unplaced (state.showsLine_qualify _ cause hcause)⟩
  exact ⟨.get_bind fun s _ => (weaves_readWithin hqualify s.bound s.bound).watched,
    fun hw => .get_bind fun s s' _ => (weaves_readWithin hqualify s.bound s'.bound).retraces hw⟩

end Expr

end Sm83
