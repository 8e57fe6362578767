import Sm83.Expr.Read
import Sm83.Proofs.Expr.Calls
import Sm83.Proofs.Token.Framed

/-!
# Expressions read in tandem

Two streams are read in tandem if the tokens of the one stand for those of the other. An expression
that is read from the first is then read from the second, too. Reading ends before what is left has
been used up, so the bounds on the steps it takes are never reached, and every call that it reads
has as many arguments as its function takes.
-/

namespace Sm83

/-- Pairs of streams, the second of which is read as the first is. -/
structure Tandem where
  lenient : Prop
  fails : Failure → Stream → Prop
  /-- The second token stands for the first. -/
  token : Token → Token → Prop
  /-- The first stream has less than `m` left to be consumed. -/
  before : Nat → Stream → Stream → Prop
  /-- The same, and it has read ahead the token that comes next. -/
  seen : Nat → Token → Stream → Stream → Prop
  lexeme : ∀ {t t'}, token t t' → t'.lexeme = t.lexeme ∨ t.lexeme = .eof ∧ t'.lexeme = .newline
  peek : ∀ {m}, Follows lenient fails (before m) Reading.peek Reading.peek token (seen m)
  advance : ∀ {m t}, t.isEnd = false →
    Follows lenient fails (seen m t) Reading.advance Reading.advance
    (fun _ _ => True) fun _ => before (m - 1)
  forget : ∀ {m t s s'}, seen m t s s' → before m s s'
  mono : ∀ {m m' s s'}, m ≤ m' → before m s s' → before m' s s'
  pos : ∀ {m s s'}, before m s s' → 0 < m
  refuse : ∀ {m s s'} {err : Error}, before m s s' → err.cause.isOrdinary = true →
    fails (.error err) s
  enough : ∀ {m s s'}, before m s s' → ∃ k ≤ m, before k s s' ∧ k < s.bound ∧ k < s'.bound

namespace Tandem

variable {α : Type} {w : Tandem} {m : Nat}

/-- Two readings with less than `m` to read follow one another to the same value, of which `p`
holds. -/
def Reads (w : Tandem) (m : Nat) (x y : Reading α) (p : α → Prop) : Prop :=
  Follows w.lenient w.fails (w.before m) x y (fun a b => a = b ∧ p a) fun _ => w.before m

theorem pred {s s' : Stream} (h : w.before (m - 1) s s') : w.before m s s' :=
  w.mono (Nat.sub_le m 1) h

theorem vacuous {x y : Reading α} {p : α → Prop} : w.Reads 0 x y p :=
  Follows.vacuous fun _ _ h => Nat.lt_irrefl 0 (w.pos h)

theorem pass {t : Token} (ht : t.isEnd = false) : Follows w.lenient w.fails (w.seen m t)
    (discard Reading.advance) (discard Reading.advance) (fun _ _ => True) fun _ =>
      w.before (m - 1) :=
  (w.advance ht).discard fun _ _ _ h => h

theorem congr (f : Lexeme → α) (hf : f .eof = f .newline) {t t' : Token} (ht : w.token t t') :
    f t'.lexeme = f t.lexeme := by
  rcases w.lexeme ht with hsame | ⟨heof, hline⟩
  · rw [hsame]
  · rw [heof, hline, hf]

end Tandem

namespace Expr

variable {w : Tandem} {m n n' : Nat}

theorem follows_failAt {α : Type} {P : Stream → Stream → Prop}
    (hP : ∀ s s', P s s' → w.before m s s') {t t' : Token} {fault fault' : GrammarFault}
    {R : α → α → Prop} {Q : α → Stream → Stream → Prop} :
    Follows w.lenient w.fails P (failAt t fault) (failAt t' fault') R Q := by
  apply Follows.get_bind
  intro r r' _
  apply Follows.throw
  intro s s' h
  exact w.refuse (hP s s' h) rfl

theorem follows_expectPunct (p : Punct) (expected : Expectation) :
    Follows w.lenient w.fails (w.before m) (expectPunct p expected) (expectPunct p expected)
      (fun _ _ => True) fun _ => w.before m := by
  apply Follows.bind w.peek
  intro t t' htoken
  rw [w.congr (Lexeme.isPunct p) rfl htoken]
  split
  · next hp =>
    have ht := Token.isEnd_of_test (Lexeme.isPunct p) rfl hp
    exact (w.pass ht).post fun _ _ _ => w.pred
  · exact follows_failAt fun _ _ => w.forget

/-- Chains of operators are read in tandem. -/
theorem reads_chain {level : List (Punct × BinaryOp)} {operand operand' : Reading Expr}
    (hoperand : ∀ k ≤ m, w.Reads k operand operand' (·.legal = true)) (hn : m ≤ n) (hn' : m ≤ n')
    {left : Expr} (hleft : left.legal = true) :
    w.Reads m (chain level operand n left) (chain level operand' n' left) (·.legal = true) := by
  -- on the tokens left: each round takes an operator, so an operand has fewer of them to read
  induction m generalizing n n' left with
  | zero => exact w.vacuous
  | succ m ih =>
    rcases Nat.exists_eq_add_of_le' hn with ⟨n, rfl⟩
    rcases Nat.exists_eq_add_of_le' hn' with ⟨n', rfl⟩
    apply Follows.bind w.peek
    intro t t' htoken
    rw [w.congr (operator? level) rfl htoken]
    cases hop : operator? level t.lexeme with
    | none => exact .pure ⟨rfl, hleft⟩ fun _ _ => w.forget
    | some op =>
      have ht := Token.isEnd_of_spells (operator? level) rfl hop
      apply Follows.bind (w.pass ht)
      intro _ _ _
      apply Follows.bind (hoperand m (Nat.le_succ m))
      rintro right _ ⟨rfl, hright⟩
      have hwhole : (binary op left right).legal = true := everyCall_binary.mpr ⟨hleft, hright⟩
      have hrest := ih (fun k hk => hoperand k (Nat.le_succ_of_le hk))
        (Nat.le_add_left m n) (Nat.le_add_left m n') hwhole
      exact hrest.post fun _ _ _ => w.mono (Nat.le_succ m)

theorem reads_ladder {operand operand' : Reading Expr} {levels : List (List (Punct × BinaryOp))}
    (hoperand : ∀ k ≤ m, w.Reads k operand operand' (·.legal = true)) (hn : m ≤ n) (hn' : m ≤ n') :
    w.Reads m (ladder n operand levels) (ladder n' operand' levels) (·.legal = true) := by
  suffices hall : ∀ k ≤ m, w.Reads k (ladder n operand levels) (ladder n' operand' levels)
    (·.legal = true) from hall m (Nat.le_refl m)
  induction levels with
  | nil => exact hoperand
  | cons level tighter ih =>
    intro k hk
    apply Follows.bind (ih k hk)
    rintro left _ ⟨rfl, hleft⟩
    exact reads_chain (fun j hj => ih j (by omega)) (by omega) (by omega) hleft

theorem legal_of_prefixed {l : Lexeme} {apply : Expr → Expr} (h : prefixed? l = some apply)
    {a : Expr} (ha : a.legal = true) : (apply a).legal = true := by
  unfold prefixed? at h
  split at h <;> cases h
  · exact everyCall_unary.mpr ha
  · exact everyCall_unary.mpr ha
  · exact everyCall_unary.mpr ha
  · exact ha

theorem reads_readPrefixed {atom atom' : Reading Expr}
    (hatom : ∀ k ≤ m, w.Reads k atom atom' (·.legal = true)) (hn : m ≤ n) (hn' : m ≤ n') :
    w.Reads m (readPrefixed atom n) (readPrefixed atom' n') (·.legal = true) := by
  induction m generalizing n n' with
  | zero => exact w.vacuous
  | succ m ih =>
    rcases Nat.exists_eq_add_of_le' hn with ⟨n, rfl⟩
    rcases Nat.exists_eq_add_of_le' hn' with ⟨n', rfl⟩
    apply Follows.bind w.peek
    intro t t' htoken
    rw [w.congr prefixed? rfl htoken]
    cases hprefixed : prefixed? t.lexeme with
    | none => exact (hatom (m + 1) (Nat.le_refl _)).pre fun _ _ => w.forget
    | some apply =>
      have ht := Token.isEnd_of_spells prefixed? rfl hprefixed
      apply Follows.bind (w.pass ht)
      intro _ _ _
      have hrest := ih (fun k hk => hatom k (Nat.le_succ_of_le hk))
        (Nat.le_add_left m n) (Nat.le_add_left m n')
      refine hrest.map ?_ fun _ _ _ => w.mono (Nat.le_succ m)
      rintro a _ ⟨rfl, ha⟩
      exact ⟨rfl, legal_of_prefixed hprefixed ha⟩

variable {inner inner' : Reading Expr} {qualify : String → Except Cause String}

theorem reads_moreArguments (hinner : ∀ k ≤ m, w.Reads k inner inner' (·.legal = true)) (hn : m ≤ n)
    (hn' : m ≤ n') {args : List Expr} (hargs : ∀ a ∈ args, a.legal = true) :
    w.Reads m (moreArguments inner n args) (moreArguments inner' n' args)
      (∀ a ∈ ·, a.legal = true) := by
  -- on the tokens left: each round takes a comma
  induction m generalizing n n' args with
  | zero => exact w.vacuous
  | succ m ih =>
    rcases Nat.exists_eq_add_of_le' hn with ⟨n, rfl⟩
    rcases Nat.exists_eq_add_of_le' hn' with ⟨n', rfl⟩
    apply Follows.bind w.peek
    intro t t' htoken
    rw [w.congr (Lexeme.isPunct .comma) rfl htoken]
    split
    · next hcomma =>
      have ht := Token.isEnd_of_test (Lexeme.isPunct .comma) rfl hcomma
      apply Follows.bind (w.pass ht)
      intro _ _ _
      apply Follows.bind (hinner m (Nat.le_succ m))
      rintro a _ ⟨rfl, ha⟩
      have hmore : ∀ b ∈ args ++ [a], b.legal = true :=
        List.forall_mem_append.mpr ⟨hargs, List.forall_mem_singleton.mpr ha⟩
      have hrest := ih (fun k hk => hinner k (Nat.le_succ_of_le hk))
        (Nat.le_add_left m n) (Nat.le_add_left m n') hmore
      exact hrest.post fun _ _ _ => w.mono (Nat.le_succ m)
    · exact .pure ⟨rfl, hargs⟩ fun _ _ => w.forget

theorem reads_callEnd {f : Function} {args : List Expr} (hargs : ∀ a ∈ args, a.legal = true)
    {name name' : Token} :
    w.Reads m
      (do
        expectPunct .rightParen (.callEnd f)
        if f.accepts args.length then pure (call f args) else failAt name (.arity f args.length))
      (do
        expectPunct .rightParen (.callEnd f)
        if f.accepts args.length then pure (call f args) else failAt name' (.arity f args.length))
      (·.legal = true) := by
  apply Follows.bind (follows_expectPunct _ _)
  intro _ _ _
  split
  · next haccepts =>
    exact .pure ⟨rfl, everyCall_call.mpr ⟨haccepts, hargs⟩⟩ fun _ _ h => h
  · exact follows_failAt fun _ _ h => h

theorem follows_readCall {f : Function} {t : Token} (ht : t.isEnd = false)
    (hinner : ∀ k < m, w.Reads k inner inner' (·.legal = true)) (hn : m ≤ n) (hn' : m ≤ n') :
    Follows w.lenient w.fails (w.seen m t) (readCall f inner n) (readCall f inner' n')
      (fun a b => a = b ∧ a.legal = true) fun _ => w.before m := by
  refine .assuming (fun _ _ h => w.pos (w.forget h)) fun hm => ?_
  have hless : ∀ k ≤ m - 1, w.Reads k inner inner' (·.legal = true) :=
    fun k hk => hinner k (by omega)
  have hbound : m - 1 ≤ n := by omega
  have hbound' : m - 1 ≤ n' := by omega
  refine .post ?_ fun _ _ _ => w.pred
  apply Follows.bind (w.advance ht)
  intro _ _ _
  apply Follows.bind (follows_expectPunct _ _)
  intro _ _ _
  apply Follows.bind w.peek
  intro u u' htoken
  rw [w.congr (Lexeme.isPunct .rightParen) rfl htoken]
  refine .pre ?_ fun _ _ => w.forget
  split
  · exact reads_callEnd (by simp)
  · apply Follows.bind (hless _ (Nat.le_refl _))
    rintro first _ ⟨rfl, hfirst⟩
    have hone : ∀ a ∈ [first], a.legal = true := by simpa using hfirst
    apply Follows.bind (reads_moreArguments hless hbound hbound' hone)
    rintro args _ ⟨rfl, hargs⟩
    exact reads_callEnd hargs

/-- Atoms are read in tandem. -/
theorem reads_readAtom (hqualify : ∀ s, Proper (fun _ => True) (qualify s))
    (hinner : ∀ k < m, w.Reads k inner inner' (·.legal = true)) (hn : m ≤ n) (hn' : m ≤ n') :
    w.Reads m (readAtom qualify inner n) (readAtom qualify inner' n') (·.legal = true) := by
  refine .assuming (fun _ _ => w.pos) fun hm => ?_
  apply Follows.bind w.peek
  intro t t' htoken
  -- a leaf is one token
  have hleaf : ∀ a : Expr, a.legal = true → t.isEnd = false →
      Follows w.lenient w.fails (w.seen m t) (do discard Reading.advance; pure a)
        (do discard Reading.advance; pure a) (fun a b => a = b ∧ a.legal = true) fun _ =>
        w.before m := by
    intro a ha ht
    apply Follows.bind (w.pass ht)
    intro _ _ _
    exact .pure ⟨rfl, ha⟩ fun _ _ => w.pred
  rcases w.lexeme htoken with hsame | ⟨heof, hline⟩
  · rw [hsame]
    split
    · next v hl => exact hleaf _ rfl (by simp [Token.isEnd, hl])
    · next v hl => exact hleaf _ rfl (by simp [Token.isEnd, hl])
    · next v hl => exact hleaf _ rfl (by simp [Token.isEnd, hl])
    · next v hl =>
      apply Follows.bind (w.pass (by simp [Token.isEnd, hl]))
      intro _ _ _
      cases hname : qualify v with
      | ok name => exact .pure ⟨rfl, rfl⟩ fun _ _ => w.pred
      | error cause =>
        apply Follows.throw
        intro s s' h
        have hproper := hqualify v
        rw [hname] at hproper
        exact w.refuse h hproper
    · next hl =>
      apply Follows.bind (w.pass (by simp [Token.isEnd, hl]))
      intro _ _ _
      apply Follows.bind (hinner (m - 1) (by omega))
      rintro a _ ⟨rfl, ha⟩
      apply Follows.bind (follows_expectPunct _ _)
      intro _ _ _
      exact .pure ⟨rfl, ha⟩ fun _ _ => w.pred
    · split
      · next f hf =>
        have ht := Token.isEnd_of_spells function? rfl hf
        exact follows_readCall ht hinner hn hn'
      · exact follows_failAt fun _ _ => w.forget
  · rw [heof, hline]
    exact follows_failAt fun _ _ => w.forget

theorem reads_readWithin (hqualify : ∀ s, Proper (fun _ => True) (qualify s)) (hn : m < n)
    (hn' : m < n') : w.Reads m (readWithin qualify n) (readWithin qualify n') (·.legal = true) := by
  induction n generalizing m n' with
  | zero => exact absurd hn (Nat.not_lt_zero m)
  | succ n ih =>
    rcases Nat.exists_eq_add_of_lt hn' with ⟨n', rfl⟩
    have hinner : ∀ j ≤ m, ∀ k < j, w.Reads k (readWithin qualify n) (readWithin qualify (m + n'))
        (·.legal = true) := fun j hj k hk => ih (by omega) (by omega)
    refine reads_ladder (fun i hi => ?_) (by omega) (by omega)
    refine reads_readPrefixed (fun j hj => ?_) (by omega) (by omega)
    exact reads_readAtom hqualify (hinner j (by omega)) (by omega) (by omega)

/-- An expression is read in tandem, and every call in it has as many arguments as its function
takes. -/
theorem reads_read (hqualify : ∀ s, Proper (fun _ => True) (qualify s)) :
    w.Reads m (read qualify) (read qualify) (·.legal = true) := by
  intro s s' h
  rcases w.enough h with ⟨k, hk, hbefore, hbound, hbound'⟩
  have hwithin : w.Reads k (readWithin qualify s.bound) (readWithin qualify s'.bound)
      (·.legal = true) :=
    reads_readWithin hqualify hbound hbound'
  exact hwithin.post (fun _ _ _ => w.mono hk) s s' hbefore

end Expr

/-- A source on its own, and as a part of a larger one. -/
def Frame.tandem (e : Frame) : Tandem where
  lenient := e.after.isSome = true
  fails := Stream.Fails e.text
  token t t' := t' = e.token t
  before m := Reads e .normal m false []
  seen m t := Reads e .normal m false [t]
  lexeme {t _} h := h ▸ (e.lexeme_cases t).imp_right fun hend => ⟨hend.1, hend.2.1⟩
  peek := Reading.follows_peek
  advance ht :=
    (Reading.follows_advance ht).mono (fun _ _ h => h) (fun _ _ _ => trivial) fun _ _ _ _ _ h => h
  forget h := h.forget
  mono hm h := h.mono hm
  pos h := h.pos
  refuse h hordinary := ⟨h.sound, hordinary⟩
  enough h := ⟨_, h.left, h.least, h.left_lt_bound⟩

end Sm83
