import Sm83.Expr.Read

/-!
# The grammar of expressions

Expressions are stratified. Strata 0 to 6 are the binary operators from the loosest to the tightest,
each associating to the left:

    0  ||    1  &&    2  == != < <= > >=    3  + -    4  | ^ &    5  << >>    6  * / %

Stratum 7 has the prefix operators `!`, `~`, `-` and `+`, of which the last leaves no trace in the
tree, and stratum 8 numbers, strings, names, local names, bracketed expressions and calls.

`Derives` is this grammar as a relation between tokens and trees. It knows nothing of the order in
which a reader looks at the tokens; of the reader's own tables only the built-in functions and the
numbers of arguments they take appear in it.
-/

namespace Sm83

namespace Expr

variable {k : Nat} {ts : List Token}

/-- The binary operator that a lexeme spells, with its stratum. -/
def binding? : Lexeme → Option (Nat × BinaryOp)
  | .punct .orOr => some (0, .logicalOr)
  | .punct .andAnd => some (1, .logicalAnd)
  | .punct .equalEqual => some (2, .equal)
  | .punct .notEqual => some (2, .notEqual)
  | .punct .less => some (2, .less)
  | .punct .lessEqual => some (2, .lessEqual)
  | .punct .greater => some (2, .greater)
  | .punct .greaterEqual => some (2, .greaterEqual)
  | .punct .plus => some (3, .add)
  | .punct .minus => some (3, .sub)
  | .punct .pipe => some (4, .bitOr)
  | .punct .caret => some (4, .bitXor)
  | .punct .ampersand => some (4, .bitAnd)
  | .punct .shiftLeft => some (5, .shiftLeft)
  | .punct .shiftRight => some (5, .shiftRight)
  | .punct .star => some (6, .mul)
  | .punct .slash => some (6, .div)
  | .punct .percent => some (6, .mod)
  | _ => none

/-- The prefix operator that a lexeme spells. A plus is none of them: it leaves its operand as it
is. -/
def sign? : Lexeme → Option UnaryOp
  | .punct .bang => some .not
  | .punct .tilde => some .complement
  | .punct .minus => some .neg
  | _ => none

variable {op : BinaryOp} {level : List (Punct × BinaryOp)}
  {tighter : List (List (Punct × BinaryOp))} {t : Token}

theorem binding?_lt {l : Lexeme} (h : binding? l = some (k, op)) : k < 7 := by
  unfold binding? at h
  split at h <;> cases h <;> decide

/-- The operators of each level are those of its stratum, from `k` on to the tightest. -/
def Graded : Nat → List (List (Punct × BinaryOp)) → Prop
  | k, [] => k = 7
  | k, level :: tighter =>
    (∀ l, operator? level l = ((binding? l).filter fun b => b.1 == k).map Prod.snd) ∧
      Graded (k + 1) tighter

/-- The operators of the reader stand on the strata of the grammar. -/
theorem graded_levels : Graded 0 levels := by
  refine ⟨?_, ?_, ?_, ?_, ?_, ?_, ?_, rfl⟩
  all_goals
    intro l
    cases l with
    | punct p => cases p <;> rfl
    | _ => rfl

theorem Graded.add_length_eq {levels : List (List (Punct × BinaryOp))} (h : Graded k levels) :
    k + levels.length = 7 := by
  induction levels generalizing k with
  | nil => exact h
  | cons level tighter ih =>
    have := ih h.2
    rw [List.length_cons]
    omega

theorem Graded.lt_seven (h : Graded k (level :: tighter)) : k < 7 := by
  have := h.add_length_eq
  rw [List.length_cons] at this
  omega

theorem Graded.operator?_eq_some_iff (h : Graded k (level :: tighter)) {l : Lexeme} :
    operator? level l = some op ↔ binding? l = some (k, op) := by
  rw [h.1 l]
  simp [Option.map_eq_some_iff, Option.filter_eq_some_iff]

theorem prefixed?_eq (l : Lexeme) :
    prefixed? l = if l = .punct .plus then some id else (sign? l).map unary := by
  unfold prefixed? sign?
  split <;> simp_all

theorem function?_eq_some_iff {l : Lexeme} {f : Function} :
    function? l = some f ↔ f ∈ Function.builtin ∧ l = .keyword f.word := by
  constructor
  · intro h
    cases l with
    | keyword w =>
      change Function.builtin.find? (fun g => g.word == w) = some f at h
      have hword : f.word = w := by simpa using List.find?_some h
      exact ⟨List.mem_of_find?_eq_some h, by rw [hword]⟩
    | _ => cases h
  · rintro ⟨hf, rfl⟩
    -- no two built-in functions have the same spelling
    have hfound : ∀ f ∈ Function.builtin, Function.ofWord? f.word = some f := by decide
    exact hfound f hf

/-- Runs of tokens, each with a comma before it. -/
inductive AfterCommas : List (List Token) → List Token → Prop
  | nil : AfterCommas [] []
  | cons {t : Token} {xs : List Token} {runs : List (List Token)} {ts : List Token}
      (ht : t.lexeme = .punct .comma) (h : AfterCommas runs ts) :
      AfterCommas (xs :: runs) (t :: (xs ++ ts))

/-- Runs of tokens with commas between them. -/
inductive Listed : List (List Token) → List Token → Prop
  | none : Listed [] []
  | some {xs : List Token} {runs : List (List Token)} {ts : List Token} (h : AfterCommas runs ts) :
      Listed (xs :: runs) (xs ++ ts)

/-- The tokens are a phrase of the stratum, and it stands for the tree. A phrase of a stratum is one
of every looser stratum too. -/
inductive Derives (qualify : String → Except Cause String) : Nat → List Token → Expr → Prop
  | looser {k : Nat} {ts : List Token} {e : Expr} (hk : k < 8) (h : Derives qualify (k + 1) ts e) :
      Derives qualify k ts e
  | binary {k : Nat} {op : BinaryOp} {t : Token} {xs ys : List Token} {a b : Expr}
      (ha : Derives qualify k xs a) (ht : binding? t.lexeme = some (k, op))
      (hb : Derives qualify (k + 1) ys b) : Derives qualify k (xs ++ t :: ys) (binary op a b)
  | unary {op : UnaryOp} {t : Token} {ts : List Token} {e : Expr} (ht : sign? t.lexeme = some op)
      (h : Derives qualify 7 ts e) : Derives qualify 7 (t :: ts) (unary op e)
  | plus {t : Token} {ts : List Token} {e : Expr} (ht : t.lexeme = .punct .plus)
      (h : Derives qualify 7 ts e) : Derives qualify 7 (t :: ts) e
  | number {t : Token} {v : Int} (ht : t.lexeme = .number v) : Derives qualify 8 [t] (literal v)
  | string {t : Token} {s : String} (ht : t.lexeme = .string s) : Derives qualify 8 [t] (text s)
  | name {t : Token} {s : String} (ht : t.lexeme = .name s) : Derives qualify 8 [t] (symbol s)
  | localName {t : Token} {s name : String} (ht : t.lexeme = .localName s)
      (hname : qualify s = .ok name) : Derives qualify 8 [t] (symbol name)
  | group {t u : Token} {ts : List Token} {e : Expr} (ht : t.lexeme = .punct .leftParen)
      (h : Derives qualify 0 ts e) (hu : u.lexeme = .punct .rightParen) :
      Derives qualify 8 (t :: (ts ++ [u])) e
  | call {f : Function} {t u v : Token} {ts : List Token} {args : List (List Token × Expr)}
      (hf : f ∈ Function.builtin) (ht : t.lexeme = .keyword f.word)
      (hu : u.lexeme = .punct .leftParen) (hargs : Listed (args.map Prod.fst) ts)
      (h : ∀ a ∈ args, Derives qualify 0 a.1 a.2) (hv : v.lexeme = .punct .rightParen)
      (hcount : f.accepts args.length = true) :
      Derives qualify 8 (t :: u :: (ts ++ [v])) (call f (args.map Prod.snd))

/-- The next token is no operator of a stratum from `k` on. -/
def Stops (k : Nat) (ts : List Token) : Prop :=
  ∀ t ∈ ts.head?, ∀ b ∈ binding? t.lexeme, b.1 < k

theorem Stops.mono {m : Nat} (h : Stops k ts) (hkm : k ≤ m) : Stops m ts :=
  fun t ht b hb => Nat.lt_of_lt_of_le (h t ht b hb) hkm

theorem stops_seven (ts : List Token) : Stops 7 ts :=
  fun _ _ _ hb => binding?_lt hb

theorem stops_zero_iff : Stops 0 ts ↔ ∀ t ∈ ts.head?, binding? t.lexeme = none := by
  simp [Stops, Option.eq_none_iff_forall_ne_some]

theorem stops_cons_iff : Stops k (t :: ts) ↔ ∀ b ∈ binding? t.lexeme, b.1 < k := by
  simp [Stops]

theorem stops_rightParen (ht : t.lexeme = .punct .rightParen) (ts : List Token) :
    Stops 0 (t :: ts) := by
  simp [stops_cons_iff, ht, binding?]

theorem Graded.stops_iff (hg : Graded k (level :: tighter)) :
    Stops k (t :: ts) ↔ Stops (k + 1) (t :: ts) ∧ operator? level t.lexeme = none := by
  constructor
  · intro h
    refine ⟨h.mono (Nat.le_succ k), ?_⟩
    cases hop : operator? level t.lexeme with
    | none => rfl
    | some op =>
      have hlt := stops_cons_iff.1 h _ (hg.operator?_eq_some_iff.1 hop)
      exact absurd hlt (Nat.lt_irrefl k)
  · rintro ⟨h, hop⟩
    rw [stops_cons_iff] at h ⊢
    rintro ⟨j, op⟩ hb
    rcases Nat.lt_or_eq_of_le (Nat.le_of_lt_succ (h _ hb)) with hlt | heq
    · exact hlt
    · -- an operator of this very stratum would have been found in the level
      simp only at heq
      subst heq
      rw [hg.operator?_eq_some_iff.2 hb] at hop
      cases hop

theorem AfterCommas.stops {runs : List (List Token)} {us : List Token} (h : AfterCommas runs ts)
    (hstop : Stops 0 us) : Stops 0 (ts ++ us) := by
  cases h with
  | nil => exact hstop
  | cons ht => simp [stops_cons_iff, ht, binding?]

/-- Further operands of stratum `k + 1`, each with an operator of stratum `k` before it, taken onto
a left operand one after the other. -/
inductive Continues (qualify : String → Except Cause String) (k : Nat) : Expr → List Token → Expr →
    Prop
  | done (e : Expr) : Continues qualify k e [] e
  | more {op : BinaryOp} {t : Token} {xs ys : List Token} {a b e : Expr}
      (ht : binding? t.lexeme = some (k, op)) (hb : Derives qualify (k + 1) xs b)
      (h : Continues qualify k (Expr.binary op a b) ys e) :
        Continues qualify k a (t :: (xs ++ ys)) e

variable {qualify : String → Except Cause String} {k : Nat} {ts us : List Token} {a b e : Expr}

theorem Continues.snoc (h : Continues qualify k a ts e) (ht : binding? t.lexeme = some (k, op))
    (hb : Derives qualify (k + 1) us b) :
    Continues qualify k a (ts ++ t :: us) (Expr.binary op e b) := by
  induction h with
  | done e => simpa using Continues.more ht hb (.done _)
  | more ht' hb' _ ih =>
    rw [List.cons_append, List.append_assoc]
    exact .more ht' hb' ih

theorem Continues.stops (h : Continues qualify k a ts e) (hstop : Stops k us) :
    Stops (k + 1) (ts ++ us) := by
  cases h with
  | done => exact hstop.mono (Nat.le_succ k)
  | more ht _ _ =>
    rw [List.cons_append, stops_cons_iff]
    intro b hb
    cases ht.symm.trans hb
    exact Nat.lt_succ_self k

theorem Continues.derives (h : Continues qualify k a ts e) (ha : Derives qualify k us a) :
    Derives qualify k (us ++ ts) e := by
  induction h generalizing us with
  | done e => rwa [List.append_nil]
  | more ht hb _ ih =>
    -- the operand is taken onto what stands left of it before the next one is looked at
    have hbinary := ih (.binary ha ht hb)
    rwa [List.append_assoc, List.cons_append] at hbinary

namespace Derives

theorem mono {j : Nat} (h : Derives qualify k ts e) (hjk : j ≤ k) (hk : k ≤ 8) :
    Derives qualify j ts e := by
  induction k with
  | zero => rwa [Nat.le_zero.1 hjk]
  | succ k ih =>
    rcases Nat.lt_or_eq_of_le hjk with hlt | rfl
    · exact ih (.looser (by omega) h) (by omega) (by omega)
    · exact h

/-- An expression of a binary stratum is one of the next with operators and operands behind it. -/
theorem exists_continues (h : Derives qualify k ts e) (hk : k < 7) :
    ∃ xs ys a, ts = xs ++ ys ∧ Derives qualify (k + 1) xs a ∧ Continues qualify k a ys e := by
  induction h with
  | looser _ h => exact ⟨_, [], _, (List.append_nil _).symm, h, .done _⟩
  | binary _ ht hb iha =>
    -- the left operand is a phrase of the same stratum, so it has been taken apart already and only
    -- the last operand is added
    obtain ⟨xs, ys, a, rfl, ha, hcont⟩ := iha hk
    exact ⟨xs, _, a, List.append_assoc .., ha, hcont.snoc ht hb⟩
  | _ => omega

theorem starts (h : Derives qualify k ts e) : ∃ t us, ts = t :: us ∧ starts t.lexeme = true := by
  induction h with
  | looser _ _ ih => exact ih
  | binary _ _ _ iha =>
    obtain ⟨t, us, rfl, ht⟩ := iha
    exact ⟨t, _, rfl, ht⟩
  | unary ht =>
    refine ⟨_, _, rfl, ?_⟩
    unfold sign? at ht
    split at ht <;> simp_all [Expr.starts, prefixed?]
  | plus ht => exact ⟨_, _, rfl, by rw [ht]; rfl⟩
  | number ht => exact ⟨_, _, rfl, by rw [ht]; rfl⟩
  | string ht => exact ⟨_, _, rfl, by rw [ht]; rfl⟩
  | name ht => exact ⟨_, _, rfl, by rw [ht]; rfl⟩
  | localName ht => exact ⟨_, _, rfl, by rw [ht]; rfl⟩
  | group ht => exact ⟨_, _, rfl, by rw [ht]; rfl⟩
  | call hf ht =>
    refine ⟨_, _, rfl, ?_⟩
    simp [ht, Expr.starts, function?_eq_some_iff.2 ⟨hf, rfl⟩]

theorem prefixed?_head (h : Derives qualify 8 ts e) :
    ∃ t us, ts = t :: us ∧ prefixed? t.lexeme = none := by
  cases h with
  | looser hk => omega
  | binary _ ht => exact absurd (binding?_lt ht) (by omega)
  | number ht => exact ⟨_, _, rfl, by rw [ht]; rfl⟩
  | string ht => exact ⟨_, _, rfl, by rw [ht]; rfl⟩
  | name ht => exact ⟨_, _, rfl, by rw [ht]; rfl⟩
  | localName ht => exact ⟨_, _, rfl, by rw [ht]; rfl⟩
  | group ht => exact ⟨_, _, rfl, by rw [ht]; rfl⟩
  | call _ ht => exact ⟨_, _, rfl, by rw [ht]; rfl⟩

end Derives

end Expr

end Sm83
