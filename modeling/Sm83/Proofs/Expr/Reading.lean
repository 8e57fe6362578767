import Sm83.Proofs.Expr.Grammar
import Sm83.Proofs.Token.Delivery

/-!
# The reader of expressions and their grammar

The reader descends through the strata of the grammar. A part of it is sound when what it has
consumed is a phrase of its stratum and no operator of the stratum follows (`Sound`), and it covers
the stratum when it returns the tree of every such phrase below a length (`Covers`), with which its
fuel is compared.
-/

namespace Sm83

theorem Token.isEnd_eq_false {t : Token} (h : t.lexeme ≠ .eof) : t.isEnd = false := by
  simp [isEnd, h]

variable {l : Lexeme}

theorem Lexeme.isPunct_iff {p : Punct} : l.isPunct p = true ↔ l = .punct p := by
  cases l with
  | punct q =>
    rw [isPunct, beq_iff_eq, Lexeme.punct.injEq]
    exact eq_comm
  | _ => simp [isPunct]

namespace Expr

open Reading

variable {qualify : String → Except Cause String} {k n : Nat} {t : Token} {ts us rest : List Token}
  {a e : Expr}

theorem ne_eof_of_binding? {b : Nat × BinaryOp} (h : binding? l = some b) : l ≠ .eof := by
  rintro rfl
  cases h

theorem prefixed?_eq_of_sign? {op : UnaryOp} (h : sign? l = some op) :
    prefixed? l = some (unary op) := by
  have hplus : l ≠ .punct .plus := by
    rintro rfl
    cases h
  rw [prefixed?_eq, if_neg hplus, h]
  rfl

theorem ne_eof_of_prefixed? {f : Expr → Expr} (h : prefixed? l = some f) : l ≠ .eof := by
  rintro rfl
  cases h

theorem isPunct_rightParen_of_starts (h : starts l = true) : l.isPunct .rightParen = false := by
  cases hp : l.isPunct .rightParen with
  | false => rfl
  | true =>
    rw [Lexeme.isPunct_iff.1 hp] at h
    cases h

theorem runs_discard (h : t.lexeme ≠ .eof) (ts : List Token) :
    Runs (discard Reading.advance) (t :: ts) () ts :=
  (Runs.advance (Token.isEnd_eq_false h) ts).map _

theorem runs_expectPunct {p : Punct} (ht : t.lexeme = .punct p) (x : Expectation)
    (ts : List Token) : Runs (expectPunct p x) (t :: ts) () ts := by
  refine (Runs.peek t ts).bind ?_
  rw [ht, if_pos (by simp [Lexeme.isPunct])]
  exact runs_discard (by simp [ht]) ts

/-- The reading returns the tree of every phrase of the stratum that has fewer than `n` tokens and
is not followed by an operator of the stratum or a tighter one. -/
def Covers (qualify : String → Except Cause String) (r : Reading Expr) (k n : Nat) : Prop :=
  ∀ ts e rest, ts.length < n → Derives qualify k ts e → Stops k rest → Runs r (ts ++ rest) e rest

theorem Covers.mono {r : Reading Expr} {m : Nat} (h : Covers qualify r k n) (hmn : m ≤ n) :
    Covers qualify r k m :=
  fun ts e rest hts => h ts e rest (Nat.lt_of_lt_of_le hts hmn)

variable {operand inner : Reading Expr}

/-- A chain of operators of one stratum is read as one. -/
theorem runs_chain {level : List (Punct × BinaryOp)} {tighter : List (List (Punct × BinaryOp))}
    {m : Nat} (hg : Graded k (level :: tighter)) (hoperand : Covers qualify operand (k + 1) n)
    (h : Continues qualify k a ts e) (hts : ts.length < m) (hmn : m ≤ n) (hstop : Stops k rest) :
    Runs (chain level operand m a) (ts ++ rest) e rest := by
  -- along the operands, with fuel that falls by one for each operator
  induction h generalizing m with
  | done e =>
    cases m with
    | zero => cases hts
    | succ m =>
      cases rest with
      | nil => exact .nil
      | cons t rest =>
        refine (Runs.peek t rest).bind ?_
        rw [(hg.stops_iff.1 hstop).2]
        exact .pure e _
  | @more op t xs ys a b e ht hb h ih =>
    cases m with
    | zero => cases hts
    | succ m =>
      rw [List.length_cons, List.length_append] at hts
      rw [List.cons_append, List.append_assoc]
      refine (Runs.peek t _).bind ?_
      rw [hg.operator?_eq_some_iff.2 ht]
      refine (runs_discard (ne_eof_of_binding? ht) _).bind ?_
      -- the operand ends where its phrase ends: what follows binds no tighter than this stratum
      refine (hoperand xs b (ys ++ rest) (by omega) hb (h.stops hstop)).bind ?_
      exact ih (by omega) (by omega)

theorem covers_ladder {tiers : List (List (Punct × BinaryOp))} (hg : Graded k tiers)
    (hoperand : Covers qualify operand 7 (n + 1)) :
    Covers qualify (ladder n operand tiers) k (n + 1) := by
  induction tiers generalizing k with
  | nil =>
    cases hg
    exact hoperand
  | cons level tighter ih =>
    intro ts e rest hts h hstop
    have hladder := ih hg.2
    obtain ⟨xs, ys, a, rfl, hx, hcont⟩ := h.exists_continues hg.lt_seven
    -- an operand has at least one token, so the fuel lasts for the operators
    obtain ⟨t, us, rfl, -⟩ := hx.starts
    rw [List.length_append, List.length_cons] at hts
    rw [List.append_assoc]
    refine (hladder _ a (ys ++ rest) (by rw [List.length_cons]; omega) hx (hcont.stops hstop)).bind
      ?_
    exact runs_chain hg hladder hcont (by omega) (by omega) hstop

/-- Prefix operators are read before an atom. -/
theorem covers_readPrefixed {atom : Reading Expr} (hatom : Covers qualify atom 8 (n + 1)) :
    Covers qualify (readPrefixed atom n) 7 (n + 1) := by
  induction n with
  | zero =>
    -- no phrase is empty
    intro ts e rest hts h
    obtain ⟨t, us, rfl, -⟩ := h.starts
    rw [List.length_cons] at hts
    omega
  | succ n ih =>
    intro ts e rest hts h hstop
    have ih := ih (hatom.mono (by omega))
    cases h with
    | looser _ h =>
      obtain ⟨t, us, rfl, hnone⟩ := h.prefixed?_head
      refine (Runs.peek t _).bind ?_
      rw [hnone]
      exact hatom _ e rest hts h (hstop.mono (by omega))
    | binary _ ht => exact absurd (binding?_lt ht) (by omega)
    | unary ht h =>
      rw [List.length_cons] at hts
      have hsome := prefixed?_eq_of_sign? ht
      refine (Runs.peek _ _).bind ?_
      rw [hsome]
      refine (runs_discard (ne_eof_of_prefixed? hsome) _).bind ?_
      exact (ih _ _ rest (by omega) h hstop).map _
    | plus ht h =>
      rw [List.length_cons] at hts
      refine (Runs.peek _ _).bind ?_
      rw [ht]
      refine (runs_discard (by simp [ht]) _).bind ?_
      exact (ih _ _ rest (by omega) h hstop).map id

/-! ### Calls and the other phrases of the tightest stratum -/

theorem runs_moreArguments {args : List (List Token × Expr)} {m : Nat}
    (hinner : Covers qualify inner 0 n) (hargs : ∀ a ∈ args, Derives qualify 0 a.1 a.2)
    (h : AfterCommas (args.map Prod.fst) ts) (hts : ts.length < m) (hmn : m ≤ n)
    (ht : t.lexeme = .punct .rightParen) (before : List Expr) :
    Runs (moreArguments inner m before) (ts ++ t :: rest) (before ++ args.map Prod.snd)
      (t :: rest) := by
  -- on the arguments still to come; those before them only grow
  induction args generalizing ts m before with
  | nil =>
    cases h
    cases m with
    | zero => cases hts
    | succ m =>
      refine (Runs.peek t _).bind ?_
      rw [ht, List.map_nil, List.append_nil]
      exact .pure before _
  | cons arg args ih =>
    cases h with
    | @cons comma _ _ us hcomma h =>
      cases m with
      | zero => cases hts
      | succ m =>
        rw [List.length_cons, List.length_append] at hts
        rw [List.cons_append, List.append_assoc]
        refine (Runs.peek comma _).bind ?_
        rw [hcomma, if_pos (by rfl)]
        refine (runs_discard (by simp [hcomma]) _).bind ?_
        have harg := hargs arg (List.mem_cons_self ..)
        refine (hinner arg.1 arg.2 _ (by omega) harg (h.stops (stops_rightParen ht rest))).bind ?_
        have hmore := ih (m := m) (fun a ha => hargs a (List.mem_cons_of_mem _ ha)) h (by omega)
          (by omega) (before ++ [arg.2])
        rwa [List.append_assoc] at hmore

/-- A call with a legal number of arguments is read. -/
theorem runs_readCall {f : Function} {u v : Token} {args : List (List Token × Expr)}
    (hinner : Covers qualify inner 0 n) (ht : t.lexeme = .keyword f.word)
    (hu : u.lexeme = .punct .leftParen) (hlisted : Listed (args.map Prod.fst) ts)
    (hargs : ∀ a ∈ args, Derives qualify 0 a.1 a.2) (hv : v.lexeme = .punct .rightParen)
    (hcount : f.accepts args.length = true) (hts : ts.length < n) :
    Runs (readCall f inner n) (t :: u :: (ts ++ v :: rest)) (call f (args.map Prod.snd)) rest := by
  have hclose : Runs (do
        expectPunct .rightParen (.callEnd f)
        if f.accepts (args.map Prod.snd).length then pure (call f (args.map Prod.snd))
        else failAt t (.arity f (args.map Prod.snd).length))
      (v :: rest) (call f (args.map Prod.snd)) rest := by
    refine (runs_expectPunct hv _ _).bind ?_
    rw [List.length_map, if_pos hcount]
    exact .pure _ _
  refine (Runs.advance (Token.isEnd_eq_false (by simp [ht])) _).bind ?_
  refine (runs_expectPunct hu _ _).bind ?_
  cases args with
  | nil =>
    cases hlisted
    refine (Runs.peek v rest).bind ?_
    rw [hv]
    exact (Runs.pure _ _).bind hclose
  | cons arg args =>
    cases hlisted with
    | @some _ _ us hmore =>
      have harg := hargs arg (List.mem_cons_self ..)
      rw [List.length_append] at hts
      -- the first argument does not start with the bracket that would close the call
      obtain ⟨w, ws, hws, hw⟩ := harg.starts
      have hpeek : Runs Reading.peek (arg.1 ++ us ++ v :: rest) w (arg.1 ++ us ++ v :: rest) := by
        rw [hws]
        exact .peek w _
      apply hpeek.bind
      rw [if_neg (by simpa using isPunct_rightParen_of_starts hw), List.append_assoc]
      have hstop := hmore.stops (stops_rightParen hv rest)
      refine (hinner arg.1 arg.2 (us ++ v :: rest) (by omega) harg hstop).bind ?_
      exact (runs_moreArguments hinner (fun a ha => hargs a (List.mem_cons_of_mem _ ha)) hmore
        (by omega) (Nat.le_refl n) hv [arg.2]).bind hclose

/-- The reader of atoms covers the last stratum. -/
theorem covers_readAtom (hinner : Covers qualify inner 0 n) :
    Covers qualify (readAtom qualify inner n) 8 (n + 1) := by
  -- of the rules of the grammar only those that start with an atom derive at this level
  intro ts e rest hts h hstop
  cases h with
  | looser hk => omega
  | binary _ ht => exact absurd (binding?_lt ht) (by omega)
  | number ht =>
    refine (Runs.peek _ _).bind ?_
    rw [ht]
    exact (runs_discard (by simp [ht]) _).bind (.pure _ _)
  | string ht =>
    refine (Runs.peek _ _).bind ?_
    rw [ht]
    exact (runs_discard (by simp [ht]) _).bind (.pure _ _)
  | name ht =>
    refine (Runs.peek _ _).bind ?_
    rw [ht]
    exact (runs_discard (by simp [ht]) _).bind (.pure _ _)
  | localName ht hname =>
    refine (Runs.peek _ _).bind ?_
    rw [ht]
    refine (runs_discard (by simp [ht]) _).bind ?_
    rw [hname]
    exact .pure _ _
  | @group t u ts e ht h hu =>
    simp only [List.length_cons, List.length_append, List.length_nil] at hts
    rw [List.cons_append, List.append_assoc]
    refine (Runs.peek _ _).bind ?_
    rw [ht]
    refine (runs_discard (by simp [ht]) _).bind ?_
    refine (hinner ts e (u :: rest) (by omega) h (stops_rightParen hu rest)).bind ?_
    exact (runs_expectPunct hu _ _).bind (.pure _ _)
  | @call f t u v ts args hf ht hu hlisted hargs hv hcount =>
    simp only [List.length_cons, List.length_append, List.length_nil] at hts
    simp only [List.cons_append, List.append_assoc, List.nil_append]
    refine (Runs.peek _ _).bind ?_
    have hfunction : function? t.lexeme = some f := function?_eq_some_iff.2 ⟨hf, ht⟩
    rw [ht] at hfunction ⊢
    simp only [hfunction]
    exact runs_readCall hinner ht hu hlisted hargs hv hcount (by omega)

theorem covers_readWithin (n : Nat) : Covers qualify (readWithin qualify n) 0 n := by
  induction n with
  | zero =>
    intro ts e rest hts
    cases hts
  | succ n ih => exact covers_ladder graded_levels (covers_readPrefixed (covers_readAtom ih))

/-- What the reading consumes is a phrase of the stratum, and no operator of the stratum or a
tighter one follows. -/
def Sound (qualify : String → Except Cause String) (r : Reading Expr) (k : Nat) : Prop :=
  ∀ ts, Gives r ts fun e rest => ∃ used, ts = used ++ rest ∧ Derives qualify k used e ∧ Stops k rest

theorem gives_failAt {α : Type} {Q : α → List Token → Prop} (t : Token) (f : GrammarFault) :
    Gives (failAt t f) ts Q := by
  intro s b s' _ h
  obtain ⟨_, _, _, h⟩ := bind_eq_ok_iff.1 h
  cases h

theorem gives_expectPunct (p : Punct) (x : Expectation) :
    Gives (expectPunct p x) ts fun _ rest => ∃ t, t.lexeme = .punct p ∧ ts = t :: rest := by
  cases ts with
  | nil => exact .nil
  | cons t ts =>
    refine .after (Runs.peek t ts) ?_
    split
    · rename_i hp
      have ht := Lexeme.isPunct_iff.1 hp
      exact .of_runs (runs_discard (by simp [ht]) ts) ⟨t, ht, rfl⟩
    · exact gives_failAt t _

theorem gives_chain {level : List (Punct × BinaryOp)} {tighter : List (List (Punct × BinaryOp))}
    (hg : Graded k (level :: tighter)) (hoperand : Sound qualify operand (k + 1)) (m : Nat)
    (hstop : Stops (k + 1) ts) :
    Gives (chain level operand m a) ts fun e rest =>
      ∃ used, ts = used ++ rest ∧ Continues qualify k a used e ∧ Stops k rest := by
  induction m generalizing a ts with
  | zero => exact .throw _
  | succ m ih =>
    cases ts with
    | nil => exact .nil
    | cons t ts =>
      refine .after (Runs.peek t ts) ?_
      cases hop : operator? level t.lexeme with
      | none =>
        exact .of_runs (.pure a _) ⟨[], rfl, .done a, hg.stops_iff.2 ⟨hstop, hop⟩⟩
      | some op =>
        have ht := hg.operator?_eq_some_iff.1 hop
        refine .after (runs_discard (ne_eof_of_binding? ht) ts) ?_
        refine .bind (hoperand ts) ?_
        rintro b mid ⟨xs, rfl, hb, hmid⟩
        refine (ih hmid).mono ?_
        rintro e rest ⟨ys, rfl, hcont, hrest⟩
        exact ⟨t :: (xs ++ ys), by simp, .more ht hb hcont, hrest⟩

theorem sound_ladder {tiers : List (List (Punct × BinaryOp))} (hg : Graded k tiers)
    (hoperand : Sound qualify operand 7) : Sound qualify (ladder n operand tiers) k := by
  induction tiers generalizing k with
  | nil =>
    cases hg
    exact hoperand
  | cons level tighter ih =>
    intro ts
    have hladder := ih hg.2
    refine .bind (hladder ts) ?_
    rintro a mid ⟨xs, rfl, ha, hmid⟩
    refine (gives_chain hg hladder n hmid).mono ?_
    rintro e rest ⟨ys, rfl, hcont, hrest⟩
    have hk := hg.lt_seven
    exact ⟨xs ++ ys, (List.append_assoc ..).symm, hcont.derives (.looser (by omega) ha), hrest⟩

theorem sound_readPrefixed {atom : Reading Expr} (hatom : Sound qualify atom 8) (m : Nat) :
    Sound qualify (readPrefixed atom m) 7 := by
  induction m with
  | zero => exact fun ts => .throw _
  | succ m ih =>
    intro ts
    cases ts with
    | nil => exact .nil
    | cons t ts =>
      refine .after (Runs.peek t ts) ?_
      cases hp : prefixed? t.lexeme with
      | none =>
        refine (hatom _).mono ?_
        rintro e rest ⟨used, hts, h, -⟩
        exact ⟨used, hts, .looser (by omega) h, stops_seven rest⟩
      | some apply =>
        -- what the operator makes of its operand says which one of them it is
        refine .after (runs_discard (ne_eof_of_prefixed? hp) ts) ?_
        refine .map (ih ts) ?_
        rintro e rest ⟨used, rfl, h, hstop⟩
        refine ⟨t :: used, rfl, ?_, hstop⟩
        rw [prefixed?_eq] at hp
        split at hp
        · cases hp
          exact .plus ‹_› h
        · obtain ⟨op, hop, rfl⟩ := Option.map_eq_some_iff.1 hp
          exact .unary hop h

theorem gives_moreArguments (hinner : Sound qualify inner 0) (m : Nat) (before : List Expr) :
    Gives (moreArguments inner m before) ts fun all rest =>
      ∃ used, ∃ args : List (List Token × Expr), ts = used ++ rest ∧
        AfterCommas (args.map Prod.fst) used ∧ (∀ a ∈ args, Derives qualify 0 a.1 a.2) ∧
        all = before ++ args.map Prod.snd := by
  induction m generalizing ts before with
  | zero => exact .throw _
  | succ m ih =>
    cases ts with
    | nil => exact .nil
    | cons t ts =>
      refine .after (Runs.peek t ts) ?_
      split
      · rename_i hcomma
        rw [Lexeme.isPunct_iff] at hcomma
        refine .after (runs_discard (by simp [hcomma]) ts) ?_
        refine .bind (hinner ts) ?_
        rintro e mid ⟨xs, rfl, he, -⟩
        refine (ih (before ++ [e])).mono ?_
        rintro all rest ⟨ys, args, rfl, hmore, hargs, rfl⟩
        exact ⟨t :: (xs ++ ys), (xs, e) :: args, by simp, .cons hcomma hmore,
          List.forall_mem_cons.2 ⟨he, hargs⟩, by simp⟩
      · exact .of_runs (.pure before _) ⟨[], [], rfl, .nil, by simp, by simp⟩

theorem gives_readCall {f : Function} (hinner : Sound qualify inner 0) (hf : f ∈ Function.builtin)
    (ht : t.lexeme = .keyword f.word) :
    Gives (readCall f inner n) (t :: ts) fun e rest =>
      ∃ used, t :: ts = used ++ rest ∧ Derives qualify 8 used e := by
  refine .after (Runs.advance (Token.isEnd_eq_false (by simp [ht])) ts) ?_
  refine .bind (gives_expectPunct _ _) ?_
  rintro - mid ⟨u, hu, rfl⟩
  -- what is left to read once the arguments are there
  have hclose : ∀ (xs mid : List Token) (args : List (List Token × Expr)),
      Listed (args.map Prod.fst) xs → (∀ a ∈ args, Derives qualify 0 a.1 a.2) →
      Gives (do
        expectPunct .rightParen (.callEnd f)
        if f.accepts (args.map Prod.snd).length then pure (call f (args.map Prod.snd))
        else failAt t (.arity f (args.map Prod.snd).length)) mid fun e rest =>
          ∃ used, t :: u :: (xs ++ mid) = used ++ rest ∧ Derives qualify 8 used e := by
    intro xs mid args hlisted hargs
    refine .bind (gives_expectPunct _ _) ?_
    rintro - rest ⟨v, hv, rfl⟩
    split
    · rename_i hcount
      rw [List.length_map] at hcount
      exact .of_runs (.pure _ _)
        ⟨t :: u :: (xs ++ [v]), by simp, .call hf ht hu hlisted hargs hv hcount⟩
    · exact gives_failAt t _
  cases mid with
  | nil => exact .nil
  | cons w mid =>
    refine .after (Runs.peek w mid) ?_
    split
    · -- brackets with nothing between them, which the count of arguments may still refuse
      exact .after (.pure _ _) (hclose [] _ [] .none (by simp))
    · refine .bind (hinner _) ?_
      rintro e mid' ⟨xs, hxs, he, -⟩
      rw [hxs]
      refine .bind (gives_moreArguments hinner n [e]) ?_
      rintro all rest ⟨ys, args, rfl, hmore, hargs, rfl⟩
      rw [← List.append_assoc]
      exact hclose _ _ ((xs, e) :: args) (.some hmore) (List.forall_mem_cons.2 ⟨he, hargs⟩)

/-- What is read as an atom is one. -/
theorem sound_readAtom (hinner : Sound qualify inner 0) :
    Sound qualify (readAtom qualify inner n) 8 := by
  -- no operator belongs to the tightest stratum, so only the phrase is at stake
  suffices h : ∀ ts, Gives (readAtom qualify inner n) ts fun e rest =>
      ∃ used, ts = used ++ rest ∧ Derives qualify 8 used e by
    intro ts
    refine (h ts).mono ?_
    rintro e rest ⟨used, hts, hd⟩
    exact ⟨used, hts, hd, (stops_seven rest).mono (by omega)⟩
  intro ts
  cases ts with
  | nil => exact .nil
  | cons t ts =>
    refine .after (Runs.peek t ts) ?_
    split
    · rename_i v ht
      exact .after (runs_discard (by simp [ht]) ts) (.of_runs (.pure _ _) ⟨[t], rfl, .number ht⟩)
    · rename_i s ht
      exact .after (runs_discard (by simp [ht]) ts) (.of_runs (.pure _ _) ⟨[t], rfl, .string ht⟩)
    · rename_i s ht
      exact .after (runs_discard (by simp [ht]) ts) (.of_runs (.pure _ _) ⟨[t], rfl, .name ht⟩)
    · rename_i s ht
      refine .after (runs_discard (by simp [ht]) ts) ?_
      split
      · rename_i name hname
        exact .of_runs (.pure _ _) ⟨[t], rfl, .localName ht hname⟩
      · exact .throw _
    · rename_i ht
      refine .after (runs_discard (by simp [ht]) ts) ?_
      refine .bind (hinner ts) ?_
      rintro e mid ⟨xs, rfl, he, -⟩
      refine .bind (gives_expectPunct _ _) ?_
      rintro - rest ⟨u, hu, rfl⟩
      exact .of_runs (.pure e rest) ⟨t :: (xs ++ [u]), by simp, .group ht he hu⟩
    · split
      · rename_i f hfunction
        obtain ⟨hf, ht⟩ := function?_eq_some_iff.1 hfunction
        exact gives_readCall hinner hf ht
      · exact gives_failAt t _

theorem sound_readWithin (n : Nat) : Sound qualify (readWithin qualify n) 0 := by
  induction n with
  | zero => exact fun ts => .throw _
  | succ n ih => exact sound_ladder graded_levels (sound_readPrefixed (sound_readAtom ih) n)

/-- Whatever list of tokens a stream delivers: if an expression is read, the tokens consumed derive
it and the first token left is no binary operator; and if the tokens up to one that is no binary
operator derive an expression, then that expression is read and exactly the tokens after it are
left. -/
theorem read_exact (qualify : String → Except Cause String) {s : Stream} {ts : List Token}
    (hs : s.Delivers ts) :
    (∀ e s', read qualify s = .ok e s' →
      ∃ used rest, ts = used ++ rest ∧ s'.Delivers rest ∧ Derives qualify 0 used e ∧
        ∀ t ∈ rest.head?, binding? t.lexeme = none) ∧
    (∀ used rest e, ts = used ++ rest → Derives qualify 0 used e →
      (∀ t ∈ rest.head?, binding? t.lexeme = none) →
      ∃ s', read qualify s = .ok e s' ∧ s'.Delivers rest) := by
  constructor
  · intro e s' hread
    obtain ⟨rest, hrest, used, hts, hd, hstop⟩ := sound_readWithin s.bound ts s e s' hs hread
    exact ⟨used, rest, hts, hrest, hd, stops_zero_iff.1 hstop⟩
  · rintro used rest e rfl hd hstop
    -- the bound of the stream is fuel enough for any phrase among its tokens
    have hlength := hs.length_lt_bound
    rw [List.length_append] at hlength
    exact covers_readWithin s.bound used e rest (by omega) hd (stops_zero_iff.2 hstop) s hs

/-- In `1 + -.b * 2, 3` the product binds tighter than the sum, the sign tighter than the product,
and reading stops before the comma. -/
theorem read_exact_before_comma :
    ∃ s', read (fun name => .ok ("main" ++ name)) (.ofSource (.ofText "1 + -.b * 2, 3" "a.asm")) =
        .ok (binary .add (literal 1) (binary .mul (unary .neg (symbol "main.b")) (literal 2))) s' ∧
      s'.Delivers [⟨.punct .comma, 1, 12, .normal⟩, ⟨.number 3, 1, 14, .normal⟩,
        ⟨.eof, 1, 15, .normal⟩] := by
  have hs : (Stream.ofSource (.ofText "1 + -.b * 2, 3" "a.asm")).Delivers
      ([⟨.number 1, 1, 1, .normal⟩, ⟨.punct .plus, 1, 3, .normal⟩, ⟨.punct .minus, 1, 5, .normal⟩,
          ⟨.localName ".b", 1, 6, .normal⟩, ⟨.punct .star, 1, 9, .normal⟩,
          ⟨.number 2, 1, 11, .normal⟩] ++
        [⟨.punct .comma, 1, 12, .normal⟩, ⟨.number 3, 1, 14, .normal⟩, ⟨.eof, 1, 15, .normal⟩]) :=
    Stream.delivers_ofSource (by decide)
  refine (read_exact _ hs).2 _ _ _ rfl ?_ (by decide)
  have hneg : Derives (fun name => .ok ("main" ++ name)) 6
      [⟨.punct .minus, 1, 5, .normal⟩, ⟨.localName ".b", 1, 6, .normal⟩]
      (unary .neg (symbol "main.b")) :=
    .looser (by decide) (.unary rfl (.looser (by decide) (.localName rfl rfl)))
  have hproduct := Derives.binary (t := ⟨.punct .star, 1, 9, .normal⟩) hneg rfl
    (.looser (by decide) (.number (t := ⟨.number 2, 1, 11, .normal⟩) rfl))
  have hsum := Derives.binary (t := ⟨.punct .plus, 1, 3, .normal⟩)
    (.mono (.number (t := ⟨.number 1, 1, 1, .normal⟩) rfl) (by decide) (by decide)) rfl
    (hproduct.mono (by decide) (by decide))
  exact hsum.mono (by decide) (by decide)

end Expr

end Sm83
