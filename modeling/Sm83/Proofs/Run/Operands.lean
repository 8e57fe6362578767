import Sm83.Proofs.Expr.Printing
import Sm83.Proofs.Run.Parts

/-!
# Operands as they are read

Which operands come out of a source. Whatever is read as an operand is a written one: its register,
condition or pointer has a spelling. Conversely, operands whose expressions are printable are read
back from their printed form.
-/

namespace Sm83

open Sm83.Expr

variable {w : String} {os : List Operand}

namespace Step

theorem operands_written (run : Run) (os : List Operand) (run' : Run)
    (h : operands run = .ok os run') : ∀ o ∈ os, o.isWritten = true := by
  have hwoven : Woven .free (fun _ => true) operands _ := woven_operands
  exact fun o ho => (hwoven.returns h o ho).1

variable {α β : Type} {t u : Token} {ts mid rest : List Token}

/-- From every run whose tokens are `ts` the step returns `a`, with `rest` left to read and the
state as it was. -/
def Runs (x : Step α) (ts : List Token) (a : α) (rest : List Token) : Prop :=
  ∀ run : Run, run.stream.Delivers ts →
    ∃ run', x run = .ok a run' ∧ run'.stream.Delivers rest ∧ run'.state = run.state

variable {e : Expr} {runs : List (List Token)}

namespace Runs

theorem pure (a : α) (ts : List Token) : Runs (pure a) ts a ts :=
  fun run h => ⟨run, rfl, h, rfl⟩

theorem bind {x : Step α} {k : α → Step β} {a : α} {b : β} (hx : Runs x ts a mid)
    (hk : Runs (k a) mid b rest) : Runs (x >>= k) ts b rest := by
  intro run hrun
  obtain ⟨run₁, hrun₁, hmid, hstate₁⟩ := hx run hrun
  obtain ⟨run₂, hrun₂, hrest, hstate₂⟩ := hk run₁ hmid
  refine ⟨run₂, ?_, hrest, hstate₂.trans hstate₁⟩
  show EStateM.bind x k run = _
  simp only [EStateM.bind, hrun₁, hrun₂]

theorem map {x : Step α} {a : α} (f : α → β) (hx : Runs x ts a rest) :
    Runs (f <$> x) ts (f a) rest := by
  rw [map_eq_pure_bind]
  exact hx.bind (pure (f a) rest)

theorem reading {action : Reading α} {a : α} (h : Reading.Runs action ts a rest) :
    Runs (reading action) ts a rest := by
  intro run hrun
  obtain ⟨stream, hstream, hrest⟩ := h run.stream hrun
  refine ⟨run.follow stream, ?_, hrest, rfl⟩
  simp only [Step.reading, hstream]

theorem peek (t : Token) (ts : List Token) : Runs peek (t :: ts) t (t :: ts) :=
  reading (.peek t ts)

theorem discard (ht : t.lexeme ≠ .eof) (ts : List Token) :
    Runs (discard advance) (t :: ts) () ts :=
  (reading (.advance (Token.isEnd_eq_false ht) ts)).map _

theorem expect {p : Punct} (ht : t.lexeme = .punct p) (x : Expectation) (ts : List Token) :
    Runs (expect p x) (t :: ts) () ts := by
  refine (peek t ts).bind ?_
  rw [if_pos (Lexeme.isPunct_iff.2 ht)]
  exact discard (by simp [ht]) ts

theorem accept {p : Punct} (ht : t.lexeme = .punct p) (ts : List Token) :
    Runs (accept p) (t :: ts) true ts := by
  refine (peek t ts).bind ?_
  rw [if_pos (Lexeme.isPunct_iff.2 ht)]
  exact (discard (by simp [ht]) ts).bind (pure true ts)

theorem decline {p : Punct} (ht : t.lexeme.isPunct p = false) (ts : List Token) :
    Runs (Step.accept p) (t :: ts) false (t :: ts) := by
  refine (peek t ts).bind ?_
  rw [if_neg (by simp [ht])]
  exact pure false _

theorem endLine_newline (ht : t.lexeme = .newline) (ts : List Token) :
    Runs endLine (t :: ts) () ts := by
  refine (peek t ts).bind ?_
  rw [ht]
  exact discard (by simp [ht]) ts

theorem endLine_eof (ht : t.lexeme = .eof) (ts : List Token) :
    Runs endLine (t :: ts) () (t :: ts) := by
  refine (peek t ts).bind ?_
  rw [ht]
  exact pure _ _

theorem expression (h : ∀ qualify, Expr.Derives qualify 0 ts e) (hstop : Expr.Stops 0 rest) :
    Runs expression (ts ++ rest) e rest := by
  intro run hrun
  exact reading (runs_read (h run.state.qualify) hstop) run hrun

end Runs

/-- The same of all runs in one state, which names are completed in. -/
def RunsIn (s : State) (x : Step α) (ts : List Token) (a : α) (rest : List Token) : Prop :=
  ∀ run : Run, run.state = s → run.stream.Delivers ts →
    ∃ run', x run = .ok a run' ∧ run'.stream.Delivers rest ∧ run'.state = s

theorem Runs.runsIn {x : Step α} {a : α} (h : Runs x ts a rest) (s : State) :
    RunsIn s x ts a rest := by
  rintro run rfl hrun
  exact h run hrun

namespace RunsIn

variable {s : State}

theorem bind {x : Step α} {k : α → Step β} {a : α} {b : β} (hx : RunsIn s x ts a mid)
    (hk : RunsIn s (k a) mid b rest) : RunsIn s (x >>= k) ts b rest := by
  intro run hs hrun
  obtain ⟨run₁, hrun₁, hmid, hs₁⟩ := hx run hs hrun
  obtain ⟨run₂, hrun₂, hrest, hs₂⟩ := hk run₁ hs₁ hmid
  exact ⟨run₂, (Outcome.run_bind_of_ok hrun₁ k).trans hrun₂, hrest, hs₂⟩

theorem expression (h : Expr.Derives s.qualify 0 ts e) (hstop : Expr.Stops 0 rest) :
    RunsIn s expression (ts ++ rest) e rest := by
  rintro run rfl hrun
  exact Runs.reading (runs_read h hstop) run hrun

end RunsIn

/-- What comes next ends an item of a list. -/
def EndsItem (rest : List Token) : Prop :=
  ∃ t us, rest = t :: us ∧ t.lexeme ∈ [.punct .comma, .newline, .eof]

theorem EndsItem.stops (h : EndsItem rest) : Expr.Stops 0 rest := by
  obtain ⟨t, us, rfl, ht⟩ := h
  simp only [List.mem_cons, List.not_mem_nil, or_false] at ht
  rcases ht with ht | ht | ht <;> simp [stops_cons_iff, ht, binding?]

theorem runs_register {r : Reg} (hr : r ∈ Reg.all) (ht : t.lexeme = .keyword r.word)
    (hrest : EndsItem rest) : Runs operand (t :: rest) (.register r) rest := by
  have hwords : ∀ r ∈ Reg.all, Reg.ofWord? r.word = some r := by decide
  have hregister : Runs (registerOperand r) (t :: rest) (.register r) rest := by
    refine (Runs.discard (by simp [ht]) rest).bind ?_
    split
    · -- behind the stack pointer only a sign starts an offset
      obtain ⟨u, us, rfl, hu⟩ := hrest
      refine (Runs.peek u us).bind ?_
      simp only [List.mem_cons, List.not_mem_nil, or_false] at hu
      rcases hu with hu | hu | hu <;>
        · rw [hu]
          exact .pure _ _
    · exact .pure _ _
  refine (Runs.peek t rest).bind ?_
  simp only [ht, hwords r hr]
  exact hregister

theorem runs_condition {k : Condition} (hk : k ∈ [Condition.nz, .z, .nc])
    (ht : t.lexeme = .keyword k.word) (rest : List Token) :
    Runs operand (t :: rest) (.condition k) rest := by
  have hwords : ∀ k ∈ [Condition.nz, .z, .nc],
      Reg.ofWord? k.word = none ∧ Condition.ofWord? k.word = some k := by decide
  obtain ⟨hregister, hcondition⟩ := hwords k hk
  refine (Runs.peek t rest).bind ?_
  simp only [ht, hregister, hcondition]
  exact (Runs.discard (by simp [ht]) rest).bind (.pure _ _)

theorem runs_pointer {p : Pointer} {v : Token} (hp : p ∈ [Pointer.hl, .bc, .de, .hli, .hld, .c])
    (ht : t.lexeme = .punct .leftBracket) (hu : u.lexeme = .keyword p.word)
    (hv : v.lexeme = .punct .rightBracket) (rest : List Token) :
    Runs operand (t :: u :: v :: rest) (.pointer p) rest := by
  have hwords : ∀ p ∈ [Pointer.hl, .bc, .de, .hli, .hld, .c], Pointer.ofWord? p.word = some p := by
    decide
  have hclose :
    Runs (do let q ← pure p; expect .rightBracket .closingBracket; pure (Operand.pointer q))
      (v :: rest) (.pointer p) rest :=
    (Runs.pure p _).bind ((Runs.expect hv _ rest).bind (.pure _ _))
  have hpointer : Runs (pointerOperand p) (u :: v :: rest) (.pointer p) rest := by
    refine (Runs.discard (by simp [hu]) _).bind ?_
    split
    · refine (Runs.peek v rest).bind ?_
      rw [hv]
      exact hclose
    · exact hclose
  have hbracketed : Runs bracketed (t :: u :: v :: rest) (.pointer p) rest := by
    refine (Runs.discard (by simp [ht]) _).bind ((Runs.peek u _).bind ?_)
    simp only [pointer?, hu, hwords p hp]
    exact hpointer
  refine (Runs.peek t _).bind ?_
  rw [ht]
  exact hbracketed

theorem function_word {f : Function} (hf : f ∈ Function.builtin) :
    Reg.ofWord? f.word = none ∧ Condition.ofWord? f.word = none ∧ Pointer.ofWord? f.word = none ∧
      f.word ≠ "c" := by
  have hwords : ∀ f ∈ Function.builtin, Reg.ofWord? f.word = none ∧
      Condition.ofWord? f.word = none ∧ Pointer.ofWord? f.word = none ∧ f.word ≠ "c" := by decide
  exact hwords f hf

theorem exists_function_of_starts (h : starts (.keyword w) = true) :
    ∃ f ∈ Function.builtin, w = f.word := by
  have hfunction : (function? (.keyword w)).isSome = true := by
    simpa [starts, prefixed?] using h
  obtain ⟨f, hf⟩ := Option.isSome_iff_exists.mp hfunction
  obtain ⟨hbuiltin, hword⟩ := function?_eq_some_iff.1 hf
  exact ⟨f, hbuiltin, Lexeme.keyword.inj hword⟩

theorem runs_immediate (h : ∀ qualify, Expr.Derives qualify 0 ts e) (hrest : EndsItem rest) :
    Runs operand (ts ++ rest) (.immediate e) rest := by
  have hexpression : Runs (Operand.immediate <$> expression) (ts ++ rest) (.immediate e) rest :=
    (Runs.expression h hrest.stops).map _
  obtain ⟨t, us, rfl, hstarts⟩ := (h fun name => .ok name).starts
  refine (Runs.peek t _).bind ?_
  split
  · next w hw =>
    rw [hw] at hstarts
    obtain ⟨f, hf, rfl⟩ := exists_function_of_starts hstarts
    obtain ⟨hregister, hcondition, -⟩ := function_word hf
    simp only [hregister, hcondition]
    exact hexpression
  · next hbracket =>
    rw [hbracket] at hstarts
    cases hstarts
  · exact hexpression

theorem runsIn_stackOffset {s : State} (negative : Bool) (ht : t.lexeme = .keyword "sp")
    (hu : u.lexeme = .punct (if negative then .minus else .plus))
    (h : Expr.Derives s.qualify 0 ts e) (hrest : EndsItem rest) :
    RunsIn s operand (t :: u :: (ts ++ rest)) (.stackOffset (if negative then .unary .neg e else e))
      rest := by
  have hoffset : RunsIn s (stackOffset negative) (u :: (ts ++ rest))
      (.stackOffset (if negative then .unary .neg e else e)) rest := by
    refine ((Runs.discard (by simp [hu]) _).runsIn s).bind
      ((RunsIn.expression h hrest.stops).bind ?_)
    exact (Runs.pure _ _).runsIn s
  refine ((Runs.peek t _).runsIn s).bind ?_
  rw [ht]
  refine ((Runs.discard (by simp [ht]) _).runsIn s).bind (((Runs.peek u _).runsIn s).bind ?_)
  rw [hu]
  cases negative <;> exact hoffset

theorem mem_of_afterCommas (h : Expr.AfterCommas runs ts) (hmem : t ∈ ts) :
    t.lexeme = .punct .comma ∨ ∃ xs ∈ runs, t ∈ xs := by
  induction h with
  | nil => cases hmem
  | cons hcomma _ ih =>
    simp only [List.mem_cons, List.mem_append] at hmem
    rcases hmem with rfl | hmem | hmem
    · exact .inl hcomma
    · exact .inr ⟨_, List.mem_cons_self, hmem⟩
    · rcases ih hmem with hcomma | ⟨xs, hxs, hx⟩
      · exact .inl hcomma
      · exact .inr ⟨xs, List.mem_cons_of_mem _ hxs, hx⟩

theorem mem_of_listed (h : Expr.Listed runs ts) (hmem : t ∈ ts) :
    t.lexeme = .punct .comma ∨ ∃ xs ∈ runs, t ∈ xs := by
  cases h with
  | none => cases hmem
  | some h =>
    rcases List.mem_append.mp hmem with hmem | hmem
    · exact .inr ⟨_, List.mem_cons_self, hmem⟩
    · exact (mem_of_afterCommas h hmem).imp_right fun ⟨xs, hxs, hx⟩ =>
        ⟨xs, List.mem_cons_of_mem _ hxs, hx⟩

/-- A reserved word in an expression is a function. -/
theorem exists_function_of_derives {qualify : String → Except Cause String} {k : Nat}
    (h : Expr.Derives qualify k ts e) (hmem : t ∈ ts) (ht : t.lexeme = .keyword w) :
    ∃ f ∈ Function.builtin, w = f.word := by
  induction h with
  | looser _ _ ih => exact ih hmem
  | binary _ hop _ iha ihb =>
    simp only [List.mem_append, List.mem_cons] at hmem
    rcases hmem with hmem | rfl | hmem
    · exact iha hmem
    · rw [ht] at hop
      cases hop
    · exact ihb hmem
  | unary hop _ ih =>
    rcases List.mem_cons.mp hmem with rfl | hmem
    · rw [ht] at hop
      cases hop
    · exact ih hmem
  | plus hop _ ih =>
    rcases List.mem_cons.mp hmem with rfl | hmem
    · cases ht.symm.trans hop
    · exact ih hmem
  | number hl | string hl | name hl | localName hl =>
    rw [List.mem_singleton.mp hmem, hl] at ht
    cases ht
  | group hl _ hr ih =>
    simp only [List.mem_cons, List.mem_append, List.not_mem_nil, or_false] at hmem
    rcases hmem with rfl | hmem | rfl
    · cases ht.symm.trans hl
    · exact ih hmem
    · cases ht.symm.trans hr
  | call hf hl hopen hlisted _ hclose _ ih =>
    simp only [List.mem_cons, List.mem_append, List.not_mem_nil, or_false] at hmem
    rcases hmem with rfl | rfl | hmem | rfl
    · exact ⟨_, hf, Lexeme.keyword.inj (ht.symm.trans hl)⟩
    · cases ht.symm.trans hopen
    · rcases mem_of_listed hlisted hmem with hcomma | ⟨xs, hxs, hx⟩
      · cases ht.symm.trans hcomma
      · obtain ⟨a, ha, rfl⟩ := List.mem_map.mp hxs
        exact ih a ha hx
    · cases ht.symm.trans hclose

theorem isKeyword_c_of_derives {qualify : String → Except Cause String} {k : Nat}
    (h : Expr.Derives qualify k ts e) (hmem : t ∈ ts) : t.lexeme.isKeyword "c" = false := by
  cases ht : t.lexeme with
  | keyword w =>
    obtain ⟨f, hf, rfl⟩ := exists_function_of_derives h hmem ht
    simpa [Lexeme.isKeyword] using (function_word hf).2.2.2
  | _ => rfl

theorem runs_highPointerAhead {v : Token} {vs : List Token}
    (h : ∀ qualify, Expr.Derives qualify 0 (v :: vs) e) (hu : u.lexeme = .punct .rightBracket)
    (rest : List Token) :
    Runs highPointerAhead (v :: vs ++ u :: rest) false (v :: vs ++ u :: rest) := by
  refine (Runs.peek v _).bind ?_
  split
  · cases vs with
    | nil =>
      refine (Runs.reading (.peekAt (t := u) rfl)).bind ?_
      rw [hu]
      exact .pure _ _
    | cons x vs =>
      refine (Runs.reading (.peekAt (t := x) rfl)).bind ?_
      split
      · -- behind `$FF00 +` an expression goes on, and `c` starts none
        obtain ⟨y, hy, hkeyword⟩ : ∃ y, (v :: x :: vs ++ u :: rest)[2]? = some y ∧
            y.lexeme.isKeyword "c" = false := by
          cases vs with
          | nil => exact ⟨u, rfl, by rw [hu]; rfl⟩
          | cons y vs =>
            exact ⟨y, rfl, isKeyword_c_of_derives (h fun name => .ok name) (by simp)⟩
        refine (Runs.reading (.peekAt hy)).bind ?_
        rw [if_neg (by simp [hkeyword])]
        exact .pure _ _
      · exact .pure _ _
  · exact .pure _ _

theorem runs_memory (ht : t.lexeme = .punct .leftBracket)
    (h : ∀ qualify, Expr.Derives qualify 0 ts e) (hu : u.lexeme = .punct .rightBracket)
    (rest : List Token) : Runs operand (t :: (ts ++ u :: rest)) (.memory e) rest := by
  have hstop : Expr.Stops 0 (u :: rest) := by simp [stops_cons_iff, hu, binding?]
  have hexpression := Runs.expression h hstop
  obtain ⟨v, vs, rfl, hstarts⟩ := (h fun name => .ok name).starts
  have hpointer : pointer? v.lexeme = none := by
    cases hv : v.lexeme with
    | keyword w =>
      rw [hv] at hstarts
      obtain ⟨f, hf, rfl⟩ := exists_function_of_starts hstarts
      exact (function_word hf).2.2.1
    | _ => rfl
  have hbracketed : Runs bracketed (t :: (v :: vs ++ u :: rest)) (.memory e) rest := by
    refine (Runs.discard (by simp [ht]) _).bind ((Runs.peek v _).bind ?_)
    rw [hpointer]
    refine (runs_highPointerAhead h hu rest).bind ?_
    rw [if_neg (by simp)]
    exact hexpression.bind ((Runs.expect hu _ rest).bind (.pure _ _))
  refine (Runs.peek t _).bind ?_
  rw [ht]
  exact hbracketed

theorem endsItem_of_afterCommas (h : Expr.AfterCommas runs ts) (hu : u.lexeme ∈ [.newline, .eof])
    (rest : List Token) : EndsItem (ts ++ u :: rest) := by
  cases h with
  | nil => exact ⟨u, rest, rfl, List.mem_cons_of_mem _ hu⟩
  | cons ht _ => exact ⟨_, _, rfl, by rw [ht]; exact List.mem_cons_self⟩

theorem runs_moreItems {item : Step α} {runs : List (List Token × α)}
    (hcommas : Expr.AfterCommas (runs.map Prod.fst) ts)
    (hitems : ∀ x ∈ runs, ∀ rest, EndsItem rest → Runs item (x.1 ++ rest) x.2 rest)
    (hu : u.lexeme ∈ [.newline, .eof]) {n : Nat} (hn : ts.length < n) (done : List α) :
    Runs (moreItems item n done) (ts ++ u :: rest) (done ++ runs.map Prod.snd) (u :: rest) := by
  induction runs generalizing ts n done with
  | nil =>
    obtain ⟨n, rfl⟩ := Nat.exists_eq_add_of_lt hn
    cases hcommas
    have hcomma : u.lexeme.isPunct .comma = false := by
      simp only [List.mem_cons, List.not_mem_nil, or_false] at hu
      rcases hu with hu | hu <;> rw [hu] <;> rfl
    rw [List.map_nil, List.append_nil]
    exact (Runs.decline hcomma rest).bind (.pure _ _)
  | cons x runs ih =>
    obtain ⟨n, rfl⟩ := Nat.exists_eq_add_of_lt hn
    cases hcommas with
    | @cons t _ _ ts ht hcommas =>
      have hitem := hitems x List.mem_cons_self _ (endsItem_of_afterCommas hcommas hu rest)
      have hfuel : ts.length < (t :: (x.1 ++ ts)).length + n := by
        rw [List.length_cons, List.length_append]
        omega
      have hmore := ih hcommas (fun y hy => hitems y (List.mem_cons_of_mem _ hy)) hfuel
        (done ++ [x.2])
      rw [List.cons_append, List.append_assoc]
      refine (Runs.accept ht _).bind (hitem.bind ?_)
      simpa using hmore

/-- The tokens are those of the operand: it is read from them wherever an operand can end. -/
structure ReadAs (ts : List Token) (o : Operand) : Prop where
  starts : ∃ t us, ts = t :: us ∧ t.lexeme.endsLine = false
  runs : ∀ rest, EndsItem rest → Runs operand (ts ++ rest) o rest

/-- Operands are read off their lexemes. -/
theorem runs_operands {runs : List (List Token × Operand)}
    (hlisted : Expr.Listed (runs.map Prod.fst) ts) (hruns : ∀ x ∈ runs, ReadAs x.1 x.2)
    (hu : u.lexeme ∈ [.newline, .eof]) :
    Runs operands (ts ++ u :: rest) (runs.map Prod.snd) (u :: rest) := by
  have hatLineEnd : ∀ t ts, Runs atLineEnd (t :: ts) t.lexeme.endsLine (t :: ts) := fun t ts =>
    (Runs.peek t ts).bind (.pure _ _)
  cases runs with
  | nil =>
    cases hlisted
    have hends : u.lexeme.endsLine = true := by
      simp only [List.mem_cons, List.not_mem_nil, or_false] at hu
      rcases hu with hu | hu <;> rw [hu] <;> rfl
    refine (hatLineEnd u rest).bind ?_
    rw [hends]
    exact .pure _ _
  | cons x runs =>
    cases hlisted with
    | @some _ _ ts hcommas =>
      obtain ⟨⟨t, us, hx, ht⟩, hfirst⟩ := hruns x List.mem_cons_self
      have hitem := hfirst _ (endsItem_of_afterCommas hcommas hu rest)
      have hmore : Runs (do moreItems operand (← bound) [x.2]) (ts ++ u :: rest)
          ((x :: runs).map Prod.snd) (u :: rest) := by
        intro run hrun
        have hbound := hrun.length_lt_bound
        rw [List.length_append] at hbound
        exact runs_moreItems hcommas (fun y hy => (hruns y (List.mem_cons_of_mem _ hy)).runs) hu
          (n := run.stream.bound) (by omega) [x.2] run hrun
      rw [List.append_assoc]
      have hpeek : Runs atLineEnd (x.1 ++ (ts ++ u :: rest)) false (x.1 ++ (ts ++ u :: rest)) := by
        rw [hx, ← ht]
        exact hatLineEnd t _
      exact hpeek.bind (hitem.bind hmore)

end Step

namespace Operand

/-- The operand has a printed form that stands for it alone. -/
structure Printable (o : Operand) : Prop where
  written : o.isWritten = true
  expr : ∀ e ∈ o.expr?, e.Printable

theorem reserved_of_mem (hw : w ∈ Keyword.registers ++ Keyword.conditions) : Reserved w := by
  refine .of_mem ?_
  simp only [Keyword.all, List.append_assoc, List.mem_append] at hw ⊢
  rcases hw with hw | hw
  · exact .inr (.inl hw)
  · exact .inr (.inr (.inl hw))

theorem spelt_word (hw : Reserved w) {P : List Token → Prop}
    (hP : ∀ t : Token, t.lexeme = .keyword w → P [t]) : Spelt w.toList P :=
  .of_lexeme (fun _ _ hrest h => .keyword hw (hrest.headIs_eq_false (by decide)) h) hP

/-- The printed form of the operand is read as the operand. -/
structure ReadsBack (o : Operand) : Prop where
  starts : headIs startsForm o.render.toList = true
  spelt : Spelt o.render.toList fun ts => Step.ReadAs ts o

theorem readsBack_word {o : Operand} (hword : o.render ∈ Keyword.registers ++ Keyword.conditions)
    (hruns : ∀ t rest, t.lexeme = .keyword o.render → Step.EndsItem rest →
      Step.Runs Step.operand (t :: rest) o rest) : ReadsBack o := by
  have hreserved := reserved_of_mem hword
  refine ⟨headIs_imp startsForm_of_isNameStart hreserved.start, spelt_word hreserved ?_⟩
  intro t ht
  exact ⟨⟨t, [], rfl, by rw [ht]; rfl⟩, fun rest hrest => hruns t rest ht hrest⟩

theorem readsBack_register {r : Reg} (hr : r ∈ Reg.all) : ReadsBack (register r) := by
  have hwords : ∀ r ∈ Reg.all, r.word ∈ Keyword.registers ++ Keyword.conditions := by decide
  exact readsBack_word (hwords r hr) fun t rest ht hrest => Step.runs_register hr ht hrest

theorem readsBack_condition {k : Condition} (hk : k ∈ [Condition.nz, .z, .nc]) :
    ReadsBack (condition k) := by
  have hwords : ∀ k ∈ [Condition.nz, .z, .nc],
      k.word ∈ Keyword.registers ++ Keyword.conditions := by decide
  exact readsBack_word (hwords k hk) fun t rest ht _ => Step.runs_condition hk ht rest

theorem readsBack_pointer {p : Pointer} (hp : p ∈ [Pointer.hl, .bc, .de, .hli, .hld, .c]) :
    ReadsBack (pointer p) := by
  have hwords : ∀ p ∈ [Pointer.hl, .bc, .de, .hli, .hld, .c],
      p.word ∈ Keyword.registers ++ Keyword.conditions := by decide
  have hword : Spelt p.word.toList fun ts => ∃ t, ts = [t] ∧ t.lexeme = .keyword p.word :=
    spelt_word (reserved_of_mem (hwords p hp)) fun t ht => ⟨t, rfl, ht⟩
  have hform : (pointer p).render.toList = '[' :: (p.word.toList ++ [']']) := by simp [render]
  constructor <;> rw [hform]
  · rfl
  · apply hword.between .leftBracket .rightBracket (by decide)
    rintro t _ v ht ⟨u, rfl, hu⟩ hv
    exact ⟨⟨t, [u, v], rfl, by rw [ht]; rfl⟩, fun rest _ => Step.runs_pointer hp ht hu hv rest⟩

section

variable {e : Expr} (he : e.Printable)

include he

theorem readsBack_memory : ReadsBack (memory e) := by
  have hform : (memory e).render.toList = '[' :: (e.render.toList ++ [']']) := by simp [render]
  constructor <;> rw [hform]
  · rfl
  · refine (prints he).spelt.between .leftBracket .rightBracket (by decide) ?_
    intro t ts u ht hts hu
    refine ⟨⟨t, ts ++ [u], rfl, by rw [ht]; rfl⟩, fun rest _ => ?_⟩
    simpa using Step.runs_memory ht hts hu rest

theorem readsBack_immediate : ReadsBack (immediate e) := by
  have hprints := prints he
  refine ⟨hprints.starts, hprints.spelt.imp fun ts hts => ?_⟩
  refine ⟨?_, fun rest hrest => Step.runs_immediate hts hrest⟩
  obtain ⟨t, us, rfl, hstarts⟩ := (hts fun name => .ok name).starts
  refine ⟨t, us, rfl, ?_⟩
  cases ht : t.lexeme with
  | newline | eof =>
    rw [ht] at hstarts
    cases hstarts
  | _ => rfl

theorem readsBack_stackOffset : ReadsBack (stackOffset e) := by
  have hadd : ∀ s, BinaryOp.add ≠ .other s := by simp
  have hsp : Reserved Reg.sp.word := reserved_of_mem (by decide)
  have hform : (stackOffset e).render.toList =
      Reg.sp.word.toList ++ ' ' :: (BinaryOp.add.text.toList ++ ' ' :: e.render.toList) := by
    simp [render, Reg.word, BinaryOp.text]
  have hsum := Expr.Prints.spelt_operator hadd (prints he).spelt
  constructor <;> rw [hform]
  · rfl
  · apply hsum.keyword hsp rfl (by simp)
    rintro t _ ht ⟨u, us, rfl, hu, hus⟩
    exact ⟨⟨t, u :: us, rfl, by rw [ht]; rfl⟩, fun rest hrest =>
      fun run => Step.runsIn_stackOffset false ht hu (hus _) hrest run rfl⟩

end

theorem readsBack {o : Operand} (ho : o.Printable) : ReadsBack o := by
  obtain ⟨hwritten, hexpr⟩ := ho
  cases o with
  | register r => exact readsBack_register (List.contains_iff_mem.mp hwritten)
  | condition k => exact readsBack_condition (List.contains_iff_mem.mp hwritten)
  | pointer p => exact readsBack_pointer (List.contains_iff_mem.mp hwritten)
  | memory e => exact readsBack_memory (hexpr e rfl)
  | immediate e => exact readsBack_immediate (hexpr e rfl)
  | stackOffset e => exact readsBack_stackOffset (hexpr e rfl)

/-- The tokens are those of the operands, with commas between them. -/
def TokensOf (os : List Operand) (ts : List Token) : Prop :=
  ∃ runs : List (List Token × Operand), Expr.Listed (runs.map Prod.fst) ts ∧
    runs.map Prod.snd = os ∧ ∀ x ∈ runs, Step.ReadAs x.1 x.2

theorem spelt_renderAll (hos : ∀ o ∈ os, o.Printable) :
    Spelt (renderAll os).toList (TokensOf os) := by
  cases os with
  | nil =>
    refine ⟨[], fun rest ms _ h => h, ?_⟩
    intro ts hts
    rw [List.map_eq_nil_iff.mp hts]
    exact ⟨[], .none, rfl, by simp⟩
  | cons o os => exact .join fun o' ho' => (readsBack (hos o' ho')).spelt

theorem tokens_renderAll (hos : ∀ o ∈ os, o.Printable) (file : String) :
    ∃ ts t, (Source.ofText (renderAll os) file).tokens = (ts ++ [t], none) ∧ TokensOf os ts ∧
      t.lexeme = .eof := by
  refine (spelt_renderAll hos).tokens file ?_
  cases os with
  | nil => simp [renderAll, Text.join]
  | cons o os =>
    have hstarts : headIs startsForm (renderAll (o :: os)).toList = true := by
      rw [renderAll, List.map_cons, toList_join]
      exact headIs_append (readsBack (hos o List.mem_cons_self)).starts _
    exact (starts_facts hstarts).1

end Operand

theorem Step.operands_render (hos : ∀ o ∈ os, o.Printable) (file : String) (state : State)
    (diagnostics : Diagnostics) :
    ∃ run', Step.operands (Run.start (.ofText (Operand.renderAll os) file) state diagnostics) =
      .ok os run' := by
  obtain ⟨ts, t, htokens, ⟨runs, hlisted, rfl, hruns⟩, ht⟩ := Operand.tokens_renderAll hos file
  have hreads : Runs operands (ts ++ [t]) (runs.map Prod.snd) [t] :=
    runs_operands hlisted hruns (by simp [ht])
  obtain ⟨run', hoperands, -⟩ := hreads (Run.start _ state diagnostics)
    (Stream.delivers_ofSource htokens)
  exact ⟨run', hoperands⟩

end Sm83
