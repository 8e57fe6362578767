import Sm83.Proofs.Expr.Reading
import Sm83.Proofs.Token.Spelling

/-!
# Printing and reading expressions

An expression is printed so that reading gives it back: operators stand between blanks, and an
operation stands in brackets as an operand. `Prints` ties a printed form to an expression; wherever
the form can end it is found again as tokens that derive the expression.
-/

namespace Sm83

/-- The operator that a binary operator is spelled with. -/
def BinaryOp.punct : BinaryOp → Punct
  | logicalOr => .orOr | logicalAnd => .andAnd
  | equal => .equalEqual | notEqual => .notEqual | less => .less | lessEqual => .lessEqual
  | greater => .greater | greaterEqual => .greaterEqual
  | add => .plus | sub => .minus
  | bitOr => .pipe | bitXor => .caret | bitAnd => .ampersand
  | shiftLeft => .shiftLeft | shiftRight => .shiftRight
  | mul => .star | div => .slash | mod => .percent
  | other _ => .equals

variable {op : BinaryOp}

theorem BinaryOp.text_punct (hop : ∀ s, op ≠ .other s) : op.punct.text = op.text := by
  cases op with
  | other s => exact absurd rfl (hop s)
  | _ => rfl

section

variable {α : Type} {render : α → String} {P : α → List Token → Prop}

/-- Forms, each behind a comma and a blank. -/
def afterCommas (forms : List String) : List Char :=
  forms.flatMap fun form => ',' :: ' ' :: form.toList

theorem toList_join (form : String) (forms : List String) :
    (Text.join ", " (form :: forms)).toList = form.toList ++ afterCommas forms := by
  induction forms generalizing form with
  | nil => simp [Text.join, afterCommas]
  | cons form' forms ih =>
    have htail := ih form'
    rw [Text.join] at htail ⊢
    rw [String.intercalate_cons_cons, String.toList_append, htail]
    simp [afterCommas]

theorem closes_afterCommas (forms : List String) {rest : List Char} (hrest : Closes rest) :
    Closes (afterCommas forms ++ rest) := by
  cases forms with
  | nil => exact hrest
  | cons form forms => exact .cons (by decide) _

theorem Spelt.afterCommas {as : List α} (h : ∀ a ∈ as, Spelt (render a).toList (P a)) :
    Spelt (afterCommas (as.map render)) fun ts => ∃ runs : List (List Token × α),
      Expr.AfterCommas (runs.map Prod.fst) ts ∧ runs.map Prod.snd = as ∧
      ∀ x ∈ runs, P x.2 x.1 := by
  induction as with
  | nil =>
    refine ⟨[], fun rest ms _ h => h, ?_⟩
    intro ts hts
    rw [List.map_eq_nil_iff.mp hts]
    exact ⟨[], .nil, rfl, by simp⟩
  | cons a as ih =>
    have hitem : Spelt ([',', ' '] ++ (render a).toList) fun ts =>
        ∃ t us, ts = t :: us ∧ t.lexeme = .punct .comma ∧ P a us :=
      (h a (by simp)).cons (fun rest ms h => .delimiter .comma (by decide) (.blank h))
        fun t us ht hus => ⟨t, us, rfl, ht, hus⟩
    have hitems := ih fun b hb => h b (List.mem_cons_of_mem _ hb)
    apply hitem.append (fun rest => closes_afterCommas _) hitems
    rintro _ us ⟨t, xs, rfl, ht, hxs⟩ ⟨runs, hcommas, hitems, hruns⟩
    refine ⟨(xs, a) :: runs, .cons ht hcommas, by rw [List.map_cons, hitems], ?_⟩
    exact List.forall_mem_cons.mpr ⟨hxs, hruns⟩

theorem Spelt.join {a : α} {as : List α} (h : ∀ b ∈ a :: as, Spelt (render b).toList (P b)) :
    Spelt (Text.join ", " ((a :: as).map render)).toList fun ts =>
      ∃ runs : List (List Token × α), Expr.Listed (runs.map Prod.fst) ts ∧
        runs.map Prod.snd = a :: as ∧ ∀ x ∈ runs, P x.2 x.1 := by
  have hitems : Spelt _ _ := .afterCommas fun b hb => h b (List.mem_cons_of_mem _ hb)
  rw [List.map_cons, toList_join]
  refine (h a (by simp)).append (fun rest => closes_afterCommas _) hitems ?_
  rintro ts us hts ⟨runs, hcommas, hitems, hruns⟩
  refine ⟨(ts, a) :: runs, .some hcommas, by rw [List.map_cons, hitems], ?_⟩
  exact List.forall_mem_cons.mpr ⟨hts, hruns⟩

end

namespace Expr

/-- The expression has a printed form that stands for it alone: numbers are not negative and fit in
a word, texts stay within a line, names are those of global symbols, operators are known, and calls
are of built-in functions with a number of arguments they take. -/
inductive Printable : Expr → Prop
  | literal {n : Int} (hlow : 0 ≤ n) (hhigh : n < 0x80000000) : Printable (literal n)
  | text {s : String} (h : ∀ c ∈ s.toList, c ≠ '\n' ∧ c ≠ '\r') : Printable (text s)
  | symbol {name : String} (h : isGlobalName name = true) : Printable (symbol name)
  | unary {op : UnaryOp} {e : Expr} (hop : ∀ s, op ≠ .other s) (h : Printable e) :
      Printable (unary op e)
  | binary {op : BinaryOp} {a b : Expr} (hop : ∀ s, op ≠ .other s) (ha : Printable a)
      (hb : Printable b) : Printable (binary op a b)
  | call {f : Function} {args : List Expr} (hf : f ∈ Function.builtin)
      (hcount : f.accepts args.length = true) (h : ∀ e ∈ args, Printable e) :
      Printable (call f args)

/-- A character that is not taken together with what stands before it. -/
def startsForm (c : Char) : Bool :=
  !(isBlank c || c = '*' || c = '=')

theorem startsForm_of_isNameStart (c : Char) (h : isNameStart c = true) : startsForm c = true := by
  simp only [startsForm, isBlank, Bool.not_eq_true', Bool.or_eq_false_iff, decide_eq_false_iff_not]
  refine ⟨⟨⟨?_, ?_⟩, ?_⟩, ?_⟩ <;>
    · rintro rfl
      cases h

theorem headIs_imp {p q : Char → Bool} (hpq : ∀ c, p c = true → q c = true) {cs : List Char}
    (h : headIs p cs = true) : headIs q cs = true := by
  rcases headIs_iff.mp h with ⟨c, cs, rfl, hc⟩
  exact headIs_iff.mpr ⟨c, cs, rfl, hpq c hc⟩

theorem headIs_append {p : Char → Bool} {xs : List Char} (h : headIs p xs = true) (ys : List Char) :
    headIs p (xs ++ ys) = true := by
  cases xs with
  | nil => cases h
  | cons => exact h

theorem starts_facts {cs : List Char} (h : headIs startsForm cs = true) :
    (cs.dropWhile isBlank).head? ≠ some '*' ∧ headIs (· = '=') cs = false := by
  cases cs with
  | nil => cases h
  | cons c cs =>
    simp only [headIs, startsForm, List.head?_cons, Option.any_some, Bool.not_eq_true',
      Bool.or_eq_false_iff, decide_eq_false_iff_not] at h
    simp [headIs, h.1.1, h.1.2, h.2]

/-- The form, wherever it can end, is found again as a phrase of the stratum for the expression. -/
structure Prints (form : List Char) (k : Nat) (e : Expr) : Prop where
  starts : headIs startsForm form = true
  spelt : Spelt form fun ts => ∀ qualify, Derives qualify k ts e

theorem accepts_zero (f : Function) : f.accepts 0 = false := by
  cases f <;> rfl

theorem renderAll_eq_map (args : List Expr) : renderAll args = args.map render := by
  induction args with
  | nil => simp [renderAll]
  | cons e args ih => simp [renderAll, ih]

namespace Prints

variable {form : List Char} {k : Nat} {e : Expr}

theorem mono {j : Nat} (h : Prints form k e) (hjk : j ≤ k) (hk : k ≤ 8) : Prints form j e :=
  ⟨h.starts, h.spelt.imp fun _ hts qualify => (hts qualify).mono hjk hk⟩

theorem number {n : Int} (hlow : 0 ≤ n) (hhigh : n < 0x80000000) :
    Prints (renderLiteral n).toList 8 (literal n) := by
  obtain ⟨n, rfl⟩ := Int.eq_ofNat_of_zero_le hlow
  by_cases hn : n < 10
  · have hform : (renderLiteral n).toList = [n.digitChar] := by
      have hsmall : (n : Int) < 10 := by omega
      rw [renderLiteral, if_pos hsmall]
      show (toString n).toList = _
      rw [Nat.toString_eq_ofList_toDigits, Nat.toDigits_of_lt_base hn, String.toList_ofList]
    have hstarts : ∀ n < 10, headIs startsForm [n.digitChar] = true := by decide
    rw [hform]
    exact ⟨hstarts n hn, .of_lexeme (fun rest ms hrest h => .digit hn hrest h)
      fun t ht qualify => .number ht⟩
  · have hform : (renderLiteral n).toList = '$' :: (Text.hex 1 n).toList := by
      have hlarge : ¬(n : Int) < 10 := by omega
      have hunsigned : Word.unsigned n = n := by
        rw [Word.unsigned, Int.emod_eq_of_lt (by omega) (by simp only [Word.modulus]; omega)]
        rfl
      rw [renderLiteral, if_neg hlarge, Word.dollarHex, hunsigned]
      simp
    rw [hform]
    exact ⟨rfl, .of_lexeme (fun rest ms hrest h => .hex (by omega) hrest h)
      fun t ht qualify => .number ht⟩

theorem string {s : String} (hs : ∀ c ∈ s.toList, c ≠ '\n' ∧ c ≠ '\r') :
    Prints (renderText s).toList 8 (text s) := by
  refine ⟨?_, .of_lexeme (fun rest ms _ h => .string hs h) fun t ht qualify => .string ht⟩
  simp [renderText, headIs, startsForm, isBlank]

theorem name {s : String} (hs : isGlobalName s = true) : Prints s.toList 8 (symbol s) := by
  refine ⟨?_, .of_lexeme (fun rest ms hrest h => .name hs hrest h) fun t ht qualify => .name ht⟩
  exact headIs_imp startsForm_of_isNameStart (parts_of_isGlobalName hs).1

theorem group (h : Prints form 0 e) : Prints ('(' :: (form ++ [')'])) 8 e := by
  refine ⟨rfl, h.spelt.between .leftParen .rightParen (by decide) ?_⟩
  intro t ts u ht hts hu qualify
  exact .group ht (hts qualify) hu

theorem exists_sign {op : UnaryOp} (hop : ∀ s, op ≠ .other s) :
    ∃ l, sign? l = some op ∧ headIs startsForm op.text.toList = true ∧
      ∀ rest ms, headIs startsForm rest = true → Lexes rest ms →
        Lexes (op.text.toList ++ rest) (l :: ms) := by
  cases op with
  | neg =>
    exact ⟨.punct .minus, rfl, rfl, fun rest ms _ h =>
      .single (by decide) (by decide) (by simp) rfl h⟩
  | complement =>
    exact ⟨.punct .tilde, rfl, rfl, fun rest ms _ h =>
      .single (by decide) (by decide) (by simp) rfl h⟩
  | not => exact ⟨.punct .bang, rfl, rfl, fun rest ms hrest h => .bang (starts_facts hrest).2 h⟩
  | other s => exact absurd rfl (hop s)

theorem unary {op : UnaryOp} (hop : ∀ s, op ≠ .other s) (h : Prints form 8 e) :
    Prints (op.text.toList ++ form) 7 (unary op e) := by
  obtain ⟨l, hl, hstarts, hsign⟩ := exists_sign hop
  refine ⟨headIs_append hstarts form, h.spelt.cons (l := l) ?_ ?_⟩
  · intro rest ms hrest
    exact hsign _ _ (headIs_append h.starts rest) hrest
  · intro t ts ht hts qualify
    exact .unary (by rw [ht, hl]) ((hts qualify).mono (by decide) (by decide))

theorem exists_binding (hop : ∀ s, op ≠ .other s) :
    ∃ k, binding? (.punct op.punct) = some (k, op) := by
  cases op with
  | other s => exact absurd rfl (hop s)
  | _ => exact ⟨_, rfl⟩

theorem closes_operator (hop : ∀ s, op ≠ .other s) (rest : List Char) :
    Closes (' ' :: (op.punct.text.toList ++ ' ' :: rest)) := by
  cases op with
  | other s => exact absurd rfl (hop s)
  | _ => exact ⟨by simp, rfl⟩

theorem spelt_operator (hop : ∀ s, op ≠ .other s) {P : List Token → Prop} (h : Spelt form P) :
    Spelt (' ' :: (op.text.toList ++ ' ' :: form)) fun ts =>
      ∃ t us, ts = t :: us ∧ t.lexeme = .punct op.punct ∧ P us := by
  have hbehind : Spelt (' ' :: (op.text.toList ++ [' ']) ++ form) fun ts =>
      ∃ t us, ts = t :: us ∧ t.lexeme = .punct op.punct ∧ P us := by
    refine h.cons (l := .punct op.punct) ?_ fun t us ht hus => ⟨t, us, rfl, ht, hus⟩
    intro rest ms h
    have hlexes := Lexes.blank (Lexes.punct op.punct (.blank h))
    simpa [BinaryOp.text_punct hop] using hlexes
  simpa using hbehind

theorem binary {left right : List Char} {a b : Expr} (hop : ∀ s, op ≠ .other s)
    (ha : Prints left 8 a) (hb : Prints right 8 b) :
    Prints (left ++ ' ' :: (op.text.toList ++ ' ' :: right)) 0 (binary op a b) := by
  obtain ⟨k, hl⟩ := exists_binding hop
  have hk : k < 7 := binding?_lt hl
  refine ⟨headIs_append ha.starts _, ha.spelt.append ?_ (spelt_operator hop hb.spelt) ?_⟩
  · intro rest _
    simpa [BinaryOp.text_punct hop] using closes_operator hop (right ++ rest)
  · rintro xs _ hxs ⟨t, ys, rfl, ht, hys⟩ qualify
    -- operands of the tightest stratum fit on either side of any operator
    have hbinary := Derives.binary ((hxs qualify).mono (j := k) (by omega) (by decide))
      (by rw [ht, hl]) ((hys qualify).mono (by omega) (by decide))
    exact hbinary.mono (by omega) (by omega)

/-- A call is printed with its arguments. -/
theorem call {f : Function} {args : List Expr} (hf : f ∈ Function.builtin)
    (hcount : f.accepts args.length = true) (h : ∀ e ∈ args, Prints e.render.toList 0 e) :
    Prints (Expr.call f args).render.toList 8 (.call f args) := by
  have hword : Reserved f.word := .of_mem (List.mem_append_right _ (List.mem_map_of_mem hf))
  cases args with
  | nil => simp [accepts_zero] at hcount
  | cons e args =>
    have hform : (Expr.call f (e :: args)).render.toList = f.word.toList ++
        ('(' :: ((Text.join ", " ((e :: args).map render)).toList ++ [')'])) := by
      simp [render, renderAll_eq_map]
    have hargs := Spelt.join fun e he => (h e he).spelt
    have hgroup := hargs.between .leftParen .rightParen (by decide) (Q := fun ts =>
      ∃ u us v, ts = u :: (us ++ [v]) ∧ u.lexeme = .punct .leftParen ∧
        v.lexeme = .punct .rightParen ∧
        ∃ runs : List (List Token × Expr), Listed (runs.map Prod.fst) us ∧
          runs.map Prod.snd = e :: args ∧ ∀ x ∈ runs, ∀ qualify, Derives qualify 0 x.1 x.2)
      fun u us v hu hus hv => ⟨u, us, v, rfl, hu, hv, hus⟩
    rw [hform]
    refine ⟨headIs_append (headIs_imp startsForm_of_isNameStart hword.start) _,
      hgroup.keyword hword rfl (by simp) ?_⟩
    rintro t _ ht ⟨u, us, v, rfl, hu, hv, runs, hlisted, hruns, hderives⟩ qualify
    rw [← hruns]
    refine .call hf ht hu hlisted (fun x hx => hderives x hx qualify) hv ?_
    rwa [← List.length_map Prod.snd, hruns]

end Prints

theorem Prints.operand {e : Expr} (h : Prints e.render.toList (if e.isOperation then 0 else 8) e) :
    Prints (if e.isOperation then "(" ++ e.render ++ ")" else e.render).toList 8 e := by
  cases hop : e.isOperation with
  | true =>
    rw [hop] at h
    simpa using h.group
  | false =>
    rw [hop] at h
    exact h

/-- The printed form prints the expression, in the tightest stratum unless it is an operation. -/
theorem prints_render {e : Expr} (he : e.Printable) :
    Prints e.render.toList (if e.isOperation then 0 else 8) e := by
  induction he with
  | literal hlow hhigh =>
    rw [render]
    exact .number hlow hhigh
  | text hs =>
    rw [render]
    exact .string hs
  | symbol hname =>
    rw [render]
    exact .name hname
  | unary hop _ ih =>
    have hunary := (Prints.unary hop ih.operand).mono (j := 0) (by decide) (by decide)
    simpa [render, isOperation] using hunary
  | binary hop _ _ iha ihb =>
    have hbinary := Prints.binary hop iha.operand ihb.operand
    simpa [render, isOperation] using hbinary
  | call hf hcount _ ih =>
    refine .call hf hcount fun e he => (ih e he).mono (Nat.zero_le _) ?_
    split <;> decide

theorem prints {e : Expr} (he : e.Printable) : Prints e.render.toList 0 e :=
  (prints_render he).mono (Nat.zero_le _) (by split <;> decide)

theorem runs_read {qualify : String → Except Cause String} {ts rest : List Token} {e : Expr}
    (h : Derives qualify 0 ts e) (hstop : Stops 0 rest) :
    Reading.Runs (read qualify) (ts ++ rest) e rest := by
  intro s hs
  have hlength := hs.length_lt_bound
  rw [List.length_append] at hlength
  exact covers_readWithin s.bound ts e rest (by omega) h hstop s hs

/-- Reading the printed form of an expression gives the expression back and leaves nothing but the
end of the source. -/
theorem read_render (qualify : String → Except Cause String) {e : Expr} (he : e.Printable)
    (file : String) :
    ∃ ts t s', (Source.ofText e.render file).tokens = (ts ++ [t], none) ∧ t.lexeme = .eof ∧
      read qualify (.ofSource (.ofText e.render file)) = .ok e s' ∧ s'.Delivers [t] := by
  have hprints := prints he
  obtain ⟨ts, t, htokens, hderives, ht⟩ := hprints.spelt.tokens file (starts_facts hprints.starts).1
  have hs := Stream.delivers_ofSource htokens
  have hstop : Stops 0 [t] := stops_cons_iff.mpr (by simp [ht, binding?])
  obtain ⟨s', hread, hrest⟩ := runs_read (hderives qualify) hstop _ hs
  exact ⟨ts, t, s', htokens, ht, hread, hrest⟩

/-- In `x == (-(1 % strin("a\"\\b", "b")))` nothing is declared, the sign stands before brackets,
and the quote and the backslash of the string are escaped. -/
theorem read_render_nested :
    Printable (binary .equal (symbol "x") (unary .neg (binary .mod (literal 1)
      (call .strin [text "a\"\\b", text "b"])))) ∧
    ∃ ts t s', (Source.ofText "x == (-(1 % strin(\"a\\\"\\\\b\", \"b\")))" "a.asm").tokens =
        (ts ++ [t], none) ∧ t.lexeme = .eof ∧
      read (fun name => .ok name)
          (.ofSource (.ofText "x == (-(1 % strin(\"a\\\"\\\\b\", \"b\")))" "a.asm")) =
        .ok (binary .equal (symbol "x") (unary .neg (binary .mod (literal 1)
          (call .strin [text "a\"\\b", text "b"])))) s' ∧
      s'.Delivers [t] := by
  have hcall : Printable (call .strin [text "a\"\\b", text "b"]) := by
    refine .call (by decide) (by decide) ?_
    intro arg harg
    simp only [List.mem_cons, List.not_mem_nil, or_false] at harg
    rcases harg with rfl | rfl
    · exact .text (by simp)
    · exact .text (by simp)
  have hneg : Printable (unary .neg (binary .mod (literal 1) _)) :=
    .unary (by simp) (.binary (by simp) (.literal (by decide) (by decide)) hcall)
  have he : Printable (binary .equal (symbol "x") _) :=
    .binary (by simp) (.symbol (by decide)) hneg
  exact ⟨he, read_render _ he "a.asm"⟩

end Expr

end Sm83
