import Sm83.Proofs.Run.Layout
import Sm83.Proofs.Run.Reached

/-!
# Raw arguments

Arguments that are joined by commas are read back one by one, the empty ones included. An argument
that can be written so is one whose quotes and brackets are closed and whose commas stand inside
them.
-/

namespace Sm83

open Outcome

/-! ## Plain texts -/

/-- The characters outside double quotes, without the quotes. -/
def outsideQuotes : (quoted : Bool) → List Char → List Char
  | _, [] => []
  | quoted, c :: cs =>
    if c = '"' then outsideQuotes (!quoted) cs
    else if quoted then outsideQuotes quoted cs
    else c :: outsideQuotes quoted cs

/-- What is left of a plain text at a place inside `depth` brackets, with a quote open or not: no
line end and no backslash, quotes that are paired, and outside of them no semicolon, brackets that
are balanced and never close below zero, and commas only inside brackets. -/
structure PlainFrom (quoted : Bool) (depth : Nat) (cs : List Char) : Prop where
  chars : ∀ c ∈ cs, c ≠ '\n' ∧ c ≠ '\r' ∧ c ≠ '\\'
  paired : cs.count '"' % 2 = quoted.toNat
  uncommented : ';' ∉ outsideQuotes quoted cs
  balanced : depth + (outsideQuotes quoted cs).count '(' = (outsideQuotes quoted cs).count ')'
  nested : ∀ front ∈ (outsideQuotes quoted cs).inits, front.count ')' ≤ depth + front.count '('
  covered : ∀ front ∈ (outsideQuotes quoted cs).inits, front.getLast? = some ',' →
    front.count ')' < depth + front.count '('

/-- A text that stands for itself as a raw argument. -/
structure PlainArgument (text : String) : Prop where
  trimmed : Text.trim text = text
  plain : PlainFrom false 0 text.toList

instance (quoted : Bool) (depth : Nat) (cs : List Char) : Decidable (PlainFrom quoted depth cs) :=
  have : Decidable (∀ c ∈ cs, c ≠ '\n' ∧ c ≠ '\r' ∧ c ≠ '\\') := List.decidableBAll _ cs
  decidable_of_iff (_ ∧ _ ∧ _ ∧ _ ∧ _ ∧ _)
    ⟨fun ⟨h₁, h₂, h₃, h₄, h₅, h₆⟩ => ⟨h₁, h₂, h₃, h₄, h₅, h₆⟩,
      fun ⟨h₁, h₂, h₃, h₄, h₅, h₆⟩ => ⟨h₁, h₂, h₃, h₄, h₅, h₆⟩⟩

instance (text : String) : Decidable (PlainArgument text) :=
  decidable_of_iff (_ ∧ _) ⟨fun ⟨h₁, h₂⟩ => ⟨h₁, h₂⟩, fun ⟨h₁, h₂⟩ => ⟨h₁, h₂⟩⟩

abbrev Blanks (cs : List Char) : Prop :=
  ∀ c ∈ cs, isBlank c = true

/-- Arguments with a comma between every two of them and blanks around each. -/
inductive Joined : List String → List Char → Prop
  | none {blanks : List Char} (hblanks : Blanks blanks) : Joined [] blanks
  | last {a : String} {before after : List Char} (hbefore : Blanks before)
    (hafter : Blanks after) : Joined [a] (before ++ a.toList ++ after)
  | more {a b : String} {args : List String} {before after cs : List Char}
    (hbefore : Blanks before) (hafter : Blanks after)
    (hmore : Joined (b :: args) cs) :
    Joined (a :: b :: args) (before ++ a.toList ++ after ++ ',' :: cs)

namespace PlainFrom

variable {quoted : Bool} {depth : Nat} {c : Char} {cs : List Char}

theorem quote (h : PlainFrom quoted depth ('"' :: cs)) : PlainFrom (!quoted) depth cs := by
  refine ⟨fun c hc => h.chars c (List.mem_cons_of_mem _ hc), ?_, h.uncommented, h.balanced,
    h.nested, h.covered⟩
  have hpaired := h.paired
  rw [List.count_cons_self] at hpaired
  cases quoted <;> simp only [Bool.toNat_true, Bool.toNat_false, Bool.not_true,
    Bool.not_false] at hpaired ⊢ <;> omega

theorem inside (h : PlainFrom true depth (c :: cs)) (hc : c ≠ '"') : PlainFrom true depth cs := by
  have houtside : outsideQuotes true (c :: cs) = outsideQuotes true cs := by
    simp [outsideQuotes, hc]
  rcases h with ⟨chars, paired, uncommented, balanced, nested, covered⟩
  rw [houtside] at uncommented balanced nested covered
  rw [List.count_cons_of_ne hc] at paired
  exact ⟨fun c hc => chars c (List.mem_cons_of_mem _ hc), paired, uncommented, balanced, nested,
    covered⟩

theorem beside (h : PlainFrom false depth (c :: cs)) (hc : c ≠ '"') :
    c ≠ ';' ∧ (c = ',' → 0 < depth) ∧ ([c].count ')' ≤ depth + [c].count '(') ∧
      PlainFrom false (depth + [c].count '(' - [c].count ')') cs := by
  have houtside : outsideQuotes false (c :: cs) = c :: outsideQuotes false cs := by
    simp [outsideQuotes, hc]
  rcases h with ⟨chars, paired, uncommented, balanced, nested, covered⟩
  rw [houtside] at uncommented balanced nested covered
  rw [List.count_cons_of_ne hc] at paired
  have hmore : ∀ front ∈ (outsideQuotes false cs).inits,
      c :: front ∈ (c :: outsideQuotes false cs).inits :=
    fun front hfront => List.mem_cons_of_mem _ (List.mem_map_of_mem hfront)
  have hone : [c] ∈ (c :: outsideQuotes false cs).inits :=
    hmore [] (by cases outsideQuotes false cs <;> simp [List.inits])
  have hopen := nested [c] hone
  have hcount : ∀ (bracket : Char) (front : List Char),
      (c :: front).count bracket = [c].count bracket + front.count bracket := by
    intro bracket front
    rw [← List.singleton_append, List.count_append]
  rw [hcount '(' (outsideQuotes false cs), hcount ')' (outsideQuotes false cs)] at balanced
  refine ⟨?_, ?_, hopen, fun d hd => chars d (List.mem_cons_of_mem _ hd), paired, ?_, ?_, ?_, ?_⟩
  · rintro rfl
    exact uncommented (by simp)
  · rintro rfl
    simpa using covered [','] hone rfl
  · exact fun hmem => uncommented (List.mem_cons_of_mem _ hmem)
  · omega
  · intro front hfront
    have hnested := nested _ (hmore front hfront)
    rw [hcount '(' front, hcount ')' front] at hnested
    omega
  · intro front hfront hlast
    have hcovered := covered _ (hmore front hfront) (by rw [List.getLast?_cons, hlast]; rfl)
    rw [hcount '(' front, hcount ')' front] at hcovered
    omega

end PlainFrom

/-! ## Reading an argument -/

@[simp] theorem RawScan.append_append (front front' : List Char) (m n : Nat) (scan : RawScan) :
    (scan.append front m).append front' n = scan.append (front' ++ front) (m + n) := by
  cases scan <;> simp [append, Nat.add_assoc]

/-- A plain text is taken as a part of the argument. -/
theorem PlainFrom.rawArgument {quoted : Bool} {depth : Nat} {cs : List Char}
    (h : PlainFrom quoted depth cs) (tail : List Char) :
    Sm83.rawArgument (if quoted then .quoted depth else .plain depth) (cs ++ tail) =
      (Sm83.rawArgument (.plain 0) tail).append cs cs.length := by
  induction cs generalizing quoted depth with
  | nil =>
    have hclosed : quoted = false := by
      have hpaired := h.paired
      cases quoted with
      | false => rfl
      | true => cases hpaired
    subst hclosed
    obtain rfl : depth = 0 := h.balanced
    show Sm83.rawArgument (.plain 0) tail = _
    cases Sm83.rawArgument (.plain 0) tail <;> rfl
  | cons c cs ih =>
    rcases h.chars c (by simp) with ⟨hline, _, hslash⟩
    cases quoted with
    | true =>
      have hstate : RawState.afterQuoted depth c = if (c != '"') = true then .quoted depth
          else .plain depth := by
        by_cases hc : c = '"' <;> simp [RawState.afterQuoted, hslash, hc]
      have hrest : PlainFrom (c != '"') depth cs := by
        by_cases hc : c = '"'
        · subst hc
          exact h.quote
        · rw [bne_iff_ne.mpr hc]
          exact h.inside hc
      simp only [if_true, List.cons_append, Sm83.rawArgument, if_neg hline, hstate, ih hrest]
      simp
    | false =>
      by_cases hc : c = '"'
      · subst hc
        have hrest := ih h.quote
        simp only [Bool.not_false, if_true] at hrest
        simp [Sm83.rawArgument, RawState.afterPlain, hrest]
      · rcases h.beside hc with ⟨hcomment, hcomma, hopen, hrest⟩
        have hstate : RawState.afterPlain depth c =
            .plain (depth + [c].count '(' - [c].count ')') := by
          unfold RawState.afterPlain
          rw [if_neg hc]
          split
          · next h => simp [h]
          · split
            · next h => simp [h]
            · next h h' => simp [h, h']
        -- the character ends no argument: a comma stands within parentheses
        have hgoes : ¬ (c = '\n' || c = ';' || (c = ',' && depth = 0)) = true := by
          simp only [hline, hcomment, Bool.or_eq_true, Bool.and_eq_true, decide_eq_true_eq,
            false_or, not_and]
          exact fun h => Nat.ne_of_gt (hcomma h)
        have hih := ih hrest
        simp only [Bool.false_eq_true, if_false] at hih
        simp only [Bool.false_eq_true, if_false, List.cons_append, Sm83.rawArgument, hgoes, hslash,
          hstate, hih]
        simp

variable {blanks before after cs tail : List Char} {args : List String}

theorem rawArgument_blanks (hblanks : Blanks blanks) (tail : List Char) :
    rawArgument (.plain 0) (blanks ++ tail) = (rawArgument (.plain 0) tail).append blanks
      blanks.length := by
  induction blanks with
  | nil => cases h : rawArgument (.plain 0) tail <;> simp [h, RawScan.append]
  | cons c blanks ih =>
    have hc : isBlank c = true := hblanks c (by simp)
    have hrest := ih fun d hd => hblanks d (List.mem_cons_of_mem _ hd)
    have hstep : rawArgument (.plain 0) (c :: (blanks ++ tail)) =
        (rawArgument (.plain 0) (blanks ++ tail)).append [c] 1 := by
      simp only [isBlank, Bool.or_eq_true, decide_eq_true_eq] at hc
      rcases hc with rfl | rfl <;> rfl
    rw [List.cons_append, hstep, hrest]
    simp

theorem Text.trimmed_append (cs : List Char) (hafter : ∀ c ∈ after, isSpace c = true) :
    trimmed (cs ++ after) = trimmed cs := by
  have hall : after.dropWhile isSpace = [] := by
    rw [← List.append_nil after, List.dropWhile_append_of_pos hafter]
    rfl
  unfold trimmed
  rw [List.dropWhile_append]
  split
  · next hnone => simp [hall, List.isEmpty_iff.mp hnone]
  · rw [List.reverse_append, List.dropWhile_append_of_pos fun c hc => hafter c
      (List.mem_reverse.mp hc)]

theorem gap_blanks (hblanks : Blanks blanks) (hgap : (gap 0 false cs).length = 0) :
    (gap 0 false (blanks ++ cs)).length = blanks.length := by
  induction blanks with
  | nil => exact hgap
  | cons c blanks ih =>
    have hc : isBlank c = true := hblanks c (by simp)
    have hrest := ih fun d hd => hblanks d (List.mem_cons_of_mem _ hd)
    simp [gap, hc, Gap.succ, hrest]

namespace PlainArgument

variable {a : String}

theorem head (h : PlainArgument a) (hne : a ≠ "") : ∃ c cs, a.toList = c :: cs ∧ isBlank c = false ∧
    c ≠ ';' ∧ c ≠ ',' ∧ c ≠ '\n' ∧ c ≠ '\\' := by
  cases hcs : a.toList with
  | nil => exact absurd (String.toList_eq_nil_iff.mp hcs) hne
  | cons c cs =>
    have htrimmed := congrArg String.toList h.trimmed
    have hplain := h.plain
    rw [hcs] at hplain
    rcases hplain.chars c (by simp) with ⟨hline, _, hslash⟩
    refine ⟨c, cs, rfl, ?_, ?_, ?_, hline, hslash⟩
    · rw [Bool.eq_false_iff]
      intro hblank
      rw [Text.trim, String.toList_ofList, hcs, Text.trimmed,
        List.dropWhile_cons_of_pos (isSpace_of_isBlank hblank)] at htrimmed
      have hshort := congrArg List.length htrimmed
      have hle := ((List.dropWhile_sublist Text.isSpace (l := cs)).length_le)
      have hle' :=
        ((List.dropWhile_sublist Text.isSpace (l := (cs.dropWhile Text.isSpace).reverse)).length_le)
      simp only [List.length_reverse, List.length_cons] at hshort hle'
      omega
    · rintro rfl
      exact (hplain.beside (by decide)).1 rfl
    · rintro rfl
      exact absurd ((hplain.beside (by decide)).2.1 rfl) (by decide)

end PlainArgument

/-! ## Joined arguments -/

/-- The raw tokens of an argument: none for an empty one. -/
def argumentLexeme (a : String) : List Lexeme :=
  if a = "" then [] else [.rawText a]

/-- The raw tokens of arguments with commas between them. -/
def argumentLexemes : List String → List Lexeme
  | [] => []
  | [a] => argumentLexeme a
  | a :: b :: args => argumentLexeme a ++ .punct .comma :: argumentLexemes (b :: args)

namespace Cursor

variable {source : Source} {c : Cursor} {a : String}

theorem next_argument_of {l : Lexeme} (hblanks : Blanks blanks) (hc : c.rest = blanks ++ cs)
    (hgap : (gap 0 false cs).length = 0)
    (h : ∀ here : Cursor, here.rest = cs → ∃ t c', ArgumentAt here t c' ∧ t.lexeme = l ∧
      c'.rest = tail) :
    ∃ t c', c.next source .arguments = .ok (t, c') ∧ t.lexeme = l ∧ c'.rest = tail := by
  rcases h (c.pass blanks.length) (by rw [rest_pass, hc, List.drop_left]) with
    ⟨t, c', hat, hl, htail⟩
  refine ⟨t, c', argumentToken_eq_ok_iff.mpr ?_, hl, htail⟩
  rwa [hc, gap_blanks hblanks hgap]

theorem next_last (source : Source) (hblanks : Blanks blanks) (hc : c.rest = blanks) :
    ∃ t c', c.next source .arguments = .ok (t, c') ∧ t.lexeme = .eof ∧ c'.rest = [] :=
  next_argument_of hblanks (hc.trans (List.append_nil _).symm) rfl fun _ h =>
    ⟨_, _, .ended h, rfl, h⟩

theorem next_comma (source : Source) (hblanks : Blanks blanks) (hc : c.rest = blanks ++ ',' :: cs) :
    ∃ t c', c.next source .arguments = .ok (t, c') ∧ t.lexeme = .punct .comma ∧ c'.rest = cs :=
  next_argument_of hblanks hc rfl fun _ h => ⟨_, _, .comma h, rfl, by rw [rest_skip, h]; rfl⟩

theorem next_argument (source : Source) (ha : PlainArgument a) (hne : a ≠ "")
    (hbefore : Blanks before) (hafter : Blanks after) (htail : tail = [] ∨ tail.head? = some ',')
    (hc : c.rest = before ++ (a.toList ++ after ++ tail)) :
    ∃ t c', c.next source .arguments = .ok (t, c') ∧ t.lexeme = .rawText a ∧ c'.rest = tail := by
  rcases ha.head hne with ⟨ch, chs, hchs, hblank, hcomment, hcomma, hline, hslash⟩
  have hend : rawArgument (.plain 0) tail = .argument [] 0 := by
    rcases htail with rfl | htail
    · rfl
    · rcases List.head?_eq_some_iff.mp htail with ⟨_, rfl⟩
      rfl
  have hraw : rawArgument (.plain 0) (a.toList ++ after ++ tail) =
      .argument (a.toList ++ after) (a.toList ++ after).length := by
    have hplain := ha.plain.rawArgument (after ++ tail)
    simp only [Bool.false_eq_true, if_false] at hplain
    rw [List.append_assoc, hplain, rawArgument_blanks hafter, hend]
    simp [RawScan.append, Nat.add_comm]
  have htrim : String.ofList (Text.trimmed (a.toList ++ after)) = a := by
    rw [Text.trimmed_append _ fun c hc => isSpace_of_isBlank (hafter c hc)]
    exact ha.trimmed
  refine next_argument_of hbefore hc ?_ fun here hhere => ?_
  · simp [hchs, gap, hblank, hcomment, hslash]
  · have hfirst : here.rest = ch :: (chs ++ after ++ tail) := by simp [hhere, hchs]
    refine ⟨_, _, .argument hfirst hline hcomma (hhere ▸ hraw), ?_, ?_⟩
    · simp [token, htrim]
    · rw [rest_passRaw, hhere, List.drop_left]

/-- The raw tokens from a cursor to the end of the source have these lexemes. -/
def YieldsRaw (source : Source) (c : Cursor) (ls : List Lexeme) : Prop :=
  ∃ ts last, c.Yields source .arguments (ts ++ [last]) ∧ ts.map Token.lexeme = ls ∧
    last.lexeme = .eof

theorem yieldsRaw_nil (hblanks : Blanks blanks) (hc : c.rest = blanks) : YieldsRaw source c [] := by
  rcases next_last source hblanks hc with ⟨t, _, ht, hl, _⟩
  exact ⟨[], t, .last ht (by rw [Token.isEnd, hl]; rfl), rfl, hl⟩

theorem YieldsRaw.cons {l : Lexeme} {ls : List Lexeme} {t : Token} {c' : Cursor}
    (h : YieldsRaw source c' ls) (ht : c.next source .arguments = .ok (t, c')) (hl : t.lexeme = l)
    (hne : l ≠ .eof) : YieldsRaw source c (l :: ls) := by
  rcases h with ⟨ts, last, hts, hls, hlast⟩
  exact ⟨t :: ts, last,
    .more ht (Token.isEnd_eq_false (hl ▸ hne)) hts, by rw [List.map_cons, hl, hls], hlast⟩

theorem yieldsRaw_argument {ls : List Lexeme} (ha : PlainArgument a) (hbefore : Blanks before)
    (hafter : Blanks after) (htail : tail = [] ∨ tail.head? = some ',')
    (hc : c.rest = before ++ a.toList ++ after ++ tail)
    (h : ∀ (c' : Cursor) (blanks : List Char), Blanks blanks → c'.rest = blanks ++ tail →
      YieldsRaw source c' ls) : YieldsRaw source c (argumentLexeme a ++ ls) := by
  unfold argumentLexeme
  split
  · next hempty =>
    subst hempty
    refine h c (before ++ after) ?_ (by simpa using hc)
    exact fun d hd => (List.mem_append.mp hd).elim (hbefore d) (hafter d)
  · next hne =>
    rcases next_argument source ha hne hbefore hafter htail (by simpa using hc) with
      ⟨t, c', ht, hl, hc'⟩
    exact (h c' [] (List.forall_mem_nil _) hc').cons ht hl (by simp)

theorem yieldsRaw_joined (h : Joined args cs) (hplain : ∀ a ∈ args, PlainArgument a)
    (hc : c.rest = cs) : YieldsRaw source c (argumentLexemes args) := by
  induction h generalizing c with
  | none hblanks => exact yieldsRaw_nil hblanks hc
  | @last a _ _ hbefore hafter =>
    rw [argumentLexemes, ← List.append_nil (argumentLexeme a)]
    exact yieldsRaw_argument (hplain a (by simp)) hbefore hafter (.inl rfl)
      (hc.trans (List.append_nil _).symm)
      fun c' blanks hblanks hc' => yieldsRaw_nil hblanks (hc'.trans (List.append_nil _))
  | @more a b args _ _ cs hbefore hafter _ ih =>
    refine yieldsRaw_argument (hplain a (by simp)) hbefore hafter (.inr rfl) hc
      fun c' blanks hblanks hc' => ?_
    rcases next_comma source hblanks hc' with ⟨t, c'', ht, hl, hc''⟩
    exact (ih (fun d hd => hplain d (List.mem_cons_of_mem _ hd)) hc'').cons ht hl (by simp)

end Cursor

/-! ## Reading the arguments of a line -/

namespace Step

variable {n : Nat} {isOpen : Bool} {t last : Token} {ts : List Token} {a : String}
  {acc : List String} {r : Run}

theorem runs_moreArguments_end (isOpen : Bool) (acc : List String) (hlast : last.lexeme = .eof) :
    Runs (moreArguments (n + 1) isOpen acc)
      [last] (if isOpen && !acc.isEmpty then acc ++ [""] else acc) [last] := by
  refine (Runs.peek last []).bind ?_
  rw [hlast]
  intro run hrun
  rcases Reading.advanceAs_end .argument (by rw [Token.isEnd, hlast]; rfl) hrun with
    ⟨stream, hstream, hrequest⟩
  have hadvance : advanceAs .argument run = .ok last (run.follow stream) := by
    simp only [advanceAs, reading, hstream]
  have hdiscard : discard (advanceAs .argument) run = .ok ⟨⟩ (run.follow stream) := by
    show EStateM.map _ _ run = _
    simp [EStateM.map, hadvance]
  exact ⟨_, run_bind_of_ok hdiscard _, hrequest .normal, rfl⟩

theorem runs_argument {α : Type} {x : Step α} {b : α} {rest : List Token} (h : Runs x ts b rest)
    (ht : t.lexeme ≠ .eof) : Runs (discard (advanceAs .argument) >>= fun _ => x) (t :: ts) b rest :=
  ((Runs.reading (.advanceAs .argument (Token.isEnd_eq_false ht) ts)).map _).bind h

section

variable {b : List String} {rest : List Token}

theorem runs_moreArguments_text (ht : t.lexeme = .rawText a)
    (h : Runs (moreArguments n false (acc ++ [a])) ts b rest) :
    Runs (moreArguments (n + 1) isOpen acc) (t :: ts) b rest := by
  refine (Runs.peek t ts).bind ?_
  rw [ht]
  exact runs_argument h (by simp [ht])

theorem runs_moreArguments_comma (ht : t.lexeme = .punct .comma)
    (h : Runs (moreArguments n true (if isOpen then acc ++ [""] else acc)) ts b rest) :
    Runs (moreArguments (n + 1) isOpen acc) (t :: ts) b rest := by
  refine (Runs.peek t ts).bind ?_
  rw [ht]
  exact runs_argument h (by simp [ht])

end

/-- The arguments are read off their lexemes. -/
theorem runs_moreArguments (hlast : last.lexeme = .eof) (hargs : args ≠ [])
    (hopen : acc ++ args ≠ [""]) (hts : ts.map Token.lexeme = argumentLexemes args)
    (hn : ts.length < n) : Runs (moreArguments n true acc) (ts ++ [last]) (acc ++ args) [last] := by
  -- on the arguments; an empty one has no token of its own, only the comma behind it
  induction args generalizing acc ts n with
  | nil => exact absurd rfl hargs
  | cons a args ih =>
    rcases Nat.exists_eq_add_one.mpr (Nat.zero_lt_of_lt hn) with ⟨n, rfl⟩
    cases args with
    | nil =>
      by_cases ha : a = ""
      · subst ha
        obtain rfl : ts = [] := List.map_eq_nil_iff.mp hts
        have hacc : acc.isEmpty = false := by
          rw [List.isEmpty_eq_false_iff]
          rintro rfl
          exact hopen rfl
        have hend := runs_moreArguments_end (n := n) true acc hlast
        rwa [hacc] at hend
      · rw [argumentLexemes, argumentLexeme, if_neg ha] at hts
        rcases List.map_eq_singleton_iff.mp hts with ⟨t, rfl, ht⟩
        rcases Nat.exists_eq_add_one.mpr (Nat.lt_of_succ_lt_succ hn) with ⟨n, rfl⟩
        exact runs_moreArguments_text ht (runs_moreArguments_end false _ hlast)
    | cons b args =>
      have hmore : ∀ {ts n}, ts.map Token.lexeme = argumentLexemes (b :: args) → ts.length < n →
          Runs (moreArguments n true (acc ++ [a])) (ts ++ [last]) (acc ++ a :: b :: args)
            [last] := by
        intro ts n hts hn
        have hlong : (acc ++ [a]) ++ b :: args ≠ [""] := by cases acc <;> simp
        have hrest := ih (by simp) hlong hts hn
        rwa [List.append_assoc] at hrest
      by_cases ha : a = ""
      · subst ha
        rcases List.map_eq_cons_iff.mp hts with ⟨t, ts, rfl, ht, hts⟩
        exact runs_moreArguments_comma ht (hmore hts (Nat.lt_of_succ_lt_succ hn))
      · rw [argumentLexemes, argumentLexeme, if_neg ha] at hts
        rcases List.map_eq_cons_iff.mp hts with ⟨t, _, rfl, ht, hts⟩
        rcases List.map_eq_cons_iff.mp hts with ⟨t', ts, rfl, ht', hts⟩
        simp only [List.length_cons] at hn
        rcases Nat.exists_eq_add_one.mpr (show 0 < n by omega) with ⟨n, rfl⟩
        exact runs_moreArguments_text ht (runs_moreArguments_comma ht' (hmore hts (by omega)))

/-- From the run the step returns `a`, in the state there was, and only the end is left to read. -/
def Concludes {α : Type} (x : Step α) (r : Run) (a : α) : Prop :=
  ∃ last r', x r = .ok a r' ∧ last.lexeme = .eof ∧ r'.stream.Delivers [last] ∧ r'.state = r.state

theorem Concludes.bind {α β : Type} {x : Step α} {k : α → Step β} {a : α} {b : β} {r' : Run}
    (hx : x r = .ok a r') (hstate : r'.state = r.state) (h : Concludes (k a) r' b) :
    Concludes (x >>= k) r b := by
  rcases h with ⟨last, u, hu, hlast, hdelivers, hstate'⟩
  exact ⟨last, u, (run_bind_of_ok hx k).trans hu, hlast, hdelivers, hstate'.trans hstate⟩

theorem Concludes.map {α β : Type} {x : Step α} {a : α} (h : Concludes x r a) (f : α → β) :
    Concludes (x >>= fun a => pure (f a)) r (f a) := by
  rcases h with ⟨last, u, hu, hrest⟩
  exact ⟨last, u, run_bind_of_ok hu _, hrest⟩

theorem rawArguments_concludes (hbuffer : r.stream.buffer = []) (hargs : args ≠ [""])
    (h : r.stream.cursor.YieldsRaw r.stream.source (argumentLexemes args)) :
    Concludes rawArguments r args := by
  rcases h with ⟨ts, last, hyields, hts, hlast⟩
  let s := r.stream.request .arguments
  have hdelivers : s.Delivers (ts ++ [last]) :=
    ⟨hyields.reachesEnd, _, by simp [s, Stream.request, hbuffer], .inr hyields⟩
  have hn : ts.length < s.bound := by
    have hbound := hdelivers.length_lt_bound
    rw [List.length_append] at hbound
    omega
  have hruns : Runs (moreArguments s.bound true []) (ts ++ [last]) args [last] := by
    by_cases hnone : args = []
    · subst hnone
      obtain rfl : ts = [] := List.map_eq_nil_iff.mp hts
      exact runs_moreArguments_end true [] hlast
    · exact runs_moreArguments hlast hnone hargs hts hn
  rcases hruns { r with stream := s } hdelivers with ⟨r', hr', hdelivers', hstate⟩
  exact ⟨last, r', hr', hlast, hdelivers', hstate⟩

/-- The words that raw arguments stand behind, and what is made of the arguments. -/
inductive TakesArguments : Lexeme → (List String → Form) → Prop
  | option : TakesArguments (.keyword Directive.option.word) fun args =>
      .directive .option (args.map .word)
  | call (name : String) : TakesArguments (.name name) (.macroCall name)

theorem TakesArguments.isEnd {form : List String → Form} (h : TakesArguments t.lexeme form) :
    t.isEnd = false := by
  generalize hl : t.lexeme = l at h
  apply Token.isEnd_eq_false
  cases h <;> simp [hl]

section

variable {form : List String → Form} (hform : TakesArguments t.lexeme form) (hargs : args ≠ [""])
include hform hargs

/-- A line with arguments is the statement of its word. -/
theorem body_concludes (hbuffer : r.stream.buffer = [t])
    (h : r.stream.cursor.YieldsRaw r.stream.source (argumentLexemes args)) :
    Concludes body r [⟨r.stream.source.locate t, form args⟩] := by
  let behind := r.stream.consume .code t []
  have hstatement : ∀ v : Run, v.stream = behind → Concludes (do
      let args ← rawArguments
      pure (⟨← locationOf t, form args⟩ : Statement)) v ⟨r.stream.source.locate t, form args⟩ := by
    intro v hv
    rcases rawArguments_concludes (r := v) (by simp [hv, behind, Stream.consume, hform.isEnd]) hargs
      (by rw [hv]; exact h) with
      ⟨last, u, hu, hrest⟩
    have hwoven : Woven .free (fun _ => true) rawArguments _ := woven_rawArguments
    have hsource : u.stream.source = r.stream.source :=
      (hwoven.onward hu).source.trans (by rw [hv]; rfl)
    refine ⟨last, u, ?_, hrest⟩
    rw [run_bind_of_ok hu, ← hsource]
    rfl
  refine .bind (peek_buffered hbuffer) rfl ?_
  generalize hl : t.lexeme = l at hform
  cases hform with
  | call name =>
    have hcall : Concludes (macroCall name) (r.follow r.stream)
        ⟨r.stream.source.locate t, .macroCall name args⟩ :=
      .bind (advanceAs_buffered (r := r.follow r.stream) hbuffer .code) rfl (hstatement _ rfl)
    exact hcall.map fun s => [s]
  | option =>
    have hdirective : Concludes (directive .option) (r.follow r.stream)
        ⟨r.stream.source.locate t, .directive .option (args.map .word)⟩ :=
      .bind (peek_buffered (r := r.follow r.stream) hbuffer) rfl (.bind (discard_advanceAs_buffered
        (r := (r.follow r.stream).follow r.stream) hbuffer .code) rfl (hstatement _ rfl))
    exact hdirective.map fun s => [s]

theorem nextLine_concludes {c : Cursor} (hbuffer : r.stream.buffer = [])
    (ht : r.stream.cursor.next r.stream.source r.stream.register.commit.current = .ok (t, c))
    (h : c.YieldsRaw r.stream.source (argumentLexemes args)) :
    Concludes nextLine r (some [⟨r.stream.source.locate t, form args⟩]) := by
  let ahead : Stream :=
    ⟨r.stream.source, c, r.stream.register.commit, [t], r.stream.previous, r.stream.history⟩
  have hfirst : peek r = .ok t (r.follow ahead) := by
    simp only [peek, reading, Reading.peek_fresh hbuffer ht]
    rfl
  have hagain : peek (r.follow ahead) = .ok t ((r.follow ahead).follow ahead) := peek_buffered rfl
  rcases body_concludes hform hargs (r := (r.follow ahead).follow ahead) rfl h with
    ⟨last, u, hu, hrest⟩
  refine ⟨last, u, (nextLine_eq_ok_iff hfirst hform.isEnd).mpr ?_, hrest⟩
  rw [show line _ = _ from run_bind_of_ok hagain _]
  generalize hl : t.lexeme = l at hform
  cases hform <;> exact hu

end

end Step

theorem Run.parse_of_concludes {file text : String} {state : State} {s : Statement}
    (h : Step.Concludes Step.nextLine (.start (.ofText text file) state (.empty 100 false))
      (some [s])) :
    ∃ r, Run.parse (.ofText text file) state = .ok () r ∧ r.statements = [s] ∧ r.state = state := by
  rcases h with ⟨last, u, hu, hlast, hdelivers, hstate⟩
  rcases (Reached.start.line hu).parse_ok hlast hdelivers with ⟨r, hr, hsame, hstatements⟩
  refine ⟨r, hr, ?_, hsame.trans hstate⟩
  rw [hstatements]
  rw [(Step.operates_nextLine.of_ok hu).statements]
  rfl

namespace Joined

theorem blank (h : Joined args cs) : Joined args (' ' :: cs) := by
  have hmore : ∀ {before : List Char}, Blanks before → Blanks (' ' :: before) :=
    fun hbefore => List.forall_mem_cons.mpr ⟨rfl, hbefore⟩
  cases h with
  | none hblanks => exact .none (hmore hblanks)
  | last hbefore hafter => exact .last (hmore hbefore) hafter
  | more hbefore hafter h => exact .more (hmore hbefore) hafter h

theorem no_return (h : Joined args cs) (hplain : ∀ a ∈ args, PlainArgument a) : '\r' ∉ cs := by
  have hblanks : ∀ {bs : List Char}, Blanks bs → '\r' ∉ bs :=
    fun hbs hmem => absurd (hbs _ hmem) (by decide)
  have hargs : ∀ a ∈ args, '\r' ∉ a.toList :=
    fun a ha hmem => ((hplain a ha).plain.chars _ hmem).2.1 rfl
  clear hplain
  induction h with
  | none h => exact hblanks h
  | last hbefore hafter => simp [hblanks hbefore, hblanks hafter, hargs]
  | more hbefore hafter _ ih =>
    simp [hblanks hbefore, hblanks hafter, hargs,
      ih fun a ha => hargs a (List.mem_cons_of_mem _ ha)]

theorem first (h : Joined args cs) : ∃ (a : String) (before after tail : List Char),
    cs = before ++ (a.toList ++ (after ++ tail)) ∧ Blanks before ∧ Blanks after ∧
      (tail = [] ∨ tail.head? = some ',') ∧ (a = "" ∨ a ∈ args.head?) := by
  cases h with
  | none hblanks =>
    exact ⟨"", _, [], [], by simp, hblanks, List.forall_mem_nil _, .inl rfl, .inl rfl⟩
  | last hbefore hafter => exact ⟨_, _, _, [], by simp, hbefore, hafter, .inl rfl, .inr rfl⟩
  | @more _ _ _ _ _ cs hbefore hafter =>
    exact ⟨_, _, _, ',' :: cs, by simp, hbefore, hafter, .inr rfl, .inr rfl⟩

/-- Arguments that start no definition leave the name a call. -/
theorem not_declares (h : Joined args cs) (hplain : ∀ a ∈ args, PlainArgument a)
    (hfirst : ∀ a ∈ args.head?, a.toList.head? ≠ some '=' ∧
      definesName (lowerName (a.toList.takeWhile isNameChar)) = false) :
        declares (' ' :: cs) = false := by
  rcases h.first with ⟨a, before, after, tail, rfl, hbefore, hafter, htail, ha⟩
  have hblanks : ∀ {bs : List Char}, Blanks bs → ∀ cs,
      declares (' ' :: (bs ++ cs)) = declares (' ' :: cs) := fun {bs} hbs cs =>
    declares_blanks (List.cons_ne_nil ' ' bs) (List.forall_mem_cons.mpr ⟨rfl, hbs⟩) cs
  rw [hblanks hbefore]
  by_cases hempty : a = ""
  · subst hempty
    rw [show "".toList = [] from rfl, List.nil_append, hblanks hafter]
    rcases htail with rfl | htail
    · rfl
    · rcases List.head?_eq_some_iff.mp htail with ⟨rest, rfl⟩
      exact declares_blank_cons rfl (by decide)
  · have hhead := ha.resolve_left hempty
    rcases hfirst a hhead with ⟨hequals, hword⟩
    rcases (hplain a (List.mem_of_mem_head? hhead)).head hempty with ⟨ch, chs, hchs, hblank, _⟩
    have hstop : (after ++ tail).takeWhile isNameChar = [] := by
      cases after with
      | cons b after =>
        rw [List.cons_append,
          List.takeWhile_cons_of_neg (by simp [isNameChar_of_isBlank (hafter b (by simp))])]
      | nil =>
        rcases htail with rfl | htail
        · rfl
        · rcases List.head?_eq_some_iff.mp htail with ⟨rest, rfl⟩
          rfl
    have htake : (a.toList ++ (after ++ tail)).takeWhile isNameChar =
        a.toList.takeWhile isNameChar := by
      rw [List.takeWhile_append, hstop, List.append_nil]
      split
      · next hall => exact ((List.takeWhile_prefix isNameChar).eq_of_length hall).symm
      · rfl
    rw [hchs] at htake hequals hword ⊢
    rw [List.cons_append, declares_blank_cons hblank fun h => hequals (by rw [h]; rfl),
      ← List.cons_append, htake, hword]

end Joined

/-- A word and its arguments are read back as a line. -/
theorem Run.parse_arguments {word text : String} {l : Lexeme} {form : List String → Form}
    (hstart : headIs isNameStart word.toList = true)
    (hchars : ∀ c ∈ word.toList, isNameChar c = true)
    (hscan : scan (word.toList ++ ' ' :: text.toList) = .lexeme l word.toList.length)
    (hform : Step.TakesArguments l form) (hjoined : Joined args text.toList)
    (hplain : ∀ a ∈ args, PlainArgument a) (hargs : args ≠ [""]) (file : String) (state : State) :
    ∃ r, Run.parse (.ofText (word ++ " " ++ text) file) state = .ok () r ∧
      r.statements = [⟨⟨file, 1, 1⟩, form args⟩] ∧ r.state = state := by
  have hreturn : '\r' ∉ word.toList ++ ' ' :: text.toList := by
    intro hmem
    rcases List.mem_append.mp hmem with hmem | hmem
    · exact (ne_lineEnd_of_isNameChar (hchars _ hmem)).2 rfl
    · exact hjoined.blank.no_return hplain hmem
  have htext : (Source.ofText (word ++ " " ++ text) file).text =
      word.toList ++ ' ' :: text.toList := by
    rw [← uniformLineEnds_eq_self hreturn]
    simp [Source.ofText]
  let r := Run.start (.ofText (word ++ " " ++ text) file) state (.empty 100 false)
  have ht : r.stream.cursor.next r.stream.source r.stream.register.commit.current =
      .ok (r.stream.cursor.token .normal l, r.stream.cursor.skip word.toList.length) := by
    rcases headIs_iff.mp hstart with ⟨ch, chs, hchs, hch⟩
    rw [hchs] at hscan htext ⊢
    refine Cursor.normalToken_lexeme _ htext (startsLexeme_of_isNameStart hch) ?_ hscan
    rintro _ rfl
    cases hch
  have hrest : (r.stream.cursor.skip word.toList.length).rest = ' ' :: text.toList := by
    rw [Cursor.rest_skip, show r.stream.cursor.rest = _ from htext, List.drop_left]
  exact parse_of_concludes (Step.nextLine_concludes hform hargs (r := r) rfl ht
    (Cursor.yieldsRaw_joined hjoined.blank hplain hrest))

/-- Plain arguments that are joined by commas, but for a single empty one, are read back: behind
`opt` as the arguments of the option, and behind the name of a macro as those of a call, if the
first of them does not make the line a definition of the name. -/
theorem Run.arguments_roundtrip {args : List String} {text : String}
    (hjoined : Joined args text.toList) (hplain : ∀ a ∈ args, PlainArgument a) (hargs : args ≠ [""])
    (file : String) (state : State) :
    (∃ r, Run.parse (.ofText ("opt " ++ text) file) state = .ok () r ∧
      r.statements = [⟨⟨file, 1, 1⟩, .directive .option (args.map .word)⟩] ∧ r.state = state) ∧
    ∀ name, isGlobalName name = true →
      (∀ a ∈ args.head?, a.toList.head? ≠ some '=' ∧
        definesName (lowerName (a.toList.takeWhile isNameChar)) = false) →
      ∃ r, Run.parse (.ofText (name ++ " " ++ text) file) state = .ok () r ∧
        r.statements = [⟨⟨file, 1, 1⟩, .macroCall name args⟩] ∧ r.state = state := by
  constructor
  · have hscan : scan ("opt".toList ++ ' ' :: text.toList) =
        .lexeme (.keyword "opt") "opt".toList.length :=
      scan_word (by decide) (by simp [isNameChar]) rfl
    exact parse_arguments (by decide) (by simp [isNameChar]) hscan .option hjoined hplain hargs file
      state
  · intro name hname hfirst
    rcases parts_of_isGlobalName hname with ⟨hstart, hchars, hfree⟩
    have hscan : scan (name.toList ++ ' ' :: text.toList) = _ := scan_word hstart hchars rfl
    rw [hfree, if_neg (by simp), hjoined.not_declares hplain hfirst, if_neg (by simp)] at hscan
    exact parse_arguments hstart hchars hscan (.call name) hjoined hplain hargs file state

/-- Commas in brackets, a semicolon and a comma in quotes, and empty arguments in the middle and at
the end. -/
theorem Run.arguments_roundtrip_mixed :
    let args := ["f(a, (b))", "", "\"x; (y,\" z", ""]
    let text := " f(a, (b)) ,\t,\"x; (y,\" z, "
    (∃ r, Run.parse (.ofText ("opt " ++ text) "f.asm") (.fresh false) = .ok () r ∧
      r.statements = [⟨⟨"f.asm", 1, 1⟩, .directive .option (args.map .word)⟩] ∧
        r.state = .fresh false) ∧
    ∃ r, Run.parse (.ofText ("draw" ++ " " ++ text) "f.asm") (.fresh false) = .ok () r ∧
      r.statements = [⟨⟨"f.asm", 1, 1⟩, .macroCall "draw" args⟩] ∧ r.state = .fresh false := by
  intro args text
  have htext : text.toList = [' '] ++ "f(a, (b))".toList ++ [' '] ++ ',' ::
    (['\t'] ++ "".toList ++ [] ++
      ',' :: ([] ++ "\"x; (y,\" z".toList ++ [] ++ ',' :: ([' '] ++ "".toList ++ []))) := by
    decide +kernel
  have hjoined : Joined args text.toList := by
    rw [htext]
    have hnone : Blanks [] := List.forall_mem_nil _
    have hone : Blanks [' '] := List.forall_mem_singleton.mpr rfl
    exact .more hone hone
      (.more (List.forall_mem_singleton.mpr rfl) hnone (.more hnone hnone (.last hone hnone)))
  have hplain : ∀ a ∈ args, PlainArgument a := by decide +kernel
  have hboth := arguments_roundtrip hjoined hplain (by decide) "f.asm" (.fresh false)
  exact ⟨hboth.1, hboth.2 "draw" (by decide) (by decide +kernel)⟩

end Sm83
