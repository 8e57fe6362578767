import Sm83.Proofs.Token.Delivery
import Sm83.Proofs.Token.Extension

/-!
# Texts and the lexemes they spell

A text that is put together from spelled lexemes and blanks is read back as those lexemes, as long
as each lexeme is found again with what follows it. `Lexes` is such a text with its lexemes. What
can follow a number or a name without becoming part of it is said by `Closes`.
-/

namespace Sm83

open Cursor

variable {c : Char} {cs rest : List Char} {l : Lexeme} {ls : List Lexeme} {n : Nat}

/-! ## Spelled texts -/

/-- A character that starts no gap, whatever stands before it on its line; an asterisk starts none
behind something else. -/
def startsLexeme (c : Char) : Bool :=
  !(isBlank c || c = ';' || c = '\\')

/-- The text is made of blanks, of lexemes in their spelling, and of newlines, behind which no line
is a comment. Each lexeme is what is found where its spelling starts. -/
inductive Lexes : List Char → List Lexeme → Prop
  | nil : Lexes [] []
  | gap {b : Char} {cs : List Char} {ls : List Lexeme} (hb : isBlank b = true) (h : Lexes cs ls) :
      Lexes (b :: cs) ls
  | newline {cs : List Char} {ls : List Lexeme} (hfirst : (cs.dropWhile isBlank).head? ≠ some '*')
      (h : Lexes cs ls) : Lexes ('\n' :: cs) (.newline :: ls)
  | lexeme {c : Char} {cs rest : List Char} {l : Lexeme} {ls : List Lexeme}
      (hstart : startsLexeme c = true) (hline : ∀ d ∈ c :: cs, d ≠ '\n' ∧ d ≠ '\r') (hl : l ≠ .eof)
      (hscan : scan (c :: cs ++ rest) = .lexeme l (cs.length + 1)) (h : Lexes rest ls) :
      Lexes (c :: cs ++ rest) (l :: ls)

theorem Lexes.blank (h : Lexes cs ls) : Lexes (' ' :: cs) ls :=
  .gap rfl h

theorem uniformLineEnds_eq_self (h : '\r' ∉ cs) : uniformLineEnds cs = cs := by
  fun_induction uniformLineEnds cs with
  | case1 => simp at h
  | case2 => simp at h
  | case3 c rest _ _ ih => rw [ih (fun hmem => h (List.mem_cons_of_mem _ hmem))]
  | case4 => rfl

theorem uniformLineEnds_append (h : '\r' ∉ cs) (rest : List Char) :
    uniformLineEnds (cs ++ '\n' :: rest) = cs ++ '\n' :: uniformLineEnds rest := by
  induction cs with
  | nil => simp [uniformLineEnds]
  | cons c cs ih =>
    have hc : c ≠ '\r' := fun hc => h (hc ▸ List.mem_cons_self)
    have hcs := ih fun hmem => h (List.mem_cons_of_mem _ hmem)
    simp [uniformLineEnds, hc, hcs]

namespace Cursor

variable {c : Cursor} {source : Source}

theorem skip_within (hc : c.rest = cs ++ rest) (hline : '\n' ∉ cs) :
    c.skip cs.length = ⟨rest, c.line, c.column + cs.length, c.fresh && cs.all isBlank⟩ := by
  induction cs generalizing c with
  | nil =>
    cases c
    simp_all [skip]
  | cons ch cs ih =>
    rw [List.mem_cons, not_or] at hline
    have hstep : c.step = ⟨cs ++ rest, c.line, c.column + 1, c.fresh && isBlank ch⟩ := by
      simp [step, hc, Ne.symm hline.1]
    rw [List.length_cons, skip, hstep, ih rfl hline.2, List.all_cons, Bool.and_assoc, Nat.add_assoc,
      Nat.add_comm 1]

theorem pass_zero (c : Cursor) : c.pass 0 = c := by
  simp [pass, skip]

theorem normalToken_end (hc : c.rest = []) :
    c.normalToken source = .ok (c.token .normal .eof, c) := by
  have hgap : gap 0 c.fresh [] = ⟨0, false⟩ := by simp [gap]
  simp only [normalToken, hc, hgap, pass_zero]
  rfl

theorem step_blank {b : Char} (hb : isBlank b = true) (hc : c.rest = b :: cs) :
    c.step = ⟨cs, c.line, c.column + 1, c.fresh⟩ := by
  have hline : b ≠ '\n' := by
    rintro rfl
    cases hb
  simp [step, hc, hb, hline]

theorem normalToken_blank {b : Char} (hb : isBlank b = true) (hc : c.rest = b :: cs) :
    c.normalToken source = c.step.normalToken source := by
  have hstep : c.step = ⟨cs, c.line, c.column + 1, c.fresh⟩ := step_blank hb hc
  have hgap : gap 0 c.fresh (b :: cs) = (gap 0 c.fresh cs).succ := by rw [gap, if_pos hb]
  have hpass : ∀ n, c.pass (n + 1) = c.step.pass n := by
    intro n
    simp [pass, skip, hc, hstep, hb]
  simp only [normalToken, hc, hgap, Gap.succ, hpass]
  rw [hstep]

theorem gap_of_startsLexeme {ch : Char} {fresh : Bool} (hstart : startsLexeme ch = true)
    (hfresh : fresh = true → ch ≠ '*') : gap 0 fresh (ch :: cs) = ⟨0, false⟩ := by
  simp only [startsLexeme, Bool.not_eq_true', Bool.or_eq_false_iff, decide_eq_false_iff_not]
    at hstart
  obtain ⟨⟨hblank, hcomment⟩, hslash⟩ := hstart
  have hstar : (ch = '*' && fresh) = false := by
    cases fresh with
    | true => simp [hfresh rfl]
    | false => simp
  simp [gap, hblank, hcomment, hslash, hstar]

theorem normalToken_lexeme (source : Source) {ch : Char} (hc : c.rest = ch :: cs)
    (hstart : startsLexeme ch = true) (hfresh : c.fresh = true → ch ≠ '*')
    (hscan : scan (ch :: cs) = .lexeme l n) :
    c.normalToken source = .ok (c.token .normal l, c.skip n) := by
  simp only [normalToken, hc, gap_of_startsLexeme hstart hfresh, pass_zero, hscan]
  rfl

theorem normalToken_numeral (source : Source) {ch : Char} (hc : c.rest = ch :: cs)
    (hstart : startsLexeme ch = true) (hfresh : c.fresh = true → ch ≠ '*') {f : NumeralFault}
    (hscan : scan (ch :: cs) = .numeral f) : c.normalToken source = .error (.numeral f) := by
  simp only [normalToken, hc, gap_of_startsLexeme hstart hfresh, pass_zero, hscan]
  rfl

theorem Yields.of_next {setting : Setting} {c' : Cursor} {ts : List Token}
    (hnext : c.next source setting = c'.next source setting) (h : c'.Yields source setting ts) :
    c.Yields source setting ts := by
  cases h with
  | last h ht => exact .last (hnext.trans h) ht
  | more h ht hts => exact .more (hnext.trans h) ht hts

theorem Yields.normalTokens {ts : List Token} (h : c.Yields source .normal ts)
    (hn : ts.length ≤ n) : normalTokens source n c = (ts, none) := by
  induction h generalizing n with
  | last hnext ht =>
    obtain ⟨n, rfl⟩ := Nat.exists_eq_add_of_le' hn
    have hnext : normalToken _ source = _ := hnext
    simp [normalTokens, hnext, ht]
  | more hnext ht _ ih =>
    rw [List.length_cons] at hn
    obtain ⟨n, rfl⟩ := Nat.exists_eq_add_of_le' (Nat.le_of_add_left_le hn)
    have hnext : normalToken _ source = _ := hnext
    simp [normalTokens, hnext, ht, ih (Nat.le_of_add_le_add_right hn)]

end Cursor

namespace Lexes

/-- The tokens of a spelled text. -/
theorem yields (h : Lexes cs ls) (source : Source) {c : Cursor} (hc : c.rest = cs)
    (hfresh : c.fresh = true → (cs.dropWhile isBlank).head? ≠ some '*') :
    ∃ ts t, c.Yields source .normal (ts ++ [t]) ∧ ts.map Token.lexeme = ls ∧ t.lexeme = .eof := by
  induction h generalizing c with
  | nil => exact ⟨[], _, .last (normalToken_end hc) rfl, rfl, rfl⟩
  | @gap b cs ls hb h ih =>
    have hstep := step_blank hb hc
    rw [List.dropWhile_cons_of_pos hb] at hfresh
    obtain ⟨ts, t, hyields, hts, ht⟩ :=
      ih (c := c.step) (by rw [hstep]) (by rw [hstep]; exact hfresh)
    exact ⟨ts, t, hyields.of_next (normalToken_blank hb hc), hts, ht⟩
  | @newline cs ls hfirst h ih =>
    have hnext : c.next source .normal = .ok (c.token .normal .newline, c.skip 1) :=
      normalToken_lexeme _ hc rfl (fun _ => by decide) rfl
    obtain ⟨ts, t, hyields, hts, ht⟩ := ih (c := c.skip 1) (by simp [hc]) fun _ => hfirst
    exact ⟨c.token .normal .newline :: ts, t,
      .more hnext rfl hyields, by rw [List.map_cons, hts]; rfl, ht⟩
  | @lexeme ch cs rest l ls hstart hline hl hscan h ih =>
    have hblank : isBlank ch = false := by
      simp only [startsLexeme, Bool.not_eq_true', Bool.or_eq_false_iff] at hstart
      exact hstart.1.1
    have hstar : c.fresh = true → ch ≠ '*' := by
      intro hf hch
      exact hfresh hf (by simp [hch, isBlank])
    have hnext : c.next source .normal = .ok (c.token .normal l, c.skip (cs.length + 1)) :=
      normalToken_lexeme _ hc hstart hstar hscan
    -- past a lexeme the line is not fresh any more, so an asterisk may come next
    have hused : (c.skip (cs.length + 1)).fresh = false := by
      rw [← List.length_cons (a := ch), skip_within hc fun hmem => (hline _ hmem).1 rfl]
      simp [hblank]
    obtain ⟨ts, t, hyields, hts, ht⟩ := ih (c := c.skip (cs.length + 1)) (by simp [hc])
      (by simp [hused])
    refine ⟨c.token .normal l :: ts, t, .more hnext ?_ hyields, by rw [List.map_cons, hts]; rfl, ht⟩
    simpa [Token.isEnd, token] using hl

theorem ne_carriageReturn (h : Lexes cs ls) : '\r' ∉ cs := by
  induction h with
  | nil => simp
  | gap hb _ ih =>
    rw [List.mem_cons, not_or]
    refine ⟨?_, ih⟩
    rintro rfl
    cases hb
  | newline _ _ ih => simpa using ih
  | lexeme _ hline _ _ _ ih =>
    intro hmem
    rcases List.mem_append.mp hmem with hmem | hmem
    · exact (hline _ hmem).2 rfl
    · exact ih hmem

/-- The tokens of a source that is such a text. -/
theorem tokens {text : String} (h : Lexes text.toList ls) (file : String)
    (hfirst : (text.toList.dropWhile isBlank).head? ≠ some '*') :
    ∃ ts t, (Source.ofText text file).tokens = (ts ++ [t], none) ∧ ts.map Token.lexeme = ls ∧
      t.lexeme = .eof := by
  have htext : (Source.ofText text file).text = text.toList :=
    uniformLineEnds_eq_self h.ne_carriageReturn
  obtain ⟨ts, t, hyields, hts, ht⟩ := h.yields (Source.ofText text file)
    (c := start text.toList) rfl fun _ => hfirst
  refine ⟨ts, t, ?_, hts, ht⟩
  rw [Source.tokens, htext]
  exact hyields.normalTokens hyields.length_le

end Lexes

theorem Lexes.single (hstart : startsLexeme c = true) (hline : c ≠ '\n' ∧ c ≠ '\r') (hl : l ≠ .eof)
    (hscan : scan (c :: rest) = .lexeme l 1) (h : Lexes rest ls) : Lexes (c :: rest) (l :: ls) := by
  have hline : ∀ d ∈ [c], d ≠ '\n' ∧ d ≠ '\r' := by simpa using hline
  exact .lexeme hstart hline hl hscan h

/-! ## What ends a lexeme -/

theorem takeWhile_append_eq {p : Char → Bool} (hcs : ∀ c ∈ cs, p c = true)
    (hrest : headIs p rest = false) : (cs ++ rest).takeWhile p = cs := by
  rw [List.takeWhile_append_of_pos hcs]
  cases rest with
  | nil => simp
  | cons c rest =>
    have hc : p c = false := by simpa [headIs] using hrest
    simp [hc]

/-- Behind a number or a name: the end, a blank, a closing bracket or a comma, and nothing that
would declare the name. -/
structure Closes (rest : List Char) : Prop where
  head : ∀ c ∈ rest.head?, c ∈ [' ', ')', ']', ',']
  undeclared : declares rest = false

namespace Closes

theorem nil : Closes [] :=
  ⟨by simp, rfl⟩

theorem cons {c : Char} (hc : c ∈ [')', ']', ',']) (rest : List Char) : Closes (c :: rest) := by
  simp only [List.mem_cons, List.not_mem_nil, or_false] at hc
  rcases hc with rfl | rfl | rfl <;> exact ⟨by simp, rfl⟩

theorem headIs_eq_false (h : Closes rest) {p : Char → Bool}
    (hp : [' ', ')', ']', ','].any p = false) : headIs p rest = false := by
  cases rest with
  | nil => rfl
  | cons c rest => simpa [headIs] using List.any_eq_false.mp hp c (h.head c rfl)

end Closes

/-! ## Delimiters -/

theorem Lexes.delimiter (p : Punct)
    (hp : p ∈ [.leftParen, .rightParen, .leftBracket, .rightBracket, .comma]) (h : Lexes rest ls) :
    Lexes (p.text.toList ++ rest) (.punct p :: ls) := by
  simp only [List.mem_cons, List.not_mem_nil, or_false] at hp
  rcases hp with rfl | rfl | rfl | rfl | rfl <;>
    exact .single (by decide) (by decide) (by simp) rfl h

theorem Lexes.punct (p : Punct) (h : Lexes (' ' :: rest) ls) :
    Lexes (p.text.toList ++ ' ' :: rest) (.punct p :: ls) := by
  have hall : (p.text.toList.all fun d => d ≠ '\n' ∧ d ≠ '\r') = true := by cases p <;> decide
  have hline : ∀ d ∈ p.text.toList, d ≠ '\n' ∧ d ≠ '\r' := by simpa using hall
  cases p <;> exact .lexeme (by decide) hline (by simp) rfl h

theorem Lexes.bang (hrest : headIs (· = '=') rest = false) (h : Lexes rest ls) :
    Lexes ('!' :: rest) (.punct .bang :: ls) := by
  refine .single (by decide) (by decide) (by simp) ?_ h
  cases rest with
  | nil => rfl
  | cons c rest =>
    have hc : c ≠ '=' := by simpa [headIs] using hrest
    have hpunct : scanPunct ('!' :: c :: rest) = some (.bang, 1) := by
      simp [scanPunct, pairPunct?, charPunct?, hc]
    rw [scan, hpunct]
    rfl

/-! ## Names and reserved words -/

theorem isNameChar_lt (h : isNameChar c = true) : c.toNat < 128 := by
  have hbelow : ∀ high : UInt32, high < 128 → c.val ≤ high → c.toNat < 128 := fun high hhigh hc =>
    UInt32.lt_iff_toNat_lt.mp (UInt32.lt_of_le_of_lt hc hhigh)
  simp only [isNameChar, Bool.or_eq_true, decide_eq_true_eq, or_assoc] at h
  rcases h with h | rfl | rfl | rfl | rfl
  · rcases Bool.or_eq_true_iff.mp h with halpha | hdigit
    · rcases Bool.or_eq_true_iff.mp halpha with hupper | hlower
      · exact hbelow 'Z'.val (by decide) (of_decide_eq_true hupper).2
      · exact hbelow 'z'.val (by decide) (of_decide_eq_true (Bool.and_eq_true_iff.mp hlower).2)
    · exact hbelow '9'.val (by decide) (of_decide_eq_true (Bool.and_eq_true_iff.mp hdigit).2)
  all_goals decide

theorem lower_eq_lowerName {s : String} (h : ∀ c ∈ s.toList, isNameChar c = true) :
    Text.lower s = lowerName s.toList := by
  have hafter : ∀ before cs : List Char, (∀ c ∈ cs, isNameChar c = true) →
      Text.lowerAfter before cs = cs.map Char.toLower := by
    intro before cs hcs
    induction cs generalizing before with
    | nil => rfl
    | cons c cs ih =>
      have hc := isNameChar_lt (hcs c (by simp))
      have hsigma : c ≠ 'Σ' := by
        rintro rfl
        exact absurd hc (by decide)
      rw [Text.lowerAfter, ih _ fun d hd => hcs d (List.mem_cons_of_mem _ hd)]
      simp [hsigma, Text.lowerImage, hc]
  rw [Text.lower, hafter [] _ h, lowerName]

/-- The spelling of a global name. -/
def isGlobalName (name : String) : Bool :=
  headIs isNameStart name.toList && name.toList.all isNameChar && !Keyword.isKeyword name

theorem parts_of_isGlobalName {name : String} (h : isGlobalName name = true) :
    headIs isNameStart name.toList = true ∧ (∀ c ∈ name.toList, isNameChar c = true) ∧
      Keyword.isReserved (lowerName name.toList) = false := by
  simp only [isGlobalName, Bool.and_eq_true, List.all_eq_true, Bool.not_eq_true'] at h
  rcases h with ⟨⟨hstart, hchars⟩, hkeyword⟩
  rw [Keyword.isKeyword, lower_eq_lowerName hchars] at hkeyword
  exact ⟨hstart, hchars, hkeyword⟩

theorem startsLexeme_of_isNameStart (h : isNameStart c = true) : startsLexeme c = true := by
  simp only [startsLexeme, isBlank, Bool.not_eq_true', Bool.or_eq_false_iff,
    decide_eq_false_iff_not]
  refine ⟨⟨⟨?_, ?_⟩, ?_⟩, ?_⟩ <;>
    · rintro rfl
      cases h

theorem isBlank_of_isNameStart (h : isNameStart c = true) : isBlank c = false := by
  rw [Bool.eq_false_iff]
  intro hblank
  have hlexeme := startsLexeme_of_isNameStart h
  simp [startsLexeme, hblank] at hlexeme

theorem ne_lineEnd_of_isNameChar (h : isNameChar c = true) : c ≠ '\n' ∧ c ≠ '\r' := by
  constructor <;>
    · rintro rfl
      cases h

theorem scan_word {name : String} (hstart : headIs isNameStart name.toList = true)
    (hchars : ∀ c ∈ name.toList, isNameChar c = true) (hrest : headIs isNameChar rest = false) :
    scan (name.toList ++ rest) = .lexeme
      (if Keyword.isReserved (lowerName name.toList) then .keyword (lowerName name.toList)
        else if declares rest then .label name else .name name) name.toList.length := by
  rcases headIs_iff.mp hstart with ⟨c, cs, hcs, hc⟩
  have hline : c ≠ '\n' := (ne_lineEnd_of_isNameChar (isNameChar_of_isNameStart hc)).1
  have hscan : scan (name.toList ++ rest) = scanName (name.toList ++ rest) := by
    rw [hcs, List.cons_append, scan, if_neg hline, if_pos hc]
  have hspelled : (name.toList ++ rest).takeWhile isNameChar = name.toList :=
    takeWhile_append_eq hchars hrest
  have hglobal : ((name.toList ++ rest).head? == some '.') = false := by
    have hdot : c ≠ '.' := by
      rintro rfl
      cases hc
    simpa [hcs] using hdot
  rw [hscan]
  simp only [scanName, hspelled, hglobal, List.drop_left, String.ofList_toList]
  cases Keyword.isReserved (lowerName name.toList) <;> cases declares rest <;> simp

theorem Cursor.next_word (source : Source) {name : String} {c : Cursor}
    (hc : c.rest = name.toList ++ rest) (hstart : headIs isNameStart name.toList = true)
    (hchars : ∀ c ∈ name.toList, isNameChar c = true) (hrest : headIs isNameChar rest = false) :
    ∃ c', c.next source .normal = .ok (c.token .normal
        (if Keyword.isReserved (lowerName name.toList) then .keyword (lowerName name.toList)
          else if declares rest then .label name else .name name), c') ∧
      c'.rest = rest ∧ c'.fresh = false := by
  have hscan := scan_word hstart hchars hrest
  have hline : '\n' ∉ name.toList := fun hmem => (ne_lineEnd_of_isNameChar (hchars _ hmem)).1 rfl
  rcases headIs_iff.mp hstart with ⟨ch, cs, hcs, hch⟩
  have hskip := skip_within hc hline
  have hblank : name.toList.all isBlank = false := by simp [hcs, isBlank_of_isNameStart hch]
  refine ⟨c.skip name.toList.length, ?_, by rw [hskip], by simp [hskip, hblank]⟩
  rw [hcs] at hc hscan
  exact normalToken_lexeme source hc (startsLexeme_of_isNameStart hch)
    (fun _ => by rintro rfl; cases hch) (by rw [hcs]; exact hscan)

theorem Lexes.word {name : String} (hstart : headIs isNameStart name.toList = true)
    (hchars : ∀ c ∈ name.toList, isNameChar c = true) (hl : l ≠ .eof)
    (hscan : scan (name.toList ++ rest) = .lexeme l name.toList.length) (h : Lexes rest ls) :
    Lexes (name.toList ++ rest) (l :: ls) := by
  rcases headIs_iff.mp hstart with ⟨c, cs, hcs, hc⟩
  rw [hcs] at hchars hscan ⊢
  refine .lexeme (startsLexeme_of_isNameStart hc) ?_ hl hscan h
  intro d hd
  exact ne_lineEnd_of_isNameChar (hchars d hd)

theorem Lexes.name {name : String} (hname : isGlobalName name = true) (hrest : Closes rest)
    (h : Lexes rest ls) : Lexes (name.toList ++ rest) (.name name :: ls) := by
  rcases parts_of_isGlobalName hname with ⟨hstart, hchars, hfree⟩
  refine .word hstart hchars (by simp) ?_ h
  rw [scan_word hstart hchars (hrest.headIs_eq_false (by decide)), hfree, hrest.undeclared]
  rfl

/-- The word is reserved, and spelled in the lower case in which it is found. -/
structure Reserved (w : String) : Prop where
  start : headIs isNameStart w.toList = true
  chars : ∀ c ∈ w.toList, isNameChar c = true
  lower : lowerName w.toList = w
  reserved : Keyword.isReserved w = true

theorem Reserved.of_mem {w : String} (hw : w ∈ Keyword.all) : Reserved w := by
  have hspelled : Keyword.all.all fun w => headIs isNameStart w.toList &&
      w.toList.all fun c => isNameChar c && c.toLower == c := by decide +kernel
  have hword := List.all_eq_true.mp hspelled w hw
  simp only [Bool.and_eq_true, List.all_eq_true, beq_iff_eq] at hword
  obtain ⟨hstart, hchars⟩ := hword
  refine ⟨hstart, fun c hc => (hchars c hc).1, ?_, List.contains_iff_mem.mpr hw⟩
  rw [lowerName, List.map_congr_left fun c hc => (hchars c hc).2, List.map_id',
    String.ofList_toList]

theorem Lexes.keyword {w : String} (hw : Reserved w) (hrest : headIs isNameChar rest = false)
    (h : Lexes rest ls) : Lexes (w.toList ++ rest) (.keyword w :: ls) := by
  refine .word hw.start hw.chars (by simp) ?_ h
  rw [scan_word hw.start hw.chars hrest, hw.lower, hw.reserved]
  rfl

/-! ## Numbers -/

theorem scanned_eq (hn : n < 0x80000000) (length : Nat) :
    scanned n length = .lexeme (.number n) length := by
  have hfits : n < Word.modulus := Nat.lt_trans hn (by decide)
  rw [scanned, if_pos hfits, Word.wrap_eq_self (by omega) (by omega)]

theorem scan_digitChar (hn : n < 10) (rest : List Char) :
    scan (n.digitChar :: rest) = scanDecimal (n.digitChar :: rest) := by
  have hplain : ∀ n < 10, n.digitChar ≠ '\n' ∧ isNameStart n.digitChar = false ∧
      n.digitChar ≠ '.' ∧ Text.isDigit n.digitChar = true := by decide
  obtain ⟨hline, hname, hdot, hdigit⟩ := hplain n hn
  rw [scan, if_neg hline, if_neg (by simp [hname]), if_neg hdot, if_pos hdigit]

theorem Lexes.digit (hn : n < 10) (hrest : Closes rest) (h : Lexes rest ls) :
    Lexes (n.digitChar :: rest) (.number n :: ls) := by
  have hdigit : ∀ n < 10, startsLexeme n.digitChar = true ∧ n.digitChar ≠ '\n' ∧
      n.digitChar ≠ '\r' ∧ Text.isDigit n.digitChar = true ∧
      Text.natural? 10 ([n.digitChar].map Text.numeralChar) = some n := by decide
  obtain ⟨hstart, hnewline, hreturn, hisDigit, hvalue⟩ := hdigit n hn
  have hwhole : ([n.digitChar] ++ rest).takeWhile Text.isDigit = [n.digitChar] :=
    takeWhile_append_eq (by simpa using hisDigit) (hrest.headIs_eq_false (by decide))
  have hdot : headIs (· = '.') rest = false := hrest.headIs_eq_false (by decide)
  refine .single hstart ⟨hnewline, hreturn⟩ (by simp) ?_ h
  rw [List.singleton_append] at hwhole
  rw [scan_digitChar hn]
  simp only [scanDecimal, hwhole, hvalue, scanned_eq (Nat.lt_trans hn (by decide)),
    List.length_singleton, List.drop_succ_cons, List.drop_zero]
  split
  · simp [headIs] at hdot
  · rfl

theorem forall_mem_toDigits {P : Char → Prop} (h : ∀ d < 16, P d.digitChar) (n : Nat) :
    ∀ c ∈ Nat.toDigits 16 n, P c := by
  induction n using Nat.strongRecOn with
  | ind n ih =>
    rw [Nat.toDigits_eq_if (by decide)]
    split
    · next hlt => simpa using h n hlt
    · next hle =>
      intro c hc
      rcases List.mem_append.mp hc with hc | hc
      · exact ih (n / 16) (by omega) c hc
      · rw [List.mem_singleton.mp hc]
        exact h (n % 16) (by omega)

theorem digitsValue_concat (base : Nat) (cs : List Char) (c : Char) :
    digitsValue base (cs ++ [c]) = base * digitsValue base cs + digitsValue base [c] := by
  simp [digitsValue, List.foldl_append]

theorem digitsValue_hex (n : Nat) : digitsValue 16 ((Nat.toDigits 16 n).map Char.toUpper) = n := by
  have hdigit : ∀ d < 16, digitsValue 16 [d.digitChar.toUpper] = d := by decide
  induction n using Nat.strongRecOn with
  | ind n ih =>
    rw [Nat.toDigits_eq_if (by decide)]
    split
    · next hlt => exact hdigit n hlt
    · next hle =>
      rw [List.map_append, List.map_singleton, digitsValue_concat, ih (n / 16) (by omega),
        hdigit (n % 16) (by omega)]
      omega

theorem scan_dollar (rest : List Char) : scan ('$' :: rest) = scanRadix 16 rest := by
  rfl

theorem Lexes.hex (hn : n < 0x80000000) (hrest : Closes rest) (h : Lexes rest ls) :
    Lexes ('$' :: (Text.hex 1 n).toList ++ rest) (.number n :: ls) := by
  have hpositive : 1 ≤ (Nat.toDigits 16 n).length := Nat.length_toDigits_pos
  have hdigits : (Text.hex 1 n).toList = (Nat.toDigits 16 n).map Char.toUpper := by
    simp [Text.hex, Text.padDigits, Nat.sub_eq_zero_of_le hpositive]
  have hdigit : ∀ d < 16, isDigitOf 16 d.digitChar.toUpper = true ∧
      d.digitChar.toUpper ≠ '\n' ∧ d.digitChar.toUpper ≠ '\r' := by decide
  have hall : ∀ c ∈ (Nat.toDigits 16 n).map Char.toUpper,
      isDigitOf 16 c = true ∧ c ≠ '\n' ∧ c ≠ '\r' := by
    intro c hc
    obtain ⟨d, hd, rfl⟩ := List.mem_map.mp hc
    exact forall_mem_toDigits (P := fun c => isDigitOf 16 c.toUpper = true ∧ c.toUpper ≠ '\n' ∧
      c.toUpper ≠ '\r') hdigit n d hd
  rw [hdigits]
  refine .lexeme (by decide) ?_ (by simp) ?_ h
  · intro c hc
    rcases List.mem_cons.mp hc with rfl | hc
    · decide
    · exact (hall c hc).2
  · have htaken := takeWhile_append_eq (fun c hc => (hall c hc).1)
      (hrest.headIs_eq_false (p := isDigitOf 16) (by decide))
    have hsome : ((Nat.toDigits 16 n).map Char.toUpper).isEmpty = false := by
      rw [List.isEmpty_eq_false_iff]
      simp
    rw [List.cons_append, scan_dollar]
    simp only [scanRadix, htaken, hsome, digitsValue_hex, scanned_eq hn, Nat.add_comm 1]
    rfl

/-! ## Strings -/

theorem scan_quote (rest : List Char) : scan ('"' :: rest) = scanString rest := by
  rfl

theorem stringBody_escaped {s : List Char} (hs : '\n' ∉ s) (rest : List Char) :
    stringBody (s.flatMap Expr.escapedChar ++ '"' :: rest) =
      .closed s ((s.flatMap Expr.escapedChar).length + 1) := by
  induction s with
  | nil => simp [stringBody]
  | cons c s ih =>
    rw [List.mem_cons, not_or] at hs
    have hread := ih hs.2
    by_cases hslash : c = '\\'
    · subst hslash
      simp [Expr.escapedChar, stringBody, escape?, hread, StringScan.cons]
    · by_cases hquote : c = '"'
      · subst hquote
        simp [Expr.escapedChar, stringBody, escape?, hread, StringScan.cons]
      · simp [Expr.escapedChar, hslash, hquote, stringBody, Ne.symm hs.1, hread, StringScan.cons]

theorem Lexes.string {s : String} (hs : ∀ c ∈ s.toList, c ≠ '\n' ∧ c ≠ '\r') (h : Lexes rest ls) :
    Lexes ((Expr.renderText s).toList ++ rest) (.string s :: ls) := by
  have htext : (Expr.renderText s).toList =
      '"' :: (s.toList.flatMap Expr.escapedChar ++ ['"']) := by
    simp [Expr.renderText]
  rw [htext]
  refine .lexeme (by decide) ?_ (by simp) ?_ h
  · have hescaped : ∀ c, ∀ d ∈ Expr.escapedChar c, d = '\\' ∨ d = c := by
      intro c d hd
      unfold Expr.escapedChar at hd
      split at hd <;> simp_all
    intro d hd
    simp only [List.mem_cons, List.mem_append, List.mem_flatMap, List.not_mem_nil, or_false] at hd
    rcases hd with rfl | ⟨c, hc, hd⟩ | rfl
    · decide
    · rcases hescaped c d hd with rfl | rfl
      · decide
      · exact hs d hc
    · decide
  · have hbody := stringBody_escaped (fun hmem => (hs _ hmem).1 rfl) rest
    rw [List.cons_append, scan_quote, List.append_assoc, List.singleton_append]
    simp only [scanString, hbody, String.ofList_toList, List.length_append, List.length_singleton,
      Nat.add_comm 1]

/-! ## Forms -/

/-- The form spells lexemes wherever it can end, and tokens with these lexemes have the property. -/
def Spelt (form : List Char) (P : List Token → Prop) : Prop :=
  ∃ ls, (∀ rest ms, Closes rest → Lexes rest ms → Lexes (form ++ rest) (ls ++ ms)) ∧
    ∀ ts, ts.map Token.lexeme = ls → P ts

namespace Spelt

variable {form : List Char} {P Q : List Token → Prop}

theorem imp (h : Spelt form P) (hPQ : ∀ ts, P ts → Q ts) : Spelt form Q := by
  obtain ⟨ls, hlexes, hP⟩ := h
  exact ⟨ls, hlexes, fun ts hts => hPQ ts (hP ts hts)⟩

theorem of_lexeme (hlexes : ∀ rest ms, Closes rest → Lexes rest ms → Lexes (form ++ rest) (l :: ms))
    (hP : ∀ t : Token, t.lexeme = l → P [t]) : Spelt form P := by
  refine ⟨[l], hlexes, ?_⟩
  intro ts hts
  obtain ⟨t, rfl, ht⟩ := List.map_eq_singleton_iff.mp hts
  exact hP t ht

theorem cons {lead : List Char}
    (hlead : ∀ rest ms, Lexes (form ++ rest) ms → Lexes (lead ++ (form ++ rest)) (l :: ms))
    (h : Spelt form P) (hPQ : ∀ t ts, t.lexeme = l → P ts → Q (t :: ts)) :
    Spelt (lead ++ form) Q := by
  obtain ⟨ls, hlexes, hP⟩ := h
  refine ⟨l :: ls, ?_, ?_⟩
  · intro rest ms hrest h
    rw [List.append_assoc]
    exact hlead rest _ (hlexes rest ms hrest h)
  · intro ts hts
    obtain ⟨t, us, rfl, ht, hus⟩ := List.map_eq_cons_iff.mp hts
    exact hPQ t us ht (hP us hus)

theorem append {form' : List Char} {R : List Token → Prop}
    (hform' : ∀ rest, Closes rest → Closes (form' ++ rest)) (h : Spelt form P) (h' : Spelt form' Q)
    (hR : ∀ ts us, P ts → Q us → R (ts ++ us)) : Spelt (form ++ form') R := by
  obtain ⟨ls, hlexes, hP⟩ := h
  obtain ⟨ls', hlexes', hQ⟩ := h'
  refine ⟨ls ++ ls', ?_, ?_⟩
  · intro rest ms hrest h
    rw [List.append_assoc, List.append_assoc]
    exact hlexes _ _ (hform' rest hrest) (hlexes' rest ms hrest h)
  · intro ts hts
    obtain ⟨xs, ys, rfl, hxs, hys⟩ := List.map_eq_append_iff.mp hts
    exact hR xs ys (hP xs hxs) (hQ ys hys)

theorem keyword {w : String} (hw : Reserved w) (hform : headIs isNameChar form = false)
    (hne : form ≠ []) (h : Spelt form P)
    (hPQ : ∀ t ts, t.lexeme = .keyword w → P ts → Q (t :: ts)) : Spelt (w.toList ++ form) Q := by
  refine h.cons ?_ hPQ
  intro rest ms h
  refine .keyword hw ?_ h
  cases form with
  | nil => exact absurd rfl hne
  | cons => exact hform

/-- The two kinds of brackets. -/
def bracketPairs : List (Punct × Punct) :=
  [(.leftParen, .rightParen), (.leftBracket, .rightBracket)]

theorem between (left right : Punct) (hpair : (left, right) ∈ bracketPairs) (h : Spelt form P)
    (hPQ : ∀ t ts u, t.lexeme = .punct left → P ts → u.lexeme = .punct right →
      Q (t :: (ts ++ [u]))) :
    Spelt (left.text.toList ++ (form ++ right.text.toList)) Q := by
  have hends : ∀ p ∈ bracketPairs, ∃ c ∈ [')', ']', ','], p.2.text.toList = [c] := by
    simp [bracketPairs, Punct.text]
  have hdelimiters : ∀ p ∈ bracketPairs,
      p.1 ∈ [Punct.leftParen, .rightParen, .leftBracket, .rightBracket, .comma] ∧
      p.2 ∈ [Punct.leftParen, .rightParen, .leftBracket, .rightBracket, .comma] := by decide
  obtain ⟨hleft, hright⟩ := hdelimiters _ hpair
  have hclosing : Spelt right.text.toList fun ts => ∃ u, ts = [u] ∧ u.lexeme = .punct right :=
    .of_lexeme (fun rest ms _ h => .delimiter right hright h) fun u hu => ⟨u, rfl, hu⟩
  have hinner := h.append (R := fun ts => ∃ us u, ts = us ++ [u] ∧ P us ∧ u.lexeme = .punct right)
    (fun rest _ => by obtain ⟨c, hc, htext⟩ := hends _ hpair; rw [htext]; exact .cons hc rest)
    hclosing fun ts us hts ⟨u, hus, hu⟩ => ⟨ts, u, by rw [hus], hts, hu⟩
  apply hinner.cons (fun rest ms h => .delimiter left hleft h)
  rintro t _ ht ⟨us, u, rfl, hus, hu⟩
  exact hPQ t us u ht hus hu

theorem tokens {text : String} (h : Spelt text.toList P) (file : String)
    (hfirst : (text.toList.dropWhile isBlank).head? ≠ some '*') :
    ∃ ts t, (Source.ofText text file).tokens = (ts ++ [t], none) ∧ P ts ∧ t.lexeme = .eof := by
  obtain ⟨ls, hlexes, hP⟩ := h
  have hspelled := hlexes [] [] .nil .nil
  rw [List.append_nil, List.append_nil] at hspelled
  obtain ⟨ts, t, htokens, hts, ht⟩ := hspelled.tokens file hfirst
  exact ⟨ts, t, htokens, hP ts hts, ht⟩

end Spelt

end Sm83
