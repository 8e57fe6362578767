import Mathlib.Algebra.GroupWithZero.Nat
import Mathlib.Data.List.TakeWhile
import Sm83.Proofs.Token.Progress

/-!
# Reading before a further line

What is read from a text stays the same when a newline and more text are put behind it, and it takes
no more characters than the text has. Nothing that reading looks for passes a newline but a
continuation, and a continuation is only looked for behind a backslash; so the text may have no
backslash on its last line.
-/

namespace Sm83

open Text

/-- No backslash stands on the last line. -/
def EndsPlain (cs : List Char) : Prop :=
  ∀ before after, cs = before ++ '\\' :: after → '\n' ∈ after

variable {c : Char}

namespace EndsPlain

variable {cs : List Char}

theorem of_append {before : List Char} (h : EndsPlain (before ++ cs)) : EndsPlain cs := by
  rintro front after rfl
  exact h (before ++ front) after (by simp)

theorem tail (h : EndsPlain (c :: cs)) : EndsPlain cs := by
  rw [← List.singleton_append] at h
  exact h.of_append

theorem newline_mem (h : EndsPlain ('\\' :: cs)) : '\n' ∈ cs :=
  h [] cs rfl

end EndsPlain

/-! ## Runs of characters -/

/-- A character that no lexeme goes on with: a newline or a closing parenthesis. -/
def isBar (d : Char) : Bool :=
  d = '\n' || d = ')'

theorem eq_false_of_isBar {d : Char} (hd : isBar d = true) {p : Char → Bool}
    (hline : p '\n' = false) (hparen : p ')' = false) : p d = false := by
  rcases (by simpa [isBar] using hd : d = '\n' ∨ d = ')') with rfl | rfl
  · exact hline
  · exact hparen

section

variable {cs u text line : List Char} {lines : List (List Char)} {d : Char} {p : Char → Bool}
  {limit k n : Nat} {l : Lexeme}

theorem takeWhile_append_bar (hp : p d = false) : (cs ++ d :: u).takeWhile p = cs.takeWhile p := by
  induction cs with
  | nil => simp [hp]
  | cons c cs ih =>
    cases hc : p c with
    | true => simp [hc, ih]
    | false => simp [hc]

theorem dropWhile_append_bar (hp : p d = false) :
    (cs ++ d :: u).dropWhile p = cs.dropWhile p ++ d :: u := by
  rw [List.dropWhile_append]
  split
  · next hall =>
    rw [List.isEmpty_iff] at hall
    simp [hall, hp]
  · rfl

theorem length_takeWhile_le (cs : List Char) : (cs.takeWhile p).length ≤ cs.length :=
  (List.takeWhile_prefix p).length_le

theorem takeWhile_append_drop (p : Char → Bool) (cs : List Char) :
    cs.takeWhile p ++ cs.drop (cs.takeWhile p).length = cs :=
  List.prefix_iff_eq_append.mp (List.takeWhile_prefix p)

theorem drop_takeWhile_append (cs u : List Char) :
    (cs ++ u).drop (cs.takeWhile p).length = cs.drop (cs.takeWhile p).length ++ u :=
  List.drop_append_of_le_length (length_takeWhile_le cs)

theorem headIs_append_bar (hp : p d = false) : headIs p (cs ++ d :: u) = headIs p cs := by
  cases cs with
  | nil => simp [headIs, hp]
  | cons c cs => rfl

theorem headIs_iff : headIs p cs = true ↔ ∃ c rest, cs = c :: rest ∧ p c = true := by
  cases cs <;> simp [headIs]

theorem restOfLine_append_line : restOfLine (cs ++ '\n' :: u) = restOfLine cs :=
  takeWhile_append_bar (by decide)

theorem newline_not_mem_restOfLine (cs : List Char) : '\n' ∉ restOfLine cs := by
  intro hmem
  simpa using List.mem_takeWhile_imp hmem

theorem drop_restOfLine (h : '\n' ∈ cs) :
    ∃ rest, cs.drop (restOfLine cs).length = '\n' :: rest := by
  induction cs with
  | nil => simp at h
  | cons c cs ih =>
    by_cases hc : c = '\n'
    · subst hc
      exact ⟨cs, by simp [restOfLine]⟩
    · have hmem : '\n' ∈ cs := by simpa [Ne.symm hc] using h
      rcases ih hmem with ⟨rest, hrest⟩
      exact ⟨rest, by simpa [restOfLine, hc] using hrest⟩

/-! ## Gaps -/

theorem newline_mem_drop_blanks (h : '\n' ∈ cs) :
    '\n' ∈ cs.drop (cs.takeWhile isBlank).length := by
  induction cs with
  | nil => simp at h
  | cons c cs ih =>
    cases hc : isBlank c with
    | true =>
      have hne : '\n' ≠ c := by
        rintro rfl
        simp [isBlank] at hc
      have hmem : '\n' ∈ cs := by simpa [hne] using h
      simpa [hc] using ih hmem
    | false => simpa [hc] using h

theorem continuation?_append_line (h : '\n' ∈ cs) :
    continuation? (cs ++ '\n' :: u) = continuation? cs := by
  have hmem := newline_mem_drop_blanks h
  simp only [continuation?, takeWhile_append_bar (d := '\n') (p := isBlank) (by decide),
    drop_takeWhile_append]
  generalize cs.drop (cs.takeWhile isBlank).length = behind at hmem ⊢
  cases behind with
  | nil => simp at hmem
  | cons c rest =>
    by_cases hc : c = ';'
    · -- the comment ends at a newline of the text itself
      subst hc
      have hrest : '\n' ∈ rest := by simpa using hmem
      rcases drop_restOfLine hrest with ⟨line, hline⟩
      have hlater : (rest ++ '\n' :: u).drop (restOfLine rest).length =
          '\n' :: line ++ '\n' :: u := by
        rw [restOfLine, drop_takeWhile_append, ← restOfLine, hline]
      simp only [List.cons_append, restOfLine_append_line, hline] at hlater ⊢
      simp only [hlater]
    · by_cases hn : c = '\n'
      · subst hn
        rfl
      · simp [hc, hn]

/-- The form of a continuation. -/
theorem continuation?_eq_some (h : continuation? cs = some k) :
    ∃ blanks comment rest, cs = blanks ++ comment ++ ['\n'] ++ rest ∧
      k = (blanks ++ comment ++ ['\n']).length ∧ (∀ c ∈ blanks, isBlank c = true) ∧
      (comment = [] ∨ ∃ body, comment = ';' :: body ∧ '\n' ∉ body) := by
  have hcs := takeWhile_append_drop isBlank cs
  have hblanks : ∀ c ∈ cs.takeWhile isBlank, isBlank c = true :=
    fun c hc => List.mem_takeWhile_imp hc
  simp only [continuation?] at h
  generalize cs.takeWhile isBlank = blanks at h hcs hblanks
  split at h
  · -- the line ends right behind the blanks
    next rest hrest =>
    cases h
    refine ⟨blanks, [], rest, ?_, by simp, hblanks, .inl rfl⟩
    rw [← hcs, hrest]
    simp
  · next rest hrest =>
    split at h
    · next line hnewline =>
      have hline : restOfLine rest ++ '\n' :: line = rest := by
        rw [← hnewline, restOfLine, takeWhile_append_drop]
      cases h
      refine ⟨blanks, ';' :: restOfLine rest, line, ?_, ?_, hblanks,
        .inr ⟨_, rfl, newline_not_mem_restOfLine rest⟩⟩
      · rw [← hcs, hrest]
        simp [hline]
      · simp only [List.length_append, List.length_cons, List.length_nil]
        omega
    · cases h
  · cases h

theorem continuation?_bounds (h : continuation? cs = some k) : 1 ≤ k ∧ k ≤ cs.length := by
  rcases continuation?_eq_some h with ⟨blanks, comment, rest, rfl, rfl, _⟩
  simp only [List.length_append, List.length_singleton]
  omega

theorem continuation?_append (h : continuation? cs = some k) :
    continuation? (cs ++ '\n' :: u) = some k := by
  rcases continuation?_eq_some h with ⟨blanks, comment, rest, rfl, _⟩
  rw [continuation?_append_line (by simp), h]

theorem gap_append_line {pending : Nat} {fresh : Bool}
    (h : (gap pending fresh cs).stray = true → EndsPlain cs) (hpending : pending ≤ cs.length) :
    gap pending fresh (cs ++ '\n' :: u) = gap pending fresh cs := by
  fun_induction gap pending fresh cs with
  | case1 pending fresh =>
    have hzero : pending = 0 := by simpa using hpending
    subst hzero
    simp [gap, isBlank]
  | case2 k fresh c rest ih =>
    rw [List.cons_append, gap, ih (fun hs => (h hs).tail) (by simpa using hpending)]
  | case3 fresh c rest hblank ih =>
    rw [List.cons_append, gap, if_pos hblank, ih (fun hs => (h hs).tail) (Nat.zero_le _)]
  | case4 fresh c rest hblank hcomment =>
    rw [List.cons_append, gap, if_neg hblank, if_pos hcomment, restOfLine_append_line]
  | case5 fresh rest k hcont hblank hcomment ih =>
    rw [List.cons_append, gap, if_neg hblank, if_neg hcomment, if_pos rfl,
      continuation?_append hcont]
    exact congrArg Gap.succ (ih (fun hs => (h hs).tail) (continuation?_bounds hcont).2)
  | case6 fresh rest hcont hblank hcomment =>
    have hsame := (continuation?_append_line (u := u) (h rfl).newline_mem).trans hcont
    rw [List.cons_append, gap, if_neg hblank, if_neg hcomment, if_pos rfl, hsame]
  | case7 fresh c rest hblank hcomment hslash =>
    rw [List.cons_append, gap, if_neg hblank, if_neg hcomment, if_neg hslash]

theorem gap_length_le (pending : Nat) (fresh : Bool) (cs : List Char) :
    (gap pending fresh cs).length ≤ cs.length := by
  fun_induction gap pending fresh cs with
  | case1 => simp
  | case2 k fresh c rest ih => simpa [Gap.succ] using ih
  | case3 fresh c rest hblank ih => simpa [Gap.succ] using ih
  | case4 fresh c rest hblank hcomment =>
    have hle := length_takeWhile_le (p := (· ≠ '\n')) rest
    simp only [restOfLine, List.length_cons]
    omega
  | case5 fresh rest k hcont hblank hcomment ih => simpa [Gap.succ] using ih
  | case6 => simp
  | case7 => simp

/-! ## Lexemes -/

/-- Looking for a definer stops at a bar. -/
theorem declares_append_bar (hd : isBar d = true) : declares (cs ++ d :: u) = declares cs := by
  have hspace : isBlank d = false := eq_false_of_isBar hd rfl rfl
  have hequals : d ≠ '=' := by simpa using eq_false_of_isBar hd (p := (· = '=')) rfl rfl
  have hname : isNameChar d = false := eq_false_of_isBar hd rfl rfl
  cases cs with
  | nil =>
    have hcolon : d ≠ ':' := by simpa using eq_false_of_isBar hd (p := (· = ':')) rfl rfl
    simp [declares, hspace]
  | cons c cs =>
    by_cases hc : c = ':'
    · subst hc
      rfl
    · cases hblank : isBlank c with
      | false => simp [declares, hblank]
      | true =>
        simp only [declares, List.cons_append, hblank, if_true]
        rw [← List.cons_append, dropWhile_append_bar hspace]
        generalize (c :: cs).dropWhile isBlank = behind
        cases behind with
        | nil => simp [hname, hequals]
        | cons b rest =>
          by_cases hb : b = '='
          · subst hb
            cases rest with
            | nil => simp [hequals]
            | cons b' rest =>
              by_cases hb' : b' = '='
              · subst hb'
                rfl
              · simp [hb']
          · have hchars : (b :: (rest ++ d :: u)).takeWhile isNameChar =
                (b :: rest).takeWhile isNameChar := by
              rw [← List.cons_append, takeWhile_append_bar hname]
            simp [hb, hchars]

theorem scanName_append_bar (hd : isBar d = true) (hcs : cs ≠ []) :
    scanName (cs ++ d :: u) = scanName cs := by
  have hhead : (cs ++ d :: u).head? = cs.head? := by
    cases cs with
    | nil => exact absurd rfl hcs
    | cons c cs => rfl
  have hname : isNameChar d = false := eq_false_of_isBar hd rfl rfl
  simp only [scanName, takeWhile_append_bar hname, drop_takeWhile_append, declares_append_bar hd,
    hhead]

theorem scanDecimal_append_bar (hd : isBar d = true) :
    scanDecimal (cs ++ d :: u) = scanDecimal cs := by
  have hdigit : isDigit d = false := eq_false_of_isBar hd rfl rfl
  have hdot : d ≠ '.' := by simpa using eq_false_of_isBar hd (p := (· = '.')) rfl rfl
  simp only [scanDecimal, takeWhile_append_bar hdigit, drop_takeWhile_append]
  generalize cs.drop (cs.takeWhile isDigit).length = behind
  cases behind with
  | nil => simp [hdot]
  | cons c rest =>
    by_cases hc : c = '.'
    · subst hc
      simp only [List.cons_append, takeWhile_append_bar hdigit]
    · simp [hc]

theorem isDigitOf_bar (hd : isBar d = true) (base : Nat) : isDigitOf base d = false :=
  eq_false_of_isBar hd (by simp [isDigitOf]) (by simp [isDigitOf])

theorem scanRadix_append_bar (hd : isBar d = true) (base : Nat) :
    scanRadix base (cs ++ d :: u) = scanRadix base cs := by
  simp only [scanRadix, takeWhile_append_bar (isDigitOf_bar hd base)]

theorem scanPixels_append_bar (hd : isBar d = true) :
    scanPixels (cs ++ d :: u) = scanPixels cs := by
  simp only [scanPixels, takeWhile_append_bar (isDigitOf_bar hd 4)]

theorem StringScan.cons_eq_closed_iff {width : Nat} {r : StringScan} :
    r.cons c width = .closed text n ↔
      ∃ text' n', r = .closed text' n' ∧ text = c :: text' ∧ n = n' + width := by
  cases r with
  | closed text' n' =>
    simp only [StringScan.cons, StringScan.closed.injEq]
    constructor
    · rintro ⟨rfl, rfl⟩
      exact ⟨text', n', ⟨rfl, rfl⟩, rfl, rfl⟩
    · rintro ⟨_, _, ⟨rfl, rfl⟩, rfl, rfl⟩
      exact ⟨rfl, rfl⟩
  | fault f offset => simp [StringScan.cons]

/-- A closed string stays as it is. -/
theorem stringBody_append (h : stringBody cs = .closed text n) :
    stringBody (cs ++ u) = .closed text n ∧ n ≤ cs.length := by
  fun_induction stringBody cs generalizing text n with
  | case1 => cases h
  | case2 rest =>
    cases h
    simp [stringBody]
  | case3 => cases h
  | case4 => cases h
  | case5 e rest c hescape ih =>
    rcases StringScan.cons_eq_closed_iff.mp h with ⟨text', n', hrest, rfl, rfl⟩
    rcases ih hrest with ⟨hsame, hle⟩
    constructor
    · simp only [List.cons_append, stringBody, hescape, hsame, StringScan.cons]
    · simp only [List.length_cons]
      omega
  | case6 => cases h
  -- a character that stands for itself; the two cases before it exclude a backslash
  | case7 c rest hquote hline hlast hescaped ih =>
    rcases StringScan.cons_eq_closed_iff.mp h with ⟨text', n', hrest, rfl, rfl⟩
    rcases ih hrest with ⟨hsame, hle⟩
    constructor
    · have hslash : c ≠ '\\' := by
        rintro rfl
        cases rest with
        | nil => exact hlast rfl rfl
        | cons e rest => exact hescaped e rest rfl rfl
      rw [List.cons_append, stringBody]
      · rw [hsame]
        rfl
      · exact hquote
      · exact hline
      · intro hc
        exact absurd hc hslash
      · intro _ _ hc
        exact absurd hc hslash
    · simp only [List.length_cons]
      omega

theorem scanPunct_append_bar (hd : isBar d = true) :
    scanPunct (c :: cs ++ d :: u) = scanPunct (c :: cs) := by
  cases cs with
  | nil =>
    -- no operator has a bar for its second character
    have hpair : pairPunct? c (some d) = pairPunct? c none := by
      rcases (by simpa [isBar] using hd : d = '\n' ∨ d = ')') with rfl | rfl <;> simp [pairPunct?]
    simp [scanPunct, hpair]
  | cons b cs => rfl

theorem scan_append_bar_eq (hd : isBar d = true) (hquote : c ≠ '"') :
    scan (c :: cs ++ d :: u) = scan (c :: cs) := by
  have hname : scanName (c :: cs ++ d :: u) = scanName (c :: cs) := scanName_append_bar hd (by simp)
  have hdecimal : scanDecimal (c :: cs ++ d :: u) = scanDecimal (c :: cs) :=
    scanDecimal_append_bar hd
  have hpunct : scanPunct (c :: cs ++ d :: u) = scanPunct (c :: cs) := scanPunct_append_bar hd
  have hstart : headIs (fun d => isNameChar d && !d.isDigit) (cs ++ d :: u) =
      headIs (fun d => isNameChar d && !d.isDigit) cs :=
    headIs_append_bar (eq_false_of_isBar hd (p := fun d => isNameChar d && !d.isDigit) rfl rfl)
  have hdigit : ∀ base, headIs (isDigitOf base) (cs ++ d :: u) = headIs (isDigitOf base) cs :=
    fun base => headIs_append_bar (isDigitOf_bar hd base)
  rw [List.cons_append] at hname hdecimal hpunct ⊢
  simp only [scan, hquote, if_false, hname, hdecimal, hpunct, hstart, hdigit,
    scanRadix_append_bar hd, scanPixels_append_bar hd]

theorem scanString_eq_lexeme_iff : scanString cs = .lexeme l n ↔
    ∃ text length, stringBody cs = .closed text length ∧ .string (String.ofList text) = l ∧
      1 + length = n := by
  unfold scanString
  cases stringBody cs with
  | closed text length => simp [and_assoc]
  | fault f offset => simp

theorem scan_append_bar (hd : isBar d = true) (hcs : cs ≠ []) (h : scan cs = .lexeme l n) :
    scan (cs ++ d :: u) = .lexeme l n := by
  cases cs with
  | nil => exact absurd rfl hcs
  | cons c cs =>
    by_cases hquote : c = '"'
    · subst hquote
      rcases scanString_eq_lexeme_iff.mp h with ⟨text, length, hbody, heq⟩
      exact scanString_eq_lexeme_iff.mpr ⟨text, length, (stringBody_append hbody).1, heq⟩
    · exact (scan_append_bar_eq hd hquote).trans h

/-- A lexeme is not the end of the source and takes at most so many characters. -/
def Scan.Within (limit : Nat) : Scan → Prop
  | .lexeme l length => l ≠ .eof ∧ length ≤ limit
  | _ => True

theorem Scan.Within.ite {p : Prop} [Decidable p] {a b : Scan} (ha : a.Within limit)
    (hb : b.Within limit) : (if p then a else b).Within limit := by
  split
  · exact ha
  · exact hb

theorem Scan.Within.scanned {length : Nat} (value : Nat) (h : length ≤ limit) :
    (scanned value length).Within limit :=
  .ite ⟨by simp, h⟩ trivial

theorem within_scanName (cs : List Char) : (scanName cs).Within cs.length := by
  have hle := length_takeWhile_le (p := isNameChar) cs
  refine .ite ⟨by simp, hle⟩ (.ite ⟨?_, hle⟩ ⟨?_, hle⟩)
  · split
    · simp
    · simp
  · split
    · simp
    · simp

theorem within_scanDecimal (cs : List Char) : (scanDecimal cs).Within cs.length := by
  have hle := length_takeWhile_le (p := isDigit) cs
  simp only [scanDecimal]
  split
  · next rest hrest =>
    have hlength := congrArg List.length hrest
    simp only [List.length_drop, List.length_cons] at hlength
    have hfraction := length_takeWhile_le (p := isDigit) rest
    refine .ite ?_ ?_
    · split
      · exact .scanned _ hle
      · trivial
    · split
      · split
        · exact .scanned _ (by omega)
        · trivial
      · trivial
  · split
    · exact .scanned _ hle
    · trivial

theorem scanPunct_le {p : Punct} (h : scanPunct cs = some (p, n)) : n ≤ cs.length := by
  rcases scanPunct_cases h with ⟨_, _, _, rfl, _, rfl⟩ | ⟨_, _, rfl, _, rfl⟩ <;> simp

theorem within_scan (c : Char) (rest : List Char) :
    (scan (c :: rest)).Within (c :: rest).length := by
  have hradix : ∀ base, (scanRadix base rest).Within (c :: rest).length := by
    intro base
    have hle := length_takeWhile_le (p := isDigitOf base) rest
    exact .ite trivial (.scanned _ (by simp only [List.length_cons]; omega))
  have hpixels : (scanPixels rest).Within (c :: rest).length := by
    have hle := length_takeWhile_le (p := isDigitOf 4) rest
    exact .ite trivial (.ite trivial (.scanned _ (by simp only [List.length_cons]; omega)))
  have hstring : (scanString rest).Within (c :: rest).length := by
    unfold scanString
    split
    · next text length hbody =>
      have hle := (stringBody_append (u := []) hbody).2
      refine ⟨by simp, ?_⟩
      simp only [List.length_cons]
      omega
    · trivial
  refine .ite ⟨by simp, by simp⟩ (.ite (within_scanName _) (.ite ?_ ?_))
  · exact .ite (within_scanName _) trivial
  · refine .ite (within_scanDecimal _) (.ite (hradix 16) (.ite (hradix 2) (.ite (hradix 8) ?_)))
    refine .ite hpixels (.ite hstring ?_)
    split
    · next p length hpunct => exact ⟨by simp, scanPunct_le hpunct⟩
    · trivial

theorem length_le_of_scan (h : scan cs = .lexeme l n) : n ≤ cs.length := by
  cases cs with
  | nil =>
    cases h
    exact Nat.le_refl _
  | cons c rest =>
    have hwithin := within_scan c rest
    rw [h] at hwithin
    exact hwithin.2

/-- The end is only found where nothing is left. -/
theorem eq_nil_of_scan_eof (h : scan cs = .lexeme .eof n) : cs = [] := by
  cases cs with
  | nil => rfl
  | cons c rest =>
    have hwithin := within_scan c rest
    rw [h] at hwithin
    exact absurd rfl hwithin.1

/-! ## Raw arguments -/

theorem RawScan.append_eq_argument_iff {front : List Char} {width : Nat} {r : RawScan} :
    r.append front width = .argument text n ↔
      ∃ text' n', r = .argument text' n' ∧ text = front ++ text' ∧ n = n' + width := by
  cases r with
  | argument text' n' =>
    simp only [RawScan.append, RawScan.argument.injEq]
    constructor
    · rintro ⟨rfl, rfl⟩
      exact ⟨text', n', ⟨rfl, rfl⟩, rfl, rfl⟩
    · rintro ⟨_, _, ⟨rfl, rfl⟩, rfl, rfl⟩
      exact ⟨rfl, rfl⟩
  | unterminated offset => simp [RawScan.append]

theorem RawScan.append_same {r r' : RawScan} {front : List Char}
    (h : r.append front 1 = .argument text n)
    (hsame : ∀ text n, r = .argument text n → r' = .argument text n ∧ n ≤ limit) :
    r'.append front 1 = .argument text n ∧ n ≤ limit + 1 := by
  rcases RawScan.append_eq_argument_iff.mp h with ⟨text', n', hr, rfl, rfl⟩
  rcases hsame text' n' hr with ⟨hr', hle⟩
  rw [hr']
  exact ⟨rfl, by omega⟩

/-- What is still to be passed of a continuation is there. -/
def RawState.Fits (cs : List Char) : RawState → Prop
  | .joining left _ => 1 ≤ left ∧ left ≤ cs.length
  | _ => True

theorem RawState.fits_afterQuoted (depth : Nat) (c : Char) :
    (RawState.afterQuoted depth c).Fits cs := by
  unfold afterQuoted
  split
  · trivial
  · split
    · trivial
    · trivial

theorem RawState.fits_afterPlain (depth : Nat) (c : Char) :
    (RawState.afterPlain depth c).Fits cs := by
  unfold afterPlain
  split
  · trivial
  · split
    · trivial
    · split
      · trivial
      · trivial

theorem rawArgument_line {s : RawState} (hfits : s.Fits []) (h : rawEnd s = .argument text n) :
    rawArgument s ('\n' :: u) = .argument text n := by
  cases s with
  | plain depth => simpa [rawArgument, rawEnd, RawState.inQuotes] using h
  | quoted depth => simpa [rawArgument] using h
  | escaped depth q => simpa [rawArgument] using h
  | joining left depth =>
    rcases hfits with ⟨hpos, hle⟩
    simp only [List.length_nil] at hle
    omega

/-- A raw argument before a further line. -/
theorem rawArgument_append_line {s : RawState} (hplain : EndsPlain cs) (hfits : s.Fits cs)
    (h : rawArgument s cs = .argument text n) :
    rawArgument s (cs ++ '\n' :: u) = .argument text n ∧ n ≤ cs.length := by
  fun_induction rawArgument s cs generalizing text n with
  | case1 s =>
    have hzero : n = 0 := by
      unfold rawEnd at h
      split at h
      · cases h
      · cases h
        rfl
    exact ⟨rawArgument_line hfits h, by simp [hzero]⟩
  | case2 left depth c rest ih =>
    rcases hfits with ⟨hpos, hle⟩
    rw [List.length_cons] at hle
    rw [List.cons_append, rawArgument]
    refine RawScan.append_same h fun text n hrest => ih hplain.tail ?_ hrest
    split
    · trivial
    · exact ⟨by omega, by omega⟩
  | case3 depth q rest =>
    rw [List.cons_append, rawArgument, if_pos rfl]
    refine ⟨h, ?_⟩
    unfold rawEnd at h
    split at h
    · cases h
    · cases h
      exact Nat.zero_le _
  | case4 depth q c rest hc ih =>
    rw [List.cons_append, rawArgument, if_neg hc]
    refine RawScan.append_same h fun text n hrest => ih hplain.tail ?_ hrest
    cases q with
    | true => trivial
    | false => trivial
  | case5 depth rest => cases h
  | case6 depth c rest hc ih =>
    rw [List.cons_append, rawArgument, if_neg hc]
    exact RawScan.append_same h fun text n hrest =>
      ih hplain.tail (RawState.fits_afterQuoted depth c) hrest
  | case7 depth c rest hstop =>
    cases h
    rw [List.cons_append, rawArgument, if_pos hstop]
    exact ⟨rfl, Nat.zero_le _⟩
  -- a continuation ends at a line feed of the text itself, so what stands behind does not matter
  | case8 depth rest k hcont hgoes ih =>
    rw [List.cons_append, rawArgument, if_neg hgoes, if_pos rfl, continuation?_append hcont]
    exact RawScan.append_same h fun text n hrest =>
      ih hplain.tail (continuation?_bounds hcont) hrest
  | case9 depth rest hcont hgoes ih =>
    have hsame := (continuation?_append_line (u := u) hplain.newline_mem).trans hcont
    rw [List.cons_append, rawArgument, if_neg hgoes, if_pos rfl, hsame]
    exact RawScan.append_same h fun text n hrest => ih hplain.tail trivial hrest
  | case10 depth c rest hgoes hslash ih =>
    rw [List.cons_append, rawArgument, if_neg hgoes, if_neg hslash]
    exact RawScan.append_same h fun text n hrest =>
      ih hplain.tail (RawState.fits_afterPlain depth c) hrest

/-- A text and its lines: there is a line end behind each but the last. -/
inductive LinesOf : List Char → List (List Char) → Prop
  | last {line : List Char} (h : '\n' ∉ line) : LinesOf line [line]
  | more {line u : List Char} {lines : List (List Char)} (h : '\n' ∉ line) (hu : LinesOf u lines) :
    LinesOf (line ++ '\n' :: u) (line :: lines)

theorem splitLines_cons_newline (cs : List Char) :
    splitLines ('\n' :: cs) = [] :: splitLines cs := by
  simp [splitLines]

theorem splitLines_cons (hc : c ≠ '\n') (h : splitLines cs = line :: lines) :
    splitLines (c :: cs) = (c :: line) :: lines := by
  unfold splitLines at h ⊢
  rw [List.foldr_cons, h, if_neg hc]

theorem linesOf_splitLines (cs : List Char) : LinesOf cs (splitLines cs) := by
  induction cs with
  | nil => exact .last (by simp)
  | cons c cs ih =>
    by_cases hc : c = '\n'
    · subst hc
      rw [splitLines_cons_newline]
      exact .more List.not_mem_nil ih
    · generalize hlines : splitLines cs = lines at ih
      cases ih with
      | last h =>
        rw [splitLines_cons hc hlines]
        exact .last (by simp [Ne.symm hc, h])
      | more h hu =>
        rw [splitLines_cons hc hlines, ← List.cons_append]
        exact .more (by simp [Ne.symm hc, h]) hu

theorem splitLines_line (h : '\n' ∉ line) (u : List Char) :
    splitLines (line ++ '\n' :: u) = line :: splitLines u := by
  induction line with
  | nil => exact splitLines_cons_newline u
  | cons c line ih =>
    rw [List.mem_cons, not_or] at h
    exact splitLines_cons (Ne.symm h.1) (ih h.2)

theorem splitLines_of_not_mem (h : '\n' ∉ cs) : splitLines cs = [cs] := by
  have hlines := linesOf_splitLines cs
  generalize splitLines cs = lines at hlines ⊢
  cases hlines with
  | last => rfl
  | more => simp at h

theorem LinesOf.splitLines_eq (h : LinesOf cs lines) : splitLines cs = lines := by
  induction h with
  | last h => exact splitLines_of_not_mem h
  | more h _ ih => rw [splitLines_line h, ih]

theorem linesOf_of_eq (h : splitLines cs = lines) : LinesOf cs lines :=
  h ▸ linesOf_splitLines cs

/-! ## Raw blocks -/

theorem splitLines_ne_nil (cs : List Char) : splitLines cs ≠ [] := by
  have hlines := linesOf_splitLines cs
  generalize splitLines cs = lines at hlines ⊢
  cases hlines <;> simp

theorem exists_of_splitLines_cons (h : splitLines cs = line :: lines) (hlines : lines ≠ []) :
    ∃ rest, cs = line ++ '\n' :: rest ∧ '\n' ∉ line ∧ splitLines rest = lines := by
  cases linesOf_of_eq h with
  | last => exact absurd rfl hlines
  | more hline hu => exact ⟨_, rfl, hline, hu.splitLines_eq⟩

theorem splitLines_append_line (cs u : List Char) :
    splitLines (cs ++ '\n' :: u) = splitLines cs ++ splitLines u := by
  have hlines := linesOf_splitLines cs
  generalize splitLines cs = lines at hlines ⊢
  induction hlines with
  | last h => exact splitLines_line h u
  | more h _ ih => rw [List.append_assoc, List.cons_append, splitLines_line h, ih, List.cons_append]

theorem splitLines_count (cs : List Char) : (splitLines cs).length = cs.count '\n' + 1 := by
  have hlines := linesOf_splitLines cs
  generalize splitLines cs = lines at hlines ⊢
  induction hlines with
  | last h => simp [List.count_eq_zero.mpr h]
  | more h _ ih => simp [List.count_eq_zero.mpr h, ih]

theorem length_splitLines (cs : List Char) :
    ((splitLines cs).map fun line => line.length + 1).sum = cs.length + 1 := by
  have hlines := linesOf_splitLines cs
  generalize splitLines cs = lines at hlines ⊢
  induction hlines with
  | last => simp
  | more _ _ ih =>
    rw [List.map_cons, List.sum_cons, ih, List.length_append, List.length_cons]
    omega

variable {closing : String} {opening : Option String} {depth : Nat} {more : List (List Char)}

/-- A line closes the whole block, or what is found lies behind it. -/
theorem blockBody?_first (closing : String) (opening : Option String) (depth : Nat)
    (first : List Char) : (closesBlock closing first = true ∧
        ∀ rest, blockBody? closing opening depth (first :: rest) = some (0, first)) ∨
      ∃ inner, ∀ rest, blockBody? closing opening depth (first :: rest) =
        (blockBody? closing opening inner rest).map fun b => (b.1 + first.length + 1, b.2) := by
  by_cases hcloses : closesBlock closing first = true
  · -- the closing line of a block inside belongs to the body
    cases depth with
    | zero => exact .inl ⟨hcloses, fun rest => if_pos hcloses⟩
    | succ d => exact .inr ⟨d, fun rest => if_pos hcloses⟩
  · exact .inr ⟨_, fun rest => by rw [blockBody?.eq_def]; exact if_neg hcloses⟩

theorem blockBody?_append (h : blockBody? closing opening depth lines = some (n, line)) :
    blockBody? closing opening depth (lines ++ more) = some (n, line) := by
  induction lines generalizing depth n with
  | nil => cases h
  | cons first rest ih =>
    rw [List.cons_append]
    rcases blockBody?_first closing opening depth first with ⟨_, hfirst⟩ | ⟨inner, hfirst⟩
    · rwa [hfirst] at h ⊢
    · rw [hfirst, Option.map_eq_some_iff] at h ⊢
      rcases h with ⟨⟨m, last⟩, hb, heq⟩
      cases heq
      exact ⟨_, ih hb, rfl⟩

theorem blockBody?_closes (h : blockBody? closing opening depth lines = some (n, line)) :
    closesBlock closing line = true ∧
      n + line.length + 1 ≤ (lines.map fun line => line.length + 1).sum := by
  induction lines generalizing depth n with
  | nil => cases h
  | cons first rest ih =>
    rw [List.map_cons, List.sum_cons]
    rcases blockBody?_first closing opening depth first with ⟨hcloses, hfirst⟩ | ⟨inner, hfirst⟩
    · rw [hfirst] at h
      cases h
      exact ⟨hcloses, by omega⟩
    · rw [hfirst] at h
      rcases Option.map_eq_some_iff.mp h with ⟨b, hb, heq⟩
      cases heq
      rcases ih hb with ⟨hline, hle⟩
      exact ⟨hline, by omega⟩

end

/-! ## Closing words -/

/-- The combining dot above, the only character that lower case adds to a text. -/
def dotAbove : Char := Char.ofNat 0x307

theorem length_lowerImage (h : dotAbove ∉ lowerImage c) : (lowerImage c).length = 1 := by
  unfold lowerImage at h ⊢
  split
  · rfl
  · next hwide =>
    rw [if_neg hwide] at h
    unfold caseImage at h ⊢
    split
    · rfl
    · next hrun =>
      simp only [hrun] at h
      split
      · next e hfound =>
        -- the one letter that becomes two characters
        have hmem := List.mem_of_find?_eq_some hfound
        simp only [lowerExpansions, List.mem_singleton] at hmem
        subst hmem
        simp only [hfound] at h
        exact absurd (by decide) h
      · rfl

theorem length_lowerAfter {before cs : List Char} (h : dotAbove ∉ lowerAfter before cs) :
    (lowerAfter before cs).length = cs.length := by
  induction cs generalizing before with
  | nil => rfl
  | cons c cs ih =>
    simp only [lowerAfter, List.mem_append, not_or] at h
    rcases h with ⟨himage, hrest⟩
    simp only [lowerAfter, List.length_append, ih hrest, List.length_cons]
    split
    · split
      · exact Nat.add_comm 1 _
      · exact Nat.add_comm 1 _
    · next hsigma =>
      rw [if_neg hsigma] at himage
      rw [length_lowerImage himage]
      exact Nat.add_comm 1 _

theorem length_lowerWord {w : List Char} {closing : String} (h : lowerWord w = closing)
    (hdot : dotAbove ∉ closing.toList) : w.length = closing.length := by
  subst h
  have hlist : (lowerWord w).toList = lowerAfter [] w := by
    simp [lowerWord, lower]
  rw [hlist] at hdot
  rw [← String.length_toList, hlist, length_lowerAfter hdot]

theorem isSpace_of_isBlank (h : isBlank c = true) : isSpace c = true := by
  simp only [isBlank, Bool.or_eq_true, decide_eq_true_eq] at h
  rcases h with rfl | rfl
  · decide
  · decide

theorem length_words {cs w : List Char} {ws : List (List Char)} (h : words cs = w :: ws) :
    (cs.takeWhile isBlank).length + w.length ≤ cs.length := by
  induction cs generalizing w ws with
  | nil => cases h
  | cons c cs ih =>
    unfold words at h
    split at h
    · have hle := ih h
      rw [List.takeWhile_cons]
      split
      · simp only [List.length_cons]
        omega
      · have hw : w.length ≤ cs.length := by omega
        simp only [List.length_nil, List.length_cons]
        omega
    · next hspace =>
      have hblank : isBlank c = false := by
        rw [← Bool.not_eq_true]
        intro hblank
        exact hspace (isSpace_of_isBlank hblank)
      have hw : w.length ≤ cs.length + 1 := by
        split at h
        · next d rest v vs hwords =>
          have hle := ih hwords
          split at h
          · cases h
            simp
          · cases h
            simp only [List.length_cons] at hle ⊢
            omega
        · cases h
          simp
      simpa [List.takeWhile_cons, hblank] using hw

theorem takeWhile_codeOf (line : List Char) :
    (codeOf line).takeWhile isBlank = line.takeWhile isBlank := by
  induction line with
  | nil => rfl
  | cons c line ih =>
    by_cases hc : c = ';'
    · subst hc
      rfl
    · cases hblank : isBlank c with
      | true => simpa [codeOf, hc, hblank] using ih
      | false => simp [codeOf, hc, hblank]

theorem closesBlock_fits {closing : String} (h : closesBlock closing line = true)
    (hdot : dotAbove ∉ closing.toList) :
    (line.takeWhile isBlank).length + closing.length ≤ line.length := by
  unfold closesBlock at h
  split at h
  · next w ws hwords =>
    have hlength := length_lowerWord (by simpa using h) hdot
    have hle := length_words hwords
    have hcode : (codeOf line).length ≤ line.length := length_takeWhile_le line
    rw [takeWhile_codeOf] at hle
    omega
  · cases h

end Sm83
