import Sm83.Proofs.Token.Sound

/-!
# What a token depends on

A token is decided by the lines that reading it passes. Two texts that start with the same lines
have the same next token, in every setting, as long as the cursor behind the token has not got past
these lines; and a raw argument, which ends where the reader looks no further, has to end before the
last of their newlines.
-/

namespace Sm83

/-! ## Before a newline -/

variable {closing : String} {opening : Option String}

section

variable {cs u u' : List Char}

theorem continuation?_congr (cs u u' : List Char) :
    continuation? (cs ++ '\n' :: u') = continuation? (cs ++ '\n' :: u) := by
  simp only [continuation?, takeWhile_append_bar (d := '\n') (p := isBlank) (by decide),
    drop_takeWhile_append]
  generalize cs.drop (cs.takeWhile isBlank).length = behind
  cases behind with
  | nil => rfl
  | cons c rest =>
    by_cases hc : c = ';'
    · -- the comment ends at a newline of its own, or at the one behind the lines
      subst hc
      have hdrop : ∀ u, (rest ++ '\n' :: u).drop (restOfLine rest).length =
          rest.drop (restOfLine rest).length ++ '\n' :: u := fun u => drop_takeWhile_append rest _
      simp only [List.cons_append, restOfLine_append_line, hdrop]
      cases rest.drop (restOfLine rest).length with
      | nil => rfl
      | cons d more =>
        by_cases hd : d = '\n'
        · subst hd
          rfl
        · simp [hd]
    · by_cases hline : c = '\n'
      · subst hline
        rfl
      · simp [hc, hline]

/-- A gap within the lines. -/
theorem gap_congr {pending : Nat} {fresh : Bool} (u' : List Char)
    (h : (gap pending fresh (cs ++ '\n' :: u)).length ≤ cs.length) :
    gap pending fresh (cs ++ '\n' :: u') = gap pending fresh (cs ++ '\n' :: u) := by
  induction cs generalizing pending fresh with
  -- at the newline the gap ends, unless a continuation still has to take it
  | nil =>
    cases pending with
    | zero => simp [gap, isBlank]
    | succ k => simp [gap, Gap.succ] at h
  | cons c cs ih =>
    cases pending with
    | succ k =>
      rw [List.cons_append, List.cons_append, gap, gap, ih (by simpa [gap, Gap.succ] using h)]
    | zero =>
      simp only [List.cons_append, gap, restOfLine_append_line, continuation?_congr cs u u'] at h ⊢
      split
      · next hblank => rw [ih (by simpa [hblank, Gap.succ] using h)]
      · next hblank =>
        split
        · rfl
        · next hcomment =>
          split
          · next hslash =>
            cases hcont : continuation? (cs ++ '\n' :: u) with
            | none => rfl
            | some k =>
              rw [if_neg hblank, if_neg hcomment, if_pos hslash, hcont] at h
              simp only
              rw [ih (by simpa [Gap.succ] using h)]
          · rfl

variable {n : Nat}

theorem stringBody_of_append_line {text : List Char}
    (h : stringBody (cs ++ '\n' :: u) = .closed text n) : stringBody cs = .closed text n := by
  fun_induction stringBody cs generalizing text n with
  | case1 => simp [stringBody] at h
  | case2 rest => simpa [stringBody] using h
  | case3 rest => simp [stringBody] at h
  | case4 => simp [stringBody, escape?] at h
  | case5 e rest c hescape ih =>
    simp only [List.cons_append, stringBody, hescape] at h
    rcases StringScan.cons_eq_closed_iff.mp h with ⟨text', n', hrest, rfl, rfl⟩
    rw [ih hrest]
    rfl
  | case6 e rest hescape => simp [stringBody, hescape] at h
  | case7 c rest hquote hline hlast hescaped ih =>
    have hslash : c ≠ '\\' := by
      rintro rfl
      cases rest with
      | nil => exact hlast rfl rfl
      | cons e rest => exact hescaped e rest rfl rfl
    rw [List.cons_append, stringBody] at h
    · rcases StringScan.cons_eq_closed_iff.mp h with ⟨text', n', hrest, rfl, rfl⟩
      rw [ih hrest]
      rfl
    · exact hquote
    · exact hline
    · intro hc
      exact absurd hc hslash
    · intro _ _ hc
      exact absurd hc hslash

theorem scan_of_append_line {l : Lexeme} (hcs : cs ≠ [])
    (h : scan (cs ++ '\n' :: u) = .lexeme l n) : scan cs = .lexeme l n := by
  cases cs with
  | nil => exact absurd rfl hcs
  | cons c cs =>
    by_cases hquote : c = '"'
    · subst hquote
      rcases scanString_eq_lexeme_iff.mp h with ⟨text, length, hbody, heq⟩
      exact scanString_eq_lexeme_iff.mpr ⟨text, length, stringBody_of_append_line hbody, heq⟩
    · exact (scan_append_bar_eq rfl hquote).symm.trans h

theorem scan_congr {l : Lexeme} (u' : List Char) (h : scan (cs ++ '\n' :: u) = .lexeme l n) :
    scan (cs ++ '\n' :: u') = .lexeme l n ∧ n ≤ cs.length + 1 := by
  cases cs with
  | nil =>
    cases h
    exact ⟨rfl, by simp⟩
  | cons c cs =>
    have hscan := scan_of_append_line (by simp) h
    have hwithin := within_scan c cs
    rw [hscan] at hwithin
    exact ⟨scan_append_bar rfl (by simp) hscan, Nat.le_succ_of_le hwithin.2⟩

/-- Two scans that agree on what takes at most `k` characters still agree behind one more. -/
theorem RawScan.append_congr {r r' : RawScan} {front text : List Char} {k : Nat}
    (hr : ∀ {text : List Char} {n : Nat}, r = .argument text n → n ≤ k → r' = .argument text n)
    (h : r.append front 1 = .argument text n) (hn : n ≤ k + 1) :
    r'.append front 1 = .argument text n := by
  rcases append_eq_argument_iff.mp h with ⟨text', n', htext, rfl, rfl⟩
  rw [hr htext (by omega)]
  rfl

/-- A raw argument within the lines. -/
theorem rawArgument_congr {s : RawState} {text : List Char} (u' : List Char)
    (h : rawArgument s (cs ++ '\n' :: u) = .argument text n) (hn : n ≤ cs.length) :
    rawArgument s (cs ++ '\n' :: u') = .argument text n := by
  -- each character but the last newline leaves one less to be read
  induction cs generalizing s text n with
  | nil =>
    cases s with
    | plain depth => simpa [rawArgument] using h
    | quoted depth => simpa [rawArgument] using h
    | escaped depth q => simpa [rawArgument] using h
    | joining left depth =>
      -- a continuation would take the newline
      rw [List.nil_append, rawArgument] at h
      rcases RawScan.append_eq_argument_iff.mp h with ⟨text', n', _, _, rfl⟩
      simp at hn
  | cons c cs ih =>
    cases s with
    | joining left depth =>
      rw [List.cons_append, rawArgument] at h ⊢
      exact RawScan.append_congr ih h hn
    | escaped depth q =>
      rw [List.cons_append, rawArgument] at h ⊢
      by_cases hline : c = '\n'
      · rwa [if_pos hline] at h ⊢
      · rw [if_neg hline] at h ⊢
        exact RawScan.append_congr ih h hn
    | quoted depth =>
      rw [List.cons_append, rawArgument] at h ⊢
      by_cases hline : c = '\n'
      · rwa [if_pos hline] at h ⊢
      · rw [if_neg hline] at h ⊢
        exact RawScan.append_congr ih h hn
    | plain depth =>
      rw [List.cons_append, rawArgument] at h ⊢
      split at h
      · next hstop =>
        rw [if_pos hstop]
        exact h
      · next hstop =>
        rw [if_neg hstop]
        split at h
        · next hslash =>
          rw [if_pos hslash, continuation?_congr cs u u']
          cases hcont : continuation? (cs ++ '\n' :: u) with
          | some k =>
            rw [hcont] at h
            exact RawScan.append_congr ih h hn
          | none =>
            rw [hcont] at h
            exact RawScan.append_congr ih h hn
        · next hslash =>
          rw [if_neg hslash]
          exact RawScan.append_congr ih h hn

theorem blockBody?_of_append {depth : Nat} {lines more : List (List Char)} {line : List Char}
    (h : blockBody? closing opening depth (lines ++ more) = some (n, line))
    (hn : n < (lines.map fun line => line.length + 1).sum) :
    blockBody? closing opening depth lines = some (n, line) := by
  -- on the lines: a block that closes within them is found without the others
  induction lines generalizing depth n with
  | nil => simp at hn
  | cons first rest ih =>
    rw [List.map_cons, List.sum_cons] at hn
    rw [List.cons_append] at h
    rcases blockBody?_first closing opening depth first with ⟨_, hfirst⟩ | ⟨inner, hfirst⟩
    · rwa [hfirst] at h ⊢
    · rw [hfirst, Option.map_eq_some_iff] at h ⊢
      rcases h with ⟨b, hb, heq⟩
      cases heq
      exact ⟨b, ih hb (by omega), rfl⟩

end

namespace Cursor

variable {u u' p q : List Char} {c c' c₁ : Cursor} {source source' : Source} {g : Setting}
  {t : Token} {n : Nat}

/-! ## Onward -/

theorem next_onward (h : c.next source g = .ok (t, c₁)) :
    c₁.rest.length < c.rest.length ∨ t.isEnd = true ∧ c₁.rest = [] ∧
      (c₁.fresh = true → c.fresh = true) := by
  cases ht : t.isEnd with
  | false => exact .inl (next_shortens h ht)
  | true =>
    refine .inr ⟨rfl, (next_step h).finish ht, ?_⟩
    have heof : t.lexeme = .eof := by simpa [Token.isEnd] using ht
    rcases next_cases h with ⟨_, h⟩ | ⟨_, _, h⟩ | ⟨closing, _, _, h⟩
    · rcases normalToken_eq_ok_iff.mp h with ⟨_, l, n, hscan, rfl, rfl⟩
      have hl : l = .eof := heof
      subst hl
      rw [eq_nil_of_scan_eof hscan] at hscan
      cases hscan
      intro hfresh
      exact (Bool.and_eq_true_iff.mp hfresh).1
    · cases argumentToken_eq_ok_iff.mp h with
      | ended =>
        intro hfresh
        exact (Bool.and_eq_true_iff.mp hfresh).1
      | line => cases heof
      | comma => cases heof
      | argument => cases heof
    · rcases blockToken_eq_ok_iff.mp h with ⟨body, n, line, _, _, rfl, rfl⟩
      cases heof

/-! ## Twins -/

/-- The same characters stand before two cursors, and behind these one text or another. -/
structure Ahead (u u' p : List Char) (c c' : Cursor) : Prop where
  rest : c.rest = p ++ u
  twin : c' = { c with rest := p ++ u' }

namespace Ahead

theorem rest' (h : Ahead u u' p c c') : c'.rest = p ++ u' := by
  rw [h.twin]

theorem fresh (h : Ahead u u' p c c') : c'.fresh = c.fresh := by
  rw [h.twin]

theorem column (h : Ahead u u' p c c') : c'.column = c.column := by
  rw [h.twin]

theorem token (h : Ahead u u' p c c') (mode : Mode) (l : Lexeme) :
    c'.token mode l = c.token mode l := by
  rw [h.twin]
  rfl

theorem head {ch : Char} {rest : List Char} (h : Ahead u u' p c c') (hp : p ≠ [])
    (hch : c.rest = ch :: rest) : ∃ rest', c'.rest = ch :: rest' := by
  rw [h.rest] at hch
  rw [h.rest']
  cases p with
  | nil => exact absurd rfl hp
  | cons d more =>
    cases hch
    exact ⟨more ++ u', rfl⟩

theorem step {ch : Char} (h : Ahead u u' (ch :: p) c c') : Ahead u u' p c.step c'.step := by
  have hrest := h.rest
  rw [List.cons_append] at hrest
  by_cases hline : ch = '\n'
  · subst hline
    constructor
    · simp [Cursor.step, hrest]
    · simp [Cursor.step, hrest, h.twin]
  · constructor
    · simp [Cursor.step, hrest, hline]
    · simp [Cursor.step, hrest, hline, h.twin]

theorem skip (h : Ahead u u' p c c') (hn : n ≤ p.length) :
    Ahead u u' (p.drop n) (c.skip n) (c'.skip n) := by
  induction n generalizing c c' p with
  | zero => exact h
  | succ n ih =>
    cases p with
    | nil => simp at hn
    | cons ch p => exact ih h.step (by simpa using hn)

theorem pass (h : Ahead u u' p c c') (hn : n ≤ p.length) :
    Ahead u u' (p.drop n) (c.pass n) (c'.pass n) := by
  have hskip := h.skip hn
  refine ⟨hskip.rest, ?_⟩
  unfold Cursor.pass
  rw [hskip.twin, h.fresh, h.rest, h.rest', List.take_append_of_le_length hn,
    List.take_append_of_le_length hn]

theorem passRaw (h : Ahead u u' p c c') (hn : n ≤ p.length) :
    Ahead u u' (p.drop n) (c.passRaw n) (c'.passRaw n) := by
  have hskip := h.skip hn
  refine ⟨hskip.rest, ?_⟩
  unfold Cursor.passRaw
  rw [hskip.twin]

end Ahead

/-- The cursor has not left what stands before a text, or stands right behind it on a fresh line. -/
def Within (u : List Char) (c : Cursor) : Prop :=
  u = [] ∨ u.length < c.rest.length ∨ u.length = c.rest.length ∧ c.fresh = true

theorem Within.length_le (h : c.Within u) : u.length ≤ c.rest.length := by
  rcases h with rfl | hlt | ⟨heq, _⟩
  · exact Nat.zero_le _
  · exact Nat.le_of_lt hlt
  · exact Nat.le_of_eq heq

theorem not_within_of_shorter (hu : u ≠ []) (hc : c.rest.length ≤ u.length)
    (hshorter : c₁.rest.length < c.rest.length ∨ c₁.rest = []) : ¬ c₁.Within u := by
  intro hwithin
  have hle := hwithin.length_le
  have hpos := List.length_pos_iff.mpr hu
  rcases hshorter with hshorter | hnil
  · omega
  · rw [hnil, List.length_nil] at hle
    omega

/-- A raw argument leaves no fresh line, so it has to end before the text. -/
theorem length_lt_of_passRaw_within (hu : u ≠ []) (h : (c.passRaw n).Within u) :
    u.length < (c.rest.drop n).length := by
  rcases h with hnil | hlt | ⟨_, hfresh⟩
  · exact absurd hnil hu
  · rwa [rest_passRaw] at hlt
  · cases hfresh

theorem not_within_of_argumentAt (hu : u ≠ []) (hc : c.rest.length ≤ u.length)
    (h : ArgumentAt c t c₁) : ¬ c₁.Within u := by
  cases h with
  | ended hnil => exact not_within_of_shorter hu hc (.inr hnil)
  | line hrest | comma hrest =>
    refine not_within_of_shorter hu hc (.inl (length_skip_lt Nat.one_pos ?_))
    exact hrest ▸ List.cons_ne_nil _ _
  | argument =>
    intro hwithin
    have hlt := length_lt_of_passRaw_within hu hwithin
    rw [List.length_drop] at hlt
    omega

theorem drop_line_append (hn : n ≤ q.length) (v : List Char) :
    (q ++ ['\n']).drop n ++ v = q.drop n ++ '\n' :: v := by
  rw [List.drop_append_of_le_length hn, List.append_assoc]
  rfl

section

variable (hu : u ≠ []) (h : Ahead u u' (q ++ ['\n']) c c')

include hu h

/-! ## Tokens of twins -/

/-- A token of normal mode within the lines. -/
theorem normalToken_ahead (ht : c.normalToken source = .ok (t, c₁)) (hwithin : c₁.Within u)
    (source' : Source) :
    ∃ n c₁', c'.normalToken source' = .ok (t, c₁') ∧ Ahead u u' ((q ++ ['\n']).drop n) c₁ c₁' := by
  have hrest : c.rest = q ++ '\n' :: u := by simpa using h.rest
  have hrest' : c'.rest = q ++ '\n' :: u' := by simpa using h.rest'
  rcases normalToken_eq_ok_iff.mp ht with ⟨hstray, l, n, hscan, rfl, rfl⟩
  by_cases hlength : (gap 0 c.fresh c.rest).length ≤ q.length
  · have hgap : gap 0 c'.fresh c'.rest = gap 0 c.fresh c.rest := by
      rw [hrest] at hlength ⊢
      rw [h.fresh, hrest']
      exact gap_congr u' hlength
    generalize gap 0 c.fresh c.rest = found at hlength hgap hstray hscan ⊢
    have hhere := h.pass (n := found.length) (by simp; omega)
    have hbehind := drop_line_append hlength
    rw [hhere.rest, hbehind] at hscan
    rcases scan_congr u' hscan with ⟨hscan', hn⟩
    have hthere := hhere.skip (n := n) (by simp at hn ⊢; omega)
    rw [List.drop_drop] at hthere
    refine ⟨found.length + n, (c'.pass found.length).skip n, ?_, hthere⟩
    rw [normalToken_eq_ok_iff, hgap]
    refine ⟨hstray, l, n, ?_, (hhere.token .normal l).symm, rfl⟩
    rw [hhere.rest', hbehind, hscan']
  · -- the gap goes on behind the newline, so the token is none of these lines
    have hle : (c.pass (gap 0 c.fresh c.rest).length).rest.length ≤ u.length := by
      rw [rest_pass, List.length_drop, hrest, List.length_append, List.length_cons]
      rw [hrest] at hlength
      omega
    refine absurd hwithin (not_within_of_shorter hu hle ?_)
    cases hhere : (c.pass (gap 0 c.fresh c.rest).length).rest with
    | nil =>
      rw [rest_skip, hhere]
      exact .inr List.drop_nil
    | cons ch rest =>
      have hadvances := advances_scan ch rest
      rw [← hhere, hscan] at hadvances
      rw [← hhere]
      exact .inl (length_skip_lt hadvances (hhere ▸ List.cons_ne_nil ch rest))

/-- The token of an argument within the lines. -/
theorem argumentToken_ahead (ht : c.argumentToken source = .ok (t, c₁)) (hwithin : c₁.Within u)
    (source' : Source) :
    ∃ n c₁', c'.argumentToken source' = .ok (t, c₁') ∧
      Ahead u u' ((q ++ ['\n']).drop n) c₁ c₁' := by
  have hrest : c.rest = q ++ '\n' :: u := by simpa using h.rest
  have hrest' : c'.rest = q ++ '\n' :: u' := by simpa using h.rest'
  have hat := argumentToken_eq_ok_iff.mp ht
  by_cases hlength : (gap 0 false c.rest).length ≤ q.length
  · have hgap : gap 0 false c'.rest = gap 0 false c.rest := by
      rw [hrest] at hlength ⊢
      rw [hrest']
      exact gap_congr u' hlength
    simp only [argumentToken_eq_ok_iff, hgap]
    generalize gap 0 false c.rest = found at hlength hat
    have hhere := h.pass (n := found.length) (by simp; omega)
    have hbehind := drop_line_append hlength
    have hpos : 1 ≤ ((q ++ ['\n']).drop found.length).length := by simp; omega
    have hmore : (q ++ ['\n']).drop found.length ≠ [] := List.length_pos_iff.mp hpos
    cases hat with
    | ended hnil =>
      rw [hhere.rest, hbehind] at hnil
      simp at hnil
    | line hline =>
      rcases hhere.head hmore hline with ⟨rest', hline'⟩
      refine ⟨found.length + 1, (c'.pass found.length).skip 1, ?_, List.drop_drop ▸ hhere.skip hpos⟩
      rw [← hhere.token]
      exact .line hline'
    | comma hcomma =>
      rcases hhere.head hmore hcomma with ⟨rest', hcomma'⟩
      refine ⟨found.length + 1, (c'.pass found.length).skip 1, ?_, List.drop_drop ▸ hhere.skip hpos⟩
      rw [← hhere.token]
      exact .comma hcomma'
    | @argument ch rest text n hch hline hcomma hargument =>
      rcases hhere.head hmore hch with ⟨rest', hch'⟩
      -- the argument ends before the newline, so what stands behind it is not looked at
      have hshort := length_lt_of_passRaw_within hu hwithin
      rw [hhere.rest, hbehind, List.length_drop, List.length_append, List.length_cons] at hshort
      rw [hhere.rest, hbehind] at hargument
      have hargument' := rawArgument_congr u' hargument (by omega)
      refine ⟨found.length + n, (c'.pass found.length).passRaw n, ?_,
        List.drop_drop ▸ hhere.passRaw (by simp at hshort ⊢; omega)⟩
      rw [← hhere.token]
      refine .argument hch' hline hcomma ?_
      rw [hhere.rest', hbehind, hargument']
  · have hle : (c.pass (gap 0 false c.rest).length).rest.length ≤ u.length := by
      rw [rest_pass, List.length_drop, hrest, List.length_append, List.length_cons]
      rw [hrest] at hlength
      omega
    exact absurd hwithin (not_within_of_argumentAt hu hle hat)

omit hu in
theorem bodyStart_ahead {body : Cursor} (hbody : c.bodyStart source = .ok body) (source' : Source) :
    ∃ n body', c'.bodyStart source' = .ok body' ∧ Ahead u u' ((q ++ ['\n']).drop n) body body' := by
  have hrest : c.rest = q ++ '\n' :: u := by simpa using h.rest
  have hrest' : c'.rest = q ++ '\n' :: u' := by simpa using h.rest'
  simp only [bodyStart, hrest, takeWhile_append_bar (d := '\n') (p := isBlank) (by decide)] at hbody
  simp only [bodyStart, h.column, hrest', takeWhile_append_bar (d := '\n') (p := isBlank)
    (by decide)]
  split at hbody
  · next hcolumn =>
    cases hbody
    exact ⟨0, c', by rw [if_pos hcolumn], h⟩
  · next hcolumn =>
    rw [if_neg hcolumn]
    have hblanks : (q.takeWhile isBlank).length ≤ q.length := length_takeWhile_le q
    generalize (q.takeWhile isBlank).length = blanks at hbody hblanks
    have hhere := h.skip (n := blanks) (by simp; omega)
    have hmark : ∀ (fresh : Bool) (cs v : List Char),
        headIs (fun ch => decide (ch = ';') || decide (ch = '*') && fresh) (cs ++ '\n' :: v) =
          headIs (fun ch => decide (ch = ';') || decide (ch = '*') && fresh) cs := by
      intro fresh cs v
      exact headIs_append_bar (by cases fresh <;> decide)
    simp only [hhere.rest, drop_line_append hblanks, hmark, restOfLine_append_line] at hbody
    simp only [hhere.fresh, hhere.rest', drop_line_append hblanks, hmark, restOfLine_append_line]
    generalize hcomment :
      (if headIs (fun ch => decide (ch = ';') || decide (ch = '*') && (c.skip blanks).fresh)
      (q.drop blanks) = true then (restOfLine (q.drop blanks)).length else 0) = comment at hbody
    have hle : blanks + comment ≤ q.length := by
      have hline : (restOfLine (q.drop blanks)).length ≤ (q.drop blanks).length :=
        length_takeWhile_le _
      rw [List.length_drop] at hline
      split at hcomment <;> omega
    have hthere := hhere.skip (n := comment) (by simp; omega)
    rw [List.drop_drop] at hthere
    simp only [hthere.rest, drop_line_append hle] at hbody
    simp only [hthere.rest', drop_line_append hle]
    have hnext := hthere.skip (n := 1) (by simp; omega)
    rw [List.drop_drop] at hnext
    cases hcs : q.drop (blanks + comment) with
    | nil =>
      rw [hcs] at hbody
      cases hbody
      exact ⟨_, _, rfl, hnext⟩
    | cons ch more =>
      rw [hcs] at hbody
      by_cases hline : ch = '\n'
      · subst hline
        cases hbody
        exact ⟨_, _, rfl, hnext⟩
      · simp [hline] at hbody

/-- The token of a block within the lines. -/
theorem blockToken_ahead (hclosing : 0 < closing.length)
    (ht : c.blockToken source closing opening = .ok (t, c₁)) (hwithin : c₁.Within u)
    (source' : Source) : ∃ n c₁', c'.blockToken source' closing opening = .ok (t, c₁') ∧
      Ahead u u' ((q ++ ['\n']).drop n) c₁ c₁' := by
  rcases blockToken_eq_ok_iff.mp ht with ⟨body, n, line, hbody, hblock, rfl, rfl⟩
  rcases bodyStart_ahead h hbody source' with ⟨k, body', hbody', hbehind⟩
  have hpos := List.length_pos_iff.mpr hu
  have hle := hwithin.length_le
  rw [rest_skip, hbehind.rest, List.length_drop, List.length_append] at hle
  have hskip :=
    hbehind.skip (n := n + ((line.takeWhile isBlank).length + closing.length)) (by omega)
  rw [List.drop_drop] at hskip
  refine ⟨_, _, blockToken_eq_ok_iff.mpr ⟨body', n, line, hbody', ?_, ?_, rfl⟩, hskip⟩
  · -- the closing line starts before the newline, or else its word would be behind it
    have hk : k ≤ q.length := by
      simp only [List.length_drop, List.length_append, List.length_singleton] at hle
      omega
    have hlines := drop_line_append hk
    rw [hbehind.rest, hlines, splitLines_append_line] at hblock
    rw [hbehind.rest', hlines, splitLines_append_line]
    refine blockBody?_append (blockBody?_of_append hblock ?_)
    rw [length_splitLines]
    simp only [List.length_drop, List.length_append, List.length_singleton] at hle ⊢
    omega
  · have htake : body'.rest.take n = body.rest.take n := by
      rw [hbehind.rest, hbehind.rest', List.take_append_of_le_length (by omega),
        List.take_append_of_le_length (by omega)]
    rw [htake, hbehind.twin]

end

/-- Two cursors with the same lines before them and then one text or another. Where the first text
is empty, so is the other. -/
structure Twin (u u' : List Char) (c c' : Cursor) : Prop where
  nil : u = [] → u' = []
  common : ∃ p, (u = [] ∨ p = [] ∨ ∃ q, p = q ++ ['\n']) ∧ Ahead u u' p c c'

/-- The next token of a cursor is that of its twin, if it does not leave the common lines. -/
theorem next_twin (h : Twin u u' c c') (ht : c.next source g = .ok (t, c₁)) (hwithin : c₁.Within u)
    (source' : Source) : ∃ c₁', c'.next source' g = .ok (t, c₁') ∧ Twin u u' c₁ c₁' := by
  rcases h.common with ⟨p, hp, hahead⟩
  by_cases hu : u = []
  · -- both read the same text to its end
    subst hu
    have hsame : c' = c := by
      have hrest := hahead.rest
      rw [hahead.twin, h.nil rfl, ← hrest]
    rw [hsame]
    refine ⟨c₁, next_source ht source', h.nil, c₁.rest, .inl rfl, (List.append_nil _).symm, ?_⟩
    rw [h.nil rfl, List.append_nil]
  · rcases hp with hnil | rfl | ⟨q, rfl⟩
    · exact absurd hnil hu
    · -- nothing is left of the lines, so the token would be behind them
      have hle : c.rest.length ≤ u.length := Nat.le_of_eq (congrArg List.length hahead.rest)
      exact absurd hwithin
        (not_within_of_shorter hu hle ((next_onward ht).imp_right fun h => h.2.1))
    · have htwin : ∀ {n : Nat} {c₁' : Cursor}, Ahead u u' ((q ++ ['\n']).drop n) c₁ c₁' →
          Twin u u' c₁ c₁' := by
        intro n c₁' hbehind
        refine ⟨h.nil, _, .inr ?_, hbehind⟩
        by_cases hn : n ≤ q.length
        · exact .inr ⟨q.drop n, List.drop_append_of_le_length hn⟩
        · exact .inl (List.drop_eq_nil_of_le (by simp; omega))
      rcases next_cases ht with ⟨hmode, ht⟩ | ⟨hmode, hclosing, ht⟩ | ⟨closing, hmode, hclosing, ht⟩
      · rcases normalToken_ahead hu hahead ht hwithin source' with ⟨n, c₁', ht', hbehind⟩
        exact ⟨c₁', by simp only [next, hmode, ht'], htwin hbehind⟩
      · rcases argumentToken_ahead hu hahead ht hwithin source' with ⟨n, c₁', ht', hbehind⟩
        exact ⟨c₁', by simp only [next, hmode, hclosing, ht'], htwin hbehind⟩
      · rcases blockToken_ahead hu hahead (Setting.length_closing?_pos hclosing) ht hwithin
          source' with
          ⟨n, c₁', ht', hbehind⟩
        exact ⟨c₁', by simp only [next, hmode, hclosing, ht'], htwin hbehind⟩

end Cursor

end Sm83
