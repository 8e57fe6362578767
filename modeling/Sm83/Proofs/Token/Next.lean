import Sm83.Token.Stream

/-!
# How the next token comes about

Each way of reading a token ends with a token and the cursor behind it, or with a failure at a
place. This is told here once for each of the three functions, with all conditions, so that what is
proved of tokens need not look into the functions again.
-/

namespace Sm83

namespace Cursor

variable {c c₁ : Cursor} {source : Source} {g : Setting} {t : Token} {f : Failure}
  {closing : String} {opening : Option String}

/-- Which function reads the token. -/
theorem next_cases {r : Except Failure (Token × Cursor)} (h : c.next source g = r) :
    (g.mode = .normal ∧ c.normalToken source = r) ∨
      (g.mode = .raw ∧ g.closing? = none ∧ c.argumentToken source = r) ∨
      ∃ closing, g.mode = .raw ∧ g.closing? = some closing ∧
        c.blockToken source closing g.opening = r := by
  unfold next at h
  split at h
  · next hmode => exact .inl ⟨hmode, h⟩
  · next hmode =>
    split at h
    · next closing hclosing => exact .inr (.inr ⟨closing, hmode, hclosing, h⟩)
    · next hclosing => exact .inr (.inl ⟨hmode, hclosing, h⟩)

/-! ## Normal mode -/

/-- When there is a token, and which. -/
theorem normalToken_eq_ok_iff : c.normalToken source = .ok (t, c₁) ↔
    (gap 0 c.fresh c.rest).stray = false ∧
      ∃ l n, scan (c.pass (gap 0 c.fresh c.rest).length).rest = .lexeme l n ∧
        t = (c.pass (gap 0 c.fresh c.rest).length).token .normal l ∧
        c₁ = (c.pass (gap 0 c.fresh c.rest).length).skip n := by
  simp only [normalToken]
  constructor
  · intro h
    split at h
    · cases h
    · next hstray =>
      split at h
      · next l n hscan =>
        cases h
        exact ⟨Bool.not_eq_true _ ▸ hstray, l, n, hscan, rfl, rfl⟩
      · cases h
      · cases h
  · rintro ⟨hstray, l, n, hscan, rfl, rfl⟩
    simp only [hstray, hscan, Bool.false_eq_true, if_false]

theorem normalToken_eq_error (h : c.normalToken source = .error f) :
    f = fault ((c.pass (gap 0 c.fresh c.rest).length).skip 1) source .strayBackslash ∨
      (∃ why n, scan (c.pass (gap 0 c.fresh c.rest).length).rest = .fault why n ∧
        f = fault ((c.pass (gap 0 c.fresh c.rest).length).skip n) source why) ∨
      ∃ why, scan (c.pass (gap 0 c.fresh c.rest).length).rest = .numeral why ∧
        f = .numeral why := by
  simp only [normalToken] at h
  split at h
  · cases h
    exact .inl rfl
  · split at h
    · cases h
    · next why n hscan =>
      cases h
      exact .inr (.inl ⟨why, n, hscan, rfl⟩)
    · next why hscan =>
      cases h
      exact .inr (.inr ⟨why, hscan, rfl⟩)

/-! ## Raw arguments -/

/-- A raw token at a place that no gap stands before: the end, a line end, a comma or an argument.
-/
inductive ArgumentAt (here : Cursor) : Token → Cursor → Prop
  | ended (h : here.rest = []) : ArgumentAt here (here.token .raw .eof) here
  | line {rest : List Char} (h : here.rest = '\n' :: rest) :
    ArgumentAt here (here.token .raw .newline) (here.skip 1)
  | comma {rest : List Char} (h : here.rest = ',' :: rest) :
    ArgumentAt here (here.token .raw (.punct .comma)) (here.skip 1)
  | argument {ch : Char} {rest text : List Char} {n : Nat} (h : here.rest = ch :: rest)
    (hline : ch ≠ '\n') (hcomma : ch ≠ ',')
    (hraw : rawArgument (.plain 0) here.rest = .argument text n) :
    ArgumentAt here (here.token .raw (.rawText (String.ofList (Text.trimmed text))))
      (here.passRaw n)

/-- When there is an argument or a comma, and which. -/
theorem argumentToken_eq_ok_iff : c.argumentToken source = .ok (t, c₁) ↔
    ArgumentAt (c.pass (gap 0 false c.rest).length) t c₁ := by
  simp only [argumentToken]
  generalize c.pass (gap 0 false c.rest).length = here
  constructor
  · intro h
    split at h
    · next hrest =>
      cases h
      exact .ended hrest
    · next rest hrest =>
      cases h
      exact .line hrest
    · next rest hrest =>
      cases h
      exact .comma hrest
    · next hnil hline hcomma =>
      split at h
      · next text n hraw =>
        cases h
        cases hrest : here.rest with
        | nil => exact absurd hrest hnil
        | cons ch rest =>
          refine .argument hrest ?_ ?_ hraw
          · rintro rfl
            exact hline rest hrest
          · rintro rfl
            exact hcomma rest hrest
      · cases h
  · intro h
    cases h with
    | ended hrest => rw [hrest]
    | line hrest =>
      rw [hrest]
      rfl
    | comma hrest =>
      rw [hrest]
      rfl
    | argument hrest hline hcomma hraw =>
      rw [hrest] at hraw ⊢
      split
      · next hnil => cases hnil
      · next heq =>
        cases heq
        exact absurd rfl hline
      · next heq =>
        cases heq
        exact absurd rfl hcomma
      · rw [hraw]

theorem argumentToken_eq_error (h : c.argumentToken source = .error f) :
    ∃ n, f = fault ((c.pass (gap 0 false c.rest).length).skip n) source .unterminatedString := by
  simp only [argumentToken] at h
  split at h
  · cases h
  · cases h
  · cases h
  · split at h
    · cases h
    · next n _ =>
      cases h
      exact ⟨n, rfl⟩

/-! ## Raw blocks -/

theorem bodyStart_skip {body : Cursor} (h : c.bodyStart source = .ok body) :
    ∃ n, body = c.skip n := by
  simp only [bodyStart] at h
  split at h
  · cases h
    exact ⟨0, rfl⟩
  · split at h
    · cases h
      exact ⟨_, skip_skip _ _ _⟩
    · cases h
      rw [skip_skip, skip_skip]
      exact ⟨_, rfl⟩
    · cases h

theorem bodyStart_eq_error (h : c.bodyStart source = .error f) :
    ∃ n, f = fault (c.skip n) source .textBeforeBody := by
  simp only [bodyStart] at h
  split at h
  · cases h
  · split at h
    · cases h
    · cases h
    · cases h
      rw [skip_skip]
      exact ⟨_, rfl⟩

theorem blockToken_eq_ok_iff :
    c.blockToken source closing opening = .ok (t, c₁) ↔
      ∃ body n line, c.bodyStart source = .ok body ∧
        blockBody? closing opening 0 (splitLines body.rest) = some (n, line) ∧
        t = ⟨.rawBlock (String.ofList (body.rest.take n)), body.line, 1, .raw⟩ ∧
        c₁ = body.skip (n + ((line.takeWhile isBlank).length + closing.length)) := by
  constructor
  · intro h
    unfold blockToken at h
    split at h
    · cases h
    · next body hbody =>
      split at h
      · next n line hblock =>
        cases h
        exact ⟨body, n, line, hbody, hblock, rfl, skip_skip _ _ _⟩
      · cases h
  · rintro ⟨body, n, line, hbody, hblock, rfl, rfl⟩
    simp only [blockToken, hbody, hblock, skip_skip]

theorem blockToken_eq_error (h : c.blockToken source closing opening = .error f) :
    (∃ n, f = fault (c.skip n) source .textBeforeBody) ∨
      f = source.errorAt c.line 1 (.lexical (.unterminatedBlock closing)) := by
  unfold blockToken at h
  split at h
  · next hbody =>
    cases h
    exact .inl (bodyStart_eq_error hbody)
  · split at h
    · cases h
    · cases h
      exact .inr rfl

/-! ## Tokens and the source -/

theorem bodyStart_source {body : Cursor} (h : c.bodyStart source = .ok body) (source' : Source) :
    c.bodyStart source' = .ok body := by
  simp only [bodyStart] at h ⊢
  split at h
  · next hcolumn =>
    rw [if_pos hcolumn]
    exact h
  · next hcolumn =>
    rw [if_neg hcolumn]
    split at h
    · exact h
    · exact h
    · cases h

/-- The source serves only to tell the line of a failure. -/
theorem next_source (h : c.next source g = .ok (t, c₁)) (source' : Source) :
    c.next source' g = .ok (t, c₁) := by
  rcases next_cases h with ⟨hmode, h⟩ | ⟨hmode, hclosing, h⟩ | ⟨closing, hmode, hclosing, h⟩
  · simp only [next, hmode]
    exact normalToken_eq_ok_iff.mpr (normalToken_eq_ok_iff.mp h)
  · simp only [next, hmode, hclosing]
    exact argumentToken_eq_ok_iff.mpr (argumentToken_eq_ok_iff.mp h)
  · simp only [next, hmode, hclosing]
    rcases blockToken_eq_ok_iff.mp h with ⟨body, n, line, hbody, hrest⟩
    exact blockToken_eq_ok_iff.mpr ⟨body, n, line, bodyStart_source hbody source', hrest⟩

end Cursor

end Sm83
