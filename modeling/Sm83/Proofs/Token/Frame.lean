import Sm83.Proofs.Token.Extension
import Sm83.State.Basic
import Sm83.Statement

/-!
# A source within a larger one

A source can be set in a larger one, with lines before it and lines after it. A frame says what is
put around it. The tokens of the source are found in the larger one some lines further down, and
where the source ends, the larger one has a newline and goes on with the lines after it.
-/

namespace Sm83

open Cursor List

/-- The text of a source, the file it is from and the state it is read from, and what is put around
it: lines before it, with the state they lead to, their statements and their number, and the text
after the newline behind it, if anything comes after it. -/
structure Frame where
  text : List Char
  file : String
  state : State
  outer : State
  statements : List Statement
  lines : Nat
  after : Option (List Char)

@[simp] theorem Cursor.lexeme_token (c : Cursor) (mode : Mode) (l : Lexeme) :
    (c.token mode l).lexeme = l := rfl

/-- A setting whose blocks are closed by a word that no lower case could have made longer. -/
def Setting.Plain (s : Setting) : Prop :=
  ∀ word, s.closing? = some word → dotAbove ∉ word.toList

namespace Frame

/-- A source with nothing around it. -/
def bare (source : Source) (state : State) : Frame :=
  ⟨source.text, source.file, state, state, [], 0, none⟩

variable (e : Frame)

/-- What follows the last character of the source. -/
def behind : List Char :=
  match e.after with
  | some text => '\n' :: text
  | none => []

/-- A place of the source in the larger one. -/
def cursor (c : Cursor) : Cursor :=
  { c with rest := c.rest ++ e.behind, line := c.line + e.lines }

/-- The place where the larger source goes on after the last line of the source. -/
def past (c : Cursor) : Cursor :=
  match e.after with
  | some text => ⟨text, c.line + e.lines + 1, 1, true⟩
  | none => e.cursor c

/-- A lexeme of the source in the larger one: the end is a line end there if something comes after.
-/
def lexeme (l : Lexeme) : Lexeme :=
  if e.after.isSome && l == .eof then .newline else l

/-- A token of the source in the larger one. -/
def token (t : Token) : Token :=
  { t with lexeme := e.lexeme t.lexeme, line := t.line + e.lines }

/-- The place in the larger source after a token of the source. -/
def ahead (t : Token) (c : Cursor) : Cursor :=
  if t.isEnd then e.past c else e.cursor c

variable {e} {c : Cursor} {n : Nat}

theorem behind_of_none (h : e.after = none) : e.behind = [] := by
  simp [behind, h]

variable {text cs : List Char}

theorem behind_of_some (h : e.after = some text) : e.behind = '\n' :: text := by
  simp [behind, h]

@[simp] theorem rest_cursor : (e.cursor c).rest = c.rest ++ e.behind := rfl

@[simp] theorem fresh_cursor : (e.cursor c).fresh = c.fresh := rfl

@[simp] theorem line_cursor : (e.cursor c).line = c.line + e.lines := rfl

@[simp] theorem column_cursor : (e.cursor c).column = c.column := rfl

theorem lexeme_of_ne_eof {l : Lexeme} (h : l ≠ .eof) : e.lexeme l = l := by
  simp [lexeme, h]

theorem cursor_step (h : c.rest ≠ [] ∨ e.after = none) : (e.cursor c).step = e.cursor c.step := by
  cases hrest : c.rest with
  | nil =>
    have hnone : e.after = none := h.resolve_left (absurd hrest)
    simp [step, cursor, hrest, behind_of_none hnone]
  | cons ch rest =>
    by_cases hline : ch = '\n'
    · simp [step, cursor, hrest, hline, Nat.add_right_comm]
    · simp [step, cursor, hrest, hline]

theorem cursor_skip (h : n ≤ c.rest.length ∨ e.after = none) :
    (e.cursor c).skip n = e.cursor (c.skip n) := by
  induction n generalizing c with
  | zero => rfl
  | succ n ih =>
    have hstep : c.rest ≠ [] ∨ e.after = none := by
      apply h.imp_left
      intro hle hnil
      rw [hnil] at hle
      simp at hle
    have hlater : n ≤ c.step.rest.length ∨ e.after = none := by
      apply h.imp_left
      intro hle
      have hrest := rest_skip 1 c
      simp only [skip] at hrest
      rw [hrest, length_drop]
      omega
    rw [skip, cursor_step hstep, ih hlater]
    rfl

theorem cursor_pass (h : n ≤ c.rest.length ∨ e.after = none) :
    (e.cursor c).pass n = e.cursor (c.pass n) := by
  have htake : (c.rest ++ e.behind).take n = c.rest.take n := by
    rcases h with hle | hnone
    · exact take_append_of_le_length hle
    · rw [behind_of_none hnone, append_nil]
  unfold Cursor.pass
  rw [cursor_skip h, rest_cursor, htake]
  rfl

theorem cursor_passRaw (h : n ≤ c.rest.length ∨ e.after = none) :
    (e.cursor c).passRaw n = e.cursor (c.passRaw n) := by
  unfold passRaw
  rw [cursor_skip h]
  rfl

theorem skip_newline (hrest : c.rest = []) (hafter : e.after = some text) :
    (e.cursor c).skip 1 = e.past c := by
  simp [skip, step, past, hrest, hafter, behind_of_some hafter]

/-- The larger source has the token that the source has; and where nothing comes after it, it has
none where the source has none. -/
structure Mirrors (e : Frame) (x y : Except Failure (Token × Cursor)) : Prop where
  token : ∀ t c, x = .ok (t, c) → y = .ok (e.token t, e.ahead t c)
  failure : e.after = none → ∀ f, x = .error f → ∃ f', y = .error f'

theorem Mirrors.error {f : Failure} {y : Except Failure (Token × Cursor)}
    (h : e.after = none → ∃ f', y = .error f') : Mirrors e (.error f) y := by
  constructor
  · intro t c hok
    cases hok
  · intro hnone f' _
    exact h hnone

theorem Mirrors.ok (t : Token) (c : Cursor) :
    Mirrors e (.ok (t, c)) (.ok (e.token t, e.ahead t c)) := by
  constructor
  · intro t' c' hok
    cases hok
    rfl
  · intro _ f hok
    cases hok

theorem Mirrors.lexeme {t : Token} (h : t.lexeme ≠ .eof) :
    Mirrors e (.ok (t, c)) (.ok (⟨t.lexeme, t.line + e.lines, t.column, t.mode⟩, e.cursor c)) := by
  have htoken : (⟨t.lexeme, t.line + e.lines, t.column, t.mode⟩ : Token) = e.token t := by
    simp [Frame.token, lexeme_of_ne_eof h]
  have hahead : e.cursor c = e.ahead t c := by
    simp [ahead, Token.isEnd, h]
  rw [htoken, hahead]
  exact .ok _ _

theorem Mirrors.finish (here : Cursor) (mode : Mode) :
    Mirrors e (.ok (here.token mode .eof, here))
      (.ok ((e.cursor here).token mode (e.lexeme .eof), e.past here)) := by
  have hahead : e.past here = e.ahead (here.token mode .eof) here := by
    simp [ahead, Token.isEnd, Cursor.token]
  rw [hahead]
  exact .ok _ _

variable {source source' : Source}

theorem gap_behind {fresh : Bool} (h : e.after.isSome → EndsPlain cs) :
    gap 0 fresh (cs ++ e.behind) = gap 0 fresh cs := by
  cases hafter : e.after with
  | none => rw [behind_of_none hafter, append_nil]
  | some text =>
    rw [behind_of_some hafter]
    exact gap_append_line (fun _ => h (by simp [hafter])) (Nat.zero_le _)

theorem scan_behind {l : Lexeme} (hcs : cs ≠ []) (h : scan cs = .lexeme l n) :
    scan (cs ++ e.behind) = .lexeme l n := by
  cases hafter : e.after with
  | none => rwa [behind_of_none hafter, append_nil]
  | some text =>
    rw [behind_of_some hafter]
    exact scan_append_bar rfl hcs h

theorem mirrors_normalToken_of_gap
    (hgap : gap 0 (e.cursor c).fresh (e.cursor c).rest = gap 0 c.fresh c.rest) :
    Mirrors e (c.normalToken source) ((e.cursor c).normalToken source') := by
  have hhere := cursor_pass (e := e) (.inl (gap_length_le 0 c.fresh c.rest))
  simp only [normalToken, hgap, hhere]
  generalize c.pass (gap 0 c.fresh c.rest).length = here
  split
  · exact .error fun _ => ⟨_, rfl⟩
  · rw [rest_cursor]
    cases hrest : here.rest with
    -- at the end of the text the longer one either ends too, or has a line feed here
    | nil =>
      have hfinish := Mirrors.finish (e := e) here .normal
      cases hafter : e.after with
      | none => simpa [scan, behind_of_none hafter, past, hafter, lexeme, skip] using hfinish
      | some text =>
        rw [behind_of_some hafter]
        simp only [scan, if_true, nil_append, skip_newline hrest hafter]
        simpa [lexeme, hafter, skip] using hfinish
    | cons ch rest =>
      rw [← hrest]
      have hne : here.rest ≠ [] := by simp [hrest]
      have hwithin := within_scan ch rest
      rw [← hrest] at hwithin
      split
      · next l length hscan =>
        rw [hscan] at hwithin
        rw [scan_behind hne hscan]
        simp only
        rw [cursor_skip (.inl hwithin.2)]
        exact .lexeme hwithin.1
      · next f offset hscan =>
        refine .error fun hnone => ?_
        rw [behind_of_none hnone, append_nil, hscan]
        exact ⟨_, rfl⟩
      · next f hscan =>
        refine .error fun hnone => ?_
        rw [behind_of_none hnone, append_nil, hscan]
        exact ⟨_, rfl⟩

theorem mirrors_normalToken (h : e.after.isSome → EndsPlain c.rest) :
    Mirrors e (c.normalToken source) ((e.cursor c).normalToken source') :=
  mirrors_normalToken_of_gap (gap_behind h)

theorem rawArgument_behind (h : e.after.isSome → EndsPlain cs)
    (hraw : rawArgument (.plain 0) cs = .argument text n) :
    rawArgument (.plain 0) (cs ++ e.behind) = .argument text n ∧
      (n ≤ cs.length ∨ e.after = none) := by
  cases hafter : e.after with
  | none => exact ⟨by rwa [behind_of_none hafter, append_nil], .inr rfl⟩
  | some behind =>
    have hsame :=
      rawArgument_append_line (u := behind) (s := .plain 0) (h (by simp [hafter])) trivial hraw
    rw [behind_of_some hafter]
    exact ⟨hsame.1, .inl hsame.2⟩

/-- Raw arguments in a frame. -/
theorem mirrors_argumentToken (h : e.after.isSome → EndsPlain c.rest) :
    Mirrors e (c.argumentToken source) ((e.cursor c).argumentToken source') := by
  have hgap : gap 0 false (e.cursor c).rest = gap 0 false c.rest := gap_behind h
  have hhere := cursor_pass (e := e) (.inl (gap_length_le 0 false c.rest))
  have hplain : e.after.isSome → EndsPlain (c.pass (gap 0 false c.rest).length).rest := by
    intro hsome
    have hsplit := take_append_drop (gap 0 false c.rest).length c.rest
    rw [rest_pass]
    exact .of_append (hsplit ▸ h hsome)
  simp only [argumentToken, hgap, hhere]
  generalize c.pass (gap 0 false c.rest).length = here at hplain ⊢
  rw [rest_cursor]
  cases hrest : here.rest with
  | nil =>
    have hfinish := Mirrors.finish (e := e) here .raw
    cases hafter : e.after with
    | none => simpa [behind_of_none hafter, past, hafter, lexeme] using hfinish
    | some text =>
      rw [behind_of_some hafter]
      simp only [nil_append, skip_newline hrest hafter]
      simpa [lexeme, hafter] using hfinish
  | cons ch rest =>
    have hskip : (e.cursor here).skip 1 = e.cursor (here.skip 1) :=
      cursor_skip (.inl (by simp [hrest]))
    by_cases hline : ch = '\n'
    · subst hline
      simp only [cons_append, hskip]
      exact .lexeme (by simp)
    · by_cases hcomma : ch = ','
      · subst hcomma
        simp only [cons_append, hskip]
        exact .lexeme (by simp)
      · -- an argument proper
        simp only [cons_append, cons.injEq, hline, hcomma, false_and, imp_self,
          implies_true]
        rw [← cons_append, ← hrest]
        split
        · next text length hraw =>
          rcases rawArgument_behind hplain hraw with ⟨hsame, hle⟩
          rw [hsame]
          simp only
          rw [cursor_passRaw hle]
          exact .lexeme (by simp)
        · next offset hraw =>
          refine .error fun hnone => ?_
          rw [behind_of_none hnone, append_nil, hraw]
          exact ⟨_, rfl⟩

theorem takeWhile_behind {p : Char → Bool} (hp : p '\n' = false) (cs : List Char) :
    (cs ++ e.behind).takeWhile p = cs.takeWhile p := by
  cases hafter : e.after with
  | none => rw [behind_of_none hafter, append_nil]
  | some text =>
    rw [behind_of_some hafter]
    exact takeWhile_append_bar hp

theorem headIs_behind {p : Char → Bool} (hp : p '\n' = false) (cs : List Char) :
    headIs p (cs ++ e.behind) = headIs p cs := by
  cases hafter : e.after with
  | none => rw [behind_of_none hafter, append_nil]
  | some text =>
    rw [behind_of_some hafter]
    exact headIs_append_bar hp

/-- The start of a body in a frame. -/
theorem bodyStart_cursor (c : Cursor) (source source' : Source) :
    (∃ body, c.bodyStart source = .ok body ∧
      ((e.cursor c).bodyStart source' = .ok (e.cursor body) ∨
        (body.rest = [] ∧ e.after.isSome))) ∨
    (∃ f, c.bodyStart source = .error f ∧
      (e.after = none → ∃ f', (e.cursor c).bodyStart source' = .error f')) := by
  simp only [bodyStart, column_cursor]
  by_cases hcolumn : c.column = 1
  · exact .inl ⟨c, if_pos hcolumn, .inl (if_pos hcolumn)⟩
  · simp only [hcolumn, if_false]
    have hblanks : ((e.cursor c).rest.takeWhile isBlank).length =
        (c.rest.takeWhile isBlank).length :=
      congrArg length (takeWhile_behind (by decide) c.rest)
    have hskip := cursor_skip (e := e) (.inl (length_takeWhile_le (p := isBlank) c.rest))
    rw [hblanks, hskip]
    generalize c.skip (c.rest.takeWhile isBlank).length = here
    have hcomment : headIs (fun ch => ch = ';' || (ch = '*' && (e.cursor here).fresh))
        (e.cursor here).rest = headIs (fun ch => ch = ';' || (ch = '*' && here.fresh)) here.rest :=
      headIs_behind (by simp) here.rest
    have hline : restOfLine (e.cursor here).rest = restOfLine here.rest :=
      takeWhile_behind (by decide) here.rest
    rw [hcomment, hline]
    have hlength : (if headIs (fun ch => ch = ';' || (ch = '*' && here.fresh)) here.rest = true then
        (restOfLine here.rest).length else 0) ≤ here.rest.length := by
      split
      · exact length_takeWhile_le here.rest
      · exact Nat.zero_le _
    rw [cursor_skip (.inl hlength)]
    generalize here.skip _ = there
    rw [rest_cursor]
    split
    · -- the text ends in the line of the word: the body is empty, unless more lines follow
      next hnil =>
      refine .inl ⟨there, rfl, ?_⟩
      cases hafter : e.after with
      | none => simp [behind_of_none hafter, hnil]
      | some text => exact .inr ⟨hnil, rfl⟩
    · next rest hrest =>
      have hstep := cursor_skip (e := e) (c := there) (n := 1) (.inl (by simp [hrest]))
      refine .inl ⟨_, rfl, .inl ?_⟩
      simp only [hrest, cons_append, hstep]
    · next hnil hnewline =>
      refine .inr ⟨_, rfl, ?_⟩
      intro hnone
      rw [behind_of_none hnone, append_nil]
      split
      · next hrest => exact absurd hrest hnil
      · next rest hrest => exact absurd hrest (hnewline rest)
      · exact ⟨_, rfl⟩

theorem blockBody?_behind {closing : String} {opening : Option String} {line : List Char}
    (h : blockBody? closing opening 0 (splitLines cs) = some (n, line)) :
    blockBody? closing opening 0 (splitLines (cs ++ e.behind)) = some (n, line) := by
  cases hafter : e.after with
  | none => rwa [behind_of_none hafter, append_nil]
  | some text =>
    rw [behind_of_some hafter, splitLines_append_line]
    exact blockBody?_append h

/-- Raw blocks in a frame. -/
theorem mirrors_blockToken {closing : String} {opening : Option String}
    (hclosing : dotAbove ∉ closing.toList) :
    Mirrors e (c.blockToken source closing opening)
      ((e.cursor c).blockToken source' closing opening) := by
  unfold blockToken
  rcases bodyStart_cursor (e := e) c source source' with ⟨body, hbody, hsame⟩ | ⟨f, hbody, hfails⟩
  · simp only [hbody]
    cases hblock : blockBody? closing opening 0 (splitLines body.rest) with
    | none =>
      refine .error fun hnone => ?_
      have hstart := hsame.resolve_right (by simp [hnone])
      simp only [hstart, rest_cursor, behind_of_none hnone, append_nil, hblock]
      exact ⟨_, rfl⟩
    | some found =>
      rcases found with ⟨length, line⟩
      -- a block that is closed is closed by a line of the text itself
      rcases hsame with hstart | ⟨hnil, _⟩
      · have hfits := blockBody?_closes hblock
        rw [length_splitLines] at hfits
        have hword := closesBlock_fits hfits.1 hclosing
        have htake : (body.rest ++ e.behind).take length = body.rest.take length :=
          take_append_of_le_length (by omega)
        simp only [hstart, rest_cursor, blockBody?_behind hblock, htake, skip_skip]
        rw [cursor_skip (.inl (by omega))]
        exact .lexeme (by simp)
      · rw [hnil, blockBody?_nil] at hblock
        cases hblock
  · rw [hbody]
    refine .error fun hnone => ?_
    rcases hfails hnone with ⟨f', hf'⟩
    rw [hf']
    exact ⟨f', rfl⟩

/-- In every setting the next token of the larger source is that of the source. -/
theorem mirrors_next {setting : Setting} (hsetting : setting.Plain)
    (h : e.after.isSome → EndsPlain c.rest) :
    Mirrors e (c.next source setting) ((e.cursor c).next source' setting) := by
  unfold Cursor.next
  split
  · exact mirrors_normalToken h
  · split
    · next closing hclosing => exact mirrors_blockToken (hsetting closing hclosing)
    · exact mirrors_argumentToken h

end Frame

end Sm83
