import Sm83.Proofs.State.Relocation
import Sm83.Proofs.Token.Lossless

/-!
# Tokens of joined texts

The tokens of normal mode never depend on another line. When a text whose tokens reach its end is
joined to another one by a newline, its tokens stay as they are, and those of the other text follow
as many lines further down as the first text has.
-/

namespace Sm83

/-- A token some lines further down. -/
def Token.down (k : Nat) (t : Token) : Token :=
  { t with line := t.line + k }

/-- A failure some lines further down. -/
def Failure.down (k : Nat) : Failure → Failure
  | .error e => .error { e with location := e.location.map (Location.down k) }
  | f => f

/-- The failure is an error in the text of a lexeme. -/
def Failure.isLexical : Failure → Bool
  | .error e => e.cause.category == .lexical
  | _ => false

@[simp] theorem Failure.isLexical_down (k : Nat) (f : Failure) :
    (f.down k).isLexical = f.isLexical := by
  cases f with
  | error e => rfl
  | numeral fault => rfl
  | exhausted => rfl

/-- The lines of a source are those of another one, some lines further down. -/
structure Source.Below (k : Nat) (source source' : Source) : Prop where
  file : source'.file = source.file
  line : ∀ n : Nat, 1 ≤ n → source'.line? ((n + k : Nat) : Int) = source.line? n

theorem Source.Below.errorAt {k line : Nat} {source source' : Source} (h : source.Below k source')
    (hline : 1 ≤ line) (column : Nat) (cause : Cause) :
    source'.errorAt (line + k) column cause = (source.errorAt line column cause).down k := by
  simp only [Source.errorAt, Failure.down, Option.map_some, h.file, h.line line hline,
    Location.down]
  rw [Nat.cast_add]

namespace Cursor

/-- A place some lines further down. -/
def down (k : Nat) (c : Cursor) : Cursor :=
  { c with line := c.line + k }

variable {k n : Nat} {c : Cursor}

@[simp] theorem rest_down : (c.down k).rest = c.rest := rfl

@[simp] theorem fresh_down : (c.down k).fresh = c.fresh := rfl

theorem step_down : (c.down k).step = c.step.down k := by
  cases hrest : c.rest with
  | nil => simp [step, down, hrest]
  | cons ch rest =>
    by_cases hline : ch = '\n'
    · simp [step, down, hrest, hline, Nat.add_right_comm]
    · simp [step, down, hrest, hline]

theorem skip_down : (c.down k).skip n = (c.skip n).down k := by
  induction n generalizing c with
  | zero => rfl
  | succ n ih => rw [skip, step_down, ih, skip]

theorem pass_down : (c.down k).pass n = (c.pass n).down k := by
  unfold pass
  rw [skip_down]
  rfl

theorem line_le_pass (n : Nat) (c : Cursor) : c.line ≤ (c.pass n).line :=
  line_le_skip n c

variable {source source' : Source}

theorem normalToken_down (h : source.Below k source') (hc : 1 ≤ c.line) :
    (c.down k).normalToken source' = match c.normalToken source with
      | .ok (t, c') => .ok (t.down k, c'.down k)
      | .error f => .error (f.down k) := by
  have hfault : ∀ n f, (((c.pass (gap 0 c.fresh c.rest).length).skip n).down k).fault source' f =
      (((c.pass (gap 0 c.fresh c.rest).length).skip n).fault source f).down k := by
    intro n f
    have hpass := line_le_pass (gap 0 c.fresh c.rest).length c
    have hskip := line_le_skip n (c.pass (gap 0 c.fresh c.rest).length)
    exact h.errorAt (by omega) _ _
  simp only [normalToken, rest_down, fresh_down, pass_down, skip_down, hfault]
  cases (gap 0 c.fresh c.rest).stray with
  | true => rfl
  | false =>
    cases scan (c.pass (gap 0 c.fresh c.rest).length).rest with
    | lexeme l n => rfl
    | fault f n => rfl
    | numeral f => rfl

theorem line_le_normalToken {c' : Cursor} {t : Token} (h : c.normalToken source = .ok (t, c')) :
    c.line ≤ c'.line := by
  rcases normalToken_eq_ok_iff.mp h with ⟨_, l, n, _, _, rfl⟩
  exact Nat.le_trans (line_le_pass _ c) (line_le_skip n _)

theorem normalTokens_down (h : source.Below k source') (n : Nat) (hc : 1 ≤ c.line) :
    normalTokens source' n (c.down k) =
      ((normalTokens source n c).1.map (Token.down k),
        (normalTokens source n c).2.map (Failure.down k)) := by
  induction n generalizing c with
  | zero => rfl
  | succ n ih =>
    cases hnext : c.normalToken source with
    | error f =>
      simp only [normalTokens, normalToken_down h hc, hnext, List.map_nil, Option.map_some]
    | ok next =>
      rcases next with ⟨t, c'⟩
      have hend : (t.down k).isEnd = t.isEnd := rfl
      have hc' : 1 ≤ c'.line := Nat.le_trans hc (line_le_normalToken hnext)
      simp only [normalTokens, normalToken_down h hc, hnext, hend, ih hc']
      split
      · rfl
      · rfl

theorem normalTokens_more {c' : Cursor} {t : Token} (h : c.normalToken source = .ok (t, c'))
    (ht : t.isEnd = false) :
    normalTokens source (n + 1) c =
      (t :: (normalTokens source n c').1, (normalTokens source n c').2) := by
  simp [normalTokens, h, ht]

theorem normalTokens_enough {m : Nat} (hm : c.rest.length < m) (hn : c.rest.length < n) :
    normalTokens source m c = normalTokens source n c := by
  induction m generalizing c n with
  | zero => omega
  | succ m ih =>
    cases n with
    | zero => omega
    | succ n =>
      cases hnext : c.normalToken source with
      | error f => simp only [normalTokens, hnext]
      | ok next =>
        rcases next with ⟨t, c'⟩
        cases hend : t.isEnd with
        | true => simp only [normalTokens, hnext, hend, if_true]
        | false =>
          have hshorter := normalToken_shortens hnext hend
          rw [normalTokens_more hnext hend, normalTokens_more hnext hend,
            ih (n := n) (by omega) (by omega)]

end Cursor

namespace Cursor

variable {e : Frame} {source source' : Source} {c c' : Cursor} {t : Token} {u : List Char}

theorem normalToken_joined (hafter : e.after = some u) (h : c.normalToken source = .ok (t, c'))
    (source' : Source) :
    (e.cursor c).normalToken source' = .ok (e.token t, e.ahead t c') := by
  have hclosed : (gap 0 c.fresh c.rest).stray = false := by
    rw [← Bool.not_eq_true]
    intro hstray
    simp only [normalToken, hstray, if_true] at h
    cases h
  refine (Frame.mirrors_normalToken_of_gap ?_).token t c' h
  rw [Frame.rest_cursor, Frame.behind_of_some hafter]
  exact gap_append_line (by simp [hclosed]) (Nat.zero_le _)

/-- Behind the tokens of the first text come those of the second. -/
theorem Yields.joined {ts : List Token} {text : List Char} (h : c.Yields source .normal ts)
    (hc : c.In text) (hafter : e.after = some u) (source' : Source) (n : Nat) :
    let behind := Cursor.normalTokens source' n ⟨u, (splitLines text).length + e.lines + 1, 1, true⟩
    Cursor.normalTokens source' (ts.length + n) (e.cursor c) =
      (ts.map e.token ++ behind.1, behind.2) := by
  intro behind
  -- on the tokens of the first text; its end becomes the line feed, behind which the second is read
  induction h with
  | @last c c' t hnext ht =>
    have hjoined := normalToken_joined hafter hnext source'
    have hline : c'.line = (splitLines text).length := by
      rcases (next_step hnext).place text hc with ⟨passed, hpassed, hline⟩
      rw [(next_step hnext).finish ht, List.append_nil] at hpassed
      rw [hline, splitLines_count, hpassed, Nat.add_comm]
    have hnewline : (e.token t).isEnd = false := by
      have heof : t.lexeme = .eof := by simpa [Token.isEnd] using ht
      simp [Token.isEnd, Frame.token, Frame.lexeme, hafter, heof]
    have hahead : e.ahead t c' = ⟨u, (splitLines text).length + e.lines + 1, 1, true⟩ := by
      simp [Frame.ahead, ht, Frame.past, hafter, hline]
    rw [hahead] at hjoined
    rw [List.length_singleton, Nat.add_comm 1 n, normalTokens_more hjoined hnewline]
    rfl
  | @more c c' t ts hnext ht _ ih =>
    have hjoined := normalToken_joined hafter hnext source'
    have hopen : (e.token t).isEnd = false := by
      have hne : t.lexeme ≠ .eof := by simpa [Token.isEnd] using ht
      simp [Token.isEnd, Frame.token, Frame.lexeme_of_ne_eof hne, hne]
    have hahead : e.ahead t c' = e.cursor c' := by simp [Frame.ahead, ht]
    rw [hahead] at hjoined
    rw [List.length_cons, Nat.add_right_comm ts.length 1 n, normalTokens_more hjoined hopen,
      ih ((next_step hnext).place text hc)]
    rfl

end Cursor

theorem map_token_of_endsOnce {e : Frame} {ts : List Token} (hlines : e.lines = 0)
    (hafter : e.after.isSome = true) (h : endsOnce ts = true) :
    ∃ last, ts.getLast? = some last ∧ last.isEnd = true ∧
      ts.map e.token = ts.dropLast ++ [{ last with lexeme := .newline }] := by
  induction ts with
  | nil => cases h
  | cons t ts ih =>
    cases ht : t.isEnd with
    | true =>
      rw [endsOnce_cons_of_isEnd ht] at h
      subst h
      have heof : t.lexeme = .eof := by simpa [Token.isEnd] using ht
      exact ⟨t, rfl, ht, by simp [Frame.token, Frame.lexeme, hafter, heof, hlines]⟩
    | false =>
      rw [endsOnce_cons_of_not_isEnd ht] at h
      rcases ih h with ⟨last, hlast, hend, hmap⟩
      have hne : t.lexeme ≠ .eof := by simpa [Token.isEnd] using ht
      have hsame : e.token t = t := by simp [Frame.token, Frame.lexeme_of_ne_eof hne, hlines]
      have hts : ts ≠ [] := by
        rintro rfl
        cases hlast
      refine ⟨last, ?_, hend, ?_⟩
      · rw [List.getLast?_cons_of_ne_nil hts, hlast]
      · rw [List.map_cons, hmap, hsame, List.dropLast_cons_of_ne_nil hts, List.cons_append]

theorem Source.below_ofText {first second : String} (hfirst : '\r' ∉ first.toList)
    (hsecond : '\r' ∉ second.toList) (file : String) :
    (Source.ofText second file).Below (splitLines first.toList).length
      (Source.ofText (first ++ "\n" ++ second) file) := by
  refine ⟨rfl, ?_⟩
  intro n hn
  have hlines : (Source.ofText (first ++ "\n" ++ second) file).lines =
      (splitLines first.toList).map String.ofList ++ (splitLines second.toList).map
      String.ofList := by
    have hjoined : '\r' ∉ first.toList ++ '\n' :: second.toList := by
      simp only [List.mem_append, List.mem_cons, not_or]
      exact ⟨hfirst, by decide, hsecond⟩
    have htext : (first ++ "\n" ++ second).toList = first.toList ++ '\n' :: second.toList := by simp
    rw [Source.ofText, htext]
    simp only [uniformLineEnds_eq_self hjoined, splitLines_append_line, List.map_append]
  have hindex : ((n + (splitLines first.toList).length : Nat) - 1 : Int).toNat =
      (splitLines first.toList).length + ((n : Int) - 1).toNat := by omega
  have hlines' : (Source.ofText second file).lines = (splitLines second.toList).map
      String.ofList := by
    simp only [Source.ofText, uniformLineEnds_eq_self hsecond]
  rw [Source.line?, Source.line?, if_pos (by omega), if_pos (by omega), hlines, hlines', hindex,
    List.getElem?_append_right (by simp), List.length_map, Nat.add_sub_cancel_left]

/-- The tokens of two texts joined by a newline, the first of which can be read to its end: those of
the first, with a newline for the end, then those of the second further down. Reading fails exactly
where the reading of the second does, and for the same reason. -/
theorem tokens_joined {first second file : String} {ts : List Token} (hfirst : '\r' ∉ first.toList)
    (hsecond : '\r' ∉ second.toList) (h : (Source.ofText first file).tokens = (ts, none)) :
    let whole := (Source.ofText (first ++ "\n" ++ second) file).tokens
    let rest := (Source.ofText second file).tokens
    let lines := (splitLines first.toList).length
    (∃ eof, ts.getLast? = some eof ∧ eof.isEnd = true ∧
      whole.1 = ts.dropLast ++ { eof with lexeme := .newline } :: rest.1.map (Token.down lines)) ∧
    whole.2 = rest.2.map (Failure.down lines) ∧
    (whole.2.any Failure.isLexical = true ↔ rest.2.any Failure.isLexical = true) := by
  intro whole rest lines
  have htext : (Source.ofText (first ++ "\n" ++ second) file).text =
      first.toList ++ '\n' :: second.toList := by
    have hjoined : '\r' ∉ first.toList ++ '\n' :: second.toList := by
      simp only [List.mem_append, List.mem_cons, not_or]
      exact ⟨hfirst, by decide, hsecond⟩
    have hlist : (first ++ "\n" ++ second).toList = first.toList ++ '\n' :: second.toList := by simp
    simp only [Source.ofText, hlist, uniformLineEnds_eq_self hjoined]
  have hfirstText : (Source.ofText first file).text = first.toList := uniformLineEnds_eq_self hfirst
  have hsecondText : (Source.ofText second file).text = second.toList :=
    uniformLineEnds_eq_self hsecond
  have hyields := Cursor.Yields.of_normalTokens h
  -- the whole text is the first one in a frame that has the second behind it
  let e : Frame := ⟨first.toList, file, .fresh false, .fresh false, [], 0, some second.toList⟩
  have hstart : Cursor.start (first.toList ++ '\n' :: second.toList) =
      e.cursor (Cursor.start first.toList) := rfl
  have hlength := hyields.length_le
  rw [hfirstText] at hyields hlength
  have hbelow := Source.below_ofText hfirst hsecond file
  have hwhole : whole =
      (ts.map e.token ++ rest.1.map (Token.down lines), rest.2.map (Failure.down lines)) := by
    obtain ⟨n, hn⟩ : ∃ n, (first.toList ++ '\n' :: second.toList).length + 1 = ts.length + n := by
      apply Nat.exists_eq_add_of_le
      simp only [Cursor.start] at hlength
      simp only [List.length_append, List.length_cons]
      omega
    have henough : second.toList.length < n := by
      simp only [Cursor.start] at hlength
      simp only [List.length_append, List.length_cons] at hn
      omega
    have hplace : (⟨second.toList, lines + e.lines + 1, 1, true⟩ : Cursor) =
        (Cursor.start second.toList).down lines := by
      simp [Cursor.start, Cursor.down, e, Nat.add_comm]
    have hrest : rest = Cursor.normalTokens (Source.ofText second file) n
        (Cursor.start second.toList) := by
      simp only [rest, Source.tokens, hsecondText]
      exact Cursor.normalTokens_enough (by simp [Cursor.start])
        (by simpa [Cursor.start] using henough)
    have hread := hyields.joined (e := e) (u := second.toList) (.start first.toList) rfl
      (Source.ofText (first ++ "\n" ++ second) file) n
    rw [← hn, ← hstart, hplace, Cursor.normalTokens_down hbelow n (by simp [Cursor.start]), ← hrest]
      at hread
    simp only [whole, Source.tokens, htext]
    exact hread
  rcases map_token_of_endsOnce (e := e) rfl rfl hyields.reachesEnd with ⟨eof, hlast, hend, hmap⟩
  refine ⟨⟨eof, hlast, hend, ?_⟩, ?_, ?_⟩
  · rw [hwhole, hmap, List.append_assoc, List.singleton_append]
  · rw [hwhole]
  · rw [hwhole]
    cases rest.2 with
    | none => rfl
    | some f => simp

/-- A continued line with a comment behind it, and a string that is not closed on the line after. -/
theorem tokens_joined_unclosed :
    let first := (Source.ofText "x: \\\n nop ; one" "a").tokens
    let whole := (Source.ofText ("x: \\\n nop ; one" ++ "\n" ++ "db \"y") "a").tokens
    let rest := (Source.ofText "db \"y" "a").tokens
    first.2 = none ∧ (∃ eof, first.1.getLast? = some eof ∧ eof.isEnd = true ∧
      whole.1 = first.1.dropLast ++ { eof with lexeme := .newline } :: rest.1.map (Token.down 2)) ∧
    rest.2.any Failure.isLexical = true ∧ whole.2.any Failure.isLexical = true := by
  intro first whole rest
  have hread : first = (first.1, none) := Prod.ext rfl (by decide +kernel)
  have hplain : '\r' ∉ "db \"y".toList := by decide
  have hjoined := tokens_joined (by decide) hplain hread
  have hfails : rest.2.any Failure.isLexical = true := by decide +kernel
  exact ⟨congrArg Prod.snd hread, hjoined.1, hfails, hjoined.2.2.mpr hfails⟩

end Sm83
