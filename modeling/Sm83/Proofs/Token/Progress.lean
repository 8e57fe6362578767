import Sm83.Proofs.Token.Next

/-!
# Every token takes something off the text

Whatever the reading mode, a token that is not the end of the source leaves less to read than there
was before it: a lexeme is never empty, nor is a raw argument, since the gap before it has passed
any comment, nor a raw block, whose closing word has a character.
-/

namespace Sm83

variable {c : Char}

/-- A lexeme that was found has at least one character. -/
def Scan.Advances : Scan → Prop
  | .lexeme _ length => 0 < length
  | _ => True

namespace Scan.Advances

theorem ite {p : Prop} [Decidable p] {a b : Scan} (ha : p → a.Advances) (hb : ¬p → b.Advances) :
    (if p then a else b).Advances := by
  split
  · exact ha ‹p›
  · exact hb ‹¬p›

theorem scanned (value : Nat) {length : Nat} (h : 0 < length) :
    (scanned value length).Advances :=
  ite (fun _ => h) (fun _ => trivial)

end Scan.Advances

theorem length_takeWhile_pos {p : Char → Bool} (h : p c = true) (rest : List Char) :
    0 < ((c :: rest).takeWhile p).length := by
  simp [h]

theorem isNameChar_of_isNameStart (h : isNameStart c = true) : isNameChar c = true := by
  simp only [isNameStart, isNameChar, Char.isAlphanum, Bool.or_eq_true] at h ⊢
  rcases h with h | h
  · simp [h]
  · simp [h]

theorem advances_scanName (hc : isNameChar c = true) (rest : List Char) :
    (scanName (c :: rest)).Advances := by
  have hpos := length_takeWhile_pos hc rest
  exact .ite (fun _ => hpos) fun _ => .ite (fun _ => hpos) fun _ => hpos

theorem advances_scanDecimal (hc : Text.isDigit c = true) (rest : List Char) :
    (scanDecimal (c :: rest)).Advances := by
  have hpos := length_takeWhile_pos hc rest
  simp only [scanDecimal]
  generalize (c :: rest).takeWhile Text.isDigit = whole at hpos
  split
  · refine .ite (fun _ => ?_) fun _ => ?_
    · -- a dot with no digit after it ends the number before the dot
      split
      · exact .scanned _ hpos
      · trivial
    · split
      · split
        · exact .scanned _ (by omega)
        · trivial
      · trivial
  · split
    · exact .scanned _ hpos
    · trivial

theorem advances_scanRadix (base : Nat) (cs : List Char) : (scanRadix base cs).Advances :=
  .ite (fun _ => trivial) fun _ => .scanned _ (by omega)

theorem advances_scanPixels (cs : List Char) : (scanPixels cs).Advances :=
  .ite (fun _ => trivial) fun _ => .ite (fun _ => trivial) fun _ => .scanned _ (by omega)

theorem advances_scanString (cs : List Char) : (scanString cs).Advances := by
  unfold scanString
  split
  · show 0 < 1 + _
    omega
  · trivial

variable {n : Nat}

/-- An operator has one character or two. -/
theorem scanPunct_cases {cs : List Char} {p : Punct} (h : scanPunct cs = some (p, n)) :
    (∃ c d rest, cs = c :: d :: rest ∧ pairPunct? c (some d) = some p ∧ n = 2) ∨
      (∃ c rest, cs = c :: rest ∧ charPunct? c = some p ∧ n = 1) := by
  cases cs with
  | nil => cases h
  | cons c cs =>
    simp only [scanPunct] at h
    split at h
    · next p hpair =>
      cases h
      cases cs with
      | nil => simp [pairPunct?] at hpair
      | cons d rest => exact .inl ⟨c, d, rest, rfl, hpair, rfl⟩
    · rcases Option.map_eq_some_iff.mp h with ⟨p, hchar, h⟩
      cases h
      exact .inr ⟨c, cs, rfl, hchar, rfl⟩

theorem advances_scan (c : Char) (rest : List Char) : (scan (c :: rest)).Advances := by
  refine .ite (fun _ => Nat.one_pos) fun _ => ?_
  refine .ite (fun h => advances_scanName (isNameChar_of_isNameStart h) rest) fun _ => ?_
  refine .ite (fun h => ?_) fun _ => ?_
  · -- a dot is itself a character of the local name
    subst h
    exact .ite (fun _ => advances_scanName (by decide) rest) fun _ => trivial
  refine .ite (fun h => advances_scanDecimal h rest) fun _ => ?_
  refine .ite (fun _ => advances_scanRadix 16 rest) fun _ => ?_
  refine .ite (fun _ => advances_scanRadix 2 rest) fun _ => ?_
  refine .ite (fun _ => advances_scanRadix 8 rest) fun _ => ?_
  refine .ite (fun _ => advances_scanPixels rest) fun _ => ?_
  refine .ite (fun _ => advances_scanString rest) fun _ => ?_
  split
  · next hpunct =>
    rcases scanPunct_cases hpunct with
      ⟨_, _, _, _, _, rfl⟩ | ⟨_, _, _, _, rfl⟩ <;> exact Nat.succ_pos _
  · trivial

theorem head?_drop_restOfLine (cs : List Char) :
    (cs.drop (restOfLine cs).length).head? ≠ some ';' := by
  induction cs with
  | nil => simp [restOfLine]
  | cons c rest ih =>
    by_cases hc : c = '\n'
    · simp [restOfLine, hc]
    · simpa [restOfLine, hc] using ih

theorem gap_stops (pending : Nat) (fresh : Bool) (cs : List Char) :
    (cs.drop (gap pending fresh cs).length).head? ≠ some ';' := by
  fun_induction gap pending fresh cs with
  | case1 => simp
  | case2 k fresh c rest ih => exact ih
  | case3 fresh c rest hblank ih => exact ih
  | case4 fresh c rest hblank hcomment =>
    rw [Nat.add_comm]
    exact head?_drop_restOfLine rest
  | case5 fresh rest k hcont hb hc ih => exact ih
  | case6 fresh rest hcont hb hc => simp
  | case7 fresh c rest hblank hcomment hslash =>
    intro h
    simp_all

theorem length_append {front text : List Char} {width : Nat} {r : RawScan}
    (h : r.append front width = .argument text n) : width ≤ n := by
  cases r with
  | argument t k =>
    injection h with _ h
    omega
  | unterminated offset => cases h

theorem rawArgument_pos {rest text : List Char} (hline : c ≠ '\n') (hcomment : c ≠ ';')
    (hcomma : c ≠ ',') (h : rawArgument (.plain 0) (c :: rest) = .argument text n) : 0 < n := by
  simp only [rawArgument, hline, hcomment, hcomma, decide_false, Bool.false_and, Bool.or_self,
    Bool.false_eq_true, ↓reduceIte] at h
  split at h
  · split at h
    · exact length_append h
    · exact length_append h
  · exact length_append h

theorem blockBody?_nil (closing : String) (opening : Option String) :
    blockBody? closing opening 0 (splitLines []) = none := by
  simp [splitLines, blockBody?, closesBlock, codeOf, Text.words]

theorem Setting.length_closing?_pos {s : Setting} {word : String} (h : s.closing? = some word) :
    0 < word.length := by
  unfold closing? at h
  split at h
  · split at h
    · cases h
    · cases h
      simp_all [Nat.pos_iff_ne_zero]
  · cases h

namespace Cursor

@[simp] theorem rest_pass (n : Nat) (c : Cursor) : (c.pass n).rest = c.rest.drop n :=
  rest_skip n c

@[simp] theorem rest_passRaw (n : Nat) (c : Cursor) : (c.passRaw n).rest = c.rest.drop n :=
  rest_skip n c

theorem length_skip_lt {c : Cursor} (hn : 0 < n) (hc : c.rest ≠ []) :
    (c.skip n).rest.length < c.rest.length := by
  have := List.length_pos_iff.2 hc
  rw [rest_skip, List.length_drop]
  omega

theorem length_pass_le (n : Nat) (c : Cursor) : (c.pass n).rest.length ≤ c.rest.length := by
  simp

variable {c c' : Cursor} {source : Source} {t : Token}

theorem normalToken_shortens (h : c.normalToken source = .ok (t, c')) (ht : t.isEnd = false) :
    c'.rest.length < c.rest.length := by
  rcases normalToken_eq_ok_iff.mp h with ⟨_, l, n, hscan, rfl, rfl⟩
  have hle := length_pass_le (gap 0 c.fresh c.rest).length c
  generalize c.pass (gap 0 c.fresh c.rest).length = here at hscan ht hle ⊢
  cases hrest : here.rest with
  | nil =>
    -- nothing is left, so the token is the end
    rw [hrest] at hscan
    cases hscan
    cases ht
  | cons ch rest =>
    have hpos := advances_scan ch rest
    rw [← hrest, hscan] at hpos
    have hlt := length_skip_lt hpos (c := here) (by simp [hrest])
    omega

theorem argumentToken_shortens (h : c.argumentToken source = .ok (t, c')) (ht : t.isEnd = false) :
    c'.rest.length < c.rest.length := by
  have hle := length_pass_le (gap 0 false c.rest).length c
  have hstops := gap_stops 0 false c.rest
  rw [← rest_pass] at hstops
  have hat := argumentToken_eq_ok_iff.mp h
  generalize c.pass (gap 0 false c.rest).length = here at hat hle hstops
  cases hat with
  | ended => cases ht
  | line hrest | comma hrest =>
    have hlt := length_skip_lt Nat.one_pos (c := here) (by simp [hrest])
    omega
  | argument hrest hline hcomma hraw =>
    rw [hrest] at hraw hstops
    have hpos := rawArgument_pos hline (by simpa using hstops) hcomma hraw
    have hlt := length_skip_lt hpos (c := here) (by simp [hrest])
    rw [rest_passRaw, ← rest_skip]
    omega

theorem bodyStart_length_le {body : Cursor} (h : c.bodyStart source = .ok body) :
    body.rest.length ≤ c.rest.length := by
  rcases bodyStart_skip h with ⟨n, rfl⟩
  simp

theorem blockToken_shortens {closing : String} {opening : Option String}
    (hclosing : 0 < closing.length) (h : c.blockToken source closing opening = .ok (t, c')) :
    c'.rest.length < c.rest.length := by
  rcases blockToken_eq_ok_iff.mp h with ⟨body, n, line, hbody, hfound, rfl, rfl⟩
  have hle := bodyStart_length_le hbody
  have hne : body.rest ≠ [] := by
    intro hnil
    rw [hnil, blockBody?_nil] at hfound
    cases hfound
  have hlt :=
    length_skip_lt (n := n + ((line.takeWhile isBlank).length + closing.length)) (by omega) hne
  omega

theorem next_shortens {setting : Setting} (h : c.next source setting = .ok (t, c'))
    (ht : t.isEnd = false) : c'.rest.length < c.rest.length := by
  rcases next_cases h with ⟨_, h⟩ | ⟨_, _, h⟩ | ⟨closing, _, hclosing, h⟩
  · exact normalToken_shortens h ht
  · exact argumentToken_shortens h ht
  · exact blockToken_shortens (Setting.length_closing?_pos hclosing) h

end Cursor

end Sm83
