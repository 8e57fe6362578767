import Sm83.Proofs.Token.Form
import Sm83.Proofs.Token.Local

/-!
# Onward through a source

Streams are only ever read onward. The cursor moves towards the end of the text, consumed tokens
stay consumed, and lines are met in order: what has been consumed stands on no later line than what
has been read ahead, and a newline that was read last leaves the cursor at the start of the line
behind it, while a reserved word leaves it within its line.
-/

namespace Sm83

open List

theorem scan_newline {cs : List Char} {n : Nat} (h : scan cs = .lexeme .newline n) :
    (∃ rest, cs = '\n' :: rest) ∧ n = 1 := by
  have hwritten := scan_written h
  generalize htake : cs.take n = written at hwritten
  cases hwritten
  have hn : n = 1 := by
    have hlength := congrArg length htake
    rwa [length_take_of_le (length_le_of_scan h)] at hlength
  subst hn
  cases cs with
  | nil => cases htake
  | cons c rest =>
    cases htake
    exact ⟨⟨rest, rfl⟩, rfl⟩

namespace Cursor

variable {c c₁ : Cursor} {source : Source} {g : Setting} {t : Token}

theorem next_suffix (h : c.next source g = .ok (t, c₁)) : c₁.rest <:+ c.rest := by
  rcases next_cases h with ⟨_, h⟩ | ⟨_, _, h⟩ | ⟨closing, _, _, h⟩
  · rcases normalToken_eq_ok_iff.mp h with ⟨_, l, n, _, _, rfl⟩
    rw [rest_skip, rest_pass]
    exact (drop_suffix ..).trans (drop_suffix ..)
  · cases argumentToken_eq_ok_iff.mp h with
    | ended =>
      rw [rest_pass]
      exact drop_suffix ..
    | line | comma =>
      rw [rest_skip, rest_pass]
      exact (drop_suffix ..).trans (drop_suffix ..)
    | argument =>
      rw [rest_passRaw, rest_pass]
      exact (drop_suffix ..).trans (drop_suffix ..)
  · rcases blockToken_eq_ok_iff.mp h with ⟨body, n, line, hbody, _, _, rfl⟩
    rcases bodyStart_skip hbody with ⟨k, rfl⟩
    rw [rest_skip, rest_skip]
    exact (drop_suffix ..).trans (drop_suffix ..)

/-- The cursor stands at the start of the line behind a newline of the text. -/
structure Opens (text : List Char) (t : Token) (c : Cursor) : Prop where
  line : c.line = t.line + 1
  column : c.column = 1
  fresh : c.fresh = true
  newline : '\n' :: c.rest <:+ text

theorem opens_skip_one {here : Cursor} {rest : List Char} (h : here.rest = '\n' :: rest)
    (mode : Mode) (l : Lexeme) : (here.skip 1).Opens here.rest (here.token mode l) := by
  have hskip : here.skip 1 = ⟨rest, here.line + 1, 1, true⟩ := by simp [skip, step, h]
  rw [hskip]
  exact ⟨rfl, rfl, rfl, h ▸ suffix_rfl⟩

theorem Opens.of_suffix {text text' : List Char} (h : c.Opens text t) (htext : text <:+ text') :
    c.Opens text' t :=
  ⟨h.line, h.column, h.fresh, h.newline.trans htext⟩

/-- Lines are met in order. -/
theorem next_lines (h : c.next source g = .ok (t, c₁)) :
    c.line ≤ t.line ∧ t.line ≤ c₁.line ∧ (t.lexeme = .newline → c₁.Opens c.rest t) := by
  -- only a line feed, in the code or between arguments, opens a line
  rcases next_cases h with ⟨_, h⟩ | ⟨_, _, h⟩ | ⟨closing, _, _, h⟩
  · rcases normalToken_eq_ok_iff.mp h with ⟨_, l, n, hscan, rfl, rfl⟩
    refine ⟨line_le_skip _ c, line_le_skip _ _, ?_⟩
    intro hl
    cases (hl : l = .newline)
    have hsuffix : (c.pass (gap 0 c.fresh c.rest).length).rest <:+ c.rest := by
      rw [rest_pass]
      exact drop_suffix ..
    generalize c.pass (gap 0 c.fresh c.rest).length = here at hscan hsuffix ⊢
    rcases scan_newline hscan with ⟨⟨rest, hrest⟩, rfl⟩
    exact (opens_skip_one hrest .normal _).of_suffix hsuffix
  · have hsuffix : (c.pass (gap 0 false c.rest).length).rest <:+ c.rest := by
      rw [rest_pass]
      exact drop_suffix ..
    have hline : c.line ≤ (c.pass (gap 0 false c.rest).length).line := line_le_skip _ c
    cases argumentToken_eq_ok_iff.mp h with
    | ended =>
      refine ⟨hline, Nat.le_refl _, ?_⟩
      intro hl
      cases hl
    | line hrest =>
      exact ⟨hline, line_le_skip _ _, fun _ => (opens_skip_one hrest .raw _).of_suffix hsuffix⟩
    | comma =>
      refine ⟨hline, line_le_skip _ _, ?_⟩
      intro hl
      cases hl
    | argument =>
      refine ⟨hline, line_le_skip _ _, ?_⟩
      intro hl
      cases hl
  · rcases blockToken_eq_ok_iff.mp h with ⟨body, n, line, hbody, _, rfl, rfl⟩
    rcases bodyStart_skip hbody with ⟨k, rfl⟩
    refine ⟨line_le_skip _ c, line_le_skip _ _, ?_⟩
    intro hl
    cases hl

theorem column_pos_skip (n : Nat) (hc : 0 < c.column) : 0 < (c.skip n).column := by
  induction n generalizing c with
  | zero => exact hc
  | succ n ih =>
    apply ih
    unfold step
    split
    · exact hc
    · split
      · exact Nat.one_pos
      · exact Nat.succ_pos _

theorem next_column (h : c.next source g = .ok (t, c₁)) (hc : 0 < c.column) :
    0 < c₁.column ∧ ∀ w, t.lexeme = .keyword w → c₁.column ≠ 1 ∧ c₁.line = t.line := by
  rcases next_cases h with ⟨_, h⟩ | ⟨_, _, h⟩ | ⟨closing, _, _, h⟩
  · rcases normalToken_eq_ok_iff.mp h with ⟨_, l, n, hscan, rfl, rfl⟩
    have hhere : 0 < (c.pass (gap 0 c.fresh c.rest).length).column := column_pos_skip _ hc
    generalize c.pass (gap 0 c.fresh c.rest).length = here at hscan hhere ⊢
    refine ⟨column_pos_skip n hhere, ?_⟩
    rintro w (rfl : l = .keyword w)
    have hwritten := scan_written hscan
    generalize htake : here.rest.take n = written at hwritten
    have hlength : written.length = n := by
      rw [← htake, length_take_of_le (length_le_of_scan hscan)]
    cases hwritten with
    | keyword chars reserved =>
      have hline : '\n' ∉ written := fun hmem => absurd (chars _ hmem) (by decide)
      have hsplit : here.rest = written ++ here.rest.drop n := by
        rw [← htake, take_append_drop]
      rw [← hlength, skip_within hsplit hline]
      refine ⟨?_, rfl⟩
      show here.column + written.length ≠ 1
      have hpos : 0 < written.length := by
        cases written with
        | nil => cases reserved
        | cons ch written => exact Nat.succ_pos _
      omega
  · have hhere : 0 < (c.pass (gap 0 false c.rest).length).column := column_pos_skip _ hc
    cases argumentToken_eq_ok_iff.mp h with
    | ended => exact ⟨hhere, fun w hw => (by cases hw)⟩
    | line => exact ⟨column_pos_skip 1 hhere, fun w hw => (by cases hw)⟩
    | comma => exact ⟨column_pos_skip 1 hhere, fun w hw => (by cases hw)⟩
    | argument => exact ⟨column_pos_skip _ hhere, fun w hw => (by cases hw)⟩
  · rcases blockToken_eq_ok_iff.mp h with ⟨body, n, line, hbody, _, rfl, rfl⟩
    rcases bodyStart_skip hbody with ⟨k, rfl⟩
    exact ⟨column_pos_skip _ (column_pos_skip k hc), fun w hw => (by cases hw)⟩

end Cursor

namespace Stream

/-- The number of tokens that have been consumed, the end of the source not counted. -/
def taken (s : Stream) : Nat :=
  s.history.countP fun
    | .consumed _ t => !t.isEnd
    | .asked _ _ => false

/-- The token that was read last. -/
def latest? (s : Stream) : Option Token :=
  s.buffer.getLast? <|> s.previous

/-- The line of the next token, as far as it is known. -/
def here (s : Stream) : Nat :=
  match s.buffer with
  | t :: _ => t.line
  | [] => s.cursor.line

/-- The line of the token that was consumed last. -/
def passed (s : Stream) : Nat :=
  (s.previous.map Token.line).getD 0

/-- The lines of a stream are in order. -/
structure Ordered (s : Stream) : Prop where
  place : s.cursor.In s.source.text
  sorted : s.buffer.Pairwise fun t t' => t.line ≤ t'.line
  below : ∀ t ∈ s.buffer, t.line ≤ s.cursor.line
  behind : s.passed ≤ s.here
  opens : ∀ t, s.latest? = some t → t.lexeme = .newline → s.cursor.Opens s.source.text t
  column : 0 < s.cursor.column
  within : ∀ t w, s.latest? = some t → t.lexeme = .keyword w → s.cursor.column ≠ 1 ∧
    s.cursor.line = t.line

theorem ordered_ofSource (source : Source) : (ofSource source).Ordered := by
  refine ⟨.start _, .nil, ?_, Nat.zero_le _, ?_, Nat.one_pos, ?_⟩
  · intro t ht
    cases ht
  · intro t ht
    cases ht
  · intro t w ht
    cases ht

theorem latest?_consume {s : Stream} {t : Token} {rest : List Token}
    (hbuffer : s.buffer = t :: rest) (role : Role) :
    (s.consume role t rest).latest? = s.latest? := by
  unfold latest? consume
  rw [hbuffer]
  cases t.isEnd with
  | true => rw [if_pos rfl, getLast?_cons]; rfl
  | false =>
    cases rest with
    | nil => rfl
    | cons next more => rw [if_neg (by simp), getLast?_cons_cons, getLast?_cons]; rfl

/-- The second stream has been read further than the first. -/
structure Onward (s s' : Stream) : Prop where
  source : s'.source = s.source
  rest : s'.cursor.rest.length ≤ s.cursor.rest.length
  fresh : s'.cursor.rest.length = s.cursor.rest.length → s'.cursor.fresh = true →
    s.cursor.fresh = true
  history : s.history <:+ s'.history
  ordered : s.Ordered → s'.Ordered ∧ s.here ≤ s'.here ∧ s.passed ≤ s'.passed

namespace Onward

variable {s s' s'' : Stream} {t : Token} {c : Cursor} {u : List Char}

theorem refl (s : Stream) : s.Onward s :=
  ⟨rfl, Nat.le_refl _, fun _ h => h, suffix_rfl, fun h => ⟨h, Nat.le_refl _, Nat.le_refl _⟩⟩

theorem trans (h : s.Onward s') (h' : s'.Onward s'') : s.Onward s'' := by
  refine ⟨h'.source.trans h.source, Nat.le_trans h'.rest h.rest, ?_, h.history.trans h'.history, ?_⟩
  · intro hlength hfresh
    have hrest := h.rest
    have hrest' := h'.rest
    exact h.fresh (by omega) (h'.fresh (by omega) hfresh)
  · intro hs
    rcases h.ordered hs with ⟨hs', hhere, hpassed⟩
    rcases h'.ordered hs' with ⟨hs'', hhere', hpassed'⟩
    exact ⟨hs'', Nat.le_trans hhere hhere', Nat.le_trans hpassed hpassed'⟩

theorem taken (h : s.Onward s') : s.taken ≤ s'.taken :=
  h.history.sublist.countP_le

theorem within (h : s.Onward s') (hwithin : s'.cursor.Within u) : s.cursor.Within u := by
  have hrest := h.rest
  rcases hwithin with hnil | hlt | ⟨heq, hfresh⟩
  · exact .inl hnil
  · exact .inr (.inl (by omega))
  · by_cases hsame : s'.cursor.rest.length = s.cursor.rest.length
    · exact .inr (.inr ⟨by omega, h.fresh hsame hfresh⟩)
    · exact .inr (.inl (by omega))

theorem of_read (hnext : s.cursor.next s.source s.register.commit.current = .ok (t, c)) :
    s.Onward (s.read t c) := by
  have hsuffix := Cursor.next_suffix hnext
  rcases Cursor.next_lines hnext with ⟨hbefore, hafter, hopens⟩
  refine ⟨rfl, hsuffix.length_le, ?_, suffix_rfl, ?_⟩
  · intro hlength hfresh
    rcases Cursor.next_onward hnext with hshorter | ⟨_, _, hkept⟩
    · exact absurd hlength (Nat.ne_of_lt hshorter)
    · exact hkept hfresh
  · intro hs
    -- reading ahead moves the place of the first token not consumed only if there was none
    have hhere : s.here ≤ (s.read t c).here := by
      unfold here read
      cases hbuffer : s.buffer with
      | nil => exact hbefore
      | cons first rest => exact Nat.le_refl _
    rcases Cursor.next_column hnext hs.column with ⟨hcolumn, hkeyword⟩
    refine ⟨⟨(Cursor.next_step hnext).place _ hs.place, ?_, ?_, ?_, ?_, hcolumn, ?_⟩, hhere,
      Nat.le_refl _⟩
    · refine pairwise_append.mpr ⟨hs.sorted, pairwise_singleton _ _, ?_⟩
      intro t' ht' t'' ht''
      rw [mem_singleton.mp ht'']
      exact Nat.le_trans (hs.below t' ht') hbefore
    · refine forall_mem_append.mpr ⟨?_, forall_mem_singleton.mpr hafter⟩
      intro t' ht'
      exact Nat.le_trans (hs.below t' ht') (Nat.le_trans hbefore hafter)
    · exact Nat.le_trans hs.behind hhere
    · intro t' ht' hl
      have hlatest : t = t' := by simpa [latest?, read] using ht'
      subst hlatest
      exact (hopens hl).of_suffix hs.place.suffix
    · intro t' w ht' hl
      have hlatest : t = t' := by simpa [latest?, read] using ht'
      subst hlatest
      exact hkeyword w hl

/-- Consuming a token moves the stream on. -/
theorem of_consume {rest : List Token} (role : Role) (hbuffer : s.buffer = t :: rest) :
    s.Onward (s.consume role t rest) := by
  refine ⟨rfl, Nat.le_refl _, fun _ h => h, suffix_cons _ _, ?_⟩
  intro hs
  have hsorted := hs.sorted
  have hbelow := hs.below
  have hbehind := hs.behind
  have hlatest := latest?_consume hbuffer role
  have hhere : s.here = t.line := by simp [here, hbuffer]
  rw [hbuffer] at hsorted hbelow
  rw [hhere] at hbehind
  have hpassed : (s.consume role t rest).passed = t.line := rfl
  rcases pairwise_cons.mp hsorted with ⟨hfirst, hrest⟩
  cases ht : t.isEnd with
  | true =>
    -- the end stays where it is
    have hsame : (s.consume role t rest).buffer = s.buffer := by simp [consume, ht]
    have hhere' : (s.consume role t rest).here = t.line := by simp [here, hsame, hbuffer]
    refine ⟨⟨hs.place, ?_, ?_, ?_, ?_, hs.column, ?_⟩, ?_, ?_⟩
    · rw [hsame]
      exact hs.sorted
    · rw [hsame]
      exact hs.below
    · rw [hpassed, hhere']
    · rw [hlatest]
      exact hs.opens
    · rw [hlatest]
      exact hs.within
    · rw [hhere, hhere']
    · rw [hpassed]
      exact hbehind
  | false =>
    have hleft : (s.consume role t rest).buffer = rest := by simp [consume, ht]
    have hhere' : t.line ≤ (s.consume role t rest).here := by
      unfold here
      rw [hleft]
      cases hcases : rest with
      | nil => exact hbelow t mem_cons_self
      | cons next more => exact hfirst next (by simp [hcases])
    refine ⟨⟨hs.place, ?_, ?_, ?_, ?_, hs.column, ?_⟩, ?_, ?_⟩
    · rw [hleft]
      exact hrest
    · rw [hleft]
      intro t' ht'
      exact hbelow t' (mem_cons_of_mem _ ht')
    · rw [hpassed]
      exact hhere'
    · rw [hlatest]
      exact hs.opens
    · rw [hlatest]
      exact hs.within
    · rw [hhere]
      exact hhere'
    · rw [hpassed]
      exact hbehind

theorem of_request (s : Stream) (g : Setting) : s.Onward (s.request g) := by
  refine ⟨rfl, Nat.le_refl _, fun _ h => h, suffix_cons _ _, ?_⟩
  intro hs
  exact ⟨⟨hs.place, hs.sorted, hs.below, hs.behind, hs.opens, hs.column, hs.within⟩, Nat.le_refl _,
    Nat.le_refl _⟩

end Onward

theorem taken_consume (s : Stream) (role : Role) {t : Token} (ht : t.isEnd = false)
    (rest : List Token) : (s.consume role t rest).taken = s.taken + 1 := by
  simp [taken, consume, ht]

end Stream

end Sm83
