import Sm83.Proofs.Run.Equate

/-!
# The layout of a definition

Whether a name is being defined is decided before the definer behind it is read, by looking at the
characters that come next. Any blanks may stand there, and the line then defines the same as with
one blank. If there is no blank, or a continuation among them, the line is a call of a macro.
-/

namespace Sm83

open Outcome

/-! ## The same lexemes at other places -/

namespace Cursor

variable {c c' c₁ : Cursor} {source : Source} {t : Token} {ts : List Token}

/-- The same text is left to read at both places. -/
def Beside (c c' : Cursor) : Prop :=
  c'.rest = c.rest ∧ c'.fresh = c.fresh

theorem Beside.skip (h : Beside c c') (n : Nat) : Beside (c.skip n) (c'.skip n) := by
  induction n generalizing c c' with
  | zero => exact h
  | succ n ih =>
    apply ih
    unfold Beside step
    rw [h.1, h.2]
    split
    · exact h
    · split
      · exact ⟨rfl, rfl⟩
      · exact ⟨rfl, rfl⟩

theorem Beside.pass (h : Beside c c') (n : Nat) : Beside (c.pass n) (c'.pass n) :=
  ⟨(h.skip n).1, by simp [Cursor.pass, h.1, h.2]⟩

theorem Beside.next (h : Beside c c') (ht : c.next source .normal = .ok (t, c₁))
    (source' : Source) :
    ∃ t' c₁', c'.next source' .normal = .ok (t', c₁') ∧ t'.lexeme = t.lexeme ∧ Beside c₁ c₁' := by
  rcases normalToken_eq_ok_iff.mp ht with ⟨hstray, l, n, hscan, rfl, rfl⟩
  have hpass := h.pass (gap 0 c.fresh c.rest).length
  refine ⟨(c'.pass (gap 0 c.fresh c.rest).length).token .normal l, _, normalToken_eq_ok_iff.mpr ?_,
    rfl, hpass.skip n⟩
  rw [h.1, h.2]
  exact ⟨hstray, l, n, hpass.1 ▸ hscan, rfl, rfl⟩

end Cursor

namespace Stream

/-- The same lexemes come next in both streams, and the first has less than `m` left to be consumed.
-/
structure Beside (m : Nat) (s s' : Stream) : Prop where
  cursor : s.cursor.Beside s'.cursor
  normal : s.register.commit.current = .normal ∧ s'.register.commit.current = .normal
  buffer : s'.buffer.map Token.lexeme = s.buffer.map Token.lexeme
  left : s.left < m

namespace Beside

variable {m : Nat} {s s' u : Stream} {t : Token}

theorem read {t' : Token} {c c' : Cursor} (h : Beside m s s') (ht : t'.lexeme = t.lexeme)
    (hc : c.Beside c') (hnext : s.cursor.next s.source s.register.commit.current = .ok (t, c)) :
    Beside m (s.read t c) (s'.read t' c') := by
  refine ⟨hc, ?_, ?_, Nat.lt_of_le_of_lt (left_read hnext) h.left⟩
  · show s.register.commit.commit.current = _ ∧ s'.register.commit.commit.current = _
    rw [Register.commit_commit, Register.commit_commit]
    exact h.normal
  · simp [Stream.read, h.buffer, ht]

theorem peek (h : Beside m s s') (hpeek : Reading.peek s = .ok t u) :
    ∃ t' u', Reading.peek s' = .ok t' u' ∧
    t'.lexeme = t.lexeme ∧ Beside m u u' ∧ ∃ rest, u.buffer = t :: rest := by
  cases hbuffer : s.buffer with
  | cons b rest =>
    rcases List.map_eq_cons_iff.mp (h.buffer.trans (by rw [hbuffer]; rfl)) with
      ⟨b', rest', hbuffer', hb, _⟩
    cases (Reading.peek_buffered hbuffer).symm.trans hpeek
    exact ⟨b', s', Reading.peek_buffered hbuffer', hb, h, rest, hbuffer⟩
  | nil =>
    have hbuffer' : s'.buffer = [] := by simpa [hbuffer] using h.buffer
    cases hnext : s.cursor.next s.source s.register.commit.current with
    | error f =>
      rcases Reading.peek_error hbuffer hnext with ⟨v, herror⟩
      cases herror.symm.trans hpeek
    | ok p =>
      rcases p with ⟨b, c⟩
      cases (Reading.peek_fresh hbuffer hnext).symm.trans hpeek
      rw [h.normal.1] at hnext
      rcases h.cursor.next hnext s'.source with ⟨t', c', hnext', ht, hc⟩
      rw [← h.normal.2] at hnext'
      rw [← h.normal.1] at hnext
      have hread := h.read ht hc hnext
      simp only [Stream.read, hbuffer, hbuffer'] at hread
      exact ⟨t', _, Reading.peek_fresh hbuffer' hnext', ht, hread, [], rfl⟩

theorem advance {rest : List Token} (h : Beside m s s') (hbuffer : s.buffer = t :: rest)
    (ht : t.isEnd = false) :
    ∃ t' u', Reading.advance s' = .ok t' u' ∧ Beside (m - 1) (s.consume .code t rest) u' := by
  rcases List.map_eq_cons_iff.mp (h.buffer.trans (by rw [hbuffer]; rfl)) with
    ⟨t', rest', hbuffer', hl, hrest⟩
  have ht' : t'.isEnd = false := by simpa [Token.isEnd, hl] using ht
  refine ⟨t', _, Reading.advanceAs_buffered .code hbuffer', h.cursor, h.normal, ?_, ?_⟩
  · simpa [Stream.consume, ht, ht'] using hrest
  · have hleft := left_consume hbuffer ht .code
    have hbefore := h.left
    omega

end Beside

/-- Two streams with the same lexemes. Nothing is said of where the first fails. -/
def alike : Tandem where
  lenient := True
  fails _ _ := True
  token t t' := t'.lexeme = t.lexeme
  before := Beside
  seen m t s s' := Beside m s s' ∧ ∃ rest, s.buffer = t :: rest
  lexeme := .inl
  peek := .of_imp fun _ _ _ _ h hpeek => h.peek hpeek
  advance ht := .of_imp fun s _ t u h hadvance => by
    rcases h with ⟨h, rest, hbuffer⟩
    rcases h.advance hbuffer ht with ⟨t', u', hadvance', hu⟩
    cases (Reading.advanceAs_buffered .code hbuffer).symm.trans hadvance
    exact ⟨t', u', hadvance', trivial, hu⟩
  forget h := h.1
  mono hm h := ⟨h.cursor, h.normal, h.buffer, Nat.lt_of_lt_of_le h.left hm⟩
  pos h := Nat.lt_of_le_of_lt (Nat.zero_le _) h.left
  refuse _ _ := trivial
  enough {_ s s'} h := by
    have hlength : s'.buffer.length = s.buffer.length := by
      simpa using congrArg List.length h.buffer
    have hfilter := List.length_filter_le (fun t : Token => !t.isEnd) s.buffer
    have hbound : s.left + 1 < s.bound := by unfold left bound; omega
    have hsame : s'.bound = s.bound := by rw [bound, bound, h.cursor.1, hlength]
    exact ⟨_, h.left, ⟨h.cursor, h.normal, h.buffer, Nat.lt_succ_self _⟩, hbound, hsame ▸ hbound⟩

end Stream

/-! ## Names and definers -/

/-- What separates two tokens of a line: blanks and continuations. -/
inductive Separation : List Char → Prop
  | nil : Separation []
  | blank {c : Char} {cs : List Char} (hc : isBlank c = true) (h : Separation cs) :
      Separation (c :: cs)
  | continuation {blanks comment cs : List Char} (hblanks : ∀ c ∈ blanks, isBlank c = true)
      (hcomment : comment = [] ∨ ∃ body, comment = ';' :: body ∧ '\n' ∉ body) (h : Separation cs) :
    Separation ('\\' :: (blanks ++ comment ++ '\n' :: cs))

/-- A text starts with a definer: an equals sign that stands alone, or a word in any letter case. -/
inductive Definer.Leads : Definer → List Char → Prop
  | equals {rest : List Char} (h : headIs (· = '=') rest = false) : Leads .assign ('=' :: rest)
  | word {d : Definer} {w : String} {rest : List Char} (hd : d ∈ Definer.words)
      (hstart : headIs isNameStart w.toList = true) (hchars : ∀ c ∈ w.toList, isNameChar c = true)
      (hw : lowerName w.toList = d.word) (hrest : headIs isNameChar rest = false) :
        Leads d (w.toList ++ rest)

section

variable {d : Definer} {name : String} {sep cs rest : List Char} {c : Cursor} {source : Source}

theorem Definer.Leads.scan (h : d.Leads cs) :
    ∃ ch rest l n, cs = ch :: rest ∧ startsLexeme ch = true ∧
    Sm83.scan cs = .lexeme l n ∧ Step.definer? l = some d := by
  cases h with
  | @equals rest h =>
    refine ⟨'=', rest, .punct .equals, 1, rfl, by decide, ?_, rfl⟩
    have hpunct : scanPunct ('=' :: rest) = some (.equals, 1) := by
      cases rest with
      | nil => rfl
      | cons c rest =>
        have hc : c ≠ '=' := by simpa [headIs] using h
        simp [scanPunct, pairPunct?, charPunct?, hc]
    rw [Sm83.scan, hpunct]
    rfl
  | @word _ w rest hd hstart hchars hw hrest =>
    have hall : ∀ d ∈ Definer.words, Keyword.isReserved d.word = true := by decide
    have hscan := scan_word hstart hchars hrest
    rw [hw, hall d hd] at hscan
    rcases headIs_iff.mp hstart with ⟨ch, cs, hcs, hch⟩
    exact ⟨ch, cs ++ rest, _,
      _, by rw [hcs]; rfl, startsLexeme_of_isNameStart hch, hscan, Step.definer?_word d hd⟩

theorem isNameChar_of_isBlank {b : Char} (hb : isBlank b = true) : isNameChar b = false := by
  simp only [isBlank, Bool.or_eq_true, decide_eq_true_eq] at hb
  rcases hb with rfl | rfl <;> rfl

theorem declares_blanks (hne : sep ≠ []) (hsep : ∀ c ∈ sep, isBlank c = true) (cs : List Char) :
    declares (sep ++ cs) = declares (' ' :: cs) := by
  cases sep with
  | nil => exact absurd rfl hne
  | cons b sep =>
    have hb : isBlank b = true := hsep b (by simp)
    have hcolon : b ≠ ':' := by
      rintro rfl
      cases hb
    have hdrop : (b :: (sep ++ cs)).dropWhile isBlank = cs.dropWhile isBlank :=
      List.dropWhile_append_of_pos hsep
    have hdrop' : (' ' :: cs).dropWhile isBlank = cs.dropWhile isBlank :=
      List.dropWhile_cons_of_pos rfl
    simp only [declares, List.cons_append, hb, hdrop, hdrop', if_true]
    rfl

theorem declares_blank_cons {ch : Char} (hblank : isBlank ch = false) (hequals : ch ≠ '=') :
    declares (' ' :: ch :: rest) = definesName (lowerName ((ch :: rest).takeWhile isNameChar)) := by
  have hdrop : (' ' :: ch :: rest).dropWhile isBlank = ch :: rest := by
    rw [List.dropWhile_cons_of_pos rfl, List.dropWhile_cons_of_neg (by simp [hblank])]
  unfold declares
  split
  · next heq => exact absurd (List.cons.inj heq).1 (by decide)
  · next heq =>
    cases heq
    rw [if_pos (show isBlank ' ' = true from rfl), hdrop]
    split
    · next heq => exact absurd (List.cons.inj heq).1 hequals
    · next heq => exact absurd (List.cons.inj heq).1 hequals
    · rfl
  · next heq => cases heq

theorem Definer.Leads.declares (h : d.Leads cs) : Sm83.declares (' ' :: cs) = true := by
  cases h with
  | @equals rest h =>
    cases rest with
    | nil => rfl
    | cons c rest =>
      have hc : c ≠ '=' := by simpa [headIs] using h
      simp [Sm83.declares, isBlank, hc]
  | @word _ w rest hd hstart hchars hw hrest =>
    have hall : ∀ d ∈ Definer.words, definesName d.word = true := by decide
    have htake := takeWhile_append_eq hchars hrest
    rcases headIs_iff.mp hstart with ⟨ch, cs, hcs, hch⟩
    have hequals : ch ≠ '=' := by
      rintro rfl
      cases hch
    rw [hcs] at htake hw ⊢
    rw [List.cons_append, declares_blank_cons (isBlank_of_isNameStart hch) hequals,
      ← List.cons_append, htake, hw]
    exact hall d hd

theorem Separation.cases (h : Separation sep) : (∀ c ∈ sep, isBlank c = true) ∨
    ∃ blanks more, sep = blanks ++ '\\' :: more ∧ ∀ c ∈ blanks, isBlank c = true := by
  induction h with
  | nil => exact .inl (by simp)
  | blank hc _ ih =>
    rcases ih with hall | ⟨blanks, more, rfl, hall⟩
    · exact .inl (List.forall_mem_cons.mpr ⟨hc, hall⟩)
    · exact .inr ⟨_ :: blanks, more, rfl, List.forall_mem_cons.mpr ⟨hc, hall⟩⟩
  | continuation => exact .inr ⟨[], _, rfl, by simp⟩

theorem Separation.not_declares (h : Separation sep) (hleads : d.Leads cs)
    (hnone : sep = [] → d = .assign) (hsep : ¬ (sep ≠ [] ∧ ∀ c ∈ sep, isBlank c = true)) :
    headIs isNameChar (sep ++ cs) = false ∧ declares (sep ++ cs) = false := by
  rcases h.cases with hall | ⟨blanks, more, rfl, hall⟩
  · obtain rfl : sep = [] := by
      by_contra hne
      exact hsep ⟨hne, hall⟩
    cases hleads with
    | equals => exact ⟨rfl, rfl⟩
    | word hd => simp [hnone rfl, Definer.words] at hd
  · cases blanks with
    | nil => exact ⟨rfl, rfl⟩
    | cons b blanks =>
      refine ⟨by simpa [headIs] using isNameChar_of_isBlank (hall b (by simp)), ?_⟩
      rw [List.append_assoc, declares_blanks (by simp) hall]
      exact declares_blank_cons rfl (by decide)

theorem Cursor.normalToken_name (source : Source) (hname : isGlobalName name = true)
    (hrest : headIs isNameChar rest = false) (hc : c.rest = name.toList ++ rest) :
    c.normalToken source =
      .ok (c.token .normal (if declares rest then .label name else .name name),
        c.skip name.toList.length) := by
  rcases parts_of_isGlobalName hname with ⟨hstart, hchars, hfree⟩
  have hscan := scan_word hstart hchars hrest
  rw [hfree, if_neg (by simp)] at hscan
  rcases headIs_iff.mp hstart with ⟨ch, cs, hcs, hch⟩
  rw [hcs] at hscan hc ⊢
  refine normalToken_lexeme source hc (startsLexeme_of_isNameStart hch) ?_ hscan
  rintro _ rfl
  cases hch

theorem Cursor.next_blanks (source : Source) (hsep : ∀ c ∈ sep, isBlank c = true)
    (hc : c.rest = sep ++ cs) : c.next source .normal = (c.skip sep.length).next source .normal ∧
      (c.skip sep.length).fresh = c.fresh := by
  induction sep generalizing c with
  | nil => exact ⟨rfl, rfl⟩
  | cons b sep ih =>
    have hb : isBlank b = true := hsep b (by simp)
    have hstep := step_blank hb hc
    rcases ih (c := c.step) (fun d hd => hsep d (List.mem_cons_of_mem _ hd))
      (by rw [hstep]; rfl) with ⟨hnext, hfresh⟩
    refine ⟨(normalToken_blank hb hc).trans hnext, hfresh.trans ?_⟩
    rw [hstep]

theorem Definer.Leads.heads (h : d.Leads cs) (hname : isGlobalName name = true) (hne : sep ≠ [])
    (hsep : ∀ c ∈ sep, isBlank c = true) (htext : source.text = name.toList ++ (sep ++ cs))
    {r : Run} (hr : r.stream = .ofSource source) : ∃ c : Cursor, c.rest = cs ∧ c.fresh = false ∧
      ∀ word c', c.next source .normal = .ok (word, c') → Step.definer? word.lexeme = some d →
        ∃ l g, Step.Heads d name ⟨.label name, 1, 1, .normal⟩ l r g ∧
          Step.Rests source c' [] g := by
  have hhead : headIs isNameChar (sep ++ cs) = false := by
    rcases List.exists_cons_of_ne_nil hne with ⟨b, bs, rfl⟩
    simpa [headIs] using isNameChar_of_isBlank (hsep b (by simp))
  have hfirst := Cursor.normalToken_name source hname hhead (c := .start source.text) htext
  rw [declares_blanks hne hsep, h.declares, if_pos rfl] at hfirst
  have hrest : ((Cursor.start source.text).skip name.toList.length).rest = sep ++ cs := by
    simp [Cursor.start, htext]
  rcases Cursor.next_blanks source hsep hrest with ⟨hnext, hfresh⟩
  refine ⟨_, by rw [Cursor.rest_skip, hrest, List.drop_left], hfresh.trans ?_, ?_⟩
  · rcases parts_of_isGlobalName hname with ⟨hstart, hchars, _⟩
    rcases headIs_iff.mp hstart with ⟨ch, cs, hcs, hch⟩
    rw [Cursor.skip_within htext fun hmem => (ne_lineEnd_of_isNameChar (hchars _ hmem)).1 rfl]
    simp [hcs, isBlank_of_isNameStart hch]
  · intro word c' hword hd
    have hrests : Step.Rests source (.start source.text) [] r := by
      constructor <;> rw [hr] <;> rfl
    exact Step.Heads.of_rests hrests hfirst rfl (hnext.trans hword) hd

end

/-! ## Steps on the same lexemes -/

/-- The runs are in the same state, and the same lexemes are left to read. -/
structure Run.Beside (r r' : Run) : Prop where
  state : r'.state = r.state
  stream : ∃ m, r.stream.Beside m r'.stream

theorem Run.Beside.peek {r r' u : Run} {t : Token} (h : r.Beside r')
    (hpeek : Step.peek r = .ok t u) :
    ∃ t' u', Step.peek r' = .ok t' u' ∧ t'.lexeme = t.lexeme ∧ u.Beside u' ∧ ∃ rest,
      u.stream.buffer = t :: rest := by
  rcases h.stream with ⟨m, hstream⟩
  rcases hstream.peek (Step.reading_eq_ok hpeek) with ⟨t', s', hs', ht, hbeside, hbuffer⟩
  have hstate := h.state.trans (Step.state_of_reading hpeek).symm
  exact ⟨t', _, Step.reading_of_ok hs', ht, ⟨hstate, m, hbeside⟩, hbuffer⟩

namespace Step

variable {α β : Type} {r r' u g g' w : Run} {t : Token} {l : Location} {definer : Definer}
  {name : String}

/-- What one step returns, the other does where the same lexemes are left, and so it is behind them.
-/
def Echoes (x y : Step α) : Prop :=
  ∀ r r' a u, r.Beside r' → x r = .ok a u → ∃ u', y r' = .ok a u' ∧ u.Beside u'

namespace Echoes

variable {x x' : Step α} {k k' : α → Step β}

theorem pure (a : α) : Echoes (pure a) (pure a) := by
  rintro r r' b u h ⟨⟩
  exact ⟨r', rfl, h⟩

theorem bind (hx : Echoes x x') (hk : ∀ a, Echoes (k a) (k' a)) : Echoes (x >>= k) (x' >>= k') := by
  intro r r' b u h hb
  rcases of_bind hb with ⟨a, r₁, ha, hb⟩
  rcases hx r r' a r₁ h ha with ⟨r₁', ha', h₁⟩
  rcases hk a r₁ r₁' b u h₁ hb with ⟨u', hb', hu⟩
  exact ⟨u', (run_bind_of_ok ha' _).trans hb', hu⟩

theorem peek {k k' : Token → Step β} (hk : ∀ t t', t'.lexeme = t.lexeme → Echoes (k t) (k' t')) :
    Echoes (Step.peek >>= k) (Step.peek >>= k') := by
  intro r r' b u h hb
  rcases of_bind hb with ⟨t, r₁, hpeek, hb⟩
  rcases h.peek hpeek with ⟨t', r₁', hpeek', ht, h₁, _⟩
  rcases hk t t' ht r₁ r₁' b u h₁ hb with ⟨u', hb', hu⟩
  exact ⟨u', (run_bind_of_ok hpeek' _).trans hb', hu⟩

theorem get {k k' : Run → Step β} (hk : ∀ r r', r'.state = r.state → Echoes (k r) (k' r')) :
    Echoes (MonadState.get >>= k) (MonadState.get >>= k') :=
  fun r r' b u h hb => hk r r' h.state r r' b u h hb

theorem located (hx : Echoes x x') (t t' : Token) :
    Echoes (Step.located t x) (Step.located t' x') := by
  intro r r' a u h ha
  rcases hx r r' a u h (located_eq_ok ha) with ⟨u', ha', hu⟩
  exact ⟨u', located_of_ok t' ha', hu⟩

theorem ofExcept (x : Except Cause α) : Echoes (Step.ofExcept x) (Step.ofExcept x) := by
  cases x with
  | ok a => exact .pure a
  | error cause =>
    intro r r' a u h ha
    cases ha

theorem update (f : State → State) : Echoes (Step.update f) (Step.update f) := by
  rintro r r' _ u h ⟨⟩
  exact ⟨_, rfl, congrArg f h.state, h.stream⟩

theorem define (f : State → Except Error (Symbol × State)) :
    Echoes (Step.define f) (Step.define f) := by
  intro r r' a u h ha
  rw [define_run] at ha ⊢
  rw [h.state]
  cases hf : f r.state with
  | error e =>
    rw [hf] at ha
    cases ha
  | ok p =>
    rw [hf] at ha
    cases ha
    exact ⟨_, rfl, rfl, h.stream⟩

theorem expression : Echoes Step.expression Step.expression := by
  intro r r' e u h hread
  rcases h.stream with ⟨m, hstream⟩
  have hreads : Stream.alike.Reads m (Expr.read r.state.qualify) (Expr.read r.state.qualify)
      (·.legal = true) :=
    Expr.reads_read (State.proper_qualify r.state)
  rcases hreads.of_ok hstream (reading_eq_ok hread) with ⟨_, s', hs', ⟨rfl, _⟩, hbeside⟩
  rw [← h.state] at hs'
  exact ⟨_, reading_of_ok hs', h.state.trans (state_of_reading hread).symm, m, hbeside⟩

theorem resolver : Echoes Step.resolver Step.resolver :=
  .get fun r r' hstate => by rw [hstate]; exact .pure _

theorem defineBy (definer : Definer) (spelling : String) (location : Option Location) :
    Echoes (Step.defineBy definer spelling location) (Step.defineBy definer spelling location) := by
  have hconstant : Echoes Step.constant Step.constant :=
    .peek fun t t' _ => expression.bind fun e => resolver.bind fun _ => .located (.ofExcept _) t t'
  have htext : Echoes Step.constantText Step.constantText :=
    .peek fun t t' _ => expression.bind fun e => resolver.bind fun _ => .located (.ofExcept _) t t'
  have hends : Echoes Step.atLineEnd Step.atLineEnd :=
    .peek fun t t' ht => by rw [ht]; exact .pure _
  have hfield : ∀ width, Echoes (storageField spelling width location)
      (storageField spelling width location) := by
    intro width
    refine hends.bind fun b => ?_
    have hbehind : ∀ count : Int, Echoes (do
        let offset := (← MonadState.get).state.storage
        Step.update fun s => (s.advanceStorage (count * width)).2
        Step.define fun s => s.defineConstant spelling offset false location : Step Symbol) (do
        let offset := (← MonadState.get).state.storage
        Step.update fun s => (s.advanceStorage (count * width)).2
        Step.define fun s => s.defineConstant spelling offset false location : Step Symbol) :=
      fun count => .get fun r r' hstate => by rw [hstate]; exact (update _).bind fun _ => define _
    cases b with
    | true => exact (pure (1 : Int)).bind hbehind
    | false => exact hconstant.bind hbehind
  cases definer with
  | equ => exact hconstant.bind fun value => define _
  | set | assign => exact hconstant.bind fun value => define _
  | equs => exact htext.bind fun text => define _
  | rb | rw | rl => exact hfield _

end Echoes

/-! ## The line -/

/-- The same lexemes end the line alike. -/
theorem endLine_beside (h : r.Beside r') (hend : endLine r = .ok () u) :
    ∃ u', endLine r' = .ok () u' ∧ u'.state = u.state := by
  rcases of_bind hend with ⟨t, r₁, hpeek, hend⟩
  rcases h.peek hpeek with ⟨t', r₁', hpeek', ht, h₁, rest, hbuffer⟩
  rw [show endLine r' = _ from run_bind_of_ok hpeek' _, ht]
  cases hl : t.lexeme with
  | newline =>
    rw [hl] at hend
    rcases h₁.stream with ⟨m, hstream⟩
    rcases hstream.advance hbuffer (by simp [Token.isEnd, hl]) with ⟨_, s', hs', _⟩
    cases (discard_advanceAs_buffered hbuffer .code).symm.trans hend
    refine ⟨r₁'.follow s', ?_, h₁.state⟩
    show EStateM.map (fun _ => ()) (reading Reading.advance) r₁' = _
    simp only [EStateM.map, reading_of_ok hs']
  | eof =>
    rw [hl] at hend
    cases hend
    exact ⟨r₁', rfl, h₁.state⟩
  | _ =>
    rw [hl] at hend
    cases hend

theorem Heads.place (h : Heads definer name t l r g) : l = r.stream.source.locate t := by
  rcases h with ⟨first, _, again, taken, next, _, still, passed, rfl⟩
  have hadvance : ∀ {a b}, advance a = .ok t b → a.stream.Onward b.stream :=
    (woven_advanceAs .code).onward
  have hbefore := ((woven_peek.onward first).trans (woven_peek.onward again)).trans (hadvance taken)
  have hbehind :=
    ((woven_peek.onward next).trans (woven_peek.onward still)).trans (woven_advance.onward passed)
  rw [(hbefore.trans hbehind).source]

theorem Heads.state_eq (h : Heads definer name t l r g) : g.state = r.state := by
  rcases h with ⟨first, _, again, taken, next, _, still, passed, _⟩
  rcases discard_eq_ok passed with ⟨_, passed⟩
  rw [state_of_reading passed, state_of_reading still, state_of_reading next,
    state_of_reading taken, state_of_reading again, state_of_reading first]

/-- Behind the same head, the same text defines the same. -/
theorem Heads.echoes {ss : List Statement} (h : Heads definer name t l r g)
    (h' : Heads definer name t l r' g') (hg : g.Beside g') (hnext : nextLine r = .ok (some ss) u) :
    (∃ n k v, ss = [⟨l, .symbol n k v definer⟩]) ∧ ∃ u', nextLine r' = .ok (some ss) u' ∧
      u'.state = u.state := by
  rcases h.line_eq with ⟨a, first, hopen, hline⟩
  rcases h'.line_eq with ⟨a', first', _, hline'⟩
  have hss := (nextLine_eq_ok_iff first hopen).mp hnext
  rw [hline] at hss
  rcases of_bind hss with ⟨x, v, hdefine, hss⟩
  rcases of_bind hss with ⟨_, _, hend, ⟨⟩⟩
  rcases (Echoes.defineBy definer name (some l)).located t t g g' x v hg hdefine with
    ⟨v', hdefine', hv⟩
  rcases endLine_beside hv hend with ⟨u', hend', hstate⟩
  rw [run_bind_of_ok hdefine', run_bind_of_ok hend'] at hline'
  exact ⟨⟨_, _, _, rfl⟩, u', (nextLine_eq_ok_iff first' hopen).mpr hline', hstate⟩

theorem nextLine_of_name {ss : List Statement} {c : Cursor} (hbuffer : r.stream.buffer = [])
    (ht : r.stream.cursor.next r.stream.source r.stream.register.commit.current = .ok (t, c))
    (hl : t.lexeme = .name name) (h : nextLine r = .ok (some ss) u) :
    ∃ l args, ss = [⟨l, .macroCall name args⟩] := by
  rcases nextLine_cases h with ⟨t', a, first, _, hline⟩
  have hfirst := reading_eq_ok first
  rw [Reading.peek_fresh hbuffer ht] at hfirst
  injection hfirst with htoken hstream
  -- the name is looked at again for the line and for what it starts
  have again : ∀ v : Run, v.stream = a.stream → peek v = .ok t (v.follow v.stream) :=
    fun v hv => peek_buffered (by rw [hv, ← hstream])
  rw [show line a = _ from run_bind_of_ok (again a rfl) _, hl] at hline
  have hbody : body (a.follow a.stream) = .ok ss u := hline
  rw [show body _ = _ from run_bind_of_ok (again (a.follow a.stream) rfl) _, hl] at hbody
  rcases of_bind hbody with ⟨st, _, hcall, ⟨⟩⟩
  rcases of_bind hcall with ⟨_, _, _, hcall⟩
  rcases of_bind hcall with ⟨args, _, _, ⟨⟩⟩
  exact ⟨_, args, rfl⟩

/-- A name is defined by what stands behind it on its line if nothing but blanks, and at least one,
is between the name and the definer. Then the line has the statement that it has with a single
blank, and leaves the same state. With a continuation between them, and without anything before an
equals sign, the line is a call of a macro instead. -/
theorem definition_layout (state : State) (diagnostics : Diagnostics) (name : String)
    (hname : isGlobalName name = true) (definer : Definer) (tail : List Char)
    (htail : definer.Leads tail) (source : Source)
    (htext : source.text = name.toList ++ ' ' :: tail) (sep : List Char) (hsep : Separation sep)
    (hnone : sep = [] → definer = .assign) (source' : Source) (hfile : source'.file = source.file)
    (htext' : source'.text = name.toList ++ (sep ++ tail)) :
    ((sep ≠ [] ∧ ∀ c ∈ sep, isBlank c = true) → ∀ ss u,
      nextLine (.start source state diagnostics) = .ok (some ss) u →
        (∃ l n k v, ss = [⟨l, .symbol n k v definer⟩]) ∧
        ∃ u', nextLine (.start source' state diagnostics) = .ok (some ss) u' ∧ u'.state = u.state) ∧
    (¬ (sep ≠ [] ∧ ∀ c ∈ sep, isBlank c = true) → ∀ ss u,
      nextLine (.start source' state diagnostics) = .ok (some ss) u →
        ∃ l args, ss = [⟨l, .macroCall name args⟩]) := by
  constructor
  · rintro ⟨hne, hblank⟩ ss u hnext
    rcases htail.heads hname (List.cons_ne_nil ' ' []) (by simp [isBlank]) htext
      (r := .start source state diagnostics) rfl with ⟨c, hrest, hfresh, hheads⟩
    rcases htail.heads hname hne hblank htext' (r := .start source' state diagnostics) rfl with
      ⟨c', hrest', hfresh', hheads'⟩
    -- both sources have the label and the definer, and then the same text
    rcases htail.scan with ⟨ch, rest, op, n, rfl, hstart, hscan, hop⟩
    have hword := Cursor.normalToken_lexeme source hrest hstart (by simp [hfresh]) hscan
    have hword' := Cursor.normalToken_lexeme source' hrest' hstart (by simp [hfresh']) hscan
    rcases hheads _ _ hword hop with ⟨l, g, hheads, hg⟩
    rcases hheads' _ _ hword' hop with ⟨l', g', hheads', hg'⟩
    obtain rfl : l' = l := by
      rw [hheads'.place, hheads.place]
      exact congrArg (Token.location _) hfile
    have hcursor : c.Beside c' := ⟨hrest'.trans hrest.symm, hfresh'.trans hfresh.symm⟩
    have hbeside : g.stream.Beside (g.stream.left + 1) g'.stream := by
      refine ⟨?_, ⟨hg.normal, hg'.normal⟩, by rw [hg.buffer, hg'.buffer], Nat.lt_succ_self _⟩
      rw [hg.cursor, hg'.cursor]
      exact hcursor.skip n
    rcases hheads.echoes hheads' ⟨hheads'.state_eq.trans hheads.state_eq.symm, _, hbeside⟩
      hnext with
      ⟨hsymbol, hsame⟩
    exact ⟨⟨l', hsymbol⟩, hsame⟩
  · intro hother ss u hnext
    rcases hsep.not_declares htail hnone hother with ⟨hhead, hdeclares⟩
    have ht := Cursor.normalToken_name source' hname hhead (c := .start source'.text) htext'
    rw [hdeclares] at ht
    exact nextLine_of_name (r := .start source' state diagnostics) rfl ht rfl hnext

/-- The forms of the statements on the first line of a text. -/
def firstForms (text : String) : Option (List Form) :=
  match nextLine (.start (.ofText text "<input>") (.fresh false) (.empty 100 false)) with
  | .ok o _ => o.map (·.map Statement.form)
  | .error .. => none

/-- A tab and a blank before a word in mixed case, and a comment behind the value. -/
theorem definition_layout_tabbed :
    firstForms "size Equ 2*(3+1) ; bytes" = some [.symbol "size" .equ (.number 8) .equ] ∧
      firstForms "size\t Equ 2*(3+1) ; bytes" = some [.symbol "size" .equ (.number 8) .equ] := by
  have hone : firstForms "size Equ 2*(3+1) ; bytes" =
      some [.symbol "size" .equ (.number 8) .equ] := by
    decide +kernel
  refine ⟨hone, ?_⟩
  let source := Source.ofText "size Equ 2*(3+1) ; bytes" "<input>"
  have hleads : Definer.Leads .equ ("Equ".toList ++ " 2*(3+1) ; bytes".toList) :=
    .word (by decide) (by decide) (by simp [isNameChar]) (by decide) rfl
  have hlayout :=
    definition_layout (.fresh false) (.empty 100 false) "size" (by decide) .equ _ hleads
    source (by decide +kernel) ['\t', ' ']
    (.blank rfl (.blank rfl .nil)) (by simp) (.ofText "size\t Equ 2*(3+1) ; bytes" "<input>") rfl
    (by decide +kernel)
  unfold firstForms at hone ⊢
  split at hone
  · next o u hnext =>
    cases o with
    | none => cases hone
    | some ss =>
      rcases (hlayout.1 (by simp [isBlank]) ss u hnext).2 with ⟨u', hnext', _⟩
      rw [hnext']
      exact hone
  · cases hone

/-- Without a blank the line is a call, and so it is with a continuation. -/
theorem definition_layout_call :
    firstForms "foo =5" = some [.symbol "foo" .set (.number 5) .assign] ∧
      firstForms "foo=5" = some [.macroCall "foo" ["=5"]] ∧
      firstForms "foo \\\n equ 5" = some [.macroCall "foo" ["equ 5"]] := by
  decide +kernel

end Step

end Sm83
