import Sm83.Proofs.Run.Woven
import Sm83.Proofs.Run.Whole

/-!
# Progress

Reading always gets on. A token other than the end takes characters off the text, so there are no
more tokens than characters, however the modes are switched between them. Each loop of the reader
repeats rounds, and a round after which the loop goes on has consumed a token other than the end, so
all of them end.
-/

namespace Sm83

open Outcome Sm83.Expr

variable {t : Token}

/-! ## Tokens -/

namespace Cursor

/-- The number of characters of a text that the cursor has passed. -/
def position (text : List Char) (c : Cursor) : Nat :=
  text.length - c.rest.length

/-- The tokens that calls for the next token find, each under a setting of its own, and the place
behind them. -/
def reads (source : Source) : List Setting → Cursor → Except Failure (List Token × Cursor)
  | [], c => .ok ([], c)
  | g :: gs, c =>
    match c.next source g with
    | .error f => .error f
    | .ok (t, c') => (reads source gs c').map fun (ts, last) => (t :: ts, last)

variable {text : List Char} {source : Source} {c c' : Cursor} {g : Setting} {t : Token}

theorem position_lt_of_next (hc : c.rest <:+ text) (h : c.next source g = .ok (t, c'))
    (ht : t.isEnd = false) : c.position text < c'.position text := by
  have hshorter := next_shortens h ht
  have hlength := hc.length_le
  unfold position
  omega

theorem reads_cons_iff {gs : List Setting} {ts : List Token} :
    c.reads source (g :: gs) = .ok (ts, c') ↔
    ∃ t c₁ us, c.next source g = .ok (t, c₁) ∧ c₁.reads source gs = .ok (us, c') ∧
      ts = t :: us := by
  constructor
  · intro h
    unfold reads at h
    split at h
    · cases h
    · next t c₁ hnext =>
      rcases map_eq_ok_iff.mp h with ⟨⟨us, _⟩, hreads, ⟨⟩⟩
      exact ⟨t, c₁, us, hnext, hreads, rfl⟩
  · rintro ⟨t, c₁, us, hnext, hreads, rfl⟩
    simp only [reads, hnext, hreads, Except.map]

theorem length_reads_le {gs : List Setting} {ts : List Token} (hc : c.rest <:+ text)
    (h : c.reads source gs = .ok (ts, c')) :
    c.position text + (ts.filter fun t => !t.isEnd).length ≤ c'.position text ∧
      c'.rest <:+ text := by
  induction gs generalizing c ts with
  | nil =>
    cases h
    exact ⟨Nat.le_refl _, hc⟩
  | cons g gs ih =>
    rcases reads_cons_iff.mp h with ⟨t, c₁, us, hnext, hreads, rfl⟩
    rcases ih ((next_suffix hnext).trans hc) hreads with ⟨hle, hlast⟩
    refine ⟨?_, hlast⟩
    cases ht : t.isEnd with
    | false =>
      have hlt := position_lt_of_next hc hnext ht
      simp only [List.filter_cons, ht, Bool.not_false, if_true, List.length_cons]
      omega
    | true =>
      have hle₁ : c.position text ≤ c₁.position text :=
        Nat.sub_le_sub_left (next_suffix hnext).length_le _
      simp only [List.filter_cons, ht, Bool.not_true, Bool.false_eq_true, if_false]
      omega

end Cursor

/-! ## Loops -/

/-- What a round of a loop comes to: the loop goes on with a value, or it is over. -/
inductive Round (β α : Type) where
  | again (b : β)
  | finished (a : α)

section

variable {σ α β : Type}

/-- A loop that repeats a round, at most `n` times. -/
def repeated (round : β → EStateM Failure σ (Round β α)) : Nat → β → EStateM Failure σ α
  | 0, _ => throw .exhausted
  | n + 1, b => do
    match ← round b with
    | .again b' => repeated round n b'
    | .finished a => pure a

/-- The loop is made of rounds, and a round after which it goes on raises the number of tokens. -/
def Consumes (tokens : σ → Nat) (loop : Nat → β → EStateM Failure σ α) : Prop :=
  ∃ round : β → EStateM Failure σ (Round β α), (∀ n b, loop n b = repeated round n b) ∧
    ∀ b s b' s', round b s = .ok (.again b') s' → tokens s < tokens s'

theorem map_eq_ok {f : α → β} {x : EStateM Failure σ α} {s s' : σ} {b : β}
    (h : (f <$> x) s = .ok b s') : ∃ a, x s = .ok a s' ∧ f a = b := by
  rw [← bind_pure_comp] at h
  rcases of_bind h with ⟨a, _, hx, ⟨⟩⟩
  exact ⟨a, hx, rfl⟩

theorem discard_eq_ok {x : EStateM Failure σ α} {s s' : σ} (h : discard x s = .ok ⟨⟩ s') :
    ∃ a, x s = .ok a s' := by
  rcases map_eq_ok h with ⟨a, hx, _⟩
  exact ⟨a, hx⟩

end

theorem Reading.taken_lt_of_peek {role : Role} {s s₁ s₂ : Stream} {t' : Token}
    (hpeek : peek s = .ok t s₁) (ht : t.isEnd = false) (h : advanceAs role s₁ = .ok t' s₂) :
    s.taken < s₂.taken := by
  rcases buffer_of_peek hpeek with ⟨rest, hbuffer⟩
  rw [advanceAs_buffered role hbuffer] at h
  cases h
  rw [Stream.taken_consume s₁ role ht rest]
  exact Nat.lt_succ_of_le (retraces_peek.onward hpeek).taken

namespace Expr

/-- One operator of a level with the operand behind it. -/
def chainRound (level : List (Punct × BinaryOp)) (operand : Reading Expr) (left : Expr) :
    Reading (Round Expr Expr) := do
  let t ← Reading.peek
  match operator? level t.lexeme with
  | none => pure (.finished left)
  | some op =>
    discard Reading.advance
    let right ← operand
    pure (.again (binary op left right))

theorem chain_eq (level : List (Punct × BinaryOp)) (operand : Reading Expr) (n : Nat)
    (left : Expr) : chain level operand n left = repeated (chainRound level operand) n left := by
  induction n generalizing left with
  | zero => rfl
  | succ n ih =>
    simp only [chain, repeated, chainRound, bind_assoc]
    refine bind_congr fun t => ?_
    cases operator? level t.lexeme with
    | none => simp only [pure_bind]
    | some op => simp only [bind_assoc, pure_bind, ih]

theorem consumes_chain (level : List (Punct × BinaryOp)) {operand : Reading Expr}
    (hoperand : Reading.Retraces operand operand) :
    Consumes Stream.taken (chain level operand) := by
  refine ⟨chainRound level operand, chain_eq level operand, ?_⟩
  intro left s left' s' h
  rcases of_bind h with ⟨t, s₁, hpeek, h⟩
  cases hop : operator? level t.lexeme with
  | none =>
    rw [hop] at h
    cases h
  | some op =>
    rw [hop] at h
    rcases of_bind h with ⟨_, s₂, hadvance, h⟩
    rcases of_bind h with ⟨right, s₃, hright, ⟨⟩⟩
    rcases discard_eq_ok hadvance with ⟨t', hadvance⟩
    have ht : t.isEnd = false := Token.isEnd_of_spells (operator? level) rfl hop
    exact Nat.lt_of_lt_of_le (Reading.taken_lt_of_peek hpeek ht hadvance)
      (hoperand.onward hright).taken

def argumentRound (inner : Reading Expr) (args : List Expr) :
    Reading (Round (List Expr) (List Expr)) := do
  let t ← Reading.peek
  if t.lexeme.isPunct .comma then
    discard Reading.advance
    let e ← inner
    pure (.again (args ++ [e]))
  else pure (.finished args)

theorem moreArguments_eq (inner : Reading Expr) (n : Nat) (args : List Expr) :
    moreArguments inner n args = repeated (argumentRound inner) n args := by
  induction n generalizing args with
  | zero => rfl
  | succ n ih =>
    simp only [moreArguments, repeated, argumentRound, bind_assoc]
    refine bind_congr fun t => ?_
    cases t.lexeme.isPunct .comma with
    | true => simp only [if_true, bind_assoc, pure_bind, ih]
    | false => simp only [Bool.false_eq_true, if_false, pure_bind]

theorem consumes_moreArguments {inner : Reading Expr} (hinner : Reading.Retraces inner inner) :
    Consumes Stream.taken (moreArguments inner) := by
  refine ⟨argumentRound inner, moreArguments_eq inner, ?_⟩
  intro args s args' s' h
  rcases of_bind h with ⟨t, s₁, hpeek, h⟩
  split at h
  · next hcomma =>
    rcases of_bind h with ⟨_, s₂, hadvance, h⟩
    rcases of_bind h with ⟨e, s₃, he, ⟨⟩⟩
    rcases discard_eq_ok hadvance with ⟨t', hadvance⟩
    have ht : t.isEnd = false := Token.isEnd_of_test (·.isPunct .comma) rfl hcomma
    exact Nat.lt_of_lt_of_le (Reading.taken_lt_of_peek hpeek ht hadvance) (hinner.onward he).taken
  · cases h

end Expr

namespace Step

variable {α : Type} {ss : List Statement} {Q : Token → α → Prop}

/-! ### Steps that consume -/

variable {r r' : Run}

theorem taken_lt_of_peek {role : Role} {r₁ r₂ : Run} (hpeek : peek r = .ok t r₁)
    (ht : t.isEnd = false) (h : discard (advanceAs role) r₁ = .ok ⟨⟩ r₂) :
    r.stream.taken < r₂.stream.taken := by
  rcases discard_eq_ok h with ⟨t', h⟩
  exact Reading.taken_lt_of_peek (reading_eq_ok hpeek) ht (reading_eq_ok h)

theorem taken_lt_of_accept {p : Punct} (h : accept p r = .ok true r') :
    r.stream.taken < r'.stream.taken := by
  rcases of_bind h with ⟨t, r₁, hpeek, h⟩
  split at h
  · next hp =>
    rcases of_bind h with ⟨_, r₂, hadvance, ⟨⟩⟩
    exact taken_lt_of_peek hpeek (Token.isEnd_of_test (·.isPunct p) rfl hp) hadvance
  · cases h

def argumentRound (b : Bool × List String) : Step (Round (Bool × List String) (List String)) := do
  let t ← peek
  match t.lexeme with
  | .rawText s =>
    discard (advanceAs .argument)
    pure (.again (false, b.2 ++ [s]))
  | .punct .comma =>
    discard (advanceAs .argument)
    pure (.again (true, if b.1 then b.2 ++ [""] else b.2))
  | .newline | .eof =>
    discard (advanceAs .argument)
    request .normal
    pure (.finished (if b.1 && !b.2.isEmpty then b.2 ++ [""] else b.2))
  | _ => fail t .rawArgument

theorem moreArguments_eq (n : Nat) (b : Bool × List String) :
    moreArguments n b.1 b.2 = repeated argumentRound n b := by
  induction n generalizing b with
  | zero => rfl
  | succ n ih =>
    simp only [moreArguments, repeated, argumentRound, bind_assoc]
    refine bind_congr fun t => ?_
    cases t.lexeme with
    | rawText text => simp only [bind_assoc, pure_bind, ← ih]
    | newline => simp only [bind_assoc, pure_bind]
    | eof => simp only [bind_assoc, pure_bind]
    | punct p =>
      cases p with
      | comma => simp only [bind_assoc, pure_bind, ← ih]
      | _ => rfl
    | _ => rfl

theorem consumes_moreArguments :
    Consumes (·.stream.taken) fun n (b : Bool × List String) => moreArguments n b.1 b.2 := by
  refine ⟨argumentRound, moreArguments_eq, ?_⟩
  intro b r b' r' h
  rcases of_bind h with ⟨t, r₁, hpeek, h⟩
  have hconsume : ∀ {b'' : Bool × List String}, t.isEnd = false →
      (discard (advanceAs .argument) >>= fun _ => pure (.again b'') :
        Step (Round (Bool × List String) (List String))) r₁ = .ok (.again b') r' →
      r.stream.taken < r'.stream.taken := by
    intro b'' ht h
    rcases of_bind h with ⟨_, r₂, hadvance, ⟨⟩⟩
    exact taken_lt_of_peek hpeek ht hadvance
  cases hl : t.lexeme with
  | rawText text =>
    rw [hl] at h
    exact hconsume (by simp [Token.isEnd, hl]) h
  | newline =>
    rw [hl] at h
    rcases of_bind h with ⟨_, _, _, h⟩
    rcases of_bind h with ⟨_, _, _, h⟩
    cases h
  | eof =>
    rw [hl] at h
    rcases of_bind h with ⟨_, _, _, h⟩
    rcases of_bind h with ⟨_, _, _, h⟩
    cases h
  | punct p =>
    rw [hl] at h
    cases p with
    | comma => exact hconsume (by simp [Token.isEnd, hl]) h
    | _ => cases h
  | _ =>
    rw [hl] at h
    cases h

/-- Something further, with the comma before it. -/
def commaRound (further : α → Step α) (a : α) : Step (Round α α) := do
  if ← accept .comma then
    let next ← further a
    pure (.again next)
  else pure (.finished a)

theorem consumes_commaRound {further : α → Step α} {loop : Nat → α → Step α}
    (hfurther : ∀ a, Retraced (further a))
    (hloop : ∀ n a, loop n a = repeated (commaRound further) n a) :
    Consumes (·.stream.taken) loop := by
  refine ⟨commaRound further, hloop, ?_⟩
  intro a r a' r' h
  rcases of_bind h with ⟨more, r₁, haccept, h⟩
  cases more with
  | false => cases h
  | true =>
    rcases of_bind h with ⟨next, r₂, hnext, ⟨⟩⟩
    exact Nat.lt_of_lt_of_le (taken_lt_of_accept haccept) ((hfurther a).onward hnext).taken

theorem moreItems_eq (item : Step α) (n : Nat) (items : List α) :
    moreItems item n items = repeated (commaRound fun items => do pure (items ++ [← item])) n
      items := by
  induction n generalizing items with
  | zero => rfl
  | succ n ih =>
    simp only [moreItems, repeated, commaRound, bind_assoc]
    refine bind_congr fun more => ?_
    cases more with
    | true => simp only [if_true, bind_assoc, pure_bind, ih]
    | false => simp only [Bool.false_eq_true, if_false, pure_bind]

theorem consumes_moreItems {item : Step α} (hitem : Retraced item) :
    Consumes (·.stream.taken) (moreItems item) :=
  consumes_commaRound (fun _ => hitem.bind fun _ _ => .pure trivial) (moreItems_eq item)

theorem moreAttributes_eq (n : Nat) (attributes : Attributes) :
    moreAttributes n attributes = repeated (commaRound oneAttribute) n attributes := by
  induction n generalizing attributes with
  | zero => rfl
  | succ n ih =>
    simp only [moreAttributes_succ, repeated, commaRound, bind_assoc]
    refine bind_congr fun more => ?_
    cases more with
    | true => simp only [if_true, bind_assoc, pure_bind, ih]
    | false => simp only [Bool.false_eq_true, if_false, pure_bind]

theorem consumes_moreAttributes : Consumes (·.stream.taken) moreAttributes :=
  consumes_commaRound woven_oneAttribute moreAttributes_eq

/-! ### Lines -/

theorem Begins.of_ok {x : Step α} (hx : Begins .free (fun _ => true) x Q) {rest : List Token}
    {a : α} (hbuffer : r.stream.buffer = t :: rest) (h : x r = .ok a r') :
    Q t a ∧ ∃ role, (r.stream.consume role t rest).Onward r'.stream := by
  rcases hx with ⟨k, rfl, hk⟩
  rcases of_bind h with ⟨t', r₁, hadvance, h⟩
  rw [advance, advanceAs_buffered hbuffer] at hadvance
  cases hadvance
  exact ⟨(hk t trivial).returns h, .code, (hk t trivial).onward h⟩

theorem Opens.of_ok {x : Step α} (hx : Opens .free (fun _ => true) Q x) {rest : List Token} {a : α}
    (hbuffer : r.stream.buffer = t :: rest) (h : x r = .ok a r') :
    Q t a ∧ ∃ role, (r.stream.consume role t rest).Onward r'.stream := by
  cases hx with
  | begins hx => exact hx.of_ok hbuffer h
  | peek hk =>
    rcases of_bind h with ⟨t', r₁, hpeek, h⟩
    rw [peek_buffered hbuffer] at hpeek
    cases hpeek
    rcases hk t trivial with hbegins | ⟨k', hk, hwoven⟩ | ⟨expected, _, hk⟩
    · exact hbegins.of_ok (r := r.follow r.stream) hbuffer h
    · have hbegins : Begins .free (fun _ => true) (discard advance >>= k') fun _ => Q t :=
        ⟨fun _ => k' (), bind_map_left _ _ _, fun _ _ => hwoven⟩
      exact hbegins.of_ok (r := r.follow r.stream) hbuffer (hk ▸ h)
    · rw [hk] at h
      cases h

/-- From a run that the given token has been read ahead in as the next one, the step consumes this
token and then goes on. -/
def Takes (t : Token) (x : Step α) : Prop :=
  ∀ (r : Run) (rest : List Token) (a : α) (r' : Run), r.stream.buffer = t :: rest → x r = .ok a r' →
    ∃ role, (r.stream.consume role t rest).Onward r'.stream

namespace Takes

variable {β : Type} {t : Token} {x : Step α}

theorem fail (expected : Expectation) : Takes t (Step.fail t expected : Step α) := by
  intro r rest a r' _ h
  cases h

theorem of_opens (hx : Opens .free (fun _ => true) Q x) : Takes t x :=
  fun _ _ _ _ hbuffer h => (hx.of_ok hbuffer h).2

theorem peek_bind {k : Token → Step α} (hk : Takes t (k t)) : Takes t (peek >>= k) := by
  intro r rest a r' hbuffer h
  rcases of_bind h with ⟨t', r₁, hpeek, h⟩
  rw [peek_buffered hbuffer] at hpeek
  cases hpeek
  exact hk (r.follow r.stream) rest a r' hbuffer h

theorem bind {k : α → Step β} (hx : Takes t x) (hk : ∀ a, Retraced (k a)) : Takes t (x >>= k) := by
  intro r rest b r' hbuffer h
  rcases of_bind h with ⟨a, r₁, hxr, h⟩
  rcases hx r rest a r₁ hbuffer hxr with ⟨role, honward⟩
  exact ⟨role, honward.trans ((hk a).onward h)⟩

theorem advance : Takes t (discard advance) := by
  intro r rest a r' hbuffer h
  rcases discard_eq_ok h with ⟨t', h⟩
  have hbegins : Begins .free (fun _ => true) Step.advance fun _ _ => True :=
    ⟨pure, (bind_pure Step.advance).symm, fun _ _ => .pure trivial⟩
  exact (hbegins.of_ok hbuffer h).2

end Takes

variable {t : Token}

theorem takes_step (t : Token) (p : Part) : Takes t p.step :=
  .of_opens (opens_step fun _ _ => rfl)

theorem takes_endLine (ht : t.isEnd = false) : Takes t endLine := by
  refine .peek_bind ?_
  split
  · exact .advance
  · next heof =>
    rw [Token.isEnd, heof] at ht
    cases ht
  · exact .fail _

theorem takes_body (ht : t.isEnd = false) : Takes t body := by
  have hempty : Takes t (do endLine; pure ([] : List Statement)) :=
    (takes_endLine ht).bind fun _ => .pure trivial
  refine .peek_bind ?_
  split
  · exact hempty
  · exact hempty
  · exact (takes_step t (.call _)).bind fun _ => .pure trivial
  · split
    · refine (takes_step t (.instruction _)).bind fun _ => ?_
      exact woven_endLine.bind fun _ _ => .pure trivial
    · refine (takes_step t (.directive _)).bind fun statement => ?_
      split
      · exact woven_endLine.bind fun _ _ => .pure trivial
      · exact .pure trivial
    · exact .fail _
  · exact .fail _

theorem takes_line (ht : t.isEnd = false) : Takes t line := by
  refine .peek_bind ?_
  split
  · exact Takes.advance.bind fun _ => .pure trivial
  · split
    · exact (takes_step t (.conditional _)).bind fun _ => .pure trivial
    · exact .of_opens (.begins (begins_declaration (Watch.declares_free _) fun _ _ => rfl))
    · exact takes_body ht

theorem nextLine_eq_ok_iff {r₁ : Run} (hpeek : peek r = .ok t r₁) (ht : t.isEnd = false) :
    nextLine r = .ok (some ss) r' ↔ line r₁ = .ok ss r' := by
  rw [show nextLine r = (if t.isEnd then pure none else some <$> located t line : Step _) r₁ from
    run_bind_of_ok hpeek _, ht]
  constructor
  · intro h
    rcases map_eq_ok h with ⟨ss', hlocated, hss⟩
    exact Option.some.inj hss ▸ located_eq_ok hlocated
  · intro h
    show EStateM.map some (located t line) r₁ = _
    unfold EStateM.map
    rw [located_of_ok t h]

theorem nextLine_cases (h : nextLine r = .ok (some ss) r') :
    ∃ t r₁, peek r = .ok t r₁ ∧ t.isEnd = false ∧ line r₁ = .ok ss r' := by
  rcases of_bind h with ⟨t, r₁, hpeek, hline⟩
  split at hline
  · cases hline
  · next ht =>
    have ht : t.isEnd = false := Bool.not_eq_true _ ▸ ht
    exact ⟨t, r₁, hpeek, ht, (nextLine_eq_ok_iff hpeek ht).mp h⟩

theorem taken_lt_of_nextLine (h : nextLine r = .ok (some ss) r') :
    r.stream.taken < r'.stream.taken := by
  rcases nextLine_cases h with ⟨t, r₁, hpeek, ht, hline⟩
  rcases Reading.buffer_of_peek (reading_eq_ok hpeek) with ⟨rest, hbuffer⟩
  rcases takes_line ht r₁ rest ss r' hbuffer hline with ⟨role, honward⟩
  have htaken := honward.taken
  rw [Stream.taken_consume r₁.stream role ht rest] at htaken
  exact Nat.lt_of_le_of_lt (woven_peek.onward hpeek).taken htaken

/-- One line, with what is done with its statements. -/
def lineRound (handle : Statement → Step Unit) (_ : Unit) : Step (Round Unit Unit) := do
  match ← nextLine with
  | none => pure (.finished ())
  | some statements =>
    statements.forM (deliver handle)
    pure (.again ())

theorem lines_eq (handle : Statement → Step Unit) (n : Nat) (b : Unit) :
    lines handle n = repeated (lineRound handle) n b := by
  induction n with
  | zero => rfl
  | succ n ih =>
    simp only [lines, repeated, lineRound, bind_assoc]
    refine bind_congr fun next => ?_
    cases next with
    | none => simp only [pure_bind]
    | some statements => simp only [bind_assoc, pure_bind, ih]

theorem stream_of_deliver {handle : Statement → Step Unit}
    (hhandle : ∀ s r r', handle s r = .ok () r' → r'.stream = r.stream)
    (h : ss.forM (deliver handle) r = .ok ⟨⟩ r') : r'.stream = r.stream := by
  induction ss generalizing r with
  | nil =>
    cases h
    rfl
  | cons s ss ih =>
    rcases of_bind h with ⟨_, r₁, hdeliver, hrest⟩
    rcases of_bind hdeliver with ⟨_, r₂, ⟨⟩, hs⟩
    have hkept := hhandle s _ r₁ hs
    exact (ih hrest).trans hkept

theorem consumes_lines {handle : Statement → Step Unit}
    (hhandle : ∀ s r r', handle s r = .ok () r' → r'.stream = r.stream) :
    Consumes (·.stream.taken) fun n (_ : Unit) => lines handle n := by
  refine ⟨lineRound handle, lines_eq handle, ?_⟩
  intro _ r _ r' h
  rcases of_bind h with ⟨next, r₁, hnext, h⟩
  cases next with
  | none => cases h
  | some statements =>
    rcases of_bind h with ⟨_, r₂, hdeliver, ⟨⟩⟩
    show r.stream.taken < r'.stream.taken
    rw [stream_of_deliver hhandle hdeliver]
    exact taken_lt_of_nextLine hnext

end Step

/-! ## Lines of a source -/

namespace Step

variable {source : Source} {base : State} {m : Nat} {a b u w : Run} {y y' : List Char}

theorem nextLine_not_exhausted (hb : Ready source base m b) : nextLine b ≠ .error .exhausted w := by
  intro hexhausted
  have hkeeps := keeps_nextLine b hb
  rw [hexhausted] at hkeeps
  exact hkeeps.ne_exhausted

theorem nextLine_twin {o : Option (List Statement)} (htwin : Run.Twin y y' a b)
    (hb : Ready source base m b) (hnext : nextLine a = .ok o u)
    (hwithin : u.stream.cursor.Within y) : ∃ u', nextLine b = .ok o u' ∧ Run.Twin y y' u u' := by
  rcases retraces_nextLine.twin hnext htwin hwithin with hfound | ⟨u', hexhausted⟩
  · exact hfound
  · exact absurd hexhausted (nextLine_not_exhausted hb)

end Step

/-! ## Everything together -/

/-- Reading a source gets on. A token other than the end is behind a later place, so there are no
more tokens than the text has characters. Each loop of the reader consumes a token other than the
end in every round but the last, and the reading of the source ends. -/
theorem reading_progresses (source : Source) :
    (∀ (c c' : Cursor) (g : Setting) (t : Token), c.rest <:+ source.text →
      c.next source g = .ok (t, c') → t.isEnd = false →
      c.position source.text < c'.position source.text) ∧
    (∀ (gs : List Setting) (c c' : Cursor) (ts : List Token), c.rest <:+ source.text →
      c.reads source gs = .ok (ts, c') →
      (ts.filter fun t => !t.isEnd).length ≤ source.text.length) ∧
    (∀ handle : Statement → Step Unit, (∀ s r r', handle s r = .ok () r' → r'.stream = r.stream) →
      Consumes (·.stream.taken) fun n (_ : Unit) => Step.lines handle n) ∧
    Consumes (·.stream.taken) (fun n (b : Bool × List String) => Step.moreArguments n b.1 b.2) ∧
    (∀ d, Consumes (·.stream.taken) (Step.moreItems (Step.symbolAction d))) ∧
    Consumes (·.stream.taken) Step.moreAttributes ∧
    (∀ qualify n k level tighter, Consumes Stream.taken (chain level (ladder n
      (readPrefixed (readAtom qualify (readWithin qualify k) k) k) tighter))) ∧
    (∀ qualify k, Consumes Stream.taken (moreArguments (readWithin qualify k))) ∧
    ∀ state r, Run.parse source state ≠ .error .exhausted r := by
  have hfree : ∀ qualify, Expr.Completes .free qualify := fun _ _ _ _ _ =>
    ⟨fun _ _ => trivial, fun _ _ => trivial⟩
  have hwithin := fun qualify k => weaves_readWithin (hfree qualify) k k
  refine ⟨?_, ?_, fun handle => Step.consumes_lines, Step.consumes_moreArguments, ?_,
    Step.consumes_moreAttributes, ?_, ?_, ?_⟩
  · intro c c' g t hc hnext ht
    exact Cursor.position_lt_of_next hc hnext ht
  · intro gs c c' ts hc hreads
    have hle := (Cursor.length_reads_le hc hreads).1
    have hbound : c'.position source.text ≤ source.text.length := Nat.sub_le _ _
    omega
  · intro d
    exact Step.consumes_moreItems (Step.woven_symbolAction (fun _ _ => rfl) d)
  · intro qualify n k level tighter
    have hatom := weaves_readAtom (hwithin qualify k) (hfree qualify) k k
    have hladder :=
      weaves_ladder (weaves_readPrefixed hatom k k) n n fun level (_ : level ∈ tighter) =>
      fun _ _ _ => trivial
    exact consumes_chain level (hladder.retraces rfl)
  · intro qualify k
    exact consumes_moreArguments ((hwithin qualify k).retraces rfl)
  · intro state r h
    have hsound := Run.parse_sound source state
    rw [h] at hsound
    exact hsound.2

/-- A macro body behind the line that opens it, and the lines of the source that it stands in. -/
theorem reading_progresses_block :
    let source := Source.ofText "m: macro\n nop\nendm\n" "a"
    let c := (Cursor.start source.text).skip 8
    ∃ t c', c.next source (.block "endm" "macro") = .ok (t, c') ∧ t.isEnd = false ∧
      c.position source.text < c'.position source.text ∧
      Consumes (·.stream.taken) fun n (_ : Unit) => Step.lines (fun _ => pure ()) n := by
  intro source c
  have hnext : c.next source (.block "endm" "macro") =
      .ok (⟨.rawBlock " nop\n", 2, 1, .raw⟩, ⟨['\n'], 3, 5, false⟩) := by decide +kernel
  have hprogress := reading_progresses source
  refine ⟨_, _, hnext, rfl, ?_, ?_⟩
  · exact hprogress.1 c _ _ _ (by decide +kernel) hnext rfl
  · apply hprogress.2.2.1 _
    intro s r r' h
    cases h
    rfl

end Sm83
