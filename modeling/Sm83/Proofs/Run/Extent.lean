import Sm83.Proofs.Run.Parts

/-!
# The extent of a line

A line takes up some lines of the text: it starts where the one before it has ended, its statements
stand on the lines it takes up, and behind it the cursor is at the start of a line of the text,
unless the source has ended. A line that is nothing but an assertion, a message or something to be
printed leaves the state alone.
-/

namespace Sm83

/-- Directives that report or print something. -/
def Directive.isDiagnostic (d : Directive) : Bool :=
  d.isPrint || d = .warn || d = .fail

/-- Statements that check, report or print something. -/
def Form.isDiagnostic : Form → Bool
  | assertion _ => true
  | directive d _ => d.isDiagnostic
  | _ => false

namespace Step

variable {α β : Type}

/-- The statement stands on the line of the token, and if it is a diagnostic the state has been left
alone. -/
structure Stands (t : Token) (r : Run) (st : Statement) (r' : Run) : Prop where
  line : st.location.line = t.line
  state : st.form.isDiagnostic = true → r'.state = r.state

theorem not_allows_of_isDiagnostic {p : Part} {form : Form} (hform : form.isOf p = true)
    (hdiagnostic : form.isDiagnostic = true) (op : Operation) : p.allows op = false := by
  have hdirective : ∀ d : Directive, d = .assertion ∨ d = .staticAssertion ∨ d.isDiagnostic = true →
      op.suits d = false := by
    intro d hd
    cases op <;> cases d <;> first | rfl | simp [Directive.isDiagnostic, Directive.isPrint] at hd
  cases p with
  | directive d =>
    cases form with
    | assertion a =>
      simp only [Form.isOf, Bool.or_eq_true, decide_eq_true_eq] at hform
      exact hdirective d (or_assoc.mp (.inl hform))
    | directive d' args =>
      cases of_decide_eq_true hform
      exact hdirective d (.inr (.inr hdiagnostic))
    | _ => cases hdiagnostic
  | _ =>
    cases form with
    | assertion a => cases hform
    | directive d' args => cases hform
    | _ => cases hdiagnostic

theorem stands_step {p : Part} {t : Token} {rest : List Token} {r r' : Run} {st : Statement}
    (hbuffer : r.stream.buffer = t :: rest) (h : p.step r = .ok st r') : Stands t r st r' := by
  rcases (opens_step fun _ _ => rfl).of_ok hbuffer h |>.1 with ⟨_, hform, hline⟩
  refine ⟨hline, ?_⟩
  intro hdiagnostic
  refine (woven_step fun op hop => ?_).state_eq h
  rw [not_allows_of_isDiagnostic hform hdiagnostic] at hop
  exact hop

variable {t : Token}

/-- Statements that have been read on the way from one run to another. -/
structure Extent (r : Run) (ss : List Statement) (r' : Run) : Prop where
  spans : ∀ st ∈ ss, ∃ n : Nat, st.location.line = n ∧ r.stream.here ≤ n ∧ n ≤ r'.stream.passed
  steady : ∀ st, ss = [st] → st.form.isDiagnostic = true → r'.state = r.state

section

variable {r r₁ r' : Run} {ss : List Statement}

theorem extent_nil (r r' : Run) : Extent r [] r' := by
  constructor
  · intro st hst
    cases hst
  · intro st hst
    cases hst

theorem span_of_takes {x : Step α} {a : α} (hordered : r.stream.Ordered) (hpeek : peek r = .ok t r₁)
    (htakes : Takes t x) (hx : x r₁ = .ok a r') :
    r.stream.here ≤ t.line ∧ t.line ≤ r'.stream.passed := by
  have honward : r.stream.Onward r₁.stream := woven_peek.onward hpeek
  rcases honward.ordered hordered with ⟨hordered₁, hhere, _⟩
  rcases Reading.buffer_of_peek (reading_eq_ok hpeek) with ⟨rest, hbuffer⟩
  rcases htakes r₁ rest a r' hbuffer hx with ⟨role, hlater⟩
  have hconsumed := (Stream.Onward.of_consume role hbuffer).ordered hordered₁
  constructor
  · have hnext : r₁.stream.here = t.line := by simp [Stream.here, hbuffer]
    omega
  · exact (hlater.ordered hconsumed.1).2.2

theorem Extent.of_peek (h : Extent r₁ ss r') (hordered : r.stream.Ordered)
    (hpeek : peek r = .ok t r₁) : Extent r ss r' := by
  have honward : r.stream.Onward r₁.stream := woven_peek.onward hpeek
  have hhere := (honward.ordered hordered).2.1
  constructor
  · intro st hst
    rcases h.spans st hst with ⟨n, hn, hle, hpassed⟩
    exact ⟨n, hn, Nat.le_trans hhere hle, hpassed⟩
  · intro st hst hdiagnostic
    exact (h.steady st hst hdiagnostic).trans (state_of_reading hpeek)

theorem Stands.extent {x : Step α} {a : α} {st : Statement} (hst : Stands t r₁ st r')
    (hordered : r.stream.Ordered) (hpeek : peek r = .ok t r₁) (htakes : Takes t x)
    (hx : x r₁ = .ok a r') : Extent r [st] r' := by
  constructor
  · intro st' hst'
    rw [List.mem_singleton.mp hst']
    exact ⟨t.line, hst.line, span_of_takes hordered hpeek htakes hx⟩
  · intro st' hst' hdiagnostic
    cases hst'
    exact (hst.state hdiagnostic).trans (state_of_reading hpeek)

theorem extent_body (hordered : r.stream.Ordered) (h : body r = .ok ss r') : Extent r ss r' := by
  rcases body_cases h with ⟨t, r₁, hpeek, ⟨rfl, _⟩ | ⟨p, st, r₂, rfl, hst, hend⟩⟩
  · exact extent_nil r r'
  · rcases Reading.buffer_of_peek (reading_eq_ok hpeek) with ⟨rest, hbuffer⟩
    have hextent := (stands_step hbuffer hst).extent hordered hpeek (takes_step t p) hst
    have hrest : r₂.stream.Onward r'.stream ∧ r'.state = r₂.state := by
      rcases hend with rfl | hend
      · exact ⟨.refl _, rfl⟩
      · exact ⟨woven_endLine.onward hend, woven_endLine.state_eq hend⟩
    have hordered₂ : r₂.stream.Ordered := by
      rcases takes_step t p r₁ rest st r₂ hbuffer hst with ⟨role, hlater⟩
      have hpeeked : r.stream.Onward r₁.stream := woven_peek.onward hpeek
      exact ((hpeeked.trans (.of_consume role hbuffer)).trans hlater).ordered hordered |>.1
    have hpassed := (hrest.1.ordered hordered₂).2.2
    constructor
    · intro st' hst'
      rcases hextent.spans st' hst' with ⟨n, hn, hhere, hle⟩
      exact ⟨n, hn, hhere, Nat.le_trans hle hpassed⟩
    · intro st' hst' hdiagnostic
      exact hrest.2.trans (hextent.steady st' hst' hdiagnostic)

/-- A declaration takes up the lines up to its end. -/
theorem extent_declaration {spelling : String} (hordered : r.stream.Ordered)
    (hpeek : peek r = .ok t r₁) (h : declaration spelling r₁ = .ok ss r') : Extent r ss r' := by
  have hbegins := begins_declaration (Watch.declares_free spelling) fun _ _ => rfl
  have hspan := span_of_takes hordered hpeek (.of_opens (.begins hbegins)) h
  rcases Reading.buffer_of_peek (reading_eq_ok hpeek) with ⟨rest, hbuffer⟩
  rcases declaration_cases h with ⟨name, r₂, r₃, hadvance, hmarked, _, hcases⟩
  have hname : t = name := by
    rw [advance, advanceAs_buffered hbuffer] at hadvance
    cases hadvance
    rfl
  subst hname
  rcases hcases with ⟨st, rfl, hst⟩ | ⟨exported, st, more, r₄, rfl, hlabel, hbody⟩
  · rcases (woven_definition trivial fun _ _ => rfl).returns hst with ⟨_, hform, hline⟩
    constructor
    · intro st' hst'
      rw [List.mem_singleton.mp hst']
      exact ⟨t.line, hline, hspan⟩
    · intro st' hst' hdiagnostic
      cases hst'
      rcases hform with ⟨body, hform⟩ | ⟨full, kind, value, definer, hform⟩ <;>
        · rw [hform] at hdiagnostic
          cases hdiagnostic
  · rcases says_label hlabel with ⟨⟨_, _, _, _, hform⟩, hline⟩
    -- the label is before what stands behind it
    have hpeeked : r.stream.Onward r₁.stream := woven_peek.onward hpeek
    have hadvanced : r₁.stream.Onward r₂.stream := (woven_advanceAs .code).onward hadvance
    have hlabelled : r₃.stream.Onward r₄.stream := 
      (woven_label trivial (fun _ _ => rfl) (Watch.declares_free _) exported).onward hlabel
    have honward := ((hpeeked.trans hadvanced).trans hmarked).trans hlabelled
    rcases honward.ordered hordered with ⟨hordered₄, hhere, _⟩
    have hextent := extent_body hordered₄ hbody
    constructor
    · intro st' hst'
      rcases List.mem_cons.mp hst' with rfl | hmore
      · exact ⟨t.line, hline, hspan⟩
      · rcases hextent.spans st' hmore with ⟨n, hn, hle, hpassed⟩
        exact ⟨n, hn, Nat.le_trans hhere hle, hpassed⟩
    · intro st' hst' hdiagnostic
      cases hst'
      rw [hform] at hdiagnostic
      cases hdiagnostic

theorem extent_line (hordered : r.stream.Ordered) (h : line r = .ok ss r') : Extent r ss r' := by
  rcases line_cases h with
    ⟨t, r₁, hpeek, ⟨_, rfl, _⟩ | ⟨d, st, rfl, hst⟩ | ⟨spelling, _, hss⟩ | hss⟩
  · exact extent_nil r r'
  · rcases Reading.buffer_of_peek (reading_eq_ok hpeek) with ⟨rest, hbuffer⟩
    exact (stands_step hbuffer hst).extent hordered hpeek (takes_step t _) hst
  · exact extent_declaration hordered hpeek hss
  · have honward : r.stream.Onward r₁.stream := woven_peek.onward hpeek
    exact (extent_body (honward.ordered hordered).1 hss).of_peek hordered hpeek

/-- A line takes up the lines of the text from the place it starts from to what it has consumed
last. Its statements stand on these. -/
theorem nextLine_extent (hordered : r.stream.Ordered) (h : nextLine r = .ok (some ss) r') :
    Extent r ss r' ∧ r.stream.here ≤ r'.stream.passed := by
  rcases nextLine_cases h with ⟨t, r₁, hpeek, ht, hline⟩
  have honward : r.stream.Onward r₁.stream := woven_peek.onward hpeek
  have hextent := extent_line (honward.ordered hordered).1 hline
  have hspan := span_of_takes hordered hpeek (takes_line ht) hline
  exact ⟨hextent.of_peek hordered hpeek, Nat.le_trans hspan.1 hspan.2⟩

end

end Step

end Sm83
