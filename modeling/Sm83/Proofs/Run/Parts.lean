import Sm83.Proofs.Run.Progress

/-!
# The parts of a line

The ways in which a line can be read, each as a sequence of parts.
-/

namespace Sm83

open Outcome

namespace Step

variable {ss : List Statement}

/-- The forms of a line. -/
theorem line_cases {r r' : Run} (h : line r = .ok ss r') :
    ∃ t r₁, peek r = .ok t r₁ ∧
      (t.lexeme = .newline ∧ ss = [] ∧ discard advance r₁ = .ok ⟨⟩ r' ∨
        (∃ d st, ss = [st] ∧ (Part.conditional d).step r₁ = .ok st r') ∨
        (∃ spelling, declared? t.lexeme = some spelling ∧ declaration spelling r₁ = .ok ss r') ∨
        body r₁ = .ok ss r') := by
  rcases of_bind h with ⟨t, r₁, hpeek, h⟩
  refine ⟨t, r₁, hpeek, ?_⟩
  cases hl : t.lexeme with
  | newline =>
    rw [hl] at h
    rcases of_bind h with ⟨_, r₂, hadvance, ⟨⟩⟩
    exact .inl ⟨rfl, rfl, hadvance⟩
  | _ =>
    -- a lexeme other than the newline decides by what it starts
    rw [hl] at h
    dsimp only at h
    rw [← hl] at h
    cases hconditional : conditional? t.lexeme with
    | some d =>
      rw [hconditional] at h
      rcases of_bind h with ⟨st, _, hst, ⟨⟩⟩
      exact .inr (.inl ⟨d, st, rfl, hst⟩)
    | none =>
      cases hdeclared : declared? t.lexeme with
      | some spelling =>
        rw [hconditional, hdeclared] at h
        exact .inr (.inr (.inl ⟨spelling, hl ▸ hdeclared, h⟩))
      | none =>
        rw [hconditional, hdeclared] at h
        exact .inr (.inr (.inr h))

theorem declaration_cases {spelling : String} {r r' : Run}
    (h : declaration spelling r = .ok ss r') :
    ∃ name r₁ r₂, advance r = .ok name r₁ ∧ r₁.stream.Onward r₂.stream ∧ r₂.state = r₁.state ∧
      ((∃ st, ss = [st] ∧ definition name spelling r₂ = .ok st r') ∨
        ∃ exported st more r₃, ss = st :: more ∧ label name spelling exported r₂ = .ok st r₃ ∧
          body r₃ = .ok more r') := by
  rcases of_bind h with ⟨name, r₁, hname, h⟩
  rcases of_bind h with ⟨mark, r₂, hcolon, h⟩
  have hmarked : r₁.stream.Onward r₂.stream := woven_colon.onward hcolon
  have hstate : r₂.state = r₁.state := woven_colon.state_eq hcolon
  refine ⟨name, r₁, ?_⟩
  cases mark with
  | none =>
    rcases of_bind h with ⟨st, _, hst, ⟨⟩⟩
    exact ⟨r₂, hname, hmarked, hstate, .inl ⟨st, rfl, hst⟩⟩
  | some exported =>
    rcases of_bind h with ⟨t, r₃, hpeek, h⟩
    refine ⟨r₃, hname, hmarked.trans (woven_peek.onward hpeek),
      (state_of_reading hpeek).trans hstate, ?_⟩
    split at h
    · rcases of_bind h with ⟨st, _, hst, ⟨⟩⟩
      exact .inl ⟨st, rfl, hst⟩
    · rcases of_bind h with ⟨st, r₄, hlabel, h⟩
      rcases of_bind h with ⟨more, _, hbody, ⟨⟩⟩
      exact .inr ⟨exported, st, more, r₄, rfl, hlabel, hbody⟩

/-- The forms of the body of a line. -/
theorem body_cases {r r' : Run} (h : body r = .ok ss r') :
    ∃ t r₁, peek r = .ok t r₁ ∧ (ss = [] ∧ endLine r₁ = .ok () r' ∨
      ∃ p : Part, ∃ st r₂, ss = [st] ∧ p.step r₁ = .ok st r₂ ∧
        (r' = r₂ ∨ endLine r₂ = .ok () r')) := by
  rcases of_bind h with ⟨t, r₁, hpeek, h⟩
  refine ⟨t, r₁, hpeek, ?_⟩
  have hended : ∀ p : Part, (p.step >>= fun st => endLine >>= fun _ => pure [st]) r₁ = .ok ss r' →
      ∃ p : Part, ∃ st r₂, ss = [st] ∧ p.step r₁ = .ok st r₂ ∧
        (r' = r₂ ∨ endLine r₂ = .ok () r') := by
    intro p h
    rcases of_bind h with ⟨st, r₂, hst, h⟩
    rcases of_bind h with ⟨_, _, hend, ⟨⟩⟩
    exact ⟨p, st, r₂, rfl, hst, .inr hend⟩
  have hopen : ∀ p : Part, (p.step >>= fun st => pure [st]) r₁ = .ok ss r' →
      ∃ p : Part, ∃ st r₂, ss = [st] ∧ p.step r₁ = .ok st r₂ ∧
        (r' = r₂ ∨ endLine r₂ = .ok () r') := by
    intro p h
    rcases of_bind h with ⟨st, r₂, hst, ⟨⟩⟩
    exact ⟨p, st, _, rfl, hst, .inl rfl⟩
  cases hl : t.lexeme with
  | newline | eof =>
    rw [hl] at h
    rcases of_bind h with ⟨_, _, hend, ⟨⟩⟩
    exact .inl ⟨rfl, hend⟩
  | name spelling =>
    rw [hl] at h
    exact .inr (hopen (.call spelling) h)
  | keyword w =>
    rw [hl] at h
    dsimp only at h
    cases hm : Mnemonic.ofWord? w with
    | some m =>
      rw [hm] at h
      exact .inr (hended (.instruction m) h)
    | none =>
      cases hd : Directive.ofWord? w with
      | none =>
        rw [hm, hd] at h
        cases h
      | some d =>
        rw [hm, hd] at h
        by_cases hoption : d = .option
        · subst hoption
          exact .inr (hopen (.directive .option) h)
        · simp only [ne_eq, hoption, not_false_eq_true, if_true] at h
          exact .inr (hended (.directive d) h)
  | _ =>
    rw [hl] at h
    cases h

end Step

end Sm83
