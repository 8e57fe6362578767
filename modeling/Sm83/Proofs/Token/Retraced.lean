import Sm83.Proofs.Retrace
import Sm83.Proofs.Token.Framed
import Sm83.Proofs.Token.Onward

/-!
# Tokens retraced

Streams are compared up to a line end: the same lines stand before both, and behind these lines one
text or another. Looking ahead and consuming give the same tokens from both as long as the lines are
not left.
-/

namespace Sm83

open Outcome

namespace Stream

/-- Two streams that have the same lines before them, and have been read in the same way. -/
structure Twin (u u' : List Char) (s s' : Stream) : Prop where
  cursor : Cursor.Twin u u' s.cursor s'.cursor
  register : s'.register.commit = s.register.commit
  buffer : s'.buffer = s.buffer
  file : s'.source.file = s.source.file

/-- What there is to be seen of streams without reading them further. -/
structure Alike (s s' : Stream) : Prop where
  buffer : s'.buffer = s.buffer
  file : s'.source.file = s.source.file

/-- Streams are compared up to a line end. -/
def passage : Passage Stream where
  onward := Onward
  kept u s := s.cursor.Within u
  twin := Twin
  alike := Alike
  refl := .refl
  trans := .trans
  kept_of_onward := Onward.within
  alike_refl _ := ⟨rfl, rfl⟩
  alike_of_twin h := ⟨h.buffer, h.file⟩

variable {u u' : List Char} {s s' : Stream} {t : Token} {c c' : Cursor}

theorem Twin.read (h : Twin u u' s s') (hc : Cursor.Twin u u' c c') :
    Twin u u' (s.read t c) (s'.read t c') := by
  refine ⟨hc, ?_, ?_, h.file⟩
  · exact congrArg Register.commit h.register
  · exact congrArg (· ++ [t]) h.buffer

theorem Twin.consume {rest : List Token} (h : Twin u u' s s') (role : Role) :
    Twin u u' (s.consume role t rest) (s'.consume role t rest) := by
  refine ⟨h.cursor, h.register, ?_, h.file⟩
  simp only [Stream.consume, h.buffer]

theorem Twin.request (h : Twin u u' s s') (g : Setting) : Twin u u' (s.request g) (s'.request g) :=
  ⟨h.cursor, rfl, h.buffer, h.file⟩

end Stream

/-- The second reading retraces the first. -/
abbrev Reading.Retraces {α : Type} (x y : Reading α) : Prop :=
  Sm83.Retraces Stream.passage x y

namespace Reading

variable {s₁ : Stream}

theorem lex_eq_ok {s : Stream} (h : lex s = .ok () s₁) :
    ∃ t c, s.cursor.next s.source s.register.commit.current = .ok (t, c) ∧ s₁ = s.read t c := by
  unfold lex at h
  simp only at h
  split at h
  · next t c hnext =>
    cases h
    exact ⟨t, c, hnext, rfl⟩
  · cases h

theorem retraces_lex : Retraces lex lex := by
  constructor
  · intro s _ s₁ h
    rcases lex_eq_ok h with ⟨t, c, hnext, rfl⟩
    exact .of_read hnext
  · intro u u' s s' _ s₁ h htwin hwithin
    rcases lex_eq_ok h with ⟨t, c, hnext, rfl⟩
    rcases Cursor.next_twin htwin.cursor hnext hwithin s'.source with ⟨c', hnext', hc⟩
    rw [← htwin.register] at hnext'
    exact .inl ⟨s'.read t c', lex_fresh hnext', htwin.read hc⟩

theorem retraces_fill (n : Nat) : Retraces (fill n) (fill n) := by
  induction n with
  | zero => exact .pure ()
  | succ n ih =>
    refine .get_bind fun s s' halike => ?_
    have hend : s'.atEnd = s.atEnd :=
      congrArg (fun buffer => buffer.getLast?.any Token.isEnd) halike.buffer
    rw [hend]
    split
    · exact retraces_lex.bind fun _ => ih
    · exact .pure ()

/-- Looking ahead is retraced. -/
theorem retraces_peekAt (n : Nat) : Retraces (peekAt n) (peekAt n) := by
  refine .get_bind fun s s' halike => ?_
  rw [halike.buffer]
  refine (retraces_fill _).bind fun _ => ?_
  refine .get_bind fun s s' halike => ?_
  rw [halike.buffer]
  split
  · exact .pure _
  · exact .throw _ _

theorem retraces_peek : Retraces peek peek :=
  retraces_peekAt 0

theorem buffer_of_peek {s : Stream} {t : Token} (h : peek s = .ok t s₁) :
    ∃ rest, s₁.buffer = t :: rest := by
  rcases of_bind h with ⟨_, _, ⟨⟩, h⟩
  rcases of_bind h with ⟨_, s₂, _, h⟩
  rcases of_bind h with ⟨_, _, ⟨⟩, h⟩
  cases hbuffer : s₂.buffer with
  | nil =>
    simp only [hbuffer, List.getElem?_nil, List.getLast?_nil] at h
    cases h
  | cons first rest =>
    simp only [hbuffer, List.getElem?_cons_zero] at h
    cases h
    exact ⟨rest, hbuffer⟩

theorem advanceAs_eq_ok {role : Role} {s : Stream} {t : Token} (h : advanceAs role s = .ok t s₁) :
    ∃ s' rest, peek s = .ok t s' ∧ s'.buffer = t :: rest ∧ s₁ = s'.consume role t rest := by
  rcases of_bind h with ⟨t', s', hpeek, hmodify⟩
  rcases buffer_of_peek hpeek with ⟨rest, hbuffer⟩
  rcases of_bind hmodify with ⟨_, _, ⟨⟩, ⟨⟩⟩
  refine ⟨s', rest, hpeek, hbuffer, ?_⟩
  simp only [Stream.consume, hbuffer, List.tail_cons]

theorem retraces_advanceAs (role : Role) : Retraces (advanceAs role) (advanceAs role) := by
  constructor
  · intro s t s₁ h
    rcases advanceAs_eq_ok h with ⟨s', rest, hpeek, hbuffer, rfl⟩
    exact (retraces_peek.onward hpeek).trans (.of_consume role hbuffer)
  · intro u u' s s' t s₁ h htwin hwithin
    rcases advanceAs_eq_ok h with ⟨m, rest, hpeek, hbuffer, rfl⟩
    rcases retraces_peek.twin hpeek htwin hwithin with ⟨m', hpeek', hm⟩ | ⟨m', hpeek'⟩
    · refine .inl ⟨m'.consume role t rest, ?_, hm.consume role⟩
      exact advanceAs_of_peek role hpeek' (hm.buffer.trans hbuffer)
    · exact .inr ⟨m', advanceAs_of_peek_error role hpeek'⟩

end Reading

end Sm83
