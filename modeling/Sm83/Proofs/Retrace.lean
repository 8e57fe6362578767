import Sm83.Proofs.Outcome

/-!
# Computations that retrace one another

Two computations with state that do the same, except that each may be given fuel of its own. The
first has been run from a state, and has not got beyond a certain point. Another state that is the
same up to that point, whatever it has behind it, then lets the second computation go the same way,
unless it runs out of fuel.
-/

namespace Sm83

open Outcome

/-- How states are compared. A point is given by what stands behind it for the first computation,
and what stands there for the second. -/
structure Passage (σ : Type) where
  /-- The second state can be led to from the first. -/
  onward : σ → σ → Prop
  /-- The state has not got beyond the point. -/
  kept : List Char → σ → Prop
  /-- The states are the same up to the point. -/
  twin : List Char → List Char → σ → σ → Prop
  /-- What looks at the states cannot tell them apart. -/
  alike : σ → σ → Prop
  refl : ∀ s, onward s s
  trans : ∀ {s s' s''}, onward s s' → onward s' s'' → onward s s''
  kept_of_onward : ∀ {u s s'}, onward s s' → kept u s' → kept u s
  alike_refl : ∀ s, alike s s
  alike_of_twin : ∀ {u u' s s'}, twin u u' s s' → alike s s'

section

variable {σ α β : Type}

/-- The first computation leads onward where it succeeds, and the second retraces it from twin
states. -/
structure Retraces (P : Passage σ) (x y : EStateM Failure σ α) : Prop where
  onward : ∀ {s a s₁}, x s = .ok a s₁ → P.onward s s₁
  twin : ∀ {u u' s s' a s₁}, x s = .ok a s₁ → P.twin u u' s s' → P.kept u s₁ →
    (∃ s₁', y s' = .ok a s₁' ∧ P.twin u u' s₁ s₁') ∨ ∃ s₁', y s' = .error .exhausted s₁'

namespace Retraces

variable {P : Passage σ} {x y : EStateM Failure σ α} {k k' : α → EStateM Failure σ β}

theorem pure (a : α) : Retraces P (pure a) (pure a) := by
  constructor
  · intro s b s₁ h
    cases h
    exact P.refl s
  · intro u u' s s' b s₁ h htwin _
    cases h
    exact .inl ⟨s', rfl, htwin⟩

theorem throw (f : Failure) (y : EStateM Failure σ α) : Retraces P (throw f) y := by
  constructor
  · intro s b s₁ h
    cases h
  · intro u u' s s' b s₁ h
    cases h

theorem bind_of (hx : Retraces P x y)
    (hk : ∀ {a s s₁}, x s = .ok a s₁ → Retraces P (k a) (k' a)) :
    Retraces P (x >>= k) (y >>= k') := by
  constructor
  · intro s b s₁ h
    rcases of_bind h with ⟨a, m, hxs, hkm⟩
    exact P.trans (hx.onward hxs) ((hk hxs).onward hkm)
  · intro u u' s s' b s₁ h htwin hkept
    rcases of_bind h with ⟨a, m, hxs, hkm⟩
    -- the state in between is before the last one, so it has not got beyond the point either
    have hbetween := P.kept_of_onward ((hk hxs).onward hkm) hkept
    rcases hx.twin hxs htwin hbetween with ⟨m', hys, hm⟩ | ⟨m', hys⟩
    · rcases (hk hxs).twin hkm hm hkept with ⟨s₁', hkm', hs₁⟩ | ⟨s₁', hkm'⟩
      · exact .inl ⟨s₁', (run_bind_of_ok hys k').trans hkm', hs₁⟩
      · exact .inr ⟨s₁', (run_bind_of_ok hys k').trans hkm'⟩
    · exact .inr ⟨m', run_bind_of_error hys k'⟩

/-- One computation after another is retraced. -/
theorem bind (hx : Retraces P x y) (hk : ∀ a, Retraces P (k a) (k' a)) :
    Retraces P (x >>= k) (y >>= k') :=
  hx.bind_of fun _ => hk _

theorem get_bind {k k' : σ → EStateM Failure σ β}
    (hk : ∀ s s', P.alike s s' → Retraces P (k s) (k' s')) :
    Retraces P (get >>= k) (get >>= k') := by
  constructor
  · intro s b s₁ h
    exact (hk s s (P.alike_refl s)).onward h
  · intro u u' s s' b s₁ h htwin hkept
    exact (hk s s' (P.alike_of_twin htwin)).twin h htwin hkept

theorem modify {f f' : σ → σ} (hf : ∀ s, P.onward s (f s))
    (htwin : ∀ {u u' s s'}, P.twin u u' s s' → P.twin u u' (f s) (f' s')) :
    Retraces P (modify f : EStateM Failure σ PUnit) (modify f') := by
  constructor
  · intro s a s₁ h
    cases h
    exact hf s
  · intro u u' s s' a s₁ h hs _
    cases h
    exact .inl ⟨f' s', rfl, htwin hs⟩

theorem exhausted (h : Retraces P x y) : Retraces P x (MonadExcept.throw Failure.exhausted) :=
  ⟨h.onward, fun _ _ _ => .inr ⟨_, rfl⟩⟩

/-- More fuel retraces less. -/
theorem fuelled (run : Nat → EStateM Failure σ α)
    (hzero : run 0 = MonadExcept.throw Failure.exhausted) (hsucc : ∀ n, Retraces P x (run (n + 1)))
    (n : Nat) : Retraces P x (run n) := by
  cases n with
  | zero =>
    rw [hzero]
    exact (hsucc 0).exhausted
  | succ n => exact hsucc n

end Retraces

end

end Sm83
