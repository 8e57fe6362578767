import Sm83.Error.Basic

/-!
# Computations that follow one another

Two computations with state run side by side. The second follows the first if it fails or succeeds
with it, and their results and states stay related. Where the second has more to read than the
first, it may also go on when the first has failed.
-/

namespace Sm83

section

variable {σ α β γ δ : Type}

/-- The results of two computations, the second of which follows the first. -/
inductive Agree (lenient : Prop) (Fails : Failure → σ → Prop) (R : α → β → Prop)
    (Q : α → σ → σ → Prop) :
    EStateM.Result Failure σ α → EStateM.Result Failure σ β → Prop
  | ok {a : α} {b : β} {s s' : σ} (related : R a b) (states : Q a s s') :
    Agree lenient Fails R Q (.ok a s) (.ok b s')
  | error {f f' : Failure} {s s' : σ} (fails : Fails f s) :
    Agree lenient Fails R Q (.error f s) (.error f' s')
  | further {f : Failure} {s : σ} {b : β} {s' : σ} (allowed : lenient) (fails : Fails f s) :
    Agree lenient Fails R Q (.error f s) (.ok b s')

/-- From states related by `P`, the second computation follows the first to results related by `R`
and states related by `Q`. A failure of the first is one that `Fails` allows. -/
def Follows (lenient : Prop) (Fails : Failure → σ → Prop) (P : σ → σ → Prop)
    (x : EStateM Failure σ α) (y : EStateM Failure σ β) (R : α → β → Prop)
    (Q : α → σ → σ → Prop) : Prop :=
  ∀ s s', P s s' → Agree lenient Fails R Q (x s) (y s')

namespace Follows

variable {lenient : Prop} {Fails : Failure → σ → Prop} {P P' : σ → σ → Prop}
  {x : EStateM Failure σ α} {y : EStateM Failure σ β} {R : α → β → Prop} {Q : α → σ → σ → Prop}
  {k : α → EStateM Failure σ γ} {k' : β → EStateM Failure σ δ} {R' : γ → δ → Prop}
  {Q' : γ → σ → σ → Prop}

theorem of_ok {s s' t : σ} {a : α} (h : Follows lenient Fails P x y R Q) (hs : P s s')
    (hx : x s = .ok a t) : ∃ b t', y s' = .ok b t' ∧ R a b ∧ Q a t t' := by
  have hxy := h s s' hs
  rw [hx] at hxy
  cases hy : y s' with
  | ok b t' =>
    rw [hy] at hxy
    cases hxy with
    | ok hR hQ => exact ⟨b, t', rfl, hR, hQ⟩
  | error f t' =>
    rw [hy] at hxy
    cases hxy

theorem of_ok_strict {s s' t' : σ} {b : β} (h : Follows lenient Fails P x y R Q)
    (hstrict : ¬ lenient) (hs : P s s') (hy : y s' = .ok b t') :
    ∃ a t, x s = .ok a t ∧ R a b ∧ Q a t t' := by
  have hxy := h s s' hs
  rw [hy] at hxy
  cases hx : x s with
  | ok a t =>
    rw [hx] at hxy
    cases hxy with
    | ok hR hQ => exact ⟨a, t, rfl, hR, hQ⟩
  | error f t =>
    rw [hx] at hxy
    cases hxy with
    | further hlenient _ => exact absurd hlenient hstrict

theorem of_imp
    (h : ∀ s s' a t, P s s' → x s = .ok a t → ∃ b t', y s' = .ok b t' ∧ R a b ∧ Q a t t') :
    Follows True (fun _ _ => True) P x y R Q := by
  intro s s' hP
  cases hx : x s with
  | ok a t =>
    rcases h s s' a t hP hx with ⟨b, t', hy, hR, hQ⟩
    rw [hy]
    exact .ok hR hQ
  | error f t =>
    cases y s' with
    | ok b t' => exact .further trivial trivial
    | error f' t' => exact .error trivial

theorem pure {a : α} {b : β} (hR : R a b) (hQ : ∀ s s', P s s' → Q a s s') :
    Follows lenient Fails P (pure a) (pure b) R Q := by
  intro s s' h
  exact .ok hR (hQ s s' h)

theorem throw {f f' : Failure} (h : ∀ s s', P s s' → Fails f s) :
    Follows lenient Fails P (throw f) (throw f' : EStateM Failure σ β) R Q := by
  intro s s' hP
  exact .error (h s s' hP)

theorem vacuous (h : ∀ s s', ¬ P s s') : Follows lenient Fails P x y R Q := by
  intro s s' hP
  exact absurd hP (h s s')

/-- Computations one after the other. -/
theorem bind (hx : Follows lenient Fails P x y R Q)
    (hk : ∀ a b, R a b → Follows lenient Fails (Q a) (k a) (k' b) R' Q') :
    Follows lenient Fails P (x >>= k) (y >>= k') R' Q' := by
  intro s s' hP
  have hxy := hx s s' hP
  show Agree lenient Fails R' Q' (EStateM.bind x k s) (EStateM.bind y k' s')
  unfold EStateM.bind
  cases hxs : x s with
  | ok a t =>
    rw [hxs] at hxy
    cases hys : y s' with
    | ok b t' =>
      rw [hys] at hxy
      cases hxy with
      | ok hR hQ => exact hk a b hR t t' hQ
    | error f t' =>
      rw [hys] at hxy
      cases hxy
  | error f t =>
    rw [hxs] at hxy
    cases hys : y s' with
    | error f' t' =>
      rw [hys] at hxy
      cases hxy with
      | error hf => exact .error hf
    | ok b t' =>
      rw [hys] at hxy
      cases hxy with
      | further hlenient hf =>
        -- the second goes on alone, to whatever end
        show Agree lenient Fails R' Q' (.error f t) (k' b t')
        cases k' b t' with
        | ok c u => exact .further hlenient hf
        | error f' u => exact .error hf

theorem next {x y : EStateM Failure σ PUnit} {R : PUnit → PUnit → Prop} {Q : PUnit → σ → σ → Prop}
    {k : PUnit → EStateM Failure σ γ} {k' : PUnit → EStateM Failure σ δ}
    (hx : Follows lenient Fails P x y R Q)
    (hk : Follows lenient Fails (Q ⟨⟩) (k ⟨⟩) (k' ⟨⟩) R' Q') :
    Follows lenient Fails P (x >>= k) (y >>= k') R' Q' :=
  hx.bind fun _ _ _ => hk

theorem bind_eq {y : EStateM Failure σ α} {k' : α → EStateM Failure σ δ}
    (hx : Follows lenient Fails P x y Eq Q)
    (hk : ∀ a, Follows lenient Fails (Q a) (k a) (k' a) R' Q') :
    Follows lenient Fails P (x >>= k) (y >>= k') R' Q' :=
  hx.bind fun a _ heq => heq ▸ hk a

theorem map {f : α → γ} {f' : β → δ} (hx : Follows lenient Fails P x y R Q)
    (hR : ∀ a b, R a b → R' (f a) (f' b)) (hQ : ∀ a s s', Q a s s' → Q' (f a) s s') :
    Follows lenient Fails P (f <$> x) (f' <$> y) R' Q' := by
  intro s s' hP
  have hxy := hx s s' hP
  show Agree lenient Fails R' Q' (EStateM.map f x s) (EStateM.map f' y s')
  unfold EStateM.map
  -- the four ways in which the two runs can end; the second may get further only if that is allowed
  revert hxy
  cases x s with
  | ok a t =>
    cases y s' with
    | ok b t' =>
      rintro ⟨hab, ht⟩
      exact .ok (hR a b hab) (hQ a t t' ht)
    | error f t' =>
      intro hxy
      cases hxy
  | error f t =>
    cases y s' with
    | ok b t' =>
      intro hxy
      cases hxy with
      | further hlenient hf => exact .further hlenient hf
    | error f' t' =>
      intro hxy
      cases hxy with
      | error hf => exact .error hf

theorem mono (hx : Follows lenient Fails P x y R Q) (hP : ∀ s s', P' s s' → P s s')
    {R' : α → β → Prop} (hR : ∀ a b, R a b → R' a b)
    {Q' : α → σ → σ → Prop} (hQ : ∀ a b, R a b → ∀ s s', Q a s s' → Q' a s s') :
    Follows lenient Fails P' x y R' Q' := by
  intro s s' h
  have hxy := hx s s' (hP s s' h)
  revert hxy
  generalize x s = xs
  generalize y s' = ys
  intro hxy
  cases hxy with
  | ok hab ht => exact .ok (hR _ _ hab) (hQ _ _ hab _ _ ht)
  | error hf => exact .error hf
  | further hlenient hf => exact .further hlenient hf

theorem pre (hx : Follows lenient Fails P x y R Q) (hP : ∀ s s', P' s s' → P s s') :
    Follows lenient Fails P' x y R Q :=
  fun s s' h => hx s s' (hP s s' h)

theorem post (hx : Follows lenient Fails P x y R Q) {Q' : α → σ → σ → Prop}
    (hQ : ∀ a s s', Q a s s' → Q' a s s') : Follows lenient Fails P x y R Q' :=
  hx.mono (fun _ _ h => h) (fun _ _ h => h) fun a _ _ => hQ a

theorem keeping {K : σ → Prop} {K' : α → σ → Prop} (hx : Follows lenient Fails P x y R Q)
    (hK : ∀ s a t, K s → x s = .ok a t → K' a t) :
    Follows lenient Fails (fun s s' => P s s' ∧ K s) x y R fun a t t' => Q a t t' ∧ K' a t := by
  intro s s' h
  have hxy := hx s s' h.1
  have hok := fun a t => hK s a t h.2
  revert hxy hok
  generalize x s = xs
  generalize y s' = ys
  intro hxy hok
  cases hxy with
  | ok hab ht => exact .ok hab ⟨ht, hok _ _ rfl⟩
  | error hf => exact .error hf
  | further hlenient hf => exact .further hlenient hf

theorem discard {Q' : σ → σ → Prop} (hx : Follows lenient Fails P x y R Q)
    (hQ : ∀ a s s', Q a s s' → Q' s s') :
    Follows lenient Fails P (discard x) (discard y) (fun _ _ => True) fun _ => Q' :=
  hx.map (fun _ _ _ => trivial) hQ

theorem get_bind {k : σ → EStateM Failure σ γ} {k' : σ → EStateM Failure σ δ}
    (hk : ∀ r r', P r r' → Follows lenient Fails P (k r) (k' r') R' Q') :
    Follows lenient Fails P (get >>= k) (get >>= k') R' Q' :=
  fun s s' h => hk s s' h s s' h

theorem modify {f f' : σ → σ} {Q : PUnit → σ → σ → Prop}
    (h : ∀ s s', P s s' → Q ⟨⟩ (f s) (f' s')) :
    Follows lenient Fails P (modify f) (modify f') (fun _ _ => True) Q :=
  fun s s' hP => .ok trivial (h s s' hP)

theorem assuming {p : Prop} (hp : ∀ s s', P s s' → p) (h : p → Follows lenient Fails P x y R Q) :
    Follows lenient Fails P x y R Q :=
  fun s s' hP => h (hp s s' hP) s s' hP

theorem alone (hlenient : lenient) (hx : ∀ s s', P s s' → ∃ f t, x s = .error f t ∧ Fails f t) :
    Follows lenient Fails P x y R Q := by
  intro s s' hP
  rcases hx s s' hP with ⟨f, t, hxs, hf⟩
  rw [hxs]
  cases y s' with
  | ok b t' => exact .further hlenient hf
  | error f' t' => exact .error hf

theorem exists_pre {ι : Type} {P : ι → σ → σ → Prop}
    (h : ∀ i, Follows lenient Fails (P i) x y R Q) :
    Follows lenient Fails (fun s s' => ∃ i, P i s s') x y R Q := by
  rintro s s' ⟨i, hi⟩
  exact h i s s' hi

end Follows

end

end Sm83
