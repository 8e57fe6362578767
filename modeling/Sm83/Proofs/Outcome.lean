import Sm83.Error.Basic

/-!
# Outcomes

When a computation that may fail, and one made from it, has a given value or a given failure; tests
of results; and outcomes whose failures are errors of the source.
-/

namespace Sm83

namespace Outcome

variable {α β ε ε' σ : Type}

section

variable {x : Except ε α}

theorem map_eq_ok_iff {f : α → β} {b : β} : x.map f = .ok b ↔ ∃ a, x = .ok a ∧ f a = b := by
  cases x <;> simp [Except.map]

theorem map_eq_error_iff {f : α → β} {e : ε} : x.map f = .error e ↔ x = .error e := by
  cases x <;> simp [Except.map]

theorem mapError_eq_ok_iff {f : ε → ε'} {a : α} : x.mapError f = .ok a ↔ x = .ok a := by
  cases x with
  | ok b =>
    show (Except.ok b : Except ε' α) = .ok a ↔ _
    simp
  | error e =>
    show (Except.error (f e) : Except ε' α) = .ok a ↔ _
    simp

theorem mapError_eq_error_iff {f : ε → ε'} {e : ε'} :
    x.mapError f = .error e ↔ ∃ e', x = .error e' ∧ f e' = e := by
  cases x with
  | ok b =>
    show (Except.ok b : Except ε' α) = .error e ↔ _
    simp
  | error e' =>
    show (Except.error (f e') : Except ε' α) = .error e ↔ _
    simp

theorem bind_eq_ok_iff {f : α → Except ε β} {b : β} : x.bind f = .ok b ↔ ∃ a, x = .ok a ∧
    f a = .ok b := by
  cases x <;> simp [Except.bind]

theorem bind_eq_error_iff {f : α → Except ε β} {e : ε} :
    x.bind f = .error e ↔ x = .error e ∨ ∃ a, x = .ok a ∧ f a = .error e := by
  cases x <;> simp [Except.bind]

end

section

variable {x : EStateM ε σ α} {k : α → EStateM ε σ β} {s s' : σ} {a : α} {b : β} {e : ε}

theorem run_bind_eq_ok_iff : (x >>= k) s = .ok b s' ↔ ∃ a u, x s = .ok a u ∧ k a u = .ok b s' := by
  show EStateM.bind x k s = _ ↔ _
  unfold EStateM.bind
  cases x s with
  | ok a u =>
    constructor
    · intro h
      exact ⟨a, u, rfl, h⟩
    · rintro ⟨_, _, ⟨rfl, rfl⟩, h⟩
      exact h
  | error f u => simp

theorem of_bind (h : (x >>= k) s = .ok b s') : ∃ a u, x s = .ok a u ∧ k a u = .ok b s' :=
  run_bind_eq_ok_iff.mp h

theorem run_bind_of_ok (h : x s = .ok a s') (k : α → EStateM ε σ β) : (x >>= k) s = k a s' := by
  show EStateM.bind x k s = _
  unfold EStateM.bind
  rw [h]

theorem run_bind_of_error (h : x s = .error e s') (k : α → EStateM ε σ β) :
    (x >>= k) s = .error e s' := by
  show EStateM.bind x k s = _
  unfold EStateM.bind
  rw [h]

end

/-- A computation has ended with a value and a state that pass the test. -/
def endsWith (p : α → σ → Bool) : EStateM.Result Failure σ α → Bool
  | .ok a s => p a s
  | .error .. => false

/-- A result that is found by evaluation. -/
theorem endsWith_iff {p : α → σ → Bool} {result : EStateM.Result Failure σ α} :
    endsWith p result = true ↔ ∃ a s, result = .ok a s ∧ p a s = true := by
  cases result with
  | ok a s =>
    constructor
    · intro h
      exact ⟨a, s, rfl, h⟩
    · rintro ⟨_, _, ⟨⟩, h⟩
      exact h
  | error f s => simp [endsWith]

/-- A computation has failed with an error that passes the test. -/
def failsWith (p : Error → Bool) : EStateM.Result Failure σ α → Bool
  | .error (.error e) _ => p e
  | _ => false

theorem exists_of_failsWith {p : Error → Bool} {result : EStateM.Result Failure σ α}
    (h : failsWith p result = true) : ∃ e s, result = .error (.error e) s ∧ p e = true := by
  unfold failsWith at h
  split at h
  · next e s => exact ⟨e, s, rfl, h⟩
  · cases h

end Outcome

/-- A cause that an error of a source can have: any but a call that lacks an argument, which has no
meaning at all. -/
def Cause.isProper : Cause → Bool
  | incomplete _ => false
  | _ => true

/-- A proper cause other than a block without an end. -/
def Cause.isOrdinary : Cause → Bool
  | incomplete _ | lexical (.unterminatedBlock _) => false
  | _ => true

theorem Cause.isProper_of_isOrdinary {cause : Cause} (h : cause.isOrdinary = true) :
    cause.isProper = true := by
  cases cause with
  | incomplete f => cases h
  | _ => rfl

/-- A value with a property, or a cause that an error can have wherever it arises. -/
def Proper {α : Type} (p : α → Prop) : Except Cause α → Prop
  | .ok a => p a
  | .error cause => cause.isOrdinary = true

namespace Proper

variable {α β : Type} {p : α → Prop} {q : β → Prop} {x : Except Cause α}

theorem mono {p' : α → Prop} (hx : Proper p x) (h : ∀ a, p a → p' a) : Proper p' x := by
  cases x with
  | ok a => exact h a hx
  | error cause => exact hx

theorem map {f : α → β} (hx : Proper p x) (h : ∀ a, p a → q (f a)) : Proper q (x.map f) := by
  cases x with
  | ok a => exact h a hx
  | error cause => exact hx

theorem bind {f : α → Except Cause β} (hx : Proper p x) (h : ∀ a, p a → Proper q (f a)) :
    Proper q (x >>= f) := by
  cases x with
  | ok a => exact h a hx
  | error cause => exact hx

theorem mapM {f : α → Except Cause β} {as : List α} (h : ∀ a ∈ as, Proper q (f a)) :
    Proper (fun bs => ∀ b ∈ bs, q b) (as.mapM f) := by
  induction as with
  | nil =>
    intro b hb
    cases hb
  | cons a as ih =>
    rw [List.mapM_cons]
    refine (h a List.mem_cons_self).bind ?_
    intro b hb
    refine (ih fun a' ha' => h a' (List.mem_cons_of_mem _ ha')).bind ?_
    intro bs hbs b' hb'
    rcases List.mem_cons.mp hb' with rfl | hmem
    · exact hb
    · exact hbs b' hmem

end Proper

end Sm83
