import Sm83.Proofs.Expr.Final

/-!
# How far an invalid result is final

An expression that is found invalid stays so when more becomes known, with one exception. A logical
operator waits for its left operand and meanwhile reports that its right operand is invalid; if the
left operand then turns out to settle the operator, the right one no longer counts and the operator
has a value.
-/

namespace Sm83

namespace Expr

/-- Evaluation has failed, and not for want of a value or of an argument. -/
def IsInvalid {α : Type} (x : Except Obstacle α) : Prop :=
  ∃ reason, x = .error (.invalid reason)

/-- Between two resolvers the left operand of a logical operator has become known and settles it,
while its right operand was invalid. -/
def Reprieved (r r' : Resolver) (e : Expr) : Prop :=
  ∃ op a b, e = binary op a b ∧ (∃ missing, a.value r = .error (.deferred missing)) ∧
    IsInvalid (b.value r) ∧ ∃ v w, a.value r' = .ok v ∧ settled? op v = some w

/-- What is invalid under one resolver, as a number or as a text, is invalid under another. -/
structure Persists (r r' : Resolver) (e : Expr) : Prop where
  number : IsInvalid (e.value r) → IsInvalid (e.value r')
  text : IsInvalid (e.textValue r) → IsInvalid (e.textValue r')

section

variable {α β : Type} {x : Except Obstacle α}

theorem isInvalid_map_iff {f : α → β} : IsInvalid (x.map f) ↔ IsInvalid x := by
  simp only [IsInvalid, Outcome.map_eq_error_iff]

theorem isInvalid_bind_iff {f : α → Except Obstacle β} :
    IsInvalid (x.bind f) ↔ IsInvalid x ∨ ∃ a, x = .ok a ∧ IsInvalid (f a) := by
  cases x with
  | ok a => simp [IsInvalid, Except.bind]
  | error o => simp [IsInvalid, Except.bind]

theorem mem_of_isInvalid_gather {results : List (Except Obstacle α)}
    (h : IsInvalid (gather results)) : ∃ x ∈ results, IsInvalid x := by
  induction results with
  | nil =>
    obtain ⟨reason, h⟩ := h
    cases h
  | cons x rest ih =>
    obtain ⟨reason, h⟩ := h
    unfold gather at h
    split at h <;> cases h
    · exact ⟨_, List.mem_cons_self, reason, rfl⟩
    · next hrest =>
      obtain ⟨y, hy, hinvalid⟩ := ih ⟨reason, hrest⟩
      exact ⟨y, List.mem_cons_of_mem _ hy, hinvalid⟩

theorem isInvalid_gather {results : List (Except Obstacle α)}
    (hcomplete : ∀ x ∈ results, ∀ f, x ≠ .error (.incomplete f))
    (h : ∃ x ∈ results, IsInvalid x) : IsInvalid (gather results) := by
  induction results with
  | nil =>
    obtain ⟨x, hx, _⟩ := h
    cases hx
  | cons x rest ih =>
    have hrest : ∀ y ∈ rest, ∀ f, y ≠ .error (.incomplete f) :=
      fun y hy => hcomplete y (List.mem_cons_of_mem _ hy)
    have hgather : ∀ f, gather rest ≠ .error (.incomplete f) :=
      fun f hf => hrest _ (incomplete_mem_of_gather hf) f rfl
    unfold gather
    split
    · next f => exact absurd rfl (hcomplete _ List.mem_cons_self f)
    · next hf => exact absurd hf (hgather _)
    · exact ⟨_, rfl⟩
    · exact ⟨_, rfl⟩
    -- neither the first result nor the others are invalid
    all_goals
      next hothers =>
      obtain ⟨y, hy, hinvalid⟩ := h
      rcases List.mem_cons.mp hy with rfl | hy
      · obtain ⟨reason, hreason⟩ := hinvalid
        cases hreason
      · obtain ⟨reason, hreason⟩ := ih hrest ⟨y, hy, hinvalid⟩
        rw [hreason] at hothers
        cases hothers

/-- When an operator is invalid. -/
theorem isInvalid_combineBinary_iff {op : BinaryOp} {x y : Except Obstacle Int}
    (hx : ∀ f, x ≠ .error (.incomplete f)) (hy : ∀ f, y ≠ .error (.incomplete f)) :
    IsInvalid (combineBinary op x y) ↔
      IsInvalid x ∨ (∃ missing, x = .error (.deferred missing) ∧ IsInvalid y) ∨
        ∃ a, x = .ok a ∧ settled? op a = none ∧
          (IsInvalid y ∨ ∃ b reason, y = .ok b ∧ applyBinary op a b = .error reason) := by
  rcases x with (missing | reason | f) | a
  · rcases y with (missing' | reason' | f') | b
    · simp [IsInvalid, combineBinary]
    · simp [IsInvalid, combineBinary]
    · exact absurd rfl (hy f')
    · simp [IsInvalid, combineBinary]
  · rcases y with (missing' | reason' | f') | b
    · simp [IsInvalid, combineBinary]
    · simp [IsInvalid, combineBinary]
    · exact absurd rfl (hy f')
    · simp [IsInvalid, combineBinary]
  · exact absurd rfl (hx f)
  · -- with a left side the right one is looked at only if the left has not settled the result
    cases hs : settled? op a with
    | some w =>
      rw [combineBinary_settled hs hy]
      simp [IsInvalid, hs]
    | none =>
      cases y with
      | error o =>
        rw [combineBinary_open hs]
        simp [IsInvalid, hs]
      | ok b =>
        rw [combineBinary_known hs]
        simp [IsInvalid, hs, Outcome.mapError_eq_error_iff]

end

section

variable {r r' : Resolver} {args : List Expr}

theorem isInvalid_gather_values_persists (hlegal : ∀ e ∈ args, e.legal)
    (hargs : ∀ e ∈ args, Persists r r' e) (h : IsInvalid (gather (values r args))) :
    IsInvalid (gather (values r' args)) := by
  obtain ⟨x, hx, hinvalid⟩ := mem_of_isInvalid_gather h
  rw [values_eq_map] at hx
  obtain ⟨e, he, rfl⟩ := List.mem_map.mp hx
  rw [values_eq_map]
  refine isInvalid_gather ?_ ⟨e.value r', List.mem_map_of_mem he, (hargs e he).number hinvalid⟩
  intro y hy f
  obtain ⟨e', he', rfl⟩ := List.mem_map.mp hy
  exact (not_incomplete_of_legal (hlegal e' he') r' f).1

theorem isInvalid_texts_persists (hkept : ∀ e ∈ args, Kept r r' e)
    (hargs : ∀ e ∈ args, Persists r r' e) (h : IsInvalid (texts r args)) :
    IsInvalid (texts r' args) := by
  induction args with
  | nil =>
    obtain ⟨reason, h⟩ := h
    cases h
  | cons e rest ih =>
    have hrest := ih (fun e he => hkept e (List.mem_cons_of_mem _ he))
      (fun e he => hargs e (List.mem_cons_of_mem _ he))
    obtain ⟨reason, h⟩ := h
    unfold texts at h ⊢
    split at h
    · next o he =>
      cases h
      obtain ⟨reason', he'⟩ := (hargs e List.mem_cons_self).text ⟨reason, he⟩
      rw [he']
      exact ⟨reason', rfl⟩
    · next t ht =>
      rw [(hkept e List.mem_cons_self).text t ht]
      split at h <;> cases h
      next htexts =>
      obtain ⟨reason', hreason⟩ := hrest ⟨reason, htexts⟩
      rw [hreason]
      exact ⟨reason', rfl⟩

theorem value_call_persists {f : Function} (hf : f.inspects = false) (hlegal : ∀ e ∈ args, e.legal)
    (hkept : ∀ e ∈ args, Kept r r' e) (hargs : ∀ e ∈ args, Persists r r' e)
    (h : IsInvalid (value r (call f args))) : IsInvalid (value r' (call f args)) := by
  rcases f.family_cases with rfl | hfamily | hfamily | hfamily | hfamily
  · -- a bank is waited for, whatever its argument
    obtain ⟨names, hbank⟩ := value_bank r args
    obtain ⟨reason, h⟩ := h
    rw [hbank] at h
    cases h
  · rw [hf] at hfamily
    cases hfamily
  · -- either a text is invalid, or the texts are all known and the function does not take them
    rw [value_call_readsTexts _ _ hfamily, isInvalid_bind_iff] at h ⊢
    rcases h with htexts | ⟨ts, hts, happly⟩
    · exact .inl (isInvalid_texts_persists hkept hargs htexts)
    · exact .inr ⟨ts, texts_kept hkept hts, happly⟩
  · rw [value_call_yieldsText _ _ hfamily]
    exact ⟨_, rfl⟩
  · rw [value_call_isNumeric _ _ hfamily, isInvalid_bind_iff] at h ⊢
    rcases h with hgather | ⟨vs, hvs, happly⟩
    · exact .inl (isInvalid_gather_values_persists hlegal hargs hgather)
    · exact .inr ⟨vs, gather_values_kept hkept hvs, happly⟩

theorem textValue_call_persists {f : Function} (hlegal : ∀ e ∈ args, e.legal)
    (hkept : ∀ e ∈ args, Kept r r' e) (hargs : ∀ e ∈ args, Persists r r' e)
    (h : IsInvalid (textValue r (call f args))) : IsInvalid (textValue r' (call f args)) := by
  cases f with
  | strupr | strlwr =>
    cases args with
    | nil => simp [IsInvalid, textValue] at h
    | cons e rest =>
      simp only [textValue, isInvalid_map_iff] at h ⊢
      exact (hargs e List.mem_cons_self).text h
  | strcat =>
    simp only [textValue, isInvalid_map_iff] at h ⊢
    exact isInvalid_texts_persists hkept hargs h
  | strsub =>
    cases args with
    | nil => simp [IsInvalid, textValue] at h
    | cons e bounds =>
      have htail : ∀ b ∈ bounds, b ∈ e :: bounds := fun b hb => List.mem_cons_of_mem _ hb
      rw [textValue_strsub, isInvalid_bind_iff] at h ⊢
      rcases h with he | ⟨t, ht, h⟩
      · exact .inl ((hargs e List.mem_cons_self).text he)
      refine .inr ⟨t, (hkept e List.mem_cons_self).text t ht, ?_⟩
      rw [isInvalid_bind_iff] at h ⊢
      rcases h with hgather | ⟨vs, hvs, hcut⟩
      · exact .inl (isInvalid_gather_values_persists (fun b hb => hlegal b (htail b hb))
          (fun b hb => hargs b (htail b hb)) hgather)
      · exact .inr ⟨vs, gather_values_kept (fun b hb => hkept b (htail b hb)) hvs, hcut⟩
  | _ => simp [IsInvalid, textValue]

end

section

variable {r r' : Resolver}

theorem symbol_persists (h : r.ExtendedBy r') (name : String) : Persists r r' (symbol name) := by
  cases hname : r.value name with
  | none =>
    constructor
    · simp [IsInvalid, value, hname]
    · simp [IsInvalid, textValue, hname]
  | some w =>
    have hname' := h name w hname
    constructor
    · simp [value, hname, hname']
    · simp [textValue, hname, hname']

theorem binary_persists {op : BinaryOp} {a b : Expr} (hla : a.legal) (hlb : b.legal)
    (hka : Kept r r' a) (hkb : Kept r r' b) (ha : Persists r r' a) (hb : Persists r r' b)
    (hnot : ¬ Reprieved r r' (binary op a b)) (h : IsInvalid (value r (binary op a b))) :
    IsInvalid (value r' (binary op a b)) := by
  have hcomplete : ∀ {e : Expr}, e.legal → ∀ (r : Resolver) f, e.value r ≠ .error (.incomplete f) :=
    fun he r f => (not_incomplete_of_legal he r f).1
  rw [value, isInvalid_combineBinary_iff (hcomplete hla r) (hcomplete hlb r)] at h
  rw [value, isInvalid_combineBinary_iff (hcomplete hla r') (hcomplete hlb r')]
  rcases h with hleft | ⟨missing, hleft, hright⟩ | ⟨v, hleft, hopen, hright⟩
  · exact .inl (ha.number hleft)
  · -- the left operand was waited for: now it is known, and leaves the operator open, or it is not
    have hright' := hb.number hright
    rcases hleft' : a.value r' with (missing' | reason | f) | v
    · exact .inr (Or.inl ⟨missing', rfl, hright'⟩)
    · exact .inl ⟨reason, rfl⟩
    · exact absurd hleft' (hcomplete hla r' f)
    · cases hs : settled? op v with
      | none => exact .inr (Or.inr ⟨v, rfl, hs, Or.inl hright'⟩)
      | some w =>
        exact absurd ⟨op, a, b, rfl, ⟨missing, hleft⟩, hright, v, w, hleft', hs⟩ hnot
  · -- the left operand was known, so it has the same value and leaves the operator open as before
    refine .inr (Or.inr ⟨v, hka.number v hleft, hopen, ?_⟩)
    rcases hright with hright | ⟨w, reason, hright, happly⟩
    · exact .inl (hb.number hright)
    · exact .inr ⟨w, reason, hkb.number w hright, happly⟩

/-- Without a reprieve an invalid expression stays so. -/
theorem persists_of_not_reprieved (h : r.ExtendedBy r') {e : Expr} (hlegal : e.legal)
    (hsteady : e.steady) (hnot : ∀ p ∈ e.parts, ¬ Reprieved r r' p) : Persists r r' e := by
  -- the parts of an operand are parts of the whole, so the hypothesis passes on to the operands
  induction e with
  | literal n => exact ⟨id, id⟩
  | text s => exact ⟨id, id⟩
  | symbol name => exact symbol_persists h name
  | unary op e ih =>
    simp only [parts, List.mem_cons, forall_eq_or_imp] at hnot
    have he := ih (everyCall_unary.mp hlegal) (everyCall_unary.mp hsteady) hnot.2
    constructor
    · intro hv
      rw [value, isInvalid_map_iff] at hv ⊢
      exact he.number hv
    · simp [IsInvalid, textValue]
  | binary op a b iha ihb =>
    obtain ⟨hla, hlb⟩ := everyCall_binary.mp hlegal
    obtain ⟨hsa, hsb⟩ := everyCall_binary.mp hsteady
    simp only [parts, List.mem_cons, List.mem_append, forall_eq_or_imp] at hnot
    have ha := iha hla hsa fun p hp => hnot.2 p (Or.inl hp)
    have hb := ihb hlb hsb fun p hp => hnot.2 p (Or.inr hp)
    constructor
    · exact binary_persists hla hlb (kept_of_extendedBy h hla hsa) (kept_of_extendedBy h hlb hsb)
        ha hb hnot.1
    · simp [IsInvalid, textValue]
  | call f args ih =>
    obtain ⟨_, hlargs⟩ := everyCall_call.mp hlegal
    obtain ⟨hf, hsargs⟩ := everyCall_call.mp hsteady
    simp only [parts, List.mem_cons, mem_partsAll, forall_eq_or_imp] at hnot
    have hkept : ∀ e ∈ args, Kept r r' e :=
      fun e he => kept_of_extendedBy h (hlargs e he) (hsargs e he)
    have hargs : ∀ e ∈ args, Persists r r' e :=
      fun e he => ih e he (hlargs e he) (hsargs e he) fun p hp => hnot.2 p ⟨e, he, hp⟩
    constructor
    · exact value_call_persists (by simpa using hf) hlargs hkept hargs
    · exact textValue_call_persists hlargs hkept hargs

theorem known_of_reprieved {e : Expr} (hlegal : e.legal) (h : Reprieved r r' e) :
    IsInvalid (e.value r) ∧ ∃ v, e.value r' = .ok v := by
  obtain ⟨op, a, b, rfl, ⟨missing, hleft⟩, ⟨reason, hright⟩, v, w, hleft', hsettled⟩ := h
  obtain ⟨_, hlb⟩ := everyCall_binary.mp hlegal
  constructor
  · rw [value, hleft, hright]
    exact ⟨reason, rfl⟩
  · rw [value, hleft']
    exact ⟨w, combineBinary_settled hsettled fun f => (not_incomplete_of_legal hlb r' f).1⟩

end

/-- An invalid result is final exactly as far as no operator is reprieved: with more known an
invalid expression is invalid still or has a part that is reprieved, and an operator that is
reprieved is one that was invalid and has a value now. -/
theorem invalid_stays_unless_reprieved (r r' : Resolver) (h : r.ExtendedBy r') (e : Expr)
    (hlegal : e.legal) (hsteady : e.steady) :
    (IsInvalid (e.value r) → IsInvalid (e.value r') ∨ ∃ p ∈ e.parts, Reprieved r r' p) ∧
      (IsInvalid (e.textValue r) → IsInvalid (e.textValue r') ∨ ∃ p ∈ e.parts, Reprieved r r' p) ∧
      (Reprieved r r' e → IsInvalid (e.value r) ∧ ∃ v, e.value r' = .ok v) := by
  have hpersists : Persists r r' e ∨ ∃ p ∈ e.parts, Reprieved r r' p := by
    by_cases hpart : ∃ p ∈ e.parts, Reprieved r r' p
    · exact .inr hpart
    · exact .inl (persists_of_not_reprieved h hlegal hsteady fun p hp hr => hpart ⟨p, hp, hr⟩)
  refine ⟨?_, ?_, known_of_reprieved hlegal⟩
  · intro hv
    exact hpersists.imp_left fun hp => hp.number hv
  · intro ht
    exact hpersists.imp_left fun hp => hp.text ht

/-- A name that turns out not to be zero leaves a conjunction open, and its right operand is as
invalid as before. -/
theorem invalid_stays_unless_reprieved_open :
    let r := Resolver.empty
    let r' := Resolver.ofValues fun name => if name = "later" then some (.number 1) else none
    let e := binary .logicalAnd (symbol "later") (binary .div (literal 1) (literal 0))
    r.ExtendedBy r' ∧ e.legal ∧ e.steady ∧ IsInvalid (e.value r) ∧
      (IsInvalid (e.value r') ∨ ∃ p ∈ e.parts, Reprieved r r' p) := by
  intro r r' e
  have hr : r.ExtendedBy r' := by
    intro name v hv
    cases hv
  have hlegal : e.legal := by decide
  have hsteady : e.steady := by decide
  have hv : IsInvalid (e.value r) := ⟨.divisionByZero, rfl⟩
  exact ⟨hr, hlegal, hsteady, hv, (invalid_stays_unless_reprieved r r' hr e hlegal hsteady).1 hv⟩

/-- A name that turns out to be zero settles a conjunction that was found invalid before. -/
theorem invalid_conjunction_becomes_known :
    let r := Resolver.empty
    let r' := Resolver.ofValues fun name => if name = "later" then some (.number 0) else none
    let e := binary .logicalAnd (symbol "later") (binary .div (literal 1) (literal 0))
    r.ExtendedBy r' ∧ e.legal ∧ e.steady ∧ IsInvalid (e.value r) ∧ e.value r' = .ok 0 := by
  intro r r' e
  refine ⟨?_, by decide, by decide, ⟨.divisionByZero, rfl⟩, rfl⟩
  intro name v hv
  cases hv

end Expr

end Sm83
