import Sm83.Proofs.Expr.Names

/-!
# What a deferred expression waits for

An expression whose value is put off names what it waits for. Each of these names occurs in the
expression and has no value, so that an expression all of whose names have values is never put off.
The exception is a bank, which is assigned later whatever is known.
-/

namespace Sm83

open Outcome

namespace Expr

/-- No call asks for a bank. -/
def bankless (e : Expr) : Bool :=
  e.everyCall fun f _ => f ≠ .bank

/-- Names that a result may wait for: there is at least one, none stands twice, and each is one of
the given names and has no value. -/
structure Awaited (r : Resolver) (names missing : List String) : Prop where
  nonempty : missing ≠ []
  nodup : missing.Nodup
  occurs : ∀ name ∈ missing, name ∈ names
  unknown : ∀ name ∈ missing, r.value name = none

/-- Where the value of an expression, as a number or as a text, is put off, it waits for names of
the expression. -/
structure Waits (r : Resolver) (e : Expr) : Prop where
  number : ∀ missing, e.value r = .error (.deferred missing) → Awaited r e.symbols missing
  text : ∀ missing, e.textValue r = .error (.deferred missing) → Awaited r e.symbols missing

theorem nodup_mergeNames {names more : List String} (h : names.Nodup) (hmore : more.Nodup) :
    (mergeNames names more).Nodup := by
  unfold mergeNames
  rw [List.nodup_append]
  refine ⟨h, hmore.sublist List.filter_sublist, ?_⟩
  intro a ha b hb hab
  -- what is appended is none of the names
  have hnew : b ∉ names := by simpa using (List.mem_filter.mp hb).2
  exact hnew (hab ▸ ha)

section

variable {r : Resolver} {names names' missing missing' : List String}

namespace Awaited

theorem mono (h : Awaited r names missing) (hnames : ∀ name ∈ names, name ∈ names') :
    Awaited r names' missing :=
  ⟨h.nonempty, h.nodup, fun name hname => hnames name (h.occurs name hname), h.unknown⟩

theorem merge (h : Awaited r names missing) (h' : Awaited r names missing') :
    Awaited r names (mergeNames missing missing') := by
  constructor
  · intro hempty
    exact h.nonempty (List.append_eq_nil_iff.mp hempty).1
  · exact nodup_mergeNames h.nodup h'.nodup
  · intro name hname
    rcases mem_mergeNames.mp hname with hleft | hright
    · exact h.occurs name hleft
    · exact h'.occurs name hright
  · intro name hname
    rcases mem_mergeNames.mp hname with hleft | hright
    · exact h.unknown name hleft
    · exact h'.unknown name hright

theorem exists_unknown (h : Awaited r names missing) : ∃ name ∈ names, r.value name = none := by
  rcases List.exists_mem_of_ne_nil missing h.nonempty with ⟨name, hname⟩
  exact ⟨name, h.occurs name hname, h.unknown name hname⟩

theorem single {name : String} (h : r.value name = none) : Awaited r [name] [name] := by
  refine ⟨by simp, by simp, by simp, ?_⟩
  intro other hother
  rw [List.mem_singleton.mp hother]
  exact h

end Awaited

theorem awaited_of_gather {α : Type} {results : List (Except Obstacle α)}
    (hresults : ∀ missing, .error (.deferred missing) ∈ results → Awaited r names missing)
    (h : gather results = .error (.deferred missing)) : Awaited r names missing := by
  induction results generalizing missing with
  | nil => cases h
  | cons x rest ih =>
    have hrest := fun missing hmem => hresults missing (List.mem_cons_of_mem x hmem)
    unfold gather at h
    split at h <;> cases h
    · -- both the first result and the others are put off
      next hothers => exact (hresults _ List.mem_cons_self).merge (ih hrest hothers)
    · exact hresults _ List.mem_cons_self
    · next hothers => exact ih hrest hothers

/-- An operator waits for what its operands wait for. -/
theorem awaited_of_combineBinary {op : BinaryOp} {x y : Except Obstacle Int}
    (hx : ∀ missing, x = .error (.deferred missing) → Awaited r names missing)
    (hy : ∀ missing, y = .error (.deferred missing) → Awaited r names missing)
    (h : combineBinary op x y = .error (.deferred missing)) : Awaited r names missing := by
  rcases x with (m | reason | f) | a
  · rcases y with (n | reason' | f') | b
    · cases h
      exact (hx m rfl).merge (hy n rfl)
    · cases h
    · cases h
    · cases h
      exact hx _ rfl
  · rcases y with (n | reason' | f') | b <;> cases h
  · cases h
  · cases hs : settled? op a with
    | none =>
      cases y with
      | error o =>
        rw [combineBinary_open hs] at h
        exact hy missing h
      | ok b =>
        -- two known operands: what can go wrong is invalid
        rw [combineBinary_known hs, mapError_eq_error_iff] at h
        rcases h with ⟨reason, _, hreason⟩
        cases hreason
    | some v =>
      by_cases hlacks : ∃ f, y = .error (.incomplete f)
      · rcases hlacks with ⟨f, rfl⟩
        cases h
      · rw [combineBinary_settled hs fun f hf => hlacks ⟨f, hf⟩] at h
        cases h

end

section

variable {f : Function} {missing : List String}

theorem applyTexts_ne_deferred (ts : List String) :
    applyTexts f ts ≠ .error (.deferred missing) := by
  intro h
  unfold applyTexts at h
  split at h <;> cases h

theorem applyNumeric_ne_deferred (vs : List Int) :
    applyNumeric f vs ≠ .error (.deferred missing) := by
  intro h
  unfold applyNumeric at h
  split at h <;> (try split at h) <;> cases h

theorem cut_ne_deferred (t : String) (bounds : List Int) :
    cut t bounds ≠ .error (.deferred missing) := by
  intro h
  unfold cut at h
  split at h
  · rcases mapError_eq_error_iff.mp h with ⟨reason, _, hreason⟩
    cases hreason
  · cases h

theorem inspects_ne_deferred (r : Resolver) (args : List Expr) (hf : f.inspects) :
    value r (call f args) ≠ .error (.deferred missing) := by
  intro h
  cases f <;> simp only [Function.inspects, Bool.false_eq_true] at hf
  · -- a deferred argument is the answer that it is not constant
    simp only [value] at h
    split at h
    · cases h
    · cases h
    · cases h
    · cases h
    · next hother _ _ =>
      cases h
      exact hother _ rfl
  · simp only [value] at h
    split at h <;> cases h

end

section

variable {r : Resolver} {args : List Expr} {f : Function} {missing : List String}

theorem awaited_of_arg {e : Expr} (he : e ∈ args) (h : Awaited r e.symbols missing) :
    Awaited r (call f args).symbols missing := by
  apply h.mono
  intro name hname
  exact mem_symbolsAll.mpr (.inr ⟨e, he, hname⟩)

theorem awaited_of_values {chosen : List Expr} (hchosen : ∀ e ∈ chosen, e ∈ args)
    (hargs : ∀ e ∈ args, Waits r e) (h : gather (values r chosen) = .error (.deferred missing)) :
    Awaited r (call f args).symbols missing := by
  refine awaited_of_gather ?_ h
  intro missing hmem
  rw [values_eq_map] at hmem
  rcases List.mem_map.mp hmem with ⟨e, he, hvalue⟩
  exact awaited_of_arg (hchosen e he) ((hargs e (hchosen e he)).number missing hvalue)

theorem awaited_of_texts (hargs : ∀ e ∈ args, Waits r e)
    (h : texts r args = .error (.deferred missing)) : Awaited r (call f args).symbols missing := by
  rcases error_of_texts h with ⟨e, he, htext⟩
  exact awaited_of_arg he ((hargs e he).text missing htext)

theorem awaited_of_value_call (hf : f ≠ .bank) (hargs : ∀ e ∈ args, Waits r e)
    (h : value r (call f args) = .error (.deferred missing)) :
    Awaited r (call f args).symbols missing := by
  rcases f.family_cases with hfamily | hfamily | hfamily | hfamily | hfamily
  · exact absurd hfamily hf
  · exact absurd h (inspects_ne_deferred r args hfamily)
  · rw [value_call_readsTexts _ _ hfamily, bind_eq_error_iff] at h
    rcases h with htexts | ⟨ts, _, happly⟩
    · exact awaited_of_texts hargs htexts
    · exact absurd happly (applyTexts_ne_deferred ts)
  · rw [value_call_yieldsText _ _ hfamily] at h
    cases h
  · rw [value_call_isNumeric _ _ hfamily, bind_eq_error_iff] at h
    rcases h with hgather | ⟨vs, _, happly⟩
    · exact awaited_of_values (fun _ he => he) hargs hgather
    · exact absurd happly (applyNumeric_ne_deferred vs)

theorem awaited_of_textValue_call (hargs : ∀ e ∈ args, Waits r e)
    (h : textValue r (call f args) = .error (.deferred missing)) :
    Awaited r (call f args).symbols missing := by
  cases f with
  | strupr | strlwr =>
    cases args with
    | nil => simp [textValue] at h
    | cons e rest =>
      simp only [textValue, map_eq_error_iff] at h
      exact awaited_of_arg List.mem_cons_self ((hargs e List.mem_cons_self).text missing h)
  | strcat =>
    simp only [textValue, map_eq_error_iff] at h
    exact awaited_of_texts hargs h
  | strsub =>
    cases args with
    | nil => simp [textValue] at h
    | cons e bounds =>
      rw [textValue_strsub, bind_eq_error_iff] at h
      rcases h with he | ⟨t, _, h⟩
      · exact awaited_of_arg List.mem_cons_self ((hargs e List.mem_cons_self).text missing he)
      rw [bind_eq_error_iff] at h
      rcases h with hgather | ⟨vs, _, hcut⟩
      · exact awaited_of_values (fun b hb => List.mem_cons_of_mem e hb) hargs hgather
      · exact absurd hcut (cut_ne_deferred t vs)
  | _ => simp [textValue] at h

end

theorem waits_symbol (r : Resolver) (name : String) : Waits r (symbol name) := by
  cases hname : r.value name with
  | none =>
    constructor
    · intro missing h
      simp only [value, hname, Except.error.injEq, Obstacle.deferred.injEq] at h
      subst h
      exact .single hname
    · intro missing h
      simp only [textValue, hname, Except.error.injEq, Obstacle.deferred.injEq] at h
      subst h
      exact .single hname
  | some v =>
    constructor
    · intro missing h
      cases v <;> simp [value, hname] at h
    · intro missing h
      cases v <;> simp [textValue, hname] at h

/-- Without banks, what is waited for is missing. -/
theorem waits_of_bankless {e : Expr} (h : e.bankless) (r : Resolver) : Waits r e := by
  induction e with
  | literal n =>
    constructor
    · intro missing hv
      cases hv
    · intro missing ht
      cases ht
  | text s =>
    constructor
    · intro missing hv
      cases hv
    · intro missing ht
      cases ht
  | symbol name => exact waits_symbol r name
  | unary op e ih =>
    have he := ih (everyCall_unary.mp h)
    constructor
    · intro missing hv
      rw [value, map_eq_error_iff] at hv
      exact he.number missing hv
    · intro missing ht
      simp [textValue] at ht
  | binary op a b iha ihb =>
    rcases everyCall_binary.mp h with ⟨hla, hlb⟩
    have hleft : ∀ name ∈ a.symbols, name ∈ (binary op a b).symbols :=
      fun name hname => mem_mergeNames.mpr (.inl hname)
    have hright : ∀ name ∈ b.symbols, name ∈ (binary op a b).symbols :=
      fun name hname => mem_mergeNames.mpr (.inr hname)
    constructor
    · intro missing hv
      rw [value] at hv
      refine awaited_of_combineBinary ?_ ?_ hv
      · intro missing ha
        exact ((iha hla).number missing ha).mono hleft
      · intro missing hb
        exact ((ihb hlb).number missing hb).mono hright
    · intro missing ht
      simp [textValue] at ht
  | call f args ih =>
    rcases everyCall_call.mp h with ⟨hf, hbankless⟩
    have hargs : ∀ e ∈ args, Waits r e := fun e he => ih e he (hbankless e he)
    constructor
    · intro missing hv
      exact awaited_of_value_call (by simpa using hf) hargs hv
    · intro missing ht
      exact awaited_of_textValue_call hargs ht

/-- What a result waits for is a list without repetition of at least one name, each of which occurs
in the expression and has no value. So nothing is put off once all names have values. -/
theorem deferred_names_missing (r : Resolver) (e : Expr) (h : e.bankless) :
    (∀ missing, e.value r = .error (.deferred missing) ∨
      e.textValue r = .error (.deferred missing) →
      missing ≠ [] ∧ missing.Nodup ∧ ∀ name ∈ missing, name ∈ e.symbols ∧ r.value name = none) ∧
    ((∀ name ∈ e.symbols, r.value name ≠ none) → ∀ missing,
      e.value r ≠ .error (.deferred missing) ∧ e.textValue r ≠ .error (.deferred missing)) := by
  have hwaits := waits_of_bankless h r
  have hnone : ∀ missing, (∀ name ∈ e.symbols, r.value name ≠ none) →
      ¬ Awaited r e.symbols missing := by
    intro missing hknown hawaited
    rcases hawaited.exists_unknown with ⟨name, hname, hunknown⟩
    exact hknown name hname hunknown
  constructor
  · intro missing hdeferred
    have hawaited : Awaited r e.symbols missing :=
      hdeferred.elim (hwaits.number missing) (hwaits.text missing)
    refine ⟨hawaited.nonempty, hawaited.nodup, ?_⟩
    intro name hname
    exact ⟨hawaited.occurs name hname, hawaited.unknown name hname⟩
  · intro hknown missing
    exact ⟨fun hv => hnone missing hknown (hwaits.number missing hv),
      fun ht => hnone missing hknown (hwaits.text missing ht)⟩

/-- A sum of a name, a part of a text and the name again waits for two names; the conjunction behind
them is settled and waits for nothing. -/
theorem deferred_names_missing_twice :
    let r := Resolver.ofValues fun name => if name = "title" then some (.text "Game") else none
    let e := binary .add (symbol "x")
      (binary .add (call .strlen [call .strsub [symbol "title", literal 1, symbol "n"]])
        (binary .add (symbol "x") (binary .logicalAnd (literal 0) (symbol "late"))))
    e.bankless ∧ e.symbols = ["x", "title", "n", "late"] ∧
      e.value r = .error (.deferred ["x", "n"]) ∧ ["x", "n"].Nodup ∧
      ∀ name ∈ ["x", "n"], name ∈ e.symbols ∧ r.value name = none := by
  intro r e
  have hbankless : e.bankless := by decide
  have hvalue : e.value r = .error (.deferred ["x", "n"]) := by rfl
  have hnames := (deferred_names_missing r e hbankless).1 _ (.inl hvalue)
  exact ⟨hbankless, by rfl, hvalue, hnames.2⟩

end Expr

end Sm83
