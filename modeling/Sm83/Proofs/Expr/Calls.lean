import Sm83.Expr.Eval
import Sm83.Proofs.Outcome

/-!
# Calls in expressions

The tools that statements about all expressions share: induction that reaches the arguments of
calls, conditions on every call and on every part of an expression, and the evaluation of a call by
the family of its function.
-/

namespace Sm83

open Outcome

namespace Function

/-- Functions that look at whether something is known and not at its value. -/
def inspects : Function → Bool
  | defined | isConst => true
  | _ => false

/-- Functions that give a number for texts. -/
def readsTexts : Function → Bool
  | strlen | strcmp | strin => true
  | _ => false

/-- Functions that give a number for numbers. -/
def isNumeric (f : Function) : Bool :=
  f ≠ bank && !f.inspects && !f.readsTexts && !f.yieldsText

theorem family_cases (f : Function) :
    f = bank ∨ f.inspects ∨ f.readsTexts ∨ f.yieldsText ∨ f.isNumeric := by
  cases f <;> simp [inspects, readsTexts, yieldsText, isNumeric]

theorem accepts_iff {f : Function} {count : Nat} :
    f.accepts count = true ↔ f.arity.1 ≤ count ∧ count ≤ f.arity.2 := by
  simp [accepts]

end Function

namespace Expr

/-- Induction on expressions. In a call, what is to be shown is known of every argument. -/
@[induction_eliminator]
theorem induction {motive : Expr → Prop}
    (literal : ∀ n, motive (literal n)) (text : ∀ s, motive (text s))
    (symbol : ∀ name, motive (symbol name))
    (unary : ∀ op e, motive e → motive (unary op e))
    (binary : ∀ op a b, motive a → motive b → motive (binary op a b))
    (call : ∀ f args, (∀ e ∈ args, motive e) → motive (call f args)) (e : Expr) : motive e := by
  refine @Expr.rec motive (fun args => ∀ e ∈ args, motive e)
    literal text symbol unary binary call ?_ ?_ e
  · intro e he
    cases he
  · intro head tail hhead htail e he
    rcases List.mem_cons.mp he with rfl | he
    · exact hhead
    · exact htail e he

mutual

/-- Every call in an expression passes a test on its function and the number of its arguments. -/
def everyCall (p : Function → Nat → Bool) : Expr → Bool
  | literal _ => true
  | text _ => true
  | symbol _ => true
  | unary _ e => everyCall p e
  | binary _ a b => everyCall p a && everyCall p b
  | call f args => p f args.length && everyCallIn p args

/-- Every call in a list of expressions passes a test. -/
def everyCallIn (p : Function → Nat → Bool) : List Expr → Bool
  | [] => true
  | e :: rest => everyCall p e && everyCallIn p rest

end

/-- Every call has a number of arguments that its function takes. -/
def legal (e : Expr) : Bool :=
  e.everyCall Function.accepts

/-- No call asks whether something is known. -/
def steady (e : Expr) : Bool :=
  e.everyCall fun f _ => !f.inspects

section

variable {p : Function → Nat → Bool}

theorem everyCallIn_iff {args : List Expr} :
    everyCallIn p args = true ↔ ∀ e ∈ args, e.everyCall p = true := by
  induction args with
  | nil => simp [everyCallIn]
  | cons e rest ih => simp [everyCallIn, ih]

@[simp] theorem everyCall_unary {op : UnaryOp} {e : Expr} :
    (unary op e).everyCall p = true ↔ e.everyCall p = true := by
  simp [everyCall]

@[simp] theorem everyCall_binary {op : BinaryOp} {a b : Expr} :
    (binary op a b).everyCall p = true ↔ a.everyCall p = true ∧ b.everyCall p = true := by
  simp [everyCall]

@[simp] theorem everyCall_call {f : Function} {args : List Expr} :
    (call f args).everyCall p = true ↔
      p f args.length = true ∧ ∀ e ∈ args, e.everyCall p = true := by
  simp [everyCall, everyCallIn_iff]

end

mutual

/-- The expressions that an expression is made of, itself among them. -/
def parts : Expr → List Expr
  | literal n => [literal n]
  | text s => [text s]
  | symbol name => [symbol name]
  | unary op e => unary op e :: parts e
  | binary op a b => binary op a b :: (parts a ++ parts b)
  | call f args => call f args :: partsAll args

/-- The expressions that a list of expressions is made of. -/
def partsAll : List Expr → List Expr
  | [] => []
  | e :: rest => parts e ++ partsAll rest

end

@[simp] theorem mem_partsAll {p : Expr} {args : List Expr} :
    p ∈ partsAll args ↔ ∃ e ∈ args, p ∈ e.parts := by
  induction args with
  | nil => simp [partsAll]
  | cons e rest ih => simp [partsAll, ih]

theorem self_mem_parts (e : Expr) : e ∈ e.parts := by
  cases e <;> simp [parts]

section

variable {α : Type} {r : Resolver}

theorem values_eq_map (r : Resolver) (args : List Expr) : values r args = args.map (value r) := by
  induction args with
  | nil => simp [values]
  | cons e rest ih => simp [values, ih]

theorem gather_eq_ok_iff {results : List (Except Obstacle α)} {vs : List α} :
    gather results = .ok vs ↔ results = vs.map .ok := by
  induction results generalizing vs with
  | nil => cases vs <;> simp [gather]
  | cons x rest ih =>
    constructor
    · intro h
      unfold gather at h
      split at h <;> try contradiction
      next a as hrest =>
        cases h
        rw [ih.mp hrest]
        rfl
    · intro h
      cases vs with
      | nil => cases h
      | cons v vs =>
        obtain ⟨hx, hrest⟩ := List.cons.inj h
        simp only [gather, hx, ih.mpr hrest]

variable {args : List Expr}

theorem length_of_gather {vs : List Int} (h : gather (values r args) = .ok vs) :
    vs.length = args.length := by
  rw [gather_eq_ok_iff, values_eq_map] at h
  simpa using (congrArg List.length h).symm

theorem incomplete_mem_of_gather {results : List (Except Obstacle α)} {f : Function}
    (h : gather results = .error (.incomplete f)) : .error (.incomplete f) ∈ results := by
  induction results with
  | nil => cases h
  | cons x rest ih =>
    unfold gather at h
    split at h <;> cases h
    · exact List.mem_cons_self
    · next hrest => exact List.mem_cons_of_mem _ (ih hrest)

theorem incomplete_of_gather_values {f : Function}
    (h : gather (values r args) = .error (.incomplete f)) :
    ∃ e ∈ args, value r e = .error (.incomplete f) := by
  have hmem := incomplete_mem_of_gather h
  rw [values_eq_map, List.mem_map] at hmem
  exact hmem

theorem length_of_texts {ts : List String} (h : texts r args = .ok ts) :
    ts.length = args.length := by
  induction args generalizing ts with
  | nil =>
    cases h
    rfl
  | cons e rest ih =>
    unfold texts at h
    split at h
    · cases h
    · split at h <;> cases h
      next hrest => simp [ih hrest]

theorem error_of_texts {o : Obstacle} (h : texts r args = .error o) :
    ∃ e ∈ args, textValue r e = .error o := by
  induction args with
  | nil => cases h
  | cons e rest ih =>
    unfold texts at h
    split at h
    · next o he =>
      cases h
      exact ⟨e, List.mem_cons_self, he⟩
    · split at h <;> cases h
      next hrest =>
      obtain ⟨e', he', herror⟩ := ih hrest
      exact ⟨e', List.mem_cons_of_mem _ he', herror⟩

end

section

variable (r : Resolver) (args : List Expr) {f : Function}

theorem value_bank : ∃ names, value r (call .bank args) = .error (.deferred names) := by
  rw [value]
  split
  · exact ⟨_, rfl⟩
  · exact ⟨_, rfl⟩

theorem value_call_readsTexts (hf : f.readsTexts) :
    value r (call f args) = (texts r args).bind (applyTexts f) := by
  cases f <;> simp [Function.readsTexts] at hf <;> rw [value] <;> cases texts r args <;> rfl

theorem value_call_yieldsText (hf : f.yieldsText) :
    value r (call f args) = .error (.invalid (.yieldsText f)) := by
  cases f <;> simp [Function.yieldsText] at hf <;> simp [value, Function.yieldsText]

theorem value_call_isNumeric (hf : f.isNumeric) :
    value r (call f args) = (gather (values r args)).bind (applyNumeric f) := by
  have hy : f.yieldsText = false := by
    simp [Function.isNumeric] at hf
    exact hf.2
  cases f <;> simp [Function.isNumeric, Function.inspects, Function.readsTexts,
    Function.yieldsText] at hf <;> rw [value] <;> simp [hy] <;>
    cases gather (values r args) <;> rfl

end

/-- The part of a text between known bounds. -/
def cut (t : String) : List Int → Except Obstacle String
  | start :: length :: _ => (slice t start length).mapError .invalid
  | _ => .error (.incomplete .strsub)

theorem textValue_strsub (r : Resolver) (e : Expr) (bounds : List Expr) :
    textValue r (call .strsub (e :: bounds)) =
      (textValue r e).bind fun t => (gather (values r bounds)).bind (cut t) := by
  rw [textValue]
  cases textValue r e with
  | error o => rfl
  | ok t =>
    cases gather (values r bounds) with
    | error o => rfl
    | ok vs => rcases vs with _ | ⟨start, _ | ⟨length, rest⟩⟩ <;> rfl

section

variable {op : BinaryOp} {a b : Int} {y : Except Obstacle Int} {f : Function}

theorem combineBinary_settled {v : Int} (hs : settled? op a = some v)
    (hy : ∀ f, y ≠ .error (.incomplete f)) : combineBinary op (.ok a) y = .ok v := by
  rcases y with (m | reason | f) | b
  · simp only [combineBinary, hs]
  · simp only [combineBinary, hs]
  · exact absurd rfl (hy f)
  · simp only [combineBinary, hs]

theorem combineBinary_known (hs : settled? op a = none) :
    combineBinary op (.ok a) (.ok b) = (applyBinary op a b).mapError .invalid := by
  simp only [combineBinary, hs]

theorem combineBinary_open {o : Obstacle} (hs : settled? op a = none) :
    combineBinary op (.ok a) (.error o) = .error o := by
  cases o <;> simp only [combineBinary, hs]

/-- When an operator has a value, and which. -/
theorem combineBinary_eq_ok_iff {x : Except Obstacle Int} {v : Int} :
    combineBinary op x y = .ok v ↔ ∃ a, x = .ok a ∧
      ((settled? op a = some v ∧ ∀ f, y ≠ .error (.incomplete f)) ∨
        (settled? op a = none ∧ ∃ b, y = .ok b ∧ applyBinary op a b = .ok v)) := by
  constructor
  · intro h
    cases x with
    | error o => rcases o with m | reason | f <;> rcases y with (n | reason' | g) | b <;> cases h
    | ok a =>
      refine ⟨a, rfl, ?_⟩
      -- an incomplete right side is refused even where the left one settles the result
      have hy : ∀ f, y ≠ .error (.incomplete f) := by
        rintro f rfl
        cases h
      cases hs : settled? op a with
      | some w =>
        rw [combineBinary_settled hs hy] at h
        cases h
        exact .inl ⟨rfl, hy⟩
      | none =>
        cases y with
        | error o =>
          rw [combineBinary_open hs] at h
          cases h
        | ok b =>
          rw [combineBinary_known hs, mapError_eq_ok_iff] at h
          exact .inr ⟨rfl, b, rfl, h⟩
  · rintro ⟨a, rfl, ⟨hs, hy⟩ | ⟨hs, b, rfl, hb⟩⟩
    · exact combineBinary_settled hs hy
    · rw [combineBinary_known hs, hb]
      rfl

end

theorem incomplete_of_combineBinary {op : BinaryOp} {x y : Except Obstacle Int} {f : Function}
    (h : combineBinary op x y = .error (.incomplete f)) :
    x = .error (.incomplete f) ∨ y = .error (.incomplete f) := by
  rcases x with (m | reason | g) | a
  · rcases y with (n | reason' | g) | b
    all_goals first | exact .inr h | cases h
  · rcases y with (n | reason' | g) | b
    all_goals first | exact .inr h | cases h
  · exact .inl h
  · right
    cases hs : settled? op a with
    | some w =>
      by_cases hy : ∃ g, y = .error (.incomplete g)
      · obtain ⟨g, rfl⟩ := hy
        exact h
      · rw [combineBinary_settled hs fun g hg => hy ⟨g, hg⟩] at h
        cases h
    | none =>
      cases y with
      | error o =>
        rw [combineBinary_open hs] at h
        exact h
      | ok b =>
        -- two known operands: what can go wrong is invalid, never incomplete
        rw [combineBinary_known hs, mapError_eq_error_iff] at h
        obtain ⟨reason, _, hreason⟩ := h
        cases hreason

theorem applyTexts_ne_incomplete {f g : Function} {ts : List String} (hf : f.readsTexts)
    (h : f.accepts ts.length) : applyTexts f ts ≠ .error (.incomplete g) := by
  intro hinc
  cases f <;> simp [Function.readsTexts] at hf <;> simp [Function.accepts, Function.arity] at h
  all_goals
    rcases ts with _ | ⟨t, _ | ⟨u, ts⟩⟩ <;> simp [applyTexts] at h hinc

theorem applyNumeric_ne_incomplete {f g : Function} {vs : List Int} (hf : f.isNumeric)
    (h : f.accepts vs.length) : applyNumeric f vs ≠ .error (.incomplete g) := by
  intro hinc
  rcases vs with _ | ⟨x, _ | ⟨y, vs⟩⟩ <;> cases f <;>
    simp [Function.isNumeric, Function.inspects, Function.readsTexts, Function.yieldsText] at hf <;>
    simp [Function.accepts, Function.arity] at h <;> simp only [applyNumeric] at hinc
  all_goals (try split at hinc) <;> cases hinc

section

variable {r : Resolver} {args : List Expr} {g : Function}

theorem isConst_ne_incomplete (hlen : args.length = 1)
    (ih : ∀ e ∈ args, value r e ≠ .error (.incomplete g)) :
    value r (call .isConst args) ≠ .error (.incomplete g) := by
  intro h
  obtain ⟨e, rfl⟩ := List.length_eq_one_iff.mp hlen
  have he := ih e (by simp)
  simp only [value, values] at h
  rcases hv : value r e with (m | reason | f) | v <;> simp only [hv, gather] at h <;> cases h
  exact he hv

theorem defined_ne_incomplete (hlen : args.length = 1) :
    value r (call .defined args) ≠ .error (.incomplete g) := by
  intro h
  obtain ⟨e, rfl⟩ := List.length_eq_one_iff.mp hlen
  cases e <;> simp [value] at h

theorem textValue_call_ne_incomplete {f : Function} (hlegal : f.accepts args.length)
    (ihv : ∀ e ∈ args, value r e ≠ .error (.incomplete g))
    (iht : ∀ e ∈ args, textValue r e ≠ .error (.incomplete g)) :
    textValue r (call f args) ≠ .error (.incomplete g) := by
  intro h
  obtain ⟨hleast, _⟩ := Function.accepts_iff.mp hlegal
  cases f with
  | strupr | strlwr =>
    cases args with
    | nil => cases hleast
    | cons e rest =>
      simp only [textValue, map_eq_error_iff] at h
      exact iht e List.mem_cons_self h
  | strcat =>
    simp only [textValue, map_eq_error_iff] at h
    obtain ⟨e, he, hinc⟩ := error_of_texts h
    exact iht e he hinc
  | strsub =>
    cases args with
    | nil => cases hleast
    | cons e bounds =>
      rw [textValue_strsub, bind_eq_error_iff] at h
      rcases h with he | ⟨t, _, h⟩
      · exact iht e List.mem_cons_self he
      rw [bind_eq_error_iff] at h
      rcases h with hgather | ⟨vs, hgather, hcut⟩
      · obtain ⟨bound, hbound, hinc⟩ := incomplete_of_gather_values hgather
        exact ihv bound (List.mem_cons_of_mem _ hbound) hinc
      · -- the bounds are known, and there are at least two of them
        have hlength := length_of_gather hgather
        rcases vs with _ | ⟨start, _ | ⟨length, vs⟩⟩
        · simp [Function.arity, ← hlength] at hleast
        · simp [Function.arity, ← hlength] at hleast
        · rw [cut, mapError_eq_error_iff] at hcut
          obtain ⟨reason, _, hreason⟩ := hcut
          cases hreason
  | _ => simp [textValue] at h

theorem value_call_ne_incomplete {f : Function} (hlegal : f.accepts args.length)
    (ihv : ∀ e ∈ args, value r e ≠ .error (.incomplete g))
    (iht : ∀ e ∈ args, textValue r e ≠ .error (.incomplete g)) :
    value r (call f args) ≠ .error (.incomplete g) := by
  rcases f.family_cases with rfl | hf | hf | hf | hf
  · obtain ⟨names, hbank⟩ := value_bank r args
    rw [hbank]
    simp
  · -- a function that asks whether something is known takes one argument
    have harity : f.arity = (1, 1) := by cases f <;> simp [Function.inspects] at hf <;> rfl
    have hlen : args.length = 1 := by
      have hcount := Function.accepts_iff.mp hlegal
      rw [harity] at hcount
      exact Nat.le_antisymm hcount.2 hcount.1
    cases f <;> simp [Function.inspects] at hf
    · exact isConst_ne_incomplete hlen ihv
    · exact defined_ne_incomplete hlen
  · rw [value_call_readsTexts r args hf]
    intro h
    rw [bind_eq_error_iff] at h
    rcases h with htexts | ⟨ts, htexts, happly⟩
    · obtain ⟨e, he, hinc⟩ := error_of_texts htexts
      exact iht e he hinc
    · rw [← length_of_texts htexts] at hlegal
      exact applyTexts_ne_incomplete hf hlegal happly
  · rw [value_call_yieldsText r args hf]
    simp
  · rw [value_call_isNumeric r args hf]
    intro h
    rw [bind_eq_error_iff] at h
    rcases h with hgather | ⟨vs, hgather, happly⟩
    · obtain ⟨e, he, hinc⟩ := incomplete_of_gather_values hgather
      exact ihv e he hinc
    · rw [← length_of_gather hgather] at hlegal
      exact applyNumeric_ne_incomplete hf hlegal happly

end

/-- A legal expression lacks no argument. -/
theorem not_incomplete_of_legal {e : Expr} (hlegal : e.legal) (r : Resolver) (g : Function) :
    value r e ≠ .error (.incomplete g) ∧ textValue r e ≠ .error (.incomplete g) := by
  -- both evaluations at once, since a call may evaluate an argument as a number or as a text
  induction e with
  | literal n => simp [value, textValue]
  | text s => simp [value, textValue]
  | symbol name =>
    cases hname : r.value name with
    | none => simp [value, textValue, hname]
    | some v => cases v <;> simp [value, textValue, hname]
  | unary op e ih =>
    constructor
    · intro h
      rw [value, map_eq_error_iff] at h
      exact (ih (everyCall_unary.mp hlegal)).1 h
    · simp [textValue]
  | binary op a b iha ihb =>
    obtain ⟨ha, hb⟩ := everyCall_binary.mp hlegal
    constructor
    · intro h
      rw [value] at h
      rcases incomplete_of_combineBinary h with h | h
      · exact (iha ha).1 h
      · exact (ihb hb).1 h
    · simp [textValue]
  | call f args ih =>
    obtain ⟨hcount, hargs⟩ := everyCall_call.mp hlegal
    have ihv : ∀ e ∈ args, value r e ≠ .error (.incomplete g) :=
      fun e he => (ih e he (hargs e he)).1
    have iht : ∀ e ∈ args, textValue r e ≠ .error (.incomplete g) :=
      fun e he => (ih e he (hargs e he)).2
    exact ⟨value_call_ne_incomplete hcount ihv iht, textValue_call_ne_incomplete hcount ihv iht⟩

end Expr

end Sm83
