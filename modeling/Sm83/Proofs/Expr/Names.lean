import Sm83.Expr.Operand
import Sm83.Proofs.Expr.Calls

/-!
# The names an expression depends on

What an expression is worth depends on the names that occur in it and on no others.
-/

namespace Sm83

/-- Two resolvers know the same of each of the names. -/
def Resolver.AgreeOn (names : List String) (r r' : Resolver) : Prop :=
  ∀ name ∈ names, r.value name = r'.value name ∧ r.defined name = r'.defined name

instance (names : List String) (r r' : Resolver) : Decidable (Resolver.AgreeOn names r r') :=
  inferInstanceAs (Decidable (∀ name ∈ names, _ ∧ _))

namespace Expr

theorem mem_mergeNames {names more : List String} {name : String} :
    name ∈ mergeNames names more ↔ name ∈ names ∨ name ∈ more := by
  simp only [mergeNames, List.mem_append, List.mem_filter, List.contains_eq_mem, Bool.not_eq_true',
    decide_eq_false_iff_not]
  constructor
  · rintro (h | ⟨h, _⟩)
    · exact .inl h
    · exact .inr h
  · rintro (h | h)
    · exact .inl h
    · by_cases hmem : name ∈ names
      · exact .inl hmem
      · exact .inr ⟨h, hmem⟩

theorem mem_symbolsAll {found : List String} {args : List Expr} {name : String} :
    name ∈ symbolsAll found args ↔ name ∈ found ∨ ∃ e ∈ args, name ∈ e.symbols := by
  induction args generalizing found with
  | nil => simp [symbolsAll]
  | cons e rest ih => simp [symbolsAll, ih, mem_mergeNames, or_assoc]

/-- An expression has the same number and the same text under both resolvers, or the same obstacle.
-/
structure Same (r r' : Resolver) (e : Expr) : Prop where
  number : e.value r = e.value r'
  text : e.textValue r = e.textValue r'

section

variable {r r' : Resolver} {args : List Expr}

theorem values_same (hargs : ∀ e ∈ args, Same r r' e) : values r args = values r' args := by
  rw [values_eq_map, values_eq_map]
  exact List.map_congr_left fun e he => (hargs e he).number

theorem texts_same (hargs : ∀ e ∈ args, Same r r' e) : texts r args = texts r' args := by
  induction args with
  | nil => rfl
  | cons e rest ih =>
    have he : e.textValue r = e.textValue r' := (hargs e List.mem_cons_self).text
    have hrest := ih fun e he => hargs e (List.mem_cons_of_mem _ he)
    simp only [texts, he, hrest]

theorem value_defined_same (hargs : Resolver.AgreeOn (symbolsAll [] args) r r') :
    value r (call .defined args) = value r' (call .defined args) := by
  rcases args with _ | ⟨e, rest⟩
  · rfl
  · cases e with
    | symbol name =>
      have hmem : name ∈ symbolsAll [] (symbol name :: rest) :=
        mem_symbolsAll.mpr (.inr ⟨_, List.mem_cons_self, by simp [symbols]⟩)
      simp only [value, (hargs name hmem).2]
    | _ => simp only [value]

theorem call_same {f : Function} (hnames : Resolver.AgreeOn (symbolsAll [] args) r r')
    (hargs : ∀ e ∈ args, Same r r' e) : Same r r' (call f args) := by
  have hvalues : values r args = values r' args := values_same hargs
  have htexts : texts r args = texts r' args := texts_same hargs
  constructor
  · cases f with
    | defined => exact value_defined_same hnames
    | _ => simp only [value, hvalues, htexts]
  · -- the functions that yield a text look at their first argument on its own
    rcases args with _ | ⟨e, rest⟩
    · cases f <;> rfl
    · have he : e.textValue r = e.textValue r' := (hargs e List.mem_cons_self).text
      have hbounds : values r rest = values r' rest :=
        values_same fun e he => hargs e (List.mem_cons_of_mem _ he)
      cases f <;> simp only [textValue, he, hbounds, htexts]

end

/-- An expression depends on its names only. -/
theorem same_of_agreeOn {r r' : Resolver} {e : Expr} (h : Resolver.AgreeOn e.symbols r r') :
    Same r r' e := by
  induction e with
  | literal n => exact ⟨rfl, rfl⟩
  | text s => exact ⟨rfl, rfl⟩
  | symbol name =>
    have hname : r.value name = r'.value name := (h name (by simp [symbols])).1
    constructor
    · simp only [value, hname]
    · simp only [textValue, hname]
  | unary op e ih =>
    have he := ih h
    constructor
    · simp only [value, he.number]
    · rfl
  | binary op a b iha ihb =>
    have ha := iha fun name hname => h name (mem_mergeNames.mpr (.inl hname))
    have hb := ihb fun name hname => h name (mem_mergeNames.mpr (.inr hname))
    constructor
    · simp only [value, ha.number, hb.number]
    · rfl
  | call f args ih =>
    refine call_same h fun e he => ih e he ?_
    intro name hname
    exact h name (mem_symbolsAll.mpr (.inr ⟨e, he, hname⟩))

section

variable {r r' : Resolver} {e : Expr}

theorem Same.constant (h : Same r r' e) : e.constant r = e.constant r' := by
  unfold Expr.constant
  rw [h.number]

theorem Same.operand (h : Same r r' e) (field : Field) :
    e.operand r field = e.operand r' field := by
  unfold Expr.operand
  rw [h.number]

end

/-- The names of an expression are all that it depends on. Resolvers that agree on the value of each
name, and on whether it is defined, give the expression the same number and the same text, or the
same obstacle, and the same constant and the same operand for every field, or the same error. -/
theorem results_depend_on_symbols (r r' : Resolver) (e : Expr)
    (h : Resolver.AgreeOn e.symbols r r') :
    e.value r = e.value r' ∧ e.textValue r = e.textValue r' ∧ e.constant r = e.constant r' ∧
      ∀ field, e.operand r field = e.operand r' field := by
  have hsame := same_of_agreeOn h
  exact ⟨hsame.number, hsame.text, hsame.constant, hsame.operand⟩

/-- A label without an address is defined, which settles the question before its bank is asked for;
a limit is not known; and a part of a text has a length. It makes no difference that another name
gets a value. -/
theorem results_depend_on_symbols_label :
    let value : String → Option Value := fun name =>
      if name = "title" then some (.text "Game") else if name = "n" then some (.number 2) else none
    let r : Resolver := ⟨value, fun name => name = "start" || (value name).isSome⟩
    let r' : Resolver :=
      ⟨fun name => if name = "spare" then some (.number 7) else value name,
        fun name => name = "start" || name = "spare" || (value name).isSome⟩
    let e := binary .add
      (binary .logicalOr (call .defined [symbol "start"]) (call .bank [symbol "start"]))
      (binary .add (call .isConst [symbol "limit"])
        (call .strlen [call .strsub [symbol "title", literal 1, symbol "n"]]))
    e.symbols = ["start", "limit", "title", "n"] ∧ Resolver.AgreeOn e.symbols r r' ∧
      e.value r = .ok 3 ∧ e.value r' = .ok 3 ∧ e.operand r' .byte = .ok (literal 3) := by
  intro value r r' e
  have hsymbols : e.symbols = ["start", "limit", "title", "n"] := by rfl
  have hagree : Resolver.AgreeOn e.symbols r r' := by
    rw [hsymbols]
    decide +kernel
  have hvalue : e.value r = .ok 3 := by
    have hsome : (e.value r).toOption = some 3 := by decide +kernel
    cases hresult : e.value r with
    | ok v =>
      rw [hresult] at hsome
      cases hsome
      rfl
    | error o =>
      rw [hresult] at hsome
      cases hsome
  have hoperand : e.operand r .byte = .ok (literal 3) := by
    unfold operand
    rw [hvalue]
    rfl
  have hsame := results_depend_on_symbols r r' e hagree
  exact ⟨hsymbols, hagree, hvalue, hsame.1.symm.trans hvalue,
    (hsame.2.2.2 .byte).symm.trans hoperand⟩

end Expr

end Sm83
