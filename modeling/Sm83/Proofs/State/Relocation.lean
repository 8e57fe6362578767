import Sm83.Proofs.Outcome
import Sm83.State.Operation

/-!
# States that differ in recorded places

A state records where its symbols were defined and where exports were asked for. The places are only
passed on: whether an operation succeeds, what it answers and what it leaves does not depend on
them.
-/

namespace Sm83

open Table

namespace Table

variable {α β : Type} (f : α → β)

/-- A table with another value for each name. -/
def map (t : Table α) : Table β :=
  ⟨t.entries.map fun e => (e.1, f e.2)⟩

theorem get?_map (t : Table α) (name : String) : (t.map f).get? name = (t.get? name).map f := by
  cases t with
  | mk entries =>
    simp only [map, get?, List.find?_map, Option.map_map]
    rfl

theorem contains_map (t : Table α) (name : String) : (t.map f).contains name = t.contains name := by
  simp [contains_eq, get?_map]

theorem map_insert (t : Table α) (name : String) (value : α) :
    (t.insert name value).map f = (t.map f).insert name (f value) := by
  unfold insert
  rw [contains_map]
  split
  · simp only [map, List.map_map]
    congr 1
    apply List.map_congr_left
    intro e _
    by_cases he : e.1 = name
    · simp [he]
    · simp [he]
  · simp [map]

theorem map_erase (t : Table α) (name : String) : (t.erase name).map f = (t.map f).erase name := by
  simp only [map, erase, List.filter_map]
  rfl

end Table

/-- A place some lines further down. -/
def Location.down (k : Nat) (l : Location) : Location :=
  { l with line := l.line + k }

namespace Operation

/-- An operation that records another place. -/
def relocate (f : Option Location → Option Location) : Operation → Operation
  | .defineLabel spelling exported location => .defineLabel spelling exported (f location)
  | .defineConstant spelling n exported location => .defineConstant spelling n exported (f location)
  | .defineVariable spelling n location => .defineVariable spelling n (f location)
  | .defineText spelling text location => .defineText spelling text (f location)
  | .exportName spelling location => .exportName spelling (f location)
  | op => op

/-- An operation that records a place some lines further down. -/
def down (k : Nat) : Operation → Operation :=
  relocate (Option.map (Location.down k))

/-- An operation that records no place. -/
def placeless : Operation → Operation :=
  relocate fun _ => none

theorem placeless_down (k : Nat) (op : Operation) : (op.down k).placeless = op.placeless := by
  cases op <;> rfl

theorem down_zero (op : Operation) : op.down 0 = op := by
  have hsame : (Option.map (Location.down 0)) = id := by
    funext location
    cases location with
    | none => rfl
    | some l => simp [Location.down]
  cases op <;> simp [down, relocate, hsame]

end Operation

/-- A symbol without the place it was defined at. -/
def Symbol.placeless (x : Symbol) : Symbol :=
  { x with location := none }

/-- An answer without places. -/
def Answer.placeless : Answer → Answer
  | .symbol x => .symbol x.placeless
  | .found x => .found (x.map Symbol.placeless)
  | answer => answer

namespace State

/-- A state without the places it records. -/
def placeless (s : State) : State :=
  { s with
    symbols := s.symbols.map Symbol.placeless
    pendingExports := s.pendingExports.map fun _ => none }

section

variable (s : State)

theorem lookup_placeless (name : String) :
    s.placeless.lookup name = (s.lookup name).map Symbol.placeless :=
  get?_map ..

theorem lookupValue_placeless (name : String) :
    s.placeless.lookupValue name = s.lookupValue name := by
  unfold lookupValue
  rw [lookup_placeless]
  cases s.lookup name with
  | none => rfl
  | some x => rfl

theorem isDefined_placeless (name : String) : s.placeless.isDefined name = s.isDefined name :=
  contains_map ..

theorem resolver_placeless : s.placeless.resolver = s.resolver := by
  have hvalue : s.placeless.lookupValue = s.lookupValue := funext (lookupValue_placeless s)
  have hdefined : s.placeless.isDefined = s.isDefined := funext (isDefined_placeless s)
  simp only [resolver, hvalue, hdefined]

theorem qualify_placeless : s.placeless.qualify = s.qualify := rfl

theorem storage_placeless : s.placeless.storage = s.storage := by
  unfold storage
  rw [lookup_placeless]
  cases s.lookup storageName with
  | none => rfl
  | some x => rfl

theorem enter_placeless (symbol : Symbol) :
    s.placeless.enter symbol.placeless =
      ((s.enter symbol).1.placeless, (s.enter symbol).2.placeless) := by
  have hpending := contains_map (fun _ : Option Location => (none : Option Location))
    s.pendingExports symbol.name
  simp only [enter, placeless, Symbol.placeless, map_insert, map_erase, hpending]

theorem add_placeless (symbol : Symbol) : (s.placeless.add symbol.placeless).toOption =
    (s.add symbol).toOption.map fun r => (r.1.placeless, r.2.placeless) := by
  unfold add
  rw [show symbol.placeless.name = symbol.name from rfl, lookup_placeless]
  cases s.lookup symbol.name with
  | none =>
    simp only [Option.map_none, enter_placeless]
    rfl
  | some old =>
    simp only [Option.map_some]
    rw [show old.placeless.kind = old.kind from rfl,
      show symbol.placeless.kind = symbol.kind from rfl]
    split
    · split
      · simp only [Except.toOption, Option.map_some]
        congr 2
        simp [placeless, map_insert, Symbol.placeless]
      · have henter := enter_placeless s { symbol with exported := symbol.exported || old.exported }
        exact congrArg some henter
    · rfl

theorem define_placeless (spelling : String) (make : String → Symbol) :
    (s.placeless.define spelling fun name => (make name).placeless).toOption =
      (s.define spelling make).toOption.map fun r => (r.1.placeless, r.2.placeless) := by
  unfold define
  rw [qualify_placeless]
  cases s.qualify spelling with
  | ok name => exact add_placeless s (make name)
  | error cause => rfl

/-- What a definition makes of a label: a global one becomes the scope. -/
def inScope (r : Symbol × State) : Symbol × State :=
  (r.1, if isLocalName r.1.name then r.2 else { r.2 with scope := some r.1.name })

theorem defineLabel_toOption (spelling : String) (exported : Bool) (location : Option Location) :
    (s.defineLabel spelling exported location).toOption =
      (s.define spelling fun name => ⟨name, .label,
        .number (if s.load.isSome then s.loadPc else s.pc), exported || s.exportAll,
        (s.load <|> s.current).map Section.name, location⟩).toOption.map inScope := by
  simp only [defineLabel]
  split
  · next e hdefine =>
    rw [hdefine]
    rfl
  · next symbol t hdefine =>
    rw [hdefine]
    rfl

theorem inScope_placeless (r : Symbol × State) :
    inScope (r.1.placeless, r.2.placeless) =
      ((inScope r).1.placeless, (inScope r).2.placeless) := by
  simp only [inScope, show r.1.placeless.name = r.1.name from rfl]
  split
  · rfl
  · rfl

theorem defineLabel_placeless (spelling : String) (exported : Bool) (location : Option Location) :
    (s.placeless.defineLabel spelling exported none).toOption =
      (s.defineLabel spelling exported location).toOption.map
        fun r => (r.1.placeless, r.2.placeless) := by
  have hdefine := define_placeless s spelling fun name =>
    ⟨name, .label, .number (if s.load.isSome then s.loadPc else s.pc), exported || s.exportAll,
      (s.load <|> s.current).map Section.name, location⟩
  rw [defineLabel_toOption, defineLabel_toOption, Option.map_map]
  refine (congrArg (Option.map inScope) hdefine).trans ?_
  rw [Option.map_map]
  congr 1
  funext r
  exact inScope_placeless r

theorem exportName_placeless (spelling : String) (location : Option Location) :
    (s.placeless.exportName spelling none).toOption =
      (s.exportName spelling location).toOption.map placeless := by
  unfold exportName
  rw [qualify_placeless]
  cases s.qualify spelling with
  | error cause => rfl
  | ok name =>
    simp only [lookup_placeless]
    cases s.lookup name with
    | some x =>
      simp only [Option.map_some, Except.toOption]
      congr 1
      simp [placeless, map_insert, Symbol.placeless]
    | none =>
      have hpending := contains_map (fun _ : Option Location => (none : Option Location))
        s.pendingExports name
      simp only [Option.map_none]
      rw [show s.placeless.pendingExports = s.pendingExports.map fun _ => none from rfl, hpending]
      split
      · rfl
      · simp [Except.toOption, placeless, map_insert]

theorem purge_placeless (spelling : String) :
    (s.placeless.purge spelling).toOption = (s.purge spelling).toOption.map placeless := by
  simp only [purge, qualify_placeless]
  cases s.qualify spelling with
  | error cause => rfl
  | ok name =>
    simp only [lookup_placeless]
    cases s.lookup name with
    | none => rfl
    | some x =>
      simp only [Option.map_some, show x.placeless.kind = x.kind from rfl,
        show x.placeless.exported = x.exported from rfl]
      split
      · rfl
      · split
        · rfl
        · split
          · rfl
          · simp [Except.toOption, placeless, map_erase]

theorem resetStorage_placeless (n : Int) :
    s.placeless.resetStorage n = (s.resetStorage n).placeless := by
  unfold resetStorage
  rw [lookup_placeless]
  cases s.lookup storageName with
  | none => rfl
  | some x => simp [placeless, map_insert, Symbol.placeless]

theorem register_placeless (block : Section) :
    s.placeless.register block = (s.register block).map placeless := by
  simp only [register, show s.placeless.sections = s.sections from rfl]
  cases s.sections.get? block.name with
  | none => rfl
  | some existing =>
    by_cases hsame : existing = block
    · simp only [hsame, if_true]
      rfl
    · simp only [hsame, if_false]
      rfl

theorem enterSection_placeless (block : Section) :
    (s.placeless.enterSection block).toOption = (s.enterSection block).toOption.map placeless := by
  simp only [enterSection, register_placeless, show s.placeless.load = s.load from rfl]
  cases s.load with
  | some load => rfl
  | none =>
    cases s.register block with
    | error cause => rfl
    | ok t => rfl

theorem enterLoad_placeless (block : Section) :
    (s.placeless.enterLoad block).toOption = (s.enterLoad block).toOption.map placeless := by
  simp only [enterLoad, register_placeless, show s.placeless.load = s.load from rfl,
    show s.placeless.current = s.current from rfl]
  cases s.current with
  | none => rfl
  | some current =>
    cases s.load with
    | some load => rfl
    | none =>
      cases s.register block with
      | error cause => rfl
      | ok t => rfl

theorem endLoad_placeless : s.placeless.endLoad.toOption = s.endLoad.toOption.map placeless := by
  unfold endLoad
  rw [show s.placeless.load = s.load from rfl]
  cases s.load with
  | none => rfl
  | some load => rfl

theorem popSection_placeless :
    s.placeless.popSection.toOption = s.popSection.toOption.map placeless := by
  unfold popSection
  rw [show s.placeless.stack = s.stack from rfl]
  cases s.stack with
  | nil => rfl
  | cons context rest => rfl

theorem toOption_map {ε α β : Type} (x : Except ε α) (f : α → β) :
    (x.map f).toOption = x.toOption.map f := by
  cases x with
  | ok a => rfl
  | error e => rfl

theorem toOption_map_alike {ε α β : Type} {x y : Except ε α} {φ : α → α} {ψ : β → β} {f : α → β}
    (h : x.toOption = y.toOption.map φ) (hf : ∀ a, f (φ a) = ψ (f a)) :
    (x.map f).toOption = (y.map f).toOption.map ψ := by
  rw [toOption_map, toOption_map, h, Option.map_map, Option.map_map]
  exact congrArg (Option.map · y.toOption) (funext hf)

/-- Whether an operation succeeds, what it answers and what it leaves does not depend on places. -/
theorem perform_placeless (op : Operation) : (s.placeless.perform op.placeless).toOption =
    (s.perform op).toOption.map fun r => (r.1.placeless, r.2.placeless) := by
  have hsymbol : ∀ {x y : Except Error (Symbol × State)},
      x.toOption = y.toOption.map (fun r => (r.1.placeless, r.2.placeless)) →
      (x.map fun r => (Answer.symbol r.1, r.2)).toOption =
        (y.map fun r => (Answer.symbol r.1, r.2)).toOption.map
          fun r => (r.1.placeless, r.2.placeless) := fun h => toOption_map_alike h fun _ => rfl
  have hdone : ∀ {x y : Except Error State}, x.toOption = y.toOption.map placeless →
      (x.map fun t => (Answer.done, t)).toOption =
        (y.map fun t => (Answer.done, t)).toOption.map fun r => (r.1.placeless, r.2.placeless) :=
    fun h => toOption_map_alike h fun _ => rfl
  cases op with
  | defineLabel spelling exported location => exact hsymbol (defineLabel_placeless ..)
  | defineConstant spelling n exported location =>
    exact hsymbol (define_placeless s spelling fun name =>
      ⟨name, .equ, .number (Word.wrap n), exported, none, location⟩)
  | defineVariable spelling n location =>
    exact hsymbol (define_placeless s spelling fun name =>
      ⟨name, .set, .number (Word.wrap n), false, none, location⟩)
  | defineText spelling text location =>
    exact hsymbol (define_placeless s spelling fun name =>
      ⟨name, .equs, .text text, false, none, location⟩)
  | exportName spelling location => exact hdone (exportName_placeless ..)
  | purge spelling => exact hdone (purge_placeless ..)
  | advanceStorage bytes =>
    simp only [Operation.placeless, Operation.relocate, perform, advanceStorage, storage_placeless,
      resetStorage_placeless]
    rfl
  | resetStorage n =>
    simp only [Operation.placeless, Operation.relocate, perform, resetStorage_placeless]
    rfl
  | qualify spelling =>
    simp only [Operation.placeless, Operation.relocate, perform, qualify_placeless]
    cases s.qualify spelling with
    | ok name => rfl
    | error cause => rfl
  | resolveLocal spelling =>
    simp only [Operation.placeless, Operation.relocate, perform,
      show s.placeless.resolveLocal = s.resolveLocal from rfl]
    cases s.resolveLocal spelling with
    | ok name => rfl
    | error cause => rfl
  | lookup name =>
    simp only [Operation.placeless, Operation.relocate, perform, lookup_placeless]
    rfl
  | value name =>
    simp only [Operation.placeless, Operation.relocate, perform, lookupValue_placeless]
    rfl
  | isDefined name =>
    simp only [Operation.placeless, Operation.relocate, perform, isDefined_placeless]
    rfl
  | enterSection block => exact hdone (enterSection_placeless ..)
  | enterLoad block => exact hdone (enterLoad_placeless ..)
  | endLoad => exact hdone (endLoad_placeless ..)
  | pushSection => rfl
  | popSection => exact hdone (popSection_placeless ..)
  | advance bytes => rfl
  | sectionSize name => rfl

theorem after_placeless (op : Operation) :
    s.placeless.after op.placeless = (s.after op).placeless := by
  have hperform := perform_placeless s op
  unfold after
  cases hright : s.perform op with
  | ok r =>
    rw [hright] at hperform
    cases hleft : s.placeless.perform op.placeless with
    | ok r' =>
      rw [hleft] at hperform
      exact congrArg Prod.snd (Option.some.inj hperform)
    | error e =>
      rw [hleft] at hperform
      cases hperform
  | error e =>
    rw [hright] at hperform
    cases hleft : s.placeless.perform op.placeless with
    | ok r' =>
      rw [hleft] at hperform
      cases hperform
    | error e' => rfl

end

theorem perform_alike {s s' : State} {op op' : Operation} (hs : s.placeless = s'.placeless)
    (hop : op.placeless = op'.placeless) :
    (∃ answer answer' t t', s.perform op = .ok (answer, t) ∧ s'.perform op' = .ok (answer', t') ∧
      answer.placeless = answer'.placeless ∧ t.placeless = t'.placeless) ∨
    (∃ e e', s.perform op = .error e ∧ s'.perform op' = .error e') := by
  have hleft := perform_placeless s op
  have hright := perform_placeless s' op'
  rw [← hop, ← hs, hleft] at hright
  cases hr : s.perform op with
  | ok r =>
    rw [hr] at hright
    cases hr' : s'.perform op' with
    | ok r' =>
      rw [hr'] at hright
      have hanswers := congrArg Prod.fst (Option.some.inj hright)
      have hstates := congrArg Prod.snd (Option.some.inj hright)
      exact .inl ⟨r.1, r'.1, r.2, r'.2, rfl, rfl, hanswers, hstates⟩
    | error e =>
      rw [hr'] at hright
      cases hright
  | error e =>
    rw [hr] at hright
    cases hr' : s'.perform op' with
    | ok r' =>
      rw [hr'] at hright
      cases hright
    | error e' => exact .inr ⟨e, e', rfl, rfl⟩

theorem defineConstant_alike (s : State) (spelling : String) (value : Int) (exported : Bool)
    (place place' : Option Location) :
    (∃ r r', s.defineConstant spelling value exported place = .ok r ∧
      s.defineConstant spelling value exported place' = .ok r' ∧ r.2.placeless = r'.2.placeless) ∨
    (∃ e e', s.defineConstant spelling value exported place = .error e ∧
      s.defineConstant spelling value exported place' = .error e') := by
  have hboth := @perform_alike s s (.defineConstant spelling value exported place)
    (.defineConstant spelling value exported place') rfl rfl
  rcases hboth with ⟨_, _, t, t', hok, hok', _, halike⟩ | ⟨e, e', herror, herror'⟩
  · rcases Outcome.map_eq_ok_iff.mp hok with ⟨r, hr, hanswer⟩
    rcases Outcome.map_eq_ok_iff.mp hok' with ⟨r', hr', hanswer'⟩
    cases hanswer
    cases hanswer'
    exact .inl ⟨r, r', hr, hr', halike⟩
  · exact .inr ⟨e, e', Outcome.map_eq_error_iff.mp herror, Outcome.map_eq_error_iff.mp herror'⟩

/-- What a run leads to from a state, and what it leads to with all places some lines further down,
from a state that differs in places only. -/
structure Moved (base base' : State) (k : Nat) (s s' : State) : Prop where
  alike : base.placeless = base'.placeless
  run : ∃ ops, s = base.run ops ∧ s' = base'.run (ops.map (Operation.down k))

namespace Moved

variable {base base' s s' : State} {k : Nat}

theorem start (halike : base.placeless = base'.placeless) (k : Nat) :
    Moved base base' k base base' :=
  ⟨halike, [], rfl, rfl⟩

theorem refl (base : State) (k : Nat) : Moved base base k base base :=
  start rfl k

theorem after (h : Moved base base' k s s') (op : Operation) :
    Moved base base' k (s.after op) (s'.after (op.down k)) := by
  rcases h with ⟨halike, ops, rfl, rfl⟩
  refine ⟨halike, ops ++ [op], ?_, ?_⟩
  · simp [State.run]
  · simp [State.run]

theorem eq_of_zero (h : Moved base base 0 s s') : s' = s := by
  rcases h.run with ⟨ops, rfl, rfl⟩
  have hsame : Operation.down 0 = id := funext Operation.down_zero
  rw [hsame, List.map_id]

theorem placeless_eq (h : Moved base base' k s s') : s.placeless = s'.placeless := by
  rcases h with ⟨halike, ops, rfl, rfl⟩
  suffices hall : ∀ t t' : State, t.placeless = t'.placeless →
      (t.run ops).placeless = (t'.run (ops.map (Operation.down k))).placeless from
    hall base base' halike
  induction ops with
  | nil =>
    intro t t' h
    exact h
  | cons op rest ih =>
    intro t t' h
    apply ih _ _
    rw [← after_placeless, ← after_placeless, Operation.placeless_down, h]

theorem resolver_eq (h : Moved base base' k s s') : s.resolver = s'.resolver := by
  rw [← resolver_placeless s, ← resolver_placeless s', h.placeless_eq]

theorem qualify_eq (h : Moved base base' k s s') : s.qualify = s'.qualify := by
  rw [← qualify_placeless s, ← qualify_placeless s', h.placeless_eq]

theorem storage_eq (h : Moved base base' k s s') : s.storage = s'.storage := by
  rw [← storage_placeless s, ← storage_placeless s', h.placeless_eq]

theorem section_eq (h : Moved base base' k s s') :
    s.load = s'.load ∧ s.current = s'.current ∧ s.pc = s'.pc ∧ s.loadPc = s'.loadPc := by
  have heq := h.placeless_eq
  have hload := congrArg State.load heq
  have hcurrent := congrArg State.current heq
  have hpc := congrArg State.pc heq
  have hloadPc := congrArg State.loadPc heq
  exact ⟨hload, hcurrent, hpc, hloadPc⟩

theorem perform (h : Moved base base' k s s') (op : Operation) :
    (∃ answer answer' t t', s.perform op = .ok (answer, t) ∧
      s'.perform (op.down k) = .ok (answer', t') ∧ answer.placeless = answer'.placeless ∧
      Moved base base' k t t') ∨
    (∃ e e', s.perform op = .error e ∧ s'.perform (op.down k) = .error e') := by
  have hafter := h.after op
  rcases perform_alike h.placeless_eq (Operation.placeless_down k op).symm with
    ⟨answer, answer', t, t', hok, hok', hanswers, _⟩ | herrors
  · simp only [State.after, hok, hok'] at hafter
    exact .inl ⟨answer, answer', t, t', hok, hok', hanswers, hafter⟩
  · exact .inr herrors

end Moved

end State

end Sm83
