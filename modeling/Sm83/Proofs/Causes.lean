import Sm83.Proofs.Encode.Plan
import Sm83.Proofs.State.Persistence
import Sm83.Proofs.State.Sections

/-!
# Causes and how they are shown

An error is shown with the line it stands on, unless it got its place without the line where it
arose. Few causes do: those of reading an expression, a repetition that is not closed, and a name
that is defined again.
-/

namespace Sm83

open Outcome

/-- What is expected only while an expression is read. -/
def Expectation.isOfExpression : Expectation → Bool
  | expression | closingParen | callParen _ | callEnd _ => true
  | _ => false

/-- An error of this cause gets its place where it arises, and no line with it. -/
def Cause.omitsLine : Cause → Bool
  | grammar (.mismatch expected _) => expected.isOfExpression
  | grammar (.arity ..) | grammar .unterminatedRepeat => true
  | redefinition .. => true
  | _ => false

/-- Where there is no result, the cause is one whose errors are shown with their line. -/
def ShowsLine {α : Type} (x : Except Cause α) : Prop :=
  ∀ cause, x = .error cause → cause.omitsLine = false

variable {cause : Cause}

section

variable {α β : Type} {x : Except Cause α}

@[simp] theorem showsLine_ok (a : α) : ShowsLine (.ok a) := by
  intro cause h
  cases h

@[simp] theorem showsLine_error : ShowsLine (.error cause : Except Cause α) ↔
    cause.omitsLine = false := by
  simp [ShowsLine]

theorem ShowsLine.map (hx : ShowsLine x) (f : α → β) : ShowsLine (x.map f) :=
  fun cause h => hx cause (map_eq_error_iff.mp h)

theorem ShowsLine.bind {f : α → Except Cause β} (hx : ShowsLine x) (hf : ∀ a, ShowsLine (f a)) :
    ShowsLine (x.bind f) := by
  intro cause h
  rcases bind_eq_error_iff.mp h with hfirst | ⟨a, _, hrest⟩
  · exact hx cause hfirst
  · exact hf a cause hrest

theorem ShowsLine.mapM {f : α → Except Cause β} (hf : ∀ a, ShowsLine (f a)) (as : List α) :
    ShowsLine (as.mapM f) := by
  induction as with
  | nil => exact showsLine_ok _
  | cons a as ih =>
    rw [List.mapM_cons]
    exact (hf a).bind fun b => ih.bind fun bs => showsLine_ok _

end

@[simp] theorem Obstacle.omitsLine_cause (o : Obstacle) : o.cause.omitsLine = false := by
  cases o <;> rfl

namespace Expr

variable (r : Resolver) (e : Expr)

theorem showsLine_constant : ShowsLine (e.constant r) := by
  intro cause h
  obtain ⟨o, _, rfl⟩ := mapError_eq_error_iff.mp h
  exact o.omitsLine_cause

theorem showsLine_constantText : ShowsLine (e.constantText r) := by
  intro cause h
  obtain ⟨o, _, rfl⟩ := mapError_eq_error_iff.mp h
  exact o.omitsLine_cause

theorem showsLine_fold : ShowsLine (e.fold r) := by
  unfold fold
  split <;> simp

theorem showsLine_operand (field : Field) : ShowsLine (e.operand r field) := by
  unfold operand
  split
  · split
    · simp
    · exact showsLine_error.mpr rfl
  · simp
  · simp

end Expr

namespace Encode

variable (r : Resolver)

theorem showsLine_fill (p : Plan) : ShowsLine (p.fill r) := by
  cases p with
  | rejected => exact showsLine_ok _
  | haltPattern => exact showsLine_error.mpr rfl
  | plain opcode => exact showsLine_ok _
  | byte opcode field e => exact (e.showsLine_operand r field).map _
  | word opcode e => exact (e.showsLine_operand r .word).map _
  | high opcode e =>
    simp only [Plan.fill, highAccess]
    split
    · simp
    · simp
    · split
      · simp
      · exact showsLine_error.mpr rfl
  | jump opcode e => exact (e.showsLine_fold r).map _
  | restart e => exact (e.showsLine_fold r).map _
  | bit base code e =>
    refine (e.showsLine_constant r).bind fun index => ?_
    split
    · exact showsLine_ok _
    · exact showsLine_error.mpr rfl

theorem showsLine_shape (operands : List Operand) (m : Mnemonic) :
    ShowsLine (shape r operands m) := by
  rcases planned m operands with ⟨p, _, _, hfill⟩
  rw [hfill]
  exact showsLine_fill r p

theorem showsLine_encode (m : Mnemonic) (operands : List Operand) :
    ShowsLine (encode r m operands) := by
  unfold encode
  split
  · next cause hshape => exact showsLine_error.mpr (showsLine_shape r operands m cause hshape)
  · simp
  · exact showsLine_error.mpr rfl

end Encode

namespace Section

theorem make_error {requested : Section} (h : requested.make = .error cause) :
    cause.omitsLine = false ∧ cause.isOrdinary = true := by
  have hcheck : ∀ {α : Type} {check : α → Except Cause Unit} {o : Option α},
      checkSome check o = .error cause → ∃ a, check a = .error cause := by
    intro α check o ho
    cases o with
    | none => cases ho
    | some a => exact ⟨a, ho⟩
  rw [make_eq] at h
  rcases bind_eq_error_iff.mp h with haddress | ⟨_, _, h⟩
  · obtain ⟨a, haddress⟩ := hcheck haddress
    unfold checkAddress at haddress
    split at haddress
    · cases haddress
    · cases haddress
      exact ⟨rfl, rfl⟩
  rcases bind_eq_error_iff.mp h with hbank | ⟨_, _, h⟩
  · obtain ⟨b, hbank⟩ := hcheck hbank
    unfold checkBank at hbank
    repeat' split at hbank
    all_goals cases hbank
    all_goals exact ⟨rfl, rfl⟩
  · obtain ⟨n, halignment⟩ := hcheck (map_eq_error_iff.mp h)
    unfold checkAlignment at halignment
    repeat' split at halignment
    all_goals cases halignment
    all_goals exact ⟨rfl, rfl⟩

theorem showsLine_make (requested : Section) : ShowsLine requested.make :=
  fun _ h => (make_error h).1

end Section

/-- The place that a definition is made at. -/
def Operation.place : Operation → Option Location
  | .defineLabel _ _ location => location
  | .defineConstant _ _ _ location => location
  | .defineVariable _ _ location => location
  | .defineText _ _ location => location
  | _ => none

namespace State

/-- The errors of an operation: a definition may repeat one, which is an error at its place, and all
else is an error whose place is not known, for an ordinary cause. -/
inductive Refusal (op : Operation) : Error → Prop
  | again (name : String) (first : Option Location) (defines : op.defined?.isSome = true) :
      Refusal op ⟨.redefinition name first, op.place, none⟩
  | unplaced {cause : Cause} (h : cause.omitsLine = false) (hordinary : cause.isOrdinary = true) :
      Refusal op (.unlocated cause)

section

variable {s s' : State} {op : Operation} {e : Error} {spelling : String}

theorem showsLine_qualify (s : State) (spelling : String) : ShowsLine (s.qualify spelling) := by
  intro cause h
  rw [qualify_error h]
  rfl

/-- A spelling that has no full name is refused without a place. -/
theorem refusal_qualify (h : s.qualify spelling = .error cause) :
    Refusal op (.unlocated cause) := by
  rw [qualify_error h]
  exact .unplaced rfl rfl

/-- A section that cannot be registered is refused without a place. -/
theorem refusal_register {block : Section} (h : s.register block = .error cause) :
    Refusal op (.unlocated cause) := by
  unfold register at h
  repeat' split at h
  all_goals cases h
  exact .unplaced rfl rfl

theorem refusal_define {make : String → Symbol} (h : s.define spelling make = .error e)
    (hdefines : op.defined?.isSome = true) (hplace : ∀ name, (make name).location = op.place) :
    Refusal op e := by
  unfold define at h
  split at h
  · unfold add at h
    split at h
    · cases h
    · split at h
      · split at h <;> cases h
      · cases h
        rw [hplace]
        exact .again _ _ hdefines
  · next cause hqualify =>
    cases h
    exact refusal_qualify hqualify

/-- The errors of each operation. -/
theorem perform_error (h : s.perform op = .error e) : Refusal op e := by
  cases op with
  | defineLabel spelling exported location =>
    rw [perform, map_eq_error_iff, defineLabel] at h
    split at h
    · next hdefine =>
      cases h
      exact refusal_define hdefine rfl fun _ => rfl
    · cases h
  | defineConstant spelling n exported location =>
    exact refusal_define (map_eq_error_iff.mp h) rfl fun _ => rfl
  | defineVariable spelling n location =>
    exact refusal_define (map_eq_error_iff.mp h) rfl fun _ => rfl
  | defineText spelling text location =>
    exact refusal_define (map_eq_error_iff.mp h) rfl fun _ => rfl
  | exportName spelling location =>
    rw [perform, map_eq_error_iff, exportName] at h
    split at h
    · next cause hqualify =>
      cases h
      exact refusal_qualify hqualify
    · split at h
      · cases h
      · split at h <;> cases h
  | purge spelling =>
    rw [perform, map_eq_error_iff, purge] at h
    split at h
    · next cause hqualify =>
      cases h
      exact refusal_qualify hqualify
    · split at h
      · cases h
        exact .unplaced rfl rfl
      · -- each of the three refusals, and removal
        repeat' split at h
        all_goals cases h
        all_goals exact .unplaced rfl rfl
  | qualify spelling =>
    rw [perform, map_eq_error_iff, mapError_eq_error_iff] at h
    rcases h with ⟨cause, hqualify, rfl⟩
    exact refusal_qualify hqualify
  | resolveLocal spelling =>
    rw [perform, map_eq_error_iff, mapError_eq_error_iff] at h
    rcases h with ⟨cause, hresolve, rfl⟩
    rw [resolveLocal_error hresolve]
    exact .unplaced rfl rfl
  | enterSection block =>
    rw [perform, map_eq_error_iff, enterSection] at h
    split at h
    · cases h
      exact .unplaced rfl rfl
    · split at h
      · next cause hregister =>
        cases h
        exact refusal_register hregister
      · cases h
  | enterLoad block =>
    rw [perform, map_eq_error_iff, enterLoad] at h
    split at h
    · cases h
      exact .unplaced rfl rfl
    · cases h
      exact .unplaced rfl rfl
    · split at h
      · next cause hregister =>
        cases h
        exact refusal_register hregister
      · cases h
  | endLoad =>
    rw [perform, map_eq_error_iff, endLoad] at h
    split at h
    · cases h
      exact .unplaced rfl rfl
    · cases h
  | popSection =>
    rw [perform, map_eq_error_iff, popSection] at h
    split at h
    · cases h
      exact .unplaced rfl rfl
    · cases h
  | advanceStorage | resetStorage | lookup | value | isDefined | pushSection | advance
  | sectionSize => cases h

theorem isOrdinary_of_perform (h : s.perform op = .error e) : e.cause.isOrdinary = true := by
  cases perform_error h with
  | again => rfl
  | unplaced _ hordinary => exact hordinary

theorem scope_define {make : String → Symbol} {x : Symbol}
    (h : s.define spelling make = .ok (x, s')) : s'.scope = s.scope := by
  obtain ⟨name, _, hadd⟩ := define_eq_ok_iff.mp h
  exact scope_add hadd

theorem scope_exportName {location : Option Location}
    (h : s.exportName spelling location = .ok s') : s'.scope = s.scope := by
  obtain ⟨name, _, ⟨x, _, rfl⟩ | ⟨_, rfl | rfl⟩⟩ := exportName_cases h
  · rfl
  · rfl
  · rfl

theorem scope_purge (h : s.purge spelling = .ok s') : s'.scope = s.scope := by
  obtain ⟨name, x, _, _, _, _, _, rfl⟩ := purge_cases h
  rfl

theorem scope_resetStorage (s : State) (value : Int) : (s.resetStorage value).scope = s.scope := by
  unfold resetStorage
  split <;> rfl

/-- Only a label whose full name has no dot changes the scope, and it becomes the scope itself. -/
theorem perform_scope {answer : Answer} (h : s.perform op = .ok (answer, s')) :
    s'.scope = s.scope ∨ ∃ spelling exported location name,
      op = .defineLabel spelling exported location ∧ s.qualify spelling = .ok name ∧
        isLocalName name = false ∧ s'.scope = some name := by
  cases touches_of_perform h with
  | defines defined =>
    cases op with
    | defineLabel spelling exported location =>
      rw [perform, map_eq_ok_iff] at h
      obtain ⟨⟨symbol, t⟩, hdefine, heq⟩ := h
      cases heq
      obtain ⟨name, u, hname, hadd, rfl⟩ := defineLabel_eq_ok_iff.mp hdefine
      have hsymbol : symbol.name = name := by
        rw [(add_bound hadd (by simp [labelHere])).1]
        rfl
      rw [hsymbol]
      cases hlocal : isLocalName name with
      | true => exact .inl (scope_add hadd)
      | false => exact .inr ⟨spelling, exported, location, name, rfl, hname, hlocal, rfl⟩
    | defineConstant | defineVariable | defineText =>
      exact .inl (of_map_ok (P := fun t => t.scope = s.scope) h fun _ hr => scope_define hr)
    | _ => cases defined
  | exports done => exact .inl (scope_exportName done)
  | purges done => exact .inl (scope_purge done)
  | advances bytes => exact .inl (scope_resetStorage _ _)
  | resets value => exact .inl (scope_resetStorage _ _)
  | nothing same => exact .inl same.scope

end

end State

end Sm83
