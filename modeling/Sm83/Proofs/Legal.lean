import Sm83.Proofs.Causes
import Sm83.Proofs.Expr.Calls

/-!
# Legal expressions and proper failures

Where every call has as many arguments as its function takes, all that can go wrong is an error of
the source.
-/

namespace Sm83

theorem Obstacle.isOrdinary_cause {o : Obstacle} (h : ∀ f, o ≠ .incomplete f) :
    o.cause.isOrdinary = true := by
  cases o with
  | deferred missing => rfl
  | invalid reason => rfl
  | incomplete f => exact absurd rfl (h f)

namespace Expr

variable {e : Expr}

theorem isOrdinary_of_value {r : Resolver} {o : Obstacle} (h : e.legal = true)
    (ho : e.value r = .error o) : o.cause.isOrdinary = true := by
  apply Obstacle.isOrdinary_cause
  rintro f rfl
  exact (not_incomplete_of_legal h r f).1 ho

theorem proper_constant (h : e.legal = true) (r : Resolver) :
    Proper (fun _ => True) (e.constant r) := by
  unfold constant
  cases hvalue : e.value r with
  | ok v => trivial
  | error o => exact isOrdinary_of_value h hvalue

theorem proper_constantText (h : e.legal = true) (r : Resolver) :
    Proper (fun _ => True) (e.constantText r) := by
  unfold constantText
  cases hvalue : e.textValue r with
  | ok v => trivial
  | error o =>
    apply Obstacle.isOrdinary_cause (o := o)
    rintro f rfl
    exact (not_incomplete_of_legal h r f).2 hvalue

theorem proper_fold (h : e.legal = true) (r : Resolver) :
    Proper (fun e' => e'.legal = true) (e.fold r) := by
  unfold fold
  split
  · rfl
  · exact h
  · next o _ hvalue => exact isOrdinary_of_value h hvalue

theorem proper_operand (h : e.legal = true) (r : Resolver) (field : Field) :
    Proper (fun e' => e'.legal = true) (e.operand r field) := by
  unfold operand
  split
  · split
    · rfl
    · rfl
  · exact h
  · next o _ hvalue => exact isOrdinary_of_value h hvalue

end Expr

theorem Section.proper_make (block : Section) : Proper (fun _ => True) block.make := by
  cases hmake : block.make with
  | ok made => trivial
  | error cause => exact (make_error hmake).2

theorem State.proper_qualify (s : State) (spelling : String) :
    Proper (fun _ => True) (s.qualify spelling) := by
  cases hqualify : s.qualify spelling with
  | ok name => trivial
  | error cause =>
    rw [qualify_error hqualify]
    rfl

/-- Every expression of an operand is legal. -/
def Operand.legal : Operand → Bool
  | memory e | immediate e | stackOffset e => e.legal
  | _ => true

/-- Every expression of a record is legal. -/
def Record.legal : Record → Bool
  | noArg _ => true
  | arg8 _ e _ | arg16 _ e | jump _ e | restart e => e.legal

namespace Encode

/-- The record of an accepted shape is legal. -/
abbrev Legal (x : Shape) : Prop :=
  Proper (fun record => ∀ x ∈ record, Record.legal x = true) x

variable {r : Resolver} {operands : List Operand}

theorem legal_map {x : Except Cause Expr} {record : Expr → Record}
    (hx : Proper (fun e => e.legal = true) x)
    (hrecord : ∀ e, e.legal = true → (record e).legal = true) :
    Legal (x.map fun e => some (record e)) := by
  apply hx.map
  intro e he x hx
  cases hx
  exact hrecord e he

theorem legal_highAccess {e : Expr} (h : e.legal = true) (opcode : Nat) :
    Legal (highAccess r opcode e) := by
  unfold highAccess
  split
  · intro x hx
    cases hx
    have hargs : ∀ a ∈ [e], a.legal = true := by simpa using h
    have hlow : (Expr.call .low [e]).legal = true := Expr.everyCall_call.mpr ⟨rfl, hargs⟩
    exact hlow
  · next o _ hvalue => exact Expr.isOrdinary_of_value h hvalue
  · split
    · intro x hx
      cases hx
      rfl
    · rfl

theorem legal_fill {p : Plan} (h : ∀ e ∈ p.expr?, e.legal = true) : Legal (p.fill r) := by
  cases p with
  | rejected =>
    intro x hx
    cases hx
  | haltPattern => rfl
  | plain opcode =>
    intro x hx
    cases hx
    rfl
  | byte opcode field e => exact legal_map (Expr.proper_operand (h e rfl) r field) fun _ he => he
  | word opcode e => exact legal_map (Expr.proper_operand (h e rfl) r .word) fun _ he => he
  | high opcode e => exact legal_highAccess (h e rfl) opcode
  | jump opcode e => exact legal_map (Expr.proper_fold (h e rfl) r) fun _ he => he
  | restart e => exact legal_map (Expr.proper_fold (h e rfl) r) fun _ he => he
  | bit base code e =>
    refine (Expr.proper_constant (h e rfl) r).bind ?_
    intro index _
    split
    · intro x hx
      cases hx
      rfl
    · rfl

theorem legal_shape (h : ∀ o ∈ operands, o.legal = true) (m : Mnemonic) :
    Legal (shape r operands m) := by
  rcases planned m operands with ⟨p, _, hexpr, hfill⟩
  rw [hfill]
  apply legal_fill
  intro e he
  rcases hexpr e he with rfl | ⟨o, ho, hoe⟩
  · rfl
  · have hlegal := h o ho
    cases o <;> cases hoe <;> exact hlegal

end Encode

/-- Legal operands are encoded, or refused for a cause of their own. -/
theorem legal_encode {operands : List Operand} (h : ∀ o ∈ operands, o.legal = true) (r : Resolver)
    (m : Mnemonic) : Proper (fun record => record.legal = true) (encode r m operands) := by
  have hshape := Encode.legal_shape (r := r) h m
  unfold encode
  split
  · next hcause =>
    rw [hcause] at hshape
    exact hshape
  · next record hrecord =>
    rw [hrecord] at hshape
    exact hshape record rfl
  · rfl

end Sm83
