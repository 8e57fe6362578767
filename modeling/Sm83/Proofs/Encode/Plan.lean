import Sm83.Proofs.Encode.Agreement

/-!
# Instructions before their values are known

The shape of the operands decides what an instruction is made of: its opcode, its expression, and
what becomes of the expression. Only then are values looked at, and they can fill a plan in or make
it fail, but they cannot change it. So the size of an instruction, and whether its operands are
accepted at all, are fixed before any symbol has a value.
-/

namespace Sm83

open Outcome

/-- The cause refuses an instruction for its word or for the shape of its operands. -/
def Cause.refusesShape : Cause → Bool
  | grammar (.unknownInstruction _) => true
  | c => c.category = .operands || c.category = .encoding

/-- The two records are of one kind. -/
def Record.Alike : Record → Record → Prop
  | .noArg _, .noArg _ => True
  | .arg8 .., .arg8 .. => True
  | .arg16 .., .arg16 .. => True
  | .jump .., .jump .. => True
  | .restart _, .restart _ => True
  | _, _ => False

namespace Encode

/-! ## Plans -/

/-- What an instruction is made of before the values of its operands are looked at. -/
inductive Plan where
  | rejected
  | haltPattern
  | plain (opcode : Nat)
  | byte (opcode : Nat) (field : Field) (e : Expr)
  | word (opcode : Nat) (e : Expr)
  | high (opcode : Nat) (e : Expr)
  | jump (opcode : Nat) (e : Expr)
  | restart (e : Expr)
  | bit (base code : Nat) (e : Expr)

namespace Plan

/-- The outcome of a plan under a resolver. -/
def fill (r : Resolver) : Plan → Shape
  | rejected => Encode.rejected
  | haltPattern => .error .haltPattern
  | plain opcode => Encode.plain opcode
  | byte opcode field e => withByte r opcode field e
  | word opcode e => withWord r opcode e
  | high opcode e => highAccess r opcode e
  | jump opcode e => (e.fold r).map fun target => some (.jump opcode target)
  | restart e => (e.fold r).map fun target => some (.restart target)
  | bit base code e => do
    let index ← e.constant r
    if 0 ≤ index ∧ index ≤ 7 then Encode.plain (page (base ||| index.toNat <<< 3 ||| code))
    else .error (.conversion index 3)

/-- Opcodes and operand bytes have the sizes that they should have, and only operations on one bit
have an opcode that depends on a value. -/
def Sound (m : Mnemonic) : Plan → Prop
  | plain opcode => opcode < 0x10000
  | byte opcode field _ => opcode < 0x100 ∧ field.patterns = 0x100
  | word opcode _ => opcode < 0x100
  | high opcode _ => opcode < 0x100
  | jump opcode _ => opcode < 0x100
  | bit base code _ => m.takesIndex = true ∧ base < 0x100 ∧ code < 8
  | _ => True

/-- The expression that a plan is filled in with. -/
def expr? : Plan → Option Expr
  | byte _ _ e | word _ e | high _ e | jump _ e | restart e | bit _ _ e => some e
  | _ => none

end Plan

/-- Whatever is known of names, the outcome is one plan filled in. Its expression is that of an
operand, or the number zero. -/
def Planned (m : Mnemonic) (operands : List Operand) (outcome : Resolver → Shape) : Prop :=
  ∃ p : Plan, p.Sound m ∧ (∀ e ∈ p.expr?, e = .literal 0 ∨ ∃ o ∈ operands, o.expr? = some e) ∧
    ∀ r, outcome r = p.fill r

namespace Planned

variable {m : Mnemonic} {operands : List Operand} {opcode : Nat} {o : Operand} {e : Expr}

theorem of_none {p : Plan} (h : p.Sound m) (hexpr : p.expr? = none) :
    Planned m operands p.fill := by
  refine ⟨p, h, ?_, fun _ => rfl⟩
  intro e he
  rw [hexpr] at he
  cases he

theorem of_expr {p : Plan} (h : p.Sound m) (hexpr : p.expr? = some e) (ho : o ∈ operands)
    (he : o.expr? = some e) : Planned m operands p.fill := by
  refine ⟨p, h, ?_, fun _ => rfl⟩
  intro e' he'
  cases hexpr.symm.trans he'
  exact .inr ⟨o, ho, he⟩

theorem rejected : Planned m operands fun _ => rejected :=
  of_none (p := .rejected) trivial rfl

theorem plain (h : opcode < 0x10000) : Planned m operands fun _ => plain opcode :=
  of_none (p := .plain opcode) h rfl

theorem byte {field : Field} (h : opcode < 0x100) (hfield : field.patterns = 0x100)
    (ho : o ∈ operands) (he : o.expr? = some e) :
    Planned m operands fun r => withByte r opcode field e :=
  of_expr (p := .byte opcode field e) ⟨h, hfield⟩ rfl ho he

theorem word (h : opcode < 0x100) (ho : o ∈ operands) (he : o.expr? = some e) :
    Planned m operands fun r => withWord r opcode e :=
  of_expr (p := .word opcode e) h rfl ho he

theorem high (h : opcode < 0x100) (ho : o ∈ operands) (he : o.expr? = some e) :
    Planned m operands fun r => highAccess r opcode e :=
  of_expr (p := .high opcode e) h rfl ho he

theorem jump (h : opcode < 0x100) (ho : o ∈ operands) (he : o.expr? = some e) :
    Planned m operands fun r => (e.fold r).map fun target => some (.jump opcode target) :=
  of_expr (p := .jump opcode e) h rfl ho he

end Planned

/-! ## Field codes -/

section

variable {o : Operand} {code : Nat}

theorem code8?_lt (h : o.code8? = some code) : code < 8 := by
  cases o with
  | register reg => cases reg <;> cases h <;> decide
  | pointer p =>
    cases p <;> cases h
    decide
  | _ => cases h

theorem code16?_lt (h : o.code16? = some code) : code < 4 :=
  (List.getElem?_eq_some_iff.mp (wide_of_code16? (r := .empty) (m := .ld) h)).1

theorem stackCode?_lt (h : o.stackCode? = some code) : code < 4 :=
  (List.getElem?_eq_some_iff.mp (stacked_of_stackCode? (r := .empty) (m := .push) h)).1

theorem pointerCode?_lt {p : Pointer} (h : p.code? = some code) : code < 4 :=
  (List.getElem?_eq_some_iff.mp (pointers_of_code? h)).1

theorem conditionCode?_lt (h : o.conditionCode? = some code) : code < 4 := by
  rcases conditions_of_conditionCode? h with ⟨k, _, hrow⟩
  exact (List.getElem?_eq_some_iff.mp hrow).1

end

/-! ## A plan for every instruction -/

section

variable {m : Mnemonic} {operands : List Operand}

theorem planned_fixed {opcode : Nat} (h : opcode < 0x10000) :
    Planned m operands fun _ => fixed opcode operands := by
  cases operands with
  | nil => exact .plain h
  | cons => exact .rejected

theorem planned_alu {op : Nat} (hop : op < 8) {source : Operand}
    (hsource : source ∈ operands) : Planned m operands fun r => alu r op source := by
  have hregister : ∀ op < 8, ∀ code < 8, 0x80 ||| op <<< 3 ||| code < 0x10000 := by decide
  have himmediate : ∀ op < 8, 0xC6 ||| op <<< 3 < 0x100 := by decide
  unfold alu
  cases hcode : source.code8? with
  | some code => exact .plain (hregister op hop code (code8?_lt hcode))
  | none =>
    cases source with
    | immediate e => exact .byte (himmediate op hop) rfl hsource rfl
    | _ => exact .rejected

theorem planned_accumulator {op : Nat} (hop : op < 8) :
    Planned m operands fun r => accumulator r op operands := by
  unfold accumulator
  split
  · exact planned_alu hop (by simp)
  · exact planned_alu hop (by simp)
  · exact .rejected

theorem planned_addition : Planned m operands fun r => addition r operands := by
  have hwide : ∀ code < 4, 0x09 ||| code <<< 4 < 0x10000 := by decide
  unfold addition
  split
  · split
    · next hcode => exact .plain (hwide _ (code16?_lt hcode))
    · exact .rejected
  · exact .byte (by decide) rfl (o := .immediate _) (by simp) rfl
  · exact .rejected
  · exact planned_accumulator (by decide)

theorem planned_count {direction : Nat} (h : direction < 2) :
    Planned m operands fun _ => count direction operands := by
  have hnarrow : ∀ direction < 2, ∀ code < 8, 0x04 ||| code <<< 3 ||| direction < 0x10000 := by
    decide
  have hwide : ∀ direction < 2, ∀ code < 4, 0x03 ||| code <<< 4 ||| direction <<< 3 < 0x10000 := by
    decide
  unfold count
  split
  · split
    · next hcode => exact .plain (hnarrow direction h _ (code8?_lt hcode))
    · next hcode => exact .plain (hwide direction h _ (code16?_lt hcode))
    · exact .rejected
  · exact .rejected

theorem page_lt {opcode : Nat} (h : opcode < 0x100) : page opcode < 0x10000 :=
  Nat.or_lt_two_pow (n := 16) (by decide) (Nat.lt_trans h (by decide))

theorem le_page (opcode : Nat) : 0xCB00 ≤ page opcode :=
  Nat.left_le_or

variable {base : Nat}

theorem planned_rotation
    (h : base < 0x100) : Planned m operands fun _ => rotation base operands := by
  unfold rotation
  split
  · split
    · next hcode =>
      have hbyte : base ||| _ < 0x100 :=
        Nat.or_lt_two_pow (n := 8) h (Nat.lt_trans (code8?_lt hcode) (by decide))
      exact .plain (page_lt hbyte)
    · exact .rejected
  · exact .rejected

theorem planned_bitOperation (hm : m.takesIndex = true) (h : base < 0x100) :
    Planned m operands fun r => bitOperation r base operands := by
  unfold bitOperation
  split
  · next e target =>
    split
    · next code hcode =>
      exact .of_expr (p := .bit base code e) ⟨hm, h, code8?_lt hcode⟩ rfl (o := .immediate e)
        (by simp) rfl
    · exact .rejected
  · exact .rejected

theorem planned_absoluteJump : Planned m operands fun r => absoluteJump r operands := by
  have hconditions : ∀ code < 4, 0xC2 ||| code <<< 3 < 0x100 := by decide
  unfold absoluteJump
  split
  · exact .plain (by decide)
  · exact .plain (by decide)
  · exact .word (by decide) (o := .immediate _) (by simp) rfl
  · split
    · next hcode =>
      exact .word (hconditions _ (conditionCode?_lt hcode)) (o := .immediate _) (by simp) rfl
    · exact .rejected
  · exact .rejected

theorem planned_subroutineCall : Planned m operands fun r => subroutineCall r operands := by
  have hconditions : ∀ code < 4, 0xC4 ||| code <<< 3 < 0x100 := by decide
  unfold subroutineCall
  split
  · exact .word (by decide) (o := .immediate _) (by simp) rfl
  · split
    · next hcode =>
      exact .word (hconditions _ (conditionCode?_lt hcode)) (o := .immediate _) (by simp) rfl
    · exact .rejected
  · exact .rejected

theorem planned_subroutineReturn : Planned m operands fun _ => subroutineReturn operands := by
  have hconditions : ∀ code < 4, 0xC0 ||| code <<< 3 < 0x10000 := by decide
  unfold subroutineReturn
  split
  · exact .plain (by decide)
  · split
    · next hcode => exact .plain (hconditions _ (conditionCode?_lt hcode))
    · exact .rejected
  · exact .rejected

theorem planned_relativeJump : Planned m operands fun r => relativeJump r operands := by
  have hconditions : ∀ code < 4, 0x20 ||| code <<< 3 < 0x100 := by decide
  unfold relativeJump
  split
  · exact .jump (by decide) (o := .immediate _) (by simp) rfl
  · split
    · next hcode =>
      exact .jump (hconditions _ (conditionCode?_lt hcode)) (o := .immediate _) (by simp) rfl
    · exact .rejected
  · exact .rejected

theorem planned_restart : Planned m operands fun r => restart r operands := by
  unfold restart
  split
  · next e => exact .of_expr (p := .restart e) trivial rfl (o := .immediate e) (by simp) rfl
  · exact .rejected

theorem planned_stack (h : base < 0x100) : Planned m operands fun _ => stack base operands := by
  have hcodes : ∀ code < 4, code <<< 4 < 0x100 := by decide
  unfold stack
  split
  · split
    · next hcode =>
      have hbyte : base ||| _ <<< 4 < 0x100 :=
        Nat.or_lt_two_pow (n := 8) h (hcodes _ (stackCode?_lt hcode))
      exact .plain (Nat.lt_trans hbyte (by decide))
    · exact .rejected
  · exact .rejected

/-- A load goes by a plan that its operands decide. -/
theorem planned_transfer (target source : Operand) :
    Planned m [target, source] fun r => transfer r target source := by
  have hwide : ∀ code < 4, 0x01 ||| code <<< 4 < 0x100 := by decide
  have hstore : ∀ code < 4, 0x02 ||| code <<< 4 < 0x10000 := by decide
  have hfetch : ∀ code < 4, 0x0A ||| code <<< 4 < 0x10000 := by decide
  unfold transfer
  split
  · next reg e =>
    split
    · next hcode =>
      exact .word (hwide _ (code16?_lt (o := .register reg) hcode)) (o := .immediate e) (by simp)
        rfl
    · exact .rejected
  · exact .byte (by decide) rfl (o := .stackOffset _) (by simp) rfl
  · -- an offset that is left out is the number zero
    have hopcode : 0xF8 < 0x100 := by decide
    refine ⟨.byte 0xF8 .displacement (.literal 0), ⟨hopcode, rfl⟩, ?_, fun _ => rfl⟩
    rintro _ ⟨⟩
    exact .inl rfl
  · exact .plain (by decide)
  · exact .word (by decide) (o := .memory _) (by simp) rfl
  · exact .word (by decide) (o := .memory _) (by simp) rfl
  · exact .word (by decide) (o := .memory _) (by simp) rfl
  · exact .plain (by decide)
  · exact .plain (by decide)
  · split
    · next hcode => exact .plain (hstore _ (pointerCode?_lt hcode))
    · exact .rejected
  · split
    · next hcode => exact .plain (hfetch _ (pointerCode?_lt hcode))
    · exact .rejected
  · exact .rejected

theorem planned_load : Planned m operands fun r => load r operands := by
  have hmove : ∀ t < 8, ∀ s < 8, 0x40 ||| t <<< 3 ||| s < 0x10000 := by decide
  have himmediate : ∀ t < 8, 0x06 ||| t <<< 3 < 0x100 := by decide
  unfold load
  split
  · split
    · next ht hs =>
      split
      · exact .of_none (p := .haltPattern) trivial rfl
      · exact .plain (hmove _ (code8?_lt ht) _ (code8?_lt hs))
    · next ht _ => exact .byte (himmediate _ (code8?_lt ht)) rfl (o := .immediate _) (by simp) rfl
    · exact planned_transfer _ _
  · exact .rejected

theorem planned_movingLoad (h : base < 0x100) :
    Planned m operands fun _ => movingLoad base operands := by
  unfold movingLoad
  split
  · exact .plain (Nat.lt_trans h (by decide))
  · have hbyte : base ||| 8 < 0x100 := Nat.or_lt_two_pow (n := 8) h (by decide)
    exact .plain (Nat.lt_trans hbyte (by decide))
  · exact .rejected

theorem planned_highLoad : Planned m operands fun r => highLoad r operands := by
  unfold highLoad
  split
  · exact .plain (by decide)
  · exact .plain (by decide)
  · exact .high (by decide) (o := .memory _) (by simp) rfl
  · exact .high (by decide) (o := .memory _) (by simp) rfl
  · exact .rejected

end

/-- Every instruction has one plan, whatever is known of names. -/
theorem planned (m : Mnemonic) (operands : List Operand) :
    ∃ p : Plan, p.Sound m ∧ (∀ e ∈ p.expr?, e = .literal 0 ∨ ∃ o ∈ operands, o.expr? = some e) ∧
      ∀ r, shape r operands m = p.fill r := by
  cases m with
  | ld => exact planned_load
  | ldh => exact planned_highLoad
  | ldi | ldd => exact planned_movingLoad (by decide)
  | jp => exact planned_absoluteJump
  | jr => exact planned_relativeJump
  | call => exact planned_subroutineCall
  | ret => exact planned_subroutineReturn
  | rst => exact planned_restart
  | push | pop => exact planned_stack (by decide)
  | inc | dec => exact planned_count (by decide)
  | add => exact planned_addition
  | bit | res | set => exact planned_bitOperation rfl (by decide)
  | adc | sub | sbc | and | xor | or | cp => exact planned_accumulator (by decide)
  | rlc | rrc | rl | rr | sla | sra | swap | srl => exact planned_rotation (by decide)
  | _ => exact planned_fixed (by decide)

/-! ## What comes of a plan -/

/-- A literal in the place of an operand is a number below the bound; an operand that is not known
yet is no literal. -/
def Below (bound : Int) (operand : Expr) : Prop :=
  ∀ v, operand = .literal v → 0 ≤ v ∧ v < bound

/-- The record is of the kind that the plan asks for. -/
def Plan.Gives : Plan → Record → Prop
  | rejected, _ => False
  | haltPattern, _ => False
  | plain opcode, record => record = .noArg opcode
  | byte opcode field _, record =>
    ∃ operand check, record = .arg8 opcode operand check ∧ Below field.patterns operand
  | word opcode _, record => ∃ operand, record = .arg16 opcode operand ∧ Below 0x10000 operand
  | high opcode _, record => ∃ operand check, record = .arg8 opcode operand check ∧
      Below 0x100 operand
  | jump opcode _, record => ∃ target, record = .jump opcode target
  | restart _, record => ∃ target, record = .restart target
  | bit base code _, record => ∃ index < 8, record = .noArg (page (base ||| index <<< 3 ||| code))

section

variable {r : Resolver} {e operand : Expr} {field : Field} {cause : Cause}

theorem below_of_value_error {o : Obstacle} (h : e.value r = .error o) (bound : Int) :
    Below bound e := by
  rintro v rfl
  cases h

theorem below_literal {v bound : Int} (h : 0 < bound) : Below bound (.literal (v % bound)) := by
  rintro _ ⟨⟩
  exact ⟨Int.emod_nonneg v (Int.ne_of_gt h), Int.emod_lt_of_pos v h⟩

theorem below_of_operand (h : e.operand r field = .ok operand) : Below field.patterns operand := by
  unfold Expr.operand at h
  split at h
  · split at h
    · cases h
      exact below_literal (by cases field <;> decide)
    · cases h
  · next hvalue =>
    cases h
    exact below_of_value_error hvalue _
  · cases h

theorem refusesShape_cause (o : Obstacle) : o.cause.refusesShape = false := by
  cases o <;> rfl

theorem refusesShape_of_operand (h : e.operand r field = .error cause) :
    cause.refusesShape = false := by
  unfold Expr.operand at h
  split at h
  · split at h
    · cases h
    · cases h
      rfl
  · cases h
  · cases h
    exact refusesShape_cause _

theorem refusesShape_of_fold (h : e.fold r = .error cause) : cause.refusesShape = false := by
  unfold Expr.fold at h
  split at h
  · cases h
  · cases h
  · cases h
    exact refusesShape_cause _

theorem refusesShape_of_constant (h : e.constant r = .error cause) :
    cause.refusesShape = false := by
  rcases mapError_eq_error_iff.mp h with ⟨o, _, rfl⟩
  exact refusesShape_cause o

end

namespace Plan

variable {r : Resolver} {p : Plan} {record : Record} {cause : Cause}

/-- The record of a plan that has been filled in. -/
theorem gives_of_fill (h : p.fill r = .ok (some record)) : p.Gives record := by
  cases p with
  | rejected => cases h
  | haltPattern => cases h
  | plain opcode =>
    cases h
    rfl
  | byte opcode field e =>
    rcases map_eq_ok_iff.mp h with ⟨operand, hoperand, ⟨⟩⟩
    exact ⟨operand, none, rfl, below_of_operand hoperand⟩
  | word opcode e =>
    rcases map_eq_ok_iff.mp h with ⟨operand, hoperand, ⟨⟩⟩
    exact ⟨operand, rfl, below_of_operand hoperand⟩
  | high opcode e =>
    simp only [fill, highAccess] at h
    split at h
    · cases h
      exact ⟨_, _, rfl, by rintro v ⟨⟩⟩
    · cases h
    · split at h
      · cases h
        exact ⟨_, _, rfl, below_literal (by decide)⟩
      · cases h
  | jump opcode e =>
    rcases map_eq_ok_iff.mp h with ⟨target, _, ⟨⟩⟩
    exact ⟨target, rfl⟩
  | restart e =>
    rcases map_eq_ok_iff.mp h with ⟨target, _, ⟨⟩⟩
    exact ⟨target, rfl⟩
  | bit base code e =>
    rcases bind_eq_ok_iff.mp h with ⟨index, _, h⟩
    split at h
    · next hrange =>
      cases h
      exact ⟨index.toNat, by omega, rfl⟩
    · cases h

theorem eq_haltPattern_of_fill (h : p.fill r = .error cause) (hshape : cause.refusesShape = true) :
    p = .haltPattern := by
  have hvalues : cause.refusesShape = false → p = .haltPattern := by
    intro hfalse
    rw [hfalse] at hshape
    cases hshape
  cases p with
  | rejected => cases h
  | haltPattern => rfl
  | plain opcode => cases h
  | byte opcode field e => exact hvalues (refusesShape_of_operand (map_eq_error_iff.mp h))
  | word opcode e => exact hvalues (refusesShape_of_operand (map_eq_error_iff.mp h))
  | high opcode e =>
    apply hvalues
    simp only [fill, highAccess] at h
    split at h
    · cases h
    · cases h
      exact refusesShape_cause _
    · split at h
      · cases h
      · cases h
        rfl
  | jump opcode e => exact hvalues (refusesShape_of_fold (map_eq_error_iff.mp h))
  | restart e => exact hvalues (refusesShape_of_fold (map_eq_error_iff.mp h))
  | bit base code e =>
    apply hvalues
    rcases bind_eq_error_iff.mp h with hconstant | ⟨index, _, h⟩
    · exact refusesShape_of_constant hconstant
    · split at h
      · cases h
      · cases h
        rfl

theorem map_some_ne_none {x : Except Cause Expr} {make : Expr → Record} :
    (x.map fun e => some (make e)) ≠ .ok none := by
  intro h
  rcases map_eq_ok_iff.mp h with ⟨_, _, hnone⟩
  cases hnone

theorem eq_rejected_of_fill (h : p.fill r = .ok none) : p = .rejected := by
  cases p with
  | rejected => rfl
  | haltPattern => cases h
  | plain opcode => cases h
  | byte opcode field e => exact absurd h map_some_ne_none
  | word opcode e => exact absurd h map_some_ne_none
  | high opcode e =>
    simp only [fill, highAccess] at h
    split at h
    · cases h
    · cases h
    · split at h <;> cases h
  | jump opcode e => exact absurd h map_some_ne_none
  | restart e => exact absurd h map_some_ne_none
  | bit base code e =>
    rcases bind_eq_ok_iff.mp h with ⟨index, _, h⟩
    split at h <;> cases h

/-- Records of one plan have one layout. -/
theorem Gives.layout {m : Mnemonic} {a b : Record} (ha : p.Gives a) (hb : p.Gives b)
    (hp : p.Sound m) :
    a.Alike b ∧ a.size = b.size ∧ (m.takesIndex = false → a.opcode? = b.opcode?) := by
  cases p with
  | rejected => cases ha
  | haltPattern => cases ha
  | plain opcode =>
    cases ha
    cases hb
    exact ⟨trivial, rfl, fun _ => rfl⟩
  | byte opcode _ _ =>
    rcases ha with ⟨_, _, rfl, _⟩
    rcases hb with ⟨_, _, rfl, _⟩
    exact ⟨trivial, rfl, fun _ => rfl⟩
  | word opcode _ =>
    rcases ha with ⟨_, rfl, _⟩
    rcases hb with ⟨_, rfl, _⟩
    exact ⟨trivial, rfl, fun _ => rfl⟩
  | high opcode _ =>
    rcases ha with ⟨_, _, rfl, _⟩
    rcases hb with ⟨_, _, rfl, _⟩
    exact ⟨trivial, rfl, fun _ => rfl⟩
  | jump opcode _ =>
    rcases ha with ⟨_, rfl⟩
    rcases hb with ⟨_, rfl⟩
    exact ⟨trivial, rfl, fun _ => rfl⟩
  | restart _ =>
    rcases ha with ⟨_, rfl⟩
    rcases hb with ⟨_, rfl⟩
    exact ⟨trivial, rfl, fun _ => rfl⟩
  | bit base code _ =>
    rcases ha with ⟨i, _, rfl⟩
    rcases hb with ⟨j, _, rfl⟩
    -- every index gives an opcode of the second page, which takes two bytes
    have hsize : ∀ opcode, opcodeSize (page opcode) = 2 := by
      intro opcode
      have hpage := le_page opcode
      exact if_pos (by omega)
    refine ⟨trivial, (hsize _).trans (hsize _).symm, ?_⟩
    intro hindex
    rw [hp.1] at hindex
    cases hindex

end Plan

end Encode

/-! ## Layout -/

theorem Mnemonic.takesIndex_iff_mem (m : Mnemonic) :
    m.takesIndex = true ↔ m.word ∈ ["bit", "res", "set"] := by
  cases m <;> decide

section

variable {r r' : Resolver} {w : String} {m : Mnemonic} {operands : List Operand} {record : Record}
  {cause : Cause}

theorem encode_eq_ok_iff :
    encode r m operands = .ok record ↔ Encode.shape r operands m = .ok (some record) := by
  unfold encode
  split <;> simp [*]

theorem ofWord?_of_encodeWord (h : encodeWord r w operands = .ok record) :
    ∃ m, Mnemonic.ofWord? (Text.lower w) = some m ∧ encode r m operands = .ok record := by
  unfold encodeWord at h
  split at h
  · next m hm => exact ⟨m, hm, h⟩
  · cases h

theorem gives_of_encode (h : encode r m operands = .ok record) :
    ∃ p : Encode.Plan, p.Sound m ∧ p.Gives record := by
  rcases Encode.planned m operands with ⟨p, hp, _, hfill⟩
  rw [encode_eq_ok_iff, hfill] at h
  exact ⟨p, hp, Encode.Plan.gives_of_fill h⟩

theorem encode_refused (h : encode r m operands = .error cause)
    (hshape : cause.refusesShape = true) : encode r' m operands = .error cause := by
  rcases Encode.planned m operands with ⟨p, _, _, hfill⟩
  unfold encode at h ⊢
  rw [hfill r] at h
  rw [hfill r']
  split at h
  · next hfilled =>
    cases h
    have hplan := Encode.Plan.eq_haltPattern_of_fill hfilled hshape
    subst hplan
    cases hfilled
    rfl
  · cases h
  · next hfilled =>
    have hplan := Encode.Plan.eq_rejected_of_fill hfilled
    subst hplan
    exact h

theorem encodeWord_refused (h : encodeWord r w operands = .error cause)
    (hshape : cause.refusesShape = true) : encodeWord r' w operands = .error cause := by
  unfold encodeWord at h ⊢
  split at h
  · exact encode_refused h hshape
  · exact h

end

/-- Values do not change the layout of an instruction. Under any two resolvers it is refused for its
word or for the shape of its operands with the same error, or under neither; and where both encode
it, the records are of one kind and of one size, and have one opcode unless the opcode holds the
index of a bit. -/
theorem layout_independent_of_values (w : String) (operands : List Operand) (r₁ r₂ : Resolver) :
    (∀ cause, cause.refusesShape = true →
      (encodeWord r₁ w operands = .error cause ↔ encodeWord r₂ w operands = .error cause)) ∧
    (∀ a b, encodeWord r₁ w operands = .ok a → encodeWord r₂ w operands = .ok b →
      a.Alike b ∧ a.size = b.size ∧
        (Text.lower w ∉ ["bit", "res", "set"] → a.opcode? = b.opcode?)) := by
  constructor
  · intro cause hshape
    exact ⟨fun h => encodeWord_refused h hshape, fun h => encodeWord_refused h hshape⟩
  · intro a b ha hb
    rcases ofWord?_of_encodeWord ha with ⟨m, hm, ha⟩
    rcases ofWord?_of_encodeWord hb with ⟨m', hm', hb⟩
    cases hm.symm.trans hm'
    rcases Encode.planned m operands with ⟨p, hp, _, hfill⟩
    rw [encode_eq_ok_iff, hfill] at ha hb
    have hlayout := (Encode.Plan.gives_of_fill ha).layout (Encode.Plan.gives_of_fill hb) hp
    refine ⟨hlayout.1, hlayout.2.1, ?_⟩
    intro hw
    apply hlayout.2.2
    have hword : m.word = Text.lower w := by simpa using List.find?_some hm
    rw [← hword, ← Mnemonic.takesIndex_iff_mem] at hw
    exact eq_false_of_ne_true hw

/-- A jump to a label that is not known yet, and the same jump once it is. -/
theorem layout_independent_of_values_forward :
    let r := Resolver.ofValues fun name => if name = "later" then some (.number 0x150) else none
    let operands := [Operand.condition .nz, .immediate (.symbol "later")]
    ∃ a b, encodeWord .empty "Jp" operands = .ok a ∧ encodeWord r "Jp" operands = .ok b ∧ a ≠ b ∧
      a.Alike b ∧ a.size = b.size ∧ a.opcode? = b.opcode? := by
  intro r operands
  have hword : Mnemonic.ofWord? (Text.lower "Jp") = some .jp := by decide +kernel
  have ha : encodeWord .empty "Jp" operands = .ok (.arg16 0xC2 (.symbol "later")) := by
    rw [encodeWord, hword]
    rfl
  have hb : encodeWord r "Jp" operands = .ok (.arg16 0xC2 (.literal 0x150)) := by
    rw [encodeWord, hword]
    rfl
  have hw : Text.lower "Jp" ∉ ["bit", "res", "set"] := by decide +kernel
  have hlayout := (layout_independent_of_values "Jp" operands .empty r).2 _ _ ha hb
  exact ⟨_, _, ha, hb, by decide, hlayout.1, hlayout.2.1, hlayout.2.2 hw⟩

end Sm83
