import Sm83.Assembly.Basic
import Sm83.Proofs.Expr.Calls

/-!
# Early and late decisions about operands

An operand whose value is open when its instruction is encoded is decided at the end of the source.
For short loads, relative jumps and restarts it makes no difference when that happens.
-/

namespace Sm83

open Sm83.Expr

/-- The expression that a record keeps for its operand. -/
def Record.operand? : Record → Option Expr
  | noArg _ => none
  | arg8 _ e _ | arg16 _ e | jump _ e | restart e => some e

/-- Under what is known now, a record encoded while its operand was open comes to a record whose
operand is a literal: they have one opcode and one size, and the open operand has the literal as its
value. -/
structure Record.SettlesTo (r : Resolver) (late early : Record) : Prop where
  opcode : late.opcode? = early.opcode?
  size : late.size = early.size
  value : ∃ e n, late.operand? = some e ∧ early.operand? = some (.literal n) ∧ e.value r = .ok n

namespace Encode

variable {r r' : Resolver} {e : Expr} {missing : List String} {v : Int}

theorem value_low (h : e.value r = .ok v) : (call .low [e]).value r = .ok (v % 256) := by
  have hgather : gather (values r [e]) = .ok [v] := by
    rw [gather_eq_ok_iff, values_eq_map]
    simp [h]
  rw [value_call_isNumeric r [e] (by decide), hgather]
  rfl

theorem checkRecord_highAccess (opcode : Nat) (address : Option Int) (h : e.value r = .ok v) :
    Step.checkRecord r address (.arg8 opcode (.call .low [e]) (some .highRam)) =
      discard (RangeCheck.highRam.check v) := by
  simp [Step.checkRecord, Step.boundedPart, Step.checkKnown, h]

theorem highAccess_decided_late (opcode : Nat) (address : Option Int)
    (hopen : e.value r = .error (.deferred missing)) (hknown : e.value r' = .ok v) :
    ∃ late, highAccess r opcode e = .ok (some late) ∧
      ((∃ early, highAccess r' opcode e = .ok (some early) ∧
          Step.checkRecord r' address late = .ok () ∧ late.SettlesTo r' early) ∨
        ∃ f f', highAccess r' opcode e = .error (.range f) ∧
          Step.checkRecord r' address late = .error (.range f')) := by
  refine ⟨.arg8 opcode (.call .low [e]) (some .highRam), by simp [highAccess, hopen], ?_⟩
  rw [checkRecord_highAccess opcode address hknown]
  by_cases hrange : RangeCheck.highRam.low ≤ v ∧ v ≤ RangeCheck.highRam.high
  · left
    refine ⟨.arg8 opcode (.literal (v % 256)) none, ?_, ?_, ?_⟩
    · simp [highAccess, hknown, hrange]
    · simp only [RangeCheck.check, if_pos hrange]
      rfl
    · exact ⟨rfl, rfl, _, _, rfl, rfl, value_low hknown⟩
  · right
    refine ⟨.highRam v, .bounds "ldh address" 0xFF00 0xFFFF v, ?_, ?_⟩
    · simp only [highAccess, hknown, if_neg hrange]
    · simp only [RangeCheck.check, if_neg hrange]
      rfl

theorem fold_decided_late (hopen : e.value r = .error (.deferred missing))
    (hknown : e.value r' = .ok v) : e.fold r = .ok e ∧ e.fold r' = .ok (.literal v) := by
  simp [fold, hopen, hknown]

/-- The operands of a jump to an address, which may have a condition. -/
inductive JumpsTo (e : Expr) : List Operand → Prop where
  | always : JumpsTo e [.immediate e]
  | when (k : Operand) (h : k.conditionCode?.isSome) : JumpsTo e [k, .immediate e]

variable {operands : List Operand}

theorem relativeJump_decided_late (hto : JumpsTo e operands)
    (hopen : e.value r = .error (.deferred missing)) (hknown : e.value r' = .ok v) :
    ∃ late early, relativeJump r operands = .ok (some late) ∧
      relativeJump r' operands = .ok (some early) ∧ late.SettlesTo r' early := by
  obtain ⟨hlate, hearly⟩ := fold_decided_late hopen hknown
  cases hto with
  | always =>
    refine ⟨.jump 0x18 e, .jump 0x18 (.literal v), ?_, ?_, ⟨rfl, rfl, e, v, rfl, rfl, hknown⟩⟩
    · simp [relativeJump, hlate, Except.map]
    · simp [relativeJump, hearly, Except.map]
  | when k hk =>
    obtain ⟨code, hcode⟩ := Option.isSome_iff_exists.mp hk
    refine ⟨.jump (0x20 ||| code <<< 3) e, .jump (0x20 ||| code <<< 3) (.literal v), ?_, ?_,
      ⟨rfl, rfl, e, v, rfl, rfl, hknown⟩⟩
    · simp [relativeJump, hcode, hlate, Except.map]
    · simp [relativeJump, hcode, hearly, Except.map]

theorem restart_decided_late (hopen : e.value r = .error (.deferred missing))
    (hknown : e.value r' = .ok v) :
    ∃ late early, restart r [.immediate e] = .ok (some late) ∧
      restart r' [.immediate e] = .ok (some early) ∧ late.SettlesTo r' early := by
  obtain ⟨hlate, hearly⟩ := fold_decided_late hopen hknown
  refine ⟨.restart e, .restart (.literal v), ?_, ?_, ⟨rfl, rfl, e, v, rfl, rfl, hknown⟩⟩
  · simp [restart, hlate, Except.map]
  · simp [restart, hearly, Except.map]

theorem encode_of_shape {m : Mnemonic} {record : Record}
    (h : shape r operands m = .ok (some record)) : encode r m operands = .ok record := by
  simp [encode, h]

theorem encode_of_shape_error {m : Mnemonic} {cause : Cause}
    (h : shape r operands m = .error cause) : encode r m operands = .error cause := by
  simp [encode, h]

/-- Encoding an instruction with what is known under `r'` and checking the record that it had under
`r` both succeed, with the same result, or both fail because of the range. -/
def CheckedAlike (r r' : Resolver) (address : Option Int) (m : Mnemonic)
    (operands : List Operand) : Prop :=
  ∃ late, encode r m operands = .ok late ∧
    ((∃ early, encode r' m operands = .ok early ∧
        Step.checkRecord r' address late = .ok () ∧ late.SettlesTo r' early) ∨
      ∃ f f', encode r' m operands = .error (.range f) ∧
        Step.checkRecord r' address late = .error (.range f'))

theorem checkedAlike_highAccess {m : Mnemonic} {opcode : Nat}
    (hshape : ∀ r, shape r operands m = highAccess r opcode e) (address : Option Int)
    (hopen : e.value r = .error (.deferred missing)) (hknown : e.value r' = .ok v) :
    CheckedAlike r r' address m operands := by
  obtain ⟨late, hlate, hcases⟩ := highAccess_decided_late opcode address hopen hknown
  refine ⟨late, encode_of_shape ((hshape r).trans hlate), ?_⟩
  rcases hcases with ⟨early, hearly, hcheck, hsettles⟩ | ⟨f, f', hfail, hcheck⟩
  · exact .inl ⟨early, encode_of_shape ((hshape r').trans hearly), hcheck, hsettles⟩
  · exact .inr ⟨f, f', encode_of_shape_error ((hshape r').trans hfail), hcheck⟩

end Encode

open Encode in
/-- Deciding late agrees with deciding early. A short load through a value that was open can be
encoded now exactly if the record encoded then passes its check, and the two come to the same; a
relative jump and a restart have the target that they kept then. -/
theorem late_decisions_agree {e : Expr} {r r' : Resolver} {missing : List String} {v : Int}
    (address : Option Int) (hopen : e.value r = .error (.deferred missing))
    (hknown : e.value r' = .ok v) :
    CheckedAlike r r' address .ldh [.register .a, .memory e] ∧
      CheckedAlike r r' address .ldh [.memory e, .register .a] ∧
      (∀ operands, JumpsTo e operands →
        ∃ late early, encode r .jr operands = .ok late ∧ encode r' .jr operands = .ok early ∧
          late.SettlesTo r' early) ∧
      ∃ late early, encode r .rst [.immediate e] = .ok late ∧
        encode r' .rst [.immediate e] = .ok early ∧ late.SettlesTo r' early := by
  refine ⟨?_, ?_, ?_, ?_⟩
  · exact checkedAlike_highAccess (fun _ => rfl) address hopen hknown
  · exact checkedAlike_highAccess (fun _ => rfl) address hopen hknown
  · intro operands hto
    obtain ⟨late, early, hlate, hearly, hsettles⟩ := relativeJump_decided_late hto hopen hknown
    exact ⟨late, early, encode_of_shape hlate, encode_of_shape hearly, hsettles⟩
  · obtain ⟨late, early, hlate, hearly, hsettles⟩ := restart_decided_late hopen hknown
    exact ⟨late, early, encode_of_shape hlate, encode_of_shape hearly, hsettles⟩

/-- A name that turns out to be below the highest page: the load fails early and late. -/
theorem late_decisions_agree_below :
    value .empty (.symbol "port") = .error (.deferred ["port"]) ∧
      value (.ofValues fun _ => some (.number 0xFEFF)) (.symbol "port") = .ok 0xFEFF ∧
      Encode.CheckedAlike .empty (.ofValues fun _ => some (.number 0xFEFF)) none .ldh
        [.register .a, .memory (.symbol "port")] :=
  have hopen : value .empty (.symbol "port") = .error (.deferred ["port"]) := by
    simp [value, Resolver.empty]
  have hknown : value (.ofValues fun _ => some (.number 0xFEFF)) (.symbol "port") =
      .ok 0xFEFF := by
    simp [value, Resolver.ofValues, Word.wrap]
    decide
  ⟨hopen, hknown, (late_decisions_agree none hopen hknown).1⟩

end Sm83
