import Sm83.Proofs.Expr.Invalid
import Sm83.Proofs.Expr.Missing
import Sm83.Proofs.Expr.Texts

/-!
# Values are words

Evaluation works on integers and wraps what comes out. Every number it gives is therefore a signed
32-bit word, and on expressions made of numbers, names and operators it is the arithmetic of 32-bit
patterns.
-/

namespace Sm83

open Outcome

variable {x : BitVec 32} {op : BinaryOp} {v : Int} {reason : Reason}

namespace Word

/-- A signed word of 32 bits. -/
def Fits (v : Int) : Prop :=
  -0x80000000 ≤ v ∧ v < 0x80000000

instance (v : Int) : Decidable (Fits v) :=
  inferInstanceAs (Decidable (_ ∧ _))

theorem fits_wrap (v : Int) : Fits (wrap v) :=
  wrap_mem_range v

theorem fits_ofBool (b : Bool) : Fits (ofBool b) := by
  cases b <;> decide

theorem wrap_eq_toInt (v : Int) : wrap v = (BitVec.ofInt 32 v).toInt := by
  rw [BitVec.toInt_ofInt]
  rfl

@[simp] theorem wrap_toInt (x : BitVec 32) : wrap x.toInt = x.toInt := by
  rw [wrap_eq_toInt, BitVec.ofInt_toInt]

@[simp] theorem bits_toInt (x : BitVec 32) : bits x.toInt = x :=
  BitVec.ofInt_toInt

/-- The pattern of a truth value. -/
def truth (b : Bool) : BitVec 32 :=
  if b then 1 else 0

theorem ofBool_eq_toInt (b : Bool) : ofBool b = (truth b).toInt := by
  cases b <;> rfl

theorem toInt_eq_zero_iff : x.toInt = 0 ↔ x = 0 := by
  rw [← BitVec.toInt_inj]
  rfl

theorem toInt_beq (x y : BitVec 32) : (x.toInt == y.toInt) = (x == y) := by
  rw [Bool.eq_iff_iff, beq_iff_eq, beq_iff_eq, BitVec.toInt_inj]

theorem toInt_beq_zero (x : BitVec 32) : (x.toInt == 0) = (x == 0) :=
  toInt_beq x 0

theorem neg_toInt (x : BitVec 32) : wrap (-x.toInt) = (-x).toInt := by
  rw [wrap_eq_toInt, BitVec.ofInt_neg, BitVec.ofInt_toInt]

theorem complement_toInt (x : BitVec 32) : wrap (-x.toInt - 1) = (~~~x).toInt := by
  rw [wrap_eq_toInt, Int.sub_eq_add_neg, BitVec.ofInt_add, BitVec.ofInt_neg, BitVec.ofInt_toInt,
    BitVec.not_eq_neg_add, BitVec.sub_eq_add_neg]
  rfl

theorem shiftLeft_toInt (x : BitVec 32) (count : Nat) :
    wrap (shiftLeft x.toInt count) = (x <<< count).toInt := by
  unfold shiftLeft
  split
  · next h =>
    rw [BitVec.shiftLeft_eq_zero h]
    rfl
  · have hpower : BitVec.ofInt 32 (Nat.pow 2 count : Nat) = BitVec.twoPow 32 count := by
      rw [BitVec.ofInt_natCast]
      apply BitVec.eq_of_toNat_eq
      simp
    rw [wrap_eq_toInt, BitVec.ofInt_mul, BitVec.ofInt_toInt, hpower,
      BitVec.shiftLeft_eq_mul_twoPow]

theorem sshiftRight_saturates (x : BitVec 32) {count : Nat} (h : 31 ≤ count) :
    x.sshiftRight count = x.sshiftRight 31 := by
  apply BitVec.eq_of_getLsbD_eq
  intro i hi
  simp only [BitVec.getLsbD_sshiftRight]
  by_cases hlast : i = 0
  · -- the lowest bit is the sign itself, or a copy of it
    grind
  · have hbeyond : ¬ count + i < 32 := by omega
    have hbeyond' : ¬ 31 + i < 32 := by omega
    simp [hbeyond, hbeyond']

theorem shiftRight_toInt (x : BitVec 32) (count : Nat) :
    shiftRight x.toInt count = (x.sshiftRight count).toInt := by
  have hplaces : x.sshiftRight count = x.sshiftRight (if 31 ≤ count then 31 else count) := by
    split
    · next h => exact sshiftRight_saturates x h
    · rfl
  rw [hplaces, shiftRight, BitVec.toInt_sshiftRight, Int.shiftRight_eq_div_pow]
  rfl

theorem toNat_toInt (h : ¬ x.toInt < 0) : x.toInt.toNat = x.toNat := by
  apply BitVec.toNat_toInt_of_sle
  rw [BitVec.sle_iff_toInt_le]
  exact Int.not_lt.mp h

end Word

/-- An operator with one operand on bit patterns. -/
def UnaryOp.onBits (op : UnaryOp) (x : BitVec 32) : BitVec 32 :=
  match op with
  | neg => -x
  | complement => ~~~x
  | not => Word.truth (x == 0)
  | other _ => x

namespace BinaryOp

/-- An operator with two operands on bit patterns. Quotients, remainders, comparisons and shifts to
the right are signed. Where an operator has no value the pattern says nothing. -/
def onBits (op : BinaryOp) (x y : BitVec 32) : BitVec 32 :=
  match op with
  | logicalOr => Word.truth (x != 0 || y != 0)
  | logicalAnd => Word.truth (x != 0 && y != 0)
  | equal => Word.truth (x == y)
  | notEqual => Word.truth (x != y)
  | less => Word.truth (x.slt y)
  | lessEqual => Word.truth (x.sle y)
  | greater => Word.truth (y.slt x)
  | greaterEqual => Word.truth (y.sle x)
  | add => x + y
  | sub => x - y
  | bitOr => x ||| y
  | bitXor => x ^^^ y
  | bitAnd => x &&& y
  | shiftLeft => x <<< y
  | shiftRight => x.sshiftRight' y
  | mul => x * y
  | div => x.sdiv y
  | mod => x.srem y
  | other _ => 0

/-- An operator has no value with a right operand, for a reason: a divisor is zero, a number of
places is negative, or the operator is unknown. -/
inductive Refuses : BinaryOp → Int → Reason → Prop
  | div : Refuses div 0 .divisionByZero
  | mod : Refuses mod 0 .moduloByZero
  | shiftLeft {b : Int} (negative : b < 0) : Refuses shiftLeft b (.negativeShift b)
  | shiftRight {b : Int} (negative : b < 0) : Refuses shiftRight b (.negativeShift b)
  | other {s : String} {b : Int} : Refuses (other s) b (.unknownOperator s)

end BinaryOp

namespace Expr

theorem applyUnary_toInt (op : UnaryOp) (x : BitVec 32) :
    applyUnary op x.toInt = (op.onBits x).toInt := by
  cases op with
  | neg => exact Word.neg_toInt x
  | complement => exact Word.complement_toInt x
  | not =>
    unfold applyUnary UnaryOp.onBits
    rw [Word.toInt_beq_zero, Word.ofBool_eq_toInt]
  | other s => rfl

/-- The value that an operator has for two signed values is that of the operator on their patterns.
-/
theorem applyBinary_toInt {y : BitVec 32} (h : applyBinary op x.toInt y.toInt = .ok v) :
    v = (op.onBits x y).toInt := by
  cases op with
  | logicalOr | logicalAnd =>
    cases h
    simp only [bne, Word.toInt_beq_zero, Word.ofBool_eq_toInt]
    rfl
  | equal | notEqual =>
    cases h
    simp only [bne, Word.toInt_beq, Word.ofBool_eq_toInt]
    rfl
  | less | greater =>
    cases h
    rw [← BitVec.slt_eq_decide, Word.ofBool_eq_toInt]
    rfl
  | lessEqual | greaterEqual =>
    cases h
    rw [← BitVec.sle_eq_decide, Word.ofBool_eq_toInt]
    rfl
  | add =>
    cases h
    exact (BitVec.toInt_add x y).symm
  | sub =>
    cases h
    exact BitVec.toInt_sub.symm
  | mul =>
    cases h
    exact (BitVec.toInt_mul x y).symm
  | bitOr | bitXor | bitAnd =>
    cases h
    simp only [Word.or, Word.xor, Word.and, Word.bits_toInt, Word.wrap_toInt]
    rfl
  -- the operators from here on are refused for some values, and then there is nothing to show
  | shiftLeft =>
    simp only [applyBinary] at h
    split at h
    · cases h
    · next hcount =>
      cases h
      rw [Word.toNat_toInt hcount, Word.shiftLeft_toInt]
      rfl
  | shiftRight =>
    simp only [applyBinary] at h
    split at h
    · cases h
    · next hcount =>
      cases h
      rw [Word.toNat_toInt hcount, Word.shiftRight_toInt, Word.wrap_toInt]
      rfl
  | div =>
    simp only [applyBinary] at h
    split at h <;> cases h
    exact (BitVec.toInt_sdiv x y).symm
  | mod =>
    simp only [applyBinary] at h
    split at h <;> cases h
    rw [← BitVec.toInt_srem, Word.wrap_toInt]
    rfl
  | other s => cases h

theorem settled_toInt (h : settled? op x.toInt = some v) (y : BitVec 32) :
    v = (op.onBits x y).toInt := by
  cases op with
  | logicalAnd =>
    simp only [settled?] at h
    split at h <;> cases h
    next hzero =>
    rw [Word.toInt_eq_zero_iff.mp hzero]
    rfl
  | logicalOr =>
    simp only [settled?] at h
    split at h <;> cases h
    next hnonzero =>
    have hx : (x != 0) = true := by
      simpa using fun hzero => hnonzero (Word.toInt_eq_zero_iff.mpr hzero)
    simp only [BinaryOp.onBits, hx, Bool.true_or]
    rfl
  | _ => cases h

variable {a : Int}

/-- When an operator refuses its right operand. -/
theorem applyBinary_eq_error_iff {b : Int} : applyBinary op a b = .error reason ↔
    op.Refuses b reason := by
  constructor
  · intro h
    cases op with
    | div =>
      simp only [applyBinary] at h
      split at h <;> cases h
      next hzero => exact hzero ▸ .div
    | mod =>
      simp only [applyBinary] at h
      split at h <;> cases h
      next hzero => exact hzero ▸ .mod
    | shiftLeft =>
      simp only [applyBinary] at h
      split at h <;> cases h
      next hnegative => exact .shiftLeft hnegative
    | shiftRight =>
      simp only [applyBinary] at h
      split at h <;> cases h
      next hnegative => exact .shiftRight hnegative
    | other s =>
      cases h
      exact .other
    | _ => cases h
  · intro h
    cases h with
    | shiftLeft negative => simp [applyBinary, negative]
    | shiftRight negative => simp [applyBinary, negative]
    | _ => rfl

theorem fits_applyUnary (op : UnaryOp) (h : Word.Fits a) : Word.Fits (applyUnary op a) := by
  cases op with
  | neg => exact Word.fits_wrap _
  | complement => exact Word.fits_wrap _
  | not => exact Word.fits_ofBool _
  | other s => exact h

theorem fits_applyBinary {b : Int} (h : applyBinary op a b = .ok v) : Word.Fits v := by
  cases op with
  | shiftLeft | shiftRight | div | mod =>
    simp only [applyBinary] at h
    split at h <;> cases h
    exact Word.fits_wrap _
  | add | sub | mul | bitOr | bitXor | bitAnd =>
    cases h
    exact Word.fits_wrap _
  | other s => cases h
  | _ =>
    cases h
    exact Word.fits_ofBool _

theorem fits_settled (h : settled? op a = some v) : Word.Fits v := by
  unfold settled? at h
  split at h
  · split at h <;> cases h
    decide
  · split at h <;> cases h
    decide
  · cases h

theorem fits_combineBinary {x y : Except Obstacle Int} (h : combineBinary op x y = .ok v) :
    Word.Fits v := by
  rcases combineBinary_eq_ok_iff.mp h with ⟨a, _, ⟨hsettled, _⟩ | ⟨_, b, _, happly⟩⟩
  · exact fits_settled hsettled
  · exact fits_applyBinary happly

theorem fits_applyNumeric {f : Function} {vs : List Int} (h : applyNumeric f vs = .ok v) :
    Word.Fits v := by
  have hbyte : ∀ n : Int, Word.Fits (n % 256) := by
    intro n
    unfold Word.Fits
    omega
  unfold applyNumeric at h
  split at h
  iterate 2
    cases h
    exact hbyte _
  · cases h
    exact Word.fits_wrap _
  · split at h <;> cases h
    exact Word.fits_wrap _
  iterate 6
    cases h
    exact Word.fits_wrap _
  -- the two functions that are defined between minus one and one only
  iterate 2
    split at h <;> cases h
    exact Word.fits_wrap _
  iterate 2
    cases h
    exact Word.fits_wrap _
  iterate 2 cases h

theorem fits_compareTexts (s t : String) : Word.Fits (compareTexts s t) := by
  unfold compareTexts
  split
  · decide
  · split
    · decide
    · decide

theorem findIn_le {pattern cs : List Char} {k : Nat} (h : Text.findIn pattern cs = some k) :
    k + pattern.length ≤ cs.length := by
  rcases findIn_eq_some_iff.mp h with ⟨hle, hthere, _⟩
  have hends := hthere.length_le
  rw [List.length_drop] at hends
  omega

theorem fits_position {t s : String} (h : t.length < 0x80000000) : Word.Fits (position t s) := by
  unfold position
  split
  · next k hfound =>
    have hends := findIn_le hfound
    rw [String.length_toList, String.length_toList] at hends
    by_cases hempty : s.toList = []
    · -- the empty text is found at the start
      have hk : k = 0 := by
        rw [hempty] at hfound
        cases htext : t.toList <;> simp [htext, Text.findIn] at hfound <;> exact hfound.symm
      subst hk
      decide
    · have hnonempty : 0 < s.length := by
        rw [← String.length_toList]
        exact List.length_pos_iff.mpr hempty
      unfold Word.Fits
      omega
  · decide

/-- Every text that a length or a position is asked of is shorter than `2 ^ 31` characters. -/
def ShortTexts (r : Resolver) (e : Expr) : Prop :=
  ∀ f args ts, call f args ∈ e.parts → f = .strlen ∨ f = .strin → texts r args = .ok ts →
    ∀ t ∈ ts, t.length < 0x80000000

theorem fits_applyTexts {f : Function} {ts : List String}
    (hshort : f = .strlen ∨ f = .strin → ∀ t ∈ ts, t.length < 0x80000000)
    (h : applyTexts f ts = .ok v) : Word.Fits v := by
  unfold applyTexts at h
  split at h
  · next t _ =>
    cases h
    have hlength := hshort (.inl rfl) t List.mem_cons_self
    unfold Word.Fits
    omega
  · cases h
    exact fits_compareTexts _ _
  · next t s _ =>
    cases h
    exact fits_position (hshort (.inr rfl) t List.mem_cons_self)
  · cases h

theorem fits_value_call {r : Resolver} {f : Function} {args : List Expr}
    (hshort : ShortTexts r (call f args)) (h : value r (call f args) = .ok v) : Word.Fits v := by
  rcases f.family_cases with rfl | hf | hf | hf | hf
  · rcases value_bank r args with ⟨names, hbank⟩
    rw [hbank] at h
    cases h
  · -- an answer to whether something is known
    cases f <;> simp only [Function.inspects, Bool.false_eq_true] at hf
    · simp only [value] at h
      split at h <;> cases h <;> decide
    · simp only [value] at h
      split at h <;> cases h
      exact Word.fits_ofBool _
  · rw [value_call_readsTexts _ _ hf, bind_eq_ok_iff] at h
    rcases h with ⟨ts, hts, happly⟩
    exact fits_applyTexts (fun hasked => hshort f args ts (self_mem_parts _) hasked hts) happly
  · rw [value_call_yieldsText _ _ hf] at h
    cases h
  · rw [value_call_isNumeric _ _ hf, bind_eq_ok_iff] at h
    rcases h with ⟨vs, _, happly⟩
    exact fits_applyNumeric happly

/-- The number of an expression is a signed 32-bit word, whatever operators and functions it is made
of and however large the numbers in it are. -/
theorem known_values_fit (r : Resolver) (e : Expr) (hshort : ShortTexts r e) (v : Int)
    (h : e.value r = .ok v) : -0x80000000 ≤ v ∧ v < 0x80000000 := by
  -- the induction is for operators that leave their operand as it is
  induction e generalizing v with
  | literal n =>
    cases h
    exact Word.fits_wrap n
  | text s => cases h
  | symbol name =>
    unfold value at h
    split at h <;> cases h
    exact Word.fits_wrap _
  | unary op e ih =>
    rw [value, map_eq_ok_iff] at h
    rcases h with ⟨a, ha, rfl⟩
    have hoperand : ShortTexts r e := by
      intro f args ts hmem
      exact hshort f args ts (List.mem_cons_of_mem _ hmem)
    exact fits_applyUnary op (ih hoperand a ha)
  | binary op a b _ _ =>
    rw [value] at h
    exact fits_combineBinary h
  | call f args _ => exact fits_value_call hshort h

/-- A name with a large number and the place of a word in a text: the product is wrapped. -/
theorem known_values_fit_wrapped :
    let r :=
      Resolver.ofValues fun name => if name = "n" then some (.number 0x7000000000000003) else none
    let e := binary .mul (unary .neg (symbol "n")) (call .strin [text "gameboy", text "boy"])
    ShortTexts r e ∧ e.value r = .ok (-15) ∧ -0x80000000 ≤ (-15 : Int) ∧
      (-15 : Int) < 0x80000000 := by
  intro r e
  have hshort : ShortTexts r e := by
    intro f args ts hmem _ hts
    simp only [e, parts, partsAll, List.mem_cons, List.mem_append, List.not_mem_nil, reduceCtorEq,
      call.injEq, false_or, or_false] at hmem
    rcases hmem with ⟨rfl, rfl⟩
    cases hts
    decide
  have hvalue : e.value r = .ok (-15) := by rfl
  exact ⟨hshort, hvalue, known_values_fit r e hshort (-15) hvalue⟩

end Expr

/-- The names that have values have numbers, and their patterns are those of the numbers. -/
def Resolver.ReadsAs (r : Resolver) (names : String → BitVec 32) (used : List String) : Prop :=
  ∀ name ∈ used, ∀ v, r.value name = some v → ∃ n, v = .number n ∧ names name = BitVec.ofInt 32 n

namespace Expr

/-- The expression is made of numbers, names and operators. -/
def isArithmetic : Expr → Bool
  | literal _ => true
  | text _ => false
  | symbol _ => true
  | unary _ e => e.isArithmetic
  | binary _ a b => a.isArithmetic && b.isArithmetic
  | call _ _ => false

/-- The value of an expression over bit patterns, where names stand for patterns. -/
def onBits (names : String → BitVec 32) : Expr → BitVec 32
  | literal n => BitVec.ofInt 32 n
  | text _ => 0
  | symbol name => names name
  | unary op e => op.onBits (e.onBits names)
  | binary op a b => op.onBits (a.onBits names) (b.onBits names)
  | call _ _ => 0

/-- The parts of an expression whose values count: all of it but what stands to the right of a
logical operator that its left operand settles. -/
inductive Counts (r : Resolver) : Expr → Expr → Prop
  | self (e : Expr) : Counts r e e
  | operand {op : UnaryOp} {e p : Expr} (counts : Counts r e p) : Counts r (unary op e) p
  | left {op : BinaryOp} {a b p : Expr} (counts : Counts r a p) : Counts r (binary op a b) p
  | right {op : BinaryOp} {a b p : Expr} (isOpen : ∀ v, a.value r = .ok v → settled? op v = none)
      (counts : Counts r b p) : Counts r (binary op a b) p

/-- A part that counts is an operator that has no value for its two known operands. -/
def Fails (r : Resolver) (e : Expr) (reason : Reason) : Prop :=
  ∃ op a b x y, Counts r e (binary op a b) ∧ a.value r = .ok x ∧ b.value r = .ok y ∧
    op.Refuses y reason

section

variable {r : Resolver} {names : String → BitVec 32} {e p : Expr}

theorem everyCall_of_isArithmetic {q : Function → Nat → Bool} (h : e.isArithmetic) :
    e.everyCall q := by
  induction e with
  | literal n => rfl
  | text s => rfl
  | symbol name => rfl
  | unary op e ih => exact everyCall_unary.mpr (ih h)
  | binary op a b iha ihb =>
    rcases Bool.and_eq_true_iff.mp h with ⟨ha, hb⟩
    exact everyCall_binary.mpr ⟨iha ha, ihb hb⟩
  | call f args ih => cases h

theorem isArithmetic_binary {a b : Expr} (h : (binary op a b).isArithmetic) :
    a.isArithmetic ∧ b.isArithmetic :=
  Bool.and_eq_true_iff.mp h

/-- Where the reason for an invalid operation comes from. -/
theorem invalid_of_combineBinary {x y : Except Obstacle Int}
    (h : combineBinary op x y = .error (.invalid reason)) :
    x = .error (.invalid reason) ∨
      (∀ a, x = .ok a → settled? op a = none) ∧
        (y = .error (.invalid reason) ∨
          ∃ a b, x = .ok a ∧ y = .ok b ∧ applyBinary op a b = .error reason) := by
  rcases x with (m | reason' | f) | a
  · refine .inr ⟨by simp, .inl ?_⟩
    rcases y with (n | reason' | f') | b <;> cases h
    rfl
  · left
    rcases y with (n | reason' | f') | b <;> cases h <;> rfl
  · cases h
  · right
    cases hs : settled? op a with
    | some v =>
      -- an operator that is settled has a value, or lacks an argument on its right
      by_cases hlacks : ∃ f, y = .error (.incomplete f)
      · rcases hlacks with ⟨f, rfl⟩
        cases h
      · rw [combineBinary_settled hs fun f hf => hlacks ⟨f, hf⟩] at h
        cases h
    | none =>
      refine ⟨by simpa using hs, ?_⟩
      cases y with
      | error o =>
        rw [combineBinary_open hs] at h
        exact .inl h
      | ok b =>
        rw [combineBinary_known hs, mapError_eq_error_iff] at h
        rcases h with ⟨reason', happly, heq⟩
        cases heq
        exact .inr ⟨a, b, rfl, rfl, happly⟩

theorem readsAs_binary {a b : Expr} (h : r.ReadsAs names (binary op a b).symbols) :
    r.ReadsAs names a.symbols ∧ r.ReadsAs names b.symbols :=
  ⟨fun name hname => h name (mem_mergeNames.mpr (.inl hname)),
    fun name hname => h name (mem_mergeNames.mpr (.inr hname))⟩

theorem Fails.mono {e' : Expr} (h : Fails r e reason)
    (hcounts : ∀ p, Counts r e p → Counts r e' p) : Fails r e' reason := by
  rcases h with ⟨op, a, b, x, y, hpart, hrest⟩
  exact ⟨op, a, b, x, y, hcounts _ hpart, hrest⟩

/-- A value is that of the bit pattern. -/
theorem value_eq_toInt (h : e.isArithmetic) (hnames : r.ReadsAs names e.symbols)
    (hv : e.value r = .ok v) : v = (e.onBits names).toInt := by
  induction e generalizing v with
  | literal n =>
    cases hv
    exact Word.wrap_eq_toInt n
  | text s => cases h
  | symbol name =>
    simp only [value] at hv
    split at hv <;> cases hv
    next n hname =>
    rcases hnames name (by simp [symbols]) _ hname with ⟨_, ⟨⟩, hbits⟩
    rw [onBits, hbits, Word.wrap_eq_toInt]
  | unary op e ih =>
    rw [value, map_eq_ok_iff] at hv
    rcases hv with ⟨a, ha, rfl⟩
    rw [ih h hnames ha, applyUnary_toInt]
    rfl
  | binary op a b iha ihb =>
    rcases isArithmetic_binary h with ⟨ha, hb⟩
    rcases readsAs_binary hnames with ⟨hleft, hright⟩
    rw [value] at hv
    rcases combineBinary_eq_ok_iff.mp hv with ⟨x, hx, ⟨hsettled, _⟩ | ⟨_, y, hy, happly⟩⟩
    · rw [iha ha hleft hx] at hsettled
      exact settled_toInt hsettled _
    · rw [iha ha hleft hx, ihb hb hright hy] at happly
      exact applyBinary_toInt happly
  | call f args ih => cases h

theorem fails_of_invalid (h : e.isArithmetic) (hnames : r.ReadsAs names e.symbols)
    (hv : e.value r = .error (.invalid reason)) : e.Fails r reason := by
  induction e with
  | literal n => cases hv
  | text s => cases h
  | symbol name =>
    simp only [value] at hv
    split at hv <;> cases hv
    next s hname =>
    obtain ⟨n, htext, _⟩ := hnames name (by simp [symbols]) _ hname
    cases htext
  | unary op e ih =>
    rw [value, map_eq_error_iff] at hv
    exact (ih h hnames hv).mono fun _ => .operand
  | binary op a b iha ihb =>
    rcases isArithmetic_binary h with ⟨ha, hb⟩
    rcases readsAs_binary hnames with ⟨hnamesLeft, hnamesRight⟩
    rw [value] at hv
    rcases invalid_of_combineBinary hv with hleft | ⟨hopen, hright | ⟨x, y, hx, hy, happly⟩⟩
    · exact (iha ha hnamesLeft hleft).mono fun _ => .left
    · exact (ihb hb hnamesRight hright).mono fun _ => .right hopen
    · exact ⟨op, a, b, x, y, .self _, hx, hy, applyBinary_eq_error_iff.mp happly⟩
  | call f args ih => cases h

theorem Counts.isInvalid (hcounts : Counts r e p) (h : e.legal) (hp : IsInvalid (p.value r)) :
    IsInvalid (e.value r) := by
  induction hcounts with
  | self e => exact hp
  | operand counts ih =>
    rw [value, isInvalid_map_iff]
    exact ih (everyCall_unary.mp h) hp
  | @left op a b p counts ih =>
    rcases everyCall_binary.mp h with ⟨ha, hb⟩
    rw [value, isInvalid_combineBinary_iff (fun f => (not_incomplete_of_legal ha r f).1)
      (fun f => (not_incomplete_of_legal hb r f).1)]
    exact .inl (ih ha hp)
  | @right op a b p hopen counts ih =>
    rcases everyCall_binary.mp h with ⟨ha, hb⟩
    have hlacks : ∀ f, a.value r ≠ .error (.incomplete f) :=
      fun f => (not_incomplete_of_legal ha r f).1
    rw [value, isInvalid_combineBinary_iff hlacks (fun f => (not_incomplete_of_legal hb r f).1)]
    have hright := ih hb hp
    -- the left operand does not settle the operator, however far it has got
    rcases hleft : a.value r with (missing | reason | f) | v
    · exact .inr (.inl ⟨missing, rfl, hright⟩)
    · exact .inl ⟨reason, rfl⟩
    · exact absurd hleft (hlacks f)
    · exact .inr (.inr ⟨v, rfl, hopen v hleft, .inl hright⟩)

theorem isInvalid_of_fails (h : e.legal) (hfails : e.Fails r reason) : IsInvalid (e.value r) := by
  rcases hfails with ⟨op, a, b, x, y, hcounts, hx, hy, hrefuses⟩
  have happly : applyBinary op x y = .error reason := applyBinary_eq_error_iff.mpr hrefuses
  have hopen : settled? op x = none := by
    cases hrefuses <;> rfl
  refine hcounts.isInvalid h ⟨reason, ?_⟩
  rw [value, hx, hy, combineBinary_known hopen, happly]
  rfl

end

/-- Evaluation is arithmetic on 32-bit patterns. An expression of numbers, names and operators is
invalid exactly if some part that counts divides by zero, shifts by a negative number of places or
has an unknown operator; otherwise it has a number if all names have values. -/
theorem arithmetic_on_bits (r : Resolver) (names : String → BitVec 32) (e : Expr)
    (h : e.isArithmetic) (hnames : r.ReadsAs names e.symbols) :
    (∀ v, e.value r = .ok v → v = (e.onBits names).toInt) ∧
    (∀ reason, e.value r = .error (.invalid reason) → e.Fails r reason) ∧
    (∀ reason, e.Fails r reason → ∃ reason', e.value r = .error (.invalid reason')) ∧
    ((∀ name ∈ e.symbols, r.value name ≠ none) → (∀ reason, ¬ e.Fails r reason) →
      e.value r = .ok (e.onBits names).toInt) := by
  have hlegal : e.legal := everyCall_of_isArithmetic h
  refine ⟨fun v hv => value_eq_toInt h hnames hv, fun reason hv => fails_of_invalid h hnames hv,
    fun reason hfails => isInvalid_of_fails hlegal hfails, ?_⟩
  intro hknown hsound
  rcases hv : e.value r with (missing | reason | f) | v
  · -- nothing is waited for, since every name has a value
    have hawaited := (waits_of_bankless (everyCall_of_isArithmetic h) r).number missing hv
    rcases hawaited.exists_unknown with ⟨name, hname, hunknown⟩
    exact absurd hunknown (hknown name hname)
  · exact absurd (fails_of_invalid h hnames hv) (hsound reason)
  · exact absurd hv (not_incomplete_of_legal hlegal r f).1
  · rw [value_eq_toInt h hnames hv]

/-- The least word divided by minus one is the least word again; a name that stands for it may be
given as any integer with that pattern, and a quotient that does not count may have a zero divisor.
-/
theorem arithmetic_on_bits_minimum :
    let r := Resolver.ofValues fun name => if name = "low" then some (.number 0x580000000) else none
    let names := fun name => if name = "low" then 0x80000000#32 else 0
    let e := binary .add (binary .div (symbol "low") (unary .neg (literal 1)))
      (binary .logicalAnd (literal 0x100000000) (binary .div (symbol "low") (literal 0)))
    e.isArithmetic ∧ r.ReadsAs names e.symbols ∧ e.value r = .ok (-0x80000000) ∧
      -0x80000000 = (e.onBits names).toInt := by
  intro r names e
  have harithmetic : e.isArithmetic := by decide
  have hnames : r.ReadsAs names e.symbols := by
    intro name hname v hv
    have hlow : name = "low" := by simpa [e, symbols, mergeNames] using hname
    subst hlow
    cases hv
    exact ⟨0x580000000, rfl, by decide⟩
  have hvalue : e.value r = .ok (-0x80000000) := by rfl
  exact ⟨harithmetic, hnames, hvalue,
    (arithmetic_on_bits r names e harithmetic hnames).1 _ hvalue⟩

end Expr

end Sm83
