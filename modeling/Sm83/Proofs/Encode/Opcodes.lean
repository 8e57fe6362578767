import Sm83.Proofs.Encode.Agreement
import Sm83.Proofs.Run.Operands

/-!
# Which instruction has which opcode

Instructions are taken as they come out of a source: a word in any letter case, and operands whose
registers, conditions and pointers have a spelling. The opcode map is then unambiguous, since an
opcode stands for the instruction it was made from, and it is full, since an instruction can be read
off every entry of the map.
-/

namespace Sm83

/-- The instruction of a word and written operands is encoded with the opcode. A restart has none.
-/
def Emits (r : Resolver) (w : String) (operands : List Operand) (opcode : Nat) : Prop :=
  (∀ o ∈ operands, o.isWritten = true) ∧
    ∃ record, encodeWord r w operands = .ok record ∧ record.opcode? = some opcode

/-- The two instructions, read in their plain spellings, are the same operation on the same
registers, condition and bit index. Words differ in letter case at most. -/
def SameOperation (r₁ : Resolver) (w₁ : String) (operands₁ : List Operand) (r₂ : Resolver)
    (w₂ : String) (operands₂ : List Operand) : Prop :=
  ∃ m₁ m₂ m operands operands',
    Mnemonic.ofWord? (Text.lower w₁) = some m₁ ∧ Spells m₁ operands₁ m operands ∧
    Mnemonic.ofWord? (Text.lower w₂) = some m₂ ∧ Spells m₂ operands₂ m operands' ∧
    operands.map (Operand.slot r₁ m) = operands'.map (Operand.slot r₂ m)

section

variable {r : Resolver} {w : String} {operands : List Operand} {opcode : Nat}

theorem Emits.decode_eq (h : Emits r w operands opcode) :
    ∃ m m' operands', Mnemonic.ofWord? (Text.lower w) = some m ∧ Spells m operands m' operands' ∧
      decode opcode = some (outline r m' operands') := by
  obtain ⟨hwritten, record, hrecord, hopcode⟩ := h
  unfold encodeWord at hrecord
  split at hrecord
  · next m hm =>
    have hoperands : ∀ o ∈ operands, o ≠ .register .atHl := fun o ho =>
      Operand.ne_atHl_of_isWritten (hwritten o ho)
    obtain ⟨m', operands', hspells, hdecode⟩ := decode_of_encode hoperands hrecord hopcode
    exact ⟨m, m', operands', hm, hspells, hdecode⟩
  · cases hrecord

theorem Emits.sameOperation {r' : Resolver} {w' : String} {operands' : List Operand}
    (h : Emits r w operands opcode) (h' : Emits r' w' operands' opcode) :
    SameOperation r w operands r' w' operands' := by
  obtain ⟨m₁, m, plain₁, hm₁, hspells₁, hdecode₁⟩ := h.decode_eq
  obtain ⟨m₂, m', plain₂, hm₂, hspells₂, hdecode₂⟩ := h'.decode_eq
  have heq : outline r m plain₁ = outline r' m' plain₂ :=
    Option.some.inj (hdecode₁.symm.trans hdecode₂)
  obtain ⟨rfl, hslots⟩ := Entry.mk.injEq .. |>.mp heq
  exact ⟨m₁, m₂, m, plain₁, plain₂, hm₁, hspells₁, hm₂, hspells₂, hslots⟩

theorem Emits.isSome_decode (h : Emits r w operands opcode) : (decode opcode).isSome = true := by
  obtain ⟨m, m', operands', -, -, hdecode⟩ := h.decode_eq
  rw [hdecode]
  rfl

theorem Spells.eq_ld {m : Mnemonic} {operands' : List Operand}
    (h : Spells .ld operands m operands') : m = .ld := by
  cases h <;> rfl

theorem not_emits_halt_of_ld (hw : Mnemonic.ofWord? (Text.lower w) = some .ld) :
    ¬Emits r w operands 0x76 := by
  intro h
  obtain ⟨m, m', operands', hm, hspells, hdecode⟩ := h.decode_eq
  obtain rfl : .ld = m := Option.some.inj (hw.symm.trans hm)
  obtain rfl := hspells.eq_ld
  cases hdecode

end

/-- An operand that shows as the slot does; numbers are as small as they can be. -/
def Slot.sample : Slot → Operand
  | register r => .register r
  | condition .c => .register .c
  | condition k => .condition k
  | pointer p => .pointer p
  | memory => .memory (.literal 0xFF00)
  | immediate => .immediate (.literal 0)
  | stackOffset => .stackOffset (.literal 0)
  | index n => .immediate (.literal n)

theorem Mnemonic.ofWord?_lower_word (m : Mnemonic) : ofWord? (Text.lower m.word) = some m := by
  cases m <;> decide +kernel

/-- The operand is written, and any expression in it is a number that can be read. -/
def Operand.isPlain (o : Operand) : Bool :=
  o.isWritten &&
    match o.expr? with
    | some (.literal n) => 0 ≤ n && n < 0x80000000
    | some _ => false
    | none => true

theorem Operand.printable_of_isPlain {o : Operand} (h : o.isPlain = true) : o.Printable := by
  rw [isPlain, Bool.and_eq_true] at h
  refine ⟨h.1, ?_⟩
  intro e he
  have hvalue := h.2
  rw [Option.mem_def.mp he] at hvalue
  cases e with
  | literal n =>
    simp only [Bool.and_eq_true, decide_eq_true_eq] at hvalue
    exact .literal hvalue.1 hvalue.2
  | _ => cases hvalue

/-- The instruction read off an entry has plain operands and is encoded with the opcode. -/
def Entry.emits (r : Resolver) (opcode : Nat) (f : Entry) : Bool :=
  (f.slots.map Slot.sample).all Operand.isPlain &&
    match encode r f.mnemonic (f.slots.map Slot.sample) with
    | .ok record => record.opcode? == some opcode
    | .error _ => false

set_option maxRecDepth 10000 in
theorem emits_byte (r : Resolver) :
    (List.range 0x100).all (fun n => (decode n).all (Entry.emits r n)) = true := by
  rfl

set_option maxRecDepth 10000 in
theorem emits_page (r : Resolver) : (List.range 0x100).all (fun n =>
    (decode (0xCB00 + n)).all (Entry.emits r (0xCB00 + n))) = true := by
  rfl

theorem Entry.emits_of_decode (r : Resolver) {opcode : Nat} {f : Entry}
    (h : decode opcode = some f) : f.emits r opcode = true := by
  have hdefined : isDefined opcode = true := (decode_isSome_iff.mp (by rw [h]; rfl)).1
  simp only [isDefined, Bool.or_eq_true, Bool.and_eq_true, decide_eq_true_eq,
    beq_iff_eq] at hdefined
  rcases hdefined with (⟨hbyte, -⟩ | rfl) | ⟨hlow, hhigh⟩
  · have hall := List.all_eq_true.mp (emits_byte r) opcode (List.mem_range.mpr hbyte)
    rwa [h] at hall
  · cases h
    rfl
  · obtain ⟨n, rfl⟩ : ∃ n, opcode = 0xCB00 + n := ⟨opcode - 0xCB00, by omega⟩
    have hall := List.all_eq_true.mp (emits_page r) n (List.mem_range.mpr (by omega))
    rwa [h] at hall

theorem emits_of_decode (r : Resolver) {opcode : Nat} {f : Entry} (h : decode opcode = some f) :
    ∃ w operands, Emits r w operands opcode ∧
      ∃ run run', Step.operands run = .ok operands run' := by
  have hemits := Entry.emits_of_decode r h
  rw [Entry.emits, Bool.and_eq_true, List.all_eq_true] at hemits
  obtain ⟨hplain, hencode⟩ := hemits
  have hprintable := fun o ho => Operand.printable_of_isPlain (hplain o ho)
  obtain ⟨run', hread⟩ := Step.operands_render hprintable "" (.fresh false) (.empty 0 false)
  refine ⟨f.mnemonic.word, f.slots.map Slot.sample, ⟨fun o ho => (hprintable o ho).written, ?_⟩,
    _, run', hread⟩
  rw [encodeWord, Mnemonic.ofWord?_lower_word]
  split at hencode
  · next record hrecord => exact ⟨record, hrecord, eq_of_beq hencode⟩
  · cases hencode

/-- Two instructions with one opcode are the same operation; every opcode is one of the processor's,
each of those other than the restarts and the lone first byte of `stop` is the opcode of some
instruction, and no load has the opcode of `halt`. -/
theorem opcodes_unambiguous :
    (∀ run operands run', Step.operands run = .ok operands run' →
      ∀ o ∈ operands, o.isWritten = true) ∧
    (∀ r₁ w₁ operands₁ r₂ w₂ operands₂ opcode,
      Emits r₁ w₁ operands₁ opcode → Emits r₂ w₂ operands₂ opcode →
      SameOperation r₁ w₁ operands₁ r₂ w₂ operands₂) ∧
    (∀ r w operands opcode, Emits r w operands opcode → isDefined opcode = true) ∧
    (∀ r opcode, isDefined opcode = true → opcode ∉ restarts → opcode ≠ 0x10 →
      ∃ w operands, Emits r w operands opcode ∧
        ∃ run run', Step.operands run = .ok operands run') ∧
    (∀ r w operands, Mnemonic.ofWord? (Text.lower w) = some .ld → ¬Emits r w operands 0x76) := by
  refine ⟨Step.operands_written, ?_, ?_, ?_, ?_⟩
  · intro r₁ w₁ operands₁ r₂ w₂ operands₂ opcode h₁ h₂
    exact h₁.sameOperation h₂
  · intro r w operands opcode h
    exact (decode_isSome_iff.mp h.isSome_decode).1
  · intro r opcode hdefined hrestart hstop
    have hsome := decode_isSome_iff.mpr ⟨hdefined, hrestart, hstop⟩
    obtain ⟨f, hf⟩ := Option.isSome_iff_exists.mp hsome
    exact emits_of_decode r hf
  · intro r w operands hw
    exact not_emits_halt_of_ld hw

/-- The first byte of `stop` is an opcode and no restart, and no instruction has it for its opcode:
`stop` comes with its second byte. -/
theorem lone_stop_byte_not_emitted : isDefined 0x10 = true ∧ 0x10 ∉ restarts ∧
    ∀ r w operands, ¬Emits r w operands 0x10 := by
  refine ⟨by decide, by decide, ?_⟩
  intro r w operands h
  cases h.isSome_decode

end Sm83
