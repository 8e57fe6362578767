import Sm83.Proofs.Encode.Decode
import Sm83.Proofs.Outcome

/-!
# Encoding and the opcode map

Encoding agrees with the opcode map: the opcode of an instruction stands for the instruction's own
operation on its own registers, condition and bit index, once the few second spellings that the
assembler accepts are read as the plain ones (`Spells`). Each group of instructions is compared with
its part of the map, and the groups are put together by mnemonic.
-/

namespace Sm83

/-- Operations on one bit, whose index is part of the opcode. -/
def Mnemonic.takesIndex : Mnemonic → Bool
  | bit | res | set => true
  | _ => false

/-- The pointer through which a mnemonic loads and that it moves along. -/
def Mnemonic.moving? : Mnemonic → Option Pointer
  | ldi => some .hli
  | ldd => some .hld
  | _ => none

/-- What of an operand shows in the opcode of an instruction. -/
def Operand.slot (r : Resolver) (m : Mnemonic) : Operand → Slot
  | register reg => .register reg
  | condition k => .condition k
  | pointer p => .pointer p
  | memory _ => .memory
  | immediate e =>
    if m.takesIndex then
      match e.constant r with
      | .ok n => .index n
      | .error _ => .immediate
    else .immediate
  | stackOffset _ => .stackOffset

/-- The operation of an instruction with the registers, the condition and the bit index it works on.
-/
def outline (r : Resolver) (m : Mnemonic) (operands : List Operand) : Entry :=
  ⟨m, operands.map (Operand.slot r m)⟩

/-- The first instruction is the second one, spelled as it is or in another way that is accepted. -/
inductive Spells : Mnemonic → List Operand → Mnemonic → List Operand → Prop where
  | plain (m : Mnemonic) (operands : List Operand) : Spells m operands m operands
  /-- The accumulator may be named. -/
  | accumulator {m : Mnemonic} (source : Operand) (h : m.alu?.isSome) :
      Spells m [.register .a, source] m [source]
  /-- The carry condition is spelled like the register. -/
  | carry {m : Mnemonic} (rest : List Operand) (h : m = .jp ∨ m = .jr ∨ m = .call ∨ m = .ret) :
      Spells m (.register .c :: rest) m (.condition .c :: rest)
  /-- A jump to where `hl` points may have brackets. -/
  | through : Spells .jp [.pointer .hl] .jp [.register .hl]
  /-- A load that moves `hl` along has a mnemonic of its own. -/
  | movingStore {m : Mnemonic} {p : Pointer} (h : m.moving? = some p) :
      Spells m [.pointer .hl, .register .a] .ld [.pointer p, .register .a]
  | movingFetch {m : Mnemonic} {p : Pointer} (h : m.moving? = some p) :
      Spells m [.register .a, .pointer .hl] .ld [.register .a, .pointer p]
  /-- The pointer `c` reaches the highest page by itself. -/
  | highStore : Spells .ldh [.pointer .c, .register .a] .ld [.pointer .c, .register .a]
  | highFetch : Spells .ldh [.register .a, .pointer .c] .ld [.register .a, .pointer .c]
  /-- An offset of zero may be left out. -/
  | stackPointer : Spells .ld [.register .hl, .register .sp]
      .ld [.register .hl, .stackOffset (.literal 0)]

variable {base : Nat}

section

variable {r : Resolver} {m : Mnemonic} {o : Operand} {code y z : Nat} {s t : Slot} {f : Entry}

theorem narrow_of_code8? (h : o.code8? = some code) (ho : o ≠ .register .atHl) :
    Entry.narrow[code]? = some (o.slot r m) := by
  cases o with
  | register reg =>
    cases reg with
    | atHl => exact absurd rfl ho
    | _ => cases h <;> rfl
  | pointer p =>
    cases p <;> cases h
    rfl
  | _ => cases h

theorem wide_of_code16? (h : o.code16? = some code) : Entry.wide[code]? = some (o.slot r m) := by
  cases o with
  | register reg => cases reg <;> cases h <;> rfl
  | _ => cases h

theorem stacked_of_stackCode? (h : o.stackCode? = some code) :
    Entry.stacked[code]? = some (o.slot r m) := by
  cases o with
  | register reg => cases reg <;> cases h <;> rfl
  | _ => cases h

theorem pointers_of_code? {p : Pointer} (h : p.code? = some code) :
    Entry.pointers[code]? = some (.pointer p) := by
  cases p <;> cases h <;> rfl

theorem conditions_of_conditionCode? (h : o.conditionCode? = some code) :
    ∃ k, (o = .condition k ∨ (o = .register .c ∧ k = .c)) ∧
      Entry.conditions[code]? = some (.condition k) := by
  cases o with
  | condition k => exact ⟨k, .inl rfl, by cases k <;> cases h <;> rfl⟩
  | register reg => cases reg <;> cases h; exact ⟨.c, .inr ⟨rfl, rfl⟩, rfl⟩
  | _ => cases h

theorem operations_of_alu? (h : m.alu? = some code) : Entry.operations[code]? = some m := by
  cases m <;> cases h <;> rfl

theorem decode_row {row : List Slot} {c : Nat → Nat} {g : Slot → Entry}
    (hrow : ∀ z < row.length, decode (c z) = row[z]?.map g) (hs : row[z]? = some s) :
    decode (c z) = some (g s) := by
  rw [hrow z (List.getElem?_eq_some_iff.mp hs).1, hs]
  rfl

theorem decode_operation (hm : m.alu? = some y) (hs : Entry.narrow[z]? = some s) :
    decode (0x80 ||| y <<< 3 ||| z) = some ⟨m, [s]⟩ := by
  have hmap : ∀ y < 8, ∀ z < 8, decode (0x80 ||| y <<< 3 ||| z) = Entry.arithmetic y z := by
    decide +kernel
  have hy := operations_of_alu? hm
  have hy8 : y < 8 := (List.getElem?_eq_some_iff.mp hy).1
  have hz8 : z < 8 := (List.getElem?_eq_some_iff.mp hs).1
  rw [hmap y hy8 z hz8, Entry.arithmetic, hy, hs]
  rfl

theorem decode_operationImmediate (hm : m.alu? = some y) :
    decode (0xC6 ||| y <<< 3) = some ⟨m, [.immediate]⟩ := by
  cases m <;> cases hm <;> rfl

theorem decode_rotation (hm : m.rotation? = some base) (hs : Entry.narrow[z]? = some s) :
    decode (Encode.page (base ||| z)) = some ⟨m, [s]⟩ := by
  cases m <;> cases hm <;>
    exact decode_row (c := fun z => Encode.page (_ ||| z)) (g := fun s => ⟨_, [s]⟩) (by decide) hs

/-- The part of the second page that an operation on one bit has. -/
def bitBase? : Mnemonic → Option Nat
  | .bit => some 0x40
  | .res => some 0x80
  | .set => some 0xC0
  | _ => none

theorem decode_bit {n : Nat} (hm : bitBase? m = some base) (hn : n < 8)
    (hs : Entry.narrow[z]? = some s) :
    decode (Encode.page (base ||| n <<< 3 ||| z)) = some ⟨m, [.index n, s]⟩ := by
  have hz : z < 8 := (List.getElem?_eq_some_iff.mp hs).1
  have hmap : ∀ p ∈ [(Mnemonic.bit, 0x40), (.res, 0x80), (.set, 0xC0)], ∀ n < 8, ∀ z < 8,
      decode (Encode.page (p.2 ||| n <<< 3 ||| z)) =
        Entry.narrow[z]?.map fun s => ⟨p.1, [.index n, s]⟩ := by
    decide +kernel
  have hp : (m, base) ∈ [(Mnemonic.bit, 0x40), (.res, 0x80), (.set, 0xC0)] := by
    cases m <;> cases hm <;> decide
  rw [hmap _ hp n hn z hz, hs]
  rfl

theorem decode_move (ht : Entry.narrow[y]? = some t) (hs : Entry.narrow[z]? = some s)
    (hne : ¬(y = 6 ∧ z = 6)) : decode (0x40 ||| y <<< 3 ||| z) = some ⟨.ld, [t, s]⟩ := by
  have hmap : ∀ y < 8, ∀ z < 8, decode (0x40 ||| y <<< 3 ||| z) = Entry.moves y z := by
    decide +kernel
  have hy8 : y < 8 := (List.getElem?_eq_some_iff.mp ht).1
  have hz8 : z < 8 := (List.getElem?_eq_some_iff.mp hs).1
  rw [hmap y hy8 z hz8, Entry.moves, if_neg hne, ht, hs]
  rfl

end

namespace Encode

/-- A record that the outcome has, if it has an opcode, has the opcode of the entry. -/
def Shows (outcome : Shape) (f : Entry) : Prop :=
  ∀ record opcode, outcome = .ok (some record) → record.opcode? = some opcode →
    decode opcode = some f

namespace Shows

variable {r : Resolver} {f : Entry} {opcode : Nat} {e : Expr}

theorem rejected : Shows rejected f := by
  intro record opcode h
  cases h

theorem error (cause : Cause) : Shows (.error cause) f := by
  intro record opcode h
  cases h

theorem record {x : Record} (h : ∀ opcode, x.opcode? = some opcode → decode opcode = some f) :
    Shows (.ok (some x)) f := by
  intro record opcode heq hopcode
  cases heq
  exact h opcode hopcode

theorem map {x : Except Cause Expr} {make : Expr → Record}
    (h : ∀ e opcode, (make e).opcode? = some opcode → decode opcode = some f) :
    Shows (x.map fun e => some (make e)) f := by
  intro record opcode heq hopcode
  obtain ⟨e, _, hrecord⟩ := Outcome.map_eq_ok_iff.mp heq
  cases hrecord
  exact h e opcode hopcode

theorem plain (h : decode opcode = some f) : Shows (plain opcode) f := by
  apply record
  rintro _ ⟨⟩
  exact h

theorem withByte {field : Field} (h : decode opcode = some f) :
    Shows (withByte r opcode field e) f := by
  apply map
  rintro _ _ ⟨⟩
  exact h

theorem withWord (h : decode opcode = some f) : Shows (withWord r opcode e) f := by
  apply map
  rintro _ _ ⟨⟩
  exact h

theorem jump (h : decode opcode = some f) :
    Shows ((e.fold r).map fun target => some (.jump opcode target)) f := by
  apply map
  rintro _ _ ⟨⟩
  exact h

theorem highAccess (h : decode opcode = some f) : Shows (highAccess r opcode e) f := by
  unfold Encode.highAccess
  split
  · apply record
    rintro _ ⟨⟩
    exact h
  · exact error _
  · split
    · apply record
      rintro _ ⟨⟩
      exact h
    · exact error _

end Shows

/-- The outcome of encoding shows the instruction, in its plain spelling. -/
def Agrees (r : Resolver) (m : Mnemonic) (operands : List Operand) : Prop :=
  ∃ m' operands', Spells m operands m' operands' ∧
    Shows (shape r operands m) (outline r m' operands')

section

variable {r : Resolver} {m : Mnemonic} {operands : List Operand}

theorem agrees_of_spells {m' : Mnemonic} {operands' : List Operand} {x : Shape}
    (hspells : Spells m operands m' operands') (hshape : shape r operands m = x)
    (h : Shows x (outline r m' operands')) : Agrees r m operands := by
  rw [← hshape] at h
  exact ⟨m', operands', hspells, h⟩

theorem agrees_of_shape {x : Shape} (hshape : shape r operands m = x)
    (h : Shows x (outline r m operands)) : Agrees r m operands :=
  agrees_of_spells (.plain m operands) hshape h

theorem agrees_of_rejected (hshape : shape r operands m = rejected) : Agrees r m operands :=
  agrees_of_shape hshape .rejected

theorem agrees_fixed {opcode : Nat} (hm : m.fixed? = some opcode) : Agrees r m operands := by
  have hshape : shape r operands m = fixed opcode operands := by
    cases m <;> cases hm <;> rfl
  apply agrees_of_shape hshape
  cases operands with
  | nil => exact .plain (by cases m <;> cases hm <;> rfl)
  | cons => exact .rejected

theorem shows_alu {op : Nat} {source : Operand} (hm : m.alu? = some op)
    (hsource : source ≠ .register .atHl) : Shows (alu r op source) (outline r m [source]) := by
  have hindex : m.takesIndex = false := by cases m <;> cases hm <;> rfl
  unfold alu
  cases hcode : source.code8? with
  | some code => exact .plain (decode_operation hm (narrow_of_code8? hcode hsource))
  | none =>
    cases source with
    | immediate e =>
      have houtline : outline r m [.immediate e] = ⟨m, [.immediate]⟩ := by
        simp [outline, Operand.slot, hindex]
      rw [houtline]
      exact .withByte (decode_operationImmediate hm)
    | _ => exact .rejected

section

variable (hoperands : ∀ o ∈ operands, o ≠ .register .atHl)

include hoperands

theorem agrees_accumulator {op : Nat} (hm : m.alu? = some op)
    (hshape : shape r operands m = accumulator r op operands) : Agrees r m operands := by
  unfold accumulator at hshape
  split at hshape
  · next source =>
    exact agrees_of_shape hshape (shows_alu hm (hoperands source (by simp)))
  · next source =>
    exact agrees_of_spells (.accumulator source (by simp [hm])) hshape
      (shows_alu hm (hoperands source (by simp)))
  · exact agrees_of_rejected hshape

theorem agrees_add : Agrees r .add operands := by
  have hshape : shape r operands .add = addition r operands := rfl
  unfold addition at hshape
  split at hshape
  · next source =>
    apply agrees_of_shape hshape
    split
    · next code hcode =>
      have hrow := wide_of_code16? (r := r) (m := .add) hcode
      exact .plain (decode_row (c := fun z => 0x09 ||| z <<< 4)
        (g := fun s => ⟨.add, [.register .hl, s]⟩) (by decide) hrow)
    · exact .rejected
  · exact agrees_of_shape hshape (.withByte rfl)
  · exact agrees_of_rejected hshape
  · exact agrees_accumulator hoperands rfl hshape

theorem agrees_count {direction : Nat} (hm : (m, direction) ∈ [(Mnemonic.inc, 0), (.dec, 1)])
    (hshape : shape r operands m = count direction operands) : Agrees r m operands := by
  have hnarrow : ∀ p ∈ [(Mnemonic.inc, 0), (.dec, 1)], ∀ z < Entry.narrow.length,
      decode (0x04 ||| z <<< 3 ||| p.2) = Entry.narrow[z]?.map fun s => ⟨p.1, [s]⟩ := by decide
  have hwide : ∀ p ∈ [(Mnemonic.inc, 0), (.dec, 1)], ∀ z < Entry.wide.length,
      decode (0x03 ||| z <<< 4 ||| p.2 <<< 3) = Entry.wide[z]?.map fun s => ⟨p.1, [s]⟩ := by decide
  apply agrees_of_shape hshape
  unfold count
  split
  · next target =>
    split
    · next code hcode =>
      have hrow := narrow_of_code8? (r := r) (m := m) hcode (hoperands target (by simp))
      exact .plain (decode_row (hnarrow _ hm) hrow)
    · next code _ hcode =>
      have hrow := wide_of_code16? (r := r) (m := m) hcode
      exact .plain (decode_row (hwide _ hm) hrow)
    · exact .rejected
  · exact .rejected

theorem agrees_rotation (hm : m.rotation? = some base) : Agrees r m operands := by
  have hshape : shape r operands m = rotation base operands := by
    cases m <;> cases hm <;> rfl
  apply agrees_of_shape hshape
  unfold rotation
  split
  · next target =>
    split
    · next code hcode =>
      exact .plain (decode_rotation hm (narrow_of_code8? hcode (hoperands target (by simp))))
    · exact .rejected
  · exact .rejected

theorem agrees_bitOperation (hm : bitBase? m = some base) : Agrees r m operands := by
  have hshape : shape r operands m = bitOperation r base operands := by
    cases m <;> cases hm <;> rfl
  have hindex : m.takesIndex = true := by cases m <;> cases hm <;> rfl
  apply agrees_of_shape hshape
  unfold bitOperation
  split
  · next e target =>
    split
    · next code hcode =>
      -- a register spelled `[hl]` has the code of the pointer, and the map names the pointer
      have hrow := narrow_of_code8? (r := r) (m := m) hcode (hoperands target (by simp))
      cases hconstant : e.constant r with
      | error cause => exact .error cause
      | ok n =>
        show Shows (if 0 ≤ n ∧ n ≤ 7 then _ else _) _
        split
        · next hrange =>
          have houtline : outline r m [.immediate e, target] =
              ⟨m, [.index (n.toNat : Int), target.slot r m]⟩ := by
            simp [outline, Operand.slot, hindex, hconstant, Int.toNat_of_nonneg hrange.1]
          rw [houtline]
          exact .plain (decode_bit hm (by omega) hrow)
        · exact .error _
    · exact .rejected
  · exact .rejected

end

variable {code : Nat}

theorem agrees_conditional {condition : Operand} {e : Expr} (hm : m = .jp ∨ m = .jr ∨ m = .call)
    (hcode : condition.conditionCode? = some code) (hshows : ∀ s, Entry.conditions[code]? = some s →
      Shows (shape r [condition, .immediate e] m) ⟨m, [s, .immediate]⟩) :
    Agrees r m [condition, .immediate e] := by
  have hindex : m.takesIndex = false := by rcases hm with rfl | rfl | rfl <;> rfl
  obtain ⟨k, hk, hrow⟩ := conditions_of_conditionCode? hcode
  have hentry := hshows _ hrow
  have houtline : outline r m [.condition k, .immediate e] = ⟨m, [.condition k, .immediate]⟩ := by
    simp [outline, Operand.slot, hindex]
  rw [← houtline] at hentry
  rcases hk with rfl | ⟨rfl, rfl⟩
  · exact agrees_of_shape rfl hentry
  · refine ⟨m, _, .carry _ ?_, hentry⟩
    rcases hm with h | h | h
    · exact .inl h
    · exact .inr (.inl h)
    · exact .inr (.inr (.inl h))

theorem agrees_jp : Agrees r .jp operands := by
  have hshape : shape r operands .jp = absoluteJump r operands := rfl
  unfold absoluteJump at hshape
  split at hshape
  · exact agrees_of_shape hshape (.plain rfl)
  · exact agrees_of_spells .through hshape (.plain rfl)
  · exact agrees_of_shape hshape (.withWord rfl)
  · next condition e =>
    split at hshape
    · next code hcode =>
      apply agrees_conditional (.inl rfl) hcode
      intro s hrow
      rw [hshape]
      exact .withWord (decode_row (c := fun z => 0xC2 ||| z <<< 3)
        (g := fun s => ⟨.jp, [s, .immediate]⟩) (by decide) hrow)
    · exact agrees_of_rejected hshape
  · exact agrees_of_rejected hshape

theorem agrees_call : Agrees r .call operands := by
  have hshape : shape r operands .call = subroutineCall r operands := rfl
  unfold subroutineCall at hshape
  split at hshape
  · exact agrees_of_shape hshape (.withWord rfl)
  · next condition e =>
    split at hshape
    · next code hcode =>
      apply agrees_conditional (.inr (.inr rfl)) hcode
      intro s hrow
      rw [hshape]
      exact .withWord (decode_row (c := fun z => 0xC4 ||| z <<< 3)
        (g := fun s => ⟨.call, [s, .immediate]⟩) (by decide) hrow)
    · exact agrees_of_rejected hshape
  · exact agrees_of_rejected hshape

theorem agrees_jr : Agrees r .jr operands := by
  have hshape : shape r operands .jr = relativeJump r operands := rfl
  unfold relativeJump at hshape
  split at hshape
  · exact agrees_of_shape hshape (.jump rfl)
  · next condition e =>
    split at hshape
    · next code hcode =>
      apply agrees_conditional (.inr (.inl rfl)) hcode
      intro s hrow
      rw [hshape]
      exact .jump (decode_row (c := fun z => 0x20 ||| z <<< 3)
        (g := fun s => ⟨.jr, [s, .immediate]⟩) (by decide) hrow)
    · exact agrees_of_rejected hshape
  · exact agrees_of_rejected hshape

theorem agrees_ret : Agrees r .ret operands := by
  have hshape : shape r operands .ret = subroutineReturn operands := rfl
  unfold subroutineReturn at hshape
  split at hshape
  · exact agrees_of_shape hshape (.plain rfl)
  · next condition =>
    split at hshape
    · next code hcode =>
      obtain ⟨k, hk, hrow⟩ := conditions_of_conditionCode? hcode
      have hentry : Shows (shape r [condition] .ret) (outline r .ret [.condition k]) := by
        rw [hshape]
        exact .plain (decode_row (c := fun z => 0xC0 ||| z <<< 3) (g := fun s => ⟨.ret, [s]⟩)
          (by decide) hrow)
      rcases hk with rfl | ⟨rfl, rfl⟩
      · exact agrees_of_shape rfl hentry
      · exact ⟨.ret, _, .carry _ (.inr (.inr (.inr rfl))), hentry⟩
    · exact agrees_of_rejected hshape
  · exact agrees_of_rejected hshape

theorem agrees_rst : Agrees r .rst operands := by
  apply agrees_of_shape (x := restart r operands) rfl
  unfold restart
  split
  · refine .map ?_
    rintro _ _ ⟨⟩
  · exact .rejected

theorem agrees_stack (hm : (m, base) ∈ [(Mnemonic.push, 0xC5), (.pop, 0xC1)])
    (hshape : shape r operands m = stack base operands) : Agrees r m operands := by
  have hrows : ∀ p ∈ [(Mnemonic.push, 0xC5), (.pop, 0xC1)], ∀ z < Entry.stacked.length,
      decode (p.2 ||| z <<< 4) = Entry.stacked[z]?.map fun s => ⟨p.1, [s]⟩ := by decide
  apply agrees_of_shape hshape
  unfold stack
  split
  · next target =>
    split
    · next code hcode =>
      have hrow := stacked_of_stackCode? (r := r) (m := m) hcode
      exact .plain (decode_row (hrows _ hm) hrow)
    · exact .rejected
  · exact .rejected

theorem decode_pointer {p : Pointer} (h : p.code? = some code) :
    decode (0x02 ||| code <<< 4) = some ⟨.ld, [.pointer p, .register .a]⟩ ∧
      decode (0x0A ||| code <<< 4) = some ⟨.ld, [.register .a, .pointer p]⟩ := by
  have hrow := pointers_of_code? h
  constructor
  · exact decode_row (c := fun z => 0x02 ||| z <<< 4) (g := fun s => ⟨.ld, [s, .register .a]⟩)
      (by decide) hrow
  · exact decode_row (c := fun z => 0x0A ||| z <<< 4) (g := fun s => ⟨.ld, [.register .a, s]⟩)
      (by decide) hrow

/-- Loads agree with the opcode map. -/
theorem agrees_transfer {target source : Operand}
    (hshape : shape r [target, source] .ld = transfer r target source) :
    Agrees r .ld [target, source] := by
  unfold transfer at hshape
  split at hshape
  · next reg e =>
    split at hshape
    · next code hcode =>
      have hrow := wide_of_code16? (r := r) (m := .ld) (o := .register reg) hcode
      apply agrees_of_shape hshape
      exact .withWord (decode_row (c := fun z => 0x01 ||| z <<< 4)
        (g := fun s => ⟨.ld, [s, .immediate]⟩) (by decide) hrow)
    · exact agrees_of_rejected hshape
  · exact agrees_of_shape hshape (.withByte rfl)
  · -- `ld hl, sp` stands for `ld hl, sp + 0`
    refine ⟨.ld, _, .stackPointer, ?_⟩
    rw [hshape]
    refine .record ?_
    rintro _ ⟨⟩
    rfl
  · exact agrees_of_shape hshape (.plain rfl)
  · exact agrees_of_shape hshape (.withWord rfl)
  · exact agrees_of_shape hshape (.withWord rfl)
  · exact agrees_of_shape hshape (.withWord rfl)
  · exact agrees_of_shape hshape (.plain rfl)
  · exact agrees_of_shape hshape (.plain rfl)
  · split at hshape
    · next code hcode =>
      exact agrees_of_shape hshape (.plain (decode_pointer hcode).1)
    · exact agrees_of_rejected hshape
  · split at hshape
    · next code hcode =>
      exact agrees_of_shape hshape (.plain (decode_pointer hcode).2)
    · exact agrees_of_rejected hshape
  · exact agrees_of_rejected hshape

theorem agrees_ld (hoperands : ∀ o ∈ operands, o ≠ .register .atHl) : Agrees r .ld operands := by
  have hshape : shape r operands .ld = load r operands := rfl
  unfold load at hshape
  split at hshape
  · next target source =>
    have htarget : target ≠ .register .atHl := hoperands target (by simp)
    have hsource : source ≠ .register .atHl := hoperands source (by simp)
    split at hshape
    · next t s ht hs =>
      apply agrees_of_shape hshape
      split
      · exact .error _
      · next hne =>
        exact .plain (decode_move (narrow_of_code8? ht htarget) (narrow_of_code8? hs hsource) hne)
    · next t e ht _ =>
      have hrow := narrow_of_code8? (r := r) (m := .ld) ht htarget
      apply agrees_of_shape hshape
      exact .withByte (decode_row (c := fun z => 0x06 ||| z <<< 3)
        (g := fun s => ⟨.ld, [s, .immediate]⟩) (by decide) hrow)
    · exact agrees_transfer hshape
  · exact agrees_of_rejected hshape

theorem agrees_movingLoad {p : Pointer} (hm : m.moving? = some p) (hcode : p.code? = some code)
    (hshape : shape r operands m = movingLoad (0x02 ||| code <<< 4) operands) :
    Agrees r m operands := by
  have hfetch : 0x02 ||| code <<< 4 ||| 8 = 0x0A ||| code <<< 4 := by
    cases p <;> cases hcode <;> rfl
  have hentry := decode_pointer hcode
  unfold movingLoad at hshape
  split at hshape
  · exact agrees_of_spells (.movingStore hm) hshape (.plain hentry.1)
  · refine ⟨.ld, _, .movingFetch hm, ?_⟩
    rw [hshape, hfetch]
    exact .plain hentry.2
  · exact agrees_of_rejected hshape

theorem agrees_ldh : Agrees r .ldh operands := by
  have hshape : shape r operands .ldh = highLoad r operands := rfl
  unfold highLoad at hshape
  split at hshape
  · exact agrees_of_spells .highFetch hshape (.plain rfl)
  · exact agrees_of_spells .highStore hshape (.plain rfl)
  · exact agrees_of_shape hshape (.highAccess rfl)
  · exact agrees_of_shape hshape (.highAccess rfl)
  · exact agrees_of_rejected hshape

theorem agrees (hoperands : ∀ o ∈ operands, o ≠ .register .atHl) : Agrees r m operands := by
  cases m with
  | ld => exact agrees_ld hoperands
  | ldh => exact agrees_ldh
  | ldi | ldd => exact agrees_movingLoad rfl rfl rfl
  | jp => exact agrees_jp
  | jr => exact agrees_jr
  | call => exact agrees_call
  | ret => exact agrees_ret
  | rst => exact agrees_rst
  | push | pop => exact agrees_stack (by decide) rfl
  | inc | dec => exact agrees_count hoperands (by decide) rfl
  | add => exact agrees_add hoperands
  | bit | res | set => exact agrees_bitOperation hoperands rfl
  | adc | sub | sbc | and | xor | or | cp => exact agrees_accumulator hoperands rfl rfl
  | rlc | rrc | rl | rr | sla | sra | swap | srl => exact agrees_rotation hoperands rfl
  | _ => exact agrees_fixed rfl

end

end Encode

/-- The opcode of an encoded instruction stands for the instruction, in its plain spelling. -/
theorem decode_of_encode {r : Resolver} {m : Mnemonic} {operands : List Operand} {record : Record}
    {opcode : Nat} (hoperands : ∀ o ∈ operands, o ≠ .register .atHl)
    (hrecord : encode r m operands = .ok record) (hopcode : record.opcode? = some opcode) :
    ∃ m' operands', Spells m operands m' operands' ∧
      decode opcode = some (outline r m' operands') := by
  obtain ⟨m', operands', hspells, hshows⟩ := Encode.agrees (r := r) (m := m) hoperands
  have hshape : Encode.shape r operands m = .ok (some record) := by
    unfold encode at hrecord
    split at hrecord
    · cases hrecord
    · next hshape => rw [hshape, Except.ok.inj hrecord]
    · cases hrecord
  exact ⟨m', operands', hspells, hshows record opcode hshape hopcode⟩

end Sm83
