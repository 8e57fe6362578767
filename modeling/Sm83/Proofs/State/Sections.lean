import Mathlib.Algebra.Group.Int.Defs
import Sm83.Proofs.State.Known

/-!
# Contexts and registered sections

What holds of the sections of a state after any run of operations. A load block is only ever open
inside a section, whatever section is in use is the registered one of its name, and a registered
section fits its memory region.
-/

namespace Sm83

variable {block : Section}

namespace Section

/-- The section fits its memory region: a fixed address lies in the window of the region and has the
alignment asked for, a bank is one of those of a banked region, and an alignment has at most sixteen
bits. -/
structure Fits (block : Section) : Prop where
  window : ∀ a, block.address = some a → block.region.window.1 ≤ a ∧ a ≤ block.region.window.2
  bank : ∀ b, block.bank = some b →
    ∃ low high, block.region.banks? = some (low, high) ∧ low ≤ b ∧ b ≤ high
  alignment : ∀ n, block.alignment = some n → 0 ≤ n ∧ n ≤ 16
  aligned : ∀ a n, block.address = some a → block.alignment = some n → (2 ^ n.toNat : Int) ∣ a

theorem checkAddress_eq_ok_iff {region : Region} {a : Int} :
    checkAddress region a = .ok () ↔ region.window.1 ≤ a ∧ a ≤ region.window.2 := by
  unfold checkAddress
  split
  · next h => simp [h]
  · next h => simp [h]

theorem checkBank_eq_ok_iff {region : Region} {b : Int} :
    checkBank region b = .ok () ↔
      ∃ low high, region.banks? = some (low, high) ∧ low ≤ b ∧ b ≤ high := by
  unfold checkBank
  cases region.banks? with
  | none => simp
  | some range =>
    by_cases h : range.1 ≤ b ∧ b ≤ range.2
    · simpa [h] using ⟨range.1, range.2, rfl, h⟩
    · simp only [h, if_false, reduceCtorEq, Option.some.injEq, false_iff]
      rintro ⟨low, high, rfl, hb⟩
      exact h hb

theorem checkAlignment_eq_ok_iff {address : Option Int} {n : Int} :
    checkAlignment address n = .ok () ↔
      (0 ≤ n ∧ n ≤ 16) ∧ ∀ a, address = some a → (2 ^ n.toNat : Int) ∣ a := by
  unfold checkAlignment
  by_cases hrange : 0 ≤ n ∧ n ≤ 16
  · cases address with
    | none => simp [hrange]
    | some a =>
      have hdvd : (2 ^ n.toNat : Int) ∣ a ↔ a % (Nat.pow 2 n.toNat : Nat) = 0 := by
        rw [Int.dvd_iff_emod_eq_zero, Nat.pow_eq]
        push_cast
        rfl
      by_cases ha : a % (Nat.pow 2 n.toNat : Nat) = 0
      · have hmult := hdvd.mpr ha
        simp only [hrange, ha]
        simpa using hmult
      · have hmult := fun h => ha (hdvd.mp h)
        simp only [hrange, ha]
        simpa using hmult
  · simp [hrange]

/-- Runs a check if there is something to check. -/
def checkSome {α : Type} (check : α → Except Cause Unit) : Option α → Except Cause Unit
  | some a => check a
  | none => .ok ()

theorem checkSome_eq_ok_iff {α : Type} {o : Option α} {check : α → Except Cause Unit} :
    checkSome check o = .ok () ↔ ∀ a, o = some a → check a = .ok () := by
  cases o with
  | none => simp [checkSome]
  | some a => simp [checkSome]

theorem make_eq (requested : Section) :
    requested.make =
      (checkSome (checkAddress requested.region) requested.address).bind fun _ =>
        (checkSome (checkBank requested.region) requested.bank).bind fun _ =>
          (checkSome (checkAlignment requested.address) requested.alignment).map fun _ =>
            requested := by
  unfold make
  cases requested.address <;> cases requested.bank <;> cases requested.alignment <;> rfl

theorem make_eq_ok_iff {requested : Section} :
    requested.make = .ok block ↔ block = requested ∧ requested.Fits := by
  rw [make_eq]
  simp only [Outcome.bind_eq_ok_iff, Outcome.map_eq_ok_iff]
  constructor
  · rintro ⟨_, haddress, _, hbank, _, halignment, rfl⟩
    have haligned : ∀ n, requested.alignment = some n → (0 ≤ n ∧ n ≤ 16) ∧
        ∀ a, requested.address = some a → (2 ^ n.toNat : Int) ∣ a :=
      fun n hn => checkAlignment_eq_ok_iff.mp (checkSome_eq_ok_iff.mp halignment n hn)
    refine ⟨rfl, ?_, ?_, ?_, ?_⟩
    · exact fun a ha => checkAddress_eq_ok_iff.mp (checkSome_eq_ok_iff.mp haddress a ha)
    · exact fun b hb => checkBank_eq_ok_iff.mp (checkSome_eq_ok_iff.mp hbank b hb)
    · exact fun n hn => (haligned n hn).1
    · exact fun a n ha hn => (haligned n hn).2 a ha
  · rintro ⟨rfl, hfits⟩
    refine ⟨(), checkSome_eq_ok_iff.mpr ?_, (), checkSome_eq_ok_iff.mpr ?_, (),
      checkSome_eq_ok_iff.mpr ?_, rfl⟩
    · exact fun a ha => checkAddress_eq_ok_iff.mpr (hfits.window a ha)
    · exact fun b hb => checkBank_eq_ok_iff.mpr (hfits.bank b hb)
    · intro n hn
      exact checkAlignment_eq_ok_iff.mpr
        ⟨hfits.alignment n hn, fun a ha => hfits.aligned a n ha hn⟩

end Section

/-- The assembler enters a section only after making it, as a section or as a load block according
to how it was asked for. -/
def Operation.Issued : Operation → Prop
  | .enterSection block => block.load = false ∧ ∃ requested : Section, requested.make = .ok block
  | .enterLoad block => block.load = true ∧ ∃ requested : Section, requested.make = .ok block
  | _ => True

theorem Operation.Issued.fitting {op : Operation} (h : op.Issued) : op.fitting := by
  cases op with
  | enterSection block => simpa [Operation.fitting] using h.1
  | enterLoad block => exact h.1
  | _ => rfl

/-- A load block is open only inside a section, and without one its position is zero. -/
structure Context.Nested (c : Context) : Prop where
  inside : c.load.isSome → c.current.isSome
  closed : c.load = none → c.loadPc = 0

namespace State

variable {s s' : State} {op : Operation}

/-- The context a state is in. -/
def context (s : State) : Context :=
  ⟨s.current, s.pc, s.load, s.loadPc⟩

theorem nested_outside {pc : Int} : Context.Nested ⟨none, pc, none, 0⟩ :=
  ⟨fun h => h, fun _ => rfl⟩

/-- A load block stays inside a section. -/
theorem nested_step (h : Step s op s') (hs : ∀ c ∈ s.context :: s.stack, c.Nested) :
    ∀ c ∈ s'.context :: s'.stack, c.Nested := by
  rw [List.forall_mem_cons] at hs ⊢
  rcases hs with ⟨hhere, haside⟩
  cases h with
  | aside same _ _ =>
    rw [same]
    exact ⟨hhere, haside⟩
  | @enterSection block t closed registered =>
    have hclosed : (t.goOnWith block).context.load = none := registered.load_eq.trans closed
    have hzero : (t.goOnWith block).context.loadPc = s.loadPc := by
      show t.loadPc = s.loadPc
      rw [registered.only]
    refine ⟨⟨fun _ => rfl, fun _ => hzero.trans (hhere.closed closed)⟩, ?_⟩
    exact registered.stack_eq ▸ haside
  | @enterLoad block t closed registered inside =>
    refine ⟨⟨fun _ => ?_, fun h => (nomatch h)⟩, registered.stack_eq ▸ haside⟩
    show t.current.isSome
    rw [registered.current_eq]
    exact inside
  | endLoad opened => exact ⟨⟨fun h => (nomatch h), fun _ => rfl⟩, haside⟩
  | pushSection =>
    refine ⟨nested_outside, ?_⟩
    exact List.forall_mem_cons.mpr ⟨hhere, haside⟩
  | @popSection context rest top =>
    rw [top, List.forall_mem_cons] at haside
    exact ⟨⟨haside.1.inside, haside.1.closed⟩, haside.2⟩
  | advance bytes =>
    refine ⟨⟨hhere.inside, fun hclosed => ?_⟩, haside⟩
    have hload : s.load = none := hclosed
    show (if s.load.isSome then s.loadPc + bytes else s.loadPc) = 0
    rw [hload]
    exact hhere.closed hload
  | sectionSize name => exact ⟨⟨hhere.inside, hhere.closed⟩, haside⟩

/-- A register of sections has one section for each name, under that name, and each fits its region.
-/
structure Registry (sections : Table Section) : Prop where
  distinct : sections.names.Nodup
  keyed : ∀ name block, sections.get? name = some block → block.name = name
  fits : ∀ name block, sections.get? name = some block → block.Fits

theorem registry_empty : Registry .empty :=
  ⟨List.nodup_nil, fun _ _ h => (nomatch h), fun _ _ h => (nomatch h)⟩

theorem Registry.insert {sections : Table Section} (h : Registry sections) (hfits : block.Fits) :
    Registry (sections.insert block.name block) :=
  ⟨Table.nodup_names_insert h.distinct _ _, Table.forall_insert h.keyed rfl,
    Table.forall_insert h.fits hfits⟩

theorem Registry.eq_of_name {sections : Table Section} (h : Registry sections) {block' : Section}
    (hblock : block ∈ sections.values) (hblock' : block' ∈ sections.values)
    (hname : block.name = block'.name) : block = block' := by
  have hget : ∀ b ∈ sections.values, sections.get? b.name = some b := by
    intro b hb
    rcases List.mem_map.mp hb with ⟨⟨name, _⟩, hentry, rfl⟩
    have hfound := Table.get?_of_mem h.distinct hentry
    rw [h.keyed _ _ hfound]
    exact hfound
  have hsame := hget block hblock
  rw [hname, hget block' hblock'] at hsame
  exact (Option.some.inj hsame).symm

theorem Registers.registry (h : Registers s block s') (hs : Registry s.sections)
    (hfits : block.Fits) : Registry s'.sections := by
  rcases h.adds with hsame | hnew
  · rw [hsame]
    exact hs
  · rw [hnew]
    exact hs.insert hfits

theorem registry_step (h : Step s op s') (hop : op.Issued) (hs : Registry s.sections) :
    Registry s'.sections := by
  have hmade : ∀ block : Section, (∃ requested : Section, requested.make = .ok block) →
      block.Fits := by
    rintro block ⟨requested, hmake⟩
    rcases Section.make_eq_ok_iff.mp hmake with ⟨rfl, hfits⟩
    exact hfits
  cases h with
  | aside same _ _ =>
    rw [same]
    exact hs
  | @enterSection block t _ registered => exact registered.registry hs (hmade block hop.2)
  | @enterLoad block t _ registered _ => exact registered.registry hs (hmade block hop.2)
  | endLoad _ => exact hs
  | pushSection => exact hs
  | popSection _ => exact hs
  | advance _ => exact hs
  | sectionSize _ => exact hs

/-- The sections of a state are as they should be. -/
structure WellPlaced (s : State) : Prop where
  /-- A load block is open only inside a section, here and in the contexts put aside, and its
  position is zero while none is open. -/
  nested : ∀ c ∈ s.context :: s.stack, c.Nested
  /-- The sections in use are ordinary ones and the open load blocks are load sections, and all of
  them are registered as they are. -/
  registered : ∀ c ∈ s.context :: s.stack, InOrder s.sections c.current c.load
  /-- The section that a label stands in is registered under its own name. -/
  labels : ∀ name x, s.lookup name = some x → x.kind = .label → ∀ placed, x.placed = some placed →
    ∃ block, s.sections.get? placed = some block ∧ block.name = placed
  /-- A section is registered under its own name, and fits its region. -/
  keyed : ∀ name block, s.sections.get? name = some block → block.name = name ∧ block.Fits
  /-- A name stands for one section, be it an ordinary one or a load section. -/
  single : ∀ block ∈ s.sections.values, ∀ block' ∈ s.sections.values,
    block.name = block'.name → block = block'

theorem nested_registry_run (hnested : ∀ c ∈ s.context :: s.stack, c.Nested)
    (hregistry : Registry s.sections) {ops : List Operation} (hops : ∀ op ∈ ops, op.Issued) :
    (∀ c ∈ (s.run ops).context :: (s.run ops).stack, c.Nested) ∧ Registry (s.run ops).sections := by
  induction ops generalizing s with
  | nil => exact ⟨hnested, hregistry⟩
  | cons op rest ih =>
    rcases List.forall_mem_cons.mp hops with ⟨hop, hrest⟩
    have hstep := step_after s op
    exact ih (nested_step hstep hnested) (registry_step hstep hop hregistry) hrest

theorem wellPlaced_run (exportAll : Bool) {ops : List Operation} (hops : ∀ op ∈ ops, op.Issued) :
    WellPlaced ((fresh exportAll).run ops) := by
  have hfresh : ∀ c ∈ (fresh exportAll).context :: (fresh exportAll).stack, c.Nested := by
    intro c hc
    rw [List.mem_singleton.mp hc]
    exact nested_outside
  rcases nested_registry_run hfresh registry_empty hops with ⟨hnested, hregistry⟩
  have horderly := orderly_run (orderly_fresh exportAll) fun op hop => (hops op hop).fitting
  have hgrounded := grounded_run (consistent_fresh exportAll) (grounded_fresh exportAll) ops
  refine ⟨hnested, ?_, ?_, ?_, ?_⟩
  · exact List.forall_mem_cons.mpr ⟨horderly.here, horderly.aside⟩
  · intro name x hx hkind placed hplaced
    rcases hgrounded.labels name x hx hkind placed hplaced with ⟨block, hblock⟩
    exact ⟨block, hblock, hregistry.keyed _ _ hblock⟩
  · exact fun name block h => ⟨hregistry.keyed name block h, hregistry.fits name block h⟩
  · exact fun block hblock block' hblock' hname => hregistry.eq_of_name hblock hblock' hname

/-- The second state comes from the first by operations that the assembler issues. -/
def Leads (s s' : State) : Prop :=
  ∃ ops, (∀ op ∈ ops, op.Issued) ∧ s' = s.run ops

namespace Leads

variable {s s' s'' : State}

theorem refl (s : State) : s.Leads s :=
  ⟨[], by simp, rfl⟩

theorem trans (h : s.Leads s') (h' : s'.Leads s'') : s.Leads s'' := by
  rcases h with ⟨ops, hops, rfl⟩
  rcases h' with ⟨ops', hops', rfl⟩
  refine ⟨ops ++ ops', List.forall_mem_append.mpr ⟨hops, hops'⟩, ?_⟩
  simp [State.run]

theorem of_eq (h : s' = s) : s.Leads s' :=
  h ▸ refl s

theorem section_persists (h : s.Leads s') {name : String}
    (hblock : s.sections.get? name = some block) : s'.sections.get? name = some block := by
  rcases h with ⟨ops, _, rfl⟩
  exact section_persists_run s ops hblock

theorem wellPlaced {exportAll : Bool} (h : (fresh exportAll).Leads s) : s.WellPlaced := by
  rcases h with ⟨ops, hops, rfl⟩
  exact wellPlaced_run exportAll hops

end Leads

end State

end Sm83
