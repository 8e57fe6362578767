import Sm83.Proofs.State.Persistence
import Sm83.Proofs.State.Sections

/-!
# Operations in place

The operations on a state once more, as programs that change the state in place, each check and each
write a step of its own. Such a program could fail with half of its writes done. None does, since
all checks of an operation come before its first write.
-/

namespace Sm83

open Outcome

/-- A program that changes a state in place. What it has written by the time it fails stays written.
-/
abbrev InPlace := EStateM Error State

namespace InPlace

variable {α : Type}

/-! ## Checks and writes -/

/-- Fails for a cause. -/
def refuse (cause : Cause) : InPlace α :=
  throw (.unlocated cause)

/-- Fails for a cause under a condition. -/
def refuseIf (p : Prop) [Decidable p] (cause : Cause) : InPlace Unit :=
  if p then refuse cause else pure ()

/-- Writes the symbol of a name. -/
def setSymbol (name : String) (x : Symbol) : InPlace Unit :=
  modify fun s => { s with symbols := s.symbols.insert name x }

/-- Reads what the state has to say, or fails for its cause. -/
def read (f : State → Except Cause α) : InPlace α := do
  match f (← get) with
  | .ok a => pure a
  | .error cause => refuse cause

/-! ## Definitions -/

/-- Crosses a name off the exports asked for, and says whether it was there. -/
def crossOff (name : String) : InPlace Bool := do
  let awaited := (← get).pendingExports.contains name
  if awaited then
    modify fun s => { s with pendingExports := s.pendingExports.erase name }
  pure awaited

/-- Puts a new symbol in the table. An export asked for earlier is crossed off before. -/
def enter (symbol : Symbol) : InPlace Symbol := do
  let awaited ← crossOff symbol.name
  let entered := { symbol with exported := symbol.exported || awaited }
  setSymbol symbol.name entered
  pure entered

/-- Adds a symbol. -/
def add (symbol : Symbol) : InPlace Symbol := do
  match (← get).lookup symbol.name with
  | none => enter symbol
  | some old =>
    if old.kind = .set ∧ (symbol.kind = .set ∨ symbol.name ≠ State.storageName) then
      if symbol.kind = .set then
        setSymbol symbol.name { old with value := symbol.value }
        pure { old with value := symbol.value }
      else enter { symbol with exported := symbol.exported || old.exported }
    else throw ⟨.redefinition symbol.name old.location, symbol.location, none⟩

/-- Adds a symbol under its full name. -/
def define (spelling : String) (symbol : String → Symbol) : InPlace Symbol := do
  let name ← read (·.qualify spelling)
  add (symbol name)

/-- Defines a label. The scope is written last. -/
def defineLabel (spelling : String) (exported : Bool) (location : Option Location) :
    InPlace Symbol := do
  let s ← get
  let symbol ← define spelling fun name => s.labelHere name exported location
  unless isLocalName symbol.name do
    modify fun s => { s with scope := some symbol.name }
  pure symbol

/-- Exports a symbol, now or later. -/
def exportName (spelling : String) (location : Option Location) : InPlace Unit := do
  let name ← read (·.qualify spelling)
  match (← get).lookup name with
  | some symbol => setSymbol name { symbol with exported := true }
  | none =>
    unless (← get).pendingExports.contains name do
      modify fun s => { s with pendingExports := s.pendingExports.insert name location }

/-- Removes a symbol, after three checks. -/
def purge (spelling : String) : InPlace Unit := do
  let name ← read (·.qualify spelling)
  match (← get).lookup name with
  | none => refuse (.purge (.undefined name))
  | some symbol =>
    refuseIf (name = State.storageName) (.purge (.builtIn name))
    refuseIf (symbol.kind = .label) (.purge (.label name))
    refuseIf symbol.exported (.purge (.exported name))
    modify fun s => { s with symbols := s.symbols.erase name }

/-! ## Sections -/

/-- Remembers a section, also one that is known already. -/
def register (block : Section) : InPlace Unit := do
  match (← get).sections.get? block.name with
  | some existing => refuseIf (existing ≠ block) (.placement (.redeclared block.name existing))
  | none => pure ()
  modify fun s => { s with sections := s.sections.insert block.name block }

/-- Notes how far a section has got. -/
def noteSize (block : Option Section) (size : Int) : InPlace Unit := do
  match block with
  | some block => modify fun s => { s with sizes := s.sizes.insert block.name size }
  | none => pure ()

/-- Notes how far the current section and then the open load block have got. -/
def saveSizes : InPlace Unit := do
  let s ← get
  noteSize s.current s.pc
  noteSize s.load s.loadPc

/-- Takes up a context, one part after the other. -/
def takeUp (context : Context) : InPlace Unit := do
  modify fun s => { s with current := context.current }
  modify fun s => { s with pc := context.pc }
  modify fun s => { s with load := context.load }
  modify fun s => { s with loadPc := context.loadPc }

/-- Goes on with a section where it was left. -/
def enterSection (block : Section) : InPlace Unit := do
  match (← get).load with
  | some load => refuse (.placement (.insideLoad block.name load.name))
  | none =>
    -- the last check is that of the register, which writes only if it passes
    register block
    saveSizes
    modify fun s => { s with current := some block }
    modify fun s => { s with pc := s.noted block.name }

/-- Opens a load block. -/
def enterLoad (block : Section) : InPlace Unit := do
  let s ← get
  refuseIf (s.current = none) (.placement (.loadOutsideSection block.name))
  match s.load with
  | some load => refuse (.placement (.loadInsideLoad block.name load.name))
  | none =>
    register block
    modify fun s => { s with load := some block }
    modify fun s => { s with loadPc := s.noted block.name }

/-- Closes the load block. -/
def endLoad : InPlace Unit := do
  let s ← get
  match s.load with
  | none => refuse (.placement .noLoad)
  | some load =>
    noteSize (some load) s.loadPc
    modify fun s => { s with load := none }
    modify fun s => { s with loadPc := 0 }

/-- Puts the section context aside. -/
def pushSection : InPlace Unit := do
  saveSizes
  modify fun s => { s with stack := s.context :: s.stack }
  takeUp ⟨none, 0, none, 0⟩

/-- Takes up the section context put aside last. -/
def popSection : InPlace Unit := do
  match (← get).stack with
  | [] => refuse (.placement .emptyStack)
  | context :: rest =>
    saveSizes
    modify fun s => { s with stack := rest }
    -- the position is looked up now that the sizes are noted
    let s ← get
    takeUp { context with
      pc := match context.current with
        | some block => s.noted block.name
        | none => context.pc }

/-- Counts bytes. -/
def advance (bytes : Int) : InPlace Unit := do
  modify fun s => { s with pc := s.pc + bytes }
  if (← get).load.isSome then
    modify fun s => { s with loadPc := s.loadPc + bytes }

/-! ## The storage cursor -/

/-- Moves the storage cursor to a place. -/
def resetStorage (value : Int) : InPlace Unit := do
  match (← get).lookup State.storageName with
  | some symbol => setSymbol State.storageName { symbol with value := .number (Word.wrap value) }
  | none => pure ()

/-- Moves the storage cursor past a field. -/
def advanceStorage (bytes : Int) : InPlace Int := do
  let before := (← get).storage
  resetStorage (before + bytes)
  pure before

/-! ## Operations -/

/-- Answers from the state as it is. -/
def ask (answer : State → Answer) : InPlace Answer := do
  pure (answer (← get))

/-- An operation in place. -/
def execute : Operation → InPlace Answer
  | .defineLabel spelling exported location =>
    .symbol <$> defineLabel spelling exported location
  | .defineConstant spelling value exported location =>
    .symbol <$> define spelling fun name =>
      ⟨name, .equ, .number (Word.wrap value), exported, none, location⟩
  | .defineVariable spelling value location =>
    .symbol <$> define spelling fun name =>
      ⟨name, .set, .number (Word.wrap value), false, none, location⟩
  | .defineText spelling value location =>
    .symbol <$> define spelling fun name => ⟨name, .equs, .text value, false, none, location⟩
  | .exportName spelling location => (fun _ => .done) <$> exportName spelling location
  | .purge spelling => (fun _ => .done) <$> purge spelling
  | .advanceStorage bytes => .number <$> advanceStorage bytes
  | .resetStorage value => (fun _ => .done) <$> resetStorage value
  | .qualify spelling => .name <$> read (·.qualify spelling)
  | .resolveLocal spelling => .name <$> read (·.resolveLocal spelling)
  | .lookup name => ask fun s => .found (s.lookup name)
  | .value name => ask fun s => .value (s.lookupValue name)
  | .isDefined name => ask fun s => .truth (s.isDefined name)
  | .enterSection block => (fun _ => .done) <$> enterSection block
  | .enterLoad block => (fun _ => .done) <$> enterLoad block
  | .endLoad => (fun _ => .done) <$> endLoad
  | .pushSection => (fun _ => .done) <$> pushSection
  | .popSection => (fun _ => .done) <$> popSection
  | .advance bytes => (fun _ => .done) <$> advance bytes
  | .sectionSize name => do
    saveSizes
    ask fun s => .number (s.noted name)

/-! ## All at once -/

/-- How a program ends that does all at once what comes out of a state: its failure leaves the state
as it was. -/
def allAtOnce (s : State) : Except Error (α × State) → EStateM.Result Error State α
  | .ok (a, s') => .ok a s'
  | .error e => .error e s

section

variable {β : Type} {s s' : State} {x : InPlace α} {outcome : Except Error (α × State)}

theorem allAtOnce_eq_error_iff {e : Error} :
    allAtOnce s outcome = .error e s' ↔ outcome = .error e ∧ s' = s := by
  cases outcome with
  | ok r => simp [allAtOnce]
  | error e' => simp [allAtOnce, eq_comm]

theorem allAtOnce_eq_ok_iff {a : α} : allAtOnce s outcome = .ok a s' ↔ outcome = .ok (a, s') := by
  cases outcome with
  | ok r => simp [allAtOnce, Prod.ext_iff]
  | error e' => simp [allAtOnce]

theorem get_bind (k : State → InPlace α) : (get >>= k) s = k s s := rfl

theorem refuseIf_bind (p : Prop) [Decidable p] (cause : Cause) (k : Unit → InPlace α) :
    (refuseIf p cause >>= k) s = if p then .error (.unlocated cause) s else k () s := by
  unfold refuseIf
  split
  · rfl
  · rfl

theorem map_run {a : α} (h : x s = .ok a s') (φ : α → β) : (φ <$> x) s = .ok (φ a) s' := by
  show EStateM.map φ x s = _
  unfold EStateM.map
  rw [h]

theorem map_allAtOnce (h : x s = allAtOnce s outcome) (φ : α → β) :
    (φ <$> x) s = allAtOnce s (outcome.map fun r => (φ r.1, r.2)) := by
  show EStateM.map φ x s = _
  unfold EStateM.map
  rw [h]
  cases outcome with
  | ok r => rfl
  | error e => rfl

theorem done_allAtOnce {x : InPlace Unit} {outcome : Except Error State}
    (h : x s = allAtOnce s (outcome.map fun s' => ((), s'))) :
    ((fun _ => Answer.done) <$> x) s = allAtOnce s (outcome.map fun s' => (.done, s')) := by
  rw [map_allAtOnce h]
  cases outcome with
  | ok s' => rfl
  | error e => rfl

theorem read_bind (f : State → Except Cause β) (k : β → InPlace α) :
    (read f >>= k) s = match f s with
      | .ok b => k b s
      | .error cause => .error (.unlocated cause) s := by
  show EStateM.bind (read f) k s = _
  unfold EStateM.bind read
  rw [get_bind]
  cases f s with
  | ok b => rfl
  | error cause => rfl

/-! ### Definitions all at once -/

theorem crossOff_run (name : String) :
    crossOff name s = .ok (s.pendingExports.contains name)
      { s with pendingExports := s.pendingExports.erase name } := by
  unfold crossOff
  rw [get_bind]
  cases hawaited : s.pendingExports.contains name with
  | true => rfl
  | false =>
    rw [Table.erase_of_not_contains hawaited]
    rfl

theorem enter_run (symbol : Symbol) :
    enter symbol s = .ok (s.enter symbol).1 (s.enter symbol).2 := by
  unfold enter
  rw [run_bind_of_ok (crossOff_run symbol.name)]
  rfl

theorem add_eq (symbol : Symbol) : add symbol s = allAtOnce s (s.add symbol) := by
  unfold add State.add
  rw [get_bind]
  cases s.lookup symbol.name with
  | none => exact enter_run symbol
  | some old =>
    dsimp only
    split
    · split
      · rfl
      · exact enter_run _
    · rfl

theorem define_eq (spelling : String) (make : String → Symbol) :
    define spelling make s = allAtOnce s (s.define spelling make) := by
  unfold define State.define
  rw [read_bind]
  cases s.qualify spelling with
  | ok name => exact add_eq (make name)
  | error cause => rfl

theorem defineLabel_eq (spelling : String) (exported : Bool) (location : Option Location) :
    defineLabel spelling exported location s =
      allAtOnce s (s.defineLabel spelling exported location) := by
  have hdefine := define_eq (s := s) spelling fun name => s.labelHere name exported location
  unfold defineLabel
  rw [get_bind, State.defineLabel_eq_map]
  cases hlabel : s.define spelling fun name => s.labelHere name exported location with
  | error e =>
    rw [hlabel] at hdefine
    rw [run_bind_of_error hdefine]
    rfl
  | ok result =>
    rw [hlabel] at hdefine
    rw [run_bind_of_ok hdefine]
    -- the scope is written for a global label only
    cases hlocal : isLocalName result.1.name with
    | true =>
      simp only [hlocal, Except.map, if_true]
      rfl
    | false =>
      simp only [hlocal, Except.map, Bool.false_eq_true, if_false]
      rfl

theorem exportName_eq (spelling : String) (location : Option Location) :
    exportName spelling location s =
      allAtOnce s ((s.exportName spelling location).map fun s' => ((), s')) := by
  unfold exportName State.exportName
  rw [read_bind]
  cases s.qualify spelling with
  | error cause => rfl
  | ok name =>
    dsimp only
    rw [get_bind]
    cases s.lookup name with
    | some symbol => rfl
    | none =>
      dsimp only
      rw [get_bind]
      cases s.pendingExports.contains name with
      | true => rfl
      | false => rfl

/-- Purging in place. -/
theorem purge_eq (spelling : String) :
    purge spelling s = allAtOnce s ((s.purge spelling).map fun s' => ((), s')) := by
  unfold purge State.purge
  rw [read_bind]
  cases s.qualify spelling with
  | error cause => rfl
  | ok name =>
    dsimp only
    rw [get_bind]
    cases s.lookup name with
    | none => rfl
    | some symbol =>
      dsimp only
      -- each check in its turn, and each on the state as it was
      rw [refuseIf_bind, refuseIf_bind, refuseIf_bind]
      by_cases hbuiltIn : name = State.storageName
      · rw [if_pos hbuiltIn, if_pos hbuiltIn]
        rfl
      · rw [if_neg hbuiltIn, if_neg hbuiltIn]
        by_cases hlabel : symbol.kind = .label
        · rw [if_pos hlabel, if_pos hlabel]
          rfl
        · rw [if_neg hlabel, if_neg hlabel]
          by_cases hexported : symbol.exported = true
          · rw [if_pos hexported, if_pos hexported]
            rfl
          · rw [if_neg hexported, if_neg hexported]
            rfl

/-! ### Sections all at once -/

theorem register_run (hs : s.sections.names.Nodup) (block : Section) :
    register block s = match s.register block with
      | .ok s' => .ok () s'
      | .error cause => .error (.unlocated cause) s := by
  unfold register State.register
  rw [get_bind]
  cases hget : s.sections.get? block.name with
  | none => rfl
  | some existing =>
    dsimp only
    rw [refuseIf_bind]
    by_cases hsame : existing = block
    · have hagain : s.sections.insert block.name block = s.sections :=
        Table.insert_of_get?_eq_some hs (hsame ▸ hget)
      rw [if_neg (not_not_intro hsame), if_pos hsame]
      show EStateM.Result.ok () { s with sections := s.sections.insert block.name block } = _
      rw [hagain]
    · rw [if_pos hsame, if_neg hsame]

theorem register_bind (hs : s.sections.names.Nodup) (block : Section) (k : Unit → InPlace α) :
    (register block >>= k) s = match s.register block with
      | .ok s' => k () s'
      | .error cause => .error (.unlocated cause) s := by
  have hregister := register_run hs block
  cases hblock : s.register block with
  | ok s' =>
    rw [hblock] at hregister
    exact run_bind_of_ok hregister k
  | error cause =>
    rw [hblock] at hregister
    exact run_bind_of_error hregister k

theorem noteSize_run (block : Option Section) (size : Int) :
    noteSize block size s = .ok () { s with
      sizes := match block with
        | some block => s.sizes.insert block.name size
        | none => s.sizes } := by
  cases block with
  | none => rfl
  | some block => rfl

theorem saveSizes_run : saveSizes s = .ok () s.saveSizes := by
  unfold saveSizes
  rw [get_bind, run_bind_of_ok (noteSize_run s.current s.pc)]
  exact noteSize_run s.load s.loadPc

theorem enterSection_eq (hs : s.sections.names.Nodup) (block : Section) :
    enterSection block s = allAtOnce s ((s.enterSection block).map fun s' => ((), s')) := by
  unfold enterSection State.enterSection
  rw [get_bind]
  cases s.load with
  | some load => rfl
  | none =>
    dsimp only
    rw [register_bind hs]
    cases s.register block with
    | error cause => rfl
    | ok t =>
      dsimp only
      rw [run_bind_of_ok saveSizes_run]
      rfl

theorem enterLoad_eq (hs : s.sections.names.Nodup) (block : Section) :
    enterLoad block s = allAtOnce s ((s.enterLoad block).map fun s' => ((), s')) := by
  unfold enterLoad State.enterLoad
  rw [get_bind, refuseIf_bind]
  cases s.current with
  | none => rfl
  | some current =>
    rw [if_neg (by simp)]
    cases s.load with
    | some load => rfl
    | none =>
      dsimp only
      rw [register_bind hs]
      cases s.register block with
      | error cause => rfl
      | ok t => rfl

theorem endLoad_eq : endLoad s = allAtOnce s (s.endLoad.map fun s' => ((), s')) := by
  unfold endLoad State.endLoad
  rw [get_bind]
  cases s.load with
  | none => rfl
  | some load => rfl

theorem pushSection_run : pushSection s = .ok () s.pushSection := by
  unfold pushSection
  rw [run_bind_of_ok saveSizes_run]
  rfl

theorem popSection_eq : popSection s = allAtOnce s (s.popSection.map fun s' => ((), s')) := by
  unfold popSection State.popSection
  rw [get_bind]
  cases s.stack with
  | nil => rfl
  | cons context rest =>
    dsimp only
    rw [run_bind_of_ok saveSizes_run]
    rfl

theorem advance_run (bytes : Int) : advance bytes s = .ok () (s.advance bytes) := by
  unfold State.advance
  cases hload : s.load.isSome with
  | true =>
    show (if s.load.isSome then _ else _ : InPlace Unit) _ = _
    rw [if_pos hload]
    rfl
  | false =>
    show (if s.load.isSome then _ else _ : InPlace Unit) _ = _
    rw [if_neg (by simp [hload])]
    rfl

theorem resetStorage_run (value : Int) : resetStorage value s = .ok () (s.resetStorage value) := by
  unfold resetStorage State.resetStorage
  rw [get_bind]
  cases s.lookup State.storageName with
  | none => rfl
  | some symbol => rfl

theorem advanceStorage_run (bytes : Int) :
    advanceStorage bytes s = .ok (s.advanceStorage bytes).1 (s.advanceStorage bytes).2 := by
  unfold advanceStorage
  rw [get_bind, run_bind_of_ok (resetStorage_run _)]
  rfl

/-! ### Operations all at once -/

/-- An operation in place does what it does all at once. In particular it fails before its first
write. -/
theorem execute_eq (hs : s.sections.names.Nodup) (op : Operation) :
    execute op s = allAtOnce s (s.perform op) := by
  cases op with
  | defineLabel spelling exported location => exact map_allAtOnce (defineLabel_eq ..) _
  | defineConstant | defineVariable | defineText => exact map_allAtOnce (define_eq ..) _
  | exportName spelling location => exact done_allAtOnce (exportName_eq ..)
  | purge spelling => exact done_allAtOnce (purge_eq spelling)
  | advanceStorage bytes => exact map_run (advanceStorage_run bytes) _
  | resetStorage value => exact map_run (resetStorage_run value) _
  | qualify spelling =>
    rw [execute, map_eq_pure_bind, read_bind, State.perform]
    cases s.qualify spelling with
    | ok name => rfl
    | error cause => rfl
  | resolveLocal spelling =>
    rw [execute, map_eq_pure_bind, read_bind, State.perform]
    cases s.resolveLocal spelling with
    | ok name => rfl
    | error cause => rfl
  | lookup name | value name | isDefined name => rfl
  | enterSection block => exact done_allAtOnce (enterSection_eq hs block)
  | enterLoad block => exact done_allAtOnce (enterLoad_eq hs block)
  | endLoad => exact done_allAtOnce endLoad_eq
  | pushSection => exact map_run pushSection_run _
  | popSection => exact done_allAtOnce popSection_eq
  | advance bytes => exact map_run (advance_run bytes) _
  | sectionSize name =>
    show (saveSizes >>= _) s = _
    rw [run_bind_of_ok saveSizes_run]
    rfl

end

end InPlace

/-- The spelling that a definition gives a meaning, and the kind of its symbol. -/
def Operation.definition? : Operation → Option (String × SymbolKind)
  | .defineLabel spelling .. => some (spelling, .label)
  | .defineConstant spelling .. => some (spelling, .equ)
  | .defineVariable spelling .. => some (spelling, .set)
  | .defineText spelling .. => some (spelling, .equs)
  | _ => none

namespace State

variable {s s' : State} {op : Operation} {spelling : String} {kind : SymbolKind}

/-! ## Names that are taken -/

/-- The error says that a name is taken. -/
def IsRedefinition (e : Error) : Prop :=
  e.cause.category = .redefinition

theorem add_error {symbol : Symbol} {e : Error} (h : s.add symbol = .error e) :
    IsRedefinition e := by
  unfold add at h
  split at h
  · cases h
  · split at h
    · split at h
      · cases h
      · cases h
    · cases h
      rfl

theorem add_redefinition_iff {symbol : Symbol} :
    (∃ e, s.add symbol = .error e ∧ IsRedefinition e) ↔ s.admits symbol.name symbol.kind =
      false := by
  have hok : (∃ r, s.add symbol = .ok r) ↔ s.admits symbol.name symbol.kind := add_isOk_iff
  cases hadmits : s.admits symbol.name symbol.kind with
  | true =>
    obtain ⟨r, hr⟩ := hok.mpr hadmits
    simp [hr]
  | false =>
    refine ⟨fun _ => rfl, fun _ => ?_⟩
    cases hadd : s.add symbol with
    | error e => exact ⟨e, rfl, add_error hadd⟩
    | ok r =>
      rw [hok.mp ⟨r, hadd⟩] at hadmits
      cases hadmits

theorem define_redefinition_iff {make : String → Symbol} :
    (∃ e, s.define spelling make = .error e ∧ IsRedefinition e) ↔
      ∃ name, s.qualify spelling = .ok name ∧
        s.admits (make name).name (make name).kind = false := by
  unfold define
  cases hfull : s.qualify spelling with
  | ok name => simpa using add_redefinition_iff
  | error cause =>
    rw [qualify_error hfull]
    simp [IsRedefinition, Error.unlocated, Cause.category]

theorem not_admits_iff (hs : s.Consistent) {name : String} :
    s.admits name kind = false ↔
      (∃ x, s.lookup name = some x ∧ x.kind ≠ .set) ∨ (name = storageName ∧ kind ≠ .set) := by
  unfold admits
  cases hlookup : s.lookup name with
  | none =>
    obtain ⟨x, _, hx, _⟩ := hs.cursor
    have hne : name ≠ storageName := by
      rintro rfl
      rw [hlookup] at hx
      cases hx
    simp [hne]
  | some old =>
    by_cases hset : old.kind = .set
    · simp [hset, and_comm]
    · simp [hset]

theorem redefinition_iff (hs : s.Consistent) (hop : op.definition? = some (spelling, kind)) :
    (∃ e, s.perform op = .error e ∧ IsRedefinition e) ↔
      ∃ name, s.qualify spelling = .ok name ∧
        ((∃ x, s.lookup name = some x ∧ x.kind ≠ .set) ∨ (name = storageName ∧ kind ≠ .set)) := by
  simp only [← not_admits_iff hs]
  cases op with
  | defineLabel =>
    cases hop
    simp only [perform, map_eq_error_iff, defineLabel_eq_map]
    exact define_redefinition_iff
  | defineConstant | defineVariable | defineText =>
    cases hop
    simp only [perform, map_eq_error_iff]
    exact define_redefinition_iff
  | _ => cases hop

/-! ## Reachable states -/

theorem nodup_sections_step (h : Step s op s') (hs : s.sections.names.Nodup) :
    s'.sections.names.Nodup := by
  have hregistered : ∀ {block : Section} {t : State}, Registers s block t →
      t.sections.names.Nodup := by
    intro block t registered
    rcases registered.adds with hsame | hnew
    · rw [hsame]
      exact hs
    · rw [hnew]
      exact Table.nodup_names_insert hs _ _
  cases h with
  | aside same _ _ =>
    rw [same]
    exact hs
  | @enterSection block t _ registered =>
    show t.sections.names.Nodup
    exact hregistered registered
  | @enterLoad block t _ registered =>
    show t.sections.names.Nodup
    exact hregistered registered
  | endLoad _ => exact hs
  | pushSection => exact hs
  | popSection _ => exact hs
  | advance _ => exact hs
  | sectionSize _ => exact hs

theorem nodup_sections_run (hs : s.sections.names.Nodup) (ops : List Operation) :
    (s.run ops).sections.names.Nodup := by
  induction ops generalizing s with
  | nil => exact hs
  | cons op rest ih => exact ih (nodup_sections_step (step_after s op) hs)

/-- After every run of operations, an operation in place ends as it ends all at once: where it
fails, not one of its writes has been made, and the failure is the one of `perform`; where it
succeeds, all of them have. A definition fails because its name is taken exactly if its full name is
defined and no variable, or is the storage cursor and is not to be a variable. -/
theorem failures_change_nothing (exportAll : Bool) (ops : List Operation) (op : Operation) :
    let s := (fresh exportAll).run ops
    (∀ e s', InPlace.execute op s = .error e s' → s' = s ∧ s.perform op = .error e) ∧
      (∀ answer s', InPlace.execute op s = .ok answer s' ↔ s.perform op = .ok (answer, s')) ∧
      (∀ spelling kind, op.definition? = some (spelling, kind) →
        ((∃ e s', InPlace.execute op s = .error e s' ∧ IsRedefinition e) ↔
          ∃ name, s.qualify spelling = .ok name ∧
            ((∃ x, s.lookup name = some x ∧ x.kind ≠ .set) ∨
              (name = storageName ∧ kind ≠ .set)))) := by
  intro s
  have hfresh : (fresh exportAll).sections.names.Nodup := List.nodup_nil
  have hnodup : s.sections.names.Nodup := nodup_sections_run hfresh ops
  have hs : s.Consistent := consistent_run (consistent_fresh exportAll) ops
  -- no section is recorded twice, so writing one again in place changes nothing
  have hexecute := InPlace.execute_eq hnodup op
  refine ⟨?_, ?_, ?_⟩
  · intro e s' h
    rw [hexecute, InPlace.allAtOnce_eq_error_iff] at h
    exact ⟨h.2, h.1⟩
  · intro answer s'
    rw [hexecute]
    exact InPlace.allAtOnce_eq_ok_iff
  · intro spelling kind hop
    rw [← redefinition_iff hs hop, hexecute]
    simp only [InPlace.allAtOnce_eq_error_iff]
    constructor
    · rintro ⟨e, s', ⟨herror, _⟩, htaken⟩
      exact ⟨e, herror, htaken⟩
    · rintro ⟨e, herror, htaken⟩
      exact ⟨e, s, ⟨herror, rfl⟩, htaken⟩

end State

end Sm83
