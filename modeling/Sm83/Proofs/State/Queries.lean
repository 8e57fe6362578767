import Sm83.Proofs.State.Bytes

/-!
# Size queries

Asking how far a section has got writes to the table of sizes, from which sections are taken up
again. Still a query makes no difference to anything else: it notes positions that are kept
elsewhere while they are in use and are noted anew when the sections are left.
-/

namespace Sm83

namespace State

/-- The state with another table of sizes. -/
def withSizes (s : State) (sizes : Table Int) : State :=
  { s with sizes := sizes }

/-- What comes of an operation, with another table of sizes. -/
def resized {α : Type} (sizes : Table Int) (r : α × State) : α × State :=
  (r.1, r.2.withSizes sizes)

section

variable {s : State} (sizes : Table Int)

@[simp] theorem lookup_withSizes (name : String) :
    (s.withSizes sizes).lookup name = s.lookup name := rfl

@[simp] theorem qualify_withSizes (spelling : String) :
    (s.withSizes sizes).qualify spelling = s.qualify spelling := rfl

@[simp] theorem load_withSizes : (s.withSizes sizes).load = s.load := rfl

@[simp] theorem current_withSizes : (s.withSizes sizes).current = s.current := rfl

@[simp] theorem stack_withSizes : (s.withSizes sizes).stack = s.stack := rfl

theorem add_withSizes (symbol : Symbol) :
    (s.withSizes sizes).add symbol = (s.add symbol).map (resized sizes) := by
  unfold add
  rw [lookup_withSizes]
  cases s.lookup symbol.name with
  | none => rfl
  | some old =>
    dsimp only
    split
    · split
      · rfl
      · rfl
    · rfl

theorem define_withSizes (spelling : String) (make : String → Symbol) :
    (s.withSizes sizes).define spelling make = (s.define spelling make).map (resized sizes) := by
  unfold define
  rw [qualify_withSizes]
  cases s.qualify spelling with
  | ok name => exact add_withSizes sizes (make name)
  | error cause => rfl

theorem defineLabel_withSizes (spelling : String) (exported : Bool) (location : Option Location) :
    (s.withSizes sizes).defineLabel spelling exported location =
      (s.defineLabel spelling exported location).map (resized sizes) := by
  have hdefine := define_withSizes (s := s) sizes spelling fun name =>
    s.labelHere name exported location
  rw [defineLabel_eq_map, defineLabel_eq_map]
  change ((s.withSizes sizes).define spelling fun name =>
    s.labelHere name exported location).map _ = _
  rw [hdefine]
  cases s.define spelling fun name => s.labelHere name exported location with
  | error e => rfl
  | ok result =>
    simp only [Except.map, resized]
    split
    · rfl
    · rfl

theorem exportName_withSizes (spelling : String) (location : Option Location) :
    (s.withSizes sizes).exportName spelling location =
      (s.exportName spelling location).map (withSizes · sizes) := by
  unfold exportName
  rw [qualify_withSizes]
  cases s.qualify spelling with
  | error cause => rfl
  | ok name =>
    dsimp only
    rw [lookup_withSizes]
    cases s.lookup name with
    | some symbol => rfl
    | none =>
      show (if s.pendingExports.contains name then _ else _) = _
      split
      · rfl
      · rfl

theorem purge_withSizes (spelling : String) :
    (s.withSizes sizes).purge spelling = (s.purge spelling).map (withSizes · sizes) := by
  unfold purge
  rw [qualify_withSizes]
  cases s.qualify spelling with
  | error cause => rfl
  | ok name =>
    dsimp only
    rw [lookup_withSizes]
    cases s.lookup name with
    | none => rfl
    | some symbol =>
      dsimp only
      split
      · rfl
      · split
        · rfl
        · split
          · rfl
          · rfl

theorem resetStorage_withSizes (value : Int) :
    (s.withSizes sizes).resetStorage value = (s.resetStorage value).withSizes sizes := by
  unfold resetStorage
  rw [lookup_withSizes]
  cases s.lookup storageName with
  | some symbol => rfl
  | none => rfl

theorem register_withSizes (block : Section) :
    (s.withSizes sizes).register block = (s.register block).map (withSizes · sizes) := by
  have hsections : (s.withSizes sizes).sections = s.sections := rfl
  unfold register
  rw [hsections]
  cases s.sections.get? block.name with
  | none => rfl
  | some existing =>
    dsimp only
    split
    · rfl
    · rfl

theorem endLoad_withSizes :
    ∃ sizes', (s.withSizes sizes).endLoad = s.endLoad.map (withSizes · sizes') := by
  unfold endLoad
  rw [load_withSizes]
  cases s.load with
  | none => exact ⟨sizes, rfl⟩
  | some load => exact ⟨sizes.insert load.name s.loadPc, rfl⟩

end

theorem map_resized {sizes : Table Int} {x y : Except Error (Symbol × State)}
    (h : y = x.map (resized sizes)) :
    (y.map fun r => (Answer.symbol r.1, r.2)) =
      (x.map fun r => (Answer.symbol r.1, r.2)).map (resized sizes) := by
  subst h
  cases x with
  | ok r => rfl
  | error e => rfl

theorem map_withSizes {sizes : Table Int} {x y : Except Error State}
    (h : y = x.map (withSizes · sizes)) :
    (y.map fun s => (Answer.done, s)) = (x.map fun s => (Answer.done, s)).map (resized sizes) := by
  subst h
  cases x with
  | ok s => rfl
  | error e => rfl

/-- The states differ in the table of sizes only, and every section has got equally far in them. -/
structure Alike (s t : State) : Prop where
  only : t = s.withSizes t.sizes
  extent : ∀ name, t.extent name = s.extent name

theorem Alike.refl (s : State) : Alike s s :=
  ⟨rfl, fun _ => rfl⟩

theorem Alike.query {s t : State} (h : Alike s t) (name : String) :
    Alike s (t.after (.sectionSize name)) := by
  constructor
  · rw [h.only]
    rfl
  · intro other
    show t.saveSizes.extent other = _
    rw [extent_saveSizes, h.extent]

section

variable {s : State} {sizes : Table Int}

theorem Alike.register (h : Alike s (s.withSizes sizes)) {block : Section} {u : State}
    (hu : s.register block = .ok u) : Alike u (u.withSizes sizes) := by
  refine ⟨rfl, ?_⟩
  intro name
  rw [(registers_of_register hu).only]
  exact h.extent name

theorem Alike.enterSection (h : Alike s (s.withSizes sizes)) (block : Section) :
    ∃ sizes', (s.withSizes sizes).enterSection block =
      (s.enterSection block).map (withSizes · sizes') := by
  unfold State.enterSection
  rw [load_withSizes, register_withSizes]
  cases s.load with
  | some load => exact ⟨sizes, rfl⟩
  | none =>
    cases hregister : s.register block with
    | error cause => exact ⟨sizes, rfl⟩
    | ok u =>
      refine ⟨(u.withSizes sizes).saveSizes.sizes, ?_⟩
      -- what is noted of the section after saving the sizes is its extent
      show Except.ok { (u.withSizes sizes).saveSizes with
        current := some block, pc := (u.withSizes sizes).extent block.name } = _
      rw [(h.register hregister).extent]
      rfl

theorem Alike.enterLoad (h : Alike s (s.withSizes sizes)) (hs : Orderly s) {block : Section}
    (hfit : (Operation.enterLoad block).fitting) :
    ∃ sizes', (s.withSizes sizes).enterLoad block =
      (s.enterLoad block).map (withSizes · sizes') := by
  unfold State.enterLoad
  rw [current_withSizes, load_withSizes, register_withSizes]
  cases hcurrent : s.current with
  | none => exact ⟨sizes, rfl⟩
  | some current =>
    cases hclosed : s.load with
    | some load => exact ⟨sizes, rfl⟩
    | none =>
      cases hregister : s.register block with
      | error cause => exact ⟨sizes, rfl⟩
      | ok u =>
        have hu := registers_of_register hregister
        -- the state behind is in order, so the block is neither the current section nor open before
        have hnext : Orderly (u.openLoad block) :=
          orderly_step (.enterLoad hclosed hu (by simp [hcurrent])) hfit hs
        have hne : u.current.map Section.name ≠ some block.name :=
          fun hname => hnext.here.name_ne hname rfl
        have hnone : u.load.map Section.name ≠ some block.name := by simp [hu.load_eq, hclosed]
        have hnoted : (u.withSizes sizes).noted block.name = u.noted block.name := calc
          (u.withSizes sizes).noted block.name = (u.withSizes sizes).extent block.name :=
            (extent_of_neither (s := u.withSizes sizes) hne hnone).symm
          _ = u.extent block.name := (h.register hregister).extent block.name
          _ = u.noted block.name := extent_of_neither hne hnone
        refine ⟨sizes, ?_⟩
        show Except.ok { (u.withSizes sizes) with
          load := some block, loadPc := (u.withSizes sizes).noted block.name } = _
        rw [hnoted]
        rfl

theorem Alike.popSection (h : Alike s (s.withSizes sizes)) :
    ∃ sizes', (s.withSizes sizes).popSection = s.popSection.map (withSizes · sizes') := by
  unfold State.popSection
  rw [stack_withSizes]
  cases s.stack with
  | nil => exact ⟨sizes, rfl⟩
  | cons context rest =>
    -- a position is looked up for the section only, the load block has its own in the context
    have hpc : ((s.withSizes sizes).takeUp context rest).pc = (s.takeUp context rest).pc := by
      unfold takeUp
      cases context.current with
      | none => rfl
      | some block => exact h.extent block.name
    refine ⟨(s.withSizes sizes).saveSizes.sizes, ?_⟩
    show Except.ok { (s.withSizes sizes).takeUp context rest with
      pc := ((s.withSizes sizes).takeUp context rest).pc } = _
    rw [hpc]
    rfl

/-- Operations go alike after a query. -/
theorem Alike.perform (h : Alike s (s.withSizes sizes)) (hs : Orderly s) {op : Operation}
    (hfit : op.fitting) :
    ∃ sizes', (s.withSizes sizes).perform op = (s.perform op).map (resized sizes') := by
  cases op with
  | defineLabel spelling exported location =>
    exact ⟨sizes, map_resized (defineLabel_withSizes sizes spelling exported location)⟩
  | defineConstant spelling value exported location =>
    exact ⟨sizes, map_resized (define_withSizes sizes spelling _)⟩
  | defineVariable spelling value location =>
    exact ⟨sizes, map_resized (define_withSizes sizes spelling _)⟩
  | defineText spelling value location =>
    exact ⟨sizes, map_resized (define_withSizes sizes spelling _)⟩
  | exportName spelling location =>
    exact ⟨sizes, map_withSizes (exportName_withSizes sizes spelling location)⟩
  | purge spelling => exact ⟨sizes, map_withSizes (purge_withSizes sizes spelling)⟩
  | advanceStorage bytes =>
    refine ⟨sizes, ?_⟩
    show Except.ok (Answer.number s.storage, (s.withSizes sizes).resetStorage (s.storage + bytes)) =
      _
    rw [resetStorage_withSizes]
    rfl
  | resetStorage value =>
    refine ⟨sizes, ?_⟩
    show Except.ok (Answer.done, (s.withSizes sizes).resetStorage value) = _
    rw [resetStorage_withSizes]
    rfl
  | qualify spelling =>
    refine ⟨sizes, ?_⟩
    show ((s.qualify spelling).mapError _).map _ = (((s.qualify spelling).mapError _).map _).map _
    cases s.qualify spelling <;> rfl
  | resolveLocal spelling =>
    refine ⟨sizes, ?_⟩
    show ((s.resolveLocal spelling).mapError _).map _ =
      (((s.resolveLocal spelling).mapError _).map _).map _
    cases s.resolveLocal spelling <;> rfl
  | lookup name | value name | isDefined name | advance bytes => exact ⟨sizes, rfl⟩
  -- from here on sizes are written down, so the two states may hold others afterwards
  | enterSection block =>
    obtain ⟨sizes', henter⟩ := h.enterSection block
    exact ⟨sizes', map_withSizes henter⟩
  | enterLoad block =>
    obtain ⟨sizes', henter⟩ := h.enterLoad hs hfit
    exact ⟨sizes', map_withSizes henter⟩
  | endLoad =>
    obtain ⟨sizes', hend⟩ := endLoad_withSizes (s := s) sizes
    exact ⟨sizes', map_withSizes hend⟩
  | pushSection => exact ⟨(s.withSizes sizes).saveSizes.sizes, rfl⟩
  | popSection =>
    obtain ⟨sizes', hpop⟩ := h.popSection
    exact ⟨sizes', map_withSizes hpop⟩
  | sectionSize name =>
    refine ⟨(s.withSizes sizes).saveSizes.sizes, ?_⟩
    show Except.ok (Answer.number ((s.withSizes sizes).extent name), _) = _
    rw [h.extent]
    rfl

end

section

variable {s t : State} {op : Operation}

theorem Alike.orderly (h : Alike s t) (hs : Orderly s) : Orderly t := by
  rw [h.only]
  exact ⟨hs.here, hs.aside⟩

theorem Alike.putBack_eq (h : Alike s t) (name : String) :
    putBack name t op = putBack name s op := by
  cases op with
  | popSection =>
    have hstack : t.stack = s.stack := by rw [h.only]; rfl
    simp only [putBack, hstack, h.extent]
  | _ => rfl

theorem Alike.step (h : Alike s t) (hs : Orderly s) (hfit : op.fitting) :
    (t.perform op).map Prod.fst = (s.perform op).map Prod.fst ∧
      Alike (s.after op) (t.after op) := by
  obtain ⟨sizes, rfl⟩ : ∃ sizes, t = s.withSizes sizes := ⟨_, h.only⟩
  have hs' := orderly_step (step_after s op) hfit hs
  have ht' := orderly_step (step_after (s.withSizes sizes) op) hfit (h.orderly hs)
  obtain ⟨sizes', hperform⟩ := h.perform hs hfit
  refine ⟨?_, ?_, ?_⟩
  · rw [hperform]
    cases s.perform op with
    | ok r => rfl
    | error e => rfl
  · unfold after
    rw [hperform]
    cases s.perform op with
    | ok r => rfl
    | error e => rfl
  · intro name
    -- both go on from the same extent by the bytes counted and put back
    rw [extent_step (step_after (s.withSizes sizes) op) (h.orderly hs) ht', h.extent, h.putBack_eq,
      extent_step (step_after s op) hs hs']
    rfl

end

/-- A call of a run with queries put in. -/
inductive Call where
  /-- An operation of the run. -/
  | own (op : Operation)
  /-- A query that was put in. -/
  | query (name : String)
  deriving DecidableEq, Repr

namespace Call

def operation : Call → Operation
  | own op => op
  | query name => .sectionSize name

/-- The operation of the run, if the call is one. -/
def own? : Call → Option Operation
  | own op => some op
  | query _ => none

end Call

/-- The answers and errors of a run. -/
def answers : State → List Operation → List (Except Error Answer)
  | _, [] => []
  | s, op :: rest => (s.perform op).map Prod.fst :: answers (s.after op) rest

/-- The answers and errors of a run with queries put in, without those of the queries. -/
def ownAnswers : State → List Call → List (Except Error Answer)
  | _, [] => []
  | s, .own op :: rest => (s.perform op).map Prod.fst :: ownAnswers (s.after op) rest
  | s, .query name :: rest => ownAnswers (s.after (.sectionSize name)) rest

theorem Alike.run {s t : State} (h : Alike s t) (hs : Orderly s) {calls : List Call}
    (hfit : ∀ op ∈ calls.filterMap Call.own?, op.fitting) :
    ownAnswers t calls = answers s (calls.filterMap Call.own?) ∧
      Alike (s.run (calls.filterMap Call.own?)) (t.run (calls.map Call.operation)) := by
  induction calls generalizing s t with
  | nil => exact ⟨rfl, h⟩
  | cons call rest ih =>
    cases call with
    | query name =>
      -- the run without the query stands still
      exact ih (h.query name) hs hfit
    | own op =>
      obtain ⟨hnext, hrest⟩ := orderly_cons hs hfit
      obtain ⟨hanswer, hafter⟩ := h.step hs (hfit op List.mem_cons_self)
      obtain ⟨hanswers, hrun⟩ := ih hafter hnext hrest
      refine ⟨?_, hrun⟩
      show (t.perform op).map Prod.fst :: ownAnswers (t.after op) rest = _
      rw [hanswer, hanswers]
      rfl

/-- Queries put into a run make no difference to it. All its operations have the same answers and
errors as without the queries, the state at the end differs in the table of sizes at most, and every
section has the same size. -/
theorem queries_change_nothing (exportAll : Bool) (calls : List Call)
    (hfit : ∀ op ∈ calls.filterMap Call.own?, op.fitting) :
    let ops := calls.filterMap Call.own?
    let without := (fresh exportAll).run ops
    let queried := (fresh exportAll).run (calls.map Call.operation)
    ownAnswers (fresh exportAll) calls = answers (fresh exportAll) ops ∧
      queried = { without with sizes := queried.sizes } ∧
      ∀ name, (queried.sectionSize name).1 = (without.sectionSize name).1 := by
  intro ops without queried
  obtain ⟨hanswers, halike⟩ := (Alike.refl (fresh exportAll)).run (orderly_fresh exportAll) hfit
  exact ⟨hanswers, halike.only, halike.extent⟩

/-- Queries of sections that are taken up again, in a run that fails once. -/
theorem queries_change_nothing_reentered :
    let code : Section := ⟨"Code", .rom0, none, none, none, false⟩
    let fast : Section := ⟨"Fast", .hram, none, none, none, true⟩
    let calls : List Call := [.own (.enterSection code), .own (.advance 5), .query "Code",
      .own (.enterLoad fast), .own (.advance 2), .query "Fast", .own .endLoad, .own .endLoad,
      .own .pushSection, .query "Code", .own (.enterSection code), .own (.advance 3),
      .own .popSection, .own (.enterLoad fast), .query "Code",
        .own (.defineLabel "here" false none)]
    let ops := calls.filterMap Call.own?
    let without := (fresh false).run ops
    let queried := (fresh false).run (calls.map Call.operation)
    (∀ op ∈ ops, op.fitting) ∧ queried.sizes ≠ without.sizes ∧
      ownAnswers (fresh false) calls = answers (fresh false) ops ∧
      queried = { without with sizes := queried.sizes } ∧
      (queried.sectionSize "Code").1 = (without.sectionSize "Code").1 ∧
      (without.sectionSize "Code").1 = 10 := by
  intro code fast calls ops without queried
  have hfit : ∀ op ∈ ops, op.fitting := by decide
  obtain ⟨hanswers, honly, hsizes⟩ := queries_change_nothing false calls hfit
  exact ⟨hfit, by decide, hanswers, honly, hsizes "Code", by decide⟩

end State

end Sm83
