import Sm83.Proofs.Outcome
import Sm83.State.Operation

/-!
# Steps of a state

What one operation can do to the sections of a state, said once. `Step` lists the ways, and
`step_after` says that every operation takes one of them: an operation on symbols, and one that
fails, leaves the bookkeeping of sections as it is. Statements about runs follow by cases on `Step`.
-/

namespace Sm83

/-- An operation that enters ordinary sections only and opens load sections only. -/
def Operation.fitting : Operation → Bool
  | .enterSection block => !block.load
  | .enterLoad block => block.load
  | _ => true

namespace State

variable {s : State} {block : Section}

section

variable {s s' : State} {symbol x : Symbol} {location : Option Location}

/-- The table of symbols, the scope and the exports asked for may have changed, and nothing else. -/
def SameSections (s s' : State) : Prop :=
  s' = { s with symbols := s'.symbols, scope := s'.scope, pendingExports := s'.pendingExports }

theorem SameSections.refl (s : State) : SameSections s s := rfl

theorem add_sameSections (h : s.add symbol = .ok (x, s')) : SameSections s s' := by
  unfold add at h
  split at h
  · cases h
    rfl
  · split at h
    · split at h
      · cases h
        rfl
      · cases h
        rfl
    · cases h

variable {spelling : String}

theorem define_sameSections {make : String → Symbol} (h : s.define spelling make = .ok (x, s')) :
    SameSections s s' := by
  unfold define at h
  split at h
  · exact add_sameSections h
  · cases h

theorem defineLabel_sameSections {exported : Bool}
    (h : s.defineLabel spelling exported location = .ok (x, s')) : SameSections s s' := by
  simp only [defineLabel] at h
  split at h
  · cases h
  · next symbol t hdefine =>
    have ht := define_sameSections hdefine
    cases h
    split
    · exact ht
    · unfold SameSections at ht ⊢
      rw [ht]

/-- A name that is exported is marked as exported, or it waits for its definition. -/
theorem exportName_cases (h : s.exportName spelling location = .ok s') :
    ∃ name, s.qualify spelling = .ok name ∧
      ((∃ x, s.lookup name = some x ∧
          s' = { s with symbols := s.symbols.insert name { x with exported := true } }) ∨
        (s.lookup name = none ∧
          (s' = s ∨ s' = { s with pendingExports := s.pendingExports.insert name location }))) := by
  unfold exportName at h
  split at h
  · cases h
  · next name hfull =>
    refine ⟨name, hfull, ?_⟩
    split at h
    · next x hfound =>
      cases h
      exact .inl ⟨x, hfound, rfl⟩
    · next hfree =>
      refine .inr ⟨hfree, ?_⟩
      split at h
      · cases h
        exact .inl rfl
      · cases h
        exact .inr rfl

theorem exportName_sameSections (h : s.exportName spelling location = .ok s') :
    SameSections s s' := by
  obtain ⟨name, _, ⟨x, _, rfl⟩ | ⟨_, rfl | rfl⟩⟩ := exportName_cases h
  · rfl
  · rfl
  · rfl

/-- A symbol that is purged is neither built in nor a label nor exported. -/
theorem purge_cases (h : s.purge spelling = .ok s') :
    ∃ name x, s.qualify spelling = .ok name ∧ s.lookup name = some x ∧ name ≠ storageName ∧
      x.kind ≠ .label ∧ x.exported = false ∧ s' = { s with symbols := s.symbols.erase name } := by
  simp only [purge] at h
  split at h
  · cases h
  · next name hfull =>
    split at h
    · cases h
    · next x hfound =>
      split at h
      · cases h
      · next hbuiltIn =>
        split at h
        · cases h
        · next hkind =>
          split at h
          · cases h
          · next hkept =>
            cases h
            exact ⟨name, x, hfull, hfound, hbuiltIn, hkind, by simpa using hkept, rfl⟩

theorem purge_sameSections (h : s.purge spelling = .ok s') : SameSections s s' := by
  obtain ⟨name, x, _, _, _, _, _, rfl⟩ := purge_cases h
  rfl

theorem resetStorage_sameSections (s : State) (value : Int) :
    SameSections s (s.resetStorage value) := by
  unfold resetStorage
  split
  · rfl
  · rfl

end

section

variable {s s' : State} {block : Section}

/-- Registering a section changes nothing else, keeps what is registered, and adds at most the
section itself. -/
structure Registers (s : State) (block : Section) (s' : State) : Prop where
  only : s' = { s with sections := s'.sections }
  entered : s'.sections.get? block.name = some block
  keeps : ∀ name b, s.sections.get? name = some b → s'.sections.get? name = some b
  adds : s'.sections = s.sections ∨ s'.sections = s.sections.insert block.name block

namespace Registers

theorem load_eq (h : Registers s block s') : s'.load = s.load := by rw [h.only]

theorem current_eq (h : Registers s block s') : s'.current = s.current := by rw [h.only]

theorem stack_eq (h : Registers s block s') : s'.stack = s.stack := by rw [h.only]

end Registers

theorem registers_of_register (h : s.register block = .ok s') : Registers s block s' := by
  unfold register at h
  split at h
  · next existing hexisting =>
    split at h
    · next hsame =>
      cases h
      exact ⟨rfl, hsame ▸ hexisting, fun _ _ hb => hb, .inl rfl⟩
    · cases h
  · next hnone =>
    cases h
    refine ⟨rfl, Table.get?_insert_self _ _ _, ?_, .inr rfl⟩
    intro name b hb
    -- a name that is registered is not the new one
    have hne : name ≠ block.name := by
      rintro rfl
      rw [hnone] at hb
      cases hb
    rw [Table.get?_insert_ne _ _ hne]
    exact hb

end

/-- A section is made current and goes on where it was left. -/
def goOnWith (s : State) (block : Section) : State :=
  { s.saveSizes with current := some block, pc := s.saveSizes.noted block.name }

/-- A load block is opened and goes on where it was left. -/
def openLoad (s : State) (block : Section) : State :=
  { s with load := some block, loadPc := s.noted block.name }

/-- The load block is closed, and its position noted. -/
def closeLoad (s : State) (load : Section) : State :=
  { s with sizes := s.sizes.insert load.name s.loadPc, load := none, loadPc := 0 }

/-- A context is taken up again. Its section goes on where it was left, and its load block where the
context has it. -/
def takeUp (s : State) (context : Context) (rest : List Context) : State :=
  { s.saveSizes with
    stack := rest
    current := context.current
    pc := match context.current with
      | some block => s.saveSizes.noted block.name
      | none => context.pc
    load := context.load
    loadPc := context.loadPc }

section

variable {s s' : State} {block : Section}

theorem enterSection_cases (h : s.enterSection block = .ok s') :
    s.load = none ∧ ∃ t, Registers s block t ∧ s' = t.goOnWith block := by
  unfold enterSection at h
  split at h
  · cases h
  · next hclosed =>
    split at h
    · cases h
    · next t hregister =>
      cases h
      exact ⟨hclosed, t, registers_of_register hregister, rfl⟩

theorem enterLoad_cases (h : s.enterLoad block = .ok s') :
    s.current.isSome = true ∧ s.load = none ∧ ∃ t, Registers s block t ∧ s' = t.openLoad block := by
  unfold enterLoad at h
  split at h
  · cases h
  · cases h
  · next current hcurrent hclosed =>
    split at h
    · cases h
    · next t hregister =>
      cases h
      exact ⟨by rw [hcurrent]; rfl, hclosed, t, registers_of_register hregister, rfl⟩

theorem endLoad_cases (h : s.endLoad = .ok s') :
    ∃ load, s.load = some load ∧ s' = s.closeLoad load := by
  unfold endLoad at h
  split at h
  · cases h
  · next load hload =>
    cases h
    exact ⟨load, hload, rfl⟩

theorem popSection_cases (h : s.popSection = .ok s') :
    ∃ context rest, s.stack = context :: rest ∧ s' = s.takeUp context rest := by
  unfold popSection at h
  split at h
  · cases h
  · next context rest hstack =>
    cases h
    exact ⟨context, rest, hstack, rfl⟩

end

/-- The ways in which an operation can change a state, as far as sections are concerned. -/
inductive Step (s : State) : Operation → State → Prop where
  /-- Symbols are looked up or changed, or the operation fails. -/
  | aside {op : Operation} {s' : State} (same : SameSections s s')
      (advances : ∀ bytes, op ≠ .advance bytes) (pops : op = .popSection → s.stack = []) :
      Step s op s'
  | enterSection {block : Section} {t : State} (closed : s.load = none)
      (registered : Registers s block t) : Step s (.enterSection block) (t.goOnWith block)
  | enterLoad {block : Section} {t : State} (closed : s.load = none)
      (registered : Registers s block t) (inside : s.current.isSome) :
      Step s (.enterLoad block) (t.openLoad block)
  | endLoad {load : Section} (opened : s.load = some load) : Step s .endLoad (s.closeLoad load)
  | pushSection : Step s .pushSection s.pushSection
  | popSection {context : Context} {rest : List Context} (top : s.stack = context :: rest) :
      Step s .popSection (s.takeUp context rest)
  | advance (bytes : Int) : Step s (.advance bytes) (s.advance bytes)
  | sectionSize (name : String) : Step s (.sectionSize name) s.saveSizes

variable {op : Operation} {name : String}

section

variable {s s' : State}

theorem step_of_sameSections (h : SameSections s s') (hadvance : ∀ bytes, op ≠ .advance bytes)
    (hpop : op ≠ .popSection) : Step s op s' :=
  .aside h hadvance (fun heq => absurd heq hpop)

/-- What holds of every state that the underlying outcome can lead to holds of the one it leads to.
-/
theorem of_map_ok {α : Type} {P : State → Prop} {outcome : Except Error α} {answer : Answer}
    {result : α → Answer × State} (h : outcome.map result = .ok (answer, s'))
    (hresult : ∀ r, outcome = .ok r → P (result r).2) : P s' := by
  obtain ⟨r, hr, heq⟩ := Outcome.map_eq_ok_iff.mp h
  have hP := hresult r hr
  rwa [heq] at hP

/-- What an operation that succeeds does to the sections. -/
theorem step_of_perform {answer : Answer} (h : s.perform op = .ok (answer, s')) : Step s op s' := by
  cases op with
  | defineLabel spelling exported location =>
    exact of_map_ok h fun _ hr => step_of_sameSections (defineLabel_sameSections hr) (by simp)
      (by simp)
  | defineConstant | defineVariable | defineText =>
    exact of_map_ok h fun _ hr => step_of_sameSections (define_sameSections hr) (by simp) (by simp)
  | exportName spelling location =>
    exact of_map_ok h fun _ hr => step_of_sameSections (exportName_sameSections hr) (by simp)
      (by simp)
  | purge spelling =>
    exact of_map_ok h fun _ hr => step_of_sameSections (purge_sameSections hr) (by simp) (by simp)
  | advanceStorage | resetStorage =>
    cases h
    exact step_of_sameSections (resetStorage_sameSections _ _) (by simp) (by simp)
  | qualify spelling | resolveLocal spelling =>
    exact of_map_ok h fun _ _ => step_of_sameSections (.refl _) (by simp) (by simp)
  | lookup name | value name | isDefined name =>
    cases h
    exact step_of_sameSections (.refl _) (by simp) (by simp)
  | enterSection block =>
    refine of_map_ok h fun _ hr => ?_
    obtain ⟨hclosed, t, hregisters, rfl⟩ := enterSection_cases hr
    exact .enterSection hclosed hregisters
  | enterLoad block =>
    refine of_map_ok h fun _ hr => ?_
    obtain ⟨hinside, hclosed, t, hregisters, rfl⟩ := enterLoad_cases hr
    exact .enterLoad hclosed hregisters hinside
  | endLoad =>
    refine of_map_ok h fun _ hr => ?_
    obtain ⟨load, hload, rfl⟩ := endLoad_cases hr
    exact .endLoad hload
  | pushSection =>
    cases h
    exact .pushSection
  | popSection =>
    refine of_map_ok h fun _ hr => ?_
    obtain ⟨context, rest, hstack, rfl⟩ := popSection_cases hr
    exact .popSection hstack
  | advance bytes =>
    cases h
    exact .advance bytes
  | sectionSize name =>
    cases h
    exact .sectionSize name

theorem step_after (s : State) (op : Operation) : Step s op (s.after op) := by
  unfold after
  split
  · next answer s' hperform => exact step_of_perform hperform
  · -- advancing never fails, and taking a context up fails only if there is none
    next error hperform =>
    refine .aside (.refl s) ?_ ?_
    · rintro bytes rfl
      cases hperform
    · rintro rfl
      have hpop : s.popSection = .error error := Outcome.map_eq_error_iff.mp hperform
      unfold popSection at hpop
      split at hpop
      · assumption
      · cases hpop

end

theorem section_persists {s' : State} (h : Step s op s')
    (hblock : s.sections.get? name = some block) : s'.sections.get? name = some block := by
  cases h with
  | aside same _ _ =>
    rw [same]
    exact hblock
  | enterSection _ registered => exact registered.keeps name block hblock
  | enterLoad _ registered => exact registered.keeps name block hblock
  | endLoad _ => exact hblock
  | pushSection => exact hblock
  | popSection _ => exact hblock
  | advance _ => exact hblock
  | sectionSize _ => exact hblock

theorem section_persists_run (s : State) (ops : List Operation)
    (hblock : s.sections.get? name = some block) : (s.run ops).sections.get? name = some block := by
  induction ops generalizing s with
  | nil => exact hblock
  | cons op rest ih => exact ih (s.after op) (section_persists (step_after s op) hblock)

/-- The section of a context is an ordinary one and its load block a load section, both as they are
registered. -/
structure InOrder (sections : Table Section) (current load : Option Section) : Prop where
  current : ∀ block, current = some block →
    sections.get? block.name = some block ∧ block.load = false
  load : ∀ block, load = some block → sections.get? block.name = some block ∧ block.load = true

/-- The context of a state and all those put aside are in order. -/
structure Orderly (s : State) : Prop where
  here : InOrder s.sections s.current s.load
  aside : ∀ context ∈ s.stack, InOrder s.sections context.current context.load

theorem InOrder.mono {sections sections' : Table Section} {current load : Option Section}
    (h : InOrder sections current load)
    (hkeeps : ∀ name b, sections.get? name = some b → sections'.get? name = some b) :
    InOrder sections' current load := by
  constructor
  · intro block hblock
    obtain ⟨hget, hflag⟩ := h.current block hblock
    exact ⟨hkeeps _ _ hget, hflag⟩
  · intro block hblock
    obtain ⟨hget, hflag⟩ := h.load block hblock
    exact ⟨hkeeps _ _ hget, hflag⟩

theorem InOrder.outside (sections : Table Section) : InOrder sections none none := by
  constructor
  · intro block h
    cases h
  · intro block h
    cases h

theorem InOrder.name_ne {sections : Table Section} {current load : Option Section}
    (h : InOrder sections current load) (hcurrent : current.map Section.name = some name) :
    load.map Section.name ≠ some name := by
  intro hload
  obtain ⟨c, hc, rfl⟩ := Option.map_eq_some_iff.mp hcurrent
  obtain ⟨l, hl, hname⟩ := Option.map_eq_some_iff.mp hload
  obtain ⟨hcget, hcflag⟩ := h.current c hc
  obtain ⟨hlget, hlflag⟩ := h.load l hl
  rw [hname, hcget] at hlget
  cases hlget
  rw [hcflag] at hlflag
  cases hlflag

theorem Registers.orderly {s' : State} (h : Registers s block s') (hs : Orderly s) :
    Orderly s' := by
  constructor
  · rw [h.current_eq, h.load_eq]
    exact hs.here.mono h.keeps
  · rw [h.stack_eq]
    intro context hcontext
    exact (hs.aside context hcontext).mono h.keeps

theorem orderly_fresh (exportAll : Bool) : Orderly (fresh exportAll) := by
  constructor
  · exact .outside _
  · intro context h
    cases h

/-- Every operation keeps the sections in order. -/
theorem orderly_step {s' : State} (h : Step s op s') (hfit : op.fitting) (hs : Orderly s) :
    Orderly s' := by
  cases h with
  | aside same _ _ =>
    rw [same]
    exact ⟨hs.here, hs.aside⟩
  | @enterSection block t closed registered =>
    have ht := registered.orderly hs
    refine ⟨⟨?_, ht.here.load⟩, ht.aside⟩
    intro b hb
    cases hb
    exact ⟨registered.entered, by simpa [Operation.fitting] using hfit⟩
  | @enterLoad block t closed registered =>
    have ht := registered.orderly hs
    refine ⟨⟨ht.here.current, ?_⟩, ht.aside⟩
    intro b hb
    cases hb
    exact ⟨registered.entered, hfit⟩
  | endLoad opened =>
    constructor
    · constructor
      · exact hs.here.current
      · intro b hb
        cases hb
    · exact hs.aside
  | pushSection =>
    constructor
    · exact .outside _
    · intro context hcontext
      rcases List.mem_cons.mp hcontext with rfl | hmem
      · exact hs.here
      · exact hs.aside context hmem
  | @popSection context rest top =>
    -- the context taken up was in order among those put aside
    constructor
    · exact hs.aside context (top ▸ List.mem_cons_self)
    · intro c hc
      exact hs.aside c (top ▸ List.mem_cons_of_mem _ hc)
  | advance bytes => exact ⟨hs.here, hs.aside⟩
  | sectionSize name => exact ⟨hs.here, hs.aside⟩

theorem orderly_cons {rest : List Operation} (hs : Orderly s) (hfit : ∀ o ∈ op :: rest, o.fitting) :
    Orderly (s.after op) ∧ ∀ o ∈ rest, o.fitting := by
  obtain ⟨hop, hrest⟩ := List.forall_mem_cons.mp hfit
  exact ⟨orderly_step (step_after s op) hop hs, hrest⟩

theorem orderly_run (hs : Orderly s) {ops : List Operation} (hfit : ∀ op ∈ ops, op.fitting) :
    Orderly (s.run ops) := by
  induction ops generalizing s with
  | nil => exact hs
  | cons op rest ih =>
    obtain ⟨hnext, hrest⟩ := orderly_cons hs hfit
    exact ih hnext hrest

end State

end Sm83
