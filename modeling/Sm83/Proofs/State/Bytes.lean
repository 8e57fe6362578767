import Sm83.Proofs.State.Define
import Sm83.Proofs.State.Step

/-!
# Bytes of sections

How far a section has got, against the bytes counted in it along a run. The position of a section is
kept in three places: with the state while the section is current or open as a load block, in the
table of sizes otherwise, and in the contexts put aside. `extent` is the one number that
`sectionSize` makes of them, and `extent_step` says how every operation changes it.
-/

namespace Sm83

/-- The bytes that an operation counts. -/
def Operation.bytes : Operation → Int
  | .advance n => n
  | _ => 0

namespace State

/-! ## Extent -/

/-- How far a section has got. -/
def extent (s : State) (name : String) : Int :=
  (s.sectionSize name).1

/-- The section is the current one. -/
def isCurrent (name : String) (s : State) : Bool :=
  s.current.map Section.name = some name

/-- The section is open as a load block. -/
def isLoading (name : String) (s : State) : Bool :=
  s.load.map Section.name = some name

section

variable {s : State} {name : String}

theorem noted_insert (sizes : Table Int) (name other : String) (size : Int) :
    ((sizes.insert name size).get? other).getD 0 =
      if name = other then size else (sizes.get? other).getD 0 := by
  by_cases h : name = other
  · simp [h]
  · simp [h, Table.get?_insert_ne sizes size (Ne.symm h)]

theorem extent_eq (s : State) (name : String) :
    s.extent name =
      if s.load.map Section.name = some name then s.loadPc
      else if s.current.map Section.name = some name then s.pc
      else s.noted name := by
  show s.saveSizes.noted name = _
  cases hl : s.load <;> cases hc : s.current <;> simp [noted, saveSizes, hl, hc, noted_insert]

theorem extent_of_load (h : s.load.map Section.name = some name) : s.extent name = s.loadPc := by
  rw [extent_eq, if_pos h]

theorem extent_of_current (hc : s.current.map Section.name = some name)
    (hl : s.load.map Section.name ≠ some name) : s.extent name = s.pc := by
  rw [extent_eq, if_neg hl, if_pos hc]

theorem extent_of_neither (hc : s.current.map Section.name ≠ some name)
    (hl : s.load.map Section.name ≠ some name) : s.extent name = s.noted name := by
  rw [extent_eq, if_neg hl, if_neg hc]

end

/-! ## Extent after each operation -/

section

variable {s : State} (name : String)

theorem extent_sameSections {s' : State} (h : SameSections s s') :
    s'.extent name = s.extent name := by
  rw [h]
  rfl

variable {block : Section}

theorem extent_registers {t : State} (h : Registers s block t) : t.extent name = s.extent name := by
  rw [h.only]
  rfl

theorem extent_saveSizes (s : State) : s.saveSizes.extent name = s.extent name := by
  rw [extent_eq s.saveSizes]
  show (if s.load.map Section.name = some name then s.loadPc
    else if s.current.map Section.name = some name then s.pc else s.extent name) = s.extent name
  rw [extent_eq s]
  split
  · rfl
  · split <;> rfl

theorem extent_goOnWith (closed : s.load = none) :
    (s.goOnWith block).extent name = s.extent name := by
  have hload : (s.goOnWith block).load.map Section.name ≠ some name := by
    simp [goOnWith, saveSizes, closed]
  by_cases hname : block.name = name
  · have hcurrent : (s.goOnWith block).current.map Section.name = some name := by
      simp [goOnWith, hname]
    rw [extent_of_current hcurrent hload, ← hname]
    rfl
  · have hcurrent : (s.goOnWith block).current.map Section.name ≠ some name := by
      simp [goOnWith, hname]
    rw [extent_of_neither hcurrent hload]
    rfl

theorem extent_openLoad_of_ne (closed : s.load = none) (hname : block.name ≠ name) :
    (s.openLoad block).extent name = s.extent name := by
  have hload : (s.openLoad block).load.map Section.name ≠ some name := by
    simp [openLoad, hname]
  have hclosed : s.load.map Section.name ≠ some name := by simp [closed]
  rw [extent_eq, if_neg hload, extent_eq s, if_neg hclosed]
  rfl

theorem extent_openLoad (closed : s.load = none)
    (hne : s.current.map Section.name ≠ some block.name) :
    (s.openLoad block).extent name = s.extent name := by
  by_cases hname : block.name = name
  · have hload : (s.openLoad block).load.map Section.name = some name := by
      simp [openLoad, hname]
    have hclosed : s.load.map Section.name ≠ some name := by simp [closed]
    rw [extent_of_load hload, extent_of_neither (hname ▸ hne) hclosed, ← hname]
    rfl
  · exact extent_openLoad_of_ne name closed hname

theorem extent_closeLoad_of_ne {load : Section} (opened : s.load = some load)
    (hname : load.name ≠ name) : (s.closeLoad load).extent name = s.extent name := by
  have hclosed : (s.closeLoad load).load.map Section.name ≠ some name := by simp [closeLoad]
  have hother : s.load.map Section.name ≠ some name := by simp [opened, hname]
  have hnoted : (s.closeLoad load).noted name = s.noted name := by
    simp [noted, closeLoad, noted_insert, hname]
  rw [extent_eq, if_neg hclosed, extent_eq s, if_neg hother, hnoted]
  rfl

theorem extent_closeLoad {load : Section} (opened : s.load = some load)
    (hne : s.current.map Section.name ≠ some load.name) :
    (s.closeLoad load).extent name = s.extent name := by
  by_cases hname : load.name = name
  · have hopen : s.load.map Section.name = some name := by simp [opened, hname]
    have hclosed : (s.closeLoad load).load.map Section.name ≠ some name := by simp [closeLoad]
    have hcurrent : (s.closeLoad load).current.map Section.name ≠ some name := hname ▸ hne
    rw [extent_of_load hopen, extent_of_neither hcurrent hclosed]
    simp [noted, closeLoad, hname]
  · exact extent_closeLoad_of_ne name opened hname

theorem extent_pushSection (s : State) : s.pushSection.extent name = s.extent name := by
  have hcurrent : s.pushSection.current.map Section.name ≠ some name := by simp [pushSection]
  have hload : s.pushSection.load.map Section.name ≠ some name := by simp [pushSection]
  rw [extent_of_neither hcurrent hload]
  rfl

theorem extent_takeUp (s : State) (context : Context) (rest : List Context) :
    (s.takeUp context rest).extent name =
      if context.load.map Section.name = some name then context.loadPc else s.extent name := by
  rw [extent_eq]
  show (if context.load.map Section.name = some name then context.loadPc
    else if context.current.map Section.name = some name then (s.takeUp context rest).pc
    else s.extent name) = _
  by_cases hcurrent : context.current.map Section.name = some name
  · -- the position of the section is looked up again
    obtain ⟨block, hblock, hname⟩ := Option.map_eq_some_iff.mp hcurrent
    have hpc : (s.takeUp context rest).pc = s.extent name := by
      simp only [takeUp, hblock, hname]
      rfl
    rw [if_pos hcurrent, hpc]
  · rw [if_neg hcurrent]

theorem extent_advance (s : State) (bytes : Int) :
    (s.advance bytes).extent name =
      s.extent name + if isCurrent name s || isLoading name s then bytes else 0 := by
  by_cases hl : s.load.map Section.name = some name
  · obtain ⟨block, hblock, _⟩ := Option.map_eq_some_iff.mp hl
    have hpc : (s.advance bytes).loadPc = s.loadPc + bytes := by simp [advance, hblock]
    rw [extent_of_load (s := s.advance bytes) hl, extent_of_load hl, hpc]
    simp [isLoading, hl]
  · by_cases hc : s.current.map Section.name = some name
    · rw [extent_of_current (s := s.advance bytes) hc hl, extent_of_current hc hl]
      simp [isCurrent, hc, advance]
    · rw [extent_of_neither (s := s.advance bytes) hc hl, extent_of_neither hc hl]
      simp [isCurrent, isLoading, hc, hl, advance, noted]

end

/-! ## Bytes along a run -/

/-- The bytes that a run counts in the states that pass a test. -/
def counted (p : State → Bool) : State → List Operation → Int
  | _, [] => 0
  | s, op :: rest => (if p s then op.bytes else 0) + counted p (s.after op) rest

/-- The bytes of a load section that an operation puts back: those by which the section has got
further than it was when the context that is taken up again was put aside. -/
def putBack (name : String) (s : State) : Operation → Int
  | .popSection =>
    match s.stack with
    | context :: _ =>
      if context.load.map Section.name = some name then s.extent name - context.loadPc else 0
    | [] => 0
  | _ => 0

/-- The bytes of a load section that a run puts back. -/
def putBackIn (name : String) : State → List Operation → Int
  | _, [] => 0
  | s, op :: rest => putBack name s op + putBackIn name (s.after op) rest

/-- How an operation changes the extent of a section. -/
theorem extent_step {s s' : State} {op : Operation} (h : Step s op s') (hs : Orderly s)
    (hs' : Orderly s') (name : String) :
    s'.extent name = s.extent name
      + (if isCurrent name s || isLoading name s then op.bytes else 0) - putBack name s op := by
  cases h with
  | aside same advances pops =>
    have hbytes : op.bytes = 0 := by
      cases op with
      | advance bytes => exact absurd rfl (advances bytes)
      | _ => rfl
    have hback : putBack name s op = 0 := by
      cases op <;> simp [putBack, pops]
    simp [extent_sameSections name same, hbytes, hback]
  | @enterSection block t closed registered =>
    have hclosed : t.load = none := registered.load_eq.trans closed
    rw [extent_goOnWith name hclosed, extent_registers name registered]
    simp [Operation.bytes, putBack]
  | @enterLoad block t closed registered =>
    have hclosed : t.load = none := registered.load_eq.trans closed
    -- the state after the step is in order, so the block is not the current section
    have hne : t.current.map Section.name ≠ some block.name :=
      fun hcurrent => hs'.here.name_ne hcurrent rfl
    rw [extent_openLoad name hclosed hne, extent_registers name registered]
    simp [Operation.bytes, putBack]
  | @endLoad load opened =>
    have hne : s.current.map Section.name ≠ some load.name :=
      fun hcurrent => hs.here.name_ne hcurrent (by rw [opened]; rfl)
    rw [extent_closeLoad name opened hne]
    simp [Operation.bytes, putBack]
  | pushSection =>
    rw [extent_pushSection]
    simp [Operation.bytes, putBack]
  | @popSection context rest top =>
    rw [extent_takeUp]
    by_cases hload : context.load.map Section.name = some name
    · simp only [Operation.bytes, putBack, top, hload, if_true, ite_self]
      omega
    · simp [Operation.bytes, putBack, top, hload]
  | advance bytes =>
    rw [extent_advance]
    simp [Operation.bytes, putBack]
  | sectionSize other =>
    rw [extent_saveSizes]
    simp [Operation.bytes, putBack]

/-! ## Ordinary and load sections -/

/-- A name that is registered is registered with the given flag. -/
def Flagged (s : State) (name : String) (flag : Bool) : Prop :=
  ∀ block, s.sections.get? name = some block → block.load = flag

section

variable {s : State} {name : String}

theorem flagged_of_run {ops : List Operation} {block : Section}
    (h : (s.run ops).sections.get? name = some block) : Flagged s name block.load := by
  intro b hb
  rw [section_persists_run s ops hb] at h
  cases h
  rfl

theorem InOrder.load_ne {current load : Option Section} (h : InOrder s.sections current load)
    (hname : Flagged s name false) : load.map Section.name ≠ some name := by
  intro hload
  obtain ⟨block, hblock, rfl⟩ := Option.map_eq_some_iff.mp hload
  obtain ⟨hget, hflag⟩ := h.load block hblock
  rw [hname block hget] at hflag
  cases hflag

theorem InOrder.current_ne {current load : Option Section} (h : InOrder s.sections current load)
    (hname : Flagged s name true) : current.map Section.name ≠ some name := by
  intro hcurrent
  obtain ⟨block, hblock, rfl⟩ := Option.map_eq_some_iff.mp hcurrent
  obtain ⟨hget, hflag⟩ := h.current block hblock
  rw [hname block hget] at hflag
  cases hflag

theorem putBack_ordinary (hs : Orderly s) (hname : Flagged s name false) (op : Operation) :
    putBack name s op = 0 := by
  cases op with
  | popSection =>
    cases hstack : s.stack with
    | nil => simp [putBack, hstack]
    | cons context rest =>
      have hcontext : context ∈ s.stack := hstack ▸ List.mem_cons_self
      simp [putBack, hstack, (hs.aside context hcontext).load_ne hname]
  | _ => rfl

end

section

variable {s : State} {ops : List Operation} {name : String} {block : Section}

theorem extent_run_ordinary (hs : Orderly s) (hfit : ∀ op ∈ ops, op.fitting)
    (hblock : (s.run ops).sections.get? name = some block) (hflag : block.load = false) :
    (s.run ops).extent name = s.extent name + counted (isCurrent name) s ops := by
  induction ops generalizing s with
  | nil => simp [run, counted]
  | cons op rest ih =>
    have hop := step_after s op
    obtain ⟨hnext, hrest⟩ := orderly_cons hs hfit
    -- the name is ordinary at the end of the run, so it is nowhere open as a load block
    have hname : Flagged s name false := hflag ▸ flagged_of_run hblock
    have hload : isLoading name s = false := by
      simpa [isLoading] using hs.here.load_ne hname
    have hstep := extent_step hop hs hnext name
    rw [putBack_ordinary hs hname, hload, Bool.or_false] at hstep
    have hrun := ih hnext hrest hblock
    show ((s.after op).run rest).extent name = _
    rw [hrun, hstep, counted]
    omega

theorem extent_run_load (hs : Orderly s) (hfit : ∀ op ∈ ops, op.fitting)
    (hblock : (s.run ops).sections.get? name = some block) (hflag : block.load = true) :
    (s.run ops).extent name =
      s.extent name + counted (isLoading name) s ops - putBackIn name s ops := by
  induction ops generalizing s with
  | nil => simp [run, counted, putBackIn]
  | cons op rest ih =>
    have hop := step_after s op
    obtain ⟨hnext, hrest⟩ := orderly_cons hs hfit
    have hname : Flagged s name true := hflag ▸ flagged_of_run hblock
    have hcurrent : isCurrent name s = false := by
      simpa [isCurrent] using hs.here.current_ne hname
    have hstep := extent_step hop hs hnext name
    rw [hcurrent, Bool.false_or] at hstep
    have hrun := ih hnext hrest hblock
    show ((s.after op).run rest).extent name = _
    rw [hrun, hstep, counted, putBackIn]
    omega

end

theorem extent_fresh (exportAll : Bool) (name : String) : (fresh exportAll).extent name = 0 := rfl

/-- No byte of an ordinary section is lost or counted twice: after every run, the size of the
section is the sum of the bytes counted while it was current. A label that is taken while the
section is current and no load block is open is bound to that sum, and it is taken whenever its name
admits it. -/
theorem section_bytes (exportAll : Bool) (ops : List Operation) (hfit : ∀ op ∈ ops, op.fitting)
    (name : String) (block : Section)
    (hblock : ((fresh exportAll).run ops).sections.get? name = some block)
    (hordinary : block.load = false) :
    let s := (fresh exportAll).run ops
    let bytes := counted (isCurrent name) (fresh exportAll) ops
    (s.sectionSize name).1 = bytes ∧
      (isCurrent name s → s.load = none →
        ∀ spelling exported location,
          ((∃ r, s.defineLabel spelling exported location = .ok r) ↔
            ∃ full, s.qualify spelling = .ok full ∧ s.admits full .label) ∧
          ∀ symbol s', s.defineLabel spelling exported location = .ok (symbol, s') →
            s.qualify spelling = .ok symbol.name ∧ symbol.kind = .label ∧
              symbol.value = .number bytes ∧ symbol.placed = some name ∧
              s'.lookup symbol.name = some symbol) := by
  intro s bytes
  have hsize : s.extent name = bytes := by
    have hrun := extent_run_ordinary (orderly_fresh exportAll) hfit hblock hordinary
    rw [extent_fresh, Int.zero_add] at hrun
    exact hrun
  refine ⟨hsize, ?_⟩
  intro hcurrent hclosed spelling exported location
  refine ⟨defineLabel_isOk_iff, ?_⟩
  intro symbol s' hdefine
  obtain ⟨full, hfull, hsymbol, hlookup⟩ := defineLabel_bound hdefine
  have hname : s.current.map Section.name = some name := by simpa [isCurrent] using hcurrent
  -- in the current section the size is the position that labels are bound to
  have hpc : s.pc = bytes := by
    rw [← hsize, extent_of_current hname (by simp [hclosed])]
  rw [hsymbol] at hlookup ⊢
  refine ⟨hfull, rfl, ?_, ?_, hlookup⟩
  · simp [labelHere, hclosed, hpc]
  · simp [labelHere, hclosed, hname]

/-- A section that is entered again while it is current in a context put aside, and holds a load
block besides, has all its bytes counted once. -/
theorem section_bytes_reentered :
    let code : Section := ⟨"Code", .rom0, none, none, none, false⟩
    let fast : Section := ⟨"Fast", .hram, none, none, none, true⟩
    let ops : List Operation := [.enterSection code, .advance 5, .enterLoad fast, .pushSection,
      .enterSection code, .advance 2, .popSection, .advance 3, .endLoad]
    let s := (fresh false).run ops
    (∀ op ∈ ops, op.fitting) ∧ s.sections.get? "Code" = some code ∧ (s.sectionSize "Code").1 = 10 ∧
      isCurrent "Code" s ∧ s.load = none ∧
      ∃ symbol s', s.defineLabel "here" false none = .ok (symbol, s') ∧
        symbol.value = .number 10 := by
  intro code fast ops s
  have hfit : ∀ op ∈ ops, op.fitting := by decide
  have hblock : s.sections.get? "Code" = some code := by decide
  have hcurrent : isCurrent "Code" s := by decide
  have hclosed : s.load = none := by decide
  have hbytes : counted (isCurrent "Code") (fresh false) ops = 10 := by decide
  obtain ⟨hsize, hlabel⟩ := section_bytes false ops hfit "Code" code hblock rfl
  obtain ⟨htaken, hbound⟩ := hlabel hcurrent hclosed "here" false none
  obtain ⟨⟨symbol, s'⟩, hdefine⟩ := htaken.mpr ⟨"here", rfl, by decide⟩
  obtain ⟨_, _, hvalue, _⟩ := hbound symbol s' hdefine
  rw [hbytes] at hsize hvalue
  exact ⟨hfit, hblock, hsize, hcurrent, hclosed, symbol, s', hdefine, hvalue⟩

/-! ## Load blocks opened again -/

/-- An operation opens a load section that is open in a context put aside. -/
def reopens (name : String) (s : State) : Operation → Bool
  | .enterLoad block =>
    block.name = name && s.stack.any fun context => context.load.map Section.name = some name
  | _ => false

/-- Along a run a load section is never opened while it is open in a context put aside. -/
def neverReopened (name : String) : State → List Operation → Bool
  | _, [] => true
  | s, op :: rest => !reopens name s op && neverReopened name (s.after op) rest

/-- The number of times that a load section is open, here and in the contexts put aside. -/
def openings (name : String) (s : State) : Nat :=
  (if isLoading name s then 1 else 0)
    + s.stack.countP fun context => context.load.map Section.name = some name

/-- A load section is open once at most, and where it is open in a context put aside, the context
knows how far the section has got. -/
structure OpenOnce (name : String) (s : State) : Prop where
  once : openings name s ≤ 1
  known : ∀ context ∈ s.stack, context.load.map Section.name = some name →
    context.loadPc = s.extent name

section

variable {s s' : State} {op : Operation} {name : String}

theorem openOnce_fresh (exportAll : Bool) (name : String) : OpenOnce name (fresh exportAll) := by
  constructor
  · simp [openings, isLoading, fresh]
  · intro context h
    cases h

theorem putBack_of_openOnce (h : OpenOnce name s) (op : Operation) : putBack name s op = 0 := by
  cases op with
  | popSection =>
    cases hstack : s.stack with
    | nil => simp [putBack, hstack]
    | cons context rest =>
      by_cases hload : context.load.map Section.name = some name
      · have hknown := h.known context (hstack ▸ List.mem_cons_self) hload
        simp [putBack, hstack, hload, hknown]
      · simp [putBack, hstack, hload]
  | _ => rfl

theorem OpenOnce.of_same (h : OpenOnce name s) (hstack : s'.stack = s.stack)
    (hload : isLoading name s' → isLoading name s) (hext : s'.extent name = s.extent name) :
    OpenOnce name s' := by
  constructor
  · have honce := h.once
    unfold openings at honce ⊢
    rw [hstack]
    by_cases hl : isLoading name s'
    · rw [if_pos (hload hl)] at honce
      rw [if_pos hl]
      exact honce
    · rw [if_neg hl]
      omega
  · intro context hcontext hname
    rw [hext]
    exact h.known context (hstack ▸ hcontext) hname

theorem OpenOnce.not_aside (h : OpenOnce name s) (hload : isLoading name s) :
    ∀ context ∈ s.stack, context.load.map Section.name ≠ some name := by
  have honce := h.once
  unfold openings at honce
  rw [if_pos hload] at honce
  have hzero : (s.stack.countP fun context => context.load.map Section.name = some name) = 0 := by
    omega
  simpa using List.countP_eq_zero.mp hzero

theorem OpenOnce.of_not_aside
    (h : ∀ context ∈ s.stack, context.load.map Section.name ≠ some name) : OpenOnce name s := by
  have hzero : (s.stack.countP fun context => context.load.map Section.name = some name) = 0 :=
    List.countP_eq_zero.mpr (by simpa using h)
  constructor
  · unfold openings
    rw [hzero]
    split <;> omega
  · intro context hcontext hload
    exact absurd hload (h context hcontext)

theorem OpenOnce.pushSection (h : OpenOnce name s) : OpenOnce name s.pushSection := by
  constructor
  · have honce := h.once
    by_cases hload : s.load.map Section.name = some name
    · simp only [openings, State.pushSection, isLoading, saveSizes, List.countP_cons, hload,
        Option.map_none, reduceCtorEq, decide_false, decide_true, ↓reduceIte] at honce ⊢
      omega
    · simp only [openings, State.pushSection, isLoading, saveSizes, List.countP_cons, hload,
        Option.map_none, reduceCtorEq, decide_false, ↓reduceIte] at honce ⊢
      omega
  · intro context hcontext hload
    rw [extent_pushSection]
    rcases List.mem_cons.mp hcontext with rfl | hmem
    · exact (extent_of_load (s := s) hload).symm
    · exact h.known context hmem hload

theorem OpenOnce.takeUp {context : Context} {rest : List Context} (h : OpenOnce name s)
    (top : s.stack = context :: rest) : OpenOnce name (s.takeUp context rest) := by
  have hsame : (s.takeUp context rest).extent name = s.extent name := by
    rw [extent_takeUp]
    split
    · next hload => exact h.known context (top ▸ List.mem_cons_self) hload
    · rfl
  constructor
  · have honce := h.once
    by_cases hcontext : context.load.map Section.name = some name
    · simp only [openings, State.takeUp, isLoading, top, List.countP_cons, hcontext] at honce ⊢
      omega
    · simp only [openings, State.takeUp, isLoading, top, List.countP_cons, hcontext] at honce ⊢
      omega
  · intro c hc hload
    rw [hsame]
    exact h.known c (top ▸ List.mem_cons_of_mem _ hc) hload

/-- A section that is not reopened is open once. -/
theorem openOnce_step (h : Step s op s') (hs : Orderly s) (hs' : Orderly s')
    (hname : Flagged s name true) (hnot : reopens name s op = false) (hopen : OpenOnce name s) :
    OpenOnce name s' := by
  have hcurrent : isCurrent name s = false := by
    simpa [isCurrent] using hs.here.current_ne hname
  have hext := extent_step h hs hs' name
  rw [putBack_of_openOnce hopen, hcurrent, Bool.false_or] at hext
  cases h with
  | aside same advances pops =>
    refine hopen.of_same (by rw [same]) ?_ (extent_sameSections name same)
    rw [same]
    exact id
  | @enterSection block t closed registered =>
    refine hopen.of_same registered.stack_eq ?_ (by simpa [Operation.bytes] using hext)
    intro hload
    simp [isLoading, goOnWith, saveSizes, registered.load_eq, closed] at hload
  | @enterLoad block t closed registered =>
    by_cases hblock : block.name = name
    · -- the section is opened here, so it must be open in no context put aside
      apply OpenOnce.of_not_aside
      show ∀ context ∈ t.stack, context.load.map Section.name ≠ some name
      rw [registered.stack_eq]
      simpa [reopens, hblock] using hnot
    · refine hopen.of_same registered.stack_eq ?_ (by simpa [Operation.bytes] using hext)
      intro hload
      simp [isLoading, openLoad, hblock] at hload
  | @endLoad load opened =>
    refine hopen.of_same rfl ?_ (by simpa [Operation.bytes] using hext)
    intro hload
    simp [isLoading, closeLoad] at hload
  | pushSection => exact hopen.pushSection
  | popSection top => exact hopen.takeUp top
  | advance bytes =>
    by_cases hload : isLoading name s
    · -- only the section moves, and no context put aside has a position of it
      exact .of_not_aside (hopen.not_aside hload)
    · refine hopen.of_same rfl id ?_
      simpa [hload] using hext
  | sectionSize other => exact hopen.of_same rfl id (extent_saveSizes name s)

theorem putBackIn_of_neverReopened {ops : List Operation} {block : Section} (hs : Orderly s)
    (hfit : ∀ op ∈ ops, op.fitting) (hblock : (s.run ops).sections.get? name = some block)
    (hflag : block.load = true) (hopen : OpenOnce name s) (hnever : neverReopened name s ops) :
    putBackIn name s ops = 0 := by
  induction ops generalizing s with
  | nil => rfl
  | cons op rest ih =>
    have hop := step_after s op
    obtain ⟨hnext, hrest⟩ := orderly_cons hs hfit
    have hname : Flagged s name true := hflag ▸ flagged_of_run hblock
    simp only [neverReopened, Bool.and_eq_true, Bool.not_eq_true'] at hnever
    have hopen' := openOnce_step hop hs hnext hname hnever.1 hopen
    rw [putBackIn, putBack_of_openOnce hopen, ih hnext hrest hblock hopen' hnever.2]
    rfl

end

/-- After every run, the size of a load section is the sum of the bytes counted while it was open,
less the bytes put back when contexts were taken up again. These come to nothing along every run
that never opens the section while it is open in a context put aside. -/
theorem load_section_bytes (exportAll : Bool) (ops : List Operation) (hfit : ∀ op ∈ ops, op.fitting)
    (name : String) (block : Section)
    (hblock : ((fresh exportAll).run ops).sections.get? name = some block)
    (hload : block.load = true) :
    let s := (fresh exportAll).run ops
    let bytes := counted (isLoading name) (fresh exportAll) ops
    let back := putBackIn name (fresh exportAll) ops
    (s.sectionSize name).1 = bytes - back ∧
      (isLoading name s → s.loadPc = bytes - back) ∧
      ((s.sectionSize name).1 = bytes ↔ back = 0) ∧
      (neverReopened name (fresh exportAll) ops → back = 0) := by
  intro s bytes back
  have hsize : s.extent name = bytes - back := by
    have hrun := extent_run_load (orderly_fresh exportAll) hfit hblock hload
    rw [extent_fresh, Int.zero_add] at hrun
    exact hrun
  refine ⟨hsize, ?_, ?_, ?_⟩
  · intro hopen
    rw [← hsize, extent_of_load (by simpa [isLoading] using hopen)]
  · show s.extent name = bytes ↔ back = 0
    omega
  · intro hnever
    exact putBackIn_of_neverReopened (orderly_fresh exportAll) hfit hblock hload
      (openOnce_fresh exportAll name) hnever

/-- A load block that is taken up again where it was put aside keeps all its bytes. -/
theorem load_section_bytes_put_aside :
    let code : Section := ⟨"Code", .rom0, none, none, none, false⟩
    let fast : Section := ⟨"Fast", .hram, none, none, none, true⟩
    let ops : List Operation := [.enterSection code, .enterLoad fast, .advance 5, .pushSection,
      .enterSection code, .advance 3, .popSection, .advance 2]
    let s := (fresh false).run ops
    (∀ op ∈ ops, op.fitting) ∧ s.sections.get? "Fast" = some fast ∧
      neverReopened "Fast" (fresh false) ops ∧ (s.sectionSize "Fast").1 = 7 ∧
      isLoading "Fast" s ∧ s.loadPc = 7 := by
  intro code fast ops s
  have hfit : ∀ op ∈ ops, op.fitting := by decide
  have hblock : s.sections.get? "Fast" = some fast := by decide
  have hnever : neverReopened "Fast" (fresh false) ops := by decide
  have hopen : isLoading "Fast" s := by decide
  have hbytes : counted (isLoading "Fast") (fresh false) ops = 7 := by decide
  obtain ⟨hsize, hpc, _, hback⟩ := load_section_bytes false ops hfit "Fast" fast hblock rfl
  rw [hbytes, hback hnever, Int.sub_zero] at hsize hpc
  exact ⟨hfit, hblock, hnever, hsize, hopen, hpc hopen⟩

/-- A load section that is opened again while it is open in a context put aside loses what it was
given there: eight bytes are counted in it, and it has got to five. -/
theorem load_section_bytes_reopened :
    let code : Section := ⟨"Code", .rom0, none, none, none, false⟩
    let data : Section := ⟨"Data", .rom0, none, none, none, false⟩
    let fast : Section := ⟨"Fast", .hram, none, none, none, true⟩
    let ops : List Operation := [.enterSection code, .enterLoad fast, .advance 5, .pushSection,
      .enterSection data, .enterLoad fast, .advance 3, .endLoad, .popSection]
    let s := (fresh false).run ops
    (∀ op ∈ ops, op.fitting) ∧ s.sections.get? "Fast" = some fast ∧ isLoading "Fast" s ∧
      counted (isLoading "Fast") (fresh false) ops = 8 ∧ (s.sectionSize "Fast").1 = 5 ∧
      s.loadPc = 5 := by
  decide

end State

end Sm83
