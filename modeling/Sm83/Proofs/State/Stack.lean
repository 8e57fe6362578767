import Sm83.Proofs.State.Bytes
import Sm83.Proofs.State.Sections

/-!
# Contexts put aside and taken up again

A section context is put aside and taken up again like a bracket around what is done in between.
What is done there may put aside contexts of its own, as long as it takes up no more than it has put
aside: then the context taken up at the end is the one put aside at the start. Its section goes on
behind whatever it was given in between.
-/

namespace Sm83

namespace Operation

/-- Where `depth` contexts have been put aside before, the operations never take up more than there
are. -/
def Nested (depth : Nat) (ops : List Operation) : Prop :=
  ∀ n, (ops.take n).count .popSection ≤ depth + (ops.take n).count .pushSection

/-- The operations take up as many contexts as they put aside, and at no time more. -/
structure Balanced (ops : List Operation) : Prop where
  nested : ∀ n, (ops.take n).count .popSection ≤ (ops.take n).count .pushSection
  closed : ops.count .popSection = ops.count .pushSection

instance (ops : List Operation) : Decidable (Balanced ops) :=
  decidable_of_iff
    ((∀ n < ops.length + 1, (ops.take n).count .popSection ≤ (ops.take n).count .pushSection) ∧
      ops.count .popSection = ops.count .pushSection) <| by
    constructor
    · rintro ⟨hnested, hclosed⟩
      refine ⟨fun n => ?_, hclosed⟩
      by_cases hn : n < ops.length + 1
      · exact hnested n hn
      · -- beyond the end all operations are taken
        rw [List.take_of_length_le (by omega)]
        exact Nat.le_of_eq hclosed
    · rintro ⟨hnested, hclosed⟩
      exact ⟨fun n _ => hnested n, hclosed⟩

variable {depth : Nat} {op : Operation} {rest : List Operation}

theorem Balanced.nested_zero {ops : List Operation} (h : Balanced ops) : Nested 0 ops := by
  intro n
  have hn := h.nested n
  omega

theorem Nested.of_push (h : Nested depth (.pushSection :: rest)) : Nested (depth + 1) rest := by
  intro n
  have hn := h (n + 1)
  simp only [List.take_succ_cons, List.count_cons] at hn
  simp at hn
  omega

theorem Nested.of_pop (h : Nested depth (.popSection :: rest)) :
    ∃ d, depth = d + 1 ∧ Nested d rest := by
  have hfirst := h 1
  simp only [List.take_succ_cons, List.take_zero, List.count_cons] at hfirst
  simp at hfirst
  refine ⟨depth - 1, by omega, ?_⟩
  intro n
  have hn := h (n + 1)
  simp only [List.take_succ_cons, List.count_cons] at hn
  simp at hn
  omega

theorem Nested.of_other (hpush : op ≠ .pushSection) (hpop : op ≠ .popSection)
    (h : Nested depth (op :: rest)) : Nested depth rest := by
  intro n
  have hn := h (n + 1)
  rw [List.take_succ_cons, List.count_cons_of_ne hpush, List.count_cons_of_ne hpop] at hn
  exact hn

end Operation

namespace State

variable {s s' : State} {op : Operation} {ops : List Operation} {context : Context}
  {rest : List Context}

theorem popSection_of_cons (h : s.stack = context :: rest) :
    s.popSection = .ok (s.takeUp context rest) := by
  unfold popSection
  rw [h]
  rfl

theorem pc_takeUp_some {block : Section} (h : context.current = some block) :
    (s.takeUp context rest).pc = s.saveSizes.noted block.name := by
  simp only [takeUp, h]

theorem pc_takeUp_none (h : context.current = none) : (s.takeUp context rest).pc = context.pc := by
  simp only [takeUp, h]

theorem stack_step (h : Step s op s') (hpush : op ≠ .pushSection) (hpop : op ≠ .popSection) :
    s'.stack = s.stack := by
  cases h with
  | aside same _ _ => rw [same]
  | enterSection _ registered => exact registered.stack_eq
  | enterLoad _ registered _ => exact registered.stack_eq
  | pushSection => exact absurd rfl hpush
  | popSection _ => exact absurd rfl hpop
  | _ => rfl

/-- Operations that never take up more contexts than have been put aside above a base leave the base
alone. -/
theorem stack_run {inner base : List Context} (hstack : s.stack = inner ++ base)
    (h : Operation.Nested inner.length ops) :
    ∃ inner', (s.run ops).stack = inner' ++ base ∧
      inner'.length + ops.count .popSection = inner.length + ops.count .pushSection := by
  induction ops generalizing s inner with
  | nil => exact ⟨inner, hstack, by simp⟩
  | cons op rest ih =>
    by_cases hpush : op = .pushSection
    · subst hpush
      have hnext : (s.after .pushSection).stack = (s.context :: inner) ++ base := by
        show s.context :: s.stack = _
        rw [hstack]
        rfl
      obtain ⟨inner', hrun, hlength⟩ := ih hnext h.of_push
      refine ⟨inner', hrun, ?_⟩
      simp only [List.length_cons, List.count_cons] at hlength ⊢
      simp
      omega
    · by_cases hpop : op = .popSection
      · subst hpop
        -- the context taken up is one of those above the base
        obtain ⟨depth, hdepth, hrest⟩ := h.of_pop
        cases inner with
        | nil => cases hdepth
        | cons context inner =>
          have hnext : (s.after .popSection).stack = inner ++ base := by
            simp only [after, perform, popSection_of_cons hstack]
            rfl
          cases hdepth
          obtain ⟨inner', hrun, hlength⟩ := ih hnext hrest
          refine ⟨inner', hrun, ?_⟩
          simp only [List.length_cons, List.count_cons] at hlength ⊢
          simp
          omega
      · have hnext : (s.after op).stack = inner ++ base := by
          rw [stack_step (step_after s op) hpush hpop, hstack]
        obtain ⟨inner', hrun, hlength⟩ := ih hnext (h.of_other hpush hpop)
        refine ⟨inner', hrun, ?_⟩
        rw [List.count_cons_of_ne hpush, List.count_cons_of_ne hpop]
        exact hlength

/-- At no time of a run is the section open as a load block. -/
def NeverLoading (name : String) (s : State) (ops : List Operation) : Prop :=
  ∀ n, isLoading name (s.run (ops.take n)) = false

variable {name : String}

theorem NeverLoading.cons {rest : List Operation} (h : NeverLoading name s (op :: rest)) :
    isLoading name s = false ∧ NeverLoading name (s.after op) rest :=
  ⟨h 0, fun n => h (n + 1)⟩

/-- The extent of a section that is no load block. -/
theorem extent_step_unloaded (h : Step s op s') (hs : isLoading name s = false)
    (hs' : isLoading name s' = false) :
    s'.extent name = s.extent name + if isCurrent name s then op.bytes else 0 := by
  cases h with
  | aside same advances pops =>
    have hbytes : op.bytes = 0 := by
      cases op with
      | advance bytes => exact absurd rfl (advances bytes)
      | _ => rfl
    simp [extent_sameSections name same, hbytes]
  | @enterSection block t closed registered =>
    have hclosed : t.load = none := registered.load_eq.trans closed
    rw [extent_goOnWith name hclosed, extent_registers name registered]
    simp [Operation.bytes]
  | @enterLoad block t closed registered _ =>
    have hclosed : t.load = none := registered.load_eq.trans closed
    have hname : block.name ≠ name := by simpa [isLoading, openLoad] using hs'
    rw [extent_openLoad_of_ne name hclosed hname, extent_registers name registered]
    simp [Operation.bytes]
  | @endLoad load opened =>
    have hname : load.name ≠ name := by simpa [isLoading, opened] using hs
    rw [extent_closeLoad_of_ne name opened hname]
    simp [Operation.bytes]
  | pushSection =>
    rw [extent_pushSection]
    simp [Operation.bytes]
  | @popSection context rest top =>
    -- the context taken up may have another load block open, but not this one
    have hload : context.load.map Section.name ≠ some name := by
      simpa [isLoading, takeUp] using hs'
    rw [extent_takeUp, if_neg hload]
    simp [Operation.bytes]
  | advance bytes =>
    rw [extent_advance, hs, Bool.or_false]
    rfl
  | sectionSize other =>
    rw [extent_saveSizes]
    simp [Operation.bytes]

theorem extent_run_unloaded (h : NeverLoading name s ops) :
    (s.run ops).extent name = s.extent name + counted (isCurrent name) s ops := by
  induction ops generalizing s with
  | nil => simp [run, counted]
  | cons op rest ih =>
    obtain ⟨hs, hrest⟩ := h.cons
    have hstep := extent_step_unloaded (step_after s op) hs (hrest 0)
    have hrun := ih hrest
    show ((s.after op).run rest).extent name = _
    rw [hrun, hstep, counted]
    omega

theorem neverLoading_of_fitting (hs : Orderly s) (hfit : ∀ op ∈ ops, op.fitting) {block : Section}
    (hcurrent : s.current = some block) : NeverLoading block.name s ops := by
  intro n
  have hfitting : ∀ op ∈ ops.take n, op.fitting := fun op hop => hfit op (List.mem_of_mem_take hop)
  have horderly := orderly_run hs hfitting
  obtain ⟨hget, hflag⟩ := hs.here.current block hcurrent
  -- the section stays registered as an ordinary one
  have hname : Flagged (s.run (ops.take n)) block.name false := by
    intro b hb
    rw [section_persists_run s (ops.take n) hget] at hb
    cases hb
    exact hflag
  simpa [isLoading] using horderly.here.load_ne hname

theorem popSection_of_balanced (hbalanced : Operation.Balanced ops) :
    (s.pushSection.run ops).popSection =
      .ok ((s.pushSection.run ops).takeUp s.context s.stack) := by
  have hstack : s.pushSection.stack = [] ++ (s.context :: s.stack) := rfl
  obtain ⟨inner, hrun, hlength⟩ := stack_run hstack hbalanced.nested_zero
  have hinner : inner = [] := by
    rw [hbalanced.closed] at hlength
    exact List.eq_nil_of_length_eq_zero (by simpa using hlength)
  subst hinner
  exact popSection_of_cons hrun

/-- Putting a context aside, balanced operations, and taking a context up again leave the section,
the load block and the contexts put aside as they were. The position in a section has moved on by
the bytes counted in between while it was current, provided it is at no time open as a load block.
-/
theorem context_restored (exportAll : Bool) (before ops : List Operation)
    (hbalanced : Operation.Balanced ops) :
    let s := (fresh exportAll).run before
    ∃ s', (s.pushSection.run ops).popSection = .ok s' ∧
      s'.current = s.current ∧ s'.load = s.load ∧ s'.stack = s.stack ∧
      (s.current = none → s'.pc = s.pc) ∧
      ∀ block, s.current = some block →
        (NeverLoading block.name s (.pushSection :: ops) →
          s'.pc = s.pc + counted (isCurrent block.name) s.pushSection ops) ∧
        ((∀ op ∈ before ++ ops, op.fitting) → NeverLoading block.name s (.pushSection :: ops)) := by
  intro s
  refine ⟨_, popSection_of_balanced hbalanced, rfl, rfl, rfl, ?_, ?_⟩
  · intro hcurrent
    exact pc_takeUp_none hcurrent
  · intro block hcurrent
    constructor
    · intro hnever
      obtain ⟨hs, hrest⟩ := hnever.cons
      have hname : s.current.map Section.name = some block.name := by rw [hcurrent]; rfl
      have hload : s.load.map Section.name ≠ some block.name := by simpa [isLoading] using hs
      -- the position is looked up again, and has moved with the section
      have hpc : ((s.pushSection.run ops).takeUp s.context s.stack).pc =
          (s.pushSection.run ops).extent block.name := by
        rw [pc_takeUp_some hcurrent]
        rfl
      have hstart : s.pushSection.extent block.name = s.pc := by
        rw [extent_pushSection, extent_of_current hname hload]
      have hrun : (s.pushSection.run ops).extent block.name =
          s.pushSection.extent block.name + counted (isCurrent block.name) s.pushSection ops :=
        extent_run_unloaded hrest
      rw [hpc, hrun, hstart]
    · intro hfit
      obtain ⟨hbefore, hops⟩ := List.forall_mem_append.mp hfit
      have horderly : Orderly s := orderly_run (orderly_fresh exportAll) hbefore
      exact neverLoading_of_fitting horderly (List.forall_mem_cons.mpr ⟨rfl, hops⟩) hcurrent

/-- A section with a load block open in it is put aside, and what is done in between enters it
twice, once inside a bracket of its own: it goes on behind the seven bytes that it was given there.
-/
theorem context_restored_reentered :
    let code : Section := ⟨"Code", .rom0, none, none, none, false⟩
    let data : Section := ⟨"Data", .rom0, none, none, none, false⟩
    let fast : Section := ⟨"Fast", .hram, none, none, none, true⟩
    let before : List Operation := [.enterSection code, .advance 5, .enterLoad fast, .advance 1]
    let ops : List Operation := [.enterSection data, .advance 2, .pushSection, .enterSection code,
      .advance 4, .popSection, .enterSection code, .advance 3]
    let s := (fresh false).run before
    Operation.Balanced ops ∧ s.pc = 6 ∧
      ∃ s', (s.pushSection.run ops).popSection = .ok s' ∧ s'.current = some code ∧
        s'.load = some fast ∧ s'.stack = [] ∧ s'.pc = 13 := by
  intro code data fast before ops s
  have hbalanced : Operation.Balanced ops := by decide
  have hcurrent : s.current = some code := by decide
  have hload : s.load = some fast := by decide
  have hstack : s.stack = [] := by decide
  have hpc : s.pc = 6 := by decide
  have hbytes : counted (isCurrent "Code") s.pushSection ops = 7 := by decide
  have hfit : ∀ op ∈ before ++ ops, op.fitting := by decide
  obtain ⟨s', hpop, hsection, hblock, haside, _, hmoved⟩ :=
    context_restored false before ops hbalanced
  obtain ⟨hmoves, hnever⟩ := hmoved code hcurrent
  refine ⟨hbalanced, hpc, s', hpop, hsection.trans hcurrent, hblock.trans hload,
    haside.trans hstack, ?_⟩
  have hbehind : s'.pc = s.pc + counted (isCurrent "Code") s.pushSection ops := hmoves (hnever hfit)
  rw [hbehind, hpc, hbytes]
  rfl

/-- All operations of a run succeed. -/
def allSucceed : State → List Operation → Bool
  | _, [] => true
  | s, op :: rest =>
    match s.perform op with
    | .ok (_, s') => allSucceed s' rest
    | .error _ => false

/-- A section that is opened as a load block in between moves by the bytes counted there: none are
counted while it is current, and it has moved by three. -/
theorem context_restored_loaded :
    let code : Section := ⟨"Code", .rom0, none, none, none, true⟩
    let data : Section := ⟨"Data", .rom0, none, none, none, false⟩
    let before : List Operation := [.enterSection code, .advance 5]
    let ops : List Operation := [.enterSection data, .enterLoad code, .advance 3, .endLoad]
    let s := (fresh false).run before
    allSucceed (fresh false) (before ++ .pushSection :: ops ++ [.popSection]) ∧
      Operation.Balanced ops ∧ s.current = some code ∧ s.pc = 5 ∧
      counted (isCurrent "Code") s.pushSection ops = 0 ∧
      ∃ s', (s.pushSection.run ops).popSection = .ok s' ∧ s'.current = some code ∧ s'.pc = 8 := by
  intro code data before ops s
  refine ⟨by decide, by decide, by decide, by decide, by decide, _, rfl, by decide, by decide⟩

end State

end Sm83
