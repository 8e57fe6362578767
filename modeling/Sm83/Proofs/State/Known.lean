import Sm83.Proofs.Expr.Final
import Sm83.Proofs.Expr.Names
import Sm83.Proofs.State.Persistence

/-!
# Known values over a run

What a state knows of an expression, every later state of the run knows too, as long as none of the
names in it is a variable and none is purged. The value of a label never changes at all: a label has
a place in a section that was registered by the time the label was defined, and a section stays
registered as it is.
-/

namespace Sm83

theorem Expr.kept_of_names {r r' : Resolver} {e : Expr}
    (h : ∀ name ∈ e.symbols, ∀ v, r.value name = some v → r'.value name = some v)
    (hlegal : e.legal) (hsteady : e.steady) {v : Int} (hv : e.value r = .ok v) :
    e.value r' = .ok v := by
  classical
  -- a resolver between the two, which knows the names of the expression from the second
  let mixed : Resolver :=
    ⟨fun name => if name ∈ e.symbols then r'.value name else r.value name, r'.defined⟩
  have hextends : r.ExtendedBy mixed := by
    intro name v hname
    by_cases hmem : name ∈ e.symbols
    · simpa [mixed, hmem] using h name hmem v hname
    · simpa [mixed, hmem] using hname
  have hagree : Resolver.AgreeOn e.symbols mixed r' := by
    intro name hmem
    simp [mixed, hmem]
  rw [← (same_of_agreeOn hagree).number]
  exact (kept_of_extendedBy hextends hlegal hsteady).number v hv

namespace State

/-- The section and the load block of a context are registered. -/
def InUse (sections : Table Section) (current load : Option Section) : Prop :=
  ∀ block, current = some block ∨ load = some block → sections.get? block.name = some block

theorem InUse.mono {sections sections' : Table Section} {current load : Option Section}
    (h : InUse sections current load)
    (hkeeps : ∀ name b, sections.get? name = some b → sections'.get? name = some b) :
    InUse sections' current load := by
  intro block hblock
  exact hkeeps _ _ (h block hblock)

/-- The sections of a state and of the contexts put aside are registered, and so is the section that
a label stands in. -/
structure Grounded (s : State) : Prop where
  here : InUse s.sections s.current s.load
  aside : ∀ context ∈ s.stack, InUse s.sections context.current context.load
  labels : ∀ name x, s.lookup name = some x → x.kind = .label → ∀ placed, x.placed = some placed →
    ∃ block, s.sections.get? placed = some block

section

variable {s s' : State} {op : Operation} {name : String} {x : Symbol}

theorem grounded_fresh (exportAll : Bool) : Grounded (fresh exportAll) := by
  constructor
  · intro block h
    rcases h with h | h
    · cases h
    · cases h
  · intro context h
    cases h
  · -- the storage cursor is all there is, and no label
    refine Table.forall_insert (fun _ _ h => by cases h) ?_
    intro h
    cases h

theorem Registers.inUse {block : Section} {current load : Option Section}
    (h : Registers s block s') (hs : InUse s.sections s.current s.load)
    (hcurrent : current = s.current ∨ current = some block)
    (hload : load = s.load ∨ load = some block) : InUse s'.sections current load := by
  intro b hb
  have hcases : s.current = some b ∨ s.load = some b ∨ b = block := by grind
  rcases hcases with hb | hb | rfl
  · exact h.keeps _ _ (hs b (.inl hb))
  · exact h.keeps _ _ (hs b (.inr hb))
  · exact h.entered

/-- Sections in use stay registered. -/
theorem inUse_step (h : Step s op s') (hs : Grounded s) :
    InUse s'.sections s'.current s'.load ∧
      ∀ context ∈ s'.stack, InUse s'.sections context.current context.load := by
  cases h with
  | aside same _ _ =>
    rw [same]
    exact ⟨hs.here, hs.aside⟩
  -- the sections only grow, so what contexts put aside have open stays known
  | @enterSection block t closed registered =>
    refine ⟨registered.inUse hs.here (.inr rfl) (.inl registered.load_eq), ?_⟩
    intro context hcontext
    exact (hs.aside context (registered.stack_eq ▸ hcontext)).mono registered.keeps
  | @enterLoad block t closed registered =>
    refine ⟨registered.inUse hs.here (.inl registered.current_eq) (.inr rfl), ?_⟩
    intro context hcontext
    exact (hs.aside context (registered.stack_eq ▸ hcontext)).mono registered.keeps
  | endLoad opened =>
    refine ⟨?_, hs.aside⟩
    intro b hb
    rcases hb with hb | hb
    · exact hs.here b (.inl hb)
    · cases hb
  | pushSection =>
    constructor
    · intro b hb
      rcases hb with hb | hb
      · cases hb
      · cases hb
    · intro context hcontext
      rcases List.mem_cons.mp hcontext with rfl | hmem
      · exact hs.here
      · exact hs.aside context hmem
  | @popSection context rest top =>
    constructor
    · exact hs.aside context (top ▸ List.mem_cons_self)
    · intro c hc
      exact hs.aside c (top ▸ List.mem_cons_of_mem _ hc)
  | advance bytes => exact ⟨hs.here, hs.aside⟩
  | sectionSize name => exact ⟨hs.here, hs.aside⟩

theorem grounded_step (hstep : Step s op s') (hchange : Change s op s') (hs : Grounded s) :
    Grounded s' := by
  rcases inUse_step hstep hs with ⟨hhere, haside⟩
  refine ⟨hhere, haside, ?_⟩
  refine hchange.forall_lookup (P := fun _ x => x.kind = .label → ∀ placed, x.placed = some placed →
    ∃ block, s'.sections.get? placed = some block) ?_ ?_ ?_ ?_
  · intro name x hx hkind placed hplaced
    rcases hs.labels name x hx hkind placed hplaced with ⟨block, hblock⟩
    exact ⟨block, section_persists hstep hblock⟩
  · -- a new label stands in a section of the state before
    intro x _ hnew hkind placed hplaced
    rw [hnew hkind] at hplaced
    rcases Option.map_eq_some_iff.mp hplaced with ⟨block, hblock, rfl⟩
    have huse : s.current = some block ∨ s.load = some block := by
      cases hload : s.load with
      | none => exact .inl (by simpa [hload] using hblock)
      | some load => exact .inr (by simpa [hload] using hblock)
    exact ⟨block, section_persists hstep (hs.here block huse)⟩
  · intro name x v hset _ hkind
    cases hset.symm.trans hkind
  · intro name x hx
    exact hx

theorem grounded_run (hconsistent : Consistent s) (hs : Grounded s) (ops : List Operation) :
    Grounded (s.run ops) := by
  induction ops generalizing s with
  | nil => exact hs
  | cons op rest ih =>
    have hchange := change_after hconsistent.cursorVaries op
    exact ih (consistent_step hchange hconsistent) (grounded_step (step_after s op) hchange hs)

theorem Consistent.label_number (hs : Consistent s) (hx : s.lookup name = some x)
    (hkind : x.kind = .label) : ∃ n, x.value = .number n := by
  cases hvalue : x.value with
  | number n => exact ⟨n, rfl⟩
  | text t =>
    have hequs := (hs.sound name x hx).text.mp ⟨t, hvalue⟩
    cases hkind.symm.trans hequs

theorem lookupValue_label_outside (hs : Consistent s) (hx : s.lookup name = some x)
    (hkind : x.kind = .label) {n : Int} (hvalue : x.value = .number n) (hplaced : x.placed = none)
    (ops : List Operation) : (s.run ops).lookupValue name = some (.number n) := by
  rcases label_run hs hx hkind ops with ⟨y, hy, hylabel, hyvalue, hyplaced⟩
  simp [lookupValue, valueOf, hy, hylabel, hyvalue, hyplaced, hvalue, hplaced]

theorem lookupValue_label_run (hs : Consistent s) (hx : s.lookup name = some x)
    (hkind : x.kind = .label) {n : Int} (hvalue : x.value = .number n) {placed : String}
    (hplaced : x.placed = some placed) {block : Section}
    (hblock : s.sections.get? placed = some block) (ops : List Operation) :
    (s.run ops).lookupValue name =
      block.address.map fun a => .number (Word.wrap (a + n)) := by
  rcases label_run hs hx hkind ops with ⟨y, hy, hylabel, hyvalue, hyplaced⟩
  have hlater := section_persists_run s ops hblock
  simp [lookupValue, valueOf, address?, hy, hylabel, hyvalue, hyplaced, hvalue, hplaced, hlater,
    Option.map_map, Function.comp_def]

theorem lookupValue_run (hs : Consistent s) (hg : Grounded s)
    (hkind : ∀ x, s.lookup name = some x → x.kind ≠ .set) {ops : List Operation}
    (hkept : ¬ s.PurgedDuring ops name) {v : Value} (hv : s.lookupValue name = some v) :
    (s.run ops).lookupValue name = some v := by
  rcases Option.bind_eq_some_iff.mp hv with ⟨x, hx, hvalue⟩
  by_cases hlabel : x.kind = .label
  · rcases hs.label_number hx hlabel with ⟨n, hn⟩
    cases hplaced : x.placed with
    | none =>
      rw [← hv, lookupValue_label_outside hs hx hlabel hn hplaced ops]
      exact (lookupValue_label_outside hs hx hlabel hn hplaced []).symm
    | some placed =>
      rcases hg.labels name x hx hlabel placed hplaced with ⟨block, hblock⟩
      rw [← hv, lookupValue_label_run hs hx hlabel hn hplaced hblock ops]
      exact (lookupValue_label_run hs hx hlabel hn hplaced hblock []).symm
  · rcases settled_run hs hx (hkind x hx) ops with ⟨y, hy, hykind, hyvalue⟩ | hpurged
    · have hvalues : ∀ t : State, t.valueOf y = s.valueOf x := by
        intro t
        simp [valueOf, hykind, hyvalue, hlabel]
      rw [lookupValue, hy]
      exact (hvalues _).trans hvalue
    · exact absurd hpurged hkept

theorem PurgedDuring.exists_purge {ops : List Operation} (h : s.PurgedDuring ops name) :
    ∃ (t : State) (spelling : String), .purge spelling ∈ ops ∧ t.qualify spelling = .ok name := by
  rcases h with ⟨before, op, after, rfl, spelling, _, rfl, hname, _⟩
  exact ⟨s.run before, spelling, by simp, hname⟩

end

/-- However a run goes on, a known value of an expression stays known if no call in it asks what is
defined or constant and none of its names is a variable or purged on the way. A label is worth the
same whenever it is asked for. -/
theorem known_over_run (exportAll : Bool) (before ops : List Operation) :
    let s := (fresh exportAll).run before
    (∀ e : Expr, e.legal → e.steady →
      (∀ name ∈ e.symbols, (∀ x, s.lookup name = some x → x.kind ≠ .set) ∧
        ¬ s.PurgedDuring ops name) →
      ∀ v, e.value s.resolver = .ok v → e.value (s.run ops).resolver = .ok v) ∧
    (∀ name x, s.lookup name = some x → x.kind = .label → ∃ n, x.value = .number n ∧
      (x.placed = none → (s.run ops).lookupValue name = some (.number n)) ∧
      (∀ placed, x.placed = some placed → ∃ block, s.sections.get? placed = some block ∧
        (s.run ops).lookupValue name = block.address.map fun a =>
        .number (Word.wrap (a + n)))) := by
  intro s
  have hs : Consistent s := consistent_run (consistent_fresh exportAll) before
  have hg : Grounded s :=
    grounded_run (consistent_fresh exportAll) (grounded_fresh exportAll) before
  constructor
  · intro e hlegal hsteady hnames v hv
    refine Expr.kept_of_names ?_ hlegal hsteady hv
    intro name hmem w hw
    exact lookupValue_run hs hg (hnames name hmem).1 (hnames name hmem).2 hw
  · intro name x hx hkind
    rcases hs.label_number hx hkind with ⟨n, hn⟩
    refine ⟨n, hn, ?_, ?_⟩
    · intro hplaced
      exact lookupValue_label_outside hs hx hkind hn hplaced ops
    · intro placed hplaced
      rcases hg.labels name x hx hkind placed hplaced with ⟨block, hblock⟩
      exact ⟨block, hblock, lookupValue_label_run hs hx hkind hn hplaced hblock ops⟩

/-- A label in a section at a fixed address is known, and so is its distance from a constant, while
the section is left, put aside and extended and another constant is purged. -/
theorem known_over_run_label :
    let code : Section := ⟨"Code", .rom0, some 0x150, none, none, false⟩
    let before : List Operation := [.enterSection code, .advance 4, .defineLabel "start" false none,
      .defineConstant "base" 0x100 false none, .defineConstant "spare" 1 false none]
    let ops : List Operation := [.purge "spare", .pushSection, .popSection, .advance 8,
      .defineLabel "start" false none]
    let s := (fresh false).run before
    let e : Expr := .binary .sub (.symbol "start") (.symbol "base")
    e.value s.resolver = .ok 0x54 ∧ e.value (s.run ops).resolver = .ok 0x54 := by
  intro code before ops s e
  have hv : e.value s.resolver = .ok 0x54 := by
    have hstart : s.resolver.value "start" = some (.number 0x154) := by decide
    have hbase : s.resolver.value "base" = some (.number 0x100) := by decide
    simp only [e, Expr.value, hstart, hbase]
    rfl
  have hstart : s.lookup "start" = some ⟨"start", .label, .number 4, false, some "Code", none⟩ := by
    decide
  have hbase : s.lookup "base" = some ⟨"base", .equ, .number 0x100, false, none, none⟩ := by decide
  -- the only name that is purged is another one
  have hkept : ∀ name, name ≠ "spare" → ¬ s.PurgedDuring ops name := by
    intro name hname hpurged
    rcases hpurged.exists_purge with ⟨t, spelling, hmem, hfull⟩
    have hspelling : spelling = "spare" := by simpa [ops] using hmem
    subst hspelling
    have hspare : t.qualify "spare" = .ok "spare" := rfl
    cases hspare.symm.trans hfull
    exact hname rfl
  refine ⟨hv, (known_over_run false before ops).1 e (by decide) (by decide) ?_ _ hv⟩
  have hsymbols : e.symbols = ["start", "base"] := by decide
  change ∀ name ∈ e.symbols, (∀ x, s.lookup name = some x → _) ∧ ¬ s.PurgedDuring ops name
  rw [hsymbols]
  simp [hstart, hbase, hkept]

/-- A call that lacks an argument is not looked at as long as its first argument is unknown, so the
conjunction that its left operand has settled is lost when the name gets a text. -/
theorem known_over_run_lacking_argument :
    let s := fresh false
    let ops : List Operation := [.defineText "x" "t" none]
    let e : Expr := .binary .logicalAnd (.literal 0) (.call .strcmp [.symbol "x"])
    e.steady ∧ (∀ name ∈ e.symbols, (∀ x, s.lookup name = some x → x.kind ≠ .set) ∧
        ¬ s.PurgedDuring ops name) ∧
      e.value s.resolver = .ok 0 ∧
      e.value (s.run ops).resolver = .error (.incomplete .strcmp) := by
  intro s ops e
  have hsymbols : e.symbols = ["x"] := by decide
  have hx : s.lookup "x" = none := by decide
  have hkept : ¬ s.PurgedDuring ops "x" := by
    intro hpurged
    rcases hpurged.exists_purge with ⟨_, _, hmem, _⟩
    simp [ops] at hmem
  refine ⟨by decide, ?_, by rfl, by rfl⟩
  rw [hsymbols]
  simp [hx, hkept]

end State

end Sm83
