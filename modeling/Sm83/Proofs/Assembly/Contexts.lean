import Sm83.Proofs.Assembly.Handling
import Sm83.Proofs.Assembly.Sound
import Sm83.Proofs.Run.Woven

/-!
# Sections while a source is read

The state of a run changes while lines are read, and only by operations that the assembler issues;
acting on statements and deciding what had to wait leave it alone. So every state met on the way,
whatever the source, has its sections as they should be, and a section that is registered stays so.
-/

namespace Sm83

namespace Step

variable {α β : Type}

/-- Whether the step succeeds or fails, the state it leaves comes from the one before by issued
operations. -/
def Leads (x : Step α) : Prop :=
  ∀ r : Run, r.state.Leads (Run.reached (x r)).state

theorem Operates.leads {x : Step α} (h : Operates x) : Leads x := by
  intro r
  cases hx : x r with
  | ok a r' => exact (h.of_ok hx).state
  | error f r' => exact (h.of_error hx).state

theorem Settles.state_eq {x : Step α} {r : Run} {allowed : Prop} {Q : α → Run → Prop}
    (h : Settles x r allowed Q) : (Run.reached (x r)).state = r.state := by
  cases hx : x r with
  | ok a r' => exact (h.of_ok hx).2.1
  | error f r' => exact (h.of_error hx).2

namespace Leads

variable {x : Step α} {k : α → Step β}

theorem of_state_eq (h : ∀ r, (Run.reached (x r)).state = r.state) : Leads x :=
  fun r => .of_eq (h r)

theorem bind (hx : Leads x) (hk : ∀ a, Leads (k a)) : Leads (x >>= k) := by
  intro r
  have hfirst := hx r
  show r.state.Leads (Run.reached (EStateM.bind x k r)).state
  unfold EStateM.bind
  cases hxr : x r with
  | error f r' =>
    rw [hxr] at hfirst
    exact hfirst
  | ok a r' =>
    rw [hxr] at hfirst
    exact hfirst.trans (hk a r')

theorem forM {f : β → Step PUnit} (h : ∀ b, Leads (f b)) (items : List β) :
    Leads (items.forM f) := by
  induction items with
  | nil => exact fun r => .refl r.state
  | cons b rest ih => exact (h b).bind fun _ => ih

end Leads

variable {handle : Statement → Step Unit}

theorem leads_deliver (h : ∀ st, Leads (handle st)) (st : Statement) : Leads (deliver handle st) :=
  fun r => h st { r with statements := r.statements ++ [st] }

theorem leads_lines (h : ∀ st, Leads (handle st)) (n : Nat) : Leads (lines handle n) := by
  induction n with
  | zero => exact fun r => .refl r.state
  | succ n ih =>
    refine operates_nextLine.leads.bind fun next => ?_
    cases next with
    | none => exact fun r => .refl r.state
    | some statements => exact (Leads.forM (leads_deliver h) statements).bind fun _ => ih

theorem lines_leads_succ (h : ∀ st, Leads (handle st)) (n : Nat) (r : Run) :
    (Run.reached (lines handle n r)).state.Leads (Run.reached (lines handle (n + 1) r)).state := by
  induction n generalizing r with
  | zero => exact leads_lines h 1 r
  | succ n ih =>
    -- both read the same line, and hand the same statements over
    show (Run.reached (EStateM.bind nextLine _ r)).state.Leads
      (Run.reached (EStateM.bind nextLine _ r)).state
    unfold EStateM.bind
    cases hline : nextLine r with
    | error f r' => exact .refl r'.state
    | ok next r' =>
      cases next with
      | none => exact .refl r'.state
      | some statements =>
        show (Run.reached (EStateM.bind (statements.forM (deliver handle)) _ r')).state.Leads
          (Run.reached (EStateM.bind (statements.forM (deliver handle)) _ r')).state
        unfold EStateM.bind
        cases hdelivered : statements.forM (deliver handle) r' with
        | error f r'' => exact .refl r''.state
        | ok _ r'' => exact ih r''

theorem lines_leads_of_le (h : ∀ st, Leads (handle st)) {n m : Nat} (hle : n ≤ m) (r : Run) :
    (Run.reached (lines handle n r)).state.Leads (Run.reached (lines handle m r)).state := by
  induction hle with
  | refl => exact .refl _
  | step _ ih => exact ih.trans (lines_leads_succ h _ r)

theorem leads_note (events : List Event) : Leads (note events) :=
  (operates_note events).leads

theorem leads_handle (st : Statement) : Leads (Step.handle st) :=
  .of_state_eq fun _ => (settles_handle st).state_eq

theorem operates_predefine (settings : Settings) : Operates (predefine settings) := by
  refine .forM (fun p => ?_) settings.defines.entries
  have hdefine : Performs (.defineConstant p.1 p.2 false none) (define _) :=
    performs_define fun _ => rfl
  exact (hdefine.operates trivial).discard

theorem parse_state (handle : Statement → Step Unit) (r : Run) :
    (Run.reached (parse handle r)).state = (Run.reached (lines handle r.stream.bound r)).state := by
  show (Run.reached (EStateM.bind (lines handle r.stream.bound) _ r)).state = _
  unfold EStateM.bind
  cases lines handle r.stream.bound r with
  | ok _ r' => rfl
  | error f r' => rfl

theorem leads_parse (h : ∀ st, Leads (handle st)) : Leads (parse handle) := by
  intro r
  rw [parse_state]
  exact leads_lines h r.stream.bound r

theorem leads_readAll : Leads readAll := by
  intro r
  have hparse := leads_parse leads_handle r
  unfold readAll
  cases hr : parse Step.handle r with
  | ok a r' =>
    rw [hr] at hparse
    exact hparse
  | error f r' =>
    rw [hr] at hparse
    exact hparse

theorem leads_assemble (settings : Settings) : Leads (Step.assemble settings) := by
  refine (operates_predefine settings).leads.bind fun _ => leads_readAll.bind fun _ => ?_
  refine (Leads.of_state_eq fun _ => settles_resolve.state_eq).bind fun _ r => ?_
  exact leads_note _ r

end Step

/-- The run of a source once at most `n` of its lines have been read from a state. -/
def Run.afterLines (source : Source) (state : State) (n : Nat) : Run :=
  Run.reached (Step.lines (fun _ => pure ()) n (.start source state (.empty 100 false)))

namespace Run

variable (source : Source) (state : State)

theorem afterLines_leads {n m : Nat} (hle : n ≤ m) :
    (afterLines source state n).state.Leads (afterLines source state m).state := by
  have hnothing : ∀ _ : Statement, Step.Leads (pure () : Step Unit) :=
    fun _ r => .refl r.state
  exact Step.lines_leads_of_le hnothing hle _

theorem parse_state :
    (reached (Run.parse source state)).state =
      (afterLines source state (Stream.ofSource source).bound).state :=
  Step.parse_state (fun _ => pure ()) _

end Run

/-- In every state that issued operations lead to, the sections are as they should be, and those
that are registered stay so. Such are the states after any number of lines of a source, and the one
in which assembling the source ends, be it by success or failure. -/
theorem sections_well_placed (exportAll : Bool) (settings : Settings) (source : Source) :
    (∀ s, (State.fresh exportAll).Leads s →
      s.WellPlaced ∧ ∀ s', s.Leads s' → ∀ name block,
        s.sections.get? name = some block → s'.sections.get? name = some block) ∧
    (∀ n, (State.fresh exportAll).Leads (Run.afterLines source (.fresh exportAll) n).state) ∧
    (∀ n m, n ≤ m → (Run.afterLines source (.fresh exportAll) n).state.Leads
      (Run.afterLines source (.fresh exportAll) m).state) ∧
    (∃ n, (Run.reached (Run.parse source (.fresh exportAll))).state =
      (Run.afterLines source (.fresh exportAll) n).state) ∧
    (State.fresh settings.exportAll).Leads (Run.reached (assemble settings source)).state := by
  refine ⟨?_, ?_, ?_, ?_, ?_⟩
  · intro s hs
    exact ⟨hs.wellPlaced, fun s' hlater name block hblock => hlater.section_persists hblock⟩
  · intro n
    -- no lines have been read at the start
    exact Run.afterLines_leads source (.fresh exportAll) (Nat.zero_le n)
  · exact fun n m hle => Run.afterLines_leads source (.fresh exportAll) hle
  · exact ⟨_, Run.parse_state source (.fresh exportAll)⟩
  · exact Step.leads_assemble settings (.initial settings source)

/-- Two sections are open, one of them as a load block, and their context has been put aside: it is
nested, and both sections are registered for good. -/
theorem sections_well_placed_nested :
    ∃ s c, (State.fresh false).Leads s ∧ s.stack = [c] ∧
      c.current.map Section.name = some "Code" ∧ c.load.map Section.name = some "Copy" ∧
      s.WellPlaced ∧ ∀ s', s.Leads s' →
        s'.sections.get? "Code" = s.sections.get? "Code" ∧
          s'.sections.get? "Copy" = s.sections.get? "Copy" := by
  let code : Section := ⟨"Code", .romx, some 0x4000, some 2, some 8, false⟩
  let copy : Section := ⟨"Copy", .wram0, some 0xC100, none, none, true⟩
  let ops : List Operation :=
    [.enterSection code, .advance 3, .enterLoad copy, .defineLabel "Main" true none, .advance 2,
      .pushSection]
  have hissued : ∀ op ∈ ops, op.Issued := by
    have hcode : code.make = .ok code := rfl
    have hcopy : copy.make = .ok copy := rfl
    simp only [ops, List.forall_mem_cons, Operation.Issued]
    exact ⟨⟨rfl, code, hcode⟩, trivial, ⟨rfl, copy, hcopy⟩, trivial, trivial, trivial, by simp⟩
  have hleads : (State.fresh false).Leads ((State.fresh false).run ops) := ⟨ops, hissued, rfl⟩
  rcases (sections_well_placed false .standard (.ofText "" "f.asm")).1 _ hleads with
    ⟨hplaced, hpersists⟩
  refine ⟨(State.fresh false).run ops, ⟨some code, 5, some copy, 2⟩,
    hleads, by decide +kernel, rfl, rfl, hplaced, fun s' hlater => ?_⟩
  have hcode : ((State.fresh false).run ops).sections.get? "Code" = some code := by decide +kernel
  have hcopy : ((State.fresh false).run ops).sections.get? "Copy" = some copy := by decide +kernel
  rw [hcode, hcopy]
  exact ⟨hpersists s' hlater "Code" code hcode, hpersists s' hlater "Copy" copy hcopy⟩

end Sm83
