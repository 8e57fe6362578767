import Sm83.Proofs.Assembly.Contexts
import Sm83.Proofs.Run.Sequence

/-!
# Assertions

An assembly that succeeds has looked at every assertion right after its line, in the state of that
moment, and at those that were open then once more at the end. What it has reported is what these
looks come to.
-/

namespace Sm83

open Outcome Step

/-- What a look at an assertion comes to: what is reported, and what is put off. A false assertion
that is fatal and an open one that is static come to nothing, because the assembly ends there. -/
inductive Assertion.Judged (s : State) (warningsAsErrors : Bool) (location : Location)
    (a : Assertion) : List Diagnostic → List (Location × Assertion) → Prop
  | holds {v : Int} (known : a.condition.value s.resolver = .ok v) (nonzero : v ≠ 0) :
    Judged s warningsAsErrors location a [] []
  | warned (known : a.condition.value s.resolver = .ok 0) (gravity : a.gravity = .warn) :
    Judged s warningsAsErrors location a
      [⟨if warningsAsErrors then .error else .warning, assertionMessage a, some location⟩] []
  | failed (known : a.condition.value s.resolver = .ok 0) (gravity : a.gravity = .fail) :
    Judged s warningsAsErrors location a [⟨.error, assertionMessage a, some location⟩] []
  | postponed {missing : List String}
    (deferred : a.condition.value s.resolver = .error (.deferred missing))
    (dynamic : a.isStatic = false) : Judged s warningsAsErrors location a [] [(location, a)]

theorem Assertion.judged_of_passes {s : State} {a : Assertion} (h : a.passes s = true)
    (warningsAsErrors : Bool) (location : Location) :
    a.Judged s warningsAsErrors location (a.reports s warningsAsErrors location)
      (if a.isOpen s then [(location, a)] else []) := by
  cases hvalue : a.condition.value s.resolver with
  | ok v =>
    simp only [passes, hvalue] at h
    simp only [reports, isFalse, isOpen, hvalue]
    by_cases hv : v = 0
    · subst hv
      cases hgravity : a.gravity with
      | warn => simpa [Gravity.severity] using .warned hvalue hgravity
      | fail => simpa [Gravity.severity] using .failed hvalue hgravity
      | fatal => simp [hgravity] at h
    · simpa [hv] using .holds hvalue hv
  | error o =>
    cases o with
    | deferred missing =>
      simp only [passes, hvalue] at h
      simp only [reports, isFalse, isOpen, hvalue]
      simpa using .postponed hvalue (by simpa using h)
    | _ => simp [passes, hvalue] at h

/-- The statements of the next `n` lines of a run, each with the state right after its line. Nothing
is done about them. -/
def Run.readings : Nat → Run → List (Statement × State)
  | 0, _ => []
  | n + 1, r =>
    match nextLine r with
    | .ok (some statements) r' =>
      statements.map (fun st => (st, r'.state)) ++
        readings n { r' with statements := r'.statements ++ statements }
    | _ => []

/-- The assertions that are put off at the first look. -/
def Run.postponed (read : List (Statement × State)) : List (Location × Assertion) :=
  read.flatMap fun p => p.1.waiting p.2

/-- A run that has come from another by acting on statements, each in its state. -/
structure Run.Accounts (r : Run) (read : List (Statement × State)) (r' : Run) : Prop where
  passes : ∀ p ∈ read, p.1.passes p.2 = true
  statements : r'.statements = r.statements ++ read.map Prod.fst
  diagnostics : r'.diagnostics = r.diagnostics.extend
    (read.flatMap fun p => p.1.reports p.2 r.diagnostics.warningsAsErrors)
  pending : r'.pending = r.pending ++ Run.postponed read
  output : r'.output = r.output ++ read.flatMap fun p => p.1.printed p.2

namespace Run

variable {r r' r'' u v : Run} {read read' : List (Statement × State)}

theorem MovesOn.accounts (h : r.MovesOn r') : r.Accounts [] r' :=
  ⟨by simp, by simpa using h.statements, by simpa using h.diagnostics,
    by simpa [postponed] using h.pending, by simpa using h.output⟩

theorem Accounts.trans (h : r.Accounts read r') (h' : r'.Accounts read' r'') :
    r.Accounts (read ++ read') r'' := by
  have hmode : r'.diagnostics.warningsAsErrors = r.diagnostics.warningsAsErrors := by
    rw [h.diagnostics]
    rfl
  refine ⟨List.forall_mem_append.mpr ⟨h.passes, h'.passes⟩, ?_, ?_, ?_, ?_⟩
  · rw [h'.statements, h.statements, List.map_append, List.append_assoc]
  · rw [h'.diagnostics, hmode, h.diagnostics, Diagnostics.extend_extend, List.flatMap_append]
  · rw [h'.pending, h.pending, postponed, postponed, postponed, List.flatMap_append,
      List.append_assoc]
  · rw [h'.output, h.output, List.flatMap_append, List.append_assoc]

theorem accounts_deliverAll {ss : List Statement}
    (h : ss.forM (deliver handle) u = .ok () v) :
    u.Accounts (ss.map fun st => (st, u.state)) v := by
  rcases (settles_deliverAll ss).of_ok h with ⟨⟨hpasses, _⟩, _, hgains⟩
  refine ⟨?_, ?_, ?_, ?_, ?_⟩
  · simpa using hpasses
  · simpa [Function.comp_def] using hgains.statements
  · simpa [Statement.allReports, List.flatMap_map] using hgains.diagnostics
  · simpa [postponed, List.flatMap_map] using hgains.pending
  · simpa [List.flatMap_map] using hgains.output

end Run

namespace Step

variable {source : Source} {base : State} {m n : Nat} {r r' r'' : Run}

theorem on_delivered {u u' v : Run} {ss : List Statement}
    (h : On (.bare source base) (Done (.bare source base) m) u u')
    (hlegal : ∀ st ∈ ss, st.form.legal = true)
    (hdeliver : ss.forM (deliver handle) u' = .ok () v) :
    On (.bare source base) (Done (.bare source base) m)
      { u with statements := u.statements ++ ss } v := by
  rcases (settles_deliverAll ss).of_ok hdeliver with ⟨_, _, hgains⟩
  have hstatements : v.statements = u'.statements ++ ss := hgains.statements
  have hframed := h.framed.statements
  refine .done ?_ ⟨?_, ?_, ?_, h.framed.pending⟩
  · rw [hgains.stream]
    exact h.stream
  · rw [hgains.state]
    exact h.framed.state
  · rw [hstatements, hframed, List.map_append, List.append_assoc]
    show _ ++ (_ ++ ss) = _ ++ (_ ++ ss.map (Statement.down 0))
    rw [down_zero_statements ss]
  · exact List.forall_mem_append.mpr ⟨h.framed.legal, hlegal⟩

/-- Let two runs stand at the same place of a source. If the lines can be read from the second,
acting on their statements, this comes to acting on what is read from the first without acting. -/
theorem lines_accounts (h : On (.bare source base) (Done (.bare source base) m) r r')
    (hlines : lines handle n r' = .ok () r'') : r'.Accounts (r.readings n) r'' := by
  have hstrict : ¬ (Frame.bare source base).after.isSome = true := by simp [Frame.bare]
  induction n generalizing m r r' with
  | zero => cases hlines
  | succ n ih =>
    rcases lines_cases hlines with hend | ⟨ss', u', v, hline', hdeliver, hrest⟩
    · -- the first run finds the end as well
      rcases (follows_nextLine_alone rfl).of_ok_strict hstrict h hend with ⟨o, u, hline, halike, _⟩
      have hread : r.readings (n + 1) = [] := by
        cases o with
        | none => simp only [Run.readings, hline]
        | some ss =>
          rcases halike with ⟨_, hsome, _⟩
          cases hsome
      rw [hread]
      exact (operates_nextLine.of_ok hend).accounts
    · rcases (follows_nextLine_alone rfl).of_ok_strict hstrict h hline' with
        ⟨o, u, hline, halike, hon⟩
      cases o with
      | none => exact absurd halike.2 (by simp [Frame.bare])
      | some ss =>
        rcases halike with ⟨_, hsame, rfl, hlegal⟩
        cases hsame
        -- no line is further down, so both have read the same
        have hss : ss.map (Statement.down (Frame.bare source base).lines) = ss :=
          down_zero_statements ss
        rw [hss] at hdeliver hline'
        have hstate : u'.state = u.state := hon.framed.state.eq_of_zero
        have hone : r'.Accounts (ss.map fun st => (st, u.state)) v := by
          rw [← hstate]
          simpa using (operates_nextLine.of_ok hline').accounts.trans
            (Run.accounts_deliverAll hdeliver)
        have hlater := ih (on_delivered hon hlegal hdeliver) hrest
        simp only [Run.readings, hline]
        exact hone.trans hlater

theorem readAll_accounts (h : Ready source base m r) (hread : readAll r = .ok () r') :
    r.Accounts (r.readings r.stream.bound) r' := by
  unfold readAll at hread
  split at hread
  · cases hread
  · rcases of_bind hread with ⟨n, u, hbound, hparse⟩
    cases hbound
    rcases of_bind hparse with ⟨_, v, hlines, hnote⟩
    have haccounts := lines_accounts h hlines
    cases hnote
    exact ⟨haccounts.passes, haccounts.statements, haccounts.diagnostics, haccounts.pending,
      haccounts.output⟩

theorem assemble_parts {settings : Settings} (h : assemble settings r = .ok () r') :
    ∃ r₀ r₁ r₂, predefine settings r = .ok () r₀ ∧ readAll r₀ = .ok () r₁ ∧
      resolve r₁ = .ok () r₂ ∧ Run.Gains r₂ [] [] [] r' := by
  rcases of_bind h with ⟨_, r₀, hpredefine, hafter⟩
  rcases of_bind hafter with ⟨_, r₁, hread, hlater⟩
  rcases of_bind hlater with ⟨_, r₂, hresolve, hsummarize⟩
  refine ⟨r₀, r₁, r₂, hpredefine, hread, hresolve, ?_⟩
  cases hsummarize
  exact .of_trail r₂ _

theorem ready_predefined {settings : Settings}
    (h : predefine settings (.initial settings source) = .ok () r) :
    Ready source (.fresh settings.exportAll) (source.text.length + 1) r := by
  have hkeeps := keeps_predefine settings _ (ready_start source (.fresh settings.exportAll)
    (.empty settings.maxErrors settings.warningsAsErrors))
  unfold Run.initial at h
  rw [h] at hkeeps
  exact hkeeps

end Step

/-- Let an assembly succeed. Every assertion is judged in the state after its line, and those put
off then in the state at the end. The diagnostics are those of the statements in the order of the
source and then those of the second looks, and what is left are the assertions that are open both
times. -/
theorem assertions_accounted (settings : Settings) (source : Source) (r : Run)
    (h : assemble settings source = .ok () r) :
    ∃ r₀ read, predefine settings (.initial settings source) = .ok () r₀ ∧
      read = r₀.readings r₀.stream.bound ∧
      r.statements = read.map Prod.fst ∧
      (∀ st s, (st, s) ∈ read → ∀ a, st.form = .assertion a →
        a.Judged s settings.warningsAsErrors st.location
          (st.reports s settings.warningsAsErrors) (st.waiting s)) ∧
      (∀ location a, (location, a) ∈ Run.postponed read →
        a.Judged r.state settings.warningsAsErrors location
          (a.reports r.state settings.warningsAsErrors location)
          (if a.isOpen r.state then [(location, a)] else [])) ∧
      r.diagnostics.entries =
        (read.flatMap fun p => p.1.reports p.2 settings.warningsAsErrors) ++
          ((Run.postponed read).flatMap fun p =>
            p.2.reports r.state settings.warningsAsErrors p.1) ∧
      r.pending = (Run.postponed read).filter fun p => p.2.isOpen r.state := by
  rcases assemble_parts h with ⟨r₀, r₁, r₂, hpredefine, hread, hresolve, hend⟩
  have hstart := (operates_predefine settings).of_ok hpredefine
  have haccounts := readAll_accounts (ready_predefined hpredefine) hread
  rcases settles_resolve.of_ok hresolve with ⟨⟨⟨hsecond, _⟩, _⟩, hstate₂, hgains⟩
  -- nothing has come of the run before its first line
  have hdiagnostics₀ : r₀.diagnostics = .empty settings.maxErrors settings.warningsAsErrors :=
    hstart.diagnostics
  have hstatements₀ : r₀.statements = [] := hstart.statements
  have hpending₀ : r₀.pending = [] := hstart.pending
  have hmode₀ : r₀.diagnostics.warningsAsErrors = settings.warningsAsErrors := by
    rw [hdiagnostics₀]
    rfl
  have hmode : r₁.diagnostics.warningsAsErrors = settings.warningsAsErrors := by
    rw [haccounts.diagnostics]
    exact hmode₀
  have hpending : r₁.pending = Run.postponed (r₀.readings r₀.stream.bound) := by
    rw [haccounts.pending, hpending₀, List.nil_append]
  -- the second looks leave the state as the lines have left it
  have hstate : r.state = r₁.state := hend.state.trans hstate₂
  refine ⟨r₀, _, hpredefine, rfl, ?_, ?_, ?_, ?_, ?_⟩
  · rw [hend.statements, hgains.statements]
    rw [haccounts.statements, hstatements₀, List.nil_append]
  · intro st s hmem a hform
    have hpasses := haccounts.passes (st, s) hmem
    simp only [Statement.passes, hform] at hpasses
    simp only [Statement.reports, Statement.waiting, hform]
    exact Assertion.judged_of_passes hpasses _ _
  · intro location a hmem
    rw [hstate]
    exact Assertion.judged_of_passes (hsecond (location, a) (hpending ▸ hmem)) _ _
  · rw [hend.diagnostics, Diagnostics.extend_nil, hgains.diagnostics, hmode, hpending, hstate]
    rw [haccounts.diagnostics, hmode₀, hdiagnostics₀]
    rfl
  · rw [hend.pending, List.append_nil, hgains.pending, List.append_nil, hpending, hstate]

/-- A source whose assertions are decided at the first look, at the second, or never. -/
def Source.undecided : Source :=
  .ofText "assert warn, 0\nassert later == 2\nassert never\nlater equ 1\nassert later\nassert 0"
    "f.asm"

/-- An assembly has succeeded with diagnostics and open assertions on these lines. -/
def Run.reportsOn (reported remaining : List Int) : EStateM.Result Failure Run Unit → Bool
  | .ok _ r => r.diagnostics.entries.map (fun d => d.location.map Location.line) =
      reported.map some ∧ r.pending.map (fun p => p.1.line) = remaining
  | .error _ _ => false

theorem Run.exists_of_reportsOn {reported remaining : List Int}
    {result : EStateM.Result Failure Run Unit}
    (h : Run.reportsOn reported remaining result = true) : ∃ r, result = .ok () r ∧
      r.diagnostics.entries.map (fun d => d.location.map Location.line) = reported.map some ∧
      r.pending.map (fun p => p.1.line) = remaining := by
  cases result with
  | ok u r => exact ⟨r, rfl, by simpa [Run.reportsOn] using h⟩
  | error f r => cases h

/-- The false assertions of the first and the last line are reported before that of the second,
which had to wait, and the third remains. -/
theorem assertions_accounted_undecided : ∃ r r₀ read,
    assemble .standard .undecided = .ok () r ∧
    predefine .standard (.initial .standard .undecided) = .ok () r₀ ∧
    read = r₀.readings r₀.stream.bound ∧ r.statements = read.map Prod.fst ∧
    r.diagnostics.entries.map (fun d => d.location.map Location.line) = [some 1, some 6, some 2] ∧
    r.pending.map (fun p => p.1.line) = [3] ∧
    r.pending = (Run.postponed read).filter fun p => p.2.isOpen r.state := by
  have hdecided : Run.reportsOn [1, 6, 2] [3] (assemble .standard .undecided) = true := by
    decide +kernel
  rcases Run.exists_of_reportsOn hdecided with ⟨r, hr, hreported, hremaining⟩
  rcases assertions_accounted .standard .undecided r hr with
    ⟨r₀, read, hpredefine, hread, hstatements, _, _, _, hpending⟩
  exact ⟨r, r₀, read, hr, hpredefine, hread, hstatements, hreported, hremaining, hpending⟩

end Sm83
