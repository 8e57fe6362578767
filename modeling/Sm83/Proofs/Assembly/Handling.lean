import Sm83.Assembly.Basic
import Sm83.Proofs.Outcome

/-!
# What acting on statements comes to

Acting on a statement leaves the tokens, the state and the statements alone: it may report
something, put an assertion off, print a text, or end the assembly. Which of these happens is said
here for the first look at a statement and for the second at assertions put off.
-/

namespace Sm83

/-! ## Assertions in a state -/

/-- The severity with which a false assertion is reported. -/
def Gravity.severity (warningsAsErrors : Bool) : Gravity → Severity
  | warn => if warningsAsErrors then .error else .warning
  | _ => .error

namespace Assertion

variable (s : State) (a : Assertion)

/-- The condition waits for names that are not known. -/
def isOpen : Bool :=
  match a.condition.value s.resolver with
  | .error (.deferred _) => true
  | _ => false

/-- The condition is known, and zero. -/
def isFalse : Bool :=
  match a.condition.value s.resolver with
  | .ok v => v == 0
  | _ => false

/-- The assembly can go on: the condition is known, and if it is zero the assertion is not fatal; or
it is open and may stay so. -/
def passes : Bool :=
  match a.condition.value s.resolver with
  | .ok v => v != 0 || a.gravity != .fatal
  | .error (.deferred _) => !a.isStatic
  | .error _ => false

/-- A false assertion is reported once, where it stands. -/
def reports (warningsAsErrors : Bool) (location : Location) : List Diagnostic :=
  if a.isFalse s then
    [⟨a.gravity.severity warningsAsErrors, Step.assertionMessage a, some location⟩]
  else []

end Assertion

/-! ## Statements in a state -/

/-- The text that a directive gives for its arguments, if it is known. -/
def Step.messageText? (s : State) (args : List Argument) : Option String :=
  match (exprs args).mapM fun e => e.constantText s.resolver with
  | .ok parts => some (Text.join "" parts)
  | .error _ => none

/-- The text that a directive prints for its arguments, if it is known. -/
def Step.printText? (s : State) (d : Directive) (args : List Argument) : Option String :=
  match (exprs args).mapM (printed s d) with
  | .ok parts => some (Text.join "" parts ++ (if d = .printLine then "\n" else ""))
  | .error _ => none

namespace Statement

variable (s : State) (statement : Statement)

/-- The assembly can go on after the statement, as far as the state is concerned. -/
def passes : Bool :=
  match statement.form with
  | .assertion a => a.passes s
  | .directive d args =>
    if d.isPrint then (Step.printText? s d args).isSome
    else if d = .warn ∨ d = .fail then (Step.messageText? s args).isSome
    else true
  | _ => true

/-- What is reported because of the statement. -/
def reports (warningsAsErrors : Bool) : List Diagnostic :=
  match statement.form with
  | .assertion a => a.reports s warningsAsErrors statement.location
  | .directive .warn args =>
    (Step.messageText? s args).toList.map fun text =>
      ⟨Gravity.warn.severity warningsAsErrors, text, some statement.location⟩
  | .directive .fail args =>
    (Step.messageText? s args).toList.map fun text => ⟨.error, text, some statement.location⟩
  | _ => []

/-- The assertion that is put off. -/
def waiting : List (Location × Assertion) :=
  match statement.form with
  | .assertion a => if a.isOpen s then [(statement.location, a)] else []
  | _ => []

/-- The text that is printed. -/
def printed : List String :=
  match statement.form with
  | .directive d args => if d.isPrint then (Step.printText? s d args).toList else []
  | _ => []

/-- The checks of the statement that need the whole source are passed. -/
def Checked : Prop :=
  match statement.form with
  | .instruction _ _ record offset placed =>
    Step.checkRecord s.resolver (s.address? placed offset) record = .ok ()
  | _ => True

/-- What is reported because of some statements. -/
def allReports (warningsAsErrors : Bool) (statements : List Statement) : List Diagnostic :=
  statements.flatMap fun st => st.reports s warningsAsErrors

end Statement

/-- What is reported at the second look at assertions. -/
def Assertion.allReports (s : State) (warningsAsErrors : Bool)
    (waiting : List (Location × Assertion)) : List Diagnostic :=
  waiting.flatMap fun p => p.2.reports s warningsAsErrors p.1

/-! ## Reports -/

namespace Diagnostics

/-- The diagnostics with further ones behind them. -/
def extend (d : Diagnostics) (reports : List Diagnostic) : Diagnostics :=
  { d with entries := d.entries ++ reports }

/-- None of the reports is one error too many. -/
def admits (d : Diagnostics) : List Diagnostic → Bool
  | [] => true
  | e :: rest => ((d.push e).limit? e.severity).isNone && (d.push e).admits rest

@[simp] theorem extend_nil (d : Diagnostics) : d.extend [] = d := by
  simp [extend]

@[simp] theorem extend_extend (d : Diagnostics) (first second : List Diagnostic) :
    (d.extend first).extend second = d.extend (first ++ second) := by
  simp [extend]

theorem push_eq_extend (d : Diagnostics) (e : Diagnostic) : d.push e = d.extend [e] := rfl

theorem admits_append (d : Diagnostics) (first second : List Diagnostic) :
    d.admits (first ++ second) = (d.admits first && (d.extend first).admits second) := by
  induction first generalizing d with
  | nil => simp [admits]
  | cons e rest ih =>
    simp only [List.cons_append, admits, ih, Bool.and_assoc, push_eq_extend, extend_extend,
      List.nil_append]

end Diagnostics

/-! ## Gains -/

/-- A run that differs from another in what it has gained: reports, assertions put off and texts
printed. -/
structure Run.Gains (r : Run) (reports : List Diagnostic) (waiting : List (Location × Assertion))
    (printed : List String) (r' : Run) : Prop where
  stream : r'.stream = r.stream
  state : r'.state = r.state
  statements : r'.statements = r.statements
  diagnostics : r'.diagnostics = r.diagnostics.extend reports
  pending : r'.pending = r.pending ++ waiting
  output : r'.output = r.output ++ printed

namespace Run.Gains

variable {r r' r'' : Run} {reports reports' : List Diagnostic}
  {waiting waiting' : List (Location × Assertion)} {printed printed' : List String}

theorem of_trail (r : Run) (trail : List Event) : r.Gains [] [] [] { r with trail := trail } :=
  ⟨rfl, rfl, rfl, by simp, by simp, by simp⟩

theorem trans (h : r.Gains reports waiting printed r')
    (h' : r'.Gains reports' waiting' printed' r'') :
    r.Gains (reports ++ reports') (waiting ++ waiting') (printed ++ printed') r'' := by
  refine ⟨h'.stream.trans h.stream, h'.state.trans h.state, h'.statements.trans h.statements,
    ?_, ?_, ?_⟩
  · rw [h'.diagnostics, h.diagnostics, Diagnostics.extend_extend]
  · rw [h'.pending, h.pending, List.append_assoc]
  · rw [h'.output, h.output, List.append_assoc]

end Run.Gains

namespace Step

variable {α β : Type} {Q : α → Run → Prop}

/-! ## When a step succeeds -/

/-- From a run, the step succeeds exactly if it is allowed to, and then with a value and a run that
`Q` holds of. It leaves the state as it is, even if it fails. -/
def Settles (x : Step α) (r : Run) (allowed : Prop) (Q : α → Run → Prop) : Prop :=
  match x r with
  | .ok a r' => allowed ∧ r'.state = r.state ∧ Q a r'
  | .error _ r' => ¬ allowed ∧ r'.state = r.state

namespace Settles

variable {x : Step α} {k : α → Step β} {r : Run} {allowed allowed' : Prop} {Q : α → Run → Prop}
  {Q' : β → Run → Prop}

theorem of_ok (h : Settles x r allowed Q) {a : α} {r' : Run} (hx : x r = .ok a r') :
    allowed ∧ r'.state = r.state ∧ Q a r' := by
  unfold Settles at h
  rw [hx] at h
  exact h

theorem of_error (h : Settles x r allowed Q) {f : Failure} {r' : Run} (hx : x r = .error f r') :
    ¬ allowed ∧ r'.state = r.state := by
  unfold Settles at h
  rw [hx] at h
  exact h

theorem pure {a : α} (h : Q a r) : Settles (pure a) r True Q :=
  ⟨trivial, rfl, h⟩

theorem throw {f : Failure} (h : ¬ allowed) : Settles (throw f) r allowed Q :=
  ⟨h, rfl⟩

theorem bind {q : Prop} (hx : Settles x r allowed Q)
    (hk : ∀ a r', r'.state = r.state → Q a r' → Settles (k a) r' q Q') :
    Settles (x >>= k) r (allowed ∧ q) Q' := by
  show match EStateM.bind x k r with
    | .ok a r' => (allowed ∧ q) ∧ r'.state = r.state ∧ Q' a r'
    | .error _ r' => ¬ (allowed ∧ q) ∧ r'.state = r.state
  unfold EStateM.bind
  cases hxr : x r with
  | error f r' =>
    rcases hx.of_error hxr with ⟨hnot, hstate⟩
    exact ⟨fun h => hnot h.1, hstate⟩
  | ok a r' =>
    rcases hx.of_ok hxr with ⟨hallowed, hstate, hQ⟩
    have hrest := hk a r' hstate hQ
    show match k a r' with
      | .ok a r'' => (allowed ∧ q) ∧ r''.state = r.state ∧ Q' a r''
      | .error _ r'' => ¬ (allowed ∧ q) ∧ r''.state = r.state
    cases hkr : k a r' with
    | ok b r'' =>
      rcases hrest.of_ok hkr with ⟨hq, hstate', hQ'⟩
      exact ⟨⟨hallowed, hq⟩, hstate'.trans hstate, hQ'⟩
    | error f r'' =>
      rcases hrest.of_error hkr with ⟨hnot, hstate'⟩
      exact ⟨fun h => hnot h.2, hstate'.trans hstate⟩

theorem mono (h : Settles x r allowed Q) (hallowed : allowed' ↔ allowed) {P : α → Run → Prop}
    (hP : ∀ a r', allowed → Q a r' → P a r') : Settles x r allowed' P := by
  unfold Settles
  cases hx : x r with
  | ok a r' =>
    rcases h.of_ok hx with ⟨hyes, hstate, hQ⟩
    exact ⟨hallowed.mpr hyes, hstate, hP a r' hyes hQ⟩
  | error f r' =>
    rcases h.of_error hx with ⟨hno, hstate⟩
    exact ⟨fun h => hno (hallowed.mp h), hstate⟩

theorem sure_bind (hx : Settles x r True Q)
    (hk : ∀ a r', r'.state = r.state → Q a r' → Settles (k a) r' allowed Q') :
    Settles (x >>= k) r allowed Q' :=
  (hx.bind hk).mono (iff_of_eq (true_and allowed)).symm fun _ _ _ h => h

theorem bind_sure (hx : Settles x r allowed Q)
    (hk : ∀ a r', r'.state = r.state → Q a r' → Settles (k a) r' True Q') :
    Settles (x >>= k) r allowed Q' :=
  (hx.bind hk).mono (iff_of_eq (and_true allowed)).symm fun _ _ _ h => h

theorem get_bind {k : Run → Step β} (hk : Settles (k r) r allowed Q') :
    Settles (get >>= k) r allowed Q' :=
  hk

end Settles

/-- The step settles what to report: it succeeds exactly if the state lets it pass and no report is
one error too many. -/
abbrev Acts (x : Step α) (r : Run) (passes : Prop) (reports : Bool → List Diagnostic)
    (Q : List Diagnostic → α → Run → Prop) : Prop :=
  Settles x r (passes ∧ r.diagnostics.admits (reports r.diagnostics.warningsAsErrors))
    (Q (reports r.diagnostics.warningsAsErrors))

/-- A step that reports, and behind it one that is judged with these reports already made. -/
theorem Acts.followed {x : Step α} {k : α → Step β} {r : Run} {p q : Prop}
    {first second : Bool → List Diagnostic} {Q : List Diagnostic → α → Run → Prop}
    {Q' : List Diagnostic → β → Run → Prop} (hx : Acts x r p first Q)
    (hk : ∀ a r', r'.state = r.state → Q (first r.diagnostics.warningsAsErrors) a r' →
      r'.diagnostics = r.diagnostics.extend (first r.diagnostics.warningsAsErrors) ∧
        Acts (k a) r' q second fun reports =>
          Q' (first r.diagnostics.warningsAsErrors ++ reports)) :
    Acts (x >>= k) r (p ∧ q) (fun asErrors => first asErrors ++ second asErrors) Q' := by
  have hrest : ∀ a r', r'.state = r.state → Q (first r.diagnostics.warningsAsErrors) a r' →
      Settles (k a) r' (q ∧ (r.diagnostics.extend (first r.diagnostics.warningsAsErrors)).admits
          (second r.diagnostics.warningsAsErrors))
        (Q' (first r.diagnostics.warningsAsErrors ++ second r.diagnostics.warningsAsErrors)) := by
    intro a r' hstate hQ
    rcases hk a r' hstate hQ with ⟨hdiagnostics, hmore⟩
    have hmode : r'.diagnostics.warningsAsErrors = r.diagnostics.warningsAsErrors := by
      rw [hdiagnostics]
      rfl
    unfold Acts at hmore
    rwa [hmode, hdiagnostics] at hmore
  refine (hx.bind hrest).mono ?_ fun _ _ _ h => h
  simp only [Diagnostics.admits_append, Bool.and_eq_true]
  exact and_and_and_comm

/-! ## General steps -/

variable {r : Run} {allowed : Prop}

theorem settles_nothing : Settles (pure ()) r True fun _ => r.Gains [] [] [] :=
  .pure (.of_trail r r.trail)

theorem settles_note (events : List Event) :
    Settles (note events) r True fun _ => r.Gains [] [] [] :=
  ⟨trivial, rfl, .of_trail r _⟩

theorem settles_ofExcept (e : Except Cause α) :
    Settles (ofExcept e) r (∃ a, e = .ok a) fun a r' => e = .ok a ∧ r.Gains [] [] [] r' := by
  cases e with
  | ok a => exact ⟨⟨a, rfl⟩, rfl, rfl, .of_trail r r.trail⟩
  | error cause =>
    refine ⟨?_, rfl⟩
    rintro ⟨a, ha⟩
    cases ha

theorem settles_resolver_bind {k : Resolver → Step α}
    (h : Settles (k r.state.resolver) r allowed Q) : Settles (resolver >>= k) r allowed Q :=
  h

theorem settles_locatedAt {x : Step α} (h : Settles x r allowed Q) (location : Location)
    (line : Option String) : Settles (locatedAt location line x) r allowed Q := by
  unfold Settles locatedAt
  cases hx : x r with
  | ok a r' => exact h.of_ok hx
  | error f r' =>
    cases f with
    | error e => exact h.of_error hx
    | numeral fault => exact h.of_error hx
    | exhausted => exact h.of_error hx

theorem settles_locatedStatement {x : Step α} (h : Settles x r allowed Q) (location : Location) :
    Settles (locatedStatement location x) r allowed Q :=
  .get_bind (settles_locatedAt h _ _)

/-! ## Diagnostics -/

theorem collect_run (f : Diagnostics → Diagnostics × Option Cause) (r : Run) :
    collect f r =
      match (f r.diagnostics).2 with
      | some cause => .error (.ofCause cause) { r with diagnostics := (f r.diagnostics).1 }
      | none => .ok () { r with diagnostics := (f r.diagnostics).1 } := by
  have hget : (get : Step Run) r = .ok r r := rfl
  unfold collect
  rw [Outcome.run_bind_of_ok hget]
  rcases f r.diagnostics with ⟨d, _ | cause⟩
  · rfl
  · rfl

theorem settles_collect (e : Diagnostic) {f : Diagnostics → Diagnostics × Option Cause}
    (hf : f r.diagnostics = r.diagnostics.record e.severity e.message e.location) :
    Settles (collect f) r (r.diagnostics.admits [e]) fun _ => r.Gains [e] [] [] := by
  have hrecord : f r.diagnostics =
      (r.diagnostics.push e, (r.diagnostics.push e).limit? e.severity) := hf
  have hgains : r.Gains [e] [] [] { r with diagnostics := r.diagnostics.push e } :=
    ⟨rfl, rfl, rfl, rfl, by simp, by simp⟩
  unfold Settles
  rw [collect_run, hrecord]
  cases hlimit : (r.diagnostics.push e).limit? e.severity with
  | none => exact ⟨by simp [Diagnostics.admits, hlimit], rfl, hgains⟩
  | some cause => exact ⟨by simp [Diagnostics.admits, hlimit], rfl⟩

theorem settles_warn (location : Location) (message : String) :
    let e : Diagnostic :=
      ⟨Gravity.warn.severity r.diagnostics.warningsAsErrors, message, some location⟩
    Settles (warn location message) r (r.diagnostics.admits [e]) fun _ => r.Gains [e] [] [] := by
  intro e
  refine (settles_note _).sure_bind ?_
  intro _ r' _ hnote
  have hsame : r'.diagnostics = r.diagnostics := by
    rw [hnote.diagnostics, Diagnostics.extend_nil]
  refine (settles_collect e ?_).mono ?_ ?_
  · rw [hsame]
    rfl
  · rw [hsame]
  · intro _ r'' _ h
    exact hnote.trans h

theorem settles_complain (location : Location) (message : String) :
    let e : Diagnostic := ⟨.error, message, some location⟩
    Settles (complain location message) r (r.diagnostics.admits [e]) fun _ => r.Gains [e] [] [] :=
  settles_collect ⟨.error, message, some location⟩ rfl

/-! ## Assertions -/

theorem settles_refute (location : Location) (a : Assertion) :
    Acts (refute location a) r (a.gravity ≠ .fatal)
      (fun asErrors => [⟨a.gravity.severity asErrors, assertionMessage a, some location⟩])
      fun reports _ => r.Gains reports [] [] := by
  unfold refute
  cases a.gravity with
  | warn => exact (settles_warn location _).mono (by simp) fun _ _ _ h => h
  | fail => exact (settles_complain location _).mono (by simp [Gravity.severity]) fun _ _ _ h => h
  | fatal =>
    refine .get_bind (Settles.throw ?_)
    simp

/-- What a look at an assertion reports and whether it passes. -/
theorem settles_decideAssertion (location : Location) (a : Assertion) :
    Acts (decideAssertion location a) r (a.passes r.state) (a.reports r.state · location)
      fun reports answer r' => answer.isOk = !a.isOpen r.state ∧ r.Gains reports [] [] r' := by
  dsimp only [Acts]
  cases hvalue : a.condition.value r.state.resolver with
  | error o =>
    have hreports : a.reports r.state r.diagnostics.warningsAsErrors location = [] := by
      simp [Assertion.reports, Assertion.isFalse, hvalue]
    apply settles_resolver_bind
    rw [hreports]
    simp only [hvalue]
    cases o with
    | deferred missing =>
      have hpasses : a.passes r.state = !a.isStatic := by simp [Assertion.passes, hvalue]
      have hopen : a.isOpen r.state = true := by simp [Assertion.isOpen, hvalue]
      rw [hpasses, hopen]
      cases a.isStatic with
      | true => exact .throw (by simp)
      | false =>
        refine (Settles.pure ⟨rfl, .of_trail r r.trail⟩).mono ?_ fun _ _ _ h => h
        simp [Diagnostics.admits]
    | invalid reason => exact .throw (by simp [Assertion.passes, hvalue])
    | incomplete f => exact .throw (by simp [Assertion.passes, hvalue])
  | ok v =>
    have hopen : a.isOpen r.state = false := by simp [Assertion.isOpen, hvalue]
    apply settles_resolver_bind
    simp only [hvalue, hopen, Bool.not_false]
    by_cases hv : v = 0
    · have hreports : a.reports r.state r.diagnostics.warningsAsErrors location =
          [⟨a.gravity.severity r.diagnostics.warningsAsErrors, assertionMessage a,
            some location⟩] := by
        simp [Assertion.reports, Assertion.isFalse, hvalue, hv]
      rw [if_pos hv, hreports]
      refine ((settles_refute location a).bind_sure ?_).mono ?_ fun _ _ _ h => h
      · intro _ r' _ hgains
        exact .pure ⟨rfl, hgains⟩
      · simp [Assertion.passes, hvalue, hv]
    · have hreports : a.reports r.state r.diagnostics.warningsAsErrors location = [] := by
        simp [Assertion.reports, Assertion.isFalse, hvalue, hv]
      rw [if_neg hv, hreports]
      refine (Settles.pure ⟨rfl, .of_trail r r.trail⟩).mono ?_ fun _ _ _ h => h
      simp [Assertion.passes, hvalue, hv, Diagnostics.admits]

theorem settles_firstCheck (location : Location) (a : Assertion) :
    Acts (firstCheck location a) r (a.passes r.state) (a.reports r.state · location)
      fun reports _ => r.Gains reports (if a.isOpen r.state then [(location, a)] else []) [] := by
  refine (settles_decideAssertion location a).bind_sure ?_
  rintro answer r' _ ⟨hanswer, hgains⟩
  cases answer with
  | ok _ =>
    have hclosed : a.isOpen r.state = false := by simpa [Except.isOk, Except.toBool] using hanswer
    exact .pure (by simpa [hclosed] using hgains)
  | error missing =>
    have hopen : a.isOpen r.state = true := by simpa [Except.isOk, Except.toBool] using hanswer
    refine (settles_note _).sure_bind fun _ r'' _ hnote => ?_
    have hput : r''.Gains [] [(location, a)] []
        { r'' with pending := r''.pending ++ [(location, a)] } :=
      ⟨rfl, rfl, rfl, by simp, rfl, by simp⟩
    refine ⟨trivial, rfl, ?_⟩
    simpa [hopen] using (hgains.trans hnote).trans hput

theorem settles_lastCheck (location : Location) (a : Assertion) :
    Acts (lastCheck location a) r (a.passes r.state) (a.reports r.state · location)
      fun reports remains r' => remains = a.isOpen r.state ∧ r.Gains reports [] [] r' := by
  refine settles_locatedStatement ?_ location
  refine (settles_decideAssertion location a).bind_sure ?_
  rintro answer r' _ ⟨hanswer, hgains⟩
  cases answer with
  | ok _ => exact .pure ⟨by simpa [Except.isOk, Except.toBool] using hanswer, hgains⟩
  | error missing =>
    exact .pure ⟨by simpa [Except.isOk, Except.toBool] using hanswer, hgains⟩

/-! ## Messages and printing -/

theorem settles_messageText (args : List Argument) :
    Settles (messageText (exprs args)) r ((messageText? r.state args).isSome)
      fun text r' => messageText? r.state args = some text ∧ r.Gains [] [] [] r' := by
  apply settles_resolver_bind
  refine ((settles_ofExcept _).bind_sure ?_).mono ?_ fun _ _ _ h => h
  · rintro parts r' _ ⟨hparts, hgains⟩
    exact .pure ⟨by simp [messageText?, hparts], hgains⟩
  · unfold messageText?
    cases (exprs args).mapM fun e => e.constantText r.state.resolver with
    | ok parts => simp
    | error cause => simp

theorem settles_print (d : Directive) (args : List Argument) :
    Settles (print d (exprs args)) r ((printText? r.state d args).isSome)
      fun _ => r.Gains [] [] (printText? r.state d args).toList := by
  apply Settles.get_bind
  refine ((settles_ofExcept _).bind_sure ?_).mono ?_ fun _ _ _ h => h
  · rintro parts r' _ ⟨hparts, hgains⟩
    have htext : printText? r.state d args =
        some (Text.join "" parts ++ (if d = .printLine then "\n" else "")) := by
      simp [printText?, hparts]
    refine ⟨trivial, rfl, ?_⟩
    rw [htext]
    exact hgains.trans ⟨rfl, rfl, rfl, by simp, by simp, rfl⟩
  · unfold printText?
    cases (exprs args).mapM (printed r.state d) with
    | ok parts => simp
    | error cause => simp

theorem settles_reported (args : List Argument) (report : String → Diagnostic)
    {k : String → Step Unit} (hk : ∀ text r', r'.diagnostics = r.diagnostics →
      Settles (k text) r' (r'.diagnostics.admits [report text]) fun _ => r'.Gains [report text] []
        []) :
    Acts (messageText (exprs args) >>= k) r (messageText? r.state args).isSome
      (fun _ => (messageText? r.state args).toList.map report) fun reports _ => r.Gains reports []
        [] := by
  refine (settles_messageText args).bind ?_
  rintro text r' _ ⟨htext, hgains⟩
  have hsame : r'.diagnostics = r.diagnostics := by
    rw [hgains.diagnostics, Diagnostics.extend_nil]
  refine (hk text r' hsame).mono ?_ ?_
  · rw [htext, hsame]
    rfl
  · intro _ r'' _ h
    rw [htext]
    exact hgains.trans h

/-! ## All statements -/

/-- What obeying a directive reports and prints. -/
theorem settles_obey (location : Location) (d : Directive) (args : List Argument) :
    Acts (obey location d (exprs args)) r (Statement.passes r.state ⟨location, .directive d args⟩)
      (Statement.reports r.state ⟨location, .directive d args⟩)
      fun reports _ => r.Gains reports []
        (Statement.printed r.state ⟨location, .directive d args⟩) := by
  unfold Acts obey
  by_cases hprint : d.isPrint = true
  · -- a directive that prints reports nothing
    have hquiet : d ≠ .warn ∧ d ≠ .fail := by
      constructor
      · rintro rfl
        cases hprint
      · rintro rfl
        cases hprint
    have hreports : Statement.reports r.state ⟨location, .directive d args⟩
        r.diagnostics.warningsAsErrors = [] := by
      unfold Statement.reports
      split <;> simp_all
    rw [if_pos hprint, hreports]
    refine (settles_print d args).mono ?_ ?_
    · simp [Statement.passes, hprint, Diagnostics.admits]
    · intro _ r' _ h
      simpa [Statement.printed, hprint] using h
  · rw [if_neg hprint]
    split
    · refine (settles_reported args
        (⟨Gravity.warn.severity r.diagnostics.warningsAsErrors, ·, some location⟩) ?_).mono ?_ ?_
      · intro text r' hsame
        rw [← hsame]
        exact settles_warn location text
      · simp [Statement.passes, Statement.reports, Directive.isPrint]
      · intro _ r' _ h
        simpa [Statement.reports, Statement.printed, Directive.isPrint] using h
    · refine (settles_reported args (⟨.error, ·, some location⟩) ?_).mono ?_ ?_
      · intro text r' _
        exact settles_complain location text
      · simp [Statement.passes, Statement.reports, Directive.isPrint]
      · intro _ r' _ h
        simpa [Statement.reports, Statement.printed, Directive.isPrint] using h
    · next hwarn hfail =>
      have hreports : Statement.reports r.state ⟨location, .directive d args⟩
          r.diagnostics.warningsAsErrors = [] := by
        unfold Statement.reports
        split <;> simp_all
      rw [hreports]
      refine settles_nothing.mono ?_ ?_
      · simp_all [Statement.passes, Diagnostics.admits]
      · intro _ r' _ h
        simpa [Statement.printed, hprint] using h

theorem settles_handle (statement : Statement) :
    Acts (handle statement) r (statement.passes r.state) (statement.reports r.state)
      fun reports _ => r.Gains reports (statement.waiting r.state) (statement.printed r.state) := by
  rcases statement with ⟨location, form⟩
  refine settles_locatedStatement ?_ location
  cases form with
  | assertion a => exact settles_firstCheck location a
  | directive d args => exact settles_obey location d args
  | _ =>
    refine settles_nothing.mono ?_ fun _ _ _ h => h
    simp [Statement.passes, Statement.reports, Diagnostics.admits]

/-! ## Many statements -/

theorem settles_deliver (st : Statement) :
    Acts (deliver handle st) r (st.passes r.state) (st.reports r.state) fun reports _ =>
      Run.Gains { r with statements := r.statements ++ [st] } reports (st.waiting r.state)
        (st.printed r.state) :=
  settles_handle (r := { r with statements := r.statements ++ [st] }) st

/-- What delivering the statements of a line comes to. -/
theorem settles_deliverAll (statements : List Statement) :
    Acts (statements.forM (deliver handle)) r (∀ st ∈ statements, st.passes r.state)
      (Statement.allReports r.state · statements)
      fun reports _ => Run.Gains { r with statements := r.statements ++ statements } reports
        (statements.flatMap fun st => st.waiting r.state)
          (statements.flatMap fun st => st.printed r.state) := by
  induction statements generalizing r with
  | nil =>
    apply settles_nothing.mono (by simp [Statement.allReports, Diagnostics.admits])
    intro _ r' _ h
    simpa [Statement.allReports] using h
  | cons st rest ih =>
    show Acts (deliver handle st >>= fun _ => rest.forM (deliver handle)) r _
      (fun asErrors => st.reports r.state asErrors ++ Statement.allReports r.state asErrors rest) _
    rw [List.forall_mem_cons]
    refine (settles_deliver st).followed ?_
    intro _ r' hstate hgains
    refine ⟨hgains.diagnostics, ?_⟩
    -- the state stays as it is, so the rest is judged in the state that the first was judged in
    have hmore := ih (r := r')
    rw [hstate] at hmore
    apply hmore.mono Iff.rfl
    intro _ r'' _ h
    refine ⟨h.stream.trans hgains.stream, h.state, ?_, ?_, ?_, ?_⟩
    · simp [h.statements, hgains.statements]
    · simp [h.diagnostics, hgains.diagnostics]
    · simp [h.pending, hgains.pending]
    · simp [h.output, hgains.output]

/-! ## What had to wait -/

theorem settles_lastChecks (waiting kept : List (Location × Assertion)) :
    Acts (waiting.filterAuxM (fun p => lastCheck p.1 p.2) kept) r
      (∀ p ∈ waiting, p.2.passes r.state) (Assertion.allReports r.state · waiting)
      fun reports remaining r' => remaining =
        (waiting.filter fun p => p.2.isOpen r.state).reverse ++ kept ∧
        r.Gains reports [] [] r' := by
  induction waiting generalizing r kept with
  | nil =>
    refine (Settles.pure ⟨rfl, .of_trail r r.trail⟩).mono ?_ fun _ _ _ h => h
    simp [Assertion.allReports, Diagnostics.admits]
  | cons p rest ih =>
    rw [List.forall_mem_cons]
    refine (settles_lastCheck p.1 p.2).followed ?_
    rintro remains r' hstate ⟨rfl, hgains⟩
    refine ⟨hgains.diagnostics, ?_⟩
    have hmore := ih (r := r') (cond (p.2.isOpen r.state) (p :: kept) kept)
    rw [hstate] at hmore
    apply hmore.mono Iff.rfl
    rintro remaining r'' _ ⟨rfl, h⟩
    refine ⟨?_, hgains.trans h⟩
    cases hopen : p.2.isOpen r.state with
    | true => simp [hopen]
    | false => simp [hopen]

theorem settles_decidePending :
    Acts decidePending r (∀ p ∈ r.pending, p.2.passes r.state)
      (Assertion.allReports r.state · r.pending) fun reports _ =>
        Run.Gains { r with pending := r.pending.filter fun p => p.2.isOpen r.state } reports []
          [] := by
  have hchoose : Acts (r.pending.filterM fun p => lastCheck p.1 p.2) r
    (∀ p ∈ r.pending, p.2.passes r.state)
      (Assertion.allReports r.state · r.pending) fun reports remaining r' =>
        remaining = r.pending.filter (fun p => p.2.isOpen r.state) ∧ r.Gains reports [] [] r' := by
    refine (settles_lastChecks r.pending []).bind_sure ?_
    rintro remaining r' _ ⟨rfl, hgains⟩
    exact .pure ⟨by simp, hgains⟩
  refine .get_bind (hchoose.bind_sure ?_)
  rintro remaining r' hstate ⟨rfl, hgains⟩
  exact ⟨trivial, rfl, hgains.stream, hgains.state, hgains.statements, hgains.diagnostics,
    by simp, by simp [hgains.output]⟩

theorem settles_checkStatement (statement : Statement) :
    Settles (checkStatement statement) r (statement.Checked r.state)
      fun _ => r.Gains [] [] [] := by
  rcases statement with ⟨location, form⟩
  cases form with
  | instruction m operands record offset placed =>
    refine settles_locatedStatement (Settles.get_bind ?_) location
    refine (settles_ofExcept _).mono ?_ fun _ _ _ h => h.2
    exact ⟨fun h => ⟨(), h⟩, fun ⟨_, h⟩ => h⟩
  | _ => exact settles_nothing

theorem settles_checkAll (statements : List Statement) :
    Settles (statements.forM checkStatement) r (∀ st ∈ statements, st.Checked r.state)
      fun _ => r.Gains [] [] [] := by
  induction statements generalizing r with
  | nil => exact settles_nothing.mono (by simp) fun _ _ _ h => h
  | cons st rest ih =>
    refine ((settles_checkStatement st).bind fun _ r' hstate hgains => ?_).mono
      List.forall_mem_cons fun _ _ _ h => h
    have hmore := ih (r := r')
    rw [hstate] at hmore
    exact hmore.mono Iff.rfl fun _ r'' _ h => hgains.trans h

theorem settles_resolve :
    Settles resolve r
      (((∀ p ∈ r.pending, p.2.passes r.state) ∧ r.diagnostics.admits
        (Assertion.allReports r.state r.diagnostics.warningsAsErrors r.pending)) ∧
          ∀ st ∈ r.statements, st.Checked r.state)
      fun _ => Run.Gains { r with pending := r.pending.filter fun p => p.2.isOpen r.state }
        (Assertion.allReports r.state r.diagnostics.warningsAsErrors r.pending) [] [] := by
  refine settles_decidePending.bind fun _ r' hstate hgains => Settles.get_bind ?_
  refine (settles_checkAll (r := r') r'.statements).mono ?_ fun _ r'' _ h => ?_
  · rw [hstate, hgains.statements]
  · simpa using hgains.trans h

end Step

end Sm83
