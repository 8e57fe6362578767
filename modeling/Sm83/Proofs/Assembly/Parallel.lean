import Sm83.Proofs.Assembly.Assertions

/-!
# Assemblies side by side

Two runs read the same lines, in the second some lines further down, from states that differ in
places only. Acting on the statements of a line then comes to the same in both: they go on or end
together, and report, put off and print the same, the second with its places further down.
-/

namespace Sm83

open Outcome Step State

/-- A diagnostic some lines further down. -/
def Diagnostic.down (k : Nat) (d : Diagnostic) : Diagnostic :=
  { d with location := d.location.map (Location.down k) }

/-- An assertion that waits, some lines further down. -/
def Assertion.waitingDown (k : Nat) (p : Location × Assertion) : Location × Assertion :=
  (p.1.down k, p.2)

namespace Diagnostics

/-- The diagnostics, each some lines further down. -/
def down (k : Nat) (d : Diagnostics) : Diagnostics :=
  { d with entries := d.entries.map (Diagnostic.down k) }

variable (k : Nat) (d : Diagnostics)

theorem extend_down (reports : List Diagnostic) :
    (d.down k).extend (reports.map (Diagnostic.down k)) = (d.extend reports).down k := by
  simp [extend, down]

theorem count_down (severity : Severity) : (d.down k).count severity = d.count severity := by
  simp only [count, down, List.countP_map]
  rfl

theorem admits_down (reports : List Diagnostic) :
    (d.down k).admits (reports.map (Diagnostic.down k)) = d.admits reports := by
  induction reports generalizing d with
  | nil => rfl
  | cons e rest ih =>
    have hpush : (d.down k).push (e.down k) = (d.push e).down k := extend_down k d [e]
    have hlimit : ∀ severity, ((d.push e).down k).limit? severity = (d.push e).limit? severity := by
      intro severity
      simp only [limit?, count_down]
      rfl
    simp only [List.map_cons, admits, hpush, hlimit, ih]
    rfl

end Diagnostics

section

variable {s s' : State} (halike : s.placeless = s'.placeless) (k : Nat) (warningsAsErrors : Bool)

include halike

theorem State.resolver_eq_of_alike : s.resolver = s'.resolver := by
  rw [← resolver_placeless s, ← resolver_placeless s', halike]

namespace Assertion

variable (a : Assertion)

theorem isOpen_alike : a.isOpen s' = a.isOpen s := by
  simp only [isOpen, resolver_eq_of_alike halike]

theorem passes_alike : a.passes s' = a.passes s := by
  simp only [passes, resolver_eq_of_alike halike]

theorem reports_down (location : Location) :
    a.reports s' warningsAsErrors (location.down k) =
      (a.reports s warningsAsErrors location).map (Diagnostic.down k) := by
  have hfalse : a.isFalse s' = a.isFalse s := by
    simp only [isFalse, resolver_eq_of_alike halike]
  simp only [reports, hfalse]
  cases a.isFalse s with
  | true => rfl
  | false => rfl

theorem allReports_down (waiting : List (Location × Assertion)) :
    allReports s' warningsAsErrors (waiting.map (waitingDown k)) =
      (allReports s warningsAsErrors waiting).map (Diagnostic.down k) := by
  simp only [allReports, List.flatMap_map, List.map_flatMap, waitingDown,
    reports_down halike k warningsAsErrors]

end Assertion

theorem Step.isText_alike (e : Expr) : isText s' e = isText s e := by
  cases e with
  | symbol name =>
    have hkind : (s'.lookup name).map Symbol.placeless = (s.lookup name).map Symbol.placeless := by
      rw [← lookup_placeless, ← lookup_placeless, halike]
    have hany : ∀ o : Option Symbol, (o.any fun x => x.kind = .equs) =
        ((o.map Symbol.placeless).any fun x => x.kind = .equs) := by
      intro o
      cases o with
      | none => rfl
      | some x => rfl
    simp only [isText]
    rw [hany, hkind, ← hany]
  | _ => rfl

theorem Step.messageText?_alike (args : List Argument) :
    messageText? s' args = messageText? s args := by
  simp only [messageText?, resolver_eq_of_alike halike]

theorem Step.printText?_alike (d : Directive) (args : List Argument) :
    printText? s' d args = printText? s d args := by
  have hprinted : printed s' d = printed s d := by
    funext e
    simp only [printed, resolver_eq_of_alike halike, isText_alike halike]
  simp only [printText?, hprinted]

namespace Statement

variable (st : Statement)

theorem passes_down : (st.down k).passes s' = st.passes s := by
  rcases st with ⟨location, form⟩
  cases form with
  | assertion a => exact Assertion.passes_alike halike a
  | directive d args =>
    simp only [passes, down, printText?_alike halike, messageText?_alike halike]
  | _ => rfl

theorem reports_down : (st.down k).reports s' warningsAsErrors =
    (st.reports s warningsAsErrors).map (Diagnostic.down k) := by
  rcases st with ⟨location, form⟩
  cases form with
  | assertion a => exact Assertion.reports_down halike k warningsAsErrors a location
  | directive d args =>
    cases d with
    | warn => simp [reports, down, messageText?_alike halike, Diagnostic.down]
    | fail => simp [reports, down, messageText?_alike halike, Diagnostic.down]
    | _ => rfl
  | _ => rfl

theorem waiting_down :
    (st.down k).waiting s' = (st.waiting s).map (Assertion.waitingDown k) := by
  rcases st with ⟨location, form⟩
  cases form with
  | assertion a =>
    simp only [waiting, down, Assertion.isOpen_alike halike]
    cases a.isOpen s with
    | true => rfl
    | false => rfl
  | _ => rfl

theorem printed_down : (st.down k).printed s' = st.printed s := by
  rcases st with ⟨location, form⟩
  cases form with
  | directive d args => simp only [printed, down, printText?_alike halike]
  | _ => rfl

theorem checked_down : (st.down k).Checked s' ↔ st.Checked s := by
  rcases st with ⟨location, form⟩
  have hsections : s.sections = s'.sections := by
    have hplaceless := congrArg sections halike
    exact hplaceless
  cases form with
  | instruction m operands record offset placed =>
    simp only [Checked, down, address?, resolver_eq_of_alike halike, hsections]
  | _ => exact Iff.rfl

theorem allReports_down (statements : List Statement) :
    allReports s' warningsAsErrors (statements.map (down k)) =
      (allReports s warningsAsErrors statements).map (Diagnostic.down k) := by
  simp only [allReports, List.flatMap_map, List.map_flatMap, reports_down halike k warningsAsErrors]

end Statement

end

theorem Statement.legal_of_waiting {s : State} {st : Statement} {p : Location × Assertion}
    (h : st.form.legal = true) (hp : p ∈ st.waiting s) : p.2.condition.legal = true := by
  rcases st with ⟨location, form⟩
  cases form with
  | assertion a =>
    simp only [waiting] at hp
    split at hp
    · rw [List.mem_singleton.mp hp]
      exact h
    · cases hp
  | _ => cases hp

/-- What has come of two runs is the same, in the second some lines further down. -/
structure Run.Parallel (k : Nat) (r r' : Run) : Prop where
  diagnostics : r'.diagnostics = r.diagnostics.down k
  pending : r'.pending = r.pending.map (Assertion.waitingDown k)
  output : r'.output = r.output

namespace Run.Parallel

variable {k : Nat} {r r' u u' : Run}

theorem movesOn (h : r.Parallel k r') (hu : r.MovesOn u) (hu' : r'.MovesOn u') :
    u.Parallel k u' := by
  refine ⟨?_, ?_, ?_⟩
  · rw [hu'.diagnostics, hu.diagnostics, h.diagnostics]
  · rw [hu'.pending, hu.pending, h.pending]
  · rw [hu'.output, hu.output, h.output]

theorem gains {reports : List Diagnostic} {waiting : List (Location × Assertion)}
    {printed : List String} (h : r.Parallel k r') (hu : r.Gains reports waiting printed u)
    (hu' : r'.Gains (reports.map (Diagnostic.down k)) (waiting.map (Assertion.waitingDown k))
      printed u') : u.Parallel k u' := by
  refine ⟨?_, ?_, ?_⟩
  · rw [hu'.diagnostics, hu.diagnostics, h.diagnostics, Diagnostics.extend_down]
  · rw [hu'.pending, hu.pending, h.pending, List.map_append]
  · rw [hu'.output, hu.output, h.output]

end Run.Parallel

namespace Step

variable {α β : Type} {e : Frame} {m n n' : Nat}

theorem Settles.agree {x : Step α} {y : Step β} {r r' : Run} {allowed allowed' : Prop}
    {Q : α → Run → Prop} {Q' : β → Run → Prop} {T : α → Run → Run → Prop}
    (hx : Settles x r allowed Q) (hy : Settles y r' allowed' Q') (hboth : allowed ↔ allowed')
    (hT : ∀ a b u u', u.state = r.state → Q a u → u'.state = r'.state → Q' b u' → T a u u') :
    Agree False (fun _ _ => True) (fun _ _ => True) T (x r) (y r') := by
  cases hxr : x r with
  | ok a u =>
    rcases hx.of_ok hxr with ⟨hallowed, hstate, hQ⟩
    cases hyr : y r' with
    | ok b u' =>
      rcases hy.of_ok hyr with ⟨_, hstate', hQ'⟩
      exact .ok trivial (hT a b u u' hstate hQ hstate' hQ')
    | error f u' => exact absurd (hboth.mp hallowed) (hy.of_error hyr).1
  | error f u =>
    cases hyr : y r' with
    | ok b u' => exact absurd (hboth.mpr (hy.of_ok hyr).1) (hx.of_error hxr).1
    | error f' u' => exact .error trivial

/-- Two runs over the same lines, with the same come of both. -/
def Together (e : Frame) (m : Nat) (r r' : Run) : Prop :=
  On e (Done e m) r r' ∧ r.Parallel e.lines r'

/-- Two runs in parallel read the same next line. -/
theorem follows_nextLine_parallel (halone : e.after = none) :
    Sm83.Follows False (fun _ _ => True) (Together e m) nextLine nextLine (NextAlike e) fun o =>
      match o with
      | some _ => Together e (m - 1)
      | none => Together e m := by
  rintro r r' ⟨hon, hparallel⟩
  have hagree := follows_nextLine_alone halone r r' hon
  cases hr : nextLine r with
  | ok o u =>
    cases hr' : nextLine r' with
    | ok o' u' =>
      rw [hr, hr'] at hagree
      -- both runs only move on, and a run that only moves on keeps what it has gained
      have hmoved := hparallel.movesOn (operates_nextLine.of_ok hr) (operates_nextLine.of_ok hr')
      cases hagree with
      | ok halike hu =>
        cases o with
        | none => exact .ok halike ⟨hu, hmoved⟩
        | some ss => exact .ok halike ⟨hu, hmoved⟩
    | error f u' =>
      rw [hr, hr'] at hagree
      cases hagree
  | error f u =>
    cases hr' : nextLine r' with
    | ok o' u' =>
      rw [hr, hr'] at hagree
      cases hagree with
      | further hafter _ => simp [halone] at hafter
    | error f' u' => exact .error trivial

/-- Two runs in parallel deliver the same statements. -/
theorem follows_deliverAll_parallel {ss ss' : List Statement} (halike : AllAlike e ss ss') :
    Sm83.Follows False (fun _ _ => True) (Together e m) (ss.forM (deliver handle))
      (ss'.forM (deliver handle)) (fun _ _ => True) fun _ => Together e m := by
  rcases halike with ⟨rfl, hlegal⟩
  rintro r r' ⟨hon, hparallel⟩
  have halike := hon.framed.state.placeless_eq
  have hmode : r'.diagnostics.warningsAsErrors = r.diagnostics.warningsAsErrors := by
    rw [hparallel.diagnostics]
    rfl
  refine (settles_deliverAll ss).agree (settles_deliverAll (ss.map (Statement.down e.lines))) ?_ ?_
  · -- the same statements pass, and as many reports are too many
    refine and_congr ?_ ?_
    · simp only [List.forall_mem_map, Statement.passes_down halike]
    · dsimp only
      rw [hmode, Statement.allReports_down halike, hparallel.diagnostics, Diagnostics.admits_down]
  · -- both gain the same, so they stay side by side
    intro _ _ u u' _ hgains _ hgains'
    dsimp only at hgains'
    rw [hmode, Statement.allReports_down halike] at hgains'
    simp only [List.flatMap_map, Statement.waiting_down halike, Statement.printed_down halike,
      ← List.map_flatMap] at hgains'
    have hgiven : Run.Parallel e.lines { r with statements := r.statements ++ ss }
        { r' with statements := r'.statements ++ ss.map (Statement.down e.lines) } :=
      ⟨hparallel.diagnostics, hparallel.pending, hparallel.output⟩
    refine ⟨.done ?_ ⟨?_, ?_, ?_, ?_⟩, hgiven.gains hgains hgains'⟩
    · rw [hgains.stream, hgains'.stream]
      exact hon.stream
    · rw [hgains.state, hgains'.state]
      exact hon.framed.state
    · rw [hgains.statements, hgains'.statements]
      simp [hon.framed.statements]
    · rw [hgains.statements]
      exact List.forall_mem_append.mpr ⟨hon.framed.legal, hlegal⟩
    · rw [hgains.pending]
      refine List.forall_mem_append.mpr ⟨hon.framed.pending, ?_⟩
      intro p hp
      rcases List.mem_flatMap.mp hp with ⟨st, hst, hwaits⟩
      exact Statement.legal_of_waiting (hlegal st hst) hwaits

theorem follows_lines_parallel (halone : e.after = none) (hn : m ≤ n) (hn' : m ≤ n') :
    Sm83.Follows False (fun _ _ => True) (Together e m) (lines handle n) (lines handle n')
      (fun _ _ => True) fun _ => Together e m :=
  follows_lines halone (fun h => h.1) (fun h => ⟨h.1.done_mono (Nat.sub_le _ 1), h.2⟩)
    (fun _ => follows_nextLine_parallel halone) follows_deliverAll_parallel hn hn'

/-- What two assemblies have come to, the second of which has had statements of its own before. -/
structure Ends (e : Frame) (r r' : Run) : Prop where
  statements : r'.statements = e.statements ++ r.statements.map (Statement.down e.lines)
  state : r.state.placeless = r'.state.placeless
  parallel : r.Parallel e.lines r'

theorem Together.ends {r r' : Run} (h : Together e m r r') : Ends e r r' :=
  ⟨h.1.framed.statements, h.1.framed.state.placeless_eq, h.2⟩

theorem follows_note_parallel (events events' : List Event) :
    Sm83.Follows False (fun _ _ => True) (Ends e) (note events) (note events') (fun _ _ => True)
      fun _ => Ends e :=
  Follows.modify fun _ _ h =>
    ⟨h.statements, h.state, h.parallel.diagnostics, h.parallel.pending, h.parallel.output⟩

/-- Two runs in parallel take the same second looks. -/
theorem follows_resolve_parallel (hfree : ∀ st ∈ e.statements, ∀ s, st.Checked s) :
    Sm83.Follows False (fun _ _ => True) (Ends e) resolve resolve (fun _ _ => True)
      fun _ => Ends e := by
  intro r r' h
  have hmode : r'.diagnostics.warningsAsErrors = r.diagnostics.warningsAsErrors := by
    rw [h.parallel.diagnostics]
    rfl
  have hreports : Assertion.allReports r'.state r'.diagnostics.warningsAsErrors r'.pending =
      (Assertion.allReports r.state r.diagnostics.warningsAsErrors r.pending).map
        (Diagnostic.down e.lines) := by
    rw [hmode, h.parallel.pending, Assertion.allReports_down h.state]
  have hopen : (r'.pending.filter fun p => p.2.isOpen r'.state) =
      (r.pending.filter fun p => p.2.isOpen r.state).map (Assertion.waitingDown e.lines) := by
    rw [h.parallel.pending, List.filter_map]
    simp only [Function.comp_def, Assertion.waitingDown, Assertion.isOpen_alike h.state]
  refine settles_resolve.agree settles_resolve ?_ ?_
  · refine and_congr (and_congr ?_ ?_) ?_
    · rw [h.parallel.pending, List.forall_mem_map]
      simp only [Assertion.waitingDown, Assertion.passes_alike h.state]
    · rw [hreports, h.parallel.diagnostics, Diagnostics.admits_down]
    · rw [h.statements, List.forall_mem_append, List.forall_mem_map]
      simp only [Statement.checked_down h.state]
      exact ⟨fun hall => ⟨fun st hst => hfree st hst _, hall⟩, fun hall => hall.2⟩
  · -- what is still open stays, and both gain the same reports
    intro _ _ u u' hstate hgains hstate' hgains'
    have hgiven :
        Run.Parallel e.lines { r with pending := r.pending.filter fun p => p.2.isOpen r.state }
        { r' with pending := r'.pending.filter fun p => p.2.isOpen r'.state } :=
      ⟨h.parallel.diagnostics, hopen, h.parallel.output⟩
    rw [hreports] at hgains'
    refine ⟨?_, ?_, hgiven.gains hgains hgains'⟩
    · rw [hgains.statements, hgains'.statements]
      exact h.statements
    · rw [hstate, hstate']
      exact h.state

/-- What follows when all lines have been read. -/
def conclude : Step Unit := do
  let r ← get
  note [.sourceRead r.statements.length r.stream.source.file]
  resolve
  summarize

theorem follows_conclude (hfree : ∀ st ∈ e.statements, ∀ s, st.Checked s) :
    Sm83.Follows False (fun _ _ => True) (Ends e) conclude conclude (fun _ _ => True)
      fun _ => Ends e := by
  apply Follows.get_bind
  intro r r' _
  apply Follows.bind (follows_note_parallel _ _)
  intro _ _ _
  apply Follows.bind (follows_resolve_parallel hfree)
  intro _ _ _
  apply Follows.get_bind
  intro u u' _
  exact follows_note_parallel _ _

theorem follows_rest_parallel (halone : e.after = none)
    (hfree : ∀ st ∈ e.statements, ∀ s, st.Checked s) (hn : m ≤ n) (hn' : m ≤ n') :
    Sm83.Follows False (fun _ _ => True) (Together e m) (lines handle n >>= fun _ => conclude)
      (lines handle n' >>= fun _ => conclude) (fun _ _ => True) fun _ => Ends e := by
  apply Follows.bind (follows_lines_parallel halone hn hn')
  intro _ _ _
  exact (follows_conclude hfree).pre fun _ _ h => Together.ends h

theorem assemble_eq_ok_iff {settings : Settings} {r p u : Run}
    (h : predefine settings r = .ok () p) : assemble settings r = .ok () u ↔
      (lines handle p.stream.bound >>= fun _ => conclude) p = .ok () u := by
  show (predefine settings >>= _) r = _ ↔ _
  rw [run_bind_of_ok h]
  rw [run_bind_eq_ok_iff, run_bind_eq_ok_iff]
  cases hlines : lines handle p.stream.bound p with
  | error f w =>
    have hparse : parse handle p = .error f w := run_bind_of_error hlines _
    simp [readAll, hparse]
  | ok _ w =>
    -- the note that the source has been read belongs to the one part here and to the other there
    have hparse : parse handle p = .ok ()
        (w.note [.sourceRead w.statements.length w.stream.source.file]) :=
        run_bind_of_ok hlines _
    have hread : readAll p =
        .ok () (w.note [.sourceRead w.statements.length w.stream.source.file]) := by
      simp only [readAll, hparse]
    rw [hread]
    constructor
    · rintro ⟨_, w', hnoted, hrest⟩
      cases hnoted
      exact ⟨_, w, rfl, hrest⟩
    · rintro ⟨_, w', hsame, hrest⟩
      cases hsame
      exact ⟨_, _, rfl, hrest⟩

end Step

end Sm83
