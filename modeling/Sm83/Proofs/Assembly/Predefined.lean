import Sm83.Proofs.Assembly.Parallel
import Sm83.Proofs.Run.Equate

/-!
# Symbols of the settings

A symbol of the settings is as good as a line at the start of the source that defines it.
-/

namespace Sm83

open Outcome State

variable {name : String} {s : State}

/-- The state in which further constants have been defined, if all of them can be. -/
def State.withConstants (s : State) : List (String × Int) → Option State
  | [] => some s
  | (name, value) :: rest =>
    match s.defineConstant name value false none with
    | .ok (_, s') => s'.withConstants rest
    | .error _ => none

theorem State.withConstants_append (s : State) (first rest : List (String × Int)) :
    s.withConstants (first ++ rest) = (s.withConstants first).bind (·.withConstants rest) := by
  induction first generalizing s with
  | nil => rfl
  | cons c first ih =>
    rcases c with ⟨name, value⟩
    simp only [List.cons_append, withConstants]
    cases s.defineConstant name value false none with
    | ok defined => exact ih defined.2
    | error e => rfl

theorem State.withConstants_define {settings : Settings}
    (h : settings.defines.contains name = false) (value : Int) (s : State) :
    s.withConstants (settings.define name value).defines.entries =
      (s.withConstants settings.defines.entries).bind (·.withConstants [(name, value)]) := by
  have hentries : (settings.define name value).defines.entries =
      settings.defines.entries ++ [(name, value)] := by
    simp [Settings.define, Table.insert, h]
  rw [hentries, withConstants_append]

variable {x : Symbol}

theorem State.defineConstant_global {s' : State} {value : Int} {exported : Bool}
    {place : Option Location} (hname : isGlobalName name = true)
    (h : s.defineConstant name value exported place = .ok (x, s')) :
    x.name = name ∧ x.kind = .equ ∧ x.value = .number (Word.wrap value) := by
  have hstart : name.toList.head? ≠ some '.' := by
    intro hdot
    rcases headIs_iff.mp (parts_of_isGlobalName hname).1 with ⟨c, cs, hcs, hc⟩
    rw [hcs] at hdot
    cases hdot
    cases hc
  rcases defineConstant_bound h with ⟨full, hfull, hx, _⟩
  rw [qualify, if_neg hstart] at hfull
  cases hfull
  rw [hx]
  exact ⟨rfl, rfl, rfl⟩

/-- The run at the start of a source, once the symbols of the settings have led to a state. -/
def Run.opened (settings : Settings) (source : Source) (state : State) (trail : List Event) : Run :=
  { Run.initial settings source with state := state, trail := trail }

namespace Step

variable {settings : Settings} {r : Run}

theorem discard_define_ok {f : State → Except Error (Symbol × State)} (h : f r.state = .ok (x, s)) :
    discard (define f) r = .ok () ({ r with state := s }.note (Event.ofDefinition r.state x)) := by
  show EStateM.map _ (define f) r = _
  unfold EStateM.map
  rw [define_run, h]

theorem discard_define_error {f : State → Except Error (Symbol × State)} {e : Error}
    (h : f r.state = .error e) : discard (define f) r = .error (.error e) r := by
  show EStateM.map _ (define f) r = _
  unfold EStateM.map
  rw [define_run, h]

theorem predefine_outcome (settings : Settings) (r : Run) :
    (∃ s trail, r.state.withConstants settings.defines.entries = some s ∧
      predefine settings r = .ok () { r with state := s, trail := trail }) ∨
    (r.state.withConstants settings.defines.entries = none ∧
      ∃ f u, predefine settings r = .error f u) := by
  unfold predefine
  generalize settings.defines.entries = entries
  -- one symbol after the other, each from the state that the symbols before it have led to
  induction entries generalizing r with
  | nil => exact .inl ⟨r.state, r.trail, rfl, rfl⟩
  | cons c entries ih =>
    rcases c with ⟨name, value⟩
    simp only [withConstants]
    cases hdefine : r.state.defineConstant name value false none with
    | error e =>
      have hfirst :=
        discard_define_error (f := fun s => s.defineConstant name value false none) hdefine
      exact .inr ⟨rfl, .error e, r, run_bind_of_error hfirst fun _ => entries.forM _⟩
    | ok defined =>
      have hfirst :=
        discard_define_ok (f := fun s => s.defineConstant name value false none) hdefine
      have hrest := run_bind_of_ok hfirst fun _ => entries.forM fun entry =>
        discard (define fun s => s.defineConstant entry.1 entry.2 false none)
      rcases ih ({ r with state := defined.2 }.note (Event.ofDefinition r.state defined.1)) with
        ⟨s, trail, hsome, hok⟩ | ⟨hnone, f, u, herror⟩
      · exact .inl ⟨s, trail, hsome, hrest.trans hok⟩
      · exact .inr ⟨hnone, f, u, hrest.trans herror⟩

theorem predefine_ok (h : r.state.withConstants settings.defines.entries = some s) :
    ∃ trail, predefine settings r = .ok () { r with state := s, trail := trail } := by
  rcases predefine_outcome settings r with ⟨s', trail, hsome, hok⟩ | ⟨hnone, _⟩
  · rw [h] at hsome
    cases hsome
    exact ⟨trail, hok⟩
  · rw [h] at hnone
    cases hnone

theorem predefine_error (h : r.state.withConstants settings.defines.entries = none) :
    ∃ f u, predefine settings r = .error f u := by
  rcases predefine_outcome settings r with ⟨s', _, hsome, _⟩ | ⟨_, hfailed⟩
  · rw [h] at hsome
    cases hsome
  · exact hfailed

/-- Both assemblies succeed, with runs that are related, or both fail. -/
def EndAlike (T : Run → Run → Prop) (x y : EStateM.Result Failure Run Unit) : Prop :=
  (∃ u u', x = .ok () u ∧ y = .ok () u' ∧ T u u') ∨
    ((∃ f u, x = .error f u) ∧ ∃ f u, y = .error f u)

theorem EndAlike.imp {T T' : Run → Run → Prop} {x y : EStateM.Result Failure Run Unit}
    (h : EndAlike T x y) (hT : ∀ u u', T u u' → T' u u') : EndAlike T' x y := by
  rcases h with ⟨u, u', hx, hy, h⟩ | hfail
  · exact .inl ⟨u, u', hx, hy, hT u u' h⟩
  · exact .inr hfail

theorem assemble_error (h : ∃ f u, predefine settings r = .error f u) :
    ∃ f u, Step.assemble settings r = .error f u := by
  rcases h with ⟨f, u, h⟩
  exact ⟨f, u, run_bind_of_error h _⟩

theorem assemble_error_of_rest {p : Run} (h : predefine settings r = .ok () p)
    (hrest : ∃ f u, (lines handle p.stream.bound >>= fun _ => conclude) p = .error f u) :
    ∃ f u, Step.assemble settings r = .error f u := by
  rcases hrest with ⟨f, u, hrest⟩
  cases hassemble : Step.assemble settings r with
  | ok _ w =>
    rw [(assemble_eq_ok_iff h).mp hassemble] at hrest
    cases hrest
  | error f w => exact ⟨f, w, rfl⟩

theorem assemble_alike {settings' : Settings} {r' p p' : Run} {T : Run → Run → Prop}
    (h : predefine settings r = .ok () p) (h' : predefine settings' r' = .ok () p')
    (hagree : Agree False (fun _ _ => True) (fun _ _ => True) (fun _ => T)
      ((lines handle p.stream.bound >>= fun _ => conclude) p)
      ((lines handle p'.stream.bound >>= fun _ => conclude) p')) :
    EndAlike T (Step.assemble settings r) (Step.assemble settings' r') := by
  -- what is left succeeds together, and an assembly fails exactly where what is left does
  cases hx : (lines handle p.stream.bound >>= fun _ => conclude) p with
  | ok _ u =>
    cases hy : (lines handle p'.stream.bound >>= fun _ => conclude) p' with
    | ok _ u' =>
      rw [hx, hy] at hagree
      cases hagree with
      | ok _ hT =>
        exact .inl ⟨u, u', (assemble_eq_ok_iff h).mpr hx, (assemble_eq_ok_iff h').mpr hy, hT⟩
    | error f u' =>
      rw [hx, hy] at hagree
      cases hagree
  | error f u =>
    cases hy : (lines handle p'.stream.bound >>= fun _ => conclude) p' with
    | ok _ u' =>
      rw [hx, hy] at hagree
      cases hagree with
      | further hfalse _ => exact hfalse.elim
    | error f' u' =>
      exact .inr ⟨assemble_error_of_rest h ⟨f, u, hx⟩, assemble_error_of_rest h' ⟨f', u', hy⟩⟩

theorem lines_error {f : Failure} {w : Run} (h : nextLine r = .error f w) (m : Nat) :
    (lines handle (m + 1) >>= fun _ => conclude) r = .error f w :=
  run_bind_of_error (run_bind_of_error h _) _

section

variable {name text : String} {base n : Nat} (hname : isGlobalName name = true)
  (h : Written base text.toList n) (hlexes : Lexes text.toList [.number (Word.wrap n)])
    {second whole : Source}
  (hfile : whole.file = second.file)
  (htext : whole.text = (equateLine name text).toList ++ '\n' :: second.text) {s : State}

include hname h hlexes hfile htext

theorem nextLine_equate_error (settings : Settings) {e : Error}
    (hdefine : s.defineConstant name n false none = .error e) (trail : List Event) :
    ∃ f w, nextLine (.opened settings whole s trail) = .error f w := by
  rcases Run.nextLine_equate hname h hlexes hfile htext (r := .opened settings whole s trail) rfl
    rfl with
    ⟨l, hrefused, _⟩
  -- the line gives the name a place, which the settings do not
  rcases defineConstant_alike s name n false none (some l) with
    ⟨_, _, hok, _, _⟩ | ⟨_, e', _, herror⟩
  · rw [hdefine] at hok
    cases hok
  · exact hrefused e' herror

/-- The line defines the name as the settings would. -/
theorem nextLine_equate_ok (settings : Settings) {t : State}
    (hdefine : s.defineConstant name n false none = .ok (x, t)) (trail : List Event) :
    ∃ l u w, nextLine (.opened settings whole s trail) =
        .ok (some [⟨l, .symbol name .equ (.number (Word.wrap n)) .equ⟩]) w ∧
      t.placeless = u.state.placeless ∧
      u.statements = [⟨l, .symbol name .equ (.number (Word.wrap n)) .equ⟩] ∧
      On (.first (.ofText (equateLine name text) second.file) s second.text)
        (Past (.first (.ofText (equateLine name text) second.file) s second.text)) u
        { w with statements := w.statements ++ u.statements } := by
  rcases Run.nextLine_equate hname h hlexes hfile htext (r := .opened settings whole s trail) rfl
    rfl with
    ⟨l, _, hline⟩
  rcases defineConstant_alike s name n false none (some l) with
    ⟨_, ⟨x', t'⟩, hok, hok', halike⟩ | ⟨_, _, herror, _⟩
  · rw [hdefine] at hok
    cases hok
    rcases hline x' t' hok' with ⟨u, w, hnext, rfl, hpast⟩
    rcases defineConstant_global hname hok' with ⟨hname', hkind, hvalue⟩
    rw [hname', hkind, hvalue] at hnext
    refine ⟨l, { u with statements := [⟨l, .symbol name .equ (.number (Word.wrap n)) .equ⟩] }, w,
      hnext,
      halike, rfl, hpast.stream, hpast.sound, hpast.file, hpast.framed.state, ?_, ?_,
        hpast.framed.pending⟩
    · -- reading the line has handed nothing over yet
      have hstatements : w.statements = [] := (operates_nextLine.of_ok hnext).statements
      rw [hstatements]
      exact (down_zero_statements _).symm
    · intro st hst
      rw [List.mem_singleton.mp hst]
      rfl
  · rw [hdefine] at herror
    cases herror

/-- Nothing is done on the statement of the line. Behind it the run goes on like a run over the rest
of the source in which the settings have defined the name. -/
theorem together_equate (settings : Settings) {t : State}
    (hdefine : s.defineConstant name n false none = .ok (x, t)) (trail trail' : List Event) :
    ∃ e w l, (∀ m, lines handle (m + 1) (.opened settings whole s trail) = lines handle m w) ∧
      Together e (second.text.length + 1) (.opened settings second t trail') w ∧
      e.after = none ∧ e.lines = 1 ∧
      e.statements = [⟨l, .symbol name .equ (.number (Word.wrap n)) .equ⟩] := by
  rcases nextLine_equate_ok hname h hlexes hfile htext settings hdefine trail with
    ⟨l, u, w, hnext, halike, hgiven, hpast⟩
  have hmoved := operates_nextLine.of_ok hnext
  have hfile' : second.file = (Source.ofText (equateLine name text) second.file).file := rfl
  have hsecond := Run.on_past hfile' halike
    (.empty settings.maxErrors settings.warningsAsErrors) hpast
  have hcount : (splitLines (Source.ofText (equateLine name text) second.file).text).length =
      1 := by
    rw [splitLines_count, equateLine_text hname h, List.count_eq_zero.mpr]
    intro hmem
    exact (equateLine_plain hname h hmem).1 rfl
  -- the runs of `hsecond` and of the goal have different trails, so it is taken apart
  refine ⟨_, _, l, ?_, ⟨⟨hsecond.stream, hsecond.sound, hsecond.file, hsecond.framed.state,
    hsecond.framed.statements, hsecond.framed.legal, hsecond.framed.pending⟩, ?_⟩, rfl, hcount,
      hgiven⟩
  · intro m
    apply lines_line hnext
    rw [hgiven]
    rfl
  · exact ⟨hmoved.diagnostics, hmoved.pending, hmoved.output⟩

end

end Step

/-- What an assembly with the name in its settings comes to, and one with the line in its source. -/
def Run.Besides (name : String) (n : Nat) (r r' : Run) : Prop :=
  (∃ l, r'.statements = ⟨l, .symbol name .equ (.number (Word.wrap n)) .equ⟩ ::
    r.statements.map (Statement.down 1)) ∧
  r.state.placeless = r'.state.placeless ∧ r.Parallel 1 r'

namespace Step

section

variable {settings : Settings} {name text : String} {base n : Nat}
  (hname : isGlobalName name = true) (h : Written base text.toList n)
    (hlexes : Lexes text.toList [.number (Word.wrap n)])
  (hfree : settings.defines.contains name = false) {second whole : Source}
  (hfile : whole.file = second.file)
  (htext : whole.text = (equateLine name text).toList ++ '\n' :: second.text)

include hname h hlexes hfree hfile htext

theorem assemble_equate_of_error {e : Error}
    (hstate : (fresh settings.exportAll).withConstants settings.defines.entries = some s)
    (hdefine : s.defineConstant name n false none = .error e) :
    (∃ f u, Sm83.assemble (settings.define name n) second = .error f u) ∧
      ∃ f u, Sm83.assemble settings whole = .error f u := by
  have hentries := withConstants_define hfree n (.fresh settings.exportAll)
  have hnone : s.withConstants [(name, (n : Int))] = none := by
    simp only [withConstants, hdefine]
  rw [hstate, Option.bind_some, hnone] at hentries
  rcases predefine_ok (r := .initial settings whole) hstate with ⟨trail, hright⟩
  rcases nextLine_equate_error hname h hlexes hfile htext settings hdefine trail with ⟨f, w, hnext⟩
  exact ⟨assemble_error (predefine_error hentries),
    assemble_error_of_rest hright ⟨f, w, lines_error hnext _⟩⟩

/-- With a name that can be defined, both assemblies end alike. -/
theorem assemble_equate_of_ok {t : State}
    (hstate : (fresh settings.exportAll).withConstants settings.defines.entries = some s)
    (hdefine : s.defineConstant name n false none = .ok (x, t)) :
    EndAlike (Run.Besides name n) (Sm83.assemble (settings.define name n) second)
      (Sm83.assemble settings whole) := by
  have hentries := withConstants_define hfree n (.fresh settings.exportAll)
  have hsome : s.withConstants [(name, (n : Int))] = some t := by
    simp only [withConstants, hdefine]
  rw [hstate, Option.bind_some, hsome] at hentries
  rcases predefine_ok (r := .initial settings whole) hstate with ⟨trail, hright⟩
  rcases predefine_ok (r := .initial (settings.define name n) second) hentries with ⟨trail', hleft⟩
  rcases together_equate hname h hlexes hfile htext settings hdefine trail trail' with
    ⟨e, w, l, hlines, htogether, halone, hone, hstatements⟩
  have hunchecked : ∀ st ∈ e.statements, ∀ s, st.Checked s := by
    rw [hstatements]
    intro st hst _
    rw [List.mem_singleton.mp hst]
    trivial
  have hlength : second.text.length + 1 ≤ whole.text.length + 1 := by
    simp only [htext, List.length_append, List.length_cons]
    omega
  -- the line takes one unit of the fuel, and the rest of the source needs no more than is left
  have hrest := follows_rest_parallel halone hunchecked (Nat.le_succ _) hlength _ _ htogether
  have hbehind : (lines handle (whole.text.length + 1) >>= fun _ => conclude) w =
      (lines handle (whole.text.length + 2) >>= fun _ => conclude)
        (.opened settings whole s trail) := by
    simp only [bind, EStateM.bind, hlines]
  rw [hbehind] at hrest
  refine (assemble_alike hleft hright hrest).imp ?_
  intro r r' hends
  refine ⟨⟨l, ?_⟩, hends.state, ?_⟩
  · rw [hends.statements, hstatements, hone]
    rfl
  · rw [← hone]
    exact hends.parallel

theorem assemble_equate :
    EndAlike (Run.Besides name n) (Sm83.assemble (settings.define name n) second)
      (Sm83.assemble settings whole) := by
  cases hstate : (fresh settings.exportAll).withConstants settings.defines.entries with
  | none =>
    -- the settings cannot even define their other symbols
    have hentries := withConstants_define hfree n (.fresh settings.exportAll)
    rw [hstate, Option.bind_none] at hentries
    exact .inr ⟨assemble_error (predefine_error hentries), assemble_error (predefine_error hstate)⟩
  | some s =>
    cases hdefine : s.defineConstant name n false none with
    | error e =>
      exact .inr (assemble_equate_of_error hname h hlexes hfree hfile htext hstate hdefine)
    | ok defined => exact assemble_equate_of_ok hname h hlexes hfree hfile htext hstate hdefine

end

end Step

theorem text_equateLine {text : String} {base n : Nat} (hname : isGlobalName name = true)
    (h : Written base text.toList n) (source file : String) :
    (Source.ofText (equateLine name text ++ "\n" ++ source) file).text =
      (equateLine name text).toList ++ '\n' :: (Source.ofText source file).text := by
  have hform : (equateLine name text ++ "\n" ++ source).toList =
      (equateLine name text).toList ++ '\n' :: source.toList := by
    simp
  show uniformLineEnds _ = _
  rw [hform]
  exact uniformLineEnds_append (fun hmem => (equateLine_plain hname h hmem).2.1 rfl) _

theorem assemble_equate_long {text : String} {base n : Nat} (hname : isGlobalName name = true)
    (h : Written base text.toList n) (hlong : base = 10 ∧ Text.decimalLimit < text.toList.length)
    (settings : Settings) (source file : String) :
    ∃ f r, assemble settings (.ofText (equateLine name text ++ "\n" ++ source) file) =
      .error f r := by
  have htext := text_equateLine hname h source file
  rcases Step.predefine_outcome settings (.initial settings (.ofText _ file)) with
    ⟨s, trail, _, hok⟩ | ⟨_, hfailed⟩
  · rcases Run.nextLine_equate_long hname h hlong htext (r := .opened settings _ s trail) rfl with
      ⟨f, w, hnext⟩
    exact Step.assemble_error_of_rest hok ⟨f, w, Step.lines_error hnext _⟩
  · exact Step.assemble_error hfailed

/-- Let a name be free in the settings and a number be written in decimal, hexadecimal or binary
digits. If the decimal digits are too many, a definition by this text is refused, and so is a source
with the line that defines it. Otherwise the assembly goes alike whether the settings define the
name or a line at the start of the source does, but for places one line further down. -/
theorem predefined_as_equate {settings : Settings} {name text : String} {base n : Nat}
    (hname : isGlobalName name = true) (h : Written base text.toList n) (hn : n < 2 ^ 32)
    (hfree : settings.defines.contains name = false) (source file : String) :
    let whole := Source.ofText (name ++ " equ " ++ text ++ "\n" ++ source) file
    let defined := assemble (settings.define name n) (.ofText source file)
    (base = 10 ∧ Text.decimalLimit < text.toList.length →
      Definition.read (name ++ "=" ++ text) = .error (.badValue (name ++ "=" ++ text)) ∧
      ∃ f r, assemble settings whole = .error f r) ∧
    (¬ (base = 10 ∧ Text.decimalLimit < text.toList.length) →
      Definition.read (name ++ "=" ++ text) = .ok ⟨name, n⟩ ∧
      ((∃ r r' l, defined = .ok () r ∧ assemble settings whole = .ok () r' ∧
        r'.statements = ⟨l, .symbol name .equ (.number (Word.wrap n)) .equ⟩ ::
          r.statements.map (Statement.down 1) ∧
        r'.state.placeless = r.state.placeless ∧
        r'.output = r.output ∧
        r'.diagnostics.entries = r.diagnostics.entries.map (Diagnostic.down 1) ∧
        r'.pending = r.pending.map (Assertion.waitingDown 1)) ∨
      ((∃ f r, defined = .error f r) ∧ ∃ f r, assemble settings whole = .error f r))) := by
  have hread := Definition.read_written hname h
  refine ⟨fun hlong => ?_, fun hshort => ?_⟩
  · rw [if_pos hlong] at hread
    exact ⟨hread, assemble_equate_long hname h hlong settings source file⟩
  · rw [if_neg hshort] at hread
    refine ⟨hread, ?_⟩
    have hfile : (Source.ofText (equateLine name text ++ "\n" ++ source) file).file =
        (Source.ofText source file).file := rfl
    rcases Step.assemble_equate hname h (h.lexes hshort hn) hfree hfile
      (text_equateLine hname h source file) with
      ⟨r, r', hleft, hright, ⟨l, hstatements⟩, hstate, hparallel⟩ | hfailed
    · refine .inl ⟨r, r', l, hleft, hright, hstatements, hstate.symm, hparallel.output, ?_,
        hparallel.pending⟩
      rw [hparallel.diagnostics]
      rfl
    · exact .inr hfailed

/-- A source that prints a name, reports on it, and leaves open how it compares. -/
def Source.usesName : String :=
  "println N\nassert warn, N == 0\nassert later == N"

/-- The name is a number of the settings, or that of the line `N equ $1F`. The report and the open
assertion are on the second and the third line of the source, and one further down behind that line.
-/
theorem predefined_as_equate_reported :
    isGlobalName "N" = true ∧ Written 16 "$1F".toList 31 ∧
    Settings.standard.defines.contains "N" = false ∧ Definition.read "N=$1F" = .ok ⟨"N", 31⟩ ∧
    ∃ r r' l, assemble (Settings.standard.define "N" 31) (.ofText Source.usesName "f.asm") =
      .ok () r ∧
      assemble .standard (.ofText ("N equ $1F\n" ++ Source.usesName) "f.asm") = .ok () r' ∧
      r'.statements = ⟨l, .symbol "N" .equ (.number 31) .equ⟩ ::
        r.statements.map (Statement.down 1) ∧
      r'.state.placeless = r.state.placeless ∧ r'.output = r.output ∧
      r.diagnostics.entries.map (fun d => d.location.map Location.line) = [some 2] ∧
      r'.diagnostics.entries = r.diagnostics.entries.map (Diagnostic.down 1) ∧
      r.pending.map (fun p => p.1.line) = [3] ∧
      r'.pending = r.pending.map (Assertion.waitingDown 1) := by
  have hname : isGlobalName "N" = true := by decide
  have hwritten : Written 16 "$1F".toList 31 := .hex ⟨by decide, [1, 15], by decide, by decide⟩
  have hfree : Settings.standard.defines.contains "N" = false := by decide
  rcases (predefined_as_equate hname hwritten (by decide) hfree Source.usesName "f.asm").2
    (by decide) with ⟨hread, hassembled⟩
  have hdecided : Run.reportsOn [2] [3]
      (assemble (Settings.standard.define "N" 31) (.ofText Source.usesName "f.asm")) = true := by
    decide +kernel
  rcases Run.exists_of_reportsOn hdecided with ⟨r, hr, hreported, hremaining⟩
  refine ⟨hname, hwritten, hfree, hread, ?_⟩
  rcases hassembled with ⟨u, u', l, hu, hu', hstatements, hstate, houtput, hdiagnostics, hpending⟩ |
    ⟨⟨f, u, hfailed⟩, _⟩
  · have hsame : u = r := by
      rw [Nat.cast_ofNat, hr] at hu
      cases hu
      rfl
    subst hsame
    exact ⟨u, u', l, hr, hu', hstatements, hstate, houtput, hreported, hdiagnostics, hremaining,
      hpending⟩
  · rw [Nat.cast_ofNat, hr] at hfailed
    cases hfailed

end Sm83
