import Mathlib.Data.List.Flatten
import Sm83.Proofs.Assembly.Predefined
import Sm83.Proofs.Run.Extent

/-!
# Lines made empty

Some lines of a text are made empty, and the statements on them are gone. What has come of a run
then has less in it: fewer statements, fewer assertions that wait and fewer reports. Acting on what
is left succeeds where acting on all of it does.
-/

namespace Sm83

open List

/-- Lines, counted from a number, of which those with the given numbers are made empty. -/
def blankLines {α : Type} (empty : α) (ks : List Nat) : Nat → List α → List α
  | _, [] => []
  | i, line :: lines => (if i ∈ ks then empty else line) :: blankLines empty ks (i + 1) lines

section

variable {α β : Type} {empty : α} {ks : List Nat}

theorem blankLines_append (i : Nat) (first second : List α) :
    blankLines empty ks i (first ++ second) =
      blankLines empty ks i first ++ blankLines empty ks (i + first.length) second := by
  induction first generalizing i with
  | nil => rfl
  | cons line first ih =>
    rw [cons_append, blankLines, ih, blankLines, cons_append, length_cons,
      Nat.add_right_comm, Nat.add_assoc]

theorem blankLines_eq_self {i : Nat} {lines : List α} (h : ∀ k ∈ ks, i ≤ k → i + lines.length ≤ k) :
    blankLines empty ks i lines = lines := by
  induction lines generalizing i with
  | nil => rfl
  | cons line lines ih =>
    have hfirst : i ∉ ks := by
      intro hi
      have hle := h i hi (Nat.le_refl i)
      simp at hle
    rw [blankLines, if_neg hfirst, ih]
    intro k hk hle
    have hlength := h k hk (by omega)
    rw [length_cons] at hlength
    omega

theorem length_blankLines (i : Nat) (lines : List α) :
    (blankLines empty ks i lines).length = lines.length := by
  induction lines generalizing i with
  | nil => rfl
  | cons line lines ih => rw [blankLines, length_cons, length_cons, ih]

theorem map_blankLines (f : α → β) (i : Nat) (lines : List α) :
    (blankLines empty ks i lines).map f = blankLines (f empty) ks i (lines.map f) := by
  induction lines generalizing i with
  | nil => rfl
  | cons line lines ih => rw [blankLines, map_cons, ih, map_cons, blankLines, apply_ite f]

end

section

variable {cs u : List Char} {line : List Char} {lines : List (List Char)}

theorem splitLines_eq_nil_cons (h : splitLines cs = [] :: lines) :
    cs = [] ∧ lines = [] ∨ ∃ u, cs = '\n' :: u ∧ splitLines u = lines := by
  cases linesOf_of_eq h with
  | last => exact .inl ⟨rfl, rfl⟩
  | more _ hu => exact .inr ⟨_, rfl, hu.splitLines_eq⟩

theorem splitLines_eq_append {q : List Char} (h : splitLines cs = splitLines q ++ lines)
    (hlines : lines ≠ []) : ∃ u, cs = q ++ '\n' :: u ∧ splitLines u = lines := by
  have hq := linesOf_splitLines q
  generalize splitLines q = front at hq h
  induction hq generalizing cs with
  | last =>
    rcases exists_of_splitLines_cons h hlines with ⟨u, rfl, _, hu⟩
    exact ⟨u, rfl, hu⟩
  | more _ _ ih =>
    rcases exists_of_splitLines_cons h (by simp [hlines]) with ⟨v, rfl, _, hv⟩
    rcases ih hv with ⟨u, rfl, hu⟩
    exact ⟨u, by simp, hu⟩

theorem splitLines_injective (h : splitLines cs = splitLines u) : cs = u := by
  -- a newline behind both makes this a case of the lemma before
  have hlines : splitLines (cs ++ ['\n']) = splitLines u ++ [[]] := by
    rw [splitLines_append_line, h]
    rfl
  rcases splitLines_eq_append hlines (cons_ne_nil _ _) with ⟨v, hv, hnil⟩
  rcases splitLines_eq_nil_cons hnil with ⟨rfl, _⟩ | ⟨w, _, hw⟩
  · exact append_cancel_right hv
  · exact absurd hw (splitLines_ne_nil w)

end

namespace Diagnostics

/-- The first diagnostics are some of the second, under the same limits. -/
structure Fewer (d' d : Diagnostics) : Prop where
  maxErrors : d'.maxErrors = d.maxErrors
  mode : d'.warningsAsErrors = d.warningsAsErrors
  entries : d'.entries.Sublist d.entries

variable {d d' : Diagnostics} {reports reports' : List Diagnostic}

theorem Fewer.extend (h : Fewer d' d) (hreports : reports'.Sublist reports) :
    Fewer (d'.extend reports') (d.extend reports) :=
  ⟨h.maxErrors, h.mode, h.entries.append hreports⟩

theorem Fewer.limit?_eq_none (h : Fewer d' d) {severity : Severity}
    (hlimit : d.limit? severity = none) : d'.limit? severity = none := by
  have hcount : d'.count .error ≤ d.count .error := h.entries.countP_le
  have hmax := h.maxErrors
  simp only [limit?] at hlimit ⊢
  split at hlimit
  · cases hlimit
  · next hfew =>
    apply if_neg
    intro hmany
    apply hfew
    simp only [Bool.and_eq_true, decide_eq_true_eq] at hmany ⊢
    exact ⟨hmany.1, by omega⟩

theorem Fewer.admits (h : Fewer d' d) (hreports : reports'.Sublist reports)
    (hadmits : d.admits reports = true) : d'.admits reports' = true := by
  induction hreports generalizing d d' with
  | slnil => rfl
  | @cons reports' reports e _ ih =>
    -- a report that only the second has
    simp only [Diagnostics.admits, Bool.and_eq_true] at hadmits
    have hmore : Fewer d' (d.push e) :=
      ⟨h.maxErrors, h.mode, h.entries.trans (sublist_append_left _ _)⟩
    exact ih hmore hadmits.2
  | @cons_cons reports' reports e _ ih =>
    simp only [Diagnostics.admits, Bool.and_eq_true, Option.isNone_iff_eq_none] at hadmits ⊢
    have hpush : Fewer (d'.push e) (d.push e) := h.extend (List.Sublist.refl [e])
    exact ⟨hpush.limit?_eq_none hadmits.1, ih hpush hadmits.2⟩

end Diagnostics

theorem Step.Settles.exists_ok {α : Type} {x : Step α} {r : Run} {allowed : Prop}
    {Q : α → Run → Prop} (h : Step.Settles x r allowed Q) (hallowed : allowed) :
    ∃ a r', x r = .ok a r' ∧ r'.state = r.state ∧ Q a r' := by
  cases hx : x r with
  | ok a r' => exact ⟨a, r', rfl, (h.of_ok hx).2⟩
  | error f r' => exact absurd hallowed (h.of_error hx).1

/-- The place is on one of the lines. -/
def Location.isOn (ks : List Nat) (l : Location) : Bool :=
  ks.any fun k => l.line == (k : Int)

theorem Location.isOn_eq_true {ks : List Nat} {l : Location} {n : Nat} (hl : l.line = n)
    (hn : n ∈ ks) : l.isOn ks = true :=
  any_eq_true.mpr ⟨n, hn, by simp [hl]⟩

theorem Location.isOn_eq_false {ks : List Nat} {l : Location} {n : Nat} (hl : l.line = n)
    (hn : n ∉ ks) : l.isOn ks = false := by
  apply any_eq_false.mpr
  intro k hk hsame
  rw [hl, beq_iff_eq] at hsame
  apply hn
  have heq : n = k := by omega
  exact heq ▸ hk

theorem Statement.filter_waiting {s : State} {st : Statement} (p : Location → Bool) :
    (st.waiting s).filter (fun w => p w.1) = if p st.location then st.waiting s else [] := by
  rcases st with ⟨location, form⟩
  cases form with
  | assertion a =>
    simp only [waiting]
    cases a.isOpen s with
    | true => cases hp : p location <;> simp [hp]
    | false => simp
  | _ => simp [waiting]

/-- The second run has come to the same as the first, without the statements on some lines, all of
which are diagnostics. -/
structure Run.Blanked (ks : List Nat) (a b : Run) : Prop where
  state : b.state = a.state
  statements : b.statements = a.statements.filter fun st => !st.location.isOn ks
  pending : b.pending = a.pending.filter fun p => !p.1.isOn ks
  diagnostics : b.diagnostics.Fewer a.diagnostics
  silent : ∀ st ∈ a.statements, st.location.isOn ks = true → st.form.isDiagnostic = true

theorem Run.Blanked.movesOn {ks : List Nat} {a b u u' : Run} (h : a.Blanked ks b) (hu : a.MovesOn u)
    (hu' : b.MovesOn u') (hstate : u'.state = u.state) : u.Blanked ks u' := by
  refine ⟨hstate, ?_, ?_, ?_, ?_⟩
  · rw [hu.statements, hu'.statements, h.statements]
  · rw [hu.pending, hu'.pending, h.pending]
  · rw [hu.diagnostics, hu'.diagnostics]
    exact h.diagnostics
  · rw [hu.statements]
    exact h.silent

namespace Step

variable {ks : List Nat} {a a' b u u' v : Run} {ss : List Statement}

/-- Statements that stay are delivered alike. -/
theorem deliver_kept (h : a.Blanked ks b) (hu : a.MovesOn u) (hu' : b.MovesOn u')
    (hstate : u'.state = u.state) (hss : ∀ st ∈ ss, st.location.isOn ks = false)
    (hv : ss.forM (deliver handle) u = .ok () v) :
    ∃ v', ss.forM (deliver handle) u' = .ok () v' ∧ v.Blanked ks v' ∧ v.stream = u.stream ∧
      v'.stream = u'.stream := by
  have hfewer : u'.diagnostics.Fewer u.diagnostics := by
    rw [hu.diagnostics, hu'.diagnostics]
    exact h.diagnostics
  -- what lets the first run deliver lets the second: the same state, and fewer reports before it
  rcases (settles_deliverAll ss).of_ok hv with ⟨⟨hpasses, hadmits⟩, hv₁, hgains⟩
  have hallowed : (∀ st ∈ ss, st.passes u'.state) ∧ u'.diagnostics.admits
      (Statement.allReports u'.state u'.diagnostics.warningsAsErrors ss) := by
    rw [hstate, hfewer.mode]
    exact ⟨hpasses, hfewer.admits (List.Sublist.refl _) hadmits⟩
  rcases (settles_deliverAll ss).exists_ok hallowed with ⟨_, v', hv', hv₁', hgains'⟩
  rw [hstate, hfewer.mode] at hgains'
  refine ⟨v', hv', ⟨?_, ?_, ?_, ?_, ?_⟩, hgains.stream, hgains'.stream⟩
  · rw [hv₁, hv₁', hstate]
  · -- none of the delivered statements is on a line that is left out
    have hkept : ss.filter (fun st => !st.location.isOn ks) = ss :=
      filter_eq_self.mpr fun st hst => by simp [hss st hst]
    rw [hgains'.statements, hgains.statements]
    rw [hu'.statements, hu.statements, h.statements, filter_append, hkept]
  · have hkept : (ss.flatMap fun st => st.waiting u.state).filter (fun p => !p.1.isOn ks) =
        ss.flatMap fun st => st.waiting u.state := by
      rw [filter_flatMap]
      apply flatMap_congr
      intro st hst
      rw [Statement.filter_waiting fun l => !l.isOn ks, hss st hst]
      rfl
    rw [hgains'.pending, hgains.pending]
    rw [hu'.pending, hu.pending, h.pending, filter_append, hkept]
  · rw [hgains'.diagnostics, hgains.diagnostics]
    exact hfewer.extend (List.Sublist.refl _)
  · rw [hgains.statements]
    intro st hst hon
    rcases mem_append.mp hst with hold | hnew
    · exact h.silent st (hu.statements ▸ hold) hon
    · rw [hss st hnew] at hon
      cases hon

/-- A diagnostic that goes leaves the runs alike. -/
theorem deliver_left {st : Statement} (h : a.Blanked ks b) (hu : a.MovesOn u) (hu' : b.MovesOn u')
    (hstate : u.state = a.state) (hstate' : u'.state = b.state) (hon : st.location.isOn ks = true)
    (hdiagnostic : st.form.isDiagnostic = true) (hv : [st].forM (deliver handle) u = .ok () v) :
    v.Blanked ks u' ∧ v.stream = u.stream := by
  rcases (settles_deliverAll [st]).of_ok hv with ⟨_, hv₁, hgains⟩
  refine ⟨⟨?_, ?_, ?_, ?_, ?_⟩, hgains.stream⟩
  · rw [hstate', h.state, hv₁, hstate]
  · -- the filter removes exactly the statement that only the first run has
    rw [hgains.statements, hu'.statements, h.statements]
    simp [hu.statements, hon]
  · have hgone : ([st].flatMap fun st => st.waiting u.state).filter (fun p => !p.1.isOn ks) =
        [] := by
      rw [flatMap_singleton, Statement.filter_waiting fun l => !l.isOn ks, hon]
      rfl
    rw [hgains.pending, hu'.pending, h.pending]
    rw [hu.pending, filter_append, hgone, append_nil]
  · -- the second run reports nothing here, which is a sublist of whatever the first reports
    have hmore := h.diagnostics.extend (nil_sublist
      (Statement.allReports u.state u.diagnostics.warningsAsErrors [st]))
    rw [hgains.diagnostics, hu'.diagnostics]
    rw [hu.diagnostics] at hmore ⊢
    simpa using hmore
  · rw [hgains.statements]
    intro st' hst' hon'
    rcases mem_append.mp hst' with hold | hnew
    · exact h.silent st' (hu.statements ▸ hold) hon'
    · rw [mem_singleton.mp hnew]
      exact hdiagnostic

/-- The second looks of the two runs end alike. -/
theorem resolve_blanked (h : a.Blanked ks b) (ha : resolve a = .ok () a') :
    ∃ b', resolve b = .ok () b' ∧ a'.Blanked ks b' := by
  rcases settles_resolve.of_ok ha with ⟨⟨⟨hpasses, hadmits⟩, hchecked⟩, hstate, hgains⟩
  have hreports : (Assertion.allReports b.state b.diagnostics.warningsAsErrors b.pending).Sublist
      (Assertion.allReports a.state a.diagnostics.warningsAsErrors a.pending) := by
    rw [h.state, h.diagnostics.mode, h.pending]
    exact filter_sublist.flatMap _
  have hallowed : ((∀ p ∈ b.pending, p.2.passes b.state) ∧ b.diagnostics.admits
      (Assertion.allReports b.state b.diagnostics.warningsAsErrors b.pending)) ∧
        ∀ st ∈ b.statements, st.Checked b.state := by
    refine ⟨⟨?_, h.diagnostics.admits hreports hadmits⟩, ?_⟩
    · intro p hp
      rw [h.pending] at hp
      rw [h.state]
      exact hpasses p (mem_filter.mp hp).1
    · intro st hst
      rw [h.statements] at hst
      rw [h.state]
      exact hchecked st (mem_filter.mp hst).1
  rcases settles_resolve.exists_ok hallowed with ⟨_, b', hb, hstate', hgains'⟩
  refine ⟨b', hb, ⟨?_, ?_, ?_, ?_, ?_⟩⟩
  · rw [hstate, hstate', h.state]
  · rw [hgains.statements, hgains'.statements]
    exact h.statements
  · rw [hgains.pending, hgains'.pending]
    simp only [append_nil, h.state, h.pending, filter_filter, Bool.and_comm]
  · rw [hgains.diagnostics, hgains'.diagnostics]
    exact h.diagnostics.extend hreports
  · rw [hgains.statements]
    exact h.silent

theorem note_blanked (h : a.Blanked ks b) (events events' : List Event) :
    (a.note events).Blanked ks (b.note events') :=
  ⟨h.state, h.statements, h.pending, h.diagnostics, h.silent⟩

theorem conclude_blanked (h : a.Blanked ks b) (ha : conclude a = .ok () a') :
    ∃ b', conclude b = .ok () b' ∧ a'.Blanked ks b' := by
  rcases Outcome.of_bind ha with ⟨_, _, ⟨⟩, ha⟩
  rcases Outcome.of_bind ha with ⟨_, _, ⟨⟩, ha⟩
  rcases Outcome.of_bind ha with ⟨_, a₂, hresolve, ⟨⟩⟩
  have hnoted := note_blanked h [.sourceRead a.statements.length a.stream.source.file]
    [.sourceRead b.statements.length b.stream.source.file]
  rcases resolve_blanked hnoted hresolve with ⟨b₂, hresolve', hblanked⟩
  refine ⟨_, ?_, note_blanked hblanked _ [.assembled b₂.stream.source.file b₂.statements.length
    b₂.state.symbols.size (b₂.diagnostics.count .error) (b₂.diagnostics.count .warning)]⟩
  show (resolve >>= fun _ => summarize) (b.note _) = _
  rw [Outcome.run_bind_of_ok hresolve']
  rfl

end Step

end Sm83
