import Sm83.Proofs.Assembly.Blanked

/-!
# Diagnostics change nothing

Assertions, messages and printing do not change what is assembled. If lines that hold nothing else
are made empty, the assembly goes through as before, with the same state at the end and without the
statements of these lines.
-/

namespace Sm83

open Step

/-! ## Lines that are diagnostics -/

namespace Run

/-- The run after a number of lines, each of them read and acted on. -/
def after : Nat → Run → Option Run
  | 0, r => some r
  | n + 1, r =>
    match nextLine r with
    | .ok (some statements) u =>
      match statements.forM (deliver handle) u with
      | .ok _ v => after n v
      | .error _ _ => none
    | _ => none

/-- The run is at the start of a line of the text. It reads one diagnostic there, which takes up
this line and no other. -/
def isDiagnosticLine (k : Nat) (r : Run) : Bool :=
  r.stream.buffer.isEmpty && r.stream.cursor.line == k &&
    match nextLine r with
    | .ok (some [st]) u =>
      st.form.isDiagnostic && u.stream.cursor.line == (if u.stream.atEnd then k else k + 1)
    | _ => false

/-- From the run on, a line of the text turns out to be a diagnostic. -/
def Diagnoses (k : Nat) (a : Run) : Prop :=
  ∃ n r, a.after n = some r ∧ r.isDiagnosticLine k = true

end Run

namespace Stream

/-- The stream is at the start of a line of the text. -/
structure AtLine (x : List Char) (i : Nat) (s : Stream) : Prop where
  cursor : s.cursor = ⟨x, i, 1, true⟩
  buffer : s.buffer = []
  register : s.register.commit = .initial

/-- The end of the source has been read. -/
def Ended (s : Stream) : Prop :=
  ∃ t, s.buffer = [t] ∧ t.isEnd = true

theorem AtLine.here {x : List Char} {i : Nat} {s : Stream} (h : s.AtLine x i) : s.here = i := by
  simp [Stream.here, h.buffer, h.cursor]

end Stream

namespace Run

/-- Two runs are at the start of the same line, where the second has some of the lines behind it
made empty, all of them diagnostics for the first; or nothing is left for either. -/
inductive Abreast (ks : List Nat) (a b : Run) : Prop
  | line {x x' : List Char} {i : Nat} (first : a.stream.AtLine x i) (second : b.stream.AtLine x' i)
      (lines : splitLines x' = blankLines [] ks i (splitLines x))
      (later : ∀ k ∈ ks, i ≤ k → a.Diagnoses k)
  | finished (first : a.stream.Ended) (second : b.stream.Ended ∨ ∃ i, b.stream.AtLine [] i)

variable {a r u v : Run} {n k : Nat} {ss : List Statement}

theorem isDiagnosticLine_cases (h : r.isDiagnosticLine k = true) :
    r.stream.buffer = [] ∧ r.stream.cursor.line = k ∧ ∃ st u, nextLine r = .ok (some [st]) u ∧
      st.form.isDiagnostic = true ∧ u.stream.cursor.line = if u.stream.atEnd then k else k + 1 := by
  simp only [isDiagnosticLine, Bool.and_eq_true, List.isEmpty_iff, beq_iff_eq] at h
  rcases h with ⟨⟨hbuffer, hline⟩, h⟩
  refine ⟨hbuffer, hline, ?_⟩
  split at h
  · next st u hnext =>
    rw [Bool.and_eq_true, beq_iff_eq] at h
    rcases h with ⟨hdiagnostic, hbehind⟩
    exact ⟨st, u, hnext, hdiagnostic, hbehind⟩
  · cases h

theorem after_line (hnext : nextLine a = .ok (some ss) u)
    (hdeliver : ss.forM (deliver handle) u = .ok () v) (n : Nat) :
    a.after (n + 1) = v.after n := by
  simp only [after, hnext, hdeliver]

theorem stream_of_handled (h : ss.forM (deliver handle) u = .ok () v) :
    v.stream = u.stream :=
  ((settles_deliverAll ss).of_ok h).2.2.stream

theorem onward_of_after (h : a.after n = some r) : a.stream.Onward r.stream := by
  induction n generalizing a with
  | zero =>
    cases h
    exact .refl _
  | succ n ih =>
    unfold after at h
    split at h
    · next ss u hnext =>
      split at h
      · next v hdeliver =>
        have honward : a.stream.Onward u.stream := retraces_nextLine.onward hnext
        have hlater := ih h
        rw [stream_of_handled hdeliver] at hlater
        exact honward.trans hlater
      · cases h
    · cases h

theorem later_cases {x : List Char} {i : Nat} (hat : a.stream.AtLine x i)
    (hordered : u.stream.Ordered) (hnext : nextLine a = .ok (some ss) u)
    (hdeliver : ss.forM (deliver handle) u = .ok () v) (h : a.Diagnoses k) :
    (k = i ∧ a.isDiagnosticLine k = true) ∨ (u.stream.here ≤ k ∧ v.Diagnoses k) := by
  rcases h with ⟨n, r, hafter, hr⟩
  rcases isDiagnosticLine_cases hr with ⟨hbuffer, hline, _⟩
  cases n with
  | zero =>
    cases hafter
    rw [hat.cursor] at hline
    exact .inl ⟨hline.symm, hr⟩
  | succ n =>
    rw [after_line hnext hdeliver] at hafter
    have honward := onward_of_after hafter
    rw [stream_of_handled hdeliver] at honward
    -- lines are met in order, so this one is not before the line that comes next
    have hplace : r.stream.here = k := by simp [Stream.here, hbuffer, hline]
    exact .inr ⟨hplace ▸ (honward.ordered hordered).2.1, n, r, hafter, hr⟩

theorem not_diagnoses_of_none (hnext : nextLine a = .ok none u) : ¬ a.Diagnoses k := by
  rintro ⟨n, r, hafter, hr⟩
  cases n with
  | zero =>
    cases hafter
    rcases isDiagnosticLine_cases hr with ⟨_, _, st, w, hw, _⟩
    rw [hnext] at hw
    cases hw
  | succ n =>
    simp only [after, hnext] at hafter
    cases hafter

theorem not_diagnoses_of_ended (h : a.stream.Ended) : ¬ a.Diagnoses k := by
  rcases h with ⟨t, hbuffer, ht⟩
  exact not_diagnoses_of_none (nextLine_ended hbuffer ht)

end Run

theorem newline_between {text whole p p' x y : List Char} (h : text = p ++ x) (h' : text = p' ++ y)
    (hle : y.length ≤ x.length) (hcount : p.count '\n' < p'.count '\n') (hx : x <:+ whole)
    (hy : '\n' :: y <:+ whole) :
    ∃ q, x = q ++ '\n' :: y ∧ p'.count '\n' = p.count '\n' + (splitLines q).length := by
  have hsame : p ++ x = p' ++ y := h.symm.trans h'
  have hshorter : y.length < x.length := by
    apply Nat.lt_of_le_of_ne hle
    intro heq
    have hp : p = p' := List.append_inj_left' hsame heq.symm
    rw [hp] at hcount
    exact Nat.lt_irrefl _ hcount
  rcases List.suffix_of_suffix_length_le hy hx hshorter with ⟨q, rfl⟩
  refine ⟨q, rfl, ?_⟩
  have hjoined : p ++ (q ++ ['\n']) ++ y = p' ++ y := by
    rw [← hsame]
    simp
  rw [← List.append_cancel_right hjoined, splitLines_count]
  simp

namespace Step

variable {source source' : Source} {base base' : State} {m m' n n' i j : Nat} {ks : List Nat}
  {a a' b b' u u' v r : Run} {ss : List Statement} {x x' y y' q : List Char}

theorem ready_line (hready : Ready source base m r) (hnext : nextLine r = .ok (some ss) u) :
    Ready source base (m - 1) u ∧ ∀ v, ss.forM (deliver handle) u = .ok () v →
      Ready source base (m - 1) v := by
  have hkeeps := keeps_nextLine r hready
  rw [hnext] at hkeeps
  rcases hkeeps with ⟨hlegal, hu⟩
  refine ⟨hu, ?_⟩
  intro v hv
  have hdelivers := Keeps.forM (fun st hst => keeps_deliver modest_handle (hlegal st hst)) u hu
  rw [hv] at hdelivers
  exact hdelivers

/-- Behind a line is the end, or the line after its last. -/
theorem nextLine_behind (hready : Ready source base m r) (hordered : r.stream.Ordered)
    (hat : r.stream.AtLine x i) (hnext : nextLine r = .ok (some ss) u) :
    u.stream.Ended ∨ ∃ q y, x = q ++ '\n' :: y ∧ u.stream.AtLine y (i + (splitLines q).length) ∧
      u.stream.passed + 1 = i + (splitLines q).length := by
  have hu := (ready_line hready hnext).1
  have hspan := (nextLine_extent hordered hnext).2
  have honward : r.stream.Onward u.stream := retraces_nextLine.onward hnext
  have hordered' := (honward.ordered hordered).1
  cases hu.stream with
  | past hpast => exact absurd hpast.after (by simp [Frame.bare])
  | @ended t ht _ hreads => exact .inl ⟨t, hreads.only rfl, ht⟩
  | more hreads hrested =>
    have hbuffer := hreads.only rfl
    rcases hready.sound.place with ⟨p, htext, hline⟩
    rw [hat.here] at hspan
    rw [hat.cursor] at htext hline
    simp only at hline
    obtain ⟨t, hprevious⟩ : ∃ t, u.stream.previous = some t := by
      cases hprevious : u.stream.previous with
      | some t => exact ⟨t, rfl⟩
      | none =>
        simp only [Stream.passed, hprevious, Option.map_none, Option.getD_none] at hspan
        omega
    have ht := hrested t hprevious
    -- the newline that was read last has left the cursor at the start of a line
    have hopens := hordered'.opens t (by simp [Stream.latest?, hbuffer, hprevious]) ht
    have hpassed : u.stream.passed = t.line := by simp [Stream.passed, hprevious]
    rcases hu.sound.place with ⟨p', htext', hline'⟩
    have hrest := honward.rest
    have hsuffix := hordered.place.suffix
    have hnewline := hopens.newline
    rw [honward.source] at hnewline
    rw [hpassed] at hspan
    rw [hat.cursor] at hrest hsuffix
    have hopened := hopens.line
    have hcount : p.count '\n' < p'.count '\n' := by omega
    rcases newline_between htext htext' hrest hcount hsuffix hnewline with ⟨q, hx, hlines⟩
    have hplace : t.line + 1 = i + (splitLines q).length := by omega
    refine .inr ⟨q, u.stream.cursor.rest, hx, ⟨?_, hbuffer, ?_⟩, ?_⟩
    · rw [← hplace, ← hopened, ← hopens.column, ← hopens.fresh]
    · exact Register.commit_eq_initial hreads.current
    · rw [hpassed, hplace]

theorem twin_of_atLine (hstate : b.state = a.state)
    (hfile : b.stream.source.file = a.stream.source.file) (hat : a.stream.AtLine (q ++ y) i)
    (hat' : b.stream.AtLine (q ++ y') i) (hnil : y = [] → y' = [])
    (hq : y = [] ∨ q = [] ∨ ∃ p, q = p ++ ['\n']) : Run.Twin y y' a b := by
  refine ⟨⟨⟨hnil, q, hq, ?_, ?_⟩, ?_, ?_, hfile⟩, hstate⟩
  · rw [hat.cursor]
  · rw [hat.cursor, hat'.cursor]
  · rw [hat.register, hat'.register]
  · rw [hat.buffer, hat'.buffer]

theorem twin_of_none (hblanked : a.Blanked ks b)
    (hfile : b.stream.source.file = a.stream.source.file) (hat : a.stream.AtLine x i)
    (hat' : b.stream.AtLine x' i) (hlines : splitLines x' = blankLines [] ks i (splitLines x))
    (hnone : ∀ k ∈ ks, ¬ i ≤ k) : Run.Twin [] [] a b := by
  have hx : x' = x := by
    apply splitLines_injective
    rw [hlines, blankLines_eq_self]
    intro k hk hle
    exact absurd hle (hnone k hk)
  subst hx
  rw [← List.append_nil x'] at hat hat'
  exact twin_of_atLine hblanked.state hfile hat hat' (fun h => h) (.inl rfl)

theorem peek_atLine {t : Token} {c : Cursor} (hat : b.stream.AtLine x i)
    (hnext : Cursor.next ⟨x, i, 1, true⟩ b.stream.source .normal = .ok (t, c)) :
    peek b = .ok t (b.follow (b.stream.read t c)) ∧ (b.stream.read t c).buffer = [t] := by
  have hfresh : b.stream.cursor.next b.stream.source b.stream.register.commit.current =
      .ok (t, c) := by
    rw [hat.cursor, hat.register]
    exact hnext
  have hread : (b.stream.read t c).buffer = [t] := by
    simp only [Stream.read, hat.buffer, List.nil_append]
  refine ⟨?_, hread⟩
  unfold peek reading
  rw [Reading.peek_fresh hat.buffer hfresh]
  simp only [Stream.read, hat.buffer, List.nil_append]

theorem nextLine_blank (hat : b.stream.AtLine ('\n' :: y) i) :
    ∃ u, nextLine b = .ok (some []) u ∧ u.stream.AtLine y (i + 1) ∧ u.state = b.state := by
  have hnext : Cursor.next ⟨'\n' :: y, i, 1, true⟩ b.stream.source .normal =
      .ok (⟨.newline, i, 1, .normal⟩, ⟨y, i + 1, 1, true⟩) := rfl
  rcases peek_atLine hat hnext with ⟨hpeek, hbuffer⟩
  refine ⟨_, (nextLine_eq_ok_iff hpeek rfl).mpr (line_newline hbuffer rfl), ⟨rfl, rfl, ?_⟩, rfl⟩
  exact (Register.commit_commit _).trans hat.register

theorem nextLine_over (h : b.stream.Ended ∨ ∃ i, b.stream.AtLine [] i) :
    ∃ u, nextLine b = .ok none u ∧ u.state = b.state := by
  rcases h with ⟨t, hbuffer, ht⟩ | ⟨i, hat⟩
  · exact ⟨_, nextLine_ended hbuffer ht, rfl⟩
  · have hnext : Cursor.next ⟨[], i, 1, true⟩ b.stream.source .normal =
        .ok (⟨.eof, i, 1, .normal⟩, ⟨[], i, 1, true⟩) := rfl
    exact ⟨_, Outcome.run_bind_of_ok (peek_atLine hat hnext).1 _, rfl⟩

/-! ## One line of both -/

theorem length_splitLines_pos (cs : List Char) : 0 < (splitLines cs).length :=
  List.length_pos_iff.mpr (splitLines_ne_nil cs)

section

variable (hat : a.stream.AtLine x i) (hordered : a.stream.Ordered) (hblanked : a.Blanked ks b)
  (hnext : nextLine a = .ok (some ss) u) (hdeliver : ss.forM (deliver handle) u = .ok () v)
  (later : ∀ k ∈ ks, i ≤ k → a.Diagnoses k) (hat' : b.stream.AtLine x' i)
  (hlines : splitLines x' = blankLines [] ks i (splitLines x))

include hordered hnext in
theorem ordered_nextLine : u.stream.Ordered :=
  (retraces_nextLine.onward hnext |>.ordered hordered).1

include hat hordered hblanked hnext hdeliver

theorem line_twin (hb : Ready source' base' m' b) (htwin : Run.Twin y y' a b)
    (hwithin : u.stream.cursor.Within y) (hbehind : ∀ k ∈ ks, i ≤ k → u.stream.passed < k) :
    ∃ u' v', nextLine b = .ok (some ss) u' ∧ ss.forM (deliver handle) u' = .ok () v' ∧
      v.Blanked ks v' ∧ Stream.Twin y y' v.stream v'.stream := by
  rcases nextLine_twin htwin hb hnext hwithin with ⟨u', hnext', hu'⟩
  have hss : ∀ st ∈ ss, st.location.isOn ks = false := by
    intro st hst
    rcases (nextLine_extent hordered hnext).1.spans st hst with ⟨l, hl, hhere, hle⟩
    rw [hat.here] at hhere
    exact Location.isOn_eq_false hl fun hmem => Nat.not_lt.mpr hle (hbehind l hmem hhere)
  rcases deliver_kept hblanked (operates_nextLine.of_ok hnext) (operates_nextLine.of_ok hnext')
    hu'.state hss hdeliver with ⟨v', hdeliver', hv', hstream, hstream'⟩
  refine ⟨u', v', hnext', hdeliver', hv', ?_⟩
  rw [hstream, hstream']
  exact hu'.stream

theorem line_left {st : Statement} (hss : ss = [st]) (hform : st.form.isDiagnostic = true)
    (hpassed : u.stream.passed ≤ i) (hi : i ∈ ks) (hu' : b.MovesOn u')
    (hstate' : u'.state = b.state) : v.Blanked ks u' := by
  subst hss
  have hextent := (nextLine_extent hordered hnext).1
  rcases hextent.spans st List.mem_cons_self with ⟨l, hl, hhere, hle⟩
  rw [hat.here] at hhere
  have hsame : l = i := by omega
  have hon : st.location.isOn ks = true := Location.isOn_eq_true hl (hsame ▸ hi)
  exact (deliver_left hblanked (operates_nextLine.of_ok hnext) hu' (hextent.steady st rfl hform)
    hstate' hon hform hdeliver).1

include later

omit hblanked in
theorem diagnostic_of_mem (hi : i ∈ ks) (hlater : u.stream.here ≤ i → ¬ v.Diagnoses i) :
    ∃ st, ss = [st] ∧ st.form.isDiagnostic = true ∧
      u.stream.cursor.line = if u.stream.atEnd then i else i + 1 := by
  rcases Run.later_cases hat (ordered_nextLine hordered hnext) hnext hdeliver
    (later i hi (Nat.le_refl i)) with
    ⟨_, hdiagnostic⟩ | ⟨hle, hbehind⟩
  · rcases Run.isDiagnosticLine_cases hdiagnostic with ⟨_, _, st, w, hw, hform, hline⟩
    cases hnext.symm.trans hw
    exact ⟨st, rfl, hform, hline⟩
  · exact absurd hbehind (hlater hle)

include hat' hlines

theorem line_kept_ended (hb : Ready source' base' m' b)
    (hfile : b.stream.source.file = a.stream.source.file) (hi : i ∉ ks) (hended : u.stream.Ended) :
    ∃ u' v', nextLine b = .ok (some ss) u' ∧ ss.forM (deliver handle) u' = .ok () v' ∧
      v.Abreast ks v' ∧ v.Blanked ks v' := by
  have hended' : v.stream.Ended := Run.stream_of_handled hdeliver ▸ hended
  have hnone : ∀ k ∈ ks, ¬ i ≤ k := by
    intro k hk hle
    rcases Run.later_cases hat (ordered_nextLine hordered hnext) hnext hdeliver
      (later k hk hle) with
      ⟨rfl, _⟩ | ⟨_, hlater⟩
    · exact hi hk
    · exact Run.not_diagnoses_of_ended hended' hlater
  have htwin := twin_of_none hblanked hfile hat hat' hlines hnone
  rcases line_twin hat hordered hblanked hnext hdeliver hb htwin (.inl rfl) fun k hk hle =>
    absurd hle (hnone k hk) with ⟨u', v', hnext', hdeliver', hv', hstreams⟩
  rcases hended' with ⟨t, hbuffer, ht⟩
  refine ⟨u', v', hnext', hdeliver', .finished ⟨t, hbuffer, ht⟩ (.inl ⟨t, ?_, ht⟩), hv'⟩
  rw [hstreams.buffer, hbuffer]

theorem line_left_ended (ha : Ready source base m a) (hi : i ∈ ks) (hended : u.stream.Ended) :
    v.Abreast ks b ∧ v.Blanked ks b := by
  have hended' : v.stream.Ended := Run.stream_of_handled hdeliver ▸ hended
  rcases diagnostic_of_mem hat hordered hnext hdeliver later hi
    fun _ => Run.not_diagnoses_of_ended hended' with ⟨st, hss, hform, hline⟩
  rcases hended with ⟨t, hbuffer, ht⟩
  have hend : u.stream.atEnd = true := by simp [Stream.atEnd, hbuffer, ht]
  rw [hend, if_pos rfl] at hline
  have hu := (ready_line ha hnext).1.sound
  -- the cursor has got to the end of the text without meeting a newline
  have hone : (splitLines x).length = 1 := by
    rcases ha.sound.place with ⟨p, htext, hfirst⟩
    rcases hu.place with ⟨p', htext', hlast⟩
    rw [hat.cursor] at htext hfirst
    simp only at htext hfirst
    rw [hu.ended hend, List.append_nil] at htext'
    have hcount := congrArg (List.count '\n') (htext.symm.trans htext')
    rw [List.count_append] at hcount
    rw [splitLines_count]
    omega
  rcases List.length_eq_one_iff.mp hone with ⟨first, hfirst⟩
  have hx' : x' = [] := by
    apply splitLines_injective
    rw [hlines, hfirst, blankLines, if_pos hi]
    rfl
  subst hx'
  refine ⟨.finished hended' (.inr ⟨i, hat'⟩), ?_⟩
  refine line_left hat hordered hblanked hnext hdeliver hss hform ?_ hi
    (.of_tokens b b.stream b.trail) rfl
  -- what has been consumed stands before the end, and the end on the same line
  have hordered' := ordered_nextLine hordered hnext
  have hbehind := hordered'.behind
  have hbelow := hordered'.below t (by rw [hbuffer]; exact List.mem_cons_self)
  have hthere : u.stream.here = t.line := by simp [Stream.here, hbuffer]
  omega

variable (hx : x = q ++ '\n' :: y) (hu : u.stream.AtLine y (i + (splitLines q).length))
  (hpassed : u.stream.passed + 1 = i + (splitLines q).length)

include hx hu hpassed

/-- A line that is kept is read again and leaves the runs abreast. -/
theorem line_kept_behind (hb : Ready source' base' m' b)
    (hfile : b.stream.source.file = a.stream.source.file) (hi : i ∉ ks) :
    ∃ u' v', nextLine b = .ok (some ss) u' ∧ ss.forM (deliver handle) u' = .ok () v' ∧
      v.Abreast ks v' ∧ v.Blanked ks v' := by
  have hv : v.stream.AtLine y (i + (splitLines q).length) := Run.stream_of_handled hdeliver ▸ hu
  -- no diagnostic line is among those that this line takes up
  have hbehind : ∀ k ∈ ks, i ≤ k → i + (splitLines q).length ≤ k ∧ v.Diagnoses k := by
    intro k hk hle
    rcases Run.later_cases hat (ordered_nextLine hordered hnext) hnext hdeliver
      (later k hk hle) with
      ⟨rfl, _⟩ | hlater
    · exact absurd hk hi
    · exact hu.here ▸ hlater
  -- so the second text starts with the same lines
  rw [hx, splitLines_append_line, blankLines_append,
    blankLines_eq_self fun k hk hle => (hbehind k hk hle).1] at hlines
  have hrest : blankLines [] ks (i + (splitLines q).length) (splitLines y) ≠ [] := by
    apply List.ne_nil_of_length_pos
    rw [length_blankLines]
    exact length_splitLines_pos y
  rcases splitLines_eq_append hlines hrest with ⟨y', rfl, hy'⟩
  have hnil : y = [] → y' = [] := by
    intro hy
    apply splitLines_injective
    rw [hy', hy]
    show [if _ then [] else []] = [[]]
    rw [ite_self]
  have htwin : Run.Twin y y' a b := by
    rw [hx, List.append_cons] at hat
    rw [List.append_cons] at hat'
    exact twin_of_atLine hblanked.state hfile hat hat' hnil (.inr (.inr ⟨q, rfl⟩))
  have hwithin : u.stream.cursor.Within y := by
    rw [hu.cursor]
    exact .inr (.inr ⟨rfl, rfl⟩)
  rcases line_twin hat hordered hblanked hnext hdeliver hb htwin hwithin fun k hk hle => by
    have := (hbehind k hk hle).1
    omega with ⟨u', v', hnext', hdeliver', hv', hstreams⟩
  refine ⟨u', v', hnext', hdeliver', .line hv ?_ hy' fun k hk hle => (hbehind k hk (by omega)).2,
    hv'⟩
  -- nothing of the common lines is left, so the second run is at the start of a line as well
  rcases hstreams.cursor.common with ⟨p, _, hahead⟩
  have hp : p = [] := by
    have hsame := hahead.rest
    rw [hv.cursor] at hsame
    exact List.append_left_eq_self.mp hsame.symm
  refine ⟨?_, hstreams.buffer.trans hv.buffer, hstreams.register.trans hv.register⟩
  rw [hahead.twin, hv.cursor, hp]
  rfl

/-- A line made empty has no statement and leaves the runs abreast. -/
theorem line_left_behind (hi : i ∈ ks) :
    ∃ u', nextLine b = .ok (some []) u' ∧ v.Abreast ks u' ∧ v.Blanked ks u' := by
  have hv : v.stream.AtLine y (i + (splitLines q).length) := Run.stream_of_handled hdeliver ▸ hu
  have hhere := hu.here
  have hpos := length_splitLines_pos q
  rcases diagnostic_of_mem hat hordered hnext hdeliver later hi fun hle => by omega with
    ⟨st, hss, hform, hline⟩
  -- the diagnostic takes up one line, which is the one that has been made empty
  have hone : (splitLines q).length = 1 := by
    have hopen : u.stream.atEnd = false := by simp [Stream.atEnd, hu.buffer]
    rw [hopen, hu.cursor] at hline
    simp only [Bool.false_eq_true, if_false] at hline
    omega
  rcases List.length_eq_one_iff.mp hone with ⟨first, hfirst⟩
  rw [hone] at hv hpassed hhere
  rw [hx, splitLines_append_line, hfirst, List.singleton_append, blankLines, if_pos hi] at hlines
  rcases splitLines_eq_nil_cons hlines with ⟨_, hnil⟩ | ⟨y', rfl, hy'⟩
  · have hlength := congrArg List.length hnil
    rw [length_blankLines] at hlength
    exact absurd hlength (Nat.ne_of_gt (length_splitLines_pos y))
  rcases nextLine_blank hat' with ⟨u', hnext', hat₂, hstate'⟩
  refine ⟨u', hnext', .line hv hat₂ hy' ?_, ?_⟩
  · intro k hk hle
    rcases Run.later_cases hat (ordered_nextLine hordered hnext) hnext hdeliver
      (later k hk (by omega)) with
      ⟨hsame, _⟩ | ⟨_, hlater⟩
    · omega
    · exact hlater
  · exact line_left hat hordered hblanked hnext hdeliver hss hform (by omega) hi
      (operates_nextLine.of_ok hnext') hstate'

end

theorem line_blanked (h : a.Abreast ks b) (ha : Ready source base m a)
    (hb : Ready source' base' m' b) (hordered : a.stream.Ordered)
    (hfile : b.stream.source.file = a.stream.source.file) (hblanked : a.Blanked ks b)
    (hnext : nextLine a = .ok (some ss) u) (hdeliver : ss.forM (deliver handle) u = .ok () v) :
    (v.Abreast ks b ∧ v.Blanked ks b) ∨ ∃ ss' u' v', nextLine b = .ok (some ss') u' ∧
      ss'.forM (deliver handle) u' = .ok () v' ∧ v.Abreast ks v' ∧ v.Blanked ks v' := by
  cases h with
  | finished hended _ =>
    rcases hended with ⟨t, hbuffer, ht⟩
    rw [nextLine_ended hbuffer ht] at hnext
    cases hnext
  | @line x x' i hat hat' hlines later =>
    rcases nextLine_behind ha hordered hat hnext with hended | ⟨q, y, hx, hu, hpassed⟩
    · by_cases hi : i ∈ ks
      · exact .inl
          (line_left_ended hat hordered hblanked hnext hdeliver later hat' hlines ha hi hended)
      · exact .inr
          ⟨ss, line_kept_ended hat hordered hblanked hnext hdeliver later hat' hlines hb hfile hi
          hended⟩
    · by_cases hi : i ∈ ks
      · rcases line_left_behind hat hordered hblanked hnext hdeliver later hat' hlines hx hu hpassed
          hi with
          ⟨u', hnext', habreast, hv⟩
        exact .inr ⟨[], u', u', hnext', rfl, habreast, hv⟩
      · exact .inr
          ⟨ss, line_kept_behind hat hordered hblanked hnext hdeliver later hat' hlines hx hu hpassed
          hb
          hfile hi⟩

theorem end_blanked (h : a.Abreast ks b) (hb : Ready source' base' m' b)
    (hfile : b.stream.source.file = a.stream.source.file) (hblanked : a.Blanked ks b)
    (hnext : nextLine a = .ok none u) : ∃ u', nextLine b = .ok none u' ∧ u.Blanked ks u' := by
  cases h with
  | finished hended hended' =>
    rcases hended with ⟨t, hbuffer, ht⟩
    rw [nextLine_ended hbuffer ht] at hnext
    cases hnext
    rcases nextLine_over hended' with ⟨u', hnext', hstate⟩
    refine ⟨u', hnext', hblanked.movesOn (.of_tokens a _ _) (operates_nextLine.of_ok hnext') ?_⟩
    exact hstate.trans hblanked.state
  | @line x x' i hat hat' hlines later =>
    -- no line is left, so none is made empty
    have hnone : ∀ k ∈ ks, ¬ i ≤ k := by
      intro k hk hle
      exact Run.not_diagnoses_of_none hnext (later k hk hle)
    have htwin := twin_of_none hblanked hfile hat hat' hlines hnone
    rcases nextLine_twin htwin hb hnext (.inl rfl) with ⟨u', hnext', hu'⟩
    exact ⟨u', hnext', hblanked.movesOn (operates_nextLine.of_ok hnext)
      (operates_nextLine.of_ok hnext') hu'.state⟩

/-- Runs abreast read all their lines alike. -/
theorem lines_blanked (h : a.Abreast ks b) (ha : Ready source base m a)
    (hb : Ready source' base' m' b) (hfile : source'.file = source.file) (hn' : m' ≤ n')
    (hordered : a.stream.Ordered) (hblanked : a.Blanked ks b)
    (hlines : lines handle n a = .ok () a') :
    ∃ b', lines handle n' b = .ok () b' ∧ a'.Blanked ks b' := by
  -- the induction is on the fuel of the first run; the second reads as many lines, or one less
  induction n generalizing a b m m' n' with
  | zero => cases hlines
  | succ n ih =>
    have hsame : b.stream.source.file = a.stream.source.file := by
      rw [ha.file.1, hb.file.1]
      exact hfile
    have hpos := pos_of_done hb.stream rfl
    rcases n' with _ | n'
    · omega
    rcases lines_cases hlines with hend | ⟨ss, u, v, hnext, hdeliver, hrest⟩
    · rcases end_blanked h hb hsame hblanked hend with ⟨b', hend', hb'⟩
      exact ⟨b', Outcome.run_bind_of_ok hend' _, hb'⟩
    · have hv := (ready_line ha hnext).2 v hdeliver
      have hvordered : v.stream.Ordered :=
        Run.stream_of_handled hdeliver ▸ ordered_nextLine hordered hnext
      rcases line_blanked h ha hb hordered hsame hblanked hnext hdeliver with
        ⟨habreast, hvb⟩ | ⟨ss', u', v', hnext', hdeliver', habreast, hvb⟩
      · exact ih habreast hv hb hn' hvordered hvb hrest
      · have hv' := (ready_line hb hnext').2 v' hdeliver'
        have hfuel : m' - 1 ≤ n' := by omega
        rcases ih habreast hv hv' hfuel hvordered hvb hrest with ⟨b', hrest', hb'⟩
        exact ⟨b', (lines_line hnext' hdeliver').trans hrest', hb'⟩

end Step

/-! ## Whole assemblies -/

/-- The run of a source under settings after a number of lines. -/
def Run.afterFirst (settings : Settings) (source : Source) (n : Nat) : Option Run :=
  match predefine settings (.initial settings source) with
  | .ok _ r => r.after n
  | .error _ _ => none

/-- A line of the text holds one complete diagnostic and nothing else. It is read as a line of the
source, so it is no part of a block, and neither does it continue a line nor is it continued. -/
def Source.HoldsDiagnostic (settings : Settings) (source : Source) (k : Nat) : Prop :=
  ∃ n r, Run.afterFirst settings source n = some r ∧ r.isDiagnosticLine k = true

/-- Let an assembly succeed, and let lines that hold nothing but a diagnostic be made empty. Then
the assembly succeeds as well. It has the same statements, except for the diagnostics on these
lines, and the same state: symbols, scope, storage, sections and addresses. The assertions that
remain are the same, except for those on these lines. -/
theorem diagnostics_change_nothing (settings : Settings) (text text' file : String) (ks : List Nat)
    (r : Run) (h : assemble settings (.ofText text file) = .ok () r)
    (hks : ∀ k ∈ ks, (Source.ofText text file).HoldsDiagnostic settings k)
    (hlines :
      (Source.ofText text' file).lines = blankLines "" ks 1 (Source.ofText text file).lines) :
    ∃ r', assemble settings (.ofText text' file) = .ok () r' ∧
      r'.statements = r.statements.filter (fun st => !st.location.isOn ks) ∧
      (∀ st ∈ r.statements, st.location.isOn ks = true → st.form.isDiagnostic = true) ∧
      r'.state = r.state ∧
      r'.pending = r.pending.filter fun p => !p.1.isOn ks := by
  rcases predefine_outcome settings (.initial settings (.ofText text file)) with
    ⟨s, trail, hstate, hpredefine⟩ | ⟨_, hfailed⟩
  swap
  · rcases assemble_error hfailed with ⟨f, w, herror⟩
    cases h.symm.trans herror
  rcases predefine_ok (r := .initial settings (.ofText text' file)) hstate with
    ⟨trail', hpredefine'⟩
  -- the texts have the lines that their sources show
  have htext : splitLines (Source.ofText text' file).text =
      blankLines [] ks 1 (splitLines (Source.ofText text file).text) := by
    have hinjective : Function.Injective (List.map String.ofList) :=
      List.map_injective_iff.mpr fun _ _ hsame => String.ofList_injective hsame
    apply hinjective
    rw [map_blankLines]
    exact hlines
  have habreast : Run.Abreast ks (.opened settings (.ofText text file) s trail)
      (.opened settings (.ofText text' file) s trail') := by
    refine .line ⟨rfl, rfl, rfl⟩ ⟨rfl, rfl, rfl⟩ htext ?_
    intro k hk _
    rcases hks k hk with ⟨n, r, hafter, hr⟩
    simp only [Run.afterFirst, hpredefine] at hafter
    exact ⟨n, r, hafter, hr⟩
  have hblanked : Run.Blanked ks (.opened settings (.ofText text file) s trail)
      (.opened settings (.ofText text' file) s trail') := by
    refine ⟨rfl, rfl, rfl, ⟨rfl, rfl, List.Sublist.refl _⟩, ?_⟩
    intro st hst
    cases hst
  rcases Outcome.of_bind ((assemble_eq_ok_iff hpredefine).mp h) with
    ⟨_, w, hread, hconclude⟩
  rcases lines_blanked habreast (ready_predefined hpredefine)
    (ready_predefined hpredefine').bounded rfl (Nat.le_refl _) (Stream.ordered_ofSource _)
    hblanked
    hread with ⟨w', hread', hw⟩
  rcases conclude_blanked hw hconclude with ⟨r', hconclude', hr⟩
  refine ⟨r', (assemble_eq_ok_iff hpredefine').mpr ?_, hr.statements, hr.silent, hr.state,
    hr.pending⟩
  exact (Outcome.run_bind_of_ok hread' _).trans hconclude'

/-- A text with assertions that remain, and with a warning at its very end. -/
def Source.told : String :=
  "assert x\nassert y\nnop\nwarn \"w\""

/-- The text with the second assertion and the warning made empty lines. -/
def Source.untold : String :=
  "assert x\n\nnop\n"

theorem Source.holdsDiagnostic_of_any {settings : Settings} {source : Source} {k : Nat} (n : Nat)
    (h : (Run.afterFirst settings source n).any (Run.isDiagnosticLine k) = true) :
    source.HoldsDiagnostic settings k := by
  cases hr : Run.afterFirst settings source n with
  | none =>
    rw [hr] at h
    cases h
  | some r =>
    rw [hr] at h
    exact ⟨n, r, hr, h⟩

/-- Without the second assertion and the warning, the first assertion remains alone. -/
theorem diagnostics_change_nothing_told : ∃ r r',
    assemble .standard (.ofText Source.told "f") = .ok () r ∧
    r.diagnostics.entries.map (fun d => d.location.map Location.line) = [some 4] ∧
    r.pending.map (fun p => p.1.line) = [1, 2] ∧
    (∀ k ∈ [2, 4], (Source.ofText Source.told "f").HoldsDiagnostic .standard k) ∧
    assemble .standard (.ofText Source.untold "f") = .ok () r' ∧
    r'.statements = r.statements.filter (fun st => !st.location.isOn [2, 4]) ∧
    r'.state = r.state ∧ r'.pending = r.pending.filter fun p => !p.1.isOn [2, 4] := by
  have htold : Run.reportsOn [4] [1, 2] (assemble .standard (.ofText Source.told "f")) = true := by
    decide +kernel
  rcases Run.exists_of_reportsOn htold with ⟨r, hr, hreported, hremaining⟩
  have hks : ∀ k ∈ [2, 4], (Source.ofText Source.told "f").HoldsDiagnostic .standard k := by
    simp only [List.forall_mem_cons]
    refine ⟨?_, ?_, ?_⟩
    · exact Source.holdsDiagnostic_of_any 1 (by decide +kernel)
    · exact Source.holdsDiagnostic_of_any 3 (by decide +kernel)
    · intro k hk
      cases hk
  rcases diagnostics_change_nothing .standard Source.told Source.untold "f" [2, 4] r hr hks
    (by decide +kernel) with ⟨r', hr', hstatements, _, hstate, hpending⟩
  exact ⟨r, r', hr, hreported, hremaining, hks, hr', hstatements, hstate, hpending⟩

end Sm83
