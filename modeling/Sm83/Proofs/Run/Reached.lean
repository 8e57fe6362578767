import Sm83.Proofs.Run.Sequence
import Sm83.Proofs.Run.Woven

/-!
# The runs between lines

A source is read line by line. The runs that stand between two lines are those from which the next
line is read, so what can be said of a whole reading is said of the one line at which it ends: an
error of a source is an error of a line that has been reached.
-/

namespace Sm83

open Step

/-- The run stands before a line of the source, where the lines before have been read and handed
over. -/
inductive Run.Reached (source : Source) (state : State) : Run → Prop
  | start : Reached source state (.start source state (.empty 100 false))
  | line {r r' : Run} {ss : List Statement} (hr : Reached source state r)
      (hline : nextLine r = .ok (some ss) r') :
      Reached source state { r' with statements := r'.statements ++ ss }

namespace Step

theorem forM_deliver (ss : List Statement) (r : Run) :
    ss.forM (deliver fun _ => pure ()) r = .ok () { r with statements := r.statements ++ ss } := by
  induction ss generalizing r with
  | nil =>
    rw [List.append_nil]
    rfl
  | cons s ss ih =>
    have hone : deliver (fun _ => pure ()) s r =
        .ok () { r with statements := r.statements ++ [s] } := rfl
    show (deliver (fun _ => pure ()) s >>= fun _ => ss.forM _) r = _
    rw [Outcome.run_bind_of_ok hone, ih]
    simp

variable {source : Source} {state : State} {r r' : Run} {e : Error} {n : Nat}

theorem readLines_none (h : nextLine r = .ok none r') (n : Nat) : readLines (n + 1) r = .ok () r' :=
  Outcome.run_bind_of_ok h _

theorem readLines_some {ss : List Statement} (h : nextLine r = .ok (some ss) r') (n : Nat) :
    readLines (n + 1) r = readLines n { r' with statements := r'.statements ++ ss } :=
  lines_line h (forM_deliver ss r')

theorem readLines_error {f : Failure} (h : nextLine r = .error f r') (n : Nat) :
    readLines (n + 1) r = .error f r' :=
  Outcome.run_bind_of_error h _

theorem nextLine_of_eof {last : Token} (hlast : last.lexeme = .eof) (h : r.stream.Delivers [last]) :
    ∃ r', nextLine r = .ok none r' ∧ r'.state = r.state ∧ r'.statements = r.statements := by
  rcases Reading.peek_of_delivers h with ⟨stream, hstream, _⟩
  have hpeek : peek r = .ok last (r.follow stream) := by
    simp only [peek, reading, hstream]
  refine ⟨r.follow stream, ?_, rfl, rfl⟩
  show (peek >>= _) r = _
  rw [Outcome.run_bind_of_ok hpeek, Token.isEnd, hlast]
  rfl

theorem reached_of_readLines_error (hr : Run.Reached source state r)
    (h : readLines n r = .error (.error e) r') :
    ∃ r₀, Run.Reached source state r₀ ∧ nextLine r₀ = .error (.error e) r' := by
  induction n generalizing r with
  | zero => cases h
  | succ n ih =>
    cases hnext : nextLine r with
    | error f u =>
      cases (readLines_error hnext n).symm.trans h
      exact ⟨r, hr, hnext⟩
    | ok o u =>
      cases o with
      | none => cases (readLines_none hnext n).symm.trans h
      | some ss => exact ih (hr.line hnext) ((readLines_some hnext n).symm.trans h)

theorem readLines_add (h : ∀ u, readLines n r ≠ .error .exhausted u) (k : Nat) :
    readLines (n + k) r = readLines n r := by
  induction n generalizing r with
  | zero => exact absurd rfl (h r)
  | succ n ih =>
    rw [Nat.add_right_comm]
    cases hnext : nextLine r with
    | error f u => rw [readLines_error hnext, readLines_error hnext]
    | ok o u =>
      cases o with
      | none => rw [readLines_none hnext, readLines_none hnext]
      | some ss =>
        rw [readLines_some hnext] at h
        rw [readLines_some hnext, readLines_some hnext]
        exact ih h

/-- Reading a number of lines reaches a run. -/
theorem readLines_reached (hr : Run.Reached source state r) :
    ∃ k, ∀ m, readLines (m + k) (.start source state (.empty 100 false)) = readLines m r := by
  -- `k` counts the lines
  induction hr with
  | start => exact ⟨0, fun _ => rfl⟩
  | line _ hline ih =>
    rcases ih with ⟨k, hk⟩
    refine ⟨k + 1, fun m => ?_⟩
    rw [← Nat.add_assoc, Nat.add_right_comm, hk]
    exact readLines_some hline m

end Step

namespace Run

variable {source : Source} {state : State} {r r' : Run} {e : Error}

theorem Reached.ready (hr : Reached source state r) :
    ∃ m, m ≤ source.text.length + 1 ∧ Step.Ready source state m r := by
  induction hr with
  | start => exact ⟨_, Nat.le_refl _, ready_start source state _⟩
  | @line r r' ss _ hline ih =>
    rcases ih with ⟨m, hm, hready⟩
    have hkeeps := keeps_nextLine r hready
    rw [hline] at hkeeps
    have hdelivers :=
      Step.Keeps.forM (fun st hst => keeps_deliver modest_pure (hkeeps.1 st hst)) r'
        hkeeps.2
    rw [forM_deliver] at hdelivers
    exact ⟨m - 1, by omega, hdelivers⟩

theorem Reached.source_eq (hr : Reached source state r) : r.stream.source = source := by
  induction hr with
  | start => rfl
  | line _ hline ih => exact (retraces_nextLine.onward hline).source.trans ih

theorem Reached.ordered (hr : Reached source state r) : r.stream.Ordered := by
  induction hr with
  | start => exact Stream.ordered_ofSource source
  | line _ hline ih => exact ((retraces_nextLine.onward hline).ordered ih).1

theorem reached_of_parse_error (h : Run.parse source state = .error (.error e) r) :
    ∃ r₀, Reached source state r₀ ∧ nextLine r₀ = .error (.error e) r := by
  rw [Run.parse_eq] at h
  split at h
  · cases h
  · next hlines =>
    cases h
    exact reached_of_readLines_error .start hlines

theorem Reached.readLines_eq (hr : Reached source state r) :
    readLines (source.text.length + 2) (.start source state (.empty 100 false)) =
      readLines (source.text.length + 2) r := by
  -- the fuel is enough, so the lines read on the way here can be added to it
  have henough : ∀ u,
    readLines (source.text.length + 2) (.start source state (.empty 100 false)) ≠
      .error .exhausted u := by
    intro u hexhausted
    have hsound := Run.parse_sound source state
    rw [parse_eq, hexhausted] at hsound
    exact hsound.2
  rcases readLines_reached hr with ⟨k, hk⟩
  rw [← readLines_add henough k, hk]

theorem parse_error_of_reached {f : Failure} (hr : Reached source state r)
    (h : nextLine r = .error f r') : Run.parse source state = .error f r' := by
  rw [parse_eq, hr.readLines_eq, readLines_error h]

theorem Reached.parse_ok {last : Token} (hr : Reached source state r) (hlast : last.lexeme = .eof)
    (h : r.stream.Delivers [last]) :
    ∃ r', Run.parse source state = .ok () r' ∧ r'.state = r.state ∧
      r'.statements = r.statements := by
  rcases nextLine_of_eof hlast h with ⟨u, hover, hstate, hstatements⟩
  refine ⟨_, parse_eq_ok_iff.mpr ⟨u, ?_, rfl⟩, hstate, hstatements⟩
  rw [hr.readLines_eq]
  exact readLines_none hover _

/-- What is watched holds of every run that is reached. -/
theorem Reached.watched {w : Watch} [w.Lawful]
    (hstart : w.run (.start source state (.empty 100 false))) (hr : Reached source state r) :
    w.run r := by
  induction hr with
  | start => exact hstart
  | line _ hline ih => exact (woven_nextLine.watched.of_ok ih hline).1

end Run

end Sm83
