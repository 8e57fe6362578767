import Sm83.Proofs.Token.Onward
import Sm83.Proofs.Watch

/-!
# The places of errors

A token stands on a line of the source, and so does a fault that keeps a token from being read.
Neither stands before the cursor that it is looked for at. A source that is read from some line on
therefore has its errors there, on lines that exist.
-/

namespace Sm83

theorem Source.length_lines (text file : String) :
    (Source.ofText text file).lines.length = (Source.ofText text file).text.count '\n' + 1 := by
  show ((splitLines _).map String.ofList).length = _
  rw [List.length_map, splitLines_count]
  rfl

theorem Source.line?_eq_some {source : Source} {n : Int} (hlow : 1 ≤ n)
    (hhigh : n ≤ source.lines.length) : ∃ text, source.line? n = some text := by
  have hindex : (n - 1).toNat < source.lines.length := by omega
  refine ⟨source.lines[(n - 1).toNat], ?_⟩
  rw [line?, if_pos hlow, List.getElem?_eq_getElem hindex]

namespace Cursor

variable {c : Cursor} {text : List Char} {source : Source} {g : Setting} {e : Error}

theorem In.line_le (h : c.In text) : c.line ≤ text.count '\n' + 1 := by
  rcases h with ⟨passed, rfl, hline⟩
  rw [List.count_append]
  omega

/-- A place that is reached by reading on from a cursor. -/
structure Reaches (c c' : Cursor) : Prop where
  line : c.line ≤ c'.line
  place : ∀ text, c.In text → c'.In text

theorem Reaches.skip (c : Cursor) (n : Nat) : c.Reaches (c.skip n) :=
  ⟨line_le_skip n c, fun _ h => h.skip n⟩

theorem Reaches.pass (c : Cursor) (n : Nat) : c.Reaches (c.pass n) :=
  ⟨line_le_skip n c, fun _ h => h.pass n⟩

theorem Reaches.trans {c' c'' : Cursor} (h : c.Reaches c') (h' : c'.Reaches c'') : c.Reaches c'' :=
  ⟨Nat.le_trans h.line h'.line, fun text hc => h'.place text (h.place text hc)⟩

/-- A lexical fault at a place reached from the cursor, with the line it stands on. -/
def FaultFrom (c : Cursor) (source : Source) (f : Failure) : Prop :=
  ∃ c' column fault, c.Reaches c' ∧ f = source.errorAt c'.line column (.lexical fault)

theorem normalToken_error (h : c.normalToken source = .error (.error e)) :
    c.FaultFrom source (.error e) := by
  have hhere := Reaches.pass c (gap 0 c.fresh c.rest).length
  rcases normalToken_eq_error h with hf | ⟨why, n, _, hf⟩ | ⟨why, _, hf⟩
  · exact ⟨_, _, _, hhere.trans (.skip _ _), hf⟩
  · exact ⟨_, _, _, hhere.trans (.skip _ _), hf⟩
  · cases hf

theorem argumentToken_error (h : c.argumentToken source = .error (.error e)) :
    c.FaultFrom source (.error e) := by
  rcases argumentToken_eq_error h with ⟨n, hf⟩
  exact ⟨_, _, _, (Reaches.pass c _).trans (.skip _ _), hf⟩

theorem blockToken_error {closing : String} {opening : Option String}
    (h : c.blockToken source closing opening = .error (.error e)) :
    c.FaultFrom source (.error e) := by
  rcases blockToken_eq_error h with ⟨n, hf⟩ | hf
  · exact ⟨_, _, _, .skip c n, hf⟩
  · -- a block that is not closed is a fault of the place where it starts
    exact ⟨c, _, _, .skip c 0, hf⟩

/-- An error of reading a token has a place ahead. -/
theorem next_error (h : c.next source g = .error (.error e)) : c.FaultFrom source (.error e) := by
  rcases next_cases h with ⟨_, h⟩ | ⟨_, _, h⟩ | ⟨closing, _, _, h⟩
  · exact normalToken_error h
  · exact argumentToken_error h
  · exact blockToken_error h

end Cursor

/-- The stream reads the source, and what is still to come stands on line `b` or behind it. -/
structure Stream.From (source : Source) (b : Nat) (s : Stream) : Prop where
  reads : s.source = source
  place : s.cursor.In source.text
  ordered : s.Ordered
  here : b ≤ s.here

namespace Stream.From

variable {source : Source} {b : Nat} {s s' : Stream} {t : Token}

theorem start (source : Source) : Stream.From source 1 (.ofSource source) :=
  ⟨rfl, .start _, ordered_ofSource source, Nat.le_refl _⟩

theorem line (h : s.From source b) : b ≤ s.cursor.line := by
  have hhere := h.here
  unfold Stream.here at hhere
  split at hhere
  · next t rest hbuffer =>
    exact Nat.le_trans hhere (h.ordered.below t (by simp [hbuffer]))
  · exact hhere

theorem first (h : s.From source b) (ht : t ∈ s.buffer) : b ≤ t.line := by
  have hhere := h.here
  unfold Stream.here at hhere
  split at hhere
  · next t' rest hbuffer =>
    have hsorted := h.ordered.sorted
    rw [hbuffer] at hsorted ht
    rcases List.mem_cons.mp ht with rfl | hmem
    · exact hhere
    · exact Nat.le_trans hhere ((List.pairwise_cons.mp hsorted).1 t hmem)
  · next hbuffer =>
    rw [hbuffer] at ht
    cases ht

theorem last (h : s.From source b) (ht : t ∈ s.buffer) : t.line ≤ source.text.count '\n' + 1 :=
  Nat.le_trans (h.ordered.below t ht) h.place.line_le

theorem onward (h : s.From source b) (honward : s.Onward s') (hplace : s'.cursor.In source.text) :
    s'.From source b := by
  rcases honward.ordered h.ordered with ⟨hordered, hhere, _⟩
  exact ⟨honward.source.trans h.reads, hplace, hordered, Nat.le_trans h.here hhere⟩

theorem of_next (h : s.From source b) {rest : List Token} (hbuffer : s.buffer = t :: rest) :
    s.From source t.line := by
  refine ⟨h.reads, h.place, h.ordered, ?_⟩
  simp [Stream.here, hbuffer]

end Stream.From

/-- An error without a place has no line either, and will be shown with the one it gets. An error
with a place stands on a line of the source, not before line `b`, and has the text of this line
unless its cause omits it. -/
def Error.StandsIn (source : Source) (b : Nat) (e : Error) : Prop :=
  match e.location with
  | none => e.sourceLine = none ∧ e.cause.omitsLine = false
  | some l => l.file = source.file ∧ (b : Int) ≤ l.line ∧ l.line ≤ source.lines.length ∧
      e.sourceLine = if e.cause.omitsLine then none else source.line? l.line

/-- The tokens of a source from some line on, and errors in their places. -/
def Watch.places (source : Source) (b : Nat) : Watch where
  stream := Stream.From source b
  scope _ := True
  token t := b ≤ t.line ∧ t.line ≤ source.lines.length
  expr _ := True
  error := Error.StandsIn source b

namespace Watch

variable {b : Nat}

theorem standsIn_locate {source : Source} {e : Error} {t : Token} (he : e.StandsIn source b)
    (ht : b ≤ t.line ∧ t.line ≤ source.lines.length) :
    (e.locate (some (source.locate t)) (source.line? t.line)).StandsIn source b := by
  cases hlocation : e.location with
  | some l =>
    rw [Error.locate_of_located hlocation]
    exact he
  | none =>
    simp only [Error.StandsIn, hlocation] at he
    have hplaced : e.locate (some (source.locate t)) (source.line? t.line) =
        ⟨e.cause, some (source.locate t), source.line? t.line⟩ := by
      simp [Error.locate, hlocation, he.1]
    rw [hplaced]
    refine ⟨rfl, ?_, ?_, ?_⟩
    · exact Int.ofNat_le.mpr ht.1
    · exact Int.ofNat_le.mpr ht.2
    · simp [he.2, Source.locate, Token.location]

instance lawful_places (text file : String) (b : Nat) :
    (places (.ofText text file) b).Lawful := by
  -- of the text, only the number of its lines matters
  have hcount := Source.length_lines text file
  generalize Source.ofText text file = source at hcount
  have hlocated : ∀ {t : Token} {cause : Cause} {line : Option String},
      b ≤ t.line ∧ t.line ≤ source.lines.length →
      line = (if cause.omitsLine then none else source.line? t.line) →
      (Error.mk cause (some (source.locate t)) line).StandsIn source b := by
    intro t cause line ht hline
    exact ⟨rfl, Int.ofNat_le.mpr ht.1, Int.ofNat_le.mpr ht.2, hline⟩
  constructor
  case ahead => exact fun hs ht => ⟨hs.first ht, hcount ▸ hs.last ht⟩
  case read =>
    intro s t c hs hnext
    exact hs.onward (.of_read hnext) ((Cursor.next_step hnext).place _ hs.place)
  case consume =>
    intro s t rest role hs hbuffer
    exact hs.onward (.of_consume role hbuffer) hs.place
  case request =>
    intro s setting hs
    exact hs.onward (.of_request s setting) hs.place
  case lexical =>
    intro s e hs hnext
    rcases Cursor.next_error hnext with ⟨c, column, fault, hreaches, herror⟩
    cases herror
    have hlow : b ≤ c.line := Nat.le_trans hs.line hreaches.line
    have hhigh : c.line ≤ source.lines.length := hcount ▸ (hreaches.place _ hs.place).line_le
    rw [hs.reads]
    exact ⟨rfl, Int.ofNat_le.mpr hlow, Int.ofNat_le.mpr hhigh, rfl⟩
  case bare =>
    intro s t cause hs ht hcause
    rw [hs.reads]
    exact hlocated ht (by simp [hcause])
  case lined =>
    intro s t cause hs ht hcause
    rw [hs.reads]
    exact hlocated ht (by simp [hcause])
  case unplaced => exact fun hcause => ⟨rfl, hcause⟩
  case placed =>
    intro s e t he hs ht
    rw [hs.reads]
    exact standsIn_locate he ht
  all_goals
    intros
    trivial

end Watch

end Sm83
