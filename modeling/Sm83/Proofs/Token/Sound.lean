import Sm83.Proofs.Outcome
import Sm83.Proofs.Token.Delivery
import Sm83.Proofs.Token.Frame
import Sm83.Proofs.Token.Numeral

/-!
# Sound streams

The modes of reading are asked for ahead of the tokens they are meant for. A stream is sound if that
has gone well so far: whenever a mode was asked for, no token but the end had been read ahead, and
every token was consumed under the mode it was read in. What is read ahead stays within a line.
-/

namespace Sm83

/-- A token that may be consumed in a role. The end of the source may be consumed as anything but a
raw block. -/
def Role.admits (role : Role) (t : Token) : Bool :=
  match role with
  | .code => t.isEnd || t.mode = .normal
  | .argument => t.isEnd || t.mode = .raw
  | .block =>
    match t.lexeme with
    | .rawBlock _ => true
    | _ => false

/-- The role of the tokens that are read under a setting. -/
def Setting.role (g : Setting) : Role :=
  match g.mode, g.closing? with
  | .normal, _ => .code
  | .raw, none => .argument
  | .raw, some _ => .block

/-- A setting was asked for when nothing but the end had been read ahead, or a token was consumed in
a role that it may have. -/
def Move.isSound : Move → Bool
  | asked _ ahead => ahead.length ≤ 1 && ahead.all Token.isEnd
  | consumed role t => role.admits t

namespace Cursor

theorem line_le_step (c : Cursor) : c.line ≤ c.step.line := by
  unfold step
  split
  · exact Nat.le_refl _
  · split
    · exact Nat.le_succ _
    · exact Nat.le_refl _

theorem line_le_skip (n : Nat) (c : Cursor) : c.line ≤ (c.skip n).line := by
  induction n generalizing c with
  | zero => exact Nat.le_refl _
  | succ n ih => exact Nat.le_trans c.line_le_step (ih c.step)

/-- The cursor has passed the first part of the text and counted its lines. -/
def In (text : List Char) (c : Cursor) : Prop :=
  ∃ passed, text = passed ++ c.rest ∧ c.line = 1 + passed.count '\n'

namespace In

variable {text : List Char} {c : Cursor}

theorem start (text : List Char) : (Cursor.start text).In text :=
  ⟨[], rfl, rfl⟩

theorem step (h : c.In text) : c.step.In text := by
  rcases h with ⟨passed, rfl, hline⟩
  unfold Cursor.step
  split
  · exact ⟨passed, rfl, hline⟩
  · next ch rest hrest =>
    refine ⟨passed ++ [ch], ?_, ?_⟩
    · split
      · simp [hrest]
      · simp [hrest]
    · split
      · next hnewline =>
        subst hnewline
        simp [hline, Nat.add_assoc]
      · next hother => simp [hline, hother]

theorem skip (h : c.In text) (n : Nat) : (c.skip n).In text := by
  induction n generalizing c with
  | zero => exact h
  | succ n ih => exact ih h.step

theorem pass (h : c.In text) (n : Nat) : (c.pass n).In text :=
  h.skip n

theorem passRaw (h : c.In text) (n : Nat) : (c.passRaw n).In text :=
  h.skip n

theorem suffix (h : c.In text) : c.rest <:+ text := by
  rcases h with ⟨passed, rfl, _⟩
  exact List.suffix_append ..

end In

/-- A token that is read under a setting, and the cursor after it. -/
structure Step (c : Cursor) (g : Setting) (t : Token) (c' : Cursor) : Prop where
  place : ∀ text, c.In text → c'.In text
  finish : t.isEnd → c'.rest = []
  admits : g.role.admits t = true

variable {c c' : Cursor} {source : Source} {g : Setting} {t : Token}

theorem normalToken_step (hg : g.mode = .normal) (h : c.normalToken source = .ok (t, c')) :
    Step c g t c' := by
  rcases normalToken_eq_ok_iff.mp h with ⟨_, l, n, hscan, rfl, rfl⟩
  refine ⟨fun text hc => (hc.pass _).skip _, ?_, ?_⟩
  · intro hend
    have heof : l = .eof := by simpa [Token.isEnd] using hend
    subst heof
    rw [rest_skip, eq_nil_of_scan_eof hscan, List.drop_nil]
  · simp [Setting.role, Role.admits, hg, token]

theorem argumentToken_step (hg : g.mode = .raw) (hclosing : g.closing? = none)
    (h : c.argumentToken source = .ok (t, c')) : Step c g t c' := by
  have hraw : ∀ l, g.role.admits ((c.pass (gap 0 false c.rest).length).token .raw l) = true := by
    intro l
    simp [Setting.role, Role.admits, hg, hclosing, token]
  cases argumentToken_eq_ok_iff.mp h with
  | ended hrest => exact ⟨fun text hc => hc.pass _, fun _ => hrest, hraw _⟩
  | line | comma => exact ⟨fun text hc => (hc.pass _).skip _, by simp [Token.isEnd], hraw _⟩
  | argument => exact ⟨fun text hc => (hc.pass _).passRaw _, by simp [Token.isEnd], hraw _⟩

theorem bodyStart_in {body : Cursor} (h : c.bodyStart source = .ok body) (text : List Char)
    (hc : c.In text) : body.In text := by
  rcases bodyStart_skip h with ⟨n, rfl⟩
  exact hc.skip n

theorem blockToken_step {closing : String} {opening : Option String} (hg : g.mode = .raw)
    (hclosing : g.closing? = some closing) (h : c.blockToken source closing opening = .ok (t, c')) :
    Step c g t c' := by
  rcases blockToken_eq_ok_iff.mp h with ⟨body, n, line, hbody, _, rfl, rfl⟩
  refine ⟨fun text hc => (bodyStart_in hbody text hc).skip _, by simp [Token.isEnd], ?_⟩
  simp [Setting.role, Role.admits, hg, hclosing]

/-- What the next token is, and where it leaves the cursor. -/
theorem next_step (h : c.next source g = .ok (t, c')) : Step c g t c' := by
  rcases next_cases h with ⟨hg, h⟩ | ⟨hg, hclosing, h⟩ | ⟨closing, hg, hclosing, h⟩
  · exact normalToken_step hg h
  · exact argumentToken_step hg hclosing h
  · exact blockToken_step hg hclosing h

end Cursor

/-- No block is to be read under the setting. -/
class Setting.IsOpen (g : Setting) : Prop where
  closing : g.closing? = none

instance Setting.isOpen_normal : normal.IsOpen :=
  ⟨rfl⟩

instance Setting.isOpen_arguments : arguments.IsOpen :=
  ⟨rfl⟩

namespace Stream

/-- What is left to be consumed: at most one token for each character to come, and the tokens read
ahead, the end of the source not counted. -/
def left (s : Stream) : Nat :=
  s.cursor.rest.length + (s.buffer.filter fun t => !t.isEnd).length

/-- What holds at all times of a stream that reads a text. -/
structure Sound (text : List Char) (s : Stream) : Prop where
  place : s.cursor.In text
  ended : s.atEnd = true → s.cursor.rest = []
  /-- What is read ahead stays within a line. -/
  single : ∀ t ∈ s.buffer.dropLast, t.lexeme.endsLine = false
  admits : ∀ t ∈ s.buffer, s.register.commit.current.role.admits t = true
  plain : s.register.commit.current.Plain
  moves : ∀ move ∈ s.history, move.isSound = true

/-- A failure of a stream that is still sound: an error of the source, or a numeral in its text that
has no value. -/
def Fails (text : List Char) (f : Failure) (s : Stream) : Prop :=
  s.Sound text ∧ match f with
    | .error err => err.cause.isOrdinary = true
    | .numeral n => ∃ rest, rest <:+ text ∧ Unreadable n rest
    | .exhausted => False

theorem sound_ofSource (source : Source) : (ofSource source).Sound source.text := by
  refine ⟨.start _, ?_, ?_, ?_, ?_, ?_⟩
  · intro hend
    cases hend
  · intro t ht
    cases ht
  · intro t ht
    cases ht
  · intro word hword
    cases hword
  · intro move hmove
    cases hmove

/-- The stream with one more token read ahead. -/
def read (s : Stream) (t : Token) (c : Cursor) : Stream :=
  { s with cursor := c, register := s.register.commit, buffer := s.buffer ++ [t] }

/-- The stream with its first token consumed. -/
def consume (s : Stream) (role : Role) (t : Token) (rest : List Token) : Stream :=
  { s with
    buffer := if t.isEnd then s.buffer else rest
    previous := some t
    history := .consumed role t :: s.history }

variable {text : List Char} {s : Stream} {t : Token} {c : Cursor} {rest : List Token}

theorem Sound.read (h : s.Sound text) (hopen : ∀ t ∈ s.buffer, t.lexeme.endsLine = false)
    (hnext : s.cursor.next s.source s.register.commit.current = .ok (t, c)) :
    (s.read t c).Sound text := by
  have hstep := Cursor.next_step hnext
  refine ⟨hstep.place _ h.place, ?_, ?_, ?_, ?_, h.moves⟩
  · intro hend
    exact hstep.finish (by simpa [atEnd, Stream.read] using hend)
  · intro u hu
    exact hopen u (by simpa [Stream.read] using hu)
  · intro u hu
    show s.register.commit.commit.current.role.admits u = true
    rw [Register.commit_commit]
    exact List.forall_mem_append.mpr ⟨h.admits, List.forall_mem_singleton.mpr hstep.admits⟩ u hu
  · show s.register.commit.commit.current.Plain
    rw [Register.commit_commit]
    exact h.plain

theorem left_read (hnext : s.cursor.next s.source s.register.commit.current = .ok (t, c)) :
    (s.read t c).left ≤ s.left := by
  simp only [left, Stream.read, List.filter_append, List.length_append]
  cases ht : t.isEnd with
  | true =>
    have hrest := (Cursor.next_step hnext).finish ht
    simp [ht, hrest]
  | false =>
    have hshort := Cursor.next_shortens hnext ht
    simp [ht]
    omega

theorem Sound.commit (h : s.Sound text) : Sound text { s with register := s.register.commit } := by
  refine ⟨h.place, h.ended, h.single, ?_, ?_, h.moves⟩
  · rw [Register.commit_commit]
    exact h.admits
  · rw [Register.commit_commit]
    exact h.plain

theorem Sound.fails (h : s.Sound text) {f : Failure}
    (hnext : s.cursor.next s.source s.register.commit.current = .error f) :
    Fails text f { s with register := s.register.commit } ∨
      ∃ closing, s.register.commit.current.closing? = some closing ∧
        f = s.source.errorAt s.cursor.line 1 (.lexical (.unterminatedBlock closing)) := by
  refine (Cursor.next_fails hnext).imp_left fun hlexical => ⟨h.commit, ?_⟩
  cases f with
  | error err => exact hlexical.2
  | numeral n =>
    rcases hlexical with ⟨digits, hsuffix, hnumeral⟩
    exact ⟨digits, hsuffix.trans h.place.suffix, hnumeral⟩
  | exhausted => exact hlexical

/-- Consuming keeps a stream sound. -/
theorem Sound.consume (h : s.Sound text) (hbuffer : s.buffer = t :: rest) {role : Role}
    (hrole : s.register.commit.current.role = role) : (s.consume role t rest).Sound text := by
  have hmoves : ∀ move ∈ (s.consume role t rest).history, move.isSound = true := by
    intro move hmove
    rcases List.mem_cons.mp hmove with rfl | hold
    · rw [← hrole]
      exact h.admits t (by simp [hbuffer])
    · exact h.moves move hold
  cases ht : t.isEnd with
  | true =>
    have hsame : (s.consume role t rest).buffer = s.buffer := by simp [Stream.consume, ht]
    refine ⟨h.place, ?_, ?_, ?_, h.plain, hmoves⟩
    · intro hend
      exact h.ended (by rwa [atEnd, hsame] at hend)
    · rw [hsame]
      exact h.single
    · rw [hsame]
      exact h.admits
  | false =>
    have hrest : (s.consume role t rest).buffer = rest := by simp [Stream.consume, ht]
    refine ⟨h.place, ?_, ?_, ?_, h.plain, hmoves⟩
    · intro hend
      apply h.ended
      rw [atEnd, hrest] at hend
      rw [atEnd, hbuffer]
      cases rest with
      | nil => cases hend
      | cons u us => simpa using hend
    · rw [hrest]
      intro u hu
      apply h.single u
      rw [hbuffer]
      cases rest with
      | nil => cases hu
      | cons v us => exact List.mem_cons_of_mem _ hu
    · rw [hrest]
      intro u hu
      exact h.admits u (by simp [hbuffer, hu])

theorem left_consume (hbuffer : s.buffer = t :: rest) (ht : t.isEnd = false) (role : Role) :
    (s.consume role t rest).left + 1 = s.left := by
  simp [left, Stream.consume, hbuffer, ht, Nat.add_assoc]

theorem Sound.request (h : s.Sound text) {g : Setting} (hplain : g.Plain)
    (heffective : g.effective = g) (hshort : s.buffer.length ≤ 1)
    (hend : ∀ t ∈ s.buffer, t.isEnd = true ∧ g.role.admits t = true) :
    (s.request g).Sound text := by
  have hcurrent : (s.request g).register.commit.current = g := heffective
  refine ⟨h.place, h.ended, h.single, ?_, ?_, ?_⟩
  · rw [hcurrent]
    intro t ht
    exact (hend t ht).2
  · rw [hcurrent]
    exact hplain
  · intro move hmove
    rcases List.mem_cons.mp hmove with rfl | hold
    · have hall : s.buffer.all Token.isEnd = true := by
        rw [List.all_eq_true]
        intro t ht
        exact (hend t ht).1
      simp [Move.isSound, hshort, hall]
    · exact h.moves move hold

end Stream

end Sm83
