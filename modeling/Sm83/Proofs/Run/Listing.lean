import Sm83.Proofs.Expr.Plain
import Sm83.Proofs.Run.Extent
import Sm83.Proofs.Run.Operands
import Sm83.Proofs.Run.Reached

/-!
# Instructions as they are listed

A listing shows an instruction as its mnemonic and its printed operands. A line with this text is
read as the instruction that it was listed for, if its operands are plain and the line is read in
the state in which the instruction was encoded.
-/

namespace Sm83

open Outcome

/-- What the statement of an instruction says in a state: the record that is given, and the place
that the instruction gets. -/
def State.encoded (s : State) (m : Mnemonic) (operands : List Operand) (record : Record) : Form :=
  .instruction m operands record (if s.load.isSome then s.loadPc else s.pc)
    ((s.load <|> s.current).map Section.name)

/-- The statement is an instruction with written operands, as it is encoded in the state. -/
def Statement.EncodedIn (s : Statement) (state : State) : Prop :=
  ∃ m operands record, (∀ o ∈ operands, o.isWritten = true) ∧
    encode state.resolver m operands = .ok record ∧ s.form = state.encoded m operands record

def Form.isInstruction : Form → Bool
  | instruction .. => true
  | _ => false

/-- The forms of the statements that take up bytes. -/
def Form.isCounted : Form → Bool
  | instruction .. | data .. => true
  | _ => false

theorem Form.isCounted_of_isInstruction {form : Form} (h : form.isInstruction = true) :
    form.isCounted = true := by
  cases form with
  | instruction => rfl
  | _ => cases h

/-- The state in which the instruction of a line is encoded, for a line that is read from a state.
-/
inductive State.BeforeInstruction (state : State) (s : Statement) : List Statement → State → Prop
  | alone : BeforeInstruction state s [s] state
  | labelled {spelling : String} {exported : Bool} {l : Location} {symbol : Symbol} {next : State}
      (h : state.defineLabel spelling exported (some l) = .ok (symbol, next)) :
      BeforeInstruction state s
        [⟨l, .label symbol.name symbol.exported symbol.value symbol.placed⟩, s] next

namespace Step

variable {α : Type} {r r' : Run} {s : Statement}

theorem ofExcept_eq_ok {x : Except Cause α} {a : α} (h : ofExcept x r = .ok a r') :
    x = .ok a ∧ r' = r := by
  cases x with
  | ok b =>
    cases h
    exact ⟨rfl, rfl⟩
  | error cause => cases h

theorem instruction_encoded {m : Mnemonic} (h : instruction m r = .ok s r') :
    s.EncodedIn r.state := by
  rcases of_bind h with ⟨word, r₁, hword, hbehind⟩
  rcases of_bind hbehind with ⟨os, r₂, hos, hbehind'⟩
  rcases of_bind hbehind' with ⟨record, r₃, hrecord, hrest⟩
  -- operands are read before anything is encoded, and do not change what it is encoded in
  have hstate : r₂.state = r.state :=
    (woven_operands.state_eq hos).trans (state_of_reading hword)
  rcases ofExcept_eq_ok (located_eq_ok hrecord) with ⟨hencode, hsame⟩
  cases hrest
  rw [hsame]
  refine ⟨m, os, record, operands_written r₁ os r₂ hos, ?_, ?_⟩
  · rw [← hstate]
    exact hencode
  · rw [← hstate]
    rfl

/-- The statement has taken up bytes, and the step that has read it leads from one state to the
other. -/
def Counts (state : State) (s : Statement) (state' : State) : Prop :=
  ∃ u u', u.state = state ∧ u'.state = state' ∧
    ((∃ m, instruction m u = .ok s u') ∨ ∃ d, data d u = .ok s u')

/-- The statement is read in the state before its line, or in the one that a label has left. -/
abbrev OnLine (state : State) (ss : List Statement) (s : Statement) (state' : State) : Prop :=
  ∃ st, state.BeforeInstruction s ss st ∧ Counts st s state'

theorem step_counts {p : Part} (h : p.step r = .ok s r') (hform : s.form.isCounted = true) :
    Counts r.state s r'.state := by
  have hof := isOf_of_step h
  cases p with
  | instruction m => exact ⟨r, r', rfl, rfl, .inl ⟨m, h⟩⟩
  | directive d =>
    have hdata : d = .db ∨ d = .dw ∨ d = .dl ∨ d = .ds := by
      cases hs : s.form with
      | data => simpa [hs, Form.isOf, or_assoc] using hof
      | instruction =>
        rw [hs] at hof
        cases hof
      | _ =>
        rw [hs] at hform
        cases hform
    rcases of_bind h with ⟨t, r₁, hpeek, h⟩
    refine ⟨r₁, r', state_of_reading hpeek, rfl, .inr ⟨d, ?_⟩⟩
    rcases hdata with rfl | rfl | rfl | rfl <;> exact h
  | call | conditional =>
    cases hs : s.form with
    | data | instruction =>
      rw [hs] at hof
      cases hof
    | _ =>
      rw [hs] at hform
      cases hform

/-! ### Lines -/

variable {ss : List Statement}

theorem body_counts (h : body r = .ok ss r') (hs : s ∈ ss) (hform : s.form.isCounted = true) :
    ss = [s] ∧ Counts r.state s r'.state := by
  rcases body_cases h with ⟨t, r₁, hpeek, ⟨rfl, _⟩ | ⟨p, st, r₂, rfl, hst, hend⟩⟩
  · cases hs
  · cases List.mem_singleton.mp hs
    have hend' : r'.state = r₂.state := by
      rcases hend with rfl | hend
      · rfl
      · exact woven_endLine.state_eq hend
    rw [hend', ← state_of_reading hpeek]
    exact ⟨rfl, step_counts hst hform⟩

theorem label_eq_ok {name : Token} {spelling : String} {exported : Bool}
    (h : label name spelling exported r = .ok s r') :
    ∃ symbol l, r.state.defineLabel spelling exported (some l) = .ok (symbol, r'.state) ∧
      s = ⟨l, .label symbol.name symbol.exported symbol.value symbol.placed⟩ := by
  rcases of_bind h with ⟨l, _, ⟨⟩, h⟩
  rcases of_bind h with ⟨symbol, r₁, hsymbol, ⟨⟩⟩
  have hdefine := located_eq_ok hsymbol
  rw [define_run] at hdefine
  split at hdefine
  · cases hdefine
  · next hlabel =>
    cases hdefine
    exact ⟨symbol, _, hlabel, rfl⟩

theorem declaration_counts {spelling : String} (h : declaration spelling r = .ok ss r')
    (hs : s ∈ ss) (hform : s.form.isCounted = true) : OnLine r.state ss s r'.state := by
  rcases declaration_cases h with ⟨name, r₁, r₂, hname, _, hstate, hcases⟩
  rw [← state_of_reading hname, ← hstate]
  rcases hcases with ⟨st, rfl, hst⟩ | ⟨exported, st, more, r₃, rfl, hlabel, hbody⟩
  · rcases (woven_definition trivial fun _ _ => rfl).returns hst |>.2.1 with
      ⟨_, hst⟩ | ⟨_, _, _, _, hst⟩ <;>
      · rw [List.mem_singleton.mp hs, hst] at hform
        cases hform
  · rcases label_eq_ok hlabel with ⟨symbol, l, hdefine, rfl⟩
    -- the label itself takes up no bytes, and the body is read from the state that it leaves
    rcases List.mem_cons.mp hs with rfl | hs
    · cases hform
    · rcases body_counts hbody hs hform with ⟨rfl, hcounts⟩
      exact ⟨r₃.state, .labelled hdefine, hcounts⟩

theorem line_counts (h : line r = .ok ss r') (hs : s ∈ ss) (hform : s.form.isCounted = true) :
    OnLine r.state ss s r'.state := by
  rcases line_cases h with ⟨t, r₁, hpeek, hcases⟩
  rw [← state_of_reading hpeek]
  rcases hcases with ⟨_, rfl, _⟩ | ⟨d, st, rfl, hst⟩ | ⟨spelling, _, hss⟩ | hss
  · cases hs
  · cases List.mem_singleton.mp hs
    exact ⟨r₁.state, .alone, step_counts hst hform⟩
  · exact declaration_counts hss hs hform
  · rcases body_counts hss hs hform with ⟨rfl, hcounts⟩
    exact ⟨r₁.state, .alone, hcounts⟩

theorem counted_nextLine (h : nextLine r = .ok (some ss) r') (hs : s ∈ ss)
    (hform : s.form.isCounted = true) : OnLine r.state ss s r'.state := by
  rcases nextLine_cases h with ⟨t, r₁, hpeek, _, hline⟩
  exact state_of_reading hpeek ▸ line_counts hline hs hform

theorem data_form {d : Directive} (h : data d r = .ok s r') :
    ∃ values size, s.form = .data d values size := by
  rcases of_bind h with ⟨word, r₁, _, h⟩
  rcases of_bind h with ⟨stored, r₂, _, h⟩
  rcases of_bind h with ⟨_, r₃, _, ⟨⟩⟩
  exact ⟨_, _, rfl⟩

theorem coded_nextLine (h : nextLine r = .ok (some ss) r') (hs : s ∈ ss)
    (hform : s.form.isInstruction = true) : ∃ st, r.state.BeforeInstruction s ss st ∧
      s.EncodedIn st := by
  rcases counted_nextLine h hs (Form.isCounted_of_isInstruction hform) with
    ⟨st, hbefore, u, u', rfl, _, ⟨m, hm⟩ | ⟨d, hd⟩⟩
  · exact ⟨u.state, hbefore, instruction_encoded hm⟩
  · rcases data_form hd with ⟨values, size, hdata⟩
    rw [hdata] at hform
    cases hform

end Step

/-- A mnemonic, a blank, and the operands in their printed form. -/
def listedLine (m : Mnemonic) (operands : List Operand) : String :=
  m.word ++ " " ++ Operand.renderAll operands

/-- The tokens of a listed line. -/
theorem listedLine_tokens {m : Mnemonic} {operands : List Operand}
    (h : ∀ o ∈ operands, o.Printable) (file : String) :
    ∃ t ts u, (Source.ofText (listedLine m operands) file).tokens = (t :: ts ++ [u], none) ∧
      t.lexeme = .keyword m.word ∧ Operand.TokensOf operands ts ∧ u.lexeme = .eof := by
  have hword : m.word ∈ Keyword.all := by
    have hmem : m ∈ Mnemonic.all := by cases m <;> decide
    simp only [Keyword.all, List.append_assoc]
    exact List.mem_append_left _ (List.mem_map_of_mem hmem)
  have hreserved : Reserved m.word := .of_mem hword
  have hform : (listedLine m operands).toList =
      m.word.toList ++ ' ' :: (Operand.renderAll operands).toList := by
    simp [listedLine]
  have hblank : Spelt (' ' :: (Operand.renderAll operands).toList) (Operand.TokensOf operands) := by
    rcases Operand.spelt_renderAll h with ⟨ls, hlexes, htokens⟩
    exact ⟨ls, fun rest ms hrest hms => .blank (hlexes rest ms hrest hms), htokens⟩
  have hspelt : Spelt (listedLine m operands).toList fun ts =>
      ∃ t us, ts = t :: us ∧ t.lexeme = .keyword m.word ∧ Operand.TokensOf operands us := by
    rw [hform]
    exact hblank.keyword hreserved rfl (by simp) fun t us ht hus => ⟨t, us, rfl, ht, hus⟩
  have hstarts : headIs Expr.startsForm (listedLine m operands).toList = true := by
    rw [hform]
    exact Expr.headIs_append (Expr.headIs_imp Expr.startsForm_of_isNameStart hreserved.start) _
  rcases hspelt.tokens file (Expr.starts_facts hstarts).1 with
    ⟨_, u, htokens, ⟨t, us, rfl, ht, hus⟩, hu⟩
  exact ⟨t, us, u, htokens, ht, hus, hu⟩

namespace Step

variable {m : Mnemonic} {operands : List Operand} {record : Record} {t u : Token} {ts : List Token}
  {r : Run}

theorem instruction_listed (ht : t.lexeme = .keyword m.word) (hts : Operand.TokensOf operands ts)
    (hu : u.lexeme = .eof) (hencode : encode r.state.resolver m operands = .ok record)
    (h : r.stream.Delivers (t :: ts ++ [u])) :
    ∃ l r', instruction m r = .ok ⟨l, r.state.encoded m operands record⟩ r' ∧
      r'.stream.Delivers [u] := by
  rcases hts with ⟨runs, hlisted, rfl, hruns⟩
  have hword : Runs advance (t :: (ts ++ [u])) t (ts ++ [u]) :=
    .reading (.advance (Token.isEnd_eq_false (by simp [ht])) _)
  rcases hword r h with ⟨r₁, hword, hr₁, hstate₁⟩
  rcases runs_operands hlisted hruns (by simp [hu]) r₁ hr₁ with ⟨r₂, hos, hr₂, hstate₂⟩
  have hstate : r₂.state = r.state := hstate₂.trans hstate₁
  have hrecord : located t (do ofExcept (encode (← resolver) m (runs.map Prod.snd))) r₂ =
      .ok record r₂ := by
    show locatedAt _ _ (fun r => ofExcept (encode r.state.resolver m _) r) r₂ = _
    simp only [locatedAt, hstate, hencode]
    rfl
  -- the instruction is counted behind the operands
  refine ⟨r₂.stream.source.locate t, { r₂.note (Event.ofEncoding m (runs.map Prod.snd) record) with
    state := r₂.state.advance record.size }, ?_, hr₂⟩
  rw [← hstate]
  exact (run_bind_of_ok hword _).trans
    ((run_bind_of_ok hos _).trans (run_bind_of_ok hrecord _))

theorem line_listed (ht : t.lexeme = .keyword m.word) (hts : Operand.TokensOf operands ts)
    (hu : u.lexeme = .eof) (hencode : encode r.state.resolver m operands = .ok record)
    (h : r.stream.Delivers (t :: ts ++ [u])) :
    ∃ l r', line r = .ok [⟨l, r.state.encoded m operands record⟩] r' ∧ r'.stream.Delivers [u] := by
  -- a mnemonic opens no conditional, and is found by its word
  have hwords : conditional? (.keyword m.word) = none ∧ Mnemonic.ofWord? m.word = some m := by
    cases m <;> decide
  rcases Runs.peek t _ r h with ⟨r₁, hpeek₁, hr₁, hstate₁⟩
  rcases Runs.peek t _ r₁ hr₁ with ⟨r₂, hpeek₂, hr₂, hstate₂⟩
  have hstate : r₂.state = r.state := hstate₂.trans hstate₁
  rw [← hstate] at hencode
  rcases instruction_listed ht hts hu hencode hr₂ with ⟨l, r₃, hinstruction, hr₃⟩
  rcases Runs.endLine_eof hu [] r₃ hr₃ with ⟨r₄, hend, hr₄, _⟩
  have hbody : body r₁ = .ok [⟨l, r₂.state.encoded m operands record⟩] r₄ := by
    refine (run_bind_of_ok hpeek₂ _).trans ?_
    simp only [ht, hwords.2]
    exact (run_bind_of_ok hinstruction _).trans (run_bind_of_ok hend _)
  rw [hstate] at hbody
  refine ⟨l, r₄, (run_bind_of_ok hpeek₁ _).trans ?_, hr₄⟩
  simp only [ht, hwords.1]
  exact hbody

theorem nextLine_listed (ht : t.lexeme = .keyword m.word) (hts : Operand.TokensOf operands ts)
    (hu : u.lexeme = .eof) (hencode : encode r.state.resolver m operands = .ok record)
    (h : r.stream.Delivers (t :: ts ++ [u])) :
    ∃ l r', nextLine r = .ok (some [⟨l, r.state.encoded m operands record⟩]) r' ∧
      r'.stream.Delivers [u] := by
  rcases Runs.peek t _ r h with ⟨r₁, hpeek, hr₁, hstate⟩
  rw [← hstate] at hencode
  rcases line_listed ht hts hu hencode hr₁ with ⟨l, r₂, hline, hr₂⟩
  rw [hstate] at hline
  have hlocated : located t line r₁ = .ok [⟨l, r.state.encoded m operands record⟩] r₂ := by
    show locatedAt _ _ line r₁ = _
    simp only [locatedAt, hline]
  refine ⟨l, r₂, (run_bind_of_ok hpeek _).trans ?_, hr₂⟩
  have hopen : t.isEnd = false := by simp [Token.isEnd, ht]
  rw [hopen]
  rw [map_eq_pure_bind]
  exact run_bind_of_ok hlocated _

end Step

namespace Run

theorem parse_listedLine {m : Mnemonic} {operands : List Operand} {record : Record} {state : State}
    (h : ∀ o ∈ operands, o.Printable) (hencode : encode state.resolver m operands = .ok record)
    (file : String) :
    ∃ l r, Run.parse (.ofText (listedLine m operands) file) state = .ok () r ∧
      r.statements = [⟨l, state.encoded m operands record⟩] := by
  rcases listedLine_tokens h file (m := m) with ⟨t, ts, u, htokens, ht, hts, hu⟩
  have hstart := Stream.delivers_ofSource htokens
  rcases Step.nextLine_listed
    (r := .start (.ofText (listedLine m operands) file) state (.empty 100 false))
    ht hts hu hencode hstart with ⟨l, r₁, hline, hr₁⟩
  -- the line is handed over, and at the end of the source there is no other
  rcases (Reached.start.line hline).parse_ok hu hr₁ with ⟨r, hparse, _, hstatements⟩
  refine ⟨l, r, hparse, hstatements.trans ?_⟩
  rw [(Step.operates_nextLine.of_ok hline).statements]
  rfl

/-- Every plain instruction of a source is read back from the text that it is listed with: in the
state that it was encoded in, a line of this text is one instruction, with the same operands, record
and place. -/
theorem listing_reads_back (text file file' : String) (state : State)
    (hscope : ∀ label ∈ state.scope, isGlobalName label = true) (r r' : Run) (ss : List Statement)
    (s : Statement) (m : Mnemonic) (operands : List Operand) (record : Record) (offset : Int)
    (placed : Option String) (hr : Reached (.ofText text file) state r)
    (hline : Step.nextLine r = .ok (some ss) r') (hs : s ∈ ss)
    (hform : s.form = .instruction m operands record offset placed)
    (hplain : ∀ o ∈ operands, ∀ e ∈ o.expr?, e.Plain) :
    ∃ st, r.state.BeforeInstruction s ss st ∧ ∃ l run,
      Run.parse (.ofText (m.word ++ " " ++ Operand.renderAll operands) file') st = .ok () run ∧
      run.statements = [⟨l, .instruction m operands record offset placed⟩] := by
  rcases Step.coded_nextLine hline hs (by rw [hform]; rfl) with
    ⟨st, hbefore, m', os, record', hwritten, hencode, hencoded⟩
  rw [hform, State.encoded] at hencoded
  cases hencoded
  -- plain operands are printable, by what has been watched up to this line
  have hstart : Watch.spelling.run (.start (.ofText text file) state (.empty 100 false)) :=
    ⟨by simp [Watch.spelling, start, Stream.ofSource], hscope⟩
  have hwatched := Step.woven_nextLine.watched.of_ok (hr.watched hstart) hline
  have hoperands := hwatched.2 ss rfl s hs
  rw [Watch.statement, hform] at hoperands
  have hprintable : ∀ o ∈ operands, o.Printable := fun o ho =>
    ⟨hwritten o ho, fun e he => hoperands o ho e he (hplain o ho e he)⟩
  exact ⟨st, hbefore, parse_listedLine hprintable hencode file'⟩

/-- A local name is listed with its full name, and its line has to be read behind the label for its
value to be known. -/
theorem listing_reads_back_labelled : ∃ r ss s st l run,
    Reached (.ofText "foo:\n.bar: ld hl, .bar + 1" "f.asm") (.fresh false) r ∧ s ∈ ss ∧
    s.form = .instruction .ld
      [.register .hl, .immediate (.binary .add (.symbol "foo.bar") (.literal 1))]
      (.arg16 0x21 (.literal 1)) 0 none ∧
    r.state.BeforeInstruction s ss st ∧
    Run.parse (.ofText "ld hl, foo.bar + 1" "g.asm") st = .ok () run ∧
    run.statements = [⟨l, s.form⟩] := by
  have hprobe : endsWith (fun first u => first.isSome &&
      endsWith (fun second _ => second.isSome &&
        (second.getD []).any fun s => s.form == .instruction .ld
          [.register .hl, .immediate (.binary .add (.symbol "foo.bar") (.literal 1))]
          (.arg16 0x21 (.literal 1)) 0 none)
        (Step.nextLine { u with statements := u.statements ++ first.getD [] }))
      (Step.nextLine (.start (.ofText "foo:\n.bar: ld hl, .bar + 1" "f.asm") (.fresh false)
        (.empty 100 false))) = true := by
    decide +kernel
  simp only [endsWith_iff, Bool.and_eq_true, List.any_eq_true, beq_iff_eq,
    Option.isSome_iff_exists] at hprobe
  rcases hprobe with ⟨_, u, hfirst, ⟨first, rfl⟩, _, r', hline, ⟨ss, rfl⟩, s, hs, hform⟩
  have hreached := Reached.line .start hfirst
  have hplain : ∀ o ∈ [Operand.register .hl,
      .immediate (.binary .add (.symbol "foo.bar") (.literal 1))], ∀ e ∈ o.expr?, e.Plain := by
    simp [Operand.expr?, Expr.Plain, Expr.parts, Expr.isPlain]
  rcases listing_reads_back _ _ "g.asm" (.fresh false) (by simp [State.fresh]) _ r' ss s _ _ _ _ _
    hreached hline hs hform hplain with ⟨st, hbefore, l, run, hparse, hstatements⟩
  rw [← hform] at hstatements
  exact ⟨_, ss, s, st, l, run, hreached, hs, hform, hbefore, hparse, hstatements⟩

/-- A carriage return stays in the printed form of a text, and ends the line of a listing there. -/
theorem listing_with_carriage_return : ∃ r e r',
    Run.parse (.ofText "ld a, strlen(\"\\r\")" "<input>") (.fresh false) = .ok () r ∧
    r.statements = [⟨⟨"<input>", 1, 1⟩, .instruction .ld
      [.register .a, .immediate (.call .strlen [.text "\r"])] (.arg8 0x3E (.literal 1) none) 0
        none⟩] ∧
    Run.parse (.ofText ("ld" ++ " " ++ Operand.renderAll
      [.register .a, .immediate (.call .strlen [.text "\r"])]) "<input>") (.fresh false) =
        .error (.error e) r' := by
  have hread : endsWith (fun _ r => r.statements == [⟨⟨"<input>", 1, 1⟩, .instruction .ld
      [.register .a, .immediate (.call .strlen [.text "\r"])] (.arg8 0x3E (.literal 1) none) 0
      none⟩])
      (Run.parse (.ofText "ld a, strlen(\"\\r\")" "<input>") (.fresh false)) = true := by
    decide +kernel
  have hfails :
    failsWith (fun _ => true) (Run.parse (.ofText ("ld" ++ " " ++ Operand.renderAll
      [.register .a, .immediate (.call .strlen [.text "\r"])]) "<input>") (.fresh false)) =
      true := by
    decide +kernel
  rcases endsWith_iff.mp hread with ⟨_, r, hr, hstatements⟩
  rcases exists_of_failsWith hfails with ⟨e, r', hr', _⟩
  exact ⟨r, e, r', hr, beq_iff_eq.mp hstatements, hr'⟩

end Run

end Sm83
