import Sm83.Proofs.Run.Forms

/-!
# Lines in a frame

A line of a source is read as the same statements in the larger source, further down. Behind it the
reading modes are back to normal and nothing has been read ahead. At its end the source may lack a
newline that the larger source has there; the larger run then finds an empty line more.
-/

namespace Sm83

/-- The statements of a line of the source and of the larger one. -/
def AllAlike (e : Frame) (ss ss' : List Statement) : Prop :=
  ss' = ss.map (Statement.down e.lines) ∧ ∀ s ∈ ss, s.form.legal = true

namespace Step

variable {e : Frame} {P : Stream → Stream → Prop} {m : Nat} {t : Token}

theorem follows_single {Q : Stream → Stream → Prop} {P : Run → Run → Prop} {x y : Step Statement}
    (h : Step.Follows e P x y (Alike e) fun _ => On e Q) :
    Step.Follows e P (do let s ← x; pure [s]) (do let s ← y; pure [s]) (AllAlike e)
      fun _ => On e Q := by
  apply Follows.bind h
  rintro s _ ⟨rfl, hs⟩
  refine .pure ⟨rfl, ?_⟩ fun _ _ h => h
  intro s' hs'
  rw [List.mem_singleton.mp hs']
  exact hs

theorem follows_conditional (d : Directive) (ht : t.isEnd = false) :
    Step.Follows e (Run.At e .normal m true [t]) (conditional d) (conditional d) (Alike e)
      fun _ => On e (Done e (m - 1)) := by
  have hend : ∀ (word : Token) (condition : Option Expr),
      Step.Follows e (Run.At e .normal (m - 1) false [])
        (do endLine; pure (⟨← locationOf word, .conditional d condition⟩ : Statement))
        (do endLine; pure (⟨← locationOf (e.token word), .conditional d condition⟩ : Statement))
        (Alike e) fun _ => On e (Done e (m - 1)) := by
    intro word condition
    apply Follows.next follows_endLine
    exact follows_statement word rfl
  apply Follows.bind (follows_advance ht)
  rintro word _ ⟨rfl, rfl⟩
  refine .pre ?_ fun _ _ h => h.forget
  split
  · have hcondition : Tracks e (m - 1) (some <$> expression) Eq :=
      follows_expression.map (fun _ _ h => congrArg some h.1) fun _ _ _ h => h
    refine .bind_eq hcondition fun condition => ?_
    exact hend word condition
  · exact hend word none

theorem follows_colon :
    Step.Follows e (Run.At e .normal m true []) colon colon Eq fun o r r' =>
      match o with
      | none => ∃ t, Run.At e .normal m true [t] r r'
      | some _ => Run.At e .normal m true [] r r' := by
  refine follows_peek_bind fun t => ?_
  rcases e.lexeme_cases t with hsame | ⟨heof, hline, _⟩
  · rw [hsame]
    split
    · next hl =>
      apply Follows.next (follows_discard_advance (by simp [Token.isEnd, hl]))
      exact .pure rfl fun _ _ h => h.pred
    · next hl =>
      apply Follows.next (follows_discard_advance (by simp [Token.isEnd, hl]))
      exact .pure rfl fun _ _ h => h.pred
    · exact .pure rfl fun _ _ h => ⟨t, h⟩
  · rw [heof, hline]
    exact .pure rfl fun _ _ h => ⟨t, h⟩

theorem follows_body_empty (ht : t.lexeme.endsLine = true) :
    Step.Follows e (Run.At e .normal m true [t]) body body (AllAlike e)
      fun _ => On e (Done e m) := by
  apply Follows.bind follows_peek_again
  rintro t _ ⟨rfl, rfl⟩
  have hempty : Step.Follows e (Run.At e .normal m true [t]) (do endLine; pure [])
      (do endLine; pure []) (AllAlike e) fun _ => On e (Done e m) := by
    apply Follows.next (follows_endLine.pre fun _ _ h => h.forget)
    refine .pure ⟨rfl, ?_⟩ fun _ _ h => h
    intro s hs
    cases hs
  rcases e.lexeme_cases t with hsame | ⟨heof, hline, _⟩
  · rw [hsame]
    split
    · exact hempty
    · exact hempty
    · next hl => simp [hl, Lexeme.endsLine] at ht
    · next hl => simp [hl, Lexeme.endsLine] at ht
    · next hnewline heof _ _ =>
      cases hl : t.lexeme <;> simp [hl, Lexeme.endsLine] at ht
      · exact absurd hl hnewline
      · exact absurd hl heof
  · rw [heof, hline]
    exact hempty

/-- The body of a line in a frame. -/
theorem follows_body (ht : t.lexeme.endsLine = false) :
    Step.Follows e (Run.At e .normal m true [t]) body body (AllAlike e)
      fun _ => On e (Done e (m - 1)) := by
  have hend := Token.isEnd_of_not_endsLine ht
  -- most statements leave the end of the line to be read
  have hthen : ∀ {x y : Step Statement}, Step.Follows e (Run.At e .normal m true [t]) x y (Alike e)
      (fun _ => Run.At e .normal (m - 1) false []) →
      Step.Follows e (Run.At e .normal m true [t]) (do let s ← x; endLine; pure [s])
        (do let s ← y; endLine; pure [s]) (AllAlike e) fun _ => On e (Done e (m - 1)) := by
    intro x y hx
    apply Follows.bind hx
    rintro s _ ⟨rfl, hs⟩
    apply Follows.next follows_endLine
    refine .pure ⟨rfl, ?_⟩ fun _ _ h => h
    intro s' hs'
    rw [List.mem_singleton.mp hs']
    exact hs
  apply Follows.bind follows_peek_again
  rintro t _ ⟨rfl, rfl⟩
  rw [Frame.lexeme_token_of_not_isEnd hend]
  split
  · next hl => simp [hl, Lexeme.endsLine] at ht
  · next hl => simp [hl, Lexeme.endsLine] at ht
  · exact follows_single (follows_macroCall _ hend)
  · next w hl =>
    split
    · exact hthen (follows_instruction _ hend)
    · next d hmnemonic hdirective =>
      by_cases hd : d = .option
      · subst hd
        exact follows_single (follows_option hend)
      · simp only [ne_eq, hd, not_false_eq_true, if_true]
        have hword : d.word = w := by simpa using List.find?_some hdirective
        exact hthen (follows_directive hd (hword ▸ hl))
    · exact follows_fail
  · exact follows_fail

/-- A declaration in a frame. -/
theorem follows_declaration (spelling : String) (ht : t.isEnd = false) :
    Step.Follows e (Run.At e .normal m true [t]) (declaration spelling) (declaration spelling)
      (AllAlike e) fun _ => On e (Done e (m - 1)) := by
  apply Follows.bind (follows_advance ht)
  rintro name _ ⟨rfl, rfl⟩
  refine .bind_eq follows_colon fun o => ?_
  cases o with
  | none =>
    exact .exists_pre fun t => follows_single (follows_definition name spelling)
  | some exported =>
    refine follows_peek_bind fun t => ?_
    rw [e.lexeme_congr (Lexeme.isKeyword Directive.macroStart.word) rfl t]
    split
    · exact follows_single (follows_definition name spelling)
    · apply Follows.bind (follows_label name spelling exported)
      rintro s _ ⟨rfl, hs⟩
      have hbody : Step.Follows e (Run.At e .normal (m - 1) true [t]) body body (AllAlike e)
          fun _ => On e (Done e (m - 1)) := by
        cases hends : t.lexeme.endsLine with
        | true => exact follows_body_empty hends
        | false => exact (follows_body hends).post fun _ _ _ h => h.done_mono (Nat.sub_le _ 1)
      apply Follows.bind hbody
      rintro rest _ ⟨rfl, hrest⟩
      refine .pure ⟨rfl, ?_⟩ fun _ _ h => h
      intro s' hs'
      rcases List.mem_cons.mp hs' with rfl | hmem
      · exact hs
      · exact hrest s' hmem

theorem follows_line (ht : t.isEnd = false) :
    Step.Follows e (Run.At e .normal m true [t]) line line (AllAlike e)
      fun _ => On e (Done e (m - 1)) := by
  apply Follows.bind follows_peek_again
  rintro t _ ⟨rfl, rfl⟩
  rw [Frame.lexeme_token_of_not_isEnd ht]
  split
  · next hnewline =>
    apply Follows.next (follows_newline hnewline)
    refine .pure ⟨rfl, ?_⟩ fun _ _ h => h
    intro s hs
    cases hs
  · next hnewline =>
    split
    · exact follows_single (follows_conditional _ ht)
    · exact follows_declaration _ ht
    · apply follows_body
      cases hl : t.lexeme with
      | newline => exact absurd hl hnewline
      | eof => simp [Token.isEnd, hl] at ht
      | _ => rfl

/-- What the runs find next: the same line, or else the end of both, or the end of the source and an
empty line of the larger one. -/
def NextAlike (e : Frame) : Option (List Statement) → Option (List Statement) → Prop
  | some ss, o => ∃ ss', o = some ss' ∧ AllAlike e ss ss'
  | none, none => e.after = none
  | none, some ss' => ss' = [] ∧ e.after.isSome = true

/-- The streams at the end of the source. -/
def AtEnd (e : Frame) (m : Nat) (s s' : Stream) : Prop :=
  (e.after = none ∧ ∃ t, t.isEnd = true ∧ Reads e .normal m true [t] s s') ∨ Past e s s'

theorem line_newline {r : Run} (hbuffer : r.stream.buffer = [t]) (ht : t.lexeme = .newline) :
    line r = .ok [] ((r.follow r.stream).follow (r.stream.consume .code t [])) := by
  have hadvance : (discard advance : Step Unit) (r.follow r.stream) =
      .ok () ((r.follow r.stream).follow (r.stream.consume .code t [])) :=
    discard_advanceAs_buffered (r := r.follow r.stream) hbuffer .code
  show EStateM.bind peek _ r = _
  simp only [EStateM.bind, peek_buffered hbuffer, ht]
  show EStateM.bind (discard advance) _ (r.follow r.stream) = _
  simp only [EStateM.bind, hadvance]
  rfl

/-- A line in a frame. -/
theorem follows_nextLine :
    Step.Follows e (Run.At e .normal m true []) nextLine nextLine (NextAlike e) fun o =>
      match o with
      | some _ => On e (Done e (m - 1))
      | none => On e (AtEnd e m) := by
  refine follows_peek_bind fun t => ?_
  cases ht : t.isEnd with
  | false =>
    have ht' : (e.token t).isEnd = false := by
      rw [Bool.eq_false_iff]
      intro hend
      rw [Frame.isEnd_of_token hend] at ht
      cases ht
    rw [ht']
    refine (follows_located (follows_line ht) t (e.token t)).map ?_ fun _ _ _ h => h
    intro ss ss' hss
    exact ⟨ss', rfl, hss⟩
  -- at the end of the first text the second either ends too, or has an empty line left to read
  | true =>
    cases hafter : e.after with
    | none =>
      rw [Frame.token_of_none hafter ht]
      refine .pure hafter ?_
      intro r r' h
      exact ⟨.inl ⟨hafter, t, ht, h.stream⟩, h.sound, h.file, h.framed⟩
    | some text =>
      have hsome : e.after.isSome = true := by simp [hafter]
      have hlexeme := Frame.lexeme_token_of_isSome hsome ht
      have ht' : (e.token t).isEnd = false := by simp [Token.isEnd, hlexeme]
      rw [ht']
      intro r r' h
      have hbuffer : r'.stream.buffer = [e.token t] := by
        rw [h.stream.framed.buffer, h.stream.buffer_eq]
        rfl
      have hline : (located (e.token t) line) r' =
          .ok [] ((r'.follow r'.stream).follow (r'.stream.consume .code (e.token t) [])) := by
        show locatedAt _ _ line r' = _
        simp only [locatedAt, line_newline hbuffer hlexeme]
      show Agree _ _ _ _ (.ok none r) (EStateM.map some (located (e.token t) line) r')
      simp only [EStateM.map, hline]
      refine .ok ⟨rfl, hsome⟩ ⟨.inr (h.stream.past ht hsome), h.sound, h.file, ?_⟩
      exact ⟨h.framed.state, h.framed.statements, h.framed.legal, h.framed.pending⟩

theorem pos_of_done {s s' : Stream} (h : Done e m s s') (halone : e.after = none) : 0 < m := by
  cases h with
  | more hreads _ => exact hreads.pos
  | ended _ _ hreads => exact hreads.pos
  | past hpast => exact absurd hpast.after (by simp [halone])

theorem follows_nextLine_alone (halone : e.after = none) :
    Step.Follows e (On e (Done e m)) nextLine nextLine (NextAlike e) fun o =>
      match o with
      | some _ => On e (Done e (m - 1))
      | none => On e (Done e m) := by
  rintro r r' ⟨hdone, hsound, hfile, hframed⟩
  cases hdone with
  | more hreads _ =>
    refine follows_nextLine.post ?_ r r' ⟨hreads, hsound, hfile, hframed⟩
    intro o s s' h
    cases o with
    | some ss => exact h
    | none =>
      rcases h.stream with ⟨_, t, ht, hreads⟩ | hpast
      · exact .done (.ended ht halone hreads) h.framed
      · exact absurd hpast.after (by simp [halone])
  | @ended t ht _ hreads =>
    have hend : Step.Follows e (Run.At e .normal m true [t]) nextLine nextLine (NextAlike e)
        fun o => match o with
          | some _ => On e (Done e (m - 1))
          | none => On e (Done e m) := by
      apply Follows.bind follows_peek_again
      rintro t _ ⟨rfl, rfl⟩
      rw [ht, Frame.token_of_none halone ht]
      exact .pure halone fun _ _ h => .done (.ended ht halone h.stream) h.framed
    exact hend r r' ⟨hreads, hsound, hfile, hframed⟩
  | past hpast => exact absurd hpast.after (by simp [halone])

end Step

end Sm83
