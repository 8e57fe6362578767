import Sm83.Proofs.Run.Whole
import Sm83.Proofs.Token.Spelling

/-!
# Sources one after the other

Reading two sources one after the other, the second from the state the first leads to, is reading
the two as one: nothing is carried over a line end but the state.
-/

namespace Sm83

theorem EndsPlain.append_line {u : List Char} (h : EndsPlain u) (line : List Char) :
    EndsPlain (line ++ '\n' :: u) := by
  intro before after htext
  rcases List.append_eq_append_iff.mp htext with ⟨front, rfl, hu⟩ | ⟨behind, rfl, hafter⟩
  · cases front with
    | nil => cases hu
    | cons c front =>
      cases hu
      exact h front after rfl
  · cases behind with
    | nil => cases hafter
    | cons c behind =>
      cases hafter
      simp

theorem endsPlain_of_getLast {cs last : List Char} (hlast : (splitLines cs).getLast? = some last)
    (hplain : '\\' ∉ last) : EndsPlain cs := by
  have hlines := linesOf_splitLines cs
  generalize splitLines cs = lines at hlines hlast
  induction hlines with
  | last =>
    cases hlast
    rintro before after rfl
    exact absurd (by simp) hplain
  | @more line _ _ _ hu ih =>
    cases hu with
    | last => exact (ih hlast).append_line line
    | more => exact (ih hlast).append_line line

variable {r r₁ : Run}

namespace Step

variable {e : Frame} {m n n' : Nat}

/-- Reading without doing anything with the statements. -/
abbrev readLines (n : Nat) : Step Unit :=
  lines (fun _ => pure ()) n

theorem follows_deliver {P : Stream → Stream → Prop} {ss ss' : List Statement}
    (h : AllAlike e ss ss') :
    Step.Follows e (On e P) (ss.forM (deliver fun _ => pure ()))
      (ss'.forM (deliver fun _ => pure ())) (fun _ _ => True) fun _ => On e P := by
  rcases h with ⟨rfl, hlegal⟩
  induction ss with
  | nil => exact .pure trivial fun _ _ h => h
  | cons s ss ih =>
    have hone : Step.Follows e (On e P) (deliver (fun _ => pure ()) s)
        (deliver (fun _ => pure ()) (s.down e.lines)) (fun _ _ => True) fun _ => On e P := by
      refine .bind (R := fun _ _ => True) (Q := fun _ => On e P) ?_ ?_
      · apply Follows.modify
        intro r r' h
        refine ⟨h.stream, h.sound, h.file, ⟨h.framed.state, ?_, ?_, h.framed.pending⟩⟩
        · simp [h.framed.statements]
        · exact List.forall_mem_append.mpr
            ⟨h.framed.legal, List.forall_mem_singleton.mpr (hlegal s List.mem_cons_self)⟩
      · intro _ _ _
        exact .pure trivial fun _ _ h => h
    apply Follows.bind hone
    intro _ _ _
    exact ih fun s' hs' => hlegal s' (List.mem_cons_of_mem _ hs')

/-- The run lemma: what each line keeps, all lines keep. -/
theorem follows_lines {lenient : Prop} {Fails : Failure → Run → Prop} {T : Nat → Run → Run → Prop}
    {handle : Statement → Step Unit} (halone : e.after = none)
    (hdone : ∀ {m r r'}, T m r r' → On e (Done e m) r r')
    (hmono : ∀ {m r r'}, T (m - 1) r r' → T m r r')
    (hline : ∀ m, Sm83.Follows lenient Fails (T m) nextLine nextLine (NextAlike e) fun o =>
      match o with
      | some _ => T (m - 1)
      | none => T m)
    (hdeliver : ∀ {m ss ss'}, AllAlike e ss ss' →
      Sm83.Follows lenient Fails (T m) (ss.forM (deliver handle)) (ss'.forM (deliver handle))
        (fun _ _ => True) fun _ => T m) (hn : m ≤ n) (hn' : m ≤ n') :
    Sm83.Follows lenient Fails (T m) (lines handle n) (lines handle n') (fun _ _ => True) fun _ =>
      T m := by
  -- a line uses up some of what is left, so the fuel of neither run is ever used up
  have hpos : ∀ {m r r'}, T m r r' → 0 < m := fun h => pos_of_done (hdone h).stream halone
  induction n generalizing m n' with
  | zero =>
    refine .vacuous fun r r' h => ?_
    have hm := hpos h
    omega
  | succ n ih =>
    cases n' with
    | zero =>
      refine .vacuous fun r r' h => ?_
      have hm := hpos h
      omega
    | succ n' =>
      apply Follows.bind (hline m)
      intro o o' halike
      cases o with
      | none =>
        cases o' with
        | none => exact .pure trivial fun _ _ h => h
        | some ss' => exact absurd halike.2 (by simp [halone])
      | some ss =>
        rcases halike with ⟨ss', rfl, halike⟩
        apply Follows.bind (hdeliver halike)
        intro _ _ _
        exact (ih (by omega) (by omega)).post fun _ _ _ h => hmono h

theorem follows_lines_alone (halone : e.after = none) (hn : m ≤ n) (hn' : m ≤ n') :
    Step.Follows e (On e (Done e m)) (readLines n) (readLines n') (fun _ _ => True)
      fun _ => On e (Done e m) :=
  follows_lines halone (fun h => h) (fun h => h.done_mono (Nat.sub_le _ 1))
    (fun _ => follows_nextLine_alone halone) follows_deliver hn hn'

section

variable {handle : Statement → Step Unit}

theorem lines_line {u v : Run} {ss : List Statement} (hline : nextLine r = .ok (some ss) u)
    (hdeliver : ss.forM (deliver handle) u = .ok () v) :
    lines handle (n + 1) r = lines handle n v := by
  show EStateM.bind nextLine _ r = _
  simp only [EStateM.bind, hline]
  show EStateM.bind (ss.forM _) _ u = _
  simp only [EStateM.bind, hdeliver]

theorem lines_cases (h : lines handle (n + 1) r = .ok () r₁) :
    nextLine r = .ok none r₁ ∨ ∃ ss u v, nextLine r = .ok (some ss) u ∧
      ss.forM (deliver handle) u = .ok () v ∧ lines handle n v = .ok () r₁ := by
  change EStateM.bind nextLine _ r = _ at h
  unfold EStateM.bind at h
  split at h
  · next o u hline =>
    cases o with
    | none =>
      cases h
      exact .inl hline
    | some ss =>
      refine .inr ⟨ss, u, ?_⟩
      change EStateM.bind (ss.forM _) _ u = _ at h
      unfold EStateM.bind at h
      split at h
      · next v hdeliver => exact ⟨v, hline, hdeliver, h⟩
      · cases h
  · cases h

end

theorem nextLine_ended {t : Token} (hbuffer : r.stream.buffer = [t]) (ht : t.isEnd = true) :
    nextLine r = .ok none (r.follow r.stream) := by
  show EStateM.bind peek _ r = _
  simp only [EStateM.bind, peek_buffered hbuffer, ht]
  rfl

/-- If a source can be read to its end, the run of the larger source gets past it, with fuel to go
on. -/
theorem lines_past (hafter : e.after.isSome = true) {c : Nat} (hn' : m + c ≤ n') {r' : Run}
    (h : On e (Done e m) r r') (hr : readLines n r = .ok () r₁) :
    ∃ k r₂, c ≤ k ∧ readLines n' r' = readLines k r₂ ∧ On e (Past e) r₁ r₂ := by
  have hnone : e.after ≠ none := by
    intro halone
    simp [halone] at hafter
  induction n generalizing m n' r r' with
  | zero => cases hr
  | succ n ih =>
    rcases h with ⟨hdone, hsound, hfile, hframed⟩
    cases hdone with
    | ended _ halone _ => exact absurd halone hnone
    | past hpast =>
      rcases hpast.ended with ⟨t, ht, hbuffer⟩
      have hend := nextLine_ended hbuffer ht
      rcases lines_cases hr with hline | ⟨ss, u, v, hline, _⟩
      · rw [hend] at hline
        cases hline
        exact ⟨n', r', by omega, rfl, hpast, hsound, hfile,
          ⟨hframed.state, hframed.statements, hframed.legal, hframed.pending⟩⟩
      · rw [hend] at hline
        cases hline
    | more hreads _ =>
      have hpos := hreads.pos
      rcases n' with _ | n'
      · omega
      have hstart : Run.At e .normal m true [] r r' := ⟨hreads, hsound, hfile, hframed⟩
      rcases lines_cases hr with hline | ⟨ss, u, v, hline, hdeliver, hlater⟩
      · -- the larger run finds an empty line where the source ends
        rcases follows_nextLine.of_ok hstart hline with ⟨o', u', hline', halike, hon⟩
        cases o' with
        | none => exact absurd halike hnone
        | some ss' =>
          rcases halike with ⟨rfl, _⟩
          refine ⟨n', u', by omega, lines_line hline' rfl, ?_⟩
          rcases hon.stream with ⟨halone, _⟩ | hpast
          · exact absurd halone hnone
          · exact ⟨hpast, hon.sound, hon.file, hon.framed⟩
      · rcases follows_nextLine.of_ok hstart hline with ⟨o', u', hline', ⟨ss', rfl, halike⟩, hon⟩
        rcases (follows_deliver halike).of_ok hon hdeliver with ⟨_, v', hdeliver', _, hon'⟩
        have hgoes : readLines (n' + 1) r' = readLines n' v' := lines_line hline' hdeliver'
        rw [hgoes]
        exact ih (by omega) hon' hlater

end Step

theorem Register.commit_eq_initial {register : Register} (h : register.commit.current = .normal) :
    register.commit = .initial := by
  cases register with
  | mk current pending =>
    cases pending with
    | none =>
      cases h
      rfl
    | some setting =>
      have heffective : setting.effective = .normal := h
      simp [commit, initial, heffective]

/-- A source that a text follows. -/
def Frame.first (source : Source) (base : State) (after : List Char) : Frame :=
  ⟨source.text, source.file, base, base, [], 0, some after⟩

/-- A source, read from a state of its own, that follows what a run has read. -/
def Frame.second (source : Source) (state : State) (u : Run) (lines : Nat) : Frame :=
  ⟨source.text, source.file, state, u.state, u.statements, lines, none⟩

namespace Run

variable {first second whole : Source} {base : State}

theorem reads_first (hfile : whole.file = first.file)
    (htext : whole.text = first.text ++ '\n' :: second.text) (hplain : EndsPlain first.text) :
    Reads (.first first base second.text) .normal (first.text.length + 1) true [] (.ofSource first)
      (.ofSource whole) := by
  have hcursor : Cursor.start whole.text =
      (Frame.first first base second.text).cursor (Cursor.start first.text) := by
    simp [Cursor.start, Frame.cursor, Frame.behind, Frame.first, htext]
  exact Reads.start rfl ⟨rfl, hfile⟩ hcursor fun _ => hplain

theorem on_start (hfile : whole.file = first.file)
    (htext : whole.text = first.text ++ '\n' :: second.text) (hplain : EndsPlain first.text)
    (diagnostics : Diagnostics) :
    On (.first first base second.text)
      (Done (.first first base second.text) (first.text.length + 1))
      (.start first base diagnostics) (.start whole base diagnostics) := by
  refine .done (.more (reads_first hfile htext hplain) fun _ ht => by cases ht)
    ⟨.refl base 0, rfl, ?_, ?_⟩
  · intro s hs
    cases hs
  · intro p hp
    cases hp

/-- Past the first source, the run is at the start of the second. -/
theorem on_past {u : Run} (hfile : second.file = first.file) {state : State}
    (halike : state.placeless = u.state.placeless) (diagnostics : Diagnostics)
    (h : On (.first first base second.text) (Past (.first first base second.text)) u r) :
    On (.second second state u (splitLines first.text).length)
      (Done (.second second state u (splitLines first.text).length) (second.text.length + 1))
      (.start second state diagnostics) r := by
  rcases h.stream.ended with ⟨t, ht, hbuffer⟩
  have hatEnd : u.stream.atEnd = true := by simp [Stream.atEnd, hbuffer, ht]
  have hline : u.stream.cursor.line = (splitLines first.text).length := by
    rcases h.sound.place with ⟨passed, hpassed, hline⟩
    rw [h.sound.ended hatEnd, List.append_nil] at hpassed
    rw [hline, splitLines_count, Nat.add_comm, ← hpassed]
    rfl
  have hregister : r.stream.register.commit = Register.initial.commit := by
    rw [h.stream.register]
    exact Register.commit_eq_initial h.stream.current
  have hcursor : r.stream.cursor =
      (Frame.second second state u (splitLines first.text).length).cursor
        (Cursor.start second.text) := by
    rw [h.stream.cursor]
    simp [Frame.past, Frame.first, Frame.second, Frame.cursor, Frame.behind, Cursor.start, hline,
      Nat.add_comm]
  -- nothing of the first part has moved
  have hstate : r.state = u.state := h.framed.state.eq_of_zero
  have hstatements : r.statements = u.statements := by
    rw [h.framed.statements]
    exact Step.down_zero_statements _
  have hreads : Reads (.second second state u (splitLines first.text).length) .normal
      (second.text.length + 1) true [] (.ofSource second) r.stream := by
    refine ⟨⟨⟨rfl, h.file.2.trans hfile.symm⟩, hregister, h.stream.buffer, hcursor, ?_⟩,
      Stream.sound_ofSource second, Stream.ordered_ofSource second, rfl, ?_, List.nil_prefix,
        fun _ => rfl⟩
    · intro hafter
      cases hafter
    · simp [Stream.left, Stream.ofSource, Cursor.start]
  refine .done (.more hreads fun _ ht => by cases ht) ⟨?_, ?_, ?_, ?_⟩
  · rw [hstate]
    exact .start halike _
  · rw [hstatements]
    exact (List.append_nil _).symm
  · intro s hs
    cases hs
  · intro p hp
    cases hp

theorem parse_eq (source : Source) (state : State) :
    Run.parse source state =
      match Step.readLines (source.text.length + 2) (.start source state (.empty 100 false)) with
      | .ok _ u => .ok () (u.note [.sourceRead u.statements.length u.stream.source.file])
      | .error f u => .error f u := by
  show EStateM.bind (Step.readLines (source.text.length + 2)) _ (.start source state _) = _
  unfold EStateM.bind
  split
  · next u hlines =>
    simp only [hlines]
    rfl
  · next f u hlines => simp only [hlines]

theorem parse_eq_ok_iff {source : Source} {state : State} :
    Run.parse source state = .ok () r ↔ ∃ u,
      Step.readLines (source.text.length + 2) (.start source state (.empty 100 false)) = .ok () u ∧
        u.note [.sourceRead u.statements.length u.stream.source.file] = r := by
  rw [parse_eq]
  split
  · next u hlines => simp [hlines]
  · next f u hlines => simp [hlines]

/-- Let the first of two sources be read successfully. Then what is read of the two as one is what
is read of the second from the state that the first leads to, further down. -/
theorem parse_follows (hfile : whole.file = first.file) (hfile' : second.file = first.file)
    (htext : whole.text = first.text ++ '\n' :: second.text) (hplain : EndsPlain first.text)
    (h : Run.parse first base = .ok () r₁) :
    Agree False (fun _ _ => True) (fun _ _ => True)
      (fun _ r₂ r => r.statements =
          r₁.statements ++ r₂.statements.map (Statement.down (splitLines first.text).length) ∧
        ∃ ops, r₂.state = r₁.state.run ops ∧
          r.state = r₁.state.run (ops.map (Operation.down (splitLines first.text).length)))
      (Run.parse second r₁.state) (Run.parse whole base) := by
  rcases parse_eq_ok_iff.mp h with ⟨u, hlines, rfl⟩
  have hfuel : first.text.length + 1 + (second.text.length + 1) ≤ whole.text.length + 2 := by
    rw [htext, List.length_append, List.length_cons]
    omega
  rcases Step.lines_past rfl hfuel (on_start hfile htext hplain _) hlines with
    ⟨n, v, hn, hsame, hpast⟩
  have hn₂ : second.text.length + 1 ≤ second.text.length + 2 := Nat.le_succ _
  have hrest := Step.follows_lines_alone rfl hn₂ hn _ _
    (on_past hfile' rfl (.empty 100 false) hpast)
  -- the note at the end changes neither the state nor the statements
  show Agree _ _ _ (fun _ r₂ r => r.statements = u.statements ++ _ ∧
    ∃ ops, r₂.state = u.state.run ops ∧ r.state = u.state.run _) (Run.parse second u.state) _
  rw [parse_eq second, parse_eq whole, hsame]
  revert hrest
  generalize Step.readLines (second.text.length + 2) _ = result
  generalize Step.readLines n v = result'
  intro hrest
  cases hrest with
  | ok _ hon => exact .ok trivial ⟨hon.framed.statements, hon.framed.state.run⟩
  | error _ => exact .error trivial
  | further hafter _ => cases hafter

end Run

/-- Reading is sequential. If a source is read whose last line has no backslash, one with a newline
and a second source behind it can be read exactly if the second can be read from the state that the
first leads to. Statements and places of the second are as many lines further down as the first has.
-/
theorem Run.parse_sequence (first second file : String) (base : State)
    (hfirst : '\r' ∉ first.toList) (hsecond : '\r' ∉ second.toList)
    (hlast : ∀ line ∈ (splitLines first.toList).getLast?, '\\' ∉ line) (r₁ : Run)
    (h : Run.parse (.ofText first file) base = .ok () r₁) :
    ((∃ r, Run.parse (.ofText (first ++ "\n" ++ second) file) base = .ok () r) ↔
      ∃ r₂, Run.parse (.ofText second file) r₁.state = .ok () r₂) ∧
    ∀ r r₂, Run.parse (.ofText (first ++ "\n" ++ second) file) base = .ok () r →
      Run.parse (.ofText second file) r₁.state = .ok () r₂ →
      r.statements =
        r₁.statements ++ r₂.statements.map (Statement.down (splitLines first.toList).length) ∧
      ∃ ops, r₂.state = r₁.state.run ops ∧
        r.state = r₁.state.run (ops.map (Operation.down (splitLines first.toList).length)) := by
  have htext : ∀ s : String, '\r' ∉ s.toList → (Source.ofText s file).text = s.toList :=
    fun s hs => uniformLineEnds_eq_self hs
  have hboth : '\r' ∉ (first ++ "\n" ++ second).toList := by
    simp [hfirst, hsecond]
  have hwhole : (Source.ofText (first ++ "\n" ++ second) file).text =
      (Source.ofText first file).text ++ '\n' :: (Source.ofText second file).text := by
    rw [htext _ hboth, htext _ hfirst, htext _ hsecond]
    simp
  have hplain : EndsPlain (Source.ofText first file).text := by
    rw [htext _ hfirst]
    cases hline : (splitLines first.toList).getLast? with
    | none => exact absurd (List.getLast?_eq_none_iff.mp hline) (splitLines_ne_nil _)
    | some line => exact endsPlain_of_getLast hline (hlast line hline)
  have hfile : (Source.ofText (first ++ "\n" ++ second) file).file =
      (Source.ofText first file).file := rfl
  have hfile' : (Source.ofText second file).file = (Source.ofText first file).file := rfl
  -- the run on the whole source follows the run on the second, started where the first has ended
  have hagree := parse_follows hfile hfile' hwhole hplain h
  rw [htext _ hfirst] at hagree
  revert hagree
  generalize Run.parse (.ofText second file) r₁.state = result
  generalize Run.parse (.ofText (first ++ "\n" ++ second) file) base = result'
  intro hagree
  cases hagree with
  | @ok _ _ r₂ r _ hrel =>
    refine ⟨⟨fun _ => ⟨r₂, rfl⟩, fun _ => ⟨r, rfl⟩⟩, ?_⟩
    intro r' r₂' hr hr₂
    cases hr
    cases hr₂
    exact hrel
  | error _ =>
    refine ⟨⟨?_, ?_⟩, ?_⟩
    · rintro ⟨r, hr⟩
      cases hr
    · rintro ⟨r, hr⟩
      cases hr
    · intro r r₂ hr
      cases hr
  | further hfalse _ => exact hfalse.elim

/-- A source has been read and has so many statements. -/
def Run.yields (n : Nat) : EStateM.Result Failure Run Unit → Bool
  | .ok _ r => r.statements.length = n
  | .error _ _ => false

theorem Run.exists_of_yields {n : Nat} {result : EStateM.Result Failure Run Unit}
    (h : Run.yields n result = true) : ∃ r, result = .ok () r ∧ r.statements.length = n := by
  cases result with
  | ok u r => exact ⟨r, rfl, by simpa [Run.yields] using h⟩
  | error f r => cases h

/-- The last line of the first source, a call with raw arguments, is ended by the end of the source,
and the label and the data of the second follow it. -/
theorem Run.parse_sequence_call : ∃ r₁ r r₂,
    Run.parse (.ofText "x equ 2\nm a, b" "f.asm") (.fresh false) = .ok () r₁ ∧
    Run.parse (.ofText ("x equ 2\nm a, b" ++ "\n" ++ "y: db x") "f.asm") (.fresh false) = .ok () r ∧
    Run.parse (.ofText "y: db x" "f.asm") r₁.state = .ok () r₂ ∧
    r₁.statements.length = 2 ∧ r.statements.length = 4 ∧
    r.statements = r₁.statements ++ r₂.statements.map (Statement.down 2) := by
  have hfirst : Run.yields 2 (Run.parse (.ofText "x equ 2\nm a, b" "f.asm") (.fresh false)) =
      true := by
    decide +kernel
  have hwhole : Run.yields 4 (Run.parse (.ofText ("x equ 2\nm a, b" ++ "\n" ++ "y: db x") "f.asm")
      (.fresh false)) = true := by
    decide +kernel
  rcases Run.exists_of_yields hfirst with ⟨r₁, h₁, hlength₁⟩
  rcases Run.exists_of_yields hwhole with ⟨r, hr, hlength⟩
  have hsequence :=
    Run.parse_sequence "x equ 2\nm a, b" "y: db x" "f.asm" (.fresh false) (by decide)
    (by decide) (by decide) r₁ h₁
  rcases hsequence.1.mp ⟨r, hr⟩ with ⟨r₂, h₂⟩
  exact ⟨r₁, r, r₂, h₁, hr, h₂, hlength₁, hlength, (hsequence.2 r r₂ hr h₂).1⟩

end Sm83
