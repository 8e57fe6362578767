import Sm83.Proofs.Run.Block
import Sm83.Proofs.Run.Reached

/-!
# Comment lines in a block

A comment line is put into the body of a macro or of a repetition. The block is then read with this
line more, up to the same closing line, and all that comes behind is read as it was, one line
further down, unless the line has a star and opens a block for the block.
-/

namespace Sm83

open Outcome Step BlockWords

theorem BlockUse.form_injective {use use' : BlockUse} {body body' : String}
    (h : use.form body = use'.form body') : use = use' ∧ body = body' := by
  cases use <;> cases use' <;> cases h <;> exact ⟨rfl, rfl⟩

variable {head : List Char}

theorem BlockWords.getLast?_append_isWhole {opening : List Char}
    (hopening : opening.getLast? = some '\n') (hhead : isWhole head = true) :
    (opening ++ head).getLast? = some '\n' := by
  rw [List.getLast?_append]
  cases hlast : head.getLast? with
  | none => simpa using hopening
  | some ch =>
    rw [isWhole, hlast] at hhead
    rw [Option.some_or, beq_iff_eq.mp hhead]

theorem BlockWords.lineKind_nil (words : BlockWords) : words.lineKind [] = .plain :=
  rfl

namespace Step

variable {use : BlockUse} {before ss : List Statement} {t : Token} {v w u r : Run} {text : String}

theorem readBlock_of_ok (before : List Statement) (t : Token)
    (hblock : rawBlock use.words.closing use.words.opening v = .ok text w)
    (hend : endLine w = .ok () u) :
    readBlock use before t v =
      .ok (before ++ [⟨u.stream.source.locate t, use.form text⟩]) (u.note (use.events text)) :=
  (run_bind_of_ok hblock _).trans (run_bind_of_ok hend _)

theorem exists_of_readBlock (h : readBlock use before t v = .ok ss r) :
    ∃ text w u, rawBlock use.words.closing use.words.opening v = .ok text w ∧ endLine w = .ok () u ∧
      ss = before ++ [⟨u.stream.source.locate t, use.form text⟩] ∧
        r = u.note (use.events text) := by
  rcases of_bind h with ⟨text, w, hblock, h⟩
  rcases of_bind h with ⟨_, u, hend, ⟨⟩⟩
  exact ⟨text, w, u, hblock, hend, rfl, rfl⟩

end Step

theorem Cursor.normalToken_ok_down {c c' : Cursor} {source : Source} {t : Token}
    (h : c.normalToken source = .ok (t, c')) (k : Nat) (source' : Source) :
    (c.down k).normalToken source' = .ok (t.down k, c'.down k) := by
  rcases normalToken_eq_ok_iff.mp h with ⟨hstray, l, n, hscan, rfl, rfl⟩
  refine normalToken_eq_ok_iff.mpr ⟨hstray, l, n, ?_, ?_, ?_⟩
  · rw [rest_down, fresh_down, pass_down]
    exact hscan
  · rw [rest_down, fresh_down, pass_down]
    rfl
  · rw [rest_down, fresh_down, pass_down, skip_down]

namespace Run

/-- A line is read from a run that has been reached. Its last statement has a block, which is the
token, with the text. -/
structure ReadsBlock (source : Source) (state : State) (r r₁ : Run) (before : List Statement)
    (l : Location) (use : BlockUse) (t : Token) (text : List Char) : Prop where
  reached : Reached source state r
  line : nextLine r = .ok (some (before ++ [⟨l, use.form (String.ofList text)⟩])) r₁
  token : r₁.stream.blocks.head? = some t

/-- How a line with a block is read: up to the block, the block itself, and the end of the line. -/
structure Opened (r r₁ : Run) (before : List Statement) (l : Location) (use : BlockUse) (t : Token)
    (text : List Char) (v : Run) (name : Token) (c : Cursor) (e : Token) (c' : Cursor) : Prop where
  leads : Step.LeadsTo nextLine r (some <$> readBlock use before name) v
  location : l = v.stream.source.locate name
  buffer : v.stream.buffer = []
  previous : ∃ t', v.stream.previous = some t' ∧
    (t'.lexeme = .newline ∨ ∃ w, t'.lexeme = .keyword w)
  next : v.stream.cursor.next v.stream.source use.words.setting = .ok (t, c)
  lexeme : t.lexeme = .rawBlock (String.ofList text)
  ends : c.normalToken v.stream.source = .ok (e, c')
  endsLine : e.lexeme.endsLine = true
  stream : r₁.stream = (v.stream.passBlock use.words t c).passEnd e c'
  state : r₁.state = v.state

section

variable {source source' : Source} {state : State} {r r₁ : Run} {before : List Statement}
  {l : Location} {use : BlockUse} {t : Token} {text : List Char}

/-- The run at the place where the block is opened. -/
theorem ReadsBlock.opened (h : ReadsBlock source state r r₁ before l use t text) :
    ∃ v name c e c', Opened r r₁ before l use t text v name c e c' := by
  rcases comes_nextLine h.line (List.mem_append_right _ List.mem_cons_self)
    (use.isBlock_form _) with
    ⟨use', before', name, v, t', hleads, hprevious⟩
  rcases map_eq_ok ((hleads.akin.ok _ _).mp h.line) with ⟨ss, hread, hss⟩
  rcases exists_of_readBlock hread with ⟨text', w, u, hblock, hend, rfl, rfl⟩
  -- the statements are known from those of the line
  injection hss with hss
  rcases List.append_inj' hss rfl with ⟨rfl, hlast⟩
  injection hlast with hlast
  injection hlast with hlocation hform
  rcases BlockUse.form_injective hform with ⟨rfl, rfl⟩
  rcases h.reached.ready with ⟨m, _, hready⟩
  have hsound : u.stream.Sound source.text := by
    have hkeeps := keeps_nextLine r hready
    rw [h.line] at hkeeps
    exact hkeeps.2.sound
  have hended : w.stream.history <:+ u.stream.history := (woven_endLine.onward hend).history
  rcases exists_of_rawBlock hblock fun move hmove => hsound.moves move (hended.mem hmove) with
    ⟨hbuffer, tk, c, hnext, htext, hw, hwstate⟩
  have hempty : w.stream.buffer = [] := by
    rw [hw]
    exact Stream.buffer_passBlock htext
  have hcurrent : w.stream.register.commit.current = .normal := by
    rw [hw]
    rfl
  rcases exists_of_endLine hend hempty hcurrent with ⟨e, c', hnormal, hends, hu, hustate⟩
  rw [hw] at hnormal hu
  have htoken : t = tk := by
    have hblocks : u.stream.blocks.head? = some t := h.token
    rw [hu, Stream.blocks_passEnd_passBlock] at hblocks
    exact (Option.some.inj hblocks).symm
  subst htoken
  have hsource : u.stream.source = v.stream.source := by
    rw [hu]
    exact Stream.source_passEnd _ e c'
  rw [hsource] at hlocation
  exact ⟨v, name, c, e, c', hleads, hlocation.symm, hbuffer, ⟨t', hprevious⟩, hnext, htext, hnormal,
    hends, hu, hustate.trans hwstate⟩

/-! ## The place of the body -/

theorem eq_of_lineStart {p q x y : List Char} (h : p ++ x = q ++ y) (hp : p.getLast? = some '\n')
    (hq : q.getLast? = some '\n') (hcount : p.count '\n' = q.count '\n') : p = q := by
  -- what one of them has more would hold a newline
  have hnone : ∀ {p z : List Char}, (p ++ z).getLast? = some '\n' → z.count '\n' = 0 → z = [] := by
    intro p z hlast hz
    by_contra hne
    rw [List.getLast?_append_of_ne_nil _ hne] at hlast
    exact List.count_eq_zero.mp hz (List.mem_of_getLast? hlast)
  rcases List.append_eq_append_iff.mp h with ⟨z, rfl, _⟩ | ⟨z, rfl, _⟩
  · rw [List.count_append] at hcount
    rw [hnone hq (by omega), List.append_nil]
  · rw [List.count_append] at hcount
    rw [hnone hp (by omega), List.append_nil]

variable {k : Nat}

section

variable {v : Run} {name e : Token} {c c' : Cursor} {opening behind : List Char}

theorem Opened.fresh (h : Opened r r₁ before l use t text v name c e c')
    (hordered : v.stream.Ordered) :
    v.stream.cursor.column = 1 → v.stream.cursor.fresh = true ∧
      '\n' :: v.stream.cursor.rest <:+ v.stream.source.text := by
  intro hcolumn
  rcases h.previous with ⟨t', hprevious, hl⟩
  have hlatest : v.stream.latest? = some t' := by simp [Stream.latest?, h.buffer, hprevious]
  rcases hl with hl | ⟨w, hl⟩
  · have hopens := hordered.opens t' hlatest hl
    exact ⟨hopens.fresh, hopens.newline⟩
  · exact absurd hcolumn (hordered.within t' w hlatest hl).1

/-- The body of the block starts behind its opening line. -/
theorem Opened.bodyAt (h : Opened r r₁ before l use t text v name c e c')
    (hordered : v.stream.Ordered) (htext : v.stream.source.text = opening ++ behind)
    (hopening : opening.getLast? = some '\n') (hline : t.line = 1 + opening.count '\n') :
    v.stream.cursor.BodyAt behind t.line := by
  rcases next_eq_ok_iff.mp h.next with
    ⟨b, body, last, more, hb, hsplit, _, hlast, rfl, _⟩
  have hbody : v.stream.cursor.BodyAt b.rest b.line := by
    rcases Cursor.bodyAt_of_bodyStart hb with hbody | hnil
    · exact hbody
    · -- without a text there is no closing line
      rw [hnil] at hsplit
      cases body with
      | nil =>
        cases hsplit
        rw [lineKind_nil] at hlast
        cases hlast
      | cons first body => simp [splitLines] at hsplit
  have hnewline : '\n' :: b.rest <:+ v.stream.source.text := by
    generalize hk : b.line = k at hbody
    generalize b.rest = rest at hbody
    cases hbody with
    | here column => exact (h.fresh hordered column).2
    | below column rest blank skipped =>
      refine List.IsSuffix.trans ?_ hordered.place.suffix
      rw [rest, ← List.append_assoc]
      exact List.suffix_append _ _
  rcases Cursor.bodyStart_in hb _ hordered.place with ⟨passed, hpassed, hplace⟩
  rcases hnewline with ⟨q, hq⟩
  have hends : passed = q ++ ['\n'] := by
    have happend : passed ++ b.rest = q ++ ['\n'] ++ b.rest := by
      rw [← hpassed, ← hq]
      simp
    exact List.append_cancel_right happend
  have hsame : passed = opening := by
    refine eq_of_lineStart (hpassed.symm.trans htext) ?_ hopening ?_
    · rw [hends]
      simp
    · have hplace' : b.line = 1 + opening.count '\n' := hline
      omega
  have hrest : b.rest = behind := by
    rw [hsame, htext] at hpassed
    exact (List.append_cancel_left hpassed).symm
  rw [hrest] at hbody
  exact hbody

theorem Opened.behind_ne_nil {tail rest : List Char}
    (h : Opened r r₁ before l use t (head ++ tail) v name c e c')
    (hbody : v.stream.cursor.BodyAt (head ++ (tail ++ rest)) k)
    (hfresh : v.stream.cursor.column = 1 → v.stream.cursor.fresh = true) : tail ++ rest ≠ [] := by
  rcases next_eq_ok_iff.mp h.next with
    ⟨b, body, last, more, hb, hsplit, _, hlast, rfl, _⟩
  rw [hbody.bodyStart_eq hfresh] at hb
  cases hb
  rcases exists_of_splitLines_append hsplit (by simp) with ⟨closing, hclosing, hmore⟩
  have htext : textOf body = head ++ tail := by
    have hlexeme := h.lexeme
    injection hlexeme with hlexeme
    exact String.ofList_injective hlexeme
  have hrest : rest = closing := by
    rw [htext, ← List.append_assoc] at hclosing
    exact List.append_cancel_left hclosing
  intro hnil
  rw [← hrest, (List.append_eq_nil_iff.mp hnil).2] at hmore
  cases hmore
  rw [lineKind_nil] at hlast
  cases hlast

end

/-! ## The lines before the body -/

/-- Two sources start with the same lines. A run that has not left them has been reached in both. -/
theorem Reached.twin {p u u' : List Char} (hfile : source'.file = source.file)
    (htext : source.text = p ++ u) (htext' : source'.text = p ++ u') (hp : p.getLast? = some '\n')
    (hu : u ≠ []) (hr : Reached source state r) (hwithin : r.stream.cursor.Within u) :
    ∃ r', Reached source' state r' ∧ Run.Twin u u' r r' ∧ r'.statements = r.statements := by
  induction hr with
  | start =>
    refine ⟨_, .start, ⟨⟨⟨fun hnil => absurd hnil hu, p, ?_, htext, ?_⟩, rfl, rfl, hfile⟩, rfl⟩,
      rfl⟩
    · exact .inr (.inr (List.getLast?_eq_some_iff.mp hp))
    · show Cursor.start source'.text = _
      rw [htext']
      rfl
  | @line r r₁ ss hr hline ih =>
    have hwithin₁ : r₁.stream.cursor.Within u := hwithin
    have honward : r.stream.Onward r₁.stream := retraces_nextLine.onward hline
    rcases ih (honward.within hwithin₁) with ⟨r', hr', htwin, hstatements⟩
    rcases hr'.ready with ⟨m, _, hready⟩
    rcases nextLine_twin htwin hready hline hwithin₁ with ⟨r₁', hline', htwin'⟩
    refine ⟨_, hr'.line hline', ⟨htwin'.stream, htwin'.state⟩, ?_⟩
    rw [(operates_nextLine.of_ok hline').statements,
      (operates_nextLine.of_ok hline).statements, hstatements]

/-! ## The block with a line more -/

/-- The second run stands where the first does, some lines further down. -/
structure Lower (k : Nat) (r r' : Run) : Prop where
  state : r'.state = r.state
  cursor : r'.stream.cursor = r.stream.cursor.down k
  buffer : r'.stream.buffer = r.stream.buffer.map (Token.down k)
  register : r'.stream.register.commit = r.stream.register.commit
  file : r'.stream.source.file = r.stream.source.file

theorem Opened.lower {v v' u' : Run} {name e t' : Token} {c c' : Cursor} {text' : String}
    {x x' : List Char} (h : Opened r r₁ before l use t text v name c e c')
    (htwin : Run.Twin x x' v v')
    (hstream :
      u'.stream = (v'.stream.passBlock use.words t' (c.down k)).passEnd (e.down k) (c'.down k))
        (hstate : u'.state = v.state) (ht' : t'.lexeme = .rawBlock text') : Lower k r₁ u' := by
  rcases Stream.passEnd_passBlock v.stream use.words h.lexeme e c c' with
    ⟨hcursor, hbuffer, hregister⟩
  rcases Stream.passEnd_passBlock v'.stream use.words ht' (e.down k) (c.down k) (c'.down k) with
    ⟨hcursor', hbuffer', hregister'⟩
  rw [← h.stream] at hcursor hbuffer hregister
  rw [← hstream] at hcursor' hbuffer' hregister'
  refine ⟨hstate.trans h.state.symm, ?_, ?_, hregister'.trans hregister.symm, ?_⟩
  · rw [hcursor', hcursor]
  · have hend : (e.down k).isEnd = e.isEnd := rfl
    rw [hbuffer', hbuffer, hend]
    split <;> rfl
  · rw [hstream, h.stream, Stream.source_passEnd, Stream.source_passEnd]
    exact htwin.stream.file

/-- With a plain line put in, the block is read with this line more, and what comes behind is lower.
-/
theorem ReadsBlock.inserted {opening tail rest comment : List Char}
    (hfile : source'.file = source.file) (htext : source.text = opening ++ (head ++ (tail ++ rest)))
    (htext' : source'.text = opening ++ (head ++ (comment ++ '\n' :: (tail ++ rest))))
    (hopening : opening.getLast? = some '\n') (hhead : isWhole head = true)
    (hcomment : '\n' ∉ comment) (hplain : use.words.lineKind comment = .plain)
    (h : ReadsBlock source state r r₁ before l use t (head ++ tail))
    (hline : t.line = 1 + opening.count '\n') :
    ∃ r' r₁', ReadsBlock source' state r' r₁' before l use
        { t with lexeme := .rawBlock (String.ofList (head ++ (comment ++ '\n' :: tail))) }
        (head ++ (comment ++ '\n' :: tail)) ∧
      r'.statements = r.statements ∧ Lower 1 r₁ r₁' := by
  rcases h.opened with ⟨v, name, c, e, c', hopened⟩
  have hsource : v.stream.source = source := hopened.leads.onward.source.trans h.reached.source_eq
  have hordered : v.stream.Ordered := (hopened.leads.onward.ordered h.reached.ordered).1
  have hbody := hopened.bodyAt hordered (by rw [hsource, htext]) hopening hline
  have hfresh : v.stream.cursor.column = 1 → v.stream.cursor.fresh = true :=
    fun hcolumn => (hopened.fresh hordered hcolumn).1
  have hwithin : v.stream.cursor.Within (tail ++ rest) := hbody.within hfresh
  have hbehind : tail ++ rest ≠ [] := hopened.behind_ne_nil hbody hfresh
  have hsplit : source.text = (opening ++ head) ++ (tail ++ rest) := by
    rw [htext, List.append_assoc]
  have hsplit' : source'.text = (opening ++ head) ++ (comment ++ '\n' :: (tail ++ rest)) := by
    rw [htext', List.append_assoc]
  -- up to the body both sources are the same, so a run reaches the same place in the longer one
  rcases h.reached.twin hfile hsplit hsplit' (getLast?_append_isWhole hopening hhead)
    hbehind (hopened.leads.onward.within hwithin) with ⟨r', hr', htwin, hstatements⟩
  rcases hr'.ready with ⟨m, _, hready⟩
  rcases hopened.leads.twin htwin hwithin with ⟨v', htwin', hakin⟩ | ⟨w, hexhausted⟩
  · rcases htwin'.stream.cursor.common with ⟨p, _, hahead⟩
    -- there the block is read with the line more
    have hnext :=
      next_inserted hfresh hbody hopened.next hopened.lexeme hhead hcomment hplain hahead
      v'.stream.source
    have hbuffer' : v'.stream.buffer = [] := htwin'.stream.buffer.trans hopened.buffer
    rcases rawBlock_of_next hbuffer' hnext rfl with ⟨w', hblock', hw', hwstate'⟩
    -- and what stands behind the closing word is the same, one line further down
    have hends : w'.stream.cursor.normalToken w'.stream.source = .ok (e.down 1, c'.down 1) := by
      rw [hw']
      exact Cursor.normalToken_ok_down hopened.ends 1 _
    rcases endLine_of_next (by rw [hw']; exact Stream.buffer_passBlock rfl) (by rw [hw']; rfl)
      hends hopened.endsLine with ⟨u', hend', hu', hustate'⟩
    rw [hw'] at hu'
    have hread := readBlock_of_ok before name hblock' hend'
    have hplace : u'.stream.source.file = v.stream.source.file := by
      rw [hu', Stream.source_passEnd]
      exact htwin'.stream.file
    have hlocation : u'.stream.source.locate name = l := by
      rw [hopened.location, Source.locate, Source.locate, hplace]
    rw [hlocation] at hread
    have hmapped := run_bind_of_ok hread fun ss => pure (some ss)
    rw [← map_eq_pure_bind] at hmapped
    refine ⟨r', _, ⟨hr', (hakin.ok _ _).mpr hmapped, ?_⟩, hstatements, ?_⟩
    · show u'.stream.blocks.head? = _
      rw [hu', Stream.blocks_passEnd_passBlock]
      rfl
    · exact hopened.lower htwin' hu' ((hustate'.trans hwstate').trans htwin'.state) rfl
  · -- the longer source has tokens left, so the reader cannot run out of them
    exact absurd hexhausted (nextLine_not_exhausted hready)

/-! ## What comes behind the block -/

/-- A run further down, as one in a frame. -/
theorem restarted {m : Nat} {R R' : Run} (hready : Step.Ready source state m R) (h : Lower k R R') :
    On ⟨source.text, source.file, R.state, R.state, R'.statements, k, none⟩
      (Done ⟨source.text, source.file, R.state, R.state, R'.statements, k, none⟩ m)
      { R with statements := [] } R' := by
  let e : Frame := ⟨source.text, source.file, R.state, R.state, R'.statements, k, none⟩
  have htoken : e.token = Token.down k := by
    funext t
    simp [e, Frame.token, Frame.lexeme, Token.down]
  have hcursor : ∀ c, e.cursor c = c.down k := by
    intro c
    simp [e, Frame.cursor, Frame.behind, Cursor.down]
  have hframed : Stream.Framed e R.stream R'.stream := by
    refine ⟨⟨hready.file.1, h.file.trans hready.file.1⟩, h.register, ?_, ?_, ?_⟩
    · rw [h.buffer, htoken]
    · have hpast : e.past R.stream.cursor = e.cursor R.stream.cursor := rfl
      rw [h.cursor, hpast, hcursor, ite_self]
    · intro hafter
      cases hafter
  have hreads : ∀ {ts}, Reads (.bare source state) .normal m true ts R.stream R.stream →
      Reads e .normal m true ts R.stream R'.stream :=
    fun hreads => ⟨hframed, hreads.sound, hreads.ordered, hreads.current, hreads.left, hreads.ahead,
      hreads.only⟩
  refine .done ?_ ⟨?_, ?_, ?_, hready.framed.pending⟩
  · cases hready.stream with
    | more reads hrested => exact .more (hreads reads) hrested
    | ended ht _ reads => exact .ended ht rfl (hreads reads)
    | past hpast => exact absurd hpast.after (by simp [Frame.bare])
  · rw [h.state]
    exact .refl _ _
  · exact (List.append_nil _).symm
  · intro s hs
    cases hs

/-- Further down the same lines are read. -/
theorem readLines_lower {m n n' : Nat} {R R' : Run} (hready : Step.Ready source state m R)
    (h : Lower k R R') (hn : m ≤ n) (hn' : m ≤ n') :
    ((∃ u, readLines n R = .ok () u) ↔ ∃ u', readLines n' R' = .ok () u') ∧
      ∀ u u', readLines n R = .ok () u → readLines n' R' = .ok () u' →
        ∃ later ops, u.statements = R.statements ++ later ∧
          u'.statements = R'.statements ++ later.map (Statement.down k) ∧
            u.state = R.state.run ops ∧
          u'.state = R.state.run (ops.map (Operation.down k)) := by
  have hsame : Lower 0 R R := by
    refine ⟨rfl, rfl, ?_, rfl, rfl⟩
    have hdown : Token.down 0 = id := rfl
    rw [hdown, List.map_id]
  -- both are compared with one run that starts without statements: the frame tells only what is new
  have hhere := follows_lines_alone rfl hn hn _ _ (restarted hready hsame)
  have hthere := follows_lines_alone rfl hn hn' _ _ (restarted hready h)
  revert hhere hthere
  generalize readLines n { R with statements := [] } = result₀
  generalize readLines n R = result
  generalize readLines n' R' = result'
  intro hhere hthere
  cases hhere with
  | further hafter _ => cases hafter
  | error _ =>
    cases hthere with
    | further hafter _ => cases hafter
    | error _ =>
      refine ⟨⟨?_, ?_⟩, ?_⟩
      · rintro ⟨_, ⟨⟩⟩
      · rintro ⟨_, ⟨⟩⟩
      · intro u u' hu
        cases hu
  | @ok _ _ u₀ u _ hon =>
    cases hthere with
    | @ok _ _ _ u' _ hon' =>
      refine ⟨⟨fun _ => ⟨u', rfl⟩, fun _ => ⟨u, rfl⟩⟩, ?_⟩
      intro v v' hv hv'
      cases hv
      cases hv'
      rcases hon'.framed.state.run with ⟨ops, hops, hops'⟩
      refine ⟨u₀.statements, ops, ?_, hon'.framed.statements, ?_, hops'⟩
      · rw [hon.framed.statements]
        exact congrArg _ (down_zero_statements _)
      · rw [hon.framed.state.eq_of_zero]
        exact hops

theorem Reached.parse_eq_ok_iff (hr : Reached source state r) {w : Run} :
    Run.parse source state = .ok () w ↔ ∃ u, readLines (source.text.length + 2) r = .ok () u ∧
      u.note [.sourceRead u.statements.length u.stream.source.file] = w := by
  rw [Run.parse_eq_ok_iff, hr.readLines_eq]

/-- Further down the source is read to its end alike. -/
theorem parse_lower {r' r₁' : Run} {ss ss' : List Statement} (hr : Reached source state r)
    (hr' : Reached source' state r') (hline : nextLine r = .ok (some ss) r₁)
    (hline' : nextLine r' = .ok (some ss') r₁') (hstatements : r'.statements = r.statements)
    (hlower : Lower k r₁ r₁') (hlength : source.text.length ≤ source'.text.length) :
    ((∃ w, Run.parse source state = .ok () w) ↔ ∃ w', Run.parse source' state = .ok () w') ∧
      ∀ w w', Run.parse source state = .ok () w → Run.parse source' state = .ok () w' →
        ∃ later ops, w.statements = r.statements ++ ss ++ later ∧
          w'.statements = r.statements ++ ss' ++ later.map (Statement.down k) ∧
            w.state = r₁.state.run ops ∧
          w'.state = r₁.state.run (ops.map (Operation.down k)) := by
  have hR := hr.line hline
  have hR' := hr'.line hline'
  rcases hR.ready with ⟨m, hm, hready⟩
  have hlower' : Lower k { r₁ with statements := r₁.statements ++ ss }
      { r₁' with statements := r₁'.statements ++ ss' } :=
    ⟨hlower.state, hlower.cursor, hlower.buffer, hlower.register, hlower.file⟩
  have hn : m ≤ source.text.length + 2 := by omega
  have hn' : m ≤ source'.text.length + 2 := by omega
  rcases readLines_lower hready hlower' hn hn' with ⟨hiff, hresults⟩
  have hbefore : r₁.statements = r.statements := (operates_nextLine.of_ok hline).statements
  have hbefore' : r₁'.statements = r.statements :=
    (operates_nextLine.of_ok hline').statements.trans hstatements
  constructor
  · constructor
    · rintro ⟨w, hw⟩
      rcases hR.parse_eq_ok_iff.mp hw with ⟨u, hu, _⟩
      rcases hiff.mp ⟨u, hu⟩ with ⟨u', hu'⟩
      exact ⟨_, hR'.parse_eq_ok_iff.mpr ⟨u', hu', rfl⟩⟩
    · rintro ⟨w', hw'⟩
      rcases hR'.parse_eq_ok_iff.mp hw' with ⟨u', hu', _⟩
      rcases hiff.mpr ⟨u', hu'⟩ with ⟨u, hu⟩
      exact ⟨_, hR.parse_eq_ok_iff.mpr ⟨u, hu, rfl⟩⟩
  · intro w w' hw hw'
    rcases hR.parse_eq_ok_iff.mp hw with ⟨u, hu, rfl⟩
    rcases hR'.parse_eq_ok_iff.mp hw' with ⟨u', hu', rfl⟩
    rcases hresults u u' hu hu' with ⟨later, ops, hlater, hlater', hstate, hstate'⟩
    refine ⟨later, ops, ?_, ?_, hstate, hstate'⟩
    · rw [← hbefore]
      exact hlater
    · rw [← hbefore']
      exact hlater'

/-! ## Comment lines -/

theorem plain_of_isCommentLine {comment : List Char}
    (hcomment : isCommentLine comment = true)
    (h : use.words.lineKind comment ≠ .opener) : use.words.lineKind comment = .plain := by
  have hclosing : use.words.closing.toList.head? ≠ some '*' := by
    cases use with
    | definition name => exact (by decide : macros.closing.toList.head? ≠ some '*')
    | repetition count => exact (by decide : repetitions.closing.toList.head? ≠ some '*')
  have hcloser : use.words.lineKind comment ≠ .closer :=
    lineKind_comment hcomment hclosing
  cases hkind : use.words.lineKind comment with
  | plain => rfl
  | opener => exact absurd hkind h
  | closer => exact absurd hkind hcloser

/-- A comment line is put into the body of a block. Unless it opens a block for the block, which a
semicolon rules out, the block is read with this line more up to the same closing line, and the
source can be read to its end exactly if it could be before, one line further down. If it opens a
block, the block is not read so. -/
theorem comment_in_block {opening head tail rest comment : List Char}
    (hfile : source'.file = source.file) (htext : source.text = opening ++ (head ++ (tail ++ rest)))
    (htext' : source'.text = opening ++ (head ++ (comment ++ '\n' :: (tail ++ rest))))
    (hopening : opening.getLast? = some '\n') (hhead : isWhole head = true)
    (hcomment : isCommentLine comment = true)
    (h : ReadsBlock source state r r₁ before l use t (head ++ tail))
    (hline : t.line = 1 + opening.count '\n') :
    (headIs (· = ';') (comment.dropWhile isBlank) = true → use.words.lineKind comment ≠ .opener) ∧
    (use.words.lineKind comment ≠ .opener ↔ ∃ r' r₁', ReadsBlock source' state r' r₁' before l use
        { t with lexeme := .rawBlock (String.ofList (head ++ (comment ++ '\n' :: tail))) }
        (head ++ (comment ++ '\n' :: tail)) ∧
      r'.statements = r.statements ∧ r₁'.state = r₁.state ∧
        r₁'.stream.cursor = r₁.stream.cursor.down 1 ∧
      ((∃ w, Run.parse source state = .ok () w) ↔ ∃ w', Run.parse source' state = .ok () w') ∧
      ∀ w w', Run.parse source state = .ok () w → Run.parse source' state = .ok () w' →
        ∃ later ops,
          w.statements =
            r.statements ++ (before ++ [⟨l, use.form (String.ofList (head ++ tail))⟩]) ++ later ∧
          w'.statements = r.statements ++
            (before ++ [⟨l, use.form (String.ofList (head ++ (comment ++ '\n' :: tail)))⟩]) ++
            later.map (Statement.down 1) ∧
          w.state = r₁.state.run ops ∧ w'.state = r₁.state.run (ops.map (Operation.down 1))) := by
  have hnewline := newline_not_mem_of_isCommentLine hcomment
  refine ⟨?_, ?_, ?_⟩
  · intro hsemicolon
    rw [lineKind_of_semicolon hsemicolon]
    simp
  · intro hkind
    rcases h.inserted hfile htext htext' hopening hhead hnewline
      (plain_of_isCommentLine hcomment hkind) hline with
      ⟨r', r₁', hread, hstatements, hlower⟩
    have hlength : source.text.length ≤ source'.text.length := by
      rw [htext, htext']
      simp only [List.length_append, List.length_cons]
      omega
    exact ⟨r', r₁', hread, hstatements, hlower.state, hlower.cursor,
      parse_lower h.reached hread.reached h.line hread.line hstatements hlower hlength⟩
  · -- both bodies end at the closing word, and the longer one only if its new line is plain
    rintro ⟨r', r₁', hread, _⟩
    rcases h.opened with ⟨v, name, c, e, c', hopened⟩
    rcases hread.opened with ⟨v', name', d, e', d', hopened'⟩
    rw [plain_of_next hopened.next hopened'.next hopened.lexeme hhead hopened'.lexeme
      hnewline]
    simp

end

end Run

/-- A repetition within a repetition, behind a label. -/
def Source.nested : Source :=
  .ofText "up: rept 2\nrept 3\nnop\nendr\nendr\ndown:" "f.asm"

/-- The same with a comment line. -/
def Source.nestedCommented : Source :=
  .ofText "up: rept 2\nrept 3\n  * rep t\nnop\nendr\nendr\ndown:" "f.asm"

namespace Run

/-- A star is put into a repetition within a repetition, behind a label. -/
theorem comment_in_block_nested : ∃ r₁ r' r₁',
    ReadsBlock .nested (.fresh false) (.start .nested (.fresh false) (.empty 100 false)) r₁
      [⟨⟨"f.asm", 1, 1⟩, .label "up" false (.number 0) none⟩] ⟨"f.asm", 1, 5⟩
        (.repetition (.literal 2))
      ⟨.rawBlock "rept 3\nnop\nendr\n", 2, 1, .raw⟩ "rept 3\nnop\nendr\n".toList ∧
    ReadsBlock .nestedCommented (.fresh false) r' r₁'
      [⟨⟨"f.asm", 1, 1⟩, .label "up" false (.number 0) none⟩] ⟨"f.asm", 1, 5⟩
        (.repetition (.literal 2))
      ⟨.rawBlock "rept 3\n  * rep t\nnop\nendr\n", 2, 1, .raw⟩
        "rept 3\n  * rep t\nnop\nendr\n".toList ∧
    r₁'.stream.cursor = r₁.stream.cursor.down 1 := by
  have hprobe :
    endsWith
      (fun line u => line == some [⟨⟨"f.asm", 1, 1⟩, .label "up" false (.number 0) none⟩,
      ⟨⟨"f.asm", 1, 5⟩, .repetition (.literal 2) "rept 3\nnop\nendr\n"⟩] &&
      u.stream.blocks.head? == some ⟨.rawBlock "rept 3\nnop\nendr\n", 2, 1, .raw⟩)
      (nextLine (.start .nested (.fresh false) (.empty 100 false))) = true := by
    decide +kernel
  simp only [endsWith_iff, Bool.and_eq_true, beq_iff_eq] at hprobe
  rcases hprobe with ⟨_, r₁, hline, rfl, htoken⟩
  have hbody : "rept 3\nnop\nendr\n".toList = "rept 3\n".toList ++ "nop\nendr\n".toList := by decide
  have hread : ReadsBlock .nested (.fresh false) (.start .nested (.fresh false) (.empty 100 false))
    r₁
      [⟨⟨"f.asm", 1, 1⟩, .label "up" false (.number 0) none⟩] ⟨"f.asm", 1, 5⟩
      (.repetition (.literal 2))
      ⟨.rawBlock "rept 3\nnop\nendr\n", 2, 1, .raw⟩ "rept 3\nnop\nendr\n".toList := by
    refine ⟨.start, ?_, htoken⟩
    rw [String.ofList_toList]
    exact hline
  have htext : Source.nested.text =
      "up: rept 2\n".toList ++
        ("rept 3\n".toList ++ ("nop\nendr\n".toList ++ "endr\ndown:".toList)) := by
    decide +kernel
  have htext' : Source.nestedCommented.text =
      "up: rept 2\n".toList ++ ("rept 3\n".toList ++
        ("  * rep t".toList ++ '\n' :: ("nop\nendr\n".toList ++ "endr\ndown:".toList))) := by
    decide +kernel
  have hfile : Source.nestedCommented.file = Source.nested.file := rfl
  have hopening : "up: rept 2\n".toList.getLast? = some '\n' := by decide
  have hhead : isWhole "rept 3\n".toList = true := by decide
  have hcomment : isCommentLine "  * rep t".toList = true := by decide
  have hplace : 2 = 1 + "up: rept 2\n".toList.count '\n' := by decide
  have hkind : (BlockUse.repetition (.literal 2)).words.lineKind "  * rep t".toList ≠ .opener := by
    decide +kernel
  rw [hbody] at hread
  have hboth := comment_in_block hfile htext htext' hopening hhead hcomment hread hplace
  rcases hboth.2.mp hkind with ⟨r', r₁', hread', _, _, hcursor, _⟩
  rw [← hbody] at hread
  have hinserted : "rept 3\n".toList ++ ("  * rep t".toList ++ '\n' :: "nop\nendr\n".toList) =
      "rept 3\n  * rep t\nnop\nendr\n".toList := by
    decide
  rw [hinserted, String.ofList_toList] at hread'
  exact ⟨r₁, r', r₁', hread, hread', hcursor⟩

/-- A star before the word that opens a block opens one, though the line is a comment anywhere else.
-/
theorem comment_opens_block : isCommentLine "* rept".toList = true ∧
    (∃ r, Run.parse (.ofText "rept 2\nnop\nendr\n" "<input>") (.fresh false) = .ok () r ∧
      r.statements = [⟨⟨"<input>", 1, 1⟩, .repetition (.literal 2) "nop\n"⟩]) ∧
    ∃ e r, Run.parse (.ofText "rept 2\n* rept\nnop\nendr\n" "<input>") (.fresh false) =
      .error (.error e) r ∧ e.cause = .lexical (.unterminatedBlock "endr") := by
  have hread :
    endsWith
      (fun _ r => r.statements == [⟨⟨"<input>", 1, 1⟩, .repetition (.literal 2) "nop\n"⟩])
      (Run.parse (.ofText "rept 2\nnop\nendr\n" "<input>") (.fresh false)) = true := by
    decide +kernel
  have hfails : failsWith (fun e => e.cause == .lexical (.unterminatedBlock "endr"))
      (Run.parse (.ofText "rept 2\n* rept\nnop\nendr\n" "<input>") (.fresh false)) = true := by
    decide +kernel
  rcases endsWith_iff.mp hread with ⟨_, r, hr, hstatements⟩
  rcases exists_of_failsWith hfails with ⟨e, r', hr', hcause⟩
  exact ⟨by decide, ⟨r, hr, beq_iff_eq.mp hstatements⟩, e, r', hr', beq_iff_eq.mp hcause⟩

end Run

end Sm83
