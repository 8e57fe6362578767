import Sm83.Proofs.Token.Block
import Sm83.Proofs.Token.Joined

/-!
# A line more in a block

A line is put into the body of a raw block. If it neither opens nor closes a block, the block that
is read has this line more and nothing else changes: reading goes on at the same place of the
closing line, one line further down. A line that opens a block makes it another body.
-/

namespace Sm83

namespace BlockWords

variable {words : BlockWords} {line : List Char} {lines xs ys more : List (List Char)}
  {u : List Char}

theorem Nested.balanced {body : List (List Char)} (h : words.Nested body) :
    body.countP (fun line => words.lineKind line == .opener) =
      body.countP (fun line => words.lineKind line == .closer) := by
  induction h with
  | nil => rfl
  | plain kind _ ih => simpa [List.countP_cons, kind] using ih
  | group opens _ closes _ ihinner ihrest =>
    simp [List.countP_append, opens, closes, ihinner, ihrest]
    omega

/-- A plain line put in keeps the nesting. -/
theorem Nested.insert (hline : words.lineKind line = .plain) (h : words.Nested (xs ++ ys)) :
    words.Nested (xs ++ line :: ys) := by
  generalize hbody : xs ++ ys = body at h
  induction h generalizing xs ys with
  | nil =>
    rcases List.append_eq_nil_iff.mp hbody with ⟨rfl, rfl⟩
    exact .plain hline .nil
  | @plain first rest kind hrest ih =>
    cases xs with
    | nil =>
      rw [List.nil_append] at hbody
      subst hbody
      exact .plain hline (.plain kind hrest)
    | cons x xs =>
      cases hbody
      exact .plain kind (ih rfl)
  | @group first last inner rest opens hinner closes hrest ihinner ihrest =>
    cases xs with
    | nil =>
      rw [List.nil_append] at hbody
      subst hbody
      exact .plain hline (.group opens hinner closes hrest)
    | cons x xs =>
      rw [List.cons_append, List.cons_append] at hbody
      injection hbody with hfirst hbody
      subst hfirst
      -- the line stands inside the first group, or behind it
      rcases List.append_eq_append_iff.mp hbody with ⟨behind, rfl, hys⟩ | ⟨behind, rfl, hys⟩
      · have hgroup := Nested.group opens (@ihinner xs behind rfl) closes hrest
        rw [hys]
        simpa using hgroup
      · cases behind with
        | nil =>
          rw [List.nil_append] at hys
          subst hys
          have hgroup := Nested.group opens (@ihinner inner [] (by simp)) closes hrest
          simpa using hgroup
        | cons y behind =>
          cases hys
          have hgroup := Nested.group opens hinner closes (@ihrest behind ys rfl)
          simpa using hgroup

theorem Nested.insert_iff (h : words.Nested (xs ++ ys)) :
    words.Nested (xs ++ line :: ys) ↔ words.lineKind line = .plain := by
  refine ⟨?_, fun hline => h.insert hline⟩
  intro hinserted
  have hbefore := h.balanced
  have hafter := hinserted.balanced
  simp only [List.countP_append, List.countP_cons] at hbefore hafter
  cases hkind : words.lineKind line with
  | plain => rfl
  | opener =>
    simp only [hkind] at hafter
    simp at hafter
    omega
  | closer =>
    simp only [hkind] at hafter
    simp at hafter
    omega

/-- Characters that end where a line ends. -/
def isWhole (cs : List Char) : Bool :=
  cs.getLast?.all (· == '\n')

variable {cs : List Char}

theorem isWhole_cons {c d : Char} : isWhole (c :: d :: cs) = isWhole (d :: cs) := by
  rw [isWhole, isWhole, List.getLast?_cons_cons]

theorem isWhole_of_append (cs : List Char) {cs' : List Char} (h : isWhole (cs ++ cs') = true) :
    isWhole cs' = true := by
  cases cs' with
  | nil => rfl
  | cons c cs' =>
    rw [isWhole, List.getLast?_append_of_ne_nil _ (List.cons_ne_nil c cs')] at h
    exact h

theorem isWhole_textOf (lines : List (List Char)) : isWhole (textOf lines) = true := by
  induction lines using List.reverseRecOn with
  | nil => rfl
  | append_singleton lines line _ =>
    rw [textOf_append, textOf_cons, isWhole, ← List.append_assoc]
    simp [textOf]

theorem splitLines_textOf (hlines : ∀ line ∈ lines, '\n' ∉ line) (u : List Char) :
    splitLines (textOf lines ++ u) = lines ++ splitLines u := by
  induction lines with
  | nil => rfl
  | cons line lines ih =>
    rw [textOf_cons, List.append_assoc, List.cons_append, splitLines_append_line,
      splitLines_of_not_mem (hlines line List.mem_cons_self),
      ih fun other hother => hlines other (List.mem_cons_of_mem line hother)]
    rfl

theorem eq_of_textOf (hxs : ∀ line ∈ xs, '\n' ∉ line) (hys : ∀ line ∈ ys, '\n' ∉ line)
    (h : textOf xs = textOf ys) : xs = ys := by
  have hsplit := splitLines_textOf hxs []
  rw [h, splitLines_textOf hys []] at hsplit
  exact (List.append_cancel_right hsplit).symm

theorem exists_textOf (h : isWhole cs = true) : ∃ lines, cs = textOf lines ∧ ∀ line ∈ lines,
    '\n' ∉ line := by
  induction cs with
  | nil => exact ⟨[], rfl, by simp⟩
  | cons c cs ih =>
    by_cases hc : c = '\n'
    · subst hc
      have hwhole : isWhole cs = true := isWhole_of_append ['\n'] h
      rcases ih hwhole with ⟨lines, rfl, hlines⟩
      exact ⟨[] :: lines, by rw [textOf_cons]; rfl, by simpa using hlines⟩
    · cases cs with
      | nil => simp [isWhole, hc] at h
      | cons d cs =>
        rcases ih (isWhole_cons ▸ h) with ⟨lines, htext, hlines⟩
        cases lines with
        | nil => cases htext
        | cons line lines =>
          refine ⟨(c :: line) :: lines, ?_, ?_⟩
          · rw [htext, textOf_cons, textOf_cons, List.cons_append]
          · intro other hother
            rcases List.mem_cons.mp hother with rfl | hother
            · simp [Ne.symm hc, hlines line List.mem_cons_self]
            · exact hlines other (List.mem_cons_of_mem line hother)

theorem newline_not_mem_of_mem_splitLines (h : line ∈ splitLines cs) : '\n' ∉ line := by
  have hlines := linesOf_splitLines cs
  generalize splitLines cs = lines at hlines h
  induction hlines with
  | last hline => exact List.mem_singleton.mp h ▸ hline
  | more hline _ ih =>
    rcases List.mem_cons.mp h with rfl | h
    · exact hline
    · exact ih h

end BlockWords

namespace Cursor

open BlockWords

variable {c c' b : Cursor} {source : Source} {u u' p head : List Char} {lines : List (List Char)}
  {k : Nat}

theorem skip_lines (hlines : ∀ line ∈ lines, '\n' ∉ line) (rest : List Char) (k : Nat) :
    (⟨textOf lines ++ rest, k, 1, true⟩ : Cursor).skip (textOf lines).length =
      ⟨rest, k + lines.length, 1, true⟩ := by
  induction lines generalizing k with
  | nil => rfl
  | cons line lines ih =>
    have htext : textOf (line :: lines) ++ rest = line ++ '\n' :: (textOf lines ++ rest) := by
      rw [textOf_cons, List.append_assoc, List.cons_append]
    have hone := skip_line (c := ⟨textOf (line :: lines) ++ rest, k, 1, true⟩) htext
      (hlines line List.mem_cons_self)
    have hlength : (textOf (line :: lines)).length = line.length + 1 + (textOf lines).length := by
      rw [textOf_cons, List.length_append, List.length_cons]
      omega
    rw [hlength, ← skip_skip, hone,
      ih fun other hother => hlines other (List.mem_cons_of_mem line hother),
      List.length_cons, Nat.add_right_comm, Nat.add_assoc]

theorem BodyAt.inserted (h : c.BodyAt (head ++ u) k) (hahead : Ahead u u' p c c') :
    c'.BodyAt (head ++ u') k := by
  have hrest := hahead.rest
  have hrest' := hahead.rest'
  have hline : c'.line = c.line := by rw [hahead.twin]
  generalize htext : head ++ u = text at h
  cases h with
  | here column =>
    have hp : p = head := List.append_cancel_right (hrest.symm.trans htext.symm)
    have hhere : c'.BodyAt c'.rest c'.line := .here (hahead.column.trans column)
    rw [hrest', hp, hline] at hhere
    exact hhere
  | @below blanks comment _ column rest blank skipped =>
    subst htext
    have hsame : p ++ u = (blanks ++ (comment ++ '\n' :: head)) ++ u := by
      rw [← hrest, rest]
      simp
    have hp := List.append_cancel_right hsame
    rw [← hline]
    refine .below (hahead.column ▸ column) ?_ blank (hahead.fresh ▸ skipped)
    rw [hrest', hp]
    simp

theorem BodyAt.bodyStart_eq (h : c.BodyAt head k) (hfresh : c.column = 1 → c.fresh = true)
    (source : Source) : c.bodyStart source = .ok ⟨head, k, 1, true⟩ := by
  rcases h.bodyStart source with ⟨b, hb, rfl, rfl, hcolumn, hline⟩
  have hfresh' : b.fresh = true := by
    rcases hline with hline | rfl
    · exact hline
    · exact hfresh hcolumn
  rw [hb, ← hcolumn, ← hfresh']

theorem BodyAt.within (h : c.BodyAt (head ++ u) k) (hfresh : c.column = 1 → c.fresh = true) :
    c.Within u := by
  generalize htext : head ++ u = text at h
  cases h with
  | here column =>
    have hlength : head.length + u.length = c.rest.length := by rw [← htext, List.length_append]
    by_cases hhead : head.length = 0
    · exact .inr (.inr ⟨by omega, hfresh column⟩)
    · exact .inr (.inl (by omega))
  | @below blanks comment _ column rest blank skipped =>
    subst htext
    refine .inr (.inl ?_)
    rw [rest]
    simp only [List.length_append, List.length_cons]
    omega

end Cursor

namespace BlockWords

variable {words : BlockWords} {source source' : Source} {c c' c₁ c₁' : Cursor} {t t' : Token}
  {comment head tail u p : List Char} {lines : List (List Char)} {k : Nat}

theorem newline_not_mem_insert {xs ys : List (List Char)} (hcomment : '\n' ∉ comment)
    (hlines : ∀ line ∈ xs ++ ys, '\n' ∉ line) : ∀ line ∈ xs ++ comment :: ys, '\n' ∉ line := by
  intro line hline
  rcases List.mem_append.mp hline with hline | hline
  · exact hlines line (List.mem_append_left _ hline)
  · rcases List.mem_cons.mp hline with rfl | hline
    · exact hcomment
    · exact hlines line (List.mem_append_right _ hline)

/-- The lines of a block that has been read. -/
theorem exists_lines_of_next (h : c.next source words.setting = .ok (t, c₁))
    (ht : t.lexeme = .rawBlock (String.ofList (head ++ tail))) (hhead : isWhole head = true) :
    ∃ b xs ys last more rest, head = textOf xs ∧ tail = textOf ys ∧
      (∀ line ∈ xs ++ ys, '\n' ∉ line) ∧
      words.Nested (xs ++ ys) ∧ c.bodyStart source = .ok b ∧ b.rest = textOf (xs ++ ys) ++ rest ∧
      splitLines rest = last :: more ∧ words.lineKind last = .closer ∧
      t = ⟨.rawBlock (String.ofList (head ++ tail)), b.line, 1, .raw⟩ ∧
      c₁ = b.skip
        ((textOf (xs ++ ys)).length +
          ((last.takeWhile isBlank).length + words.closing.length)) := by
  rcases next_eq_ok_iff.mp h with ⟨b, body, last, more, hb, hsplit, hnested, hlast, rfl, rfl⟩
  have htext : textOf body = head ++ tail := by
    injection ht with ht
    exact String.ofList_injective ht
  have hwhole : isWhole tail = true := by
    apply isWhole_of_append head
    rw [← htext]
    exact isWhole_textOf body
  rcases exists_textOf hhead with ⟨xs, rfl, hxs⟩
  rcases exists_textOf hwhole with ⟨ys, rfl, hys⟩
  have hlines : ∀ line ∈ xs ++ ys, '\n' ∉ line := by
    intro line hline
    rcases List.mem_append.mp hline with hline | hline
    · exact hxs line hline
    · exact hys line hline
  have hbody : ∀ line ∈ body, '\n' ∉ line := by
    intro line hline
    have hmem : line ∈ splitLines b.rest := by
      rw [hsplit]
      exact List.mem_append_left _ hline
    exact newline_not_mem_of_mem_splitLines hmem
  rw [← textOf_append] at htext
  have hsame := eq_of_textOf hbody hlines htext
  subst hsame
  rcases exists_of_splitLines_append hsplit (by simp) with ⟨rest, hrest, hmore⟩
  exact ⟨b, xs, ys, last, more, rest, rfl, rfl, hlines, hnested, hb, hrest, hmore, hlast,
    by rw [textOf_append], rfl⟩

/-- A block is read with a plain line put into its body: the line is in the block, and reading goes
on at the same place of the closing line, further down. -/
theorem next_inserted (hfresh : c.column = 1 → c.fresh = true) (hbody : c.BodyAt (head ++ u) k)
    (h : c.next source words.setting = .ok (t, c₁))
    (ht : t.lexeme = .rawBlock (String.ofList (head ++ tail))) (hhead : isWhole head = true)
    (hcomment : '\n' ∉ comment) (hplain : words.lineKind comment = .plain)
    (hahead : Cursor.Ahead u (comment ++ '\n' :: u) p c c') (source' : Source) :
    c'.next source' words.setting =
      .ok ({ t with lexeme := .rawBlock (String.ofList (head ++ (comment ++ '\n' :: tail))) },
        c₁.down 1) := by
  rcases exists_lines_of_next h ht hhead with
    ⟨b, xs, ys, last, more, rest, rfl, rfl, hlines, hnested, hb, hrest, hmore, hlast, rfl, rfl⟩
  rw [hbody.bodyStart_eq hfresh] at hb
  cases hb
  have hu : u = textOf ys ++ rest := by
    rw [textOf_append, List.append_assoc] at hrest
    exact List.append_cancel_left hrest
  subst hu
  have hlines' := newline_not_mem_insert hcomment hlines
  have htext : textOf (xs ++ comment :: ys) = textOf xs ++ (comment ++ '\n' :: textOf ys) := by
    rw [textOf_append, textOf_cons]
  have hrest' : textOf xs ++ (comment ++ '\n' :: (textOf ys ++ rest)) =
      textOf (xs ++ comment :: ys) ++ rest := by
    rw [htext]
    simp
  have hcolumn : c'.column = 1 → c'.fresh = true := by
    rw [hahead.column, hahead.fresh]
    exact hfresh
  refine next_eq_ok_iff.mpr ⟨_, xs ++ comment :: ys, last, more,
    (hbody.inserted hahead).bodyStart_eq hcolumn source', ?_, hnested.insert hplain, hlast, ?_, ?_⟩
  · rw [hrest', splitLines_textOf hlines', hmore]
  · rw [htext]
  · -- both cursors are at the start of the closing line before they pass the closing word
    change textOf xs ++ (textOf ys ++ rest) = _ at hrest
    generalize (last.takeWhile isBlank).length + words.closing.length = n
    rw [hrest, ← Cursor.skip_skip, Cursor.skip_lines hlines, hrest', ← Cursor.skip_skip,
      Cursor.skip_lines hlines', ← Cursor.skip_down]
    simp only [Cursor.down, List.length_append, List.length_cons, Nat.add_assoc]

theorem plain_of_next (h : c.next source words.setting = .ok (t, c₁))
    (h' : c'.next source' words.setting = .ok (t', c₁'))
    (ht : t.lexeme = .rawBlock (String.ofList (head ++ tail))) (hhead : isWhole head = true)
    (ht' : t'.lexeme = .rawBlock (String.ofList (head ++ (comment ++ '\n' :: tail))))
    (hcomment : '\n' ∉ comment) : words.lineKind comment = .plain := by
  rcases exists_lines_of_next h ht hhead with ⟨_, xs, ys, _, _, _, rfl, rfl, hlines, hnested, _⟩
  rcases exists_lines_of_next h' ht' hhead with
    ⟨_, xs', ys', _, _, _, hxs, hys, hlines', hnested', _⟩
  have htext : textOf (xs ++ comment :: ys) = textOf (xs' ++ ys') := by
    rw [textOf_append, textOf_append, textOf_cons, hxs, hys]
  rw [← eq_of_textOf (newline_not_mem_insert hcomment hlines) hlines' htext] at hnested'
  exact hnested.insert_iff.mp hnested'

/-- A line that holds a comment and nothing else. -/
def isCommentLine (line : List Char) : Bool :=
  Cursor.isComment true (line.dropWhile isBlank)

variable {line blanks : List Char}

theorem exists_of_isCommentLine (h : isCommentLine line = true) :
    ∃ blanks mark rest, line = blanks ++ mark :: rest ∧ blanks.all isBlank = true ∧
      (mark = ';' ∨ mark = '*') ∧ '\n' ∉ rest := by
  have hblank : (line.takeWhile isBlank).all isBlank = true := List.all_takeWhile
  have hsplit := List.takeWhile_append_dropWhile (p := isBlank) (l := line)
  rw [isCommentLine, Cursor.isComment] at h
  generalize line.dropWhile isBlank = tail at h hsplit
  cases tail with
  | nil => cases h
  | cons mark rest =>
    have hmark : (mark = ';' ∨ mark = '*') ∧ '\n' ≠ mark ∧ '\n' ∉ rest := by
      simpa [headIs, not_or] using h
    exact ⟨_, mark, rest, hsplit.symm, hblank, hmark.1, hmark.2.2⟩

theorem newline_not_mem_of_isCommentLine (h : isCommentLine line = true) : '\n' ∉ line := by
  rcases exists_of_isCommentLine h with ⟨blanks, mark, rest, rfl, hblank, hmark, hrest⟩
  intro hmem
  rcases List.mem_append.mp hmem with hmem | hmem
  · exact absurd (List.all_eq_true.mp hblank _ hmem) (by decide)
  · rcases List.mem_cons.mp hmem with rfl | hmem
    · rcases hmark with hmark | hmark <;> cases hmark
    · exact hrest hmem

theorem words_blanks (h : blanks.all isBlank = true) (rest : List Char) :
    Text.words (blanks ++ rest) = Text.words rest := by
  induction blanks with
  | nil => rfl
  | cons ch blanks ih =>
    rw [List.all_cons, Bool.and_eq_true] at h
    rw [List.cons_append, Text.words_cons_space (isSpace_of_isBlank h.1), ih h.2]

theorem codeOf_blanks (h : blanks.all isBlank = true) (rest : List Char) :
    codeOf (blanks ++ rest) = blanks ++ codeOf rest := by
  refine List.takeWhile_append_of_pos fun ch hch => ?_
  rw [decide_eq_true_eq]
  rintro rfl
  cases List.all_eq_true.mp h ';' hch

theorem lineKind_semicolon {rest : List Char} (h : blanks.all isBlank = true) :
    words.lineKind (blanks ++ ';' :: rest) = .plain := by
  have hcode : codeOf (blanks ++ ';' :: rest) = blanks := by
    rw [codeOf_blanks h, codeOf, List.takeWhile_cons_of_neg (by simp), List.append_nil]
  have hwords : Text.words blanks = [] := by
    have happend := words_blanks h []
    rw [List.append_nil] at happend
    rw [happend]
    rfl
  have hlabel : afterLabel blanks = [] := by
    have hnone : blanks.dropWhile Text.isSpace = [] :=
      List.dropWhile_eq_nil_iff.mpr fun ch hch => isSpace_of_isBlank (List.all_eq_true.mp h ch hch)
    simp only [afterLabel, hnone]
    rfl
  rw [lineKind, hcode, hwords, hlabel]
  rfl

theorem lineKind_of_semicolon (h : headIs (· = ';') (line.dropWhile isBlank) = true) :
    words.lineKind line = .plain := by
  have hblank : (line.takeWhile isBlank).all isBlank = true := List.all_takeWhile
  rw [← List.takeWhile_append_dropWhile (p := isBlank) (l := line)]
  generalize line.dropWhile isBlank = tail at h
  cases tail with
  | nil => cases h
  | cons mark rest =>
    have hmark : mark = ';' := by simpa [headIs] using h
    rw [hmark]
    exact lineKind_semicolon hblank

theorem lineKind_comment (h : isCommentLine line = true)
    (hclosing : words.closing.toList.head? ≠ some '*') : words.lineKind line ≠ .closer := by
  rcases exists_of_isCommentLine h with ⟨blanks, mark, rest, rfl, hblank, rfl | rfl, _⟩
  · rw [lineKind_semicolon hblank]
    simp
  · -- the first word starts with the star
    have hcode : codeOf (blanks ++ '*' :: rest) = blanks ++ '*' :: codeOf rest := by
      rw [codeOf_blanks hblank, codeOf, List.takeWhile_cons_of_pos (by simp), codeOf]
    rcases Text.exists_words_cons (c := '*') (codeOf rest) (by decide) with ⟨w, ws, hwords⟩
    have hne : spells words.closing ('*' :: w) = false := by
      rw [spells, words.closing_lower, beq_eq_false_iff_ne]
      intro heq
      apply hclosing
      rw [← heq, lowerWord, Text.lower, String.toList_ofList, String.toList_ofList]
      rfl
    rw [lineKind, hcode, words_blanks hblank, hwords, List.head?_cons, Option.any_some, hne]
    simp only [Bool.false_eq_true, if_false]
    split <;> simp

end BlockWords

end Sm83
