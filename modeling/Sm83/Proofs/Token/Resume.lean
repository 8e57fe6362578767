import Sm83.Proofs.Token.Inserted

/-!
# Where reading goes on behind a block

A block is closed by the first word of a line, whatever white space stands before it, but the place
where reading goes on is counted from the blanks at the start of that line. So reading goes on
behind the closing word exactly if the line is indented with blanks.
-/

namespace Sm83

namespace Text

theorem words_dropWhile_isSpace (cs : List Char) : words (cs.dropWhile isSpace) = words cs := by
  induction cs with
  | nil => rfl
  | cons c cs ih =>
    cases hc : isSpace c with
    | true => rw [List.dropWhile_cons_of_pos hc, ih, words_cons_space hc]
    | false => rw [List.dropWhile_cons_of_neg (by simp [hc])]

theorem exists_of_words_cons {cs w : List Char} {ws : List (List Char)} (h : words cs = w :: ws) :
    ∃ lead behind, cs = lead ++ (w ++ behind) ∧ (∀ ch ∈ lead, isSpace ch = true) ∧ w ≠ [] ∧
      (∀ ch ∈ w, isSpace ch = false) ∧ headIs (fun ch => !isSpace ch) behind = false := by
  have hlead : cs.takeWhile isSpace ++ cs.dropWhile isSpace = cs := List.takeWhile_append_dropWhile
  have hhead := List.head?_dropWhile_not isSpace cs
  rw [← words_dropWhile_isSpace] at h
  cases hcs : cs.dropWhile isSpace with
  | nil =>
    rw [hcs] at h
    cases h
  | cons c rest =>
    rw [hcs] at h hlead hhead
    have hc : isSpace c = false := by simpa using hhead
    have hsplit : c :: (rest.takeWhile (!isSpace ·) ++ rest.dropWhile (!isSpace ·)) =
        c :: rest := by
      rw [List.takeWhile_append_dropWhile]
    have hword : ∀ ch ∈ c :: rest.takeWhile (!isSpace ·), isSpace ch = false := by
      intro ch hch
      rcases List.mem_cons.mp hch with rfl | hch
      · exact hc
      · simpa using List.mem_takeWhile_imp hch
    have hbehind : headIs (fun ch => !isSpace ch) (rest.dropWhile (!isSpace ·)) = false := by
      have hstop := List.head?_dropWhile_not (!isSpace ·) rest
      unfold headIs
      cases hb : (rest.dropWhile (!isSpace ·)).head? with
      | none => rfl
      | some ch => simpa [hb] using hstop
    rw [← hsplit, ← List.cons_append, words_append (by simp) hword hbehind] at h
    injection h with hw _
    refine ⟨cs.takeWhile isSpace, rest.dropWhile (!isSpace ·), ?_,
      fun ch hch => List.mem_takeWhile_imp hch, ?_⟩
    · rw [← hw, List.cons_append, hsplit, hlead]
    · exact ⟨hw ▸ List.cons_ne_nil _ _, hw ▸ hword, hbehind⟩

end Text

namespace BlockWords

variable {words : BlockWords} {line lead word behind : List Char} {lines : List (List Char)}

/-- The parts of a text that starts with a closing line: white space, the closing word in any letter
case, and what stands behind this word. -/
structure Closer (words : BlockWords) (lead word behind : List Char) : Prop where
  space : ∀ ch ∈ lead, Text.isSpace ch = true ∧ ch ≠ '\n'
  nonempty : word ≠ []
  isWord : ∀ ch ∈ word, Text.isSpace ch = false ∧ ch ≠ ';'
  ends : headIs (fun ch => !Text.isSpace ch && ch != ';') behind = false
  closing : lowerWord word = words.closing

/-- The parts of a closing line. -/
theorem exists_closer (h : words.lineKind line = .closer) (hline : '\n' ∉ line) :
    ∃ lead word behind, line = lead ++ (word ++ behind) ∧ words.Closer lead word behind := by
  have hcloses : closesBlock words.closing line = true := by
    rw [closesBlock_eq]
    unfold lineKind at h
    split at h
    · assumption
    · split at h <;> cases h
  unfold closesBlock at hcloses
  split at hcloses
  · next word _ hwords =>
    rcases Text.exists_of_words_cons hwords with ⟨lead, behind, hcode, hlead, hne, hword, hbehind⟩
    -- the comment stands behind the code, which the word is in
    have hsplit : codeOf line ++ line.dropWhile (· ≠ ';') = line := List.takeWhile_append_dropWhile
    have hmem : ∀ ch ∈ codeOf line, ch ≠ ';' :=
      fun ch hch => by simpa using List.mem_takeWhile_imp hch
    rw [hcode] at hsplit hmem
    refine ⟨lead, word,
      behind ++ line.dropWhile (· ≠ ';'), by simpa using hsplit.symm, ?_, hne, ?_, ?_,
      by simpa using hcloses⟩
    · intro ch hch
      refine ⟨hlead ch hch, ?_⟩
      rintro rfl
      exact hline (hsplit ▸ List.mem_append_left _ (List.mem_append_left _ hch))
    · intro ch hch
      exact ⟨hword ch hch, hmem ch (by simp [hch])⟩
    · cases behind with
      | nil =>
        have hstop := List.head?_dropWhile_not (· ≠ ';') line
        cases hcomment : line.dropWhile (· ≠ ';') with
        | nil => rfl
        | cons ch cs =>
          rw [hcomment] at hstop
          simp_all [headIs]
      | cons ch cs => simp_all [headIs]
  · cases hcloses

namespace Closer

theorem length_indent (h : words.Closer lead word behind) :
    ((lead ++ (word ++ behind)).takeWhile isBlank).length = (lead.takeWhile isBlank).length := by
  rcases List.exists_cons_of_ne_nil h.nonempty with ⟨ch, cs, rfl⟩
  have hch : isBlank ch = false := by
    cases hblank : isBlank ch with
    | false => rfl
    | true => cases (isSpace_of_isBlank hblank).symm.trans (h.isWord ch List.mem_cons_self).1
  rw [List.takeWhile_append]
  split
  · next hall =>
    rw [List.cons_append, List.takeWhile_cons_of_neg (by simp [hch]), List.append_nil, hall]
  · rfl

/-- From the start of the line, counting its blanks and the length of the closing word gets behind
this word exactly if all that stands before it are blanks. -/
theorem skip_eq_iff (h : words.Closer lead word behind) (hplain : dotAbove ∉ words.closing.toList)
    {c : Cursor} (hc : c.rest = lead ++ (word ++ behind)) :
    c.skip (((lead ++ (word ++ behind)).takeWhile isBlank).length + words.closing.length) =
        ⟨behind, c.line, c.column + (lead.length + word.length), false⟩ ↔
      ∀ ch ∈ lead, isBlank ch = true := by
  rw [h.length_indent, ← length_lowerWord h.closing hplain]
  constructor
  · intro heq
    -- the rests have the same length, so nothing has been left out
    have hrest := congrArg (·.rest.length) heq
    simp only [Cursor.rest_skip, hc, List.length_drop, List.length_append] at hrest
    have hle := (List.takeWhile_prefix isBlank (l := lead)).length_le
    have hpos := List.length_pos_iff.mpr h.nonempty
    have hall := (List.takeWhile_prefix isBlank (l := lead)).eq_of_length (by omega)
    exact List.takeWhile_eq_self_iff.mp hall
  · intro hblank
    have hline : '\n' ∉ lead ++ word := by
      intro hmem
      rcases List.mem_append.mp hmem with hmem | hmem
      · exact (h.space _ hmem).2 rfl
      · exact absurd (h.isWord _ hmem).1 (by decide)
    have hword : (lead ++ word).all isBlank = false := by
      rcases List.exists_cons_of_ne_nil h.nonempty with ⟨ch, cs, rfl⟩
      cases hb : isBlank ch with
      | false => simp [hb]
      | true => cases (isSpace_of_isBlank hb).symm.trans (h.isWord ch List.mem_cons_self).1
    rw [List.takeWhile_eq_self_iff.mpr hblank, ← List.length_append,
      Cursor.skip_within (hc.trans (List.append_assoc ..).symm) hline, hword, Bool.and_false]

theorem append (h : words.Closer lead word behind) {rest : List Char}
    (hrest : headIs (· != '\n') rest = false) : words.Closer lead word (behind ++ rest) := by
  refine ⟨h.space, h.nonempty, h.isWord, ?_, h.closing⟩
  cases behind with
  | cons ch cs => exact h.ends
  | nil =>
    cases rest with
    | nil => rfl
    | cons ch cs =>
      have hch : ch = '\n' := by simpa [headIs] using hrest
      subst hch
      rfl

end Closer

theorem exists_of_splitLines {cs : List Char} (h : splitLines cs = line :: lines) :
    ∃ rest, cs = line ++ rest ∧ headIs (· != '\n') rest = false := by
  cases linesOf_of_eq h with
  | last => exact ⟨[], (List.append_nil _).symm, rfl⟩
  | more => exact ⟨_, rfl, rfl⟩

theorem exists_skip_lines {c : Cursor} {rest : List Char} (hc : c.rest = textOf lines ++ rest)
    (hcolumn : c.column = 1) (hlines : ∀ line ∈ lines, '\n' ∉ line) :
    ∃ fresh, c.skip (textOf lines).length = ⟨rest, c.line + lines.length, 1, fresh⟩ := by
  cases lines with
  | nil =>
    refine ⟨c.fresh, ?_⟩
    rw [← hcolumn, show rest = c.rest from hc.symm]
    rfl
  | cons line lines =>
    rw [textOf_cons, List.append_assoc, List.cons_append] at hc
    have hfirst := Cursor.skip_line hc (hlines line List.mem_cons_self)
    refine ⟨true, ?_⟩
    rw [textOf_cons, List.length_append, List.length_cons, ← Nat.add_assoc, Nat.add_right_comm,
      ← Cursor.skip_skip, hfirst, Cursor.skip_lines fun other hother =>
        hlines other (List.mem_cons_of_mem line hother),
      List.length_cons, Nat.add_assoc, Nat.add_comm 1]

/-- Where a block is read, it ends before a line that starts with white space and the closing word.
Reading goes on right behind this word exactly if the white space is made of blanks. -/
theorem block_resumes_behind_closer (words : BlockWords) (hplain : dotAbove ∉ words.closing.toList)
    (source : Source) (c c' : Cursor) (t : Token) (h : c.next source words.setting = .ok (t, c')) :
    ∃ body lead word behind, t.lexeme = .rawBlock (String.ofList (textOf body)) ∧
      c.BodyAt (textOf body ++ (lead ++ (word ++ behind))) t.line ∧ words.Closer lead word behind ∧
      (c' = ⟨behind, t.line + body.length, 1 + (lead.length + word.length), false⟩ ↔
        ∀ ch ∈ lead, isBlank ch = true) := by
  rcases next_eq_ok_iff.mp h with ⟨b, body, last, more, hb, hlines, _, hlast, rfl, rfl⟩
  have hlined : ∀ line ∈ body ++ last :: more, '\n' ∉ line :=
    fun line hline => newline_not_mem_of_mem_splitLines (hlines ▸ hline)
  rcases exists_closer hlast (hlined last (by simp)) with ⟨lead, word, behind, rfl, hcloser⟩
  rcases exists_of_splitLines_append hlines (by simp) with ⟨text, htext, hsplit⟩
  rcases exists_of_splitLines hsplit with ⟨rest, rfl, hrest⟩
  have hcloser' := hcloser.append hrest
  have hbody : c.BodyAt b.rest b.line ∧ b.column = 1 := by
    rcases Cursor.bodyAt_of_bodyStart hb with hat | hnil
    · rcases hat.bodyStart source with ⟨b', hb', _, _, hcolumn, _⟩
      cases hb.symm.trans hb'
      exact ⟨hat, hcolumn⟩
    · rw [htext] at hnil
      simp [hcloser.nonempty] at hnil
  rcases exists_skip_lines htext hbody.2 fun line hline => hlined line (by simp [hline]) with
    ⟨fresh, hskip⟩
  refine ⟨body, lead, word, behind ++ rest, rfl, ?_, hcloser', ?_⟩
  · simpa [htext] using hbody.1
  · rw [← Cursor.skip_skip, hskip, hcloser.length_indent, ← hcloser'.length_indent]
    exact hcloser'.skip_eq_iff hplain (by simp)

/-- A block whose closing line is indented with a tab and blanks, and has a comment and a line
behind it. -/
theorem block_resumes_behind_closer_indented : ∃ t c',
    (⟨" ; twice\nnop\n \t EndR;x\nret".toList, 1, 7, false⟩ : Cursor).next (.ofText "" "<input>")
      repetitions.setting = .ok (t, c') ∧ c' = ⟨";x\nret".toList, 3, 8, false⟩ ∧
    ∃ body lead word behind, t.lexeme = .rawBlock (String.ofList (textOf body)) ∧
      (⟨" ; twice\nnop\n \t EndR;x\nret".toList, 1, 7, false⟩ : Cursor).BodyAt
        (textOf body ++ (lead ++ (word ++ behind))) t.line ∧ repetitions.Closer lead word behind ∧
      (c' = ⟨behind, t.line + body.length, 1 + (lead.length + word.length), false⟩ ↔
        ∀ ch ∈ lead, isBlank ch = true) :=
  ⟨⟨.rawBlock "nop\n", 2, 1, .raw⟩, ⟨";x\nret".toList, 3, 8, false⟩, by decide +kernel, rfl,
    block_resumes_behind_closer repetitions (by decide) (.ofText "" "<input>") _ _ _
      (by decide +kernel)⟩

/-- Behind a line that is indented with a space that is no blank, reading goes on at the last
character of the closing word, and not at the end of the line. -/
theorem block_resumes_inside_closer :
    (⟨"nop\n\u00a0endr\n".toList, 2, 1, true⟩ : Cursor).next (.ofText "" "<input>")
      repetitions.setting = .ok (⟨.rawBlock "nop\n", 2, 1, .raw⟩, ⟨"r\n".toList, 3, 5, false⟩) ∧
    repetitions.Closer ['\u00a0'] "endr".toList ['\n'] ∧ ¬ ∀ ch ∈ ['\u00a0'],
      isBlank ch = true := by
  refine ⟨by decide +kernel,
    ⟨List.forall_mem_singleton.mpr (by decide +kernel), by decide, ?_, by decide, by decide⟩,
    by simp [isBlank]⟩
  simp [Text.isSpace, Text.inRanges, Text.spaceRanges]

end BlockWords

end Sm83
