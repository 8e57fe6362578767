import Mathlib.Data.List.TakeWhile
import Sm83.Directive
import Sm83.Proofs.Token.Lossless
import Sm83.Proofs.Token.Onward

/-!
# Raw blocks

A raw block is looked for line by line. A line closes a block, or else opens one, or does neither,
and the body of a block ends at the closing line that matches its opening one.
-/

namespace Sm83

/-! ## Words of a line -/

namespace Text

variable {c : Char} {rest w : List Char}

theorem words_cons (c : Char) (rest : List Char) :
    words (c :: rest) = if isSpace c then words rest else match rest, words rest with
      | d :: _, w :: ws => if isSpace d then [c] :: w :: ws else (c :: w) :: ws
      | _, ws => [c] :: ws := rfl

theorem words_cons_space (h : isSpace c = true) : words (c :: rest) = words rest := by
  rw [words_cons, if_pos h]

theorem words_append (hne : w ≠ []) (hw : ∀ c ∈ w, isSpace c = false)
    (hrest : headIs (fun c => !isSpace c) rest = false) : words (w ++ rest) = w :: words rest := by
  induction w with
  | nil => exact absurd rfl hne
  | cons c w ih =>
    have hc : ¬ isSpace c = true := by rw [hw c List.mem_cons_self]; simp
    cases w with
    | nil =>
      rw [List.singleton_append, words_cons, if_neg hc]
      cases rest with
      | nil => rfl
      | cons d rest =>
        have hd : isSpace d = true := by simpa [headIs] using hrest
        cases hwords : words (d :: rest) with
        | nil => rfl
        | cons v vs => simp only [hd, if_true]
    | cons d w =>
      have hd : isSpace d = false := hw d (by simp)
      have hrun := ih (by simp) fun a ha => hw a (List.mem_cons_of_mem c ha)
      rw [List.cons_append, words_cons, if_neg hc, hrun]
      simp only [List.cons_append, hd, Bool.false_eq_true, if_false]

theorem exists_words_cons (rest : List Char) (h : isSpace c = false) :
    ∃ w ws, words (c :: rest) = (c :: w) :: ws := by
  rw [words_cons, if_neg (by rw [h]; simp)]
  split
  · split
    · exact ⟨_, _, rfl⟩
    · exact ⟨_, _, rfl⟩
  · exact ⟨_, _, rfl⟩

end Text

/-- Characters with a blank behind each colon, so that a colon ends a word. -/
def cutColons (cs : List Char) : List Char :=
  cs.flatMap fun c => if c = ':' then [':', ' '] else [c]

/-- Code without a label in front: a name up to a colon, with the colons and the white space behind
it. -/
def afterLabel (code : List Char) : List Char :=
  let named := code.dropWhile Text.isSpace
  match named.dropWhile fun c => !Text.isSpace c && c != ':' with
  | ':' :: rest => rest.dropWhile fun c => Text.isSpace c || c == ':'
  | _ => named

section

variable {c : Char} {cs : List Char}

theorem cutColons_cons_colon (cs : List Char) :
    cutColons (':' :: cs) = ':' :: ' ' :: cutColons cs := rfl

theorem cutColons_cons (h : c ≠ ':') (cs : List Char) :
    cutColons (c :: cs) = c :: cutColons cs := by
  simp [cutColons, h]

theorem cutColons_append (cs rest : List Char) :
    cutColons (cs ++ rest) = cutColons cs ++ cutColons rest :=
  List.flatMap_append

theorem cutColons_eq_self (h : ':' ∉ cs) : cutColons cs = cs := by
  induction cs with
  | nil => rfl
  | cons c cs ih =>
    have hc : c ≠ ':' := fun heq => h (heq ▸ List.mem_cons_self)
    rw [cutColons_cons hc, ih fun hmem => h (List.mem_cons_of_mem c hmem)]

theorem ne_colon_of_isSpace (h : Text.isSpace c = true) : c ≠ ':' := by
  rintro rfl
  revert h
  decide

theorem words_dropWhile (cs : List Char) :
    Text.words (cutColons (cs.dropWhile Text.isSpace)) = Text.words (cutColons cs) := by
  induction cs with
  | nil => rfl
  | cons c cs ih =>
    cases hc : Text.isSpace c with
    | true =>
      rw [List.dropWhile_cons_of_pos hc, ih, cutColons_cons (ne_colon_of_isSpace hc),
        Text.words_cons_space hc]
    | false => rw [List.dropWhile_cons_of_neg (by simp [hc])]

theorem words_dropWhile_colons (cs : List Char) :
    (Text.words (cutColons cs)).dropWhile (· == [':']) =
      Text.words (cutColons (cs.dropWhile fun c => Text.isSpace c || c == ':')) := by
  induction cs with
  | nil => rfl
  | cons c cs ih =>
    cases hc : Text.isSpace c with
    | true =>
      rw [cutColons_cons (ne_colon_of_isSpace hc), Text.words_cons_space hc, ih,
        List.dropWhile_cons_of_pos (by simp [hc])]
    | false =>
      by_cases hcolon : c = ':'
      · subst hcolon
        have hblank : Text.isSpace ' ' = true := by decide
        have hword : Text.words (':' :: ' ' :: cutColons cs) =
            [':'] :: Text.words (cutColons cs) := by
          rw [← Text.words_cons_space (c := ' ') hblank]
          exact Text.words_append (w := [':']) (by simp) (by simp [hc]) (by simp [headIs, hblank])
        rw [cutColons_cons_colon, hword, List.dropWhile_cons_of_pos (by simp), ih,
          List.dropWhile_cons_of_pos (by simp)]
      · rw [List.dropWhile_cons_of_neg (by simp [hc, hcolon]), cutColons_cons hcolon]
        rcases Text.exists_words_cons (cutColons cs) hc with ⟨w, ws, hwords⟩
        rw [hwords, List.dropWhile_cons_of_neg (by simp [hcolon])]

/-- The words behind a label. -/
theorem dropLabel_words (code : List Char) :
    dropLabel (Text.words (cutColons code)) = Text.words (cutColons (afterLabel code)) := by
  rw [← words_dropWhile]
  simp only [afterLabel]
  generalize hnamed : code.dropWhile Text.isSpace = named
  have hstart : ∀ c rest, named = c :: rest → Text.isSpace c = false := by
    intro c rest heq
    have hhead := List.head?_dropWhile_not Text.isSpace code
    rw [hnamed, heq] at hhead
    exact hhead
  -- the name goes up to the first colon or white space
  generalize hname : (named.takeWhile fun c => !Text.isSpace c && c != ':') = name
  generalize htail : (named.dropWhile fun c => !Text.isSpace c && c != ':') = tail
  have hsplit : named = name ++ tail := by rw [← hname, ← htail, List.takeWhile_append_dropWhile]
  have hplain : ∀ c ∈ name, Text.isSpace c = false ∧ c ≠ ':' := by
    intro c hc
    have hboth := List.all_takeWhile (l := named) (p := fun c => !Text.isSpace c && c != ':')
    rw [hname] at hboth
    simpa using List.all_eq_true.mp hboth c hc
  have hcut : cutColons name = name := cutColons_eq_self fun hmem => (hplain ':' hmem).2 rfl
  have hstop := List.head?_dropWhile_not (fun c => !Text.isSpace c && c != ':') named
  rw [htail] at hstop
  subst hsplit
  rw [cutColons_append, hcut]
  by_cases hcolon : ∃ rest, tail = ':' :: rest
  · rcases hcolon with ⟨rest, rfl⟩
    have hblank : Text.isSpace ' ' = true := by decide
    have hwords : Text.words (name ++ cutColons (':' :: rest)) =
        (name ++ [':']) :: Text.words (cutColons rest) := by
      rw [cutColons_cons_colon, List.append_cons, ← Text.words_cons_space (c := ' ') hblank]
      refine Text.words_append (by simp) ?_ (by simp [headIs, hblank])
      intro c hc
      rcases List.mem_append.mp hc with hc | hc
      · exact (hplain c hc).1
      · rw [List.mem_singleton.mp hc]
        decide
    rw [hwords, dropLabel, if_pos List.getLast?_concat]
    exact words_dropWhile_colons rest
  · -- the word in front ends without a colon, if there is one
    have hspace : ∀ d rest, tail = d :: rest → Text.isSpace d = true := by
      rintro d rest rfl
      cases hd : Text.isSpace d with
      | true => rfl
      | false =>
        have hd' : d = ':' := by simpa [hd] using hstop
        exact absurd ⟨rest, by rw [hd']⟩ hcolon
    split
    · next rest => exact absurd ⟨rest, rfl⟩ hcolon
    · rw [cutColons_append, hcut]
      by_cases hne : name = []
      · cases tail with
        | nil =>
          rw [hne]
          rfl
        | cons d rest =>
          have hd := hstart d rest (by rw [hne, List.nil_append])
          rw [hspace d rest rfl] at hd
          cases hd
      · have hwords : Text.words (name ++ cutColons tail) =
            name :: Text.words (cutColons tail) := by
          apply Text.words_append hne (fun c hc => (hplain c hc).1)
          cases tail with
          | nil => rfl
          | cons d rest =>
            have hd := hspace d rest rfl
            rw [cutColons_cons (ne_colon_of_isSpace hd)]
            simp [headIs, hd]
        have hlast : name.getLast? ≠ some ':' :=
          fun hlast => (hplain ':' (List.mem_of_getLast? hlast)).2 rfl
        rw [hwords, dropLabel, if_neg hlast]

end

/-! ## Lines of a block -/

/-- What a line is to a kind of block. -/
inductive LineKind where
  | closer
  | opener
  | plain
  deriving DecidableEq, Repr

/-- The words that close and open a kind of block, as they are spelled in lower case. -/
structure BlockWords where
  closing : String
  opening : String
  closing_ne : closing ≠ ""
  opening_ne : opening ≠ ""
  closing_lower : Text.lower closing = closing
  opening_lower : Text.lower opening = opening

/-- A word of a line is another word in any letter case. -/
def spells (word : String) (w : List Char) : Bool :=
  lowerWord w == Text.lower word

namespace BlockWords

/-- The bodies of macros. -/
def macros : BlockWords :=
  ⟨Directive.macroEnd.word, Directive.macroStart.word, by decide, by decide, by decide, by decide⟩

/-- The bodies that are repeated. -/
def repetitions : BlockWords :=
  ⟨Directive.repeatEnd.word, Directive.repeatStart.word, by decide, by decide, by decide, by decide⟩

/-- The setting that a block is read under. -/
def setting (words : BlockWords) : Setting :=
  .block words.closing words.opening

/-- A line is a closer if the first word of its code is the closing word, or else an opener if the
opening word is one of its first two words behind a label, or else plain. -/
def lineKind (words : BlockWords) (line : List Char) : LineKind :=
  if (Text.words (codeOf line)).head?.any (spells words.closing) then .closer
  else if ((Text.words (cutColons (afterLabel (codeOf line)))).take 2).any
    (spells words.opening) then .opener
  else .plain

variable {words : BlockWords} {line : List Char} {lines body inner more : List (List Char)}
  {depth : Nat}

theorem closesBlock_eq (words : BlockWords) (line : List Char) :
    closesBlock words.closing line = (Text.words (codeOf line)).head?.any
      (spells words.closing) := by
  unfold closesBlock
  cases Text.words (codeOf line) with
  | nil => rfl
  | cons w ws => rw [List.head?_cons, Option.any_some, spells, words.closing_lower]

theorem opensBlock_eq (words : BlockWords) (line : List Char) :
    opensBlock (some words.opening) line =
      ((Text.words (cutColons (afterLabel (codeOf line)))).take 2).any (spells words.opening) := by
  have hne : words.opening.isEmpty = false := by
    rw [← Bool.not_eq_true, String.isEmpty_iff]
    exact words.opening_ne
  have hlabel := dropLabel_words (codeOf line)
  simp only [cutColons] at hlabel
  simp only [opensBlock, leadingWords, hne, Bool.not_false, Bool.true_and, hlabel, cutColons]
  rw [List.contains_eq_any_beq, List.any_map]
  congr 1
  funext w
  rw [Function.comp_apply, spells, words.opening_lower, Bool.beq_comm]

theorem blockBody?_cons (words : BlockWords) (depth : Nat) (line : List Char)
    (rest : List (List Char)) : blockBody? words.closing (some words.opening) depth (line :: rest) =
      match words.lineKind line, depth with
      | .closer, 0 => some (0, line)
      | .closer, d + 1 => (blockBody? words.closing (some words.opening) d rest).map
          fun b => (b.1 + line.length + 1, b.2)
      | .opener, d => (blockBody? words.closing (some words.opening) (d + 1) rest).map
          fun b => (b.1 + line.length + 1, b.2)
      | .plain, d => (blockBody? words.closing (some words.opening) d rest).map
          fun b => (b.1 + line.length + 1, b.2) := by
  rw [blockBody?.eq_def, lineKind]
  simp only [closesBlock_eq, opensBlock_eq]
  split
  · cases depth with
    | zero => rfl
    | succ d => rfl
  · split
    · rfl
    · rfl

/-- Lines in which every block that is opened is closed, and no other block is closed. -/
inductive Nested (words : BlockWords) : List (List Char) → Prop where
  | nil : Nested words []
  | plain {line : List Char} {more : List (List Char)} (kind : words.lineKind line = .plain)
      (rest : Nested words more) : Nested words (line :: more)
  | group {first last : List Char} {inner more : List (List Char)}
      (opens : words.lineKind first = .opener)
      (body : Nested words inner) (closes : words.lineKind last = .closer)
        (rest : Nested words more) :
      Nested words (first :: inner ++ last :: more)

theorem Nested.append (h : Nested words body) (hmore : Nested words more) :
    Nested words (body ++ more) := by
  induction h with
  | nil => exact hmore
  | plain kind rest ih => exact .plain kind ih
  | group opens inside closes rest _ ih =>
    rw [List.append_assoc, List.cons_append]
    exact .group opens inside closes ih

/-- The text of lines, with the line end behind each of them. -/
def textOf (lines : List (List Char)) : List Char :=
  lines.flatMap (· ++ ['\n'])

theorem textOf_cons (line : List Char) (lines : List (List Char)) :
    textOf (line :: lines) = line ++ '\n' :: textOf lines := by
  simp [textOf]

theorem textOf_append (lines more : List (List Char)) :
    textOf (lines ++ more) = textOf lines ++ textOf more :=
  List.flatMap_append

theorem exists_of_splitLines_append {cs : List Char} (h : splitLines cs = body ++ more)
    (hmore : more ≠ []) : ∃ rest, cs = textOf body ++ rest ∧ splitLines rest = more := by
  induction body generalizing cs with
  | nil => exact ⟨cs, rfl, h⟩
  | cons first body ih =>
    rcases exists_of_splitLines_cons h (by simp [hmore]) with ⟨rest, rfl, _, hrest⟩
    rcases ih hrest with ⟨behind, rfl, hbehind⟩
    exact ⟨behind, by rw [textOf_cons, List.append_assoc, List.cons_append], hbehind⟩

theorem blockBody?_nested (h : Nested words body) (depth : Nat) (more : List (List Char)) :
    blockBody? words.closing (some words.opening) depth (body ++ more) =
      (blockBody? words.closing (some words.opening) depth more).map
        fun b => ((textOf body).length + b.1, b.2) := by
  induction h generalizing depth more with
  | nil => simp [textOf]
  | @plain line rest kind _ ih =>
    rw [List.cons_append, blockBody?_cons, kind]
    simp only [ih, Option.map_map, textOf_cons]
    congr 1
    funext b
    simp only [Function.comp_apply, List.length_append, List.length_cons]
    congr 1
    omega
  | @group first last inner rest opens _ closes _ ihinner ihrest =>
    rw [List.append_assoc, List.cons_append, List.cons_append, blockBody?_cons, opens]
    simp only [ihinner, blockBody?_cons, closes, ihrest, Option.map_map]
    congr 1
    funext b
    simp only [Function.comp_apply, textOf_append, textOf_cons, List.length_append,
      List.length_cons]
    congr 1
    omega

/-- Lines that close as many blocks as are open, and nothing more: nested lines with the closing
lines between them. -/
inductive Closes (words : BlockWords) : Nat → List (List Char) → Prop where
  | none {body : List (List Char)} (nested : Nested words body) : Closes words 0 body
  | one {depth : Nat} {last : List Char} {body more : List (List Char)} (nested : Nested words body)
      (closes : words.lineKind last = .closer) (rest : Closes words depth more) :
      Closes words (depth + 1) (body ++ last :: more)

theorem Nested.closes (h : Nested words body) (hmore : Closes words depth more) :
    Closes words depth (body ++ more) := by
  cases hmore with
  | none nested => exact .none (h.append nested)
  | one nested closes rest =>
    rw [← List.append_assoc]
    exact .one (h.append nested) closes rest

/-- What is found are lines that close the open blocks, up to a closing line. -/
theorem exists_of_blockBody? {n : Nat}
    (h : blockBody? words.closing (some words.opening) depth lines = some (n, line)) :
    ∃ body more, lines = body ++ line :: more ∧ Closes words depth body ∧
      words.lineKind line = .closer ∧ n = (textOf body).length := by
  induction lines generalizing depth n with
  | nil => cases h
  | cons first rest ih =>
    rw [blockBody?_cons] at h
    cases hkind : words.lineKind first with
    | closer =>
      cases depth with
      | zero =>
        rw [hkind] at h
        cases h
        exact ⟨[], rest, rfl, .none .nil, hkind, rfl⟩
      | succ d =>
        rw [hkind] at h
        rcases Option.map_eq_some_iff.mp h with ⟨⟨m, last⟩, hrest, heq⟩
        cases heq
        rcases ih hrest with ⟨body, more, rfl, hcloses, hline, rfl⟩
        refine ⟨first :: body, more, rfl, .one .nil hkind hcloses, hline, ?_⟩
        simp only [textOf_cons, List.length_append, List.length_cons]
        omega
    | opener =>
      rw [hkind] at h
      rcases Option.map_eq_some_iff.mp h with ⟨⟨m, last⟩, hrest, heq⟩
      cases heq
      rcases ih hrest with ⟨body, more, rfl, hcloses, hline, rfl⟩
      refine ⟨first :: body, more, rfl, ?_, hline, ?_⟩
      · -- the block that is opened here is the first one to be closed
        cases hcloses with
        | one nested closes rest =>
          have hgroup : Nested words (first :: _ ++ _ :: []) := .group hkind nested closes .nil
          simpa using hgroup.closes rest
      · simp only [textOf_cons, List.length_append, List.length_cons]
        omega
    | plain =>
      rw [hkind] at h
      rcases Option.map_eq_some_iff.mp h with ⟨⟨m, last⟩, hrest, heq⟩
      cases heq
      rcases ih hrest with ⟨body, more, rfl, hcloses, hline, rfl⟩
      refine ⟨first :: body, more, rfl, ?_, hline, ?_⟩
      · exact (Nested.plain hkind .nil).closes hcloses
      · simp only [textOf_cons, List.length_append, List.length_cons]
        omega

theorem blockBody?_eq_some_iff {n : Nat} :
    blockBody? words.closing (some words.opening) 0 lines = some (n, line) ↔
      ∃ body more, lines = body ++ line :: more ∧ Nested words body ∧
        words.lineKind line = .closer ∧ n = (textOf body).length := by
  constructor
  · intro h
    rcases exists_of_blockBody? h with ⟨body, more, hlines, hcloses, hline, hn⟩
    cases hcloses with
    | none nested => exact ⟨body, more, hlines, nested, hline, hn⟩
  · rintro ⟨body, more, rfl, hnested, hline, rfl⟩
    rw [blockBody?_nested hnested, blockBody?_cons, hline]
    rfl

end BlockWords

/-! ## Where a body starts -/

namespace Cursor

variable {c b : Cursor} {source : Source} {cs rest text : List Char} {line : Nat}

theorem skip_line (hc : c.rest = cs ++ '\n' :: rest) (hline : '\n' ∉ cs) :
    c.skip (cs.length + 1) = ⟨rest, c.line + 1, 1, true⟩ := by
  rw [← skip_skip, skip_within hc hline]
  rfl

theorem restOfLine_eq_self (h : '\n' ∉ cs) : restOfLine cs = cs := by
  refine List.takeWhile_eq_self_iff.mpr fun ch hch => ?_
  have hne : ch ≠ '\n' := fun heq => h (heq ▸ hch)
  simpa using hne

/-- Characters that are passed as a comment; a star starts one only on a fresh line. -/
def isComment (fresh : Bool) (cs : List Char) : Bool :=
  headIs (fun ch => ch = ';' || (ch = '*' && fresh)) cs && !cs.contains '\n'

/-- The text of a body and the number of its first line. At the start of a line the body starts
there, and within a line it starts below the line, of which only blanks and a comment may be left.
-/
inductive BodyAt (c : Cursor) : List Char → Nat → Prop where
  | here (column : c.column = 1) : BodyAt c c.rest c.line
  | below {blanks comment text : List Char} (column : c.column ≠ 1)
      (rest : c.rest = blanks ++ (comment ++ '\n' :: text)) (blank : blanks.all isBlank = true)
      (skipped : comment = [] ∨ isComment c.fresh comment = true) : BodyAt c text (c.line + 1)

/-- Where the body starts. -/
theorem BodyAt.bodyStart (h : c.BodyAt text line) (source : Source) :
    ∃ b, c.bodyStart source = .ok b ∧ b.rest = text ∧ b.line = line ∧ b.column = 1 ∧
      (b.fresh = true ∨ b = c) := by
  cases h with
  | here column => exact ⟨c, by rw [Cursor.bodyStart, if_pos column], rfl, rfl, column, .inr rfl⟩
  | @below blanks comment text column rest blank skipped =>
    have hnewline : '\n' ∉ blanks :=
      fun hmem => absurd (List.all_eq_true.mp blank _ hmem) (by decide)
    have hcomment : '\n' ∉ comment ∧ comment.takeWhile isBlank = [] ∧
        headIs (fun ch => ch = ';' || (ch = '*' && c.fresh)) comment = !comment.isEmpty := by
      rcases skipped with rfl | hskipped
      · exact ⟨by simp, rfl, rfl⟩
      · rw [isComment, Bool.and_eq_true, Bool.not_eq_true', List.contains_eq_mem,
          decide_eq_false_iff_not] at hskipped
        refine ⟨hskipped.2, ?_, ?_⟩
        · cases comment with
          | nil => rfl
          | cons ch more =>
            have hch : ch = ';' ∨ ch = '*' ∧ c.fresh = true := by simpa [headIs] using hskipped.1
            rw [List.takeWhile_cons_of_neg]
            rcases hch with rfl | ⟨rfl, _⟩ <;> decide
        · cases comment with
          | nil => cases hskipped.1
          | cons ch more => exact hskipped.1
    have hblanks : c.rest.takeWhile isBlank = blanks := by
      rw [rest, List.takeWhile_append_of_pos (List.all_eq_true.mp blank),
        takeWhile_append_bar (by decide), hcomment.2.1, List.append_nil]
    have hhere := skip_within rest hnewline
    rw [blank, Bool.and_true] at hhere
    have hlength :
      (if headIs (fun ch => ch = ';' || (ch = '*' && c.fresh)) (comment ++ '\n' :: text) = true
        then (restOfLine (comment ++ '\n' :: text)).length else 0) = comment.length := by
      rw [headIs_append_bar (by simp), hcomment.2.2, restOfLine_append_line,
        restOfLine_eq_self hcomment.1]
      cases comment with
      | nil => rfl
      | cons ch more => rfl
    refine ⟨⟨text, c.line + 1, 1, true⟩, ?_, rfl, rfl, rfl, .inl rfl⟩
    have hthere :
      (⟨comment ++ '\n' :: text, c.line, c.column + blanks.length, c.fresh⟩ : Cursor).skip
        comment.length = ⟨'\n' :: text, c.line, c.column + blanks.length + comment.length,
          c.fresh && comment.all isBlank⟩ := skip_within rfl hcomment.1
    simp only [Cursor.bodyStart, if_neg column, hblanks, hhere, hlength, hthere]
    rfl

/-- What the body is where it has a start. -/
theorem bodyAt_of_bodyStart (h : c.bodyStart source = .ok b) :
    c.BodyAt b.rest b.line ∨ b.rest = [] := by
  simp only [Cursor.bodyStart] at h
  by_cases column : c.column = 1
  · rw [if_pos column] at h
    cases h
    exact .inl (.here column)
  · rw [if_neg column] at h
    have blank : (c.rest.takeWhile isBlank).all isBlank = true := List.all_takeWhile
    have hsplit := List.takeWhile_append_dropWhile (p := isBlank) (l := c.rest)
    generalize c.rest.takeWhile isBlank = blanks at h blank hsplit
    generalize c.rest.dropWhile isBlank = behind at hsplit
    have hnewline : '\n' ∉ blanks :=
      fun hmem => absurd (List.all_eq_true.mp blank _ hmem) (by decide)
    have hhere := skip_within hsplit.symm hnewline
    rw [blank, Bool.and_true] at hhere
    rw [hhere] at h
    -- the comment is the rest of the line if it starts as one
    by_cases hcomment : headIs (fun ch => ch = ';' || (ch = '*' && c.fresh)) behind = true
    · have hrest : behind = restOfLine behind ++ behind.drop (restOfLine behind).length :=
        (List.prefix_iff_eq_append.mp (List.takeWhile_prefix _)).symm
      have hthere := skip_within (c := ⟨behind, c.line, c.column + blanks.length, c.fresh⟩) hrest
        (newline_not_mem_restOfLine behind)
      simp only [hcomment, if_true, hthere] at h
      generalize behind.drop (restOfLine behind).length = tail at h hrest
      cases tail with
      | nil =>
        cases h
        exact .inr rfl
      | cons ch text =>
        by_cases hch : ch = '\n'
        · subst hch
          cases h
          refine .inl (.below column (hsplit.symm.trans (congrArg _ hrest)) blank (.inr ?_))
          rw [isComment, ← headIs_append_bar (u := text) (d := '\n') (by simp), ← hrest, hcomment,
            Bool.true_and, Bool.not_eq_true', List.contains_eq_mem, decide_eq_false_iff_not]
          exact newline_not_mem_restOfLine behind
        · simp [hch] at h
    · simp only [hcomment, Bool.false_eq_true, if_false] at h
      split at h
      · next hend =>
        cases h
        exact .inr hend
      · next text hline =>
        cases h
        change behind = '\n' :: text at hline
        subst hline
        exact .inl (.below column hsplit.symm blank (.inl rfl))
      · cases h

end Cursor

/-! ## The block that is read -/

namespace BlockWords

variable {words : BlockWords} {source : Source} {c : Cursor}

theorem next_setting (words : BlockWords) (source : Source) (c : Cursor) :
    c.next source words.setting = c.blockToken source words.closing (some words.opening) := by
  have hne : words.closing.isEmpty = false := by
    rw [← Bool.not_eq_true, String.isEmpty_iff]
    exact words.closing_ne
  simp [Cursor.next, setting, Setting.block, Setting.closing?, hne]

theorem next_eq_ok_iff {t : Token} {c' : Cursor} :
    c.next source words.setting = .ok (t, c') ↔
      ∃ b body last more, c.bodyStart source = .ok b ∧ splitLines b.rest = body ++ last :: more ∧
        words.Nested body ∧ words.lineKind last = .closer ∧
        t = ⟨.rawBlock (String.ofList (textOf body)), b.line, 1, .raw⟩ ∧
        c' = b.skip
          ((textOf body).length + ((last.takeWhile isBlank).length + words.closing.length)) := by
  have htext : ∀ {cs : List Char} {body more : List (List Char)} {last : List Char},
      splitLines cs = body ++ last :: more → cs.take (textOf body).length = textOf body := by
    intro cs body more last hlines
    rcases exists_of_splitLines_append hlines (by simp) with ⟨rest, rfl, _⟩
    exact List.take_left
  rw [next_setting, Cursor.blockToken_eq_ok_iff]
  constructor
  · rintro ⟨b, n, last, hb, hblock, rfl, rfl⟩
    rcases blockBody?_eq_some_iff.mp hblock with ⟨body, more, hlines, hnested, hlast, rfl⟩
    exact ⟨b, body, last, more, hb, hlines, hnested, hlast, by rw [htext hlines], rfl⟩
  · rintro ⟨b, body, last, more, hb, hlines, hnested, hlast, rfl, rfl⟩
    have hblock := blockBody?_eq_some_iff.mpr ⟨body, more, hlines, hnested, hlast, rfl⟩
    exact ⟨b, _, last, hb, hblock, by rw [htext hlines], rfl⟩

theorem lexical_of_error {f : Failure} (h : c.next source words.setting = .error f) :
    ∃ line column fault, f = source.errorAt line column (.lexical fault) := by
  rw [next_setting, Cursor.blockToken] at h
  cases hstart : c.bodyStart source with
  | error g =>
    rw [hstart] at h
    cases h
    simp only [Cursor.bodyStart] at hstart
    split at hstart
    · cases hstart
    · split at hstart
      · cases hstart
      · cases hstart
      · cases hstart
        exact ⟨_, _, _, rfl⟩
  | ok b =>
    simp only [hstart] at h
    split at h
    · cases h
    · cases h
      exact ⟨_, _, _, rfl⟩

/-- A raw block is the text of the nested lines from the start of the body up to the first closing
line that they leave over. If there is no such line, or no body, nothing is read. -/
theorem block_ends_at_matching_closer (words : BlockWords) (source : Source) (c : Cursor) :
    (∀ text line body last more, c.BodyAt text line → splitLines text = body ++ last :: more →
      words.Nested body → words.lineKind last = .closer →
        ∃ c', c.next source words.setting =
          .ok (⟨.rawBlock (String.ofList (textOf body)), line, 1, .raw⟩, c')) ∧
    ((∀ text line, c.BodyAt text line → ¬ ∃ body last more, splitLines text = body ++ last :: more ∧
      words.Nested body ∧ words.lineKind last = .closer) →
        ∃ line column fault, c.next source words.setting =
          .error (source.errorAt line column (.lexical fault))) := by
  constructor
  · intro text line body last more hbody hlines hnested hlast
    rcases hbody.bodyStart source with ⟨b, hb, rfl, rfl, _⟩
    exact ⟨_, next_eq_ok_iff.mpr ⟨b, body, last, more, hb, hlines, hnested, hlast, rfl, rfl⟩⟩
  · intro hnone
    cases hnext : c.next source words.setting with
    | error f =>
      rcases lexical_of_error hnext with ⟨line, column, fault, rfl⟩
      exact ⟨line, column, fault, rfl⟩
    | ok found =>
      rcases next_eq_ok_iff.mp hnext with ⟨b, body, last, more, hb, hlines, hnested, hlast, _, _⟩
      rcases Cursor.bodyAt_of_bodyStart hb with hbody | hend
      · exact absurd ⟨body, last, more, hlines, hnested, hlast⟩ (hnone _ _ hbody)
      · -- nothing is left, and an empty line closes no block
        have hblock := blockBody?_eq_some_iff.mpr ⟨body, more, hlines, hnested, hlast, rfl⟩
        rw [hend, blockBody?_nil] at hblock
        cases hblock

/-- A block with a comment behind its opening word and a labelled one inside, which is not closed by
a line with the closing word in second place. Without the line that closes it there is no block. -/
theorem block_ends_at_matching_closer_labelled :
    (∃ c', (⟨" ; go\nl:: REPT 2\nnop endr\nendr ; endr\nx\n EndR y".toList, 3, 5, false⟩ :
      Cursor).next (.ofText "" "<input>") repetitions.setting =
        .ok (⟨.rawBlock "l:: REPT 2\nnop endr\nendr ; endr\nx\n", 4, 1, .raw⟩, c')) ∧
    (∃ line column fault,
      (⟨"l:: REPT 2\nnop endr\nendr ; endr\nx".toList, 4, 1, true⟩ : Cursor).next
        (.ofText "" "<input>") repetitions.setting =
          .error ((Source.ofText "" "<input>").errorAt line column (.lexical fault))) := by
  refine ⟨(block_ends_at_matching_closer _ _ _).1
    "l:: REPT 2\nnop endr\nendr ; endr\nx\n EndR y".toList 4
    ["l:: REPT 2".toList, "nop endr".toList, "endr ; endr".toList, "x".toList] " EndR y".toList []
      ?_
    (by decide) ?_ (by decide), (block_ends_at_matching_closer _ _ _).2 ?_⟩
  · exact .below (by decide) (rfl : _ = [' '] ++ ("; go".toList ++ _)) (by decide)
      (.inr (by decide))
  · have hinner : repetitions.Nested ["nop endr".toList] := .plain (by decide) .nil
    exact (Nested.group (by decide) hinner (by decide) (.plain (by decide) .nil) :
      repetitions.Nested
        ("l:: REPT 2".toList :: ["nop endr".toList] ++ "endr ; endr".toList :: ["x".toList]))
  · rintro text line hbody ⟨body, last, more, hlines, hnested, hlast⟩
    cases hbody with
    | below column => exact absurd rfl column
    | here column =>
      have hnone : blockBody? repetitions.closing (some repetitions.opening) 0
          (splitLines "l:: REPT 2\nnop endr\nendr ; endr\nx".toList) = none := by decide
      have hblock := blockBody?_eq_some_iff.mpr ⟨body, more, hlines, hnested, hlast, rfl⟩
      rw [hnone] at hblock
      cases hblock

end BlockWords

end Sm83
