import Sm83.Proofs.Token.Form
import Sm83.Proofs.Token.Local

/-!
# Number literals

A source that holds nothing but the digits of a number, behind the mark of their base, is read as
that number, whatever zeros stand in front and whatever case the letters have. The upper half of the
words stands for negative numbers, and what does not fit in a word is a fault at the first
character.
-/

namespace Sm83

open Cursor

/-- The bases of numbers, each with the mark that stands before its digits. -/
def radixMarks : List (String × Nat) :=
  [("", 10), ("$", 16), ("%", 2), ("&", 8)]

namespace Text

variable {base n : Nat} {cs : List Char}

theorem Spells.concat {digit? : Char → Option Nat} (h : Spells digit? base cs n) {c : Char}
    {v : Nat} (hc : digit? c = some v) : Spells digit? base (cs ++ [c]) (base * n + v) := by
  rcases h.digits with ⟨vs, hvs, rfl⟩
  refine ⟨by simp, vs ++ [v], List.rel_append hvs (.cons hc .nil), ?_⟩
  rw [List.reverse_append, List.reverse_singleton, List.singleton_append, Nat.ofDigits_cons,
    Nat.add_comm]

theorem Spells.zero_cons (h : Spells (digitOf? base) base cs n) (hbase : 0 < base) :
    Spells (digitOf? base) base ('0' :: cs) n := by
  rcases h.digits with ⟨vs, hvs, rfl⟩
  refine ⟨by simp, 0 :: vs, .cons (digitOf?_eq_some_iff.mpr ⟨by decide, hbase⟩) hvs, ?_⟩
  rw [List.reverse_cons, Nat.ofDigits_append_zero]

theorem spells_toDigits (hbase : 1 < base) (hsmall : base ≤ 16) (n : Nat) :
    Spells (digitOf? base) base (Nat.toDigits base n) n := by
  have hdigit : ∀ v < base, digitOf? base v.digitChar = some v := by
    intro v hv
    have hall : ∀ v < 16, digitValue? v.digitChar = some v := by decide
    exact digitOf?_eq_some_iff.mpr ⟨hall v (by omega), hv⟩
  induction n using Nat.strongRecOn with
  | ind n ih =>
    rw [Nat.toDigits_eq_if hbase]
    split
    · next hn => exact ⟨by simp, [n], .cons (hdigit n hn) .nil, by simp⟩
    · next hn =>
      have hquotient := ih (n / base) (Nat.div_lt_self (by omega) hbase)
      have hlast := hquotient.concat (hdigit (n % base) (Nat.mod_lt n (by omega)))
      rw [Nat.div_add_mod] at hlast
      exact hlast

theorem digitValue?_toLower (c : Char) : digitValue? c.toLower = digitValue? c := by
  rcases toLower_cases c with hname | hsame
  · have hall : ∀ c : Char, c.toNat < 128 → digitValue? c.toLower = digitValue? c :=
      forall_char_lt (by decide +kernel)
    exact hall c (isNameChar_lt hname)
  · rw [hsame]

theorem Spells.of_toLower (h : Spells (digitOf? base) base (cs.map Char.toLower) n) :
    Spells (digitOf? base) base cs n := by
  rcases h with ⟨hne, vs, hvs, hn⟩
  refine ⟨by simpa using hne, vs, ?_, hn⟩
  simpa only [List.forall₂_map_left_iff, digitOf?, digitValue?_toLower] using hvs

theorem Spells.decimal (h : Spells (digitOf? 10) 10 cs n) : Spells decimalValue? 10 cs n := by
  have hvalue : ∀ c v, digitOf? 10 c = some v → decimalValue? c = some v := by
    intro c v hc
    have hall : ∀ c : Char, c.toNat < 127 →
        (digitOf? 10 c).all fun v => decimalValue? c == some v :=
      forall_char_lt (by decide +kernel)
    simpa [hc] using hall c (plainDigit_of_digitOf? hc).ascii
  rcases h with ⟨hne, vs, hvs, hn⟩
  exact ⟨hne, vs, hvs.imp fun c v hc => hvalue c v hc, hn⟩

end Text

/-- Digits with zeros in front are a literal. -/
theorem literal_digits {mark : String} {base n zeros : Nat} {cs : List Char}
    (hmark : (mark, base) ∈ radixMarks)
    (h : cs.map Char.toLower = mark.toList ++ List.replicate zeros '0' ++ Nat.toDigits base n) :
    Literal base cs n := by
  have hdigits : 1 < base → base ≤ 16 → ∀ ds : List Char,
      ds.map Char.toLower = List.replicate zeros '0' ++ Nat.toDigits base n →
      Text.Spells (Text.digitOf? base) base ds n := by
    intro hbase hsmall ds hds
    refine .of_toLower ?_
    rw [hds]
    clear h hds
    induction zeros with
    | zero => exact Text.spells_toDigits hbase hsmall n
    | succ zeros ih => exact ih.zero_cons (by omega)
  -- a mark has no other letter case
  have hsplit : ∀ m : Char, (∀ c : Char, c.toLower = m → c = m) →
      cs.map Char.toLower = m :: (List.replicate zeros '0' ++ Nat.toDigits base n) →
      ∃ ds, cs = m :: ds ∧ ds.map Char.toLower = List.replicate zeros '0' ++ Nat.toDigits base
        n := by
    intro m hm hcs
    rcases List.map_eq_cons_iff.mp hcs with ⟨c, ds, rfl, hc, hds⟩
    exact ⟨ds, by rw [hm c hc], hds⟩
  have hplain : ∀ m : Char, m ∈ ['$', '%', '&'] → ∀ c : Char, c.toLower = m → c = m := by
    intro m hm c hc
    rcases toLower_cases c with hname | hsame
    · have hall : ∀ c : Char, c.toNat < 128 → isNameChar c = true →
          c.toLower ∉ ['$', '%', '&'] :=
        forall_char_lt (by decide +kernel)
      exact absurd (hc ▸ hm) (hall c (isNameChar_lt hname) hname)
    · rw [← hsame, hc]
  simp only [radixMarks, List.mem_cons, Prod.mk.injEq, List.not_mem_nil, or_false] at hmark
  rcases hmark with ⟨rfl, rfl⟩ | ⟨rfl, rfl⟩ | ⟨rfl, rfl⟩ | ⟨rfl, rfl⟩
  · exact .written (.decimal (hdigits (by decide) (by decide) cs h).decimal)
  · rcases hsplit '$' (hplain _ (by simp)) h with ⟨ds, rfl, hds⟩
    exact .written (.hex (hdigits (by decide) (by decide) ds hds))
  · rcases hsplit '%' (hplain _ (by simp)) h with ⟨ds, rfl, hds⟩
    exact .written (.binary (hdigits (by decide) (by decide) ds hds))
  · rcases hsplit '&' (hplain _ (by simp)) h with ⟨ds, rfl, hds⟩
    exact .octal (hdigits (by decide) (by decide) ds hds)

namespace Literal

variable {base n : Nat} {cs : List Char}

theorem scan_eq (h : Literal base cs n) : scan cs =
    if base = 10 ∧ Text.decimalLimit < cs.length then .numeral (.tooLong cs.length)
    else scanned n cs.length := by
  cases h with
  | written digits => exact digits.scan_eq
  | octal digits => exact Written.scan_marked (by simp) digits

theorem ne_nil (h : Literal base cs n) : cs ≠ [] := by
  cases h with
  | written digits => exact digits.ne_nil
  | octal _ => simp

theorem startsLexeme_head (h : Literal base cs n) : ∀ c ∈ cs.head?, startsLexeme c = true := by
  cases h with
  | written digits => exact digits.startsLexeme_head
  | octal _ => simp [startsLexeme, isBlank]

theorem plain (h : Literal base cs n) : ∀ c ∈ cs, Text.Plain c := by
  cases h with
  | written digits => exact digits.plain
  | octal digits =>
    refine List.forall_mem_cons.mpr ⟨⟨by decide, by decide, by decide, by decide⟩, ?_⟩
    exact digits.forall_mem fun c v hc => (Text.plainDigit_of_digitOf? hc).toPlain

/-- A source that is nothing but a literal has one token, or a failure at its first character. -/
theorem tokens_eq {text : String} (h : Literal base text.toList n) (file : String) :
    (Source.ofText text file).tokens =
      if base = 10 ∧ Text.decimalLimit < text.length then
        ([], some (.numeral (.tooLong text.length)))
      else if n < Word.modulus then
        ([⟨.number (Word.wrap n), 1, 1, .normal⟩, ⟨.eof, 1, 1 + text.length, .normal⟩], none)
      else ([], some (.error ⟨.lexical .numberTooLarge, some ⟨file, 1, 1⟩, some text⟩)) := by
  have hline : '\n' ∉ text.toList := fun hmem => (h.plain _ hmem).newline rfl
  have hreturn : '\r' ∉ text.toList := fun hmem => (h.plain _ hmem).carriage rfl
  have htext : (Source.ofText text file).text = text.toList := uniformLineEnds_eq_self hreturn
  have hline? : (Source.ofText text file).line? 1 = some text := by
    simp [Source.line?, Source.ofText, uniformLineEnds_eq_self hreturn, splitLines_of_not_mem hline]
  have hscan := h.scan_eq
  rcases List.exists_cons_of_ne_nil h.ne_nil with ⟨c, cs, hcs⟩
  have hstart : startsLexeme c = true := h.startsLexeme_head c (by rw [hcs]; rfl)
  rw [← String.length_toList, Source.tokens, htext, hcs]
  rw [hcs] at hscan
  have hstar : c ≠ '*' := by
    rintro rfl
    have hpunct : scan ('*' :: cs) = .lexeme (.punct .star) 1 := rfl
    rw [hpunct, scanned] at hscan
    split at hscan
    · cases hscan
    · split at hscan <;> cases hscan
  have hrest : (start (c :: cs)).rest = c :: cs := rfl
  have hgap : gap 0 true (c :: cs) = ⟨0, false⟩ := gap_of_startsLexeme hstart fun _ => hstar
  split
  · next hlong =>
    rw [if_pos hlong] at hscan
    have hfails : (start (c :: cs)).normalToken (Source.ofText text file) =
        .error (.numeral (.tooLong (c :: cs).length)) := by
      simp only [normalToken, start, hgap, pass_zero, hscan]
      rfl
    rw [normalTokens, hfails]
  · next hshort =>
    rw [if_neg hshort] at hscan
    split
    · next hfits =>
      rw [scanned, if_pos hfits] at hscan
      have hnumber := normalToken_lexeme (.ofText text file) hrest hstart
        (fun _ => hstar) hscan
      rw [skip_within (hrest.trans (List.append_nil _).symm) (hcs ▸ hline)] at hnumber
      rw [List.length_cons, normalTokens, hnumber]
      simp only [normalTokens, normalToken_end]
      rfl
    · next hlarge =>
      rw [scanned, if_neg hlarge] at hscan
      have hfault : (start (c :: cs)).normalToken (Source.ofText text file) =
          .error ((start (c :: cs)).fault (Source.ofText text file) .numberTooLarge) := by
        simp only [normalToken, start, hgap, pass_zero, hscan]
        rfl
      rw [normalTokens, hfault]
      simp only [fault, start, Source.errorAt, Nat.cast_one, hline?]
      rfl

end Literal

theorem Lexeme.WrittenAs.number_range {l : Lexeme} {cs : List Char} (h : l.WrittenAs cs) {v : Int}
    (hl : l = .number v) : -2 ^ 31 ≤ v ∧ v < 2 ^ 31 := by
  cases h with
  | @number _ n _ fits =>
    rw [← Lexeme.number.inj hl]
    exact Word.wrap_mem_range n
  | _ => cases hl

theorem normalTokens_number_range {source : Source} {fuel : Nat} {c : Cursor} {t : Token}
    (ht : t ∈ (c.normalTokens source fuel).1) {v : Int} (hv : t.lexeme = .number v) :
    -2 ^ 31 ≤ v ∧ v < 2 ^ 31 := by
  have hnext : ∀ {c c' : Cursor}, c.normalToken source = .ok (t, c') → -2 ^ 31 ≤ v ∧
      v < 2 ^ 31 := by
    intro c c' h
    rcases normalToken_eq_ok_iff.mp h with ⟨_, l, n, hscan, rfl, _⟩
    exact (scan_written hscan).number_range hv
  induction fuel generalizing c with
  | zero => cases ht
  | succ fuel ih =>
    rw [normalTokens] at ht
    split at ht
    · cases ht
    · next first c' hfirst =>
      split at ht
      · cases List.mem_singleton.mp ht
        exact hnext hfirst
      · rcases List.mem_cons.mp ht with rfl | ht
        · exact hnext hfirst
        · exact ih ht

/-- Digits behind the mark of their base, with zeros in front and in any letter case, are one token
with their number. A number from the upper half of the words stands for a negative one, one that is
no word is reported at its first character, and decimal digits beyond the limit are no number at
all. No token of any source is a number beyond a word. -/
theorem number_literals_denote (file : String) :
    (∀ mark base, (mark, base) ∈ radixMarks → ∀ (n zeros : Nat) (text : String),
      text.toList.map Char.toLower =
        mark.toList ++ List.replicate zeros '0' ++ Nat.toDigits base n →
      (base = 10 ∧ Text.decimalLimit < text.length → (Source.ofText text file).tokens =
        ([], some (.numeral (.tooLong text.length)))) ∧
      (¬ (base = 10 ∧ Text.decimalLimit < text.length) →
        (n < 2 ^ 32 → (Source.ofText text file).tokens =
          ([⟨.number (if n < 2 ^ 31 then (n : Int) else n - 2 ^ 32), 1, 1, .normal⟩,
            ⟨.eof, 1, 1 + text.length, .normal⟩], none)) ∧
        (2 ^ 32 ≤ n → (Source.ofText text file).tokens =
          ([], some (.error ⟨.lexical .numberTooLarge, some ⟨file, 1, 1⟩, some text⟩))))) ∧
    ∀ source : Source, ∀ t ∈ source.tokens.1, ∀ v : Int, t.lexeme = .number v →
      -2 ^ 31 ≤ v ∧ v < 2 ^ 31 := by
  refine ⟨?_, fun source t ht v hv => normalTokens_number_range ht hv⟩
  intro mark base hmark n zeros text htext
  have htokens := (literal_digits hmark htext).tokens_eq file
  refine ⟨fun hlong => ?_, fun hshort => ⟨fun hn => ?_, fun hn => ?_⟩⟩
  · rw [htokens, if_pos hlong]
  · have hfits : n < Word.modulus := hn
    have hwrap : Word.wrap n = if n < 2 ^ 31 then (n : Int) else n - 2 ^ 32 := by
      simp only [Word.wrap, Int.bmod_def, Word.modulus]
      split <;> split <;> omega
    rw [htokens, if_neg hshort, if_pos hfits, hwrap]
  · have hlarge : ¬ n < Word.modulus := Nat.not_lt.mpr hn
    rw [htokens, if_neg hshort, if_neg hlarge]

theorem number_literals_denote_hex :
    (Source.ofText "$00Ff0000F0" "a.asm").tokens =
      ([⟨.number (-0xFFFF10), 1, 1, .normal⟩, ⟨.eof, 1, 12, .normal⟩], none) := by
  have hdigits : "$00Ff0000F0".toList.map Char.toLower =
      "$".toList ++ List.replicate 2 '0' ++ Nat.toDigits 16 0xFF0000F0 := by
    decide
  have hdenotes :=
    (number_literals_denote "a.asm").1 "$" 16 (by simp [radixMarks]) 0xFF0000F0 2 _ hdigits
  exact (hdenotes.2 (by simp)).1 (by decide)

end Sm83
