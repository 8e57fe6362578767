import Sm83.Proofs.Token.Numeral
import Sm83.Proofs.Token.Written

/-!
# How lexemes are written

The text of a lexeme says what it is. A name is its own text, a reserved word is written in any
letter case, an operator in its one spelling, a number in digits, and a string between quotes with
escapes.
-/

namespace Sm83

/-- A whole number in a source: a written one, or octal digits behind a mark. -/
inductive Literal : Nat → List Char → Nat → Prop
  | written {base n : Nat} {cs : List Char} (digits : Written base cs n) : Literal base cs n
  | octal {n : Nat} {cs : List Char} (digits : Text.Spells (Text.digitOf? 8) 8 cs n) :
    Literal 8 ('&' :: cs) n

/-- A text that stands for a number in a source. -/
inductive Numeral : List Char → Nat → Prop
  | literal {base n : Nat} {cs : List Char} (digits : Literal base cs n) : Numeral cs n
  /-- Decimal digits with a point among them. -/
  | fixed {whole fraction : List Char} {n f v : Nat}
      (before : Text.Spells Text.decimalValue? 10 whole n)
        (behind : Text.Spells Text.decimalValue? 10 fraction f)
      (value : Fixed.ofDecimal? n f fraction.length = some v) : Numeral (whole ++ '.' :: fraction) v
  /-- One to eight pixels of four colours behind a mark. -/
  | pixels {cs : List Char} {vs : List Nat} (any : cs ≠ []) (few : cs.length ≤ 8)
      (row : List.Forall₂ (fun c v => Text.digitOf? 4 c = some v) cs vs) :
    Numeral ('\x60' :: cs) (planes vs)

/-- What stands behind an opening quote, up to the closing one, and the text it means. -/
inductive QuotedText : List Char → List Char → Prop
  | close : QuotedText ['"'] []
  | escape {e c : Char} {cs text : List Char} (he : escape? e = some c) (h : QuotedText cs text) :
    QuotedText ('\\' :: e :: cs) (c :: text)
  | plain {c : Char} {cs text : List Char} (hquote : c ≠ '"') (hslash : c ≠ '\\') (hline : c ≠ '\n')
      (h : QuotedText cs text) : QuotedText (c :: cs) (c :: text)

/-- The spelling of a local name: a dot, then characters of names, the first of them no digit. -/
def spellsLocalName (name : String) : Bool :=
  name.toList.head? == some '.' && headIs (fun c => isNameChar c && !c.isDigit) name.toList.tail &&
    name.toList.all isNameChar

/-- A lexeme of normal mode and its text. -/
inductive Lexeme.WrittenAs : Lexeme → List Char → Prop
  | newline : WrittenAs .newline ['\n']
  | eof : WrittenAs .eof []
  | number {cs : List Char} {n : Nat} (h : Numeral cs n) (fits : n < Word.modulus) :
    WrittenAs (.number (Word.wrap n)) cs
  | string {cs text : List Char} (h : QuotedText cs text) :
    WrittenAs (.string (String.ofList text)) ('"' :: cs)
  | name {s : String} (h : isGlobalName s = true) : WrittenAs (.name s) s.toList
  | label {s : String} (h : isGlobalName s = true) : WrittenAs (.label s) s.toList
  | localName {s : String} (h : spellsLocalName s = true) : WrittenAs (.localName s) s.toList
  | localLabel {s : String} (h : spellsLocalName s = true) : WrittenAs (.localLabel s) s.toList
  | keyword {cs : List Char} (chars : ∀ c ∈ cs, isNameChar c = true)
      (reserved : Keyword.isReserved (lowerName cs) = true) : WrittenAs (.keyword (lowerName cs)) cs
  | punct (p : Punct) : WrittenAs (.punct p) p.text.toList

theorem take_takeWhile (p : Char → Bool) (cs : List Char) :
    cs.take (cs.takeWhile p).length = cs.takeWhile p :=
  (List.prefix_iff_eq_take.mp (List.takeWhile_prefix p)).symm

variable {c : Char} {base : Nat}

theorem Text.spells_of_decimal? {cs : List Char} {n : Nat} (hne : cs ≠ [])
    (h : Text.decimal? cs = some n) : Text.Spells Text.decimalValue? 10 cs n := by
  have hdigits : ∀ c ∈ cs, ∃ v, Text.decimalValue? c = some v := by
    intro c hc
    rw [← Option.isSome_iff_exists, Option.isSome_iff_ne_none]
    intro hnone
    rw [decimal?_eq_none_iff.mpr ⟨c, hc, hnone⟩] at h
    cases h
  have hvalues : ∃ vs, List.Forall₂ (fun c v => Text.decimalValue? c = some v) cs vs := by
    clear hne h
    induction cs with
    | nil => exact ⟨[], .nil⟩
    | cons c cs ih =>
      rcases hdigits c List.mem_cons_self with ⟨v, hv⟩
      rcases ih fun d hd => hdigits d (List.mem_cons_of_mem c hd) with ⟨vs, hvs⟩
      exact ⟨v :: vs, .cons hv hvs⟩
  rcases hvalues with ⟨vs, hvs⟩
  refine ⟨hne, vs, hvs, ?_⟩
  rw [Text.decimal?_eq hvs] at h
  exact Option.some.inj h

theorem toLower_cases (c : Char) : isNameChar c = true ∨ c.toLower = c := by
  by_cases hupper : c.isUpper = true
  · have halpha : c.isAlpha = true := Bool.or_eq_true_iff.mpr (.inl hupper)
    exact .inl (by simp [isNameChar, Char.isAlphanum, halpha])
  · exact .inr (dif_neg fun hrange => hupper (decide_eq_true hrange))

theorem isDigitOf_lt (h : isDigitOf base c = true) : c.toNat < 128 := by
  unfold isDigitOf at h
  split at h
  · next hdigit =>
    have hrange := Text.isDigit_range hdigit
    omega
  · rw [Bool.and_eq_true] at h
    have hnameChar : isNameChar c = true := by
      have hlow := h.2
      simp only [Bool.and_eq_true, decide_eq_true_eq] at hlow
      rcases toLower_cases c with hname | hsame
      · exact hname
      · rw [hsame] at hlow
        have hlast : c.val ≤ 'z'.val := Nat.le_trans (Char.le_def.mp hlow.2) (by decide)
        have hlower : c.isLower = true :=
          Bool.and_eq_true_iff.mpr ⟨decide_eq_true hlow.1, decide_eq_true hlast⟩
        have halpha : c.isAlpha = true := Bool.or_eq_true_iff.mpr (.inr hlower)
        simp [isNameChar, Char.isAlphanum, halpha]
    exact isNameChar_lt hnameChar

theorem digitOf?_of_isDigitOf (hbase : base ∈ [16, 8, 4, 2]) (h : isDigitOf base c = true) :
    Text.digitOf? base c = some (if c.isDigit then c.toNat - 48 else c.toLower.toNat - 87) := by
  have hall : ∀ c : Char, c.toNat < 128 → ∀ base ∈ [16, 8, 4, 2], isDigitOf base c = true →
      Text.digitOf? base c = some (if c.isDigit then c.toNat - 48 else c.toLower.toNat - 87) :=
    forall_char_lt (by decide +kernel)
  exact hall c (isDigitOf_lt h) base hbase h

theorem isDigit_of_isDigitOf_four (h : isDigitOf 4 c = true) : c.isDigit = true := by
  unfold isDigitOf at h
  split at h
  · next hdigit => exact hdigit
  · cases h

theorem forall₂_map_value {digit? : Char → Option Nat} {value : Char → Nat} {cs : List Char}
    (h : ∀ c ∈ cs, digit? c = some (value c)) :
    List.Forall₂ (fun c v => digit? c = some v) cs (cs.map value) := by
  rw [List.forall₂_map_right_iff, List.forall₂_same]
  exact h

theorem spells_digitsValue {cs : List Char} (hbase : base ∈ [16, 8, 4, 2]) (hne : cs ≠ [])
    (h : ∀ c ∈ cs, isDigitOf base c = true) :
    Text.Spells (Text.digitOf? base) base cs (digitsValue base cs) := by
  refine ⟨hne, _, forall₂_map_value fun c hc => digitOf?_of_isDigitOf hbase (h c hc), ?_⟩
  rw [← Text.foldl_eq_ofDigits, List.foldl_map, digitsValue]

section

variable {cs : List Char} {l : Lexeme} {n : Nat}

theorem scanned_eq_lexeme {value length : Nat} (h : scanned value length = .lexeme l n) :
    value < Word.modulus ∧ l = .number (Word.wrap value) ∧ n = length := by
  unfold scanned at h
  split at h
  · next hfits =>
    cases h
    exact ⟨hfits, rfl, rfl⟩
  · cases h

theorem writtenAs_scanned {value length : Nat} (h : scanned value length = .lexeme l n)
    (hnumeral : Numeral (cs.take length) value) : l.WrittenAs (cs.take n) := by
  rcases scanned_eq_lexeme h with ⟨hfits, rfl, rfl⟩
  exact .number hnumeral hfits

theorem scanRadix_written {mark : Char} (hbase : base ∈ [16, 8, 4, 2])
    (hmark : ∀ cs n, Text.Spells (Text.digitOf? base) base cs n → Numeral (mark :: cs) n)
    (h : scanRadix base cs = .lexeme l n) : l.WrittenAs ((mark :: cs).take n) := by
  simp only [scanRadix] at h
  split at h
  · cases h
  · next hsome =>
    apply writtenAs_scanned h
    rw [Nat.add_comm, List.take_succ_cons, take_takeWhile]
    exact hmark _ _
      (spells_digitsValue hbase (by simpa using hsome) fun c hc => List.mem_takeWhile_imp hc)

theorem scanPixels_written (h : scanPixels cs = .lexeme l n) :
    l.WrittenAs (('\x60' :: cs).take n) := by
  simp only [scanPixels] at h
  split at h
  · cases h
  · next hsome =>
    split at h
    · cases h
    · next hfew =>
      apply writtenAs_scanned h
      rw [Nat.add_comm, List.take_succ_cons, take_takeWhile]
      refine .pixels (by simpa using hsome) (Nat.le_of_not_lt hfew) (forall₂_map_value ?_)
      intro c hc
      have hdigit := List.mem_takeWhile_imp hc
      rw [digitOf?_of_isDigitOf (by simp) hdigit, if_pos (isDigit_of_isDigitOf_four hdigit)]

theorem scanWhole_written (hne : cs.takeWhile Text.isDigit ≠ [])
    (h : (match Text.natural? 10 ((cs.takeWhile Text.isDigit).map Text.numeralChar) with
      | some n => scanned n (cs.takeWhile Text.isDigit).length
      | none => .numeral (.ofDigits (cs.takeWhile Text.isDigit))) = .lexeme l n) :
    l.WrittenAs (cs.take n) := by
  rw [Text.natural?_digits hne fun _ => List.mem_takeWhile_imp] at h
  split at h
  · next value hvalue =>
    have hvalue : Text.decimal? (cs.takeWhile Text.isDigit) = some value := by
      split at hvalue
      · cases hvalue
      · exact hvalue
    apply writtenAs_scanned h
    rw [take_takeWhile]
    exact .literal (.written (.decimal (Text.spells_of_decimal? hne hvalue)))
  · cases h

theorem scanDecimal_written (hne : cs.takeWhile Text.isDigit ≠ [])
    (h : scanDecimal cs = .lexeme l n) : l.WrittenAs (cs.take n) := by
  simp only [scanDecimal] at h
  split at h
  · next rest hrest =>
    split at h
    · exact scanWhole_written hne h
    · next hsome =>
      split at h
      · next value part hwhole hfraction =>
        split at h
        · next v hv =>
          apply writtenAs_scanned h
          have hcs : cs = cs.takeWhile Text.isDigit ++ '.' :: rest := by
            rw [← hrest, takeWhile_append_drop]
          have htaken : cs.take ((cs.takeWhile Text.isDigit).length + 1 +
              (rest.takeWhile Text.isDigit).length) =
              cs.takeWhile Text.isDigit ++ '.' :: rest.takeWhile Text.isDigit := by
            conv_lhs => rw [hcs]
            rw [List.take_append, ← hcs, List.take_of_length_le (by omega)]
            congr 1
            rw [Nat.add_assoc, Nat.add_sub_cancel_left, Nat.add_comm 1, List.take_succ_cons,
              take_takeWhile]
          rw [htaken]
          exact .fixed (Text.spells_of_decimal? hne hwhole)
            (Text.spells_of_decimal? (by simpa using hsome) hfraction) hv
        · cases h
      · cases h
  · exact scanWhole_written hne h

theorem stringBody_written {text : List Char} (h : stringBody cs = .closed text n) :
    QuotedText (cs.take n) text := by
  fun_induction stringBody cs generalizing text n with
  | case1 => cases h
  | case2 rest =>
    cases h
    exact .close
  | case3 => cases h
  | case4 => cases h
  | case5 e rest c hescape ih =>
    rcases StringScan.cons_eq_closed_iff.mp h with ⟨text', n', hrest, rfl, rfl⟩
    exact .escape hescape (ih hrest)
  | case6 => cases h
  | case7 c rest hquote hline hlast hescaped ih =>
    rcases StringScan.cons_eq_closed_iff.mp h with ⟨text', n', hrest, rfl, rfl⟩
    refine .plain hquote ?_ hline (ih hrest)
    rintro rfl
    cases rest with
    | nil => exact hlast rfl rfl
    | cons e rest => exact hescaped e rest rfl rfl

theorem scanString_written (h : scanString cs = .lexeme l n) :
    l.WrittenAs (('"' :: cs).take n) := by
  rcases scanString_eq_lexeme_iff.mp h with ⟨text, length, hbody, rfl, rfl⟩
  rw [Nat.add_comm, List.take_succ_cons]
  exact .string (stringBody_written hbody)

theorem scanPunct_written {p : Punct} (h : scanPunct cs = some (p, n)) :
    p.text.toList = cs.take n := by
  rcases scanPunct_cases h with ⟨c, d, rest, rfl, hpair, rfl⟩ | ⟨c, rest, rfl, hchar, rfl⟩
  · unfold pairPunct? at hpair
    split at hpair <;> cases hpair <;> rename_i hd <;> cases hd <;> rfl
  · unfold charPunct? at hchar
    split at hchar <;> cases hchar <;> rfl

theorem scanName_written (hc : isNameStart c = true) (h : scanName (c :: cs) = .lexeme l n) :
    l.WrittenAs ((c :: cs).take n) := by
  have hglobal : ((c :: cs).head? == some '.') = false := by
    rw [List.head?_cons, beq_eq_false_iff_ne]
    intro hdot
    cases hdot
    cases hc
  have hchars : ∀ d ∈ (c :: cs).takeWhile isNameChar, isNameChar d = true :=
    fun d hd => List.mem_takeWhile_imp hd
  have hstart : headIs isNameStart ((c :: cs).takeWhile isNameChar) = true := by
    simp [headIs, isNameChar_of_isNameStart hc, hc]
  generalize hspelled : (c :: cs).takeWhile isNameChar = spelled at hchars hstart
  simp only [scanName, hglobal, hspelled, Bool.not_false, Bool.true_and, Bool.false_eq_true,
    if_false] at h
  have htaken : (c :: cs).take spelled.length = (String.ofList spelled).toList := by
    rw [← hspelled, take_takeWhile, String.toList_ofList]
  split at h
  · next hreserved =>
    injection h with hl hn
    subst hl hn
    rw [htaken, String.toList_ofList]
    exact .keyword hchars hreserved
  · next hfree =>
    have hname : isGlobalName (String.ofList spelled) = true := by
      have hlower := lower_eq_lowerName (s := String.ofList spelled)
        (by simpa only [String.toList_ofList] using hchars)
      rw [String.toList_ofList] at hlower
      rw [Bool.not_eq_true] at hfree
      simp only [isGlobalName, Keyword.isKeyword, hlower, String.toList_ofList, hstart, hfree,
        Bool.true_and, Bool.not_false, Bool.and_true, List.all_eq_true]
      exact hchars
    split at h
    · injection h with hl hn
      subst hl hn
      rw [htaken]
      exact .label hname
    · injection h with hl hn
      subst hl hn
      rw [htaken]
      exact .name hname

theorem scanName_written_local (hcs : headIs (fun d => isNameChar d && !d.isDigit) cs = true)
    (h : scanName ('.' :: cs) = .lexeme l n) : l.WrittenAs (('.' :: cs).take n) := by
  have hlocal : (('.' :: cs).head? == some '.') = true := rfl
  have hname : spellsLocalName (String.ofList (('.' :: cs).takeWhile isNameChar)) = true := by
    have hdot : isNameChar '.' = true := by decide
    cases cs with
    | nil => cases hcs
    | cons d cs =>
      have hd : isNameChar d = true ∧ d.isDigit = false := by simpa [headIs] using hcs
      simp [spellsLocalName, hdot, hd, headIs]
  have htaken : ('.' :: cs).take (('.' :: cs).takeWhile isNameChar).length =
      (String.ofList (('.' :: cs).takeWhile isNameChar)).toList := by
    rw [take_takeWhile, String.toList_ofList]
  simp only [scanName, hlocal, Bool.not_true, Bool.false_and, Bool.false_eq_true, if_false,
    if_true] at h
  split at h
  · cases h
    rw [htaken]
    exact .localLabel hname
  · cases h
    rw [htaken]
    exact .localName hname

/-- What is scanned is written in the form of its lexeme. -/
theorem scan_written (h : scan cs = .lexeme l n) : l.WrittenAs (cs.take n) := by
  cases cs with
  | nil =>
    cases h
    exact .eof
  | cons c rest =>
    rw [scan] at h
    split at h
    · next hline =>
      cases h
      subst hline
      exact .newline
    split at h
    · next hstart => exact scanName_written hstart h
    split at h
    · next hdot =>
      subst hdot
      split at h
      · next hname => exact scanName_written_local hname h
      · cases h
    split at h
    · next hdigit => exact scanDecimal_written (by simp [hdigit]) h
    split at h
    · next hdollar =>
      subst hdollar
      exact scanRadix_written (by simp) (fun _ _ hs => .literal (.written (.hex hs))) h
    split at h
    · next hpercent =>
      have hc : c = '%' := by simpa using (Bool.and_eq_true_iff.mp hpercent).1
      subst hc
      exact scanRadix_written (by simp) (fun _ _ hs => .literal (.written (.binary hs))) h
    split at h
    · next hampersand =>
      have hc : c = '&' := by simpa using (Bool.and_eq_true_iff.mp hampersand).1
      subst hc
      exact scanRadix_written (by simp) (fun _ _ hs => .literal (.octal hs)) h
    split at h
    · next hpixels =>
      subst hpixels
      exact scanPixels_written h
    split at h
    · next hquote =>
      subst hquote
      exact scanString_written h
    split at h
    · next p length hpunct =>
      cases h
      rw [← scanPunct_written hpunct]
      exact .punct p
    · cases h

end

end Sm83
