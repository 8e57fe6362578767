import Sm83.Definition
import Sm83.Proofs.Token.Digits
import Sm83.Proofs.Token.Spelling

/-!
# Written numbers

A number can be written in decimal digits of any script, or behind a mark in hexadecimal or binary
digits. Definitions from outside and sources both find the number that the digits stand for, and
both refuse decimal digits that are too many.
-/

namespace Sm83

open Text

/-- A text that stands for a number: decimal digits, or behind a mark hexadecimal or binary ones. -/
inductive Written : Nat → List Char → Nat → Prop
  | decimal {cs : List Char} {n : Nat} (digits : Text.Spells decimalValue? 10 cs n) :
      Written 10 cs n
  | hex {cs : List Char} {n : Nat} (digits : Text.Spells (digitOf? 16) 16 cs n) :
    Written 16 ('$' :: cs) n
  | binary {cs : List Char} {n : Nat} (digits : Text.Spells (digitOf? 2) 2 cs n) :
    Written 2 ('%' :: cs) n

namespace Written

variable {base n : Nat} {cs : List Char}

/-- The value of a definition is read like the number, unless it has too many decimal digits. -/
theorem value?_eq (h : Written base cs n) : Definition.value? cs =
    if base = 10 ∧ decimalLimit < cs.length then none else some (n : Int) := by
  cases h with
  | hex digits => exact digits.integer?_marked (by simp)
  | binary digits => exact digits.integer?_marked (by simp)
  | decimal digits =>
    have hdigit : ∀ c ∈ cs, (decimalValue? c).isSome = true :=
      digits.forall_mem fun c v hc => by simp [hc]
    -- a decimal digit is none of the marks
    unfold Definition.value?
    split
    · exact absurd (hdigit '$' List.mem_cons_self) (by decide)
    · exact absurd (hdigit 'x' (by simp)) (by decide)
    · exact absurd (hdigit 'X' (by simp)) (by decide)
    · exact absurd (hdigit '%' List.mem_cons_self) (by decide)
    · simpa using digits.integer?_decimal

theorem plain (h : Written base cs n) : ∀ c ∈ cs, Text.Plain c := by
  cases h with
  | hex digits | binary digits =>
    refine List.forall_mem_cons.mpr ⟨⟨by decide, by decide, by decide, by decide⟩, ?_⟩
    exact digits.forall_mem fun c v hc => (plainDigit_of_digitOf? hc).toPlain
  | decimal digits =>
    refine digits.forall_mem fun c v hc => ?_
    have hspace := isSpace_of_decimal hc
    refine ⟨hspace, ?_, ?_, ?_⟩
    · rintro rfl
      exact absurd hspace (by decide)
    · rintro rfl
      exact absurd hspace (by decide)
    · rintro rfl
      have hnone : decimalValue? '\\' = none := by decide
      rw [hnone] at hc
      cases hc

end Written

theorem Text.isSpace_of_isNameChar {c : Char} (h : isNameChar c = true) :
    isSpace c = false := by
  have hall : ∀ c : Char, c.toNat < 128 → isNameChar c = true → isSpace c = false :=
    forall_char_lt (by decide +kernel)
  exact hall c (isNameChar_lt h) h

/-- A definition of a global name as a written number. -/
theorem Definition.read_written {base n : Nat} {name text : String}
    (hname : isGlobalName name = true) (h : Written base text.toList n) :
    Definition.read (name ++ "=" ++ text) =
      if base = 10 ∧ decimalLimit < text.toList.length then
        .error (.badValue (name ++ "=" ++ text))
      else .ok ⟨name, n⟩ := by
  rcases parts_of_isGlobalName hname with ⟨hstart, hchars, _⟩
  have hequals : ∀ c ∈ name.toList, (c ≠ '=' : Bool) = true := by
    intro c hc
    have hnameChar := hchars c hc
    apply decide_eq_true
    rintro rfl
    exact absurd hnameChar (by decide)
  have hcs : (name ++ "=" ++ text).toList = name.toList ++ '=' :: text.toList := by simp
  -- a name has no equals sign, so the first one in the text is the separator
  have hbefore : (name.toList ++ '=' :: text.toList).takeWhile (· ≠ '=') = name.toList :=
    takeWhile_append_eq hequals rfl
  have hafter : (name.toList ++ '=' :: text.toList).dropWhile (· ≠ '=') = '=' :: text.toList := by
    rw [List.dropWhile_append_of_pos hequals]
    rfl
  have hsome : name.isEmpty = false := by
    rw [Bool.eq_false_iff]
    intro hempty
    rw [String.isEmpty_iff.mp hempty] at hstart
    cases hstart
  have hname : String.ofList (trimmed name.toList) = name := by
    rw [trimmed_eq_self fun c hc => isSpace_of_isNameChar (hchars c hc),
      String.ofList_toList]
  have htext : trimmed text.toList = text.toList :=
    trimmed_eq_self fun c hc => (h.plain c hc).space
  simp only [Definition.read, hcs, hbefore, hafter, hname, hsome, htext, h.value?_eq]
  by_cases hlong : base = 10 ∧ decimalLimit < text.toList.length
  · rw [if_pos hlong, if_pos hlong]
    rfl
  · rw [if_neg hlong, if_neg hlong]
    rfl

theorem digitsValue_eq {base : Nat} (hbase : base ∈ [16, 8, 2]) {cs : List Char} {vs : List Nat}
    (h : List.Forall₂ (fun c v => digitOf? base c = some v) cs vs) :
    digitsValue base cs = Nat.ofDigits base vs.reverse := by
  have hall : ∀ acc, cs.foldl (fun n c => base * n +
      (if c.isDigit then c.toNat - 48 else c.toLower.toNat - 87)) acc =
      vs.foldl (fun n v => base * n + v) acc := by
    induction h with
    | nil => exact fun _ => rfl
    | cons hc _ ih =>
      intro acc
      rw [List.foldl_cons, List.foldl_cons, (digitOf?_scanned hbase hc).2.1]
      exact ih _
  rw [digitsValue, hall 0, foldl_eq_ofDigits]

namespace Written

variable {base n : Nat} {cs : List Char}

theorem scanRadix_eq (hbase : base ∈ [16, 8, 2]) (h : Text.Spells (digitOf? base) base cs n) :
    scanRadix base cs = scanned n (1 + cs.length) := by
  rcases h.digits with ⟨vs, hvs, rfl⟩
  have htaken : cs.takeWhile (isDigitOf base) = cs := by
    have hdigits := h.forall_mem fun c v hc => (digitOf?_scanned hbase hc).1
    simpa using takeWhile_append_eq hdigits (rfl : headIs (isDigitOf base) [] = false)
  have hsome : cs.isEmpty = false := List.isEmpty_eq_false_iff.mpr h.ne_nil
  simp only [scanRadix, htaken, hsome, digitsValue_eq hbase hvs]
  rfl

theorem scan_marked {mark : Char} (hmark : (mark, base) ∈ [('%', 2), ('&', 8)])
    (h : Text.Spells (digitOf? base) base cs n) :
    scan (mark :: cs) = scanned n (mark :: cs).length := by
  have hbase : base ∈ [16, 8, 2] := by
    simp only [List.mem_cons, Prod.mk.injEq, List.not_mem_nil, or_false] at hmark
    rcases hmark with ⟨-, rfl⟩ | ⟨-, rfl⟩ <;> simp
  have hhead : headIs (isDigitOf base) cs = true := by
    cases cs with
    | nil => exact absurd rfl h.ne_nil
    | cons c cs =>
      have hdigit := h.forall_mem (fun c v hc => (digitOf?_scanned hbase hc).1) c
        List.mem_cons_self
      simpa [headIs] using hdigit
  have hscan : scan (mark :: cs) = scanRadix base cs := by
    simp only [List.mem_cons, Prod.mk.injEq, List.not_mem_nil, or_false] at hmark
    rcases hmark with ⟨rfl, rfl⟩ | ⟨rfl, rfl⟩
    · have hstart : isNameStart '%' = false ∧ isDigit '%' = false := by decide
      simp [scan, hstart, hhead]
    · have hstart : isNameStart '&' = false ∧ isDigit '&' = false := by decide
      simp [scan, hstart, hhead]
  rw [hscan, scanRadix_eq hbase h, List.length_cons, Nat.add_comm]

theorem scanDecimal_eq (h : Text.Spells decimalValue? 10 cs n) : scanDecimal cs =
    if decimalLimit < cs.length then .numeral (.tooLong cs.length)
    else scanned n cs.length := by
  have htaken : cs.takeWhile isDigit = cs := List.takeWhile_eq_self_iff.mpr h.isDigit
  have hcounted : cs.takeWhile (fun c => (decimalValue? c).isSome) = cs :=
    List.takeWhile_eq_self_iff.mpr (h.forall_mem fun c v hc => by simp [hc])
  simp only [scanDecimal, htaken, h.natural?, List.drop_length]
  by_cases hlong : decimalLimit < cs.length
  · simp [NumeralFault.ofDigits, hcounted, hlong]
  · simp [hlong]

theorem scan_of_decimal {c : Char} (h : (decimalValue? c).isSome = true) (cs : List Char) :
    scan (c :: cs) = scanDecimal (c :: cs) := by
  have hdigit : isDigit c = true := by simp [isDigit, h]
  have hline : c ≠ '\n' := by
    rintro rfl
    exact absurd h (by decide)
  have hdot : c ≠ '.' := by
    rintro rfl
    exact absurd h (by decide)
  have hletter : isNameStart c = false := by
    rw [Bool.eq_false_iff]
    intro hstart
    -- letters are among the first characters, where the digits can be told from them one by one
    have hall : ∀ c : Char, c.toNat < 128 → isNameStart c = true →
        (decimalValue? c).isSome = false :=
      forall_char_lt (by decide +kernel)
    rw [hall c (isNameChar_lt (isNameChar_of_isNameStart hstart)) hstart] at h
    cases h
  rw [scan, if_neg hline, if_neg (by simp [hletter]), if_neg hdot, if_pos hdigit]

/-- A written number is scanned as the number, unless it has too many decimal digits. -/
theorem scan_eq (h : Written base cs n) : scan cs =
    if base = 10 ∧ decimalLimit < cs.length then .numeral (.tooLong cs.length)
    else scanned n cs.length := by
  cases h with
  | hex digits =>
    rw [scan_dollar, scanRadix_eq (by simp) digits, List.length_cons, Nat.add_comm]
    rfl
  | binary digits => exact scan_marked (by simp) digits
  | decimal digits =>
    simp only [true_and]
    rw [← scanDecimal_eq digits]
    cases cs with
    | nil => exact absurd rfl digits.ne_nil
    | cons c cs =>
      have hdecimal := digits.forall_mem (P := fun c => (decimalValue? c).isSome = true)
        (fun c v hc => by simp [hc]) c List.mem_cons_self
      exact scan_of_decimal hdecimal cs

theorem ne_nil (h : Written base cs n) : cs ≠ [] := by
  cases h with
  | decimal digits => exact digits.ne_nil
  | hex _ | binary _ => simp

theorem startsLexeme_head (h : Written base cs n) : ∀ c ∈ cs.head?, startsLexeme c = true := by
  cases h with
  | hex _ => simp [startsLexeme, isBlank]
  | binary _ => simp [startsLexeme, isBlank]
  | decimal digits =>
    intro c hc
    have hdecimal := digits.forall_mem (P := fun c => (decimalValue? c).isSome = true)
      (fun c v hc => by simp [hc]) c (List.mem_of_mem_head? hc)
    simp only [startsLexeme, isBlank, Bool.not_eq_true', Bool.or_eq_false_iff,
      decide_eq_false_iff_not]
    refine ⟨⟨⟨?_, ?_⟩, ?_⟩, ?_⟩ <;>
      · rintro rfl
        exact absurd hdecimal (by decide)

theorem lexes (h : Written base cs n) (hshort : ¬ (base = 10 ∧ decimalLimit < cs.length))
    (hn : n < 2 ^ 32) : Lexes cs [.number (Word.wrap n)] := by
  have hfits : n < Word.modulus := hn
  have hscan : scan cs = .lexeme (.number (Word.wrap n)) cs.length := by
    rw [h.scan_eq, if_neg hshort, scanned, if_pos hfits]
  have hplain := h.plain
  have hstart := h.startsLexeme_head
  rcases List.exists_cons_of_ne_nil h.ne_nil with ⟨c, cs, rfl⟩
  have hlexes : Lexes (c :: cs ++ []) [.number (Word.wrap n)] := by
    refine .lexeme (hstart c rfl) ?_ (by simp) ?_ .nil
    · exact fun d hd => ⟨(hplain d hd).newline, (hplain d hd).carriage⟩
    · rw [List.append_nil]
      exact hscan
  rwa [List.append_nil] at hlexes

end Written

end Sm83
