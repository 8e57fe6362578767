import Sm83.Proofs.Outcome
import Sm83.Proofs.Token.Digits
import Sm83.Proofs.Token.Extension

/-!
# Numerals without a value

Reading a token fails for a lexical fault, which has a place and a wording, or at a numeral that has
no value at all: one of its digits has no place value, a whole number has too many digits, or one
with a fraction is too large for the double precision that it goes through.
-/

namespace Sm83

open Text

/-- A run of digits that ends where the digits end. -/
structure DigitRun (digits rest : List Char) : Prop where
  nonempty : digits ≠ []
  digits : ∀ c ∈ digits, isDigit c = true
  ends : headIs isDigit rest = false

/-- The text starts with a numeral that has no value. -/
inductive Unreadable : NumeralFault → List Char → Prop where
  /-- A digit without a place value in a whole number. -/
  | integer {digits rest : List Char} (run : DigitRun digits rest)
      (bare : ∃ c ∈ digits, decimalValue? c = none) :
      Unreadable (.notInteger (String.ofList digits)) (digits ++ rest)
  /-- A whole number that starts with too many digits. -/
  | long {digits others rest : List Char} (run : DigitRun (digits ++ others) rest)
      (values : ∀ c ∈ digits, (decimalValue? c).isSome = true)
      (ends : headIs (fun c => (decimalValue? c).isSome) others = false)
      (many : decimalLimit < digits.length) :
      Unreadable (.tooLong digits.length) (digits ++ others ++ rest)
  /-- A digit without a place value before or after the point. -/
  | fraction {whole fraction rest : List Char} (run : DigitRun whole ('.' :: fraction ++ rest))
      (behind : DigitRun fraction rest)
      (bare : ∃ c ∈ whole ++ fraction, decimalValue? c = none) :
      Unreadable (.notFraction (String.ofList (whole ++ '.' :: fraction)))
        (whole ++ '.' :: fraction ++ rest)
  /-- A number with a point beyond double precision. -/
  | infinite {whole fraction rest : List Char} {n f : Nat}
      (run : DigitRun whole ('.' :: fraction ++ rest)) (behind : DigitRun fraction rest)
      (before : decimal? whole = some n) (after : decimal? fraction = some f)
      (large : Fixed.ofDecimal? n f fraction.length = none) :
      Unreadable .infinite (whole ++ '.' :: fraction ++ rest)

theorem foldlM_decimal_eq_none_iff (n : Nat) (cs : List Char) :
    cs.foldlM (fun n c => (decimalValue? c).map (10 * n + ·)) n = none ↔
      ∃ c ∈ cs, decimalValue? c = none := by
  induction cs generalizing n with
  | nil => simp
  | cons c cs ih =>
    rw [List.foldlM_cons]
    cases hc : decimalValue? c with
    | none => simp [hc]
    | some v => simp [hc, ih]

variable {cs text : List Char}

theorem decimal?_eq_none_iff : decimal? cs = none ↔ ∃ c ∈ cs, decimalValue? c = none :=
  foldlM_decimal_eq_none_iff 0 cs

theorem headIs_drop_takeWhile (p : Char → Bool) (cs : List Char) :
    headIs p (cs.drop (cs.takeWhile p).length) = false := by
  induction cs with
  | nil => rfl
  | cons c cs ih =>
    cases hc : p c with
    | true => simpa [hc] using ih
    | false => simp [headIs, hc]

theorem digitRun_takeWhile (cs : List Char) (h : cs.takeWhile isDigit ≠ []) :
    DigitRun (cs.takeWhile isDigit) (cs.drop (cs.takeWhile isDigit).length) :=
  ⟨h, fun _ => List.mem_takeWhile_imp, headIs_drop_takeWhile _ cs⟩

/-- A run of digits that is no whole number has the fault that is reported for it. -/
theorem unreadable_ofDigits {rest : List Char} (run : DigitRun cs rest)
    (h : natural? 10 (cs.map numeralChar) = none) :
    Unreadable (.ofDigits cs) (cs ++ rest) := by
  rw [natural?_digits run.nonempty run.digits] at h
  let valued (c : Char) := (decimalValue? c).isSome
  have hsplit := takeWhile_append_drop valued cs
  simp only [NumeralFault.ofDigits]
  split
  · next hmany =>
    rw [← hsplit] at run
    conv => rhs; rw [← hsplit]
    exact .long run (fun _ => List.mem_takeWhile_imp) (headIs_drop_takeWhile valued cs) hmany
  · next hfew =>
    refine .integer run ?_
    by_contra hall
    have hvalued : ∀ c ∈ cs, valued c = true := by
      intro c hc
      rw [Option.isSome_iff_ne_none]
      exact fun hnone => hall ⟨c, hc, hnone⟩
    rw [List.takeWhile_eq_self_iff.mpr hvalued] at hfew
    rw [if_neg hfew, decimal?_eq_none_iff] at h
    exact hall h

/-- Why a decimal numeral has no value. -/
theorem unreadable_of_scanDecimal {f : NumeralFault} (hcs : cs.takeWhile isDigit ≠ [])
    (h : scanDecimal cs = .numeral f) : Unreadable f cs := by
  have hrun := digitRun_takeWhile _ hcs
  have hsplit := takeWhile_append_drop isDigit cs
  simp only [scanDecimal] at h
  generalize cs.takeWhile isDigit = whole at h hrun hsplit
  generalize cs.drop whole.length = behind at h hrun hsplit
  subst hsplit
  have hscanned : ∀ value length : Nat, scanned value length ≠ .numeral f := by
    intro value length hscan
    unfold scanned at hscan
    split at hscan
    · cases hscan
    · cases hscan
  have hinteger : natural? 10 (whole.map numeralChar) = none →
      Scan.numeral (.ofDigits whole) = .numeral f → Unreadable f (whole ++ behind) := by
    intro hnone hscan
    cases hscan
    exact unreadable_ofDigits hrun hnone
  split at h
  · next rest =>
    split at h
    · split at h
      · exact absurd h (hscanned _ _)
      · next hnone => exact hinteger hnone h
    · next hfraction =>
      have hdigits := digitRun_takeWhile rest (by simpa using hfraction)
      have hrest := takeWhile_append_drop isDigit rest
      generalize rest.takeWhile isDigit = fraction at h hdigits hrest
      generalize rest.drop fraction.length = after at hdigits hrest
      subst hrest
      rw [← List.cons_append, ← List.append_assoc]
      split at h
      · next n m hwhole hparts =>
        split at h
        · exact absurd h (hscanned _ _)
        · next hlarge =>
          cases h
          exact .infinite hrun hdigits hwhole hparts hlarge
      · next hnone =>
        cases h
        refine .fraction hrun hdigits ?_
        -- one of the two parts has no value
        cases hwhole : decimal? whole with
        | none =>
          rcases decimal?_eq_none_iff.mp hwhole with ⟨c, hc, hbare⟩
          exact ⟨c, List.mem_append_left _ hc, hbare⟩
        | some n =>
          cases hparts : decimal? fraction with
          | none =>
            rcases decimal?_eq_none_iff.mp hparts with ⟨c, hc, hbare⟩
            exact ⟨c, List.mem_append_right _ hc, hbare⟩
          | some m => exact absurd hparts (hnone n m hwhole)
  · split at h
    · exact absurd h (hscanned _ _)
    · next hnone => exact hinteger hnone h

/-- A numeral without a value is one that the text starts with, and no fault is one of a block. -/
def Scan.Justified (cs : List Char) : Scan → Prop
  | .numeral f => Unreadable f cs
  | .fault f _ => (Cause.lexical f).isOrdinary = true
  | .lexeme .. => True

theorem Scan.Justified.ite {p : Prop} [Decidable p] {a b : Scan} (ha : p → a.Justified cs)
    (hb : b.Justified cs) : (if p then a else b).Justified cs := by
  split
  · exact ha ‹p›
  · exact hb

theorem Scan.Justified.scanned (value length : Nat) : (scanned value length).Justified cs :=
  .ite (fun _ => trivial) rfl

theorem justified_scanName (cs : List Char) : (scanName text).Justified cs :=
  .ite (fun _ => trivial) (.ite (fun _ => trivial) trivial)

theorem justified_scanRadix (cs : List Char) {base : Nat} : (scanRadix base text).Justified cs :=
  .ite (fun _ => rfl) (.scanned _ _)

theorem justified_scanPixels (cs : List Char) : (scanPixels text).Justified cs :=
  .ite (fun _ => rfl) (.ite (fun _ => rfl) (.scanned _ _))

theorem isOrdinary_of_stringBody {f : LexicalFault} {offset : Nat}
    (h : stringBody text = .fault f offset) : (Cause.lexical f).isOrdinary = true := by
  fun_induction stringBody text generalizing offset with
  | case1 | case3 | case4 | case6 =>
    cases h
    rfl
  | case2 => cases h
  | case5 _ rest _ _ ih | case7 _ rest _ _ _ _ ih =>
    cases hrest : stringBody rest with
    | closed => simp [hrest, StringScan.cons] at h
    | fault g k =>
      rw [hrest] at h
      cases h
      exact ih hrest

theorem justified_scanString (cs : List Char) : (scanString text).Justified cs := by
  unfold scanString
  split
  · trivial
  · next hbody => exact isOrdinary_of_stringBody hbody

theorem isOrdinary_of_scanDecimal {f : LexicalFault} {offset : Nat}
    (h : scanDecimal text = .fault f offset) : (Cause.lexical f).isOrdinary = true := by
  have hscanned : ∀ value length : Nat, scanned value length = .fault f offset →
      (Cause.lexical f).isOrdinary = true := by
    intro value length hscan
    unfold scanned at hscan
    split at hscan
    · cases hscan
    · cases hscan
      rfl
  simp only [scanDecimal] at h
  repeat' split at h
  all_goals first | exact hscanned _ _ h | cases h

theorem justified_scanDecimal {c : Char} (rest : List Char) (hc : isDigit c = true) :
    (scanDecimal (c :: rest)).Justified (c :: rest) := by
  cases hscan : scanDecimal (c :: rest) with
  | numeral f => exact unreadable_of_scanDecimal (by simp [hc]) hscan
  | lexeme l length => trivial
  | fault f offset => exact isOrdinary_of_scanDecimal hscan

theorem justified_scan (cs : List Char) : (scan cs).Justified cs := by
  cases cs with
  | nil => trivial
  | cons c rest =>
    refine .ite (fun _ => trivial) (.ite (fun _ => justified_scanName _) (.ite (fun _ => ?_) ?_))
    · exact .ite (fun _ => justified_scanName _) rfl
    · refine .ite (justified_scanDecimal rest) (.ite (fun _ => justified_scanRadix _) ?_)
      refine .ite (fun _ => justified_scanRadix _) (.ite (fun _ => justified_scanRadix _) ?_)
      refine .ite (fun _ => justified_scanPixels _) (.ite (fun _ => justified_scanString _) ?_)
      split
      · trivial
      · rfl

/-- A failure to read a token from the text: a lexical fault, or a numeral without a value. -/
def Failure.Lexical (text : List Char) : Failure → Prop
  | .error err => (∃ fault, err.cause = .lexical fault) ∧ err.cause.isOrdinary = true
  | .numeral f => ∃ rest, rest <:+ text ∧ Unreadable f rest
  | .exhausted => False

namespace Cursor

variable {c : Cursor} {source : Source} {f : Failure}

theorem normalToken_fails (h : c.normalToken source = .error f) : f.Lexical c.rest := by
  have hscan := justified_scan (c.pass (gap 0 c.fresh c.rest).length).rest
  rcases normalToken_eq_error h with rfl | ⟨why, n, hfault, rfl⟩ | ⟨why, hnumeral, rfl⟩
  · exact ⟨⟨_, rfl⟩, rfl⟩
  · rw [hfault] at hscan
    exact ⟨⟨_, rfl⟩, hscan⟩
  · rw [hnumeral, rest_pass] at hscan
    exact ⟨_, List.drop_suffix _ _, hscan⟩

theorem argumentToken_fails (h : c.argumentToken source = .error f) : f.Lexical c.rest := by
  rcases argumentToken_eq_error h with ⟨n, rfl⟩
  exact ⟨⟨_, rfl⟩, rfl⟩

theorem blockToken_fails {closing : String} {opening : Option String}
    (h : c.blockToken source closing opening = .error f) :
    f.Lexical c.rest ∨ f = source.errorAt c.line 1 (.lexical (.unterminatedBlock closing)) := by
  rcases blockToken_eq_error h with ⟨n, rfl⟩ | rfl
  · exact .inl ⟨⟨_, rfl⟩, rfl⟩
  · exact .inr rfl

theorem next_fails {setting : Setting} (h : c.next source setting = .error f) :
    f.Lexical c.rest ∨ ∃ closing, setting.closing? = some closing ∧
      f = source.errorAt c.line 1 (.lexical (.unterminatedBlock closing)) := by
  rcases next_cases h with ⟨_, h⟩ | ⟨_, _, h⟩ | ⟨closing, _, hclosing, h⟩
  · exact .inl (normalToken_fails h)
  · exact .inl (argumentToken_fails h)
  · exact (blockToken_fails h).imp_right fun hf => ⟨closing, hclosing, hf⟩

end Cursor

end Sm83
