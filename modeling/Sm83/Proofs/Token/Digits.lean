import Mathlib.Data.List.Forall2
import Mathlib.Data.Nat.Digits.Defs
import Sm83.Token.Scan

/-!
# Digits and the numbers they spell

`Spells` says which number digits stand for. The readers of integer texts find this number, for
digits of a marked base as for decimal digits of any script, unless the decimal digits are more than
a text may have.
-/

namespace Sm83

open List

/-- The first characters are those of the first numbers, which can be gone through one by one. -/
theorem forall_char_lt {P : Char → Prop} {b : Nat} (h : ∀ k < b, P (Char.ofNat k)) :
    ∀ c : Char, c.toNat < b → P c := by
  intro c hc
  have hk := h c.toNat hc
  rwa [Char.ofNat_toNat] at hk

namespace Text

/-- The characters, which are some, are digits whose values make the number in a base, the most
significant one first. -/
structure Spells (digit? : Char → Option Nat) (base : Nat) (cs : List Char) (n : Nat) : Prop where
  ne_nil : cs ≠ []
  digits : ∃ vs, List.Forall₂ (fun c v => digit? c = some v) cs vs ∧
    Nat.ofDigits base vs.reverse = n

/-- The value of a letter or digit as a digit of a base. -/
def digitOf? (base : Nat) (c : Char) : Option Nat :=
  (digitValue? c).filter (· < base)

/-- A character without a meaning of its own in a text: no space, line end or backslash. -/
structure Plain (c : Char) : Prop where
  space : isSpace c = false
  newline : c ≠ '\n'
  carriage : c ≠ '\r'
  slash : c ≠ '\\'

/-- A character without a meaning of its own in an integer text either. -/
structure PlainDigit (c : Char) : Prop extends Plain c where
  ascii : c.toNat < 127
  numeralSpace : isNumeralSpace c = false
  underscore : c ≠ '_'
  minus : c ≠ '-'
  plus : c ≠ '+'

variable {c : Char} {base v n : Nat} {cs ds : List Char} {vs : List Nat}

theorem digitOf?_eq_some_iff : digitOf? base c = some v ↔ digitValue? c = some v ∧ v < base := by
  simp [digitOf?, Option.filter_eq_some_iff]

/-- Reading from left to right gives the number of which the digits are written from the right. -/
theorem foldl_eq_ofDigits (base : Nat) (vs : List Nat) :
    vs.foldl (fun n v => base * n + v) 0 = Nat.ofDigits base vs.reverse := by
  -- what has been read so far is one more digit, above all others
  have hall : ∀ acc, vs.foldl (fun n v => base * n + v) acc =
      Nat.ofDigits base (vs.reverse ++ [acc]) := by
    induction vs with
    | nil => simp
    | cons v vs ih =>
      intro acc
      rw [foldl_cons, ih, reverse_cons, append_assoc, Nat.ofDigits_append,
        Nat.ofDigits_append]
      simp [Nat.ofDigits_cons, Nat.add_comm]
  rw [hall 0, Nat.ofDigits_append_zero]

theorem Spells.forall_mem {digit? : Char → Option Nat} (h : Spells digit? base cs n)
    {P : Char → Prop} (hP : ∀ c v, digit? c = some v → P c) : ∀ c ∈ cs, P c := by
  rcases h.digits with ⟨vs, hvs, -⟩
  clear h
  induction hvs with
  | nil => simp
  | cons hc _ ih => exact forall_mem_cons.mpr ⟨hP _ _ hc, ih⟩

/-! ## Values of characters -/

theorem decimalValue?_cases (h : decimalValue? c = some v) :
    c.isDigit = true ∧ v = c.toNat - 48 ∨
      128 ≤ c.toNat ∧ ∃ z ∈ decimalZeros, z ≤ c.toNat ∧ c.toNat < z + 10 ∧ v = c.toNat - z := by
  unfold decimalValue? at h
  split at h
  · next hdigit =>
    cases h
    exact .inl ⟨hdigit, rfl⟩
  · split at h
    · cases h
    · next hwide =>
      rcases Option.map_eq_some_iff.mp h with ⟨z, hz, rfl⟩
      have hrow := find?_some hz
      simp only [Bool.and_eq_true, decide_eq_true_eq] at hrow
      exact .inr ⟨Nat.le_of_not_lt hwide, z, mem_of_find?_eq_some hz, hrow.1, hrow.2, rfl⟩

theorem isDigit_range (h : c.isDigit = true) : 48 ≤ c.toNat ∧ c.toNat ≤ 57 := by
  simp only [Char.isDigit, Bool.and_eq_true, decide_eq_true_eq, ge_iff_le,
    UInt32.le_iff_toNat_le] at h
  exact h

theorem isSpace_of_decimal (h : decimalValue? c = some v) : isSpace c = false := by
  have hapart : ∀ z ∈ decimalZeros, ∀ range ∈ spaceRanges, range.2 < z ∨ z + 10 ≤ range.1 := by
    decide +kernel
  have hrow : ∃ z ∈ decimalZeros, z ≤ c.toNat ∧ c.toNat < z + 10 := by
    rcases decimalValue?_cases h with ⟨hdigit, _⟩ | ⟨_, z, hz, hlow, hhigh, _⟩
    · have hrange := isDigit_range hdigit
      exact ⟨48, by decide, hrange.1, by omega⟩
    · exact ⟨z, hz, hlow, hhigh⟩
  rcases hrow with ⟨z, hz, hlow, hhigh⟩
  rw [isSpace, inRanges, any_eq_false]
  intro range hrange hin
  simp only [Bool.and_eq_true, decide_eq_true_eq] at hin
  rcases hapart z hz range hrange with hbelow | habove
  · omega
  · omega

theorem numeralChar_of_decimal (h : decimalValue? c = some v) :
    v < 10 ∧ numeralChar c = Char.ofNat (48 + v) := by
  rcases decimalValue?_cases h with ⟨hdigit, rfl⟩ | ⟨hwide, z, _, hlow, hhigh, rfl⟩
  · have hrange := isDigit_range hdigit
    refine ⟨by omega, ?_⟩
    rw [numeralChar, if_pos (by omega), Nat.add_sub_cancel' hrange.1, Char.ofNat_toNat]
  · refine ⟨by omega, ?_⟩
    simp only [numeralChar, if_neg (show ¬ c.toNat < 127 by omega), isSpace_of_decimal h, h]
    rfl

theorem toNat_le_of_range {low high : Char} (h : (decide (low ≤ c) && decide (c ≤ high)) = true) :
    c.toNat ≤ high.toNat := by
  simp only [Bool.and_eq_true, decide_eq_true_eq, Char.le_def, UInt32.le_iff_toNat_le] at h
  exact h.2

theorem plainDigit_of_digitValue? (h : digitValue? c = some v) : PlainDigit c := by
  have hlow : c.toNat < 127 := by
    unfold digitValue? at h
    split at h
    · next hc => exact Nat.lt_of_le_of_lt (toNat_le_of_range hc) (by decide)
    · split at h
      · next hc => exact Nat.lt_of_le_of_lt (toNat_le_of_range hc) (by decide)
      · split at h
        · next hc => exact Nat.lt_of_le_of_lt (toNat_le_of_range hc) (by decide)
        · cases h
  have hall : ∀ c : Char, c.toNat < 127 → (digitValue? c).isSome → isSpace c = false ∧
      isNumeralSpace c = false ∧ c ∉ ['\n', '\r', '\\', '_', '-', '+'] :=
    forall_char_lt (by decide +kernel)
  rcases hall c hlow (by simp [h]) with ⟨hspace, hnumeral, hother⟩
  simp only [mem_cons, not_mem_nil, or_false, not_or] at hother
  rcases hother with ⟨hnewline, hcarriage, hslash, hunderscore, hminus, hplus⟩
  exact ⟨⟨hspace, hnewline, hcarriage, hslash⟩, hlow, hnumeral, hunderscore, hminus, hplus⟩

theorem plainDigit_of_digitOf? (h : digitOf? base c = some v) : PlainDigit c :=
  plainDigit_of_digitValue? (digitOf?_eq_some_iff.mp h).1

/-- In a marked base the scanner and the reader of integers agree on what is a digit. -/
theorem digitOf?_scanned (hbase : base ∈ [16, 8, 2]) (h : digitOf? base c = some v) :
    isDigitOf base c = true ∧ (if c.isDigit then c.toNat - 48 else c.toLower.toNat - 87) = v ∧
      radixMark? base ≠ some c.toLower := by
  have hall : ∀ c : Char, c.toNat < 127 → ∀ base ∈ [16, 8, 2], (digitOf? base c).all fun v =>
      isDigitOf base c && (if c.isDigit then c.toNat - 48 else c.toLower.toNat - 87) == v &&
        radixMark? base != some c.toLower :=
    forall_char_lt (by decide +kernel)
  have hc := hall c (plainDigit_of_digitOf? h).ascii base hbase
  rw [h] at hc
  simpa [and_assoc] using hc

/-- A digit of any script has the value of the ASCII digit that integer texts see in its place. -/
theorem digitOf?_numeralChar (h : isDigit c = true) :
    digitOf? 10 (numeralChar c) = decimalValue? c ∧ numeralChar c ≠ '_' := by
  cases hv : decimalValue? c with
  | some v =>
    have hall : ∀ v < 10, digitOf? 10 (Char.ofNat (48 + v)) = some v := by decide
    rcases numeralChar_of_decimal hv with ⟨hlt, hchar⟩
    have hdigit := hall v hlt
    rw [hchar]
    exact ⟨hdigit, (plainDigit_of_digitOf? hdigit).underscore⟩
  | none =>
    have hbare : inRanges bareDigitRanges c = true := by simpa [isDigit, hv] using h
    have hapart : ∀ bare ∈ bareDigitRanges, 127 ≤ bare.1 ∧
        ∀ range ∈ spaceRanges, range.2 < bare.1 ∨ bare.2 < range.1 := by
      decide +kernel
    rcases any_eq_true.mp hbare with ⟨bare, hmem, hin⟩
    simp only [Bool.and_eq_true, decide_eq_true_eq] at hin
    rcases hapart bare hmem with ⟨hwide, hspaces⟩
    have hspace : isSpace c = false := by
      rw [isSpace, inRanges, any_eq_false]
      intro range hrange hinside
      simp only [Bool.and_eq_true, decide_eq_true_eq] at hinside
      have := hspaces range hrange
      omega
    have hchar : numeralChar c = c := by
      simp only [numeralChar, if_neg (show ¬ c.toNat < 127 by omega), hspace, hv]
      rfl
    have hunder : '_'.toNat = 95 := rfl
    rw [hchar]
    refine ⟨?_, by rintro rfl; omega⟩
    rw [Option.eq_none_iff_forall_ne_some]
    intro v hdigit
    have := (plainDigit_of_digitOf? hdigit).ascii
    omega

/-! ## Integer texts -/

theorem digitRun?_cons (hc : c ≠ '_') (acc : Nat) :
    digitRun? base acc (c :: cs) =
      (digitOf? base c).bind fun v => digitRun? base (base * acc + v) cs := by
  rw [digitRun?]
  · cases hv : digitValue? c with
    | none => simp [digitOf?, hv]
    | some v => by_cases hlt : v < base <;> simp [digitOf?, hv, hlt, Option.filter]
  · intro _ _ hunderscore
    exact absurd hunderscore hc

theorem digitRun?_eq (acc : Nat) (h : List.Forall₂ (fun c v => digitOf? base c = some v) cs vs) :
    digitRun? base acc cs = some (vs.foldl (fun n v => base * n + v) acc) := by
  induction h generalizing acc with
  | nil => rfl
  | cons hc _ ih =>
    rw [digitRun?_cons (plainDigit_of_digitOf? hc).underscore, hc]
    exact ih _

theorem digitRun?_map_numeralChar (h : ∀ c ∈ cs, isDigit c = true) (acc : Nat) :
    digitRun? 10 acc (cs.map numeralChar) =
      cs.foldlM (fun n c => (decimalValue? c).map (10 * n + ·)) acc := by
  induction cs generalizing acc with
  | nil => rfl
  | cons c cs ih =>
    rcases digitOf?_numeralChar (h c mem_cons_self) with ⟨hvalue, hunderscore⟩
    rw [map_cons, digitRun?_cons hunderscore, hvalue, foldlM_cons]
    cases decimalValue? c with
    | none => rfl
    | some v => exact ih (fun c hc => h c (mem_cons_of_mem _ hc)) _

theorem exceedsLimit_eq (h : '_' ∉ ds) :
    exceedsLimit base ds = decide (base = 10 ∧ decimalLimit < ds.length) := by
  have hfilter : ds.filter (· ≠ '_') = ds := by
    refine filter_eq_self.mpr fun c hc => ?_
    simpa using fun heq : c = '_' => h (heq ▸ hc)
  rw [exceedsLimit, hfilter, Bool.decide_and]

theorem natural?_eq (hne : ds ≠ []) (hplain : '_' ∉ ds)
    (hmark : ∀ c ∈ ds, radixMark? base ≠ some c.toLower) :
    natural? base ds = if exceedsLimit base ds then none else digitRun? base 0 ds := by
  have hunmarked : dropRadixMark base ds = ds := by
    unfold dropRadixMark
    split
    · next mark rest => rw [if_neg (hmark mark (by simp))]
    · rfl
  unfold natural?
  rw [hunmarked]
  split
  · exact absurd rfl hne
  · exact absurd mem_cons_self hplain
  · rfl

/-- Digits, which are some, are read as the number they spell if they are not too many. -/
theorem natural?_digits (hne : cs ≠ []) (h : ∀ c ∈ cs, isDigit c = true) :
    natural? 10 (cs.map numeralChar) =
      if decimalLimit < cs.length then none else decimal? cs := by
  have hplain : '_' ∉ cs.map numeralChar := by
    intro hmem
    rcases mem_map.mp hmem with ⟨c, hc, hchar⟩
    exact (digitOf?_numeralChar (h c hc)).2 hchar
  rw [natural?_eq (by simpa using hne) hplain (by simp [radixMark?]), exceedsLimit_eq hplain,
    digitRun?_map_numeralChar h, length_map]
  simp [decimal?]

theorem dropWhile_eq_self {p : Char → Bool} (h : ∀ c ∈ cs, p c = false) : cs.dropWhile p = cs := by
  cases cs with
  | nil => rfl
  | cons c cs => rw [dropWhile_cons_of_neg (by simp [h c mem_cons_self])]

theorem trimmed_eq_self (h : ∀ c ∈ cs, isSpace c = false) : trimmed cs = cs := by
  have hreverse : ∀ c ∈ cs.reverse, isSpace c = false := fun c hc => h c (mem_reverse.mp hc)
  rw [trimmed, dropWhile_eq_self h, dropWhile_eq_self hreverse, reverse_reverse]

/-- Without spaces and a sign, an integer text is an unsigned one. -/
theorem integer?_eq (h : ∀ c ∈ cs.map numeralChar, PlainDigit c) :
    integer? base cs = (natural? base (cs.map numeralChar)).map fun n => (n : Int) := by
  have hbare : (((cs.map numeralChar).dropWhile isNumeralSpace).reverse.dropWhile
      isNumeralSpace).reverse = cs.map numeralChar := by
    rw [dropWhile_eq_self fun c hc => (h c hc).numeralSpace,
      dropWhile_eq_self fun c hc => (h c (mem_reverse.mp hc)).numeralSpace,
      reverse_reverse]
  simp only [integer?, hbare]
  split
  · next heq => exact absurd rfl (h '-' (heq ▸ mem_cons_self)).minus
  · next heq => exact absurd rfl (h '+' (heq ▸ mem_cons_self)).plus
  · rfl

/-! ## Spelled numbers -/

theorem decimal?_eq (h : List.Forall₂ (fun c v => decimalValue? c = some v) cs vs) :
    decimal? cs = some (Nat.ofDigits 10 vs.reverse) := by
  have hall : ∀ acc, cs.foldlM (fun n c => (decimalValue? c).map (10 * n + ·)) acc =
      some (vs.foldl (fun n v => 10 * n + v) acc) := by
    induction h with
    | nil => exact fun _ => rfl
    | cons hc _ ih =>
      intro acc
      rw [foldlM_cons, hc]
      exact ih _
  rw [decimal?, hall 0, foldl_eq_ofDigits]

theorem Spells.integer?_marked (hbase : base ∈ [16, 8, 2]) (h : Spells (digitOf? base) base cs n) :
    integer? base cs = some (n : Int) := by
  have hplain : ∀ c ∈ cs, PlainDigit c := h.forall_mem fun _ _ => plainDigit_of_digitOf?
  have hsame : cs.map numeralChar = cs := by
    have heach : ∀ c ∈ cs, numeralChar c = c :=
      fun c hc => by rw [numeralChar, if_pos (hplain c hc).ascii]
    rw [map_congr_left heach, map_id']
  have hunder : '_' ∉ cs := fun hmem => (hplain _ hmem).underscore rfl
  have hwithin : exceedsLimit base cs = false := by
    rw [exceedsLimit_eq hunder, decide_eq_false_iff_not]
    rintro ⟨rfl, _⟩
    exact absurd hbase (by decide)
  have hmark := h.forall_mem fun c v hc => (digitOf?_scanned hbase hc).2.2
  rw [integer?_eq (hsame.symm ▸ hplain), hsame, natural?_eq h.ne_nil hunder hmark, hwithin]
  rcases h.digits with ⟨vs, hvs, rfl⟩
  rw [if_neg Bool.false_ne_true, digitRun?_eq 0 hvs, foldl_eq_ofDigits]
  rfl

theorem Spells.isDigit (h : Spells decimalValue? 10 cs n) : ∀ c ∈ cs, isDigit c = true :=
  h.forall_mem fun c v hc => by simp [Text.isDigit, hc]

theorem Spells.natural? (h : Spells decimalValue? 10 cs n) :
    natural? 10 (cs.map numeralChar) = if decimalLimit < cs.length then none else some n := by
  rcases h.digits with ⟨vs, hvs, rfl⟩
  rw [natural?_digits h.ne_nil h.isDigit, decimal?_eq hvs]

theorem Spells.integer?_decimal (h : Spells decimalValue? 10 cs n) :
    integer? 10 cs = if decimalLimit < cs.length then none else some (n : Int) := by
  have hplain : ∀ c ∈ cs.map numeralChar, PlainDigit c := by
    refine forall_mem_map.mpr (h.forall_mem fun c v hc => ?_)
    have hvalue := (digitOf?_numeralChar (c := c) (by simp [Text.isDigit, hc])).1
    exact plainDigit_of_digitOf? (hvalue.trans hc)
  rw [integer?_eq hplain, h.natural?]
  split <;> rfl

end Text

end Sm83
