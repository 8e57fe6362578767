import Sm83.Proofs.Expr.Words
import Sm83.Proofs.Run.Listing

/-!
# Offsets from the stack pointer

Behind the stack pointer stands a chain of signed terms. Its first sign applies to all of the rest,
which is read as an expression of its own. So the offset is that of ordinary arithmetic where the
first sign is a plus or stands before the only term.
-/

namespace Sm83

open Word Outcome

namespace Expr

/-- The tokens are signed terms, each of which binds tighter than a sign between two of them. A term
is marked if it is subtracted. -/
inductive Terms (qualify : String → Except Cause String) : List Token → List (Bool × Expr) → Prop
  | nil : Terms qualify [] []
  | cons {t : Token} {xs ys : List Token} {negative : Bool} {b : Expr} {rest : List (Bool × Expr)}
      (ht : t.lexeme = .punct (if negative then .minus else .plus)) (hb : Derives qualify 4 xs b)
      (h : Terms qualify ys rest) : Terms qualify (t :: (xs ++ ys)) ((negative, b) :: rest)

/-- Terms are added and subtracted from left to right. -/
def plusTerms (a : Expr) (terms : List (Bool × Expr)) : Expr :=
  terms.foldl (fun e term => .binary (if term.1 then .sub else .add) e term.2) a

/-- What terms with known values add up to. -/
def amount (r : Resolver) : List (Bool × Expr) → Except Obstacle Int
  | [] => .ok 0
  | (negative, b) :: rest => do
    let v ← b.value r
    let n ← amount r rest
    pure ((if negative then -v else v) + n)

variable {qualify : String → Except Cause String} {r : Resolver} {a a' b : Expr} {ts : List Token}
  {terms rest : List (Bool × Expr)}

theorem Terms.continues (h : Terms qualify ts terms) (a : Expr) :
    Continues qualify 3 a ts (plusTerms a terms) := by
  induction h generalizing a with
  | nil => exact .done a
  | @cons t xs ys negative b rest ht hb _ ih =>
    have hsign : binding? t.lexeme = some (3, if negative then .sub else .add) := by
      rw [ht]
      cases negative <;> rfl
    exact .more hsign hb (ih _)

theorem value_plusTerms_congr (h : a.value r = a'.value r) (terms : List (Bool × Expr)) :
    (plusTerms a terms).value r = (plusTerms a' terms).value r := by
  induction terms generalizing a a' with
  | nil => exact h
  | cons term rest ih =>
    apply ih
    rw [value, value, h]

theorem value_plusTerms {v n : Int} (ha : a.value r = .ok v) (hv : Word.Fits v)
    (hn : amount r terms = .ok n) : (plusTerms a terms).value r = .ok (wrap (v + n)) := by
  induction terms generalizing a v n with
  | nil =>
    cases hn
    rw [Int.add_zero, wrap_eq_self hv.1 hv.2]
    exact ha
  | cons term rest ih =>
    rcases term with ⟨negative, b⟩
    rcases bind_eq_ok_iff.mp hn with ⟨u, hu, hn⟩
    rcases bind_eq_ok_iff.mp hn with ⟨m, hm, hn⟩
    cases hn
    have hbinary : (binary (if negative then .sub else .add) a b).value r =
        .ok (wrap (v + if negative then -u else u)) := by
      rw [value, ha, hu]
      cases negative <;> rfl
    refine (ih hbinary (fits_wrap _) hm).trans ?_
    rw [wrap, wrap, Int.bmod_add_bmod, Int.add_assoc]
    rfl

theorem value_zero_add (h : ∀ v, b.value r = .ok v → Word.Fits v) :
    (binary .add (literal 0) b).value r = b.value r := by
  rw [value, value]
  cases hb : b.value r with
  | ok v =>
    show Except.ok (wrap (0 + v)) = _
    rw [Int.zero_add, wrap_eq_self (h v hb).1 (h v hb).2]
  | error o => cases o <;> rfl

theorem value_zero_sub : (binary .sub (literal 0) b).value r = (unary .neg b).value r := by
  rw [value, value, value]
  cases b.value r with
  | ok v =>
    show Except.ok (wrap (0 - v)) = Except.ok (wrap (-v))
    rw [Int.zero_sub]
  | error o => cases o <;> rfl

/-- What is read behind the stack pointer. The first sign applies to the whole chain. -/
def behindPointer (negative : Bool) (b : Expr) (rest : List (Bool × Expr)) : Expr :=
  if negative then .unary .neg (plusTerms b rest) else plusTerms b rest

/-- The chain in ordinary arithmetic. -/
abbrev total (negative : Bool) (b : Expr) (rest : List (Bool × Expr)) : Expr :=
  plusTerms (.literal 0) ((negative, b) :: rest)

theorem value_behindPointer {negative : Bool} (hfits : ∀ v, b.value r = .ok v → Word.Fits v)
    (h : negative = false ∨ rest = []) :
    (behindPointer negative b rest).value r = (total negative b rest).value r := by
  cases negative with
  | false => exact value_plusTerms_congr (value_zero_add hfits).symm rest
  | true =>
    rcases h with h | rfl
    · cases h
    · exact value_zero_sub.symm

theorem value_behindPointer_minus {v n : Int} (hb : b.value r = .ok v) (hv : Word.Fits v)
    (hn : amount r rest = .ok n) :
    (behindPointer true b rest).value r = (total true b rest).value r ↔ 2 * n % 2 ^ 32 = 0 := by
  have hnegative : (binary .sub (literal 0) b).value r = .ok (wrap (0 - v)) := by
    rw [value, hb]
    rfl
  have hread : (behindPointer true b rest).value r = .ok (wrap (-wrap (v + n))) := by
    show (unary .neg _).value r = _
    rw [value, value_plusTerms hb hv hn]
    rfl
  have htotal : (plusTerms (binary .sub (literal 0) b) rest).value r =
      .ok (wrap (wrap (0 - v) + n)) :=
    value_plusTerms hnegative (fits_wrap _) hn
  show _ = (plusTerms (binary .sub (literal 0) b) rest).value r ↔ _
  rw [hread, htotal, Except.ok.injEq]
  simp only [wrap, modulus, Int.bmod]
  omega

end Expr

/-- The two offsets come to the same instruction: one record or one error, or else each is kept for
later. -/
def Expr.OffsetsAlike (r : Resolver) (e e' : Expr) : Prop :=
  let encoded e := encode r .ld [.register .hl, .stackOffset e]
  match e.value r with
  | .error (.deferred _) => encoded e = .ok (.arg8 0xF8 e none) ∧
      encoded e' = .ok (.arg8 0xF8 e' none)
  | _ => encoded e = encoded e'

theorem encode_stackOffset (r : Resolver) (e : Expr) :
    encode r .ld [.register .hl, .stackOffset e] =
      (e.operand r .displacement).map fun operand => .arg8 0xF8 operand none := by
  have hshape : Encode.shape r [.register .hl, .stackOffset e] .ld =
      Encode.withByte r 0xF8 .displacement e := rfl
  rw [encode, hshape, Encode.withByte]
  cases e.operand r .displacement <;> rfl

theorem Expr.offsetsAlike_of_value {r : Resolver} {e e' : Expr} (h : e.value r = e'.value r) :
    OffsetsAlike r e e' := by
  simp only [OffsetsAlike, encode_stackOffset, operand, ← h]
  split
  · next hdeferred =>
    rw [hdeferred]
    exact ⟨rfl, rfl⟩
  · next hknown =>
    cases hvalue : e.value r with
    | ok v => rfl
    | error o =>
      cases o with
      | deferred missing => exact absurd hvalue (hknown missing)
      | _ => rfl

namespace Step

/-- Read from the tokens in the state, the instruction has these operands: it comes to their record,
or fails as they do. -/
def Assembles (s : State) (m : Mnemonic) (ts : List Token) (operands : List Operand) : Prop :=
  ∀ run : Run, run.state = s → run.stream.Delivers ts →
    match encode s.resolver m operands with
    | .ok record => ∃ location run', instruction m run = .ok ⟨location, s.encoded m operands record⟩
        run'
    | .error cause => ∃ e run', instruction m run = .error (.error e) run' ∧ e.cause = cause

theorem assembles_of_runsIn {s : State} {m : Mnemonic} {t : Token} {ts rest : List Token}
    {os : List Operand} (ht : t.lexeme ≠ .eof) (h : RunsIn s operands ts os rest) :
    Assembles s m (t :: ts) os := by
  have hword : Runs advance (t :: ts) t ts := .reading (.advance (Token.isEnd_eq_false ht) _)
  intro run hs hrun
  rcases hword.runsIn s run hs hrun with ⟨run₁, hadvance, hrun₁, hs₁⟩
  rcases h run₁ hs₁ hrun₁ with ⟨run₂, hos, _, rfl⟩
  have hinstruction : instruction m run = _ :=
    (run_bind_of_ok hadvance _).trans (run_bind_of_ok hos _)
  have hlocated : located t (do ofExcept (encode (← resolver) m os)) run₂ =
      locatedAt _ _ (ofExcept (encode run₂.state.resolver m os)) run₂ := rfl
  cases hencode : encode run₂.state.resolver m os with
  | ok record =>
    rw [hencode] at hlocated
    exact ⟨_, _, hinstruction.trans (run_bind_of_ok hlocated _)⟩
  | error cause =>
    rw [hencode] at hlocated
    exact ⟨_, _, hinstruction.trans (run_bind_of_error hlocated _), rfl⟩

variable {s : State} {e : Expr} {hl comma sp sign stop : Token} {ts : List Token}

/-- The operands of a load of the stack pointer and a chain: the first sign applies to all of it. -/
theorem runsIn_offsetOperands (negative : Bool) (after : List Token)
    (hhl : hl.lexeme = .keyword "hl") (hcomma : comma.lexeme = .punct .comma)
    (hsp : sp.lexeme = .keyword "sp")
    (hsign : sign.lexeme = .punct (if negative then .minus else .plus))
    (h : Expr.Derives s.qualify 0 ts e) (hstop : stop.lexeme = .newline ∨ stop.lexeme = .eof) :
    RunsIn s operands (hl :: comma :: sp :: sign :: (ts ++ stop :: after))
      [.register .hl, .stackOffset (if negative then .unary .neg e else e)] (stop :: after) := by
  have hends : EndsItem (stop :: after) := ⟨stop, after, rfl, by simpa using .inr hstop⟩
  have hdecline : stop.lexeme.isPunct .comma = false := by
    rcases hstop with hstop | hstop <;> rw [hstop] <;> rfl
  have hfirst := runs_register (r := .hl) (by decide) hhl
    ⟨comma, sp :: sign :: (ts ++ stop :: after), rfl, by simp [hcomma]⟩
  have hlast : ∀ n os, Runs (moreItems operand (n + 1) os) (stop :: after) os (stop :: after) :=
    fun n os =>
    (Runs.decline hdecline after).bind (.pure os _)
  have hmore : ∀ n, RunsIn s (moreItems operand (n + 2) [.register .hl])
      (comma :: sp :: sign :: (ts ++ stop :: after)) _ (stop :: after) := fun n =>
    ((Runs.accept hcomma _).runsIn s).bind ((runsIn_stackOffset negative hsp hsign h hends).bind
      ((hlast n _).runsIn s))
  have hline : Runs atLineEnd (hl :: comma :: sp :: sign :: (ts ++ stop :: after)) false _ :=
    (Runs.peek hl _).bind (by rw [hhl]; exact .pure _ _)
  refine (hline.runsIn s).bind ((hfirst.runsIn s).bind ?_)
  -- the bound on the items is that of the stream, which is above the number of tokens left
  intro run hs hrun
  have hbound := hrun.length_lt_bound
  rw [List.length_cons, List.length_cons] at hbound
  rcases Nat.exists_eq_add_of_le' (show 2 ≤ run.stream.bound by omega) with ⟨n, hn⟩
  show ∃ run', moreItems operand run.stream.bound _ run = _ ∧ _
  rw [hn]
  exact hmore n run hs hrun

/-- Behind the stack pointer, a first minus negates all of the chain that follows it. So a chain of
signed terms is encoded as the same chain in brackets is where its first sign is a plus or its only
one. Behind a first minus and before known values, it has the value of ordinary arithmetic only if
twice the sum of the later terms is zero as a word. -/
theorem offset_chain {s : State} {chain head zero : List Token} {close stop : Token}
    {after : List Token} {negative : Bool} {b : Expr} {rest : List (Bool × Expr)}
    (hchain : Expr.Terms s.qualify chain ((negative, b) :: rest))
    (hhead : head.map Token.lexeme = [.keyword "ld", .keyword "hl", .punct .comma, .keyword "sp"])
    (hzero : zero.map Token.lexeme = [.punct .plus, .punct .leftParen, .number 0])
    (hclose : close.lexeme = .punct .rightParen)
    (hstop : stop.lexeme = .newline ∨ stop.lexeme = .eof) :
    let offset := Expr.behindPointer negative b rest
    let sum := Expr.total negative b rest
    Assembles s .ld (head ++ (chain ++ stop :: after)) [.register .hl, .stackOffset offset] ∧
    Assembles s .ld (head ++ (zero ++ (chain ++ close :: stop :: after)))
      [.register .hl, .stackOffset sum] ∧
    ∀ r, (∀ v, b.value r = .ok v → Word.Fits v) →
      (negative = false ∨ rest = [] →
        offset.value r = sum.value r ∧ Expr.OffsetsAlike r offset sum) ∧
      (negative = true → ∀ v n, b.value r = .ok v → Expr.amount r rest = .ok n →
        (offset.value r = sum.value r ↔ 2 * n % 2 ^ 32 = 0)) := by
  intro offset sum
  -- in brackets the chain starts from zero, so its first sign is an operator like the others
  have htotal : ∀ number : Token, number.lexeme = .number 0 →
      Expr.Derives s.qualify 0 (number :: chain) sum := fun number hnumber =>
    ((hchain.continues _).derives ((Expr.Derives.number hnumber).mono (by omega) (by omega))).mono
      (by omega) (by omega)
  rcases hchain with _ | @⟨sign, xs, ys, _, _, _, hsign, hb, hrest⟩
  -- behind the pointer the first sign is not part of the expression, and applies to all of it
  have hread : Expr.Derives s.qualify 0 (xs ++ ys) (Expr.plusTerms b rest) :=
    ((hrest.continues b).derives (.looser (by omega) hb)).mono (by omega) (by omega)
  rcases head with _ | ⟨ld, _ | ⟨hl, _ | ⟨comma, _ | ⟨sp, _ | _⟩⟩⟩⟩ <;> simp at hhead
  rcases zero with _ | ⟨plus, _ | ⟨left, _ | ⟨number, _ | _⟩⟩⟩ <;> simp at hzero
  rcases hhead with ⟨hld, hhl, hcomma, hsp⟩
  rcases hzero with ⟨hplus, hleft, hnumber⟩
  refine ⟨?_, ?_, ?_⟩
  · have hruns := runsIn_offsetOperands negative after hhl hcomma hsp hsign hread hstop
    simpa [offset, Expr.behindPointer] using assembles_of_runsIn (m := .ld) (by simp [hld]) hruns
  · have hgroup :=
      (Expr.Derives.group hleft (htotal number hnumber) hclose).mono (Nat.zero_le 8) (Nat.le_refl 8)
    have hruns := runsIn_offsetOperands false after hhl hcomma hsp hplus hgroup hstop
    simpa using assembles_of_runsIn (m := .ld) (by simp [hld]) hruns
  · intro r hfits
    refine ⟨fun h => ?_, ?_⟩
    · have hvalue := Expr.value_behindPointer hfits h
      exact ⟨hvalue, Expr.offsetsAlike_of_value hvalue⟩
    · rintro rfl v n hv hn
      exact Expr.value_behindPointer_minus hv (hfits v hv) hn

/-- `ld hl, sp + 3 - 1`. -/
theorem offset_chain_plus : let token l : Token := ⟨l, 1, 1, .normal⟩
    let head := [.keyword "ld", .keyword "hl", .punct .comma, .keyword "sp"].map token
    let chain := [.punct .plus, .number 3, .punct .minus, .number 1].map token
    let offset := Expr.behindPointer false (.literal 3) [(true, .literal 1)]
    Assembles (.fresh false) .ld (head ++ (chain ++ [token .eof]))
      [.register .hl, .stackOffset offset] ∧ offset.value .empty = .ok 2 := by
  intro token head chain offset
  have hchain : Expr.Terms (State.fresh false).qualify chain
      [(false, .literal 3), (true, .literal 1)] :=
    .cons rfl ((Expr.Derives.number rfl).mono (by omega) (by omega))
      (.cons rfl ((Expr.Derives.number rfl).mono (by omega) (by omega)) .nil)
  rcases @offset_chain _ chain head ([.punct .plus, .punct .leftParen, .number 0].map token)
    (token (.punct .rightParen)) (token .eof) [] false _ _ hchain rfl rfl rfl (.inr rfl) with
    ⟨hassembles, _, hvalues⟩
  refine ⟨hassembles, ?_⟩
  have hfits : ∀ v, (Expr.literal 3).value .empty = .ok v → Word.Fits v := by
    rintro _ ⟨⟩
    decide
  exact ((hvalues .empty hfits).1 (.inl rfl)).1

/-- `ld hl, sp - 1 - 1` has the offset `0`, and in brackets it is `-2`. -/
theorem offset_chain_minus :
    let reads (text : String) (offset : Expr) (byte : Int) :=
      endsWith (fun _ r => r.statements.map (·.form) =
      [.instruction .ld [.register .hl, .stackOffset offset] (.arg8 0xF8 (.literal byte) none) 0
        none])
      (Run.parse (.ofText text "") (.fresh false))
    let one := Expr.literal 1
    reads "ld hl, sp - 1 - 1" (.unary .neg (.binary .sub one one)) 0 = true ∧
      reads "ld hl, sp + (0 - 1 - 1)" (.binary .sub (.binary .sub (.literal 0) one) one) 254 =
        true := by
  decide +kernel

end Step

end Sm83
