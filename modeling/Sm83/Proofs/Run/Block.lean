import Sm83.Proofs.Run.Extent
import Sm83.Proofs.Token.Inserted

/-!
# Lines with a block

A line that defines a macro or repeats something has a raw block behind it. Such a line is read up
to the block, token by token as any other line is, and then the block is read and the line ends
behind it.
-/

namespace Sm83

open Outcome

/-- What a raw block is the body of. -/
inductive BlockUse where
  | definition (name : String)
  | repetition (count : Expr)
  deriving DecidableEq, Repr

namespace BlockUse

/-- The words that close and open the block. -/
def words : BlockUse → BlockWords
  | definition _ => .macros
  | repetition _ => .repetitions

/-- What is said with a body. -/
def form (body : String) : BlockUse → Form
  | definition name => .macroBody name body
  | repetition count => .repetition count body

/-- What is noted of a body. -/
def events (body : String) : BlockUse → List Event
  | definition name => [.macroDefined name (body.toList.count '\n')]
  | repetition _ => []

end BlockUse

/-- Statements that have a block. -/
def Form.isBlock : Form → Bool
  | macroBody .. | repetition .. => true
  | _ => false

theorem BlockUse.isBlock_form (use : BlockUse) (body : String) :
    (use.form body).isBlock = true := by
  cases use <;> rfl

namespace Step

variable {α β : Type}

/-- The block at the end of a line, and what is said with it. -/
def readBlock (use : BlockUse) (before : List Statement) (t : Token) : Step (List Statement) := do
  let body ← rawBlock use.words.closing use.words.opening
  endLine
  note (use.events body)
  pure (before ++ [⟨← locationOf t, use.form body⟩])

/-- Two outcomes that differ at most in an error of the source. -/
structure Akin (p q : EStateM.Result Failure Run α) : Prop where
  ok : ∀ a w, p = .ok a w ↔ q = .ok a w
  exhausted : ∀ w, p = .error .exhausted w ↔ q = .error .exhausted w

namespace Akin

variable {p q : EStateM.Result Failure Run α}

theorem refl (p : EStateM.Result Failure Run α) : Akin p p :=
  ⟨fun _ _ => Iff.rfl, fun _ => Iff.rfl⟩

theorem trans {o : EStateM.Result Failure Run α} (h : Akin p q) (h' : Akin q o) : Akin p o :=
  ⟨fun a w => (h.ok a w).trans (h'.ok a w), fun w => (h.exhausted w).trans (h'.exhausted w)⟩

theorem bind {x y : Step α} {r v : Run} (h : Akin (x r) (y v)) (k : α → Step β) :
    Akin ((x >>= k) r) ((y >>= k) v) := by
  -- both succeed alike, or both fail; only a failure by exhaustion has to be the same
  cases hy : y v with
  | ok a w =>
    rw [run_bind_of_ok hy, run_bind_of_ok ((h.ok a w).mpr hy)]
    exact .refl _
  | error f w =>
    rw [run_bind_of_error hy]
    cases hx : x r with
    | ok a w' =>
      rw [(h.ok a w').mp hx] at hy
      cases hy
    | error g w' =>
      rw [run_bind_of_error hx]
      refine ⟨fun b u => ⟨fun hb => (by cases hb), fun hb => (by cases hb)⟩, fun u => ?_⟩
      have hexhausted := h.exhausted u
      rw [hx, hy] at hexhausted
      constructor
      · intro hu
        cases hu
        cases hexhausted.mp rfl
        rfl
      · intro hu
        cases hu
        cases hexhausted.mpr rfl
        rfl

theorem located (x : Step α) (t : Token) (r : Run) : Akin (located t x r) (x r) := by
  show Akin (locatedAt _ _ x r) (x r)
  unfold locatedAt
  cases hx : x r with
  | ok a w => exact .refl _
  | error f w =>
    cases f with
    | error e =>
      refine ⟨fun b u => ⟨fun hb => (by cases hb), fun hb => (by cases hb)⟩, fun u => ?_⟩
      exact ⟨fun hu => (by cases hu), fun hu => (by cases hu)⟩
    | numeral fault => exact .refl _
    | exhausted => exact .refl _

end Akin

/-- From a run on, a step comes to another step at a later run. It goes the same way from a twin of
the run, unless it runs out of fuel. -/
structure LeadsTo (x : Step α) (r : Run) (k : Step α) (v : Run) : Prop where
  onward : r.stream.Onward v.stream
  akin : Akin (x r) (k v)
  twin : ∀ {u u' r'}, Run.Twin u u' r r' → v.stream.cursor.Within u →
    (∃ v', Run.Twin u u' v v' ∧ Akin (x r') (k v')) ∨ ∃ w, x r' = .error .exhausted w

namespace LeadsTo

variable {x y k : Step α} {r v w : Run} {a : α}

theorem of_ok {Q : α → Prop} (hy : Woven .free (fun _ => true) y Q) (h : y r = .ok a v)
    (k : α → Step β) : LeadsTo (y >>= k) r (k a) v := by
  refine ⟨hy.onward h, ?_, ?_⟩
  · rw [run_bind_of_ok h]
    exact .refl _
  · intro u u' r' htwin hwithin
    rcases hy.retraces.twin h htwin hwithin with ⟨v', hv', htwin'⟩ | ⟨w, hw⟩
    · refine .inl ⟨v', htwin', ?_⟩
      rw [run_bind_of_ok hv']
      exact .refl _
    · exact .inr ⟨w, run_bind_of_error hw k⟩

theorem trans {k' : Step α} (h : LeadsTo x r k v) (h' : LeadsTo k v k' w) : LeadsTo x r k' w := by
  refine ⟨h.onward.trans h'.onward, h.akin.trans h'.akin, ?_⟩
  intro u u' r' htwin hwithin
  rcases h.twin htwin (h'.onward.within hwithin) with ⟨v', hv', hakin⟩ | hexhausted
  · rcases h'.twin hv' hwithin with ⟨w', hw', hakin'⟩ | ⟨w', hw'⟩
    · exact .inl ⟨w', hw', hakin.trans hakin'⟩
    · exact .inr ⟨w', (hakin.exhausted w').mpr hw'⟩
  · exact .inr hexhausted

theorem bind (h : LeadsTo x r k v) (f : α → Step β) : LeadsTo (x >>= f) r (k >>= f) v := by
  refine ⟨h.onward, h.akin.bind f, ?_⟩
  intro u u' r' htwin hwithin
  rcases h.twin htwin hwithin with ⟨v', hv', hakin⟩ | ⟨w, hw⟩
  · exact .inl ⟨v', hv', hakin.bind f⟩
  · exact .inr ⟨w, run_bind_of_error hw f⟩

theorem congr {x' k' : Step α} (h : LeadsTo x r k v) (hx : ∀ r, Akin (x' r) (x r))
    (hk : ∀ v, Akin (k v) (k' v)) : LeadsTo x' r k' v := by
  refine ⟨h.onward, ((hx r).trans h.akin).trans (hk v), ?_⟩
  intro u u' r' htwin hwithin
  rcases h.twin htwin hwithin with ⟨v', hv', hakin⟩ | ⟨w, hw⟩
  · exact .inl ⟨v', hv', ((hx r').trans hakin).trans (hk v')⟩
  · exact .inr ⟨w, ((hx r').exhausted w).mpr hw⟩

end LeadsTo

theorem repetition_of_isBlock {p : Part} {r r' : Run} {st : Statement} (h : p.step r = .ok st r')
    (hblock : st.form.isBlock = true) : p = .directive .repeatStart := by
  have hof := isOf_of_step h
  cases hform : st.form with
  | repetition count body =>
    rw [hform] at hof
    cases p with
    | directive d => rw [of_decide_eq_true hof]
    | _ => cases hof
  | macroBody name body =>
    rw [hform] at hof
    cases p <;> cases hof
  | _ =>
    rw [hform] at hblock
    cases hblock

/-- From a run on, the step comes to another one right behind a line end or a reserved word. -/
def Comes (x : Step α) (r : Run) (k : Step α) : Prop :=
  ∃ v t, LeadsTo x r k v ∧ v.stream.previous = some t ∧
    (t.lexeme = .newline ∨ ∃ w, t.lexeme = .keyword w)

namespace Comes

variable {x y k : Step α} {r v : Run} {a : α}

theorem behind {f : α → Step β} {g : Step β} {Q : α → Prop} (hy : Woven .free (fun _ => true) y Q)
    (h : y r = .ok a v) (hcomes : Comes (f a) v g) : Comes (y >>= f) r g := by
  rcases hcomes with ⟨w, t, hleads, hprevious⟩
  exact ⟨w, t, (LeadsTo.of_ok hy h f).trans hleads, hprevious⟩

theorem bind (h : Comes x r k) (f : α → Step β) : Comes (x >>= f) r (k >>= f) := by
  rcases h with ⟨v, t, hleads, hprevious⟩
  exact ⟨v, t, hleads.bind f, hprevious⟩

theorem congr {x' k' : Step α} (h : Comes x r k) (hx : ∀ r, Akin (x' r) (x r))
    (hk : ∀ v, Akin (k v) (k' v)) : Comes x' r k' := by
  rcases h with ⟨v, t, hleads, hprevious⟩
  exact ⟨v, t, hleads.congr hx hk, hprevious⟩

theorem of_advance {t : Token} {rest : List Token} (hbuffer : r.stream.buffer = t :: rest)
    (ht : t.lexeme = .newline ∨ ∃ w, t.lexeme = .keyword w) (k : Step α) :
    Comes (discard advance >>= fun _ => k) r k := by
  exact ⟨_, t, LeadsTo.of_ok woven_advance (discard_advanceAs_buffered hbuffer .code) _, rfl, ht⟩

end Comes

section

variable {r r₁ : Run} {st : Statement} {ss : List Statement}

/-- A definition with a block comes to reading the block. -/
theorem comes_definition {name : Token} {spelling : String}
    (h : definition name spelling r = .ok st r₁) (hst : st.form.isBlock = true) :
    Comes (definition name spelling) r (do
      let body ← rawBlock Directive.macroEnd.word Directive.macroStart.word
      endLine
      note [.macroDefined spelling (body.toList.count '\n')]
      pure ⟨← locationOf name, .macroBody spelling body⟩) := by
  rcases of_bind h with ⟨t, r₂, hpeek, h⟩
  refine .behind woven_peek hpeek ?_
  split at h
  · next hword =>
    rw [if_pos hword]
    rcases Reading.buffer_of_peek (reading_eq_ok hpeek) with ⟨rest, hbuffer⟩
    refine .of_advance hbuffer (.inr ?_) _
    cases hl : t.lexeme with
    | keyword w => exact ⟨w, rfl⟩
    | _ =>
      rw [hl] at hword
      cases hword
  · -- any other definition makes a symbol
    exfalso
    cases hdefiner : definer? t.lexeme with
    | none =>
      rw [hdefiner] at h
      cases h
    | some definer =>
      rw [hdefiner] at h
      rcases of_bind h with ⟨_, _, _, h⟩
      rcases of_bind h with ⟨_, _, _, h⟩
      rcases of_bind h with ⟨_, _, _, h⟩
      rcases of_bind h with ⟨_, _, _, ⟨⟩⟩
      cases hst

theorem comes_directive {d : Directive} (h : directive d r = .ok st r₁)
    (hst : st.form.isBlock = true) : d = .repeatStart ∧ ∃ word count, Comes (directive d) r (do
      let body ← rawBlock Directive.repeatEnd.word Directive.repeatStart.word
      pure ⟨← locationOf word, .repetition count body⟩) := by
  cases repetition_of_isBlock (p := .directive d) h hst
  refine ⟨rfl, ?_⟩
  rcases of_bind h with ⟨_, r₂, hpeek, h⟩
  rcases of_bind h with ⟨word, r₃, hadvance, h⟩
  rcases of_bind h with ⟨count, r₄, hcount, h⟩
  rcases of_bind h with ⟨t, r₅, hnext, h⟩
  refine ⟨word, count, .behind woven_peek hpeek (.behind (woven_advanceAs .code) hadvance ?_)⟩
  refine .behind woven_expression hcount (.behind woven_peek hnext ?_)
  rcases Reading.buffer_of_peek (reading_eq_ok hnext) with ⟨rest, hbuffer⟩
  cases hl : t.lexeme with
  | newline => exact .of_advance hbuffer (.inl hl) _
  | _ =>
    rw [hl] at h
    cases h

/-- A line body with a block comes to reading the block. -/
theorem comes_body (h : body r = .ok ss r₁) (hst : st ∈ ss) (hblock : st.form.isBlock = true) :
    ∃ word count, Comes body r (do
      let body ← rawBlock Directive.repeatEnd.word Directive.repeatStart.word
      let location ← locationOf word
      endLine
      pure [⟨location, .repetition count body⟩]) := by
  rcases of_bind h with ⟨t, r₂, hpeek, h⟩
  cases hl : t.lexeme with
  | newline | eof =>
    rw [hl] at h
    rcases of_bind h with ⟨_, _, _, ⟨⟩⟩
    cases hst
  | name spelling =>
    rw [hl] at h
    rcases of_bind h with ⟨st', _, hcall, ⟨⟩⟩
    rw [List.mem_singleton.mp hst] at hblock
    cases repetition_of_isBlock (p := .call spelling) hcall hblock
  | keyword w =>
    rw [hl] at h
    dsimp only at h
    cases hm : Mnemonic.ofWord? w with
    | some m =>
      rw [hm] at h
      rcases of_bind h with ⟨st', _, hinstruction, h⟩
      rcases of_bind h with ⟨_, _, _, ⟨⟩⟩
      rw [List.mem_singleton.mp hst] at hblock
      cases repetition_of_isBlock (p := .instruction m) hinstruction hblock
    | none =>
      cases hd : Directive.ofWord? w with
      | none =>
        rw [hm, hd] at h
        cases h
      | some d =>
        rw [hm, hd] at h
        rcases of_bind h with ⟨st', r₃, hdirective, h⟩
        have hsame : st = st' := by
          split at h
          · rcases of_bind h with ⟨_, _, _, ⟨⟩⟩
            exact List.mem_singleton.mp hst
          · cases h
            exact List.mem_singleton.mp hst
        subst hsame
        rcases comes_directive hdirective hblock with ⟨rfl, word, count, hcomes⟩
        refine ⟨word, count, .behind woven_peek hpeek ?_⟩
        simp only [hl, hm, hd]
        have hend := hcomes.bind fun statement => (endLine >>= fun _ => pure [statement])
        simp only [bind_assoc, pure_bind] at hend
        exact hend
  | _ =>
    rw [hl] at h
    cases h

/-- Where the place is taken makes no difference. -/
theorem akin_repetition (count : Expr) (before : List Statement) (word : Token) (v : Run) :
    Akin ((do
      let body ← rawBlock Directive.repeatEnd.word Directive.repeatStart.word
      let location ← locationOf word
      endLine
      pure (before ++ [(⟨location, .repetition count body⟩ : Statement)])) v)
      (readBlock (.repetition count) before word v) := by
  have hread : readBlock (.repetition count) before word = (do
      let body ← rawBlock Directive.repeatEnd.word Directive.repeatStart.word
      endLine
      note []
      pure (before ++ [⟨← locationOf word, .repetition count body⟩])) := rfl
  rw [hread]
  cases hblock : rawBlock Directive.repeatEnd.word Directive.repeatStart.word v with
  | error f w =>
    rw [run_bind_of_error hblock, run_bind_of_error hblock]
    exact .refl _
  | ok body w =>
    rw [run_bind_of_ok hblock, run_bind_of_ok hblock]
    have hlocation : ∀ u : Run, locationOf word u = .ok (u.stream.source.locate word) u :=
      fun u => rfl
    rw [run_bind_of_ok (hlocation w)]
    cases hend : endLine w with
    | error f u =>
      rw [run_bind_of_error hend, run_bind_of_error hend]
      exact .refl _
    | ok _ u =>
      rw [run_bind_of_ok hend, run_bind_of_ok hend]
      have honward : w.stream.Onward u.stream := woven_endLine.onward hend
      rw [← honward.source]
      exact .refl _

/-- A declaration with a block comes to reading the block. -/
theorem comes_declaration {spelling : String} (h : declaration spelling r = .ok ss r₁)
    (hst : st ∈ ss) (hblock : st.form.isBlock = true) :
    ∃ use before t, Comes (declaration spelling) r (readBlock use before t) := by
  rcases of_bind h with ⟨name, r₂, hadvance, h⟩
  rcases of_bind h with ⟨mark, r₃, hcolon, h⟩
  have hdefinition : ∀ {r}, (definition name spelling >>= fun st => pure [st]) r = .ok ss r₁ →
      Comes (definition name spelling >>= fun st => pure [st]) r
        (readBlock (.definition spelling) [] name) := by
    intro r h
    rcases of_bind h with ⟨st', _, hdefinition, ⟨⟩⟩
    rw [List.mem_singleton.mp hst] at hblock
    have hcomes := (comes_definition hdefinition hblock).bind fun st => pure [st]
    simp only [bind_assoc, pure_bind] at hcomes
    exact hcomes
  cases mark with
  | none =>
    refine ⟨.definition spelling, [], name, .behind (woven_advanceAs .code) hadvance ?_⟩
    exact .behind woven_colon hcolon (hdefinition h)
  | some exported =>
    rcases of_bind h with ⟨next, r₄, hnext, h⟩
    split at h
    · next hword =>
      refine ⟨.definition spelling, [], name, .behind (woven_advanceAs .code) hadvance ?_⟩
      refine .behind woven_colon hcolon (.behind woven_peek hnext ?_)
      rw [if_pos hword]
      exact hdefinition h
    · next hword =>
      rcases of_bind h with ⟨first, r₅, hlabel, h⟩
      rcases of_bind h with ⟨more, _, hbody, ⟨⟩⟩
      -- the label itself is no block, so the block is in the rest of the line
      have hmem : st ∈ more := by
        rcases List.mem_cons.mp hst with rfl | hmem
        · rcases says_label hlabel with ⟨⟨_, _, _, _, hform⟩, _⟩
          rw [hform] at hblock
          cases hblock
        · exact hmem
      rcases comes_body hbody hmem hblock with ⟨word, count, hcomes⟩
      refine ⟨.repetition count, [first], word, .behind (woven_advanceAs .code) hadvance ?_⟩
      refine .behind woven_colon hcolon (.behind woven_peek hnext ?_)
      rw [if_neg hword]
      refine .behind (woven_label trivial (fun _ _ => rfl) (Watch.declares_free _) exported) hlabel
        ?_
      have hrest := hcomes.bind fun rest => pure (first :: rest)
      simp only [bind_assoc, pure_bind] at hrest
      exact hrest.congr (fun _ => .refl _) (akin_repetition count [first] word)

/-- A line with a block comes to reading the block. -/
theorem comes_line (h : line r = .ok ss r₁) (hst : st ∈ ss) (hblock : st.form.isBlock = true) :
    ∃ use before t, Comes line r (readBlock use before t) := by
  rcases of_bind h with ⟨t, r₂, hpeek, h⟩
  cases hl : t.lexeme with
  | newline =>
    rw [hl] at h
    rcases of_bind h with ⟨_, _, _, ⟨⟩⟩
    cases hst
  | _ =>
    rw [hl] at h
    dsimp only at h
    rw [← hl] at h
    cases hconditional : conditional? t.lexeme with
    | some d =>
      rw [hconditional] at h
      rcases of_bind h with ⟨st', _, hst', ⟨⟩⟩
      rw [List.mem_singleton.mp hst] at hblock
      cases repetition_of_isBlock (p := .conditional d) hst' hblock
    | none =>
      cases hdeclared : declared? t.lexeme with
      | some spelling =>
        rw [hconditional, hdeclared] at h
        rcases comes_declaration h hst hblock with ⟨use, before, name, hk⟩
        refine ⟨use, before, name, .behind woven_peek hpeek ?_⟩
        rw [hl] at hconditional hdeclared ⊢
        dsimp only
        rwa [hconditional, hdeclared]
      | none =>
        rw [hconditional, hdeclared] at h
        rcases comes_body h hst hblock with ⟨word, count, hk⟩
        refine ⟨.repetition count, [], word, .behind woven_peek hpeek ?_⟩
        rw [hl] at hconditional hdeclared ⊢
        dsimp only
        rw [hconditional, hdeclared]
        exact hk.congr (fun _ => .refl _) (akin_repetition count [] word)

end

theorem comes_nextLine {r r₁ : Run} {st : Statement} {ss : List Statement}
    (h : nextLine r = .ok (some ss) r₁) (hst : st ∈ ss) (hblock : st.form.isBlock = true) :
    ∃ use before t, Comes nextLine r (some <$> readBlock use before t) := by
  rcases nextLine_cases h with ⟨t, r₂, hpeek, ht, hline⟩
  rcases comes_line hline hst hblock with ⟨use, before, name, hcomes⟩
  have hlocated :=
    (hcomes.congr (Akin.located line t) fun _ => .refl _).bind fun ss => pure (some ss)
  refine ⟨use, before, name, .behind woven_peek hpeek ?_⟩
  rw [ht, if_neg Bool.false_ne_true, map_eq_pure_bind, map_eq_pure_bind]
  exact hlocated

end Step

namespace Stream

/-- The stream behind a block. -/
def passBlock (s : Stream) (words : BlockWords) (t : Token) (c : Cursor) : Stream :=
  (((s.request words.setting).read t c).consume .block t []).request .normal

/-- The stream behind the token that ends a line. -/
def passEnd (s : Stream) (t : Token) (c : Cursor) : Stream :=
  if t.isEnd then s.read t c else (s.read t c).consume .code t []

/-- The blocks that have been read, latest first. -/
def blocks (s : Stream) : List Token :=
  s.history.filterMap fun
    | .consumed .block t => some t
    | _ => none

theorem buffer_passBlock {s : Stream} {words : BlockWords} {t : Token} {c : Cursor} {text : String}
    (ht : t.lexeme = .rawBlock text) : (s.passBlock words t c).buffer = [] := by
  simp [passBlock, request, consume, Token.isEnd, ht]

theorem source_passEnd (s : Stream) (t : Token) (c : Cursor) :
    (s.passEnd t c).source = s.source := by
  unfold passEnd
  split <;> rfl

theorem passEnd_passBlock (s : Stream) (words : BlockWords) {t : Token} {text : String}
    (ht : t.lexeme = .rawBlock text) (e : Token) (c c' : Cursor) :
    ((s.passBlock words t c).passEnd e c').cursor = c' ∧
      ((s.passBlock words t c).passEnd e c').buffer = (if e.isEnd then [e] else []) ∧
      ((s.passBlock words t c).passEnd e c').register.commit = .initial := by
  unfold passEnd
  split
  · exact ⟨rfl, by simp [read, buffer_passBlock ht], rfl⟩
  · next he => exact ⟨rfl, by simp [consume, he], rfl⟩

theorem blocks_passEnd_passBlock (s : Stream) (words : BlockWords) (t e : Token) (c c' : Cursor) :
    ((s.passBlock words t c).passEnd e c').blocks = t :: s.blocks := by
  unfold passEnd
  split <;> rfl

end Stream

namespace Reading

theorem peek_eq_ok_iff {s s' : Stream} {t : Token} (h : s.buffer = []) :
    peek s = .ok t s' ↔
      ∃ c, s.cursor.next s.source s.register.commit.current = .ok (t, c) ∧ s' = s.read t c := by
  have hopen : s.atEnd = false := by simp [Stream.atEnd, h]
  rw [peek, peekAt_fresh (by rw [h]; rfl) hopen]
  constructor
  · intro hpeek
    split at hpeek
    · next c hnext =>
      cases hpeek
      exact ⟨c, hnext, rfl⟩
    · cases hpeek
  · rintro ⟨c, hnext, rfl⟩
    rw [hnext]

end Reading

namespace Step

variable {v w u : Run} {words : BlockWords} {t : Token} {c : Cursor} {text : String}

theorem rawBlock_of_next (hbuffer : v.stream.buffer = [])
    (hnext : v.stream.cursor.next v.stream.source words.setting = .ok (t, c))
    (ht : t.lexeme = .rawBlock text) :
    ∃ w, rawBlock words.closing words.opening v = .ok text w ∧
      w.stream = v.stream.passBlock words t c ∧ w.state = v.state := by
  let asked : Run := { v with stream := v.stream.request words.setting }
  have hempty : asked.stream.buffer = [] := hbuffer
  have hpeek : Reading.peek asked.stream = .ok t (asked.stream.read t c) :=
    (Reading.peek_eq_ok_iff hempty).mpr ⟨c, hnext, rfl⟩
  have hread : (asked.stream.read t c).buffer = t :: [] := by
    rw [Stream.read, hempty]
    rfl
  have hadvance := Reading.advanceAs_of_peek .block hpeek hread
  have hblock : advanceAs .block asked =
      .ok t (asked.follow ((asked.stream.read t c).consume .block t [])) := by
    simp only [advanceAs, reading, hadvance]
  have hrequest : request (.block words.closing words.opening) v = .ok () asked := rfl
  refine ⟨{ asked.follow ((asked.stream.read t c).consume .block t []) with
    stream := v.stream.passBlock words t c }, ?_, rfl, rfl⟩
  rw [rawBlock, run_bind_of_ok hrequest, run_bind_of_ok hblock, ht]
  rfl

/-- Where a block has been read and all is sound, nothing had been read ahead. -/
theorem exists_of_rawBlock (h : rawBlock words.closing words.opening v = .ok text w)
    (hsound : ∀ move ∈ w.stream.history, move.isSound = true) :
    v.stream.buffer = [] ∧ ∃ t c, v.stream.cursor.next v.stream.source words.setting = .ok (t, c) ∧
      t.lexeme = .rawBlock text ∧ w.stream = v.stream.passBlock words t c ∧ w.state = v.state := by
  let asked : Run := { v with stream := v.stream.request words.setting }
  have hrequest : request (.block words.closing words.opening) v = .ok () asked := rfl
  rw [rawBlock, run_bind_of_ok hrequest] at h
  rcases of_bind h with ⟨t, v₁, hblock, hdone⟩
  rcases of_bind hdone with ⟨_, _, ⟨⟩, ⟨⟩⟩
  have hstate : v₁.state = asked.state := state_of_reading hblock
  rcases Reading.advanceAs_eq_ok (reading_eq_ok hblock) with ⟨s, rest, hpeek, hs, hstream⟩
  have hconsumed : Role.block.admits t = true := by
    apply hsound (.consumed .block t)
    apply List.mem_cons_of_mem
    rw [hstream]
    exact List.mem_cons_self
  cases hbuffer : v.stream.buffer with
  | nil =>
    have hempty : asked.stream.buffer = [] := hbuffer
    rcases (Reading.peek_eq_ok_iff hempty).mp hpeek with ⟨c, hnext, rfl⟩
    have hrest : rest = [] := by
      rw [Stream.read, hempty] at hs
      cases hs
      rfl
    subst hrest
    refine ⟨rfl, t, c, hnext, ?_, ?_, hstate⟩
    · cases hl : t.lexeme with
      | rawBlock text => rfl
      | _ => simp [Role.admits, hl] at hconsumed
    · exact congrArg (Stream.request · .normal) hstream
  | cons first more =>
    -- only the end may have been read ahead, and it is no block
    have hbuffer' : asked.stream.buffer = first :: more := hbuffer
    rw [Reading.peek_buffered hbuffer'] at hpeek
    cases hpeek
    have hasked : (Move.asked words.setting (t :: more)).isSound = true := by
      apply hsound
      apply List.mem_cons_of_mem
      rw [hstream]
      apply List.mem_cons_of_mem
      show Move.asked words.setting (t :: more) ∈ Move.asked words.setting v.stream.buffer :: _
      rw [hbuffer]
      exact List.mem_cons_self
    have hend : t.isEnd = true := by
      simp only [Move.isSound, List.all_cons, Bool.and_eq_true] at hasked
      exact hasked.2.1
    rw [Role.isEnd_of_admits_block hconsumed] at hend
    cases hend

theorem endLine_of_next (hbuffer : w.stream.buffer = [])
    (hcurrent : w.stream.register.commit.current = .normal)
    (hnext : w.stream.cursor.normalToken w.stream.source = .ok (t, c))
    (ht : t.lexeme.endsLine = true) :
    ∃ u, endLine w = .ok () u ∧ u.stream = w.stream.passEnd t c ∧ u.state = w.state := by
  have hpeek : peek w = .ok t (w.follow (w.stream.read t c)) := by
    have hread : Reading.peek w.stream = .ok t (w.stream.read t c) := by
      refine (Reading.peek_eq_ok_iff hbuffer).mpr ⟨c, ?_, rfl⟩
      rw [hcurrent]
      exact hnext
    simp only [peek, reading, hread]
  have hread : (w.follow (w.stream.read t c)).stream.buffer = t :: [] := by
    show w.stream.buffer ++ [t] = _
    rw [hbuffer]
    rfl
  rw [endLine, run_bind_of_ok hpeek, Stream.passEnd]
  cases hl : t.lexeme with
  | newline =>
    have hopen : t.isEnd = false := by rw [Token.isEnd, hl]; rfl
    exact ⟨_, discard_advanceAs_buffered hread .code, by rw [hopen]; rfl, rfl⟩
  | eof =>
    have hend : t.isEnd = true := by rw [Token.isEnd, hl]; rfl
    exact ⟨_, rfl, by rw [hend]; rfl, rfl⟩
  | _ =>
    rw [hl] at ht
    cases ht

theorem exists_of_endLine (h : endLine w = .ok () u) (hbuffer : w.stream.buffer = [])
    (hcurrent : w.stream.register.commit.current = .normal) :
    ∃ t c, w.stream.cursor.normalToken w.stream.source = .ok (t, c) ∧ t.lexeme.endsLine = true ∧
      u.stream = w.stream.passEnd t c ∧ u.state = w.state := by
  rcases of_bind h with ⟨t, w₁, hpeek, h₁⟩
  rcases (Reading.peek_eq_ok_iff hbuffer).mp (reading_eq_ok hpeek) with ⟨c, hnext, _⟩
  rw [hcurrent] at hnext
  have hends : t.lexeme.endsLine = true := by
    cases hl : t.lexeme with
    | newline | eof => rfl
    | _ =>
      rw [hl] at h₁
      cases h₁
  rcases endLine_of_next hbuffer hcurrent hnext hends with ⟨u', hu', hstream, hstate⟩
  rw [hu'] at h
  cases h
  exact ⟨t, c, hnext, hends, hstream, hstate⟩

end Step

end Sm83
