import Sm83.Proofs.Assembly.Contexts
import Sm83.Proofs.Run.Cursor

/-!
# Storage fields of a source

The lines with `rb`, `rw` and `rl` lay storage fields out, each at the place of the storage cursor,
which then moves behind the field. A source in which nothing else moves the cursor has its fields
one behind the other, and the cursor moves back exactly where a count is negative, which no line
refuses.
-/

namespace Sm83

open Outcome List State

namespace Step

/-- A number of units, which is one where the line ends. -/
def units : Step Int := do
  if ← atLineEnd then pure 1 else constant

/-- The number of units behind the name and the definer of the line ahead. -/
def unitsAhead : Step Int := do
  let _ ← advance
  let _ ← advance
  units

end Step

namespace Run

/-- The storage fields of the line ahead, given its statements. -/
def lineFields (r : Run) (statements : List Statement) : List StorageField :=
  statements.filterMap fun st =>
    match st.form.field?, Step.unitsAhead r with
    | some (start, width), .ok count _ => some ⟨start, count, width⟩
    | _, _ => none

/-- The storage fields of the next `n` lines of a run. -/
def fields : Nat → Run → List StorageField
  | 0, _ => []
  | n + 1, r =>
    match Step.nextLine r with
    | .ok (some statements) r' =>
      r.lineFields statements ++ fields n { r' with statements := r'.statements ++ statements }
    | _ => []

end Run

namespace Step

variable {α β : Type} {r r₁ r' u : Run} {t : Token} {st : Statement} {ss : List Statement}
  {x : Symbol}

/-! ## Counts -/

/-- The runs stand at the same place in the same state. -/
def Abreast (r r' : Run) : Prop :=
  r'.stream = r.stream ∧ r'.state = r.state

theorem Abreast.trans (h : Abreast r r₁) (h' : Abreast r₁ r') : Abreast r r' :=
  ⟨h'.1.trans h.1, h'.2.trans h.2⟩

/-- What the step gives depends on the tokens and the state only. -/
def Uniform (x : Step α) : Prop :=
  ∀ r r' a u, Abreast r r' → x r = .ok a u → ∃ u', x r' = .ok a u' ∧ Abreast u u'

namespace Uniform

variable {x : Step α} {k : α → Step β}

theorem pure (a : α) : Uniform (pure a : Step α) := by
  intro r r' b u hr h
  cases h
  exact ⟨r', rfl, hr⟩

theorem bind (hx : Uniform x) (hk : ∀ a, Uniform (k a)) : Uniform (x >>= k) := by
  intro r r' b u hr h
  rcases of_bind h with ⟨a, r₁, hxr, hkr⟩
  rcases hx r r' a r₁ hr hxr with ⟨r₁', hxr', hr₁⟩
  rcases hk a r₁ r₁' b u hr₁ hkr with ⟨u', hkr', hu⟩
  exact ⟨u', run_bind_eq_ok_iff.mpr ⟨a, r₁', hxr', hkr'⟩, hu⟩

theorem reading (action : Reading α) : Uniform (reading action) := by
  rintro r r' a u ⟨hstream, hstate⟩ h
  have haction := reading_eq_ok h
  have hsteady := state_of_reading h
  refine ⟨r'.follow u.stream, ?_, rfl, hstate.trans hsteady.symm⟩
  unfold Step.reading
  rw [hstream, haction]

end Uniform

theorem uniform_expression : Uniform expression := by
  intro r r' e u hr h
  show ∃ u', reading (Expr.read r'.state.qualify) r' = .ok e u' ∧ _
  rw [hr.2]
  exact Uniform.reading _ r r' e u hr h

theorem uniform_constant : Uniform constant := by
  refine (Uniform.reading _).bind fun t => uniform_expression.bind fun e => ?_
  intro r r' v u hr h
  rcases ofExcept_eq_ok (located_eq_ok h) with ⟨hvalue, rfl⟩
  refine ⟨r', ?_, hr⟩
  show located t (ofExcept (e.constant r'.state.resolver)) r' = _
  rw [hr.2, hvalue]
  rfl

theorem uniform_units : Uniform units := by
  refine ((Uniform.reading _).bind fun _ => .pure _).bind fun ends => ?_
  split
  · exact .pure _
  · exact uniform_constant

variable {t' : Token} {location : Option Location} {spelling : String} {width : Int}
  {definer : Definer} {n : Nat}

theorem advance_of_peek (hpeek : peek r = .ok t r₁) (h : advance r₁ = .ok t' u) :
    ∃ u', advance r = .ok t' u' ∧ Abreast u u' := by
  rcases Reading.buffer_of_peek (reading_eq_ok hpeek) with ⟨rest, hbuffer⟩
  rw [advance, advanceAs_buffered hbuffer] at h
  cases h
  refine ⟨r.follow (r₁.stream.consume .code t rest), ?_, rfl, (state_of_reading hpeek).symm⟩
  show reading (Reading.advanceAs .code) r = _
  unfold reading
  rw [Reading.advanceAs_of_peek .code (reading_eq_ok hpeek) hbuffer]

theorem peek_again {r₂ : Run} (hpeek : peek r = .ok t r₁) (h : peek r₁ = .ok t' r₂) : t' = t := by
  rcases Reading.buffer_of_peek (reading_eq_ok hpeek) with ⟨rest, hbuffer⟩
  rw [peek_buffered hbuffer] at h
  cases h
  rfl

theorem unitsAhead_of_tokens {a b c d f g : Run} {t₁ t₂ t₃ t₄ t₅ t₆ : Token} {count : Int}
    (first : peek r = .ok t₁ a) (again : peek a = .ok t₂ b) (name : advance b = .ok t₃ c)
    (next : peek c = .ok t₄ d) (still : peek d = .ok t₅ f) (word : advance f = .ok t₆ g)
    (h : units g = .ok count u) : ∃ u', unitsAhead r = .ok count u' := by
  -- the name is consumed after two looks at it, and so is the definer
  rcases advance_of_peek again name with ⟨c₁, hc₁, habreast₁⟩
  rcases advance_of_peek first hc₁ with ⟨c₂, hc₂, habreast₂⟩
  rcases advance_of_peek still word with ⟨g₁, hg₁, habreast₃⟩
  rcases advance_of_peek next hg₁ with ⟨g₂, hg₂, habreast₄⟩
  have hadvance : Uniform advance := .reading _
  rcases hadvance c c₂ t₆ g₂ (habreast₁.trans habreast₂) hg₂ with ⟨g₃, hg₃, habreast₅⟩
  have hg : Abreast g g₃ := (habreast₃.trans habreast₄).trans habreast₅
  rcases uniform_units g g₃ count u hg h with ⟨u', hu', _⟩
  refine ⟨u', ?_⟩
  show (advance >>= fun _ => advance >>= fun _ => units) r = _
  rw [run_bind_of_ok hc₂, run_bind_of_ok hg₃, hu']

/-! ## Definitions -/

/-- A field is at the cursor, which moves behind it. -/
theorem storageField_eq_ok (hs : r.state.Consistent)
    (h : storageField spelling width location r = .ok x r') :
    ∃ count u, units r = .ok count u ∧ x.value = .number r.state.storage ∧
      r'.state.storage = Word.wrap (r.state.storage + count * width) := by
  have hfield : ∀ {count : Int} {u : Run}, u.state = r.state →
      (do
        let offset := (← get).state.storage
        update fun s => (s.advanceStorage (count * width)).2
        define fun s => s.defineConstant spelling offset false location : Step Symbol) u =
          .ok x r' →
      x.value = .number r.state.storage ∧
        r'.state.storage = Word.wrap (r.state.storage + count * width) := by
    intro count u hu h
    change define (fun s => s.defineConstant spelling u.state.storage false location)
      { u with state := (u.state.advanceStorage (count * width)).2 } = .ok x r' at h
    rw [define_run] at h
    split at h
    · cases h
    · next symbol after hdefine =>
      cases h
      -- the constant is defined after the cursor has moved
      have hmoved : (u.state.advanceStorage (count * width)).2.Consistent := by
        have hperform : r.state.perform (.advanceStorage (count * width)) =
            .ok (.number r.state.storage, (r.state.advanceStorage (count * width)).2) := rfl
        rw [hu]
        exact consistent_step (change_of_perform hs.cursorVaries hperform) hs
      rcases defineConstant_bound hdefine with ⟨name, _, hsymbol, _⟩
      have hrange := hs.storage_mem_range
      constructor
      · rw [hsymbol, hu, Word.wrap_eq_self hrange.1 hrange.2]
      · have hdefined := storage_define hmoved hdefine (by simp)
        show after.storage = _
        rw [hdefined, hu]
        exact hs.storage_resetStorage _
  rcases of_bind h with ⟨ends, r₁, hends, h⟩
  have hstate := woven_atLineEnd.state_eq hends
  cases ends with
  | true => exact ⟨1, r₁, run_bind_of_ok hends _, hfield hstate h⟩
  | false =>
    rcases of_bind h with ⟨count, r₂, hcount, h⟩
    have hstate₂ := (woven_constant.state_eq hcount).trans hstate
    refine ⟨count, r₂, ?_, hfield hstate₂ h⟩
    show (atLineEnd >>= _) r = _
    rw [run_bind_of_ok hends]
    exact hcount

/-- Other definitions leave the cursor where it is. -/
theorem defineBy_unmoved (hunit : definer.unit? = none)
    (h : defineBy definer spelling location r = .ok x r')
    (hform : (Form.symbol x.name x.kind x.value definer).placesCursor = false) :
    r.state.Unmoved r'.state := by
  have hvariable : x.name ≠ storageName → (do
      let value ← constant
      define fun s => s.defineVariable spelling value location : Step Symbol) r = .ok x r' →
      r.state.Unmoved r'.state := by
    intro hname h hs
    rcases of_bind h with ⟨value, r₁, hvalue, h⟩
    have hstate := woven_constant.state_eq hvalue
    rw [define_run, hstate] at h
    split at h
    · cases h
    · next symbol after hdefine =>
      cases h
      have hperform : r.state.perform (.defineVariable spelling value location) =
          .ok (.symbol x, after) := by
        simp only [perform, hdefine, Except.map]
      refine unmoved_of_perform ?_ hperform hs
      -- had the spelling stood for the cursor, so would the name in the statement
      intro hqualify
      rcases define_eq_ok_iff.mp hdefine with ⟨name, hfull, hadd⟩
      cases hqualify.symm.trans hfull
      exact hname (name_of_add hs hadd)
  cases definer with
  | equ =>
    rcases of_bind h with ⟨value, r₁, hvalue, h⟩
    rw [← woven_constant.state_eq hvalue]
    have hdefine : Performs (.defineConstant spelling value false location) (define _) :=
      performs_define fun _ => rfl
    exact hdefine.unmoved id h
  | set => exact hvariable (by simpa [Form.placesCursor] using hform) h
  | assign => exact hvariable (by simpa [Form.placesCursor] using hform) h
  | equs =>
    rcases of_bind h with ⟨text, r₁, htext, h⟩
    rw [← woven_constantText.state_eq htext]
    have hdefine : Performs (.defineText spelling text location) (define _) :=
      performs_define fun _ => rfl
    exact hdefine.unmoved id h
  | _ => cases hunit

theorem defineBy_field (hs : r.state.Consistent) (hunit : definer.unit? = some width)
    (h : defineBy definer spelling location r = .ok x r') :
    ∃ count u, units r = .ok count u ∧ x.value = .number r.state.storage ∧
      r'.state.storage = Word.wrap (r.state.storage + count * width) := by
  cases definer with
  | rb | rw | rl =>
    cases hunit
    exact storageField_eq_ok hs h
  | _ => cases hunit

/-- A definition is that of a macro or goes by its definer. -/
theorem definition_cases {name : Token} (h : definition name spelling r = .ok st r') :
    ∃ t r₁, peek r = .ok t r₁ ∧
      (macroBody name spelling r₁ = .ok st r' ∨
        t.lexeme.isKeyword Directive.macroStart.word = false ∧
          ∃ definer location word r₂ x r₃, advance r₁ = .ok word r₂ ∧
            defineBy definer spelling location r₂ = .ok x r₃ ∧
            st.form = .symbol x.name x.kind x.value definer ∧ r'.state = r₃.state) := by
  rcases of_bind h with ⟨t, r₁, hpeek, h⟩
  refine ⟨t, r₁, hpeek, ?_⟩
  split at h
  · exact .inl h
  · next hmacro =>
    refine .inr ⟨by simpa using hmacro, ?_⟩
    cases hdefiner : definer? t.lexeme with
    | none =>
      rw [hdefiner] at h
      cases h
    | some definer =>
      rw [hdefiner] at h
      rcases of_bind h with ⟨_, r₂, hskip, h⟩
      rcases of_bind h with ⟨location, _, ⟨⟩, h⟩
      rcases of_bind h with ⟨x, r₃, hdefine, h⟩
      rcases of_bind h with ⟨_, _, hend, ⟨⟩⟩
      rcases discard_eq_ok hskip with ⟨word, hword⟩
      exact ⟨definer, _, word, r₂, x, r₃, hword, located_eq_ok hdefine, rfl,
        woven_endLine.state_eq hend⟩

/-! ## Lines -/

/-- What a line does to the storage cursor: it has at most one field, which is that of its
statements, and it lays this field out, unless one of its statements gives the cursor a place. -/
structure Lays (r : Run) (ss : List Statement) (r' : Run) : Prop where
  single : r.lineFields ss = [] ∨ ∃ f, r.lineFields ss = [f]
  fields : (r.lineFields ss).map (fun f => (f.start, f.width)) = ss.filterMap fun st =>
    st.form.field?
  laid : (∀ st ∈ ss, st.form.placesCursor = false) →
    StorageField.Laid r.state.storage (r.lineFields ss) r'.state.storage

theorem Passes.lays (h : Passes u ss r') (hu : u.state = r.state) (hs : r.state.Consistent) :
    Lays r ss r' := by
  have hfields : r.lineFields ss = [] := by
    rw [Run.lineFields, filterMap_eq_nil_iff]
    intro st hst
    rw [h.1 st hst]
  have hforms : (ss.filterMap fun st => st.form.field?) = [] := filterMap_eq_nil_iff.mpr h.1
  refine ⟨.inl hfields, ?_, ?_⟩
  · rw [hfields, hforms, map_nil]
  · intro hplaces
    have hunmoved := h.2 hplaces
    rw [hu] at hunmoved
    rw [hfields]
    exact (hunmoved hs).2

theorem field?_of_unit?_none {name : String} {kind : SymbolKind} {value : Value}
    (h : definer.unit? = none) : (Form.symbol name kind value definer).field? = none := by
  cases value with
  | number start => simp [Form.field?, h]
  | text s => rfl

theorem lays_field {count : Int} (hform : st.form = .symbol x.name x.kind x.value definer)
    (hunit : definer.unit? = some width) (hcount : unitsAhead r = .ok count u)
    (hvalue : x.value = .number r.state.storage)
    (hstorage : r'.state.storage = Word.wrap (r.state.storage + count * width)) :
    Lays r [st] r' := by
  have hfield : st.form.field? = some (r.state.storage, width) := by
    rw [hform, hvalue, Form.field?, hunit, Option.map_some]
  have hfields : r.lineFields [st] = [⟨r.state.storage, count, width⟩] := by
    simp [Run.lineFields, hfield, hcount]
  refine ⟨.inr ⟨_, hfields⟩, ?_, ?_⟩
  · simp [hfields, hfield]
  · intro _
    rw [hfields]
    exact ⟨rfl, hstorage⟩

theorem colon_none (h : colon r = .ok none r') : ∃ t, peek r = .ok t r' := by
  rcases of_bind h with ⟨t, r₁, hpeek, h⟩
  have hmark : ∀ {mark : Bool} {y : Step PUnit},
      (y >>= fun _ => pure (some mark) : Step (Option Bool)) r₁ ≠ .ok none r' := by
    intro mark y h
    rcases of_bind h with ⟨_, _, _, ⟨⟩⟩
  cases hl : t.lexeme with
  | punct p =>
    rw [hl] at h
    cases p with
    | colon => exact absurd h hmark
    | doubleColon => exact absurd h hmark
    | _ =>
      cases h
      exact ⟨t, hpeek⟩
  | _ =>
    rw [hl] at h
    cases h
    exact ⟨t, hpeek⟩

theorem lays_definition {name t₃ : Token} {r₀ r₂ r₃ : Run} (hs : r.state.Consistent)
    (first : peek r = .ok t r₀) (again : peek r₀ = .ok t' r₁) (hname : advance r₁ = .ok name r₂)
    (next : peek r₂ = .ok t₃ r₃) (h : definition name spelling r₃ = .ok st r') :
    Lays r [st] r' := by
  have hstate₂ : r₂.state = r.state :=
    (state_of_reading hname).trans
      ((state_of_reading again).trans (state_of_reading first))
  rcases definition_cases h with ⟨t₄, r₄, still, hcases⟩
  have hstate₄ : r₄.state = r.state :=
    (state_of_reading still).trans ((state_of_reading next).trans hstate₂)
  rcases hcases with hmacro | ⟨_, definer, location, word, r₅, x, r₆, hword, hdefine, hform, hend⟩
  · exact (passes_macroBody hmacro).lays hstate₄ hs
  · have hstate₅ : r₅.state = r.state := (state_of_reading hword).trans hstate₄
    cases hunit : definer.unit? with
    | none =>
      have hpasses : Passes r₅ [st] r' := by
        constructor
        · simpa [hform] using field?_of_unit?_none hunit
        · intro hplaces
          rw [hend]
          apply defineBy_unmoved hunit hdefine
          rw [← hform]
          exact hplaces st mem_cons_self
      exact hpasses.lays hstate₅ hs
    | some width =>
      have hs₅ : r₅.state.Consistent := hstate₅ ▸ hs
      rcases defineBy_field hs₅ hunit hdefine with ⟨count, u, hunits, hvalue, hstorage⟩
      rcases unitsAhead_of_tokens first again hname next still hword hunits with ⟨u', hcount⟩
      rw [hstate₅] at hvalue hstorage
      rw [← hend] at hstorage
      exact lays_field hform hunit hcount hvalue hstorage

/-- What a declaration lays out. -/
theorem lays_declaration {r₀ : Run} (hs : r.state.Consistent) (first : peek r = .ok t r₀)
    (again : peek r₀ = .ok t' r₁) (h : declaration spelling r₁ = .ok ss r') : Lays r ss r' := by
  rcases of_bind h with ⟨name, r₂, hname, h⟩
  rcases of_bind h with ⟨mark, r₃, hcolon, h⟩
  cases mark with
  | none =>
    rcases colon_none hcolon with ⟨t₃, next⟩
    rcases of_bind h with ⟨st, _, hst, ⟨⟩⟩
    exact lays_definition hs first again hname next hst
  | some exported =>
    rcases of_bind h with ⟨t₄, r₄, hlook, h⟩
    have hstate₂ : r₂.state = r.state :=
      (state_of_reading hname).trans
        ((state_of_reading again).trans (state_of_reading first))
    have hstate₄ : r₄.state = r.state :=
      (state_of_reading hlook).trans ((woven_colon.state_eq hcolon).trans hstate₂)
    split at h
    · next hmacro =>
      rcases of_bind h with ⟨st, _, hst, ⟨⟩⟩
      rcases definition_cases hst with ⟨t₅, r₅, hpeek, hbody | ⟨hother, _⟩⟩
      · have hstate₅ := (state_of_reading hpeek).trans hstate₄
        exact (passes_macroBody hbody).lays hstate₅ hs
      · -- the word that has been looked at is still the one for a macro
        rw [peek_again hlook hpeek, hmacro] at hother
        cases hother
    · rcases of_bind h with ⟨st, r₅, hlabel, h⟩
      rcases of_bind h with ⟨rest, _, hrest, ⟨⟩⟩
      have hpasses : Passes r₄ ([st] ++ rest) r' :=
        (passes_label hlabel).append (passes_body hrest)
      exact hpasses.lays hstate₄ hs

theorem nextLine_laid (hs : r.state.Consistent) (h : nextLine r = .ok (some ss) r') :
    Lays r ss r' := by
  rcases of_bind h with ⟨t, r₀, first, h⟩
  have hstate₀ : r₀.state = r.state := state_of_reading first
  split at h
  · cases h
  · rcases map_eq_ok h with ⟨ss', hlocated, hss⟩
    cases hss
    rcases line_cases (located_eq_ok hlocated) with
      ⟨t', r₁, again, ⟨_, rfl, hskip⟩ | ⟨d, st, rfl, hst⟩ | ⟨spelling, _, hss⟩ | hss⟩
    all_goals have hstate₁ : r₁.state = r.state := (state_of_reading again).trans hstate₀
    · exact (passes_nil (woven_advance.state_eq hskip)).lays hstate₁ hs
    · exact (passes_step hst).lays hstate₁ hs
    · exact lays_declaration hs first again hss
    · exact (passes_body hss).lays hstate₁ hs

theorem consistent_nextLine (hs : r.state.Consistent) (h : nextLine r = .ok (some ss) r') :
    ({ r' with statements := r'.statements ++ ss } : Run).state.Consistent := by
  rcases (operates_nextLine.of_ok h).state with ⟨ops, _, hops⟩
  rw [hops]
  exact consistent_run hs ops

theorem state_of_nextLine_none (h : nextLine r = .ok none r') : r'.state = r.state := by
  rcases of_bind h with ⟨t, r₁, hpeek, h⟩
  split at h
  · cases h
    exact state_of_reading hpeek
  · rcases map_eq_ok h with ⟨_, _, hsome⟩
    cases hsome

/-! ## Numbers of lines -/

theorem readLines_cases (h : readLines (n + 1) r = .ok () r') :
    nextLine r = .ok none r' ∨ ∃ ss u, nextLine r = .ok (some ss) u ∧
      readLines n { u with statements := u.statements ++ ss } = .ok () r' := by
  rcases lines_cases h with hend | ⟨ss, u, v, hnext, hdeliver, hrest⟩
  · exact .inl hend
  · rw [forM_deliver] at hdeliver
    cases hdeliver
    exact .inr ⟨ss, u, hnext, hrest⟩

theorem fields_some (h : nextLine r = .ok (some ss) r') :
    r.fields (n + 1) =
      r.lineFields ss ++ Run.fields n { r' with statements := r'.statements ++ ss } := by
  simp only [Run.fields, h]

theorem fields_none (h : nextLine r = .ok none r') : r.fields n = [] := by
  cases n with
  | zero => rfl
  | succ n => simp only [Run.fields, h]

theorem statements_kept (h : readLines n r = .ok () r') : r.statements <+: r'.statements := by
  induction n generalizing r with
  | zero => cases h
  | succ n ih =>
    rcases readLines_cases h with hend | ⟨ss, u, hnext, hrest⟩
    · have hsame := (operates_nextLine.of_ok hend).statements
      exact ⟨[], by rw [append_nil, hsame]⟩
    · have hlater := ih hrest
      rw [(operates_nextLine.of_ok hnext).statements] at hlater
      exact (prefix_append _ _).trans hlater

theorem fields_extend {m : Nat} (hle : n ≤ m) (r : Run) : r.fields n <+: r.fields m := by
  induction n generalizing m r with
  | zero => exact nil_prefix
  | succ n ih =>
    rcases Nat.exists_eq_add_of_le' hle with ⟨k, rfl⟩
    cases hnext : nextLine r with
    | error f u => simp only [Run.fields, hnext, nil_prefix]
    | ok o u =>
      cases o with
      | none =>
        rw [fields_none hnext]
        exact nil_prefix
      | some ss =>
        rw [fields_some hnext, ← Nat.add_assoc, fields_some hnext, prefix_append_right_inj]
        exact ih (Nat.le_add_left n k) _

theorem fields_ended {m : Nat} (h : readLines m r = .ok () r') (n : Nat) :
    r.fields n <+: r.fields m := by
  induction m generalizing r n with
  | zero => cases h
  | succ m ih =>
    rcases readLines_cases h with hend | ⟨ss, u, hnext, hrest⟩
    · rw [fields_none hend]
      exact nil_prefix
    · cases n with
      | zero => exact nil_prefix
      | succ n =>
        rw [fields_some hnext, fields_some hnext, prefix_append_right_inj]
        exact ih hrest n

theorem width_pos_of_field? {form : Form} {start : Int} (h : form.field? = some (start, width)) :
    0 < width := by
  unfold Form.field? at h
  split at h
  · next definer =>
    rcases Option.map_eq_some_iff.mp h with ⟨_, hunit, heq⟩
    cases heq
    unfold Definer.unit? at hunit
    split at hunit <;> cases hunit <;> decide
  · cases h

theorem width_pos {f : StorageField} (h : f ∈ r.fields n) : 0 < f.width := by
  induction n generalizing r with
  | zero => cases h
  | succ n ih =>
    unfold Run.fields at h
    split at h
    · rcases mem_append.mp h with hline | hlater
      · rcases mem_filterMap.mp hline with ⟨st, _, hst⟩
        split at hst <;> cases hst
        next hfield _ => exact width_pos_of_field? hfield
      · exact ih hlater
    · cases h

theorem fields_eq (hs : r.state.Consistent) (h : readLines n r = .ok () r') :
    (r'.statements.filterMap fun st => st.form.field?) =
      (r.statements.filterMap fun st => st.form.field?) ++
        (r.fields n).map fun f => (f.start, f.width) := by
  induction n generalizing r with
  | zero => cases h
  | succ n ih =>
    rcases readLines_cases h with hend | ⟨ss, u, hnext, hrest⟩
    · rw [fields_none hend, (operates_nextLine.of_ok hend).statements, map_nil,
        append_nil]
    · rw [ih (consistent_nextLine hs hnext) hrest, fields_some hnext, map_append,
        (nextLine_laid hs hnext).fields, filterMap_append,
        (operates_nextLine.of_ok hnext).statements,
        append_assoc]

section

variable {m : Nat} (hs : r.state.Consistent) (h : readLines m r = .ok () r')
  (hplaces : ∀ st ∈ r'.statements, st.form.placesCursor = false)

include hs h hplaces

theorem laid_fields (n : Nat) : StorageField.Laid r.state.storage (r.fields n)
    (Run.reached (readLines n r)).state.storage := by
  induction m generalizing r n with
  | zero => cases h
  | succ m ih =>
    cases n with
    | zero => exact rfl
    | succ n =>
      rcases readLines_cases h with hend | ⟨ss, u, hnext, hrest⟩
      · rw [fields_none hend, readLines_none hend]
        exact congrArg storage (state_of_nextLine_none hend)
      · -- the statements of this line are among those that are handed over in the end
        have hline : ∀ st ∈ ss, st.form.placesCursor = false := by
          intro st hst
          exact hplaces st ((statements_kept hrest).mem (mem_append_right _ hst))
        rw [fields_some hnext, readLines_some hnext, StorageField.laid_append]
        exact ⟨u.state.storage, (nextLine_laid hs hnext).laid hline,
          ih (consistent_nextLine hs hnext) hrest n⟩

/-- A cursor that never moves back has no negative field. -/
theorem sizes_nonneg (hrange : StorageField.InRange r.state.storage (r.fields m))
    (hmono : ∀ i j, i ≤ j → (Run.reached (readLines i r)).state.storage ≤
      (Run.reached (readLines j r)).state.storage) :
    ∀ f ∈ r.fields m, 0 ≤ f.size := by
  induction m generalizing r with
  | zero => cases h
  | succ m ih =>
    have hone := laid_fields hs h hplaces 1
    rcases readLines_cases h with hend | ⟨ss, u, hnext, hrest⟩
    · rw [fields_none hend]
      simp
    · rw [fields_some hnext] at hrange hone ⊢
      -- the line moves the cursor by the size of its field, and not back
      have hmoved : u.state.storage = r.state.storage + StorageField.total (r.lineFields ss) := by
        rw [readLines_some hnext, Run.fields, append_nil] at hone
        exact hone.last_eq (hrange.initial (prefix_append _ _))
      have hforward : r.state.storage ≤ u.state.storage := by
        have hstep := hmono 0 1 (Nat.zero_le 1)
        rw [readLines_some hnext] at hstep
        exact hstep
      refine forall_mem_append.mpr ⟨?_, ?_⟩
      · intro f hf
        rcases (nextLine_laid hs hnext).single with hnil | ⟨g, hg⟩
        · rw [hnil] at hf
          cases hf
        · rw [hg] at hf hmoved
          rw [mem_singleton.mp hf]
          rw [StorageField.total_cons, StorageField.total_nil] at hmoved
          omega
      · refine ih (consistent_nextLine hs hnext) hrest ?_ ?_
        · have hbehind := hrange.behind
          rw [← hmoved] at hbehind
          exact hbehind
        · intro i j hij
          have hshift := hmono (i + 1) (j + 1) (Nat.add_le_add_right hij 1)
          rw [readLines_some hnext, readLines_some hnext] at hshift
          exact hshift

end

end Step

/-! ## Whole sources -/

namespace Run

/-- The storage fields of a source that is read from a state. -/
def fieldsOf (source : Source) (s : State) : List StorageField :=
  (Run.start source s (.empty 100 false)).fields (source.text.length + 2)

/-- While a source is read from a state, the cursor never moves back from one line to a later one.
-/
def CursorAdvances (source : Source) (s : State) : Prop :=
  ∀ n m, n ≤ m → (afterLines source s n).state.storage ≤ (afterLines source s m).state.storage

/-- Let nothing in a source give the storage cursor a place of its own, and let the sizes of its
fields add up to words. If no count is negative, no two fields share a byte and the cursor never
moves back. It does move back if a count is negative. -/
theorem fields_laid_out (source : Source) (s : State) (r : Run) (hs : s.Consistent)
    (h : Run.parse source s = .ok () r)
    (hplaces : ∀ st ∈ r.statements, st.form.placesCursor = false)
    (htotal : ∀ n, s.storage + StorageField.total ((fieldsOf source s).take n) < 0x80000000) :
    ((fieldsOf source s).map fun f => (f.start, f.width)) =
        (r.statements.filterMap fun st => st.form.field?) ∧
    ((∀ f ∈ fieldsOf source s, 0 ≤ f.count) →
      (fieldsOf source s).Pairwise StorageField.Apart ∧ CursorAdvances source s) ∧
    ((∀ n, -0x80000000 ≤ s.storage + StorageField.total ((fieldsOf source s).take n)) →
      CursorAdvances source s → ∀ f ∈ fieldsOf source s, 0 ≤ f.count) := by
  rcases parse_eq_ok_iff.mp h with ⟨u, hlines, rfl⟩
  have hlaid := Step.laid_fields hs hlines hplaces
  refine ⟨?_, ?_, ?_⟩
  · exact (Step.fields_eq hs hlines).symm
  · intro hcounts
    have hsizes : ∀ f ∈ fieldsOf source s, 0 ≤ f.size :=
      fun f hf => (StorageField.size_nonneg_iff (Step.width_pos hf)).mpr (hcounts f hf)
    have hwhole : s.storage + StorageField.total (fieldsOf source s) < 0x80000000 := by
      have hall := htotal (fieldsOf source s).length
      rwa [take_length] at hall
    have hrange : StorageField.InRange s.storage (fieldsOf source s) :=
      StorageField.inRange_of_total hs.storage_mem_range.1 hsizes hwhole
    constructor
    · have hordered := (hlaid _).pairwise hrange hsizes
      exact hordered.imp StorageField.apart_of_stop_le
    · intro n m hle
      -- the cursor counts the fields of the lines read so far
      have hcursor : ∀ k, (afterLines source s k).state.storage =
          s.storage + StorageField.total ((start source s (.empty 100 false)).fields k) :=
        fun k => (hlaid k).last_eq (hrange.initial (Step.fields_ended hlines k))
      have hsizes' : ∀ f ∈ (start source s (.empty 100 false)).fields m, 0 ≤ f.size :=
        fun f hf => hsizes f ((Step.fields_ended hlines m).mem hf)
      have hmore := StorageField.total_mono (Step.fields_extend hle _) hsizes'
      rw [hcursor n, hcursor m]
      omega
  · intro hlow hmono f hf
    have hrange : StorageField.InRange s.storage (fieldsOf source s) := fun n => ⟨hlow n, htotal n⟩
    have hsize := Step.sizes_nonneg hs hlines hplaces hrange hmono f hf
    exact (StorageField.size_nonneg_iff (Step.width_pos hf)).mp hsize

/-- Words, a byte and a number of long words that a constant gives. -/
theorem fields_laid_out_packed :
    let source := Source.ofText "size equ 3\nhp rw 2\nflags rb\nname rl size" "f.asm"
    ∃ r, Run.parse source (.fresh false) = .ok () r ∧
      (∀ st ∈ r.statements, st.form.placesCursor = false) ∧
      fieldsOf source (.fresh false) = [⟨0, 2, 2⟩, ⟨4, 1, 1⟩, ⟨5, 3, 4⟩] ∧
      (fieldsOf source (.fresh false)).Pairwise StorageField.Apart ∧
      CursorAdvances source (.fresh false) := by
  intro source
  have hread : endsWith (fun _ r => r.statements.all fun st => !st.form.placesCursor)
      (Run.parse source (.fresh false)) = true := by
    decide +kernel
  have hfields : fieldsOf source (.fresh false) = [⟨0, 2, 2⟩, ⟨4, 1, 1⟩, ⟨5, 3, 4⟩] := by
    decide +kernel
  rcases endsWith_iff.mp hread with ⟨_, r, hparse, hplaces⟩
  have hplaces : ∀ st ∈ r.statements, st.form.placesCursor = false := by
    simpa [all_eq_true] using hplaces
  have hcounts : ∀ f ∈ fieldsOf source (.fresh false), 0 ≤ f.count := by
    rw [hfields]
    decide
  have htotal : ∀ n, (fresh false).storage +
      StorageField.total ((fieldsOf source (.fresh false)).take n) < 0x80000000 := by
    intro n
    rw [hfields]
    rcases n with _ | _ | _ | n
    · decide
    · decide
    · decide
    · rw [take_of_length_le (by simp)]
      decide
  have hlaid :=
    fields_laid_out source (.fresh false) r (consistent_fresh false) hparse hplaces htotal
  exact ⟨r, hparse, hplaces, hfields, hlaid.2.1 hcounts⟩

/-- A negative count is not refused: the cursor moves back into the first field, and the third field
starts there. -/
theorem fields_overlap_negative :
    let source := Source.ofText "first rb 4\nback rb -2\nthird rb 1" "<input>"
    ∃ r, Run.parse source (.fresh false) = .ok () r ∧
      (∀ st ∈ r.statements, st.form.placesCursor = false) ∧
      fieldsOf source (.fresh false) = [⟨0, 4, 1⟩, ⟨4, -2, 1⟩, ⟨2, 1, 1⟩] ∧
      ¬ (fieldsOf source (.fresh false)).Pairwise StorageField.Apart ∧
      ¬ CursorAdvances source (.fresh false) := by
  intro source
  have hread : endsWith (fun _ r => r.statements.all fun st => !st.form.placesCursor)
      (Run.parse source (.fresh false)) = true := by
    decide +kernel
  have hfields : fieldsOf source (.fresh false) = [⟨0, 4, 1⟩, ⟨4, -2, 1⟩, ⟨2, 1, 1⟩] := by
    decide +kernel
  rcases endsWith_iff.mp hread with ⟨_, r, hparse, hplaces⟩
  refine ⟨r, hparse, by simpa [all_eq_true] using hplaces, hfields, ?_, ?_⟩
  · rw [hfields]
    intro hapart
    rcases pairwise_cons.mp hapart with ⟨hfirst, _⟩
    have hbefore : StorageField.Occupies ⟨0, 4, 1⟩ 2 := ⟨by decide, by decide⟩
    have hagain : StorageField.Occupies ⟨2, 1, 1⟩ 2 := ⟨by decide, by decide⟩
    exact hfirst ⟨2, 1, 1⟩ (by simp) 2 hbefore hagain
  · intro hmono
    have hback : ¬ (afterLines source (.fresh false) 1).state.storage ≤
        (afterLines source (.fresh false) 2).state.storage := by
      decide +kernel
    exact hback (hmono 1 2 (by decide))

end Run

end Sm83
