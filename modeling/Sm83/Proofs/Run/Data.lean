import Sm83.Proofs.Run.Cursor

/-!
# The bytes of data lines

A value of a data line takes up one unit, and a text one unit for each of its characters. The size
of a line is the sum of this over its values, and the counters of the section and of an open load
block move on by the size. A line whose values take up nothing is treated like a line without
values, and is counted with one unit.
-/

namespace Sm83

open Outcome

/-- The bytes of a unit, for the directives with values to be stored. -/
def Directive.dataUnit? : Directive → Option Int
  | db => some 1
  | dw => some 2
  | dl => some 4
  | _ => none

namespace Expr

/-- The text that an expression is, if it is one as it stands. -/
def writtenText? : Expr → Option String
  | text s => some s
  | _ => none

/-- The bytes that a value takes up. -/
def unitBytes (width : Int) (e : Expr) : Int :=
  match e.writtenText? with
  | some s => width * s.length
  | none => width

/-- The bytes that values take up. -/
def totalBytes (width : Int) : List Expr → Int
  | [] => 0
  | e :: es => e.unitBytes width + totalBytes width es

section

variable {width : Int} {e : Expr} {xs ys : List Expr}

theorem unitBytes_nonneg (hwidth : 0 < width) (e : Expr) : 0 ≤ e.unitBytes width := by
  unfold unitBytes
  split
  · exact Int.mul_nonneg (Int.le_of_lt hwidth) (Int.natCast_nonneg _)
  · exact Int.le_of_lt hwidth

theorem unitBytes_eq_zero_iff (hwidth : 0 < width) : e.unitBytes width = 0 ↔ e = .text "" := by
  cases e with
  | text s =>
    show width * (s.length : Int) = 0 ↔ _
    rw [Int.mul_eq_zero]
    constructor
    · rintro (hzero | hlength)
      · exact absurd hzero (Int.ne_of_gt hwidth)
      · rw [String.length_eq_zero_iff.mp (Int.natCast_eq_zero.mp hlength)]
    · rintro ⟨⟩
      exact .inr rfl
  | _ => exact iff_of_false (Int.ne_of_gt hwidth) nofun

theorem totalBytes_nonneg (hwidth : 0 < width) (es : List Expr) : 0 ≤ totalBytes width es := by
  induction es with
  | nil => exact Int.le_refl 0
  | cons e es ih => exact Int.add_nonneg (unitBytes_nonneg hwidth e) ih

theorem totalBytes_eq_zero_iff (hwidth : 0 < width) :
    totalBytes width xs = 0 ↔ ∀ e ∈ xs, e = .text "" := by
  induction xs with
  | nil => simp [totalBytes]
  | cons e es ih =>
    have hunit := unitBytes_nonneg hwidth e
    have htotal := totalBytes_nonneg hwidth es
    rw [List.forall_mem_cons, ← ih, ← unitBytes_eq_zero_iff hwidth, totalBytes]
    omega

theorem totalBytes_ne_zero_iff (hwidth : 0 < width) :
    totalBytes width xs ≠ 0 ↔ ∃ e ∈ xs, e ≠ .text "" := by
  rw [ne_eq, totalBytes_eq_zero_iff hwidth]
  simp

theorem totalBytes_append (width : Int) (xs ys : List Expr) :
    totalBytes width (xs ++ ys) = totalBytes width xs + totalBytes width ys := by
  induction xs with
  | nil => simp [totalBytes]
  | cons e es ih => rw [List.cons_append, totalBytes, totalBytes, ih, Int.add_assoc]

theorem totalBytes_congr (h : xs.map writtenText? = ys.map writtenText?) :
    totalBytes width xs = totalBytes width ys := by
  induction xs generalizing ys with
  | nil => rw [List.map_eq_nil_iff.mp h.symm]
  | cons e es ih =>
    cases ys with
    | nil => cases h
    | cons e' es' =>
      rw [List.map_cons, List.map_cons, List.cons.injEq] at h
      rw [totalBytes, totalBytes, ih h.2, unitBytes, unitBytes, h.1]

end

section

variable {r : Resolver} {e e' : Expr}

theorem writtenText?_of_fold (h : e.fold r = .ok e') (he : e.writtenText? = none) :
    e'.writtenText? = none := by
  unfold fold at h
  split at h
  · cases h
    rfl
  · cases h
    exact he
  · cases h

theorem writtenText?_of_operand {field : Field} (h : e.operand r field = .ok e')
    (he : e.writtenText? = none) : e'.writtenText? = none := by
  unfold operand at h
  split at h
  · split at h
    · cases h
      rfl
    · cases h
  · cases h
    exact he
  · cases h

end

end Expr

namespace Step

open Sm83.Expr

section

variable {resolver : Resolver} {width : Int}

theorem writtenText?_of_dataValue {e e' : Expr} (h : dataValue resolver width e = .ok e') :
    e'.writtenText? = e.writtenText? := by
  unfold dataValue at h
  split at h
  · cases h
    rfl
  · next hnone =>
    have he : e.writtenText? = none := by
      unfold writtenText?
      split
      · next s => exact absurd rfl (hnone s)
      · rfl
    rw [he]
    split at h
    · exact writtenText?_of_operand h he
    · split at h
      · exact writtenText?_of_operand h he
      · exact writtenText?_of_fold h he

theorem map_writtenText?_of_mapM {given stored : List Expr}
    (h : given.mapM (dataValue resolver width) = .ok stored) :
    stored.map writtenText? = given.map writtenText? := by
  induction given generalizing stored with
  | nil =>
    cases h
    rfl
  | cons e es ih =>
    rw [List.mapM_cons] at h
    rcases bind_eq_ok_iff.mp h with ⟨e', he, h⟩
    rcases bind_eq_ok_iff.mp h with ⟨es', hes, ⟨⟩⟩
    rw [List.map_cons, List.map_cons, writtenText?_of_dataValue he, ih hes]

end

/-- The size of values that take up so many bytes, with one unit for values that take up none. -/
def paddedSize (width total : Int) : Int :=
  if total = 0 then width else total

theorem dataSizes_eq (width : Int) (es : List Expr) :
    dataSizes width es = paddedSize width (totalBytes width es) := by
  have hunit : ∀ e, dataSize width e = e.unitBytes width := by
    intro e
    cases e with
    | text s => exact Int.mul_comm _ _
    | _ => rfl
  have htotal : es.foldr (fun e size => dataSize width e + size) 0 = totalBytes width es := by
    induction es with
    | nil => rfl
    | cons e es ih => rw [List.foldr_cons, ih, hunit, totalBytes]
  unfold dataSizes paddedSize
  rw [htotal]

theorem unitWidth_of_dataUnit? {d : Directive} {width : Int} (h : d.dataUnit? = some width) :
    d ≠ .ds ∧ unitWidth d = width ∧ 0 < width := by
  cases d with
  | db | dw | dl =>
    cases h
    exact ⟨nofun, rfl, by decide⟩
  | _ => cases h

section

variable {r r' : Run} {s : Statement} {ss : List Statement} {d : Directive} {values : List Expr}
  {width size : Int}

theorem data_eq_ok (h : data d r = .ok s r') (hform : s.form = .data d values size)
    (hd : d.dataUnit? = some width) :
    size = paddedSize width (totalBytes width values) ∧ r'.state = r.state.advance size := by
  rcases unitWidth_of_dataUnit? hd with ⟨hds, rfl, _⟩
  rcases of_bind h with ⟨word, r₁, hword, h⟩
  rcases of_bind h with ⟨⟨stored, size'⟩, r₂, hvalues, h⟩
  rcases of_bind h with ⟨_, r₃, ⟨⟩, ⟨⟩⟩
  cases hform
  have hvalues := located_eq_ok hvalues
  rw [if_neg hds] at hvalues
  have hstate : r₂.state = r.state :=
    ((woven_values d).state_eq hvalues).trans (state_of_reading hword)
  refine ⟨?_, congrArg (State.advance · size) hstate⟩
  rcases of_bind hvalues with ⟨given, r₃, _, h⟩
  rcases of_bind h with ⟨resolver, r₄, ⟨⟩, h⟩
  rcases of_bind h with ⟨stored, r₅, hstored, ⟨⟩⟩
  -- the size is counted from the values that are given, and the statement has those that are stored
  rw [dataSizes_eq, totalBytes_congr (map_writtenText?_of_mapM (ofExcept_eq_ok hstored).1)]

theorem beforeInstruction_sameSections {state next : State}
    (h : state.BeforeInstruction s ss next) : state.SameSections next := by
  cases h with
  | alone => exact .refl state
  | labelled hdefine => exact State.defineLabel_sameSections hdefine

theorem data_nextLine (h : nextLine r = .ok (some ss) r') (hs : s ∈ ss)
    (hform : s.form = .data d values size) :
    ∃ u u', data d u = .ok s u' ∧ r.state.SameSections u.state ∧ u'.state = r'.state := by
  rcases counted_nextLine h hs (by rw [hform]; rfl) with
    ⟨st, hbefore, u, u', rfl, hstate, ⟨m, hm⟩ | ⟨d', hdata⟩⟩
  · rcases instruction_encoded hm with ⟨_, _, _, _, _, hinstruction⟩
    rw [hinstruction] at hform
    cases hform
  · rcases data_form hdata with ⟨_, _, hform'⟩
    rw [hform'] at hform
    cases hform
    exact ⟨u, u', hdata, beforeInstruction_sameSections hbefore, hstate⟩

end

end Step

/-- The counters have moved on by so many bytes. -/
structure State.Advanced (s : State) (bytes : Int) (s' : State) : Prop where
  pc : s'.pc = s.pc + bytes
  load : s'.load = s.load
  loadPc : s'.loadPc = if s.load.isSome then s.loadPc + bytes else s.loadPc

namespace Run

open Sm83.Expr

/-- A line of data with the values is read, its statement has the size, and it leaves the run. -/
def ReadsData (r : Run) (d : Directive) (values : List Expr) (size : Int) (r' : Run) : Prop :=
  ∃ ss s, Step.nextLine r = .ok (some ss) r' ∧ s ∈ ss ∧ s.form = .data d values size

section

variable {r r' : Run} {d : Directive} {values : List Expr} {width size : Int}

theorem ReadsData.size_eq (h : ReadsData r d values size r') (hd : d.dataUnit? = some width) :
    size = Step.paddedSize width (totalBytes width values) := by
  rcases h with ⟨ss, s, hline, hs, hform⟩
  rcases Step.data_nextLine hline hs hform with ⟨u, u', hdata, _, _⟩
  exact (Step.data_eq_ok hdata hform hd).1

theorem ReadsData.advanced (h : ReadsData r d values size r') (hd : d.dataUnit? = some width) :
    r.state.Advanced size r'.state := by
  rcases h with ⟨ss, s, hline, hs, hform⟩
  rcases Step.data_nextLine hline hs hform with ⟨u, u', hdata, hsame, hstate⟩
  have hadvance : r'.state = u.state.advance size :=
    hstate.symm.trans (Step.data_eq_ok hdata hform hd).2
  rw [hadvance, hsame]
  exact ⟨rfl, rfl, rfl⟩

theorem readsData_of_endsWith (h : endsWith (fun line _ => line.isSome &&
    (line.getD []).any fun s => s.form == .data d values size) (Step.nextLine r) = true) :
    ∃ r', ReadsData r d values size r' := by
  simp only [endsWith_iff, Bool.and_eq_true, Option.isSome_iff_exists, List.any_eq_true,
    beq_iff_eq] at h
  rcases h with ⟨_, r', hline, ⟨ss, rfl⟩, s, hs, hform⟩
  exact ⟨r', ss, s, hline, hs, hform⟩

end

/-- The size of a data line is the sum over its values, unless they are all empty texts or there are
none, and is one unit then. The counters move on by the size. So the size of two lines put together
is the sum of their sizes just if neither of them is such a line. -/
theorem data_sizes {d : Directive} {width : Int} (hd : d.dataUnit? = some width) :
    (∀ r values size r', ReadsData r d values size r' →
      (size = totalBytes width values ↔ ∃ e ∈ values, e ≠ .text "") ∧
      ((∀ e ∈ values, e = .text "") → size = width) ∧ r.state.Advanced size r'.state) ∧
    ∀ r xs m r' s ys n s' t zs k t', ReadsData r d xs m r' → ReadsData s d ys n s' →
      ReadsData t d zs k t' → zs.map writtenText? = (xs ++ ys).map writtenText? →
      (k = m + n ↔ (∃ e ∈ xs, e ≠ .text "") ∧ ∃ e ∈ ys, e ≠ .text "") := by
  rcases Step.unitWidth_of_dataUnit? hd with ⟨_, _, hwidth⟩
  constructor
  · intro r values size r' h
    have hsize := h.size_eq hd
    refine ⟨?_, ?_, h.advanced hd⟩
    · rw [← totalBytes_ne_zero_iff hwidth, hsize, Step.paddedSize]
      split
      · next hzero => omega
      · next hsome => exact iff_of_true rfl hsome
    · intro hempty
      rw [hsize, Step.paddedSize, if_pos ((totalBytes_eq_zero_iff hwidth).mpr hempty)]
  · intro r xs m r' s ys n s' t zs k t' hxs hys hzs htexts
    have htotal : totalBytes width zs = totalBytes width xs + totalBytes width ys :=
      (totalBytes_congr htexts).trans (totalBytes_append width xs ys)
    have hx := totalBytes_nonneg hwidth xs
    have hy := totalBytes_nonneg hwidth ys
    rw [← totalBytes_ne_zero_iff hwidth, ← totalBytes_ne_zero_iff hwidth, hxs.size_eq hd,
      hys.size_eq hd, hzs.size_eq hd, htotal]
    -- a part that takes up nothing has a unit of its own, which the whole line lacks
    simp only [Step.paddedSize]
    grind

/-- A line with a text, a symbol that is not known and a number, in a load block and behind a label;
and the two lines that it can be cut into. -/
theorem data_sizes_mixed :
    let state : State := { State.fresh false with
      pc := 16, load := some ⟨"copied", .hram, none, none, none, true⟩, loadPc := 4 }
    let r (text : String) : Run := start (.ofText text "f.asm") state (.empty 100 false)
    ∃ r₁ r₂ r₃, ReadsData (r "dw \"ab\"") .dw [.text "ab"] 4 r₁ ∧
      ReadsData (r "dw later, 3") .dw [.symbol "later", .literal 3] 4 r₂ ∧
      ReadsData (r "all: dw \"ab\", later, 3") .dw [.text "ab", .symbol "later", .literal 3] 8 r₃ ∧
      8 = totalBytes 2 [.text "ab", .symbol "later", .literal 3] ∧ (8 : Int) = 4 + 4 ∧
      r₃.state.pc = 24 ∧ r₃.state.loadPc = 12 := by
  intro state r
  obtain ⟨r₁, h₁⟩ : ∃ u, ReadsData (r "dw \"ab\"") .dw [.text "ab"] 4 u :=
    readsData_of_endsWith (by decide +kernel)
  obtain ⟨r₂, h₂⟩ : ∃ u, ReadsData (r "dw later, 3") .dw [.symbol "later", .literal 3] 4 u :=
    readsData_of_endsWith (by decide +kernel)
  obtain ⟨r₃, h₃⟩ : ∃ u, ReadsData (r "all: dw \"ab\", later, 3")
      .dw [.text "ab", .symbol "later", .literal 3] 8 u :=
    readsData_of_endsWith (by decide +kernel)
  have hunit : Directive.dw.dataUnit? = some 2 := rfl
  rcases (data_sizes hunit).1 _ _ _ _ h₃ with ⟨htotal, _, hadvanced⟩
  refine ⟨r₁, r₂, r₃, h₁, h₂, h₃, htotal.mpr ?_, ?_, hadvanced.pc, hadvanced.loadPc⟩
  · exact ⟨.literal 3, by decide, nofun⟩
  · refine ((data_sizes hunit).2 _ _ _ _ _ _ _ _ _ _ _ _ h₁ h₂ h₃ rfl).mpr ⟨?_, ?_⟩
    · exact ⟨.text "ab", by decide, by decide⟩
    · exact ⟨.literal 3, by decide, nofun⟩

/-- An empty text takes up nothing, and is counted as one byte if it stands alone. Behind it, a
number is counted as if it stood alone. -/
theorem empty_text_counted :
    let r (text : String) : Run := start (.ofText text "<input>") (.fresh false) (.empty 100 false)
    ∃ r₁ r₂ r₃, ReadsData (r "db \"\"") .db [.text ""] 1 r₁ ∧ totalBytes 1 [.text ""] = 0 ∧
      r₁.state.pc = 1 ∧ ReadsData (r "db 7") .db [.literal 7] 1 r₂ ∧
      ReadsData (r "db \"\", 7") .db [.text "", .literal 7] 1 r₃ := by
  intro r
  obtain ⟨r₁, h₁⟩ : ∃ u, ReadsData (r "db \"\"") .db [.text ""] 1 u :=
    readsData_of_endsWith (by decide +kernel)
  obtain ⟨r₂, h₂⟩ : ∃ u, ReadsData (r "db 7") .db [.literal 7] 1 u :=
    readsData_of_endsWith (by decide +kernel)
  obtain ⟨r₃, h₃⟩ : ∃ u, ReadsData (r "db \"\", 7") .db [.text "", .literal 7] 1 u :=
    readsData_of_endsWith (by decide +kernel)
  exact ⟨r₁, r₂, r₃, h₁, rfl, (h₁.advanced rfl).pc, h₂, h₃⟩

end Run

end Sm83
