import Sm83.Proofs.Run.Listing
import Sm83.Proofs.State.Storage

/-!
# Lines and the storage cursor

Most parts of a line leave the storage cursor where it is. It moves where a line declares a storage
field, and otherwise only where a statement gives it a place: `rsreset`, `rsset`, and the definition
of the cursor itself.
-/

namespace Sm83

/-- The bytes of the unit that a definer of storage fields counts in. -/
def Definer.unit? : Definer → Option Int
  | .rb => some 1
  | .rw => some 2
  | .rl => some 4
  | _ => none

/-- Where the storage field of a statement starts, and the bytes of its unit. -/
def Form.field? : Form → Option (Int × Int)
  | .symbol _ _ (.number start) definer => definer.unit?.map fun width => (start, width)
  | _ => none

/-- The statement gives the storage cursor a place of its own. -/
def Form.placesCursor : Form → Bool
  | .directive d _ => d = .storageReset || d = .storageSet
  | .symbol name _ _ definer => name = State.storageName && (definer = .set || definer = .assign)
  | _ => false

/-- The operation leaves the storage cursor where it is. -/
def Operation.keepsStorage : Operation → Bool
  | .advanceStorage _ | .resetStorage _ | .defineVariable .. => false
  | _ => true

namespace Step

variable {α : Type} {r r₁ r' u : Run} {st : Statement} {ss : List Statement}

theorem Weaves.unmoved {x : Step α} {a : α} {Q : α → Prop}
    (h : Woven .free Operation.keepsStorage x Q) (hx : x r = .ok a r') :
    r.state.Unmoved r'.state := by
  refine h.relates (fun _ => .of_eq rfl) .trans ?_ hx
  intro op s answer s' hop hperform
  refine State.unmoved_of_perform ?_ hperform
  cases op with
  | advanceStorage | resetStorage | defineVariable => cases hop
  | _ => exact id

theorem Performs.unmoved {op : Operation} {x : Step α} {a : α} (hx : Performs op x)
    (hop : ¬ op.SetsStorage r.state) (h : x r = .ok a r') : r.state.Unmoved r'.state := by
  rcases hx.cases r with ⟨_, _, after, _, hok, hperform⟩ | ⟨e, herror, _⟩
  · rw [hok] at h
    cases h
    exact State.unmoved_of_perform hop hperform
  · rw [herror] at h
    cases h

/-- Statements none of which is a storage field have been read, and the cursor is where it was
unless one of them gives it a place. -/
def Passes (r : Run) (ss : List Statement) (r' : Run) : Prop :=
  (∀ st ∈ ss, st.form.field? = none) ∧
    ((∀ st ∈ ss, st.form.placesCursor = false) → r.state.Unmoved r'.state)

theorem passes_nil (h : r'.state = r.state) : Passes r [] r' :=
  ⟨by simp, fun _ => .of_eq h⟩

theorem passes_singleton (hfield : st.form.field? = none)
    (h : st.form.placesCursor = false → r.state.Unmoved r'.state) : Passes r [st] r' := by
  simpa [Passes] using And.intro hfield h

/-- What each part of a line passes. -/
theorem passes_step {p : Part} (h : p.step r = .ok st r') : Passes r [st] r' := by
  have hof := isOf_of_step h
  refine passes_singleton ?_ ?_
  · cases hform : st.form with
    | symbol =>
      rw [hform] at hof
      cases p <;> cases hof
    | _ => rfl
  · intro hplaces
    refine (woven_step fun op hop => ?_).unmoved h
    cases op with
    | resetStorage value =>
      cases p with
      | directive d =>
        -- such a directive is passed on as it is
        exfalso
        have hd : d = .storageReset ∨ d = .storageSet := by
          simpa [Part.allows, Operation.suits] using hop
        cases hform : st.form with
        | directive d' args =>
          rw [hform] at hof hplaces
          cases of_decide_eq_true hof
          simp [Form.placesCursor] at hplaces
          exact absurd hd (not_or.mpr hplaces)
        | _ =>
          rw [hform] at hof
          rcases hd with rfl | rfl <;> cases hof
      | _ => cases hop
    | advanceStorage | defineVariable => cases p <;> cases hop
    | _ => rfl

theorem passes_macroBody {name : Token} {spelling : String}
    (h : macroBody name spelling r = .ok st r') : Passes r [st] r' := by
  have hstate : r'.state = r.state := (woven_macroBody name spelling).state_eq h
  rcases Outcome.of_bind h with ⟨_, _, _, h⟩
  rcases Outcome.of_bind h with ⟨_, _, _, h⟩
  rcases Outcome.of_bind h with ⟨_, _, _, h⟩
  rcases Outcome.of_bind h with ⟨_, _, _, ⟨⟩⟩
  exact passes_singleton rfl fun _ => .of_eq hstate

theorem passes_label {name : Token} {spelling : String} {exported : Bool}
    (h : label name spelling exported r = .ok st r') : Passes r [st] r' := by
  rcases label_eq_ok h with ⟨symbol, l, hdefine, rfl⟩
  have hperform : r.state.perform (.defineLabel spelling exported (some l)) =
      .ok (.symbol symbol, r'.state) := by
    simp only [State.perform, hdefine, Except.map]
  exact passes_singleton rfl fun _ => State.unmoved_of_perform id hperform

theorem Passes.append {more : List Statement} (h : Passes r ss r₁) (h' : Passes r₁ more r') :
    Passes r (ss ++ more) r' := by
  refine ⟨List.forall_mem_append.mpr ⟨h.1, h'.1⟩, ?_⟩
  intro hforms
  rcases List.forall_mem_append.mp hforms with ⟨hfirst, hmore⟩
  exact (h.2 hfirst).trans (h'.2 hmore)

theorem Passes.congr {u' : Run} (h : Passes u ss u') (hr : u.state = r.state)
    (hr' : r'.state = u'.state) : Passes r ss r' := by
  refine ⟨h.1, ?_⟩
  intro hforms
  rw [hr', ← hr]
  exact h.2 hforms

theorem passes_body (h : body r = .ok ss r') : Passes r ss r' := by
  rcases body_cases h with ⟨t, r₁, hpeek, ⟨rfl, hend⟩ | ⟨p, st, r₂, rfl, hst, hend⟩⟩
  · exact passes_nil ((woven_endLine.state_eq hend).trans (state_of_reading hpeek))
  · refine (passes_step hst).congr (state_of_reading hpeek) ?_
    rcases hend with rfl | hend
    · rfl
    · exact woven_endLine.state_eq hend

end Step

end Sm83
