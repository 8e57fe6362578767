import Mathlib.Logic.Relation
import Sm83.Proofs.Run.Reached
import Sm83.Proofs.Run.Storage
import Sm83.Proofs.State.Atomic
import Sm83.Proofs.State.Scope

/-!
# Names that lines declare

A line defines at most one name, the one that its first token declares, in the scope that the line
starts in. So a name that is defined has been declared by a line read before, and where a local name
is taken, it was declared with the same spelling under the same label, or its full name was written
out.
-/

namespace Sm83

open State

/-- The operation defines no other name than the declared one. -/
def Operation.keepsTo (declared : Option String) (op : Operation) : Bool :=
  op.defined? = none || op.defined? = declared

namespace Step

variable {r r₁ r' : Run} {t : Token} {ss : List Statement}

theorem Weaves.adds {α : Type} {declared : Option String} {x : Step α} {a : α}
    {Q : α → Prop} (h : Woven .free (Operation.keepsTo declared) x Q) (hx : x r = .ok a r') :
    State.Adds declared r.state r'.state := by
  refine h.relates .refl .trans ?_ hx
  intro op s answer s' hop hperform
  refine adds_of_perform ?_ hperform
  intro spelling hspelling
  simpa [Operation.keepsTo, hspelling, eq_comm] using hop

theorem line_adds (hpeek : peek r = .ok t r₁) (h : line r₁ = .ok ss r') :
    State.Adds (declared? t.lexeme) r₁.state r'.state := by
  rcases line_cases h with ⟨t', r₂, again, hcases⟩
  cases peek_again hpeek again
  refine (State.Adds.of_eq (state_of_reading again)).trans ?_
  rcases hcases with ⟨_, _, hskip⟩ | ⟨d, st, _, hst⟩ | ⟨spelling, hdeclared, hss⟩ | hss
  · exact woven_advance.adds hskip
  · exact (woven_step (p := .conditional d) fun _ hop => nomatch hop).adds hst
  · rw [hdeclared]
    refine ((begins_declaration (Watch.declares_free _) fun op hop => ?_).woven
      fun _ _ hss => hss).adds hss
    simpa [Operation.keepsTo] using hop
  · -- without a declaration, nothing is defined
    exact (woven_body fun op hop => by simp [Operation.keepsTo, hop]).adds hss

/-- A line defines no other name than the one that its first token declares, in the scope that the
line starts in. -/
theorem nextLine_adds (h : nextLine r = .ok (some ss) r') :
    ∃ t r₁, peek r = .ok t r₁ ∧ State.Adds (declared? t.lexeme) r.state r'.state := by
  rcases nextLine_cases h with ⟨t, r₁, hpeek, _, hline⟩
  exact ⟨t, r₁, hpeek, state_of_reading hpeek ▸ line_adds hpeek hline⟩

end Step

namespace Run

/-- The second run stands behind the line that the first stands before. -/
def NextLine (r r' : Run) : Prop :=
  ∃ ss u, Step.nextLine r = .ok (some ss) u ∧ r' = { u with statements := u.statements ++ ss }

/-- The line between two runs defines a name by the spelling of its first token. -/
structure LineDefines (r r' : Run) (spelling name : String) : Prop where
  line : r.NextLine r'
  declares : ∃ t u, Step.peek r = .ok t u ∧ Step.declared? t.lexeme = some spelling
  full : r.state.qualify spelling = .ok name
  before : r.state.isDefined name = false
  behind : r'.state.isDefined name = true

variable {source : Source} {state : State} {r : Run} {name : String}

theorem Reached.declared (hr : Reached source state r) (hname : r.state.isDefined name = true) :
    state.isDefined name = true ∨ ∃ r₀ r₁ spelling, Reached source state r₀ ∧
      r₀.LineDefines r₁ spelling name ∧ Relation.ReflTransGen NextLine r₁ r := by
  induction hr with
  | start => exact .inl hname
  | @line r r' ss hr hline ih =>
    have hnext : NextLine r { r' with statements := r'.statements ++ ss } := ⟨ss, r', hline, rfl⟩
    cases hbefore : r.state.isDefined name with
    | true =>
      rcases ih hbefore with hstate | ⟨r₀, r₁, spelling, hr₀, hdefines, hsteps⟩
      · exact .inl hstate
      · exact .inr ⟨r₀, r₁, spelling, hr₀, hdefines, hsteps.tail hnext⟩
    | false =>
      rcases Step.nextLine_adds hline with ⟨t, u, hpeek, hadds⟩
      rcases hadds.defined name hname with hold | ⟨spelling, hdeclared, hfull⟩
      · rw [hold] at hbefore
        cases hbefore
      · exact .inr ⟨r, _, spelling, hr, ⟨hnext, ⟨t, u, hpeek, hdeclared⟩, hfull, hbefore, hname⟩,
          .refl⟩

theorem Reached.leads (hr : Reached source state r) : state.Leads r.state := by
  induction hr with
  | start => exact .refl state
  | line hr hline ih => exact ih.trans (Step.operates_nextLine.of_ok hline).state

theorem Reached.declared_local {exportAll : Bool} {spelling label : String}
    (hr : Reached source (.fresh exportAll) r) (hscope : r.state.scope = some label)
    (hspelling : isLocalSpelling spelling = true)
    (hname : r.state.isDefined (label ++ spelling) = true) :
    ∃ r₀ r₁ other, Reached source (.fresh exportAll) r₀ ∧
      r₀.LineDefines r₁ other (label ++ spelling) ∧ Relation.ReflTransGen NextLine r₁ r ∧
      (other = spelling ∧ r₀.state.scope = some label ∨ other = label ++ spelling) := by
  rcases hr.declared hname with hfresh | ⟨r₀, r₁, other, hr₀, hdefines, hsteps⟩
  · -- the only name that a fresh state knows has no dot
    have hdot : isLocalName (label ++ spelling) = true := isLocalName_append hspelling
    rw [eq_storageName_of_fresh hfresh] at hdot
    exact absurd hdot (by decide)
  · refine ⟨r₀, r₁, other, hr₀, hdefines, hsteps, ?_⟩
    cases hother : isLocalSpelling other with
    | true =>
      have hfull : r.state.qualify spelling = .ok (label ++ spelling) :=
        (qualify_local hspelling).mpr ⟨label, hscope, rfl⟩
      rcases qualify_injective hr₀.leads.consistent hr.leads.consistent hother hspelling
        hdefines.full hfull with ⟨hscopes, hsame⟩
      exact .inl ⟨hsame, hscopes.trans hscope⟩
    | false =>
      have hfull := hdefines.full
      rw [qualify_global hother] at hfull
      cases hfull
      exact .inr rfl

end Run

/-- Local names stand for one label each. In any two states that issued operations lead to, two
local spellings stand for one name only if they are the same, under the same label, and a full name
is left alone. Where a local label is refused because its name is taken, a line read before has
defined the name. -/
theorem local_names_unique (exportAll : Bool) (source : Source) :
    let start := fresh exportAll
    (∀ s, start.Leads s → ∀ spelling name,
      s.qualify spelling = .ok name → s.qualify name = .ok name) ∧
    (∀ s t, start.Leads s → start.Leads t → ∀ spelling other name,
      isLocalSpelling spelling = true → isLocalSpelling other = true →
      s.qualify spelling = .ok name → t.qualify other = .ok name →
      s.scope = t.scope ∧ spelling = other) ∧
    (∀ n, start.Leads (Run.afterLines source start n).state) ∧
    (∃ n, (Run.reached (Run.parse source start)).state = (Run.afterLines source start n).state) ∧
    ∀ r, Run.Reached source start r → start.Leads r.state ∧
      ∀ spelling exported location e, isLocalSpelling spelling = true →
        r.state.defineLabel spelling exported location = .error e → State.IsRedefinition e →
        ∃ label r₀ r₁ other, r.state.scope = some label ∧ Run.Reached source start r₀ ∧
          r₀.LineDefines r₁ other (label ++ spelling) ∧ Relation.ReflTransGen Run.NextLine r₁ r ∧
          (other = spelling ∧ r₀.state.scope = some label ∨ other = label ++ spelling) := by
  intro start
  refine ⟨?_, ?_, ?_, ?_, ?_⟩
  · intro s hs spelling name h
    exact qualify_idempotent hs.consistent h
  · intro s t hs ht spelling other name hspelling hother h h'
    exact qualify_injective hs.consistent ht.consistent hspelling hother h h'
  · exact fun n => Run.afterLines_leads source start (Nat.zero_le n)
  · exact ⟨_, Run.parse_state source start⟩
  · intro r hr
    refine ⟨hr.leads, ?_⟩
    intro spelling exported location e hspelling herror htaken
    -- a name that is taken was defined by some line, and only two spellings stand for it
    rcases taken_of_redefinition hr.leads.consistent herror htaken with ⟨name, hfull, hname⟩
    rcases (qualify_local hspelling).mp hfull with ⟨label, hscope, rfl⟩
    rcases hr.declared_local hscope hspelling hname with
      ⟨r₀, r₁, other, hr₀, hdefines, hsteps, hsame⟩
    exact ⟨label, r₀, r₁, other, hscope, hr₀, hdefines, hsteps, hsame⟩

/-- Behind a label and a local one, the local name is taken. -/
theorem local_names_unique_taken :
    let source := Source.ofText "Main:\n.loop:\n" "f.asm"
    ∃ r r₀ r₁ e other, Run.Reached source (.fresh false) r ∧
      r.state.defineLabel ".loop" false none = .error e ∧ State.IsRedefinition e ∧
      Run.Reached source (.fresh false) r₀ ∧ r₀.LineDefines r₁ other "Main.loop" ∧
      Relation.ReflTransGen Run.NextLine r₁ r ∧
      (other = ".loop" ∧ r₀.state.scope = some "Main" ∨ other = "Main.loop") := by
  intro source
  have hprobe : Outcome.endsWith (fun first u => first.isSome &&
      Outcome.endsWith (fun second v => second.isSome && v.state.scope == some "Main" &&
        (v.state.lookup "Main.loop").any (·.kind == .label))
        (Step.nextLine { u with statements := u.statements ++ first.getD [] }))
      (Step.nextLine (.start source (.fresh false) (.empty 100 false))) = true := by
    decide +kernel
  simp only [Outcome.endsWith_iff, Bool.and_eq_true, beq_iff_eq, Option.isSome_iff_exists,
    Option.any_eq_true] at hprobe
  rcases hprobe with
    ⟨_, u, hfirst, ⟨first, rfl⟩, _, v, hsecond, ⟨⟨second, rfl⟩, hscope⟩, x, hx, hkind⟩
  have hr := (Run.Reached.start.line hfirst).line hsecond
  have hname : "Main" ++ ".loop" = "Main.loop" := by decide
  have hfull : v.state.qualify ".loop" = .ok "Main.loop" :=
    (qualify_local (by decide)).mpr ⟨"Main", hscope, hname.symm⟩
  have hrefused : ∃ e, v.state.perform (.defineLabel ".loop" false none) = .error e ∧
      State.IsRedefinition e :=
    (redefinition_iff hr.leads.consistent rfl).mpr
      ⟨"Main.loop", hfull, .inl ⟨x, hx, by simp [hkind]⟩⟩
  rcases hrefused with ⟨e, hperform, htaken⟩
  have hlabel : v.state.defineLabel ".loop" false none = .error e :=
    Outcome.map_eq_error_iff.mp hperform
  rcases local_names_unique false source with ⟨_, _, _, _, hlaw⟩
  rcases (hlaw _ hr).2 ".loop" false none e (by decide) hlabel htaken with
    ⟨label, r₀, r₁, other, hlabelled, hr₀, hdefines, hsteps, hsame⟩
  cases hscope.symm.trans hlabelled
  rw [hname] at hdefines hsame
  exact ⟨_, r₀, r₁, e, other, hr, hlabel, htaken, hr₀, hdefines, hsteps, hsame⟩

end Sm83
