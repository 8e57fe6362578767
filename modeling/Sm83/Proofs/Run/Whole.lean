import Sm83.Proofs.Run.Lines

/-!
# Whole runs

What holds at all times of a run over one source: its stream stays sound, so that it only ever fails
with an error of the source or a numeral that has no value, and the expressions of its statements
are legal. A run that acts on its statements keeps all this as long as the actions leave the stream,
the state and the statements alone.
-/

namespace Sm83

namespace Step

variable {α β : Type} {text : List Char}

/-- From a run that `P` holds of, the step leads to a value and a run that `Q` holds of, or it fails
as the reading of a text may fail. -/
def Keeps (text : List Char) (P : Run → Prop) (x : Step α) (Q : α → Run → Prop) : Prop :=
  ∀ r, P r → match x r with
    | .ok a r' => Q a r'
    | .error f r' => r'.Fails text f

namespace Keeps

variable {P : Run → Prop} {x : Step α} {Q : α → Run → Prop} {Q' : β → Run → Prop}

theorem pure {a : α} (h : ∀ r, P r → Q a r) : Keeps text P (pure a) Q :=
  h

theorem throw {f : Failure} (h : ∀ r, P r → r.Fails text f) :
    Keeps text P (throw f : Step α) Q :=
  h

theorem bind {k : α → Step β} (hx : Keeps text P x Q) (hk : ∀ a, Keeps text (Q a) (k a) Q') :
    Keeps text P (x >>= k) Q' := by
  intro r hr
  have h := hx r hr
  show match EStateM.bind x k r with
    | .ok a r' => Q' a r'
    | .error f r' => r'.Fails text f
  unfold EStateM.bind
  cases hxr : x r with
  | ok a r' =>
    rw [hxr] at h
    exact hk a r' h
  | error f r' =>
    rw [hxr] at h
    exact h

theorem get_bind {k : Run → Step β} (hk : ∀ r, P r → Keeps text P (k r) Q') :
    Keeps text P (get >>= k) Q' :=
  fun r hr => hk r hr r hr

theorem modify {f : Run → Run} {Q : PUnit → Run → Prop} (h : ∀ r, P r → Q ⟨⟩ (f r)) :
    Keeps text P (modify f) Q :=
  h

theorem mono {P' : Run → Prop} {Q' : α → Run → Prop} (hx : Keeps text P x Q)
    (hP : ∀ r, P' r → P r) (hQ : ∀ a r, Q a r → Q' a r) : Keeps text P' x Q' := by
  intro r hr
  have h := hx r (hP r hr)
  cases hxr : x r with
  | ok a r' =>
    rw [hxr] at h
    exact hQ a r' h
  | error f r' =>
    rw [hxr] at h
    exact h

theorem assuming {p : Prop} (h : p → Keeps text P x Q) : Keeps text (fun r => p ∧ P r) x Q :=
  fun r hr => h hr.1 r hr.2

theorem of_follows {e : Frame} {P : Run → Run → Prop} {R : α → α → Prop}
    {Q : α → Run → Run → Prop} (h : Step.Follows e P x x R Q) :
    Keeps e.text (fun r => P r r) x fun a r => R a a ∧ Q a r r := by
  intro r hr
  have hxx := h r r hr
  cases hxr : x r with
  | ok a r' =>
    rw [hxr] at hxx
    cases hxx with
    | ok hR hQ => exact ⟨hR, hQ⟩
  | error f r' =>
    rw [hxr] at hxx
    cases hxx with
    | error hf => exact hf

theorem forM {as : List α} {f : α → Step PUnit} (h : ∀ a ∈ as, Keeps text P (f a) fun _ => P) :
    Keeps text P (as.forM f) fun _ => P := by
  induction as with
  | nil => exact pure fun _ hr => hr
  | cons a as ih =>
    exact (h a List.mem_cons_self).bind fun _ => ih fun b hb => h b (List.mem_cons_of_mem _ hb)

theorem filterAuxM {as acc : List α} {f : α → Step Bool}
    (h : ∀ a ∈ as, Keeps text P (f a) fun _ => P) :
    Keeps text P (as.filterAuxM f acc) fun bs r => (∀ b ∈ bs, b ∈ as ∨ b ∈ acc) ∧ P r := by
  induction as generalizing acc with
  | nil => exact pure fun _ hr => ⟨fun _ hb => .inr hb, hr⟩
  | cons a as ih =>
    refine (h a List.mem_cons_self).bind fun b => ?_
    refine (ih fun a' ha' => h a' (List.mem_cons_of_mem _ ha')).mono (fun _ hr => hr) ?_
    rintro bs r ⟨hbs, hr⟩
    refine ⟨fun c hc => ?_, hr⟩
    cases b <;> grind

theorem filterM {as : List α} {f : α → Step Bool} (h : ∀ a ∈ as, Keeps text P (f a) fun _ => P) :
    Keeps text P (as.filterM f) fun bs r => (∀ b ∈ bs, b ∈ as) ∧ P r := by
  refine (filterAuxM h).bind fun bs => pure ?_
  rintro r ⟨hbs, hr⟩
  refine ⟨fun b hb => ?_, hr⟩
  rcases hbs b (List.mem_reverse.mp hb) with hmem | hmem
  · exact hmem
  · cases hmem

end Keeps

/-- A run between two lines of a source, with less than `m` left of it. -/
def Ready (source : Source) (base : State) (m : Nat) (r : Run) : Prop :=
  On (.bare source base) (Done (.bare source base) m) r r

variable {source : Source} {base : State} {m n : Nat}

theorem down_zero_statements (ss : List Statement) : ss.map (Statement.down 0) = ss := by
  have hsame : Statement.down 0 = id := by
    funext s
    simp [Statement.down, Location.down]
  rw [hsame, List.map_id]

theorem ready_start (source : Source) (state : State) (diagnostics : Diagnostics) :
    Ready source state (source.text.length + 1) (.start source state diagnostics) := by
  have hreads : Reads (.bare source state) .normal (source.text.length + 1) true []
      (.ofSource source) (.ofSource source) := by
    refine Reads.start rfl ⟨rfl, rfl⟩ ?_ ?_
    · simp [Frame.cursor, Frame.behind, Frame.bare]
    · intro hafter
      cases hafter
  refine .done (.more hreads fun _ ht => by cases ht) ⟨.refl state 0, rfl, ?_, ?_⟩
  · intro s hs
    cases hs
  · intro p hp
    cases hp

/-- What an action on a statement leaves alone. -/
structure Beside (text : List Char) (r₀ r : Run) : Prop where
  sound : r.stream.Sound text
  stream : r.stream = r₀.stream
  state : r.state = r₀.state
  statements : r.statements = r₀.statements
  pending : ∀ p ∈ r.pending, p.2.condition.legal = true

theorem Ready.beside {r₀ r : Run} (h : Ready source base m r₀) (hr : Beside source.text r₀ r) :
    Ready source base m r := by
  refine .done ?_ ⟨?_, ?_, ?_, hr.pending⟩
  · rw [hr.stream]
    exact h.stream
  · rw [hr.state]
    exact h.framed.state
  · rw [hr.statements]
    exact h.framed.statements
  · rw [hr.statements]
    exact h.framed.legal

/-- An action that leaves the stream, the state and the statements alone. -/
def Modest (text : List Char) (handle : Statement → Step Unit) : Prop :=
  ∀ s, s.form.legal = true → ∀ r₀, Keeps text (Beside text r₀) (handle s) fun _ => Beside text r₀

variable {handle : Statement → Step Unit}

theorem keeps_deliver (hhandle : Modest source.text handle) {s : Statement}
    (hs : s.form.legal = true) :
    Keeps source.text (Ready source base m) (deliver handle s) fun _ => Ready source base m := by
  intro r hr
  have hready : Ready source base m { r with statements := r.statements ++ [s] } := by
    refine .done hr.stream ⟨hr.framed.state, ?_, ?_, hr.framed.pending⟩
    · show _ = [] ++ (r.statements ++ [s]).map (Statement.down 0)
      rw [down_zero_statements, List.nil_append]
    · exact List.forall_mem_append.mpr ⟨hr.framed.legal, List.forall_mem_singleton.mpr hs⟩
  have hbeside : Beside source.text { r with statements := r.statements ++ [s] }
      { r with statements := r.statements ++ [s] } := ⟨hr.sound, rfl, rfl, rfl, hr.framed.pending⟩
  exact (hhandle s hs _).mono (fun _ h => h) (fun _ _ h => hready.beside h) _ hbeside

/-- The step lemma: a line keeps the run ready. -/
theorem keeps_nextLine :
    Keeps source.text (Ready source base m) nextLine fun o r =>
      match o with
      | some ss => (∀ s ∈ ss, s.form.legal = true) ∧ Ready source base (m - 1) r
      | none => Ready source base m r := by
  refine (Keeps.of_follows (follows_nextLine_alone rfl)).mono (fun _ h => h) ?_
  rintro o r ⟨halike, hr⟩
  cases o with
  | none => exact hr
  | some ss =>
    rcases halike with ⟨_, _, _, hlegal⟩
    exact ⟨hlegal, hr⟩

theorem Ready.bounded {r : Run} (h : Ready source base m r) :
    Ready source base r.stream.bound r := by
  cases h.stream with
  | more hreads hrested =>
    exact .done (.more (hreads.least.mono (Nat.le_of_lt hreads.left_lt_bound.1)) hrested) h.framed
  | ended ht halone hreads =>
    exact .done (.ended ht halone (hreads.least.mono (Nat.le_of_lt hreads.left_lt_bound.1)))
      h.framed
  | past hpast => exact absurd hpast.after (by simp [Frame.bare])

/-- The run lemma: so do all lines. -/
theorem keeps_lines (hhandle : Modest source.text handle) (hm : m ≤ n) :
    Keeps source.text (Ready source base m) (lines handle n) fun _ => Ready source base m := by
  -- a line uses up some of what is left, which is never nothing
  induction n generalizing m with
  | zero =>
    intro r hr
    have hpos := pos_of_done hr.stream rfl
    omega
  | succ n ih =>
    apply keeps_nextLine.bind
    intro o
    cases o with
    | none => exact .pure fun _ h => h
    | some ss =>
      refine .assuming fun hlegal => ?_
      refine (Keeps.forM fun s hs => keeps_deliver hhandle (hlegal s hs)).bind ?_
      intro _
      exact (ih (by omega)).mono (fun _ h => h) fun _ _ h => h.done_mono (Nat.sub_le m 1)

theorem keeps_parse (hhandle : Modest source.text handle) :
    Keeps source.text (Ready source base m) (parse handle) fun _ r => ∃ k,
      Ready source base k r := by
  intro r hr
  have hlines : Keeps source.text (Ready source base r.stream.bound)
      (do lines handle r.stream.bound
          let r ← get
          note [.sourceRead r.statements.length r.stream.source.file])
      fun _ r => ∃ k, Ready source base k r := by
    refine (keeps_lines hhandle (Nat.le_refl _)).bind ?_
    intro _
    refine .get_bind fun r _ => .modify ?_
    intro r h
    exact ⟨_, .done h.stream ⟨h.framed.state, h.framed.statements, h.framed.legal,
      h.framed.pending⟩⟩
  exact hlines r hr.bounded

theorem modest_pure : Modest text fun _ => pure () :=
  fun _ _ _ => .pure fun _ h => h

end Step

/-- A run has ended with a sound stream, or it has failed as the reading of the text may fail. -/
def Run.Sound {α : Type} (text : List Char) : EStateM.Result Failure Run α → Prop
  | .ok _ r => r.stream.Sound text
  | .error f r => r.stream.Sound text ∧ match f with
    | .error err => err.cause.isProper = true
    | .numeral n => ∃ rest, rest <:+ text ∧ Unreadable n rest
    | .exhausted => False

theorem Run.Fails.run_sound {α : Type} {text : List Char} {f : Failure} {r : Run}
    (h : r.Fails text f) : Run.Sound text (.error f r : EStateM.Result Failure Run α) := by
  refine ⟨h.sound, ?_⟩
  rcases h with ⟨closing, ⟨_, hf⟩ | ⟨_, _, rfl⟩⟩
  · cases f with
    | error err => exact Cause.isProper_of_isOrdinary hf
    | numeral n => exact hf
    | exhausted => exact hf
  · rfl

theorem Step.Keeps.run_sound {α : Type} {text : List Char} {P : Run → Prop} {x : Step α}
    {Q : α → Run → Prop} {r : Run} (h : Step.Keeps text P x Q) (hr : P r)
    (hQ : ∀ a r', Q a r' → r'.stream.Sound text) : Run.Sound text (x r) := by
  have hx := h r hr
  cases hxr : x r with
  | ok a r' =>
    rw [hxr] at hx
    exact hQ a r' hx
  | error f r' =>
    rw [hxr] at hx
    exact hx.run_sound

theorem Run.parse_sound (source : Source) (state : State) :
    Run.Sound source.text (Run.parse source state) := by
  refine (Step.keeps_parse Step.modest_pure).run_sound (Step.ready_start source state _) ?_
  rintro _ r ⟨_, hready⟩
  exact hready.sound

end Sm83
