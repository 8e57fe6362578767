import Sm83.Proofs.State.Sections
import Sm83.Run.Line

/-!
# What reading a line does to a run

Reading a line moves the tokens on and changes the state; it leaves alone what has come of the run
so far. The state changes by operations only, and a section is entered only after it has been made,
in the way it was asked for. This is so whether the line can be read or not.
-/

namespace Sm83

/-- The tokens of a run may have been read further. What has come of the run so far is the same, and
its state has changed by issued operations only. -/
structure Run.MovesOn (r r' : Run) : Prop where
  statements : r'.statements = r.statements
  diagnostics : r'.diagnostics = r.diagnostics
  pending : r'.pending = r.pending
  output : r'.output = r.output
  state : r.state.Leads r'.state

variable {op : Operation}

namespace Run.MovesOn

variable {r r' r'' : Run}

theorem trans (h : r.MovesOn r') (h' : r'.MovesOn r'') : r.MovesOn r'' :=
  ⟨h'.statements.trans h.statements, h'.diagnostics.trans h.diagnostics,
    h'.pending.trans h.pending, h'.output.trans h.output, h.state.trans h'.state⟩

theorem of_tokens (r : Run) (stream : Stream) (trail : List Event) :
    r.MovesOn { r with stream := stream, trail := trail } :=
  ⟨rfl, rfl, rfl, rfl, .refl r.state⟩

theorem of_perform (hop : op.Issued) {answer : Answer} {after : State}
    (h : r.state.perform op = .ok (answer, after)) (trail : List Event) :
    r.MovesOn { r with state := after, trail := trail } := by
  refine ⟨rfl, rfl, rfl, rfl, [op], by simpa using hop, ?_⟩
  simp [State.run, State.after, h]

end Run.MovesOn

namespace Step

variable {α β : Type} {x : Step α}

/-- The step moves runs on, whether it succeeds or fails. -/
def Operates (x : Step α) : Prop :=
  ∀ r, match x r with
    | .ok _ r' => r.MovesOn r'
    | .error _ r' => r.MovesOn r'

theorem Operates.of_ok (h : Operates x) {r r' : Run} {a : α} (hx : x r = .ok a r') :
    r.MovesOn r' := by
  have hr := h r
  rw [hx] at hr
  exact hr

theorem Operates.of_error (h : Operates x) {r r' : Run} {f : Failure} (hx : x r = .error f r') :
    r.MovesOn r' := by
  have hr := h r
  rw [hx] at hr
  exact hr

namespace Operates

variable {x : Step α} {k : α → Step β}

theorem pure (a : α) : Operates (pure a : Step α) :=
  fun r => .of_tokens r r.stream r.trail

theorem throw (f : Failure) : Operates (throw f : Step α) :=
  fun r => .of_tokens r r.stream r.trail

theorem bind_of (hx : Operates x) (hk : ∀ {a r r'}, x r = .ok a r' → Operates (k a)) :
    Operates (x >>= k) := by
  intro r
  show match EStateM.bind x k r with
    | .ok _ r' => r.MovesOn r'
    | .error _ r' => r.MovesOn r'
  unfold EStateM.bind
  cases hxr : x r with
  | error f r' => exact hx.of_error hxr
  | ok a r' =>
    have hfirst := hx.of_ok hxr
    show match k a r' with
      | .ok _ r'' => r.MovesOn r''
      | .error _ r'' => r.MovesOn r''
    cases hkr : k a r' with
    | ok b r'' => exact hfirst.trans ((hk hxr).of_ok hkr)
    | error f r'' => exact hfirst.trans ((hk hxr).of_error hkr)

theorem bind (hx : Operates x) (hk : ∀ a, Operates (k a)) : Operates (x >>= k) :=
  hx.bind_of fun _ => hk _

theorem map (f : α → β) (hx : Operates x) : Operates (f <$> x) := by
  intro r
  show match EStateM.map f x r with
    | .ok _ r' => r.MovesOn r'
    | .error _ r' => r.MovesOn r'
  unfold EStateM.map
  cases hxr : x r with
  | ok a r' => exact hx.of_ok hxr
  | error f r' => exact hx.of_error hxr

theorem discard (hx : Operates x) : Operates (discard x) :=
  hx.map _

theorem forM {f : β → Step PUnit} (h : ∀ b, Operates (f b)) (items : List β) :
    Operates (items.forM f) := by
  induction items with
  | nil => exact .pure _
  | cons b rest ih => exact (h b).bind fun _ => ih

theorem get_bind {k : Run → Step β} (hk : ∀ r, Operates (k r)) : Operates (get >>= k) :=
  fun r => hk r r

theorem modify {f : Run → Run} (h : ∀ r : Run, r.MovesOn (f r)) :
    Operates (modify f : Step PUnit) :=
  h

end Operates

theorem operates_reading (action : Reading α) : Operates (reading action) := by
  intro r
  unfold reading
  cases action r.stream with
  | ok a stream => exact .of_tokens r stream _
  | error f stream => exact .of_tokens r stream _

theorem operates_note (events : List Event) : Operates (note events) :=
  Operates.modify fun r => .of_tokens r r.stream _

theorem operates_request (setting : Setting) : Operates (request setting) :=
  Operates.modify fun r => .of_tokens r (r.stream.request setting) r.trail

theorem operates_locatedAt (hx : Operates x) (location : Location) (line : Option String) :
    Operates (locatedAt location line x) := by
  intro r
  unfold locatedAt
  cases hxr : x r with
  | ok a r' => exact hx.of_ok hxr
  | error f r' =>
    cases f with
    | error e => exact hx.of_error hxr
    | numeral fault => exact hx.of_error hxr
    | exhausted => exact hx.of_error hxr

theorem define_run (f : State → Except Error (Symbol × State)) (r : Run) :
    define f r =
      match f r.state with
      | .error e => .error (.error e) r
      | .ok (symbol, after) =>
        .ok symbol ({ r with state := after }.note (Event.ofDefinition r.state symbol)) := by
  show (match f r.state with
    | .error e => throw (.error e)
    | .ok (symbol, after) => do
      modify fun r => { r with state := after }
      note (Event.ofDefinition r.state symbol)
      pure symbol : Step Symbol) r = _
  cases f r.state with
  | error e => rfl
  | ok result => rfl

theorem change_run (f : State → Except Error State) (events : State → List Event) (r : Run) :
    change f events r =
      match f r.state with
      | .error e => .error (.error e) r
      | .ok after => .ok () ({ r with state := after }.note (events after)) := by
  show (match f r.state with
    | .error e => throw (.error e)
    | .ok after => do
      modify fun r => { r with state := after }
      note (events after) : Step Unit) r = _
  cases f r.state with
  | error e => rfl
  | ok after => rfl

/-- What the step does is an operation of the state, and what it returns and notes depends on the
state alone. -/
def Performs (op : Operation) (x : Step α) : Prop :=
  ∃ outcome : State → Except Error (α × State × List Event),
    (∀ s : State, (s.perform op).map Prod.snd = (outcome s).map fun o => o.2.1) ∧
    ∀ r, x r = match outcome r.state with
      | .error e => .error (.error e) r
      | .ok (a, after, events) => .ok a ({ r with state := after }.note events)

theorem performs_define {f : State → Except Error (Symbol × State)}
    (hf : ∀ s : State, s.perform op = (f s).map fun r => (.symbol r.1, r.2)) :
    Performs op (define f) := by
  refine ⟨fun s => (f s).map fun p => (p.1, p.2, Event.ofDefinition s p.1), ?_, ?_⟩
  · intro s
    simp only [hf]
    cases f s <;> rfl
  · intro r
    simp only [define_run]
    cases f r.state <;> rfl

theorem performs_change {f : State → Except Error State} {events : State → List Event}
    (hf : ∀ s : State, s.perform op = (f s).map fun s => (.done, s)) :
    Performs op (change f events) := by
  refine ⟨fun s => (f s).map fun after => ((), after, events after), ?_, ?_⟩
  · intro s
    simp only [hf]
    cases f s <;> rfl
  · intro r
    simp only [change_run]
    cases f r.state <;> rfl

theorem performs_update {answer : State → Answer} {f : State → State}
    (hf : ∀ s : State, s.perform op = .ok (answer s, f s)) : Performs op (update f) := by
  refine ⟨fun s => .ok ((), f s, []), ?_, fun r => rfl⟩
  intro s
  rw [hf]
  rfl

/-- A step that performs an operation ends as the operation does. -/
theorem Performs.cases (hx : Performs op x) (r : Run) :
    (∃ a answer after events, x r = .ok a ({ r with state := after }.note events) ∧
      r.state.perform op = .ok (answer, after)) ∨
    ∃ e, x r = .error (.error e) r ∧ r.state.perform op = .error e := by
  rcases hx with ⟨outcome, hperform, hrun⟩
  have hsame := hperform r.state
  have hr := hrun r
  cases ho : outcome r.state with
  | ok o =>
    rw [ho] at hr hsame
    rcases Outcome.map_eq_ok_iff.mp hsame with ⟨⟨answer, after⟩, hok, heq⟩
    cases heq
    exact .inl ⟨o.1, answer, o.2.1, o.2.2, hr, hok⟩
  | error e =>
    rw [ho] at hr hsame
    exact .inr ⟨e, hr, Outcome.map_eq_error_iff.mp hsame⟩

theorem Performs.operates (hx : Performs op x) (hop : op.Issued) : Operates x := by
  intro r
  rcases hx.cases r with ⟨a, answer, after, events, hr, hperform⟩ | ⟨e, hr, _⟩
  · rw [hr]
    exact .of_perform hop hperform _
  · rw [hr]
    exact .of_tokens r r.stream r.trail

end Step

end Sm83
