import Sm83.Proofs.Expr.Woven
import Sm83.Proofs.Run.Operates

/-!
# Steps that are woven from others

A step of a run is put together from a few elementary ones, and what holds of these holds of the
whole. It can be retraced from the same characters, whatever stands behind them, it moves the tokens
on, it changes the state by operations only, and what is watched stays so.
-/

namespace Sm83

namespace Run

/-- Two runs with the same lines before them and the same state. -/
structure Twin (u u' : List Char) (r r' : Run) : Prop where
  stream : Stream.Twin u u' r.stream r'.stream
  state : r'.state = r.state

/-- What a line can see of a run besides its tokens. -/
structure Alike (r r' : Run) : Prop where
  state : r'.state = r.state
  file : r'.stream.source.file = r.stream.source.file

/-- Runs are compared up to a line end. -/
def passage : Passage Run where
  onward r r' := r.stream.Onward r'.stream
  kept u r := r.stream.cursor.Within u
  twin := Twin
  alike := Alike
  refl r := .refl r.stream
  trans := .trans
  kept_of_onward := Stream.Onward.within
  alike_refl _ := ⟨rfl, rfl⟩
  alike_of_twin h := ⟨h.state, h.stream.file⟩

end Run

namespace Step

variable {α β : Type} {x : Step α} {r r' : Run} {a : α}

/-- The second step retraces the first. -/
abbrev Retraces (x y : Step α) : Prop :=
  Sm83.Retraces Run.passage x y

theorem reading_of_ok {x : Reading α} {s : Stream} (h : x r.stream = .ok a s) :
    reading x r = .ok a (r.follow s) := by
  simp only [reading, h]

theorem reading_eq_ok {x : Reading α} (h : reading x r = .ok a r') :
    x r.stream = .ok a r'.stream := by
  unfold reading at h
  split at h
  · next hx =>
    cases h
    exact hx
  · cases h

theorem state_of_reading {action : Reading α} (h : reading action r = .ok a r') :
    r'.state = r.state := by
  unfold reading at h
  split at h
  · cases h
    rfl
  · cases h

theorem retraces_reading {x y : Reading α} (h : Reading.Retraces x y) :
    Retraces (reading x) (reading y) := by
  refine ⟨fun hx => h.onward (reading_eq_ok hx), ?_⟩
  intro u u' r r' a r₁ hx htwin hwithin
  have hstate := (state_of_reading hx).symm
  unfold reading
  rcases h.twin (reading_eq_ok hx) htwin.stream hwithin with ⟨s₁', hy, hs₁⟩ | ⟨s₁', hy⟩
  · rw [hy]
    exact .inl ⟨r'.follow s₁', rfl, hs₁, htwin.state.trans hstate⟩
  · rw [hy]
    exact .inr ⟨r'.follow s₁', rfl⟩

theorem retraces_note (events events' : List Event) : Retraces (note events) (note events') :=
  .modify (fun r => .refl r.stream) fun h => ⟨h.stream, h.state⟩

theorem retraces_request (setting : Setting) : Retraces (request setting) (request setting) :=
  .modify (fun r => .of_request r.stream setting) fun h => ⟨h.stream.request setting, h.state⟩

theorem located_eq_ok {t : Token} (h : located t x r = .ok a r') : x r = .ok a r' := by
  have hlocated : locatedAt (r.stream.source.locate t) (r.stream.source.line? t.line) x r =
      .ok a r' := h
  unfold locatedAt at hlocated
  split at hlocated
  · cases hlocated
  · exact hlocated

theorem located_of_ok (t : Token) (h : x r = .ok a r') : located t x r = .ok a r' := by
  show locatedAt _ _ x r = _
  unfold locatedAt
  rw [h]

theorem retraces_located {y : Step α} (hx : Retraces x y) (t : Token) :
    Retraces (located t x) (located t y) := by
  refine ⟨fun h => hx.onward (located_eq_ok h), ?_⟩
  intro u u' r r' a r₁ h htwin hkept
  show (∃ r₁', locatedAt _ _ y r' = _ ∧ _) ∨ ∃ r₁', locatedAt _ _ y r' = _
  rcases hx.twin (located_eq_ok h) htwin hkept with ⟨r₁', hy, htwin'⟩ | ⟨r₁', hy⟩
  · exact .inl ⟨r₁', by rw [locatedAt, hy], htwin'⟩
  · exact .inr ⟨r₁', by rw [locatedAt, hy]⟩

variable {op : Operation}

theorem Performs.retraces (hx : Performs op x) : Retraces x x := by
  constructor
  · intro r a r₁ h
    rcases hx.cases r with ⟨b, _, after, events, hr, _⟩ | ⟨e, hr, _⟩
    · rw [hr] at h
      cases h
      exact .refl r.stream
    · rw [hr] at h
      cases h
  · rcases hx with ⟨outcome, _, hrun⟩
    intro u u' r r' a r₁ h htwin _
    rw [hrun] at h
    rw [hrun, htwin.state]
    split at h
    · cases h
    · cases h
      exact .inl ⟨_, rfl, htwin.stream, rfl⟩

/-- An operation that may be asked of the state: a definition is made at the place of a watched
token, and a label is one that a watched token declares. -/
structure Admits (w : Watch) (op : Operation) : Prop where
  place : op.defined?.isSome = true → ∃ t l, w.token t ∧ w.locates t l ∧ op.place = some l
  label : ∀ spelling exported location, op = .defineLabel spelling exported location →
    w.declares spelling

/-- Two steps that are put together in the same way from the same parts, except that each may have
fuel of its own. They change the state by issued operations only, and of these only by those that
are allowed. What the first returns has the property. -/
inductive Weaves (w : Watch) (allowed : Operation → Bool) :
    {α : Type} → Step α → Step α → (α → Prop) → Prop
  | pure {α : Type} {a : α} {Q : α → Prop} (h : Q a) : Weaves w allowed (pure a) (pure a) Q
  | throw {α : Type} {f : Failure} {Q : α → Prop} (hf : ∀ e, f = .error e → w.error e)
      (y : Step α) : Weaves w allowed (throw f) y Q
  | exhausted {α : Type} {x y : Step α} {Q : α → Prop} (h : Weaves w allowed x y Q) :
      Weaves w allowed x (throw .exhausted) Q
  | bind {α β : Type} {x y : Step α} {k k' : α → Step β} {Q : α → Prop} {Q' : β → Prop}
      (hx : Weaves w allowed x y Q) (hk : ∀ a, Q a → Weaves w allowed (k a) (k' a) Q') :
      Weaves w allowed (x >>= k) (y >>= k') Q'
  | get_bind {β : Type} {k k' : Run → Step β} {Q : β → Prop}
      (hk : ∀ r r', Run.Alike r r' → w.run r → Weaves w allowed (k r) (k' r') Q) :
      Weaves w allowed (get >>= k) (get >>= k') Q
  | reading {α : Type} {x y : Reading α} {Q : α → Prop} (h : Reading.Retraces x y)
      (hw : Reading.Watched w x Q) : Weaves w allowed (reading x) (reading y) Q
  | note (events events' : List Event) : Weaves w allowed (note events) (note events') fun _ => True
  | request (setting : Setting) : Weaves w allowed (request setting) (request setting) fun _ => True
  | located {α : Type} {x y : Step α} {Q : α → Prop} (hx : Weaves w allowed x y Q) {t : Token}
      (ht : w.token t) : Weaves w allowed (located t x) (located t y) Q
  | performs {α : Type} {x : Step α} {op : Operation} (hop : op.Issued)
      (hallowed : allowed op = true) (hadmits : Admits w op) (hx : Performs op x) :
        Weaves w allowed x x fun _ => True

/-- A step that is put together from such parts. -/
abbrev Woven (w : Watch) (allowed : Operation → Bool) (x : Step α) (Q : α → Prop) : Prop :=
  Weaves w allowed x x Q

/-- The step is woven, with all operations allowed. -/
abbrev Retraced (x : Step α) : Prop :=
  Woven .free (fun _ => true) x fun _ => True

namespace Weaves

variable {w : Watch} {allowed : Operation → Bool} {x y : Step α} {Q : α → Prop} {Q' : β → Prop}
  {r r' : Run} {a : α}

/-! ### What is watched -/

theorem scope_of_perform [h : w.Lawful] (hop : Admits w op) {s s' : State} {answer : Answer}
    (hs : w.scope s.scope) (hperform : s.perform op = .ok (answer, s')) : w.scope s'.scope := by
  rcases State.perform_scope hperform with
    hsame | ⟨spelling, exported, location, full, hlabel, hfull, hglobal, hscope⟩
  · rw [hsame]
    exact hs
  · rcases hop.label spelling exported location hlabel with ⟨t, ht, hdeclared⟩
    rw [hscope]
    exact h.label ht hdeclared hs hfull hglobal

theorem error_of_perform [h : w.Lawful] (hop : Admits w op) {s : State} {e : Error}
    (hperform : s.perform op = .error e) : w.error e := by
  cases State.perform_error hperform with
  | again name first defines =>
    rcases hop.place defines with ⟨t, _, ht, ⟨s, hs, rfl⟩, hplace⟩
    rw [hplace]
    exact h.bare hs ht rfl
  | unplaced hcause _ => exact h.unplaced hcause

theorem watched_reading {x : Reading α} (hx : Reading.Watched w x Q) :
    Guarded w.run w.error (Step.reading x) Q := by
  intro r hr
  have hs := hx r.stream hr.1
  unfold Step.reading
  cases hresult : x r.stream with
  | ok a stream =>
    rw [hresult] at hs
    exact ⟨⟨hs.1, hr.2⟩, hs.2⟩
  | error f stream =>
    rw [hresult] at hs
    exact hs

theorem watched_located [h : w.Lawful] (hx : Guarded w.run w.error x Q) {t : Token}
    (ht : w.token t) : Guarded w.run w.error (Step.located t x) Q := by
  intro r hr
  have hresult := hx r hr
  show EndsWell w.run w.error Q
    (locatedAt (r.stream.source.locate t) (r.stream.source.line? t.line) x r)
  unfold locatedAt
  cases hxr : x r with
  | ok a r' =>
    rw [hxr] at hresult
    exact hresult
  | error f r' =>
    rw [hxr] at hresult
    cases f with
    | error e =>
      intro e' he'
      cases he'
      exact h.placed (hresult e rfl) hr.1 ht
    | numeral fault => exact hresult
    | exhausted => exact hresult

theorem watched [h : w.Lawful] (hx : Weaves w allowed x y Q) : Guarded w.run w.error x Q := by
  induction hx with
  | pure ha => exact .pure ha
  | throw hf y => exact .throw hf
  | exhausted _ ih => exact ih
  | bind _ _ hx hk => exact hx.bind hk
  | get_bind _ hk => exact .get_bind fun r hr => hk r r ⟨rfl, rfl⟩ hr
  | reading _ hw => exact watched_reading hw
  | note events events' => exact .modify fun _ hr => hr
  | request setting => exact .modify fun _ hr => ⟨h.request setting hr.1, hr.2⟩
  | located _ ht hx => exact watched_located hx ht
  | performs _ _ hadmits hx =>
    intro r hr
    rcases hx.cases r with ⟨a, answer, after, events, hresult, hperform⟩ | ⟨e, hresult, hperform⟩
    · rw [hresult]
      exact ⟨⟨hr.1, scope_of_perform hadmits hr.2 hperform⟩, trivial⟩
    · rw [hresult]
      intro e' he'
      cases he'
      exact error_of_perform hadmits hperform

theorem returns (hx : Weaves .free allowed x y Q) (h : x r = .ok a r') : Q a :=
  (hx.watched.of_ok ⟨trivial, trivial⟩ h).2

/-! ### How the run goes on -/

theorem retraces (hx : Weaves .free (fun _ => true) x y Q) : Retraces x y := by
  induction hx with
  | pure _ => exact .pure _
  | throw _ y => exact .throw _ y
  | exhausted _ ih => exact ih.exhausted
  | bind hfirst _ hx hk => exact hx.bind_of fun h => hk _ (hfirst.returns h)
  | get_bind _ hk => exact .get_bind fun r r' halike => hk r r' halike ⟨trivial, trivial⟩
  | reading h _ => exact retraces_reading h
  | note events events' => exact retraces_note events events'
  | request setting => exact retraces_request setting
  | located _ _ hx => exact retraces_located hx _
  | performs _ _ _ hx => exact hx.retraces

theorem onward (hx : Weaves .free (fun _ => true) x y Q) (h : x r = .ok a r') :
    r.stream.Onward r'.stream :=
  hx.retraces.onward h

theorem operates (hx : Weaves .free (fun _ => true) x y Q) : Operates x := by
  induction hx with
  | pure _ => exact .pure _
  | throw _ y => exact .throw _
  | exhausted _ ih => exact ih
  | bind hfirst _ hx hk => exact hx.bind_of fun h => hk _ (hfirst.returns h)
  | get_bind _ hk => exact .get_bind fun r => hk r r ⟨rfl, rfl⟩ ⟨trivial, trivial⟩
  | reading _ _ => exact operates_reading _
  | note events events' => exact operates_note events
  | request setting => exact operates_request setting
  | located _ _ hx => exact .get_bind fun r => operates_locatedAt hx _ _
  | performs hop _ _ hx => exact hx.operates hop

/-- What holds over each operation holds over the step. -/
theorem relates {R : State → State → Prop} (hx : Weaves .free allowed x y Q) (hrefl : ∀ s, R s s)
    (htrans : ∀ {s s' s''}, R s s' → R s' s'' → R s s'')
    (hops : ∀ op s answer s', allowed op = true → s.perform op = .ok (answer, s') → R s s')
    (h : x r = .ok a r') : R r.state r'.state := by
  -- on how the step is put together; only an operation on the state can change it
  induction hx generalizing r r' with
  | pure _ =>
    cases h
    exact hrefl _
  | throw _ y => cases h
  | exhausted _ ih => exact ih h
  | bind hx _ ihx ihk =>
    rcases Outcome.of_bind h with ⟨b, r₁, hfirst, hrest⟩
    exact htrans (ihx hfirst) (ihk b (hx.returns hfirst) hrest)
  | get_bind _ ihk => exact ihk r r ⟨rfl, rfl⟩ ⟨trivial, trivial⟩ h
  | reading _ _ =>
    rw [state_of_reading h]
    exact hrefl _
  | note events events' =>
    cases h
    exact hrefl _
  | request setting =>
    cases h
    exact hrefl _
  | located _ _ ih => exact ih (located_eq_ok h)
  | performs _ hallowed _ hx =>
    rcases hx.cases r with ⟨b, answer, after, events, hresult, hperform⟩ | ⟨e, hresult, _⟩
    · rw [hresult] at h
      cases h
      exact hops _ _ _ _ hallowed hperform
    · rw [hresult] at h
      cases h

theorem state_eq (hx : Weaves .free (fun _ => false) x y Q) (h : x r = .ok a r') :
    r'.state = r.state := by
  have hsame : r.state = r'.state :=
    hx.relates (fun _ => rfl) Eq.trans (fun _ _ _ _ hop => (by cases hop)) h
  exact hsame.symm

/-! ### Further ways of putting steps together -/

theorem map (f : α → β) (hx : Weaves w allowed x y Q) (h : ∀ a, Q a → Q' (f a)) :
    Weaves w allowed (f <$> x) (f <$> y) Q' := by
  rw [map_eq_pure_bind, map_eq_pure_bind]
  exact hx.bind fun a ha => .pure (h a ha)

theorem discard (hx : Weaves w allowed x y Q) :
    Weaves w allowed (discard x) (discard y) fun _ => True :=
  hx.map _ fun _ _ => trivial

theorem imp {Q' : α → Prop} (hx : Weaves w allowed x y Q) (h : ∀ a, Q a → Q' a) :
    Weaves w allowed x y Q' := by
  rw [← bind_pure x, ← bind_pure y]
  exact hx.bind fun a ha => .pure (h a ha)

theorem forget (hx : Weaves w allowed x y Q) : Weaves w allowed x y fun _ => True :=
  hx.imp fun _ _ => trivial

theorem fuelled (run : Nat → Step α) (hzero : run 0 = MonadExcept.throw Failure.exhausted)
    (hsucc : ∀ n, Weaves w allowed x (run (n + 1)) Q) (n : Nat) : Weaves w allowed x (run n) Q := by
  cases n with
  | zero =>
    rw [hzero]
    exact (hsucc 0).exhausted
  | succ n => exact hsucc n

end Weaves

end Step

end Sm83
