import Sm83.Assembly.Basic
import Sm83.Proofs.Run.Whole

/-!
# Sound assemblies

What is done with the statements of a source leaves the stream, the state and the statements alone,
and goes wrong only with an error of the source. At the end stands what this says of all runs: that
the modes are asked for in time, and which failures there are.
-/

namespace Sm83

namespace Step

variable {α : Type} {text : List Char} {source : Source} {base : State} {r₀ : Run} {m : Nat}
  {Q : α → Run → Prop} {a : Assertion}

theorem keeps_stop {cause : Cause} (h : cause.isOrdinary = true) :
    Keeps text (Beside text r₀) (stop cause) Q :=
  .throw fun _ hr => .of_stream ⟨hr.sound, h⟩

theorem keeps_ofExcept {x : Except Cause α} (h : Proper (fun _ => True) x) :
    Keeps text (Beside text r₀) (ofExcept x) fun _ => Beside text r₀ := by
  cases x with
  | ok a => exact .pure fun _ hr => hr
  | error cause => exact keeps_stop h

theorem keeps_note (events : List Event) :
    Keeps text (Beside text r₀) (note events) fun _ => Beside text r₀ :=
  .modify fun _ hr => ⟨hr.sound, hr.stream, hr.state, hr.statements, hr.pending⟩

theorem keeps_resolver :
    Keeps text (Beside text r₀) resolver fun _ => Beside text r₀ :=
  .get_bind fun _ _ => .pure fun _ hr => hr

theorem keeps_locatedAt {P : Run → Prop} {x : Step α} (h : Keeps text P x Q) (l : Location)
    (line : Option String) : Keeps text P (locatedAt l line x) Q := by
  intro r hr
  have hx := h r hr
  unfold locatedAt
  cases hxr : x r with
  | ok a r' =>
    rw [hxr] at hx
    exact hx
  | error f r' =>
    rw [hxr] at hx
    cases f with
    | error err => exact hx.locate l line
    | numeral n => exact hx
    | exhausted => exact hx

theorem keeps_locatedStatement {P : Run → Prop} {x : Step α} (h : Keeps text P x Q) (l : Location) :
    Keeps text P (locatedStatement l x) Q :=
  .get_bind fun _ _ => keeps_locatedAt h l _

theorem keeps_collect {f : Diagnostics → Diagnostics × Option Cause}
    (hf : ∀ d, ∀ cause ∈ (f d).2, cause.isOrdinary = true) :
    Keeps text (Beside text r₀) (collect f) fun _ => Beside text r₀ := by
  refine .get_bind fun r _ => ?_
  refine .bind (Q := fun _ => Beside text r₀) ?_ ?_
  · exact .modify fun _ hr => ⟨hr.sound, hr.stream, hr.state, hr.statements, hr.pending⟩
  · intro _
    split
    · next cause hcause => exact keeps_stop (hf _ _ hcause)
    · exact .pure fun _ hr => hr

theorem isOrdinary_of_record {d : Diagnostics} {s : Severity} {message : String}
    {location : Option Location} {cause : Cause} (h : cause ∈ (d.record s message location).2) :
    cause.isOrdinary = true := by
  simp only [Diagnostics.record, Diagnostics.limit?, Option.mem_def] at h
  split at h
  · cases h
    rfl
  · cases h

theorem keeps_warn (location : Location) (message : String) :
    Keeps text (Beside text r₀) (warn location message) fun _ => Beside text r₀ :=
  (keeps_note _).bind fun _ => keeps_collect fun _ _ h => isOrdinary_of_record h

theorem keeps_complain (location : Location) (message : String) :
    Keeps text (Beside text r₀) (complain location message) fun _ => Beside text r₀ :=
  keeps_collect fun _ _ h => isOrdinary_of_record h

theorem keeps_refute (location : Location) (a : Assertion) :
    Keeps text (Beside text r₀) (refute location a) fun _ => Beside text r₀ := by
  unfold refute
  split
  · exact keeps_warn _ _
  · exact keeps_complain _ _
  · exact .get_bind fun _ _ => .throw fun _ hr => .of_stream ⟨hr.sound, rfl⟩

theorem keeps_decideAssertion (location : Location) (ha : a.condition.legal = true) :
    Keeps text (Beside text r₀) (decideAssertion location a) fun _ => Beside text r₀ := by
  apply keeps_resolver.bind
  intro resolver
  cases hvalue : a.condition.value resolver with
  | ok v =>
    dsimp only
    split
    · exact (keeps_refute _ _).bind fun _ => .pure fun _ hr => hr
    · exact .pure fun _ hr => hr
  | error o =>
    have hordinary := Expr.isOrdinary_of_value ha hvalue
    cases o with
    | deferred missing =>
      dsimp only
      split
      · exact keeps_stop rfl
      · exact .pure fun _ hr => hr
    | invalid reason => exact keeps_stop hordinary
    | incomplete f => exact keeps_stop hordinary

theorem keeps_firstCheck (location : Location) (ha : a.condition.legal = true) :
    Keeps text (Beside text r₀) (firstCheck location a) fun _ => Beside text r₀ := by
  refine (keeps_decideAssertion location ha).bind ?_
  intro answer
  cases answer with
  | ok u => exact .pure fun _ hr => hr
  | error missing =>
    refine (keeps_note _).bind fun _ => .modify ?_
    intro r hr
    refine ⟨hr.sound, hr.stream, hr.state, hr.statements, ?_⟩
    exact List.forall_mem_append.mpr ⟨hr.pending, List.forall_mem_singleton.mpr ha⟩

variable {e : Expr} {args : List Expr}

theorem proper_printed (s : State) (d : Directive) (he : e.legal = true) :
    Proper (fun _ => True) (printed s d e) := by
  unfold printed
  split
  · exact Expr.proper_constantText he _
  · exact (Expr.proper_constant he _).map fun _ _ => trivial

theorem keeps_print (d : Directive) (hargs : ∀ e ∈ args, e.legal = true) :
    Keeps text (Beside text r₀) (print d args) fun _ => Beside text r₀ := by
  refine .get_bind fun r _ => ?_
  have hparts : Proper (fun _ => True) (args.mapM (printed r.state d)) :=
    (Proper.mapM fun e he => proper_printed _ _ (hargs e he)).mono fun _ _ => trivial
  refine (keeps_ofExcept hparts).bind fun _ => .modify ?_
  exact fun _ hr => ⟨hr.sound, hr.stream, hr.state, hr.statements, hr.pending⟩

theorem keeps_messageText (hargs : ∀ e ∈ args, e.legal = true) :
    Keeps text (Beside text r₀) (messageText args) fun _ => Beside text r₀ := by
  refine keeps_resolver.bind fun resolver => ?_
  have hparts : Proper (fun _ => True) (args.mapM fun e => e.constantText resolver) :=
    (Proper.mapM fun e he => Expr.proper_constantText (hargs e he) _).mono fun _ _ => trivial
  exact (keeps_ofExcept hparts).bind fun _ => .pure fun _ hr => hr

theorem keeps_obey (location : Location) (d : Directive) (hargs : ∀ e ∈ args, e.legal = true) :
    Keeps text (Beside text r₀) (obey location d args) fun _ => Beside text r₀ := by
  unfold obey
  split
  · exact keeps_print d hargs
  · split
    · exact (keeps_messageText hargs).bind fun _ => keeps_warn _ _
    · exact (keeps_messageText hargs).bind fun _ => keeps_complain _ _
    · exact .pure fun _ hr => hr

theorem legal_of_mem_exprs {args : List Argument} (hargs : args.all Argument.legal = true)
    (he : e ∈ exprs args) : e.legal = true := by
  rcases List.mem_filterMap.mp he with ⟨arg, harg, hexpr⟩
  have hlegal := List.all_eq_true.mp hargs arg harg
  cases arg with
  | expr e' =>
    cases hexpr
    exact hlegal
  | word w => cases hexpr

theorem modest_handle : Modest text handle := by
  intro s hs r₀
  refine keeps_locatedStatement ?_ _
  split
  · next a hform =>
    rw [hform] at hs
    exact keeps_firstCheck _ hs
  · next d args hform =>
    rw [hform] at hs
    exact keeps_obey _ _ fun e he => legal_of_mem_exprs hs he
  · exact .pure fun _ hr => hr

theorem keeps_lastCheck (location : Location) (ha : a.condition.legal = true) :
    Keeps text (Beside text r₀) (lastCheck location a) fun _ => Beside text r₀ := by
  refine keeps_locatedStatement ((keeps_decideAssertion location ha).bind ?_) _
  intro answer
  cases answer with
  | ok u => exact .pure fun _ hr => hr
  | error missing => exact .pure fun _ hr => hr

theorem keeps_decidePending :
    Keeps text (Beside text r₀) decidePending fun _ => Beside text r₀ := by
  refine .get_bind fun r hr => ?_
  refine (Keeps.filterM fun p hp => keeps_lastCheck p.1 (hr.pending p hp)).bind ?_
  intro undecided
  refine .assuming fun hamong => .modify ?_
  intro r' hr'
  exact ⟨hr'.sound, hr'.stream, hr'.state, hr'.statements, fun p hp => hr.pending p (hamong p hp)⟩

theorem proper_checkKnown (r : Resolver) (he : e.legal = true) {check : Int → Except Cause α}
    (hcheck : ∀ v, Proper (fun _ => True) (check v)) :
    Proper (fun _ => True) (checkKnown r e check) := by
  unfold checkKnown
  split
  · next v _ => exact (hcheck v).map fun _ _ => trivial
  · next f hvalue => exact Expr.isOrdinary_of_value he hvalue
  · trivial

theorem legal_boundedPart (he : e.legal = true) : (boundedPart e).legal = true := by
  unfold boundedPart
  split
  · exact (Expr.everyCall_call.mp he).2 _ List.mem_cons_self
  · exact he

theorem proper_checkRecord (r : Resolver) (address : Option Int) {record : Record}
    (h : record.legal = true) : Proper (fun _ => True) (checkRecord r address record) := by
  unfold checkRecord
  split
  · refine proper_checkKnown r h fun v => ?_
    unfold restartOpcode
    split
    · trivial
    · rfl
  · split
    · refine proper_checkKnown r h fun v => ?_
      unfold jumpDisplacement
      dsimp only
      split
      · trivial
      · rfl
    · trivial
  · refine proper_checkKnown r (legal_boundedPart h) fun v => ?_
    unfold RangeCheck.check
    split
    · trivial
    · rfl
  · trivial

theorem keeps_checkStatement {s : Statement} (hs : s.form.legal = true) :
    Keeps text (Beside text r₀) (checkStatement s) fun _ => Beside text r₀ := by
  unfold checkStatement
  split
  · next hform =>
    rw [hform] at hs
    refine keeps_locatedStatement ?_ _
    exact .get_bind fun _ _ => keeps_ofExcept (proper_checkRecord _ _ hs)
  · exact .pure fun _ hr => hr

theorem keeps_resolve (hlegal : ∀ s ∈ r₀.statements, s.form.legal = true) :
    Keeps text (Beside text r₀) resolve fun _ => Beside text r₀ := by
  refine keeps_decidePending.bind fun _ => ?_
  refine .get_bind fun r hr => ?_
  refine .forM fun s hs => keeps_checkStatement (hlegal s ?_)
  rwa [hr.statements] at hs

theorem keeps_predefine (settings : Settings) :
    Keeps source.text (Ready source base m) (predefine settings) fun _ => Ready source base m := by
  refine .forM fun (name, value) _ => ?_
  have hdefine := follows_define (e := .bare source base) (P := Done (.bare source base) m)
    (.defineConstant name value false none)
    (f := fun s => s.defineConstant name value false none) (fun _ => rfl) (fun _ => rfl)
  exact (Keeps.of_follows hdefine).bind fun _ => .pure fun _ h => h.2

theorem keeps_readAll :
    Keeps source.text (Ready source base m) readAll fun _ r => ∃ k, Ready source base k r := by
  intro r hr
  have h := keeps_parse modest_handle r hr
  unfold readAll
  cases hparse : parse handle r with
  | ok u r' =>
    rw [hparse] at h
    exact h
  | error f r' =>
    rw [hparse] at h
    exact h

theorem keeps_assemble (settings : Settings) :
    Keeps source.text (Ready source base m) (assemble settings)
      fun _ r => r.stream.Sound source.text := by
  refine (keeps_predefine settings).bind fun _ => keeps_readAll.bind fun _ => ?_
  rintro r ⟨k, hr⟩
  have hresolve : Keeps source.text (Beside source.text r) (do resolve; summarize)
      fun _ r => r.stream.Sound source.text := by
    refine (keeps_resolve hr.framed.legal).bind fun _ => ?_
    refine .get_bind fun _ _ => ?_
    exact (keeps_note _).mono (fun _ h => h) fun _ _ h => h.sound
  exact hresolve r ⟨hr.sound, rfl, rfl, rfl, hr.framed.pending⟩

end Step

theorem assemble_sound (settings : Settings) (source : Source) :
    Run.Sound source.text (assemble settings source) :=
  (Step.keeps_assemble settings).run_sound (Step.ready_start source _ _) fun _ _ h => h

/-- The run that has been reached, be it by success or failure. -/
def Run.reached {α : Type} : EStateM.Result Failure Run α → Run
  | .ok _ r => r
  | .error _ r => r

/-- A mode is asked for when nothing but the end of the source has been read ahead. But for that
end, raw arguments are consumed as read in raw mode, blocks as blocks, and all else as read in
normal mode. -/
def Move.Orderly : Move → Prop
  | .asked _ ahead => ahead = [] ∨ ∃ t, t.isEnd = true ∧ ahead = [t]
  | .consumed .argument t => t.isEnd = true ∨ t.mode = .raw
  | .consumed .block t => ∃ text, t.lexeme = .rawBlock text
  | .consumed .code t => t.isEnd = true ∨ t.mode = .normal

theorem Move.orderly_of_isSound {move : Move} (h : move.isSound = true) : move.Orderly := by
  cases move with
  | asked g ahead =>
    match ahead, h with
    | [], _ => exact .inl rfl
    | [t], h => exact .inr ⟨t, by simpa [Move.isSound] using h, rfl⟩
    | _ :: _ :: _, h => simp [Move.isSound] at h
  | consumed role t =>
    cases role with
    | code => simpa [Move.isSound, Role.admits, Move.Orderly] using h
    | argument => simpa [Move.isSound, Role.admits, Move.Orderly] using h
    | block =>
      simp only [Move.isSound, Role.admits] at h
      split at h
      · next text hl => exact ⟨text, hl⟩
      · cases h

theorem Run.orderly_of_sound {α : Type} {text : List Char} {result : EStateM.Result Failure Run α}
    (h : Run.Sound text result) :
    ∀ move ∈ (Run.reached result).stream.history, move.Orderly := by
  intro move hmove
  apply Move.orderly_of_isSound
  cases result with
  | ok a r => exact h.moves move hmove
  | error f r => exact h.1.moves move hmove

/-- Whatever the source, and however far it can be read, all moves are orderly: those of reading it
from any state, and those of assembling it under any settings. -/
theorem modes_orderly (source : Source) (state : State) (settings : Settings) :
    (∀ move ∈ (Run.reached (Run.parse source state)).stream.history, move.Orderly) ∧
      ∀ move ∈ (Run.reached (assemble settings source)).stream.history, move.Orderly :=
  ⟨Run.orderly_of_sound (Run.parse_sound source state),
    Run.orderly_of_sound (assemble_sound settings source)⟩

example : ((Run.reached (Run.parse (.ofText "m a\nrept 1\nnop\nendr" "f.asm")
    (.fresh false))).stream.history.any fun move =>
      match move with
      | .consumed .block _ => true
      | _ => false) = true := by decide +kernel

example : ((Run.reached (Run.parse (.ofText "m a\nrept 1\nnop\nendr" "f.asm")
    (.fresh false))).stream.history.any fun move =>
      match move with
      | .consumed .argument t => !t.isEnd
      | _ => false) = true := by decide +kernel

/-- Whatever the source and the settings, the assembly succeeds, or it fails with an error of the
source, or the source has a numeral without a value. It always comes to an end. -/
theorem assemble_outcome (settings : Settings) (source : Source) :
    (∃ r, assemble settings source = .ok () r) ∨
      (∃ err r, assemble settings source = .error (.error err) r ∧ err.cause.isProper = true) ∨
      ∃ fault r, assemble settings source = .error (.numeral fault) r ∧
        ∃ rest, rest <:+ source.text ∧ Unreadable fault rest := by
  have hsound := assemble_sound settings source
  cases hresult : assemble settings source with
  | ok u r => exact .inl ⟨r, rfl⟩
  | error f r =>
    rw [hresult] at hsound
    cases f with
    | error err => exact .inr (.inl ⟨err, r, rfl, hsound.2⟩)
    | numeral fault => exact .inr (.inr ⟨fault, r, rfl, hsound.2⟩)
    | exhausted => exact hsound.2.elim

/-- A digit that has no place value is no error of the source. -/
theorem assemble_superscript :
    ∃ r, assemble .standard (.ofText "db ²" "<input>") =
      .error (.numeral (.notInteger "²")) r :=
  ⟨_, rfl⟩

end Sm83
