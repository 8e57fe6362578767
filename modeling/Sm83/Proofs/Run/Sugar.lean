import Sm83.Proofs.Expr.Names
import Sm83.Proofs.Run.Equate
import Sm83.Proofs.Run.Reached
import Sm83.Proofs.Run.Storage
import Sm83.Proofs.State.Scope

/-!
# Storage fields by other definitions

A line that lays a storage field out says what two lines say: a constant at the place of the storage
cursor, and an assignment that moves the cursor behind the field. The first form takes the word
once, at the end; the second takes the word of every operator.
-/

namespace Sm83

open Outcome State Word

theorem Word.wrap_add_wrap (a b : Int) : wrap (a + wrap b) = wrap (a + b) :=
  Int.add_bmod_bmod

namespace State

/-- What a definer does to a state, if it is one that needs a number. -/
def definedBy (s : State) (definer : Definer) (name : String) (e : Expr)
    (location : Option Location) : Except Error (Symbol × State) :=
  match e.constant s.resolver with
  | .error cause => .error (.unlocated cause)
  | .ok v =>
    match definer.unit? with
    | some width => (s.advanceStorage (v * width)).2.defineConstant name s.storage false location
    | none =>
      if definer = .equ then s.defineConstant name v false location
      else s.defineVariable name v location

/-- The state with another symbol for the cursor. -/
def withCursor (s : State) (cursor : Symbol) : State :=
  { s with symbols := s.symbols.insert storageName cursor }

variable {s s' : State} {name : String} {x cursor : Symbol} {e : Expr} {n v : Int}
  {location place : Option Location}

theorem defineConstant_beside (hname : isLocalSpelling name = false)
    (hcursor : s.lookup storageName = some cursor) {moved : Symbol}
    (h : (s.withCursor moved).defineConstant name n false location = .ok (x, s'))
    (hmoved : moved.kind = .set) (place : Option Location) :
    ∃ y t, s.defineConstant name n false place = .ok (y, t) ∧ t.scope = s.scope ∧
      t.sections = s.sections ∧ (∀ other, other ≠ name → t.lookup other = s.lookup other) ∧
        name ≠ storageName ∧
      (t.withCursor moved).placeless = s'.placeless := by
  have hne : name ≠ storageName := by
    rintro rfl
    rw [defineConstant, define, qualify_global hname] at h
    simp [add, lookup, withCursor, hmoved] at h
  have hcontains : (s.symbols.map Symbol.placeless).contains storageName = true := by
    rw [Table.contains_map, Table.contains_eq]
    exact Option.isSome_iff_exists.mpr ⟨cursor, hcursor⟩
  have hlookup : (s.withCursor moved).lookup name = s.lookup name := Table.get?_insert_ne _ _ hne
  -- in either way to enter the constant, the two changes touch different entries
  have henter : ∀ exported,
      let constant := fun l => Symbol.mk name .equ (.number (wrap n)) exported none l
      let t := (s.enter (constant place)).2
      t.scope = s.scope ∧ t.sections = s.sections ∧
      (∀ other, other ≠ name → t.lookup other = s.lookup other) ∧ name ≠ storageName ∧
      (t.withCursor moved).placeless =
        ((s.withCursor moved).enter (constant location)).2.placeless := by
    intro exported
    refine ⟨rfl, rfl, ?_, hne, ?_⟩
    · intro other hother
      exact Table.get?_insert_ne _ _ hother
    · simp only [placeless, withCursor, enter, Table.map_insert]
      rw [Table.insert_comm hne hcontains]
      rfl
  rw [defineConstant, define, qualify_global hname] at h ⊢
  simp only [add, hlookup] at h ⊢
  split at h
  · cases h
    exact ⟨_, _, rfl, henter _⟩
  · split at h
    · next hgives =>
      rw [if_pos hgives]
      cases h
      exact ⟨_, _, rfl, henter _⟩
    · cases h

theorem agreeOn_resolver {names : List String} (hnames : name ∉ names)
    (hsections : s'.sections = s.sections)
    (hothers : ∀ other, other ≠ name → s'.lookup other = s.lookup other) :
    Resolver.AgreeOn names s'.resolver s.resolver := by
  intro other hmem
  have hlookup := hothers other fun heq => hnames (heq ▸ hmem)
  have hvalue : ∀ y, s'.valueOf y = s.valueOf y := by
    intro y
    simp only [valueOf, address?, hsections]
  constructor
  · show (s'.lookup other).bind s'.valueOf = (s.lookup other).bind s.valueOf
    rw [hlookup, funext hvalue]
  · show s'.symbols.contains other = s.symbols.contains other
    rw [Table.contains_eq, Table.contains_eq]
    exact congrArg Option.isSome hlookup

/-- The cursor behind a field of some units. -/
def behindField (e : Expr) (width : Int) : Expr :=
  .binary .add (.symbol storageName) (.binary .mul e (.literal width))

theorem value_storageName (hcursor : s.lookup storageName = some cursor)
    (hkind : cursor.kind = .set) (hvalue : cursor.value = .number n) :
    (Expr.symbol storageName).value s.resolver = .ok (wrap n) := by
  have hknown : s.resolver.value storageName = some (.number n) := by
    show (s.lookup storageName).bind s.valueOf = _
    rw [hcursor, Option.bind_some, valueOf, hkind, hvalue]
  simp only [Expr.value, hknown]

theorem value_behindField {width : Int} {r : Resolver}
    (hcursor : (Expr.symbol storageName).value r = .ok (wrap n)) (hv : e.value r = .ok v) :
    (behindField e width).value r = .ok (wrap (wrap n + v * wrap width)) := by
  simp only [behindField, Expr.value, hv] at hcursor ⊢
  rw [hcursor]
  show Except.ok (wrap (wrap n + wrap (v * wrap width))) = _
  rw [wrap_add_wrap]

/-- A field as a constant and an assignment of the cursor. -/
theorem definedBy_field (hs : s.Consistent) {definer : Definer} {width : Int}
    (hunit : definer.unit? = some width) (hname : isLocalSpelling name = false)
    (hfree : name ∉ e.symbols) (h : s.definedBy definer name e location = .ok (x, s'))
    (place : Option Location) :
    ∃ y t, s.definedBy .equ name (.symbol storageName) place = .ok (y, t) ∧ t.scope = s.scope ∧
      ∀ place', ∃ z t', t.definedBy .set storageName (behindField e width) place' = .ok (z, t') ∧
        t'.placeless = s'.placeless := by
  rcases hs.cursor with ⟨cursor, n, hcursor, hkind, hn, hlow, hhigh⟩
  have hword : wrap n = n := wrap_eq_self hlow hhigh
  have hwidth : wrap width = width := by
    cases definer <;> cases hunit <;> rfl
  have hstorage : s.storage = n := by
    unfold storage
    rw [hcursor, Option.map_some, hn]
  unfold definedBy at h
  split at h
  · cases h
  next v hv =>
  have hvalue : e.value s.resolver = .ok v := mapError_eq_ok_iff.mp hv
  rw [hunit] at h
  simp only [advanceStorage, resetStorage, hcursor, hstorage] at h
  rcases defineConstant_beside hname hcursor h hkind place with
    ⟨y, t, hdefine, hscope, hsections, hothers, hne, hsame⟩
  refine ⟨y, t, ?_, hscope, ?_⟩
  · have hconstant : (Expr.symbol storageName).constant s.resolver = .ok n := by
      rw [Expr.constant, value_storageName hcursor hkind hn, hword]
      rfl
    rw [definedBy, hconstant]
    exact hdefine
  · intro place'
    -- the name does not occur in the count, and the cursor is where it was
    have hagree := Expr.same_of_agreeOn (agreeOn_resolver hfree hsections hothers)
    have hcursor' : t.lookup storageName = some cursor := (hothers _ (Ne.symm hne)).trans hcursor
    have hmoved : (behindField e width).constant t.resolver = .ok (wrap (n + v * width)) := by
      rw [Expr.constant, value_behindField (value_storageName hcursor' hkind hn)
        (hagree.number.trans hvalue), hword, hwidth]
      rfl
    refine ⟨{ cursor with value := .number (wrap (n + v * width)) }, _, ?_, hsame⟩
    rw [definedBy, hmoved]
    show t.defineVariable storageName _ place' = _
    rw [defineVariable, define, qualify_global (by decide)]
    simp [add, hcursor', hkind, withCursor]

end State

namespace Step

variable {definer : Definer} {name : String} {location : Option Location} {e : Expr}
  {ts rest after : List Token} {t word last : Token} {r u : Run}

/-- The result of a step is that of an outcome: where there is one, the symbol, in the state that
goes with it and with the tokens `rest` left to read, and otherwise a failure. -/
def GoesAs (outcome : Except Error (Symbol × State)) (rest : List Token)
    (result : EStateM.Result Failure Run Symbol) : Prop :=
  match outcome with
  | .ok (x, s) => ∃ u, result = .ok x u ∧ u.state = s ∧ u.stream.Delivers rest
  | .error _ => ∃ f u, result = .error f u

theorem goesAs_define (f : State → Except Error (Symbol × State)) (h : u.stream.Delivers rest) :
    GoesAs (f u.state) rest (define f u) := by
  rw [define_run]
  cases f u.state with
  | error e => exact ⟨_, _, rfl⟩
  | ok p => exact ⟨_, rfl, rfl, h⟩

theorem constant_delivers (h : r.stream.Delivers (ts ++ rest))
    (hts : Expr.Derives r.state.qualify 0 ts e) (hstop : Expr.Stops 0 rest) :
    ∃ u, u.stream.Delivers rest ∧ u.state = r.state ∧
      (∀ v, e.constant r.state.resolver = .ok v → constant r = .ok v u) ∧
      ∀ cause, e.constant r.state.resolver = .error cause → ∃ f, constant r = .error f u := by
  rcases hts.starts with ⟨t, us, rfl, _⟩
  rcases Runs.peek t _ r h with ⟨r₁, hpeek, h₁, hstate₁⟩
  rw [← hstate₁] at hts
  rcases Runs.reading (Expr.runs_read hts hstop) r₁ h₁ with ⟨u, hread, hu, hstate⟩
  have hexpression : expression r₁ = .ok e u := hread
  have hstates : u.state = r.state := hstate.trans hstate₁
  have hconstant : constant r = located t (ofExcept (e.constant r.state.resolver)) u := by
    rw [← hstates]
    show (peek >>= _) r = _
    rw [run_bind_of_ok hpeek]
    rw [run_bind_of_ok hexpression]
    rfl
  refine ⟨u, hu, hstates, ?_, ?_⟩
  · intro v hv
    rw [hconstant, hv]
    rfl
  · intro cause hcause
    rw [hconstant, hcause]
    exact located_fails t rfl

/-- A definer goes as the definition by its expression. -/
theorem defineBy_goesAs (hnumber : definer ≠ .equs) (h : r.stream.Delivers (ts ++ rest))
    (hts : Expr.Derives r.state.qualify 0 ts e) (hstop : Expr.Stops 0 rest) :
    GoesAs (r.state.definedBy definer name e location) rest (defineBy definer name location r) := by
  -- a field looks for the end of the line first, and finds an expression
  have hlook : ∃ r₀, atLineEnd r = .ok false r₀ ∧ r₀.stream.Delivers (ts ++ rest) ∧
      r₀.state = r.state := by
    rcases hts.starts with ⟨t, us, rfl, ht⟩
    have hopen : t.lexeme.endsLine = false := by
      cases hl : t.lexeme with
      | newline => rw [hl] at ht; cases ht
      | eof => rw [hl] at ht; cases ht
      | _ => rfl
    have hpeek : Runs atLineEnd (t :: (us ++ rest)) t.lexeme.endsLine (t :: (us ++ rest)) :=
      (Runs.peek t _).bind (.pure _ _)
    rw [← hopen]
    exact hpeek r h
  rcases hlook with ⟨r₀, hends, h₀, hstate₀⟩
  rcases constant_delivers h hts hstop with ⟨u, hu, hstate, hok, herror⟩
  rw [← hstate₀] at hts
  rcases constant_delivers h₀ hts hstop with ⟨u₀, hu₀, hstates₀, hok₀, herror₀⟩
  rw [hstate₀] at hok₀ herror₀ hstates₀
  have hfield : ∀ width, storageField name width location r = (constant >>= fun count => do
      let offset := (← get).state.storage
      update fun s => (s.advanceStorage (count * width)).2
      define fun s => s.defineConstant name offset false location) r₀ :=
    fun width => run_bind_of_ok hends _
  unfold definedBy
  cases hv : e.constant r.state.resolver with
  | error cause =>
    rcases herror cause hv with ⟨f, hfails⟩
    rcases herror₀ cause hv with ⟨f₀, hfails₀⟩
    cases definer with
    | equs => exact absurd rfl hnumber
    | rb | rw | rl => exact ⟨f₀, u₀, (hfield _).trans (run_bind_of_error hfails₀ _)⟩
    | equ | set | assign => exact ⟨f, u, run_bind_of_error hfails _⟩
  | ok v =>
    have hlaid : ∀ width,
      GoesAs ((r.state.advanceStorage (v * width)).2.defineConstant name r.state.storage
        false location) rest (storageField name width location r) := by
      intro width
      rw [hfield, run_bind_of_ok (hok₀ v hv), ← hstates₀]
      exact goesAs_define (u := { u₀ with state := (u₀.state.advanceStorage (v * width)).2 })
        (fun s => s.defineConstant name u₀.state.storage false location) hu₀
    have hgiven : ∀ f : Int → State → Except Error (Symbol × State),
        GoesAs (f v r.state) rest ((constant >>= fun value => define (f value)) r) := by
      intro f
      rw [run_bind_of_ok (hok v hv), ← hstate]
      exact goesAs_define (f v) hu
    cases definer with
    | equs => exact absurd rfl hnumber
    | rb | rw | rl => exact hlaid _
    | equ => exact hgiven fun value s => s.defineConstant name value false location
    | set | assign => exact hgiven fun value s => s.defineVariable name value location

theorem nextLine_definedBy (hnumber : definer ≠ .equs) (ht : t.lexeme = .label name)
    (hw : definer? word.lexeme = some definer)
    (hts : Expr.Derives r.state.qualify 0 ts e) (hlast : last.lexeme.endsLine = true)
    (hend : Runs endLine (last :: rest) () after)
    (h : r.stream.Delivers (t :: word :: (ts ++ last :: rest))) :
    ∃ l, (∀ x s, r.state.definedBy definer name e (some l) = .ok (x, s) →
        ∃ ss u, nextLine r = .ok (some ss) u ∧ u.state = s ∧ u.stream.Delivers after) ∧
      ∀ e', r.state.definedBy definer name e (some l) = .error e' →
        ∃ f u, nextLine r = .error f u := by
  rcases Heads.of_delivers ht hw h with ⟨l, g, hheads, hg, hstate⟩
  have hstop : Expr.Stops 0 (last :: rest) := by
    rw [Expr.stops_cons_iff]
    cases hl : last.lexeme with
    | newline => simp [Expr.binding?]
    | eof => simp [Expr.binding?]
    | _ => rw [hl] at hlast; cases hlast
  rw [← hstate] at hts ⊢
  have hgoes : GoesAs (g.state.definedBy definer name e (some l)) (last :: rest)
      (defineBy definer name (some l) g) := defineBy_goesAs hnumber hg hts hstop
  refine ⟨l, ?_, ?_⟩
  · intro x s hdefined
    rw [hdefined] at hgoes
    rcases hgoes with ⟨u, hdefine, hu, hdelivers⟩
    rcases hend u hdelivers with ⟨w, hendLine, hafter, hstates⟩
    exact ⟨_, w, hheads.nextLine_ok hdefine hendLine, hstates.trans hu, hafter⟩
  · intro e' hrefused
    rw [hrefused] at hgoes
    rcases hgoes with ⟨f, u, hdefine⟩
    rcases hheads.nextLine_error hdefine with ⟨f', hline⟩
    exact ⟨f', u, hline⟩

end Step

/-- A line with a storage field of some units. -/
def fieldLine (name : String) (definer : Definer) (count : String) : String :=
  name ++ " " ++ definer.word ++ " " ++ count

/-- A line with the cursor as a constant, and a line that moves the cursor on. -/
def cursorLines (name : String) (width : Nat) (count : String) : String :=
  name ++ " equ _RS\n_RS set _RS + (" ++ count ++ ") * " ++ toString width

section

open Sm83.Expr

variable {qualify : String → Except Cause String} {e : Expr} {count : List Char}

theorem Spelt.binary {o : BinaryOp} {k : Nat} {left right : List Char} {a b : Expr}
    (hop : ∀ s, o ≠ .other s) (hk : binding? (.punct o.punct) = some (k, o))
    (ha : Spelt left (Derives qualify k · a)) (hb : Spelt right (Derives qualify (k + 1) · b)) :
    Spelt (left ++ ' ' :: (o.text.toList ++ ' ' :: right))
      (Derives qualify k · (.binary o a b)) := by
  refine ha.append ?_ (Prints.spelt_operator hop hb) ?_
  · intro rest _
    simpa [BinaryOp.text_punct hop] using Prints.closes_operator hop (right ++ rest)
  · rintro xs _ hxs ⟨t, ys, rfl, ht, hys⟩
    exact .binary hxs (by rw [ht, hk]) hys

theorem spelt_behindField {width : Nat} (hwidth : width < 10)
    (h : Spelt count (Derives qualify 0 · e)) :
    Spelt ("_RS".toList ++ ' ' :: ('+' :: ' ' :: ('(' :: (count ++ [')']) ++ ' ' ::
      ('*' :: ' ' :: [width.digitChar])))) (Derives qualify 0 · (behindField e width)) := by
  have hgroup : Spelt ('(' :: (count ++ [')'])) (Derives qualify 8 · e) :=
    h.between .leftParen .rightParen (by decide) fun t ts u ht hts hu => .group ht hts hu
  have hnumber : Spelt [width.digitChar] (Derives qualify 8 · (.literal width)) :=
    .of_lexeme (fun rest ms hrest h => .digit hwidth hrest h) fun t ht => .number ht
  have hcursor : Spelt "_RS".toList (Derives qualify 8 · (.symbol storageName)) :=
    .of_lexeme (fun rest ms hrest h => .name (by decide) hrest h) fun t ht => .name ht
  have hproduct := Spelt.binary (o := .mul) (by simp) rfl
    (hgroup.imp fun _ hts => hts.mono (j := 6) (by decide) (by decide))
    (hnumber.imp fun _ hts => hts.mono (j := 7) (by decide) (by decide))
  have hsum := Spelt.binary (o := .add) (by simp) rfl
    (hcursor.imp fun _ hts => hts.mono (j := 3) (by decide) (by decide))
    (hproduct.imp fun _ hts => hts.mono (j := 4) (by decide) (by decide))
  exact hsum.imp fun _ hts => hts.mono (by decide) (by decide)

end

theorem lexes_cursorLines {name count : String} {width : Nat} {ls : List Lexeme}
    (hwidth : width < 10) (hname : isGlobalName name = true)
    (h : Lexes ("_RS".toList ++ ' ' :: ('+' :: ' ' :: ('(' :: (count.toList ++ [')']) ++ ' ' ::
      ('*' :: ' ' :: [width.digitChar])))) ls) :
    Lexes (cursorLines name width count).toList (.label name :: .keyword Definer.equ.word ::
      .name storageName :: .newline :: .label storageName :: .keyword
        Definer.set.word :: ls) := by
  have hset := Lexes.definition (d := .set) (show isGlobalName storageName = true by decide)
    (by decide) h
  have hbehind := Lexes.newline (head_ne_star (by decide) _) hset
  have hstart : headIs isNameStart storageName.toList = true := by decide
  have hchars : ∀ c ∈ storageName.toList, isNameChar c = true := by
    simp [storageName, isNameChar]
  have hcursor : Lexes _ (.name storageName :: _) :=
    .word hstart hchars (by simp) (scan_word hstart hchars rfl) hbehind
  have htext := Lexes.definition (d := .equ) hname (by decide) hcursor
  simpa [cursorLines, Nat.toDigits_of_lt_base hwidth, storageName, Definer.word] using htext

namespace Run

variable {state : State} {definer : Definer} {width : Nat} {name count file : String} {e : Expr}
  {r : Run}

/-- What the line of a field leaves. -/
theorem parse_fieldLine (hword : definer ∈ Definer.words) (hnumber : definer ≠ .equs)
    (hname : isGlobalName name = true)
    (hcount : Spelt count.toList (Expr.Derives state.qualify 0 · e))
    (h : Run.parse (.ofText (fieldLine name definer count) file) state = .ok () r) :
    ∃ l x, state.definedBy definer name e l = .ok (x, r.state) := by
  rcases hcount with ⟨ls, hlexes, hderives⟩
  have htext := Lexes.definition hname hword (by simpa using hlexes [] [] .nil .nil)
  have hline : (fieldLine name definer count).toList =
      name.toList ++ ' ' :: (definer.word.toList ++ ' ' :: count.toList) := by
    simp [fieldLine]
  rw [← hline] at htext
  rcases htext.tokens file (hline ▸ head_ne_star hname _) with ⟨us, last, htokens, hus, hlast⟩
  rcases List.map_eq_cons_iff.mp hus with ⟨t, us, rfl, ht, hus⟩
  rcases List.map_eq_cons_iff.mp hus with ⟨word, ts, rfl, hw, hts⟩
  rcases Step.nextLine_definedBy (r := .start _ state (.empty 100 false)) hnumber ht
    (hw ▸ Step.definer?_word definer hword) (hderives ts hts) (by rw [hlast]; rfl)
    (.endLine_eof hlast []) (Stream.delivers_ofSource htokens) with ⟨l, hok, herror⟩
  cases hdefined : state.definedBy definer name e (some l) with
  | error e' =>
    rcases herror e' hdefined with ⟨f, u, hfails⟩
    rw [parse_error_of_reached .start hfails] at h
    cases h
  | ok p =>
    rcases p with ⟨x, s⟩
    rcases hok x s hdefined with ⟨ss, u, hnext, rfl, hdelivers⟩
    rcases (Reached.start.line hnext).parse_ok hlast hdelivers with ⟨r', hparse, hstate, _⟩
    cases h.symm.trans hparse
    exact ⟨some l, x, hstate ▸ hdefined⟩

/-- What the two lines leave. -/
theorem parse_cursorLines (hwidth : width < 10) (hname : isGlobalName name = true)
    (hcount : Spelt count.toList (Expr.Derives state.qualify 0 · e)) {s : State}
    (h : ∀ place, ∃ y t, state.definedBy .equ name (.symbol storageName) place = .ok (y, t) ∧
      t.scope = state.scope ∧ ∀ place', ∃ z t', t.definedBy .set storageName
        (behindField e width) place' = .ok (z, t') ∧ t'.placeless = s) :
    ∃ r', Run.parse (.ofText (cursorLines name width count) file) state = .ok () r' ∧
      r'.state.placeless = s := by
  rcases spelt_behindField hwidth hcount with ⟨ls, hlexes, hderives⟩
  have htext := lexes_cursorLines hwidth hname (by simpa using hlexes [] [] .nil .nil)
  rcases htext.tokens file (by simpa [cursorLines] using head_ne_star hname _) with
    ⟨us, last, htokens, hus, hlast⟩
  rcases List.map_eq_cons_iff.mp hus with ⟨t₁, us, rfl, ht₁, hus⟩
  rcases List.map_eq_cons_iff.mp hus with ⟨word₁, us, rfl, hw₁, hus⟩
  rcases List.map_eq_cons_iff.mp hus with ⟨value, us, rfl, hvalue, hus⟩
  rcases List.map_eq_cons_iff.mp hus with ⟨newline, us, rfl, hnewline, hus⟩
  rcases List.map_eq_cons_iff.mp hus with ⟨t₂, us, rfl, ht₂, hus⟩
  rcases List.map_eq_cons_iff.mp hus with ⟨word₂, ts, rfl, hw₂, hts⟩
  have hcursor : Expr.Derives state.qualify 0 [value] (.symbol storageName) :=
    Expr.Derives.mono (.name hvalue) (by decide) (by decide)
  rcases Step.nextLine_definedBy (r := .start _ state (.empty 100 false)) (by simp) ht₁
    (hw₁ ▸ Step.definer?_word .equ (by decide)) hcursor (by rw [hnewline]; rfl)
    (.endLine_newline hnewline _)
    (Stream.delivers_ofSource htokens) with ⟨l₁, hok₁, _⟩
  rcases h (some l₁) with ⟨y, t, hequ, hscope, hmove⟩
  rcases hok₁ y t hequ with ⟨ss₁, u₁, hnext₁, rfl, hdelivers₁⟩
  -- the first line defines no label, so local names mean the same in the second
  have hbehind : Expr.Derives u₁.state.qualify 0 ts (behindField e width) := by
    rw [show u₁.state.qualify = state.qualify from funext (qualify_congr hscope)]
    exact hderives ts hts
  rcases Step.nextLine_definedBy (r := { u₁ with statements := u₁.statements ++ ss₁ }) (by simp) ht₂
    (hw₂ ▸ Step.definer?_word .set (by decide)) hbehind (by rw [hlast]; rfl) (.endLine_eof hlast [])
    hdelivers₁ with ⟨l₂, hok₂, _⟩
  rcases hmove (some l₂) with ⟨z, t', hset, hplaceless⟩
  rcases hok₂ z t' hset with ⟨ss₂, u₂, hnext₂, rfl, hdelivers₂⟩
  rcases ((Reached.start.line hnext₁).line hnext₂).parse_ok hlast hdelivers₂ with
    ⟨r', hparse, hstate, _⟩
  exact ⟨r', hparse, hstate ▸ hplaceless⟩

/-- A storage field is a constant, with the place of the cursor, and an assignment that moves the
cursor behind the field. If the line of the field can be read, the two lines can, and they give the
same symbols but for where these were defined, the same scope and the same sections. -/
theorem field_as_definitions (state : State) (hs : state.Consistent) (definer : Definer)
    (width : Nat) (hunit : definer.unit? = some (width : Int)) (name count file : String)
    (hname : isGlobalName name = true) (e : Expr)
    (hcount : Spelt count.toList (Expr.Derives state.qualify 0 · e)) (hfree : name ∉ e.symbols)
    (r : Run) (h : Run.parse (.ofText (fieldLine name definer count) file) state = .ok () r) :
    ∃ r', Run.parse (.ofText (cursorLines name width count) file) state = .ok () r' ∧
      r'.state.placeless = r.state.placeless := by
  have hdefiner : definer ∈ Definer.words ∧ definer ≠ .equs ∧ width < 10 := by
    cases definer <;> simp [Definer.unit?] at hunit <;> simp [Definer.words] <;> omega
  have hglobal : isLocalSpelling name = false := by
    cases hlocal : isLocalSpelling name with
    | false => rfl
    | true =>
      rcases exists_dot_of_local hlocal with ⟨cs, hcs⟩
      rw [isGlobalName, hcs] at hname
      cases hname
  rcases parse_fieldLine hdefiner.1 hdefiner.2.1 hname hcount h with ⟨l, x, hdefined⟩
  exact parse_cursorLines hdefiner.2.2 hname hcount
    (definedBy_field hs hunit hglobal hfree hdefined)

/-- The count mentions the cursor, and both the size of the field and the place behind it exceed a
word. -/
theorem field_as_definitions_wraps :
    let state := (fresh false).run [.resetStorage 2147483646]
    ∃ r r', Run.parse (.ofText (fieldLine "hp" .rw "_RS") "<input>") state = .ok () r ∧
      r.state.storage = 2147483642 ∧
      Run.parse (.ofText (cursorLines "hp" 2 "_RS") "<input>") state = .ok () r' ∧
      r'.state.placeless = r.state.placeless := by
  intro state
  have hread : endsWith (fun _ r => r.state.storage == 2147483642)
      (Run.parse (.ofText (fieldLine "hp" .rw "_RS") "<input>") state) = true := by
    decide +kernel
  rcases endsWith_iff.mp hread with ⟨_, r, hparse, hstorage⟩
  have hcount : Spelt "_RS".toList (Expr.Derives state.qualify 0 · (.symbol "_RS")) :=
    (Expr.Prints.name (by decide)).spelt.imp fun _ hts => (hts _).mono (by decide) (by decide)
  have hs : state.Consistent := consistent_run (consistent_fresh false) _
  rcases field_as_definitions state hs .rw 2 rfl "hp" "_RS" "<input>" (by decide) (.symbol "_RS")
    hcount (by decide) r hparse with ⟨r', hparse', hsame⟩
  exact ⟨r, r', hparse, by simpa using hstorage, hparse', hsame⟩

end Run

end Sm83
