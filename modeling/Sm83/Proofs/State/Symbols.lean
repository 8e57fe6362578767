import Sm83.Proofs.State.Define
import Sm83.Proofs.State.Step

/-!
# What a step does to symbols

What one operation can do to the symbols of a state, to its scope and to the exports asked for, said
once. `Change` lists the ways and `change_after` says that every operation takes one of them; an
operation on sections, and one that fails, changes none of the three.
-/

namespace Sm83

open Table

/-- The value of a symbol fits its kind: text symbols hold texts, and constants and variables hold
numbers of 32 bits. -/
structure Symbol.Sound (x : Symbol) : Prop where
  text : (∃ t, x.value = .text t) ↔ x.kind = .equs
  word : x.kind = .equ ∨ x.kind = .set →
    ∃ n, x.value = .number n ∧ -0x80000000 ≤ n ∧ n < 0x80000000

namespace Symbol.Sound

variable {x : Symbol}

theorem with_exported (h : x.Sound) (exported : Bool) :
    ({ x with exported := exported } : Symbol).Sound :=
  ⟨h.text, h.word⟩

theorem label {n : Int} (hkind : x.kind = .label) (hvalue : x.value = .number n) : x.Sound := by
  constructor
  · simp [hkind, hvalue]
  · simp [hkind]

theorem wrapped (hkind : x.kind = .equ ∨ x.kind = .set) (v : Int)
    (hvalue : x.value = .number (Word.wrap v)) : x.Sound := by
  constructor
  · rcases hkind with hkind | hkind
    · simp [hkind, hvalue]
    · simp [hkind, hvalue]
  · intro _
    exact ⟨Word.wrap v, hvalue, Word.wrap_mem_range v⟩

theorem equs {t : String} (hkind : x.kind = .equs) (hvalue : x.value = .text t) : x.Sound := by
  constructor
  · simp [hkind, hvalue]
  · simp [hkind]

end Symbol.Sound

/-- The spelling that a definition gives a meaning. -/
def Operation.defined? : Operation → Option String
  | .defineLabel spelling .. => some spelling
  | .defineConstant spelling .. => some spelling
  | .defineVariable spelling .. => some spelling
  | .defineText spelling .. => some spelling
  | _ => none

namespace State

/-- A name for a symbol that is entered anew: it is free, or a variable other than the storage
cursor gives way to a symbol of another kind, which is exported if the variable was. -/
def MakesWay (s : State) (symbol : Symbol) : Prop :=
  s.lookup symbol.name = none ∨
    ∃ old, s.lookup symbol.name = some old ∧ old.kind = .set ∧ symbol.kind ≠ .set ∧
      symbol.name ≠ storageName ∧ (old.exported = true → symbol.exported = true)

/-- The scope after a symbol has been entered: a global label takes it over. -/
def NextScope (s : State) (symbol : Symbol) (scope : Option String) : Prop :=
  scope = s.scope ∨
    (scope = some symbol.name ∧ symbol.kind = .label ∧ isLocalName symbol.name = false)

/-- The ways in which an operation can change the symbols, the scope and the exports asked for. -/
inductive Change (s : State) : Operation → State → Prop where
  /-- Nothing of the three changes. -/
  | aside {op : Operation} {s' : State} (symbols : s'.symbols = s.symbols)
      (scope : s'.scope = s.scope) (pending : s'.pendingExports = s.pendingExports) :
      Change s op s'
  /-- A symbol is entered, and exported if that was asked for. -/
  | enter {op : Operation} {s' : State} {symbol : Symbol} (free : s.MakesWay symbol)
      (sound : symbol.Sound) (symbols : s'.symbols = (s.enter symbol).2.symbols)
      (scope : s.NextScope symbol s'.scope)
      (pending : s'.pendingExports = s.pendingExports.erase symbol.name)
      (placed : symbol.kind = .label → symbol.placed = (s.load <|> s.current).map Section.name) :
      Change s op s'
  /-- A variable gets another value. -/
  | assign {op : Operation} {s' : State} {name : String} {old : Symbol} {v : Int}
      (found : s.lookup name = some old) (kind : old.kind = .set)
      (only : s' = { s with
        symbols := s.symbols.insert name { old with value := .number (Word.wrap v) } }) :
      Change s op s'
  /-- A symbol is exported. -/
  | exportNow {op : Operation} {s' : State} {name : String} {x : Symbol}
      (found : s.lookup name = some x)
      (only : s' = { s with symbols := s.symbols.insert name { x with exported := true } }) :
      Change s op s'
  /-- A name is to be exported once it is defined. -/
  | exportLater {op : Operation} {s' : State} {name : String} {location : Option Location}
      (free : s.lookup name = none)
      (only : s' = { s with pendingExports := s.pendingExports.insert name location }) :
      Change s op s'
  /-- A symbol that is neither a label nor exported nor built in is removed. -/
  | purge {spelling name : String} {s' : State} {x : Symbol} (full : s.qualify spelling = .ok name)
      (done : s.purge spelling = .ok s') (found : s.lookup name = some x)
      (builtIn : name ≠ storageName)
      (kind : x.kind ≠ .label) (kept : x.exported = false)
      (only : s' = { s with symbols := s.symbols.erase name }) :
      Change s (.purge spelling) s'

section

variable {s s' : State} {op : Operation} {symbol x : Symbol} {spelling : String}

theorem add_cases (h : s.add symbol = .ok (x, s')) :
    (∃ exported, s.MakesWay { symbol with exported := exported } ∧
      s' = (s.enter { symbol with exported := exported }).2) ∨
    (symbol.kind = .set ∧ ∃ old, s.lookup symbol.name = some old ∧ old.kind = .set ∧
      s' = { s with symbols := s.symbols.insert symbol.name { old with value := symbol.value }
        }) := by
  unfold add at h
  split at h
  · next hfree =>
    cases h
    exact .inl ⟨symbol.exported, .inl hfree, rfl⟩
  · next old hfound =>
    split at h
    · next hgives =>
      split at h
      · next hkind =>
        cases h
        exact .inr ⟨hkind, old, hfound, hgives.1, rfl⟩
      · next hkind =>
        cases h
        have hname := hgives.2.resolve_left hkind
        refine .inl
          ⟨symbol.exported || old.exported, .inr ⟨old, hfound, hgives.1, hkind, hname, ?_⟩, rfl⟩
        intro hexported
        simp [hexported]
    · cases h

theorem define_eq_ok_iff {make : String → Symbol} :
    s.define spelling make = .ok (x, s') ↔
      ∃ name, s.qualify spelling = .ok name ∧ s.add (make name) = .ok (x, s') := by
  unfold define
  cases s.qualify spelling with
  | ok name => simp
  | error cause => simp

theorem change_define {make : String → Symbol} (hsound : ∀ name, (make name).Sound)
    (hkind : ∀ name, (make name).kind ≠ .set ∧ (make name).kind ≠ .label)
    (h : s.define spelling make = .ok (x, s')) : Change s op s' := by
  obtain ⟨name, _, hadd⟩ := define_eq_ok_iff.mp h
  rcases add_cases hadd with ⟨exported, hfree, rfl⟩ | ⟨hset, _⟩
  · exact .enter hfree ((hsound name).with_exported _) rfl (.inl rfl) rfl
      fun hlabel => absurd hlabel (hkind name).2
  · exact absurd hset (hkind name).1

variable {location : Option Location} {block : Section}

theorem change_defineVariable {value : Int}
    (h : s.defineVariable spelling value location = .ok (x, s')) : Change s op s' := by
  obtain ⟨name, _, hadd⟩ := define_eq_ok_iff.mp h
  rcases add_cases hadd with ⟨exported, hfree, rfl⟩ | ⟨_, old, hfound, hold, rfl⟩
  · exact .enter hfree (.wrapped (.inr rfl) value rfl) rfl (.inl rfl) rfl (by simp)
  · exact .assign hfound hold rfl

theorem change_defineLabel {exported : Bool}
    (h : s.defineLabel spelling exported location = .ok (x, s')) : Change s op s' := by
  obtain ⟨name, t, _, hadd, rfl⟩ := defineLabel_eq_ok_iff.mp h
  obtain ⟨hx, _⟩ := add_bound hadd (by simp [labelHere])
  have hname : x.name = name := by rw [hx]; rfl
  rcases add_cases hadd with ⟨exported, hfree, rfl⟩ | ⟨hset, _⟩
  · split
    · exact .enter hfree (.label rfl rfl) rfl (.inl rfl) rfl (fun _ => rfl)
    · next hglobal =>
      refine .enter hfree (.label rfl rfl) rfl (.inr ⟨?_, rfl, ?_⟩) rfl (fun _ => rfl)
      · rw [hname]
        rfl
      · simpa [hname, labelHere] using hglobal
  · cases hset

theorem change_exportName (h : s.exportName spelling location = .ok s') : Change s op s' := by
  obtain ⟨name, _, ⟨x, hfound, rfl⟩ | ⟨hfree, rfl | rfl⟩⟩ := exportName_cases h
  · exact .exportNow hfound rfl
  · exact .aside rfl rfl rfl
  · exact .exportLater hfree rfl

theorem change_purge (h : s.purge spelling = .ok s') : Change s (.purge spelling) s' := by
  obtain ⟨name, x, hfull, hfound, hbuiltIn, hkind, hkept, honly⟩ := purge_cases h
  exact .purge hfull h hfound hbuiltIn hkind hkept honly

/-- The symbols, the scope and the exports asked for are as they were. -/
structure SameSymbols (s s' : State) : Prop where
  symbols : s'.symbols = s.symbols
  scope : s'.scope = s.scope
  pending : s'.pendingExports = s.pendingExports

theorem SameSymbols.refl (s : State) : SameSymbols s s :=
  ⟨rfl, rfl, rfl⟩

theorem SameSymbols.change (h : SameSymbols s s') : Change s op s' :=
  .aside h.symbols h.scope h.pending

theorem Registers.sameSymbols (h : Registers s block s') : SameSymbols s s' := by
  rw [h.only]
  exact ⟨rfl, rfl, rfl⟩

theorem enterSection_sameSymbols (h : s.enterSection block = .ok s') : SameSymbols s s' := by
  obtain ⟨_, t, hregisters, rfl⟩ := enterSection_cases h
  have ht := hregisters.sameSymbols
  exact ⟨ht.symbols, ht.scope, ht.pending⟩

theorem enterLoad_sameSymbols (h : s.enterLoad block = .ok s') : SameSymbols s s' := by
  obtain ⟨_, _, t, hregisters, rfl⟩ := enterLoad_cases h
  have ht := hregisters.sameSymbols
  exact ⟨ht.symbols, ht.scope, ht.pending⟩

theorem endLoad_sameSymbols (h : s.endLoad = .ok s') : SameSymbols s s' := by
  obtain ⟨load, _, rfl⟩ := endLoad_cases h
  exact ⟨rfl, rfl, rfl⟩

theorem popSection_sameSymbols (h : s.popSection = .ok s') : SameSymbols s s' := by
  obtain ⟨context, rest, _, rfl⟩ := popSection_cases h
  exact ⟨rfl, rfl, rfl⟩

/-- What an operation that succeeds has to do with symbols: it defines one, exports one, purges one
or moves the storage cursor, or it leaves the symbols, the scope and the exports asked for alone. -/
inductive Touches (s : State) : Operation → State → Prop where
  | defines {op : Operation} {s' : State} {spelling : String}
      (defined : op.defined? = some spelling) : Touches s op s'
  | exports {s' : State} {spelling : String} {location : Option Location}
      (done : s.exportName spelling location = .ok s') : Touches s (.exportName spelling location)
      s'
  | purges {s' : State} {spelling : String} (done : s.purge spelling = .ok s') :
      Touches s (.purge spelling) s'
  | advances (bytes : Int) : Touches s (.advanceStorage bytes) (s.resetStorage (s.storage + bytes))
  | resets (value : Int) : Touches s (.resetStorage value) (s.resetStorage value)
  | nothing {op : Operation} {s' : State} (same : SameSymbols s s') : Touches s op s'

theorem touches_of_perform {answer : Answer} (h : s.perform op = .ok (answer, s')) :
    Touches s op s' := by
  cases op with
  | defineLabel | defineConstant | defineVariable | defineText => exact .defines rfl
  | exportName spelling location => exact of_map_ok h fun _ hr => .exports hr
  | purge spelling => exact of_map_ok h fun _ hr => .purges hr
  | advanceStorage bytes =>
    cases h
    exact .advances bytes
  | resetStorage value =>
    cases h
    exact .resets value
  | qualify | resolveLocal => exact of_map_ok h fun _ _ => .nothing (.refl s)
  | lookup | value | isDefined | pushSection | advance | sectionSize =>
    cases h
    exact .nothing ⟨rfl, rfl, rfl⟩
  | enterSection block => exact of_map_ok h fun _ hr => .nothing (enterSection_sameSymbols hr)
  | enterLoad block => exact of_map_ok h fun _ hr => .nothing (enterLoad_sameSymbols hr)
  | endLoad => exact of_map_ok h fun _ hr => .nothing (endLoad_sameSymbols hr)
  | popSection => exact of_map_ok h fun _ hr => .nothing (popSection_sameSymbols hr)

/-- The storage cursor, if there is one, is a variable. -/
def CursorVaries (s : State) : Prop :=
  ∀ x, s.lookup storageName = some x → x.kind = .set

theorem change_resetStorage (hs : s.CursorVaries) (value : Int) :
    Change s op (s.resetStorage value) := by
  unfold resetStorage
  split
  · next x hfound => exact .assign hfound (hs x hfound) rfl
  · exact .aside rfl rfl rfl

theorem change_of_perform (hs : s.CursorVaries) {answer : Answer}
    (h : s.perform op = .ok (answer, s')) : Change s op s' := by
  cases touches_of_perform h with
  | defines defined =>
    cases op with
    | defineLabel spelling exported location => exact of_map_ok h fun _ hr => change_defineLabel hr
    | defineConstant spelling value exported location =>
      exact of_map_ok h fun _ hr => change_define (fun _ => .wrapped (.inl rfl) value rfl) (by simp)
        hr
    | defineVariable spelling
        value location => exact of_map_ok h fun _ hr => change_defineVariable hr
    | defineText spelling value location =>
      exact of_map_ok h fun _ hr => change_define (fun _ => .equs rfl rfl) (by simp) hr
    | _ => cases defined
  | exports done => exact change_exportName done
  | purges done => exact change_purge done
  | advances bytes => exact change_resetStorage hs _
  | resets value => exact change_resetStorage hs value
  | nothing same => exact same.change

theorem change_after (hs : s.CursorVaries) (op : Operation) : Change s op (s.after op) := by
  unfold after
  split
  · next answer s' hperform => exact change_of_perform hs hperform
  · exact .aside rfl rfl rfl

end

/-- The operation removes the symbol of a name. -/
def Purges (s : State) (op : Operation) (name : String) : Prop :=
  ∃ spelling s', op = .purge spelling ∧ s.qualify spelling = .ok name ∧ s.purge spelling = .ok s'

/-- What can become of a symbol `x` in one step. -/
inductive Fate (s : State) (op : Operation) (name : String) (x : Symbol) (s' : State) : Prop where
  /-- It stays, and only a variable can have another value. -/
  | stays {y : Symbol} (found : s'.lookup name = some y) (kind : y.kind = x.kind)
      (placed : y.placed = x.placed) (value : x.kind ≠ .set → y.value = x.value)
      (exported : x.exported = true → y.exported = true)
  /-- It is a variable that has given way to something else. -/
  | replaced {y : Symbol} (varies : x.kind = .set) (ordinary : name ≠ storageName)
      (found : s'.lookup name = some y) (exported : x.exported = true → y.exported = true)
  /-- It has been removed. -/
  | purged (done : s.Purges op name) (ordinary : name ≠ storageName) (kind : x.kind ≠ .label)
      (exported : x.exported = false)

section

variable {s s' : State} {op : Operation} {name : String} {x : Symbol}

theorem Fate.untouched (h : s'.lookup name = s.lookup name) (hx : s.lookup name = some x) :
    Fate s op name x s' :=
  .stays (h.trans hx) rfl rfl (fun _ => rfl) id

/-- What becomes of a symbol. -/
theorem Change.fate (h : Change s op s') (hx : s.lookup name = some x) : Fate s op name x s' := by
  cases h with
  | aside symbols scope pending => exact .untouched (by rw [lookup, symbols]; rfl) hx
  | @enter _ _ symbol free sound symbols scope pending placed =>
    by_cases hname : name = symbol.name
    · -- only a variable could have been there
      subst hname
      rcases free with hfree | ⟨old, hfound, hold, _, hordinary, hexported⟩
      · rw [hfree] at hx
        cases hx
      · cases hfound.symm.trans hx
        refine .replaced hold hordinary (by rw [lookup, symbols]; exact get?_insert_self ..)
          ?_
        intro hx
        simp [hexported hx]
    · exact .untouched (by rw [lookup, symbols]; exact get?_insert_ne _ _ hname) hx
  | @assign _ _ assigned old v found kind only =>
    subst only
    by_cases hname : name = assigned
    · subst hname
      cases found.symm.trans hx
      exact .stays (get?_insert_self ..) rfl rfl (fun hset => absurd kind hset) id
    · exact .untouched (get?_insert_ne _ _ hname) hx
  | @exportNow _ _ exported y found only =>
    subst only
    by_cases hname : name = exported
    · subst hname
      cases found.symm.trans hx
      exact .stays (get?_insert_self ..) rfl rfl (fun _ => rfl) (fun _ => rfl)
    · exact .untouched (get?_insert_ne _ _ hname) hx
  | exportLater free only =>
    subst only
    exact .untouched rfl hx
  | @purge spelling removed _ y full done found builtIn kind kept only =>
    by_cases hname : name = removed
    · subst hname
      cases found.symm.trans hx
      exact .purged ⟨spelling, s', rfl, full, done⟩ builtIn kind kept
    · subst only
      exact .untouched (get?_erase_ne _ hname) hx

end

/-- What holds of the symbols, the scope and the exports asked for in every state of a run. -/
structure Consistent (s : State) : Prop where
  /-- The storage cursor is there, as a variable that holds a number of 32 bits. -/
  cursor : ∃ x n, s.lookup storageName = some x ∧ x.kind = .set ∧ x.value = .number n ∧
    -0x80000000 ≤ n ∧ n < 0x80000000
  /-- No two entries have the same name. -/
  distinct : s.symbols.names.Nodup
  /-- A symbol is found under its own name. -/
  keyed : ∀ name x, s.lookup name = some x → x.name = name
  /-- Text symbols hold texts, and constants and variables hold numbers of 32 bits. -/
  sound : ∀ name x, s.lookup name = some x → x.Sound
  /-- No export is asked for under a name that is defined. -/
  pending : ∀ name, s.isDefined name → s.pendingExports.contains name = false
  /-- The scope is a label whose name has no dot. -/
  scope : ∀ name, s.scope = some name →
    isLocalName name = false ∧ ∃ x, s.lookup name = some x ∧ x.kind = .label

section

variable {s s' : State} {op : Operation}

theorem Consistent.cursorVaries (h : Consistent s) : s.CursorVaries := by
  intro x hx
  obtain ⟨y, _, hy, hkind, _⟩ := h.cursor
  cases hx.symm.trans hy
  exact hkind

/-- What holds of all symbols is kept. -/
theorem Change.forall_lookup {P : String → Symbol → Prop} (h : Change s op s')
    (hs : ∀ name x, s.lookup name = some x → P name x)
    (henter : ∀ x : Symbol, x.Sound →
      (x.kind = .label → x.placed = (s.load <|> s.current).map Section.name) → P x.name x)
    (hassign : ∀ name x v, x.kind = .set → P name x →
      P name { x with value := .number (Word.wrap v) })
    (hexport : ∀ name x, P name x → P name { x with exported := true }) :
    ∀ name x, s'.lookup name = some x → P name x := by
  cases h with
  | aside symbols scope pending =>
    unfold lookup
    rw [symbols]
    exact hs
  | @enter _ _ symbol free sound symbols scope pending placed =>
    unfold lookup
    rw [symbols]
    have hnew := henter _
      (sound.with_exported (symbol.exported || s.pendingExports.contains symbol.name)) placed
    exact forall_insert hs hnew
  | assign found kind only =>
    subst only
    exact forall_insert hs (hassign _ _ _ kind (hs _ _ found))
  | exportNow found only =>
    subst only
    exact forall_insert hs (hexport _ _ (hs _ _ found))
  | exportLater free only =>
    subst only
    exact hs
  | purge full done found builtIn kind kept only =>
    subst only
    exact forall_erase hs

theorem Change.keyed (h : Change s op s') (hs : ∀ name x, s.lookup name = some x → x.name = name) :
    ∀ name x, s'.lookup name = some x → x.name = name :=
  h.forall_lookup hs (fun _ _ _ => rfl) (fun _ _ _ _ hx => hx) (fun _ _ hx => hx)

theorem Change.sound (h : Change s op s') (hs : ∀ name x, s.lookup name = some x → x.Sound) :
    ∀ name x, s'.lookup name = some x → x.Sound :=
  h.forall_lookup hs (fun _ hx _ => hx) (fun _ _ v hset _ => .wrapped (.inr hset) v rfl)
    (fun _ _ hx => hx.with_exported true)

theorem Change.distinct (h : Change s op s') (hs : s.symbols.names.Nodup) :
    s'.symbols.names.Nodup := by
  cases h with
  | aside symbols scope pending =>
    rw [symbols]
    exact hs
  | enter free sound symbols scope pending placed =>
    rw [symbols]
    exact nodup_names_insert hs _ _
  | assign found kind only =>
    subst only
    exact nodup_names_insert hs _ _
  | exportNow found only =>
    subst only
    exact nodup_names_insert hs _ _
  | exportLater free only =>
    subst only
    exact hs
  | purge full done found builtIn kind kept only =>
    subst only
    exact nodup_names_erase hs _

theorem Change.cursor (h : Change s op s')
    (hs : ∃ x, s.lookup storageName = some x ∧ x.kind = .set) :
    ∃ x, s'.lookup storageName = some x ∧ x.kind = .set := by
  obtain ⟨x, hx, hkind⟩ := hs
  cases h.fate hx with
  | stays found kind _ _ _ => exact ⟨_, found, kind.trans hkind⟩
  | replaced _ ordinary _ _ => exact absurd rfl ordinary
  | purged _ ordinary _ _ => exact absurd rfl ordinary

theorem Change.label (h : Change s op s') {name : String} {x : Symbol}
    (hx : s.lookup name = some x) (hkind : x.kind = .label) :
    ∃ y, s'.lookup name = some y ∧ y.kind = .label ∧ y.value = x.value ∧ y.placed = x.placed := by
  cases h.fate hx with
  | stays found kind placed value _ =>
    exact ⟨_, found, kind.trans hkind, value (by simp [hkind]), placed⟩
  | replaced varies _ _ _ =>
    rw [hkind] at varies
    cases varies
  | purged _ _ kind _ => exact absurd hkind kind

theorem isSome_of_insert {key name : String} {x y : Symbol} (found : s.lookup key = some x)
    (h : ((s.symbols.insert key y).get? name).isSome = true) :
    (s.symbols.get? name).isSome = true := by
  rw [get?_insert] at h
  split at h
  · next heq =>
    rw [heq, show s.symbols.get? key = some x from found]
    rfl
  · exact h

/-- What is defined waits for no export. -/
theorem Change.pending (h : Change s op s')
    (hs : ∀ name, s.isDefined name → s.pendingExports.contains name = false) :
    ∀ name, s'.isDefined name → s'.pendingExports.contains name = false := by
  simp only [isDefined, contains_eq] at hs ⊢
  cases h with
  | aside symbols scope pending =>
    rw [symbols, pending]
    exact hs
  | @enter _ _ symbol free sound symbols scope pending placed =>
    rw [symbols, pending]
    intro name hname
    simp only [State.enter, get?_insert, get?_erase] at hname ⊢
    split
    · rfl
    · next hne =>
      rw [if_neg hne] at hname
      exact hs name hname
  | assign found kind only =>
    subst only
    intro name hname
    exact hs name (isSome_of_insert found hname)
  | exportNow found only =>
    subst only
    intro name hname
    exact hs name (isSome_of_insert found hname)
  | @exportLater _ _ asked location free only =>
    subst only
    intro name hname
    have hne : name ≠ asked := by
      rintro rfl
      rw [show s.symbols.get? name = none from free] at hname
      cases hname
    simp only [get?_insert, if_neg hne]
    exact hs name hname
  | @purge spelling removed _ x full done found builtIn kind kept only =>
    subst only
    intro name hname
    simp only [get?_erase] at hname
    split at hname
    · cases hname
    · exact hs name hname

theorem Change.scope (h : Change s op s')
    (hs : ∀ name, s.scope = some name →
      isLocalName name = false ∧ ∃ x, s.lookup name = some x ∧ x.kind = .label) :
    ∀ name, s'.scope = some name →
      isLocalName name = false ∧ ∃ x, s'.lookup name = some x ∧ x.kind = .label := by
  intro name hname
  -- a scope that was there before is a label, and labels stay
  have hold : s.scope = some name →
      isLocalName name = false ∧ ∃ x, s'.lookup name = some x ∧ x.kind = .label := by
    intro hname
    obtain ⟨hglobal, x, hx, hkind⟩ := hs name hname
    obtain ⟨y, hy, hlabel, _⟩ := h.label hx hkind
    exact ⟨hglobal, y, hy, hlabel⟩
  cases h with
  | aside symbols scope pending => exact hold (scope ▸ hname)
  | @enter _ _ symbol free sound symbols scope pending placed =>
    rcases scope with hsame | ⟨hnew, hkind, hglobal⟩
    · exact hold (hsame ▸ hname)
    · cases hname.symm.trans hnew
      refine ⟨hglobal, (s.enter symbol).1, ?_, hkind⟩
      rw [lookup, symbols]
      exact get?_insert_self ..
  | assign found kind only => exact hold (by rw [← hname, only])
  | exportNow found only => exact hold (by rw [← hname, only])
  | exportLater free only => exact hold (by rw [← hname, only])
  | purge full done found builtIn kind kept only => exact hold (by rw [← hname, only])

theorem consistent_fresh (exportAll : Bool) : Consistent (fresh exportAll) := by
  -- there is one symbol, the storage cursor
  have hone : ∀ name x, (fresh exportAll).lookup name = some x →
      name = storageName ∧ x = storageSymbol := by
    refine forall_insert ?_ ⟨rfl, rfl⟩
    intro name x hx
    cases hx
  constructor
  · exact ⟨storageSymbol, 0, rfl, rfl, rfl, by decide, by decide⟩
  · exact nodup_names_insert (t := .empty) List.nodup_nil _ _
  · intro name x hx
    obtain ⟨rfl, rfl⟩ := hone name x hx
    rfl
  · intro name x hx
    obtain ⟨-, rfl⟩ := hone name x hx
    exact .wrapped (.inr rfl) 0 rfl
  · intro name _
    rfl
  · intro name hname
    cases hname

theorem consistent_step (h : Change s op s') (hs : Consistent s) : Consistent s' := by
  have hsound := h.sound hs.sound
  obtain ⟨x, _, hx, hkind, _⟩ := hs.cursor
  obtain ⟨y, hy, hset⟩ := h.cursor ⟨x, hx, hkind⟩
  obtain ⟨n, hn, hrange⟩ := (hsound _ y hy).word (.inr hset)
  exact ⟨⟨y, n, hy, hset, hn, hrange⟩, h.distinct hs.distinct, h.keyed hs.keyed, hsound,
    h.pending hs.pending, h.scope hs.scope⟩

theorem consistent_after (hs : Consistent s) (op : Operation) : Consistent (s.after op) :=
  consistent_step (change_after hs.cursorVaries op) hs

theorem consistent_run (hs : Consistent s) (ops : List Operation) : Consistent (s.run ops) := by
  induction ops generalizing s with
  | nil => exact hs
  | cons op rest ih => exact ih (consistent_after hs op)

end

/-- In every state that a run of operations leads to, whether they succeed or fail: the storage
cursor is a variable with a number of 32 bits, symbols stand under their names and have values that
fit their kinds, no name is both defined and waiting to be exported, and the scope is a label
without a dot. -/
theorem symbols_consistent (exportAll : Bool) (ops : List Operation) :
    Consistent ((fresh exportAll).run ops) :=
  consistent_run (consistent_fresh exportAll) ops

end State

end Sm83
