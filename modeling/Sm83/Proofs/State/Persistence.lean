import Sm83.Proofs.State.Symbols

/-!
# What stays defined and exported

Definitions are not lost over a run. A label stays as it is, a constant or a text symbol stays until
it is purged, and a symbol that is exported stays exported, whatever takes its place. An export
asked for ahead of a definition is either still asked for or has been made.
-/

namespace Sm83

open Table

namespace State

section

variable {s s' : State} {op : Operation} {name : String} {x : Symbol}

theorem keeps_run {P : State → Prop} (hstep : ∀ s s' op, Change s op s' → P s → P s')
    (hs : Consistent s) (h : P s) (ops : List Operation) : P (s.run ops) := by
  induction ops generalizing s with
  | nil => exact h
  | cons op rest ih =>
    have hchange := change_after hs.cursorVaries op
    exact ih (consistent_step hchange hs) (hstep _ _ _ hchange h)

theorem label_run (hs : Consistent s) (hx : s.lookup name = some x) (hkind : x.kind = .label)
    (ops : List Operation) :
    ∃ y, (s.run ops).lookup name = some y ∧ y.kind = .label ∧ y.value = x.value ∧
      y.placed = x.placed := by
  refine keeps_run (P := fun t => ∃ y, t.lookup name = some y ∧ y.kind = .label ∧
    y.value = x.value ∧ y.placed = x.placed) ?_ hs ⟨x, hx, hkind, rfl, rfl⟩ ops
  rintro t t' op hchange ⟨y, hy, hlabel, hvalue, hplaced⟩
  obtain ⟨z, hz, hz'⟩ := hchange.label hy hlabel
  rw [hvalue, hplaced] at hz'
  exact ⟨z, hz, hz'⟩

/-- Somewhere in the run the symbol of a name is removed. -/
def PurgedDuring (s : State) (ops : List Operation) (name : String) : Prop :=
  ∃ before op after, ops = before ++ op :: after ∧ (s.run before).Purges op name

theorem PurgedDuring.cons {ops : List Operation} (h : (s.after op).PurgedDuring ops name) :
    s.PurgedDuring (op :: ops) name := by
  obtain ⟨before, purge, rest, rfl, hpurge⟩ := h
  exact ⟨op :: before, purge, rest, rfl, hpurge⟩

/-- A symbol that is no variable keeps its kind and value unless it is purged. -/
theorem settled_run (hs : Consistent s) (hx : s.lookup name = some x) (hkind : x.kind ≠ .set)
    (ops : List Operation) :
    (∃ y, (s.run ops).lookup name = some y ∧ y.kind = x.kind ∧ y.value = x.value) ∨
      s.PurgedDuring ops name := by
  induction ops generalizing s x with
  | nil => exact .inl ⟨x, hx, rfl, rfl⟩
  | cons op rest ih =>
    have hchange := change_after hs.cursorVaries op
    cases hchange.fate hx with
    | stays found kind placed value exported =>
      rcases ih (consistent_step hchange hs) found (by rwa [kind]) with ⟨z, hz, hkept⟩ | hpurged
      · rw [kind, value hkind] at hkept
        exact .inl ⟨z, hz, hkept⟩
      · exact .inr hpurged.cons
    | replaced varies ordinary found exported => exact absurd varies hkind
    | purged done ordinary kind exported => exact .inr ⟨[], op, rest, rfl, done⟩

/-- The name is defined and exported. -/
def Exported (s : State) (name : String) : Prop :=
  ∃ x, s.lookup name = some x ∧ x.exported = true

/-- The name is to be exported once it is defined, or it is defined and exported. -/
def Promised (s : State) (name : String) : Prop :=
  s.pendingExports.contains name = true ∨ s.Exported name

theorem Change.exported (h : Change s op s') (hs : s.Exported name) : s'.Exported name := by
  obtain ⟨x, hx, hexported⟩ := hs
  cases h.fate hx with
  | stays found _ _ _ exported => exact ⟨_, found, exported hexported⟩
  | replaced _ _ found exported => exact ⟨_, found, exported hexported⟩
  | purged _ _ _ exported =>
    rw [hexported] at exported
    cases exported

/-- A promise is kept by every operation. -/
theorem Change.promised (h : Change s op s') (hs : s.Promised name) : s'.Promised name := by
  rcases hs with hpending | hexported
  · cases h with
    | aside symbols scope pending =>
      left
      rw [pending]
      exact hpending
    | @enter _ _ symbol free sound symbols scope pending placed =>
      by_cases hname : name = symbol.name
      · -- the definition makes the export that was asked for
        subst hname
        right
        refine ⟨(s.enter symbol).1, ?_, ?_⟩
        · rw [lookup, symbols]
          exact get?_insert_self ..
        · simp [State.enter, hpending]
      · left
        rw [contains_eq, pending, get?_erase_ne _ hname, ← contains_eq]
        exact hpending
    | assign found kind only => exact .inl (by rw [only]; exact hpending)
    | exportNow found only => exact .inl (by rw [only]; exact hpending)
    | @exportLater _ _ asked location free only =>
      left
      rw [only, contains_eq, get?_insert]
      split
      · rfl
      · rw [← contains_eq]
        exact hpending
    | purge full done found builtIn kind kept only => exact .inl (by rw [only]; exact hpending)
  · exact .inr (h.exported hexported)

end

/-- The state in which a full name is exported, now or when it is defined. -/
def withExport (s : State) (name : String) (location : Option Location) : State :=
  match s.lookup name with
  | some x => { s with symbols := s.symbols.insert name { x with exported := true } }
  | none =>
    if s.pendingExports.contains name then s
    else { s with pendingExports := s.pendingExports.insert name location }

section

variable {s t : State} {name spelling : String} {location : Option Location} {symbol x : Symbol}

theorem exportName_eq (hname : s.qualify spelling = .ok name) :
    s.exportName spelling location = .ok (s.withExport name location) := by
  simp only [exportName, withExport, hname]
  cases s.lookup name with
  | some x => rfl
  | none =>
    by_cases hpending : s.pendingExports.contains name
    · simp only [hpending, if_true]
    · simp only [hpending, if_false, Bool.false_eq_true]

theorem withExport_promised (s : State) (name : String) (location : Option Location) :
    (s.withExport name location).Promised name := by
  unfold withExport
  split
  · next x hfound => exact .inr ⟨_, get?_insert_self .., rfl⟩
  · split
    · next hpending => exact .inl hpending
    · left
      rw [contains_eq, get?_insert_self]
      rfl

theorem withExport_only (s : State) (name : String) (location : Option Location) :
    s.withExport name location = { s with
      symbols := (s.withExport name location).symbols
      pendingExports := (s.withExport name location).pendingExports } := by
  unfold withExport
  split
  · rfl
  · split
    · rfl
    · rfl

theorem after_exportName (hname : s.qualify spelling = .ok name) :
    s.after (.exportName spelling location) = s.withExport name location := by
  have hperform : s.perform (.exportName spelling location) =
      .ok (.done, s.withExport name location) := by
    simp only [perform, exportName_eq hname]
    rfl
  simp only [after, hperform]

theorem withExport_of_found (h : s.lookup name = some x) :
    s.withExport name location =
      { s with symbols := s.symbols.insert name { x with exported := true } } := by
  simp only [withExport, h]

theorem add_of_free (h : s.lookup symbol.name = none) : s.add symbol = .ok (s.enter symbol) := by
  simp only [add, h]

theorem add_of_variable {old : Symbol} (h : s.lookup symbol.name = some old)
    (hold : old.kind = .set) (hkind : symbol.kind ≠ .set) (hname : symbol.name ≠ storageName) :
    s.add symbol = .ok (s.enter { symbol with exported := symbol.exported || old.exported }) := by
  simp only [add, h, hold, hkind, hname, ne_eq, not_false_eq_true, or_true, and_self, if_true,
    if_false]

theorem add_of_assigned {old : Symbol} (h : s.lookup symbol.name = some old)
    (hold : old.kind = .set) (hkind : symbol.kind = .set) :
    s.add symbol = .ok ({ old with value := symbol.value }, { s with
      symbols := s.symbols.insert symbol.name { old with value := symbol.value } }) := by
  simp only [add, h, hold, hkind, true_or, and_self, if_true]

/-- The state in which a symbol is entered and exported. -/
def enterExported (s : State) (symbol : Symbol) : State :=
  { s with
    symbols := s.symbols.insert symbol.name { symbol with exported := true }
    pendingExports := s.pendingExports.erase symbol.name }

theorem withExport_enter (s : State) (symbol : Symbol) (location : Option Location) :
    (s.enter symbol).2.withExport symbol.name location = s.enterExported symbol := by
  have hfound : (s.enter symbol).2.lookup symbol.name = some (s.enter symbol).1 :=
    get?_insert_self ..
  rw [withExport_of_found hfound]
  simp only [enter, enterExported, insert_insert]

theorem enter_withExport_of_free (location : Option Location)
    (h : s.lookup symbol.name = none) :
    ((s.withExport symbol.name location).enter symbol).2 = s.enterExported symbol := by
  simp only [withExport, h]
  split
  · next hpending => simp [enter, enterExported, hpending]
  · simp [enter, enterExported, contains_eq, erase_insert]

theorem enter_withExport_of_found (location : Option Location) (h : s.lookup symbol.name = some x) :
    ((s.withExport symbol.name location).enter
      { symbol with exported := symbol.exported || true }).2 = s.enterExported symbol := by
  rw [withExport_of_found h]
  simp [enter, enterExported, insert_insert]

/-- A symbol is added alike where its export waits. -/
theorem add_withExport (location : Option Location) (h : s.add symbol = .ok (x, t)) :
    ∃ y, (s.withExport symbol.name location).add symbol =
      .ok (y, t.withExport symbol.name location) := by
  cases hlookup : s.lookup symbol.name with
  | none =>
    have hafter : (s.withExport symbol.name location).lookup symbol.name = none := by
      simp only [withExport, hlookup]
      split
      · exact hlookup
      · exact hlookup
    rw [add_of_free hlookup] at h
    have ht : (s.enter symbol).2 = t := congrArg Prod.snd (Except.ok.inj h)
    rw [add_of_free hafter, ← ht, withExport_enter, ← enter_withExport_of_free location hlookup]
    exact ⟨_, rfl⟩
  | some old =>
    have hafter : (s.withExport symbol.name location).lookup symbol.name =
        some { old with exported := true } := by
      rw [withExport_of_found hlookup]
      exact get?_insert_self ..
    have hadmits := add_isOk_iff.mp ⟨_, h⟩
    simp only [admits, hlookup, Bool.and_eq_true, Bool.or_eq_true, decide_eq_true_eq] at hadmits
    obtain ⟨hold, hgives⟩ := hadmits
    by_cases hkind : symbol.kind = .set
    · -- another value leaves the variable exported
      rw [add_of_assigned hlookup hold hkind] at h
      cases h
      have hfound : State.lookup
          { s with symbols := s.symbols.insert symbol.name { old with value := symbol.value } }
          symbol.name = some { old with value := symbol.value } := get?_insert_self ..
      rw [add_of_assigned hafter hold hkind, withExport_of_found hlookup,
        withExport_of_found hfound]
      simp only [insert_insert]
      exact ⟨_, rfl⟩
    · have hname := hgives.resolve_left hkind
      rw [add_of_variable hlookup hold hkind hname] at h
      have ht := congrArg Prod.snd (Except.ok.inj h)
      have hboth := withExport_enter s { symbol with exported := symbol.exported || old.exported }
        location
      rw [ht] at hboth
      rw [add_of_variable hafter hold hkind hname, hboth]
      exact ⟨_, congrArg _ (Prod.ext rfl (enter_withExport_of_found location hlookup))⟩

theorem admits_withExport (s : State) (name : String) (location : Option Location) (other : String)
    (kind : SymbolKind) : (s.withExport name location).admits other kind = s.admits other kind := by
  cases hlookup : s.lookup name with
  | none =>
    simp only [withExport, hlookup]
    split
    · rfl
    · rfl
  | some x =>
    rw [withExport_of_found hlookup]
    by_cases hother : other = name
    · subst hother
      have hafter : ({ s with symbols := s.symbols.insert other { x with exported := true } } :
          State).lookup other = some { x with exported := true } := get?_insert_self ..
      simp only [admits, hafter, hlookup]
    · have hafter : ({ s with symbols := s.symbols.insert name { x with exported := true } } :
          State).lookup other = s.lookup other := get?_insert_ne _ _ hother
      simp only [admits, hafter]

/-- A definition adds the symbol that `make` gives under the full name of the spelling. -/
structure Defines (d : Operation) (spelling : String) (make : State → String → Symbol) : Prop where
  named : ∀ s name, (make s name).name = name
  /-- An export has no influence on the symbol. -/
  steady : ∀ s name location, make (s.withExport name location) = make s
  succeeds : ∀ (s : State) name r, s.qualify spelling = .ok name → s.add (make s name) = .ok r →
    ∃ r', s.perform d = .ok r'
  /-- The scope may change, but not so that the spelling means something else. -/
  result : ∀ (s : State) answer (t : State), s.perform d = .ok (answer, t) → ∃ name x u,
    s.qualify spelling = .ok name ∧ s.add (make s name) = .ok (x, u) ∧
      t = { u with scope := t.scope } ∧ t.qualify spelling = .ok name

theorem qualify_congr (h : s.scope = t.scope) (spelling : String) :
    s.qualify spelling = t.qualify spelling := by
  simp only [qualify, resolveLocal, h]

theorem scope_add (h : s.add symbol = .ok (x, t)) : t.scope = s.scope := by
  rcases add_cases h with ⟨exported, _, rfl⟩ | ⟨_, old, _, _, rfl⟩
  · rfl
  · rfl

theorem resolveLocal_error {cause : Cause}
    (h : s.resolveLocal spelling = .error cause) : cause = .noScope spelling := by
  unfold resolveLocal at h
  split at h
  · cases h
  · cases h
    rfl

theorem qualify_error {cause : Cause} (h : s.qualify spelling = .error cause) :
    cause = .noScope spelling := by
  unfold qualify at h
  split at h
  · exact resolveLocal_error h
  · cases h

theorem qualify_of_global (h : s.qualify spelling = .ok name) (hglobal : isLocalName name = false)
    (t : State) : t.qualify spelling = .ok name := by
  unfold qualify at h ⊢
  split at h
  · next hdot =>
    -- a spelling that starts with a dot puts it into the full name
    unfold resolveLocal at h
    split at h
    · next label hscope =>
      cases h
      have hmem : '.' ∈ spelling.toList := List.mem_of_mem_head? hdot
      simp [isLocalName, hmem] at hglobal
    · cases h
  · next hdot =>
    rw [if_neg hdot]
    exact h

variable {d : Operation}

theorem defines_of_define {make : String → Symbol} (hnamed : ∀ name, (make name).name = name)
    (hperform : ∀ s :
      State, s.perform d = (s.define spelling make).map fun r => (.symbol r.1, r.2)) :
    Defines d spelling fun _ => make := by
  refine ⟨fun _ => hnamed, fun _ _ _ => rfl, ?_, ?_⟩
  · intro s name r hname hadd
    exact ⟨_, (hperform s).trans (Outcome.map_eq_ok_iff.mpr
      ⟨r, define_eq_ok_iff.mpr ⟨name, hname, hadd⟩, rfl⟩)⟩
  · intro s answer t h
    obtain ⟨⟨x, u⟩, hdefine, heq⟩ := Outcome.map_eq_ok_iff.mp ((hperform s).symm.trans h)
    cases heq
    obtain ⟨name, hname, hadd⟩ := define_eq_ok_iff.mp hdefine
    refine ⟨name, x, u, hname, hadd, rfl, ?_⟩
    rw [qualify_congr (scope_add hadd)]
    exact hname

theorem labelHere_withExport (s : State) (name other : String) (location : Option Location)
    (exported : Bool) (place : Option Location) :
    (s.withExport name location).labelHere other exported place =
      s.labelHere other exported place := by
  rw [withExport_only]
  rfl

theorem defines_label (spelling : String) (exported : Bool) (place : Option Location) :
    Defines (.defineLabel spelling exported place) spelling
      fun s name => s.labelHere name exported place := by
  refine ⟨fun _ _ => rfl, ?_, ?_, ?_⟩
  · intro s name location
    funext other
    exact labelHere_withExport s name other location exported place
  · rintro s name ⟨x, u⟩ hname hadd
    exact ⟨_, Outcome.map_eq_ok_iff.mpr
      ⟨_, defineLabel_eq_ok_iff.mpr ⟨name, u, hname, hadd, rfl⟩, rfl⟩⟩
  · intro s answer t h
    obtain ⟨⟨x, t'⟩, hdefine, heq⟩ := Outcome.map_eq_ok_iff.mp h
    cases heq
    obtain ⟨name, u, hname, hadd, ht⟩ := defineLabel_eq_ok_iff.mp hdefine
    obtain ⟨hx, _⟩ := add_bound hadd (by simp [labelHere])
    have hxname : x.name = name := by
      rw [hx]
      rfl
    refine ⟨name, x, u, hname, hadd, ?_, ?_⟩
    · rw [ht]
      split
      · rfl
      · rfl
    · rw [ht, hxname]
      split
      · rw [qualify_congr (scope_add hadd)]
        exact hname
      · -- the label has become the scope, but its name is full and does not depend on it
        next hglobal => exact qualify_of_global hname (by simpa using hglobal) _

theorem exists_defines (hd : d.defined? = some spelling) : ∃ make, Defines d spelling make := by
  cases d with
  | defineLabel =>
    cases hd
    exact ⟨_, defines_label ..⟩
  | defineConstant | defineVariable | defineText =>
    cases hd
    exact ⟨_, defines_of_define (fun _ => rfl) (fun _ => rfl)⟩
  | _ => cases hd

theorem after_of_perform {op : Operation} {answer : Answer} (h : s.perform op = .ok (answer, t)) :
    s.after op = t := by
  simp only [after, h]

theorem withExport_scope (s : State) (name : String) (location : Option Location)
    (scope : Option String) : ({ s with scope := scope } : State).withExport name location =
      { s.withExport name location with scope := scope } := by
  simp only [withExport, lookup]
  split
  · rfl
  · split
    · rfl
    · rfl

theorem perform_withExport {make : State → String → Symbol} {answer : Answer}
    (hd : Defines d spelling make) (location : Option Location)
    (h : s.perform d = .ok (answer, t)) : ∃ name answer' t', s.qualify spelling = .ok name ∧
      t.qualify spelling = .ok name ∧ (s.withExport name location).perform d = .ok (answer', t') ∧
      t'.symbols = (t.withExport name location).symbols ∧
      t'.pendingExports = (t.withExport name location).pendingExports := by
  obtain ⟨name, x, u, hname, hadd, ht, hlater⟩ := hd.result s answer t h
  obtain ⟨y, hboth⟩ := add_withExport location hadd
  rw [hd.named, ← hd.steady s name location] at hboth
  have hsame : (s.withExport name location).qualify spelling = .ok name := by
    rw [qualify_congr (t := s) (by rw [withExport_only])]
    exact hname
  obtain ⟨⟨answer', t'⟩, hperform⟩ := hd.succeeds _ name _ hsame hboth
  refine ⟨name, answer', t', hname, hlater, hperform, ?_⟩
  -- the result of the definition is the one that adding gives
  obtain ⟨name', x', u', hname', hadd', ht', _⟩ := hd.result _ answer' t' hperform
  cases hsame.symm.trans hname'
  cases hboth.symm.trans hadd'
  have hscope := withExport_scope u name location t.scope
  rw [← ht] at hscope
  rw [hscope, ht']
  exact ⟨rfl, rfl⟩

theorem perform_of_withExport {make : State → String → Symbol} (hd : Defines d spelling make)
    (hname : s.qualify spelling = .ok name)
    (h : ∃ r, (s.withExport name location).perform d = .ok r) : ∃ r, s.perform d = .ok r := by
  obtain ⟨⟨answer, t⟩, hperform⟩ := h
  obtain ⟨name', x, u, hname', hadd, _⟩ := hd.result _ answer t hperform
  rw [qualify_congr (t := s) (by rw [withExport_only])] at hname'
  cases hname.symm.trans hname'
  have hadmits := add_isOk_iff.mp ⟨_, hadd⟩
  rw [hd.steady, admits_withExport] at hadmits
  obtain ⟨r, hr⟩ := add_isOk_iff.mpr hadmits
  exact hd.succeeds s name r hname hr

/-- An export before a definition and after it. -/
theorem export_define (hd : d.defined? = some spelling) (s : State) (location : Option Location) :
    ((∃ r, (s.after (.exportName spelling location)).perform d = .ok r) ↔
      ∃ r, s.perform d = .ok r) ∧
    ((∃ r, s.perform d = .ok r) →
      ((s.after (.exportName spelling location)).after d).symbols =
        ((s.after d).after (.exportName spelling location)).symbols ∧
      ((s.after (.exportName spelling location)).after d).pendingExports =
        ((s.after d).after (.exportName spelling location)).pendingExports) := by
  obtain ⟨make, hmake⟩ := exists_defines hd
  constructor
  · constructor
    · intro h
      cases hname : s.qualify spelling with
      | ok name =>
        rw [after_exportName hname] at h
        exact perform_of_withExport hmake hname h
      | error cause =>
        -- the export fails as well and leaves the state as it was
        have hsame : s.after (.exportName spelling location) = s := by
          simp only [after, perform, exportName, hname]
          rfl
        rwa [hsame] at h
    · rintro ⟨⟨answer, t⟩, h⟩
      obtain ⟨name, answer', t', hname, _, hperform, _⟩ := perform_withExport hmake location h
      rw [after_exportName hname]
      exact ⟨_, hperform⟩
  · rintro ⟨⟨answer, t⟩, h⟩
    obtain ⟨name, answer', t', hname, hlater, hperform, hsymbols, hpending⟩ :=
      perform_withExport hmake location h
    rw [after_exportName hname, after_of_perform hperform, after_of_perform h,
      after_exportName hlater]
    exact ⟨hsymbols, hpending⟩

end

/-- However a run goes on, a label stays a label with its value and its section, a constant or a
text symbol keeps its kind and value unless it is purged, and what is exported stays so. An export
before a definition and after it come to the same. -/
theorem definitions_and_exports_kept (exportAll : Bool) (before ops : List Operation)
    (name : String) :
    let s := (fresh exportAll).run before
    (∀ x, s.lookup name = some x → x.kind = .label →
      ∃ y, (s.run ops).lookup name = some y ∧ y.kind = .label ∧ y.value = x.value ∧
        y.placed = x.placed) ∧
    (∀ x, s.lookup name = some x → x.kind = .equ ∨ x.kind = .equs →
      (∃ y, (s.run ops).lookup name = some y ∧ y.kind = x.kind ∧ y.value = x.value) ∨
        s.PurgedDuring ops name) ∧
    (s.Exported name → (s.run ops).Exported name) ∧
    (∀ spelling location, s.qualify spelling = .ok name →
      ((s.after (.exportName spelling location)).run ops).Promised name) ∧
    (∀ d spelling location, d.defined? = some spelling →
      ((∃ r, (s.after (.exportName spelling location)).perform d = .ok r) ↔
        ∃ r, s.perform d = .ok r) ∧
      ((∃ r, s.perform d = .ok r) →
        ((s.after (.exportName spelling location)).after d).symbols =
          ((s.after d).after (.exportName spelling location)).symbols ∧
        ((s.after (.exportName spelling location)).after d).pendingExports =
          ((s.after d).after (.exportName spelling location)).pendingExports)) := by
  intro s
  have hs : Consistent s := consistent_run (consistent_fresh exportAll) before
  refine ⟨?_, ?_, ?_, ?_, ?_⟩
  · intro x hx hkind
    exact label_run hs hx hkind ops
  · intro x hx hkind
    refine settled_run hs hx ?_ ops
    rcases hkind with hkind | hkind
    · simp [hkind]
    · simp [hkind]
  · intro hexported
    exact keeps_run (fun _ _ _ hchange => hchange.exported) hs hexported ops
  · intro spelling location hname
    have hafter := consistent_after hs (.exportName spelling location)
    have hpromised := withExport_promised s name location
    rw [← after_exportName hname] at hpromised
    exact keeps_run (fun _ _ _ hchange => hchange.promised) hafter hpromised ops
  · intro d spelling location hd
    exact export_define hd s location

/-- An exported variable that a label takes the place of stays exported, and cannot be purged. -/
theorem definitions_and_exports_kept_replaced :
    let before : List Operation := [.defineVariable "n" 3 none, .exportName "n" none]
    let ops : List Operation := [.purge "n", .defineLabel "n" false none, .purge "n"]
    ((fresh false).run before).Exported "n" ∧
      (((fresh false).run before).run ops).Exported "n" := by
  have hexported : ((fresh false).run [.defineVariable "n" 3 none, .exportName "n" none]).Exported
      "n" := ⟨⟨"n", .set, .number 3, true, none, none⟩, by decide, rfl⟩
  exact ⟨hexported, (definitions_and_exports_kept false _ _ "n").2.2.1 hexported⟩

end State

end Sm83
