import Sm83.Proofs.Causes
import Sm83.Proofs.State.Atomic
import Sm83.Proofs.State.Storage

/-!
# Local names and the label they belong to

A local spelling is completed with the global label it stands under. The label has no dot and the
spelling starts with one, so both can be read back off the full name, and a full name stands for
itself.
-/

namespace Sm83

/-- The spelling is that of a local name. -/
def isLocalSpelling (spelling : String) : Bool :=
  spelling.toList.head? = some '.'

/-- What stands before the first dot of a name. -/
def globalPart (name : String) : String :=
  String.ofList (name.toList.takeWhile (· != '.'))

/-- The first dot of a name and what stands behind it. -/
def localPart (name : String) : String :=
  String.ofList (name.toList.dropWhile (· != '.'))

section

variable {label spelling : String}

theorem ne_dot_of_global (h : isLocalName label = false) :
    ∀ c ∈ label.toList, (c != '.') = true := by
  intro c hc
  rw [bne_iff_ne]
  rintro rfl
  rw [isLocalName, List.contains_iff_mem.mpr hc] at h
  cases h

theorem exists_dot_of_local (h : isLocalSpelling spelling = true) :
    ∃ cs, spelling.toList = '.' :: cs := by
  have hhead : spelling.toList.head? = some '.' := by simpa [isLocalSpelling] using h
  exact List.head?_eq_some_iff.mp hhead

theorem globalPart_append (hlabel : isLocalName label = false)
    (hspelling : isLocalSpelling spelling = true) : globalPart (label ++ spelling) = label := by
  obtain ⟨cs, hcs⟩ := exists_dot_of_local hspelling
  rw [globalPart, String.toList_append, List.takeWhile_append_of_pos (ne_dot_of_global hlabel), hcs,
    List.takeWhile_cons_of_neg (by simp), List.append_nil, String.ofList_toList]

theorem localPart_append (hlabel : isLocalName label = false)
    (hspelling : isLocalSpelling spelling = true) : localPart (label ++ spelling) = spelling := by
  obtain ⟨cs, hcs⟩ := exists_dot_of_local hspelling
  rw [localPart, String.toList_append, List.dropWhile_append_of_pos (ne_dot_of_global hlabel), hcs,
    List.dropWhile_cons_of_neg (by simp), ← hcs, String.ofList_toList]

theorem label_eq_empty (hlabel : isLocalName label = false)
    (hspelling : isLocalSpelling spelling = true)
    (hfull : isLocalSpelling (label ++ spelling) = true) : label = "" := by
  obtain ⟨cs, hcs⟩ := exists_dot_of_local hfull
  rw [← globalPart_append hlabel hspelling, globalPart, hcs, List.takeWhile_cons_of_neg (by simp)]

theorem isLocalName_append (hspelling : isLocalSpelling spelling = true) :
    isLocalName (label ++ spelling) = true := by
  obtain ⟨cs, hcs⟩ := exists_dot_of_local hspelling
  simp [isLocalName, hcs]

end

namespace State

variable {s s' s'' t : State} {op : Operation} {spelling name : String}

theorem qualify_local (h : isLocalSpelling spelling = true) :
    s.qualify spelling = .ok name ↔ ∃ label, s.scope = some label ∧ name = label ++ spelling := by
  have hdot : spelling.toList.head? = some '.' := by simpa [isLocalSpelling] using h
  rw [qualify, if_pos hdot, resolveLocal]
  cases s.scope with
  | none => simp
  | some label => simp [eq_comm]

theorem qualify_global (h : isLocalSpelling spelling = false) :
    s.qualify spelling = .ok spelling := by
  have hdot : spelling.toList.head? ≠ some '.' := by simpa [isLocalSpelling] using h
  rw [qualify, if_neg hdot]

theorem qualify_idempotent (hs : s.Consistent) (h : s.qualify spelling = .ok name) :
    s.qualify name = .ok name := by
  cases hspelling : isLocalSpelling spelling with
  | false =>
    rw [qualify_global hspelling] at h
    cases h
    exact qualify_global hspelling
  | true =>
    obtain ⟨label, hscope, rfl⟩ := (qualify_local hspelling).mp h
    cases hfull : isLocalSpelling (label ++ spelling) with
    | false => exact qualify_global hfull
    | true =>
      have hlabel : label = "" := label_eq_empty (hs.scope label hscope).1 hspelling hfull
      refine (qualify_local hfull).mpr ⟨label, hscope, ?_⟩
      rw [hlabel, String.empty_append, String.empty_append]

theorem qualify_injective {other : String} (hs : s.Consistent) (ht : t.Consistent)
    (hspelling : isLocalSpelling spelling = true) (hother : isLocalSpelling other = true)
    (h : s.qualify spelling = .ok name) (h' : t.qualify other = .ok name) :
    s.scope = t.scope ∧ spelling = other := by
  obtain ⟨label, hscope, hname⟩ := (qualify_local hspelling).mp h
  obtain ⟨label', hscope', hname'⟩ := (qualify_local hother).mp h'
  have hlabel := (hs.scope label hscope).1
  have hlabel' := (ht.scope label' hscope').1
  have hglobal : label = label' := by
    rw [← globalPart_append hlabel hspelling, ← hname, hname', globalPart_append hlabel' hother]
  have hlocal : spelling = other := by
    rw [← localPart_append hlabel hspelling, ← hname, hname', localPart_append hlabel' hother]
  rw [hscope, hscope', hglobal]
  exact ⟨rfl, hlocal⟩

theorem Leads.consistent {exportAll : Bool} (h : (fresh exportAll).Leads s) : s.Consistent := by
  obtain ⟨ops, _, rfl⟩ := h
  exact consistent_run (consistent_fresh exportAll) ops

theorem isDefined_eq (s : State) (name : String) : s.isDefined name = (s.lookup name).isSome :=
  Table.contains_eq s.symbols name

theorem eq_storageName_of_fresh {exportAll : Bool} (h : (fresh exportAll).isDefined name = true) :
    name = storageName := by
  rw [isDefined_eq] at h
  change ((Table.empty.insert storageName storageSymbol).get? name).isSome = true at h
  rw [Table.get?_insert] at h
  split at h
  · assumption
  · cases h

theorem taken_of_redefinition {exported : Bool} {location : Option Location} {e : Error}
    (hs : s.Consistent) (h : s.defineLabel spelling exported location = .error e)
    (htaken : IsRedefinition e) : ∃ name, s.qualify spelling = .ok name ∧
      s.isDefined name = true := by
  have hperform : s.perform (.defineLabel spelling exported location) = .error e :=
    Outcome.map_eq_error_iff.mpr h
  obtain ⟨name, hfull, ⟨x, hx, _⟩ | ⟨rfl, _⟩⟩ := (redefinition_iff hs rfl).mp ⟨e, hperform, htaken⟩
  · refine ⟨name, hfull, ?_⟩
    rw [isDefined_eq, hx]
    rfl
  · obtain ⟨x, _, hx, _⟩ := hs.cursor
    refine ⟨storageName, hfull, ?_⟩
    rw [isDefined_eq, hx]
    rfl

/-- The only name that can have become defined is the one that the declared spelling stands for, and
the spelling still stands for it. -/
structure Adds (declared : Option String) (s s' : State) : Prop where
  defined : ∀ name, s'.isDefined name = true → s.isDefined name = true ∨
    ∃ spelling, declared = some spelling ∧ s.qualify spelling = .ok name
  same : ∀ spelling, declared = some spelling → s'.qualify spelling = s.qualify spelling

namespace Adds

variable {declared : Option String}

theorem refl (s : State) : Adds declared s s :=
  ⟨fun _ h => .inl h, fun _ _ => rfl⟩

theorem of_eq (h : s' = s) : Adds declared s s' := by
  rw [h]
  exact refl s

theorem trans (h : Adds declared s s') (h' : Adds declared s' s'') : Adds declared s s'' := by
  constructor
  · intro name hname
    rcases h'.defined name hname with hname | ⟨spelling, hdeclared, hfull⟩
    · exact h.defined name hname
    · rw [h.same spelling hdeclared] at hfull
      exact .inr ⟨spelling, hdeclared, hfull⟩
  · intro spelling hdeclared
    rw [h'.same spelling hdeclared, h.same spelling hdeclared]

end Adds

theorem lookup_add_of_ne {symbol x : Symbol} (h : s.add symbol = .ok (x, s'))
    (hne : name ≠ symbol.name) : s'.lookup name = s.lookup name := by
  rcases add_cases h with ⟨exported, _, rfl⟩ | ⟨_, old, _, _, rfl⟩
  · exact Table.get?_insert_ne _ _ hne
  · exact Table.get?_insert_ne _ _ hne

variable {answer : Answer}

theorem isDefined_of_defined (hop : op.defined? = some spelling)
    (h : s.perform op = .ok (answer, s')) (hname : s'.isDefined name = true) :
    s.isDefined name = true ∨ s.qualify spelling = .ok name := by
  obtain ⟨make, hdefines⟩ := exists_defines hop
  obtain ⟨full, x, u, hfull, hadd, hs', _⟩ := hdefines.result s answer s' h
  by_cases heq : name = full
  · rw [heq]
    exact .inr hfull
  · left
    have hu : u.lookup name = s.lookup name := lookup_add_of_ne hadd (by rwa [hdefines.named])
    rw [hs'] at hname
    rwa [isDefined_eq, ← hu, ← isDefined_eq]

theorem isDefined_resetStorage {value : Int} (h : (s.resetStorage value).isDefined name = true) :
    s.isDefined name = true := by
  unfold resetStorage at h
  split at h
  · next found =>
    rw [isDefined_eq] at h ⊢
    exact isSome_of_insert found h
  · exact h

theorem isDefined_exportName {location : Option Location}
    (h : s.exportName spelling location = .ok s') (hname : s'.isDefined name = true) :
    s.isDefined name = true := by
  obtain ⟨full, _, ⟨x, found, rfl⟩ | ⟨_, rfl | rfl⟩⟩ := exportName_cases h
  · rw [isDefined_eq] at hname ⊢
    exact isSome_of_insert found hname
  · exact hname
  · exact hname

theorem isDefined_purge (h : s.purge spelling = .ok s') (hname : s'.isDefined name = true) :
    s.isDefined name = true := by
  obtain ⟨full, x, _, _, _, _, _, rfl⟩ := purge_cases h
  rw [isDefined_eq, lookup, Table.get?_erase] at hname
  split at hname
  · cases hname
  · rwa [isDefined_eq]

theorem isDefined_of_symbols (hsymbols : s'.symbols = s.symbols)
    (hname : s'.isDefined name = true) : s.isDefined name = true := by
  unfold isDefined at hname ⊢
  rwa [hsymbols] at hname

theorem isDefined_of_undefined (hop : op.defined? = none) (h : s.perform op = .ok (answer, s'))
    (hname : s'.isDefined name = true) : s.isDefined name = true := by
  cases touches_of_perform h with
  | defines defined => cases hop.symm.trans defined
  | exports done => exact isDefined_exportName done hname
  | purges done => exact isDefined_purge done hname
  | advances bytes => exact isDefined_resetStorage hname
  | resets value => exact isDefined_resetStorage hname
  | nothing same => exact isDefined_of_symbols same.symbols hname

/-- The names that an operation can add. -/
theorem adds_of_perform {declared : Option String}
    (hop : ∀ spelling, op.defined? = some spelling → declared = some spelling)
    (h : s.perform op = .ok (answer, s')) : Adds declared s s' := by
  constructor
  · intro name hname
    cases hdefined : op.defined? with
    | none => exact .inl (isDefined_of_undefined hdefined h hname)
    | some spelling =>
      rcases isDefined_of_defined hdefined h hname with hold | hfull
      · exact .inl hold
      · exact .inr ⟨spelling, hop spelling hdefined, hfull⟩
  · intro spelling hdeclared
    rcases perform_scope h with hscope | ⟨other, exported, location, full, rfl, hfull, hglobal, _⟩
    · exact qualify_congr hscope spelling
    · -- a label that changes the scope is spelt in full, and so means the same in every scope
      cases (hop other rfl).symm.trans hdeclared
      rw [qualify_of_global hfull hglobal s', hfull]

end State

end Sm83
