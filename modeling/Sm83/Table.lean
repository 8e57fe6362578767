/-!
# Tables

A table maps names to values and keeps the names in the order in which they were first entered.
-/

namespace Sm83

/-- Values by name, in order of entry. -/
structure Table (α : Type) where
  entries : List (String × α)
  deriving DecidableEq, Repr

namespace Table

variable {α : Type}

/-- No entries. -/
def empty : Table α := ⟨[]⟩

def get? (t : Table α) (name : String) : Option α :=
  (t.entries.find? fun e => e.1 == name).map Prod.snd

def contains (t : Table α) (name : String) : Bool :=
  t.entries.any fun e => e.1 == name

/-- Gives a name a value, in its old place if it has one. -/
def insert (t : Table α) (name : String) (value : α) : Table α :=
  if t.contains name then ⟨t.entries.map fun e => if e.1 == name then (name, value) else e⟩
  else ⟨t.entries ++ [(name, value)]⟩

/-- Takes a name out. -/
def erase (t : Table α) (name : String) : Table α :=
  ⟨t.entries.filter fun e => e.1 != name⟩

/-- The names in order of entry. -/
def names (t : Table α) : List String :=
  t.entries.map Prod.fst

/-- The values in order of entry. -/
def values (t : Table α) : List α :=
  t.entries.map Prod.snd

/-- The number of names. -/
def size (t : Table α) : Nat :=
  t.entries.length

/-! ## Looking up after a change -/

@[simp] theorem get?_empty (name : String) : (empty : Table α).get? name = none := rfl

theorem contains_eq (t : Table α) (name : String) : t.contains name = (t.get? name).isSome := by
  rw [Bool.eq_iff_iff]
  simp [contains, get?, List.any_eq_true, List.find?_isSome]

theorem get?_eq_none_iff {t : Table α} {name : String} : t.get? name = none ↔ name ∉ t.names := by
  simp only [get?, names, Option.map_eq_none_iff, List.find?_eq_none, List.mem_map, not_exists,
    not_and, beq_iff_eq]

/-- The value just given to a name is found under it. -/
@[simp] theorem get?_insert_self (t : Table α) (name : String) (value : α) :
    (t.insert name value).get? name = some value := by
  cases t with
  | mk entries =>
    by_cases h : (Table.mk entries).contains name
    · simp only [insert, h, ↓reduceIte, get?]
      induction entries with
      | nil => simp [contains] at h
      | cons e rest ih =>
        by_cases he : e.1 = name
        · simp [he]
        · have hrest : (Table.mk rest).contains name := by
            simpa [contains, he] using h
          simpa [he] using ih hrest
    · have hnone : (entries.find? fun e => e.1 == name) = none := by
        rw [contains_eq] at h
        simpa only [get?, Bool.not_eq_true, Option.isSome_eq_false_iff, Option.isNone_iff_eq_none,
          Option.map_eq_none_iff] using h
      simp [insert, h, get?, List.find?_append, hnone]

/-- A value given to one name leaves the others alone. -/
theorem get?_insert_ne (t : Table α) {name other : String} (value : α) (h : other ≠ name) :
    (t.insert name value).get? other = t.get? other := by
  cases t with
  | mk entries =>
    by_cases hc : (Table.mk entries).contains name
    · simp only [insert, hc, ↓reduceIte, get?]
      clear hc
      induction entries with
      | nil => rfl
      | cons e rest ih =>
        by_cases he : e.1 = name
        · simpa [he, Ne.symm h] using ih
        · by_cases ho : e.1 = other
          · simp [ho, h]
          · simpa [he, ho] using ih
    · simp [insert, hc, get?, List.find?_append, Ne.symm h]

@[simp] theorem get?_erase_self (t : Table α) (name : String) :
    (t.erase name).get? name = none := by
  simp [erase, get?]

theorem get?_erase_ne (t : Table α) {name other : String} (h : other ≠ name) :
    (t.erase name).get? other = t.get? other := by
  cases t with
  | mk entries =>
    simp only [erase, get?]
    induction entries with
    | nil => rfl
    | cons e rest ih =>
      by_cases he : e.1 = name
      · simpa [he, Ne.symm h] using ih
      · by_cases ho : e.1 = other
        · simp [ho, h]
        · simpa [he, ho] using ih

theorem get?_insert (t : Table α) (name other : String) (value : α) :
    (t.insert name value).get? other = if other = name then some value else t.get? other := by
  split
  · next h => rw [h, get?_insert_self]
  · next h => exact get?_insert_ne t value h

theorem get?_erase (t : Table α) (name other : String) :
    (t.erase name).get? other = if other = name then none else t.get? other := by
  split
  · next h => rw [h, get?_erase_self]
  · next h => exact get?_erase_ne t h

/-- What holds of all values and of a new one holds of all values after it is entered. -/
theorem forall_insert {P : String → α → Prop} {t : Table α} {name : String} {value : α}
    (h : ∀ other v, t.get? other = some v → P other v) (hnew : P name value) :
    ∀ other v, (t.insert name value).get? other = some v → P other v := by
  intro other v hv
  rw [get?_insert] at hv
  split at hv
  · next heq =>
    cases hv
    exact heq ▸ hnew
  · exact h other v hv

theorem forall_erase {P : String → α → Prop} {t : Table α} {name : String}
    (h : ∀ other v, t.get? other = some v → P other v) :
    ∀ other v, (t.erase name).get? other = some v → P other v := by
  intro other v hv
  rw [get?_erase] at hv
  split at hv
  · cases hv
  · exact h other v hv

/-! ## Changes in a row -/

theorem not_contains_iff {t : Table α} {name : String} :
    t.contains name = false ↔ ∀ e ∈ t.entries, e.1 ≠ name := by
  simp [contains]

/-- Of two values given to a name the second counts. -/
theorem insert_insert (t : Table α) (name : String) (first second : α) :
    (t.insert name first).insert name second = t.insert name second := by
  have hfound : (t.insert name first).contains name = true := by
    rw [contains_eq, get?_insert_self]
    rfl
  cases hc : t.contains name with
  | true =>
    rw [insert, if_pos hfound]
    simp only [insert, hc, if_true, List.map_map]
    congr 1
    apply List.map_congr_left
    intro e _
    by_cases he : e.1 = name
    · simp [he]
    · simp [he]
  | false =>
    have hothers := not_contains_iff.mp hc
    rw [insert, if_pos hfound]
    simp only [insert, hc, Bool.false_eq_true, if_false, List.map_append, List.map_cons,
      List.map_nil, BEq.rfl, if_true]
    congr 2
    -- no entry of the old table has the name, so all of them stay
    refine (List.map_congr_left ?_).trans (List.map_id _)
    intro e he
    simp [hothers e he]

/-- A value for a name that is there already can be given before or after one for another name. -/
theorem insert_comm {t : Table α} {name other : String} (hne : name ≠ other)
    (hc : t.contains other = true) (value value' : α) :
    (t.insert name value).insert other value' = (t.insert other value').insert name value := by
  have hkept : (t.insert name value).contains other = true := by
    rw [contains_eq, get?_insert_ne t value (Ne.symm hne), ← contains_eq, hc]
  have hsame : (t.insert other value').contains name = t.contains name := by
    rw [contains_eq, get?_insert_ne t value' hne, ← contains_eq]
  rw [insert, if_pos hkept, insert, insert, hsame]
  split
  · simp only [insert, hc, if_true, List.map_map]
    congr 1
    apply List.map_congr_left
    intro e _
    by_cases he : e.1 = name
    · simp [he, hne]
    · by_cases ho : e.1 = other
      · simp [ho, Ne.symm hne]
      · simp [he, ho]
  · simp [insert, hc, hne]

/-- A name that is taken out leaves nothing of the value it was given before. -/
theorem erase_insert (t : Table α) (name : String) (value : α) :
    (t.insert name value).erase name = t.erase name := by
  unfold insert erase
  split
  · congr 1
    induction t.entries with
    | nil => rfl
    | cons e rest ih =>
      by_cases he : e.1 = name
      · simpa [he] using ih
      · simpa [he] using ih
  · simp

/-- A name that is not there need not be taken out. -/
theorem erase_of_not_contains {t : Table α} {name : String} (h : t.contains name = false) :
    t.erase name = t := by
  have hothers := not_contains_iff.mp h
  unfold erase
  congr 1
  refine List.filter_eq_self.mpr ?_
  intro e he
  simpa using hothers e he

/-! ## One entry for each name -/

theorem nodup_names_insert {t : Table α} (h : t.names.Nodup) (name : String) (value : α) :
    (t.insert name value).names.Nodup := by
  cases hc : t.contains name with
  | true =>
    -- the names stay as they are
    have hnames : (t.insert name value).names = t.names := by
      simp only [insert, hc, if_true, names, List.map_map]
      apply List.map_congr_left
      intro e _
      by_cases he : e.1 = name
      · simp [he]
      · simp [he]
    rw [hnames]
    exact h
  | false =>
    have hnew : name ∉ t.names := by
      rw [← get?_eq_none_iff, ← Option.isNone_iff_eq_none, ← Option.not_isSome, ← contains_eq, hc]
      rfl
    have hnames : (t.insert name value).names = t.names ++ [name] := by
      simp [insert, hc, names]
    rw [hnames, List.nodup_append]
    refine ⟨h, by simp, ?_⟩
    intro a ha b hb hab
    rw [List.mem_singleton] at hb
    exact hnew (hb ▸ hab ▸ ha)

/-- An entry is found under its name. -/
theorem get?_of_mem {t : Table α} (h : t.names.Nodup) {name : String} {value : α}
    (hmem : (name, value) ∈ t.entries) : t.get? name = some value := by
  cases t with
  | mk entries =>
    induction entries with
    | nil => cases hmem
    | cons e rest ih =>
      have hnames : e.1 ∉ (Table.mk rest).names ∧ (Table.mk rest).names.Nodup :=
        List.nodup_cons.mp h
      rcases List.mem_cons.mp hmem with rfl | hrest
      · simp [get?]
      · have hne : e.1 ≠ name := by
          rintro rfl
          exact hnames.1 (List.mem_map.mpr ⟨_, hrest, rfl⟩)
        have hfound := ih hnames.2 hrest
        simpa [get?, hne] using hfound

/-- A value that a name has already changes nothing. -/
theorem insert_of_get?_eq_some {t : Table α} (h : t.names.Nodup) {name : String} {value : α}
    (hget : t.get? name = some value) : t.insert name value = t := by
  have hfound : t.contains name = true := by
    rw [contains_eq, hget]
    rfl
  have hentries : (t.entries.map fun e => if e.1 == name then (name, value) else e) =
      t.entries := by
    refine (List.map_congr_left ?_).trans (List.map_id _)
    rintro ⟨key, v⟩ he
    by_cases hkey : key = name
    · -- the only entry of the name has this value
      subst hkey
      cases (get?_of_mem h he).symm.trans hget
      simp
    · simp [hkey]
  rw [insert, if_pos hfound, hentries]

theorem nodup_names_erase {t : Table α} (h : t.names.Nodup) (name : String) :
    (t.erase name).names.Nodup :=
  h.sublist ((List.filter_sublist).map Prod.fst)

end Table

end Sm83
