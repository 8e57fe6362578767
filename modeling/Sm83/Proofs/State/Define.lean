import Sm83.Proofs.Outcome
import Sm83.State.Operation

/-!
# Definitions

When a state takes a new symbol, and what it then finds under the symbol's name.
-/

namespace Sm83

namespace State

section

variable {s s' : State} {symbol x : Symbol}

/-- A name under which a symbol of some kind can be added: it is free, or it is a variable, which
the storage cursor has to stay. -/
def admits (s : State) (name : String) (kind : SymbolKind) : Bool :=
  match s.lookup name with
  | none => true
  | some old => old.kind = .set && (kind = .set || name ≠ storageName)

/-- When a symbol can be added. -/
theorem add_isOk_iff : (∃ r, s.add symbol = .ok r) ↔ s.admits symbol.name symbol.kind := by
  unfold add admits
  cases hlookup : s.lookup symbol.name with
  | none => simp
  | some old =>
    by_cases hgives : old.kind = .set ∧ (symbol.kind = .set ∨ symbol.name ≠ storageName)
    · by_cases hset : symbol.kind = .set
      · simp [hgives, hset]
      · simp [hset] at hgives
        simp [hgives, hset]
    · simp only [if_neg hgives]
      simpa using hgives

theorem add_bound (h : s.add symbol = .ok (x, s')) (hset : symbol.kind ≠ .set) :
    x = { symbol with exported := x.exported } ∧ s'.lookup symbol.name = some x := by
  unfold add at h
  split at h
  · cases h
    exact ⟨rfl, Table.get?_insert_self _ _ _⟩
  · split at h
    · cases h
      exact ⟨rfl, Table.get?_insert_self _ _ _⟩
    · cases h

end

/-- The label that a state binds to its current place, in the open load block or else in the current
section. -/
def labelHere (s : State) (name : String) (exported : Bool) (location : Option Location) : Symbol :=
  ⟨name, .label, .number (if s.load.isSome then s.loadPc else s.pc), exported || s.exportAll,
    (s.load <|> s.current).map Section.name, location⟩

section

variable {s s' : State} {spelling : String} {exported : Bool} {location : Option Location}

theorem defineLabel_eq_map :
    s.defineLabel spelling exported location =
      (s.define spelling fun name => s.labelHere name exported location).map fun r =>
        (r.1, if isLocalName r.1.name then r.2 else { r.2 with scope := some r.1.name }) := by
  simp only [defineLabel, labelHere]
  generalize s.define spelling _ = outcome
  rcases outcome with e | ⟨symbol, t⟩
  · rfl
  · rfl

variable {symbol : Symbol}

theorem defineLabel_eq_ok_iff :
    s.defineLabel spelling exported location = .ok (symbol, s') ↔
      ∃ name t, s.qualify spelling = .ok name ∧
        s.add (s.labelHere name exported location) = .ok (symbol, t) ∧
        s' = if isLocalName symbol.name then t else { t with scope := some symbol.name } := by
  rw [defineLabel_eq_map, Outcome.map_eq_ok_iff]
  constructor
  · rintro ⟨⟨y, t⟩, hdefine, heq⟩
    cases heq
    unfold define at hdefine
    split at hdefine
    · next name hname => exact ⟨name, t, hname, hdefine, rfl⟩
    · cases hdefine
  · rintro ⟨name, t, hname, hadd, rfl⟩
    refine ⟨(symbol, t), ?_, rfl⟩
    unfold define
    rw [hname]
    exact hadd

/-- When a label can be defined. -/
theorem defineLabel_isOk_iff :
    (∃ r, s.defineLabel spelling exported location = .ok r) ↔
      ∃ name, s.qualify spelling = .ok name ∧ s.admits name .label := by
  constructor
  · rintro ⟨⟨symbol, s'⟩, h⟩
    obtain ⟨name, t, hname, hadd, _⟩ := defineLabel_eq_ok_iff.mp h
    exact ⟨name, hname, add_isOk_iff.mp ⟨_, hadd⟩⟩
  · rintro ⟨name, hname, hadmits⟩
    have hkind : s.admits (s.labelHere name exported location).name .label := hadmits
    obtain ⟨⟨symbol, t⟩, hadd⟩ := add_isOk_iff.mpr hkind
    exact ⟨_, defineLabel_eq_ok_iff.mpr ⟨name, t, hname, hadd, rfl⟩⟩

theorem defineLabel_bound (h : s.defineLabel spelling exported location = .ok (symbol, s')) :
    ∃ name, s.qualify spelling = .ok name ∧
      symbol = { s.labelHere name exported location with exported := symbol.exported } ∧
      s'.lookup name = some symbol := by
  obtain ⟨name, t, hname, hadd, hs'⟩ := defineLabel_eq_ok_iff.mp h
  obtain ⟨hsymbol, hlookup⟩ := add_bound hadd (by simp [labelHere])
  refine ⟨name, hname, hsymbol, ?_⟩
  rw [hs']
  split
  · exact hlookup
  · exact hlookup

theorem defineConstant_bound {value : Int}
    (h : s.defineConstant spelling value exported location = .ok (symbol, s')) :
    ∃ name, s.qualify spelling = .ok name ∧
      symbol = ⟨name, .equ, .number (Word.wrap value), symbol.exported, none, location⟩ ∧
      s'.lookup name = some symbol := by
  unfold defineConstant define at h
  split at h
  · next name hname =>
    obtain ⟨hsymbol, hlookup⟩ := add_bound h (by simp)
    exact ⟨name, hname, hsymbol, hlookup⟩
  · cases h

end

end State

end Sm83
