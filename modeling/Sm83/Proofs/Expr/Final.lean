import Sm83.Proofs.Expr.Calls

/-!
# Known values are final

An expression that has a value keeps it when more becomes known. The exceptions are the two
functions that ask whether something is known, so the expressions here are `steady`; they are also
`legal`, because a call that lacks an argument hides even what a logical operator has settled.
-/

namespace Sm83

open Outcome

/-- Every value that one resolver knows, the other knows too. Nothing is asked of which names are
defined. -/
def Resolver.ExtendedBy (r r' : Resolver) : Prop :=
  ∀ name v, r.value name = some v → r'.value name = some v

namespace Expr

/-- What is known of an expression under one resolver is known, and the same, under another. -/
structure Kept (r r' : Resolver) (e : Expr) : Prop where
  number : ∀ v, e.value r = .ok v → e.value r' = .ok v
  text : ∀ t, e.textValue r = .ok t → e.textValue r' = .ok t

section

variable {r r' : Resolver} {args : List Expr}

theorem texts_kept (hargs : ∀ e ∈ args, Kept r r' e) {ts : List String}
    (h : texts r args = .ok ts) : texts r' args = .ok ts := by
  induction args generalizing ts with
  | nil => exact h
  | cons e rest ih =>
    have he : Kept r r' e := hargs e List.mem_cons_self
    have hrest : ∀ e ∈ rest, Kept r r' e := fun e he => hargs e (List.mem_cons_of_mem _ he)
    unfold texts at h ⊢
    split at h
    · cases h
    · next t ht =>
      rw [he.text t ht]
      split at h
      · cases h
      · next us hus =>
        cases h
        rw [ih hrest hus]

theorem gather_values_kept (hargs : ∀ e ∈ args, Kept r r' e) {vs : List Int}
    (h : gather (values r args) = .ok vs) : gather (values r' args) = .ok vs := by
  rw [gather_eq_ok_iff, values_eq_map] at h ⊢
  rw [← h]
  apply List.map_congr_left
  intro e he
  -- each result is a value, and that value is kept
  have hmem : value r e ∈ vs.map Except.ok := h ▸ List.mem_map_of_mem he
  obtain ⟨v, _, hv⟩ := List.mem_map.mp hmem
  rw [← hv]
  exact (hargs e he).number v hv.symm

theorem value_call_kept {f : Function} (hf : f.inspects = false)
    (hargs : ∀ e ∈ args, Kept r r' e) {v : Int} (h : value r (call f args) = .ok v) :
    value r' (call f args) = .ok v := by
  rcases f.family_cases with rfl | hfamily | hfamily | hfamily | hfamily
  · -- a bank is never known here
    obtain ⟨names, hbank⟩ := value_bank r args
    rw [hbank] at h
    cases h
  · rw [hf] at hfamily
    cases hfamily
  · rw [value_call_readsTexts _ _ hfamily, bind_eq_ok_iff] at h ⊢
    obtain ⟨ts, hts, happly⟩ := h
    exact ⟨ts, texts_kept hargs hts, happly⟩
  · rw [value_call_yieldsText _ _ hfamily] at h
    cases h
  · rw [value_call_isNumeric _ _ hfamily, bind_eq_ok_iff] at h ⊢
    obtain ⟨vs, hvs, happly⟩ := h
    exact ⟨vs, gather_values_kept hargs hvs, happly⟩

theorem textValue_call_kept {f : Function} (hargs : ∀ e ∈ args, Kept r r' e) {t : String}
    (h : textValue r (call f args) = .ok t) : textValue r' (call f args) = .ok t := by
  cases f with
  | strupr | strlwr =>
    cases args with
    | nil => simp [textValue] at h
    | cons e rest =>
      simp only [textValue, map_eq_ok_iff] at h ⊢
      obtain ⟨u, hu, hcase⟩ := h
      exact ⟨u, (hargs e List.mem_cons_self).text u hu, hcase⟩
  | strcat =>
    simp only [textValue, map_eq_ok_iff] at h ⊢
    obtain ⟨ts, hts, hjoin⟩ := h
    exact ⟨ts, texts_kept hargs hts, hjoin⟩
  | strsub =>
    cases args with
    | nil => simp [textValue] at h
    | cons e bounds =>
      have hbounds : ∀ b ∈ bounds, Kept r r' b := fun b hb => hargs b (List.mem_cons_of_mem _ hb)
      simp only [textValue_strsub, bind_eq_ok_iff] at h ⊢
      obtain ⟨u, hu, vs, hvs, hcut⟩ := h
      exact ⟨u, (hargs e List.mem_cons_self).text u hu, vs, gather_values_kept hbounds hvs, hcut⟩
  | _ => simp [textValue] at h

end

theorem symbol_kept {r r' : Resolver} (h : r.ExtendedBy r') (name : String) :
    Kept r r' (symbol name) := by
  cases hname : r.value name with
  | none =>
    constructor
    · intro v hv
      simp [value, hname] at hv
    · intro t ht
      simp [textValue, hname] at ht
  | some w =>
    have hname' := h name w hname
    constructor
    · intro v hv
      simpa [value, hname, hname'] using hv
    · intro t ht
      simpa [textValue, hname, hname'] using ht

theorem combineBinary_kept {op : BinaryOp} {x x' y y' : Except Obstacle Int} {v : Int}
    (hx : ∀ a, x = .ok a → x' = .ok a) (hy : ∀ b, y = .ok b → y' = .ok b)
    (hy' : ∀ f, y' ≠ .error (.incomplete f)) (h : combineBinary op x y = .ok v) :
    combineBinary op x' y' = .ok v := by
  rw [combineBinary_eq_ok_iff] at h ⊢
  obtain ⟨a, hxa, ⟨hsettled, _⟩ | ⟨hopen, b, hyb, happly⟩⟩ := h
  · exact ⟨a, hx a hxa, Or.inl ⟨hsettled, hy'⟩⟩
  · exact ⟨a, hx a hxa, Or.inr ⟨hopen, b, hy b hyb, happly⟩⟩

/-- What is known of a steady expression stays known. -/
theorem kept_of_extendedBy {r r' : Resolver} (h : r.ExtendedBy r') {e : Expr} (hlegal : e.legal)
    (hsteady : e.steady) : Kept r r' e := by
  induction e with
  | literal n => exact ⟨fun _ hv => hv, fun _ ht => ht⟩
  | text s => exact ⟨fun _ hv => hv, fun _ ht => ht⟩
  | symbol name => exact symbol_kept h name
  | unary op e ih =>
    have he := ih (everyCall_unary.mp hlegal) (everyCall_unary.mp hsteady)
    constructor
    · intro v hv
      rw [value, map_eq_ok_iff] at hv ⊢
      obtain ⟨a, ha, happly⟩ := hv
      exact ⟨a, he.number a ha, happly⟩
    · intro t ht
      simp [textValue] at ht
  | binary op a b iha ihb =>
    obtain ⟨hla, hlb⟩ := everyCall_binary.mp hlegal
    obtain ⟨hsa, hsb⟩ := everyCall_binary.mp hsteady
    constructor
    · intro v hv
      rw [value] at hv ⊢
      have hcomplete : ∀ f, value r' b ≠ .error (.incomplete f) :=
        fun f => (not_incomplete_of_legal hlb r' f).1
      exact combineBinary_kept (iha hla hsa).number (ihb hlb hsb).number hcomplete hv
    · intro t ht
      simp [textValue] at ht
  | call f args ih =>
    obtain ⟨_, hlargs⟩ := everyCall_call.mp hlegal
    obtain ⟨hf, hsargs⟩ := everyCall_call.mp hsteady
    have hargs : ∀ e ∈ args, Kept r r' e := fun e he => ih e he (hlargs e he) (hsargs e he)
    constructor
    · intro v hv
      exact value_call_kept (by simpa using hf) hargs hv
    · intro t ht
      exact textValue_call_kept hargs ht

/-- Known results are final: whoever knows more finds the same number, and the same text. -/
theorem known_results_final (r r' : Resolver) (h : r.ExtendedBy r') (e : Expr) (hlegal : e.legal)
    (hsteady : e.steady) :
    (∀ v, e.value r = .ok v → e.value r' = .ok v) ∧
      (∀ t, e.textValue r = .ok t → e.textValue r' = .ok t) := by
  have hkept := kept_of_extendedBy h hlegal hsteady
  exact ⟨hkept.number, hkept.text⟩

/-- A name that turns out to be a text makes the right operand invalid, and the conjunction that its
left operand has settled keeps its value. -/
theorem known_results_final_settled :
    let r := Resolver.ofValues fun name => if name = "off" then some (.number 0) else none
    let r' := Resolver.ofValues fun name =>
      if name = "off" then some (.number 0) else if name = "later" then some (.text "x") else none
    let e := binary .logicalAnd (symbol "off") (call .high [symbol "later"])
    r.ExtendedBy r' ∧ e.legal ∧ e.steady ∧ e.value r = .ok 0 ∧ e.value r' = .ok 0 := by
  intro r r' e
  have hr : r.ExtendedBy r' := by
    intro name v hv
    by_cases hname : name = "off"
    · simpa [r, r', Resolver.ofValues, hname] using hv
    · simp [r, Resolver.ofValues, hname] at hv
  have hlegal : e.legal := by decide
  have hsteady : e.steady := by decide
  have hv : e.value r = .ok 0 := by rfl
  exact ⟨hr, hlegal, hsteady, hv, (known_results_final r r' hr e hlegal hsteady).1 0 hv⟩

end Expr

end Sm83
