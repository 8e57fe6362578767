import Sm83.Proofs.State.Symbols

/-!
# The storage cursor

The storage cursor is a variable, and storage fields are laid out by moving it: a field starts where
the cursor is, and the cursor moves behind it, as far as words of 32 bits go. Where no total leaves
the range of these words, and no field has a negative size, each field ends before the next one
starts.
-/

namespace Sm83

/-- A storage field: the place it starts at, the number of its units, and the bytes of a unit. -/
structure StorageField where
  start : Int
  count : Int
  width : Int
  deriving DecidableEq, Repr

namespace StorageField

/-- The bytes that the cursor moves by. -/
def size (f : StorageField) : Int :=
  f.count * f.width

/-- The place behind the field. -/
def stop (f : StorageField) : Int :=
  f.start + f.size

/-- The field occupies the byte at a place. -/
def Occupies (f : StorageField) (place : Int) : Prop :=
  f.start ≤ place ∧ place < f.stop

/-- The fields share no byte. -/
def Apart (f g : StorageField) : Prop :=
  ∀ place, f.Occupies place → ¬ g.Occupies place

/-- The sizes of fields together. -/
def total : List StorageField → Int
  | [] => 0
  | f :: fields => f.size + total fields

/-- Fields laid out from one place of the cursor to another: each starts at the cursor, which moves
on by its size. -/
def Laid : Int → List StorageField → Int → Prop
  | cursor, [], last => last = cursor
  | cursor, f :: fields, last => f.start = cursor ∧ Laid (Word.wrap (cursor + f.size)) fields last

/-- All totals on the way, counted from a place, are words of 32 bits. -/
def InRange (cursor : Int) (fields : List StorageField) : Prop :=
  ∀ n, -0x80000000 ≤ cursor + total (fields.take n) ∧ cursor + total (fields.take n) < 0x80000000

variable {cursor last : Int} {f : StorageField} {fields more : List StorageField}

theorem size_nonneg_iff (h : 0 < f.width) : 0 ≤ f.size ↔ 0 ≤ f.count :=
  Int.mul_nonneg_iff_of_pos_right h

@[simp] theorem total_nil : total [] = 0 := rfl

@[simp] theorem total_cons (f : StorageField) (fields : List StorageField) :
    total (f :: fields) = f.size + total fields :=
  rfl

@[simp] theorem total_append (fields more : List StorageField) :
    total (fields ++ more) = total fields + total more := by
  induction fields with
  | nil => simp
  | cons f fields ih => rw [List.cons_append, total_cons, total_cons, ih, Int.add_assoc]

theorem total_nonneg (h : ∀ f ∈ fields, 0 ≤ f.size) : 0 ≤ total fields := by
  induction fields with
  | nil => exact Int.le_refl 0
  | cons f fields ih =>
    rcases List.forall_mem_cons.mp h with ⟨hsize, hsizes⟩
    rw [total_cons]
    exact Int.add_nonneg hsize (ih hsizes)

theorem total_mono (h : fields <+: more) (hmore : ∀ f ∈ more, 0 ≤ f.size) :
    total fields ≤ total more := by
  rcases h with ⟨rest, rfl⟩
  have hrest := total_nonneg fun f hf => hmore f (List.mem_append_right fields hf)
  rw [total_append]
  omega

theorem inRange_of_total (hlow : -0x80000000 ≤ cursor) (hsizes : ∀ f ∈ fields, 0 ≤ f.size)
    (hhigh : cursor + total fields < 0x80000000) : InRange cursor fields := by
  intro n
  have hbegins : fields.take n <+: fields := List.take_prefix n fields
  have htotal := total_mono hbegins hsizes
  have hnonneg := total_nonneg fun f hf => hsizes f (hbegins.mem hf)
  omega

theorem InRange.initial (h : InRange cursor more) (hbegins : fields <+: more) :
    InRange cursor fields := by
  intro n
  rw [List.prefix_iff_eq_take.mp hbegins, List.take_take]
  exact h _

theorem InRange.behind (h : InRange cursor (fields ++ more)) :
    InRange (cursor + total fields) more := by
  intro n
  have hn := h (fields.length + n)
  rw [List.take_length_add_append, total_append, ← Int.add_assoc] at hn
  exact hn

theorem laid_append :
    Laid cursor (fields ++ more) last ↔ ∃ between, Laid cursor fields between ∧
      Laid between more last := by
  induction fields generalizing cursor with
  | nil => simp [Laid]
  | cons f fields ih => simp [Laid, ih, and_assoc]

theorem Laid.of_cons (h : Laid cursor (f :: fields) last) (hrange : InRange cursor (f :: fields)) :
    f.start = cursor ∧ Laid f.stop fields last ∧ InRange f.stop fields := by
  rcases h with ⟨rfl, hrest⟩
  have hsplit : InRange f.start ([f] ++ fields) := hrange
  have hbehind := hsplit.behind
  rw [total_cons, total_nil, Int.add_zero] at hbehind
  -- the first total is a word, so the cursor is not wrapped
  have hstop := hbehind 0
  rw [List.take_zero, total_nil, Int.add_zero] at hstop
  rw [Word.wrap_eq_self hstop.1 hstop.2] at hrest
  exact ⟨rfl, hrest, hbehind⟩

theorem Laid.last_eq (h : Laid cursor fields last) (hrange : InRange cursor fields) :
    last = cursor + total fields := by
  induction fields generalizing cursor with
  | nil => simpa [Laid] using h
  | cons f fields ih =>
    rcases h.of_cons hrange with ⟨rfl, hrest, hbehind⟩
    rw [ih hrest hbehind, total_cons, stop, Int.add_assoc]

theorem Laid.le_start (h : Laid cursor fields last) (hrange : InRange cursor fields)
    (hsizes : ∀ f ∈ fields, 0 ≤ f.size) : ∀ f ∈ fields, cursor ≤ f.start := by
  induction fields generalizing cursor with
  | nil => simp
  | cons f fields ih =>
    rcases h.of_cons hrange with ⟨rfl, hrest, hbehind⟩
    rcases List.forall_mem_cons.mp hsizes with ⟨hsize, hsizes⟩
    refine List.forall_mem_cons.mpr ⟨Int.le_refl _, ?_⟩
    intro g hg
    have hg := ih hrest hbehind hsizes g hg
    unfold stop at hg
    omega

theorem Laid.pairwise (h : Laid cursor fields last) (hrange : InRange cursor fields)
    (hsizes : ∀ f ∈ fields, 0 ≤ f.size) : fields.Pairwise fun f g => f.stop ≤ g.start := by
  induction fields generalizing cursor with
  | nil => exact .nil
  | cons f fields ih =>
    rcases h.of_cons hrange with ⟨rfl, hrest, hbehind⟩
    have hlater : ∀ g ∈ fields, 0 ≤ g.size := fun g hg => hsizes g (List.mem_cons_of_mem _ hg)
    exact .cons (hrest.le_start hbehind hlater) (ih hrest hbehind hlater)

theorem apart_of_stop_le {f g : StorageField} (h : f.stop ≤ g.start) : f.Apart g := by
  intro place hf hg
  have hbefore : place < f.stop := hf.2
  have hbehind : g.start ≤ place := hg.1
  omega

end StorageField

/-- The operation gives the storage cursor another place. -/
def Operation.SetsStorage (s : State) : Operation → Prop
  | .advanceStorage _ => True
  | .resetStorage _ => True
  | .defineVariable spelling _ _ => s.qualify spelling = .ok State.storageName
  | _ => False

namespace State

/-- The storage cursor is where it was, provided that the state was consistent, and then it still
is. -/
def Unmoved (s s' : State) : Prop :=
  s.Consistent → s'.Consistent ∧ s'.storage = s.storage

variable {s s' s'' : State} {symbol x : Symbol} {spelling : String}

theorem Unmoved.of_eq (h : s' = s) : s.Unmoved s' := by
  subst h
  exact fun hs => ⟨hs, rfl⟩

theorem Unmoved.trans (h : s.Unmoved s') (h' : s'.Unmoved s'') : s.Unmoved s'' := by
  intro hs
  rcases h hs with ⟨hs', hstorage⟩
  rcases h' hs' with ⟨hs'', hstorage'⟩
  exact ⟨hs'', hstorage'.trans hstorage⟩

theorem storage_congr
    (h : (s'.lookup storageName).map Symbol.value = (s.lookup storageName).map Symbol.value) :
    s'.storage = s.storage := by
  unfold storage
  rw [h]

theorem storage_of_symbols (h : s'.symbols = s.symbols) : s'.storage = s.storage := by
  apply storage_congr
  rw [lookup, h, lookup]

theorem Consistent.storage_mem_range (hs : s.Consistent) :
    -0x80000000 ≤ s.storage ∧ s.storage < 0x80000000 := by
  rcases hs.cursor with ⟨x, n, hfound, _, hvalue, hlow, hhigh⟩
  have hstorage : s.storage = n := by
    unfold storage
    rw [hfound, Option.map_some, hvalue]
  rw [hstorage]
  exact ⟨hlow, hhigh⟩

theorem Consistent.storage_resetStorage (hs : s.Consistent) (value : Int) :
    (s.resetStorage value).storage = Word.wrap value := by
  rcases hs.cursor with ⟨x, _, hfound, _⟩
  unfold resetStorage
  rw [hfound]
  unfold storage lookup
  rw [Table.get?_insert_self]
  rfl

theorem storage_add (hs : s.Consistent) (h : s.add symbol = .ok (x, s'))
    (hother : symbol.kind = .set → symbol.name ≠ storageName) : s'.storage = s.storage := by
  rcases hs.cursor with ⟨y, _, hfound, _⟩
  rcases add_cases h with ⟨exported, hfree, rfl⟩ | ⟨hset, old, hold, _, rfl⟩
  · -- the cursor is there, so its name is not free, and it gives way to nothing
    have hname : storageName ≠ symbol.name := by
      intro heq
      rcases hfree with hnone | ⟨_, _, _, _, hordinary, _⟩
      · have hnone : s.lookup symbol.name = none := hnone
        rw [← heq, hfound] at hnone
        cases hnone
      · exact hordinary heq.symm
    apply storage_congr
    exact congrArg _ (Table.get?_insert_ne _ _ hname)
  · apply storage_congr
    exact congrArg _ (Table.get?_insert_ne _ _ (hother hset).symm)

theorem name_of_add (hs : s.Consistent) (h : s.add symbol = .ok (x, s')) :
    x.name = symbol.name := by
  unfold add at h
  split at h
  · cases h
    rfl
  · next old hfound =>
    split at h
    · split at h
      · have hkeyed := hs.keyed _ old hfound
        cases h
        exact hkeyed
      · cases h
        rfl
    · cases h

theorem storage_define (hs : s.Consistent) {make : String → Symbol}
    (h : s.define spelling make = .ok (x, s'))
    (hother : ∀ name, s.qualify spelling = .ok name → (make name).kind = .set →
      (make name).name ≠ storageName) : s'.storage = s.storage := by
  rcases define_eq_ok_iff.mp h with ⟨name, hname, hadd⟩
  exact storage_add hs hadd (hother name hname)

theorem storage_exportName {location : Option Location}
    (h : s.exportName spelling location = .ok s') : s'.storage = s.storage := by
  obtain ⟨name, _, ⟨y, hfound, rfl⟩ | ⟨_, rfl | rfl⟩⟩ := exportName_cases h
  · apply storage_congr
    by_cases hname : storageName = name
    · subst hname
      rw [hfound, lookup, Table.get?_insert_self]
      rfl
    · exact congrArg _ (Table.get?_insert_ne _ _ hname)
  · rfl
  · rfl

theorem storage_purge (h : s.purge spelling = .ok s') : s'.storage = s.storage := by
  obtain ⟨name, y, _, _, hordinary, _, _, rfl⟩ := purge_cases h
  apply storage_congr
  exact congrArg _ (Table.get?_erase_ne _ fun heq => hordinary heq.symm)

/-- Other operations leave the storage cursor alone. -/
theorem storage_of_perform {op : Operation} {answer : Answer} (hs : s.Consistent)
    (hop : ¬ op.SetsStorage s) (h : s.perform op = .ok (answer, s')) : s'.storage = s.storage := by
  cases touches_of_perform h with
  | defines defined =>
    cases op with
    | defineLabel spelling exported location =>
      rcases Outcome.map_eq_ok_iff.mp h with ⟨⟨y, t⟩, hlabel, heq⟩
      cases heq
      rcases defineLabel_eq_ok_iff.mp hlabel with ⟨name, t', _, hadd, rfl⟩
      have hadded := storage_add hs hadd (by simp [labelHere])
      split
      · exact hadded
      · exact hadded
    | defineConstant spelling value exported location =>
      exact of_map_ok (P := fun t => t.storage = s.storage) h fun _ hr => storage_define hs hr
        (by simp)
    | defineVariable spelling value location =>
      refine of_map_ok (P := fun t => t.storage = s.storage) h fun _ hr => storage_define hs hr ?_
      rintro name hname _ rfl
      exact hop hname
    | defineText spelling value location =>
      exact of_map_ok (P := fun t => t.storage = s.storage) h fun _ hr => storage_define hs hr
        (by simp)
    | _ => cases defined
  | exports done => exact storage_exportName done
  | purges done => exact storage_purge done
  | advances bytes => exact absurd trivial hop
  | resets value => exact absurd trivial hop
  | nothing same => exact storage_of_symbols same.symbols

theorem unmoved_of_perform {op : Operation} {answer : Answer} (hop : ¬ op.SetsStorage s)
    (h : s.perform op = .ok (answer, s')) : s.Unmoved s' := by
  intro hs
  exact ⟨consistent_step (change_of_perform hs.cursorVaries h) hs, storage_of_perform hs hop h⟩

end State

end Sm83
