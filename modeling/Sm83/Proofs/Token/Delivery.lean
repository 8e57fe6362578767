import Sm83.Proofs.Outcome
import Sm83.Proofs.Token.Progress

/-!
# The tokens a stream delivers

A stream keeps some tokens in its buffer and reads the others when they are asked for. Seen from a
reader it is just a list of tokens that ends with the end of the source: `Stream.Delivers` ties a
stream to that list. What a reading does is then said about lists of tokens, without buffers,
cursors and modes.
-/

namespace Sm83

variable {ts : List Token}

/-- The last token, and no other, is the end of the source. -/
def endsOnce : List Token → Bool
  | [] => false
  | t :: ts => if t.isEnd then ts.isEmpty else endsOnce ts

theorem endsOnce_cons_of_isEnd {t : Token} (ht : t.isEnd = true) : endsOnce (t :: ts) = true ↔
    ts = [] := by
  simp [endsOnce, ht]

@[simp] theorem endsOnce_cons_of_not_isEnd {t : Token} (ht : t.isEnd = false) :
    endsOnce (t :: ts) = endsOnce ts := by
  simp [endsOnce, ht]

theorem isEnd_getLast?_of_endsOnce (h : endsOnce ts = true) :
    ts.getLast?.any Token.isEnd = true := by
  induction ts with
  | nil => cases h
  | cons t ts ih =>
    cases ht : t.isEnd with
    | true =>
      rw [(endsOnce_cons_of_isEnd ht).1 h]
      simpa using ht
    | false =>
      rw [endsOnce_cons_of_not_isEnd ht] at h
      cases ts with
      | nil => cases h
      | cons u us => simpa using ih h

theorem eq_nil_of_isEnd_getLast? {us : List Token} (h : ts.getLast?.any Token.isEnd = true)
    (h' : endsOnce (ts ++ us) = true) : us = [] := by
  induction ts with
  | nil => cases h
  | cons t ts ih =>
    rw [List.cons_append] at h'
    cases ht : t.isEnd with
    | true =>
      rw [endsOnce_cons_of_isEnd ht] at h'
      exact (List.append_eq_nil_iff.1 h').2
    | false =>
      rw [endsOnce_cons_of_not_isEnd ht] at h'
      cases ts with
      | nil =>
        rw [List.getLast?_singleton, Option.any_some, ht] at h
        cases h
      | cons u us => exact ih (by simpa using h) h'

/-- The tokens from a cursor on under one setting, up to the end of the source. -/
inductive Cursor.Yields (source : Source) (setting : Setting) : Cursor → List Token → Prop
  | last {c c' : Cursor} {t : Token} (h : c.next source setting = .ok (t, c'))
      (ht : t.isEnd = true) : Yields source setting c [t]
  | more {c c' : Cursor} {t : Token} {ts : List Token} (h : c.next source setting = .ok (t, c'))
      (ht : t.isEnd = false) (hts : Yields source setting c' ts) : Yields source setting c (t :: ts)

namespace Cursor.Yields

variable {source : Source} {setting : Setting} {c : Cursor} {ts us : List Token}

theorem reachesEnd (h : Yields source setting c ts) : endsOnce ts = true := by
  induction h with
  | last _ ht => exact (endsOnce_cons_of_isEnd ht).2 rfl
  | more _ ht _ ih => rwa [endsOnce_cons_of_not_isEnd ht]

theorem length_le (h : Yields source setting c ts) : ts.length ≤ c.rest.length + 1 := by
  induction h with
  | last => simp
  | more hnext ht _ ih =>
    have := next_shortens hnext ht
    rw [List.length_cons]
    omega

theorem of_normalTokens {n : Nat} (h : normalTokens source n c = (ts, none)) :
    Yields source .normal c ts := by
  induction n generalizing c ts with
  | zero => cases h
  | succ n ih =>
    unfold normalTokens at h
    split at h
    · cases h
    · rename_i t c' hnext
      split at h
      · cases h
        exact .last hnext ‹_›
      · rename_i ht
        injection h with hts hnone
        rw [← hts]
        exact .more hnext (by simpa using ht) (ih (Prod.ext rfl hnone))

end Cursor.Yields

/-- The tokens still to be read from a stream: those in its buffer, then those that the rest of the
source yields under the setting that the next fresh token is read in. -/
structure Stream.Delivers (s : Stream) (ts : List Token) : Prop where
  reachesEnd : endsOnce ts = true
  upcoming : ∃ fresh, ts = s.buffer ++ fresh ∧
    (fresh = [] ∨ s.cursor.Yields s.source s.register.commit.current fresh)

theorem Register.commit_commit (r : Register) : r.commit.commit = r.commit := by
  cases r with
  | mk current pending => cases pending <;> rfl

namespace Stream

variable {s : Stream} {t : Token} {ts us : List Token}

/-- A fresh stream delivers the tokens of its source. -/
theorem delivers_ofSource {source : Source} (h : source.tokens = (ts, none)) :
    (Stream.ofSource source).Delivers ts := by
  have hyields := Cursor.Yields.of_normalTokens h
  exact ⟨hyields.reachesEnd, ts, rfl, .inr hyields⟩

namespace Delivers

theorem ne_nil (h : s.Delivers ts) : ts ≠ [] := by
  intro hnil
  have := h.reachesEnd
  rw [hnil] at this
  cases this

theorem length_lt_bound (h : s.Delivers ts) : ts.length + 1 ≤ s.bound := by
  obtain ⟨-, fresh, rfl, hfresh⟩ := h
  have hle : fresh.length ≤ s.cursor.rest.length + 1 := by
    rcases hfresh with rfl | hfresh
    · simp
    · exact hfresh.length_le
  rw [List.length_append]
  unfold bound
  omega

end Delivers

end Stream

namespace Reading

variable {α β : Type} {s s' : Stream} {t : Token} {ts mid rest : List Token} {r : Reading α}
  {k : α → Reading β}

theorem bind_eq_ok_iff {b : β} : (r >>= k) s = .ok b s' ↔ ∃ a u, r s = .ok a u ∧ k a u = .ok b s' :=
  Outcome.run_bind_eq_ok_iff

theorem bind_of_ok {a : α} (h : r s = .ok a s') (k : α → Reading β) : (r >>= k) s = k a s' :=
  Outcome.run_bind_of_ok h k

theorem get_run (s : Stream) : (get : Reading Stream) s = .ok s s := rfl

theorem peek_of_fill (hfill : fill (1 - s.buffer.length) s = .ok () s')
    (hhead : s'.buffer.head? = some t) : peek s = .ok t s' := by
  show (get >>= fun u : Stream => fill (1 - u.buffer.length) >>= fun _ => _) s = _
  rw [bind_of_ok (get_run s), bind_of_ok hfill, bind_of_ok (get_run s')]
  cases hbuffer : s'.buffer with
  | nil => simp [hbuffer] at hhead
  | cons t' buffer =>
    rw [hbuffer] at hhead
    cases hhead
    rfl

theorem peek_buffered {buffer : List Token} (h : s.buffer = t :: buffer) : peek s = .ok t s := by
  refine peek_of_fill ?_ (by rw [h]; rfl)
  rw [h, List.length_cons, Nat.sub_eq_zero_of_le (Nat.le_add_left 1 _)]
  rfl

theorem lex_fresh {c : Cursor}
    (hnext : s.cursor.next s.source s.register.commit.current = .ok (t, c)) :
    lex s = .ok () ⟨s.source, c, s.register.commit, s.buffer ++ [t], s.previous, s.history⟩ := by
  simp only [lex, hnext]

theorem peek_fresh {c : Cursor} (h : s.buffer = [])
    (hnext : s.cursor.next s.source s.register.commit.current = .ok (t, c)) :
    peek s = .ok t ⟨s.source, c, s.register.commit, [t], s.previous, s.history⟩ := by
  have hlex : lex s = .ok () ⟨s.source, c, s.register.commit, [t], s.previous, s.history⟩ := by
    rw [lex_fresh hnext, h]
    rfl
  refine peek_of_fill ?_ rfl
  have hopen : s.atEnd = false := by simp [Stream.atEnd, h]
  rw [h]
  show fill (0 + 1) s = _
  rw [fill, bind_of_ok (get_run s), hopen]
  exact bind_of_ok hlex _

theorem peek_error {f : Failure} (h : s.buffer = [])
    (hnext : s.cursor.next s.source s.register.commit.current = .error f) :
    ∃ s', peek s = .error f s' := by
  obtain ⟨s', hlex⟩ : ∃ s', lex s = .error f s' := ⟨_, by simp only [lex, hnext]; rfl⟩
  refine ⟨s', ?_⟩
  show (get >>= fun u : Stream => fill (1 - u.buffer.length) >>= fun _ => _) s = _
  have hopen : s.atEnd = false := by simp [Stream.atEnd, h]
  rw [bind_of_ok (get_run s), h]
  refine Outcome.run_bind_of_error ?_ _
  show fill (0 + 1) s = _
  rw [fill, bind_of_ok (get_run s), hopen]
  exact Outcome.run_bind_of_error hlex _

theorem peek_of_delivers (h : s.Delivers (t :: ts)) :
    ∃ s', peek s = .ok t s' ∧ s'.Delivers (t :: ts) ∧ s'.buffer.head? = some t := by
  obtain ⟨hend, fresh, hts, hfresh⟩ := h
  cases hbuffer : s.buffer with
  | nil =>
    rw [hbuffer, List.nil_append] at hts
    subst hts
    cases hfresh.resolve_left (by simp) with
    | last hnext ht => exact ⟨_, peek_fresh hbuffer hnext, ⟨hend, [], rfl, .inl rfl⟩, rfl⟩
    | more hnext ht hyields =>
      -- the setting is committed by now, and committing it again changes nothing
      refine ⟨_, peek_fresh hbuffer hnext, ⟨hend, ts, rfl, .inr ?_⟩, rfl⟩
      rwa [Register.commit_commit]
  | cons t' buffer =>
    have hts' := hts
    rw [hbuffer, List.cons_append, List.cons.injEq] at hts'
    obtain ⟨rfl, -⟩ := hts'
    exact ⟨s, peek_buffered hbuffer, ⟨hend, fresh, hts, hfresh⟩, by simp [hbuffer]⟩

theorem atEnd_iff (h : s.Delivers ts) : s.atEnd = true ↔ s.buffer = ts := by
  obtain ⟨hend, fresh, rfl, -⟩ := h
  constructor
  · intro hatEnd
    rw [eq_nil_of_isEnd_getLast? hatEnd hend, List.append_nil]
  · intro hbuffer
    rw [← hbuffer] at hend
    exact isEnd_getLast?_of_endsOnce hend

theorem lex_of_delivers (h : s.Delivers ts) (hopen : s.buffer ≠ ts) :
    ∃ s', lex s = .ok () s' ∧ s'.Delivers ts ∧ s'.buffer.length = s.buffer.length + 1 := by
  obtain ⟨hend, fresh, rfl, hfresh⟩ := h
  have hyields := hfresh.resolve_left (by rintro rfl; exact hopen (List.append_nil _).symm)
  cases hyields with
  | last hnext ht =>
    exact ⟨_, lex_fresh hnext, ⟨hend, [], (List.append_nil _).symm, .inl rfl⟩, List.length_append⟩
  | @more _ _ _ ts hnext ht hyields =>
    refine ⟨_, lex_fresh hnext, ⟨hend, ts, by simp, .inr ?_⟩, List.length_append⟩
    rwa [Register.commit_commit]

theorem fill_of_delivers (k : Nat) (h : s.Delivers ts) :
    ∃ s', fill k s = .ok () s' ∧ s'.Delivers ts ∧
      (s'.buffer.length = s.buffer.length + k ∨ s'.buffer = ts) := by
  induction k generalizing s with
  | zero => exact ⟨s, rfl, h, .inl rfl⟩
  | succ k ih =>
    by_cases hbuffer : s.buffer = ts
    · refine ⟨s, ?_, h, .inr hbuffer⟩
      rw [fill, bind_of_ok (get_run s), (atEnd_iff h).2 hbuffer]
      rfl
    · obtain ⟨u, hu, hdelivers, hlength⟩ := lex_of_delivers h hbuffer
      obtain ⟨s', hs', hrest, hfilled⟩ := ih hdelivers
      have hopen : s.atEnd = false := by
        rw [← Bool.not_eq_true, atEnd_iff h]
        exact hbuffer
      refine ⟨s', ?_, hrest, hfilled.imp_left (by omega)⟩
      rw [fill, bind_of_ok (get_run s), hopen]
      exact (bind_of_ok hu _).trans hs'

/-- From every stream that delivers `ts` the reading returns `a`, and `rest` is left. -/
def Runs (r : Reading α) (ts : List Token) (a : α) (rest : List Token) : Prop :=
  ∀ s : Stream, s.Delivers ts → ∃ s', r s = .ok a s' ∧ s'.Delivers rest

namespace Runs

variable {a : α} {b : β}

theorem nil : Runs r [] a rest :=
  fun _ h => absurd rfl h.ne_nil

theorem pure (a : α) (ts : List Token) : Runs (pure a) ts a ts :=
  fun s h => ⟨s, rfl, h⟩

theorem bind (hr : Runs r ts a mid) (hk : Runs (k a) mid b rest) : Runs (r >>= k) ts b rest := by
  intro s hs
  obtain ⟨u, hu, hmid⟩ := hr s hs
  obtain ⟨s', hs', hrest⟩ := hk u hmid
  exact ⟨s', bind_eq_ok_iff.2 ⟨a, u, hu, hs'⟩, hrest⟩

theorem map (f : α → β) (hr : Runs r ts a rest) : Runs (f <$> r) ts (f a) rest := by
  intro s hs
  obtain ⟨s', hs', hrest⟩ := hr s hs
  exact ⟨s', by show EStateM.map f r s = _; simp [EStateM.map, hs'], hrest⟩

theorem peek (t : Token) (ts : List Token) : Runs peek (t :: ts) t (t :: ts) := by
  intro s hs
  obtain ⟨s', hs', hrest, -⟩ := peek_of_delivers hs
  exact ⟨s', hs', hrest⟩

/-- Looking ahead leaves the list as it is. -/
theorem peekAt {n : Nat} (ht : ts[n]? = some t) : Runs (peekAt n) ts t ts := by
  intro s hs
  obtain ⟨s', hs', hrest, hfilled⟩ := fill_of_delivers (n + 1 - s.buffer.length) hs
  have hn : n < ts.length := (List.getElem?_eq_some_iff.1 ht).1
  have hbuffer : s'.buffer[n]? = some t := by
    have hlong : n < s'.buffer.length := by
      rcases hfilled with hlength | hall
      · omega
      · rwa [hall]
    obtain ⟨-, fresh, rfl, -⟩ := hrest
    rwa [List.getElem?_append_left hlong] at ht
  refine ⟨s', ?_, hrest⟩
  show (get >>= fun u : Stream => fill (n + 1 - u.buffer.length) >>= fun _ => _) s = _
  rw [bind_of_ok (get_run s), bind_of_ok hs', bind_of_ok (get_run s'), hbuffer]
  rfl

/-- A token that is taken is the first of the list. -/
theorem advanceAs (role : Role) (ht : t.isEnd = false) (ts : List Token) :
    Runs (advanceAs role) (t :: ts) t ts := by
  intro s hs
  obtain ⟨u, hu, ⟨hend, fresh, hts, hfresh⟩, hhead⟩ := peek_of_delivers hs
  refine ⟨{ u with
    buffer := u.buffer.tail, previous := some t, history := .consumed role t :: u.history }, ?_, ?_⟩
  · refine bind_eq_ok_iff.2 ⟨t, u, hu, ?_⟩
    rw [ht]
    rfl
  · cases hbuffer : u.buffer with
    | nil => simp [hbuffer] at hhead
    | cons t' buffer =>
      rw [hbuffer, List.cons_append, List.cons.injEq] at hts
      rw [endsOnce_cons_of_not_isEnd ht] at hend
      exact ⟨hend, fresh, hts.2, hfresh⟩

theorem advance (ht : t.isEnd = false) (ts : List Token) : Runs advance (t :: ts) t ts :=
  advanceAs .code ht ts

end Runs

theorem advanceAs_end (role : Role) (ht : t.isEnd = true) (hs : s.Delivers [t]) :
    ∃ s', advanceAs role s = .ok t s' ∧ ∀ setting, (s'.request setting).Delivers [t] := by
  obtain ⟨u, hu, ⟨hend, fresh, hts, -⟩, hhead⟩ := peek_of_delivers hs
  refine ⟨{ u with buffer := u.buffer, previous := some t,
                   history := .consumed role t :: u.history }, ?_, ?_⟩
  · refine bind_eq_ok_iff.2 ⟨t, u, hu, ?_⟩
    rw [ht]
    rfl
  · have hbuffer : u.buffer = [t] := by
      cases hbuffer : u.buffer with
      | nil => simp [hbuffer] at hhead
      | cons t' buffer =>
        rw [hbuffer, List.cons_append, List.cons.injEq] at hts
        rw [← hts.1, (List.append_eq_nil_iff.1 hts.2.symm).1]
    exact fun setting => ⟨hend, [], by simpa [Stream.request] using hbuffer.symm, .inl rfl⟩

/-- Whatever the reading returns from a stream that delivers `ts`, it leaves a stream that delivers
something, and the two are as `Q` says. -/
def Gives (r : Reading α) (ts : List Token) (Q : α → List Token → Prop) : Prop :=
  ∀ (s : Stream) (a : α) (s' : Stream), s.Delivers ts → r s = .ok a s' →
    ∃ rest, s'.Delivers rest ∧ Q a rest

namespace Gives

variable {Q : β → List Token → Prop}

theorem of_runs {r : Reading β} {b : β} (h : Runs r ts b rest) (hQ : Q b rest) : Gives r ts Q := by
  intro s a s' hs hr
  obtain ⟨u, hu, hrest⟩ := h s hs
  cases hu.symm.trans hr
  exact ⟨rest, hrest, hQ⟩

theorem nil {r : Reading β} : Gives r [] Q :=
  fun _ _ _ h => absurd rfl h.ne_nil

theorem after {a : α} (hr : Runs r ts a mid) (hk : Gives (k a) mid Q) : Gives (r >>= k) ts Q := by
  intro s b s' hs h
  obtain ⟨u, hu, hmid⟩ := hr s hs
  obtain ⟨a', u', hu', hk'⟩ := bind_eq_ok_iff.1 h
  cases hu.symm.trans hu'
  exact hk u b s' hmid hk'

theorem bind {P : α → List Token → Prop} (hr : Gives r ts P)
    (hk : ∀ a mid, P a mid → Gives (k a) mid Q) : Gives (r >>= k) ts Q := by
  intro s b s' hs h
  obtain ⟨a, u, hu, hk'⟩ := bind_eq_ok_iff.1 h
  obtain ⟨mid, hmid, hP⟩ := hr s a u hs hu
  exact hk a mid hP u b s' hmid hk'

theorem map {f : α → β} {P : α → List Token → Prop} (hr : Gives r ts P)
    (h : ∀ a rest, P a rest → Q (f a) rest) : Gives (f <$> r) ts Q := by
  intro s b s' hs hb
  change EStateM.map f r s = _ at hb
  unfold EStateM.map at hb
  split at hb
  · rename_i a u hu
    obtain ⟨rest, hrest, hP⟩ := hr s a u hs hu
    cases hb
    exact ⟨rest, hrest, h a rest hP⟩
  · cases hb

theorem throw (f : Failure) : Gives (throw f : Reading β) ts Q := by
  intro s b s' _ h
  cases h

theorem mono {r : Reading β} {P : β → List Token → Prop} (hr : Gives r ts P)
    (h : ∀ b rest, P b rest → Q b rest) : Gives r ts Q := by
  intro s b s' hs hb
  obtain ⟨rest, hrest, hP⟩ := hr s b s' hs hb
  exact ⟨rest, hrest, h b rest hP⟩

end Gives

end Reading

end Sm83
