import Mathlib.Data.List.Induction
import Sm83.Proofs.Run.Progress

/-!
# Asking a stream

A reader asks for tokens in any order: it looks some places ahead, consumes the next token, or asks
for another mode. Behind all this stands one list of tokens, read one after the other from the
source as far as they are needed.
-/

namespace Sm83

open Outcome

variable {ts : List Token}

/-- What a reader asks of a stream: to see the token some places ahead, to consume the next one, or
to have fresh tokens read in another mode. -/
inductive Ask where
  | peek (n : Nat)
  | advance (role : Role)
  | request (setting : Setting)
  deriving DecidableEq, Repr

variable {k : Nat} {t : Token}

namespace Ask

/-- What comes of an ask. A request is not answered by a token. -/
def answer : Ask → Reading (Option Token)
  | peek n => some <$> Reading.peekAt n
  | advance role => some <$> Reading.advanceAs role
  | request setting => do
    modify (·.request setting)
    pure none

/-- What comes of asks, one after the other. -/
def answers : List Ask → Reading (List (Option Token))
  | [] => pure []
  | ask :: asks => do
    let first ← ask.answer
    let rest ← answers asks
    pure (first :: rest)

/-- The ask consumes a token. -/
def isAdvance : Ask → Bool
  | advance _ => true
  | _ => false

/-- The setting that is asked for. -/
def setting? : Ask → Option Setting
  | request setting => some setting
  | _ => none

/-- The number of tokens, from the next one on, that the ask looks at. -/
def need : Ask → Nat
  | peek n => n + 1
  | advance _ => 1
  | request _ => 0

/-- How often a token has been consumed. -/
def taken (asks : List Ask) : Nat :=
  asks.countP isAdvance

/-- The setting that was asked for last, at first the normal one. -/
def requested (asks : List Ask) : Setting :=
  asks.foldl (fun setting ask => ask.setting?.getD setting) .normal

/-- One of the asks looks at the token with this number, or at a later one. -/
def Reaches (asks : List Ask) (k : Nat) : Prop :=
  ∃ before ask after, asks = before ++ ask :: after ∧ k < taken before + ask.need

/-- The tokens that were consumed, among all answers. -/
def consumed (asks : List Ask) (answers : List (Option Token)) : List (Option Token) :=
  ((asks.zip answers).filter fun a => a.1.isAdvance).map Prod.snd

variable {asks : List Ask} {ask : Ask}

theorem taken_concat (asks : List Ask) (ask : Ask) :
    taken (asks ++ [ask]) = taken asks + if ask.isAdvance then 1 else 0 := by
  simp [taken, List.countP_append, List.countP_singleton]

theorem requested_concat (asks : List Ask) (ask : Ask) :
    requested (asks ++ [ask]) = ask.setting?.getD (requested asks) := by
  simp [requested]

theorem concat_cases {before after : List Ask} {first : Ask}
    (h : asks ++ [ask] = before ++ first :: after) :
    asks = before ∧ ask = first ∨ ∃ after', asks = before ++ first :: after' := by
  rcases List.eq_nil_or_concat after with rfl | ⟨after', last, rfl⟩
  · exact .inl (List.append_inj' h rfl |>.imp_right List.head_eq_of_cons_eq)
  · rw [List.concat_eq_append, ← List.cons_append, ← List.append_assoc] at h
    exact .inr ⟨after', (List.append_inj' h rfl).1⟩

theorem reaches_concat : Reaches (asks ++ [ask]) k ↔ Reaches asks k ∨
    k < taken asks + ask.need := by
  constructor
  · rintro ⟨before, first, after, heq, hk⟩
    rcases concat_cases heq with ⟨rfl, rfl⟩ | ⟨after', rfl⟩
    · exact .inr hk
    · exact .inl ⟨before, first, after', rfl, hk⟩
  · rintro (⟨before, first, after, rfl, hk⟩ | hk)
    · exact ⟨before, first, after ++ [ask], by simp, hk⟩
    · exact ⟨asks, ask, [], rfl, hk⟩

theorem Reaches.append (h : Reaches asks k) (more : List Ask) : Reaches (asks ++ more) k := by
  rcases h with ⟨before, first, after, rfl, hk⟩
  exact ⟨before, first, after ++ more, by simp, hk⟩

theorem not_reaches_nil (k : Nat) : ¬ Reaches [] k := by
  rintro ⟨before, ask, after, heq, _⟩
  simp at heq

variable {ts : List (Option Token)}

theorem answers_cons {s s' : Stream} :
    answers (ask :: asks) s = .ok ts s' ↔
      ∃ t u us, ask.answer s = .ok t u ∧ answers asks u = .ok us s' ∧ ts = t :: us := by
  constructor
  · intro h
    rcases of_bind h with ⟨t, u, ht, h⟩
    rcases of_bind h with ⟨us, _, hus, ⟨⟩⟩
    exact ⟨t, u, us, ht, hus, rfl⟩
  · rintro ⟨t, u, us, ht, hus, rfl⟩
    exact run_bind_eq_ok_iff.mpr
      ⟨t, u, ht, run_bind_eq_ok_iff.mpr ⟨us, s', hus, rfl⟩⟩

theorem answers_append {more : List Ask} {s s' : Stream} :
    answers (asks ++ more) s = .ok ts s' ↔
      ∃ us u vs, answers asks s = .ok us u ∧ answers more u = .ok vs s' ∧ ts = us ++ vs := by
  induction asks generalizing s ts with
  | nil =>
    constructor
    · intro h
      exact ⟨[], s, ts, rfl, h, rfl⟩
    · rintro ⟨_, _, vs, ⟨⟩, hvs, rfl⟩
      exact hvs
  | cons first asks ih =>
    rw [List.cons_append, answers_cons]
    constructor
    · rintro ⟨t, u, us, ht, hus, rfl⟩
      rcases ih.mp hus with ⟨vs, v, ws, hvs, hws, rfl⟩
      exact ⟨t :: vs, v, ws, answers_cons.mpr ⟨t, u, vs, ht, hvs, rfl⟩, hws, rfl⟩
    · rintro ⟨us, v, ws, hus, hws, rfl⟩
      rcases answers_cons.mp hus with ⟨t, u, vs, ht, hvs, rfl⟩
      exact ⟨t, u, vs ++ ws, ht, ih.mpr ⟨vs, v, ws, hvs, hws, rfl⟩, rfl⟩

theorem length_answers {s s' : Stream} (h : answers asks s = .ok ts s') :
    ts.length = asks.length := by
  induction asks generalizing s ts with
  | nil =>
    cases h
    rfl
  | cons ask asks ih =>
    rcases answers_cons.mp h with ⟨t, u, us, _, hus, rfl⟩
    rw [List.length_cons, List.length_cons, ih hus]

end Ask

/-- The token at some place of a list. The last token is found again at all places behind it. -/
def tokenAt (ts : List Token) (k : Nat) : Option Token :=
  ts[k]? <|> ts.getLast?

/-- The list has come to the end of the source. -/
def Ended (ts : List Token) : Prop :=
  ts.getLast?.any Token.isEnd = true

theorem tokenAt_of_lt (h : k < ts.length) : tokenAt ts k = ts[k]? := by
  simp [tokenAt, List.getElem?_eq_getElem h]

theorem tokenAt_of_le (h : ts.length ≤ k) : tokenAt ts k = ts.getLast? := by
  simp [tokenAt, List.getElem?_eq_none h]

theorem Ended.pos (h : Ended ts) : 0 < ts.length := by
  cases ts with
  | nil => cases h
  | cons t ts => simp

theorem ended_append (ts : List Token) {us : List Token} (h : us ≠ []) :
    Ended (ts ++ us) ↔ Ended us := by
  rw [Ended, Ended, List.getLast?_append_of_ne_nil _ h]

theorem ended_drop (h : k < ts.length) : Ended (ts.drop k) ↔ Ended ts := by
  rw [Ended, Ended, List.getLast?_drop, if_neg (by omega)]

theorem length_eq_of_isEnd (hsingle : ∀ t ∈ ts.dropLast, t.isEnd = false) (hk : ts[k]? = some t)
    (ht : t.isEnd = true) : k + 1 = ts.length := by
  have hlt : k < ts.length := (List.getElem?_eq_some_iff.mp hk).1
  by_contra hne
  have hmem : t ∈ ts.dropLast := by
    refine List.mem_of_getElem? (i := k) ?_
    rw [List.getElem?_dropLast, if_pos (by omega)]
    exact hk
  rw [hsingle t hmem] at ht
  cases ht

theorem ended_iff (hk : ts[k]? = some t) (hlast : k + 1 = ts.length) :
    Ended ts ↔ t.isEnd = true := by
  rw [Ended, List.getLast?_eq_getElem?, ← hlast, Nat.add_sub_cancel, hk, Option.any_some]

theorem length_le_of_ended {us : List Token}
    (hsame : ∀ (k : Nat) (t u : Token), ts[k]? = some t → us[k]? = some u → t = u) (hend : Ended ts)
    (hsingle : ∀ t ∈ us.dropLast, t.isEnd = false) : us.length ≤ ts.length := by
  by_contra hlong
  have hpos := hend.pos
  have hlast : ts[ts.length - 1]? = some ts[ts.length - 1] := List.getElem?_eq_getElem (by omega)
  have hlast' : us[ts.length - 1]? = some us[ts.length - 1] := List.getElem?_eq_getElem (by omega)
  rw [ended_iff hlast (by omega), hsame _ _ _ hlast hlast'] at hend
  have hlength := length_eq_of_isEnd hsingle hlast' hend
  omega

theorem Setting.mode_effective (g : Setting) : g.effective.mode = g.mode := by
  unfold Setting.effective
  split
  · rfl
  · next hmode => exact hmode.symm

namespace Cursor

variable {source : Source} {c c' c'' : Cursor} {gs gs' : List Setting} {ts us : List Token}

theorem next_mode {g : Setting} (h : c.next source g = .ok (t, c')) : t.mode = g.mode := by
  rcases next_cases h with ⟨hmode, h⟩ | ⟨hmode, _, h⟩ | ⟨closing, hmode, _, h⟩
  · rcases normalToken_eq_ok_iff.mp h with ⟨_, l, n, _, rfl, _⟩
    exact hmode.symm
  · rw [hmode]
    cases argumentToken_eq_ok_iff.mp h with
    | ended => rfl
    | line => rfl
    | comma => rfl
    | argument => rfl
  · rcases blockToken_eq_ok_iff.mp h with ⟨_, _, _, _, _, rfl, _⟩
    exact hmode.symm

theorem reads_append (h : c.reads source gs = .ok (ts, c'))
    (h' : c'.reads source gs' = .ok (us, c'')) :
    c.reads source (gs ++ gs') = .ok (ts ++ us, c'') := by
  induction gs generalizing c ts with
  | nil =>
    cases h
    exact h'
  | cons g gs ih =>
    rcases reads_cons_iff.mp h with ⟨t, c₁, ts', hnext, hreads, rfl⟩
    exact reads_cons_iff.mpr ⟨t, c₁, ts' ++ us, hnext, ih hreads, rfl⟩

theorem reads_modes (h : c.reads source gs = .ok (ts, c')) :
    gs.length = ts.length ∧ ∀ (k : Nat) (t : Token) (g : Setting), ts[k]? = some t →
      gs[k]? = some g → t.mode = g.mode := by
  induction gs generalizing c ts with
  | nil =>
    cases h
    simp
  | cons g gs ih =>
    rcases reads_cons_iff.mp h with ⟨t, c₁, ts', hnext, hreads, rfl⟩
    rcases ih hreads with ⟨hlength, hmodes⟩
    refine ⟨by simpa using hlength, ?_⟩
    intro k t' g' ht' hg'
    cases k with
    | zero =>
      cases ht'
      cases hg'
      exact next_mode hnext
    | succ k => exact hmodes k t' g' (by simpa using ht') (by simpa using hg')

/-- Under the same settings the same tokens are read. -/
theorem reads_agree {c₁ c₂ : Cursor} (h : c.reads source gs = .ok (ts, c₁))
    (h' : c.reads source gs' = .ok (us, c₂))
    (hsame : ∀ (k : Nat) (g g' : Setting), gs[k]? = some g → gs'[k]? = some g' → g = g') {u : Token}
    (ht : ts[k]? = some t) (hu : us[k]? = some u) : t = u := by
  -- on the settings: the same first setting gives the same token, and leaves the same text
  induction gs generalizing c ts us gs' k with
  | nil =>
    cases h
    simp at ht
  | cons g gs ih =>
    cases gs' with
    | nil =>
      cases h'
      simp at hu
    | cons g' gs' =>
      have hfirst : g = g' := hsame 0 g g' (by simp) (by simp)
      subst hfirst
      rcases reads_cons_iff.mp h with ⟨_, _, ts', hnext, hreads, rfl⟩
      rcases reads_cons_iff.mp h' with ⟨_, _, us', hnext', hreads', rfl⟩
      cases hnext.symm.trans hnext'
      cases k with
      | zero =>
        cases ht
        cases hu
        rfl
      | succ k =>
        refine ih hreads hreads' ?_ ht hu
        intro j g₁ g₂ hg₁ hg₂
        exact hsame (j + 1) g₁ g₂ (by simpa using hg₁) (by simpa using hg₂)

end Cursor

/-- The second stream is the first one with some tokens more read ahead, all of them under the
setting that was in force, and none behind the end of the source. -/
structure Stream.Fills (fresh : List Token) (s s' : Stream) : Prop where
  source : s'.source = s.source
  reads : s.cursor.reads s.source (List.replicate fresh.length s.register.commit.current) =
    .ok (fresh, s'.cursor)
  register : s'.register.commit = s.register.commit
  buffer : s'.buffer = s.buffer ++ fresh
  continued : fresh ≠ [] → s.atEnd = false
  single : ∀ t ∈ fresh.dropLast, t.isEnd = false

namespace Reading

variable {s s' : Stream}

/-- What filling the buffer reads. -/
theorem fill_eq_ok {m : Nat} (h : fill m s = .ok () s') :
    ∃ fresh, s.Fills fresh s' ∧ fresh.length ≤ m ∧ (fresh.length = m ∨ s'.atEnd = true) := by
  have hnothing : s.Fills [] s := ⟨rfl, rfl, rfl, (List.append_nil _).symm, by simp, by simp⟩
  induction m generalizing s with
  | zero =>
    cases h
    exact ⟨[], hnothing, Nat.le_refl _, .inl rfl⟩
  | succ m ih =>
    rw [fill, bind_of_ok (get_run s)] at h
    cases hend : s.atEnd with
    | true =>
      rw [hend] at h
      cases h
      exact ⟨[], hnothing, Nat.zero_le _, .inr hend⟩
    | false =>
      rw [hend] at h
      rcases bind_eq_ok_iff.mp h with ⟨_, s₁, hlex, h⟩
      rcases lex_eq_ok hlex with ⟨t, c, hnext, rfl⟩
      have hcommit : (s.read t c).register.commit = s.register.commit := Register.commit_commit _
      rcases ih h ⟨rfl, rfl, rfl, (List.append_nil _).symm, by simp, by simp⟩ with
        ⟨fresh, hfills, hle, hfull⟩
      refine ⟨t :: fresh, ⟨hfills.source, ?_, ?_, ?_, fun _ => hend, ?_⟩, by simpa using hle,
        hfull.imp_left (by simp)⟩
      · have hreads := hfills.reads
        rw [hcommit] at hreads
        exact Cursor.reads_cons_iff.mpr ⟨t, c, fresh, hnext, hreads, rfl⟩
      · exact hfills.register.trans hcommit
      · rw [hfills.buffer]
        simp [Stream.read]
      · intro u hu
        cases fresh with
        | nil => simp at hu
        | cons v fresh =>
          rcases List.mem_cons.mp hu with rfl | hu
          · -- something was read behind it, so it is not the end
            have hopen := hfills.continued (by simp)
            simpa [Stream.atEnd, Stream.read] using hopen
          · exact hfills.single u hu

theorem peekAt_eq_ok {n : Nat} (h : peekAt n s = .ok t s') :
    ∃ fresh, s.Fills fresh s' ∧ fresh.length ≤ n + 1 - s.buffer.length ∧
      (fresh.length = n + 1 - s.buffer.length ∨ s'.atEnd = true) ∧
        tokenAt s'.buffer n = some t := by
  rcases bind_eq_ok_iff.mp h with ⟨_, _, ⟨⟩, h⟩
  rcases bind_eq_ok_iff.mp h with ⟨_, s₁, hfill, h⟩
  rcases bind_eq_ok_iff.mp h with ⟨_, _, ⟨⟩, h⟩
  rcases fill_eq_ok hfill with ⟨fresh, hfills, hle, hfull⟩
  cases hat : s₁.buffer[n]? <|> s₁.buffer.getLast? with
  | none =>
    rw [hat] at h
    cases h
  | some u =>
    rw [hat] at h
    cases h
    exact ⟨fresh, hfills, hle, hfull, hat⟩

end Reading

namespace Ask

/-- The tokens `ts` have been read from the source for what has been asked: as many of them as were
needed, and each under the setting that had been asked for last when it was needed first. -/
structure Tracks (source : Source) (asks : List Ask) (gs : List Setting) (ts : List Token)
    (c : Cursor) : Prop where
  reads : (Cursor.start source.text).reads source gs = .ok (ts, c)
  single : ∀ t ∈ ts.dropLast, t.isEnd = false
  needed : ∀ k < ts.length, Reaches asks k
  complete : ∀ k, Reaches asks k → k < ts.length ∨ Ended ts
  settings : ∀ before ask after k g, asks = before ++ ask :: after → ¬ Reaches before k →
    Reaches (before ++ [ask]) k → gs[k]? = some g → g = (requested before).effective

/-- The stream has been asked this, and has these tokens read. Those that have not been consumed are
in its buffer, and the end of the source is never consumed. -/
structure Holds (source : Source) (asks : List Ask) (ts : List Token) (s : Stream) : Prop where
  source : s.source = source
  setting : s.register.commit.current = (requested asks).effective
  buffer : ∃ k ≤ ts.length, s.buffer = ts.drop k ∧ (Ended ts → k < ts.length) ∧
    (k = taken asks ∨ k < taken asks ∧ Ended ts ∧ k + 1 = ts.length)

/-- The answer to an ask, among the tokens that are read. -/
def expected (ts : List Token) (before : List Ask) : Ask → Option Token
  | peek n => tokenAt ts (taken before + n)
  | advance _ => tokenAt ts (taken before)
  | request _ => none

variable {source : Source} {asks : List Ask} {ask : Ask} {gs : List Setting} {ts fresh : List Token}
  {c : Cursor} {s s' : Stream}

theorem Tracks.length_eq (h : Tracks source asks gs ts c) : gs.length = ts.length :=
  (Cursor.reads_modes h.reads).1

theorem Holds.atEnd_iff (h : Holds source asks ts s) : s.atEnd = true ↔ Ended ts := by
  rcases h.buffer with ⟨k, hk, hbuffer, hopen, _⟩
  show Ended s.buffer ↔ _
  rw [hbuffer]
  by_cases hlt : k < ts.length
  · exact ended_drop hlt
  · -- with an empty buffer neither holds
    rw [List.drop_eq_nil_of_le (by omega)]
    exact ⟨fun hend => (by cases hend), fun hend => absurd (hopen hend) hlt⟩

theorem Holds.closed (h : Holds source asks ts s) (hfills : s.Fills fresh s') (hend : Ended ts) :
    fresh = [] := by
  by_contra hne
  have hopen := hfills.continued hne
  rw [h.atEnd_iff.mpr hend] at hopen
  cases hopen

theorem Holds.tokenAt_buffer (h : Holds source asks ts s) {n : Nat}
    (ht : tokenAt s.buffer n = some t) : tokenAt ts (taken asks + n) = some t := by
  rcases h.buffer with ⟨k, hk, hbuffer, _, htaken⟩
  have hlt : k < ts.length := by
    by_contra hge
    rw [hbuffer, List.drop_eq_nil_of_le (by omega)] at ht
    simp [tokenAt] at ht
  have hlast : (ts.drop k).getLast? = ts.getLast? := by
    rw [List.getLast?_drop, if_neg (by omega)]
  rw [hbuffer, tokenAt, List.getElem?_drop, hlast] at ht
  rcases htaken with rfl | ⟨hless, _, hend⟩
  · exact ht
  · -- only the end is left, and it is seen at all places
    rw [tokenAt_of_le (by omega)]
    cases n with
    | zero =>
      rw [Nat.add_zero, List.getElem?_eq_getElem hlt] at ht
      cases ht
      rw [List.getLast?_eq_getElem?, ← hend, Nat.add_sub_cancel, List.getElem?_eq_getElem hlt]
    | succ n =>
      rw [List.getElem?_eq_none (by omega)] at ht
      exact ht

theorem tracks_nil (source : Source) : Tracks source [] [] [] (Cursor.start source.text) := by
  refine ⟨rfl, by simp, by simp, ?_, ?_⟩
  · intro k hk
    exact absurd hk (not_reaches_nil k)
  · intro before ask after k g heq
    simp at heq

theorem holds_nil (source : Source) : Holds source [] [] (.ofSource source) :=
  ⟨rfl, rfl, 0, Nat.le_refl _, rfl, fun h => (by cases h), .inl rfl⟩

theorem Tracks.single_append (h : Tracks source asks gs ts s.cursor) (hs : Holds source asks ts s)
    (hfills : s.Fills fresh s') : ∀ t ∈ (ts ++ fresh).dropLast, t.isEnd = false := by
  intro t ht
  cases hfresh : fresh with
  | nil =>
    rw [hfresh, List.append_nil] at ht
    exact h.single t ht
  | cons first rest =>
    rw [List.dropLast_append_of_ne_nil (by simp [hfresh])] at ht
    rcases List.mem_append.mp ht with hold | hnew
    · -- the last of the old tokens is not the end either, or nothing would have been read behind it
      cases hend : t.isEnd with
      | false => rfl
      | true =>
        rcases List.mem_iff_getElem?.mp hold with ⟨j, hj⟩
        have hended := (ended_iff hj (length_eq_of_isEnd h.single hj hend)).mpr hend
        rw [hs.closed hfills hended] at hfresh
        cases hfresh
    · exact hfills.single t hnew

theorem Tracks.needed_append (h : Tracks source asks gs ts s.cursor) (hs : Holds source asks ts s)
    (hfills : s.Fills fresh s') (hle : fresh.length ≤ ask.need - s.buffer.length) :
    ∀ k < (ts ++ fresh).length, Reaches (asks ++ [ask]) k := by
  rcases hs.buffer with ⟨k, hk, hbuffer, _, htaken⟩
  have hbuffered : s.buffer.length = ts.length - k := by rw [hbuffer, List.length_drop]
  intro j hj
  rw [reaches_concat]
  by_cases hold : j < ts.length
  · exact .inl (h.needed j hold)
  · refine .inr ?_
    rw [List.length_append] at hj
    have hne : fresh ≠ [] := by
      rintro rfl
      simp at hj
      omega
    rcases htaken with rfl | ⟨_, hend, _⟩
    · omega
    · exact absurd (hs.closed hfills hend) hne

theorem Tracks.complete_append (h : Tracks source asks gs ts s.cursor) (hs : Holds source asks ts s)
    (hfills : s.Fills fresh s')
    (hfull : fresh.length = ask.need - s.buffer.length ∨ s'.atEnd = true) :
    ∀ k, Reaches (asks ++ [ask]) k → k < (ts ++ fresh).length ∨ Ended (ts ++ fresh) := by
  have hclosed := hs.closed hfills
  rcases hs.buffer with ⟨k, hk, hbuffer, _, htaken⟩
  have hbuffered : s.buffer.length = ts.length - k := by rw [hbuffer, List.length_drop]
  intro j hj
  rcases reaches_concat.mp hj with hold | hnew
  · rcases h.complete j hold with hlt | hend
    · exact .inl (by rw [List.length_append]; omega)
    · rw [hclosed hend, List.append_nil]
      exact .inr hend
  · rcases htaken with rfl | ⟨_, hend, _⟩
    · rcases hfull with hfull | hend
      · exact .inl (by rw [List.length_append]; omega)
      · -- fewer tokens than needed were read, so the last one in the buffer is the end
        refine .inr ?_
        change Ended s'.buffer at hend
        rw [hfills.buffer] at hend
        cases hfresh : fresh with
        | nil =>
          rw [hfresh, List.append_nil] at hend
          rw [List.append_nil]
          exact hs.atEnd_iff.mp hend
        | cons first rest =>
          rw [hfresh, ended_append _ (by simp)] at hend
          exact (ended_append _ (by simp)).mpr hend
    · rw [hclosed hend, List.append_nil]
      exact .inr hend

theorem Tracks.settings_append (h : Tracks source asks gs ts s.cursor) (hs : Holds source asks ts s)
    (hfills : s.Fills fresh s') :
    ∀ before first after k g, asks ++ [ask] = before ++ first :: after → ¬ Reaches before k →
      Reaches (before ++ [first]) k →
      (gs ++ List.replicate fresh.length s.register.commit.current)[k]? = some g →
      g = (requested before).effective := by
  have hlength := h.length_eq
  intro before first after j g heq hbefore hreached hg
  rcases concat_cases heq with ⟨rfl, _⟩ | ⟨after', hasks⟩
  · -- the token was read for the new ask
    have hold : ts.length ≤ j := by
      by_contra hlt
      exact hbefore (h.needed j (by omega))
    rw [List.getElem?_append_right (by omega)] at hg
    rw [← hs.setting]
    exact (List.mem_replicate.mp (List.mem_of_getElem? hg)).2
  · have hreached' : Reaches asks j := by
      rw [hasks, List.append_cons]
      exact hreached.append after'
    apply h.settings before first after' j g hasks hbefore hreached
    rcases h.complete j hreached' with hlt | hend
    · rwa [List.getElem?_append_left (by omega)] at hg
    · rwa [hs.closed hfills hend, List.length_nil, List.replicate_zero, List.append_nil] at hg

theorem Tracks.concat (h : Tracks source asks gs ts s.cursor) (hs : Holds source asks ts s)
    (ask : Ask) (hfills : s.Fills fresh s') (hle : fresh.length ≤ ask.need - s.buffer.length)
    (hfull : fresh.length = ask.need - s.buffer.length ∨ s'.atEnd = true) :
    Tracks source (asks ++ [ask]) (gs ++ List.replicate fresh.length s.register.commit.current)
      (ts ++ fresh) s'.cursor := by
  have hreads := hfills.reads
  rw [hs.source] at hreads
  exact ⟨Cursor.reads_append h.reads hreads, h.single_append hs hfills,
    h.needed_append hs hfills hle, h.complete_append hs hfills hfull, h.settings_append hs hfills⟩

theorem Holds.fills (h : Holds source asks ts s) (hfills : s.Fills fresh s') :
    Holds source asks (ts ++ fresh) s' := by
  rcases h.buffer with ⟨k, hk, hbuffer, hlast, htaken⟩
  refine ⟨hfills.source.trans h.source, ?_, k, ?_, ?_, ?_, ?_⟩
  · rw [hfills.register]
    exact h.setting
  · rw [List.length_append]
    omega
  · rw [hfills.buffer, hbuffer, List.drop_append_of_le_length hk]
  · intro hend
    cases hfresh : fresh with
    | nil =>
      rw [hfresh, List.append_nil] at hend
      rw [List.append_nil]
      exact hlast hend
    | cons first rest =>
      rw [List.length_append, List.length_cons]
      omega
  · apply htaken.imp_right
    rintro ⟨hless, hend, hone⟩
    -- nothing was read behind the end
    rw [h.closed hfills hend, List.append_nil]
    exact ⟨hless, hend, hone⟩

/-- Consuming keeps the buffer in step. -/
theorem Holds.consume (h : Holds source asks ts s) {rest : List Token} {role : Role}
    (hsingle : ∀ t ∈ ts.dropLast, t.isEnd = false) (hbuffer : s.buffer = t :: rest) :
    Holds source (asks ++ [.advance role]) ts (s.consume role t rest) := by
  rcases h.buffer with ⟨k, hk, hdrop, hlast, htaken⟩
  have hcount : taken (asks ++ [.advance role]) = taken asks + 1 := taken_concat asks _
  have hfirst : ts[k]? = some t := by
    have hzero : s.buffer[0]? = some t := by rw [hbuffer]; rfl
    rwa [hdrop, List.getElem?_drop, Nat.add_zero] at hzero
  have hlt : k < ts.length := (List.getElem?_eq_some_iff.mp hfirst).1
  have hsetting : (requested (asks ++ [.advance role])).effective = (requested asks).effective := by
    rw [requested_concat]
    rfl
  cases ht : t.isEnd with
  | true =>
    have hone := length_eq_of_isEnd hsingle hfirst ht
    have hend := (ended_iff hfirst hone).mpr ht
    refine ⟨h.source, h.setting.trans hsetting.symm, k, hk, ?_, hlast, .inr ⟨by omega, hend, hone⟩⟩
    simp only [Stream.consume, ht, if_true, hdrop]
  | false =>
    have hrest : rest = ts.drop (k + 1) := by
      have htail := congrArg List.tail hbuffer
      rw [hdrop, List.tail_drop] at htail
      exact htail.symm
    refine ⟨h.source, h.setting.trans hsetting.symm, k + 1, hlt, ?_, ?_, ?_⟩
    · simp only [Stream.consume, ht, Bool.false_eq_true, if_false, hrest]
    · intro hend
      by_contra hge
      -- the token would be the last one, and so the end
      rw [ended_iff hfirst (by omega), ht] at hend
      cases hend
    · rcases htaken with rfl | ⟨_, hend, hone⟩
      · exact .inl hcount.symm
      · rw [ended_iff hfirst hone, ht] at hend
        cases hend

/-- Each answer keeps the list of tokens. -/
theorem Tracks.answer (h : Tracks source asks gs ts s.cursor) (hs : Holds source asks ts s)
    {t : Option Token} (hanswer : ask.answer s = .ok t s') :
    ∃ gs' fresh, Tracks source (asks ++ [ask]) gs' (ts ++ fresh) s'.cursor ∧
      Holds source (asks ++ [ask]) (ts ++ fresh) s' ∧ t = expected (ts ++ fresh) asks ask ∧
      (Ended ts → fresh = []) := by
  cases ask with
  | peek n =>
    rcases map_eq_ok hanswer with ⟨u, hpeek, rfl⟩
    rcases Reading.peekAt_eq_ok hpeek with ⟨fresh, hfills, hle, hfull, hu⟩
    have hholds := hs.fills hfills
    refine ⟨_, fresh, h.concat hs (.peek n) hfills hle hfull, ?_, (hholds.tokenAt_buffer hu).symm,
      hs.closed hfills⟩
    refine ⟨hholds.source, ?_, ?_⟩
    · rw [requested_concat]
      exact hholds.setting
    · rw [taken_concat]
      exact hholds.buffer
  | advance role =>
    rcases map_eq_ok hanswer with ⟨u, hadvance, rfl⟩
    rcases Reading.advanceAs_eq_ok hadvance with ⟨s₁, rest, hpeek, hbuffer, rfl⟩
    rcases Reading.peekAt_eq_ok hpeek with ⟨fresh, hfills, hle, hfull, hu⟩
    have hholds := hs.fills hfills
    have htracks := h.concat hs (.advance role) hfills hle hfull
    exact ⟨_, fresh, htracks, hholds.consume htracks.single hbuffer,
      (hholds.tokenAt_buffer hu).symm, hs.closed hfills⟩
  | request setting =>
    rcases of_bind hanswer with ⟨_, _, ⟨⟩, ⟨⟩⟩
    have hnothing : s.Fills [] s := ⟨rfl, rfl, rfl, (List.append_nil _).symm, by simp, by simp⟩
    have htracks :=
      h.concat hs (.request setting) hnothing (Nat.zero_le _) (.inl (Nat.zero_sub _).symm)
    refine ⟨_, [], htracks, ?_, rfl, fun _ => rfl⟩
    rw [List.append_nil]
    refine ⟨hs.source, ?_, ?_⟩
    · rw [requested_concat]
      rfl
    · rw [taken_concat]
      exact hs.buffer

end Ask

end Sm83
