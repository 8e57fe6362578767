import Sm83.Proofs.Token.Ask

/-!
# Looking ahead

Whatever is asked of a stream, what is seen and what is consumed are the members of one list of
tokens, and each of them was read under the mode that had been asked for last when it was first
needed.
-/

namespace Sm83

namespace Ask

variable {source : Source} {asks : List Ask} {ask : Ask} {gs : List Setting} {ts fresh : List Token}
  {c c' : Cursor} {s s' : Stream} {t : Token}

variable {k : Nat}

theorem reaches_of_lt_taken (h : k < taken asks) : Reaches asks k := by
  induction asks using List.reverseRecOn with
  | nil => cases h
  | append_singleton asks ask ih =>
    rw [reaches_concat]
    rw [taken_concat] at h
    cases ask with
    | peek n => exact .inl (ih h)
    | request setting => exact .inl (ih h)
    | advance role => exact .inr h

theorem Tracks.tokenAt_append (h : Tracks source asks gs ts c) (hclosed : Ended ts → fresh = [])
    (hk : Reaches asks k) : tokenAt (ts ++ fresh) k = tokenAt ts k := by
  rcases h.complete k hk with hlt | hend
  · rw [tokenAt_of_lt hlt, tokenAt_of_lt (by rw [List.length_append]; omega),
      List.getElem?_append_left hlt]
  · rw [hclosed hend, List.append_nil]

theorem consumed_concat {answers : List (Option Token)} (h : answers.length = asks.length)
    (t : Option Token) :
    consumed (asks ++ [ask]) (answers ++ [t]) =
      consumed asks answers ++ if ask.isAdvance then [t] else [] := by
  rw [consumed, consumed, List.zip_append h.symm, List.filter_append, List.map_append]
  cases ask with
  | peek n => rfl
  | advance role => rfl
  | request setting => rfl

/-- The tokens behind any number of asks: every answer is one of them, and they are consumed in
their order. -/
theorem exists_tracks {answers : List (Option Token)}
    (h : Ask.answers asks (.ofSource source) = .ok answers s) :
    ∃ gs ts, Tracks source asks gs ts s.cursor ∧ Holds source asks ts s ∧
      (∀ before ask after, asks = before ++ ask :: after →
        answers[before.length]? = some (expected ts before ask)) ∧
      consumed asks answers = (List.range (taken asks)).map (tokenAt ts) := by
  induction asks using List.reverseRecOn generalizing answers s with
  | nil =>
    cases h
    refine ⟨[], [], tracks_nil source, holds_nil source, ?_, rfl⟩
    intro before ask after heq
    simp at heq
  | append_singleton asks ask ih =>
    rcases answers_append.mp h with ⟨us, u, vs, hus, hvs, rfl⟩
    rcases answers_cons.mp hvs with ⟨t, _, _, ht, ⟨⟩, rfl⟩
    rcases ih hus with ⟨gs, ts, htracks, hholds, hanswers, hconsumed⟩
    rcases htracks.answer hholds ht with ⟨gs', fresh, htracks', hholds', hexpected, hclosed⟩
    have hlength := length_answers hus
    have hsame : ∀ k, Reaches asks k → tokenAt (ts ++ fresh) k = tokenAt ts k :=
      fun k hk => htracks.tokenAt_append hclosed hk
    refine ⟨gs', ts ++ fresh, htracks', hholds', ?_, ?_⟩
    · intro before first after heq
      rcases concat_cases heq with ⟨rfl, rfl⟩ | ⟨after', hasks⟩
      · rw [List.getElem?_append_right (by omega), hlength, Nat.sub_self, hexpected]
        rfl
      · have hshort : before.length < us.length := by
          rw [hlength, hasks, List.length_append, List.length_cons]
          omega
        rw [List.getElem?_append_left hshort, hanswers before first after' hasks]
        -- an answer given before is the same among all that is read now
        have hreaches : ∀ k < taken before + first.need, Reaches asks k :=
          fun k hk => ⟨before, first, after', hasks, hk⟩
        cases first with
        | peek n => exact congrArg some (hsame _ (hreaches _ (by simp [need]))).symm
        | advance role => exact congrArg some (hsame _ (hreaches _ (by simp [need]))).symm
        | request setting => rfl
    · have hold : (List.range (taken asks)).map (tokenAt (ts ++ fresh)) =
          (List.range (taken asks)).map (tokenAt ts) := by
        apply List.map_congr_left
        intro k hk
        exact hsame k (reaches_of_lt_taken (List.mem_range.mp hk))
      rw [consumed_concat hlength, hconsumed, taken_concat]
      cases ask with
      | peek n => simp [isAdvance, hold]
      | request setting => simp [isAdvance, hold]
      | advance role =>
        rw [isAdvance, if_pos rfl, if_pos rfl, List.range_succ, List.map_append, hold, hexpected]
        rfl

theorem advance_of_reads {rest : List Token} (role : Role)
    (hreads : s.cursor.reads s.source (List.replicate fresh.length s.register.commit.current) =
      .ok (fresh, c'))
    (hnext : s.buffer ++ fresh = t :: rest) : ∃ s' fresh', Reading.advanceAs role s = .ok t s' ∧
      s'.cursor.reads s'.source (List.replicate fresh'.length s'.register.commit.current) =
        .ok (fresh', c') ∧
      s'.buffer ++ fresh' = if t.isEnd then t :: rest else rest := by
  cases hbuffer : s.buffer with
  | cons first buffer =>
    rw [hbuffer, List.cons_append] at hnext
    cases hnext
    refine ⟨_, fresh, Reading.advanceAs_buffered role hbuffer, hreads, ?_⟩
    cases hend : t.isEnd with
    | true => simp [Stream.consume, hend, hbuffer]
    | false => simp [Stream.consume, hend]
  | nil =>
    rw [hbuffer, List.nil_append] at hnext
    subst hnext
    rcases Cursor.reads_cons_iff.mp hreads with ⟨t, c₁, rest, hlex, hrest, ⟨⟩⟩
    refine ⟨_, rest, Reading.advanceAs_of_peek role (Reading.peek_fresh hbuffer hlex) rfl, ?_, ?_⟩
    · have hcommit := Register.commit_commit s.register
      simp only [Stream.consume, hcommit]
      exact hrest
    · cases hend : t.isEnd with
      | true => simp [Stream.consume, hend]
      | false => simp [Stream.consume, hend]

/-- Tokens read ahead can be consumed. -/
theorem answers_advances {roles : List Role}
    (hreads : s.cursor.reads s.source (List.replicate fresh.length s.register.commit.current) =
      .ok (fresh, c'))
    (hlong : roles.length ≤ (s.buffer ++ fresh).length ∨ Ended (s.buffer ++ fresh)) :
    ∃ vs v, answers (roles.map .advance) s = .ok vs v := by
  induction roles generalizing s fresh with
  | nil => exact ⟨[], s, rfl⟩
  | cons role roles ih =>
    cases hall : s.buffer ++ fresh with
    | nil =>
      rw [hall] at hlong
      rcases hlong with hlong | hlong <;> cases hlong
    | cons t rest =>
      rcases advance_of_reads role hreads hall with ⟨s₁, fresh₁, hadvance, hreads₁, hrest⟩
      have hfirst : (Ask.advance role).answer s = .ok (some t) s₁ :=
        Outcome.run_bind_eq_ok_iff.mpr ⟨t, s₁, hadvance, rfl⟩
      have hlong₁ : roles.length ≤ (s₁.buffer ++ fresh₁).length ∨ Ended (s₁.buffer ++ fresh₁) := by
        rw [hall, List.length_cons, List.length_cons] at hlong
        rw [hrest]
        split
        · -- the end stays
          refine hlong.imp_left fun hle => ?_
          rw [List.length_cons]
          omega
        · next hopen =>
          refine hlong.imp Nat.le_of_succ_le_succ fun hended => ?_
          cases rest with
          | nil => exact absurd ((ended_iff (k := 0) rfl rfl).mp hended) hopen
          | cons u rest => exact (ended_append [t] (by simp)).mp hended
      rcases ih hreads₁ hlong₁ with ⟨vs, v, hvs⟩
      exact ⟨some t :: vs, v, answers_cons.mpr ⟨some t, s₁, vs, hfirst, hvs, rfl⟩⟩

theorem advances_of_peek {n : Nat} (hpeek : Reading.peekAt n s = .ok t s') {roles : List Role}
    (hroles : roles.length = n + 1) : ∃ vs v, answers (roles.map .advance) s = .ok vs v := by
  rcases Reading.peekAt_eq_ok hpeek with ⟨fresh, hfills, _, hfull, _⟩
  apply answers_advances hfills.reads
  rcases hfull with hfull | hend
  · refine .inl ?_
    rw [List.length_append]
    omega
  · exact .inr (hfills.buffer ▸ hend)

/-- Among the asks is no request. -/
def Quiet (asks : List Ask) : Prop :=
  ∀ ask ∈ asks, ask.setting? = none

variable {before after after' : List Ask}

theorem Quiet.requested_append (h : Quiet after) (asks : List Ask) :
    requested (asks ++ after) = requested asks := by
  induction after using List.reverseRecOn with
  | nil => rw [List.append_nil]
  | append_singleton after ask ih =>
    have hask := h ask (by simp)
    rw [← List.append_assoc, requested_concat, hask, Option.getD_none]
    exact ih fun a ha => h a (List.mem_append_left _ ha)

theorem exists_first_reaches (h : Reaches asks k) :
    ∃ before ask after, asks = before ++ ask :: after ∧ ¬ Reaches before k ∧
      Reaches (before ++ [ask]) k := by
  induction asks using List.reverseRecOn with
  | nil => exact absurd h (not_reaches_nil k)
  | append_singleton asks ask ih =>
    by_cases hasks : Reaches asks k
    · rcases ih hasks with ⟨before, first, after, rfl, hnot, hfirst⟩
      exact ⟨before, first, after ++ [ask], by simp, hnot, hfirst⟩
    · exact ⟨asks, ask, [], rfl, hasks, h⟩

theorem Tracks.setting_of_quiet (h : Tracks source (before ++ after) gs ts c) (hquiet : Quiet after)
    {g : Setting} (hnot : ¬ Reaches before k) (hg : gs[k]? = some g) :
    g = (requested before).effective := by
  have hk : k < ts.length := by
    rw [← h.length_eq]
    exact (List.getElem?_eq_some_iff.mp hg).1
  rcases exists_first_reaches (h.needed k hk) with ⟨b, ask, d, heq, hb, hask⟩
  rw [h.settings b ask d k g heq hb hask hg]
  rcases List.append_eq_append_iff.mp heq with ⟨more, rfl, hmore⟩ | ⟨more, rfl, hmore⟩
  · -- the token is first needed behind what was asked before
    have hquiet' : Quiet more := fun a ha => hquiet a (hmore ▸ List.mem_append_left _ ha)
    rw [hquiet'.requested_append]
  · cases more with
    | nil => rw [List.append_nil]
    | cons first more =>
      cases hmore
      refine absurd ?_ hnot
      rw [List.append_cons]
      exact hask.append more

/-- Quiet continuations meet the same token. -/
theorem Tracks.tokenAt_agree {gs' : List Setting} {ts' : List Token}
    (h : Tracks source (before ++ after) gs ts c) (h' : Tracks source (before ++ after') gs' ts' c')
    (hquiet : Quiet after) (hquiet' : Quiet after') (hk : Reaches (before ++ after) k)
    (hk' : Reaches (before ++ after') k) : tokenAt ts k = tokenAt ts' k := by
  have hsettings : ∀ (j : Nat) (g g' : Setting), gs[j]? = some g → gs'[j]? = some g' → g = g' := by
    intro j g g' hg hg'
    by_cases hbefore : Reaches before j
    · rcases exists_first_reaches hbefore with ⟨b, ask, d, rfl, hb, hask⟩
      rw [h.settings b ask (d ++ after) j g (by simp) hb hask hg,
        h'.settings b ask (d ++ after') j g' (by simp) hb hask hg']
    · rw [h.setting_of_quiet hquiet hbefore hg, h'.setting_of_quiet hquiet' hbefore hg']
  have hsame : ∀ (j : Nat) (t u : Token), ts[j]? = some t → ts'[j]? = some u → t = u :=
    fun j t u ht hu => Cursor.reads_agree h.reads h'.reads hsettings ht hu
  -- a list that is too short has ended, and then the other one is as short
  have hle : Ended ts → ts'.length ≤ ts.length :=
    fun hend => length_le_of_ended hsame hend h'.single
  have hge : Ended ts' → ts.length ≤ ts'.length :=
    fun hend => length_le_of_ended (fun j t u ht hu => (hsame j u t hu ht).symm) hend h.single
  by_cases hboth : k < ts.length ∧ k < ts'.length
  · rcases hboth with ⟨hlt, hlt'⟩
    rw [tokenAt_of_lt hlt, tokenAt_of_lt hlt', List.getElem?_eq_getElem hlt,
      List.getElem?_eq_getElem hlt']
    exact congrArg some (hsame k _ _ (List.getElem?_eq_getElem hlt) (List.getElem?_eq_getElem hlt'))
  · have hlength : ts.length = ts'.length := by
      rcases h.complete k hk with hlt | hend
      · rcases h'.complete k hk' with hlt' | hend'
        · exact absurd ⟨hlt, hlt'⟩ hboth
        · have := hge hend'
          omega
      · have hshort := hle hend
        rcases h'.complete k hk' with hlt' | hend'
        · omega
        · exact Nat.le_antisymm (hge hend') hshort
    have hlists : ts = ts' := List.ext_getElem hlength fun j hj hj' =>
      hsame j _ _ (List.getElem?_eq_getElem hj) (List.getElem?_eq_getElem hj')
    rw [hlists]

/-- A token seen ahead is consumed there. -/
theorem Tracks.getLast?_of_peek (h : Tracks source before gs ts s.cursor)
    (hs : Holds source before ts s) {us : List (Option Token)}
    (hbefore : answers before (.ofSource source) = .ok us s) {n : Nat}
    (hpeek : Reading.peekAt n s = .ok t s') {more : List Ask} {role : Role} (hquiet : Quiet more)
    (htaken : taken more = n) {vs : List (Option Token)} {v : Stream}
    (hmore : answers (more ++ [.advance role]) s = .ok vs v) : vs.getLast? = some (some t) := by
  have hanswer : (Ask.peek n).answer s = .ok (some t) s' :=
    Outcome.run_bind_eq_ok_iff.mpr ⟨t, s', hpeek, rfl⟩
  rcases h.answer hs hanswer with ⟨gs₁, fresh, hpeeked, _, hseen, _⟩
  have hall : answers (before ++ (more ++ [.advance role])) (.ofSource source) = .ok (us ++ vs) v :=
    answers_append.mpr ⟨us, s, vs, hbefore, hmore, rfl⟩
  rcases exists_tracks hall with ⟨gs₂, ts₂, htaken₂, _, hanswers, _⟩
  have hcount : taken (before ++ more) = taken before + n := by
    rw [← htaken]
    exact List.countP_append
  -- the last answer is the token at the same place of the other list
  have hlast := hanswers (before ++ more) (.advance role) [] (by simp)
  rcases answers_append.mp hmore with ⟨vs', v', ws, hvs', hws, rfl⟩
  rcases answers_cons.mp hws with ⟨x, _, _, _, ⟨⟩, rfl⟩
  have hplace : (before ++ more).length = (us ++ vs').length := by
    rw [List.length_append, List.length_append, length_answers hbefore, length_answers hvs']
  rw [hplace, ← List.append_assoc, List.getElem?_concat_length] at hlast
  rw [List.getLast?_concat, hlast, expected, hcount, hseen]
  have hquiet₁ : Quiet [.peek n] := by
    intro ask hask
    cases List.mem_singleton.mp hask
    rfl
  have hquiet₂ : Quiet (more ++ [.advance role]) := by
    intro ask hask
    rcases List.mem_append.mp hask with hask | hask
    · exact hquiet ask hask
    · cases List.mem_singleton.mp hask
      rfl
  refine congrArg some (htaken₂.tokenAt_agree hpeeked hquiet₂ hquiet₁ ?_ ?_)
  · rw [← List.append_assoc, reaches_concat, hcount]
    exact .inr (Nat.lt_succ_self _)
  · rw [reaches_concat]
    exact .inr (Nat.lt_succ_self _)

/-- Whatever is looked at, consumed and requested, in any order, one list of tokens is behind it,
each read under the setting requested last when the token was first needed. The tokens are consumed
in their order, the end again and again, and a token seen ahead is the one consumed there if nothing
is requested in between. -/
theorem lookahead_transparent {source : Source} {asks : List Ask} {answers : List (Option Token)}
    {s : Stream} (h : Ask.answers asks (.ofSource source) = .ok answers s) :
    ∃ gs ts, (Cursor.start source.text).reads source gs = .ok (ts, s.cursor) ∧
      (∀ t ∈ ts.dropLast, t.isEnd = false) ∧
      (∀ k, (k < ts.length → Reaches asks k) ∧ (Reaches asks k → k < ts.length ∨ Ended ts)) ∧
      (∀ before ask after k t, asks = before ++ ask :: after → ¬ Reaches before k →
        Reaches (before ++ [ask]) k → ts[k]? = some t →
          gs[k]? = some (requested before).effective ∧ t.mode = (requested before).mode) ∧
      consumed asks answers = (List.range (taken asks)).map (tokenAt ts) ∧
      (∀ before n after us u, asks = before ++ .peek n :: after →
        Ask.answers before (.ofSource source) = .ok us u →
          ∃ t, answers[before.length]? = some (some t) ∧ tokenAt ts (taken before + n) = some t ∧
            (∀ roles : List Role, roles.length = n + 1 →
              ∃ vs v, Ask.answers (roles.map .advance) u = .ok vs v ∧ vs.getLast? = some (some t)) ∧
            (∀ more role vs v, Quiet more → taken more = n →
              Ask.answers (more ++ [.advance role]) u = .ok vs v →
                vs.getLast? = some (some t))) := by
  rcases exists_tracks h with ⟨gs, ts, htracks, _, hanswers, hconsumed⟩
  refine ⟨gs, ts, htracks.reads, htracks.single, fun k => ⟨htracks.needed k, htracks.complete k⟩,
    ?_, hconsumed, ?_⟩
  · intro before ask after k t heq hnot hfirst ht
    have hk : k < gs.length := by
      rw [htracks.length_eq]
      exact (List.getElem?_eq_some_iff.mp ht).1
    have hg : gs[k]? = some gs[k] := List.getElem?_eq_getElem hk
    have hsetting := htracks.settings before ask after k gs[k] heq hnot hfirst hg
    refine ⟨hg.trans (congrArg some hsetting), ?_⟩
    rw [(Cursor.reads_modes htracks.reads).2 k t gs[k] ht hg, hsetting, Setting.mode_effective]
  · -- the run is cut at the look ahead, and its first part is tracked by itself
    intro before n after us u heq hbefore
    subst heq
    rcases answers_append.mp h with ⟨us', u', vs', hbefore', hrest, rfl⟩
    cases hbefore.symm.trans hbefore'
    rcases answers_cons.mp hrest with ⟨t?, u₁, vs₁, hpeek, _, rfl⟩
    rcases map_eq_ok hpeek with ⟨t, hpeek', rfl⟩
    rcases exists_tracks hbefore with ⟨gs₀, ts₀, htracks₀, hholds₀, _, _⟩
    refine ⟨t, ?_, ?_, ?_, ?_⟩
    · rw [← length_answers hbefore, List.getElem?_append_right (Nat.le_refl _), Nat.sub_self]
      rfl
    · have hanswer := hanswers before (.peek n) after rfl
      rw [← length_answers hbefore, List.getElem?_append_right (Nat.le_refl _),
        Nat.sub_self] at hanswer
      exact (Option.some.inj hanswer).symm
    · intro roles hroles
      rcases advances_of_peek hpeek' hroles with ⟨vs, v, hvs⟩
      refine ⟨vs, v, hvs, ?_⟩
      rcases List.eq_nil_or_concat roles with rfl | ⟨front, role, rfl⟩
      · cases hroles
      · rw [List.concat_eq_append, List.map_append] at hvs
        refine htracks₀.getLast?_of_peek hholds₀ hbefore hpeek' (by simp [Quiet, setting?]) ?_ hvs
        have hall : (front.map Ask.advance).all isAdvance = true := by simp [isAdvance]
        simpa [taken, List.countP_eq_length.mpr (List.all_eq_true.mp hall)] using hroles
    · intro more role vs v hquiet htaken hmore
      exact htracks₀.getLast?_of_peek hholds₀ hbefore hpeek' hquiet htaken hmore

/-- A name is seen behind a line end before anything is requested, and so stays a name. The argument
behind it is read under the last of three requests. Behind it only the end is seen, and consumed
twice. -/
theorem lookahead_transparent_between_requests :
    ∃ asks answers s, Ask.answers asks (.ofSource (.ofText "\nx 1+" "<input>")) = .ok answers s ∧
      answers.map (Option.map Token.lexeme) = [some (.name "x"), none, none, none, some .newline,
        some (.name "x"), some (.rawText "1+"), some .eof, some (.rawText "1+"), some .eof,
          some .eof] ∧
      ∃ ts, (∀ t ∈ ts.dropLast, t.isEnd = false) ∧
        consumed asks answers = (List.range 5).map (tokenAt ts) := by
  let asks : List Ask := [.peek 1, .request .arguments, .request .normal, .request .arguments,
    .advance .code, .advance .code, .peek 0, .peek 5, .advance .argument, .advance .code,
    .advance .code]
  have hrun : Outcome.endsWith (fun answers _ => answers.map (Option.map Token.lexeme) ==
      [some (.name "x"), none, none, none, some .newline, some (.name "x"), some (.rawText "1+"),
        some .eof, some (.rawText "1+"), some .eof, some .eof])
      (Ask.answers asks (.ofSource (.ofText "\nx 1+" "<input>"))) = true := by decide +kernel
  rcases Outcome.endsWith_iff.mp hrun with ⟨answers, s, hanswers, hseen⟩
  rcases lookahead_transparent hanswers with ⟨_, ts, _, hsingle, _, _, hconsumed, _⟩
  exact ⟨asks, answers, s, hanswers, eq_of_beq hseen, ts, hsingle, hconsumed⟩

end Ask

end Sm83
