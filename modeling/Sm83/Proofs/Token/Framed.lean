import Sm83.Proofs.Follow
import Sm83.Proofs.Token.Onward

/-!
# Reading a source in a frame

A source is read on its own, and as a part of a larger one. As long as the source lasts, the stream
of the larger one has the same tokens read ahead, and its cursor is at the same place in its part of
the text.
-/

namespace Sm83

variable {t : Token}

namespace Reading

variable {s : Stream} {t : Token}

theorem peekAt_buffered {n : Nat} (h : s.buffer[n]? = some t) : peekAt n s = .ok t s := by
  have hn : n < s.buffer.length := (List.getElem?_eq_some_iff.mp h).1
  show (get >>= fun u : Stream => fill (n + 1 - u.buffer.length) >>= fun _ => _) s = _
  have hfill : fill 0 s = .ok () s := rfl
  rw [bind_of_ok (get_run s), Nat.sub_eq_zero_of_le hn, bind_of_ok hfill, bind_of_ok (get_run s), h]
  rfl

theorem peekAt_fresh {n : Nat} (hlength : s.buffer.length = n) (hopen : s.atEnd = false) :
    peekAt n s =
      match s.cursor.next s.source s.register.commit.current with
      | .ok (t, c) => .ok t (s.read t c)
      | .error f => .error f { s with register := s.register.commit } := by
  have hone : n + 1 - s.buffer.length = 1 := by omega
  show (get >>= fun u : Stream => fill (n + 1 - u.buffer.length) >>= fun _ => _) s = _
  rw [bind_of_ok (get_run s), hone]
  cases hnext : s.cursor.next s.source s.register.commit.current with
  | ok r =>
    rcases r with ⟨t, c⟩
    have hfill : fill 1 s = .ok () (s.read t c) := by
      show (get >>= fun u : Stream => if !u.atEnd then lex >>= fun _ => fill 0 else pure ()) s = _
      rw [bind_of_ok (get_run s), hopen]
      show (lex >>= fun _ => fill 0) s = _
      rw [bind_of_ok (lex_fresh hnext)]
      rfl
    have hget : (s.read t c).buffer[n]? = some t := by
      simp [Stream.read, ← hlength]
    rw [bind_of_ok hfill, bind_of_ok (get_run _), hget]
    rfl
  | error f =>
    have hfill : fill 1 s = .error f { s with register := s.register.commit } := by
      show (get >>= fun u : Stream => if !u.atEnd then lex >>= fun _ => fill 0 else pure ()) s = _
      rw [bind_of_ok (get_run s), hopen]
      show EStateM.bind lex (fun _ => fill 0) s = _
      simp only [EStateM.bind, lex, hnext]
    show EStateM.bind (fill 1) _ s = _
    simp only [EStateM.bind, hfill]

variable (role : Role)

theorem advanceAs_of_peek {s' : Stream} {rest : List Token} (hpeek : peek s = .ok t s')
    (h : s'.buffer = t :: rest) : advanceAs role s = .ok t (s'.consume role t rest) := by
  show (peek >>= fun t => _) s = _
  rw [bind_of_ok hpeek]
  show EStateM.Result.ok t _ = _
  simp only [Stream.consume, h, List.tail_cons]

theorem advanceAs_buffered {rest : List Token} (h : s.buffer = t :: rest) :
    advanceAs role s = .ok t (s.consume role t rest) :=
  advanceAs_of_peek role (peek_buffered h) h

theorem advanceAs_of_peek_error {s' : Stream} {f : Failure} (hpeek : peek s = .error f s') :
    advanceAs role s = .error f s' := by
  show EStateM.bind peek _ s = _
  simp only [EStateM.bind, hpeek]

end Reading

/-- The streams of a source on its own and of the larger one. -/
structure Stream.Framed (e : Frame) (s s' : Stream) : Prop where
  file : s.source.file = e.file ∧ s'.source.file = e.file
  register : s'.register.commit = s.register.commit
  buffer : s'.buffer = s.buffer.map e.token
  cursor : s'.cursor = if s.atEnd then e.past s.cursor else e.cursor s.cursor
  plain : e.after.isSome → EndsPlain e.text

theorem Token.isEnd_of_test (f : Lexeme → Bool) (hf : f .eof = false) (h : f t.lexeme = true) :
    t.isEnd = false := by
  have hne : t.lexeme ≠ .eof := by
    intro heof
    rw [heof, hf] at h
    cases h
  simpa [Token.isEnd] using hne

theorem Token.isEnd_of_not_endsLine (h : t.lexeme.endsLine = false) : t.isEnd = false :=
  isEnd_of_test (fun l => !l.endsLine) rfl (by simp [h])

theorem Stream.atEnd_eq_false_of_open {s : Stream} (h : ∀ t ∈ s.buffer, t.lexeme.endsLine = false) :
    s.atEnd = false := by
  unfold atEnd
  cases hlast : s.buffer.getLast? with
  | none => rfl
  | some u => exact Token.isEnd_of_not_endsLine (h u (List.mem_of_getLast? hlast))

theorem Token.isEnd_of_spells {α : Type} {a : α} (f : Lexeme → Option α) (hf : f .eof = none)
    (h : f t.lexeme = some a) : t.isEnd = false :=
  isEnd_of_test (fun l => (f l).isSome) (by simp [hf]) (by simp [h])

theorem Frame.lexeme_congr {α : Type} (e : Frame) (f : Lexeme → α) (h : f .eof = f .newline)
    (t : Token) : f (e.token t).lexeme = f t.lexeme := by
  by_cases ht : t.lexeme = .eof
  · rw [ht]
    show f (e.lexeme t.lexeme) = _
    rw [ht, lexeme]
    split
    · exact h.symm
    · rfl
  · show f (e.lexeme t.lexeme) = _
    rw [lexeme_of_ne_eof ht]

theorem Frame.lexeme_cases (e : Frame) (t : Token) : (e.token t).lexeme = t.lexeme ∨
    t.lexeme = .eof ∧ (e.token t).lexeme = .newline ∧ e.after.isSome = true := by
  by_cases ht : t.lexeme = .eof
  · cases hafter : e.after with
    | none =>
      left
      simp [token, lexeme, hafter]
    | some text =>
      right
      simp [token, lexeme, hafter, ht]
  · left
    exact lexeme_of_ne_eof ht

theorem Frame.lexeme_token_of_not_isEnd {e : Frame} (ht : t.isEnd = false) :
    (e.token t).lexeme = t.lexeme := by
  have hne : t.lexeme ≠ .eof := by simpa [Token.isEnd] using ht
  exact lexeme_of_ne_eof hne

theorem Frame.isEnd_of_token {e : Frame} (h : (e.token t).isEnd = true) : t.isEnd = true := by
  by_cases ht : t.lexeme = .eof
  · simp [Token.isEnd, ht]
  · simp [Token.isEnd, Frame.token, Frame.lexeme_of_ne_eof ht, ht] at h

namespace Stream.Framed

variable {e : Frame} {s s' : Stream} {t : Token} {c : Cursor}

theorem length_eq (h : Framed e s s') : s'.buffer.length = s.buffer.length := by
  rw [h.buffer, List.length_map]

theorem atEnd_eq_false (h : Framed e s s') (hopen : s.atEnd = false) : s'.atEnd = false := by
  rw [Bool.eq_false_iff] at hopen ⊢
  intro hend
  apply hopen
  unfold atEnd at hend ⊢
  rw [h.buffer, List.getLast?_map] at hend
  cases hlast : s.buffer.getLast? with
  | none =>
    rw [hlast] at hend
    cases hend
  | some t =>
    rw [hlast] at hend
    exact Frame.isEnd_of_token hend

theorem read (h : Framed e s s') : Framed e (s.read t c) (s'.read (e.token t) (e.ahead t c)) := by
  refine ⟨h.file, ?_, ?_, ?_, h.plain⟩
  · exact congrArg Register.commit h.register
  · simp [Stream.read, h.buffer]
  · simp [Stream.read, atEnd, Frame.ahead]

theorem mirrors (h : Framed e s s') (hsound : s.Sound e.text) (hopen : s.atEnd = false) :
    e.Mirrors (s.cursor.next s.source s.register.commit.current)
      (s'.cursor.next s'.source s'.register.commit.current) := by
  have hcursor : s'.cursor = e.cursor s.cursor := by
    rw [h.cursor, hopen]
    rfl
  rw [hcursor, h.register]
  apply Frame.mirrors_next hsound.plain
  intro hafter
  rcases hsound.place.suffix with ⟨passed, hpassed⟩
  have hplain := h.plain hafter
  rw [← hpassed] at hplain
  exact hplain.of_append

end Stream.Framed

/-- Two streams under a setting, with less than `m` still to be consumed. Some tokens are known to
have been read ahead, and if the knowledge is `tight`, no others have been. -/
structure Reads (e : Frame) (g : Setting) (m : Nat) (tight : Bool) (ts : List Token)
    (s s' : Stream) : Prop where
  framed : Stream.Framed e s s'
  sound : s.Sound e.text
  ordered : s.Ordered
  current : s.register.commit.current = g
  left : s.left < m
  ahead : ts <+: s.buffer
  only : tight = true → s.buffer = ts

variable {e : Frame} {g : Setting} {m : Nat} {tight : Bool} {ts : List Token} {t : Token}
  {s s' : Stream}

namespace Reads

theorem start {source source' : Source} (htext : e.text = source.text)
    (hfile : source.file = e.file ∧ source'.file = e.file)
    (hcursor : Cursor.start source'.text = e.cursor (Cursor.start source.text))
    (hplain : e.after.isSome → EndsPlain source.text) :
    Reads e .normal (source.text.length + 1) true [] (.ofSource source) (.ofSource source') := by
  refine ⟨⟨hfile, rfl, rfl, hcursor, htext ▸ hplain⟩, htext ▸ Stream.sound_ofSource source,
    Stream.ordered_ofSource source, rfl, ?_, ?_, ?_⟩
  · simp [Stream.left, Stream.ofSource, Cursor.start]
  · exact List.nil_prefix
  · intro _
    rfl

theorem pos (h : Reads e g m tight ts s s') : 0 < m :=
  Nat.lt_of_le_of_lt (Nat.zero_le _) h.left

theorem mono {m' : Nat} (h : Reads e g m tight ts s s') (hm : m ≤ m') :
    Reads e g m' tight ts s s' :=
  ⟨h.framed, h.sound, h.ordered, h.current, Nat.lt_of_lt_of_le h.left hm, h.ahead, h.only⟩

theorem pred (h : Reads e g (m - 1) tight ts s s') : Reads e g m tight ts s s' :=
  h.mono (Nat.sub_le m 1)

theorem least (h : Reads e g m tight ts s s') : Reads e g (s.left + 1) tight ts s s' :=
  ⟨h.framed, h.sound, h.ordered, h.current, Nat.lt_succ_self _, h.ahead, h.only⟩

theorem forget (h : Reads e g m tight ts s s') : Reads e g m false [] s s' :=
  ⟨h.framed, h.sound, h.ordered, h.current, h.left, List.nil_prefix, by simp⟩

theorem tighten (h : Reads e g m tight [t] s s') (ht : t.lexeme.endsLine = true) :
    Reads e g m true [t] s s' := by
  have hbuffer : s.buffer = [t] := by
    rcases h.ahead with ⟨rest, hrest⟩
    cases rest with
    | nil => exact hrest.symm
    | cons u us =>
      have hopen := h.sound.single t (by simp [← hrest])
      rw [ht] at hopen
      cases hopen
  exact ⟨h.framed, h.sound, h.ordered, h.current, h.left, h.ahead, fun _ => hbuffer⟩

theorem buffer_eq (h : Reads e g m true ts s s') : s.buffer = ts :=
  h.only rfl

theorem latest?_eq (h : Reads e g m true [] s s') : s.latest? = s.previous := by
  rw [Stream.latest?, h.buffer_eq]
  rfl

theorem left_lt_bound (h : Reads e g m tight ts s s') :
    s.left + 1 < s.bound ∧ s.left + 1 < s'.bound := by
  have hfilter := List.length_filter_le (fun t : Token => !t.isEnd) s.buffer
  refine ⟨by unfold Stream.left Stream.bound; omega, ?_⟩
  have hlength := h.framed.length_eq
  have hcursor : s.cursor.rest.length ≤ s'.cursor.rest.length := by
    rw [h.framed.cursor]
    split
    · next hend =>
      rw [h.sound.ended hend]
      exact Nat.zero_le _
    · simp
  unfold Stream.left Stream.bound
  omega

/-- Consuming a token in a frame. -/
theorem consume (h : Reads e g m tight (t :: ts) s s') (ht : t.isEnd = false) :
    ∃ rest, s.buffer = t :: rest ∧ s'.buffer = e.token t :: rest.map e.token ∧
      Reads e g (m - 1) tight ts (s.consume g.role t rest)
        (s'.consume g.role (e.token t) (rest.map e.token)) := by
  rcases h.ahead with ⟨later, hlater⟩
  have hbuffer : s.buffer = t :: (ts ++ later) := hlater.symm
  have hbuffer' : s'.buffer = e.token t :: (ts ++ later).map e.token := by
    rw [h.framed.buffer, hbuffer, List.map_cons]
  have hne : t.lexeme ≠ .eof := by simpa [Token.isEnd] using ht
  have ht' : (e.token t).isEnd = false := by
    simpa [Token.isEnd, Frame.token, Frame.lexeme_of_ne_eof hne] using hne
  have hatEnd : (s.consume g.role t (ts ++ later)).atEnd = s.atEnd := by
    cases hrest : ts ++ later with
    | nil => simp [Stream.atEnd, Stream.consume, hbuffer, hrest, ht]
    | cons u us => simp [Stream.atEnd, Stream.consume, hbuffer, hrest, ht]
  have hsound := h.sound.consume hbuffer (congrArg Setting.role h.current)
  have hordered := ((Stream.Onward.of_consume g.role hbuffer).ordered h.ordered).1
  refine ⟨ts ++ later, hbuffer, hbuffer', ?_, hsound, hordered, h.current, ?_, ?_, ?_⟩
  · refine ⟨h.framed.file, h.framed.register, ?_, ?_, h.framed.plain⟩
    · simp [Stream.consume, ht, ht']
    · rw [hatEnd]
      exact h.framed.cursor
  · have hleft := Stream.left_consume hbuffer ht g.role
    have hbefore := h.left
    omega
  · simp [Stream.consume, ht]
  · intro htight
    have honly := h.only htight
    rw [hbuffer] at honly
    simpa [Stream.consume, ht] using honly

theorem request {g' : Setting} (h : Reads e g m true ts s s') (hplain : g'.Plain)
    (heffective : g'.effective = g') (hshort : ts.length ≤ 1)
    (hend : ∀ t ∈ ts, t.isEnd = true ∧ g'.role.admits t = true) :
    Reads e g' m true ts (s.request g') (s'.request g') := by
  have hbuffer := h.buffer_eq
  refine ⟨?_, ?_, ((Stream.Onward.of_request s g').ordered h.ordered).1, heffective, h.left,
    h.ahead, fun _ => hbuffer⟩
  · exact ⟨h.framed.file, rfl, h.framed.buffer, h.framed.cursor, h.framed.plain⟩
  · rw [← hbuffer] at hshort hend
    exact h.sound.request hplain heffective hshort hend

end Reads

/-- The larger stream has got past the source, which has ended without a newline. -/
structure Past (e : Frame) (s s' : Stream) : Prop where
  sound : s.Sound e.text
  current : s.register.commit.current = .normal
  ended : ∃ t, t.isEnd = true ∧ s.buffer = [t]
  after : e.after.isSome = true
  file : s.source.file = e.file ∧ s'.source.file = e.file
  register : s'.register.commit = s.register.commit
  buffer : s'.buffer = []
  cursor : s'.cursor = e.past s.cursor

/-- The streams behind a line: behind its newline, at the end of both, or with the source at its end
and the larger stream past it. -/
inductive Done (e : Frame) (m : Nat) (s s' : Stream) : Prop
  | more (reads : Reads e .normal m true [] s s') (rested : ∀ t ∈ s.previous, t.lexeme = .newline)
  | ended {t : Token} (end_t : t.isEnd = true) (alone : e.after = none)
      (reads : Reads e .normal m true [t] s s')
  | past (gone : Past e s s')

theorem Setting.plain_normal : Setting.normal.Plain := by
  intro word hword
  cases hword

theorem Role.admits_code_of_isEnd (ht : t.isEnd = true) : Role.code.admits t = true := by
  simp [Role.admits, ht]

theorem Role.isEnd_of_admits_block (ht : Role.block.admits t = true) : t.isEnd = false := by
  cases hl : t.lexeme with
  | rawBlock text => simp [Token.isEnd, hl]
  | _ => simp [Role.admits, hl] at ht

theorem Done.kept (h : Done e m s s') :
    s.Sound e.text ∧ s.source.file = e.file ∧ s'.source.file = e.file := by
  cases h with
  | more h _ => exact ⟨h.sound, h.framed.file⟩
  | ended _ _ h => exact ⟨h.sound, h.framed.file⟩
  | past h => exact ⟨h.sound, h.file⟩

theorem Done.mono {m' : Nat} (h : Done e m s s') (hm : m ≤ m') : Done e m' s s' := by
  cases h with
  | more h hrested => exact .more (h.mono hm) hrested
  | ended ht hnone h => exact .ended ht hnone (h.mono hm)
  | past h => exact .past h

namespace Frame

theorem token_of_none (h : e.after = none) (ht : t.isEnd = true) : (e.token t).isEnd = true := by
  simpa [Token.isEnd, token, lexeme, h] using ht

theorem lexeme_token_of_isSome (h : e.after.isSome = true) (ht : t.isEnd = true) :
    (e.token t).lexeme = .newline := by
  have heof : t.lexeme = .eof := by simpa [Token.isEnd] using ht
  simp [token, lexeme, h, heof]

end Frame

namespace Reads

theorem consume_end (h : Reads e g m true [t] s s') (ht : t.isEnd = true) (hnone : e.after = none) :
    Reads e g m true [t] (s.consume g.role t []) (s'.consume g.role (e.token t) []) := by
  have ht' := Frame.token_of_none hnone ht
  have hsame : (s.consume g.role t []).buffer = s.buffer := by simp [Stream.consume, ht]
  have hsame' : (s'.consume g.role (e.token t) []).buffer = s'.buffer := by
    simp [Stream.consume, ht']
  refine ⟨⟨h.framed.file, h.framed.register, ?_, ?_, h.framed.plain⟩,
    h.sound.consume h.buffer_eq (congrArg Setting.role h.current),
    ((Stream.Onward.of_consume g.role h.buffer_eq).ordered h.ordered).1, h.current, ?_, ?_, ?_⟩
  · rw [hsame, hsame', h.framed.buffer]
  · unfold Stream.atEnd
    rw [hsame]
    exact h.framed.cursor
  · unfold Stream.left
    rw [hsame]
    exact h.left
  · rw [hsame]
    exact h.ahead
  · rw [hsame]
    exact h.only

theorem past (h : Reads e .normal m true [t] s s') (ht : t.isEnd = true)
    (hafter : e.after.isSome = true) : Past e s (s'.consume .code (e.token t) []) := by
  have hlexeme := Frame.lexeme_token_of_isSome hafter ht
  have hatEnd : s.atEnd = true := by simp [Stream.atEnd, h.buffer_eq, ht]
  have hcursor := h.framed.cursor
  rw [hatEnd, if_pos rfl] at hcursor
  refine ⟨h.sound, h.current, ⟨t, ht, h.buffer_eq⟩, hafter, h.framed.file, h.framed.register, ?_,
    hcursor⟩
  simp [Stream.consume, Token.isEnd, hlexeme]

/-- Consuming the end of a line in a frame. -/
theorem finish (h : Reads e g m true [t] s s') (ht : t.lexeme.endsLine = true) :
    Done e m ((s.consume g.role t []).request .normal)
      ((s'.consume g.role (e.token t) []).request .normal) := by
  cases hend : t.isEnd with
  | false =>
    rcases h.consume hend with ⟨rest, hbuffer, _, hreads⟩
    rw [h.buffer_eq] at hbuffer
    cases hbuffer
    have hnormal := hreads.request Setting.plain_normal rfl (by simp) (by simp)
    have hnewline : t.lexeme = .newline := by
      cases hl : t.lexeme with
      | newline => rfl
      | eof => simp [Token.isEnd, hl] at hend
      | _ =>
        rw [hl] at ht
        cases ht
    exact .more hnormal.pred fun u hu => Option.some.inj hu ▸ hnewline
  | true =>
    have honly : ∀ u ∈ [t], u.isEnd = true ∧ Setting.normal.role.admits u = true := by
      intro u hu
      rw [List.mem_singleton.mp hu]
      exact ⟨hend, Role.admits_code_of_isEnd hend⟩
    cases hafter : e.after with
    | none =>
      have hsame := h.consume_end hend hafter
      exact .ended hend hafter (hsame.request Setting.plain_normal rfl (by simp) honly)
    | some text =>
      have hsome : e.after.isSome = true := by simp [hafter]
      have hlexeme := Frame.lexeme_token_of_isSome hsome hend
      have hsame : (s.consume g.role t []).buffer = [t] := by
        simp [Stream.consume, hend, h.buffer_eq]
      have hatEnd : s.atEnd = true := by simp [Stream.atEnd, h.buffer_eq, hend]
      have hcursor := h.framed.cursor
      rw [hatEnd, if_pos rfl] at hcursor
      have hsound : ((s.consume g.role t []).request .normal).Sound e.text := by
        have hconsume := h.sound.consume h.buffer_eq (congrArg Setting.role h.current)
        refine hconsume.request Setting.plain_normal rfl ?_ ?_
        · simp [hsame]
        · rw [hsame]
          exact honly
      refine .past ⟨hsound, rfl, ⟨t, hend, hsame⟩, hsome, h.framed.file, rfl, ?_, hcursor⟩
      simp [Stream.consume, Stream.request, Token.isEnd, hlexeme]

end Reads

/-- The stream fails, or it has come upon a block without an end where `K` holds of it. -/
def Stream.Halts (text : List Char) (closing : String) (K : Stream → Prop) (f : Failure)
    (s : Stream) : Prop :=
  s.Fails text f ∨ (s.Sound text ∧ K s ∧
    f = s.source.errorAt s.cursor.line 1 (.lexical (.unterminatedBlock closing)))

/-- A reading of the larger source follows one of the source. -/
abbrev Reading.Follows {α β : Type} (e : Frame) (P : Stream → Stream → Prop) (x : Reading α)
    (y : Reading β) (R : α → β → Prop) (Q : α → Stream → Stream → Prop) : Prop :=
  Sm83.Follows (e.after.isSome = true) (Stream.Fails e.text) P x y R Q

namespace Reading

variable {e : Frame} {g : Setting} {m : Nat} {tight : Bool} {ts : List Token} {t : Token}

/-- Looking ahead in a frame. -/
theorem follows_peekAt_of {Fails : Failure → Stream → Prop} {P : Stream → Stream → Prop}
    (ts : List Token) (hopen : ∀ t ∈ ts, t.lexeme.endsLine = false)
    (hP : ∀ s s', P s s' → Reads e g m tight ts s s')
    (hfails : ∀ s s' f, P s s' → s.cursor.next s.source s.register.commit.current = .error f →
      Fails f { s with register := s.register.commit }) :
    Sm83.Follows (e.after.isSome = true) Fails P (peekAt ts.length) (peekAt ts.length)
      (fun t t' => t' = e.token t) fun t => Reads e g m tight (ts ++ [t]) := by
  intro s s' hs
  have h := hP s s' hs
  rcases h.ahead with ⟨later, hlater⟩
  cases later with
  | cons t later =>
    -- it has been read ahead already
    have hbuffer : s.buffer[ts.length]? = some t := by simp [← hlater]
    have hbuffer' : s'.buffer[ts.length]? = some (e.token t) := by
      rw [h.framed.buffer, List.getElem?_map, hbuffer]
      rfl
    rw [peekAt_buffered hbuffer, peekAt_buffered hbuffer']
    refine .ok rfl ⟨h.framed, h.sound, h.ordered, h.current, h.left, ⟨later, by simp [← hlater]⟩,
      ?_⟩
    intro htight
    have honly := h.only htight
    rw [← hlater] at honly
    simp at honly
  | nil =>
    rw [List.append_nil] at hlater
    subst hlater
    have hend := Stream.atEnd_eq_false_of_open hopen
    have hmirrors := h.framed.mirrors h.sound hend
    rw [peekAt_fresh rfl hend, peekAt_fresh h.framed.length_eq (h.framed.atEnd_eq_false hend)]
    cases hnext : s.cursor.next s.source s.register.commit.current with
    | ok r =>
      rcases r with ⟨t, c⟩
      rw [hmirrors.token t c hnext]
      refine .ok rfl ⟨h.framed.read, h.sound.read hopen hnext,
        ((Stream.Onward.of_read hnext).ordered h.ordered).1, ?_, ?_, ?_, ?_⟩
      · rw [← h.current]
        exact congrArg Register.current (Register.commit_commit _)
      · exact Nat.lt_of_le_of_lt (Stream.left_read hnext) h.left
      · exact List.prefix_rfl
      · intro _
        rfl
    | error f =>
      have hfails := hfails s s' f hs hnext
      cases hnext' : s'.cursor.next s'.source s'.register.commit.current with
      | error f' => exact .error hfails
      | ok r =>
        refine .further ?_ hfails
        cases hafter : e.after with
        | some text => rfl
        | none =>
          rcases hmirrors.failure hafter f hnext with ⟨f', hf'⟩
          rw [hf'] at hnext'
          cases hnext'

theorem follows_peekAt [hg : g.IsOpen] (ts : List Token)
    (hopen : ∀ t ∈ ts, t.lexeme.endsLine = false) :
    Follows e (Reads e g m tight ts) (peekAt ts.length) (peekAt ts.length)
      (fun t t' => t' = e.token t) fun t => Reads e g m tight (ts ++ [t]) := by
  apply follows_peekAt_of ts hopen (fun _ _ h => h)
  intro s s' f h hnext
  refine (h.sound.fails hnext).resolve_right ?_
  rintro ⟨closing, hclosing, _⟩
  rw [h.current, hg.closing] at hclosing
  cases hclosing

theorem follows_peek [g.IsOpen] :
    Follows e (Reads e g m tight []) peek peek (fun t t' => t' = e.token t)
      fun t => Reads e g m tight [t] := by
  exact follows_peekAt [] (by simp)

theorem follows_peek_again :
    Follows e (Reads e g m tight (t :: ts)) peek peek (fun u u' => u = t ∧ u' = e.token t)
      fun _ => Reads e g m tight (t :: ts) := by
  intro s s' h
  rcases h.ahead with ⟨later, hlater⟩
  have hbuffer' : s'.buffer = e.token t :: (ts ++ later).map e.token := by
    rw [h.framed.buffer, ← hlater]
    rfl
  rw [peek_buffered hlater.symm, peek_buffered hbuffer']
  exact .ok ⟨rfl, rfl⟩ h

theorem follows_advanceAs (ht : t.isEnd = false) :
    Follows e (Reads e g m tight (t :: ts)) (advanceAs g.role) (advanceAs g.role)
      (fun u u' => u = t ∧ u' = e.token t) fun _ => Reads e g (m - 1) tight ts := by
  intro s s' h
  rcases h.consume ht with ⟨rest, hbuffer, hbuffer', hafter⟩
  rw [advanceAs_buffered _ hbuffer, advanceAs_buffered _ hbuffer']
  exact .ok ⟨rfl, rfl⟩ hafter

theorem follows_advance (ht : t.isEnd = false) :
    Follows e (Reads e .normal m tight (t :: ts)) advance advance
      (fun u u' => u = t ∧ u' = e.token t) fun _ => Reads e .normal (m - 1) tight ts :=
  follows_advanceAs (g := .normal) ht

/-- Reading a block in a frame, or its report. -/
theorem follows_advance_block {closing opening : String} (hclosing : closing.isEmpty = false)
    {K : Stream → Prop} (hK : ∀ s, K s → K { s with register := s.register.commit }) :
    Sm83.Follows (e.after.isSome = true) (Stream.Halts e.text closing K)
      (fun s s' => Reads e (.block closing opening) m true [] s s' ∧ K s) (advanceAs .block)
      (advanceAs .block) (fun t t' => t' = e.token t ∧ t.isEnd = false)
      fun _ => Reads e (.block closing opening) (m - 1) true [] := by
  have hrole : (Setting.block closing opening).role = .block := by
    simp [Setting.role, Setting.block, Setting.closing?, hclosing]
  -- without an end the block is reported in the first run, while the second may still find one
  have hhalts : ∀ s s' f, Reads e (.block closing opening) m true [] s s' ∧ K s →
      s.cursor.next s.source s.register.commit.current = .error f →
      Stream.Halts e.text closing K f { s with register := s.register.commit } := by
    rintro s s' f ⟨h, hs⟩ hnext
    refine (h.sound.fails hnext).imp_right ?_
    rintro ⟨word, hword, hf⟩
    rw [h.current] at hword
    simp only [Setting.block, Setting.closing?, hclosing] at hword
    cases hword
    exact ⟨h.sound.commit, hK s hs, hf⟩
  intro s s' h
  have hpeek : Agree _ _ _ (fun t => Reads e (.block closing opening) m true [t]) (peek s)
      (peek s') :=
    follows_peekAt_of [] (by simp) (fun _ _ h => h.1) hhalts s s' h
  cases hs : peek s with
  | error f u =>
    rw [hs] at hpeek
    rw [advanceAs_of_peek_error _ hs]
    cases hs' : peek s' with
    | error f' u' =>
      rw [hs'] at hpeek
      rw [advanceAs_of_peek_error _ hs']
      cases hpeek with
      | error hf => exact .error hf
    | ok t' u' =>
      rw [hs'] at hpeek
      cases hpeek with
      | further hafter hf =>
        cases advanceAs .block s' with
        | ok b v => exact .further hafter hf
        | error f' v => exact .error hf
  | ok t u =>
    rw [hs] at hpeek
    cases hs' : peek s' with
    | error f' u' =>
      rw [hs'] at hpeek
      cases hpeek
    | ok t' u' =>
      rw [hs'] at hpeek
      cases hpeek with
      | ok ht' hreads =>
        subst ht'
        have ht : t.isEnd = false := by
          have hadmits := hreads.sound.admits t (by simp [hreads.buffer_eq])
          rw [hreads.current, hrole] at hadmits
          exact Role.isEnd_of_admits_block hadmits
        rcases hreads.consume ht with ⟨rest, hbuffer, hbuffer', hafter⟩
        rw [hrole] at hafter
        rw [advanceAs_of_peek _ hs hbuffer, advanceAs_of_peek _ hs' hbuffer']
        exact .ok ⟨rfl, ht⟩ hafter

end Reading

end Sm83
