import Sm83.Proofs.Expr.Calls
import Sm83.Proofs.Expr.Printing
import Sm83.Proofs.Token.Form
import Sm83.Proofs.Token.Local
import Sm83.Proofs.Watch

/-!
# Expressions that can be printed

An expression of a source is made of what its tokens spell, and of local names completed with the
label they stand under. So its numbers fit in a word, its names can be written as they are, and all
that could keep its printed form from standing for it is a negative number, or a text that does not
stay on a line.
-/

namespace Sm83

theorem not_isKeyword_of_dot {name : String} (hchars : ∀ c ∈ name.toList, isNameChar c = true)
    (hdot : '.' ∈ name.toList) : Keyword.isKeyword name = false := by
  have hall : ∀ w ∈ Keyword.all, '.' ∉ w.toList := by decide +kernel
  rw [Keyword.isKeyword, lower_eq_lowerName hchars, Bool.eq_false_iff]
  intro hreserved
  apply hall _ (List.contains_iff_mem.mp hreserved)
  rw [lowerName, String.toList_ofList]
  exact List.mem_map.mpr ⟨'.', hdot, by decide⟩

theorem isGlobalName_append {label name : String} (hlabel : isGlobalName label = true)
    (hname : spellsLocalName name = true) : isGlobalName (label ++ name) = true := by
  rcases parts_of_isGlobalName hlabel with ⟨hlabelStart, hlabelChars, _⟩
  simp only [spellsLocalName, Bool.and_eq_true, beq_iff_eq, List.all_eq_true] at hname
  have hchars : ∀ c ∈ (label ++ name).toList, isNameChar c = true := by
    intro c hc
    rw [String.toList_append] at hc
    rcases List.mem_append.mp hc with hc | hc
    · exact hlabelChars c hc
    · exact hname.2 c hc
  have hdot : '.' ∈ (label ++ name).toList := by
    rw [String.toList_append]
    exact List.mem_append_right _ (List.mem_of_head? hname.1.1)
  have hstart : headIs isNameStart (label ++ name).toList = true := by
    rw [String.toList_append]
    exact Expr.headIs_append hlabelStart _
  simp only [isGlobalName, hstart, List.all_eq_true.mpr hchars, not_isKeyword_of_dot hchars hdot]
  rfl

theorem isGlobalName_qualify {state : State} {name full : String}
    (hscope : ∀ label ∈ state.scope, isGlobalName label = true)
    (hname : isGlobalName name = true ∨ spellsLocalName name = true)
    (h : state.qualify name = .ok full) : isGlobalName full = true := by
  unfold State.qualify at h
  split at h
  · next hdot =>
    unfold State.resolveLocal at h
    split at h
    · next label hlabel =>
      cases h
      refine isGlobalName_append (hscope label hlabel) (hname.resolve_left ?_)
      -- a global name does not start with the dot
      intro hglobal
      rcases headIs_iff.mp (parts_of_isGlobalName hglobal).1 with ⟨c, cs, hcs, hc⟩
      rw [hcs] at hdot
      cases hdot
      cases hc
    · cases h
  · next hdot =>
    cases h
    apply hname.resolve_right
    intro hlocal
    simp only [spellsLocalName, Bool.and_eq_true, beq_iff_eq] at hlocal
    exact hdot hlocal.1.1

/-- Numbers fit in a word, and names are spelt as names are. -/
def Lexeme.WellSpelt : Lexeme → Prop
  | number v => v < 0x80000000
  | name s | label s => isGlobalName s = true
  | localName s | localLabel s => spellsLocalName s = true
  | _ => True

theorem Lexeme.WrittenAs.wellSpelt {l : Lexeme} {cs : List Char} (h : l.WrittenAs cs) :
    l.WellSpelt := by
  cases h with
  | number => exact (Word.wrap_mem_range _).2
  | name h | label h | localName h | localLabel h => exact h
  | _ => trivial

/-- Every token of a source is well spelt. -/
theorem Cursor.next_wellSpelt {c c' : Cursor} {source : Source} {g : Setting} {t : Token}
    (h : c.next source g = .ok (t, c')) : t.lexeme.WellSpelt := by
  rcases next_cases h with ⟨_, h⟩ | ⟨_, _, h⟩ | ⟨closing, _, _, h⟩
  · rcases normalToken_eq_ok_iff.mp h with ⟨_, l, n, hscan, rfl, _⟩
    exact (scan_written hscan).wellSpelt
  · cases argumentToken_eq_ok_iff.mp h <;> trivial
  · rcases blockToken_eq_ok_iff.mp h with ⟨body, n, line, _, _, rfl, _⟩
    trivial

namespace Expr

/-- The expression is no negative number, and no text with a line end in it. -/
def isPlain : Expr → Bool
  | literal n => 0 ≤ n
  | text s => s.toList.all fun c => c ≠ '\n' && c ≠ '\r'
  | _ => true

/-- All parts of the expression are plain. -/
def Plain (e : Expr) : Prop :=
  ∀ p ∈ e.parts, p.isPlain = true

end Expr

/-- The tokens of a source and their spelling, names under the labels of the source, and plain
expressions, which are printable. -/
def Watch.spelling : Watch where
  stream s := ∀ t ∈ s.buffer, t.lexeme.WellSpelt
  scope o := ∀ label ∈ o, isGlobalName label = true
  token t := t.lexeme.WellSpelt
  expr e := e.Plain → e.Printable
  error _ := True

instance Watch.lawful_spelling : spelling.Lawful := by
  constructor
  case ahead => exact fun hs ht => hs _ ht
  case read =>
    intro s t c hs hnext u hu
    rcases List.mem_append.mp hu with hu | hu
    · exact hs u hu
    · rw [List.mem_singleton.mp hu]
      exact Cursor.next_wellSpelt hnext
  case consume =>
    intro s t rest role hs hbuffer u hu
    apply hs u
    simp only [Stream.consume] at hu
    split at hu
    · exact hu
    · rw [hbuffer]
      exact List.mem_cons_of_mem t hu
  case request => exact fun _ hs => hs
  case number =>
    intro t v ht hl hplain
    have hlow := hplain _ (Expr.self_mem_parts _)
    simp only [spelling, hl] at ht
    exact .literal (by simpa [Expr.isPlain] using hlow) ht
  case text =>
    intro s hplain
    have hline := hplain _ (Expr.self_mem_parts _)
    exact .text (by simpa [Expr.isPlain] using hline)
  case name =>
    intro t s ht hl _
    simp only [spelling, hl] at ht
    exact .symbol ht
  case localName =>
    intro t s full state ht hl hscope hfull _
    simp only [spelling, hl] at ht
    exact .symbol (isGlobalName_qualify hscope (.inr ht) hfull)
  case unary =>
    intro op e hop he hplain
    exact .unary hop (he fun p hp => hplain p (by simp [Expr.parts, hp]))
  case binary =>
    intro op a b hop ha hb hplain
    refine .binary hop (ha fun p hp => hplain p ?_) (hb fun p hp => hplain p ?_)
    · simp [Expr.parts, hp]
    · simp [Expr.parts, hp]
  case call =>
    intro f args hf hcount hargs hplain
    refine .call hf hcount fun e he => hargs e he fun p hp => hplain p ?_
    simp only [Expr.parts, List.mem_cons, Expr.mem_partsAll]
    exact .inr ⟨e, he, hp⟩
  case label =>
    intro t s full state ht hdeclared hscope hfull _ label hlabel
    cases hlabel
    refine isGlobalName_qualify hscope ?_ hfull
    unfold Step.declared? at hdeclared
    split at hdeclared
    · next hl =>
      cases hdeclared
      simp only [spelling, hl] at ht
      exact .inl ht
    · next hl =>
      cases hdeclared
      simp only [spelling, hl] at ht
      exact .inr ht
    · cases hdeclared
  all_goals
    intros
    trivial

end Sm83
