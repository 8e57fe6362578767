import Sm83.Proofs.Encode.Plan

/-!
# The code column

A record is printed as its bytes, and behind ` ; ` as what the unknown ones wait for. The part
before that is the code column of a listing. Taken apart at its spaces, it has one item for each
byte of the instruction: a byte that is known is two hexadecimal digits, and any other is a pair of
question marks.
-/

namespace Sm83

open Text List

namespace Text

/-- The part of a text before the first occurrence of a separator, or all of it if there is none. -/
def before (separator cs : List Char) : List Char :=
  match findIn separator cs with
  | some k => cs.take k
  | none => cs

/-- A byte as two hexadecimal digits. -/
def hexPair (b : Nat) : List Char :=
  let digit (d : Nat) := "0123456789ABCDEF".toList.getD d ' '
  [digit (b / 16), digit (b % 16)]

theorem toList_hex : ∀ b < 0x100, (hex 2 b).toList = hexPair b := by
  decide +kernel

/-- The item holds neither a space nor a semicolon. -/
def Clean (item : List Char) : Prop :=
  ' ' ∉ item ∧ ';' ∉ item

theorem clean_hexPair : ∀ b < 0x100, Clean (hexPair b) := by
  unfold Clean
  decide +kernel

theorem not_mem_intercalate {c : Char} {separator : List Char} {items : List (List Char)}
    (hseparator : c ∉ separator) (hitems : ∀ item ∈ items, c ∉ item) :
    c ∉ separator.intercalate items := by
  induction items with
  | nil => exact not_mem_nil
  | cons item rest ih =>
    have hitem := hitems item mem_cons_self
    have hrest := ih fun item hmem => hitems item (mem_cons_of_mem _ hmem)
    cases rest with
    | nil => simpa [intercalate] using hitem
    | cons next rest =>
      rw [intercalate_cons_cons, mem_append, mem_append]
      rintro ((h | h) | h)
      · exact hitem h
      · exact hseparator h
      · exact hrest h

section

variable {c : Char} {cs : List Char}

theorem not_separator_prefix (h : cs.head? ≠ some ';') :
    " ; ".toList.isPrefixOf (c :: cs) = false := by
  cases cs with
  | nil => simp [isPrefixOf]
  | cons d rest =>
    have hd : d ≠ ';' := by simpa using h
    simp [isPrefixOf, hd.symm]

theorem findIn_separator_none (h : ';' ∉ cs) : findIn " ; ".toList cs = none := by
  induction cs with
  | nil => rfl
  | cons c rest ih =>
    rw [mem_cons, not_or] at h
    have hhead : rest.head? ≠ some ';' := fun hhead => h.2 (mem_of_mem_head? hhead)
    rw [findIn, not_separator_prefix hhead, ih h.2]
    rfl

theorem findIn_separator (h : ';' ∉ cs) (rest : List Char) :
    findIn " ; ".toList (cs ++ (" ; ".toList ++ rest)) = some cs.length := by
  induction cs with
  | nil => rfl
  | cons c tail ih =>
    rw [mem_cons, not_or] at h
    have hhead : (tail ++ (" ; ".toList ++ rest)).head? ≠ some ';' := by
      cases tail with
      | nil => simp
      | cons d tail => simpa using fun hd : d = ';' => h.2 (hd ▸ mem_cons_self)
    rw [cons_append, findIn, not_separator_prefix hhead, ih h.2]
    rfl

end

end Text

namespace Record

variable {opcode : Nat} {record : Record}

/-- The code column, taken apart at its spaces. -/
def columnItems (record : Record) : List (List Char) :=
  (before " ; ".toList record.render.toList).splitOn ' '

/-- The item of a byte that is not known. -/
def unknownItem : List Char := "??".toList

/-- The items of the bytes of an opcode. -/
def opcodeItems (opcode : Nat) : List (List Char) :=
  (opcodeBytes opcode).map hexPair

/-- The items of a record: its opcode bytes, and then the bytes of a known operand, the less
significant first. The displacement of a relative jump is not known before its address is. -/
inductive Shown : Record → List (List Char) → Prop
  | noArg (opcode : Nat) : Shown (.noArg opcode) (opcodeItems opcode)
  | byte {opcode : Nat} {v : Int} {check : Option RangeCheck} (h : 0 ≤ v ∧ v ≤ 0xFF) :
      Shown (.arg8 opcode (.literal v) check) (opcodeItems opcode ++ [hexPair v.toNat])
  | unknownByte {opcode : Nat} {e : Expr} {check : Option RangeCheck} (h : ∀ v, e ≠ .literal v) :
      Shown (.arg8 opcode e check) (opcodeItems opcode ++ [unknownItem])
  | word {opcode : Nat} {v : Int} (h : 0 ≤ v ∧ v ≤ 0xFFFF) :
      Shown (.arg16 opcode (.literal v))
        (opcodeItems opcode ++ [hexPair (v.toNat % 256), hexPair (v.toNat / 256)])
  | unknownWord {opcode : Nat} {e : Expr} (h : ∀ v, e ≠ .literal v) :
      Shown (.arg16 opcode e) (opcodeItems opcode ++ [unknownItem, unknownItem])
  | jump (opcode : Nat) (e : Expr) : Shown (.jump opcode e) (opcodeItems opcode ++ [unknownItem])
  | restart {v : Int} (h : isRestartVector v = true) :
      Shown (.restart (.literal v)) [hexPair (0xC7 + v.toNat)]
  | unknownRestart {e : Expr} (h : ∀ v, e = .literal v → isRestartVector v = false) :
      Shown (.restart e) [unknownItem]

/-- The items make up the code of the record, one for each of its bytes. -/
structure Tabulated (record : Record) (items : List (List Char)) : Prop where
  code : record.code.toList = [' '].intercalate items
  clean : ∀ item ∈ items, Text.Clean item
  shown : record.Shown items
  size : items.length = record.size

theorem size_pos (record : Record) : 0 < record.size := by
  have hopcode : ∀ opcode, 0 < opcodeSize opcode := by
    intro opcode
    unfold opcodeSize
    split <;> decide
  cases record with
  | noArg opcode => exact hopcode opcode
  | arg8 opcode _ _ => exact Nat.succ_pos _
  | arg16 opcode _ => exact Nat.succ_pos _
  | jump _ _ => exact Nat.succ_pos _
  | restart _ => exact Nat.succ_pos _

namespace Tabulated

variable {record : Record} {items : List (List Char)}

theorem not_mem_code (h : record.Tabulated items) : ';' ∉ record.code.toList := by
  rw [h.code]
  exact not_mem_intercalate (by decide) fun item hitem => (h.clean item hitem).2

theorem before_render (h : record.Tabulated items) :
    before " ; ".toList record.render.toList = record.code.toList := by
  unfold render
  split
  · next awaited _ =>
    have hfound := findIn_separator h.not_mem_code awaited.toList
    rw [String.toList_append, String.toList_append, append_assoc, before, hfound]
    exact take_left
  · rw [before, findIn_separator_none h.not_mem_code]

theorem columnItems_eq (h : record.Tabulated items) : record.columnItems = items := by
  have hne : items ≠ [] := by
    intro hnil
    have hsize := h.size
    rw [hnil] at hsize
    exact Nat.ne_of_lt record.size_pos hsize
  rw [columnItems, h.before_render, h.code]
  exact splitOn_intercalate ' ' (fun item hitem => (h.clean item hitem).1) hne

end Tabulated

theorem toList_renderBytes {bytes : List Nat} (h : ∀ b ∈ bytes, b < 0x100) :
    (renderBytes bytes).toList = [' '].intercalate (bytes.map hexPair) := by
  have hitems : (bytes.map (hex 2)).map String.toList = bytes.map hexPair := by
    rw [map_map]
    exact map_congr_left fun b hb => toList_hex b (h b hb)
  rw [renderBytes, join, String.toList_intercalate, hitems]
  rfl

theorem opcodeBytes_lt (h : opcode < 0x10000) : ∀ b ∈ opcodeBytes opcode, b < 0x100 := by
  intro b hb
  unfold opcodeBytes at hb
  split at hb
  · rcases mem_cons.mp hb with rfl | hb
    · omega
    · rw [mem_singleton.mp hb]
      omega
  · rw [mem_singleton.mp hb]
    omega

theorem opcodeBytes_byte (h : opcode < 0x100) : opcodeBytes opcode = [opcode] :=
  if_neg (by omega)

theorem opcodeSize_byte (h : opcode < 0x100) : opcodeSize opcode = 1 :=
  if_neg (by omega)

theorem length_opcodeBytes (opcode : Nat) : (opcodeBytes opcode).length = opcodeSize opcode := by
  unfold opcodeBytes opcodeSize
  split <;> rfl

theorem tabulated_of_bytes {bytes : List Nat} (hcode : record.code = renderBytes bytes)
    (hbytes : ∀ b ∈ bytes, b < 0x100) (hshown : record.Shown (bytes.map hexPair))
    (hsize : bytes.length = record.size) : record.Tabulated (bytes.map hexPair) := by
  refine ⟨?_, ?_, hshown, ?_⟩
  · rw [hcode, toList_renderBytes hbytes]
  · intro item hitem
    rcases mem_map.mp hitem with ⟨b, hb, rfl⟩
    exact clean_hexPair b (hbytes b hb)
  · rw [length_map, hsize]

theorem tabulated_noArg (h : opcode < 0x10000) : (noArg opcode).Tabulated (opcodeItems opcode) :=
  tabulated_of_bytes rfl (opcodeBytes_lt h) (.noArg opcode) (length_opcodeBytes opcode)

variable {v : Int}

theorem tabulated_byte {check : Option RangeCheck} (h : opcode < 0x100) (hv : 0 ≤ v ∧ v < 0x100) :
    (arg8 opcode (.literal v) check).Tabulated (opcodeItems opcode ++ [hexPair v.toNat]) := by
  have hitems : opcodeItems opcode ++ [hexPair v.toNat] =
      (opcodeBytes opcode ++ [v.toNat]).map hexPair := by
    simp [opcodeItems]
  have hcode : (arg8 opcode (.literal v) check).code =
      renderBytes (opcodeBytes opcode ++ [v.toNat]) := by
    rw [code, Int.emod_eq_of_lt hv.1 hv.2]
  have hshown : (arg8 opcode (.literal v) check).Shown _ := .byte ⟨hv.1, by omega⟩
  rw [hitems] at hshown ⊢
  refine tabulated_of_bytes hcode ?_ hshown ?_
  · refine forall_mem_append.mpr ⟨opcodeBytes_lt (by omega), ?_⟩
    intro b hb
    rw [mem_singleton.mp hb]
    omega
  · rw [length_append, length_opcodeBytes]
    rfl

theorem tabulated_word (h : opcode < 0x100) (hv : 0 ≤ v ∧ v < 0x10000) :
    (arg16 opcode (.literal v)).Tabulated
      (opcodeItems opcode ++ [hexPair (v.toNat % 256), hexPair (v.toNat / 256)]) := by
  have hitems : opcodeItems opcode ++ [hexPair (v.toNat % 256), hexPair (v.toNat / 256)] =
      (opcodeBytes opcode ++ [v.toNat % 256, v.toNat / 256]).map hexPair := by
    simp [opcodeItems]
  have hlow : (v % 256).toNat = v.toNat % 256 := by omega
  have hhigh : (v / 256 % 256).toNat = v.toNat / 256 := by omega
  have hcode : (arg16 opcode (.literal v)).code =
      renderBytes (opcodeBytes opcode ++ [v.toNat % 256, v.toNat / 256]) := by
    rw [code, hlow, hhigh]
  have hshown : (arg16 opcode (.literal v)).Shown _ := .word ⟨hv.1, by omega⟩
  rw [hitems] at hshown ⊢
  refine tabulated_of_bytes hcode ?_ hshown ?_
  · refine forall_mem_append.mpr ⟨opcodeBytes_lt (by omega), ?_⟩
    intro b hb
    rcases mem_cons.mp hb with rfl | hb
    · omega
    · rw [mem_singleton.mp hb]
      omega
  · rw [length_append, length_opcodeBytes]
    rfl

theorem restartOpcode_eq (h : isRestartVector v = true) :
    restartOpcode v = .ok (0xC7 + v.toNat) ∧ 0xC7 + v.toNat < 0x100 := by
  have hvectors : ∀ n < 0x39, n % 8 = 0 → 0xC7 ||| n = 0xC7 + n := by decide
  have hv := h
  simp only [isRestartVector, Bool.and_eq_true, decide_eq_true_eq, beq_iff_eq] at hv
  refine ⟨?_, by omega⟩
  rw [restartOpcode, if_pos h, hvectors v.toNat (by omega) (by omega)]

theorem tabulated_restart (h : isRestartVector v = true) :
    (restart (.literal v)).Tabulated [hexPair (0xC7 + v.toNat)] := by
  rcases restartOpcode_eq h with ⟨hopcode, hlt⟩
  have hcode : (restart (.literal v)).code = renderBytes [0xC7 + v.toNat] := by
    simp [code, hopcode, renderBytes, join]
  exact tabulated_of_bytes hcode (by simpa using hlt) (.restart h) rfl

theorem clean_unknownItem : Text.Clean unknownItem := by
  unfold Text.Clean
  decide

theorem tabulated_unknown {items : List (List Char)} (h : opcode < 0x100)
    (hitems : ∀ item ∈ items, item = unknownItem)
    (hcode : record.code.toList = [' '].intercalate (hexPair opcode :: items))
    (hshown : record.Shown (opcodeItems opcode ++ items)) (hsize : items.length + 1 = record.size) :
    record.Tabulated (opcodeItems opcode ++ items) := by
  have hopcode : opcodeItems opcode = [hexPair opcode] := by
    rw [opcodeItems, opcodeBytes_byte h]
    rfl
  rw [hopcode] at hshown ⊢
  refine ⟨hcode, ?_, hshown, hsize⟩
  intro item hitem
  rcases mem_cons.mp hitem with rfl | hitem
  · exact clean_hexPair opcode h
  · rw [hitems item hitem]
    exact clean_unknownItem

section

variable {opcode : Nat} {e : Expr} {check : Option RangeCheck}

theorem tabulated_unknownByte (h : opcode < 0x100) (he : ∀ v, e ≠ .literal v) :
    (arg8 opcode e check).Tabulated (opcodeItems opcode ++ [unknownItem]) := by
  have hcode : (arg8 opcode e check).code = renderBytes (opcodeBytes opcode) ++ " ??" := by
    cases e with
    | literal v => exact absurd rfl (he v)
    | _ => rfl
  refine tabulated_unknown h (by simp) ?_ (.unknownByte he) ?_
  · rw [hcode, opcodeBytes_byte h, String.toList_append, toList_renderBytes (by simpa using h)]
    rfl
  · rw [size, opcodeSize_byte h]
    rfl

theorem tabulated_unknownWord (h : opcode < 0x100) (he : ∀ v, e ≠ .literal v) :
    (arg16 opcode e).Tabulated (opcodeItems opcode ++ [unknownItem, unknownItem]) := by
  have hcode : (arg16 opcode e).code = renderBytes (opcodeBytes opcode) ++ " ?? ??" := by
    cases e with
    | literal v => exact absurd rfl (he v)
    | _ => rfl
  refine tabulated_unknown h (by simp) ?_ (.unknownWord he) ?_
  · rw [hcode, opcodeBytes_byte h, String.toList_append, toList_renderBytes (by simpa using h)]
    rfl
  · rw [size, opcodeSize_byte h]
    rfl

theorem tabulated_jump (h : opcode < 0x100) (e : Expr) :
    (jump opcode e).Tabulated (opcodeItems opcode ++ [unknownItem]) := by
  refine tabulated_unknown h (by simp) ?_ (.jump opcode e) rfl
  rw [code, String.toList_append, toList_hex opcode h]
  rfl

theorem tabulated_unknownRestart (he : ∀ v, e = .literal v → isRestartVector v = false) :
    (restart e).Tabulated [unknownItem] := by
  have hcode : (restart e).code = "??" := by
    cases e with
    | literal v => simp [code, restartOpcode, he v rfl]
    | _ => rfl
  refine ⟨?_, ?_, .unknownRestart he, rfl⟩
  · rw [hcode]
    rfl
  · intro item hitem
    rw [mem_singleton.mp hitem]
    exact clean_unknownItem

theorem tabulated_arg8 (h : opcode < 0x100) (he : Encode.Below 0x100 e) :
    ∃ items, (arg8 opcode e check).Tabulated items := by
  by_cases hliteral : ∃ v, e = .literal v
  · rcases hliteral with ⟨v, rfl⟩
    exact ⟨_, tabulated_byte h (he v rfl)⟩
  · exact ⟨_, tabulated_unknownByte h fun v hv => hliteral ⟨v, hv⟩⟩

theorem tabulated_arg16 (h : opcode < 0x100) (he : Encode.Below 0x10000 e) :
    ∃ items, (arg16 opcode e).Tabulated items := by
  by_cases hliteral : ∃ v, e = .literal v
  · rcases hliteral with ⟨v, rfl⟩
    exact ⟨_, tabulated_word h (he v rfl)⟩
  · exact ⟨_, tabulated_unknownWord h fun v hv => hliteral ⟨v, hv⟩⟩

theorem tabulated_rst (e : Expr) : ∃ items, (Record.restart e).Tabulated items := by
  by_cases hvector : ∃ v, e = .literal v ∧ isRestartVector v = true
  · rcases hvector with ⟨v, rfl, hv⟩
    exact ⟨_, tabulated_restart hv⟩
  · refine ⟨_, tabulated_unknownRestart ?_⟩
    intro v hv
    exact eq_false_of_ne_true fun htrue => hvector ⟨v, hv, htrue⟩

end

/-- Every record of a plan has its items. -/
theorem tabulated_of_gives {m : Mnemonic} {p : Encode.Plan} (hp : p.Sound m) (h : p.Gives record) :
    ∃ items, record.Tabulated items := by
  cases p with
  | rejected => cases h
  | haltPattern => cases h
  | plain opcode =>
    cases h
    exact ⟨_, tabulated_noArg hp⟩
  | byte opcode field _ =>
    rcases h with ⟨operand, check, rfl, hbelow⟩
    rw [hp.2] at hbelow
    exact tabulated_arg8 hp.1 hbelow
  | word opcode _ =>
    rcases h with ⟨operand, rfl, hbelow⟩
    exact tabulated_arg16 hp hbelow
  | high opcode _ =>
    rcases h with ⟨operand, check, rfl, hbelow⟩
    exact tabulated_arg8 hp hbelow
  | jump opcode _ =>
    rcases h with ⟨target, rfl⟩
    exact ⟨_, tabulated_jump hp target⟩
  | restart _ =>
    rcases h with ⟨target, rfl⟩
    exact tabulated_rst target
  | bit base code _ =>
    rcases h with ⟨index, hindex, rfl⟩
    have hshift : ∀ index < 8, index <<< 3 < 0x100 := by decide
    have hbyte : base ||| index <<< 3 ||| code < 0x100 :=
      Nat.or_lt_two_pow (n := 8) (Nat.or_lt_two_pow hp.2.1 (hshift index hindex))
        (Nat.lt_trans hp.2.2 (by decide))
    exact ⟨_, tabulated_noArg (Encode.page_lt hbyte)⟩

end Record

/-- The code column of an encoded instruction shows its bytes. What is printed before the separator
is the code of the listing; it has as many items as the instruction has bytes, and they are the
items of its opcode bytes and of the bytes of a known operand, which fits, the less significant
first. A byte that is not known is shown by question marks. -/
theorem code_column_shows_bytes (r : Resolver) (w : String) (operands : List Operand)
    (record : Record) (h : encodeWord r w operands = .ok record) :
    before " ; ".toList record.render.toList = record.code.toList ∧
      record.columnItems.length = record.size ∧ record.Shown record.columnItems := by
  rcases ofWord?_of_encodeWord h with ⟨m, _, hencode⟩
  rcases gives_of_encode hencode with ⟨p, hp, hgives⟩
  rcases Record.tabulated_of_gives hp hgives with ⟨items, hitems⟩
  rw [hitems.columnItems_eq]
  exact ⟨hitems.before_render, hitems.size, hitems.shown⟩

/-- A negative offset is shown as the byte that it is stored as. -/
theorem code_column_shows_bytes_negative :
    let operands := [Operand.register .hl, .stackOffset (.unary .neg (.literal 2))]
    let record := Record.arg8 0xF8 (.literal 0xFE) none
    encodeWord .empty "ld" operands = .ok record ∧ record.columnItems.length = record.size ∧
      record.columnItems = ["F8".toList, "FE".toList] := by
  have hword : Mnemonic.ofWord? (lower "ld") = some .ld := by decide +kernel
  have hencode : encodeWord .empty "ld"
      [.register .hl, .stackOffset (.unary .neg (.literal 2))] =
        .ok (.arg8 0xF8 (.literal 0xFE) none) := by
    rw [encodeWord, hword]
    rfl
  rcases code_column_shows_bytes .empty "ld" _ _ hencode with ⟨_, hsize, hshown⟩
  refine ⟨hencode, hsize, ?_⟩
  generalize Record.columnItems (.arg8 0xF8 (.literal 0xFE) none) = items at hshown ⊢
  cases hshown with
  | byte _ => rfl
  | unknownByte hunknown => exact absurd rfl (hunknown 0xFE)

end Sm83
