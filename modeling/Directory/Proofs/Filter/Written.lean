import Directory.Filter.Printer
import Directory.Proofs.Filter.Grammar
import Directory.Proofs.Name.Reread

/-!
# Written values, pieces and attributes

What the grammar gives for the parts of an assertion, and that their written forms stand for them.

* `Value.IsRead`, `Pieces.IsRead`, `AttributeId.IsRead`: what reading can give.
* `Filter.writesValue_writeValue`: **the written form of a read value stands for it**;
  `isPlain_of_mem_writeValue`: that form has no parentheses and no asterisks.
* `Filter.writesPieces_writePieces`, `AttributeId.ofName_name`: the same for pieces and attributes.
-/

namespace Directory

/-! ## Bytes -/

namespace Text

theorem ofUtf8?_flatMap (cs : List Char) :
    ofUtf8? (cs.flatMap String.utf8EncodeChar) = some (String.ofList cs) := by
  have hbytes : (⟨(cs.flatMap String.utf8EncodeChar).toArray⟩ : ByteArray) =
      (String.ofList cs).toByteArray := by
    rw [String.toByteArray_ofList, List.utf8Encode, ← List.data_toByteArray]
  rw [ofUtf8?, hbytes, String.fromUTF8?, dif_pos (String.ofList cs).isValidUTF8]
  rfl

theorem eq_nil_of_ofUtf8? {bytes : List UInt8} (h : ofUtf8? bytes = some "") : bytes = [] := by
  rw [ofUtf8?, String.fromUTF8?] at h
  split at h
  · have harray : bytes.toArray = #[] :=
      congrArg ByteArray.data (congrArg String.toByteArray (Option.some.inj h))
    simpa using harray
  · cases h

theorem hexValue?_hexDigit {n : Nat} (h : n < 16) : hexValue? (hexDigit n) = some n := by
  have hall : ∀ n : Fin 16, hexValue? (hexDigit n) = some n.val := by decide
  exact hall ⟨n, h⟩

end Text

/-- A value that reading can give. -/
inductive Value.IsRead : Value → Prop
  | text (s : String) : IsRead (.text s)
  /-- The bytes of a text are read as a text. -/
  | binary {bytes : List UInt8} (h : Text.ofUtf8? bytes = none) : IsRead (.binary bytes)

namespace Filter

/-! ## Values -/

theorem escapeChar_spec (c : Char) :
    (escapeChar c = [c] ∧ c ≠ '\\' ∧ isPlain c = true) ∨
      ∃ a b x y, escapeChar c = ['\\', a, b] ∧ isPlain a = true ∧ isPlain b = true ∧
        Text.hexValue? a = some x ∧ Text.hexValue? b = some y ∧
        String.utf8EncodeChar c = [UInt8.ofNat (16 * x + y)] := by
  fun_cases escapeChar c with
  | case6 _ hasterisk hopen hclose hbackslash =>
    refine .inl ⟨rfl, hbackslash, ?_⟩
    simp only [isPlain, isValueChar, Bool.and_eq_true, bne_iff_ne]
    exact ⟨⟨hopen, hclose⟩, hasterisk⟩
  | case1 => exact .inr ⟨'2', 'a', 2, 10, by decide⟩
  | case2 => exact .inr ⟨'2', '8', 2, 8, by decide⟩
  | case3 => exact .inr ⟨'2', '9', 2, 9, by decide⟩
  | case4 => exact .inr ⟨'5', 'c', 5, 12, by decide⟩
  | case5 => exact .inr ⟨'0', '0', 0, 0, by decide⟩

theorem raw_escapeChars (cs : List Char) :
    Raw (escapeChars cs) (cs.flatMap String.utf8EncodeChar) := by
  induction cs with
  | nil => exact .nil
  | cons c cs ih =>
    rw [escapeChars, List.flatMap_cons, ← escapeChars, List.flatMap_cons]
    obtain ⟨hc, hne, hplain⟩ | ⟨a, b, x, y, hc, _, _, hx, hy, hbyte⟩ := escapeChar_spec c
    · rw [hc]
      exact .char (Bool.and_eq_true_iff.1 hplain).1 hne ih
    · rw [hc, hbyte]
      exact .escape hx hy ih

theorem raw_hexBytes (bytes : List UInt8) :
    Raw (bytes.flatMap fun b => '\\' :: Text.hexByte b) bytes := by
  induction bytes with
  | nil => exact .nil
  | cons b bytes ih =>
    have hhigh : b.toNat / 16 < 16 := by have := b.toNat_lt; omega
    have hlow : b.toNat % 16 < 16 := Nat.mod_lt _ (by decide)
    have hbyte : UInt8.ofNat (16 * (b.toNat / 16) + b.toNat % 16) = b := by
      rw [Nat.div_add_mod, UInt8.ofNat_toNat]
    have h := Raw.escape (Text.hexValue?_hexDigit hhigh) (Text.hexValue?_hexDigit hlow) ih
    rwa [hbyte] at h

theorem denotes_text (s : String) :
    Denotes (s.toList.flatMap String.utf8EncodeChar) (.text s) := by
  refine .text (Text.utf8_eq_iff.2 ?_)
  rw [Text.ofUtf8?_flatMap, String.ofList_toList]

/-- **The written form of a read value stands for it.** -/
theorem writesValue_writeValue {v : Value} (h : v.IsRead) : WritesValue (writeValue v) v := by
  cases h with
  | text s => exact ⟨_, raw_escapeChars _, denotes_text s⟩
  | @binary bytes h =>
    refine ⟨_, raw_hexBytes bytes, denotes_iff.2 ?_⟩
    rw [valueOfBytes, h]

theorem isRead_of_writesValue {cs : List Char} {v : Value} (h : WritesValue cs v) : v.IsRead := by
  obtain ⟨bytes, _, h⟩ := h
  rw [denotes_iff, valueOfBytes] at h
  split at h
  · exact h ▸ .text _
  · rename_i hnone
    exact h ▸ .binary hnone

theorem isPlain_of_mem_escapeChars {cs : List Char} {c : Char} (h : c ∈ escapeChars cs) :
    isPlain c = true := by
  obtain ⟨d, _, hc⟩ := List.mem_flatMap.1 h
  obtain ⟨hd, _, hplain⟩ | ⟨a, b, _, _, hd, ha, hb, _⟩ := escapeChar_spec d
  · rw [hd] at hc
    exact List.mem_singleton.1 hc ▸ hplain
  · rw [hd, List.mem_cons, List.mem_cons, List.mem_singleton] at hc
    obtain rfl | rfl | rfl := hc
    · decide
    · exact ha
    · exact hb

/-- A written value has no parentheses and no asterisks. -/
theorem isPlain_of_mem_writeValue {v : Value} (hv : v.IsRead) {c : Char} (h : c ∈ writeValue v) :
    isPlain c = true := by
  cases hv with
  | text s => exact isPlain_of_mem_escapeChars h
  | binary _ =>
    obtain ⟨b, _, hc⟩ := List.mem_flatMap.1 h
    rw [List.mem_cons, Text.hexByte, List.mem_cons, List.mem_singleton] at hc
    have hdigit : ∀ n, n < 16 → isPlain (Text.hexDigit n) = true := fun n hn => by
      have hall : ∀ n : Fin 16, isPlain (Text.hexDigit n) = true := by decide
      exact hall ⟨n, hn⟩
    obtain rfl | rfl | rfl := hc
    · decide
    · exact hdigit _ (by have := b.toNat_lt; omega)
    · exact hdigit _ (Nat.mod_lt _ (by decide))

/-! ## Pieces -/

end Filter

/-- Pieces that reading can give: none is empty. -/
structure Pieces.IsRead (p : Pieces) : Prop where
  initial : p.initial ≠ some ""
  inner : "" ∉ p.inner
  final : p.final ≠ some ""

namespace Filter

theorem escapeChars_ne_nil {cs : List Char} (h : cs ≠ []) : escapeChars cs ≠ [] := by
  obtain ⟨c, cs, rfl⟩ := List.exists_cons_of_ne_nil h
  rw [escapeChars, List.flatMap_cons]
  obtain ⟨hc, _⟩ | ⟨_, _, _, _, hc, _⟩ := escapeChar_spec c <;>
    simp [hc]

theorem writePiece_eq_nil {s? : Option String} (h : s? ≠ some "") :
    writePiece s? = [] ↔ s? = none := by
  cases s? with
  | none => exact ⟨fun _ => rfl, fun _ => rfl⟩
  | some s =>
    have hne : s.toList ≠ [] := fun e => h (by rw [← s.ofList_toList, e])
    exact ⟨fun e => absurd e (escapeChars_ne_nil hne), fun e => nomatch e⟩

theorem writesPiece_writePiece {s? : Option String} (h : s? ≠ some "") :
    WritesPiece (writePiece s?) s? := by
  cases s? with
  | none => exact .empty
  | some s =>
    have hne : writePiece (some s) ≠ [] := fun e => nomatch (writePiece_eq_nil h).1 e
    exact .value hne (writesValue_writeValue (.text s))

theorem asterisk_notMem_writePiece (s? : Option String) : '*' ∉ writePiece s? := by
  cases s? with
  | none => exact List.not_mem_nil
  | some s => exact fun h => absurd (isPlain_of_mem_escapeChars h) (by decide)

theorem writesTail_writePieces {inner : List String} {final : Option String} (hinner : "" ∉ inner)
    (hfinal : final ≠ some "") : WritesTail
      (inner.flatMap (fun s => escapeChars s.toList ++ ['*']) ++ writePiece final) inner final := by
  induction inner with
  | nil => exact .final (asterisk_notMem_writePiece _) (writesPiece_writePiece hfinal)
  | cons s inner ih =>
    have hs : some s ≠ some "" := fun e => hinner (Option.some.inj e ▸ .head _)
    rw [List.flatMap_cons, List.append_assoc, List.append_assoc]
    exact .cons (asterisk_notMem_writePiece (some s)) (writesPiece_writePiece hs)
      (ih fun hmem => hinner (.tail _ hmem))

/-- **The written form of read pieces stands for them.** -/
theorem writesPieces_writePieces {p : Pieces} (h : p.IsRead) :
    WritesPieces (writePieces p) p := by
  rw [writePieces, List.append_assoc, List.cons_append]
  exact .cons (asterisk_notMem_writePiece _) (writesPiece_writePiece h.initial)
    (writesTail_writePieces h.inner h.final)

theorem Raw.ne_nil {cs : List Char} {bytes : List UInt8} (h : Raw cs bytes) (hne : cs ≠ []) :
    bytes ≠ [] := by
  cases h with
  | nil => exact absurd rfl hne
  | escape => exact List.cons_ne_nil _ _
  | @char c =>
    have hlength := c.utf8Size_pos
    rw [← String.length_utf8EncodeChar] at hlength
    exact fun e => List.ne_nil_of_length_pos hlength (List.append_eq_nil_iff.1 e).1

theorem display_ne_empty {bytes : List UInt8} (h : bytes ≠ []) :
    (valueOfBytes bytes).display ≠ "" := by
  rw [valueOfBytes]
  split
  · rename_i s hs
    rintro rfl
    exact h (Text.eq_nil_of_ofUtf8? hs)
  · exact fun e => absurd (String.ofList_eq_empty_iff.1 e) (List.cons_ne_nil _ _)

theorem WritesPiece.ne_empty {cs : List Char} {s? : Option String} (h : WritesPiece cs s?) :
    s? ≠ some "" := by
  cases h with
  | empty => exact fun e => nomatch e
  | value hne h =>
    obtain ⟨bytes, hraw, hv⟩ := h
    rw [← denotes_iff.1 hv]
    exact fun e => display_ne_empty (hraw.ne_nil hne) (Option.some.inj e)

theorem WritesTail.ne_empty {cs : List Char} {inner : List String} {final : Option String}
    (h : WritesTail cs inner final) : "" ∉ inner ∧ final ≠ some "" := by
  induction h with
  | final _ h => exact ⟨List.not_mem_nil, h.ne_empty⟩
  | cons _ hpart _ ih =>
    refine ⟨fun hmem => ?_, ih.2⟩
    obtain hmem | hmem := List.mem_append.1 hmem
    · exact hpart.ne_empty (Option.mem_toList.1 hmem)
    · exact ih.1 hmem

theorem WritesPieces.isRead {cs : List Char} {p : Pieces} (h : WritesPieces cs p) : p.IsRead := by
  obtain ⟨_, hfirst, htail⟩ := h
  exact ⟨hfirst.ne_empty, htail.ne_empty.1, htail.ne_empty.2⟩

end Filter

/-! ## Attributes -/

namespace Filter

theorem toNat_lt_of_isAttributeChar {c : Char} (h : isAttributeChar c = true) : c.toNat < 0x80 := by
  delta isAttributeChar isRuleChar Char.isAlphanum Char.isAlpha Char.isUpper Char.isLower
    Char.isDigit at h
  simp only [Bool.or_eq_true, Bool.and_eq_true, decide_eq_true_eq, beq_iff_eq] at h
  have hle : ∀ d : Char, d.toNat < 0x80 → c ≤ d → c.toNat < 0x80 :=
    fun d hd h => Nat.lt_of_le_of_lt h hd
  obtain ((((⟨-, h⟩ | ⟨-, h⟩) | ⟨-, h⟩) | rfl) | rfl) | rfl := h
  · exact hle 'Z' (by decide) h
  · exact hle 'z' (by decide) h
  · exact hle '9' (by decide) h
  all_goals decide

theorem isAttributeChar_spec {c : Char} (h : isAttributeChar c = true) :
    Text.isBlank c = false ∧ isAttributeChar c.toLower = true := by
  have hall : ∀ n : Fin 0x80, isAttributeChar (Char.ofNat n) = true →
      Text.isBlank (Char.ofNat n) = false ∧ isAttributeChar (Char.ofNat n).toLower = true := by
    decide +kernel
  have hc := hall ⟨c.toNat, toNat_lt_of_isAttributeChar h⟩
  rw [Char.ofNat_toNat] at hc
  exact hc h

end Filter

namespace AttributeId

/-- An attribute that reading can give. -/
structure IsRead (a : AttributeId) : Prop where
  ne_nil : a.name.toList ≠ []
  letters : ∀ c ∈ a.name.toList, Filter.isAttributeChar c = true ∧ c.toLower = c

theorem IsRead.of_all {a : AttributeId} (hne : a.name.toList ≠ [])
    (h : (a.name.toList.all fun c => Filter.isAttributeChar c && c.toLower == c) = true) :
    a.IsRead where
  ne_nil := hne
  letters c hc := by simpa using List.all_eq_true.1 h c hc

theorem trim_eq_self {cs : List Char} (h : ∀ c ∈ cs, Filter.isAttributeChar c = true) :
    Text.trimChars cs = cs :=
  Text.trimChars_eq_self ⟨
    fun c hc => (Filter.isAttributeChar_spec (h c (List.mem_of_mem_head? hc))).1,
    fun c hc => (Filter.isAttributeChar_spec (h c (List.mem_of_getLast? hc))).1⟩

/-- **A read attribute is read again.** -/
theorem ofName_name {a : AttributeId} (h : a.IsRead) : ofName a.name = a := by
  have hlower : a.name.toList.map Char.toLower = a.name.toList :=
    List.map_congr_left (fun c hc => (h.letters c hc).2) |>.trans (List.map_id _)
  rw [ofName, Text.trim, trim_eq_self fun c hc => (h.letters c hc).1, String.ofList_toList,
    Text.lowerAscii, hlower, String.ofList_toList]

theorem isRead_ofName {cs : List Char} (hne : cs ≠ [])
    (h : ∀ c ∈ cs, Filter.isAttributeChar c = true) : (ofName (String.ofList cs)).IsRead := by
  have hname : (ofName (String.ofList cs)).name.toList = cs.map Char.toLower := by
    rw [ofName, Text.trim, String.toList_ofList, trim_eq_self h, Text.lowerAscii,
      String.toList_ofList, String.toList_ofList]
  refine ⟨by rwa [hname, ne_eq, List.map_eq_nil_iff], fun c hc => ?_⟩
  rw [hname] at hc
  obtain ⟨d, hd, rfl⟩ := List.mem_map.1 hc
  exact ⟨(Filter.isAttributeChar_spec (h d hd)).2, Text.toLower_toLower d⟩

end AttributeId

end Directory
