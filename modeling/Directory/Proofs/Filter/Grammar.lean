import Directory.Filter.Reader

/-!
# The grammar of values

What a written value, its pieces and a whole condition stand for, without reading them. Where a text
can be taken in more than one way, the grammar says which one counts.

* `Filter.Raw`: a written value, and the bytes it stands for; `Filter.Denotes`: the value of bytes.
* `Filter.WritesValue`, `Filter.WritesPiece`, `Filter.WritesPieces`: values, a piece, and pieces
  with asterisks between them.
* `Filter.Condition`: what a written value means behind the attribute and the sign of a comparison;
  `IsRaw.exists_condition`: each one means something.
* `Filter.readValue?_iff`, `Filter.readPieces?_iff`, `Filter.item?_iff`: **reading gives what the
  grammar says**.
-/

namespace Directory

theorem Text.utf8_eq_iff {s : String} {bytes : List UInt8} :
    utf8 s = bytes ↔ ofUtf8? bytes = some s := by
  rw [utf8, ofUtf8?, String.fromUTF8?]
  constructor
  · rintro rfl
    exact dif_pos s.isValidUTF8
  · intro h
    split at h
    · cases h
      rfl
    · cases h

namespace Filter

/-! ## Values -/

/-- A written value, and its bytes: characters other than parentheses, where two hexadecimal digits
follow each backslash and are one byte. -/
inductive Raw : List Char → List UInt8 → Prop
  | nil : Raw [] []
  | escape {a b : Char} {x y : Nat} {cs : List Char} {bytes : List UInt8}
      (hx : Text.hexValue? a = some x) (hy : Text.hexValue? b = some y) (h : Raw cs bytes) :
      Raw ('\\' :: a :: b :: cs) (UInt8.ofNat (16 * x + y) :: bytes)
  | char {c : Char} {cs : List Char} {bytes : List UInt8} (hc : isValueChar c = true)
      (hne : c ≠ '\\') (h : Raw cs bytes) : Raw (c :: cs) (String.utf8EncodeChar c ++ bytes)

/-- Bytes stand for the text they encode, or for themselves if they encode none. -/
inductive Denotes (bytes : List UInt8) : Value → Prop
  | text {s : String} (h : Text.utf8 s = bytes) : Denotes bytes (.text s)
  | binary (h : ∀ s, Text.utf8 s ≠ bytes) : Denotes bytes (.binary bytes)

/-- A written value. -/
def IsRaw (cs : List Char) : Prop := ∃ bytes, Raw cs bytes

/-- The written value stands for the value. -/
def WritesValue (cs : List Char) (v : Value) : Prop := ∃ bytes, Raw cs bytes ∧ Denotes bytes v

/-- A piece between asterisks; an empty one is none. -/
inductive WritesPiece : List Char → Option String → Prop
  | empty : WritesPiece [] none
  | value {cs : List Char} {v : Value} (hne : cs ≠ []) (h : WritesValue cs v) :
      WritesPiece cs (some v.display)

/-- The pieces behind the first asterisk: inner ones, each with an asterisk after it, and the final
one. -/
inductive WritesTail : List Char → List String → Option String → Prop
  | final {cs : List Char} {final : Option String} (hasterisk : '*' ∉ cs)
      (h : WritesPiece cs final) : WritesTail cs [] final
  | cons {part cs : List Char} {s? : Option String} {inner : List String} {final : Option String}
      (hasterisk : '*' ∉ part) (hpart : WritesPiece part s?) (h : WritesTail cs inner final) :
      WritesTail (part ++ '*' :: cs) (s?.toList ++ inner) final

/-- Pieces with asterisks between them. -/
inductive WritesPieces : List Char → Pieces → Prop
  | cons {first cs : List Char} {p : Pieces} (hasterisk : '*' ∉ first)
      (hfirst : WritesPiece first p.initial) (h : WritesTail cs p.inner p.final) :
      WritesPieces (first ++ '*' :: cs) p

/-- What a written value means behind the attribute and the sign of a comparison. -/
inductive Condition (a : AttributeId) : Comparison → List Char → Filter → Prop
  | presence : Condition a .equality ['*'] (.presence a none)
  | substring {raw : List Char} {p : Pieces} (hne : raw ≠ ['*']) (h : WritesPieces raw p) :
      Condition a .equality raw (.substring a p none)
  | comparison {op : Comparison} {raw : List Char} {v : Value}
      (hasterisk : op = .equality → '*' ∉ raw) (h : WritesValue raw v) :
      Condition a op raw (.comparison op a v none)

/-! ## Reading values -/

/-- A character that neither ends a value nor divides it into pieces. -/
def isPlain (c : Char) : Bool := isValueChar c && c != '*'

section Values

variable {cs : List Char} {bytes : List UInt8} {v : Value}

theorem isPlain_of_hexValue? {c : Char} {x : Nat} (h : Text.hexValue? c = some x) :
    isPlain c = true := by
  have hdigit : (Text.hexValue? c).isSome = true := by rw [h]; rfl
  by_cases hne : c = '(' ∨ c = ')' ∨ c = '*'
  · obtain rfl | rfl | rfl := hne
    all_goals exact absurd hdigit (by decide)
  · simp only [not_or] at hne
    simp only [isPlain, isValueChar, Bool.and_eq_true, bne_iff_ne]
    exact ⟨⟨hne.1, hne.2.1⟩, hne.2.2⟩

theorem Raw.isValueChar (h : Raw cs bytes) : ∀ c ∈ cs, isValueChar c = true := by
  have hdigit : ∀ {c x}, Text.hexValue? c = some x → Filter.isValueChar c = true := fun hx =>
    (Bool.and_eq_true_iff.1 (isPlain_of_hexValue? hx)).1
  induction h with
  | nil => exact List.forall_mem_nil _
  | escape hx hy _ ih =>
    exact List.forall_mem_cons.2 ⟨by decide,
      List.forall_mem_cons.2 ⟨hdigit hx, List.forall_mem_cons.2 ⟨hdigit hy, ih⟩⟩⟩
  | char hc _ _ ih => exact List.forall_mem_cons.2 ⟨hc, ih⟩

theorem readBytes?_cons {c : Char} (h : c ≠ '\\') (cs : List Char) :
    readBytes? (c :: cs) = (String.utf8EncodeChar c ++ ·) <$> readBytes? cs := by
  rw [readBytes?.eq_def]
  split
  · rename_i e; cases e
  · rename_i e; cases e; exact absurd rfl h
  · rename_i e; cases e; rw [if_neg h]

theorem readBytes?_digits {a b : Char} {x y : Nat} (hx : Text.hexValue? a = some x)
    (hy : Text.hexValue? b = some y) {cs : List Char} {bytes : List UInt8}
    (hcs : readBytes? cs = some bytes) :
    readBytes? ('\\' :: a :: b :: cs) = some (UInt8.ofNat (16 * x + y) :: bytes) := by
  simp only [readBytes?, hx, hy, hcs, Option.bind_eq_bind, Option.bind_some, Option.pure_def]

/-- **The bytes of a written value are those that are read.** -/
theorem readBytes?_iff (hcs : ∀ c ∈ cs, isValueChar c = true) :
    readBytes? cs = some bytes ↔ Raw cs bytes := by
  constructor
  · intro h
    fun_induction readBytes? cs generalizing bytes with
    | case1 =>
      cases h
      exact .nil
    | case2 a b cs ih =>
      simp only [Option.bind_eq_bind, Option.bind_eq_some_iff, Option.pure_def,
        Option.some.injEq] at h
      obtain ⟨x, hx, y, hy, bytes, hbytes, rfl⟩ := h
      exact .escape hx hy (ih (fun c hc => hcs c (.tail _ (.tail _ (.tail _ hc)))) hbytes)
    | case3 => cases h
    | case4 c cs _ hne ih =>
      obtain ⟨bytes, hbytes, rfl⟩ := Option.map_eq_some_iff.1 h
      exact .char (hcs c (.head _)) hne (ih (fun c hc => hcs c (.tail _ hc)) hbytes)
  · intro h
    induction h with
    | nil => rfl
    | escape hx hy _ ih =>
      exact readBytes?_digits hx hy (ih fun c hc => hcs c (.tail _ (.tail _ (.tail _ hc))))
    | char _ hne _ ih =>
      rw [readBytes?_cons hne, ih fun c hc => hcs c (.tail _ hc), Option.map_eq_map,
        Option.map_some]

theorem denotes_iff : Denotes bytes v ↔ valueOfBytes bytes = v := by
  rw [valueOfBytes]
  cases h : Text.ofUtf8? bytes with
  | some s =>
    have hs := Text.utf8_eq_iff.2 h
    refine ⟨fun hv => ?_, fun hv => hv ▸ .text hs⟩
    cases hv with
    | text hs' => rw [Option.some.inj (h.symm.trans (Text.utf8_eq_iff.1 hs'))]
    | binary hnone => exact absurd hs (hnone s)
  | none =>
    have hnone : ∀ s, Text.utf8 s ≠ bytes := fun s hs => by
      rw [Text.utf8_eq_iff, h] at hs
      cases hs
    refine ⟨fun hv => ?_, fun hv => hv ▸ .binary hnone⟩
    cases hv with
    | text hs => exact absurd hs (hnone _)
    | binary _ => rfl

theorem readValue?_iff (hcs : ∀ c ∈ cs, isValueChar c = true) :
    readValue? cs = some v ↔ WritesValue cs v := by
  simp only [readValue?, Option.map_eq_map, Option.map_eq_some_iff, readBytes?_iff hcs,
    ← denotes_iff, WritesValue]

end Values

/-! ## Reading pieces -/

section Pieces

variable {cs ds : List Char} {bytes : List UInt8}

theorem Raw.append {bytes' : List UInt8} (h : Raw cs bytes) (h' : Raw ds bytes') :
    Raw (cs ++ ds) (bytes ++ bytes') := by
  induction h with
  | nil => exact h'
  | escape hx hy _ ih => exact .escape hx hy ih
  | char hc hne _ ih =>
    rw [List.append_assoc]
    exact .char hc hne ih

theorem IsRaw.append (h : IsRaw cs) (h' : IsRaw ds) : IsRaw (cs ++ ds) := by
  obtain ⟨_, h⟩ := h
  obtain ⟨_, h'⟩ := h'
  exact ⟨_, h.append h'⟩

/-- No escape goes over an asterisk. -/
theorem isRaw_append_asterisk : IsRaw (cs ++ '*' :: ds) ↔ IsRaw cs ∧ IsRaw ds := by
  constructor
  · rintro ⟨bytes, h⟩
    generalize hes : cs ++ '*' :: ds = es at h
    induction h generalizing cs with
    | nil => exact absurd hes (by simp)
    | @escape a b x y rest bytes hx hy h ih =>
      have hplain : ∀ {c n}, Text.hexValue? c = some n → c ≠ '*' := fun hn => by
        rintro rfl
        exact absurd (isPlain_of_hexValue? hn) (by decide)
      rcases cs with _ | ⟨c, _ | ⟨d, _ | ⟨e, cs⟩⟩⟩
      · cases hes
      · cases hes
        exact absurd rfl (hplain hx)
      · cases hes
        exact absurd rfl (hplain hy)
      · cases hes
        obtain ⟨⟨bytes, hcs⟩, hds⟩ := ih rfl
        exact ⟨⟨_, .escape hx hy hcs⟩, hds⟩
    | @char c rest bytes hc hne h ih =>
      cases cs with
      | nil =>
        cases hes
        exact ⟨⟨[], .nil⟩, ⟨bytes, h⟩⟩
      | cons d cs =>
        cases hes
        obtain ⟨⟨bytes, hcs⟩, hds⟩ := ih rfl
        exact ⟨⟨_, .char hc hne hcs⟩, hds⟩
  · rintro ⟨hcs, ⟨_, hds⟩⟩
    exact hcs.append ⟨_, .char (by decide) (by decide) hds⟩

theorem IsRaw.exists_writesValue (h : IsRaw cs) : ∃ v, WritesValue cs v := by
  obtain ⟨bytes, h⟩ := h
  exact ⟨_, bytes, h, denotes_iff.2 rfl⟩

theorem isRaw_of_writesValue {v : Value} (h : WritesValue cs v) : IsRaw cs := by
  obtain ⟨bytes, hcs, _⟩ := h
  exact ⟨bytes, hcs⟩

theorem WritesPiece.isRaw {s? : Option String} (h : WritesPiece cs s?) : IsRaw cs := by
  cases h with
  | empty => exact ⟨[], .nil⟩
  | value _ h => exact isRaw_of_writesValue h

theorem readPiece?_iff (hcs : ∀ c ∈ cs, isValueChar c = true) {s? : Option String} :
    readPiece? cs = some s? ↔ WritesPiece cs s? := by
  rw [readPiece?]
  cases cs with
  | nil =>
    refine ⟨?_, ?_⟩
    · rintro ⟨⟩
      exact .empty
    · rintro (_ | ⟨hne, _⟩)
      · rfl
      · exact absurd rfl hne
  | cons c cs =>
    rw [List.isEmpty_cons, if_neg Bool.false_ne_true, Option.map_eq_map, Option.map_eq_some_iff]
    constructor
    · rintro ⟨v, hv, rfl⟩
      exact .value (List.cons_ne_nil _ _) ((readValue?_iff hcs).1 hv)
    · rintro (_ | ⟨_, h⟩)
      exact ⟨_, (readValue?_iff hcs).2 h, rfl⟩

theorem WritesTail.isRaw {inner : List String} {final : Option String}
    (h : WritesTail cs inner final) : IsRaw cs := by
  induction h with
  | final _ h => exact h.isRaw
  | cons _ hpart _ ih => exact isRaw_append_asterisk.2 ⟨hpart.isRaw, ih⟩

theorem WritesPieces.isRaw {p : Pieces} (h : WritesPieces cs p) : IsRaw cs := by
  obtain ⟨_, hfirst, h⟩ := h
  exact isRaw_append_asterisk.2 ⟨hfirst.isRaw, h.isRaw⟩

/-- A text is one part or goes on behind its first asterisk. -/
theorem parts_induction {motive : List Char → Prop}
    (final : ∀ cs, '*' ∉ cs → motive cs)
    (cons : ∀ part cs, '*' ∉ part → motive cs → motive (part ++ '*' :: cs)) (cs : List Char) :
    motive cs := by
  induction hn : cs.length using Nat.strongRecOn generalizing cs with | ind n ih =>
  subst hn
  by_cases hasterisk : '*' ∈ cs
  · obtain ⟨part, ds, rfl, hpart⟩ := List.eq_append_cons_of_mem hasterisk
    refine cons part ds hpart (ih _ ?_ ds rfl)
    simp only [List.length_append, List.length_cons]
    omega
  · exact final cs hasterisk

theorem IsRaw.exists_writesPiece (h : IsRaw cs) : ∃ s?, WritesPiece cs s? := by
  cases cs with
  | nil => exact ⟨none, .empty⟩
  | cons c cs =>
    obtain ⟨v, hv⟩ := h.exists_writesValue
    exact ⟨_, .value (List.cons_ne_nil _ _) hv⟩

theorem IsRaw.exists_writesTail (h : IsRaw cs) : ∃ inner final, WritesTail cs inner final := by
  induction cs using parts_induction with
  | final cs hasterisk =>
    obtain ⟨s?, hs⟩ := h.exists_writesPiece
    exact ⟨[], s?, .final hasterisk hs⟩
  | cons part cs hasterisk ih =>
    obtain ⟨hpart, hcs⟩ := isRaw_append_asterisk.1 h
    obtain ⟨s?, hs⟩ := hpart.exists_writesPiece
    obtain ⟨inner, final, htail⟩ := ih hcs
    exact ⟨_, final, .cons hasterisk hs htail⟩

/-- What is read behind the first asterisk. -/
def readTail? (cs : List Char) : Option (List String × Option String) := do
  let inner ← (splitPieces cs).dropLast.mapM readPiece?
  let final ← readPiece? ((splitPieces cs).getLastD [])
  return (inner.filterMap id, final)

theorem splitPieces_append {part : List Char} (h : '*' ∉ part) (cs : List Char) :
    splitPieces (part ++ '*' :: cs) = part :: splitPieces cs :=
  List.splitOn_append_cons_self_of_not_mem h cs

theorem readTail?_of_notMem (h : '*' ∉ cs) : readTail? cs = (([], ·) <$> readPiece? cs) := by
  rw [readTail?, splitPieces, List.splitOn_eq_singleton h]
  cases hcs : readPiece? cs <;> simp [hcs]

theorem readTail?_append {part : List Char} (h : '*' ∉ part) (cs : List Char) :
    readTail? (part ++ '*' :: cs) = do
      let s? ← readPiece? part
      let (inner, final) ← readTail? cs
      return (s?.toList ++ inner, final) := by
  have hne : splitPieces cs ≠ [] := List.splitOn_ne_nil '*' cs
  rw [readTail?, readTail?, splitPieces_append h]
  obtain ⟨part', parts, hparts⟩ := List.exists_cons_of_ne_nil hne
  simp only [hparts, List.dropLast_cons_cons, List.mapM_cons, List.getLastD_cons]
  rcases readPiece? part with _ | _ | s
  · rfl
  all_goals
    cases (part' :: parts).dropLast.mapM readPiece? with
    | none => rfl
    | some ps => cases readPiece? (parts.getLastD part') <;> rfl

theorem readPieces?_append {first : List Char} (h : '*' ∉ first) (cs : List Char) :
    readPieces? (first ++ '*' :: cs) = do
      let initial ← readPiece? first
      let (inner, final) ← readTail? cs
      return ⟨initial, inner, final⟩ := by
  simp only [readPieces?, splitPieces_append h, readTail?]
  cases readPiece? first with
  | none => rfl
  | some s? =>
    cases (splitPieces cs).dropLast.mapM readPiece? with
    | none => rfl
    | some ps => cases readPiece? ((splitPieces cs).getLastD []) <;> rfl

theorem readTail?_iff (hcs : ∀ c ∈ cs, isValueChar c = true) {inner : List String}
    {final : Option String} : readTail? cs = some (inner, final) ↔ WritesTail cs inner final := by
  constructor
  · intro h
    induction cs using parts_induction generalizing inner with
    | final cs hasterisk =>
      rw [readTail?_of_notMem hasterisk, Option.map_eq_map, Option.map_eq_some_iff] at h
      obtain ⟨_, hs, h⟩ := h
      cases h
      exact .final hasterisk ((readPiece?_iff hcs).1 hs)
    | cons part cs hasterisk ih =>
      obtain ⟨hpart, hcs⟩ := List.forall_mem_append.1 hcs
      rw [readTail?_append hasterisk] at h
      simp only [Option.bind_eq_bind, Option.bind_eq_some_iff, Option.pure_def,
        Option.some.injEq, Prod.exists, Prod.mk.injEq] at h
      obtain ⟨s?, hs, inner, _, htail, rfl, rfl⟩ := h
      exact .cons hasterisk ((readPiece?_iff hpart).1 hs)
        (ih (fun c hc => hcs c (.tail _ hc)) htail)
  · intro h
    induction h with
    | final hasterisk h =>
      rw [readTail?_of_notMem hasterisk, (readPiece?_iff hcs).2 h]
      rfl
    | cons hasterisk h _ ih =>
      obtain ⟨hpart, hcs⟩ := List.forall_mem_append.1 hcs
      rw [readTail?_append hasterisk, (readPiece?_iff hpart).2 h,
        ih fun c hc => hcs c (.tail _ hc)]
      rfl

/-- **The pieces of a written value are those that are read.** -/
theorem readPieces?_iff (hcs : ∀ c ∈ cs, isValueChar c = true) (hasterisk : '*' ∈ cs) {p : Pieces} :
    readPieces? cs = some p ↔ WritesPieces cs p := by
  constructor
  · intro h
    obtain ⟨first, cs, rfl, hfirst⟩ := List.eq_append_cons_of_mem hasterisk
    obtain ⟨hpart, hcs⟩ := List.forall_mem_append.1 hcs
    rw [readPieces?_append hfirst] at h
    simp only [Option.bind_eq_bind, Option.bind_eq_some_iff, Option.pure_def, Option.some.injEq,
      Prod.exists] at h
    obtain ⟨initial, hs, inner, final, htail, rfl⟩ := h
    exact .cons hfirst ((readPiece?_iff hpart).1 hs)
      ((readTail?_iff fun c hc => hcs c (.tail _ hc)).1 htail)
  · rintro ⟨hfirst, hs, h⟩
    obtain ⟨hpart, hcs⟩ := List.forall_mem_append.1 hcs
    rw [readPieces?_append hfirst, (readPiece?_iff hpart).2 hs,
      (readTail?_iff fun c hc => hcs c (.tail _ hc)).2 h]
    rfl

end Pieces

/-! ## Conditions -/

section Conditions

variable {a : AttributeId} {op : Comparison} {raw : List Char} {f : Filter}

theorem Condition.isRaw (h : Condition a op raw f) : IsRaw raw := by
  cases h with
  | presence => exact ⟨_, .char (by decide) (by decide) .nil⟩
  | substring _ h => exact h.isRaw
  | comparison _ h => exact isRaw_of_writesValue h

/-- **Each written value means something.** -/
theorem IsRaw.exists_condition (h : IsRaw raw) (a : AttributeId) (op : Comparison) :
    ∃ f, Condition a op raw f := by
  by_cases hasterisk : op = .equality ∧ '*' ∈ raw
  · obtain ⟨rfl, hmem⟩ := hasterisk
    by_cases hne : raw = ['*']
    · subst hne
      exact ⟨_, .presence⟩
    · obtain ⟨first, cs, rfl, hfirst⟩ := List.eq_append_cons_of_mem hmem
      obtain ⟨hpart, hcs⟩ := isRaw_append_asterisk.1 h
      obtain ⟨initial, hs⟩ := hpart.exists_writesPiece
      obtain ⟨inner, final, htail⟩ := hcs.exists_writesTail
      exact ⟨_, .substring (p := ⟨initial, inner, final⟩) hne (.cons hfirst hs htail)⟩
  · obtain ⟨v, hv⟩ := h.exists_writesValue
    exact ⟨_, .comparison (fun e hmem => hasterisk ⟨e, hmem⟩) hv⟩

/-- **A written value means what is read.** -/
theorem item?_iff (hraw : ∀ c ∈ raw, isValueChar c = true) :
    item? a op raw = some f ↔ Condition a op raw f := by
  have hmem : '*' ∈ ['*'] := List.mem_singleton_self _
  constructor
  · intro h
    unfold item? at h
    split at h
    · rename_i hpresence
      obtain ⟨rfl, rfl⟩ := hpresence
      cases h
      exact .presence
    · rename_i hne
      split at h
      · rename_i hasterisk
        obtain ⟨rfl, hasterisk⟩ := hasterisk
        obtain ⟨p, hp, rfl⟩ := Option.map_eq_some_iff.1 h
        exact .substring (fun e => hne ⟨rfl, e⟩) ((readPieces?_iff hraw hasterisk).1 hp)
      · rename_i hasterisk
        obtain ⟨v, hv, rfl⟩ := Option.map_eq_some_iff.1 h
        exact .comparison (fun e hmem => hasterisk ⟨e, hmem⟩) ((readValue?_iff hraw).1 hv)
  · intro h
    cases h with
    | presence => rfl
    | substring hne h =>
      have hasterisk : '*' ∈ raw := by
        obtain ⟨_, _, _⟩ := h
        exact List.mem_append_right _ (.head _)
      rw [item?, if_neg fun e => hne e.2, if_pos ⟨rfl, hasterisk⟩,
        (readPieces?_iff hraw hasterisk).2 h]
      rfl
    | comparison hasterisk h =>
      rw [item?, if_neg, if_neg fun e => hasterisk e.1 e.2, (readValue?_iff hraw).2 h]
      · rfl
      · rintro ⟨rfl, rfl⟩
        exact hasterisk rfl hmem

end Conditions

end Filter

end Directory
