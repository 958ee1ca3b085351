import Directory.Proofs.Partition.Values
import Directory.Search.Cursor

/-!
# Evaluators agree

* `Evaluator.evaluate_eq`: the test on an element gives what the test by its number gives.
* `Evaluator.Backed`: the indices that a test was made for are there; they are when it is made.
* `Evaluator.Backed.evaluateId_eq`: **on the number of a stored entry, the test by number gives what
  the test on the record gives**, whatever the indices are asked for.
* `Evaluator.Backed.evaluateId_unstored`: on a number without an entry it gives an answer.
-/

namespace Directory

namespace Partition

variable {p : Partition} {n : Nat} {a : AttributeId} {x : Index Value} {id : EntryId} {e : Entry}

/-! ## Answers of an index -/

theorem Valued.keys_any (hp : p.Valued n) (hx : p.userIndex? a = some x) {q : Value → Bool} :
    (x.keys id).any q = true ↔ ∃ k, p.IsForm a (p.valuesOf id a) k ∧ q k = true := by
  rw [List.any_eq_true]
  simp only [Index.mem_keys (hp.sound.user a x hx), hp.index_has hx]

theorem Valued.presence_has (hp : p.Valued n) :
    p.presence.has a id = true ↔ p.Indexed a ∧ p.valuesOf id a ≠ [] :=
  Index.has_iff.trans ((hp.values id).present a)

theorem anyValue_eq (h : ∀ v ∈ e.valuesOf a, ∃ k, p.schema.normalize a v = .ok k)
    (q : Value → Bool) : ∃ b, Evaluator.anyValue p e a q = .ok b ∧
      (b = true ↔ ∃ k, p.IsForm a (e.valuesOf a) k ∧ q k = true) := by
  obtain ⟨ks, hks⟩ := Except.exists_mapM_eq_ok.2 h
  refine ⟨ks.any q, ?_, ?_⟩
  · rw [Evaluator.anyValue, hks]
    rfl
  · rw [List.any_eq_true]
    simp only [Except.mem_of_mapM_eq_ok hks]
    rfl

/-- The index of an attribute answers as the record does. -/
theorem Valued.anyValue_eq (hp : p.Valued n) (hx : p.userIndex? a = some x)
    (he : p.get? id = some e) (q : Value → Bool) :
    Evaluator.anyValue p e a q = .ok ((x.keys id).any q) := by
  obtain ⟨b, hb, hiff⟩ := Partition.anyValue_eq (p := p) (a := a) (e := e)
    (fun v hv => hp.normal id a v (valuesOf_some he ▸ hv)) q
  rw [hb]
  refine congrArg Except.ok (Bool.eq_iff_iff.2 ?_)
  rw [hiff, hp.keys_any hx, valuesOf_some he]

theorem Valued.askIndex_eq (hp : p.Valued n) (hx : p.userIndex? a = some x) {op : Comparison}
    (hop : p.indexesComparison op a = .ok true) (v : Value) (id : EntryId) :
    Evaluator.askIndex x op v id = .ok ((x.keys id).any (op.holds v)) := by
  have hequal : x.has v id = (x.keys id).any (· == v) := by
    refine Bool.eq_iff_iff.2 ?_
    rw [Index.has_iff, List.any_eq_true]
    simp only [Index.mem_keys (hp.sound.user a x hx), beq_iff_eq]
    exact ⟨fun h => ⟨v, h, rfl⟩, fun ⟨k, h, hk⟩ => hk ▸ h⟩
  have hordered : op = .atLeast ∨ op = .atMost → x.ordered = true := by
    intro h
    have hop : (if p.schema.isOrdered a then .ok ((p.userIndex? a).any Index.ordered)
        else .error (.noRangeOrdering a) : Except Error Bool) = .ok true := by
      rcases h with rfl | rfl <;> exact hop
    split at hop
    · have := Except.ok.inj hop
      rwa [hx] at this
    · cases hop
  cases op with
  | equality | approximate => exact congrArg Except.ok hequal
  | atLeast =>
    rw [Evaluator.askIndex, Index.hasAtLeast, Index.checkOrdered, hordered (.inl rfl)]
    rfl
  | atMost =>
    rw [Evaluator.askIndex, Index.hasAtMost, Index.checkOrdered, hordered (.inr rfl)]
    rfl

end Partition

namespace Evaluator

open Directory.Partition

variable {p : Partition} {n : Nat} {id : EntryId} {e : Entry}

/-! ## Indices that are there -/

mutual

/-- The indices that the test was made for are there, and have an order where one is needed. -/
def Backed (p : Partition) : Evaluator → Prop
  | presence a indexed => indexed = true → p.Indexed a
  | comparison op a _ indexed => indexed = true → p.indexesComparison op a = .ok true
  | and xs | or xs => BackedAll p xs
  | not x => x.Backed p
  | scope .. | substring .. | extensible .. => True

/-- The indices that the tests were made for are there. -/
def BackedAll (p : Partition) : List Evaluator → Prop
  | [] => True
  | x :: xs => x.Backed p ∧ BackedAll p xs

end

mutual

theorem ofFilter_backed : (f : Filter) → {x : Evaluator} → ofFilter p f = .ok x → x.Backed p
  | .scope b s m _, x, h => by
    cases h
    exact trivial
  | .presence a _, x, h => by
    cases h
    exact id
  | .comparison op a v _, x, h => by
    obtain ⟨b, hb, h⟩ := Except.bind_eq_ok.1 h
    cases h
    rintro rfl
    exact hb
  | .substring a pieces _, x, h => by
    cases h
    exact trivial
  | .extensible a none v d _, x, h => by
    cases h
    exact trivial
  | .extensible a (some r) v d _, x, h => by
    rw [ofFilter] at h
    split at h
    · cases h
      exact trivial
    · cases h
  | .and fs _, x, h | .or fs _, x, h => by
    obtain ⟨xs, hxs, h⟩ := Except.bind_eq_ok.1 h
    cases h
    exact ofFilters_backed fs hxs
  | .not f _, x, h => by
    obtain ⟨y, hy, h⟩ := Except.bind_eq_ok.1 h
    cases h
    have hback : y.Backed p := ofFilter_backed f hy
    exact hback

theorem ofFilters_backed : (fs : List Filter) → {xs : List Evaluator} →
    ofFilters p fs = .ok xs → BackedAll p xs
  | [], xs, h => by
    cases h
    exact trivial
  | f :: fs, xs, h => by
    obtain ⟨y, hy, h⟩ := Except.bind_eq_ok.1 h
    obtain ⟨ys, hys, h⟩ := Except.bind_eq_ok.1 h
    cases h
    exact ⟨ofFilter_backed f hy, ofFilters_backed fs hys⟩

end

/-! ## By number and on the record -/

mutual

/-- **The test by the number of a stored entry** gives what the test on the record gives. -/
theorem Backed.evaluateId_eq (hp : p.Valued n) (he : p.get? id = some e) : (x : Evaluator) →
    x.Backed p → x.evaluateId p id = x.evaluateEntry p e
  | .scope b s follow, _ => by rw [evaluateId, evaluateEntry, hp.own id e he]
  | .presence a false, _ => by rw [evaluateId, evaluateStored, he]
  | .presence a true, h => by
    rw [evaluateId, evaluateEntry]
    refine congrArg Except.ok (Bool.eq_iff_iff.2 ?_)
    rw [hp.presence_has, has_iff, valuesOf_some he]
    exact and_iff_right (h rfl)
  | .comparison op a v indexed, h => by
    rw [evaluateId]
    cases hx : indexFor? p a indexed with
    | none => rw [evaluateStored, he]
    | some x =>
      obtain ⟨hindexed, hx⟩ := Option.ite_none_right_eq_some.1 hx
      rw [evaluateEntry, hp.anyValue_eq hx he, ← hp.askIndex_eq hx (h hindexed)]
  | .substring a pieces indexed, _ => by
    rw [evaluateId]
    cases hx : indexFor? p a indexed with
    | none => rw [evaluateStored, he]
    | some x =>
      obtain ⟨_, hx⟩ := Option.ite_none_right_eq_some.1 hx
      rw [evaluateEntry, hp.anyValue_eq hx he]
  | .extensible a rule v inName, _ => by rw [evaluateId, evaluateStored, he]
  | .and xs, h => by rw [evaluateId, evaluateEntry, (BackedAll.evaluateId_eq hp he xs h).1]
  | .or xs, h => by rw [evaluateId, evaluateEntry, (BackedAll.evaluateId_eq hp he xs h).2]
  | .not x, h => by rw [evaluateId, evaluateEntry, Backed.evaluateId_eq hp he x h]

theorem BackedAll.evaluateId_eq (hp : p.Valued n) (he : p.get? id = some e) :
    (xs : List Evaluator) → BackedAll p xs → evaluateIdAll p id xs = evaluateEntryAll p e xs ∧
      evaluateIdAny p id xs = evaluateEntryAny p e xs
  | [], _ => ⟨rfl, rfl⟩
  | x :: xs, h => by
    obtain ⟨hall, hany⟩ := BackedAll.evaluateId_eq hp he xs h.2
    rw [evaluateIdAll, evaluateEntryAll, evaluateIdAny, evaluateEntryAny,
      Backed.evaluateId_eq hp he x h.1, hall, hany]
    exact ⟨rfl, rfl⟩

end

/-! ## Without an entry -/

mutual

/-- On a number without an entry a test by number gives an answer. -/
theorem Backed.evaluateId_unstored (hp : p.Valued n) (hnone : p.get? id = none) :
    (x : Evaluator) → x.Backed p → ∃ b, x.evaluateId p id = .ok b
  | .scope b s follow, _ => ⟨_, rfl⟩
  | .presence a false, _ => ⟨false, by rw [evaluateId, evaluateStored, hnone]⟩
  | .presence a true, _ => ⟨_, rfl⟩
  | .comparison op a v indexed, h => by
    rw [evaluateId]
    cases hx : indexFor? p a indexed with
    | none => exact ⟨false, by rw [evaluateStored, hnone]⟩
    | some x =>
      obtain ⟨hindexed, hx⟩ := Option.ite_none_right_eq_some.1 hx
      exact ⟨_, hp.askIndex_eq hx (h hindexed) v id⟩
  | .substring a pieces indexed, _ => by
    rw [evaluateId]
    cases indexFor? p a indexed with
    | none => exact ⟨false, by rw [evaluateStored, hnone]⟩
    | some x => exact ⟨_, rfl⟩
  | .extensible a rule v inName, _ => ⟨false, by rw [evaluateId, evaluateStored, hnone]⟩
  | .and xs, h => (BackedAll.evaluateId_unstored hp hnone xs h).1
  | .or xs, h => (BackedAll.evaluateId_unstored hp hnone xs h).2
  | .not x, h => by
    obtain ⟨b, hb⟩ := Backed.evaluateId_unstored hp hnone x h
    exact ⟨!b, by rw [evaluateId, hb]; rfl⟩

theorem BackedAll.evaluateId_unstored (hp : p.Valued n) (hnone : p.get? id = none) :
    (xs : List Evaluator) → BackedAll p xs →
      (∃ b, evaluateIdAll p id xs = .ok b) ∧ ∃ b, evaluateIdAny p id xs = .ok b
  | [], _ => ⟨⟨true, rfl⟩, false, rfl⟩
  | x :: xs, h => by
    obtain ⟨b, hb⟩ := Backed.evaluateId_unstored hp hnone x h.1
    obtain ⟨hall, hany⟩ := BackedAll.evaluateId_unstored hp hnone xs h.2
    rw [evaluateIdAll, evaluateIdAny, hb]
    cases b with
    | true => exact ⟨hall, true, rfl⟩
    | false => exact ⟨⟨false, rfl⟩, hany⟩

end

/-! ## On an element -/

/-- The outcome of a test that gives this answer and leaves this element. -/
def answer (el : Element SearchKey) :
    Except Error Bool → EStateM.Result Error (Element SearchKey) Bool
  | .ok b => .ok b el
  | .error e => .error e el

/-- The outcome is that of this answer, on an element of this number. -/
def Answers (id : EntryId) (v : Except Error Bool)
    (r : EStateM.Result Error (Element SearchKey) Bool) : Prop :=
  ∃ el : Element SearchKey, el.id = id ∧ r = answer el v

theorem answers_lift (v : Except Error Bool) (el : Element SearchKey) :
    Answers el.id v ((liftM v : EStateM Error (Element SearchKey) Bool) el) := by
  refine ⟨el, rfl, ?_⟩
  cases v <;> rfl

theorem answers_bind {id : EntryId} {v : Except Error Bool}
    {m : EStateM Error (Element SearchKey) Bool} {el : Element SearchKey}
    (h : Answers id v (m el)) {f : Bool → Except Error Bool}
    {g : Bool → EStateM Error (Element SearchKey) Bool}
    (hg : ∀ b (el' : Element SearchKey), el'.id = id → Answers id (f b) (g b el')) :
    Answers id (v >>= f) ((m >>= g) el) := by
  obtain ⟨el', hid, h⟩ := h
  cases v with
  | error e => exact ⟨el', hid, bind_of_error h⟩
  | ok b =>
    rw [bind_of_ok h]
    exact hg b el' hid

theorem answers_refresh (x : Evaluator) (el : Element SearchKey) :
    Answers el.id (x.evaluateStored p el.id) (x.refresh p el) := by
  refine ⟨{ el with entry := p.get? el.id }, rfl, ?_⟩
  unfold evaluateStored refresh
  dsimp only [bind, EStateM.bind, get, getThe, MonadStateOf.get, EStateM.get]
  cases p.get? el.id with
  | none => rfl
  | some e =>
    dsimp only
    cases x.evaluateEntry p e <;> rfl

theorem answers_leaf {x : Evaluator} (el : Element SearchKey)
    (h : x.indexOnly = false → x.evaluateId p el.id = x.evaluateStored p el.id) :
    Answers el.id (x.evaluateId p el.id)
      ((do if x.indexOnly then x.evaluateId p (← get).id else x.refresh p :
        EStateM Error (Element SearchKey) Bool) el) := by
  cases hx : x.indexOnly with
  | true => exact answers_lift (x.evaluateId p el.id) el
  | false =>
    rw [h hx]
    exact answers_refresh x el

mutual

/-- **The test on an element** gives what the test by its number gives. -/
theorem evaluate_eq : (x : Evaluator) → (el : Element SearchKey) →
    Answers el.id (x.evaluateId p el.id) (x.evaluate p el)
  | .scope b s follow, el => answers_leaf el fun h => nomatch h
  | .presence a true, el => answers_leaf el fun h => nomatch h
  | .presence a false, el => answers_leaf el fun _ => by rw [evaluateId]
  | .comparison op a v true, el => answers_leaf el fun h => nomatch h
  | .comparison op a v false, el => answers_leaf el fun _ => by rw [evaluateId]; rfl
  | .substring a pieces true, el => answers_leaf el fun h => nomatch h
  | .substring a pieces false, el => answers_leaf el fun _ => by rw [evaluateId]; rfl
  | .extensible a rule v d, el => answers_leaf el fun _ => by rw [evaluateId]
  | .and xs, el => by
    rw [evaluate, evaluateId]
    split
    · exact answers_lift (evaluateIdAll p el.id xs) el
    · exact (evaluateAll_eq xs el).1
  | .or xs, el => by
    rw [evaluate, evaluateId]
    split
    · exact answers_lift (evaluateIdAny p el.id xs) el
    · exact (evaluateAll_eq xs el).2
  | .not x, el => by
    rw [evaluate, evaluateId]
    exact answers_bind (evaluate_eq x el) fun b el' hid => ⟨el', hid, rfl⟩

theorem evaluateAll_eq : (xs : List Evaluator) → (el : Element SearchKey) →
    Answers el.id (evaluateIdAll p el.id xs) (evaluateAll p xs el) ∧
      Answers el.id (evaluateIdAny p el.id xs) (evaluateAny p xs el)
  | [], el => ⟨⟨el, rfl, rfl⟩, el, rfl, rfl⟩
  | x :: xs, el => by
    rw [evaluateIdAll, evaluateIdAny, evaluateAll, evaluateAny]
    constructor
    · refine answers_bind (evaluate_eq x el) fun b el' hid => ?_
      cases b with
      | true => exact hid ▸ (evaluateAll_eq xs el').1
      | false => exact ⟨el', hid, rfl⟩
    · refine answers_bind (evaluate_eq x el) fun b el' hid => ?_
      cases b with
      | true => exact ⟨el', hid, rfl⟩
      | false => exact hid ▸ (evaluateAll_eq xs el').2

end

end Evaluator

end Directory
