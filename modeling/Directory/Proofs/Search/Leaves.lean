import Directory.Proofs.Cursor.Standing
import Directory.Search.Candidates
import Directory.Search.Leaves

/-!
# Walkers over entries walk their candidates

One relation for each kind tells the track for which a state stands; one lemma, that the operations
are those of the track.
-/

namespace Directory

variable {p : Partition} {w : Way}

/-! ## Candidates without tests -/

theorem Test.accept_bare {c : Candidate} (h : c.2 = []) : Test.accept p c = .ok (some c.1) := by
  rw [accept, h]
  rfl

theorem ensureOpen_ok {σ : Type} {s : σ} {closed : Bool} (h : closed = false) (operation : String) :
    ensureOpen closed operation s = .ok () s := by
  rw [h]
  rfl

theorem Track.move_bare {α : Type} {u : Track α} {f : α → Candidate} (hf : ∀ x, (f x).2 = []) :
    (u.map f).move w (Test.accept p) =
      (.ok ((u.stepOn w).here.map fun x => (f x).1), (u.stepOn w).map f) :=
  move_kept fun x => Test.accept_bare (hf x)

/-! ## No element -/

/-- The walker is open, and stands for the track of nothing. -/
def EmptyWalker.Stands (c : EmptyWalker) (t : Track Candidate) (e : Option (Element SearchKey)) :
    Prop :=
  c.closed = false ∧ t = .start [] ∧ e = none

theorem EmptyWalker.walks : EmptyWalker.navigation.Walks (Test.accept p) EmptyWalker.Stands where
  isOpen h := h.1
  size h := by
    rw [h.2.1]
    exact Nat.le_refl 0
  restart := by
    rintro ⟨_⟩ _ _ w ⟨rfl, rfl, rfl⟩
    cases w <;> exact ⟨⟨false⟩, rfl, rfl, rfl, rfl⟩
  advance := by
    rintro ⟨_⟩ _ _ w ⟨rfl, rfl, rfl⟩
    cases w <;> exact .moved ⟨rfl, rfl, rfl⟩
  element := by
    rintro ⟨_⟩ _ _ ⟨rfl, rfl, rfl⟩
    rfl
  available := by
    rintro ⟨_⟩ _ _ ⟨rfl, rfl, rfl⟩
    rfl

/-! ## One element -/

/-- The walker is open, and stands for the track of its element. -/
inductive SingleWalker.Stands : SingleWalker → Track Candidate → Option (Element SearchKey) → Prop
  | front {el : Element SearchKey} :
      Stands ⟨el, .beforeFirst, false⟩ ⟨[], none, [(el, [])]⟩ none
  | on {el : Element SearchKey} : Stands ⟨el, .on (), false⟩ ⟨[], some (el, []), []⟩ (some el)
  | behind {el : Element SearchKey} : Stands ⟨el, .afterLast, false⟩ ⟨[(el, [])], none, []⟩ none

theorem SingleWalker.walks : SingleWalker.navigation.Walks (Test.accept p) SingleWalker.Stands where
  isOpen h := by cases h <;> rfl
  size h := by cases h <;> exact Nat.le_refl 1
  restart w h := by
    cases w with
    | forward => cases h <;> exact ⟨_, rfl, .front⟩
    | backward => cases h <;> exact ⟨_, rfl, .behind⟩
  advance w h := by
    cases w with
    | forward =>
      cases h with
      | front => exact .moved .on
      | on => exact .moved .behind
      | behind => exact .moved .behind
    | backward =>
      cases h with
      | front => exact .moved .front
      | on => exact .moved .front
      | behind => exact .moved .on
  element h := by cases h <;> rfl
  available h := by cases h <;> rfl

/-! ## All entries -/

/-- An entry as a candidate, with its record. -/
def MasterWalker.candidate (b : EntryId × Entry) : Candidate := (⟨none, b.1, some b.2⟩, [])

/-- The walker is open, and stands for the track of its entries. -/
inductive MasterWalker.Stands : MasterWalker → Track Candidate → Option (Element SearchKey) → Prop
  | intro {table : SortedMap EntryId Entry} {place : Place EntryId} {t : Track (EntryId × Entry)}
      (hlist : t.toList = table.toList) (hplace : place.At compare Prod.fst t) :
      Stands ⟨table, place, t.here.map Prod.snd, false⟩ (t.map candidate)
        (t.here.map fun b => (candidate b).1)

theorem MasterWalker.walks : MasterWalker.navigation.Walks (Test.accept p) MasterWalker.Stands where
  isOpen h := by
    cases h
    rfl
  size h := by
    cases h with
    | @intro table place t hlist hplace =>
      rw [Track.length, Track.toList_map, hlist, List.length_map]
      exact Nat.le_refl _
  restart w h := by
    cases h with
    | @intro table place t hlist hplace =>
      refine ⟨⟨table, .start w, none, false⟩, by cases w <;> rfl, ?_⟩
      have hstands := Stands.intro (t := t.outset w) (by rw [Track.toList_outset, hlist])
        (@Place.outset_at _ _ compare Prod.fst w t)
      have hhere : (t.outset w).here = none := by cases w <;> rfl
      rwa [hhere, ← Track.outset_map] at hstands
  advance w h := by
    cases h with
    | @intro table place t hlist hplace =>
      have hnext := hplace.neighbour (w := w) (hlist ▸ table.increasing)
      rw [hlist, ← Track.here_stepOn] at hnext
      have hmove : navigation.advance w ⟨table, place, t.here.map Prod.snd, false⟩ =
          .ok (t.stepOn w).here.isSome ⟨table, .landed w Prod.fst (t.stepOn w).here,
            (t.stepOn w).here.map Prod.snd, false⟩ := by
        rw [← hnext]
        cases w <;> rfl
      rw [hmove, Track.move_bare fun _ => rfl, ← Option.isSome_map]
      exact .moved (.intro (by rw [Track.toList_stepOn, hlist])
        (Track.here_stepOn ▸ Place.landed_at t))
  element h := by
    cases h with
    | intro hlist hplace => cases hplace <;> rfl
  available h := by
    cases h with
    | intro hlist hplace =>
      rw [Option.isSome_map, ← hplace.isOn]
      rfl

/-! ## The entries of a key -/

namespace KeyWalker

variable {c : KeyWalker} {t : Track EntryId}

/-- The walker is open, and its place stands for the track of its entries. -/
structure At (c : KeyWalker) (t : Track EntryId) : Prop where
  isOpen : c.closed = false
  list : t.toList = c.ids.toList
  place : c.place.At compare id t

theorem restart_at (hopen : c.closed = false) (w : Way) :
    ∃ c', restart w c = .ok () c' ∧ c'.At ((Track.start c.ids.toList).outset w) ∧
      c'.ids = c.ids ∧ c'.label = c.label := by
  obtain ⟨ids, label, place, closed⟩ := c
  obtain rfl : closed = false := hopen
  refine ⟨⟨ids, label, .start w, false⟩, rfl, ⟨rfl, ?_, Place.outset_at _⟩, rfl, rfl⟩
  rw [Track.toList_outset, Track.toList_start]

theorem At.advance (h : c.At t) (w : Way) : ∃ c',
    KeyWalker.advance w c = .ok (t.stepOn w).here.isSome c' ∧ c'.At (t.stepOn w) ∧
      c'.ids = c.ids ∧ c'.label = c.label := by
  obtain ⟨ids, label, place, closed⟩ := c
  obtain rfl : closed = false := h.isOpen
  have hnext := h.place.neighbour (w := w) (h.list ▸ ids.increasing)
  rw [h.list, ← Track.here_stepOn] at hnext
  refine ⟨⟨ids, label, .landed w id (t.stepOn w).here, false⟩, ?_, ⟨rfl, ?_, ?_⟩, rfl, rfl⟩
  · rw [← hnext]
    rfl
  · rw [Track.toList_stepOn, h.list]
  · exact Track.here_stepOn ▸ Place.landed_at t

theorem At.element (h : c.At t) : KeyWalker.element c =
    t.here.elim (.error (.notPositioned "get()") c) fun id => .ok ⟨c.label, id, none⟩ c := by
  obtain ⟨ids, label, place, closed⟩ := c
  obtain rfl : closed = false := h.isOpen
  cases h.place <;> rfl

theorem At.available (h : c.At t) : c.available = t.here.isSome := by
  rw [KeyWalker.available, h.isOpen, h.place.isOn]
  rfl

/-- The walker stands for the track of its entries as candidates. -/
def Stands (c : KeyWalker) (t : Track Candidate) (e : Option (Element SearchKey)) : Prop :=
  ∃ u, c.At u ∧ t = u.map (Candidate.ofId c.label) ∧ e = u.here.map fun id => ⟨c.label, id, none⟩

theorem walks : navigation.Walks (Test.accept p) Stands where
  isOpen := by
    rintro c _ _ ⟨u, hat, rfl, rfl⟩
    exact hat.isOpen
  size := by
    rintro c _ _ ⟨u, hat, rfl, rfl⟩
    rw [Track.length, Track.toList_map, hat.list, List.length_map]
    exact Nat.le_refl _
  restart := by
    rintro c _ _ w ⟨u, hat, rfl, rfl⟩
    obtain ⟨c', hc', hat', hids, hlabel⟩ := restart_at hat.isOpen w
    refine ⟨c', by cases w <;> exact hc', _, hat', ?_, by cases w <;> rfl⟩
    rw [hlabel, Track.outset_map, Track.outset_eq, Track.outset_eq, Track.toList_start, hat.list]
  advance := by
    rintro c _ _ w ⟨u, hat, rfl, rfl⟩
    obtain ⟨c', hc', hat', hids, hlabel⟩ := hat.advance w
    have hmove : navigation.advance w c = .ok (u.stepOn w).here.isSome c' := by
      cases w <;> exact hc'
    rw [Track.move_bare fun _ => rfl, hmove, ← Option.isSome_map]
    exact .moved ⟨_, hat', by rw [hlabel], by rw [hlabel]; rfl⟩
  element := by
    rintro c _ _ ⟨u, hat, rfl, rfl⟩
    rw [show navigation.element c = KeyWalker.element c from rfl, hat.element]
    cases u.here <;> rfl
  available := by
    rintro c _ _ ⟨u, hat, rfl, rfl⟩
    rw [Option.isSome_map]
    exact hat.available

end KeyWalker

/-! ## The entries of a scope -/

/-- The walker is open and its elements have no key. -/
def KeyWalker.Plain (k : KeyWalker) : Prop := k.closed = false ∧ k.label = none

namespace ScopeWalker

variable {c c' : ScopeWalker} {k k' : KeyWalker} {u v : Track EntryId}

/-- The entries of the part before the current one. -/
def before (c : ScopeWalker) : List EntryId :=
  match c.part with
  | .structural => []
  | .aliased => c.structural.ids.toList

/-- The entries of the part after the current one. -/
def after (c : ScopeWalker) : List EntryId :=
  match c.part with
  | .structural => c.aliased.elim [] (·.ids.toList)
  | .aliased => []

/-- The number of parts that are still to come. -/
def turns (w : Way) (c : ScopeWalker) : Nat := if (c.turn? w).isSome then 1 else 0

/-- The walker is open, and the place of its part stands for the track of the entries of both parts,
hidden ones included. -/
structure Raw (c : ScopeWalker) (u : Track EntryId) : Prop where
  isOpen : c.closed = false
  plain : c.structural.Plain ∧ ∀ k ∈ c.aliased, k.Plain
  place : ∃ k v, c.current? = some k ∧ k.At v ∧ u = v.among c.before c.after

/-- All entries, hidden ones included. -/
def ids (c : ScopeWalker) : List EntryId :=
  c.structural.ids.toList ++ c.aliased.elim [] (·.ids.toList)

theorem Raw.toList (h : c.Raw u) : u.toList = c.ids := by
  obtain ⟨k, v, hk, hat, rfl⟩ := h.place
  obtain ⟨s, a, hidden, part, closed⟩ := c
  rw [Track.toList_among, hat.list]
  cases part with
  | structural =>
    cases hk
    rfl
  | aliased =>
    obtain rfl : a = some k := hk
    simp [before, after, ids]

theorem length_ids : c.ids.length = c.size := by
  obtain ⟨s, a, hidden, part, closed⟩ := c
  cases a <;> simp [ids, size, SortedSet.size]

theorem current?_setCurrent : (c.setCurrent k').current? = some k' := by
  obtain ⟨s, a, hidden, part, closed⟩ := c
  cases part <;> rfl

theorem setCurrent_self (h : c.current? = some k) : c.setCurrent k = c := by
  obtain ⟨s, a, hidden, part, closed⟩ := c
  cases part with
  | structural =>
    cases h
    rfl
  | aliased =>
    obtain rfl : a = some k := h
    rfl

theorem setCurrent_setCurrent (k'' : KeyWalker) :
    (c.setCurrent k').setCurrent k'' = c.setCurrent k'' := by
  obtain ⟨s, a, hidden, part, closed⟩ := c
  cases part <;> rfl

theorem before_setCurrent : (c.setCurrent k').before = c.before := by
  obtain ⟨s, a, hidden, part, closed⟩ := c
  cases part <;> rfl

theorem after_setCurrent : (c.setCurrent k').after = c.after := by
  obtain ⟨s, a, hidden, part, closed⟩ := c
  cases part <;> rfl

theorem Raw.setCurrent (h : c.Raw u) (hk : c.current? = some k) (hat : k'.At v)
    (hids : k'.ids = k.ids) (hlabel : k'.label = k.label) :
    (c.setCurrent k').Raw (v.among c.before c.after) ∧
      ∀ w, (c.setCurrent k').turns w = c.turns w := by
  obtain ⟨hopen, ⟨hs, ha⟩, _⟩ := h
  obtain ⟨s, a, hidden, part, closed⟩ := c
  cases part with
  | structural =>
    cases hk
    refine ⟨⟨hopen, ⟨⟨hat.isOpen, hlabel.trans hs.2⟩, ha⟩, k', v, rfl, hat, rfl⟩, ?_⟩
    rintro (_ | _) <;> rfl
  | aliased =>
    obtain rfl : a = some k := hk
    have hk' : k'.Plain := ⟨hat.isOpen, hlabel.trans (ha k rfl).2⟩
    refine ⟨⟨hopen, ⟨hs, fun k hk => ?_⟩, k', v, rfl, hat, rfl⟩, ?_⟩
    · cases hk
      exact hk'
    · rintro (_ | _) <;> rfl

/-! ### One attempt -/

theorem onCurrent_ok {α : Type} {m : EStateM Error KeyWalker α} {a : α}
    (hk : c.current? = some k) (hm : m k = .ok a k') :
    onCurrent m c = .ok (some a) (c.setCurrent k') := by
  rw [onCurrent, hk]
  dsimp only
  rw [map_of_ok hm]
  rfl

theorem enter_ok {part : ScopePart} {m : EStateM Error KeyWalker Unit}
    (hk : ({ c with part } : ScopeWalker).current? = some k) (hm : m k = .ok () k') :
    enter part m c = .ok () (({ c with part } : ScopeWalker).setCurrent k') := by
  have hpart : enter part m c = (do
      let _ ← onCurrent m : EStateM Error ScopeWalker Unit) { c with part } := rfl
  rw [hpart, bind_of_ok (onCurrent_ok hk hm)]
  rfl

theorem attempt_met {el : Element SearchKey} (hk : c.current? = some k)
    (hmove : KeyWalker.advance w k = .ok true k') (hel : KeyWalker.element k' = .ok el k') :
    attempt w c =
      .ok (if (c.setCurrent k').hides el.id then none else some true) (c.setCurrent k') := by
  have helement : onCurrent KeyWalker.element (c.setCurrent k') =
      .ok (some el) (c.setCurrent k') := by
    rw [onCurrent_ok current?_setCurrent hel, setCurrent_setCurrent]
  rw [attempt, bind_of_ok (onCurrent_ok hk hmove)]
  exact bind_of_ok helement

theorem attempt_ended (hk : c.current? = some k) (hmove : KeyWalker.advance w k = .ok false k') :
    attempt w c = (match (c.setCurrent k').turn? w with
      | some part => do
        enter part (KeyWalker.restart w)
        return none
      | none => return some false : EStateM Error ScopeWalker (Option Bool)) (c.setCurrent k') := by
  rw [attempt, bind_of_ok (onCurrent_ok hk hmove)]
  rfl

/-- The result of an attempt: both parts have ended, the other part has been entered, or an entry
has been met. -/
inductive Stepped (w : Way) (u : Track EntryId) (c : ScopeWalker) :
    EStateM.Result Error ScopeWalker (Option Bool) → Prop
  | ended {c' : ScopeWalker} (h : (u.seen w).ahead = []) (hraw : c'.Raw (u.stepOn w))
      (hhidden : c'.hidden = c.hidden) : Stepped w u c (.ok (some false) c')
  | entered {c' : ScopeWalker} (hraw : c'.Raw ((u.seen w).leave.seen w))
      (hn : c'.turns w < c.turns w) (hhidden : c'.hidden = c.hidden) : Stepped w u c (.ok none c')
  | met {c' : ScopeWalker} {x : EntryId} {xs : List EntryId} (h : (u.seen w).ahead = x :: xs)
      (hraw : c'.Raw (u.stepOn w)) (hn : c'.turns w = c.turns w) (hhidden : c'.hidden = c.hidden) :
      Stepped w u c (.ok (if c'.hides x then none else some true) c')

theorem hidden_setCurrent : (c.setCurrent k').hidden = c.hidden := by
  obtain ⟨s, a, hidden, part, closed⟩ := c
  cases part <;> rfl

theorem plain_of_current (h : c.Raw u) (hk : c.current? = some k) : k.Plain := by
  obtain ⟨_, ⟨hs, ha⟩, _⟩ := h
  obtain ⟨s, a, hidden, part, closed⟩ := c
  cases part with
  | structural =>
    cases hk
    exact hs
  | aliased => exact ha k hk

/-- No part is to come where nothing lies beyond the current one. -/
theorem beyond_of_turn (h : c.turn? w = none) : Track.beyond w c.before c.after = [] := by
  obtain ⟨s, a, hidden, part, closed⟩ := c
  cases w <;> cases part <;> cases a <;> first | rfl | cases h

theorem Raw.enter {part : ScopePart} (h : c.Raw u) (hk : c.current? = some k)
    (hat : k.At (v.outset w.opposite)) (hturn : c.turn? w = some part) :
    ∃ c', ScopeWalker.enter part (KeyWalker.restart w) c = .ok () c' ∧
      c'.Raw ((v.outset w.opposite).among c.before c.after) ∧ c'.turns w < c.turns w ∧
      c'.hidden = c.hidden := by
  have hv : v.toList = k.ids.toList := by rw [← hat.list, Track.toList_outset]
  obtain ⟨hopen, ⟨hs, ha⟩, _⟩ := h
  obtain ⟨s, a, hidden, part, closed⟩ := c
  cases w with
  | forward =>
    cases part with
    | aliased => cases hturn
    | structural =>
      obtain rfl : s = k := Option.some.inj hk
      cases a with
      | none => cases hturn
      | some a =>
        cases hturn
        obtain ⟨a', ha', hat', hids, hlabel⟩ := KeyWalker.restart_at (ha a rfl).1 .forward
        have henter : ScopeWalker.enter .aliased (KeyWalker.restart .forward)
            ⟨s, some a, hidden, .structural, closed⟩ =
              .ok () ⟨s, some a', hidden, .aliased, closed⟩ :=
          enter_ok rfl ha'
        refine ⟨_, henter, ⟨hopen, ⟨hs, fun _ h => ?_⟩, a', _, rfl, hat', ?_⟩, ?_, rfl⟩
        · cases h
          exact ⟨hat'.isOpen, hlabel.trans (ha a rfl).2⟩
        · have := @Track.joint_forward _ [] [] v a.ids.toList
          rwa [List.append_nil, List.nil_append, hv] at this
        · exact Nat.zero_lt_one
  | backward =>
    cases part with
    | structural => cases hturn
    | aliased =>
      obtain rfl : a = some k := hk
      cases hturn
      obtain ⟨s', hs', hat', hids, hlabel⟩ := KeyWalker.restart_at hs.1 .backward
      have henter : ScopeWalker.enter .structural (KeyWalker.restart .backward)
          ⟨s, some k, hidden, .aliased, closed⟩ =
            .ok () ⟨s', some k, hidden, .structural, closed⟩ :=
        enter_ok rfl hs'
      refine ⟨_, henter, ⟨hopen, ⟨⟨hat'.isOpen, hlabel.trans hs.2⟩, ha⟩, s', _, rfl, hat', ?_⟩,
        ?_, rfl⟩
      · have := @Track.joint_backward _ [] [] v s.ids.toList
        rwa [List.append_nil, List.nil_append, hv] at this
      · exact Nat.zero_lt_one

theorem Raw.attempt (h : c.Raw u) (w : Way) : Stepped w u c (attempt w c) := by
  obtain ⟨k, v, hk, hat, rfl⟩ := h.place
  obtain ⟨k', hk', hat', hids, hlabel⟩ := hat.advance w
  obtain ⟨hraw, hturns⟩ := h.setCurrent hk hat' hids hlabel
  cases hahead : (v.seen w).ahead with
  | cons x xs =>
    have hhere : (v.stepOn w).here = some x := by rw [Track.here_stepOn, hahead]; rfl
    have hel : KeyWalker.element k' = .ok ⟨none, x, none⟩ k' := by
      rw [hat'.element, hhere, hlabel, (plain_of_current h hk).2]
      rfl
    rw [hhere] at hk'
    rw [attempt_met hk hk' hel]
    refine .met (by rw [Track.ahead_among, hahead]; rfl) ?_ (hturns w) hidden_setCurrent
    rwa [Track.stepOn_among (hahead ▸ List.cons_ne_nil x xs)]
  | nil =>
    have hhere : (v.stepOn w).here = none := by rw [Track.here_stepOn, hahead]; rfl
    rw [hhere] at hk'
    rw [attempt_ended hk hk']
    rw [Track.stepOn_nil hahead] at hat' hraw
    cases hturn : (c.setCurrent k').turn? w with
    | none =>
      have hbeyond := beyond_of_turn hturn
      rw [before_setCurrent, after_setCurrent] at hbeyond
      refine .ended (by rw [Track.ahead_among, hahead, hbeyond]; rfl) ?_ hidden_setCurrent
      rwa [Track.stepOn_among_nil hahead hbeyond]
    | some part =>
      obtain ⟨c', hc', hraw', hn, hhidden⟩ := hraw.enter current?_setCurrent hat' hturn
      rw [before_setCurrent, after_setCurrent, ← Track.leave_among hahead] at hraw'
      dsimp only
      rw [bind_of_ok hc']
      exact .entered hraw' (hturns w ▸ hn) (hhidden.trans hidden_setCurrent)

theorem restart_alone {s s' : KeyWalker} {hidden : Option (Tables String)} {part : ScopePart}
    (hs : KeyWalker.restart w s = .ok () s') : restart w ⟨s, none, hidden, part, false⟩ =
      .ok () ⟨s', none, hidden, .structural, false⟩ := by
  have henter : enter .structural (KeyWalker.restart w) ⟨s, none, hidden, part, false⟩ =
      .ok () ⟨s', none, hidden, .structural, false⟩ := enter_ok rfl hs
  cases w with
  | forward => exact henter
  | backward => exact bind_of_ok henter

/-- The part with which a way starts. -/
def startPart : Way → ScopePart
  | .forward => .structural
  | .backward => .aliased

theorem restart_both {s s' a a' : KeyWalker} {hidden : Option (Tables String)} {part : ScopePart}
    (hs : KeyWalker.restart w s = .ok () s') (ha : KeyWalker.restart w a = .ok () a') :
    restart w ⟨s, some a, hidden, part, false⟩ =
      .ok () ⟨s', some a', hidden, startPart w, false⟩ := by
  cases w with
  | forward =>
    have henter : enter .aliased (KeyWalker.restart .forward) ⟨s, some a, hidden, part, false⟩ =
        .ok () ⟨s, some a', hidden, .aliased, false⟩ := enter_ok rfl ha
    exact (bind_of_ok henter).trans (enter_ok rfl hs)
  | backward =>
    have henter : enter .structural (KeyWalker.restart .backward)
        ⟨s, some a, hidden, part, false⟩ = .ok () ⟨s', some a, hidden, .structural, false⟩ :=
      enter_ok rfl hs
    exact (bind_of_ok henter).trans (enter_ok rfl ha)

theorem Raw.restart (h : c.Raw u) (w : Way) : ∃ c', ScopeWalker.restart w c = .ok () c' ∧
    c'.Raw (u.outset w) ∧ c'.hidden = c.hidden := by
  have hlist := h.toList
  obtain ⟨hopen, ⟨hs, ha⟩, _⟩ := h
  obtain ⟨s, a, hidden, part, closed⟩ := c
  obtain rfl : closed = false := hopen
  obtain ⟨s', hs', hat, hids, hlabel⟩ := KeyWalker.restart_at hs.1 w
  have hplain : s'.Plain := ⟨hat.isOpen, hlabel.trans hs.2⟩
  cases a with
  | none =>
    refine ⟨_, restart_alone hs', ⟨rfl, ⟨hplain, nofun⟩, s', _, rfl, hat, ?_⟩, rfl⟩
    rw [Track.outset_eq, Track.outset_eq, hlist, Track.toList_start]
    cases w <;> simp [before, after, ids, Track.among, Track.start, Track.seen, Track.mirror]
  | some a =>
    obtain ⟨a', ha', hat', hids', hlabel'⟩ := KeyWalker.restart_at (ha a rfl).1 w
    have hplain' : ∀ k ∈ some a', k.Plain := by
      rintro _ ⟨⟩
      exact ⟨hat'.isOpen, hlabel'.trans (ha a rfl).2⟩
    refine ⟨_, restart_both hs' ha', ⟨rfl, ⟨hplain, hplain'⟩, ?_⟩, rfl⟩
    rw [Track.outset_eq, hlist]
    cases w with
    | forward =>
      refine ⟨s', _, rfl, hat, ?_⟩
      rw [Track.outset_eq, Track.toList_start]
      simp [before, after, ids, Track.among, Track.start, Track.seen, hids', Way.list, startPart]
    | backward =>
      refine ⟨a', _, rfl, hat', ?_⟩
      rw [Track.outset_eq, Track.toList_start]
      simp [before, after, ids, Track.among, Track.start, Track.seen, Track.mirror, hids, Way.list,
        startPart]

/-- The walker stands for the track of the entries that are not hidden, and on none that is. -/
def Stands (c : ScopeWalker) (t : Track Candidate) (e : Option (Element SearchKey)) : Prop :=
  ∃ u, c.Raw u ∧ (∀ x ∈ u.here, c.hides x = false) ∧
    t = u.shown (!c.hides ·) (Candidate.ofId none) ∧ e = u.here.map (⟨none, ·, none⟩)

theorem hides_eq (h : c'.hidden = c.hidden) : c'.hides = c.hides := by
  funext id
  rw [hides, hides, h]

/-- The walker stands for such a track, and may stand on a hidden entry; this is the number of
entries ahead and of parts to come. -/
def Moving (w : Way) (hidden : Option (Tables String)) (k : Nat) (c : ScopeWalker)
    (t : Track Candidate) : Prop :=
  ∃ u, c.Raw u ∧ c.hidden = hidden ∧ t = u.shown (!c.hides ·) (Candidate.ofId none) ∧
    k = (u.seen w).ahead.length + c.turns w

theorem Moving.attempt {hidden : Option (Tables String)} {k : Nat} {t : Track Candidate}
    (h : Moving w hidden k c t) :
    Tried (Test.accept p) w (Moving w hidden) Stands k t (ScopeWalker.attempt w c) := by
  obtain ⟨u, hraw, rfl, rfl, rfl⟩ := h
  -- Where the walker comes to next, the same entries are hidden.
  have hlands {c' : ScopeWalker} (hraw' : c'.Raw (u.stepOn w)) (hhidden : c'.hidden = c.hidden)
      (hhere : ∀ x ∈ (u.stepOn w).here, c.hides x = false) :
      Stands c' ((u.stepOn w).shown (!c.hides ·) (Candidate.ofId none))
        ((u.stepOn w).here.map (⟨none, ·, none⟩)) :=
    ⟨_, hraw', hides_eq hhidden ▸ hhere, hides_eq hhidden ▸ rfl, rfl⟩
  have hstep := hraw.attempt w
  generalize ScopeWalker.attempt w c = result at hstep
  cases hstep with
  | ended hahead hraw' hhidden =>
    have hhere : (u.stepOn w).here = none := by rw [Track.here_stepOn, hahead]; rfl
    have hlands := hlands hraw' hhidden (by rw [hhere]; exact nofun)
    rw [hhere, Track.stepOn_nil hahead] at hlands
    exact .moved (Track.move_shown_end (hahead ▸ nofun)) hlands
  | entered hraw' hturns hhidden =>
    refine .again Track.move_shown_leave.symm ?_ ⟨_, hraw', hhidden, hides_eq hhidden ▸ rfl, rfl⟩
    rw [Track.seen_seen]
    exact Nat.add_lt_add_left hturns _
  | @met c' x xs hahead hraw' hturns hhidden =>
    have hhere : (u.stepOn w).here = some x := by rw [Track.here_stepOn, hahead]; rfl
    rw [hides_eq hhidden]
    cases hx : c.hides x with
    | true =>
      refine .again (Track.move_shown_skip hahead (by rw [hx]; rfl)).symm ?_
        ⟨_, hraw', hhidden, hides_eq hhidden ▸ rfl, rfl⟩
      rw [Track.ahead_stepOn, hahead, hturns]
      exact Nat.add_lt_add_right (Nat.lt_succ_self _) _
    | false =>
      have hlands := hlands hraw' hhidden (by
        rw [hhere]
        rintro _ ⟨⟩
        exact hx)
      rw [hhere] at hlands
      exact .moved (Track.move_shown_keep hahead (by rw [hx]; rfl) rfl) hlands

theorem walks : navigation.Walks (Test.accept p) Stands where
  isOpen := by
    rintro c _ _ ⟨u, hraw, _, rfl, rfl⟩
    exact hraw.isOpen
  size := by
    rintro c _ _ ⟨u, hraw, _, rfl, rfl⟩
    rw [Track.length, Track.toList_shown, List.length_map, hraw.toList]
    exact Nat.le_trans (List.length_filter_le ..) (Nat.le_of_eq length_ids)
  restart := by
    rintro c _ _ w ⟨u, hraw, _, rfl, rfl⟩
    obtain ⟨c', hc', hraw', hhidden⟩ := hraw.restart w
    refine ⟨c', by cases w <;> exact hc', _, hraw', by simp, ?_, by simp⟩
    rw [hides_eq hhidden, Track.outset_shown]
  advance := by
    rintro c _ _ w ⟨u, hraw, _, rfl, rfl⟩
    have hmove : navigation.advance w c = rounds (attempt w) (c.size + 2) c := by
      cases w with
      | forward => exact bind_of_ok (ensureOpen_ok hraw.isOpen _)
      | backward => exact bind_of_ok (ensureOpen_ok hraw.isOpen _)
    rw [hmove]
    refine lands_rounds Moving.attempt ⟨u, hraw, rfl, rfl, rfl⟩ ?_
    have hlength := (congrArg List.length hraw.toList).trans length_ids
    have hahead := Track.length_ahead_le (w := w) u
    have hturns : c.turns w ≤ 1 := by
      rw [turns]
      split <;> omega
    rw [Track.length] at hahead
    omega
  element := by
    rintro c _ _ ⟨u, hraw, _, rfl, rfl⟩
    obtain ⟨k, v, hk, hat, rfl⟩ := hraw.place
    have hnone : k.label = none := (plain_of_current hraw hk).2
    show navigation.element c = (v.here.map _).elim _ _
    rw [show navigation.element c = (onCurrent KeyWalker.element >>= _) c from
      bind_of_ok (ensureOpen_ok hraw.isOpen _)]
    cases hhere : v.here with
    | none =>
      have hel : KeyWalker.element k = .error (.notPositioned "get()") k := by
        rw [hat.element, hhere]
        rfl
      have honCurrent : onCurrent KeyWalker.element c = .error (.notPositioned "get()") c := by
        rw [onCurrent, hk]
        dsimp only
        rw [map_of_error hel, inside, setCurrent_self hk]
      exact bind_of_error honCurrent
    | some x =>
      have hel : KeyWalker.element k = .ok ⟨none, x, none⟩ k := by
        rw [hat.element, hhere, hnone]
        rfl
      rw [bind_of_ok (onCurrent_ok hk hel), setCurrent_self hk]
      rfl
  available := by
    rintro c _ _ ⟨u, hraw, _, rfl, rfl⟩
    obtain ⟨k, v, hk, hat, rfl⟩ := hraw.place
    show (!c.closed && c.current?.any KeyWalker.available) = _
    rw [hraw.isOpen, hk, Option.any_some, hat.available, Option.isSome_map]
    rfl

end ScopeWalker

end Directory
