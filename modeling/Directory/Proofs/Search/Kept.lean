import Directory.Proofs.Search.Lasting
import Directory.Proofs.Search.Position

/-!
# What a walk gives

A test may fail on some entries. Of what a walk has come to without a failure, as much can be said
as if no test ever failed.

* `Candidate.Kept`: all tests of the candidate answer, as they are expected to.
* `Candidate.Tidy`: an entry has at most one candidate that is kept; then it is stored, and an
  evaluator accepts it.
* `SearchCursor.Builds.tidy`: **the candidates of a filter are tidy**, whichever tests fail.
* `Navigation.Walks.ensures_kept`: what a walk gives are candidates that are kept.
* `Walker.elements_accepted`: **a walk that does not fail gives stored entries that the evaluator
  accepts, and none twice**.
-/

namespace Directory

variable {p : Partition} {n : Nat}

/-! ## Candidates that are kept -/

/-- All tests of the candidate answer, as they are expected to. -/
def Candidate.Kept (p : Partition) (k : Candidate) : Prop :=
  ∀ t ∈ k.2, t.evaluator.evaluateId p k.1.id = .ok t.expected

namespace Test

theorem passAll_eq_ok {ts : List Test} {el el' : Element SearchKey}
    (h : passAll p ts el = .ok true el') :
    el'.id = el.id ∧ ∀ t ∈ ts, t.evaluator.evaluateId p el.id = .ok t.expected := by
  induction ts generalizing el with
  | nil =>
    cases h
    exact ⟨rfl, List.forall_mem_nil _⟩
  | cons t ts ih =>
    obtain ⟨el₁, hid, heval⟩ := Evaluator.evaluate_eq (p := p) t.evaluator el
    rw [passAll] at h
    cases hv : t.evaluator.evaluateId p el.id with
    | error e =>
      rw [hv] at heval
      rw [bind_of_error heval] at h
      cases h
    | ok b =>
      rw [hv] at heval
      rw [bind_of_ok heval] at h
      split at h
      · rename_i hb
        obtain ⟨hid', hts⟩ := ih h
        rw [hid] at hid' hts
        exact ⟨hid', List.forall_mem_cons.2 ⟨eq_of_beq hb ▸ hv, hts⟩⟩
      · cases h

theorem accept_eq_some {k : Candidate} {el : Element SearchKey} (h : accept p k = .ok (some el)) :
    el.id = k.1.id ∧ k.Kept p := by
  unfold accept at h
  split at h
  · rename_i hpass
    cases h
    exact passAll_eq_ok hpass
  · cases h
  · cases h

theorem of_accept {ks : List Candidate} {es : List (Element SearchKey)}
    (h : List.Forall₂ (fun k e => accept p k = .ok (some e)) ks es) :
    es.map Element.id = ks.map (·.1.id) ∧ ∀ k ∈ ks, Candidate.Kept p k := by
  induction h with
  | nil => exact ⟨rfl, List.forall_mem_nil _⟩
  | cons hk _ ih =>
    obtain ⟨hid, hkept⟩ := accept_eq_some hk
    exact ⟨by rw [List.map_cons, List.map_cons, hid, ih.1], List.forall_mem_cons.2 ⟨hkept, ih.2⟩⟩

end Test

theorem Evaluator.evaluateId_of_accepts {x : Evaluator} {id : EntryId}
    (h : x.accepts p id = true) : x.evaluateId p id = .ok true := by
  rw [accepts] at h
  cases hv : x.evaluateId p id with
  | error e =>
    rw [hv] at h
    cases h
  | ok b =>
    rw [hv] at h
    exact congrArg Except.ok h

theorem Evaluator.evaluateIdAll_eq_true {xs : List Evaluator} {id : EntryId} :
    evaluateIdAll p id xs = .ok true ↔ ∀ x ∈ xs, x.evaluateId p id = .ok true := by
  induction xs with
  | nil => exact iff_of_true rfl (List.forall_mem_nil _)
  | cons x xs ih =>
    rw [evaluateIdAll, List.forall_mem_cons, ← ih]
    cases x.evaluateId p id with
    | error e => exact ⟨fun h => (nomatch h), fun ⟨h, _⟩ => nomatch h⟩
    | ok b =>
      cases b with
      | false => exact ⟨fun h => (nomatch h), fun ⟨h, _⟩ => nomatch h⟩
      | true => exact (and_iff_right rfl).symm

namespace Candidate

variable {x y : Evaluator} {ks : List Candidate} {ts : List Test} {k : Candidate}

theorem kept_withTests : (k.withTests ts).Kept p ↔
    k.Kept p ∧ ∀ t ∈ ts, t.evaluator.evaluateId p k.1.id = .ok t.expected :=
  List.forall_mem_append

/-- Of the candidates of one entry at most one is kept. Then the entry is stored, and the evaluator
accepts it. -/
structure Tidy (p : Partition) (x : Evaluator) (ks : List Candidate) : Prop where
  once : ks.Pairwise fun k l => k.Kept p → l.Kept p → k.1.id ≠ l.1.id
  stored : ∀ k ∈ ks, k.Kept p → p.Stored k.1.id
  accepted : ∀ k ∈ ks, k.Kept p → x.evaluateId p k.1.id = .ok true

theorem Tidy.of_nodup (honce : (ks.map (·.1.id)).Nodup) (hstored : ∀ k ∈ ks, p.Stored k.1.id)
    (haccepted : ∀ k ∈ ks, k.Kept p → x.evaluateId p k.1.id = .ok true) : Tidy p x ks where
  once := (List.pairwise_map.1 honce).imp fun h _ _ => h
  stored k hk _ := hstored k hk
  accepted := haccepted

theorem Tidy.withTests (h : Tidy p x ks) (hy : ∀ id, x.evaluateId p id = .ok true →
      (∀ t ∈ ts, t.evaluator.evaluateId p id = .ok t.expected) → y.evaluateId p id = .ok true) :
    Tidy p y (ks.map (·.withTests ts)) where
  once := List.pairwise_map.2 <| h.once.imp fun hne hk hl =>
    hne (kept_withTests.1 hk).1 (kept_withTests.1 hl).1
  stored := List.forall_mem_map.2 fun k hk hkept => h.stored k hk (kept_withTests.1 hkept).1
  accepted := List.forall_mem_map.2 fun k hk hkept => by
    obtain ⟨hkept, hts⟩ := kept_withTests.1 hkept
    exact hy _ (h.accepted k hk hkept) hts

theorem Tidy.of_sublist (h : Tidy p x ks) {ls : List Candidate} (hls : ls.Sublist ks)
    (hkept : ∀ k ∈ ls, k.Kept p) : (ls.map (·.1.id)).Nodup ∧
      ∀ id ∈ ls.map (·.1.id), p.Stored id ∧ x.evaluateId p id = .ok true := by
  constructor
  · refine List.pairwise_map.2 ((h.once.sublist hls).imp_of_mem fun {k l} hk hl hne => ?_)
    exact hne (hkept k hk) (hkept l hl)
  · refine List.forall_mem_map.2 fun k hk => ?_
    exact ⟨h.stored k (hls.subset hk) (hkept k hk), h.accepted k (hls.subset hk) (hkept k hk)⟩

end Candidate

/-! ## The candidates of a filter -/

namespace SearchCursor

open Candidate

variable {f : Filter} {c : SearchCursor} {x y : Evaluator}

theorem tidy_bare (hbare : ∀ k ∈ c.candidates, k.2 = []) (hfinds : c.Finds p x)
    (hclean : c.Clean p) : Tidy p x c.candidates := by
  have hyields : c.yields p = c.candidates.map (·.1.id) := yields_bare hbare
  have hmem : ∀ k ∈ c.candidates, k.1.id ∈ c.yields p := fun k hk =>
    hyields ▸ List.mem_map_of_mem hk
  have hstored : ∀ k ∈ c.candidates, p.Stored k.1.id := fun k hk => hclean.stored _ (hmem k hk)
  refine .of_nodup (hyields ▸ hclean.once) hstored fun k hk _ => ?_
  exact Evaluator.evaluateId_of_accepts ((hfinds.exact _ (hstored k hk)).1 (hmem k hk))

theorem tidy_scan {expected : Bool} (h : ∀ id, y.evaluateId p id = .ok expected →
    x.evaluateId p id = .ok true) : Tidy p x (scan p y expected).candidates := by
  have hstored : ∀ k ∈ (all p).candidates, p.Stored k.1.id := fun k hk =>
    Partition.mem_keys.1 (map_all ▸ List.mem_map_of_mem hk)
  have hall : Tidy p (.and []) (all p).candidates :=
    .of_nodup (map_all ▸ nodup_keys) hstored fun k _ _ => by
      rw [Evaluator.evaluateId, Evaluator.evaluateIdAll]
  exact hall.withTests fun id _ hts => h id (hts _ (.head _))

section InTurn

variable {cs : List SearchCursor} {xs : List Evaluator}

/-- Of cursors in turn, each leaves out what those before it have given. -/
theorem tidy_inTurn (h : List.Forall₂ (fun c x => Tidy p x c.candidates) cs xs)
    (earlier : List Test) :
    ((inTurn earlier cs xs).Pairwise fun k l => k.Kept p → l.Kept p → k.1.id ≠ l.1.id) ∧
      ∀ k ∈ inTurn earlier cs xs, k.Kept p → p.Stored k.1.id ∧
        (∀ t ∈ earlier, t.evaluator.evaluateId p k.1.id = .ok t.expected) ∧
        Evaluator.evaluateIdAny p k.1.id xs = .ok true := by
  induction h generalizing earlier with
  | nil => exact ⟨.nil, List.forall_mem_nil _⟩
  | @cons c x cs xs hc hrest ih =>
    obtain ⟨honce, hgiven⟩ := ih (earlier ++ [⟨x, false⟩])
    have hfirst : Tidy p x (c.candidates.map (·.withTests earlier)) :=
      hc.withTests fun _ hx _ => hx
    have hlater : ∀ l ∈ inTurn (earlier ++ [⟨x, false⟩]) cs xs, l.Kept p →
        x.evaluateId p l.1.id = .ok false := fun l hl hkept =>
      (hgiven l hl hkept).2.1 ⟨x, false⟩ (List.mem_append_right _ (.head _))
    rw [inTurn]
    refine ⟨List.pairwise_append.2 ⟨hfirst.once, honce, fun k hk l hl hkk hlk hid => ?_⟩,
      List.forall_mem_append.2 ⟨fun k hk hkept => ?_, fun k hk hkept => ?_⟩⟩
    · have hl := hlater l hl hlk
      rw [← hid, hfirst.accepted k hk hkk] at hl
      cases hl
    · refine ⟨hfirst.stored k hk hkept, ?_, ?_⟩
      · obtain ⟨k, _, rfl⟩ := List.mem_map.1 hk
        exact (kept_withTests.1 hkept).2
      · rw [Evaluator.evaluateIdAny, hfirst.accepted k hk hkept]
        rfl
    · obtain ⟨hstored, htests, hany⟩ := hgiven k hk hkept
      refine ⟨hstored, (List.forall_mem_append.1 htests).1, ?_⟩
      rw [Evaluator.evaluateIdAny, hlater k hk hkept]
      exact hany

end InTurn

/-- **The candidates of a filter are tidy**, whichever tests fail. -/
theorem Builds.tidy (h : Builds p f c) :
    ∃ x, Evaluator.ofFilter p f = .ok x ∧ Tidy p x c.candidates := by
  induction h with
  | bare hx hbare hfinds hclean => exact ⟨_, hx, tidy_bare hbare hfinds hclean⟩
  | scan hx => exact ⟨_, hx, tidy_scan fun _ h => h⟩
  | @not f n x hx =>
    refine ⟨.not x, by rw [Evaluator.ofFilter, hx]; rfl, tidy_scan fun id h => ?_⟩
    rw [Evaluator.evaluateId, h]
    rfl
  | @and f fs gs n d xs hsort hd hxs ih =>
    obtain ⟨y, hy, htidy⟩ := ih
    have hperm := sort_perm hsort
    obtain ⟨ys, hys⟩ := Evaluator.exists_ofFilters.2 fun g hg => by
      rcases List.mem_cons.1 (hperm.mem_iff.2 hg) with rfl | hg
      · exact ⟨y, hy⟩
      · exact Evaluator.exists_ofFilters.1 ⟨xs, hxs⟩ g hg
    refine ⟨.and ys, by rw [Evaluator.ofFilter, hys]; rfl, htidy.withTests fun id hdriver hts => ?_⟩
    rw [Evaluator.evaluateId, Evaluator.evaluateIdAll_eq_true,
      Evaluator.forall_ofFilters_perm hperm hy hxs hys]
    exact ⟨hdriver, fun z hz => hts ⟨z, true⟩ (List.mem_map_of_mem hz)⟩
  | @or fs n c cs xs hcs hall hxs hc ih =>
    have htidy : List.Forall₂ (fun c x => Tidy p x c.candidates) cs xs := by
      refine Except.forall₂_of_mapM hcs (Evaluator.ofFilters_eq_mapM fs ▸ hxs) ?_
      intro f hf c x hc hx
      obtain ⟨x', hx', htidy⟩ := ih f hf c hc
      exact Except.ok.inj (hx'.symm.trans hx) ▸ htidy
    obtain ⟨honce, hgiven⟩ := tidy_inTurn htidy []
    rw [hc]
    refine ⟨.or xs, by rw [Evaluator.ofFilter, hxs]; rfl, honce,
      fun k hk hkept => (hgiven k hk hkept).1, fun k hk hkept => ?_⟩
    rw [Evaluator.evaluateId]
    exact (hgiven k hk hkept).2.2

end SearchCursor

/-! ## Walks -/

section

variable {σ κ τ : Type}

/-- What a walk gives was ahead, and is kept. -/
theorem Navigation.Walks.ensures_kept {n : Navigation σ κ}
    {accept : Element κ × τ → Except Error (Option (Element κ))} {S : Standing σ κ τ}
    (hn : n.Walks accept S) {s : σ} {t : Track (Element κ × τ)} {e : Option (Element κ)}
    (hS : S s t e) (m : Nat) : Ensures (n.elements n.next m) s fun es _ =>
      ∃ ks, ks.Sublist t.ahead ∧ List.Forall₂ (fun k e => accept k = .ok (some e)) ks es := by
  induction m generalizing s t e with
  | zero =>
    intro es s' h
    cases h
    exact ⟨[], List.nil_sublist _, .nil⟩
  | succ m ih =>
    intro es s' h
    obtain ⟨t₁, -, rfl⟩ | ⟨e₁, t₁, s₁, es₁, hmove, hS₁, hes₁, rfl⟩ := hn.elements_succ hS h
    · exact ⟨[], List.nil_sublist _, .nil⟩
    · obtain ⟨passed, k, hahead, -, -, hkeep⟩ := Track.move_found (w := .forward) hmove
      obtain ⟨ks, hks, hgiven⟩ := ih hS₁ es₁ s' hes₁
      refine ⟨k :: ks, ?_, .cons hkeep hgiven⟩
      rw [show t.ahead = passed ++ k :: t₁.ahead from hahead]
      exact (hks.cons_cons k).trans (List.sublist_append_right passed _)

end

namespace Walker

/-- **A walk that does not fail** gives stored entries that the evaluator accepts, and none
twice. -/
theorem elements_accepted (hp : p.Valued n) (ht : p.Arranged) {f : Filter}
    (hnormal : f.IsNormal p.schema) (hnone : f.FollowsNone) {w w' : Walker f.depth}
    (hw : ofFilter p f = .ok w) {m : Nat} {es : List (Element SearchKey)}
    (hwalk : (navigation p f.depth).elements (navigation p f.depth).next m w = .ok es w') :
    ∃ x, Evaluator.ofFilter p f = .ok x ∧ (es.map Element.id).Nodup ∧
      ∀ id ∈ es.map Element.id, p.Stored id ∧ x.evaluateId p id = .ok true := by
  obtain ⟨c, hc, hstands⟩ := exists_cursor hp hw
  obtain ⟨x, hx, htidy⟩ := (SearchCursor.ofFilter_builds hp ht f hnormal hnone c hc).tidy
  obtain ⟨ks, hks, hgiven⟩ := (walks p f.depth).ensures_kept hstands m es w' hwalk
  obtain ⟨hids, hkept⟩ := Test.of_accept hgiven
  exact ⟨x, hx, hids ▸ htidy.of_sublist hks hkept⟩

end Walker

end Directory
