import Directory.Proofs.Search.Alike
import Directory.Proofs.Search.Lasting
import Directory.Proofs.Search.Walker

/-!
# One pass among writes

A walker is built, and moved forward step by step to its end, with any writes on the partition
before each step.

* `Walker.pass`: the entries that such a pass gives, where each step is made on a partition of its
  own. `Candidate.pass`: the same of a list of candidates.
* `Partition.stages`, `Partition.During`: the partitions on which the steps are made, and all that
  the writes lead through.
* `Partition.ReachedBy.pass_once`: **what a filter accepts from the build to the end comes out once,
  as long as no write moves it from one branch of a disjunction to another**.
* `Partition.straying_sample`: the condition is needed.
-/

namespace Directory

/-! ## Passes over candidates -/

namespace Candidate

variable {Q : Partition → Prop} {q : Partition} {id : EntryId} {k : Candidate}
  {ks ls : List Candidate}

/-- The candidates from the first on that passes. -/
def upcoming (q : Partition) (ks : List Candidate) : List Candidate :=
  ks.dropWhile fun k => !k.passes q

/-- The numbers that a pass gives, where each step looks for a candidate that passes on a partition
of its own, and whether it has come to the end. -/
def pass : List Partition → List Candidate → List EntryId × Bool
  | [], _ => ([], false)
  | q :: qs, ks =>
    match upcoming q ks with
    | [] => ([], true)
    | k :: ks => (k.1.id :: (pass qs ks).1, (pass qs ks).2)

theorem of_upcoming (h : upcoming q ks = k :: ls) :
    k.passes q = true ∧ ∃ skipped, ks = skipped ++ k :: ls := by
  have hfirst := List.head?_dropWhile_not (fun k : Candidate => !k.passes q) ks
  have hsuffix := List.dropWhile_suffix (l := ks) fun k => !k.passes q
  rw [show ks.dropWhile _ = _ from h] at hfirst hsuffix
  obtain ⟨skipped, hskipped⟩ := hsuffix
  exact ⟨by simpa using hfirst, skipped, hskipped.symm⟩

theorem pass_nil {qs : List Partition} (h : upcoming q ks = []) :
    pass (q :: qs) ks = ([], true) := by
  rw [pass, h]

theorem pass_cons {qs : List Partition} (h : upcoming q ks = k :: ls) :
    pass (q :: qs) ks = (k.1.id :: (pass qs ls).1, (pass qs ls).2) := by
  rw [pass, h]

/-- With a step for each candidate and one more a pass ends. -/
theorem pass_ends {qs : List Partition} (h : ks.length < qs.length) : (pass qs ks).2 = true := by
  induction qs generalizing ks with
  | nil => cases h
  | cons q qs ih =>
    cases hks : upcoming q ks with
    | nil => rw [pass_nil hks]
    | cons k ls =>
      rw [pass_cons hks]
      obtain ⟨_, skipped, rfl⟩ := of_upcoming hks
      rw [List.length_append, List.length_cons, List.length_cons] at h
      exact ih (by omega)

/-! ### One entry -/

theorem Barred.step (hq : Q q) (h : Barred Q id ks) (hks : upcoming q ks = k :: ls) :
    k.1.id ≠ id ∧ Barred Q id ls := by
  obtain ⟨hpass, skipped, rfl⟩ := of_upcoming hks
  obtain ⟨_, h⟩ := List.forall_mem_append.1 h
  obtain ⟨hk, hls⟩ := List.forall_mem_cons.1 h
  refine ⟨fun hid => ?_, hls⟩
  rw [hk hid q hq] at hpass
  cases hpass

theorem Once.step (hq : Q q) (h : Once Q id ks) : ∃ k ls, upcoming q ks = k :: ls ∧
    (k.1.id ≠ id ∧ Once Q id ls ∨ k.1.id = id ∧ Barred Q id ls) := by
  obtain ⟨before, k, after, rfl, hid, hpass, hbefore, hafter⟩ := h
  induction before with
  | nil =>
    refine ⟨k, after, ?_, .inr ⟨hid, hafter⟩⟩
    rw [upcoming, List.nil_append, List.dropWhile_cons_of_neg]
    rw [hpass q hq]
    exact Bool.false_ne_true
  | cons l before ih =>
    obtain ⟨hl, hbefore⟩ := List.forall_mem_cons.1 hbefore
    cases hlq : l.passes q with
    | true =>
      refine ⟨l, before ++ k :: after, ?_, .inl ⟨fun hid => ?_, before, k, after, rfl, hid, hpass,
        hbefore, hafter⟩⟩
      · rw [upcoming, List.cons_append, List.dropWhile_cons_of_neg]
        rw [hlq]
        exact Bool.false_ne_true
      · exact absurd hlq (Bool.eq_false_iff.1 (hl hid q hq))
    | false =>
      rw [List.cons_append, upcoming, List.dropWhile_cons_of_pos (by rw [hlq]; rfl)]
      exact ih hbefore

/-- A pass does not give an entry none of whose candidates ever passes. -/
theorem Barred.pass {qs : List Partition} (h : Barred Q id ks)
    (hQ : ∀ q ∈ qs.take ((pass qs ks).1.length + 1), Q q) : id ∉ (pass qs ks).1 := by
  induction qs generalizing ks with
  | nil => exact List.not_mem_nil
  | cons q qs ih =>
    obtain ⟨hq, hQ⟩ := List.forall_mem_cons.1 hQ
    cases hks : upcoming q ks with
    | nil =>
      rw [pass_nil hks]
      exact List.not_mem_nil
    | cons k ls =>
      obtain ⟨hid, hls⟩ := h.step hq hks
      rw [pass_cons hks] at hQ ⊢
      exact List.not_mem_cons_of_ne_of_not_mem hid.symm (ih hls hQ)

/-- **A pass to the end gives an entry once** that has one candidate which always passes, and no
other that ever does. -/
theorem Once.pass {qs : List Partition} (h : Once Q id ks)
    (hQ : ∀ q ∈ qs.take ((pass qs ks).1.length + 1), Q q) (hend : (pass qs ks).2 = true) :
    (pass qs ks).1.count id = 1 := by
  induction qs generalizing ks with
  | nil => cases hend
  | cons q qs ih =>
    obtain ⟨hq, hQ⟩ := List.forall_mem_cons.1 hQ
    obtain ⟨k, ls, hks, hstep⟩ := h.step hq
    rw [pass_cons hks] at hQ hend ⊢
    rcases hstep with ⟨hid, hls⟩ | ⟨hid, hls⟩
    · rw [List.count_cons_of_ne hid]
      exact ih hls hQ hend
    · dsimp only
      rw [hid, List.count_cons_self, List.count_eq_zero.2 (hls.pass hQ)]

end Candidate

/-! ## Passes of walkers -/

/-- The numbers of the entries that a walker gives as it moves forward, where each step is made on a
partition of its own, and whether it has come to the end. -/
def Walker.pass {d : Nat} (w : Walker d) : List Partition → Except Error (List EntryId × Bool)
  | [] => .ok ([], false)
  | q :: qs =>
    match (navigation q d).next w with
    | .ok false _ => .ok ([], true)
    | .ok true w =>
      match (navigation q d).element w with
      | .ok e w => do
        let (ids, ended) ← w.pass qs
        return (e.id :: ids, ended)
      | .error e _ => .error e
    | .error e _ => .error e

theorem Candidate.next_eq {q : Partition} {t : Track Candidate} (h : ∀ k ∈ t.ahead, k.Sure q) :
    (upcoming q t.ahead = [] ∧ ∃ t', t.next (Test.accept q) = (.ok none, t')) ∨
      ∃ k t' el, upcoming q t.ahead = k :: Track.ahead t' ∧ Element.id el = k.1.id ∧
        t.next (Test.accept q) = (.ok (some el), t') := by
  unfold Track.next
  generalize t.here.toList ++ t.behind = behind
  generalize t.ahead = ks at h ⊢
  induction ks generalizing behind with
  | nil => exact .inl ⟨rfl, _, rfl⟩
  | cons k ks ih =>
    obtain ⟨hk, hks⟩ := List.forall_mem_cons.1 h
    obtain ⟨el, hid, haccept⟩ := Test.accept_eq hk
    rw [Track.advance, haccept, upcoming]
    cases hpass : k.passes q with
    | true =>
      rw [List.dropWhile_cons_of_neg (by rw [hpass]; exact Bool.false_ne_true)]
      exact .inr ⟨k, _, el, rfl, hid, rfl⟩
    | false =>
      rw [List.dropWhile_cons_of_pos (by rw [hpass]; rfl)]
      exact ih _ hks

/-- **A walker gives what its candidates give.** -/
theorem Walker.pass_eq {d : Nat} {w : Walker d} {t : Track Candidate}
    {e : Option (Element SearchKey)} (h : Stands d w t e) (qs : List Partition)
    (hsure : ∀ q ∈ qs, ∀ k ∈ t.ahead, k.Sure q) : w.pass qs = .ok (Candidate.pass qs t.ahead) := by
  induction qs generalizing w t e with
  | nil => rfl
  | cons q qs ih =>
    obtain ⟨hq, hqs⟩ := List.forall_mem_cons.1 hsure
    have hlands := (walks q d).advance .forward h
    rw [Track.move_forward] at hlands
    rcases Candidate.next_eq hq with ⟨hks, t', hnext⟩ | ⟨k, t', el, hks, hid, hnext⟩
    · rw [hnext] at hlands
      obtain ⟨w', hw', _⟩ := hlands.of_ok
      rw [pass, show (navigation q d).next w = _ from hw', Candidate.pass_nil hks]
      rfl
    · rw [hnext] at hlands
      obtain ⟨w', hw', hstands⟩ := hlands.of_ok
      obtain ⟨_, skipped, hskipped⟩ := Candidate.of_upcoming hks
      have hrest := ih hstands fun q hq k hk =>
        hqs q hq k (hskipped ▸ List.mem_append_right _ (.tail _ hk))
      rw [pass, show (navigation q d).next w = _ from hw']
      dsimp only [Option.isSome_some]
      rw [(walks q d).element hstands]
      dsimp only [Option.elim]
      rw [hrest, Candidate.pass_cons hks, hid]
      rfl

/-! ## Partitions under way -/

namespace Partition

variable {p q : Partition}

/-- The partitions after the first writes, after those and the next ones, and so on. -/
def stages (p : Partition) : List (List Write) → List Partition
  | [] => []
  | ws :: bs => p.afterAll ws :: (p.afterAll ws).stages bs

/-- The writes lead from the one partition to the other, or through it. -/
def During (p : Partition) (ws : List Write) (q : Partition) : Prop :=
  ∃ ws₁, ws₁ <+: ws ∧ q = p.afterAll ws₁

theorem afterAll_append (p : Partition) (ws ws' : List Write) :
    p.afterAll (ws ++ ws') = (p.afterAll ws).afterAll ws' := List.foldl_append

theorem During.self (p : Partition) (ws : List Write) : p.During ws p :=
  ⟨[], List.nil_prefix, rfl⟩

theorem During.of_prefix {ws ws' : List Write} (hinit : ws <+: ws') (h : p.During ws q) :
    p.During ws' q := by
  obtain ⟨ws₁, hws₁, rfl⟩ := h
  exact ⟨ws₁, hws₁.trans hinit, rfl⟩

theorem forall_during {P : Partition → Prop} {ws : List Write} :
    (∀ q, p.During ws q → P q) ↔ ∀ n < ws.length + 1, P (p.afterAll (ws.take n)) := by
  constructor
  · exact fun h n _ => h _ ⟨_, List.take_prefix n ws, rfl⟩
  · rintro h q ⟨ws₁, hinit, rfl⟩
    rw [List.prefix_iff_eq_take.1 hinit]
    exact h _ (Nat.lt_succ_of_le hinit.length_le)

theorem length_stages (p : Partition) (bs : List (List Write)) :
    (p.stages bs).length = bs.length := by
  induction bs generalizing p with
  | nil => rfl
  | cons ws bs ih => rw [stages, List.length_cons, ih, List.length_cons]

theorem take_stages (p : Partition) (bs : List (List Write)) (n : Nat) :
    (p.stages bs).take n = p.stages (bs.take n) := by
  induction bs generalizing p n with
  | nil => rw [stages, List.take_nil, List.take_nil, stages]
  | cons ws bs ih =>
    cases n with
    | zero => rfl
    | succ n => rw [stages, List.take_succ_cons, ih, List.take_succ_cons, stages]

theorem During.of_mem_stages {bs : List (List Write)} (h : q ∈ p.stages bs) :
    p.During bs.flatten q := by
  induction bs generalizing p with
  | nil => cases h
  | cons ws bs ih =>
    rcases List.mem_cons.1 h with rfl | h
    · exact ⟨ws, List.prefix_append _ _, rfl⟩
    · obtain ⟨ws₁, hinit, rfl⟩ := ih h
      exact ⟨ws ++ ws₁, (List.prefix_append_right_inj ws).2 hinit, (afterAll_append p ws ws₁).symm⟩

theorem ReachedBy.during {c : Config} {ws ws' : List Write} (hp : p.ReachedBy c ws)
    (hadds : (ws ++ ws').countP Write.isAdd < UInt64.size) (h : p.During ws' q) : p.Later q := by
  obtain ⟨ws₁, ⟨ws₂, rfl⟩, rfl⟩ := h
  obtain ⟨p₀, hp₀, rfl⟩ := hp.start
  have hq : ((p₀.afterAll ws).afterAll ws₁).ReachedBy c (ws ++ ws₁) := by
    refine ⟨⟨p₀, hp₀, (afterAll_append ..).symm⟩, ?_⟩
    rw [← List.append_assoc, List.countP_append] at hadds
    omega
  exact hq.later (List.prefix_append _ _) hp

/-- **What a filter accepts from the build to the end comes out once.** The filter is in normal form
and carries any estimates, it names the rules of its extensible conditions and follows no aliases
below a base, and its walker can be built on a partition with a history. Before each step forward
any writes are made; they may be refused. Then no step fails, and a pass of more steps than the
walker has candidates comes to the end. If it has come to the end, it has given just once any entry
that was stored and accepted all the time, as long as no write has changed the answer on it of a
condition that feeds a disjunction. Of a filter whose candidates come from no disjunction nothing
more is asked. -/
theorem ReachedBy.pass_once {c : Config} {ws : List Write} (hp : p.ReachedBy c ws)
    {g f f' : Filter} {w : Walker f'.depth} (hf : g.normalize p.schema = .ok f)
    (hestimates : f'.bare = f.bare) (hruled : f'.Ruled) (hnone : f'.FollowsNone)
    (hw : Walker.ofFilter p f' = .ok w) (bs : List (List Write))
    (hadds : (ws ++ bs.flatten).countP Write.isAdd < UInt64.size) :
    ∃ ids ended, w.pass (p.stages bs) = .ok (ids, ended) ∧
      ((Walker.navigation p f'.depth).size w < bs.length → ended = true) ∧
      (ended = true → ∀ id,
        (∀ q, p.During (bs.take (ids.length + 1)).flatten q → q.Accepts f' id) →
        (∀ fs n, (Filter.or fs n).Feeds f' → ∀ b ∈ fs, ∀ h : Filter, h.Feeds b →
          h.Lasts (p.During (bs.take (ids.length + 1)).flatten) id) →
        ids.count id = 1) := by
  obtain ⟨n, _, hvalued⟩ := hp.valued
  have hplain : f'.Plain p.schema := ⟨Filter.normalize_isNormal hf hestimates, hruled, hnone⟩
  obtain ⟨d, hd, hstands⟩ := Walker.exists_cursor hvalued hw
  have hbuilds := SearchCursor.ofFilter_builds hvalued hp.arranged f' hplain.normal
    hplain.followsNone d hd
  obtain ⟨x, hx, _⟩ := SearchCursor.ofFilter_serves_plain hvalued hp.arranged hplain hd
  have hpass := Walker.pass_eq hstands (p.stages bs) fun q hq =>
    hbuilds.sure (hp.during hadds (.of_mem_stages hq)) hruled
  refine ⟨_, _, hpass, fun hsize => ?_, fun hend id haccepts hlasts => ?_⟩
  · have hlength := (Walker.walks p f'.depth).size hstands
    rw [Track.length, Track.toList_start] at hlength
    refine Candidate.pass_ends ?_
    rw [length_stages]
    exact Nat.lt_of_le_of_lt hlength hsize
  · have hinit : ∀ m, (bs.take m).flatten <+: bs.flatten := fun m =>
      ⟨(bs.drop m).flatten, by rw [← List.flatten_append, List.take_append_drop]⟩
    have hlater : ∀ m q, p.During (bs.take m).flatten q → p.Later q := fun m q hq =>
      hp.during hadds (hq.of_prefix (hinit m))
    have hstored := fun q hq => (haccepts q hq).stored
    have hstays := (Evaluator.stays_true_iff (hlater _) hstored hruled hx).2 haccepts
    have honce := hbuilds.once (hlater _) hstored (.self p _) hruled hlasts hx hstays
    refine honce.pass (fun q hq => ?_) hend
    rw [take_stages] at hq
    exact .of_mem_stages hq

end Partition

/-! ### Two branches of a disjunction -/

namespace Sample

/-- Two units, of which the first one is of two classes and the second one of one of them. -/
def unitWrites : List Write := [
  .add (.ofName suffix),
  .add ((Entry.ofName (unit "A")).putValues "objectClass" [.text "group", .text "team"]),
  .add ((Entry.ofName (unit "B")).putValues "objectClass" [.text "team"])]

/-- Whatever is of one of the classes. -/
def branches : Filter := .or [.comparison .equality .objectClass (.text "group") none,
  .comparison .equality .objectClass (.text "team") none] none

/-- The first unit leaves a class after the first step. -/
def leaving : List (List Write) :=
  [[], [.modify 2 [⟨.remove, .objectClass, [.text "group"]⟩]], [], []]

/-- The first unit leaves a class after the first step, and the second one joins it. -/
def swapping : List (List Write) :=
  [[], [.modify 2 [⟨.remove, .objectClass, [.text "group"]⟩],
    .modify 3 [⟨.add, .objectClass, [.text "group"]⟩]], []]

theorem unitWrites_reachedBy : (after unitWrites).ReachedBy .standard unitWrites :=
  after_reachedBy unitWrites (by decide)

theorem branches_part {g : Filter} (h : g.Part branches) :
    g = branches ∨ ∃ v, g = .comparison .equality .objectClass v none := by
  cases h with
  | self => exact .inl rfl
  | or hf h =>
    rcases List.mem_pair.1 hf with rfl | rfl <;> (cases h; exact .inr ⟨_, rfl⟩)

theorem branches_ruled : branches.Ruled := by
  intro a v d n h
  rcases branches_part h with h | ⟨_, h⟩ <;> cases h

theorem branches_followsNone : branches.FollowsNone := by
  intro b s m n h
  rcases branches_part h with h | ⟨_, h⟩ <;> cases h

theorem branches_normal :
    branches.normalize (after unitWrites).schema = .ok branches := by
  have h : (branches.normalize (after unitWrites).schema).toOption = some branches := by
    decide +kernel
  exact Except.toOption_eq_some.1 h

theorem branches_pass (bs : List (List Write)) (r : List EntryId × Bool)
    (h : (Walker.ofFilter (after unitWrites) branches).toOption.map (fun w =>
      (w.pass ((after unitWrites).stages bs)).toOption) = some (some r)) :
    ∃ w, Walker.ofFilter (after unitWrites) branches = .ok w ∧
      w.pass ((after unitWrites).stages bs) = .ok r := by
  obtain ⟨w, hw, h⟩ := Option.map_eq_some_iff.1 h
  exact ⟨w, Except.toOption_eq_some.1 hw, Except.toOption_eq_some.1 h⟩

end Sample

/-- The second unit keeps to its class and comes out once, though the first one comes out twice. -/
theorem Partition.pass_once_sample : ∃ w,
    Walker.ofFilter (Sample.after Sample.unitWrites) Sample.branches = .ok w ∧
    w.pass ((Sample.after Sample.unitWrites).stages Sample.leaving) = .ok ([2, 2, 3], true) ∧
    [2, 2, 3].count 3 = 1 := by
  obtain ⟨w, hw, hgiven⟩ := Sample.branches_pass Sample.leaving ([2, 2, 3], true)
    (by decide +kernel)
  obtain ⟨ids, ended, hpass, _, honce⟩ := ReachedBy.pass_once Sample.unitWrites_reachedBy
    Sample.branches_normal rfl Sample.branches_ruled Sample.branches_followsNone hw
    Sample.leaving (by decide)
  obtain ⟨rfl, rfl⟩ := Prod.mk.inj (Except.ok.inj (hpass.symm.trans hgiven))
  refine ⟨w, hw, hgiven, honce rfl 3 ?_ fun fs n hor f hf g hg => ?_⟩
  · rw [forall_during]
    decide +kernel
  · cases hor with
    | self =>
      rcases List.mem_pair.1 hf with rfl | rfl
      · cases hg
        refine .inr ?_
        rw [forall_during]
        decide +kernel
      · cases hg
        refine .inl ?_
        rw [forall_during]
        decide +kernel
    | or hf' hor => rcases List.mem_pair.1 hf' with rfl | rfl <;> cases hor

/-- Both units are accepted all the time. As each goes over to the other's branch between two steps,
the first one comes out twice and the second one never. -/
theorem Partition.straying_sample : ∃ w,
    Walker.ofFilter (Sample.after Sample.unitWrites) Sample.branches = .ok w ∧
    w.pass ((Sample.after Sample.unitWrites).stages Sample.swapping) = .ok ([2, 2], true) ∧
    (Sample.after Sample.unitWrites).ReachedBy .standard Sample.unitWrites ∧
    Sample.branches.normalize (Sample.after Sample.unitWrites).schema = .ok Sample.branches ∧
    Sample.branches.Ruled ∧ Sample.branches.FollowsNone ∧
    ∀ q, (Sample.after Sample.unitWrites).During Sample.swapping.flatten q →
      q.Accepts Sample.branches 2 ∧ q.Accepts Sample.branches 3 := by
  obtain ⟨w, hw, hgiven⟩ := Sample.branches_pass Sample.swapping ([2, 2], true)
    (by decide +kernel)
  refine ⟨w, hw, hgiven, Sample.unitWrites_reachedBy, Sample.branches_normal,
    Sample.branches_ruled, Sample.branches_followsNone, ?_⟩
  rw [forall_during]
  decide +kernel

end Directory
