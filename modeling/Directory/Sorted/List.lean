/-!
# Strictly increasing lists

The shared part of finite sets and finite maps: lists whose keys strictly increase.

* `Increasing key xs`: the keys of `xs` strictly increase.
* `insertBy`, `eraseBy`, `findBy?`: put an element at its place, remove a key, look a key up.
* `mem_insertBy`, `increasing_insertBy`: what insertion holds, and that it stays sorted.
* `Increasing.ext`: an increasing list is determined by its members.
-/

namespace Directory.Sorted

variable {α β : Type} [Ord α] {key : β → α}

/-- The keys strictly increase along the list. -/
def Increasing (key : β → α) (xs : List β) : Prop :=
  xs.Pairwise fun x y => compare (key x) (key y) = .lt

/-- The list with `b` at its place; an element with the same key gives way. -/
def insertBy (key : β → α) (b : β) : List β → List β
  | [] => [b]
  | x :: xs =>
    match compare (key b) (key x) with
    | .lt => b :: x :: xs
    | .eq => b :: xs
    | .gt => x :: insertBy key b xs

/-- The list without the element of key `k`. -/
def eraseBy (key : β → α) (k : α) (xs : List β) : List β :=
  xs.filter fun x => compare (key x) k != .eq

/-- The element of key `k`. -/
def findBy? (key : β → α) (k : α) (xs : List β) : Option β :=
  xs.find? fun x => compare (key x) k == .eq

/-! ## Structure of increasing lists -/

theorem Increasing.head_lt {x y : β} {xs : List β} (h : Increasing key (x :: xs)) (hy : y ∈ xs) :
    compare (key x) (key y) = .lt :=
  List.rel_of_pairwise_cons h hy

theorem Increasing.tail {x : β} {xs : List β} (h : Increasing key (x :: xs)) : Increasing key xs :=
  List.Pairwise.of_cons h

theorem Increasing.filter {xs : List β} (h : Increasing key xs) (p : β → Bool) :
    Increasing key (xs.filter p) :=
  List.Pairwise.filter p h

theorem increasing_eraseBy {k : α} {xs : List β} (h : Increasing key xs) :
    Increasing key (eraseBy key k xs) :=
  h.filter _

section Lawful

variable [Std.TransOrd α] [Std.LawfulEqOrd α]

omit [Std.LawfulEqOrd α] in
theorem compare_self (a : α) : compare a a = .eq := Std.ReflCmp.compare_self

omit [Std.LawfulEqOrd α] in
theorem ne_of_compare_lt {a b : α} (h : compare a b = .lt) : a ≠ b := by
  rintro rfl
  rw [compare_self] at h
  exact absurd h (by decide)

omit [Std.LawfulEqOrd α] in
theorem Increasing.head_notMem {x : β} {xs : List β} (h : Increasing key (x :: xs)) : x ∉ xs :=
  fun hm => ne_of_compare_lt (h.head_lt hm) rfl

omit [Std.LawfulEqOrd α] in
/-- **Extensionality.** Two increasing lists with the same members are equal. -/
theorem Increasing.ext {xs ys : List β} (hx : Increasing key xs) (hy : Increasing key ys)
    (h : ∀ z, z ∈ xs ↔ z ∈ ys) : xs = ys := by
  induction xs generalizing ys with
  | nil =>
    cases ys with
    | nil => rfl
    | cons y ys => exact absurd ((h y).2 (.head _)) List.not_mem_nil
  | cons x xs ih =>
    cases ys with
    | nil => exact absurd ((h x).1 (.head _)) List.not_mem_nil
    | cons y ys =>
      have hxy : x = y := by
        rcases List.mem_cons.1 ((h x).1 (.head _)) with e | hm
        · exact e
        · rcases List.mem_cons.1 ((h y).2 (.head _)) with e | hm'
          · exact e.symm
          · exact absurd rfl (ne_of_compare_lt (Std.TransCmp.lt_trans (hx.head_lt hm')
              (hy.head_lt hm)))
      subst hxy
      congr 1
      refine ih hx.tail hy.tail fun z => ⟨fun hz => ?_, fun hz => ?_⟩
      · exact (List.mem_cons.1 ((h z).1 (.tail _ hz))).resolve_left
          fun e => hx.head_notMem (e ▸ hz)
      · exact (List.mem_cons.1 ((h z).2 (.tail _ hz))).resolve_left
          fun e => hy.head_notMem (e ▸ hz)

/-! ## The operations -/

omit [Std.TransOrd α] in
theorem mem_eraseBy {k : α} {xs : List β} {y : β} :
    y ∈ eraseBy key k xs ↔ y ∈ xs ∧ key y ≠ k := by
  simp [eraseBy, bne_iff_ne]

theorem mem_insertBy {b y : β} {xs : List β} (h : Increasing key xs) :
    y ∈ insertBy key b xs ↔ y = b ∨ (y ∈ xs ∧ key y ≠ key b) := by
  induction xs with
  | nil => simp [insertBy]
  | cons x xs ih =>
    have ih := ih h.tail
    unfold insertBy
    split
    · rename_i hlt
      have hne : ∀ z ∈ x :: xs, key z ≠ key b := fun z hz => by
        rcases List.mem_cons.1 hz with rfl | hz
        · exact (ne_of_compare_lt hlt).symm
        · exact (ne_of_compare_lt (Std.TransCmp.lt_trans hlt (h.head_lt hz))).symm
      rw [List.mem_cons]
      exact or_congr_right ⟨fun m => ⟨m, hne _ m⟩, And.left⟩
    · rename_i heq
      have heq : key b = key x := Std.LawfulEqCmp.eq_of_compare heq
      rw [List.mem_cons, List.mem_cons, heq]
      refine or_congr_right ⟨fun m => ⟨.inr m, (ne_of_compare_lt (h.head_lt m)).symm⟩, ?_⟩
      rintro ⟨rfl | m, hne⟩
      · exact absurd rfl hne
      · exact m
    · rename_i hgt
      have hne : key x ≠ key b := ne_of_compare_lt (Std.OrientedCmp.lt_of_gt hgt)
      rw [List.mem_cons, ih, List.mem_cons]
      constructor
      · rintro (rfl | e | ⟨m, hm⟩)
        · exact .inr ⟨.inl rfl, hne⟩
        · exact .inl e
        · exact .inr ⟨.inr m, hm⟩
      · rintro (e | ⟨rfl | m, hm⟩)
        · exact .inr (.inl e)
        · exact .inl rfl
        · exact .inr (.inr ⟨m, hm⟩)

theorem increasing_insertBy {b : β} {xs : List β} (h : Increasing key xs) :
    Increasing key (insertBy key b xs) := by
  induction xs with
  | nil => exact List.pairwise_singleton _ _
  | cons x xs ih =>
    unfold insertBy
    split
    · rename_i hlt
      refine List.pairwise_cons.2 ⟨fun y hy => ?_, h⟩
      rcases List.mem_cons.1 hy with rfl | hy
      · exact hlt
      · exact Std.TransCmp.lt_trans hlt (h.head_lt hy)
    · rename_i heq
      have heq : key b = key x := Std.LawfulEqCmp.eq_of_compare heq
      exact List.pairwise_cons.2 ⟨fun y hy => heq ▸ h.head_lt hy, h.tail⟩
    · rename_i hgt
      refine List.pairwise_cons.2 ⟨fun y hy => ?_, ih h.tail⟩
      rcases (mem_insertBy h.tail).1 hy with rfl | ⟨hy, _⟩
      · exact Std.OrientedCmp.lt_of_gt hgt
      · exact h.head_lt hy

theorem findBy?_eq_some_iff {k : α} {xs : List β} {y : β} (h : Increasing key xs) :
    findBy? key k xs = some y ↔ y ∈ xs ∧ key y = k := by
  induction xs with
  | nil => simp [findBy?]
  | cons x xs ih =>
    have ih := ih h.tail
    unfold findBy? at ih ⊢
    rw [List.find?_cons, List.mem_cons]
    split
    · rename_i he
      have he : key x = k := Std.LawfulEqCmp.eq_of_compare (eq_of_beq he)
      constructor
      · intro e
        cases e
        exact ⟨.inl rfl, he⟩
      · rintro ⟨rfl | hy, hk⟩
        · rfl
        · exact absurd (he.trans hk.symm) (ne_of_compare_lt (h.head_lt hy))
    · rename_i he
      rw [ih]
      refine ⟨fun ⟨hy, hk⟩ => ⟨.inr hy, hk⟩, fun ⟨hy, hk⟩ => ⟨hy.resolve_left ?_, hk⟩⟩
      rintro rfl
      rw [hk, compare_self] at he
      exact absurd he (by decide)

end Lawful

end Directory.Sorted
