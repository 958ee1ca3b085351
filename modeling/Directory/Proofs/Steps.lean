import Directory.Error

/-!
# What steps leave behind

Operations are sequences of steps, some of which can be refused. What is proved of an operation is
read off its steps one after another.

* `bind_of_ok`, `map_of_ok`: what follows a step that has succeeded; `bind_eq_ok`,
  `bind_eq_error`: how two steps succeed or are refused.
* `Composes P`: sequences of steps have the property if all of their steps have it.
* `Ensures m s Q`: whenever `m` succeeds from the state `s`, its result and the state it leaves
  satisfy `Q`. One lemma for each way to combine steps, so that `simp only` with these turns the
  text of an operation into what has to be shown.
* `Refuses m s Q`: whenever `m` is refused from the state `s`, the state it leaves satisfies `Q`;
  `stateAfter_of`: with both, any state that `m` leaves.
* `Maintains I m`: what holds of the state before `m` holds after it, in either case.
* `Retains f m`: steps that leave what `f` sees of the state.
* `Complains m s P`: whenever `m` is refused from the state `s`, the error satisfies `P`;
  `Objections x P`: the same for a question.
* `Except.bind_eq_ok`, `Except.mem_of_mapM_eq_ok`: the same for questions, which leave no state.
-/

namespace Directory

/-! ## Questions -/

section Questions

variable {ε α β : Type}

@[simp] theorem Except.ok_bind (a : α) (f : α → Except ε β) : (.ok a >>= f) = f a := rfl

@[simp] theorem Except.error_bind (e : ε) (f : α → Except ε β) : (.error e >>= f) = .error e := rfl

@[simp] theorem Except.map_ok (a : α) (f : α → β) : f <$> (.ok a : Except ε α) = .ok (f a) := rfl

theorem Except.bind_eq_ok {x : Except ε α} {f : α → Except ε β} {b : β} :
    (x >>= f) = .ok b ↔ ∃ a, x = .ok a ∧ f a = .ok b := by
  cases x with
  | error e => exact ⟨fun h => (nomatch h), fun ⟨_, h, _⟩ => nomatch h⟩
  | ok a => exact ⟨fun h => ⟨a, rfl, h⟩, fun ⟨_, h, h'⟩ => by cases h; exact h'⟩

theorem Except.map_eq_ok {x : Except ε α} {f : α → β} {b : β} :
    f <$> x = .ok b ↔ ∃ a, x = .ok a ∧ f a = b := by
  cases x with
  | error e => exact ⟨fun h => (nomatch h), fun ⟨_, h, _⟩ => nomatch h⟩
  | ok a => exact ⟨fun h => ⟨a, rfl, by cases h; rfl⟩, fun ⟨_, h, h'⟩ => by cases h; cases h'; rfl⟩

theorem Except.pure_eq_ok {a b : α} : (pure a : Except ε α) = .ok b ↔ a = b :=
  ⟨fun h => by cases h; rfl, fun h => h ▸ rfl⟩

theorem Except.toOption_eq_some {x : Except ε α} {a : α} : x.toOption = some a ↔ x = .ok a := by
  cases x with
  | error e => exact ⟨fun h => (nomatch h), fun h => nomatch h⟩
  | ok b => exact ⟨fun h => by cases h; rfl, fun h => by cases h; rfl⟩

/-- The answers to questions about the elements of a list. -/
theorem Except.mem_of_mapM_eq_ok {f : α → Except ε β} {xs : List α} {ys : List β}
    (h : xs.mapM f = .ok ys) {y : β} : y ∈ ys ↔ ∃ x ∈ xs, f x = .ok y := by
  induction xs generalizing ys with
  | nil =>
    rw [List.mapM_nil, Except.pure_eq_ok] at h
    subst h
    simp
  | cons x xs ih =>
    simp only [List.mapM_cons, Except.bind_eq_ok, Except.pure_eq_ok] at h
    obtain ⟨z, hz, zs, hzs, rfl⟩ := h
    rw [List.mem_cons, ih hzs]
    constructor
    · rintro (rfl | ⟨x', hx', hy⟩)
      · exact ⟨x, .head _, hz⟩
      · exact ⟨x', .tail _ hx', hy⟩
    · rintro ⟨x', hx', hy⟩
      rcases List.mem_cons.1 hx' with rfl | hx'
      · exact .inl (Except.ok.inj (hy.symm.trans hz))
      · exact .inr ⟨x', hx', hy⟩

theorem Except.exists_mapM_eq_ok {f : α → Except ε β} {xs : List α} :
    (∃ ys, xs.mapM f = .ok ys) ↔ ∀ x ∈ xs, ∃ y, f x = .ok y := by
  induction xs with
  | nil => exact ⟨fun _ _ hx => (nomatch hx), fun _ => ⟨[], rfl⟩⟩
  | cons x xs ih =>
    simp only [List.mapM_cons, Except.bind_eq_ok, Except.pure_eq_ok, List.mem_cons,
      forall_eq_or_imp, ← ih]
    constructor
    · rintro ⟨_, y, hy, ys, hys, _⟩
      exact ⟨⟨y, hy⟩, ys, hys⟩
    · rintro ⟨⟨y, hy⟩, ys, hys⟩
      exact ⟨_, y, hy, ys, hys, rfl⟩

theorem Except.eq_of_mapM {f : α → Except ε α} {xs ys : List α}
    (hf : ∀ x ∈ xs, ∀ y, f x = .ok y → y = x) (h : xs.mapM f = .ok ys) : ys = xs := by
  induction xs generalizing ys with
  | nil => exact (Except.pure_eq_ok.1 h).symm
  | cons x xs ih =>
    simp only [List.mapM_cons, Except.bind_eq_ok, Except.pure_eq_ok] at h
    obtain ⟨y, hy, ys, hys, rfl⟩ := h
    rw [hf x (.head _) y hy, ih (fun x hx => hf x (.tail _ hx)) hys]

/-- Questions that are refused where `p` holds and otherwise answered with their subject: a list is
answered with itself, or refused for the first such element. -/
theorem Except.mapM_eq_find? {f : α → Except ε α} {p : α → Bool} {e : α → ε} {xs : List α}
    (hf : ∀ x ∈ xs, f x = if p x then .error (e x) else .ok x) :
    xs.mapM f = match xs.find? p with | none => .ok xs | some x => .error (e x) := by
  induction xs with
  | nil => rfl
  | cons x xs ih =>
    rw [List.mapM_cons, hf x (.head _), ih fun y hy => hf y (.tail _ hy), List.find?_cons]
    cases hx : p x with
    | true => rfl
    | false => cases xs.find? p <;> rfl

theorem Except.mem_of_filterM_eq_ok {f : α → Except ε Bool} {xs ys : List α}
    (h : xs.filterM f = .ok ys) {x : α} : x ∈ ys ↔ x ∈ xs ∧ f x = .ok true := by
  -- the function collects the elements in reverse
  have hcollect : ∀ {xs acc zs : List α}, xs.filterAuxM f acc = .ok zs →
      (x ∈ zs ↔ (x ∈ xs ∧ f x = .ok true) ∨ x ∈ acc) := by
    intro xs
    induction xs with
    | nil =>
      intro acc zs h
      cases h
      simp
    | cons y xs ih =>
      intro acc zs h
      obtain ⟨b, hb, h⟩ := Except.bind_eq_ok.1 h
      rw [ih h, List.mem_cons]
      by_cases hxy : x = y
      · subst hxy
        cases b <;> simp [hb]
      · cases b <;> simp [hxy]
  obtain ⟨zs, hzs, h⟩ := Except.bind_eq_ok.1 h
  cases h
  rw [List.mem_reverse, hcollect hzs]
  exact or_iff_left List.not_mem_nil

theorem Except.forM_eq_ok {f : α → Except ε Unit} {xs : List α} :
    xs.forM f = .ok () ↔ ∀ x ∈ xs, f x = .ok () := by
  induction xs with
  | nil => exact ⟨fun _ _ hx => (nomatch hx), fun _ => rfl⟩
  | cons x xs ih =>
    show (f x >>= fun _ => xs.forM f) = .ok () ↔ _
    simp only [Except.bind_eq_ok, ih, List.mem_cons, forall_eq_or_imp]
    exact ⟨fun ⟨_, hx, h⟩ => ⟨hx, h⟩, fun ⟨hx, h⟩ => ⟨_, hx, h⟩⟩

end Questions

/-! ## Steps -/

section Steps

variable {ε σ α β : Type}

/-- The state that `m` leaves, whether it succeeds or is refused. -/
def stateAfter (m : EStateM ε σ α) (s : σ) : σ :=
  match m s with
  | .ok _ s' => s'
  | .error _ s' => s'

/-- A step that succeeds is followed by what is made of its result. -/
theorem bind_of_ok {m : EStateM ε σ α} {f : α → EStateM ε σ β} {s s' : σ} {a : α}
    (h : m s = .ok a s') : (m >>= f) s = f a s' := by
  show EStateM.bind m f s = _
  rw [EStateM.bind, h]

theorem bind_of_error {m : EStateM ε σ α} {f : α → EStateM ε σ β} {s s' : σ} {e : ε}
    (h : m s = .error e s') : (m >>= f) s = .error e s' := by
  show EStateM.bind m f s = _
  rw [EStateM.bind, h]

theorem map_of_ok {m : EStateM ε σ α} {f : α → β} {s s' : σ} {a : α} (h : m s = .ok a s') :
    (f <$> m) s = .ok (f a) s' := by
  show EStateM.map f m s = _
  rw [EStateM.map, h]

theorem map_of_error {m : EStateM ε σ α} {f : α → β} {s s' : σ} {e : ε} (h : m s = .error e s') :
    (f <$> m) s = .error e s' := by
  show EStateM.map f m s = _
  rw [EStateM.map, h]

theorem map_eq_ok {m : EStateM ε σ α} {f : α → β} {s s' : σ} {b : β} :
    (f <$> m) s = .ok b s' ↔ ∃ a, m s = .ok a s' ∧ f a = b := by
  cases hm : m s with
  | ok a s₁ =>
    rw [map_of_ok hm]
    constructor
    · intro h
      cases h
      exact ⟨a, rfl, rfl⟩
    · rintro ⟨_, h, rfl⟩
      cases h
      rfl
  | error e s₁ =>
    rw [map_of_error hm]
    exact ⟨fun h => (nomatch h), fun ⟨_, h, _⟩ => nomatch h⟩

theorem bind_eq_ok {m : EStateM ε σ α} {f : α → EStateM ε σ β} {s s' : σ} {b : β} :
    (m >>= f) s = .ok b s' ↔ ∃ a s₁, m s = .ok a s₁ ∧ f a s₁ = .ok b s' := by
  cases hm : m s with
  | ok a s₁ =>
    rw [bind_of_ok hm]
    exact ⟨fun h => ⟨a, s₁, rfl, h⟩, fun ⟨_, _, h, h'⟩ => by cases h; exact h'⟩
  | error e s₁ =>
    rw [bind_of_error hm]
    exact ⟨fun h => (nomatch h), fun ⟨_, _, h, _⟩ => nomatch h⟩

theorem bind_eq_error {m : EStateM ε σ α} {f : α → EStateM ε σ β} {s s' : σ} {e : ε} :
    (m >>= f) s = .error e s' ↔
      m s = .error e s' ∨ ∃ a s₁, m s = .ok a s₁ ∧ f a s₁ = .error e s' := by
  cases hm : m s with
  | ok a s₁ =>
    rw [bind_of_ok hm]
    refine ⟨fun h => .inr ⟨a, s₁, rfl, h⟩, ?_⟩
    rintro (h | ⟨_, _, h, h'⟩)
    · cases h
    · cases h
      exact h'
  | error e' s₁ =>
    rw [bind_of_error hm]
    constructor
    · intro h
      cases h
      exact .inl rfl
    · rintro (h | ⟨_, _, h, _⟩)
      · cases h
        rfl
      · cases h

/-- A property that sequences of steps have if all of their steps have it. -/
structure Composes (P : ∀ {α : Type}, EStateM ε σ α → Prop) : Prop where
  pure : ∀ {α : Type} (a : α), P (pure a : EStateM ε σ α)
  bind : ∀ {α β : Type} {m : EStateM ε σ α} {f : α → EStateM ε σ β},
    P m → (∀ a, P (f a)) → P (m >>= f)

namespace Composes

variable {P : ∀ {α : Type}, EStateM ε σ α → Prop}

theorem forM (h : Composes P) {f : α → EStateM ε σ Unit} (hf : ∀ a, P (f a)) :
    (xs : List α) → P (xs.forM f)
  | [] => h.pure ()
  | x :: xs => h.bind (hf x) fun _ => h.forM hf xs

theorem forM_option (h : Composes P) {f : α → EStateM ε σ Unit} (hf : ∀ a, P (f a)) :
    (x? : Option α) → P (x?.forM f)
  | none => h.pure ()
  | some x => hf x

theorem mapM (h : Composes P) {f : α → EStateM ε σ β} (hf : ∀ a, P (f a)) (xs : List α) :
    P (xs.mapM f) := by
  induction xs with
  | nil =>
    rw [List.mapM_nil]
    exact h.pure _
  | cons x xs ih =>
    rw [List.mapM_cons]
    exact h.bind (hf x) fun _ => h.bind ih fun _ => h.pure _

end Composes

/-- Whenever `m` succeeds from `s`, its result and the state that it leaves satisfy `Q`. -/
def Ensures (m : EStateM ε σ α) (s : σ) (Q : α → σ → Prop) : Prop :=
  ∀ a s', m s = .ok a s' → Q a s'

namespace Ensures

variable {m : EStateM ε σ α} {s : σ} {Q R : α → σ → Prop}

theorem mono (h : Ensures m s Q) (hQR : ∀ a s', Q a s' → R a s') : Ensures m s R :=
  fun a s' e => hQR a s' (h a s' e)

theorem and (h : Ensures m s Q) (h' : Ensures m s R) : Ensures m s fun a s' => Q a s' ∧ R a s' :=
  fun a s' e => ⟨h a s' e, h' a s' e⟩

theorem bind {f : α → EStateM ε σ β} {Q : β → σ → Prop} :
    Ensures (m >>= f) s Q ↔ Ensures m s fun a s' => Ensures (f a) s' Q := by
  constructor
  · exact fun h a s' ha b s'' hb => h b s'' (bind_eq_ok.2 ⟨a, s', ha, hb⟩)
  · intro h b s'' hb
    obtain ⟨a, s', ha, hb⟩ := bind_eq_ok.1 hb
    exact h a s' ha b s'' hb

theorem pure {a : α} : Ensures (pure a : EStateM ε σ α) s Q ↔ Q a s :=
  ⟨fun h => h a s rfl, fun h _ _ e => by cases e; exact h⟩

theorem get {Q : σ → σ → Prop} : Ensures (get : EStateM ε σ σ) s Q ↔ Q s s :=
  ⟨fun h => h s s rfl, fun h _ _ e => by cases e; exact h⟩

theorem set {s' : σ} {Q : PUnit → σ → Prop} :
    Ensures (set s' : EStateM ε σ PUnit) s Q ↔ Q () s' :=
  ⟨fun h => h _ s' rfl, fun h _ _ e => by cases e; exact h⟩

theorem modify {f : σ → σ} {Q : PUnit → σ → Prop} :
    Ensures (modify f : EStateM ε σ PUnit) s Q ↔ Q () (f s) :=
  ⟨fun h => h _ (f s) rfl, fun h _ _ e => by cases e; exact h⟩

theorem lift {σ : Type} {s : σ} {Q : α → σ → Prop} {x : Except Error α} :
    Ensures (liftM x : EStateM Error σ α) s Q ↔ ∀ a, x = .ok a → Q a s := by
  cases x with
  | error e => exact ⟨fun _ _ h => (nomatch h), fun _ _ _ h => nomatch h⟩
  | ok a =>
    exact ⟨fun h b e => by cases e; exact h a s rfl, fun h _ _ e => by cases e; exact h a rfl⟩

/-- What each step keeps, a sequence of steps keeps. -/
theorem forM {I : σ → Prop} {f : α → EStateM ε σ Unit} {xs : List α}
    (hf : ∀ x ∈ xs, ∀ s, I s → Ensures (f x) s fun _ s' => I s') (hs : I s) :
    Ensures (xs.forM f) s fun _ s' => I s' := by
  induction xs generalizing s with
  | nil => exact pure.2 hs
  | cons x xs ih =>
    refine bind.2 ((hf x (.head _) s hs).mono fun _ s' hs' => ?_)
    exact ih (fun y hy => hf y (.tail _ hy)) hs'

end Ensures

/-- Steps that leave what `f` sees of the state, whenever they succeed. -/
def Retains {τ : Type} (f : σ → τ) (m : EStateM ε σ α) : Prop :=
  ∀ s, Ensures m s fun _ s' => f s' = f s

namespace Retains

variable {τ : Type} {f : σ → τ} {m m' : EStateM ε σ α}

theorem pure (a : α) : Retains f (pure a : EStateM ε σ α) := fun _ => Ensures.pure.2 rfl

theorem get : Retains f (get : EStateM ε σ σ) := fun _ => Ensures.get.2 rfl

theorem lift {σ : Type} {f : σ → τ} (x : Except Error α) :
    Retains f (liftM x : EStateM Error σ α) := fun _ => Ensures.lift.2 fun _ _ => rfl

theorem bind {k : α → EStateM ε σ β} (hm : Retains f m) (hk : ∀ a, Retains f (k a)) :
    Retains f (m >>= k) := fun s =>
  Ensures.bind.2 ((hm s).mono fun a s' h => (hk a s').mono fun _ _ h' => h'.trans h)

theorem ite {c : Prop} [Decidable c] (hm : Retains f m) (hm' : Retains f m') :
    Retains f (if c then m else m') := by
  split
  · exact hm
  · exact hm'

theorem composes : Composes (ε := ε) fun m => Retains f m := ⟨pure, bind⟩

theorem forM {k : α → EStateM ε σ Unit} (hk : ∀ a, Retains f (k a)) (xs : List α) :
    Retains f (xs.forM k) := composes.forM hk xs

theorem forM_option {k : α → EStateM ε σ Unit} (hk : ∀ a, Retains f (k a)) (x? : Option α) :
    Retains f (x?.forM k) := composes.forM_option hk x?

theorem mapM {k : α → EStateM ε σ β} (hk : ∀ a, Retains f (k a)) (xs : List α) :
    Retains f (xs.mapM k) := composes.mapM hk xs

end Retains

end Steps

/-! ## Refusals -/

section Refusals

variable {ε σ α β : Type}

/-- Whenever `m` is refused from `s`, the state that it leaves satisfies `Q`. -/
def Refuses (m : EStateM ε σ α) (s : σ) (Q : σ → Prop) : Prop := ∀ e s', m s = .error e s' → Q s'

namespace Refuses

variable {m : EStateM ε σ α} {s : σ} {Q : σ → Prop}

theorem bind {f : α → EStateM ε σ β} :
    Refuses (m >>= f) s Q ↔ Refuses m s Q ∧ Ensures m s fun a s' => Refuses (f a) s' Q := by
  constructor
  · exact fun h => ⟨fun e s' he => h e s' (bind_eq_error.2 (.inl he)),
      fun a s' ha e s'' he => h e s'' (bind_eq_error.2 (.inr ⟨a, s', ha, he⟩))⟩
  · rintro ⟨hm, hf⟩ e s' he
    rcases bind_eq_error.1 he with he | ⟨a, s₁, ha, he⟩
    · exact hm e s' he
    · exact hf a s₁ ha e s' he

theorem pure {a : α} : Refuses (pure a : EStateM ε σ α) s Q ↔ True :=
  ⟨fun _ => trivial, fun _ _ _ h => by cases h⟩

theorem get : Refuses (get : EStateM ε σ σ) s Q ↔ True :=
  ⟨fun _ => trivial, fun _ _ _ h => by cases h⟩

theorem set {s' : σ} : Refuses (set s' : EStateM ε σ PUnit) s Q ↔ True :=
  ⟨fun _ => trivial, fun _ _ _ h => by cases h⟩

theorem modify {f : σ → σ} : Refuses (modify f : EStateM ε σ PUnit) s Q ↔ True :=
  ⟨fun _ => trivial, fun _ _ _ h => by cases h⟩

theorem lift {σ : Type} {s : σ} {Q : σ → Prop} {x : Except Error α} (h : Q s) :
    Refuses (liftM x : EStateM Error σ α) s Q := by
  intro e s' he
  cases x with
  | ok a => cases he
  | error e' =>
    cases he
    exact h

end Refuses

/-- What holds after success and after refusal holds afterwards. -/
theorem stateAfter_of {m : EStateM ε σ α} {s : σ} {Q : σ → Prop}
    (hok : Ensures m s fun _ s' => Q s') (hno : Refuses m s Q) : Q (stateAfter m s) := by
  unfold stateAfter
  cases h : m s with
  | ok a s' => exact hok a s' h
  | error e s' => exact hno e s' h

/-! ### Success and refusal -/

variable {I : σ → Prop}

/-- What holds before `m` holds after it, whether `m` succeeds or is refused. -/
def Maintains (I : σ → Prop) (m : EStateM ε σ α) : Prop := ∀ s, I s → I (stateAfter m s)

namespace Maintains

theorem pure (a : α) : Maintains I (pure a : EStateM ε σ α) := fun _ h => h

theorem get : Maintains I (get : EStateM ε σ σ) := fun _ h => h

theorem modify {f : σ → σ} (hf : ∀ s, I s → I (f s)) :
    Maintains I (modify f : EStateM ε σ PUnit) := hf

theorem lift {I : σ → Prop} (x : Except Error α) : Maintains I (liftM x : EStateM Error σ α) := by
  intro s h
  cases x with
  | ok a => exact h
  | error e => exact h

theorem bind {m : EStateM ε σ α} {f : α → EStateM ε σ β} (hm : Maintains I m)
    (hf : ∀ a, Maintains I (f a)) : Maintains I (m >>= f) := by
  intro s h
  have hs := hm s h
  unfold stateAfter at hs ⊢
  cases hms : m s with
  | ok a s' =>
    rw [hms] at hs
    rw [bind_of_ok hms]
    exact hf a s' hs
  | error e s' =>
    rw [hms] at hs
    rwa [bind_of_error hms]

end Maintains

end Refusals

/-! ## Complaints -/

section Complaints

variable {ε σ α β : Type}

/-- Whatever error the question is refused with satisfies `P`. -/
def Objections (x : Except ε α) (P : ε → Prop) : Prop := ∀ e, x = .error e → P e

namespace Objections

variable {x : Except ε α} {P Q : ε → Prop}

theorem mono (h : Objections x P) (hPQ : ∀ e, P e → Q e) : Objections x Q :=
  fun e he => hPQ e (h e he)

theorem ok {a : α} : Objections (Except.ok a : Except ε α) P := fun _ h => nomatch h

theorem error {e : ε} (h : P e) : Objections (Except.error e : Except ε α) P :=
  fun _ he => by cases he; exact h

theorem bind {f : α → Except ε β} (hx : Objections x P)
    (hf : ∀ a, x = .ok a → Objections (f a) P) : Objections (x >>= f) P := by
  cases x with
  | error e => exact error (hx e rfl)
  | ok a => exact hf a rfl

theorem map {f : α → β} (hx : Objections x P) : Objections (f <$> x) P := by
  cases x with
  | error e => exact error (hx e rfl)
  | ok a => exact ok

theorem mapM {f : α → Except ε β} (hf : ∀ a, Objections (f a) P) (xs : List α) :
    Objections (xs.mapM f) P := by
  induction xs with
  | nil => exact ok
  | cons x xs ih =>
    rw [List.mapM_cons]
    exact (hf x).bind fun _ _ => ih.bind fun _ _ => ok

theorem forM {f : α → Except ε Unit} (hf : ∀ a, Objections (f a) P) :
    (xs : List α) → Objections (xs.forM f) P
  | [] => ok
  | x :: xs => (hf x).bind fun _ _ => forM hf xs

theorem foldlM {f : β → α → Except ε β} (hf : ∀ b a, Objections (f b a) P) (xs : List α) (b : β) :
    Objections (xs.foldlM f b) P := by
  induction xs generalizing b with
  | nil => exact ok
  | cons x xs ih => exact (hf b x).bind fun b' _ => ih b'

theorem filterM {f : α → Except ε Bool} (hf : ∀ a, Objections (f a) P) (xs : List α) :
    Objections (xs.filterM f) P := by
  have hcollect : ∀ acc, Objections (xs.filterAuxM f acc) P := by
    induction xs with
    | nil => exact fun _ => ok
    | cons x xs ih => exact fun acc => (hf x).bind fun b _ => ih _
  exact (hcollect []).bind fun _ _ => ok

end Objections

/-- Whenever `m` is refused from `s`, the error satisfies `P`. -/
def Complains (m : EStateM ε σ α) (s : σ) (P : ε → Prop) : Prop := ∀ e s', m s = .error e s' → P e

namespace Complains

variable {m : EStateM ε σ α} {s : σ} {P : ε → Prop}

theorem bind {f : α → EStateM ε σ β} (hm : Complains m s P)
    (hf : Ensures m s fun a s' => Complains (f a) s' P) : Complains (m >>= f) s P := by
  intro e s' he
  rcases bind_eq_error.1 he with he | ⟨a, s₁, ha, he⟩
  · exact hm e s' he
  · exact hf a s₁ ha e s' he

theorem pure {a : α} : Complains (pure a : EStateM ε σ α) s P := fun _ _ h => by cases h

theorem get : Complains (get : EStateM ε σ σ) s P := fun _ _ h => by cases h

theorem set {s' : σ} : Complains (set s' : EStateM ε σ PUnit) s P := fun _ _ h => by cases h

theorem modify {f : σ → σ} : Complains (modify f : EStateM ε σ PUnit) s P := fun _ _ h => by cases h

theorem lift {σ : Type} {s : σ} {P : Error → Prop} {x : Except Error α} (h : Objections x P) :
    Complains (liftM x : EStateM Error σ α) s P := by
  cases x with
  | ok a => exact pure
  | error e => exact fun _ _ he => by cases he; exact h e rfl

end Complains

end Complaints

end Directory
