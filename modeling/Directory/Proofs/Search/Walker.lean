import Directory.Proofs.Search.Span
import Directory.Search.Walker

/-!
# Walkers of filters walk their candidates

* `Layer.Stands`, `Walker.Stands`: the walker stands for a track of candidates, as its kind does.
* `Layer.walks`: a layer walks, if the walkers inside do; `Walker.walks`: **so any number of layers
  does**.
-/

namespace Directory

variable {p : Partition}

namespace Layer

variable {σ : Type} {n : Navigation σ SearchKey} {S : Standing σ SearchKey (List Test)}

/-- The walker stands for a track as its kind does. -/
def Stands (S : Standing σ SearchKey (List Test)) : Standing (Layer σ) SearchKey (List Test)
  | empty c => EmptyWalker.Stands c
  | single c => SingleWalker.Stands c
  | master c => MasterWalker.Stands c
  | key c => KeyWalker.Stands c
  | scope c => ScopeWalker.Stands c
  | scan c => TestedWalker.Stands MasterWalker.Stands c
  | span c => SpanWalker.Stands c
  | both c => TestedWalker.Stands S c
  | either c => EitherWalker.Stands S c

theorem wrap_state (c : Layer σ) : (c.kind p n).wrap (c.kind p n).state = c := by cases c <;> rfl

theorem exists_walks (hn : n.Walks (Test.accept p) S) (c : Layer σ) : ∃ S',
    (c.kind p n).operations.Walks (Test.accept p) S' ∧
      ∀ s, S' s = Stands S ((c.kind p n).wrap s) :=
  match c with
  | empty _ => ⟨_, EmptyWalker.walks, fun _ => rfl⟩
  | single _ => ⟨_, SingleWalker.walks, fun _ => rfl⟩
  | master _ => ⟨_, MasterWalker.walks, fun _ => rfl⟩
  | key _ => ⟨_, KeyWalker.walks, fun _ => rfl⟩
  | scope _ => ⟨_, ScopeWalker.walks, fun _ => rfl⟩
  | scan _ => ⟨_, ScanWalker.walks p, fun _ => rfl⟩
  | span _ => ⟨_, SpanWalker.walks, fun _ => rfl⟩
  | both _ => ⟨_, TestedWalker.walks hn _, fun _ => rfl⟩
  | either _ => ⟨_, EitherWalker.walks hn, fun _ => rfl⟩

theorem Stands.state {S' : Standing (Layer.kind p n c).State SearchKey (List Test)}
    (hS : ∀ s, S' s = Stands S ((c.kind p n).wrap s)) {t e} (h : Stands S c t e) :
    S' (c.kind p n).state t e := by
  rw [hS, wrap_state]
  exact h

theorem walks (hn : n.Walks (Test.accept p) S) :
    (navigation p n).Walks (Test.accept p) (Stands S) where
  isOpen {c _ _} h := by
    obtain ⟨S', hwalks, hS⟩ := exists_walks hn c
    exact hwalks.isOpen (h.state hS)
  size {c _ _} h := by
    obtain ⟨S', hwalks, hS⟩ := exists_walks hn c
    exact hwalks.size (h.state hS)
  restart {c _ _} w h := by
    obtain ⟨S', hwalks, hS⟩ := exists_walks hn c
    obtain ⟨s, hs, hS''⟩ := hwalks.restart w (h.state hS)
    have hrun : (navigation p n).restart w c = (c.kind p n).run (·.restart w) := by
      cases w <;> rfl
    refine ⟨(c.kind p n).wrap s, ?_, hS s ▸ hS''⟩
    rw [hrun, Kind.run, hs, inside]
  advance {c _ _} w h := by
    obtain ⟨S', hwalks, hS⟩ := exists_walks hn c
    have hlands := hwalks.advance w (h.state hS)
    have hrun : (navigation p n).advance w c = (c.kind p n).run (·.advance w) := by
      cases w <;> rfl
    rw [hrun]
    exact hlands.inside fun {s _ _} h => hS s ▸ h
  element {c _ e} h := by
    obtain ⟨S', hwalks, hS⟩ := exists_walks hn c
    have helement := hwalks.element (h.state hS)
    have hrun : (navigation p n).element c = (c.kind p n).run (·.element) := rfl
    rw [hrun, Kind.run, helement]
    cases e <;> simp [inside, wrap_state]
  available {c _ _} h := by
    obtain ⟨S', hwalks, hS⟩ := exists_walks hn c
    exact hwalks.available (h.state hS)

end Layer

namespace Walker

/-- The walker stands for a track, as do those inside it. -/
def Stands : (d : Nat) → Standing (Walker d) SearchKey (List Test)
  | 0 => Empty.elim
  | d + 1 => Layer.Stands (Stands d)

/-- **Walkers walk their candidates**, however many layers they have. -/
theorem walks (p : Partition) : (d : Nat) → (navigation p d).Walks (Test.accept p) (Stands d)
  | 0 => by constructor <;> rintro ⟨⟩
  | d + 1 => Layer.walks (walks p d)

end Walker

end Directory
