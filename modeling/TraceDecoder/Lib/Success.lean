import Mathlib.Tactic.Common

/-!
# Programs that succeed

For a program over a state with errors: started in any state with `pre` it does not fail, returns
`a`, and ends in a state with `post`. `Decides` adds a condition, without which the program fails.
-/

variable {ε σ α β : Type}

def Succeeds (pre : σ → Prop) (p : EStateM ε σ α) (a : α) (post : σ → Prop) : Prop :=
  ∀ s, pre s → ∃ s', p s = .ok a s' ∧ post s'

namespace Succeeds

variable {pre mid post : σ → Prop} {a : α} {b : β}

theorem pure (h : ∀ s, pre s → post s) : Succeeds (ε := ε) pre (pure a) a post :=
  fun s hs => ⟨s, rfl, h s hs⟩

theorem bind {p : EStateM ε σ α} {f : α → EStateM ε σ β} (hp : Succeeds pre p a mid)
    (hf : Succeeds mid (f a) b post) : Succeeds pre (p >>= f) b post := by
  intro s hs
  obtain ⟨s', hrun, hmid⟩ := hp s hs
  obtain ⟨s'', hrun', hpost⟩ := hf s' hmid
  refine ⟨s'', ?_, hpost⟩
  change EStateM.bind p f s = _
  rw [EStateM.bind, hrun]
  exact hrun'

theorem get_bind {f : σ → EStateM ε σ β}
    (hf : ∀ t, pre t → Succeeds pre (f t) b post) : Succeeds pre (get >>= f) b post :=
  fun s hs => hf s hs s hs

theorem weaken {pre' : σ → Prop} {p : EStateM ε σ α} (h : Succeeds pre p a post)
    (hpre : ∀ s, pre' s → pre s) : Succeeds pre' p a post :=
  fun s hs => h s (hpre s hs)

end Succeeds

def Fails (pre : σ → Prop) (p : EStateM ε σ α) : Prop := ∀ s, pre s → ∃ e s', p s = .error e s'

theorem Fails.bind {pre : σ → Prop} {p : EStateM ε σ α} (h : Fails pre p) (f : α → EStateM ε σ β) :
    Fails pre (p >>= f) := by
  intro s hs
  obtain ⟨e, s', hrun⟩ := h s hs
  refine ⟨e, s', ?_⟩
  change EStateM.bind p f s = _
  rw [EStateM.bind, hrun]

theorem Succeeds.bind_fails {pre mid : σ → Prop} {a : α} {p : EStateM ε σ α} {f : α → EStateM ε σ β}
    (hp : Succeeds pre p a mid) (hf : Fails mid (f a)) : Fails pre (p >>= f) := by
  intro s hs
  obtain ⟨s', hrun, hmid⟩ := hp s hs
  obtain ⟨e, s'', hrun'⟩ := hf s' hmid
  refine ⟨e, s'', ?_⟩
  change EStateM.bind p f s = _
  rw [EStateM.bind, hrun]
  exact hrun'

/-- The program succeeds if `good` holds, and fails otherwise. -/
structure Decides (good : Prop) (pre : σ → Prop) (p : EStateM ε σ α) (a : α) (post : σ → Prop) :
    Prop where
  succeeds : good → Succeeds pre p a post
  fails : ¬ good → Fails pre p

theorem Succeeds.decides {pre post : σ → Prop} {p : EStateM ε σ α} {a : α}
    (h : Succeeds pre p a post) :
    Decides True pre p a post :=
  ⟨fun _ => h, fun hnot => absurd trivial hnot⟩

namespace Decides

variable {good good' : Prop} {pre mid post : σ → Prop} {a : α} {b : β}

theorem pure (h : ∀ s, pre s → post s) : Decides (ε := ε) True pre (pure a) a post :=
  ⟨fun _ => .pure h, fun hnot => absurd trivial hnot⟩

theorem bind {p : EStateM ε σ α} {f : α → EStateM ε σ β} (hp : Decides good pre p a mid)
    (hf : Decides good' mid (f a) b post) : Decides (good ∧ good') pre (p >>= f) b post := by
  refine ⟨fun h => (hp.succeeds h.1).bind (hf.succeeds h.2), fun hnot => ?_⟩
  by_cases hgood : good
  · exact (hp.succeeds hgood).bind_fails (hf.fails fun h => hnot ⟨hgood, h⟩)
  · exact (hp.fails hgood).bind f

theorem get_bind {f : σ → EStateM ε σ β} (hf : ∀ t, pre t → Decides good pre (f t) b post) :
    Decides good pre (get >>= f) b post :=
  ⟨fun h => .get_bind fun t ht => (hf t ht).succeeds h, fun hnot s hs => (hf s hs).fails hnot s hs⟩

theorem weaken {pre' : σ → Prop} {p : EStateM ε σ α} (h : Decides good pre p a post)
    (hpre : ∀ s, pre' s → pre s) : Decides good pre' p a post :=
  ⟨fun hgood => (h.succeeds hgood).weaken hpre, fun hnot s hs => h.fails hnot s (hpre s hs)⟩

theorem congr {p : EStateM ε σ α} (h : Decides good pre p a post) (hiff : good ↔ good') :
    Decides good' pre p a post :=
  ⟨fun hgood => h.succeeds (hiff.mpr hgood), fun hnot => h.fails fun hgood => hnot (hiff.mp hgood)⟩

end Decides
