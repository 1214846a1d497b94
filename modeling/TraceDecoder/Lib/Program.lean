import Mathlib.Tactic.Common

/-!
# Programs over a state with errors

Readers and a conditional for `EStateM`, and logics for such programs: `Leaves` is about the states
a program can end in, `Coupled` relates the runs of two programs that go on side by side, and
`Meets` the states in which two programs end up.
-/

variable {ε σ τ α β γ δ : Type}

namespace EStateM

def read (g : σ → α) : EStateM ε σ α := fun s => .ok (g s) s

def onlyIf (c : Prop) [Decidable c] (p : EStateM ε σ Unit) : EStateM ε σ Unit :=
  if c then p else pure ()

theorem bind_run (p : EStateM ε σ α) (f : α → EStateM ε σ β) (s : σ) :
    (p >>= f) s = match p s with
      | .ok a s' => f a s'
      | .error e s' => .error e s' := rfl

theorem bind_ok {p : EStateM ε σ α} {f : α → EStateM ε σ β} {s s' : σ} {a : α}
    (h : p s = .ok a s') : (p >>= f) s = f a s' := by
  rw [bind_run, h]

theorem bind_error {p : EStateM ε σ α} {f : α → EStateM ε σ β} {s s' : σ} {e : ε}
    (h : p s = .error e s') : (p >>= f) s = .error e s' := by
  rw [bind_run, h]

theorem read_bind_run (g : σ → α) (f : α → EStateM ε σ β) (s : σ) : (read g >>= f) s = f (g s) s :=
  rfl

def Result.state : EStateM.Result ε σ α → σ
  | .ok _ s | .error _ s => s

def Result.isOk : EStateM.Result ε σ α → Bool
  | .ok _ _ => true
  | .error _ _ => false

def Result.value? : EStateM.Result ε σ α → Option α
  | .ok a _ => some a
  | .error _ _ => none

theorem Result.eq_ok_of_value? {r : EStateM.Result ε σ α} {a : α} (h : r.value? = some a) :
    r = .ok a r.state := by
  cases r with
  | ok => rw [Option.some.inj h]; rfl
  | error => cases h

theorem Result.eq_ok {r : EStateM.Result ε σ Unit} (h : r.isOk = true) : r = .ok () r.state := by
  cases r with
  | ok => rfl
  | error => cases h

end EStateM

open EStateM

/-! ### Where a program can end -/

/-- From a state with `pre`, the program ends with `post`, or with `err` if it fails. -/
def Leaves (pre : σ → Prop) (p : EStateM ε σ α) (post : α → σ → Prop) (err : ε → σ → Prop) : Prop :=
  ∀ s, pre s → match p s with
    | .ok a s' => post a s'
    | .error e s' => err e s'

namespace Leaves

variable {pre mid : σ → Prop} {post : α → σ → Prop} {err : ε → σ → Prop}

theorem pure {a : α} (h : ∀ s, pre s → post a s) : Leaves pre (pure a) post err := h

theorem throw {e : ε} (h : ∀ s, pre s → err e s) : Leaves pre (throw e) post err := h

theorem read {g : σ → α} (h : ∀ s, pre s → post (g s) s) : Leaves pre (read g) post err := h

theorem modify {u : σ → σ} {post : Unit → σ → Prop} (h : ∀ s, pre s → post () (u s)) :
    Leaves pre (modify u) post err := h

theorem bind {p : EStateM ε σ α} {f : α → EStateM ε σ β} {mid : α → σ → Prop} {post : β → σ → Prop}
    (hp : Leaves pre p mid err) (hf : ∀ a, Leaves (mid a) (f a) post err) :
    Leaves pre (p >>= f) post err := by
  intro s hs
  have h := hp s hs
  rw [bind_run]
  cases hrun : p s with
  | error e s' => rw [hrun] at h; exact h
  | ok a s' => rw [hrun] at h; exact hf a s' h

theorem bind_eq {p : EStateM ε σ α} {f : α → EStateM ε σ β} {a : α} {post : β → σ → Prop}
    (hp : Leaves pre p (fun b s => b = a ∧ mid s) err) (hf : Leaves mid (f a) post err) :
    Leaves pre (p >>= f) post err :=
  hp.bind fun b s ⟨hb, hs⟩ => by rw [hb]; exact hf s hs

/-- Where the value read is known, the program goes on with it. -/
theorem read_bind {g : σ → α} {f : α → EStateM ε σ β} {post : β → σ → Prop} {a : α}
    (h : ∀ s, pre s → g s = a) (hf : Leaves pre (f a) post err) :
    Leaves pre (EStateM.read g >>= f) post err := by
  intro s hs
  rw [read_bind_run, h s hs]
  exact hf s hs

theorem onlyIf {c : Prop} [Decidable c] {p : EStateM ε σ Unit} {post : Unit → σ → Prop}
    (hp : c → Leaves pre p post err) (h : ¬ c → ∀ s, pre s → post () s) :
    Leaves pre (onlyIf c p) post err := by
  unfold EStateM.onlyIf
  split_ifs with hc
  · exact hp hc
  · exact Leaves.pure (h hc)

theorem of_ok {p : EStateM ε σ α} {a : α} {s s' : σ} (h : Leaves pre p post err) (hs : pre s)
    (hrun : p s = .ok a s') : post a s' := by
  have hpost := h s hs
  rwa [hrun] at hpost

theorem weaken {pre' : σ → Prop} {post' : α → σ → Prop} {err' : ε → σ → Prop} {p : EStateM ε σ α}
    (h : Leaves pre p post err) (hpre : ∀ s, pre' s → pre s) (hpost : ∀ a s, post a s → post' a s)
    (herr : ∀ e s, err e s → err' e s) : Leaves pre' p post' err' := by
  intro s hs
  have hrun := h s (hpre s hs)
  cases hp : p s with
  | ok a s' => rw [hp] at hrun; exact hpost a s' hrun
  | error e s' => rw [hp] at hrun; exact herr e s' hrun

end Leaves

/-- The program keeps `inv`, also when it fails. -/
def Keeps (inv : σ → Prop) (p : EStateM ε σ α) : Prop := Leaves inv p (fun _ => inv) (fun _ => inv)

namespace Keeps

variable {inv : σ → Prop}

theorem pure {a : α} : Keeps (ε := ε) inv (pure a) := Leaves.pure fun _ h => h

theorem throw {e : ε} : Keeps inv (throw e : EStateM ε σ α) := Leaves.throw fun _ h => h

theorem read {g : σ → α} : Keeps (ε := ε) inv (read g) := Leaves.read fun _ h => h

theorem modify {u : σ → σ} (h : ∀ s, inv s → inv (u s)) : Keeps (ε := ε) inv (modify u) :=
  Leaves.modify h

theorem bind {p : EStateM ε σ α} {f : α → EStateM ε σ β} (hp : Keeps inv p)
    (hf : ∀ a, Keeps inv (f a)) :
    Keeps inv (p >>= f) := Leaves.bind hp hf

theorem onlyIf {c : Prop} [Decidable c] {p : EStateM ε σ Unit} (hp : c → Keeps inv p) :
    Keeps inv (onlyIf c p) := Leaves.onlyIf hp fun _ _ h => h

theorem leaves {p : EStateM ε σ α} (hp : Keeps inv p) :
    Leaves inv p (fun _ => inv) (fun _ _ => True) :=
  hp.weaken (fun _ h => h) (fun _ _ h => h) fun _ _ _ => trivial

end Keeps

/-! ### Programs side by side -/

/-- Started in related states, the programs both succeed, with `post`, or
both fail with one error. -/
def Coupled (pre : σ → τ → Prop) (p : EStateM ε σ α) (q : EStateM ε τ β)
    (post : α → β → σ → τ → Prop) (err : σ → τ → Prop) : Prop :=
  ∀ s t, pre s t → match p s, q t with
    | .ok a s', .ok b t' => post a b s' t'
    | .error e s', .error e' t' => e = e' ∧ err s' t'
    | _, _ => False

namespace Coupled

variable {pre : σ → τ → Prop} {post : α → β → σ → τ → Prop} {err : σ → τ → Prop}

theorem pure {a : α} {b : β} (h : ∀ s t, pre s t → post a b s t) :
    Coupled (ε := ε) pre (pure a) (pure b) post err := h

theorem throw {e : ε} (h : ∀ s t, pre s t → err s t) :
    Coupled pre (throw e : EStateM ε σ α) (throw e : EStateM ε τ β) post err :=
  fun s t hst => ⟨rfl, h s t hst⟩

theorem read {g : σ → α} {k : τ → β} (h : ∀ s t, pre s t → post (g s) (k t) s t) :
    Coupled (ε := ε) pre (read g) (read k) post err := h

theorem modify {u : σ → σ} {v : τ → τ} {post : Unit → Unit → σ → τ → Prop}
    (h : ∀ s t, pre s t → post () () (u s) (v t)) :
    Coupled (ε := ε) pre (modify u) (modify v) post err := h

theorem bind {p : EStateM ε σ α} {q : EStateM ε τ β} {f : α → EStateM ε σ γ} {g : β → EStateM ε τ δ}
    {mid : α → β → σ → τ → Prop} {post : γ → δ → σ → τ → Prop} (hp : Coupled pre p q mid err)
    (hf : ∀ a b, Coupled (mid a b) (f a) (g b) post err) :
    Coupled pre (p >>= f) (q >>= g) post err := by
  intro s t hst
  have h := hp s t hst
  rw [bind_run, bind_run]
  cases hrun : p s with
  | ok a s' =>
    cases hrun' : q t with
    | ok b t' => rw [hrun, hrun'] at h; exact hf a b s' t' h
    | error e t' => rw [hrun, hrun'] at h; exact h.elim
  | error e s' =>
    cases hrun' : q t with
    | ok b t' => rw [hrun, hrun'] at h; exact h.elim
    | error e' t' => rw [hrun, hrun'] at h; exact h

/-- Where both programs fail, the first parts fail together or what follows them does. -/
theorem fails {p : EStateM ε σ α} {q : EStateM ε τ β} {f : α → EStateM ε σ γ}
    {g : β → EStateM ε τ δ} {mid : α → β → σ → τ → Prop}
    {s s' : σ} {t t' : τ} {e e' : ε} (h : Coupled pre p q mid err) (hst : pre s t)
    (hp : (p >>= f) s = .error e s')
    (hq : (q >>= g) t = .error e' t') : (e = e' ∧ err s' t') ∨ ∃ a b s₁ t₁, p s = .ok a s₁ ∧
      q t = .ok b t₁ ∧ mid a b s₁ t₁ ∧
      f a s₁ = .error e s' ∧ g b t₁ = .error e' t' := by
  have hrun := h s t hst
  rw [bind_run] at hp hq
  cases hps : p s with
  | ok a s₁ =>
    cases hqt : q t with
    | ok b t₁ =>
      rw [hps] at hp hrun
      rw [hqt] at hq hrun
      exact .inr ⟨a, b, s₁, t₁, rfl, rfl, hrun, hp, hq⟩
    | error e₂ t₁ =>
      rw [hps, hqt] at hrun
      exact hrun.elim
  | error e₁ s₁ =>
    cases hqt : q t with
    | ok b t₁ =>
      rw [hps, hqt] at hrun
      exact hrun.elim
    | error e₂ t₁ =>
      rw [hps] at hp hrun
      rw [hqt] at hq hrun
      cases hp
      cases hq
      exact .inl hrun

theorem bind_same {p : EStateM ε σ α} {q : EStateM ε τ α} {f : α → EStateM ε σ γ}
    {g : α → EStateM ε τ δ} {mid : α → σ → τ → Prop}
    {post : γ → δ → σ → τ → Prop} (hp : Coupled pre p q (fun a b s t => a = b ∧ mid a s t) err)
    (hf : ∀ a, Coupled (mid a) (f a) (g a) post err) : Coupled pre (p >>= f) (q >>= g) post err :=
  hp.bind fun a b s t ⟨hab, hst⟩ => by
    subst hab
    exact hf a s t hst

theorem weaken {pre' : σ → τ → Prop} {post' : α → β → σ → τ → Prop} {err' : σ → τ → Prop}
    {p : EStateM ε σ α} {q : EStateM ε τ β} (h : Coupled pre p q post err)
    (hpre : ∀ s t, pre' s t → pre s t) (hpost : ∀ a b s t, post a b s t → post' a b s t)
    (herr : ∀ s t, err s t → err' s t) : Coupled pre' p q post' err' := by
  intro s t hst
  have hrun := h s t (hpre s t hst)
  cases hp : p s with
  | ok a s' =>
    cases hq : q t with
    | ok b t' => rw [hp, hq] at hrun; exact hpost a b s' t' hrun
    | error e t' => rw [hp, hq] at hrun; exact hrun.elim
  | error e s' =>
    cases hq : q t with
    | ok b t' => rw [hp, hq] at hrun; exact hrun.elim
    | error e' t' => rw [hp, hq] at hrun; exact ⟨hrun.1, herr s' t' hrun.2⟩

theorem and_left {c : σ → τ → Prop} {p : EStateM ε σ α} {q : EStateM ε τ β}
    (h : Coupled pre p q post err) :
    Coupled (fun s t => pre s t ∧ c s t) p q post err :=
  h.weaken (fun _ _ hst => hst.1) (fun _ _ _ _ hst => hst) fun _ _ hst => hst

theorem of_and {c : Prop} {p : EStateM ε σ α} {q : EStateM ε τ β}
    (h : c → Coupled pre p q post err) :
    Coupled (fun s t => pre s t ∧ c) p q post err := fun s t hst => h hst.2 s t hst.1

theorem onlyIf {c d : Prop} [Decidable c] [Decidable d] {p : EStateM ε σ Unit}
    {q : EStateM ε τ Unit}
    {post : Unit → Unit → σ → τ → Prop} (hcd : c ↔ d) (hp : c → Coupled pre p q post err)
    (h : ¬ c → ∀ s t, pre s t → post () () s t) :
    Coupled pre (onlyIf c p) (onlyIf d q) post err := by
  unfold EStateM.onlyIf
  by_cases hc : c
  · rw [if_pos hc, if_pos (hcd.mp hc)]
    exact hp hc
  · rw [if_neg hc, if_neg (mt hcd.mpr hc)]
    exact Coupled.pure (h hc)

/-- Where both programs read one value, they go on with it. -/
theorem read_bind {g : σ → α} {k : τ → α} {f : α → EStateM ε σ γ} {f' : α → EStateM ε τ δ}
    {post : γ → δ → σ → τ → Prop} {a : α} (h : ∀ s t, pre s t → g s = a ∧ k t = a)
    (hf : Coupled pre (f a) (f' a) post err) :
    Coupled pre (EStateM.read g >>= f) (EStateM.read k >>= f') post err := by
  intro s t hst
  have hrun := hf s t hst
  rw [read_bind_run, read_bind_run, (h s t hst).1, (h s t hst).2]
  exact hrun

end Coupled

/-- The programs keep the relation and have the same results; `R'` holds where they fail. -/
def Matches (R R' : σ → τ → Prop) (p : EStateM ε σ α) (q : EStateM ε τ α) : Prop :=
  Coupled R p q (fun a b s t => a = b ∧ R s t) R'

namespace Matches

variable {R R' : σ → τ → Prop}

theorem pure {a : α} : Matches (ε := ε) R R' (pure a) (pure a) := Coupled.pure fun _ _ h => ⟨rfl, h⟩

theorem throw {e : ε} (h : ∀ s t, R s t → R' s t) :
    Matches R R' (throw e : EStateM ε σ α) (throw e : EStateM ε τ α) := Coupled.throw h

theorem read {g : σ → α} {k : τ → α} (h : ∀ s t, R s t → g s = k t) :
    Matches (ε := ε) R R' (read g) (read k) :=
  Coupled.read fun s t hst => ⟨h s t hst, hst⟩

theorem modify {u : σ → σ} {v : τ → τ} (h : ∀ s t, R s t → R (u s) (v t)) :
    Matches (ε := ε) R R' (modify u) (modify v) := Coupled.modify fun s t hst => ⟨rfl, h s t hst⟩

theorem bind {p : EStateM ε σ α} {q : EStateM ε τ α} {f : α → EStateM ε σ β} {g : α → EStateM ε τ β}
    (hp : Matches R R' p q) (hf : ∀ a, Matches R R' (f a) (g a)) :
    Matches R R' (p >>= f) (q >>= g) :=
  Coupled.bind hp fun a b s t ⟨hab, hst⟩ => by
    subst hab
    exact hf a s t hst

theorem onlyIf {c : Prop} [Decidable c] {p : EStateM ε σ Unit} {q : EStateM ε τ Unit}
    (hp : c → Matches R R' p q) : Matches R R' (onlyIf c p) (onlyIf c q) :=
  Coupled.onlyIf Iff.rfl hp fun _ _ _ h => ⟨rfl, h⟩

theorem weaken {S S' : σ → τ → Prop} {p : EStateM ε σ α} {q : EStateM ε τ α} (h : Matches R R' p q)
    (hS : ∀ s t, S s t → R s t) (hR : ∀ s t, R s t → S s t) (hR' : ∀ s t, R' s t → S' s t) :
    Matches S S' p q :=
  Coupled.weaken h hS (fun _ _ s t hst => ⟨hst.1, hR s t hst.2⟩) hR'

end Matches

/-- Started in related states, the programs end in states related by `rel`,
whether they fail or not. -/
def Meets (pre : σ → τ → Prop) (p : EStateM ε σ α) (q : EStateM ε τ β) (rel : σ → τ → Prop) :
    Prop :=
  ∀ s t, pre s t → rel (p s).state (q t).state

namespace Meets

variable {pre : σ → τ → Prop} {rel : σ → τ → Prop}

theorem bind {p : EStateM ε σ α} {q : EStateM ε τ β} {f : α → EStateM ε σ γ} {g : β → EStateM ε τ δ}
    {mid : α → β → σ → τ → Prop} (hp : Coupled pre p q mid rel)
    (hf : ∀ a b, Meets (mid a b) (f a) (g b) rel) : Meets pre (p >>= f) (q >>= g) rel := by
  intro s t hst
  have h := hp s t hst
  rw [bind_run, bind_run]
  cases hrun : p s with
  | ok a s' =>
    cases hrun' : q t with
    | ok b t' => rw [hrun, hrun'] at h; exact hf a b s' t' h
    | error e t' => rw [hrun, hrun'] at h; exact h.elim
  | error e s' =>
    cases hrun' : q t with
    | ok b t' => rw [hrun, hrun'] at h; exact h.elim
    | error e' t' => rw [hrun, hrun'] at h; exact h.2

theorem read_bind {g : σ → α} {k : τ → α} {f : α → EStateM ε σ γ} {f' : α → EStateM ε τ δ} {a : α}
    (h : ∀ s t, pre s t → g s = a ∧ k t = a) (hf : Meets pre (f a) (f' a) rel) :
    Meets pre (EStateM.read g >>= f) (EStateM.read k >>= f') rel := by
  intro s t hst
  have hrun := hf s t hst
  rw [read_bind_run, read_bind_run, (h s t hst).1, (h s t hst).2]
  exact hrun

theorem read_right {p : EStateM ε σ γ} {k : τ → α} {f : α → EStateM ε τ δ} {a : α}
    (h : ∀ s t, pre s t → k t = a) (hf : Meets pre p (f a) rel) :
    Meets pre p (EStateM.read k >>= f) rel := by
  intro s t hst
  rw [read_bind_run, h s t hst]
  exact hf s t hst

theorem onlyIf {c : Prop} [Decidable c] {p : EStateM ε σ Unit} {q : EStateM ε τ Unit} (hc : c)
    (h : Meets pre p q rel) : Meets pre (onlyIf c p) (onlyIf c q) rel := by
  rw [EStateM.onlyIf, EStateM.onlyIf, if_pos hc, if_pos hc]
  exact h

end Meets

/-! ### Programs that do more -/

def Within (p q : EStateM ε σ α) : Prop := ∀ s a s', p s = .ok a s' → q s = .ok a s'

namespace Within

theorem refl (p : EStateM ε σ α) : Within p p := fun _ _ _ h => h

theorem throw (e : ε) (q : EStateM ε σ α) : Within (throw e) q := fun _ _ _ h => nomatch h

theorem bind {p q : EStateM ε σ α} {f g : α → EStateM ε σ β} (hp : Within p q)
    (hf : ∀ a, Within (f a) (g a)) :
    Within (p >>= f) (q >>= g) := by
  intro s b s' h
  rw [bind_run] at h
  cases hrun : p s with
  | error e t =>
    rw [hrun] at h
    cases h
  | ok a t =>
    rw [hrun] at h
    rw [bind_ok (hp s a t hrun)]
    exact hf a t b s' h

theorem onlyIf {c : Prop} [Decidable c] {p q : EStateM ε σ Unit} (h : Within p q) :
    Within (onlyIf c p) (onlyIf c q) := by
  by_cases hc : c
  · simpa only [EStateM.onlyIf, if_pos hc] using h
  · simpa only [EStateM.onlyIf, if_neg hc] using refl _

end Within
