import TraceDecoder.Lib.Program

/-!
# Programs in dialogue with a device

A program makes calls and goes on with what they return; on the way it notes what an observer is to
see. How a call is answered is left to a device with a state, so that one program can be run on
several devices.
-/

variable {ι : Type} {ρ : ι → Type} {ω ε σ τ α β γ : Type}

inductive Dialogue {ι : Type} (ρ : ι → Type) (ω ε α : Type) : Type
  | done (a : α)
  | fail (e : ε)
  | note (w : ω) (next : Dialogue ρ ω ε α)
  | call (i : ι) (next : ρ i → Dialogue ρ ω ε α)

namespace Dialogue

def bind : Dialogue ρ ω ε α → (α → Dialogue ρ ω ε β) → Dialogue ρ ω ε β
  | done a, f => f a
  | fail e, _ => fail e
  | note w next, f => note w (next.bind f)
  | call i next, f => call i fun r => (next r).bind f

instance : Monad (Dialogue ρ ω ε) where
  pure := done
  bind := bind

def onlyIf (c : Prop) [Decidable c] (d : Dialogue ρ ω ε Unit) : Dialogue ρ ω ε Unit :=
  if c then d else done ()

section

variable (answer : (i : ι) → σ → ρ i × σ)

def run : Dialogue ρ ω ε α → σ → EStateM.Result ε σ α
  | done a, s => .ok a s
  | fail e, s => .error e s
  | note _ next, s => next.run s
  | call i next, s => (next (answer i s).1).run (answer i s).2

def notes : Dialogue ρ ω ε α → σ → List (ω × σ)
  | done _, _ | fail _, _ => []
  | note w next, s => (w, s) :: next.notes s
  | call i next, s => (next (answer i s).1).notes (answer i s).2

end

variable {answer : (i : ι) → σ → ρ i × σ}

theorem bind_assoc (d : Dialogue ρ ω ε α) (f : α → Dialogue ρ ω ε β) (g : β → Dialogue ρ ω ε γ) :
    d >>= f >>= g = d >>= fun a => f a >>= g := by
  induction d with
  | done => rfl
  | fail => rfl
  | note w next ih => exact congrArg (note w) ih
  | call i next ih => exact congrArg (call i) (funext ih)

theorem run_bind (d : Dialogue ρ ω ε α) (f : α → Dialogue ρ ω ε β) (s : σ) :
    (d >>= f).run answer s = match d.run answer s with
      | .ok a s' => (f a).run answer s'
      | .error e s' => .error e s' := by
  induction d generalizing s with
  | done => rfl
  | fail => rfl
  | note w next ih => exact ih s
  | call i next ih => exact ih _ _

theorem notes_bind (d : Dialogue ρ ω ε α) (f : α → Dialogue ρ ω ε β) (s : σ) :
    (d >>= f).notes answer s = d.notes answer s ++ match d.run answer s with
      | .ok a s' => (f a).notes answer s'
      | .error _ _ => [] := by
  induction d generalizing s with
  | done => rfl
  | fail => rfl
  | note w next ih => exact congrArg _ (ih s)
  | call i next ih => exact ih _ _

theorem run_bind_ok {d : Dialogue ρ ω ε α} {f : α → Dialogue ρ ω ε β} {s s' : σ} {a : α}
    (h : d.run answer s = .ok a s') : (d >>= f).run answer s = (f a).run answer s' := by
  rw [run_bind, h]

theorem of_run_bind {d : Dialogue ρ ω ε α} {f : α → Dialogue ρ ω ε β} {s s' : σ} {b : β}
    (h : (d >>= f).run answer s = .ok b s') :
    ∃ a u, d.run answer s = .ok a u ∧ (f a).run answer u = .ok b s' := by
  rw [run_bind] at h
  cases hrun : d.run answer s with
  | error e u =>
    rw [hrun] at h
    cases h
  | ok a u =>
    rw [hrun] at h
    exact ⟨a, u, rfl, h⟩

theorem run_keeps (inv : σ → Prop) (h : ∀ i s, inv s → inv (answer i s).2) (d : Dialogue ρ ω ε α) :
    Keeps inv (d.run answer) := by
  intro s hs
  induction d generalizing s with
  | done => exact hs
  | fail => exact hs
  | note w next ih => exact ih s hs
  | call i next ih => exact ih _ _ (h i s hs)

/-- Devices that answer alike as long as they are related make a program do the same. -/
theorem run_matches {answer' : (i : ι) → τ → ρ i × τ} {R : σ → τ → Prop}
    (h : ∀ i s t, R s t → (answer i s).1 = (answer' i t).1 ∧ R (answer i s).2 (answer' i t).2)
    (d : Dialogue ρ ω ε α) :
    Matches R R (d.run answer) (d.run answer') := by
  intro s t hst
  induction d generalizing s t with
  | done => exact ⟨rfl, hst⟩
  | fail => exact ⟨rfl, hst⟩
  | note w next ih => exact ih s t hst
  | call i next ih =>
    obtain ⟨hanswer, hst⟩ := h i s t hst
    rw [run, run, hanswer]
    exact ih _ _ _ hst

theorem notes_matches {answer' : (i : ι) → τ → ρ i × τ} {R : σ → τ → Prop}
    (h : ∀ i s t, R s t → (answer i s).1 = (answer' i t).1 ∧ R (answer i s).2 (answer' i t).2)
    (d : Dialogue ρ ω ε α) (s : σ) (t : τ) (hst : R s t) :
    List.Forall₂ (fun x y => x.1 = y.1 ∧ R x.2 y.2) (d.notes answer s) (d.notes answer' t) := by
  induction d generalizing s t with
  | done => exact .nil
  | fail => exact .nil
  | note w next ih => exact .cons ⟨rfl, hst⟩ (ih s t hst)
  | call i next ih =>
    obtain ⟨hanswer, hst⟩ := h i s t hst
    rw [notes, notes, hanswer]
    exact ih _ _ _ hst

/-! ### Guarantees -/

/-- For all answers that are allowed the notes are as guaranteed, and the
result is as `post` says. -/
def Honours (allowed : (i : ι) → ρ i → Prop) (guaranteed : ω → Prop) :
    Dialogue ρ ω ε α → (α → Prop) → Prop
  | done a, post => post a
  | fail _, _ => True
  | note w next, post => guaranteed w ∧ next.Honours allowed guaranteed post
  | call i next, post => ∀ r, allowed i r → (next r).Honours allowed guaranteed post

namespace Honours

variable {allowed : (i : ι) → ρ i → Prop} {guaranteed : ω → Prop} {d : Dialogue ρ ω ε α}
    {post : α → Prop}

theorem bind {f : α → Dialogue ρ ω ε β} {post' : β → Prop} (hd : d.Honours allowed guaranteed post)
    (hf : ∀ a, post a → (f a).Honours allowed guaranteed post') :
    (d >>= f).Honours allowed guaranteed post' := by
  induction d with
  | done a => exact hf a hd
  | fail => exact trivial
  | note w next ih => exact ⟨hd.1, ih hd.2⟩
  | call i next ih => exact fun r hr => ih r (hd r hr)

theorem ite {c : Prop} [Decidable c] {d' : Dialogue ρ ω ε α}
    (hd : c → d.Honours allowed guaranteed post)
    (hd' : ¬ c → d'.Honours allowed guaranteed post) : (if c then d else d').Honours allowed
      guaranteed post := by
  by_cases hc : c
  · rw [if_pos hc]
    exact hd hc
  · rw [if_neg hc]
    exact hd' hc

/-- On a device that gives such answers as long as an invariant holds, and keeps it. -/
theorem notes {inv : σ → Prop} (hd : d.Honours allowed guaranteed post)
    (hanswer : ∀ i s, inv s → allowed i (answer i s).1 ∧ inv (answer i s).2) {s : σ} (hs : inv s) :
    ∀ w ∈ d.notes answer s, guaranteed w.1 := by
  induction d generalizing s with
  | done => exact nofun
  | fail => exact nofun
  | note w next ih => exact List.forall_mem_cons.mpr ⟨hd.1, ih hd.2 hs⟩
  | call i next ih => exact ih _ (hd _ (hanswer i s hs).1) (hanswer i s hs).2

end Honours

/-! ### Results -/

/-- Every result is as `post` says, whatever is answered. -/
def Ensures (d : Dialogue ρ ω ε α) (post : α → Prop) : Prop :=
  d.Honours (fun _ _ => True) (fun _ => True) post

namespace Ensures

variable {d : Dialogue ρ ω ε α} {post : α → Prop}

theorem any (d : Dialogue ρ ω ε α) : d.Ensures fun _ => True := by
  induction d with
  | done => exact trivial
  | fail => exact trivial
  | note w next ih => exact ⟨trivial, ih⟩
  | call i next ih => exact fun r _ => ih r

theorem bind {f : α → Dialogue ρ ω ε β} {post' : β → Prop} (hd : d.Ensures post)
    (hf : ∀ a, post a → (f a).Ensures post') : (d >>= f).Ensures post' := Honours.bind hd hf

theorem skip (d : Dialogue ρ ω ε α) {f : α → Dialogue ρ ω ε β} {post' : β → Prop}
    (hf : ∀ a, (f a).Ensures post') : (d >>= f).Ensures post' := (any d).bind fun a _ => hf a

theorem ite {c : Prop} [Decidable c] {d' : Dialogue ρ ω ε α} (hd : c → d.Ensures post)
    (hd' : ¬ c → d'.Ensures post) : (if c then d else d').Ensures post := Honours.ite hd hd'

theorem run (hd : d.Ensures post) {s s' : σ} {a : α} (hrun : d.run answer s = .ok a s') :
    post a := by
  induction d generalizing s with
  | done a' =>
    cases hrun
    exact hd
  | fail => cases hrun
  | note w next ih => exact ih hd.2 hrun
  | call i next ih => exact ih _ (hd _ trivial) hrun

end Ensures

/-! ### Programs that go on where others give up -/

/-- The second program is the first with something else in some places where that fails with `e`. -/
inductive Extends (e : ε) : Dialogue ρ ω ε α → Dialogue ρ ω ε α → Prop
  | gaveUp (d : Dialogue ρ ω ε α) : Extends e (fail e) d
  | done (a : α) : Extends e (done a) (done a)
  | fail (e' : ε) : Extends e (fail e') (fail e')
  | note (w : ω) {d d' : Dialogue ρ ω ε α} (h : Extends e d d') : Extends e (note w d) (note w d')
  | call (i : ι) {next next' : ρ i → Dialogue ρ ω ε α} (h : ∀ r, Extends e (next r) (next' r)) :
    Extends e (call i next) (call i next')

namespace Extends

variable {e : ε} {d d' : Dialogue ρ ω ε α}

theorem refl (d : Dialogue ρ ω ε α) : Extends e d d := by
  induction d with
  | done a => exact .done a
  | fail e' => exact .fail e'
  | note w next ih => exact .note w ih
  | call i next ih => exact .call i ih

theorem bind {f g : α → Dialogue ρ ω ε β} (h : Extends e d d') (hf : ∀ a, Extends e (f a) (g a)) :
    Extends e (d >>= f) (d' >>= g) := by
  induction h with
  | gaveUp => exact .gaveUp _
  | done a => exact hf a
  | fail e' => exact .fail e'
  | note w h ih => exact .note w ih
  | call i h ih => exact .call i ih

theorem ite {c : Prop} [Decidable c] {g g' : Dialogue ρ ω ε α} (h : Extends e d d')
    (hg : Extends e g g') :
    Extends e (if c then d else g) (if c then d' else g') := by
  by_cases hc : c
  · rw [if_pos hc, if_pos hc]
    exact h
  · rw [if_neg hc, if_neg hc]
    exact hg

/-- Where the first program does not give up, both do the same. -/
theorem run_eq (h : Extends e d d') (s : σ) (hrun : ∀ s', d.run answer s ≠ .error e s') :
    d'.run answer s = d.run answer s := by
  induction h generalizing s with
  | gaveUp => exact absurd rfl (hrun s)
  | done => rfl
  | fail => rfl
  | note w h ih => exact ih s hrun
  | call i h ih => exact ih _ _ hrun

theorem notes_subset (h : Extends e d d') (s : σ) : d.notes answer s ⊆ d'.notes answer s := by
  induction h generalizing s with
  | gaveUp => exact List.nil_subset _
  | done => exact List.Subset.refl _
  | fail => exact List.Subset.refl _
  | note w h ih => exact List.cons_subset_cons _ (ih s)
  | call i h ih => exact ih _ _

end Extends

end Dialogue
