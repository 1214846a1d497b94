import Mathlib.Data.List.Basic
import Mathlib.Tactic.Common

/-!
# Circular lists linked in both directions

The records of a memory are linked by two pointers each. A ring is a list of records each of which
points to the next one and is pointed back to by it, the last one being followed by the first.
-/

structure Links (α : Type) where
  (next prev : α → Option α)

namespace Links

variable {α : Type} {l l' : Links α} {a b h : α} {xs ys : List α}

/-- Record `b` comes right behind record `a`. -/
def Linked (l : Links α) (a b : α) : Prop := l.next a = some b ∧ l.prev b = some a

/-- The way from `a` over the records in between to `b`. -/
def Path (l : Links α) : α → List α → α → Prop
  | a, [], b => l.Linked a b
  | a, x :: xs, b => l.Linked a x ∧ Path l x xs b

def Ring (l : Links α) : Option α → List α → Prop
  | none, xs => xs = []
  | some _, [] => False
  | some h, x :: xs => x = h ∧ l.Path h xs h

instance [DecidableEq α] (l : Links α) (a b : α) : Decidable (l.Linked a b) :=
  inferInstanceAs (Decidable (_ ∧ _))

instance decidablePath [DecidableEq α] (l : Links α) : ∀ a xs b, Decidable (l.Path a xs b)
  | a, [], b => inferInstanceAs (Decidable (l.Linked a b))
  | a, x :: xs, b =>
    haveI := decidablePath l x xs b
    inferInstanceAs (Decidable (l.Linked a x ∧ l.Path x xs b))

instance [DecidableEq α] (l : Links α) : ∀ o xs, Decidable (l.Ring o xs)
  | none, xs => decidable_of_iff (xs.isEmpty = true) List.isEmpty_iff
  | some _, [] => isFalse id
  | some h, x :: xs => inferInstanceAs (Decidable (x = h ∧ l.Path h xs h))

def Chain (l : Links α) : Option α → List α → Prop
  | o, [] => o = none
  | o, x :: xs => o = some x ∧ Chain l (l.next x) xs

theorem path_append (c : α) : l.Path a (xs ++ c :: ys) b ↔ l.Path a xs c ∧ l.Path c ys b := by
  induction xs generalizing a with
  | nil => exact Iff.rfl
  | cons x xs ih => rw [List.cons_append, Path, Path, ih, and_assoc]

/-- A path reads the pointers forward of all its records but the last, and those
back of all but the first. -/
theorem Path.congr (h : l.Path a xs b) (hnext : ∀ x ∈ a :: xs, l'.next x = l.next x)
    (hprev : ∀ x ∈ xs ++ [b], l'.prev x = l.prev x) : l'.Path a xs b := by
  induction xs generalizing a with
  | nil => exact ⟨(hnext a List.mem_cons_self).trans h.1, (hprev b List.mem_cons_self).trans h.2⟩
  | cons x xs ih =>
    obtain ⟨ha, hnext⟩ := List.forall_mem_cons.mp hnext
    obtain ⟨hx, hprev⟩ := List.forall_mem_cons.mp hprev
    exact ⟨⟨ha.trans h.1.1, hx.trans h.1.2⟩, ih h.2 hnext hprev⟩

theorem Ring.congr {head : Option α} (h : l.Ring head xs) (hnext : ∀ x ∈ xs, l'.next x = l.next x)
    (hprev : ∀ x ∈ xs, l'.prev x = l.prev x) : l'.Ring head xs := by
  cases head with
  | none => exact h
  | some a =>
    cases xs with
    | nil => exact h
    | cons x xs =>
      obtain ⟨rfl, hpath⟩ := h
      refine ⟨rfl, hpath.congr hnext fun y hy => hprev y ?_⟩
      rcases List.mem_append.mp hy with hy | hy
      · exact List.mem_cons_of_mem _ hy
      · exact List.mem_singleton.mp hy ▸ List.mem_cons_self

theorem Chain.congr {head : Option α} (h : l.Chain head xs)
    (hnext : ∀ x ∈ xs, l'.next x = l.next x) :
    l'.Chain head xs := by
  induction xs generalizing head with
  | nil => exact h
  | cons x xs ih =>
    obtain ⟨hx, hnext⟩ := List.forall_mem_cons.mp hnext
    exact ⟨h.1, by rw [hx]; exact ih h.2 hnext⟩

theorem ring_cons_iff {head : Option α} :
    l.Ring head (a :: xs) ↔ head = some a ∧ l.Path a xs a := by
  cases head with
  | none => exact ⟨fun h => absurd h (List.cons_ne_nil _ _), fun h => by cases h.1⟩
  | some h =>
    constructor
    · rintro ⟨rfl, hpath⟩
      exact ⟨rfl, hpath⟩
    · rintro ⟨hhead, hpath⟩
      cases hhead
      exact ⟨rfl, hpath⟩

theorem ring_nil_iff {head : Option α} : l.Ring head [] ↔ head = none := by
  cases head with
  | none => exact iff_of_true rfl rfl
  | some h => exact iff_of_false id (Option.some_ne_none h)

theorem Path.last (h : l.Path a xs b) : l.Linked ((a :: xs).getLast (List.cons_ne_nil _ _)) b := by
  induction xs generalizing a with
  | nil => exact h
  | cons x xs ih =>
    rw [List.getLast_cons (List.cons_ne_nil _ _)]
    exact ih h.2

theorem Ring.head_prev (hring : l.Ring (some h) xs) :
    ∃ m ∈ xs, l.prev h = some m ∧ l.next m = some h := by
  cases xs with
  | nil => exact hring.elim
  | cons x xs =>
    obtain ⟨rfl, hpath⟩ := hring
    obtain ⟨hnext, hprev⟩ := hpath.last
    exact ⟨_, List.getLast_mem _, hprev, hnext⟩

theorem Path.mem (hpath : l.Path a xs b) {x : α} (hx : x ∈ a :: xs) :
    ∃ y ∈ xs ++ [b], l.next x = some y ∧ l.prev y = some x := by
  induction xs generalizing a with
  | nil =>
    obtain rfl := List.mem_singleton.mp hx
    exact ⟨b, List.mem_cons_self, hpath⟩
  | cons c xs ih =>
    rcases List.mem_cons.mp hx with rfl | hx
    · exact ⟨c, List.mem_cons_self, hpath.1⟩
    · obtain ⟨y, hy, hlinked⟩ := ih hpath.2 hx
      exact ⟨y, List.mem_cons_of_mem _ hy, hlinked⟩

/-- Each record of a ring points to a record of the ring that points back to it. -/
theorem Ring.next_prev {head : Option α} (hring : l.Ring head xs) {x : α} (hx : x ∈ xs) :
    ∃ y ∈ xs, l.next x = some y ∧ l.prev y = some x := by
  cases xs with
  | nil => cases hx
  | cons a xs =>
    obtain ⟨-, hpath⟩ := ring_cons_iff.mp hring
    obtain ⟨y, hy, hlinked⟩ := hpath.mem hx
    refine ⟨y, ?_, hlinked⟩
    rcases List.mem_append.mp hy with hy | hy
    · exact List.mem_cons_of_mem _ hy
    · exact List.mem_singleton.mp hy ▸ List.mem_cons_self

/-- A path does not leave a set of records that is closed under the pointers forward. -/
theorem Path.subset {s : α → Prop} (hpath : l.Path a xs b)
    (hs : ∀ x y, s x → l.next x = some y → s y) (ha : s a) :
    ∀ x ∈ xs, s x := by
  induction xs generalizing a with
  | nil => exact List.forall_mem_nil _
  | cons x xs ih =>
    have hx := hs a x ha hpath.1.1
    exact List.forall_mem_cons.mpr ⟨hx, ih hpath.2 hx⟩

/-- Two rings with the same head have the same records. -/
theorem Ring.subset {head : Option α} (hxs : l.Ring head xs) (hys : l.Ring head ys) : xs ⊆ ys := by
  cases xs with
  | nil => exact List.nil_subset _
  | cons x xs =>
    obtain ⟨rfl, hpath⟩ := ring_cons_iff.mp hxs
    have hclosed : ∀ a b, a ∈ ys → l.next a = some b → b ∈ ys := by
      intro a b ha hb
      obtain ⟨c, hc, hnext, -⟩ := hys.next_prev ha
      rw [hb] at hnext
      exact Option.some.inj hnext ▸ hc
    obtain ⟨m, hm, -, hnext⟩ := hys.head_prev
    have hhead : x ∈ ys := hclosed m x hm hnext
    exact fun y hy => (List.mem_cons.mp hy).elim (fun h => h ▸ hhead) (hpath.subset hclosed hhead y)

/-! ### Changes -/

theorem Ring.insert {head : Option α} {w : α} (hring : l.Ring head xs) (hnodup : xs.Nodup)
    (hw : w ∉ xs) (hlinks : match head with
      | none => l'.Linked w w
      | some h => l'.Linked w h ∧ ∃ m, l.prev h = some m ∧ l'.Linked m w ∧
        (∀ x ∈ xs, x ≠ m → l'.next x = l.next x) ∧ ∀ x ∈ xs, x ≠ h → l'.prev x = l.prev x) :
    l'.Ring (some w) (w :: xs) := by
  cases head with
  | none =>
    obtain rfl : xs = [] := hring
    exact ⟨rfl, hlinks⟩
  | some h =>
    cases xs with
    | nil => exact hring.elim
    | cons x xs =>
      obtain ⟨rfl, hpath⟩ := hring
      obtain ⟨hhead, m, hm, hlast, hnext, hprev⟩ := hlinks
      refine ⟨rfl, hhead, ?_⟩
      rcases List.eq_nil_or_concat' xs with rfl | ⟨zs, y, rfl⟩
      · obtain rfl : x = m := Option.some.inj (hpath.2.symm.trans hm)
        exact hlast
      · obtain ⟨hfront, hback⟩ := (path_append y).mp hpath
        obtain rfl : y = m := Option.some.inj (hback.2.symm.trans hm)
        obtain ⟨hx, hnodup⟩ := List.nodup_cons.mp hnodup
        have hy : y ∉ zs :=
          fun hy => (List.nodup_append.mp hnodup).2.2 y hy y List.mem_cons_self rfl
        have hxy : x ≠ y := fun hxy => hx (hxy ▸ List.mem_append_right _ List.mem_cons_self)
        refine (path_append y).mpr ⟨hfront.congr (fun c hc => hnext c ?_ ?_)
          (fun c hc => hprev c ?_ ?_), hlast⟩
        · exact (List.mem_cons.mp hc).elim (fun h => h ▸ List.mem_cons_self)
            fun h => List.mem_cons_of_mem _ (List.mem_append_left _ h)
        · rintro rfl
          exact (List.mem_cons.mp hc).elim (fun h => hxy h.symm) hy
        · exact List.mem_cons_of_mem _ hc
        · rintro rfl
          exact hx hc

/-! ### Strands -/

/-- Records linked in both directions from the first one on. The last one may point anywhere. -/
def Strand (l : Links α) : α → List α → Prop
  | _, [] => True
  | a, x :: xs => l.Linked a x ∧ Strand l x xs

/-- A strand reads the pointers forward of all its records but the last, and those back of all but
the first. -/
theorem Strand.congr (h : l.Strand a xs) (hnext : ∀ x ∈ (a :: xs).dropLast, l'.next x = l.next x)
    (hprev : ∀ x ∈ xs, l'.prev x = l.prev x) : l'.Strand a xs := by
  induction xs generalizing a with
  | nil => exact trivial
  | cons x xs ih =>
    rw [List.dropLast_cons_cons, List.forall_mem_cons] at hnext
    obtain ⟨hx, hprev⟩ := List.forall_mem_cons.mp hprev
    exact ⟨⟨hnext.1.trans h.1.1, hx.trans h.1.2⟩, ih h.2 hnext.2 hprev⟩

theorem ne_getLast_of_mem_dropLast (hxs : xs ≠ []) (hnodup : xs.Nodup) {x : α}
    (hx : x ∈ xs.dropLast) : x ≠ xs.getLast hxs := by
  rw [← List.dropLast_append_getLast hxs] at hnodup
  exact (List.nodup_append.mp hnodup).2.2 x hx _ (List.mem_singleton.mpr rfl)

/-- The last record of a strand and the one in front of it. -/
theorem strand_concat : l.Strand a (xs ++ [b]) ↔ l.Strand a xs ∧ l.Linked
    ((a :: xs).getLast (List.cons_ne_nil _ _)) b := by
  induction xs generalizing a with
  | nil => exact ⟨fun h => ⟨trivial, h.1⟩, fun h => ⟨h.2, trivial⟩⟩
  | cons x xs ih =>
    rw [List.cons_append, Strand, Strand, ih, List.getLast_cons (List.cons_ne_nil _ _), and_assoc]

end Links
