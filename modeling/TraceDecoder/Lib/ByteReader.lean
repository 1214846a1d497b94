import Mathlib.Tactic.Common
import Mathlib.Algebra.Group.Nat.Defs

/-!
# Readers of bytes

A reader takes a value from the front of a list of bytes, or fails. `Reads` says which bytes it
takes for a value, whatever is behind them. Words have their low byte first.
-/

abbrev ByteReader := StateT (List (BitVec 8)) Option

namespace ByteReader

variable {α β : Type}

def Reads (r : ByteReader α) (bytes : List (BitVec 8)) (a : α) : Prop :=
  ∀ rest, r.run (bytes ++ rest) = some (a, rest)

theorem reads_pure (a : α) : Reads (pure a) [] a := fun _ => rfl

theorem Reads.bind {r : ByteReader α} {f : α → ByteReader β} {bytes bytes' : List (BitVec 8)}
    {a : α} {b : β}
    (h : Reads r bytes a) (h' : Reads (f a) bytes' b) : Reads (r >>= f) (bytes ++ bytes') b := by
  intro rest
  rw [StateT.run_bind, List.append_assoc, h]
  exact h' rest

/-- The last of some readers, with a result made of what has been read. -/
theorem Reads.bind_pure {r : ByteReader α} {f : α → β} {bytes : List (BitVec 8)} {a : α}
    (h : Reads r bytes a) :
    Reads (r >>= fun a => Pure.pure (f a)) bytes (f a) := by
  have hbind := h.bind (f := fun a => Pure.pure (f a)) (reads_pure (f a))
  rwa [List.append_nil] at hbind

/-! ### Words and strings -/

/-- A number in `n` bytes. -/
def ofNat : ℕ → ℕ → List (BitVec 8)
  | 0, _ => []
  | n + 1, v => BitVec.ofNat 8 v :: ofNat n (v / 256)

def toNat : List (BitVec 8) → ℕ
  | [] => 0
  | b :: bytes => b.toNat + 256 * toNat bytes

def ofWord {w : ℕ} (v : BitVec w) : List (BitVec 8) := ofNat (w / 8) v.toNat

/-- The next `n` bytes. -/
def next (n : ℕ) : ByteReader (List (BitVec 8)) :=
  fun bs => if n ≤ bs.length then some (bs.take n, bs.drop n) else none

def word (w : ℕ) : ByteReader (BitVec w) := do
  let bytes ← next (w / 8)
  pure (BitVec.ofNat w (toNat bytes))

def string : ByteReader (List (BitVec 8)) := fun bs =>
  match bs.dropWhile (· != 0) with
  | [] => none
  | _ :: rest => some (bs.takeWhile (· != 0), rest)

theorem length_ofNat (n v : ℕ) : (ofNat n v).length = n := by
  induction n generalizing v with
  | zero => rfl
  | succ n ih => rw [ofNat, List.length_cons, ih]

theorem toNat_ofNat {n v : ℕ} (hv : v < 256 ^ n) : toNat (ofNat n v) = v := by
  induction n generalizing v with
  | zero =>
    rw [pow_zero] at hv
    rw [ofNat, toNat]
    omega
  | succ n ih =>
    rw [pow_succ] at hv
    rw [ofNat, toNat, ih (by omega), BitVec.toNat_ofNat]
    omega

@[simp] theorem length_ofWord {w : ℕ} (v : BitVec w) : (ofWord v).length = w / 8 := length_ofNat _ _

theorem reads_next (bytes : List (BitVec 8)) : Reads (next bytes.length) bytes bytes := by
  intro rest
  change (if _ then _ else _) = _
  rw [if_pos (by rw [List.length_append]; omega), List.take_left, List.drop_left]

theorem reads_word {w : ℕ} (hw : w = 8 * (w / 8)) (v : BitVec w) : Reads (word w) (ofWord v) v := by
  have hnext := reads_next (ofWord v)
  rw [length_ofWord] at hnext
  have hlt : v.toNat < 256 ^ (w / 8) := by
    rw [show 256 = 2 ^ 8 from rfl, ← pow_mul, ← hw]
    exact v.isLt
  have hword := hnext.bind_pure (f := fun bytes => BitVec.ofNat w (toNat bytes))
  rwa [ofWord, toNat_ofNat hlt, BitVec.ofNat_toNat, BitVec.setWidth_eq] at hword

theorem reads_string {s : List (BitVec 8)} (hs : ∀ b ∈ s, b ≠ 0) : Reads string (s ++ [0]) s := by
  intro rest
  have hpos : ∀ b ∈ s, (b != 0) = true := fun b hb => bne_iff_ne.mpr (hs b hb)
  rw [List.append_assoc]
  change (match (s ++ ([0] ++ rest)).dropWhile (· != 0) with | [] => none | _ :: rest' => some (_, rest')) = _
  rw [List.dropWhile_append_of_pos hpos, List.takeWhile_append_of_pos hpos]
  simp

/-! ### Reading to an end -/

/-- Reads values as long as there are bytes; each takes one byte at least, if `n` is the number of
the bytes. -/
def toEnd (r : ByteReader α) : ℕ → List (BitVec 8) → Option (List α)
  | _, [] => some []
  | 0, _ :: _ => none
  | n + 1, b :: bs => (r.run (b :: bs)).bind fun p => (toEnd r n p.2).map (p.1 :: ·)

/-- All of the next `n` bytes. -/
def within (n : ℕ) (r : ByteReader α) : ByteReader (List α) := do
  let bytes ← next n
  fun bs => (toEnd r n bytes).map (·, bs)

def consumed (r : ByteReader α) : ByteReader (List (BitVec 8) × α) := fun bs =>
  (r.run bs).map fun p => ((bs.take (bs.length - p.2.length), p.1), p.2)

theorem Reads.consumed {r : ByteReader α} {bytes : List (BitVec 8)} {a : α} (h : Reads r bytes a) :
    Reads (consumed r) bytes (bytes, a) := by
  intro rest
  change Option.map _ (r.run (bytes ++ rest)) = _
  rw [h, Option.map_some, List.length_append, Nat.add_sub_cancel, List.take_left]

theorem toEnd_flatMap {r : ByteReader α} {bytes : α → List (BitVec 8)} {as : List α} {n : ℕ}
    (h : ∀ a ∈ as, Reads r (bytes a) a) (hne : ∀ a ∈ as, bytes a ≠ []) (hn : as.length ≤ n) :
    toEnd r n (as.flatMap bytes) = some as := by
  induction as generalizing n with
  | nil =>
    unfold toEnd
    rfl
  | cons a as ih =>
    obtain ⟨n, rfl⟩ : ∃ m, n = m + 1 := ⟨n - 1, by rw [List.length_cons] at hn; omega⟩
    obtain ⟨b, bs, hbytes⟩ := List.exists_cons_of_ne_nil (hne a List.mem_cons_self)
    have hrun := h a List.mem_cons_self (as.flatMap bytes)
    have hrest := ih (fun a ha => h a (List.mem_cons_of_mem _ ha))
      (fun a ha => hne a (List.mem_cons_of_mem _ ha)) (Nat.le_of_succ_le_succ hn)
    rw [List.flatMap_cons]
    rw [hbytes, List.cons_append] at hrun ⊢
    rw [toEnd, hrun, Option.bind_some, hrest]
    rfl

theorem length_le_flatMap {bytes : α → List (BitVec 8)} {as : List α}
    (hne : ∀ a ∈ as, bytes a ≠ []) :
    as.length ≤ (as.flatMap bytes).length := by
  induction as with
  | nil => exact Nat.le_refl _
  | cons a as ih =>
    have hpos := List.length_pos_iff.mpr (hne a List.mem_cons_self)
    have hle := ih fun a ha => hne a (List.mem_cons_of_mem _ ha)
    rw [List.flatMap_cons, List.length_append, List.length_cons]
    omega

theorem reads_within {r : ByteReader α} {bytes : α → List (BitVec 8)} {as : List α}
    (h : ∀ a ∈ as, Reads r (bytes a) a)
    (hne : ∀ a ∈ as, bytes a ≠ []) :
    Reads (within (as.flatMap bytes).length r) (as.flatMap bytes) as := by
  intro rest
  unfold within
  rw [StateT.run_bind, reads_next]
  change Option.map _ (toEnd r _ (as.flatMap bytes)) = _
  rw [toEnd_flatMap h hne (length_le_flatMap hne)]
  rfl

end ByteReader
