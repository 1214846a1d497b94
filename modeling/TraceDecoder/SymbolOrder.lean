import TraceDecoder.Lib.Comparison
import TraceDecoder.ObjDump
import TraceDecoder.Sections

/-!
# The order of the symbols

The comparison that `Symtab` gives to `qsort`. The ties are compared in a fixed order, so they are
never the trouble; the addresses are compared by a signed difference, which is the unsigned order
only among addresses less than `2 ^ 63` apart.
-/

namespace TraceDecoder

/-- The bytes are compared unsigned, and the end of a name comes before all of them. -/
def strcmp (s₁ s₂ : List Char) : Ordering := List.compareLex (compareOn Char.toNat) s₁ s₂

namespace Sym

def sortAddr (sym : Sym) : BitVec 64 := sym.address + sym.vmaOffset

def has (flag : BitVec 32) (sym : Sym) : Bool := sym.flags &&& flag ≠ 0

end Sym

/-- The sign of what `symCompareFunc` returns, for pointers that are not null. -/
def symCompareFunc (first second : Sym) : Ordering :=
  let cv := (first.address + first.vmaOffset - (second.address + second.vmaOffset)).toInt
  if 0 < cv then .gt
  else if cv < 0 then .lt
  else if first.has symWeak ∧ ¬second.has symWeak then .gt
  else if ¬first.has symWeak ∧ second.has symWeak then .lt
  else if first.has symDebug ∧ ¬second.has symDebug then .gt
  else if ¬first.has symDebug ∧ second.has symDebug then .lt
  else if ¬first.has symGlobal ∧ second.has symGlobal then .gt
  else if first.has symGlobal ∧ ¬second.has symGlobal then .lt
  else if ¬first.has symFunc ∧ second.has symFunc then .gt
  else if first.has symFunc ∧ ¬second.has symFunc then .lt
  else strcmp first.name second.name

def tieBreak : Sym → Sym → Ordering :=
  compareLex (compareOn (Sym.has symWeak)) <|
  compareLex (compareOn (Sym.has symDebug)) <|
  compareLex (compareOn fun sym => !sym.has symGlobal) <|
  compareLex (compareOn fun sym => !sym.has symFunc) fun first second => strcmp first.name
    second.name

def symOrder : Sym → Sym → Ordering := compareLex (compareOn fun sym => sym.sortAddr.toNat) tieBreak

instance : Std.TransCmp strcmp := inferInstanceAs (Std.TransCmp (List.compareLex _))

instance : Std.TransCmp fun first second : Sym => strcmp first.name second.name where
  eq_swap := fun {a b} => @Std.OrientedCmp.eq_swap _ strcmp _ a.name b.name
  isLE_trans := fun {a b c} => @Std.TransCmp.isLE_trans _ strcmp _ a.name b.name c.name

instance : Std.TransCmp tieBreak := inferInstanceAs (Std.TransCmp (compareLex _ _))

instance : Std.TransCmp symOrder := inferInstanceAs (Std.TransCmp (compareLex _ _))

/-- The sign of the difference modulo `2 ^ 64`. -/
def compareSigned (a b : BitVec 64) : Ordering := compare (a - b).toInt 0

section Ties

variable (b b' : Bool) (o : Ordering)

theorem ite_set_last : (if b ∧ ¬b' then .gt else if ¬b ∧ b' then .lt else o) =
    (compare b b').then o := by
  cases b <;> cases b' <;> rfl

theorem ite_set_first : (if ¬b ∧ b' then .gt else if b ∧ ¬b' then .lt else o) =
    (compare (!b) (!b')).then o := by
  cases b <;> cases b' <;> rfl

theorem ite_sign (cv : ℤ) : (if 0 < cv then .gt else if cv < 0 then .lt else o) =
    (compare cv 0).then o := by
  split_ifs with hpos hneg
  · rw [Int.compare_eq_gt.mpr hpos]
    rfl
  · rw [Int.compare_eq_lt.mpr hneg]
    rfl
  · have hzero : cv = 0 := by omega
    subst hzero
    rfl

end Ties

theorem symCompareFunc_eq (first second : Sym) :
    symCompareFunc first second = (compareSigned first.sortAddr second.sortAddr).then
      (tieBreak first second) := by
  unfold symCompareFunc
  rw [ite_set_last, ite_set_last, ite_set_first, ite_set_first, ite_sign]
  rfl

section Addresses

variable {a b : BitVec 64}

theorem toInt_sub_cond : (a - b).toInt =
    if b.toNat ≤ a.toNat then
      if a.toNat < b.toNat + 2 ^ 63 then (a.toNat : ℤ) - b.toNat else a.toNat - b.toNat - 2 ^ 64
    else if b.toNat ≤ a.toNat + 2 ^ 63 then a.toNat - b.toNat else a.toNat - b.toNat + 2 ^ 64 := by
  have ha := a.isLt
  have hb := b.isLt
  rw [BitVec.toInt_eq_toNat_cond, BitVec.toNat_sub]
  split_ifs <;> omega

theorem compareSigned_of_near (hab : a.toNat < b.toNat + 2 ^ 63)
    (hba : b.toNat < a.toNat + 2 ^ 63) :
    compareSigned a b = compare a.toNat b.toNat := by
  have hdiff : (a - b).toInt = (a.toNat : ℤ) - b.toNat := by
    rw [toInt_sub_cond]
    split_ifs <;> omega
  rw [compareSigned, hdiff]
  rcases lt_trichotomy a.toNat b.toNat with hlt | heq | hgt
  · rw [Nat.compare_eq_lt.mpr hlt, Int.compare_eq_lt]
    omega
  · rw [Nat.compare_eq_eq.mpr heq, Int.compare_eq_eq]
    omega
  · rw [Nat.compare_eq_gt.mpr hgt, Int.compare_eq_gt]
    omega

/-- The higher of two addresses that are too far apart comes first. -/
theorem compareSigned_of_far (hfar : a.toNat + 2 ^ 63 ≤ b.toNat) : compareSigned b a = .lt := by
  rw [compareSigned, Int.compare_eq_lt, toInt_sub_cond]
  have hb := b.isLt
  split_ifs <;> omega

end Addresses

/-- The comparison as `qsort` is promised it, and the order of the table that it is for. -/
structure SortsByAddress (syms : List Sym) : Prop where
  strictWeak : StrictWeakOn symCompareFunc syms
  sorted : ∀ symPtrArray : List Sym, symPtrArray.Perm syms →
    (symPtrArray.Pairwise fun first second => (symCompareFunc first second).isLE) →
    symPtrArray.Pairwise fun first second => first.sortAddr ≤ second.sortAddr

section Table

variable {syms : List Sym}

/-- No two symbols are `2 ^ 63` or more apart. -/
def NearAddresses (syms : List Sym) : Prop :=
  ∀ first ∈ syms, ∀ second ∈ syms, second.sortAddr.toNat - first.sortAddr.toNat < 2 ^ 63

theorem NearAddresses.symCompareFunc_eq_symOrder (hnear : NearAddresses syms) {first second : Sym}
    (hfirst : first ∈ syms)
    (hsecond : second ∈ syms) : symCompareFunc first second = symOrder first second := by
  have hab := hnear first hfirst second hsecond
  have hba := hnear second hsecond first hfirst
  rw [symCompareFunc_eq, compareSigned_of_near (by omega) (by omega)]
  rfl

theorem NearAddresses.sortsByAddress (hnear : NearAddresses syms) : SortsByAddress syms where
  strictWeak :=
    .of_eqOn fun first hfirst second hsecond => hnear.symCompareFunc_eq_symOrder hfirst hsecond
  sorted symPtrArray hperm hsorted := by
    apply hsorted.imp_of_mem
    intro first second hfirst hsecond hle
    rw [hnear.symCompareFunc_eq_symOrder (hperm.mem_iff.mp hfirst)
      (hperm.mem_iff.mp hsecond)] at hle
    by_contra hlt
    have hgt : compare first.sortAddr.toNat second.sortAddr.toNat = .gt :=
      Nat.compare_eq_gt.mpr (not_le.mp hlt)
    rw [symOrder, compareLex, compareOn, hgt, Ordering.gt_then] at hle
    exact absurd hle (by decide)

/-- Of two symbols too far apart, the one with the higher address stands first in a sorted table. -/
theorem SortsByAddress.nearAddresses (hsorts : SortsByAddress syms) : NearAddresses syms := by
  intro first hfirst second hsecond
  by_contra hfar
  have hwrong : symCompareFunc second first = .lt := by
    rw [symCompareFunc_eq, compareSigned_of_far (by omega)]
    rfl
  have hright : symCompareFunc first second = .gt := by
    rw [hsorts.strictWeak.swap first hfirst second hsecond, hwrong]
    rfl
  obtain ⟨symPtrArray, hperm, hsorted⟩ := hsorts.strictWeak.exists_perm_sorted
  have haddr := hsorts.sorted symPtrArray hperm hsorted
  let Before (a b : Sym) : Prop := (symCompareFunc a b).isLE ∧ a.sortAddr ≤ b.sortAddr
  have hordered : symPtrArray.Pairwise fun a b => Before a b ∨ Before b a :=
    (hsorted.and haddr).imp fun hbefore => .inl hbefore
  have hsymm : Std.Symm fun a b => Before a b ∨ Before b a := ⟨fun _ _ hab => hab.symm⟩
  have hne : first ≠ second := by
    intro heq
    rw [heq] at hfar
    omega
  rcases hordered.forall (hperm.mem_iff.mpr hfirst) (hperm.mem_iff.mpr hsecond) hne with ⟨hle,
    -⟩ | ⟨-, hle⟩
  · rw [hright] at hle
    exact absurd hle (by decide)
  · have hge : second.sortAddr.toNat ≤ first.sortAddr.toNat := hle
    omega

/-- **The order of the symbols.** The comparison sorts a table by unsigned address if and only if no
two of its symbols are `2 ^ 63` or more apart. -/
theorem sortsByAddress_iff (syms : List Sym) : SortsByAddress syms ↔ NearAddresses syms :=
  ⟨SortsByAddress.nearAddresses, NearAddresses.sortsByAddress⟩

end Table

def userSym : Sym := ⟨['m', 'a', 'i', 'n'], symGlobal ||| symFunc, none, 0, 0x10000, 4, none⟩

def kernelSym : Sym :=
  ⟨['_', 's', 't', 'a', 'r', 't'], symGlobal ||| symFunc, none, 0, 0xffffffff80000000, 4, none⟩

/-- The kernel's symbol is sorted in front of the program's. -/
theorem not_sortsByAddress : ¬ ∀ syms : List Sym, SortsByAddress syms := by
  intro hall
  have hsorted := (hall [kernelSym, userSym]).sorted [kernelSym, userSym] (.refl _) (by decide)
  exact absurd hsorted (by decide)

end TraceDecoder
