import Mathlib.Data.List.Chain
import Mathlib.Data.List.Range

/-!
# Whose turn it is

Several parties take numbers from one counter. The numbers of a party are the places in the order of
the takers where it stands.
-/

variable {κ : Type} [DecidableEq κ]

def turns (takers : List κ) (k : κ) : List ℕ :=
  (List.range takers.length).filter fun n => takers[n]? = some k

section
variable {takers : List κ} {k : κ} {n : ℕ}

theorem mem_turns : n ∈ turns takers k ↔ takers[n]? = some k := by
  unfold turns
  rw [List.mem_filter, List.mem_range, decide_eq_true_iff]
  refine ⟨And.right, fun h => ⟨?_, h⟩⟩
  exact (List.getElem?_eq_some_iff.mp h).1

theorem turns_append_singleton (takers : List κ) (k' k : κ) :
    turns (takers ++ [k']) k = turns takers k ++ if k' = k then [takers.length] else [] := by
  unfold turns
  rw [List.length_append, List.length_singleton, List.range_succ, List.filter_append,
    List.filter_singleton]
  congr 1
  · apply List.filter_congr
    intro n hn
    rw [List.getElem?_append_left (List.mem_range.mp hn)]
  · simp

theorem turns_eq_nil_iff : turns takers k = [] ↔ k ∉ takers := by
  rw [List.eq_nil_iff_forall_not_mem, List.mem_iff_getElem?]
  simp only [mem_turns, not_exists]

theorem pairwise_turns (takers : List κ) (k : κ) : (turns takers k).Pairwise (· < ·) :=
  List.pairwise_lt_range.filter _

theorem isChain_succ_iff {ns : List ℕ} (h : ns.Pairwise (· < ·)) :
    ns.IsChain (fun a b : ℕ => b = a + 1) ↔ ∀ a ∈ ns, ∀ b ∈ ns, ∀ m, a < m → m < b → m ∈ ns := by
  induction ns with
  | nil => simp
  | cons n ns ih =>
    obtain ⟨hn, hns⟩ := List.pairwise_cons.mp h
    rw [List.isChain_cons, ih hns]
    constructor
    · rintro ⟨hhead, hrest⟩ a ha b hb m ham hmb
      cases ns with
      | nil =>
        obtain rfl := List.mem_singleton.mp hb
        obtain rfl := List.mem_singleton.mp ha
        omega
      | cons n' ns =>
        have hn' := hhead n' rfl
        have hb' : b ∈ n' :: ns := by
          rcases List.mem_cons.mp hb with rfl | hb'
          · rcases List.mem_cons.mp ha with rfl | ha'
            · omega
            · have := hn a ha'
              omega
          · exact hb'
        refine List.mem_cons_of_mem _ ?_
        rcases List.mem_cons.mp ha with rfl | ha'
        · by_cases hm : m = n'
          · exact hm ▸ List.mem_cons_self
          · exact hrest n' List.mem_cons_self b hb' m (by omega) hmb
        · exact hrest a ha' b hb' m ham hmb
    · intro hall
      constructor
      · intro n' hn'
        have hmem : n' ∈ ns := List.mem_of_mem_head? hn'
        have hlt := hn n' hmem
        by_contra hgap
        have hmid :=
          hall n List.mem_cons_self n' (List.mem_cons_of_mem _ hmem) (n + 1) (by omega) (by omega)
        rcases List.mem_cons.mp hmid with heq | hmid
        · omega
        · cases ns with
          | nil => cases hmem
          | cons first ns =>
            obtain rfl : first = n' := Option.some.inj hn'
            rcases List.mem_cons.mp hmid with heq | hmid
            · omega
            · have := (List.pairwise_cons.mp hns).1 _ hmid
              omega
      · intro a ha b hb m ham hmb
        have hm := hall a (List.mem_cons_of_mem _ ha) b (List.mem_cons_of_mem _ hb) m ham hmb
        rcases List.mem_cons.mp hm with rfl | hm
        · have := hn a ha
          omega
        · exact hm

/-- The numbers of a party follow on each other as long as nobody else takes one in between. -/
theorem turns_isChain_iff : (turns takers k).IsChain (fun a b : ℕ => b = a + 1) ↔
    ∀ i m j : ℕ, i < m → m < j → takers[i]? = some k → takers[j]? = some k →
      takers[m]? = some k := by
  have hchain := isChain_succ_iff (pairwise_turns takers k)
  simp only [mem_turns] at hchain
  rw [hchain]
  exact ⟨fun h i m j him hmj hi hj => h i hi j hj m him hmj, fun h i hi j hj m him hmj =>
    h i m j him hmj hi hj⟩

end
