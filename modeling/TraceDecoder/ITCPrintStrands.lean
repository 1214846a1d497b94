import TraceDecoder.ITCPrintLists

/-!
# The list of one core

The records of a core that uses `ITCPrint` alone. Taking the oldest record of many leaves the
pointer forward of the next oldest one as it is, so the list may end in a loose pointer; a last
record that is taken so stays the head of the list and is taken from the free list again by the next
message.
-/

namespace TraceDecoder

namespace TsLists

/-- The records of a core from the newest to the oldest, where the oldest may point anywhere but to
itself if there are others. -/
def Headed (l : TsLists) (core : ℕ) (F : List ℕ) : List ℕ → Prop
  | [] => l.tsList core = none ∨
      ∃ h F', l.tsList core = some h ∧ F = h :: F' ∧ (l.record h).terminated = true
  | h :: t => l.tsList core = some h ∧ l.links.Strand h t ∧
      l.links.prev h = some ((h :: t).getLast (List.cons_ne_nil h t)) ∧
        (t ≠ [] → l.links.next ((h :: t).getLast (List.cons_ne_nil h t)) ≠
        some ((h :: t).getLast (List.cons_ne_nil h t)))

/-- The records of the only core in use and those on the free list. -/
structure Strung (l : TsLists) (core : ℕ) (xs F : List ℕ) : Prop where
  headed : l.Headed core F xs
  chain : l.links.Chain l.freeList F
  nodup : (xs ++ F).Nodup
  fresh : ∀ r ∈ xs ++ F, r < l.fresh

variable {l l' : TsLists} {core : ℕ} {xs F : List ℕ}

/-- The terminated record that is taken from the free list, or a new one. -/
theorem Strung.newTsList (h : l.Strung core xs F) :
    ∃ w l₁ F', l.newTsList = (w, l₁) ∧ l₁.links.Chain l₁.freeList F' ∧ (w :: (xs ++ F')).Nodup ∧
      (∀ r ∈ w :: (xs ++ F'), r < l₁.fresh) ∧
      (F = w :: F' ∨ F = []) ∧ l₁.tsList = l.tsList ∧ (∀ r ≠ w, l₁.record r = l.record r) ∧
      (l₁.record w).terminated = false := by
  have hchain := h.chain
  have hnodup := h.nodup
  have hfresh := h.fresh
  cases F with
  | nil =>
    have hfree : l.freeList = none := hchain
    have hother : ∀ r ∈ xs, r ≠ l.fresh :=
      fun r hr => Nat.ne_of_lt (hfresh r (List.mem_append_left _ hr))
    refine ⟨l.fresh, { l with fresh := l.fresh + 1 }.modify l.fresh fun _ => .init, [], ?_, ?_, ?_,
      fun r hr => ?_, .inr rfl, rfl, fun r hr => modify_record_of_ne _ _ hr,
        congrArg TsList.terminated (if_pos rfl)⟩
    · simp only [TsLists.newTsList, hfree]
    · exact hfree
    · rw [List.append_nil] at hnodup ⊢
      exact List.nodup_cons.mpr ⟨fun hmem => hother _ hmem rfl, hnodup⟩
    · show r < l.fresh + 1
      rcases List.mem_cons.mp hr with rfl | hmem
      · exact Nat.lt_succ_self _
      · exact Nat.lt_succ_of_lt (hfresh r hmem)
  | cons w F =>
    have hfree : l.freeList = some w := hchain.1
    have hperm : (w :: (xs ++ F)).Nodup := by
      rw [List.nodup_middle] at hnodup
      exact hnodup
    have hw : w ∉ F := fun hmem => (List.nodup_cons.mp hperm).1 (List.mem_append_right _ hmem)
    refine ⟨w, { l with freeList := (l.record w).next }.modify w fun t =>
      { t with terminated := false, message := none }, F, ?_, ?_, hperm, fun r hr => ?_, .inl rfl,
        rfl, fun r hr => modify_record_of_ne _ _ hr, congrArg TsList.terminated (if_pos rfl)⟩
    · simp only [TsLists.newTsList, hfree]
    · refine hchain.2.congr fun r hr => congrArg TsList.next (modify_record_of_ne _ _ ?_)
      rintro rfl
      exact hw hr
    · refine hfresh r ?_
      rcases List.mem_cons.mp hr with rfl | hmem
      · exact List.mem_append_right _ List.mem_cons_self
      · rcases List.mem_append.mp hmem with hmem | hmem
        · exact List.mem_append_left _ hmem
        · exact List.mem_append_right _ (List.mem_cons_of_mem _ hmem)

theorem links_modify (l : TsLists) (r : ℕ) {f : TsList → TsList}
    (hf : ∀ t, (f t).next = t.next ∧ (f t).prev = t.prev) : (l.modify r f).links = l.links := by
  have hrecord : ∀ i, ((l.modify r f).record i).next = (l.record i).next ∧
      ((l.modify r f).record i).prev = (l.record i).prev := fun i => by
    rw [modify_record]
    split_ifs
    · exact hf _
    · exact ⟨rfl, rfl⟩
  rw [links, links, Links.mk.injEq]
  exact ⟨funext fun i => (hrecord i).1, funext fun i => (hrecord i).2⟩

/-- A change of a record that leaves its pointers alone. -/
theorem Strung.modify (h : l.Strung core xs F) {r : ℕ} (hr : r ∈ xs) {f : TsList → TsList}
    (hf : ∀ t, (f t).next = t.next ∧ (f t).prev = t.prev) : (l.modify r f).Strung core xs F := by
  have hlinks := l.links_modify r hf
  have hheaded := h.headed
  refine ⟨?_, by rw [hlinks]; exact h.chain, h.nodup, h.fresh⟩
  cases xs with
  | nil => cases hr
  | cons x xs =>
    rw [Headed, hlinks]
    exact hheaded

/-- A first record, or a head that is taken from the free list, points to itself. -/
theorem link_self (l : TsLists) {core w : ℕ}
    (hhead : l.tsList core = none ∨ l.tsList core = some w) :
    ∃ l', l.link core w = some l' ∧ l'.links.next w = some w ∧ l'.links.prev w = some w ∧
      (∀ r, SameMessage (l.record r) (l'.record r)) ∧
      (∀ r ≠ w, l'.record r = l.record r) ∧ l'.fresh = l.fresh ∧ l'.freeList = l.freeList ∧
        l'.tsList = l.tsList := by
  have hset : ∀ l' : TsLists, (l'.record w = { l.record w with next := some w, prev := some w }) →
      (∀ r ≠ w, l'.record r = l.record r) → l'.links.next w = some w ∧ l'.links.prev w = some w ∧
        (∀ r, SameMessage (l.record r) (l'.record r)) ∧ ∀ r ≠ w, l'.record r = l.record r := by
    intro l' hself hother
    refine ⟨congrArg TsList.next hself, congrArg TsList.prev hself, fun r => ?_, hother⟩
    by_cases hr : r = w
    · rw [hr, hself]
      exact ⟨rfl, rfl, rfl, rfl⟩
    · rw [hother r hr]
      exact .refl _
  unfold TsLists.link
  rcases hhead with hhead | hhead
  · rw [hhead]
    obtain ⟨hnext, hprev, hmessage, hother⟩ :=
      hset (l.modify w fun t => { t with next := some w, prev := some w })
        (modify_record_self l w _) fun r hr => modify_record_of_ne l _ hr
    exact ⟨_, rfl, hnext, hprev, hmessage, hother, rfl, rfl, rfl⟩
  · rw [hhead]
    set l₁ := l.modify w fun t => { t with next := some w }
    set l₂ := l₁.modify w fun t => { t with prev := (l₁.record w).prev }
    set l₃ := l₂.modify w fun t => { t with prev := some w }
    have hprev₃ : (l₃.record w).prev = some w := by rw [modify_record_self]
    have hlink : ((l₃.record w).prev.map fun p => l₃.modify p fun t => { t with next := some w }) =
        some (l₃.modify w fun t => { t with next := some w }) := by
      rw [hprev₃]
      rfl
    obtain ⟨hnext, hprev, hmessage, hother⟩ := hset (l₃.modify w fun t => { t with next := some w })
      (by simp only [l₃, l₂, l₁, modify_record_self]) fun r hr => by
        simp only [l₃, l₂, l₁, modify_record_of_ne _ _ hr]
    exact ⟨_, hlink, hnext, hprev, hmessage, hother, rfl, rfl, rfl⟩

theorem Strung.link_new (h : l.Strung core xs F) :
    ∃ w l₁ l' F', l.newTsList = (w, l₁) ∧ l₁.link core w = some l' ∧
      (l'.setTsList core (some w)).Strung core (w :: xs) F' ∧
      (l'.record w).terminated = false ∧ ∀ r ∈ xs, SameMessage (l.record r) (l'.record r) := by
  obtain ⟨w, l₁, F', hnew, hchain, hnodup, hfresh, hF, htsList, hsame, hterminated⟩ := h.newTsList
  have hheaded := h.headed
  have hw := (List.nodup_cons.mp hnodup).1
  have hne : ∀ r ∈ xs, r ≠ w := fun r hr heq => hw (List.mem_append_left _ (heq ▸ hr))
  have hneF : ∀ r ∈ F', r ≠ w := fun r hr heq => hw (List.mem_append_right _ (heq ▸ hr))
  have hhead : ∀ l' : TsLists, (l'.setTsList core (some w)).tsList core = some w :=
    fun l' => if_pos rfl
  cases xs with
  | nil =>
    have hself : l₁.tsList core = none ∨ l₁.tsList core = some w := by
      rw [htsList]
      rcases hheaded with hnone | ⟨x, F₀, hsome, hx, -⟩
      · exact .inl hnone
      · rcases hF with hF | hF
        · rw [hx] at hF
          rw [← (List.cons.inj hF).1]
          exact .inr hsome
        · rw [hx] at hF
          cases hF
    obtain ⟨l', hlink, hnext, hprev, hmessage, hother, hfresh', hfreeList, -⟩ := l₁.link_self hself
    have hchain' : l'.links.Chain l'.freeList F' := by
      rw [hfreeList]
      exact hchain.congr fun r hr => congrArg TsList.next (hother r (hneF r hr))
    exact ⟨w, l₁, l', F', hnew, hlink, ⟨⟨hhead l', trivial, hprev, fun hne => absurd rfl hne⟩,
      hchain', hnodup, fun r hr => hfresh' ▸ hfresh r hr⟩, (hmessage w).terminated.trans
        hterminated, fun r hr => by cases hr⟩
  | cons x xs =>
    obtain ⟨hsome, hstrand, hprev, -⟩ := hheaded
    set m := (x :: xs).getLast (List.cons_ne_nil x xs) with hm
    have hmem : m ∈ x :: xs := List.getLast_mem _
    have hnodup' : (x :: xs).Nodup := (List.nodup_append.mp (List.nodup_cons.mp hnodup).2).1
    have hxw := hne x List.mem_cons_self
    have hmw := hne m hmem
    have hprev₁ : (l₁.record x).prev = some m := by rw [hsame x hxw]; exact hprev
    obtain ⟨l', hlink, hnext, hprev', hmessage, hother, hfresh', hfreeList, -⟩ :=
      l₁.link_of_prev (htsList ▸ hsome) hprev₁ hxw
    have hlast : (w :: x :: xs).getLast (List.cons_ne_nil _ _) = m :=
      List.getLast_cons (List.cons_ne_nil x xs)
    have hlinks : ∀ r ∈ x :: xs, l₁.links.next r = l.links.next r ∧
        l₁.links.prev r = l.links.prev r := fun r hr =>
      ⟨congrArg TsList.next (hsame r (hne r hr)), congrArg TsList.prev (hsame r (hne r hr))⟩
    refine ⟨w, l₁, l', F', hnew, hlink, ⟨⟨hhead l', ⟨⟨?_, ?_⟩, ?_⟩, ?_, fun _ => ?_⟩, ?_, hnodup,
      fun r hr => hfresh' ▸ hfresh r hr⟩, (hmessage w).terminated.trans hterminated,
        fun r hr => hsame r (hne r hr) ▸ hmessage r⟩
    · exact (hnext w).trans (by rw [if_neg (Ne.symm hmw), if_pos rfl])
    · exact (hprev' x).trans (by rw [if_pos rfl])
    · refine hstrand.congr (fun r hr => ?_) fun r hr => ?_
      · have hr' := List.dropLast_subset _ hr
        have hrm : r ≠ m := Links.ne_getLast_of_mem_dropLast _ hnodup' hr
        exact (hnext r).trans (by rw [if_neg hrm, if_neg (hne r hr'), (hlinks r hr').1])
      · have hr' := List.mem_cons_of_mem x hr
        have hrx : r ≠ x := fun heq => (List.nodup_cons.mp hnodup').1 (heq ▸ hr)
        exact (hprev' r).trans (by rw [if_neg hrx, if_neg (hne r hr'), (hlinks r hr').2])
    · rw [hlast]
      exact (hprev' w).trans (by rw [if_neg (Ne.symm hxw), if_pos rfl])
    · rw [hlast]
      exact fun heq => hmw (Option.some.inj (((hnext m).symm.trans heq).symm.trans (if_pos rfl)))
    · have hchain' : l'.links.Chain l'.freeList F' := by
        rw [hfreeList]
        refine hchain.congr fun r hr => congrArg TsList.next (hother r ?_ ?_ (hneF r hr))
        · rintro rfl
          exact (List.nodup_append.mp (List.nodup_cons.mp hnodup).2).2.2 r List.mem_cons_self r hr
            rfl
        · intro heq
          exact (List.nodup_append.mp (List.nodup_cons.mp hnodup).2).2.2 m hmem r hr heq.symm
      exact hchain'

/-! ### Taking -/

/-- The pointers when a record that is not the only one is taken. -/
theorem unlink_links (l : TsLists) (core : ℕ) {h tsl : ℕ} (hne : h ≠ tsl)
    (hnext : l.links.next tsl ≠ some tsl) : (∀ i, (l.unlink core h tsl).links.next i =
      if i = tsl then l.freeList else if i = h ∧ l.links.next h = some tsl then l.links.next tsl
          else l.links.next i) ∧
      (∀ i, (l.unlink core h tsl).links.prev i = if i = tsl then none else if i = h
        then l.links.prev tsl else l.links.prev i) ∧
      (l.unlink core h tsl).tsList = l.tsList := by
  have hnext' : ¬ (l.record tsl).next = some tsl := hnext
  have hold : ((l.modify h fun t => { t with prev := (l.record tsl).prev }).record h).next =
      l.links.next h := by
    rw [modify_record_self]
    rfl
  unfold unlink
  rw [if_neg hnext']
  dsimp only
  rw [hold]
  by_cases hlast : l.links.next h = some tsl
  · rw [if_pos hlast]
    refine ⟨fun i => ?_, fun i => ?_, rfl⟩
    · simp only [links, modify_record]
      by_cases hi : i = tsl
      · simp only [hi, if_true]
        rfl
      · by_cases hih : i = h
        · have hlast' : (l.record h).next = some tsl := hlast
          subst hih
          simp [hi, hlast', Ne.symm hi]
        · simp [hi, hih]
    · simp only [links, modify_record]
      by_cases hi : i = tsl
      · simp [hi]
      · by_cases hih : i = h
        · subst hih
          simp [hi]
        · simp [hi, hih]
  · rw [if_neg hlast]
    refine ⟨fun i => ?_, fun i => ?_, rfl⟩
    · simp only [links, modify_record]
      by_cases hi : i = tsl
      · simp only [hi, if_true]
        rfl
      · by_cases hih : i = h
        · have hlast' : ¬ (l.record h).next = some tsl := hlast
          subst hih
          simp [hi, hlast']
        · simp [hi, hih]
    · simp only [links, modify_record]
      by_cases hi : i = tsl
      · simp [hi]
      · by_cases hih : i = h
        · subst hih
          simp [hi]
        · simp [hi, hih]

theorem unlink_sameMessage (l : TsLists) (core h tsl r : ℕ) :
    SameMessage (l.record r) ((l.unlink core h tsl).record r) := by
  unfold unlink
  dsimp only
  split_ifs <;> refine ⟨?_, ?_, ?_, ?_⟩ <;> simp only [modify_record] <;> split_ifs <;> rfl

theorem unlink_fresh (l : TsLists) (core h tsl : ℕ) :
    (l.unlink core h tsl).fresh = l.fresh ∧ (l.unlink core h tsl).freeList = some tsl ∧
    (l.unlink core h tsl).links.next tsl = l.freeList := by
  unfold unlink
  dsimp only
  split_ifs <;> exact ⟨rfl, rfl, congrArg TsList.next (if_pos rfl)⟩

theorem unlink_next_of_ne (l : TsLists) (core : ℕ) {h tsl r : ℕ} (hr : r ≠ tsl) (hrh : r ≠ h) :
    (l.unlink core h tsl).record r = l.record r := by
  unfold unlink
  dsimp only
  split_ifs
  · exact modify_record_of_ne (l.setTsList core none) _ hr
  · exact (modify_record_of_ne _ _ hr).trans ((modify_record_of_ne _ _ hrh).trans
      (modify_record_of_ne _ _ hrh))
  · exact (modify_record_of_ne _ _ hr).trans (modify_record_of_ne _ _ hrh)

/-- The list without its oldest record, if that is not the only one. -/
theorem Headed.unlink_many {x tsl : ℕ} {t F' : List ℕ} (h : l.Headed core F (x :: (t ++ [tsl])))
    (hnodup : (x :: (t ++ [tsl])).Nodup) : (l.unlink core x tsl).Headed core F' (x :: t) := by
  obtain ⟨hsome, hstrand, hprev, hloose⟩ := h
  have hlast : (x :: (t ++ [tsl])).getLast (List.cons_ne_nil _ _) = tsl :=
    List.getLast_concat (l := x :: t)
  rw [hlast] at hprev hloose
  obtain ⟨hstrand, hlinked⟩ := Links.strand_concat.mp hstrand
  rw [← List.cons_append] at hnodup
  have hnodup' : (x :: t).Nodup := (List.nodup_append.mp hnodup).1
  have hne : ∀ r ∈ x :: t, r ≠ tsl :=
    fun r hr => (List.nodup_append.mp hnodup).2.2 r hr tsl List.mem_cons_self
  have hnext := hloose (by simp)
  obtain ⟨hnext', hprev', htsList⟩ := l.unlink_links core (hne x List.mem_cons_self) hnext
  set y := (x :: t).getLast (List.cons_ne_nil x t) with hy
  have hyx : t ≠ [] → x ≠ y := by
    intro ht heq
    have hdrop : x ∈ (x :: t).dropLast := by
      cases t with
      | nil => exact absurd rfl ht
      | cons z t => exact List.mem_cons_self
    exact Links.ne_getLast_of_mem_dropLast (List.cons_ne_nil x t) hnodup' hdrop heq
  have hxnext : t ≠ [] → l.links.next x ≠ some tsl := by
    cases t with
    | nil => exact fun ht => absurd rfl ht
    | cons z t =>
      intro _ heq
      exact hne z (List.mem_cons_of_mem x List.mem_cons_self)
        (Option.some.inj (hstrand.1.1.symm.trans heq))
  refine ⟨htsList ▸ hsome, hstrand.congr (fun r hr => ?_) fun r hr => ?_, ?_, fun ht => ?_⟩
  · have hr' := List.dropLast_subset _ hr
    have ht : t ≠ [] := by
      rintro rfl
      cases hr
    rw [hnext', if_neg (hne r hr'), if_neg fun heq => hxnext ht heq.2]
  · have hr' := List.mem_cons_of_mem x hr
    have hrx : r ≠ x := fun heq => (List.nodup_cons.mp hnodup').1 (heq ▸ hr)
    rw [hprev', if_neg (hne r hr'), if_neg hrx]
  · rw [hprev', if_neg (hne x List.mem_cons_self), if_pos rfl]
    exact hlinked.2
  · have hymem : y ∈ x :: t := List.getLast_mem _
    rw [hnext', if_neg (hne y hymem), if_neg fun heq => hyx ht heq.1.symm]
    exact fun heq => hne y hymem (Option.some.inj (heq.symm.trans hlinked.1))

/-- The oldest record is taken, if it is not the only one. -/
theorem Strung.unlink_many {x tsl : ℕ} {t : List ℕ} (h : l.Strung core (x :: (t ++ [tsl])) F) :
    (l.unlink core x tsl).Strung core (x :: t) (tsl :: F) := by
  have hnodup := h.nodup
  have hperm : ((x :: t) ++ tsl :: F).Nodup := by
    rw [show x :: (t ++ [tsl]) ++ F = (x :: t) ++ tsl :: F by simp] at hnodup
    exact hnodup
  obtain ⟨hfresh, hfree, hfirst⟩ := l.unlink_fresh core x tsl
  refine ⟨h.headed.unlink_many (List.nodup_append.mp hnodup).1, ⟨hfree, ?_⟩, hperm, fun r hr => ?_⟩
  · rw [hfirst]
    refine h.chain.congr fun r hr => congrArg TsList.next (l.unlink_next_of_ne core ?_ ?_)
    · rintro rfl
      exact (List.nodup_cons.mp (List.nodup_append.mp hperm).2.1).1 hr
    · intro heq
      exact (List.nodup_append.mp hperm).2.2 x List.mem_cons_self r (List.mem_cons_of_mem _ hr)
        heq.symm
  · rw [hfresh]
    refine h.fresh r ?_
    rw [show x :: (t ++ [tsl]) ++ F = (x :: t) ++ tsl :: F by simp]
    exact hr

/-- The only record is taken, if it is terminated or points to itself. -/
theorem Strung.unlink_one {x : ℕ} (h : l.Strung core [x] F)
    (hx : (l.record x).terminated = true ∨ l.links.next x = some x) :
    (l.unlink core x x).Strung core [] (x :: F) := by
  obtain ⟨hsome, -, -, -⟩ := h.headed
  have hnodup := h.nodup
  obtain ⟨hfresh, hfree, hfirst⟩ := l.unlink_fresh core x x
  refine ⟨?_, ⟨hfree, ?_⟩, hnodup, fun r hr => hfresh ▸ h.fresh r hr⟩
  · by_cases hself : l.links.next x = some x
    · have hself' : (l.record x).next = some x := hself
      refine .inl ?_
      unfold unlink
      rw [if_pos hself']
      exact if_pos rfl
    · have hself' : ¬ (l.record x).next = some x := hself
      refine .inr ⟨x, F, ?_, rfl, (l.unlink_sameMessage core x x x).terminated.trans
        (hx.resolve_right hself)⟩
      unfold unlink
      rw [if_neg hself']
      dsimp only
      split_ifs <;> exact hsome
  · rw [hfirst]
    have hne : ∀ r ∈ F, r ≠ x := by
      rintro r hr rfl
      exact (List.nodup_cons.mp hnodup).1 hr
    exact h.chain.congr fun r hr => congrArg TsList.next (l.unlink_next_of_ne core (hne r hr)
      (hne r hr))

end TsLists

end TraceDecoder
