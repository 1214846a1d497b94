import TraceDecoder.ITCPrintGets

/-!
# The accounts over a run

As long as no call takes a record off a list of three or more, the lists stay linked and a call on
one core leaves the messages of the others alone. The number of messages of a core is that of its
terminated records if, besides, no print ends more than one message.
-/

namespace TraceDecoder

namespace ITCPrint

open Function TsLists

variable {p p' : ITCPrint} {place place' : ℕ → Place} {L L' : ℕ → List ℕ} {F F' : List ℕ} {core : ℕ}
    {tstamp : TIMESTAMP}
variable {sprintf : String → List PrintfArg → List Byte} {op : Op}

/-! ### Printing -/

theorem ended_le_added (p : ITCPrint) (core : ℕ) (path : PrintPath) :
    p.ended core path ≤ p.added core path := by
  cases path with
  | ignored => exact Nat.le_refl _
  | nls text => exact Nat.le_refl _
  | data bytes =>
    dsimp only [ended, added]
    split_ifs with hnull
    · exact List.count_pos_iff.mpr (List.contains_iff_mem.mp hnull)
    · exact Nat.zero_le _

def EndsOne (p : ITCPrint) (core : ℕ) : PrintPath → Prop
  | .data bytes => (PrintQueue.stored bytes ((p.queue core).roomInITCPrintQ p.buffSize)).count
    0x00 ≤ 1
  | _ => True

theorem EndsOne.added_eq {path : PrintPath} (h : p.EndsOne core path) :
    p.added core path = p.ended core path := by
  cases path with
  | ignored => rfl
  | nls text => rfl
  | data bytes =>
    have hle : (PrintQueue.stored bytes ((p.queue core).roomInITCPrintQ p.buffSize)).count 0x00 ≤
      1 := h
    dsimp only [ended, added]
    split_ifs with hnull
    · have hpos := List.count_pos_iff.mpr (List.contains_iff_mem.mp hnull)
      omega
    · exact List.count_eq_zero.mpr fun hmem => hnull (List.contains_iff_mem.mpr hmem)

theorem putAll_null {q : PrintQueue} {buffSize : ℕ} (hin : q.InRing buffSize) (cs : List Byte) :
    ∃ j < buffSize, (q.putAll buffSize (cs ++ [0x00])).pbuff j = 0x00 := by
  refine ⟨(q.putAll buffSize cs).pbi, (hin.putAll cs).1.pbi, ?_⟩
  rw [PrintQueue.putAll_append]
  exact if_pos rfl

/-- After a print there is a null character in the ring of its core. -/
theorem afterPrint_null {path : PrintPath} (hin : InRings p) (hpath : path ≠ .ignored)
    (h : p.afterPrint core tstamp path = some p') :
    ∃ j < p.buffSize, (p'.queue core).pbuff j = 0x00 := by
  obtain ⟨-, -, hqueue⟩ := afterPrint_queue h
  rw [hqueue]
  cases path with
  | ignored => exact absurd rfl hpath
  | nls text =>
    dsimp only [PrintPath.finish, printed]
    rw [← List.append_assoc]
    exact putAll_null (hin core) _
  | data bytes => exact ⟨_, ((hin core).putAll _).1.pbi, if_pos rfl⟩

theorem Listed.afterPrint (h : p.Listed place L F) (core : ℕ) (tstamp : TIMESTAMP)
    (path : PrintPath) :
    ∃ p' place' L' F', p.afterPrint core tstamp path = some p' ∧ p'.Listed place' L' F' ∧
      Leaves p p' L L' core ∧
      p'.terminated (L' core) = p.terminated (L core) + p.ended core path := by
  cases path with
  | ignored => exact ⟨p, place, L, F, rfl, h, .refl p L core, rfl⟩
  | nls text => exact h.printNls core text tstamp
  | data bytes => exact h.printData core bytes tstamp

theorem Ledger.afterPrint (h : p.Ledger place L F) (hin : InRings p) (core : ℕ) (tstamp : TIMESTAMP)
    (path : PrintPath) :
    ∃ p' place' L' F', p.afterPrint core tstamp path = some p' ∧ p'.Ledger place' L' F' ∧
      Leaves p p' L L' core ∧
      p'.excess L' core = p.excess L core + (p.added core path - p.ended core path : ℕ) ∧
      ∀ c ≠ core, p'.excess L' c = p.excess L c := by
  obtain ⟨p', place', L', F', hp', hlisted, hleaves, hterminated⟩ :=
    h.listed.afterPrint core tstamp path
  obtain ⟨hsize, hother, hqueue⟩ := afterPrint_queue hp'
  have hle := p.ended_le_added core path
  have hmsgs : (p'.queue core).numMsgs = (p.queue core).numMsgs + p.added core path := by
    rw [hqueue]
    cases path <;> rfl
  have hcore : p'.excess L' core = p.excess L core +
      (p.added core path - p.ended core path : ℕ) := by
    unfold excess
    rw [hmsgs, hterminated]
    omega
  have hrest : ∀ c ≠ core, p'.excess L' c = p.excess L c := by
    intro c hc
    unfold excess
    rw [hother c hc, hleaves.terminated hc]
  refine ⟨p', place', L', F', hp', ⟨hlisted, fun c => ?_, fun c => ?_⟩, hleaves, hcore, hrest⟩
  · have hcovered := h.covered c
    by_cases hc : c = core
    · subst hc
      omega
    · rw [hrest c hc]
      exact hcovered
  · have hreadable := h.readable c
    by_cases hc : c = core
    · subst hc
      by_cases hpath : path = .ignored
      · subst hpath
        obtain rfl : p = p' := Option.some.inj hp'
        exact hreadable
      · rw [hsize]
        exact .inl (afterPrint_null hin hpath hp')
    · rw [hsize, hother c hc]
      exact hreadable

/-! ### Runs -/

/-- Every list is empty or linked in a ring, and each record is on exactly one list. -/
def WellLinked (p : ITCPrint) : Prop := ∃ place L F, p.lists.Owned place L F

/-- A call returns, leaves the lists linked, and the messages of the other cores as they are. -/
def KeepsLists (sprintf : String → List PrintfArg → List Byte) (c : ITCPrint × Op) : Prop :=
  ∃ r, c.1.call sprintf c.2 = some r ∧ WellLinked r.2 ∧
    ∀ core ≠ c.2.core, ∀ xs, c.1.lists.links.Ring (c.1.lists.tsList core) xs →
      r.2.lists.links.Ring (r.2.lists.tsList core) xs ∧ ∀ i ∈ xs, SameMessage (c.1.lists.record i)
        (r.2.lists.record i)

def TakesShort (c : ITCPrint × Op) : Prop :=
  ∀ core, c.1.takes c.2 = some core → ∃ xs, c.1.lists.links.Ring (c.1.lists.tsList core) xs ∧
    xs.length ≤ 2

def PrintsOne (sprintf : String → List PrintfArg → List Byte) (c : ITCPrint × Op) : Prop :=
  match c.2 with
  | .print core addr data _ => c.1.EndsOne core (c.1.printPath sprintf core addr data)
  | _ => True

instance (core : ℕ) : DecidablePred (p.EndsOne core)
  | .data _ => inferInstanceAs (Decidable (_ ≤ _))
  | .ignored | .nls _ => inferInstanceAs (Decidable True)

instance (sprintf : String → List PrintfArg → List Byte) : DecidablePred (PrintsOne sprintf)
  | (p, .print core addr data _) =>
    inferInstanceAs (Decidable (p.EndsOne core (p.printPath sprintf core addr data)))
  | (_, .getMsg ..) | (_, .getStr ..) | (_, .flushMsg ..) | (_, .flushStr ..) =>
    inferInstanceAs (Decidable True)

theorem TakesShort.length_le (h : p.lists.Owned place L F) (hshort : TakesShort (p, op))
    (htakes : p.takes op = some core) : (L core).length ≤ 2 := by
  obtain ⟨xs, hring, hlen⟩ := hshort core htakes
  exact (List.Nodup.length_le_of_subset (h.nodup core) ((h.ring core).subset hring)).trans hlen

theorem Leaves.keeps (h : p.lists.Owned place L F) (hleaves : Leaves p p' L L' core) {c : ℕ}
    (hc : c ≠ core) {xs : List ℕ} (hring : p.lists.links.Ring (p.lists.tsList c) xs) :
    p'.lists.links.Ring (p'.lists.tsList c) xs ∧ ∀ i ∈ xs, SameMessage (p.lists.record i)
      (p'.lists.record i) := by
  have hrecord : ∀ i ∈ xs, p'.lists.record i = p.lists.record i :=
    fun i hi => hleaves.record c hc i (hring.subset (h.ring c) hi)
  rw [hleaves.tsList c hc]
  refine ⟨hring.congr (fun i hi => congrArg TsList.next (hrecord i hi)) fun i hi => congrArg
    TsList.prev (hrecord i hi), fun i hi => ?_⟩
  rw [hrecord i hi]
  exact .refl _

theorem Ledger.call (h : p.Ledger place L F) (hin : InRings p) (hshort : TakesShort (p, op)) :
    ∃ r place' L' F', p.call sprintf op = some r ∧ r.2.Ledger place' L' F' ∧
      Leaves p r.2 L L' op.core ∧
      (PrintsOne sprintf (p, op) → ∀ c, r.2.excess L' c = p.excess L c) ∧
      ∀ core, p.takes op = some core → p.excess L core = 0 → r.1.isSome := by
  have hsettled : p.Settled L op (p.call sprintf op) → ∃ r place' L' F', p.call sprintf op =
      some r ∧ r.2.Ledger place' L' F' ∧ Leaves p r.2 L L' op.core ∧
      (PrintsOne sprintf (p, op) → ∀ c, r.2.excess L' c = p.excess L c) ∧
      ∀ core, p.takes op = some core → p.excess L core = 0 → r.1.isSome := by
    rintro ⟨r, hr, ⟨place', L', F', hledger, hleaves, hexcess⟩, hanswer⟩
    exact ⟨r, place', L', F', hr, hledger, hleaves, fun _ => hexcess, hanswer⟩
  have hlen : ∀ core, p.takes op = some core → (L core).length ≤ 2 :=
    fun core => hshort.length_le h.listed.owned
  cases op with
  | print core addr data tstamp =>
    obtain ⟨p', place', L', F', hp', hledger, hleaves, hcore, hother⟩ :=
      h.afterPrint hin core tstamp (p.printPath sprintf core addr data)
    refine ⟨(none, p'), place', L', F', ?_, hledger, hleaves, fun hone c => ?_, fun c hc => ?_⟩
    · rw [call_print, hp']
      rfl
    · by_cases hc : c = core
      · have hadded := EndsOne.added_eq hone
        rw [hc, hcore, hadded, Nat.sub_self]
        exact Int.add_zero _
      · exact hother c hc
    · exact absurd hc.symm (Option.some_ne_none c)
  | getMsg core haveDst dstLen => exact hsettled (h.getITCPrintMsg (hlen core))
  | getStr core => exact hsettled (h.getITCPrintStr hin (hlen core))
  | flushMsg core haveDst dstLen => exact hsettled (h.flushITCPrintMsg (hlen core))
  | flushStr core => exact hsettled (h.flushITCPrintStr hin (hlen core))

theorem Listed.consume_many (h : p.Listed place L F) {a m b : ℕ} {xs : List ℕ}
    (hL : L core = a :: (xs ++ [m, b])) {n : ℤ}
    (hn : 0 < n) : p.lists.consumeTerminatedTsList n core = some
    (some b, p.lists.unlink core a b) := by
  have hring := h.owned.ring core
  have holder := h.older core
  rw [hL] at hring holder
  obtain ⟨hhead, hpath⟩ := Links.ring_cons_iff.mp hring
  obtain ⟨-, -, hlast⟩ := (Links.path_append m).mp hpath
  have hprev : (p.lists.record a).prev = some b := hlast.2
  have ht : (p.lists.record b).terminated = true :=
    holder b (List.mem_append_right _ (List.mem_cons_of_mem _ List.mem_cons_self))
  unfold TsLists.consumeTerminatedTsList
  rw [if_pos hn, hhead]
  dsimp only
  rw [hprev, Option.map_some, if_pos ht]

/-- The lists after a terminated record has been taken. -/
theorem call_lists {l : TsLists} {b : ℕ} (htakes : p.takes op = some core)
    (hconsume : p.lists.consumeTerminatedTsList (p.queue core).numMsgs core = some (some b, l))
    {r : Option Printed × ITCPrint} (hr : p.call sprintf op = some r) : r.2.lists = l := by
  have hmsg : ∀ {haveDst : Bool} {dstLen : ℤ}, p.takes (.getMsg core haveDst dstLen) = some core →
      p.getITCPrintMsg core haveDst dstLen = some r → r.2.lists = l := by
    intro haveDst dstLen htakes hr
    obtain ⟨-, hcore, hdst, hlen, hmsgs⟩ := takes_msg_iff.mp htakes
    rw [ITCPrint.getITCPrintMsg, if_neg (by simp [hdst, hcore, hlen])] at hr
    dsimp only at hr
    rw [if_pos hmsgs, hconsume, Option.map_some] at hr
    cases hr
    rfl
  have hstr : p.takes (.getStr core) = some core → p.getITCPrintStr core = some r →
      r.2.lists = l := by
    intro htakes hr
    obtain ⟨-, hcore, hmsgs⟩ := takes_str_iff.mp htakes
    rw [ITCPrint.getITCPrintStr, if_neg (Nat.not_le.mpr hcore)] at hr
    dsimp only at hr
    rw [if_pos hmsgs, hconsume, Option.bind_some] at hr
    obtain ⟨read, -, rfl⟩ := Option.map_eq_some_iff.mp hr
    rfl
  cases op with
  | print core addr data tstamp => exact absurd htakes.symm (Option.some_ne_none _)
  | getMsg c haveDst dstLen =>
    obtain rfl := (takes_msg_iff.mp htakes).1
    exact hmsg htakes hr
  | getStr c =>
    obtain rfl := (takes_str_iff.mp htakes).1
    exact hstr htakes hr
  | flushMsg c haveDst dstLen =>
    obtain ⟨rfl, hcore, hdst, hlen, hmsgs⟩ := takes_msg_iff.mp htakes
    refine hmsg htakes ?_
    rw [call, ITCPrint.flushITCPrintMsg, if_neg (by simp [hdst, hcore, hlen])] at hr
    dsimp only at hr
    rwa [if_pos hmsgs] at hr
  | flushStr c =>
    obtain ⟨rfl, hcore, hmsgs⟩ := takes_str_iff.mp htakes
    refine hstr htakes ?_
    rw [call, ITCPrint.flushITCPrintStr, if_neg (Nat.not_le.mpr hcore)] at hr
    dsimp only at hr
    rwa [if_pos hmsgs] at hr

/-- Taking a record off a list of three or more leaves no ring. -/
theorem Ledger.takesShort (h : p.Ledger place L F) (hkeeps : KeepsLists sprintf (p, op)) :
    TakesShort (p, op) := by
  intro core htakes
  refine ⟨L core, h.listed.owned.ring core, ?_⟩
  by_contra hlong
  have hmany : ∃ a xs m b, L core = a :: (xs ++ [m, b]) := by
    match hL : L core with
    | [] | [_] | [_, _] =>
      rw [hL] at hlong
      simp at hlong
    | a :: b :: c :: xs =>
      rcases List.eq_nil_or_concat' (c :: xs) with hnil | ⟨ys, z, hys⟩
      · cases hnil
      · rcases List.eq_nil_or_concat' (b :: ys) with hnil | ⟨zs, y, hzs⟩
        · cases hnil
        · refine ⟨a, zs, y, z, ?_⟩
          rw [hys, ← List.cons_append, hzs, List.append_assoc]
          rfl
  obtain ⟨a, xs, m, b, hL⟩ := hmany
  obtain ⟨r, hr, ⟨place', L', F', howned⟩, -⟩ := hkeeps
  have hmsgs : 0 < (p.queue core).numMsgs := by
    cases op with
    | print core addr data tstamp => exact absurd htakes.symm (Option.some_ne_none _)
    | getMsg | flushMsg =>
      obtain ⟨rfl, -, -, -, hmsgs⟩ := takes_msg_iff.mp htakes
      exact hmsgs
    | getStr | flushStr =>
      obtain ⟨rfl, -, hmsgs⟩ := takes_str_iff.mp htakes
      exact hmsgs
  have hlists := call_lists htakes (h.listed.consume_many hL hmsgs) hr
  have hring := howned.ring core
  rw [hlists] at hring
  exact h.listed.owned.unlink_many hL _ hring

/-- What every call keeps, as long as the calls meet a condition, gives
what the calls of a run do. -/
theorem forall_calls_of {inv : ITCPrint → Prop} {cond good : ITCPrint × Op → Prop}
    (hstep : ∀ p op, inv p → cond (p, op) → good (p, op) ∧ ∀ r, p.call sprintf op = some r →
      inv r.2) (hp : inv p)
    (ops : List Op) (hcond : ∀ c ∈ p.calls sprintf ops, cond c) :
    ∀ c ∈ p.calls sprintf ops, good c := by
  induction ops generalizing p with
  | nil => exact List.forall_mem_nil _
  | cons op ops ih =>
    rw [calls] at hcond ⊢
    obtain ⟨hfirst, hrest⟩ := List.forall_mem_cons.mp hcond
    obtain ⟨hgood, hnext⟩ := hstep p op hp hfirst
    refine List.forall_mem_cons.mpr ⟨hgood, ?_⟩
    cases hcall : p.call sprintf op with
    | none => exact List.forall_mem_nil _
    | some r =>
      rw [hcall] at hrest
      exact ih (hnext r hcall) hrest

def Kept (p : ITCPrint) : Prop := InRings p ∧ ∃ place L F, p.Ledger place L F

theorem ledger_init (itcPrintOpts : BitVec 32) (numCores buffSize : ℤ) (channel : BitVec 32)
    (nlsStrings : Option (ℕ → NlString)) (memory : ℕ → ℕ → Byte) :
    (ITCPrint.init itcPrintOpts numCores buffSize channel nlsStrings memory).Ledger
    (fun _ => .unallocated)
      (fun _ => []) [] := by
  refine ⟨⟨⟨fun _ => rfl, rfl, fun _ => List.nodup_nil, List.nodup_nil, fun c r => ?_, fun r => ?_,
    fun r => ?_⟩, fun _ => List.forall_mem_nil _⟩, fun _ => Int.le_refl 0,
      fun _ => .inr ⟨rfl, Int.le_refl 0⟩⟩
  · exact iff_of_false List.not_mem_nil fun h => by cases h
  · exact iff_of_false List.not_mem_nil fun h => by cases h
  · exact iff_of_true (Nat.zero_le r) rfl

theorem kept_init (itcPrintOpts : BitVec 32) (numCores buffSize : ℤ) (channel : BitVec 32)
    (nlsStrings : Option (ℕ → NlString)) (memory : ℕ → ℕ → Byte) :
    Kept (ITCPrint.init itcPrintOpts numCores buffSize channel nlsStrings memory) :=
  ⟨inRings_init _ _ _ _ _ _, _, _, _, ledger_init ..⟩

theorem Kept.call (hp : Kept p) (hshort : TakesShort (p, op)) :
    KeepsLists sprintf (p, op) ∧ ∀ r, p.call sprintf op = some r → Kept r.2 := by
  obtain ⟨hin, place, L, F, hledger⟩ := hp
  obtain ⟨r, place', L', F', (hr : p.call sprintf op = some r), hledger', hleaves, -⟩ :=
    hledger.call hin hshort
  refine ⟨⟨r, hr, ⟨place', L', F', hledger'.listed.owned⟩, fun c hc xs hring =>
    hleaves.keeps hledger.listed.owned hc hring⟩, fun r' hr' => ⟨inRings_call hin hr', ?_⟩⟩
  obtain rfl : r = r' := Option.some.inj (hr.symm.trans hr')
  exact ⟨place', L', F', hledger'⟩

theorem Kept.takesShort (hp : Kept p) (ops : List Op)
    (hkeeps : ∀ c ∈ p.calls sprintf ops, KeepsLists sprintf c) :
    ∀ c ∈ p.calls sprintf ops, TakesShort c := by
  refine forall_calls_of (fun p op hp hkeeps => ?_) hp ops hkeeps
  obtain ⟨-, place, L, F, hledger⟩ := id hp
  have hshort := hledger.takesShort hkeeps
  exact ⟨hshort, (hp.call hshort).2⟩

/-- The lists stay linked and the cores apart in a run exactly if no call takes a record off a list
of three or more, and the arrays of the no-load-string prints are large enough. -/
theorem calls_keepLists_iff (sprintf : String → List PrintfArg → List Byte)
    (itcPrintOpts : BitVec 32)
    (numCores buffSize : ℤ) (channel : BitVec 32) (nlsStrings : Option (ℕ → NlString))
    (memory : ℕ → ℕ → Byte) (ops : List Op) :
    (∀ c ∈ (ITCPrint.init itcPrintOpts numCores buffSize channel nlsStrings memory).calls
      sprintf ops,
        StaysInside sprintf c ∧ KeepsLists sprintf c) ↔
      ∀ c ∈ (ITCPrint.init itcPrintOpts numCores buffSize channel nlsStrings memory).calls
        sprintf ops,
        FitsArrays sprintf c ∧ TakesShort c := by
  have hkept := kept_init itcPrintOpts numCores buffSize channel nlsStrings memory
  constructor
  · intro h c hc
    exact ⟨staysInside_iff.mp (h c hc).1, hkept.takesShort ops (fun c hc => (h c hc).2) c hc⟩
  · intro h c hc
    refine ⟨staysInside_iff.mpr (h c hc).1, ?_⟩
    exact forall_calls_of (fun _ _ hp hshort => hp.call hshort) hkept ops (fun c hc => (h c hc).2) c
      hc

/-- An object for two cores with rings of 16 characters and the print channel 0. -/
def ringsOfSixteen : ITCPrint := .init ITC_OPT_PRINT 2 16 0 none fun _ _ => 0x00

def after (p : ITCPrint) (op : Op) : ITCPrint := ((p.call (fun _ _ => []) op).getD (none, p)).2

/-- Three messages are printed on core 0, and one is taken. -/
theorem not_keepLists_three : ¬ ∀ c ∈ ringsOfSixteen.calls (fun _ _ => [])
    [.print 0 3 0x0a 0, .print 0 3 0x0a 1, .print 0 3 0x0a 2, .getStr 0], KeepsLists
    (fun _ _ => []) c := by
  intro h
  have hshort := Kept.takesShort (kept_init ITC_OPT_PRINT 2 16 0 none fun _ _ => 0x00) _ h
  set three :=
    ((ringsOfSixteen.after (.print 0 3 0x0a 0)).after (.print 0 3 0x0a 1)).after (.print 0 3 0x0a 2)
  have hmem : (three, Op.getStr 0) ∈ ringsOfSixteen.calls (fun _ _ => [])
      [.print 0 3 0x0a 0, .print 0 3 0x0a 1, .print 0 3 0x0a 2, .getStr 0] :=
    List.mem_cons_of_mem _ (List.mem_cons_of_mem _ (List.mem_cons_of_mem _ List.mem_cons_self))
  obtain ⟨xs, hring, hlen⟩ := hshort _ hmem 0 (by decide)
  have hhead : three.lists.tsList 0 = some 2 := by decide
  have hprev : three.lists.links.prev 2 = some 0 := by decide
  have hprev' : three.lists.links.prev 0 = some 1 := by decide
  rw [hhead] at hring
  match xs with
  | [] => exact hring
  | [a] =>
    obtain ⟨rfl, -, hself⟩ := hring
    exact absurd (hprev.symm.trans hself) (by decide)
  | [a, b] =>
    obtain ⟨rfl, hfirst, hsecond⟩ := hring
    obtain rfl : 0 = b := Option.some.inj (hprev.symm.trans hsecond.2)
    exact absurd (hprev'.symm.trans hfirst.2) (by decide)
  | a :: b :: c :: xs =>
    simp only [List.length_cons] at hlen
    omega

/-! ### The number of messages -/

/-- The number of messages of each core is that of the terminated records on its list. -/
def Accounted (p : ITCPrint) : Prop :=
  ∀ core, ∃ xs, xs.Nodup ∧ p.lists.links.Ring (p.lists.tsList core) xs ∧ (p.queue core).numMsgs =
    p.terminated xs

/-- A call returns, keeps the number of messages, and hands one out if it takes one. -/
def KeepsAccounts (sprintf : String → List PrintfArg → List Byte) (c : ITCPrint × Op) : Prop :=
  ∃ r, c.1.call sprintf c.2 = some r ∧ Accounted r.2 ∧ ∀ core, c.1.takes c.2 = some core →
    r.1.isSome

def KeptEven (p : ITCPrint) : Prop :=
  InRings p ∧ ∃ place L F, p.Ledger place L F ∧ ∀ c, p.excess L c = 0

theorem Ledger.accounted (h : p.Ledger place L F) (hexcess : ∀ c, p.excess L c = 0) :
    Accounted p := by
  intro core
  have hcore := hexcess core
  unfold excess at hcore
  exact ⟨L core, h.listed.owned.nodup core, h.listed.owned.ring core, by omega⟩

theorem KeptEven.call (hp : KeptEven p) (hcond : TakesShort (p, op) ∧ PrintsOne sprintf (p, op)) :
    KeepsAccounts sprintf (p, op) ∧ ∀ r, p.call sprintf op = some r → KeptEven r.2 := by
  obtain ⟨hin, place, L, F, hledger, hexcess⟩ := hp
  obtain ⟨r, place', L', F', (hr : p.call sprintf op = some r), hledger', -, hkeep, hanswer⟩ :=
    hledger.call hin hcond.1
  have hexcess' : ∀ c, r.2.excess L' c = 0 := fun c => (hkeep hcond.2 c).trans (hexcess c)
  refine ⟨⟨r, hr, hledger'.accounted hexcess', fun core htakes => hanswer core htakes
    (hexcess core)⟩, fun r' hr' => ⟨inRings_call hin hr', ?_⟩⟩
  obtain rfl : r = r' := Option.some.inj (hr.symm.trans hr')
  exact ⟨place', L', F', hledger', hexcess'⟩

theorem keptEven_init (itcPrintOpts : BitVec 32) (numCores buffSize : ℤ) (channel : BitVec 32)
    (nlsStrings : Option (ℕ → NlString)) (memory : ℕ → ℕ → Byte) :
    KeptEven (ITCPrint.init itcPrintOpts numCores buffSize channel nlsStrings memory) :=
  ⟨inRings_init _ _ _ _ _ _, _, _, _, ledger_init .., fun _ => rfl⟩

/-- In a run in which no print ends more than one message and no call takes a record off a list of
three or more, the number of messages is that of the terminated records, and a message that is asked
for is handed out. -/
theorem calls_keepAccounts (sprintf : String → List PrintfArg → List Byte)
    (itcPrintOpts : BitVec 32)
    (numCores buffSize : ℤ) (channel : BitVec 32) (nlsStrings : Option (ℕ → NlString))
    (memory : ℕ → ℕ → Byte) (ops : List Op)
    (h : ∀ c ∈ (ITCPrint.init itcPrintOpts numCores buffSize channel nlsStrings memory).calls
      sprintf ops,
      FitsArrays sprintf c ∧ TakesShort c ∧ PrintsOne sprintf c) :
    ∀ c ∈ (ITCPrint.init itcPrintOpts numCores buffSize channel nlsStrings memory).calls
      sprintf ops,
      StaysInside sprintf c ∧ KeepsAccounts sprintf c := by
  intro c hc
  refine ⟨staysInside_iff.mpr (h c hc).1, ?_⟩
  refine forall_calls_of (fun p op hp hcond => ?_) (keptEven_init ..) ops (fun c hc => (h c hc).2) c
    hc
  exact KeptEven.call hp hcond

/-- Two lines of core 0 in three words, and one of core 1 in between, are printed and taken. -/
def twoCores : List Op :=
  [.print 0 0 0x64636261 0, .print 1 0 0x0a636261 1, .print 0 2 0x0a65 2, .print 0 3 0x0a 3,
    .getStr 0, .getStr 1, .getStr 0]

theorem calls_keepAccounts_twoCores : (ringsOfSixteen.calls (fun _ _ => []) twoCores).length = 7 ∧
    ∀ c ∈ ringsOfSixteen.calls (fun _ _ => []) twoCores,
      StaysInside (fun _ _ => []) c ∧ KeepsAccounts (fun _ _ => []) c := by
  have hprints : ∀ c ∈ ringsOfSixteen.calls (fun _ _ => []) twoCores,
      FitsArrays (fun _ _ => []) c ∧ PrintsOne (fun _ _ => []) c := by decide +kernel
  have hrings : ∀ c ∈ ringsOfSixteen.calls (fun _ _ => []) twoCores, ∀ core ∈ c.1.takes c.2,
      ∃ xs ∈ [[2, 0], [1], [2]], c.1.lists.links.Ring (c.1.lists.tsList core) xs ∧
        xs.length ≤ 2 := by
    decide +kernel
  have hshort : ∀ c ∈ ringsOfSixteen.calls (fun _ _ => []) twoCores, TakesShort c := by
    intro c hc core htakes
    obtain ⟨xs, -, hring⟩ := hrings c hc core htakes
    exact ⟨xs, hring⟩
  refine ⟨by decide +kernel, ?_⟩
  exact calls_keepAccounts _ _ _ _ _ _ _ twoCores fun c hc => ⟨(hprints c hc).1, hshort c hc,
    (hprints c hc).2⟩

/-- A word with two line feeds ends two messages, but has one record. -/
theorem not_keepAccounts_two :
    ¬ ∀ c ∈ ringsOfSixteen.calls (fun _ _ => []) [.print 0 2 0x0a0a 0, .getStr 0, .getStr 0],
    KeepsAccounts (fun _ _ => []) c := by
  intro h
  set one := (ringsOfSixteen.after (.print 0 2 0x0a0a 0)).after (.getStr 0)
  have hmem : (one, Op.getStr 0) ∈ ringsOfSixteen.calls (fun _ _ => []) [.print 0 2 0x0a0a 0,
      .getStr 0, .getStr 0] :=
    List.mem_cons_of_mem _ (List.mem_cons_of_mem _ List.mem_cons_self)
  obtain ⟨r, hr, -, hanswer⟩ := h _ hmem
  have hsome := hanswer 0 (by decide)
  have hnone : (one.call (fun _ _ => []) (.getStr 0)).map (fun r => r.1.isSome) = some false := by
    decide
  rw [hr, Option.map_some, hsome] at hnone
  cases hnone

end ITCPrint

end TraceDecoder
