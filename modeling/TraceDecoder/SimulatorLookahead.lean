import TraceDecoder.SimulatorFlags
import TraceDecoder.SimulatorLines

/-!
# Looking ahead in a simulator log

What the loops over the lines find, in terms of the records that the lines hold: the next record of
any core, and the next one of the same core, whose address decides the flags.
-/

namespace TraceDecoder

open Isa

namespace LogRecord

def behind (r : LogRecord) : ADDRESS := r.pc + BitVec.ofNat 64 (size r.inst)

def nextOf (c : BitVec 8) (rest : List LogRecord) : Option LogRecord := rest.find? (·.coreId = c)

def lastOf (c : BitVec 8) (done : List LogRecord) : Option LogRecord :=
  done.reverse.find? (·.coreId = c)

def Interrupted (xlen : Xlen) (c : BitVec 8) (done rest : List LogRecord) : Prop :=
  ∃ q r, lastOf c done = some q ∧ nextOf c rest = some r ∧ ¬ (flow q.inst xlen).Admits xlen q.pc
    q.behind r.pc

end LogRecord

open LogRecord

namespace Simulator

/-! ### The next record -/

/-- The first entry that is wanted and its line, from the line `l` on. -/
def nextEntry (only : Option (BitVec 8)) : ℕ → List (Option LogRecord) → Option (ℕ × LogRecord)
  | _, [] => none
  | l, e :: es =>
    match e.filter (·.Wanted only) with
    | some r => some (l, r)
    | none => nextEntry only (l + 1) es

/-- A record that was read at the line `k`. -/
structure ReadAt (k : ℕ) (e : LogRecord) (r : SRec) : Prop where
  line : r.line = k
  entry : r.entry = some e

theorem ReadAt.fields {k : ℕ} {e : LogRecord} {r : SRec} (h : ReadAt k e r) :
    r.validLine = true ∧ r.valid = true ∧ e = ⟨r.coreId, r.pc, r.inst⟩ := by
  have hentry := h.entry
  unfold SRec.entry at hentry
  split_ifs at hentry with hvalid
  exact ⟨hvalid.1, hvalid.2, (Option.some.inj hentry).symm⟩

variable {lines : List (List Char)} {es : List (Option LogRecord)} {only : Option (BitVec 8)}

theorem getNextSrec_says (h : List.Forall₂ SRec.Says lines es) (only : Option (BitVec 8)) (l : ℕ)
    (srec : SRec) :
    match nextEntry only l es with
    | none => getNextSrec only l lines srec = .error .eof
    | some (k, e) => ∃ r, getNextSrec only l lines srec = .ok r ∧ ReadAt k e r ∧ r.haveFRF = false ∧
        r.haveVRF = false := by
  induction h generalizing l srec with
  | nil => rfl
  | @cons lp e lines es hcontent _ ih =>
    obtain ⟨r, rest, hrun, hline, hentry, hplain⟩ := hcontent l only srec
    rw [nextEntry, ← hentry, getNextSrec, hrun]
    dsimp only
    cases hr : r.entry with
    | none =>
      rw [if_pos ?_]
      · exact ih (l + 1) r
      · unfold SRec.entry at hr
        split_ifs at hr with hvalid
        rw [not_and_or] at hvalid
        simpa using hvalid
    | some e =>
      have hread : ReadAt l e r := ⟨hline, hr⟩
      obtain ⟨hvalidLine, hvalid, -⟩ := hread.fields
      exact ⟨r, if_neg (by simp [hvalidLine, hvalid]), hread, hplain hvalid⟩

theorem readSrec_says (h : List.Forall₂ SRec.Says lines es) (only : Option (BitVec 8)) (l n : ℕ)
    (srec : SRec) :
    match nextEntry only l (es.drop l) with
    | none => readSrec lines only (n + 1) l srec = .error .eof
    | some (k, e) => ∃ r, readSrec lines only (n + 1) l srec = .ok r ∧ ReadAt k e r := by
  have hnext := getNextSrec_says (List.forall₂_drop l h) only l srec
  cases hentry : nextEntry only l (es.drop l) with
  | none =>
    rw [hentry] at hnext
    rw [readSrec, hnext]
  | some x =>
    rw [hentry] at hnext
    obtain ⟨r, hrun, hread, hfrf, hvrf⟩ := hnext
    obtain ⟨hvalidLine, hvalid, -⟩ := hread.fields
    refine ⟨r, ?_, hread⟩
    rw [readSrec, hrun]
    exact if_neg (by simp [hvalidLine, hvalid, hfrf, hvrf])

theorem filter_wanted_none (e : Option LogRecord) : e.filter (·.Wanted none) = e := by
  cases e with
  | none => rfl
  | some e => exact Option.filter_some_pos (decide_eq_true nofun)

/-- Without a core, the next record is the first of those that are left, and the lines behind it
hold the others. -/
theorem nextEntry_none (l : ℕ) (es : List (Option LogRecord)) :
    match nextEntry none l es with
    | none => es.filterMap id = []
    | some (k, e) => l ≤ k ∧ es.filterMap id = e :: (es.drop (k + 1 - l)).filterMap id := by
  induction es generalizing l with
  | nil => rfl
  | cons e es ih =>
    rw [nextEntry, filter_wanted_none]
    cases e with
    | none =>
      have hrest := ih (l + 1)
      dsimp only
      cases hnext : nextEntry none (l + 1) es with
      | none =>
        rw [hnext] at hrest
        exact hrest
      | some x =>
        rw [hnext] at hrest
        obtain ⟨hle, heq⟩ := hrest
        refine ⟨by omega, ?_⟩
        rw [show x.1 + 1 - l = x.1 + 1 - (l + 1) + 1 by omega, List.drop_succ_cons]
        exact heq
    | some e =>
      refine ⟨Nat.le_refl _, ?_⟩
      rw [show l + 1 - l = 1 by omega]
      rfl

/-- For a core, it is the next one of that core; at the first line it is what this line holds. -/
theorem nextEntry_some (c : BitVec 8) (l : ℕ) (es : List (Option LogRecord)) :
    match nextEntry (some c) l es with
    | none => nextOf c (es.filterMap id) = none
    | some (k, e) => nextOf c (es.filterMap id) = some e ∧ l ≤ k ∧
        (k = l → es.head? = some (some e)) := by
  induction es generalizing l with
  | nil => rfl
  | cons e es ih =>
    have hlater : nextOf c ((e :: es).filterMap id) = nextOf c (es.filterMap id) →
        match nextEntry (some c) (l + 1) es with
        | none => nextOf c ((e :: es).filterMap id) = none
        | some (k, e') => nextOf c ((e :: es).filterMap id) = some e' ∧ l ≤ k ∧
            (k = l → (e :: es).head? = some (some e')) := by
      intro hsame
      have hrest := ih (l + 1)
      rw [hsame]
      cases hnext : nextEntry (some c) (l + 1) es with
      | none =>
        rw [hnext] at hrest
        exact hrest
      | some x =>
        rw [hnext] at hrest
        exact ⟨hrest.1, by omega, fun hk => by omega⟩
    rw [nextEntry]
    cases e with
    | none => exact hlater rfl
    | some e =>
      by_cases hwanted : e.Wanted (some c)
      · have hcore : e.coreId = c := (hwanted c rfl).symm
        rw [Option.filter_some, if_pos (decide_eq_true hwanted)]
        exact ⟨List.find?_cons_of_pos (decide_eq_true hcore), Nat.le_refl _, fun _ => rfl⟩
      · have hcore : ¬ e.coreId = c := fun heq => hwanted (by rintro _ ⟨⟩; exact heq.symm)
        rw [Option.filter_some, if_neg (by simpa using hwanted)]
        exact hlater (List.find?_cons_of_neg (by simpa using hcore))

/-! ### The next and the last record of a core -/

variable {xlen : Xlen}

theorem nextOf_of_eq {c : BitVec 8} {r : LogRecord} (h : r.coreId = c) (rest : List LogRecord) :
    nextOf c (r :: rest) = some r :=
  List.find?_cons_of_pos (decide_eq_true h)

theorem nextOf_of_ne {c : BitVec 8} {r : LogRecord} (h : r.coreId ≠ c) (rest : List LogRecord) :
    nextOf c (r :: rest) = nextOf c rest :=
  List.find?_cons_of_neg (by simpa using h)

theorem lastOf_of_eq {c : BitVec 8} {r : LogRecord} (h : r.coreId = c) (done : List LogRecord) :
    lastOf c (done ++ [r]) = some r := by
  rw [lastOf, List.reverse_concat]
  exact nextOf_of_eq h _

theorem lastOf_of_ne {c : BitVec 8} {r : LogRecord} (h : r.coreId ≠ c) (done : List LogRecord) :
    lastOf c (done ++ [r]) = lastOf c done := by
  rw [lastOf, List.reverse_concat]
  exact nextOf_of_ne h _

/-- Which core is interrupted when one more record is done. -/
theorem interrupted_of_eq {done rest : List LogRecord} {r : LogRecord} :
    Interrupted xlen r.coreId (done ++ [r]) rest ↔
      ∃ n, nextOf r.coreId rest = some n ∧ ¬ (flow r.inst xlen).Admits xlen r.pc r.behind n.pc := by
  rw [Interrupted, lastOf_of_eq rfl]
  constructor
  · rintro ⟨q, n, hq, hn, hadmits⟩
    cases hq
    exact ⟨n, hn, hadmits⟩
  · rintro ⟨n, hn, hadmits⟩
    exact ⟨r, n, rfl, hn, hadmits⟩

theorem interrupted_of_ne {c : BitVec 8} {done rest : List LogRecord} {r : LogRecord}
    (h : r.coreId ≠ c) :
    Interrupted xlen c (done ++ [r]) rest ↔ Interrupted xlen c done (r :: rest) := by
  rw [Interrupted, Interrupted, lastOf_of_ne h, nextOf_of_ne h]

theorem interrupted_current {done rest : List LogRecord} {r : LogRecord} :
    Interrupted xlen r.coreId done (r :: rest) ↔
      ∃ q, lastOf r.coreId done = some q ∧ ¬ (flow q.inst xlen).Admits xlen q.pc q.behind r.pc := by
  rw [Interrupted, nextOf_of_eq rfl]
  constructor
  · rintro ⟨q, n, hq, hn, hadmits⟩
    cases hn
    exact ⟨q, hq, hadmits⟩
  · rintro ⟨q, hq, hadmits⟩
    exact ⟨q, r, hq, rfl, hadmits⟩

def lookahead (c : BitVec 8) (rest : List LogRecord) : ADDRESS :=
  ((nextOf c rest).map LogRecord.pc).getD 0

theorem lookahead_ne_zero_and {c : BitVec 8} {rest : List LogRecord} (hrest : ∀ r ∈ rest, r.pc ≠ 0)
    (p : ADDRESS → Prop) :
    lookahead c rest ≠ 0 ∧ p (lookahead c rest) ↔ ∃ n, nextOf c rest = some n ∧ p n.pc := by
  unfold lookahead
  cases hnext : nextOf c rest with
  | none => simp
  | some n =>
    have hn : n.pc ≠ 0 := hrest n (List.mem_of_find?_eq_some hnext)
    constructor
    · exact fun h => ⟨n, rfl, h.2⟩
    · rintro ⟨_, ⟨⟩, h⟩
      exact ⟨hn, h⟩

/-- The flags of a branch are those of the next record of its core. -/
theorem brFlag_taken_iff {rest : List LogRecord} {r : LogRecord} {offset : ADDRESS}
    (hrest : ∀ r ∈ rest, r.pc ≠ 0) (hne : r.pc + offset ≠ r.behind) :
    brFlagOf (.branch offset) r.pc r.behind (lookahead r.coreId rest) = .taken ↔
      ∃ n, nextOf r.coreId rest = some n ∧ n.pc = r.pc + offset := by
  rw [← lookahead_ne_zero_and hrest (· = r.pc + offset), brFlagOf]
  by_cases hzero : lookahead r.coreId rest = 0
  · simp [hzero]
  by_cases hbehind : lookahead r.coreId rest = r.behind
  · rw [if_neg hzero, if_pos hbehind]
    exact iff_of_false (by decide) fun h => hne (h.2.symm.trans hbehind)
  by_cases htaken : lookahead r.coreId rest = r.pc + offset
  · rw [if_neg hzero, if_neg hbehind, if_pos htaken]
    exact ⟨fun _ => ⟨hzero, htaken⟩, fun _ => rfl⟩
  · rw [if_neg hzero, if_neg hbehind, if_neg htaken]
    exact iff_of_false (by decide) fun h => htaken h.2

theorem brFlag_notTaken_iff {rest : List LogRecord} {r : LogRecord} {offset : ADDRESS}
    (hrest : ∀ r ∈ rest, r.pc ≠ 0) :
    brFlagOf (.branch offset) r.pc r.behind (lookahead r.coreId rest) = .notTaken ↔
      ∃ n, nextOf r.coreId rest = some n ∧ n.pc = r.behind := by
  rw [← lookahead_ne_zero_and hrest (· = r.behind), brFlagOf]
  by_cases hzero : lookahead r.coreId rest = 0
  · simp [hzero]
  by_cases hbehind : lookahead r.coreId rest = r.behind
  · rw [if_neg hzero, if_pos hbehind]
    exact ⟨fun _ => ⟨hzero, hbehind⟩, fun _ => rfl⟩
  · rw [if_neg hzero, if_neg hbehind]
    refine ⟨fun h => ?_, fun h => absurd h.2 hbehind⟩
    split_ifs at h

end Simulator

end TraceDecoder
