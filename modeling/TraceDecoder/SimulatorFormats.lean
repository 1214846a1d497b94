import TraceDecoder.Lib.Formats
import TraceDecoder.Lib.Watching
import TraceDecoder.Simulator

/-!
# The formats of a simulator log

The parser of a line stays in its line except for one step: behind the third operand of an
instruction it passes a character that it has not looked at, which should be a blank. Where the line
ends there, the parser goes on in the next line.
-/

namespace TraceDecoder

open CString Scan

namespace LogLine

open Format (blanks digitAhead number flag lit upTo either chain)

def register : List Format := [lit ['['], lit ['r'], number 10, lit ['='], number 16, lit [']']]

def operand : Format :=
  chain [blanks, either (chain (lit ['W'] :: register ++ [lit ['['], flag, lit [']']]))
    (chain (lit ['R'] :: register))]

def fields : List Format :=
  [lit ['['], flag, lit [']'], blanks, lit "pc=[".toList, number 16, lit [']'], operand, operand,
    operand]

def encoding : List Format :=
  [blanks, lit "inst=[".toList, number 16, lit [']'], blanks, lit "DASM(".toList, number 16,
    lit [')'], blanks]

def instruction : Format := chain (fields ++ lit [' '] :: encoding)

def vrf : Format :=
  chain [lit "vrf".toList, lit ['['], number 16, lit [']'], blanks, lit ['='], blanks, lit ['['],
    upTo ']', lit [']'], lit ['['], upTo ']', lit [']'], blanks]

def frf : Format :=
  chain [lit "frf".toList, lit ['['], number 16, lit [']'], blanks, lit ['='], blanks, lit ['['],
    number 16, lit [']'], blanks]

def core : Format := chain [blanks, lit ['C'], blanks, digitAhead, number 10]

def counter : Format := chain [blanks, lit [':'], number 10, blanks]

/-- A line with one of the three formats. What comes behind the record is ignored. -/
def IsRecord (text : List Char) : Prop :=
  ∃ s t u, core text s ∧ counter s t ∧ (vrf t u ∨ frf t u ∨ instruction t u)

def coreId (text : List Char) : BitVec 8 :=
  (strtoull 10 ((text.dropWhile (· = ' ')).tail.dropWhile (· = ' '))).1.setWidth 8

/-- An instruction of a core that is wanted whose operands have no blank behind them: the line ends
there, or there is another character in front of the rest of the record. -/
def Unguarded (wanted : ℤ) (text : List Char) : Prop :=
  (wanted = -1 ∨ wanted = (coreId text).toNat) ∧ ∃ s t u, core text s ∧ counter s t ∧
    chain fields t u ∧ (u = [] ∨ ∃ c v w, u = c :: v ∧ c ≠ ' ' ∧ chain encoding v w)

end LogLine

namespace SRec

open LogLine

/-! ### What the parts denote -/

theorem denotes_vrf (srec : SRec) : Denotes (vrf srec) LogLine.vrf :=
  (Denotes.keyword _).step fun _ => (Denotes.expect (by decide)).step
      fun _ => (Denotes.number 16).step fun _ =>
    (Denotes.expect (by decide)).step fun _ => Denotes.skipSpaces.step
      fun _ => (Denotes.expect (by decide)).step fun _ =>
    Denotes.skipSpaces.step fun _ => (Denotes.expect (by decide)).step
      fun _ => (Denotes.skipTo ']').step fun _ =>
    (Denotes.expect (by decide)).step fun _ => (Denotes.expect (by decide)).step
      fun _ => (Denotes.skipTo ']').step fun _ =>
    (Denotes.expect (by decide)).step fun _ => Denotes.skipSpaces.step fun _ => .pure _

theorem denotes_frf (srec : SRec) : Denotes (frf srec) LogLine.frf :=
  (Denotes.keyword _).step fun _ => (Denotes.expect (by decide)).step
      fun _ => (Denotes.number 16).step fun _ =>
    (Denotes.expect (by decide)).step fun _ => Denotes.skipSpaces.step
      fun _ => (Denotes.expect (by decide)).step fun _ =>
    Denotes.skipSpaces.step fun _ => (Denotes.expect (by decide)).step
      fun _ => (Denotes.number 16).step fun _ =>
    (Denotes.expect (by decide)).step fun _ => Denotes.skipSpaces.step fun _ => .pure _

theorem denotes_register : Denotes SRec.register (Format.chain LogLine.register) :=
  (Denotes.expect (by decide)).step fun _ => (Denotes.expect (by decide)).step
      fun _ => (Denotes.number 10).step fun _ =>
    (Denotes.expect (by decide)).step fun _ => (Denotes.number 16).step
      fun _ => (Denotes.expect (by decide)).step fun _ => .pure _

theorem denotes_encoding (srec : SRec) : Denotes (encoding srec) (Format.chain LogLine.encoding) :=
  Denotes.skipSpaces.step fun _ => (Denotes.keyword _).step fun _ => (Denotes.number 16).step
      fun _ =>
    (Denotes.expect (by decide)).step fun _ => Denotes.skipSpaces.step
      fun _ => (Denotes.keyword _).step fun _ =>
    (Denotes.number 16).step fun _ => (Denotes.expect (by decide)).step
      fun _ => Denotes.skipSpaces.step fun _ => .pure _

theorem denotes_counter (srec : SRec) : Denotes (counter srec) LogLine.counter :=
  Denotes.skipSpaces.step fun _ => (Denotes.expect (by decide)).step
      fun _ => (Denotes.number 10).step fun _ =>
    Denotes.skipSpaces.step fun _ => .pure _

theorem denotes_operand (srec : SRec) (numReads : ℕ) :
    Denotes (operand srec numReads) LogLine.operand := by
  refine Denotes.skipSpaces.step fun _ => .last (.choice ?_ ?_ (by decide))
  · exact (Denotes.expect (by decide)).step fun _ => denotes_register.append
        fun _ => (Denotes.expect (by decide)).step fun _ =>
      Denotes.flag.step fun _ => (Denotes.expect (by decide)).step fun _ => .pure _
  · have hregister :=
      (Denotes.expect (c := 'R') (by decide)).step fun _ => denotes_register.append fun reg =>
        .pure (if numReads = 0 then { srec with r1Reg := reg.1, r1Val := reg.2 }
          else { srec with r2Reg := reg.1, r2Val := reg.2 }, numReads + 1)
    rwa [List.append_nil] at hregister

theorem denotes_fields (srec : SRec) : Denotes (fields srec) (Format.chain LogLine.fields) :=
  (Denotes.expect (by decide)).step fun _ => Denotes.flag.step
      fun _ => (Denotes.expect (by decide)).step fun _ =>
    Denotes.skipSpaces.step fun _ => (Denotes.keyword _).step fun _ => (Denotes.number 16).step
      fun _ =>
    (Denotes.expect (by decide)).step fun _ => (denotes_operand _ _).step
      fun _ => (denotes_operand _ _).step fun _ =>
    (denotes_operand _ _).step fun _ => .pure _

theorem core_eq_some {s t : List Char} {id : BitVec 8} :
    (SRec.core : Scan _) s = some (some id, t) ↔ LogLine.core s t ∧ id = LogLine.coreId s := by
  simp only [SRec.core, Scan.bind_eq, Scanner.skipSpaces, Scanner.look, Scanner.expect,
    Scanner.number, Scan.skipSpaces, Scan.look, Option.bind_some]
  by_cases hc : peek (s.dropWhile (· = ' ')) = 'C'
  · obtain ⟨v, hv⟩ : ∃ v, s.dropWhile (· = ' ') = 'C' :: v := by
      cases hdrop : s.dropWhile (· = ' ') with
      | nil => rw [hdrop] at hc; cases hc
      | cons d v => rw [hdrop] at hc; exact ⟨v, by rw [show d = 'C' from hc]⟩
    have hline : LogLine.core s t ↔ IsDigit 10 (peek (v.dropWhile (· = ' '))) ∧
        Format.number 10 (v.dropWhile (· = ' ')) t := by
      constructor
      · rintro ⟨_, rfl, v', hv', _, rfl, _, ⟨rfl, hdigit⟩, _, hnumber, rfl⟩
        obtain rfl : v = v' := List.cons.inj (hv.symm.trans hv') |>.2
        exact ⟨hdigit, hnumber⟩
      · rintro ⟨hdigit, hnumber⟩
        exact ⟨_, rfl, v, hv, _, rfl, _, ⟨rfl, hdigit⟩, _, hnumber, rfl⟩
    rw [if_pos hc, hline, LogLine.coreId, hv, List.tail_cons]
    simp only [Scan.bind_eq, Scan.expect, if_pos (show peek ('C' :: v) = 'C' from rfl),
      Option.bind_some, List.tail_cons, Scan.skipSpaces, Scan.look]
    by_cases hd : IsDigit 10 (peek (v.dropWhile (· = ' ')))
    · rw [if_pos hd]
      simp only [Scan.bind_eq, Scan.number, Format.number, hd, true_and]
      split_ifs with hlength
      · constructor
        · intro h
          cases h
        · rintro ⟨⟨rfl, hne⟩, -⟩
          exact absurd hlength hne
      · constructor
        · intro h
          cases h
          exact ⟨⟨rfl, hlength⟩, rfl⟩
        · rintro ⟨⟨rfl, -⟩, rfl⟩
          rfl
    · rw [if_neg hd]
      constructor
      · intro h
        cases h
      · rintro ⟨⟨hdigit, -⟩, -⟩
        exact absurd hdigit hd
  · rw [if_neg hc]
    constructor
    · intro h
      cases h
    · rintro ⟨⟨_, rfl, v, hv, -⟩, -⟩
      rw [hv] at hc
      exact absurd rfl hc

/-! ### What the parts look at -/

theorem stays_vrf (srec : SRec) : Stays (vrf srec) (vrf srec) :=
  (Stays.keyword (by decide)).bind fun _ => (Stays.expect (by decide)).bind
      fun _ => (Stays.number (by decide)).bind fun _ =>
    (Stays.expect (by decide)).bind fun _ => Stays.skipSpaces.bind
      fun _ => (Stays.expect (by decide)).bind fun _ =>
    Stays.skipSpaces.bind fun _ => (Stays.expect (by decide)).bind fun _ => Stays.skipTo.bind
      fun _ =>
    (Stays.expect (by decide)).bind fun _ => (Stays.expect (by decide)).bind
      fun _ => Stays.skipTo.bind fun _ =>
    (Stays.expect (by decide)).bind fun _ => Stays.skipSpaces.bind fun _ => .pure _

theorem stays_frf (srec : SRec) : Stays (frf srec) (frf srec) :=
  (Stays.keyword (by decide)).bind fun _ => (Stays.expect (by decide)).bind
      fun _ => (Stays.number (by decide)).bind fun _ =>
    (Stays.expect (by decide)).bind fun _ => Stays.skipSpaces.bind
      fun _ => (Stays.expect (by decide)).bind fun _ =>
    Stays.skipSpaces.bind fun _ => (Stays.expect (by decide)).bind
      fun _ => (Stays.number (by decide)).bind fun _ =>
    (Stays.expect (by decide)).bind fun _ => Stays.skipSpaces.bind fun _ => .pure _

theorem stays_register : Stays register register :=
  (Stays.expect (by decide)).bind fun _ => (Stays.expect (by decide)).bind
      fun _ => (Stays.number (by decide)).bind fun _ =>
    (Stays.expect (by decide)).bind fun _ => (Stays.number (by decide)).bind
      fun _ => (Stays.expect (by decide)).bind fun _ => .pure _

theorem stays_operand (srec : SRec) (numReads : ℕ) :
    Stays (operand srec numReads) (operand srec numReads) := by
  refine Stays.skipSpaces.bind fun _ => Stays.look.bind fun c => .ite ?_ (.ite ?_ .fail)
  · exact (Stays.expect (by decide)).bind fun _ => stays_register.bind
        fun _ => (Stays.expect (by decide)).bind fun _ =>
      Stays.flag.bind fun _ => (Stays.expect (by decide)).bind fun _ => .pure _
  · exact (Stays.expect (by decide)).bind fun _ => stays_register.bind fun _ => .pure _

theorem stays_operands (n : ℕ) (srec : SRec) (numReads : ℕ) :
    Stays (operands n srec numReads) (operands n srec numReads) := by
  induction n generalizing srec numReads with
  | zero => exact .pure srec
  | succ n ih => exact (stays_operand srec numReads).bind fun r => ih r.1 r.2

theorem stays_fields (srec : SRec) : Stays (fields srec) (fields srec) :=
  (Stays.expect (by decide)).bind fun _ => Stays.flag.bind fun _ => (Stays.expect (by decide)).bind
      fun _ =>
    Stays.skipSpaces.bind fun _ => (Stays.keyword (by decide)).bind
      fun _ => (Stays.number (by decide)).bind fun _ =>
    (Stays.expect (by decide)).bind fun _ => stays_operands 3 _ 0

theorem stays_encoding (srec : SRec) : Stays (encoding srec) (encoding srec) :=
  Stays.skipSpaces.bind fun _ => (Stays.keyword (by decide)).bind
      fun _ => (Stays.number (by decide)).bind fun _ =>
    (Stays.expect (by decide)).bind fun _ => Stays.skipSpaces.bind
      fun _ => (Stays.keyword (by decide)).bind fun _ =>
    (Stays.number (by decide)).bind fun _ => (Stays.expect (by decide)).bind
      fun _ => Stays.skipSpaces.bind fun _ => .pure _

theorem stays_counter (srec : SRec) : Stays (counter srec) (counter srec) :=
  Stays.skipSpaces.bind fun _ => (Stays.expect (by decide)).bind
      fun _ => (Stays.number (by decide)).bind fun _ =>
    Stays.skipSpaces.bind fun _ => .pure _

theorem stays_core : Stays core core := by
  refine Stays.skipSpaces.bind fun _ => Stays.look.bind fun c => .ite ?_ (.pure _)
  refine (Stays.expect (by decide)).bind fun _ => Stays.skipSpaces.bind fun _ => Stays.look.bind
    fun d => .ite ?_ (.pure _)
  exact (Stays.number (by decide)).bind fun _ => .pure _

/-! ### A record -/

theorem valid_encoding (srec : SRec) : Gives (encoding srec) fun r => r.validLine = true :=
  .bind fun _ => .bind fun _ => .bind fun _ => .bind fun _ => .bind fun _ => .bind fun _ => .bind
      fun _ => .bind fun _ => .bind fun _ =>
    .pure rfl

theorem isPrefixOf_of_lit {w : List Char} {Fs : List Format} {s t : List Char}
    (h : Format.chain (Format.lit w :: Fs) s t) :
    w.isPrefixOf s = true := by
  obtain ⟨u, rfl, -⟩ := h
  exact List.isPrefixOf_iff_prefix.mpr (List.prefix_append w u)

theorem peek_of_fields {s t : List Char} (h : Format.chain LogLine.fields s t) : peek s = '[' := by
  obtain ⟨u, rfl, -⟩ := h
  rfl

theorem not_startsWith {c : Char} {w s : List Char} (h : peek s = '[') (hc : c ≠ '[') :
    (c :: w).isPrefixOf s = false := by
  cases s with
  | nil => rfl
  | cons d s =>
    obtain rfl : d = '[' := h
    rw [List.isPrefixOf, beq_false_of_ne hc, Bool.false_and]

variable {srec r : SRec} {s t u v w : List Char}

theorem instruction_eq_some (h : (instruction srec : Scan _) t = some (r, u)) :
    ∃ c v, Format.chain LogLine.fields t (c :: v) ∧ Format.chain LogLine.encoding v u := by
  rw [instruction, bind_eq] at h
  obtain ⟨⟨a, v⟩, hfields, hrest⟩ := Option.bind_eq_some_iff.mp h
  have hdenotes := (denotes_fields srec t v).mp ⟨a, hfields⟩
  have hencoding := (denotes_encoding a v.tail u).mp ⟨r, hrest⟩
  cases v with
  | nil =>
    obtain ⟨_, rfl, _, hlit, -⟩ := hencoding
    cases hlit
  | cons c v => exact ⟨c, v, hdenotes, hencoding⟩

theorem record_eq_some (h : (record srec : Scan _) t = some (r, u)) :
    LogLine.vrf t u ∨ LogLine.frf t u ∨ ∃ c v, Format.chain LogLine.fields t (c :: v) ∧
      Format.chain LogLine.encoding v u := by
  change (ite _ (vrf srec) (Scan.startsWith "frf".toList >>= fun b => if b = true then frf srec
    else instruction srec) : Scan _) t = _ at h
  split_ifs at h
  · exact .inl ((denotes_vrf srec t u).mp ⟨r, h⟩)
  · change (ite _ (frf srec) (instruction srec) : Scan _) t = _ at h
    split_ifs at h
    · exact .inr (.inl ((denotes_frf srec t u).mp ⟨r, h⟩))
    · exact .inr (.inr (instruction_eq_some h))

variable (srec) in
/-- Behind an instruction's operands the character that is passed does not matter. -/
theorem record_of_fields {c : Char} (hfields : Format.chain LogLine.fields t (c :: v))
    (hencoding : Format.chain LogLine.encoding v u) :
    ∃ r, (record srec : Scan _) t = some (r, u) ∧ r.validLine = true := by
  have hpeek := peek_of_fields hfields
  obtain ⟨a, ha⟩ := (denotes_fields srec t (c :: v)).mpr hfields
  obtain ⟨r, hr⟩ := (denotes_encoding a v u).mpr hencoding
  have hinstruction : (instruction srec : Scan _) t = some (r, u) := by
    rw [instruction, bind_eq, ha]
    exact hr
  refine ⟨r, ?_, valid_encoding a v r u hr⟩
  have hvrf : "vrf".toList.isPrefixOf t = false := not_startsWith hpeek (by decide)
  have hfrf : "frf".toList.isPrefixOf t = false := not_startsWith hpeek (by decide)
  change (ite ("vrf".toList.isPrefixOf t = true) (vrf srec)
    (Scan.startsWith "frf".toList >>= fun b => if b = true then frf srec
      else instruction srec) : Scan _) t = _
  rw [hvrf, if_neg Bool.false_ne_true]
  change (ite ("frf".toList.isPrefixOf t = true) (frf srec) (instruction srec) : Scan _) t = _
  rw [hfrf, if_neg Bool.false_ne_true]
  exact hinstruction

/-- Where the operands are not the end of the line, the parser stays in it. -/
theorem staysAt_record (ht : '\x00' ∉ t) (hopen : ¬ Format.chain LogLine.fields t []) :
    StaysAt (record srec) (record srec) t := by
  apply (Stays.startsWith (by decide) t ht).bind
  rintro isVrf _ ⟨⟩
  split_ifs
  · exact stays_vrf srec t ht
  apply (Stays.startsWith (by decide) t ht).bind
  rintro isFrf _ ⟨⟩
  split_ifs
  · exact stays_frf srec t ht
  apply (stays_fields srec t ht).bind
  intro a v hv
  have hne : v ≠ [] := by
    rintro rfl
    exact hopen ((denotes_fields srec t []).mp ⟨a, hv⟩)
  have hfree := (stays_fields srec).rest ht hv
  apply (StaysAt.pass hne).bind
  rintro _ _ ⟨⟩
  exact stays_encoding a v.tail fun hmem => hfree (List.mem_of_mem_tail hmem)

variable (srec) in
theorem record_overrun (ht : '\x00' ∉ t) (hfields : Format.chain LogLine.fields t []) (n : ℕ) :
    ∃ w, (record srec : Watched _) ⟨t ++ '\x00' :: ['x'], n + 1⟩ = .error () w ∧ w.unread = 0 := by
  have hpeek := peek_of_fields hfields
  obtain ⟨a, ha⟩ := (denotes_fields srec t []).mpr hfields
  have hvrf : Scan.startsWith "vrf".toList t = some (false, t) := by
    rw [Scan.startsWith, show "vrf".toList.isPrefixOf t = false from not_startsWith hpeek
      (by decide)]
  have hfrf : Scan.startsWith "frf".toList t = some (false, t) := by
    rw [Scan.startsWith, show "frf".toList.isPrefixOf t = false from not_startsWith hpeek
      (by decide)]
  have hone : ∀ n : ℕ, ['x'].length ≤ n + 1 := fun n => Nat.le_add_left 1 n
  obtain ⟨u₁, hrun₁, h₁⟩ := (Stays.startsWith (by decide) t ht).run hvrf ['x'] (hone n)
  obtain ⟨u₂, hrun₂, h₂⟩ := (Stays.startsWith (by decide) t ht).run hfrf ['x'] h₁
  obtain ⟨u₃, hrun₃, h₃⟩ := (stays_fields srec t ht).run ha ['x'] h₂
  rw [record, EStateM.bind_ok hrun₁, if_neg Bool.false_ne_true, EStateM.bind_ok hrun₂,
    if_neg Bool.false_ne_true, instruction, EStateM.bind_ok hrun₃]
  refine ⟨_, rfl, ?_⟩
  change min (min (min u₃ 2) 0) 0 = 0
  omega

/-! ### A line -/

variable {l : ℕ} {wanted : ℤ} {text : List Char}

/-- Only a line of a core that is wanted, with a record, is valid. -/
theorem scanLine_eq_some (h : (scanLine l wanted srec : Scan _) text = some (r, u))
    (hvalid : r.validLine = true) :
    (wanted = -1 ∨ wanted = (LogLine.coreId text).toNat) ∧ ∃ s t, LogLine.core text s ∧
      LogLine.counter s t ∧
      (LogLine.vrf t u ∨ LogLine.frf t u ∨
        ∃ c v, Format.chain LogLine.fields t (c :: v) ∧ Format.chain LogLine.encoding v u) := by
  rw [scanLine, bind_eq] at h
  obtain ⟨⟨found, s⟩, hcore, hrest⟩ := Option.bind_eq_some_iff.mp h
  cases found with
  | none =>
    cases hrest
    cases hvalid
  | some id =>
    obtain ⟨hline, rfl⟩ := core_eq_some.mp hcore
    dsimp only at hrest
    split_ifs at hrest with hwanted
    · cases hrest
      cases hvalid
    · rw [body, bind_eq] at hrest
      obtain ⟨⟨a, t⟩, hcounter, hrecord⟩ := Option.bind_eq_some_iff.mp hrest
      have hdenotes := (denotes_counter _ s t).mp ⟨a, hcounter⟩
      refine ⟨?_, s, t, hline, hdenotes, record_eq_some hrecord⟩
      rw [not_and_or, not_not, not_not] at hwanted
      exact hwanted

variable (srec l) in
theorem scanLine_of_fields {c : Char} (hwanted : wanted = -1 ∨ wanted = (LogLine.coreId text).toNat)
    (hcore : LogLine.core text s)
    (hcounter : LogLine.counter s t) (hfields : Format.chain LogLine.fields t (c :: v))
    (hencoding : Format.chain LogLine.encoding v u) :
    ∃ r, (scanLine l wanted srec : Scan _) text = some (r, u) ∧ r.validLine = true := by
  obtain ⟨a, ha⟩ := (denotes_counter _ s t).mpr hcounter
  obtain ⟨r, hr, hvalid⟩ := record_of_fields a hfields hencoding
  refine ⟨r, ?_, hvalid⟩
  rw [scanLine, bind_eq, core_eq_some.mpr ⟨hcore, rfl⟩, Option.bind_some]
  dsimp only
  rw [if_neg (by rw [not_and_or, not_not, not_not]; exact hwanted), body, bind_eq, ha]
  exact hr

variable (srec l) in
/-- Where the operands of an instruction are not the end of the line, the
parser stays in the line. -/
theorem staysAt_scanLine (h : '\x00' ∉ text)
    (hopen : (wanted = -1 ∨ wanted = (LogLine.coreId text).toNat) → ∀ s t, LogLine.core text s →
      LogLine.counter s t →
      ¬ Format.chain LogLine.fields t []) :
    StaysAt (scanLine l wanted srec) (scanLine l wanted srec) text := by
  apply (stays_core text h).bind
  intro found s hcore
  have hs := stays_core.rest h hcore
  cases found with
  | none => exact Stays.pure _ s hs
  | some id =>
    obtain ⟨hline, rfl⟩ := core_eq_some.mp hcore
    dsimp only
    split_ifs with hwanted
    · exact Stays.pure _ s hs
    rw [not_and_or, not_not, not_not] at hwanted
    apply (stays_counter _ s hs).bind
    intro a t hcounter
    have ht := (stays_counter _).rest hs hcounter
    have hdenotes := (denotes_counter _ s t).mp ⟨a, hcounter⟩
    exact staysAt_record ht (hopen hwanted s t hline hdenotes)

variable (srec l) in
theorem scanLine_overrun (h : '\x00' ∉ text)
    (hwanted : wanted = -1 ∨ wanted = (LogLine.coreId text).toNat)
    (hcore : LogLine.core text s) (hcounter : LogLine.counter s t)
    (hfields : Format.chain LogLine.fields t []) (n : ℕ) :
    ∃ w, (scanLine l wanted srec : Watched _) ⟨text ++ '\x00' :: ['x'], n + 1⟩ = .error () w ∧
      w.unread = 0 := by
  have hfound := core_eq_some.mpr ⟨hcore, rfl⟩
  have hs := stays_core.rest h hfound
  obtain ⟨a, ha⟩ := (denotes_counter { srec with
    validLine := false, valid := false, line := l, haveFRF := false, haveVRF := false,
      coreId := LogLine.coreId text } s t).mpr hcounter
  have ht := (stays_counter _).rest hs ha
  obtain ⟨u₁, hrun₁, h₁⟩ := (stays_core text h).run hfound ['x'] (u := n + 1) (Nat.le_add_left 1 n)
  obtain ⟨u₂, hrun₂, h₂⟩ := (stays_counter _ s hs).run ha ['x'] h₁
  obtain ⟨k, rfl⟩ : ∃ k, u₂ = k + 1 := ⟨u₂ - 1, by have : 1 ≤ u₂ := h₂; omega⟩
  obtain ⟨w, hrecord, hw⟩ := record_overrun a ht hfields k
  refine ⟨w, ?_, hw⟩
  rw [scanLine, EStateM.bind_ok hrun₁]
  dsimp only
  rw [if_neg (by rw [not_and_or, not_not, not_not]; exact hwanted), body, EStateM.bind_ok hrun₂]
  exact hrecord

/-- Of a line at the front of the buffer the parser looks at nothing behind the null character, and
it takes a line for valid only if that has one of the formats. -/
def StaysInLine (wanted : ℤ) (text : List Char) : Prop :=
  ∀ l srec more, let run := (scanLine l wanted srec : Watched SRec) ⟨text ++ '\x00' :: more,
    (text ++ '\x00' :: more).length⟩
    more.length ≤ run.state.unread ∧ ∀ r, run.value? = some r → r.validLine = true →
      LogLine.IsRecord text

theorem counter_functional {s' t' : List Char} (hcore : LogLine.core text s)
    (hcounter : LogLine.counter s t)
    (hcore' : LogLine.core text s') (hcounter' : LogLine.counter s' t') : t = t' := by
  have hs := core_eq_some.mpr ⟨hcore, rfl⟩
  rw [core_eq_some.mpr ⟨hcore', rfl⟩, Option.some.injEq, Prod.mk.injEq] at hs
  obtain rfl := hs.2
  exact (denotes_counter {}).functional hcounter hcounter'

theorem blank_of_isRecord {c : Char} (hcore : LogLine.core text s) (hcounter : LogLine.counter s t)
    (hfields : Format.chain LogLine.fields t (c :: v)) (h : LogLine.IsRecord text) : c = ' ' := by
  obtain ⟨s', t', u', hcore', hcounter', hformat⟩ := h
  obtain rfl := counter_functional hcore hcounter hcore' hcounter'
  have hpeek := peek_of_fields hfields
  rcases hformat with hvrf | hfrf | hinstruction
  · obtain ⟨x, rfl, -⟩ := hvrf
    cases hpeek
  · obtain ⟨x, rfl, -⟩ := hfrf
    cases hpeek
  · obtain ⟨x, hfields', y, hblank, -⟩ := Format.chain_append.mp hinstruction
    rw [← (denotes_fields {}).functional hfields hfields'] at hblank
    exact (List.cons.inj hblank).1

/-- **A line is not left** unless the operands of an instruction have no blank behind them. -/
theorem staysInLine_iff (h : '\x00' ∉ text) (wanted : ℤ) :
    StaysInLine wanted text ↔ ¬ LogLine.Unguarded wanted text := by
  constructor
  · rintro hstays ⟨hwanted, s, t, u, hcore, hcounter, hfields, hu⟩
    rcases hu with rfl | ⟨c, v, w, rfl, hc, hencoding⟩
    · obtain ⟨w, hrun, hw⟩ :=
        scanLine_overrun {} 0 h hwanted hcore hcounter hfields (text.length + 1)
      have hlook := (hstays 0 {} ['x']).1
      rw [List.length_append, show ('\x00' :: ['x']).length = 2 by rfl, hrun] at hlook
      exact absurd (hw ▸ hlook : ['x'].length ≤ 0) (by decide)
    · obtain ⟨r, hr, hvalid⟩ := scanLine_of_fields {} 0 hwanted hcore hcounter hfields hencoding
      have hopen : ∀ s' t', LogLine.core text s' → LogLine.counter s' t' →
          ¬ Format.chain LogLine.fields t' [] := by
        intro s' t' hcore' hcounter' hfields'
        obtain rfl := counter_functional hcore hcounter hcore' hcounter'
        cases (denotes_fields {}).functional hfields hfields'
      obtain ⟨u', hrun, -⟩ := (staysAt_scanLine {} 0 h fun _ => hopen).run hr []
        (u := (text ++ ['\x00']).length) (Nat.zero_le _)
      have hrecord := (hstays 0 {} []).2 r (by rw [hrun]; rfl) hvalid
      exact hc (blank_of_isRecord hcore hcounter hfields hrecord)
  · intro hguarded l srec more
    have hopen : (wanted = -1 ∨ wanted = (LogLine.coreId text).toNat) → ∀ s t, LogLine.core text s →
        LogLine.counter s t → ¬ Format.chain LogLine.fields t [] :=
      fun hwanted s t hcore hcounter hfields => hguarded ⟨hwanted, s, t, [], hcore, hcounter,
        hfields, .inl rfl⟩
    have hrun := staysAt_scanLine srec l h hopen more (text ++ '\x00' :: more).length
      (by rw [List.length_append, List.length_cons]; omega)
    cases hscan : (scanLine l wanted srec : Scan _) text with
    | none =>
      rw [hscan] at hrun
      obtain ⟨w, hw, hunread⟩ := hrun
      dsimp only
      rw [hw]
      exact ⟨hunread, nofun⟩
    | some x =>
      obtain ⟨r, u⟩ := x
      rw [hscan] at hrun
      obtain ⟨-, n, hok, hunread⟩ := hrun
      dsimp only
      rw [hok]
      refine ⟨hunread, ?_⟩
      rintro _ ⟨⟩ hvalid
      obtain ⟨hwanted, s, t, hcore, hcounter, hformat⟩ := scanLine_eq_some hscan hvalid
      rcases hformat with hvrf | hfrf | ⟨c, v, hfields, hencoding⟩
      · exact ⟨s, t, u, hcore, hcounter, .inl hvrf⟩
      · exact ⟨s, t, u, hcore, hcounter, .inr (.inl hfrf)⟩
      · have hblank : c = ' ' := by
          by_contra hc
          exact hguarded ⟨hwanted, s, t, c :: v, hcore, hcounter, hfields,
            .inr ⟨c, v, u, rfl, hc, hencoding⟩⟩
        refine ⟨s, t, u, hcore, hcounter,
          .inr (.inr (Format.chain_append.mpr ⟨_, hfields, v, ?_, hencoding⟩))⟩
        rw [hblank]
        rfl

def cutLine : List Char :=
  "C0: 1 [1] pc=[0] ".toList ++ "W[r0=0][0] ".toList ++ "R[r0=0] R[r0=0]".toList

theorem staysInLine_cutLine : StaysInLine (-1) cutLine ↔ ¬ LogLine.Unguarded (-1) cutLine :=
  staysInLine_iff (by decide +kernel) (-1)

/-- The instruction is read from the next line. -/
theorem not_staysInLine_cutLine : ¬ StaysInLine (-1) cutLine := by
  intro h
  have hlook := (h 0 {} "inst=[13] DASM(13)".toList).1
  revert hlook
  decide +kernel

end SRec

end TraceDecoder
