import TraceDecoder.Simulator

/-!
# Lines of a simulator log

What a line says does not depend on what the record was before, on the lines that follow in the
buffer and, but for its core, on the core that is wanted.
-/

namespace TraceDecoder

open Scan CString

structure LogRecord where
  coreId : BitVec 8
  pc : ADDRESS
  inst : RV_INST
  deriving DecidableEq, Repr

def LogRecord.Wanted (only : Option (BitVec 8)) (e : LogRecord) : Prop := ∀ c ∈ only, c = e.coreId

instance (only : Option (BitVec 8)) : DecidablePred (LogRecord.Wanted only) := fun e =>
  inferInstanceAs (Decidable (∀ c ∈ only, c = e.coreId))

namespace SRec

def entry (r : SRec) : Option LogRecord :=
  if r.validLine ∧ r.valid then some ⟨r.coreId, r.pc, r.inst⟩ else none

/-- Two records on the way, the second at the line `l`, when the address has been read. -/
structure Abreast (l : ℕ) (coreId : BitVec 8) (a b : SRec) : Prop where
  coreId_left : a.coreId = coreId
  coreId_right : b.coreId = coreId
  pc : a.pc = b.pc
  valid : a.valid = b.valid
  line : b.line = l
  haveFRF : b.haveFRF = false
  haveVRF : b.haveVRF = false

/-- Two records with the same entry, the second at the line `l`. -/
structure Agrees (l : ℕ) (coreId : BitVec 8) (a b : SRec) : Prop where
  entry : a.entry = b.entry
  core : ∀ e ∈ b.entry, e.coreId = coreId
  line : b.line = l
  plain : b.valid = true → b.haveFRF = false ∧ b.haveVRF = false

structure Begun (l : ℕ) (coreId : BitVec 8) (a b : SRec) : Prop where
  coreId_left : a.coreId = coreId
  coreId_right : b.coreId = coreId
  valid_left : a.valid = false
  valid_right : b.valid = false
  line : b.line = l
  haveFRF : b.haveFRF = false
  haveVRF : b.haveVRF = false

theorem entry_of_not_valid {r : SRec} (h : r.valid = false) : r.entry = none := if_neg fun hr => by
  simp [h] at hr

variable {l : ℕ} {coreId : BitVec 8} {a b : SRec}

theorem Agrees.of_not_valid (ha : a.valid = false) (hb : b.valid = false) (hline : b.line = l) :
    Agrees l coreId a b where
  entry := by rw [entry_of_not_valid ha, entry_of_not_valid hb]
  core := by rw [entry_of_not_valid hb]; nofun
  line := hline
  plain h := by rw [hb] at h; cases h

theorem shadows_vrf (h : Begun l coreId a b) : Shadows (Agrees l coreId) (vrf a) (vrf b) := by
  refine (Shadows.keyword (by decide)).step fun _ => (Shadows.expect (by decide)).step
    fun _ => (Shadows.number (by decide)).step fun wReg => (Shadows.expect (by decide)).step
      fun _ => Shadows.skipSpaces.step fun _ => (Shadows.expect (by decide)).step
    fun _ => Shadows.skipSpaces.step fun _ => (Shadows.expect (by decide)).step fun _ => ?_
  refine Shadows.skipTo.step fun _ => (Shadows.expect (by decide)).step
      fun _ => (Shadows.expect (by decide)).step fun _ =>
    Shadows.skipTo.step fun _ => (Shadows.expect (by decide)).step fun _ => Shadows.skipSpaces.step
      fun _ => ?_
  exact .pure (.of_not_valid h.valid_left h.valid_right h.line)

theorem shadows_frf (h : Begun l coreId a b) : Shadows (Agrees l coreId) (frf a) (frf b) := by
  refine (Shadows.keyword (by decide)).step fun _ => (Shadows.expect (by decide)).step
    fun _ => (Shadows.number (by decide)).step fun wReg => (Shadows.expect (by decide)).step
      fun _ => Shadows.skipSpaces.step fun _ => (Shadows.expect (by decide)).step
    fun _ => Shadows.skipSpaces.step fun _ => (Shadows.expect (by decide)).step fun _ => ?_
  refine (Shadows.number (by decide)).step fun _ => (Shadows.expect (by decide)).step
    fun _ => Shadows.skipSpaces.step fun _ => ?_
  exact .pure (.of_not_valid h.valid_left h.valid_right h.line)

theorem shadows_register : Shadows (· = ·) register register :=
  (Shadows.expect (by decide)).step fun _ => (Shadows.expect (by decide)).step
      fun _ => (Shadows.number (by decide)).step fun _ =>
    (Shadows.expect (by decide)).step fun _ => (Shadows.number (by decide)).step
      fun _ => (Shadows.expect (by decide)).step fun _ =>
    .pure rfl

theorem shadows_operand (h : Abreast l coreId a b) (numReads : ℕ) :
    Shadows (fun x y => x.2 = y.2 ∧ Abreast l coreId x.1 y.1) (operand a numReads)
      (operand b numReads) := by
  refine Shadows.skipSpaces.step fun _ => Shadows.look.step fun c => ?_
  by_cases hw : c = 'W'
  · rw [if_pos hw, if_pos hw]
    refine (Shadows.expect (by decide)).step fun _ => shadows_register.step fun reg =>
        (Shadows.expect (by decide)).step fun _ =>
      Shadows.flag.step fun wvf => (Shadows.expect (by decide)).step fun _ => ?_
    exact .pure ⟨rfl, h.coreId_left, h.coreId_right, h.pc, h.valid, h.line, h.haveFRF, h.haveVRF⟩
  rw [if_neg hw, if_neg hw]
  by_cases hr : c = 'R'
  · rw [if_pos hr, if_pos hr]
    refine (Shadows.expect (by decide)).step fun _ => shadows_register.step fun reg =>
      .pure ⟨rfl, ?_⟩
    by_cases hfirst : numReads = 0
    · rw [if_pos hfirst, if_pos hfirst]
      exact ⟨h.coreId_left, h.coreId_right, h.pc, h.valid, h.line, h.haveFRF, h.haveVRF⟩
    · rw [if_neg hfirst, if_neg hfirst]
      exact ⟨h.coreId_left, h.coreId_right, h.pc, h.valid, h.line, h.haveFRF, h.haveVRF⟩
  · rw [if_neg hr, if_neg hr]
    exact .fail

theorem shadows_operands (n : ℕ) (h : Abreast l coreId a b) (numReads : ℕ) :
    Shadows (Abreast l coreId) (operands n a numReads) (operands n b numReads) := by
  induction n generalizing a b numReads with
  | zero => exact .pure h
  | succ n ih =>
    refine (shadows_operand h numReads).bind ?_
    rintro ⟨a, k⟩ ⟨b, k'⟩ ⟨rfl, hab⟩
    exact ih hab k

theorem shadows_fields (h : Begun l coreId a b) :
    Shadows (Abreast l coreId) (fields a) (fields b) := by
  refine (Shadows.expect (by decide)).step fun _ => Shadows.flag.step fun valid =>
      (Shadows.expect (by decide)).step fun _ =>
    Shadows.skipSpaces.step fun _ => (Shadows.keyword (by decide)).step
      fun _ => (Shadows.number (by decide)).step fun pc =>
    (Shadows.expect (by decide)).step fun _ => ?_
  have hbegun : Abreast l coreId { a with valid, pc } { b with valid, pc } :=
    ⟨h.coreId_left, h.coreId_right, rfl, rfl, h.line, h.haveFRF, h.haveVRF⟩
  exact shadows_operands 3 hbegun 0

theorem shadows_instruction (h : Begun l coreId a b) :
    Shadows (Agrees l coreId) (instruction a) (instruction b) := by
  refine (shadows_fields h).bind fun a b hab => .pass_keyword (by decide) (by decide) ?_
  refine (Shadows.number (by decide)).step fun inst => (Shadows.expect (by decide)).step
      fun _ => Shadows.skipSpaces.step fun _ =>
    (Shadows.keyword (by decide)).step fun _ => (Shadows.number (by decide)).step
      fun _ => (Shadows.expect (by decide)).step
    fun _ => Shadows.skipSpaces.step fun _ => .pure ⟨?_, ?_, hab.line, fun _ =>
      ⟨hab.haveFRF, hab.haveVRF⟩⟩
  · simp only [SRec.entry, hab.coreId_left, hab.coreId_right, hab.pc, hab.valid]
  · intro e he
    simp only [SRec.entry, hab.coreId_right] at he
    split_ifs at he
    · cases he
      rfl
    · cases he

theorem shadows_counter (h : Begun l coreId a b) :
    Shadows (Begun l coreId) (counter a) (counter b) :=
  Shadows.skipSpaces.step fun _ => (Shadows.expect (by decide)).step
      fun _ => (Shadows.number (by decide)).step fun _ =>
    Shadows.skipSpaces.step fun _ => .pure ⟨h.coreId_left, h.coreId_right, h.valid_left,
      h.valid_right, h.line, h.haveFRF, h.haveVRF⟩

theorem shadows_body (h : Begun l coreId a b) : Shadows (Agrees l coreId) (body a) (body b) := by
  refine (shadows_counter h).bind fun a b hab => (Shadows.startsWith (by decide)).step
    fun isVrf => ?_
  split_ifs
  · exact shadows_vrf hab
  · refine (Shadows.startsWith (by decide)).step fun isFrf => ?_
    split_ifs
    · exact shadows_frf hab
    · exact shadows_instruction hab

theorem shadows_core : Shadows (· = ·) core core := by
  refine Shadows.skipSpaces.step fun _ => Shadows.look.step fun c => ?_
  split_ifs
  · refine (Shadows.expect (by decide)).step fun _ => Shadows.skipSpaces.step
      fun _ => Shadows.look.step fun d => ?_
    split_ifs
    · exact (Shadows.number (by decide)).step fun _ => .pure rfl
    · exact .pure rfl
  · exact .pure rfl

theorem filter_wanted {x : Option LogRecord} (h : ∀ e ∈ x, e.coreId = coreId)
    (only : Option (BitVec 8)) :
    x.filter (·.Wanted only) = if ∀ c ∈ only, c = coreId then x else none := by
  cases x with
  | none => rw [Option.filter_none, ite_self]
  | some e =>
    rw [Option.filter_some, ← h e rfl]
    by_cases hwanted : e.Wanted only
    · exact (if_pos (decide_eq_true hwanted)).trans (if_pos hwanted).symm
    · exact (if_neg (by simpa using hwanted)).trans (if_neg hwanted).symm

def Parses (text : List Char) (r : SRec) : Prop :=
  ((parseLine 0 none {} text).map Prod.fst) = some r

/-- A line in the buffer says to whoever wants its core what it says on its own. -/
def Says (lp : List Char) (e : Option LogRecord) : Prop :=
  ∀ l only srec, ∃ r rest, parseLine l only srec lp = some (r, rest) ∧ r.line = l ∧
    r.entry = e.filter (·.Wanted only) ∧ (r.valid = true → r.haveFRF = false ∧ r.haveVRF = false)

theorem coreArg_wanted (only : Option (BitVec 8)) (coreId : BitVec 8) :
    (coreArg only ≠ -1 ∧ coreArg only ≠ coreId.toNat) ↔ ¬ ∀ c ∈ only, c = coreId := by
  cases only with
  | none => exact iff_of_false (fun h => h.1 rfl) (not_not.mpr nofun)
  | some c =>
    have hcore : coreArg (some c) = c.toNat := rfl
    rw [hcore]
    constructor
    · intro h hall
      exact h.2 (by rw [hall c rfl])
    · intro h
      refine ⟨by omega, fun heq => h ?_⟩
      rintro _ ⟨⟩
      exact BitVec.eq_of_toNat_eq (Int.ofNat_inj.mp heq)

theorem Parses.inBuffer {text : List Char} {r : SRec} (h : Parses text r) (more : List Char) :
    Says (text ++ '\x00' :: more) r.entry := by
  intro l only srec
  obtain ⟨⟨_, rest⟩, hrun, rfl⟩ := Option.map_eq_some_iff.mp h
  rw [parseLine, scanLine, bind_eq] at hrun
  obtain ⟨⟨found, s⟩, hcore, hrun⟩ := Option.bind_eq_some_iff.mp hrun
  obtain ⟨_, hcore', rfl⟩ := shadows_core text found s more hcore
  rw [parseLine, scanLine, bind_eq, hcore', Option.bind_some]
  cases found with
  | none =>
    cases hrun
    exact ⟨_, _, rfl, rfl, by simp [SRec.entry], nofun⟩
  | some coreId =>
    have hbody : (body { ({} : SRec) with coreId } : Scan SRec) s = some (_, rest) :=
      (congrFun (if_neg fun h => h.1 rfl) s).symm.trans hrun
    obtain ⟨b, hb, hab⟩ := shadows_body (l := l) (a := { ({} : SRec) with coreId })
      (b := { srec with validLine := false, valid := false, line := l, haveFRF := false, haveVRF := false, coreId })
      ⟨rfl, rfl, rfl, rfl, rfl, rfl, rfl⟩ s _ rest more hbody
    rw [hab.entry, filter_wanted hab.core]
    by_cases honly : ∀ c ∈ only, c = coreId
    · have hwanted := mt (coreArg_wanted only coreId).mp (not_not.mpr honly)
      exact ⟨b, _, (congrFun (if_neg hwanted) _).trans hb, hab.line, (if_pos honly).symm, hab.plain⟩
    · have hother := (coreArg_wanted only coreId).mpr honly
      exact ⟨_, _, congrFun (if_pos hother) _, rfl, (entry_of_not_valid rfl).trans
        (if_neg honly).symm, nofun⟩

end SRec

/-! ### The lines of a file -/

namespace Simulator

def fileOf (log : List (List Char)) : List Char := log.flatMap (· ++ ['\n'])

/-- The lines as they are read: without the first character of the first, or without
the first if it is empty. -/
def linesRead : List (List Char) → List (List Char)
  | [] => []
  | [] :: log => log
  | (_ :: text) :: log => text :: log

def pointers : List (List Char) → List (List Char)
  | [] => []
  | text :: log => (text.map strip ++ '\x00' :: (fileOf log).map strip) :: pointers log

theorem fileOf_cons (text : List Char) (log : List (List Char)) :
    fileOf (text :: log) = text ++ '\n' :: fileOf log := by
  rw [fileOf, List.flatMap_cons, List.append_assoc]
  rfl

theorem lineStarts_text {text : List Char} (h : '\n' ∉ text) (f : List Char) :
    lineStarts false (text ++ '\n' :: f) = lineStarts true f := by
  induction text with
  | nil => rfl
  | cons c text ih =>
    have hc : c ≠ '\n' := fun heq => h (heq ▸ List.mem_cons_self)
    rw [List.cons_append, lineStarts, decide_eq_false hc, ih fun hmem =>
      h (List.mem_cons_of_mem _ hmem)]
    rfl

theorem lineStarts_fileOf {log : List (List Char)} (h : ∀ text ∈ log, '\n' ∉ text) :
    lineStarts true (fileOf log) = pointers log := by
  induction log with
  | nil => rfl
  | cons text log ih =>
    have htext := h text List.mem_cons_self
    have hlog := ih fun t ht => h t (List.mem_cons_of_mem _ ht)
    have hfirst : (text ++ '\n' :: fileOf log).map strip = text.map strip ++ '\x00' ::
        (fileOf log).map strip := by
      rw [List.map_append, List.map_cons]
      rfl
    rw [fileOf_cons, pointers, ← hlog, ← hfirst]
    cases text with
    | nil => rfl
    | cons c text =>
      have hc : c ≠ '\n' := fun heq => htext (heq ▸ List.mem_cons_self)
      rw [List.cons_append, lineStarts, decide_eq_false hc,
        lineStarts_text (fun hmem => htext (List.mem_cons_of_mem _ hmem))]
      rfl

theorem length_pointers (log : List (List Char)) : (pointers log).length = log.length := by
  induction log with
  | nil => rfl
  | cons text log ih => rw [pointers, List.length_cons, List.length_cons, ih]

theorem count_fileOf {log : List (List Char)} (h : ∀ text ∈ log, '\n' ∉ text) :
    (fileOf log).count '\n' = log.length := by
  induction log with
  | nil => rfl
  | cons text log ih =>
    rw [fileOf_cons, List.count_append, List.count_cons_self, List.count_eq_zero_of_not_mem
      (h text List.mem_cons_self), ih fun t ht => h t (List.mem_cons_of_mem _ ht), List.length_cons,
        Nat.zero_add]

theorem tail_fileOf (log : List (List Char)) : (fileOf log).tail = fileOf (linesRead log) := by
  match log with
  | [] => rfl
  | [] :: log => rfl
  | (c :: text) :: log => rw [fileOf_cons, linesRead, fileOf_cons]; rfl

theorem length_linesRead (log : List (List Char)) : (linesRead log).length ≤ log.length := by
  match log with
  | [] => exact Nat.le_refl _
  | [] :: log => exact Nat.le_succ _
  | (c :: text) :: log => exact Nat.le_refl _

theorem forall_linesRead {p : List Char → Prop} {log : List (List Char)} (h : ∀ text ∈ log, p text)
    (hfirst : ∀ text ∈ log.head?, p text.tail) : ∀ text ∈ linesRead log, p text := by
  match log with
  | [] => exact h
  | [] :: log => exact fun text htext => h text (List.mem_cons_of_mem _ htext)
  | (c :: text) :: log =>
    intro t ht
    rcases List.mem_cons.mp ht with rfl | ht
    · exact hfirst _ rfl
    · exact h t (List.mem_cons_of_mem _ ht)

theorem readFile_fileOf {log : List (List Char)} (h : ∀ text ∈ log, '\n' ∉ text) :
    readFile (fileOf log) = some (pointers (linesRead log)) := by
  have hread : ∀ text ∈ linesRead log, '\n' ∉ text :=
    forall_linesRead h fun text htext hmem => h text (List.mem_of_mem_head? htext)
      (List.mem_of_mem_tail hmem)
  have hlength := length_linesRead log
  rw [readFile, tail_fileOf, lineStarts_fileOf hread, count_fileOf h, length_pointers,
    if_neg (by omega)]

end Simulator

end TraceDecoder
