import Mathlib.Data.List.Basic
import Mathlib.Data.List.TakeWhile
import TraceDecoder.MappingLines

/-!
# The sections of a mapping file

The result of `parseMappingFile` on a whole text: when it is the list of all executable sections.
-/

namespace TraceDecoder

open CString MapM EStateM

def linesRead : List MapLine → List MapLine
  | [] => []
  | [l] => [l]
  | l :: m :: lines => l :: if l.exec = true ∧ l.pathname = [] then linesRead lines
      else linesRead (m :: lines)

/-- The lines left behind a line: an executable one without a path name takes the next along. -/
def nextLines (l : MapLine) (lines : List MapLine) : List MapLine :=
  if l.exec = true ∧ l.pathname = [] then lines.tail else lines

theorem linesRead_cons (l : MapLine) (lines : List MapLine) :
    linesRead (l :: lines) = l :: linesRead (nextLines l lines) := by
  cases lines with
  | nil => rw [nextLines, List.tail_nil, ite_self]; rfl
  | cons m lines =>
    rw [linesRead, nextLines, List.tail_cons]
    split_ifs <;> rfl

theorem mapText_cons (l : MapLine) (lines : List MapLine) :
    ∃ c cs, mapText (l :: lines) = c :: cs ∧ MapLine.Plain c := by
  obtain ⟨c, cs, heq, hc⟩ :=
    head_digits l.first ('-' :: (l.last.digits ++ ' ' :: (if l.read then 'r' else '-') ::
      (if l.write then 'w' else '-') :: (if l.exec then 'x' else '-') :: l.fieldsThen
      (mapText lines)))
  exact ⟨c, cs, heq, (digit_plain le_rfl hc).2.2, (digit_plain le_rfl hc).2.1⟩

theorem startsLine_mapText (lines : List MapLine) : StartsLine (mapText lines) := by
  cases lines with
  | nil => exact fun c hc => nomatch hc
  | cons l lines =>
    obtain ⟨c, cs, heq, hc⟩ := mapText_cons l lines
    rw [heq]
    rintro d ⟨⟩
    exact hc

/-- The carriage returns of the lines that are not executable stand at the end. -/
def Tidy (lines : List MapLine) : Prop := ∀ l ∈ lines, l.exec = false → ReturnsLast l.pathname

instance : DecidablePred Tidy := fun lines => inferInstanceAs (Decidable (∀ l ∈ lines, _))

structure MapLine.Readable (l : MapLine) : Prop where
  code : l.exec = true → '\r' ∉ l.pathname
  data : l.exec = false → NoNumberBehind l.pathname

theorem MapLine.Readable.noNumberBehind {l : MapLine} (h : l.Readable) :
    NoNumberBehind l.pathname := by
  cases hexec : l.exec with
  | false => exact h.data hexec
  | true =>
    rintro pre c post heq
    exact absurd (heq ▸ List.mem_append_right pre List.mem_cons_self) (h.code hexec)

theorem MapLine.Readable.returnsLast {l : MapLine} (h : l.Readable) (hexec : l.exec = true) :
    ReturnsLast l.pathname := by
  have hdrop : l.pathname.dropWhile (· ≠ '\r') = [] :=
    List.dropWhile_eq_nil_iff.mpr fun c hc => decide_eq_true fun hreturn => h.code hexec
      (hreturn ▸ hc)
  rw [ReturnsLast, hdrop]
  exact List.forall_mem_nil _

theorem MapLine.Readable.skip {l : MapLine} (h : l.Readable) (lines : List MapLine) {xs : List Char}
    (hxs : ∀ c ∈ xs, MapLine.Plain c) (n : ℕ) (am : List AddressMap) :
    if ReturnsLast l.pathname then
      skipLine ⟨xs ++ (l.pathname ++ '\n' :: mapText lines), n, am⟩ = .ok () ⟨mapText lines, n, am⟩
    else ∃ s, skipLine ⟨xs ++ (l.pathname ++ '\n' :: mapText lines), n, am⟩ = .ok () s ∧ Stuck s :=
  skipLine_returns hxs l.pathname_chars h.noNumberBehind (startsLine_mapText lines) n am

def MapLine.sectionsBehind (l : MapLine) (t : MapSettings) (n : ℕ) (am : List AddressMap) :
    Except MapStop (ℕ × List AddressMap) :=
  if l.exec = true then l.codeEntry t >>= fun e => .ok (n + 1, am ++ [e]) else .ok (n, am)

/-- One pass of the main loop: it fails with the entry, or comes to the next line that is read, or
to a text that no line begins with. -/
theorem line_mapText (t : MapSettings) {l : MapLine} {lines : List MapLine}
    (hread : ∀ m ∈ l :: lines, m.Readable) (n : ℕ) (am : List AddressMap) :
    match l.sectionsBehind t n am with
    | .error stop => ∃ s, line t ⟨mapText (l :: lines), n, am⟩ = .error stop s
    | .ok (n', am') => ∃ s, line t ⟨mapText (l :: lines), n, am⟩ = .ok () s ∧
        (s = ⟨mapText (nextLines l lines), n', am'⟩ ∧
          (Tidy (nextLines l lines) ↔ Tidy (l :: lines)) ∨ Stuck s ∧ ¬ Tidy (l :: lines)) := by
  obtain ⟨hl, hlines⟩ := List.forall_mem_cons.mp hread
  have htidy : ∀ {m : MapLine} {ms : List MapLine}, ReturnsLast m.pathname →
      (Tidy ms ↔ Tidy (m :: ms)) :=
    fun hm => by rw [Tidy, Tidy, List.forall_mem_cons, and_iff_right fun _ => hm]
  rw [mapText, nextLines, MapLine.sectionsBehind]
  by_cases hexec : l.exec = true
  · rw [if_pos hexec]
    cases he : l.codeEntry t with
    | error stop => exact l.line_exec_error t _ n am (hl.code hexec) hexec he
    | ok e =>
      by_cases hpath : l.pathname = []
      · rw [if_pos ⟨hexec, hpath⟩]
        cases lines with
        | nil =>
          refine ⟨_, l.line_exec_anonymous t _ n am hexec hpath he,
            .inl ⟨rfl, htidy (hl.returnsLast hexec)⟩⟩
        | cons m lines =>
          obtain ⟨hm, -⟩ := List.forall_mem_cons.mp hlines
          have hskip := hm.skip lines m.body_plain (n + 1) (am ++ [e])
          rw [l.line_exec_anonymous t _ n am hexec hpath he, mapText, m.textThen_eq, List.tail_cons]
          by_cases hlast : ReturnsLast m.pathname
          · rw [if_pos hlast] at hskip
            exact ⟨_, hskip, .inl ⟨rfl, (htidy hlast).trans (htidy (hl.returnsLast hexec))⟩⟩
          · rw [if_neg hlast] at hskip
            obtain ⟨s, hs, hstuck⟩ := hskip
            have hdata : m.exec = false := Bool.eq_false_iff.mpr fun h => hlast (hm.returnsLast h)
            exact ⟨s, hs, .inr ⟨hstuck, fun h => hlast (h m (by simp) hdata)⟩⟩
      · rw [if_neg fun h => hpath h.2]
        exact ⟨_, l.line_exec t _ n am (hl.code hexec) (startsLine_mapText lines) hexec hpath he,
          .inl ⟨rfl, htidy (hl.returnsLast hexec)⟩⟩
  · have hdata : l.exec = false := Bool.eq_false_iff.mpr hexec
    have hplain : ∀ c ∈ '-' :: l.fields, MapLine.Plain c :=
      List.forall_mem_cons.mpr ⟨by decide, l.fields_plain⟩
    have hskip := hl.skip lines hplain n am
    rw [if_neg hexec, if_neg fun h => hexec h.1, l.line_data t _ n am hdata]
    by_cases hlast : ReturnsLast l.pathname
    · rw [if_pos hlast] at hskip
      exact ⟨_, hskip, .inl ⟨rfl, htidy hlast⟩⟩
    · rw [if_neg hlast] at hskip
      obtain ⟨s, hs, hstuck⟩ := hskip
      exact ⟨s, hs, .inr ⟨hstuck, fun h => hlast (h l List.mem_cons_self hdata)⟩⟩

def execLines (lines : List MapLine) : List MapLine := lines.filter (·.exec)

theorem mapText_length (l : MapLine) (lines : List MapLine) :
    (mapText lines).length + 2 ≤ (mapText (l :: lines)).length := by
  have hpos := List.length_pos_iff.mpr l.first.digits_ne
  simp only [mapText, MapLine.textThen_eq, MapLine.body, List.length_append, List.length_cons]
  omega

theorem nextLines_sublist (l : MapLine) (lines : List MapLine) :
    (nextLines l lines).Sublist lines := by
  rw [nextLines]
  split_ifs
  · exact List.tail_sublist lines
  · exact List.Sublist.refl lines

theorem mapText_nextLines (l : MapLine) (lines : List MapLine) :
    (mapText (nextLines l lines)).length ≤ (mapText lines).length := by
  rw [nextLines]
  split_ifs
  · cases lines with
    | nil => exact le_rfl
    | cons m lines => exact (Nat.le_add_right _ 2).trans (mapText_length m lines)
  · exact le_rfl

/-- The run over all lines: if the carriage returns stand at the end and each executable line that
is read gives an entry, these are the result; otherwise the run fails. -/
theorem lines_run (t : MapSettings) {lines : List MapLine} (hread : ∀ l ∈ lines, l.Readable)
    {fuel : ℕ} (hfuel : (mapText lines).length ≤ fuel) (n : ℕ) (am : List AddressMap) :
    (Tidy lines ∧ ∃ es : List AddressMap, (execLines (linesRead lines)).map (·.codeEntry t) =
      es.map .ok ∧
      MapM.lines t fuel ⟨mapText lines, n, am⟩ = .ok () ⟨[], n + es.length, am ++ es⟩) ∨
      (¬ Tidy lines ∨ ∃ stop, .error stop ∈ (execLines (linesRead lines)).map (·.codeEntry t)) ∧
        ∃ stop s, MapM.lines t fuel ⟨mapText lines, n, am⟩ = .error stop s := by
  induction fuel generalizing lines n am with
  | zero =>
    cases lines with
    | nil => exact .inl ⟨List.forall_mem_nil _, [], rfl, by rw [List.append_nil]; rfl⟩
    | cons l lines => exact absurd ((mapText_length l lines).trans hfuel) (by omega)
  | succ fuel ih =>
    cases lines with
    | nil => exact .inl ⟨List.forall_mem_nil _, [], rfl, by rw [List.append_nil]; rfl⟩
    | cons l lines =>
      have hstep := line_mapText t hread n am
      have hlength := (mapText_length l lines).trans hfuel
      have hlen : (mapText (nextLines l lines)).length ≤ fuel :=
        (mapText_nextLines l lines).trans (by omega)
      have hread' : ∀ m ∈ nextLines l lines, m.Readable := fun m hm =>
        hread m (List.mem_cons_of_mem l ((nextLines_sublist l lines).subset hm))
      have hmore : MapM.lines t (fuel + 1) ⟨mapText (l :: lines), n, am⟩ =
          (line t >>= fun _ => MapM.lines t fuel) ⟨mapText (l :: lines), n, am⟩ := by
        obtain ⟨c, cs, heq, hc⟩ := mapText_cons l lines
        refine if_neg ?_
        rw [heq]
        exact hc.2
      -- behind a text that no line begins with there is a pass left
      have hstuck : ∀ s, Stuck s → ∃ s', MapM.lines t fuel s = .error .err s' := by
        obtain ⟨k, rfl⟩ : ∃ k, fuel = k + 1 := ⟨fuel - 1, by omega⟩
        exact fun s hs => ⟨s, hs.lines t k⟩
      have hexecLines : execLines (l :: linesRead (nextLines l lines)) =
          if l.exec = true then l :: execLines (linesRead (nextLines l lines))
          else execLines (linesRead (nextLines l lines)) := List.filter_cons
      rw [hmore, linesRead_cons, hexecLines]
      by_cases hexec : l.exec = true
      · rw [MapLine.sectionsBehind, if_pos hexec] at hstep
        rw [if_pos hexec, List.map_cons]
        cases he : l.codeEntry t with
        | error stop =>
          rw [he] at hstep
          obtain ⟨s, hs⟩ := hstep
          exact .inr ⟨.inr ⟨stop, List.mem_cons_self⟩, stop, s, bind_error hs⟩
        | ok e =>
          rw [he] at hstep
          obtain ⟨s, hs, ⟨rfl, htidy⟩ | ⟨hs', htidy⟩⟩ := hstep
          · rw [bind_ok hs, ← htidy]
            rcases ih hread' hlen (n + 1) (am ++ [e]) with ⟨hnext, es, hes, hrun⟩ | ⟨hwhy, hrun⟩
            · refine .inl ⟨hnext, e :: es, by rw [List.map_cons, ← hes], ?_⟩
              rw [hrun, List.length_cons, List.append_assoc, List.singleton_append]
              congr 2
              omega
            · exact .inr ⟨hwhy.imp_right fun ⟨stop, hstop⟩ => ⟨stop, List.mem_cons_of_mem _ hstop⟩,
                hrun⟩
          · obtain ⟨s', hfail⟩ := hstuck s hs'
            exact .inr ⟨.inl htidy, .err, s', by rw [bind_ok hs, hfail]⟩
      · rw [MapLine.sectionsBehind, if_neg hexec] at hstep
        rw [if_neg hexec]
        obtain ⟨s, hs, ⟨rfl, htidy⟩ | ⟨hs', htidy⟩⟩ := hstep
        · rw [bind_ok hs, ← htidy]
          exact ih hread' hlen n am
        · obtain ⟨s', hfail⟩ := hstuck s hs'
          exact .inr ⟨.inl htidy, .err, s', by rw [bind_ok hs, hfail]⟩

/-! ### Lines that are lost -/

theorem linesRead_sublist (lines : List MapLine) : (linesRead lines).Sublist lines := by
  fun_induction linesRead lines with
  | case1 => exact .slnil
  | case2 l => exact .refl _
  | case3 l m lines ihSkip ihNext =>
    split_ifs
    · exact (ihSkip.cons m).cons_cons l
    · exact ihNext.cons_cons l

/-- No executable line stands behind an executable one without a path name. -/
def NoneLost (lines : List MapLine) : Prop :=
  lines.IsChain fun l m => l.exec = true → l.pathname = [] → m.exec = false

theorem noneLost_cons_of_data {m : MapLine} {lines : List MapLine} (hm : m.exec = false) :
    NoneLost (m :: lines) ↔ NoneLost lines := by
  cases lines with
  | nil => exact iff_of_true (.singleton m) .nil
  | cons l lines =>
    rw [NoneLost, List.isChain_cons_cons]
    exact and_iff_right fun h => absurd h (by rw [hm]; decide)

theorem execLines_cons (l : MapLine) (lines : List MapLine) :
    execLines (l :: lines) = if l.exec = true then l :: execLines lines else execLines lines :=
  List.filter_cons

theorem execLines_cons_inj (l : MapLine) (xs ys : List MapLine) :
    execLines (l :: xs) = execLines (l :: ys) ↔ execLines xs = execLines ys := by
  rw [execLines_cons, execLines_cons]
  split_ifs
  · rw [List.cons.injEq, and_iff_right rfl]
  · rfl

/-- All executable lines are read exactly if none is lost. -/
theorem execLines_linesRead_iff (lines : List MapLine) :
    execLines (linesRead lines) = execLines lines ↔ NoneLost lines := by
  fun_induction linesRead lines with
  | case1 => exact iff_of_true rfl .nil
  | case2 l => exact iff_of_true rfl (.singleton l)
  | case3 l m lines ihSkip ihNext =>
    rw [execLines_cons_inj, NoneLost, List.isChain_cons_cons]
    by_cases hskip : l.exec = true ∧ l.pathname = []
    · rw [if_pos hskip, execLines_cons m]
      by_cases hm : m.exec = true
      · have hle := ((linesRead_sublist lines).filter (·.exec)).length_le
        rw [if_pos hm]
        refine iff_of_false (fun heq => ?_) fun h => ?_
        · have hlen := congrArg List.length heq
          rw [List.length_cons] at hlen
          exact absurd hlen (Nat.ne_of_lt (Nat.lt_succ_of_le hle))
        · exact absurd hm (by rw [h.1 hskip.1 hskip.2]; decide)
      · have hdata : m.exec = false := Bool.eq_false_iff.mpr hm
        rw [if_neg hm, ihSkip, ← noneLost_cons_of_data hdata]
        exact (and_iff_right fun _ _ => hdata).symm
    · rw [if_neg hskip, ihNext]
      exact (and_iff_right fun hexec hpath => absurd ⟨hexec, hpath⟩ hskip).symm

/-! ### Path names that are cut off -/

theorem addressMap_some {t : MapSettings} {name : List Char} {a b : ADDRESS} {e : AddressMap}
    (h : addressMap t name a b = some e) :
    (e.isBlob = true ↔ IsVdso name) ∧ (¬ IsVdso name → e.efName = name) := by
  unfold addressMap at h
  split_ifs at h with hvdso h32 h64 <;> obtain rfl := Option.some.inj h <;> simp [hvdso]

theorem not_isVdso {pre path : List Char} {c : Char}
    (hc : c.toLower ∉ ['[', 'v', 'd', 's', 'o', ']']) (h : c ∈ path) :
    ¬ IsVdso (pre ++ path) := by
  intro hvdso
  have hmem : c.toLower ∈ (pre ++ path).map Char.toLower :=
    List.mem_map_of_mem (List.mem_append_right pre h)
  rw [hvdso] at hmem
  exact hc hmem

theorem entryOf_ok {t : MapSettings} {name : List Char} {a b : ADDRESS} {e : AddressMap} :
    entryOf t name a b = .ok e ↔ ¬ Overruns t name ∧ addressMap t name a b = some e := by
  unfold entryOf
  split_ifs with hover
  · exact iff_of_false (fun h => nomatch h) fun h => h.1 hover
  · rw [and_iff_right hover]
    cases addressMap t name a b with
    | none => exact iff_of_false (fun h => nomatch h) fun h => nomatch h
    | some e' =>
      exact ⟨fun h => congrArg some (Except.ok.inj h), fun h => congrArg Except.ok
        (Option.some.inj h)⟩

theorem MapLine.isVdso_name (l : MapLine) : IsVdso l.name ↔ IsVdso l.pathname := by
  rw [MapLine.name]
  split_ifs with hslash
  · refine iff_of_false (fun h => absurd (List.cons.inj h).1 (by decide)) fun h => ?_
    cases hpath : l.pathname with
    | nil => rw [hpath] at h; exact absurd h (by decide)
    | cons c cs =>
      rw [hpath] at h hslash
      obtain rfl : c = '/' := hslash
      exact absurd (List.cons.inj h).1 (by decide)
  · rfl

/-- The path name fits with the `.` in front of it. -/
theorem MapLine.overruns_name {t : MapSettings} (l : MapLine) :
    Overruns t l.name ↔ IsVdso l.pathname ∧ ∃ vdsoName ∈ t.vdsoName, pathNameSize ≤
      vdsoName.length := by
  have hlength : l.name.length < pathNameSize := by
    have hpath := l.pathname_length
    rw [MapLine.name, List.length_append, pathNameSize]
    split_ifs
    · rw [List.length_singleton]
      omega
    · rw [List.length_nil]
      omega
  rw [Overruns, l.isVdso_name]
  exact or_iff_right (Nat.not_le.mpr hlength)

def MapLine.VdsoFits (t : MapSettings) (l : MapLine) : Prop :=
  IsVdso l.pathname → ∀ vdsoName ∈ t.vdsoName, vdsoName.length < pathNameSize

theorem MapLine.vdsoFits_iff {t : MapSettings} {l : MapLine} :
    l.VdsoFits t ↔ ¬ Overruns t l.name := by
  rw [l.overruns_name, MapLine.VdsoFits]
  simp only [not_and, not_exists, Nat.not_le]

theorem MapLine.codeEntry_eq_iff {t : MapSettings} {l : MapLine} {e : AddressMap}
    (he : l.entry t = some e) :
    l.codeEntry t = .ok e ↔ '0' ∉ l.pathname ∧ l.VdsoFits t := by
  have hcut : '0' ∉ l.pathname → l.cutName = l.name := by
    intro hzero
    have hwhole : l.pathname.takeWhile (· ≠ '0') = l.pathname :=
      List.takeWhile_eq_self_iff.mpr fun c hc => decide_eq_true fun h => hzero (h ▸ hc)
    rw [MapLine.cutName, MapLine.name, hwhole]
  rw [MapLine.codeEntry, entryOf_ok, MapLine.vdsoFits_iff]
  rw [MapLine.entry] at he
  constructor
  · rintro ⟨hover, hcode⟩
    have hzero : '0' ∉ l.pathname := by
      intro hzero
      have hvdso : ¬ IsVdso l.name := not_isVdso (by decide) hzero
      have hname := (addressMap_some he).2 hvdso
      have hblob := mt (addressMap_some he).1.mp hvdso
      have hkept := (addressMap_some hcode).2 (mt (addressMap_some hcode).1.mpr hblob)
      have hsame := List.append_cancel_left (hname.symm.trans hkept)
      exact absurd (List.takeWhile_eq_self_iff.mp hsame.symm '0' hzero) (by decide)
    rw [hcut hzero] at hover
    exact ⟨hzero, hover⟩
  · rintro ⟨hzero, hover⟩
    rw [hcut hzero]
    exact ⟨hover, he⟩

def NamesCut (s : MapParser) : Prop :=
  ∀ e ∈ s.am, e.isBlob = false → '0' ∉ e.efName ∧ '\r' ∉ e.efName

theorem pathNameAt_cut (start : List Char) : '0' ∉ pathNameAt start ∧ '\r' ∉ pathNameAt start := by
  have hpre : ∀ c ∈ (if peek start = '/' then ['.'] else []), c = '.' := by
    split_ifs
    · exact List.forall_mem_singleton.mpr rfl
    · exact List.forall_mem_nil _
  have hchars : ∀ c ∈ pathNameAt start, c ≠ '0' ∧ c ≠ '\r' := by
    intro c hc
    rcases List.mem_append.mp hc with hc | hc
    · rw [hpre c hc]
      decide
    · have hstop := List.mem_takeWhile_imp hc
      rw [decide_eq_true_eq] at hstop
      exact ⟨hstop.2, fun h => hstop.1 (.inr h)⟩
  exact ⟨fun h => (hchars _ h).1 rfl, fun h => (hchars _ h).2 rfl⟩

theorem keeps_number (base : ℕ) : Keeps NamesCut (number base) := by
  intro s hs
  unfold number
  dsimp only
  split_ifs
  · exact hs
  · exact hs

theorem keeps_expect (p : Char → Prop) [DecidablePred p] : Keeps NamesCut (expect p) := by
  intro s hs
  rw [expect]
  split_ifs
  · exact hs
  · exact hs

theorem keeps_skipTo (p : Char → Prop) [DecidablePred p] : Keeps NamesCut (skipTo p) :=
  Keeps.modify fun _ h => h

theorem keeps_skipWhile (p : Char → Prop) [DecidablePred p] : Keeps NamesCut (skipWhile p) :=
  Keeps.modify fun _ h => h

theorem keeps_requireMore : Keeps NamesCut requireMore := by
  intro s hs
  rw [requireMore]
  split_ifs
  · exact hs
  · exact hs

theorem keeps_addEntry (t : MapSettings) (a b : ADDRESS) : Keeps NamesCut (addEntry t a b) := by
  intro s hs
  rw [addEntry]
  cases he : entryOf t (pathNameAt s.start) a b with
  | error stop => exact hs
  | ok e =>
    intro e' he'
    rcases List.mem_append.mp he' with he' | he'
    · exact hs e' he'
    · obtain rfl := List.mem_singleton.mp he'
      intro hblob
      have hname := addressMap_some (entryOf_ok.mp he).2
      rw [hname.2 (mt hname.1.mpr (by rw [hblob]; decide))]
      exact pathNameAt_cut s.start

theorem keeps_codeSection (t : MapSettings) (a b : ADDRESS) : Keeps NamesCut (codeSection t a b) :=
  .bind (.modify fun _ h => h) fun _ => .bind (keeps_skipTo _) fun _ => .bind (keeps_skipWhile _)
      fun _ =>
    .bind keeps_requireMore fun _ => .bind (keeps_number 16) fun _ => .bind (keeps_skipWhile _)
      fun _ =>
    .bind keeps_requireMore fun _ => .bind (keeps_skipTo _) fun _ => .bind keeps_requireMore
      fun _ =>
    .bind (.modify fun _ h => h) fun _ => .bind (keeps_number 10) fun _ => .bind (keeps_skipWhile _)
      fun _ =>
    .bind keeps_requireMore fun _ => .bind (keeps_addEntry t a b) fun _ => .modify fun s h => by
      split_ifs
      · exact h
      · exact h

theorem keeps_line (t : MapSettings) : Keeps NamesCut (line t) :=
  .bind (keeps_number 16) fun _ => .bind (keeps_expect _) fun _ => .bind (keeps_number 16) fun _ =>
    .bind (keeps_expect _) fun _ => .bind (keeps_expect _) fun _ => .bind (keeps_expect _) fun _ =>
    .bind (fun _ h => h) fun _ => .bind (.onlyIf fun _ => keeps_codeSection t _ _) fun _ =>
    .bind (keeps_skipTo _) fun _ => keeps_skipWhile _

theorem keeps_lines (t : MapSettings) (fuel : ℕ) : Keeps NamesCut (MapM.lines t fuel) := by
  induction fuel with
  | zero => exact .pure
  | succ fuel ih =>
    intro s hs
    have hstep : MapM.lines t (fuel + 1) s =
        if peek s.start = '\x00' then .ok () s else (line t >>= fun _ => MapM.lines t fuel) s := rfl
    by_cases hend : peek s.start = '\x00'
    · rw [hstep, if_pos hend]
      exact hs
    · rw [hstep, if_neg hend]
      exact Keeps.bind (keeps_line t) (fun _ => ih) s hs

/-- No name that is read from a file, whatever its text, contains a digit 0 or a carriage return. -/
theorem parseMappingFile_cut (t : MapSettings) (text : Option (List Char)) (codeSections : ℕ) :
    ∀ r ∈ parseMappingFile t text codeSections, ∀ e ∈ r.2.2, e.isBlob = false → '0' ∉ e.efName ∧
      '\r' ∉ e.efName := by
  cases text with
  | none =>
    rintro r ⟨⟩
    exact List.forall_mem_nil _
  | some text =>
    have hrun := keeps_lines t text.length ⟨text.dropWhile fun c => IsNewline c ∨ c = ' ', 0, []⟩
      (List.forall_mem_nil _)
    rw [parseMappingFile]
    cases hlines : MapM.lines t text.length ⟨text.dropWhile fun c => IsNewline c ∨ c =
      ' ', 0, []⟩ with
    | ok _ s =>
      rw [hlines] at hrun
      rintro r ⟨⟩
      exact hrun
    | error stop s =>
      rw [hlines] at hrun
      cases stop with
      | err =>
        rintro r ⟨⟩
        exact hrun
      | overrun => exact fun r hr => nomatch hr

/-! ### All texts -/

/-- The architecture size is one that is known, and not left open if there is a vdso. -/
structure ArchKnown (t : MapSettings) (lines : List MapLine) : Prop where
  size : t.archSize = 0 ∨ t.archSize = 32 ∨ t.archSize = 64
  vdso : ∀ l ∈ lines, IsVdso l.pathname → t.archSize ≠ 0

theorem ArchKnown.entry {t : MapSettings} {lines : List MapLine} (h : ArchKnown t lines)
    {l : MapLine} (hl : l ∈ lines) : ∃ e, l.entry t = some e := by
  have hsize := h.size
  rw [MapLine.entry, addressMap]
  by_cases hv : IsVdso l.name
  · have h0 := h.vdso l hl (l.isVdso_name.mp hv)
    rw [if_pos hv]
    split_ifs with h32 h64
    · exact ⟨_, rfl⟩
    · exact ⟨_, rfl⟩
    · omega
  · rw [if_neg hv]
    split_ifs with h32 h64
    · exact ⟨_, rfl⟩
    · exact ⟨_, rfl⟩
    · omega

theorem codeEntries_eq_iff (t : MapSettings) {ls : List MapLine}
    (h : ∀ l ∈ ls, ∃ e, l.entry t = some e) :
    ls.map (·.codeEntry t) = (ls.filterMap (·.entry t)).map .ok ↔ ∀ l ∈ ls, '0' ∉ l.pathname ∧
      l.VdsoFits t := by
  induction ls with
  | nil => exact iff_of_true rfl (List.forall_mem_nil _)
  | cons l ls ih =>
    obtain ⟨⟨e, he⟩, hls⟩ := List.forall_mem_cons.mp h
    have hfilter : (l :: ls).filterMap (·.entry t) = e :: ls.filterMap (·.entry t) :=
      List.filterMap_cons_some he
    rw [hfilter, List.map_cons, List.map_cons, List.cons.injEq, MapLine.codeEntry_eq_iff he, ih hls,
      List.forall_mem_cons]

theorem parseMappingFile_eq (t : MapSettings) (lines : List MapLine) (codeSections : ℕ) :
    parseMappingFile t (some (mapText lines)) codeSections =
      match MapM.lines t (mapText lines).length ⟨mapText lines, 0, []⟩ with
      | .ok _ s => some (.ok, s.codeSections, s.am)
      | .error .err s => some (.err, s.codeSections, s.am)
      | .error .overrun _ => none := by
  have hstart : (mapText lines).dropWhile (fun c => IsNewline c ∨ c = ' ') = mapText lines := by
    cases lines with
    | nil => rfl
    | cons l lines =>
      obtain ⟨c, cs, heq, hc⟩ := head_digits l.first ('-' :: (l.last.digits ++ ' ' ::
        (if l.read then 'r' else '-') :: (if l.write then 'w' else '-') :: (if l.exec then 'x'
          else '-') :: l.fieldsThen (mapText lines)))
      rw [mapText, MapLine.textThen, heq, List.dropWhile_cons_of_neg]
      have hplain := digit_plain le_rfl hc
      simpa using ⟨hplain.2.2, hplain.1⟩
  cases hrun : MapM.lines t (mapText lines).length ⟨mapText lines, 0, []⟩ with
  | ok _ s => simp only [parseMappingFile, hstart, hrun]
  | error stop s => cases stop <;> simp only [parseMappingFile, hstart, hrun]

/-- What the code makes of a list of lines if it finds all executable sections. -/
def AllSections (t : MapSettings) (lines : List MapLine) : DQErr × ℕ × List AddressMap :=
  (.ok, (execLines lines).length, (execLines lines).filterMap (·.entry t))

/-- No path name is cut off or written outside of `pathName`, and no line is lost or made up. -/
structure SectionsKept (t : MapSettings) (lines : List MapLine) : Prop where
  whole : ∀ l ∈ execLines lines, '0' ∉ l.pathname ∧ '\r' ∉ l.pathname
  vdso : ∀ l ∈ execLines lines, l.VdsoFits t
  noneLost : NoneLost lines
  tidy : Tidy lines

/-- Where no path name of an executable section contains a carriage return. -/
theorem parseMappingFile_readable_iff {t : MapSettings} {lines : List MapLine}
    (harch : ArchKnown t lines) (hread : ∀ l ∈ lines, l.Readable) (codeSections : ℕ) :
    parseMappingFile t (some (mapText lines)) codeSections = some (AllSections t lines) ↔
      (∀ l ∈ execLines lines, '0' ∉ l.pathname ∧ l.VdsoFits t) ∧ NoneLost lines ∧ Tidy lines := by
  have hentry : ∀ l ∈ execLines lines, ∃ e, l.entry t = some e :=
    fun l hl => harch.entry (List.mem_filter.mp hl).1
  have hcode := codeEntries_eq_iff t hentry
  rw [parseMappingFile_eq, ← execLines_linesRead_iff, ← hcode]
  rcases lines_run t hread le_rfl 0 [] with ⟨htidy, es, hes, hrun⟩ | ⟨hwhy, stop, s, hrun⟩
  · rw [hrun]
    simp only [List.nil_append, Nat.zero_add, Option.some.injEq, AllSections, Prod.mk.injEq,
      true_and]
    have hlen := congrArg List.length hes
    rw [List.length_map, List.length_map] at hlen
    constructor
    · rintro ⟨hcount, rfl⟩
      have hall : execLines (linesRead lines) = execLines lines :=
        ((linesRead_sublist lines).filter _).eq_of_length (hlen.trans hcount)
      rw [hall] at hes
      exact ⟨hes, hall, htidy⟩
    · rintro ⟨hwhole, hall, -⟩
      rw [hall] at hes hlen
      exact ⟨hlen.symm, List.map_injective_iff.mpr (fun _ _ h => Except.ok.inj h)
        (hes.symm.trans hwhole)⟩
  · rw [hrun]
    refine iff_of_false (fun h => ?_) fun ⟨hwhole, hall, htidy⟩ => ?_
    · cases stop with
      | err => exact absurd (congrArg (Option.map Prod.fst) h) (by simp [AllSections])
      | overrun => cases h
    · obtain ⟨stop', hstop⟩ := hwhy.resolve_left fun h => h htidy
      rw [hall, hwhole] at hstop
      obtain ⟨e, -, he⟩ := List.mem_map.mp hstop
      cases he

/-- **Mapping files.** All executable sections are found, with their whole path names, if no path
name of one contains the digit 0 or a carriage return, the name of the vdso fits, none stands behind
one without a path name, and the carriage returns of the other lines stand at their ends. No other
text gives them, unless a number begins behind a carriage return of such a line. -/
theorem parseMappingFile_sections {t : MapSettings} {lines : List MapLine}
    (harch : ArchKnown t lines) (codeSections : ℕ) :
    (SectionsKept t lines →
        parseMappingFile t (some (mapText lines)) codeSections = some (AllSections t lines)) ∧
      ((∀ l ∈ lines, l.exec = false → NoNumberBehind l.pathname) →
        parseMappingFile t (some (mapText lines)) codeSections = some (AllSections t lines) →
        SectionsKept t lines) := by
  have hexec : ∀ {l}, l ∈ lines → l.exec = true → l ∈ execLines lines :=
    fun hl h => List.mem_filter.mpr ⟨hl, h⟩
  constructor
  · rintro ⟨hwhole, hvdso, hlost, htidy⟩
    have hread : ∀ l ∈ lines, l.Readable := fun l hl =>
      ⟨fun h => (hwhole l (hexec hl h)).2, fun h => (htidy l hl h).noNumberBehind⟩
    exact (parseMappingFile_readable_iff harch hread codeSections).mpr
      ⟨fun l hl => ⟨(hwhole l hl).1, hvdso l hl⟩, hlost, htidy⟩
  · intro hbehind heq
    -- no name with a carriage return is ever kept
    have hreturn : ∀ l ∈ execLines lines, '\r' ∉ l.pathname := by
      intro l hl hmem
      obtain ⟨e, he⟩ := harch.entry (List.mem_filter.mp hl).1
      have hvdso : ¬ IsVdso l.name := not_isVdso (by decide) hmem
      have hname : e.efName = l.name := (addressMap_some he).2 hvdso
      have hblob : e.isBlob = false := Bool.eq_false_iff.mpr (mt (addressMap_some he).1.mp hvdso)
      have hkept : e ∈ (AllSections t lines).2.2 := List.mem_filterMap.mpr ⟨l, hl, he⟩
      have hcut := parseMappingFile_cut t (some (mapText lines)) codeSections _ heq e hkept hblob
      exact hcut.2 (by rw [hname]; exact List.mem_append_right _ hmem)
    have hread : ∀ l ∈ lines, l.Readable :=
      fun l hl => ⟨fun h => hreturn l (hexec hl h), hbehind l hl⟩
    obtain ⟨hwhole, hlost, htidy⟩ := (parseMappingFile_readable_iff harch hread codeSections).mp heq
    exact ⟨fun l hl => ⟨(hwhole l hl).1, hreturn l hl⟩, fun l hl => (hwhole l hl).2, hlost, htidy⟩

def MapLine.mapped (exec : Bool) (path : List Char)
    (hpath : path.all (fun c => c ≠ '\n' ∧ c ≠ '\x00') ∧
    path.head? ≠ some ' ' ∧ path.length < 1000) : MapLine where
  first := ⟨['1'], List.cons_ne_nil _ _, List.forall_mem_singleton.mpr (by decide)⟩
  last := ⟨['2'], List.cons_ne_nil _ _, List.forall_mem_singleton.mpr (by decide)⟩
  read := true
  write := false
  exec := exec
  shared := false
  offset := ⟨['0'], List.cons_ne_nil _ _, List.forall_mem_singleton.mpr (by decide)⟩
  major := ⟨['8'], List.cons_ne_nil _ _, List.forall_mem_singleton.mpr (by decide)⟩
  minor := ⟨['1'], List.cons_ne_nil _ _, List.forall_mem_singleton.mpr (by decide)⟩
  inode := ⟨['5'], List.cons_ne_nil _ _, List.forall_mem_singleton.mpr (by decide)⟩
  padding := 1
  pathname := path
  first_lt := by decide
  last_lt := by decide
  pathname_chars := fun c hc => of_decide_eq_true (List.all_eq_true.mp hpath.1 c hc)
  pathname_start := fun c hc hblank => hpath.2.1 (hblank ▸ hc)
  pathname_padding := fun _ => Nat.one_pos
  pathname_length := hpath.2.2

/-- A library, a line that is not executable with a carriage return at its end, the vdso and a
section without a path name. -/
theorem parseMappingFile_sections_mixed :
    let lines : List MapLine := [.mapped true ['/', 'l', 'i', 'b'] (by decide),
      .mapped false ['/', 'd', '0', '\r'] (by decide), .mapped true ['[', 'v', 'd', 's', 'o', ']']
        (by decide),
      .mapped true [] (by decide), .mapped false ['[', 'h', 'e', 'a', 'p', ']'] (by decide)]
    parseMappingFile ⟨64, some ['v']⟩ (some (mapText lines)) 0 =
      some (.ok, 3, [⟨['.', '/', 'l', 'i', 'b'], .little64, false, 1, 2⟩,
        ⟨['v'], .binary64, true, 1, 2⟩, ⟨[], .little64, false, 1, 2⟩]) := by
  intro lines
  have harch : ArchKnown ⟨64, some ['v']⟩ lines :=
    ⟨.inr (.inr rfl), fun _ _ _ => Nat.succ_ne_zero 63⟩
  have hkept : SectionsKept ⟨64, some ['v']⟩ lines := by
    refine ⟨by decide, fun l hl hvdso name hname => ?_, ?_, ?_⟩
    · obtain rfl := Option.some.inj hname
      decide
    · exact .cons_cons (fun _ h => absurd h (by decide)) (.cons_cons (fun h => absurd h (by decide))
        (.cons_cons (fun _ h => absurd h (by decide)) (.cons_cons (fun _ _ => rfl) (.singleton _))))
    · decide
  exact (parseMappingFile_sections harch 0).1 hkept

/-- The name of `/a0b` ends at the digit, and behind a section without a
name the next one is lost. -/
theorem parseMappingFile_name_cut :
    let t : MapSettings := ⟨64, none⟩
    let zero := MapLine.mapped true ['/', 'a', '0', 'b'] (by decide)
    let anonymous := MapLine.mapped true [] (by decide)
    let lib := MapLine.mapped true ['/', 'a'] (by decide)
    zero.entry t = some ⟨['.', '/', 'a', '0', 'b'], .little64, false, 1, 2⟩ ∧
      parseMappingFile t (some (mapText [zero])) 0 =
        some (.ok, 1, [⟨['.', '/', 'a'], .little64, false, 1, 2⟩]) ∧
      (execLines [anonymous, lib]).length = 2 ∧
      parseMappingFile t (some (mapText [anonymous, lib])) 0 =
        some (.ok, 1, [⟨[], .little64, false, 1, 2⟩]) := by
  decide +kernel

end TraceDecoder
