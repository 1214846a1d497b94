import Mathlib.Data.List.TakeWhile
import TraceDecoder.Basic
import TraceDecoder.Lib.CStrings

/-!
# The list of processes

`Trace::buildMFProcesses` on a list of process ids, each with the name of a mapping file. From the
second pair on it looks for the name at an index that counts from the start of the pair, as if it
counted from the start of the list.
-/

namespace TraceDecoder

open CString

/-- A call of `buildProcess` for `processes[index]`. -/
structure BuildCall where
  index : ℕ
  pid : ℤ
  mapFileName : List Char
  deriving DecidableEq, Repr

/-- `(int)x` of a `long long`. -/
def intOfInt64 (x : ℤ) : ℤ := (BitVec.ofInt 32 x).toInt

/-- The characters copied to `mapFileName`; the size of the buffer is not checked. -/
def mapFileNameAt (nameList : List Char) (startIndex : ℕ) : List Char :=
  (nameList.drop startIndex).takeWhile fun c => c ≠ ';' ∧ c ≠ '\x00'

/-- The loop over the pairs with `n` of them to go. `buildProcess` is known
by the code it returns. -/
def buildPairs (nameList : List Char) (buildProcess : ℕ → ℤ → List Char → DQErr) :
    ℕ → ℕ → ℕ → DQErr × List BuildCall
  | 0, _, _ => (.ok, [])
  | n + 1, i, startIndex =>
    let (value, endPtr) := strtoll 10 (nameList.drop startIndex)
    if peek endPtr ≠ ',' then (.err, [])
    else
      let pid := intOfInt64 value
      let endIndex := (nameList.drop startIndex).length - endPtr.length
      let startIndex := endIndex + 1
      let mapFileName := mapFileNameAt nameList startIndex
      let endIndex := startIndex + mapFileName.length
      if startIndex = endIndex then (.err, [])
      else if buildProcess i pid mapFileName ≠ .ok then (.err, [⟨i, pid, mapFileName⟩])
      else
        let startIndex := if peek (nameList.drop endIndex) ≠ '\x00' then endIndex + 1 else endIndex
        let (rc, calls) := buildPairs nameList buildProcess n (i + 1) startIndex
        (rc, ⟨i, pid, mapFileName⟩ :: calls)

/-- `haveProcesses` if the array has been created before. -/
def buildMFProcesses (haveProcesses : Bool) (nameList : Option (List Char))
    (buildProcess : ℕ → ℤ → List Char → DQErr) : DQErr × List BuildCall :=
  if haveProcesses then (.err, [])
  else
    match nameList with
    | none => (.err, [])
    | some nameList =>
      let numProcesses := (nameList.takeWhile (· ≠ '\x00')).count ','
      if numProcesses = 0 then (.err, []) else buildPairs nameList buildProcess numProcesses 0 0

/-! ### Lists of pairs -/

structure PidFile where
  number : Numeral 10
  file : List Char
  file_ne : file ≠ []
  file_chars : ∀ c ∈ file, c ≠ ',' ∧ c ≠ ';' ∧ c ≠ '\x00'
  file_length : file.length < 1024

namespace PidFile

variable (p q : PidFile)

def pid : ℕ := p.number.value

def pidText : List Char := p.number.digits

def textThen (rest : List Char) : List Char := p.pidText ++ ',' :: (p.file ++ rest)

theorem drop_name (rest : List Char) : (p.textThen rest).drop (p.pidText.length + 1) =
    p.file ++ rest := by
  rw [textThen, ← List.drop_drop, List.drop_left' rfl, List.drop_one, List.tail_cons]

theorem drop_rest (rest : List Char) : (p.textThen rest).drop
    (p.pidText.length + 1 + p.file.length) = rest := by
  rw [← List.drop_drop, drop_name, List.drop_left' rfl]

end PidFile

def nameListOf : List PidFile → List Char
  | [] => []
  | [p] => p.textThen []
  | p :: q :: pairs => p.textThen (';' :: nameListOf (q :: pairs))

/-- One call for each pair, the first one for `processes[i]`. -/
def callsFrom : ℕ → List PidFile → List BuildCall
  | _, [] => []
  | i, p :: pairs => ⟨i, p.pid, p.file⟩ :: callsFrom (i + 1) pairs

/-- `buildProcess` succeeds for every pair. -/
def Builds (buildProcess : ℕ → ℤ → List Char → DQErr) : ℕ → List PidFile → Prop
  | _, [] => True
  | i, p :: pairs => buildProcess i p.pid p.file = .ok ∧ Builds buildProcess (i + 1) pairs

/-- The pairs behind the first one all have the process id of the second, and for a file name the
end of the first pair's, cut off by as many characters as the second process id is longer. -/
def NamesShifted : List PidFile → Prop
  | p :: q :: pairs => p.pidText.length ≤ q.pidText.length ∧ ∀ r ∈ q :: pairs,
      r.pid = q.pid ∧ r.file = p.file.drop (q.pidText.length - p.pidText.length)
  | _ => True

/-! ### One pair -/

theorem digit_not_comma {c : Char} (h : IsDigit 10 c) : c ≠ ',' ∧ c ≠ ';' ∧ c ≠ '\x00' := by
  refine ⟨?_, ?_, ?_⟩ <;> rintro rfl <;> exact absurd h (by decide)

theorem count_textThen (p : PidFile) (rest : List Char) : (p.textThen rest).count ',' =
    rest.count ',' + 1 := by
  have hpid : p.pidText.count ',' = 0 :=
    List.count_eq_zero.mpr fun h => (digit_not_comma (p.number.isDigit _ h)).1 rfl
  have hfile : p.file.count ',' = 0 := List.count_eq_zero.mpr fun h => (p.file_chars _ h).1 rfl
  rw [PidFile.textThen, List.count_append, List.count_cons_self, List.count_append, hpid, hfile]
  omega

theorem count_nameListOf (pairs : List PidFile) : (nameListOf pairs).count ',' = pairs.length := by
  induction pairs with
  | nil => rfl
  | cons p pairs ih =>
    cases pairs with
    | nil => rw [nameListOf, count_textThen]; rfl
    | cons q pairs =>
      rw [nameListOf, count_textThen, List.count_cons_of_ne (by decide), ih]
      rfl

theorem mem_textThen {p : PidFile} {rest : List Char} (hrest : '\x00' ∉ rest) :
    '\x00' ∉ p.textThen rest := by
  intro h
  rcases List.mem_append.mp h with h | h
  · exact (digit_not_comma (p.number.isDigit _ h)).2.2 rfl
  · rcases List.mem_cons.mp h with h | h
    · exact absurd h (by decide)
    · exact (List.mem_append.mp h).elim (fun h => (p.file_chars _ h).2.2 rfl) hrest

theorem nameListOf_no_null (pairs : List PidFile) : '\x00' ∉ nameListOf pairs := by
  induction pairs with
  | nil => exact List.not_mem_nil
  | cons p pairs ih =>
    cases pairs with
    | nil => exact mem_textThen List.not_mem_nil
    | cons q pairs =>
      refine mem_textThen fun h => ?_
      rcases List.mem_cons.mp h with h | h
      · exact absurd h (by decide)
      · exact ih h

def EndsName (rest : List Char) : Prop := ∀ c ∈ rest.head?, c = ';'

theorem takeWhile_name {name rest : List Char} (hname : ∀ c ∈ name, c ≠ ';' ∧ c ≠ '\x00')
    (hrest : EndsName rest) : (name ++ rest).takeWhile (fun c => c ≠ ';' ∧ c ≠ '\x00') = name := by
  refine takeWhile_append_stop (fun c hc => decide_eq_true (hname c hc)) fun c hc => ?_
  rw [hrest c hc]
  rfl

theorem buildPairs_succ {nameList : List Char} {buildProcess : ℕ → ℤ → List Char → DQErr}
    {n i startIndex : ℕ}
    (p : PidFile) {rest : List Char} (hat : nameList.drop startIndex = p.textThen rest) :
    buildPairs nameList buildProcess (n + 1) i startIndex =
      let pid := intOfInt64 (clampInt64 p.pid)
      let name := mapFileNameAt nameList (p.pidText.length + 1)
      let endIndex := p.pidText.length + 1 + name.length
      if name = [] then (.err, [])
      else if buildProcess i pid name ≠ .ok then (.err, [⟨i, pid, name⟩])
      else
        let next := if peek (nameList.drop endIndex) ≠ '\x00' then endIndex + 1 else endIndex
        let r := buildPairs nameList buildProcess n (i + 1) next
        (r.1, ⟨i, pid, name⟩ :: r.2) := by
  have hpid : strtoll 10 (p.textThen rest) = (clampInt64 p.pid, ',' :: (p.file ++ rest)) :=
    strtoll_numeral p.number (by decide) rfl
  have hcomma : peek (',' :: (p.file ++ rest)) = ',' := rfl
  have hindex : (p.textThen rest).length - (',' :: (p.file ++ rest)).length = p.pidText.length := by
    simp only [PidFile.textThen, List.length_append, List.length_cons]
    omega
  have hempty : ∀ name : List Char,
      p.pidText.length + 1 = p.pidText.length + 1 + name.length ↔ name = [] := by
    intro name
    rw [← List.length_eq_zero_iff]
    omega
  rw [buildPairs, hat, hpid]
  simp only [hcomma, ne_eq, not_true_eq_false, if_false, hindex, hempty]

/-- A step does what it should if it makes the right call, for which `buildProcess` is known to
succeed, and the rest does. -/
theorem step_eq_iff {buildProcess : ℕ → ℤ → List Char → DQErr} {r : DQErr × List BuildCall} {i : ℕ}
    {pid pid' : ℤ} {name name' : List Char} {calls : List BuildCall}
    (h : buildProcess i pid' name' = .ok) :
    (if buildProcess i pid name ≠ .ok then (.err, [⟨i, pid, name⟩])
      else (r.1, ⟨i, pid, name⟩ :: r.2))
        = (DQErr.ok, ⟨i, pid', name'⟩ :: calls) ↔
      (pid = pid' ∧ name = name') ∧ r = (.ok, calls) := by
  constructor
  · intro heq
    split_ifs at heq with hfail
    · exact absurd (congrArg Prod.fst heq) (by simp)
    · obtain ⟨hrc, hcalls⟩ := Prod.mk.inj heq
      obtain ⟨hcall, hrest⟩ := List.cons.inj hcalls
      exact ⟨⟨congrArg BuildCall.pid hcall, congrArg BuildCall.mapFileName hcall⟩,
        Prod.ext hrc hrest⟩
  · rintro ⟨⟨rfl, rfl⟩, rfl⟩
    rw [if_neg (not_not.mpr h)]

/-! ### The second pair -/

section
variable (p q : PidFile) (rest : List Char)

/-- A list that starts with the pairs `p` and `q`. -/
def twoPairs : List Char := p.textThen (';' :: q.textThen rest)

def secondIndex : ℕ := p.pidText.length + 1 + p.file.length + 1

theorem drop_secondIndex : (twoPairs p q rest).drop (secondIndex p) = q.textThen rest := by
  rw [twoPairs, secondIndex, ← List.drop_drop, PidFile.drop_rest, List.drop_one, List.tail_cons]

theorem comma_mem_name {xs ys : List Char} (hxs : ∀ c ∈ xs, IsDigit 10 c) :
    ',' ∈ (xs ++ ',' :: ys).takeWhile fun c => c ≠ ';' ∧ c ≠ '\x00' := by
  rw [List.takeWhile_append_of_pos fun c hc => decide_eq_true (digit_not_comma (hxs c hc)).2,
    List.takeWhile_cons_of_pos (by decide)]
  exact List.mem_append_right _ List.mem_cons_self

/-- The index the loop uses for the second pair lies inside the name of the first one. -/
def FindsName : Prop :=
  p.pidText.length ≤ q.pidText.length ∧ q.pidText.length - p.pidText.length ≤ p.file.length

theorem mapFileNameAt_second (h : FindsName p q) :
    mapFileNameAt (twoPairs p q rest) (q.pidText.length + 1) = p.file.drop
      (q.pidText.length - p.pidText.length) := by
  obtain ⟨hle, hshort⟩ := h
  rw [mapFileNameAt, twoPairs, show q.pidText.length + 1
    = p.pidText.length + 1 + (q.pidText.length - p.pidText.length) by omega, ← List.drop_drop,
    PidFile.drop_name, List.drop_append_of_le_length hshort]
  exact takeWhile_name (fun c hc => (p.file_chars c (List.mem_of_mem_drop hc)).2)
    (by rintro c ⟨⟩; rfl)

theorem comma_mem_second (h : ¬ FindsName p q) :
    ',' ∈ mapFileNameAt (twoPairs p q rest) (q.pidText.length + 1) := by
  rw [mapFileNameAt]
  by_cases hle : p.pidText.length ≤ q.pidText.length
  · -- the index lies inside the second process id
    have hlong : p.file.length < q.pidText.length - p.pidText.length := by
      by_contra hge
      exact h ⟨hle, not_lt.mp hge⟩
    obtain ⟨k, hk⟩ : ∃ k, q.pidText.length + 1 = p.pidText.length + 1 + p.file.length + 1 + k :=
      ⟨q.pidText.length - p.pidText.length - p.file.length - 1, by omega⟩
    have hdrop : (twoPairs p q rest).drop (q.pidText.length + 1)
        = q.pidText.drop k ++ ',' :: (q.file ++ rest) := by
      have hsecond := drop_secondIndex p q rest
      rw [secondIndex] at hsecond
      rw [hk, ← List.drop_drop, hsecond, PidFile.textThen, List.drop_append_of_le_length (by omega)]
    rw [hdrop]
    exact comma_mem_name fun c hc => q.number.isDigit c (List.mem_of_mem_drop hc)
  · -- it lies inside the first process id, or at the comma behind it
    have hdrop : (twoPairs p q rest).drop (q.pidText.length + 1)
        = p.pidText.drop (q.pidText.length + 1) ++ ',' :: (p.file ++ ';' :: q.textThen rest) := by
      rw [twoPairs, PidFile.textThen, List.drop_append_of_le_length (by omega)]
    rw [hdrop]
    exact comma_mem_name fun c hc => p.number.isDigit c (List.mem_of_mem_drop hc)

/-- Behind the name the loop is where it was before the second pair. -/
theorem next_second (h : FindsName p q) :
    let endIndex :=
  q.pidText.length + 1 + (p.file.drop (q.pidText.length - p.pidText.length)).length
    (if peek ((twoPairs p q rest).drop endIndex) ≠ '\x00' then endIndex + 1 else endIndex) =
      secondIndex p := by
  obtain ⟨hle, hshort⟩ := h
  intro endIndex
  have hend : endIndex = p.pidText.length + 1 + p.file.length := by
    change q.pidText.length + 1 + (p.file.drop _).length = _
    rw [List.length_drop]
    omega
  have hpeek : peek ((twoPairs p q rest).drop endIndex) = ';' := by
    rw [hend, twoPairs, PidFile.drop_rest]
    rfl
  rw [hpeek, if_pos (by decide), hend, secondIndex]

end

section
variable {p q : PidFile} {rest : List Char} {buildProcess : ℕ → ℤ → List Char → DQErr}

/-- From the second pair on all calls are made with what was found for it. -/
theorem buildPairs_second (h : FindsName p q)
    (hne : p.file.drop (q.pidText.length - p.pidText.length) ≠ []) (pairs : List PidFile) (i : ℕ)
    (hbuilds : Builds buildProcess i pairs) :
    buildPairs (twoPairs p q rest) buildProcess pairs.length i (secondIndex p) =
      (.ok, callsFrom i pairs) ↔
      ∀ r ∈ pairs, intOfInt64 (clampInt64 q.pid) = r.pid ∧
        p.file.drop (q.pidText.length - p.pidText.length) = r.file := by
  induction pairs generalizing i with
  | nil => simp [buildPairs, callsFrom]
  | cons r pairs ih =>
    obtain ⟨hbuild, hbuilds⟩ := hbuilds
    have hnext := next_second p q rest h
    rw [List.length_cons, buildPairs_succ q (drop_secondIndex p q rest), mapFileNameAt_second p q
      rest h]
    simp only [hne, if_false, hnext, List.forall_mem_cons, ← ih (i + 1) hbuilds, callsFrom]
    exact step_eq_iff hbuild

end

/-! ### All lists -/

theorem intOfInt64_eq_iff (n : ℕ) : intOfInt64 (clampInt64 n) = n ↔ n < 2 ^ 31 := by
  rw [intOfInt64, clampInt64, BitVec.toInt_ofInt, Int.bmod]
  omega

theorem nameListOf_cons_cons (p q : PidFile) (pairs : List PidFile) :
    ∃ rest, nameListOf (p :: q :: pairs) = twoPairs p q rest := by
  cases pairs with
  | nil => exact ⟨[], rfl⟩
  | cons r pairs => exact ⟨';' :: nameListOf (r :: pairs), rfl⟩

theorem buildMFProcesses_eq {pairs : List PidFile} (hne : pairs ≠ [])
    (buildProcess : ℕ → ℤ → List Char → DQErr) :
    buildMFProcesses false (some (nameListOf pairs)) buildProcess =
      buildPairs (nameListOf pairs) buildProcess pairs.length 0 0 := by
  have hwhole : (nameListOf pairs).takeWhile (· ≠ '\x00') = nameListOf pairs :=
    List.takeWhile_eq_self_iff.mpr fun c hc => decide_eq_true fun h => nameListOf_no_null
      pairs (h ▸ hc)
  have hlen : ¬ pairs.length = 0 := by rwa [List.length_eq_zero_iff]
  rw [buildMFProcesses]
  simp only [Bool.false_eq_true, if_false, hwhole, count_nameListOf, hlen]

theorem mapFileNameAt_first (p : PidFile) {rest : List Char} (hrest : EndsName rest) :
    mapFileNameAt (p.textThen rest) (p.pidText.length + 1) = p.file := by
  rw [mapFileNameAt, PidFile.drop_name]
  exact takeWhile_name (fun c hc => (p.file_chars c hc).2) hrest

section
variable {p q : PidFile} {pairs : List PidFile} {buildProcess : ℕ → ℤ → List Char → DQErr}

theorem buildPairs_single (hbuilds : Builds buildProcess 0 [p]) :
    buildPairs (nameListOf [p]) buildProcess 1 0 0 = (.ok, callsFrom 0 [p]) ↔ p.pid < 2 ^ 31 := by
  have hend : EndsName [] := fun c hc => nomatch hc
  have hname := mapFileNameAt_first p hend
  have hat : (p.textThen []).drop 0 = p.textThen [] := rfl
  rw [nameListOf, buildPairs_succ p hat, hname]
  simp only [p.file_ne, if_false, callsFrom]
  rw [step_eq_iff hbuilds.1, intOfInt64_eq_iff]
  simp [buildPairs]

theorem buildPairs_first (hbuilds : Builds buildProcess 0 (p :: q :: pairs)) (rest : List Char) :
    buildPairs (twoPairs p q rest) buildProcess (p :: q :: pairs).length 0 0 =
      (.ok, callsFrom 0 (p :: q :: pairs)) ↔
      p.pid < 2 ^ 31 ∧ buildPairs (twoPairs p q rest) buildProcess (q :: pairs).length 1
        (secondIndex p)
        = (.ok, callsFrom 1 (q :: pairs)) := by
  have hname : mapFileNameAt (twoPairs p q rest) (p.pidText.length + 1) = p.file :=
    mapFileNameAt_first p (by rintro c ⟨⟩; rfl)
  have hpeek : peek ((twoPairs p q rest).drop (p.pidText.length + 1 + p.file.length)) = ';' := by
    rw [twoPairs, PidFile.drop_rest]
    rfl
  have hat : (twoPairs p q rest).drop 0 = p.textThen (';' :: q.textThen rest) := rfl
  rw [List.length_cons, buildPairs_succ p hat, hname]
  simp only [p.file_ne, if_false, hpeek, show ';' ≠ '\x00' by decide, ne_eq, not_false_eq_true,
    if_true]
  rw [callsFrom, step_eq_iff hbuilds.1, intOfInt64_eq_iff, ← secondIndex]
  simp

theorem buildPairs_rest (hbuilds : Builds buildProcess 1 (q :: pairs)) (rest : List Char) :
    buildPairs (twoPairs p q rest) buildProcess (q :: pairs).length 1 (secondIndex p)
        = (.ok, callsFrom 1 (q :: pairs)) ↔
      q.pid < 2 ^ 31 ∧ NamesShifted (p :: q :: pairs) := by
  have hstep : buildPairs (twoPairs p q rest) buildProcess (pairs.length + 1) 1 (secondIndex p) =
      _ :=
    buildPairs_succ q (drop_secondIndex p q rest)
  by_cases hfinds : FindsName p q
  · by_cases hne : p.file.drop (q.pidText.length - p.pidText.length) = []
    · rw [List.length_cons, hstep, mapFileNameAt_second p q rest hfinds]
      simp only [hne, if_true]
      refine iff_of_false (fun h => absurd (congrArg Prod.fst h) (by simp)) fun h => ?_
      have hq := (h.2.2 q List.mem_cons_self).2
      exact q.file_ne (hq.trans hne)
    · rw [buildPairs_second hfinds hne _ _ hbuilds]
      constructor
      · intro h
        have hq := (intOfInt64_eq_iff _).mp (h q List.mem_cons_self).1
        refine ⟨hq, hfinds.1, fun r hr => ⟨?_, (h r hr).2.symm⟩⟩
        have hr := (h r hr).1
        rw [(intOfInt64_eq_iff _).mpr hq] at hr
        exact_mod_cast hr.symm
      · rintro ⟨hq, -, h⟩ r hr
        rw [(h r hr).1, (h r hr).2]
        exact ⟨(intOfInt64_eq_iff _).mpr hq, rfl⟩
  · have hcomma := comma_mem_second p q rest hfinds
    refine iff_of_false (fun h => ?_) fun ⟨_, hle, h⟩ => ?_
    · rw [List.length_cons, hstep] at h
      simp only [List.ne_nil_of_mem hcomma, if_false] at h
      have hname := ((step_eq_iff hbuilds.1).mp h).1.2
      rw [hname] at hcomma
      exact (q.file_chars _ hcomma).1 rfl
    · have hlong : p.file.length ≤ q.pidText.length - p.pidText.length := by
        by_contra hlt
        exact hfinds ⟨hle, (not_le.mp hlt).le⟩
      have hq := (h q List.mem_cons_self).2
      rw [List.drop_eq_nil_of_le hlong] at hq
      exact q.file_ne hq

end

/-- The calls for a list of pairs are the right ones exactly when the process ids fit an `int` and
the names behind the first pair are what the shifted index finds. -/
theorem buildMFProcesses_calls_iff {pairs : List PidFile} (hne : pairs ≠ [])
    {buildProcess : ℕ → ℤ → List Char → DQErr} (hbuilds : Builds buildProcess 0 pairs) :
    buildMFProcesses false (some (nameListOf pairs)) buildProcess = (.ok, callsFrom 0 pairs) ↔
      (∀ p ∈ pairs, p.pid < 2 ^ 31) ∧ NamesShifted pairs := by
  rw [buildMFProcesses_eq hne]
  match pairs, hbuilds with
  | [p], hbuilds =>
    rw [List.length_singleton, buildPairs_single hbuilds, List.forall_mem_singleton]
    exact (and_iff_left trivial).symm
  | p :: q :: pairs, hbuilds =>
    obtain ⟨rest, hrest⟩ := nameListOf_cons_cons p q pairs
    rw [hrest, buildPairs_first hbuilds, buildPairs_rest hbuilds.2, ← and_assoc,
      List.forall_mem_cons, List.forall_mem_cons]
    refine ⟨fun ⟨⟨hp, hq⟩, h⟩ => ⟨⟨hp, hq, fun r hr => ?_⟩, h⟩, fun ⟨⟨hp, hq, _⟩, h⟩ =>
      ⟨⟨hp, hq⟩, h⟩⟩
    rw [(h.2 r (List.mem_cons_of_mem q hr)).1]
    exact hq

def PidFile.single (pid file : Char) (hpid : IsDigit 10 pid)
    (hfile : file ≠ ',' ∧ file ≠ ';' ∧ file ≠ '\x00') :
    PidFile where
  number := ⟨[pid], List.cons_ne_nil _ _, List.forall_mem_singleton.mpr hpid⟩
  file := [file]
  file_ne := List.cons_ne_nil _ _
  file_chars := List.forall_mem_singleton.mpr hfile
  file_length := by simp

/-- Two processes of one name: the shifted index finds it again. -/
theorem buildMFProcesses_calls_twice :
    let pairs := [PidFile.single '1' 'a' (by decide) (by decide), PidFile.single '1' 'a' (by decide)
        (by decide)]
    nameListOf pairs = ['1', ',', 'a', ';', '1', ',', 'a'] ∧
      buildMFProcesses false (some (nameListOf pairs)) (fun _ _ _ => .ok) =
        (.ok, [⟨0, 1, ['a']⟩, ⟨1, 1, ['a']⟩]) := by
  intro pairs
  have hbuilds : Builds (fun _ _ _ => .ok) 0 pairs := ⟨rfl, rfl, trivial⟩
  have hpids : ∀ p ∈ pairs, p.pid < 2 ^ 31 := by decide
  have hnames : NamesShifted pairs := by
    refine ⟨le_rfl, ?_⟩
    decide
  exact ⟨rfl, (buildMFProcesses_calls_iff (List.cons_ne_nil _ _) hbuilds).mpr ⟨hpids, hnames⟩⟩

/-- The second process gets the first one's mapping file. -/
theorem buildMFProcesses_second_name :
    let pairs := [PidFile.single '1' 'a' (by decide) (by decide), PidFile.single '2' 'b' (by decide)
        (by decide)]
    nameListOf pairs = ['1', ',', 'a', ';', '2', ',', 'b'] ∧
      callsFrom 0 pairs = [⟨0, 1, ['a']⟩, ⟨1, 2, ['b']⟩] ∧
      buildMFProcesses false (some (nameListOf pairs)) (fun _ _ _ => .ok)
        = (.ok, [⟨0, 1, ['a']⟩, ⟨1, 2, ['a']⟩]) ∧
      buildMFProcesses false (some (nameListOf pairs)) (fun _ _ _ => .ok) ≠
        (.ok, callsFrom 0 pairs) := by
  decide

end TraceDecoder
