import Mathlib.Data.List.TakeWhile
import TraceDecoder.MappingFile

/-!
# The lines of a mapping file

The format of `/proc/<pid>/maps`, and what one pass of the main loop of `parseMappingFile` makes of
a line. A path name ends for it at the first digit 0, and an executable section without a path name
takes the line behind it along.
-/

namespace TraceDecoder

open CString MapM EStateM

structure MapLine where
  first : Numeral 16
  last : Numeral 16
  read : Bool
  write : Bool
  exec : Bool
  shared : Bool
  offset : Numeral 16
  major : Numeral 16
  minor : Numeral 16
  inode : Numeral 10
  padding : ℕ
  pathname : List Char
  first_lt : first.value < 2 ^ 63
  last_lt : last.value < 2 ^ 63
  pathname_chars : ∀ c ∈ pathname, c ≠ '\n' ∧ c ≠ '\x00'
  pathname_start : ∀ c ∈ pathname.head?, c ≠ ' '
  pathname_padding : pathname ≠ [] → 0 < padding
  pathname_length : pathname.length < 1000

namespace MapLine

variable (l : MapLine)

/-- The padding, the path name and the newline, with what follows the line. -/
def pathThen (rest : List Char) : List Char :=
  List.replicate l.padding ' ' ++ (l.pathname ++ '\n' :: rest)

def fieldsThen (rest : List Char) : List Char :=
  (if l.shared then 's' else 'p') :: ' ' ::
    (l.offset.digits ++ ' ' ::
      (l.major.digits ++ ':' :: (l.minor.digits ++ ' ' :: (l.inode.digits ++ l.pathThen rest))))

def textThen (rest : List Char) : List Char :=
  l.first.digits ++ '-' :: (l.last.digits ++ ' ' :: (if l.read then 'r' else '-') ::
    (if l.write then 'w' else '-') :: (if l.exec then 'x' else '-') :: l.fieldsThen rest)

def name : List Char := (if peek l.pathname = '/' then ['.'] else []) ++ l.pathname

def entry (t : MapSettings) : Option AddressMap :=
  addressMap t l.name (BitVec.ofNat 64 l.first.value) (BitVec.ofNat 64 l.last.value)

def cutName : List Char :=
  (if peek l.pathname = '/' then ['.'] else []) ++ l.pathname.takeWhile (· ≠ '0')

def codeEntry (t : MapSettings) : Except MapStop AddressMap :=
  entryOf t l.cutName (BitVec.ofNat 64 l.first.value) (BitVec.ofNat 64 l.last.value)

end MapLine

def mapText : List MapLine → List Char
  | [] => []
  | l :: lines => l.textThen (mapText lines)

/-! ### Reading a field -/

section
variable {s : MapParser} {rest : List Char}

theorem number_run {base : ℕ} (n : Numeral base) (hbase : base ≤ 16)
    (hstart : s.start = n.digits ++ rest)
    (hrest : digitVal (peek rest) = 36) :
    number base s = .ok (clampInt64 n.value) { s with start := rest } := by
  have hlen : ¬ rest.length = s.start.length := by
    have hpos := List.length_pos_iff.mpr n.digits_ne
    rw [hstart, List.length_append]
    omega
  rw [number, hstart, strtoll_numeral n hbase hrest]
  rw [hstart] at hlen
  simp only [hlen, if_false]

theorem expect_run {p : Char → Prop} [DecidablePred p] {c : Char} (hstart : s.start = c :: rest)
    (hc : p c) :
    expect p s = .ok () { s with start := rest } := by
  rw [expect, hstart]
  exact if_pos hc

theorem skipTo_run {p : Char → Prop} [DecidablePred p] {xs : List Char}
    (hstart : s.start = xs ++ rest)
    (hxs : ∀ c ∈ xs, ¬ p c ∧ c ≠ '\x00') (hrest : ∀ c ∈ rest.head?, p c) :
    skipTo p s = .ok () { s with start := rest } := by
  have hdrop : s.start.dropWhile (fun c => decide (¬ p c ∧ c ≠ '\x00')) = rest := by
    rw [hstart]
    exact dropWhile_append_stop (fun c hc => decide_eq_true (hxs c hc)) fun c hc =>
      decide_eq_false fun h => h.1 (hrest c hc)
  change EStateM.Result.ok () { s with start := _ } = _
  rw [hdrop]

theorem skipWhile_run {p : Char → Prop} [DecidablePred p] {xs : List Char}
    (hstart : s.start = xs ++ rest)
    (hxs : ∀ c ∈ xs, p c) (hrest : ∀ c ∈ rest.head?, ¬ p c) :
    skipWhile p s = .ok () { s with start := rest } := by
  have hdrop : s.start.dropWhile (fun c => decide (p c)) = rest := by
    rw [hstart]
    exact dropWhile_append_stop (fun c hc => decide_eq_true (hxs c hc)) fun c hc => decide_eq_false
      (hrest c hc)
  change EStateM.Result.ok () { s with start := _ } = _
  rw [hdrop]

theorem number_none {base : ℕ} {c : Char} (hbase : base ≤ 16) (hstart : s.start = c :: rest)
    (hc : ¬ BeginsNumber c) :
    number base s = .error .err s := by
  rw [number, hstart, strtoll_none hbase hc]
  exact if_pos rfl

theorem requireMore_run {c : Char} (hstart : s.start = c :: rest) (hc : c ≠ '\x00') :
    requireMore s = .ok () s := by
  rw [requireMore, hstart]
  exact if_neg hc

end

/-! ### One line -/

theorem digit_plain {c : Char} {base : ℕ} (hbase : base ≤ 16) (h : IsDigit base c) :
    c ≠ ' ' ∧ c ≠ '\x00' ∧ ¬ IsNewline c := by
  have hval : digitVal c < 36 := Nat.lt_of_lt_of_le h (by omega)
  refine ⟨?_, ?_, ?_⟩
  · rintro rfl
    exact absurd hval (by decide)
  · rintro rfl
    exact absurd hval (by decide)
  · rintro (rfl | rfl) <;> exact absurd hval (by decide)

theorem head_digits {base : ℕ} (n : Numeral base) (rest : List Char) :
    ∃ c ds, n.digits ++ rest = c :: ds ∧ IsDigit base c := by
  obtain ⟨c, ds, hds⟩ := List.exists_cons_of_ne_nil n.digits_ne
  refine ⟨c, ds ++ rest, by rw [hds, List.cons_append], n.isDigit c ?_⟩
  rw [hds]
  exact List.mem_cons_self

theorem head_not_space {base : ℕ} (hbase : base ≤ 16) (n : Numeral base) (rest : List Char) :
    ∀ c ∈ (n.digits ++ rest).head?, ¬ c = ' ' := by
  obtain ⟨d, ds, heq, hd⟩ := head_digits n rest
  rw [heq]
  rintro c ⟨⟩
  exact (digit_plain hbase hd).1

theorem requireMore_digits {base : ℕ} (hbase : base ≤ 16) (n : Numeral base) {rest : List Char}
    {s : MapParser} (hstart : s.start = n.digits ++ rest) : requireMore s = .ok () s := by
  obtain ⟨d, ds, heq, hd⟩ := head_digits n rest
  exact requireMore_run (hstart.trans heq) (digit_plain hbase hd).2.1

namespace MapLine

variable (l : MapLine) (t : MapSettings) (rest : List Char) (n : ℕ) (am : List AddressMap)

theorem peek_pathThen : digitVal (peek (l.pathThen rest)) = 36 := by
  rw [pathThen]
  cases hpad : l.padding with
  | succ k => rfl
  | zero =>
    have hnone : l.pathname = [] := by
      by_contra hne
      exact absurd (l.pathname_padding hne) (by omega)
    rw [hnone]
    rfl

theorem head_path : ∃ c cs, l.pathname ++ '\n' :: rest = c :: cs ∧ c ≠ ' ' ∧ c ≠ '\x00' := by
  cases hpath : l.pathname with
  | nil => exact ⟨'\n', rest, rfl, by decide, by decide⟩
  | cons c cs =>
    refine ⟨c, cs ++ '\n' :: rest, rfl, l.pathname_start c (by rw [hpath]; rfl),
      (l.pathname_chars c ?_).2⟩
    rw [hpath]
    exact List.mem_cons_self

theorem pathNameAt_path (hcr : '\r' ∉ l.pathname) :
    pathNameAt (l.pathname ++ '\n' :: rest) = l.cutName := by
  have hpeek : peek (l.pathname ++ '\n' :: rest) = '/' ↔ peek l.pathname = '/' := by
    cases l.pathname with
    | nil =>
      exact ⟨fun h => absurd (show '\n' = '/' from h) (by decide), fun h => absurd (show '\x00' =
        '/' from h) (by decide)⟩
    | cons c cs => rfl
  have hplain : ∀ c ∈ l.pathname, ¬ IsNewline c := fun c hc h =>
    h.elim (l.pathname_chars c hc).1 fun h => hcr (h ▸ hc)
  have htake : ∀ cs : List Char, (∀ c ∈ cs, ¬ IsNewline c) →
      (cs ++ '\n' :: rest).takeWhile (fun c => decide (¬ IsNewline c ∧ c ≠ '0')) =
        cs.takeWhile (· ≠ '0') := by
    intro cs hcs
    induction cs with
    | nil => rfl
    | cons c cs ih =>
      obtain ⟨hc, hcs⟩ := List.forall_mem_cons.mp hcs
      rw [List.cons_append, List.takeWhile_cons, List.takeWhile_cons, ih hcs]
      simp [hc]
  rw [pathNameAt, cutName, htake l.pathname hplain]
  simp only [hpeek]

theorem codeSection_run (a b : ADDRESS) (hcr : '\r' ∉ l.pathname) :
    codeSection t a b ⟨'x' :: l.fieldsThen rest, n, am⟩ =
      match entryOf t l.cutName a b with
      | .error stop => .error stop ⟨l.pathname ++ '\n' :: rest, n + 1, am⟩
      | .ok e => .ok () ⟨(l.pathname ++ '\n' :: rest).tail, n + 1, am ++ [e]⟩ := by
  set path := l.pathname ++ '\n' :: rest with hpath
  obtain ⟨c, cs, hcons, hspace, hnull⟩ := l.head_path rest
  rw [← hpath] at hcons
  have hflag : ∀ d ∈ [if l.shared then 's' else 'p'], ¬ d = ' ' ∧ d ≠ '\x00' := by
    rw [List.forall_mem_singleton]
    cases l.shared <;> decide
  have hdevice : ∀ d ∈ l.major.digits ++ ':' :: l.minor.digits, ¬ d = ' ' ∧ d ≠ '\x00' := by
    intro d hd
    rcases List.mem_append.mp hd with hd | hd
    · exact ⟨(digit_plain le_rfl (l.major.isDigit d hd)).1,
        (digit_plain le_rfl (l.major.isDigit d hd)).2.1⟩
    · rcases List.mem_cons.mp hd with rfl | hd
      · decide
      · exact ⟨(digit_plain le_rfl (l.minor.isDigit d hd)).1,
          (digit_plain le_rfl (l.minor.isDigit d hd)).2.1⟩
  have hblank : ∀ d ∈ ([' '] : List Char), d = ' ' := List.forall_mem_singleton.mpr rfl
  have hhead : ∀ (xs : List Char), ∀ d ∈ (' ' :: xs).head?, d = ' ' := by rintro xs d ⟨⟩; rfl
  set inode := l.inode.digits ++ l.pathThen rest with hinode
  set device := l.major.digits ++ ':' :: (l.minor.digits ++ ' ' :: inode) with hdevice'
  have hsplit : device = (l.major.digits ++ ':' :: l.minor.digits) ++ ' ' :: inode := by
    rw [hdevice', List.append_assoc, List.cons_append]
  set offset := l.offset.digits ++ ' ' :: device with hoffset
  set flags := (if l.shared then 's' else 'p') :: ' ' :: offset with hflags
  have h₁ : skipTo (· = ' ') ⟨flags, n + 1, am⟩ = .ok () ⟨' ' :: offset, n + 1, am⟩ :=
    skipTo_run (by rw [hflags, List.singleton_append]) hflag (hhead _)
  have h₂ : skipWhile (· = ' ') ⟨' ' :: offset, n + 1, am⟩ = .ok () ⟨offset, n + 1, am⟩ :=
    skipWhile_run List.singleton_append.symm hblank (head_not_space le_rfl l.offset _)
  have h₃ : requireMore ⟨offset, n + 1, am⟩ = .ok () ⟨offset, n + 1, am⟩ :=
    requireMore_digits le_rfl l.offset rfl
  have h₄ : number 16 ⟨offset, n + 1, am⟩ = .ok (clampInt64 l.offset.value) ⟨' ' :: device,
      n + 1, am⟩ :=
    number_run l.offset le_rfl rfl rfl
  have h₅ : skipWhile (· = ' ') ⟨' ' :: device, n + 1, am⟩ = .ok () ⟨device, n + 1, am⟩ :=
    skipWhile_run List.singleton_append.symm hblank (head_not_space le_rfl l.major _)
  have h₆ : requireMore ⟨device, n + 1, am⟩ = .ok () ⟨device, n + 1, am⟩ :=
    requireMore_digits le_rfl l.major rfl
  have h₇ : skipTo (· = ' ') ⟨device, n + 1, am⟩ = .ok () ⟨' ' :: inode, n + 1, am⟩ :=
    skipTo_run hsplit hdevice (hhead _)
  have h₈ : requireMore ⟨' ' :: inode, n + 1, am⟩ = .ok () ⟨' ' :: inode, n + 1, am⟩ :=
    requireMore_run rfl (by decide)
  have h₉ : number 10 ⟨inode, n + 1, am⟩ = .ok (clampInt64 l.inode.value) ⟨l.pathThen rest,
      n + 1, am⟩ :=
    number_run l.inode (by decide) rfl (l.peek_pathThen rest)
  have h₁₀ : skipWhile (· = ' ') ⟨l.pathThen rest, n + 1, am⟩ = .ok () ⟨path, n + 1, am⟩ :=
    skipWhile_run rfl (fun d hd => List.eq_of_mem_replicate hd)
      (by rw [hcons]; rintro d ⟨⟩; exact hspace)
  have h₁₁ : requireMore ⟨path, n + 1, am⟩ = .ok () ⟨path, n + 1, am⟩ := requireMore_run hcons hnull
  have hpeek : peek path ≠ '\x00' := by
    rw [hcons]
    exact hnull
  have hname := l.pathNameAt_path rest hcr
  rw [← hpath] at hname
  have h₀ : (modify fun s : MapParser =>
      { s with codeSections := s.codeSections + 1, start := s.start.tail } : MapM Unit)
        ⟨'x' :: flags, n, am⟩ = .ok () ⟨flags, n + 1, am⟩ := rfl
  have hnext : (modify fun s : MapParser => { s with start := s.start.tail } : MapM Unit)
      ⟨' ' :: inode, n + 1, am⟩ = .ok () ⟨inode, n + 1, am⟩ := rfl
  have hstart : l.fieldsThen rest = flags := rfl
  rw [codeSection, hstart, bind_ok h₀, bind_ok h₁, bind_ok h₂, bind_ok h₃, bind_ok h₄, bind_ok h₅,
    bind_ok h₆, bind_ok h₇, bind_ok h₈, bind_ok hnext, bind_ok h₉, bind_ok h₁₀, bind_ok h₁₁,
      bind_run, addEntry, hname]
  cases entryOf t l.cutName a b with
  | error stop => rfl
  | ok e =>
    change EStateM.Result.ok () (if peek path ≠ '\x00' then _ else _) = _
    rw [if_pos hpeek]

def fields : List Char :=
  (if l.shared then 's' else 'p') :: ' ' ::
    (l.offset.digits ++ ' ' ::
      (l.major.digits ++ ':' ::
      (l.minor.digits ++ ' ' :: (l.inode.digits ++ List.replicate l.padding ' '))))

def body : List Char :=
  l.first.digits ++ '-' :: (l.last.digits ++ ' ' :: (if l.read then 'r' else '-') ::
    (if l.write then 'w' else '-') :: (if l.exec then 'x' else '-') :: l.fields)

theorem fieldsThen_eq : l.fieldsThen rest = l.fields ++ (l.pathname ++ '\n' :: rest) := by
  simp only [fieldsThen, fields, pathThen, List.cons_append, List.append_assoc]

theorem textThen_eq : l.textThen rest = l.body ++ (l.pathname ++ '\n' :: rest) := by
  simp only [textThen, body, fieldsThen_eq, List.cons_append, List.append_assoc]

def Plain (c : Char) : Prop := ¬ IsNewline c ∧ c ≠ '\x00'

instance : DecidablePred Plain := fun c => inferInstanceAs (Decidable (¬ IsNewline c ∧ c ≠ '\x00'))

theorem digits_plain {base : ℕ} (hbase : base ≤ 16) (d : Numeral base) : ∀ c ∈ d.digits, Plain c :=
  fun c hc => ⟨(digit_plain hbase (d.isDigit c hc)).2.2, (digit_plain hbase (d.isDigit c hc)).2.1⟩

theorem fields_plain : ∀ c ∈ l.fields, Plain c := by
  have hpad : ∀ c ∈ List.replicate l.padding ' ', Plain c := by
    intro c hc
    rw [List.eq_of_mem_replicate hc]
    decide
  have hflag : Plain (if l.shared then 's' else 'p') := by cases l.shared <;> decide
  simp only [fields, List.forall_mem_cons, List.forall_mem_append]
  exact ⟨hflag, by decide, digits_plain le_rfl _, by decide, digits_plain le_rfl _, by decide,
    digits_plain le_rfl _, by decide, digits_plain (by decide) _, hpad⟩

theorem body_plain : ∀ c ∈ l.body, Plain c := by
  have hread : Plain (if l.read then 'r' else '-') := by cases l.read <;> decide
  have hwrite : Plain (if l.write then 'w' else '-') := by cases l.write <;> decide
  have hexec : Plain (if l.exec then 'x' else '-') := by cases l.exec <;> decide
  simp only [body, List.forall_mem_cons, List.forall_mem_append]
  exact ⟨digits_plain le_rfl _, by decide, digits_plain le_rfl _, by decide, hread, hwrite, hexec,
    l.fields_plain⟩

end MapLine

/-! ### The end of a line -/

def StartsLine (rest : List Char) : Prop := ∀ c ∈ rest.head?, MapLine.Plain c

def skipLine : MapM Unit := do
  skipTo IsNewline
  skipWhile IsNewline

theorem skipLine_run {xs ends rest : List Char} (hxs : ∀ c ∈ xs, MapLine.Plain c) (hne : ends ≠ [])
    (hends : ∀ c ∈ ends, IsNewline c) (hrest : ∀ c ∈ rest.head?, ¬ IsNewline c) (n : ℕ)
    (am : List AddressMap) :
    skipLine ⟨xs ++ (ends ++ rest), n, am⟩ = .ok () ⟨rest, n, am⟩ := by
  have hhead : ∀ c ∈ (ends ++ rest).head?, IsNewline c := by
    obtain ⟨e, es, rfl⟩ := List.exists_cons_of_ne_nil hne
    rintro c ⟨⟩
    exact hends e List.mem_cons_self
  have hto : skipTo IsNewline ⟨xs ++ (ends ++ rest), n, am⟩ = .ok () ⟨ends ++ rest, n, am⟩ :=
    skipTo_run rfl hxs hhead
  rw [skipLine, bind_ok hto]
  exact skipWhile_run rfl hends hrest

def ReturnsLast (path : List Char) : Prop := ∀ c ∈ path.dropWhile (· ≠ '\r'), c = '\r'

instance : DecidablePred ReturnsLast :=
  fun path => inferInstanceAs (Decidable (∀ c ∈ path.dropWhile (· ≠ '\r'), c = '\r'))

/-- Behind a carriage return stands another, or a character that no number begins with. -/
def NoNumberBehind (path : List Char) : Prop :=
  ∀ pre c post, path = pre ++ '\r' :: c :: post → c = '\r' ∨ ¬ BeginsNumber c

theorem ReturnsLast.noNumberBehind {path : List Char} (h : ReturnsLast path) :
    NoNumberBehind path := by
  rintro pre c post rfl
  refine .inl (h c ?_)
  induction pre with
  | nil =>
    rw [List.nil_append, List.dropWhile_cons_of_neg (by decide)]
    exact List.mem_cons_of_mem _ List.mem_cons_self
  | cons d pre ih =>
    rw [List.cons_append, List.dropWhile_cons]
    split_ifs
    · exact ih fun e he => h e (by rwa [List.cons_append, List.dropWhile_cons, if_pos ‹_›])
    · exact List.mem_cons_of_mem d
        (List.mem_append_right pre (List.mem_cons_of_mem _ List.mem_cons_self))

def Stuck (s : MapParser) : Prop := ∃ c post, s.start = c :: post ∧ c ≠ '\x00' ∧ ¬ BeginsNumber c

theorem Stuck.lines {s : MapParser} (h : Stuck s) (t : MapSettings) (fuel : ℕ) :
    MapM.lines t (fuel + 1) s = .error .err s := by
  obtain ⟨c, post, hstart, hnull, hc⟩ := h
  have hmore : MapM.lines t (fuel + 1) s = (line t >>= fun _ => MapM.lines t fuel) s := by
    refine if_neg ?_
    rw [hstart]
    exact hnull
  rw [hmore, line]
  exact bind_error (bind_error (number_none le_rfl hstart hc))

/-- A carriage return ends a line, and what stands behind it begins the next one. -/
theorem skipLine_returns {xs path rest : List Char} (hxs : ∀ c ∈ xs, MapLine.Plain c)
    (hpath : ∀ c ∈ path, c ≠ '\n' ∧ c ≠ '\x00') (hbehind : NoNumberBehind path)
    (hrest : StartsLine rest) (n : ℕ) (am : List AddressMap) :
    if ReturnsLast path then skipLine ⟨xs ++ (path ++ '\n' :: rest), n, am⟩ = .ok () ⟨rest, n, am⟩
    else ∃ s, skipLine ⟨xs ++ (path ++ '\n' :: rest), n, am⟩ = .ok () s ∧ Stuck s := by
  set behind := path.dropWhile (· ≠ '\r') with hdrop
  set plain := path.takeWhile (· ≠ '\r')
  set returns := behind.takeWhile (· = '\r')
  set left := behind.dropWhile (· = '\r') with hleft
  have hsplit : path = plain ++ behind := List.takeWhile_append_dropWhile.symm
  have hbehindSplit : behind = returns ++ left := List.takeWhile_append_dropWhile.symm
  have hreturns : ∀ c ∈ returns, c = '\r' := fun c hc => by
    have hpass := List.mem_takeWhile_imp hc
    exact of_decide_eq_true hpass
  have hplain : ∀ c ∈ xs ++ plain, MapLine.Plain c := by
    refine List.forall_mem_append.mpr ⟨hxs, fun c hc => ?_⟩
    have hmem := hpath c (hsplit ▸ List.mem_append_left _ hc)
    have hpass := List.mem_takeWhile_imp hc
    have hreturn : c ≠ '\r' := by simpa using hpass
    exact ⟨fun h => h.elim hmem.1 hreturn, hmem.2⟩
  cases hcase : left with
  | nil =>
    have hlast : ReturnsLast path := by
      rw [ReturnsLast, ← hdrop, hbehindSplit, hcase, List.append_nil]
      exact hreturns
    have htext : xs ++ (path ++ '\n' :: rest) = (xs ++ plain) ++ ((returns ++ ['\n']) ++ rest) := by
      rw [hsplit, hbehindSplit, hcase]
      simp only [List.append_assoc, List.append_nil, List.singleton_append]
    have hends : ∀ c ∈ returns ++ ['\n'], IsNewline c :=
      List.forall_mem_append.mpr ⟨fun c hc => .inr (hreturns c hc), List.forall_mem_singleton.mpr
        (.inl rfl)⟩
    rw [if_pos hlast, htext]
    exact skipLine_run hplain (by simp) hends (fun c hc => (hrest c hc).1) n am
  | cons c post =>
    have hc : c ≠ '\r' := by
      have hhead := List.head?_dropWhile_not (fun c : Char => decide (c = '\r')) behind
      rw [← hleft, hcase] at hhead
      exact of_decide_eq_false hhead
    have hne : returns ≠ [] := by
      intro hnil
      have hhead := List.head?_dropWhile_not (fun c : Char => decide (c ≠ '\r')) path
      rw [← hdrop, hbehindSplit, hnil, hcase] at hhead
      exact of_decide_eq_false hhead hc
    have hlast : ¬ ReturnsLast path :=
      fun h => hc (h c (by rw [← hdrop, hbehindSplit, hcase]; simp))
    have htext : xs ++ (path ++ '\n' :: rest) = (xs ++ plain) ++
        (returns ++ c :: (post ++ '\n' :: rest)) := by
      rw [hsplit, hbehindSplit, hcase]
      simp only [List.append_assoc, List.cons_append]
    have hmem := hpath c (by rw [hsplit, hbehindSplit, hcase]; simp)
    have hnumber : ¬ BeginsNumber c := by
      have hlastReturn := hreturns _ (List.getLast_mem hne)
      refine (hbehind (plain ++ returns.dropLast) c post ?_).resolve_left hc
      rw [hsplit, hbehindSplit, hcase, List.append_assoc, List.append_cancel_left_eq]
      nth_rewrite 1 [← List.dropLast_concat_getLast hne]
      rw [hlastReturn, List.append_assoc, List.singleton_append]
    rw [if_neg hlast, htext]
    refine ⟨_, skipLine_run hplain hne (fun d hd => .inr (hreturns d hd)) ?_ n am, c, _, rfl,
      hmem.2, hnumber⟩
    rintro d ⟨⟩
    exact fun h => h.elim hmem.1 hc

namespace MapLine

variable (l : MapLine) (t : MapSettings) (rest : List Char) (n : ℕ) (am : List AddressMap)

theorem line_permissions :
    line t ⟨l.textThen rest, n, am⟩ =
      (EStateM.onlyIf (l.exec = true)
          (codeSection t (BitVec.ofNat 64 l.first.value) (BitVec.ofNat 64 l.last.value)) >>=
            fun _ => skipLine)
        ⟨(if l.exec then 'x' else '-') :: l.fieldsThen rest, n, am⟩ := by
  set exec := (if l.exec then 'x' else '-') :: l.fieldsThen rest with hexec
  set write := (if l.write then 'w' else '-') :: exec with hwrite
  set read := (if l.read then 'r' else '-') :: write with hread
  set last := l.last.digits ++ ' ' :: read with hlast
  have hstart : l.textThen rest = l.first.digits ++ '-' :: last := rfl
  have hreadFlag : (if l.read then 'r' else '-') = 'r' ∨ (if l.read then 'r' else '-') = '-' := by
    cases l.read <;> decide
  have hwriteFlag : (if l.write then 'w' else '-') = 'w' ∨ (if l.write then 'w' else '-') =
      '-' := by
    cases l.write <;> decide
  have hexecFlag : peek exec = 'x' ↔ l.exec = true := by
    change (if l.exec then 'x' else '-') = 'x' ↔ _
    cases l.exec <;> decide
  have honly : ∀ p : MapM Unit, EStateM.onlyIf (peek exec = 'x') p = EStateM.onlyIf (l.exec = true)
      p := by
    intro p
    unfold EStateM.onlyIf
    simp only [hexecFlag]
  have h₁ : number 16 ⟨l.textThen rest, n, am⟩ = .ok (clampInt64 l.first.value)
      ⟨'-' :: last, n, am⟩ :=
    number_run l.first le_rfl hstart rfl
  have h₂ : expect (· = '-') ⟨'-' :: last, n, am⟩ = .ok () ⟨last, n, am⟩ := expect_run rfl rfl
  have h₃ : number 16 ⟨last, n, am⟩ = .ok (clampInt64 l.last.value) ⟨' ' :: read, n, am⟩ :=
    number_run l.last le_rfl rfl rfl
  have h₄ : expect (· = ' ') ⟨' ' :: read, n, am⟩ = .ok () ⟨read, n, am⟩ := expect_run rfl rfl
  have h₅ : expect (fun c => c = 'r' ∨ c = '-') ⟨read, n, am⟩ = .ok () ⟨write, n, am⟩ :=
    expect_run rfl hreadFlag
  have h₆ : expect (fun c => c = 'w' ∨ c = '-') ⟨write, n, am⟩ = .ok () ⟨exec, n, am⟩ :=
    expect_run rfl hwriteFlag
  have hget : (get : MapM MapParser) ⟨exec, n, am⟩ = .ok ⟨exec, n, am⟩ ⟨exec, n, am⟩ := rfl
  rw [line, bind_ok h₁, bind_ok h₂, bind_ok h₃, bind_ok h₄, bind_ok h₅, bind_ok h₆, bind_ok hget,
    clampInt64_of_lt l.first_lt, clampInt64_of_lt l.last_lt, BitVec.ofInt_natCast,
      BitVec.ofInt_natCast]
  rw [honly]
  rfl

theorem line_data (hexec : l.exec = false) :
    line t ⟨l.textThen rest, n, am⟩ = skipLine ⟨'-' :: l.fields ++ (l.pathname ++ '\n' :: rest),
        n, am⟩ := by
  rw [line_permissions, hexec, onlyIf, if_neg (by decide), fieldsThen_eq]
  rfl

/-- A line of an executable section with a path name gives an entry. -/
theorem line_exec {e : AddressMap} (hcr : '\r' ∉ l.pathname) (hrest : StartsLine rest)
    (hexec : l.exec = true) (hpath : l.pathname ≠ []) (he : l.codeEntry t = .ok e) :
    line t ⟨l.textThen rest, n, am⟩ = .ok () ⟨rest, n + 1, am ++ [e]⟩ := by
  obtain ⟨c, cs, hcons⟩ := List.exists_cons_of_ne_nil hpath
  have hplain : ∀ d ∈ cs, Plain d := by
    intro d hd
    have hmem : d ∈ l.pathname := hcons ▸ List.mem_cons_of_mem c hd
    exact ⟨fun h => h.elim (l.pathname_chars d hmem).1 fun h => hcr (h ▸ hmem),
      (l.pathname_chars d hmem).2⟩
  have hrun :=
    l.codeSection_run t rest n am (BitVec.ofNat 64 l.first.value) (BitVec.ofNat 64 l.last.value) hcr
  rw [codeEntry] at he
  rw [he] at hrun
  rw [line_permissions, hexec, onlyIf, if_pos rfl, if_pos rfl, bind_ok hrun, hcons,
    List.cons_append, List.tail_cons]
  exact skipLine_run hplain (List.cons_ne_nil '\n' []) (List.forall_mem_singleton.mpr (.inl rfl))
    (fun c hc => (hrest c hc).1) (n + 1) _

/-- Without a path name it takes the line behind it along. -/
theorem line_exec_anonymous {e : AddressMap} (hexec : l.exec = true) (hpath : l.pathname = [])
    (he : l.codeEntry t = .ok e) :
    line t ⟨l.textThen rest, n, am⟩ = skipLine ⟨rest, n + 1, am ++ [e]⟩ := by
  have hcr : '\r' ∉ l.pathname := by rw [hpath]; exact List.not_mem_nil
  have hrun :=
    l.codeSection_run t rest n am (BitVec.ofNat 64 l.first.value) (BitVec.ofNat 64 l.last.value) hcr
  rw [codeEntry] at he
  rw [he] at hrun
  rw [line_permissions, hexec, onlyIf, if_pos rfl, if_pos rfl, bind_ok hrun, hpath, List.nil_append,
    List.tail_cons]

theorem line_exec_error {stop : MapStop} (hcr : '\r' ∉ l.pathname) (hexec : l.exec = true)
    (he : l.codeEntry t = .error stop) : ∃ s, line t ⟨l.textThen rest, n, am⟩ = .error stop s := by
  have hrun :=
    l.codeSection_run t rest n am (BitVec.ofNat 64 l.first.value) (BitVec.ofNat 64 l.last.value) hcr
  rw [codeEntry] at he
  rw [he] at hrun
  rw [line_permissions, hexec, onlyIf, if_pos rfl, if_pos rfl]
  exact ⟨_, bind_error hrun⟩

end MapLine

end TraceDecoder
