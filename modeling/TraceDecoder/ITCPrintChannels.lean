import TraceDecoder.ITCPrintArrays
import TraceDecoder.Lib.CStrings
import TraceDecoder.NLSFormats

/-!
# The channels of instrumentation prints

The channel of a write is looked up in the table of no-load strings whatever its number is, and the
format that is found there is given as many arguments as conversions have been counted in it. A
width or precision `*` uses one more.
-/

namespace TraceDecoder

open CString Printf

/-! ### Arguments -/

/-- The characters that are passed between a `%` and its conversion. -/
def Neutral (c : Char) : Prop := c ≠ '%' ∧ ¬ IsSigned c ∧ ¬ IsUnsigned c

instance : DecidablePred Neutral :=
  fun c => inferInstanceAs (Decidable (c ≠ '%' ∧ ¬ IsSigned c ∧ ¬ IsUnsigned c))

def stars : Bool → List Char → ℕ
  | _, [] => 0
  | false, c :: text => stars (c = '%') text
  | true, c :: text => if Neutral c then (if c = '*' then 1 else 0) + stars true text
      else stars false text

theorem conversions_neutral {pre : List Char} (hpre : ∀ c ∈ pre, Neutral c) (text : List Char) :
    conversions true (pre ++ text) = conversions true text := by
  induction pre with
  | nil => rfl
  | cons c pre ih =>
    obtain ⟨⟨hpercent, hsigned, hunsigned⟩, hpre⟩ := List.forall_mem_cons.mp hpre
    rw [List.cons_append, conversions, if_neg hpercent, if_neg (not_or.mpr ⟨hsigned, hunsigned⟩),
      ih hpre]

theorem stars_neutral {pre : List Char} (hpre : ∀ c ∈ pre, Neutral c) (text : List Char) :
    stars true (pre ++ text) = pre.count '*' + stars true text := by
  induction pre with
  | nil => exact (Nat.zero_add _).symm
  | cons c pre ih =>
    obtain ⟨hc, hpre⟩ := List.forall_mem_cons.mp hpre
    rw [List.cons_append, stars, if_pos hc, ih hpre, List.count_cons]
    simp only [beq_iff_eq]
    omega

theorem neutral_flag {c : Char} (h : IsFlag c) : Neutral c ∧ c ≠ '*' := by
  have hall : ∀ c ∈ ['-', '+', ' ', '#', '0'], Neutral c ∧ c ≠ '*' := by decide
  exact hall c h

theorem neutral_digit {c : Char} (h : c.isDigit) : Neutral c ∧ c ≠ '*' := by
  have hnot : ∀ c ∈ ['%', '*', 'd', 'i', 'o', 'u', 'x', 'X', 'e', 'E', 'f', 'F', 'g', 'G', 'a', 'A',
      'c', 's', 'p', 'n', 'M'], c.isDigit = false := by decide
  have hne {d : Char} (hd : d ∈ ['%', '*', 'd', 'i', 'o', 'u', 'x', 'X', 'e', 'E', 'f', 'F', 'g',
      'G', 'a', 'A', 'c', 's', 'p', 'n', 'M']) : c ≠ d := by
    rintro rfl
    rw [hnot c hd] at h
    cases h
  refine ⟨⟨hne (by decide), ?_, ?_⟩, hne (by decide)⟩
  · rintro (hd | hi)
    · exact hne (by decide) hd
    · exact hne (by decide) hi
  · intro hunsigned
    have hsub : ∀ d, IsUnsigned d → d ∈ ['%', '*', 'd', 'i', 'o', 'u', 'x', 'X', 'e', 'E', 'f', 'F',
        'g', 'G', 'a', 'A', 'c', 's', 'p', 'n', 'M'] :=
          fun d hd => List.mem_append_right ['%', '*', 'd', 'i'] hd
    exact hne (hsub c hunsigned) rfl

theorem neutral_width {width : List Char} {w : ℕ} (h : Width width w) : (∀ c ∈ width, Neutral c) ∧
    width.count '*' = w := by
  cases h with
  | digits hds =>
    refine ⟨fun c hc => (neutral_digit (hds c hc)).1, ?_⟩
    exact List.count_eq_zero.mpr fun hmem => (neutral_digit (hds '*' hmem)).2 rfl
  | star => exact ⟨by decide, by decide⟩

theorem neutral_precision {precision : List Char} {p : ℕ} (h : Precision precision p) :
    (∀ c ∈ precision, Neutral c) ∧ precision.count '*' = p := by
  cases h with
  | none => exact ⟨List.forall_mem_nil _, rfl⟩
  | digits hds =>
    refine ⟨List.forall_mem_cons.mpr ⟨by decide, fun c hc => (neutral_digit (hds c hc)).1⟩, ?_⟩
    rw [List.count_cons_of_ne (by decide)]
    exact List.count_eq_zero.mpr fun hmem => (neutral_digit (hds '*' hmem)).2 rfl
  | star => exact ⟨by decide, by decide⟩

theorem neutral_length {length : List Char} (h : IsLength length) : (∀ c ∈ length, Neutral c) ∧
    length.count '*' = 0 := by
  have hall : ∀ cs ∈ ([[], ['h', 'h'], ['h'], ['l'], ['l', 'l'], ['j'], ['z'], ['t'], ['L']] : List
      (List Char)), (∀ c ∈ cs, Neutral c) ∧ cs.count '*' = 0 := by decide
  exact hall length h

theorem isConversion_counted {c : Char} (h : IsConversion c) :
    c ≠ '%' ∧ (IsSigned c ∨ IsUnsigned c) := by
  have hall : ∀ c ∈ ['d', 'i', 'o', 'u', 'x', 'X', 'e', 'E', 'f', 'F', 'g', 'G', 'a', 'A', 'c',
      's', 'p', 'n'], c ≠ '%' ∧ (IsSigned c ∨ IsUnsigned c) := by decide
  exact hall c h

/-- **A format uses an argument for each conversion and each star.** -/
theorem uses_eq {text : List Char} {n : ℕ} (h : Uses text n) :
    n = (conversions false text).length + stars false text := by
  induction h with
  | nil => rfl
  | char hc _ ih =>
    rw [conversions, stars, decide_eq_false hc]
    exact ih
  | percent _ ih =>
    rw [conversions, stars, decide_eq_true rfl, conversions, stars, if_pos rfl, if_neg (by decide)]
    exact ih
  | @directive flags width precision length text c w p n hflags hwidth hprecision hlength hc _ ih =>
    obtain ⟨hwidth, hw⟩ := neutral_width hwidth
    obtain ⟨hprecision, hp⟩ := neutral_precision hprecision
    obtain ⟨hlength, hl⟩ := neutral_length hlength
    obtain ⟨hpercent, hconversion⟩ := isConversion_counted hc
    have hf : flags.count '*' = 0 :=
      List.count_eq_zero.mpr fun hmem => (neutral_flag (hflags '*' hmem)).2 rfl
    have hneutral : ∀ d ∈ flags, Neutral d := fun d hd => (neutral_flag (hflags d hd)).1
    have hnot : ¬ Neutral c := fun h => hconversion.elim h.2.1 h.2.2
    rw [conversions, stars, decide_eq_true rfl, conversions_neutral hneutral,
      conversions_neutral hwidth, conversions_neutral hprecision, conversions_neutral hlength,
        stars_neutral hneutral, stars_neutral hwidth,
      stars_neutral hprecision, stars_neutral hlength, conversions, if_neg hpercent,
        if_pos hconversion, stars, if_neg hnot,
      List.length_cons]
    omega

/-! ### The table -/

def Counted (nls : NlStrings) : Prop :=
  ∀ i, ∀ format ∈ (nls i).format, (nls i).nf = (conversions false format.toList).length

theorem scanFormat_some {f f' : FormatScan} {data text rest : List Char}
    (h : scanFormat f data = some (f', text, rest)) :
    text.foldlM FormatScan.step f = some f' := by
  induction data generalizing f text with
  | nil => cases h
  | cons c data ih =>
    rw [scanFormat] at h
    split_ifs at h
    · cases h
      rfl
    · obtain ⟨f₁, hstep, hrest⟩ := Option.bind_eq_some_iff.mp h
      obtain ⟨⟨f₂, text₂, rest₂⟩, hscan, heq⟩ := Option.map_eq_some_iff.mp hrest
      cases heq
      rw [List.foldlM_cons, hstep]
      exact ih hscan

theorem counted_parseStrings {fuel : ℕ} {nls nls' : NlStrings} {data : List Char}
    (hnls : Counted nls) (h : parseStrings fuel nls data = some nls') : Counted nls' := by
  induction fuel generalizing nls data with
  | zero => cases h
  | succ fuel ih =>
    rw [parseStrings] at h
    dsimp only at h
    split_ifs at h
    · cases h
      exact hnls
    · exact ih hnls h
    · cases hscan : scanFormat ⟨false, 0, (nls (toInt (strtol data).1).toNat).signedMask⟩
        (strtol data).2.tail with
      | none =>
        rw [hscan] at h
        cases h
      | some r =>
        obtain ⟨f, text, rest⟩ := r
        rw [hscan] at h
        refine ih ?_ h
        intro i format hformat
        by_cases hi : i = (toInt (strtol data).1).toNat
        · have hfinds :=
            finds_foldlM ⟨false, 0, (nls (toInt (strtol data).1).toNat).signedMask⟩ text
          rw [scanFormat_some hscan] at hfinds
          obtain ⟨-, hlength, -⟩ := hfinds
          rw [hi, Function.update_self] at hformat ⊢
          cases hformat
          dsimp only
          rw [hlength, String.toList_ofList, Nat.zero_add]
        · rw [Function.update_of_ne hi] at hformat ⊢
          exact hnls i format hformat
    · exact ih hnls h

theorem counted_parseNLSStrings {data : List Char} {nls : NlStrings}
    (h : parseNLSStrings data = some nls) : Counted nls := by
  refine counted_parseStrings ?_ h
  intro i format hformat
  cases hformat

namespace ITCPrint

variable (p : ITCPrint) (core : ℕ) (addr data : BitVec 32)

/-- What `sprintf` is called with for a format string. -/
def sprintfCall (nls : NlString) (format : String) (channel : ℕ) (data : BitVec 32) :
    String × List PrintfArg :=
  match nlsArgs nls.nf nls.signedMask data with
  | some args => (format, args.map .int)
  | none =>
    ("Error: invalid number of args for format string %d, %s",
      [.int (BitVec.ofNat 32 channel), .str format])

/-- The address belongs to a channel with a no-load string, or to the print channel. -/
def Configured : Prop :=
  (p.itcOptFlags &&& ITC_OPT_NLS ≠ 0 ∧ addr &&& 0x03 = 0 ∧ addr.toNat / 4 < 32 ∧
    ∃ nls ∈ p.nlsStrings, (nls (addr.toNat / 4)).format.isSome) ∨
  (p.itcOptFlags &&& ITC_OPT_PRINT ≠ 0 ∧ addr.toNat - addr.toNat % 4 = (p.printChannel * 4).toNat)

/-- A call of `print` stays inside the table, passes the arguments that are used, and ignores what
belongs to no channel. -/
structure PrintsSafely (sprintf : String → List PrintfArg → List Byte) (tstamp : TIMESTAMP) :
    Prop where
  index : ∀ i ∈ p.nlsIndex core addr, i < 32
  args : ∀ nls format, core < p.numCores → p.nlsString addr = some (nls, format) →
    ∃ n, Uses (sprintfCall nls format (addr.toNat / 4) data).1.toList n ∧
      n ≤ (sprintfCall nls format (addr.toNat / 4) data).2.length
  ignored : ¬ p.Configured addr → p.print sprintf core addr data tstamp = some (false, p)

def Starless (format : String) : Prop := (∃ n, Uses format.toList n) ∧ stars false format.toList = 0

/-- The channel of a write that is looked up is one of the table, and its format, if there is one,
has more than four conversions or no stars. -/
def ChannelFits : Prop :=
  core < p.numCores → p.itcOptFlags &&& ITC_OPT_NLS ≠ 0 → addr &&& 0x03 = 0 → ∀ nls ∈ p.nlsStrings,
    addr.toNat / 4 < 32 ∧ ∀ format ∈ (nls (addr.toNat / 4)).format,
      4 < (conversions false format.toList).length ∨ Starless format

variable {p core addr data}

/-! ### One print -/

theorem nlsArgs_of_le {n : ℕ} (h : n ≤ 4) (signedMask data : BitVec 32) :
    ∃ args, nlsArgs n signedMask data = some args ∧ args.length = n := by
  have hcases : n = 0 ∨ n = 1 ∨ n = 2 ∨ n = 3 ∨ n = 4 := by omega
  rcases hcases with rfl | rfl | rfl | rfl | rfl <;> exact ⟨_, rfl, rfl⟩

theorem nlsArgs_of_lt {n : ℕ} (h : 4 < n) (signedMask data : BitVec 32) :
    nlsArgs n signedMask data = none := by
  obtain ⟨k, rfl⟩ := Nat.exists_eq_add_of_lt h
  unfold nlsArgs
  split
  · omega
  · omega
  · omega
  · omega
  · omega
  · rfl

/-- The text for a number of arguments that is not supported uses those it is given. -/
theorem uses_error : Uses "Error: invalid number of args for format string %d, %s".toList 2 := by
  have htext : "Error: invalid number of args for format string %d, %s".toList =
      "Error: invalid number of args for format string ".toList ++ '%' :: 'd' ::
        ([',', ' '] ++ '%' :: 's' :: []) := by decide
  rw [htext]
  apply Uses.chars (by decide)
  apply Uses.plain (by simp [IsConversion])
  apply Uses.chars (by decide)
  exact Uses.plain (by simp [IsConversion]) .nil

/-- A call passes the arguments that are used if and only if the format is not
passed on or has no stars. -/
theorem uses_sprintfCall_iff {nls : NlString} {format : String}
    (hnf : nls.nf = (conversions false format.toList).length) (channel : ℕ) :
    (∃ n, Uses (sprintfCall nls format channel data).1.toList n ∧ n ≤
      (sprintfCall nls format channel data).2.length) ↔
      4 < (conversions false format.toList).length ∨ Starless format := by
  unfold sprintfCall
  rw [hnf]
  by_cases hmany : 4 < (conversions false format.toList).length
  · rw [nlsArgs_of_lt hmany]
    exact iff_of_true ⟨2, uses_error, Nat.le_refl 2⟩ (.inl hmany)
  · obtain ⟨args, hargs, hlength⟩ := nlsArgs_of_le (Nat.not_lt.mp hmany) nls.signedMask data
    rw [hargs]
    dsimp only
    rw [List.length_map, hlength]
    constructor
    · rintro ⟨n, huses, hle⟩
      have hn := uses_eq huses
      exact .inr ⟨⟨n, huses⟩, by omega⟩
    · rintro (hlt | ⟨⟨n, huses⟩, hstars⟩)
      · exact absurd hlt hmany
      · have hn := uses_eq huses
        exact ⟨n, huses, by omega⟩

/-- The addresses that are compared with the print channel. -/
theorem channel_of_compared {channel addr : BitVec 32}
    (h : ¬ (addr < channel * 4 ∨ (channel + 1) * 4 ≤ addr)) :
    addr.toNat - addr.toNat % 4 = (channel * 4).toNat := by
  obtain ⟨hlow, hhigh⟩ := not_or.mp h
  rw [BitVec.not_lt, BitVec.le_def] at hlow
  rw [BitVec.not_le, BitVec.lt_def] at hhigh
  have hnext : (channel + 1) * 4 = channel * 4 + 4 := by
    rw [BitVec.add_mul]
    rfl
  have hfour : (channel * 4).toNat % 4 = 0 := by
    rw [BitVec.toNat_mul]
    change channel.toNat * 4 % 2 ^ 32 % 4 = 0
    omega
  rw [hnext, BitVec.toNat_add] at hhigh
  change addr.toNat < ((channel * 4).toNat + 4) % 2 ^ 32 at hhigh
  have hlt := (channel * 4).isLt
  omega

theorem print_ignored (sprintf : String → List PrintfArg → List Byte) (tstamp : TIMESTAMP)
    (hfits : p.ChannelFits core addr)
    (hnot : ¬ p.Configured addr) : p.print sprintf core addr data tstamp = some (false, p) := by
  unfold print
  by_cases hcore : p.numCores ≤ core
  · rw [if_pos hcore]
  · rw [if_neg hcore]
    have hnone : p.nlsString addr = none := by
      cases hstring : p.nlsString addr with
      | none => rfl
      | some r =>
        obtain ⟨nls, format⟩ := r
        obtain ⟨hflag, haligned, table, htable, rfl, hformat⟩ := nlsString_eq_some.mp hstring
        have hlt := (hfits (Nat.lt_of_not_le hcore) hflag haligned table htable).1
        have hsome : (table (addr.toNat / 4)).format.isSome := by
          rw [hformat]
          rfl
        exact absurd (.inl ⟨hflag, haligned, hlt, table, htable, hsome⟩) hnot
    rw [hnone]
    dsimp only
    by_cases hprint : p.itcOptFlags &&& ITC_OPT_PRINT = 0
    · rw [if_pos hprint]
    · rw [if_neg hprint]
      by_cases hrange : addr < p.printChannel * 4 ∨ (p.printChannel + 1) * 4 ≤ addr
      · rw [if_pos hrange]
      · exact absurd (.inr ⟨hprint, channel_of_compared hrange⟩) hnot

theorem printsSafely_iff (sprintf : String → List PrintfArg → List Byte) (tstamp : TIMESTAMP)
    (hcounted : ∀ nls ∈ p.nlsStrings, Counted nls) :
    p.PrintsSafely core addr data sprintf tstamp ↔ p.ChannelFits core addr := by
  constructor
  · intro h hcore hflag haligned nls hnls
    have hsome : p.nlsStrings.isSome := Option.isSome_iff_exists.mpr ⟨nls, hnls⟩
    have hindex : p.nlsIndex core addr = some (addr.toNat / 4) :=
      if_pos ⟨hcore, hflag, haligned, hsome⟩
    refine ⟨h.index _ hindex, fun format hformat => ?_⟩
    have hstring := nlsString_eq_some.mpr ⟨hflag, haligned, nls, hnls, rfl, hformat⟩
    exact (uses_sprintfCall_iff (hcounted nls hnls _ format hformat) (addr.toNat / 4)).mp
      (h.args _ format hcore hstring)
  · intro h
    refine ⟨?_, ?_, print_ignored sprintf tstamp h⟩
    · intro i hi
      unfold nlsIndex at hi
      split_ifs at hi with hlookup
      · obtain ⟨hcore, hflag, haligned, hsome⟩ := hlookup
        obtain ⟨nls, hnls⟩ := Option.isSome_iff_exists.mp hsome
        cases hi
        exact (h hcore hflag haligned nls hnls).1
      · cases hi
    · intro nls format hcore hstring
      obtain ⟨hflag, haligned, table, htable, rfl, hformat⟩ := nlsString_eq_some.mp hstring
      have hfits := (h hcore hflag haligned table htable).2 format hformat
      exact (uses_sprintfCall_iff (hcounted table htable _ format hformat) (addr.toNat / 4)).mpr
        hfits

/-! ### Runs -/

theorem terminate_nlsStrings (p : ITCPrint) (core : ℕ) : (p.terminate core).nlsStrings =
    p.nlsStrings := by
  unfold terminate
  cases p.lists.tsList core with
  | none => rfl
  | some h =>
    dsimp only
    split_ifs
    · rfl
    · rfl

theorem afterPrint_nlsStrings {path : PrintPath} {tstamp : TIMESTAMP} {p' : ITCPrint}
    (h : p.afterPrint core tstamp path = some p') :
    p'.nlsStrings = p.nlsStrings := by
  cases path with
  | ignored =>
    cases h
    rfl
  | nls text =>
    obtain ⟨⟨w, l⟩, -, rfl⟩ := Option.map_eq_some_iff.mp h
    exact p.terminate_nlsStrings core
  | data bytes =>
    obtain ⟨⟨w, l⟩, -, rfl⟩ := Option.map_eq_some_iff.mp h
    rfl

theorem getITCPrintMsg_nlsStrings {haveDst : Bool} {dstLen : ℤ} {r : Option Printed × ITCPrint}
    (h : p.getITCPrintMsg core haveDst dstLen = some r) : r.2.nlsStrings = p.nlsStrings := by
  rw [getITCPrintMsg] at h
  dsimp only at h
  split_ifs at h
  · cases h
    rfl
  · obtain ⟨⟨tsl, l⟩, -, rfl⟩ := Option.map_eq_some_iff.mp h
    cases tsl with
    | none => rfl
    | some tsl => rfl
  · cases h
    rfl

theorem getITCPrintStr_nlsStrings {r : Option Printed × ITCPrint}
    (h : p.getITCPrintStr core = some r) :
    r.2.nlsStrings = p.nlsStrings := by
  rw [getITCPrintStr] at h
  dsimp only at h
  split_ifs at h
  · cases h
    rfl
  · obtain ⟨⟨tsl, l⟩, -, hrest⟩ := Option.bind_eq_some_iff.mp h
    cases tsl with
    | none =>
      cases hrest
      rfl
    | some tsl =>
      obtain ⟨read, -, rfl⟩ := Option.map_eq_some_iff.mp hrest
      rfl
  · cases h
    rfl

theorem flushITCPrintMsg_nlsStrings {haveDst : Bool} {dstLen : ℤ} {r : Option Printed × ITCPrint}
    (h : p.flushITCPrintMsg core haveDst dstLen = some r) : r.2.nlsStrings = p.nlsStrings := by
  rw [flushITCPrintMsg] at h
  dsimp only at h
  split_ifs at h
  · cases h
    rfl
  · exact getITCPrintMsg_nlsStrings h
  · cases h
    rfl
  · obtain ⟨⟨tsl, l⟩, -, rfl⟩ := Option.map_eq_some_iff.mp h
    cases tsl with
    | none => rfl
    | some tsl =>
      dsimp only
      split_ifs
      · rfl
      · rfl

theorem flushITCPrintStr_nlsStrings {r : Option Printed × ITCPrint}
    (h : p.flushITCPrintStr core = some r) :
    r.2.nlsStrings = p.nlsStrings := by
  rw [flushITCPrintStr] at h
  dsimp only at h
  split_ifs at h
  · cases h
    rfl
  · exact getITCPrintStr_nlsStrings h
  · cases h
    rfl
  · obtain ⟨⟨tsl, l⟩, -, hrest⟩ := Option.bind_eq_some_iff.mp h
    cases tsl with
    | none =>
      cases hrest
      rfl
    | some tsl =>
      dsimp only at hrest
      split_ifs at hrest
      · cases hrest
        rfl
      · obtain ⟨read, -, rfl⟩ := Option.map_eq_some_iff.mp hrest
        rfl

theorem call_nlsStrings {sprintf : String → List PrintfArg → List Byte} {op : Op}
    {r : Option Printed × ITCPrint}
    (h : p.call sprintf op = some r) : r.2.nlsStrings = p.nlsStrings := by
  cases op with
  | print core addr data tstamp =>
    rw [call_print] at h
    obtain ⟨p', hp', rfl⟩ := Option.map_eq_some_iff.mp h
    exact afterPrint_nlsStrings hp'
  | getMsg => exact getITCPrintMsg_nlsStrings h
  | getStr => exact getITCPrintStr_nlsStrings h
  | flushMsg => exact flushITCPrintMsg_nlsStrings h
  | flushStr => exact flushITCPrintStr_nlsStrings h

def CallSafe (sprintf : String → List PrintfArg → List Byte) (c : ITCPrint × Op) : Prop :=
  match c.2 with
  | .print core addr data tstamp => c.1.PrintsSafely core addr data sprintf tstamp
  | _ => True

def CallFits (c : ITCPrint × Op) : Prop :=
  match c.2 with
  | .print core addr _ _ => c.1.ChannelFits core addr
  | _ => True

theorem callSafe_iff (sprintf : String → List PrintfArg → List Byte) {c : ITCPrint × Op}
    (hcounted : ∀ nls ∈ c.1.nlsStrings, Counted nls) :
    CallSafe sprintf c ↔ CallFits c := by
  obtain ⟨p, op⟩ := c
  cases op with
  | print core addr data tstamp => exact printsSafely_iff sprintf tstamp hcounted
  | _ => exact Iff.rfl

/-- **The writes of a run index existing channels only** if and only if the channel of each one that
is looked up does, and its format has no stars. The table is null or that of a section. -/
theorem calls_safe_iff (sprintf : String → List PrintfArg → List Byte) (itcPrintOpts : BitVec 32)
    (numCores buffSize : ℤ)
    (channel : BitVec 32) (nlsStrings : Option NlStrings)
    (hnls : ∀ nls ∈ nlsStrings, ∃ data, parseNLSStrings data = some nls)
    (memory : ℕ → ℕ → Byte) (ops : List Op) :
    (∀ c ∈ (ITCPrint.init itcPrintOpts numCores buffSize channel nlsStrings memory).calls sprintf
      ops, CallSafe sprintf c) ↔
      ∀ c ∈ (ITCPrint.init itcPrintOpts numCores buffSize channel nlsStrings memory).calls sprintf
        ops, CallFits c := by
  have hstep : ∀ (p : ITCPrint) (op : Op) (r : Option Printed × ITCPrint), p.nlsStrings =
      nlsStrings → p.call sprintf op = some r → r.2.nlsStrings = nlsStrings :=
        fun p op r hp h => (call_nlsStrings h).trans hp
  have htable : ∀ c ∈ (ITCPrint.init itcPrintOpts numCores buffSize channel nlsStrings memory).calls
      sprintf ops, c.1.nlsStrings = nlsStrings := forall_calls hstep rfl ops
  refine forall₂_congr fun c hc => callSafe_iff sprintf ?_
  intro nls hmem
  rw [htable c hc] at hmem
  obtain ⟨data, hparse⟩ := hnls nls hmem
  exact counted_parseNLSStrings hparse

theorem op_mem_of_mem_calls {sprintf : String → List PrintfArg → List Byte} {p : ITCPrint}
    {ops : List Op} {c : ITCPrint × Op} (h : c ∈ p.calls sprintf ops) : c.2 ∈ ops := by
  induction ops generalizing p with
  | nil => cases h
  | cons op ops ih =>
    rcases List.mem_cons.mp h with rfl | hrest
    · exact List.mem_cons_self
    · cases hcall : p.call sprintf op with
      | none =>
        rw [hcall] at hrest
        cases hrest
      | some r =>
        rw [hcall] at hrest
        exact List.mem_cons_of_mem _ (ih hrest)

/-- Writes to a channel with the format `%d`, to the print channel and to a channel that is not
configured, with a get in between. -/
def threeChannels : List Op :=
  [.print 0 12 7 0, .print 0 22 0x0a64 1, .getStr 0, .print 0 12 8 2, .print 0 28 9 3,
    .print 1 12 7 4]

theorem calls_safe_threeChannels : (parseNLSStrings ['3', ':', '%', 'd', '\x00']).isSome ∧
    ∀ c ∈ (ITCPrint.init 3 1 64 5 (parseNLSStrings ['3', ':', '%', 'd', '\x00']) fun _ _ => 0).calls
      (fun _ _ => [])
      threeChannels, CallSafe (fun _ _ => []) c := by
  refine ⟨by decide, ?_⟩
  apply (calls_safe_iff (fun _ _ => []) 3 1 64 5 (parseNLSStrings ['3', ':', '%', 'd', '\x00'])
    (fun nls hnls => ⟨_, hnls⟩) (fun _ _ => 0) threeChannels).mpr
  have hformats : (parseNLSStrings ['3', ':', '%', 'd', '\x00']).map
      (fun nls => [(nls 3).format, (nls 5).format, (nls 7).format]) =
        some [some (String.ofList ['%', 'd']), none, none] := by
    decide
  have hstep : ∀ (p : ITCPrint) (op : Op) (r : Option Printed × ITCPrint),
      p.nlsStrings = parseNLSStrings ['3', ':', '%', 'd', '\x00'] → p.call (fun _ _ => []) op =
        some r →
      r.2.nlsStrings = parseNLSStrings ['3', ':', '%', 'd', '\x00'] :=
        fun p op r hp h => (call_nlsStrings h).trans hp
  rintro ⟨p, op⟩ hc
  have hnls : p.nlsStrings = parseNLSStrings ['3', ':', '%', 'd', '\x00'] :=
    forall_calls hstep rfl threeChannels (p, op) hc
  have hd : Starless (String.ofList ['%', 'd']) := by
    rw [Starless, String.toList_ofList]
    exact ⟨⟨1, Uses.plain (by simp [IsConversion]) .nil⟩, rfl⟩
  have hfits : ∀ channel < 32, (∀ nls ∈ p.nlsStrings, ∀ format ∈ (nls channel).format,
      Starless format) → ∀ core (addr : BitVec 32), addr.toNat / 4 = channel →
        p.ChannelFits core addr := by
    rintro channel hlt hformat core addr rfl - - - nls hmem
    exact ⟨hlt, fun format hformat' => .inr (hformat nls hmem format hformat')⟩
  have hentry : ∀ nls ∈ p.nlsStrings, (nls 3).format = some (String.ofList ['%', 'd']) ∧
      (nls 5).format = none ∧ (nls 7).format = none := by
    intro nls hmem
    have hsome : parseNLSStrings ['3', ':', '%', 'd', '\x00'] = some nls := hnls.symm.trans hmem
    rw [hsome, Option.map_some, Option.some.injEq] at hformats
    simpa using hformats
  have hthree : ∀ nls ∈ p.nlsStrings, ∀ format ∈ (nls 3).format, Starless format := by
    intro nls hmem format hformat
    rw [(hentry nls hmem).1] at hformat
    cases hformat
    exact hd
  have hfive : ∀ nls ∈ p.nlsStrings, ∀ format ∈ (nls 5).format, Starless format := by
    intro nls hmem format hformat
    rw [(hentry nls hmem).2.1] at hformat
    cases hformat
  have hseven : ∀ nls ∈ p.nlsStrings, ∀ format ∈ (nls 7).format, Starless format := by
    intro nls hmem format hformat
    rw [(hentry nls hmem).2.2] at hformat
    cases hformat
  have hop : op ∈ threeChannels := op_mem_of_mem_calls hc
  simp only [threeChannels, List.mem_cons, List.not_mem_nil, or_false] at hop
  rcases hop with rfl | rfl | rfl | rfl | rfl | rfl
  · exact hfits 3 (by decide) hthree 0 12 (by decide)
  · exact hfits 5 (by decide) hfive 0 22 (by decide)
  · trivial
  · exact hfits 3 (by decide) hthree 0 12 (by decide)
  · exact hfits 7 (by decide) hseven 0 28 (by decide)
  · exact hfits 3 (by decide) hthree 1 12 (by decide)

/-- A write to channel 32. -/
theorem not_calls_safe :
    ¬ ∀ c ∈ (ITCPrint.init 2 1 16 5 (parseNLSStrings ['3', ':', '%', 'd', '\x00'])
    fun _ _ => 0).calls
    (fun _ _ => []) [.print 0 128 7 0], CallSafe (fun _ _ => []) c := by
  intro h
  have hsafe := (List.forall_mem_cons.mp h).1
  have hindex : (ITCPrint.init 2 1 16 5 (parseNLSStrings ['3', ':', '%', 'd', '\x00']) fun _ _ =>
    0).nlsIndex 0 128 = some 32 := by decide
  have hlt := hsafe.index 32 hindex
  omega

end ITCPrint

end TraceDecoder
