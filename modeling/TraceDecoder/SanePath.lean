import Mathlib.Data.List.Chain
import TraceDecoder.Lib.CStrings
import TraceDecoder.Lib.Paths

/-!
# Source paths

`sanePath` and the location of what it makes of a path. Between its loop and the path stands a walk
of the same kind as the one that defines locations: the names are taken away as they should be, and
only where none is left the loop goes wrong, since it keeps no more than one leading `..`, lets `..`
take away the root, and takes a separator that comes first in what it has written for the root.
-/

namespace TraceDecoder

open CString Path

inductive PathType
  | raw | toWindows | toUnix
  deriving DecidableEq, Repr

def isPathSep (c : Char) : Bool := c = '/' ∨ c = '\\'

def isLetter (c : Char) : Bool := ('a' ≤ c ∧ c ≤ 'z') ∨ ('A' ≤ c ∧ c ≤ 'Z')

/-- The scan back over a component that has been written, with the separator behind it. -/
def scanBack (sep : Char) (dst : List Char) : List Char := dst.tail.dropWhile (· ≠ sep)

/-- The loop of `sanePath`. What has been written is given backwards, so that `dst[w - 1]` is its
head; `skip` characters of the source are passed over. -/
def sanePathLoop (sep : Char) : ℕ → List Char → List Char → List Char
  | _, [], dst => dst
  | skip + 1, _ :: src, dst => sanePathLoop sep skip src dst
  | 0, c :: src, dst =>
    if c = ':' then
      if dst.head?.any isLetter then sanePathLoop sep 0 src (c :: dst.take 1)
        else sanePathLoop sep 0 src (c :: dst)
    else if isPathSep c then
      if dst.head? = some sep then sanePathLoop sep 0 src dst else sanePathLoop sep 0 src
        (sep :: dst)
    else if c = '.' then
      if dst.head? = some sep then
        if isPathSep (peek src) then sanePathLoop sep 1 src dst
        else if peek src = '.' ∧ isPathSep (peek src.tail) then sanePathLoop sep 2 src
          (scanBack sep dst)
        else sanePathLoop sep 0 src (c :: dst)
      else if dst = [] ∧ isPathSep (peek src) then sanePathLoop sep 1 src dst
      else sanePathLoop sep 0 src (c :: dst)
    else sanePathLoop sep 0 src (c :: dst)

def sanePath (pt : PathType) (src : List Char) : List Char :=
  match pt with
  | .raw => src
  | .toWindows => (sanePathLoop '\\' 0 src []).reverse
  | .toUnix => (sanePathLoop '/' 0 src []).reverse

/-- No letter stands directly in front of a colon, which is what the loop takes for a drive. -/
def NoDrive (src : List Char) : Prop := src.IsChain fun c c' => c' = ':' → isLetter c = false

instance (src : List Char) : Decidable (NoDrive src) :=
  inferInstanceAs (Decidable (List.IsChain _ src))

/-! ### What has been written -/

inductive Written
  | nothing
  | root
  | up
  deriving DecidableEq, Repr

namespace Written

/-- A separator is taken for the root at the start; `..` is written at the start, and otherwise
takes away what is there. -/
def next : Written → Top → Written
  | nothing, .again => root
  | nothing, .up => up
  | root, .again => root
  | root, .up => nothing
  | up, .again => up
  | up, .up => nothing

def toRoot : Written → Root
  | nothing => .relative 0
  | root => .absolute
  | up => .relative 1

def text : Written → List Char
  | nothing => []
  | root => ['/']
  | up => ['.', '.', '/']

end Written

/-- The written path, backwards: its start, and the names with a separator behind each. -/
def writtenBack (r : Written) : List (List Char) → List Char
  | [] => r.text.reverse
  | c :: names => '/' :: (c.reverse ++ writtenBack r names)

theorem writtenBack_head (p : Written × List (List Char)) :
    writtenBack p.1 p.2 = [] ∧ p = (.nothing, []) ∨ ∃ dst, writtenBack p.1 p.2 = '/' :: dst ∧
      p ≠ (.nothing, []) := by
  obtain ⟨r, names⟩ := p
  cases names with
  | cons c names => exact .inr ⟨_, rfl, nofun⟩
  | nil =>
    cases r with
    | nothing => exact .inl ⟨rfl, rfl⟩
    | root => exact .inr ⟨_, rfl, nofun⟩
    | up => exact .inr ⟨_, rfl, nofun⟩

/-! ### One component -/

section

variable {c rest dst : List Char} {s : Char}

theorem sanePathLoop_inside {x : Char} (hx : isPathSep x = false)
    (hc : ∀ y ∈ c, isPathSep y = false) (hdrive : NoDrive (x :: c)) :
    sanePathLoop '/' 0 (c ++ rest) (x :: dst) = sanePathLoop '/' 0 rest
      (c.reverse ++ x :: dst) := by
  induction c generalizing x dst with
  | nil => rfl
  | cons y c ih =>
    have hy := hc y List.mem_cons_self
    have hnext : sanePathLoop '/' 0 (c ++ rest) (y :: x :: dst) = sanePathLoop '/' 0 rest
        (c.reverse ++ y :: x :: dst) :=
      ih hy (fun z hz => hc z (List.mem_cons_of_mem _ hz)) (List.isChain_of_isChain_cons hdrive)
    have hletter : y = ':' → isLetter x = false := (List.isChain_cons_cons.mp hdrive).1
    have hsep : (x :: dst).head? ≠ some '/' := by
      intro heq
      rw [Option.some.inj heq] at hx
      exact absurd hx (by decide)
    rw [List.reverse_cons, List.append_assoc]
    refine Eq.trans ?_ hnext
    rw [List.cons_append, sanePathLoop]
    by_cases hcolon : y = ':'
    · rw [if_pos hcolon, if_neg]
      simp [hletter hcolon]
    · have hstart : ¬(x :: dst = [] ∧ isPathSep (peek (c ++ rest)) = true) :=
        fun h => List.cons_ne_nil _ _ h.1
      rw [if_neg hcolon, if_neg (by rw [hy]; decide), if_neg hsep, if_neg hstart, ite_self]

/-- So is its first character, unless the component is ignored or goes up and
has a separator behind it. -/
theorem sanePathLoop_first {x : Char} (hdst : dst.head? = none ∨ dst.head? = some '/')
    (hc : ∀ y ∈ x :: c, isPathSep y = false)
    (hrest : rest = [] ∨ x :: c ≠ ['.'] ∧ x :: c ≠ ['.', '.']) :
    sanePathLoop '/' 0 (x :: c ++ rest) dst = sanePathLoop '/' 0 (c ++ rest) (x :: dst) := by
  have hx := hc x List.mem_cons_self
  have hletter : dst.head?.any isLetter = false := by
    rcases hdst with h | h <;> rw [h] <;> rfl
  rw [List.cons_append, sanePathLoop, hx, hletter]
  simp only [Bool.false_eq_true, if_false]
  by_cases hcolon : x = ':'
  · rw [if_pos hcolon]
  rw [if_neg hcolon]
  by_cases hdot : x = '.'
  · subst hdot
    have hone : isPathSep (peek (c ++ rest)) = false := by
      cases c with
      | cons y c => exact hc y (by simp)
      | nil =>
        rcases hrest with rfl | ⟨hne, -⟩
        · rfl
        · exact absurd rfl hne
    have htwo : ¬(peek (c ++ rest) = '.' ∧ isPathSep (peek (c ++ rest).tail) = true) := by
      rintro ⟨hpeek, hsep⟩
      cases c with
      | nil =>
        rcases hrest with rfl | ⟨hne, -⟩
        · exact absurd hpeek (by decide)
        · exact absurd rfl hne
      | cons y c =>
        cases (show y = '.' from hpeek)
        cases c with
        | cons z c =>
          exact absurd (hc z (by simp)) (by rw [show isPathSep z = true from hsep]; decide)
        | nil =>
          rcases hrest with rfl | ⟨-, hne⟩
          · exact absurd hsep (by decide)
          · exact absurd rfl hne
    rw [if_pos rfl, hone, if_neg htwo]
    simp
  · rw [if_neg hdot]

theorem sanePathLoop_passed (hdst : dst.head? = none ∨ dst.head? = some '/')
    (hc : ∀ y ∈ c, isPathSep y = false) (hdrive : NoDrive c)
    (hrest : rest = [] ∨ c ≠ ['.'] ∧ c ≠ ['.', '.']) :
    sanePathLoop '/' 0 (c ++ rest) dst = sanePathLoop '/' 0 rest (c.reverse ++ dst) := by
  cases c with
  | nil => rfl
  | cons x c =>
    rw [sanePathLoop_first hdst hc hrest,
      sanePathLoop_inside (hc x List.mem_cons_self) (fun y hy => hc y (List.mem_cons_of_mem _ hy))
        hdrive]
    simp

end

/-! ### A path -/

section

variable {p : Written × List (List Char)}

theorem writtenBack_head? (p : Written × List (List Char)) :
    (writtenBack p.1 p.2).head? = none ∨ (writtenBack p.1 p.2).head? = some '/' := by
  rcases writtenBack_head p with ⟨h, -⟩ | ⟨dst, h, -⟩
  · exact .inl (by rw [h]; rfl)
  · exact .inr (by rw [h]; rfl)

theorem sanePathLoop_sep {s : Char} (hs : isPathSep s = true) (rest dst : List Char) :
    sanePathLoop '/' 0 (s :: rest) dst =
      if dst.head? = some '/' then sanePathLoop '/' 0 rest dst else sanePathLoop '/' 0 rest
        ('/' :: dst) := by
  have hcolon : s ≠ ':' := by
    rintro rfl
    exact absurd hs (by decide)
  rw [sanePathLoop, if_neg hcolon, if_pos hs]

theorem sanePathLoop_dot_start (src : List Char) : sanePathLoop '/' 0 ('.' :: src) [] =
    if isPathSep (peek src) then sanePathLoop '/' 1 src [] else sanePathLoop '/' 0 src ['.'] := by
  rw [sanePathLoop]
  simp only [true_and]
  rfl

theorem sanePathLoop_dot_slash (src dst : List Char) :
    sanePathLoop '/' 0 ('.' :: src) ('/' :: dst) =
    if isPathSep (peek src) then sanePathLoop '/' 1 src ('/' :: dst)
    else if peek src = '.' ∧ isPathSep (peek src.tail) then sanePathLoop '/' 2 src
      (scanBack '/' ('/' :: dst))
    else sanePathLoop '/' 0 src ('.' :: '/' :: dst) := by
  rw [sanePathLoop]
  rfl

/-- The scan back takes away one name, or what was written at the start. -/
theorem scanBack_writtenBack (hnames : ∀ c ∈ p.2, IsName isPathSep c) (hne : p ≠ (.nothing, [])) :
    scanBack '/' (writtenBack p.1 p.2) = writtenBack (step Written.next p ['.', '.']).1
      (step Written.next p ['.', '.']).2 := by
  obtain ⟨r, names⟩ := p
  cases names with
  | nil =>
    rw [step_up_nil]
    cases r with
    | nothing => exact absurd rfl hne
    | root => rfl
    | up => rfl
  | cons c names =>
    rw [step_up_cons]
    have hc := (hnames c List.mem_cons_self).noSep
    apply dropWhile_append_stop
    · intro x hx
      have hsep := hc x (List.mem_reverse.mp hx)
      have hne : x ≠ '/' := by
        rintro rfl
        exact absurd hsep (by decide)
      exact decide_eq_true hne
    · intro x hx
      rcases writtenBack_head? (r, names) with h | h
      · rw [h] at hx
        cases hx
      · rw [h] at hx
        cases hx
        rfl

theorem sanePathLoop_step {c rest : List Char} {s : Char} (hc : ∀ x ∈ c, isPathSep x = false)
    (hs : isPathSep s = true) (hdrive : NoDrive c) (hnames : ∀ c ∈ p.2, IsName isPathSep c) :
    sanePathLoop '/' 0 (c ++ s :: rest) (writtenBack p.1 p.2) =
      sanePathLoop '/' 0 rest
        (writtenBack (step Written.next p c).1 (step Written.next p c).2) := by
  rcases component_cases c with rfl | rfl | rfl | ⟨hempty, hdot, hup⟩
  · rw [List.nil_append, sanePathLoop_sep hs]
    rcases writtenBack_head p with ⟨hback, rfl⟩ | ⟨dst, hback, hne⟩
    · rfl
    · rw [if_pos (by rw [hback]; rfl)]
      congr 1
      obtain ⟨r, names⟩ := p
      cases names with
      | cons c names => rw [step_empty_cons]
      | nil =>
        cases r with
        | nothing => exact absurd rfl hne
        | root => rfl
        | up => rfl
  · rw [step_dot, List.singleton_append]
    rcases writtenBack_head p with ⟨hback, -⟩ | ⟨dst, hback, -⟩
    · rw [hback, sanePathLoop_dot_start]
      exact if_pos hs
    · rw [hback, sanePathLoop_dot_slash]
      exact if_pos hs
  · have hnot : ¬isPathSep (peek ('.' :: s :: rest)) = true := show ¬isPathSep '.' = true by decide
    rcases writtenBack_head p with ⟨hback, rfl⟩ | ⟨dst, hback, hne⟩
    · have hsecond :=
        @sanePathLoop_inside ['.'] (s :: rest) [] '.' rfl (by decide) (by simp [NoDrive])
      have hfirst := sanePathLoop_dot_start ('.' :: s :: rest)
      rw [if_neg hnot] at hfirst
      rw [hback]
      exact hfirst.trans (hsecond.trans (sanePathLoop_sep hs rest _))
    · rw [← scanBack_writtenBack hnames hne, hback]
      exact (sanePathLoop_dot_slash ('.' :: s :: rest) dst).trans
        ((if_neg hnot).trans (if_pos ⟨rfl, hs⟩))
  · rw [sanePathLoop_passed (writtenBack_head? p) hc hdrive (.inr ⟨hdot, hup⟩), sanePathLoop_sep hs,
      step_name _ _ hempty hdot hup]
    apply if_neg
    obtain ⟨x, c, hx⟩ := List.exists_cons_of_ne_nil (List.reverse_ne_nil_iff.mpr hempty)
    rw [hx]
    intro hslash
    have hsep := hc x (List.mem_reverse.mp (by rw [hx]; exact List.mem_cons_self))
    rw [Option.some.inj hslash] at hsep
    exact absurd hsep (by decide)

end

theorem noDrive_append {c rest : List Char} (h : NoDrive (c ++ rest)) : NoDrive c ∧ NoDrive rest :=
  ⟨(List.isChain_append.mp h).1, (List.isChain_append.mp h).2.1⟩

/-- The loop over a path is a walk over its components, but for the last one, which is passed on. -/
theorem sanePathLoop_walk (src : List Char) (hdrive : NoDrive src) (p : Written × List (List Char))
    (hnames : ∀ c ∈ p.2, IsName isPathSep c) :
    ∃ cs f, components isPathSep src = cs ++ [f] ∧ (∀ x ∈ f, isPathSep x = false) ∧
      (∀ c ∈ (walk Written.next p cs).2, IsName isPathSep c) ∧
      sanePathLoop '/' 0 src (writtenBack p.1 p.2) =
        f.reverse ++ writtenBack (walk Written.next p cs).1 (walk Written.next p cs).2 := by
  induction src using @Path.induction isPathSep generalizing p with
  | last f hf =>
    refine ⟨[], f, components_of_noSep hf, hf, hnames, ?_⟩
    have hpassed := @sanePathLoop_passed f [] _ (writtenBack_head? p) hf hdrive (.inl rfl)
    rw [List.append_nil] at hpassed
    exact hpassed
  | sep c s rest hc hs ih =>
    obtain ⟨hc', hrest⟩ := noDrive_append hdrive
    obtain ⟨cs, f, hcomponents, hf, hwalk, hloop⟩ :=
      ih hrest.tail (step Written.next p c) (step_isName hc hnames)
    refine ⟨c :: cs, f, ?_, hf, hwalk, ?_⟩
    · rw [components_append_sep _ _ hs, components_of_noSep hc, hcomponents]
      rfl
    · rw [sanePathLoop_step hc hs hc' hnames]
      exact hloop

/-! ### The location of what is written -/

section

variable (r : Written) {names : List (List Char)} {f : List Char}

def Written.components : Written → List (List Char)
  | nothing => []
  | root => [[]]
  | up => [['.', '.']]

theorem components_written (hnames : ∀ c ∈ names, IsName isPathSep c)
    (hf : ∀ x ∈ f, isPathSep x = false) :
    components isPathSep ((writtenBack r names).reverse ++ f) = r.components ++ names.reverse ++
      [f] := by
  induction names generalizing f with
  | nil =>
    have hstart := components_of_noSep hf
    cases r with
    | nothing => exact hstart
    | root => exact (components_append_sep [] f rfl).trans (congrArg _ hstart)
    | up => exact (components_append_sep ['.', '.'] f rfl).trans (congrArg _ hstart)
  | cons c names ih =>
    have hc := hnames c List.mem_cons_self
    have hrest := ih (fun c' hmem => hnames c' (List.mem_cons_of_mem _ hmem)) hc.noSep
    have htext : (writtenBack r (c :: names)).reverse ++ f = ((writtenBack r names).reverse ++ c) ++
        '/' :: f := by
      simp [writtenBack]
    rw [htext, components_append_sep _ _ rfl, hrest, components_of_noSep hf, List.reverse_cons,
      ← List.append_assoc]

def Written.start : Written → Root
  | root => .absolute
  | _ => .relative 0

theorem rootOf_written (hnames : ∀ c ∈ names, IsName isPathSep c)
    (hf : f.head?.any isPathSep = false) :
    rootOf isPathSep ((writtenBack r names).reverse ++ f) = r.start := by
  induction names generalizing f with
  | nil =>
    cases r with
    | nothing =>
      exact if_neg (by rw [show ((writtenBack .nothing []).reverse ++ f) = f from rfl, hf]; decide)
    | root => rfl
    | up => rfl
  | cons c names ih =>
    have hc := hnames c List.mem_cons_self
    have htext : (writtenBack r (c :: names)).reverse ++ f = (writtenBack r names).reverse ++
        (c ++ '/' :: f) := by
      simp [writtenBack]
    rw [htext]
    apply ih fun c' hmem => hnames c' (List.mem_cons_of_mem _ hmem)
    obtain ⟨x, c, rfl⟩ := List.exists_cons_of_ne_nil hc.ne_nil
    exact hc.noSep x List.mem_cons_self

theorem locate_written (hnames : ∀ c ∈ names, IsName isPathSep c)
    (hf : ∀ x ∈ f, isPathSep x = false) :
    locate isPathSep ((writtenBack r names).reverse ++ f) = step Root.next (r.toRoot, names) f := by
  have hhead : f.head?.any isPathSep = false := by
    cases f with
    | nil => rfl
    | cons x f => exact hf x List.mem_cons_self
  have hstart : walk Root.next (r.start, []) r.components = (r.toRoot, []) := by
    cases r <;> rfl
  rw [locate, components_written r hnames hf, rootOf_written r hnames hhead, walk_append,
    walk_append, hstart, walk_names Root.next _ hnames]
  rfl

end

/-- What is written denotes the location of the source if and only if both
walks come to the same root. -/
theorem locate_sanePath_iff_root {src : List Char} (hdrive : NoDrive src) :
    locate isPathSep (sanePath .toUnix src) = locate isPathSep src ↔
      (walk Written.next (.nothing, []) (components isPathSep src).dropLast).1.toRoot =
        (walk Root.next (rootOf isPathSep src, []) (components isPathSep src).dropLast).1 := by
  obtain ⟨cs, f, hcomponents, hf, hnames, hloop⟩ :=
    sanePathLoop_walk src hdrive (.nothing, []) nofun
  have hwritten : sanePath .toUnix src =
      (writtenBack (walk Written.next (.nothing, []) cs).1 (walk Written.next (.nothing, [])
        cs).2).reverse ++ f := by
    change (sanePathLoop '/' 0 src (writtenBack .nothing [])).reverse = _
    rw [hloop, List.reverse_append, List.reverse_reverse]
  have hsame := walk_snd Written.next Root.next .nothing (rootOf isPathSep src) [] cs
  rw [hwritten, locate_written _ hnames hf, locate, hcomponents, List.dropLast_concat, walk_append,
    hsame]
  exact step_inj Root.next Root.next_injective _ f

/-! ### Which paths keep their location -/

/-- A relative path goes up once at most where no name is left, and before it does so it has no
empty component there. -/
def UpFirst (ts : List Top) : Prop := ts = [] ∨ ∃ ts', ts = .up :: ts' ∧ .up ∉ ts'

/-- An absolute path does not go up at the root; `n` times it has, and an odd number of times is
made up for by an empty component. -/
def RootKept : ℕ → List Top → Prop
  | n, [] => n = 0
  | n, .up :: ts => RootKept (n + 1) ts
  | n, .again :: ts => RootKept (if n % 2 = 1 then 0 else n) ts

def PathKept (src : List Char) : Prop :=
  let ts := tops 0 (components isPathSep src).dropLast
  if src.head?.any isPathSep then RootKept 0 ts else UpFirst ts

namespace Written

variable {ts : List Top} {r : Written} {n : ℕ}

theorem toRoot_le (h : r.toRoot = .relative n) : n ≤ 1 := by
  cases r <;> cases h <;> decide

/-- Without a step up, what a further separator leaves as it is stays. -/
theorem foldl_again {r : Written} (hr : r.next .again = r) (h : .up ∉ ts) :
    ts.foldl next r = r := by
  induction ts with
  | nil => rfl
  | cons t ts ih =>
    obtain ⟨hne, hts⟩ := not_or.mp (mt List.mem_cons.mpr h)
    cases t with
    | again =>
      rw [List.foldl_cons, hr]
      exact ih hts
    | up => exact absurd rfl hne

theorem foldl_nothing (h : .up ∉ ts) :
    ts.foldl next .nothing = if ts = [] then .nothing else .root := by
  cases ts with
  | nil => rfl
  | cons t ts =>
    obtain ⟨hne, hts⟩ := not_or.mp (mt List.mem_cons.mpr h)
    cases t with
    | again => exact foldl_again rfl hts
    | up => exact absurd rfl hne

theorem foldl_up_iff : (ts.foldl next .up).toRoot = .relative (ts.count .up + 1) ↔ .up ∉ ts := by
  constructor
  · intro heq hmem
    have hcount := List.count_pos_iff.mpr hmem
    have hle := toRoot_le heq
    omega
  · intro h
    rw [foldl_again rfl h, List.count_eq_zero_of_not_mem h]
    rfl

theorem foldl_nothing_ne : (ts.foldl next .nothing).toRoot ≠ .relative (ts.count .up + 1) := by
  intro heq
  by_cases hmem : .up ∈ ts
  · have hcount := List.count_pos_iff.mpr hmem
    have hle := toRoot_le heq
    omega
  · rw [foldl_nothing hmem, List.count_eq_zero_of_not_mem hmem] at heq
    split_ifs at heq <;> cases heq

theorem foldl_root_ne : (ts.foldl next .root).toRoot ≠ .relative (ts.count .up) := by
  induction ts with
  | nil => exact nofun
  | cons t ts ih =>
    cases t with
    | again => exact ih
    | up =>
      rw [List.count_cons_self]
      exact foldl_nothing_ne

theorem foldl_relative_iff : (ts.foldl next .nothing).toRoot = .relative (ts.count .up) ↔
    UpFirst ts := by
  cases ts with
  | nil => exact iff_of_true rfl (.inl rfl)
  | cons t ts =>
    cases t with
    | again => exact iff_of_false foldl_root_ne (by rintro (h | ⟨ts', h, -⟩) <;> cases h)
    | up =>
      rw [List.count_cons_self]
      refine foldl_up_iff.trans ⟨fun h => .inr ⟨ts, rfl, h⟩, ?_⟩
      rintro (h | ⟨ts', h, hts⟩) <;> cases h
      exact hts

/-- What is written at the root after going up `n` times there. -/
def afterUps (n : ℕ) : Written := if n = 0 then .root else if n % 2 = 1 then .nothing else .up

theorem afterUps_up (n : ℕ) : (afterUps n).next .up = afterUps (n + 1) := by
  rw [afterUps, afterUps, if_neg (Nat.succ_ne_zero n)]
  by_cases hodd : n % 2 = 1
  · rw [if_neg (by omega), if_pos hodd, if_neg (by omega)]
    rfl
  · rw [if_neg hodd, if_pos (show (n + 1) % 2 = 1 by omega)]
    split_ifs <;> rfl

theorem afterUps_again (n : ℕ) : (afterUps n).next .again = afterUps
    (if n % 2 = 1 then 0 else n) := by
  by_cases hodd : n % 2 = 1
  · rw [if_pos hodd, afterUps, if_neg (by omega), if_pos hodd]
    rfl
  · rw [if_neg hodd, afterUps, if_neg hodd]
    split_ifs <;> rfl

theorem foldl_absolute_iff (n : ℕ) : (ts.foldl next (afterUps n)).toRoot = .absolute ↔
    RootKept n ts := by
  induction ts generalizing n with
  | nil =>
    change (afterUps n).toRoot = .absolute ↔ n = 0
    unfold afterUps
    split_ifs with hzero
    · exact iff_of_true rfl hzero
    · exact iff_of_false nofun hzero
    · exact iff_of_false nofun hzero
  | cons t ts ih =>
    rw [List.foldl_cons]
    cases t with
    | up =>
      rw [afterUps_up]
      exact ih _
    | again =>
      rw [afterUps_again]
      exact ih _

end Written

theorem foldl_relative (ts : List Top) (n : ℕ) :
    ts.foldl Root.next (.relative n) = .relative (ts.count .up + n) := by
  induction ts generalizing n with
  | nil => simp
  | cons t ts ih =>
    cases t with
    | again => exact (ih n).trans (by simp)
    | up =>
      exact (ih (n + 1)).trans (by rw [List.count_cons_self, Nat.add_right_comm, Nat.add_assoc])

theorem foldl_absolute (ts : List Top) : ts.foldl Root.next .absolute = .absolute := by
  induction ts with
  | nil => rfl
  | cons t ts ih => exact ih

theorem tops_absolute {src : List Char} (habsolute : src.head?.any isPathSep = true) :
    ∃ ts, tops 0 (components isPathSep src).dropLast = .again :: ts := by
  cases src with
  | nil => cases habsolute
  | cons s rest =>
    have hcomponents : components isPathSep (s :: rest) = [] :: components isPathSep rest :=
      components_append_sep [] rest habsolute
    have hne : components isPathSep rest ≠ [] := List.splitOnP_ne_nil _ _
    rw [hcomponents, List.dropLast_cons_of_ne_nil hne]
    exact ⟨_, rfl⟩

/-- **Source paths**: a path keeps its location if and only if it goes up no more than it may where
no name is left. -/
theorem locate_sanePath_iff (src : List Char) (hdrive : NoDrive src) :
    locate isPathSep (sanePath .toUnix src) = locate isPathSep src ↔ PathKept src := by
  rw [locate_sanePath_iff_root hdrive, walk_fst, walk_fst, PathKept, rootOf]
  dsimp only [List.length_nil]
  cases habsolute : src.head?.any isPathSep with
  | true =>
    obtain ⟨ts, hts⟩ := tops_absolute habsolute
    rw [if_pos rfl, if_pos rfl, foldl_absolute, hts]
    exact Written.foldl_absolute_iff 0
  | false =>
    rw [if_neg Bool.false_ne_true, if_neg Bool.false_ne_true, foldl_relative]
    exact Written.foldl_relative_iff

/-- A doubled separator, a component to be ignored and one that is taken away again. -/
theorem locate_sanePath_iff_source :
    locate isPathSep (sanePath .toUnix "src//./a/../main.c".toList) = locate isPathSep
      "src//./a/../main.c".toList ↔
      PathKept "src//./a/../main.c".toList :=
  locate_sanePath_iff _ (by decide)

/-- Of two leading `..` none is kept. -/
theorem not_locate_sanePath : ¬ ∀ src, NoDrive src →
    locate isPathSep (sanePath .toUnix src) = locate isPathSep src := by
  intro hall
  have hup := hall "../../main.c".toList (by decide)
  exact absurd hup (by decide)

end TraceDecoder
