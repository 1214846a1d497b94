import Mathlib.Data.List.TakeWhile

/-!
# Paths and the locations they denote

A path is cut at its separators. Empty components and `.` are ignored, `..` takes away the name in
front of it, and where there is no name left a component says something about the root only. What it
says is a parameter of the walk, so that two readings of one path differ in their roots and in
nothing else.
-/

namespace Path

/-- A component where no name is left: an empty one or `..`. -/
inductive Top
  | again
  | up
  deriving DecidableEq, Repr

section Walk

variable {R R' : Type} (next : R → Top → R) (next' : R' → Top → R')

def step (p : R × List (List Char)) (c : List Char) : R × List (List Char) :=
  if c = [] then (if p.2 = [] then (next p.1 .again, []) else p)
  else if c = ['.'] then p
  else if c = ['.', '.'] then
    match p.2 with
    | [] => (next p.1 .up, [])
    | _ :: names => (p.1, names)
  else (p.1, c :: p.2)

def walk (p : R × List (List Char)) (cs : List (List Char)) : R × List (List Char) :=
  cs.foldl (step next) p

/-- The components that come where no name is left, under `depth` names. -/
def tops : ℕ → List (List Char) → List Top
  | _, [] => []
  | depth, c :: cs =>
    if c = [] then (if depth = 0 then .again :: tops 0 cs else tops depth cs)
    else if c = ['.'] then tops depth cs
    else if c = ['.', '.'] then
      match depth with
      | 0 => .up :: tops 0 cs
      | depth + 1 => tops depth cs
    else tops (depth + 1) cs

theorem tops_cons (depth : ℕ) (c : List Char) (cs : List (List Char)) :
    tops depth (c :: cs) =
      if c = [] then (if depth = 0 then .again :: tops 0 cs else tops depth cs)
      else if c = ['.'] then tops depth cs
      else if c = ['.', '.'] then (if depth = 0 then .up :: tops 0 cs else tops (depth - 1) cs)
      else tops (depth + 1) cs := by
  cases depth <;> rfl

theorem step_empty_cons (r : R) (c : List Char) (names : List (List Char)) :
    step next (r, c :: names) [] = (r, c :: names) := by
  rw [step, if_pos rfl, if_neg (List.cons_ne_nil _ _)]

theorem step_dot (p : R × List (List Char)) : step next p ['.'] = p := by
  rw [step, if_neg (by decide), if_pos rfl]

theorem step_up_nil (r : R) : step next (r, []) ['.', '.'] = (next r .up, []) := by
  rw [step, if_neg (by decide), if_neg (by decide), if_pos rfl]

theorem step_up_cons (r : R) (c : List Char) (names : List (List Char)) :
    step next (r, c :: names) ['.', '.'] = (r, names) := by
  rw [step, if_neg (by decide), if_neg (by decide), if_pos rfl]

theorem step_name (p : R × List (List Char)) {c : List Char} (hempty : c ≠ []) (hdot : c ≠ ['.'])
    (hup : c ≠ ['.', '.']) :
    step next p c = (p.1, c :: p.2) := by
  rw [step, if_neg hempty, if_neg hdot, if_neg hup]

theorem walk_cons (p : R × List (List Char)) (c : List Char) (cs : List (List Char)) :
    walk next p (c :: cs) = walk next (step next p c) cs := rfl

theorem component_cases (c : List Char) :
    c = [] ∨ c = ['.'] ∨ c = ['.', '.'] ∨ (c ≠ [] ∧ c ≠ ['.'] ∧ c ≠ ['.', '.']) := by
  by_cases hempty : c = []
  · exact .inl hempty
  by_cases hdot : c = ['.']
  · exact .inr (.inl hdot)
  by_cases hup : c = ['.', '.']
  · exact .inr (.inr (.inl hup))
  · exact .inr (.inr (.inr ⟨hempty, hdot, hup⟩))

theorem walk_fst (p : R × List (List Char)) (cs : List (List Char)) :
    (walk next p cs).1 = (tops p.2.length cs).foldl next p.1 := by
  induction cs generalizing p with
  | nil => rfl
  | cons c cs ih =>
    obtain ⟨r, names⟩ := p
    rw [walk_cons, ih, tops_cons]
    rcases component_cases c with rfl | rfl | rfl | ⟨hempty, hdot, hup⟩
    · cases names with
      | nil => rfl
      | cons name names =>
        rw [step_empty_cons, if_pos rfl,
          if_neg (List.length_eq_zero_iff.not.mpr (List.cons_ne_nil _ _))]
    · rw [step_dot, if_neg (by decide), if_pos rfl]
    · rw [if_neg (by decide), if_neg (by decide), if_pos rfl]
      cases names with
      | nil => rw [step_up_nil]; rfl
      | cons name names => rw [step_up_cons]; rfl
    · rw [step_name next _ hempty hdot hup, if_neg hempty, if_neg hdot, if_neg hup]
      rfl

theorem walk_snd (r : R) (r' : R') (names : List (List Char)) (cs : List (List Char)) :
    (walk next (r, names) cs).2 = (walk next' (r', names) cs).2 := by
  induction cs generalizing r r' names with
  | nil => rfl
  | cons c cs ih =>
    rw [walk_cons, walk_cons]
    rcases component_cases c with rfl | rfl | rfl | ⟨hempty, hdot, hup⟩
    · cases names with
      | nil => exact ih _ _ _
      | cons name names =>
        rw [step_empty_cons, step_empty_cons]
        exact ih _ _ _
    · rw [step_dot, step_dot]
      exact ih _ _ _
    · cases names with
      | nil =>
        rw [step_up_nil, step_up_nil]
        exact ih _ _ _
      | cons name names =>
        rw [step_up_cons, step_up_cons]
        exact ih _ _ _
    · rw [step_name next _ hempty hdot hup, step_name next' _ hempty hdot hup]
      exact ih _ _ _

theorem walk_append (p : R × List (List Char)) (cs cs' : List (List Char)) :
    walk next p (cs ++ cs') = walk next (walk next p cs) cs' := List.foldl_append

/-- Under the same names, a component keeps different roots apart. -/
theorem step_inj (hnext : ∀ t, Function.Injective fun r => next r t) (names : List (List Char))
    (c : List Char) {r r' : R} :
    step next (r, names) c = step next (r', names) c ↔ r = r' := by
  constructor
  · intro heq
    have hroot := congrArg Prod.fst heq
    unfold step at hroot
    split_ifs at hroot
    · exact hnext .again hroot
    · exact hroot
    · exact hroot
    · cases names
      · exact hnext .up hroot
      · exact hroot
    · exact hroot
  · exact fun heq => by rw [heq]

end Walk

/-! ### Locations -/

section Locations

variable (isSep : Char → Bool)

def components (path : List Char) : List (List Char) := path.splitOnP isSep

structure IsName (c : List Char) : Prop where
  ne_nil : c ≠ []
  ne_dot : c ≠ ['.']
  ne_up : c ≠ ['.', '.']
  noSep : ∀ x ∈ c, isSep x = false

inductive Root
  | absolute
  | relative (up : ℕ)
  deriving DecidableEq, Repr

def Root.next : Root → Top → Root
  | absolute, _ => absolute
  | relative n, .again => relative n
  | relative n, .up => relative (n + 1)

theorem Root.next_injective (t : Top) : Function.Injective fun r => Root.next r t := by
  intro r r' heq
  cases t <;> cases r <;> cases r' <;> simp_all [Root.next]

def rootOf (path : List Char) : Root := if path.head?.any isSep then .absolute else .relative 0

def locate (path : List Char) : Root × List (List Char) :=
  walk Root.next (rootOf isSep path, []) (components isSep path)

variable {isSep}

theorem walk_names {R : Type} (next : R → Top → R) (r : R) {names : List (List Char)}
    (hnames : ∀ c ∈ names, IsName isSep c) :
    walk next (r, []) names.reverse = (r, names) := by
  induction names with
  | nil => rfl
  | cons c names ih =>
    have hc := hnames c List.mem_cons_self
    rw [List.reverse_cons, walk_append, ih fun c' hmem => hnames c' (List.mem_cons_of_mem _ hmem)]
    change step next (r, names) c = _
    exact step_name next _ hc.ne_nil hc.ne_dot hc.ne_up

theorem step_isName {R : Type} {next : R → Top → R} {p : R × List (List Char)} {c : List Char}
    (hc : ∀ x ∈ c, isSep x = false)
    (hnames : ∀ c ∈ p.2, IsName isSep c) : ∀ c' ∈ (step next p c).2, IsName isSep c' := by
  obtain ⟨r, names⟩ := p
  rcases component_cases c with rfl | rfl | rfl | ⟨hempty, hdot, hup⟩
  · cases names with
    | nil => exact nofun
    | cons name names => rwa [step_empty_cons]
  · rwa [step_dot]
  · cases names with
    | nil => exact nofun
    | cons name names =>
      rw [step_up_cons]
      exact fun c' hmem => hnames c' (List.mem_cons_of_mem _ hmem)
  · rw [step_name next _ hempty hdot hup]
    intro c' hmem
    rcases List.mem_cons.mp hmem with rfl | hmem
    · exact ⟨hempty, hdot, hup, hc⟩
    · exact hnames c' hmem

theorem components_append_sep (path rest : List Char) {s : Char} (hs : isSep s = true) :
    components isSep (path ++ s :: rest) = components isSep path ++ components isSep rest :=
  List.splitOnP_append_cons path rest hs

theorem components_of_noSep {c : List Char} (hc : ∀ x ∈ c, isSep x = false) :
    components isSep c = [c] :=
  List.splitOnP_eq_singleton hc

/-- A path is a component, or a component with a separator and a path behind it. -/
theorem induction {P : List Char → Prop} (last : ∀ c, (∀ x ∈ c, isSep x = false) → P c)
    (sep : ∀ c s rest, (∀ x ∈ c, isSep x = false) → isSep s = true → P rest → P (c ++ s :: rest))
    (path : List Char) : P path := by
  induction hlen : path.length using Nat.strongRecOn generalizing path with
  | ind n ih =>
    have hcut : path.takeWhile (!isSep ·) ++ path.dropWhile (!isSep ·) = path :=
      List.takeWhile_append_dropWhile
    have hfront : ∀ x ∈ path.takeWhile (!isSep ·), isSep x = false := fun x hx => by
      simpa using List.mem_takeWhile_imp hx
    cases hback : path.dropWhile (!isSep ·) with
    | nil =>
      rw [← hcut, hback, List.append_nil]
      exact last _ hfront
    | cons s rest =>
      have hs : isSep s = true := by
        have hhead := List.head?_dropWhile_not (!isSep ·) path
        rw [hback] at hhead
        simpa using hhead
      rw [← hcut, hback]
      refine sep _ s rest hfront hs (ih rest.length ?_ rest rfl)
      have hlength := congrArg List.length hcut
      rw [hback, List.length_append, List.length_cons] at hlength
      omega

end Locations

end Path
