import TraceDecoder.FlowStep
import TraceDecoder.States

/-!
# The search for the start of a cycle-accurate trace

`nextCAAddr` runs the program from the start of the cycle-accurate trace, with one saved address for
a call stack. A swap should save the address behind it as a call does, but `jalr` saves none and
`c.jalr` its own; `c.ebreak` is run as an ordinary instruction; and no address of RV32 wraps round.
-/

namespace TraceDecoder

open Isa

/-- Where a program goes after an instruction, if the program and its pending calls tell, and the
calls pending then; `next` is the sum of the address and the size. -/
def Isa.Flow.exec (xlen : Xlen) (f : Flow) (next addr : ADDRESS) (stack : List ADDRESS) :
    Option ADDRESS × List ADDRESS :=
  match f with
  | .sequential => (some (xlen.wrap next), stack)
  | .jump offset link =>
    (some (xlen.wrap (addr + offset)), if link then xlen.wrap next :: stack else stack)
  | .branch offset => (if next = addr + offset then some (xlen.wrap next) else none, stack)
  | .indirect .jump => (none, stack)
  | .indirect .call => (none, xlen.wrap next :: stack)
  | .indirect .ret => (stack.head?, stack.tail)
  | .indirect .swap => (stack.head?, xlen.wrap next :: stack.tail)
  | .trap | .trapReturn => (none, stack)

def Isa.Flow.saves : Flow → Bool
  | .jump _ link => link
  | .indirect .call | .indirect .swap => true
  | .sequential | .branch _ | .indirect .jump | .indirect .ret | .trap | .trapReturn => false

/-- `nextCAAddr` on an image; `none` if the instruction cannot be fetched or decoded. -/
def nextCA (img : Image) (archSize : ℕ) (addr savedAddr : ADDRESS) : Option (ADDRESS × ADDRESS) :=
  (img.word addr).bind fun w => (Disassembler.decodeInstruction w archSize).map
    fun d => TraceM.nextCAAddrOf d addr savedAddr

variable (img : Image) (xlen : Xlen) (allowed : ADDRESS → Prop) (start : ADDRESS)

def behind (w : RV_INST) (a : ADDRESS) : ADDRESS := a + BitVec.ofNat 64 (size w)

/-- The search from a start address over allowed instructions, with the calls pending in the program
beside it: the program never has more than one. -/
inductive CASearch : List ADDRESS → ADDRESS → ADDRESS → Prop
  | start : CASearch [] start (-1)
  | step {stack a saved w next saved'} (h : CASearch stack a saved) (hallowed : allowed a)
      (hw : img.word a = some w) (hcall : nextCA img xlen.archSize a saved = some (next, saved'))
        (hok : next ≠ -1)
      (hdepth : ((flow w xlen).exec xlen (behind w a) a stack).2.length ≤ 1) :
      CASearch ((flow w xlen).exec xlen (behind w a) a stack).2 next saved'

/-- The address that `nextCAAddr` returns is where the program goes, and behind a call or swap it
saves the return address. -/
def Isa.Flow.Right (xlen : Xlen) (f : Flow) (next addr : ADDRESS) (stack : List ADDRESS)
    (p : ADDRESS × ADDRESS) : Prop :=
  (p.1 ≠ -1 → (f.exec xlen next addr stack).1 = some p.1) ∧ (f.saves → p.2 = xlen.wrap next)

/-- A call of `nextCAAddr` follows the program. -/
def FollowsCalls (stack : List ADDRESS) (a saved : ADDRESS) : Prop :=
  ∀ w p, img.word a = some w → nextCA img xlen.archSize a saved = some p →
    (flow w xlen).Right xlen (behind w a) a stack p

/-- An address that the instruction asks for is behind the end of the address space. The address -1
stands for no address. -/
def Isa.Flow.Leaves (xlen : Xlen) (f : Flow) (next addr : ADDRESS) : Prop :=
  match f with
  | .sequential => next ≠ -1 ∧ ¬ xlen.Fits next
  | .jump offset link => addr + offset ≠ -1 ∧ ¬ xlen.Fits (addr + offset) ∨ link = true ∧
      ¬ xlen.Fits next
  | .branch offset => next = addr + offset ∧ next ≠ -1 ∧ ¬ xlen.Fits next
  | .indirect .call => ¬ xlen.Fits next
  | .indirect .jump | .indirect .ret | .indirect .swap | .trap | .trapReturn => False

/-- A swap, a trap that the decoder takes for an ordinary instruction, or an address that should
wrap round. -/
def Missed (a : ADDRESS) : Prop :=
  ∃ w d, img.word a = some w ∧ Disassembler.decodeInstruction w xlen.archSize = some d ∧
    (flow w xlen = .indirect .swap ∧ (d.inst_type = .cJalr ∨ xlen.wrap (behind w a) ≠ -1) ∨
      flow w xlen = .trap ∧ flowOf d = .sequential ∧ behind w a ≠ -1 ∨
      (flow w xlen).Leaves xlen (behind w a) a)

/-- What `nextCAAddr` does at an instruction of the given flow; `swapped` is what a swap saves. -/
def Isa.Flow.nextCA (f : Flow) (swapped next addr savedAddr : ADDRESS) : ADDRESS × ADDRESS :=
  match f with
  | .sequential => (next, savedAddr)
  | .jump offset link => (addr + offset, if link then next else savedAddr)
  | .branch offset => (if next = addr + offset then addr + offset else -1, savedAddr)
  | .indirect .jump => (-1, savedAddr)
  | .indirect .call => (-1, next)
  | .indirect .ret => (savedAddr, -1)
  | .indirect .swap => (savedAddr, swapped)
  | .trap | .trapReturn => (-1, savedAddr)

theorem nextCAAddrOf_eq (d : DecodedInst) (addr savedAddr : ADDRESS) :
    TraceM.nextCAAddrOf d addr savedAddr =
      (flowOf d).nextCA (if d.inst_type = .cJalr then addr else -1)
      (addr + BitVec.ofNat 64 (d.inst_size / 8)) addr savedAddr := by
  cases ht : d.inst_type <;> simp only [TraceM.nextCAAddrOf, flowOf, ht, Flow.nextCA]
  case jalr =>
    cases hrd : isLink d.rd <;> cases hrs1 : isLink d.rs1
    · simp
    · simp
    · simp
    · by_cases heq : d.rd = d.rs1 <;> simp [heq]
  case cJ => simp
  case cJr => cases isLink d.rs1 <;> simp
  case cJalr => by_cases hrs1 : d.rs1 = REG_5 <;> simp [hrs1]

theorem behind_ne_self (xlen : Xlen) (w : RV_INST) (a : ADDRESS) : a ≠ xlen.wrap (behind w a) := by
  unfold behind size
  cases xlen <;> simp only [Xlen.wrap] <;> split_ifs <;> bv_omega

section
variable {img xlen allowed start} {stack : List ADDRESS} {a saved : ADDRESS}

theorem nextCA_of_word {w : RV_INST} (hw : img.word a = some w) (saved : ADDRESS) :
    ∃ d, Decoded xlen w d ∧ nextCA img xlen.archSize a saved =
      some ((flowOf d).nextCA (if d.inst_type = .cJalr then a else -1) (behind w a) a saved) := by
  obtain ⟨d, hd⟩ := exists_decoded img xlen hw
  refine ⟨d, hd, ?_⟩
  have hbytes : d.inst_size / 8 = size w := by
    rw [hd.inst_size]
    omega
  simp only [TraceDecoder.nextCA, hw, hd.decodes, Option.bind_some, Option.map_some,
    nextCAAddrOf_eq, hbytes, behind]

/-- At an instruction that the decoder takes for what it is, only a swap goes wrong, and an address
that should wrap round. -/
theorem Isa.Flow.right_nextCA (f : Flow) (swapped next : ADDRESS)
    (hsaved : saved = stack.head?.getD (-1)) :
    f.Right xlen next a stack (f.nextCA swapped next a saved) ↔
      (f = .indirect .swap → swapped = xlen.wrap next) ∧ ¬ f.Leaves xlen next a := by
  have hhead : saved ≠ -1 → stack.head? = some saved := by
    rw [hsaved]
    cases stack with
    | nil => exact fun h => absurd rfl h
    | cons target rest => exact fun _ => rfl
  cases f with
  | sequential | trap | trapReturn => simp [Right, nextCA, exec, saves, Flow.Leaves, Xlen.Fits]
  | jump offset link =>
    have hcomm : next = xlen.wrap next ↔ xlen.wrap next = next := eq_comm
    cases link <;> simp [Right, nextCA, exec, saves, Flow.Leaves, Xlen.Fits, hcomm]
  | branch offset =>
    by_cases h : next = a + offset
    · simp [Right, nextCA, exec, saves, Flow.Leaves, Xlen.Fits, h]
    · simp [Right, nextCA, exec, saves, Flow.Leaves, h]
  | indirect hint =>
    cases hint with
    | jump => simp [Right, nextCA, exec, saves, Flow.Leaves]
    | call => simp [Right, nextCA, exec, saves, Flow.Leaves, Xlen.Fits, eq_comm]
    | ret => simpa [Right, nextCA, exec, saves, Flow.Leaves] using hhead
    | swap => simpa [Right, nextCA, exec, saves, Flow.Leaves] using fun _ => hhead

/-- The saved address keeps being the return address of the pending call. -/
theorem Isa.Flow.nextCA_saved (f : Flow) {swapped next : ADDRESS}
    (hsaved : saved = stack.head?.getD (-1)) (hdepth : stack.length ≤ 1)
    (hok : (f.nextCA swapped next a saved).1 ≠ -1)
    (hswap : f = .indirect .swap → swapped = xlen.wrap next) (hinside : ¬ f.Leaves xlen next a) :
    (f.nextCA swapped next a saved).2 = (f.exec xlen next a stack).2.head?.getD (-1) := by
  cases f with
  | sequential | branch | trap | trapReturn => exact hsaved
  | jump offset link =>
    cases link with
    | true => exact (not_not.mp fun hwrap => hinside (.inr ⟨rfl, hwrap⟩)).symm
    | false => exact hsaved
  | indirect hint =>
    cases hint with
    | jump => exact hsaved
    | call => exact (not_not.mp hinside).symm
    | ret =>
      match stack with
      | [] | [_] => rfl
      | _ :: _ :: _ => exact absurd hdepth (by simp)
    | swap => exact hswap rfl

theorem Missed.iff_of_decoded {w : RV_INST} {d : DecodedInst} (hw : img.word a = some w)
    (hd : Decoded xlen w d) :
    Missed img xlen a ↔
      flow w xlen = .indirect .swap ∧ (if d.inst_type = .cJalr then a else -1) ≠ xlen.wrap
        (behind w a) ∨
      flow w xlen = .trap ∧ flowOf d = .sequential ∧ behind w a ≠ -1 ∨
      (flow w xlen).Leaves xlen (behind w a) a := by
  have hswap : (d.inst_type = .cJalr ∨ xlen.wrap (behind w a) ≠ -1) ↔
      (if d.inst_type = .cJalr then a else -1) ≠ xlen.wrap (behind w a) := by
    by_cases h : d.inst_type = .cJalr
    · simp [h, behind_ne_self]
    · simp [h, eq_comm]
  rw [← hswap]
  constructor
  · rintro ⟨w', d', hw', hd', h⟩
    rw [hw, Option.some.injEq] at hw'
    subst hw'
    rw [hd.decodes, Option.some.injEq] at hd'
    subst hd'
    exact h
  · exact fun h => ⟨w, d, hw, hd.decodes, h⟩

theorem follows_of_word {w : RV_INST} {p : ADDRESS × ADDRESS} (hw : img.word a = some w)
    (hnext : nextCA img xlen.archSize a saved = some p) :
    FollowsCalls img xlen stack a saved ↔ (flow w xlen).Right xlen (behind w a) a stack p := by
  constructor
  · exact fun h => h w p hw hnext
  · intro h w' p' hw' hnext'
    rw [hw, Option.some.injEq] at hw'
    rw [hnext, Option.some.injEq] at hnext'
    rwa [← hw', ← hnext']

/-- Where the saved address is right, one call follows the program unless it
misses the instruction. -/
theorem follows_iff (hsaved : saved = stack.head?.getD (-1)) :
    FollowsCalls img xlen stack a saved ↔ ¬ Missed img xlen a := by
  cases hw : img.word a with
  | none =>
    refine iff_of_true (fun w p hw' => ?_) ?_
    · rw [hw] at hw'
      cases hw'
    · rintro ⟨w, d, hw', -⟩
      rw [hw] at hw'
      cases hw'
  | some w =>
    obtain ⟨d, hd, hnext⟩ := nextCA_of_word hw saved
    rw [follows_of_word hw hnext, Missed.iff_of_decoded hw hd]
    rcases hd.flow with hf | ⟨htrap, hseq⟩
    · rw [hf, Isa.Flow.right_nextCA _ _ _ hsaved]
      constructor
      · rintro ⟨hright, hinside⟩ (⟨hswap, hne⟩ | ⟨htrap, hseq, -⟩ | hleaves)
        · exact hne (hright hswap)
        · rw [htrap] at hseq
          cases hseq
        · exact hinside hleaves
      · intro h
        exact ⟨fun hswap => not_not.mp fun hne => h (.inl ⟨hswap, hne⟩), fun hleaves =>
          h (.inr (.inr hleaves))⟩
    · rw [htrap, hseq]
      simp [Flow.Right, Flow.nextCA, Flow.exec, Flow.saves, Flow.Leaves]

/-- In a search that misses no instruction the saved address is the return
address of the pending call. -/
theorem CASearch.saved_eq (h : CASearch img xlen (fun a => ¬ Missed img xlen a) start
      stack a saved) :
    saved = stack.head?.getD (-1) ∧ stack.length ≤ 1 := by
  induction h with
  | start => exact ⟨rfl, Nat.zero_le _⟩
  | @step stack a saved w next saved' _ hfine hw hcall hok hdepth ih =>
    obtain ⟨hsaved, hlen⟩ := ih
    obtain ⟨d, hd, hnext⟩ := nextCA_of_word hw saved
    rw [hcall, Option.some.injEq] at hnext
    rw [Missed.iff_of_decoded hw hd, not_or, not_or] at hfine
    obtain ⟨hswap, htrap, hinside⟩ := hfine
    have hstep := congrArg Prod.fst hnext
    refine ⟨?_, hdepth⟩
    rcases hd.flow with hf | ⟨hf, hseq⟩
    · rw [show saved' = _ from congrArg Prod.snd hnext, hf]
      rw [hf] at hstep
      have hright : flow w xlen = .indirect .swap →
          (if d.inst_type = .cJalr then a else -1) = xlen.wrap (behind w a) :=
        fun h => not_not.mp fun hne => hswap ⟨h, hne⟩
      exact (flow w xlen).nextCA_saved hsaved hlen (hstep ▸ hok) hright hinside
    · -- an exception that is taken for an ordinary instruction
      rw [hseq] at hstep
      exact absurd ⟨hf, hseq, fun hnone => hok (hstep.trans hnone)⟩ htrap

/-- **The search follows the program** from instruction to instruction until it misses one: in a
search that has missed none, the next call follows the program if and only if it does not miss its
instruction either. -/
theorem CASearch.follows_program (h : CASearch img xlen (fun a => ¬ Missed img xlen a) start
      stack a saved) :
    FollowsCalls img xlen stack a saved ↔ ¬ Missed img xlen a :=
  TraceDecoder.follows_iff h.saved_eq.1

end

/-- `jal x5, 8`, then `jalr x1, 0(x5)` as the function that is called. -/
def swapImage : Image := Image.ofWords fun a => if a = 0 then some 0x008002ef else if a = 8
    then some 0x000280e7 else none

theorem CASearch.swapImage (allowed : ADDRESS → Prop) (h : allowed 0) :
    CASearch swapImage .rv64 allowed 0 [4] 8 4 :=
  .step (w := 0x008002ef) .start h (by decide) (by decide) (by decide) (by decide)

theorem not_missed_call : ¬ Missed swapImage .rv64 0 := by
  rintro ⟨w, d, hw, -, h⟩
  rw [show swapImage.word 0 = some 0x008002ef by decide, Option.some.injEq] at hw
  subst hw
  have hflow : flow 0x008002ef .rv64 = .jump 8 true := by decide
  rw [hflow] at h
  obtain ⟨hf, -⟩ | ⟨hf, -⟩ | ⟨-, hout⟩ | ⟨-, hout⟩ := h
  · cases hf
  · cases hf
  · exact hout rfl
  · exact hout rfl

/-- The search has followed the program to the swap. -/
theorem CASearch.follows_swap : FollowsCalls TraceDecoder.swapImage .rv64 [4] 8 4 ↔
    ¬ Missed TraceDecoder.swapImage .rv64 8 :=
  CASearch.follows_program (CASearch.swapImage _ not_missed_call)

/-- At a swap it does not save where the function has to return to. -/
theorem not_follows_swap : ¬ ∀ img xlen start stack a saved, CASearch img xlen
    (fun _ => True) start stack a saved →
    FollowsCalls img xlen stack a saved := by
  intro hall
  have hright := hall swapImage .rv64 0 [4] 8 4 (CASearch.swapImage _ trivial) 0x000280e7 (4, -1)
    (by decide) (by decide)
  exact absurd (hright.2 (by decide)) (by decide)

end TraceDecoder
