import TraceDecoder.WalkStep

/-!
# Replay of history traces

With the counts of an indirect-history message loaded, repeated steps visit the instructions of the
path the message was made for, in order and each once, as long as the path makes no call with 2048
return addresses pending and does not wrap round at the end of the address space: addresses have 64
bits here, those of RV32 too.
-/

namespace TraceDecoder

open Isa

/-- `n` steps of the walk from an address, each with the address it was made at. -/
def replay (img : Image) (archSize : ℕ) (nm : NexusMessage) :
    ℕ → TraceType → Count → ADDRESS → Except DQErr (List (ADDRESS × Stepped))
  | 0, _, _, _ => .ok []
  | n + 1, traceType, c, addr => do
    let s ← nextAddr img archSize traceType c nm addr
    let run ← replay img archSize nm n s.traceType s.count s.pc
    return (addr, s) :: run

/-- The run visits the path and ends with no next address and no counts. -/
structure Visits (run : List (ADDRESS × Stepped)) (path : List Visit) : Prop where
  addrs : run.map (·.1) = path.map Visit.addr
  brFlags : run.map (·.2.brFlag) = path.map Visit.brFlag
  last : ∃ addr s, run.getLast? = some (addr, s) ∧ s.pc = -1 ∧ s.count.i_cnt = 0 ∧
    s.count.histBit = -1

def HtmReplays (img : Image) (xlen : Xlen) (c : Count) (nm : NexusMessage) (start : ADDRESS)
    (path : List Visit) : Prop :=
  ∃ c₁ run, c.setCounts nm.body = (.ok, c₁) ∧
    replay img xlen.archSize nm path.length .htm c₁ start = .ok run ∧ Visits run path

section
variable {img : Image} {xlen : Xlen} {room : ℕ → Prop} {fits : ADDRESS → Prop} {nm : NexusMessage}

theorem replay_cons {archSize n : ℕ} {traceType : TraceType} {c : Count} {addr : ADDRESS}
    {s : Stepped}
    {run : List (ADDRESS × Stepped)} (hs : nextAddr img archSize traceType c nm addr = .ok s)
    (hrun : replay img archSize nm n s.traceType s.count s.pc = .ok run) :
    replay img archSize nm (n + 1) traceType c addr = .ok ((addr, s) :: run) := by
  rw [replay, hs]
  change (replay img archSize nm n s.traceType s.count s.pc >>= _) = _
  rw [hrun]
  rfl

theorem Count.HoldsHistory.gives {c : Count} {v : Visit} {path : List Visit}
    (h : c.HoldsHistory (outcomes (v :: path))) :
    ∃ c', c.Gives v.taken c' ∧ c'.HoldsHistory (outcomes path) := by
  rw [outcomes_cons] at h
  cases htaken : v.taken with
  | none =>
    rw [htaken] at h
    exact ⟨c, rfl, h⟩
  | some b =>
    rw [htaken] at h
    obtain ⟨c', hconsume, hrest, -, -⟩ := h.consume
    refine ⟨c', ?_, hrest⟩
    change c.takeOutcome = some (b, c')
    rw [takeOutcome, h.countType]
    exact hconsume

theorem replay_path (nm : NexusMessage) (hroom : ∀ n, room n → n < 2048)
    (hwrap : ∀ a, fits a → xlen.wrap a = a) {stack : List ADDRESS} {start : ADDRESS}
    {path : List Visit} (hpath : HtmPath img xlen room fits stack start path) :
    ∀ c : Count, c.stack.entries = stack → c.HoldsHistory (outcomes path) →
      c.i_cnt = halfWords path →
      ∃ run, replay img xlen.archSize nm path.length .htm c start = .ok run ∧ Visits run path := by
  induction hpath with
  | @last stack v hesc =>
    intro c hstack hhist hcnt
    obtain ⟨s, hs, hpc, hflag, -, hcount⟩ := nextAddr_escapes nm hesc hstack
    have htaken : v.taken = none := by cases hesc <;> rfl
    refine ⟨[(v.addr, s)], replay_cons hs rfl, rfl, ?_, v.addr, s, rfl, hpc, ?_, ?_⟩
    · rw [List.map_singleton, hflag, List.map_singleton]
    · rw [hcount]
      simp only [Count.consumeICnt, hcnt, halfWords]
      omega
    · rw [outcomes_cons, htaken] at hhist
      rw [hcount]
      exact hhist.histBit
  | @step stack v stack' a path hpass _ ih =>
    intro c hstack hhist hcnt
    obtain ⟨c', hgives, hrest⟩ := hhist.gives
    obtain ⟨s, hs⟩ := nextAddr_passes nm hpass hroom hwrap hstack hgives
    have hcount : s.count.i_cnt = halfWords path := by
      rw [hs.count]
      simp only [Count.consumeICnt, hgives.i_cnt, hcnt, halfWords]
      omega
    have hheld : s.count.HoldsHistory (outcomes path) := by
      rw [hs.count]
      exact hrest.congr rfl rfl rfl rfl
    obtain ⟨run, hrun, hvisits⟩ := ih s.count hs.stack hheld hcount
    rw [← hs.pc, ← hs.traceType] at hrun
    obtain ⟨addr, t, hlast, hend⟩ := hvisits.last
    refine ⟨(v.addr, s) :: run, replay_cons hs.step hrun, ?_, ?_, addr, t, ?_, hend⟩
    · rw [List.map_cons, List.map_cons, hvisits.addrs]
    · rw [List.map_cons, List.map_cons, hvisits.brFlags, hs.brFlag]
    · rw [List.getLast?_cons, hlast]
      rfl

theorem historyWord_ne_zero {bs : List Bool} (hlen : bs.length ≤ 31) : historyWord bs ≠ 0 := by
  intro h
  have hbit := getLsbD_historyWord bs (i := bs.length) (by omega)
  rw [if_neg (lt_irrefl _), decide_eq_true rfl, h] at hbit
  simp at hbit

/-- Loading a history message on a core with nothing pending. -/
theorem Count.setCounts_indirectHistory {c : Count} (hpending : c.pending = false) {bs : List Bool}
    (hlen : bs.length ≤ 31) (b_type : BitVec 2) (n : ℤ) (u_addr : ADDRESS) :
    ∃ c', c.setCounts (.indirectHistory b_type n u_addr (historyWord bs)) = (.ok, c') ∧
      c'.HoldsHistory bs ∧ c'.i_cnt = c.i_cnt + n ∧ c'.stack = c.stack := by
  have hpending' : (c.setICnt n).pending = false := hpending
  obtain ⟨c', hset, hholds, hcnt, hstack⟩ := setHistory_holds hpending' hlen
  have hicnt : (if n ≠ 0 then c.setICnt n else c) = c.setICnt n := by
    split_ifs with h
    · rfl
    · rw [not_not.mp h, setICnt, Int.add_zero]
  refine ⟨c', ?_, hholds, hcnt, hstack⟩
  simp only [setCounts, newCounts, addCounts, hicnt, historyWord_ne_zero hlen, hset, ne_eq,
    not_true_eq_false, not_false_eq_true, if_true, if_false]

/-- **History replay.** A history message loaded on a core with no counts left makes the walk visit
the path, if no call of the path is made with 2048 return addresses pending and no step of it leaves
the address space. -/
theorem htmReplays (c : Count) (hidle : c.pending = false) (hcnt : c.i_cnt = 0) (start : ADDRESS)
    (path : List Visit) (hpath : HtmPath img xlen (· < 2048) xlen.Fits c.stack.entries start path)
    (hbranches : (outcomes path).length ≤ 31) (b_type : BitVec 2) (u_addr : ADDRESS)
    (hmsg : nm.body = .indirectHistory b_type (halfWords path) u_addr
      (historyWord (outcomes path))) :
    HtmReplays img xlen c nm start path := by
  obtain ⟨c₁, hset, hholds, hcnt₁, hstack⟩ :=
    Count.setCounts_indirectHistory hidle hbranches b_type (halfWords path) u_addr
  rw [hcnt, Int.zero_add] at hcnt₁
  obtain ⟨run, hrun, hvisits⟩ :=
    replay_path nm (fun _ h => h) (fun _ h => h) hpath c₁ (by rw [hstack]) hholds hcnt₁
  exact ⟨c₁, run, by rw [hmsg]; exact hset, hrun, hvisits⟩

end

/-- A call to a function that branches over its first instruction and returns. -/
def callAndReturn : Image := Image.ofWords fun a =>
  match a.toNat with
  | 0x100 => some 0x008000ef
  | 0x104 => some 0x00050067
  | 0x108 => some 0x00000463
  | 0x110 => some 0x8082
  | _ => none

def callAndReturnPath : List Visit :=
  [⟨0x100, 4, none⟩, ⟨0x108, 4, some true⟩, ⟨0x110, 2, none⟩, ⟨0x104, 4, none⟩]

def callAndReturnMessage : NexusMessage :=
  { NexusMessage.init with body := .indirectHistory 0 7 0x30 3 }

theorem htmReplays_callAndReturn :
    HtmReplays callAndReturn .rv64 Count.init callAndReturnMessage 0x100 callAndReturnPath := by
  have hcall : Passes callAndReturn .rv64 (· < 2048) Xlen.rv64.Fits [] ⟨0x100, 4, none⟩
      [0x104] 0x108 :=
    .call (by decide) (show flow 0x008000ef .rv64 = .jump 8 true by decide) (by decide) rfl
  have hbranch : Passes callAndReturn .rv64 (· < 2048) Xlen.rv64.Fits [0x104] ⟨0x108, 4, some true⟩
      [0x104] 0x110 :=
    .branch true (by decide) (show flow 0x00000463 .rv64 = .branch 8 by decide) rfl
  have hret : Passes callAndReturn .rv64 (· < 2048) Xlen.rv64.Fits [0x104] ⟨0x110, 2, none⟩ []
      0x104 :=
    .ret (w := 0x8082) (by decide) (by decide) rfl
  have hjump : Escapes callAndReturn .rv64 [] ⟨0x104, 4, none⟩ :=
    .jump (w := 0x00050067) (by decide) (by decide)
  exact htmReplays Count.init (by decide) rfl 0x100 callAndReturnPath
    (.step hcall (.step hbranch (.step hret (.last hjump)))) (by decide) 0 0x30 rfl

/-! ### Calls beyond the stack -/

/-- 2049 calls, each to the next, and a return; a jump that cannot be inferred follows each call. -/
def nestedCalls : Image := Image.ofWords fun a =>
  if a.toNat < 8 * 2049 then (if a.toNat % 8 = 0 then some 0x008000ef else some 0x00050067)
  else some 0x00008067

def callAt (i : ℕ) : ADDRESS := BitVec.ofNat 64 (8 * i)

def afterCall (i : ℕ) : ADDRESS := BitVec.ofNat 64 (8 * i + 4)

/-- The return addresses of the first `i` calls, the last one first. -/
def returnAddresses : ℕ → List ADDRESS
  | 0 => []
  | i + 1 => afterCall i :: returnAddresses i

/-- The path from call `i` on, with `n` calls to come. -/
def nestedPath (i : ℕ) : ℕ → List Visit
  | 0 => [⟨callAt i, 4, none⟩, ⟨afterCall (i - 1), 4, none⟩]
  | n + 1 => ⟨callAt i, 4, none⟩ :: nestedPath (i + 1) n

def nestedCallsMessage : NexusMessage where
  __ := NexusMessage.init
  body := .indirectHistory 0 (halfWords (nestedPath 0 2049)) 0
    (historyWord (outcomes (nestedPath 0 2049)))

theorem nestedCalls_word_callAt {i : ℕ} (hi : i < 2049) :
    nestedCalls.word (callAt i) = some 0x008000ef := by
  have hnat : (callAt i).toNat = 8 * i := by
    rw [callAt, BitVec.toNat_ofNat, Nat.mod_eq_of_lt (by omega)]
  simp only [nestedCalls, Image.ofWords, hnat, show 8 * i < 8 * 2049 by omega,
    show 8 * i % 8 = 0 by omega, if_true]
  rfl

theorem nestedCalls_word_afterCall {i : ℕ} (hi : i < 2049) :
    nestedCalls.word (afterCall i) = some 0x00050067 := by
  have hnat : (afterCall i).toNat = 8 * i + 4 := by
    rw [afterCall, BitVec.toNat_ofNat, Nat.mod_eq_of_lt (by omega)]
  simp only [nestedCalls, Image.ofWords, hnat, show 8 * i + 4 < 8 * 2049 by omega,
    show (8 * i + 4) % 8 ≠ 0 by omega, if_true, if_false]
  rfl

theorem callAt_add_eight (i : ℕ) : callAt i + 8 = callAt (i + 1) := by
  rw [callAt, callAt, Nat.mul_add, BitVec.ofNat_add]
  rfl

theorem callAt_add_four (i : ℕ) : callAt i + BitVec.ofNat 64 (size 0x008000ef) = afterCall i := by
  rw [callAt, afterCall, BitVec.ofNat_add]
  rfl

theorem nestedPath_htmPath (i n : ℕ) (hi : i + n = 2049) :
    HtmPath nestedCalls .rv64 (fun _ => True) Xlen.rv64.Fits (returnAddresses i) (callAt i)
      (nestedPath i n) := by
  induction n generalizing i with
  | zero =>
    obtain rfl : i = 2048 + 1 := hi
    have hret : Passes nestedCalls .rv64 (fun _ => True) Xlen.rv64.Fits (afterCall 2048 ::
        returnAddresses 2048) ⟨callAt 2049, 4, none⟩ (returnAddresses 2048) (afterCall 2048) :=
      .ret (w := 0x00008067) (by decide) (by decide) rfl
    have hjump : Escapes nestedCalls .rv64 (returnAddresses 2048) ⟨afterCall 2048, 4, none⟩ :=
      .jump (w := 0x00050067) (nestedCalls_word_afterCall (by omega)) (by decide)
    exact .step hret (.last hjump)
  | succ n ih =>
    have hrest := ih (i + 1) (by omega)
    rw [returnAddresses, ← callAt_add_four, ← callAt_add_eight] at hrest
    have hcall : Passes nestedCalls .rv64 (fun _ => True) Xlen.rv64.Fits (returnAddresses i)
        ⟨callAt i, 4, none⟩ ((callAt i + BitVec.ofNat 64 (size 0x008000ef)) :: returnAddresses i)
          (callAt i + 8) :=
      .call (nestedCalls_word_callAt (by omega)) (show flow 0x008000ef .rv64 =
        .jump 8 true by decide) trivial rfl
    exact .step hcall hrest

theorem length_nestedPath (i n : ℕ) : (nestedPath i n).length = n + 2 := by
  induction n generalizing i with
  | zero => rfl
  | succ n ih => rw [nestedPath, List.length_cons, ih]

theorem outcomes_nestedPath (i n : ℕ) : outcomes (nestedPath i n) = [] := by
  induction n generalizing i with
  | zero => rfl
  | succ n ih => exact ih (i + 1)

theorem nestedPath_last (i n : ℕ) (hi : i + n = 2049) :
    ((nestedPath i n).map Visit.addr).getLast? = some (afterCall 2048) := by
  induction n generalizing i with
  | zero =>
    obtain rfl : i = 2049 := hi
    rfl
  | succ n ih =>
    rw [nestedPath, List.map_cons, List.getLast?_cons, ih (i + 1) (by omega)]
    rfl

theorem length_returnAddresses (i : ℕ) : (returnAddresses i).length = i := by
  induction i with
  | zero => rfl
  | succ i ih => rw [returnAddresses, List.length_cons, ih]

theorem replay_succ {img : Image} {archSize n : ℕ} {nm : NexusMessage} {traceType : TraceType}
    {c : Count} {addr : ADDRESS} {run : List (ADDRESS × Stepped)}
    (h : replay img archSize nm (n + 1) traceType c addr = .ok run) :
    ∃ s rest, nextAddr img archSize traceType c nm addr = .ok s ∧
      replay img archSize nm n s.traceType s.count s.pc = .ok rest ∧ run = (addr, s) :: rest := by
  rw [replay] at h
  cases hs : nextAddr img archSize traceType c nm addr with
  | error e => rw [hs] at h; nomatch h
  | ok s =>
    rw [hs] at h
    change (replay img archSize nm n s.traceType s.count s.pc >>= _) = _ at h
    cases hrun : replay img archSize nm n s.traceType s.count s.pc with
    | error e => rw [hrun] at h; nomatch h
    | ok rest =>
      rw [hrun] at h
      exact ⟨s, rest, rfl, hrun, (Except.ok.inj h).symm⟩

/-- The stack takes the return addresses of the first 2048 calls. -/
theorem nestedCalls_call (nm : NexusMessage) {c : Count} {i : ℕ} (hi : i < 2049)
    (hstack : c.stack.entries = returnAddresses (min i 2048)) :
    ∃ s, nextAddr nestedCalls 64 .htm c nm (callAt i) = .ok s ∧ s.traceType = .htm ∧
      s.pc = callAt (i + 1) ∧ s.count.stack.entries = returnAddresses (min (i + 1) 2048) := by
  have hflow : flow 0x008000ef .rv64 = .jump 8 true := by decide
  have hstep := nextAddr_eq_ofFlow (nestedCalls_word_callAt hi)
    (by rw [hflow]; exact Isa.Flow.noConfusion) .htm c nm
  rw [hflow] at hstep
  refine ⟨_, hstep, rfl, callAt_add_eight i, ?_⟩
  change (c.push (callAt i + BitVec.ofNat 64 (size 0x008000ef))).stack.entries = _
  rw [callAt_add_four]
  by_cases hroom : i < 2048
  · rw [Nat.min_eq_left (by omega)] at hstack
    rw [Count.entries_push (by rw [hstack, length_returnAddresses]; exact hroom), hstack,
      Nat.min_eq_left (by omega), returnAddresses]
  · rw [Nat.min_eq_right (by omega)] at hstack ⊢
    rw [← hstack]
    exact congrArg _ (BoundedStack.push_full (by rw [hstack, length_returnAddresses]) _)

/-- The return is answered with the return address of the last call that was pushed. -/
theorem replay_nestedCalls_last {nm : NexusMessage} (i n : ℕ) (hi : i + n = 2049) (c : Count)
    (hstack : c.stack.entries = returnAddresses (min i 2048)) {run : List (ADDRESS × Stepped)}
    (h : replay nestedCalls 64 nm (n + 2) .htm c (callAt i) = .ok run) :
    (run.map (·.1)).getLast? = some (afterCall 2047) := by
  induction n generalizing i c run with
  | zero =>
    obtain rfl : i = 2049 := hi
    have hret : Passes nestedCalls .rv64 (· < 2048) Xlen.rv64.Fits (afterCall 2047 ::
        returnAddresses 2047) ⟨callAt 2049, 4, none⟩ (returnAddresses 2047) (afterCall 2047) :=
      .ret (w := 0x00008067) (by decide) (by decide) rfl
    obtain ⟨s, hs⟩ :=
      nextAddr_passes nm hret (fun _ h => h) (fun _ h => h) hstack (show c.Gives none c from rfl)
    obtain ⟨s', rest, hs', hrest, rfl⟩ := replay_succ h
    obtain rfl : s' = s := Except.ok.inj (hs'.symm.trans hs.step)
    obtain ⟨t, rest', -, hrest', rfl⟩ := replay_succ hrest
    obtain rfl : rest' = [] := (Except.ok.inj hrest').symm
    rw [hs.pc]
    rfl
  | succ n ih =>
    obtain ⟨s, hs, htype, hpc, hstack'⟩ := nestedCalls_call nm (by omega) hstack
    obtain ⟨s', rest, hs', hrest, rfl⟩ := replay_succ h
    obtain rfl : s' = s := Except.ok.inj (hs'.symm.trans hs)
    rw [htype, hpc] at hrest
    rw [List.map_cons, List.getLast?_cons, ih (i + 1) (by omega) s'.count hstack' hrest]
    rfl

def HtmReplayed (room : ℕ → Prop) (fits : Xlen → ADDRESS → Prop) : Prop :=
  ∀ (img : Image) (xlen : Xlen) (nm : NexusMessage) (start : ADDRESS) (path : List Visit)
    (b_type : BitVec 2) (u_addr : ADDRESS), HtmPath img xlen room (fits xlen) [] start path →
    (outcomes path).length ≤ 31 →
    nm.body = .indirectHistory b_type (halfWords path) u_addr (historyWord (outcomes path)) →
    HtmReplays img xlen Count.init nm start path

/-- A path that calls to any depth need not be replayed. -/
theorem not_htmReplayed_nestedCalls : ¬ HtmReplayed (fun _ => True) Xlen.Fits := by
  intro hall
  have hpath := nestedPath_htmPath 0 2049 rfl
  have hlen : (outcomes (nestedPath 0 2049)).length ≤ 31 := by
    rw [outcomes_nestedPath]
    exact Nat.zero_le _
  obtain ⟨c₁, hset, -, -, hstack⟩ :=
    Count.setCounts_indirectHistory (c := Count.init) rfl hlen 0 (halfWords (nestedPath 0 2049)) 0
  obtain ⟨c₂, run, hset', hrun, hvisits⟩ :=
    hall nestedCalls .rv64 nestedCallsMessage (callAt 0) (nestedPath 0 2049) 0 0 hpath hlen rfl
  obtain rfl : c₂ = c₁ := congrArg Prod.snd (hset'.symm.trans hset)
  have hlast := nestedPath_last 0 2049 rfl
  rw [length_nestedPath] at hrun
  rw [← hvisits.addrs, replay_nestedCalls_last 0 2049 rfl c₂ (by rw [hstack]; rfl) hrun] at hlast
  exact absurd hlast (by decide)

/-! ### Steps over the end of the address space -/

def jumpBack : Image := Image.ofWords fun a =>
  if a = 0 then some 0xff1ff06f else if a = 0xfffffff0 then some 0x00050067 else none

def jumpBackPath : List Visit := [⟨0, 4, none⟩, ⟨0xfffffff0, 4, none⟩]

def jumpBackMessage : NexusMessage := { NexusMessage.init with body := .indirectHistory 0 4 0 1 }

/-- On RV32, where the jump wraps round, the walk goes to an address of 64 bits. -/
theorem not_htmReplayed_jumpBack : ¬ HtmReplayed (· < 2048) fun _ _ => True := by
  intro hall
  have hjump : Passes jumpBack .rv32 (· < 2048) (fun _ => True) [] ⟨0, 4, none⟩ [] 0xfffffff0 :=
    .jump (by decide) (show flow 0xff1ff06f .rv32 = .jump (-16) false by decide) trivial
  have hlast : HtmPath jumpBack .rv32 (· < 2048) (fun _ => True) [] 0xfffffff0
      [⟨0xfffffff0, 4, none⟩] :=
    .last (.jump (w := 0x00050067) (by decide) (by decide))
  obtain ⟨c₁, run, hset, hrun, -⟩ :=
    hall jumpBack .rv32 jumpBackMessage 0 jumpBackPath 0 0 (.step hjump hlast) (by decide) rfl
  obtain rfl : (Count.init.setCounts jumpBackMessage.body).2 = c₁ := congrArg Prod.snd hset
  have hfails : (replay jumpBack 32 jumpBackMessage 2 .htm
      (Count.init.setCounts jumpBackMessage.body).2 0).isOk = false := by decide
  rw [show replay jumpBack 32 jumpBackMessage 2 .htm _ 0 = .ok run from hrun] at hfails
  cases hfails

/-- Neither paths of any depth nor paths that wrap round need be replayed. -/
theorem not_htmReplays : ¬ HtmReplayed (fun _ => True) Xlen.Fits ∧ ¬ HtmReplayed
    (· < 2048) fun _ _ => True :=
  ⟨not_htmReplayed_nestedCalls, not_htmReplayed_jumpBack⟩

end TraceDecoder
