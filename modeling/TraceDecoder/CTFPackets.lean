import TraceDecoder.CTFLog
import TraceDecoder.Lib.Turns

/-!
# The numbers of CTF packets

A reader of a stream takes a gap in the packet numbers for lost packets. The converter has one
counter for the files of all cores, and it stands still behind a state dump.
-/

namespace TraceDecoder

open CTFConverter

namespace CTF

def packetNumbers (packets : List (List Byte × Packet)) : List (BitVec 64) :=
  packets.map fun p => p.2.context.packet_seq_num

def Numbered (numbers : List (BitVec 64)) : Prop := numbers.IsChain fun m n => n = m + 1

end CTF

namespace CTFConverter

/-! ### Who writes a packet -/

/-- The core whose packet a call behind `cs` writes. -/
def writer (cs : List Call) : Call → Option ℕ
  | .add op => if (packed op.core cs).2.length = DQR_MAXCORES then some op.core else none
  | .flush core => if (packed core cs).2 = [] then none else some core

def writersFrom (before : List Call) : List Call → List ℕ
  | [] => []
  | c :: cs => (writer before c).toList ++ writersFrom (before ++ [c]) cs

def writers : List Call → List ℕ := writersFrom []

theorem writersFrom_append_singleton (before cs : List Call) (c : Call) :
    writersFrom before (cs ++ [c]) = writersFrom before cs ++ (writer (before ++ cs) c).toList := by
  induction cs generalizing before with
  | nil => simp [writersFrom]
  | cons c' cs ih =>
    rw [List.cons_append, writersFrom, ih, writersFrom, List.append_assoc, List.append_assoc]
    rfl

/-- The counter has the number of packets, and a packet has the number of those in front of it. -/
structure Numbers (l : CTFLog) (cores : List ℕ) : Prop where
  count : l.count = cores.length
  written : ∀ core, (l.streams core).written.map Prod.fst = turns cores core

theorem Numbers.flush {l : CTFLog} {cores : List ℕ} (h : Numbers l cores) (core : ℕ) :
    Numbers (l.flush core)
      (cores ++ (if (l.streams core).waiting = [] then none else some core).toList) := by
  unfold CTFLog.flush
  split_ifs with hnil
  · simpa using h
  · constructor
    · simp [h.count]
    · intro i
      rw [Option.toList_some, turns_append_singleton]
      dsimp only
      by_cases hi : i = core
      · rw [hi, Function.update_self, List.map_append, h.written, if_pos rfl, ← h.count]
        rfl
      · rw [Function.update_of_ne hi, h.written, if_neg (Ne.symm hi), List.append_nil]

theorem Numbers.put {l : CTFLog} {cores : List ℕ} (h : Numbers l cores) (op : Op) :
    Numbers (l.put op) cores := by
  refine ⟨h.count, fun i => ?_⟩
  rw [← h.written i]
  unfold CTFLog.put
  dsimp only
  by_cases hi : i = op.core
  · rw [hi, Function.update_self]
  · rw [Function.update_of_ne hi]

theorem waiting_ofCalls (cs : List Call) (core : ℕ) : ((CTFLog.ofCalls cs).streams core).waiting =
    (packed core cs).2 := by
  rw [← view_ofCalls]
  rfl

theorem numbers_ofCalls (cs : List Call) : Numbers (CTFLog.ofCalls cs) (writers cs) := by
  induction cs using List.reverseRecOn with
  | nil => exact ⟨rfl, fun _ => rfl⟩
  | append_singleton cs c ih =>
    have hstep : CTFLog.ofCalls (cs ++ [c]) = (CTFLog.ofCalls cs).call c := by
      rw [CTFLog.ofCalls, List.foldl_append]
      rfl
    rw [hstep, writers, writersFrom_append_singleton, ← writers, List.nil_append]
    cases c with
    | flush core =>
      rw [writer, ← waiting_ofCalls]
      exact ih.flush core
    | add op =>
      change Numbers ((CTFLog.ofCalls cs).add op) _
      rw [writer, ← waiting_ofCalls, CTFLog.add]
      split_ifs with hfull
      · have hne : ((CTFLog.ofCalls cs).streams op.core).waiting ≠ [] := by
          intro hnil
          rw [hnil] at hfull
          exact absurd hfull (by decide)
        have hflush := ih.flush op.core
        rw [if_neg hne] at hflush
        exact hflush.put op
      · simpa using ih.put op

/-! ### What a reader sees -/

theorem packetNumbers_packets (t : CTFSettings) (core : ℕ) (ps : List (ℕ × List Op)) :
    CTF.packetNumbers ((CTFStream.packets t core ps).map fun p => (p.bytes, p)) =
      ((ps.map Prod.fst).take 1 ++ ps.map Prod.fst).map seqNum := by
  cases ps with
  | nil => rfl
  | cons p ps =>
    unfold CTF.packetNumbers CTFStream.packets
    simp only [List.map_cons, List.map_map, List.take_succ_cons, List.take_zero, List.cons_append,
      List.nil_append]
    rfl

theorem numbered_take_one_append {ns : List ℕ} :
    CTF.Numbered ((ns.take 1 ++ ns).map (BitVec.ofNat 64)) ↔ ns = [] := by
  constructor
  · intro h
    cases ns with
    | nil => rfl
    | cons n ns =>
      have hsame : BitVec.ofNat 64 n = BitVec.ofNat 64 n + 1 := (List.isChain_cons_cons.mp h).1
      exact absurd hsame (by bv_omega)
  · rintro rfl
    exact List.isChain_nil

theorem numbered_map_ofNat {ns : List ℕ} (h : ∀ n ∈ ns, n < 2 ^ 31) :
    CTF.Numbered (ns.map (BitVec.ofNat 64)) ↔ ns.IsChain (fun a b : ℕ => b = a + 1) := by
  unfold CTF.Numbered
  rw [List.isChain_map]
  induction ns with
  | nil => simp
  | cons n ns ih =>
    cases ns with
    | nil => simp
    | cons n' ns =>
      have hn := h n List.mem_cons_self
      have hn' := h n' (List.mem_cons_of_mem _ List.mem_cons_self)
      rw [List.isChain_cons_cons, List.isChain_cons_cons, ih fun m hm =>
        h m (List.mem_cons_of_mem _ hm)]
      have hnext : BitVec.ofNat 64 n' = BitVec.ofNat 64 n + 1 ↔ n' = n + 1 := by bv_omega
      rw [hnext]

/-- **The numbers of the packets**, in the files of the cores there are, in every state:
those that the core has from the counter, the first of them twice. A file without packets
apart, a reader always finds a gap, and it finds one behind the state dump whenever another
core has written in between. -/
theorem packets_numbered {t : CTFSettings} {memory : ℕ → ℕ → CTFEvent} {cs : List Call}
    (hinside : Inside t memory cs) (core : Fin t.numCores) :
    (∀ i, t.numCores ≤ i → ((init memory).calls t cs).cores i = (init memory).cores i) ∧
      ((init memory).calls t cs).packetSeqNum = (writers cs).length ∧
      ∃ packets, CTF.readFile (((init memory).calls t cs).cores core).file = some packets ∧
        CTF.packetNumbers packets =
          ((turns (writers cs) core).take 1 ++ turns (writers cs) core).map (BitVec.ofNat 64) ∧
        (CTF.Numbered (CTF.packetNumbers packets) ↔ (core : ℕ) ∉ writers cs) ∧
        (CTF.Numbered (CTF.packetNumbers packets).tail ↔ ∀ i m j : ℕ, i < m → m < j →
          (writers cs)[i]? = some (core : ℕ) → (writers cs)[j]? = some (core : ℕ) →
            (writers cs)[m]? = some (core : ℕ)) := by
  have hrefines := calls_refines (t := t) memory cs
  have hnumbers := numbers_ofCalls cs
  have hlength := hrefines.count.trans hnumbers.count
  have hcount : (writers cs).length < 2 ^ 31 := hlength ▸ hinside.count
  refine ⟨fun i hi => hinside.outside hi, hlength, _, (hrefines.streams core).readFile, ?_⟩
  have hread := packetNumbers_packets t core ((CTFLog.ofCalls cs).streams core).written
  have hlt : ∀ n ∈ turns (writers cs) core, n < 2 ^ 31 := by
    intro n hn
    have hn' := (List.getElem?_eq_some_iff.mp (mem_turns.mp hn)).1
    omega
  have hseq : ∀ n ∈ (turns (writers cs) core).take 1 ++ turns (writers cs) core,
      seqNum n = BitVec.ofNat 64 n := by
    intro n hn
    rcases List.mem_append.mp hn with hn | hn
    · exact seqNum_of_lt (hlt n (List.mem_of_mem_take hn))
    · exact seqNum_of_lt (hlt n hn)
  rw [hnumbers.written, List.map_congr_left hseq] at hread
  rw [hread]
  refine ⟨rfl, ?_, ?_⟩
  · rw [numbered_take_one_append, turns_eq_nil_iff]
  · have htail : (((turns (writers cs) core).take 1 ++ turns (writers cs) core).map
        (BitVec.ofNat 64)).tail = (turns (writers cs) core).map (BitVec.ofNat 64) := by
      cases turns (writers cs) core <;> rfl
    rw [htail, numbered_map_ofNat hlt, turns_isChain_iff]

/-- The first core has packets 0 and 2, the second packet 1. -/
theorem packets_numbered_turns :
    ∃ packets, CTF.readFile (((init zeros).calls twoCores turnsOfTwo).cores 0).file = some packets ∧
      CTF.packetNumbers packets = [0, 0, 2] ∧ ¬ CTF.Numbered (CTF.packetNumbers packets).tail := by
  obtain ⟨-, -, packets, hread, hnumbers, -, htail⟩ :=
    packets_numbered inside_turnsOfTwo ⟨0, by decide⟩
  refine ⟨packets, hread, hnumbers.trans (by decide), fun h => ?_⟩
  exact absurd (htail.mp h 0 1 2 (by decide) (by decide) (by decide) (by decide)) (by decide)

end CTFConverter

end TraceDecoder
