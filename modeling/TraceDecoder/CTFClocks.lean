import Mathlib.Data.List.Chain
import TraceDecoder.CTFLog

/-!
# The times of CTF packets

A reader runs a clock over the events of a stream: an extended header sets it, and a compact header
has its low half. The end of a packet comes from the low half of the last event as well, but with
the upper half of the first.
-/

namespace TraceDecoder

open CTFConverter

namespace CTF

def EventHeader.clock (now : BitVec 64) : EventHeader → BitVec 64
  | .extended _ timestamp => timestamp
  | .compact _ timestamp =>
    let next := (now >>> 32) <<< 32 ||| timestamp.setWidth 64
    if timestamp < now.setWidth 32 then next + 1#64 <<< 32 else next

def clocks (now : BitVec 64) : List Event → List (BitVec 64)
  | [] => []
  | e :: events => e.header.clock now :: clocks (e.header.clock now) events

def Ticks (now next : BitVec 64) : Prop := (next - now).toNat < 2 ^ 32

variable {now : BitVec 64} {events events' : List Event}

@[simp] theorem length_clocks : (clocks now events).length = events.length := by
  induction events generalizing now with
  | nil => rfl
  | cons e events ih => simp [clocks, ih]

theorem clocks_append : clocks now (events ++ events') = clocks now events ++ clocks
    ((clocks now events).getLastD now) events' := by
  induction events generalizing now with
  | nil => rfl
  | cons e events ih =>
    rw [List.cons_append, clocks, clocks, ih, List.cons_append, List.getLastD_cons]

/-- The upper half of one time with the lower half of another. -/
theorem toNat_halves (high : BitVec 64) (low : BitVec 32) :
    ((high >>> 32) <<< 32 ||| low.setWidth 64).toNat = high.toNat / 2 ^ 32 * 2 ^ 32 +
      low.toNat := by
  have hhigh := high.isLt
  have hlow := low.isLt
  have hupper : high.toNat >>> 32 <<< 32 < 2 ^ 64 := by
    rw [Nat.shiftRight_eq_div_pow, Nat.shiftLeft_eq]
    omega
  rw [BitVec.toNat_or, BitVec.toNat_shiftLeft, BitVec.toNat_ushiftRight, BitVec.toNat_setWidth,
    Nat.mod_eq_of_lt hupper, Nat.mod_eq_of_lt (by omega), ← Nat.shiftLeft_add_eq_or_of_lt hlow,
      Nat.shiftRight_eq_div_pow, Nat.shiftLeft_eq]

theorem clock_compact_eq_iff (id : BitVec 16) (now next : BitVec 64) :
    (EventHeader.compact id (next.setWidth 32)).clock now = next ↔ Ticks now next := by
  have hjoin := toNat_halves now (next.setWidth 32)
  have hnow := now.isLt
  have hnext := next.isLt
  have hstep : (1#64 <<< 32).toNat = 2 ^ 32 := rfl
  rw [Ticks, BitVec.toNat_sub]
  unfold EventHeader.clock
  dsimp only
  rw [BitVec.toNat_setWidth] at hjoin
  split_ifs with hlt
  all_goals rw [BitVec.lt_def, BitVec.toNat_setWidth, BitVec.toNat_setWidth] at hlt
  · rw [← BitVec.toNat_inj, BitVec.toNat_add, hjoin, hstep]
    omega
  · rw [← BitVec.toNat_inj, hjoin]
    omega

end CTF

namespace CTFConverter

def times (ops : List Op) : List TIMESTAMP := ops.map Op.eventTS

variable (t : CTFSettings) (core : ℕ)

theorem clocks_compact (now : BitVec 64) (ops : List Op) :
    CTF.clocks now (ops.map (Op.event t core false)) = times ops ↔
      (now :: times ops).IsChain CTF.Ticks := by
  induction ops generalizing now with
  | nil => simp [times, CTF.clocks]
  | cons op ops ih =>
    have hclock : (op.event t core false).header.clock now = op.eventTS ↔
      CTF.Ticks now op.eventTS := CTF.clock_compact_eq_iff _ _ _
    rw [List.map_cons, CTF.clocks, times, List.map_cons, ← times, List.cons_eq_cons, hclock,
      List.isChain_cons_cons]
    refine and_congr_right fun hticks => ?_
    rw [hclock.mpr hticks, ih]

/-- The times of a packet come back whatever the clock shows in front of it. -/
theorem clocks_events (now : BitVec 64) (ops : List Op) :
    CTF.clocks now (CTFStream.events t core ops) = times ops ↔ (times ops).IsChain CTF.Ticks := by
  cases ops with
  | nil => simp [times, CTFStream.events, CTF.clocks]
  | cons op ops =>
    have hclock : (op.event t core true).header.clock now = op.eventTS := rfl
    have htimes : times (op :: ops) = op.eventTS :: times ops := rfl
    rw [CTFStream.events, CTF.clocks, hclock, htimes, List.cons_eq_cons, clocks_compact]
    simp

theorem clocks_flatMap (now : BitVec 64) (opss : List (List Op)) :
    CTF.clocks now (opss.flatMap (CTFStream.events t core)) = times opss.flatten ↔ ∀ ops ∈ opss,
      (times ops).IsChain CTF.Ticks := by
  induction opss generalizing now with
  | nil => simp [times, CTF.clocks]
  | cons ops opss ih =>
    have hlength : (CTF.clocks now (CTFStream.events t core ops)).length = (times ops).length := by
      rw [CTF.length_clocks, CTFStream.events_eq, List.length_mapIdx, times, List.length_map]
    have hflatten : times (ops :: opss).flatten = times ops ++ times opss.flatten := by simp [times]
    rw [List.flatMap_cons, CTF.clocks_append, hflatten, List.forall_mem_cons, ← clocks_events t
      core now ops, ← ih ((CTF.clocks now (CTFStream.events t core ops)).getLastD now)]
    constructor
    · exact fun h => List.append_inj h hlength
    · rintro ⟨hfirst, hrest⟩
      rw [hrest, hfirst]

/-! ### The begin and the end of a packet -/

structure Spans (ops : List Op) (context : CTF.PacketContext) : Prop where
  timestamp_begin : (times ops).head? = some context.timestamp_begin
  timestamp_end : (times ops).getLast? = some context.timestamp_end ↔
    ∀ time ∈ (times ops).getLast?, time >>> 32 = context.timestamp_begin >>> 32

theorem halves_eq_iff (high time : BitVec 64) :
    (high >>> 32) <<< 32 ||| (time.setWidth 32).setWidth 64 = time ↔ time >>> 32 = high >>> 32 := by
  rw [← BitVec.toNat_inj, ← BitVec.toNat_inj, CTF.toNat_halves, BitVec.toNat_setWidth,
    BitVec.toNat_ushiftRight, BitVec.toNat_ushiftRight, Nat.shiftRight_eq_div_pow,
      Nat.shiftRight_eq_div_pow]
  omega

theorem spans_eventPacket (n : ℕ) {ops : List Op} (hne : ops ≠ []) :
    Spans ops (CTFStream.eventPacket t core (n, ops)).context := by
  obtain ⟨op, rest, rfl⟩ := List.exists_cons_of_ne_nil hne
  refine ⟨rfl, ?_⟩
  change _ = some (CTFStream.ends (op :: rest)) ↔ ∀ time ∈ (times (op :: rest)).getLast?,
    time >>> 32 = op.eventTS >>> 32
  rw [times, List.getLast?_map, CTFStream.ends]
  cases rest with
  | nil => simp [CTFStream.begins]
  | cons op' rest =>
    obtain ⟨last, hlast⟩ :=
      Option.isSome_iff_exists.mp (List.getLast?_isSome.mpr (List.cons_ne_nil op (op' :: rest)))
    have hlength : 1 < (op :: op' :: rest).length := by simp
    have hbegins : CTFStream.begins (op :: op' :: rest) = op.eventTS := rfl
    rw [if_pos hlength, hlast, hbegins, Option.map_some, Option.getD_some, Option.some.injEq,
      eq_comm, halves_eq_iff]
    simp

/-! ### What a reader sees -/

theorem flatten_packed (cs : List Call) : (packed core cs).1.flatten ++ (packed core cs).2 =
    opsOf core cs := by
  have hrun : ∀ b : List (List Op) × List Op,
      (cs.foldl (pack core) b).1.flatten ++ (cs.foldl (pack core) b).2 = b.1.flatten ++ b.2 ++
        opsOf core cs := by
    induction cs with
    | nil => simp [opsOf]
    | cons c cs ih =>
      intro b
      rw [List.foldl_cons, ih]
      cases c with
      | add op =>
        rw [opsOf, pack]
        split_ifs <;> simp_all
      | flush i =>
        rw [opsOf, pack]
        split_ifs <;> simp
  exact hrun ([], [])

/-- **The times of a file** of a core below `numCores`, in every state, behind the state dump. The
clock of a reader gives back all that were added, those of the events that wait apart, if and only
if none is more than 2^32 behind the one in front of it in its packet. Each packet begins with its
first event, and ends with its last one as long as that has the same upper half. -/
theorem times_read {t : CTFSettings} {memory : ℕ → ℕ → CTFEvent} {cs : List Call}
    (hinside : Inside t memory cs) (core : Fin t.numCores) :
    (∀ i, t.numCores ≤ i → ((init memory).calls t cs).cores i = (init memory).cores i) ∧
      ∃ packets, CTF.readFile (((init memory).calls t cs).cores core).file = some packets ∧
        (CTF.clocks 0 (packets.tail.flatMap fun p => p.2.events) ++ times (packed core cs).2 =
            times (opsOf core cs) ↔
          ∀ ops ∈ (packed core cs).1, (times ops).IsChain CTF.Ticks) ∧
        List.Forall₂ (fun ops p => Spans ops p.2.context) (packed core cs).1 packets.tail := by
  refine ⟨fun i hi => hinside.outside hi, ?_⟩
  have hrefines := (calls_refines (t := t) memory cs).streams core
  have hpacked : (packed core cs).1 = ((CTFLog.ofCalls cs).streams core).written.map Prod.snd := by
    rw [← view_ofCalls]
    rfl
  have htail : ((CTFStream.packets t core ((CTFLog.ofCalls cs).streams core).written).map fun p =>
      (p.bytes, p)).tail = ((CTFLog.ofCalls cs).streams core).written.map fun p =>
        ((CTFStream.eventPacket t core p).bytes, CTFStream.eventPacket t core p) := by
    cases ((CTFLog.ofCalls cs).streams core).written with
    | nil => rfl
    | cons p ps => simp [CTFStream.packets]
  refine ⟨_, hrefines.readFile, ?_, ?_⟩
  · have hevents : ((CTFLog.ofCalls cs).streams core).written.flatMap
        (fun p => (CTFStream.eventPacket t core p).events) = (packed core cs).1.flatMap
          (CTFStream.events t core) := by
      rw [hpacked, List.flatMap_map]
      rfl
    have htimes : times (opsOf core cs) = times (packed core cs).1.flatten ++
        times (packed core cs).2 := by
      rw [← flatten_packed, times, List.map_append]
      rfl
    rw [htail, List.flatMap_map, hevents, htimes, List.append_left_inj, clocks_flatMap]
  · rw [htail, hpacked, List.forall₂_map_left_iff, List.forall₂_map_right_iff, List.forall₂_same]
    intro p hp
    exact spans_eventPacket t core p.1 (hrefines.written p hp).1

/-- The reader of the first core's file has the three times of its events. -/
theorem times_read_turns :
    ∃ packets, CTF.readFile (((init zeros).calls twoCores turnsOfTwo).cores 0).file = some packets ∧
      CTF.clocks 0 (packets.tail.flatMap fun p => p.2.events) = [5, 9, 12] := by
  obtain ⟨-, packets, hread, hclocks, -⟩ := times_read inside_turnsOfTwo ⟨0, by decide⟩
  have hpacked : packed 0 turnsOfTwo =
      ([[.addCall 0 0x10 0x20 5], [.addRet 0 0x24 0x14 9, .addCall 0 0x28 0x50 12]], []) := by
        decide
  have hticks : ∀ ops ∈ (packed 0 turnsOfTwo).1, (times ops).IsChain CTF.Ticks := by
    rw [hpacked]
    refine List.forall_mem_cons.mpr ⟨List.isChain_singleton _, List.forall_mem_singleton.mpr ?_⟩
    exact List.isChain_pair.mpr (by decide : (12 - 9 : BitVec 64).toNat < 2 ^ 32)
  have hall := hclocks.mpr hticks
  rw [hpacked] at hall
  refine ⟨packets, hread, ?_⟩
  rwa [times, List.map_nil, List.append_nil] at hall

end CTFConverter

end TraceDecoder
