import Mathlib.Tactic.Common
import TraceDecoder.IoConnections

/-!
# Handing over the results of `select`

In the mode with threads one thread calls `select` for the thread that serves the connections, and
another one reads the serial device. A step is what a thread does while it holds the mutex, or
between two such sections. The connections are given by their descriptors.

The numbers of the calls and of the results, and which results a call has found valid, are not kept
by the code.
-/

namespace TraceDecoder

/-- Where the thread that calls `serviceConnections` is. -/
inductive MainThread
  | outside
  | waiting
  | server
  | accepting
  | serial
  | reading
  | clients (served todo : List ℤ)
  | receiving (served : List ℤ) (fd : ℤ) (todo : List ℤ)
  deriving DecidableEq, Repr

/-- Where the thread that calls `select` is. -/
inductive SelectThread
  | awaitRequest
  | selecting
  | awaitAck
  deriving DecidableEq, Repr

structure Threads where
  (selectRequestValid selectResponseValid selectResponseAck : Bool)
  selectResultReadSet : List ℤ
  serialLookahead : List Byte
  serverSocketFd : ℤ
  connections : List ℤ
  main : MainThread
  select : SelectThread
  (calls results : ℕ)
  seen : List (ℕ × ℕ)
  deriving DecidableEq, Repr

def Threads.init (serverSocketFd : ℤ) : Threads where
  selectRequestValid := false
  selectResponseValid := false
  selectResponseAck := false
  selectResultReadSet := []
  serialLookahead := []
  serverSocketFd := serverSocketFd
  connections := []
  main := .outside
  select := .awaitRequest
  calls := 0
  results := 0
  seen := []

/-- The steps of the three threads, with what the system calls give. -/
inductive ThreadStep
  | enter
  | wake
  | checkServer
  | accept (fd : ℤ)
  | checkSerial
  | readSerial
  | checkClient
  | receive (numrecv : ℤ)
  | send (failed : List ℤ)
  | takeRequest
  | publish (readfds : List ℤ)
  | acknowledged
  | append (bytes : List Byte)
  deriving DecidableEq, Repr

namespace Threads

variable (s : Threads)

/-- A call of `serviceConnections` starts. -/
def startCall : Threads := { s with calls := s.calls + 1 }

/-- The part of `waitUsingThreadsAndConditionVar` in front of the loop. -/
def request : Threads :=
  if !s.selectRequestValid then { s with selectRequestValid := true, selectResponseValid := false }
    else s

/-- What the loop of `waitUsingThreadsAndConditionVar` waits for. -/
def somethingChanged : Bool := s.selectResponseValid || !s.serialLookahead.isEmpty

/-- The part of `waitUsingThreadsAndConditionVar` behind the loop. -/
def acknowledge : Threads :=
  if s.selectResponseValid then { s with selectResponseAck := true, selectRequestValid := false }
    else s

def isSocketReadable (fd : ℤ) : Bool := s.selectResponseValid && s.selectResultReadSet.contains fd

def see : Threads :=
  if s.selectResponseValid then { s with seen := s.seen ++ [(s.results, s.calls)] } else s

def isSerialReadable : Bool := !s.serialLookahead.isEmpty

def step : ThreadStep → Option Threads
  | .enter =>
    match s.main with
    | .outside =>
      let s := s.startCall.request
      some (if s.somethingChanged then { s.acknowledge with main := .server }
        else { s with main := .waiting })
    | _ => none
  | .wake =>
    match s.main with
    | .waiting => if s.somethingChanged then some { s.acknowledge with main := .server } else none
    | _ => none
  | .checkServer =>
    match s.main with
    | .server => some { s.see with main := if s.isSocketReadable s.serverSocketFd then .accepting
        else .serial }
    | _ => none
  | .accept fd =>
    match s.main with
    | .accepting => some { s with connections := if 0 ≤ fd then s.connections ++ [fd] else s.connections, main := .serial }
    | _ => none
  | .checkSerial =>
    match s.main with
    | .serial =>
      some { s with main := if s.isSerialReadable then .reading else .clients [] s.connections }
    | _ => none
  | .readSerial =>
    match s.main with
    | .reading =>
      let numread := min s.serialLookahead.length SERIAL_BUFFER_NUMBYTES
      some { s with
        serialLookahead := s.serialLookahead.drop numread
        main := if numread = SERIAL_BUFFER_NUMBYTES then .reading else .clients [] s.connections }
    | _ => none
  | .checkClient =>
    match s.main with
    | .clients served (fd :: todo) =>
      some { s.see with
        main := if s.isSocketReadable fd then .receiving served fd todo
          else .clients (served ++ [fd]) todo }
    | _ => none
  | .receive numrecv =>
    match s.main with
    | .receiving served fd todo =>
      some { s with
        connections := if numrecv ≤ 0 then served ++ todo else s.connections
        main := .clients (if numrecv ≤ 0 then served else served ++ [fd]) todo }
    | _ => none
  | .send failed =>
    match s.main with
    | .clients _ [] => some { s with connections := s.connections.filter fun fd => !failed.contains fd, main := .outside }
    | _ => none
  | .takeRequest =>
    match s.select with
    | .awaitRequest => if s.selectRequestValid then some { s with select := .selecting } else none
    | _ => none
  | .publish readfds =>
    match s.select with
    | .selecting =>
      some { s with
        selectResponseAck := false
        selectResultReadSet := readfds
        selectResponseValid := true
        results := s.results + 1
        select := .awaitAck }
    | _ => none
  | .acknowledged =>
    match s.select with
    | .awaitAck => if s.selectResponseAck then some { s with select := .awaitRequest } else none
    | _ => none
  | .append bytes => some { s with serialLookahead := s.serialLookahead ++ bytes }

def run (s : Threads) : List ThreadStep → Option Threads
  | [] => some s
  | t :: ts => (s.step t).bind fun s' => run s' ts

def UsedOnce : Prop := ∀ r c c', (r, c) ∈ s.seen → (r, c') ∈ s.seen → c = c'

/-- No socket is looked at while a request is outstanding and its response is there. -/
def Timely : ThreadStep → Prop
  | .checkServer | .checkClient => ¬ (s.selectRequestValid = true ∧ s.selectResponseValid = true)
  | _ => True

def TimelyRun (s : Threads) : List ThreadStep → Prop
  | [] => True
  | t :: ts => s.Timely t ∧ ∀ s' ∈ s.step t, TimelyRun s' ts

instance : DecidablePred s.Timely := fun t =>
  match t with
  | .checkServer | .checkClient =>
    inferInstanceAs (Decidable (¬ (s.selectRequestValid = true ∧ s.selectResponseValid = true)))
  | .enter | .wake | .accept _ | .checkSerial | .readSerial | .receive _ | .send
    _ | .takeRequest | .publish _ | .acknowledged
  | .append _ => .isTrue trivial

instance decidableTimelyRun : ∀ (s : Threads) (ts : List ThreadStep), Decidable (s.TimelyRun ts)
  | _, [] => .isTrue trivial
  | s, t :: ts =>
    have : DecidablePred fun s' : Threads => s'.TimelyRun ts := fun s' => decidableTimelyRun s' ts
    inferInstanceAs (Decidable (s.Timely t ∧ ∀ s' ∈ s.step t, TimelyRun s' ts))

variable {s} {s' : Threads}

def FlagsAgree (s : Threads) : Prop :=
  match s.select with
  | .awaitRequest => s.selectRequestValid = true → s.selectResponseValid = false
  | .selecting => s.selectRequestValid = true ∧ s.selectResponseValid = false
  | .awaitAck =>
    if s.selectResponseAck then s.selectRequestValid = true → s.selectResponseValid = false
    else s.selectRequestValid = true ∧ s.selectResponseValid = true

/-- The invariant: a result that has not been acknowledged has not been seen, and one that has been
is seen in the call that acknowledged it. -/
structure Handover (s : Threads) : Prop where
  once : s.UsedOnce
  results : ∀ e ∈ s.seen, e.1 ≤ s.results
  fresh : s.selectRequestValid = true → s.selectResponseValid = true → ∀ e ∈ s.seen, e.1 ≠ s.results
  current : s.selectRequestValid = false → s.selectResponseValid = true → ∀ e ∈ s.seen,
    e.1 = s.results → e.2 = s.calls
  flags : s.FlagsAgree
  waiting : s.main = .waiting → s.selectRequestValid = true

theorem handover_init (serverSocketFd : ℤ) : Handover (init serverSocketFd) where
  once := fun _ _ _ h => absurd h List.not_mem_nil
  results := List.forall_mem_nil _
  fresh := fun h => absurd h Bool.false_ne_true
  current := fun _ h => absurd h Bool.false_ne_true
  flags := fun h => absurd h Bool.false_ne_true
  waiting := fun h => by cases h

/-- Only the flags, the select thread and the history matter. -/
theorem Handover.goesOn (h : Handover s) {pc : MainThread}
    (hpc : pc = .waiting → s.selectRequestValid = true)
    (connections : List ℤ) (serialLookahead : List Byte) :
    Handover { s with main := pc, connections := connections, serialLookahead :=
  serialLookahead } :=
  ⟨h.once, h.results, h.fresh, h.current, h.flags, hpc⟩

/-- A call starts: what is valid and has been acknowledged is given up. -/
theorem Handover.request (h : Handover s) : s.startCall.request.selectRequestValid = true ∧
    ∀ pc, Handover { s.startCall.request with main := pc } := by
  have hflags := h.flags
  unfold Threads.request
  by_cases hrequest : s.selectRequestValid = true
  · rw [if_neg (by simp [startCall, hrequest])]
    exact ⟨hrequest, fun pc => ⟨h.once, h.results, h.fresh, fun hnot =>
      absurd (hnot.symm.trans hrequest) Bool.false_ne_true, h.flags, fun _ => hrequest⟩⟩
  · rw [if_pos (by simp [startCall, hrequest])]
    refine ⟨rfl, fun pc => ⟨h.once, h.results, fun _ hvalid => absurd hvalid Bool.false_ne_true,
      fun _ hvalid => absurd hvalid Bool.false_ne_true, ?_, fun _ => rfl⟩⟩
    unfold FlagsAgree startCall at *
    dsimp only
    cases hselect : s.select with
    | awaitRequest => exact fun _ => rfl
    | selecting =>
      rw [hselect] at hflags
      exact absurd hflags.1 hrequest
    | awaitAck =>
      rw [hselect] at hflags
      dsimp only at hflags ⊢
      split_ifs at hflags ⊢
      · exact fun _ => rfl
      · exact absurd hflags.1 hrequest

theorem Handover.acknowledge (h : Handover s) (hrequest : s.selectRequestValid = true)
    (pc : MainThread) (hpc : pc ≠ .waiting) :
    Handover { s.acknowledge with main := pc } := by
  have hflags := h.flags
  unfold Threads.acknowledge
  split_ifs with hvalid
  · refine ⟨h.once, h.results, fun hnot => absurd hnot Bool.false_ne_true,
      fun _ _ e he heq => absurd heq (h.fresh hrequest hvalid e he), ?_,
        fun hwaiting => absurd hwaiting hpc⟩
    unfold FlagsAgree at hflags ⊢
    dsimp only
    cases hselect : s.select with
    | awaitRequest => exact fun hnot => absurd hnot Bool.false_ne_true
    | selecting =>
      rw [hselect, hvalid] at hflags
      cases hflags.2
    | awaitAck => exact fun hnot => absurd hnot Bool.false_ne_true
  · exact ⟨h.once, h.results, h.fresh, h.current, h.flags, fun hwaiting => absurd hwaiting hpc⟩

theorem Handover.see (h : Handover s)
    (htimely : ¬ (s.selectRequestValid = true ∧ s.selectResponseValid = true)) (pc : MainThread)
    (hpc : pc ≠ .waiting) : Handover { s.see with main := pc } := by
  unfold Threads.see
  split_ifs with hvalid
  · have hrequest : s.selectRequestValid = false := by
      cases hrequest : s.selectRequestValid with
      | false => rfl
      | true => exact absurd ⟨hrequest, hvalid⟩ htimely
    have hcurrent := h.current hrequest hvalid
    have hmem : ∀ e, e ∈ s.seen ++ [(s.results, s.calls)] ↔ e ∈ s.seen ∨ e = (s.results, s.calls) :=
        fun e => by
      rw [List.mem_append, List.mem_singleton]
    refine ⟨fun r c c' hc hc' => ?_, fun e he => ?_, fun hnot => absurd ⟨hnot, hvalid⟩ htimely,
      fun _ _ e he heq => ?_, h.flags, fun hwaiting => absurd hwaiting hpc⟩
    · rcases (hmem _).mp hc with hc | hc <;> rcases (hmem _).mp hc' with hc' | hc'
      · exact h.once r c c' hc hc'
      · cases hc'
        exact hcurrent _ hc rfl
      · cases hc
        exact (hcurrent _ hc' rfl).symm
      · cases hc
        cases hc'
        rfl
    · rcases (hmem e).mp he with he | rfl
      · exact h.results e he
      · exact Nat.le_refl _
    · rcases (hmem e).mp he with he | rfl
      · exact hcurrent e he heq
      · rfl
  · exact ⟨h.once, h.results, h.fresh, h.current, h.flags, fun hwaiting => absurd hwaiting hpc⟩

theorem Handover.enter (h : Handover s) (hstep : s.step .enter = some s') : Handover s' := by
  obtain ⟨hrequest, hhandover⟩ := h.request
  unfold Threads.step at hstep
  cases hmain : s.main <;> rw [hmain] at hstep <;> cases hstep
  split_ifs
  · exact (hhandover s.startCall.request.main : Handover s.startCall.request).acknowledge hrequest
      .server (by decide)
  · exact hhandover .waiting

theorem Handover.wake (h : Handover s) (hstep : s.step .wake = some s') : Handover s' := by
  unfold Threads.step at hstep
  cases hmain : s.main <;> rw [hmain] at hstep <;> dsimp only at hstep <;> try cases hstep
  split_ifs at hstep
  cases hstep
  exact h.acknowledge (h.waiting hmain) .server (by decide)

theorem Handover.takeRequest (h : Handover s) (hstep : s.step .takeRequest = some s') :
    Handover s' := by
  have hflags := h.flags
  unfold Threads.step at hstep
  unfold FlagsAgree at hflags
  cases hselect : s.select <;> rw [hselect] at hstep hflags <;> dsimp only at hstep hflags <;>
    try cases hstep
  split_ifs at hstep with hrequest
  cases hstep
  exact ⟨h.once, h.results, h.fresh, h.current, ⟨hrequest, hflags hrequest⟩, h.waiting⟩

/-- The select thread publishes a result, which has a new number. -/
theorem Handover.publish (h : Handover s) {readfds : List ℤ}
    (hstep : s.step (.publish readfds) = some s') : Handover s' := by
  have hflags := h.flags
  unfold Threads.step at hstep
  unfold FlagsAgree at hflags
  cases hselect : s.select <;> rw [hselect] at hstep hflags <;> dsimp only at hstep hflags <;>
    try cases hstep
  have hnew : ∀ e ∈ s.seen, e.1 ≠ s.results + 1 := fun e he => by
    have hle := h.results e he
    omega
  exact ⟨h.once, fun e he => Nat.le_succ_of_le (h.results e he), fun _ _ => hnew,
    fun _ _ e he heq => absurd heq (hnew e he), ⟨hflags.1, rfl⟩, h.waiting⟩

theorem Handover.acknowledged (h : Handover s) (hstep : s.step .acknowledged = some s') :
    Handover s' := by
  have hflags := h.flags
  unfold Threads.step at hstep
  unfold FlagsAgree at hflags
  cases hselect : s.select <;> rw [hselect] at hstep hflags <;> dsimp only at hstep hflags <;>
    try cases hstep
  split_ifs at hstep with hack
  cases hstep
  rw [if_pos hack] at hflags
  exact ⟨h.once, h.results, h.fresh, h.current, hflags, h.waiting⟩

theorem Handover.step (h : Handover s) {t : ThreadStep} (htimely : s.Timely t)
    (hstep : s.step t = some s') : Handover s' := by
  cases t with
  | enter => exact h.enter hstep
  | wake => exact h.wake hstep
  | takeRequest => exact h.takeRequest hstep
  | publish readfds => exact h.publish hstep
  | acknowledged => exact h.acknowledged hstep
  | append bytes =>
    cases hstep
    exact h.goesOn h.waiting _ _
  | checkServer =>
    unfold Threads.step at hstep
    cases hmain : s.main <;> rw [hmain] at hstep <;> cases hstep
    exact h.see htimely _ (by split_ifs <;> exact MainThread.noConfusion)
  | checkClient =>
    unfold Threads.step at hstep
    rcases hmain : s.main with _ | _ | _ | _ | _ | _ | ⟨served, _ | ⟨fd, todo⟩⟩ | _ <;>
      rw [hmain] at hstep <;> cases hstep
    exact h.see htimely _ (by split_ifs <;> exact MainThread.noConfusion)
  | send failed =>
    unfold Threads.step at hstep
    rcases hmain : s.main with _ | _ | _ | _ | _ | _ | ⟨served, _ | ⟨fd, todo⟩⟩ | _ <;>
      rw [hmain] at hstep <;> cases hstep
    exact h.goesOn MainThread.noConfusion _ _
  | accept | receive =>
    unfold Threads.step at hstep
    cases hmain : s.main <;> rw [hmain] at hstep <;> cases hstep
    exact h.goesOn MainThread.noConfusion _ _
  | checkSerial | readSerial =>
    unfold Threads.step at hstep
    cases hmain : s.main <;> rw [hmain] at hstep <;> cases hstep
    exact h.goesOn (fun hwaiting => absurd hwaiting (by split_ifs <;> exact not_false)) _ _

theorem Handover.run : ∀ {ts : List ThreadStep} {s : Threads}, Handover s → TimelyRun s ts →
    s.run ts = some s' → Handover s'
  | [], s, h, _, hrun => by
    cases hrun
    exact h
  | t :: ts, s, h, htimely, hrun => by
    obtain ⟨s₁, hstep, hrun⟩ := Option.bind_eq_some_iff.mp hrun
    exact (h.step htimely.1 hstep).run (htimely.2 s₁ hstep) hrun

/-- Where no socket is looked at between a response and its acknowledgement,
every result is used once. -/
theorem run_usedOnce (serverSocketFd : ℤ) (ts : List ThreadStep) (s : Threads)
    (htimely : TimelyRun (init serverSocketFd) ts)
    (hrun : (init serverSocketFd).run ts = some s) : s.UsedOnce :=
  ((handover_init serverSocketFd).run htimely hrun).once

def firstCalls : List ThreadStep :=
  [.enter, .takeRequest, .publish [3], .append [0x41#8], .wake, .checkServer, .accept 5,
    .checkSerial, .readSerial, .checkClient,
    .send [], .acknowledged, .append [0x42#8], .enter, .checkServer, .checkSerial]

theorem run_usedOnce_firstCalls : ∃ s, (init 3).run firstCalls = some s ∧ s.seen =
    [(1, 1), (1, 1)] ∧ s.UsedOnce :=
  ⟨_, rfl, rfl, run_usedOnce 3 firstCalls _ (by decide) rfl⟩

/-- Serial data wake the call, and the response comes before the socket is looked at. The next call
finds it valid again. -/
def lateResponse : List ThreadStep :=
  [.append [0x41#8], .enter, .takeRequest, .publish [3], .checkServer, .accept 5, .checkSerial,
    .readSerial, .checkClient, .send [], .enter, .checkServer]

theorem not_usedOnce_lateResponse : ∃ s, (init 3).run lateResponse = some s ∧ s.main = .accepting ∧
    ¬ s.UsedOnce :=
  ⟨_, rfl, rfl, fun h => absurd (h 1 1 2 (by decide) (by decide)) (by decide)⟩

end Threads

end TraceDecoder
