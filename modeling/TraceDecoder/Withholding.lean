import TraceDecoder.IoConnections

/-!
# Whose flag is written

The two loops that queue something for the clients step to the next client before they write the
flag of the last. What they write for the last client of all lands behind the list.
-/

namespace TraceDecoder

/-- `serialized`. -/
def NexusDataAcquisitionMessage.serialized (msg : NexusDataAcquisitionMessage) : List Byte :=
  let hex (n : ℕ) : List Char := Nat.toDigits 16 n
  let out := "tcode=".toList ++ hex msg.tcode.toNat ++ (if msg.haveSrc then " src=".toList ++
    hex msg.src.toNat else []) ++ " idtag=".toList ++ hex msg.idtag.toNat ++ " dqdata=".toList ++
      hex msg.dqdata.toNat ++
    (if msg.haveTimestamp then " timestamp=".toList ++ hex msg.timestamp.toNat else []) ++ ['\n']
  out.map fun c => BitVec.ofNat 8 c.toNat

structure Client extends IoConnection where
  itcFilterMask : BitVec 32

namespace Client

def enqueue (bytes : List Byte) (c : Client) : Client :=
  { c with toIoConnection := c.toIoConnection.enqueue bytes }

def enqueueMessage (msg : NexusDataAcquisitionMessage) (c : Client) : Client :=
  let shouldFilter : Bool := msg.idtag / 4 < 32 ∧ c.itcFilterMask &&& 1#32 <<< (msg.idtag / 4) ≠ 0
  if shouldFilter then c else c.enqueue msg.serialized

/-- The loop over the clients; `flag` is what is written to the client the iterator has stepped to.
At the end of the list it is returned: it is written to what is there. -/
def queueLoop (deliver : Client → Client) : List Client → Option Bool → List Client × Option Bool
  | [], flag => ([], flag)
  | c :: cs, flag =>
    let c := { c with withholding := flag.getD c.withholding }
    let shouldWithhold := decide (QUEUE_STALLED_CLIENT_SUSPICION_THRESHOLD < c.getQueueLength)
    let (rest, behind) := queueLoop deliver cs (some shouldWithhold)
    ((if shouldWithhold then c else deliver c) :: rest, behind)

def queueSerialBytesToClients (connections : List Client) (bytes : List Byte) :
    List Client × Option Bool :=
  queueLoop (enqueue bytes) connections none

def queueMessageToClients (connections : List Client) (msg : NexusDataAcquisitionMessage) :
    List Client × Option Bool :=
  queueLoop (enqueueMessage msg) connections none

/-- Each flag tells whether the queue of that client was too long, the clients without it have been
served, and nothing has been written behind the list. -/
structure TracksWithholding (deliver : Client → Client) (connections : List Client)
    (queued : List Client × Option Bool) : Prop where
  length : queued.1.length = connections.length
  flags : ∀ (i : ℕ) (c c' : Client), connections[i]? = some c → queued.1[i]? = some c' →
    (c'.withholding = true ↔ QUEUE_STALLED_CLIENT_SUSPICION_THRESHOLD < c.bytesToSend.length)
  chunks : ∀ (i : ℕ) (c c' : Client), connections[i]? = some c → queued.1[i]? = some c' →
    c'.bytesToSend = if c'.withholding then c.bytesToSend else (deliver c).bytesToSend
  inside : queued.2 = none

/-- Something is written behind the list unless it is empty. -/
theorem queueLoop_behind (deliver : Client → Client) (connections : List Client)
    (flag : Option Bool) :
    (queueLoop deliver connections flag).2 = none ↔ connections = [] ∧ flag = none := by
  induction connections generalizing flag with
  | nil =>
    change flag = none ↔ _
    simp only [true_and]
  | cons c cs ih =>
    change (queueLoop deliver cs (some _)).2 = none ↔ _
    rw [ih]
    simp only [reduceCtorEq, and_false, false_and]

theorem tracksWithholding_iff (deliver : Client → Client) (connections : List Client) :
    TracksWithholding deliver connections (queueLoop deliver connections none) ↔ connections =
      [] := by
  constructor
  · intro h
    exact ((queueLoop_behind deliver connections none).mp h.inside).1
  · rintro rfl
    refine ⟨rfl, ?_, ?_, rfl⟩
    · intro i c c' hc
      cases hc
    · intro i c c' hc
      cases hc

/-- **Withholding is tracked for an empty list alone**, by both functions. -/
theorem queue_tracksWithholding_iff (connections : List Client) (bytes : List Byte)
    (msg : NexusDataAcquisitionMessage) :
    (TracksWithholding (enqueue bytes) connections (queueSerialBytesToClients connections bytes) ↔
      connections = []) ∧
      (TracksWithholding (enqueueMessage msg) connections (queueMessageToClients connections msg) ↔
        connections = []) :=
  ⟨tracksWithholding_iff (enqueue bytes) connections, tracksWithholding_iff (enqueueMessage msg)
    connections⟩

/-- One client that has nothing to be sent. -/
theorem not_tracksWithholding : ¬ TracksWithholding (enqueue [0]) [⟨.init 3 0, 0⟩]
    (queueSerialBytesToClients [⟨.init 3 0, 0⟩] [0]) := by
  intro h
  have hbehind : (queueSerialBytesToClients [⟨.init 3 0, 0⟩] [0]).2 = some false := rfl
  exact absurd (h.inside.symm.trans hbehind) (by simp only [reduceCtorEq, not_false_eq_true])

/-! ### What the flags are instead -/

end Client

end TraceDecoder
