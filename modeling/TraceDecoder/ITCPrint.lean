import TraceDecoder.Basic

/-!
# Instrumentation prints

`ITCPrint` collects the characters a core writes to the print channel in a ring per core and keeps a
record with the times of each message. The records of a core are linked in both directions, from the
newest to the oldest and on to the newest again; records that are not used are on a free list that
the cores share.

`none` stands for a null pointer that is followed or a loop that does not end.
-/

namespace TraceDecoder

/-! ### Records -/

/-- `prev` and `next` are addresses of records; `message` is an offset into the ring of the core. -/
structure TsList where
  (prev next : Option ℕ)
  message : Option ℕ
  terminated : Bool
  (startTime endTime : TIMESTAMP)
  deriving DecidableEq, Repr

def TsList.init : TsList where
  prev := none
  next := none
  message := none
  terminated := false
  startTime := 0
  endTime := 0

/-- The records by their addresses; those from `fresh` on have not been allocated. -/
structure TsLists where
  record : ℕ → TsList
  fresh : ℕ
  freeList : Option ℕ
  tsList : ℕ → Option ℕ

namespace TsLists

variable (l : TsLists)

def modify (r : ℕ) (f : TsList → TsList) : TsLists :=
  { l with record := fun i => if i = r then f (l.record i) else l.record i }

def setTsList (core : ℕ) (h : Option ℕ) : TsLists :=
  { l with tsList := fun c => if c = core then h else l.tsList c }

def newTsList : ℕ × TsLists :=
  match l.freeList with
  | some w =>
    (w, { l with freeList := (l.record w).next }.modify w
      fun t => { t with terminated := false, message := none })
  | none => (l.fresh, { l with fresh := l.fresh + 1 }.modify l.fresh fun _ => .init)

def link (core w : ℕ) : Option TsLists :=
  match l.tsList core with
  | none => some (l.modify w fun t => { t with next := some w, prev := some w })
  | some tlp =>
    let l := l.modify w fun t => { t with next := some tlp }
    let l := l.modify w fun t => { t with prev := (l.record tlp).prev }
    let l := l.modify tlp fun t => { t with prev := some w }
    (l.record w).prev.map fun p => l.modify p fun t => { t with next := some w }

/-- Takes record `tsl` off the list that starts with `h` and puts it on the free list. -/
def unlink (core h tsl : ℕ) : TsLists :=
  let l :=
    if (l.record tsl).next = some tsl then l.setTsList core none
    else
      let l := l.modify h fun t => { t with prev := (l.record tsl).prev }
      if (l.record h).next = some tsl then l.modify h
        fun t => { t with next := (l.record tsl).next } else l
  { l.modify tsl fun t => { t with next := l.freeList, prev := none } with freeList := some tsl }

def consumeTerminatedTsList (numMsgs : ℤ) (core : ℕ) : Option (Option ℕ × TsLists) :=
  if 0 < numMsgs then
    match l.tsList core with
    | none => some (none, l)
    | some h =>
      (l.record h).prev.map fun tsl =>
        if (l.record tsl).terminated then (some tsl, l.unlink core h tsl) else (none, l)
  else some (none, l)

def consumeOldestTsList (numMsgs : ℤ) (core : ℕ) : Option (Option ℕ × TsLists) :=
  (l.consumeTerminatedTsList numMsgs core).map fun r =>
    match r.1, r.2.tsList core with
    | none, some tsl => (some tsl, r.2.unlink core tsl tsl)
    | _, _ => r

end TsLists

/-! ### Rings -/

structure PrintQueue where
  pbuff : ℕ → Byte
  (pbi pbo : ℕ)
  numMsgs : ℤ

/-- The index behind `i` in a ring. -/
def advance (buffSize i : ℕ) : ℕ := if buffSize ≤ i + 1 then 0 else i + 1

namespace PrintQueue

variable (q : PrintQueue) (buffSize : ℕ)

def roomInITCPrintQ : ℕ :=
  if q.pbo < q.pbi then buffSize - q.pbi + q.pbo - 1
  else if q.pbi < q.pbo then q.pbo - q.pbi - 1
  else buffSize - 1

def poke (c : Byte) : PrintQueue := { q with pbuff := fun i => if i = q.pbi then c else q.pbuff i }

def put (c : Byte) : PrintQueue := { q.poke c with pbi := advance buffSize q.pbi }

def addMsg : PrintQueue := { q with numMsgs := q.numMsgs + 1 }

def putText : List Byte → ℕ → PrintQueue → PrintQueue
  | [], _, q => q
  | c :: cs, room, q => if 2 ≤ room then putText cs (room - 1) (q.put buffSize c)
      else putText cs room q

/-- The loop over the bytes of a data word; the flag says whether the
message has been terminated. -/
def putData : List Byte → ℕ → Bool → PrintQueue → PrintQueue × Bool
  | [], _, terminated, q => (q, terminated)
  | c :: cs, room, terminated, q =>
    if 2 ≤ room then
      let q := q.put buffSize c
      if c = 0x00 then putData cs (room - 1) true q.addMsg
      else if c = 0x0a ∨ c = 0x0d then putData cs (room - 2) true (q.put buffSize 0x00).addMsg
      else putData cs (room - 1) terminated q
    else putData cs room terminated q

/-- The loop that reads up to the next null character, with the index it ends at. -/
def readStr : ℕ → ℕ → Option (List Byte × ℕ)
  | 0, _ => none
  | n + 1, pbo =>
    if q.pbuff pbo = 0x00 then some ([], pbo)
    else (readStr n (advance buffSize pbo)).map fun r => (q.pbuff pbo :: r.1, r.2)

/-- The same loop for a destination with room for `n` characters. -/
def readMsg : ℕ → ℕ → List Byte × ℕ
  | 0, pbo => ([], pbo)
  | n + 1, pbo =>
    if q.pbuff pbo = 0x00 then ([], pbo)
    else
      let r := readMsg n (advance buffSize pbo)
      (q.pbuff pbo :: r.1, r.2)

end PrintQueue

/-! ### Prints -/

structure NlString where
  nf : ℤ
  signedMask : BitVec 32
  format : Option String

structure ITCPrint where
  (numCores buffSize : ℕ)
  printChannel : BitVec 32
  itcOptFlags : BitVec 32
  nlsStrings : Option (ℕ → NlString)
  queue : ℕ → PrintQueue
  lists : TsLists

def ITC_OPT_PRINT : BitVec 32 := 1
def ITC_OPT_NLS : BitVec 32 := 2

def ITCPrint.init (itcPrintOpts : BitVec 32) (numCores buffSize : ℤ) (channel : BitVec 32)
    (nlsStrings : Option (ℕ → NlString)) (memory : ℕ → ℕ → Byte) : ITCPrint :=
  let (numCores, buffSize) :=
    if numCores ≤ 0 ∨ buffSize ≤ 0 then (1, 1024) else (numCores.toNat, buffSize.toNat)
  { numCores := numCores
    buffSize := buffSize
    printChannel := channel
    itcOptFlags := itcPrintOpts
    nlsStrings := nlsStrings
    queue := fun core => ⟨memory core, 0, 0, 0⟩
    lists := ⟨fun _ => .init, 0, none, fun _ => none⟩ }

inductive PrintfArg
  | int (n : BitVec 32)
  | str (s : String)

/-- Field `i` of a data word that holds several arguments, as an `int`. -/
def nlsArg (signedMask data : BitVec 32) (i shift width : ℕ) : BitVec 32 :=
  let field := (data >>> shift).setWidth width
  if signedMask.getLsbD i then field.signExtend 32 else field.setWidth 32

/-- The arguments of the format string; `none` for a number of arguments that is not supported. -/
def nlsArgs (nf : ℤ) (signedMask data : BitVec 32) : Option (List (BitVec 32)) :=
  match nf with
  | 0 => some []
  | 1 => some [data]
  | 2 => some [nlsArg signedMask data 0 16 16, nlsArg signedMask data 1 0 16]
  | 3 =>
    some [nlsArg signedMask data 0 21 11, nlsArg signedMask data 1 10 11, nlsArg signedMask data 2 0
      10]
  | 4 =>
    some [nlsArg signedMask data 0 24 8, nlsArg signedMask data 1 16 8, nlsArg signedMask data 2 8
      8, nlsArg signedMask data 3 0 8]
  | _ => none

structure Printed where
  text : List Byte
  (startTime endTime : TIMESTAMP)
  deriving DecidableEq, Repr

namespace ITCPrint

variable (p : ITCPrint)

def setQueue (core : ℕ) (q : PrintQueue) : ITCPrint :=
  { p with queue := fun c => if c = core then q else p.queue c }

def nlsString (addr : BitVec 32) : Option (NlString × String) :=
  if p.itcOptFlags &&& ITC_OPT_NLS ≠ 0 ∧ addr &&& 0x03 = 0 then
    p.nlsStrings.bind fun nls =>
      (nls (addr.toNat / 4)).format.map fun format => (nls (addr.toNat / 4), format)
  else none

def inProgress (core : ℕ) : Bool :=
  match p.lists.tsList core with
  | none => false
  | some h => !(p.lists.record h).terminated

section
variable (sprintf : String → List PrintfArg → List Byte)

/-- The text of a no-load string. It is formatted into an array of 256
characters, whatever its length. -/
def formatted (nls : NlString) (format : String) (channel : ℕ) (data : BitVec 32) : List Byte :=
  match nlsArgs nls.nf nls.signedMask data with
  | some args => sprintf format (args.map .int)
  | none =>
    sprintf "Error: invalid number of args for format string %d, %s"
      [.int (BitVec.ofNat 32 channel), .str format]

def terminate (core : ℕ) : ITCPrint :=
  match p.lists.tsList core with
  | none => p
  | some h =>
    if (p.lists.record h).terminated then p
    else
      { p.setQueue core ((p.queue core).put p.buffSize 0x00).addMsg with
        lists := p.lists.modify h fun t => { t with terminated := true } }

def newMessage (core : ℕ) (tstamp : TIMESTAMP) : Option (ℕ × TsLists) :=
  let (w, l) := p.lists.newTsList
  (l.link core w).map fun l =>
    (w, (l.modify w fun t =>
      { t with startTime := tstamp, message := some (p.queue core).pbi }).setTsList core (some w))

/-- The no-load-string path of `print`. -/
def printNls (core : ℕ) (text : List Byte) (tstamp : TIMESTAMP) : Option ITCPrint :=
  let p := p.terminate core
  (p.newMessage core tstamp).map fun (w, l) =>
    let q := p.queue core
    let q := q.putText p.buffSize text (q.roomInITCPrintQ p.buffSize)
    { p.setQueue core (q.put p.buffSize 0x00).addMsg with
      lists := l.modify w fun t => { t with endTime := tstamp, terminated := true } }

def workingTsList (core : ℕ) (tstamp : TIMESTAMP) : Option (ℕ × TsLists) :=
  match p.lists.tsList core with
  | some h => if (p.lists.record h).terminated then p.newMessage core tstamp else some (h, p.lists)
  | none => p.newMessage core tstamp

def dataBytes (addr data : BitVec 32) : List Byte :=
  (List.range (4 - (addr &&& 0x03).toNat)).map fun i => (data >>> (8 * i)).setWidth 8

/-- The plain path of `print`. -/
def printData (core : ℕ) (bytes : List Byte) (tstamp : TIMESTAMP) : Option ITCPrint :=
  (p.workingTsList core tstamp).map fun (w, l) =>
    let q := p.queue core
    let (q, terminated) := q.putData p.buffSize bytes (q.roomInITCPrintQ p.buffSize) false
    { p.setQueue core (q.poke 0x00) with
      lists :=
        l.modify w fun t => { t with endTime := tstamp, terminated := t.terminated || terminated } }

def print (core : ℕ) (addr data : BitVec 32) (tstamp : TIMESTAMP) : Option (Bool × ITCPrint) :=
  if p.numCores ≤ core then some (false, p)
  else
    match p.nlsString addr with
    | some (nls, format) =>
      (p.printNls core (formatted sprintf nls format (addr.toNat / 4) data) tstamp).map
        fun p => (true, p)
    | none =>
      if p.itcOptFlags &&& ITC_OPT_PRINT = 0 then some (false, p)
      else if addr < p.printChannel * 4 ∨ (p.printChannel + 1) * 4 ≤ addr then some (false, p)
      else (p.printData core (dataBytes addr data) tstamp).map fun p => (true, p)

end

/-! ### Reading the messages -/

def getITCPrintMsg (core : ℕ) (haveDst : Bool) (dstLen : ℤ) : Option (Option Printed × ITCPrint) :=
  if p.numCores ≤ core ∨ haveDst = false ∨ dstLen ≤ 0 then some (none, p)
  else
    let q := p.queue core
    if 0 < q.numMsgs then
      (p.lists.consumeTerminatedTsList q.numMsgs core).map fun (tsl, l) =>
        match tsl with
        | none => (none, { p with lists := l })
        | some tsl =>
          let (text, pbo) := q.readMsg p.buffSize (dstLen - 1).toNat q.pbo
          let q := { q with numMsgs := q.numMsgs - 1, pbo := advance p.buffSize pbo }
          (some ⟨text, (l.record tsl).startTime, (l.record tsl).endTime⟩,
            { p.setQueue core q with lists := l })
    else some (none, p)

def getITCPrintStr (core : ℕ) : Option (Option Printed × ITCPrint) :=
  if p.numCores ≤ core then some (none, p)
  else
    let q := p.queue core
    if 0 < q.numMsgs then
      (p.lists.consumeTerminatedTsList q.numMsgs core).bind fun (tsl, l) =>
        match tsl with
        | none => some (none, { p with lists := l })
        | some tsl =>
          (q.readStr p.buffSize p.buffSize q.pbo).map fun (text, pbo) =>
            let q := { q with numMsgs := q.numMsgs - 1, pbo := advance p.buffSize pbo }
            (some ⟨text, (l.record tsl).startTime, (l.record tsl).endTime⟩,
              { p.setQueue core q with lists := l })
    else some (none, p)

def flushITCPrintMsg (core : ℕ) (haveDst : Bool) (dstLen : ℤ) :
    Option (Option Printed × ITCPrint) :=
  if p.numCores ≤ core ∨ haveDst = false ∨ dstLen ≤ 0 then some (none, p)
  else
    let q := p.queue core
    if 0 < q.numMsgs then p.getITCPrintMsg core haveDst dstLen
    else if q.pbo = q.pbi then some (none, p)
    else
      (p.lists.consumeOldestTsList q.numMsgs core).map fun (tsl, l) =>
        match tsl with
        | none => (none, { p with lists := l })
        | some tsl =>
          if (l.record tsl).terminated then (none, { p with lists := l })
          else
            let (text, pbo) := q.readMsg p.buffSize (dstLen - 1).toNat q.pbo
            (some ⟨text, (l.record tsl).startTime, (l.record tsl).endTime⟩,
              { p.setQueue core { q with pbo := pbo } with lists := l })

def flushITCPrintStr (core : ℕ) : Option (Option Printed × ITCPrint) :=
  if p.numCores ≤ core then some (none, p)
  else
    let q := p.queue core
    if 0 < q.numMsgs then p.getITCPrintStr core
    else if q.pbo = q.pbi then some (none, p)
    else
      (p.lists.consumeOldestTsList q.numMsgs core).bind fun (tsl, l) =>
        match tsl with
        | none => some (none, { p with lists := l })
        | some tsl =>
          if (l.record tsl).terminated then some (none, { p with lists := l })
          else
            (q.readStr p.buffSize p.buffSize q.pbo).map fun (text, pbo) =>
              (some ⟨text, (l.record tsl).startTime, (l.record tsl).endTime⟩,
                { p.setQueue core { q with pbo := pbo } with lists := l })

/-! ### Runs -/

inductive Op
  | print (core : ℕ) (addr data : BitVec 32) (tstamp : TIMESTAMP)
  | getMsg (core : ℕ) (haveDst : Bool) (dstLen : ℤ)
  | getStr (core : ℕ)
  | flushMsg (core : ℕ) (haveDst : Bool) (dstLen : ℤ)
  | flushStr (core : ℕ)

variable (sprintf : String → List PrintfArg → List Byte)

def call : Op → Option (Option Printed × ITCPrint)
  | .print core addr data tstamp => (p.print sprintf core addr data tstamp).map fun r => (none, r.2)
  | .getMsg core haveDst dstLen => p.getITCPrintMsg core haveDst dstLen
  | .getStr core => p.getITCPrintStr core
  | .flushMsg core haveDst dstLen => p.flushITCPrintMsg core haveDst dstLen
  | .flushStr core => p.flushITCPrintStr core

def calls (p : ITCPrint) : List Op → List (ITCPrint × Op)
  | [] => []
  | op :: ops => (p, op) :: ((p.call sprintf op).elim [] fun r => calls r.2 ops)

end ITCPrint

end TraceDecoder
