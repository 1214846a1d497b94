import Mathlib.Data.List.TakeWhile
import TraceDecoder.ITCPrintAnnounce
import TraceDecoder.ITCPrintArrays
import TraceDecoder.ITCUtils

/-!
# From the firmware to the decoder

What a core says with `itc_utils`, in texts and with no-load strings, is what the decoder hands out,
message by message, in whatever way the gets of the decoder come between the writes of the core, as
long as the ring has room for each write. The encoder between the two is a parameter.
-/

namespace TraceDecoder

open ITCUtils ITCPrint

namespace ITCUtils

/-! ### The firmware -/

inductive Command
  | puts (f : List Byte)
  | printf (formatted : List Byte)
  | set_print_channel (channel : ℤ)
  | nls_print (channel : ℤ) (d : NlsData)

def Command.run (channel : Fin 32) : Command → List Stimulus × Fin 32
  | .puts f => (itc_puts channel f, channel)
  | .printf formatted => (itc_printf channel formatted, channel)
  | .set_print_channel next => ([], (itc_set_print_channel channel next).1)
  | .nls_print c d => ((d.itc_nls_print c).1, channel)

def runs : Fin 32 → List Command → List Stimulus
  | _, [] => []
  | channel, cmd :: cmds => (cmd.run channel).1 ++ runs (cmd.run channel).2 cmds

/-- What the encoder of the core makes of a write: the address and the data word of a message. -/
abbrev Encoder := Stimulus → BitVec 32 × BitVec 32

/-- The messages have the address of the write and, from the lowest byte on, the
bytes that are written. -/
def Encoder.Reports (encoder : Encoder) : Prop :=
  ∀ w : Stimulus, w.channel < 32 → w.offset < 4 →
    (encoder w).1 = w.addr ∧
      ∀ i < 4 - w.offset, ((encoder w).2 >>> (8 * i)).setWidth 8 = (w.data >>> (8 * i)).setWidth 8

/-- The writes of a core in order, each at some time, and gets of the decoder in between. -/
inductive Interleaves (encoder : Encoder) (core : ℕ) : List Stimulus → List Op → Prop
  | nil : Interleaves encoder core [] []
  | write {ws : List Stimulus} {ops : List Op} (w : Stimulus) (tstamp : TIMESTAMP)
      (h : Interleaves encoder core ws ops) :
      Interleaves encoder core (w :: ws) (.print core (encoder w).1 (encoder w).2 tstamp :: ops)
  | get {ws : List Stimulus} {ops : List Op} (h : Interleaves encoder core ws ops) :
      Interleaves encoder core ws (.getStr core :: ops)

def Stimulus.Valid (w : Stimulus) : Prop := w.channel < 32 ∧ w.offset < 4

end ITCUtils

namespace TextQueue

def hear (t : TextQueue) : PrintPath → TextQueue
  | .ignored => t
  | .nls text => t.announce text
  | .data bytes => t.write bytes

def behind (front : List (List Byte)) (t : TextQueue) : TextQueue := ⟨front ++ t.lines, t.rest⟩

variable {t : TextQueue} {front : List (List Byte)}

theorem behind_put (c : Byte) : (t.behind front).put c = (t.put c).behind front := by
  unfold put behind
  split_ifs <;> simp

theorem behind_write (bytes : List Byte) : (t.behind front).write bytes =
    (t.write bytes).behind front := by
  induction bytes generalizing t with
  | nil => rfl
  | cons c bytes ih =>
    change ((t.behind front).put c).write bytes = ((t.put c).write bytes).behind front
    rw [behind_put, ih]

theorem behind_close : (t.behind front).close = t.close.behind front := by
  rw [close, close, behind, behind, List.append_assoc]

theorem behind_announce (text : List Byte) : (t.behind front).announce text =
    (t.announce text).behind front := by
  rw [announce, announce, behind_close, behind, behind, List.append_assoc]

theorem behind_hear (path : PrintPath) : (t.behind front).hear path =
    (t.hear path).behind front := by
  cases path with
  | ignored => rfl
  | nls text => exact behind_announce text
  | data bytes => exact behind_write bytes

theorem behind_foldl_hear (paths : List PrintPath) :
    paths.foldl hear (t.behind front) = (paths.foldl hear t).behind front := by
  induction paths generalizing t with
  | nil => rfl
  | cons path paths ih => rw [List.foldl_cons, List.foldl_cons, behind_hear, ih]

theorem behind_behind (front' : List (List Byte)) : (t.behind front).behind front' = t.behind
    (front' ++ front) := by
  rw [behind, behind, behind, List.append_assoc]

theorem write_append (bytes bytes' : List Byte) :
    t.write (bytes ++ bytes') = (t.write bytes).write bytes' := List.foldl_append

end TextQueue

namespace ITCPrint

variable (sprintf : String → List PrintfArg → List Byte)

def messages (results : List (Option Printed)) : List (List Byte) :=
  results.filterMap (Option.map Printed.text)

theorem messages_cons (r : Option Printed) (results : List (Option Printed)) :
    messages (r :: results) = messages [r] ++ messages results := by
  change messages ([r] ++ results) = _
  exact List.filterMap_append

/-- A print of a text with a terminator at its end at most, or of a no-load string without a null
character that fits in `dst`. -/
def PrintPath.Clean : PrintPath → Prop
  | .ignored => True
  | .nls text => 0x00 ∉ text ∧ text.length < 256
  | .data bytes => bytes ≠ [] ∧ bytes.length ≤ 4 ∧ ∀ c ∈ bytes.dropLast, isTerminator c = false

def PrintPath.needs : PrintPath → ℕ
  | .ignored => 0
  | .nls text => text.length + 2
  | .data _ => 9

def RoomFor : ITCPrint × Op → Prop
  | (p, .print core addr data _) => (p.printPath sprintf core addr data).needs ≤
    (p.queue core).roomInITCPrintQ p.buffSize
  | _ => True

instance : DecidablePred (RoomFor sprintf)
  | (_, .print ..) => inferInstanceAs (Decidable (_ ≤ _))
  | (_, .getMsg ..) | (_, .getStr ..) | (_, .flushMsg ..) | (_, .flushStr ..) =>
    inferInstanceAs (Decidable True)

variable {sprintf} {p p₀ : ITCPrint} {core : ℕ} {t : TextQueue} {xs F : List ℕ}

theorem Carries.hear (h : p.Carries core t xs F) {addr data : BitVec 32} {tstamp : TIMESTAMP}
    (hclean : (p.printPath sprintf core addr data).Clean)
    (hroom : RoomFor sprintf (p, .print core addr data tstamp)) :
    ∃ p' xs' F', p.call sprintf (.print core addr data tstamp) = some (none, p') ∧
      p'.Carries core (t.hear (p.printPath sprintf core addr data)) xs' F' ∧ Keeps p p' := by
  change (p.printPath sprintf core addr data).needs ≤ _ at hroom
  rw [call_print]
  cases hpath : p.printPath sprintf core addr data with
  | ignored => exact ⟨p, xs, F, rfl, h, .refl p⟩
  | nls text =>
    rw [hpath] at hclean hroom
    obtain ⟨p', xs', F', hprint, hcarries⟩ := h.printNls hclean.1 hroom tstamp
    exact ⟨p', xs', F', by rw [afterPrint, hprint]; rfl, hcarries, afterPrint_keeps (.nls text)
      hprint⟩
  | data bytes =>
    rw [hpath, PrintPath.needs] at hroom
    rw [hpath] at hclean
    obtain ⟨hne, hlength, hterminators⟩ := hclean
    obtain ⟨cs, c, rfl⟩ := (List.eq_nil_or_concat' bytes).resolve_left hne
    rw [List.dropLast_concat] at hterminators
    obtain ⟨p', xs', F', hprint, hcarries, -⟩ := h.printData hterminators c (by omega) tstamp
    exact ⟨p', xs', F', by rw [afterPrint, hprint]; rfl, hcarries, afterPrint_keeps
      (.data (cs ++ [c])) hprint⟩

variable (sprintf) in
theorem Carries.get (h : p.Carries core t xs F) (hcore : core < p.numCores) :
    ∃ r p' t' xs' F', p.call sprintf (.getStr core) = some (r, p') ∧ p'.Carries core t' xs' F' ∧
      Keeps p p' ∧
      t = t'.behind (messages [r]) ∧ t'.lines = t.lines.tail := by
  cases hlines : t.lines with
  | nil =>
    obtain ⟨-, hmsgs⟩ := h.content_of_nil hlines
    refine ⟨none, p, t, xs, F, ?_, h, .refl p, rfl, hlines⟩
    rw [ITCPrint.call, ITCPrint.getITCPrintStr, if_neg (Nat.not_le.mpr hcore)]
    dsimp only
    rw [if_neg (by omega)]
  | cons line lines =>
    obtain ⟨printed, p', xs', F', hget, htext, hcarries, -⟩ := h.getITCPrintStr hcore hlines
    refine ⟨some printed, p', ⟨lines, t.rest⟩, xs', F', hget, hcarries, getITCPrintStr_keeps hget,
      ?_, rfl⟩
    obtain ⟨tlines, rest⟩ := t
    obtain rfl : tlines = line :: lines := hlines
    rw [← htext]
    rfl

theorem outcomes_cons {op : Op} {ops : List Op} {r : Option Printed}
    {results : List (Option Printed)} {p₁ p₂ : ITCPrint}
    (hcall : p.call sprintf op = some (r, p₁))
    (hrun : p₁.outcomes sprintf ops = some (results, p₂)) :
    p.outcomes sprintf (op :: ops) = some (r :: results, p₂) := by
  rw [outcomes, hcall, Option.bind_some, hrun, Option.map_some]

/-- A print to one of the registers stays inside the arrays. -/
theorem staysInside_of_clean {addr data : BitVec 32} (tstamp : TIMESTAMP) (haddr : addr.toNat < 128)
    (hclean : (p.printPath sprintf core addr data).Clean) :
    StaysInside sprintf (p, .print core addr data tstamp) := by
  refine ⟨fun i hi => ?_, dst_lt_iff.mpr fun text htext => ?_⟩
  · dsimp only at hi
    unfold nlsIndex at hi
    split_ifs at hi
    · cases hi
      omega
    · cases hi
  · rw [htext] at hclean
    exact hclean.2

/-- **Any interleaving.** What has been handed out and what is still in the
queue is what has been said. -/
theorem Carries.interleaves {encoder : Encoder} {ws : List Stimulus} {ops : List Op}
    (hops : Interleaves encoder core ws ops) (hcore : core < p.numCores) (h : p.Carries core t xs F)
    (hkeeps : Keeps p₀ p) (haddr : ∀ w ∈ ws, (encoder w).1.toNat < 128)
    (hclean : ∀ w ∈ ws, (p₀.printPath sprintf core (encoder w).1 (encoder w).2).Clean)
    (hroom : ∀ c ∈ p.calls sprintf ops, RoomFor sprintf c) :
    (∀ c ∈ p.calls sprintf ops, StaysInside sprintf c) ∧
      ∃ results p' t' xs' F', p.outcomes sprintf ops = some (results, p') ∧
        p'.Carries core t' xs' F' ∧ Keeps p₀ p' ∧
        (ws.map fun w => p₀.printPath sprintf core (encoder w).1 (encoder w).2).foldl TextQueue.hear
          t =
          t'.behind (messages results) := by
  induction hops generalizing p t xs F with
  | nil => exact ⟨List.forall_mem_nil _, [], p, t, xs, F, rfl, h, hkeeps, rfl⟩
  | write w tstamp hops ih =>
    rw [calls, List.forall_mem_cons] at hroom
    rw [List.forall_mem_cons, ← hkeeps.printPath] at hclean
    rw [List.forall_mem_cons] at haddr
    obtain ⟨p₁, xs₁, F₁, hcall, hcarries, hsame⟩ := h.hear hclean.1 hroom.1
    rw [hcall, Option.elim_some] at hroom
    obtain ⟨hinside, results, p', t', xs', F', hrun, hcarries', hkeeps', htext⟩ :=
      ih (hsame.numCores ▸ hcore) hcarries (hkeeps.trans hsame) haddr.2 hclean.2 hroom.2
    refine ⟨?_, none :: results, p', t', xs', F', outcomes_cons hcall hrun, hcarries', hkeeps', ?_⟩
    · rw [calls, hcall, List.forall_mem_cons]
      exact ⟨staysInside_of_clean tstamp haddr.1 hclean.1, hinside⟩
    · rw [List.map_cons, List.foldl_cons, ← hkeeps.printPath]
      exact htext
  | get hops ih =>
    rw [calls, List.forall_mem_cons] at hroom
    obtain ⟨r, p₁, t₁, xs₁, F₁, hcall, hcarries, hsame, hfirst, -⟩ := h.get sprintf hcore
    rw [hcall, Option.elim_some] at hroom
    obtain ⟨hinside, results, p', t', xs', F', hrun, hcarries', hkeeps', htext⟩ :=
      ih (hsame.numCores ▸ hcore) hcarries (hkeeps.trans hsame) haddr hclean hroom.2
    refine ⟨?_, r :: results, p', t', xs', F', outcomes_cons hcall hrun, hcarries', hkeeps', ?_⟩
    · rw [calls, hcall, List.forall_mem_cons]
      exact ⟨trivial, hinside⟩
    · rw [hfirst, TextQueue.behind_foldl_hear, htext, TextQueue.behind_behind,
        messages_cons r results]

variable (sprintf) in
theorem Carries.gets (h : p.Carries core t xs F) (hcore : core < p.numCores) (n : ℕ) :
    ∃ results p', p.outcomes sprintf (List.replicate n (.getStr core)) = some (results, p') ∧
      messages results = t.lines.take n := by
  induction n generalizing p t xs F with
  | zero => exact ⟨[], p, rfl, rfl⟩
  | succ n ih =>
    obtain ⟨r, p₁, t₁, xs₁, F₁, hcall, hcarries, hsame, hfirst, htail⟩ := h.get sprintf hcore
    obtain ⟨results, p', hrun, hmessages⟩ := ih hcarries (hsame.numCores ▸ hcore)
    refine ⟨r :: results, p', outcomes_cons hcall hrun, ?_⟩
    have hlines : t.lines = messages [r] ++ t₁.lines := congrArg TextQueue.lines hfirst
    rw [messages_cons r results, hmessages]
    cases r with
    | none =>
      have hsame : t.lines = t.lines.tail := hlines.trans htail
      have hnil : t.lines = [] := by
        rw [← List.length_eq_zero_iff]
        have hlength := congrArg List.length hsame
        rw [List.length_tail] at hlength
        omega
      rw [htail, hnil]
      simp [messages]
    | some printed =>
      rw [hlines]
      rfl

theorem outcomes_append (ops ops' : List Op) : p.outcomes sprintf (ops ++ ops') =
    (p.outcomes sprintf ops).bind fun r => (r.2.outcomes sprintf ops').map fun r' =>
    (r.1 ++ r'.1, r'.2) := by
  induction ops generalizing p with
  | nil => simp [outcomes]
  | cons op ops ih =>
    rw [List.cons_append, outcomes, outcomes]
    cases p.call sprintf op with
    | none => rfl
    | some r =>
      rw [Option.bind_some, Option.bind_some, ih]
      cases r.2.outcomes sprintf ops with
      | none => rfl
      | some r' =>
        rw [Option.bind_some, Option.map_some, Option.bind_some]
        cases r'.2.outcomes sprintf ops' with
        | none => rfl
        | some r'' => rfl

end ITCPrint

/-! ### What is said -/

namespace ITCUtils

variable (p : ITCPrint) (sprintf : String → List PrintfArg → List Byte) (channel : Fin 32)

def Hears : Prop := p.itcOptFlags &&& ITC_OPT_PRINT ≠ 0 ∧ p.printChannel * 4 = BitVec.ofNat 32
    (4 * channel)

instance : Decidable (Hears p channel) := inferInstanceAs (Decidable (_ ∧ _))

def stringOf (c : ℕ) : Option (NlString × String) := p.nlsString (BitVec.ofNat 32 (4 * c))

def Command.said (t : TextQueue) : Command → TextQueue
  | .puts f => if Hears p channel then t.write (text f ++ [0x0a]) else t
  | .printf formatted => if Hears p channel then t.write ((text formatted).take 255) else t
  | .set_print_channel _ => t
  | .nls_print c d =>
    if c < 0 ∨ 31 < c then t
    else
      match stringOf p c.toNat with
      | some (nls, format) => t.announce (sprintf format ((d.args nls.signedMask).map .int))
      | none => t

def said : Fin 32 → List Command → TextQueue → TextQueue
  | _, [], t => t
  | channel, cmd :: cmds, t => said (cmd.run channel).2 cmds (cmd.said p sprintf channel t)

/-- Texts go to a channel without a no-load string and have a terminator at their end at most.
Arguments go to a channel with a string for as many of them, which prints less than 256 characters
and no null character. -/
def Command.Fits : Command → Prop
  | .puts f => stringOf p channel = none ∧ ∀ c ∈ text f, isTerminator c = false
  | .printf formatted => stringOf p channel = none ∧ ∀ c ∈ ((text formatted).take 255).dropLast,
      isTerminator c = false
  | .set_print_channel _ => True
  | .nls_print c d => 0 ≤ c → c ≤ 31 →
      ∃ nls format, stringOf p c.toNat = some (nls, format) ∧ nls.nf = d.count ∧
        0x00 ∉ sprintf format ((d.args nls.signedMask).map .int) ∧
        (sprintf format ((d.args nls.signedMask).map .int)).length < 256

def Fits : Fin 32 → List Command → Prop
  | _, [] => True
  | channel, cmd :: cmds => cmd.Fits p sprintf channel ∧ Fits (cmd.run channel).2 cmds

variable {p sprintf channel} {core : ℕ}

/-- The path of a write to a channel without a no-load string. -/
theorem printPath_text (hcore : core < p.numCores) (hnone : stringOf p channel = none) {offset : ℕ}
    (hoffset : offset < 4) (data : BitVec 32) :
    p.printPath sprintf core (Stimulus.addr ⟨channel, offset, data⟩) data =
      if Hears p channel then .data (Stimulus.bytes ⟨channel, offset, data⟩) else .ignored := by
  set addr := Stimulus.addr ⟨channel, offset, data⟩ with haddr
  have hchannel := channel.isLt
  have hvalue : addr.toNat = 4 * channel + offset :=
    Nat.mod_eq_of_lt (show 4 * (channel : ℕ) + offset < 2 ^ 32 by omega)
  have hnls : p.nlsString addr = none := by
    by_cases hzero : offset = 0
    · subst hzero
      exact hnone
    · have haligned : ¬addr &&& 0x03 = 0 := by
        intro heq
        have hoffset' := addr_and ⟨channel, offset, data⟩ hoffset
        rw [← haddr, heq] at hoffset'
        exact hzero hoffset'.symm
      exact if_neg fun h => haligned h.2
  have hcompared : ¬(addr < p.printChannel * 4 ∨ (p.printChannel + 1) * 4 ≤ addr) ↔
      p.printChannel * 4 = BitVec.ofNat 32 (4 * channel) := by
    have hfour : (p.printChannel * 4).toNat = p.printChannel.toNat * 4 % 2 ^ 32 :=
      BitVec.toNat_mul _ _
    have hnext : ((p.printChannel + 1) * 4).toNat = (p.printChannel.toNat + 1) % 2 ^ 32 * 4 %
        2 ^ 32 := by
      rw [BitVec.toNat_mul, BitVec.toNat_add]
      rfl
    rw [← BitVec.toNat_inj, BitVec.lt_def, BitVec.le_def, hvalue, hfour, hnext, BitVec.toNat_ofNat]
    have hlt := p.printChannel.isLt
    omega
  rw [printPath, if_neg (Nat.not_le.mpr hcore), hnls]
  dsimp only
  by_cases hprint : p.itcOptFlags &&& ITC_OPT_PRINT = 0
  · rw [if_pos hprint, if_neg fun h : Hears p channel => h.1 hprint]
  · rw [if_neg hprint]
    by_cases hrange : addr < p.printChannel * 4 ∨ (p.printChannel + 1) * 4 ≤ addr
    · rw [if_pos hrange, if_neg fun h : Hears p channel => hcompared.mpr h.2 hrange]
    · have hhears : Hears p channel := ⟨hprint, hcompared.mp hrange⟩
      rw [if_neg hrange, if_pos hhears]
      rfl

def Spell (channel : Fin 32) (ws : List Stimulus) : Prop :=
  ∀ w ∈ ws, w.channel = channel ∧ w.offset < 4

theorem spell_words (f : List Byte) (words : ℕ) :
    Spell channel (itc_print_words channel f words) := by
  intro w hw
  obtain ⟨k, -, rfl⟩ := List.mem_map.mp hw
  exact ⟨rfl, Nat.succ_pos 3⟩

theorem Spell.append {ws ws' : List Stimulus} (h : Spell channel ws) (h' : Spell channel ws') :
    Spell channel (ws ++ ws') :=
  List.forall_mem_append.mpr ⟨h, h'⟩

theorem spell_nil : Spell channel [] := List.forall_mem_nil _

theorem spell_uint8 (b : BitVec 8) : Spell channel [itc_print_write_uint8 channel b] :=
  List.forall_mem_singleton.mpr ⟨rfl, Nat.lt_succ_self 3⟩

theorem spell_uint16 (data : BitVec 16) : Spell channel [itc_print_write_uint16 channel data] :=
  List.forall_mem_singleton.mpr ⟨rfl, Nat.lt_succ_of_lt (Nat.lt_succ_self 2)⟩

theorem spell_fputs (f : List Byte) : Spell channel (itc_fputs channel f) := by
  unfold itc_fputs
  apply (spell_words f _).append
  split
  · exact spell_nil
  · exact spell_uint8 _
  · exact spell_uint16 _
  · exact (spell_uint16 _).append (spell_uint8 _)

theorem spell_puts (f : List Byte) : Spell channel (itc_puts channel f) := by
  unfold itc_puts
  apply (spell_words f _).append
  split
  · exact spell_uint8 _
  · exact spell_uint16 _
  · exact (spell_uint16 _).append (spell_uint8 _)
  · exact (spell_uint16 _).append (spell_uint16 _)

theorem length_bytes {w : Stimulus} (hoffset : w.offset < 4) :
    w.bytes ≠ [] ∧ w.bytes.length ≤ 4 := by
  have hlength : w.bytes.length = 4 - w.offset := by
    rw [bytes_eq w hoffset, List.length_map, List.length_range]
  refine ⟨fun hnil => ?_, by omega⟩
  rw [hnil, List.length_nil] at hlength
  omega

/-- Only the last character of all is the last one of a write that need
not be followed by others. -/
theorem mem_dropLast {ws : List Stimulus} {w : Stimulus} (hw : w ∈ ws) {c : Byte}
    (hc : c ∈ w.bytes.dropLast) :
    c ∈ (ws.flatMap Stimulus.bytes).dropLast := by
  obtain ⟨front, back, rfl⟩ := List.append_of_mem hw
  rw [List.flatMap_append, List.flatMap_cons]
  have hne : w.bytes ≠ [] := by
    intro hnil
    rw [hnil] at hc
    cases hc
  rw [List.dropLast_append_of_ne_nil (List.append_ne_nil_of_left_ne_nil hne _)]
  apply List.mem_append_right
  by_cases hback : back.flatMap Stimulus.bytes = []
  · rwa [hback, List.append_nil]
  · rw [List.dropLast_append_of_ne_nil hback]
    exact List.mem_append_left _ (List.dropLast_subset _ hc)

variable (sprintf) in
theorem Spell.said {ws : List Stimulus} (hws : Spell channel ws) (hcore : core < p.numCores)
    (hnone : stringOf p channel = none)
    (hterminators : ∀ c ∈ (ws.flatMap Stimulus.bytes).dropLast, isTerminator c = false)
    (t : TextQueue) :
    (ws.map fun w => p.printPath sprintf core w.addr w.data).foldl TextQueue.hear t =
        (if Hears p channel then t.write (ws.flatMap Stimulus.bytes) else t) ∧
      ∀ w ∈ ws, (p.printPath sprintf core w.addr w.data).Clean := by
  have hpath : ∀ w ∈ ws, p.printPath sprintf core w.addr w.data = if Hears p channel
      then .data w.bytes else .ignored := by
    rintro ⟨c, offset, data⟩ hw
    obtain ⟨rfl, hoffset⟩ := hws _ hw
    exact printPath_text hcore hnone hoffset data
  refine ⟨?_, fun w hw => ?_⟩
  · rw [List.map_congr_left hpath]
    clear hws hterminators hpath
    split_ifs
    · induction ws generalizing t with
      | nil => rfl
      | cons w ws ih =>
        rw [List.map_cons, List.foldl_cons, ih, List.flatMap_cons, TextQueue.write_append]
        rfl
    · induction ws with
      | nil => rfl
      | cons w ws ih =>
        rw [List.map_cons, List.foldl_cons]
        exact ih
  · rw [hpath w hw]
    split_ifs
    · obtain ⟨hne, hlength⟩ := length_bytes (hws w hw).2
      exact ⟨hne, hlength, fun c hc => hterminators c (mem_dropLast hw hc)⟩
    · trivial

theorem text_take (f : List Byte) (n : ℕ) : text ((text f).take n) = (text f).take n := by
  rw [text, List.takeWhile_eq_self_iff]
  intro c hc
  have hsatisfies := List.mem_takeWhile_imp (List.mem_of_mem_take hc)
  exact hsatisfies

theorem NlsData.itc_nls_print_eq (d : NlsData) (c : ℤ) :
    ∃ data, d.itc_nls_print c = if c < 0 ∨ 31 < c then ([], 0) else ([⟨c.toNat, 0, data⟩], 1) := by
  cases d with
  | str => exact ⟨_, rfl⟩
  | i32 data => exact ⟨_, rfl⟩
  | i16 data1 data2 => exact ⟨_, rfl⟩
  | i11 data1 data2 data3 => exact ⟨_, rfl⟩
  | i8 data1 data2 data3 data4 => exact ⟨_, rfl⟩

theorem Command.Fits.said {cmd : Command} (hfits : cmd.Fits p sprintf channel)
    (hcore : core < p.numCores) (t : TextQueue) :
    ((cmd.run channel).1.map fun w => p.printPath sprintf core w.addr w.data).foldl TextQueue.hear
      t = cmd.said p sprintf channel t ∧
      ∀ w ∈ (cmd.run channel).1, (p.printPath sprintf core w.addr w.data).Clean := by
  cases cmd with
  | puts f =>
    obtain ⟨hnone, hplain⟩ := hfits
    have hbytes : (itc_puts channel f).flatMap Stimulus.bytes = text f ++ [0x0a] := bytes_puts f
    have hsaid := (spell_puts f).said sprintf hcore hnone (by
      rw [hbytes, List.dropLast_concat]
      exact hplain) t
    rw [hbytes] at hsaid
    exact hsaid
  | printf formatted =>
    obtain ⟨hnone, hplain⟩ := hfits
    have hbytes : (itc_printf channel formatted).flatMap Stimulus.bytes =
        (text formatted).take 255 := by
      rw [itc_printf, bytes_fputs, text_take]
    have hsaid := (spell_fputs ((text formatted).take 255)).said sprintf hcore hnone (by
      change ∀ c ∈ ((itc_printf channel formatted).flatMap Stimulus.bytes).dropLast,
        isTerminator c = false
      rw [hbytes]
      exact hplain) t
    change _ = (if Hears p channel then t.write ((itc_printf channel formatted).flatMap
      Stimulus.bytes) else t) ∧ _ at hsaid
    rw [hbytes] at hsaid
    exact hsaid
  | set_print_channel next => exact ⟨rfl, List.forall_mem_nil _⟩
  | nls_print c d =>
    obtain ⟨data, hprint⟩ := d.itc_nls_print_eq c
    unfold Command.run Command.said
    dsimp only
    by_cases hout : c < 0 ∨ 31 < c
    · rw [if_pos hout] at hprint
      rw [hprint, if_pos hout]
      exact ⟨rfl, List.forall_mem_nil _⟩
    · rw [if_neg hout] at hprint
      obtain ⟨nls, format, hstring, hcount, hfits⟩ := hfits (by omega) (by omega)
      have hpath : p.printPath sprintf core (Stimulus.addr ⟨c.toNat, 0, data⟩) data =
          .nls (sprintf format ((d.args nls.signedMask).map .int)) := by
        have hnls : p.nlsString (Stimulus.addr ⟨c.toNat, 0, data⟩) = some (nls, format) := hstring
        have hargs := NlsData.nlsArgs_word nls.signedMask d hprint
        rw [← hcount] at hargs
        rw [printPath, if_neg (Nat.not_le.mpr hcore), hnls]
        dsimp only
        rw [formatted, hargs]
      rw [hprint, if_neg hout, hstring]
      simp only [List.map_cons, List.map_nil, List.foldl_cons, List.foldl_nil,
        List.forall_mem_singleton, hpath]
      exact ⟨rfl, hfits⟩

theorem Fits.said {cmds : List Command} (hfits : Fits p sprintf channel cmds)
    (hcore : core < p.numCores) (t : TextQueue) :
    ((runs channel cmds).map fun w => p.printPath sprintf core w.addr w.data).foldl TextQueue.hear
      t =
        ITCUtils.said p sprintf channel cmds t ∧
      ∀ w ∈ runs channel cmds, (p.printPath sprintf core w.addr w.data).Clean := by
  induction cmds generalizing channel t with
  | nil => exact ⟨rfl, List.forall_mem_nil _⟩
  | cons cmd cmds ih =>
    obtain ⟨hcmd, hcmds⟩ := hfits
    obtain ⟨hfirst, hclean⟩ := hcmd.said hcore t
    obtain ⟨hrest, hclean'⟩ := ih hcmds (cmd.said p sprintf channel t)
    rw [runs, List.map_append, List.foldl_append, hfirst]
    exact ⟨hrest, List.forall_mem_append.mpr ⟨hclean, hclean'⟩⟩

theorem Command.valid (cmd : Command) (channel : Fin 32) : ∀ w ∈ (cmd.run channel).1, w.Valid := by
  have hspell {ws : List Stimulus} (hws : Spell channel ws) : ∀ w ∈ ws, w.Valid := by
    intro w hw
    obtain ⟨hchannel, hoffset⟩ := hws w hw
    exact ⟨hchannel ▸ channel.isLt, hoffset⟩
  cases cmd with
  | puts f => exact hspell (spell_puts f)
  | printf formatted => exact hspell (spell_fputs _)
  | set_print_channel next => exact List.forall_mem_nil _
  | nls_print c d =>
    obtain ⟨data, hprint⟩ := d.itc_nls_print_eq c
    unfold Command.run
    dsimp only
    rw [hprint]
    split_ifs with hout
    · exact List.forall_mem_nil _
    · have hchannel : c.toNat < 32 := by omega
      exact List.forall_mem_singleton.mpr ⟨hchannel, Nat.succ_pos 3⟩

theorem runs_valid (channel : Fin 32) (cmds : List Command) : ∀ w ∈ runs channel cmds, w.Valid := by
  induction cmds generalizing channel with
  | nil => exact List.forall_mem_nil _
  | cons cmd cmds ih =>
    rw [runs]
    exact List.forall_mem_append.mpr ⟨cmd.valid channel, ih _⟩

theorem eq_of_bytes {a b : BitVec 32} (h : ∀ i < 4, (a >>> (8 * i)).setWidth 8 =
      (b >>> (8 * i)).setWidth 8) : a = b := by
  ext j hj
  have hbyte := congrArg (fun v : BitVec 8 => v.getLsbD (j % 8)) (h (j / 8) (by omega))
  simp only [BitVec.getLsbD_setWidth, BitVec.getLsbD_ushiftRight,
    Nat.mod_lt j (show 0 < 8 by decide), decide_true, Bool.true_and, Nat.div_add_mod] at hbyte
  exact hbyte

/-- The decoder treats a message as the write it reports. -/
theorem Encoder.Reports.printPath_eq {encoder : Encoder} (h : encoder.Reports) {w : Stimulus}
    (hw : w.Valid) :
    p.printPath sprintf core (encoder w).1 (encoder w).2 = p.printPath sprintf core w.addr
      w.data := by
  obtain ⟨haddr, hbytes⟩ := h w hw.1 hw.2
  have hdata : dataBytes w.addr (encoder w).2 = dataBytes w.addr w.data := by
    unfold dataBytes
    rw [addr_and w hw.2]
    exact List.map_congr_left fun i hi => hbytes i (List.mem_range.mp hi)
  rw [haddr, printPath, printPath, hdata]
  cases hstring : p.nlsString w.addr with
  | none => rfl
  | some r =>
    have haligned := (nlsString_eq_some.mp hstring).2.1
    have hoffset := addr_and w hw.2
    rw [haligned] at hoffset
    rw [← hoffset] at hbytes
    rw [eq_of_bytes hbytes]

/-- **From the firmware to the decoder.** The messages of a core come out of the decoder as they
have been said, in order, each whole and once, whatever gets come between the writes and once there
have been enough of them behind. -/
theorem commands_delivered (sprintf : String → List PrintfArg → List Byte)
    (itcPrintOpts : BitVec 32)
    (numCores buffSize : ℤ) (printChannel : BitVec 32) (nlsStrings : Option (ℕ → NlString))
    (memory : ℕ → ℕ → Byte)
    {encoder : Encoder} (hencoder : encoder.Reports) {core : ℕ} {channel : Fin 32}
    {cmds : List Command} {ops : List Op}
    (hcore :
    core < (ITCPrint.init itcPrintOpts numCores buffSize printChannel nlsStrings memory).numCores)
    (hfits : Fits (.init itcPrintOpts numCores buffSize printChannel nlsStrings memory) sprintf
      channel cmds)
    (hops : Interleaves encoder core (runs channel cmds) ops)
    (hroom :
    ∀ c ∈ (ITCPrint.init itcPrintOpts numCores buffSize printChannel nlsStrings memory).calls
      sprintf ops,
      RoomFor sprintf c)
    {n : ℕ} (hn : (said (.init itcPrintOpts numCores buffSize printChannel nlsStrings memory)
      sprintf channel cmds
      ⟨[], []⟩).lines.length ≤ n) :
    (∀ c ∈ (ITCPrint.init itcPrintOpts numCores buffSize printChannel nlsStrings memory).calls
      sprintf ops,
      StaysInside sprintf c) ∧
    ∃ results p', (ITCPrint.init itcPrintOpts numCores buffSize printChannel nlsStrings
        memory).outcomes sprintf
        (ops ++ List.replicate n (.getStr core)) = some (results, p') ∧
      messages results = (said (.init itcPrintOpts numCores buffSize printChannel nlsStrings memory)
          sprintf channel cmds
        ⟨[], []⟩).lines := by
  have hinit := carries_init itcPrintOpts numCores buffSize printChannel nlsStrings memory core
  set p := ITCPrint.init itcPrintOpts numCores buffSize printChannel nlsStrings memory
  obtain ⟨hsaid, hclean⟩ := hfits.said hcore ⟨[], []⟩
  have hpath : ∀ w ∈ runs channel cmds,
      p.printPath sprintf core (encoder w).1 (encoder w).2 = p.printPath sprintf core
        w.addr w.data :=
    fun w hw => hencoder.printPath_eq (runs_valid channel cmds w hw)
  have haddr : ∀ w ∈ runs channel cmds, (encoder w).1.toNat < 128 := by
    intro w hw
    obtain ⟨hchannel, hoffset⟩ := runs_valid channel cmds w hw
    rw [(hencoder w hchannel hoffset).1]
    exact Nat.lt_of_le_of_lt (Nat.mod_le _ _) (by omega)
  obtain ⟨hinside, results, p₁, t, xs, F, hrun, hcarries, hkeeps, htext⟩ :=
    hinit.interleaves hops hcore (.refl p) haddr (fun w hw => (hpath w hw).symm ▸ hclean w hw) hroom
  obtain ⟨results', p₂, hgets, hmessages⟩ := hcarries.gets sprintf (hkeeps.numCores ▸ hcore) n
  rw [List.map_congr_left hpath, hsaid] at htext
  rw [htext] at hn ⊢
  have hall : t.lines.length ≤ n := (Nat.le_add_left _ _).trans (List.length_append ▸ hn)
  refine ⟨hinside, results ++ results', p₂, ?_, ?_⟩
  · rw [outcomes_append, hrun, Option.bind_some, hgets, Option.map_some]
  · have hsplit : messages (results ++ results') = messages results ++ messages results' :=
      List.filterMap_append
    rw [hsplit, hmessages, List.take_of_length_le hall]
    rfl

/-- A line in two writes, and a no-load string of channel 3 before it is complete. -/
def sampleCommands : List Command :=
  [.printf [0x61, 0x62, 0x63, 0x64, 0x65], .nls_print 3 .str, .puts [0x66]]

def sampleStrings (i : ℕ) : NlString := if i = 3 then ⟨0, 0, some "x"⟩ else ⟨0, 0, none⟩

def samplePrint : ITCPrint :=
  .init (ITC_OPT_PRINT ||| ITC_OPT_NLS) 1 64 0 (some sampleStrings) fun _ _ => 0x00

/-- An encoder that has the address of the register in the low bits and the
data as it is on the bus. -/
def sampleEncoder : Encoder := fun w => (w.addr, w.data)

def sampleOps : List Op :=
  [.print 0 0 0x64636261 1, .getStr 0, .print 0 3 0x65 2, .print 0 12 0 3, .getStr 0,
    .print 0 2 0x0a66 4]

theorem interleaves_sample : Interleaves sampleEncoder 0 (runs 0 sampleCommands) sampleOps := by
  have hruns : runs 0 sampleCommands = [⟨0, 0, 0x64636261⟩, ⟨0, 3, 0x65⟩, ⟨3, 0, 0⟩,
    ⟨0, 2, 0x0a66⟩] := by decide
  rw [hruns]
  exact .write _ 1 (.get (.write _ 2 (.write _ 3 (.get (.write _ 4 .nil)))))

theorem commands_delivered_sample : (∀ c ∈ samplePrint.calls (fun _ _ => [0x78]) sampleOps,
      StaysInside (fun _ _ => [0x78]) c) ∧
    ∃ results p', samplePrint.outcomes (fun _ _ => [0x78])
        (sampleOps ++ List.replicate 3 (.getStr 0)) = some (results, p') ∧
      messages results = [[0x61, 0x62, 0x63, 0x64, 0x65], [0x78], [0x66, 0x0a]] := by
  have hfits : Fits samplePrint (fun _ _ => [0x78]) 0 sampleCommands := by
    refine ⟨⟨rfl, by decide⟩, ⟨fun _ _ => ⟨⟨0, 0, some "x"⟩, "x", rfl, rfl, by decide, by decide⟩,
      ⟨⟨rfl, by decide⟩, trivial⟩⟩⟩
  exact commands_delivered (fun _ _ => [0x78]) (ITC_OPT_PRINT ||| ITC_OPT_NLS) 1 64 0
    (some sampleStrings) (fun _ _ => 0x00) (fun w _ _ => ⟨rfl, fun _ _ => rfl⟩)
      (show 0 < 1 by decide) hfits interleaves_sample (by decide)
    (n := 3) (by decide)

end ITCUtils

end TraceDecoder
