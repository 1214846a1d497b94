import TraceDecoder.Framing
import TraceDecoder.SocketFrames

/-!
# Oversize messages

What comes after a message that did not fit in the buffer. Its other slices are not skipped but read
like any others: what is found in them as a start is taken for a message, and delivered as one if
the end of the oversize message is then close enough.
-/

namespace TraceDecoder

namespace SliceFileParser

/-- The state behind the next message that is returned, however many calls that takes. -/
inductive NextMessage : SliceFileParser → SliceFileParser → Prop
  | here {s : SliceFileParser} (hmsg : (readBinaryMsg s).2.1 = true) :
    NextMessage s (readBinaryMsg s).2.2
  | later {s t : SliceFileParser} (hmsg : (readBinaryMsg s).2.1 = false)
    (hnext : NextMessage (readBinaryMsg s).2.2 t) : NextMessage s t

/-- The parser as it would be behind the last slice of the message it is in. -/
def behindMessage (s : SliceFileParser) : SliceFileParser :=
  { s with tf := skipMessage s.tf, tellg := s.tellg + (s.tf.length - (skipMessage s.tf).length) }

/-- After an oversize message the next one that is returned is the next one behind it. -/
def Resyncs (s : SliceFileParser) : Prop := ∀ t, NextMessage s t ↔ NextMessage (behindMessage s) t

/-- The slices that have been collected at the end of `slices`, where `k` have been before them and
64 are dropped. -/
def leftOver : ℕ → List Byte → ℕ
  | k, [] => k
  | 0, b :: slices => if b = 0x00 ∨ b &&& 0x03 ≠ MSEO_NORMAL then leftOver 0 slices
      else leftOver 1 slices
  | k + 1, _ :: slices => if 64 ≤ k + 2 then leftOver 0 slices else leftOver (k + 2) slices

theorem leftOver_full {k : ℕ} (hk : 0 < k) {xs : List Byte} (hlen : k + xs.length = 64)
    (hne : xs ≠ []) (ys : List Byte) :
    leftOver k (xs ++ ys) = leftOver 0 ys := by
  induction xs generalizing k with
  | nil => exact absurd rfl hne
  | cons x xs ih =>
    obtain ⟨k, rfl⟩ : ∃ n, k = n + 1 := ⟨k - 1, by omega⟩
    rw [List.length_cons] at hlen
    rw [List.cons_append, leftOver]
    split_ifs with hfull
    · rw [List.length_eq_zero_iff.mp (show xs.length = 0 by omega), List.nil_append]
    · exact ih (by omega) (by omega) (List.ne_nil_of_length_pos (by omega))

theorem leftOver_short {k : ℕ} (hk : 0 < k) {xs : List Byte} (hlen : k + xs.length < 64) :
    leftOver k xs = k + xs.length := by
  induction xs generalizing k with
  | nil => rfl
  | cons x xs ih =>
    obtain ⟨k, rfl⟩ : ∃ n, k = n + 1 := ⟨k - 1, by omega⟩
    rw [List.length_cons] at hlen ⊢
    rw [leftOver, if_neg (by omega), ih (by omega) (by omega)]
    omega

/-! ### One call -/

section

variable {tf tf' msg slices xs ys : List Byte}

theorem skipIdle_suffix (tf : List Byte) : skipIdle tf <:+ tf := by
  induction tf with
  | nil => exact List.suffix_rfl
  | cons b tf ih =>
    rw [skipIdle]
    split_ifs
    · exact ih.trans (List.suffix_cons b tf)
    · exact List.suffix_rfl

theorem collectSlices_full (hlen : msg.length + xs.length = 64)
    (hxs : ∀ b ∈ xs, b &&& 0x03 ≠ MSEO_END) (ys : List Byte) :
    collectSlices msg (xs ++ ys) = .bm ys := by
  induction xs generalizing msg with
  | nil =>
    have hfull : 64 ≤ msg.length := hlen.ge
    cases ys <;> exact if_pos hfull
  | cons x xs ih =>
    rw [List.length_cons] at hlen
    have hx := hxs x List.mem_cons_self
    rw [List.cons_append, collectSlices, if_neg (by omega), if_neg hx]
    refine ih ?_ fun b hb => hxs b (List.mem_cons_of_mem x hb)
    rw [List.length_append, List.length_singleton]
    omega

/-- When the buffer is full, 64 slices have been collected. -/
theorem collectSlices_bm (h : collectSlices msg tf = .bm tf') (hlen : msg.length ≤ 64) :
    tf' = tf.drop (64 - msg.length) ∧ 64 - msg.length ≤ tf.length := by
  induction tf generalizing msg with
  | nil =>
    rw [collectSlices] at h
    split_ifs at h with hfull
    cases h
    exact ⟨List.drop_nil.symm, by omega⟩
  | cons b tf ih =>
    rw [collectSlices] at h
    split_ifs at h with hfull hend
    · cases h
      rw [show 64 - msg.length = 0 by omega]
      exact ⟨rfl, Nat.zero_le _⟩
    · obtain ⟨htf, hle⟩ := ih h (by rw [List.length_append, List.length_singleton]; omega)
      rw [List.length_append, List.length_singleton] at htf hle
      rw [show 64 - msg.length = 64 - (msg.length + 1) + 1 by omega, List.drop_succ_cons,
        List.length_cons]
      exact ⟨htf, by omega⟩

theorem collectSlices_msg (h : collectSlices msg tf = .msg slices tf') :
    ∃ b ∈ tf, b &&& 0x03 = MSEO_END := by
  induction tf generalizing msg with
  | nil =>
    rw [collectSlices] at h
    split_ifs at h
  | cons b tf ih =>
    rw [collectSlices] at h
    split_ifs at h with hfull hend
    · exact ⟨b, List.mem_cons_self, hend⟩
    · obtain ⟨c, hc, hend'⟩ := ih h
      exact ⟨c, List.mem_cons_of_mem b hc, hend'⟩

end

variable {s t : SliceFileParser}

theorem skipMessage_suffix (tf : List Byte) : skipMessage tf <:+ tf := by
  induction tf with
  | nil => exact List.suffix_rfl
  | cons b tf ih =>
    rw [skipMessage]
    split_ifs
    · exact List.suffix_cons b tf
    · exact ih.trans (List.suffix_cons b tf)

theorem collectSlices_suffix (msg tf : List Byte) :
    match collectSlices msg tf with
    | .eof => True
    | .bm tf' => tf' <:+ tf
    | .msg _ tf' => tf' <:+ tf := by
  induction tf generalizing msg with
  | nil =>
    rw [collectSlices]
    split_ifs
    · exact List.suffix_rfl
    · trivial
  | cons b tf ih =>
    rw [collectSlices]
    split_ifs
    · exact List.suffix_rfl
    · exact List.suffix_cons b tf
    · have hrest := ih (msg ++ [b])
      cases hc : collectSlices (msg ++ [b]) tf with
      | eof => trivial
      | bm tf' => rw [hc] at hrest; exact hrest.trans (List.suffix_cons b tf)
      | msg slices tf' => rw [hc] at hrest; exact hrest.trans (List.suffix_cons b tf)

def scanned (s : SliceFileParser) : List Byte :=
  skipIdle (if s.flushMessage then skipMessage s.tf else s.tf)

theorem scanned_suffix (s : SliceFileParser) : scanned s <:+ s.tf := by
  rw [scanned]
  refine (skipIdle_suffix _).trans ?_
  split_ifs
  · exact skipMessage_suffix s.tf
  · exact List.suffix_rfl

/-- What a call leaves unread is behind what it has looked at, and a message it
returns has an end there. -/
theorem readBinaryMsg_tf (s : SliceFileParser) :
    (readBinaryMsg s).2.2.tf <:+ s.tf ∧ (readBinaryMsg s).2.2.flushMessage = false ∧
      ((readBinaryMsg s).2.1 = true → (∃ b ∈ s.tf, b &&& 0x03 = MSEO_END) ∧
        (readBinaryMsg s).2.2.tf.length < s.tf.length) := by
  have hscan := scanned_suffix s
  rw [scanned] at hscan
  rw [readBinaryMsg]
  cases hskip : skipIdle (if s.flushMessage then skipMessage s.tf else s.tf) with
  | nil => exact ⟨List.nil_suffix, rfl, fun h => absurd h Bool.false_ne_true⟩
  | cons b tf =>
    rw [hskip] at hscan
    have hsuffix := collectSlices_suffix [b] tf
    dsimp only
    cases hc : collectSlices [b] tf with
    | eof => exact ⟨List.nil_suffix, rfl, fun h => absurd h Bool.false_ne_true⟩
    | bm tf' =>
      rw [hc] at hsuffix
      exact ⟨(hsuffix.trans (List.suffix_cons b tf)).trans hscan, rfl, fun h => absurd h
        Bool.false_ne_true⟩
    | msg slices tf' =>
      rw [hc] at hsuffix
      refine ⟨(hsuffix.trans (List.suffix_cons b tf)).trans hscan, rfl, fun _ => ⟨?_, ?_⟩⟩
      · obtain ⟨c, hmem, hend⟩ := collectSlices_msg hc
        exact ⟨c, hscan.subset (List.mem_cons_of_mem b hmem), hend⟩
      · have hshort := hsuffix.length_le
        have hlong := hscan.length_le
        rw [List.length_cons] at hlong
        exact lt_of_le_of_lt hshort hlong

/-- A next message needs an end mark, and is gone from the file behind it. -/
theorem NextMessage.end_mem (h : NextMessage s t) : (∃ b ∈ s.tf, b &&& 0x03 = MSEO_END) ∧
    t.tf.length < s.tf.length := by
  induction h with
  | @here s hmsg => exact (readBinaryMsg_tf s).2.2 hmsg
  | @later s t _ _ ih =>
    have hsuffix := (readBinaryMsg_tf s).1
    obtain ⟨⟨b, hb, hend⟩, hlen⟩ := ih
    exact ⟨⟨b, hsuffix.subset hb, hend⟩, hlen.trans_le hsuffix.length_le⟩

theorem nextMessage_iff (s t : SliceFileParser) :
    NextMessage s t ↔ if (readBinaryMsg s).2.1 then t = (readBinaryMsg s).2.2 else NextMessage
      (readBinaryMsg s).2.2 t := by
  constructor
  · intro h
    cases h with
    | here hmsg => rw [if_pos hmsg]
    | later hmsg hnext => rw [hmsg]; exact hnext
  · intro h
    split_ifs at h with hmsg
    · exact h ▸ .here hmsg
    · exact .later (eq_false_of_ne_true hmsg) h

theorem nextMessage_congr {s' : SliceFileParser} (h : readBinaryMsg s = readBinaryMsg s')
    (t : SliceFileParser) :
    NextMessage s t ↔ NextMessage s' t := by
  rw [nextMessage_iff, h, ← nextMessage_iff]

theorem not_nextMessage (h : skipIdle s.tf = []) (hflush : s.flushMessage = false) :
    ¬ NextMessage s t := by
  rw [nextMessage_iff, readBinaryMsg, hflush, if_neg Bool.false_ne_true, h,
    if_neg Bool.false_ne_true]
  intro hnext
  obtain ⟨⟨b, hb, -⟩, -⟩ := hnext.end_mem
  exact absurd hb List.not_mem_nil

theorem nextMessage_msgOffset (hflush : s.flushMessage = false) (msgOffset : BitVec 32)
    (t : SliceFileParser) :
    NextMessage { s with msgOffset := msgOffset } t ↔ NextMessage s t := by
  cases hskip : skipIdle s.tf with
  | nil => exact iff_of_false (not_nextMessage hskip hflush) (not_nextMessage hskip hflush)
  | cons b tf =>
    apply nextMessage_congr
    rw [readBinaryMsg, readBinaryMsg, hflush, if_neg Bool.false_ne_true, hskip]

theorem readBinaryMsg_idle {b : Byte} {tf : List Byte} (hflush : s.flushMessage = false)
    (htf : s.tf = b :: tf) (hidle : b = 0x00 ∨ b &&& 0x03 ≠ MSEO_NORMAL) :
    readBinaryMsg s = readBinaryMsg { s with tf := tf, tellg := s.tellg + 1 } := by
  have hskip : skipIdle (b :: tf) = skipIdle tf := by rw [skipIdle, if_pos hidle]
  have hlen := (skipIdle_suffix tf).length_le
  rw [readBinaryMsg, readBinaryMsg, hflush, htf]
  simp only [Bool.false_eq_true, if_false, hskip, List.length_cons]
  cases hrest : skipIdle tf with
  | nil =>
    dsimp only
    rw [show s.tellg + (tf.length + 1) = s.tellg + 1 + tf.length by omega]
  | cons c tf' =>
    rw [hrest, List.length_cons] at hlen
    dsimp only
    rw [show s.tellg + (tf.length + 1 - tf'.length) = s.tellg + 1 +
      (tf.length - tf'.length) by omega]

/-- A start with 63 slices behind it and no end among them overflows the buffer,
and the call stops there. -/
theorem readBinaryMsg_overflow {b : Byte} {xs ys : List Byte} (hflush : s.flushMessage = false)
    (htf : s.tf = b :: (xs ++ ys))
    (hstart : ¬ (b = 0x00 ∨ b &&& 0x03 ≠ MSEO_NORMAL)) (hlen : xs.length = 63)
    (hxs : ∀ c ∈ xs, c &&& 0x03 ≠ MSEO_END) :
    readBinaryMsg s = (.bm, false, { s with
      tf := ys, tellg := s.tellg + 64, msgOffset := BitVec.ofNat 32 (s.tellg + 1) - 1,
          status := .bm }) := by
  have hfull : collectSlices [b] (xs ++ ys) = .bm ys :=
    collectSlices_full (by rw [List.length_singleton, hlen]) hxs ys
  have hskip : skipIdle (b :: (xs ++ ys)) = b :: (xs ++ ys) := by rw [skipIdle, if_neg hstart]
  rw [readBinaryMsg, hflush, htf]
  simp only [Bool.false_eq_true, if_false, hskip, hfull, List.length_cons, List.length_append,
    Prod.mk.injEq, true_and, SliceFileParser.mk.injEq, and_true, hlen]
  refine ⟨by omega, ?_⟩
  congr 2
  omega

/-! ### The rest of an oversize message -/

/-- The next message is the next one behind the end `e` if and only if nothing is being collected
when it is reached. -/
theorem resyncs_iff_leftOver {mid rest : List Byte} {e : Byte} (hflush : s.flushMessage = false)
    (hstatus : s.status = .bm)
    (htf : s.tf = mid ++ e :: rest) (hmid : ∀ b ∈ mid, b &&& 0x03 ≠ MSEO_END)
    (hend : e &&& 0x03 = MSEO_END) :
    (∀ t, NextMessage s t ↔ NextMessage { s with tf := rest, tellg := s.tellg + (mid.length + 1) }
      t) ↔ leftOver 0 mid = 0 := by
  induction hn : mid.length using Nat.strong_induction_on generalizing s mid with
  | _ n ih =>
  subst hn
  cases mid with
  | nil =>
    have hidle : e = 0x00 ∨ e &&& 0x03 ≠ MSEO_NORMAL := .inr (by rw [hend]; decide)
    exact iff_of_true (nextMessage_congr (readBinaryMsg_idle hflush htf hidle)) rfl
  | cons b mid =>
    have hrest : ∀ c ∈ mid, c &&& 0x03 ≠ MSEO_END := fun c hc => hmid c (List.mem_cons_of_mem b hc)
    rw [List.length_cons]
    by_cases hidle : b = 0x00 ∨ b &&& 0x03 ≠ MSEO_NORMAL
    · have hskip : readBinaryMsg s =
          readBinaryMsg { s with tf := mid ++ e :: rest, tellg := s.tellg + 1 } :=
        readBinaryMsg_idle hflush htf hidle
      have hshort := @ih mid.length (Nat.lt_succ_self _)
        { s with tf := mid ++ e :: rest, tellg := s.tellg + 1 } mid hflush hstatus rfl hrest rfl
      rw [leftOver, if_pos hidle, ← hshort, show s.tellg + (mid.length + 1 + 1) = s.tellg + 1 +
        (mid.length + 1) by omega]
      exact forall_congr' fun t => iff_congr (nextMessage_congr hskip t) Iff.rfl
    · rw [leftOver, if_neg hidle]
      by_cases hlong : 63 ≤ mid.length
      · -- the buffer overflows again
        have hlen : (mid.take 63).length = 63 := by rw [List.length_take]; omega
        have hdrop : (mid.drop 63).length = mid.length - 63 := List.length_drop
        have hsplit : mid = mid.take 63 ++ mid.drop 63 := (List.take_append_drop 63 mid).symm
        have htf' : s.tf = b :: (mid.take 63 ++ (mid.drop 63 ++ e :: rest)) := by
          rw [htf, List.cons_append, ← List.append_assoc, ← hsplit]
        have hbm := readBinaryMsg_overflow hflush htf' hidle hlen fun c hc => hrest c
          (List.mem_of_mem_take hc)
        have hshort := @ih (mid.drop 63).length (by rw [List.length_cons]; omega)
          (readBinaryMsg s).2.2 (mid.drop 63) (by rw [hbm]; exact hflush) (by rw [hbm])
            (by rw [hbm]) (fun c hc => hrest c (List.mem_of_mem_drop hc)) rfl
        have hleft : leftOver 1 mid = leftOver 0 (mid.drop 63) := by
          conv_lhs => rw [hsplit]
          exact leftOver_full (by decide) (by rw [hlen])
            (List.ne_nil_of_length_pos (by rw [hlen]; decide)) _
        rw [hleft, ← hshort, hbm, hdrop, ← hstatus,
          show s.tellg + 64 + (mid.length - 63 + 1) = s.tellg + (mid.length + 1 + 1) by omega]
        refine forall_congr' fun t => iff_congr ?_ ?_
        · rw [nextMessage_iff, hbm, if_neg Bool.false_ne_true, ← hstatus]
        · exact (@nextMessage_msgOffset { s with tf := rest, tellg := s.tellg +
            (mid.length + 1 + 1) } hflush _ t).symm
      · -- the end completes a message
        have hframed : Framed (b :: (mid ++ [e])) := by
          rw [not_or, not_not] at hidle
          exact .mk hidle.1 hidle.2 hrest hend (by omega)
        have hread := readBinaryMsg_framed s rest hframed hflush
          (by rw [htf]; simp only [List.cons_append, List.append_assoc, List.nil_append])
        rw [leftOver_short (by decide) (by omega)]
        refine iff_of_false (fun hall => ?_) (by omega)
        obtain ⟨-, hlen⟩ := ((hall _).mp (.here (by rw [hread]))).end_mem
        rw [hread] at hlen
        exact absurd hlen (lt_irrefl _)

theorem skipMessage_append {mid rest : List Byte} {e : Byte}
    (hmid : ∀ b ∈ mid, b &&& 0x03 ≠ MSEO_END) (hend : e &&& 0x03 = MSEO_END) :
    skipMessage (mid ++ e :: rest) = rest := by
  induction mid with
  | nil => exact if_pos hend
  | cons b mid ih =>
    rw [List.cons_append, skipMessage, if_neg (hmid b List.mem_cons_self)]
    exact ih fun c hc => hmid c (List.mem_cons_of_mem b hc)

theorem skipMessage_never {tf : List Byte} (h : ∀ b ∈ tf, b &&& 0x03 ≠ MSEO_END) :
    skipMessage tf = [] := by
  induction tf with
  | nil => rfl
  | cons b tf ih =>
    rw [skipMessage, if_neg (h b List.mem_cons_self)]
    exact ih fun c hc => h c (List.mem_cons_of_mem b hc)

def beforeEnd (tf : List Byte) : List Byte := tf.takeWhile fun b => b &&& 0x03 ≠ MSEO_END

theorem beforeEnd_split {tf : List Byte} (h : ∃ b ∈ tf, b &&& 0x03 = MSEO_END) :
    (∀ b ∈ beforeEnd tf, b &&& 0x03 ≠ MSEO_END) ∧ ∃ e rest, tf = beforeEnd tf ++ e :: rest ∧
      e &&& 0x03 = MSEO_END := by
  induction tf with
  | nil =>
    obtain ⟨b, hb, -⟩ := h
    exact absurd hb List.not_mem_nil
  | cons c tf ih =>
    rw [beforeEnd, List.takeWhile_cons]
    by_cases hc : c &&& 0x03 = MSEO_END
    · rw [if_neg (by simp only [hc, ne_eq, not_true_eq_false, decide_false, Bool.false_eq_true,
        not_false_eq_true])]
      exact ⟨fun b hb => absurd hb List.not_mem_nil, c, tf, rfl, hc⟩
    · obtain ⟨b, hb, hend⟩ := h
      have hmem : b ∈ tf := (List.mem_cons.mp hb).resolve_left fun heq => hc (heq ▸ hend)
      obtain ⟨hbefore, e, rest, htf, he⟩ := ih ⟨b, hmem, hend⟩
      rw [if_pos (by simp only [hc, ne_eq, not_false_eq_true, decide_true])]
      refine ⟨fun d hd => ?_, e, rest, ?_, he⟩
      · obtain rfl | hd := List.mem_cons.mp hd
        · exact hc
        · exact hbefore d hd
      · exact congrArg (c :: ·) htf

/-- Nothing is being collected when the last slice of the message is reached, or
there is no such slice. -/
def EndsIdle (tf : List Byte) : Prop :=
  (∃ b ∈ tf, b &&& 0x03 = MSEO_END) → leftOver 0 (beforeEnd tf) = 0

theorem resyncs_iff_endsIdle (hflush : s.flushMessage = false) (hstatus : s.status = .bm) :
    Resyncs s ↔ EndsIdle s.tf := by
  by_cases hend : ∃ b ∈ s.tf, b &&& 0x03 = MSEO_END
  · obtain ⟨hmid, e, rest, htf, hlast⟩ := beforeEnd_split hend
    have hskip : skipMessage s.tf = rest := by
      conv_lhs => rw [htf]
      exact skipMessage_append hmid hlast
    have hlen : s.tf.length = (beforeEnd s.tf).length + (rest.length + 1) := by
      conv_lhs => rw [htf]
      rw [List.length_append, List.length_cons]
    rw [EndsIdle, forall_prop_of_true hend, ← resyncs_iff_leftOver hflush hstatus htf hmid hlast,
      Resyncs, behindMessage, hskip, hlen, show (beforeEnd s.tf).length +
        (rest.length + 1) - rest.length = (beforeEnd s.tf).length + 1 by omega]
  · have hnever : ∀ b ∈ s.tf, b &&& 0x03 ≠ MSEO_END := fun b hb h => hend ⟨b, hb, h⟩
    refine iff_of_true (fun t => iff_of_false (fun h => hend h.end_mem.1) fun h => ?_)
      fun h => absurd h hend
    obtain ⟨⟨b, hb, -⟩, -⟩ := h.end_mem
    rw [behindMessage, skipMessage_never hnever] at hb
    exact absurd hb List.not_mem_nil

/-- A call that overflows the buffer leaves what is behind the 64 slices it has read, and does not
ask for it to be skipped. -/
theorem readBinaryMsg_bm (hbm : (readBinaryMsg s).1 = .bm) :
    (readBinaryMsg s).2.2.tf = (scanned s).drop 64 ∧ (readBinaryMsg s).2.2.status = .bm := by
  rw [readBinaryMsg, ← scanned] at hbm ⊢
  cases hscan : scanned s with
  | nil => rw [hscan] at hbm; cases hbm
  | cons b tf =>
    rw [hscan] at hbm
    dsimp only at hbm ⊢
    cases hc : collectSlices [b] tf with
    | eof => rw [hc] at hbm; cases hbm
    | msg slices tf' => rw [hc] at hbm; cases hbm
    | bm tf' =>
      obtain ⟨htf, -⟩ := collectSlices_bm hc (by rw [List.length_singleton]; decide)
      exact ⟨htf, rfl⟩

/-- **Behind an oversize message.** After a message has overflowed the buffer, the next one
returned is the next one behind its end if and only if no other start is being collected
when that end is reached. -/
theorem resyncs_iff (s : SliceFileParser) (hbm : (readBinaryMsg s).1 = .bm) :
    Resyncs (readBinaryMsg s).2.2 ↔ EndsIdle ((scanned s).drop 64) := by
  obtain ⟨htf, hstatus⟩ := readBinaryMsg_bm hbm
  rw [resyncs_iff_endsIdle (readBinaryMsg_tf s).2.1 hstatus, htf]

/-- A message of `n` slices and its end, and one behind it. -/
def oversizeBySlices (n : ℕ) : SliceFileParser :=
  .init 0 (List.replicate n 0x04 ++ [0x03, 0x0c, 0x03])

theorem resyncs_iff_oneTooMany :
    Resyncs (readBinaryMsg (oversizeBySlices 64)).2.2 ↔ EndsIdle
      ((scanned (oversizeBySlices 64)).drop 64) :=
  resyncs_iff (oversizeBySlices 64) (by decide)

/-- With one slice more the last two are returned as a message. -/
theorem not_resyncs :
    let s := (readBinaryMsg (oversizeBySlices 65)).2.2
    (readBinaryMsg (oversizeBySlices 65)).1 = .bm ∧ (readBinaryMsg s).2.1 = true ∧
      (readBinaryMsg s).2.2.msg = [0x04, 0x03] ∧ ¬ Resyncs s := by
  intro s
  have hbm : (readBinaryMsg (oversizeBySlices 65)).1 = .bm := by decide
  have htf : s.tf = [0x04, 0x03, 0x0c, 0x03] := by decide
  refine ⟨hbm, by decide, by decide, fun hresyncs => ?_⟩
  have hidle := (resyncs_iff_endsIdle (readBinaryMsg_tf _).2.1 (readBinaryMsg_bm hbm).2).mp hresyncs
  rw [EndsIdle, htf] at hidle
  exact absurd (hidle ⟨0x03, by decide, by decide⟩) (by decide)

end SliceFileParser

end TraceDecoder
