import TraceDecoder.SocketParser

/-!
# Framing byte by byte

The messages in a sequence of bytes behind a message that has been read in part. Reading a file
produces them one by one.
-/

namespace TraceDecoder

open SliceFileParser

/-- What a byte completes, and the message that has been read in part after it. -/
def feed (pending : List Byte) (b : Byte) : Option Received × List Byte :=
  if pending = [] then (none, if b = 0x00 ∨ b &&& 0x03 ≠ MSEO_NORMAL then [] else [b])
  else if b &&& 0x03 = MSEO_END then (some (.msg (pending ++ [b])), [])
  else if 64 ≤ pending.length + 1 then (some .bm, [])
  else (none, pending ++ [b])

def frames : List Byte → List Byte → List Received
  | _, [] => []
  | pending, b :: bytes => (feed pending b).1.toList ++ frames (feed pending b).2 bytes

variable {pending tf : List Byte} {b : Byte}

theorem frames_idle (h : b = 0x00 ∨ b &&& 0x03 ≠ MSEO_NORMAL) (tf : List Byte) :
    frames [] (b :: tf) = frames [] tf := by
  rw [frames, feed, if_pos rfl, if_pos h]
  rfl

theorem frames_start (h : ¬ (b = 0x00 ∨ b &&& 0x03 ≠ MSEO_NORMAL)) (tf : List Byte) :
    frames [] (b :: tf) = frames [b] tf := by
  rw [frames, feed, if_pos rfl, if_neg h]
  rfl

theorem frames_end (hpending : pending ≠ []) (h : b &&& 0x03 = MSEO_END) (tf : List Byte) :
    frames pending (b :: tf) = .msg (pending ++ [b]) :: frames [] tf := by
  rw [frames, feed, if_neg hpending, if_pos h]
  rfl

theorem frames_overflow (hpending : pending ≠ []) (h : b &&& 0x03 ≠ MSEO_END)
    (hlen : 64 ≤ pending.length + 1)
    (tf : List Byte) : frames pending (b :: tf) = .bm :: frames [] tf := by
  rw [frames, feed, if_neg hpending, if_neg h, if_pos hlen]
  rfl

theorem frames_collect (hpending : pending ≠ []) (h : b &&& 0x03 ≠ MSEO_END)
    (hlen : ¬ 64 ≤ pending.length + 1)
    (tf : List Byte) : frames pending (b :: tf) = frames (pending ++ [b]) tf := by
  rw [frames, feed, if_neg hpending, if_neg h, if_neg hlen]
  rfl

theorem length_frames_le (pending bytes : List Byte) : (frames pending bytes).length ≤
    bytes.length := by
  induction bytes generalizing pending with
  | nil => exact Nat.le_refl 0
  | cons b bytes ih =>
    have hone : (feed pending b).1.toList.length ≤ 1 := Option.length_toList_le
    have hrest := ih (feed pending b).2
    rw [frames, List.length_append, List.length_cons]
    omega

/-! ### Reading a file -/

theorem frames_skipIdle (tf : List Byte) : frames [] tf = frames [] (skipIdle tf) := by
  induction tf with
  | nil => rfl
  | cons b tf ih =>
    rw [skipIdle]
    split_ifs with h
    · rw [frames_idle h, ih]
    · rfl

/-- The messages of a file are those that `collectSlices` cuts off, one by one. -/
theorem frames_collectSlices (hpending : pending ≠ []) (hlen : pending.length < 64) :
    frames pending tf = match collectSlices pending tf with
      | .eof => []
      | .bm tf' => .bm :: frames [] tf'
      | .msg slices tf' => .msg slices :: frames [] tf' := by
  induction tf generalizing pending with
  | nil =>
    rw [collectSlices, if_neg (Nat.not_le.mpr hlen)]
    rfl
  | cons b tf ih =>
    rw [collectSlices, if_neg (Nat.not_le.mpr hlen)]
    by_cases hend : b &&& 0x03 = MSEO_END
    · rw [frames_end hpending hend, if_pos hend]
    · rw [if_neg hend]
      by_cases hfull : 64 ≤ pending.length + 1
      · have hbm : collectSlices (pending ++ [b]) tf = .bm tf := by
          cases tf <;> rw [collectSlices, if_pos (by rw [List.length_append]; exact hfull)]
        rw [frames_overflow hpending hend hfull, hbm]
      · rw [frames_collect hpending hend hfull]
        refine ih (List.append_ne_nil_of_right_ne_nil _ (List.cons_ne_nil _ _)) ?_
        rw [List.length_append]
        exact Nat.not_le.mp hfull

theorem skipIdle_head {tf' : List Byte} (h : skipIdle tf = b :: tf') :
    ¬ (b = 0x00 ∨ b &&& 0x03 ≠ MSEO_NORMAL) := by
  induction tf with
  | nil => cases h
  | cons c tf ih =>
    rw [skipIdle] at h
    split_ifs at h with hidle
    · exact ih h
    · cases h
      exact hidle

/-- One call of `readBinaryMsg` produces the first of the messages, and leaves the others. -/
theorem readBinaryMsg_frames (s : SliceFileParser) (hflush : s.flushMessage = false) :
    ∃ rc haveMsg s', readBinaryMsg s = (rc, haveMsg, s') ∧ s'.flushMessage = false ∧
      Received.of rc haveMsg (s'.msg.take s'.msgSlices) = (frames [] s.tf).head? ∧ frames [] s'.tf =
        (frames [] s.tf).tail := by
  rw [readBinaryMsg, hflush, frames_skipIdle s.tf]
  cases hskip : skipIdle s.tf with
  | nil =>
    rw [if_neg Bool.false_ne_true, hskip]
    exact ⟨_, _, _, rfl, rfl, rfl, rfl⟩
  | cons b tf =>
    rw [frames_start (skipIdle_head hskip), frames_collectSlices (List.cons_ne_nil b [])
      (Nat.lt_of_sub_eq_succ rfl), if_neg Bool.false_ne_true, hskip]
    dsimp only
    cases collectSlices [b] tf with
    | eof => exact ⟨_, _, _, rfl, rfl, rfl, rfl⟩
    | bm tf' => exact ⟨_, _, _, rfl, rfl, rfl, rfl⟩
    | msg slices tf' =>
      refine ⟨_, _, _, rfl, rfl, ?_, rfl⟩
      change some (Received.msg (slices.take slices.length)) = some (.msg slices)
      rw [List.take_length]

/-- `n` calls produce the first `n` messages of a file. -/
theorem SliceFileParser.received_eq (s : SliceFileParser) (hflush : s.flushMessage = false)
    (n : ℕ) :
    s.received n = (frames [] s.tf).take n := by
  induction n generalizing s with
  | zero => rw [received, List.take_zero]
  | succ n ih =>
    obtain ⟨rc, haveMsg, s', hread, hflush', hfirst, hrest⟩ := readBinaryMsg_frames s hflush
    rw [received, hread]
    dsimp only
    rw [hfirst, ih s' hflush', hrest]
    cases frames [] s.tf with
    | nil => exact List.take_nil
    | cons r rs => rfl

end TraceDecoder
