import Mathlib.Data.List.Basic
import TraceDecoder.ITCPrint
import TraceDecoder.Lib.RingIndex

/-!
# The characters in a ring

What a print writes into the ring of its core: the characters there is room for, each message with a
null character at its end. The plain path leaves room for that character, the no-load-string path
does not.
-/

namespace TraceDecoder

open RingIndex

namespace PrintQueue

variable (q : PrintQueue) {buffSize : ℕ}

def putAll (buffSize : ℕ) (cs : List Byte) : PrintQueue := cs.foldl (fun q c => q.put buffSize c) q

@[simp] theorem putAll_nil : q.putAll buffSize [] = q := rfl

@[simp] theorem putAll_cons (c : Byte) (cs : List Byte) :
    q.putAll buffSize (c :: cs) = (q.put buffSize c).putAll buffSize cs := rfl

theorem putAll_append (cs ds : List Byte) :
    q.putAll buffSize (cs ++ ds) = (q.putAll buffSize cs).putAll buffSize ds :=
  List.foldl_append

@[simp] theorem put_pbo (c : Byte) : (q.put buffSize c).pbo = q.pbo := rfl

@[simp] theorem put_numMsgs (c : Byte) : (q.put buffSize c).numMsgs = q.numMsgs := rfl

@[simp] theorem putAll_numMsgs (cs : List Byte) : (q.putAll buffSize cs).numMsgs = q.numMsgs := by
  induction cs generalizing q with
  | nil => rfl
  | cons c cs ih => exact ih _

def withMsgs (n : ℤ) : PrintQueue := { q with numMsgs := n }

theorem putAll_withMsgs (n : ℤ) (cs : List Byte) :
    (q.withMsgs n).putAll buffSize cs = (q.putAll buffSize cs).withMsgs n := by
  induction cs generalizing q with
  | nil => rfl
  | cons c cs ih => exact ih (q.put buffSize c)

theorem addMsg_eq : q.addMsg = q.withMsgs (q.numMsgs + 1) := rfl

@[simp] theorem withMsgs_withMsgs (n m : ℤ) : (q.withMsgs n).withMsgs m = q.withMsgs m := rfl

@[simp] theorem withMsgs_numMsgs (n : ℤ) : (q.withMsgs n).numMsgs = n := rfl

theorem putText_eq (text : List Byte) (room : ℕ) :
    q.putText buffSize text room = q.putAll buffSize (text.take (room - 1)) := by
  induction text generalizing q room with
  | nil => rw [List.take_nil, putText, putAll_nil]
  | cons c cs ih =>
    rw [putText]
    split_ifs with hroom
    · obtain ⟨n, rfl⟩ : ∃ n, room = n + 2 := ⟨room - 2, by omega⟩
      rw [ih]
      rfl
    · have hzero : room - 1 = 0 := by omega
      rw [ih, hzero, List.take_zero, List.take_zero]

/-- The bytes of a data word that there is room for, with a null character behind each line end. -/
def stored : List Byte → ℕ → List Byte
  | [], _ => []
  | c :: cs, room =>
    if 2 ≤ room then
      if c = 0x0a ∨ c = 0x0d then c :: 0x00 :: stored cs (room - 2) else c :: stored cs (room - 1)
    else stored cs room

theorem length_stored (cs : List Byte) (room : ℕ) : (stored cs room).length ≤ room := by
  induction cs generalizing room with
  | nil => exact Nat.zero_le _
  | cons c cs ih =>
    rw [stored]
    split_ifs with hroom
    · have hrest := ih (room - 2)
      rw [List.length_cons, List.length_cons]
      omega
    · have hrest := ih (room - 1)
      rw [List.length_cons]
      omega
    · exact ih room

theorem putData_eq (cs : List Byte) (room : ℕ) (terminated : Bool) :
    q.putData buffSize cs room terminated =
      ((q.putAll buffSize (stored cs room)).withMsgs (q.numMsgs + (stored cs room).count 0x00),
        terminated || (stored cs room).contains 0x00) := by
  have hself : ∀ q : PrintQueue, q.withMsgs q.numMsgs = q := fun _ => rfl
  induction cs generalizing q room terminated with
  | nil => simp [putData, stored, hself]
  | cons c cs ih =>
    simp only [putData, stored]
    by_cases hroom : 2 ≤ room
    · by_cases hzero : c = 0x00
      · have hline : ¬ ((0x00 : Byte) = 0x0a ∨ (0x00 : Byte) = 0x0d) := by decide
        simp only [hroom, hzero, hline, if_true, if_false, ih, addMsg_eq, putAll_cons,
          putAll_withMsgs, withMsgs_withMsgs, withMsgs_numMsgs, put_numMsgs, List.count_cons_self,
            Int.add_assoc, Int.add_comm 1]
        simp
      · by_cases hline : c = 0x0a ∨ c = 0x0d
        · simp only [hroom, hzero, hline, if_true, if_false, ih, addMsg_eq, putAll_cons,
            putAll_withMsgs, withMsgs_withMsgs, withMsgs_numMsgs, put_numMsgs, List.count_cons_self,
              List.count_cons_of_ne hzero, Int.add_assoc,
            Int.add_comm 1]
          simp
        · simp only [hroom, hzero, hline, if_true, if_false, ih, putAll_cons, put_numMsgs,
            List.count_cons_of_ne hzero]
          rw [List.contains_cons, beq_false_of_ne (Ne.symm hzero), Bool.false_or]
    · simp only [hroom, if_false]
      exact ih q room terminated

/-! ### The room in a ring -/

structure InRing (buffSize : ℕ) (q : PrintQueue) : Prop where
  pbi : q.pbi < buffSize
  pbo : q.pbo < buffSize

variable {q}

theorem advance_eq {i : ℕ} (hi : i < buffSize) : advance buffSize i = shift buffSize i 1 := by
  rw [advance, shift_eq hi (by omega)]
  split_ifs <;> omega

theorem advance_lt {i : ℕ} (hi : i < buffSize) : advance buffSize i < buffSize := by
  rw [advance]
  split_ifs <;> omega

theorem InRing.roomInITCPrintQ (h : q.InRing buffSize) :
    q.roomInITCPrintQ buffSize = buffSize - 1 - distance buffSize q.pbo q.pbi := by
  have hpbi := h.pbi
  have hpbo := h.pbo
  rw [PrintQueue.roomInITCPrintQ, distance]
  split_ifs <;> omega

theorem InRing.putAll (h : q.InRing buffSize) (cs : List Byte) :
    (q.putAll buffSize cs).InRing buffSize ∧ (q.putAll buffSize cs).pbi = shift buffSize q.pbi
      cs.length := by
  induction cs generalizing q with
  | nil => exact ⟨h, (shift_zero h.pbi).symm⟩
  | cons c cs ih =>
    have hput : (q.put buffSize c).InRing buffSize := ⟨advance_lt h.pbi, h.pbo⟩
    obtain ⟨hin, hpbi⟩ := ih hput
    refine ⟨hin, ?_⟩
    have hfirst : (q.put buffSize c).pbi = shift buffSize q.pbi 1 := advance_eq h.pbi
    rw [putAll_cons, hpbi, hfirst, shift_shift, List.length_cons, Nat.add_comm 1]

/-- The room in a ring shrinks by one with each character that it has room for. -/
theorem InRing.room_put (h : q.InRing buffSize) (c : Byte)
    (hroom : 0 < q.roomInITCPrintQ buffSize) :
    (q.put buffSize c).roomInITCPrintQ buffSize = q.roomInITCPrintQ buffSize - 1 := by
  have hput : (q.put buffSize c).InRing buffSize := ⟨advance_lt h.pbi, h.pbo⟩
  rw [h.roomInITCPrintQ] at hroom
  have hpbi : (q.put buffSize c).pbi = shift buffSize q.pbi 1 := advance_eq h.pbi
  rw [hput.roomInITCPrintQ, h.roomInITCPrintQ, hpbi, put_pbo, distance_shift h.pbi h.pbo (by omega)]
  omega

def StaysAhead (buffSize : ℕ) (q : PrintQueue) (cs : List Byte) : Prop :=
  ∀ k, 0 < k → k ≤ cs.length → (q.putAll buffSize (cs.take k)).pbi ≠ q.pbo

theorem InRing.staysAhead_iff (h : q.InRing buffSize) (cs : List Byte) :
    q.StaysAhead buffSize cs ↔ cs.length ≤ q.roomInITCPrintQ buffSize := by
  have hlt := distance_lt h.pbi h.pbo
  have hpbi : ∀ k ≤ cs.length, (q.putAll buffSize (cs.take k)).pbi = shift buffSize q.pbi k := by
    intro k hk
    rw [(h.putAll _).2, List.length_take, Nat.min_eq_left hk]
  rw [h.roomInITCPrintQ]
  constructor
  · intro hahead
    by_contra hlong
    have hfull := hahead (buffSize - distance buffSize q.pbo q.pbi) (by omega) (by omega)
    rw [hpbi _ (by omega)] at hfull
    exact hfull (shift_distance h.pbi h.pbo)
  · intro hroom k hk hle
    rw [hpbi k hle]
    exact shift_ne h.pbi h.pbo hk (by omega)

theorem InRing.unread_putAll (h : q.InRing buffSize) {cs : List Byte}
    (hroom : cs.length ≤ q.roomInITCPrintQ buffSize) {j : ℕ} (hj : Unread buffSize q.pbo q.pbi j) :
    (q.putAll buffSize cs).pbuff j = q.pbuff j ∧ j ≠ (q.putAll buffSize cs).pbi := by
  rw [h.roomInITCPrintQ] at hroom
  have hlt := distance_lt h.pbi h.pbo
  have hne : ∀ k ≤ cs.length, j ≠ shift buffSize q.pbi k := by
    rintro k hk rfl
    exact not_unread_shift h.pbi h.pbo (by omega) hj
  refine ⟨?_, by rw [(h.putAll cs).2]; exact hne _ (Nat.le_refl _)⟩
  clear hroom
  suffices hkeep : ∀ n ≤ cs.length, (q.putAll buffSize (cs.take n)).pbuff j = q.pbuff j by
    simpa using hkeep cs.length (Nat.le_refl _)
  intro n hn
  induction n with
  | zero => rfl
  | succ n ih =>
    rw [List.take_succ_eq_append_getElem hn, putAll_append, ← ih (by omega)]
    have hpbi : (q.putAll buffSize (cs.take n)).pbi = shift buffSize q.pbi n := by
      rw [(h.putAll _).2, List.length_take, Nat.min_eq_left (by omega)]
    exact if_neg (by rw [hpbi]; exact hne n (by omega))

end PrintQueue

end TraceDecoder
