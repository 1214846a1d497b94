import TraceDecoder.ITCPrintFaithful

/-!
# The firmware side of instrumentation prints

`itc_utils` writes text to the stimulus register of the print channel, four characters with each
word and the rest behind them, and the arguments of no-load strings in the fields of one word. What
the decoder takes from these writes are the characters and the arguments.
-/

namespace TraceDecoder

namespace ITCUtils

/-- A write to the stimulus register of a channel, from byte `offset` of it on. -/
structure Stimulus where
  channel : ℕ
  offset : ℕ
  data : BitVec 32
  deriving DecidableEq

def Stimulus.addr (w : Stimulus) : BitVec 32 := BitVec.ofNat 32 (4 * w.channel + w.offset)

def Stimulus.bytes (w : Stimulus) : List Byte := ITCPrint.dataBytes w.addr w.data

/-! ### Text -/

section
variable (channel : Fin 32)

def itc_print_write_uint32 (data : BitVec 32) : Stimulus := ⟨channel, 0, data⟩

def itc_print_write_uint16 (data : BitVec 16) : Stimulus := ⟨channel, 2, data.setWidth 32⟩

def itc_print_write_uint8 (data : BitVec 8) : Stimulus := ⟨channel, 3, data.setWidth 32⟩

def text (f : List Byte) : List Byte := f.takeWhile (· ≠ 0x00)

def strlen (f : List Byte) : ℕ := (text f).length

def byteAt (f : List Byte) (i : ℕ) : BitVec 8 := f.getD i 0x00

def littleEndian (w : ℕ) (bytes : List Byte) : BitVec w :=
  bytes.foldr (fun b v => v <<< 8 ||| b.setWidth w) 0

def halfAt (f : List Byte) (i : ℕ) : BitVec 16 := littleEndian 16 [byteAt f i, byteAt f (i + 1)]

def wordAt (f : List Byte) (i : ℕ) : BitVec 32 :=
  littleEndian 32 [byteAt f i, byteAt f (i + 1), byteAt f (i + 2), byteAt f (i + 3)]

def itc_print_words (f : List Byte) (words : ℕ) : List Stimulus :=
  (List.range words).map fun k => itc_print_write_uint32 channel (wordAt f (4 * k))

def itc_fputs (f : List Byte) : List Stimulus :=
  let rc := strlen f
  let i := rc / 4 * 4
  itc_print_words channel f (rc / 4) ++
    match rc &&& 0x03 with
    | 0 => []
    | 1 => [itc_print_write_uint8 channel (byteAt f i)]
    | 2 => [itc_print_write_uint16 channel (halfAt f i)]
    | _ =>
      [itc_print_write_uint16 channel (halfAt f i), itc_print_write_uint8 channel
        (byteAt f (i + 2))]

def itc_puts (f : List Byte) : List Stimulus :=
  let rc := strlen f
  let i := rc / 4 * 4
  itc_print_words channel f (rc / 4) ++
    match rc &&& 0x03 with
    | 0 => [itc_print_write_uint8 channel 0x0a]
    | 1 => [itc_print_write_uint16 channel (0x0a#16 <<< 8 ||| (byteAt f i).setWidth 16)]
    | 2 => [itc_print_write_uint16 channel (halfAt f i), itc_print_write_uint8 channel 0x0a]
    | _ => [itc_print_write_uint16 channel (halfAt f i),
        itc_print_write_uint16 channel (0x0a#16 <<< 8 ||| (byteAt f (i + 2)).setWidth 16)]

/-- The text is what `vsnprintf` makes of the arguments; its buffer has 256 characters. -/
def itc_printf (formatted : List Byte) : List Stimulus :=
  itc_fputs channel ((text formatted).take 255)

def itc_set_print_channel (next : ℤ) : Fin 32 × ℤ :=
  if h : next < 0 ∨ 31 < next then (channel, 1) else (⟨next.toNat, by omega⟩, 0)

end

/-! ### No-load strings -/

def itc_nls_print (channel : ℤ) (data : BitVec 32) : List Stimulus × ℤ :=
  if channel < 0 ∨ 31 < channel then ([], 0) else ([⟨channel.toNat, 0, data⟩], 1)

def itc_nls_printstr (channel : ℤ) : List Stimulus × ℤ := itc_nls_print channel 0

def itc_nls_print_i32 (channel : ℤ) (data : BitVec 32) : List Stimulus × ℤ :=
  itc_nls_print channel data

def itc_nls_print_i16 (channel : ℤ) (data1 data2 : BitVec 16) : List Stimulus × ℤ :=
  itc_nls_print channel (data1.setWidth 32 <<< 16 ||| data2.setWidth 32)

def itc_nls_print_i11 (channel : ℤ) (data1 data2 data3 : BitVec 16) : List Stimulus × ℤ :=
  let data1 := data1 &&& 0x7ff
  let data2 := data2 &&& 0x7ff
  let data3 := data3 &&& 0x3ff
  itc_nls_print channel (data1.setWidth 32 <<< 21 ||| data2.setWidth 32 <<< 10 |||
    data3.setWidth 32)

def itc_nls_print_i8 (channel : ℤ) (data1 data2 data3 data4 : BitVec 8) : List Stimulus × ℤ :=
  itc_nls_print channel
    (data1.setWidth 32 <<< 24 ||| data2.setWidth 32 <<< 16 ||| data3.setWidth 32 <<< 8 |||
      data4.setWidth 32)

/-! ### The characters of a text -/

variable {channel : Fin 32} {f : List Byte}

theorem addr_and (w : Stimulus) (hoffset : w.offset < 4) : (w.addr &&& 0x03).toNat = w.offset := by
  rw [BitVec.toNat_and]
  change (4 * w.channel + w.offset) % 2 ^ 32 &&& (2 ^ 2 - 1) = w.offset
  rw [Nat.and_two_pow_sub_one_eq_mod]
  omega

theorem bytes_eq (w : Stimulus) (hoffset : w.offset < 4) :
    w.bytes = (List.range (4 - w.offset)).map fun i => (w.data >>> (8 * i)).setWidth 8 := by
  rw [Stimulus.bytes, ITCPrint.dataBytes, addr_and w hoffset]

theorem byte_littleEndian {w : ℕ} {bytes : List Byte} (hw : 8 * bytes.length ≤ w) {i : ℕ}
    (hi : i < bytes.length) : ((littleEndian w bytes) >>> (8 * i)).setWidth 8 = bytes[i] := by
  induction bytes generalizing i with
  | nil => cases hi
  | cons b bytes ih =>
    rw [List.length_cons] at hw hi
    have hcons : littleEndian w (b :: bytes) = littleEndian w bytes <<< 8 ||| b.setWidth w := rfl
    rw [hcons]
    cases i with
    | zero =>
      ext j hj
      have hin : j < w := by omega
      simp [hin, hj]
    | succ i =>
      have hrest := ih (by omega) (Nat.lt_of_succ_lt_succ hi)
      rw [List.getElem_cons_succ, ← hrest]
      ext j hj
      have hin : 8 * (i + 1) + j < w := by omega
      have hpast : 8 * (i + 1) + j - 8 = 8 * i + j := by omega
      have hbyte : b.getLsbD (8 * (i + 1) + j) = false := BitVec.getLsbD_of_ge _ _ (by omega)
      have hshifted : ¬8 * (i + 1) + j < 8 := by omega
      simp [hin, hpast, hbyte, hshifted, ← BitVec.getLsbD_eq_getElem]

theorem byte_setWidth {w : ℕ} (hw : w ≤ 32) (data : BitVec w) (i : ℕ) :
    ((data.setWidth 32) >>> (8 * i)).setWidth 8 = (data >>> (8 * i)).setWidth 8 := by
  ext j hj
  by_cases hin : 8 * i + j < 32
  · simp [hin]
  · simp [hin, BitVec.getLsbD_of_ge data (8 * i + j) (by omega)]

theorem bytes_uint32 (b₀ b₁ b₂ b₃ : Byte) :
    (itc_print_write_uint32 channel (littleEndian 32 [b₀, b₁, b₂, b₃])).bytes =
    [b₀, b₁, b₂, b₃] := by
  rw [bytes_eq _ (Nat.succ_pos 3)]
  apply List.ext_getElem
  · rfl
  · intro i hi hi'
    rw [List.getElem_map, List.getElem_range]
    exact byte_littleEndian (Nat.le_refl 32) hi'

theorem bytes_uint16 (b₀ b₁ : Byte) :
    (itc_print_write_uint16 channel (littleEndian 16 [b₀, b₁])).bytes = [b₀, b₁] := by
  rw [bytes_eq _ (show 2 < 4 by decide)]
  apply List.ext_getElem
  · rfl
  · intro i hi hi'
    rw [List.getElem_map, List.getElem_range]
    exact (byte_setWidth (by decide) _ i).trans (byte_littleEndian (Nat.le_refl 16) hi')

theorem bytes_uint8 (b : Byte) : (itc_print_write_uint8 channel b).bytes = [b] := by
  rw [bytes_eq _ (show 3 < 4 by decide)]
  change [((b.setWidth 32) >>> (8 * 0)).setWidth 8] = [b]
  rw [byte_setWidth (by decide)]
  simp

theorem bytes_lineEnd (b : Byte) :
    (itc_print_write_uint16 channel (0x0a#16 <<< 8 ||| b.setWidth 16)).bytes = [b, 0x0a] := by
  have hword : 0x0a#16 <<< 8 ||| b.setWidth 16 = littleEndian 16 [b, 0x0a] := by simp [littleEndian]
  rw [hword, bytes_uint16]

/-! ### Texts -/

theorem text_eq (f : List Byte) : text f = (List.range (strlen f)).map (byteAt f) := by
  apply List.ext_getElem
  · simp [strlen]
  · intro i hi hi'
    rw [List.getElem_map, List.getElem_range, byteAt]
    have hprefix : text f <+: f := List.takeWhile_prefix _
    have hlt : i < f.length := hi.trans_le hprefix.length_le
    rw [List.getD_eq_getElem _ _ hlt]
    exact hprefix.getElem hi

theorem bytes_words (f : List Byte) (words : ℕ) :
    (itc_print_words channel f words).flatMap Stimulus.bytes = (List.range (4 * words)).map
    (byteAt f) := by
  induction words with
  | zero => rfl
  | succ n ih =>
    have hwords : itc_print_words channel f (n + 1) = itc_print_words channel f n ++
        [itc_print_write_uint32 channel (wordAt f (4 * n))] := by
      rw [itc_print_words, List.range_succ, List.map_append]
      rfl
    have hrange : List.range (4 * (n + 1)) = List.range (4 * n) ++ [4 * n, 4 * n + 1, 4 * n + 2, 4 *
        n + 3] := by
      rw [Nat.mul_add, List.range_add]
      rfl
    rw [hwords, List.flatMap_append, ih, hrange, List.map_append, List.flatMap_singleton, wordAt,
      bytes_uint32]
    rfl

/-- The number of characters that there are no words for. -/
theorem rest_eq (f : List Byte) : strlen f &&& 0x03 = strlen f % 4 :=
  Nat.and_two_pow_sub_one_eq_mod (strlen f) 2

theorem text_eq_append (channel : Fin 32) (f : List Byte) :
    text f = (itc_print_words channel f (strlen f / 4)).flatMap Stimulus.bytes ++
      (List.range (strlen f &&& 0x03)).map fun i => byteAt f (strlen f / 4 * 4 + i) := by
  have hsplit : strlen f = 4 * (strlen f / 4) + strlen f % 4 := (Nat.div_add_mod _ _).symm
  rw [text_eq, bytes_words, rest_eq, Nat.mul_comm (strlen f / 4) 4]
  conv_lhs => rw [hsplit, List.range_add, List.map_append, List.map_map]
  rfl

theorem rest_cases (f : List Byte) : strlen f &&& 0x03 = 0 ∨ strlen f &&& 0x03 = 1 ∨
    strlen f &&& 0x03 = 2 ∨ strlen f &&& 0x03 = 3 := by
  rw [rest_eq]
  omega

/-- The characters of the writes are those of the text. -/
theorem bytes_fputs (f : List Byte) : (itc_fputs channel f).flatMap Stimulus.bytes = text f := by
  rw [text_eq_append channel, itc_fputs]
  obtain hrest | hrest | hrest | hrest := rest_cases f
  all_goals
    rw [List.flatMap_append]
    simp only [hrest]
    congr 1
  · simp [bytes_uint8, List.range_succ]
  · simp [halfAt, bytes_uint16, List.range_succ]
  · simp [halfAt, bytes_uint16, bytes_uint8, List.range_succ]

theorem bytes_puts (f : List Byte) : (itc_puts channel f).flatMap Stimulus.bytes = text f ++
    [0x0a] := by
  rw [text_eq_append channel, itc_puts, List.append_assoc]
  obtain hrest | hrest | hrest | hrest := rest_cases f
  all_goals
    rw [List.flatMap_append]
    simp only [hrest]
    congr 1
  · simp [bytes_uint8]
  · simp only [List.flatMap_singleton, bytes_lineEnd]
    simp [List.range_succ]
  · simp [halfAt, bytes_uint16, bytes_uint8, List.range_succ]
  · simp only [List.flatMap_cons, List.flatMap_nil, halfAt, bytes_uint16, bytes_lineEnd]
    simp [List.range_succ]

/-! ### The arguments of a no-load string -/

inductive NlsData
  | str
  | i32 (data : BitVec 32)
  | i16 (data1 data2 : BitVec 16)
  | i11 (data1 data2 data3 : BitVec 16)
  | i8 (data1 data2 data3 data4 : BitVec 8)

namespace NlsData

def count : NlsData → ℤ
  | .str => 0
  | .i32 _ => 1
  | .i16 .. => 2
  | .i11 .. => 3
  | .i8 .. => 4

def itc_nls_print (channel : ℤ) : NlsData → List Stimulus × ℤ
  | .str => itc_nls_printstr channel
  | .i32 data => itc_nls_print_i32 channel data
  | .i16 data1 data2 => itc_nls_print_i16 channel data1 data2
  | .i11 data1 data2 data3 => itc_nls_print_i11 channel data1 data2 data3
  | .i8 data1 data2 data3 data4 => itc_nls_print_i8 channel data1 data2 data3 data4

/-- Argument `i` as the format is given it: the bits that have a field, with the sign where the
format has a signed conversion. -/
def extended {w : ℕ} (signedMask : BitVec 32) (i : ℕ) (data : BitVec w) : BitVec 32 :=
  if signedMask.getLsbD i then data.signExtend 32 else data.setWidth 32

def args (signedMask : BitVec 32) : NlsData → List (BitVec 32)
  | .str => []
  | .i32 data => [data]
  | .i16 data1 data2 => [extended signedMask 0 data1, extended signedMask 1 data2]
  | .i11 data1 data2 data3 =>
    [extended signedMask 0 (data1.setWidth 11), extended signedMask 1 (data2.setWidth 11),
      extended signedMask 2 (data3.setWidth 10)]
  | .i8 data1 data2 data3 data4 =>
    [extended signedMask 0 data1, extended signedMask 1 data2, extended signedMask 2 data3,
      extended signedMask 3 data4]

theorem nlsArg_eq {w : ℕ} {word : BitVec 32} {shift : ℕ} {data : BitVec w}
    (h : ∀ j < w, word.getLsbD (shift + j) = data.getLsbD j)
    (signedMask : BitVec 32) (i : ℕ) :
    nlsArg signedMask word i shift w = extended signedMask i data := by
  have hfield : (word >>> shift).setWidth w = data := by
    ext j hj
    rw [BitVec.getElem_setWidth, BitVec.getLsbD_ushiftRight, h j hj, BitVec.getLsbD_eq_getElem]
  unfold nlsArg extended
  rw [hfield]

theorem and_mask {w n : ℕ} (d : BitVec w) : (d &&& BitVec.ofNat w (2 ^ n - 1)).setWidth 32 =
    (d.setWidth n).setWidth 32 := by
  ext j hj
  rw [BitVec.getElem_setWidth, BitVec.getElem_setWidth, BitVec.getLsbD_and, BitVec.getLsbD_setWidth,
    BitVec.getLsbD_ofNat, Nat.testBit_two_pow_sub_one]
  by_cases hin : j < w
  · simp [hin, Bool.and_comm]
  · simp [BitVec.getLsbD_of_ge d j (Nat.not_lt.mp hin)]

/-- The decoder finds the arguments in the word of a write. -/
theorem nlsArgs_word (signedMask : BitVec 32) (d : NlsData) {channel : ℤ} {w : Stimulus} {rc : ℤ}
    (h : d.itc_nls_print channel = ([w], rc)) :
    nlsArgs d.count signedMask w.data = some (d.args signedMask) := by
  have hword : ∀ data : BitVec 32, ITCUtils.itc_nls_print channel data = ([w], rc) →
      w.data = data := by
    intro data hprint
    unfold ITCUtils.itc_nls_print at hprint
    split_ifs at hprint
    · cases hprint
    · cases hprint
      rfl
  cases d with
  | str => rfl
  | i32 data =>
    rw [hword _ h]
    rfl
  | i16 data1 data2 =>
    have hfields : (∀ j < 16, w.data.getLsbD (16 + j) = data1.getLsbD j) ∧
        ∀ j < 16, w.data.getLsbD (0 + j) = data2.getLsbD j := by
      rw [hword _ h]
      constructor
      all_goals
        intro j hj
        simp
        grind
    simp only [count, nlsArgs, args, nlsArg_eq hfields.1, nlsArg_eq hfields.2]
  | i11 data1 data2 data3 =>
    have hdata : w.data = (data1.setWidth 11).setWidth 32 <<< 21 ||| (data2.setWidth 11).setWidth
        32 <<< 10 ||| (data3.setWidth 10).setWidth 32 := by
      rw [hword _ h, ← and_mask data1, ← and_mask data2, ← and_mask data3]
      rfl
    simp only [count, nlsArgs, args]
    generalize data1.setWidth 11 = field1, data2.setWidth 11 = field2, data3.setWidth 10 =
      field3 at hdata
    have hfields : (∀ j < 11, w.data.getLsbD (21 + j) = field1.getLsbD j) ∧
        (∀ j < 11, w.data.getLsbD (10 + j) = field2.getLsbD j) ∧ ∀ j < 10, w.data.getLsbD (0 + j) =
          field3.getLsbD j := by
      rw [hdata]
      refine ⟨?_, ?_, ?_⟩
      all_goals
        intro j hj
        simp
        grind
    rw [nlsArg_eq hfields.1, nlsArg_eq hfields.2.1, nlsArg_eq hfields.2.2]
  | i8 data1 data2 data3 data4 =>
    have hfields : (∀ j < 8, w.data.getLsbD (24 + j) = data1.getLsbD j) ∧
        (∀ j < 8, w.data.getLsbD (16 + j) = data2.getLsbD j) ∧
          (∀ j < 8, w.data.getLsbD (8 + j) = data3.getLsbD j) ∧ ∀ j < 8, w.data.getLsbD (0 + j) =
          data4.getLsbD j := by
      rw [hword _ h]
      refine ⟨?_, ?_, ?_, ?_⟩
      all_goals
        intro j hj
        simp
        grind
    simp only [count, nlsArgs, args, nlsArg_eq hfields.1, nlsArg_eq hfields.2.1,
      nlsArg_eq hfields.2.2.1, nlsArg_eq hfields.2.2.2]

end NlsData

end ITCUtils

end TraceDecoder
