import GoTrees.VariableId
import Mathlib.Data.List.Basic
import Mathlib.Logic.Function.Iterate

/-!
# The checksum of names

The checksum is worked out a byte at a time, by a table. It is the one that a register works out a bit at a
time:

    r  ──▶  r ^ byte  ──▶  eight times: move down by one bit, and add the polynomial if a one fell out

One bit out of the register is linear, so the eight bits of a sum are those of its parts. The upper bytes
only move down meanwhile, and the table holds what becomes of the low one.

It is also one to one: the polynomial has a one on top, so the top bit says what fell out. Hence a byte
that comes later takes no difference between two registers away. Up to four bytes fit into the register
side by side, and it makes no difference whether they come in one by one or all at once. So what differs
within four bytes in a row, and nowhere else, always shows in the checksum.
-/

namespace GoTrees.VariableId

open List

variable (r : UInt32)

/-! ### One bit at a time -/

/-- Takes one bit out of the register, and adds the polynomial if it was a one. -/
def serialShift (r : BitVec 32) : BitVec 32 :=
  if r.getLsbD 0 then (r >>> 1) ^^^ 0xEDB88320#32 else r >>> 1

/-- Takes one byte in: it is added to the low byte of the register, and eight bits are taken out. -/
def serialStep (r : BitVec 32) (byte : UInt8) : BitVec 32 :=
  serialShift^[8] (r ^^^ byte.toBitVec.setWidth 32)

def serialChecksum (bytes : List UInt8) : BitVec 32 :=
  ~~~ (bytes.foldl serialStep (BitVec.allOnes 32))

theorem getLsbD_serialShift (r : BitVec 32) (i : Nat) :
    (serialShift r).getLsbD i = (r.getLsbD (1 + i) ^^ (r.getLsbD 0 && (0xEDB88320#32).getLsbD i)) := by
  cases out : r.getLsbD 0
  · rw [serialShift, out, Bool.false_and, Bool.xor_false, if_neg Bool.false_ne_true,
      BitVec.getLsbD_ushiftRight]
  · rw [serialShift, out, Bool.true_and, if_pos rfl, BitVec.getLsbD_xor, BitVec.getLsbD_ushiftRight]

theorem serialShift_xor (r s : BitVec 32) : serialShift (r ^^^ s) = serialShift r ^^^ serialShift s := by
  apply BitVec.eq_of_getLsbD_eq
  intro i _
  simp only [getLsbD_serialShift, BitVec.getLsbD_xor, Bool.and_xor_distrib_right, Bool.xor_assoc,
    Bool.xor_left_comm]

theorem iterate_serialShift_xor (n : Nat) (r s : BitVec 32) :
    serialShift^[n] (r ^^^ s) = serialShift^[n] r ^^^ serialShift^[n] s := by
  induction n with
  | zero => rfl
  | succ n ih => simp only [Function.iterate_succ_apply', ih, serialShift_xor]

/-- As long as only zeros fall out, the register just moves down. -/
theorem iterate_serialShift_of_low {r : BitVec 32} {n : Nat} (low : ∀ i < n, r.getLsbD i = false) :
    serialShift^[n] r = r >>> n := by
  induction n with
  | zero => simp
  | succ n ih =>
    have out : (r >>> n).getLsbD 0 = false := by simpa using low n (Nat.lt_succ_self n)
    rw [Function.iterate_succ_apply', ih fun i hi => low i (Nat.lt_succ_of_lt hi), serialShift, out,
      BitVec.shiftRight_add]
    rfl

/-- Three bytes above a low byte of zeros. -/
theorem iterate_serialShift_raised {r : BitVec 32} (three : ∀ i, 24 ≤ i → r.getLsbD i = false) :
    serialShift^[8] (r <<< 8) = r := by
  rw [iterate_serialShift_of_low (by simp +contextual)]
  apply BitVec.eq_of_getLsbD_eq
  intro i hi
  by_cases low : i < 24
  · simp [show 8 + i < 32 by omega, BitVec.getLsbD_eq_getElem hi]
  · simp [three i (by omega), show ¬ 8 + i < 32 by omega]

/-- The top bit says which bit fell out, so what was added for it can be taken away again. -/
theorem serialShift_injective : Function.Injective serialShift := by
  intro r s same
  have bits (i : Nat) := congrArg (BitVec.getLsbD · i) same
  simp only [getLsbD_serialShift] at bits
  have out : r.getLsbD 0 = s.getLsbD 0 := by simpa using bits 31
  apply BitVec.eq_of_getLsbD_eq
  intro i _
  cases i with
  | zero => exact out
  | succ i =>
    have bit := bits i
    rw [out, Bool.xor_left_inj, Nat.add_comm] at bit
    exact bit

/-! ### The table -/

/-- Eight bits out of the register: what the low byte makes, added to the other bytes moved down. -/
theorem iterate_serialShift_eight (r : BitVec 32) :
    serialShift^[8] r = serialShift^[8] ((r.setWidth 8).setWidth 32) ^^^ (r >>> 8) := by
  have split : r = (r.setWidth 8).setWidth 32 ^^^ (r >>> 8) <<< 8 := by
    apply BitVec.eq_of_getLsbD_eq
    intro i hi
    by_cases low : i < 8
    · simp [hi, low]
    · simp [hi, low, show 8 + (i - 8) = i by omega]
  have above : ∀ i, 24 ≤ i → (r >>> 8).getLsbD i = false := by
    intro i hi
    rw [BitVec.getLsbD_ushiftRight]
    exact BitVec.getLsbD_of_ge r (8 + i) (by omega)
  conv_lhs => rw [split]
  rw [iterate_serialShift_xor, iterate_serialShift_raised above]

theorem toBitVec_shift : (shift r).toBitVec = serialShift r.toBitVec := by
  have out : r &&& 1 = 0 ↔ r.toBitVec.getLsbD 0 = false := by
    rw [← UInt32.toBitVec_inj, UInt32.toBitVec_and]
    show r.toBitVec &&& 1#32 = 0#32 ↔ _
    rw [BitVec.and_one_eq_setWidth_ofBool_getLsbD]
    cases r.toBitVec.getLsbD 0 <;> decide
  rw [shift, serialShift]
  cases bit : r.toBitVec.getLsbD 0
  · rw [if_pos (out.mpr bit)]
    rfl
  · rw [if_neg (by simp [out, bit])]
    rfl

theorem toBitVec_shift8 : (shift8 r).toBitVec = serialShift^[8] r.toBitVec := by
  simp only [shift8, toBitVec_shift]
  rfl

theorem toBitVec_table : (table.get (Fin.ofNat 256 r.toNat)).toBitVec =
    serialShift^[8] ((r.toBitVec.setWidth 8).setWidth 32) := by
  have entry (i : Fin 256) : table.get i = shift8 (.ofNat i.val) := Vector.getElem_ofFn i.isLt
  have low : (UInt32.ofNat (r.toNat % 256)).toBitVec = (r.toBitVec.setWidth 8).setWidth 32 := by
    apply BitVec.eq_of_toNat_eq
    rw [BitVec.toNat_setWidth, BitVec.toNat_setWidth]
    rfl
  rw [entry, toBitVec_shift8, ← low]
  rfl

theorem toBitVec_step (byte : UInt8) : (step r byte).toBitVec = serialStep r.toBitVec byte := by
  have clear : byte.toBitVec.setWidth 32 >>> 8 = 0#32 := by
    apply BitVec.eq_of_getLsbD_eq
    intro i _
    simp
  have above : (r.toBitVec ^^^ byte.toBitVec.setWidth 32) >>> 8 = r.toBitVec >>> 8 := by
    rw [BitVec.ushiftRight_xor_distrib, clear, BitVec.xor_zero]
  rw [serialStep, iterate_serialShift_eight, above, step, UInt32.toBitVec_xor, toBitVec_table]
  rfl

theorem toBitVec_foldl_step (bytes : List UInt8) :
    (bytes.foldl step r).toBitVec = bytes.foldl serialStep r.toBitVec := by
  induction bytes generalizing r with
  | nil => rfl
  | cons byte bytes ih => rw [foldl_cons, ih, toBitVec_step, foldl_cons]

/-- The checksum by table is the one bit by bit. -/
theorem toBitVec_ofBytes (bytes : List UInt8) : (ofBytes bytes).toBitVec = serialChecksum bytes := by
  rw [ofBytes, UInt32.toBitVec_not, toBitVec_foldl_step, serialChecksum]
  rfl

/-- The table gives the checksum of the bit-serial register, for all bytes and so for all names. -/
theorem ofBytes_eq_serialChecksum :
    (∀ bytes : List UInt8, (ofBytes bytes).toBitVec = serialChecksum bytes) ∧
      ∀ name : String, (ofName name).toBitVec = serialChecksum name.toUTF8.toList :=
  ⟨toBitVec_ofBytes, fun name => toBitVec_ofBytes name.toUTF8.toList⟩

/-- The id of `hp`. -/
example : serialChecksum [0x68, 0x70] = 3170402924#32 := by decide +kernel

/-! ### Bytes in a row -/

theorem serialStep_injective (byte : UInt8) : Function.Injective fun r => serialStep r byte := by
  intro r s same
  exact (BitVec.xor_left_inj _).mp (serialShift_injective.iterate 8 same)

theorem foldl_serialStep_injective (bytes : List UInt8) :
    Function.Injective fun r => bytes.foldl serialStep r := by
  induction bytes with
  | nil => exact Function.injective_id
  | cons byte bytes ih => exact ih.comp (serialStep_injective byte)

/-- Up to four bytes in one word, the first in the low byte. -/
def packed : List UInt8 → BitVec 32
  | [] => 0#32
  | byte :: bytes => byte.toBitVec.setWidth 32 ^^^ packed bytes <<< 8

theorem getLsbD_packed_cons (byte : UInt8) (bytes : List UInt8) (i : Nat) :
    (packed (byte :: bytes)).getLsbD i =
      if i < 8 then byte.toBitVec.getLsbD i else decide (i < 32) && (packed bytes).getLsbD (i - 8) := by
  by_cases low : i < 8
  · simp [packed, low, show i < 32 by omega]
  · simp [packed, low, BitVec.getLsbD_of_ge byte.toBitVec i (by omega)]

theorem getLsbD_packed (bytes : List UInt8) {i : Nat} (above : 8 * bytes.length ≤ i) :
    (packed bytes).getLsbD i = false := by
  induction bytes generalizing i with
  | nil => simp [packed]
  | cons byte bytes ih =>
    rw [length_cons] at above
    rw [getLsbD_packed_cons, if_neg (by omega), ih (by omega), Bool.and_false]

/-- Up to four bytes fit into the register side by side. -/
theorem packed_inj {v w : List UInt8} (size : v.length = w.length) (fits : v.length ≤ 4)
    (same : packed v = packed w) : v = w := by
  induction v generalizing w with
  | nil => exact (eq_nil_of_length_eq_zero size.symm).symm
  | cons b v ih =>
    obtain ⟨c, w, rfl⟩ := exists_cons_of_length_eq_add_one size.symm
    simp only [length_cons] at size fits
    have bits (i : Nat) := congrArg (BitVec.getLsbD · i) same
    simp only [getLsbD_packed_cons] at bits
    have first : b = c := by
      apply UInt8.toBitVec_inj.mp
      apply BitVec.eq_of_getLsbD_eq
      intro i hi
      simpa [hi] using bits i
    have rest : packed v = packed w := by
      apply BitVec.eq_of_getLsbD_eq
      intro i hi
      by_cases low : i < 24
      · simpa [show i + 8 < 32 by omega, show ¬ i + 8 < 8 by omega] using bits (i + 8)
      · rw [getLsbD_packed v (by omega), getLsbD_packed w (by omega)]
    rw [first, ih (by omega) (by omega) rest]

/-- Bytes that fit into the register may be added to it all at once, before any bit falls out. -/
theorem foldl_serialStep_eq {bytes : List UInt8} (fits : bytes.length ≤ 4) (r : BitVec 32) :
    bytes.foldl serialStep r = serialShift^[8 * bytes.length] (r ^^^ packed bytes) := by
  induction bytes generalizing r with
  | nil => simp [packed]
  | cons byte bytes ih =>
    rw [length_cons] at fits
    -- the later bytes are taken back through the eight bits that fall out before them
    have raised : serialShift^[8] (packed bytes <<< 8) = packed bytes :=
      iterate_serialShift_raised fun i hi => getLsbD_packed bytes (by omega)
    calc
      (byte :: bytes).foldl serialStep r
        = serialShift^[8 * bytes.length] (serialStep r byte ^^^ packed bytes) := by
          rw [foldl_cons, ih (by omega)]
      _ = serialShift^[8 * bytes.length] (serialShift^[8] (r ^^^ packed (byte :: bytes))) := by
          rw [packed, ← BitVec.xor_assoc, iterate_serialShift_xor 8, raised, serialStep]
      _ = serialShift^[8 * (byte :: bytes).length] (r ^^^ packed (byte :: bytes)) := by
          rw [← Function.iterate_add_apply]
          rfl

/-- The checksum tells up to four bytes in a row, whatever stands before and after them. -/
theorem window_inj {p v w s : List UInt8} (size : v.length = w.length) (fits : v.length ≤ 4)
    (same : ofBytes (p ++ v ++ s) = ofBytes (p ++ w ++ s)) : v = w := by
  rw [← UInt32.toBitVec_inj, toBitVec_ofBytes, toBitVec_ofBytes] at same
  simp only [serialChecksum, foldl_append, BitVec.not_inj] at same
  have windows := foldl_serialStep_injective s same
  have fits' : w.length ≤ 4 := size ▸ fits
  simp only [foldl_serialStep_eq fits, foldl_serialStep_eq fits', ← size] at windows
  exact packed_inj size fits ((BitVec.xor_right_inj _).mp (serialShift_injective.iterate _ windows))

/-- Bytes with the same checksum that agree outside of four places in a row agree everywhere. -/
theorem ofBytes_inj_of_agree {as bs : List UInt8} {k : Nat} (size : as.length = bs.length)
    (agree : ∀ i, i < k ∨ k + 4 ≤ i → as[i]? = bs[i]?) (same : ofBytes as = ofBytes bs) : as = bs := by
  have front : as.take k = bs.take k := by
    apply ext_getElem?
    intro i
    by_cases hi : i < k
    · rw [getElem?_take_of_lt hi, getElem?_take_of_lt hi, agree i (.inl hi)]
    · rw [getElem?_take_eq_none (by omega), getElem?_take_eq_none (by omega)]
  have back : as.drop (k + 4) = bs.drop (k + 4) := by
    apply ext_getElem?
    intro i
    simpa using agree (k + 4 + i) (.inr (by omega))
  have parts (l : List UInt8) : l = l.take k ++ (l.drop k).take 4 ++ l.drop (k + 4) := by
    rw [← drop_drop, List.append_assoc, take_append_drop, take_append_drop]
  rw [parts as, parts bs, front, back] at same
  have window : (as.drop k).take 4 = (bs.drop k).take 4 :=
    window_inj (by simp [size]) (length_take_le 4 _) same
  rw [parts as, parts bs, front, window, back]

/-! ### Bytes of names -/

theorem byteLoop_eq (bytes : ByteArray) (i : Nat) (front : List UInt8) :
    ByteArray.toList.loop bytes i front = front.reverse ++ bytes.data.toList.drop i := by
  fun_induction ByteArray.toList.loop bytes i front with
  | case1 i front inside ih =>
    have inside : i < bytes.data.toList.length := inside
    have here : bytes.get! i = bytes.data.toList[i] := getElem!_pos bytes.data i inside
    rw [ih, drop_eq_getElem_cons inside, here]
    simp
  | case2 i front outside =>
    have outside : bytes.data.toList.length ≤ i := Nat.le_of_not_lt outside
    rw [drop_eq_nil_of_le outside, List.append_nil]

theorem name_inj_of_bytes {a b : String} (same : a.toUTF8.toList = b.toUTF8.toList) : a = b := by
  have lists : a.toUTF8.data.toList = b.toUTF8.data.toList := by
    simpa [ByteArray.toList, byteLoop_eq] using same
  exact String.toByteArray_inj.mp (ByteArray.ext (Array.toList_inj.mp lists))

/-- A change within four bytes in a row changes the checksum, whatever stands before and after them. So two
names of the same size that differ only there have different ids. -/
theorem ids_differ_of_window :
    (∀ p s w w' : List UInt8, w.length = w'.length → w.length ≤ 4 → w ≠ w' →
      ofBytes (p ++ w ++ s) ≠ ofBytes (p ++ w' ++ s)) ∧
    ∀ (a b : String) (k : Nat), a ≠ b → a.toUTF8.toList.length = b.toUTF8.toList.length →
      (∀ i, i < k ∨ k + 4 ≤ i → a.toUTF8.toList[i]? = b.toUTF8.toList[i]?) → ofName a ≠ ofName b := by
  refine ⟨fun p s w w' size fits differ same => differ (window_inj size fits same), ?_⟩
  intro a b k differ size agree same
  exact differ (name_inj_of_bytes (ofBytes_inj_of_agree size agree same))

theorem ids_differ_of_window_ammo :
    ofBytes ([0x61] ++ [0x6D, 0x6D, 0x6F, 0x31] ++ [0x32]) ≠
        ofBytes ([0x61] ++ [0x72, 0x6D, 0x73, 0x31] ++ [0x32]) ∧
      ofName "ammo12" ≠ ofName "ammo21" := by
  have bytes : "ammo12".toUTF8.toList = [0x61, 0x6D, 0x6D, 0x6F, 0x31, 0x32] := by decide +kernel
  have bytes' : "ammo21".toUTF8.toList = [0x61, 0x6D, 0x6D, 0x6F, 0x32, 0x31] := by decide +kernel
  refine ⟨ids_differ_of_window.1 _ _ _ _ rfl (by decide) (by decide),
    ids_differ_of_window.2 "ammo12" "ammo21" 4 (by decide) (by rw [bytes, bytes']; rfl) ?_⟩
  intro i outside
  rw [bytes, bytes']
  rcases outside with front | back
  · obtain rfl | rfl | rfl | rfl : i = 0 ∨ i = 1 ∨ i = 2 ∨ i = 3 := by omega
    all_goals rfl
  · rw [getElem?_eq_none (by simp; omega), getElem?_eq_none (by simp; omega)]

end GoTrees.VariableId
