import Mathlib.Data.Nat.Bitwise
import ElasticIndex.Shared.BitOrder

set_option autoImplicit false

namespace ElasticIndex

open BitOrder

abbrev Bytes (len : Nat) := Vector UInt8 len

def bitMask : List UInt8 := [128, 64, 32, 16, 8, 4, 2, 1]

def isNthBitSetInByte (byte : UInt8) (n : Nat) : Bool :=
  (byte &&& bitMask.getD n 0) != 0

-- Little endian build: the last byte of the key is the most significant one.
def isNthBitSetInString {len : Nat} (key : Bytes len) (position : Nat) : Bool :=
  isNthBitSetInByte (key.toArray.getD (len - 1 - position / 8) 0) (position % 8)

-- Zero falls through to the next case once the assertion is compiled out.
def firstMsbLookUpTable (maskByte : UInt8) : Nat :=
  if maskByte ≤ 1 then 7
  else if maskByte ≤ 3 then 6
  else if maskByte ≤ 7 then 5
  else if maskByte ≤ 15 then 4
  else if maskByte ≤ 31 then 3
  else if maskByte ≤ 63 then 2
  else if maskByte ≤ 127 then 1
  else 0

structure Compare where
  eq : Bool
  bigSmall : Bool
  position : Nat
  deriving DecidableEq, Repr

def compareFrom {len : Nat} (key1 key2 : Bytes len) : Nat → Nat → Compare
  | 0, _ => { eq := true, bigSmall := false, position := 0 }
  | rest + 1, i =>
    let byte1 := key1.toArray.getD (len - i) 0
    let byte2 := key2.toArray.getD (len - i) 0
    if byte1 ^^^ byte2 != 0 then
      { eq := false, bigSmall := byte2 < byte1
        position := 8 * (i - 1) + firstMsbLookUpTable (byte1 ^^^ byte2) }
    else compareFrom key1 key2 rest (i + 1)

def compareStage {len : Nat} (key1 key2 : Bytes len) : Compare :=
  compareFrom key1 key2 len 1

theorem isNthBitSetInByte_testBit (byte : UInt8) {n : Nat} (lt : n < 8) :
    isNthBitSetInByte byte n = byte.toNat.testBit (7 - n) := by
  have table : ∀ value : Fin 256, ∀ place : Fin 8,
      isNthBitSetInByte (UInt8.ofNat value) place =
      (value : Nat).testBit (7 - place) := by decide +kernel
  have here := table ⟨byte.toNat, byte.toNat_lt⟩ ⟨n, lt⟩
  simpa using here

theorem byte_eq_of_bits {byte1 byte2 : UInt8}
    (same : ∀ n, n < 8 → isNthBitSetInByte byte1 n = isNthBitSetInByte byte2 n) :
    byte1 = byte2 := by
  apply UInt8.toNat.inj
  apply Nat.eq_of_testBit_eq
  intro i
  by_cases low : i < 8
  · have bit := same (7 - i) (by omega)
    rw [isNthBitSetInByte_testBit _ (by omega), isNthBitSetInByte_testBit _ (by omega)] at bit
    rwa [show 7 - (7 - i) = i by omega] at bit
  · have big : 2 ^ 8 ≤ 2 ^ i := Nat.pow_le_pow_right (by omega) (by omega)
    rw [Nat.testBit_lt_two_pow (lt_of_lt_of_le byte1.toNat_lt big),
      Nat.testBit_lt_two_pow (lt_of_lt_of_le byte2.toNat_lt big)]

theorem firstMsb_spec (mask : UInt8) (ne : mask ≠ 0) :
    firstMsbLookUpTable mask < 8 ∧ isNthBitSetInByte mask (firstMsbLookUpTable mask) = true ∧
      ∀ n, n < firstMsbLookUpTable mask → isNthBitSetInByte mask n = false := by
  have table : ∀ value : Fin 256, UInt8.ofNat value ≠ 0 →
      firstMsbLookUpTable (UInt8.ofNat value) < 8 ∧
        isNthBitSetInByte (UInt8.ofNat value) (firstMsbLookUpTable (UInt8.ofNat value)) = true ∧
        ∀ n, n < firstMsbLookUpTable (UInt8.ofNat value) →
          isNthBitSetInByte (UInt8.ofNat value) n = false := by decide +kernel
  have here := table ⟨mask.toNat, mask.toNat_lt⟩
  simp only [UInt8.ofNat_toNat] at here
  exact here ne

theorem isNthBitSetInByte_xor (byte1 byte2 : UInt8) {n : Nat} (lt : n < 8) :
    isNthBitSetInByte (byte1 ^^^ byte2) n =
      (isNthBitSetInByte byte1 n ^^ isNthBitSetInByte byte2 n) := by
  simp only [isNthBitSetInByte_testBit _ lt, UInt8.toNat_xor, Nat.testBit_xor]

-- The byte comparison is decided by the most significant differing bit.
theorem firstMsb_xor (byte1 byte2 : UInt8) (ne : byte1 ^^^ byte2 ≠ 0) :
    let d := firstMsbLookUpTable (byte1 ^^^ byte2)
    d < 8 ∧ (∀ n, n < d → isNthBitSetInByte byte1 n = isNthBitSetInByte byte2 n) ∧
      isNthBitSetInByte byte1 d = decide (byte2 < byte1) ∧
      isNthBitSetInByte byte2 d = !decide (byte2 < byte1) := by
  intro d
  obtain ⟨small, set, clear⟩ := firstMsb_spec _ ne
  change d < 8 at small
  have same : ∀ n, n < d → isNthBitSetInByte byte1 n = isNthBitSetInByte byte2 n := by
    intro n hn
    have zero := clear n hn
    rw [isNthBitSetInByte_xor _ _ (by omega)] at zero
    simpa using zero
  rw [isNthBitSetInByte_xor _ _ small] at set
  have order {u v : UInt8} (low : isNthBitSetInByte u d = false)
    (high : isNthBitSetInByte v d = true)
      (above : ∀ n, n < d → isNthBitSetInByte u n = isNthBitSetInByte v n) : u < v := by
    rw [isNthBitSetInByte_testBit _ small] at low high
    apply UInt8.lt_iff_toNat_lt.mpr
    apply Nat.lt_of_testBit (7 - d) low high
    intro j hj
    by_cases inside : j < 8
    · have bit := above (7 - j) (by omega)
      rw [isNthBitSetInByte_testBit _ (by omega), isNthBitSetInByte_testBit _ (by omega)] at bit
      rwa [show 7 - (7 - j) = j by omega] at bit
    · have big : 2 ^ 8 ≤ 2 ^ j := Nat.pow_le_pow_right (by omega) (by omega)
      rw [Nat.testBit_lt_two_pow (lt_of_lt_of_le u.toNat_lt big),
        Nat.testBit_lt_two_pow (lt_of_lt_of_le v.toNat_lt big)]
  refine ⟨small, same, ?_⟩
  cases first : isNthBitSetInByte byte1 d with
  | false =>
    have second : isNthBitSetInByte byte2 d = true := by simpa [first] using set
    have lt := order first second same
    have not : ¬ byte2 < byte1 := fun gt => UInt8.lt_irrefl _ (UInt8.lt_trans lt gt)
    simp [second, not]
  | true =>
    have second : isNthBitSetInByte byte2 d = false := by simpa [first] using set
    have lt := order second first fun n hn => (same n hn).symm
    simp [second, lt]

theorem bit_of_byte {len : Nat} (key : Bytes len) {i j : Nat} (low : j < 8) :
    isNthBitSetInString key (8 * i + j) = isNthBitSetInByte
      (key.toArray.getD (len - 1 - i) 0) j := by
  unfold isNthBitSetInString
  rw [show (8 * i + j) / 8 = i by omega, show (8 * i + j) % 8 = j by omega]

def keyBits (len : Nat) : BitKeys (Bytes len) where
  width := 8 * len
  bit := isNthBitSetInString
  ext := by
    intro x y same
    apply Vector.ext
    intro i hi
    have byte : x.toArray.getD (len - 1 - (len - 1 - i)) 0 =
        y.toArray.getD (len - 1 - (len - 1 - i)) 0 := by
      apply byte_eq_of_bits
      intro n hn
      rw [← bit_of_byte x hn, ← bit_of_byte y hn]
      exact same _ (by omega)
    rw [show len - 1 - (len - 1 - i) = i by omega] at byte
    simpa [Array.getD, hi] using byte

@[simp] theorem keyBits_bit {len : Nat} (key : Bytes len) (position : Nat) :
    (keyBits len).bit key position = isNthBitSetInString key position := rfl

structure Compare.Correct {len : Nat} (x y : Bytes len) (result : Compare) : Prop where
  equal : result.eq = true → x = y
  big : result.eq = false → result.bigSmall = true → (keyBits len).LessAt y x result.position
  small : result.eq = false → result.bigSmall = false → (keyBits len).LessAt x y result.position

theorem compareFrom_correct {len : Nat} (x y : Bytes len) (rest i : Nat) (size : rest + i = len + 1)
    (positive : 1 ≤ i) (agree : (keyBits len).Agree x y (8 * (i - 1))) :
    (compareFrom x y rest i).Correct x y := by
  induction rest generalizing i with
  | zero =>
    have all : (keyBits len).Agree x y (8 * len) := by simpa [show i - 1 = len by omega] using agree
    exact ⟨fun _ => (keyBits len).ext x y fun n hn => all n hn, by simp [compareFrom],
      by simp [compareFrom]⟩
  | succ rest ih =>
    have place : len - 1 - (i - 1) = len - i := by omega
    have split (n : Nat) (past : 8 * (i - 1) ≤ n) : n = 8 * (i - 1) + (n - 8 * (i - 1)) := by omega
    unfold compareFrom
    dsimp only
    generalize hu : x.toArray.getD (len - i) 0 = u
    generalize hv : y.toArray.getD (len - i) 0 = v
    have bitX {n : Nat} (lt : n < 8) : isNthBitSetInString x (8 * (i - 1) + n) =
        isNthBitSetInByte u n := by
      rw [bit_of_byte x lt, place, hu]
    have bitY {n : Nat} (lt : n < 8) : isNthBitSetInString y (8 * (i - 1) + n) =
        isNthBitSetInByte v n := by
      rw [bit_of_byte y lt, place, hv]
    by_cases differ : u ^^^ v = 0
    · rw [if_neg (by simp [differ])]
      apply ih (i + 1) (by omega) (by omega)
      obtain rfl : u = v := UInt8.xor_eq_zero_iff.mp differ
      intro n hn
      by_cases old : n < 8 * (i - 1)
      · exact agree n old
      · change isNthBitSetInString x n = isNthBitSetInString y n
        rw [split n (by omega), bitX (by omega), bitY (by omega)]
    · rw [if_pos (by simpa using differ)]
      obtain ⟨small, same, bitU, bitV⟩ := firstMsb_xor u v differ
      generalize firstMsbLookUpTable (u ^^^ v) = d at *
      have inside : 8 * (i - 1) + d < (keyBits len).width := by
        change _ < 8 * len
        omega
      have upto : (keyBits len).Agree x y (8 * (i - 1) + d) := by
        intro n hn
        by_cases old : n < 8 * (i - 1)
        · exact agree n old
        · change isNthBitSetInString x n = isNthBitSetInString y n
          rw [split n (by omega), bitX (by omega), bitY (by omega)]
          exact same _ (by omega)
      rw [← bitX small] at bitU
      rw [← bitY small] at bitV
      refine ⟨by simp, fun _ big => ?_, fun _ small => ?_⟩
      · change decide (v < u) = true at big
        rw [big] at bitU bitV
        exact ⟨inside, upto.symm, bitV, bitU⟩
      · change decide (v < u) = false at small
        rw [small] at bitU bitV
        exact ⟨inside, upto, bitU, bitV⟩

theorem compareStage_correct {len : Nat} (x y : Bytes len) : (compareStage x y).Correct x y :=
  compareFrom_correct x y len 1 (by omega) le_rfl fun i hi => absurd hi (by omega)

theorem compareStage_self {len : Nat} (x : Bytes len) : (compareStage x x).eq = true := by
  have correct := compareStage_correct x x
  cases h : (compareStage x x).eq with
  | true => rfl
  | false =>
    cases g : (compareStage x x).bigSmall with
    | true => exact absurd rfl (correct.big h g).ne
    | false => exact absurd rfl (correct.small h g).ne

theorem compareStage_eq_iff {len : Nat} (x y : Bytes len) : (compareStage x y).eq =
    true ↔ x = y := by
  constructor
  · exact (compareStage_correct x y).equal
  · rintro rfl
    exact compareStage_self x

theorem compareStage_ne {len : Nat} {x y : Bytes len} (ne : x ≠ y) :
    (compareStage x y).eq = false := by
  rw [Bool.eq_false_iff, ne_eq, compareStage_eq_iff]
  exact ne

theorem compareStage_of_less {len d : Nat} {x y : Bytes len} (less : (keyBits len).LessAt x y d) :
    compareStage x y = { eq := false, bigSmall := false, position := d } := by
  have correct := compareStage_correct x y
  have miss := compareStage_ne less.ne
  cases side : (compareStage x y).bigSmall with
  | true => exact absurd (correct.big miss side) fun more => less.asymm more
  | false =>
    have same := (correct.small miss side).unique less
    revert miss side same
    cases compareStage x y
    rintro rfl rfl rfl
    rfl

theorem compareStage_of_greater {len d : Nat} {x y : Bytes len}
    (less : (keyBits len).LessAt y x d) :
    compareStage x y = { eq := false, bigSmall := true, position := d } := by
  have correct := compareStage_correct x y
  have miss := compareStage_ne (Ne.symm less.ne)
  cases side : (compareStage x y).bigSmall with
  | true =>
    have same := (correct.big miss side).unique less
    revert miss side same
    cases compareStage x y
    rintro rfl rfl rfl
    rfl
  | false => exact absurd (correct.small miss side) fun more => less.asymm more

theorem lessAt_of_compare {len d : Nat} {x y : Bytes len}
    (result : compareStage x y = { eq := false, bigSmall := false, position := d }) :
    (keyBits len).LessAt x y d := by
  have less := (compareStage_correct x y).small (by rw [result]) (by rw [result])
  rwa [result] at less

def byteOfBits (bits : Nat → Bool) : UInt8 :=
  .ofNat ((bits 0).toNat * 128 + (bits 1).toNat * 64 + (bits 2).toNat * 32 + (bits 3).toNat * 16 +
    (bits 4).toNat * 8 +
    (bits 5).toNat * 4 + (bits 6).toNat * 2 + (bits 7).toNat)

theorem byteOfBits_bit (bits : Nat → Bool) {n : Nat} (lt : n < 8) :
    isNthBitSetInByte (byteOfBits bits) n = bits n := by
  have table : ∀ a b c d e f g h : Bool, ∀ place : Fin 8,
      isNthBitSetInByte (.ofNat (a.toNat * 128 + b.toNat * 64 + c.toNat * 32 + d.toNat * 16 +
      e.toNat * 8 + f.toNat * 4 +
        g.toNat * 2 + h.toNat)) place = [a, b, c, d, e, f, g, h].getD place false := by decide
  have here := table (bits 0) (bits 1) (bits 2) (bits 3) (bits 4) (bits 5) (bits 6) (bits 7) ⟨n, lt⟩
  rw [byteOfBits, here]
  interval_cases n <;> rfl

-- The key with given bits.
def keyOfBits (len : Nat) (bits : Nat → Bool) : Bytes len :=
  .ofFn fun i => byteOfBits fun j => bits (8 * (len - 1 - i) + j)

theorem keyOfBits_bit (len : Nat) (bits : Nat → Bool) {position : Nat}
    (inside : position < 8 * len) :
    isNthBitSetInString (keyOfBits len bits) position = bits position := by
  have index : len - 1 - position / 8 < len := by omega
  have place : 8 * (len - 1 - (len - 1 - position / 8)) + position % 8 = position := by omega
  rw [isNthBitSetInString, keyOfBits, Vector.toArray_ofFn, Array.getD_eq_getD_getElem?,
    Array.getElem?_ofFn, dif_pos index, Option.getD_some, byteOfBits_bit _ (by omega)]
  dsimp only
  rw [place]

-- The key whose first a bits are set.
def chainKey (len a : Nat) : Bytes len := keyOfBits len fun position => decide (position < a)

theorem chainKey_less {len a b : Nat} (lt : a < b) (inside : a < 8 * len) :
    (keyBits len).LessAt (chainKey len a) (chainKey len b) a := by
  refine ⟨inside, fun i hi => ?_, ?_, ?_⟩
  · have first : decide (i < a) = true := decide_eq_true hi
    have second : decide (i < b) = true := decide_eq_true (hi.trans lt)
    rw [keyBits_bit, keyBits_bit, chainKey, chainKey, keyOfBits_bit _ _ (hi.trans inside),
      keyOfBits_bit _ _ (hi.trans inside), first, second]
  · rw [keyBits_bit, chainKey, keyOfBits_bit _ _ inside]
    exact decide_eq_false (lt_irrefl a)
  · rw [keyBits_bit, chainKey, keyOfBits_bit _ _ inside]
    exact decide_eq_true lt

end ElasticIndex
