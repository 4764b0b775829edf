import ElasticIndex.Key

set_option autoImplicit false

namespace ElasticIndex

open BitOrder

-- IS_STRING: the first byte of the key is the most significant one.
def isNthBitSet (isString : Bool) {len : Nat} (key : Bytes len) (position : Nat) : Bool :=
  isNthBitSetInByte (key.toArray.getD (if isString then position / 8 else len - 1 - position / 8) 0)
    (position % 8)

def compareString {len : Nat} (key1 key2 : Bytes len) : Nat → Nat → Compare
  | 0, _ => { eq := true, bigSmall := false, position := 0 }
  | rest + 1, i =>
    let byte1 := key1.toArray.getD i 0
    let byte2 := key2.toArray.getD i 0
    if byte1 ^^^ byte2 != 0 then
      { eq := false, bigSmall := byte2 < byte1
        position := 8 * i + firstMsbLookUpTable (byte1 ^^^ byte2) }
    else compareString key1 key2 rest (i + 1)

def compareKeys (isString : Bool) {len : Nat} (key1 key2 : Bytes len) : Compare :=
  if isString then compareString key1 key2 len 0 else compareStage key1 key2

/-- The key types of the benchmark; a uint64_t lies in memory with its low byte first. -/
inductive KeyType where
  | uint64
  | uuid
  | string
  deriving DecidableEq, Repr

structure UUID where
  val0 : UInt64
  val1 : UInt64
  deriving DecidableEq, Repr

def UUID.less (x y : UUID) : Bool :=
  if x.val1 = y.val1 then x.val0 < y.val0 else x.val1 < y.val1

def memcmp : List UInt8 → List UInt8 → Int
  | x :: xs, y :: ys => if x = y then memcmp xs ys else if x < y then -1 else 1
  | _, _ => 0

def littleEndian (len n : Nat) : Bytes len := .ofFn fun i => .ofNat (n / 256 ^ (i : Nat))

namespace KeyType

def len : KeyType → Nat
  | uint64 => 8
  | uuid => 16
  | string => 128

def Value : KeyType → Type
  | uint64 => UInt64
  | uuid => UUID
  | string => Bytes 128

def bytes : (type : KeyType) → type.Value → Bytes type.len
  | uint64, x => littleEndian 8 x.toNat
  | uuid, x => littleEndian 8 x.val0.toNat ++ littleEndian 8 x.val1.toNat
  | string, x => x

def less : (type : KeyType) → type.Value → type.Value → Bool
  | uint64, x, y => decide (x.toNat < y.toNat)
  | uuid, x, y => x.less y
  | string, x, y => decide (memcmp x.toList y.toList < 0)

end KeyType

/-- What CompareStage says about two keys, in terms of the bit test of the same build. -/
structure CompareBits (isString : Bool) {len : Nat} (key1 key2 : Bytes len) : Prop where
  eq : (compareKeys isString key1 key2).eq = true ↔ key1 = key2
  inside : key1 ≠ key2 → (compareKeys isString key1 key2).position < 8 * len
  agree : key1 ≠ key2 → ∀ i, i < (compareKeys isString key1 key2).position →
    isNthBitSet isString key1 i = isNthBitSet isString key2 i
  differ : key1 ≠ key2 → isNthBitSet isString key1 (compareKeys isString key1 key2).position ≠
    isNthBitSet isString key2 (compareKeys isString key1 key2).position
  big : key1 ≠ key2 → ((compareKeys isString key1 key2).bigSmall = true ↔
    isNthBitSet isString key1 (compareKeys isString key1 key2).position = true)

-- The order of CompareStage on the bytes of a type is the type's own operator<.
def Orders (isString : Bool) (type : KeyType) : Prop :=
  ∀ x y : type.Value, (!(compareKeys isString (type.bytes x) (type.bytes y)).eq &&
    !(compareKeys isString (type.bytes x) (type.bytes y)).bigSmall) = type.less x y

theorem isNthBitSet_default {len : Nat} (key : Bytes len) (position : Nat) :
    isNthBitSet false key position = isNthBitSetInString key position := by
  simp [isNthBitSet, isNthBitSetInString]

theorem reverse_byte {len : Nat} (key : Bytes len) {i : Nat} (inside : i < len) :
    key.reverse.toArray.getD (len - 1 - i) 0 = key.toArray.getD i 0 := by
  have back : len - 1 - (len - 1 - i) = i := by omega
  have fits : len - 1 - i < len := by omega
  simp [Array.getD, inside, fits, back]

theorem isNthBitSet_string {len : Nat} (key : Bytes len) {position : Nat}
    (inside : position < 8 * len) :
    isNthBitSet true key position = isNthBitSetInString key.reverse position := by
  rw [isNthBitSetInString, reverse_byte key (by omega)]
  simp [isNthBitSet]

theorem compareString_reverse {len : Nat} (key1 key2 : Bytes len) (rest i : Nat)
    (bound : i + rest = len) :
    compareString key1 key2 rest i = compareFrom key1.reverse key2.reverse rest (i + 1) := by
  induction rest generalizing i with
  | zero => rfl
  | succ rest ih =>
    have place : len - (i + 1) = len - 1 - i := by omega
    rw [compareString, compareFrom, place, reverse_byte key1 (by omega),
      reverse_byte key2 (by omega), ih (i + 1) (by omega)]
    simp

theorem compareKeys_string {len : Nat} (key1 key2 : Bytes len) :
    compareKeys true key1 key2 = compareStage key1.reverse key2.reverse := by
  rw [compareKeys, if_pos rfl, compareString_reverse key1 key2 len 0 (by omega)]
  rfl

-- The result of CompareStage on two different keys, whichever of them is the smaller one.
theorem compareStage_first {len : Nat} {x y : Bytes len} (ne : x ≠ y) :
    (compareStage x y).position < 8 * len ∧
      (∀ i, i < (compareStage x y).position → isNthBitSetInString x i = isNthBitSetInString y i) ∧
      isNthBitSetInString x (compareStage x y).position = (compareStage x y).bigSmall ∧
      isNthBitSetInString y (compareStage x y).position = !(compareStage x y).bigSmall := by
  have correct := compareStage_correct x y
  have miss := compareStage_ne ne
  cases side : (compareStage x y).bigSmall with
  | true =>
    have less := correct.big miss side
    exact ⟨less.inside, fun i hi => (less.agree i hi).symm, less.high, less.low⟩
  | false =>
    have less := correct.small miss side
    exact ⟨less.inside, less.agree, less.low, less.high⟩

theorem compareBits_default {len : Nat} (key1 key2 : Bytes len) : CompareBits false key1 key2 := by
  have build : compareKeys false key1 key2 = compareStage key1 key2 := rfl
  constructor
  case eq => exact build ▸ compareStage_eq_iff key1 key2
  all_goals
    intro ne
    obtain ⟨inside, agree, first, second⟩ := compareStage_first ne
    simp only [build, isNthBitSet_default]
  case inside => exact inside
  case agree => exact agree
  case differ => simp [first, second]
  case big => rw [first]

theorem compareBits_string {len : Nat} (key1 key2 : Bytes len) : CompareBits true key1 key2 := by
  have build := compareKeys_string key1 key2
  have back : key1.reverse = key2.reverse ↔ key1 = key2 := Vector.reverse_inj
  constructor
  case eq => rw [build, compareStage_eq_iff, back]
  all_goals
    intro ne
    obtain ⟨inside, agree, first, second⟩ := compareStage_first (mt back.mp ne)
    rw [build]
  case inside => exact inside
  case agree =>
    intro i hi
    rw [isNthBitSet_string key1 (hi.trans inside), isNthBitSet_string key2 (hi.trans inside)]
    exact agree i hi
  case differ => simp [isNthBitSet_string _ inside, first, second]
  case big => rw [isNthBitSet_string key1 inside, first]

theorem littleEndian_byte (len n : Nat) {i : Nat} (inside : i < len) :
    (littleEndian len n).toArray.getD i 0 = .ofNat (n / 256 ^ i) := by
  simp [littleEndian, Array.getD_eq_getD_getElem?, inside]

theorem littleEndian_bit (len n : Nat) {position : Nat} (inside : position < 8 * len) :
    isNthBitSetInString (littleEndian len n) position = n.testBit (8 * len - 1 - position) := by
  have place : 8 * (len - 1 - position / 8) + (7 - position % 8) =
    8 * len - 1 - position := by omega
  have byte : (256 : Nat) ^ (len - 1 - position / 8) = 2 ^ (8 * (len - 1 - position / 8)) := by
    rw [pow_mul]
    norm_num
  rw [isNthBitSetInString, littleEndian_byte len n (by omega),
    isNthBitSetInByte_testBit _ (by omega), UInt8.toNat_ofNat', byte, Nat.testBit_mod_two_pow,
    Nat.testBit_div_two_pow, ← place, Nat.add_comm (7 - position % 8)]
  have inByte : 7 - position % 8 < 8 := by omega
  simp [inByte]

theorem littleEndian_less {len n m : Nat} (fits : m < 2 ^ (8 * len)) {d : Nat}
    (less : (keyBits len).LessAt (littleEndian len n) (littleEndian len m) d)
    (small : n < 2 ^ (8 * len)) : n < m := by
  have inside : d < 8 * len := less.inside
  have low := less.low
  have high := less.high
  rw [keyBits_bit, littleEndian_bit _ _ inside] at low high
  apply Nat.lt_of_testBit (8 * len - 1 - d) low high
  intro j hj
  by_cases top : j < 8 * len
  · have same := less.agree (8 * len - 1 - j) (by omega)
    rw [keyBits_bit, keyBits_bit, littleEndian_bit _ _ (by omega),
      littleEndian_bit _ _ (by omega)] at same
    rwa [show 8 * len - 1 - (8 * len - 1 - j) = j by omega] at same
  · have big : 2 ^ (8 * len) ≤ 2 ^ j := Nat.pow_le_pow_right (by omega) (by omega)
    rw [Nat.testBit_lt_two_pow (small.trans_le big), Nat.testBit_lt_two_pow (fits.trans_le big)]

-- Numbers with their low byte first are in the order of CompareStage.
theorem compareStage_littleEndian {len n m : Nat} (first : n < 2 ^ (8 * len))
    (second : m < 2 ^ (8 * len)) :
    (!(compareStage (littleEndian len n) (littleEndian len m)).eq &&
      !(compareStage (littleEndian len n) (littleEndian len m)).bigSmall) = decide (n < m) := by
  have correct := compareStage_correct (littleEndian len n) (littleEndian len m)
  cases hit : (compareStage (littleEndian len n) (littleEndian len m)).eq with
  | true =>
    have same := correct.equal hit
    have equal : ¬ n < m := by
      intro lt
      have value : n = m := by
        apply Nat.eq_of_testBit_eq
        intro j
        by_cases top : j < 8 * len
        · have left := littleEndian_bit len n (show 8 * len - 1 - j < 8 * len by omega)
          have right := littleEndian_bit len m (show 8 * len - 1 - j < 8 * len by omega)
          rw [show 8 * len - 1 - (8 * len - 1 - j) = j by omega] at left right
          rw [← left, ← right, same]
        · have big : 2 ^ (8 * len) ≤ 2 ^ j := Nat.pow_le_pow_right (by omega) (by omega)
          rw [Nat.testBit_lt_two_pow (first.trans_le big),
            Nat.testBit_lt_two_pow (second.trans_le big)]
      omega
    simp [equal]
  | false =>
    cases side : (compareStage (littleEndian len n) (littleEndian len m)).bigSmall with
    | true =>
      have above := littleEndian_less first (correct.big hit side) second
      simp [above.le]
    | false =>
      have below := littleEndian_less second (correct.small hit side) first
      simp [below]

theorem littleEndian_append {low : Nat} (high : Nat) (fits : low < 2 ^ 64) :
    littleEndian 8 low ++ littleEndian 8 high = littleEndian (8 + 8) (low + 2 ^ 64 * high) := by
  apply Vector.ext
  intro i hi
  apply UInt8.toNat.inj
  by_cases half : i < 8
  · rw [Vector.getElem_append_left half]
    simp only [littleEndian, Vector.getElem_ofFn, UInt8.toNat_ofNat']
    interval_cases i <;> omega
  · rw [Vector.getElem_append_right hi (by omega)]
    simp only [littleEndian, Vector.getElem_ofFn, UInt8.toNat_ofNat']
    interval_cases i <;> omega

theorem orders_uint64 : Orders false .uint64 := by
  intro x y
  exact compareStage_littleEndian x.toNat_lt y.toNat_lt

theorem orders_uuid : Orders false .uuid := by
  intro (x : UUID) (y : UUID)
  have first := x.val0.toNat_lt
  have second := x.val1.toNat_lt
  have third := y.val0.toNat_lt
  have fourth := y.val1.toNat_lt
  have order : (!(compareStage (littleEndian (8 + 8) (x.val0.toNat + 2 ^ 64 * x.val1.toNat))
      (littleEndian (8 + 8) (y.val0.toNat + 2 ^ 64 * y.val1.toNat))).eq &&
      !(compareStage (littleEndian (8 + 8) (x.val0.toNat + 2 ^ 64 * x.val1.toNat))
      (littleEndian (8 + 8) (y.val0.toNat + 2 ^ 64 * y.val1.toNat))).bigSmall) = _ :=
    compareStage_littleEndian (by omega) (by omega)
  rw [← littleEndian_append _ first, ← littleEndian_append _ third] at order
  refine order.trans ?_
  change _ = UUID.less x y
  rw [UUID.less]
  split
  case isTrue same =>
    rw [same]
    simp [UInt64.lt_iff_toNat_lt]
  case isFalse other =>
    have value : x.val1.toNat ≠ y.val1.toNat := fun same => other (UInt64.toNat.inj same)
    simp only [UInt64.lt_iff_toNat_lt, decide_eq_decide]
    omega

/-- The eight bytes from i on as a number, the low byte first. -/
def word {len : Nat} (key : Bytes len) (i : Nat) : Nat :=
  (List.range 8).foldr (fun j n => (key.toArray.getD (i + j) 0).toNat + 256 * n) 0

/-- The two integers of a key in memory. -/
def UUID.ofBytes (key : Bytes 16) : UUID :=
  { val0 := .ofNat (word key 0), val1 := .ofNat (word key 8) }

def UUID.number (x : UUID) : Nat := x.val0.toNat + 2 ^ 64 * x.val1.toNat

theorem word_lt {len : Nat} (key : Bytes len) (i : Nat) : word key i < 2 ^ 64 := by
  have byte (j : Nat) := (key.toArray.getD j 0).toNat_lt
  have low := And.intro (byte (i + 0))
    (And.intro (byte (i + 1)) (And.intro (byte (i + 2)) (byte (i + 3))))
  have high := And.intro (byte (i + 4))
    (And.intro (byte (i + 5)) (And.intro (byte (i + 6)) (byte (i + 7))))
  simp only [word, List.range, List.range.loop, List.foldr_cons, List.foldr_nil]
  omega

theorem word_byte {len : Nat} (key : Bytes len) (i : Nat) {j : Nat} (inside : j < 8) :
    word key i / 256 ^ j % 256 = (key.toArray.getD (i + j) 0).toNat := by
  have byte (j : Nat) := (key.toArray.getD j 0).toNat_lt
  have low := And.intro (byte (i + 0))
    (And.intro (byte (i + 1)) (And.intro (byte (i + 2)) (byte (i + 3))))
  have high := And.intro (byte (i + 4))
    (And.intro (byte (i + 5)) (And.intro (byte (i + 6)) (byte (i + 7))))
  simp only [word, List.range, List.range.loop, List.foldr_cons, List.foldr_nil]
  interval_cases j <;> omega

theorem littleEndian_word {len : Nat} (key : Bytes len) (i : Nat) {j : Nat} (inside : j < 8) :
    (littleEndian 8 (UInt64.ofNat (word key i)).toNat)[j] = key.toArray.getD (i + j) 0 := by
  apply UInt8.toNat.inj
  rw [littleEndian, Vector.getElem_ofFn, UInt8.toNat_ofNat', UInt64.toNat_ofNat',
    Nat.mod_eq_of_lt (word_lt key i)]
  exact word_byte key i inside

-- Reading the bytes of a UUID gives them back.
theorem littleEndian_ofBytes (key : Bytes (8 + 8)) :
    littleEndian 8 (UUID.ofBytes key).val0.toNat ++ littleEndian 8 (UUID.ofBytes key).val1.toNat =
      key := by
  apply Vector.ext
  intro i hi
  by_cases half : i < 8
  · rw [Vector.getElem_append_left half, UUID.ofBytes, littleEndian_word key 0 half]
    simp [Array.getD_eq_getD_getElem?, hi]
  · rw [Vector.getElem_append_right hi (by omega), UUID.ofBytes,
      littleEndian_word key 8 (by omega), show 8 + (i - 8) = i by omega]
    simp [Array.getD_eq_getD_getElem?, hi]

theorem littleEndian_number (key : Bytes 16) : littleEndian 16 (UUID.ofBytes key).number = key :=
  (littleEndian_append _ (UInt64.toNat_lt _)).symm.trans (littleEndian_ofBytes key)

theorem UUID.number_lt (x : UUID) : x.number < 2 ^ (8 * 16) := by
  have first := x.val0.toNat_lt
  have second := x.val1.toNat_lt
  rw [UUID.number]
  omega

-- The order of CompareStage on keys in memory is the one of the numbers they stand for.
theorem number_lt_number {x y : Bytes 16} (less : (keyBits 16).Less x y) :
    (UUID.ofBytes x).number < (UUID.ofBytes y).number := by
  obtain ⟨d, less⟩ := less
  rw [← littleEndian_number x, ← littleEndian_number y] at less
  exact littleEndian_less (UUID.number_lt _) less (UUID.number_lt _)

theorem toList_drop {len : Nat} (key : Bytes len) {i : Nat} (inside : i < len) :
    key.toList.drop i = key.toArray.getD i 0 :: key.toList.drop (i + 1) := by
  rw [List.drop_eq_getElem_cons (by simpa using inside)]
  simp [Array.getD, inside]

-- Both walk over the bytes from the first one on and stop at the first difference.
theorem compareString_memcmp {len : Nat} (key1 key2 : Bytes len) (rest i : Nat)
    (bound : i + rest = len) :
    (!(compareString key1 key2 rest i).eq && !(compareString key1 key2 rest i).bigSmall) =
      decide (memcmp (key1.toList.drop i) (key2.toList.drop i) < 0) := by
  induction rest generalizing i with
  | zero =>
    have past {key : Bytes len} : key.toList.drop i = [] := List.drop_eq_nil_of_le (by simp; omega)
    rw [past, past]
    rfl
  | succ rest ih =>
    rw [toList_drop key1 (by omega), toList_drop key2 (by omega), compareString, memcmp]
    generalize key1.toArray.getD i 0 = byte1
    generalize key2.toArray.getD i 0 = byte2
    by_cases same : byte1 = byte2
    · subst same
      simpa using ih (i + 1) (by omega)
    · have differ : byte1 ^^^ byte2 ≠ 0 := mt UInt8.xor_eq_zero_iff.mp same
      by_cases lt : byte1 < byte2
      · have not : ¬ byte2 < byte1 := UInt8.not_lt.mpr (UInt8.le_of_lt lt)
        simp [differ, same, lt, not]
      · have gt : byte2 < byte1 := UInt8.lt_of_le_of_ne (UInt8.not_lt.mp lt) (Ne.symm same)
        simp [differ, same, lt, gt]

theorem orders_string : Orders true .string := by
  intro (x : Bytes 128) (y : Bytes 128)
  have order := compareString_memcmp x y 128 0 (by omega)
  rw [List.drop_zero, List.drop_zero] at order
  exact order

-- 1 and 256: the byte that differs first in memory is the less significant one.
theorem not_orders_uint64 : ¬ Orders true .uint64 := by
  intro order
  have wrong := order (1 : UInt64) (256 : UInt64)
  revert wrong
  decide

theorem not_orders_uuid : ¬ Orders true .uuid := by
  intro order
  have wrong := order (⟨1, 0⟩ : UUID) (⟨256, 0⟩ : UUID)
  revert wrong
  decide

-- The first string has the smaller first byte and the larger last one.
def stringEnds (first last : UInt8) : Bytes 128 :=
  .ofFn fun i => if i = 0 then first else if i = 127 then last else 97

theorem not_orders_string : ¬ Orders false .string := by
  intro order
  have wrong := order (stringEnds 97 98) (stringEnds 98 97)
  revert wrong
  decide +kernel

-- The first difference is the same notion in both builds, but only one byte order fits a type: the
-- build without IS_STRING orders the integers and the pairs of integers, the one with it the
-- strings.
theorem compareKeys_fits (isString : Bool) :
    (∀ (len : Nat) (key1 key2 : Bytes len), CompareBits isString key1 key2) ∧
      ∀ type : KeyType, Orders isString type ↔ (isString = true ↔ type = .string) := by
  constructor
  · intro len key1 key2
    cases isString with
    | false => exact compareBits_default key1 key2
    | true => exact compareBits_string key1 key2
  · intro type
    cases isString with
    | false =>
      cases type with
      | uint64 => simpa using orders_uint64
      | uuid => simpa using orders_uuid
      | string => simpa using not_orders_string
    | true =>
      cases type with
      | uint64 => simpa using not_orders_uint64
      | uuid => simpa using not_orders_uuid
      | string => simpa using orders_string

-- No build orders all three types: two strings are the other way round without IS_STRING, two
-- integers with it.
theorem compareKeys_noBuild :
    (¬ (!(compareKeys false (stringEnds 97 98) (stringEnds 98 97)).eq &&
        !(compareKeys false (stringEnds 97 98) (stringEnds 98 97)).bigSmall) =
          KeyType.less .string (stringEnds 97 98) (stringEnds 98 97)) ∧
      ¬ (!(compareKeys true (littleEndian 8 1) (littleEndian 8 256)).eq &&
        !(compareKeys true (littleEndian 8 1) (littleEndian 8 256)).bigSmall) =
          KeyType.less .uint64 (1 : UInt64) (256 : UInt64) := by
  constructor
  · decide +kernel
  · decide +kernel

end ElasticIndex
