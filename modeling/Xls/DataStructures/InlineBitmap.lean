/-
# Bitmaps of 64-bit words

`InlineBitmap` of `xls/data_structures/inline_bitmap.h`: a number of bits and the words which
hold them, the least significant word first.  A bitmap is *clean* when it has exactly the
words its bits need and every bit at or above its number of bits is zero; comparisons and
hashing read whole words and rely on it.

Checks which are compiled into every build (`XLS_CHECK`) make an operation return nothing;
the bounds of an index or a word number (`XLS_DCHECK`) are left to the callers, and appear
in `Built`, the bitmaps which a sequence of operations leads to.

* `Built.clean` : the bitmaps which operations lead to are clean;
* `beq_iff_bits`, `hashState_eq_iff`, `uCmp_eq` : word-wise equality, hashing and comparison are
  those of the bits.
-/
import Xls.Lib.WordList

namespace Xls

/-- `CeilOfRatio`, of non-negative numbers. -/
def ceilOfRatio (numerator denominator : ℕ) : ℕ :=
  if numerator % denominator ≠ 0 then numerator / denominator + 1 else numerator / denominator

/-- `Mask`: the given number of low bits set. -/
def mask (bitCount : ℕ) : BitVec 64 :=
  if bitCount = 64 then BitVec.allOnes 64 else (1#64 <<< bitCount) - 1#64

/-- The bytes in the memory of a word array are those of its words, the least significant one
first. -/
def writeByte (data : List (BitVec 64)) (byteno : ℕ) (value : BitVec 8) : List (BitVec 64) :=
  data.modify (byteno / 8) fun word =>
    (word &&& ~~~(255#64 <<< (8 * (byteno % 8)))) ||| (value.setWidth 64 <<< (8 * (byteno % 8)))

/-- `std::memcpy` into the memory of a word array. -/
def copyBytes (data : List (BitVec 64)) (bytes : List (BitVec 8)) : List (BitVec 64) :=
  (bytes.zipIdx).foldl (fun data byte => writeByte data byte.2 byte.1) data

/-- `InlineBitmap`. -/
@[ext]
structure InlineBitmap where
  bitCount : ℕ
  data : List (BitVec 64)
  deriving DecidableEq

namespace InlineBitmap

def wordCount (m : InlineBitmap) : ℕ := m.data.length

def byteCount (m : InlineBitmap) : ℕ := ceilOfRatio m.bitCount 8

/-- `MaskForWord`: the valid bits of a word. -/
def maskForWord (m : InlineBitmap) (wordno : ℕ) : BitVec 64 :=
  let remainder := m.bitCount % 64
  if wordno < m.wordCount - 1 ∨ remainder = 0 then mask 64 else mask remainder

def maskLastWord (m : InlineBitmap) : InlineBitmap :=
  if m.wordCount = 0 then m
  else
    let lastWordno := m.wordCount - 1
    { m with data := m.data.modify lastWordno (· &&& m.maskForWord lastWordno) }

/-- The constructor. -/
def make (bitCount : ℕ) (fill : Bool) : InlineBitmap :=
  let result : InlineBitmap :=
    ⟨bitCount, List.replicate (ceilOfRatio bitCount 64) (if fill then -1#64 else 0#64)⟩
  if fill then result.maskLastWord else result

def fromWord (word : BitVec 64) (bitCount : ℕ) (fill : Bool) : InlineBitmap :=
  let result := make bitCount fill
  if bitCount ≠ 0 then { result with data := result.data.set 0 (word &&& result.maskForWord 0) }
  else result

def fromBytes (bitCount : ℕ) (bytes : List (BitVec 8)) : Option InlineBitmap :=
  let result := make bitCount false
  if bytes.length = ceilOfRatio bitCount 8 then
    some { result with data := copyBytes result.data bytes }.maskLastWord
  else none

/-- One bit of `FromBits`, with the position of the word and of the bit in it. -/
def pushBit (state : List (BitVec 64) × ℕ × ℕ) (value : Bool) : List (BitVec 64) × ℕ × ℕ :=
  let (data, wordno, bitIdx) := state
  let data := data.modify wordno (· ||| ((BitVec.ofBool value).setWidth 64 <<< bitIdx))
  if bitIdx + 1 ≥ 64 then (data, wordno + 1, 0) else (data, wordno, bitIdx + 1)

def fromBits (bits : List Bool) : InlineBitmap :=
  let result := make bits.length false
  { result with data := (bits.foldl pushBit (result.data, 0, 0)).1 }

/-- `operator==`. -/
def beq (m other : InlineBitmap) : Bool :=
  if m.bitCount ≠ other.bitCount then false
  else (List.range m.wordCount).all fun wordno => m.data.getD wordno 0 == other.data.getD wordno 0

def isAllZeroes (m : InlineBitmap) : Bool :=
  (List.range m.wordCount).all fun wordno => m.data.getD wordno 0 == 0#64

def get (m : InlineBitmap) (index : ℕ) : Bool :=
  ((m.data.getD (index / 64) 0) >>> (index % 64)) &&& 1#64 != 0#64

def set (m : InlineBitmap) (index : ℕ) (value : Bool) : InlineBitmap :=
  { m with data := m.data.modify (index / 64) fun word =>
      if value then word ||| (1#64 <<< (index % 64)) else word &&& ~~~(1#64 <<< (index % 64)) }

def setRange (m : InlineBitmap) (lowerIndex upperIndex : ℕ) (value : Bool) : InlineBitmap :=
  (List.range' lowerIndex (upperIndex - lowerIndex)).foldl (fun m index => m.set index value) m

def setAllBitsToFalse (m : InlineBitmap) : InlineBitmap :=
  { m with data := m.data.map fun _ => 0#64 }

/-- `GetWord`: zero for the first word of an empty bitmap. -/
def getWord (m : InlineBitmap) (wordno : ℕ) : BitVec 64 := m.data.getD wordno 0

def setWord (m : InlineBitmap) (wordno : ℕ) (value : BitVec 64) : InlineBitmap :=
  { m with data := m.data.set wordno (value &&& m.maskForWord wordno) }

def setByte (m : InlineBitmap) (byteno : ℕ) (value : BitVec 8) : InlineBitmap :=
  { m with data := writeByte m.data byteno value }.maskLastWord

def getByte (m : InlineBitmap) (byteno : ℕ) : BitVec 8 :=
  ((m.data.getD (byteno / 8) 0) >>> (8 * (byteno % 8))).setWidth 8

/-- `WriteBytesToBuffer`, into a buffer of the right size. -/
def toBytes (m : InlineBitmap) : List (BitVec 8) := (List.range m.byteCount).map m.getByte

/-- One of the first two loops of `UCmp`: the words below `wordno`, down to `bound`. -/
def anyWordSet (m : InlineBitmap) (bound : ℕ) : ℕ → Bool
  | 0 => false
  | wordno + 1 =>
    if wordno ≥ bound then
      if m.getWord wordno > 0 then true else anyWordSet m bound wordno
    else false

/-- The last loop of `UCmp`: the words below `wordno`, downwards. -/
def cmpWords (m other : InlineBitmap) : ℕ → ℤ
  | 0 => 0
  | wordno + 1 =>
    let myWord := m.getWord wordno
    let otherWord := other.getWord wordno
    if myWord > otherWord then 1 else if myWord < otherWord then -1 else cmpWords m other wordno

def uCmp (m other : InlineBitmap) : ℤ :=
  if anyWordSet m other.wordCount m.wordCount then 1
  else if anyWordSet other m.wordCount other.wordCount then -1
  else cmpWords m other (min m.wordCount other.wordCount)

/-- `Union`. -/
def union (m other : InlineBitmap) : Option InlineBitmap :=
  if m.bitCount = other.bitCount then
    some { m with data := m.data.mapIdx fun i word => word ||| other.data.getD i 0 }
  else none

/-- What `AbslHashValue` combines. -/
def hashState (m : InlineBitmap) : ℕ × List (BitVec 64) := (m.bitCount, m.data)

/-! ## Clean bitmaps -/

/-- Bit `i` of the words. -/
def bit (m : InlineBitmap) (i : ℕ) : Bool := WordList.bit m.data i

/-- The number which the words write. -/
def value (m : InlineBitmap) : ℕ := WordList.value m.data

/-- There are exactly the words which the bits need, and the unused high bits of the last word
are zero. -/
structure Clean (m : InlineBitmap) : Prop where
  length : m.data.length = ceilOfRatio m.bitCount 64
  bit : ∀ i, m.bitCount ≤ i → m.bit i = false

/-- The bitmaps which a sequence of operations leads to. -/
inductive Built : InlineBitmap → Prop
  | make (bitCount : ℕ) (fill : Bool) : Built (make bitCount fill)
  | fromWord (word : BitVec 64) (bitCount : ℕ) (fill : Bool) : Built (fromWord word bitCount fill)
  | fromBytes {bitCount : ℕ} {bytes : List (BitVec 8)} {m : InlineBitmap} :
      fromBytes bitCount bytes = some m → Built m
  | fromBits (bits : List Bool) : Built (fromBits bits)
  | set {m : InlineBitmap} {index : ℕ} (value : Bool) :
      Built m → index < m.bitCount → Built (m.set index value)
  | setRange {m : InlineBitmap} (lowerIndex : ℕ) {upperIndex : ℕ} (value : Bool) :
      Built m → upperIndex ≤ m.bitCount → Built (m.setRange lowerIndex upperIndex value)
  | setAllBitsToFalse {m : InlineBitmap} : Built m → Built m.setAllBitsToFalse
  | setWord {m : InlineBitmap} {wordno : ℕ} (value : BitVec 64) :
      Built m → wordno < m.wordCount → Built (m.setWord wordno value)
  | setByte {m : InlineBitmap} {byteno : ℕ} (value : BitVec 8) :
      Built m → byteno < m.byteCount → Built (m.setByte byteno value)
  | union {m other m' : InlineBitmap} :
      Built m → Built other → m.union other = some m' → Built m'

end InlineBitmap

/-! ## Ratios, masks and bytes -/

theorem le_ceilOfRatio (n : ℕ) : n ≤ 64 * ceilOfRatio n 64 := by
  unfold ceilOfRatio
  split <;> omega

theorem ceilOfRatio_lt (n : ℕ) : 64 * ceilOfRatio n 64 < n + 64 := by
  unfold ceilOfRatio
  split <;> omega

theorem le_ceilOfRatio_eight (n : ℕ) : n ≤ 8 * ceilOfRatio n 8 := by
  unfold ceilOfRatio
  split <;> omega

theorem ceilOfRatio_eight_lt (n : ℕ) : 8 * ceilOfRatio n 8 < n + 8 := by
  unfold ceilOfRatio
  split <;> omega

theorem toNat_mask {n : ℕ} (hn : n ≤ 64) : (mask n).toNat = 2 ^ n - 1 := by
  unfold mask
  split
  · subst n
    rfl
  · have hpow : 2 ^ n < 2 ^ 64 := Nat.pow_lt_pow_right (by norm_num) (by omega)
    have hpos := Nat.two_pow_pos n
    rw [BitVec.toNat_sub, BitVec.toNat_shiftLeft, BitVec.toNat_ofNat, Nat.shiftLeft_eq, Nat.one_mul]
    omega

theorem getLsbD_mask {n : ℕ} (hn : n ≤ 64) (i : ℕ) : (mask n).getLsbD i = decide (i < n) := by
  rw [BitVec.getLsbD, toNat_mask hn, Nat.testBit_two_pow_sub_one]

/-- Writing a byte changes the bits of that byte. -/
theorem bit_writeByte (data : List (BitVec 64)) (byteno : ℕ) (value : BitVec 8) (i : ℕ) :
    WordList.bit (writeByte data byteno value) i =
      if i / 8 = byteno ∧ byteno / 8 < data.length then value.getLsbD (i % 8)
      else WordList.bit data i := by
  rw [writeByte, WordList.bit_modify]
  by_cases hword : i / 64 = byteno / 8 ∧ byteno / 8 < data.length
  · obtain ⟨hdiv, hlt⟩ := hword
    have hi : i % 64 < 64 := Nat.mod_lt _ (by norm_num)
    have hconst : ∀ p, (255#64).getLsbD p = decide (p < 8) := fun p => by
      rw [show 255#64 = mask 8 from rfl, getLsbD_mask (by norm_num)]
    rw [if_pos ⟨hdiv, hlt⟩, ← hdiv]
    simp only [BitVec.getLsbD_or, BitVec.getLsbD_and, BitVec.getLsbD_not, BitVec.getLsbD_shiftLeft,
      hconst, hi]
    by_cases hbyte : i / 8 = byteno
    · have hlow : 8 * (byteno % 8) ≤ i % 64 := by omega
      have hoff : i % 64 - 8 * (byteno % 8) = i % 8 := by omega
      have h8 : i % 8 < 8 := Nat.mod_lt _ (by norm_num)
      have h64 : i % 8 < 64 := by omega
      rw [if_pos ⟨hbyte, hdiv ▸ hlt⟩]
      simp [hoff, h8, h64, not_lt.mpr hlow]
    · rw [if_neg fun h => hbyte h.1]
      by_cases hlow : i % 64 < 8 * (byteno % 8)
      · simp [hlow, WordList.bit]
      · have hhigh : 8 ≤ i % 64 - 8 * (byteno % 8) := by omega
        simp [not_lt.mpr hhigh, WordList.bit, BitVec.getLsbD_of_ge _ _ hhigh]
  · have hnot : ¬ (i / 8 = byteno ∧ byteno / 8 < data.length) := fun h => hword ⟨by omega, h.2⟩
    rw [if_neg hword, if_neg hnot]

@[simp] theorem length_writeByte (data : List (BitVec 64)) (byteno : ℕ) (value : BitVec 8) :
    (writeByte data byteno value).length = data.length := by
  simp [writeByte]

theorem copyBytes_from (bytes : List (BitVec 8)) : ∀ (data : List (BitVec 64)) (start : ℕ),
    ((bytes.zipIdx start).foldl (fun data byte => writeByte data byte.2 byte.1) data).length =
        data.length ∧
      ∀ i, WordList.bit
          ((bytes.zipIdx start).foldl (fun data byte => writeByte data byte.2 byte.1) data) i =
        if start ≤ i / 8 ∧ i / 8 < start + bytes.length ∧ i / 64 < data.length then
          (bytes.getD (i / 8 - start) 0).getLsbD (i % 8)
        else WordList.bit data i := by
  induction bytes with
  | nil =>
    intro data start
    refine ⟨rfl, fun i => ?_⟩
    have hnot : ¬ (start ≤ i / 8 ∧ i / 8 < start + ([] : List (BitVec 8)).length ∧
        i / 64 < data.length) := by
      rintro ⟨h₁, h₂, -⟩
      rw [List.length_nil] at h₂
      omega
    rw [if_neg hnot]
    rfl
  | cons b bytes ih =>
    intro data start
    obtain ⟨hlength, hbit⟩ := ih (writeByte data start b) (start + 1)
    rw [List.zipIdx_cons, List.foldl_cons]
    refine ⟨by rw [hlength, length_writeByte], fun i => ?_⟩
    rw [hbit, bit_writeByte, length_writeByte, List.length_cons]
    by_cases hhere : i / 8 = start
    · have hword : start / 8 = i / 64 := by omega
      have hnot : ¬ (start + 1 ≤ i / 8 ∧ i / 8 < start + 1 + bytes.length ∧
          i / 64 < data.length) := fun h => by omega
      rw [if_neg hnot, hword]
      by_cases hlt : i / 64 < data.length
      · rw [if_pos ⟨hhere, hlt⟩, if_pos ⟨by omega, by omega, hlt⟩, hhere, Nat.sub_self]
        rfl
      · rw [if_neg fun h => hlt h.2, if_neg fun h => hlt h.2.2]
    · have hnot : ¬ (i / 8 = start ∧ start / 8 < data.length) := fun h => hhere h.1
      rw [if_neg hnot]
      by_cases hin : start + 1 ≤ i / 8 ∧ i / 8 < start + 1 + bytes.length ∧ i / 64 < data.length
      · obtain ⟨h₁, h₂, h₃⟩ := hin
        have hsucc : i / 8 - start = (i / 8 - (start + 1)) + 1 := by omega
        rw [if_pos ⟨h₁, h₂, h₃⟩, if_pos ⟨by omega, by omega, h₃⟩, hsucc]
        rfl
      · rw [if_neg hin, if_neg fun h => hin ⟨by omega, by omega, h.2.2⟩]

theorem length_copyBytes (data : List (BitVec 64)) (bytes : List (BitVec 8)) :
    (copyBytes data bytes).length = data.length := (copyBytes_from bytes data 0).1

/-- Bytes which are copied keep their bits. -/
theorem bit_copyBytes (data : List (BitVec 64)) (bytes : List (BitVec 8)) (i : ℕ) :
    WordList.bit (copyBytes data bytes) i =
      if i / 8 < bytes.length ∧ i / 64 < data.length then WordList.bit bytes i
      else WordList.bit data i := by
  rw [copyBytes, (copyBytes_from bytes data 0).2]
  simp only [Nat.zero_le, Nat.zero_add, true_and]
  rfl

namespace InlineBitmap

/-! ## The bits which the operations lead to -/

variable {m other : InlineBitmap}

theorem getLsbD_maskForWord (hl : m.data.length = ceilOfRatio m.bitCount 64) {j i : ℕ}
    (hj : j < m.wordCount) (hi : i < 64) :
    (m.maskForWord j).getLsbD i = decide (64 * j + i < m.bitCount) := by
  have hle := le_ceilOfRatio m.bitCount
  have hlt := ceilOfRatio_lt m.bitCount
  have hcount : m.wordCount = m.data.length := rfl
  have hrem : m.bitCount % 64 ≤ 64 := (Nat.mod_lt _ (by norm_num)).le
  simp only [maskForWord]
  by_cases h : j < m.wordCount - 1 ∨ m.bitCount % 64 = 0
  · rw [if_pos h, getLsbD_mask le_rfl, decide_eq_decide]
    rcases h with h | h <;> omega
  · rw [if_neg h, getLsbD_mask hrem, decide_eq_decide]
    omega

@[simp] theorem maskLastWord_bitCount (m : InlineBitmap) :
    m.maskLastWord.bitCount = m.bitCount := by
  unfold maskLastWord
  split <;> rfl

@[simp] theorem maskLastWord_length (m : InlineBitmap) :
    m.maskLastWord.data.length = m.data.length := by
  unfold maskLastWord
  split <;> simp

/-- Masking the last word clears the bits which the bitmap does not have. -/
theorem bit_maskLastWord (hl : m.data.length = ceilOfRatio m.bitCount 64) (i : ℕ) :
    m.maskLastWord.bit i = (m.bit i && decide (i < m.bitCount)) := by
  have hle := le_ceilOfRatio m.bitCount
  have hlt := ceilOfRatio_lt m.bitCount
  unfold maskLastWord
  by_cases hzero : m.wordCount = 0
  · have hbit : m.bit i = false := WordList.bit_of_le (by rw [wordCount] at hzero; omega)
    rw [if_pos hzero, hbit, Bool.false_and]
  · rw [if_neg hzero]
    rw [wordCount] at hzero
    show WordList.bit (m.data.modify _ _) i = _
    rw [WordList.bit_modify]
    by_cases hword : i / 64 = m.wordCount - 1
    · have hj : m.wordCount - 1 < m.data.length := by rw [wordCount]; omega
      rw [if_pos ⟨hword, hj⟩, BitVec.getLsbD_and,
        getLsbD_maskForWord hl hj (Nat.mod_lt _ (by norm_num)), ← hword]
      congr 2
      rw [Nat.div_add_mod]
    · rw [if_neg fun h => hword h.1]
      show m.bit i = _
      by_cases hin : i < m.bitCount
      · rw [decide_eq_true hin, Bool.and_true]
      · rw [wordCount] at hword
        have hbit : m.bit i = false := WordList.bit_of_le (by omega)
        rw [hbit, Bool.false_and]

theorem clean_maskLastWord (hl : m.data.length = ceilOfRatio m.bitCount 64) :
    m.maskLastWord.Clean := by
  constructor
  · rw [maskLastWord_length, maskLastWord_bitCount, hl]
  · intro i hi
    rw [maskLastWord_bitCount] at hi
    rw [bit_maskLastWord hl, decide_eq_false (not_lt.mpr hi), Bool.and_false]

@[simp] theorem make_bitCount (n : ℕ) (fill : Bool) : (make n fill).bitCount = n := by
  cases fill
  · rfl
  · exact maskLastWord_bitCount _

theorem make_length (n : ℕ) (fill : Bool) : (make n fill).data.length = ceilOfRatio n 64 := by
  unfold make
  cases fill <;> simp

theorem bit_make (n : ℕ) (fill : Bool) (i : ℕ) : (make n fill).bit i = (fill && decide (i < n)) := by
  have hreplicate : ∀ w : BitVec 64, WordList.bit (List.replicate (ceilOfRatio n 64) w) i =
      (decide (i / 64 < ceilOfRatio n 64) && w.getLsbD (i % 64)) := by
    intro w
    by_cases h : i / 64 < ceilOfRatio n 64
    · simp [WordList.bit, h]
    · rw [WordList.bit_of_le (by simpa using h), decide_eq_false h, Bool.false_and]
  have hle := le_ceilOfRatio n
  rcases fill with _ | _
  · show WordList.bit (List.replicate _ _) i = _
    rw [hreplicate]
    simp
  · show (maskLastWord ⟨n, List.replicate _ _⟩).bit i = _
    rw [bit_maskLastWord (by simp)]
    show (WordList.bit (List.replicate _ _) i && _) = _
    rw [hreplicate]
    have hones : (-1#64).getLsbD (i % 64) = true := by
      rw [show -1#64 = BitVec.allOnes 64 from rfl, BitVec.getLsbD_allOnes]
      exact decide_eq_true (Nat.mod_lt _ (by norm_num))
    by_cases hi : i < n
    · have hword : i / 64 < ceilOfRatio n 64 := by omega
      rw [if_pos rfl, hones, decide_eq_true hword]
      rfl
    · rw [decide_eq_false hi, Bool.and_false, Bool.and_false]

theorem clean_make (n : ℕ) (fill : Bool) : (make n fill).Clean := by
  constructor
  · rw [make_length, make_bitCount]
  · intro i hi
    rw [make_bitCount] at hi
    rw [bit_make, decide_eq_false (not_lt.mpr hi), Bool.and_false]

/-- Replacing a word by a masked one. -/
theorem bit_setWord (hl : m.data.length = ceilOfRatio m.bitCount 64) {wordno : ℕ}
    (hword : wordno < m.wordCount) (v : BitVec 64) (i : ℕ) :
    (m.setWord wordno v).bit i = if i / 64 = wordno then
      (v.getLsbD (i % 64) && decide (i < m.bitCount)) else m.bit i := by
  show WordList.bit (m.data.set wordno _) i = _
  rw [List.set_eq_modify, WordList.bit_modify]
  by_cases h : i / 64 = wordno
  · rw [if_pos ⟨h, hword⟩, if_pos h, BitVec.getLsbD_and,
      getLsbD_maskForWord hl hword (Nat.mod_lt _ (by norm_num)), ← h, Nat.div_add_mod]
  · rw [if_neg fun h' => h h'.1, if_neg h]
    rfl

theorem Clean.setWord (h : m.Clean) {wordno : ℕ} (hword : wordno < m.wordCount) (v : BitVec 64) :
    (m.setWord wordno v).Clean := by
  constructor
  · rw [InlineBitmap.setWord, List.length_set]
    exact h.length
  · intro i hi
    have hi' : m.bitCount ≤ i := hi
    rw [bit_setWord h.length hword, h.bit i hi', decide_eq_false (not_lt.mpr hi'), Bool.and_false]
    split <;> rfl

@[simp] theorem fromWord_bitCount (word : BitVec 64) (n : ℕ) (fill : Bool) :
    (fromWord word n fill).bitCount = n := by
  unfold fromWord
  split <;> simp

variable {n : ℕ}

theorem fromWord_eq (word : BitVec 64) (hn : n ≠ 0) (fill : Bool) :
    fromWord word n fill = (make n fill).setWord 0 word := by
  rw [fromWord, if_pos hn]
  rfl

theorem wordCount_make_pos (hn : n ≠ 0) (fill : Bool) : 0 < (make n fill).wordCount := by
  have hle := le_ceilOfRatio n
  rw [wordCount, make_length]
  omega

theorem bit_fromWord (word : BitVec 64) (n : ℕ) (fill : Bool) (i : ℕ) :
    (fromWord word n fill).bit i =
      (decide (i < n) && if i < 64 then word.getLsbD i else fill) := by
  by_cases hn : n = 0
  · subst hn
    rw [fromWord, if_neg (by simp), bit_make]
    simp
  · have hsized : (make n fill).data.length = ceilOfRatio (make n fill).bitCount 64 := by
      rw [make_length, make_bitCount]
    rw [fromWord_eq word hn, bit_setWord hsized (wordCount_make_pos hn fill), make_bitCount,
      bit_make]
    by_cases hi : i < 64
    · rw [if_pos (Nat.div_eq_of_lt hi), if_pos hi, Nat.mod_eq_of_lt hi, Bool.and_comm]
    · rw [if_neg (by omega), if_neg hi, Bool.and_comm]

theorem clean_fromWord (word : BitVec 64) (n : ℕ) (fill : Bool) : (fromWord word n fill).Clean := by
  by_cases hn : n = 0
  · rw [fromWord, if_neg (not_not.mpr hn)]
    exact clean_make n fill
  · rw [fromWord_eq word hn]
    exact (clean_make n fill).setWord (wordCount_make_pos hn fill) word

/-- The bits of a bitmap which is read from bytes are those of the bytes. -/
theorem fromBytes_spec {bytes : List (BitVec 8)} (hb : bytes.length = ceilOfRatio n 8) :
    ∃ m, fromBytes n bytes = some m ∧ m.bitCount = n ∧ m.Clean ∧
      ∀ i, m.bit i = (WordList.bit bytes i && decide (i < n)) := by
  have hsized : (copyBytes (make n false).data bytes).length = ceilOfRatio n 64 := by
    rw [length_copyBytes, make_length]
  refine ⟨_, by simp only [fromBytes, hb]; rfl, by simp, clean_maskLastWord ?_, ?_⟩
  · simpa using hsized
  · intro i
    rw [bit_maskLastWord (by simpa using hsized), make_bitCount]
    by_cases hi : i < n
    · have h8 := le_ceilOfRatio_eight n
      have h64 := le_ceilOfRatio n
      show (WordList.bit (copyBytes _ _) i && _) = _
      rw [bit_copyBytes, make_length, if_pos ⟨by omega, by omega⟩]
    · rw [decide_eq_false hi, Bool.and_false, Bool.and_false]

theorem length_of_fromBytes {bytes : List (BitVec 8)} (h : fromBytes n bytes = some m) :
    bytes.length = ceilOfRatio n 8 := by
  by_contra hne
  simp only [fromBytes, if_neg hne] at h
  cases h

/-- The bits which `FromBits` has pushed, and where the next one goes. -/
theorem foldl_pushBit (bits : List Bool) : ∀ (data : List (BitVec 64)) (start : ℕ),
    (∀ i, start ≤ i → WordList.bit data i = false) →
    start + bits.length ≤ 64 * data.length →
    (bits.foldl pushBit (data, start / 64, start % 64)).1.length = data.length ∧
      ∀ i, WordList.bit (bits.foldl pushBit (data, start / 64, start % 64)).1 i =
        if start ≤ i then bits.getD (i - start) false else WordList.bit data i := by
  induction bits with
  | nil =>
    intro data start hclear _
    refine ⟨rfl, fun i => ?_⟩
    split
    · rename_i hi
      rw [List.foldl_nil, hclear i hi, List.getD_nil]
    · rfl
  | cons b bits ih =>
    intro data start hclear hfits
    rw [List.length_cons] at hfits
    have hnext : pushBit (data, start / 64, start % 64) b =
        (data.modify (start / 64) (· ||| ((BitVec.ofBool b).setWidth 64 <<< (start % 64))),
          (start + 1) / 64, (start + 1) % 64) := by
      unfold pushBit
      by_cases h : start % 64 + 1 ≥ 64
      · simp only [h, if_true, Prod.mk.injEq, true_and]
        omega
      · simp only [h, if_false, Prod.mk.injEq, true_and]
        omega
    set data' := data.modify (start / 64)
      (· ||| ((BitVec.ofBool b).setWidth 64 <<< (start % 64))) with hdata'
    have hlength : data'.length = data.length := by simp [hdata']
    have hbit : ∀ i, WordList.bit data' i = if i = start then b else WordList.bit data i := by
      intro i
      rw [WordList.bit_modify]
      by_cases hword : i / 64 = start / 64 ∧ start / 64 < data.length
      · obtain ⟨hdiv, hlt⟩ := hword
        have hi : i % 64 < 64 := Nat.mod_lt _ (by norm_num)
        rw [if_pos ⟨hdiv, hlt⟩, BitVec.getLsbD_or, BitVec.getLsbD_shiftLeft,
          BitVec.getLsbD_setWidth, ← hdiv]
        show (WordList.bit data i || _) = _
        by_cases heq : i = start
        · subst heq
          rw [hclear i le_rfl]
          simp [hi]
        · rw [if_neg heq]
          by_cases hlow : i % 64 < start % 64
          · simp [hlow]
          · have hoff : i % 64 - start % 64 ≠ 0 := by omega
            simp [hoff]
      · have hne : i ≠ start := by
          rintro rfl
          exact hword ⟨rfl, by omega⟩
        rw [if_neg hword, if_neg hne]
    obtain ⟨hl, hbits⟩ := ih data' (start + 1)
      (fun i hi => by rw [hbit, if_neg (by omega), hclear i (by omega)])
      (by omega)
    rw [List.foldl_cons, hnext]
    refine ⟨by rw [hl, hlength], fun i => ?_⟩
    rw [hbits, hbit]
    by_cases hi : start + 1 ≤ i
    · have hsucc : i - start = (i - (start + 1)) + 1 := by omega
      rw [if_pos hi, if_pos (by omega), hsucc, List.getD_cons_succ]
    · rw [if_neg hi]
      by_cases heq : i = start
      · subst heq
        rw [if_pos rfl, if_pos le_rfl, Nat.sub_self, List.getD_cons_zero]
      · rw [if_neg heq, if_neg (by omega)]

@[simp] theorem fromBits_bitCount (bits : List Bool) : (fromBits bits).bitCount = bits.length :=
  make_bitCount _ _

/-- The bits of a bitmap which is built bit by bit are those of the list. -/
theorem fromBits_spec (bits : List Bool) :
    (fromBits bits).Clean ∧ ∀ i, (fromBits bits).bit i = bits.getD i false := by
  have hclear : ∀ i, 0 ≤ i → WordList.bit (make bits.length false).data i = false := by
    intro i _
    exact bit_make bits.length false i
  have hfits : 0 + bits.length ≤ 64 * (make bits.length false).data.length := by
    rw [make_length, Nat.zero_add]
    exact le_ceilOfRatio _
  obtain ⟨hl, hbit⟩ := foldl_pushBit bits _ 0 hclear hfits
  have hbits : ∀ i, (fromBits bits).bit i = bits.getD i false := by
    intro i
    show WordList.bit (bits.foldl pushBit (_, 0 / 64, 0 % 64)).1 i = _
    rw [hbit, if_pos (Nat.zero_le i), Nat.sub_zero]
  refine ⟨⟨?_, fun i hi => ?_⟩, hbits⟩
  · rw [fromBits_bitCount]
    show (bits.foldl pushBit (_, 0 / 64, 0 % 64)).1.length = _
    rw [hl, make_length]
  · rw [hbits, List.getD_eq_default _ _ hi]

@[simp] theorem set_bitCount (m : InlineBitmap) (index : ℕ) (v : Bool) :
    (m.set index v).bitCount = m.bitCount := rfl

theorem bit_set (hl : m.data.length = ceilOfRatio m.bitCount 64) {index : ℕ}
    (hindex : index < m.bitCount) (v : Bool) (i : ℕ) :
    (m.set index v).bit i = if i = index then v else m.bit i := by
  have hle := le_ceilOfRatio m.bitCount
  show WordList.bit (m.data.modify _ _) i = _
  rw [WordList.bit_modify]
  by_cases hword : i / 64 = index / 64
  · have hi : i % 64 < 64 := Nat.mod_lt _ (by norm_num)
    have hone : ∀ p < 64, (1#64 <<< (index % 64)).getLsbD p = decide (p = index % 64) := by
      intro p hp
      by_cases hlow : p < index % 64
      · simp [hlow, hlow.ne]
      · have hiff : (p - index % 64 = 0) ↔ p = index % 64 := by omega
        simp [hp, hlow, hiff]
    have hiff : i % 64 = index % 64 ↔ i = index := by omega
    rw [if_pos ⟨hword, by omega⟩]
    rcases v with _ | _
    · simp only [Bool.false_eq_true, if_false]
      rw [BitVec.getLsbD_and, BitVec.getLsbD_not, hone _ hi, ← hword]
      show (WordList.bit m.data i && _) = if i = index then _ else WordList.bit m.data i
      by_cases heq : i = index
      · simp [heq]
      · simp [heq, hi, mt hiff.mp heq]
    · simp only [if_true]
      rw [BitVec.getLsbD_or, hone _ hi, ← hword]
      show (WordList.bit m.data i || _) = if i = index then _ else WordList.bit m.data i
      by_cases heq : i = index
      · simp [heq]
      · simp [heq, mt hiff.mp heq]
  · rw [if_neg fun h => hword h.1, if_neg fun h => hword (by rw [h])]
    rfl

theorem Clean.set (h : m.Clean) {index : ℕ} (hindex : index < m.bitCount) (v : Bool) :
    (m.set index v).Clean := by
  constructor
  · rw [InlineBitmap.set, List.length_modify]
    exact h.length
  · intro i hi
    have hi' : m.bitCount ≤ i := hi
    rw [bit_set h.length hindex, if_neg (by omega), h.bit i hi']

/-- Setting the bits of a list of positions. -/
theorem foldl_set {v : ℕ → Bool} (l : List ℕ) : ∀ {m : InlineBitmap}, m.Clean →
    (∀ index ∈ l, index < m.bitCount) →
    (l.foldl (fun m index => m.set index (v index)) m).bitCount = m.bitCount ∧
      (l.foldl (fun m index => m.set index (v index)) m).Clean ∧
      ∀ i, (l.foldl (fun m index => m.set index (v index)) m).bit i =
        if i ∈ l then v i else m.bit i := by
  induction l with
  | nil =>
    intro m h _
    exact ⟨rfl, h, fun i => by simp⟩
  | cons index l ih =>
    intro m h hl
    have hindex := hl index List.mem_cons_self
    obtain ⟨hcount, hclean, hbit⟩ := ih (h.set hindex (v index))
      fun j hj => hl j (List.mem_cons_of_mem _ hj)
    refine ⟨hcount, hclean, fun i => ?_⟩
    rw [List.foldl_cons, hbit, bit_set h.length hindex]
    by_cases hi : i ∈ l
    · rw [if_pos hi, if_pos (List.mem_cons_of_mem _ hi)]
    · rw [if_neg hi]
      by_cases heq : i = index
      · rw [if_pos heq, if_pos (heq ▸ List.mem_cons_self), heq]
      · rw [if_neg heq, if_neg fun h => (List.mem_cons.mp h).elim heq hi]

theorem Clean.setRange (h : m.Clean) (lower : ℕ) {upper : ℕ} (hupper : upper ≤ m.bitCount)
    (v : Bool) : (m.setRange lower upper v).Clean :=
  (foldl_set (v := fun _ => v) _ h fun index hindex => by
    rw [List.mem_range'_1] at hindex
    omega).2.1

theorem Clean.setAllBitsToFalse (h : m.Clean) : m.setAllBitsToFalse.Clean := by
  constructor
  · rw [InlineBitmap.setAllBitsToFalse, List.length_map]
    exact h.length
  · intro i _
    show WordList.bit (m.data.map fun _ => 0#64) i = false
    simp only [WordList.bit, List.getD_eq_getElem?_getD, List.getElem?_map]
    rcases m.data[i / 64]? with _ | _ <;> exact BitVec.getLsbD_zero

theorem Clean.setByte (h : m.Clean) (byteno : ℕ) (v : BitVec 8) : (m.setByte byteno v).Clean :=
  clean_maskLastWord (by rw [length_writeByte]; exact h.length)

theorem Clean.union (h : m.Clean) (h' : other.Clean) {result : InlineBitmap}
    (hunion : m.union other = some result) : result.Clean := by
  simp only [InlineBitmap.union] at hunion
  split at hunion
  · rename_i hcount
    cases hunion
    constructor
    · rw [List.length_mapIdx]
      exact h.length
    · intro i hi
      have hm := h.bit i hi
      have hother := h'.bit i (hcount ▸ hi)
      rw [InlineBitmap.bit, WordList.bit] at hm hother
      show (List.getD (m.data.mapIdx _) (i / 64) 0#64).getLsbD (i % 64) = false
      rw [List.getD_eq_getElem?_getD, List.getElem?_mapIdx]
      rw [List.getD_eq_getElem?_getD] at hm
      rcases hw : m.data[i / 64]? with _ | w
      · exact BitVec.getLsbD_zero
      · rw [hw, Option.getD_some] at hm
        rw [Option.map_some, Option.getD_some, BitVec.getLsbD_or, hm, hother, Bool.false_or]
  · cases hunion

/-! ## The invariant -/

/-- Every operation leads to a clean bitmap. -/
theorem Built.clean (h : Built m) : m.Clean := by
  induction h with
  | make n fill => exact clean_make n fill
  | fromWord word n fill => exact clean_fromWord word n fill
  | fromBytes h =>
    obtain ⟨m, hm, -, hclean, -⟩ := fromBytes_spec (length_of_fromBytes h)
    cases h.symm.trans hm
    exact hclean
  | fromBits bits => exact (fromBits_spec bits).1
  | set v _ hindex ih => exact ih.set hindex v
  | setRange lower v _ hupper ih => exact ih.setRange lower hupper v
  | setAllBitsToFalse _ ih => exact ih.setAllBitsToFalse
  | setWord v _ hword ih => exact ih.setWord hword v
  | setByte v _ _ ih => exact ih.setByte _ v
  | union _ _ h ih ih' => exact ih.union ih' h

theorem get_eq_bit (m : InlineBitmap) (i : ℕ) : m.get i = m.bit i := by
  rw [get, BitVec.and_one_eq_setWidth_ofBool_getLsbD, BitVec.getLsbD_ushiftRight]
  show _ = (m.data.getD (i / 64) 0).getLsbD (i % 64)
  cases (m.data.getD (i / 64) 0).getLsbD (i % 64) <;> rfl

/-- Clean bitmaps of one size with the same bits are equal. -/
theorem Clean.ext_of_bit (h : m.Clean) (h' : other.Clean) (hcount : m.bitCount = other.bitCount)
    (hbit : ∀ i < m.bitCount, m.bit i = other.bit i) : m = other := by
  have hl : m.data.length = other.data.length := by rw [h.length, h'.length, hcount]
  refine InlineBitmap.ext hcount (WordList.eq_of_value_eq (by norm_num) hl ?_)
  refine WordList.value_eq_of_bit (by norm_num) fun i => ?_
  rw [WordList.testBit_value (by norm_num)]
  by_cases hi : i < m.bitCount
  · exact hbit i hi
  · exact (h.bit i (not_lt.mp hi)).trans (h'.bit i (hcount ▸ not_lt.mp hi)).symm

/-! ## Equality, hashing and comparison -/

/-- Word-wise equality is the equality of the bits. -/
theorem Clean.beq_iff_bits (h : m.Clean) (h' : other.Clean) : m.beq other = true ↔
      m.bitCount = other.bitCount ∧ ∀ i < m.bitCount, m.get i = other.get i := by
  simp only [get_eq_bit]
  unfold beq
  by_cases hcount : m.bitCount = other.bitCount
  · rw [if_neg (not_not.mpr hcount), List.all_eq_true]
    constructor
    · intro hwords
      have hle := le_ceilOfRatio m.bitCount
      rw [← h.length] at hle
      refine ⟨hcount, fun i hi => ?_⟩
      have hword := beq_iff_eq.mp (hwords (i / 64) (List.mem_range.mpr (by rw [wordCount]; omega)))
      show (m.data.getD (i / 64) 0).getLsbD (i % 64) = (other.data.getD (i / 64) 0).getLsbD (i % 64)
      rw [hword]
    · rintro ⟨-, hbit⟩ j _
      rw [h.ext_of_bit h' hcount hbit]
      exact beq_self_eq_true _
  · rw [if_pos hcount]
    exact ⟨fun hf => absurd hf Bool.false_ne_true, fun hall => absurd hall.1 hcount⟩

/-- What is hashed is the same for the same bits only. -/
theorem Clean.hashState_eq_iff (h : m.Clean) (h' : other.Clean) : m.hashState = other.hashState ↔
      m.bitCount = other.bitCount ∧ ∀ i < m.bitCount, m.get i = other.get i := by
  simp only [get_eq_bit]
  constructor
  · intro heq
    obtain rfl : m = other := by
      rw [Prod.mk.injEq] at heq
      exact InlineBitmap.ext heq.1 heq.2
    exact ⟨rfl, fun _ _ => rfl⟩
  · rintro ⟨hcount, hbit⟩
    rw [h.ext_of_bit h' hcount hbit]

theorem Clean.value_lt (h : m.Clean) : m.value < 2 ^ m.bitCount :=
  WordList.value_lt_of_bit (by norm_num) h.bit

/-- Without a word set above `bound`, the words below hold the whole number; with one, the number
is larger than any which they hold. -/
theorem anyWordSet_spec (m : InlineBitmap) (bound : ℕ) : ∀ wordno ≤ m.wordCount,
    (anyWordSet m bound wordno = false → WordList.value (m.data.take wordno) =
      WordList.value (m.data.take (min wordno bound))) ∧
    (anyWordSet m bound wordno = true →
      2 ^ (64 * bound) ≤ WordList.value (m.data.take wordno)) := by
  intro wordno
  induction wordno with
  | zero => exact fun _ => ⟨fun _ => by rw [Nat.zero_min], fun h => absurd h Bool.false_ne_true⟩
  | succ wordno ih =>
    intro hle
    obtain ⟨hfalse, htrue⟩ := ih (by omega)
    have hsucc := WordList.value_take_succ (show wordno < m.data.length from hle)
    unfold anyWordSet
    by_cases hbound : wordno ≥ bound
    · rw [if_pos hbound, hsucc, Nat.min_eq_right (by omega)]
      by_cases hword : m.getWord wordno > 0
      · have hpos : 1 ≤ (m.data.getD wordno 0).toNat := hword
        rw [if_pos hword]
        refine ⟨fun h => absurd h.symm Bool.false_ne_true, fun _ => ?_⟩
        calc 2 ^ (64 * bound) ≤ 2 ^ (64 * wordno) * 1 := by
              rw [Nat.mul_one]
              exact Nat.pow_le_pow_right (by norm_num) (by omega)
          _ ≤ 2 ^ (64 * wordno) * (m.data.getD wordno 0).toNat := Nat.mul_le_mul_left _ hpos
          _ ≤ _ := Nat.le_add_left _ _
      · have hzero : (m.data.getD wordno 0).toNat = 0 :=
          Nat.eq_zero_of_not_pos fun h => hword h
        rw [if_neg hword, hzero, Nat.mul_zero]
        rw [Nat.min_eq_right hbound] at hfalse
        exact ⟨hfalse, htrue⟩
    · rw [if_neg hbound, Nat.min_eq_left (by omega)]
      exact ⟨fun _ => rfl, fun h => absurd h Bool.false_ne_true⟩

/-- Words compare like the numbers which they write. -/
theorem cmpWords_eq (m other : InlineBitmap) : ∀ n, n ≤ m.wordCount → n ≤ other.wordCount →
    cmpWords m other n = Int.sign ((WordList.value (m.data.take n) : ℤ) -
      WordList.value (other.data.take n)) := by
  intro n
  induction n with
  | zero => exact fun _ _ => rfl
  | succ n ih =>
    intro hm hother
    have hm' := WordList.value_take_succ (show n < m.data.length from hm)
    have hother' := WordList.value_take_succ (show n < other.data.length from hother)
    have hlow := WordList.value_take_lt (by norm_num) m.data n
    have hlow' := WordList.value_take_lt (by norm_num) other.data n
    rw [hm', hother']
    unfold cmpWords
    rcases lt_trichotomy (m.data.getD n 0).toNat (other.data.getD n 0).toNat with hlt | heq | hgt
    · have hless := WordList.lt_of_digit_lt (y := WordList.value (other.data.take n)) hlow hlt
      have hnot : ¬ m.getWord n > other.getWord n := fun h => lt_asymm hlt h
      simp only [if_neg hnot, if_pos (show m.getWord n < other.getWord n from hlt)]
      rw [Int.sign_eq_neg_one_of_neg]
      exact sub_neg.mpr (by exact_mod_cast hless)
    · have hnot : ¬ m.getWord n > other.getWord n := fun h => heq.not_gt h
      have hnot' : ¬ m.getWord n < other.getWord n := fun h => heq.not_lt h
      simp only [if_neg hnot, if_neg hnot']
      rw [ih (by omega) (by omega), heq]
      push_cast
      ring_nf
    · have hless := WordList.lt_of_digit_lt (y := WordList.value (m.data.take n)) hlow' hgt
      simp only [if_pos (show m.getWord n > other.getWord n from hgt)]
      rw [Int.sign_eq_one_of_pos]
      exact sub_pos.mpr (by exact_mod_cast hless)

theorem value_take_of_le (h : m.wordCount ≤ n) : WordList.value (m.data.take n) = m.value := by
  rw [List.take_of_length_le h, value]

/-- `UCmp` compares the numbers, whatever the two sizes. -/
theorem uCmp_eq (m other : InlineBitmap) :
    m.uCmp other = Int.sign ((m.value : ℤ) - other.value) := by
  obtain ⟨hfalse, htrue⟩ := anyWordSet_spec m other.wordCount m.wordCount le_rfl
  obtain ⟨hfalse', htrue'⟩ := anyWordSet_spec other m.wordCount other.wordCount le_rfl
  rw [value_take_of_le le_rfl] at hfalse htrue hfalse' htrue'
  unfold uCmp
  by_cases hset : anyWordSet m other.wordCount m.wordCount = true
  · have hless : other.value < m.value := (WordList.value_lt (by norm_num) other.data).trans_le
        (htrue hset)
    rw [if_pos hset, Int.sign_eq_one_of_pos]
    exact sub_pos.mpr (by exact_mod_cast hless)
  · by_cases hset' : anyWordSet other m.wordCount other.wordCount = true
    · have hless : m.value < other.value := (WordList.value_lt (by norm_num) m.data).trans_le
          (htrue' hset')
      rw [if_neg hset, if_pos hset', Int.sign_eq_neg_one_of_neg]
      exact sub_neg.mpr (by exact_mod_cast hless)
    · rw [if_neg hset, if_neg hset', cmpWords_eq m other _ (Nat.min_le_left _ _)
        (Nat.min_le_right _ _), ← hfalse (by simpa using hset), Nat.min_comm,
        ← hfalse' (by simpa using hset')]

end InlineBitmap
end Xls
