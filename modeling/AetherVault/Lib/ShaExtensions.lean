import AetherVault.Lib.SecureHash
import Mathlib.Data.List.GetD
import Mathlib.Tactic.IntervalCases

/-! The 128-bit registers of x86 and the intrinsics of SSE2, SSSE3, SSE4.1 and the SHA extensions, as
Intel documents them, on a little-endian machine. A register is read in parts of a width, from the
lowest bit on: bytes, half words, words. -/
namespace AetherVault.Lib.ShaExtensions
open SecureHash

abbrev m128i := BitVec 128

def part (w : Nat) (x : m128i) (i : Nat) : BitVec w := x.extractLsb' (w * i) w

def of_parts (w : Nat) (f : Nat → BitVec w) : m128i :=
  (BitVec.iunfoldr (fun k _ => ((),(f (k / w)).getLsbD (k % w))) ()).2

def of_words (x3 x2 x1 x0 : Word) : m128i := of_parts 32 fun i => [x0,x1,x2,x3].getD i 0

/-! Memory is bytes; a word lies in it with its lowest byte first. -/

def memory (words : List Word) : List UInt8 :=
  words.flatMap fun w => (List.range 4).map fun i => UInt8.ofBitVec (w.extractLsb' (8 * i) 8)

def _mm_loadu_si128 (p : List UInt8) : m128i := of_parts 8 fun i => (p.getD i 0).toBitVec

/-- The words that a store leaves in memory. -/
def _mm_storeu_si128 (a : m128i) : List Word := [part 32 a 0,part 32 a 1,part 32 a 2,part 32 a 3]

def _mm_set_epi64x (e1 e0 : BitVec 64) : m128i := e1 ++ e0

def _mm_add_epi32 (a b : m128i) : m128i := of_parts 32 fun i => part 32 a i + part 32 b i

def _mm_shuffle_epi32 (a : m128i) (imm8 : Nat) : m128i := of_parts 32 fun i => part 32 a (imm8 / 4^i % 4)

def _mm_shuffle_epi8 (a b : m128i) : m128i := of_parts 8 fun i =>
  if (part 8 b i).msb then 0 else part 8 a ((part 8 b i).toNat % 16)

def _mm_alignr_epi8 (a b : m128i) (imm8 : Nat) : m128i := ((a ++ b) >>> (imm8 * 8)).setWidth 128

def _mm_blend_epi16 (a b : m128i) (imm8 : Nat) : m128i := of_parts 16 fun i =>
  if imm8.testBit i then part 16 b i else part 16 a i

/-- One of the two rounds, the word and the constant already added. -/
def sha256_round (v : Work) (wk : Word) : Work where
  a := Ch v.e v.f v.g + Sigma1 v.e + wk + v.h + Maj v.a v.b v.c + Sigma0 v.a
  b := v.a
  c := v.b
  d := v.c
  e := Ch v.e v.f v.g + Sigma1 v.e + wk + v.h + v.d
  f := v.e
  g := v.f
  h := v.g

def _mm_sha256rnds2_epu32 (a b k : m128i) : m128i :=
  let v : Work := ⟨part 32 b 3,part 32 b 2,part 32 a 3,part 32 a 2,part 32 b 1,part 32 b 0,part 32 a 1,part 32 a 0⟩
  let v := sha256_round (sha256_round v (part 32 k 0)) (part 32 k 1)
  of_words v.a v.b v.e v.f

def _mm_sha256msg1_epu32 (a b : m128i) : m128i :=
  let W4 := part 32 b 0
  let W3 := part 32 a 3
  let W2 := part 32 a 2
  let W1 := part 32 a 1
  let W0 := part 32 a 0
  of_words (W3 + sigma0 W4) (W2 + sigma0 W3) (W1 + sigma0 W2) (W0 + sigma0 W1)

def _mm_sha256msg2_epu32 (a b : m128i) : m128i :=
  let W14 := part 32 b 2
  let W15 := part 32 b 3
  let W16 := part 32 a 0 + sigma1 W14
  let W17 := part 32 a 1 + sigma1 W15
  let W18 := part 32 a 2 + sigma1 W16
  let W19 := part 32 a 3 + sigma1 W17
  of_words W19 W18 W17 W16

/-! Registers are equal when their words are. -/

theorem getLsbD_of_parts {w k : Nat} (f : Nat → BitVec w) (inside : k < 128) :
    (of_parts w f).getLsbD k = (f (k / w)).getLsbD (k % w) :=
  BitVec.iunfoldr_getLsbD (fun _ => ()) ⟨k,inside⟩ fun _ => rfl

theorem part_of_parts {w i : Nat} (f : Nat → BitVec w) (inside : w * (i + 1) ≤ 128) : part w (of_parts w f) i = f i := by
  ext k bound
  rw [Nat.mul_add,Nat.mul_one] at inside
  rw [← BitVec.getLsbD_eq_getElem,← BitVec.getLsbD_eq_getElem,part,BitVec.getLsbD_extractLsb',getLsbD_of_parts f (by omega)]
  rw [Nat.mul_add_div (by omega),Nat.mul_add_mod,Nat.div_eq_of_lt bound,Nat.mod_eq_of_lt bound]
  simp [bound]

theorem getLsbD_part {w i k : Nat} (x : m128i) (inside : k < w) : (part w x i).getLsbD k = x.getLsbD (w * i + k) := by
  rw [part,BitVec.getLsbD_extractLsb']
  simp [inside]

theorem eq_of_words {x y : m128i} (same : ∀ i < 4, part 32 x i = part 32 y i) : x = y := by
  ext k bound
  have here := congrArg (BitVec.getLsbD · (k % 32)) (same (k / 32) (by omega))
  simp only [getLsbD_part _ (Nat.mod_lt k (show 0 < 32 by omega)),Nat.div_add_mod] at here
  rwa [BitVec.getLsbD_eq_getElem bound,BitVec.getLsbD_eq_getElem bound] at here

@[simp] theorem word_of_words_zero (x3 x2 x1 x0 : Word) : part 32 (of_words x3 x2 x1 x0) 0 = x0 := part_of_parts _ (by omega)
@[simp] theorem word_of_words_one (x3 x2 x1 x0 : Word) : part 32 (of_words x3 x2 x1 x0) 1 = x1 := part_of_parts _ (by omega)
@[simp] theorem word_of_words_two (x3 x2 x1 x0 : Word) : part 32 (of_words x3 x2 x1 x0) 2 = x2 := part_of_parts _ (by omega)
@[simp] theorem word_of_words_three (x3 x2 x1 x0 : Word) : part 32 (of_words x3 x2 x1 x0) 3 = x3 := part_of_parts _ (by omega)

theorem of_words_eq (x : m128i) : of_words (part 32 x 3) (part 32 x 2) (part 32 x 1) (part 32 x 0) = x := by
  refine eq_of_words fun i inside => ?_
  interval_cases i <;> simp

theorem words_ext {x : m128i} {x3 x2 x1 x0 : Word} (three : part 32 x 3 = x3) (two : part 32 x 2 = x2)
    (one : part 32 x 1 = x1) (zero : part 32 x 0 = x0) : x = of_words x3 x2 x1 x0 := by
  rw [← of_words_eq x,three,two,one,zero]

/-- A word is its four bytes, the first one the lowest. -/
theorem word_bytes (x : m128i) (i : Nat) :
    part 32 x i = part 8 x (4 * i + 3) ++ part 8 x (4 * i + 2) ++ part 8 x (4 * i + 1) ++ part 8 x (4 * i) := by
  ext k bound
  rw [← BitVec.getLsbD_eq_getElem,← BitVec.getLsbD_eq_getElem,getLsbD_part _ bound]
  simp only [BitVec.getLsbD_append]
  by_cases first : k < 8
  · rw [if_pos first,getLsbD_part _ first]
    congr 1
    omega
  rw [if_neg first]
  by_cases second : k - 8 < 8
  · rw [if_pos second,getLsbD_part _ second]
    congr 1
    omega
  rw [if_neg second]
  by_cases third : k - 8 - 8 < 8
  · rw [if_pos third,getLsbD_part _ third]
    congr 1
    omega
  · rw [if_neg third,getLsbD_part _ (by omega)]
    congr 1
    omega

/-! What each instruction does to words. -/

theorem memory_getD (words : List Word) (i : Nat) {j : Nat} (inside : j < 4) :
    (memory words).getD (4 * i + j) 0 = UInt8.ofBitVec ((words.getD i 0).extractLsb' (8 * j) 8) := by
  induction words generalizing i with
  | nil => simp [memory]
  | cons w rest ih =>
    have split : memory (w::rest) = (List.range 4).map (fun i => UInt8.ofBitVec (w.extractLsb' (8 * i) 8)) ++ memory rest := rfl
    have size : ((List.range 4).map fun i => UInt8.ofBitVec (w.extractLsb' (8 * i) 8)).length = 4 := by simp
    cases i with
    | zero =>
      rw [split,Nat.mul_zero,Nat.zero_add,List.getD_append _ _ _ _ (by omega)]
      simp [inside]
    | succ i =>
      rw [split,List.getD_append_right _ _ _ _ (by omega),size,show 4 * (i + 1) + j - 4 = 4 * i + j by omega]
      exact ih i

theorem loadu_memory (words : List Word) {i : Nat} (inside : i < 4) :
    part 32 (_mm_loadu_si128 (memory words)) i = words.getD i 0 := by
  ext k bound
  have here : (32 * i + k) / 8 = 4 * i + k / 8 := by omega
  have bit : (32 * i + k) % 8 = k % 8 := by omega
  rw [← BitVec.getLsbD_eq_getElem,← BitVec.getLsbD_eq_getElem,getLsbD_part _ bound]
  rw [_mm_loadu_si128,getLsbD_of_parts _ (by omega),here,bit,memory_getD words i (by omega),UInt8.toBitVec_ofBitVec]
  rw [BitVec.getLsbD_extractLsb',Nat.div_add_mod]
  simp [Nat.mod_lt]

@[simp] theorem word_add (a b : m128i) {i : Nat} (inside : i < 4) :
    part 32 (_mm_add_epi32 a b) i = part 32 a i + part 32 b i := part_of_parts _ (by omega)

@[simp] theorem word_shuffle (a : m128i) (imm8 : Nat) {i : Nat} (inside : i < 4) :
    part 32 (_mm_shuffle_epi32 a imm8) i = part 32 a (imm8 / 4^i % 4) := part_of_parts _ (by omega)

theorem word_alignr_low (a b : m128i) {i n : Nat} (low : i + n < 4) :
    part 32 (_mm_alignr_epi8 a b (4 * n)) i = part 32 b (i + n) := by
  ext k bound
  rw [← BitVec.getLsbD_eq_getElem,← BitVec.getLsbD_eq_getElem,getLsbD_part _ bound,getLsbD_part _ bound]
  rw [_mm_alignr_epi8,BitVec.getLsbD_setWidth,BitVec.getLsbD_ushiftRight,BitVec.getLsbD_append,if_pos (by omega)]
  rw [show 4 * n * 8 + (32 * i + k) = 32 * (i + n) + k by omega]
  simp [show 32 * i + k < 128 by omega]

theorem word_alignr_high (a b : m128i) {i n : Nat} (inside : i < 4) (high : 4 ≤ i + n) :
    part 32 (_mm_alignr_epi8 a b (4 * n)) i = part 32 a (i + n - 4) := by
  ext k bound
  rw [← BitVec.getLsbD_eq_getElem,← BitVec.getLsbD_eq_getElem,getLsbD_part _ bound,getLsbD_part _ bound]
  rw [_mm_alignr_epi8,BitVec.getLsbD_setWidth,BitVec.getLsbD_ushiftRight,BitVec.getLsbD_append,if_neg (by omega)]
  rw [show 4 * n * 8 + (32 * i + k) - 128 = 32 * (i + n - 4) + k by omega]
  simp [show 32 * i + k < 128 by omega]

/-- A word of a blend comes from one register when both of its halves do. -/
theorem word_blend (a b : m128i) {imm8 i : Nat} (inside : i < 4) (same : imm8.testBit (2 * i + 1) = imm8.testBit (2 * i)) :
    part 32 (_mm_blend_epi16 a b imm8) i = part 32 (if imm8.testBit (2 * i) then b else a) i := by
  ext k bound
  have half : imm8.testBit ((32 * i + k) / 16) = imm8.testBit (2 * i) := by
    by_cases lower : k < 16
    · rw [show (32 * i + k) / 16 = 2 * i by omega]
    · rw [show (32 * i + k) / 16 = 2 * i + 1 by omega,same]
  rw [← BitVec.getLsbD_eq_getElem,← BitVec.getLsbD_eq_getElem,getLsbD_part _ bound,getLsbD_part _ bound]
  rw [_mm_blend_epi16,getLsbD_of_parts _ (by omega),half]
  split
  · rw [getLsbD_part _ (Nat.mod_lt _ (by omega)),Nat.div_add_mod]
  · rw [getLsbD_part _ (Nat.mod_lt _ (by omega)),Nat.div_add_mod]

end AetherVault.Lib.ShaExtensions
