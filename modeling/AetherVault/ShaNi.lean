import AetherVault.StreamingDigest
import AetherVault.Lib.ShaExtensions
import Mathlib.Logic.Function.Basic

/-! The SHA-NI backend (`sha256_shani.cpp`): four message registers in turn, two state registers in the
order of the instructions. It leaves the state that the scalar backend leaves. -/
namespace AetherVault.Sha256.ShaNi
open Lib SecureHash ShaExtensions

def MASK : m128i := _mm_set_epi64x 0x0c0d0e0f08090a0b 0x0405060700010203

def Kx : List uint32_t := [
  0x428a2f98,0x71374491,0xb5c0fbcf,0xe9b5dba5,0x3956c25b,0x59f111f1,0x923f82a4,0xab1c5ed5,
  0xd807aa98,0x12835b01,0x243185be,0x550c7dc3,0x72be5d74,0x80deb1fe,0x9bdc06a7,0xc19bf174,
  0xe49b69c1,0xefbe4786,0x0fc19dc6,0x240ca1cc,0x2de92c6f,0x4a7484aa,0x5cb0a9dc,0x76f988da,
  0x983e5152,0xa831c66d,0xb00327c8,0xbf597fc7,0xc6e00bf3,0xd5a79147,0x06ca6351,0x14292967,
  0x27b70a85,0x2e1b2138,0x4d2c6dfc,0x53380d13,0x650a7354,0x766a0abb,0x81c2c92e,0x92722c85,
  0xa2bfe8a1,0xa81a664b,0xc24b8b70,0xc76c51a3,0xd192e819,0xd6990624,0xf40e3585,0x106aa070,
  0x19a4c116,0x1e376c08,0x2748774c,0x34b0bcb5,0x391c0cb3,0x4ed8aa4a,0x5b9cca4f,0x682e6ff3,
  0x748f82ee,0x78a5636f,0x84c87814,0x8cc70208,0x90befffa,0xa4506ceb,0xbef9a3f7,0xc67178f2]

/-- `STATE0`, `STATE1`, and `MSG0` to `MSG3`. -/
structure Registers where
  STATE0 : m128i
  STATE1 : m128i
  MSG : Fin 4 → m128i

def AV_SHA_RND (msgword : Fin 4) (k_off : Nat) (r : Registers) : Registers :=
  let MSG := _mm_add_epi32 (r.MSG msgword) (_mm_loadu_si128 (memory (Kx.drop k_off)))
  let STATE1 := _mm_sha256rnds2_epu32 r.STATE1 r.STATE0 MSG
  let MSG := _mm_shuffle_epi32 MSG 0x0E
  let STATE0 := _mm_sha256rnds2_epu32 r.STATE0 STATE1 MSG
  { r with STATE0, STATE1 }

def AV_SHA_EXTEND (dst prev cur : Fin 4) (r : Registers) : Registers :=
  let TMP2 := _mm_alignr_epi8 (r.MSG cur) (r.MSG prev) 4
  let sum := _mm_add_epi32 (r.MSG dst) TMP2
  { r with MSG := Function.update r.MSG dst (_mm_sha256msg2_epu32 sum (r.MSG cur)) }

/-- `MSGi = _mm_sha256msg1_epu32(MSGi, MSGj)`. -/
def fold (i j : Fin 4) (r : Registers) : Registers :=
  { r with MSG := Function.update r.MSG i (_mm_sha256msg1_epu32 (r.MSG i) (r.MSG j)) }

def load (state : State) (block : Block) : Registers :=
  let STATE0 := _mm_loadu_si128 (memory state.toList)
  let STATE1 := _mm_loadu_si128 (memory (state.toList.drop 4))
  let TMP := _mm_shuffle_epi32 STATE0 0xB1
  let STATE1 := _mm_shuffle_epi32 STATE1 0x1B
  { STATE0 := _mm_alignr_epi8 TMP STATE1 8
    STATE1 := _mm_blend_epi16 STATE1 TMP 0xF0
    MSG := fun i => _mm_shuffle_epi8 (_mm_loadu_si128 (block.bytes.drop (16 * i))) MASK }

def groups (r : Registers) : Registers := r
  |> AV_SHA_RND 0 0
  |> AV_SHA_RND 1 4 |> fold 0 1
  |> AV_SHA_RND 2 8 |> fold 1 2
  |> AV_SHA_EXTEND 0 2 3 |> AV_SHA_RND 3 12 |> fold 2 3
  |> AV_SHA_EXTEND 1 3 0 |> AV_SHA_RND 0 16 |> fold 3 0
  |> AV_SHA_EXTEND 2 0 1 |> AV_SHA_RND 1 20 |> fold 0 1
  |> AV_SHA_EXTEND 3 1 2 |> AV_SHA_RND 2 24 |> fold 1 2
  |> AV_SHA_EXTEND 0 2 3 |> AV_SHA_RND 3 28 |> fold 2 3
  |> AV_SHA_EXTEND 1 3 0 |> AV_SHA_RND 0 32 |> fold 3 0
  |> AV_SHA_EXTEND 2 0 1 |> AV_SHA_RND 1 36 |> fold 0 1
  |> AV_SHA_EXTEND 3 1 2 |> AV_SHA_RND 2 40 |> fold 1 2
  |> AV_SHA_EXTEND 0 2 3 |> AV_SHA_RND 3 44 |> fold 2 3
  |> AV_SHA_EXTEND 1 3 0 |> AV_SHA_RND 0 48 |> fold 3 0
  |> AV_SHA_EXTEND 2 0 1 |> AV_SHA_RND 1 52
  |> AV_SHA_EXTEND 3 1 2 |> AV_SHA_RND 2 56
  |> AV_SHA_RND 3 60

def store (STATE0 STATE1 : m128i) : State :=
  let TMP := _mm_shuffle_epi32 STATE0 0x1B
  let STATE1 := _mm_shuffle_epi32 STATE1 0xB1
  let STATE0 := _mm_blend_epi16 TMP STATE1 0xF0
  let STATE1 := _mm_alignr_epi8 STATE1 TMP 8
  ⟨(_mm_storeu_si128 STATE0 ++ _mm_storeu_si128 STATE1).toArray,rfl⟩

def sha256_blocks_shani (state : State) (block : Block) : State :=
  let saved := load state block
  let r := groups saved
  store (_mm_add_epi32 r.STATE0 saved.STATE0) (_mm_add_epi32 r.STATE1 saved.STATE1)

/-! What the registers hold. -/

def ABEF (v : Work) : m128i := of_words v.a v.b v.e v.f
def CDGH (v : Work) : m128i := of_words v.c v.d v.g v.h

variable (W : Nat → Word)

/-- Four words of the schedule. -/
def four (t : Nat) : m128i := of_words (W (t + 3)) (W (t + 2)) (W (t + 1)) (W t)

/-- The part of the next words that is known from these and the four after them. -/
def folded (t : Nat) : m128i :=
  of_words (W (t + 3) + sigma0 (W (t + 4))) (W (t + 2) + sigma0 (W (t + 3))) (W (t + 1) + sigma0 (W (t + 2))) (W t + sigma0 (W (t + 1)))

variable {W}

theorem msg1_eq (t : Nat) : _mm_sha256msg1_epu32 (four W t) (four W (t + 4)) = folded W t := by
  unfold _mm_sha256msg1_epu32 four folded
  simp

/-- One extension gives the next four words. -/
theorem extend_eq (M : Nat → Word) (t : Nat) :
    _mm_sha256msg2_epu32 (_mm_add_epi32 (folded (schedule M) t) (_mm_alignr_epi8 (four (schedule M) (t + 12)) (four (schedule M) (t + 8)) 4))
      (four (schedule M) (t + 12)) = four (schedule M) (t + 16) := by
  have shifted : ∀ i < 4, part 32 (_mm_alignr_epi8 (four (schedule M) (t + 12)) (four (schedule M) (t + 8)) 4) i = schedule M (t + 9 + i) := by
    intro i inside
    by_cases low : i < 3
    · rw [word_alignr_low (n := 1) _ _ (by omega),four]
      interval_cases i <;> simp
    · rw [word_alignr_high (n := 1) _ _ inside (by omega),show i = 3 by omega,four]
      simp
  -- Each of the four words is the standard's recurrence, with its terms in another order.
  have next : ∀ i, schedule M (t + i) + sigma0 (schedule M (t + i + 1)) + schedule M (t + 9 + i) + sigma1 (schedule M (t + i + 14)) =
      schedule M (t + i + 16) := by
    intro i
    rw [schedule_add,show t + i + 9 = t + 9 + i by omega]
    ac_rfl
  have sixteen := next 0
  have seventeen := next 1
  have eighteen := next 2
  have nineteen := next 3
  simp only [Nat.add_assoc,Nat.reduceAdd,Nat.add_zero] at sixteen seventeen eighteen nineteen shifted
  unfold _mm_sha256msg2_epu32
  simp only [word_add,shifted,Nat.reduceLT,Nat.reduceAdd]
  simp only [folded,four,word_of_words_zero,word_of_words_one,word_of_words_two,word_of_words_three,Nat.add_assoc,Nat.reduceAdd,
    sixteen,seventeen,eighteen,nineteen]

theorem rnds2_eq (v : Work) (k : m128i) :
    _mm_sha256rnds2_epu32 (CDGH v) (ABEF v) k = ABEF (sha256_round (sha256_round v (part 32 k 0)) (part 32 k 1)) := by
  unfold _mm_sha256rnds2_epu32 CDGH ABEF
  simp

/-- After two rounds the old variables stand where the instruction looks for the later ones. -/
theorem CDGH_rounds (v : Work) (x y : Word) : CDGH (sha256_round (sha256_round v x) y) = ABEF v := rfl

theorem sha256_round_eq (v : Work) (k w : Word) : sha256_round v (w + k) = SecureHash.round v k w := by
  have T1 : Ch v.e v.f v.g + Sigma1 v.e + (w + k) + v.h = v.h + Sigma1 v.e + Ch v.e v.f v.g + k + w := by ac_rfl
  rw [sha256_round,SecureHash.round,T1,BitVec.add_assoc _ (Maj v.a v.b v.c),BitVec.add_comm (Maj v.a v.b v.c)]
  rw [BitVec.add_comm v.d]

theorem Kx_eq : Kx = constants := K_eq

/-- The state registers hold the variables after `t` rounds. -/
structure Ran (M : Nat → Word) (H : Work) (t : Nat) (r : Registers) : Prop where
  STATE0 : r.STATE0 = ABEF (rounds (schedule M) H t)
  STATE1 : r.STATE1 = CDGH (rounds (schedule M) H t)

theorem rnd_ran {M : Nat → Word} {H : Work} {t : Nat} {r : Registers} {m : Fin 4} (ran : Ran M H t r)
    (current : r.MSG m = four (schedule M) t) : Ran M H (t + 4) (AV_SHA_RND m t r) := by
  have added : ∀ i < 4, part 32 (_mm_add_epi32 (r.MSG m) (_mm_loadu_si128 (memory (Kx.drop t)))) i =
      schedule M (t + i) + constants.getD (t + i) 0 := by
    intro i inside
    have constant : (Kx.drop t).getD i 0 = constants.getD (t + i) 0 := by
      rw [Kx_eq]
      simp [List.getD_eq_getElem?_getD]
    rw [word_add _ _ inside,loadu_memory _ inside,constant,current,four]
    interval_cases i <;> simp
  have shuffled : ∀ i < 2, part 32 (_mm_shuffle_epi32 (_mm_add_epi32 (r.MSG m) (_mm_loadu_si128 (memory (Kx.drop t)))) 0x0E) i =
      schedule M (t + 2 + i) + constants.getD (t + 2 + i) 0 := by
    intro i inside
    rw [word_shuffle _ _ (by omega)]
    interval_cases i
    · exact added 2 (by omega)
    · exact added 3 (by omega)
  have two : ∀ n, rounds (schedule M) H (n + 2) = sha256_round (sha256_round (rounds (schedule M) H n)
      (schedule M n + constants.getD n 0)) (schedule M (n + 1) + constants.getD (n + 1) 0) := by
    intro n
    rw [sha256_round_eq,sha256_round_eq]
    rfl
  have first : (AV_SHA_RND m t r).STATE1 = ABEF (rounds (schedule M) H (t + 2)) := by
    rw [AV_SHA_RND,ran.STATE0,ran.STATE1,rnds2_eq,added 0 (by omega),added 1 (by omega),two]
    rfl
  have second : (AV_SHA_RND m t r).STATE0 = _mm_sha256rnds2_epu32 r.STATE0 (AV_SHA_RND m t r).STATE1
      (_mm_shuffle_epi32 (_mm_add_epi32 (r.MSG m) (_mm_loadu_si128 (memory (Kx.drop t)))) 0x0E) := rfl
  have moved : ABEF (rounds (schedule M) H t) = CDGH (rounds (schedule M) H (t + 2)) := by
    rw [two,CDGH_rounds]
  refine ⟨?_,?_⟩
  · rw [second,first,ran.STATE0,moved,rnds2_eq,shuffled 0 (by omega),shuffled 1 (by omega),two (t + 2)]
  · rw [first,two (t + 2),CDGH_rounds]

/-- Before a group whose current register is `i`: two of the others are on their way to the next words, the last still
has the words before. -/
structure At (M : Nat → Word) (H : Work) (i : Fin 4) (t : Nat) (r : Registers) : Prop extends Ran M H (t + 12) r where
  current : r.MSG i = four (schedule M) (t + 12)
  next : r.MSG (i + 1) = folded (schedule M) t
  after : r.MSG (i + 2) = folded (schedule M) (t + 4)
  last : r.MSG (i + 3) = four (schedule M) (t + 8)

theorem value_one : ((1 : Fin 4) : Nat) = 1 := rfl
theorem value_two : ((2 : Fin 4) : Nat) = 2 := rfl
theorem value_three : ((3 : Fin 4) : Nat) = 3 := rfl

theorem others (i : Fin 4) : i + 1 ≠ i ∧ i + 2 ≠ i ∧ i + 3 ≠ i ∧ i + 2 ≠ i + 1 ∧ i + 3 ≠ i + 1 ∧ i + 2 ≠ i + 3 := by
  have bound := i.isLt
  simp only [ne_eq,Fin.ext_iff,Fin.val_add,value_one,value_two,value_three]
  omega

theorem turned (i : Fin 4) : i + 1 + 1 = i + 2 ∧ i + 1 + 2 = i + 3 ∧ i + 1 + 3 = i := by
  have bound := i.isLt
  simp only [Fin.ext_iff,Fin.val_add,value_one,value_two,value_three]
  omega

section Groups

variable {M : Nat → Word} {H : Work} {i : Fin 4} {t : Nat} {r : Registers}

theorem extend_next (current : r.MSG i = four (schedule M) (t + 12)) (next : r.MSG (i + 1) = folded (schedule M) t)
    (last : r.MSG (i + 3) = four (schedule M) (t + 8)) :
    (AV_SHA_EXTEND (i + 1) (i + 3) i r).MSG (i + 1) = four (schedule M) (t + 16) := by
  refine (Function.update_self _ _ _).trans ?_
  rw [current,next,last,extend_eq]

theorem extend_other {j : Fin 4} (other : j ≠ i + 1) : (AV_SHA_EXTEND (i + 1) (i + 3) i r).MSG j = r.MSG j :=
  Function.update_of_ne other _ _

/-- A group in the middle: extend the next register, run the current, fold the last. -/
theorem group_at (before : At M H i t r) :
    At M H (i + 1) (t + 4) (fold (i + 3) i (AV_SHA_RND i (t + 12) (AV_SHA_EXTEND (i + 1) (i + 3) i r))) := by
  obtain ⟨one,two,three,twoOne,threeOne,twoThree⟩ := others i
  have next := extend_next before.current before.next before.last
  have current := (extend_other (r := r) one.symm).trans before.current
  have last := (extend_other (r := r) threeOne).trans before.last
  have ran : Ran M H (t + 16) (AV_SHA_RND i (t + 12) (AV_SHA_EXTEND (i + 1) (i + 3) i r)) :=
    rnd_ran ⟨before.STATE0,before.STATE1⟩ current
  obtain ⟨second,third,fourth⟩ := turned i
  refine { STATE0 := ran.STATE0, STATE1 := ran.STATE1, current := ?_, next := ?_, after := ?_, last := ?_ }
  · exact (Function.update_of_ne threeOne.symm _ _).trans next
  · rw [second]
    exact (Function.update_of_ne twoThree _ _).trans ((extend_other twoOne).trans before.after)
  · rw [third]
    refine (Function.update_self _ _ _).trans ?_
    have folds := msg1_eq (W := schedule M) (t + 8)
    rwa [← last,← current] at folds
  · rw [fourth]
    exact (Function.update_of_ne three.symm _ _).trans current

/-- The groups near the end fold nothing more. -/
theorem rnd_after_extend (ran : Ran M H (t + 12) r) (current : r.MSG i = four (schedule M) (t + 12)) :
    Ran M H (t + 16) (AV_SHA_RND i (t + 12) (AV_SHA_EXTEND (i + 1) (i + 3) i r)) :=
  rnd_ran (m := i) ⟨ran.STATE0,ran.STATE1⟩ ((extend_other (others i).1.symm).trans current)

/-- The first three groups run on the words of the message. -/
theorem first_groups {r : Registers} (words : ∀ i : Fin 4, r.MSG i = four (schedule M) (4 * i)) (ran : Ran M H 0 r) :
    At M H 3 0 (fold 1 2 (AV_SHA_RND 2 8 (fold 0 1 (AV_SHA_RND 1 4 (AV_SHA_RND 0 0 r))))) := by
  have MSG0 : r.MSG 0 = four (schedule M) 0 := words 0
  have MSG1 : r.MSG 1 = four (schedule M) 4 := words 1
  have MSG2 : r.MSG 2 = four (schedule M) 8 := words 2
  have one := rnd_ran (m := 0) ran MSG0
  have two : Ran M H 8 (AV_SHA_RND 1 4 (AV_SHA_RND 0 0 r)) := rnd_ran one MSG1
  have three : Ran M H 12 (AV_SHA_RND 2 8 (fold 0 1 (AV_SHA_RND 1 4 (AV_SHA_RND 0 0 r)))) :=
    rnd_ran ⟨two.STATE0,two.STATE1⟩ MSG2
  refine { STATE0 := three.STATE0, STATE1 := three.STATE1, current := words 3, next := ?_, after := ?_, last := MSG2 }
  · have folds := msg1_eq (W := schedule M) 0
    rwa [← MSG0,← MSG1] at folds
  · have folds := msg1_eq (W := schedule M) 4
    rwa [← MSG1,← MSG2] at folds

/-- The last three groups. -/
theorem last_groups (before : At M H 1 40 r) : Ran M H 64
    (AV_SHA_RND 3 60 (AV_SHA_RND 2 56 (AV_SHA_EXTEND 3 1 2 (AV_SHA_RND 1 52 (AV_SHA_EXTEND 2 0 1 r))))) := by
  have thirteen : Ran M H 56 (AV_SHA_RND 1 52 (AV_SHA_EXTEND 2 0 1 r)) :=
    rnd_after_extend ⟨before.STATE0,before.STATE1⟩ before.current
  have MSG2 : (AV_SHA_RND 1 52 (AV_SHA_EXTEND 2 0 1 r)).MSG 2 = four (schedule M) 56 :=
    extend_next before.current before.next before.last
  have fourteen : Ran M H 60 (AV_SHA_RND 2 56 (AV_SHA_EXTEND 3 1 2 (AV_SHA_RND 1 52 (AV_SHA_EXTEND 2 0 1 r)))) :=
    rnd_after_extend thirteen MSG2
  have MSG3 : (AV_SHA_EXTEND 3 1 2 (AV_SHA_RND 1 52 (AV_SHA_EXTEND 2 0 1 r))).MSG 3 = four (schedule M) 60 :=
    extend_next (i := 2) MSG2 before.after before.current
  exact rnd_ran fourteen MSG3

theorem groups_ran (words : ∀ i : Fin 4, r.MSG i = four (schedule M) (4 * i)) (ran : Ran M H 0 r) : Ran M H 64 (groups r) := by
  have three := first_groups words ran
  have four := group_at three
  have five := group_at four
  have six := group_at five
  have seven := group_at six
  have eight := group_at seven
  have nine := group_at eight
  have ten := group_at nine
  have eleven := group_at ten
  have twelve := group_at eleven
  have thirteen := group_at twelve
  exact last_groups thirteen

end Groups

/-! Into the registers and back. -/

theorem word_block (block : Block) {i j : Nat} (inside : i < 4) (within : j < 4) :
    part 32 (_mm_shuffle_epi8 (_mm_loadu_si128 (block.bytes.drop (16 * i))) MASK) j = block.word (4 * i + j) := by
  have read : ∀ n < 16, part 8 (_mm_loadu_si128 (block.bytes.drop (16 * i))) n = (block.bytes.getD (16 * i + n) 0).toBitVec := by
    intro n bound
    rw [_mm_loadu_si128,part_of_parts _ (by omega)]
    simp [List.getD_eq_getElem?_getD]
  have swapped : ∀ k < 4, part 8 (_mm_shuffle_epi8 (_mm_loadu_si128 (block.bytes.drop (16 * i))) MASK) (4 * j + k) =
      (block.bytes.getD (16 * i + (4 * j + (3 - k))) 0).toBitVec := by
    intro k bound
    have mask : part 8 MASK (4 * j + k) = BitVec.ofNat 8 (4 * j + (3 - k)) := by
      interval_cases j <;> interval_cases k <;> decide
    have positive : (BitVec.ofNat 8 (4 * j + (3 - k))).msb = false := by
      interval_cases j <;> interval_cases k <;> decide
    have index : (BitVec.ofNat 8 (4 * j + (3 - k))).toNat % 16 = 4 * j + (3 - k) := by
      rw [BitVec.toNat_ofNat]
      omega
    rw [_mm_shuffle_epi8,part_of_parts _ (by omega),mask,positive,index,if_neg Bool.false_ne_true,read _ (by omega)]
  have sized := block.sized
  have loaded := load_block block (t := 4 * i + j) (by omega)
  rw [word_bytes,swapped 3 (by omega),swapped 2 (by omega),swapped 1 (by omega)]
  have zero := swapped 0 (by omega)
  rw [Nat.add_zero] at zero
  rw [zero,← loaded,load_be32,native32,bswap_native]
  have byte : ∀ k, (block.bytes.drop ((4 * i + j) * 4)).getD k 0 = block.bytes.getD (16 * i + (4 * j + k)) 0 := by
    intro k
    simp only [List.getD_eq_getElem?_getD,List.getElem?_drop]
    rw [show (4 * i + j) * 4 + k = 16 * i + (4 * j + k) by omega]
  rw [byte,byte,byte,byte]

/-- The order in which the instructions want the words, and back: the upper words of two registers. -/
theorem upper_words (x y : m128i) : _mm_alignr_epi8 (_mm_shuffle_epi32 x 0xB1) (_mm_shuffle_epi32 y 0x1B) 8 =
    of_words (part 32 x 0) (part 32 x 1) (part 32 y 0) (part 32 y 1) := by
  refine words_ext ?_ ?_ ?_ ?_
  · exact (word_alignr_high (n := 2) _ _ (by omega) (by omega)).trans (word_shuffle _ _ (by omega))
  · exact (word_alignr_high (n := 2) _ _ (by omega) (by omega)).trans (word_shuffle _ _ (by omega))
  · exact (word_alignr_low (n := 2) _ _ (by omega)).trans (word_shuffle _ _ (by omega))
  · exact (word_alignr_low (n := 2) _ _ (by omega)).trans (word_shuffle _ _ (by omega))

theorem lower_words (x y : m128i) : _mm_blend_epi16 (_mm_shuffle_epi32 y 0x1B) (_mm_shuffle_epi32 x 0xB1) 0xF0 =
    of_words (part 32 x 2) (part 32 x 3) (part 32 y 2) (part 32 y 3) := by
  refine words_ext ?_ ?_ ?_ ?_
  · exact (word_blend _ _ (by omega) rfl).trans (word_shuffle _ _ (by omega))
  · exact (word_blend _ _ (by omega) rfl).trans (word_shuffle _ _ (by omega))
  · exact (word_blend _ _ (by omega) rfl).trans (word_shuffle _ _ (by omega))
  · exact (word_blend _ _ (by omega) rfl).trans (word_shuffle _ _ (by omega))

theorem load_state (state : State) (block : Block) :
    (load state block).STATE0 = ABEF (work state) ∧ (load state block).STATE1 = CDGH (work state) := by
  have abcd : ∀ j < 4, part 32 (_mm_loadu_si128 (memory state.toList)) j = (work state).words.getD j 0 := by
    intro j within
    rw [loadu_memory _ within,toList_eq]
  have efgh : ∀ j < 4, part 32 (_mm_loadu_si128 (memory (state.toList.drop 4))) j = (work state).words.getD (4 + j) 0 := by
    intro j within
    rw [loadu_memory _ within,toList_eq]
    simp [List.getD_eq_getElem?_getD]
  constructor
  · refine (upper_words _ _).trans ?_
    rw [abcd 0 (by omega),abcd 1 (by omega),efgh 0 (by omega),efgh 1 (by omega)]
    rfl
  · refine (lower_words _ _).trans ?_
    rw [abcd 2 (by omega),abcd 3 (by omega),efgh 2 (by omega),efgh 3 (by omega)]
    rfl

theorem store_state (v : Work) : work (store (ABEF v) (CDGH v)) = v := by
  have lower := lower_words (CDGH v) (ABEF v)
  have upper := upper_words (CDGH v) (ABEF v)
  have stored : (store (ABEF v) (CDGH v)).toList = v.words := by
    change _mm_storeu_si128 _ ++ _mm_storeu_si128 _ = v.words
    rw [lower,upper]
    simp [_mm_storeu_si128,ABEF,CDGH,Work.words]
  rw [toList_eq] at stored
  generalize work (store (ABEF v) (CDGH v)) = w at stored
  cases w
  cases v
  simpa [Work.words] using stored

theorem add_of_words (x3 x2 x1 x0 y3 y2 y1 y0 : Word) :
    _mm_add_epi32 (of_words x3 x2 x1 x0) (of_words y3 y2 y1 y0) = of_words (x3 + y3) (x2 + y2) (x1 + y1) (x0 + y0) := by
  refine words_ext ?_ ?_ ?_ ?_
  all_goals rw [word_add _ _ (by omega)]; simp

theorem shani_compresses : Compresses sha256_blocks_shani := by
  intro state block
  obtain ⟨STATE0,STATE1⟩ := load_state state block
  have words : ∀ i : Fin 4, (load state block).MSG i = four (schedule block.word) (4 * i) := by
    intro i
    have bound := i.isLt
    refine words_ext ?_ ?_ ?_ ?_
    all_goals rw [schedule_lt (by omega)]
    · exact word_block block bound (by omega)
    · exact word_block block bound (by omega)
    · exact word_block block bound (by omega)
    · exact word_block block bound (by omega)
  have ran := groups_ran (M := block.word) (H := work state) words ⟨STATE0,STATE1⟩
  have added : work (sha256_blocks_shani state block) =
      work (store (ABEF ((work state).add (rounds (schedule block.word) (work state) 64)))
        (CDGH ((work state).add (rounds (schedule block.word) (work state) 64)))) := by
    rw [sha256_blocks_shani,ran.STATE0,ran.STATE1,STATE0,STATE1,ABEF,ABEF,CDGH,CDGH,add_of_words,add_of_words]
    rfl
  rw [added,store_state,compress]

theorem work_injective {state state' : State} (same : work state = work state') : state = state' := by
  have lists : state.toList = state'.toList := by rw [toList_eq,toList_eq,same]
  exact Vector.toList_inj.mp lists

/-- On every state and every block, whatever the self-test of the dispatcher sees of them. -/
theorem shani_eq_scalar (state : State) (block : Block) : sha256_blocks_shani state block = sha256_blocks_scalar state block :=
  work_injective ((shani_compresses state block).trans (scalar_compresses state block).symm)

theorem shani_streamed (data : Block) (chunks : List Bytes) :
    SHA256.hexdigest sha256_blocks_shani (chunks.foldl (SHA256.update sha256_blocks_shani) (SHA256.new data)) =
      String.ofList (hexadecimal (SecureHash.digest (bits chunks.flatten))) :=
  hexdigest_streamed shani_compresses data chunks

end AetherVault.Sha256.ShaNi
