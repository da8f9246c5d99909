import Mathlib.Algebra.Group.Nat.Defs
import Mathlib.Data.List.Basic

/-! SHA-256 as the Secure Hash Standard (FIPS 180-4) defines it, on bit strings: the functions
and constants of section 4, padding and parsing of section 5, the computation of section 6.2. -/
namespace AetherVault.Lib.SecureHash

/-! Bit strings, the first bit the most significant. -/

def value (bits : List Bool) : Nat := bits.foldl (fun n b => 2 * n + b.toNat) 0

/-- The lowest `width` bits of a number. -/
def bits_of : Nat → Nat → List Bool
  | 0,_ => []
  | width+1,n => n.testBit width :: bits_of width n

def bits (message : List UInt8) : List Bool := message.flatMap fun b => bits_of 8 b.toNat

def hexadecimal : List Bool → List Char
  | a::b::c::d::rest => (value [a,b,c,d]).digitChar :: hexadecimal rest
  | _ => []

@[simp] theorem length_bits_of (width n : Nat) : (bits_of width n).length = width := by
  induction width with
  | zero => rfl
  | succ width ih => rw [bits_of,List.length_cons,ih]

theorem value_append (front back : List Bool) : value (front ++ back) = value front * 2^back.length + value back := by
  suffices general : ∀ n, back.foldl (fun n b => 2 * n + b.toNat) n = n * 2^back.length + value back by
    rw [value,List.foldl_append,general]
    rfl
  induction back with
  | nil => intro n; simp [value]
  | cons b back ih =>
    intro n
    have first : value (b::back) = b.toNat * 2^back.length + value back := by
      rw [value,List.foldl_cons,ih,Nat.mul_zero,Nat.zero_add]
    rw [List.foldl_cons,ih,first,List.length_cons,Nat.pow_succ,Nat.add_mul]
    rw [Nat.mul_comm 2 n,Nat.mul_assoc,Nat.mul_comm 2,Nat.add_assoc]

@[simp] theorem value_bits_of (width n : Nat) : value (bits_of width n) = n % 2^width := by
  induction width with
  | zero => rw [Nat.pow_zero,Nat.mod_one]; rfl
  | succ width ih =>
    have split : bits_of (width+1) n = [n.testBit width] ++ bits_of width n := rfl
    have one : value [n.testBit width] = n / 2^width % 2 := by
      rw [← Nat.toNat_testBit,value,List.foldl_cons,List.foldl_nil,Nat.mul_zero,Nat.zero_add]
    rw [split,value_append,length_bits_of,ih,one,Nat.mod_pow_succ,Nat.add_comm,Nat.mul_comm]

theorem bits_of_add (high low n : Nat) : bits_of (high + low) n = bits_of high (n / 2^low) ++ bits_of low n := by
  induction high with
  | zero => rw [Nat.zero_add]; rfl
  | succ high ih =>
    rw [Nat.succ_add,bits_of,ih,bits_of,Nat.testBit_div_two_pow,List.cons_append]

theorem bits_of_mod (width n : Nat) {above : Nat} (wide : width ≤ above) : bits_of width (n % 2^above) = bits_of width n := by
  induction width with
  | zero => rfl
  | succ width ih =>
    rw [bits_of,bits_of,ih (by omega),Nat.testBit_mod_two_pow]
    simp [show width < above by omega]

@[simp] theorem length_bits (message : List UInt8) : (bits message).length = 8 * message.length := by
  induction message with
  | nil => rfl
  | cons b rest ih =>
    have split : bits (b::rest) = bits_of 8 b.toNat ++ bits rest := rfl
    rw [split,List.length_append,length_bits_of,ih,List.length_cons]
    omega

@[simp] theorem bits_append (front back : List UInt8) : bits (front ++ back) = bits front ++ bits back := List.flatMap_append

theorem bits_take (message : List UInt8) (n : Nat) : (bits message).take (8 * n) = bits (message.take n) := by
  by_cases short : message.length ≤ n
  · rw [List.take_of_length_le short,List.take_of_length_le (by rw [length_bits]; omega)]
  · have split := bits_append (message.take n) (message.drop n)
    rw [List.take_append_drop] at split
    rw [split,List.take_left']
    rw [length_bits,List.length_take]
    omega

theorem bits_drop (message : List UInt8) (n : Nat) : (bits message).drop (8 * n) = bits (message.drop n) := by
  by_cases short : message.length ≤ n
  · rw [List.drop_of_length_le short,List.drop_of_length_le (by rw [length_bits]; omega)]
    rfl
  · have split := bits_append (message.take n) (message.drop n)
    rw [List.take_append_drop] at split
    rw [split,List.drop_left']
    rw [length_bits,List.length_take]
    omega

theorem length_hexadecimal (text : List Bool) : (hexadecimal text).length = text.length / 4 := by
  induction text using hexadecimal.induct with
  | case1 a b c d rest ih =>
    rw [hexadecimal,List.length_cons,ih]
    simp only [List.length_cons]
    omega
  | case2 text short =>
    have few : text.length < 4 := by
      rcases text with - | ⟨a,- | ⟨b,- | ⟨c,- | ⟨d,rest⟩⟩⟩⟩
      all_goals first | exact absurd rfl (short a b c d rest) | (simp only [List.length_cons,List.length_nil]; omega)
    rw [hexadecimal,Nat.div_eq_of_lt few]
    · rfl
    · exact short

/-! Section 4.1.2: functions on 32-bit words. -/

abbrev Word := BitVec 32

def Ch (x y z : Word) : Word := (x &&& y) ^^^ (~~~x &&& z)
def Maj (x y z : Word) : Word := (x &&& y) ^^^ (x &&& z) ^^^ (y &&& z)
def Sigma0 (x : Word) : Word := x.rotateRight 2 ^^^ x.rotateRight 13 ^^^ x.rotateRight 22
def Sigma1 (x : Word) : Word := x.rotateRight 6 ^^^ x.rotateRight 11 ^^^ x.rotateRight 25
def sigma0 (x : Word) : Word := x.rotateRight 7 ^^^ x.rotateRight 18 ^^^ (x >>> 3)
def sigma1 (x : Word) : Word := x.rotateRight 17 ^^^ x.rotateRight 19 ^^^ (x >>> 10)

/-! Sections 4.2.2 and 5.3.3: the constants are the first thirty-two bits of the fractional
parts of roots of the first primes. -/

/-- The greatest number below `2^width` whose power is at most `n`, its bits tried from the highest. -/
def root (power n : Nat) : Nat → Nat → Nat
  | 0,found => found
  | width+1,found => root power n width (if (found + 2^width)^power ≤ n then found + 2^width else found)

theorem root_spec {power n width found : Nat} (below : found^power ≤ n) (above : n < (found + 2^width)^power) :
    (root power n width found)^power ≤ n ∧ n < (root power n width found + 1)^power := by
  induction width generalizing found with
  | zero => exact ⟨below,above⟩
  | succ width ih =>
    rw [root]
    split
    · rename_i fits
      refine ih fits ?_
      rwa [Nat.add_assoc,← Nat.two_mul,← Nat.pow_succ']
    · rename_i large
      exact ih below (Nat.lt_of_not_le large)

/-- The numbers that no smaller one of the list divides, so many of them. -/
def sieve : Nat → List Nat → List Nat
  | n+1,p::rest => p :: sieve n (rest.filter fun m => m % p != 0)
  | _,_ => []

def primes : List Nat := sieve 64 (List.range' 2 310)

def root_bits (power p : Nat) : Word := BitVec.ofNat 32 (root power (p * 2^(32 * power)) 40 0)

def constants : List Word := primes.map (root_bits 3)

/-- The eight working variables, or the eight words of a hash value. -/
structure Work where
  a : Word
  b : Word
  c : Word
  d : Word
  e : Word
  f : Word
  g : Word
  h : Word
  deriving DecidableEq

def initial : Work :=
  ⟨root_bits 2 2,root_bits 2 3,root_bits 2 5,root_bits 2 7,root_bits 2 11,root_bits 2 13,root_bits 2 17,root_bits 2 19⟩

/-! Section 5: padding, and parsing into blocks of sixteen words. -/

/-- One, then the fewest zeros that leave sixty-four bits to a multiple of 512, then the length. -/
def padding (length : Nat) : List Bool :=
  true :: (List.replicate ((447 + 512 - length % 512) % 512) false ++ bits_of 64 length)

def padded (message : List Bool) : List Bool := message ++ padding message.length

def block (message : List Bool) (i : Nat) : List Bool := (message.drop (512 * i)).take 512

def word (block : List Bool) (t : Nat) : Word := BitVec.ofNat 32 (value ((block.drop (32 * t)).take 32))

/-! Section 6.2.2: the computation. -/

def schedule (M : Nat → Word) (t : Nat) : Word :=
  if t < 16 then M t
  else sigma1 (schedule M (t - 2)) + schedule M (t - 7) + sigma0 (schedule M (t - 15)) + schedule M (t - 16)
termination_by t
decreasing_by all_goals omega

def round (v : Work) (k w : Word) : Work :=
  let T1 := v.h + Sigma1 v.e + Ch v.e v.f v.g + k + w
  let T2 := Sigma0 v.a + Maj v.a v.b v.c
  { h := v.g, g := v.f, f := v.e, e := v.d + T1, d := v.c, c := v.b, b := v.a, a := T1 + T2 }

/-- The working variables after the first `t` rounds. -/
def rounds (W : Nat → Word) (v : Work) : Nat → Work
  | 0 => v
  | t+1 => round (rounds W v t) (constants.getD t 0) (W t)

def Work.add (H v : Work) : Work :=
  ⟨v.a + H.a,v.b + H.b,v.c + H.c,v.d + H.d,v.e + H.e,v.f + H.f,v.g + H.g,v.h + H.h⟩

def compress (H : Work) (M : Nat → Word) : Work := H.add (rounds (schedule M) H 64)

/-- The hash value after every whole block of the text. -/
def absorb (H : Work) (message : List Bool) : Work :=
  (List.range (message.length / 512)).foldl (fun H i => compress H (word (block message i))) H

def Work.words (H : Work) : List Word := [H.a,H.b,H.c,H.d,H.e,H.f,H.g,H.h]

def digest (message : List Bool) : List Bool :=
  (absorb initial (padded message)).words.flatMap fun w => bits_of 32 w.toNat

/-! What the computation rests on. -/

theorem length_padded (message : List Bool) : (padded message).length % 512 = 0 := by
  rw [padded,padding,List.length_append,List.length_cons,List.length_append,List.length_replicate,length_bits_of]
  omega

theorem schedule_lt {M : Nat → Word} {t : Nat} (early : t < 16) : schedule M t = M t := by
  rw [schedule,if_pos early]

theorem schedule_add (M : Nat → Word) (t : Nat) : schedule M (t + 16) =
    sigma1 (schedule M (t + 14)) + schedule M (t + 9) + sigma0 (schedule M (t + 1)) + schedule M t := by
  rw [schedule,if_neg (by omega)]
  rfl

theorem length_digest (message : List Bool) : (digest message).length = 256 := by
  simp [digest,Work.words]

theorem absorb_append {front : List Bool} (whole : front.length % 512 = 0) (H : Work) (back : List Bool) :
    absorb H (front ++ back) = absorb (absorb H front) back := by
  obtain ⟨n,size⟩ : ∃ n, front.length = 512 * n := ⟨front.length / 512,by omega⟩
  have counted : (front ++ back).length / 512 = n + back.length / 512 := by
    rw [List.length_append,size]
    omega
  have here : ∀ i ∈ List.range n, block (front ++ back) i = block front i := by
    intro i inside
    have bound := List.mem_range.mp inside
    rw [block,block,List.drop_append_of_le_length (by omega),List.take_append_of_le_length]
    rw [List.length_drop]
    omega
  have beyond : ∀ i, block (front ++ back) (n + i) = block back i := by
    intro i
    rw [block,block,Nat.mul_add,← List.drop_drop,← size,List.drop_left]
  have first : (List.range n).foldl (fun H i => compress H (word (block (front ++ back) i))) H = absorb H front := by
    rw [absorb,size,Nat.mul_div_cancel_left _ (by omega)]
    exact List.foldl_ext _ _ _ fun H i inside => by rw [here i inside]
  have later : ∀ H, (List.range (back.length / 512)).foldl
      (fun H i => compress H (word (block (front ++ back) (n + i)))) H = absorb H back := fun H =>
    List.foldl_ext _ _ _ fun H i _ => by rw [beyond]
  rw [absorb,counted,List.range_add,List.foldl_append,List.foldl_map,first,later]

theorem absorb_block {text : List Bool} (size : text.length = 512) (H : Work) :
    absorb H text = compress H (word text) := by
  have one : List.range (text.length / 512) = [0] := by rw [size]; rfl
  rw [absorb,one,List.foldl_cons,List.foldl_nil,block,Nat.mul_zero,List.drop_zero,List.take_of_length_le (by omega)]

theorem absorb_short {text : List Bool} (short : text.length < 512) (H : Work) : absorb H text = H := by
  rw [absorb,Nat.div_eq_of_lt short]
  rfl

end AetherVault.Lib.SecureHash
