import AetherVault.Objects
import AetherVault.Lib.Encoding
import AetherVault.Lib.SecureHash

/-! The streaming SHA-256 of the C++ core (`sha256.cpp`) over the scalar block compressor
(`sha256_backend.cpp`). The block buffer never leaves its sixty-four bytes, and however a message is
split into updates, the digest is the one of the standard. -/
namespace AetherVault.Sha256
open Lib

abbrev uint32_t := BitVec 32

def uint8_t {w : Nat} (x : BitVec w) : UInt8 := UInt8.ofNat x.toNat

/-- `uint32_t state[8]`. -/
abbrev State := Vector uint32_t 8

/-- `uint8_t data[64]`. -/
structure Block where
  bytes : Bytes
  sized : bytes.length = 64
  deriving DecidableEq

/-- A write into the block: what is written has to fit. -/
def Block.memcpy (data : Block) (offset : Nat) (src : Bytes) (fits : offset + src.length ≤ 64) : Block where
  bytes := data.bytes.take offset ++ src ++ data.bytes.drop (offset + src.length)
  sized := by
    have sized := data.sized
    rw [List.length_append,List.length_append,List.length_take,List.length_drop]
    omega

/-! The scalar compressor. -/

def ROTRIGHT (a : uint32_t) (b : Nat) : uint32_t := (a >>> b) ||| (a <<< (32 - b))
def CH (x y z : uint32_t) : uint32_t := (x &&& y) ^^^ (~~~x &&& z)
def MAJ (x y z : uint32_t) : uint32_t := (x &&& y) ^^^ (x &&& z) ^^^ (y &&& z)
def EP0 (x : uint32_t) : uint32_t := ROTRIGHT x 2 ^^^ ROTRIGHT x 13 ^^^ ROTRIGHT x 22
def EP1 (x : uint32_t) : uint32_t := ROTRIGHT x 6 ^^^ ROTRIGHT x 11 ^^^ ROTRIGHT x 25
def SIG0 (x : uint32_t) : uint32_t := ROTRIGHT x 7 ^^^ ROTRIGHT x 18 ^^^ (x >>> 3)
def SIG1 (x : uint32_t) : uint32_t := ROTRIGHT x 17 ^^^ ROTRIGHT x 19 ^^^ (x >>> 10)

def K : List uint32_t := [
  0x428a2f98,0x71374491,0xb5c0fbcf,0xe9b5dba5,0x3956c25b,0x59f111f1,0x923f82a4,0xab1c5ed5,
  0xd807aa98,0x12835b01,0x243185be,0x550c7dc3,0x72be5d74,0x80deb1fe,0x9bdc06a7,0xc19bf174,
  0xe49b69c1,0xefbe4786,0x0fc19dc6,0x240ca1cc,0x2de92c6f,0x4a7484aa,0x5cb0a9dc,0x76f988da,
  0x983e5152,0xa831c66d,0xb00327c8,0xbf597fc7,0xc6e00bf3,0xd5a79147,0x06ca6351,0x14292967,
  0x27b70a85,0x2e1b2138,0x4d2c6dfc,0x53380d13,0x650a7354,0x766a0abb,0x81c2c92e,0x92722c85,
  0xa2bfe8a1,0xa81a664b,0xc24b8b70,0xc76c51a3,0xd192e819,0xd6990624,0xf40e3585,0x106aa070,
  0x19a4c116,0x1e376c08,0x2748774c,0x34b0bcb5,0x391c0cb3,0x4ed8aa4a,0x5b9cca4f,0x682e6ff3,
  0x748f82ee,0x78a5636f,0x84c87814,0x8cc70208,0x90befffa,0xa4506ceb,0xbef9a3f7,0xc67178f2]

/-- Four bytes read into a register of a little-endian machine. -/
def native32 (p : Bytes) : uint32_t :=
  (p.getD 3 0).toBitVec ++ (p.getD 2 0).toBitVec ++ (p.getD 1 0).toBitVec ++ (p.getD 0 0).toBitVec

def AV_BSWAP32 (x : uint32_t) : uint32_t :=
  x.extractLsb' 0 8 ++ x.extractLsb' 8 8 ++ x.extractLsb' 16 8 ++ x.extractLsb' 24 8

def load_be32 (p : Bytes) : uint32_t := AV_BSWAP32 (native32 p)

/-- `w[i]` for the next `i`, from the words before it. -/
def extended (w : List uint32_t) (i : Nat) : List uint32_t :=
  w ++ [SIG1 (w.getD (i - 2) 0) + w.getD (i - 7) 0 + SIG0 (w.getD (i - 15) 0) + w.getD (i - 16) 0]

def message_words (block : Block) : List uint32_t :=
  (List.range' 16 48).foldl extended ((List.range 16).map fun i => load_be32 (block.bytes.drop (i * 4)))

/-- One turn of the loop over the eight local variables. -/
def round (w : List uint32_t) (v : SecureHash.Work) (i : Nat) : SecureHash.Work :=
  let t1 := v.h + EP1 v.e + CH v.e v.f v.g + K.getD i 0 + w.getD i 0
  let t2 := EP0 v.a + MAJ v.a v.b v.c
  { h := v.g, g := v.f, f := v.e, e := v.d + t1, d := v.c, c := v.b, b := v.a, a := t1 + t2 }

def sha256_blocks_scalar (state : State) (block : Block) : State :=
  let v := (List.range 64).foldl (round (message_words block))
    ⟨state[0],state[1],state[2],state[3],state[4],state[5],state[6],state[7]⟩
  #v[state[0] + v.a,state[1] + v.b,state[2] + v.c,state[3] + v.d,
    state[4] + v.e,state[5] + v.f,state[6] + v.g,state[7] + v.h]

/-! The streaming object; `block_fn` is the backend. -/

structure SHA256 where
  data : Block
  datalen : Nat
  bitlen : BitVec 64
  state : State
  room : datalen < 64

/-- A new object; the constructor leaves the buffer as it is. -/
def SHA256.new (data : Block) : SHA256 where
  data := data
  datalen := 0
  bitlen := 0
  state := #v[0x6a09e667,0xbb67ae85,0x3c6ef372,0xa54ff53a,0x510e527f,0x9b05688c,0x1f83d9ab,0x5be0cd19]
  room := by omega

/-- What a loop over whole blocks leaves. -/
structure Tail where
  bytes : Bytes
  short : bytes.length < 64

namespace SHA256

variable (block_fn : State → Block → State)

/-- Fills a pending block; the second part is `i`, the bytes taken. -/
def top_up (self : SHA256) (data_in : Bytes) : SHA256 × Nat :=
  if 0 < self.datalen then
    let take := min (64 - self.datalen) data_in.length
    let data := self.data.memcpy self.datalen (data_in.take take)
      (by have room := self.room; rw [List.length_take]; omega)
    if full : self.datalen + take = 64 then
      ({ data, datalen := 0, bitlen := self.bitlen + 512, state := block_fn self.state data, room := by omega },take)
    else
      ({ self with data, datalen := self.datalen + take, room := by have room := self.room; omega },take)
  else (self,0)

/-- `while (length - i >= 64)`, on what is left of the input. -/
def whole_blocks (self : SHA256) (rest : Bytes) : SHA256 × Tail :=
  if large : 64 ≤ rest.length then
    let data := self.data.memcpy 0 (rest.take 64) (by rw [List.length_take]; omega)
    whole_blocks { self with data, state := block_fn self.state data, bitlen := self.bitlen + 512 } (rest.drop 64)
  else (self,⟨rest,by omega⟩)
termination_by rest.length
decreasing_by rw [List.length_drop]; omega

/-- What is left goes into the buffer, which is empty. -/
def keep_tail (self : SHA256) (tail : Tail) : SHA256 :=
  if tail.bytes = [] then self
  else { self with
    data := self.data.memcpy 0 tail.bytes (by have short := tail.short; omega)
    datalen := tail.bytes.length
    room := tail.short }

def update (self : SHA256) (data_in : Bytes) : SHA256 :=
  let topped := top_up block_fn self data_in
  let done := whole_blocks block_fn topped.1 (data_in.drop topped.2)
  keep_tail done.1 done.2

/-- The end mark, and zeros up to where the length stands; in a block of its own where it does not fit. -/
def finish (self : SHA256) : State × Block :=
  if small : self.datalen < 56 then
    (self.state,self.data.memcpy self.datalen (0x80::List.replicate (55 - self.datalen) 0)
      (by rw [List.length_cons,List.length_replicate]; omega))
  else
    let data := self.data.memcpy self.datalen (0x80::List.replicate (63 - self.datalen) 0)
      (by have room := self.room; rw [List.length_cons,List.length_replicate]; omega)
    (block_fn self.state data,data.memcpy 0 (List.replicate 56 0) (by rw [List.length_replicate]; omega))

/-- `data[56]` to `data[63]`. -/
def length_bytes (bitlen : BitVec 64) : Bytes :=
  [uint8_t (bitlen >>> 56),uint8_t (bitlen >>> 48),uint8_t (bitlen >>> 40),uint8_t (bitlen >>> 32),
    uint8_t (bitlen >>> 24),uint8_t (bitlen >>> 16),uint8_t (bitlen >>> 8),uint8_t bitlen]

theorem length_bytes_fits (bitlen : BitVec 64) : 56 + (length_bytes bitlen).length ≤ 64 := Nat.le_refl 64

/-- `m_hash[i + 4 * j]` for `i` below four and every word `j` of the state. -/
def m_hash (state : State) : Bytes :=
  state.toList.flatMap fun (s : uint32_t) => (List.range 4).map fun i => uint8_t (s >>> (24 - i * 8) &&& (0x000000ff : uint32_t))

/-- The object after the call, and the digest. -/
def digest (self : SHA256) : SHA256 × Bytes :=
  let finished := finish block_fn self
  let bitlen := self.bitlen + BitVec.ofNat 64 (self.datalen * 8)
  let data := finished.2.memcpy 56 (length_bytes bitlen) (length_bytes_fits bitlen)
  let state := block_fn finished.1 data
  ({ self with data, bitlen, state },m_hash state)

def kHex : List Char := "0123456789abcdef".toList

def toString (digest : Bytes) : String := String.ofList
  ((List.range 32).flatMap fun i => [kHex.getD (digest.getD i 0 >>> 4).toNat '0',kHex.getD (digest.getD i 0 &&& 0x0f).toNat '0'])

def hexdigest (self : SHA256) : String := toString (digest block_fn self).2

end SHA256

/-! The compressor is the one of the standard. -/

theorem ROTRIGHT_eq {a : uint32_t} {b : Nat} (small : b < 32) : ROTRIGHT a b = a.rotateRight b := by
  rw [BitVec.rotateRight_def,Nat.mod_eq_of_lt small,ROTRIGHT]

theorem EP0_eq (x : uint32_t) : EP0 x = SecureHash.Sigma0 x := by
  rw [EP0,ROTRIGHT_eq (by omega),ROTRIGHT_eq (by omega),ROTRIGHT_eq (by omega),SecureHash.Sigma0]

theorem EP1_eq (x : uint32_t) : EP1 x = SecureHash.Sigma1 x := by
  rw [EP1,ROTRIGHT_eq (by omega),ROTRIGHT_eq (by omega),ROTRIGHT_eq (by omega),SecureHash.Sigma1]

theorem SIG0_eq (x : uint32_t) : SIG0 x = SecureHash.sigma0 x := by
  rw [SIG0,ROTRIGHT_eq (by omega),ROTRIGHT_eq (by omega),SecureHash.sigma0]

theorem SIG1_eq (x : uint32_t) : SIG1 x = SecureHash.sigma1 x := by
  rw [SIG1,ROTRIGHT_eq (by omega),ROTRIGHT_eq (by omega),SecureHash.sigma1]

theorem K_eq : K = SecureHash.constants := by decide +kernel

theorem append_toNat {m n : Nat} (x : BitVec m) (y : BitVec n) : (x ++ y).toNat = x.toNat * 2^n + y.toNat := by
  rw [BitVec.toNat_append,← Nat.shiftLeft_add_eq_or_of_lt y.isLt,Nat.shiftLeft_eq]

theorem bswap_native (b0 b1 b2 b3 : BitVec 8) : AV_BSWAP32 (b3 ++ b2 ++ b1 ++ b0) = b0 ++ b1 ++ b2 ++ b3 := by
  have zero : (b3 ++ b2 ++ b1 ++ b0).extractLsb' 0 8 = b0 := BitVec.extractLsb'_append_eq_right
  have one : (b3 ++ b2 ++ b1 ++ b0).extractLsb' 8 8 = b1 := by
    rw [BitVec.extractLsb'_append_eq_of_le (by omega)]
    exact BitVec.extractLsb'_append_eq_right
  have two : (b3 ++ b2 ++ b1 ++ b0).extractLsb' 16 8 = b2 := by
    rw [BitVec.extractLsb'_append_eq_of_le (by omega),BitVec.extractLsb'_append_eq_of_le (by omega)]
    exact BitVec.extractLsb'_append_eq_right
  have three : (b3 ++ b2 ++ b1 ++ b0).extractLsb' 24 8 = b3 := by
    rw [BitVec.extractLsb'_append_eq_of_le (by omega),BitVec.extractLsb'_append_eq_of_le (by omega)]
    exact BitVec.extractLsb'_append_eq_left
  rw [AV_BSWAP32,zero,one,two,three]

/-- A word of the message is its four bytes, the first one the most significant. -/
theorem load_be32_eq {p : Bytes} (enough : 4 ≤ p.length) :
    load_be32 p = BitVec.ofNat 32 (SecureHash.value (SecureHash.bits (p.take 4))) := by
  obtain ⟨b0,b1,b2,b3,rest,rfl⟩ : ∃ b0 b1 b2 b3 rest, p = b0::b1::b2::b3::rest := by
    rcases p with - | ⟨b0,- | ⟨b1,- | ⟨b2,- | ⟨b3,rest⟩⟩⟩⟩
    all_goals first | exact ⟨b0,b1,b2,b3,rest,rfl⟩ | (simp at enough)
  have bytes : SecureHash.bits [b0,b1,b2,b3] =
      SecureHash.bits_of 8 b0.toNat ++ SecureHash.bits_of 8 b1.toNat ++ SecureHash.bits_of 8 b2.toNat ++ SecureHash.bits_of 8 b3.toNat := by
    simp [SecureHash.bits]
  have swapped : load_be32 (b0::b1::b2::b3::rest) = b0.toBitVec ++ b1.toBitVec ++ b2.toBitVec ++ b3.toBitVec :=
    bswap_native b0.toBitVec b1.toBitVec b2.toBitVec b3.toBitVec
  have taken : (b0::b1::b2::b3::rest).take 4 = [b0,b1,b2,b3] := rfl
  have whole : ∀ b : UInt8, b.toNat % 2^8 = b.toNat := fun b => Nat.mod_eq_of_lt b.toNat_lt
  apply BitVec.eq_of_toNat_eq
  rw [swapped,taken,bytes,BitVec.toNat_ofNat,SecureHash.value_append,SecureHash.value_append,SecureHash.value_append]
  simp only [SecureHash.length_bits_of,SecureHash.value_bits_of,whole]
  rw [append_toNat,append_toNat,append_toNat,Nat.mod_eq_of_lt]
  · simp only [UInt8.toNat_toBitVec]
  · have := b0.toNat_lt
    have := b1.toNat_lt
    have := b2.toNat_lt
    have := b3.toNat_lt
    omega

def Block.word (block : Block) : Nat → SecureHash.Word := SecureHash.word (SecureHash.bits block.bytes)

theorem load_block (block : Block) {t : Nat} (inside : t < 16) : load_be32 (block.bytes.drop (t * 4)) = block.word t := by
  have sized := block.sized
  have four : (SecureHash.bits (block.bytes.drop (t * 4))).take 32 = SecureHash.bits ((block.bytes.drop (t * 4)).take 4) :=
    SecureHash.bits_take _ 4
  rw [load_be32_eq (by rw [List.length_drop]; omega),Block.word,SecureHash.word,← four]
  rw [show 32 * t = 8 * (t * 4) by omega,SecureHash.bits_drop]

theorem extended_schedule (M : Nat → SecureHash.Word) (n : Nat) :
    extended ((List.range (n + 16)).map (SecureHash.schedule M)) (n + 16) = (List.range (n + 17)).map (SecureHash.schedule M) := by
  have found : ∀ i, i < n + 16 → ((List.range (n + 16)).map (SecureHash.schedule M)).getD i 0 = SecureHash.schedule M i := by
    intro i inside
    simp [List.getD_eq_getElem?_getD,inside]
  rw [extended,found _ (by omega),found _ (by omega),found _ (by omega),found _ (by omega)]
  rw [List.range_succ (n := n + 16),List.map_append,List.map_singleton,SecureHash.schedule_add,SIG1_eq,SIG0_eq]
  rfl

theorem message_words_eq (block : Block) : message_words block = (List.range 64).map (SecureHash.schedule block.word) := by
  have start : ((List.range 16).map fun i => load_be32 (block.bytes.drop (i * 4))) =
      (List.range 16).map (SecureHash.schedule block.word) := by
    refine List.map_congr_left fun i inside => ?_
    have early := List.mem_range.mp inside
    rw [load_block block early,SecureHash.schedule_lt early]
  have grows : ∀ n, (List.range' 16 n).foldl extended ((List.range 16).map (SecureHash.schedule block.word)) =
      (List.range (n + 16)).map (SecureHash.schedule block.word) := by
    intro n
    induction n with
    | zero => rw [Nat.zero_add]; rfl
    | succ n ih =>
      rw [List.range'_concat,List.foldl_append,ih,List.foldl_cons,List.foldl_nil,Nat.one_mul,Nat.add_comm 16]
      exact extended_schedule block.word n
  rw [message_words,start]
  exact grows 48

theorem round_eq (block : Block) {t : Nat} (inside : t < 64) (v : SecureHash.Work) :
    round (message_words block) v t = SecureHash.round v (SecureHash.constants.getD t 0) (SecureHash.schedule block.word t) := by
  have found : (message_words block).getD t 0 = SecureHash.schedule block.word t := by
    rw [message_words_eq]
    simp [List.getD_eq_getElem?_getD,inside]
  rw [round,found,EP1_eq,EP0_eq,K_eq]
  rfl

theorem rounds_eq (block : Block) (v : SecureHash.Work) {n : Nat} (inside : n ≤ 64) :
    (List.range n).foldl (round (message_words block)) v = SecureHash.rounds (SecureHash.schedule block.word) v n := by
  induction n with
  | zero => rfl
  | succ n ih => rw [List.range_succ,List.foldl_append,ih (by omega),List.foldl_cons,List.foldl_nil,round_eq block inside]; rfl

def work (state : State) : SecureHash.Work :=
  ⟨state[0],state[1],state[2],state[3],state[4],state[5],state[6],state[7]⟩

/-- What a backend has to do. -/
def Compresses (block_fn : State → Block → State) : Prop :=
  ∀ state block, work (block_fn state block) = SecureHash.compress (work state) block.word

theorem scalar_compresses : Compresses sha256_blocks_scalar := by
  intro state block
  have ran := rounds_eq block (work state) (Nat.le_refl 64)
  unfold sha256_blocks_scalar SecureHash.compress
  rw [← ran]
  simp only [work,SecureHash.Work.add,BitVec.add_comm]
  rfl

end AetherVault.Sha256
