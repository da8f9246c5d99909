import AetherVault.Sha256
import Mathlib.Tactic.IntervalCases

/-! However a message is split into updates, `hexdigest` is the standard's digest of it. -/
namespace AetherVault.Sha256
open Lib SecureHash

theorem Block.memcpy_bytes (data : Block) {offset : Nat} {src : Bytes} (fits : offset + src.length ≤ 64) :
    (data.memcpy offset src fits).bytes = data.bytes.take offset ++ src ++ data.bytes.drop (offset + src.length) := rfl

theorem Block.memcpy_take (data : Block) {offset size : Nat} {src : Bytes} (fits : offset + src.length ≤ 64)
    (written : offset + src.length = size) :
    (data.memcpy offset src fits).bytes.take size = data.bytes.take offset ++ src := by
  have sized := data.sized
  rw [memcpy_bytes,List.take_left']
  rw [List.length_append,List.length_take]
  omega

theorem Block.memcpy_full (data : Block) {offset : Nat} {src : Bytes} (fits : offset + src.length ≤ 64)
    (full : offset + src.length = 64) : (data.memcpy offset src fits).bytes = data.bytes.take offset ++ src := by
  have taken := data.memcpy_take fits full
  rwa [List.take_of_length_le (Nat.le_of_eq (data.memcpy offset src fits).sized)] at taken

/-- The state has taken up the text, whole blocks of it. -/
def Compressed (state : State) (front : Bytes) : Prop :=
  front.length % 64 = 0 ∧ work state = absorb initial (bits front)

/-- The object after a message: what is not in the state is in the buffer, and what is in the state is counted. -/
def Absorbed (self : SHA256) (message : Bytes) : Prop :=
  ∃ front, Compressed self.state front ∧ message = front ++ self.data.bytes.take self.datalen ∧
    self.bitlen = BitVec.ofNat 64 (8 * front.length)

theorem initial_eq : initial =
    ⟨0x6a09e667,0xbb67ae85,0x3c6ef372,0xa54ff53a,0x510e527f,0x9b05688c,0x1f83d9ab,0x5be0cd19⟩ := by decide +kernel

theorem Absorbed.new (data : Block) : Absorbed (SHA256.new data) [] := by
  have started : work (SHA256.new data).state = initial := initial_eq.symm
  have none : absorb initial (bits []) = initial := absorb_short (by decide) _
  exact ⟨[],⟨rfl,started.trans none.symm⟩,rfl,rfl⟩

theorem keep_tail_absorbed {self : SHA256} {message : Bytes} (absorbed : Absorbed self message) {tail : Tail}
    (empty : self.datalen = 0 ∨ tail.bytes = []) : Absorbed (SHA256.keep_tail self tail) (message ++ tail.bytes) := by
  unfold SHA256.keep_tail
  by_cases none : tail.bytes = []
  · rw [if_pos none,none,List.append_nil]
    exact absorbed
  · rw [if_neg none]
    obtain ⟨front,compressed,split,counted⟩ := absorbed
    refine ⟨front,compressed,?_,counted⟩
    rw [Block.memcpy_take _ _ (Nat.zero_add _),split,empty.resolve_right none,List.take_zero,List.append_nil]
    rfl

/-! The padding, in one block or in two. -/

/-- The bytes that make the padding up to the length. -/
def marked (datalen : Nat) : Bytes :=
  0x80::List.replicate (if datalen < 56 then 55 - datalen else 119 - datalen) 0

theorem bits_zeros (n : Nat) : bits (List.replicate n 0) = List.replicate (8 * n) false := by
  induction n with
  | zero => rfl
  | succ n ih =>
    rw [List.replicate_succ,Nat.mul_succ,Nat.add_comm,List.replicate_add,← ih]
    rfl

theorem padding_eq {message : Bytes} {datalen : Nat} (remains : message.length % 64 = datalen) :
    padding (bits message).length = bits (marked datalen) ++ bits_of 64 (8 * message.length) := by
  have zeros : (447 + 512 - 8 * message.length % 512) % 512 =
      7 + 8 * (if datalen < 56 then 55 - datalen else 119 - datalen) := by
    split <;> omega
  have first : bits [0x80] = true::List.replicate 7 false := by decide
  have split : marked datalen = [0x80] ++ List.replicate (if datalen < 56 then 55 - datalen else 119 - datalen) 0 := rfl
  rw [padding,length_bits,zeros,split,bits_append,bits_zeros,first,List.replicate_add]
  simp only [List.cons_append,List.append_assoc]

@[simp] theorem bits_uint8_t {w : Nat} (x : BitVec w) : bits_of 8 (uint8_t x).toNat = bits_of 8 x.toNat := by
  rw [uint8_t,UInt8.toNat_ofNat',bits_of_mod 8 _ (Nat.le_refl 8)]

theorem bits_length_bytes (bitlen : BitVec 64) : bits (SHA256.length_bytes bitlen) = bits_of 64 bitlen.toNat := by
  have seven := bits_of_add 8 56 bitlen.toNat
  have six := bits_of_add 8 48 bitlen.toNat
  have five := bits_of_add 8 40 bitlen.toNat
  have four := bits_of_add 8 32 bitlen.toNat
  have three := bits_of_add 8 24 bitlen.toNat
  have two := bits_of_add 8 16 bitlen.toNat
  have one := bits_of_add 8 8 bitlen.toNat
  rw [seven,six,five,four,three,two,one]
  simp only [SHA256.length_bytes,bits,List.flatMap_cons,List.flatMap_nil,bits_uint8_t,BitVec.toNat_ushiftRight,
    Nat.shiftRight_eq_div_pow,List.append_nil]

section Backend

variable {block_fn : State → Block → State} (correct : Compresses block_fn)
include correct

theorem Compressed.next {state : State} {front : Bytes} (compressed : Compressed state front) (block : Block) :
    Compressed (block_fn state block) (front ++ block.bytes) := by
  obtain ⟨whole,same⟩ := compressed
  have sized := block.sized
  have next : work (block_fn state block) = absorb initial (bits (front ++ block.bytes)) := by
    rw [correct,same,bits_append,absorb_append (by rw [length_bits]; omega)]
    rw [absorb_block (show (bits block.bytes).length = 512 by rw [length_bits]; omega)]
    rfl
  exact ⟨by rw [List.length_append]; omega,next⟩

/-- One more block is 512 more bits. -/
theorem Absorbed.next {self : SHA256} {message : Bytes} {front : Bytes} (compressed : Compressed self.state front)
    (counted : self.bitlen = BitVec.ofNat 64 (8 * front.length)) {data : Block} (read : front ++ data.bytes = message)
    {next : SHA256} (state : next.state = block_fn self.state data) (bitlen : next.bitlen = self.bitlen + 512)
    (empty : next.datalen = 0) : Absorbed next message := by
  have longer : 8 * (front ++ data.bytes).length = 8 * front.length + 512 := by
    rw [List.length_append,data.sized]
    omega
  refine ⟨front ++ data.bytes,state ▸ compressed.next correct data,?_,?_⟩
  · rw [empty,List.take_zero,List.append_nil,read]
  · rw [bitlen,counted,longer,BitVec.ofNat_add]
    rfl

theorem top_up_absorbed {self : SHA256} {message : Bytes} (absorbed : Absorbed self message) (data_in : Bytes) :
    let topped := SHA256.top_up block_fn self data_in
    Absorbed topped.1 (message ++ data_in.take topped.2) ∧ (topped.1.datalen = 0 ∨ data_in.drop topped.2 = []) := by
  obtain ⟨front,compressed,split,counted⟩ := absorbed
  have room := self.room
  unfold SHA256.top_up
  by_cases pending : 0 < self.datalen
  · rw [if_pos pending]
    have took : (data_in.take (min (64 - self.datalen) data_in.length)).length = min (64 - self.datalen) data_in.length := by
      rw [List.length_take]
      omega
    by_cases full : self.datalen + min (64 - self.datalen) data_in.length = 64
    · rw [dif_pos full]
      refine ⟨Absorbed.next correct compressed counted ?_ rfl rfl rfl,.inl rfl⟩
      rw [Block.memcpy_full _ _ (by rw [took]; exact full),split,List.append_assoc]
    · rw [dif_neg full]
      refine ⟨⟨front,compressed,?_,counted⟩,.inr ?_⟩
      · rw [Block.memcpy_take _ _ (by rw [took]),split,List.append_assoc]
      · exact List.drop_of_length_le (by omega)
  · rw [if_neg pending]
    refine ⟨?_,.inl (Nat.eq_zero_of_not_pos pending)⟩
    rw [List.take_zero,List.append_nil]
    exact ⟨front,compressed,split,counted⟩

theorem whole_blocks_absorbed {self : SHA256} {message : Bytes} (absorbed : Absorbed self message) (rest : Bytes)
    (empty : self.datalen = 0 ∨ rest = []) :
    ∃ used, rest = used ++ (SHA256.whole_blocks block_fn self rest).2.bytes ∧
      Absorbed (SHA256.whole_blocks block_fn self rest).1 (message ++ used) ∧
      ((SHA256.whole_blocks block_fn self rest).1.datalen = 0 ∨ (SHA256.whole_blocks block_fn self rest).2.bytes = []) := by
  induction self, rest using SHA256.whole_blocks.induct block_fn generalizing message with
  | case1 self rest large data =>
    rename_i ih
    have start : self.datalen = 0 := by
      rcases empty with zero | nil
      · exact zero
      · rw [nil] at large
        exact absurd large (by decide)
    obtain ⟨front,compressed,split,counted⟩ := absorbed
    have full : 0 + (rest.take 64).length = 64 := by
      rw [List.length_take]
      omega
    have read : front ++ (self.data.memcpy 0 (rest.take 64) (Nat.le_of_eq full)).bytes = message ++ rest.take 64 := by
      rw [self.data.memcpy_full _ full,split,start]
      simp
    obtain ⟨used,left,more,left_over⟩ := ih (Absorbed.next correct compressed counted read rfl rfl start) (.inl start)
    rw [SHA256.whole_blocks,dif_pos large]
    refine ⟨rest.take 64 ++ used,?_,?_,left_over⟩
    · rw [List.append_assoc,← left,List.take_append_drop]
    · rwa [← List.append_assoc]
  | case2 self rest small =>
    rw [SHA256.whole_blocks,dif_neg small]
    refine ⟨[],rfl,?_,empty⟩
    rwa [List.append_nil]

/-- Every update adds its bytes, none included. -/
theorem update_absorbed {self : SHA256} {message : Bytes} (absorbed : Absorbed self message) (data_in : Bytes) :
    Absorbed (SHA256.update block_fn self data_in) (message ++ data_in) := by
  obtain ⟨topped,left_over⟩ := top_up_absorbed correct absorbed data_in
  obtain ⟨used,left,done,empty⟩ := whole_blocks_absorbed correct topped _ left_over
  have kept := keep_tail_absorbed done empty
  rwa [List.append_assoc,← left,List.append_assoc,List.take_append_drop] at kept

theorem updates_absorbed {self : SHA256} {message : Bytes} (absorbed : Absorbed self message) (chunks : List Bytes) :
    Absorbed (chunks.foldl (SHA256.update block_fn) self) (message ++ chunks.flatten) := by
  induction chunks generalizing self message with
  | nil => rwa [List.flatten_nil,List.append_nil]
  | cons data_in rest ih =>
    rw [List.flatten_cons,← List.append_assoc]
    exact ih (update_absorbed correct absorbed data_in)

theorem finish_compressed {self : SHA256} {front : Bytes} (compressed : Compressed self.state front) :
    ∃ before, Compressed (SHA256.finish block_fn self).1 before ∧
      before ++ (SHA256.finish block_fn self).2.bytes.take 56 = front ++ self.data.bytes.take self.datalen ++ marked self.datalen := by
  have room := self.room
  unfold SHA256.finish marked
  by_cases small : self.datalen < 56
  · rw [dif_pos small,if_pos small]
    refine ⟨front,compressed,?_⟩
    rw [Block.memcpy_take _ _ (by rw [List.length_cons,List.length_replicate]; omega),List.append_assoc]
  · rw [dif_neg small,if_neg small]
    have full : self.datalen + (0x80::List.replicate (63 - self.datalen) 0 : Bytes).length = 64 := by
      rw [List.length_cons,List.length_replicate]
      omega
    refine ⟨_,compressed.next correct _,?_⟩
    have more : (119 - self.datalen) = 63 - self.datalen + 56 := by omega
    rw [Block.memcpy_take _ _ (by rw [List.length_replicate]),Block.memcpy_full _ _ full,more,List.replicate_add]
    simp only [List.take_zero,List.nil_append,List.append_assoc,List.cons_append]

/-- The padded message is what the state has taken up in the end. -/
theorem digest_absorbed {self : SHA256} {message : Bytes} (absorbed : Absorbed self message) :
    work (SHA256.digest block_fn self).1.state = absorb initial (padded (bits message)) := by
  obtain ⟨front,compressed,split,counted⟩ := absorbed
  have room := self.room
  have sized := self.data.sized
  have length : message.length = front.length + self.datalen := by
    rw [split,List.length_append,List.length_take]
    omega
  obtain ⟨before,ready,read⟩ := finish_compressed correct compressed
  have bitlen : self.bitlen + BitVec.ofNat 64 (self.datalen * 8) = BitVec.ofNat 64 (8 * message.length) := by
    rw [counted,length,← BitVec.ofNat_add,Nat.mul_comm self.datalen,Nat.mul_add]
  obtain ⟨-,same⟩ := ready.next correct
    ((SHA256.finish block_fn self).2.memcpy 56 (SHA256.length_bytes (BitVec.ofNat 64 (8 * message.length)))
      (SHA256.length_bytes_fits _))
  have remains : message.length % 64 = self.datalen := by
    have whole := compressed.1
    omega
  rw [Block.memcpy_full _ _ rfl,← List.append_assoc,read,← split,bits_append,bits_append,bits_length_bytes] at same
  rw [BitVec.toNat_ofNat,bits_of_mod 64 _ (Nat.le_refl 64),List.append_assoc,← padding_eq remains] at same
  rw [padded,← same,← bitlen]
  rfl

end Backend

/-! The digest in hexadecimal. -/

theorem toList_eq (state : State) : state.toList = (work state).words := by
  apply List.ext_getElem
  · rw [Vector.length_toList]
    rfl
  · intro i inside _
    rw [Vector.length_toList] at inside
    rw [Vector.getElem_toList]
    interval_cases i <;> rfl

theorem bits_m_hash (state : State) : bits (SHA256.m_hash state) = (work state).words.flatMap fun w => bits_of 32 w.toNat := by
  have byte : ∀ (s : uint32_t) (k : Nat), bits_of 8 (uint8_t (s >>> k &&& 0x000000ff)).toNat = bits_of 8 (s.toNat / 2^k) := by
    intro s k
    have low : (0x000000ff : uint32_t).toNat = 2^8 - 1 := rfl
    rw [bits_uint8_t,BitVec.toNat_and,low,Nat.and_two_pow_sub_one_eq_mod,bits_of_mod 8 _ (Nat.le_refl 8)]
    rw [BitVec.toNat_ushiftRight,Nat.shiftRight_eq_div_pow]
  rw [bits,SHA256.m_hash,List.flatMap_assoc,toList_eq]
  congr 1
  funext s
  have three := bits_of_add 8 24 s.toNat
  have two := bits_of_add 8 16 s.toNat
  have one := bits_of_add 8 8 s.toNat
  rw [three,two,one,show List.range 4 = [0,1,2,3] from rfl]
  simp only [List.map_cons,List.map_nil,List.flatMap_cons,List.flatMap_nil,byte,List.append_nil]
  simp

theorem hexadecimal_bits (message : Bytes) : hexadecimal (bits message) = hex message := by
  have nibble : ∀ (n : Nat) (rest : List Bool), hexadecimal (bits_of 4 n ++ rest) = (n % 16).digitChar::hexadecimal rest := by
    intro n rest
    have four : bits_of 4 n = [n.testBit 3,n.testBit 2,n.testBit 1,n.testBit 0] := rfl
    have read := value_bits_of 4 n
    rw [four] at read
    rw [four,List.cons_append,List.cons_append,List.cons_append,List.cons_append,List.nil_append,hexadecimal,read]
    rfl
  induction message with
  | nil => rfl
  | cons b rest ih =>
    have halves : bits (b::rest) = bits_of 4 (b.toNat / 2^4) ++ (bits_of 4 b.toNat ++ bits rest) := by
      rw [← List.append_assoc,← bits_of_add]
      rfl
    have small : b.toNat / 2^4 % 16 = b.toNat / 16 := Nat.mod_eq_of_lt (by have := b.toNat_lt; omega)
    rw [halves,nibble,nibble,ih,small]
    rfl

theorem kHex_digit {n : Nat} (small : n < 16) : SHA256.kHex.getD n '0' = n.digitChar := by
  interval_cases n <;> rfl

theorem toString_eq {digest : Bytes} (sized : digest.length = 32) : SHA256.toString digest = String.ofList (hex digest) := by
  have pair : ∀ b : UInt8, [SHA256.kHex.getD (b >>> 4).toNat '0',SHA256.kHex.getD (b &&& 0x0f).toNat '0'] = hex_pair b := by
    intro b
    have bound := b.toNat_lt
    have high : (b >>> 4).toNat = b.toNat / 16 := by
      rw [UInt8.toNat_shiftRight]
      exact Nat.shiftRight_eq_div_pow _ _
    have low : (b &&& 0x0f).toNat = b.toNat % 16 := by
      rw [UInt8.toNat_and]
      exact Nat.and_two_pow_sub_one_eq_mod _ 4
    rw [high,low,kHex_digit (by omega),kHex_digit (by omega),hex_pair]
  have read : (List.range 32).map (fun i => digest.getD i 0) = digest := by
    apply List.ext_getElem
    · rw [List.length_map,List.length_range,sized]
    · intro i _ inside
      simp [List.getD_eq_getElem?_getD,inside]
  rw [SHA256.toString]
  congr 1
  simp only [pair]
  rw [← List.flatMap_map,read,hex]

theorem hexdigest_streamed {block_fn : State → Block → State} (correct : Compresses block_fn) (data : Block) (chunks : List Bytes) :
    SHA256.hexdigest block_fn (chunks.foldl (SHA256.update block_fn) (SHA256.new data)) =
      String.ofList (hexadecimal (SecureHash.digest (bits chunks.flatten))) := by
  have absorbed := updates_absorbed correct (Absorbed.new data) chunks
  have final := digest_absorbed correct absorbed
  have sized : (SHA256.digest block_fn (chunks.foldl (SHA256.update block_fn) (SHA256.new data))).2.length = 32 := by
    rw [SHA256.digest,SHA256.m_hash]
    simp
  rw [SHA256.hexdigest,toString_eq sized,← hexadecimal_bits,SHA256.digest,bits_m_hash,SecureHash.digest]
  rw [List.nil_append] at final
  rw [← final]
  rfl

/-- Beyond 2^61 bytes, where the standard stops, the length field is the low half of the length. -/
theorem streaming_digest (data : Block) (chunks : List Bytes) :
    SHA256.hexdigest sha256_blocks_scalar (chunks.foldl (SHA256.update sha256_blocks_scalar) (SHA256.new data)) =
      String.ofList (hexadecimal (SecureHash.digest (bits chunks.flatten))) :=
  hexdigest_streamed scalar_compresses data chunks

end AetherVault.Sha256
