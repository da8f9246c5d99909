import AetherVault.Cdc
import AetherVault.Lib.Chunking

/-! What the chunker promises: its decision depends on the bytes of the current chunk and on how many follow, so the
fused and the two-pass path agree, the chunks keep their bounds, and cutting is local. -/
namespace AetherVault
open Lib Hashing

/-- The parameters both paths accept, below the sizes at which `pow2 * 2` would wrap. -/
structure ChunkSizes.Supported (sizes : ChunkSizes) : Prop where
  positive : 0 < sizes.min_chunk.toNat
  min_avg : sizes.min_chunk.toNat ≤ sizes.avg_chunk.toNat
  avg_max : sizes.avg_chunk.toNat ≤ sizes.max_chunk.toNat
  bounded : sizes.max_chunk.toNat < 2^63

namespace ChunkSizes

theorem Supported.valid {sizes : ChunkSizes} (supported : sizes.Supported) : sizes.invalid = false := by
  have positive := supported.positive
  have min_avg := supported.min_avg
  have avg_max := supported.avg_max
  have some_min : sizes.min_chunk ≠ 0 := by
    intro zero
    rw [zero] at positive
    contradiction
  simp only [invalid,Bool.or_eq_false_iff,beq_eq_false_iff_ne,decide_eq_false_iff_not,UInt64.lt_iff_toNat_lt]
  exact ⟨⟨some_min,by omega⟩,by omega⟩

/-- The rolling hash of the bytes since the last cut. -/
def rolling (run : Bytes) : UInt64 := run.foldl (fun hash byte => (hash <<< 1) + gear byte) 0

theorem rolling_snoc (run : Bytes) (byte : UInt8) : rolling (run ++ [byte]) = (rolling run <<< 1) + gear byte := by
  simp [rolling]

def mask (sizes : ChunkSizes) : UInt64 := pow2_below sizes.avg_chunk 64 1 - 1

theorem pow2_below_power (avg_c : UInt64) (bounded : avg_c.toNat < 2^63) (fuel i : Nat) (enough : 64 ≤ fuel+i) (pow2 : UInt64)
    (power : pow2.toNat = 2^i) (below : 2^i ≤ avg_c.toNat) :
    ∃ k, (pow2_below avg_c fuel pow2).toNat = 2^k ∧ 2^k ≤ avg_c.toNat ∧ avg_c.toNat < 2^(k+1) := by
  have small : i < 63 := (Nat.pow_lt_pow_iff_right (by decide)).mp (lt_of_le_of_lt below bounded)
  induction fuel generalizing i pow2 with
  | zero => omega
  | succ fuel ih =>
    have double : (pow2 * 2).toNat = 2^(i+1) := by
      have room : 2^(i+1) < 2^64 := (Nat.pow_lt_pow_iff_right (by decide)).mpr (by omega)
      rw [UInt64.toNat_mul,power,← Nat.mod_eq_of_lt room,pow_succ]
      rfl
    rw [pow2_below]
    split
    · rename_i again
      rw [UInt64.le_iff_toNat_le,double] at again
      exact ih (i+1) (by omega) (pow2 * 2) double again ((Nat.pow_lt_pow_iff_right (by decide)).mp (lt_of_le_of_lt again bounded))
    · rename_i stop
      rw [UInt64.le_iff_toNat_le,double] at stop
      exact ⟨i,power,below,by omega⟩

/-- The mask keeps the low bits of the hash: one in `2^k` values meets it, `2^k` being the power just below `avg_chunk`. -/
theorem Supported.meets_mask {sizes : ChunkSizes} (supported : sizes.Supported) :
    ∃ k, 2^k ≤ sizes.avg_chunk.toNat ∧ sizes.avg_chunk.toNat < 2^(k+1) ∧
      ∀ hash : UInt64, hash &&& sizes.mask = 0 ↔ 2^k ∣ hash.toNat := by
  have positive := supported.positive
  have min_avg := supported.min_avg
  obtain ⟨k,power,below,above⟩ := pow2_below_power sizes.avg_chunk (lt_of_le_of_lt supported.avg_max supported.bounded) 64 0
    (by omega) 1 rfl (by omega)
  refine ⟨k,below,above,fun hash => ?_⟩
  have one : (1 : UInt64).toNat ≤ (pow2_below sizes.avg_chunk 64 1).toNat := by
    rw [power]
    exact Nat.one_le_two_pow
  have shape : sizes.mask.toNat = 2^k-1 := by
    rw [mask,UInt64.toNat_sub_of_le _ _ (UInt64.le_iff_toNat_le.mpr one),power]
    rfl
  rw [← UInt64.toNat_inj,UInt64.toNat_and,shape,Nat.and_two_pow_sub_one_eq_mod]
  exact (Nat.dvd_iff_mod_eq_zero ..).symm

/-- The cut decision, from the bytes of the chunk and how many are left after them. -/
def cuts (sizes : ChunkSizes) (run : Bytes) (left : Nat) : Bool :=
  decide ((rolling run &&& sizes.mask = 0 ∧ sizes.min_chunk.toNat ≤ run.length ∧ run.length < sizes.max_chunk.toNat ∨
    sizes.max_chunk.toNat ≤ run.length ∨
    left = sizes.min_chunk.toNat ∧ sizes.min_chunk.toNat ≤ run.length ∧
      sizes.max_chunk.toNat < run.length+sizes.min_chunk.toNat) ∧
    sizes.min_chunk.toNat ≤ left ∧ 0 < left)

theorem cuts_stop (sizes : ChunkSizes) (run : Bytes) : sizes.cuts run 0 = false := by
  simp [cuts]

end ChunkSizes

/-- The cutter of a file in which `left` bytes follow the bytes `run` of the current chunk. -/
structure CdcCutter.At (sizes : ChunkSizes) (c : CdcCutter) (run : Bytes) (left : Nat) : Prop where
  mask : c.mask = sizes.mask
  min_chunk : c.min_chunk = sizes.min_chunk
  max_chunk : c.max_chunk = sizes.max_chunk
  last_valid : c.last_valid_cut_pos = if c.file_size > sizes.min_chunk then c.file_size - sizes.min_chunk else 0
  hash : c.hash = ChunkSizes.rolling run
  chunk : c.pos.toNat = c.chunk_start.toNat+run.length
  file : c.file_size.toNat = c.pos.toNat+left

theorem CdcCutter.At.new (sizes : ChunkSizes) (file : FileData) :
    (CdcCutter.new sizes (UInt64.ofNat file.bytes.length)).At sizes [] file.bytes.length :=
  ⟨rfl,rfl,rfl,rfl,rfl,rfl,by
    change (UInt64.ofNat file.bytes.length).toNat = 0+file.bytes.length
    rw [UInt64.toNat_ofNat',Nat.mod_eq_of_lt file.fits,Nat.zero_add]⟩

section
variable {sizes : ChunkSizes} {c : CdcCutter} {run : Bytes} {left : Nat}

theorem CdcCutter.At.next_pos (reached : c.At sizes run (left+1)) : (c.pos+1).toNat = c.pos.toNat+1 := by
  have file := reached.file
  have fits := c.file_size.toNat_lt
  rw [UInt64.toNat_add]
  change (c.pos.toNat+1) % 2^64 = _
  omega

theorem CdcCutter.At.size_so_far (reached : c.At sizes run (left+1)) : (c.pos+1-c.chunk_start).toNat = run.length+1 := by
  have chunk := reached.chunk
  rw [UInt64.toNat_sub_of_le _ _ (UInt64.le_iff_toNat_le.mpr (by rw [reached.next_pos]; omega)),reached.next_pos]
  omega

theorem CdcCutter.At.remaining (reached : c.At sizes run (left+1)) : (c.file_size-(c.pos+1)).toNat = left := by
  have file := reached.file
  rw [UInt64.toNat_sub_of_le _ _ (UInt64.le_iff_toNat_le.mpr (by rw [reached.next_pos]; omega)),reached.next_pos]
  omega

/-- The position named for the last chance is the one with `min_chunk` bytes behind it. -/
theorem CdcCutter.At.at_last_valid (supported : sizes.Supported) (reached : c.At sizes run (left+1)) :
    c.pos+1 = c.last_valid_cut_pos ↔ left = sizes.min_chunk.toNat := by
  have file := reached.file
  have positive := supported.positive
  rw [reached.last_valid,← UInt64.toNat_inj,reached.next_pos]
  split
  · rename_i longer
    have longer' : sizes.min_chunk.toNat < c.file_size.toNat := UInt64.lt_iff_toNat_lt.mp longer
    rw [UInt64.toNat_sub_of_le _ _ (UInt64.le_iff_toNat_le.mpr (by omega))]
    omega
  · rename_i shorter
    have shorter' : ¬sizes.min_chunk.toNat < c.file_size.toNat := fun lt => shorter (UInt64.lt_iff_toNat_lt.mpr lt)
    change c.pos.toNat+1 = 0 ↔ _
    omega

/-- `size_so_far + min_chunk` wraps only past `max_chunk`, where the chunk is cut anyway. -/
theorem CdcCutter.At.feed_cuts (supported : sizes.Supported) (reached : c.At sizes run (left+1)) (byte : UInt8) :
    (c.feed byte).1 = sizes.cuts (run ++ [byte]) left := by
  have so_far := reached.size_so_far
  have remaining := reached.remaining
  have tail := reached.at_last_valid supported
  have next := reached.next_pos
  have file := reached.file
  have bounded := supported.bounded
  have max_large : sizes.min_chunk.toNat ≤ sizes.max_chunk.toNat := supported.min_avg.trans supported.avg_max
  have fits := c.file_size.toNat_lt
  have chunk := reached.chunk
  have sum (small : run.length+1 < sizes.max_chunk.toNat) :
      (c.pos+1-c.chunk_start+sizes.min_chunk).toNat = run.length+1+sizes.min_chunk.toNat := by
    rw [UInt64.toNat_add,so_far]
    omega
  have decision : ((((c.hash <<< 1) + gear byte) &&& c.mask = 0 ∧ c.pos+1-c.chunk_start ≥ c.min_chunk ∧
      c.pos+1-c.chunk_start < c.max_chunk ∨ c.pos+1-c.chunk_start ≥ c.max_chunk ∨
      c.pos+1 = c.last_valid_cut_pos ∧ c.pos+1-c.chunk_start ≥ c.min_chunk ∧
        c.pos+1-c.chunk_start+c.min_chunk > c.max_chunk) ∧
      c.file_size-(c.pos+1) ≥ c.min_chunk ∧ c.pos+1 < c.file_size) ↔ sizes.cuts (run ++ [byte]) left = true := by
    rw [ChunkSizes.cuts,decide_eq_true_iff,ChunkSizes.rolling_snoc,reached.hash,reached.mask,reached.min_chunk,reached.max_chunk,
      tail]
    simp only [ge_iff_le,gt_iff_lt,UInt64.le_iff_toNat_le,UInt64.lt_iff_toNat_lt,so_far,remaining,next,List.length_append,
      List.length_singleton]
    by_cases small : run.length+1 < sizes.max_chunk.toNat
    · rw [sum small]
      have room : c.pos.toNat+1 < c.file_size.toNat ↔ 0 < left := by omega
      rw [room]
    · have full : sizes.max_chunk.toNat ≤ run.length+1 := by omega
      have room : c.pos.toNat+1 < c.file_size.toNat ↔ 0 < left := by omega
      simp only [full,true_or,or_true,true_and,room]
  rw [Bool.eq_iff_iff,← decision]
  unfold feed
  dsimp only
  split
  · rename_i cut
    exact iff_of_true rfl cut
  · rename_i kept
    exact iff_of_false Bool.false_ne_true kept

theorem CdcCutter.At.fed (supported : sizes.Supported) (reached : c.At sizes run (left+1)) (byte : UInt8) :
    (c.feed byte).2.At sizes (if sizes.cuts (run ++ [byte]) left then [] else run ++ [byte]) left := by
  have decision := reached.feed_cuts supported byte
  have next := reached.next_pos
  have chunk := reached.chunk
  have file := reached.file
  rw [← decision]
  unfold feed
  dsimp only
  split
  · exact ⟨reached.mask,reached.min_chunk,reached.max_chunk,reached.last_valid,rfl,rfl,by
      change c.file_size.toNat = (c.pos+1).toNat+left
      omega⟩
  · exact ⟨reached.mask,reached.min_chunk,reached.max_chunk,reached.last_valid,by
        change (c.hash <<< 1) + gear byte = ChunkSizes.rolling (run ++ [byte])
        rw [ChunkSizes.rolling_snoc,reached.hash],by
      change (c.pos+1).toNat = c.chunk_start.toNat+(run ++ [byte]).length
      rw [List.length_append,List.length_singleton]
      omega,by
      change c.file_size.toNat = (c.pos+1).toNat+left
      omega⟩

end

/-- The cutter's pieces are those of the decision alone. -/
theorem CdcCutter.At.pieces_split {sizes : ChunkSizes} (supported : sizes.Supported) {c : CdcCutter} {run rest : Bytes}
    (reached : c.At sizes run rest.length) : pieces c run rest = Chunking.split sizes.cuts run rest := by
  induction rest generalizing c run with
  | nil => rfl
  | cons byte rest ih =>
    have next := reached.fed supported byte
    rw [pieces,Chunking.split,reached.feed_cuts supported byte]
    split
    · rename_i cut
      rw [if_pos cut] at next
      rw [ih next]
    · rename_i kept
      rw [if_neg kept] at next
      exact ih next

variable {H : Type} [DecidableEq H] [Hashing H]

omit [DecidableEq H] in
theorem ChunkSizes.Supported.chunks {sizes : ChunkSizes} (supported : sizes.Supported) (file : FileData) :
    (chunk_and_hash_file_core file sizes : Except String (List (Chunk H))) =
      .ok (chunksOf 0 (Chunking.split sizes.cuts [] file.bytes)) := by
  rw [chunk_and_hash_file_core_ok file sizes supported.valid,(CdcCutter.At.new sizes file).pieces_split supported]

omit [DecidableEq H] in
theorem mem_chunksOf {start : Nat} {pieces : List Bytes} {chunk : Chunk H} (member : chunk ∈ (chunksOf start pieces : List (Chunk H))) :
    ∃ before piece after, pieces = before ++ piece::after ∧
      chunk = ⟨sha256 piece,piece.length,start+before.flatten.length⟩ := by
  induction pieces generalizing start with
  | nil => simp [chunksOf] at member
  | cons first rest ih =>
    rcases List.mem_cons.mp member with here | later
    · exact ⟨[],first,rest,rfl,by simpa using here⟩
    · obtain ⟨before,piece,after,shape,same⟩ := ih later
      refine ⟨first::before,piece,after,by simp [shape],?_⟩
      simp [same,Nat.add_assoc]

omit [DecidableEq H] in
theorem slice_piece (before after : List Bytes) (piece : Bytes) :
    slice (before ++ piece::after).flatten before.flatten.length piece.length = piece := by
  rw [List.flatten_append,List.flatten_cons]
  exact slice_append before.flatten piece after.flatten _ rfl

/-- Objects that hold their names' bytes give the pieces back by the chunks' hashes. -/
theorem chunks_read_back {objects : Objects H} (start : Nat) (blobs : List Bytes)
    (held : ∀ b ∈ blobs, objects.get? (sha256 b) = some b) :
    (chunksOf start blobs).mapM (fun chunk => objects.get? chunk.hash) = some blobs := by
  induction blobs generalizing start with
  | nil => rfl
  | cons piece rest ih =>
    have later := ih (start+piece.length) (fun b member => held b (by simp [member]))
    rw [chunksOf,List.mapM_cons,held piece (by simp),later]
    rfl

/-! The fused path against the two-pass one. -/

/-- However the file comes in read buffers, the fused path reports the chunks of the two-pass path and the hash of the
file, and what it publishes in their order is the file. -/
theorem fused_staging_agrees (objects : Objects H) (file : FileData) (sizes : ChunkSizes) (supported : sizes.Supported)
    (buffers : List Bytes) (read : buffers.flatten = file.bytes) :
    ∃ (chunks : List (Chunk H)) (after : Objects H) (written : Nat) (published : List Bytes),
      chunk_and_hash_file_core file sizes = .ok chunks ∧
      stage_cdc_core_parts_only objects file.bytes.length buffers sizes =
        (after,.ok ⟨sha256 file.bytes,written,chunks⟩) ∧
      chunks = chunksOf 0 published ∧ published.flatten = file.bytes ∧ after = objects.publishAll published ∧
      (objects.CollisionFree {b | b ∈ published} → chunks.mapM (fun chunk => after.get? chunk.hash) = some published) := by
  obtain ⟨written,staged⟩ := stage_cdc_core_ok objects buffers sizes supported.valid file.bytes.length
  have plain := chunk_and_hash_file_core_ok (H := H) file sizes supported.valid
  rw [read] at staged
  let published := pieces (CdcCutter.new sizes (UInt64.ofNat file.bytes.length)) [] file.bytes
  refine ⟨_,_,written,published,plain,staged,rfl,by simp [published,pieces_flatten],rfl,fun free => ?_⟩
  have held : ∀ b ∈ published, (objects.publishAll published).get? (sha256 b) = some b := fun b member =>
    Objects.publishAll_exact objects published {b | b ∈ published} (fun _ inside => inside) free member
  exact chunks_read_back 0 published held

/-- Two buffers, of which the first ends within a chunk. -/
theorem fused_staging_agrees_abc : ∃ (chunks : List (Chunk Name)) (after : Objects Name) (written : Nat) (published : List Bytes),
    chunk_and_hash_file_core ⟨[1,2,3],by decide⟩ ⟨1,1,2⟩ = .ok chunks ∧
    stage_cdc_core_parts_only Objects.empty 3 [[1,2],[3]] ⟨1,1,2⟩ = (after,.ok ⟨(sha256 [1,2,3] : Name),written,chunks⟩) ∧
    chunks = chunksOf 0 published ∧ published.flatten = [1,2,3] ∧ after = Objects.empty.publishAll published ∧
    ((Objects.empty : Objects Name).CollisionFree {b | b ∈ published} → chunks.mapM (fun chunk => after.get? chunk.hash) = some published) :=
  fused_staging_agrees Objects.empty ⟨[1,2,3],by decide⟩ ⟨1,1,2⟩ ⟨by decide,by decide,by decide,by decide⟩ [[1,2],[3]] rfl

/-! The chunks as a partition, and their sizes. -/

/-- The chunks follow each other from `start` to `stop`. -/
def Consecutive : Nat → Nat → List (Chunk H) → Prop
  | start,stop,[] => start = stop
  | start,stop,chunk::rest => chunk.offset = start ∧ Consecutive (start+chunk.size) stop rest

omit [DecidableEq H] in
theorem consecutive_chunksOf (start : Nat) (pieces : List Bytes) :
    Consecutive start (start+pieces.flatten.length) (chunksOf start pieces : List (Chunk H)) := by
  induction pieces generalizing start with
  | nil => rfl
  | cons piece rest ih =>
    refine ⟨rfl,?_⟩
    have later := ih (start+piece.length)
    rwa [Nat.add_assoc,← List.length_append] at later

/-- What one chunk of a file keeps to. -/
structure Chunk.Fits (file : FileData) (sizes : ChunkSizes) (chunk : Chunk H) : Prop where
  positive : file.bytes ≠ [] → 0 < chunk.size
  at_least_min : sizes.min_chunk.toNat ≤ chunk.size ∨ file.bytes.length < sizes.min_chunk.toNat
  below : chunk.size < sizes.max_chunk.toNat+sizes.min_chunk.toNat
  at_most_max : 2 * sizes.min_chunk.toNat ≤ sizes.max_chunk.toNat+1 → chunk.size ≤ sizes.max_chunk.toNat
  meets_mask : file.bytes.length ≤ sizes.max_chunk.toNat → chunk.offset+chunk.size ≠ file.bytes.length →
    ChunkSizes.rolling (slice file.bytes chunk.offset chunk.size) &&& sizes.mask = 0

section
variable {sizes : ChunkSizes} {content piece : Bytes} {before after : List Bytes}

theorem ChunkSizes.Supported.cut_at_least (supported : sizes.Supported) {left : Nat} (cut : sizes.cuts piece left = true) :
    sizes.min_chunk.toNat ≤ piece.length ∧ sizes.min_chunk.toNat ≤ left := by
  have order : sizes.min_chunk.toNat ≤ sizes.max_chunk.toNat := supported.min_avg.trans supported.avg_max
  rw [cuts,decide_eq_true_iff] at cut
  omega

/-- A piece reaches `min_chunk` by its own cut, or as the last one by what the cut before it left. -/
theorem ChunkSizes.Supported.piece_at_least (supported : sizes.Supported)
    (shape : Chunking.split sizes.cuts [] content = before ++ piece::after) :
    sizes.min_chunk.toNat ≤ piece.length ∨ content.length < sizes.min_chunk.toNat := by
  rcases (Chunking.split_pieces shape).2 with last | cut
  · subst last
    rcases before.eq_nil_or_concat with first | ⟨earlier,previous,snoc⟩
    · subst first
      have whole := Chunking.split_flatten sizes.cuts [] content
      rw [shape] at whole
      simp only [List.nil_append,List.flatten_cons,List.flatten_nil,List.append_nil] at whole
      rw [whole]
      omega
    · have regroup : Chunking.split sizes.cuts [] content = earlier ++ previous::[piece] := by simp [shape,snoc]
      rcases (Chunking.split_pieces regroup).2 with none | cut
      · simp at none
      · have left := (supported.cut_at_least cut).2
        simp only [List.flatten_cons,List.flatten_nil,List.append_nil] at left
        exact Or.inl left
  · exact Or.inl (supported.cut_at_least cut).1

/-- Past `max_chunk` a piece goes on only while fewer than `min_chunk` bytes would be left, so only at the end. -/
theorem ChunkSizes.Supported.piece_below (supported : sizes.Supported)
    (shape : Chunking.split sizes.cuts [] content = before ++ piece::after) :
    piece.length < sizes.max_chunk.toNat+sizes.min_chunk.toNat ∧
      (2 * sizes.min_chunk.toNat ≤ sizes.max_chunk.toNat+1 → piece.length ≤ sizes.max_chunk.toNat) := by
  obtain ⟨uncut,ending⟩ := Chunking.split_pieces shape
  have positive := supported.positive
  have order : sizes.min_chunk.toNat ≤ sizes.max_chunk.toNat := supported.min_avg.trans supported.avg_max
  by_cases within : piece.length ≤ sizes.max_chunk.toNat
  · exact ⟨by omega,fun _ => within⟩
  have at_max := uncut sizes.max_chunk.toNat (by omega) (by omega)
  rw [cuts,decide_eq_false_iff_not,List.length_take] at at_max
  rcases ending with last | cut
  · subst last
    rw [List.flatten_nil,List.length_nil] at at_max
    refine ⟨by omega,fun apart => ?_⟩
    have chance := uncut (piece.length-sizes.min_chunk.toNat) (by omega) (by omega)
    rw [cuts,decide_eq_false_iff_not,List.flatten_nil,List.length_nil,List.length_take] at chance
    omega
  · have left := (supported.cut_at_least cut).2
    omega

/-- In a file that fits one chunk neither the size limit nor the last chance is ever the reason of a cut. -/
theorem ChunkSizes.Supported.piece_meets_mask (supported : sizes.Supported) (short : content.length ≤ sizes.max_chunk.toNat)
    (shape : Chunking.split sizes.cuts [] content = before ++ piece::after) (more : after ≠ []) :
    rolling piece &&& sizes.mask = 0 := by
  have positive := supported.positive
  have whole := congrArg List.length (Chunking.split_flatten sizes.cuts [] content)
  rw [shape] at whole
  simp only [List.flatten_append,List.flatten_cons,List.length_append,List.nil_append] at whole
  rcases (Chunking.split_pieces shape).2 with last | cut
  · contradiction
  · rw [cuts,decide_eq_true_iff] at cut
    obtain ⟨reason,enough,-⟩ := cut
    rcases reason with boundary | overflow | chance
    · exact boundary.1
    · omega
    · omega

end

omit [DecidableEq H] in
/-- The chunks partition the file, an empty file into one empty chunk, and each keeps its bounds. -/
theorem chunks_partition (file : FileData) (sizes : ChunkSizes) (supported : sizes.Supported) :
    ∃ chunks : List (Chunk H), chunk_and_hash_file_core file sizes = .ok chunks ∧
      Consecutive 0 file.bytes.length chunks ∧ (file.bytes = [] → chunks = [⟨sha256 [],0,0⟩]) ∧
      ∀ chunk ∈ chunks, chunk.Fits file sizes := by
  have whole : (Chunking.split sizes.cuts [] file.bytes).flatten = file.bytes := Chunking.split_flatten sizes.cuts [] file.bytes
  refine ⟨_,supported.chunks file,?_,?_,?_⟩
  · have consecutive := consecutive_chunksOf (H := H) 0 (Chunking.split sizes.cuts [] file.bytes)
    rwa [whole,Nat.zero_add] at consecutive
  · intro empty
    rw [empty]
    rfl
  · intro chunk member
    obtain ⟨before,piece,after,shape,rfl⟩ := mem_chunksOf member
    have read : slice file.bytes (0+before.flatten.length) piece.length = piece := by
      rw [← whole,shape,Nat.zero_add]
      exact slice_piece before after piece
    refine ⟨?_,supported.piece_at_least shape,(supported.piece_below shape).1,(supported.piece_below shape).2,?_⟩
    · intro some_bytes
      have inside : piece ∈ Chunking.split sizes.cuts [] file.bytes := by simp [shape]
      exact List.length_pos_iff.mpr (Chunking.split_positive sizes.cuts_stop (by simpa using some_bytes) inside)
    · intro short inside
      rw [read]
      refine supported.piece_meets_mask short shape ?_
      intro last
      apply inside
      have size := congrArg List.length whole
      simpa [shape,last] using size

/-- A file of four bytes, with the parameters that cut at every byte. -/
theorem chunks_partition_four : ∃ chunks : List (Chunk Name), chunk_and_hash_file_core ⟨[1,2,3,4],by decide⟩ ⟨1,1,2⟩ = .ok chunks ∧
    Consecutive 0 4 chunks ∧ (([1,2,3,4] : Bytes) = [] → chunks = [⟨sha256 [],0,0⟩]) ∧
    ∀ chunk ∈ chunks, chunk.Fits ⟨[1,2,3,4],by decide⟩ ⟨1,1,2⟩ :=
  chunks_partition ⟨[1,2,3,4],by decide⟩ ⟨1,1,2⟩ ⟨by decide,by decide,by decide,by decide⟩

/-! Locality. -/

/-- Where a chunk begins or ends. -/
def cut_positions (chunks : List (Chunk H)) : List Nat := 0::chunks.map fun chunk => chunk.offset+chunk.size

/-- The sizes and hashes of the chunks past a position. -/
def chunks_past (p : Nat) (chunks : List (Chunk H)) : List (Nat × H) :=
  (chunks.filter fun chunk => p < chunk.offset+chunk.size).map fun chunk => (chunk.size,chunk.hash)

omit [DecidableEq H] in
theorem cut_positions_chunksOf (start : Nat) (pieces : List Bytes) :
    (chunksOf start pieces : List (Chunk H)).map (fun chunk => chunk.offset+chunk.size) = Chunking.ends start pieces := by
  induction pieces generalizing start with
  | nil => rfl
  | cons piece rest ih => simp [chunksOf,Chunking.ends,ih]

omit [DecidableEq H] in
theorem chunks_past_within (start p : Nat) (pieces : List Bytes) (within : start+pieces.flatten.length ≤ p) :
    chunks_past p (chunksOf start pieces : List (Chunk H)) = [] := by
  induction pieces generalizing start with
  | nil => rfl
  | cons piece rest ih =>
    rw [List.flatten_cons,List.length_append] at within
    have later := ih (start+piece.length) (by omega)
    rw [chunks_past,List.map_eq_nil_iff] at later ⊢
    rw [chunksOf,List.filter_cons_of_neg (by simpa using by omega),later]

omit [DecidableEq H] in
theorem chunks_past_beyond (start p : Nat) (pieces : List Bytes) (beyond : p ≤ start) (filled : ∀ piece ∈ pieces, piece ≠ []) :
    chunks_past p (chunksOf start pieces : List (Chunk H)) = pieces.map fun piece => (piece.length,sha256 piece) := by
  induction pieces generalizing start with
  | nil => rfl
  | cons piece rest ih =>
    have positive := List.length_pos_iff.mpr (filled piece (by simp))
    have later := ih (start+piece.length) (by omega) (fun other member => filled other (by simp [member]))
    rw [chunks_past] at later ⊢
    rw [chunksOf,List.filter_cons_of_pos (by simpa using by omega),List.map_cons,later,List.map_cons]

omit [DecidableEq H] in
/-- What lies past a cut at the end of `first` is cut from `rest` alone. -/
theorem ChunkSizes.Supported.past_cut {sizes : ChunkSizes} (supported : sizes.Supported) {file : FileData} {first rest : Bytes}
    (whole : file.bytes = first ++ rest) {chunks : List (Chunk H)} (cut : chunk_and_hash_file_core file sizes = .ok chunks)
    (position : first.length ∈ cut_positions chunks) :
    chunks_past first.length chunks =
      if rest = [] then [] else (Chunking.split sizes.cuts [] rest).map fun piece => (piece.length,sha256 piece) := by
  have same : chunksOf 0 (Chunking.split sizes.cuts [] file.bytes) = chunks :=
    Except.ok.inj ((supported.chunks file).symm.trans cut)
  have flat : (Chunking.split sizes.cuts [] file.bytes).flatten = file.bytes := Chunking.split_flatten sizes.cuts [] file.bytes
  subst same
  split
  · rename_i nothing
    exact chunks_past_within 0 _ _ (by rw [flat,whole,nothing,List.append_nil,Nat.zero_add])
  · rename_i more
    have parted : ∃ before after, Chunking.split sizes.cuts [] file.bytes = before ++ after ∧ before.flatten.length = first.length := by
      rw [cut_positions,cut_positions_chunksOf,List.mem_cons,Chunking.mem_ends] at position
      rcases position with start | later
      · exact ⟨[],_,rfl,by simp [start]⟩
      · obtain ⟨before,piece,after,shape,place⟩ := later
        refine ⟨before ++ [piece],after,by simp [shape],?_⟩
        simp [place]
    obtain ⟨before,after,shape,place⟩ := parted
    rw [shape,List.flatten_append,whole] at flat
    obtain ⟨-,tail⟩ := List.append_inj flat place
    have behind : after = Chunking.split sizes.cuts [] rest := by
      by_cases inside : before = []
      · subst inside
        rw [List.nil_append] at shape
        have nothing : first = [] := List.length_eq_zero_iff.mp place.symm
        rw [← shape,whole,nothing,List.nil_append]
      · have some_after : after ≠ [] := by
          intro none
          rw [none,List.flatten_nil] at tail
          exact more tail.symm
        rw [Chunking.split_behind inside some_after shape,tail]
    have filled : ∀ piece ∈ after, piece ≠ [] := by
      intro piece member
      rw [behind] at member
      exact Chunking.split_positive sizes.cuts_stop (by simpa using more) member
    have front := chunks_past_within (H := H) 0 first.length before (by omega)
    have back := chunks_past_beyond (H := H) (0+before.flatten.length) first.length after (by omega) filled
    rw [shape,chunksOf_append,chunks_past,List.filter_append,List.map_append]
    rw [chunks_past] at front back
    rw [front,back,List.nil_append,behind]

omit [DecidableEq H] in
/-- The rule does not tell apart how much is left, once that is more than `min_chunk`. -/
theorem ChunkSizes.cuts_far (sizes : ChunkSizes) (run : Bytes) (left other : Nat) (far : sizes.min_chunk.toNat < left)
    (far' : sizes.min_chunk.toNat < other) : sizes.cuts run left = sizes.cuts run other := by
  have no_chance : left ≠ sizes.min_chunk.toNat := by omega
  have no_chance' : other ≠ sizes.min_chunk.toNat := by omega
  rw [cuts,cuts,decide_eq_decide]
  simp only [no_chance,no_chance',false_and,or_false]
  exact and_congr_right fun _ => iff_of_true ⟨by omega,by omega⟩ ⟨by omega,by omega⟩

omit [DecidableEq H] in
/-- Behind a cut the chunks are those of what follows, and a common beginning is cut alike. -/
theorem chunking_local (sizes : ChunkSizes) (supported : sizes.Supported) :
    (∀ (x y s : Bytes) (first second : FileData), first.bytes = x ++ s → second.bytes = y ++ s →
      ∀ chunks others : List (Chunk H), chunk_and_hash_file_core first sizes = .ok chunks →
        chunk_and_hash_file_core second sizes = .ok others →
        x.length ∈ cut_positions chunks → y.length ∈ cut_positions others →
        chunks_past x.length chunks = chunks_past y.length others) ∧
    ∀ (p : Nat) (first second : FileData), first.bytes.take p = second.bytes.take p →
      p+sizes.min_chunk.toNat < first.bytes.length → p+sizes.min_chunk.toNat < second.bytes.length →
      ∀ chunks others : List (Chunk H), chunk_and_hash_file_core first sizes = .ok chunks →
        chunk_and_hash_file_core second sizes = .ok others →
        ∀ q ≤ p, q ∈ cut_positions chunks ↔ q ∈ cut_positions others := by
  constructor
  · intro x y s first second whole whole' chunks others cut cut' position position'
    rw [supported.past_cut whole cut position,supported.past_cut whole' cut' position']
  · intro p first second common long long' chunks others cut cut' q near
    have same : chunksOf 0 (Chunking.split sizes.cuts [] first.bytes) = chunks :=
      Except.ok.inj ((supported.chunks first).symm.trans cut)
    have same' : chunksOf 0 (Chunking.split sizes.cuts [] second.bytes) = others :=
      Except.ok.inj ((supported.chunks second).symm.trans cut')
    have reach : sizes.min_chunk.toNat < (first.bytes.drop p).length := by rw [List.length_drop]; omega
    have reach' : sizes.min_chunk.toNat < (second.bytes.drop p).length := by rw [List.length_drop]; omega
    have size : (first.bytes.take p).length = p := List.length_take_of_le (by omega)
    have alike : q ∈ Chunking.ends 0 (Chunking.split sizes.cuts [] (first.bytes.take p ++ first.bytes.drop p)) ↔
        q ∈ Chunking.ends 0 (Chunking.split sizes.cuts [] (first.bytes.take p ++ second.bytes.drop p)) :=
      Chunking.split_common sizes.cuts_far reach reach' (by rw [size,List.length_nil]; omega)
    rw [List.take_append_drop,common,List.take_append_drop] at alike
    rw [← same,← same',cut_positions,cut_positions,cut_positions_chunksOf,cut_positions_chunksOf,List.mem_cons,List.mem_cons,alike]

def every_byte : ChunkSizes := ⟨1,1,2⟩

theorem every_byte_supported : every_byte.Supported := ⟨by decide,by decide,by decide,by decide⟩

/-- Two files with the same end, and two with the same beginning. -/
theorem chunking_local_bytes :
    chunks_past 2 (chunksOf 0 [[1],[2],[3],[4]] : List (Chunk Name)) = chunks_past 1 (chunksOf 0 [[7],[3],[4]]) ∧
      (1 ∈ cut_positions (chunksOf 0 [[1],[2],[3],[4]] : List (Chunk Name)) ↔
        1 ∈ cut_positions (chunksOf 0 [[1],[8],[9]] : List (Chunk Name))) :=
  ⟨(chunking_local every_byte every_byte_supported).1 [1,2] [7] [3,4] ⟨[1,2,3,4],by decide⟩ ⟨[7,3,4],by decide⟩ rfl rfl _ _
      (by decide +kernel) (by decide +kernel) (by decide +kernel) (by decide +kernel),
    (chunking_local every_byte every_byte_supported).2 1 ⟨[1,2,3,4],by decide⟩ ⟨[1,8,9],by decide⟩ rfl (by decide) (by decide) _ _
      (by decide +kernel) (by decide +kernel) 1 (by decide)⟩

end AetherVault
