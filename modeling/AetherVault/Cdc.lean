import AetherVault.Objects

/-! Content-defined chunking of `core.cpp`: the shared cut decision, the two-pass
`chunk_and_hash_file_core` and the fused `stage_cdc_core_parts_only`. Both cut a
file into the same pieces, and the pieces in order are the file. -/
namespace AetherVault
open Lib Hashing

def slice (content : Bytes) (start size : Nat) : Bytes := (content.drop start).take size

/-- The fixed gear table: splitmix64 from a constant seed. -/
def make_gear_table : List UInt64 :=
  ((List.range 256).foldl (fun (acc : UInt64 × List UInt64) _ =>
    let state := acc.1 + 0x9E3779B97F4A7C15
    let z := (state ^^^ (state >>> 30)) * 0xBF58476D1CE4E5B9
    let z := (z ^^^ (z >>> 27)) * 0x94D049BB133111EB
    (state,acc.2 ++ [z ^^^ (z >>> 31)])) (0x9E3779B97F4A7C15,[])).2

def gear (byte : UInt8) : UInt64 := make_gear_table.getD byte.toNat 0

structure ChunkSizes where
  min_chunk : UInt64 := 512 * 1024
  avg_chunk : UInt64 := 2 * 1024 * 1024
  max_chunk : UInt64 := 8 * 1024 * 1024

def ChunkSizes.invalid (sizes : ChunkSizes) : Bool :=
  sizes.min_chunk == 0 || sizes.avg_chunk < sizes.min_chunk || sizes.max_chunk < sizes.avg_chunk

structure CdcCutter where
  mask : UInt64
  min_chunk : UInt64
  max_chunk : UInt64
  file_size : UInt64
  last_valid_cut_pos : UInt64
  hash : UInt64 := 0
  chunk_start : UInt64 := 0
  pos : UInt64 := 0

/-- `while (pow2 * 2 <= avg_c) pow2 *= 2`, at most 64 doublings below 2^63. -/
def pow2_below (avg_c : UInt64) : Nat → UInt64 → UInt64
  | 0,pow2 => pow2
  | fuel+1,pow2 => if pow2 * 2 ≤ avg_c then pow2_below avg_c fuel (pow2 * 2) else pow2

def CdcCutter.new (sizes : ChunkSizes) (file_size : UInt64) : CdcCutter where
  mask := pow2_below sizes.avg_chunk 64 1 - 1
  min_chunk := sizes.min_chunk
  max_chunk := sizes.max_chunk
  file_size := file_size
  last_valid_cut_pos := if file_size > sizes.min_chunk then file_size - sizes.min_chunk else 0

/-- Feeds one byte; true when a cut falls right after it. -/
def CdcCutter.feed (c : CdcCutter) (byte : UInt8) : Bool × CdcCutter :=
  let hash := (c.hash <<< 1) + gear byte
  let pos := c.pos + 1
  let size_so_far := pos - c.chunk_start
  let enough_left_after_cut := c.file_size - pos ≥ c.min_chunk
  let boundary := hash &&& c.mask = 0 ∧ size_so_far ≥ c.min_chunk ∧ size_so_far < c.max_chunk
  let overflow := size_so_far ≥ c.max_chunk
  let last_chance := pos = c.last_valid_cut_pos ∧ size_so_far ≥ c.min_chunk ∧
    size_so_far + c.min_chunk > c.max_chunk
  if (boundary ∨ overflow ∨ last_chance) ∧ enough_left_after_cut ∧ pos < c.file_size then
    (true,{c with hash := 0,chunk_start := pos,pos := pos})
  else (false,{c with hash := hash,pos := pos})

theorem CdcCutter.feed_pos (c : CdcCutter) (byte : UInt8) : (c.feed byte).2.pos = c.pos + 1 := by
  unfold feed
  dsimp only
  split <;> rfl

/-- The contents of the chunks, `run` being the part of the current chunk already fed. -/
def pieces : CdcCutter → Bytes → Bytes → List Bytes
  | _,run,[] => [run]
  | c,run,b::rest =>
    if (c.feed b).1 then (run ++ [b])::pieces (c.feed b).2 [] rest
    else pieces (c.feed b).2 (run ++ [b]) rest

theorem pieces_flatten (c : CdcCutter) (run content : Bytes) : (pieces c run content).flatten = run ++ content := by
  induction content generalizing c run with
  | nil => simp [pieces]
  | cons b rest ih =>
    simp only [pieces]
    split
    · simp [ih]
    · simp [ih]

theorem pieces_nonempty (c : CdcCutter) (run content : Bytes) : pieces c run content ≠ [] := by
  induction content generalizing c run with
  | nil => simp [pieces]
  | cons b rest ih =>
    simp only [pieces]
    split
    · simp
    · exact ih _ _

structure Chunk (H : Type) where
  hash : H
  size : Nat
  offset : Nat
  deriving DecidableEq

variable {H : Type} [DecidableEq H] [Hashing H]

def chunksOf : Nat → List Bytes → List (Chunk H)
  | _,[] => []
  | offset,piece::rest => ⟨sha256 piece,piece.length,offset⟩::chunksOf (offset+piece.length) rest

omit [DecidableEq H] in
theorem chunksOf_append (offset : Nat) (first second : List Bytes) :
    (chunksOf offset (first ++ second) : List (Chunk H)) =
      chunksOf offset first ++ chunksOf (offset+first.flatten.length) second := by
  induction first generalizing offset with
  | nil => simp [chunksOf]
  | cons piece rest ih => simp [chunksOf,ih,Nat.add_assoc]

/-! The two-pass path: cut positions first, then the ranges between them. -/

def cut_offsets : CdcCutter → Bytes → List Nat
  | _,[] => []
  | c,b::rest =>
    if (c.feed b).1 then (c.feed b).2.pos.toNat::cut_offsets (c.feed b).2 rest
    else cut_offsets (c.feed b).2 rest

def chunk_ranges (file_size : Nat) : List Nat → List (Nat × Nat)
  | [] => []
  | [start] => [(start,file_size)]
  | start::stop::rest => (start,stop)::chunk_ranges file_size (stop::rest)

def hash_range (content : Bytes) (range : Nat × Nat) : Except String (Chunk H) :=
  let block := slice content range.1 (range.2-range.1)
  if block.length < range.2-range.1 then .error s!"Truncated read in chunk at offset {range.1}"
  else .ok ⟨sha256 block,range.2-range.1,range.1⟩

def chunk_and_hash_file_core (file : FileData) (sizes : ChunkSizes) : Except String (List (Chunk H)) :=
  if sizes.invalid then .error "Invalid chunk sizes: require min <= avg <= max, min > 0"
  else
    let cutter := CdcCutter.new sizes (UInt64.ofNat file.bytes.length)
    (chunk_ranges file.bytes.length (0::cut_offsets cutter file.bytes)).mapM (hash_range file.bytes)

theorem slice_append (before piece after : Bytes) (size : Nat) (same : size = piece.length) :
    slice (before ++ (piece ++ after)) before.length size = piece := by
  simp [slice,same]

omit [DecidableEq H] in
theorem hash_range_ok (before piece after : Bytes) (stop : Nat) (ends : stop = before.length+piece.length) :
    (hash_range (before ++ (piece ++ after)) (before.length,stop) : Except String (Chunk H)) =
      .ok ⟨sha256 piece,piece.length,before.length⟩ := by
  have span : stop-before.length = piece.length := by omega
  simp [hash_range,span,slice_append before piece after _ rfl]

omit [DecidableEq H] in
theorem ranges_pieces (content : Bytes) (fits : content.length < 2^64) (c : CdcCutter) (before run rest : Bytes)
    (whole : content = before ++ (run ++ rest)) (at_pos : c.pos.toNat = before.length+run.length) :
    (chunk_ranges content.length (before.length::cut_offsets c rest)).mapM (hash_range content) =
      .ok (chunksOf before.length (pieces c run rest) : List (Chunk H)) := by
  induction rest generalizing c before run with
  | nil =>
    have last : (hash_range content (before.length,content.length) : Except String (Chunk H)) =
        .ok ⟨sha256 run,run.length,before.length⟩ := by
      rw [whole]
      exact hash_range_ok before run [] _ (by simp)
    simp only [cut_offsets,chunk_ranges,List.mapM_cons,List.mapM_nil,last,pieces,chunksOf]
    rfl
  | cons b rest ih =>
    have size : content.length = before.length+(run.length+(rest.length+1)) := by simp [whole]
    have next : (c.feed b).2.pos.toNat = before.length+run.length+1 := by
      rw [CdcCutter.feed_pos,UInt64.toNat_add,at_pos]
      change (before.length+run.length+1) % 2^64 = _
      omega
    simp only [cut_offsets,pieces]
    split
    · have regroup : content = (before ++ (run ++ [b])) ++ ([] ++ rest) := by simp [whole]
      have stop : (c.feed b).2.pos.toNat = (before ++ (run ++ [b])).length := by simp [next]; omega
      have tail := ih (c.feed b).2 (before ++ (run ++ [b])) [] regroup (by simp [next]; omega)
      have first : (hash_range content (before.length,(before ++ (run ++ [b])).length) :
          Except String (Chunk H)) = .ok ⟨sha256 (run ++ [b]),(run ++ [b]).length,before.length⟩ := by
        have shape : content = before ++ ((run ++ [b]) ++ rest) := by simp [whole]
        rw [shape]
        exact hash_range_ok before (run ++ [b]) rest _ (by simp)
      rw [stop]
      have join : before.length+(run ++ [b]).length = (before ++ (run ++ [b])).length :=
        List.length_append.symm
      simp only [chunk_ranges,List.mapM_cons,first,tail,chunksOf,join]
      rfl
    · exact ih (c.feed b).2 before (run ++ [b]) (by simp [whole]) (by simp [next]; omega)

omit [DecidableEq H] in
theorem chunk_and_hash_file_core_ok (file : FileData) (sizes : ChunkSizes) (valid : sizes.invalid = false) :
    (chunk_and_hash_file_core file sizes : Except String (List (Chunk H))) =
      .ok (chunksOf 0 (pieces (CdcCutter.new sizes (UInt64.ofNat file.bytes.length)) [] file.bytes)) := by
  simp only [chunk_and_hash_file_core,valid,Bool.false_eq_true,if_false]
  exact ranges_pieces file.bytes file.fits _ [] [] file.bytes (by simp) rfl

/-! The fused path: one pass over the read buffers, publishing each chunk at its cut. -/

structure CdcStage (H : Type) [DecidableEq H] [Hashing H] where
  cutter : CdcCutter
  objects : Objects H
  whole : Bytes := []
  chunk_buffer : Bytes := []
  chunk_offset : Nat := 0
  bytes_written : Nat := 0
  parts : List (Chunk H) := []

/-- Feeds a run of bytes to the whole-file hash, the chunk hash and the chunk buffer. -/
def CdcStage.absorb (s : CdcStage H) (run : Bytes) : CdcStage H :=
  {s with whole := s.whole ++ run,chunk_buffer := s.chunk_buffer ++ run}

def CdcStage.flush_chunk (s : CdcStage H) : CdcStage H :=
  let hash := sha256 s.chunk_buffer
  let written := !s.objects.exists? hash
  {s with
    objects := s.objects.publish s.chunk_buffer
    parts := s.parts ++ [⟨hash,s.chunk_buffer.length,s.chunk_offset⟩]
    bytes_written := if written then s.bytes_written+s.chunk_buffer.length else s.bytes_written
    chunk_offset := s.chunk_offset+s.chunk_buffer.length
    chunk_buffer := []}

/-- One read buffer; `run` is its not yet hashed part before the next byte. -/
def CdcStage.consume_buffer (s : CdcStage H) (run : Bytes) : Bytes → CdcStage H
  | [] => if run = [] then s else s.absorb run
  | b::rest =>
    let (cut,cutter) := s.cutter.feed b
    if cut then (({s with cutter := cutter} : CdcStage H).absorb (run ++ [b])).flush_chunk.consume_buffer [] rest
    else ({s with cutter := cutter} : CdcStage H).consume_buffer (run ++ [b]) rest

structure CdcResult (H : Type) [DecidableEq H] [Hashing H] where
  whole_hash : H
  bytes_written : Nat
  parts : List (Chunk H)

/-- Reads `buffers` in turn; returns the published store also when it throws. -/
def stage_cdc_core_parts_only (objects : Objects H) (file_size : Nat) (buffers : List Bytes) (sizes : ChunkSizes) :
    Objects H × Except String (CdcResult H) :=
  if sizes.invalid then (objects,.error "Invalid chunk sizes: require min <= avg <= max, min > 0")
  else
    let start : CdcStage H := {cutter := CdcCutter.new sizes (UInt64.ofNat file_size),objects := objects}
    let s := (buffers.foldl (fun s buffer => s.consume_buffer [] buffer) start).flush_chunk
    (s.objects,.ok ⟨sha256 s.whole,s.bytes_written,s.parts⟩)

/-- The state after the pieces in `done` were cut off. -/
structure CdcStage.After (objects : Objects H) (done : List Bytes) (s : CdcStage H) : Prop where
  store : s.objects = objects.publishAll done
  parts : s.parts = chunksOf 0 done
  offset : s.chunk_offset = done.flatten.length
  whole : s.whole = done.flatten ++ s.chunk_buffer

theorem CdcStage.After.flush {objects : Objects H} {done : List Bytes} {s : CdcStage H}
    (after : s.After objects done) : s.flush_chunk.After objects (done ++ [s.chunk_buffer]) where
  store := by simp [flush_chunk,after.store,Objects.publishAll]
  parts := by simp [flush_chunk,after.parts,after.offset,chunksOf_append,chunksOf]
  offset := by simp [flush_chunk,after.offset]
  whole := by simp [flush_chunk,after.whole]

theorem CdcStage.After.consume {objects : Objects H} {done : List Bytes} {s : CdcStage H}
    (after : s.After objects done) (run buffer : Bytes) :
    ∃ cut, (s.consume_buffer run buffer).After objects (done ++ cut) ∧
      ∀ rest, pieces s.cutter (s.chunk_buffer ++ run) (buffer ++ rest) =
        cut ++ pieces (s.consume_buffer run buffer).cutter (s.consume_buffer run buffer).chunk_buffer rest := by
  induction buffer generalizing s run done with
  | nil =>
    refine ⟨[],?_,?_⟩
    · simp only [consume_buffer,List.append_nil]
      split
      · exact after
      · exact ⟨after.store,after.parts,after.offset,by simp [absorb,after.whole]⟩
    · intro rest
      simp only [consume_buffer,List.nil_append]
      split
      · rename_i none
        simp [none]
      · rfl
  | cons b buffer ih =>
    simp only [consume_buffer]
    by_cases hit : (s.cutter.feed b).1 = true
    · let mid : CdcStage H := ({s with cutter := (s.cutter.feed b).2} : CdcStage H).absorb (run ++ [b])
      have reached : mid.After objects done :=
        ⟨after.store,after.parts,after.offset,by simp [mid,absorb,after.whole]⟩
      obtain ⟨cut,final,same⟩ := ih reached.flush []
      refine ⟨(s.chunk_buffer ++ (run ++ [b]))::cut,?_,fun rest => ?_⟩
      · simpa [hit,mid,absorb] using final
      · simpa [pieces,hit,mid,absorb,flush_chunk] using same rest
    · have reached : ({s with cutter := (s.cutter.feed b).2} : CdcStage H).After objects done :=
        ⟨after.store,after.parts,after.offset,after.whole⟩
      obtain ⟨cut,final,same⟩ := ih reached (run ++ [b])
      refine ⟨cut,?_,fun rest => ?_⟩
      · simpa [hit] using final
      · simpa [pieces,hit] using same rest

theorem CdcStage.After.buffers {objects : Objects H} {done : List Bytes} {s : CdcStage H}
    (after : s.After objects done) (buffers : List Bytes) :
    ∃ cut, (buffers.foldl (fun s buffer => s.consume_buffer [] buffer) s).After objects (done ++ cut) ∧
      pieces s.cutter s.chunk_buffer buffers.flatten =
        cut ++ [(buffers.foldl (fun s buffer => s.consume_buffer [] buffer) s).chunk_buffer] := by
  induction buffers generalizing s done with
  | nil => exact ⟨[],by simpa using after,by simp [pieces]⟩
  | cons buffer rest ih =>
    obtain ⟨first,reached,same⟩ := after.consume [] buffer
    obtain ⟨later,final,others⟩ := ih reached
    refine ⟨first ++ later,by simpa using final,?_⟩
    have split := same rest.flatten
    simp only [List.append_nil] at split
    simp only [List.flatten_cons,List.foldl_cons,split,others,List.append_assoc]

/-- The fused chunker publishes the same pieces, however the file is cut into read
buffers, and hashes the whole file. -/
theorem stage_cdc_core_ok (objects : Objects H) (buffers : List Bytes) (sizes : ChunkSizes)
    (valid : sizes.invalid = false) (file_size : Nat) :
    ∃ written, stage_cdc_core_parts_only objects file_size buffers sizes =
      (objects.publishAll (pieces (CdcCutter.new sizes (UInt64.ofNat file_size)) [] buffers.flatten),
        .ok ⟨sha256 buffers.flatten,written,
          chunksOf 0 (pieces (CdcCutter.new sizes (UInt64.ofNat file_size)) [] buffers.flatten)⟩) := by
  let start : CdcStage H := {cutter := CdcCutter.new sizes (UInt64.ofNat file_size),objects := objects}
  have fresh : start.After objects [] := ⟨rfl,rfl,rfl,rfl⟩
  obtain ⟨cut,reached,same⟩ := fresh.buffers buffers
  have final := reached.flush
  simp only [List.nil_append] at final
  rw [← same] at final
  have whole := final.whole
  simp only [pieces_flatten,start,CdcStage.flush_chunk,List.nil_append,List.append_nil] at whole
  refine ⟨(buffers.foldl (fun s buffer => s.consume_buffer [] buffer) start).flush_chunk.bytes_written,?_⟩
  simp only [stage_cdc_core_parts_only,valid,Bool.false_eq_true,if_false]
  refine Prod.ext final.store ?_
  simp only [Except.ok.injEq,CdcResult.mk.injEq]
  exact ⟨congrArg sha256 whole,rfl,final.parts⟩

end AetherVault
