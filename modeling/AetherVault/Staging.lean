import AetherVault.Index

/-! `_compute_stage_result`: what `av add` does for one file. Layer split, then
content-defined chunks, then the whole file, each with its fallback. -/
namespace AetherVault
open Lib Hashing

def CHUNKABLE_EXTS : List (List Char) :=
  [".pt",".pth",".ckpt",".npz",".h5",".hdf5",".pb",".msgpack",
    ".bin",".onnx",".model",".arrow",".feather",".pkl",".pickle"].map String.toList

structure WorkFile where
  data : FileData
  mtime_ns : Nat
  deriving DecidableEq

def WorkFile.size (file : WorkFile) : Nat := file.data.bytes.length

/-- The native extension if it is installed, `AV_STAGE_FUSED`, and the LFS threshold. -/
structure StageEnv where
  native : Option Native
  fused : Bool
  threshold_bytes : Int

variable {H : Type} [DecidableEq H] [Hashing H]

structure StageResult (H : Type) where
  rel_path : Path
  hash : H
  size : Nat
  mtime_ns : Nat
  file_type : FileType
  pointer : Option Path
  layers : List (Layer H)
  chunks : List (Chunk H)
  message : String

def READ_BUF : Nat := 1024 * 1024

/-- The reads of a whole file, one buffer at a time. -/
def read_buffers : Nat → Bytes → List Bytes
  | 0,_ => []
  | fuel+1,content => if content = [] then [] else content.take READ_BUF::read_buffers fuel (content.drop READ_BUF)

theorem read_buffers_flatten (fuel : Nat) (content : Bytes) (enough : content.length ≤ fuel) :
    (read_buffers fuel content).flatten = content := by
  induction fuel generalizing content with
  | zero => exact (List.length_eq_zero_iff.mp (by omega)).symm
  | succ fuel ih =>
    simp only [read_buffers]
    split
    · rename_i none
      simp [none]
    · rename_i some
      have positive := List.length_pos_iff.mpr some
      rw [List.flatten_cons,ih _ (by simp only [List.length_drop,READ_BUF]; omega),List.take_append_drop]

/-- The store, the whole-file hash if a pass computed it, and the parts it cut. -/
abbrev Split (H : Type) [DecidableEq H] [Hashing H] (P : Type) := Objects H × Option H × List P

/-- The fused attempt; any exception leaves what it published and no layers. -/
def fused_layers (env : StageEnv) (native : Native) (objects : Objects H) (file : WorkFile) (path : String) :
    Split H (Layer H) :=
  if env.fused then
    match stage_safetensors_core_parts_only native path objects file.data with
    | (published,.ok stage) => (published,some stage.whole_hash,stage.parts)
    | (published,.error _) => (published,none,[])
  else (objects,none,[])

/-- The safetensors branch: fused if enabled, then the per-layer fallback. -/
def split_layers (env : StageEnv) (objects : Objects H) (file : WorkFile) (rel_path : Path) (attr_flags : List String) :
    Split H (Layer H) :=
  match env.native with
  | none => (objects,none,[])
  | some native =>
    if rel_path.endswith ".safetensors" ∧ "no-layer-split" ∉ attr_flags then
      let fused := fused_layers env native objects file rel_path.text
      if fused.2.2 = [] then
        match split_and_hash_safetensors_core native rel_path.text file.data with
        | .ok results =>
          (fused.1.publishAll (results.map fun lr => slice file.data.bytes lr.offset lr.size),fused.2.1,
            results.map fun (lr : LayerResult H) => ⟨lr.name,lr.hash,lr.size⟩)
        | .error _ => fused
      else fused
    else (objects,none,[])

def cdc_eligible (env : StageEnv) (rel_path : Path) (attr_flags : List String) : Bool :=
  decide (rel_path.suffix ∈ CHUNKABLE_EXTS ∨ "chunk" ∈ attr_flags) && decide ("no-chunk" ∉ attr_flags) &&
    env.native.isSome

def fused_chunks (env : StageEnv) (objects : Objects H) (file : WorkFile) : Split H (Chunk H) :=
  if env.fused then
    match stage_cdc_core_parts_only objects file.size (read_buffers file.size file.data.bytes) {} with
    | (published,.ok stage) => (published,some stage.whole_hash,stage.parts)
    | (published,.error _) => (published,none,[])
  else (objects,none,[])

/-- The chunking branch: fused if enabled, then the two-pass fallback. -/
def split_chunks (env : StageEnv) (objects : Objects H) (file : WorkFile) (rel_path : Path) (attr_flags : List String) :
    Split H (Chunk H) :=
  if cdc_eligible env rel_path attr_flags then
    let fused := fused_chunks env objects file
    if fused.2.2 = [] then
      match chunk_and_hash_file_core file.data {} with
      | .ok results =>
        (fused.1.publishAll (results.map fun (cr : Chunk H) => slice file.data.bytes cr.offset cr.size),fused.2.1,results)
      | .error _ => fused
    else fused
  else (objects,none,[])

def split_desc (layers : List (Layer H)) (chunks : List (Chunk H)) : String :=
  if layers ≠ [] then s!"{layers.length} layers"
  else if chunks ≠ [] then s!"{chunks.length} chunks"
  else "whole-file"

/-- `none` when size and mtime match the index entry, so nothing is read. -/
def _compute_stage_result (env : StageEnv) (objects : Objects H) (file : WorkFile) (rel_path : Path)
    (file_type : FileType) (existing_entry : Option (IndexEntry H)) (attr_flags : List String) :
    Objects H × Option (StageResult H) :=
  if existing_entry.any (fun e => file.size == e.size && file.mtime_ns == e.mtime_ns) then (objects,none)
  else if file_type = .artifact ∧ (file.size : Int) > env.threshold_bytes then
    let split := split_layers env objects file rel_path attr_flags
    let layers := split.2.2
    let chunked := if layers = [] then split_chunks env split.1 file rel_path attr_flags else (split.1,split.2.1,[])
    let chunks := chunked.2.2
    let file_hash := chunked.2.1.getD (sha256 file.data.bytes)
    let published :=
      if layers = [] ∧ chunks = [] then chunked.1.publish file.data.bytes else chunked.1
    (published,some
      { rel_path := rel_path,hash := file_hash,size := file.size,mtime_ns := file.mtime_ns,file_type := file_type
        pointer := some rel_path.pointer,layers := layers,chunks := chunks
        message := s!"Staged [ARTIFACT] {rel_path.text} (LFS, {split_desc layers chunks})" })
  else
    (objects.publish file.data.bytes,some
      { rel_path := rel_path,hash := sha256 file.data.bytes,size := file.size,mtime_ns := file.mtime_ns
        file_type := file_type,pointer := none,layers := [],chunks := []
        message := s!"Staged [{file_type.upper}] {rel_path.text}" })

def apply_stage_result (idx : Index H) (result : StageResult H) : Index H :=
  idx.add_split_entry result.rel_path (.sha result.hash) result.size result.mtime_ns result.file_type result.pointer
    result.layers result.chunks

/-- The entry that staging leaves in the index; `changed` is decided by `add_entry`. -/
def StageResult.entry (result : StageResult H) (changed : Bool) : IndexEntry H :=
  ⟨.sha result.hash,result.size,result.mtime_ns,result.file_type,changed,result.pointer,result.layers,result.chunks⟩

omit [Hashing H] in
theorem apply_stage_result_get (idx : Index H) (result : StageResult H) (path : Path) :
    (apply_stage_result idx result).entries.get? path =
      if path = result.rel_path then some (result.entry (idx.changed result.rel_path (.sha result.hash)))
      else idx.entries.get? path :=
  idx.add_split_entry_get _ _ _ _ _ _ _ _ _

/-! What a staging publishes and records. -/

/-- The ranges of the layer split, when this file takes that path. -/
def layer_split (env : StageEnv) (file : WorkFile) (rel_path : Path) (file_type : FileType) (attr_flags : List String) :
    Option (List LayerSpec) :=
  match env.native with
  | none => none
  | some native =>
    if file_type = .artifact ∧ (file.size : Int) > env.threshold_bytes ∧
        rel_path.endswith ".safetensors" ∧ "no-layer-split" ∉ attr_flags
    then split_ranges native rel_path.text file.data else none

/-- The shards recorded for a content: its layer ranges, its chunks, or the content whole. -/
inductive Shape (content : Bytes) : Option (List LayerSpec) → List (Layer H) → List (Chunk H) → List Bytes → Prop
  | layers (ranges : List LayerSpec) (nonempty : ranges ≠ []) :
      Shape content (some ranges) (ranges.map (LayerSpec.part content)) [] (ranges.map (·.range content))
  | chunks (shards : List Bytes) (nonempty : shards ≠ []) (whole : shards.flatten = content) :
      Shape content none [] (chunksOf 0 shards) shards
  | whole : Shape content none [] [] [content]

theorem mem_slices_flatten (shards : List Bytes) {b : Bytes} (member : b ∈ shards) : b ∈ slices shards.flatten := by
  obtain ⟨before,after,rfl⟩ := List.append_of_mem member
  refine ⟨before.flatten.length,b.length,?_⟩
  simp only [List.flatten_append,List.flatten_cons]
  exact (slice_append before.flatten b after.flatten _ rfl).symm

omit [DecidableEq H] in
theorem chunksOf_slices (before after : Bytes) (shards : List Bytes) :
    (chunksOf before.length shards : List (Chunk H)).map
        (fun cr => slice (before ++ (shards.flatten ++ after)) cr.offset cr.size) = shards := by
  induction shards generalizing before with
  | nil => rfl
  | cons piece rest ih =>
    have regroup : before ++ ((piece::rest).flatten ++ after) = (before ++ piece) ++ (rest.flatten ++ after) := by simp
    have tail := ih (before ++ piece)
    simp only [chunksOf,List.map_cons]
    rw [← List.length_append,regroup,tail]
    simp [slice]

/-- The fused attempt is refused, or it cuts the same ranges as the fallback. -/
theorem fused_layers_eq (env : StageEnv) (native : Native) (objects : Objects H) (file : WorkFile) (path : String) :
    ∃ blobs : List Bytes, (∀ b ∈ blobs, b ∈ slices file.data.bytes) ∧
      (fused_layers env native objects file path = (objects.publishAll blobs,none,[]) ∨
        ∃ ranges, split_ranges native path file.data = some ranges ∧
          blobs = ranges.map (·.range file.data.bytes) ∧
          fused_layers env native objects file path =
            (objects.publishAll blobs,some (sha256 file.data.bytes),ranges.map (LayerSpec.part file.data.bytes))) := by
  unfold fused_layers
  split
  · cases attempt : stage_safetensors_core_parts_only native path objects file.data with
    | mk published result =>
    cases result with
    | error e =>
      obtain ⟨blobs,all,store⟩ := stage_safetensors_store native path objects file.data
      rw [attempt] at store
      dsimp only at store
      exact ⟨blobs,all,Or.inl (by rw [store])⟩
    | ok stage =>
      obtain ⟨ranges,cut,-,whole,parts,store⟩ := stage_safetensors_ok (by rw [attempt])
      rw [attempt] at store
      dsimp only at store
      refine ⟨ranges.map (·.range file.data.bytes),?_,Or.inr ⟨ranges,cut,rfl,?_⟩⟩
      · intro b member
        obtain ⟨layer,-,rfl⟩ := List.mem_map.mp member
        exact ⟨_,_,rfl⟩
      · dsimp only
        rw [store,whole,parts]
  · exact ⟨[],by simp,Or.inl rfl⟩

theorem split_layers_native {env : StageEnv} {native : Native} {file : WorkFile} {rel_path : Path}
    {attr_flags : List String} (objects : Objects H) (installed : env.native = some native)
    (eligible : rel_path.endswith ".safetensors" ∧ "no-layer-split" ∉ attr_flags) :
    ∃ blobs : List Bytes, (∀ b ∈ blobs, b ∈ slices file.data.bytes) ∧
      (split_ranges native rel_path.text file.data = none ∧
          split_layers env objects file rel_path attr_flags = (objects.publishAll blobs,none,[]) ∨
        ∃ ranges hash, split_ranges native rel_path.text file.data = some ranges ∧
          (∀ b ∈ ranges.map (·.range file.data.bytes), b ∈ blobs) ∧
          (hash = none ∨ hash = some (sha256 file.data.bytes)) ∧
          split_layers env objects file rel_path attr_flags =
            (objects.publishAll blobs,hash,ranges.map (LayerSpec.part file.data.bytes))) := by
  obtain ⟨blobs,all,attempt⟩ := fused_layers_eq env native objects file rel_path.text
  simp only [split_layers,installed,if_pos eligible]
  rcases attempt with refused | ⟨ranges,cut,rfl,same⟩
  · rw [refused]
    have legacy := split_and_hash_safetensors_core_eq (H := H) native rel_path.text file.data
    cases read : (split_and_hash_safetensors_core native rel_path.text file.data : Except String (List (LayerResult H))) with
    | error e =>
      refine ⟨blobs,all,Or.inl ⟨?_,by simp⟩⟩
      rw [read] at legacy
      simpa [Except.toOption,eq_comm] using legacy
    | ok results =>
      rw [read] at legacy
      obtain ⟨ranges,cut,rfl⟩ := Option.map_eq_some_iff.mp legacy.symm
      refine ⟨blobs ++ ranges.map (·.range file.data.bytes),?_,
        Or.inr ⟨ranges,none,cut,fun b member => List.mem_append_right _ member,Or.inl rfl,?_⟩⟩
      · intro b member
        rcases List.mem_append.mp member with early | cut
        · exact all b early
        · obtain ⟨layer,-,rfl⟩ := List.mem_map.mp cut
          exact ⟨_,_,rfl⟩
      · simp [Objects.publishAll_append,LayerSpec.part,LayerSpec.range,Function.comp_def]
  · have nonempty := split_ranges_nonempty cut
    rw [same]
    refine ⟨_,all,Or.inr ⟨ranges,_,cut,fun b member => member,Or.inr rfl,?_⟩⟩
    simp [nonempty]

/-- The layer branch cuts a large artifact exactly when it has ranges to split. -/
theorem split_layers_eq {env : StageEnv} {file : WorkFile} {file_type : FileType} (objects : Objects H)
    (rel_path : Path) (attr_flags : List String) (large : file_type = .artifact ∧ (file.size : Int) > env.threshold_bytes) :
    ∃ blobs : List Bytes, (∀ b ∈ blobs, b ∈ slices file.data.bytes) ∧
      (layer_split env file rel_path file_type attr_flags = none ∧
          split_layers env objects file rel_path attr_flags = (objects.publishAll blobs,none,[]) ∨
        ∃ ranges hash, layer_split env file rel_path file_type attr_flags = some ranges ∧ ranges ≠ [] ∧
          (∀ b ∈ ranges.map (·.range file.data.bytes), b ∈ blobs) ∧
          (hash = none ∨ hash = some (sha256 file.data.bytes)) ∧
          split_layers env objects file rel_path attr_flags =
            (objects.publishAll blobs,hash,ranges.map (LayerSpec.part file.data.bytes))) := by
  unfold layer_split
  cases installed : env.native with
  | none => exact ⟨[],by simp,Or.inl ⟨rfl,by simp [split_layers,installed,Objects.publishAll]⟩⟩
  | some native =>
    by_cases eligible : rel_path.endswith ".safetensors" ∧ "no-layer-split" ∉ attr_flags
    · obtain ⟨blobs,all,cases⟩ := split_layers_native objects installed eligible
      refine ⟨blobs,all,?_⟩
      dsimp only
      rw [if_pos ⟨large.1,large.2,eligible.1,eligible.2⟩]
      rcases cases with uncut | ⟨ranges,hash,cut,rest⟩
      · exact Or.inl uncut
      · exact Or.inr ⟨ranges,hash,cut,split_ranges_nonempty cut,rest⟩
    · refine ⟨[],by simp,Or.inl ⟨if_neg fun cut => eligible cut.2.2,?_⟩⟩
      simp only [split_layers,installed]
      rw [if_neg eligible]
      rfl

omit [DecidableEq H] in
theorem chunksOf_nonempty {shards : List Bytes} (offset : Nat) (nonempty : shards ≠ []) :
    (chunksOf offset shards : List (Chunk H)) ≠ [] := by
  cases shards with
  | nil => contradiction
  | cons piece rest => simp [chunksOf]

/-- Where both chunkers cut a file at the default sizes. -/
def file_pieces (file : WorkFile) : List Bytes :=
  pieces (CdcCutter.new {} (UInt64.ofNat file.size)) [] file.data.bytes

theorem file_pieces_flatten (file : WorkFile) : (file_pieces file).flatten = file.data.bytes := by
  rw [file_pieces,pieces_flatten]
  rfl

theorem default_sizes_valid : ({} : ChunkSizes).invalid = false := by decide

theorem fused_chunks_eq (env : StageEnv) (objects : Objects H) (file : WorkFile) :
    fused_chunks env objects file = if env.fused then
      (objects.publishAll (file_pieces file),some (sha256 file.data.bytes),chunksOf 0 (file_pieces file))
      else (objects,none,[]) := by
  obtain ⟨written,ok⟩ := stage_cdc_core_ok objects (read_buffers file.size file.data.bytes) {}
    default_sizes_valid file.size
  have read : (read_buffers file.size file.data.bytes).flatten = file.data.bytes :=
    read_buffers_flatten _ _ (Nat.le_refl _)
  rw [read] at ok
  unfold fused_chunks
  rw [ok]
  rfl

theorem split_chunks_eq (env : StageEnv) (objects : Objects H) (file : WorkFile) (rel_path : Path)
    (attr_flags : List String) :
    split_chunks env objects file rel_path attr_flags = (objects,none,[]) ∨
      ∃ (shards : List Bytes) (hash : Option H), shards ≠ [] ∧ shards.flatten = file.data.bytes ∧
        (hash = none ∨ hash = some (sha256 file.data.bytes)) ∧
        split_chunks env objects file rel_path attr_flags = (objects.publishAll shards,hash,chunksOf 0 shards) := by
  unfold split_chunks
  rw [fused_chunks_eq]
  split
  · right
    have nonempty : file_pieces file ≠ [] := pieces_nonempty _ _ _
    by_cases fused : env.fused = true
    · refine ⟨_,some (sha256 file.data.bytes),nonempty,file_pieces_flatten file,Or.inr rfl,?_⟩
      simp [fused,chunksOf_nonempty 0 nonempty]
    · have cut := chunksOf_slices (H := H) [] [] (file_pieces file)
      simp only [List.nil_append,List.append_nil,List.length_nil,file_pieces_flatten] at cut
      have legacy : (chunk_and_hash_file_core file.data {} : Except String (List (Chunk H))) =
          .ok (chunksOf 0 (file_pieces file)) := chunk_and_hash_file_core_ok _ _ default_sizes_valid
      refine ⟨_,none,nonempty,file_pieces_flatten file,Or.inl rfl,?_⟩
      simp only [fused,Bool.false_eq_true,if_false,if_true,legacy]
      rw [cut]
  · exact Or.inl rfl

/-- A staged result: the hash of the content, and shards of it that are all published. -/
theorem _compute_stage_result_shape {env : StageEnv} {objects : Objects H} {file : WorkFile} {rel_path : Path}
    {file_type : FileType} {existing_entry : Option (IndexEntry H)} {attr_flags : List String} {r : StageResult H}
    (staged : (_compute_stage_result env objects file rel_path file_type existing_entry attr_flags).2 = some r) :
    ∃ blobs shards : List Bytes, (∀ b ∈ blobs, b ∈ slices file.data.bytes) ∧ (∀ b ∈ shards, b ∈ blobs) ∧
      (_compute_stage_result env objects file rel_path file_type existing_entry attr_flags).1 =
        objects.publishAll blobs ∧
      Shape file.data.bytes (layer_split env file rel_path file_type attr_flags) r.layers r.chunks shards ∧
      r.rel_path = rel_path ∧ r.hash = sha256 file.data.bytes ∧ r.size = file.size ∧
      r.mtime_ns = file.mtime_ns ∧ r.file_type = file_type := by
  have itself : file.data.bytes ∈ slices file.data.bytes := ⟨0,file.data.bytes.length,by simp [slice]⟩
  unfold _compute_stage_result at staged ⊢
  split at staged
  · contradiction
  · rename_i fresh
    rw [if_neg fresh]
    split at staged
    · rename_i large
      rw [if_pos large]
      obtain rfl := Option.some.inj staged
      obtain ⟨blobs,all,layered⟩ := split_layers_eq objects rel_path attr_flags large
      rcases layered with ⟨uncut,result⟩ | ⟨ranges,hash,cut,nonempty,inside,whole,result⟩
      · rw [result,uncut]
        rcases split_chunks_eq env (objects.publishAll blobs) file rel_path attr_flags with
          none | ⟨shards,hash,nonempty,flat,whole,chunked⟩
        · refine ⟨blobs ++ [file.data.bytes],[file.data.bytes],?_,by simp,?_,?_,rfl,?_,rfl,rfl,rfl⟩
          · intro b member
            rcases List.mem_append.mp member with early | last
            · exact all b early
            · exact List.mem_singleton.mp last ▸ itself
          · simp [none,Objects.publishAll_append]
          · simpa [none] using Shape.whole
          · simp [none]
        · have cut := (chunksOf_nonempty 0 nonempty : (chunksOf 0 shards : List (Chunk H)) ≠ [])
          refine ⟨blobs ++ shards,shards,?_,fun b member => List.mem_append_right _ member,?_,?_,rfl,?_,rfl,rfl,rfl⟩
          · intro b member
            rcases List.mem_append.mp member with early | late
            · exact all b early
            · exact flat ▸ mem_slices_flatten shards late
          · simp [chunked,cut,Objects.publishAll_append]
          · simpa [chunked] using Shape.chunks shards nonempty flat
          · rcases whole with rfl | rfl <;> simp [chunked]
      · have parts : ranges.map (LayerSpec.part (H := H) file.data.bytes) ≠ [] := by simpa using nonempty
        rw [result,cut]
        refine ⟨blobs,ranges.map (·.range file.data.bytes),all,inside,?_,?_,rfl,?_,rfl,rfl,rfl⟩
        · simp [parts]
        · simpa [parts,nonempty] using Shape.layers ranges nonempty
        · rcases whole with rfl | rfl <;> simp [nonempty]
    · rename_i small
      rw [if_neg small]
      obtain rfl := Option.some.inj staged
      have uncut : layer_split env file rel_path file_type attr_flags = none := by
        unfold layer_split
        split
        · rfl
        · exact if_neg fun cut => small ⟨cut.1,cut.2.1⟩
      rw [uncut]
      exact ⟨[file.data.bytes],[file.data.bytes],by simpa using itself,by simp,rfl,.whole,rfl,rfl,rfl,rfl,rfl⟩

end AetherVault
