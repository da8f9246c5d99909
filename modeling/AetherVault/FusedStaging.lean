import AetherVault.Safetensors
import Mathlib.Data.List.Sort

/-! Both safetensors paths with the reads they make: a file is read through a buffer, a
layer above `buffer_cap_bytes` goes to a temporary file and is renamed into place, a
smaller one is gathered in memory. What is read, hashed and published does not depend on
either size. -/
namespace AetherVault.Buffered
open Lib Hashing

structure ReadBuffer where
  capacity : Nat
  positive : 0 < capacity

def READ_BUF : ReadBuffer := ⟨1024 * 1024,by decide⟩

/-- The blocks that a loop of reads takes in, and how much it was still to read when a
read gave nothing. -/
def read_blocks (buffer : ReadBuffer) (content : Bytes) : Nat → Nat → Nat → List Bytes × Nat
  | 0,_,remaining => ([],remaining)
  | fuel+1,position,remaining =>
    if remaining = 0 then ([],0)
    else
      let block := slice content position (min buffer.capacity remaining)
      if block = [] then ([],remaining)
      else
        let (blocks,left) := read_blocks buffer content fuel (position + block.length) (remaining - block.length)
        (block::blocks,left)

theorem slice_length (content : Bytes) (position size : Nat) :
    (slice content position size).length = min size (content.length - position) := by
  simp [slice]

/-- What a read leaves of a range begins where the read ended. -/
theorem slice_after_read (content : Bytes) {position size total : Nat} (part : size ≤ total) :
    slice content position total = slice content position size ++
      slice content (position + (slice content position size).length) (total - (slice content position size).length) := by
  have taken : (content.drop position).take (slice content position size).length = slice content position size := by
    rw [slice_length,← List.length_drop]
    exact List.take_eq_take_min.symm
  have within : (slice content position size).length ≤ total := (slice_length content position size).trans_le (by omega)
  calc slice content position total
      = (content.drop position).take ((slice content position size).length +
          (total - (slice content position size).length)) := by rw [Nat.add_sub_cancel' within,slice]
    _ = _ := by rw [List.take_add,taken,List.drop_drop]; rfl

/-- A read stops short only at the end of the file. -/
theorem read_blocks_eq (buffer : ReadBuffer) (content : Bytes) (fuel position remaining : Nat) (enough : remaining ≤ fuel) :
    (read_blocks buffer content fuel position remaining).1.flatten = slice content position remaining ∧
      (read_blocks buffer content fuel position remaining).2 = remaining - (slice content position remaining).length := by
  induction fuel generalizing position remaining with
  | zero =>
    obtain rfl : remaining = 0 := Nat.le_zero.mp enough
    simp [read_blocks,slice]
  | succ fuel ih =>
    unfold read_blocks
    split
    · rename_i none_left
      simp [none_left,slice]
    · rename_i some_left
      have positive := buffer.positive
      have length := slice_length content position (min buffer.capacity remaining)
      dsimp only
      split
      · rename_i nothing
        rw [nothing,List.length_nil] at length
        have past : slice content position remaining = [] := by
          apply List.eq_nil_of_length_eq_zero
          rw [slice_length]
          omega
        simp [past]
      · rename_i something
        have size : 0 < (slice content position (min buffer.capacity remaining)).length :=
          List.length_pos_iff.mpr something
        obtain ⟨blocks,left⟩ := ih (position + (slice content position (min buffer.capacity remaining)).length)
          (remaining - (slice content position (min buffer.capacity remaining)).length) (by omega)
        rw [slice_after_read content (Nat.min_le_right buffer.capacity remaining)]
        exact ⟨by simp [blocks],by simp [left]; omega⟩

variable {H : Type} [DecidableEq H] [Hashing H]

structure StagedPart (H : Type) where
  name : String
  hash : H
  size : Nat
  offset : Nat
  /-- Not an object that was there already. -/
  written : Bool

def StagedPart.result {H : Type} (part : StagedPart H) : LayerResult H := ⟨part.name,part.hash,part.size,part.offset⟩

def publish_object_bytes (objects : Objects H) (data : Bytes) : Objects H × Bool :=
  if objects.exists? (sha256 data : H) then (objects,false) else (objects.publish data,true)

/-- The temporary file is renamed into place, or removed when the object is there. -/
def publish_temp_file (objects : Objects H) (hash : H) (tmp_out : List Bytes) : Objects H × Bool :=
  if objects.exists? hash then (objects,false) else (objects.publish tmp_out.flatten,true)

structure StageWalk (H : Type) [DecidableEq H] [Hashing H] where
  objects : Objects H
  /-- What the whole file's hash was fed. -/
  whole_sha : Bytes
  position : Nat
  cursor : UInt64
  bytes_written : Nat
  parts : List (StagedPart H)

namespace StageWalk

variable (buffer : ReadBuffer) (buffer_cap_bytes : UInt64) (path : String) (content : Bytes)

def consume_gap (w : StageWalk H) (gap_size : UInt64) : Except String (StageWalk H) :=
  let (blocks,remaining) := read_blocks buffer content gap_size.toNat w.position gap_size.toNat
  if remaining > 0 then .error s!"Truncated read (gap) in {path}"
  else .ok {w with whole_sha := blocks.foldl (· ++ ·) w.whole_sha,position := w.position + gap_size.toNat}

def consume_layer (w : StageWalk H) (layer : LayerSpec) : Except String (StageWalk H) :=
  let stream_to_disk := layer.size > buffer_cap_bytes
  let (blocks,remaining) := read_blocks buffer content layer.size.toNat w.position layer.size.toNat
  if remaining > 0 then .error s!"Truncated read for layer '{layer.name}' in {path}"
  else
    let hash : H := sha256 (blocks.foldl (· ++ ·) [])
    let (objects,written) :=
      if stream_to_disk then publish_temp_file w.objects hash blocks
      else publish_object_bytes w.objects (blocks.foldl (· ++ ·) [])
    .ok {w with
      objects := objects
      whole_sha := blocks.foldl (· ++ ·) w.whole_sha
      position := w.position + layer.size.toNat
      bytes_written := if written then w.bytes_written + layer.size.toNat else w.bytes_written
      parts := w.parts ++ [⟨layer.name,hash,layer.size.toNat,layer.abs_start.toNat,written⟩]}

def turn (w : StageWalk H) (layer : LayerSpec) : Except String (StageWalk H) := do
  let at_layer ←
    if layer.abs_start > w.cursor then w.consume_gap buffer path content (layer.abs_start - w.cursor) else .ok w
  let done ← at_layer.consume_layer buffer buffer_cap_bytes path content layer
  .ok {done with cursor := layer.abs_start + layer.size}

/-- Keeps what was published before a truncated read. -/
def walk : List LayerSpec → StageWalk H → Objects H × Except String (StageWalk H)
  | [],w => (w.objects,.ok w)
  | layer::rest,w =>
    match w.turn buffer buffer_cap_bytes path content layer with
    | .error e => (w.objects,.error e)
    | .ok next => walk rest next

def finish (w : StageWalk H) : Except String (StageWalk H) :=
  let total_size := UInt64.ofNat content.length
  if w.cursor < total_size then w.consume_gap buffer path content (total_size - w.cursor) else .ok w

/-- The header is hashed and published from memory. -/
def header (objects : Objects H) (base_offset : UInt64) : StageWalk H :=
  let header_raw := content.take base_offset.toNat
  let (published,written) := publish_object_bytes objects header_raw
  { objects := published
    whole_sha := header_raw
    position := base_offset.toNat
    cursor := base_offset
    bytes_written := if written then header_raw.length else 0
    parts := [⟨"__header__",sha256 header_raw,base_offset.toNat,0,written⟩] }

end StageWalk

structure SafetensorsStage (H : Type) where
  whole_hash : H
  bytes_written : Nat
  parts : List (StagedPart H)

def stage_safetensors_core_parts_only (buffer : ReadBuffer) (buffer_cap_bytes : UInt64) (native : Native) (path : String)
    (objects : Objects H) (file : FileData) : Objects H × Except String (SafetensorsStage H) :=
  match layer_table native.parse path file with
  | .error e => (objects,.error e)
  | .ok table =>
    let layers := native.std_sort.sort table.layers
    if overlapping layers then
      (objects,.error s!"Overlapping safetensors layer ranges in {path} (unsupported by fused staging, falls back to legacy)")
    else
      match StageWalk.walk buffer buffer_cap_bytes path file.bytes layers.tail
          (StageWalk.header file.bytes objects table.base_offset) with
      | (published,.error e) => (published,.error e)
      | (published,.ok w) =>
        match w.finish buffer path file.bytes with
        | .error e => (published,.error e)
        | .ok final => (published,.ok ⟨sha256 final.whole_sha,final.bytes_written,final.parts⟩)

/-- One layer's task: its own file handle, sought to the layer's offset. -/
def hash_layer (buffer : ReadBuffer) (path : String) (content : Bytes) (layer : LayerSpec) :
    Except String (LayerResult H) :=
  let (blocks,remaining) := read_blocks buffer content layer.size.toNat layer.abs_start.toNat layer.size.toNat
  if remaining > 0 then .error s!"Truncated read for layer '{layer.name}' in {path}"
  else .ok ⟨layer.name,sha256 (blocks.foldl (· ++ ·) []),layer.size.toNat,layer.abs_start.toNat⟩

def split_and_hash_safetensors_core (buffer : ReadBuffer) (native : Native) (path : String) (file : FileData) :
    Except String (List (LayerResult H)) := do
  let table ← layer_table native.parse path file
  (native.std_sort.sort table.layers).mapM (hash_layer buffer path file.bytes)

/-! The buffers leave no trace. -/

theorem foldl_blocks (blocks : List Bytes) (before : Bytes) : blocks.foldl (· ++ ·) before = before ++ blocks.flatten := by
  induction blocks generalizing before with
  | nil => simp
  | cons block rest ih => simp [ih]

theorem read_range (buffer : ReadBuffer) (content : Bytes) (position size : Nat) :
    (read_blocks buffer content size position size).1.flatten = slice content position size ∧
      ((read_blocks buffer content size position size).2 > 0 ↔ (slice content position size).length < size) := by
  obtain ⟨blocks,left⟩ := read_blocks_eq buffer content size position size (Nat.le_refl _)
  exact ⟨blocks,by omega⟩

omit [DecidableEq H] in
theorem hash_layer_eq (buffer : ReadBuffer) (path : String) (content : Bytes) (layer : LayerSpec) :
    (hash_layer buffer path content layer : Except String (LayerResult H)) = AetherVault.hash_layer path content layer := by
  obtain ⟨blocks,left⟩ := read_range buffer content layer.abs_start.toNat layer.size.toNat
  have size := slice_length content layer.abs_start.toNat layer.size.toNat
  simp only [hash_layer,AetherVault.hash_layer,left,foldl_blocks,blocks,List.nil_append,LayerSpec.readable,LayerSpec.range,
    beq_iff_eq]
  split <;> split <;> first | rfl | omega

omit [DecidableEq H] in
theorem split_and_hash_eq (buffer : ReadBuffer) (native : Native) (path : String) (file : FileData) :
    (split_and_hash_safetensors_core buffer native path file : Except String (List (LayerResult H))) =
      AetherVault.split_and_hash_safetensors_core native path file := by
  unfold split_and_hash_safetensors_core AetherVault.split_and_hash_safetensors_core
  rw [funext (hash_layer_eq buffer path file.bytes)]

theorem publish_present_object {objects : Objects H} {data : Bytes} (present : objects.exists? (sha256 data : H) = true) :
    objects.publish data = objects := by
  unfold Objects.publish
  split
  · rfl
  · rename_i absent
    simp [Objects.exists?,absent] at present

theorem publish_object_bytes_eq (objects : Objects H) (data : Bytes) :
    publish_object_bytes objects data = (objects.publish data,!objects.exists? (sha256 data : H)) := by
  unfold publish_object_bytes
  split
  · rename_i present
    rw [publish_present_object present,present]
    rfl
  · rename_i absent
    rw [Bool.eq_false_of_not_eq_true absent]
    rfl

theorem publish_temp_file_eq (objects : Objects H) (blocks : List Bytes) :
    publish_temp_file objects (sha256 blocks.flatten) blocks =
      (objects.publish blocks.flatten,!objects.exists? (sha256 blocks.flatten : H)) :=
  publish_object_bytes_eq objects blocks.flatten

namespace StageWalk

variable (buffer : ReadBuffer) (buffer_cap_bytes : UInt64) (path : String) (content : Bytes)

def staged (objects : Objects H) (layer : LayerSpec) (block : Bytes) : StagedPart H :=
  ⟨layer.name,sha256 block,layer.size.toNat,layer.abs_start.toNat,!objects.exists? (sha256 block : H)⟩

def after_layer (w : StageWalk H) (layer : LayerSpec) (block : Bytes) : StageWalk H :=
  {w with
    objects := w.objects.publish block
    whole_sha := w.whole_sha ++ block
    position := w.position + layer.size.toNat
    bytes_written := if !w.objects.exists? (sha256 block : H) then w.bytes_written + layer.size.toNat else w.bytes_written
    parts := w.parts ++ [staged w.objects layer block]}

theorem consume_gap_eq (w : StageWalk H) (gap_size : UInt64) :
    w.consume_gap buffer path content gap_size =
      if (slice content w.position gap_size.toNat).length < gap_size.toNat then .error s!"Truncated read (gap) in {path}"
      else .ok {w with
        whole_sha := w.whole_sha ++ slice content w.position gap_size.toNat
        position := w.position + gap_size.toNat} := by
  obtain ⟨blocks,left⟩ := read_range buffer content w.position gap_size.toNat
  simp only [consume_gap,left,foldl_blocks,blocks]

theorem consume_layer_eq (w : StageWalk H) (layer : LayerSpec) :
    w.consume_layer buffer buffer_cap_bytes path content layer =
      if (slice content w.position layer.size.toNat).length < layer.size.toNat then
        .error s!"Truncated read for layer '{layer.name}' in {path}"
      else .ok (w.after_layer layer (slice content w.position layer.size.toNat)) := by
  obtain ⟨blocks,left⟩ := read_range buffer content w.position layer.size.toNat
  have published : (if layer.size > buffer_cap_bytes
        then publish_temp_file w.objects (sha256 (read_blocks buffer content layer.size.toNat w.position layer.size.toNat).1.flatten)
          (read_blocks buffer content layer.size.toNat w.position layer.size.toNat).1
        else publish_object_bytes w.objects (read_blocks buffer content layer.size.toNat w.position layer.size.toNat).1.flatten) =
      (w.objects.publish (slice content w.position layer.size.toNat),
        !w.objects.exists? (sha256 (slice content w.position layer.size.toNat) : H)) := by
    rw [publish_temp_file_eq,publish_object_bytes_eq,blocks,ite_self]
  simp only [consume_layer,left,foldl_blocks,List.nil_append,published]
  simp only [blocks]
  rfl

/-- The walk as it is without buffers, which keeps no offsets. -/
def plain (w : StageWalk H) : LayerWalk H :=
  { objects := w.objects
    whole := w.whole_sha
    position := w.position
    cursor := w.cursor
    bytes_written := w.bytes_written
    parts := w.parts.map fun part => ⟨part.name,part.hash,part.size⟩ }

theorem plain_consume_gap (w : StageWalk H) (gap_size : UInt64) :
    (w.consume_gap buffer path content gap_size).map plain = w.plain.consume_gap path content gap_size := by
  rw [consume_gap_eq]
  unfold LayerWalk.consume_gap
  by_cases short : (slice content w.position gap_size.toNat).length < gap_size.toNat
  · rw [if_pos short,if_pos (show (slice content w.plain.position gap_size.toNat).length < gap_size.toNat from short)]
    rfl
  · rw [if_neg short,if_neg (show ¬(slice content w.plain.position gap_size.toNat).length < gap_size.toNat from short)]
    rfl

theorem plain_consume_layer (w : StageWalk H) (layer : LayerSpec) :
    (w.consume_layer buffer buffer_cap_bytes path content layer).map plain = w.plain.consume_layer path content layer := by
  rw [consume_layer_eq]
  unfold LayerWalk.consume_layer
  by_cases short : (slice content w.position layer.size.toNat).length < layer.size.toNat
  · rw [if_pos short,if_pos (show (slice content w.plain.position layer.size.toNat).length < layer.size.toNat from short)]
    rfl
  · rw [if_neg short,if_neg (show ¬(slice content w.plain.position layer.size.toNat).length < layer.size.toNat from short)]
    simp [Except.map,plain,after_layer,staged]

theorem plain_turn (w : StageWalk H) (layer : LayerSpec) :
    (w.turn buffer buffer_cap_bytes path content layer).map plain = w.plain.turn path content layer := by
  have step : ∀ at_layer : StageWalk H,
      (do
        let done ← at_layer.consume_layer buffer buffer_cap_bytes path content layer
        Except.ok ({done with cursor := layer.abs_start + layer.size} : StageWalk H)).map plain =
      (do
        let done ← at_layer.plain.consume_layer path content layer
        Except.ok ({done with cursor := layer.abs_start + layer.size} : LayerWalk H)) := by
    intro at_layer
    rw [← plain_consume_layer buffer buffer_cap_bytes]
    cases at_layer.consume_layer buffer buffer_cap_bytes path content layer <;> rfl
  unfold turn LayerWalk.turn
  by_cases ahead : layer.abs_start > w.cursor
  · have gap : w.plain.consume_gap path content (layer.abs_start - w.plain.cursor) =
        (w.consume_gap buffer path content (layer.abs_start - w.cursor)).map plain :=
      (plain_consume_gap buffer path content w _).symm
    rw [if_pos ahead,if_pos (show layer.abs_start > w.plain.cursor from ahead),gap]
    cases w.consume_gap buffer path content (layer.abs_start - w.cursor) with
    | error e => rfl
    | ok at_layer => exact step at_layer
  · rw [if_neg ahead,if_neg (show ¬layer.abs_start > w.plain.cursor from ahead)]
    exact step w

theorem plain_finish (w : StageWalk H) : (w.finish buffer path content).map plain = w.plain.finish path content := by
  unfold finish LayerWalk.finish
  by_cases short : w.cursor < UInt64.ofNat content.length
  · rw [if_pos short,if_pos (show w.plain.cursor < UInt64.ofNat content.length from short)]
    exact plain_consume_gap buffer path content w _
  · rw [if_neg short,if_neg (show ¬w.plain.cursor < UInt64.ofNat content.length from short)]
    rfl

theorem plain_walk (layers : List LayerSpec) (w : StageWalk H) :
    walk_layers path content layers w.plain =
      ((walk buffer buffer_cap_bytes path content layers w).1,
        (walk buffer buffer_cap_bytes path content layers w).2.map plain) := by
  induction layers generalizing w with
  | nil => rfl
  | cons layer rest ih =>
    have one := plain_turn buffer buffer_cap_bytes path content w layer
    cases turned : w.turn buffer buffer_cap_bytes path content layer with
    | error e =>
      rw [turned] at one
      simp only [walk_layers,walk,turned,← one]
      rfl
    | ok next =>
      rw [turned] at one
      simp only [walk_layers,walk,turned,← one,Except.map]
      exact ih next

variable {buffer buffer_cap_bytes path content}

theorem turn_parts {w next : StageWalk H} {layer : LayerSpec}
    (ok : w.turn buffer buffer_cap_bytes path content layer = .ok next) :
    next.parts = w.parts ++ [staged w.objects layer (slice content (next.position - layer.size.toNat) layer.size.toNat)] ∧
      next.objects = w.objects.publish (slice content (next.position - layer.size.toNat) layer.size.toNat) := by
  have step : ∀ at_layer : StageWalk H, at_layer.objects = w.objects → at_layer.parts = w.parts →
      (do
        let done ← at_layer.consume_layer buffer buffer_cap_bytes path content layer
        Except.ok ({done with cursor := layer.abs_start + layer.size} : StageWalk H)) = .ok next →
      next.parts = w.parts ++ [staged w.objects layer (slice content (next.position - layer.size.toNat) layer.size.toNat)] ∧
        next.objects = w.objects.publish (slice content (next.position - layer.size.toNat) layer.size.toNat) := by
    intro at_layer objects parts did
    rw [consume_layer_eq] at did
    split at did
    · simp [bind,Except.bind] at did
    · simp only [bind,Except.bind,Except.ok.injEq] at did
      subst next
      simp [after_layer,objects,parts]
  unfold turn at ok
  by_cases ahead : layer.abs_start > w.cursor
  · rw [if_pos ahead,consume_gap_eq] at ok
    split at ok
    · simp [bind,Except.bind] at ok
    · refine step _ ?_ ?_ ok <;> rfl
  · rw [if_neg ahead] at ok
    exact step w rfl rfl ok

/-- The parts as they come out when each layer is read at its own offset. -/
def staged_layers (content : Bytes) : Objects H → List LayerSpec → List (StagedPart H)
  | _,[] => []
  | objects,layer::rest =>
    staged objects layer (layer.range content)::staged_layers content (objects.publish (layer.range content)) rest

theorem walk_parts (layers : List LayerSpec) {w final : StageWalk H}
    (ok : (walk buffer buffer_cap_bytes path content layers w).2 = .ok final) (inside : w.position ≤ content.length)
    (start : w.position = w.cursor.toNat) (stop : final.position = final.cursor.toNat) :
    final.parts = w.parts ++ staged_layers content w.objects layers := by
  induction layers generalizing w with
  | nil =>
    simp only [walk,Except.ok.injEq] at ok
    subst final
    simp [staged_layers]
  | cons layer rest ih =>
    simp only [walk] at ok
    cases one : w.turn buffer buffer_cap_bytes path content layer with
    | error e => simp [one] at ok
    | ok next =>
      simp only [one] at ok
      have plain_one : w.plain.turn path content layer = .ok next.plain := by
        rw [← plain_turn buffer buffer_cap_bytes,one]
        rfl
      have plain_rest : (walk_layers path content rest next.plain).2 = .ok final.plain := by
        rw [plain_walk buffer buffer_cap_bytes,ok]
        rfl
      obtain ⟨gap,size,within,-,-,position,cursor,-⟩ := turn_ok plain_one
      have fits := within inside
      have position : next.position = w.position + gap + layer.size.toNat := position
      have cursor : next.cursor = layer.abs_start + layer.size := cursor
      have fits : w.position + gap + layer.size.toNat ≤ content.length := fits
      have size : gap = layer.abs_start.toNat - w.cursor.toNat := size
      have drift : next.position + final.cursor.toNat ≤ final.position + next.cursor.toNat :=
        (walk_drift rest plain_rest (position.trans_le fits)).2.2.1
      have wrapped : next.cursor.toNat ≤ layer.abs_start.toNat + layer.size.toNat := by
        rw [cursor,UInt64.toNat_add]
        exact Nat.mod_le _ _
      have range : slice content (next.position - layer.size.toNat) layer.size.toNat = layer.range content := by
        rw [LayerSpec.range,show next.position - layer.size.toNat = layer.abs_start.toNat by omega]
      obtain ⟨parts,objects⟩ := turn_parts one
      rw [range] at parts objects
      rw [ih ok (position ▸ fits) (by omega),parts,objects,staged_layers]
      simp

/-- An object that a part says it wrote holds the part's own bytes. -/
theorem staged_layers_stored (layers : List LayerSpec) (objects : Objects H) {part : StagedPart H}
    (member : part ∈ staged_layers content objects layers) :
    ∃ layer ∈ layers, part.hash = sha256 (layer.range content) ∧ part.size = layer.size.toNat ∧
      part.offset = layer.abs_start.toNat ∧
      ∃ b, (objects.publishAll (layers.map (·.range content))).get? part.hash = some b ∧
        (part.written = true → b = layer.range content) := by
  induction layers generalizing objects with
  | nil => exact absurd member List.not_mem_nil
  | cons layer rest ih =>
    rcases List.mem_cons.mp member with rfl | later
    · refine ⟨layer,List.mem_cons_self,rfl,rfl,rfl,?_⟩
      have here := Objects.get?_publish objects (layer.range content) (sha256 (layer.range content) : H)
      rw [if_pos rfl] at here
      have kept := Objects.publishAll_keeps (objects.publish (layer.range content)) (rest.map fun l => l.range content) here
      refine ⟨_,kept,?_⟩
      intro written
      have absent : objects.get? (sha256 (layer.range content) : H) = none := by
        simpa [staged,Objects.exists?] using written
      rw [absent]
      rfl
    · obtain ⟨other,listed,found⟩ := ih _ later
      exact ⟨other,List.mem_cons_of_mem _ listed,found⟩

end StageWalk

theorem plain_header (content : Bytes) (objects : Objects H) (base_offset : UInt64) :
    (StageWalk.header content objects base_offset).plain = header_walk objects content base_offset := by
  simp only [StageWalk.header,publish_object_bytes_eq,StageWalk.plain,header_walk]
  cases objects.exists? (sha256 (content.take base_offset.toNat) : H) <;> rfl

def SafetensorsStage.plain (stage : SafetensorsStage H) : LayerStage H :=
  ⟨stage.whole_hash,stage.bytes_written,stage.parts.map fun part => ⟨part.name,part.hash,part.size⟩⟩

theorem stage_safetensors_plain (buffer : ReadBuffer) (buffer_cap_bytes : UInt64) (native : Native) (path : String)
    (objects : Objects H) (file : FileData) :
    AetherVault.stage_safetensors_core_parts_only native path objects file =
      ((stage_safetensors_core_parts_only buffer buffer_cap_bytes native path objects file).1,
        (stage_safetensors_core_parts_only buffer buffer_cap_bytes native path objects file).2.map SafetensorsStage.plain) := by
  unfold AetherVault.stage_safetensors_core_parts_only stage_safetensors_core_parts_only
  cases layer_table native.parse path file with
  | error e => rfl
  | ok table =>
    dsimp only
    split
    · rfl
    · rw [← plain_header,StageWalk.plain_walk buffer buffer_cap_bytes]
      cases StageWalk.walk buffer buffer_cap_bytes path file.bytes (native.std_sort.sort table.layers).tail
          (StageWalk.header file.bytes objects table.base_offset) with
      | mk published result =>
        cases result with
        | error e => rfl
        | ok w =>
          simp only [Except.map]
          rw [← StageWalk.plain_finish buffer]
          cases w.finish buffer path file.bytes <;> rfl

variable {buffer : ReadBuffer} {buffer_cap_bytes : UInt64} {native : Native} {path : String} {objects : Objects H}
  {file : FileData} {stage : SafetensorsStage H}

theorem header_parts (objects : Objects H) (content : Bytes) (base_offset : UInt64) :
    (StageWalk.header content objects base_offset).objects = objects.publish (content.take base_offset.toNat) ∧
      (StageWalk.header content objects base_offset).parts =
        [StageWalk.staged objects ⟨"__header__",0,base_offset⟩ (content.take base_offset.toNat)] := by
  simp [StageWalk.header,publish_object_bytes_eq,StageWalk.staged]

theorem finish_parts {w final : StageWalk H} {content : Bytes} (ended : w.finish buffer path content = .ok final) :
    final.parts = w.parts := by
  unfold StageWalk.finish at ended
  dsimp only at ended
  split at ended
  · rw [StageWalk.consume_gap_eq] at ended
    split at ended
    · contradiction
    · rw [← Except.ok.inj ended]
  · rw [Except.ok.inj ended]

theorem staged_layers_results (content : Bytes) (layers : List LayerSpec) (objects : Objects H) :
    (StageWalk.staged_layers content objects layers).map StagedPart.result =
      layers.map fun l => ⟨l.name,sha256 (l.range content),l.size.toNat,l.abs_start.toNat⟩ := by
  induction layers generalizing objects with
  | nil => rfl
  | cons layer rest ih =>
    rw [StageWalk.staged_layers,List.map_cons,List.map_cons,ih]
    rfl

/-- Two sorts of layers with offsets of their own cannot differ. -/
theorem sorts_agree (first second : LayerSort) {layers : List LayerSpec}
    (distinct : ((first.sort layers).map (·.abs_start.toNat)).Nodup) : first.sort layers = second.sort layers := by
  have same := (first.perm layers).trans (second.perm layers).symm
  apply same.eq_of_pairwise _ (first.ordered layers) (second.ordered layers)
  intro a b left right below above
  have at_once : a.abs_start.toNat = b.abs_start.toNat := congrArg UInt64.toNat (UInt64.le_antisymm below above)
  exact List.inj_on_of_nodup_map distinct left (same.mem_iff.mpr right) at_once

/-- Where the one-pass path succeeds its parts are the ranges of the header, each at its own offset. -/
theorem stage_parts
    (ok : (stage_safetensors_core_parts_only buffer buffer_cap_bytes native path objects file).2 = .ok stage) :
    ∃ table, layer_table native.parse path file = .ok table ∧
      overlapping (native.std_sort.sort table.layers) = false ∧
      native.std_sort.sort table.layers = ⟨"__header__",0,table.base_offset⟩::(native.std_sort.sort table.layers).tail ∧
      stage.parts = StageWalk.staged_layers file.bytes objects (native.std_sort.sort table.layers) := by
  unfold stage_safetensors_core_parts_only at ok
  cases read : layer_table native.parse path file with
  | error e => simp [read] at ok
  | ok table =>
    obtain ⟨header,least,most⟩ := layer_table_header read
    have listed := (native.std_sort.perm table.layers).mem_iff.mpr header
    refine ⟨table,rfl,?_⟩
    simp only [read] at ok
    generalize native.std_sort.sort table.layers = layers at ok listed ⊢
    split at ok
    · contradiction
    · rename_i apart
      refine ⟨Bool.eq_false_of_not_eq_true apart,?_⟩
      cases walked : StageWalk.walk buffer buffer_cap_bytes path file.bytes layers.tail
          (StageWalk.header file.bytes objects table.base_offset) with
      | mk published result =>
      cases result with
      | error e => simp [walked] at ok
      | ok w =>
      cases ended : w.finish buffer path file.bytes with
      | error e => simp [walked,ended] at ok
      | ok final =>
      simp only [walked,ended,Except.ok.injEq] at ok
      have walk : (StageWalk.walk buffer buffer_cap_bytes path file.bytes layers.tail
          (StageWalk.header file.bytes objects table.base_offset)).2 = .ok w := by rw [walked]
      have plain_walk : (walk_layers path file.bytes layers.tail
          (header_walk objects file.bytes table.base_offset)).2 = .ok w.plain := by
        rw [← plain_header,StageWalk.plain_walk buffer buffer_cap_bytes,walk]
        rfl
      have plain_end : w.plain.finish path file.bytes = .ok final.plain := by
        rw [← StageWalk.plain_finish buffer,ended]
        rfl
      obtain ⟨first,stop,-⟩ := finished_walk listed least most plain_walk plain_end
      obtain ⟨published,parts⟩ := header_parts objects file.bytes table.base_offset
      have head : (⟨"__header__",0,table.base_offset⟩ : LayerSpec).range file.bytes =
          file.bytes.take table.base_offset.toNat := by simp [LayerSpec.range,slice]
      have all := StageWalk.walk_parts layers.tail walk most rfl stop
      rw [published,parts] at all
      refine ⟨first,?_⟩
      rw [← ok,finish_parts ended,all,first,StageWalk.staged_layers,head]
      rfl

theorem toOption_some {α : Type} {result : Except String α} {value : α} (some_value : result.toOption = some value) :
    result = .ok value := by
  cases result with
  | error e => contradiction
  | ok v => exact congrArg Except.ok (Option.some.inj some_value)

/-- What the path that reads each layer on its own makes of a file that the one-pass path accepts. -/
theorem accepted_split (split_buffer : ReadBuffer) (tie_break : LayerSort)
    (ok : (stage_safetensors_core_parts_only buffer buffer_cap_bytes native path objects file).2 = .ok stage) :
    ∃ table, layer_table native.parse path file = .ok table ∧
      stage.parts = StageWalk.staged_layers file.bytes objects (native.std_sort.sort table.layers) ∧
      split_and_hash_safetensors_core split_buffer {native with std_sort := tie_break} path file =
        .ok ((tie_break.sort table.layers).map fun l =>
          (⟨l.name,sha256 (l.range file.bytes),l.size.toNat,l.abs_start.toNat⟩ : LayerResult H)) := by
  obtain ⟨table,read,-,-,parts⟩ := stage_parts ok
  have plain_ok : (AetherVault.stage_safetensors_core_parts_only native path objects file).2 = .ok stage.plain := by
    rw [stage_safetensors_plain buffer buffer_cap_bytes,ok]
    rfl
  obtain ⟨ranges,cut,-⟩ := stage_safetensors_ok plain_ok
  have readable := split_ranges_readable cut
  rw [split_ranges_of_table read] at cut
  split at cut
  · obtain rfl := Option.some.inj cut
    have read_again : layer_table ({native with std_sort := tie_break} : Native).parse path file = .ok table := read
    have cut_again : split_ranges {native with std_sort := tie_break} path file = some (tie_break.sort table.layers) := by
      rw [split_ranges_of_table read_again]
      apply if_pos
      rw [List.all_eq_true]
      intro layer member
      exact readable layer ((native.std_sort.perm _).mem_iff.mpr ((tie_break.perm _).mem_iff.mp member))
    have split_ok := split_and_hash_safetensors_core_eq (H := H) {native with std_sort := tie_break} path file
    rw [cut_again,Option.map_some,← split_and_hash_eq split_buffer] at split_ok
    exact ⟨table,read,parts,toOption_some split_ok⟩
  · contradiction

/-- Accepted by the one-pass path, a file is split the same way by the path that reads
each layer on its own, whatever either buffer holds and however either sort breaks ties. -/
theorem fused_staging_splits (split_buffer : ReadBuffer) (tie_break : LayerSort)
    (ok : (stage_safetensors_core_parts_only buffer buffer_cap_bytes native path objects file).2 = .ok stage) :
    ∃ results : List (LayerResult H),
      split_and_hash_safetensors_core split_buffer {native with std_sort := tie_break} path file = .ok results ∧
      (stage.parts.map StagedPart.result).Perm results ∧
      ((stage.parts.map StagedPart.offset).Nodup → stage.parts.map StagedPart.result = results) ∧
      stage.whole_hash = sha256 file.bytes ∧
      ∀ part ∈ stage.parts, part.hash = sha256 (slice file.bytes part.offset part.size) ∧
        ∃ b, (stage_safetensors_core_parts_only buffer buffer_cap_bytes native path objects file).1.get? part.hash = some b ∧
          (part.written = true → b = slice file.bytes part.offset part.size) := by
  obtain ⟨table,read,parts,split_ok⟩ := accepted_split split_buffer tie_break ok
  have plain_ok : (AetherVault.stage_safetensors_core_parts_only native path objects file).2 = .ok stage.plain := by
    rw [stage_safetensors_plain buffer buffer_cap_bytes,ok]
    rfl
  obtain ⟨ranges,cut,-,whole,-,store⟩ := stage_safetensors_ok plain_ok
  rw [split_ranges_of_table read] at cut
  split at cut
  · obtain rfl := Option.some.inj cut
    refine ⟨_,split_ok,?_,?_,whole,?_⟩
    · rw [parts,staged_layers_results]
      exact ((native.std_sort.perm _).trans (tie_break.perm _).symm).map _
    · intro distinct
      have offsets : stage.parts.map StagedPart.offset = (native.std_sort.sort table.layers).map (·.abs_start.toNat) := by
        have results := congrArg (List.map LayerResult.offset)
          (staged_layers_results file.bytes (native.std_sort.sort table.layers) objects)
        rw [parts]
        simpa [StagedPart.result,Function.comp_def] using results
      rw [parts,staged_layers_results,sorts_agree native.std_sort tie_break (offsets ▸ distinct)]
    · intro part member
      rw [parts] at member
      obtain ⟨layer,-,hash,size,offset,b,held,written⟩ := StageWalk.staged_layers_stored _ _ member
      have range : layer.range file.bytes = slice file.bytes part.offset part.size := by
        rw [offset,size,LayerSpec.range]
      rw [range] at hash written
      rw [stage_safetensors_plain buffer buffer_cap_bytes] at store
      exact ⟨hash,b,store ▸ held,written⟩
  · contradiction

def by_start (layers : List LayerSpec) : List LayerSpec := layers.insertionSort fun a b => a.abs_start ≤ b.abs_start

theorem by_start_perm (layers : List LayerSpec) : (by_start layers).Perm layers := List.perm_insertionSort _ layers

theorem by_start_ordered (layers : List LayerSpec) :
    (by_start layers).Pairwise (fun a b => a.abs_start ≤ b.abs_start) := List.pairwise_insertionSort _ layers

/-! Two tensors declared out of order, one of no bytes, with a byte before the other that is in no layer. -/

def gapped_header : Bytes :=
  ("\x7b\"a\":\x7b\"data_offsets\":[1,4]\x7d,\"b\":\x7b\"data_offsets\":[0,0]\x7d\x7d".toList).map fun c => UInt8.ofNat c.toNat

def gapped_native : Native where
  parse text :=
    if text = gapped_header then .ok (.object [
      ("a",.object [("data_offsets",.array [.number_unsigned 1,.number_unsigned 4])]),
      ("b",.object [("data_offsets",.array [.number_unsigned 0,.number_unsigned 0])])])
    else .error "parse error"
  std_sort := ⟨by_start,by_start_perm,by_start_ordered⟩

def gapped_file : FileData where
  bytes := [55,0,0,0,0,0,0,0] ++ gapped_header ++ [0,1,2,3]
  fits := by decide

def gapped_stage : Objects Name × Except String (SafetensorsStage Name) :=
  stage_safetensors_core_parts_only ⟨2,by decide⟩ 2 gapped_native "m" .empty gapped_file

theorem fused_staging_splits_gapped :
    ∃ stage results, gapped_stage.2 = .ok stage ∧
      split_and_hash_safetensors_core READ_BUF gapped_native "m" gapped_file = .ok results ∧
      (stage.parts.map StagedPart.result).Perm results ∧
      stage.parts.map StagedPart.name = ["__header__","b","a"] := by
  have ran : gapped_stage.2.toOption.map (fun stage => stage.parts.map StagedPart.name) =
      some ["__header__","b","a"] := by decide +kernel
  cases ok : gapped_stage.2 with
  | error e =>
    rw [ok] at ran
    contradiction
  | ok stage =>
    rw [ok] at ran
    obtain ⟨results,split,same,-⟩ := fused_staging_splits READ_BUF gapped_native.std_sort ok
    exact ⟨stage,results,rfl,split,same,Option.some.inj ran⟩

end AetherVault.Buffered
