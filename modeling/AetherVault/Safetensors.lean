import AetherVault.Cdc

/-! The safetensors layer split of `core.cpp`: header parse and declared ranges, the
one-pass `stage_safetensors_core_parts_only` and the per-layer re-read of
`split_and_hash_safetensors_core`. The vendored JSON parser and the unstable
`std::sort` are parameters; whatever order ties get, both paths agree. -/
namespace AetherVault
open Lib Hashing

/-- A parsed header value. A float is kept as the unsigned number it converts to. -/
inductive Json
  | null
  | boolean (b : Bool)
  | number_unsigned (n : UInt64)
  | number_integer (n : Int64)
  | number_float (truncated : UInt64)
  | string (s : String)
  | array (values : List Json)
  | object (members : List (String × Json))

namespace Json

def items : Json → List (String × Json)
  | .null => []
  | .array values => ((List.range values.length).map toString).zip values
  | .object members => members
  | value => [("",value)]

/-- `contains` and `operator[]` by name; only an object contains anything. -/
def member? (value : Json) (key : String) : Option Json :=
  match value with
  | .object members => members.lookup key
  | _ => none

def size : Json → Nat
  | .null => 0
  | .array values => values.length
  | .object members => members.length
  | _ => 1

def get_uint64 : Json → Except String UInt64
  | .number_unsigned n => .ok n
  | .number_integer n => .ok n.toUInt64
  | .number_float n => .ok n
  | _ => .error "type must be number"

end Json

structure LayerSpec where
  name : String
  abs_start : UInt64
  size : UInt64
  deriving DecidableEq

/-- `std::sort` by start offset: a permutation in order, ties in any order. -/
structure LayerSort where
  sort : List LayerSpec → List LayerSpec
  perm : ∀ layers, (sort layers).Perm layers
  ordered : ∀ layers, (sort layers).Pairwise (fun a b => a.abs_start ≤ b.abs_start)

/-- The native extension, `none` where it is not installed. -/
structure Native where
  parse : Bytes → Except String Json
  std_sort : LayerSort

structure Layer (H : Type) where
  name : String
  hash : H
  size : Nat
  deriving DecidableEq

/-! The layer table of a header. -/

def little_endian : Bytes → UInt64
  | [] => 0
  | b::rest => b.toUInt64 + 256 * little_endian rest

def declared_layer (path : String) (base_offset total_size : UInt64) (el : String × Json) :
    Except String (Option LayerSpec) :=
  if el.1 = "__metadata__" then .ok none
  else match el.2.member? "data_offsets" with
    | none => .ok none
    | some offsets =>
      if offsets.size = 2 then
        match offsets with
        | .array [first,second] => do
          let start ← first.get_uint64
          let stop ← second.get_uint64
          if stop < start then
            .error s!"Invalid data_offsets (end < start) for layer '{el.1}' in {path}"
          else if base_offset + stop > total_size then
            .error s!"Layer '{el.1}' data_offsets exceed file size in {path}"
          else .ok (some ⟨el.1,base_offset + start,stop - start⟩)
        | _ => .error "cannot use operator[] with a numeric argument"
      else .ok none

structure LayerTable where
  base_offset : UInt64
  layers : List LayerSpec

def layer_table (parse : Bytes → Except String Json) (path : String) (file : FileData) : Except String LayerTable :=
  let total_size := UInt64.ofNat file.bytes.length
  if total_size < 8 then .error s!"File too small to be a safetensors file: {path}"
  else
    let header_size := little_endian (file.bytes.take 8)
    if header_size > total_size - 8 then
      .error s!"Invalid safetensors header size (exceeds file): {path}"
    else do
      let base_offset := 8 + header_size
      let header ← parse (slice file.bytes 8 header_size.toNat)
      let declared ← header.items.mapM (declared_layer path base_offset total_size)
      .ok ⟨base_offset,⟨"__header__",0,base_offset⟩::declared.reduceOption⟩

def LayerSpec.range (layer : LayerSpec) (content : Bytes) : Bytes :=
  slice content layer.abs_start.toNat layer.size.toNat

/-- Reading the range gives as many bytes as it declares. -/
def LayerSpec.readable (layer : LayerSpec) (content : Bytes) : Bool :=
  (layer.range content).length == layer.size.toNat

variable {H : Type} [DecidableEq H] [Hashing H]

def LayerSpec.part (content : Bytes) (layer : LayerSpec) : Layer H :=
  ⟨layer.name,sha256 (layer.range content),layer.size.toNat⟩

/-! The fused path. -/

structure LayerWalk (H : Type) [DecidableEq H] [Hashing H] where
  objects : Objects H
  whole : Bytes
  position : Nat
  cursor : UInt64
  bytes_written : Nat
  parts : List (Layer H)

def LayerWalk.consume_gap (path : String) (content : Bytes) (w : LayerWalk H) (gap_size : UInt64) :
    Except String (LayerWalk H) :=
  let block := slice content w.position gap_size.toNat
  if block.length < gap_size.toNat then .error s!"Truncated read (gap) in {path}"
  else .ok {w with whole := w.whole ++ block,position := w.position+gap_size.toNat}

def LayerWalk.consume_layer (path : String) (content : Bytes) (w : LayerWalk H) (layer : LayerSpec) :
    Except String (LayerWalk H) :=
  let block := slice content w.position layer.size.toNat
  if block.length < layer.size.toNat then .error s!"Truncated read for layer '{layer.name}' in {path}"
  else
    let written := !w.objects.exists? (sha256 block : H)
    .ok {w with
      objects := w.objects.publish block
      whole := w.whole ++ block
      position := w.position+layer.size.toNat
      bytes_written := if written then w.bytes_written+layer.size.toNat else w.bytes_written
      parts := w.parts ++ [⟨layer.name,sha256 block,layer.size.toNat⟩]}

def LayerWalk.turn (path : String) (content : Bytes) (w : LayerWalk H) (layer : LayerSpec) :
    Except String (LayerWalk H) := do
  let at_layer ←
    if layer.abs_start > w.cursor then w.consume_gap path content (layer.abs_start - w.cursor) else .ok w
  let done ← at_layer.consume_layer path content layer
  .ok {done with cursor := layer.abs_start + layer.size}

/-- Keeps what was published before a truncated read. -/
def walk_layers (path : String) (content : Bytes) : List LayerSpec → LayerWalk H →
    Objects H × Except String (LayerWalk H)
  | [],w => (w.objects,.ok w)
  | layer::rest,w =>
    match w.turn path content layer with
    | .error e => (w.objects,.error e)
    | .ok next => walk_layers path content rest next

def overlapping : List LayerSpec → Bool
  | a::b::rest => b.abs_start < a.abs_start + a.size || overlapping (b::rest)
  | _ => false

structure LayerStage (H : Type) where
  whole_hash : H
  bytes_written : Nat
  parts : List (Layer H)

def LayerWalk.finish (path : String) (content : Bytes) (w : LayerWalk H) : Except String (LayerWalk H) :=
  let total_size := UInt64.ofNat content.length
  if w.cursor < total_size then w.consume_gap path content (total_size - w.cursor) else .ok w

def header_walk (objects : Objects H) (content : Bytes) (base_offset : UInt64) : LayerWalk H :=
  let header_raw := content.take base_offset.toNat
  { objects := objects.publish header_raw
    whole := header_raw
    position := base_offset.toNat
    cursor := base_offset
    bytes_written := if objects.exists? (sha256 header_raw : H) then 0 else header_raw.length
    parts := [⟨"__header__",sha256 header_raw,base_offset.toNat⟩] }

def stage_safetensors_core_parts_only (native : Native) (path : String) (objects : Objects H) (file : FileData) :
    Objects H × Except String (LayerStage H) :=
  match layer_table native.parse path file with
  | .error e => (objects,.error e)
  | .ok table =>
    let layers := native.std_sort.sort table.layers
    if overlapping layers then
      (objects,.error s!"Overlapping safetensors layer ranges in {path} (unsupported by fused staging, falls back to legacy)")
    else
      -- the header comes from memory, so the walk starts at the second layer
      match walk_layers path file.bytes layers.tail (header_walk objects file.bytes table.base_offset) with
      | (published,.error e) => (published,.error e)
      | (published,.ok w) =>
        match w.finish path file.bytes with
        | .error e => (published,.error e)
        | .ok final => (published,.ok ⟨sha256 final.whole,final.bytes_written,final.parts⟩)

/-! The legacy path: each layer is read again from its own offset. -/

structure LayerResult (H : Type) where
  name : String
  hash : H
  size : Nat
  offset : Nat

def hash_layer (path : String) (content : Bytes) (layer : LayerSpec) : Except String (LayerResult H) :=
  if layer.readable content then
    .ok ⟨layer.name,sha256 (layer.range content),layer.size.toNat,layer.abs_start.toNat⟩
  else .error s!"Truncated read for layer '{layer.name}' in {path}"

def split_and_hash_safetensors_core (native : Native) (path : String) (file : FileData) :
    Except String (List (LayerResult H)) := do
  let table ← layer_table native.parse path file
  (native.std_sort.sort table.layers).mapM (hash_layer path file.bytes)

/-! What both paths do. -/

theorem slice_length_le (content : Bytes) (start size : Nat) (full : size ≤ (slice content start size).length)
    (here : start ≤ content.length) : start+size ≤ content.length := by
  simp only [slice,List.length_take,List.length_drop] at full
  omega

theorem take_append_slice (content : Bytes) (start size : Nat) :
    content.take start ++ slice content start size = content.take (start+size) :=
  List.take_add.symm

theorem total_size (file : FileData) : (UInt64.ofNat file.bytes.length).toNat = file.bytes.length := by
  rw [UInt64.toNat_ofNat']
  exact Nat.mod_eq_of_lt file.fits

/-- The declared length of the JSON text. -/
def header_len (file : FileData) : Nat := (little_endian (file.bytes.take 8)).toNat

/-- A header that is read fits in its file, so its length does not wrap around. -/
theorem layer_table_ok {parse : Bytes → Except String Json} {path : String} {file : FileData} {table : LayerTable}
    (read : layer_table parse path file = .ok table) :
    ∃ header declared, parse (slice file.bytes 8 (header_len file)) = .ok header ∧
      header.items.mapM (declared_layer path table.base_offset (UInt64.ofNat file.bytes.length)) = .ok declared ∧
      table.layers = ⟨"__header__",0,table.base_offset⟩::declared.reduceOption ∧
      table.base_offset.toNat = 8 + header_len file ∧ 8 + header_len file ≤ file.bytes.length := by
  have total := total_size file
  unfold layer_table at read
  dsimp only at read
  split at read
  · contradiction
  · split at read
    · contradiction
    · rename_i small large
      have enough : 8 ≤ file.bytes.length := by
        have := UInt64.le_iff_toNat_le.mp (UInt64.not_lt.mp small)
        simpa [total] using this
      have inside : header_len file ≤ file.bytes.length - 8 := by
        have bound := UInt64.le_iff_toNat_le.mp (UInt64.not_lt.mp large)
        rwa [UInt64.toNat_sub_of_le _ _ (UInt64.not_lt.mp small),total] at bound
      have offset : (8 + little_endian (file.bytes.take 8)).toNat = 8 + header_len file := by
        have := file.fits
        rw [UInt64.toNat_add]
        exact Nat.mod_eq_of_lt (by simp only [header_len] at inside; simp; omega)
      cases parsed : parse (slice file.bytes 8 (little_endian (file.bytes.take 8)).toNat) with
      | error e => simp [parsed,bind,Except.bind] at read
      | ok header =>
        cases listed : header.items.mapM
            (declared_layer path (8 + little_endian (file.bytes.take 8)) (UInt64.ofNat file.bytes.length)) with
        | error e => simp [parsed,listed,bind,Except.bind] at read
        | ok declared =>
          simp only [parsed,listed,bind,Except.bind,Except.ok.injEq] at read
          subst table
          exact ⟨header,declared,parsed,listed,rfl,offset,by omega⟩

theorem layer_table_header {parse : Bytes → Except String Json} {path : String} {file : FileData} {table : LayerTable}
    (read : layer_table parse path file = .ok table) :
    ⟨"__header__",0,table.base_offset⟩ ∈ table.layers ∧ 8 ≤ table.base_offset.toNat ∧
      table.base_offset.toNat ≤ file.bytes.length := by
  obtain ⟨header,declared,-,-,layers,offset,fits⟩ := layer_table_ok read
  rw [layers,offset]
  exact ⟨List.mem_cons_self,by omega,fits⟩

theorem consume_gap_ok {path : String} {content : Bytes} {w next : LayerWalk H} {gap : UInt64}
    (ok : w.consume_gap path content gap = .ok next) :
    gap.toNat ≤ (slice content w.position gap.toNat).length ∧
      next = {w with whole := w.whole ++ slice content w.position gap.toNat,position := w.position+gap.toNat} := by
  unfold LayerWalk.consume_gap at ok
  dsimp only at ok
  split at ok
  · contradiction
  · rename_i full
    exact ⟨Nat.not_lt.mp full,(Except.ok.inj ok).symm⟩

theorem turn_ok {path : String} {content : Bytes} {w next : LayerWalk H} {layer : LayerSpec}
    (ok : w.turn path content layer = .ok next) :
    ∃ gap, gap = layer.abs_start.toNat-w.cursor.toNat ∧
      (w.position ≤ content.length → w.position+gap+layer.size.toNat ≤ content.length) ∧
      next.objects = w.objects.publish (slice content (w.position+gap) layer.size.toNat) ∧
      next.whole = w.whole ++ slice content w.position gap ++ slice content (w.position+gap) layer.size.toNat ∧
      next.position = w.position+gap+layer.size.toNat ∧
      next.cursor = layer.abs_start + layer.size ∧
      next.parts = w.parts ++
        [⟨layer.name,sha256 (slice content (w.position+gap) layer.size.toNat),layer.size.toNat⟩] := by
  have step : ∀ at_layer : LayerWalk H, (do
        let done ← at_layer.consume_layer path content layer
        Except.ok ({done with cursor := layer.abs_start + layer.size} : LayerWalk H)) = .ok next →
      (at_layer.position ≤ content.length → at_layer.position+layer.size.toNat ≤ content.length) ∧
      next.objects = at_layer.objects.publish (slice content at_layer.position layer.size.toNat) ∧
      next.whole = at_layer.whole ++ slice content at_layer.position layer.size.toNat ∧
      next.position = at_layer.position+layer.size.toNat ∧ next.cursor = layer.abs_start + layer.size ∧
      next.parts = at_layer.parts ++
        [⟨layer.name,sha256 (slice content at_layer.position layer.size.toNat),layer.size.toNat⟩] := by
    intro at_layer did
    unfold LayerWalk.consume_layer at did
    dsimp only at did
    split at did
    · simp [bind,Except.bind] at did
    · rename_i full
      simp only [bind,Except.bind,Except.ok.injEq] at did
      subst next
      exact ⟨slice_length_le _ _ _ (Nat.not_lt.mp full),rfl,rfl,rfl,rfl,rfl⟩
  unfold LayerWalk.turn at ok
  by_cases ahead : layer.abs_start > w.cursor
  · rw [if_pos ahead] at ok
    cases moved : w.consume_gap path content (layer.abs_start - w.cursor) with
    | error e => simp [moved,bind,Except.bind] at ok
    | ok at_layer =>
      obtain ⟨full,made⟩ := consume_gap_ok moved
      have gap := UInt64.toNat_sub_of_le _ _ (UInt64.le_of_lt ahead)
      have here := slice_length_le _ _ _ full
      simp only [moved] at ok
      obtain ⟨fits,rest⟩ := step at_layer ok
      refine ⟨layer.abs_start.toNat-w.cursor.toNat,rfl,?_,?_⟩
      · simpa [made,gap] using fun inside => fits (by simpa [made] using here inside)
      · simpa [made,gap] using rest
  · rw [if_neg ahead] at ok
    have behind := UInt64.le_iff_toNat_le.mp (UInt64.not_lt.mp ahead)
    obtain ⟨fits,rest⟩ := step w ok
    refine ⟨0,by omega,fits,?_⟩
    simpa [slice] using rest

/-- The read position never falls behind the cursor: it gains on it when a layer
starts before the cursor, and by all that was read when a layer starts the file again. -/
theorem walk_drift {path : String} {content : Bytes} (layers : List LayerSpec) {w final : LayerWalk H}
    (ok : (walk_layers path content layers w).2 = .ok final) (inside : w.position ≤ content.length) :
    w.position ≤ final.position ∧ final.position ≤ content.length ∧
      w.position+final.cursor.toNat ≤ final.position+w.cursor.toNat ∧
      ∀ layer ∈ layers, layer.abs_start = 0 → w.position+final.cursor.toNat ≤ final.position := by
  induction layers generalizing w with
  | nil =>
    simp only [walk_layers,Except.ok.injEq] at ok
    subst final
    exact ⟨Nat.le_refl _,inside,Nat.le_refl _,by simp⟩
  | cons layer rest ih =>
    simp only [walk_layers] at ok
    cases one : w.turn path content layer with
    | error e => simp [one] at ok
    | ok next =>
      simp only [one] at ok
      obtain ⟨gap,size,within,-,-,position,cursor,-⟩ := turn_ok one
      have fits := within inside
      obtain ⟨later,bound,drift,again⟩ := ih ok (by omega)
      have wrapped : next.cursor.toNat ≤ layer.abs_start.toNat+layer.size.toNat := by
        rw [cursor,UInt64.toNat_add]
        exact Nat.mod_le _ _
      refine ⟨by omega,bound,by omega,?_⟩
      intro other member zero
      rcases List.mem_cons.mp member with rfl | member
      · have start : other.abs_start.toNat = 0 := by rw [zero]; rfl
        omega
      · have := again other member zero
        omega

/-- A walk that ends where its cursor is has read every layer at its own offset. -/
theorem walk_exact {path : String} {content : Bytes} (layers : List LayerSpec) {w final : LayerWalk H}
    (ok : (walk_layers path content layers w).2 = .ok final) (inside : w.position ≤ content.length)
    (start : w.position = w.cursor.toNat) (stop : final.position = final.cursor.toNat)
    (whole : w.whole = content.take w.position) :
    (walk_layers path content layers w).1 = w.objects.publishAll (layers.map (·.range content)) ∧
      final.whole = content.take final.position ∧
      final.parts = w.parts ++ layers.map (LayerSpec.part content) ∧
      ∀ layer ∈ layers, layer.readable content = true := by
  induction layers generalizing w with
  | nil =>
    simp only [walk_layers,Except.ok.injEq] at ok
    subst final
    exact ⟨rfl,whole,by simp,by simp⟩
  | cons layer rest ih =>
    simp only [walk_layers] at ok
    cases one : w.turn path content layer with
    | error e => simp [one] at ok
    | ok next =>
      simp only [one] at ok
      obtain ⟨gap,size,within,objects,read,position,cursor,parts⟩ := turn_ok one
      have fits := within inside
      obtain ⟨-,-,drift,-⟩ := walk_drift rest ok (by omega)
      have wrapped : next.cursor.toNat ≤ layer.abs_start.toNat+layer.size.toNat := by
        rw [cursor,UInt64.toNat_add]
        exact Nat.mod_le _ _
      have here : w.position+gap = layer.abs_start.toNat := by omega
      have range : slice content (w.position+gap) layer.size.toNat = layer.range content := by
        rw [here]
        rfl
      have taken : next.whole = content.take next.position := by
        rw [read,whole,take_append_slice,take_append_slice,position]
      obtain ⟨store,final_whole,final_parts,all⟩ := ih ok (by omega) (by omega) taken
      rw [range] at objects parts
      refine ⟨?_,final_whole,?_,?_⟩
      · simp [walk_layers,one,store,objects,Objects.publishAll]
      · simp [final_parts,parts,LayerSpec.part]
      · intro other member
        rcases List.mem_cons.mp member with rfl | member
        · have full : (other.range content).length = other.size.toNat := by
            simp only [LayerSpec.range,slice,List.length_take,List.length_drop]
            omega
          simp [LayerSpec.readable,full]
        · exact all other member

/-- The pieces of a file that a staging path may publish. -/
def slices (content : Bytes) : Set Bytes := {b | ∃ start size, b = slice content start size}

theorem walk_store (path : String) (content : Bytes) (layers : List LayerSpec) (w : LayerWalk H) :
    ∃ blobs : List Bytes, (∀ b ∈ blobs, b ∈ slices content) ∧
      (walk_layers path content layers w).1 = w.objects.publishAll blobs := by
  induction layers generalizing w with
  | nil => exact ⟨[],by simp,rfl⟩
  | cons layer rest ih =>
    simp only [walk_layers]
    cases one : w.turn path content layer with
    | error e => exact ⟨[],by simp,rfl⟩
    | ok next =>
      obtain ⟨gap,-,-,published,-⟩ := turn_ok one
      obtain ⟨blobs,all,store⟩ := ih next
      refine ⟨slice content (w.position+gap) layer.size.toNat::blobs,?_,?_⟩
      · intro other member
        rcases List.mem_cons.mp member with rfl | member
        · exact ⟨_,_,rfl⟩
        · exact all other member
      · simp only [store,published,Objects.publishAll,List.foldl_cons]

/-- The ranges, in file order, that a layer split cuts: `none` when the header does
not parse or a range cannot be read, and then neither path splits the file. -/
def split_ranges (native : Native) (path : String) (file : FileData) : Option (List LayerSpec) :=
  match layer_table native.parse path file with
  | .error _ => none
  | .ok table =>
    if table.layers.all (·.readable file.bytes) then some (native.std_sort.sort table.layers) else none

theorem split_ranges_of_table {native : Native} {path : String} {file : FileData} {table : LayerTable}
    (read : layer_table native.parse path file = .ok table) :
    split_ranges native path file =
      if (native.std_sort.sort table.layers).all (·.readable file.bytes)
      then some (native.std_sort.sort table.layers) else none := by
  have same : (native.std_sort.sort table.layers).all (·.readable file.bytes) =
      table.layers.all (·.readable file.bytes) := (native.std_sort.perm table.layers).all_eq
  simp [split_ranges,read,same]

theorem split_ranges_readable {native : Native} {path : String} {file : FileData} {ranges : List LayerSpec}
    (cut : split_ranges native path file = some ranges) : ∀ layer ∈ ranges, layer.readable file.bytes = true := by
  unfold split_ranges at cut
  split at cut
  · contradiction
  · rename_i table read
    split at cut
    · rename_i all
      rw [← Option.some.inj cut]
      intro layer member
      exact List.all_eq_true.mp all layer ((native.std_sort.perm table.layers).mem_iff.mp member)
    · contradiction

theorem split_ranges_nonempty {native : Native} {path : String} {file : FileData} {ranges : List LayerSpec}
    (cut : split_ranges native path file = some ranges) : ranges ≠ [] := by
  unfold split_ranges at cut
  split at cut
  · contradiction
  · rename_i table read
    split at cut
    · have header := (native.std_sort.perm table.layers).mem_iff.mpr (layer_table_header read).1
      rw [Option.some.inj cut] at header
      exact List.ne_nil_of_mem header
    · contradiction

omit [DecidableEq H] in
theorem mapM_hash_layer (path : String) (content : Bytes) (layers : List LayerSpec) :
    (layers.mapM (hash_layer path content) : Except String (List (LayerResult H))).toOption =
      if layers.all (·.readable content) then
        some (layers.map fun l => ⟨l.name,sha256 (l.range content),l.size.toNat,l.abs_start.toNat⟩) else none := by
  induction layers with
  | nil => rfl
  | cons layer rest ih =>
    rw [List.mapM_cons]
    cases done : layer.readable content with
    | false => simp [hash_layer,done,bind,Except.bind,Except.toOption]
    | true =>
      cases tail : (rest.mapM (hash_layer path content) : Except String (List (LayerResult H))) with
      | error e =>
        rw [tail] at ih
        have missing : rest.all (·.readable content) = false := by
          cases all : rest.all (·.readable content) with
          | false => rfl
          | true => simp [all,Except.toOption] at ih
        simp [hash_layer,done,missing,bind,Except.bind,Except.toOption]
      | ok results =>
        rw [tail] at ih
        cases all : rest.all (·.readable content) with
        | false => simp [all,Except.toOption] at ih
        | true =>
          rw [all] at ih
          simp only [Except.toOption,if_true,Option.some.injEq] at ih
          simp [hash_layer,done,all,ih,bind,Except.bind,Except.toOption,pure,Except.pure]

omit [DecidableEq H] in
/-- The per-layer path succeeds exactly on the files that have ranges to split. -/
theorem split_and_hash_safetensors_core_eq (native : Native) (path : String) (file : FileData) :
    (split_and_hash_safetensors_core native path file : Except String (List (LayerResult H))).toOption =
      (split_ranges native path file).map fun ranges => ranges.map fun l =>
        ⟨l.name,sha256 (l.range file.bytes),l.size.toNat,l.abs_start.toNat⟩ := by
  unfold split_and_hash_safetensors_core
  cases read : layer_table native.parse path file with
  | error e => simp [split_ranges,read,bind,Except.bind,Except.toOption]
  | ok table =>
    rw [split_ranges_of_table read]
    simp only [bind,Except.bind]
    rw [mapM_hash_layer]
    split <;> rfl

theorem stage_safetensors_store (native : Native) (path : String) (objects : Objects H) (file : FileData) :
    ∃ blobs : List Bytes, (∀ b ∈ blobs, b ∈ slices file.bytes) ∧
      (stage_safetensors_core_parts_only native path objects file).1 = objects.publishAll blobs := by
  unfold stage_safetensors_core_parts_only
  split
  · exact ⟨[],by simp,rfl⟩
  · rename_i table read
    dsimp only
    split
    · exact ⟨[],by simp,rfl⟩
    · obtain ⟨blobs,all,store⟩ := walk_store path file.bytes (native.std_sort.sort table.layers).tail
        (header_walk objects file.bytes table.base_offset)
      refine ⟨file.bytes.take table.base_offset.toNat::blobs,?_,?_⟩
      · intro b member
        rcases List.mem_cons.mp member with rfl | member
        · exact ⟨0,table.base_offset.toNat,by simp [slice]⟩
        · exact all b member
      · split
        · rename_i walked
          rw [walked] at store
          exact store
        · rename_i walked
          rw [walked] at store
          split <;> exact store

theorem finish_ok {path : String} {file : FileData} {w final : LayerWalk H}
    (ok : w.finish path file.bytes = .ok final) (inside : w.position ≤ file.bytes.length)
    (behind : w.cursor.toNat ≤ w.position) :
    w.position = w.cursor.toNat ∧ final.parts = w.parts ∧
      (w.whole = file.bytes.take w.position → final.whole = file.bytes) := by
  have total := total_size file
  unfold LayerWalk.finish at ok
  dsimp only at ok
  split at ok
  · rename_i short
    obtain ⟨full,made⟩ := consume_gap_ok ok
    have gap := UInt64.toNat_sub_of_le _ _ (UInt64.le_of_lt short)
    have below := UInt64.lt_iff_toNat_lt.mp short
    have stop := slice_length_le _ _ _ full inside
    rw [gap,total] at stop
    refine ⟨by omega,by rw [made],fun whole => ?_⟩
    rw [made,gap,total]
    dsimp only
    rw [whole,take_append_slice,List.take_of_length_le (by omega)]
  · rename_i done
    have beyond := UInt64.le_iff_toNat_le.mp (UInt64.not_lt.mp done)
    rw [total] at beyond
    obtain rfl := Except.ok.inj ok
    exact ⟨by omega,rfl,fun whole => by rw [whole,List.take_of_length_le (by omega)]⟩

/-- A walk that reaches the end of the file started behind the header and never read
beside its cursor. -/
theorem finished_walk {path : String} {file : FileData} {objects : Objects H} {base_offset : UInt64}
    {layers : List LayerSpec} {w final : LayerWalk H} (listed : ⟨"__header__",0,base_offset⟩ ∈ layers)
    (least : 8 ≤ base_offset.toNat) (most : base_offset.toNat ≤ file.bytes.length)
    (walked : (walk_layers path file.bytes layers.tail (header_walk objects file.bytes base_offset)).2 = .ok w)
    (ended : w.finish path file.bytes = .ok final) :
    layers = ⟨"__header__",0,base_offset⟩::layers.tail ∧ w.position = w.cursor.toNat ∧ final.parts = w.parts ∧
      (w.whole = file.bytes.take w.position → final.whole = file.bytes) := by
  obtain ⟨-,inside,drift,again⟩ := walk_drift layers.tail walked most
  obtain ⟨stop,parts,covered⟩ := finish_ok ended inside (by
    simp only [header_walk] at drift
    omega)
  refine ⟨?_,stop,parts,covered⟩
  cases layers with
  | nil => simp at listed
  | cons head tail =>
    rcases List.mem_cons.mp listed with same | later
    · rw [← same]
      rfl
    · have := again _ later rfl
      simp only [header_walk] at this
      omega

/-- When the one-pass path succeeds it has cut the same ranges as the per-layer path. -/
theorem stage_safetensors_ok {native : Native} {path : String} {objects : Objects H} {file : FileData}
    {stage : LayerStage H}
    (ok : (stage_safetensors_core_parts_only native path objects file).2 = .ok stage) :
    ∃ ranges, split_ranges native path file = some ranges ∧ ranges ≠ [] ∧
      stage.whole_hash = sha256 file.bytes ∧ stage.parts = ranges.map (LayerSpec.part file.bytes) ∧
      (stage_safetensors_core_parts_only native path objects file).1 =
        objects.publishAll (ranges.map (·.range file.bytes)) := by
  unfold stage_safetensors_core_parts_only at ok ⊢
  cases read : layer_table native.parse path file with
  | error e => simp [read] at ok
  | ok table =>
    obtain ⟨header,least,most⟩ := layer_table_header read
    have sorted := (native.std_sort.perm table.layers).mem_iff.mpr header
    have ranges := split_ranges_of_table read
    simp only [read] at ok ⊢
    generalize native.std_sort.sort table.layers = layers at ok sorted ranges ⊢
    split at ok
    · contradiction
    · rename_i apart
      rw [if_neg apart]
      cases walked : walk_layers path file.bytes layers.tail
          (header_walk objects file.bytes table.base_offset) with
      | mk published result =>
      cases result with
      | error e => simp [walked] at ok
      | ok w =>
      simp only [walked] at ok ⊢
      cases ended : w.finish path file.bytes with
      | error e => simp [ended] at ok
      | ok final =>
      simp only [ended,Except.ok.injEq] at ok ⊢
      have done : (walk_layers path file.bytes layers.tail
          (header_walk objects file.bytes table.base_offset)).2 = .ok w := by rw [walked]
      obtain ⟨first,stop,parts,covered⟩ := finished_walk sorted least most done ended
      obtain ⟨store,whole,walk_parts,all⟩ := walk_exact layers.tail done most rfl stop rfl
      have head : (⟨"__header__",0,table.base_offset⟩ : LayerSpec).range file.bytes =
          file.bytes.take table.base_offset.toNat := by simp [LayerSpec.range,slice]
      have head_reads : (⟨"__header__",0,table.base_offset⟩ : LayerSpec).readable file.bytes = true := by
        simp [LayerSpec.readable,head,most]
      have every : layers.all (·.readable file.bytes) = true := by
        rw [first,List.all_cons,head_reads,Bool.true_and]
        exact List.all_eq_true.mpr all
      refine ⟨layers,by rw [ranges,if_pos every],by rw [first]; simp,?_,?_,?_⟩
      · rw [← ok,covered whole]
      · rw [← ok,parts,walk_parts,first]
        simp [header_walk,LayerSpec.part,head]
      · rw [walked] at store
        dsimp only at store
        rw [store,first]
        simp [header_walk,Objects.publishAll,head]

end AetherVault
