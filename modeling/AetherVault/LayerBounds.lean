import AetherVault.FusedStaging
import Mathlib.Data.List.ReduceOption

/-! Where the layers of a safetensors header lie. The guards are computed in unsigned 64-bit
arithmetic; what they are to keep out is said here in exact integers. -/
namespace AetherVault.Buffered
open Lib Hashing

/-- The header of the file declares a tensor with these `data_offsets`. -/
def Declares (parse : Bytes → Except String Json) (file : FileData) (name : String) (start stop : UInt64) : Prop :=
  ∃ header value first second, parse (slice file.bytes 8 (header_len file)) = .ok header ∧
    (name,value) ∈ header.items ∧ name ≠ "__metadata__" ∧ value.member? "data_offsets" = some (.array [first,second]) ∧
    first.get_uint64 = .ok start ∧ second.get_uint64 = .ok stop

variable {H : Type} [DecidableEq H] [Hashing H]

/-- The header layer, and tensors that all lie between the header and the end of the file;
no tensor is declared anywhere else. -/
structure InBounds (parse : Bytes → Except String Json) (file : FileData) (results : List (LayerResult H)) : Prop where
  layers : ∃ tensors, results.Perm (⟨"__header__",sha256 (file.bytes.take (8 + header_len file)),8 + header_len file,0⟩::tensors) ∧
    ∀ tensor ∈ tensors, 8 + header_len file ≤ tensor.offset ∧ tensor.offset + tensor.size ≤ file.bytes.length
  declared : ∀ name start stop, Declares parse file name start stop →
    start.toNat ≤ stop.toNat ∧ 8 + header_len file + stop.toNat ≤ file.bytes.length

/-- No declared start is so large that the offset it makes wraps around. -/
def StartsFit (parse : Bytes → Except String Json) (file : FileData) : Prop :=
  ∀ name start stop, Declares parse file name start stop → 8 + header_len file + start.toNat < 2^64

/-! The layer table. -/

theorem mapM_mem {α β : Type} {f : α → Except String β} {items : List α} {out : List β} (ok : items.mapM f = .ok out) :
    (∀ item ∈ items, ∃ y ∈ out, f item = .ok y) ∧ ∀ y ∈ out, ∃ item ∈ items, f item = .ok y := by
  induction items generalizing out with
  | nil =>
    obtain rfl := Except.ok.inj ok
    simp
  | cons item rest ih =>
    rw [List.mapM_cons] at ok
    cases first : f item with
    | error e => simp [first,bind,Except.bind] at ok
    | ok y =>
      cases later : rest.mapM f with
      | error e => simp [first,later,bind,Except.bind] at ok
      | ok ys =>
        simp only [first,later,bind,Except.bind,pure,Except.pure,Except.ok.injEq] at ok
        subst out
        obtain ⟨all,only⟩ := ih later
        constructor
        · intro other member
          rcases List.mem_cons.mp member with same | member
          · exact ⟨y,List.mem_cons_self,same ▸ first⟩
          · obtain ⟨z,listed,made⟩ := all other member
            exact ⟨z,List.mem_cons_of_mem _ listed,made⟩
        · intro z member
          rcases List.mem_cons.mp member with same | member
          · exact ⟨item,List.mem_cons_self,same ▸ first⟩
          · obtain ⟨other,listed,made⟩ := only z member
            exact ⟨other,List.mem_cons_of_mem _ listed,made⟩

/-- A tensor that passes the guards, which hold in unsigned arithmetic. -/
def Guarded (base_offset total_size start stop : UInt64) : Prop := start ≤ stop ∧ base_offset + stop ≤ total_size

theorem declared_layer_declares {path : String} {base_offset total_size : UInt64} {item : String × Json}
    {first second : Json} {start stop : UInt64} {out : Option LayerSpec} (tensor : item.1 ≠ "__metadata__")
    (offsets : item.2.member? "data_offsets" = some (.array [first,second])) (from_start : first.get_uint64 = .ok start)
    (to_stop : second.get_uint64 = .ok stop) (ok : declared_layer path base_offset total_size item = .ok out) :
    Guarded base_offset total_size start stop ∧ out = some ⟨item.1,base_offset + start,stop - start⟩ := by
  simp only [declared_layer,tensor,if_false,offsets,Json.size,List.length_cons,List.length_nil,Nat.zero_add,
    Nat.reduceAdd,if_true,from_start,to_stop,bind,Except.bind] at ok
  split at ok
  · contradiction
  · split at ok
    · contradiction
    · rename_i forward inside
      exact ⟨⟨UInt64.not_lt.mp forward,UInt64.not_lt.mp inside⟩,(Except.ok.inj ok).symm⟩

theorem declared_layer_some {path : String} {base_offset total_size : UInt64} {item : String × Json} {layer : LayerSpec}
    (ok : declared_layer path base_offset total_size item = .ok (some layer)) :
    ∃ first second start stop, item.1 ≠ "__metadata__" ∧ item.2.member? "data_offsets" = some (.array [first,second]) ∧
      first.get_uint64 = .ok start ∧ second.get_uint64 = .ok stop := by
  unfold declared_layer at ok
  split at ok
  · cases Except.ok.inj ok
  · rename_i tensor
    split at ok
    · cases Except.ok.inj ok
    · rename_i offsets found
      split at ok
      · split at ok
        · rename_i first second two
          cases from_start : first.get_uint64 with
          | error e => simp [from_start,bind,Except.bind] at ok
          | ok start =>
            cases to_stop : second.get_uint64 with
            | error e => simp [from_start,to_stop,bind,Except.bind] at ok
            | ok stop => exact ⟨first,second,start,stop,tensor,found,from_start,to_stop⟩
        · contradiction
      · cases Except.ok.inj ok

/-- The tensors of a header that is read: the declared ones, each past its guards. -/
theorem table_tensors {parse : Bytes → Except String Json} {path : String} {file : FileData} {table : LayerTable}
    (read : layer_table parse path file = .ok table) :
    ∃ tensors, table.layers = ⟨"__header__",0,table.base_offset⟩::tensors ∧
      (∀ layer ∈ tensors, ∃ name start stop, Declares parse file name start stop ∧
        layer = ⟨name,table.base_offset + start,stop - start⟩) ∧
      ∀ name start stop, Declares parse file name start stop →
        Guarded table.base_offset (UInt64.ofNat file.bytes.length) start stop ∧
          ⟨name,table.base_offset + start,stop - start⟩ ∈ tensors := by
  obtain ⟨header,declared,parsed,listed,layers,-,-⟩ := layer_table_ok read
  obtain ⟨all,only⟩ := mapM_mem listed
  refine ⟨declared.reduceOption,layers,?_,?_⟩
  · intro layer member
    obtain ⟨item,inside,made⟩ := only (some layer) (List.reduceOption_mem_iff.mp member)
    obtain ⟨first,second,start,stop,tensor,offsets,from_start,to_stop⟩ := declared_layer_some made
    obtain ⟨-,same⟩ := declared_layer_declares tensor offsets from_start to_stop made
    exact ⟨item.1,start,stop,⟨header,item.2,first,second,parsed,inside,tensor,offsets,from_start,to_stop⟩,Option.some.inj same⟩
  · intro name start stop declares
    obtain ⟨other,value,first,second,again,inside,tensor,offsets,from_start,to_stop⟩ := declares
    obtain rfl := Except.ok.inj (parsed.symm.trans again)
    obtain ⟨out,member,made⟩ := all (name,value) inside
    obtain ⟨guarded,same⟩ := declared_layer_declares tensor offsets from_start to_stop made
    exact ⟨guarded,List.reduceOption_mem_iff.mpr (same ▸ member)⟩

/-! Exact bounds. -/

/-- With a start that does not wrap around, a range that can be read ends in the file. -/
theorem exact_range {file : FileData} {base_offset start stop : UInt64} {name : String}
    (guarded : Guarded base_offset (UInt64.ofNat file.bytes.length) start stop)
    (fits : base_offset.toNat + start.toNat < 2^64)
    (readable : (⟨name,base_offset + start,stop - start⟩ : LayerSpec).readable file.bytes = true) :
    (base_offset + start).toNat = base_offset.toNat + start.toNat ∧ (stop - start).toNat = stop.toNat - start.toNat ∧
      start.toNat ≤ stop.toNat ∧ base_offset.toNat + stop.toNat ≤ file.bytes.length := by
  have total := total_size file
  have forward := UInt64.le_iff_toNat_le.mp guarded.1
  have offset : (base_offset + start).toNat = base_offset.toNat + start.toNat := by
    rw [UInt64.toNat_add]
    exact Nat.mod_eq_of_lt fits
  have size := UInt64.toNat_sub_of_le _ _ guarded.1
  refine ⟨offset,size,forward,?_⟩
  simp only [LayerSpec.readable,LayerSpec.range,beq_iff_eq,slice_length,offset,size] at readable
  by_cases empty : stop = start
  · have inside := UInt64.le_iff_toNat_le.mp guarded.2
    rw [empty] at inside ⊢
    omega
  · have differ : stop.toNat ≠ start.toNat := fun same => empty (UInt64.toNat_inj.mp same)
    omega

omit [DecidableEq H] in
theorem in_bounds_of_fit {parse : Bytes → Except String Json} {path : String} {file : FileData} {table : LayerTable}
    {results : List (LayerResult H)} (read : layer_table parse path file = .ok table)
    (readable : ∀ layer ∈ table.layers, layer.readable file.bytes = true) (fits : StartsFit parse file)
    (listed : results.Perm (table.layers.map fun l => ⟨l.name,sha256 (l.range file.bytes),l.size.toNat,l.abs_start.toNat⟩)) :
    InBounds parse file results := by
  obtain ⟨-,-,-,-,-,base,-⟩ := layer_table_ok read
  obtain ⟨tensors,layers,declared,guarded⟩ := table_tensors read
  have exact_of : ∀ name start stop, Declares parse file name start stop →
      (table.base_offset + start).toNat = 8 + header_len file + start.toNat ∧
        (stop - start).toNat = stop.toNat - start.toNat ∧ start.toNat ≤ stop.toNat ∧
        8 + header_len file + stop.toNat ≤ file.bytes.length := by
    intro name start stop declares
    obtain ⟨guard,member⟩ := guarded name start stop declares
    rw [← base]
    apply exact_range guard (base ▸ fits name start stop declares)
    exact readable _ (layers ▸ List.mem_cons_of_mem _ member)
  constructor
  · have header : (⟨"__header__",0,table.base_offset⟩ : LayerSpec).range file.bytes = file.bytes.take (8 + header_len file) := by
      simp [LayerSpec.range,slice,base]
    rw [layers,List.map_cons,header] at listed
    simp only [base,UInt64.toNat_zero] at listed
    refine ⟨_,listed,?_⟩
    · intro tensor member
      obtain ⟨layer,inside,rfl⟩ := List.mem_map.mp member
      obtain ⟨name,start,stop,declares,rfl⟩ := declared layer inside
      obtain ⟨offset,size,forward,stops⟩ := exact_of name start stop declares
      simp only [offset,size]
      omega
  · intro name start stop declares
    exact (exact_of name start stop declares).2.2

/-- After a header in the first place, layers that do not overlap start behind it. -/
theorem behind_header {header : LayerSpec} {rest : List LayerSpec} (first : header.abs_start = 0)
    (ordered : (header::rest).Pairwise (fun a b => a.abs_start ≤ b.abs_start)) (apart : overlapping (header::rest) = false)
    {layer : LayerSpec} (member : layer ∈ rest) : header.size ≤ layer.abs_start := by
  cases rest with
  | nil => exact absurd member List.not_mem_nil
  | cons next rest =>
    simp only [overlapping,Bool.or_eq_false_iff,decide_eq_false_iff_not,first] at apart
    have start : header.size ≤ next.abs_start := by
      have := UInt64.not_lt.mp apart.1
      simpa using this
    rcases List.mem_cons.mp member with same | later
    · exact same ▸ start
    · exact UInt64.le_trans start ((List.pairwise_cons.mp (List.pairwise_cons.mp ordered).2).1 layer later)

variable {buffer : ReadBuffer} {native : Native} {path : String} {file : FileData}

omit [DecidableEq H] in
theorem split_results {results : List (LayerResult H)}
    (ok : split_and_hash_safetensors_core buffer native path file = .ok results) :
    ∃ table, layer_table native.parse path file = .ok table ∧
      (∀ layer ∈ table.layers, layer.readable file.bytes = true) ∧
      results.Perm (table.layers.map fun l => ⟨l.name,sha256 (l.range file.bytes),l.size.toNat,l.abs_start.toNat⟩) := by
  have split := split_and_hash_safetensors_core_eq (H := H) native path file
  rw [split_and_hash_eq] at ok
  rw [ok] at split
  obtain ⟨ranges,cut,made⟩ := Option.map_eq_some_iff.mp split.symm
  have readable := split_ranges_readable cut
  cases read : layer_table native.parse path file with
  | error e => simp [split_ranges,read] at cut
  | ok table =>
    rw [split_ranges_of_table read] at cut
    split at cut
    · obtain rfl := Option.some.inj cut
      refine ⟨table,rfl,?_,?_⟩
      · intro layer member
        exact readable layer ((native.std_sort.perm _).mem_iff.mpr member)
      · rw [← made]
        exact (native.std_sort.perm _).map _
    · contradiction

theorem staged_starts_fit {buffer_cap_bytes : UInt64} {objects : Objects H} {stage : SafetensorsStage H}
    (ok : (stage_safetensors_core_parts_only buffer buffer_cap_bytes native path objects file).2 = .ok stage) :
    StartsFit native.parse file := by
  obtain ⟨table,read,apart,first,-⟩ := stage_parts ok
  obtain ⟨-,-,-,-,-,base,-⟩ := layer_table_ok read
  obtain ⟨tensors,layers,-,guarded⟩ := table_tensors read
  intro name start stop declares
  obtain ⟨-,member⟩ := guarded name start stop declares
  have ordered := native.std_sort.ordered table.layers
  have sorted : (⟨"__header__",0,table.base_offset⟩::(native.std_sort.sort table.layers).tail).Perm
      (⟨"__header__",0,table.base_offset⟩::tensors) := by
    rw [← first,← layers]
    exact native.std_sort.perm table.layers
  rw [first] at ordered apart
  have behind : table.base_offset ≤ table.base_offset + start := behind_header rfl ordered apart (sorted.cons_inv.mem_iff.mpr member)
  have behind := UInt64.le_iff_toNat_le.mp behind
  rw [UInt64.toNat_add] at behind
  by_contra wraps
  have large := start.toNat_lt
  have header := table.base_offset.toNat_lt
  rw [← base] at wraps
  omega

/-- The per-layer path keeps to the data section exactly when no start wraps around;
the one-pass path always does. -/
theorem layers_in_bounds_iff (buffer : ReadBuffer) (native : Native) (path : String) (file : FileData) :
    (∀ results : List (LayerResult H), split_and_hash_safetensors_core buffer native path file = .ok results →
      (InBounds native.parse file results ↔ StartsFit native.parse file)) ∧
    ∀ (buffer_cap_bytes : UInt64) (objects : Objects H) (stage : SafetensorsStage H),
      (stage_safetensors_core_parts_only buffer buffer_cap_bytes native path objects file).2 = .ok stage →
      InBounds native.parse file (stage.parts.map StagedPart.result) := by
  constructor
  · intro results ok
    obtain ⟨table,read,readable,listed⟩ := split_results ok
    constructor
    · intro bounded name start stop declares
      have := bounded.declared name start stop declares
      have := file.fits
      omega
    · intro fits
      exact in_bounds_of_fit read readable fits listed
  · intro buffer_cap_bytes objects stage ok
    obtain ⟨table,-,parts,split⟩ := accepted_split buffer native.std_sort ok
    obtain ⟨table',read,readable,listed⟩ := split_results split
    have same : stage.parts.map StagedPart.result = (native.std_sort.sort table.layers).map fun l =>
        ⟨l.name,sha256 (l.range file.bytes),l.size.toNat,l.abs_start.toNat⟩ := by rw [parts,staged_layers_results]
    exact in_bounds_of_fit read readable (staged_starts_fit ok) (same ▸ listed)

theorem layers_in_bounds_iff_gapped :
    ∃ results : List (LayerResult Name), split_and_hash_safetensors_core READ_BUF gapped_native "m" gapped_file = .ok results ∧
      (InBounds gapped_native.parse gapped_file results ↔ StartsFit gapped_native.parse gapped_file) := by
  have ran : (split_and_hash_safetensors_core READ_BUF gapped_native "m" gapped_file :
      Except String (List (LayerResult Name))).isOk = true := by decide +kernel
  cases ok : (split_and_hash_safetensors_core READ_BUF gapped_native "m" gapped_file :
      Except String (List (LayerResult Name))) with
  | error e =>
    rw [ok] at ran
    contradiction
  | ok results => exact ⟨results,rfl,(layers_in_bounds_iff READ_BUF gapped_native "m" gapped_file).1 results ok⟩

/-! A tensor whose offsets wrap around to the first bytes of the file. -/

def wrapped_header : Bytes :=
  ("\x7b\"a\":\x7b\"data_offsets\":[18446744073709551542,18446744073709551546]\x7d\x7d".toList).map
    fun c => UInt8.ofNat c.toNat

def wrapped_native : Native where
  parse text :=
    if text = wrapped_header then .ok (.object [("a",.object [("data_offsets",
      .array [.number_unsigned 18446744073709551542,.number_unsigned 18446744073709551546])])])
    else .error "parse error"
  std_sort := gapped_native.std_sort

def wrapped_file : FileData where
  bytes := [66,0,0,0,0,0,0,0] ++ wrapped_header
  fits := by decide

theorem wrapped_offsets_accepted :
    ∃ results : List (LayerResult Name), split_and_hash_safetensors_core READ_BUF wrapped_native "m" wrapped_file = .ok results ∧
      results.map (fun r => (r.name,r.offset,r.size)) = [("__header__",0,74),("a",0,4)] ∧
      ¬InBounds wrapped_native.parse wrapped_file results := by
  have ran : (split_and_hash_safetensors_core READ_BUF wrapped_native "m" wrapped_file :
      Except String (List (LayerResult Name))).toOption.map (List.map fun r => (r.name,r.offset,r.size)) =
        some [("__header__",0,74),("a",0,4)] := by decide +kernel
  cases ok : (split_and_hash_safetensors_core READ_BUF wrapped_native "m" wrapped_file :
      Except String (List (LayerResult Name))) with
  | error e =>
    rw [ok] at ran
    contradiction
  | ok results =>
    rw [ok] at ran
    refine ⟨results,rfl,Option.some.inj ran,?_⟩
    intro bounded
    have declares : Declares wrapped_native.parse wrapped_file "a" 18446744073709551542 18446744073709551546 :=
      ⟨_,_,_,_,rfl,List.mem_cons_self,by decide,rfl,rfl,rfl⟩
    exact absurd (bounded.declared _ _ _ declares).2 (by decide +kernel)

end AetherVault.Buffered
