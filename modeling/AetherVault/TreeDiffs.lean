import AetherVault.Index
import AetherVault.Lib.SetOrder
import Mathlib.Algebra.BigOperators.Group.List.Basic
import Mathlib.Algebra.Ring.Int.Defs
import Mathlib.Data.List.Dedup
import Mathlib.Data.String.Basic

/-! The semantic diff of two trees: `diff_trees` of the client and `_summarize_tree_diff` of the
server, which are written apart and promise the same result. `none` is an exception. -/
namespace AetherVault.TreeDiffs
open Lib Lib.SetOrder

/-- A field of a JSON object: not there, null, or a value. -/
inductive Field (α : Type)
  | missing
  | null
  | value (a : α)
  deriving DecidableEq

namespace Field

variable {α : Type}

/-- `get(key,default)`; null is what there is of a field that is null. -/
def get_or (default : Option α) : Field α → Option α
  | missing => default
  | null => none
  | value a => some a

def get (f : Field α) : Option α := f.get_or none

end Field

structure LayerRow where
  name : String
  hash : String
  size : Field Int

structure ChunkRow where
  hash : String
  size : Field Int

structure Entry where
  hash : Field String
  size : Field Int
  type : Field String
  layers : Field (List LayerRow)
  chunks : Field (List ChunkRow)

/-- What stands for an entry that is missing or null. -/
def Entry.blank : Entry := ⟨.missing,.missing,.missing,.missing,.missing⟩

def Entry.layer_rows (e : Entry) : List LayerRow := e.layers.get.getD []

def Entry.chunk_rows (e : Entry) : List ChunkRow := e.chunks.get.getD []

/-- A flat tree; its entries come from JSON and may be null. -/
abbrev DiffTree := Dict String (Option Entry)

/-- `tree.get(path) or {}`. -/
def entry_of (tree : DiffTree) (path : String) : Entry := (tree.get? path).join.getD .blank

def _layer_map (entry : Entry) : Dict String String := Dict.ofList (entry.layer_rows.map fun l => (l.name,l.hash))

def _chunk_hashes (entry : Entry) : List String := (entry.chunk_rows.map ChunkRow.hash).dedup

/-- Sizes by name or by hash. Each of them ends up in a sum, which null does not go into. -/
def sizes (rows : List (String × Field Int)) : Option (Dict String Int) :=
  let found := Dict.ofList (rows.map fun row => (row.1,row.2.get_or (some 0)))
  if found.entries.all (·.2.isSome) then some (found.map fun _ size => size.getD 0) else none

def Entry.layer_sizes (e : Entry) : Option (Dict String Int) := sizes (e.layer_rows.map fun l => (l.name,l.size))

def Entry.chunk_sizes (e : Entry) : Option (Dict String Int) := sizes (e.chunk_rows.map fun c => (c.hash,c.size))

/-- `round(a / b, 4)`, and the zero it is replaced by. -/
structure Rounding (R : Type) where
  ratio : Int → Int → R
  zero : R

structure ModelChange (R : Type) where
  path : String
  layers_changed : Nat
  layers_total : Nat
  pct : R
  moved : List String
  largest_moved : List (String × Int)
  bytes_changed : Int
  bytes_total : Int
  pct_bytes : R

variable {R : Type} (rounding : Rounding R)

def model_change (old_tree new_tree : DiffTree) (path : String) : Option (ModelChange R) :=
  let entry := entry_of new_tree path
  let pmap := _layer_map (entry_of old_tree path)
  let nmap := _layer_map entry
  let moved := nmap.keys.filter fun name => pmap.get? name ≠ nmap.get? name
  let total := if nmap.keys.length = 0 then 1 else nmap.keys.length
  entry.layer_sizes.map fun size_by_name =>
    let size (name : String) : Int := (size_by_name.get? name).getD 0
    let largest := ((moved.map fun m => (m,size m)).mergeSort fun a b => b.2 ≤ a.2).take 5
    let total_bytes := (size_by_name.entries.map Prod.snd).sum
    let moved_bytes := (moved.map size).sum
    ⟨path,moved.length,nmap.keys.length,rounding.ratio (.ofNat moved.length) (.ofNat total),moved.take 20,largest,moved_bytes,total_bytes,
      if total_bytes ≠ 0 then rounding.ratio moved_bytes total_bytes else rounding.zero⟩

def models (old_tree new_tree : DiffTree) (paths : List String) : Option (List (ModelChange R)) :=
  (paths.filter fun path => (entry_of new_tree path).layer_rows ≠ []).mapM (model_change rounding old_tree new_tree)

structure Counts where
  reused : Int
  new : Int
  reused_bytes : Int
  new_bytes : Int

instance : Add Counts where
  add a b := ⟨a.reused + b.reused,a.new + b.new,a.reused_bytes + b.reused_bytes,a.new_bytes + b.new_bytes⟩

/-- What one path adds to the chunk counts; an entry that is null has no chunks to ask for. -/
def chunk_counts (order : SetOrder String) (old_tree new_tree : DiffTree) (path : String) : Option Counts :=
  (new_tree.get? path).join.bind fun entry =>
    let chs := _chunk_hashes entry
    if chs = [] then some ⟨0,0,0,0⟩
    else
      let parent_chs := _chunk_hashes (entry_of old_tree path)
      let new_hashes := chs.filter fun h => h ∉ parent_chs
      let reused_hashes := chs.filter fun h => h ∈ parent_chs
      entry.chunk_sizes.map fun size_by_hash =>
        let size (h : String) : Int := (size_by_hash.get? h).getD 0
        ⟨.ofNat reused_hashes.length,.ofNat new_hashes.length,((order.list reused_hashes).map size).sum,((order.list new_hashes).map size).sum⟩

def all_chunk_counts (order : SetOrder String) (old_tree new_tree : DiffTree) : Option Counts :=
  (order.list new_tree.keys).foldlM (fun counts path => (chunk_counts order old_tree new_tree path).map (counts + ·)) ⟨0,0,0,0⟩

structure ChunkSummary (R : Type) where
  reused : Int
  new : Int
  dedup_efficiency : Option R
  status : String
  reused_bytes : Int
  new_bytes : Int
  dedup_efficiency_bytes : Option R

def chunk_summary (counts : Counts) : ChunkSummary R :=
  let chunk_total := counts.reused + counts.new
  let chunk_total_bytes := counts.reused_bytes + counts.new_bytes
  { reused := counts.reused
    new := counts.new
    dedup_efficiency := if chunk_total ≠ 0 then some (rounding.ratio counts.reused chunk_total) else none
    status := if chunk_total ≠ 0 then "measured" else "no_chunks"
    reused_bytes := counts.reused_bytes
    new_bytes := counts.new_bytes
    dedup_efficiency_bytes :=
      if chunk_total_bytes ≠ 0 then some (rounding.ratio counts.reused_bytes chunk_total_bytes) else none }

def DATASET_EXTS : List String :=
  [".parquet",".csv",".h5",".hdf5",".npz",".npy",".arrow",".jsonl",".tfrecord",".wav",".flac"]

def _is_dataset (path : String) : Bool :=
  let low := path.toList.map lower
  DATASET_EXTS.any (fun e => e.toList.isSuffixOf low) || low.tails.any fun rest => "dataset".toList.isPrefixOf rest

def _bytes (tree : DiffTree) : Int := (tree.entries.map fun e => (e.2.getD .blank).size.get.getD 0).sum

structure FileKind where
  path : String
  kind : Option String
  deriving DecidableEq

structure Diff (R : Type) where
  added : List FileKind
  removed : List FileKind
  changed : List FileKind
  models : List (ModelChange R)
  chunks : ChunkSummary R
  datasets : List String
  bytes_before : Int
  bytes_after : Int

/-- The paths of one tree that the other lacks. -/
def only (tree other : DiffTree) : List String := tree.keys.filter fun path => !other.contains path

def common (tree other : DiffTree) : List String := tree.keys.filter fun path => other.contains path

/-! The client. -/

/-- Subscripts, so an entry that is null on either side ends it. -/
def client_changed (order : SetOrder String) (old_tree new_tree : DiffTree) : Option (List String) :=
  let paths := order.list (common old_tree new_tree)
  if paths.any fun path => (old_tree.get? path).join.isNone || (new_tree.get? path).join.isNone then none
  else some (sorted (paths.filter fun path => (entry_of old_tree path).hash.get ≠ (entry_of new_tree path).hash.get))

def client_kind (old_tree new_tree : DiffTree) (path : String) : Option String :=
  (entry_of new_tree path).type.get_or ((entry_of old_tree path).type.get)

def diff_trees (order : SetOrder String) (old_tree new_tree : Option DiffTree) : Option (Diff R) :=
  let old_tree := old_tree.getD ∅
  let new_tree := new_tree.getD ∅
  let added := sorted (order.list (only new_tree old_tree))
  let removed := sorted (order.list (only old_tree new_tree))
  let union := order.list (new_tree.keys ++ only old_tree new_tree)
  (client_changed order old_tree new_tree).bind fun changed =>
    (models rounding old_tree new_tree (sorted union)).bind fun models =>
      (all_chunk_counts order old_tree new_tree).map fun counts =>
        { added := added.map fun path => ⟨path,(entry_of new_tree path).type.get⟩
          removed := removed.map fun path => ⟨path,(entry_of old_tree path).type.get⟩
          changed := changed.map fun path => ⟨path,client_kind old_tree new_tree path⟩
          models := models
          chunks := chunk_summary rounding counts
          datasets := sorted (union.filter fun path => (_is_dataset path || _is_dataset path) &&
            (entry_of old_tree path).hash.get ≠ (entry_of new_tree path).hash.get && path ∉ added)
          bytes_before := _bytes old_tree
          bytes_after := _bytes new_tree }

/-! The server. -/

def server_changed (order : SetOrder String) (old_tree new_tree : DiffTree) : List String :=
  sorted ((order.list (common old_tree new_tree)).filter fun path =>
    (entry_of old_tree path).hash.get ≠ (entry_of new_tree path).hash.get)

/-- `a or b`: an empty text is passed over like null. -/
def server_kind (old_tree new_tree : DiffTree) (path : String) : Option String :=
  match (entry_of new_tree path).type.get with
  | none => (entry_of old_tree path).type.get
  | some kind => if kind = "" then (entry_of old_tree path).type.get else some kind

structure ServerDiff (R : Type) extends Diff R where
  summary : String

def _summarize_tree_diff (order : SetOrder String) (old_tree new_tree : Option DiffTree) : Option (ServerDiff R) :=
  let old_tree := old_tree.getD ∅
  let new_tree := new_tree.getD ∅
  let added := sorted (order.list (only new_tree old_tree))
  let removed := sorted (order.list (only old_tree new_tree))
  let changed := server_changed order old_tree new_tree
  let union := order.list (old_tree.keys ++ only new_tree old_tree)
  (models rounding old_tree new_tree (sorted union)).bind fun models =>
    (all_chunk_counts order old_tree new_tree).map fun counts =>
      { added := added.map fun path => ⟨path,(entry_of new_tree path).type.get⟩
        removed := removed.map fun path => ⟨path,(entry_of old_tree path).type.get⟩
        changed := changed.map fun path => ⟨path,server_kind old_tree new_tree path⟩
        models := models
        chunks := chunk_summary rounding counts
        datasets := sorted (union.filter fun path => _is_dataset path &&
          (entry_of old_tree path).hash.get ≠ (entry_of new_tree path).hash.get && path ∉ added)
        bytes_before := _bytes old_tree
        bytes_after := _bytes new_tree
        summary := s!"+{added.length} -{removed.length} ~{changed.length} file(s)" }

/-! The order of the sets shows in neither. -/

variable {rounding} {order other : SetOrder String} {old_tree new_tree : DiffTree} {path : String}

theorem mem_only : path ∈ only old_tree new_tree ↔ old_tree.contains path = true ∧ new_tree.contains path = false := by
  rw [only,List.mem_filter,Dict.mem_keys,← Dict.contains_iff,Bool.not_eq_true']

theorem mem_common : path ∈ common old_tree new_tree ↔ old_tree.contains path = true ∧ new_tree.contains path = true := by
  rw [common,List.mem_filter,Dict.mem_keys,← Dict.contains_iff]

theorem mem_union : path ∈ old_tree.keys ++ only new_tree old_tree ↔
    old_tree.contains path = true ∨ new_tree.contains path = true := by
  rw [List.mem_append,mem_only,Dict.mem_keys,← Dict.contains_iff]
  cases old_tree.contains path <;> simp

theorem union_nodup (old_tree new_tree : DiffTree) : (old_tree.keys ++ only new_tree old_tree).Nodup := by
  apply List.Nodup.append old_tree.distinct (new_tree.distinct.filter _)
  intro path here there
  have held := (old_tree.contains_iff path).mpr ((old_tree.mem_keys path).mp here)
  exact absurd held (by simp [(mem_only.mp there).2])

theorem union_perm (old_tree new_tree : DiffTree) :
    (new_tree.keys ++ only old_tree new_tree).Perm (old_tree.keys ++ only new_tree old_tree) := by
  apply (List.perm_ext_iff_of_nodup (union_nodup new_tree old_tree) (union_nodup old_tree new_tree)).mpr
  intro path
  rw [mem_union,mem_union,or_comm]

theorem chunk_counts_order (order other : SetOrder String) (old_tree new_tree : DiffTree) (path : String) :
    chunk_counts order old_tree new_tree path = chunk_counts other old_tree new_tree path := by
  have sums (size : String → Int) (hashes : List String) :
      ((order.list hashes).map size).sum = ((other.list hashes).map size).sum :=
    (((order.perm hashes).trans (other.perm hashes).symm).map size).sum_eq
  simp only [chunk_counts,sums]

theorem counts_swap (a b c : Counts) : a + b + c = a + c + b := by
  have sums (x y : Counts) : x + y =
      ⟨x.reused + y.reused,x.new + y.new,x.reused_bytes + y.reused_bytes,x.new_bytes + y.new_bytes⟩ := rfl
  simp only [sums,Int.add_right_comm]

theorem all_chunk_counts_order (order other : SetOrder String) (old_tree new_tree : DiffTree) :
    all_chunk_counts order old_tree new_tree = all_chunk_counts other old_tree new_tree := by
  rw [all_chunk_counts,all_chunk_counts]
  simp only [chunk_counts_order order other]
  exact fold_add_congr counts_swap _ ((order.perm _).trans (other.perm _).symm) _

/-! An entry the sums go through. -/

def Entry.Measured (e : Entry) : Prop := e.layer_sizes.isSome = true ∧ e.chunk_sizes.isSome = true

/-- No entry of the tree is null, and none has a part whose size is null. -/
def Measured (tree : DiffTree) : Prop := ∀ path e, tree.get? path = some e → ∃ entry, e = some entry ∧ entry.Measured

theorem mapM_isSome {α β : Type} (f : α → Option β) (xs : List α) : (xs.mapM f).isSome = xs.all fun x => (f x).isSome := by
  induction xs with
  | nil => rfl
  | cons x rest ih =>
    rw [List.mapM_cons,List.all_cons,← ih]
    cases f x with
    | none => rfl
    | some y => cases rest.mapM f <;> rfl

theorem models_isSome (paths : List String) : (models rounding old_tree new_tree paths).isSome = true ↔
    ∀ path ∈ paths, (entry_of new_tree path).layer_sizes.isSome = true := by
  rw [models,mapM_isSome,List.all_eq_true]
  constructor
  · intro all path member
    by_cases rows : (entry_of new_tree path).layer_rows = []
    · rw [Entry.layer_sizes,rows]
      rfl
    · have changed := all path (List.mem_filter.mpr ⟨member,decide_eq_true rows⟩)
      rwa [model_change,Option.isSome_map] at changed
  · intro all path member
    rw [model_change,Option.isSome_map]
    exact all path (List.mem_filter.mp member).1

theorem chunk_counts_isSome : (chunk_counts order old_tree new_tree path).isSome = true ↔
    ∃ entry, new_tree.get? path = some (some entry) ∧ entry.chunk_sizes.isSome = true := by
  rw [chunk_counts]
  cases held : (new_tree.get? path).join with
  | none =>
    constructor
    · intro impossible
      contradiction
    · intro some_entry
      obtain ⟨entry,found,-⟩ := some_entry
      rw [found] at held
      contradiction
  | some entry =>
    have found : new_tree.get? path = some (some entry) := by
      cases at_path : new_tree.get? path with
      | none => simp [at_path] at held
      | some e => exact congrArg some (by simpa [at_path] using held)
    simp only [Option.bind_some,found,Option.some.injEq,exists_eq_left']
    split
    · rename_i none_there
      have rows : entry.chunk_rows = [] := by
        apply List.eq_nil_iff_forall_not_mem.mpr
        intro c member
        have hash : c.hash ∈ _chunk_hashes entry := List.mem_dedup.mpr (List.mem_map_of_mem member)
        rw [none_there] at hash
        contradiction
      simp [Entry.chunk_sizes,rows,sizes,Dict.ofList,Dict.empty]
    · rw [Option.isSome_map]

theorem all_chunk_counts_isSome : (all_chunk_counts order old_tree new_tree).isSome = true ↔
    ∀ path e, new_tree.get? path = some e → ∃ entry, e = some entry ∧ entry.chunk_sizes.isSome = true := by
  rw [all_chunk_counts,fold_add_isSome,List.all_eq_true]
  constructor
  · intro all path e held
    have listed : path ∈ order.list new_tree.keys := (order.perm _).mem_iff.mpr ((new_tree.mem_keys path).mpr ⟨e,held⟩)
    obtain ⟨entry,found,measured⟩ := chunk_counts_isSome.mp (all path listed)
    exact ⟨entry,Option.some.inj (held.symm.trans found),measured⟩
  · intro all path listed
    obtain ⟨e,held⟩ := (new_tree.mem_keys path).mp ((order.perm _).mem_iff.mp listed)
    obtain ⟨entry,rfl,measured⟩ := all path e held
    exact chunk_counts_isSome.mpr ⟨entry,held,measured⟩

theorem entry_of_some {entry : Entry} (held : new_tree.get? path = some (some entry)) : entry_of new_tree path = entry := by
  rw [entry_of,held]
  rfl

/-- The sums go through exactly where every entry of the new tree can be measured. -/
theorem measured_iff (rounding : Rounding R) (order : SetOrder String) {paths : List String} (all_paths : ∀ path, path ∈ paths ↔ old_tree.contains path = true ∨ new_tree.contains path = true) :
    Measured new_tree ↔ (models rounding old_tree new_tree paths).isSome = true ∧
      (all_chunk_counts order old_tree new_tree).isSome = true := by
  rw [models_isSome,all_chunk_counts_isSome]
  constructor
  · intro measured
    constructor
    · intro path _
      cases held : new_tree.get? path with
      | none =>
        have blank : entry_of new_tree path = .blank := by
          rw [entry_of,held]
          rfl
        rw [blank]
        rfl
      | some e =>
        obtain ⟨entry,rfl,layers,-⟩ := measured path e held
        rwa [entry_of_some held]
    · intro path e held
      obtain ⟨entry,same,-,chunks⟩ := measured path e held
      exact ⟨entry,same,chunks⟩
  · intro both path e held
    obtain ⟨entry,rfl,chunks⟩ := both.2 path e held
    have layers := both.1 path ((all_paths path).mpr (Or.inr ((new_tree.contains_iff path).mpr ⟨_,held⟩)))
    rw [entry_of_some held] at layers
    exact ⟨entry,rfl,layers,chunks⟩

/-! Where the two part. -/

/-- A kind that both sides take from the same entry. -/
def KindKept (old_entry new_entry : Entry) : Prop :=
  new_entry.type = .missing ∨ (∃ kind, new_entry.type = .value kind ∧ kind ≠ "") ∨ new_entry.type.get = old_entry.type.get

theorem kinds_agree_iff : client_kind old_tree new_tree path = server_kind old_tree new_tree path ↔
    KindKept (entry_of old_tree path) (entry_of new_tree path) := by
  simp only [client_kind,server_kind,KindKept]
  cases shape : (entry_of new_tree path).type with
  | missing => simp [Field.get,Field.get_or]
  | null => simp [Field.get,Field.get_or]
  | value kind =>
    by_cases nameless : kind = ""
    · simp [Field.get,Field.get_or,nameless]
    · simp [Field.get,Field.get_or,nameless]

/-- No path of both trees has an entry that is null. -/
def NoNulls (old_tree new_tree : DiffTree) : Prop :=
  ∀ path ∈ common old_tree new_tree, ((old_tree.get? path).join.isNone || (new_tree.get? path).join.isNone) = false

theorem client_changed_null (null : ¬NoNulls old_tree new_tree) : client_changed order old_tree new_tree = none := by
  unfold NoNulls at null
  push Not at null
  obtain ⟨path,listed,met⟩ := null
  unfold client_changed
  apply if_pos
  exact List.any_eq_true.mpr ⟨path,(order.perm _).mem_iff.mpr listed,Bool.eq_true_of_not_eq_false met⟩

theorem client_changed_eq (order other : SetOrder String) (none_null : NoNulls old_tree new_tree) :
    client_changed order old_tree new_tree = some (server_changed other old_tree new_tree) := by
  unfold client_changed server_changed
  rw [if_neg]
  · exact congrArg some (sorted_congr (((order.perm _).trans (other.perm _).symm).filter _))
  · intro met
    obtain ⟨path,listed,null⟩ := List.any_eq_true.mp met
    rw [none_null path ((order.perm _).mem_iff.mp listed)] at null
    contradiction

/-- The client's diff is the server's with kinds of its own, unless it meets a null. -/
theorem diff_trees_eq (rounding : Rounding R) (order other : SetOrder String) (old_tree new_tree : Option DiffTree) :
    (¬NoNulls (old_tree.getD ∅) (new_tree.getD ∅) → diff_trees rounding order old_tree new_tree = none) ∧
    (NoNulls (old_tree.getD ∅) (new_tree.getD ∅) → diff_trees rounding order old_tree new_tree =
      (_summarize_tree_diff rounding other old_tree new_tree).map fun d => {d.toDiff with
        changed := (server_changed other (old_tree.getD ∅) (new_tree.getD ∅)).map fun path =>
          ⟨path,client_kind (old_tree.getD ∅) (new_tree.getD ∅) path⟩}) := by
  unfold diff_trees _summarize_tree_diff
  generalize old_tree.getD ∅ = old_tree
  generalize new_tree.getD ∅ = new_tree
  constructor
  · intro null
    simp only [client_changed_null null,Option.bind_none]
  · intro none_null
    have union := ((order.perm _).trans (union_perm old_tree new_tree)).trans (other.perm _).symm
    have paths : sorted (order.list (new_tree.keys ++ only old_tree new_tree)) =
        sorted (other.list (old_tree.keys ++ only new_tree old_tree)) := sorted_congr union
    have datasets (keep : String → Bool) : sorted ((order.list (new_tree.keys ++ only old_tree new_tree)).filter keep) =
        sorted ((other.list (old_tree.keys ++ only new_tree old_tree)).filter keep) := sorted_congr (union.filter keep)
    simp only [client_changed_eq order other none_null,Option.bind_some,paths,all_chunk_counts_order order other,
      sorted_list,datasets,Bool.or_self]
    cases models rounding old_tree new_tree (sorted (old_tree.keys ++ only new_tree old_tree)) with
    | none => rfl
    | some rows => cases all_chunk_counts other old_tree new_tree <;> rfl

theorem server_isSome (rounding : Rounding R) (order : SetOrder String) (old_tree new_tree : Option DiffTree) :
    (_summarize_tree_diff rounding order old_tree new_tree).isSome = true ↔ Measured (new_tree.getD ∅) := by
  unfold _summarize_tree_diff
  generalize old_tree.getD ∅ = old_tree
  generalize new_tree.getD ∅ = new_tree
  have all_paths (path : String) : path ∈ sorted (order.list (old_tree.keys ++ only new_tree old_tree)) ↔
      old_tree.contains path = true ∨ new_tree.contains path = true := by
    rw [mem_sorted,(order.perm _).mem_iff,mem_union]
  rw [measured_iff rounding order all_paths]
  simp only [Option.isSome_bind,Option.isSome_map]
  cases models rounding old_tree new_tree (sorted (order.list (old_tree.keys ++ only new_tree old_tree))) with
  | none => simp
  | some rows => simp

theorem no_nulls_of_measured (measured : Measured new_tree) : NoNulls old_tree new_tree ↔
    ∀ path o n, old_tree.get? path = some o → new_tree.get? path = some (some n) → ∃ e, o = some e := by
  constructor
  · intro none_null path o n old new
    have kept := none_null path (mem_common.mpr ⟨(old_tree.contains_iff path).mpr ⟨o,old⟩,(new_tree.contains_iff path).mpr ⟨_,new⟩⟩)
    cases o with
    | none => simp [old] at kept
    | some e => exact ⟨e,rfl⟩
  · intro entries path listed
    obtain ⟨here,there⟩ := mem_common.mp listed
    obtain ⟨o,old⟩ := (old_tree.contains_iff path).mp here
    obtain ⟨m,new⟩ := (new_tree.contains_iff path).mp there
    obtain ⟨n,rfl,-⟩ := measured path m new
    obtain ⟨e,rfl⟩ := entries path o n old new
    simp [old,new]

theorem mem_server_changed : path ∈ server_changed order old_tree new_tree ↔
    (old_tree.contains path = true ∧ new_tree.contains path = true) ∧
      (entry_of old_tree path).hash.get ≠ (entry_of new_tree path).hash.get := by
  rw [server_changed,mem_sorted,List.mem_filter,(order.perm _).mem_iff,mem_common]
  simp

theorem kinds_kept_iff (measured : Measured new_tree) (none_null : NoNulls old_tree new_tree) :
    (∀ path ∈ server_changed order old_tree new_tree, client_kind old_tree new_tree path = server_kind old_tree new_tree path) ↔
      ∀ path o n, old_tree.get? path = some o → new_tree.get? path = some (some n) →
        ∃ e, o = some e ∧ (e.hash.get ≠ n.hash.get → KindKept e n) := by
  have entries := (no_nulls_of_measured measured).mp none_null
  constructor
  · intro agree path o n old new
    obtain ⟨e,rfl⟩ := entries path o n old new
    refine ⟨e,rfl,fun differ => ?_⟩
    have both := And.intro ((old_tree.contains_iff path).mpr ⟨_,old⟩) ((new_tree.contains_iff path).mpr ⟨_,new⟩)
    rw [← entry_of_some old,← entry_of_some new] at differ ⊢
    exact kinds_agree_iff.mp (agree path (mem_server_changed.mpr ⟨both,differ⟩))
  · intro kept path listed
    obtain ⟨⟨here,there⟩,differ⟩ := mem_server_changed.mp listed
    obtain ⟨o,old⟩ := (old_tree.contains_iff path).mp here
    obtain ⟨m,new⟩ := (new_tree.contains_iff path).mp there
    obtain ⟨n,rfl,-⟩ := measured path m new
    obtain ⟨e,rfl,kind⟩ := kept path o n old new
    rw [entry_of_some old,entry_of_some new] at differ
    rw [kinds_agree_iff,entry_of_some old,entry_of_some new]
    exact kind differ

/-- The two diffs agree on every key they share exactly when the new tree cannot be measured, or no
entry of the old tree that the new one has is null and each changed path keeps one kind. -/
theorem diffs_agree_iff (rounding : Rounding R) (order other : SetOrder String) (old_tree new_tree : Option DiffTree) :
    diff_trees rounding order old_tree new_tree =
        (_summarize_tree_diff rounding other old_tree new_tree).map ServerDiff.toDiff ↔
      (Measured (new_tree.getD ∅) → ∀ path o n, (old_tree.getD ∅).get? path = some o →
        (new_tree.getD ∅).get? path = some (some n) → ∃ e, o = some e ∧ (e.hash.get ≠ n.hash.get → KindKept e n)) := by
  obtain ⟨client_null,client_some⟩ := diff_trees_eq rounding order other old_tree new_tree
  have returns := server_isSome rounding other old_tree new_tree
  have shown : ∀ d, _summarize_tree_diff rounding other old_tree new_tree = some d → d.changed =
      (server_changed other (old_tree.getD ∅) (new_tree.getD ∅)).map fun path =>
        ⟨path,server_kind (old_tree.getD ∅) (new_tree.getD ∅) path⟩ := by
    intro d made
    simp only [_summarize_tree_diff,Option.bind_eq_some_iff,Option.map_eq_some_iff] at made
    obtain ⟨rows,-,counts,-,rfl⟩ := made
    rfl
  generalize old_tree.getD ∅ = old at *
  generalize new_tree.getD ∅ = new at *
  cases made : _summarize_tree_diff rounding other old_tree new_tree with
  | none =>
    have raises : ¬Measured new := fun measured => by simp [made] at returns; exact returns measured
    have client : diff_trees rounding order old_tree new_tree = none := by
      by_cases none_null : NoNulls old new
      · rw [client_some none_null,made]
        rfl
      · exact client_null none_null
    simp [client,raises]
  | some d =>
    have measured : Measured new := returns.mp (by rw [made]; rfl)
    have same_diff : (Option.some {d.toDiff with
        changed := (server_changed other old new).map fun path => ⟨path,client_kind old new path⟩} = some d.toDiff) ↔
        ∀ path ∈ server_changed other old new, client_kind old new path = server_kind old new path := by
      constructor
      · intro same path listed
        have lists := (congrArg Diff.changed (Option.some.inj same)).trans (shown d made)
        exact congrArg FileKind.kind (List.map_inj_left.mp lists path listed)
      · intro agree
        have lists := List.map_inj_left.mpr fun path listed => congrArg (FileKind.mk path) (agree path listed)
        rw [lists,← shown d made]
    by_cases none_null : NoNulls old new
    · rw [client_some none_null,made,Option.map_some,Option.map_some,same_diff,kinds_kept_iff measured none_null]
      exact ⟨fun kept _ => kept,fun kept => kept measured⟩
    · have differs : ¬∀ path o n, old.get? path = some o → new.get? path = some (some n) →
          ∃ e, o = some e ∧ (e.hash.get ≠ n.hash.get → KindKept e n) := by
        intro kept
        apply none_null
        apply (no_nulls_of_measured measured).mpr
        intro path o n at_old at_new
        obtain ⟨e,same,-⟩ := kept path o n at_old at_new
        exact ⟨e,same⟩
      rw [client_null none_null,Option.map_some]
      exact iff_of_false (by simp) fun kept => differs (kept measured)

/-! A new version of a file whose type is null. -/

def fractions : Rounding (Int × Int) := ⟨Prod.mk,(0,0)⟩

def typed : DiffTree := Dict.ofList [("m.pt",some ⟨.value "1",.value 5,.value "artifact",.missing,.missing⟩)]

def untyped : DiffTree := Dict.ofList [("m.pt",some ⟨.value "2",.value 5,.null,.missing,.missing⟩)]

theorem null_type_told_apart :
    (diff_trees fractions .as_listed (some typed) (some untyped)).map Diff.changed = some [⟨"m.pt",none⟩] ∧
    (_summarize_tree_diff fractions .as_listed (some typed) (some untyped)).map (·.changed) = some [⟨"m.pt",some "artifact"⟩] ∧
    diff_trees fractions .as_listed (some typed) (some untyped) ≠
      (_summarize_tree_diff fractions .as_listed (some typed) (some untyped)).map ServerDiff.toDiff := by
  have client : (diff_trees fractions .as_listed (some typed) (some untyped)).map Diff.changed = some [⟨"m.pt",none⟩] := by
    decide +kernel
  have server : (_summarize_tree_diff fractions .as_listed (some typed) (some untyped)).map (·.changed) =
      some [⟨"m.pt",some "artifact"⟩] := by decide +kernel
  refine ⟨client,server,fun same => ?_⟩
  rw [same,Option.map_map] at client
  exact absurd (client.symm.trans server) (by decide)

end AetherVault.TreeDiffs
