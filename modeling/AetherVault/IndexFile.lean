import AetherVault.Lib.JsonRoundTrip
import AetherVault.Lib.SetOrder
import Mathlib.Data.List.Lex

/-! The index on disk: the fragments it is streamed as, what loading makes of them, and the
entries that staging puts into it. -/
namespace AetherVault.IndexFile
open Lib Lib.JsonReader Lib.SetOrder

abbrev Str := {t : Text // Joined t}

/-- No limit on the digits of an integer can be set below this. -/
def str_digits_check_threshold : Nat := 640

/-- An integer that every interpreter prints and reads. -/
abbrev Count := {n : Int // n.natAbs < 10 ^ str_digits_check_threshold}

structure LayerInfo where
  name : Str
  hash : Str
  size : Count
  deriving DecidableEq

structure ChunkInfo where
  hash : Str
  size : Count
  offset : Count
  deriving DecidableEq

structure Entry where
  hash : Str
  size : Count
  mtime_ns : Count
  type : Str
  staged : Bool
  pointer : Option Str
  layers : List LayerInfo
  chunks : List ChunkInfo
  deriving DecidableEq

def LayerInfo.value (l : LayerInfo) : Value :=
  .dict [(text "name",.text l.name),(text "hash",.text l.hash),(text "size",.integer l.size)]

def ChunkInfo.value (c : ChunkInfo) : Value :=
  .dict [(text "hash",.text c.hash),(text "size",.integer c.size),(text "offset",.integer c.offset)]

/-- The dictionary of an entry; `layers` and `chunks` are put in where there are any. -/
def Entry.members (e : Entry) : List (Text × Value) :=
  [(text "hash",.text e.hash),(text "size",.integer e.size),(text "mtime_ns",.integer e.mtime_ns),(text "type",.text e.type),
    (text "staged",.boolean e.staged),(text "pointer",e.pointer.elim .null fun p => .text p)] ++
  (if e.layers = [] then [] else [(text "layers",.list (e.layers.map LayerInfo.value))]) ++
  (if e.chunks = [] then [] else [(text "chunks",.list (e.chunks.map ChunkInfo.value))])

def Entry.value (e : Entry) : Value := .dict e.members

structure Index where
  entries : Dict Str Entry
  removed : List Str
  once : removed.Nodup

namespace Index

def empty : Index := ⟨∅,[],List.nodup_nil⟩

def add_entry (idx : Index) (rel_path hash : Str) (size mtime_ns : Count) (file_type : Str) (pointer : Option Str) : Index :=
  let changed := (idx.entries.get? rel_path).all fun existing => existing.hash ≠ hash
  { entries := idx.entries.set rel_path ⟨hash,size,mtime_ns,file_type,changed,pointer,[],[]⟩
    removed := idx.removed.erase rel_path
    once := idx.once.erase rel_path }

/-- `entries[rel_path] = entry`. -/
def put (idx : Index) (rel_path : Str) (entry : Entry) : Index := {idx with entries := idx.entries.set rel_path entry}

def remove_entry (idx : Index) (rel_path : Str) : Index := {idx with entries := idx.entries.erase rel_path}

def stage_removal (idx : Index) (rel_path : Str) : Index :=
  { entries := idx.entries.erase rel_path
    removed := if rel_path ∈ idx.removed then idx.removed else idx.removed ++ [rel_path]
    once := by
      split
      · exact idx.once
      · rename_i fresh
        exact List.nodup_append.mpr ⟨idx.once,List.nodup_singleton _,by
          intro a listed b single same
          exact fresh (by rwa [← List.mem_singleton.mp single,← same])⟩ }

def clear_staged (idx : Index) : Index where
  entries := idx.entries.map fun _ entry => {entry with staged := false}
  removed := []
  once := List.nodup_nil

def get_staged_entries (idx : Index) : Dict Str Entry := idx.entries.filter fun _ entry => entry.staged

theorem no_blanks : ([] : List Char).all Char.isWhitespace = true := rfl

variable [FloatText]

/-- No blanks after the separators. -/
def compact : JsonValue.Style := ⟨[],no_blanks⟩

/-- `sorted(entries.items())`; no two items have one path, so entries are not compared. -/
def sorted_items (idx : Index) : List (Str × Entry) := idx.entries.entries.insertionSort fun a b => a.1 ≤ b.1

def item_fragment (first : Bool) (item : Str × Entry) : List Char :=
  (if first then [] else [',']) ++ quoted item.1 ++ ':'::dumps compact item.2.value

/-- The loop over the sorted items. -/
def item_fragments : Bool → List (Str × Entry) → List (List Char)
  | _,[] => []
  | first,item::rest => item_fragment first item::item_fragments false rest

def iter_serialized (idx : Index) : List (List Char) :=
  "\x7b\"entries\":\x7b".toList::item_fragments true idx.sorted_items ++ [['}']] ++
    (if idx.removed = [] then []
      else [",\"removed\":".toList ++ dumps compact (.list ((sorted idx.removed).map fun path => .text path.1))]) ++ [['}']]

def serialize (idx : Index) : List Char := idx.iter_serialized.flatten

/-- The text is ASCII. -/
def file_bytes (idx : Index) : List UInt8 := idx.serialize.map fun c => UInt8.ofNat c.toNat

end Index

/-! Loading. -/

/-- The index as it is loaded: any members, and any values for removals. -/
structure Loaded where
  entries : List (Text × Value)
  removed : List Value

inductive LoadError
  | corrupt
  | recursion
  deriving DecidableEq

/-- An interpreter that goes as deep as an index does, and has one of the digit limits that can be set. -/
structure Interpreter where
  limits : Limits
  deep : 5 ≤ limits.nesting
  wide : limits.digits = 0 ∨ str_digits_check_threshold ≤ limits.digits

/-- Line ends as text mode reads them. -/
def universal_newlines : List Char → List Char
  | '\r' :: '\n' :: rest => '\n'::universal_newlines rest
  | '\r'::rest => '\n'::universal_newlines rest
  | c::rest => c::universal_newlines rest
  | [] => []

/-- The checks on what the text holds. -/
def loaded_of : Value → Except LoadError Loaded
  | .dict data =>
    match Dict.find data (text "entries"),(Dict.find data (text "removed")).getD (.list []) with
    | some (.dict entries),.list removed => .ok ⟨entries,removed⟩
    | _,_ => .error .corrupt
  | _ => .error .corrupt

/-- `none` where there is no index file. -/
def load [Double.Rounding] (py : Interpreter) : Option (List UInt8) → Except LoadError Loaded
  | none => .ok ⟨[],[]⟩
  | some file =>
    match decode_utf8 file with
    | none => .error .corrupt
    | some cs =>
      match loads py.limits (universal_newlines cs) with
      | .error .recursion => .error .recursion
      | .error _ => .error .corrupt
      | .ok data => loaded_of data

/-- `entry.get("staged")`. -/
def Loaded.staged (loaded : Loaded) (rel_path : Text) : Bool :=
  match Dict.find loaded.entries rel_path with
  | some (.dict members) => match Dict.find members (text "staged") with
    | some (.boolean staged) => staged
    | _ => false
  | _ => false

/-! Staging. -/

structure StageResult where
  rel_path : Str
  hash : Str
  size : Count
  mtime_ns : Count
  file_type : Str
  pointer : Option Str
  layers : List LayerInfo
  chunks : List ChunkInfo
  deriving DecidableEq

def apply_stage_result (idx : Index) (result : StageResult) : Index :=
  let added := idx.add_entry result.rel_path result.hash result.size result.mtime_ns result.file_type result.pointer
  let layered := if result.layers = [] then added.entries
    else added.entries.modify result.rel_path fun e => {e with layers := result.layers}
  {added with entries := if result.chunks = [] then layered
    else layered.modify result.rel_path fun e => {e with chunks := result.chunks}}

/-- `pool.map`: what the workers return, each with the place of its item, given in the order of the items. -/
def pool_map (completed : List (Nat × Option StageResult)) : List (Option StageResult) :=
  (completed.insertionSort fun a b => a.1 ≤ b.1).map Prod.snd

def zero_count : Count := ⟨0,Nat.pow_pos (by decide)⟩

/-- The entry that was staged takes the place of the one just added. -/
def merge_staged (staged current : Index) (item : StageResult) : Index :=
  let added := current.add_entry item.rel_path item.hash item.size zero_count item.file_type none
  (staged.entries.get? item.rel_path).elim added (added.put item.rel_path)

/-- `add`: results are applied to the index read first, and the entries of their paths are put into the current one. -/
def add (idx current : Index) (completed : List (Nat × Option StageResult)) : Index :=
  let results := (pool_map completed).reduceOption
  let staged := results.foldl apply_stage_result idx
  results.foldl (merge_staged staged) current

/-! The fragments make up one JSON text. -/

section Serialized

variable [FloatText] (idx : Index)

namespace Index

/-- What the index is written as. -/
def document : Value :=
  .dict ((text "entries",.dict (idx.sorted_items.map fun item => (item.1.1,item.2.value)))::
    if idx.removed = [] then [] else [(text "removed",.list ((sorted idx.removed).map fun path => .text path.1))])

theorem later_fragments (items : List (Str × Entry)) : (item_fragments false items).flatten =
    (items.map fun item => ','::(quoted item.1 ++ ':'::dumps compact item.2.value)).flatten := by
  induction items with
  | nil => rfl
  | cons item rest ih =>
    rw [item_fragments,List.flatten_cons,ih,List.map_cons,List.flatten_cons]
    rfl

omit [FloatText] in
theorem joined_flatten (first : List Char) (rest : List (List Char)) :
    JsonValue.joined compact (first::rest) = first ++ (rest.map (','::·)).flatten := by
  induction rest generalizing first with
  | nil => simp [JsonValue.joined]
  | cons second rest ih =>
    rw [JsonValue.joined_cons_cons,ih second,List.map_cons,List.flatten_cons]
    rfl

theorem fragments_joined (items : List (Str × Entry)) : (item_fragments true items).flatten =
    JsonValue.joined compact (items.map fun item => dumps_member compact (item.1.1,item.2.value)) := by
  cases items with
  | nil => simp [item_fragments,JsonValue.joined]
  | cons item rest =>
    rw [item_fragments,List.flatten_cons,later_fragments,List.map_cons,joined_flatten,List.map_map]
    simp [item_fragment,dumps_member,compact,Function.comp_def]

theorem serialize_eq : idx.serialize = dumps compact idx.document := by
  have front : "\x7b\"entries\":\x7b".toList = '\x7b'::(quoted (text "entries") ++ [':','\x7b']) := by decide +kernel
  have middle : ",\"removed\":".toList = ','::(quoted (text "removed") ++ [':']) := by decide +kernel
  have entries : dumps_member compact (text "entries",.dict (idx.sorted_items.map fun item => (item.1.1,item.2.value))) =
      quoted (text "entries") ++ ':'::('\x7b'::(item_fragments true idx.sorted_items).flatten ++ ['}']) := by
    rw [dumps_member,dumps_dict,fragments_joined,List.map_map]
    rfl
  unfold serialize iter_serialized document
  rw [dumps_dict,List.map_cons,entries,front]
  split
  · simp [JsonValue.joined_singleton]
  · rw [List.map_cons,List.map_nil,JsonValue.joined_cons_cons,JsonValue.joined_singleton,middle]
    simp [dumps_member,compact]

end Index

end Serialized

/-! What is written can be read. -/

section Storing

variable {limits : Limits} (wide : limits.digits = 0 ∨ str_digits_check_threshold ≤ limits.digits)

/-- The names in an entry, in their order. -/
def entry_names : List Text := [text "hash",text "size",text "mtime_ns",text "type",text "staged",text "pointer",text "layers",text "chunks"]

theorem record_storable (names : List Text) {members : List (Text × Value)} {depth : Nat}
    (basic : ∀ name ∈ names, ∀ code ∈ name, code < 0xd800) (once : names.Nodup) (shape : (members.map Prod.fst).Sublist names)
    (each : ∀ member ∈ members, Storable limits depth member.2) : Storable limits (depth+1) (.dict members) :=
  .dict (fun _ listed => .of_basic (basic _ (shape.subset (List.mem_map_of_mem listed)))) (shape.nodup once) each

theorem Entry.members_names (e : Entry) : (e.members.map Prod.fst).Sublist entry_names := by
  unfold Entry.members
  split
  · split
    · simp only [List.append_nil,List.map_cons,List.map_nil]
      decide
    · simp only [List.append_nil,List.map_append,List.map_cons,List.map_nil]
      decide
  · split
    · simp only [List.append_nil,List.map_append,List.map_cons,List.map_nil]
      decide
    · simp only [List.map_append,List.map_cons,List.map_nil]
      decide

include wide

theorem count_short (n : Count) : limits.digits = 0 ∨ (Nat.toDigits 10 n.1.natAbs).length ≤ limits.digits := by
  have least := (Nat.length_toDigits_le_iff (by decide) (by decide)).mpr n.2
  rcases wide with none | enough
  · exact Or.inl none
  · exact Or.inr (least.trans enough)

theorem LayerInfo.storable (l : LayerInfo) : Storable limits 1 l.value := by
  refine record_storable [text "name",text "hash",text "size"] (by decide) (by decide) (List.Sublist.refl _) ?_
  simp only [List.forall_mem_cons,List.not_mem_nil,false_imp_iff,implies_true,and_true]
  exact ⟨.text l.name.2,.text l.hash.2,.integer (count_short wide l.size)⟩

theorem ChunkInfo.storable (c : ChunkInfo) : Storable limits 1 c.value := by
  refine record_storable [text "hash",text "size",text "offset"] (by decide) (by decide) (List.Sublist.refl _) ?_
  simp only [List.forall_mem_cons,List.not_mem_nil,false_imp_iff,implies_true,and_true]
  exact ⟨.text c.hash.2,.integer (count_short wide c.size),.integer (count_short wide c.offset)⟩

theorem Entry.storable (e : Entry) : Storable limits 3 e.value := by
  refine record_storable entry_names (by decide) (by decide) e.members_names ?_
  have layers : Storable limits 2 (.list (e.layers.map LayerInfo.value)) := by
    apply Storable.list
    intro value listed
    obtain ⟨l,-,rfl⟩ := List.mem_map.mp listed
    exact l.storable wide
  have chunks : Storable limits 2 (.list (e.chunks.map ChunkInfo.value)) := by
    apply Storable.list
    intro value listed
    obtain ⟨c,-,rfl⟩ := List.mem_map.mp listed
    exact c.storable wide
  have pointer : Storable limits 2 (e.pointer.elim .null fun p => .text p.1) := by
    cases e.pointer with
    | none => exact .null
    | some p => exact .text p.2
  intro member listed
  unfold Entry.members at listed
  rcases List.mem_append.mp listed with front | chunk
  · rcases List.mem_append.mp front with plain | layer
    · simp only [List.mem_cons,List.not_mem_nil,or_false] at plain
      rcases plain with rfl | rfl | rfl | rfl | rfl | rfl
      · exact .text e.hash.2
      · exact .integer (count_short wide e.size)
      · exact .integer (count_short wide e.mtime_ns)
      · exact .text e.type.2
      · exact .boolean e.staged
      · exact pointer
    · split at layer
      · contradiction
      · rw [List.mem_singleton.mp layer]
        exact layers
  · split at chunk
    · contradiction
    · rw [List.mem_singleton.mp chunk]
      exact chunks

theorem Index.document_storable (idx : Index) : Storable limits 5 idx.document := by
  have paths : idx.sorted_items.map Prod.fst |>.Nodup :=
    (((List.perm_insertionSort _ _).map Prod.fst).nodup_iff).mpr idx.entries.distinct
  have entries : Storable limits 4 (.dict (idx.sorted_items.map fun item => (item.1.1,item.2.value))) := by
    apply Storable.dict
    · intro member listed
      obtain ⟨item,-,rfl⟩ := List.mem_map.mp listed
      exact item.1.2
    · have texts := paths.map Subtype.val_injective
      rwa [List.map_map] at texts ⊢
    · intro member listed
      obtain ⟨item,-,rfl⟩ := List.mem_map.mp listed
      exact item.2.storable wide
  unfold document
  split
  · refine record_storable [text "entries"] (by decide) (by decide) (List.Sublist.refl _) ?_
    intro member listed
    rw [List.mem_singleton.mp listed]
    exact entries
  · refine record_storable [text "entries",text "removed"] (by decide) (by decide) (List.Sublist.refl _) ?_
    intro member listed
    rcases List.mem_cons.mp listed with rfl | last
    · exact entries
    · rw [List.mem_singleton.mp last]
      apply Storable.list
      intro value listed
      obtain ⟨path,-,rfl⟩ := List.mem_map.mp listed
      exact .text path.2

end Storing

/-! Loading what was written. -/

section Loading

variable (idx : Index)

def Index.as_loaded : Loaded :=
  ⟨idx.sorted_items.map fun item => (item.1.1,item.2.value),(sorted idx.removed).map fun path => .text path.1⟩

theorem loaded_of_document : loaded_of idx.document = .ok idx.as_loaded := by
  unfold Index.document Index.as_loaded
  split
  · rename_i none_removed
    have nothing : sorted idx.removed = [] := by simp [none_removed,sorted]
    rw [nothing]
    rfl
  · rfl

/-- The entries as they were: a path has what it had, and no other text has anything. -/
theorem Index.as_loaded_entry (path : Str) :
    Dict.find idx.as_loaded.entries path.1 = (idx.entries.get? path).map Entry.value := by
  have lookup (items : List (Str × Entry)) : Dict.find (items.map fun item => (item.1.1,item.2.value)) path.1 =
      (Dict.find items path).map Entry.value := by
    induction items with
    | nil => rfl
    | cons item rest ih =>
      rw [List.map_cons,Dict.find,Dict.find,ih]
      by_cases here : item.1 = path
      · rw [if_pos here,if_pos (congrArg Subtype.val here)]
        rfl
      · rw [if_neg here,if_neg fun same => here (Subtype.ext same)]
  have sorted : Dict.find idx.sorted_items path = idx.entries.get? path := by
    have perm : idx.sorted_items.Perm idx.entries.entries := List.perm_insertionSort _ _
    have distinct : (idx.sorted_items.map Prod.fst).Nodup := ((perm.map Prod.fst).nodup_iff).mpr idx.entries.distinct
    exact Dict.get?_of_perm (a := ⟨idx.sorted_items,distinct⟩) perm path
  rw [as_loaded,lookup,sorted]

theorem Entry.staged_member (e : Entry) : Dict.find e.members (text "staged") = some (.boolean e.staged) := rfl

theorem Index.as_loaded_staged (path : Str) : idx.as_loaded.staged path.1 = (idx.entries.get? path).any (·.staged) := by
  rw [Loaded.staged,as_loaded_entry]
  cases idx.entries.get? path with
  | none => rfl
  | some e =>
    simp only [Option.map_some,Entry.value,Entry.staged_member]
    rfl

theorem universal_newlines_plain {cs : List Char} (plain : '\r' ∉ cs) : universal_newlines cs = cs := by
  fun_induction universal_newlines cs with
  | case1 rest ih => simp at plain
  | case2 rest other ih => simp at plain
  | case3 c rest other mark ih => rw [ih fun later => plain (List.mem_cons_of_mem _ later)]
  | case4 => rfl

variable [FloatText]

theorem Index.serialize_printable : ∀ c ∈ idx.serialize, printable c = true := by
  rw [serialize_eq]
  have storable : Storable ⟨5,0⟩ 5 idx.document := document_storable (Or.inl rfl) idx
  exact storable.printable (by simp [compact])

theorem load_file_bytes [Double.Rounding] (py : Interpreter) : load py (some idx.file_bytes) = .ok idx.as_loaded := by
  have shown := idx.serialize_printable
  have ascii : ∀ c ∈ idx.serialize, c.toNat < 0x80 := by
    intro c member
    have above := shown c member
    simp only [printable,Bool.and_eq_true,decide_eq_true_eq] at above
    exact lt_of_le_of_lt (Char.le_def.mp above.2) (by decide)
  have plain : '\r' ∉ idx.serialize := fun member => absurd (shown _ member) (by decide)
  have blanks : ∀ c ∈ Index.compact.blanks, printable c = true := by simp [Index.compact]
  have read := loads_dumps blanks ((idx.document_storable py.wide).deeper py.deep)
  rw [load,Index.file_bytes]
  simp only [decode_utf8_ascii _ ascii,universal_newlines_plain plain]
  rw [Index.serialize_eq,read]
  exact loaded_of_document idx

end Loading

/-! What the text is made from. -/

/-- One index as a map of entries and a set of removals. -/
def Same (a b : Index) : Prop :=
  (∀ path, a.entries.get? path = b.entries.get? path) ∧ ∀ path, path ∈ a.removed ↔ path ∈ b.removed

theorem Same.refl (a : Index) : Same a a := ⟨fun _ => rfl,fun _ => Iff.rfl⟩

theorem Same.trans {a b c : Index} (first : Same a b) (second : Same b c) : Same a c :=
  ⟨fun path => (first.1 path).trans (second.1 path),fun path => (first.2 path).trans (second.2 path)⟩

theorem Same.sorted_items {a b : Index} (same : Same a b) : a.sorted_items = b.sorted_items := by
  have entries : a.entries.entries.Perm b.entries.entries := by
    apply (List.perm_ext_iff_of_nodup a.entries.distinct.of_map b.entries.distinct.of_map).mpr
    intro item
    rw [← Prod.mk.eta (p := item),Dict.mem_entries,Dict.mem_entries,same.1]
  have perm : a.sorted_items.Perm b.sorted_items :=
    ((List.perm_insertionSort _ _).trans entries).trans (List.perm_insertionSort _ _).symm
  apply perm.eq_of_pairwise _ (List.pairwise_insertionSort _ _) (List.pairwise_insertionSort _ _)
  intro x y left right below above
  have path : x.1 = y.1 := le_antisymm below above
  have held_x := (a.entries.mem_entries x.1 x.2).mp ((List.mem_insertionSort _).mp left)
  have held_y := (b.entries.mem_entries y.1 y.2).mp ((List.mem_insertionSort _).mp right)
  rw [same.1,path] at held_x
  exact Prod.ext path (Option.some.inj (held_x.symm.trans held_y))

theorem Same.file_bytes [FloatText] {a b : Index} (same : Same a b) : a.file_bytes = b.file_bytes := by
  have removed : a.removed.Perm b.removed := (List.perm_ext_iff_of_nodup a.once b.once).mpr same.2
  have document : a.document = b.document := by
    unfold Index.document
    rw [same.sorted_items,sorted_congr removed]
    simp only [List.eq_nil_iff_forall_not_mem,same.2]
  rw [Index.file_bytes,Index.file_bytes,Index.serialize_eq,Index.serialize_eq,document]

/-! The order of staging. -/

/-- A step that gives the path of its item an entry, made from the one it had, and takes it out of the removals. -/
structure Sets {α : Type} (step : Index → α → Index) (path : α → Str) (entry : α → Option Entry → Entry) : Prop where
  get : ∀ idx a p, (step idx a).entries.get? p =
    if p = path a then some (entry a (idx.entries.get? (path a))) else idx.entries.get? p
  removed : ∀ idx a p, p ∈ (step idx a).removed ↔ p ≠ path a ∧ p ∈ idx.removed

namespace Sets

variable {α : Type} {step : Index → α → Index} {path : α → Str} {entry : α → Option Entry → Entry} (sets : Sets step path entry)
include sets

theorem same {a b : Index} (before : Same a b) (x : α) : Same (step a x) (step b x) := by
  constructor
  · intro p
    rw [sets.get,sets.get,before.1,before.1]
  · intro p
    rw [sets.removed,sets.removed,before.2]

theorem swap {a b : Index} (before : Same a b) {x y : α} (apart : path x ≠ path y) :
    Same (step (step a x) y) (step (step b y) x) := by
  constructor
  · intro p
    simp only [sets.get,before.1,apart,Ne.symm apart,if_false]
    by_cases at_x : p = path x
    · simp [at_x,apart]
    · simp [at_x]
  · intro p
    simp only [sets.removed,before.2]
    tauto

theorem fold_same (xs : List α) {a b : Index} (before : Same a b) : Same (xs.foldl step a) (xs.foldl step b) := by
  induction xs generalizing a b with
  | nil => exact before
  | cons x rest ih => exact ih (sets.same before x)

/-- Items of different paths may come in any order. -/
theorem perm {xs ys : List α} (order : xs.Perm ys) (distinct : (xs.map path).Nodup) {a b : Index} (before : Same a b) :
    Same (xs.foldl step a) (ys.foldl step b) := by
  induction order generalizing a b with
  | nil => exact before
  | cons x _ ih => exact ih (List.nodup_cons.mp distinct).2 (sets.same before x)
  | swap x y rest =>
    have apart : path y ≠ path x := fun same => (List.nodup_cons.mp distinct).1 (by simp [same])
    exact sets.fold_same rest (sets.swap before apart)
  | trans first _ one two => exact (one distinct (Same.refl a)).trans (two ((first.map path).nodup_iff.mp distinct) before)

end Sets

theorem apply_stage_result_sets : Sets apply_stage_result StageResult.rel_path fun result existing =>
    ⟨result.hash,result.size,result.mtime_ns,result.file_type,existing.all fun e => e.hash ≠ result.hash,result.pointer,
      result.layers,result.chunks⟩ where
  get idx result p := by
    unfold apply_stage_result
    by_cases layered : result.layers = [] <;> by_cases chunked : result.chunks = [] <;> by_cases same : p = result.rel_path <;>
      simp [Index.add_entry,Dict.get?_modify,Dict.get?_set,layered,chunked,same]
  removed idx result p := idx.once.mem_erase_iff

theorem merge_staged_sets (staged : Index) : Sets (merge_staged staged) StageResult.rel_path fun item existing =>
    (staged.entries.get? item.rel_path).getD
      ⟨item.hash,item.size,zero_count,item.file_type,existing.all fun e => e.hash ≠ item.hash,none,[],[]⟩ where
  get idx item p := by
    unfold merge_staged
    cases staged.entries.get? item.rel_path with
    | none => simp [Index.add_entry,Dict.get?_set]
    | some entry => by_cases same : p = item.rel_path <;> simp [Index.add_entry,Index.put,Dict.get?_set,same]
  removed idx item p := by
    unfold merge_staged
    cases staged.entries.get? item.rel_path with
    | none => exact idx.once.mem_erase_iff
    | some entry => exact idx.once.mem_erase_iff

theorem merge_staged_same {a b : Index} (same : Same a b) : merge_staged a = merge_staged b := by
  ext current item
  rw [merge_staged,merge_staged,same.1]

theorem add_same {idx current : Index} {completed other : List (Nat × Option StageResult)}
    (results : (pool_map completed).reduceOption.Perm (pool_map other).reduceOption)
    (distinct : ((pool_map completed).reduceOption.map StageResult.rel_path).Nodup) :
    Same (add idx current completed) (add idx current other) := by
  have staged := apply_stage_result_sets.perm results distinct (Same.refl idx)
  unfold add
  simp only [merge_staged_same staged]
  exact (merge_staged_sets _).perm results distinct (Same.refl current)

/-- Workers that are done in another order. -/
theorem pool_map_perm {completed other : List (Nat × Option StageResult)} (order : completed.Perm other)
    (places : (completed.map Prod.fst).Nodup) : pool_map completed = pool_map other := by
  have perm : (completed.insertionSort fun a b => a.1 ≤ b.1).Perm (other.insertionSort fun a b => a.1 ≤ b.1) :=
    ((List.perm_insertionSort _ _).trans order).trans (List.perm_insertionSort _ _).symm
  rw [pool_map,pool_map,perm.eq_of_pairwise _ (List.pairwise_insertionSort _ _) (List.pairwise_insertionSort _ _)]
  intro x y left right below above
  apply List.inj_on_of_nodup_map places ((List.mem_insertionSort _).mp left)
    (order.mem_iff.mpr ((List.mem_insertionSort _).mp right))
  exact le_antisymm below above

/-- An index that is written and loaded is as it was, and its bytes show its entries and
removals alone: not the order they were staged in, nor the order the workers were done in. -/
theorem index_persists [FloatText] [Double.Rounding] (py : Interpreter) (idx : Index) :
    (∃ loaded, load py (some idx.file_bytes) = .ok loaded ∧
      loaded.entries.Perm (idx.entries.entries.map fun item => (item.1.1,item.2.value)) ∧
      (∀ path : Str, Dict.find loaded.entries path.1 = (idx.entries.get? path).map Entry.value ∧
        loaded.staged path.1 = idx.get_staged_entries.contains path) ∧
      loaded.removed.Perm (idx.removed.map fun path => .text path.1)) ∧
    (∀ other : Index, (∀ path, idx.entries.get? path = other.entries.get? path) →
      (∀ path, path ∈ idx.removed ↔ path ∈ other.removed) → idx.file_bytes = other.file_bytes) ∧
    (∀ current completed other, ((pool_map completed).reduceOption.map StageResult.rel_path).Nodup →
      (pool_map completed).reduceOption.Perm (pool_map other).reduceOption →
      (add idx current completed).file_bytes = (add idx current other).file_bytes) ∧
    ∀ current completed other, (completed.map Prod.fst).Nodup → completed.Perm other →
      (add idx current completed).file_bytes = (add idx current other).file_bytes := by
  refine ⟨⟨idx.as_loaded,load_file_bytes idx py,?_,?_,?_⟩,?_,?_,?_⟩
  · exact (List.perm_insertionSort _ _).map _
  · intro path
    refine ⟨idx.as_loaded_entry path,?_⟩
    rw [idx.as_loaded_staged,Index.get_staged_entries,Dict.contains,Dict.get?_filter]
    cases idx.entries.get? path with
    | none => rfl
    | some e => cases kept : e.staged <;> simp [kept]
  · exact (List.mergeSort_perm _ _).map _
  · exact fun other entries removed => Same.file_bytes ⟨entries,removed⟩
  · exact fun current completed other distinct results => (add_same results distinct).file_bytes
  · intro current completed other places order
    rw [add,add,pool_map_perm order places]

@[reducible] def no_floats : FloatText := ⟨fun _ => []⟩

def plain_interpreter : Interpreter := ⟨⟨1000,4300⟩,by decide,by decide⟩

def one_byte_file (name : Nat) (basic : name < 0xd800) : StageResult where
  rel_path := ⟨[name],.of_basic (by simpa using basic)⟩
  hash := ⟨[],.of_basic (by simp)⟩
  size := ⟨1,Nat.one_lt_pow (by decide) (by decide)⟩
  mtime_ns := zero_count
  file_type := ⟨[],.of_basic (by simp)⟩
  pointer := none
  layers := []
  chunks := []

/-- Two files staged in either order, one of them done first in either order. -/
theorem index_persists_reordered :
    let a := one_byte_file 97 (by decide)
    let b := one_byte_file 98 (by decide)
    let bytes := @Index.file_bytes no_floats
    bytes (add .empty .empty [(0,some a),(1,some b)]) = bytes (add .empty .empty [(0,some b),(1,some a)]) ∧
    bytes (add .empty .empty [(0,some a),(1,some b)]) = bytes (add .empty .empty [(1,some b),(0,some a)]) := by
  obtain ⟨-,-,staging,workers⟩ := @index_persists no_floats Double.unrounded plain_interpreter .empty
  exact ⟨staging _ _ _ (by decide) (by decide),workers _ _ _ (by decide) (by decide)⟩

end AetherVault.IndexFile
