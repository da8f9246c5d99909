import AetherVault.CommitListing

/-! A signature across the registry: the commit that another clone receives verifies
exactly when every signed field comes back as it was sent. -/
namespace AetherVault
open Lib Hashing
open JsonValue (arrange)

/-! Canonical bytes, field by field. -/

theorem canonical_bytes_iff (a b : Doc) : canonical_bytes a = canonical_bytes b ↔
    ∀ key, key ≠ "signature" → (a.get? key).map arrange = (b.get? key).map arrange := by
  have erased (d : Doc) (key : String) :
      ((d.erase "signature").get? key).map arrange = if key = "signature" then none else (d.get? key).map arrange := by
    rw [Dict.get?_erase]
    split <;> rfl
  unfold canonical_bytes
  rw [encode_injective.eq_iff,JsonValue.dumps_sorted_iff,JsonValue.arrange_dict_iff]
  simp only [erased]
  constructor
  · intro same key other
    simpa [other] using same key
  · intro same key
    split
    · rfl
    · rename_i other
      exact same key other

@[ext]
structure Fields where
  hash : JsonValue
  parents : JsonValue
  author : JsonValue
  timestamp : JsonValue
  message : JsonValue
  tree : JsonValue
  tags : JsonValue
  metrics : JsonValue
  project_id : JsonValue
  project_name : JsonValue
  run_id : Option JsonValue
  env_snapshot_id : Option JsonValue

namespace Fields

def get? (f : Fields) (key : String) : Option JsonValue :=
  if key = "hash" then some f.hash else if key = "parents" then some f.parents else if key = "author" then some f.author
  else if key = "timestamp" then some f.timestamp else if key = "message" then some f.message
  else if key = "tree" then some f.tree else if key = "tags" then some f.tags else if key = "metrics" then some f.metrics
  else if key = "project_id" then some f.project_id else if key = "project_name" then some f.project_name
  else if key = "run_id" then f.run_id else if key = "env_snapshot_id" then f.env_snapshot_id else none

def arranged (f : Fields) : Fields where
  hash := arrange f.hash
  parents := arrange f.parents
  author := arrange f.author
  timestamp := arrange f.timestamp
  message := arrange f.message
  tree := arrange f.tree
  tags := arrange f.tags
  metrics := arrange f.metrics
  project_id := arrange f.project_id
  project_name := arrange f.project_name
  run_id := f.run_id.map arrange
  env_snapshot_id := f.env_snapshot_id.map arrange

theorem get?_arranged (f : Fields) (key : String) : (f.get? key).map arrange = f.arranged.get? key := by
  simp only [get?,arranged,apply_ite (Option.map arrange),Option.map_some,Option.map_none]

theorem ext_get? {f g : Fields} (same : ∀ key, f.get? key = g.get? key) : f = g := by
  ext1
  · simpa [get?] using same "hash"
  · simpa [get?] using same "parents"
  · simpa [get?] using same "author"
  · simpa [get?] using same "timestamp"
  · simpa [get?] using same "message"
  · simpa [get?] using same "tree"
  · simpa [get?] using same "tags"
  · simpa [get?] using same "metrics"
  · simpa [get?] using same "project_id"
  · simpa [get?] using same "project_name"
  · simpa [get?] using same "run_id"
  · simpa [get?] using same "env_snapshot_id"

end Fields

/-- A document holds these fields, and a signature at most beside them. -/
def Holds (doc : Doc) (f : Fields) : Prop := ∀ key, key ≠ "signature" → doc.get? key = f.get? key

theorem Holds.same_bytes {a b : Doc} {f g : Fields} (one : Holds a f) (two : Holds b g) :
    canonical_bytes a = canonical_bytes b ↔ f.arranged = g.arranged := by
  rw [canonical_bytes_iff]
  constructor
  · intro same
    apply Fields.ext_get?
    intro key
    rw [← f.get?_arranged,← g.get?_arranged]
    by_cases signature : key = "signature"
    · subst key
      rfl
    · rw [← one key signature,← two key signature,same key signature]
  · intro same key signature
    rw [one key signature,two key signature,f.get?_arranged,g.get?_arranged,same]

theorem get?_set_when (doc : Doc) (key other : String) (value : Option JsonValue) :
    (set_when doc key value).get? other = if other = key then value.or (doc.get? key) else doc.get? other := by
  cases value with
  | none =>
    rw [Option.none_or]
    split
    · rename_i same
      rw [same]
      rfl
    · rfl
  | some v => exact Dict.get?_set doc key other v

/-! Timestamps. -/

theorem padded_plain {width n : Nat} {c : Char} (member : c ∈ Datetime.padded width n) : c ≠ 'Z' := by
  induction width with
  | zero => simp [Datetime.padded] at member
  | succ width ih =>
    rcases List.mem_cons.mp member with rfl | inside
    · have small := Nat.mod_lt (n / 10^width) (by decide : 0 < 10)
      generalize n / 10^width % 10 = digit at small
      interval_cases digit <;> decide
    · exact ih inside

theorem isoformat_plain (d : Datetime) {c : Char} (member : c ∈ d.isoformat) : c ≠ 'Z' := by
  simp only [Datetime.isoformat,Datetime.fraction,List.mem_append,List.mem_cons] at member
  rcases member with (((((year | rfl | month) | rfl | day) | rfl | hour) | rfl | minute) | rfl | second) | fraction
  · exact padded_plain year
  · decide
  · exact padded_plain month
  · decide
  · exact padded_plain day
  · decide
  · exact padded_plain hour
  · decide
  · exact padded_plain minute
  · decide
  · exact padded_plain second
  · split at fraction
    · simp at fraction
    · rcases List.mem_cons.mp fraction with rfl | digits
      · decide
      · exact padded_plain digits

theorem zulu_plain {cs : List Char} (plain : ∀ c ∈ cs, c ≠ 'Z') : zulu cs = cs := by
  induction cs with
  | nil => rfl
  | cons c more ih =>
    have later := ih fun d member => plain d (List.mem_cons_of_mem _ member)
    simp only [zulu] at later
    simp [zulu,plain c (by simp),later]

theorem zulu_isoformat (d : Datetime) : zulu d.isoformat = d.isoformat := zulu_plain fun _ => isoformat_plain d

theorem zulu_isoformat_utc (d : Datetime) : zulu d.isoformat_utc = d.isoformat_utc := by
  apply zulu_plain
  intro c member
  rcases List.mem_append.mp member with front | back
  · exact isoformat_plain d front
  · simp only [Datetime.utc_suffix,List.mem_cons,List.not_mem_nil,or_false] at back
    rcases back with rfl | rfl | rfl | rfl | rfl | rfl <;> decide

theorem isoformat_ne_empty (d : Datetime) (suffix : List Char) : String.ofList (d.isoformat ++ suffix) ≠ "" := by
  intro same
  have text := congrArg String.toList same
  rw [String.toList_ofList] at text
  simp [Datetime.isoformat,Datetime.padded] at text

/-- The registry's spelling of an instant and the author's have one canonical form. -/
theorem canonical_timestamp_naive (d : Datetime) :
    _canonical_timestamp (some (.string (String.ofList d.isoformat))) = .ok (some (String.ofList d.isoformat_utc)) := by
  have filled := isoformat_ne_empty d []
  rw [List.append_nil] at filled
  simp [_canonical_timestamp,filled,zulu_isoformat,Datetime.fromisoformat_isoformat,canonical_instant,Except.map]

theorem canonical_timestamp_utc (d : Datetime) :
    _canonical_timestamp (some (.string (String.ofList d.isoformat_utc))) = .ok (some (String.ofList d.isoformat_utc)) := by
  have filled : String.ofList d.isoformat_utc ≠ "" := isoformat_ne_empty d _
  simp [_canonical_timestamp,filled,zulu_isoformat_utc,Datetime.fromisoformat_utc,canonical_instant,Datetime.to_utc_zero,
    Except.map]

theorem commit_ts_utc (d : Datetime) : commit_ts (String.ofList d.isoformat_utc) = .ok (some d) := by
  have filled : String.ofList d.isoformat_utc ≠ "" := isoformat_ne_empty d _
  simp [commit_ts,filled,zulu_isoformat_utc,Datetime.fromisoformat_utc,canonical_instant,Datetime.to_utc_zero,Except.map]

/-! The two sides. -/

section Sides

variable {H : Type} [HexDigest H]

def field_names : List String := ["hash","parents","author","timestamp","message","tree","tags","metrics","project_id",
  "project_name","run_id","env_snapshot_id"]

theorem Fields.get?_other (f : Fields) {key : String} (other : key ∉ field_names) : f.get? key = none := by
  simp only [field_names,List.mem_cons,List.not_mem_nil,or_false,not_or] at other
  simp [Fields.get?,other]

theorem holds_of_names {doc : Doc} {f : Fields} (named : ∀ key ∈ field_names, doc.get? key = f.get? key)
    (rest : ∀ key, key ∉ field_names → key ≠ "signature" → doc.get? key = none) : Holds doc f := by
  intro key signature
  by_cases known : key ∈ field_names
  · exact named key known
  · rw [rest key known signature,f.get?_other known]

def Commit.fields (c : Commit H) : Fields where
  hash := hash_json c.hash
  parents := .list (c.payload.parents.map hash_json)
  author := .string c.payload.author
  timestamp := .string c.payload.timestamp
  message := .string c.payload.message
  tree := tree_json c.payload.tree
  tags := .list (c.payload.tags.map .string)
  metrics := .dict c.payload.metrics.entries
  project_id := .string c.payload.project_id
  project_name := .string c.payload.project_name
  run_id := c.payload.run_id.map .string
  env_snapshot_id := c.payload.env_snapshot_id.map hash_json

theorem Commit.unsigned_get? (c : Commit H) (key : String) : c.unsigned.get? key =
    if key = "hash" then some (hash_json c.hash)
    else if key = "env_snapshot_id" then c.payload.env_snapshot_id.map hash_json
    else if key = "run_id" then c.payload.run_id.map .string
    else c.payload.base.get? key := by
  have absent : c.payload.base.get? "env_snapshot_id" = none ∧ c.payload.base.get? "run_id" = none := by
    constructor <;> simp [Payload.base,Dict.ofList,Dict.get?_set]
  unfold Commit.unsigned Payload.commit_data
  rw [Dict.get?_set,get?_set_when]
  by_cases env : key = "env_snapshot_id"
  · subst env
    simp [get?_set_when,absent]
  · rw [if_neg env,if_neg env,get?_set_when,absent.2,Option.or_none]

theorem Commit.holds (c : Commit H) : Holds c.unsigned c.fields := by
  apply holds_of_names
  · intro key known
    simp only [field_names,List.mem_cons,List.not_mem_nil,or_false] at known
    rw [c.unsigned_get?]
    rcases known with rfl | rfl | rfl | rfl | rfl | rfl | rfl | rfl | rfl | rfl | rfl | rfl <;>
      simp [Fields.get?,Commit.fields,Payload.base,Dict.ofList,Dict.get?_set]
  · intro key unknown signature
    simp only [field_names,List.mem_cons,List.not_mem_nil,or_false,not_or] at unknown
    rw [c.unsigned_get?]
    simp [unknown,Payload.base,Dict.ofList,Dict.get?_set]

def received_fields (h : H) (columns : CommitColumns H) (tree : Tree H) : Fields where
  hash := hash_json h
  parents := .list (_full_parents columns.parent_hash columns.extra_parents)
  author := .string (or_default columns.author "anonymous")
  timestamp := .string (String.ofList columns.timestamp.isoformat)
  message := .string columns.message
  tree := tree_json tree
  tags := .list (columns.tags.map .string)
  metrics := .dict columns.metrics.entries
  project_id := .string columns.project_id
  project_name := .string columns.project_name
  run_id := none
  env_snapshot_id := columns.env_snapshot_id.map hash_json

theorem get_or_list {row : Doc} {key : String} {items : List JsonValue} (found : row.get? key = some (.list items)) :
    get_or row key (.list []) = .list items := by
  cases items <;> simp [get_or,found,truthy,Option.filter]

theorem get_or_dict {row : Doc} {key : String} {members : List (String × JsonValue)}
    (found : row.get? key = some (.dict members)) : get_or row key (.dict []) = .dict members := by
  cases members <;> simp [get_or,found,truthy,Option.filter]

theorem get_or_string {row : Doc} {key text default : String} (found : row.get? key = some (.string text)) :
    get_or row key (.string default) = .string (or_default text default) := by
  by_cases empty : text = "" <;> simp [get_or,found,truthy,or_default,empty,Option.filter]

theorem row_parents_listed {row : Doc} {items : List JsonValue} (found : row.get? "parents" = some (.list items))
    (first : items = [] → row.get? "parent_hash" = some .null) : row_parents row = .list items := by
  unfold row_parents
  rw [get_or_list found]
  cases items with
  | nil => simp [truthy,first rfl,Option.filter]
  | cons a more => simp [truthy]

theorem hash_json_truthy (h : H) : truthy (hash_json h) = true := by simp [truthy,hash_json,HexDigest.nonempty]

theorem normalize_listed (h : H) (columns : CommitColumns H) (root : Option H) (tree : Tree H) :
    ∃ received, normalize_commit_row ((commit_dict h columns root).set "tree" (tree_json tree)) = some received ∧
      Holds received (received_fields h columns tree) ∧
      received.get? "signature" = (some (_signature_out columns.signature)).filter truthy := by
  generalize whole : (commit_dict h columns root).set "tree" (tree_json tree) = row
  have get (key : String) : row.get? key = if key = "tree" then some (tree_json tree) else (commit_dict h columns root).get? key := by
    rw [← whole,Dict.get?_set]
  have hash : row.get? "hash" = some (hash_json h) := by rw [get]; simp [commit_dict,Dict.ofList,Dict.get?_set]
  have parents : row_parents row = .list (_full_parents columns.parent_hash columns.extra_parents) := by
    apply row_parents_listed
    · rw [get]
      simp [commit_dict,Dict.ofList,Dict.get?_set]
    · intro none_left
      rw [get]
      cases first : columns.parent_hash with
      | none => simp [commit_dict,Dict.ofList,Dict.get?_set,first,json_or_null]
      | some parent => simp [_full_parents,first] at none_left
  have author : get_or row "author" (.string "anonymous") = .string (or_default columns.author "anonymous") :=
    get_or_string (by rw [get]; simp [commit_dict,Dict.ofList,Dict.get?_set])
  have message : get_or row "message" (.string "") = .string columns.message := by
    have stored : row.get? "message" = some (.string columns.message) := by
      rw [get]
      simp [commit_dict,Dict.ofList,Dict.get?_set]
    rw [get_or_string stored]
    simp [or_default]
  have at_tree : get_or row "tree" (.dict []) = tree_json tree := get_or_dict (by rw [get]; rfl)
  have tags : get_or row "tags" (.list []) = .list (columns.tags.map .string) :=
    get_or_list (by rw [get]; simp [commit_dict,Dict.ofList,Dict.get?_set])
  have metrics : get_or row "metrics" (.dict []) = .dict columns.metrics.entries :=
    get_or_dict (by rw [get]; simp [commit_dict,Dict.ofList,Dict.get?_set])
  have env : (row.get? "env_snapshot_id").filter truthy = columns.env_snapshot_id.map hash_json := by
    rw [get]
    cases snapshot : columns.env_snapshot_id with
    | none => simp [commit_dict,Dict.ofList,snapshot,json_or_null,truthy,Option.filter]
    | some s => simp [commit_dict,Dict.ofList,snapshot,json_or_null,hash_json_truthy,Option.filter]
  have signature : row.get? "signature" = some (_signature_out columns.signature) := by
    rw [get]
    simp [commit_dict,Dict.ofList,Dict.get?_set]
  have rest : row.get? "timestamp" = some (.string (String.ofList columns.timestamp.isoformat)) ∧
      row.get? "project_id" = some (.string columns.project_id) ∧
      row.get? "project_name" = some (.string columns.project_name) := by
    simp [get,commit_dict,Dict.ofList,Dict.get?_set]
  unfold normalize_commit_row
  rw [hash,parents,author,message,at_tree,tags,metrics,env,signature,rest.1,rest.2.1,rest.2.2]
  refine ⟨_,rfl,?_,?_⟩
  · apply holds_of_names
    · intro key known
      simp only [field_names,List.mem_cons,List.not_mem_nil,or_false] at known
      rcases known with rfl | rfl | rfl | rfl | rfl | rfl | rfl | rfl | rfl | rfl | rfl | rfl <;>
        simp [Fields.get?,received_fields,get?_set_when,Dict.ofList,Dict.get?_set,json_or_null]
    · intro key unknown signature
      simp only [field_names,List.mem_cons,List.not_mem_nil,or_false,not_or] at unknown
      simp [unknown,signature,get?_set_when,Dict.ofList,Dict.get?_set]
  · simp [get?_set_when,Dict.ofList,Dict.get?_set]

theorem full_parents (parents : List H) : _full_parents parents.head? (if 1 < parents.length then
    some (JsonValue.dumps spaced false (.list (parents.tail.map hash_json))) else none) = parents.map hash_json := by
  cases parents with
  | nil => rfl
  | cons first more =>
    cases more with
    | nil => rfl
    | cons second rest => simp [_full_parents,JsonValue.dumps,JsonValue.loads_text]

theorem arrange_blob (public_bytes sig : Bytes) (signed_at : String) :
    arrange (.dict (signature_blob public_bytes sig signed_at)) = .dict (signature_blob public_bytes sig signed_at) := by
  have names : ["algo","public_key","sig","signed_at"].Pairwise ((· ≤ ·) : String → String → Prop) := by decide
  have sorted : (signature_blob public_bytes sig signed_at).Pairwise fun a b => a.1 ≤ b.1 := List.pairwise_map.mp names
  have plain : JsonValue.arrange_members (signature_blob public_bytes sig signed_at) =
      signature_blob public_bytes sig signed_at := rfl
  rw [arrange,plain,List.Pairwise.insertionSort_eq sorted]

theorem signature_out_column (public_bytes sig : Bytes) (signed_at : String) :
    _signature_out (signature_column (some (.dict (signature_blob public_bytes sig signed_at)))) =
      .dict (signature_blob public_bytes sig signed_at) := by
  simp [_signature_out,signature_column,JsonValue.dumps,arrange_blob,JsonValue.loads_text]

theorem Holds.stamp {doc : Doc} {f : Fields} (holds : Holds doc f) (t : JsonValue) :
    Holds (doc.set "timestamp" t) {f with timestamp := t} := by
  intro key signature
  rw [Dict.get?_set]
  split
  · rename_i same
    subst key
    rfl
  · rename_i other
    rw [holds key signature]
    simp [Fields.get?,other]

theorem canonical_commit_bytes_stamped {doc : Doc} {f : Fields} {s t : String} (holds : Holds doc f)
    (stamp : f.timestamp = .string s) (reads : _canonical_timestamp (some (.string s)) = .ok (some t)) :
    canonical_commit_bytes doc = .ok (canonical_bytes (doc.set "timestamp" (.string t))) := by
  have at_timestamp : doc.get? "timestamp" = some (.string s) := by
    rw [holds _ (by decide),← stamp]
    rfl
  rw [canonical_commit_bytes,at_timestamp,reads]
  rfl

/-- A signature verifies exactly over the bytes that were signed. -/
theorem verify_blob {K : Type} {crypto : Ed25519 K} (ideal : crypto.Ideal) {key : K} {bytes other : Bytes}
    {signed_at : String} {doc : Doc}
    (signature : doc.get? "signature" = some (.dict (signature_blob (crypto.public_bytes key) (crypto.sign key bytes) signed_at)))
    (canonical : canonical_commit_bytes doc = .ok other) :
    verify_signature (some crypto) doc = .ok .verified ↔ other = bytes := by
  generalize blob : signature_blob (crypto.public_bytes key) (crypto.sign key bytes) signed_at = members at signature
  have algo : member_text? members "algo" = some ALGO := by
    rw [← blob]
    rfl
  have key_text : member_text? members "public_key" = some (String.ofList (hex (crypto.public_bytes key))) := by
    rw [← blob]
    rfl
  have sig_text : member_text? members "sig" = some (String.ofList (b64encode (crypto.sign key bytes))) := by
    rw [← blob]
    rfl
  have pub : public_key_of crypto members = some (crypto.public_bytes key) := by
    simp [public_key_of,key_text,fromhex_hex,ideal.loads,Option.filter]
  have sig : sig_of members = some (crypto.sign key bytes) := by simp [sig_of,sig_text,b64decode_b64encode]
  simp only [verify_signature,signature,algo,pub,sig,canonical,ne_eq,not_true_eq_false,if_false,Except.map,Except.ok.injEq]
  constructor
  · intro verdict
    apply ideal.binds key bytes other
    by_contra refused
    rw [if_neg refused] at verdict
    contradiction
  · rintro rfl
    rw [if_pos (ideal.verifies key other)]

end Sides

/-! The tree. -/

section Survival

variable {H : Type} [DecidableEq H] [HexDigest H]

/-- Paths are told apart by their texts. -/
def Keyed (tree : Tree H) : Prop :=
  ∀ p q, tree.contains p = true → tree.contains q = true → p.text = q.text → p = q

omit [HexDigest H] [DecidableEq H] in
theorem Keyed.distinct {tree : Tree H} (keyed : Keyed tree) {β : Type} (f : TreeEntry H → β) :
    ((tree.entries.map fun item => (item.1.text,f item.2)).map Prod.fst).Nodup := by
  rw [List.map_map]
  have texts : (tree.entries.map Prod.fst).Pairwise fun p q => p.text ≠ q.text := by
    refine tree.distinct.imp_of_mem fun left right differ same => differ (keyed _ _ ?_ ?_ same)
    · exact (tree.contains_iff _).mpr ((tree.mem_keys _).mp left)
    · exact (tree.contains_iff _).mpr ((tree.mem_keys _).mp right)
  rw [List.pairwise_map] at texts
  exact List.pairwise_map.mpr texts

omit [DecidableEq H] in
theorem arrange_tree_same {a b : Tree H} (keyed : Keyed b) (same : ∀ path, a.get? path = b.get? path) :
    arrange (tree_json a) = arrange (tree_json b) := by
  have holds (path : Path) : a.contains path = b.contains path := by simp [Dict.contains,same]
  have keyed' : Keyed a := fun p q left right => keyed p q (holds p ▸ left) (holds q ▸ right)
  let one : Doc := ⟨_,keyed'.distinct TreeEntry.json⟩
  let two : Doc := ⟨_,keyed.distinct TreeEntry.json⟩
  change arrange (.dict one.entries) = arrange (.dict two.entries)
  rw [JsonValue.arrange_dict_iff]
  intro key
  congr 1
  apply Option.ext
  intro value
  rw [← one.mem_entries,← two.mem_entries]
  have members {t other : Tree H} (agree : ∀ path, t.get? path = other.get? path) {value : JsonValue}
      (member : (key,value) ∈ t.entries.map fun item => (item.1.text,item.2.json)) :
      (key,value) ∈ other.entries.map fun item => (item.1.text,item.2.json) := by
    obtain ⟨item,inside,shown⟩ := List.mem_map.mp member
    refine List.mem_map.mpr ⟨item,?_,shown⟩
    exact (other.mem_entries _ _).mpr ((agree item.1) ▸ (t.mem_entries _ _).mp inside)
  exact ⟨members same,members fun path => (same path).symm⟩

omit [DecidableEq H] in
theorem arrange_tree_paths {a b : Tree H} (same : arrange (tree_json a) = arrange (tree_json b)) {p : Path}
    (held : a.contains p = true) : ∃ q, b.contains q = true ∧ q.text = p.text := by
  obtain ⟨e,found⟩ := (a.contains_iff p).mp held
  have member : p.text ∈ (a.entries.map fun item => (item.1.text,item.2.json)).map Prod.fst :=
    List.mem_map.mpr ⟨_,List.mem_map.mpr ⟨(p,e),(a.mem_entries _ _).mpr found,rfl⟩,rfl⟩
  obtain ⟨named,there,shown⟩ := List.mem_map.mp (JsonValue.arrange_dict_names same member)
  obtain ⟨item,inside,rfl⟩ := List.mem_map.mp there
  exact ⟨item.1,(b.contains_iff _).mpr ⟨item.2,(b.mem_entries _ _).mp inside⟩,shown⟩

omit [DecidableEq H] in
/-- The tree of a row has the text of the tree that was pushed exactly when nothing of it was lost. -/
theorem tree_survives_iff {t raw tree : Tree H} (keyed : Keyed tree)
    (named : ∀ path, tree.contains path = true → path ≠ []) (flat : flat_tree tree = some raw)
    (reads : ∀ path, t.get? path = kept (tree_depth raw) raw path) :
    arrange (tree_json t) = arrange (tree_json tree) ↔ PrefixFree tree ∧ tree_is_flat tree = true := by
  constructor
  · intro same
    have back {p : Path} (held : tree.contains p = true) : ∃ q e, kept (tree_depth raw) raw q = some e ∧ q.text = p.text := by
      obtain ⟨q,there,text⟩ := arrange_tree_paths same.symm held
      obtain ⟨e,found⟩ := (t.contains_iff q).mp there
      exact ⟨q,e,by rw [← reads,found],text⟩
    rcases flat_tree_cases flat with ⟨shape,rfl⟩ | ⟨-,code,lost,-,single⟩
    · refine ⟨fun p q one two before => ?_,shape⟩
      have all {p : Path} (held : raw.contains p = true) : ∃ e, kept (tree_depth raw) raw p = some e := by
        obtain ⟨q,e,there,text⟩ := back held
        obtain rfl : q = p := keyed q p ((raw.contains_iff q).mpr ⟨e,kept_held there⟩) held text
        exact ⟨e,there⟩
      obtain ⟨a,at_p⟩ := all one
      obtain ⟨b,at_q⟩ := all two
      exact kept_prefix_free at_p at_q before
    · exfalso
      obtain ⟨q,e,there,text⟩ := back code
      have held : raw.contains q = true := (raw.contains_iff q).mpr ⟨e,kept_held there⟩
      obtain ⟨name,rfl⟩ := List.length_eq_one_iff.mp (single q held)
      obtain rfl : name = "code" := text
      rw [held] at lost
      contradiction
  · rintro ⟨prefix_free,shape⟩
    obtain rfl : tree = raw := by simpa [flat_tree,shape] using flat
    exact arrange_tree_same keyed fun path => (reads path).trans (kept_eq prefix_free (within_depth named) path)

/-- A commit's payload as `commit_staged` or a merge makes it at some time. -/
inductive Produced : Datetime → Payload H → Prop
  | staged (c : Committer) (now : Datetime) (idx : Index H) (parents : List H) (message : String) (tags : List String)
      (metrics : Doc) (run_id : Option String) (env_snapshot : Option H) :
      Produced now (staged_payload c now idx parents message tags metrics run_id env_snapshot)
  | merged (c : Committer) (now : Datetime) (ours theirs : H) (tree : Tree H) (message target branch : String) :
      Produced now (merge_payload c now ours theirs tree message target branch)

omit [HexDigest H] in
theorem Produced.timestamp {now : Datetime} {p : Payload H} (produced : Produced now p) :
    p.timestamp = String.ofList now.isoformat_utc := by
  cases produced <;> rfl

/-- When every signed field comes back as it was sent. -/
structure Survives (username : Option String) (p : Payload H) : Prop where
  unlinked : p.run_id = none
  authored : p.author ≠ ""
  unstamped : p.author = "anonymous" → username.getD "" ∈ ["","anonymous"]
  project_id : p.project_id ≠ ""
  project_name : p.project_name ≠ ""
  prefix_free : PrefixFree p.tree
  shape : tree_is_flat p.tree = true

theorem author_survives_iff (author : String) (username : Option String) :
    or_default (stamped_author author username) "anonymous" = author ↔
      author ≠ "" ∧ (author = "anonymous" → username.getD "" ∈ ["","anonymous"]) := by
  unfold stamped_author or_default
  by_cases anonymous : author = "anonymous"
  · subst author
    generalize username.getD "" = name
    by_cases empty : name = "" <;> simp [empty]
  · by_cases empty : author = "" <;> simp [anonymous,empty]

theorem or_default_iff (text : String) {default : String} (filled : default ≠ "") : or_default text default = text ↔ text ≠ "" := by
  unfold or_default
  split
  · rename_i empty
    simp [empty,filled]
  · rename_i some_text
    simp [some_text]

variable {K : Type}

omit [DecidableEq H] in
theorem signed_bytes [Hashing H] {crypto : Ed25519 K} {key : K} {signed_at : String} {now : Datetime} {c : Commit H}
    (stamp : c.payload.timestamp = String.ofList now.isoformat_utc)
    (signed : finalize_commit (some (crypto,key)) signed_at c.payload = .ok c) :
    ∃ doc, Holds doc c.fields ∧ c.signature =
      some (.dict (signature_blob (crypto.public_bytes key) (crypto.sign key (canonical_bytes doc)) signed_at)) := by
  have timestamp : c.fields.timestamp = .string (String.ofList now.isoformat_utc) := by rw [← stamp]; rfl
  refine ⟨c.unsigned.set "timestamp" (.string (String.ofList now.isoformat_utc)),?_,?_⟩
  · rw [← timestamp]
    exact c.holds.stamp c.fields.timestamp
  · have canonical := canonical_commit_bytes_stamped c.holds timestamp (canonical_timestamp_utc now)
    unfold finalize_commit at signed
    cases bytes : canonical_commit_bytes c.payload.commit_data with
    | error e => simp [bytes,Except.map] at signed
    | ok b =>
      rw [bytes] at signed
      have made := Except.ok.inj signed
      have hash : sha256 b = c.hash := by rw [← made]
      have unsigned : Commit.unsigned ⟨c.payload,sha256 b,none⟩ = c.unsigned := by rw [hash]; rfl
      have signature := congrArg Commit.signature made
      simp only [unsigned,sign_payload,canonical,Option.bind_some,Except.map,Except.toOption] at signature
      exact signature.symm

omit [DecidableEq H] in
theorem stored_columns {username : Option String} {now at_insert : Datetime} {c : Commit H} {columns : CommitColumns H}
    (stamp : c.payload.timestamp = String.ofList now.isoformat_utc)
    (stored : commit_columns username at_insert c = .ok columns) :
    columns.timestamp = now ∧ columns.signature = signature_column c.signature ∧ ∀ t : Tree H,
      {received_fields c.hash columns t with timestamp := .string (String.ofList now.isoformat_utc)} =
      {c.fields with
        author := .string (or_default (stamped_author c.payload.author username) "anonymous")
        tree := tree_json t
        project_id := .string (or_default c.payload.project_id "legacy")
        project_name := .string (or_default c.payload.project_name "Legacy / Unknown")
        run_id := none} := by
  unfold commit_columns at stored
  rw [stamp,commit_ts_utc] at stored
  obtain rfl := Except.ok.inj stored
  refine ⟨rfl,rfl,fun t => ?_⟩
  apply Fields.ext <;> first | rfl | skip
  · exact congrArg JsonValue.list (full_parents c.payload.parents)
  · rw [← stamp]
    rfl

omit [DecidableEq H] in
/-- The fields that come back are those that were signed exactly when the payload survives. -/
theorem fields_survive_iff {username : Option String} {c : Commit H} {t raw : Tree H} (keyed : Keyed c.payload.tree)
    (named : ∀ path, c.payload.tree.contains path = true → path ≠ []) (flat : flat_tree c.payload.tree = some raw)
    (reads : ∀ path, t.get? path = kept (tree_depth raw) raw path) :
    ({c.fields with
        author := .string (or_default (stamped_author c.payload.author username) "anonymous")
        tree := tree_json t
        project_id := .string (or_default c.payload.project_id "legacy")
        project_name := .string (or_default c.payload.project_name "Legacy / Unknown")
        run_id := none} : Fields).arranged = c.fields.arranged ↔ Survives username c.payload := by
  have tree := tree_survives_iff keyed named flat reads
  have author := author_survives_iff c.payload.author username
  have project_id := or_default_iff c.payload.project_id (show "legacy" ≠ "" by decide)
  have project_name := or_default_iff c.payload.project_name (show "Legacy / Unknown" ≠ "" by decide)
  have run : (none : Option JsonValue) = c.payload.run_id.map (fun id => arrange (.string id)) ↔ c.payload.run_id = none := by
    cases c.payload.run_id <;> simp
  constructor
  · intro same
    have authors := JsonValue.string.inj (congrArg Fields.author same)
    have trees := tree.mp (congrArg Fields.tree same)
    have runs := congrArg Fields.run_id same
    simp only [Fields.arranged,Commit.fields,Option.map_none,Option.map_map] at runs
    exact ⟨run.mp runs,(author.mp authors).1,(author.mp authors).2,
      project_id.mp (JsonValue.string.inj (congrArg Fields.project_id same)),
      project_name.mp (JsonValue.string.inj (congrArg Fields.project_name same)),trees.1,trees.2⟩
  · intro survives
    have authors := author.mpr ⟨survives.authored,survives.unstamped⟩
    have trees := tree.mpr ⟨survives.prefix_free,survives.shape⟩
    apply Fields.ext <;> first | rfl | skip
    · exact congrArg (fun s => arrange (.string s)) authors
    · exact trees
    · exact congrArg (fun s => arrange (.string s)) (project_id.mpr survives.project_id)
    · exact congrArg (fun s => arrange (.string s)) (project_name.mpr survives.project_name)
    · simp [Fields.arranged,Commit.fields,survives.unlinked]

omit [DecidableEq H] in
theorem columns_of_produced {now : Datetime} {c : Commit H} (stamp : c.payload.timestamp = String.ofList now.isoformat_utc)
    (username : Option String) (at_insert : Datetime) : ∃ columns, commit_columns username at_insert c = .ok columns := by
  unfold commit_columns
  rw [stamp,commit_ts_utc]
  exact ⟨_,rfl⟩

variable [Hashing H]

omit [DecidableEq H] in
theorem finalize_produced {now : Datetime} {p : Payload H} (stamp : p.timestamp = String.ofList now.isoformat_utc)
    (signer : Option (Ed25519 K × K)) (signed_at : String) :
    ∃ c, finalize_commit signer signed_at p = .ok c ∧ c.payload = p := by
  have base : p.base.get? "timestamp" = some (.string p.timestamp) := by simp [Payload.base,Dict.ofList,Dict.get?_set]
  have found : p.commit_data.get? "timestamp" = some (.string p.timestamp) := by
    simp [Payload.commit_data,get?_set_when,base]
  unfold finalize_commit canonical_commit_bytes
  rw [found,stamp,canonical_timestamp_utc]
  exact ⟨_,rfl,rfl⟩

omit [DecidableEq H] in
/-- A received row verifies exactly when the payload survives. -/
theorem received_verifies_iff {crypto : Ed25519 K} (ideal : crypto.Ideal) {key : K} {signed_at : String}
    {username : Option String} {now at_insert : Datetime} {c : Commit H} {columns : CommitColumns H} {t raw : Tree H}
    (root : Option H) (stamp : c.payload.timestamp = String.ofList now.isoformat_utc)
    (signed : finalize_commit (some (crypto,key)) signed_at c.payload = .ok c) (keyed : Keyed c.payload.tree)
    (named : ∀ path, c.payload.tree.contains path = true → path ≠ []) (flat : flat_tree c.payload.tree = some raw)
    (reads : ∀ path, t.get? path = kept (tree_depth raw) raw path)
    (stored : commit_columns username at_insert c = .ok columns) :
    ∃ received, normalize_commit_row ((commit_dict c.hash columns root).set "tree" (tree_json t)) = some received ∧
      (verify_signature (some crypto) received = .ok .verified ↔ Survives username c.payload) := by
  obtain ⟨received,normalized,holds,signature⟩ := normalize_listed c.hash columns root t
  obtain ⟨doc,signs,blob⟩ := signed_bytes stamp signed
  obtain ⟨at_now,column,fields⟩ := stored_columns stamp stored
  have canonical := canonical_commit_bytes_stamped holds rfl (canonical_timestamp_naive columns.timestamp)
  have stamped := holds.stamp (.string (String.ofList columns.timestamp.isoformat_utc))
  rw [at_now,fields] at stamped
  rw [column,blob,signature_out_column] at signature
  refine ⟨received,normalized,?_⟩
  rw [verify_blob ideal signature canonical,at_now,stamped.same_bytes signs,fields_survive_iff keyed named flat reads]

variable [TreeContent H] {crypto : Ed25519 K} {key : K} {signed_at : String} {config : ServerConfig} {limits : PushLimits}
  {me : Nat} {policy : Registry H → Moment H} {space : Set (Listing H)} {l : Ledger H} (push : Ledger.Push H)
  {later : List (Ledger.Push H)}

/-- In the ledger that an accepted push and any others after it lead to, the row that is served verifies exactly when the
payload survives. -/
theorem listed_verifies_iff (ideal : crypto.Ideal) (free : Set.InjOn tree_hash space) (sound : l.Sound space)
    (within : ∀ other ∈ push::later, other.Within space) {now : Datetime} (produced : Produced now push.commit.payload)
    (signed : finalize_commit (some (crypto,key)) signed_at push.commit.payload = .ok push.commit)
    (keyed : Keyed push.commit.payload.tree)
    (named : ∀ path, push.commit.payload.tree.contains path = true → path ≠ [])
    (accepted : (l.push_commit config limits me policy push).1 = .ok 201) {t : Ledger H}
    (ran : (l.push_commit config limits me policy push).2.push_all config limits me policy later = t) :
    (∀ q, ∃ enough, ∀ levels ≥ enough, ∃ page, t.list_commits levels q = some page ∧
      (∀ item ∈ t.page q, ∃ row ∈ page.1, row.get? "hash" = some (hash_json item.1)) ∧
      ∀ row ∈ page.1, row.get? "hash" = some (hash_json push.commit.hash) →
        ∃ received, normalize_commit_row row = some received ∧
          (verify_signature (some crypto) received = .ok .verified ↔ Survives push.username push.commit.payload)) ∧
    ∃ q, push.commit.hash ∈ (t.page q).map Prod.fst := by
  have mine := within push (by simp)
  obtain ⟨columns,raw,stored,flat,recorded⟩ := Ledger.push_records config limits me policy mine accepted
  obtain ⟨next,-⟩ := sound.pushed config limits me policy mine
  obtain ⟨final,kept_on⟩ := next.push_all config limits me policy
    fun other member => within other (List.mem_cons_of_mem _ member)
  rw [ran] at final kept_on
  have records := kept_on _ _ _ recorded
  refine ⟨fun q => ?_,_,Ledger.mem_page_of_records records⟩
  obtain ⟨enough,pages⟩ := final.listed free q
  refine ⟨enough,fun levels more => ?_⟩
  obtain ⟨page,served,-,complete,exact_rows⟩ := pages levels more
  refine ⟨page,served,complete,fun row member at_hash => ?_⟩
  obtain ⟨tree,rfl,reads⟩ := exact_rows _ columns raw records row member at_hash
  exact received_verifies_iff ideal _ produced.timestamp signed keyed named flat reads stored

end Survival

end AetherVault
