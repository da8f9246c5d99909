import AetherVault.World
import AetherVault.Lib.JsonText
import AetherVault.Lib.Datetime

/-! Commit payloads with all their fields, the canonical bytes that are hashed and
signed, and the check of a signature. -/
namespace AetherVault
open Lib Hashing

/-- The hexadecimal text of a digest. -/
class HexDigest (H : Type) where
  hexdigest : H → String
  injective : Function.Injective hexdigest
  nonempty : ∀ h, hexdigest h ≠ ""

instance : HexDigest Name where
  hexdigest h := String.ofList (hex (0::h.bytes))
  injective a b same := by
    have bytes := congrArg fromhex (String.ofList_inj.mp same)
    rw [fromhex_hex,fromhex_hex] at bytes
    exact congrArg Name.mk (List.cons.inj (Option.some.inj bytes)).2
  nonempty h same := by
    have text := congrArg String.toList same
    rw [String.toList_ofList] at text
    contradiction

abbrev Doc := Dict String JsonValue

/-- The separators `json.dumps` uses by default. -/
def spaced : JsonValue.Style := ⟨[' '],by decide⟩

def natural (n : Nat) : JsonValue := .number (Numeral.ofNat n)

def FileType.value : FileType → String
  | .code => "code"
  | .artifact => "artifact"
  | .file => "file"

section Payload

variable {H : Type} [HexDigest H]

def hash_json (h : H) : JsonValue := .string (HexDigest.hexdigest h)

def Layer.json (layer : Layer H) : JsonValue :=
  .dict [("name",.string layer.name),("hash",hash_json layer.hash),("size",natural layer.size)]

def Chunk.json (chunk : Chunk H) : JsonValue :=
  .dict [("hash",hash_json chunk.hash),("size",natural chunk.size),("offset",natural chunk.offset)]

def Digest.json : Digest H → JsonValue
  | .sha h => hash_json h
  | .size n => natural n
  | .kind type => .string type.value
  | .layers parts => .list (parts.map Layer.json)
  | .chunks parts => .list (parts.map Chunk.json)

def TreeEntry.json (entry : TreeEntry H) : JsonValue :=
  .dict [("hash",entry.hash.json),("size",natural entry.size),("type",.string entry.type.value),
    ("layers",.list (entry.layers.map Layer.json)),("chunks",.list (entry.chunks.map Chunk.json))]

def tree_json (tree : Tree H) : JsonValue := .dict (tree.entries.map fun item => (item.1.text,item.2.json))

/-- A commit payload before it has its hash. -/
structure Payload (H : Type) where
  parents : List H
  author : String
  timestamp : String
  message : String
  tree : Tree H
  tags : List String
  metrics : Doc
  project_id : String
  project_name : String
  run_id : Option String
  env_snapshot_id : Option H

def Payload.base (p : Payload H) : Doc := Dict.ofList [("parents",.list (p.parents.map hash_json)),
  ("author",.string p.author),("timestamp",.string p.timestamp),("message",.string p.message),("tree",tree_json p.tree),
  ("tags",.list (p.tags.map .string)),("metrics",.dict p.metrics.entries),("project_id",.string p.project_id),
  ("project_name",.string p.project_name)]

def set_when (doc : Doc) (key : String) (value : Option JsonValue) : Doc := value.elim doc (doc.set key)

def Payload.commit_data (p : Payload H) : Doc :=
  set_when (set_when p.base "run_id" (p.run_id.map .string)) "env_snapshot_id" (p.env_snapshot_id.map hash_json)

/-- What a committer's configuration and environment give. -/
structure Committer where
  av_author : Option String
  project_id : String
  project_name : String

def Committer.author (c : Committer) : String := c.av_author.getD "anonymous"

/-- `if run_id:` -/
def linked_run (run_id : Option String) : Option String := run_id.filter fun id => id ≠ ""

def run_tags (tags : List String) (run_id : Option String) : List String :=
  match linked_run run_id with
  | none => tags
  | some id => if "run:" ++ id ∈ tags then tags else tags ++ ["run:" ++ id]

/-- The payload that `_commit_staged_locked` builds. -/
def staged_payload [DecidableEq H] (c : Committer) (now : Datetime) (idx : Index H) (parents : List H) (message : String)
    (tags : List String) (metrics : Doc) (run_id : Option String) (env_snapshot : Option H) : Payload H where
  parents := parents
  author := c.author
  timestamp := String.ofList now.isoformat_utc
  message := message
  tree := idx.tree
  tags := run_tags tags run_id
  metrics := metrics
  project_id := c.project_id
  project_name := c.project_name
  run_id := linked_run run_id
  env_snapshot_id := env_snapshot

/-- The payload that `merge` builds. -/
def merge_payload (c : Committer) (now : Datetime) (ours theirs : H) (merged : Tree H) (message : String)
    (target branch : String) : Payload H where
  parents := [ours,theirs]
  author := c.author
  timestamp := String.ofList now.isoformat_utc
  message := if message = "" then s!"Merge {target} into {branch}" else message
  tree := merged
  tags := []
  metrics := ∅
  project_id := c.project_id
  project_name := c.project_name
  run_id := none
  env_snapshot_id := none

end Payload

/-! Canonical bytes. -/

inductive Raised
  | overflow_error
  deriving DecidableEq

def encode (cs : List Char) : Bytes := (String.ofList cs).toByteArray.data.toList

theorem encode_injective : Function.Injective encode := by
  intro a b same
  have bytes : (String.ofList a).toByteArray = (String.ofList b).toByteArray := ByteArray.ext (Array.toList_inj.mp same)
  exact String.ofList_inj.mp (String.toByteArray_inj.mp bytes)

def canonical_bytes (doc : Doc) : Bytes :=
  encode (JsonValue.dumps spaced true (.dict (doc.erase "signature").entries))

/-- `value.replace("Z", "+00:00")` -/
def zulu (cs : List Char) : List Char := cs.flatMap fun c => if c = 'Z' then Datetime.utc_suffix else [c]

def canonical_instant (naive : Datetime) : Option Int → Except Raised Datetime
  | none => .ok naive
  | some offset => match naive.to_utc offset with
    | none => .error .overflow_error
    | some utc => .ok utc

/-- A text that is no timestamp is signed as it is. -/
def _canonical_timestamp : Option JsonValue → Except Raised (Option String)
  | some (.string s) =>
    if s = "" then .ok none
    else match Datetime.fromisoformat (zulu s.toList) with
      | none => .ok (some s)
      | some parsed => (canonical_instant parsed.1 parsed.2).map fun utc => some (String.ofList utc.isoformat_utc)
  | _ => .ok none

def canonical_commit_bytes (commit_data : Doc) : Except Raised Bytes :=
  (_canonical_timestamp (commit_data.get? "timestamp")).map fun normalized_ts =>
    canonical_bytes (set_when commit_data "timestamp" (normalized_ts.map .string))

/-! Signatures. -/

/-- The `cryptography` package, on raw key and signature bytes. -/
structure Ed25519 (K : Type) where
  public_bytes : K → Bytes
  sign : K → Bytes → Bytes
  from_public_bytes : Bytes → Bool
  verify : Bytes → Bytes → Bytes → Bool

/-- A signature verifies over the signed bytes and over no others. -/
structure Ed25519.Ideal {K : Type} (crypto : Ed25519 K) : Prop where
  loads : ∀ key, crypto.from_public_bytes (crypto.public_bytes key) = true
  verifies : ∀ key bytes, crypto.verify (crypto.public_bytes key) (crypto.sign key bytes) bytes = true
  binds : ∀ key bytes other, crypto.verify (crypto.public_bytes key) (crypto.sign key bytes) other = true → other = bytes

def ALGO : String := "ed25519"

section Sign

variable {K : Type}

def signature_blob (public_bytes sig : Bytes) (signed_at : String) : List (String × JsonValue) :=
  [("algo",.string ALGO),("public_key",.string (String.ofList (hex public_bytes))),
    ("sig",.string (String.ofList (b64encode sig))),("signed_at",.string signed_at)]

/-- With a key and the package there; it raises where the canonical bytes do. -/
def sign_payload (crypto : Ed25519 K) (key : K) (signed_at : String) (commit_data : Doc) : Except Raised JsonValue :=
  (canonical_commit_bytes commit_data).map fun bytes =>
    .dict (signature_blob (crypto.public_bytes key) (crypto.sign key bytes) signed_at)

/-- A commit as it is persisted and pushed. -/
structure Commit (H : Type) where
  payload : Payload H
  hash : H
  signature : Option JsonValue

variable {H : Type} [HexDigest H]

def Commit.unsigned (c : Commit H) : Doc := c.payload.commit_data.set "hash" (hash_json c.hash)

def Commit.commit_data (c : Commit H) : Doc := set_when c.unsigned "signature" c.signature

/-- The hash and the signature that `_finalize_commit` gives a payload; a failure to sign is logged. -/
def finalize_commit [Hashing H] (signer : Option (Ed25519 K × K)) (signed_at : String) (payload : Payload H) :
    Except Raised (Commit H) :=
  (canonical_commit_bytes payload.commit_data).map fun bytes =>
    let commit : Commit H := ⟨payload,sha256 bytes,none⟩
    {commit with signature := signer.bind fun s => (sign_payload s.1 s.2 signed_at commit.unsigned).toOption}

inductive Verdict
  | unsigned
  | unsupported_algo
  | signing_unavailable
  | malformed_public_key
  | malformed_signature
  | mismatch
  | verified
  deriving DecidableEq

def member_text? (members : List (String × JsonValue)) (key : String) : Option String :=
  match members.lookup key with
  | some (.string s) => some s
  | _ => none

def public_key_of (crypto : Ed25519 K) (members : List (String × JsonValue)) : Option Bytes :=
  ((member_text? members "public_key").bind fun s => fromhex s.toList).filter crypto.from_public_bytes

def sig_of (members : List (String × JsonValue)) : Option Bytes :=
  (member_text? members "sig").bind fun s => b64decode s.toList

def verify_signature (crypto : Option (Ed25519 K)) (commit_data : Doc) : Except Raised Verdict :=
  match commit_data.get? "signature" with
  | some (.dict members) =>
    if member_text? members "algo" ≠ some ALGO then .ok .unsupported_algo
    else match crypto with
      | none => .ok .signing_unavailable
      | some crypto => match public_key_of crypto members with
        | none => .ok .malformed_public_key
        | some pub => match sig_of members with
          | none => .ok .malformed_signature
          | some sig => (canonical_commit_bytes commit_data).map fun bytes =>
            if crypto.verify pub sig bytes then .verified else .mismatch
  | _ => .ok .unsigned

end Sign

end AetherVault
