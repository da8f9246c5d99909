import AetherVault.Signing
import AetherVault.Lib.HashChain
import Mathlib.Data.List.Infix

/-! The audit log: rows chained by their hashes as they are flushed, the prunes that take
rows away, and the two checks of the chain, of the live table and of an export. -/
namespace AetherVault
open Lib Hashing

variable (H : Type) [Hashing H] [HexDigest H]

/-- The fields of a row that its hash covers. -/
structure AuditFields where
  ts : String
  username : JsonValue
  action : JsonValue
  project_id : JsonValue
  status_code : JsonValue
  details : JsonValue

def chain_payload (prev_hash : Option String) (row : AuditFields) : Doc := Dict.ofList
  [("prev",prev_hash.elim .null .string),("ts",.string row.ts),("username",row.username),("action",row.action),
    ("project_id",row.project_id),("status_code",row.status_code),("details",row.details)]

def compute_chain_hash (prev_hash : Option String) (row : AuditFields) : String :=
  HexDigest.hexdigest (sha256 (encode (JsonValue.dumps spaced true (.dict (chain_payload prev_hash row).entries))) : H)

/-- The same values, whatever the order of the members of a dictionary. -/
structure AuditFields.Agrees (row other : AuditFields) : Prop where
  ts : row.ts = other.ts
  username : row.username.arrange = other.username.arrange
  action : row.action.arrange = other.action.arrange
  project_id : row.project_id.arrange = other.project_id.arrange
  status_code : row.status_code.arrange = other.status_code.arrange
  details : row.details.arrange = other.details.arrange

variable {H} in
/-- The hash of a row fixes the hash before it and every field. -/
theorem compute_chain_hash_binds (injective : Function.Injective (sha256 : Bytes → H)) (prev : Option String)
    (row : AuditFields) (prev' : Option String) (row' : AuditFields)
    (same : compute_chain_hash H prev row = compute_chain_hash H prev' row') : prev = prev' ∧ row.Agrees row' := by
  have texts := encode_injective (injective (HexDigest.injective same))
  have members := (JsonValue.arrange_dict_iff _ _).mp ((JsonValue.dumps_sorted_iff spaced _ _).mp texts)
  have prev_same : (prev.elim JsonValue.null .string).arrange = (prev'.elim JsonValue.null .string).arrange :=
    Option.some.inj (members "prev")
  have ts_same : (JsonValue.string row.ts).arrange = (JsonValue.string row'.ts).arrange := Option.some.inj (members "ts")
  constructor
  · cases prev <;> cases prev' <;> simp_all [JsonValue.arrange]
  · exact ⟨JsonValue.string.inj ts_same,Option.some.inj (members "username"),Option.some.inj (members "action"),
      Option.some.inj (members "project_id"),Option.some.inj (members "status_code"),Option.some.inj (members "details")⟩

/-! The check of a chain. -/

/-- `audit_signing`: signing when a key is there, and the check under a public key. -/
structure AuditSigning where
  sign : String → Option String
  public_key_hex : Option String
  verify : String → String → String → Bool

structure SignatureChecks where
  verified : Nat
  failed : Nat
  absent : Nat

structure ExportRow where
  id : Nat
  fields : AuditFields
  chain_hash : String
  signature : Option String

/-- `id` is the row the chain is broken at, or the last one. -/
structure AuditReport where
  ok : Bool
  id : Option Nat
  checked : Nat
  signature_checks : SignatureChecks

def check_signature (verify : String → String → String → Bool) (public_key : Option String) (row : ExportRow)
    (checks : SignatureChecks) : SignatureChecks :=
  match row.signature.filter (· ≠ "") with
  | none => {checks with absent := checks.absent + 1}
  | some signature =>
    if (public_key.filter (· ≠ "")).any (verify row.chain_hash signature) then {checks with verified := checks.verified + 1}
    else {checks with failed := checks.failed + 1}

/-- The walk of both checks: it stops at the first row whose hash is not the one recomputed. -/
def walk_chain (verify : String → String → String → Bool) (public_key : Option String) :
    Option String → AuditReport → List ExportRow → AuditReport
  | _,so_far,[] => so_far
  | prev_hash,so_far,row::rest =>
    if compute_chain_hash H prev_hash row.fields ≠ row.chain_hash then {so_far with ok := false,id := some row.id}
    else walk_chain verify public_key (some row.chain_hash)
      ⟨true,some row.id,so_far.checked + 1,check_signature verify public_key row so_far.signature_checks⟩ rest

def verify_export (verify : String → String → String → Bool) (public_key : Option String) (rows : List ExportRow) : AuditReport :=
  walk_chain H verify public_key none ⟨true,none,0,⟨0,0,0⟩⟩ rows

/-- Each row's hash is that of its fields and the hash before it. -/
def Chained (prev_hash : Option String) (rows : List ExportRow) : Prop :=
  HashChain.Linked (fun prev (row : ExportRow) => compute_chain_hash H prev row.fields) ExportRow.chain_hash prev_hash rows

variable {H} in
theorem walk_chain_ok (verify : String → String → String → Bool) (public_key : Option String) (prev_hash : Option String)
    (so_far : AuditReport) (fine : so_far.ok = true) (rows : List ExportRow) :
    (walk_chain H verify public_key prev_hash so_far rows).ok = true ↔ Chained H prev_hash rows := by
  induction rows generalizing prev_hash so_far with
  | nil => simp [walk_chain,Chained,HashChain.Linked,fine]
  | cons row rest ih =>
    unfold walk_chain
    split
    · rename_i broken
      constructor
      · intro ok
        contradiction
      · intro chained
        exact absurd chained.1 broken
    · rename_i whole
      rw [ih _ _ rfl]
      constructor
      · intro chained
        exact ⟨not_not.mp whole,chained⟩
      · intro chained
        exact chained.2

def exported_login (signature : Option String) : ExportRow :=
  let fields : AuditFields := ⟨"2026-01-01T00:00:00",.string "ada",.string "auth.login",.null,natural 200,.null⟩
  ⟨1,fields,compute_chain_hash Name none fields,signature⟩

end AetherVault
