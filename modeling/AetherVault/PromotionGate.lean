import AetherVault.Improvers
import AetherVault.CommitRows

/-! The gate that an improver version passes before it is promoted: every rule that is armed asks the
registry in a request of its own. -/
namespace AetherVault.Improvers
open Lib Hashing

structure DBCanaryResult where
  id : Nat
  project_id : String
  improver_id : String
  suite_object_id : String
  passed : Bool
  created_at : Datetime

inductive TargetType
  | change_set
  | improver
  deriving DecidableEq

inductive Decision
  | approve
  | reject
  deriving DecidableEq

structure DBReview where
  id : String
  target_type : TargetType
  target_id : String
  reviewer : Option String
  decision : Decision
  comment : Option String
  created_at : Datetime

inductive CritiqueStatus
  | «open»
  | resolved
  | waived
  deriving DecidableEq

structure DBCritique where
  id : String
  target_type : TargetType
  target_id : String
  author : Option String
  objection : String
  status : CritiqueStatus
  resolution : Option String
  created_at : Datetime

/-- What the registry has when a promotion asks. -/
structure GateRegistry where
  canary_results : List DBCanaryResult
  improvers : ImproverVersions
  objects : Dict String Bytes
  reviews : List DBReview
  critiques : List DBCritique
  /-- the projects whose freeze is on -/
  frozen : List String

/-- `ORDER BY created_at DESC LIMIT limit OFFSET offset`; rows of one time in the order of the table. -/
def newest {α : Type} (created_at : α → Datetime) (rows : List α) (limit offset : Nat) : List α :=
  ((rows.insertionSort fun row other => (created_at other).instant ≤ (created_at row).instant).drop offset).take limit

/-- A filter whose parameter is empty is left out. -/
def asked_for (parameter value : String) : Bool := parameter == "" || value == parameter

namespace GateRegistry

def list_canary_results (registry : GateRegistry) (project_id improver_id : String) (limit offset : Nat) : List DBCanaryResult :=
  newest DBCanaryResult.created_at
    (registry.canary_results.filter fun r => asked_for project_id r.project_id && asked_for improver_id r.improver_id) limit offset

def list_reviews (registry : GateRegistry) (target_type : TargetType) (target_id : String) (limit offset : Nat) : List DBReview :=
  newest DBReview.created_at
    (registry.reviews.filter fun r => r.target_type = target_type && asked_for target_id r.target_id) limit offset

def list_critiques (registry : GateRegistry) (target_type : TargetType) (target_id : String) (status : CritiqueStatus)
    (limit offset : Nat) : List DBCritique :=
  newest DBCritique.created_at (registry.critiques.filter fun r =>
    r.target_type = target_type && asked_for target_id r.target_id && r.status = status) limit offset

end GateRegistry

/-- What becomes of a request: the registry answers it, something answers with an error, or it raises. -/
inductive Reply
  | answered
  | failed (code : Nat) (not_ok : code ≠ 200)
  | raised

/-- The requests of one promotion. -/
structure Replies where
  health : Reply
  canary_results : Reply
  improver : Reply
  object : Reply
  reviews : Reply
  critiques : Reply
  freeze_health : Reply
  freeze : Reply

inductive Aborted
  | aborted

/-- The body, when the status is 200; `answer` is `none` for a 404. -/
def Reply.body {α : Type} (reply : Reply) (answer : Option α) : Except Aborted (Option α) :=
  match reply with
  | answered => .ok answer
  | failed _ _ => .ok none
  | raised => .error .aborted

def Reply.ok : Reply → Bool
  | answered => true
  | _ => false

/-- What `json.loads` makes of a file; a `RecursionError` is not caught. -/
inductive Loaded
  | value (v : JsonValue)
  | value_error
  | raised

structure ImproverPolicy where
  require_canaries : Option Bool
  require_signature : Option Bool
  require_review : Option Bool

/-- An entry with no key is no policy. -/
def ImproverPolicy.given (pol : ImproverPolicy) : Bool :=
  pol.require_canaries.isSome || pol.require_signature.isSome || pol.require_review.isSome

inductive PolicyFile
  | absent
  | unreadable
  | holds (policies : Dict String ImproverPolicy)

def load_improver_policies : PolicyFile → Dict String ImproverPolicy
  | .holds policies => policies
  | _ => ∅

structure PromoteRepo where
  improver_policy : PolicyFile
  /-- the text of the pointer, stripped -/
  current : Option String
  project_id : String
  objects : Dict String Bytes
  promoted : Dict String String

def current_improver_id (repo : PromoteRepo) : Option String := repo.current.filter (· ≠ "")

/-- What a promotion runs with: `json.loads` and the `cryptography` package, when it is there. -/
structure GateTools (K : Type) where
  loads : Bytes → Loaded
  crypto : Option (Ed25519 K)

inductive Denial
  | no_passing_canary
  | signature (reason : Verdict)
  | no_approving_review
  | open_critiques (count : Nat)

inductive DecidingRule
  | require_canaries
  | require_signature
  | require_review
  deriving DecidableEq

def Denial.rule : Denial → DecidingRule
  | no_passing_canary => .require_canaries
  | signature _ => .require_signature
  | no_approving_review => .require_review
  | open_critiques _ => .require_review

def EXIT_POLICY_DENIED : Nat := 16

def EXIT_REVIEW_REQUIRED : Nat := 19

def Denial.exit_code (denial : Denial) : Nat :=
  if denial.rule = .require_review then EXIT_REVIEW_REQUIRED else EXIT_POLICY_DENIED

section Gate

variable {K : Type} (H : Type) [Hashing H] [HexDigest H] (tools : GateTools K) (registry : GateRegistry) (replies : Replies)
variable (repo : PromoteRepo)

def latest_canary_passed (project_id improver_id : String) : Except Aborted Bool :=
  (replies.canary_results.body (some (registry.list_canary_results project_id improver_id 1 0))).map fun rows =>
    (rows.bind List.head?).any DBCanaryResult.passed

/-- A file that does not parse is as good as none, and so is one that holds `null`. -/
def read_object (objects : Dict String Bytes) (oid : String) : Except Aborted (Option JsonValue) :=
  match objects.get? oid with
  | none => .ok none
  | some bytes => match tools.loads bytes with
    | .value .null => .ok none
    | .value v => .ok (some v)
    | .value_error => .ok none
    | .raised => .error .aborted

/-- What is downloaded, when its digest is its name; a 401 raises. -/
def download_object (oid : String) : Except Aborted (Option Bytes) :=
  match replies.object with
  | .answered => .ok ((registry.objects.get? oid).filter fun bytes => HexDigest.hexdigest (sha256 bytes : H) = oid)
  | .failed code _ => if code = 401 then .error .aborted else .ok none
  | .raised => .ok none

def improver_manifest (candidate : String) : Except Aborted (Option JsonValue) := do
  match ← replies.improver.body (registry.improvers.get? candidate) with
  | none => .ok none
  | some row => match ← read_object tools repo.objects row.manifest_object_id with
    | some manifest => .ok (some manifest)
    | none => match ← download_object H registry replies row.manifest_object_id with
      | none => .ok none
      | some bytes => read_object tools (repo.objects.set row.manifest_object_id bytes) row.manifest_object_id

/-- `verify_object(manifest or {})`: what is neither a dictionary nor false has no `get`. -/
def verify_object : Option JsonValue → Except Aborted Verdict
  | some (.dict members) => match members.lookup "signature" with
    | some (.dict signature) =>
      if member_text? signature "algo" ≠ some ALGO then .ok .unsupported_algo
      else match tools.crypto with
        | none => .ok .signing_unavailable
        | some crypto => match public_key_of crypto signature with
          | none => .ok .malformed_public_key
          | some pub => match sig_of signature with
            | none => .ok .malformed_signature
            | some sig => .ok (if crypto.verify pub sig (canonical_bytes (Dict.ofList members)) then .verified else .mismatch)
    | _ => .ok .unsigned
  | some manifest => if truthy manifest then .error .aborted else .ok .unsigned
  | none => .ok .unsigned

def canary_denial (project_id candidate : String) : Except Aborted (Option Denial) :=
  (latest_canary_passed registry replies project_id candidate).map fun passed => if passed then none else some .no_passing_canary

def signature_denial (candidate : String) : Except Aborted (Option Denial) := do
  let manifest ← improver_manifest H tools registry replies repo candidate
  let verdict ← verify_object tools manifest
  .ok (if verdict = .verified then none else some (.signature verdict))

/-- A list that is not answered with a 200 is an empty list. -/
def review_denial (candidate : String) : Except Aborted (Option Denial) := do
  let reviews ← replies.reviews.body (some (registry.list_reviews .improver candidate 500 0))
  if !(reviews.getD []).any fun r => r.decision = .approve then .ok (some .no_approving_review)
  else
    let critiques ← replies.critiques.body (some (registry.list_critiques .improver candidate .open 500 0))
    match critiques.getD [] with
    | [] => .ok none
    | open_critiques => .ok (some (.open_critiques open_critiques.length))

/-- One rule, when it is armed, and the next ones if it denies nothing. -/
def rule_then (armed : Option Bool) (denial : Except Aborted (Option Denial)) (next : Except Aborted (Option Denial)) :
    Except Aborted (Option Denial) :=
  if armed.getD false then
    match denial with
    | .ok none => next
    | other => other
  else next

def evaluate_improver_policy (pol : ImproverPolicy) (candidate : String) : Except Aborted (Option Denial) :=
  rule_then pol.require_canaries (canary_denial registry replies repo.project_id candidate)
    (rule_then pol.require_signature (signature_denial H tools registry replies repo candidate)
      (rule_then pol.require_review (review_denial registry replies candidate) (.ok none)))

/-- Whatever goes wrong, the project counts as not frozen. -/
def project_frozen : Bool := replies.freeze_health.ok && replies.freeze.ok && decide (repo.project_id ∈ registry.frozen)

structure PromoteArguments where
  candidate : Option String
  into_branch : String
  force : Bool
  dry_run : Bool

inductive Promotion
  | failed
  | dry_run (denial : Option Denial)
  | denied (denial : Denial)
  | promoted (candidate : String)

def promote_candidate (args : PromoteArguments) : Option String := (args.candidate.filter (· ≠ "")).or (current_improver_id repo)

/-- The policy of the branch, when it has one that is not empty. -/
def armed_policy (into_branch : String) : Option ImproverPolicy :=
  ((load_improver_policies repo.improver_policy).get? into_branch).filter ImproverPolicy.given

/-- The decision, with the registry asked only when a policy is armed and not bypassed. -/
def promotion_decision (args : PromoteArguments) (candidate : String) : Except Aborted (Option Denial) :=
  match armed_policy repo args.into_branch with
  | none => .ok none
  | some pol =>
    if args.force then .ok none
    else if !replies.health.ok then .error .aborted
    else evaluate_improver_policy H tools registry replies repo pol candidate

/-- The command and the SDK's method, which differ in how they report. -/
def improver_promote (args : PromoteArguments) : Promotion × PromoteRepo :=
  match promote_candidate repo args with
  | none => (.failed,repo)
  | some candidate => match promotion_decision H tools registry replies repo args candidate with
    | .error _ => (.failed,repo)
    | .ok denial =>
      if args.dry_run then (.dry_run denial,repo)
      else if project_frozen registry replies repo then (.failed,repo)
      else match denial with
        | some denial => (.denied denial,repo)
        | none => (.promoted candidate,{repo with promoted := repo.promoted.set args.into_branch candidate})

end Gate

end AetherVault.Improvers
