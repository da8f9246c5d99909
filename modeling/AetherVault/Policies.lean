import AetherVault.Merge
import AetherVault.Signing

/-! Branch policies: what an armed policy asks of a commit, the gate of `av merge`, and `av promote`. -/
namespace AetherVault
open Lib Hashing
open Lib.Prog (call)

inductive RefBase (H : Type)
  | head
  | branch (name : String)
  | commit (h : H)

/-- `REF` or `REF~N`. -/
structure Reference (H : Type) where
  base : RefBase H
  hops : Nat

/-- An entry of `policies.json`, as `av policy set` writes it. -/
structure PolicyEntry (H : Type) where
  metric : Option String
  op : String
  baseline_ref : Option (Reference H)
  threshold : Option Numeral
  require_signature : Bool

/-- Python's order of the numbers that are read from JSON, and `float`. -/
structure Numbers where
  lt : Numeral → Numeral → Bool
  le : Numeral → Numeral → Bool
  float : Numeral → Numeral

def OPS (numbers : Numbers) (op : String) : Option (Numeral → Numeral → Bool) :=
  if op = "<" then some numbers.lt
  else if op = "<=" then some numbers.le
  else if op = ">" then some fun a b => numbers.lt b a
  else if op = ">=" then some fun a b => numbers.le b a
  else none

abbrev Metrics := List (String × JsonValue)

/-- `c.get("metrics") or {}`, when that is a dictionary. -/
def metrics_of (commit : Doc) : Metrics :=
  match commit.get? "metrics" with
  | some (.dict members) => members
  | _ => []

inductive Reason (H : Type)
  | policy_has_no_metric
  | unknown_operator (op : String)
  | candidate_has_no_metric (metric : String)
  | candidate_is_no_number (metric : String) (value : JsonValue)
  | baseline_has_no_metric (base_ref : Reference H) (metric : String)
  | baseline_is_no_number (base_ref : Reference H) (metric : String) (value : JsonValue)
  | needs_baseline_or_threshold
  | compared (metric : String) (candidate : Numeral) (op : String) (other : Numeral)

/-- `not metric` is also true of the empty text. -/
def PolicyEntry.rule {H : Type} (policy : PolicyEntry H) : Option String := policy.metric.filter fun metric => metric ≠ ""

def evaluate {H : Type} (numbers : Numbers) (policy : PolicyEntry H) (candidate_metrics baseline_metrics : Option Metrics) :
    Bool × Reason H :=
  match policy.rule with
  | none => (false,.policy_has_no_metric)
  | some metric => match OPS numbers policy.op with
    | none => (false,.unknown_operator policy.op)
    | some holds => match (candidate_metrics.getD []).lookup metric with
      | none => (false,.candidate_has_no_metric metric)
      | some .null => (false,.candidate_has_no_metric metric)
      | some (.number cand) => match policy.baseline_ref with
        | some base_ref => match (baseline_metrics.getD []).lookup metric with
          | none => (false,.baseline_has_no_metric base_ref metric)
          | some .null => (false,.baseline_has_no_metric base_ref metric)
          | some (.number base) => (holds cand base,.compared metric cand policy.op base)
          | some value => (false,.baseline_is_no_number base_ref metric value)
        | none => match policy.threshold with
          | none => (false,.needs_baseline_or_threshold)
          | some threshold => (holds cand (numbers.float threshold),.compared metric cand policy.op threshold)
      | some value => (false,.candidate_is_no_number metric value)

/-- What the policies are read from: `policies.json`, the documents in the commit files, and what checks a signature. -/
structure PolicySetup (H K : Type) where
  policies : Dict String (PolicyEntry H)
  files : H → Doc
  numbers : Numbers
  crypto : Option (Ed25519 K)

/-- What is looked up among the commit files: a hash, or a text that none of them is called by. -/
inductive CommitRef (H : Type)
  | hash (h : H)
  | text (s : String)

inductive SignedReason
  | not_found
  | unsigned
  | checked (verdict : Verdict)

inductive Denial (H : Type)
  | unsigned (reason : SignedReason)
  | metric (reason : Reason H)

section Gate

variable {H K : Type} [DecidableEq H] [Hashing H] (setup : PolicySetup H K)

/-- The commit that HEAD is at, `resolve_head(repo_root)[1]`. -/
def head_tip : Command H (Option H) := do
  match ← call .read_head with
  | .detached h => .pure (some h)
  | .branch name => do
    let tip ← call (.read_ref name)
    .pure tip.join

def load_commit (ref : CommitRef H) : Command H (Option Doc) :=
  match ref with
  | .text _ => .pure none
  | .hash h => do
    let found ← call (.read_commit h)
    .pure (found.map fun _ => setup.files h)

def _commit_parent (commits : Dict H (CommitData H)) (h : H) : Option H := (commits.get? h).bind fun data => data.parents.head?

/-- So many first parents back; a commit that comes twice ends it. -/
def hops_back (commits : Dict H (CommitData H)) : Nat → List H → Option H → Option H
  | 0,_,cur => cur
  | _+1,_,none => none
  | hops+1,seen,some h => if h ∈ seen then none else hops_back commits hops (h::seen) (_commit_parent commits h)

/-- A name that is no branch is taken for a hash, and no commit has it. -/
def base_tip (base : RefBase H) : Command H (Option H) :=
  match base with
  | .head => head_tip
  | .commit h => .pure (some h)
  | .branch name => do
    let tip ← call (.read_ref name)
    .pure tip.join

def _resolve_ref_ancestor (ref : Reference H) : Command H (Option H) := do
  let cur ← base_tip ref.base
  let commits ← call .load_commits
  .pure (hops_back commits ref.hops [] cur)

/-- The first metrics down the first parents. -/
def latest_metrics (commits : Dict H (CommitData H)) : Nat → List H → Option H → Option Metrics
  | 0,_,_ => none
  | _+1,_,none => none
  | fuel+1,seen,some h =>
    if h ∈ seen ∨ !commits.contains h then none
    else if (metrics_of (setup.files h)).isEmpty then latest_metrics commits fuel (h::seen) (_commit_parent commits h)
    else some (metrics_of (setup.files h))

/-- A walk meets no commit twice. -/
def _latest_metrics_for_ref (ref : Reference H) : Command H (Option Metrics) := do
  let cur ← _resolve_ref_ancestor ref
  let commits ← call .load_commits
  .pure (latest_metrics setup commits (commits.entries.length + 1) [] cur)

/-- The embedded signature verifies; a check that raises ends the command. -/
def signature_state (commit : Option Doc) : Command H (Bool × SignedReason) :=
  match commit with
  | none => .pure (false,.not_found)
  | some doc => match doc.get? "signature" with
    | some (.dict _) => match verify_signature setup.crypto doc with
      | .ok verdict => .pure (decide (verdict = .verified),.checked verdict)
      | .error _ => .fail .type_error
    | _ => .pure (false,.unsigned)

def candidate_is_signed (candidate_ref : Option (CommitRef H)) : Command H (Bool × SignedReason) :=
  match candidate_ref with
  | none => signature_state setup none
  | some ref => do
    let commit ← load_commit setup ref
    signature_state setup commit

def baseline_metrics (policy : PolicyEntry H) : Command H (Option Metrics) :=
  match policy.baseline_ref with
  | some base_ref => _latest_metrics_for_ref setup base_ref
  | none => .pure none

def metric_ruling (policy : PolicyEntry H) (candidate_metrics : Option Metrics) : Command H (Option (Denial H)) :=
  if policy.rule = none then .pure none
  else do
    let baseline ← baseline_metrics setup policy
    let (ok,reason) := evaluate setup.numbers policy candidate_metrics baseline
    .pure (if ok then none else some (.metric reason))

/-- What a policy says of a candidate: the signature is looked at first. -/
def policy_ruling (policy : PolicyEntry H) (candidate_metrics : Option Metrics) (candidate_ref : Option (CommitRef H)) :
    Command H (Option (Denial H)) :=
  if policy.require_signature then do
    let (signed,sig_reason) ← candidate_is_signed setup candidate_ref
    if signed then metric_ruling setup policy candidate_metrics else .pure (some (.unsigned sig_reason))
  else metric_ruling setup policy candidate_metrics

def enforce_policy (target_branch : String) (candidate_metrics : Option Metrics) (candidate_ref : Option (CommitRef H)) :
    Command H (Option (Denial H)) :=
  match setup.policies.get? target_branch with
  | none => .pure none
  | some policy => policy_ruling setup policy candidate_metrics candidate_ref

/-- The gate of `merge`: it looks at HEAD. -/
def merge_gate (force : Bool) (branch : String) : Command H (Option (Denial H)) :=
  if force then .pure none
  else do
    let candidate_metrics ← _latest_metrics_for_ref setup ⟨.head,0⟩
    enforce_policy setup branch candidate_metrics (some (.text "HEAD"))

variable [Canonical H] (env : Env)

def merge_onto (target : Target H) (options : MergeOptions) (idx : Index H) (name : String) (ours : H) : Command H Unit := do
  match ← merge_target target with
  | none => .fail (.validation "Branch or commit not found.")
  | some theirs =>
    if theirs = ours then .pure ()
    else do
      let _ ← find_commit theirs
      merge_commits env options name idx ours theirs

def gated_merge (force : Bool) (target : Target H) (options : MergeOptions) : Command H (Option (Denial H)) := do
  let idx ← call .load_index
  match ← call .read_head with
  | .detached _ => .fail (.validation "HEAD is detached")
  | .branch name =>
    match ← call (.read_ref name) with
    | some (some ours) =>
      match ← merge_gate setup force name with
      | some denial => .pure (some denial)
      | none => do
        merge_onto env target options idx name ours
        .pure none
    | _ => .fail (.validation "Branch has no commits yet")

theorem gated_merge_forced (target : Target H) (options : MergeOptions) :
    gated_merge setup env true target options = (do
      merge env target options
      .pure none) := by
  unfold gated_merge merge
  simp only [Prog.bind_eq,Prog.bind_assoc]
  congr 1
  funext idx
  congr 1
  funext head
  cases head with
  | detached h => rfl
  | branch name =>
    dsimp only
    rw [Prog.bind_assoc]
    congr 1
    funext tip
    cases tip with
    | none => rfl
    | some tip =>
      cases tip with
      | none => rfl
      | some ours => rfl

/-! `promote` -/

variable [HexDigest H]

def hex_digit (c : Char) : Bool := c ∈ "0123456789abcdef".toList

/-- By the full hash or a prefix that only one commit has. -/
def find_commit_file (commits : Dict H (CommitData H)) (commit_hash : String) : Option H :=
  match commits.keys.find? fun h => HexDigest.hexdigest h == commit_hash with
  | some h => some h
  | none =>
    if 4 ≤ commit_hash.length ∧ commit_hash.length < 64 ∧ commit_hash.toLower.toList.all hex_digit = true then
      match commits.keys.filter fun h => commit_hash.toLower.toList.isPrefixOf (HexDigest.hexdigest h).toList with
      | [h] => some h
      | _ => none
    else none

/-- `candidate or resolve_head(repo_root)[1]` -/
def candidate_text (candidate : Option String) (tip : Option H) : Option String :=
  match candidate.filter fun text => text ≠ "" with
  | some text => some text
  | none => tip.map HexDigest.hexdigest

structure Candidate (H : Type) where
  text : String
  hash : H
  deriving DecidableEq

def find_candidate (candidate : Option String) : Command H (Candidate H) := do
  let tip ← head_tip
  let commits ← call .load_commits
  match (candidate_text candidate tip).bind fun text => (find_commit_file commits text).map (Candidate.mk text) with
  | some found => .pure found
  | none => .fail (.validation "Unknown candidate")

/-- The decision on a candidate, by its own metrics. -/
def promotion_ruling (into_branch : String) (force : Bool) (found : Candidate H) : Command H (Option (Denial H)) :=
  match setup.policies.get? into_branch with
  | none => .pure none
  | some policy =>
    if force then .pure none
    else policy_ruling setup policy (some (metrics_of (setup.files found.hash))) (some (.hash found.hash))

/-- The name that `resolve_head` gives. -/
def Head.called : Head H → String
  | .branch name => name
  | .detached _ => "detached"

/-- The candidate's text is looked up again, among the branches first. -/
def landing_target (found : Candidate H) : Command H (Target H) := do
  match ← call (.read_ref found.text) with
  | some _ => .pure (.branch found.text)
  | none => .pure (.commit found.hash)

/-- Switches to the branch and merges; the gate of the merge is off when there is a policy. -/
def land_candidate (into_branch : String) (message : String) (found : Candidate H) : Command H (Option (Denial H)) := do
  let head ← call .read_head
  (if head.called ≠ into_branch then checkout (.branch into_branch) false else .pure ())
  let target ← landing_target found
  gated_merge setup env (setup.policies.get? into_branch).isSome target ⟨none,true,message⟩

/-- `frozen`: what the registry answers. -/
def promote (candidate : Option String) (into_branch : String) (force dry_run frozen : Bool) (message : String) :
    Command H (Option (Denial H)) := do
  let found ← find_candidate candidate
  let denied ← promotion_ruling setup into_branch force found
  if dry_run then .pure denied
  else if frozen then .fail (.validation "Project is frozen")
  else match denied with
    | some denial => .pure (some denial)
    | none => land_candidate setup env into_branch message found

end Gate

end AetherVault
