import AetherVault.LocalRefs
import AetherVault.Policies
import AetherVault.PullHistory

/-! Which merges and promotions an armed policy lets through. -/
namespace AetherVault
open Lib Hashing
open Lib.Prog (Only call)

/-- What looks at the repository, has one answer, and changes nothing. -/
def Op.Reading {H : Type} (β : Type) (o : Op H β) : Prop :=
  match β,o with
  | _,.load_index => True
  | _,.read_head => True
  | _,.read_ref _ => True
  | _,.read_commit _ => True
  | _,.load_commits => True
  | _,_ => False

variable {H K : Type} [DecidableEq H] [Hashing H] (setup : PolicySetup H K)

theorem exec_reading (env : Env) (me : Nat) (β : Type) (c d : Choice) (o : Op H β) (w : World H) (reading : Op.Reading β o) :
    World.exec env me β c o w = ((World.exec env me β d o w).1,w) := by
  cases o with
  | load_index => rfl
  | read_head => rfl
  | read_ref name => rfl
  | read_commit h => rfl
  | load_commits => rfl
  | _ => exact reading.elim

/-! What the gates compute from a repository. -/

def World.tip (w : World H) : RefBase H → Option H
  | .commit h => some h
  | .branch name => (w.repo.refs.get? name).join
  | .head => match w.repo.head with
    | .detached h => some h
    | .branch name => (w.repo.refs.get? name).join

def World.resolved (w : World H) (ref : Reference H) : Option H := hops_back w.repo.commits ref.hops [] (w.tip ref.base)

def World.latest (w : World H) (ref : Reference H) : Option Metrics :=
  latest_metrics setup w.repo.commits (w.repo.commits.entries.length + 1) [] (w.resolved ref)

def World.named (w : World H) : Target H → Option H
  | .branch name => (w.repo.refs.get? name).join
  | .commit h => some h

def World.candidate [HexDigest H] (w : World H) (candidate : Option String) : Option (Candidate H) :=
  (candidate_text candidate (w.tip .head)).bind fun text => (find_commit_file w.repo.commits text).map (Candidate.mk text)

/-- What a promotion of the candidate merges: a branch of that name, if there is one. -/
def World.landing (w : World H) (found : Candidate H) : Target H :=
  if w.repo.refs.contains found.text then .branch found.text else .commit found.hash

/-- The metric rule holds of these metrics. -/
def Passes (w : World H) (policy : PolicyEntry H) (metrics : Option Metrics) : Prop :=
  policy.rule = none ∨ (evaluate setup.numbers policy metrics (policy.baseline_ref.bind (w.latest setup))).1 = true

/-- The commit keeps the metric rule by its own metrics, and is validly signed when that is asked for. -/
structure Satisfied (w : World H) (policy : PolicyEntry H) (h : H) : Prop where
  signed : policy.require_signature = true → verify_signature setup.crypto (setup.files h) = .ok .verified
  passes : Passes setup w policy (some (metrics_of (setup.files h)))

/-! The gates as programs. -/

section Reads

omit [DecidableEq H] [Hashing H] in
theorem tip_reading (base : RefBase H) : (base_tip base).Only Op.Reading := by
  have branch (name : String) : (call (.read_ref name) >>= fun tip => .pure tip.join : Command H (Option H)).Only Op.Reading :=
    (Only.call trivial).bind fun _ => trivial
  cases base with
  | commit h => trivial
  | branch name => exact branch name
  | head =>
    apply Only.bind (.call trivial)
    intro head
    cases head with
    | detached h => trivial
    | branch name => exact branch name

omit [Hashing H] in
theorem latest_reading (ref : Reference H) : (_latest_metrics_for_ref setup ref).Only Op.Reading := by
  apply Only.bind
  · apply Only.bind (tip_reading ref.base)
    exact fun _ => (Only.call trivial).bind fun _ => trivial
  · exact fun _ => (Only.call trivial).bind fun _ => trivial

omit [DecidableEq H] [Hashing H] in
theorem signed_reading (ref : CommitRef H) : (candidate_is_signed setup (some ref)).Only Op.Reading := by
  apply Only.bind
  · cases ref with
    | text s => trivial
    | hash h => exact (Only.call trivial).bind fun _ => trivial
  · intro commit
    unfold signature_state
    split
    · trivial
    · split
      · split <;> trivial
      · trivial

omit [Hashing H] in
theorem ruling_reading (policy : PolicyEntry H) (metrics : Option Metrics) (ref : CommitRef H) :
    (policy_ruling setup policy metrics (some ref)).Only Op.Reading := by
  have metric : (metric_ruling setup policy metrics).Only Op.Reading := by
    unfold metric_ruling
    split
    · trivial
    · apply Only.bind
      · unfold baseline_metrics
        split
        · exact latest_reading setup _
        · trivial
      · exact fun _ => trivial
  unfold policy_ruling
  split
  · apply Only.bind (signed_reading setup ref)
    intro signed
    dsimp only
    split
    · exact metric
    · trivial
  · exact metric

omit [Hashing H] in
theorem merge_gate_reading (branch : String) : (merge_gate setup false branch).Only Op.Reading := by
  apply Only.bind (latest_reading setup ⟨.head,0⟩)
  intro metrics
  unfold enforce_policy
  cases setup.policies.get? branch with
  | none => trivial
  | some policy => exact ruling_reading setup policy metrics _

end Reads

/-! What the gates come to. -/

section Verdicts

variable (env : Env) (me : Nat) (policy : World H → Choice) (w : World H)

theorem run_tip (base : RefBase H) : (base_tip base).run (World.exec env me) policy w = (.ok (w.tip base),w) := by
  cases base with
  | commit h => rfl
  | branch name => rfl
  | head =>
    unfold base_tip head_tip World.tip
    rw [Prog.bind_eq,Prog.run_bind]
    simp only [call,Prog.run,World.exec]
    cases w.repo.head <;> rfl

theorem run_latest (ref : Reference H) :
    (_latest_metrics_for_ref setup ref).run (World.exec env me) policy w = (.ok (w.latest setup ref),w) := by
  have resolved : (_resolve_ref_ancestor ref).run (World.exec env me) policy w = (.ok (w.resolved ref),w) :=
    Prog.run_bind_ok (run_tip env me policy w ref.base) _
  exact Prog.run_bind_ok resolved _

theorem run_metric_ruling (entry : PolicyEntry H) (metrics : Option Metrics) :
    ((metric_ruling setup entry metrics).run (World.exec env me) policy w).1 = .ok none ↔ Passes setup w entry metrics := by
  unfold metric_ruling Passes
  by_cases bare : entry.rule = none
  · rw [if_pos bare]
    simp [Prog.run,bare]
  · rw [if_neg bare]
    have baseline : (baseline_metrics setup entry).run (World.exec env me) policy w =
        (.ok (entry.baseline_ref.bind (w.latest setup)),w) := by
      unfold baseline_metrics
      cases entry.baseline_ref with
      | none => rfl
      | some ref => exact run_latest setup env me policy w ref
    rw [Prog.bind_eq,Prog.run_bind_ok baseline]
    simp only [Prog.run,bare,false_or]
    split <;> simp_all

/-- The gate of a merge lets HEAD's metrics decide, and nothing through where a signature is asked for. -/
theorem run_merge_gate {branch : String} {entry : PolicyEntry H} (armed : setup.policies.get? branch = some entry) :
    ((merge_gate setup false branch).run (World.exec env me) policy w).1 = .ok none ↔
      entry.require_signature = false ∧ Passes setup w entry (w.latest setup ⟨.head,0⟩) := by
  unfold merge_gate enforce_policy
  rw [if_neg (by decide),armed,Prog.bind_eq,Prog.run_bind_ok (run_latest setup env me policy w _)]
  dsimp only
  unfold policy_ruling
  cases asked : entry.require_signature with
  | true => simp [candidate_is_signed,load_commit,signature_state,Prog.bind_eq,Prog.bind,Prog.run]
  | false => simp [run_metric_ruling]

theorem run_signature_state (doc : Doc) (rest : Command H (Option (Denial H))) :
    (((signature_state setup (some doc)).bind fun state =>
      if state.1 = true then rest else .pure (some (.unsigned state.2))).run (World.exec env me) policy w).1 = .ok none ↔
      verify_signature setup.crypto doc = .ok .verified ∧ (rest.run (World.exec env me) policy w).1 = .ok none := by
  unfold signature_state
  dsimp only
  split
  · cases verify_signature setup.crypto doc with
    | error raised => simp [Prog.bind,Prog.run]
    | ok verdict =>
      by_cases good : verdict = .verified
      · simp [Prog.bind,good]
      · simp [Prog.bind,Prog.run,good]
  · have unsigned : verify_signature setup.crypto doc = .ok .unsigned := by
      unfold verify_signature
      split
      · simp_all
      · rfl
    simp [Prog.bind,Prog.run,unsigned]

theorem run_signed {h : H} (held : w.repo.commits.contains h = true) :
    ((candidate_is_signed setup (some (.hash h))).run (World.exec env me) policy w) =
      ((signature_state setup (some (setup.files h))).run (World.exec env me) policy w) := by
  obtain ⟨data,found⟩ := (Dict.contains_iff _ _).mp held
  have loaded : (load_commit setup (.hash h)).run (World.exec env me) policy w = (.ok (some (setup.files h)),w) := by
    simp [load_commit,call,Prog.bind_eq,Prog.bind,Prog.run,World.exec,found]
  exact Prog.run_bind_ok loaded _

theorem run_ruling {entry : PolicyEntry H} {h : H} (held : w.repo.commits.contains h = true) :
    ((policy_ruling setup entry (some (metrics_of (setup.files h))) (some (.hash h))).run (World.exec env me) policy w).1 = .ok none ↔
      Satisfied setup w entry h := by
  have parts : Satisfied setup w entry h ↔ (entry.require_signature = true → verify_signature setup.crypto (setup.files h) = .ok .verified) ∧
      Passes setup w entry (some (metrics_of (setup.files h))) := ⟨fun both => ⟨both.signed,both.passes⟩,fun both => ⟨both.1,both.2⟩⟩
  rw [parts]
  unfold policy_ruling
  cases asked : entry.require_signature with
  | false => simp [run_metric_ruling]
  | true =>
    rw [if_pos rfl,Prog.bind_eq,Prog.run_bind,run_signed setup env me policy w held]
    have verdict := run_signature_state setup env me policy w (setup.files h) (metric_ruling setup entry (some (metrics_of (setup.files h))))
    rw [Prog.run_bind,run_metric_ruling] at verdict
    simpa using verdict

end Verdicts

/-! Which runs move a branch. -/

/-- Some run of the command takes the branch elsewhere. -/
def CanMove {α : Type} (env : Env) (me : Nat) (p : Command H α) (branch : String) (w : World H) : Prop :=
  ∃ r t, (alone env me at_will).Runs p w r t ∧ t.repo.refs.get? branch ≠ w.repo.refs.get? branch

section Moving

variable {α β : Type} {env : Env} {me : Nat} {branch : String} {w : World H}

theorem can_move_reads {p : Command H α} {f : α → Command H β} (only : p.Only Op.Reading) : CanMove env me (p.bind f) branch w ↔
    CanMove env me ((Prog.leaf (p.run (World.exec env me) (fun _ => answered) w).1).bind f) branch w := by
  have same (r : Except (Failure H) β) (t : World H) := (alone env me at_will).runs_reads (f := f) (r := r) (t := t)
    (fun _ : World H => answered) only (fun β c o reading => exec_reading env me β c answered o w reading) (fun _ _ => trivial)
  unfold CanMove
  simp only [same]
  rfl

theorem can_move_call {o : Op H α} {f : α → Command H β} (reading : Op.Reading α o) :
    CanMove env me (call o >>= f) branch w ↔ CanMove env me (f (World.exec env me α answered o w).1) branch w :=
  can_move_reads (Only.call reading)

theorem can_move_leaf (r : Except (Failure H) α) : ¬CanMove env me (Prog.leaf r) branch w := by
  rintro ⟨r,t,ran,moved⟩
  obtain ⟨-,rfl⟩ := Discipline.runs_leaf.mp ran
  exact moved rfl

theorem can_move_then {p : Command H α} {b : β} : CanMove env me (p >>= fun _ => .pure b) branch w ↔ CanMove env me p branch w := by
  constructor
  · rintro ⟨r,t,ran,moved⟩
    obtain ⟨first,u,ran,later⟩ := Discipline.runs_bind.mp ran
    have same : t = u := by
      cases first with
      | ok a => exact (Discipline.runs_pure.mp later).2
      | error e => exact (Discipline.runs_fail.mp later).2
    exact ⟨first,u,ran,same ▸ moved⟩
  · rintro ⟨first,t,ran,moved⟩
    cases first with
    | ok a => exact ⟨.ok b,t,Discipline.runs_bind.mpr ⟨_,t,ran,.refl⟩,moved⟩
    | error e => exact ⟨.error e,t,Discipline.runs_bind.mpr ⟨_,t,ran,.refl⟩,moved⟩

theorem can_move_past {p : Command H (Option α)} {f : Command H (Option α)} {choose : Option α → Command H (Option α)}
    (only : p.Only Op.Reading) (denied : ∀ denial, ¬CanMove env me (choose (some denial)) branch w) (passed : choose none = f) :
    CanMove env me (p >>= choose) branch w ↔
      (p.run (World.exec env me) (fun _ => answered) w).1 = .ok none ∧ CanMove env me f branch w := by
  rw [Prog.bind_eq,can_move_reads only]
  cases result : (p.run (World.exec env me) (fun _ => answered) w).1 with
  | error e =>
    constructor
    · exact fun moves => (can_move_leaf (α := Option α) (.error e) moves).elim
    · rintro ⟨impossible,-⟩
      contradiction
  | ok ruling =>
    cases ruling with
    | some denial =>
      constructor
      · exact fun moves => (denied denial moves).elim
      · rintro ⟨impossible,-⟩
        cases impossible
    | none =>
      have same : (Prog.leaf (.ok none : Except (Failure H) (Option α))).bind choose = f := passed
      rw [same]
      simp

end Moving

section Commands

variable [Canonical H] {env : Env} {me : Nat} {branch : String} {w : World H} {entry : PolicyEntry H}

/-- A merge that is not forced moves the branch when the gate lets HEAD's commit through and the merge would move it. -/
theorem gated_merge_moves (at_branch : w.repo.head = .branch branch) (armed : setup.policies.get? branch = some entry)
    (target : Target H) (options : MergeOptions) : CanMove env me (gated_merge setup env false target options) branch w ↔
      (entry.require_signature = false ∧ Passes setup w entry (w.latest setup ⟨.head,0⟩)) ∧
        CanMove env me (merge env target options) branch w := by
  have forced : CanMove env me (merge env target options) branch w ↔ CanMove env me (gated_merge setup env true target options) branch w := by
    rw [gated_merge_forced,can_move_then]
  rw [forced,← run_merge_gate setup env me (fun _ => answered) w armed]
  unfold gated_merge
  have index : Op.Reading _ (.load_index : Op H _) := trivial
  have head : Op.Reading _ (.read_head : Op H _) := trivial
  have tip : Op.Reading _ (.read_ref branch : Op H _) := trivial
  simp only [can_move_call index,can_move_call head]
  dsimp only [World.exec]
  rw [at_branch]
  dsimp only
  simp only [can_move_call tip]
  dsimp only [World.exec]
  have refused (failure : Failure H) : ¬CanMove env me (.fail failure : Command H (Option (Denial H))) branch w :=
    can_move_leaf (.error failure)
  cases w.repo.refs.get? branch with
  | none => simp only [refused,and_false]
  | some tip =>
    cases tip with
    | none => simp only [refused,and_false]
    | some ours => exact can_move_past (merge_gate_reading setup branch) (fun denial => can_move_leaf (.ok (some denial))) rfl

variable [HexDigest H]

omit [Hashing H] [Canonical H] in
theorem find_commit_file_mem {commits : Dict H (CommitData H)} {text : String} {h : H}
    (found : find_commit_file commits text = some h) : commits.contains h = true := by
  have key : h ∈ commits.keys := by
    unfold find_commit_file at found
    split at found
    · rename_i first exact
      obtain rfl := Option.some.inj found
      exact List.mem_of_find?_eq_some exact
    · split at found
      · split at found
        · rename_i only single
          have member : only ∈ [only] := List.mem_singleton_self only
          rw [← single] at member
          rw [← Option.some.inj found]
          exact (List.mem_filter.mp member).1
        · contradiction
      · contradiction
  exact (Dict.contains_iff _ _).mpr ((commits.mem_keys h).mp key)

theorem promote_moves {candidate : Option String} {found : Candidate H} (named : w.candidate candidate = some found)
    (armed : setup.policies.get? branch = some entry) (dry_run frozen : Bool) (message : String) :
    CanMove env me (promote setup env candidate branch false dry_run frozen message) branch w ↔
      Satisfied setup w entry found.hash ∧
        CanMove env me (promote setup env candidate branch true dry_run frozen message) branch w := by
  have reading : (find_candidate (H := H) candidate).Only Op.Reading := by
    apply Only.bind (tip_reading .head)
    intro tip
    apply Only.bind (.call trivial)
    intro commits
    split <;> trivial
  have looked : (find_candidate candidate).run (World.exec env me) (fun _ => answered) w = (.ok found,w) := by
    have tip : (head_tip (H := H)).run (World.exec env me) (fun _ => answered) w = (.ok (w.tip .head),w) :=
      run_tip env me (fun _ => answered) w .head
    unfold find_candidate
    rw [Prog.bind_eq,Prog.run_bind_ok tip]
    simp only [call,Prog.bind_eq,Prog.bind,Prog.run,World.exec]
    unfold World.candidate at named
    rw [named]
    rfl
  have held : w.repo.commits.contains found.hash = true := by
    obtain ⟨text,-,looked_up⟩ := Option.bind_eq_some_iff.mp named
    obtain ⟨h,is_file,rfl⟩ := Option.map_eq_some_iff.mp looked_up
    exact find_commit_file_mem is_file
  have ruling : promotion_ruling setup branch false found =
      policy_ruling setup entry (some (metrics_of (setup.files found.hash))) (some (.hash found.hash)) := by
    simp [promotion_ruling,armed]
  have waived : promotion_ruling setup branch true found = .pure none := by
    simp [promotion_ruling,armed]
  unfold promote
  simp only [Prog.bind_eq,can_move_reads reading,looked]
  simp only [Prog.leaf,Prog.bind]
  rw [ruling,waived,← run_ruling setup env me (fun _ => answered) w held]
  apply can_move_past (ruling_reading setup entry _ _)
  · intro denial
    cases dry_run with
    | true => exact can_move_leaf (.ok (some denial))
    | false =>
      cases frozen with
      | true => exact can_move_leaf (.error _)
      | false => exact can_move_leaf (.ok (some denial))
  · rfl

/-! What a target names is what is merged. -/

omit [Canonical H] [HexDigest H] in
theorem merge_target_named {target : Target H} {theirs : H} {t : World H}
    (ran : (alone env me at_will).Runs (merge_target target) w (.ok (some theirs)) t) : w.named target = some theirs := by
  cases target with
  | commit h =>
    obtain ⟨first,u,-,later⟩ := Discipline.runs_bind.mp ran
    cases first with
    | error e => cases (Discipline.runs_fail.mp later).1
    | ok found =>
      obtain ⟨same,-⟩ := Discipline.runs_pure.mp later
      cases found with
      | none => cases same
      | some data =>
        cases same
        rfl
  | branch name =>
    obtain ⟨c,-,later⟩ := Discipline.runs_op.mp ran
    have read : (alone env me at_will).exec _ c (.read_ref name) w = (w.repo.refs.get? name,w) := rfl
    rw [read] at later
    change (w.repo.refs.get? name).join = some theirs
    cases found : w.repo.refs.get? name with
    | none =>
      rw [found] at later
      cases (Discipline.runs_pure.mp later).1
    | some tip =>
      rw [found] at later
      exact (Except.ok.inj (Discipline.runs_pure.mp later).1).symm

omit [Canonical H] [HexDigest H] in
/-- A promotion looks its target up after the checkout, among the same branches. -/
theorem landing_target_named {found : Candidate H} {into : Target H} {force : Bool} {target : Target H} {r : Except (Failure H) Unit}
    {u t : World H} (switched : (alone env me at_will).Runs (checkout into force) w r u)
    (ran : (alone env me at_will).Runs (landing_target found) u (.ok target) t) : target = w.landing found := by
  have refs := still_runs (checkout_still into force) switched
  obtain ⟨c,-,later⟩ := Discipline.runs_op.mp ran
  have read : (alone env me at_will).exec _ c (.read_ref found.text) u = (u.repo.refs.get? found.text,u) := rfl
  rw [read,refs] at later
  unfold World.landing Dict.contains
  cases held : w.repo.refs.get? found.text with
  | none =>
    rw [held] at later
    exact Except.ok.inj (Discipline.runs_pure.mp later).1
  | some tip =>
    rw [held] at later
    exact Except.ok.inj (Discipline.runs_pure.mp later).1

end Commands

/-! A policy on the loss, at a commit that keeps it, with the next one that does not. -/

/-- The order of numbers of one digit. -/
def one_digit : Numbers := ⟨fun a b => decide (a.first < b.first),fun a b => decide (a.first ≤ b.first),id⟩

def loss_policy : PolicyEntry Name := ⟨some "loss","<",none,some (Numeral.ofNat 5),false⟩

def with_loss (n : Nat) : Doc := Dict.ofList [("metrics",.dict [("loss",natural n)])]

def guarded : PolicySetup Name Unit where
  policies := Dict.ofList [("main",loss_policy)]
  files h := with_loss (if h = commit_hash mine then 1 else 9)
  numbers := one_digit
  crypto := none

def merge_next : Command Name (Option (Denial Name)) :=
  gated_merge guarded desk false (.commit (commit_hash next_change)) ⟨none,false,"m"⟩

end AetherVault
