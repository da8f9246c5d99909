import AetherVault.Improvers

/-! Whether a change set that is applied is applied once: how many versions are minted from it, and
whether its status says so. -/
namespace AetherVault.Improvers
open Lib ReadCommit

namespace Workshop

/-- A call that has minted a version of the change set, and whose last request is not over. -/
def UnderWay (s : Workshop) (call : Nat) (change_set_id : String) : Prop :=
  ∃ stage id, s.calls.get? call = some stage ∧ stage.version = some (change_set_id,id) ∧ (change_set_id,id) ∈ s.minted

/-- One version at most, which there is when the change set became applied; and when there is one, the
change set became applied or the call that minted has its last request still to come. -/
structure MintedOnce (s : Workshop) (change_set_id : String) : Prop where
  once : (s.versions change_set_id).length ≤ 1
  backed : s.became_applied change_set_id → s.versions change_set_id ≠ []
  completed : s.versions change_set_id ≠ [] → s.became_applied change_set_id ∨ ∃ call, s.UnderWay call change_set_id

/-- The call can end here: what it minted from is applied, or another call goes on. -/
def Spared (s : Workshop) (call : Nat) : Prop := ∀ change_set_id, s.UnderWay call change_set_id →
  s.became_applied change_set_id ∨ ∃ other, other ≠ call ∧ s.UnderWay other change_set_id

/-- A call mints when nothing has been minted from its change set, and learns of it; a change set
becomes applied when a version has been minted from it; a call that has minted does not end before. -/
def Fits (s : Workshop) : ApplyMove → Prop
  | .get_change_set _ _ => True
  | .create_improver call minting now answered => ∀ change_set_id cs id improvers,
      s.calls.get? call = some (.approved change_set_id cs) → s.mints cs minting now = some (id,improvers) →
      s.improvers.contains id = false → s.versions change_set_id = [] ∧ answered = true
  | .transition call => (∃ change_set_id id, s.calls.get? call = some (.minted change_set_id id)) →
      s.server.pending.contains call = false → (s.transition call).server.pending.contains call = false → s.Spared call
  | .fail call => (∀ change_set_id id, s.calls.get? call ≠ some (.sent change_set_id id)) → s.Spared call
  | .status (.read _ _) => True
  | .status (.commit i _) => ∀ change_set_id read,
      s.server.pending.get? i = some (.set_status change_set_id read .applied) → s.versions change_set_id ≠ []
  | .status (.abandon i) => (∃ change_set_id id, s.calls.get? i = some (.sent change_set_id id)) → s.Spared i

/-- What a plan was made from is still there. -/
def Grounded (shared : ChangeSets) : ChangeSetPlan → Prop
  | .insert row => ∀ now, (row now).status = .proposed
  | .set_status change_set_id _ _ => shared.rows.contains change_set_id = true

/-- What the calls and the requests on the way are about. -/
structure Tracked (s : Workshop) : Prop where
  sent : ∀ call change_set_id id, s.calls.get? call = some (.sent change_set_id id) →
    ∃ read, s.server.pending.get? call = some (.set_status change_set_id read .applied)
  grounded : ∀ i plan, s.server.pending.get? i = some plan → Grounded s.server.shared plan
  issued : ∀ call stage change_set_id id, s.calls.get? call = some stage → stage.version = some (change_set_id,id) →
    s.improvers.contains id = true

/-! The requests about the status. -/

section Requests

variable {shared : ChangeSets} {server : ReadCommit.Server ChangeSets ChangeSetPlan}

theorem plan_grounded {request : ChangeSetRequest} {plan : ChangeSetPlan} (planned : request.plan shared = some plan) :
    Grounded shared plan := by
  cases request with
  | create_change_set identity uuid object_exists body =>
    simp only [ChangeSetRequest.plan,Option.bind_eq_bind,Option.bind_eq_some_iff] at planned
    obtain ⟨project_id,-,object_id,-,-,-,-,-,-,-,made⟩ := planned
    cases made
    intro now
    rfl
  | update_change_set_status cs_id new_status =>
    simp only [ChangeSetRequest.plan,Option.bind_eq_bind,Option.bind_eq_some_iff] at planned
    obtain ⟨row,found,status,-,made⟩ := planned
    cases made
    exact (Dict.contains_iff _ _).mpr ⟨row,found⟩

theorem write_contains (plan : ChangeSetPlan) (now : Datetime) {change_set_id : String}
    (held : shared.rows.contains change_set_id = true) : (plan.write now shared).rows.contains change_set_id = true := by
  cases plan with
  | insert row =>
    simp only [ChangeSetPlan.write]
    split
    · exact held
    · exact Dict.contains_set _ _ _ held
  | set_status cs_id read new_status =>
    simp only [ChangeSetPlan.write]
    cases shared.rows.get? cs_id with
    | none => exact held
    | some row => exact Dict.contains_set _ _ _ held

theorem step_contains (m : Move ChangeSetRequest Datetime) {change_set_id : String}
    (held : server.shared.rows.contains change_set_id = true) :
    (change_sets.step server m).shared.rows.contains change_set_id = true := by
  cases Protocol.step_shared (P := change_sets) server m with
  | inl same => rwa [same]
  | inr committed =>
    obtain ⟨i,now,plan,-,-,wrote⟩ := committed
    rw [wrote]
    exact write_contains plan now held

theorem Grounded.step (m : Move ChangeSetRequest Datetime) {plan : ChangeSetPlan} (grounded : Grounded server.shared plan) :
    Grounded (change_sets.step server m).shared plan := by
  cases plan with
  | insert row => exact grounded
  | set_status change_set_id read new_status => exact step_contains m grounded

theorem grounded_step (grounded : ∀ i plan, server.pending.get? i = some plan → Grounded server.shared plan)
    (m : Move ChangeSetRequest Datetime) (i : Nat) (plan : ChangeSetPlan)
    (found : (change_sets.step server m).pending.get? i = some plan) : Grounded (change_sets.step server m).shared plan := by
  cases Protocol.step_pending (P := change_sets) server m found with
  | inl before => exact (grounded i plan before).step m
  | inr fresh =>
    obtain ⟨request,-,planned,-⟩ := fresh
    exact (plan_grounded planned).step m

/-- A change set becomes applied by a commit of that status. -/
theorem applied_step (grounded : ∀ i plan, server.pending.get? i = some plan → Grounded server.shared plan)
    (m : Move ChangeSetRequest Datetime) (change_set_id : String) :
    .applied ∈ (change_sets.step server m).shared.path change_set_id ↔ .applied ∈ server.shared.path change_set_id ∨
      ∃ i now read, m = .commit i now ∧ server.pending.get? i = some (.set_status change_set_id read .applied) := by
  cases m with
  | read i request =>
    have same : (change_sets.step server (.read i request)).shared = server.shared := by
      cases Protocol.step_shared (P := change_sets) server (.read i request) with
      | inl same => exact same
      | inr committed =>
        obtain ⟨i,now,plan,impossible,-⟩ := committed
        contradiction
    simp [same]
  | abandon i => simp [Protocol.step]
  | commit i now =>
    cases found : server.pending.get? i with
    | none => simp [Protocol.step,found]
    | some plan =>
      have this_one : (∃ j t read, (Move.commit i now : Move ChangeSetRequest Datetime) = .commit j t ∧
          server.pending.get? j = some (.set_status change_set_id read .applied)) ↔
          ∃ read, plan = .set_status change_set_id read .applied := by
        constructor
        · intro committed
          obtain ⟨j,t,read,same,planned⟩ := committed
          cases same
          rw [found] at planned
          exact ⟨read,Option.some.inj planned⟩
        · intro applied
          obtain ⟨read,rfl⟩ := applied
          exact ⟨i,now,read,rfl,found⟩
      rw [this_one]
      simp only [Protocol.step,found,Option.elim_some,change_sets]
      cases plan with
      | insert row =>
        have fresh : (row now).status = .proposed := grounded i _ found now
        simp only [ChangeSetPlan.write]
        split
        · simp
        · rw [ChangeSets.path_append]
          split <;> simp [fresh]
      | set_status cs_id read new_status =>
        obtain ⟨row,present⟩ := (Dict.contains_iff _ _).mp (grounded i _ found)
        simp only [ChangeSetPlan.write,present,Option.elim_some]
        rw [ChangeSets.path_append]
        by_cases same : cs_id = change_set_id
        · simp [same,eq_comm]
        · simp [same]

end Requests

/-! What a move does to the calls. -/

section Calls

variable {s t : Workshop} {change_set_id : String} {call : Nat}

theorem UnderWay.keep (under_way : s.UnderWay call change_set_id) (same : t.calls.get? call = s.calls.get? call)
    (more : s.minted ⊆ t.minted) : t.UnderWay call change_set_id := by
  obtain ⟨stage,id,at_stage,version,minted⟩ := under_way
  exact ⟨stage,id,same.trans at_stage,version,more minted⟩

theorem under_way_erase (calls : t.calls = s.calls.erase call) (minted : t.minted = s.minted) {other : Nat} :
    t.UnderWay other change_set_id ↔ other ≠ call ∧ s.UnderWay other change_set_id := by
  unfold UnderWay
  rw [calls,minted]
  simp only [Dict.get?_erase]
  by_cases same : other = call
  · simp [same]
  · simp [same]

theorem versions_congr (minted : t.minted = s.minted) : t.versions change_set_id = s.versions change_set_id := by
  unfold versions
  rw [minted]

/-- Where nothing is minted and nothing applied, all that can go wrong is that a call ends. -/
theorem minted_once_iff (good : ∀ cs, s.MintedOnce cs) (minted : t.minted = s.minted)
    (applied : ∀ cs, t.became_applied cs ↔ s.became_applied cs) :
    (∀ cs, t.MintedOnce cs) ↔ ∀ cs, s.versions cs ≠ [] → s.became_applied cs ∨ ∃ call, t.UnderWay call cs := by
  constructor
  · intro once cs some_version
    rw [← applied]
    exact (once cs).completed (by rwa [versions_congr minted])
  · intro completed cs
    constructor
    · rw [versions_congr minted]
      exact (good cs).once
    · rw [versions_congr minted,applied]
      exact (good cs).backed
    · rw [versions_congr minted,applied]
      exact completed cs

theorem minted_once_kept (good : ∀ cs, s.MintedOnce cs) (minted : t.minted = s.minted)
    (applied : ∀ cs, t.became_applied cs ↔ s.became_applied cs) (going : ∀ call cs, s.UnderWay call cs → t.UnderWay call cs) :
    ∀ cs, t.MintedOnce cs := by
  rw [minted_once_iff good minted applied]
  intro cs some_version
  cases (good cs).completed some_version with
  | inl became => exact .inl became
  | inr under_way =>
    obtain ⟨call,under_way⟩ := under_way
    exact .inr ⟨call,going call cs under_way⟩

theorem versions_of_under_way (under_way : s.UnderWay call change_set_id) : s.versions change_set_id ≠ [] := by
  obtain ⟨stage,id,-,-,minted⟩ := under_way
  have member : id ∈ s.versions change_set_id := List.mem_map.mpr ⟨_,List.mem_filter.mpr ⟨minted,by simp⟩,rfl⟩
  exact List.ne_nil_of_mem member

theorem ended_iff (good : ∀ cs, s.MintedOnce cs) (minted : t.minted = s.minted)
    (applied : ∀ cs, t.became_applied cs ↔ s.became_applied cs) (calls : t.calls = s.calls.erase call) :
    (∀ cs, t.MintedOnce cs) ↔ s.Spared call := by
  rw [minted_once_iff good minted applied]
  simp only [under_way_erase calls minted]
  constructor
  · intro completed cs under_way
    exact completed cs (versions_of_under_way under_way)
  · intro spared cs some_version
    cases (good cs).completed some_version with
    | inl became => exact .inl became
    | inr going =>
      obtain ⟨other,going⟩ := going
      by_cases same : other = call
      · subst same
        exact spared cs going
      · exact .inr ⟨other,same,going⟩

end Calls

/-! What every run keeps. -/

section Kept

variable {s : Workshop}

theorem step_keeps_pending {server : ReadCommit.Server ChangeSets ChangeSetPlan} {j : Nat} {plan : ChangeSetPlan}
    (found : server.pending.get? j = some plan) {m : Move ChangeSetRequest Datetime}
    (uncommitted : ∀ now, m ≠ .commit j now) (held : m ≠ .abandon j) :
    (change_sets.step server m).pending.get? j = some plan := by
  cases m with
  | read i request =>
    simp only [Protocol.step]
    split
    · exact found
    · rename_i free
      cases change_sets.plan request server.shared with
      | none => exact found
      | some fresh =>
        have differ : j ≠ i := by
          intro same
          subst same
          simp [Dict.contains,found] at free
        simpa [Dict.get?_set,differ] using found
  | commit i now =>
    have differ : j ≠ i := fun same => uncommitted now (by rw [same])
    simp only [Protocol.step]
    cases server.pending.get? i with
    | none => exact found
    | some other => simpa [Dict.get?_erase,differ] using found
  | abandon i =>
    have differ : j ≠ i := fun same => held (by rw [same])
    simpa [Protocol.step,Dict.get?_erase,differ] using found

theorem get?_settle {calls : Dict Nat ApplyCall} {i call : Nat} {stage : ApplyCall}
    (found : (settle calls i).get? call = some stage) :
    calls.get? call = some stage ∧ (call = i → ∀ change_set_id id, stage ≠ .sent change_set_id id) := by
  unfold settle at found
  split at found
  · rw [Dict.get?_erase] at found
    split at found
    · contradiction
    · rename_i differ
      exact ⟨found,fun same => absurd same differ⟩
  · rename_i unsent
    refine ⟨found,fun same change_set_id id sent => ?_⟩
    subst same sent
    exact unsent change_set_id id found

theorem create_improver_cases {body : ImproverBody} {now : PackMoment} {improvers after : ImproverVersions} {id : String}
    (created : create_improver_version body now improvers = some (id,after)) :
    (improvers.contains id = true → after = improvers) ∧ after.contains id = true ∧
      ∀ other, improvers.contains other = true → after.contains other = true := by
  simp only [create_improver_version,Option.bind_eq_bind,Option.bind_eq_some_iff] at created
  obtain ⟨project_id,-,manifest_object_id,-,made⟩ := created
  split at made
  · rename_i taken
    cases made
    exact ⟨fun _ => rfl,taken,fun _ held => held⟩
  · rename_i free
    obtain ⟨-,-,made⟩ := Option.bind_eq_some_iff.mp made
    cases made
    refine ⟨fun taken => absurd taken free,?_,fun other held => Dict.contains_set _ _ _ held⟩
    simp [Dict.contains]

theorem transition_plan {shared : ChangeSets} {change_set_id : String} {plan : ChangeSetPlan}
    (planned : (ChangeSetRequest.update_change_set_status change_set_id (some .applied)).plan shared = some plan) :
    ∃ read, plan = .set_status change_set_id read .applied := by
  simp only [ChangeSetRequest.plan,Option.bind_eq_bind,Option.bind_eq_some_iff] at planned
  obtain ⟨row,-,status,passed,made⟩ := planned
  obtain ⟨same,-⟩ := Option.filter_eq_some_iff.mp passed
  cases made
  cases same
  exact ⟨row.status,rfl⟩

theorem Tracked.get_change_set (tracked : s.Tracked) (call : Nat) (change_set_id : String) :
    (s.get_change_set call change_set_id).Tracked := by
  unfold Workshop.get_change_set
  cases s.server.shared.rows.get? change_set_id with
  | none => exact tracked
  | some cs =>
    dsimp only
    split
    · have at_stage {other : Nat} {stage : ApplyCall}
          (found : (s.calls.set call (.approved change_set_id cs)).get? other = some stage) :
          stage = .approved change_set_id cs ∨ s.calls.get? other = some stage := by
        rw [Dict.get?_set] at found
        split at found
        · exact .inl (Option.some.inj found).symm
        · exact .inr found
      constructor
      · intro other change_set_id' id found
        cases at_stage found with
        | inl impossible => contradiction
        | inr before => exact tracked.sent other change_set_id' id before
      · exact tracked.grounded
      · intro other stage change_set_id' id found version
        cases at_stage found with
        | inl approved =>
          subst approved
          contradiction
        | inr before => exact tracked.issued other stage change_set_id' id before version
    · exact tracked

/-- Calls that end take nothing with them. -/
theorem Tracked.erase (tracked : s.Tracked) (call : Nat) : Tracked {s with calls := s.calls.erase call} := by
  have before {other : Nat} {stage : ApplyCall} (found : (s.calls.erase call).get? other = some stage) :
      s.calls.get? other = some stage := by
    rw [Dict.get?_erase] at found
    split at found
    · contradiction
    · exact found
  constructor
  · intro other change_set_id id found
    exact tracked.sent other change_set_id id (before found)
  · exact tracked.grounded
  · intro other stage change_set_id id found version
    exact tracked.issued other stage change_set_id id (before found) version

theorem Tracked.create_improver (tracked : s.Tracked) (call : Nat) (minting : Minting) (now : PackMoment) (answered : Bool) :
    (s.create_improver call minting now answered).Tracked := by
  unfold Workshop.create_improver
  split
  · rename_i change_set_id cs at_call
    cases minted : s.mints cs minting now with
    | none => exact tracked.erase call
    | some made =>
      obtain ⟨id,improvers⟩ := made
      obtain ⟨-,there,more⟩ := create_improver_cases minted
      have at_stage {other : Nat} {stage : ApplyCall}
          (found : (if answered then s.calls.set call (.minted change_set_id id) else s.calls.erase call).get? other = some stage) :
          stage = .minted change_set_id id ∨ s.calls.get? other = some stage := by
        split at found
        · rw [Dict.get?_set] at found
          split at found
          · exact .inl (Option.some.inj found).symm
          · exact .inr found
        · rw [Dict.get?_erase] at found
          split at found
          · contradiction
          · exact .inr found
      constructor
      · intro other change_set_id' id' found
        cases at_stage found with
        | inl impossible => contradiction
        | inr before => exact tracked.sent other change_set_id' id' before
      · exact tracked.grounded
      · intro other stage change_set_id' id' found version
        cases at_stage found with
        | inl fresh =>
          subst fresh
          cases version
          exact there
        | inr before => exact more id' (tracked.issued other stage change_set_id' id' before version)
  · exact tracked

theorem Tracked.transition (tracked : s.Tracked) (call : Nat) : (s.transition call).Tracked := by
  unfold Workshop.transition
  split
  · rename_i change_set_id id at_call
    split
    · exact tracked
    · rename_i free
      have unplanned : s.server.pending.get? call = none := (Dict.contains_false _ _).mp (by simpa using free)
      have still (other : Nat) {change_set_id' id' : String} (sent : s.calls.get? other = some (.sent change_set_id' id')) :
          ∃ read, (change_sets.step s.server (.read call (.update_change_set_status change_set_id (some .applied)))).pending.get? other =
            some (.set_status change_set_id' read .applied) := by
        obtain ⟨read,found⟩ := tracked.sent other change_set_id' id' sent
        exact ⟨read,step_keeps_pending found (fun _ => by simp) (by simp)⟩
      have at_stage {other : Nat} {stage : ApplyCall} {p : Bool}
          (found : (if p then s.calls.set call (.sent change_set_id id) else s.calls.erase call).get? other = some stage) :
          (p = true ∧ other = call ∧ stage = .sent change_set_id id) ∨ s.calls.get? other = some stage := by
        split at found
        · rename_i on
          rw [Dict.get?_set] at found
          split at found
          · rename_i same
            exact .inl ⟨on,same,(Option.some.inj found).symm⟩
          · exact .inr found
        · rw [Dict.get?_erase] at found
          split at found
          · contradiction
          · exact .inr found
      constructor
      · intro other change_set_id' id' found
        cases at_stage found with
        | inl fresh =>
          obtain ⟨on,rfl,same⟩ := fresh
          cases same
          obtain ⟨plan,planned⟩ := (Dict.contains_iff _ _).mp on
          cases Protocol.step_pending (P := change_sets) s.server _ planned with
          | inl before =>
            rw [unplanned] at before
            contradiction
          | inr looked =>
            obtain ⟨request,same,made,-⟩ := looked
            cases same
            obtain ⟨read,rfl⟩ := transition_plan made
            exact ⟨read,planned⟩
        | inr before => exact still other before
      · exact grounded_step tracked.grounded _
      · intro other stage change_set_id' id' found version
        cases at_stage found with
        | inl fresh =>
          obtain ⟨-,-,rfl⟩ := fresh
          cases version
          exact tracked.issued call _ _ _ at_call rfl
        | inr before => exact tracked.issued other stage change_set_id' id' before version
  · exact tracked

theorem Tracked.fail (tracked : s.Tracked) (call : Nat) : (s.fail call).Tracked := by
  unfold Workshop.fail
  split
  · exact tracked
  · exact tracked.erase call

theorem Tracked.status (tracked : s.Tracked) (m : Move ChangeSetRequest Datetime) : (s.status m).Tracked := by
  have before {other : Nat} {stage : ApplyCall} (found : (s.status m).calls.get? other = some stage) :
      s.calls.get? other = some stage ∧ ∀ change_set_id id, stage = .sent change_set_id id →
        (∀ now, m ≠ .commit other now) ∧ m ≠ .abandon other := by
    cases m with
    | read i request => exact ⟨found,fun _ _ _ => ⟨fun _ => by simp,by simp⟩⟩
    | commit i now =>
      obtain ⟨found,apart⟩ := get?_settle found
      refine ⟨found,fun change_set_id id sent => ⟨fun _ same => ?_,by simp⟩⟩
      cases same
      exact apart rfl change_set_id id sent
    | abandon i =>
      obtain ⟨found,apart⟩ := get?_settle found
      refine ⟨found,fun change_set_id id sent => ⟨fun _ => by simp,fun same => ?_⟩⟩
      cases same
      exact apart rfl change_set_id id sent
  constructor
  · intro other change_set_id id found
    obtain ⟨here,apart⟩ := before found
    obtain ⟨uncommitted,held⟩ := apart change_set_id id rfl
    obtain ⟨read,planned⟩ := tracked.sent other change_set_id id here
    exact ⟨read,step_keeps_pending planned uncommitted held⟩
  · exact grounded_step tracked.grounded m
  · intro other stage change_set_id id found version
    exact tracked.issued other stage change_set_id id (before found).1 version

theorem Tracked.step (tracked : s.Tracked) (m : ApplyMove) : (s.step m).Tracked := by
  cases m with
  | get_change_set call change_set_id => exact tracked.get_change_set call change_set_id
  | create_improver call minting now answered => exact tracked.create_improver call minting now answered
  | transition call => exact tracked.transition call
  | fail call => exact tracked.fail call
  | status m => exact tracked.status m

theorem tracked_empty : Workshop.empty.Tracked := by
  constructor
  · intro call change_set_id id impossible
    contradiction
  · intro i plan impossible
    contradiction
  · intro call stage change_set_id id impossible
    contradiction

end Kept

/-! When a move keeps one version for each applied change set. -/

section Moves

variable {s : Workshop}

theorem not_under_way {call : Nat} {stage : ApplyCall} (at_stage : s.calls.get? call = some stage)
    (unminted : stage.version = none) (change_set_id : String) : ¬s.UnderWay call change_set_id := by
  intro under_way
  obtain ⟨other,id,found,version,-⟩ := under_way
  rw [at_stage] at found
  cases found
  rw [unminted] at version
  contradiction

theorem get_change_set_once (good : ∀ cs, s.MintedOnce cs) (call : Nat) (change_set_id : String) :
    ∀ cs, (s.get_change_set call change_set_id).MintedOnce cs := by
  have going (other : Nat) (found : s.calls.get? other ≠ none) :
      (s.get_change_set call change_set_id).calls.get? other = s.calls.get? other := by
    unfold Workshop.get_change_set
    split
    · rfl
    · split
      · rename_i free
        have differ : other ≠ call := fun same => found (by rw [same]; exact free.2)
        exact Dict.get?_set_other _ _ _ _ differ
      · rfl
  have minted : (s.get_change_set call change_set_id).minted = s.minted := by
    unfold Workshop.get_change_set
    split
    · rfl
    · split <;> rfl
  have server : (s.get_change_set call change_set_id).server = s.server := by
    unfold Workshop.get_change_set
    split
    · rfl
    · split <;> rfl
  apply minted_once_kept good minted
  · intro cs
    unfold became_applied
    rw [server]
  · intro other cs under_way
    have present : s.calls.get? other ≠ none := by
      obtain ⟨stage,id,found,-⟩ := under_way
      simp [found]
    exact under_way.keep (going other present) (by simp [minted])

theorem versions_append (t : Workshop) (change_set_id id other : String) (added : t.minted = s.minted ++ [(change_set_id,id)]) :
    t.versions other = s.versions other ++ (if change_set_id = other then [id] else []) := by
  unfold versions
  rw [added]
  by_cases same : change_set_id = other <;> simp [same]

/-- A version is minted: it is the first of its change set, and the call goes on. -/
theorem minting_once_iff (tracked : s.Tracked) (good : ∀ cs, s.MintedOnce cs) {t : Workshop} {call : Nat} {change_set_id id : String}
    {cs : DBChangeSet} (at_call : s.calls.get? call = some (.approved change_set_id cs)) (fresh : s.improvers.contains id = false)
    (answered : Bool) (added : t.minted = s.minted ++ [(change_set_id,id)])
    (applied : ∀ other, t.became_applied other ↔ s.became_applied other)
    (calls : t.calls = if answered then s.calls.set call (.minted change_set_id id) else s.calls.erase call) :
    (∀ other, t.MintedOnce other) ↔ s.versions change_set_id = [] ∧ answered = true := by
  constructor
  · intro once
    have here := once change_set_id
    have more := versions_append t change_set_id id change_set_id added
    rw [if_pos rfl] at more
    have first : s.versions change_set_id = [] := by
      have short := here.once
      rw [more,List.length_append,List.length_singleton] at short
      exact List.length_eq_zero_iff.mp (by omega)
    refine ⟨first,?_⟩
    cases here.completed (by simp [more]) with
    | inl became => exact absurd first ((good change_set_id).backed ((applied _).mp became))
    | inr going =>
      obtain ⟨other,stage,minted_id,found,version,minted⟩ := going
      by_contra lost
      rw [calls,if_neg lost,Dict.get?_erase] at found
      split at found
      · contradiction
      · rw [added,List.mem_append,List.mem_singleton] at minted
        cases minted with
        | inl before => exact versions_of_under_way ⟨stage,minted_id,found,version,before⟩ first
        | inr same =>
          cases same
          have taken := tracked.issued other stage _ _ found version
          rw [fresh] at taken
          contradiction
  · intro both other
    obtain ⟨first,rfl⟩ := both
    have more := versions_append t change_set_id id other added
    by_cases same : change_set_id = other
    · subst same
      rw [if_pos rfl,first,List.nil_append] at more
      constructor
      · simp [more]
      · simp [more]
      · intro _
        refine .inr ⟨call,.minted change_set_id id,id,?_,rfl,by simp [added]⟩
        rw [calls,if_pos rfl,Dict.get?_set_same]
    · rw [if_neg same,List.append_nil] at more
      constructor
      · rw [more]
        exact (good other).once
      · rw [more,applied]
        exact (good other).backed
      · rw [more,applied]
        intro some_version
        cases (good other).completed some_version with
        | inl became => exact .inl became
        | inr going =>
          obtain ⟨going_on,under_way⟩ := going
          have differ : going_on ≠ call := by
            intro here
            subst here
            exact not_under_way at_call rfl _ under_way
          refine .inr ⟨going_on,under_way.keep ?_ (by simp [added])⟩
          rw [calls,if_pos rfl,Dict.get?_set_other _ _ _ _ differ]

theorem create_improver_server (call : Nat) (minting : Minting) (now : PackMoment) (answered : Bool) :
    (s.create_improver call minting now answered).server = s.server := by
  unfold Workshop.create_improver
  split
  · split <;> rfl
  · rfl

theorem create_improver_once_iff (tracked : s.Tracked) (good : ∀ cs, s.MintedOnce cs) (call : Nat) (minting : Minting)
    (now : PackMoment) (answered : Bool) : (∀ cs, (s.create_improver call minting now answered).MintedOnce cs) ↔
      s.Fits (.create_improver call minting now answered) := by
  have applied (cs : String) : (s.create_improver call minting now answered).became_applied cs ↔ s.became_applied cs := by
    unfold became_applied
    rw [create_improver_server]
  have idle (elsewhere : ∀ change_set_id cs, s.calls.get? call ≠ some (.approved change_set_id cs)) :
      s.create_improver call minting now answered = s := by
    unfold Workshop.create_improver
    split
    · rename_i change_set_id cs at_call
      exact absurd at_call (elsewhere change_set_id cs)
    · rfl
  by_cases approved : ∃ change_set_id cs, s.calls.get? call = some (.approved change_set_id cs)
  · obtain ⟨change_set_id,cs,at_call⟩ := approved
    have other_call {other : Nat} {cs' : String} (under_way : s.UnderWay other cs') : other ≠ call := by
      intro same
      subst same
      exact not_under_way at_call rfl cs' under_way
    cases made : s.mints cs minting now with
    | none =>
      have after : s.create_improver call minting now answered = {s with calls := s.calls.erase call} := by
        simp [Workshop.create_improver,at_call,made]
      constructor
      · intro _ change_set_id' cs' id improvers same impossible
        rw [at_call] at same
        cases same
        rw [made] at impossible
        contradiction
      · intro _
        apply (ended_iff good (by rw [after]) applied (by rw [after])).mpr
        intro other under_way
        exact absurd under_way (not_under_way at_call rfl other)
    | some created =>
      obtain ⟨id,improvers⟩ := created
      have calls : (s.create_improver call minting now answered).calls =
          if answered then s.calls.set call (.minted change_set_id id) else s.calls.erase call := by
        simp [Workshop.create_improver,at_call,made]
      have minted : (s.create_improver call minting now answered).minted =
          if s.improvers.contains id then s.minted else s.minted ++ [(change_set_id,id)] := by
        simp [Workshop.create_improver,at_call,made]
      cases taken : s.improvers.contains id with
      | true =>
        rw [taken,if_pos rfl] at minted
        constructor
        · intro _ change_set_id' cs' id' improvers' same here fresh
          rw [at_call] at same
          cases same
          rw [made] at here
          cases here
          rw [taken] at fresh
          contradiction
        · intro _
          apply minted_once_kept good minted applied
          intro other cs' under_way
          apply under_way.keep _ (by simp [minted])
          rw [calls]
          split
          · exact Dict.get?_set_other _ _ _ _ (other_call under_way)
          · simp [Dict.get?_erase,other_call under_way]
      | false =>
        rw [taken,if_neg (by simp)] at minted
        rw [minting_once_iff tracked good at_call taken answered minted applied calls]
        constructor
        · intro both change_set_id' cs' id' improvers' same here _
          rw [at_call] at same
          cases same
          exact both
        · intro fits
          exact fits change_set_id cs id improvers at_call made taken
  · rw [idle fun change_set_id cs at_call => approved ⟨change_set_id,cs,at_call⟩]
    constructor
    · intro _ change_set_id cs id improvers at_call
      exact absurd ⟨change_set_id,cs,at_call⟩ approved
    · exact fun _ => good

theorem transition_once_iff (good : ∀ cs, s.MintedOnce cs) (tracked : s.Tracked) (call : Nat) :
    (∀ cs, (s.transition call).MintedOnce cs) ↔ s.Fits (.transition call) := by
  by_cases at_minted : ∃ change_set_id id, s.calls.get? call = some (.minted change_set_id id)
  · obtain ⟨change_set_id,id,at_call⟩ := at_minted
    cases free : s.server.pending.contains call with
    | true =>
      have after : s.transition call = s := by simp [Workshop.transition,at_call,free]
      rw [after]
      constructor
      · intro _ _ impossible
        rw [free] at impossible
        contradiction
      · exact fun _ => good
    | false =>
      let asked := change_sets.step s.server (.read call (.update_change_set_status change_set_id (some .applied)))
      have after : s.transition call = {s with
          server := asked
          calls := if asked.pending.contains call then s.calls.set call (.sent change_set_id id) else s.calls.erase call} := by
        simp [Workshop.transition,at_call,free,asked]
      have applied (cs : String) : (s.transition call).became_applied cs ↔ s.became_applied cs := by
        have step := applied_step tracked.grounded (.read call (.update_change_set_status change_set_id (some .applied))) cs
        unfold became_applied
        rw [after]
        simpa using step
      have minted : (s.transition call).minted = s.minted := by rw [after]
      have pending : (s.transition call).server.pending.contains call = asked.pending.contains call := by rw [after]
      cases planned : asked.pending.contains call with
      | true =>
        have calls : (s.transition call).calls = s.calls.set call (.sent change_set_id id) := by rw [after]; simp [planned]
        constructor
        · intro _ _ _ impossible
          rw [pending,planned] at impossible
          contradiction
        · intro _
          apply minted_once_kept good minted applied
          intro other cs under_way
          by_cases same : other = call
          · subst same
            obtain ⟨stage,minted_id,found,version,here⟩ := under_way
            rw [at_call] at found
            cases found
            exact ⟨.sent change_set_id id,minted_id,by rw [calls,Dict.get?_set_same],version,by rwa [minted]⟩
          · apply under_way.keep _ (by simp [minted])
            rw [calls,Dict.get?_set_other _ _ _ _ same]
      | false =>
        have calls : (s.transition call).calls = s.calls.erase call := by rw [after]; simp [planned]
        rw [ended_iff good minted applied calls]
        constructor
        · intro spared _ _ _
          exact spared
        · intro fits
          exact fits ⟨change_set_id,id,at_call⟩ free (by rw [pending,planned])
  · have after : s.transition call = s := by
      unfold Workshop.transition
      split
      · rename_i change_set_id id at_call
        exact absurd ⟨change_set_id,id,at_call⟩ at_minted
      · rfl
    rw [after]
    constructor
    · intro _ impossible
      exact absurd impossible at_minted
    · exact fun _ => good

theorem fail_once_iff (good : ∀ cs, s.MintedOnce cs) (call : Nat) :
    (∀ cs, (s.fail call).MintedOnce cs) ↔ s.Fits (.fail call) := by
  by_cases sent : ∃ change_set_id id, s.calls.get? call = some (.sent change_set_id id)
  · obtain ⟨change_set_id,id,at_call⟩ := sent
    have after : s.fail call = s := by simp [Workshop.fail,at_call]
    rw [after]
    constructor
    · intro _ unsent
      exact absurd at_call (unsent change_set_id id)
    · exact fun _ => good
  · have after : s.fail call = {s with calls := s.calls.erase call} := by
      unfold Workshop.fail
      split
      · rename_i change_set_id id at_call
        exact absurd ⟨change_set_id,id,at_call⟩ sent
      · rfl
    rw [ended_iff good (by rw [after]) (fun cs => by rw [after]; rfl) (by rw [after])]
    constructor
    · intro spared _
      exact spared
    · intro fits
      exact fits fun change_set_id id at_call => sent ⟨change_set_id,id,at_call⟩

theorem commit_once_iff (tracked : s.Tracked) (good : ∀ cs, s.MintedOnce cs) (i : Nat) (now : Datetime) :
    (∀ cs, (s.status (.commit i now)).MintedOnce cs) ↔ s.Fits (.status (.commit i now)) := by
  have applied (cs : String) : (s.status (.commit i now)).became_applied cs ↔ s.became_applied cs ∨
      ∃ read, s.server.pending.get? i = some (.set_status cs read .applied) := by
    have step := applied_step tracked.grounded (.commit i now) cs
    unfold became_applied
    rw [Workshop.status,step]
    constructor
    · intro became
      cases became with
      | inl before => exact .inl before
      | inr committed =>
        obtain ⟨j,t,read,same,planned⟩ := committed
        cases same
        exact .inr ⟨read,planned⟩
    · intro became
      cases became with
      | inl before => exact .inl before
      | inr committed =>
        obtain ⟨read,planned⟩ := committed
        exact .inr ⟨i,now,read,rfl,planned⟩
  constructor
  · intro once cs read planned
    exact (once cs).backed ((applied cs).mpr (.inr ⟨read,planned⟩))
  · intro fits cs
    constructor
    · exact (good cs).once
    · intro became
      cases (applied cs).mp became with
      | inl before => exact (good cs).backed before
      | inr committed =>
        obtain ⟨read,planned⟩ := committed
        exact fits cs read planned
    · intro some_version
      cases (good cs).completed some_version with
      | inl before => exact .inl ((applied cs).mpr (.inl before))
      | inr going =>
        obtain ⟨call,stage,id,found,version,minted⟩ := going
        have kept (unsettled : (settle s.calls i).get? call = some stage) :
            ∃ call, (s.status (.commit i now)).UnderWay call cs := ⟨call,stage,id,unsettled,version,minted⟩
        by_cases sent : ∃ change_set_id id, s.calls.get? i = some (.sent change_set_id id)
        · obtain ⟨change_set_id,sent_id,at_call⟩ := sent
          by_cases same : call = i
          · subst same
            rw [at_call] at found
            cases found
            cases version
            obtain ⟨read,planned⟩ := tracked.sent call _ _ at_call
            exact .inl ((applied _).mpr (.inr ⟨read,planned⟩))
          · refine .inr (kept ?_)
            simpa [settle,at_call,Dict.get?_erase,same] using found
        · refine .inr (kept ?_)
          unfold settle
          split
          · rename_i change_set_id sent_id at_call
            exact absurd ⟨change_set_id,sent_id,at_call⟩ sent
          · exact found

theorem abandon_once_iff (good : ∀ cs, s.MintedOnce cs) (i : Nat) :
    (∀ cs, (s.status (.abandon i)).MintedOnce cs) ↔ s.Fits (.status (.abandon i)) := by
  have applied (cs : String) : (s.status (.abandon i)).became_applied cs ↔ s.became_applied cs := Iff.rfl
  have minted : (s.status (.abandon i)).minted = s.minted := rfl
  by_cases sent : ∃ change_set_id id, s.calls.get? i = some (.sent change_set_id id)
  · obtain ⟨change_set_id,id,at_call⟩ := sent
    have calls : (s.status (.abandon i)).calls = s.calls.erase i := by simp [Workshop.status,settle,at_call]
    rw [ended_iff good minted applied calls]
    constructor
    · intro spared _
      exact spared
    · intro fits
      exact fits ⟨change_set_id,id,at_call⟩
  · have calls : (s.status (.abandon i)).calls = s.calls := by
      simp only [Workshop.status,settle]
      split
      · rename_i change_set_id id at_call
        exact absurd ⟨change_set_id,id,at_call⟩ sent
      · rfl
    constructor
    · intro _ impossible
      exact absurd impossible sent
    · intro _
      apply minted_once_kept good minted applied
      intro call cs under_way
      exact under_way.keep (by rw [calls]) (List.Subset.refl _)

theorem read_once (tracked : s.Tracked) (good : ∀ cs, s.MintedOnce cs) (i : Nat) (request : ChangeSetRequest) :
    ∀ cs, (s.status (.read i request)).MintedOnce cs := by
  have applied (cs : String) : (s.status (.read i request)).became_applied cs ↔ s.became_applied cs := by
    have step := applied_step tracked.grounded (.read i request) cs
    unfold became_applied
    simpa [Workshop.status] using step
  exact minted_once_kept good rfl applied fun call cs under_way => under_way.keep rfl (List.Subset.refl _)

theorem step_once_iff (tracked : s.Tracked) (good : ∀ cs, s.MintedOnce cs) (m : ApplyMove) :
    (∀ cs, (s.step m).MintedOnce cs) ↔ s.Fits m := by
  cases m with
  | get_change_set call change_set_id =>
    constructor
    · exact fun _ => trivial
    · exact fun _ => get_change_set_once good call change_set_id
  | create_improver call minting now answered => exact create_improver_once_iff tracked good call minting now answered
  | transition call => exact transition_once_iff good tracked call
  | fail call => exact fail_once_iff good call
  | status move =>
    cases move with
    | read i request =>
      constructor
      · exact fun _ => trivial
      · exact fun _ => read_once tracked good i request
    | commit i now => exact commit_once_iff tracked good i now
    | abandon i => exact abandon_once_iff good i

end Moves

theorem versions_empty (change_set_id : String) : Workshop.empty.versions change_set_id = [] := rfl

theorem empty_once (change_set_id : String) : Workshop.empty.MintedOnce change_set_id := by
  constructor
  · simp [versions_empty]
  · intro became
    have impossible : ChangeSetStatus.applied ∈ ([] : List ChangeSetStatus) := became
    contradiction
  · intro impossible
    exact absurd (versions_empty change_set_id) impossible

/-- Once no call is under way, a change set has one version if it became applied, and none if it did not. -/
def AppliedOnce (s : Workshop) : Prop := ∀ change_set_id, (∀ call, ¬s.UnderWay call change_set_id) →
  (s.versions change_set_id).length ≤ 1 ∧ (s.versions change_set_id ≠ [] ↔ s.became_applied change_set_id)

theorem MintedOnce.applied_once {s : Workshop} (once : ∀ cs, s.MintedOnce cs) : s.AppliedOnce := by
  intro change_set_id ended
  refine ⟨(once change_set_id).once,fun some_version => ?_,(once change_set_id).backed⟩
  cases (once change_set_id).completed some_version with
  | inl became => exact became
  | inr going =>
    obtain ⟨call,going⟩ := going
    exact absurd going (ended call)

/-- Throughout a run each change set has one version exactly when it became applied, or when the call that
minted it has its last request to come, if and only if every move fits. -/
theorem applied_once_iff (moves : List ApplyMove) :
    (Runs.Always step (fun s => ∀ cs, s.MintedOnce cs) empty moves ↔ Runs.Every step Fits empty moves) ∧
      (Runs.Every step Fits empty moves → Runs.Always step AppliedOnce empty moves) := by
  have exactly : Runs.Always step (fun s => ∀ cs, s.MintedOnce cs) empty moves ↔ Runs.Every step Fits empty moves :=
    Runs.always_iff (I := Tracked) (fun _ m tracked => tracked.step m) (fun _ m tracked good => step_once_iff tracked good m)
      tracked_empty empty_once moves
  refine ⟨exactly,fun every before after split => ?_⟩
  exact MintedOnce.applied_once (exactly.mpr every before after split)

/-! Two clients that apply the same change set. -/

section Twice

open ChangeSets

def at_noon : Uuid → PackMoment := fun uuid => ⟨uuid,fun _ => true,none,noon⟩

def first_version : Uuid := ⟨"v1",by decide⟩

def second_version : Uuid := ⟨"v2",by decide⟩

def approve : List ApplyMove :=
  [.status (.read 1 (.create_change_set none "cs" (fun _ => true) ⟨none,some "p",none,some digest,none⟩)),.status (.commit 1 noon),
    .status (.read 2 (.update_change_set_status "cs" (some .approved))),.status (.commit 2 noon)]

/-- Both see it approved and mint; the change of status of the second is refused. -/
def apply_twice : List ApplyMove := approve ++
  [.get_change_set 3 "cs",.get_change_set 4 "cs",
    .create_improver 3 ⟨first_version,"p",true,digest⟩ (at_noon first_version) true,
    .create_improver 4 ⟨second_version,"p",true,digest⟩ (at_noon second_version) true,
    .transition 3,.status (.commit 3 noon),.transition 4]

theorem two_versions : ¬∀ moves : List ApplyMove, Runs.Always step AppliedOnce empty moves := by
  intro all
  have versions : (apply_twice.foldl step empty).versions "cs" = ["v1","v2"] := by decide +kernel
  have quiet : (apply_twice.foldl step empty).calls.entries.length = 0 := by decide +kernel
  have no_call : (apply_twice.foldl step empty).calls.entries = [] := List.length_eq_zero_iff.mp quiet
  have short := (all apply_twice apply_twice [] (List.append_nil _).symm "cs" fun call under_way => ?_).1
  · rw [versions] at short
    contradiction
  · obtain ⟨stage,id,found,-⟩ := under_way
    unfold Dict.get? at found
    rw [no_call] at found
    contradiction

end Twice

end Workshop

end AetherVault.Improvers
