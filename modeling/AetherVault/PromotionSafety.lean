import AetherVault.PromotionGate

/-! When a promotion that is not forced means that every armed rule holds of what the registry has. -/
namespace AetherVault.Improvers
open Lib Hashing

/-! Pages of the newest rows. -/

section Newest

variable {α : Type} {created_at : α → Datetime} {rows : List α} {limit offset : Nat}

theorem mem_of_newest {row : α} (shown : row ∈ newest created_at rows limit offset) : row ∈ rows :=
  (List.mem_insertionSort _).mp (List.mem_of_mem_drop (List.mem_of_mem_take shown))

theorem newest_eq_nil (positive : 0 < limit) : newest created_at rows limit 0 = [] ↔ rows = [] := by
  unfold newest
  rw [List.drop_zero,List.take_eq_nil_iff]
  constructor
  · intro none_shown
    cases none_shown with
    | inl impossible => omega
    | inr empty =>
      have same := List.perm_insertionSort (fun row other : α => (created_at other).instant ≤ (created_at row).instant) rows
      rw [empty] at same
      exact same.symm.eq_nil
  · intro empty
    right
    simp [empty]

theorem newest_head {row : α} (first : (newest created_at rows limit 0).head? = some row) :
    row ∈ rows ∧ ∀ other ∈ rows, (created_at other).instant ≤ (created_at row).instant := by
  refine ⟨mem_of_newest (List.mem_of_mem_head? first),fun other member => ?_⟩
  have total : Std.Total fun row other : α => (created_at other).instant ≤ (created_at row).instant :=
    ⟨fun a b => Nat.le_total _ _⟩
  have transitive : IsTrans α fun row other : α => (created_at other).instant ≤ (created_at row).instant :=
    ⟨fun a b c ab bc => Nat.le_trans bc ab⟩
  have ordered := List.pairwise_insertionSort (fun row other : α => (created_at other).instant ≤ (created_at row).instant) rows
  unfold newest at first
  rw [List.drop_zero] at first
  have there := (List.mem_insertionSort fun row other : α => (created_at other).instant ≤ (created_at row).instant).mpr member
  cases sorted : rows.insertionSort fun row other : α => (created_at other).instant ≤ (created_at row).instant with
  | nil =>
    rw [sorted] at there
    contradiction
  | cons top rest =>
    rw [sorted] at first there ordered
    cases limit with
    | zero => contradiction
    | succ n =>
      cases first
      cases List.mem_cons.mp there with
      | inl same => rw [same]
      | inr later => exact (List.pairwise_cons.mp ordered).1 other later

end Newest

theorem asked_for_iff {parameter value : String} (given : parameter ≠ "") : asked_for parameter value = true ↔ value = parameter := by
  simp [asked_for,given]

/-! What the rules say of the registry. -/

section Rules

variable {K : Type} (tools : GateTools K) (registry : GateRegistry)

/-- The registry's manifest of the candidate has a valid signature. -/
def SignedManifest (candidate : String) : Prop := ∃ row bytes manifest, registry.improvers.get? candidate = some row ∧
  registry.objects.get? row.manifest_object_id = some bytes ∧ tools.loads bytes = .value manifest ∧
  verify_object tools (some manifest) = .ok .verified

/-- A result of the candidate that no other is newer than. -/
def LatestCanary (project_id candidate : String) (latest : DBCanaryResult) : Prop :=
  latest ∈ registry.canary_results ∧ asked_for project_id latest.project_id = true ∧ latest.improver_id = candidate ∧
    ∀ other ∈ registry.canary_results, asked_for project_id other.project_id = true → other.improver_id = candidate →
      other.created_at.instant ≤ latest.created_at.instant

def OpenCritique (candidate : String) : Prop := ∃ critique ∈ registry.critiques,
  critique.target_type = .improver ∧ critique.target_id = candidate ∧ critique.status = .open

structure RulesHold (project_id : String) (pol : ImproverPolicy) (candidate : String) : Prop where
  canary : pol.require_canaries = some true → ∃ latest, LatestCanary registry project_id candidate latest ∧ latest.passed = true
  signature : pol.require_signature = some true → SignedManifest tools registry candidate
  review : pol.require_review = some true → ∃ review ∈ registry.reviews,
    review.target_type = .improver ∧ review.target_id = candidate ∧ review.decision = .approve
  critiques : pol.require_review = some true → ¬OpenCritique registry candidate

end Rules

section Gate

variable {K : Type} (H : Type) [Hashing H] [HexDigest H] (tools : GateTools K) (registry : GateRegistry) (replies : Replies)
variable (repo : PromoteRepo)

/-- What the armed rules are told lets the candidate through. -/
structure Allowed (pol : ImproverPolicy) (candidate : String) : Prop where
  canary : pol.require_canaries = some true → latest_canary_passed registry replies repo.project_id candidate = .ok true
  signature : pol.require_signature = some true → ∃ manifest,
    improver_manifest H tools registry replies repo candidate = .ok manifest ∧ verify_object tools manifest = .ok .verified
  review : pol.require_review = some true → ∃ reviews,
    replies.reviews.body (some (registry.list_reviews .improver candidate 500 0)) = .ok (some reviews) ∧
      ∃ r ∈ reviews, r.decision = .approve
  critiques : pol.require_review = some true → ∃ critiques,
    replies.critiques.body (some (registry.list_critiques .improver candidate .open 500 0)) = .ok critiques ∧ critiques.getD [] = []

/-- Nothing that the promotion is told keeps it from landing. -/
structure Unobstructed (args : PromoteArguments) (pol : ImproverPolicy) (candidate : String) : Prop where
  named : promote_candidate repo args = some candidate
  lands : args.dry_run = false
  unfrozen : project_frozen registry replies repo = false
  online : replies.health.ok = true
  allowed : Allowed H tools registry replies repo pol candidate

/-- An open critique stands, and the request for the open critiques ends in an error status. -/
def Unheard (pol : ImproverPolicy) (candidate : String) : Prop := pol.require_review = some true ∧
  OpenCritique registry candidate ∧ ∃ code not_ok, replies.critiques = .failed code not_ok

/-- The repository has a file of its own under the manifest's name, and the registry's is not signed. -/
def Overruled (pol : ImproverPolicy) (candidate : String) : Prop := pol.require_signature = some true ∧
  ¬SignedManifest tools registry candidate ∧ ∃ row manifest, registry.improvers.get? candidate = some row ∧
    read_object tools repo.objects row.manifest_object_id = .ok (some manifest)

variable {H tools registry replies repo} {candidate : String} {pol : ImproverPolicy} {args : PromoteArguments}

theorem rule_then_iff {armed : Option Bool} {denial next : Except Aborted (Option Denial)} :
    rule_then armed denial next = .ok none ↔ (armed = some true → denial = .ok none) ∧ next = .ok none := by
  unfold rule_then
  cases armed with
  | none => simp
  | some on =>
    cases on with
    | false => simp
    | true =>
      rw [Option.getD_some,if_pos rfl]
      split
      · simp
      · rename_i other
        constructor
        · intro allowed
          exact absurd allowed other
        · intro both
          exact absurd (both.1 rfl) other

theorem canary_denial_iff (project_id : String) : canary_denial registry replies project_id candidate = .ok none ↔
    latest_canary_passed registry replies project_id candidate = .ok true := by
  unfold canary_denial
  cases latest_canary_passed registry replies project_id candidate with
  | error _ => simp [Except.map]
  | ok passed => cases passed <;> simp [Except.map]

theorem signature_denial_iff : signature_denial H tools registry replies repo candidate = .ok none ↔ ∃ manifest,
    improver_manifest H tools registry replies repo candidate = .ok manifest ∧ verify_object tools manifest = .ok .verified := by
  unfold signature_denial
  cases improver_manifest H tools registry replies repo candidate with
  | error _ => simp [bind,Except.bind]
  | ok manifest =>
    simp only [bind,Except.bind,Except.ok.injEq,exists_eq_left']
    cases verify_object tools manifest with
    | error _ => simp
    | ok verdict => by_cases good : verdict = .verified <;> simp [good]

theorem review_denial_iff : review_denial registry replies candidate = .ok none ↔
    (∃ reviews, replies.reviews.body (some (registry.list_reviews .improver candidate 500 0)) = .ok (some reviews) ∧
      ∃ r ∈ reviews, r.decision = .approve) ∧
    ∃ critiques, replies.critiques.body (some (registry.list_critiques .improver candidate .open 500 0)) = .ok critiques ∧
      critiques.getD [] = [] := by
  unfold review_denial
  cases replies.reviews.body (some (registry.list_reviews .improver candidate 500 0)) with
  | error _ => simp [bind,Except.bind]
  | ok reviews =>
    simp only [bind,Except.bind]
    cases reviews with
    | none => simp
    | some reviews =>
      by_cases approved : ∃ r ∈ reviews, r.decision = .approve
      · have found : (reviews.any fun r => decide (r.decision = .approve)) = true := by simpa using approved
        simp only [Option.getD_some,found,Bool.not_true,Bool.false_eq_true,if_false]
        cases replies.critiques.body (some (registry.list_critiques .improver candidate .open 500 0)) with
        | error _ => simp
        | ok critiques =>
          dsimp only
          split
          · rename_i empty
            simp [empty,approved]
          · rename_i some_open
            have shown : critiques.getD [] ≠ [] := some_open
            simp [shown]
      · have missing : (reviews.any fun r => decide (r.decision = .approve)) = false := by simpa using approved
        simp [missing,approved]

theorem evaluate_iff : evaluate_improver_policy H tools registry replies repo pol candidate = .ok none ↔
    Allowed H tools registry replies repo pol candidate := by
  unfold evaluate_improver_policy
  rw [rule_then_iff,rule_then_iff,rule_then_iff,canary_denial_iff,signature_denial_iff,review_denial_iff]
  constructor
  · intro passes
    obtain ⟨canary,signature,review,-⟩ := passes
    exact ⟨canary,signature,fun on => (review on).1,fun on => (review on).2⟩
  · intro allowed
    exact ⟨allowed.canary,allowed.signature,fun on => ⟨allowed.review on,allowed.critiques on⟩,rfl⟩

theorem promoted_iff {into_branch : String} {arg : Option String} {dry_run : Bool}
    (armed : armed_policy repo into_branch = some pol) :
    (improver_promote H tools registry replies repo ⟨arg,into_branch,false,dry_run⟩).1 = .promoted candidate ↔
      Unobstructed H tools registry replies repo ⟨arg,into_branch,false,dry_run⟩ pol candidate := by
  have decides (c : String) : promotion_decision H tools registry replies repo ⟨arg,into_branch,false,dry_run⟩ c =
      if !replies.health.ok then .error .aborted else evaluate_improver_policy H tools registry replies repo pol c := by
    simp [promotion_decision,armed]
  constructor
  · intro landed
    unfold improver_promote at landed
    split at landed
    · contradiction
    · rename_i c named
      rw [decides] at landed
      split at landed
      · contradiction
      · rename_i denial decision
        split at landed
        · contradiction
        · rename_i lands
          split at landed
          · contradiction
          · rename_i unfrozen
            split at landed
            · contradiction
            · cases landed
              split at decision
              · contradiction
              · rename_i online
                exact ⟨named,by simpa using lands,by simpa using unfrozen,by simpa using online,evaluate_iff.mp decision⟩
  · intro free
    have decision : promotion_decision H tools registry replies repo ⟨arg,into_branch,false,dry_run⟩ candidate = .ok none := by
      rw [decides,free.online]
      exact evaluate_iff.mpr free.allowed
    have lands : dry_run = false := free.lands
    subst lands
    unfold improver_promote
    rw [free.named]
    dsimp only
    rw [decision]
    simp [free.unfrozen]

/-! Each rule on its own. -/

theorem body_some {α : Type} {reply : Reply} {answer : Option α} {a : α} (received : reply.body answer = .ok (some a)) :
    reply = .answered ∧ answer = some a := by
  cases reply with
  | answered => exact ⟨rfl,Except.ok.inj received⟩
  | failed code not_ok => cases received
  | raised => cases received

theorem bind_ok {α β : Type} {x : Except Aborted α} {f : α → Except Aborted β} {b : β} (ran : (x >>= f) = .ok b) :
    ∃ a, x = .ok a ∧ f a = .ok b := by
  cases x with
  | error e => cases ran
  | ok a => exact ⟨a,rfl,ran⟩

theorem downloaded {oid : String} {bytes : Bytes} (received : download_object H registry replies oid = .ok (some bytes)) :
    registry.objects.get? oid = some bytes := by
  unfold download_object at received
  split at received
  · exact (Option.filter_eq_some_iff.mp (Except.ok.inj received)).1
  · split at received <;> cases received
  · cases received

theorem promote_candidate_nonempty (named : promote_candidate repo args = some candidate) : candidate ≠ "" := by
  unfold promote_candidate current_improver_id at named
  cases given : args.candidate.filter (· ≠ "") with
  | some text =>
    rw [given,Option.some_or] at named
    cases named
    simpa using (Option.filter_eq_some_iff.mp given).2
  | none =>
    rw [given,Option.none_or] at named
    simpa using (Option.filter_eq_some_iff.mp named).2

theorem canary_holds {project_id : String} (nonempty : candidate ≠ "")
    (passed : latest_canary_passed registry replies project_id candidate = .ok true) :
    ∃ latest, LatestCanary registry project_id candidate latest ∧ latest.passed = true := by
  unfold latest_canary_passed at passed
  cases received : replies.canary_results.body (some (registry.list_canary_results project_id candidate 1 0)) with
  | error _ =>
    rw [received] at passed
    cases passed
  | ok rows =>
    rw [received] at passed
    cases rows with
    | none => cases passed
    | some rows =>
      cases (body_some received).2
      simp only [Except.map,Option.bind_some,Except.ok.injEq,Option.any_eq_true] at passed
      obtain ⟨latest,first,passed⟩ := passed
      obtain ⟨member,newer⟩ := newest_head first
      obtain ⟨stored,selected⟩ := List.mem_filter.mp member
      simp only [Bool.and_eq_true,asked_for_iff nonempty] at selected
      refine ⟨latest,⟨stored,selected.1,selected.2,?_⟩,passed⟩
      intro other there in_project of_candidate
      apply newer other
      rw [List.mem_filter]
      simp [there,in_project,asked_for_iff nonempty,of_candidate]

theorem review_holds (nonempty : candidate ≠ "") {reviews : List DBReview}
    (answer : replies.reviews.body (some (registry.list_reviews .improver candidate 500 0)) = .ok (some reviews))
    {r : DBReview} (shown : r ∈ reviews) :
    r ∈ registry.reviews ∧ r.target_type = .improver ∧ r.target_id = candidate := by
  cases (body_some answer).2
  obtain ⟨stored,selected⟩ := List.mem_filter.mp (mem_of_newest shown)
  simp only [Bool.and_eq_true,decide_eq_true_eq,asked_for_iff nonempty] at selected
  exact ⟨stored,selected.1,selected.2⟩

/-- An answered list of open critiques is empty only if there are none. -/
theorem critiques_hold (nonempty : candidate ≠ "") {critiques : Option (List DBCritique)}
    (answer : replies.critiques.body (some (registry.list_critiques .improver candidate .open 500 0)) = .ok critiques)
    (empty : critiques.getD [] = []) (stands : OpenCritique registry candidate) :
    ∃ code not_ok, replies.critiques = .failed code not_ok := by
  cases reply : replies.critiques with
  | raised =>
    rw [reply] at answer
    cases answer
  | failed code not_ok => exact ⟨code,not_ok,rfl⟩
  | answered =>
    rw [reply] at answer
    cases answer
    obtain ⟨critique,stored,of_type,of_candidate,status⟩ := stands
    have none_selected := (newest_eq_nil (by decide)).mp empty
    have selected : critique ∈ registry.critiques.filter fun r =>
        r.target_type = .improver && asked_for candidate r.target_id && r.status = .open := by
      simp [List.mem_filter,stored,of_type,of_candidate,status,asked_for_iff nonempty]
    rw [none_selected] at selected
    contradiction

/-- A manifest that verifies is the registry's, unless the repository has a file of that name. -/
theorem manifest_holds {manifest : Option JsonValue} (read : improver_manifest H tools registry replies repo candidate = .ok manifest)
    (verified : verify_object tools manifest = .ok .verified) : SignedManifest tools registry candidate ∨
      ∃ row manifest, registry.improvers.get? candidate = some row ∧
        read_object tools repo.objects row.manifest_object_id = .ok (some manifest) := by
  have unsigned : manifest ≠ none := by
    intro absent
    rw [absent] at verified
    have impossible : (Except.ok .unsigned : Except Aborted Verdict) = .ok .verified := verified
    cases impossible
  unfold improver_manifest at read
  obtain ⟨row,received,read⟩ := bind_ok read
  cases row with
  | none =>
    cases read
    exact absurd rfl unsigned
  | some row =>
    have found := (body_some received).2
    obtain ⟨mine,here,read⟩ := bind_ok read
    cases mine with
    | some mine => exact .inr ⟨row,mine,found,here⟩
    | none =>
      obtain ⟨body,received,read⟩ := bind_ok read
      cases body with
      | none =>
        cases read
        exact absurd rfl unsigned
      | some bytes =>
        dsimp only [read_object] at read
        rw [Dict.get?_set_same] at read
        dsimp only at read
        split at read
        · cases read
          exact absurd rfl unsigned
        · rename_i v not_null parsed
          cases read
          exact .inl ⟨row,bytes,v,found,downloaded received,parsed,verified⟩
        · cases read
          exact absurd rfl unsigned
        · cases read

variable (H tools registry replies repo)

/-- An unforced promotion means that the armed rules hold of the registry, unless nothing else obstructs it
while an open critique goes unheard or a file of the repository stands in for an unsigned manifest. -/
theorem promotion_sound_iff (arg : Option String) (into_branch : String) (dry_run : Bool) (candidate : String) (pol : ImproverPolicy)
    (armed : armed_policy repo into_branch = some pol) :
    ((improver_promote H tools registry replies repo ⟨arg,into_branch,false,dry_run⟩).1 = .promoted candidate →
        RulesHold tools registry repo.project_id pol candidate) ↔
      ¬(Unobstructed H tools registry replies repo ⟨arg,into_branch,false,dry_run⟩ pol candidate ∧
        (Unheard registry replies pol candidate ∨ Overruled tools registry repo pol candidate)) := by
  rw [promoted_iff armed]
  constructor
  · intro sound slipped
    have rules := sound slipped.1
    cases slipped.2 with
    | inl unheard => exact rules.critiques unheard.1 unheard.2.1
    | inr overruled => exact overruled.2.1 (rules.signature overruled.1)
  · intro careful free
    have nonempty := promote_candidate_nonempty free.named
    constructor
    · intro on
      exact canary_holds nonempty (free.allowed.canary on)
    · intro on
      obtain ⟨manifest,read,verified⟩ := free.allowed.signature on
      by_contra unsigned
      cases manifest_holds read verified with
      | inl signed => exact unsigned signed
      | inr local_copy => exact careful ⟨free,.inr ⟨on,unsigned,local_copy⟩⟩
    · intro on
      obtain ⟨reviews,answer,r,shown,approve⟩ := free.allowed.review on
      obtain ⟨stored,of_type,of_candidate⟩ := review_holds nonempty answer shown
      exact ⟨r,stored,of_type,of_candidate,approve⟩
    · intro on stands
      obtain ⟨critiques,answer,empty⟩ := free.allowed.critiques on
      exact careful ⟨free,.inl ⟨on,stands,critiques_hold nonempty answer empty stands⟩⟩

end Gate

/-! A critique that stands when the gate asks for a review. -/

section Standing

def reviewed : GateRegistry where
  canary_results := []
  improvers := ∅
  objects := ∅
  reviews := [⟨"r",.improver,"v1",some "reviewer",.approve,none,ChangeSets.noon⟩]
  critiques := [⟨"c",.improver,"v1",some "critic","regresses",.open,none,ChangeSets.noon⟩]
  frozen := []

/-- All is answered but the request for the open critiques. -/
def one_error : Replies := ⟨.answered,.answered,.answered,.answered,.answered,.failed 500 (by decide),.answered,.answered⟩

def review_required : ImproverPolicy := ⟨none,none,some true⟩

def candidate_repo : PromoteRepo := ⟨.holds (Dict.ofList [("main",review_required)]),some "v1","p",∅,∅⟩

def plain_tools : GateTools Unit := ⟨fun _ => .value_error,none⟩

theorem open_critique_stands : OpenCritique reviewed "v1" := by
  refine ⟨_,List.mem_singleton_self _,rfl,rfl,rfl⟩

theorem promotion_sound_one_error :
    ((improver_promote Name plain_tools reviewed one_error candidate_repo ⟨none,"main",false,false⟩).1 = .promoted "v1" →
        RulesHold plain_tools reviewed candidate_repo.project_id review_required "v1") ↔
      ¬(Unobstructed Name plain_tools reviewed one_error candidate_repo ⟨none,"main",false,false⟩ review_required "v1" ∧
        (Unheard reviewed one_error review_required "v1" ∨ Overruled plain_tools reviewed candidate_repo review_required "v1")) :=
  promotion_sound_iff Name plain_tools reviewed one_error candidate_repo none "main" false "v1" review_required rfl

theorem unheard_critique_promotes : armed_policy candidate_repo "main" = some review_required ∧
    (improver_promote Name plain_tools reviewed one_error candidate_repo ⟨none,"main",false,false⟩).1 = .promoted "v1" ∧
    ¬RulesHold plain_tools reviewed candidate_repo.project_id review_required "v1" := by
  refine ⟨rfl,rfl,fun rules => ?_⟩
  exact rules.critiques rfl open_critique_stands

end Standing

end AetherVault.Improvers
