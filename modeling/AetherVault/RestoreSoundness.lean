import AetherVault.RegistryArchive
import AetherVault.SignatureSurvival
import AetherVault.Lib.Resumable
import AetherVault.Lib.Runs

/-! What a registry holds after a restore that reports no failure, over any history of one archive
directory. -/
namespace AetherVault.RegistryArchive
open Lib Hashing
open Lib.Prog (call Only)
open Lib.Discipline (Meets)

variable {H : Type} [DecidableEq H] [Hashing H]

/-! What the requests of a restore leave in the registry. -/

section Upload

variable (config : ServerConfig) (tenant : Tenant) (h : H) (content : Bytes)

/-- The statements of an upload: of the rows it inserts its own at most. -/
def Uploads (β : Type) (q : Query H β) : Prop :=
  match q with
  | .insert_object t g _ => t = tenant ∧ g = h
  | .insert_commit _ _ _ | .delete_objects _ | .delete_trees _ | .commit => False
  | _ => True

omit [DecidableEq H] [Hashing H] in
theorem check_hash_uploads (cas_tenant_id : Option Tenant) (g : H) :
    (RedisCache.check_hash_exists cas_tenant_id g).Only (Uploads tenant h) := by
  have own (hashes : List H) : (RedisCache.tenant_hits cas_tenant_id hashes).Only (Uploads tenant h) := by
    unfold RedisCache.tenant_hits
    split
    · exact .call trivial
    · trivial
  have shared (hashes : List H) : (RedisCache.global_hits hashes).Only (Uploads tenant h) := by
    unfold RedisCache.global_hits
    split
    · trivial
    · exact .call trivial
  exact .bind (own _) fun _ => .bind (shared _) fun _ => trivial

omit [DecidableEq H] [Hashing H] in
theorem find_objects_uploads (cas_tenant_id : Option Tenant) (hashes : List H) :
    (find_objects cas_tenant_id hashes).Only (Uploads tenant h) := by
  unfold find_objects
  split
  · trivial
  · exact .call trivial

theorem store_object_uploads (cas_tenant_id : Option Tenant) :
    (store_object config cas_tenant_id h content).Only (Uploads tenant h) := by
  apply Only.bind (.call trivial)
  intro found
  split
  · trivial
  · split
    · trivial
    · split
      · trivial
      · exact .call trivial

theorem upload_uploads (declared : Bool) : (upload_object config tenant h content declared).Only (Uploads tenant h) := by
  have stores : (store_upload config tenant h content).Only (Uploads tenant h) := by
    apply Only.bind (store_object_uploads config tenant h content _)
    intro _
    apply Only.bind (.call trivial)
    intro stat
    cases stat with
    | none => trivial
    | some stat => exact Only.bind (.call ⟨rfl,rfl⟩) fun _ => (Only.call trivial).bind fun _ => trivial
  apply Only.bind (check_hash_uploads tenant h _ h)
  intro might_exist
  apply Only.bind (find_objects_uploads tenant h _ _)
  intro rows
  split
  · trivial
  · split
    · trivial
    · split
      · trivial
      · exact stores.attempt fun e => trivial

/-- No row but the object's own is another one. -/
structure Apart (tenant : Tenant) (h : H) (r t : Registry H) : Prop where
  objects : ∀ key, key ≠ (tenant,h) → t.objects.get? key = r.objects.get? key
  commits : t.commits = r.commits

omit [Hashing H] in
theorem Apart.exec {tenant : Tenant} {h : H} {r t : Registry H} (apart : Apart tenant h r t) {β : Type} {q : Query H β}
    (uploads : Uploads tenant h β q) (m : Moment H) : Apart tenant h r (Registry.exec 0 β m q t).2 := by
  cases q with
  | insert_object other g size =>
    obtain ⟨rfl,rfl⟩ := uploads
    unfold Registry.exec Registry.insert_object
    dsimp only
    split
    · exact apart
    · exact ⟨fun key differ => (Dict.get?_set_other _ _ _ _ differ).trans (apart.objects key differ),apart.commits⟩
  | insert_commit rows g row => exact uploads.elim
  | delete_objects _ => exact uploads.elim
  | delete_trees _ => exact uploads.elim
  | commit => exact uploads.elim
  | _ => exact ⟨apart.objects,apart.commits⟩

omit [Hashing H] in
theorem Apart.run {tenant : Tenant} {h : H} {α : Type} {p : Handler H α} (only : p.Only (Uploads tenant h))
    (policy : Registry H → Moment H) {r t : Registry H} (apart : Apart tenant h r t) :
    Apart tenant h r (p.run (Registry.exec 0) policy t).2 := by
  induction p generalizing t with
  | pure a => exact apart
  | fail e => exact apart
  | op q next ih => exact ih _ (only.2 _) (apart.exec only.1 _)

/-- A row that the registry's existence checks find. -/
def HasObject (config : ServerConfig) (tenant : Tenant) (r : Registry H) (h : H) : Prop :=
  r.select_objects (config.cas_isolation.cas_tenant_id tenant) [h] ≠ []

omit [Hashing H] in
theorem hasObject_iff (r : Registry H) (g : H) : HasObject config tenant r g ↔
    ∃ owner, r.objects.contains (owner,g) = true ∧ (config.cas_isolation.cas_tenant_id tenant).all (· == owner) = true := by
  have listed (key : Tenant × H) : key ∈ r.objects.keys ↔ r.objects.contains key = true := by
    rw [Dict.mem_keys,Dict.contains_iff]
  unfold HasObject Registry.select_objects
  rw [ne_eq,List.map_eq_nil_iff,List.filter_eq_nil_iff]
  constructor
  · intro some_row
    by_contra none
    apply some_row
    intro key member found
    obtain ⟨owner,other⟩ := key
    simp only [List.contains_cons,List.contains_nil,Bool.or_false,Bool.and_eq_true,beq_iff_eq] at found
    obtain ⟨rfl,owned⟩ := found
    exact none ⟨owner,(listed _).mp member,owned⟩
  · intro found none
    obtain ⟨owner,there,owned⟩ := found
    exact none (owner,g) ((listed _).mpr there) (by simpa using owned)

omit [Hashing H] in
theorem Apart.hasObject_iff {r t : Registry H} (apart : Apart tenant h r t) {g : H} (differ : g ≠ h) :
    HasObject config tenant t g ↔ HasObject config tenant r g := by
  rw [RegistryArchive.hasObject_iff,RegistryArchive.hasObject_iff]
  apply exists_congr
  intro owner
  have other : (owner,g) ≠ (tenant,h) := fun same => differ (Prod.mk.inj same).2
  rw [Dict.contains,Dict.contains,apart.objects _ other]

omit [Hashing H] in
theorem inserted_has (m : Moment H) (size : Nat) (r : Registry H) :
    HasObject config tenant (Registry.exec 0 _ m (.insert_object tenant h size) r).2 h := by
  rw [hasObject_iff]
  refine ⟨tenant,?_,?_⟩
  · unfold Registry.exec Registry.insert_object
    dsimp only
    split
    · assumption
    · rw [Dict.contains,Dict.get?_set_same]
      rfl
  · cases config.cas_isolation with
    | shared => rfl
    | isolated => exact beq_self_eq_true tenant

omit [Hashing H] in
theorem meets_anything {α : Type} (p : Handler H α) (r : Registry H) :
    (Registry.alone 0 anytime).Meets p (fun _ _ => True) r := by
  induction p generalizing r with
  | pure a => trivial
  | fail e => trivial
  | op q next ih => exact fun m t _ _ _ => ⟨trivial,ih _ _⟩

/-- What an upload answers with 201 or 409 has a row. -/
def Left (config : ServerConfig) (tenant : Tenant) (h : H) (done : Except ServerError Nat) (t : Registry H) : Prop :=
  done = .ok 201 ∨ done = .ok 409 → HasObject config tenant t h

omit [Hashing H] in
theorem left_error (e : ServerError) (t : Registry H) : Left config tenant h (.error e) t := by
  intro taken
  cases taken <;> contradiction

omit [Hashing H] in
theorem left_code {code : Nat} (other : code ≠ 201 ∧ code ≠ 409) (t : Registry H) : Left config tenant h (.ok code) t := by
  intro taken
  cases taken with
  | inl same => exact absurd (Except.ok.inj same) other.1
  | inr same => exact absurd (Except.ok.inj same) other.2

theorem store_upload_leaves (r : Registry H) :
    (Registry.alone 0 anytime).Meets ((store_upload config tenant h content).attempt fun e => .pure e.status_code)
      (Left config tenant h) r := by
  apply Meets.attempt
  apply Meets.bind
  apply (meets_anything _ r).mono
  intro stored t _
  cases stored with
  | error e =>
    have other : e.status_code ≠ 201 ∧ e.status_code ≠ 409 := by cases e <;> decide
    exact left_code config tenant h other t
  | ok _ =>
    refine registry_read (b := (t.files.get? (config.cas_isolation.cas_tenant_id tenant,h)).map fun file =>
      (file.content.length,file.mtime)) (fun m => rfl) ?_
    cases (t.files.get? (config.cas_isolation.cas_tenant_id tenant,h)).map fun file => (file.content.length,file.mtime) with
    | none =>
      have other : ServerError.file_not_found.status_code ≠ 201 ∧ ServerError.file_not_found.status_code ≠ 409 := by decide
      exact left_code config tenant h other t
    | some stat =>
      apply Meets.bind
      apply registry_call
      intro m _
      apply Meets.bind
      apply registry_call
      intro later _ _
      exact inserted_has config tenant h m stat.1 t

theorem upload_leaves (declared : Bool) (r : Registry H) : (Registry.alone 0 anytime).Meets
    (upload_object config tenant h content declared) (Left config tenant h) r := by
  apply Meets.bind
  apply (meets_anything _ r).mono
  intro checked t _
  cases checked with
  | error e => exact left_error config tenant h e t
  | ok might_exist =>
    have rest (rows : List H) (found : rows = [] ∨ rows = t.select_objects (config.cas_isolation.cas_tenant_id tenant) [h]) :
        (Registry.alone 0 anytime).Meets (if rows.length > 1 then .fail .multiple_results_found
          else if rows ≠ [] then .pure 409
          else if config.max_upload_bytes > 0 ∧ declared ∧ content.length > config.max_upload_bytes then .pure 413
          else (store_upload config tenant h content).attempt fun e => .pure e.status_code) (Left config tenant h) t := by
      split
      · exact left_error config tenant h _ t
      · split
        · rename_i some_row
          intro _
          cases found with
          | inl none => exact absurd none some_row
          | inr same =>
            rw [same] at some_row
            exact some_row
        · split
          · exact left_code config tenant h (by decide) t
          · exact store_upload_leaves config tenant h content t
    cases might_exist with
    | false => exact rest [] (Or.inl rfl)
    | true =>
      apply Meets.bind
      apply registry_call
      intro m _
      exact rest _ (Or.inr rfl)

theorem upload_has (declared : Bool) (policy : Registry H → Moment H) (r : Registry H) :
    Left config tenant h ((upload_object config tenant h content declared).run (Registry.exec 0) policy r).1
      ((upload_object config tenant h content declared).run (Registry.exec 0) policy r).2 :=
  registry_run (upload_leaves config tenant h content declared r) policy

end Upload

section Push

variable [TreeContent H]

/-- A push is answered with 409 for a commit that is there. -/
theorem push_conflict (config : ServerConfig) (tenant : Tenant) (rejected : Bool) (h : H) (data : CommitData H)
    (policy : Registry H → Moment H) (r : Registry H)
    (known : ((push_commit config tenant rejected h data).run (Registry.exec 0) policy r).1 = .ok 409) :
    r.commits.contains h = true := by
  have meets : (Registry.alone 0 anytime).Meets (push_commit config tenant rejected h data)
      (fun done _ => done = .ok 409 → r.commits.contains h = true) r := by
    refine registry_read (b := r.commits.contains h) (fun m => rfl) ?_
    by_cases there : r.commits.contains h = true
    · rw [if_pos there]
      exact fun _ => there
    · rw [if_neg there]
      by_cases refused : rejected = true
      · rw [if_pos refused]
        exact fun same => absurd (Except.ok.inj same) (by decide)
      · rw [if_neg refused]
        cases flat_tree data.tree with
        | none => exact fun same => absurd (Except.ok.inj same) (by decide)
        | some raw =>
          refine .attempt (.bind ((build_grown (config.cas_isolation.cas_scope tenant)).mono ?_))
          intro done t built
          obtain ⟨rfl,-⟩ := built
          cases done with
          | error e => exact fun same => absurd (Except.ok.inj same) (by cases e <;> decide)
          | ok done =>
            apply Meets.bind
            apply registry_call
            intro m _
            unfold Registry.exec Registry.insert_commit
            dsimp only
            split
            · refine registry_read (b := t.commits.contains h) (fun m => rfl) ?_
              rw [if_neg there]
              exact fun same => absurd (Except.ok.inj same) (by decide)
            · exact fun same => absurd (Except.ok.inj same) (by decide)
  exact registry_run meets policy known

end Push

section Requests

variable [TreeContent H] [HexText H] (d : Deployment) (policy : Registry H → Moment H) (v : Vault H)

def Vault.HasObject (h : H) : Prop := RegistryArchive.HasObject d.config d.tenant v.ledger.registry h

def Vault.HasCommit (h : H) : Prop := v.ledger.registry.commits.contains h = true

omit [DecidableEq H] [Hashing H] [TreeContent H] [HexText H] in
theorem status_code_ok {r : Except ServerError Nat} {code : Nat} (own : ∀ e : ServerError, e.status_code ≠ code)
    (same : status_code r = code) : r = .ok code := by
  cases r with
  | ok other => exact congrArg _ same
  | error e => exact absurd same (own e)

theorem created_ok {r : Except ServerError Nat} (same : status_code r = 201) : r = .ok 201 :=
  status_code_ok (fun e => by cases e <;> decide) same

theorem conflict_ok {r : Except ServerError Nat} (same : status_code r = 409) : r = .ok 409 :=
  status_code_ok (fun e => by cases e <;> decide) same

theorem taken_cases {code : Nat} (taken : code ∈ [201,409]) : code = 201 ∨ code = 409 := by
  cases List.mem_cons.mp taken with
  | inl same => exact Or.inl same
  | inr rest => exact Or.inr (List.mem_singleton.mp rest)

omit [TreeContent H] [HexText H] in
theorem post_object_taken (h : H) (content : Bytes) (taken : (post_object d policy v h content).1 ∈ [201,409]) :
    Vault.HasObject d (post_object d policy v h content).2 h := by
  apply upload_has d.config d.tenant h content true policy v.ledger.registry
  cases taken_cases taken with
  | inl created => exact Or.inl (created_ok created)
  | inr known => exact Or.inr (conflict_ok known)

omit [TreeContent H] [HexText H] in
theorem post_object_apart (h : H) (content : Bytes) :
    Apart d.tenant h v.ledger.registry (post_object d policy v h content).2.ledger.registry :=
  Apart.run (upload_uploads d.config d.tenant h content true) policy ⟨fun _ _ => rfl,rfl⟩

theorem post_commit_ledger (now : Datetime) (c : Commit H) : (post_commit d policy v now c).2.ledger =
    (v.ledger.push_commit d.config d.limits 0 policy ⟨d.tenant,d.username,now,c⟩).2 := by
  unfold post_commit
  dsimp only
  split
  · cases linked_run c.payload.run_id <;> rfl
  · rfl

theorem post_commit_refs (now : Datetime) (c : Commit H) : (post_commit d policy v now c).2.refs = v.refs := by
  unfold post_commit
  dsimp only
  split
  · cases linked_run c.payload.run_id <;> rfl
  · rfl

theorem post_commit_taken (now : Datetime) (c : Commit H) (taken : (post_commit d policy v now c).1 ∈ [201,409]) :
    Vault.HasCommit (post_commit d policy v now c).2 c.hash := by
  unfold Vault.HasCommit
  rw [post_commit_ledger]
  cases Ledger.push_commit_cases d.config d.limits 0 policy v.ledger ⟨d.tenant,d.username,now,c⟩ with
  | inl refused =>
    rw [refused.1]
    cases taken_cases taken with
    | inl created => exact absurd (created_ok created) refused.2
    | inr known =>
      have conflict := conflict_ok known
      unfold Ledger.push_commit at conflict
      dsimp only at conflict
      split at conflict
      · split at conflict
        · assumption
        · split at conflict <;> cases conflict
      · exact push_conflict d.config d.tenant _ c.hash _ policy v.ledger.registry conflict
  | inr stored =>
    obtain ⟨columns,raw,listing,created,dirs,-,-,-,-,-,-,-,same⟩ := stored
    rw [same]
    dsimp only
    rw [Dict.contains,Dict.get?_set_same]
    rfl

theorem post_commit_commits (now : Datetime) (c : Commit H) {g : H} (differ : g ≠ c.hash) :
    Vault.HasCommit (post_commit d policy v now c).2 g ↔ v.HasCommit g := by
  unfold Vault.HasCommit
  rw [post_commit_ledger]
  cases Ledger.push_commit_cases d.config d.limits 0 policy v.ledger ⟨d.tenant,d.username,now,c⟩ with
  | inl refused => rw [refused.1]
  | inr stored =>
    obtain ⟨columns,raw,listing,created,dirs,-,-,-,-,-,-,-,same⟩ := stored
    rw [same]
    dsimp only
    rw [Dict.contains,Dict.get?_set_other _ _ _ _ differ]
    rfl

theorem post_commit_objects (now : Datetime) (c : Commit H) :
    (post_commit d policy v now c).2.ledger.registry.objects = v.ledger.registry.objects := by
  rw [post_commit_ledger]
  cases Ledger.push_commit_cases d.config d.limits 0 policy v.ledger ⟨d.tenant,d.username,now,c⟩ with
  | inl refused => rw [refused.1]
  | inr stored =>
    obtain ⟨columns,raw,listing,created,dirs,-,-,-,-,-,-,-,same⟩ := stored
    rw [same]

omit [TreeContent H] [HexText H] [Hashing H] [DecidableEq H] in
theorem put_ref_ledger (name : String) (h : H) : (put_ref v name h).2.ledger = v.ledger := by
  unfold put_ref
  split <;> rfl

omit [TreeContent H] [HexText H] [Hashing H] [DecidableEq H] in
theorem put_ref_taken {name : String} {h : H} (taken : (put_ref v name h).1 ∈ [200]) :
    (put_ref v name h).2.refs.rows.get? name = some h := by
  unfold put_ref at taken ⊢
  split
  · exact Dict.get?_set_same _ _ _
  · rename_i invalid
    rw [dif_neg invalid] at taken
    contradiction

omit [TreeContent H] [HexText H] [Hashing H] [DecidableEq H] in
theorem put_ref_other {name other : String} (h : H) (differ : other ≠ name) :
    (put_ref v name h).2.refs.rows.get? other = v.refs.rows.get? other := by
  unfold put_ref
  split
  · exact Dict.get?_set_other _ _ _ _ differ
  · rfl

end Requests

/-! The loops. -/

section Loops

variable [TreeContent H] [HexText H] {d : Deployment} {ι : Type} {listed : Progress H → ι → Prop} {held : Vault H → ι → Prop}
  {items : List ι} {s t : Restoring H} {x : ι}

/-- A turn of a loop, for an item that the record lists and one that the registry holds. -/
abbrev Turned (listed : Progress H → ι → Prop) (held : Vault H → ι → Prop) (items : List ι) : Restoring H → ι → Restoring H → Prop :=
  Resumable.Turn (fun s => listed s.progress) (fun s => held s.vault) (fun s => s.summary.failed) items

omit [DecidableEq H] [Hashing H] [TreeContent H] [HexText H] in
theorem turned_skip (same_progress : t.progress = s.progress) (same_vault : t.vault = s.vault)
    (same_failed : t.summary.failed = s.summary.failed) (before : listed s.progress x) : Turned listed held items s x t where
  stays := by
    intro y _ settled
    rw [same_progress,same_vault]
    exact ⟨settled,Iff.rfl⟩
  settles := by
    intro y _ settled
    rw [same_progress] at settled
    exact Or.inl settled
  done := fun quiet => ⟨same_failed ▸ quiet,Or.inl before⟩

omit [DecidableEq H] [Hashing H] [TreeContent H] [HexText H] in
theorem turned_fail (same_progress : t.progress = s.progress)
    (stays : ∀ y ∈ items, listed s.progress y → (held t.vault y ↔ held s.vault y)) (failed : t.summary.failed ≠ 0) :
    Turned listed held items s x t where
  stays := by
    intro y member settled
    rw [same_progress]
    exact ⟨settled,stays y member settled⟩
  settles := by
    intro y _ settled
    rw [same_progress] at settled
    exact Or.inl settled
  done := fun quiet => absurd quiet failed

omit [DecidableEq H] [Hashing H] [TreeContent H] [HexText H] in
/-- A request for an item that is not listed: it leaves the listed ones alone, and what it takes is held and listed. -/
theorem turned_send {answer : Answer} {done : Nat × Vault H} {takes : List Nat} {mark : Restoring H → Restoring H}
    (ran : s.send answer done takes mark = .ok t)
    (stays : ∀ y ∈ items, listed s.progress y → (held done.2 y ↔ held s.vault y))
    (marks : (mark {s with vault := done.2}).vault = done.2 ∧
      (mark {s with vault := done.2}).summary.failed = s.summary.failed ∧ listed (mark {s with vault := done.2}).progress x ∧
      ∀ y ∈ items, listed s.progress y → listed (mark {s with vault := done.2}).progress y)
    (adds : done.1 ∈ takes → held done.2 x ∧
      ∀ y ∈ items, listed (mark {s with vault := done.2}).progress y → listed s.progress y ∨ held done.2 y) :
    Turned listed held items s x t := by
  obtain ⟨vault,failed,mine,keeps⟩ := marks
  unfold Restoring.send at ran
  cases answer with
  | answered =>
    obtain rfl := Except.ok.inj ran
    split
    · rename_i taken
      obtain ⟨held_now,only⟩ := adds taken
      refine ⟨fun y member settled => ⟨keeps y member settled,?_⟩,fun y member settled => ?_,fun quiet => ⟨failed ▸ quiet,Or.inr ?_⟩⟩
      · rw [vault]
        exact stays y member settled
      · rw [vault]
        exact only y member settled
      · rw [vault]
        exact ⟨held_now,mine⟩
    · exact turned_fail rfl stays (Nat.succ_ne_zero _)
  | turned_down applied =>
    obtain rfl := Except.ok.inj ran
    refine turned_fail rfl ?_ (Nat.succ_ne_zero _)
    intro y member settled
    cases applied with
    | true => exact stays y member settled
    | false => exact Iff.rfl
  | interrupted applied => cases ran

omit [TreeContent H] [HexText H] in
theorem restore_object_turn {shards : Dict H Bytes} (items : List ((H × Bool) × Choice H)) {item : (H × Bool) × Choice H}
    (ran : restore_object d shards s item = .ok t) :
    Turned (fun p item => item.1.1 ∈ p.completed_objects) (fun v item => Vault.HasObject d v item.1.1) items s item t := by
  unfold restore_object at ran
  dsimp only at ran
  split at ran
  · rename_i before
    obtain rfl := Except.ok.inj ran
    exact turned_skip rfl rfl rfl before
  · rename_i unlisted
    have failing {u : Restoring H} (ran : Except.ok s.fail = (.ok u : Except (Restoring H) (Restoring H))) :
        Turned (fun p item => item.1.1 ∈ p.completed_objects) (fun v item => Vault.HasObject d v item.1.1) items s item u := by
      obtain rfl := Except.ok.inj ran
      exact turned_fail rfl (fun _ _ _ => Iff.rfl) (Nat.succ_ne_zero _)
    split at ran
    · exact failing ran
    · split at ran
      · exact failing ran
      · rename_i content _ _
        refine turned_send ran ?_ ⟨rfl,rfl,List.mem_insert_self,fun y _ settled => List.mem_insert_of_mem settled⟩ ?_
        · intro y _ settled
          have differ : y.1.1 ≠ item.1.1 := fun same => unlisted (same ▸ settled)
          exact (post_object_apart d item.2.policy s.vault item.1.1 content).hasObject_iff d.config d.tenant _ differ
        · intro taken
          have held := post_object_taken d item.2.policy s.vault item.1.1 content taken
          refine ⟨held,fun y _ settled => ?_⟩
          cases List.mem_insert_iff.mp settled with
          | inl same => exact Or.inr (same ▸ held)
          | inr before => exact Or.inl before

theorem restore_commit_turn (items : List (ArchivedCommit H × Choice H)) {item : ArchivedCommit H × Choice H}
    (ran : restore_commit d s item = .ok t) :
    Turned (fun p item => item.1.hash ∈ p.completed_commits) (fun v item => v.HasCommit item.1.hash) items s item t := by
  unfold restore_commit at ran
  split at ran
  · rename_i before
    obtain rfl := Except.ok.inj ran
    exact turned_skip rfl rfl rfl before
  · rename_i unlisted
    refine turned_send ran ?_ ⟨rfl,rfl,List.mem_insert_self,fun y _ settled => List.mem_insert_of_mem settled⟩ ?_
    · intro y _ settled
      have differ : y.1.hash ≠ item.1.hash := fun same => unlisted (same ▸ settled)
      exact post_commit_commits d item.2.policy s.vault item.2.now item.1.payload differ
    · intro taken
      have held := post_commit_taken d item.2.policy s.vault item.2.now item.1.payload taken
      refine ⟨held,fun y _ settled => ?_⟩
      cases List.mem_insert_iff.mp settled with
      | inl same => exact Or.inr (same ▸ held)
      | inr before => exact Or.inl before

omit [DecidableEq H] [Hashing H] [TreeContent H] [HexText H] in
/-- Of two items with one name there is only one. -/
theorem restore_ref_turn {items : List ((String × H) × Choice H)} {item : (String × H) × Choice H}
    (named : ∀ y ∈ items, y.1.1 = item.1.1 → y.1.2 = item.1.2) (ran : restore_ref s item = .ok t) :
    Turned (fun p item => item.1.1 ∈ p.completed_refs) (fun v item => v.refs.rows.get? item.1.1 = some item.1.2) items s item t := by
  unfold restore_ref at ran
  split at ran
  · rename_i before
    obtain rfl := Except.ok.inj ran
    exact turned_skip rfl rfl rfl before
  · rename_i unlisted
    refine turned_send ran ?_ ⟨rfl,rfl,List.mem_insert_self,fun y _ settled => List.mem_insert_of_mem settled⟩ ?_
    · intro y _ settled
      have differ : y.1.1 ≠ item.1.1 := fun same => unlisted (same ▸ settled)
      rw [put_ref_other s.vault item.1.2 differ]
    · intro taken
      have held := put_ref_taken s.vault taken
      refine ⟨held,fun y member settled => ?_⟩
      cases List.mem_insert_iff.mp settled with
      | inl same =>
        rw [same,named y member same]
        exact Or.inr held
      | inr before => exact Or.inl before

/-! What a loop leaves to the others. -/

omit [DecidableEq H] [Hashing H] [TreeContent H] [HexText H] in
theorem send_cases {answer : Answer} {done : Nat × Vault H} {takes : List Nat} {mark : Restoring H → Restoring H}
    (ran : s.send answer done takes mark = .ok t) :
    t = mark {s with vault := done.2} ∨ t = {s with vault := done.2}.fail ∨ t = s.fail := by
  unfold Restoring.send at ran
  cases answer with
  | answered =>
    obtain rfl := Except.ok.inj ran
    split
    · exact Or.inl rfl
    · exact Or.inr (Or.inl rfl)
  | turned_down applied =>
    obtain rfl := Except.ok.inj ran
    cases applied with
    | true => exact Or.inr (Or.inl rfl)
    | false => exact Or.inr (Or.inr rfl)
  | interrupted applied => cases ran

structure ObjectsOnly (s t : Restoring H) : Prop where
  commits : t.vault.ledger.registry.commits = s.vault.ledger.registry.commits
  refs : t.vault.refs = s.vault.refs
  completed_commits : t.progress.completed_commits = s.progress.completed_commits
  completed_refs : t.progress.completed_refs = s.progress.completed_refs

structure CommitsOnly (s t : Restoring H) : Prop where
  objects : t.vault.ledger.registry.objects = s.vault.ledger.registry.objects
  refs : t.vault.refs = s.vault.refs
  completed_refs : t.progress.completed_refs = s.progress.completed_refs

omit [TreeContent H] [HexText H] in
theorem restore_object_only {shards : Dict H Bytes} {start : Restoring H} {item : (H × Bool) × Choice H}
    (ran : restore_object d shards s item = .ok t) (only : ObjectsOnly start s) : ObjectsOnly start t := by
  unfold restore_object at ran
  dsimp only at ran
  split at ran
  · obtain rfl := Except.ok.inj ran
    exact ⟨only.commits,only.refs,only.completed_commits,only.completed_refs⟩
  · split at ran
    · obtain rfl := Except.ok.inj ran
      exact ⟨only.commits,only.refs,only.completed_commits,only.completed_refs⟩
    · split at ran
      · obtain rfl := Except.ok.inj ran
        exact ⟨only.commits,only.refs,only.completed_commits,only.completed_refs⟩
      · rename_i content _ _
        have commits := (post_object_apart d item.2.policy s.vault item.1.1 content).commits.trans only.commits
        obtain rfl | rfl | rfl := send_cases ran
        · exact ⟨commits,only.refs,only.completed_commits,only.completed_refs⟩
        · exact ⟨commits,only.refs,only.completed_commits,only.completed_refs⟩
        · exact ⟨only.commits,only.refs,only.completed_commits,only.completed_refs⟩

theorem restore_commit_only {start : Restoring H} {item : ArchivedCommit H × Choice H}
    (ran : restore_commit d s item = .ok t) (only : CommitsOnly start s) : CommitsOnly start t := by
  unfold restore_commit at ran
  split at ran
  · obtain rfl := Except.ok.inj ran
    exact ⟨only.objects,only.refs,only.completed_refs⟩
  · have objects := (post_commit_objects d item.2.policy s.vault item.2.now item.1.payload).trans only.objects
    have refs := (post_commit_refs d item.2.policy s.vault item.2.now item.1.payload).trans only.refs
    obtain rfl | rfl | rfl := send_cases ran
    · exact ⟨objects,refs,only.completed_refs⟩
    · exact ⟨objects,refs,only.completed_refs⟩
    · exact ⟨only.objects,only.refs,only.completed_refs⟩

omit [DecidableEq H] [Hashing H] [TreeContent H] [HexText H] in
theorem restore_ref_ledger {item : (String × H) × Choice H} (ran : restore_ref s item = .ok t) :
    t.vault.ledger = s.vault.ledger := by
  unfold restore_ref at ran
  split at ran
  · obtain rfl := Except.ok.inj ran
    rfl
  · obtain rfl | rfl | rfl := send_cases ran
    · exact put_ref_ledger s.vault item.1.1 item.1.2
    · exact put_ref_ledger s.vault item.1.1 item.1.2
    · rfl

end Loops

/-! One restore. -/

section Restore

variable [TreeContent H] [HexText H] (d : Deployment)

/-- Every object and commit of the archive, and every ref at the archive's commit. -/
structure Holds (v : Vault H) (manifest : Manifest H) : Prop where
  objects : ∀ item ∈ manifest.objects, v.HasObject d item.1
  commits : ∀ commit ∈ manifest.commits, v.HasCommit commit.hash
  refs : ∀ name h, manifest.refs.get? name = some h → v.refs.rows.get? name = some h

/-- What the record lists of the archive, the registry holds. -/
structure Trusted (progress : Progress H) (v : Vault H) (manifest : Manifest H) : Prop where
  objects : ∀ item ∈ manifest.objects, item.1 ∈ progress.completed_objects → v.HasObject d item.1
  commits : ∀ commit ∈ manifest.commits, commit.hash ∈ progress.completed_commits → v.HasCommit commit.hash
  refs : ∀ name h, manifest.refs.get? name = some h → name ∈ progress.completed_refs → v.refs.rows.get? name = some h

omit [DecidableEq H] [Hashing H] [TreeContent H] [HexText H] in
theorem forall_with_choices {α : Type} (items : List α) (choices : Nat → Choice H) (P : α → Prop) :
    (∀ item ∈ with_choices items choices, P item.1) ↔ ∀ x ∈ items, P x := by
  have firsts : (with_choices items choices).map Prod.fst = items := by
    unfold with_choices
    rw [List.map_map]
    exact List.zipIdx_map_fst 0 items
  constructor
  · intro all x member
    rw [← firsts] at member
    obtain ⟨item,inside,rfl⟩ := List.mem_map.mp member
    exact all item inside
  · intro all item member
    exact all item.1 (firsts ▸ List.mem_map_of_mem member)

theorem restore_all_loops {choices : Choices H} {shards : Dict H Bytes} {manifest : Manifest H} {s t : Restoring H}
    (ran : restore_all d choices shards manifest s = .ok t) : ∃ objects commits,
      (with_choices manifest.objects choices.objects).foldlM (restore_object d shards) s = .ok objects ∧
      (with_choices manifest.commits choices.commits).foldlM (restore_commit d) objects = .ok commits ∧
      (with_choices manifest.refs.entries choices.refs).foldlM restore_ref commits = .ok t := by
  unfold restore_all at ran
  cases first : (with_choices manifest.objects choices.objects).foldlM (restore_object d shards) s with
  | error u =>
    rw [first] at ran
    cases ran
  | ok objects =>
    rw [first] at ran
    change ((with_choices manifest.commits choices.commits).foldlM (restore_commit d) objects >>= _) = _ at ran
    cases second : (with_choices manifest.commits choices.commits).foldlM (restore_commit d) objects with
    | error u =>
      rw [second] at ran
      cases ran
    | ok commits =>
      rw [second] at ran
      exact ⟨objects,commits,rfl,second,ran⟩

/-- Without a failure the registry holds the archive exactly when it held what the record listed of it. -/
theorem restore_all_holds_iff {choices : Choices H} {shards : Dict H Bytes} {manifest : Manifest H} {s t : Restoring H}
    (ran : restore_all d choices shards manifest s = .ok t) (quiet : t.summary.failed = 0) :
    Holds d t.vault manifest ↔ Trusted d s.progress s.vault manifest := by
  obtain ⟨objects,commits,first,second,third⟩ := restore_all_loops d ran
  have one_name : ∀ x ∈ with_choices manifest.refs.entries choices.refs, ∀ y ∈ with_choices manifest.refs.entries choices.refs,
      y.1.1 = x.1.1 → y.1.2 = x.1.2 := by
    intro x inside y among same
    have listed {z : (String × H) × Choice H} (member : z ∈ with_choices manifest.refs.entries choices.refs) :
        manifest.refs.get? z.1.1 = some z.1.2 :=
      (manifest.refs.mem_entries _ _).mp ((forall_with_choices manifest.refs.entries choices.refs (· ∈ manifest.refs.entries)).mpr
        (fun _ here => here) z member)
    exact Option.some.inj ((listed among).symm.trans (same ▸ listed inside))
  have refs_turns := fun u x w (inside : x ∈ with_choices manifest.refs.entries choices.refs) =>
    restore_ref_turn (s := u) (t := w) (one_name x inside)
  have commits_turns := fun u x w (_ : x ∈ with_choices manifest.commits choices.commits) (ran : restore_commit d u x = .ok w) =>
    restore_commit_turn (with_choices manifest.commits choices.commits) ran
  have objects_turns := fun u x w (_ : x ∈ with_choices manifest.objects choices.objects)
    (ran : restore_object d shards u x = .ok w) => restore_object_turn (with_choices manifest.objects choices.objects) ran
  -- no failure at the end means none after the other loops
  have quiet_commits : commits.summary.failed = 0 := (Resumable.fold_done refs_turns (List.Subset.refl _) third quiet).1
  have quiet_objects : objects.summary.failed = 0 := (Resumable.fold_done commits_turns (List.Subset.refl _) second quiet_commits).1
  have refs_held := Resumable.all_held_iff refs_turns third quiet
  have commits_held := Resumable.all_held_iff commits_turns second quiet_commits
  have objects_held := Resumable.all_held_iff objects_turns first quiet_objects
  dsimp only at refs_held commits_held objects_held
  have after_objects := Resumable.fold_keeps (I := ObjectsOnly s) (fun u x w _ only ran => restore_object_only ran only) first
    ⟨rfl,rfl,rfl,rfl⟩
  have after_commits := Resumable.fold_keeps (I := CommitsOnly objects) (fun u x w _ only ran => restore_commit_only ran only)
    second ⟨rfl,rfl,rfl⟩
  have after_refs := Resumable.fold_keeps (I := fun u => u.vault.ledger = commits.vault.ledger)
    (fun u x w _ same ran => (restore_ref_ledger ran).trans same) third rfl
  have objects_part : (∀ item ∈ manifest.objects, t.vault.HasObject d item.1) ↔
      ∀ item ∈ manifest.objects, item.1 ∈ s.progress.completed_objects → s.vault.HasObject d item.1 := by
    have same (h : H) : t.vault.HasObject d h ↔ objects.vault.HasObject d h := by
      unfold Vault.HasObject HasObject Registry.select_objects
      rw [after_refs,after_commits.objects]
    have all := forall_with_choices manifest.objects choices.objects fun x => t.vault.HasObject d x.1
    have listed := forall_with_choices manifest.objects choices.objects fun x =>
      x.1 ∈ s.progress.completed_objects → s.vault.HasObject d x.1
    have later := forall₂_congr fun (x : (H × Bool) × Choice H) (_ : x ∈ with_choices manifest.objects choices.objects) => same x.1.1
    exact all.symm.trans (later.trans (objects_held.trans listed))
  have commits_part : (∀ commit ∈ manifest.commits, t.vault.HasCommit commit.hash) ↔
      ∀ commit ∈ manifest.commits, commit.hash ∈ s.progress.completed_commits → s.vault.HasCommit commit.hash := by
    have same (h : H) : t.vault.HasCommit h ↔ commits.vault.HasCommit h := by
      unfold Vault.HasCommit
      rw [after_refs]
    have before (h : H) : objects.vault.HasCommit h ↔ s.vault.HasCommit h := by
      unfold Vault.HasCommit
      rw [after_objects.commits]
    have all := forall_with_choices manifest.commits choices.commits fun x => t.vault.HasCommit x.hash
    have listed := forall_with_choices manifest.commits choices.commits fun x =>
      x.hash ∈ s.progress.completed_commits → s.vault.HasCommit x.hash
    rw [after_objects.completed_commits] at commits_held
    have earlier := forall₂_congr fun (x : ArchivedCommit H × Choice H) (_ : x ∈ with_choices manifest.commits choices.commits) =>
      imp_congr_right fun (_ : x.1.hash ∈ s.progress.completed_commits) => before x.1.hash
    have later := forall₂_congr fun (x : ArchivedCommit H × Choice H) (_ : x ∈ with_choices manifest.commits choices.commits) =>
      same x.1.hash
    exact all.symm.trans (later.trans (commits_held.trans (earlier.trans listed)))
  have refs_part : (∀ name h, manifest.refs.get? name = some h → t.vault.refs.rows.get? name = some h) ↔
      ∀ name h, manifest.refs.get? name = some h → name ∈ s.progress.completed_refs → s.vault.refs.rows.get? name = some h := by
    have entries (P : String × H → Prop) : (∀ name h, manifest.refs.get? name = some h → P (name,h)) ↔
        ∀ item ∈ with_choices manifest.refs.entries choices.refs, P item.1 := by
      rw [forall_with_choices]
      constructor
      · intro all item member
        exact all item.1 item.2 ((manifest.refs.mem_entries _ _).mp member)
      · intro all name h found
        exact all (name,h) ((manifest.refs.mem_entries _ _).mpr found)
    rw [after_commits.completed_refs,after_commits.refs,after_objects.completed_refs,after_objects.refs] at refs_held
    exact (entries fun item => t.vault.refs.rows.get? item.1 = some item.2).trans (refs_held.trans
      (entries fun item => item.1 ∈ s.progress.completed_refs → s.vault.refs.rows.get? item.1 = some item.2).symm)
  constructor
  · intro holds
    exact ⟨objects_part.mp holds.objects,commits_part.mp holds.commits,refs_part.mp holds.refs⟩
  · intro trusted
    exact ⟨objects_part.mpr trusted.objects,commits_part.mpr trusted.commits,refs_part.mpr trusted.refs⟩

end Restore

/-! Histories of one archive directory. -/

section Histories

variable [TreeContent H] [HexText H]

structure Depot (H : Type) where
  archive : Archive H
  registries : Nat → Vault H

inductive ArchiveEvent (H : Type)
  | export_run (i levels : Nat) (got : H → Bool) (listed : Bool)
  | cut_export (i levels : Nat) (got : H → Bool) (objects : Nat)
  | restore_run (i : Nat) (resume : Bool) (choices : Choices H)
  /-- what others do to a registry: pushes, collections, a new database -/
  | change (i : Nat) (v : Vault H)

/-- How each registry is set up, and who exports from it and restores to it. -/
def step (d : Nat → Deployment) (s : Depot H) : ArchiveEvent H → Depot H
  | .export_run i levels got listed =>
    {s with archive := (registry_export (d i) (s.registries i) levels got listed s.archive).getD s.archive}
  | .cut_export i levels got objects =>
    {s with archive := interrupted_export (d i) (s.registries i) levels got objects s.archive}
  | .restore_run i resume choices =>
    let done := restore (d i) resume choices s.archive (s.registries i)
    ⟨{s.archive with restore_state := done.2.2},Function.update s.registries i done.2.1⟩
  | .change i v => {s with registries := Function.update s.registries i v}

/-- The manifest of an archive that a restore reports no failure about. -/
def Reported (d : Nat → Deployment) (s : Depot H) (i : Nat) (resume : Bool) (choices : Choices H) (manifest : Manifest H) : Prop :=
  s.archive.manifest = some manifest ∧
    ∃ summary, (restore (d i) resume choices s.archive (s.registries i)).1 = some summary ∧ summary.failed = 0

/-- A resumed restore that reports no failure leaves all of the archive in its registry. -/
def Sound (d : Nat → Deployment) (s : Depot H) : ArchiveEvent H → Prop
  | .restore_run i true choices => ∀ manifest, Reported d s i true choices manifest →
    Holds (d i) ((step d s (.restore_run i true choices)).registries i) manifest
  | _ => True

/-- When it starts, its registry holds what the record lists of the archive. -/
def TrueRecord (d : Nat → Deployment) (s : Depot H) : ArchiveEvent H → Prop
  | .restore_run i true choices => ∀ manifest, Reported d s i true choices manifest →
    Trusted (d i) (s.archive.restore_state.getD .none) (s.registries i) manifest
  | _ => True

theorem restore_holds_iff {d : Nat → Deployment} {s : Depot H} {i : Nat} {resume : Bool} {choices : Choices H}
    {manifest : Manifest H} (reported : Reported d s i resume choices manifest) :
    Holds (d i) ((step d s (.restore_run i resume choices)).registries i) manifest ↔
      Trusted (d i) (s.archive.progress resume) (s.registries i) manifest := by
  obtain ⟨present,summary,done,quiet⟩ := reported
  have after : (step d s (.restore_run i resume choices)).registries i =
      (restore (d i) resume choices s.archive (s.registries i)).2.1 := Function.update_self _ _ _
  rw [after]
  unfold restore at done ⊢
  rw [present] at done ⊢
  dsimp only at done ⊢
  cases ran : restore_all (d i) choices s.archive.shards manifest
      ⟨s.registries i,s.archive.progress resume,s.archive.restore_state,{}⟩ with
  | error u =>
    rw [ran] at done
    cases done
  | ok t =>
    rw [ran] at done
    obtain rfl := Option.some.inj done
    exact restore_all_holds_iff (d i) ran quiet

/-- Over any history of exports and restores, interrupted anywhere and against any registries, with any changes to these:
each resumed restore that reports no failure is sound exactly when the record told it the truth. -/
theorem resumed_restores_sound_iff (d : Nat → Deployment) (registries : Nat → Vault H) (history : List (ArchiveEvent H)) :
    Runs.Every (step d) (Sound d) ⟨.fresh,registries⟩ history ↔
      Runs.Every (step d) (TrueRecord d) ⟨.fresh,registries⟩ history := by
  refine Runs.every_congr (I := fun _ => True) (fun _ _ _ => trivial) (fun s event _ => ?_) trivial history
  cases event with
  | restore_run i resume choices =>
    cases resume with
    | true => exact forall_congr' fun manifest => imp_congr_right fun reported => restore_holds_iff reported
    | false => exact Iff.rfl
  | _ => exact Iff.rfl

omit [Hashing H] [TreeContent H] [HexText H] in
theorem trusted_none (d : Deployment) (v : Vault H) (manifest : Manifest H) : Trusted d .none v manifest where
  objects := fun _ _ listed => absurd listed List.not_mem_nil
  commits := fun _ _ listed => absurd listed List.not_mem_nil
  refs := fun _ _ _ listed => absurd listed List.not_mem_nil

/-- A restore that trusts no record needs none. -/
theorem unresumed_restore_holds {d : Nat → Deployment} {s : Depot H} {i : Nat} {choices : Choices H} {manifest : Manifest H}
    (reported : Reported d s i false choices manifest) :
    Holds (d i) ((step d s (.restore_run i false choices)).registries i) manifest :=
  (restore_holds_iff reported).mpr (trusted_none (d i) (s.registries i) manifest)

end Histories

/-! A ref that moves between two exports. -/

section Moved

def one_ref (h : Name) : Vault Name := {Vault.empty with refs := Vault.empty.refs.put "p/main" h (by decide)}

def answered (_ : Nat) : Choice Name := ⟨.answered,fun _ => ⟨0,fun _ => false⟩,noon⟩

def all_answered : Choices Name := ⟨answered,answered,answered⟩

def lone (_ : Nat) : Deployment := ⟨⟨.shared,0,0⟩,⟨100,100,100,100,1000⟩,"default",none⟩

def start : Depot Name := ⟨.fresh,Function.update (fun _ => Vault.empty) 0 (one_ref ⟨[1]⟩)⟩

/-- Exported, restored, moved and exported again. -/
def moved : List (ArchiveEvent Name) := [.export_run 0 0 (fun _ => true) true,.restore_run 1 true all_answered,
  .change 0 (one_ref ⟨[2]⟩),.export_run 0 0 (fun _ => true) true]

theorem moved_manifest : ((moved.foldl (step lone) start).archive.manifest.map fun m => m.refs.get? "p/main") = some (some ⟨[2]⟩) := by
  decide +kernel

/-- The second restore reports no failure, and the ref stays where the first one put it. -/
theorem stale_ref_restored : ¬Runs.Every (step lone) (Sound lone) start (moved ++ [.restore_run 1 true all_answered]) := by
  intro every
  obtain ⟨manifest,present,ref⟩ := Option.map_eq_some_iff.mp moved_manifest
  have reported : (restore (lone 1) true all_answered (moved.foldl (step lone) start).archive
      ((moved.foldl (step lone) start).registries 1)).1 = some {refs := 1} := by decide +kernel
  have holds := every moved _ [] rfl manifest ⟨present,_,reported,rfl⟩
  have stale : ((step lone (moved.foldl (step lone) start) (.restore_run 1 true all_answered)).registries 1).refs.rows.get?
      "p/main" = some ⟨[1]⟩ := by decide +kernel
  have moved_there := holds.refs "p/main" ⟨[2]⟩ ref
  exact absurd (stale.symm.trans moved_there) (by decide)

end Moved

end AetherVault.RegistryArchive
