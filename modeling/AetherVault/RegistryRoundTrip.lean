import AetherVault.RestoreSoundness

/-! What an empty registry has after the archive of another one was restored into it. -/
namespace AetherVault.RegistryArchive
open Lib Hashing
open JsonValue (arrange)

variable {H K : Type} [DecidableEq H] [Hashing H] [TreeContent H] [HexText H]

section Tables

variable (levels : Nat) (v : Vault H)

/-- The tree of a commit, as it is served. -/
def Vault.tree (h : H) : Option (Tree H) :=
  (v.ledger.root h).bind fun root => (resolve_trees v.ledger.registry.trees levels [root]).bind fun trees => trees.get? root

/-- The commit's row in the listing. -/
def Vault.served (h : H) : Option Doc :=
  (v.ledger.columns.get? h).bind fun columns => (v.tree levels h).map fun tree =>
    (commit_dict h columns (v.ledger.root h)).set "tree" (tree_json tree)

/-- A clone finds the signature of the commit valid. -/
def Vault.Verifies (crypto : Ed25519 K) (h : H) : Prop := ∃ row received, v.served levels h = some row ∧
  normalize_commit_row row = some received ∧ verify_signature (some crypto) received = .ok .verified

/-- An object that the commit's row or its tree names. -/
def Vault.Reaches (h object : H) : Prop :=
  (∃ columns, v.ledger.columns.get? h = some columns ∧ columns.env_snapshot_id = some object) ∨
    v.ledger.columns.contains h = true ∧ ∃ tree, v.tree levels h = some tree ∧ object ∈ tree_hashes tree

end Tables

/-- Every commit with all its columns, its tree, its runs and a signature that still verifies, every ref, every run, and
every object that a commit reaches. -/
structure Reproduced (crypto : Ed25519 K) (levels : Nat) (from_d to_d : Deployment) (source target : Vault H) : Prop where
  commits : ∀ h, target.ledger.columns.get? h = source.ledger.columns.get? h
  trees : ∀ h, source.ledger.columns.contains h = true →
    (target.tree levels h).map Dict.get? = (source.tree levels h).map Dict.get?
  signatures : ∀ h, source.Verifies levels crypto h → target.Verifies levels crypto h
  linked : ∀ link, link ∈ target.run_commits ↔ link ∈ source.run_commits
  runs : ∀ run_id, target.runs.get? run_id = source.runs.get? run_id
  refs : ∀ name, target.refs.rows.get? name = source.refs.rows.get? name
  objects : ∀ h object, source.Reaches levels h object → source.HasObject from_d object → target.HasObject to_d object

def Choices.Answered (choices : Choices H) : Prop :=
  ∀ i, (choices.objects i).answer = .answered ∧ (choices.commits i).answer = .answered ∧ (choices.refs i).answer = .answered

/-- The archive is restored into an empty registry, at any time, and every request gets its answer. -/
def RoundTrips (crypto : Ed25519 K) (levels : Nat) (from_d to_d : Deployment) (source : Vault H) (archive : Archive H) : Prop :=
  ∀ choices : Choices H, choices.Answered →
    Reproduced crypto levels from_d to_d source (restore to_d true choices archive Vault.empty).2.1

/-! What the requests of a restore add up to. -/

section Vaults

variable {d : Deployment} {s : Restoring H}

omit [DecidableEq H] [Hashing H] [TreeContent H] [HexText H] in
theorem send_vault {answer : Answer} {done : Nat × Vault H} {takes : List Nat} {mark : Restoring H → Restoring H}
    (marks : ∀ u, (mark u).vault = u.vault) : (Resumable.outcome (s.send answer done takes mark)).vault = s.vault ∨
      (Resumable.outcome (s.send answer done takes mark)).vault = done.2 := by
  unfold Restoring.send
  cases answer with
  | answered =>
    right
    change (if done.1 ∈ takes then mark {s with vault := done.2} else Restoring.fail {s with vault := done.2}).vault = done.2
    split
    · exact marks _
    · rfl
  | turned_down applied => cases applied with
    | true => exact Or.inr rfl
    | false => exact Or.inl rfl
  | interrupted applied => cases applied with
    | true => exact Or.inr rfl
    | false => exact Or.inl rfl

omit [TreeContent H] [HexText H] in
theorem restore_object_vault (shards : Dict H Bytes) (item : (H × Bool) × Choice H) :
    (Resumable.outcome (restore_object d shards s item)).vault = s.vault ∨ ∃ content,
      (Resumable.outcome (restore_object d shards s item)).vault = (post_object d item.2.policy s.vault item.1.1 content).2 := by
  unfold restore_object
  dsimp only
  split
  · exact Or.inl rfl
  · split
    · exact Or.inl rfl
    · split
      · exact Or.inl rfl
      · rename_i content _ _
        have sent (done : Nat × Vault H) : (Resumable.outcome (s.send item.2.answer done [201,409]
            (Restoring.object_done item.1.1 done.1))).vault = s.vault ∨ (Resumable.outcome (s.send item.2.answer done [201,409]
            (Restoring.object_done item.1.1 done.1))).vault = done.2 := send_vault fun _ => rfl
        exact (sent _).imp_right fun same => ⟨content,same⟩

theorem restore_commit_vault (item : ArchivedCommit H × Choice H) :
    (Resumable.outcome (restore_commit d s item)).vault = s.vault ∨
      (Resumable.outcome (restore_commit d s item)).vault = (post_commit d item.2.policy s.vault item.2.now item.1.payload).2 := by
  unfold restore_commit
  split
  · exact Or.inl rfl
  · exact send_vault fun _ => rfl

omit [DecidableEq H] [Hashing H] [TreeContent H] [HexText H] in
theorem restore_ref_vault (item : (String × H) × Choice H) :
    (Resumable.outcome (restore_ref s item)).vault = s.vault ∨
      (Resumable.outcome (restore_ref s item)).vault = (put_ref s.vault item.1.1 item.1.2).2 := by
  unfold restore_ref
  split
  · exact Or.inl rfl
  · exact send_vault fun _ => rfl

/-- What each request keeps, a restore keeps, wherever it stops. -/
theorem restore_keeps {J : Vault H → Prop} {resume : Bool} {choices : Choices H} {archive : Archive H} {manifest : Manifest H}
    (present : archive.manifest = some manifest)
    (objects : ∀ policy v h content, J v → J (post_object d policy v h content).2)
    (commits : ∀ commit ∈ manifest.commits, ∀ i v, J v →
      J (post_commit d (choices.commits i).policy v (choices.commits i).now commit.payload).2)
    (refs : ∀ name h, manifest.refs.get? name = some h → ∀ v, J v → J (put_ref v name h).2)
    {v : Vault H} (holds : J v) : J (restore d resume choices archive v).2.1 := by
  let start : Restoring H := ⟨v,archive.progress resume,archive.restore_state,{}⟩
  have ended : (restore d resume choices archive v).2.1 =
      (Resumable.outcome (restore_all d choices archive.shards manifest start)).vault := by
    unfold restore
    rw [present]
    dsimp only
    change _ = (Resumable.outcome (restore_all d choices archive.shards manifest ⟨v,archive.progress resume,archive.restore_state,{}⟩)).vault
    cases restore_all d choices archive.shards manifest ⟨v,archive.progress resume,archive.restore_state,{}⟩ <;> rfl
  have chosen {α : Type} {items : List α} {of : Nat → Choice H} {item : α × Choice H} (member : item ∈ with_choices items of) :
      item.1 ∈ items ∧ ∃ i, item.2 = of i := by
    obtain ⟨x,inside,rfl⟩ := List.mem_map.mp member
    exact ⟨List.fst_mem_of_mem_zipIdx inside,x.2,rfl⟩
  rw [ended]
  refine Resumable.then_always (I := fun s : Restoring H => J s.vault) ?_ fun sent so_far =>
    Resumable.then_always (I := fun s : Restoring H => J s.vault) ?_ fun pushed then_far => ?_
  · refine Resumable.fold_always (I := fun s : Restoring H => J s.vault) (fun s item _ so_far => ?_) holds
    cases restore_object_vault (d := d) (s := s) archive.shards item with
    | inl same => exact same ▸ so_far
    | inr sent =>
      obtain ⟨content,same⟩ := sent
      exact same ▸ objects _ _ _ _ so_far
  · refine Resumable.fold_always (I := fun s : Restoring H => J s.vault) (fun s item member so_far => ?_) so_far
    obtain ⟨inside,i,chosen_here⟩ := chosen member
    cases restore_commit_vault (d := d) (s := s) item with
    | inl same => exact same ▸ so_far
    | inr same =>
      rw [same,chosen_here]
      exact commits _ inside i _ so_far
  · refine Resumable.fold_always (I := fun s : Restoring H => J s.vault) (fun s item member so_far => ?_) then_far
    obtain ⟨inside,_⟩ := chosen member
    cases restore_ref_vault (s := s) item with
    | inl same => exact same ▸ so_far
    | inr same => exact same ▸ refs _ _ ((manifest.refs.mem_entries _ _).mp inside) _ so_far

end Vaults

/-! What a restore of commits leaves. -/

section Commits

omit [DecidableEq H] [Hashing H] [TreeContent H] in
theorem read_hashes (hashes : List H) : (hashes.map hash_json).filterMap read_hash = hashes := by
  induction hashes with
  | nil => rfl
  | cons h rest ih =>
    have reads : read_hash (hash_json h) = some h := HexText.read_hexdigest h
    rw [List.map_cons,List.filterMap_cons_some reads,ih]

theorem signature_column_again (signature : Option JsonValue) :
    signature_column (some (_signature_out (signature_column signature))) = signature_column signature := by
  cases signature with
  | none => rfl
  | some value =>
    cases value with
    | dict members =>
      have reads : _signature_out (signature_column (some (.dict members))) = arrange (.dict members) := by
        simp only [_signature_out,signature_column,JsonValue.dumps,if_true,Option.bind_some,JsonValue.loads_text]
        rfl
      rw [reads]
      change some (JsonValue.text spaced (arrange (arrange (.dict members)))) = _
      rw [JsonValue.arrange_arrange]
      rfl
    | _ => rfl

theorem or_default_again (text default : String) : or_default (or_default text default) default = or_default text default := by
  unfold or_default
  split
  · exact ite_self default
  · rfl

omit [Hashing H] [TreeContent H] in
/-- All columns of a row come back but its time, and the author of an anonymous one. -/
theorem restored_columns {username other : Option String} {now later : Datetime} {c : Commit H} {columns : CommitColumns H}
    (stored : commit_columns username now c = .ok columns) (l : Ledger H) (trees_by_root : Dict H (Tree H)) (h : H) :
    commit_columns other later (archived l trees_by_root (h,columns)).payload =
      .ok {columns with timestamp := later,author := stamped_author columns.author other} := by
  unfold commit_columns at stored
  cases parsed : commit_ts c.payload.timestamp with
  | error e =>
    rw [parsed] at stored
    cases stored
  | ok ts =>
    rw [parsed] at stored
    obtain rfl := Except.ok.inj stored
    have parents := (congrArg (List.filterMap read_hash) (full_parents c.payload.parents)).trans (read_hashes c.payload.parents)
    have project_id := or_default_again c.payload.project_id "legacy"
    have project_name := or_default_again c.payload.project_name "Legacy / Unknown"
    have signature := signature_column_again c.signature
    unfold commit_columns
    simp only [ArchivedCommit.payload,archived,parents,stored_project_id,stored_project_name,project_id,project_name,signature]
    rfl

omit [DecidableEq H] [Hashing H] [TreeContent H] in
theorem restored_timestamp {username : Option String} {now : Datetime} {c : ArchivedCommit H} {columns : CommitColumns H}
    (stored : commit_columns username now c.payload = .ok columns) : columns.timestamp = now := by
  unfold commit_columns at stored
  obtain rfl := Except.ok.inj stored
  rfl

/-- Every commit is from the time of the restore, and no run is there. -/
structure Restamped (now : Datetime) (v : Vault H) : Prop where
  columns : ∀ h columns, v.ledger.columns.get? h = some columns → columns.timestamp = now
  runs : ∀ run_id, v.runs.get? run_id = none
  linked : v.run_commits = []

theorem Restamped.post_commit {now : Datetime} {v : Vault H} (restamped : Restamped now v) (d : Deployment)
    (policy : Registry H → Moment H) (c : ArchivedCommit H) : Restamped now (post_commit d policy v now c.payload).2 := by
  have unlinked : (RegistryArchive.post_commit d policy v now c.payload).2.runs = v.runs ∧
      (RegistryArchive.post_commit d policy v now c.payload).2.run_commits = v.run_commits := by
    unfold RegistryArchive.post_commit
    dsimp only
    split <;> exact ⟨rfl,rfl⟩
  refine ⟨fun h columns found => ?_,fun run_id => ?_,unlinked.2.trans restamped.linked⟩
  · rw [post_commit_ledger] at found
    cases Ledger.push_commit_cases d.config d.limits 0 policy v.ledger ⟨d.tenant,d.username,now,c.payload⟩ with
    | inl refused =>
      rw [refused.1] at found
      exact restamped.columns h columns found
    | inr done =>
      obtain ⟨pushed,raw,listing,created,dirs,stored,-,-,-,-,-,-,same⟩ := done
      rw [same] at found
      dsimp only at found
      rw [Dict.get?_set] at found
      split at found
      · obtain rfl := Option.some.inj found
        exact restored_timestamp stored
      · exact restamped.columns h columns found
  · rw [unlinked.1]
    exact restamped.runs run_id

omit [Hashing H] [TreeContent H] [HexText H] in
theorem Restamped.put_ref {now : Datetime} {v : Vault H} (restamped : Restamped now v) (name : String) (h : H) :
    Restamped now (put_ref v name h).2 := by
  unfold RegistryArchive.put_ref
  split
  · exact ⟨restamped.columns,restamped.runs,restamped.linked⟩
  · exact restamped

theorem restore_restamped {d : Deployment} {resume : Bool} {choices : Choices H} {archive : Archive H} {manifest : Manifest H}
    (present : archive.manifest = some manifest) {now : Datetime} (at_once : ∀ i, (choices.commits i).now = now) :
    Restamped now (restore d resume choices archive Vault.empty).2.1 := by
  refine restore_keeps present (fun policy v h content so_far => ?_) (fun commit _ i v so_far => ?_)
    (fun name h _ v so_far => so_far.put_ref name h) ⟨fun h columns found => ?_,fun _ => rfl,rfl⟩
  · exact ⟨so_far.columns,so_far.runs,so_far.linked⟩
  · rw [at_once i]
    exact so_far.post_commit d _ commit
  · cases found

end Commits

section RoundTrip

variable {crypto : Ed25519 K} {levels : Nat} {from_d to_d : Deployment} {v : Vault H} {got : H → Bool} {listed : Bool}
  {archive : Archive H}

omit [TreeContent H] in
theorem exported_manifest (exported : registry_export from_d v levels got listed .fresh = some archive) :
    ∃ commits refs, exported_commits v levels = some commits ∧ exported_refs v = some refs ∧ archive.restore_state = none ∧
      archive.manifest = some ⟨commits,refs,if listed then v.runs.entries.take 1000 else [],
        ((_collect_exportable_object_hashes commits).foldl (export_object from_d v got) (∅,[])).2⟩ := by
  unfold registry_export at exported
  obtain ⟨commits,listing,rest⟩ := Option.bind_eq_some_iff.mp exported
  obtain ⟨refs,named,rfl⟩ := Option.map_eq_some_iff.mp rest
  exact ⟨commits,refs,listing,named,rfl,rfl⟩

omit [Hashing H] [TreeContent H] [HexText H] [DecidableEq H] in
theorem exported_refs_get {refs : Dict String H} (exported : exported_refs v = some refs) (name : String) :
    refs.get? name = v.refs.rows.get? name := by
  have whole : exported_refs v = some (Dict.ofList (sorted_refs v)) := by
    have enough : (sorted_refs v).length < 0 + (v.refs.rows.entries.length + 1) * 5000 := by
      rw [sorted_refs,List.length_insertionSort]
      omega
    rw [exported_refs,OffsetPages.all_pages_cut (sorted_refs v) enough (Nat.zero_le _)]
    rfl
  obtain rfl := Option.some.inj (whole.symm.trans exported)
  have rows {h : H} : (name,h) ∈ sorted_refs v ↔ v.refs.rows.get? name = some h := by
    rw [sorted_refs,List.mem_insertionSort,Dict.mem_entries]
  ext h
  constructor
  · intro found
    exact rows.mp (Dict.get?_ofList found)
  · intro found
    obtain ⟨g,there⟩ := Option.isSome_iff_exists.mp (Dict.contains_ofList (rows.mpr found))
    have same : some g = some h := (rows.mp (Dict.get?_ofList there)).symm.trans found
    rw [there,same]

omit [Hashing H] [TreeContent H] in
theorem exported_commits_none {commits : List (ArchivedCommit H)} (exported : exported_commits v levels = some commits)
    (none : v.ledger.columns.entries = []) : commits = [] := by
  have page : v.ledger.page ⟨200,0,Option.none,Option.none⟩ = [] := by
    unfold Ledger.page Ledger.rows
    rw [none]
    rfl
  unfold exported_commits OffsetPages.all_pages at exported
  obtain ⟨rows,first,rest⟩ := Option.bind_eq_some_iff.mp exported
  unfold commit_page at first
  rw [page] at first
  obtain ⟨trees,-,rfl⟩ := Option.map_eq_some_iff.mp first
  exact (Option.some.inj rest).symm

/-- Every request is answered, at one and the same time. -/
def Choices.at_once (now : Datetime) : Choices H :=
  let choice (_ : Nat) : Choice H := ⟨.answered,fun _ => ⟨0,fun _ => false⟩,now⟩
  ⟨choice,choice,choice⟩

/-- A registry that comes back at every time has no commits and no runs. -/
theorem round_trip_empties (exported : registry_export from_d v levels got listed .fresh = some archive)
    (comes_back : RoundTrips crypto levels from_d to_d v archive) :
    v.ledger.columns.entries = [] ∧ v.runs.entries = [] ∧ v.run_commits = [] := by
  obtain ⟨commits,refs,-,-,-,present⟩ := exported_manifest exported
  have back (now : Datetime) := comes_back (.at_once now) fun i => ⟨rfl,rfl,rfl⟩
  have stamped (now : Datetime) : Restamped now (restore to_d true (.at_once now) archive Vault.empty).2.1 :=
    restore_restamped present fun i => rfl
  refine ⟨?_,?_,?_⟩
  · by_contra some_commit
    obtain ⟨row,member⟩ := List.exists_mem_of_ne_nil _ some_commit
    have found := (v.ledger.columns.mem_entries row.1 row.2).mp member
    have time (now : Datetime) : row.2.timestamp = now :=
      (stamped now).columns row.1 row.2 (((back now).commits row.1).trans found)
    have one_time := (time noon).symm.trans (time ⟨2025,5,17,12,0,0,0,by decide⟩)
    exact absurd one_time (by decide)
  · by_contra some_run
    obtain ⟨row,member⟩ := List.exists_mem_of_ne_nil _ some_run
    have found := (v.runs.mem_entries row.1 row.2).mp member
    have now : Datetime := noon
    have lost := ((stamped now).runs row.1).symm.trans (((back now).runs row.1).trans found)
    cases lost
  · apply List.eq_nil_iff_forall_not_mem.mpr
    intro link member
    have now : Datetime := noon
    have there := ((back now).linked link).mpr member
    rw [(stamped now).linked] at there
    exact absurd there List.not_mem_nil

omit [Hashing H] [TreeContent H] [HexText H] [DecidableEq H] in
theorem put_ref_valid {name : String} (valid : validate_ref_name name = true) (v : Vault H) (h : H) : (put_ref v name h).1 = 200 := by
  unfold put_ref
  rw [dif_pos valid]

omit [Hashing H] [TreeContent H] [HexText H] [DecidableEq H] in
theorem restore_ref_quiet {s : Restoring H} {item : (String × H) × Choice H} (valid : validate_ref_name item.1.1 = true)
    (answered : item.2.answer = .answered) (quiet : s.summary.failed = 0) :
    ∃ t, restore_ref s item = .ok t ∧ t.summary.failed = 0 := by
  unfold restore_ref
  split
  · exact ⟨_,rfl,quiet⟩
  · unfold Restoring.send
    rw [answered,put_ref_valid valid]
    exact ⟨_,rfl,quiet⟩

/-- No commit, no run, and no ref but the given ones. -/
structure Bare (refs : Dict String H) (w : Vault H) : Prop where
  columns : ∀ h, w.ledger.columns.get? h = none
  runs : ∀ run_id, w.runs.get? run_id = none
  linked : w.run_commits = []
  refs : ∀ name h, w.refs.rows.get? name = some h → refs.get? name = some h

omit [Hashing H] [TreeContent H] [HexText H] in
theorem Bare.put_ref {refs : Dict String H} {w : Vault H} (bare : Bare refs w) {name : String} {h : H}
    (listed : refs.get? name = some h) : Bare refs (put_ref w name h).2 := by
  unfold RegistryArchive.put_ref
  split
  · refine ⟨bare.columns,bare.runs,bare.linked,fun other g found => ?_⟩
    change (w.refs.rows.set name h).get? other = some g at found
    rw [Dict.get?_set] at found
    split at found
    · rename_i same
      rw [same,listed,found]
    · exact bare.refs other g found
  · exact bare

/-- A restore without commits leaves refs only. -/
theorem restore_bare {choices : Choices H} {refs : Dict String H} {runs : List (String × DBRun H)} {objects : List (H × Bool)}
    {resume : Bool} (present : archive.manifest = some ⟨[],refs,runs,objects⟩) :
    Bare refs (restore to_d resume choices archive Vault.empty).2.1 := by
  refine restore_keeps present (fun policy w h content bare => ?_) (fun commit member => absurd member List.not_mem_nil)
    (fun name h listed w bare => bare.put_ref listed) ⟨fun _ => rfl,fun _ => rfl,rfl,fun _ _ found => ?_⟩
  · exact ⟨bare.columns,bare.runs,bare.linked,bare.refs⟩
  · cases found

theorem restored_refs {choices : Choices H} (answered : choices.Answered) {refs : Dict String H}
    {runs : List (String × DBRun H)} (unsaved : archive.restore_state = none)
    (valid : ∀ name h, refs.get? name = some h → validate_ref_name name = true)
    (present : archive.manifest = some ⟨[],refs,runs,[]⟩) {name : String} {h : H} (listed : refs.get? name = some h) :
    (restore to_d true choices archive Vault.empty).2.1.refs.rows.get? name = some h := by
  let start : Restoring H := ⟨Vault.empty,archive.progress true,archive.restore_state,{}⟩
  have fresh : archive.progress true = .none := by
    unfold Archive.progress
    rw [unsaved]
    rfl
  obtain ⟨t,ran,quiet⟩ : ∃ t, (with_choices refs.entries choices.refs).foldlM restore_ref start = .ok t ∧ t.summary.failed = 0 := by
    refine Resumable.fold_quiet (fun s item member quiet => restore_ref_quiet ?_ ?_ quiet) rfl
    · have inside := (forall_with_choices refs.entries choices.refs fun x => x ∈ refs.entries).mpr (fun _ here => here) item member
      exact valid _ _ ((refs.mem_entries _ _).mp inside)
    · obtain ⟨x,-,rfl⟩ := List.mem_map.mp member
      exact (answered x.2).2.2
  have all : restore_all to_d choices archive.shards ⟨[],refs,runs,[]⟩ start = .ok t := ran
  have after : (restore to_d true choices archive Vault.empty).2.1 = t.vault := by
    unfold restore
    rw [present]
    dsimp only
    rw [all]
  rw [after]
  refine ((restore_all_holds_iff to_d all quiet).mpr ?_).refs name h listed
  change Trusted to_d (archive.progress true) Vault.empty _
  rw [fresh]
  exact trusted_none to_d Vault.empty _

/-- A registry without commits and runs comes back. -/
theorem empty_round_trips (exported : registry_export from_d v levels got listed .fresh = some archive)
    (commits : v.ledger.columns.entries = []) (runs : v.runs.entries = []) (linked : v.run_commits = []) :
    RoundTrips crypto levels from_d to_d v archive := by
  intro choices answered
  obtain ⟨rows,refs,listing,named,unsaved,present⟩ := exported_manifest exported
  obtain rfl := exported_commits_none listing commits
  have bare : Bare refs (restore to_d true choices archive Vault.empty).2.1 := restore_bare present
  have same_refs (name : String) := exported_refs_get named name
  have no_columns (h : H) : v.ledger.columns.get? h = none := by
    ext columns
    rw [← Dict.mem_entries,commits]
    exact iff_of_false List.not_mem_nil nofun
  have no_commit (h : H) : ¬v.ledger.columns.contains h = true := by
    rw [Dict.contains,no_columns]
    exact Bool.false_ne_true
  constructor
  · intro h
    rw [bare.columns,no_columns]
  · intro h there
    exact absurd there (no_commit h)
  · intro h verifies
    obtain ⟨row,received,served,-⟩ := verifies
    rw [Vault.served,no_columns] at served
    cases served
  · intro link
    rw [bare.linked,linked]
  · intro run_id
    rw [bare.runs]
    ext run
    rw [← Dict.mem_entries,runs]
    exact iff_of_false nofun List.not_mem_nil
  · intro name
    rw [← same_refs]
    ext h
    constructor
    · intro found
      exact bare.refs name h found
    · intro listed
      refine restored_refs answered unsaved (fun other g there => ?_) present listed
      exact v.refs.valid other g (same_refs other ▸ there)
  · intro h object reaches
    cases reaches with
    | inl snapshot =>
      obtain ⟨columns,found,-⟩ := snapshot
      rw [no_columns] at found
      cases found
    | inr tree => exact absurd tree.1 (no_commit h)

/-- A registry comes back from its archive, at whatever time it is restored, exactly when there is no commit and no run in it. -/
theorem round_trips_iff (crypto : Ed25519 K) (levels : Nat) (from_d to_d : Deployment) (v : Vault H) (got : H → Bool)
    (listed : Bool) (archive : Archive H) (exported : registry_export from_d v levels got listed .fresh = some archive) :
    RoundTrips crypto levels from_d to_d v archive ↔
      v.ledger.columns.entries = [] ∧ v.runs.entries = [] ∧ v.run_commits = [] := by
  constructor
  · intro comes_back
    exact round_trip_empties exported comes_back
  · intro bare
    exact empty_round_trips exported bare.1 bare.2.1 bare.2.2

end RoundTrip

theorem one_ref_comes_back : ∃ archive, registry_export (lone 0) (one_ref ⟨[1]⟩) 0 (fun _ => true) true .fresh = some archive ∧
    ∀ crypto : Ed25519 Unit, RoundTrips crypto 0 (lone 0) (lone 1) (one_ref ⟨[1]⟩) archive := by
  have exports : (registry_export (lone 0) (one_ref ⟨[1]⟩) 0 (fun _ => true) true .fresh).isSome = true := by decide +kernel
  obtain ⟨archive,exported⟩ := Option.isSome_iff_exists.mp exports
  refine ⟨archive,exported,fun crypto => ?_⟩
  exact (round_trips_iff crypto 0 (lone 0) (lone 1) (one_ref ⟨[1]⟩) (fun _ => true) true archive exported).mpr ⟨rfl,rfl,rfl⟩

/-! One commit of one file. -/

def first_commit : Commit Name where
  payload :=
    { parents := []
      author := "ada"
      timestamp := "2024-05-17T12:00:00"
      message := "first"
      tree := Dict.ofList [(["a.py"],⟨.sha ⟨[5]⟩,1,.code,[],[]⟩)]
      tags := []
      metrics := ∅
      project_id := "p"
      project_name := "demo"
      run_id := none
      env_snapshot_id := none }
  hash := ⟨[7]⟩
  signature := none

def pushed_once : Vault Name :=
  let stored := (post_object (lone 0) (answered 0).policy Vault.empty ⟨[5]⟩ [5]).2
  (post_commit (lone 0) (answered 0).policy stored (answered 0).now first_commit).2

/-- Every object is downloaded, and the commit does not come back as it was. -/
theorem commit_restamped : ∃ archive manifest, registry_export (lone 0) pushed_once 2 (fun _ => true) true .fresh = some archive ∧
    archive.manifest = some manifest ∧ manifest.objects = [(⟨[5]⟩,true)] ∧
      ∀ crypto : Ed25519 Unit, ¬RoundTrips crypto 2 (lone 0) (lone 1) pushed_once archive := by
  have exports : ((registry_export (lone 0) pushed_once 2 (fun _ => true) true .fresh).bind fun archive =>
      archive.manifest.map fun manifest => manifest.objects) = some [(⟨[5]⟩,true)] := by decide +kernel
  obtain ⟨archive,exported,written⟩ := Option.bind_eq_some_iff.mp exports
  obtain ⟨manifest,present,objects⟩ := Option.map_eq_some_iff.mp written
  refine ⟨archive,manifest,exported,present,objects,fun crypto comes_back => ?_⟩
  have one_commit : pushed_once.ledger.columns.entries.length = 1 := by decide +kernel
  rw [(round_trip_empties exported comes_back).1] at one_commit
  cases one_commit

end AetherVault.RegistryArchive
