import AetherVault.ObjectFiles

/-! What the Bloom filters know of the rows, while requests and a collection's rebuild
take turns at every point at which the server lets another request run. -/
namespace AetherVault
open Lib Hashing
open Lib.Prog (call forEach foldEach leaf Only)

variable {H : Type} [DecidableEq H]

/-- The row's hash was added to a filter that is asked for it. -/
def InFilter (config : ServerConfig) (r : Registry H) (key : Tenant × H) : Prop :=
  key.2 ∈ r.filters (config.cas_isolation.cas_tenant_id key.1) ∨ key.2 ∈ r.filters none

def Sound (config : ServerConfig) (r : Registry H) : Prop :=
  ∀ key row, r.objects.get? key = some row → InFilter config r key

theorem Sound.negative {config : ServerConfig} {r : Registry H} (sound : Sound config r) (me : Nat) (m : Moment H)
    (tenant : Tenant) (h : H)
    (own : h ∉ (Registry.exec me _ m (.bloom_exists (config.cas_isolation.cas_tenant_id tenant) [h]) r).1)
    (shared : h ∉ (Registry.exec me _ m (.bloom_exists none [h]) r).1) :
    h ∉ r.select_objects (config.cas_isolation.cas_tenant_id tenant) [h] := by
  intro found
  obtain ⟨key,member,rfl⟩ := List.mem_map.mp found
  obtain ⟨listed,visible⟩ := List.mem_filter.mp member
  obtain ⟨row,stored⟩ := (r.objects.mem_keys key).mp listed
  have absent : key.2 ∉ r.filters (config.cas_isolation.cas_tenant_id tenant) ∧ key.2 ∉ r.filters none := by
    simp only [Registry.exec,List.mem_filter,List.mem_singleton,true_and,Bool.or_eq_true,List.contains_iff_mem,
      not_or] at own shared
    exact ⟨own.1,shared.1⟩
  rcases sound key row stored with held | held
  · cases isolation : config.cas_isolation with
    | shared =>
      rw [isolation] at held
      exact absent.2 held
    | isolated =>
      obtain rfl : tenant = key.1 := by simpa [isolation,CasIsolation.cas_tenant_id] using visible
      exact absent.1 held
  · exact absent.2 held

/-- The row's hash is in a filter other than this one. -/
def Spared (config : ServerConfig) (r : Registry H) (filter : Option Tenant) (key : Tenant × H) : Prop :=
  filter ≠ config.cas_isolation.cas_tenant_id key.1 ∧ key.2 ∈ r.filters (config.cas_isolation.cas_tenant_id key.1) ∨
    filter ≠ none ∧ key.2 ∈ r.filters none

/-- No row is stored before its hash is in a filter, and none is stored when its filter is emptied. -/
def Ahead (config : ServerConfig) (β : Type) (q : Query H β) (r : Registry H) : Prop :=
  match q with
  | .insert_object tenant h _ => r.objects.contains (tenant,h) = true ∨ InFilter config r (tenant,h)
  | .delete_filter filter => ∀ key row, r.objects.get? key = some row → Spared config r filter key
  | _ => True

omit [DecidableEq H] in
theorem InFilter.delete {config : ServerConfig} {r : Registry H} {filter : Option Tenant} {key : Tenant × H} :
    InFilter config {r with filters := Function.update r.filters filter []} key ↔ Spared config r filter key := by
  have at_filter (other : Option Tenant) : key.2 ∈ Function.update r.filters filter [] other ↔
      filter ≠ other ∧ key.2 ∈ r.filters other := by
    by_cases same : other = filter
    · subst other
      simp
    · simp [Function.update_of_ne same,Ne.symm same]
  unfold InFilter Spared
  rw [at_filter,at_filter]

omit [DecidableEq H] in
theorem InFilter.add {config : ServerConfig} {r : Registry H} {filter : Option Tenant} {hashes : List H}
    {key : Tenant × H} (held : InFilter config r key) : InFilter config (r.bloom_add filter hashes) key := by
  have grown (other : Option Tenant) : r.filters other ⊆ (r.bloom_add filter hashes).filters other := by
    by_cases same : other = filter
    · subst other
      simp [Registry.bloom_add]
    · simp [Registry.bloom_add,Function.update_of_ne same]
  exact held.imp (fun inside => grown _ inside) fun inside => grown _ inside

/-- The query does not empty the only filter that has the row's hash. -/
def Query.Spares (config : ServerConfig) (r : Registry H) (key : Tenant × H) (β : Type) (q : Query H β) : Prop :=
  match q with
  | .delete_filter filter => Spared config r filter key
  | _ => True

def Query.Inserts (key : Tenant × H) (β : Type) (q : Query H β) : Prop :=
  match q with
  | .insert_object tenant h _ => (tenant,h) = key
  | _ => False

theorem exec_in_filter {config : ServerConfig} {me : Nat} {β : Type} {m : Moment H} {q : Query H β} {r : Registry H}
    {key : Tenant × H} (held : InFilter config r key) (spares : q.Spares config r key) :
    InFilter config (Registry.exec me β m q r).2 key := by
  cases q with
  | delete_filter filter => exact InFilter.delete.mpr spares
  | bloom_add filter hashes => exact held.add
  | insert_object tenant h size =>
    unfold Registry.exec Registry.insert_object
    dsimp only
    split <;> exact held
  | insert_commit rows h row =>
    unfold Registry.exec Registry.insert_commit
    dsimp only
    split <;> exact held
  | _ => exact held

theorem exec_rows {me : Nat} {β : Type} {m : Moment H} {q : Query H β} {r : Registry H} {key : Tenant × H} {row : DBObject}
    (found : (Registry.exec me β m q r).2.objects.get? key = some row) :
    r.objects.get? key = some row ∨ q.Inserts key ∧ r.objects.contains key = false := by
  cases q with
  | insert_object tenant h size =>
    unfold Registry.exec Registry.insert_object at found
    dsimp only at found
    split at found
    · exact Or.inl found
    · rename_i fresh
      change (r.objects.set (tenant,h) ⟨size,m.clock⟩).get? key = some row at found
      rw [Dict.get?_set] at found
      split at found
      · rename_i mine
        subst key
        exact Or.inr ⟨rfl,by simpa using fresh⟩
      · exact Or.inl found
  | insert_commit rows h row =>
    unfold Registry.exec Registry.insert_commit at found
    dsimp only at found
    split at found <;> exact Or.inl found
  | commit =>
    change (r.objects.filter fun key _ => decide (key ∉ (r.deleting me).objects)).get? key = some row at found
    rw [Dict.get?_filter,Option.filter_eq_some_iff] at found
    exact Or.inl found.1
  | _ => exact Or.inl found

theorem exec_sound {config : ServerConfig} {me : Nat} {β : Type} {m : Moment H} {q : Query H β} {r : Registry H}
    (sound : Sound config r) : Sound config (Registry.exec me β m q r).2 ↔ Ahead config β q r := by
  constructor
  · intro after
    cases q with
    | insert_object tenant h size =>
      by_cases there : r.objects.contains (tenant,h) = true
      · exact Or.inl there
      · have added : (Registry.exec me _ m (.insert_object tenant h size) r).2 =
            {r with objects := r.objects.set (tenant,h) ⟨size,m.clock⟩} := by
          simp [Registry.exec,Registry.insert_object,there]
        rw [added] at after
        exact Or.inr (after (tenant,h) ⟨size,m.clock⟩ (by simp))
    | delete_filter filter => exact fun key row found => InFilter.delete.mp (after key row found)
    | _ => trivial
  · intro ahead key row found
    have spares (held : r.objects.get? key = some row) : q.Spares config r key := by
      cases q with
      | delete_filter filter => exact ahead key row held
      | _ => trivial
    rcases exec_rows found with held | ⟨inserts,fresh⟩
    · exact exec_in_filter (sound key row held) (spares held)
    · cases q with
      | insert_object tenant h size =>
        obtain rfl : (tenant,h) = key := inserts
        have known : InFilter config r (tenant,h) := ahead.resolve_left (by simp [fresh])
        exact exec_in_filter known trivial
      | _ => exact absurd inserts id

/-! Requests in flight. -/

abbrev Hub (H : Type) := Pool (Query H) ServerError Nat (Registry H)

/-- A request is about to add the row's hash to its filter. -/
def Adding (config : ServerConfig) (hub : Hub H) (key : Tenant × H) : Prop :=
  ∃ i hashes next, hub.progs i = .op (.bloom_add (config.cas_isolation.cas_tenant_id key.1) hashes) next ∧ key.2 ∈ hashes

/-- No filter is emptied while it alone has the hash of a row, but for rows whose request
has yet to add them. -/
def Calm (config : ServerConfig) (β : Type) (q : Query H β) (hub : Hub H) : Prop :=
  match q with
  | .delete_filter filter => ∀ key row, hub.state.objects.get? key = some row →
      Spared config hub.state filter key ∨ Adding config hub key
  | _ => True

def Query.Plain (β : Type) (q : Query H β) : Prop :=
  match q with
  | .insert_object _ _ _ => False
  | _ => True

/-- What a request does right after it has inserted a row is to add the row's hash. -/
inductive Adds (config : ServerConfig) {α : Type} : Handler H α → Prop
  | pure (a : α) : Adds config (.pure a)
  | fail (e : ServerError) : Adds config (.fail e)
  | insert (tenant : Tenant) (h : H) (size : Nat) (next : Bool → Handler H α) (later : Bool → Unit → Handler H α)
      (begins : ∀ b, next b = .op (.bloom_add (config.cas_isolation.cas_tenant_id tenant) [h]) (later b))
      (goes_on : ∀ b u, Adds config (later b u)) : Adds config (.op (.insert_object tenant h size) next)
  | plain {β : Type} (q : Query H β) (next : β → Handler H α) (plain : q.Plain) (goes_on : ∀ b, Adds config (next b)) :
      Adds config (.op q next)

omit [DecidableEq H] in
theorem Adds.next {config : ServerConfig} {α β : Type} {q : Query H β} {next : β → Handler H α}
    (adds : Adds config (.op q next)) (b : β) : Adds config (next b) := by
  cases adds with
  | insert tenant h size next later begins goes_on =>
    rw [begins]
    exact .plain _ _ trivial (goes_on b)
  | plain q next plain goes_on => exact goes_on b

omit [DecidableEq H] in
theorem Adds.of_only {config : ServerConfig} {α : Type} {p : Handler H α} (only : p.Only Query.Plain) : Adds config p := by
  induction p with
  | pure a => exact .pure a
  | fail e => exact .fail e
  | op q next ih => exact .plain q next only.1 fun b => ih b (only.2 b)

omit [DecidableEq H] in
theorem Adds.bind {config : ServerConfig} {α β : Type} {p : Handler H α} {f : α → Handler H β} (first : Adds config p)
    (later : ∀ a, Adds config (f a)) : Adds config (p.bind f) := by
  induction first with
  | pure a => exact later a
  | fail e => exact .fail e
  | insert tenant h size next add begins goes_on ih =>
    refine .insert tenant h size _ (fun b u => (add b u).bind f) (fun b => ?_) ih
    rw [begins]
    rfl
  | plain q next plain goes_on ih => exact .plain q _ plain ih

omit [DecidableEq H] in
theorem Adds.attempt {config : ServerConfig} {α : Type} {p : Handler H α} {handler : ServerError → Handler H α}
    (first : Adds config p) (later : ∀ e, Adds config (handler e)) : Adds config (p.attempt handler) := by
  induction first with
  | pure a => exact .pure a
  | fail e => exact later e
  | insert tenant h size next add begins goes_on ih =>
    refine .insert tenant h size _ (fun b u => (add b u).attempt handler) (fun b => ?_) ih
    rw [begins]
    rfl
  | plain q next plain goes_on ih => exact .plain q _ plain ih

omit [DecidableEq H] in
theorem Query.Storing.plain (β : Type) (q : Query H β) (storing : q.Storing) : q.Plain := by
  cases q <;> trivial

variable [Hashing H]

theorem upload_adds (config : ServerConfig) (tenant : Tenant) (h : H) (content : Bytes) (declared : Bool) :
    Adds config (upload_object config tenant h content declared) := by
  have stores : Adds config (store_upload config tenant h content) := by
    refine .bind (.of_only ((store_object_storing _ _ _).mono Query.Storing.plain)) fun _ =>
      .plain _ _ trivial fun found => ?_
    cases found with
    | none => exact .fail _
    | some stat =>
      exact .insert tenant h stat.1 _ (fun inserted _ => .pure (if inserted then 201 else 409)) (fun _ => rfl)
        fun _ _ => .pure _
  refine .bind (.of_only ((check_hash_exists_storing _ _).mono Query.Storing.plain)) fun might_exist =>
    .bind (.of_only ((find_objects_storing _ _).mono Query.Storing.plain)) fun rows => ?_
  split
  · exact .fail _
  · split
    · exact .pure _
    · split
      · exact .pure _
      · exact stores.attempt fun e => .pure _

omit [Hashing H] in
theorem batch_plain (config : ServerConfig) (tenant : Tenant) (hashes : List H) :
    (check_objects_batch config tenant hashes).Only Query.Plain := by
  have asks : (check_objects_batch config tenant hashes).Only Query.Storing := by
    refine .bind (.foldEach (fun hits chunk => ?_) _ _) fun existence => .bind (find_objects_storing _ _) fun found => trivial
    exact .bind (tenant_hits_storing _ _) fun own => .bind (global_hits_storing _) fun shared => trivial
  exact asks.mono Query.Storing.plain

omit [Hashing H] [DecidableEq H] in
theorem add_hashes_plain (hashes : List H) (filter : Option Tenant) :
    (RedisCache.add_hashes hashes filter).Only Query.Plain := .forEach (fun _ => .call trivial) _

omit [Hashing H] in
theorem collection_plain (config : ServerConfig) : (run_garbage_collection (H := H) config).Only Query.Plain := by
  have purges (marks : Dict Tenant (Marked H)) (gc_cutoff count : Nat) (key : ObjectKey H) :
      (purge_file marks gc_cutoff count key).Only Query.Plain := by
    unfold purge_file
    split
    · trivial
    · refine .bind (.call trivial) fun stat => ?_
      split
      · trivial
      · split
        · trivial
        · refine .bind (.call trivial) fun gone => ?_
          split <;> trivial
  have rebuilds (marks : Dict Tenant (Marked H)) (deleted_count : Nat) :
      (rebuild_after config.cas_isolation marks deleted_count).Only Query.Plain := by
    unfold rebuild_after
    split
    · trivial
    · exact .bind (.call trivial) fun _ => .bind (.call trivial) fun _ =>
        .bind (.forEach (fun _ => .bind (.call trivial) fun _ => .bind (.call trivial) fun _ => add_hashes_plain _ _) _)
          fun _ => add_hashes_plain _ _
  have trees (marks : Dict Tenant (Marked H)) (rows : List (DBTree H)) :
      (delete_dead_trees marks rows).Only Query.Plain := by
    unfold delete_dead_trees
    split
    · trivial
    · exact .forEach (fun _ => .call trivial) _
  refine .attempt (.bind ?_ fun _ => trivial) fun e => .bind (.call trivial) fun _ => trivial
  refine .bind (.call trivial) fun now => .bind (.call trivial) fun tree_rows => .bind (.call trivial) fun roots =>
    .bind (.call trivial) fun objects => .bind (.forEach (fun _ => .call trivial) _) fun _ => .bind (trees _ _) fun _ =>
      .bind ?_ fun deleted_count => .bind (rebuilds _ _) fun _ => .call trivial
  exact .bind (.call trivial) fun flat => .bind (.foldEach (fun _ _ => purges _ _ _ _) _ _) fun count =>
    .bind (.call trivial) fun nested => .foldEach (fun _ _ => purges _ _ _ _) _ _

/-- The requests that the registry serves at the same time. -/
inductive ApiCall [TreeContent H] (config : ServerConfig) : Handler H Unit → Prop
  | upload (tenant : Tenant) (h : H) (content : Bytes) (declared : Bool) :
      ApiCall config ((upload_object config tenant h content declared).bind fun _ => .pure ())
  | push (tenant : Tenant) (rejected : Bool) (h : H) (data : CommitData H) :
      ApiCall config ((push_commit config tenant rejected h data).bind fun _ => .pure ())
  | batch (tenant : Tenant) (hashes : List H) :
      ApiCall config ((check_objects_batch config tenant hashes).bind fun _ => .pure ())
  | collect : ApiCall config ((run_garbage_collection config).bind fun _ => .pure ())

theorem ApiCall.adds [TreeContent H] {config : ServerConfig} {p : Handler H Unit} (called : ApiCall config p) :
    Adds config p := by
  cases called with
  | upload tenant h content declared => exact (upload_adds config tenant h content declared).bind fun _ => .pure ()
  | push tenant rejected h data =>
    exact (Adds.of_only ((push_storing tenant rejected h data).mono Query.Storing.plain)).bind fun _ => .pure ()
  | batch tenant hashes => exact (Adds.of_only (batch_plain config tenant hashes)).bind fun _ => .pure ()
  | collect => exact (Adds.of_only (collection_plain config)).bind fun _ => .pure ()

/-- The registry under requests that take turns, where every query meets a rule. -/
abbrev Serves [TreeContent H] (config : ServerConfig)
    (rule : ∀ β, Query H β → Hub H → Prop) : Hub H → Hub H → Prop :=
  Relation.ReflTransGen (Pool.Advance Registry.exec (ApiCall config)
    (fun β hub me (_ : Moment H) q => Registry.ready me β q hub.state ∧ rule β q hub))

/-- Each row's hash is in its filter, or the request that inserted the row adds it next. -/
structure Settled (config : ServerConfig) (hub : Hub H) : Prop where
  known : ∀ key row, hub.state.objects.get? key = some row → InFilter config hub.state key ∨ Adding config hub key
  adds : ∀ i, Adds config (hub.progs i)

omit [Hashing H] in
theorem Settled.query {config : ServerConfig} {hub : Hub H} {β : Type} {me : Nat} {m : Moment H} {q : Query H β}
    {next : β → Handler H Unit} (settled : Settled config hub) (at_op : hub.progs me = .op q next)
    (calm : Calm config β q hub) : Settled config ⟨(Registry.exec me _ m q hub.state).2,
      Function.update hub.progs me (next (Registry.exec me _ m q hub.state).1)⟩ := by
  have mine := settled.adds me
  rw [at_op] at mine
  constructor
  · intro key row found
    rcases exec_rows found with held | ⟨inserts,-⟩
    · have spares : q.Spares config hub.state key ∨ Adding config hub key := by
        cases q with
        | delete_filter filter => exact calm key row held
        | _ => exact Or.inl trivial
      have either : InFilter config hub.state key ∧ q.Spares config hub.state key ∨ Adding config hub key := by
        rcases spares with spares | adding
        · exact (settled.known key row held).imp (fun known => ⟨known,spares⟩) id
        · exact Or.inr adding
      rcases either with ⟨known,spares⟩ | ⟨i,hashes,rest,there,inside⟩
      · exact Or.inl (exec_in_filter known spares)
      · by_cases same : i = me
        · -- the request that was about to add the hash has just done so
          subst i
          rw [at_op] at there
          cases there
          refine Or.inl (Or.inl ?_)
          simp [Registry.exec,Registry.bloom_add,inside]
        · exact Or.inr ⟨i,hashes,rest,by simpa [Function.update_of_ne same] using there,inside⟩
    · cases q with
      | insert_object tenant h size =>
        obtain rfl : (tenant,h) = key := inserts
        cases mine with
        | insert tenant h size next later begins goes_on =>
          exact Or.inr ⟨me,[h],later (Registry.exec me _ m (.insert_object tenant h size) hub.state).1,by simp [begins],by simp⟩
        | plain q next plain goes_on => exact absurd plain id
      | _ => exact absurd inserts id
  · intro i
    by_cases same : i = me
    · subst i
      simpa using mine.next _
    · simpa [Function.update_of_ne same] using settled.adds i

omit [Hashing H] in
theorem Settled.idle {config : ServerConfig} {hub : Hub H} (idle : ∀ i, (hub.progs i).finished)
    (sound : Sound config hub.state) : Settled config hub where
  known := fun key row found => Or.inl (sound key row found)
  adds := by
    intro i
    have ended := idle i
    cases at_i : hub.progs i with
    | pure a => exact .pure a
    | fail e => exact .fail e
    | op q next =>
      rw [at_i] at ended
      exact absurd ended id

theorem Settled.advance [TreeContent H] {config : ServerConfig} {before after : Hub H}
    (served : Serves config (Calm config) before after) (settled : Settled config before) : Settled config after := by
  induction served with
  | refl => exact settled
  | tail _ one ih =>
    cases one with
    | op _ me m q next at_op allowed => exact ih.query at_op allowed.2
    | start hub me p idle launched =>
      constructor
      · intro key row found
        refine (ih.known key row found).imp id fun adding => ?_
        obtain ⟨i,hashes,next,there,inside⟩ := adding
        have differ : i ≠ me := by
          rintro rfl
          rw [there] at idle
          exact idle
        exact ⟨i,hashes,next,by simpa [Function.update_of_ne differ] using there,inside⟩
      · intro i
        by_cases same : i = me
        · subst i
          simpa using launched.adds
        · simpa [Function.update_of_ne same] using ih.adds i

omit [DecidableEq H] [Hashing H] in
theorem exec_deleting [DecidableEq H] {me other : Nat} (differ : other ≠ me) {β : Type} {m : Moment H} {q : Query H β}
    {r : Registry H} : (Registry.exec me β m q r).2.deleting other = r.deleting other := by
  cases q with
  | insert_object tenant h size =>
    unfold Registry.exec Registry.insert_object
    dsimp only
    split <;> rfl
  | insert_commit rows h row =>
    unfold Registry.exec Registry.insert_commit
    dsimp only
    split <;> rfl
  | delete_objects dead => simp [Registry.exec,Registry.delete_objects,Function.update_of_ne differ]
  | delete_trees dead => simp [Registry.exec,Registry.delete_trees,Function.update_of_ne differ]
  | commit => simp [Registry.exec,Registry.commit,Registry.finish,Function.update_of_ne differ]
  | rollback => simp [Registry.exec,Registry.finish,Function.update_of_ne differ]
  | _ => rfl

/-- No one else has deleted anything that is not committed. -/
def Undisturbed (me : Nat) (r : Registry H) : Prop := ∀ other, other ≠ me → r.deleting other = ⟨[],[]⟩

omit [Hashing H] in
theorem Undisturbed.ready {me : Nat} {r : Registry H} (undisturbed : Undisturbed me r) {β : Type} (q : Query H β) :
    Registry.ready me β q r := by
  cases q <;> first | trivial | (intro other differ; simp [undisturbed other differ])

def one_by_one (hub : Hub Name) (clock : Nat) (p : Handler Name Unit) : Hub Name :=
  let ran := p.run (Registry.exec 0) (at_time clock) hub.state
  ⟨ran.2,Function.update hub.progs 0 (Prog.leaf ran.1)⟩

theorem served_one {rule : ∀ β, Query Name β → Hub Name → Prop} (hub : Hub Name) (clock : Nat) (p : Handler Name Unit)
    (check : ∀ β, Query Name β → Registry Name → Bool)
    (allowed : ∀ β (q : Query Name β) (hub : Hub Name), check _ q hub.state = true → rule _ q hub)
    (idle : (hub.progs 0).finished) (called : ApiCall sample_config p) (undisturbed : Undisturbed 0 hub.state)
    (checked : p.checks (Registry.exec 0) (at_time clock) check hub.state = true) :
    Serves sample_config rule hub (one_by_one hub clock p) :=
  Pool.advance_program 0 (at_time clock) (Undisturbed 0) check
    (fun _ _ _ holds other differ => (exec_deleting differ).trans (holds other differ))
    (fun _ q hub holds passed => ⟨holds.ready q,allowed _ q hub passed⟩) hub p idle called undisturbed checked

structure Quiet (hub : Hub Name) : Prop where
  idle : ∀ i, (hub.progs i).finished
  undisturbed : Undisturbed 0 hub.state

theorem Quiet.one_by_one {hub : Hub Name} (quiet : Quiet hub) (clock : Nat) (p : Handler Name Unit) :
    Quiet (one_by_one hub clock p) where
  idle := by
    intro i
    by_cases first : i = 0
    · subst i
      simpa [AetherVault.one_by_one] using Prog.leaf_finished _
    · simpa [AetherVault.one_by_one,Function.update_of_ne first] using quiet.idle i
  undisturbed := Prog.run_keeps (P := Undisturbed 0)
    (fun _ _ _ holds other differ => (exec_deleting differ).trans (holds other differ)) p quiet.undisturbed

def upload_at (hub : Hub Name) (clock : Nat) (content : Bytes) : Hub Name :=
  one_by_one hub clock ((upload_object sample_config "default" ⟨content⟩ content false).bind fun _ => .pure ())

def collect_at (hub : Hub Name) (clock : Nat) : Hub Name :=
  one_by_one hub clock ((run_garbage_collection sample_config).bind fun _ => .pure ())

def blank_hub (filter : List Name) : Hub Name := ⟨{Registry.empty with filters := fun _ => filter},fun _ => .pure ()⟩

def ahead_check (β : Type) (q : Query Name β) (r : Registry Name) : Bool :=
  match q with
  | .insert_object _ h _ => (r.filters none).contains h
  | .delete_filter _ => r.objects.keys.isEmpty
  | _ => true

end AetherVault
