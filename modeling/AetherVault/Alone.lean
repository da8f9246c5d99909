import AetherVault.Footprint

/-! One process with no one beside it: what reading, uploading and locking come to
when nothing changes between two operations. -/
namespace AetherVault
open Lib Hashing
open Lib.Prog (Only call forEach foldEach)
open Lib.Discipline (Meets)

variable {H : Type} [DecidableEq H] [Hashing H]

/-- No one acts in between, and nothing is required of the operations. -/
def alone (env : Env) (me : Nat) (may : ∀ β, Choice → Op H β → World H → Prop) : Discipline (Op H) (World H) Choice where
  exec := World.exec env me
  may := may
  inv := fun _ => True
  rely := fun s t => t = s
  pre := fun _ _ _ _ => True

/-- The names under which an entry's objects are looked for; `none` where the code raises. -/
def object_names (e : TreeEntry H) : Option (List H) :=
  let parts := e.layers.map (·.hash) ++ e.chunks.map (·.hash)
  if parts ≠ [] then some parts
  else match e.hash with
    | .sha h => some [h]
    | .kind _ => some []
    | _ => none

omit [DecidableEq H] [Hashing H] in
theorem entry_objects_eq (e : TreeEntry H) :
    entry_objects e = match object_names e with
      | some names => .pure names
      | none => .fail .type_error := by
  unfold entry_objects object_names
  extract_lets parts
  split
  · rfl
  · cases e.hash <;> rfl

section Alone

variable {env : Env} {me : Nat} {may : ∀ β, Choice → Op H β → World H → Prop} {w : World H}

theorem alone_call {β : Type} {o : Op H β} {post : Except (Failure H) β → World H → Prop}
    (reached : ∀ c, may β c o w → post (.ok (World.exec env me β c o w).1) (World.exec env me β c o w).2) :
    (alone env me may).Meets (call o) post w := by
  refine .call fun c t same _ allowed => ?_
  obtain rfl : t = w := same
  exact ⟨trivial,reached c allowed⟩

theorem alone_read {α β : Type} {o : Op H β} {b : β} {next : β → Command H α}
    {post : Except (Failure H) α → World H → Prop} (reads : ∀ c, World.exec env me β c o w = (b,w))
    (later : (alone env me may).Meets (next b) post w) : (alone env me may).Meets (call o >>= next) post w := by
  refine .bind (alone_call fun c _ => ?_)
  rw [reads]
  exact later

/-! Locks, when what they are is not what matters. -/

def World.with_locks (w : World H) (locks : Locks) : World H := {w with repo := {w.repo with locks := locks}}

/-- No other process is in the lock. -/
def World.Unlocked (w : World H) (me : Nat) (lock : LockName) : Prop :=
  ∀ owner depth, w.repo.locks lock = some (owner,depth) → owner = me

theorem acquire_result (w : World H) (me : Nat) (lock : LockName) :
    (∃ locks, w.acquire me lock = (true,w.with_locks locks)) ∨ w.acquire me lock = (false,w) ∧ ¬w.Unlocked me lock := by
  unfold World.acquire World.Unlocked
  cases holder : w.repo.locks lock with
  | none => exact Or.inl ⟨_,rfl⟩
  | some held =>
    by_cases mine : held.1 = me
    · exact Or.inl ⟨_,if_pos mine⟩
    · exact Or.inr ⟨if_neg mine,fun only => mine (only held.1 held.2 rfl)⟩

theorem release_result (w : World H) (me : Nat) (lock : LockName) : ∃ locks, w.release me lock = w.with_locks locks := by
  unfold World.release
  cases holder : w.repo.locks lock with
  | none => exact ⟨w.repo.locks,rfl⟩
  | some held =>
    by_cases mine : held.1 = me
    · exact ⟨_,if_pos mine⟩
    · exact ⟨w.repo.locks,if_neg mine⟩

theorem alone_with_lock {α : Type} {lock : LockName} {body : Command H α} {post : Except (Failure H) α → World H → Prop}
    (inside : ∀ locks, (alone env me may).Meets body (fun r t => ∀ locks, post r (t.with_locks locks)) (w.with_locks locks))
    (refused : ¬w.Unlocked me lock → post (.error .repo_locked) w) :
    (alone env me may).Meets (with_lock lock body) post w := by
  refine .bind (alone_call fun c _ => ?_)
  have answer : World.exec env me _ c (.acquire lock) w = w.acquire me lock := rfl
  rw [answer]
  rcases acquire_result w me lock with ⟨locks,taken⟩ | ⟨failed,other⟩
  · rw [taken]
    dsimp only
    rw [if_pos rfl]
    refine .bind (.attempt ((inside locks).mono fun r t result => ?_))
    obtain ⟨freed,same⟩ := release_result t me lock
    cases r with
    | ok a =>
      refine .bind (alone_call fun c _ => ?_)
      simp only [World.exec,same]
      exact result freed
    | error e =>
      refine .bind (alone_call fun c _ => ?_)
      simp only [World.exec,same]
      exact result freed
  · rw [failed]
    exact refused other

/-! The upload of a tree: what is in the local store, unless the registry has it. -/

/-- What there is to upload once some names have been looked up. -/
structure Candidates (objects : Objects H) (names : List H) (candidates : List (H × Bytes)) : Prop where
  distinct : (candidates.map Prod.fst).Nodup
  local_object : ∀ h content, (h,content) ∈ candidates → objects.get? h = some content ∧ h ∈ names
  complete : ∀ h ∈ names, ∀ content, objects.get? h = some content → h ∈ candidates.map Prod.fst

theorem Candidates.nil (objects : Objects H) : Candidates objects [] [] := ⟨by simp,by simp,by simp⟩

theorem Candidates.add {objects : Objects H} {names : List H} {candidates : List (H × Bytes)} {h : H}
    (so_far : Candidates objects names candidates) :
    Candidates objects (names ++ [h]) (match objects.get? h with
      | none => candidates
      | some content => if h ∈ candidates.map Prod.fst then candidates else candidates ++ [(h,content)]) := by
  have kept : Candidates objects (names ++ [h]) candidates ∨ (objects.get? h).isSome ∧ h ∉ candidates.map Prod.fst := by
    by_cases covered : h ∈ candidates.map Prod.fst ∨ objects.get? h = none
    · refine Or.inl ⟨so_far.distinct,fun g content member => ?_,fun g member content found => ?_⟩
      · exact ⟨(so_far.local_object g content member).1,List.mem_append_left _ (so_far.local_object g content member).2⟩
      · rcases List.mem_append.mp member with early | last
        · exact so_far.complete g early content found
        · obtain rfl := List.mem_singleton.mp last
          exact covered.resolve_right (by simp [found])
    · push Not at covered
      exact Or.inr ⟨Option.isSome_iff_ne_none.mpr covered.2,covered.1⟩
  cases found : objects.get? h with
  | none => exact kept.resolve_right (by simp [found])
  | some content =>
    dsimp only
    split
    · rename_i old
      exact kept.resolve_right fun new => new.2 old
    · rename_i new
      refine ⟨?_,?_,?_⟩
      · rw [List.map_append]
        exact List.nodup_append.mpr ⟨so_far.distinct,by simp,by
          intro a early b last same
          obtain rfl : b = h := by simpa using last
          exact new (same ▸ early)⟩
      · intro g other member
        rcases List.mem_append.mp member with early | last
        · exact ⟨(so_far.local_object g other early).1,List.mem_append_left _ (so_far.local_object g other early).2⟩
        · obtain ⟨rfl,rfl⟩ := Prod.mk.inj (List.mem_singleton.mp last)
          exact ⟨found,by simp⟩
      · intro g member other there
        rcases List.mem_append.mp member with early | last
        · simpa using Or.inl (by simpa using so_far.complete g early other there)
        · simp [List.mem_singleton.mp last]

theorem entry_candidates_alone {names : List H} {candidates : List (H × Bytes)} (item : Path × TreeEntry H)
    (so_far : Candidates w.repo.objects names candidates) :
    (alone env me may).Meets (entry_candidates candidates item) (fun r t => t = w ∧ match r with
      | .ok next => ∃ more, object_names item.2 = some more ∧ Candidates w.repo.objects (names ++ more) next
      | .error e => e = .type_error ∧ object_names item.2 = none) w := by
  unfold entry_candidates
  rw [entry_objects_eq]
  cases named : object_names item.2 with
  | none => exact ⟨rfl,rfl,rfl⟩
  | some more =>
    refine .foldEach (J := fun rest next t => t = w ∧ ∃ tried, more = tried ++ rest ∧
      Candidates w.repo.objects (names ++ tried) next) more candidates ⟨rfl,[],rfl,by simpa using so_far⟩ ?_ ?_
    · rintro h rest acc t ⟨rfl,tried,rfl,held⟩
      refine alone_read (fun c => rfl) ?_
      have added := held.add (h := h)
      rw [List.append_assoc] at added
      cases found : t.repo.objects.get? h with
      | none =>
        rw [found] at added
        exact ⟨rfl,tried ++ [h],by simp,added⟩
      | some content =>
        rw [found] at added
        exact ⟨rfl,tried ++ [h],by simp,added⟩
    · rintro acc t ⟨rfl,tried,rfl,held⟩
      exact ⟨rfl,_,rfl,by simpa using held⟩

/-- The names of all the objects of some entries; `none` where looking one up raises. -/
def all_names : List (Path × TreeEntry H) → Option (List H)
  | [] => some []
  | item::rest => (object_names item.2).bind fun names => (all_names rest).map (names ++ ·)

theorem scan_alone (items : List (Path × TreeEntry H)) :
    (alone env me may).Meets (foldEach entry_candidates items []) (fun r t => t = w ∧ match r with
      | .ok candidates => ∃ names, all_names items = some names ∧ Candidates w.repo.objects names candidates
      | .error e => e = .type_error ∧ all_names items = none) w := by
  refine .foldEach (J := fun rest candidates t => t = w ∧ ∃ names,
    all_names items = (all_names rest).map (names ++ ·) ∧ Candidates w.repo.objects names candidates) items []
    ⟨rfl,[],by simp,.nil _⟩ ?_ ?_
  · rintro item rest candidates t ⟨rfl,names,split,held⟩
    refine (entry_candidates_alone item held).mono ?_
    rintro r u ⟨rfl,result⟩
    cases r with
    | ok next =>
      obtain ⟨more,named,held⟩ := result
      refine ⟨rfl,names ++ more,?_,held⟩
      rw [split,all_names,named]
      simp [Function.comp_def]
    | error e =>
      refine ⟨rfl,result.1,?_⟩
      rw [split,all_names,result.2]
      rfl
  · rintro candidates t ⟨rfl,names,split,held⟩
    exact ⟨rfl,names,by simpa [all_names] using split,held⟩

/-- What sending objects to the registry leaves as it was. -/
structure Sent (w t : World H) : Prop where
  repo : t.repo = w.repo
  commits : t.server.commits = w.server.commits
  refs : t.server.refs = w.server.refs
  limit : t.server.max_upload_bytes = w.server.max_upload_bytes
  objects : w.server.objects.Within t.server.objects

theorem Sent.refl (w : World H) : Sent w w := ⟨rfl,rfl,rfl,rfl,.refl _⟩

theorem Sent.trans {a b c : World H} (first : Sent a b) (later : Sent b c) : Sent a c where
  repo := later.repo.trans first.repo
  commits := later.commits.trans first.commits
  refs := later.refs.trans first.refs
  limit := later.limit.trans first.limit
  objects := first.objects.trans later.objects

theorem Objects.Within.stored {before after : Objects H} (within : before.Within after) {h : H}
    (stored : before.exists? h = true) : after.exists? h = true := by
  obtain ⟨content,found⟩ := Option.isSome_iff_exists.mp stored
  exact Option.isSome_iff_exists.mpr ⟨content,within h content found⟩

/-- The upload limit lets the content through. -/
def Server.Takes (server : Server H) (content : Bytes) : Prop :=
  server.max_upload_bytes = 0 ∨ content.length ≤ server.max_upload_bytes

variable (may) in
/-- Every request is answered, and the registry turns no commit down. -/
def Reliable : Prop := ∀ β c (o : Op H β) w, may β c o w → c.net = .answered ∧ c.rejected = false

theorem upload_object_status (server : Server H) (h : H) (content : Bytes) (named : sha256 content = h) :
    ((server.upload_object h content).1 == 201) = true → (server.upload_object h content).2.objects.exists? h = true := by
  unfold Server.upload_object
  intro done
  split at done
  · simp at done
  · split at done
    · simp at done
    · split at done
      · simp at done
      · rename_i absent fits _
        rw [if_neg absent,if_neg fits,if_neg (by simpa using named)]
        obtain ⟨other,found⟩ := server.objects.publish_present content
        exact Option.isSome_iff_exists.mpr ⟨other,named ▸ found⟩

theorem upload_object_new (server : Server H) (h : H) (content : Bytes) (named : sha256 content = h)
    (fresh : server.objects.exists? h = false) (fits : server.Takes content) :
    server.upload_object h content = (201,{server with objects := server.objects.publish content}) := by
  unfold Server.upload_object
  rw [if_neg (by simp [fresh]),if_neg (by rcases fits with none | fits <;> omega),if_neg (by simpa using named)]

theorem request_sent {α : Type} (w : World H) (c : Choice) (h : H) (content : Bytes) (read : Nat → α) :
    Sent w (w.request c fun server => (read (server.upload_object h content).1,(server.upload_object h content).2)).2 := by
  have stored : Sent w {w with server := (w.server.upload_object h content).2} := by
    rcases upload_object_within w.server h content with same | stored
    · rw [same]
      exact .refl w
    · rw [stored]
      exact ⟨rfl,rfl,rfl,rfl,w.server.objects.publish_within content⟩
  unfold World.request
  cases c.net with
  | answered => exact stored
  | refused => exact ⟨rfl,rfl,rfl,rfl,.refl _⟩
  | lost => exact ⟨rfl,rfl,rfl,rfl,.refl _⟩
  | unanswered => exact ⟨stored.repo,stored.commits,stored.refs,stored.limit,stored.objects⟩

/-- One upload: on success the registry has the object, and an object it lacks and
takes is uploaded when the connection holds. -/
theorem upload_missing_alone (outcome : Bool × Option (Failure H)) (item : H × Bytes) (named : sha256 item.2 = item.1) :
    (alone env me may).Meets (upload_missing outcome item) (fun r t => Sent w t ∧ ∃ next, r = .ok next ∧
      (next = (true,none) → outcome = (true,none) ∧ t.server.objects.exists? item.1 = true) ∧
      (Reliable may → w.server.objects.exists? item.1 = false → w.server.Takes item.2 → next = outcome ∧
        t.server = {w.server with objects := w.server.objects.publish item.2})) w := by
  refine .attempt (.bind (.bind (alone_call fun c allowed => ?_)))
  have sent := request_sent w c item.1 item.2 id
  simp only [World.exec]
  cases net : c.net with
  | answered =>
    simp only [World.request,net] at sent ⊢
    refine ⟨sent,_,rfl,fun done => ?_,fun _ fresh fits => ?_⟩
    · obtain ⟨ok,clean⟩ := Prod.mk.inj done
      obtain ⟨before,stored⟩ := Bool.and_eq_true_iff.mp ok
      exact ⟨Prod.ext before clean,upload_object_status _ _ _ named stored⟩
    · simp [upload_object_new w.server item.1 item.2 named fresh fits]
  | refused =>
    simp only [World.request,net] at sent ⊢
    refine ⟨sent,_,rfl,by simp,fun reliable => ?_⟩
    simp [(reliable _ c _ w allowed).1] at net
  | lost =>
    simp only [World.request,net] at sent ⊢
    refine ⟨sent,_,rfl,by simp,fun reliable => ?_⟩
    simp [(reliable _ c _ w allowed).1] at net
  | unanswered =>
    simp only [World.request,net] at sent ⊢
    refine ⟨sent,_,rfl,by simp,fun reliable => ?_⟩
    simp [(reliable _ c _ w allowed).1] at net

theorem upload_all_alone (missing : List (H × Bytes)) (named : ∀ item ∈ missing, sha256 item.2 = item.1)
    (distinct : (missing.map Prod.fst).Nodup) :
    (alone env me may).Meets (foldEach upload_missing missing (true,none)) (fun r t => Sent w t ∧ ∃ outcome, r = .ok outcome ∧
      (outcome = (true,none) → ∀ item ∈ missing, t.server.objects.exists? item.1 = true) ∧
      (Reliable may → (∀ item ∈ missing, w.server.objects.exists? item.1 = false ∧ w.server.Takes item.2) →
        outcome = (true,none))) w := by
  refine .foldEach (J := fun rest outcome t => Sent w t ∧ ∃ tried, missing = tried ++ rest ∧
    (outcome = (true,none) → ∀ item ∈ tried, t.server.objects.exists? item.1 = true) ∧
    (Reliable may → (∀ item ∈ missing, w.server.objects.exists? item.1 = false ∧ w.server.Takes item.2) →
      outcome = (true,none) ∧ ∀ item ∈ rest, t.server.objects.exists? item.1 = false)) missing (true,none)
    ⟨.refl w,[],rfl,by simp,fun _ new => ⟨rfl,fun item member => (new item member).1⟩⟩ ?_ ?_
  · rintro item rest outcome t ⟨sent,tried,rfl,stored,absent⟩
    refine (upload_missing_alone outcome item (named item (by simp))).mono ?_
    rintro r u ⟨more,next,rfl,done,new⟩
    refine ⟨sent.trans more,tried ++ [item],by simp,fun ok x member => ?_,fun reliable fits => ?_⟩
    · obtain ⟨before,here⟩ := done ok
      rcases List.mem_append.mp member with early | last
      · exact more.objects.stored (stored before x early)
      · exact List.mem_singleton.mp last ▸ here
    · obtain ⟨clean,fresh⟩ := absent reliable fits
      have takes : t.server.Takes item.2 := by
        unfold Server.Takes
        rw [sent.limit]
        exact (fits item (by simp)).2
      obtain ⟨rfl,server⟩ := new reliable (fresh item (by simp)) takes
      refine ⟨clean,fun x member => ?_⟩
      have away : x.1 ≠ item.1 := fun same => by
        rw [List.map_append,List.map_cons] at distinct
        have parts := (List.nodup_cons.mp (List.nodup_append.mp distinct).2.1).1
        exact parts (List.mem_map.mpr ⟨x,member,same⟩)
      rw [server]
      unfold Objects.exists?
      rw [Objects.get?_publish,if_neg (by rwa [named item (by simp)])]
      exact fresh x (by simp [member])
  · rintro outcome t ⟨sent,tried,same,stored,absent⟩
    obtain rfl : missing = tried := by simpa using same
    exact ⟨sent,outcome,rfl,stored,fun reliable fits => (absent reliable fits).1⟩

def scanned (tree : Tree H) (only_paths : Option (List Path)) : List (Path × TreeEntry H) :=
  match only_paths with
  | none => tree.entries
  | some paths => tree.entries.filter (fun item => item.1 ∈ paths)

variable (may) in
/-- What an upload of the local objects under some names comes to. -/
structure Uploaded (w : World H) (names : List H) (r : Except (Failure H) Bool) (t : World H) : Prop where
  sent : Sent w t
  stored : r = .ok true → ∀ h ∈ names, w.repo.objects.exists? h = true → t.server.objects.exists? h = true
  succeeds : Reliable may →
    (∀ h ∈ names, ∀ content, w.repo.objects.get? h = some content → w.server.Takes content) → r = .ok true

theorem upload_found_alone {t : World H} {names found : List H} {candidates : List (H × Bytes)} (sent : Sent t w)
    (held : Candidates t.repo.objects names candidates) (there : ∀ h ∈ found, w.server.objects.exists? h = true)
    (checked : Reliable may → found = (candidates.map Prod.fst).filter w.server.objects.exists?) :
    (alone env me may).Meets (do
      let outcome ← foldEach upload_missing (candidates.filter (fun item => item.1 ∉ found)) (true,none)
      match outcome.2 with
      | some e => .fail e
      | none => .pure outcome.1) (Uploaded may t names) w := by
  have of_candidate (item : H × Bytes) (member : item ∈ candidates.filter (fun item => item.1 ∉ found)) :=
    held.local_object item.1 item.2 (List.mem_filter.mp member).1
  refine .bind ((upload_all_alone _ (fun item member => Objects.get?_named _ (of_candidate item member).1)
    (held.distinct.sublist (List.filter_sublist.map _))).mono ?_)
  rintro r v ⟨more,⟨ok,raised⟩,rfl,stored,new⟩
  have complete (clean : (ok,raised) = (true,none)) (h : H) (member : h ∈ names)
      (here : t.repo.objects.exists? h = true) : v.server.objects.exists? h = true := by
    by_cases old : h ∈ found
    · exact more.objects.stored (there h old)
    · obtain ⟨content,looked_up⟩ := Option.isSome_iff_exists.mp here
      obtain ⟨item,inside,rfl⟩ := List.mem_map.mp (held.complete h member content looked_up)
      exact stored clean item (List.mem_filter.mpr ⟨inside,by simpa using old⟩)
  have succeeded (reliable : Reliable may)
      (fits : ∀ h ∈ names, ∀ content, t.repo.objects.get? h = some content → t.server.Takes content) :
      (ok,raised) = (true,none) := by
    refine new reliable fun item member => ⟨?_,?_⟩
    · have absent := (List.mem_filter.mp member).2
      rw [checked reliable] at absent
      have inside : item.1 ∈ candidates.map Prod.fst := List.mem_map.mpr ⟨item,(List.mem_filter.mp member).1,rfl⟩
      simp only [List.mem_filter,inside,true_and,decide_eq_true_eq,Bool.not_eq_true] at absent
      exact absent
    · obtain ⟨content,named⟩ := of_candidate item member
      unfold Server.Takes
      rw [sent.limit]
      exact fits item.1 named _ content
  cases raised with
  | some e =>
    refine ⟨sent.trans more,by simp,fun reliable fits => ?_⟩
    simpa using (Prod.mk.inj (succeeded reliable fits)).2
  | none =>
    refine ⟨sent.trans more,fun done => complete ?_,fun reliable fits => ?_⟩
    · simpa using done
    · simpa using succeeded reliable fits

/-- After a successful upload the registry has every scanned object that is in the
local store; and the upload succeeds when the connection holds. -/
theorem upload_commit_objects_alone (tree : Tree H) (only_paths : Option (List Path)) :
    (alone env me may).Meets (upload_commit_objects tree only_paths) (fun r t =>
      match all_names (scanned tree only_paths) with
      | none => t = w ∧ r = .error .type_error
      | some names => Uploaded may w names r t) w := by
  refine .bind ((scan_alone (scanned tree only_paths)).mono ?_)
  rintro r t ⟨rfl,result⟩
  cases r with
  | error e =>
    obtain ⟨rfl,named⟩ := result
    rw [named]
    exact ⟨rfl,rfl⟩
  | ok candidates =>
    obtain ⟨names,named,held⟩ := result
    rw [named]
    dsimp only
    split
    · rename_i nothing
      refine ⟨.refl t,fun _ h member here => ?_,fun _ _ => rfl⟩
      obtain ⟨content,looked_up⟩ := Option.isSome_iff_exists.mp here
      simpa [nothing] using held.complete h member content looked_up
    · rename_i something
      unfold VaultClient.batch_check_objects
      rw [if_neg (by simpa using something)]
      refine .bind (.bind (alone_call fun c allowed => ?_))
      have unreliable (lost : c.net ≠ .answered) (reliable : Reliable may) : False := lost (reliable _ c _ t allowed).1
      have dropped : Sent t {t with link := false} := ⟨rfl,rfl,rfl,rfl,.refl _⟩
      simp only [World.exec]
      cases net : c.net with
      | answered =>
        simp only [World.request,net]
        exact upload_found_alone (.refl t) held (fun h member => (List.mem_filter.mp member).2) fun _ => rfl
      | refused =>
        simp only [World.request,net]
        exact ⟨dropped,by simp,fun reliable => (unreliable (by simp [net]) reliable).elim⟩
      | lost =>
        simp only [World.request,net]
        exact upload_found_alone dropped held (by simp) fun reliable => (unreliable (by simp [net]) reliable).elim
      | unanswered =>
        simp only [World.request,net]
        exact upload_found_alone dropped held (by simp) fun reliable => (unreliable (by simp [net]) reliable).elim

end Alone

end AetherVault
