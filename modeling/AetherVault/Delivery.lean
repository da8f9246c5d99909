import AetherVault.Queueing

/-! Delivery. The queue is rewritten under its lock, a commit is queued before its
branch moves and leaves the queue once it is delivered, whatever the aim. -/
namespace AetherVault
open Lib Hashing
open Lib.Prog (Only call forEach foldEach)
open Lib.Discipline (Meets)

variable {H : Type} [DecidableEq H] [Hashing H] [Canonical H]

variable {aim : Aim H}

section Does

variable {env : Env} {i : Nat} {α β : Type} {s : Site H}

/-! The lock of the queue. -/

theorem release_meets (level : s.repo.locks .queue = some (i,1)) :
    (queueing aim env i).Meets (call (.release .queue) : Command H Unit) (fun _ t => ¬t.Holds i ∧ Advances aim s t) s := by
  refine .call fun c t relied sound allowed => ⟨trivial,?_,?_⟩
  · have mine := (relied.lock 1).mpr level
    simp [queueing,Site.exec,World.exec,World.release,mine,Site.Holds]
  · exact relied.toAdvances.trans (exec_kept sound i c (.release .queue) trivial trivial).advances

/-- The body runs with the lock held, and what it establishes outlasts the lock. -/
theorem with_queue_lock {body : Command H α} {post : Except (Failure H) α → Site H → Prop} (only : body.Only Op.Steady)
    (failed : ∀ e t, post (.error e) t)
    (inside : ∀ t, Advances aim s t → t.Holds i → (queueing aim env i).Meets body (fun r u => match r with
      | .ok a => ∀ v, Advances aim u v → post (.ok a) v
      | .error _ => True) t) : Does aim env i (with_lock .queue body) post s := by
  refine .of fun free => .bind (.call fun c t relied sound allowed => ⟨trivial,?_⟩)
  have unheld : ¬t.Holds i := fun held => free (relied.holds.mp held)
  have moved : Advances aim t (Site.exec env i _ c (.acquire .queue) t).2 :=
    (exec_kept sound i c (.acquire .queue) trivial trivial).advances
  cases holder : t.repo.locks .queue with
  | none =>
    have got : (Site.exec env i _ c (.acquire .queue) t).1 = true := by
      simp [Site.exec,World.exec,World.acquire,holder]
    have level : (Site.exec env i _ c (.acquire .queue) t).2.repo.locks .queue = some (i,1) := by
      simp [Site.exec,World.exec,World.acquire,holder]
    have body_met := inside _ (relied.toAdvances.trans moved) ⟨1,level⟩
    have levelled := body_met.within (D := queueing aim env i)
      (R := fun a b => a.repo.locks .queue = some (i,1) → b.repo.locks .queue = some (i,1)) only
      (fun _ _ _ first later held => later (first held)) (fun _ _ between => (between.lock 1).mpr)
      (fun _ c o _ steady _ _ _ held => (exec_steady c o steady).trans held) id
    change (queueing aim env i).Meets (if (Site.exec env i _ c (.acquire .queue) t).1 = true then _ else _) _ _
    rw [if_pos got]
    refine .bind (.attempt (levelled.mono fun r u reached => ?_))
    obtain ⟨reached,kept⟩ := reached
    cases r with
    | ok a =>
      refine .bind ((release_meets (kept level)).mono fun r v released => ?_)
      cases r with
      | ok _ => exact ⟨reached v released.2,released.1⟩
      | error e => exact ⟨failed e v,released.1⟩
    | error e =>
      refine .bind ((release_meets (kept level)).mono fun r v released => ?_)
      cases r <;> exact ⟨failed _ v,released.1⟩
  | some held =>
    obtain ⟨owner,depth⟩ := held
    have other : owner ≠ i := fun same => unheld ⟨depth,same ▸ holder⟩
    have refused : (queueing aim env i).exec _ c (.acquire .queue) t = (false,t) := by
      simp [queueing,Site.exec,World.exec,World.acquire,holder,other]
    rw [refused]
    exact ⟨failed _ t,unheld⟩

theorem with_repo_lock {body : Command H α} {post : Except (Failure H) α → Site H → Prop}
    (stays : ∀ r t u, Advances aim t u → post r t → post r u) (failed : ∀ t, post (.error .repo_locked) t)
    (inside : ∀ t, Advances aim s t → Does aim env i body post t) : Does aim env i (with_lock .repo body) post s := by
  have freed (t : Site H) : Does aim env i (call (.release .repo)) (fun r _ => r = .ok ()) t :=
    .call (o := .release .repo) trivial fun c t moved sound allowed => ⟨trivial,fun _ => rfl⟩
  refine .bind (.call (o := .acquire .repo) trivial fun c t moved sound allowed => ⟨trivial,fun _ => ?_⟩)
  have acquired : Advances aim t (Site.exec env i _ c (.acquire .repo) t).2 :=
    (exec_kept sound i c (.acquire .repo) trivial trivial).advances
  dsimp only
  split
  · refine .bind (.attempt ((inside _ (moved.trans acquired)).mono fun r u _ reached => ?_))
    cases r with
    | ok a =>
      refine .bind ((freed u).mono fun r v later done => ?_)
      subst r
      exact .pure (stays _ _ _ later reached)
    | error e =>
      refine .bind ((freed u).mono fun r v later done => ?_)
      subst r
      exact .fail (stays _ _ _ later reached)
  · exact .fail (failed _)

/-! The functions of the queue. -/

/-- The commit is queued, or it does not have to be any more. -/
def Waiting (aim : Aim H) (h : H) (s : Site H) : Prop := (∃ e ∈ s.queue, e.commit_hash = h) ∨ aim.done s.server h

theorem Waiting.stays {h : H} {t u : Site H} (waiting : Waiting aim h t) (moved : Advances aim t u) : Waiting aim h u := by
  rcases waiting with ⟨e,member,same⟩ | done
  · rcases moved.queued e member with kept | done
    · exact Or.inl ⟨e,kept,same⟩
    · exact Or.inr (same ▸ done)
  · exact Or.inr (aim.stays_done moved.onward done)

/-- A write of the queue under its lock: what it leaves out of what was read is done. -/
theorem save_meets {read pending : List (QueueEntry H)} (held : s.Holds i) (same : s.queue = read)
    (dropped : ∀ e ∈ read, e ∉ pending → aim.done s.server e.commit_hash)
    (filed : ∀ e ∈ pending, s.repo.commits.contains e.commit_hash = true) :
    (queueing aim env i).Meets (call (.save_pending_push pending) : Command H Unit)
      (fun _ t => t.queue = pending) s := by
  refine .call fun c t relied sound allowed => ⟨⟨?_,?_,Or.inl (relied.holds.mpr held)⟩,rfl⟩
  · intro e member absent
    rcases relied.alone held e member with early | done
    · exact aim.stays_done relied.onward (dropped e (same ▸ early) absent)
    · exact done
  · exact fun e member => relied.filed _ (filed e member)

theorem queue_pending_push_does (h : H) (ref_name : Option String) (filed : s.repo.commits.contains h = true) :
    Does aim env i (queue_pending_push h ref_name) (fun r t => r = .ok () → Waiting aim h t) s := by
  have steady (pending : List (QueueEntry H)) : Only Op.Steady
      (if pending.any (fun entry => entry.commit_hash == h) then .pure ()
      else call (.save_pending_push (pending ++ [⟨h,ref_name⟩])) : Command H Unit) := by
    split
    · trivial
    · exact .call trivial
  refine with_queue_lock (.bind (.call trivial) steady) (fun e t done => by cases done) fun t moved held => ?_
  refine .bind (.call fun c u relied sound allowed => ⟨trivial,?_⟩)
  have holds : (Site.exec env i _ c .load_pending_push u).2.Holds i := relied.holds.mpr held
  have present := relied.filed h (moved.filed h filed)
  dsimp only
  split
  · rename_i found
    obtain ⟨e,member,same⟩ := List.any_eq_true.mp found
    have waiting : Waiting aim h (Site.exec env i _ c .load_pending_push u).2 := Or.inl ⟨e,member,beq_iff_eq.mp same⟩
    exact fun v later _ => waiting.stays later
  · refine (save_meets holds rfl ?_ ?_).mono fun r v saved => ?_
    · exact fun e member absent => absurd (List.mem_append_left _ member) absent
    · intro e member
      rcases List.mem_append.mp member with early | last
      · exact (sound.queued e early).1
      · rw [List.mem_singleton.mp last]
        exact present
    · cases r with
      | error e => trivial
      | ok _ =>
        have waiting : Waiting aim h v := Or.inl ⟨⟨h,ref_name⟩,by simp [saved],rfl⟩
        exact fun w later _ => waiting.stays later

theorem remove_pending_push_does (commit_hashes : List H) (done : ∀ h ∈ commit_hashes, aim.done s.server h) :
    Does aim env i (remove_pending_push commit_hashes) (fun _ _ => True) s := by
  refine with_queue_lock (.bind (.call trivial) fun _ => .bind (.call trivial) fun _ => trivial) (fun _ _ => trivial) fun t moved held => ?_
  refine .bind (.call fun c u relied sound allowed => ⟨trivial,?_⟩)
  have holds : (Site.exec env i _ c .load_pending_push u).2.Holds i := relied.holds.mpr held
  refine .bind ((save_meets holds rfl ?_ ?_).mono fun r v saved => ?_)
  · intro e member absent
    have listed : e.commit_hash ∈ commit_hashes := by
      by_contra other
      exact absent (List.mem_filter.mpr ⟨member,by simpa using other⟩)
    exact aim.stays_done (moved.trans relied.toAdvances).onward (done _ listed)
  · exact fun e member => (sound.queued e (List.mem_filter.mp member).1).1
  · cases r with
    | ok _ => exact fun _ _ => trivial
    | error e => trivial

theorem drop_superseded_does {h : H} {parents : List H} {ref_name : String} (done : aim.done s.server h)
    (assigned : aim.assigned h (some ref_name)) (edges : ∀ parent ∈ parents, ParentRel parent h) :
    Does aim env i (drop_superseded parents (some ref_name)) (fun _ _ => True) s := by
  refine .of fun free => .bind (.call fun c t relied sound allowed => ⟨trivial,?_⟩)
  have unheld : ¬(Site.exec env i _ c .load_pending_push t).2.Holds i := fun held => free (relied.holds.mp held)
  dsimp only
  split
  · refine .call fun c' u relied' sound' allowed' => ?_
    have open_lock : ¬u.Holds i := fun held => unheld (relied'.holds.mp held)
    have read : u.seen i = t.queue := relied'.seen.trans (by simp [queueing,Site.exec,Site.queue])
    have finished := aim.stays_done relied'.onward (aim.stays_done relied.onward done)
    have known (e : QueueEntry H) (member : e ∈ t.queue) := sound'.seen i e (read ▸ member)
    refine ⟨⟨?_,?_,Or.inr ?_⟩,trivial,open_lock⟩
    · intro e member absent
      obtain ⟨known_before,stored⟩ := allowed'.2 open_lock e member absent
      have seen : e ∈ t.queue := by
        rcases known_before with one | seen
        · exact relied'.sole one ▸ member
        · exact read ▸ seen
      have superseded : e.ref_name = some ref_name ∧ e.commit_hash ∈ parents := by
        by_contra other
        refine absent (List.mem_filter.mpr ⟨seen,?_⟩)
        by_cases same : e.ref_name = some ref_name <;> simp_all
      exact aim.inherited assigned finished (edges _ superseded.2) (superseded.1 ▸ (known e seen).2.1) stored
    · exact fun e member => (known e (List.mem_filter.mp member).1).1
    · exact fun e member => (known e (List.mem_filter.mp member).1).2.2
  · exact ⟨trivial,unheld⟩

/-! Delivering. -/

omit [Canonical H] in
theorem push_commit_status (server : Server H) (rejected : Bool) (h : H) (data : CommitData H)
    (accepted : ((server.push_commit rejected h data).1 == 201 || (server.push_commit rejected h data).1 == 409) = true) :
    (server.push_commit rejected h data).2.commits.contains h = true := by
  unfold Server.push_commit at accepted ⊢
  split
  · assumption
  · rename_i absent
    rw [if_neg absent] at accepted
    split at accepted
    · simp at accepted
    · rename_i readable
      rw [if_neg readable]
      split at accepted
      · simp at accepted
      · rename_i fine
        rw [if_neg fine]
        exact ((server.commits.set h data).contains_iff h).mpr ⟨data,by simp⟩

theorem push_commit_does {h : H} {data : CommitData H} (genuine : Genuine h data) :
    Does aim env i (VaultClient.push_commit h data) (fun r t => r = .ok true → t.server.commits.contains h = true) s := by
  refine .bind (.call (o := .push_commit h data) trivial fun c t moved sound allowed => ⟨genuine,fun _ => ?_⟩)
  simp only [Site.exec,World.exec,World.request]
  split
  · refine .pure fun accepted => ?_
    exact push_commit_status t.server c.rejected h data (Except.ok.inj accepted)
  · exact .fail fun done => by cases done
  · exact .pure fun done => by cases done
  · exact .pure fun done => by cases done

theorem update_ref_does {h : H} {expected : Option H} (ref_name : String) (guarded : Guarded h expected)
    (stored : s.server.commits.contains h = true) :
    Does aim env i (VaultClient.update_ref ref_name h expected) (fun r t => aim.assigned h (some ref_name) ∧ match r with
      | .ok true => aim.done t.server h
      | .error (.ref_race current) => t.server.refs.get? ref_name = current
      | _ => True) s := by
  refine .bind (.call (o := .update_ref ref_name h expected) trivial fun c t moved sound allowed => ⟨guarded,fun _ => ?_⟩)
  obtain ⟨assigned,publishing⟩ := allowed
  have still := aim.stays_stored moved.onward stored
  cases net : c.net with
  | answered =>
    simp only [Site.exec,World.exec,World.request,net,VaultClient.received]
    cases updated : (t.server.update_ref ref_name h expected).1 with
    | true => exact .pure ⟨assigned,aim.arrived assigned (publishing (Or.inl net)) still updated⟩
    | false =>
      refine .fail ⟨assigned,?_⟩
      have unchanged : (t.server.update_ref ref_name h expected).2 = t.server := by
        unfold Server.update_ref at updated ⊢
        split at updated
        · rename_i lost
          rw [if_pos lost]
        · simp at updated
      simp only [unchanged]
  | refused =>
    simp only [Site.exec,World.exec,World.request,net,VaultClient.received]
    exact .fail ⟨assigned,trivial⟩
  | lost =>
    simp only [Site.exec,World.exec,World.request,net,VaultClient.received]
    exact .pure ⟨assigned,trivial⟩
  | unanswered =>
    simp only [Site.exec,World.exec,World.request,net,VaultClient.received]
    exact .pure ⟨assigned,trivial⟩

theorem ref_contains_ancestor {commits : Dict H (CommitData H)} (genuine : ∀ h data, commits.get? h = some data → Genuine h data)
    {tip h : H} (found : _ref_contains commits (some tip) h = true) : Ancestor h tip := by
  have visited := (Search.reaches_eq (parents_of commits) h (walk_fuel commits) [tip] [] (by simp)).mp found
  rcases Search.search_sound _ _ _ _ _ visited with old | ⟨top,member,path⟩
  · simp at old
  · rw [List.mem_singleton.mp member] at path
    clear visited found
    induction path with
    | refl => exact .refl
    | tail _ edge ih => exact .head (genuine_parent genuine edge) ih

theorem update_queued_ref_does {h : H} {data : CommitData H} {ref_name : Option String} (genuine : Genuine h data)
    (assigned : aim.assigned h ref_name) (stored : s.server.commits.contains h = true) :
    Does aim env i (update_queued_ref ref_name h data.parents) (fun r t => r = .ok true → aim.done t.server h) s := by
  unfold update_queued_ref
  cases ref_name with
  | none => exact .pure fun _ => aim.apart assigned stored
  | some name =>
    refine .attempt ((update_ref_does name (genuine.guarded (expected_head _)) stored).mono fun r t moved reached => ?_)
    have still := aim.stays_stored moved.onward stored
    cases r with
    | ok updated =>
      intro done
      obtain rfl := Except.ok.inj done
      exact reached.2
    | error e =>
      cases e with
      | ref_race current =>
        refine .bind (.call (o := .load_commits) trivial fun c u later sound allowed => ⟨trivial,fun _ => ?_⟩)
        refine .pure fun found => ?_
        cases current with
        | none => simp [_ref_contains] at found
        | some tip =>
          refine aim.stays_done later.onward (aim.contained assigned still reached.2 ?_)
          exact ref_contains_ancestor sound.stored (Except.ok.inj found)
      | _ => exact .fail fun done => by cases done

theorem deliver_queued_does {entry : QueueEntry H} {data : CommitData H} (genuine : Genuine entry.commit_hash data)
    (assigned : aim.assigned entry.commit_hash entry.ref_name) :
    Does aim env i (deliver_queued entry data) (fun r t => r = .ok true → aim.done t.server entry.commit_hash) s := by
  refine .bind ((Does.quiet (upload_commit_objects_quiet data.tree none)).mono fun r t moved _ => ?_)
  cases r with
  | error e => exact fun done => by cases done
  | ok uploaded =>
    dsimp only
    split
    · refine .bind ((push_commit_does genuine).mono fun r u later stored => ?_)
      cases r with
      | error e => exact fun done => by cases done
      | ok pushed =>
        dsimp only
        split
        · rename_i accepted
          exact update_queued_ref_does genuine assigned (stored (by rw [accepted]))
        · exact .pure fun done => by cases done
    · exact .pure fun done => by cases done

/-- The queued commits among `delivered` are delivered. -/
def Delivered (aim : Aim H) (delivered : List H) (s : Site H) : Prop := ∀ h ∈ delivered, aim.done s.server h

theorem Delivered.stays {delivered : List H} {t u : Site H} (all : Delivered aim delivered t) (moved : Advances aim t u) :
    Delivered aim delivered u := fun h member => aim.stays_done moved.onward (all h member)

theorem flush_entry_does {delivered : List H} {entry : QueueEntry H} (all : Delivered aim delivered s)
    (filed : s.repo.commits.contains entry.commit_hash = true) (assigned : aim.assigned entry.commit_hash entry.ref_name) :
    Does aim env i (flush_entry delivered entry) (fun r t => match r with
      | .ok next => Delivered aim next t
      | .error _ => True) s := by
  refine .bind (.call (o := .read_commit entry.commit_hash) trivial fun c t moved sound allowed => ⟨trivial,fun _ => ?_⟩)
  have now := all.stays moved
  obtain ⟨data,held⟩ := (t.repo.commits.contains_iff _).mp (moved.filed _ filed)
  have genuine := sound.stored _ _ held
  simp only [Site.exec,World.exec,held]
  refine .attempt (.bind ((deliver_queued_does genuine assigned).mono fun r u later done => ?_))
  have before := now.stays later
  cases r with
  | ok finished =>
    refine .pure ?_
    cases finished with
    | false => exact before
    | true =>
      intro h member
      rcases List.mem_append.mp member with early | last
      · exact before h early
      · rw [List.mem_singleton.mp last]
        exact done rfl
  | error e =>
    cases e with
    | authentication =>
      refine .bind ((remove_pending_push_does delivered before).mono fun r v _ _ => ?_)
      cases r with
      | ok _ => exact .fail trivial
      | error e => trivial
    | _ => exact .fail trivial

theorem flush_pending_push_does (skip : List H) : Does aim env i (flush_pending_push skip) (fun _ _ => True) s := by
  have reload (t : Site H) : Does aim env i (call .load_pending_push) (fun _ _ => True) t :=
    .call (o := .load_pending_push) trivial fun _ _ _ _ _ => ⟨trivial,fun _ => trivial⟩
  refine .bind (.call (o := .load_pending_push) trivial fun c t moved sound allowed => ⟨trivial,fun _ => ?_⟩)
  dsimp only
  split
  · exact reload _
  · refine .bind (.call (o := .server_available) trivial fun c' u later sound' allowed' => ⟨trivial,fun _ => ?_⟩)
    dsimp only
    split
    · refine .bind (.foldEach (J := fun items delivered u => Delivered aim delivered u ∧
        ∀ e ∈ items, u.repo.commits.contains e.commit_hash = true ∧ aim.assigned e.commit_hash e.ref_name) _ [] ?_ ?_ ?_)
      · refine ⟨fun h member => by simp at member,fun e member => ?_⟩
        have queued := sound.queued e (List.mem_filter.mp member).1
        exact ⟨later.filed _ queued.1,queued.2⟩
      · intro entry rest delivered v held
        obtain ⟨all,known⟩ := held
        obtain ⟨filed,assigned⟩ := known entry (by simp)
        refine (flush_entry_does all filed assigned).mono fun r w moved reached => ?_
        cases r with
        | ok next =>
          refine ⟨reached,fun e member => ?_⟩
          have before := known e (List.mem_cons_of_mem _ member)
          exact ⟨moved.filed _ before.1,before.2⟩
        | error e => trivial
      · exact fun delivered v held => remove_pending_push_does delivered held.1
    · exact reload _

/-! Committing. -/

theorem Does.andThen {p : Command H α} {f : α → Command H β} (first : Does aim env i p (fun _ _ => True) s)
    (later : ∀ a t, Advances aim s t → Does aim env i (f a) (fun _ _ => True) t) :
    Does aim env i (p.bind f) (fun _ _ => True) s := by
  refine .bind (first.mono fun r t moved _ => ?_)
  cases r with
  | ok a => exact later a t moved
  | error e => trivial

theorem queue_again {h : H} (ref_name : Option String) (filed : s.repo.commits.contains h = true) :
    Does aim env i (queue_pending_push h ref_name) (fun _ _ => True) s :=
  (queue_pending_push_does h ref_name filed).mono fun _ _ _ _ => trivial

theorem persist_commit_does {h : H} {data : CommitData H} (genuine : Genuine h data) (ref_path remote_ref_name : Option String)
    (idx : Index H) : Does aim env i (persist_commit h data ref_path remote_ref_name idx) (fun r t => r = .ok () →
      t.repo.commits.contains h = true ∧ Waiting aim h t ∧ (ref_path = none → aim.assigned h none)) s := by
  refine with_repo_lock ?_ (fun t done => by cases done) fun t moved => ?_
  · exact fun r t u later held done => ⟨later.filed h (held done).1,(held done).2.1.stays later,(held done).2.2⟩
  refine .bind (.call (o := .write_commit h data) trivial fun c u _ _ _ => ⟨genuine,fun _ => ?_⟩)
  have filed : (Site.exec env i _ c (.write_commit h data) u).2.repo.commits.contains h = true :=
    ((u.repo.commits.set h data).contains_iff h).mpr ⟨data,by simp⟩
  refine .bind ((queue_pending_push_does h remote_ref_name filed).mono fun r v later waiting => ?_)
  cases r with
  | error e => exact fun done => by cases done
  | ok _ =>
    have present := later.filed h filed
    have waits := waiting rfl
    have saved (w : Site H) (onward : Advances aim v w) (detached : ref_path = none → aim.assigned h none) :
        Does aim env i (Prog.call (.save_index idx.clear_staged)) (fun r x => r = .ok () →
          x.repo.commits.contains h = true ∧ Waiting aim h x ∧ (ref_path = none → aim.assigned h none)) w := by
      refine .call (o := .save_index idx.clear_staged) trivial fun c' x _ _ _ => ⟨trivial,fun on _ => ?_⟩
      exact ⟨(onward.trans on).filed h present,waits.stays (onward.trans on),detached⟩
    cases ref_path with
    | some branch =>
      refine .bind (.call (o := .write_ref branch (some h)) trivial fun c' w _ _ _ => ⟨trivial,fun on => ?_⟩)
      exact saved _ on fun none => by cases none
    | none =>
      refine .bind (.call (o := .write_head (.detached h)) trivial fun c' w _ _ allowed => ⟨trivial,fun on => ?_⟩)
      exact saved _ on fun _ => allowed

theorem expected_parent_does {parents : List H} {remote_ref_name : Option String} {f : Option H → Command H α}
    {post : Except (Failure H) α → Site H → Prop}
    (later : ∀ expected t, Advances aim s t → Expected parents expected → Does aim env i (f expected) post t) :
    Does aim env i (expected_parent parents remote_ref_name >>= f) post s := by
  unfold expected_parent
  split
  · rename_i ours theirs name
    refine .bind (.bind (.call (o := .load_pending_push) trivial fun c t _ _ _ => ⟨trivial,fun moved => .pure ?_⟩))
    refine later _ _ moved ?_
    simp only [Expected,List.mem_cons,List.not_mem_nil,or_false]
    split
    · exact Or.inr rfl
    · exact Or.inl rfl
  · exact later _ s (.refl s) (expected_head _)

theorem land_ref_does {h : H} {expected : Option H} (ref_name : Option String) (guarded : Guarded h expected)
    (stored : s.server.commits.contains h = true) (detached : ref_name = none → aim.assigned h none) :
    Does aim env i (land_ref ref_name h expected)
      (fun r t => r = .ok true → aim.assigned h ref_name ∧ aim.done t.server h) s := by
  unfold land_ref
  cases ref_name with
  | none => exact .pure fun _ => ⟨detached rfl,aim.apart (detached rfl) stored⟩
  | some name =>
    refine .attempt ((update_ref_does name guarded stored).mono fun r t moved reached => ?_)
    cases r with
    | ok updated =>
      intro done
      obtain rfl := Except.ok.inj done
      exact reached
    | error e =>
      cases e with
      | ref_race current => exact .pure fun done => by cases done
      | _ => exact .fail fun done => by cases done

theorem push_new_does {h : H} {data : CommitData H} {expected : Option H} {remote_ref_name : Option String}
    (genuine : Genuine h data) (fits : Expected data.parents expected) (filed : s.repo.commits.contains h = true)
    (detached : remote_ref_name = none → aim.assigned h none) (changed_paths : Option (List Path)) :
    Does aim env i (push_new h data remote_ref_name expected changed_paths) (fun _ _ => True) s := by
  refine (Does.quiet (upload_commit_objects_quiet data.tree changed_paths)).andThen fun uploaded t moved => ?_
  have here := moved.filed h filed
  split
  · refine .bind ((push_commit_does genuine).mono fun r u later stored => ?_)
    have here := later.filed h here
    cases r with
    | error e => trivial
    | ok pushed =>
      dsimp only
      split
      · rename_i accepted
        refine .bind ((land_ref_does remote_ref_name (genuine.guarded fits) (stored (by rw [accepted])) detached).mono
          fun r v on landed => ?_)
        have here := on.filed h here
        cases r with
        | error e => trivial
        | ok on_branch =>
          dsimp only
          split
          · rename_i yes
            obtain ⟨assigned,done⟩ := landed (by rw [yes])
            have dequeue (w : Site H) (advanced : Advances aim v w) : Does aim env i (do
                let _ ← remove_pending_push [h]
                .pure ()) (fun _ _ => True) w := by
              refine (remove_pending_push_does [h] fun other member => ?_).andThen fun _ _ _ => .pure trivial
              exact List.mem_singleton.mp member ▸ aim.stays_done advanced.onward done
            split
            · rename_i merged
              obtain ⟨name,rfl⟩ := Option.isSome_iff_exists.mp merged.2
              obtain ⟨original,named,same⟩ := genuine
              exact (drop_superseded_does done assigned fun parent member => ⟨original,named,same ▸ member⟩).andThen
                fun _ w advanced => dequeue w advanced
            · exact dequeue v (.refl v)
          · exact queue_again remote_ref_name here
      · exact queue_again remote_ref_name here
  · exact queue_again remote_ref_name here

theorem deliver_commit_does {h : H} {data : CommitData H} {remote_ref_name : Option String} (genuine : Genuine h data)
    (filed : s.repo.commits.contains h = true) (detached : remote_ref_name = none → aim.assigned h none)
    (defer_upload : Bool) (changed_paths : Option (List Path)) :
    Does aim env i (deliver_commit h data remote_ref_name defer_upload changed_paths) (fun _ _ => True) s := by
  refine expected_parent_does fun expected t moved fits => ?_
  have here := moved.filed h filed
  split
  · exact queue_again remote_ref_name here
  · have pushed (u : Site H) (here : u.repo.commits.contains h = true) : Does aim env i (do
        if ← VaultClient.server_available then
          or_queue (push_new h data remote_ref_name expected changed_paths) h remote_ref_name
        else queue_pending_push h remote_ref_name) (fun _ _ => True) u := by
      refine .bind (.call (o := .server_available) trivial fun c v _ _ _ => ⟨trivial,fun on => ?_⟩)
      have here := on.filed h here
      dsimp only
      split
      · refine .attempt ((push_new_does genuine fits here detached changed_paths).mono fun r w last _ => ?_)
        cases r with
        | ok _ => trivial
        | error e =>
          cases e with
          | authentication => exact queue_again remote_ref_name (last.filed h here)
          | _ => exact .fail trivial
      · exact queue_again remote_ref_name here
    have flushed : Does aim env i (do
        let _ ← flush_pending_push [h]
        .pure () : Command H Unit) (fun _ _ => True) t := (flush_pending_push_does [h]).andThen fun _ _ _ => .pure trivial
    refine .bind (.attempt (flushed.mono fun r u later _ => ?_))
    have here := later.filed h here
    cases r with
    | ok _ => exact pushed u here
    | error e =>
      cases e with
      | authentication => exact .pure (pushed u here)
      | _ => exact .fail trivial

theorem finalize_commit_does {data : CommitData H} (ref_path : Option String) (idx : Index H) (defer_upload : Bool)
    (changed_paths : Option (List Path)) {on_persisted : Command H Unit}
    (fine : ∀ t, Does aim env i on_persisted (fun _ _ => True) t) :
    Does aim env i (_finalize_commit env data ref_path idx defer_upload changed_paths on_persisted) (fun _ _ => True) s := by
  refine .bind ((persist_commit_does (genuine_new data) ref_path (ref_path.map (remote_ref env)) idx).mono
    fun r t moved persisted => ?_)
  cases r with
  | error e => trivial
  | ok _ =>
    obtain ⟨filed,-,detached⟩ := persisted rfl
    refine (fine t).andThen fun _ u later => ?_
    have gone : ref_path.map (remote_ref env) = none → aim.assigned (commit_hash data) none := fun none =>
      detached (Option.map_eq_none_iff.mp none)
    exact (deliver_commit_does (genuine_new data) (later.filed _ filed) gone defer_upload changed_paths).andThen
      fun _ _ _ => .pure trivial

/-! The commands. -/

theorem materialize_tree_does (tree : Tree H) (idx : Index H) (verify : Bool) :
    Does aim env i (_materialize_tree tree idx verify) (fun _ _ => True) s :=
  .aside (materialize_tree_only (P := Op.Aside (H := H)) Op.Quiet.aside (fun _ => trivial) tree idx verify)

theorem find_commit_does (h : H) : Does aim env i (find_commit h) (fun _ _ => True) s := by
  refine (Does.one (H := H) (.read_commit h) trivial).andThen fun found t _ => ?_
  cases found with
  | some data => exact .pure trivial
  | none =>
    refine (Does.one (H := H) .server_available trivial).andThen fun available u _ => ?_
    split
    · refine .bind (.bind (.call (o := .get_commit h) trivial fun c v _ sound _ => ⟨trivial,fun _ => ?_⟩))
      simp only [Site.exec,World.exec,World.request]
      split
      · dsimp only [VaultClient.received]
        cases served : v.server.get_commit h with
        | none => exact .pure (.pure trivial)
        | some data =>
          obtain ⟨row,held,same⟩ := Fleet.get_commit_parents v.server h served
          obtain ⟨original,named,parents⟩ := sound.pushed h row held
          refine .pure (.bind (.call (o := .write_commit h data) trivial fun c' w _ _ _ => ⟨?_,fun _ => .pure trivial⟩))
          exact ⟨original,named,parents.trans same⟩
      · exact .fail trivial
      · exact .pure (.pure trivial)
      · exact .pure (.pure trivial)
    · exact .pure trivial

theorem commit_staged_does (message : String) (defer_upload : Bool) :
    Does aim env i (commit_staged env message defer_upload) (fun _ _ => True) s := by
  refine with_repo_lock (fun _ _ _ _ _ => trivial) (fun _ => trivial) fun t _ => ?_
  refine (Does.one (H := H) .load_index trivial).andThen fun idx u _ => ?_
  extract_lets staged_entries changed_paths
  split
  · exact .pure trivial
  · refine (Does.quiet head_parents_quiet).andThen fun head v _ => (Does.one (H := H) .now trivial).andThen fun timestamp w _ => ?_
    exact (finalize_commit_does _ idx defer_upload _ fun x => Does.one (H := H) (.release .repo) trivial).andThen fun _ _ _ => .pure trivial

theorem merge_trees_does (options : MergeOptions) (name : String) (idx : Index H) (ours theirs : H) (merged : Tree H) :
    Does aim env i (merge_trees env options name idx ours theirs merged) (fun _ _ => True) s :=
  (Does.quiet (ensure_objects_local_quiet merged)).andThen fun _ _ _ => (materialize_tree_does merged idx false).andThen
    fun final _ _ => (Does.one (H := H) .now trivial).andThen fun _ _ _ =>
      (finalize_commit_does (some name) final false none fun _ => .pure trivial).andThen fun _ _ _ => .pure trivial

theorem merge_commits_does (options : MergeOptions) (name : String) (idx : Index H) (ours theirs : H) :
    Does aim env i (merge_commits env options name idx ours theirs) (fun _ _ => True) s := by
  refine (Does.one (H := H) .load_commits trivial).andThen fun commits t _ => ?_
  extract_lets base
  split
  · exact .pure trivial
  · refine (Does.quiet (collect_dirty_paths_quiet idx ∅)).andThen fun dirty u _ => ?_
    split
    · exact (Does.quiet (ensure_objects_local_quiet _)).andThen fun _ _ _ =>
        (materialize_tree_does _ idx false).andThen fun _ _ _ => Does.one _ trivial
    · split
      · exact .fail trivial
      · split
        · exact .fail trivial
        · split
          · exact .fail trivial
          · exact merge_trees_does options name idx ours theirs _

theorem merge_does (target : Target H) (options : MergeOptions) :
    Does aim env i (merge env target options) (fun _ _ => True) s := by
  refine (Does.one (H := H) .load_index trivial).andThen fun idx t _ => (Does.one (H := H) .read_head trivial).andThen fun head u _ => ?_
  cases head with
  | detached h => exact .fail trivial
  | branch name =>
    refine (Does.one (H := H) (.read_ref name) trivial).andThen fun tip v _ => ?_
    split
    · rename_i ours
      have named : Does aim env i (merge_target target) (fun _ _ => True) v := by
        cases target with
        | branch other =>
          refine (Does.one (H := H) (.read_ref other) trivial).andThen fun tip w _ => ?_
          cases tip <;> exact .pure trivial
        | commit h => exact (find_commit_does h).andThen fun _ _ _ => .pure trivial
      refine named.andThen fun theirs w _ => ?_
      cases theirs with
      | none => exact .fail trivial
      | some theirs =>
        dsimp only
        split
        · exact .pure trivial
        · exact (find_commit_does theirs).andThen fun _ _ _ => merge_commits_does options name idx ours theirs
    · exact .fail trivial

theorem publishes_does {p : Command H Unit} (launched : Publishes env p) : Does aim env i p (fun _ _ => True) s := by
  cases launched with
  | commit message defer_upload => exact (commit_staged_does message defer_upload).andThen fun _ _ _ => .pure trivial
  | merge target options => exact merge_does target options
  | push => exact (flush_pending_push_does []).andThen fun _ _ _ => .pure trivial
  | finalize data ref_path idx defer_upload changed_paths =>
    exact (finalize_commit_does ref_path idx defer_upload changed_paths fun _ => .pure trivial).andThen fun _ _ _ => .pure trivial

end Does

end AetherVault
