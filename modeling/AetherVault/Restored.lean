import AetherVault.Footprint

/-! What a tree that is brought back leaves in the working tree, whatever becomes of the
requests on the way, as long as no one else acts on the repository. -/
namespace AetherVault
open Lib Hashing
open Lib.Prog (Only call forEach foldEach)
open Lib.Discipline (Meets)

variable {H : Type} [DecidableEq H] [Hashing H]

/-- The content is what the entry names, in one piece or in shards. -/
def TreeEntry.Holds (e : TreeEntry H) (content : Bytes) : Prop :=
  if e.layers ≠ [] ∨ e.chunks ≠ [] then
    ∃ parts : List Bytes, content = parts.flatten ∧ List.Forall₂ (fun h part => sha256 part = h) (shards_of e.layers e.chunks) parts
  else e.hash = .sha (sha256 content)

/-- The file is there with this content, and the other files are as they were. -/
structure Puts (files : Dict Path WorkFile) (path : Path) (content : Bytes) (t : World H) : Prop where
  here : ∃ file, t.repo.files.get? path = some file ∧ file.data.bytes = content
  others : ∀ other, other ≠ path → t.repo.files.get? other = files.get? other

/-- The files of a tree are there with what its entries name, and the other files are as they were. -/
structure Shows (files : Dict Path WorkFile) (entries : List (Path × TreeEntry H)) (t : World H) : Prop where
  here : ∀ item ∈ entries, ∃ file, t.repo.files.get? item.1 = some file ∧ item.2.Holds file.data.bytes
  others : ∀ path, path ∉ entries.map Prod.fst → t.repo.files.get? path = files.get? path

/-- The others leave the repository alone, and restoring is allowed. -/
structure Solitary (env : Env) (me : Nat) (D : Discipline (Op H) (World H) Choice) : Prop where
  exec : D.exec = World.exec env me
  repo : ∀ s t, D.rely s t → t.repo = s.repo
  quiet : ∀ β c (o : Op H β) s, Op.Quiet β o → D.inv s → D.may β c o s → D.pre β c o s
  save : ∀ c idx s, D.inv s → D.may Unit c (.save_index idx) s → D.pre Unit c (.save_index idx) s

theorem exec_fetching (env : Env) (me : Nat) (β : Type) (c : Choice) (o : Op H β) (w : World H) (fetching : Op.Fetching β o) :
    (World.exec env me β c o w).2.repo.files = w.repo.files := by
  have requested {α : Type} (effect : Server H → α × Server H) : (w.request c effect).2.repo.files = w.repo.files := by
    unfold World.request
    cases c.net <;> rfl
  cases o with
  | write_file => exact fetching.elim
  | remove_file => exact fetching.elim
  | stage path file_type existing attr_flags =>
    obtain ⟨blobs,staged⟩ := stage_within w env path file_type existing attr_flags
    simp only [World.exec,staged]
  | acquire lock =>
    cases lock with
    | queue => exact fetching.elim
    | repo =>
      obtain ⟨locks,-,acquired⟩ := acquire_repo w me
      simp only [World.exec,acquired]
  | release lock =>
    cases lock with
    | queue => exact fetching.elim
    | repo =>
      obtain ⟨locks,-,released⟩ := release_repo w me
      simp only [World.exec,released]
  | read_stash id => cases id <;> rfl
  | batch_check => exact requested _
  | upload => exact requested _
  | download => exact requested _
  | push_commit => exact requested _
  | get_commit => exact requested _
  | update_ref => exact requested _
  | get_ref => exact requested _
  | list_refs => exact requested _
  | list_commits => exact requested _
  | _ => rfl

theorem write_file_cases (w : World H) (path : Path) (content : Bytes) (clock : Nat) :
    w.write_file path content clock = (false,w) ∨ ∃ data : FileData, data.bytes = content ∧ w.write_file path content clock =
      (true,{w with repo := {w.repo with files := w.repo.files.set path ⟨data,clock⟩}}) := by
  unfold World.write_file
  cases fits : FileData.ofBytes? content with
  | none => exact .inl rfl
  | some data => exact .inr ⟨data,FileData.ofBytes?_some fits,rfl⟩

namespace Solitary

variable {env : Env} {me : Nat} {D : Discipline (Op H) (World H) Choice} (alone : Solitary env me D) {s : World H}
include alone

theorem operation {β : Type} {o : Op H β} (quiet : Op.Quiet β o) {post : Except (Failure H) β → World H → Prop}
    (reached : ∀ c t, t.repo = s.repo → post (.ok (World.exec env me β c o t).1) (World.exec env me β c o t).2) :
    D.Meets (call o) post s := by
  apply Meets.call
  intro c t moved invariant allowed
  constructor
  · exact alone.quiet β c o t quiet invariant allowed
  · rw [alone.exec]
    exact reached c t (alone.repo s t moved)

theorem accepts {α : Type} {p : Command H α} (only : p.Only Op.Quiet) : D.Accepts p :=
  Discipline.Accepts.of_only only fun β c o t quiet invariant allowed => alone.quiet β c o t quiet invariant allowed

theorem after {α β : Type} {p : Command H α} (only : p.Only Op.Quiet) {f : α → Command H β} {post : Except (Failure H) β → World H → Prop}
    (later : ∀ a t, D.Meets (f a) post t) (fails : ∀ e t, post (.error e) t) : D.Meets (p >>= f) post s := by
  apply Meets.bind
  apply (alone.accepts only s).mono
  intro r t _
  cases r with
  | ok a => exact later a t
  | error e => exact fails e t

theorem fetching {α : Type} {p : Command H α} (only : p.Only Op.Fetching) {post : Except (Failure H) α → World H → Prop}
    (met : D.Meets p post s) : D.Meets p (fun r t => post r t ∧ t.repo.files = s.repo.files) s := by
  have kept : ∀ (β : Type) (c : Choice) (o : Op H β) (t : World H), Op.Fetching β o → D.inv t → D.may β c o t → D.pre β c o t →
      (D.exec β c o t).2.repo.files = t.repo.files := by
    intro β c o t fetches _ _ _
    rw [alone.exec]
    exact exec_fetching env me β c o t fetches
  exact Meets.within (R := fun a b : World H => b.repo.files = a.repo.files) only (fun _ _ _ first later => later.trans first)
    (fun a b moved => by rw [alone.repo a b moved]) kept rfl met

theorem write_bytes (path : Path) (content : Bytes) : D.Meets (AetherVault.write_bytes path content)
    (fun r t => r = .ok () → Puts s.repo.files path content t) s := by
  apply Meets.bind
  apply alone.operation (o := .write_file path content) trivial
  intro c t same
  cases write_file_cases t path content c.clock with
  | inl refused =>
    simp only [World.exec,refused]
    intro done
    contradiction
  | inr wrote =>
    obtain ⟨data,bytes,wrote⟩ := wrote
    simp only [World.exec,wrote]
    intro _
    constructor
    · exact ⟨_,Dict.get?_set_same _ _ _,bytes⟩
    · intro other differ
      simp only [← same]
      exact Dict.get?_set_other _ _ _ _ differ

theorem read_object (h : H) : D.Meets (Prog.call (.read_object h) : Command H (Option Bytes))
    (fun r _ => ∀ content, r = .ok (some content) → sha256 content = h) s := by
  apply alone.operation (o := .read_object h) trivial
  intro c t _ content found
  exact Objects.get?_named _ (Except.ok.inj found)

theorem fetch_shard (h : H) : D.Meets (AetherVault.fetch_shard h)
    (fun r t => (∀ content, r = .ok (some content) → sha256 content = h) ∧ t.repo.files = s.repo.files) s := by
  apply alone.fetching (fetch_shard_fetching h)
  have failed : ∀ (e : Failure H) (t : World H) (content : Bytes), (.error e : Except (Failure H) (Option Bytes)) = .ok (some content) →
      sha256 content = h := fun _ _ _ impossible => by contradiction
  apply Meets.bind
  apply (alone.read_object h).mono
  intro r t named
  cases r with
  | error e => exact failed e t
  | ok stored =>
    cases stored with
    | some content => exact named
    | none =>
      apply alone.after (p := call .server_available) (.call trivial) _ failed
      intro available t
      split
      · apply alone.after ((download_object_fetching h).mono Op.Fetching.quiet) _ failed
        intro downloaded t
        cases downloaded with
        | none => apply alone.read_object
        | some content =>
          apply alone.after (p := call (.publish_object content)) (.call trivial) _ failed
          intro _ t
          apply alone.read_object
      · apply alone.read_object

theorem download_object (h : H) : D.Meets (VaultClient.download_object h)
    (fun r t => (∀ content, r = .ok (some content) → sha256 content = h) ∧ t.repo.files = s.repo.files) s := by
  apply alone.fetching (download_object_fetching h)
  apply alone.after (p := call (.download h)) (.call trivial)
  · intro reply t
    cases reply with
    | answered found =>
      intro content checked
      have kept := Except.ok.inj checked
      simpa using (Option.filter_eq_some_iff.mp kept).2
    | unauthorized =>
      intro content impossible
      contradiction
    | unreachable =>
      intro content impossible
      cases impossible
  · intro e t content impossible
    contradiction

theorem append_shard {files : Dict Path WorkFile} (path : Path) (kind : String) (written : Bytes) (h : H)
    (puts : Puts files path written s) : D.Meets (AetherVault.append_shard path kind written h) (fun r t => ∀ longer, r = .ok longer →
      ∃ part, sha256 part = h ∧ longer = written ++ part ∧ Puts files path longer t) s := by
  apply Meets.bind
  apply (alone.fetch_shard h).mono
  intro r t fetched
  obtain ⟨named,same⟩ := fetched
  cases r with
  | error e =>
    intro longer impossible
    contradiction
  | ok found =>
    cases found with
    | none =>
      intro longer impossible
      contradiction
    | some part =>
      apply Meets.bind
      apply (alone.write_bytes path (written ++ part)).mono
      intro r u wrote
      cases r with
      | error e =>
        intro longer impossible
        contradiction
      | ok _ =>
        intro longer done
        obtain rfl : written ++ part = longer := Except.ok.inj done
        have put := wrote rfl
        refine ⟨part,named part rfl,rfl,put.here,?_⟩
        intro other differ
        rw [put.others other differ,same]
        exact puts.others other differ

theorem reassemble (path : Path) (kind : String) (shards : List H) : D.Meets (AetherVault.reassemble path kind shards)
    (fun r t => ∀ content, r = .ok content → Puts s.repo.files path content t ∧
      ∃ parts : List Bytes, content = parts.flatten ∧ List.Forall₂ (fun h part => sha256 part = h) shards parts) s := by
  apply Meets.bind
  apply (alone.write_bytes path []).mono
  intro r t emptied
  cases r with
  | error e =>
    intro content impossible
    contradiction
  | ok _ =>
    apply Meets.attempt
    -- what is written is what the shards so far come to
    let Filled (rest : List H) (written : Bytes) (u : World H) : Prop := Puts s.repo.files path written u ∧
      ∃ (done : List H) (parts : List Bytes), shards = done ++ rest ∧ written = parts.flatten ∧
        List.Forall₂ (fun h part => sha256 part = h) done parts
    have start : Filled shards [] t := ⟨emptied rfl,[],[],rfl,rfl,.nil⟩
    apply Meets.foldEach (J := Filled) shards [] start
    · intro h rest written u filled
      obtain ⟨puts,done,parts,split,flat,named⟩ := filled
      apply (alone.append_shard path kind written h puts).mono
      intro r v appended
      cases r with
      | error e =>
        cases e with
        | click message =>
          apply alone.after (p := call (.remove_file path)) (.call trivial)
          · intro _ _ content impossible
            contradiction
          · intro e _ content impossible
            contradiction
        | _ =>
          intro content impossible
          contradiction
      | ok longer =>
        obtain ⟨part,sha,longer_eq,put⟩ := appended longer rfl
        refine ⟨put,done ++ [h],parts ++ [part],by simp [split],by simp [longer_eq,flat],?_⟩
        exact List.rel_append named (.cons sha .nil)
    · intro written u filled content done
      obtain ⟨puts,finished,parts,split,flat,named⟩ := filled
      obtain rfl : written = content := Except.ok.inj done
      rw [List.append_nil] at split
      exact ⟨puts,parts,flat,split ▸ named⟩

/-- A whole object: from the store under its own hash, or downloaded and checked. -/
theorem materialize_whole (path : Path) (h : Digest H) (name : Option H) (verify : Bool) (named : ∀ g, name = some g → h = .sha g) :
    D.Meets (AetherVault.materialize_whole path h name verify) (fun r t => r = .ok () →
      ∃ content, h = .sha (sha256 content) ∧ Puts s.repo.files path content t) s := by
  cases name with
  | none =>
    apply alone.after (p := call .server_available) (.call trivial)
    · intro available t
      split
      · intro impossible
        contradiction
      · intro impossible
        contradiction
    · intro e t impossible
      contradiction
  | some g =>
    apply Meets.bind
    apply (alone.fetching (p := call (.read_object g)) (.call trivial) (alone.read_object g)).mono
    intro r t stored
    obtain ⟨stored,same⟩ := stored
    cases r with
    | error e =>
      intro impossible
      contradiction
    | ok found =>
      cases found with
      | some content =>
        have sha := stored content rfl
        dsimp only
        split
        · intro impossible
          contradiction
        · apply (alone.write_bytes path content).mono
          intro r u wrote done
          rw [same] at wrote
          exact ⟨content,by rw [sha]; exact named g rfl,wrote done⟩
      | none =>
        have asked : D.Meets (Prog.call .server_available : Command H Bool) (fun _ _ => True) t :=
          alone.accepts (p := Prog.call .server_available) (.call trivial) t
        apply Meets.bind
        apply (alone.fetching (p := Prog.call .server_available) (.call trivial) asked).mono
        intro r u untouched
        cases r with
        | error e =>
          intro impossible
          contradiction
        | ok available =>
          cases available with
          | false =>
            intro impossible
            contradiction
          | true =>
            apply Meets.bind
            apply (alone.download_object g).mono
            intro r v downloaded
            obtain ⟨checked,kept⟩ := downloaded
            cases r with
            | error e =>
              intro impossible
              contradiction
            | ok found =>
              cases found with
              | none =>
                intro impossible
                contradiction
              | some content =>
                have here : v.repo.files = s.repo.files := by rw [kept,untouched.2,same]
                apply Meets.bind
                apply (alone.write_bytes path content).mono
                intro r v wrote
                rw [here] at wrote
                cases r with
                | error e =>
                  intro impossible
                  contradiction
                | ok _ =>
                  apply alone.operation (o := .publish_object content) trivial
                  intro c x same _
                  have put := wrote rfl
                  refine ⟨content,by rw [checked content rfl]; exact named g rfl,?_,?_⟩
                  · simp only [World.exec,same]
                    exact put.here
                  · simp only [World.exec,same]
                    exact put.others

omit alone in
theorem object_path (h : Digest H) : D.Meets (AetherVault.object_path h)
    (fun r t => t = s ∧ ∀ name, r = .ok name → ∀ g, name = some g → h = .sha g) s := by
  cases h with
  | sha g =>
    refine ⟨rfl,?_⟩
    intro name done other found
    rw [← Except.ok.inj done] at found
    rw [Option.some.inj found]
  | kind type =>
    refine ⟨rfl,?_⟩
    intro name done other found
    rw [← Except.ok.inj done] at found
    contradiction
  | _ =>
    refine ⟨rfl,?_⟩
    intro name impossible
    contradiction

theorem materialize_file (path : Path) (e : TreeEntry H) (verify : Bool) :
    D.Meets (AetherVault.materialize_file path e.hash e.layers e.chunks verify) (fun r t => r = .ok () →
      ∃ content, e.Holds content ∧ Puts s.repo.files path content t) s := by
  apply Meets.bind
  apply (object_path e.hash).mono
  intro r t reached
  obtain ⟨rfl,named⟩ := reached
  cases r with
  | error e =>
    intro impossible
    contradiction
  | ok name =>
    dsimp only
    split
    · rename_i sharded
      apply Meets.bind
      apply (alone.reassemble path _ _).mono
      intro r u assembled
      cases r with
      | error e =>
        intro impossible
        contradiction
      | ok content =>
        obtain ⟨put,parts⟩ := assembled content rfl
        dsimp only
        split
        · apply alone.after (p := Prog.call (.remove_file path)) (.call trivial)
          · intro _ _ impossible
            contradiction
          · intro _ _ impossible
            contradiction
        · intro _
          exact ⟨content,by rw [TreeEntry.Holds,if_pos sharded]; exact parts,put⟩
    · rename_i whole
      apply (alone.materialize_whole path e.hash name verify (named name rfl)).mono
      intro r u written done
      obtain ⟨content,sha,put⟩ := written done
      exact ⟨content,by rw [TreeEntry.Holds,if_neg whole]; exact sha,put⟩

theorem restore_entry (verify : Bool) (idx : Index H) (item : Path × TreeEntry H) (done : List (Path × TreeEntry H))
    (files : Dict Path WorkFile) (apart : item.1 ∉ done.map Prod.fst) (shown : Shows files done s) :
    D.Meets (AetherVault.restore_entry verify idx item) (fun r t => ∀ added, r = .ok added → Shows files (done ++ [item]) t) s := by
  apply Meets.bind
  apply (alone.materialize_file item.1 item.2 verify).mono
  intro r t written
  cases r with
  | error e =>
    intro added impossible
    contradiction
  | ok _ =>
    intro added _
    obtain ⟨content,holds,put⟩ := written rfl
    constructor
    · intro other member
      cases List.mem_append.mp member with
      | inl earlier =>
        have differ : other.1 ≠ item.1 := fun same => apart (same ▸ List.mem_map_of_mem earlier)
        rw [put.others other.1 differ]
        exact shown.here other earlier
      | inr here =>
        obtain ⟨file,found,bytes⟩ := put.here
        rw [List.mem_singleton.mp here]
        exact ⟨file,found,by rw [bytes]; exact holds⟩
    · intro path outside
      rw [List.map_append,List.mem_append,not_or] at outside
      rw [put.others path (by simpa using outside.2)]
      exact shown.others path outside.1

theorem restore_flat (tree : Tree H) (verify : Bool) :
    D.Meets (AetherVault.restore_flat tree verify) (fun r t => ∀ restored, r = .ok restored → Shows s.repo.files tree.entries t) s := by
  have entries : ∀ t : World H, t.repo.files = s.repo.files → D.Meets (foldEach (AetherVault.restore_entry verify) tree.entries .empty)
      (fun r t => ∀ restored, r = .ok restored → Shows s.repo.files tree.entries t) t := by
    intro t same
    let Restored (rest : List (Path × TreeEntry H)) (_ : Index H) (u : World H) : Prop :=
      ∃ done, tree.entries = done ++ rest ∧ Shows s.repo.files done u
    apply Meets.foldEach (J := Restored) tree.entries .empty
    · exact ⟨[],rfl,by simp,fun path _ => by rw [same]⟩
    · intro item rest idx u restored
      obtain ⟨done,split,shown⟩ := restored
      have apart : item.1 ∉ done.map Prod.fst := by
        have distinct := tree.distinct
        rw [split,List.map_append] at distinct
        intro twice
        exact (List.nodup_append.mp distinct).2.2 _ twice _ (by simp) rfl
      apply (alone.restore_entry verify idx item done s.repo.files apart shown).mono
      intro r v reached
      cases r with
      | error e =>
        intro restored impossible
        contradiction
      | ok added => exact ⟨done ++ [item],by simp [split],reached added rfl⟩
    · intro idx u restored final _
      obtain ⟨done,split,shown⟩ := restored
      rw [List.append_nil] at split
      exact split ▸ shown
  have fetched {α : Type} {p : Command H α} (only : p.Only Op.Fetching) (t : World H) :
      D.Meets p (fun _ u => True ∧ u.repo.files = t.repo.files) t :=
    alone.fetching only (alone.accepts (only.mono Op.Fetching.quiet) t)
  apply Meets.bind
  apply (fetched (check_restorable_fetching tree verify) s).mono
  intro r t checked
  cases r with
  | error e =>
    intro restored impossible
    contradiction
  | ok server_up =>
    cases server_up with
    | false => exact entries t checked.2
    | true =>
      apply Meets.bind
      apply (fetched (ensure_objects_local_fetching tree) t).mono
      intro r u ensured
      cases r with
      | error e =>
        intro restored impossible
        contradiction
      | ok _ => exact entries u (ensured.2.trans checked.2)

/-- A flat tree that is brought back over an empty index is there, beside what was there. -/
theorem materialize_tree (tree : Tree H) (flat : tree_is_flat tree = true) (idx : Index H) (untracked : idx.entries.keys = [])
    (verify : Bool) : D.Meets (_materialize_tree tree idx verify)
      (fun r t => ∀ final, r = .ok final → Shows s.repo.files tree.entries t) s := by
  unfold _materialize_tree
  rw [if_pos flat,untracked]
  apply Meets.bind
  apply (alone.restore_flat tree verify).mono
  intro r t restored
  cases r with
  | error e =>
    intro final impossible
    contradiction
  | ok idx =>
    have shown := restored idx rfl
    have stat (idx : Index H) (path : Path) : (restat_entry idx path).Only Op.Fetching := .bind (.call trivial) fun _ => trivial
    have stats := Only.foldEach stat idx.entries.keys idx
    -- nothing was tracked before, so nothing is removed
    show D.Meets (foldEach restat_entry idx.entries.keys idx >>= _) _ t
    apply Meets.bind
    apply (alone.fetching stats (alone.accepts (stats.mono Op.Fetching.quiet) t)).mono
    intro r u stated
    cases r with
    | error e =>
      intro final impossible
      contradiction
    | ok final =>
      apply Meets.bind
      apply Meets.call
      intro c v moved invariant allowed
      constructor
      · exact alone.save c final v invariant allowed
      · rw [alone.exec]
        intro _ _
        have same : v.repo.files = t.repo.files := by rw [alone.repo u v moved,stated.2]
        constructor
        · intro item member
          simp only [World.exec,same]
          exact shown.here item member
        · intro path outside
          simp only [World.exec,same]
          exact shown.others path outside

end Solitary

end AetherVault
