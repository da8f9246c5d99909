import AetherVault.SignedCommits

/-! Which signed commits still verify for a clone, over every run of pushes to a registry. -/
namespace AetherVault
open Lib Hashing

section

variable {H K : Type} [DecidableEq H] [Hashing H] [TreeContent H] [HexDigest H]

/-- On a registry that starts empty, whatever is pushed before and after: a signed commit
that is accepted is served, and what a clone makes of it verifies, exactly when it has no
run, its author and project are not empty, no user's name stands in for its author, and
its tree comes back whole. -/
theorem signature_survives (crypto : Ed25519 K) (ideal : crypto.Ideal) (key : K) (signed_at : String) (config : ServerConfig)
    (limits : PushLimits) (me : Nat) (policy : Registry H → Moment H) (space : Set (Listing H))
    (free : Set.InjOn tree_hash space) (before later : List (Ledger.Push H)) (push : Ledger.Push H)
    (within : ∀ other ∈ before ++ push::later, other.Within space) (now : Datetime)
    (produced : Produced now push.commit.payload)
    (signed : finalize_commit (some (crypto,key)) signed_at push.commit.payload = .ok push.commit)
    (keyed : Keyed push.commit.payload.tree)
    (named : ∀ path, push.commit.payload.tree.contains path = true → path ≠ []) (l t : Ledger H)
    (reached : Ledger.empty.push_all config limits me policy before = l)
    (accepted : (l.push_commit config limits me policy push).1 = .ok 201)
    (ran : (l.push_commit config limits me policy push).2.push_all config limits me policy later = t) :
    (∀ q, ∃ enough, ∀ levels ≥ enough, ∃ page, t.list_commits levels q = some page ∧
      (∀ item ∈ t.page q, ∃ row ∈ page.1, row.get? "hash" = some (hash_json item.1)) ∧
      ∀ row ∈ page.1, row.get? "hash" = some (hash_json push.commit.hash) →
        ∃ received, normalize_commit_row row = some received ∧
          (verify_signature (some crypto) received = .ok .verified ↔ Survives push.username push.commit.payload)) ∧
    ∃ q, push.commit.hash ∈ (t.page q).map Prod.fst := by
  obtain ⟨sound,-⟩ := (Ledger.sound_empty space).push_all config limits me policy fun other member => within other (List.mem_append_left _ member)
  rw [reached] at sound
  exact listed_verifies_iff push ideal free sound (fun other member => within other (List.mem_append_right _ member)) produced
    signed keyed named accepted ran

end

/-! One file, committed by hand. -/

/-- A signature that is the signed bytes themselves. -/
def transparent : Ed25519 Unit where
  public_bytes _ := [0]
  sign _ bytes := bytes
  from_public_bytes bytes := bytes == [0]
  verify _ sig bytes := sig == bytes

theorem transparent_ideal : transparent.Ideal where
  loads _ := rfl
  verifies _ bytes := beq_self_eq_true bytes
  binds _ _ _ verified := (beq_iff_eq.mp verified).symm

def one_file : Index Name := ⟨Dict.ofList [(["a.py"],⟨.sha ⟨[]⟩,0,0,.code,false,none,[],[]⟩)],[]⟩

def noon : Datetime := ⟨2024,5,17,12,0,0,0,by decide⟩

def payload_of (run_id : Option String) : Payload Name :=
  staged_payload ⟨some "ada","p1","demo"⟩ noon one_file [] "first" [] ∅ run_id none

theorem one_file_paths {path : Path} (held : one_file.tree.contains path = true) : path = ["a.py"] := by
  by_contra other
  simp [one_file,Index.tree,Dict.contains,Dict.ofList,Dict.get?_set,other] at held

theorem one_file_prefix_free : PrefixFree one_file.tree := fun _ _ one two _ =>
  (one_file_paths one).trans (one_file_paths two).symm

theorem one_file_keyed : Keyed one_file.tree := fun _ _ one two _ => (one_file_paths one).trans (one_file_paths two).symm

theorem one_file_named {path : Path} (held : one_file.tree.contains path = true) : path ≠ [] := by
  rw [one_file_paths held]
  simp

theorem one_file_flat : flat_tree one_file.tree = some one_file.tree := if_pos (by decide)

def one_file_dirs : Set (Listing Name) := {dir | dir ∈ merkle_dirs (tree_depth one_file.tree) one_file.tree}

theorem one_file_dirs_free : Set.InjOn tree_hash one_file_dirs := by
  have apart : CollisionFree (merkle_dirs (tree_depth one_file.tree) one_file.tree) := by
    unfold CollisionFree
    decide
  exact fun a left b right same => apart a left b right same

def generous : PushLimits := ⟨100,100,100,100,1000⟩

theorem one_file_accepted (run_id : Option String) (allowed : generous.reject (payload_of run_id) = false) :
    ∃ c : Commit Name, c.payload = payload_of run_id ∧
      finalize_commit (some (transparent,())) "2024-05-17" c.payload = .ok c ∧
      (Ledger.empty.push_commit ⟨.shared,0,0⟩ generous 0 (fun _ => ⟨0,fun _ => false⟩) ⟨"default",none,noon,c⟩).1 = .ok 201 ∧
      Ledger.Push.Within ⟨"default",none,noon,c⟩ one_file_dirs := by
  have stamp : (payload_of run_id).timestamp = String.ofList noon.isoformat_utc := rfl
  obtain ⟨c,signed,same⟩ := finalize_produced stamp (some (transparent,())) "2024-05-17"
  have tree : c.payload.tree = one_file.tree := by rw [same]; rfl
  obtain ⟨columns,stored⟩ := columns_of_produced (c := c) (by rw [same]; exact stamp) none noon
  obtain ⟨listing,made,-⟩ := merkle_dir_same one_file_prefix_free (within_depth fun _ => one_file_named) (tree_depth_pos _)
    fun _ => rfl
  refine ⟨c,same,by rw [same]; exact signed,?_,fun raw flat dir member => ?_⟩
  · exact Ledger.push_accepts _ _ _ _ stored rfl (by rw [same]; exact allowed) (by rw [tree]; exact one_file_flat) made
  · rw [tree,one_file_flat] at flat
    obtain rfl := Option.some.inj flat
    exact member

theorem one_file_verified : ∃ (c : Commit Name) (t : Ledger Name) (page : List Doc × Option Nat) (row received : Doc),
    c.payload = payload_of none ∧ (∃ levels q, t.list_commits levels q = some page) ∧ row ∈ page.1 ∧
      row.get? "hash" = some (hash_json c.hash) ∧ normalize_commit_row row = some received ∧
      verify_signature (some transparent) received = .ok .verified := by
  obtain ⟨c,same,signed,accepted,within⟩ := one_file_accepted none (by decide)
  have tree : c.payload.tree = one_file.tree := by rw [same]; rfl
  obtain ⟨pages,q,inside⟩ := signature_survives transparent transparent_ideal () "2024-05-17" ⟨.shared,0,0⟩ generous 0
    (fun _ => ⟨0,fun _ => false⟩) one_file_dirs one_file_dirs_free [] [] ⟨"default",none,noon,c⟩ (by simpa using within) noon
    (by rw [same]; exact .staged _ _ _ _ _ _ _ _ _) signed (by rw [tree]; exact one_file_keyed)
    (by rw [tree]; exact fun _ => one_file_named) Ledger.empty _ rfl accepted rfl
  obtain ⟨enough,served⟩ := pages q
  obtain ⟨page,listed,complete,verifies⟩ := served enough le_rfl
  obtain ⟨item,member,at_hash⟩ := List.mem_map.mp inside
  obtain ⟨row,present,hash⟩ := complete item member
  rw [at_hash] at hash
  obtain ⟨received,normalized,survives⟩ := verifies row present hash
  refine ⟨c,_,page,row,received,same,⟨enough,q,listed⟩,present,hash,normalized,survives.mpr ?_⟩
  rw [same]
  exact ⟨rfl,by decide,fun _ => List.mem_cons_self,by decide,by decide,one_file_prefix_free,by decide⟩

/-- With `--run`, the run is signed and never served. -/
theorem linked_run_unverified : ∃ (c : Commit Name) (t : Ledger Name) (page : List Doc × Option Nat) (row received : Doc),
    c.payload = payload_of (some "r1") ∧ finalize_commit (some (transparent,())) "2024-05-17" c.payload = .ok c ∧
      (Ledger.empty.push_commit ⟨.shared,0,0⟩ generous 0 (fun _ => ⟨0,fun _ => false⟩) ⟨"default",none,noon,c⟩) =
        (.ok 201,t) ∧ (∃ levels q, t.list_commits levels q = some page) ∧ row ∈ page.1 ∧
      row.get? "hash" = some (hash_json c.hash) ∧ normalize_commit_row row = some received ∧
      verify_signature (some transparent) received ≠ .ok .verified := by
  obtain ⟨c,same,signed,accepted,within⟩ := one_file_accepted (some "r1") (by decide)
  have tree : c.payload.tree = one_file.tree := by rw [same]; rfl
  obtain ⟨pages,q,inside⟩ := listed_verifies_iff ⟨"default",none,noon,c⟩ transparent_ideal one_file_dirs_free
    (Ledger.sound_empty _) (fun other member => List.mem_singleton.mp member ▸ within) (by rw [same]; exact .staged _ _ _ _ _ _ _ _ _) signed
    (by rw [tree]; exact one_file_keyed) (by rw [tree]; exact fun _ => one_file_named) accepted rfl
  obtain ⟨enough,served⟩ := pages q
  obtain ⟨page,listed,complete,verifies⟩ := served enough le_rfl
  obtain ⟨item,member,at_hash⟩ := List.mem_map.mp inside
  obtain ⟨row,present,hash⟩ := complete item member
  rw [at_hash] at hash
  obtain ⟨received,normalized,survives⟩ := verifies row present hash
  refine ⟨c,_,page,row,received,same,signed,Prod.ext accepted rfl,⟨enough,q,listed⟩,present,hash,normalized,fun verified => ?_⟩
  have unlinked := (survives.mp verified).unlinked
  rw [same] at unlinked
  exact absurd unlinked (by decide)

end AetherVault
