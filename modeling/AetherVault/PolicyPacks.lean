import AetherVault.ChangeSets
import AetherVault.Signing
import Mathlib.Data.List.Sort

/-! Policy packs: every project's are to form one chain. A client reads the project's head and
publishes after it, and what a pack is hashed with is the id of the pack before it. -/
namespace AetherVault
open Lib ReadCommit Hashing

structure DBPolicyPack where
  id : String
  project_id : String
  object_id : String
  prev_id : Option String
  chain_hash : String
  published_by : Option String
  created_at : Datetime

structure PolicyPackBody where
  id : Option String
  project_id : Option String
  object_id : Option String
  prev_id : Option String

/-- `_new_uuid` -/
structure Uuid where
  text : String
  nonempty : text ≠ ""

/-- What the server brings to a request. -/
structure PackMoment where
  uuid : Uuid
  object_exists : String → Bool
  identity : Option String
  created_at : Datetime

/-- The packs in the order of their commits. -/
abbrev PolicyPacks := List DBPolicyPack

variable (H : Type) [Hashing H] [HexDigest H]

/-- The digest of `prev_id:object_id`. -/
def policy_chain_hash (prev_id : Option String) (object_id : String) : String :=
  HexDigest.hexdigest (sha256 (encode (((prev_id.filter (· ≠ "")).getD "").toList ++ ':'::object_id.toList)) : H)

/-- The row that `create_policy_pack` inserts; `none` for a 422 or where the id exists. -/
def create_policy_pack (body : PolicyPackBody) (now : PackMoment) (packs : PolicyPacks) : Option DBPolicyPack := do
  let pack_id := or_else body.id now.uuid.text
  let project_id ← body.project_id.filter (· ≠ "")
  let object_id ← require_uploaded_object_id body.object_id
  guard (!packs.any fun pack => pack.id == pack_id)
  guard (now.object_exists object_id)
  guard ((body.prev_id.filter (· ≠ "")).all fun prev_id => packs.any fun pack => pack.id == prev_id)
  some ⟨pack_id,project_id,object_id,body.prev_id,policy_chain_hash H body.prev_id object_id,now.identity,now.created_at⟩

namespace PolicyPacks

def of_project (packs : PolicyPacks) (project_id : String) : PolicyPacks := packs.filter fun pack => pack.project_id = project_id

/-- `GET /api/policy-packs/latest`; of one time the first in the table. -/
def get_latest_policy_pack (packs : PolicyPacks) (project_id : String) : Option DBPolicyPack :=
  ((packs.of_project project_id).insertionSort fun pack other => other.created_at.instant ≤ pack.created_at.instant).head?

end PolicyPacks

/-- `pack_publish`, from the moment that the object is uploaded; `answered` when the lookup of the head is. -/
structure PackPublish where
  project_id : String
  object_id : String
  answered : Bool

def PackPublish.body (publish : PackPublish) (packs : PolicyPacks) : PolicyPackBody :=
  ⟨none,some publish.project_id,some publish.object_id,
    if publish.answered then (packs.get_latest_policy_pack publish.project_id).map DBPolicyPack.id else none⟩

def policy_packs : Protocol PolicyPacks PackPublish PolicyPackBody PackMoment where
  plan publish packs := some (publish.body packs)
  write body now packs := packs ++ (create_policy_pack H body now packs).toList
  waits _ _ := false

namespace PolicyPacks

/-- One chain: no pack names a predecessor of another project, no two name the same one, nor
are there two firsts. -/
structure LinearChain (packs : PolicyPacks) (project_id : String) : Prop where
  predecessor : ∀ pack ∈ packs.of_project project_id, ∀ prev ∈ pack.prev_id, ∃ before ∈ packs.of_project project_id, before.id = prev
  unforked : (packs.of_project project_id).Pairwise fun pack other => pack.prev_id ≠ other.prev_id

/-- What the handler makes sure of. -/
structure Stored (packs : PolicyPacks) : Prop where
  distinct : (packs.map DBPolicyPack.id).Nodup
  named : ∀ pack ∈ packs, pack.id ≠ ""
  earlier : ∀ before pack after, packs = before ++ pack::after → ∀ prev ∈ pack.prev_id, ∃ other ∈ before, other.id = prev
  hashed : ∀ pack ∈ packs, pack.chain_hash = policy_chain_hash H pack.prev_id pack.object_id ∧ is_object_id pack.object_id = true

/-- The pack that is published follows the last one of its project. -/
def InTurn (body : PolicyPackBody) (now : PackMoment) (packs : PolicyPacks) : Prop := ∀ pack ∈ create_policy_pack H body now packs,
  pack.prev_id = (packs.of_project pack.project_id).getLast?.map DBPolicyPack.id

variable {H} {packs : PolicyPacks}

theorem get_latest_mem {project_id : String} {pack : DBPolicyPack} (latest : packs.get_latest_policy_pack project_id = some pack) :
    pack ∈ packs.of_project project_id :=
  (List.mem_insertionSort _).mp (List.mem_of_mem_head? latest)

theorem or_else_nonempty (value : Option String) {default : String} (nonempty : default ≠ "") : or_else value default ≠ "" := by
  unfold or_else
  cases kept : value.filter (· ≠ "") with
  | none => exact nonempty
  | some text => simpa using (Option.filter_eq_some_iff.mp kept).2

theorem create_policy_pack_spec {body : PolicyPackBody} {now : PackMoment} {pack : DBPolicyPack}
    (made : create_policy_pack H body now packs = some pack) :
    pack.id ≠ "" ∧ (∀ other ∈ packs, other.id ≠ pack.id) ∧ pack.prev_id = body.prev_id ∧
    (∀ prev ∈ body.prev_id, prev ≠ "" → ∃ other ∈ packs, other.id = prev) ∧
    pack.chain_hash = policy_chain_hash H pack.prev_id pack.object_id ∧ is_object_id pack.object_id = true := by
  simp only [create_policy_pack,Option.bind_eq_bind,Option.bind_eq_some_iff,Option.guard_eq_some',Option.some.injEq] at made
  obtain ⟨project_id,-,object_id,checked,_,fresh,_,-,_,known,rfl⟩ := made
  refine ⟨or_else_nonempty _ now.uuid.nonempty,?_,rfl,?_,rfl,(Option.filter_eq_some_iff.mp checked).2⟩
  · intro other present same
    have taken : (packs.any fun pack => pack.id == or_else body.id now.uuid.text) = true :=
      List.any_eq_true.mpr ⟨other,present,by simpa using same⟩
    rw [taken] at fresh
    contradiction
  · intro prev named nonempty
    rw [Option.mem_def.mp named] at known
    simpa [nonempty] using known

theorem of_project_append (packs : PolicyPacks) (pack : DBPolicyPack) (project_id : String) :
    of_project (packs ++ [pack]) project_id = packs.of_project project_id ++ (if pack.project_id = project_id then [pack] else []) := by
  unfold of_project
  by_cases same : pack.project_id = project_id <;> simp [same]

theorem mem_of_project {project_id : String} {pack : DBPolicyPack} : pack ∈ packs.of_project project_id ↔
    pack ∈ packs ∧ pack.project_id = project_id := by simp [of_project]

theorem Stored.insert (stored : Stored H packs) {body : PolicyPackBody} (named : ∀ prev ∈ body.prev_id, prev ≠ "") (now : PackMoment) :
    Stored H (packs ++ (create_policy_pack H body now packs).toList) := by
  cases made : create_policy_pack H body now packs with
  | none => simpa using stored
  | some pack =>
    obtain ⟨nonempty,fresh,prev_id,known,hashed,object_id⟩ := create_policy_pack_spec made
    constructor
    · simp only [Option.toList_some,List.map_append,List.map_cons,List.map_nil]
      apply stored.distinct.append (List.nodup_singleton _)
      intro id old new
      obtain ⟨other,present,rfl⟩ := List.mem_map.mp old
      exact fresh other present (List.mem_singleton.mp new)
    · intro other present
      cases List.mem_append.mp present with
      | inl old => exact stored.named other old
      | inr new =>
        rw [List.mem_singleton.mp new]
        exact nonempty
    · intro before other after split prev names
      cases after using List.reverseRecOn with
      | nil =>
        obtain ⟨rfl,same⟩ := List.append_inj' split rfl
        cases List.singleton_inj.mp same
        rw [prev_id] at names
        exact known prev names (named prev names)
      | append_singleton after last _ =>
        rw [← List.cons_append,← List.append_assoc] at split
        exact stored.earlier before other after (List.append_inj' split rfl).1 prev names
    · intro other present
      cases List.mem_append.mp present with
      | inl old => exact stored.hashed other old
      | inr new =>
        rw [List.mem_singleton.mp new]
        exact ⟨hashed,object_id⟩

theorem LinearChain.predecessor_before {project_id : String} (stored : Stored H packs) (linear : packs.LinearChain project_id)
    {before after : PolicyPacks} {pack : DBPolicyPack} (split : packs.of_project project_id = before ++ pack::after) :
    ∀ prev ∈ pack.prev_id, ∃ other ∈ before, other.id = prev := by
  intro prev names
  obtain ⟨first,rest,joined,kept,tail⟩ := List.filter_eq_append_iff.mp split
  obtain ⟨skipped,later,joined',none_kept,mine,-⟩ := List.filter_eq_cons_iff.mp tail
  have whole : packs = (first ++ skipped) ++ pack::later := by rw [joined,joined',List.append_assoc]
  obtain ⟨other,among,same⟩ := linear.predecessor pack (by rw [split]; simp) prev names
  obtain ⟨other',early,same'⟩ := stored.earlier _ pack later whole prev names
  obtain ⟨present,of_project⟩ := mem_of_project.mp among
  have equal : other' = other := by
    apply List.inj_on_of_nodup_map stored.distinct
    · rw [whole]
      exact List.mem_append_left _ early
    · exact present
    · rw [same,same']
  subst equal
  refine ⟨other',?_,same⟩
  cases List.mem_append.mp early with
  | inl here =>
    rw [← kept]
    exact List.mem_filter.mpr ⟨here,decide_eq_true of_project⟩
  | inr here => exact absurd (decide_eq_true of_project) (none_kept other' here)

/-- Packs that name different packs before them, and none twice, form one row: by induction on what was stored
before, where a predecessor that is not the last is named by the next already. -/
theorem follows_of_earlier {chain : PolicyPacks} (unforked : chain.Pairwise fun pack other => pack.prev_id ≠ other.prev_id)
    (earlier : ∀ before pack after, chain = before ++ pack::after → ∀ prev ∈ pack.prev_id, ∃ other ∈ before, other.id = prev) (n : Nat) :
    ∀ before pack after, before.length = n → chain = before ++ pack::after → pack.prev_id = before.getLast?.map DBPolicyPack.id := by
  induction n using Nat.strongRecOn with
  | ind n ih =>
    intro before pack after length split
    have apart : ∀ other ∈ before, other.prev_id ≠ pack.prev_id := by
      intro other present
      rw [split] at unforked
      exact (List.pairwise_append.mp unforked).2.2 other present pack List.mem_cons_self
    cases names : pack.prev_id with
    | none =>
      cases before with
      | nil => rfl
      | cons first rest =>
        have nothing : first.prev_id = none := ih 0 (by simp [← length]) [] first (rest ++ pack::after) rfl split
        exact absurd (nothing.trans names.symm) (apart first List.mem_cons_self)
    | some prev =>
      obtain ⟨other,present,rfl⟩ := earlier before pack after split prev names
      obtain ⟨start,between,rfl⟩ := List.append_of_mem present
      cases between with
      | nil => simp
      | cons next between =>
        exfalso
        have after_other : next.prev_id = some other.id := by
          have follows := ih (start ++ [other]).length (by simp [← length]) (start ++ [other]) next (between ++ pack::after) rfl
            (by simp [split])
          simpa using follows
        exact apart next (by simp) (after_other.trans names.symm)

theorem LinearChain.follows {project_id : String} (stored : Stored H packs) (linear : packs.LinearChain project_id)
    {before after : PolicyPacks} {pack : DBPolicyPack} (split : packs.of_project project_id = before ++ pack::after) :
    pack.prev_id = before.getLast?.map DBPolicyPack.id :=
  follows_of_earlier linear.unforked (fun _ _ _ => linear.predecessor_before stored) before.length before pack after rfl split

/-- A chain goes on as one chain exactly when the next pack names its last. -/
theorem linear_insert_iff {project_id : String} {pack : DBPolicyPack} (mine : pack.project_id = project_id)
    (stored : Stored H (packs ++ [pack])) (before : Stored H packs) (linear : packs.LinearChain project_id) :
    LinearChain (packs ++ [pack]) project_id ↔ pack.prev_id = (packs.of_project project_id).getLast?.map DBPolicyPack.id := by
  have added : of_project (packs ++ [pack]) project_id = packs.of_project project_id ++ [pack] := by rw [of_project_append,if_pos mine]
  constructor
  · intro longer
    exact longer.follows stored added
  · intro names
    constructor
    · intro other among prev named
      rw [added] at among ⊢
      cases List.mem_append.mp among with
      | inl old =>
        obtain ⟨found,there,same⟩ := linear.predecessor other old prev named
        exact ⟨found,List.mem_append_left _ there,same⟩
      | inr new =>
        rw [List.mem_singleton.mp new,names] at named
        obtain ⟨last,at_end,same⟩ := Option.map_eq_some_iff.mp named
        exact ⟨last,List.mem_append_left _ (List.mem_of_getLast? at_end),same⟩
    · rw [added]
      apply List.pairwise_append.mpr
      refine ⟨linear.unforked,List.pairwise_singleton _ _,?_⟩
      intro other old next new same
      rw [List.mem_singleton.mp new,names] at same
      obtain ⟨first,later,split⟩ := List.append_of_mem old
      cases last : (packs.of_project project_id).getLast? with
      | none =>
        rw [List.getLast?_eq_none_iff.mp last] at old
        contradiction
      | some final =>
        rw [last] at same
        obtain ⟨found,early,equal⟩ := linear.predecessor_before before split final.id same
        -- the last pack would be stored before another
        have distinct : ((packs.of_project project_id).map DBPolicyPack.id).Nodup :=
          before.distinct.sublist (List.filter_sublist.map DBPolicyPack.id)
        have ends : final ∈ other::later := by
          rw [split,List.getLast?_append_of_ne_nil _ (List.cons_ne_nil _ _)] at last
          exact List.mem_of_getLast? last
        rw [split,List.map_append] at distinct
        exact (List.nodup_append.mp distinct).2.2 found.id (List.mem_map_of_mem early) final.id (List.mem_map_of_mem ends) equal

theorem linear_other {project_id : String} {pack : DBPolicyPack} (other : pack.project_id ≠ project_id) :
    LinearChain (packs ++ [pack]) project_id ↔ packs.LinearChain project_id := by
  have same : of_project (packs ++ [pack]) project_id = packs.of_project project_id := by rw [of_project_append,if_neg other,List.append_nil]
  constructor
  · intro linear
    exact ⟨by simpa [same] using linear.predecessor,by simpa [same] using linear.unforked⟩
  · intro linear
    exact ⟨by simpa [same] using linear.predecessor,by simpa [same] using linear.unforked⟩

/-- The packs of every project form one chain throughout exactly when each is published after the last of its project. -/
theorem policy_packs_linear_iff (moves : List (Move PackPublish PackMoment)) :
    (∀ before after, moves = before ++ after → ∀ project_id, LinearChain ((policy_packs H).run [] before).shared project_id) ↔
      (policy_packs H).Every [] (InTurn H) moves := by
  apply Protocol.always_iff (I := Stored H) (A := fun body : PolicyPackBody => ∀ prev ∈ body.prev_id, prev ≠ "")
    (G := fun packs => ∀ project_id, LinearChain packs project_id)
  · intro publish packs body stored planned prev names
    cases planned
    simp only [PackPublish.body] at names
    split at names
    · obtain ⟨latest,found,rfl⟩ := Option.map_eq_some_iff.mp names
      exact stored.named latest (mem_of_project.mp (get_latest_mem found)).1
    · contradiction
  · intro body now packs named stored
    exact stored.insert named now
  · intro body now packs named stored linear
    have later := stored.insert named now
    unfold InTurn
    simp only [policy_packs]
    cases made : create_policy_pack H body now packs with
    | none => simpa using linear
    | some pack =>
      rw [made] at later
      simp only [Option.toList_some,Option.mem_def,Option.some.injEq,forall_eq'] at later ⊢
      rw [← linear_insert_iff rfl later stored (linear _)]
      constructor
      · intro all
        exact all pack.project_id
      · intro mine project_id
        by_cases same : pack.project_id = project_id
        · rw [← same]
          exact mine
        · exact (linear_other same).mpr (linear project_id)
  · exact ⟨List.nodup_nil,by simp,by simp,by simp⟩
  · intro project_id
    exact ⟨by simp [of_project],by simp [of_project]⟩

section Raced

open ChangeSets (noon digest)

def moment (text : String) (nonempty : text ≠ "") : PackMoment := ⟨⟨text,nonempty⟩,fun _ => true,none,noon⟩

/-- Two clients of one project look for its head before either has published. -/
def two_firsts : List (Move PackPublish PackMoment) :=
  [.read 1 ⟨"p",digest,true⟩,.read 2 ⟨"p",digest,true⟩,.commit 1 (moment "a" (by decide)),.commit 2 (moment "b" (by decide))]

theorem two_first_packs : ¬ ∀ (moves : List (Move PackPublish PackMoment)) (project_id : String),
    LinearChain ((policy_packs Name).run [] moves).shared project_id := by
  intro all
  have prevs : (of_project ((policy_packs Name).run [] two_firsts).shared "p").map DBPolicyPack.prev_id = [none,none] := by decide +kernel
  have unforked := (all two_firsts "p").unforked
  rw [← List.pairwise_map (R := fun prev other => prev ≠ other),prevs] at unforked
  simp at unforked

end Raced

/-! What the hashes of a chain say of it. -/

section Evidence

variable (H) in
/-- A chain of packs with the hashes that `create_policy_pack` records. -/
structure Consistent (chain : PolicyPacks) : Prop where
  distinct : (chain.map DBPolicyPack.id).Nodup
  named : ∀ pack ∈ chain, pack.id ≠ ""
  follows : ∀ before pack after, chain = before ++ pack::after → pack.prev_id = before.getLast?.map DBPolicyPack.id
  hashed : ∀ pack ∈ chain, pack.chain_hash = policy_chain_hash H pack.prev_id pack.object_id ∧ is_object_id pack.object_id = true

theorem LinearChain.consistent {project_id : String} (stored : Stored H packs) (linear : packs.LinearChain project_id) :
    Consistent H (packs.of_project project_id) where
  distinct := stored.distinct.sublist (List.filter_sublist.map DBPolicyPack.id)
  named pack among := stored.named pack (mem_of_project.mp among).1
  follows _ _ _ split := linear.follows stored split
  hashed pack among := stored.hashed pack (mem_of_project.mp among).1

variable (H) in
/-- The last hash fixes every object, and another object shows in every later hash. -/
structure TamperEvident (chain : PolicyPacks) : Prop where
  same_objects : ∀ other, Consistent H other → other.getLast?.map DBPolicyPack.chain_hash = chain.getLast?.map DBPolicyPack.chain_hash →
    other.map DBPolicyPack.object_id = chain.map DBPolicyPack.object_id
  replaced : ∀ other, Consistent H other → ∀ (i k : Nat) (pack later pack' later' : DBPolicyPack), i < k → chain[i]? = some pack → chain[k]? = some later →
    other[i]? = some pack' → other[k]? = some later' → pack'.object_id ≠ pack.object_id → later'.chain_hash ≠ later.chain_hash

theorem no_colon {object_id : String} (checked : is_object_id object_id = true) : ':' ∉ object_id.toList := by
  have hex : ∀ cs : List Char, cs.all object_digit = true → ':' ∉ cs := by
    intro cs all present
    have digit := List.all_eq_true.mp all ':' present
    revert digit
    decide
  simp only [is_object_id,Bool.or_eq_true,Bool.and_eq_true] at checked
  intro present
  cases checked with
  | inl plain => exact hex _ plain.2 present
  | inr broken =>
    have split := List.dropLast_append_getLast? '\n' (eq_of_beq broken.2)
    rw [← split] at present
    cases List.mem_append.mp present with
    | inl before => exact hex _ broken.1.2 before
    | inr last => simp at last

theorem colon_split {a b c d : List Char} (none_after : ':' ∉ b) (none_after' : ':' ∉ d) (same : a ++ ':'::b = c ++ ':'::d) :
    a = c ∧ b = d := by
  rcases List.append_eq_append_iff.mp same with ⟨between,joined,rest⟩ | ⟨between,joined,rest⟩
  · cases between with
    | nil =>
      cases rest
      exact ⟨by simpa using joined.symm,rfl⟩
    | cons first between =>
      obtain ⟨-,rfl⟩ := List.cons.inj rest
      exact absurd (by simp) none_after
  · cases between with
    | nil =>
      cases rest
      exact ⟨by simpa using joined,rfl⟩
    | cons first between =>
      obtain ⟨-,rfl⟩ := List.cons.inj rest
      exact absurd (by simp) none_after'

/-- The hash of a pack fixes its object and the id that it names, where no id is as good as none. -/
theorem policy_chain_hash_binds (injective : Function.Injective (sha256 : Bytes → H)) {prev prev' : Option String}
    {object_id object_id' : String} (checked : is_object_id object_id = true) (checked' : is_object_id object_id' = true)
    (same : policy_chain_hash H prev object_id = policy_chain_hash H prev' object_id') :
    (prev.filter (· ≠ "")).getD "" = (prev'.filter (· ≠ "")).getD "" ∧ object_id = object_id' := by
  have texts := encode_injective (injective (HexDigest.injective same))
  obtain ⟨before,after⟩ := colon_split (no_colon checked) (no_colon checked') texts
  exact ⟨String.toList_inj.mp before,String.toList_inj.mp after⟩

variable (H) in
def replace_first (object_id : String) : PolicyPacks → PolicyPacks
  | [] => []
  | first::rest => {first with object_id := object_id,chain_hash := policy_chain_hash H first.prev_id object_id}::rest

theorem Consistent.replace_first {chain : PolicyPacks} (consistent : Consistent H chain) {object_id : String}
    (checked : is_object_id object_id = true) : Consistent H (replace_first H object_id chain) := by
  cases chain with
  | nil => exact consistent
  | cons first rest =>
    constructor
    · exact consistent.distinct
    · intro pack among
      cases List.mem_cons.mp among with
      | inl here =>
        rw [here]
        exact consistent.named first List.mem_cons_self
      | inr later => exact consistent.named pack (List.mem_cons_of_mem _ later)
    · intro before pack after split
      cases before with
      | nil =>
        obtain ⟨rfl,-⟩ := List.cons.inj split
        exact consistent.follows [] first rest rfl
      | cons replaced before =>
        obtain ⟨rfl,same⟩ := List.cons.inj split
        have follows := consistent.follows (first::before) pack after (by rw [same]; rfl)
        rw [follows]
        cases before with
        | nil => rfl
        | cons next before => rfl
    · intro pack among
      cases List.mem_cons.mp among with
      | inl here =>
        rw [here]
        exact ⟨rfl,checked⟩
      | inr later => exact consistent.hashed pack (List.mem_cons_of_mem _ later)

def other_object (object_id : String) : String :=
  if object_id = String.ofList (List.replicate 64 'a') then String.ofList (List.replicate 64 'b') else String.ofList (List.replicate 64 'a')

theorem other_object_spec (object_id : String) : is_object_id (other_object object_id) = true ∧ other_object object_id ≠ object_id := by
  unfold other_object
  split
  · rename_i same
    rw [same]
    decide
  · rename_i differ
    exact ⟨by decide,Ne.symm differ⟩

/-- The hashes of a chain tell that an object was replaced exactly when the chain is a single pack. -/
theorem policy_chain_tamper_evident_iff (injective : Function.Injective (sha256 : Bytes → H)) {chain : PolicyPacks}
    (consistent : Consistent H chain) (published : chain ≠ []) : TamperEvident H chain ↔ chain.length = 1 := by
  constructor
  · intro evident
    cases chain with
    | nil => contradiction
    | cons first rest =>
      cases rest with
      | nil => rfl
      | cons next rest =>
        obtain ⟨checked,differ⟩ := other_object_spec first.object_id
        have same := evident.same_objects _ (consistent.replace_first checked) rfl
        exact absurd (List.cons.inj same).1 differ
  · intro single
    obtain ⟨only,rfl⟩ := List.length_eq_one_iff.mp single
    constructor
    · intro other consistent' same
      obtain ⟨last,at_end,hash⟩ := Option.map_eq_some_iff.mp same
      obtain ⟨before,rfl⟩ := List.getLast?_eq_some_iff.mp at_end
      have recorded := consistent.hashed only List.mem_cons_self
      have recorded' := consistent'.hashed last (by simp)
      have hashes : policy_chain_hash H last.prev_id last.object_id = policy_chain_hash H only.prev_id only.object_id := by
        rw [← recorded.1,← recorded'.1]
        exact hash
      obtain ⟨named,objects⟩ := policy_chain_hash_binds injective recorded'.2 recorded.2 hashes
      have nothing : only.prev_id = none := consistent.follows [] only [] rfl
      cases previous : before.getLast? with
      | none =>
        rw [List.getLast?_eq_none_iff.mp previous]
        simp [objects]
      | some pack =>
        have follows : last.prev_id = some pack.id := by rw [consistent'.follows before last [] rfl,previous]; rfl
        have nonempty := consistent'.named pack (List.mem_append_left _ (List.mem_of_getLast? previous))
        rw [nothing,follows,Option.filter_some_pos (by simpa using nonempty)] at named
        exact absurd named nonempty
    · intro other _ i k pack later pack' later' earlier _ there
      have inside := (List.getElem?_eq_some_iff.mp there).1
      simp only [List.length_singleton] at inside
      omega

section Replaced

open ChangeSets (noon digest)

def first_pack : DBPolicyPack := ⟨"1","p",digest,none,policy_chain_hash Name none digest,none,noon⟩

def second_pack : DBPolicyPack := ⟨"2","p",digest,some "1",policy_chain_hash Name (some "1") digest,none,noon⟩

theorem single_consistent : Consistent Name [first_pack] := by
  constructor
  · decide
  · decide
  · intro before pack after split
    cases before with
    | nil =>
      cases split
      rfl
    | cons other before =>
      have lengths := congrArg List.length split
      simp at lengths
  · intro pack among
    rw [List.mem_singleton.mp among]
    exact ⟨rfl,by decide⟩

theorem pair_consistent : Consistent Name [first_pack,second_pack] := by
  constructor
  · decide
  · decide
  · intro before pack after split
    cases before with
    | nil =>
      cases split
      rfl
    | cons other before =>
      obtain ⟨rfl,rest⟩ := List.cons.inj split
      cases before with
      | nil =>
        cases rest
        rfl
      | cons next before =>
        have lengths := congrArg List.length rest
        simp at lengths
  · intro pack among
    cases List.mem_cons.mp among with
    | inl here =>
      rw [here]
      exact ⟨rfl,by decide⟩
    | inr there =>
      rw [List.mem_singleton.mp there]
      exact ⟨rfl,by decide⟩

theorem policy_chain_tamper_evident_single : TamperEvident Name [first_pack] ↔ [first_pack].length = 1 :=
  policy_chain_tamper_evident_iff Name.sha256_injective single_consistent (List.cons_ne_nil _ _)

theorem replaced_object_unseen : ¬ ∀ chain other : PolicyPacks, Consistent Name chain → Consistent Name other →
    other.getLast?.map DBPolicyPack.chain_hash = chain.getLast?.map DBPolicyPack.chain_hash →
    other.map DBPolicyPack.object_id = chain.map DBPolicyPack.object_id := by
  intro all
  obtain ⟨checked,differ⟩ := other_object_spec digest
  have same := all _ _ pair_consistent (pair_consistent.replace_first checked) rfl
  exact differ (List.cons.inj same).1

end Replaced

end Evidence

end PolicyPacks

end AetherVault
