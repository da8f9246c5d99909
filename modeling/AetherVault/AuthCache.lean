import AetherVault.Identity
import AetherVault.Signing
import AetherVault.Lib.Runs
import AetherVault.Lib.SecureHash
import Mathlib.Data.List.Induction

/-! The cache of `identity.py` in front of the token and session rows: what a resolution gives after any sequence of
resolutions, changes of the rows and invalidations. Sessions are cached under a key of their own, which an invalidation
does not clear. -/
namespace AetherVault.Identity.AuthCache
open Lib

def hash_token (raw_token : String) : String :=
  String.ofList (SecureHash.hexadecimal (SecureHash.digest (SecureHash.bits (encode raw_token.toList))))

def invalidate_cached_token (cache : Cache) (raw_token : String) : Cache := cache.erase (hash_token raw_token)

inductive Cached
  | db_token
  | session
  deriving DecidableEq

def Cached.key (kind : Cached) (raw_token : String) : String :=
  match kind with
  | .db_token => hash_token raw_token
  | .session => session_key (hash_token raw_token)

/-- What the rows say, past the cache. -/
def Cached.look_up (kind : Cached) (d : Directory) (now : Nat) (raw_token : String) : Option Principal :=
  match kind with
  | .db_token => look_up_token d now (hash_token raw_token)
  | .session => look_up_session d now (hash_token raw_token)

inductive AuthEvent
  | resolve (kind : Cached) (raw_token : String)
  | change (d : Directory)
  | elapse (ticks : Nat)
  | invalidate (raw_token : String)

structure AuthState where
  now : Nat
  d : Directory
  cache : Cache

variable (limits : CacheLimits)

def resolution (s : AuthState) (kind : Cached) (raw_token : String) : Option Principal × Cache :=
  match kind with
  | .db_token => resolve_db_token limits s.d s.cache s.now (hash_token raw_token)
  | .session => resolve_session limits s.d s.cache s.now (hash_token raw_token)

def auth_step (s : AuthState) : AuthEvent → AuthState
  | .resolve kind raw_token => {s with cache := (resolution limits s kind raw_token).2}
  | .change d => {s with d := d}
  | .elapse ticks => {s with now := s.now + ticks}
  | .invalidate raw_token => {s with cache := invalidate_cached_token s.cache raw_token}

def auth_run (start : AuthState) (events : List AuthEvent) : AuthState := events.foldl (auth_step limits) start

/-- A resolution after these events gives what the rows said in one of the states since the token was last invalidated,
now or less than the time to live ago. -/
def Transparent (start : AuthState) (events : List AuthEvent) (kind : Cached) (raw_token : String) : Prop :=
  ∃ before since, events = before ++ since ∧ AuthEvent.invalidate raw_token ∉ since ∧
    (auth_run limits start before).now ≤ (auth_run limits start events).now ∧
    (since = [] ∨ (auth_run limits start events).now < (auth_run limits start before).now + limits.ttl) ∧
    (resolution limits (auth_run limits start events) kind raw_token).1 =
      kind.look_up (auth_run limits start before).d (auth_run limits start before).now raw_token

def Bounded (s : AuthState) : Prop := s.cache.entries.length ≤ limits.max_entries

/-- When a step does not reach the defects: a resolution needs room for one entry, and an invalidation must not leave a
live session entry behind that the rows no longer confirm. -/
def Fits (s : AuthState) : AuthEvent → Prop
  | .resolve _ _ => 0 < limits.max_entries
  | .invalidate raw_token => ∀ expires_at principal,
      s.cache.get? (session_key (hash_token raw_token)) = some (expires_at,principal) → s.now < expires_at →
        principal = look_up_session s.d s.now (hash_token raw_token)
  | _ => True

/-! The keys. -/

theorem hash_token_length (raw_token : String) : (hash_token raw_token).length = 64 := by
  rw [hash_token,String.length_ofList,SecureHash.length_hexadecimal,SecureHash.length_digest]

theorem session_key_inj {a b : String} (same : session_key a = session_key b) : a = b := by
  have chars := congrArg String.toList same
  rw [session_key,session_key,String.toList_append,String.toList_append] at chars
  exact String.toList_inj.mp (List.append_cancel_left chars)

theorem session_key_apart (a b : String) : session_key (hash_token a) ≠ hash_token b := by
  intro same
  have sizes := congrArg String.length same
  have eight : "session:".length = 8 := rfl
  rw [session_key,String.length_append,hash_token_length,hash_token_length,eight] at sizes
  omega

theorem key_inj {kind kind' : Cached} {a b : String} (same : kind.key a = kind'.key b) :
    kind = kind' ∧ hash_token a = hash_token b := by
  cases kind <;> cases kind'
  · exact ⟨rfl,same⟩
  · exact absurd same.symm (session_key_apart b a)
  · exact absurd same (session_key_apart a b)
  · exact ⟨rfl,session_key_inj same⟩

theorem look_up_congr {kind : Cached} {a b : String} (same : hash_token a = hash_token b) (d : Directory) (now : Nat) :
    kind.look_up d now a = kind.look_up d now b := by
  cases kind
  · rw [Cached.look_up,Cached.look_up,same]
  · rw [Cached.look_up,Cached.look_up,same]

/-! How large the cache gets. -/

theorem length_set (cache : Cache) (key : String) (entry : Nat × Option Principal) :
    (cache.set key entry).entries.length = if cache.contains key then cache.entries.length else cache.entries.length + 1 := by
  have names := congrArg List.length (Dict.assign_keys cache.entries key entry)
  have known : cache.contains key = true ↔ key ∈ cache.entries.map Prod.fst :=
    (cache.contains_iff key).trans (cache.mem_keys key).symm
  rw [List.length_map] at names
  rw [Dict.set,names]
  by_cases held : key ∈ cache.entries.map Prod.fst
  · rw [if_pos held,if_pos (known.mpr held),List.length_map]
  · rw [if_neg held,if_neg (fun contained => held (known.mp contained)),List.length_append,List.length_map]
    rfl

theorem entries_erase_all (cache : Cache) (keys : List String) :
    (erase_all cache keys).entries = cache.entries.filter fun entry => entry.1 ∉ keys := by
  induction keys generalizing cache with
  | nil => simp [erase_all]
  | cons key rest ih =>
    have erased : (cache.erase key).entries = cache.entries.filter fun entry => entry.1 ≠ key := rfl
    have later := ih (cache.erase key)
    rw [erased,List.filter_filter] at later
    refine later.trans (List.filter_congr fun entry _ => ?_)
    simp [List.mem_cons,not_or,Bool.and_comm]

/-- Erasing entries that are there takes off as many. -/
theorem length_erase_all (cache : Cache) (keys : List String) (known : keys ⊆ cache.entries.map Prod.fst) (once : keys.Nodup) :
    (erase_all cache keys).entries.length + keys.length = cache.entries.length := by
  have parts := List.length_eq_length_filter_add (l := cache.entries) fun entry => decide (entry.1 ∉ keys)
  have erased : keys.length = (cache.entries.filter fun entry => !decide (entry.1 ∉ keys)).length := by
    have names : ((cache.entries.filter fun entry => !decide (entry.1 ∉ keys)).map Prod.fst).Perm keys := by
      refine (List.perm_ext_iff_of_nodup (cache.distinct.sublist (List.Sublist.map _ List.filter_sublist)) once).mpr fun name => ?_
      simp only [List.mem_map,List.mem_filter,decide_not,Bool.not_not,decide_eq_true_eq]
      constructor
      · intro found
        obtain ⟨entry,⟨-,inside⟩,rfl⟩ := found
        exact inside
      · intro inside
        obtain ⟨entry,member,rfl⟩ := List.mem_map.mp (known inside)
        exact ⟨entry,⟨member,inside⟩,rfl⟩
    rw [← names.length_eq,List.length_map]
  rw [entries_erase_all,parts,erased]

theorem length_make_room (cache : Cache) (now : Nat) (room : 0 < limits.max_entries) :
    (make_room limits cache now).entries.length < limits.max_entries := by
  unfold make_room
  generalize alive_eq : cache.filter (fun _ entry => now < entry.1) = alive
  have sorted := List.mergeSort_perm alive.entries fun a b => a.2.1 ≤ b.2.1
  have names := sorted.map Prod.fst
  have taken : ((alive.entries.mergeSort fun a b => a.2.1 ≤ b.2.1).take (alive.entries.length + 1 - limits.max_entries)).map Prod.fst =
      ((alive.entries.mergeSort fun a b => a.2.1 ≤ b.2.1).map Prod.fst).take (alive.entries.length + 1 - limits.max_entries) := List.map_take
  have known : ((alive.entries.mergeSort fun a b => a.2.1 ≤ b.2.1).map Prod.fst).take (alive.entries.length + 1 - limits.max_entries) ⊆
      alive.entries.map Prod.fst := fun name inside => names.mem_iff.mp (List.mem_of_mem_take inside)
  have once := (names.nodup_iff.mpr alive.distinct).sublist (List.take_sublist (alive.entries.length + 1 - limits.max_entries) _)
  have erased := length_erase_all alive _ known once
  rw [List.length_take,List.length_map,List.length_mergeSort] at erased
  dsimp only
  rw [taken]
  omega

theorem length_cache_put {cache : Cache} (now : Nat) (key : String) (principal : Option Principal) (room : 0 < limits.max_entries)
    (bounded : cache.entries.length ≤ limits.max_entries) :
    (_cache_put limits cache now key principal).entries.length ≤ limits.max_entries := by
  unfold _cache_put
  dsimp only
  rw [length_set]
  by_cases held : cache.contains key = true
  · rw [held,Bool.not_true,Bool.false_and,if_neg Bool.false_ne_true,if_pos held]
    exact bounded
  · rw [Bool.not_eq_true] at held
    by_cases full : cache.entries.length ≥ limits.max_entries
    · have less := length_make_room limits cache now room
      rw [held,Bool.not_false,Bool.true_and,if_pos (decide_eq_true full)]
      split <;> omega
    · have space : ¬decide (cache.entries.length ≥ limits.max_entries) = true := by rwa [decide_eq_true_eq]
      rw [held,Bool.not_false,Bool.true_and,if_neg space,held]
      simp only [Bool.false_eq_true,if_false]
      omega

theorem length_erase (cache : Cache) (key : String) : (cache.erase key).entries.length ≤ cache.entries.length :=
  List.length_filter_le _ _

theorem length_resolve {cache : Cache} (now : Nat) (key : String) (resolved : Option Principal) (room : 0 < limits.max_entries)
    (bounded : cache.entries.length ≤ limits.max_entries) :
    (resolve limits cache now key resolved).2.entries.length ≤ limits.max_entries := by
  have erased := length_erase cache key
  unfold resolve _cache_get
  cases cache.get? key with
  | none => exact length_cache_put limits now key resolved room bounded
  | some entry =>
    by_cases expired : now ≥ entry.1
    · simp only [expired,if_true]
      exact length_cache_put limits now key resolved room (erased.trans bounded)
    · simpa only [expired,if_false] using bounded

/-! What the cache holds. -/

section Run

variable (start : AuthState)

/-- A live entry is what the rows said since the last invalidation of its token, and expires in time. -/
def Vouched (events : List AuthEvent) (kind : Cached) (raw_token : String) (expires_at : Nat) (principal : Option Principal) : Prop :=
  ∃ before since, events = before ++ since ∧
    (∀ other, hash_token other = hash_token raw_token → AuthEvent.invalidate other ∉ since) ∧
    (auth_run limits start before).now ≤ (auth_run limits start events).now ∧
    expires_at ≤ (auth_run limits start before).now + limits.ttl ∧
    principal = kind.look_up (auth_run limits start before).d (auth_run limits start before).now raw_token

structure Sound (events : List AuthEvent) : Prop where
  bounded : Bounded limits (auth_run limits start events)
  vouched : ∀ kind raw_token expires_at principal,
    (auth_run limits start events).cache.get? (kind.key raw_token) = some (expires_at,principal) →
      (auth_run limits start events).now < expires_at → Vouched limits start events kind raw_token expires_at principal

variable {limits start}

theorem run_concat (events : List AuthEvent) (e : AuthEvent) :
    auth_run limits start (events ++ [e]) = auth_step limits (auth_run limits start events) e := by
  rw [auth_run,List.foldl_append]
  rfl

theorem now_le_step (s : AuthState) (e : AuthEvent) : s.now ≤ (auth_step limits s e).now := by
  cases e with
  | resolve kind raw_token => exact Nat.le_refl _
  | change d => exact Nat.le_refl _
  | elapse ticks => exact Nat.le_add_right _ _
  | invalidate raw_token => exact Nat.le_refl _

/-- What stays vouched for: a step that does not invalidate the token. -/
theorem Vouched.later {events : List AuthEvent} {kind : Cached} {raw_token : String} {expires_at : Nat} {principal : Option Principal}
    (vouched : Vouched limits start events kind raw_token expires_at principal) {e : AuthEvent}
    (other : ∀ raw, e = .invalidate raw → hash_token raw ≠ hash_token raw_token) :
    Vouched limits start (events ++ [e]) kind raw_token expires_at principal := by
  obtain ⟨before,since,split,untouched,earlier,inside,same⟩ := vouched
  refine ⟨before,since ++ [e],by rw [split,List.append_assoc],?_,?_,inside,same⟩
  · intro raw hash member
    rcases List.mem_append.mp member with old | new
    · exact untouched raw hash old
    · exact other raw (List.mem_singleton.mp new).symm hash
  · rw [run_concat]
    exact earlier.trans (now_le_step _ e)

/-- What the rows say now is vouched for by now. -/
theorem vouched_now {events : List AuthEvent} {kind : Cached} {raw_token : String} {expires_at : Nat} {principal : Option Principal}
    (inside : expires_at ≤ (auth_run limits start events).now + limits.ttl)
    (same : principal = kind.look_up (auth_run limits start events).d (auth_run limits start events).now raw_token) :
    Vouched limits start events kind raw_token expires_at principal :=
  ⟨events,[],(List.append_nil _).symm,fun _ _ => List.not_mem_nil,Nat.le_refl _,inside,same⟩

theorem Vouched.expires {events : List AuthEvent} {kind : Cached} {raw_token : String} {expires_at : Nat} {principal : Option Principal}
    (vouched : Vouched limits start events kind raw_token expires_at principal) :
    expires_at ≤ (auth_run limits start events).now + limits.ttl := by
  obtain ⟨before,since,-,-,earlier,inside,-⟩ := vouched
  omega

theorem resolution_eq (s : AuthState) (kind : Cached) (raw_token : String) : resolution limits s kind raw_token =
    resolve limits s.cache s.now (kind.key raw_token) (kind.look_up s.d s.now raw_token) := by
  cases kind <;> rfl

/-- A resolution leaves under its key what it gives, from before or new. -/
theorem get?_resolve_same {cache : Cache} {now : Nat} {key : String} {resolved : Option Principal} {entry : Nat × Option Principal}
    (held : (resolve limits cache now key resolved).2.get? key = some entry) :
    cache.get? key = some entry ∨ entry = (now + limits.ttl,resolved) := by
  unfold resolve _cache_get at held
  cases found : cache.get? key with
  | none =>
    rw [found] at held
    unfold _cache_put at held
    dsimp only at held
    rw [Dict.get?_set_same] at held
    exact .inr (Option.some.inj held).symm
  | some old =>
    rw [found] at held
    by_cases expired : now ≥ old.1
    · simp only [expired,if_true] at held
      unfold _cache_put at held
      dsimp only at held
      rw [Dict.get?_set_same] at held
      exact .inr (Option.some.inj held).symm
    · simp only [expired,if_false] at held
      exact .inl (found.symm.trans held)

theorem Sound.step {events : List AuthEvent} (sound : Sound limits start events) {e : AuthEvent}
    (fits : Fits limits (auth_run limits start events) e) : Sound limits start (events ++ [e]) := by
  cases e with
  | resolve kind raw_token =>
    refine ⟨?_,?_⟩
    · rw [run_concat,Bounded,auth_step,resolution_eq]
      exact length_resolve limits _ _ _ fits sound.bounded
    · intro kind' raw_token' expires_at principal held alive
      rw [run_concat] at held alive
      rw [auth_step,resolution_eq] at held
      have known : Vouched limits start events kind' raw_token' expires_at principal := by
        by_cases same : kind'.key raw_token' = kind.key raw_token
        · rw [same] at held
          rcases get?_resolve_same held with old | new
          · exact sound.vouched kind' raw_token' _ _ (same ▸ old) alive
          · obtain ⟨rfl,hash⟩ := key_inj same
            obtain ⟨rfl,rfl⟩ := Prod.mk.inj new
            exact vouched_now (Nat.le_refl _) (look_up_congr hash.symm _ _)
        · exact sound.vouched _ _ _ _ (get?_resolve limits _ _ _ _ _ same _ held) alive
      exact known.later fun raw other => by contradiction
  | change d =>
    refine ⟨?_,?_⟩
    · rw [run_concat]
      exact sound.bounded
    · intro kind' raw_token' expires_at principal held alive
      rw [run_concat] at held alive
      exact (sound.vouched _ _ _ _ held alive).later fun raw other => by contradiction
  | elapse ticks =>
    refine ⟨?_,?_⟩
    · rw [run_concat]
      exact sound.bounded
    · intro kind' raw_token' expires_at principal held alive
      rw [run_concat] at held alive
      have before : (auth_run limits start events).now < expires_at := (now_le_step _ (.elapse ticks)).trans_lt alive
      exact (sound.vouched _ _ _ _ held before).later fun raw other => by contradiction
  | invalidate raw_token =>
    refine ⟨?_,?_⟩
    · rw [run_concat]
      exact (length_erase _ _).trans sound.bounded
    · intro kind' raw_token' expires_at principal held alive
      rw [run_concat] at held alive
      rw [auth_step,invalidate_cached_token,Dict.get?_erase] at held
      split at held
      · contradiction
      · rename_i apart
        have known := sound.vouched _ _ _ _ held alive
        by_cases hash : hash_token raw_token = hash_token raw_token'
        · cases kind' with
          | db_token => exact absurd hash.symm apart
          | session =>
            -- The entry stays; the rows still say the same.
            have expires := known.expires
            rw [Cached.key,← hash] at held
            have same := fits expires_at principal held alive
            refine vouched_now ?_ ?_
            · rw [run_concat]
              exact expires
            · rw [run_concat,same,Cached.look_up,← hash]
              rfl
        · exact known.later fun raw other => by
            cases other
            exact hash

theorem Sound.transparent {events : List AuthEvent} (sound : Sound limits start events) (kind : Cached) (raw_token : String) :
    Transparent limits start events kind raw_token := by
  rcases resolve_cases limits (auth_run limits start events).cache (auth_run limits start events).now (kind.key raw_token)
      (kind.look_up (auth_run limits start events).d (auth_run limits start events).now raw_token) with fresh | held
  · refine ⟨events,[],(List.append_nil _).symm,List.not_mem_nil,Nat.le_refl _,.inl rfl,?_⟩
    rw [resolution_eq,fresh]
  · obtain ⟨expires_at,principal,held,alive,answer⟩ := held
    obtain ⟨before,since,split,untouched,earlier,inside,same⟩ := sound.vouched kind raw_token _ _ held alive
    refine ⟨before,since,split,untouched raw_token rfl,earlier,.inr (alive.trans_le inside),?_⟩
    rw [resolution_eq,answer,same]

theorem sound_run (first : Sound limits start []) (events : List AuthEvent)
    (every : Runs.Every (auth_step limits) (Fits limits) start events) : Sound limits start events := by
  induction events using List.reverseRecOn with
  | nil => exact first
  | append_singleton earlier e ih =>
    have sound := ih fun before m after split =>
      every before m (after ++ [e]) (by rw [split,List.append_assoc,List.cons_append])
    exact sound.step (every earlier e [] rfl)

variable (limits) in
theorem resolved_entry (cache : Cache) (now : Nat) (key : String) (resolved : Option Principal) :
    (resolve limits cache now key resolved).2.contains key = true := by
  unfold resolve _cache_get
  cases found : cache.get? key with
  | none => exact (Dict.contains_iff _ _).mpr ⟨_,Dict.get?_set_same _ _ _⟩
  | some old =>
    by_cases expired : now ≥ old.1
    · simp only [expired,if_true]
      exact (Dict.contains_iff _ _).mpr ⟨_,Dict.get?_set_same _ _ _⟩
    · simp only [expired,if_false]
      exact (Dict.contains_iff _ _).mpr ⟨old,found⟩

/-- A session entry that outlives its invalidation is answered, whatever the rows say. -/
theorem invalidated_answered (events : List AuthEvent) {raw_token : String} {expires_at : Nat} {principal : Option Principal}
    (held : (auth_run limits start events).cache.get? (session_key (hash_token raw_token)) = some (expires_at,principal))
    (alive : (auth_run limits start events).now < expires_at)
    (transparent : Transparent limits start (events ++ [.invalidate raw_token]) .session raw_token) :
    principal = look_up_session (auth_run limits start events).d (auth_run limits start events).now (hash_token raw_token) := by
  obtain ⟨before,since,split,untouched,-,-,answer⟩ := transparent
  have none_since : since = [] := by
    rcases List.eq_nil_or_concat since with empty | ⟨earlier,last,rfl⟩
    · exact empty
    · rw [List.concat_eq_append] at split untouched
      rw [← List.append_assoc] at split
      have same := (List.append_inj' split rfl).2
      exact absurd (List.mem_append_right _ (List.mem_singleton.mpr (List.cons.inj same).1)) untouched
  rw [none_since,List.append_nil] at split
  have kept : ((auth_run limits start events).cache.erase (hash_token raw_token)).get? (session_key (hash_token raw_token)) =
      some (expires_at,principal) := by
    rw [Dict.get?_erase,if_neg (session_key_apart _ _),held]
  rw [← split,resolution_eq,run_concat] at answer
  have cached : (resolve limits ((auth_run limits start events).cache.erase (hash_token raw_token)) (auth_run limits start events).now
      (session_key (hash_token raw_token)) (look_up_session (auth_run limits start events).d (auth_run limits start events).now
        (hash_token raw_token))).1 = principal := by
    unfold resolve _cache_get
    rw [kept]
    simp only [ge_iff_le,Nat.not_le.mpr alive,if_false]
  exact cached.symm.trans answer

theorem fits_of_good {events : List AuthEvent} {e : AuthEvent} (bounded : Bounded limits (auth_run limits start (events ++ [e])))
    (transparent : ∀ kind raw_token, Transparent limits start (events ++ [e]) kind raw_token) :
    Fits limits (auth_run limits start events) e := by
  cases e with
  | resolve kind raw_token =>
    rw [run_concat,Bounded,auth_step,resolution_eq] at bounded
    obtain ⟨entry,held⟩ := (Dict.contains_iff _ _).mp (resolved_entry limits (auth_run limits start events).cache
      (auth_run limits start events).now (kind.key raw_token)
      (kind.look_up (auth_run limits start events).d (auth_run limits start events).now raw_token))
    have some_entry := List.length_pos_of_mem ((Dict.mem_entries _ _ _).mpr held)
    exact some_entry.trans_le bounded
  | change d => trivial
  | elapse ticks => trivial
  | invalidate raw_token =>
    intro expires_at principal held alive
    exact invalidated_answered events held alive (transparent .session raw_token)

theorem sound_empty (now : Nat) (d : Directory) : Sound limits ⟨now,d,∅⟩ [] := by
  refine ⟨Nat.zero_le _,?_⟩
  intro kind raw_token expires_at principal held
  contradiction

end Run

/-- Every resolution that could follow any part of a run is transparent, and the cache stays within its bound, exactly when
there is room for an entry and no invalidation leaves a live session entry that the rows do not confirm. -/
theorem auth_cache_transparent_iff (limits : CacheLimits) (now : Nat) (d : Directory) (events : List AuthEvent) :
    (∀ before after, events = before ++ after → Bounded limits (auth_run limits ⟨now,d,∅⟩ before) ∧
      ∀ kind raw_token, Transparent limits ⟨now,d,∅⟩ before kind raw_token) ↔
      Runs.Every (auth_step limits) (Fits limits) ⟨now,d,∅⟩ events := by
  constructor
  · intro good before e after split
    obtain ⟨bounded,transparent⟩ := good (before ++ [e]) after (by rw [split,List.append_assoc]; rfl)
    exact fits_of_good bounded transparent
  · intro every before after split
    have sound := sound_run (sound_empty now d) before fun earlier e later parts =>
      every earlier e (later ++ after) (by rw [split,parts,List.append_assoc,List.cons_append])
    exact ⟨sound.bounded,sound.transparent⟩

/-- One user, signed in with one session. -/
private def signed_in (token_hash : String) (revoked_at : Option Nat) : Directory :=
  {users := Dict.ofList [("1",{tenant_id := "default",username := "ada",email := none,status := .active})]
   identities := [],groups := ∅,group_members := [],roles := ∅,role_bindings := ∅,api_tokens := ∅
   sessions := Dict.ofList [("1",{user_id := "1",tenant_id := "default",token_hash,expires_at := 100,revoked_at})]}

private theorem look_up_signed_in (token_hash : String) (revoked_at : Option Nat) :
    (look_up_session (signed_in token_hash revoked_at) 0 token_hash).isSome = revoked_at.isNone := by
  have row : session_row (signed_in token_hash revoked_at) token_hash =
      some ("1",{user_id := "1",tenant_id := "default",token_hash,expires_at := 100,revoked_at}) := by
    simp [session_row,signed_in,Dict.ofList,Dict.set,Dict.assign]
  rw [look_up_session,row]
  cases revoked_at <;> rfl

/-- Logging out revokes the session and invalidates its token, yet the token is still answered from the cache. -/
theorem revoked_session_answered (raw_token : String) : ¬ Transparent {ttl := 30,max_entries := 1024}
    ⟨0,signed_in (hash_token raw_token) none,∅⟩ [.resolve .session raw_token,.change (signed_in (hash_token raw_token) (some 0)),
      .invalidate raw_token] .session raw_token := by
  intro transparent
  have held : (auth_run {ttl := 30,max_entries := 1024} ⟨0,signed_in (hash_token raw_token) none,∅⟩
      [.resolve .session raw_token,.change (signed_in (hash_token raw_token) (some 0))]).cache.get? (session_key (hash_token raw_token)) =
        some (0 + 30,look_up_session (signed_in (hash_token raw_token) none) 0 (hash_token raw_token)) := Dict.get?_set_same _ _ _
  have alive : 0 < 0 + 30 := by omega
  have same := congrArg Option.isSome (invalidated_answered _ held alive transparent)
  rw [look_up_signed_in] at same
  exact absurd (same.trans (look_up_signed_in (hash_token raw_token) (some 0))) Bool.noConfusion

theorem revoked_session_answered_at : ¬ Transparent {ttl := 30,max_entries := 1024} ⟨0,signed_in (hash_token "t") none,∅⟩
    [.resolve .session "t",.change (signed_in (hash_token "t") (some 0)),.invalidate "t"] .session "t" :=
  revoked_session_answered "t"

end AetherVault.Identity.AuthCache
