import AetherVault.Lib.Dict
import AetherVault.Lib.FixedWindow
import Mathlib.Data.Rat.Floor

/-! The fixed-window rate limiter of `rate_limit.py`: `check` with the sweep of expired
buckets that it piggybacks, and the limiter that never sweeps its table. -/
namespace AetherVault.RateLimit
open Lib

structure Limit where
  max_requests : Nat
  window_seconds : Nat
  deriving DecidableEq

/-- A class that is missing or `None` is not limited. -/
abbrev Limits := Dict String (Option Limit)

def Limits.limit (limits : Limits) (bucket_class : String) : Option Limit := (limits.get? bucket_class).join

/-- A client key and a bucket class that is limited: nothing else is ever recorded. -/
abbrev Key (limits : Limits) := {key : String × String // (limits.limit key.2).isSome = true}

def Key.limit {limits : Limits} (key : Key limits) : Limit := (limits.limit key.val.2).get key.property

structure WindowRateLimiter (T : Type) (limits : Limits) where
  buckets : Dict (Key limits) (Nat × T)
  last_prune : T

structure Call (T : Type) where
  client_key : String
  bucket_class : String
  now : T

def Call.key {T : Type} (call : Call T) : String × String := (call.client_key,call.bucket_class)

variable {T : Type} [LinearOrder T] {limits : Limits} (clock : Clock T)

namespace WindowRateLimiter

def init (limits : Limits) (now : T) : WindowRateLimiter T limits := ⟨∅,now⟩

def _PRUNE_INTERVAL_SECONDS : Rat := 300

def expired (key : Key limits) (now window_start : T) : Bool :=
  decide (clock.since now window_start ≥ key.limit.window_seconds)

def _maybe_prune (limiter : WindowRateLimiter T limits) (now : T) : WindowRateLimiter T limits :=
  if clock.since now limiter.last_prune < _PRUNE_INTERVAL_SECONDS then limiter
  else ⟨limiter.buckets.filter (fun key bucket => !expired clock key now bucket.2),now⟩

/-- The window that a call falls in, and how many came before it. -/
def window (buckets : Dict (Key limits) (Nat × T)) (key : Key limits) (now : T) : Nat × T :=
  let bucket := (buckets.get? key).getD (0,now)
  if expired clock key now bucket.2 then (0,now) else bucket

/-- Seconds until the window is over, when the call is one too many. -/
def retry_after (key : Key limits) (now : T) (count : Nat) (window_start : T) : Option Int :=
  if count > key.limit.max_requests then
    some (max 1 ⌈key.limit.window_seconds - clock.since now window_start⌉)
  else none

def record (limiter : WindowRateLimiter T limits) (key : Key limits) (now : T) : Option Int × WindowRateLimiter T limits :=
  let bucket := window clock limiter.buckets key now
  (retry_after clock key now (bucket.1 + 1) bucket.2,
    {limiter with buckets := limiter.buckets.set key (bucket.1 + 1,bucket.2)})

def check (limiter : WindowRateLimiter T limits) (call : Call T) : Option Int × WindowRateLimiter T limits :=
  if limited : (limits.limit call.bucket_class).isSome = true then
    (limiter._maybe_prune clock call.now).record clock ⟨call.key,limited⟩ call.now
  else (none,limiter)

/-- `check` of a limiter that never drops a bucket. -/
def check_unpruned (limiter : WindowRateLimiter T limits) (call : Call T) : Option Int × WindowRateLimiter T limits :=
  if limited : (limits.limit call.bucket_class).isSome = true then limiter.record clock ⟨call.key,limited⟩ call.now
  else (none,limiter)

end WindowRateLimiter

open WindowRateLimiter

/-- The calls with the answer each one gets. -/
def history (turn : WindowRateLimiter T limits → Call T → Option Int × WindowRateLimiter T limits) :
    WindowRateLimiter T limits → List (Call T) → List (Call T × Option Int)
  | _,[] => []
  | limiter,call::rest => (call,(turn limiter call).1)::history turn (turn limiter call).2 rest

/-! Sweeping is not observable. -/

/-- The swept table lacks only windows that are over. -/
def Swept (now : T) (swept whole : Dict (Key limits) (Nat × T)) : Prop :=
  ∀ key, swept.get? key = whole.get? key ∨
    swept.get? key = none ∧ (whole.get? key).any (fun bucket => expired clock key now bucket.2) = true

variable {clock} {swept whole : WindowRateLimiter T limits} {now later : T}

theorem expired_later {key : Key limits} {start : T} (le : now ≤ later) (past : expired clock key now start = true) :
    expired clock key later start = true := by
  simp only [expired,decide_eq_true_eq] at past ⊢
  exact past.trans (clock.grows start le)

theorem Swept.persists (agrees : Swept clock now swept.buckets whole.buckets) (le : now ≤ later) :
    Swept clock later swept.buckets whole.buckets := by
  intro key
  cases agrees key with
  | inl same => exact Or.inl same
  | inr gone =>
    obtain ⟨bucket,held,past⟩ := Option.any_eq_true _ _ |>.mp gone.2
    exact Or.inr ⟨gone.1,by simp [held,expired_later le past]⟩

theorem Swept.prune (agrees : Swept clock now swept.buckets whole.buckets) :
    Swept clock now (swept._maybe_prune clock now).buckets whole.buckets := by
  unfold _maybe_prune
  split
  · exact agrees
  · intro key
    simp only [Dict.get?_filter]
    cases agrees key with
    | inr gone => exact Or.inr ⟨by simp [gone.1],gone.2⟩
    | inl same =>
      rw [same]
      cases held : whole.buckets.get? key with
      | none => exact Or.inl rfl
      | some bucket =>
        cases past : expired clock key now bucket.2 with
        | false => exact Or.inl (by simp [past])
        | true => exact Or.inr (by simp [past])

theorem Swept.window (agrees : Swept clock now swept.buckets whole.buckets) (key : Key limits) :
    window clock swept.buckets key now = window clock whole.buckets key now := by
  cases agrees key with
  | inl same => simp only [WindowRateLimiter.window,same]
  | inr gone =>
    obtain ⟨bucket,held,past⟩ := Option.any_eq_true _ _ |>.mp gone.2
    simp [WindowRateLimiter.window,gone.1,held,past]

theorem Swept.record (agrees : Swept clock now swept.buckets whole.buckets) (key : Key limits) :
    (swept.record clock key now).1 = (whole.record clock key now).1 ∧
      Swept clock now (swept.record clock key now).2.buckets (whole.record clock key now).2.buckets := by
  simp only [WindowRateLimiter.record,agrees.window key,true_and]
  intro other
  simp only [Dict.get?_set]
  split
  · exact Or.inl rfl
  · exact agrees other

theorem check_swept (agrees : Swept clock now swept.buckets whole.buckets) (call : Call T) (le : now ≤ call.now) :
    (swept.check clock call).1 = (whole.check_unpruned clock call).1 ∧
      Swept clock call.now (swept.check clock call).2.buckets (whole.check_unpruned clock call).2.buckets := by
  have agrees := agrees.persists le
  unfold check check_unpruned
  split
  · exact agrees.prune.record _
  · exact ⟨rfl,agrees⟩

theorem history_swept {calls : List (Call T)} (agrees : Swept clock now swept.buckets whole.buckets)
    (ordered : calls.Pairwise (fun a b => a.now ≤ b.now)) (after : ∀ call ∈ calls, now ≤ call.now) :
    history (check clock) swept calls = history (check_unpruned clock) whole calls := by
  induction calls generalizing swept whole now with
  | nil => rfl
  | cons call rest ih =>
    obtain ⟨first,ordered⟩ := List.pairwise_cons.mp ordered
    obtain ⟨answer,next⟩ := check_swept agrees call (after call List.mem_cons_self)
    simp only [history,answer,ih next ordered first]

/-! No window lets more calls through than its limit. -/

/-- When the key is called. -/
def times (key : Key limits) (calls : List (Call T)) : List T :=
  (calls.filter (fun call => decide (call.key = key.val))).map (·.now)

variable (clock) in
def let_through (key : Key limits) (start : T) (entry : Call T × Option Int) : Bool :=
  decide (entry.1.key = key.val ∧ clock.Within key.limit.window_seconds start entry.1.now ∧ entry.2 = none)

omit [LinearOrder T] in
theorem history_calls {turn : WindowRateLimiter T limits → Call T → Option Int × WindowRateLimiter T limits}
    {limiter : WindowRateLimiter T limits} {calls : List (Call T)} {entry : Call T × Option Int}
    (member : entry ∈ history turn limiter calls) : entry.1 ∈ calls := by
  induction calls generalizing limiter with
  | nil => exact absurd member List.not_mem_nil
  | cons call rest ih =>
    rcases List.mem_cons.mp member with same | later
    · exact same ▸ List.mem_cons_self
    · exact List.mem_cons_of_mem _ (ih later)

theorem check_elsewhere {key : Key limits} {call : Call T} (apart : call.key ≠ key.val) :
    (whole.check_unpruned clock call).2.buckets.get? key = whole.buckets.get? key := by
  unfold check_unpruned
  split
  · exact Dict.get?_set_other _ _ _ _ fun same => apart (congrArg Subtype.val same).symm
  · rfl

theorem check_here {key : Key limits} {call : Call T} (here : call.key = key.val) :
    whole.check_unpruned clock call = whole.record clock key call.now := by
  have limited : (limits.limit call.bucket_class).isSome = true := by
    have bound := key.property
    rwa [← here] at bound
  have same : (⟨call.key,limited⟩ : Key limits) = key := Subtype.ext here
  rw [check_unpruned,dif_pos limited,same]

theorem retry_after_none {key : Key limits} {count : Nat} {start : T} :
    retry_after clock key now count start = none ↔ count ≤ key.limit.max_requests := by
  unfold retry_after
  split
  · rename_i many
    simp [Nat.not_le.mpr many]
  · rename_i few
    simpa using few

/-- Calls of a window that is over are none of its own. -/
theorem none_through (turn : WindowRateLimiter T limits → Call T → Option Int × WindowRateLimiter T limits)
    (whole : WindowRateLimiter T limits) {key : Key limits} {start : T} {calls : List (Call T)}
    (past : ∀ call ∈ calls, key.limit.window_seconds ≤ clock.since call.now start) :
    (history turn whole calls).countP (let_through clock key start) = 0 := by
  rw [List.countP_eq_zero]
  intro entry member through
  simp only [let_through,decide_eq_true_eq] at through
  exact absurd through.2.1.2 (not_lt.mpr (past _ (history_calls member)))

variable (clock) in
/-- What the open window still lets through. -/
theorem open_window (whole : WindowRateLimiter T limits) {key : Key limits} (count : Nat) {start : T} {calls : List (Call T)}
    (ordered : calls.Pairwise (fun a b => a.now ≤ b.now)) (held : whole.buckets.get? key = some (count,start)) :
    (history (check_unpruned clock) whole calls).countP (let_through clock key start) ≤ key.limit.max_requests - count := by
  induction calls generalizing whole count with
  | nil => simp [history]
  | cons call rest ih =>
    obtain ⟨first,later⟩ := List.pairwise_cons.mp ordered
    rw [history,List.countP_cons]
    by_cases here : call.key = key.val
    · by_cases past : expired clock key call.now start = true
      · have gone : ∀ next ∈ call::rest, key.limit.window_seconds ≤ clock.since next.now start := by
          intro next member
          simp only [expired,decide_eq_true_eq] at past
          rcases List.mem_cons.mp member with same | member
          · exact same ▸ past
          · exact past.trans (clock.grows start (first next member))
        have zero := none_through (check_unpruned clock) whole gone
        rw [history,List.countP_cons] at zero
        omega
      · have current : window clock whole.buckets key call.now = (count,start) := by
          simp [window,held,past]
        rw [check_here here]
        have next := ih (whole.record clock key call.now).2 (count + 1) later (by simp [record,current])
        split
        · rename_i through
          simp only [let_through,record,current,decide_eq_true_eq,retry_after_none] at through
          omega
        · omega
    · have next := ih (whole.check_unpruned clock call).2 count later ((check_elsewhere here).trans held)
      have other : let_through clock key start (call,(whole.check_unpruned clock call).1) = false := by
        simp [let_through,here]
      rwa [other]

/-- A call in the open window counts on from it. -/
theorem window_continues {key : Key limits} {bucket : Nat × T} (held : whole.buckets.get? key = some bucket)
    (inside : clock.since now bucket.2 < key.limit.window_seconds) : window clock whole.buckets key now = bucket := by
  simp [window,held,expired,not_le.mpr inside]

theorem window_opens {key : Key limits} (outside : ((whole.buckets.get? key).map (·.2)).any
      (fun opened => decide (clock.since now opened < key.limit.window_seconds)) = false) :
    window clock whole.buckets key now = (0,now) := by
  cases held : whole.buckets.get? key with
  | none => simp [window,held]
  | some bucket =>
    have past : clock.since now bucket.2 ≥ key.limit.window_seconds := by simpa [held] using outside
    simp [window,held,expired,past]

/-- A window that opens later does not take this call. -/
theorem not_through {key : Key limits} {call : Call T} {opened start : T} {answer : Option Int} {later : List T}
    (ordered : later.Pairwise (· ≤ ·)) (after : ∀ time ∈ later, call.now ≤ time)
    (opens : start ∈ clock.starts key.limit.window_seconds (some opened) later)
    (current : clock.since call.now opened < key.limit.window_seconds ∨ opened = call.now) :
    let_through clock key start (call,answer) = false := by
  have past := Clock.starts_past ordered opens
  simp only [let_through,decide_eq_false_iff_not]
  intro through
  have same : start = call.now := le_antisymm through.2.1.1 (after _ (Clock.mem_of_mem_starts opens))
  rw [same] at past through
  cases current with
  | inl inside => exact absurd inside (not_lt.mpr past)
  | inr opened_now => exact absurd through.2.1.2 (not_lt.mpr (opened_now ▸ past))

theorem windows_capped (whole : WindowRateLimiter T limits) {key : Key limits} {start : T} {calls : List (Call T)}
    (ordered : calls.Pairwise (fun a b => a.now ≤ b.now))
    (member : start ∈ clock.starts key.limit.window_seconds ((whole.buckets.get? key).map (·.2)) (times key calls)) :
    (history (check_unpruned clock) whole calls).countP (let_through clock key start) ≤ key.limit.max_requests := by
  induction calls generalizing whole with
  | nil => simp [history]
  | cons call rest ih =>
    obtain ⟨first,later⟩ := List.pairwise_cons.mp ordered
    rw [history,List.countP_cons]
    by_cases here : call.key = key.val
    · have called : times key (call::rest) = call.now::times key rest := by simp [times,here]
      have ordered_times : (times key rest).Pairwise (· ≤ ·) := (later.filter _).map _ fun _ _ le => le
      have after : ∀ time ∈ times key rest, call.now ≤ time := by
        intro time listed
        obtain ⟨next,asked,rfl⟩ := List.mem_map.mp listed
        exact first next (List.mem_filter.mp asked).1
      rw [check_here here]
      rw [called,Clock.starts] at member
      split at member
      · rename_i inside
        obtain ⟨opened,kept,inside⟩ := Option.any_eq_true _ _ |>.mp inside
        obtain ⟨bucket,held,rfl⟩ := Option.map_eq_some_iff.mp kept
        have inside := of_decide_eq_true inside
        have current := window_continues held inside
        rw [kept] at member
        rw [not_through ordered_times after member (Or.inl inside)]
        exact ih (whole.record clock key call.now).2 later (by simpa [record,current] using member)
      · rename_i outside
        have current := window_opens (Bool.eq_false_of_not_eq_true outside)
        rcases List.mem_cons.mp member with opens | member
        · have held : (whole.record clock key call.now).2.buckets.get? key = some (1,start) := by
            simp [record,current,opens]
          have remaining := open_window clock _ 1 later held
          split
          · rename_i through
            simp only [let_through,record,current,decide_eq_true_eq,retry_after_none] at through
            omega
          · omega
        · rw [not_through ordered_times after member (Or.inr rfl)]
          exact ih (whole.record clock key call.now).2 later (by simpa [record,current] using member)
    · have other : let_through clock key start (call,(whole.check_unpruned clock call).1) = false := by
        simp [let_through,here]
      have next := ih (whole.check_unpruned clock call).2 later (by
        rw [check_elsewhere here]
        simpa [times,here] using member)
      rwa [other]

/-- Sweeping expired buckets changes no answer, and in each window of a key at most
`max_requests` calls are let through. -/
theorem check_exact (clock : Clock T) (limits : Limits) (created : T) {calls : List (Call T)}
    (ordered : calls.Pairwise (fun a b => a.now ≤ b.now)) :
    history (check clock) (init limits created) calls = history (check_unpruned clock) (init limits created) calls ∧
      ∀ key : Key limits, ∀ start ∈ clock.starts key.limit.window_seconds none (times key calls),
        (history (check clock) (init limits created) calls).countP (let_through clock key start) ≤
          key.limit.max_requests := by
  have same : history (check clock) (init limits created) calls =
      history (check_unpruned clock) (init limits created) calls := by
    cases calls with
    | nil => rfl
    | cons call rest =>
      have untouched : Swept clock call.now (init limits created).buckets (init limits created).buckets :=
        fun key => Or.inl rfl
      apply history_swept untouched ordered
      intro other member
      rcases List.mem_cons.mp member with first | later
      · exact le_of_eq (congrArg Call.now first).symm
      · exact (List.pairwise_cons.mp ordered).1 other later
  refine ⟨same,?_⟩
  intro key start member
  rw [same]
  exact windows_capped _ ordered member

/-- Seconds as natural numbers, which the clock reads exactly. -/
def seconds : Clock Nat where
  since now start := (now : Rat) - start
  grows _ _ _ le := sub_le_sub_right (Nat.cast_le.mpr le) _

def two_a_minute : Limits := Dict.ofList [("gc",some ⟨2,60⟩),("default",none)]

def burst : List (Call Nat) := [⟨"a","gc",0⟩,⟨"a","gc",10⟩,⟨"b","gc",20⟩,⟨"a","gc",30⟩,⟨"a","default",40⟩,⟨"b","gc",400⟩,⟨"a","gc",400⟩]

theorem check_exact_burst :
    (burst.Pairwise (fun a b => a.now ≤ b.now)) ∧
      (history (check seconds) (init two_a_minute 0) burst).map (·.2) = [none,none,none,some 30,none,none,none] ∧
      ∀ key : Key two_a_minute, ∀ start ∈ seconds.starts key.limit.window_seconds none (times key burst),
        (history (check seconds) (init two_a_minute 0) burst).countP (let_through seconds key start) ≤
          key.limit.max_requests :=
  ⟨by decide,by decide +kernel,(check_exact seconds two_a_minute 0 (by decide)).2⟩

end AetherVault.RateLimit
