import AetherVault.EventFeed

/-! Webhook deliveries: a POST with its outcome written to the delivery's row, the worker that
tries the due rows again, and the replay of a row that has failed. Times are in seconds. -/
namespace AetherVault
open Lib

inductive DeliveryStatus
  | pending
  | delivered
  | failed
  | dead
  deriving DecidableEq

structure DBWebhook where
  id : String
  url : String
  project_id : Option String
  kinds : Option (List String)
  active : Bool
  last_success_at : Option Nat
  last_failure_at : Option Nat
  consecutive_failures : Nat
  disabled_reason : Option String

structure DBWebhookDelivery where
  webhook_id : String
  event_id : Option Nat
  event_kind : String
  project_id : Option String
  payload : Option Doc
  attempt : Nat
  status : DeliveryStatus
  response_code : Option Nat
  last_error : Option String
  next_retry_at : Option Nat

structure WebhookConfig where
  WEBHOOK_MAX_ATTEMPTS : Int
  WEBHOOK_RETRY_INTERVAL_SECS : Nat
  WEBHOOK_RETRY_MAX_SECS : Nat
  WEBHOOK_DISABLE_AFTER : Int

/-- What comes of one POST: a status code, or the text of an exception. -/
inductive PostOutcome
  | response (status_code : Nat)
  | error (text : String)

namespace PostOutcome

def status_code : PostOutcome → Option Nat
  | response status_code => some status_code
  | error _ => none

def ok (outcome : PostOutcome) : Bool := outcome.status_code.any fun code => decide (200 ≤ code ∧ code < 300)

def last_error : PostOutcome → String
  | response status_code => "http_" ++ toString status_code
  | error text => text

end PostOutcome

variable (config : WebhookConfig)

def disabled_after (hook : DBWebhook) (last_error : String) : DBWebhook :=
  if 0 < config.WEBHOOK_DISABLE_AFTER ∧ hook.active ∧ config.WEBHOOK_DISABLE_AFTER ≤ hook.consecutive_failures then {hook with
    active := false
    disabled_reason := some ("auto-disabled after " ++ toString hook.consecutive_failures ++ " consecutive failed deliveries (last: " ++
      last_error ++ ")")}
  else hook

/-- `_deliver_one`, once the POST is answered -/
def deliver_one (now : Nat) (outcome : PostOutcome) (hook : DBWebhook) (delivery : DBWebhookDelivery) : DBWebhook × DBWebhookDelivery :=
  if outcome.ok then
    ({hook with last_success_at := some now,consecutive_failures := 0},
      {delivery with status := .delivered,response_code := outcome.status_code,last_error := none,next_retry_at := none})
  else
    let hook := disabled_after config {hook with last_failure_at := some now,consecutive_failures := hook.consecutive_failures + 1}
      outcome.last_error
    let attempt := delivery.attempt + 1
    let failed := {delivery with attempt := attempt,response_code := outcome.status_code,last_error := some outcome.last_error}
    if config.WEBHOOK_MAX_ATTEMPTS ≤ attempt then (hook,{failed with status := .dead})
    else
      let backoff := min (config.WEBHOOK_RETRY_INTERVAL_SECS * 2^(attempt - 1)) config.WEBHOOK_RETRY_MAX_SECS
      (hook,{failed with status := .failed,next_retry_at := some (now + backoff)})

def subscribed (hook : DBWebhook) (event : DBEvent) : Bool :=
  hook.project_id.all (fun project => event.project_id == some project) && hook.kinds.all fun kinds => event.kind ∈ kinds

/-- The row that `_deliver_webhooks` makes for a hook before it POSTs. -/
def new_delivery (hook : DBWebhook) (event : DBEvent) : DBWebhookDelivery :=
  ⟨hook.id,some event.id,event.kind,event.project_id,event.payload,1,.pending,none,none,none⟩

/-- The rows that `process_due_webhook_deliveries` selects. -/
def due (now : Nat) (delivery : DBWebhookDelivery) : Bool :=
  (delivery.status == .pending || delivery.status == .failed) && delivery.next_retry_at.all fun at_time => decide (at_time ≤ now)

/-- What the worker does with one row that it selected, and whether it POSTs. -/
def process_delivery (now : Nat) (hook : Option DBWebhook) (outcome : PostOutcome) (delivery : DBWebhookDelivery) :
    Bool × DBWebhookDelivery :=
  match hook with
  | none => (false,{delivery with status := .dead,last_error := some "webhook deleted"})
  | some hook =>
    if hook.active then (true,(deliver_one config now outcome hook delivery).2)
    else (false,{delivery with status := .dead,last_error := some "webhook deactivated"})

/-- `none` for the 409 of a row that is delivered or pending. -/
def replay_webhook_delivery (now : Nat) (delivery : DBWebhookDelivery) : Option DBWebhookDelivery :=
  if delivery.status = .delivered ∨ delivery.status = .pending then none
  else some {delivery with status := .pending,attempt := 0,last_error := none,next_retry_at := some now}

/-- One tick of the worker; the row is `taken` unless the batch is full or another replica has it. -/
structure Tick where
  now : Nat
  taken : Bool
  hook : Option DBWebhook
  outcome : PostOutcome

def Tick.Active (t : Tick) : Prop := ∃ hook, t.hook = some hook ∧ hook.active = true

/-- A delivery, with the outcomes of its POSTs since its start. -/
structure Attempts where
  delivery : DBWebhookDelivery
  posts : List Bool

namespace Attempts

/-- How a delivery starts: for the first time, or again. -/
inductive Start
  | deliver_webhooks (hook : DBWebhook) (event : DBEvent) (now : Nat) (outcome : PostOutcome)
  | replay (failed : DBWebhookDelivery) (now : Nat) (replayable : failed.status = .failed ∨ failed.status = .dead)

def start : Start → Attempts
  | .deliver_webhooks hook event now outcome => ⟨(deliver_one config now outcome hook (new_delivery hook event)).2,[outcome.ok]⟩
  | .replay failed now _ => ⟨(replay_webhook_delivery now failed).getD failed,[]⟩

def tick (a : Attempts) (t : Tick) : Attempts :=
  if t.taken && due t.now a.delivery then
    let done := process_delivery config t.now t.hook t.outcome a.delivery
    ⟨done.2,if done.1 then a.posts ++ [t.outcome.ok] else a.posts⟩
  else a

def run (begin_with : Start) (ticks : List Tick) : Attempts := ticks.foldl (tick config) (start config begin_with)

def failures (a : Attempts) : Nat := a.posts.count false

/-- Dead-lettered after exactly this many failed POSTs, and left alone after that and after a success. -/
structure Spends (budget : Int) (a : Attempts) : Prop where
  dead_iff : a.delivery.status = .dead ↔ a.failures = budget
  quiet : a.delivery.status = .delivered ∨ a.delivery.status = .dead → ∀ t, a.tick config t = a

def Start.replayed : Start → Bool
  | .deliver_webhooks _ _ _ _ => false
  | .replay _ _ _ => true

/-- A first delivery has its first attempt counted before it is made. -/
def counted (replayed : Bool) : Nat := if replayed then 0 else 1

/-- The failed POSTs that it takes. -/
def budget (replayed : Bool) : Int := max 1 (config.WEBHOOK_MAX_ATTEMPTS - counted replayed)

/-- The attempts follow the failed POSTs, until there are as many as it takes. -/
structure Counting (replayed : Bool) (a : Attempts) : Prop where
  live : a.delivery.status = .pending ∨ a.delivery.status = .failed →
    a.delivery.attempt = counted replayed + a.failures ∧ a.failures < budget config replayed
  delivered : a.delivery.status = .delivered → a.failures < budget config replayed
  dead : a.delivery.status = .dead → a.failures = budget config replayed

variable {config} {replayed : Bool} {a : Attempts}

theorem failures_success (a : Attempts) (delivery : DBWebhookDelivery) : failures ⟨delivery,a.posts ++ [true]⟩ = a.failures := by
  simp [failures]

theorem failures_failure (a : Attempts) (delivery : DBWebhookDelivery) : failures ⟨delivery,a.posts ++ [false]⟩ = a.failures + 1 := by
  simp [failures]

variable (config) in
theorem deliver_one_success {outcome : PostOutcome} (ok : outcome.ok = true) (now : Nat) (hook : DBWebhook) (delivery : DBWebhookDelivery) :
    (deliver_one config now outcome hook delivery).2.status = .delivered := by
  unfold deliver_one
  rw [if_pos ok]

variable (config) in
theorem deliver_one_failure {outcome : PostOutcome} (failed : outcome.ok = false) (now : Nat) (hook : DBWebhook)
    (delivery : DBWebhookDelivery) : (deliver_one config now outcome hook delivery).2.attempt = delivery.attempt + 1 ∧
    (deliver_one config now outcome hook delivery).2.status =
      if config.WEBHOOK_MAX_ATTEMPTS ≤ (delivery.attempt + 1 : Nat) then .dead else .failed := by
  unfold deliver_one
  rw [if_neg (by simp [failed])]
  dsimp only
  split <;> exact ⟨rfl,rfl⟩

theorem Counting.post (live : a.delivery.attempt = counted replayed + a.failures ∧ a.failures < budget config replayed) (now : Nat)
    (outcome : PostOutcome) (hook : DBWebhook) :
    Counting config replayed ⟨(deliver_one config now outcome hook a.delivery).2,a.posts ++ [outcome.ok]⟩ := by
  obtain ⟨attempt,below⟩ := live
  cases posted : outcome.ok with
  | true =>
    have status := deliver_one_success config posted now hook a.delivery
    constructor
    · intro alive
      rw [status] at alive
      simp at alive
    · intro _
      rw [failures_success]
      exact below
    · intro dead
      rw [status] at dead
      contradiction
  | false =>
    obtain ⟨next,status⟩ := deliver_one_failure config posted now hook a.delivery
    unfold budget at below
    split at status
    · constructor
      · intro alive
        rw [status] at alive
        simp at alive
      · intro delivered
        rw [status] at delivered
        contradiction
      · intro _
        rw [failures_failure]
        unfold budget
        omega
    · constructor
      · intro _
        rw [failures_failure]
        unfold budget
        constructor
        · rw [next]
          omega
        · omega
      · intro delivered
        rw [status] at delivered
        contradiction
      · intro dead
        rw [status] at dead
        contradiction

theorem tick_quiet (ended : a.delivery.status = .delivered ∨ a.delivery.status = .dead) (t : Tick) : a.tick config t = a := by
  have not_due : due t.now a.delivery = false := by
    unfold due
    cases ended with
    | inl delivered => simp [delivered]
    | inr dead => simp [dead]
  unfold tick
  rw [not_due,Bool.and_false,if_neg (by decide)]

theorem tick_due {t : Tick} (taken : t.taken = true) (ready : due t.now a.delivery = true) {hook : DBWebhook} (here : t.hook = some hook)
    (active : hook.active = true) :
    a.tick config t = ⟨(deliver_one config t.now t.outcome hook a.delivery).2,a.posts ++ [t.outcome.ok]⟩ := by
  unfold tick
  rw [taken,ready,here]
  simp [process_delivery,active]

theorem due_live {now : Nat} {delivery : DBWebhookDelivery} (ready : due now delivery = true) :
    delivery.status = .pending ∨ delivery.status = .failed := by
  unfold due at ready
  simp only [Bool.and_eq_true,Bool.or_eq_true,beq_iff_eq] at ready
  exact ready.1

theorem Counting.tick (counting : Counting config replayed a) {t : Tick} (active : t.Active) :
    Counting config replayed (a.tick config t) := by
  obtain ⟨hook,here,on⟩ := active
  cases taken : t.taken && due t.now a.delivery with
  | false =>
    unfold Attempts.tick
    rw [taken,if_neg (by decide)]
    exact counting
  | true =>
    obtain ⟨taken,ready⟩ := Bool.and_eq_true_iff.mp taken
    rw [tick_due taken ready here on]
    exact Counting.post (counting.live (due_live ready)) t.now t.outcome hook

theorem replay_eq {failed : DBWebhookDelivery} (replayable : failed.status = .failed ∨ failed.status = .dead) (now : Nat) :
    replay_webhook_delivery now failed =
      some {failed with status := .pending,attempt := 0,last_error := none,next_retry_at := some now} := by
  unfold replay_webhook_delivery
  cases replayable with
  | inl status => simp [status]
  | inr status => simp [status]

theorem start_replay (failed : DBWebhookDelivery) (now : Nat) (replayable : failed.status = .failed ∨ failed.status = .dead) :
    start config (.replay failed now replayable) =
      ⟨{failed with status := .pending,attempt := 0,last_error := none,next_retry_at := some now},[]⟩ := by
  simp only [start,replay_eq replayable,Option.getD_some]

theorem start_counting (begin_with : Start) : Counting config begin_with.replayed (start config begin_with) := by
  cases begin_with with
  | deliver_webhooks hook event now outcome =>
    exact Counting.post (a := ⟨new_delivery hook event,[]⟩) ⟨rfl,by simp [budget,failures]⟩ now outcome hook
  | replay failed now replayable =>
    rw [start_replay]
    constructor
    · intro _
      exact ⟨rfl,by simp [budget,failures]⟩
    · intro delivered
      contradiction
    · intro dead
      contradiction

theorem run_concat (begin_with : Start) (ticks : List Tick) (t : Tick) :
    run config begin_with (ticks ++ [t]) = (run config begin_with ticks).tick config t := List.foldl_append

theorem run_counting (begin_with : Start) {ticks : List Tick} (active : ∀ t ∈ ticks, t.Active) :
    Counting config begin_with.replayed (run config begin_with ticks) := by
  induction ticks using List.reverseRecOn with
  | nil => exact start_counting begin_with
  | append_singleton ticks t ih =>
    rw [run_concat]
    have earlier := ih fun t' among => active t' (List.mem_append_left _ among)
    exact earlier.tick (active t (by simp))

theorem Counting.spends (counting : Counting config replayed a) : Spends config (budget config replayed) a where
  dead_iff := by
    constructor
    · exact counting.dead
    · intro spent
      cases status : a.delivery.status with
      | dead => rfl
      | pending =>
        have below := (counting.live (.inl status)).2
        omega
      | failed =>
        have below := (counting.live (.inr status)).2
        omega
      | delivered =>
        have below := counting.delivered status
        omega
  quiet ended t := tick_quiet ended t

def some_hook : DBWebhook := ⟨"hook","http://hook",none,none,true,none,none,0,none⟩

theorem internal_error : (PostOutcome.response 500).ok = false := rfl

def failing (a : Attempts) : Tick := ⟨a.delivery.next_retry_at.getD 0,true,some some_hook,.response 500⟩

theorem failing_active (a : Attempts) : (failing a).Active := ⟨some_hook,rfl,rfl⟩

variable (config) in
theorem tick_failing (alive : a.delivery.status = .pending ∨ a.delivery.status = .failed) :
    (a.tick config (failing a)).failures = a.failures + 1 ∧
    ((a.tick config (failing a)).delivery.status = .dead ∨ (a.tick config (failing a)).delivery.status = .failed) := by
  have ready : due (failing a).now a.delivery = true := by
    unfold due failing
    cases at_time : a.delivery.next_retry_at <;> cases alive with
      | inl status => simp [status]
      | inr status => simp [status]
  rw [tick_due rfl ready rfl rfl]
  constructor
  · exact failures_failure a _
  · have status := (deliver_one_failure config internal_error (failing a).now some_hook a.delivery).2
    split at status
    · exact .inl status
    · exact .inr status

/-- From any delivery that is still tried, failures lead to the dead letter. -/
theorem reaches_dead (begin_with : Start) (n : Nat) : ∀ ticks, (∀ t ∈ ticks, t.Active) →
    (run config begin_with ticks).delivery.status = .pending ∨ (run config begin_with ticks).delivery.status = .failed →
    budget config begin_with.replayed ≤ (run config begin_with ticks).failures + n →
    ∃ more, (∀ t ∈ more, t.Active) ∧ (run config begin_with more).delivery.status = .dead := by
  induction n with
  | zero =>
    intro ticks active alive near
    have below := ((run_counting begin_with active).live alive).2
    omega
  | succ n ih =>
    intro ticks active alive near
    obtain ⟨one_more,ended⟩ := tick_failing config alive
    rw [← run_concat] at one_more ended
    have longer : ∀ t ∈ ticks ++ [failing (run config begin_with ticks)], t.Active := by
      intro t among
      cases List.mem_append.mp among with
      | inl before => exact active t before
      | inr last =>
        rw [List.mem_singleton.mp last]
        exact failing_active _
    cases ended with
    | inl dead => exact ⟨_,longer,dead⟩
    | inr failed =>
      apply ih _ longer (.inr failed)
      rw [one_more]
      omega

variable (config) in
theorem replayable_start (replayed : Bool) : ∃ begin_with : Start, begin_with.replayed = replayed ∧
    ((start config begin_with).delivery.status = .dead ∨ (start config begin_with).delivery.status = .pending ∨
      (start config begin_with).delivery.status = .failed) := by
  cases replayed with
  | true =>
    apply Exists.intro (.replay {new_delivery some_hook ⟨1,EventFeed.midnight,none,"commit",none⟩ with status := .dead} 0 (.inr rfl))
    constructor
    · rfl
    · rw [start_replay]
      exact .inr (.inl rfl)
  | false =>
    apply Exists.intro (.deliver_webhooks some_hook ⟨1,EventFeed.midnight,none,"commit",none⟩ 0 (.response 500))
    constructor
    · rfl
    · have status := (deliver_one_failure config internal_error 0 some_hook
        (new_delivery some_hook ⟨1,EventFeed.midnight,none,"commit",none⟩)).2
      split at status
      · exact .inl status
      · exact .inr (.inr status)

section Short

def defaults : WebhookConfig := ⟨5,30,3600,0⟩

def server_error (now : Nat) : Tick := ⟨now,true,some some_hook,.response 500⟩

end Short

end Attempts

end AetherVault
