import AetherVault.Webhooks

/-! From an event to its deliveries: the event is committed with the request's transaction, and a
background task of the process, in a session of its own, makes the rows, POSTs and commits. -/
namespace AetherVault
open Lib

/-- `_deliver_later` for one event: with the webhooks that it still has to POST to and the rows of
its session, once it has read the webhooks. -/
structure DeliveryTask where
  event : DBEvent
  hooks : Option (List DBWebhook)
  rows : List DBWebhookDelivery

/-- The tables, what is only in the process, and who is to hear of what: the webhooks that an event
was for when it was emitted and that have been active since. -/
structure Fanout where
  last_id : Nat
  hooks : List DBWebhook
  flushed : List (Nat × DBEvent)
  events : List DBEvent
  tasks : List DeliveryTask
  deliveries : List DBWebhookDelivery
  audience : List (DBEvent × String)
  finished : List Nat

instance : EmptyCollection Fanout := ⟨⟨0,[],[],[],[],[],[],[]⟩⟩

inductive FanoutStep
  /-- webhooks are made, enabled, disabled or deleted -/
  | change_hooks (hooks : List DBWebhook)
  | emit_event (t : Nat) (now : Datetime) (project_id : Option String) (kind : String) (payload : Option Doc)
  | commit (t : Nat)
  | rollback (t : Nat)
  /-- the task of an event reads the webhooks, delivers to the next one, commits, or fails -/
  | select (event_id : Nat)
  | deliver (event_id : Nat) (now : Nat) (outcome : PostOutcome)
  | finish (event_id : Nat)
  | fail (event_id : Nat)
  /-- the worker with a row that is due -/
  | retry (row : Nat) (now : Nat) (hook : Option DBWebhook) (outcome : PostOutcome)
  | crash

namespace Fanout

def matching (hooks : List DBWebhook) (event : DBEvent) : List DBWebhook := hooks.filter fun hook => hook.active && subscribed hook event

def emit_event (f : Fanout) (t : Nat) (event : DBEvent) : Fanout := {f with
  last_id := f.last_id + 1
  flushed := f.flushed ++ [(t,event)]
  tasks := if f.hooks.any DBWebhook.active then f.tasks ++ [⟨event,none,[]⟩] else f.tasks
  audience := f.audience ++ (matching f.hooks event).map fun hook => (event,hook.id)}

def on_task (f : Fanout) (event_id : Nat) (work : DeliveryTask → DeliveryTask) : Fanout :=
  {f with tasks := f.tasks.map fun task => if task.event.id = event_id then work task else task}

def select_hooks (hooks : List DBWebhook) (task : DeliveryTask) : DeliveryTask :=
  {task with hooks := task.hooks.or (some (matching hooks task.event))}

variable (config : WebhookConfig)

/-- The row is made, the POST goes out, and the row has its outcome. -/
def deliver_next (now : Nat) (outcome : PostOutcome) (task : DeliveryTask) : DeliveryTask :=
  match task.hooks with
  | some (hook::rest) => {task with
      hooks := some rest
      rows := task.rows ++ [(deliver_one config now outcome hook (new_delivery hook task.event)).2]}
  | _ => task

/-- A task commits when it has been through its webhooks. -/
def ready (event_id : Nat) (task : DeliveryTask) : Bool := decide (task.event.id = event_id) && task.hooks.any List.isEmpty

/-- What the worker does with a row that it finds. -/
def retried (now : Nat) (hook : Option DBWebhook) (outcome : PostOutcome) (delivery : DBWebhookDelivery) : DBWebhookDelivery :=
  if due now delivery then (process_delivery config now hook outcome delivery).2 else delivery

def step (f : Fanout) : FanoutStep → Fanout
  | .change_hooks hooks => {f with
      hooks := hooks
      audience := f.audience.filter fun entry => (matching hooks entry.1).any fun hook => hook.id = entry.2}
  | .emit_event t now project_id kind payload => f.emit_event t ⟨f.last_id + 1,now,project_id,kind,payload⟩
  | .commit t => {f with
      events := f.events ++ (f.flushed.filter fun row => row.1 = t).map Prod.snd
      flushed := f.flushed.filter fun row => row.1 ≠ t}
  | .rollback t => {f with flushed := f.flushed.filter fun row => row.1 ≠ t}
  | .select event_id => f.on_task event_id (select_hooks f.hooks)
  | .deliver event_id now outcome => f.on_task event_id (deliver_next config now outcome)
  | .finish event_id => {f with
      deliveries := f.deliveries ++ (f.tasks.filter (ready event_id)).flatMap DeliveryTask.rows
      finished := f.finished ++ (f.tasks.filter (ready event_id)).map fun task => task.event.id
      tasks := f.tasks.filter fun task => !ready event_id task}
  | .fail event_id => {f with tasks := f.tasks.filter fun task => task.event.id ≠ event_id}
  | .retry row now hook outcome => {f with deliveries := f.deliveries.modify row (retried config now hook outcome)}
  | .crash => {f with flushed := [],tasks := []}

def run (steps : List FanoutStep) : Fanout := steps.foldl (step config) ∅

/-- The events that a task or a listener waits for. -/
def known (f : Fanout) : List DBEvent := f.audience.map Prod.fst ++ f.tasks.map DeliveryTask.event

/-- A row for the webhook and the event, of a delivery that has been attempted. -/
def Row (rows : List DBWebhookDelivery) (event_id : Nat) (webhook_id : String) : Prop :=
  ∃ row ∈ rows, row.webhook_id = webhook_id ∧ row.event_id = some event_id ∧ row.status ≠ .pending

/-- What a task leaves to do: every listener of its event has a row in its session or is still in front of it. -/
def Covers (f : Fanout) (task : DeliveryTask) : Prop := ∀ left ∈ task.hooks, ∀ entry ∈ f.audience, entry.1 = task.event →
  (∃ hook ∈ left, hook.id = entry.2) ∨ Row task.rows task.event.id entry.2

structure Sound (f : Fanout) : Prop where
  numbered : ∀ event ∈ f.known, event.id ≤ f.last_id
  unique : ∀ event ∈ f.known, ∀ other ∈ f.known, event.id = other.id → event = other
  listening : ∀ entry ∈ f.audience, ∃ hook ∈ matching f.hooks entry.1, hook.id = entry.2
  covers : ∀ task ∈ f.tasks, f.Covers task
  own_rows : ∀ task ∈ f.tasks, ∀ row ∈ task.rows, row.event_id = some task.event.id
  issued : ∀ event_id ∈ f.finished, event_id ≤ f.last_id
  heard : ∀ event_id ∈ f.finished, ∀ entry ∈ f.audience, entry.1.id = event_id → Row f.deliveries event_id entry.2
  made : ∀ row ∈ f.deliveries, ∃ event_id ∈ f.finished, row.event_id = some event_id

variable {config} {f : Fanout}

theorem mem_known {event : DBEvent} : event ∈ f.known ↔ (∃ entry ∈ f.audience, entry.1 = event) ∨ ∃ task ∈ f.tasks, task.event = event := by
  simp [known]

variable (config) in
theorem deliver_one_row (now : Nat) (outcome : PostOutcome) (hook : DBWebhook) (delivery : DBWebhookDelivery) :
    (deliver_one config now outcome hook delivery).2.webhook_id = delivery.webhook_id ∧
    (deliver_one config now outcome hook delivery).2.event_id = delivery.event_id ∧
    (deliver_one config now outcome hook delivery).2.status ≠ .pending := by
  unfold deliver_one
  dsimp only
  split
  · simp
  · split <;> simp

variable (config) in
theorem process_delivery_row (now : Nat) (hook : Option DBWebhook) (outcome : PostOutcome) (delivery : DBWebhookDelivery) :
    (process_delivery config now hook outcome delivery).2.webhook_id = delivery.webhook_id ∧
    (process_delivery config now hook outcome delivery).2.event_id = delivery.event_id ∧
    (process_delivery config now hook outcome delivery).2.status ≠ .pending := by
  unfold process_delivery
  cases hook with
  | none => simp
  | some hook =>
    dsimp only
    split
    · exact deliver_one_row config now outcome hook delivery
    · simp

theorem Row.append {rows more : List DBWebhookDelivery} {event_id : Nat} {webhook_id : String} (there : Row rows event_id webhook_id) :
    Row (rows ++ more) event_id webhook_id := by
  obtain ⟨row,present,same⟩ := there
  exact ⟨row,List.mem_append_left _ present,same⟩

theorem mem_modify (work : DBWebhookDelivery → DBWebhookDelivery) (i : Nat) {rows : List DBWebhookDelivery} {row : DBWebhookDelivery}
    (present : row ∈ rows) : row ∈ rows.modify i work ∨ work row ∈ rows.modify i work := by
  induction rows generalizing i with
  | nil => contradiction
  | cons head rows ih =>
    cases i with
    | zero =>
      rw [List.modify_zero_cons]
      cases List.mem_cons.mp present with
      | inl here =>
        rw [here]
        exact .inr List.mem_cons_self
      | inr later => exact .inl (List.mem_cons_of_mem _ later)
    | succ i =>
      rw [List.modify_succ_cons]
      cases List.mem_cons.mp present with
      | inl here =>
        rw [here]
        exact .inl List.mem_cons_self
      | inr later => exact (ih i later).imp (List.mem_cons_of_mem _) (List.mem_cons_of_mem _)

theorem mem_of_modify {work : DBWebhookDelivery → DBWebhookDelivery} (i : Nat) {rows : List DBWebhookDelivery} {row : DBWebhookDelivery}
    (present : row ∈ rows.modify i work) : row ∈ rows ∨ ∃ old ∈ rows, work old = row := by
  induction rows generalizing i with
  | nil =>
    rw [List.modify_nil] at present
    contradiction
  | cons head rows ih =>
    cases i with
    | zero =>
      rw [List.modify_zero_cons] at present
      cases List.mem_cons.mp present with
      | inl here => exact .inr ⟨head,List.mem_cons_self,here.symm⟩
      | inr later => exact .inl (List.mem_cons_of_mem _ later)
    | succ i =>
      rw [List.modify_succ_cons] at present
      cases List.mem_cons.mp present with
      | inl here =>
        rw [here]
        exact .inl List.mem_cons_self
      | inr later =>
        cases ih i later with
        | inl kept => exact .inl (List.mem_cons_of_mem _ kept)
        | inr worked =>
          obtain ⟨old,found,done⟩ := worked
          exact .inr ⟨old,List.mem_cons_of_mem _ found,done⟩

theorem Sound.fewer (sound : f.Sound) {audience : List (DBEvent × String)} {tasks : List DeliveryTask} {hooks : List DBWebhook}
    (heard : audience ⊆ f.audience) (left : tasks ⊆ f.tasks)
    (listening : ∀ entry ∈ audience, ∃ hook ∈ matching hooks entry.1, hook.id = entry.2) (flushed : List (Nat × DBEvent))
    (events : List DBEvent) :
    Sound {f with audience := audience,tasks := tasks,hooks := hooks,flushed := flushed,events := events} := by
  have among : ∀ event, event ∈ known {f with audience := audience,tasks := tasks,hooks := hooks,flushed := flushed,events := events} →
      event ∈ f.known := by
    intro event present
    rw [mem_known] at present ⊢
    cases present with
    | inl found =>
      obtain ⟨entry,here,same⟩ := found
      exact .inl ⟨entry,heard here,same⟩
    | inr found =>
      obtain ⟨task,here,same⟩ := found
      exact .inr ⟨task,left here,same⟩
  constructor
  · exact fun event present => sound.numbered event (among event present)
  · exact fun event present other present' => sound.unique event (among event present) other (among other present')
  · exact listening
  · exact fun task present hooks there entry here => sound.covers task (left present) hooks there entry (heard here)
  · exact fun task present => sound.own_rows task (left present)
  · exact sound.issued
  · exact fun event_id ended entry here => sound.heard event_id ended entry (heard here)
  · exact sound.made

theorem Sound.on_task (sound : f.Sound) (event_id : Nat) {work : DeliveryTask → DeliveryTask}
    (same : ∀ task, (work task).event = task.event)
    (covers : ∀ task ∈ f.tasks, f.Covers (work task))
    (own_rows : ∀ task ∈ f.tasks, ∀ row ∈ (work task).rows, row.event_id = some task.event.id) : (f.on_task event_id work).Sound := by
  have events : (f.on_task event_id work).known = f.known := by
    unfold known Fanout.on_task
    dsimp only
    rw [List.map_map]
    congr 1
    apply List.map_congr_left
    intro task _
    change (if task.event.id = event_id then work task else task).event = task.event
    split
    · exact same task
    · rfl
  constructor
  · rw [events]
    exact sound.numbered
  · rw [events]
    exact sound.unique
  · exact sound.listening
  · intro task present
    obtain ⟨old,here,rfl⟩ := List.mem_map.mp present
    split
    · exact covers old here
    · exact sound.covers old here
  · intro task present
    obtain ⟨old,here,rfl⟩ := List.mem_map.mp present
    split
    · rw [same]
      exact own_rows old here
    · exact sound.own_rows old here
  · exact sound.issued
  · exact sound.heard
  · exact sound.made

variable (config) in
theorem retried_row (now : Nat) (hook : Option DBWebhook) (outcome : PostOutcome) (delivery : DBWebhookDelivery) :
    (retried config now hook outcome delivery).webhook_id = delivery.webhook_id ∧
    (retried config now hook outcome delivery).event_id = delivery.event_id ∧
    (delivery.status ≠ .pending → (retried config now hook outcome delivery).status ≠ .pending) := by
  unfold retried
  split
  · obtain ⟨webhook_id,event_id,attempted⟩ := process_delivery_row config now hook outcome delivery
    exact ⟨webhook_id,event_id,fun _ => attempted⟩
  · exact ⟨rfl,rfl,id⟩

theorem Sound.retry (sound : f.Sound) (row now : Nat) (hook : Option DBWebhook) (outcome : PostOutcome) :
    (step config f (.retry row now hook outcome)).Sound := by
  change Sound {f with deliveries := f.deliveries.modify row (retried config now hook outcome)}
  constructor
  · exact sound.numbered
  · exact sound.unique
  · exact sound.listening
  · exact sound.covers
  · exact sound.own_rows
  · exact sound.issued
  · intro event_id ended entry here same
    obtain ⟨old,present,webhook,event,attempted⟩ := sound.heard event_id ended entry here same
    cases mem_modify (retried config now hook outcome) row present with
    | inl kept => exact ⟨old,kept,webhook,event,attempted⟩
    | inr worked =>
      obtain ⟨webhook_id,event_id,still⟩ := retried_row config now hook outcome old
      exact ⟨_,worked,webhook_id.trans webhook,event_id.trans event,still attempted⟩
  · intro delivery present
    cases mem_of_modify row present with
    | inl kept => exact sound.made delivery kept
    | inr worked =>
      obtain ⟨old,found,rfl⟩ := worked
      rw [(retried_row config now hook outcome old).2.1]
      exact sound.made old found

theorem known_emit {t : Nat} {event other : DBEvent} (present : other ∈ (f.emit_event t event).known) : other ∈ f.known ∨ other = event := by
  rw [mem_known] at present ⊢
  cases present with
  | inl heard =>
    obtain ⟨entry,here,rfl⟩ := heard
    cases List.mem_append.mp here with
    | inl before => exact .inl (.inl ⟨entry,before,rfl⟩)
    | inr new =>
      obtain ⟨hook,_,rfl⟩ := List.mem_map.mp new
      exact .inr rfl
  | inr waiting =>
    obtain ⟨task,here,rfl⟩ := waiting
    unfold emit_event at here
    dsimp only at here
    split at here
    · cases List.mem_append.mp here with
      | inl before => exact .inl (.inr ⟨task,before,rfl⟩)
      | inr new =>
        rw [List.mem_singleton.mp new]
        exact .inr rfl
    · exact .inl (.inr ⟨task,here,rfl⟩)

theorem tasks_emit {t : Nat} {event : DBEvent} {task : DeliveryTask} (present : task ∈ (f.emit_event t event).tasks) :
    task ∈ f.tasks ∨ task = ⟨event,none,[]⟩ := by
  unfold emit_event at present
  dsimp only at present
  split at present
  · exact (List.mem_append.mp present).imp_right List.mem_singleton.mp
  · exact .inl present

theorem Sound.emit_event (sound : f.Sound) (t : Nat) {event : DBEvent} (next : event.id = f.last_id + 1) :
    (f.emit_event t event).Sound := by
  -- the new event has a number of its own
  have apart : ∀ other ∈ f.known, other.id ≠ event.id := by
    intro other present
    have numbered := sound.numbered other present
    omega
  have audience : ∀ entry ∈ (f.emit_event t event).audience, entry ∈ f.audience ∨
      entry.1 = event ∧ ∃ hook ∈ matching f.hooks event, hook.id = entry.2 := by
    intro entry present
    cases List.mem_append.mp present with
    | inl before => exact .inl before
    | inr new =>
      obtain ⟨hook,here,rfl⟩ := List.mem_map.mp new
      exact .inr ⟨rfl,hook,here,rfl⟩
  constructor
  · intro other present
    change other.id ≤ f.last_id + 1
    cases known_emit present with
    | inl before =>
      have numbered := sound.numbered other before
      omega
    | inr new =>
      rw [new]
      omega
  · intro one present other present' same
    cases known_emit present with
    | inl before =>
      cases known_emit present' with
      | inl before' => exact sound.unique one before other before' same
      | inr new =>
        rw [new] at same
        exact absurd same (apart one before)
    | inr new =>
      cases known_emit present' with
      | inl before' =>
        rw [new] at same
        exact absurd same.symm (apart other before')
      | inr new' => rw [new,new']
  · intro entry present
    cases audience entry present with
    | inl before => exact sound.listening entry before
    | inr new =>
      obtain ⟨same,hook,here,id⟩ := new
      rw [same]
      exact ⟨hook,here,id⟩
  · intro task present left there entry here same
    cases tasks_emit present with
    | inl before =>
      cases audience entry here with
      | inl heard => exact sound.covers task before left there entry heard same
      | inr new =>
        have waiting : task.event ∈ f.known := mem_known.mpr (.inr ⟨task,before,rfl⟩)
        rw [← same,new.1] at waiting
        exact absurd rfl (apart event waiting)
    | inr new =>
      rw [new] at there
      contradiction
  · intro task present
    cases tasks_emit present with
    | inl before => exact sound.own_rows task before
    | inr new =>
      rw [new]
      simp
  · intro event_id ended
    exact Nat.le_succ_of_le (sound.issued event_id ended)
  · intro event_id ended entry present same
    cases audience entry present with
    | inl before => exact sound.heard event_id ended entry before same
    | inr new =>
      have issued := sound.issued event_id ended
      rw [new.1] at same
      omega
  · exact sound.made

theorem Sound.select (sound : f.Sound) (event_id : Nat) : (step config f (.select event_id)).Sound := by
  apply sound.on_task event_id
  · intro task
    rfl
  · intro task present left there entry here same
    change left ∈ task.hooks.or (some (matching f.hooks task.event)) at there
    cases read : task.hooks with
    | some hooks =>
      rw [read] at there
      exact sound.covers task present left (by rwa [read]) entry here same
    | none =>
      rw [read,Option.none_or] at there
      cases there
      obtain ⟨hook,listening,id⟩ := sound.listening entry here
      have same : entry.1 = task.event := same
      rw [same] at listening
      exact .inl ⟨hook,listening,id⟩
  · exact sound.own_rows

theorem deliver_next_event (now : Nat) (outcome : PostOutcome) (task : DeliveryTask) :
    (deliver_next config now outcome task).event = task.event := by
  unfold deliver_next
  split <;> rfl

theorem Sound.deliver (sound : f.Sound) (event_id now : Nat) (outcome : PostOutcome) :
    (step config f (.deliver event_id now outcome)).Sound := by
  apply sound.on_task event_id
  · exact deliver_next_event now outcome
  · intro task present left there entry here same
    rw [deliver_next_event] at same ⊢
    unfold deliver_next at there ⊢
    split at there
    · rename_i hook _ waiting
      cases there
      obtain ⟨webhook_id,for_event,attempted⟩ := deliver_one_row config now outcome hook (new_delivery hook task.event)
      cases sound.covers task present (hook::left) waiting entry here same with
      | inl ahead =>
        obtain ⟨next,among,id⟩ := ahead
        cases List.mem_cons.mp among with
        | inl this_one =>
          rw [this_one] at id
          exact .inr ⟨_,List.mem_append_right _ (List.mem_singleton_self _),webhook_id.trans id,for_event,attempted⟩
        | inr later => exact .inl ⟨next,later,id⟩
      | inr done => exact .inr done.append
    · exact sound.covers task present left there entry here same
  · intro task present row among
    unfold deliver_next at among
    split at among
    · rename_i hook _ _
      cases List.mem_append.mp among with
      | inl before => exact sound.own_rows task present row before
      | inr new =>
        rw [List.mem_singleton.mp new]
        exact (deliver_one_row config now outcome hook (new_delivery hook task.event)).2.1
    · exact sound.own_rows task present row among

/-- A task that commits has made a row for everyone who listens. -/
theorem Sound.finish (sound : f.Sound) (event_id : Nat) : (step config f (.finish event_id)).Sound := by
  have left : (f.tasks.filter fun task => !ready event_id task) ⊆ f.tasks := List.filter_subset_self _
  have fewer := sound.fewer (List.Subset.refl f.audience) left sound.listening f.flushed f.events
  constructor
  · exact fewer.numbered
  · exact fewer.unique
  · exact fewer.listening
  · exact fewer.covers
  · exact fewer.own_rows
  · intro done ended
    cases List.mem_append.mp ended with
    | inl before => exact sound.issued done before
    | inr new =>
      obtain ⟨task,present,rfl⟩ := List.mem_map.mp new
      exact sound.numbered task.event (mem_known.mpr (.inr ⟨task,(List.mem_filter.mp present).1,rfl⟩))
  · intro done ended entry here same
    cases List.mem_append.mp ended with
    | inl before => exact (sound.heard done before entry here same).append
    | inr new =>
      obtain ⟨task,present,rfl⟩ := List.mem_map.mp new
      obtain ⟨open_task,is_ready⟩ := List.mem_filter.mp present
      have its_event : entry.1 = task.event := sound.unique entry.1 (mem_known.mpr (.inl ⟨entry,here,rfl⟩)) task.event
        (mem_known.mpr (.inr ⟨task,open_task,rfl⟩)) same
      obtain ⟨hooks,read,empty⟩ := (Option.any_eq_true _ _).mp (Bool.and_eq_true_iff.mp is_ready).2
      rw [List.isEmpty_iff] at empty
      subst empty
      cases sound.covers task open_task [] read entry here its_event with
      | inl ahead => simp at ahead
      | inr row =>
        obtain ⟨delivery,among,made⟩ := row
        exact ⟨delivery,List.mem_append_right _ (List.mem_flatMap.mpr ⟨task,present,among⟩),made⟩
  · intro row present
    cases List.mem_append.mp present with
    | inl before =>
      obtain ⟨done,ended,made⟩ := sound.made row before
      exact ⟨done,List.mem_append_left _ ended,made⟩
    | inr new =>
      obtain ⟨task,open_task,among⟩ := List.mem_flatMap.mp new
      apply Exists.intro task.event.id
      constructor
      · exact List.mem_append_right _ (List.mem_map_of_mem open_task)
      · exact sound.own_rows task (List.mem_filter.mp open_task).1 row among

theorem Sound.step (sound : f.Sound) (next : FanoutStep) : (step config f next).Sound := by
  cases next with
  | change_hooks hooks =>
    apply sound.fewer (List.filter_subset_self _) (List.Subset.refl _)
    intro entry present
    simpa using (List.mem_filter.mp present).2
  | emit_event t now project_id kind payload => exact sound.emit_event t rfl
  | commit t => exact sound.fewer (List.Subset.refl _) (List.Subset.refl _) sound.listening _ _
  | rollback t => exact sound.fewer (List.Subset.refl _) (List.Subset.refl _) sound.listening _ _
  | select event_id => exact sound.select event_id
  | deliver event_id now outcome => exact sound.deliver event_id now outcome
  | finish event_id => exact sound.finish event_id
  | fail event_id => exact sound.fewer (List.Subset.refl _) (List.filter_subset_self _) sound.listening _ _
  | retry row now hook outcome => exact sound.retry row now hook outcome
  | crash => exact sound.fewer (List.Subset.refl _) (List.nil_subset _) sound.listening _ _

theorem run_concat (steps : List FanoutStep) (next : FanoutStep) : run config (steps ++ [next]) = step config (run config steps) next :=
  List.foldl_append

variable (config) in
theorem run_sound (steps : List FanoutStep) : (run config steps).Sound := by
  induction steps using List.reverseRecOn with
  | nil =>
    change Sound ⟨0,[],[],[],[],[],[],[]⟩
    constructor <;> simp [known]
  | append_singleton steps next ih =>
    rw [run_concat]
    exact ih.step next

section Lost

open Attempts (some_hook defaults)

def pushed : DBEvent := ⟨1,EventFeed.midnight,none,"commit",none⟩

def emitted : List FanoutStep := [.change_hooks [some_hook],.emit_event 1 EventFeed.midnight none "commit" none,.commit 1]

def fanned_out : List FanoutStep := emitted ++ [.select 1,.deliver 1 0 (.response 500),.finish 1,.crash]

end Lost

end Fanout

end AetherVault
