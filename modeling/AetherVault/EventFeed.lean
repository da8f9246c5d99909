import AetherVault.Signing
import AetherVault.Lib.CursorPage

/-! The event feed: rows that get their ids when a transaction flushes them and are seen when
it commits, and a consumer that polls from the last id it was given. -/
namespace AetherVault
open Lib

structure DBEvent where
  id : Nat
  ts : Datetime
  project_id : Option String
  kind : String
  payload : Option Doc

structure EventQuery where
  project_id : Option String
  kinds : Option String
  run_id : Option String

def given (argument : Option String) : Option String := argument.filter (· ≠ "")

def strip (cs : List Char) : List Char := ((cs.dropWhile Char.isWhitespace).reverse.dropWhile Char.isWhitespace).reverse

def EventQuery.kind_list (q : EventQuery) : Option (List String) :=
  (given q.kinds).map fun kinds => (kinds.toList.splitOn ',').map fun k => String.ofList (strip k)

/-- The text of a member of a JSON column; `none` for a null. -/
def as_string : JsonValue → Option String
  | .null => none
  | .string s => some s
  | value => some (String.ofList (JsonValue.text spaced value))

/-- Rows of every project go to all consumers when they name no project. -/
def EventQuery.in_project (q : EventQuery) (e : DBEvent) : Bool :=
  (given q.project_id).all fun project => e.project_id == some project || e.project_id.isNone

def EventQuery.matches (q : EventQuery) (e : DBEvent) : Bool :=
  q.in_project e && q.kind_list.all (fun kinds => e.kind ∈ kinds) &&
    (given q.run_id).all fun run => ((e.payload.bind fun payload => payload.get? "run_id").bind as_string) == some run

structure EventPage where
  events : List DBEvent
  next_cursor : Nat
  gap : Bool
  oldest_id : Option Nat

/-- One fetch of `list_events`: a long poll fetches again only while it has found nothing. -/
def list_events (events : List DBEvent) (since : Nat) (q : EventQuery) (limit : Nat) : EventPage :=
  let shown := CursorPage.page DBEvent.id (events.filter q.matches) since limit
  let oldest_id := if 0 < since then ((events.filter q.in_project).map DBEvent.id).min? else none
  ⟨shown,CursorPage.cursor DBEvent.id since shown,oldest_id.any fun oldest => decide (since < oldest - 1),oldest_id⟩

/-- The table with the rows that are flushed and not yet committed, each with its
transaction, and the consumer with what it has been given. -/
structure EventFeed where
  last_id : Nat
  open_transactions : List Nat
  flushed : List (Nat × DBEvent)
  events : List DBEvent
  since : Nat
  returned : List DBEvent

instance : EmptyCollection EventFeed := ⟨⟨0,[],[],[],0,[]⟩⟩

inductive FeedStep
  | begin (t : Nat)
  | flush (t : Nat) (now : Datetime) (project_id : Option String) (kind : String) (payload : Option Doc)
  | commit (t : Nat)
  | rollback (t : Nat)
  | poll (limit : Nat) (in_range : 1 ≤ limit ∧ limit ≤ 1000)

namespace EventFeed

def rows_of (f : EventFeed) (t : Nat) : List DBEvent := (f.flushed.filter fun row => row.1 = t).map Prod.snd

def without (f : EventFeed) (t : Nat) : EventFeed :=
  {f with open_transactions := f.open_transactions.filter (· ≠ t),flushed := f.flushed.filter fun row => row.1 ≠ t}

def emit_event (f : EventFeed) (t : Nat) (now : Datetime) (project_id : Option String) (kind : String) (payload : Option Doc) : EventFeed :=
  if t ∈ f.open_transactions then
    {f with last_id := f.last_id + 1,flushed := f.flushed ++ [(t,⟨f.last_id + 1,now,project_id,kind,payload⟩)]}
  else f

def step (q : EventQuery) (f : EventFeed) : FeedStep → EventFeed
  | .begin t => {f with open_transactions := t::f.open_transactions}
  | .flush t now project_id kind payload => f.emit_event t now project_id kind payload
  | .commit t => {f.without t with events := f.events ++ f.rows_of t}
  | .rollback t => f.without t
  | .poll limit _ =>
    let page := list_events f.events f.since q limit
    {f with since := page.next_cursor,returned := f.returned ++ page.events}

def run (q : EventQuery) (steps : List FeedStep) : EventFeed := steps.foldl (step q) ∅

def stored (f : EventFeed) : List DBEvent := f.events ++ f.flushed.map Prod.snd

/-- No id is used twice, of rows committed or not, and what the consumer has was committed. -/
structure Sound (f : EventFeed) : Prop where
  distinct : (f.stored.map DBEvent.id).Nodup
  issued : ∀ e ∈ f.stored, e.id ≤ f.last_id
  seen : ∀ e ∈ f.returned, e ∈ f.events ∧ e.id ≤ f.since
  ascending : f.returned.Pairwise fun e next => e.id < next.id

section Emission

variable (f : EventFeed) (t : Nat) (now : Datetime) (project_id : Option String) (kind : String) (payload : Option Doc)

@[simp] theorem emit_event_events : (f.emit_event t now project_id kind payload).events = f.events := by
  unfold emit_event
  split <;> rfl

@[simp] theorem emit_event_since : (f.emit_event t now project_id kind payload).since = f.since := by
  unfold emit_event
  split <;> rfl

@[simp] theorem emit_event_returned : (f.emit_event t now project_id kind payload).returned = f.returned := by
  unfold emit_event
  split <;> rfl

end Emission

variable {q : EventQuery} {f : EventFeed}

theorem committed_perm (q : EventQuery) (f : EventFeed) (t : Nat) : (f.step q (.commit t)).stored.Perm f.stored := by
  have apart : (f.rows_of t ++ (f.without t).flushed.map Prod.snd).Perm (f.flushed.map Prod.snd) := by
    unfold rows_of without
    rw [← List.map_append]
    apply List.Perm.map
    simpa using List.filter_append_perm (fun row : Nat × DBEvent => decide (row.1 = t)) f.flushed
  unfold stored step
  rw [List.append_assoc]
  exact apart.append_left f.events

theorem without_sublist (f : EventFeed) (t : Nat) : (f.without t).stored.Sublist f.stored :=
  (List.filter_sublist.map Prod.snd).append_left f.events

theorem Sound.distinct_events (sound : f.Sound) : ((f.events.filter q.matches).map DBEvent.id).Nodup :=
  sound.distinct.sublist ((List.filter_sublist.trans (List.sublist_append_left _ _)).map DBEvent.id)

theorem Sound.step (sound : f.Sound) (s : FeedStep) : (f.step q s).Sound := by
  cases s with
  | begin t => exact ⟨sound.distinct,sound.issued,sound.seen,sound.ascending⟩
  | flush t now project_id kind payload =>
    simp only [EventFeed.step,emit_event]
    split
    · have stored_eq : ∀ e, ({f with last_id := f.last_id + 1,flushed := f.flushed ++ [(t,e)]} : EventFeed).stored = f.stored ++ [e] := by
        intro e
        simp [stored]
      constructor
      · rw [stored_eq,List.map_append]
        apply sound.distinct.append (List.nodup_singleton _)
        intro id old fresh
        obtain ⟨e,present,rfl⟩ := List.mem_map.mp old
        have bound := sound.issued e present
        have next : e.id = f.last_id + 1 := by simpa using fresh
        omega
      · intro e present
        rw [stored_eq] at present
        cases List.mem_append.mp present with
        | inl old => exact Nat.le_succ_of_le (sound.issued e old)
        | inr fresh => rw [List.mem_singleton.mp fresh]
      · exact sound.seen
      · exact sound.ascending
    · exact sound
  | commit t =>
    have same := committed_perm q f t
    constructor
    · exact (same.map DBEvent.id).nodup_iff.mpr sound.distinct
    · intro e present
      exact sound.issued e (same.mem_iff.mp present)
    · intro e given
      exact ⟨List.mem_append_left _ (sound.seen e given).1,(sound.seen e given).2⟩
    · exact sound.ascending
  | rollback t =>
    have sub := without_sublist f t
    exact ⟨sound.distinct.sublist (sub.map DBEvent.id),fun e present => sound.issued e (sub.subset present),sound.seen,sound.ascending⟩
  | poll limit in_range =>
    constructor
    · exact sound.distinct
    · exact sound.issued
    · intro e given
      cases List.mem_append.mp given with
      | inl old => exact ⟨(sound.seen e old).1,Nat.le_trans (sound.seen e old).2 CursorPage.le_cursor⟩
      | inr fresh =>
        have on_page := (CursorPage.mem_of_page fresh).1
        exact ⟨List.mem_of_mem_filter on_page,CursorPage.le_last (CursorPage.page_pairwise sound.distinct_events) fresh⟩
    · apply List.pairwise_append.mpr
      constructor
      · exact sound.ascending
      constructor
      · exact CursorPage.page_pairwise sound.distinct_events
      · intro e old next fresh
        exact Nat.lt_of_le_of_lt (sound.seen e old).2 (CursorPage.mem_of_page fresh).2

theorem run_append (q : EventQuery) (steps more : List FeedStep) : run q (steps ++ more) = more.foldl (step q) (run q steps) :=
  List.foldl_append

theorem run_sound (q : EventQuery) (steps : List FeedStep) : (run q steps).Sound := by
  induction steps using List.reverseRecOn with
  | nil =>
    constructor
    · exact List.nodup_nil
    · intro e present
      contradiction
    · intro e present
      contradiction
    · exact .nil
  | append_singleton steps s ih =>
    rw [run_append]
    exact ih.step s

theorem step_events (s : FeedStep) {e : DBEvent} (present : e ∈ f.events) : e ∈ (f.step q s).events := by
  cases s with
  | flush => simpa [step] using present
  | commit => exact List.mem_append_left _ present
  | _ => exact present

theorem step_since (q : EventQuery) (f : EventFeed) (s : FeedStep) : f.since ≤ (f.step q s).since := by
  cases s with
  | flush => simp [step]
  | poll => exact CursorPage.le_cursor
  | _ => exact Nat.le_refl _

/-- A matching event that is committed and, when the cursor has passed it, given to the consumer. -/
def Covered (f : EventFeed) (e : DBEvent) : Prop := e ∈ f.events ∧ (e.id ≤ f.since → e ∈ f.returned)

theorem Covered.step (sound : f.Sound) {e : DBEvent} (wanted : q.matches e = true) (covered : f.Covered e) (s : FeedStep) :
    (f.step q s).Covered e := by
  constructor
  · exact step_events s covered.1
  · cases s with
    | poll limit in_range =>
      intro passed
      by_cases before : e.id ≤ f.since
      · exact List.mem_append_left _ (covered.2 before)
      · apply List.mem_append_right
        apply CursorPage.page_covers sound.distinct_events
        · exact List.mem_filter.mpr ⟨covered.1,wanted⟩
        · exact Nat.lt_of_not_le before
        · exact passed
    | flush => simpa [EventFeed.step] using covered.2
    | _ => exact covered.2

/-- A committed event that the cursor has passed and the consumer was not given. -/
def Missed (f : EventFeed) (e : DBEvent) : Prop := e ∈ f.events ∧ e.id ≤ f.since ∧ e ∉ f.returned

theorem Missed.step {e : DBEvent} (missed : f.Missed e) (s : FeedStep) : (f.step q s).Missed e := by
  constructor
  · exact step_events s missed.1
  constructor
  · exact Nat.le_trans missed.2.1 (step_since q f s)
  · cases s with
    | poll limit in_range =>
      intro given
      cases List.mem_append.mp given with
      | inl old => exact missed.2.2 old
      | inr fresh => exact Nat.not_le_of_lt (CursorPage.mem_of_page fresh).2 missed.2.1
    | flush => simpa [EventFeed.step] using missed.2.2
    | _ => exact missed.2.2

/-- No commit brings a matching event whose id the cursor has passed. -/
def InOrder (q : EventQuery) (steps : List FeedStep) : Prop := ∀ before t after, steps = before ++ .commit t::after →
  ∀ e ∈ (run q before).rows_of t, q.matches e = true → (run q before).since < e.id

theorem covered_of_in_order {steps : List FeedStep} (in_order : InOrder q steps) {e : DBEvent} (present : e ∈ (run q steps).events)
    (wanted : q.matches e = true) : (run q steps).Covered e := by
  induction steps using List.reverseRecOn with
  | nil => contradiction
  | append_singleton steps s ih =>
    have earlier : InOrder q steps := by
      intro before t after split
      exact in_order before t (after ++ [s]) (by simp [split])
    rw [run_append] at present ⊢
    by_cases old : e ∈ (run q steps).events
    · exact (ih earlier old).step (run_sound q steps) wanted s
    · cases s with
      | commit t =>
        have fresh := (List.mem_append.mp present).resolve_left old
        have beyond := in_order steps t [] rfl e fresh wanted
        exact ⟨present,fun passed => absurd passed (Nat.not_le_of_lt beyond)⟩
      | flush => exact absurd (by simpa [step] using present) old
      | _ => exact absurd present old

def is_poll : FeedStep → Bool
  | .poll _ _ => true
  | _ => false

def polls (steps : List FeedStep) : Nat := steps.countP is_poll

theorem covered_run {steps : List FeedStep} {e : DBEvent} (covered : (run q steps).Covered e) (wanted : q.matches e = true)
    (after : List FeedStep) : (run q (steps ++ after)).Covered e := by
  induction after using List.reverseRecOn with
  | nil => simpa using covered
  | append_singleton after s ih =>
    rw [← List.append_assoc,run_append]
    exact ih.step (run_sound q _) wanted s

theorem missed_run {steps : List FeedStep} {e : DBEvent} (missed : (run q steps).Missed e) (after : List FeedStep) :
    (run q (steps ++ after)).Missed e := by
  induction after using List.reverseRecOn with
  | nil => simpa using missed
  | append_singleton after s ih =>
    rw [← List.append_assoc,run_append]
    exact ih.step s

theorem cursor_reaches {steps : List FeedStep} {e : DBEvent} (present : e ∈ (run q steps).events) (wanted : q.matches e = true)
    (after : List FeedStep) : min e.id (polls after) ≤ (run q (steps ++ after)).since := by
  induction after using List.reverseRecOn with
  | nil => simp [polls]
  | append_singleton after s ih =>
    have still : e ∈ (run q (steps ++ after)).events := by
      clear ih
      induction after using List.reverseRecOn with
      | nil => simpa using present
      | append_singleton after s ih =>
        rw [← List.append_assoc,run_append]
        exact step_events s ih
    rw [← List.append_assoc,run_append]
    have forward : (run q (steps ++ after)).since ≤ ((run q (steps ++ after)).step q s).since := step_since q _ s
    cases polled : is_poll s with
    | false =>
      have counted : polls (after ++ [s]) = polls after := by simp [polls,polled]
      rw [counted]
      exact Nat.le_trans ih forward
    | true =>
      have counted : polls (after ++ [s]) = polls after + 1 := by simp [polls,polled]
      rw [counted]
      by_cases reached : e.id ≤ (run q (steps ++ after)).since
      · exact Nat.le_trans (Nat.min_le_left _ _) (Nat.le_trans reached forward)
      · cases s with
        | poll limit in_range =>
          have moved : (run q (steps ++ after)).since < ((run q (steps ++ after)).step q (.poll limit in_range)).since :=
            CursorPage.cursor_advances in_range.1 (List.mem_filter.mpr ⟨still,wanted⟩) (Nat.lt_of_not_le reached)
          simp only [List.foldl_cons,List.foldl_nil]
          omega
        | _ => contradiction

/-- The rows with an event's id that the consumer was given. -/
def deliveries (f : EventFeed) (e : DBEvent) : List DBEvent := f.returned.filter fun given => given.id = e.id

theorem Sound.deliveries_eq (sound : f.Sound) {e : DBEvent} (given : e ∈ f.returned) : f.deliveries e = [e] := by
  unfold deliveries
  have ascending := sound.ascending
  obtain ⟨before,after,split⟩ := List.append_of_mem given
  rw [split] at ascending ⊢
  obtain ⟨-,tail,across⟩ := List.pairwise_append.mp ascending
  have none_before : before.filter (fun other => other.id = e.id) = [] := by
    apply List.filter_eq_nil_iff.mpr
    intro other member same
    exact Nat.ne_of_lt (across other member e List.mem_cons_self) (of_decide_eq_true same)
  have none_after : after.filter (fun other => other.id = e.id) = [] := by
    apply List.filter_eq_nil_iff.mpr
    intro other member same
    exact Nat.ne_of_gt ((List.pairwise_cons.mp tail).1 other member) (of_decide_eq_true same)
  simp [none_before,none_after]

theorem Sound.deliveries_nil (sound : f.Sound) {e : DBEvent} (present : e ∈ f.events) (absent : e ∉ f.returned) : f.deliveries e = [] := by
  apply List.filter_eq_nil_iff.mpr
  intro other given same
  have distinct := (List.map_append ▸ sound.distinct).of_append_left
  have equal := List.inj_on_of_nodup_map distinct (sound.seen other given).1 present (of_decide_eq_true same)
  exact absent (equal ▸ given)

/-- A commit that brings an event below the cursor brings one that no poll returns. -/
theorem missed_of_late {before after : List FeedStep} {t : Nat} {e : DBEvent} (late : e ∈ (run q before).rows_of t)
    (passed : e.id ≤ (run q before).since) : (run q (before ++ .commit t::after)).Missed e := by
  have sound := run_sound q before
  have unseen : e ∉ (run q before).events := by
    intro committed
    have waiting : e ∈ (run q before).flushed.map Prod.snd := (List.filter_sublist.map Prod.snd).subset late
    exact (List.nodup_append.mp (List.map_append ▸ sound.distinct)).2.2 _ (List.mem_map_of_mem committed) _
      (List.mem_map_of_mem waiting) rfl
  have here : (run q (before ++ [.commit t])).Missed e := by
    rw [run_append]
    exact ⟨List.mem_append_right _ late,passed,fun given => unseen (sound.seen e given).1⟩
  simpa using missed_run here after

/-- Every committed event that the consumer asks for is given to it at most once, and exactly
once after as many polls as its id, exactly when the commits are in order. -/
theorem event_feed_exactly_once (q : EventQuery) (steps : List FeedStep) : InOrder q steps ↔
    ∀ after, ∀ e ∈ (run q steps).events, q.matches e = true →
      ((run q (steps ++ after)).deliveries e = [] ∨ (run q (steps ++ after)).deliveries e = [e]) ∧
      (e.id ≤ polls after → (run q (steps ++ after)).deliveries e = [e]) := by
  constructor
  · intro in_order after e present wanted
    have covered := covered_run (covered_of_in_order in_order present wanted) wanted after
    have sound := run_sound q (steps ++ after)
    constructor
    · by_cases given : e ∈ (run q (steps ++ after)).returned
      · exact .inr (sound.deliveries_eq given)
      · exact .inl (sound.deliveries_nil covered.1 given)
    · intro enough
      have reached := cursor_reaches present wanted after
      rw [Nat.min_eq_left enough] at reached
      exact sound.deliveries_eq (covered.2 reached)
  · intro exactly before t after split e late wanted
    by_contra not_beyond
    have missed : (run q steps).Missed e := split ▸ missed_of_late late (Nat.le_of_not_lt not_beyond)
    have asked : polls (List.replicate e.id (.poll 1 (by omega))) = e.id := by
      simp [polls,List.countP_replicate,is_poll]
    have delivered := (exactly (List.replicate e.id (.poll 1 (by omega))) e missed.1 wanted).2 asked.ge
    have still := missed_run missed (List.replicate e.id (.poll 1 (by omega)))
    rw [(run_sound q _).deliveries_nil still.1 still.2.2] at delivered
    contradiction

section Overtaken

def midnight : Datetime := ⟨2026,2,1,0,0,0,0,rfl⟩

/-- The second transaction commits first, and the consumer polls between the two commits. -/
def overtaken : List FeedStep := [.begin 1,.flush 1 midnight (some "p") "commit" none,.begin 2,.flush 2 midnight (some "p") "ref" none,
  .commit 2,.poll 100 (by omega),.commit 1]

theorem overtaken_event_lost : ¬ ∀ (q : EventQuery) (steps after : List FeedStep), ∀ e ∈ (run q steps).events, q.matches e = true →
    e.id ≤ polls after → (run q (steps ++ after)).deliveries e = [e] := by
  intro all
  have given := all ⟨none,none,none⟩ overtaken [.poll 100 (by omega)] ⟨1,midnight,some "p","commit",none⟩
    (List.mem_cons_of_mem _ List.mem_cons_self) rfl (Nat.le_refl 1)
  have lost : (run ⟨none,none,none⟩ (overtaken ++ [.poll 100 (by omega)])).deliveries ⟨1,midnight,some "p","commit",none⟩ = [] := rfl
  rw [lost] at given
  contradiction

end Overtaken

end EventFeed

end AetherVault
