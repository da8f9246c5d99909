import AetherVault.AuditLog
import AetherVault.EventFeed

/-! Events and the two prunes that delete them by age, and what a resuming consumer is told of
the events that are gone. -/
namespace AetherVault
open Lib

/-- The feed, with the rows that the prunes have deleted. -/
structure EventHistory where
  feed : EventFeed
  pruned : List DBEvent

instance : EmptyCollection EventHistory := ⟨⟨∅,[]⟩⟩

inductive HistoryStep
  | feed (s : FeedStep)
  /-- the retention step of `run_garbage_collection` -/
  | run_garbage_collection (now : Datetime)
  | prune_events (before_days : Int) (now : Datetime)

/-- The position that a fetch starts from: the ids start at one, so a negative `since` is as
good as none. -/
def position (since : Int) : Nat := since.toNat

namespace EventHistory

def event_expired (cutoff : Datetime) (e : DBEvent) : Bool := decide (e.ts.instant < cutoff.instant)

/-- `delete(DBEvent).where(DBEvent.ts < cutoff)`, of the rows that are committed -/
def delete_expired (h : EventHistory) (cutoff : Datetime) : EventHistory where
  feed := {h.feed with events := h.feed.events.filter fun e => !event_expired cutoff e}
  pruned := h.pruned ++ h.feed.events.filter (event_expired cutoff)

/-- The request fails where the cutoff overflows. -/
def prune_events (h : EventHistory) (before_days : Int) (now : Datetime) : EventHistory :=
  (now.minus_days (max before_days 0)).elim h h.delete_expired

variable (EVENT_RETENTION_DAYS : Int)

def retention_sweep (h : EventHistory) (now : Datetime) : EventHistory :=
  (now.minus_days EVENT_RETENTION_DAYS).elim h h.delete_expired

def step (h : EventHistory) : HistoryStep → EventHistory
  | .feed s => {h with feed := h.feed.step ⟨none,none,none⟩ s}
  | .run_garbage_collection now => h.retention_sweep EVENT_RETENTION_DAYS now
  | .prune_events before_days now => h.prune_events before_days now

def run (steps : List HistoryStep) : EventHistory := steps.foldl (step EVENT_RETENTION_DAYS) ∅

def rows (h : EventHistory) : List DBEvent := h.feed.stored ++ h.pruned

/-- Every id has been given out, from one on. -/
def Numbered (h : EventHistory) : Prop := ∀ e ∈ h.rows, 0 < e.id

variable {h : EventHistory}

theorem mem_rows {e : DBEvent} : e ∈ h.rows ↔ e ∈ h.feed.stored ∨ e ∈ h.pruned := List.mem_append

theorem delete_expired_rows {cutoff : Datetime} {e : DBEvent} (present : e ∈ (h.delete_expired cutoff).rows) : e ∈ h.rows := by
  simp only [mem_rows,EventFeed.stored,delete_expired,List.mem_append,List.mem_filter] at present ⊢
  tauto

theorem feed_rows {s : FeedStep} {e : DBEvent} (present : e ∈ ({h with feed := h.feed.step ⟨none,none,none⟩ s} : EventHistory).rows) :
    e ∈ h.rows ∨ e.id = h.feed.last_id + 1 := by
  cases mem_rows.mp present with
  | inr gone => exact .inl (mem_rows.mpr (.inr gone))
  | inl stored =>
    cases s with
    | flush t now project_id kind payload =>
      simp only [EventFeed.step,EventFeed.emit_event] at stored
      split at stored
      · simp only [EventFeed.stored,List.map_append,List.mem_append,List.map_cons,List.map_nil,List.mem_singleton] at stored
        rcases stored with old | old | fresh
        · exact .inl (mem_rows.mpr (.inl (List.mem_append_left _ old)))
        · exact .inl (mem_rows.mpr (.inl (List.mem_append_right _ old)))
        · exact .inr (by rw [fresh])
      · exact .inl (mem_rows.mpr (.inl stored))
    | commit t => exact .inl (mem_rows.mpr (.inl ((EventFeed.committed_perm ⟨none,none,none⟩ h.feed t).mem_iff.mp stored)))
    | rollback t => exact .inl (mem_rows.mpr (.inl ((EventFeed.without_sublist h.feed t).subset stored)))
    | begin t => exact .inl (mem_rows.mpr (.inl stored))
    | poll limit in_range => exact .inl (mem_rows.mpr (.inl stored))

theorem Numbered.step (numbered : h.Numbered) (s : HistoryStep) : (h.step EVENT_RETENTION_DAYS s).Numbered := by
  have swept : ∀ cutoff : Option Datetime, (cutoff.elim h h.delete_expired).Numbered := by
    intro cutoff
    cases cutoff with
    | none => exact numbered
    | some cutoff =>
      intro e present
      exact numbered e (delete_expired_rows present)
  cases s with
  | feed s =>
    intro e present
    cases feed_rows present with
    | inl old => exact numbered e old
    | inr fresh => omega
  | run_garbage_collection now => exact swept _
  | prune_events before_days now => exact swept _

theorem run_numbered (steps : List HistoryStep) : (run EVENT_RETENTION_DAYS steps).Numbered := by
  induction steps using List.reverseRecOn with
  | nil =>
    intro e present
    contradiction
  | append_singleton steps s ih =>
    unfold run
    rw [List.foldl_append]
    exact ih.step EVENT_RETENTION_DAYS s

/-- The events of a project that are gone and that a consumer at this position was not given. -/
def Gone (h : EventHistory) (project : String) (since : Int) : Prop := ∃ e ∈ h.pruned, e.project_id = some project ∧ since < e.id

/-- The newest event of a project that is gone, or zero. -/
def newest_pruned (h : EventHistory) (project : String) : Nat :=
  ((h.pruned.filter fun e => e.project_id = some project).map DBEvent.id).foldr max 0

/-- The oldest event that is left for a consumer of the project: of the project, or of none. -/
def oldest_retained (h : EventHistory) (project : String) : Option Nat :=
  ((h.feed.events.filter (EventQuery.in_project ⟨some project,none,none⟩)).map DBEvent.id).min?

theorem lt_foldr_max {ids : List Nat} {n : Nat} : n < ids.foldr max 0 ↔ ∃ id ∈ ids, n < id := by
  induction ids with
  | nil => simp
  | cons id rest ih => simp [ih]

theorem Numbered.gone_iff (numbered : h.Numbered) (project : String) (since : Int) :
    h.Gone project since ↔ position since < h.newest_pruned project := by
  unfold newest_pruned
  rw [lt_foldr_max]
  constructor
  · rintro ⟨e,gone,of_project,beyond⟩
    have positive := numbered e (mem_rows.mpr (.inr gone))
    apply Exists.intro e.id
    constructor
    · apply List.mem_map_of_mem
      exact List.mem_filter.mpr ⟨gone,decide_eq_true of_project⟩
    · unfold position
      omega
  · rintro ⟨id,among,beyond⟩
    obtain ⟨e,kept,rfl⟩ := List.mem_map.mp among
    obtain ⟨gone,of_project⟩ := List.mem_filter.mp kept
    refine ⟨e,gone,of_decide_eq_true of_project,?_⟩
    unfold position at beyond
    omega

/-- What is left tells of what is gone: a position before both the newest event of the project that is gone and the id
just before the oldest that is left, or before neither. With no position, or with nothing left, nothing must be gone. -/
def Tells (h : EventHistory) (project : String) (since : Nat) : Prop :=
  match h.oldest_retained project with
  | none => h.newest_pruned project ≤ since
  | some oldest => (since = 0 ∧ h.newest_pruned project = 0) ∨
      (0 < since ∧ (max (h.newest_pruned project) (oldest - 1) ≤ since ∨ since < min (h.newest_pruned project) (oldest - 1)))

theorem gap_eq (project : String) (kinds run_id : Option String) (since limit : Nat) :
    (list_events h.feed.events since ⟨some project,kinds,run_id⟩ limit).gap =
      (decide (0 < since) && (h.oldest_retained project).any fun oldest => decide (since < oldest - 1)) := by
  by_cases positive : 0 < since
  · simp only [list_events,if_pos positive,decide_eq_true positive,Bool.true_and]
    rfl
  · simp [list_events,positive]

/-- The gap is told exactly, for every history and every position, where what is left tells it. -/
theorem event_gap_exact_iff (steps : List HistoryStep) (project : String) (kinds run_id : Option String) (since : Int) (limit : Nat) :
    ((list_events (run EVENT_RETENTION_DAYS steps).feed.events (position since) ⟨some project,kinds,run_id⟩ limit).gap = true ↔
      (run EVENT_RETENTION_DAYS steps).Gone project since) ↔
    (run EVENT_RETENTION_DAYS steps).Tells project (position since) := by
  rw [gap_eq,(run_numbered EVENT_RETENTION_DAYS steps).gone_iff]
  unfold Tells
  cases (run EVENT_RETENTION_DAYS steps).oldest_retained project with
  | none => simp
  | some oldest =>
    simp only [Option.any_some,Bool.and_eq_true,decide_eq_true_eq]
    omega

/-- Every positive position is told right when nothing lies between what is gone and what is left. -/
theorem tells_of_adjacent {project : String} (adjacent : h.oldest_retained project = some (h.newest_pruned project + 1)) {since : Nat}
    (positive : 0 < since) : h.Tells project since := by
  unfold Tells
  rw [adjacent]
  right
  constructor
  · exact positive
  · change max (h.newest_pruned project) (h.newest_pruned project) ≤ since ∨
      since < min (h.newest_pruned project) (h.newest_pruned project)
    rw [max_self,min_self]
    exact le_or_gt _ _

section Swept

def next_day : Datetime := ⟨2026,2,2,0,0,0,0,rfl⟩

/-- Both events of the project are gone before the consumer comes back with the first one's id. -/
def swept : List HistoryStep := [.feed (.begin 1),.feed (.flush 1 EventFeed.midnight (some "p") "commit" none),
  .feed (.flush 1 EventFeed.midnight (some "p") "ref" none),.feed (.commit 1),.prune_events 0 next_day]

theorem swept_events_not_told : ¬ ∀ (EVENT_RETENTION_DAYS : Int) (steps : List HistoryStep) (project : String) (since : Int) (limit : Nat),
    ((list_events (run EVENT_RETENTION_DAYS steps).feed.events (position since) ⟨some project,none,none⟩ limit).gap = true ↔
      (run EVENT_RETENTION_DAYS steps).Gone project since) := by
  intro told_exactly
  have newest : (run 30 swept).newest_pruned "p" = 2 := by decide +kernel
  have gone : (run 30 swept).Gone "p" 1 := by
    rw [(run_numbered 30 swept).gone_iff,newest]
    decide
  have silent : (list_events (run 30 swept).feed.events (position 1) ⟨some "p",none,none⟩ 100).gap = false := by decide +kernel
  have told := (told_exactly 30 swept "p" 1 100).mpr gone
  rw [silent] at told
  contradiction

end Swept

end EventHistory

end AetherVault
