import AetherVault.Lib.CodePoints
import AetherVault.Lib.Datetime
import AetherVault.Lib.JsonReader
import AetherVault.Lib.KeysetWalk
import AetherVault.Lib.UrlText
import Mathlib.Data.Prod.Lex
import Mathlib.Tactic.IntervalCases

/-! The metric series of a run page by page (`get_run_metrics`): its commits in the order they were linked,
with cursors that name a time and a commit. -/
namespace AetherVault.RunPaging

open Lib Lib.UrlText

/-- A text column; the database's collation orders it. -/
structure Collated where
  text : List Char
  deriving DecidableEq

structure DBRunCommit where
  run_id : String
  commit_hash : Collated
  created_at : Datetime
  ascii : ∀ c ∈ commit_hash.text, c.toNat < 0x80

/-- A commit is linked to a run once. -/
structure RunTables (C : Type) where
  runs : List String
  run_commits : List DBRunCommit
  commits : Collated → Option C
  primary : (run_commits.map fun link => (link.run_id,link.commit_hash)).Nodup

def _RUN_METRICS_MAX_LIMIT : Int := 500

def ascii_bytes (text : List Char) : List UInt8 := text.map fun c => UInt8.ofNat c.toNat

def _encode_run_commit_cursor (created_at : Datetime) (commit_hash : Collated) : List Char :=
  encode_cursor (ascii_bytes (created_at.isoformat ++ '|'::commit_hash.text))

/-- `split("|", 1)`, when there is one. -/
def split_bar : List Char → Option (List Char × List Char)
  | [] => none
  | c::rest => if c = '|' then some ([],rest) else (split_bar rest).map fun parts => (c::parts.1,parts.2)

/-- `none` for a 422; of the times, the forms that `isoformat` writes. -/
def _decode_run_commit_cursor (cursor : List Char) : Option (Datetime × Collated) :=
  (decode_cursor cursor).bind fun bytes => (JsonReader.decode_utf8 bytes).bind fun raw => (split_bar raw).bind fun parts =>
    (Datetime.fromisoformat parts.1).bind fun read => if read.2 = none then some (read.1,⟨parts.2⟩) else none

/-- A character of a time's text. -/
def Timely (c : Char) : Prop := c ≠ '|' ∧ c.toNat < 0x80

theorem digit_timely (n : Nat) : Timely (n % 10).digitChar := by
  have small : n % 10 < 10 := Nat.mod_lt _ (by decide)
  rw [Timely]
  interval_cases n % 10 <;> decide

theorem padded_timely (width n : Nat) : ∀ c ∈ Datetime.padded width n, Timely c := by
  induction width with
  | zero => exact fun c among => absurd among List.not_mem_nil
  | succ width ih =>
    rw [Datetime.padded]
    exact List.forall_mem_cons.mpr ⟨digit_timely _,ih⟩

theorem isoformat_timely (d : Datetime) : ∀ c ∈ d.isoformat, Timely c := by
  have dash : Timely '-' := ⟨by decide,by decide⟩
  have colon : Timely ':' := ⟨by decide,by decide⟩
  have mark : Timely 'T' := ⟨by decide,by decide⟩
  have fraction : ∀ c ∈ Datetime.fraction d.microsecond, Timely c := by
    rw [Datetime.fraction]
    split
    · exact fun c among => absurd among List.not_mem_nil
    · exact List.forall_mem_cons.mpr ⟨⟨by decide,by decide⟩,padded_timely _ _⟩
  simp only [Datetime.isoformat,List.forall_mem_append,List.forall_mem_cons]
  have part (width n : Nat) : ∀ c ∈ Datetime.padded width n, Timely c := padded_timely width n
  exact ⟨⟨⟨⟨⟨⟨part _ _,dash,part _ _⟩,dash,part _ _⟩,mark,part _ _⟩,colon,part _ _⟩,colon,part _ _⟩,fraction⟩

theorem split_bar_at {front : List Char} (clear : ∀ c ∈ front, Timely c) (rest : List Char) :
    split_bar (front ++ '|'::rest) = some (front,rest) := by
  induction front with
  | nil => rfl
  | cons c front ih =>
    obtain ⟨first,more⟩ := List.forall_mem_cons.mp clear
    rw [List.cons_append,split_bar,if_neg first.1,ih more]
    rfl

theorem run_cursor_read (created_at : Datetime) {commit_hash : Collated} (ascii : ∀ c ∈ commit_hash.text, c.toNat < 0x80) :
    _decode_run_commit_cursor (_encode_run_commit_cursor created_at commit_hash) = some (created_at,commit_hash) := by
  have whole : ∀ c ∈ created_at.isoformat ++ '|'::commit_hash.text, c.toNat < 0x80 := by
    rw [List.forall_mem_append,List.forall_mem_cons]
    exact ⟨fun c among => (isoformat_timely created_at c among).2,by decide,ascii⟩
  rw [_decode_run_commit_cursor,_encode_run_commit_cursor,decode_encode_cursor,Option.bind_some,ascii_bytes,
    JsonReader.decode_utf8_ascii _ whole,Option.bind_some,split_bar_at (isoformat_timely created_at),Option.bind_some]
  dsimp only
  rw [Datetime.fromisoformat_isoformat,Option.bind_some,if_pos rfl]

theorem run_cursor_ne_nil (created_at : Datetime) {commit_hash : Collated} (ascii : ∀ c ∈ commit_hash.text, c.toNat < 0x80) :
    _encode_run_commit_cursor created_at commit_hash ≠ [] := by
  intro empty
  have read := run_cursor_read created_at ascii
  have unread : _decode_run_commit_cursor [] = none := by decide
  rw [empty,unread] at read
  contradiction

variable [LinearOrder Collated] {C : Type}

/-- `ORDER BY created_at, commit_hash` -/
def place (created_at : Datetime) (commit_hash : Collated) : Nat ×ₗ Collated := toLex (created_at.instant,commit_hash)

def key (row : DBRunCommit × C) : Nat ×ₗ Collated := place row.1.created_at row.1.commit_hash

/-- The commits of the run that are still there. -/
def joined (t : RunTables C) (run_id : String) : List (DBRunCommit × C) :=
  (t.run_commits.filter fun link => link.run_id = run_id).filterMap fun link => (t.commits link.commit_hash).map (link,·)

structure MetricsPage (C : Type) where
  points : List (DBRunCommit × C)
  limit : Nat
  next_cursor : Option (List Char)

def page_after (rows : List (DBRunCommit × C)) (limit : Nat) (cursor : Option (List Char)) :
    Except Nat (List (DBRunCommit × C)) :=
  match cursor.filter (· ≠ []) with
  | none => .ok ((rows.insertionSort fun a b => key a ≤ key b).take limit)
  | some text => match _decode_run_commit_cursor text with
    | none => .error 422
    | some last => .ok (((rows.filter fun row => place last.1 last.2 < key row).insertionSort fun a b => key a ≤ key b).take limit)

/-- `max(1, min(limit, _RUN_METRICS_MAX_LIMIT))` -/
def asked (limit : Int) : Nat := (max 1 (min limit _RUN_METRICS_MAX_LIMIT)).toNat

def get_run_metrics (t : RunTables C) (run_id : String) (limit : Int) (cursor : Option (List Char)) : Except Nat (MetricsPage C) :=
  if run_id ∈ t.runs then
    (page_after (joined t run_id) (asked limit) cursor).map fun points =>
      ⟨points,asked limit,if points.length = asked limit then
        points.getLast?.map fun row => _encode_run_commit_cursor row.1.created_at row.1.commit_hash else none⟩
  else .error 404

/-- A reader who asks again with every `next_cursor`; each request finds tables of its own. -/
def follow (run_id : String) (limit : Int) : List (RunTables C) → Option (List Char) → List (List (DBRunCommit × C))
  | [],_ => []
  | t::later,cursor => match get_run_metrics t run_id limit cursor with
    | .error _ => []
    | .ok page => page.points::match page.next_cursor with
      | none => []
      | some next => follow run_id limit later (some next)

omit [LinearOrder Collated] in
theorem asked_room (limit : Int) : 0 < asked limit := by
  have low : 1 ≤ max 1 (min limit _RUN_METRICS_MAX_LIMIT) := le_max_left ..
  rw [asked]
  omega

/-- The row a cursor was made for. -/
structure Bookmark where
  created_at : Datetime
  commit_hash : Collated
  ascii : ∀ c ∈ commit_hash.text, c.toNat < 0x80

def Bookmark.key (mark : Bookmark) : Nat ×ₗ Collated := place mark.created_at mark.commit_hash

def Bookmark.text (mark : Bookmark) : List Char := _encode_run_commit_cursor mark.created_at mark.commit_hash

theorem page_after_walk (rows : List (DBRunCommit × C)) (limit : Nat) (after : Option Bookmark) :
    page_after rows limit (after.map Bookmark.text) = .ok (KeysetWalk.page key rows (after.map Bookmark.key) limit) := by
  cases after with
  | none =>
    have all : rows.filter (fun row => KeysetWalk.beyond (none : Option (Nat ×ₗ Collated)) (key row)) = rows :=
      List.filter_true rows
    rw [Option.map_none,Option.map_none,KeysetWalk.page,KeysetWalk.listing,all]
    rfl
  | some mark =>
    have kept : ((some mark).map Bookmark.text).filter (· ≠ []) = some mark.text := by
      simp [Option.filter,Bookmark.text,run_cursor_ne_nil mark.created_at mark.ascii]
    rw [page_after,kept]
    dsimp only
    rw [Bookmark.text,run_cursor_read mark.created_at mark.ascii]
    rfl

theorem follow_walk (run_id : String) (limit : Int) {tables : List (RunTables C)} (there : ∀ t ∈ tables, run_id ∈ t.runs)
    (after : Option Bookmark) :
    follow run_id limit tables (after.map Bookmark.text) =
      KeysetWalk.walk key (asked limit) (tables.map fun t => joined t run_id) (after.map Bookmark.key) := by
  induction tables generalizing after with
  | nil => rfl
  | cons t later ih =>
    obtain ⟨here,elsewhere⟩ := List.forall_mem_cons.mp there
    have page : get_run_metrics t run_id limit (after.map Bookmark.text) =
        .ok ⟨KeysetWalk.page key (joined t run_id) (after.map Bookmark.key) (asked limit),asked limit,
          if (KeysetWalk.page key (joined t run_id) (after.map Bookmark.key) (asked limit)).length = asked limit then
            (KeysetWalk.page key (joined t run_id) (after.map Bookmark.key) (asked limit)).getLast?.map fun row =>
              _encode_run_commit_cursor row.1.created_at row.1.commit_hash else none⟩ := by
      rw [get_run_metrics,if_pos here,page_after_walk]
      rfl
    rw [follow,page,List.map_cons,KeysetWalk.walk]
    dsimp only
    refine congrArg _ ?_
    by_cases full : (KeysetWalk.page key (joined t run_id) (after.map Bookmark.key) (asked limit)).length = asked limit
    · obtain ⟨last,final⟩ := KeysetWalk.full_last (asked_room limit) full
      rw [if_pos full,if_pos full,final]
      exact ih elsewhere (some ⟨last.1.created_at,last.1.commit_hash,last.1.ascii⟩)
    · rw [if_neg full,if_neg full]

omit [LinearOrder Collated] in
theorem joined_distinct (t : RunTables C) (run_id : String) : ((joined t run_id).map key).Nodup := by
  have apart := t.primary.sublist ((List.filter_sublist (p := fun link => link.run_id = run_id)).map _)
  refine List.pairwise_map.mpr (List.pairwise_filterMap.mpr ?_)
  refine (List.pairwise_map.mp apart).imp_of_mem fun {a b} first second differ row found row' found' same => differ ?_
  obtain ⟨commit,-,rfl⟩ := Option.map_eq_some_iff.mp found
  obtain ⟨commit',-,rfl⟩ := Option.map_eq_some_iff.mp found'
  have mine : a.run_id = run_id := by simpa using List.of_mem_filter first
  have also : b.run_id = run_id := by simpa using List.of_mem_filter second
  have hash : a.commit_hash = b.commit_hash := congrArg (fun at_ => (ofLex at_).2) same
  rw [mine,also,hash]

/-- Following the cursors gives the run's commits in the order they were linked, none twice, while commits
are linked and pruned; a walk that ends has every one that was there all along. -/
theorem metrics_walk (run_id : String) (limit : Int) {tables : List (RunTables C)} (there : ∀ t ∈ tables, run_id ∈ t.runs) :
    (follow run_id limit tables none).flatten.Pairwise (fun a b => key a < key b) ∧
      (∀ row ∈ (follow run_id limit tables none).flatten, ∃ t ∈ tables, row ∈ joined t run_id) ∧
      (KeysetWalk.Finished (asked limit) (follow run_id limit tables none) → ∀ at_,
        (∀ t ∈ tables, ∃ row ∈ joined t run_id, key row = at_) →
          ∃ row ∈ (follow run_id limit tables none).flatten, key row = at_) := by
  have walk := follow_walk run_id limit there none
  rw [Option.map_none,Option.map_none] at walk
  have distinct (rows : List (DBRunCommit × C)) (among : rows ∈ tables.map fun t => joined t run_id) :
      (rows.map key).Nodup := by
    obtain ⟨t,-,rfl⟩ := List.mem_map.mp among
    exact joined_distinct t run_id
  rw [walk]
  refine ⟨KeysetWalk.walk_ordered (asked_room limit) distinct,fun row shown => ?_,fun finished at_ stays => ?_⟩
  · obtain ⟨rows,among,present⟩ := KeysetWalk.walk_source shown
    obtain ⟨t,inside,rfl⟩ := List.mem_map.mp among
    exact ⟨t,inside,present⟩
  · refine List.mem_map.mp (KeysetWalk.walk_complete distinct finished rfl fun rows among => ?_)
    obtain ⟨t,inside,rfl⟩ := List.mem_map.mp among
    exact List.mem_map.mpr (stays t inside)

def linked (second : Nat) (valid : datetime_valid 2026 1 1 0 0 second 0 = true) : DBRunCommit :=
  ⟨"r",⟨['a','b']⟩,⟨2026,1,1,0,0,second,0,valid⟩,by simp⟩

def one_linked : RunTables Unit := ⟨["r"],[linked 5 rfl],fun _ => some (),by simp⟩

omit [LinearOrder Collated] in
/-- In the order of the code points. -/
theorem metrics_walk_binary : ∃ _ : LinearOrder Collated,
    (follow "r" 1 [one_linked,one_linked] none).flatten.Pairwise (fun a b => key a < key b) ∧
      (∀ row ∈ (follow "r" 1 [one_linked,one_linked] none).flatten, ∃ t ∈ [one_linked,one_linked], row ∈ joined t "r") ∧
      (KeysetWalk.Finished (asked 1) (follow "r" 1 [one_linked,one_linked] none) → ∀ at_,
        (∀ t ∈ [one_linked,one_linked], ∃ row ∈ joined t "r", key row = at_) →
          ∃ row ∈ (follow "r" 1 [one_linked,one_linked] none).flatten, key row = at_) := by
  have injective : Function.Injective Collated.text := fun a b same => by cases a; cases b; exact congrArg Collated.mk same
  have there (t : RunTables Unit) (among : t ∈ [one_linked,one_linked]) : "r" ∈ t.runs := by
    have same : t = one_linked := by simpa using among
    rw [same]
    exact List.mem_singleton_self _
  exact ⟨LinearOrder.lift' Collated.text injective,@metrics_walk (LinearOrder.lift' Collated.text injective) _ "r" 1 _ there⟩

end AetherVault.RunPaging
