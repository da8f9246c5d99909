import AetherVault.AuditChain
import AetherVault.Lib.CursorPage

/-! The audit table: rows chained to the last one as they are flushed, the two prunes that
delete by age, and the check of the live chain. -/
namespace AetherVault
open Lib Hashing

structure DBAuditLog where
  id : Nat
  ts : Datetime
  username : Option String
  action : String
  project_id : Option String
  status_code : Option Nat
  details : Option Doc
  chain_hash : String
  signature : Option String

def audit_fields (ts : Datetime) (username : Option String) (action : String) (project_id : Option String)
    (status_code : Option Nat) (details : Option Doc) : AuditFields where
  ts := String.ofList ts.isoformat
  username := username.elim .null .string
  action := .string action
  project_id := project_id.elim .null .string
  status_code := status_code.elim .null natural
  details := details.elim .null fun doc => .dict doc.entries

def audit_row_dict (a : DBAuditLog) : ExportRow :=
  ⟨a.id,audit_fields a.ts a.username a.action a.project_id a.status_code a.details,a.chain_hash,a.signature⟩

/-- A row that `_audit` has made and that is not flushed yet; `now` is what the clock says
when it is. -/
structure PendingRow where
  chain_seq : Nat
  ts : Option Datetime
  now : Datetime
  username : Option String
  action : String
  project_id : Option String
  details : Option Doc
  status_code : Option Nat
  signature : Option String

/-- The table in the order of its ids. -/
structure AuditTable where
  rows : List DBAuditLog
  ordered : rows.Pairwise fun row next => row.id < next.id
  positive : ∀ row ∈ rows, 0 < row.id

instance : EmptyCollection AuditTable := ⟨⟨[],.nil,by simp⟩⟩

structure AuditConfig where
  AUDIT_ENABLED : Bool
  AUDIT_RETENTION_DAYS : Int

variable (H : Type) [Hashing H] [HexDigest H]

def chain_rows (sign : String → Option String) : Option String → Nat → List PendingRow → List DBAuditLog
  | _,_,[] => []
  | prev_hash,id,row::rest =>
    let ts := row.ts.getD row.now
    let chain_hash := compute_chain_hash H prev_hash
      (audit_fields ts row.username row.action row.project_id row.status_code row.details)
    ⟨id,ts,row.username,row.action,row.project_id,row.status_code,row.details,chain_hash,row.signature.or (sign chain_hash)⟩
      ::chain_rows sign (some chain_hash) (id + 1) rest

variable {H} in
theorem chain_rows_ids (sign : String → Option String) (prev_hash : Option String) (id : Nat) (new_rows : List PendingRow) :
    (chain_rows H sign prev_hash id new_rows).map DBAuditLog.id = List.range' id new_rows.length := by
  induction new_rows generalizing prev_hash id with
  | nil => rfl
  | cons row rest ih => simp [chain_rows,ih,List.range'_succ]

variable {H} in
theorem chain_rows_ordered (sign : String → Option String) (prev_hash : Option String) (id : Nat) (new_rows : List PendingRow) :
    (chain_rows H sign prev_hash id new_rows).Pairwise fun row next => row.id < next.id := by
  apply List.pairwise_map.mp
  rw [chain_rows_ids]
  exact List.pairwise_lt_range'

variable {H} in
theorem chain_rows_above (sign : String → Option String) (prev_hash : Option String) (id : Nat) (new_rows : List PendingRow)
    {row : DBAuditLog} (fresh : row ∈ chain_rows H sign prev_hash id new_rows) : id ≤ row.id := by
  have member := List.mem_map_of_mem (f := DBAuditLog.id) fresh
  rw [chain_rows_ids] at member
  exact (List.mem_range'_1.mp member).1

def last_id (rows : List DBAuditLog) : Nat := rows.getLast?.elim 0 DBAuditLog.id

/-- `_chain_audit_log` and the insertion; `ids_used` counts the ids that are gone with
transactions rolled back since the last row. -/
def AuditTable.flush (sign : String → Option String) (t : AuditTable) (ids_used : Nat) (new_rows : List PendingRow) : AuditTable where
  rows := t.rows ++ chain_rows H sign (t.rows.getLast?.map DBAuditLog.chain_hash) (last_id t.rows + ids_used + 1)
    (new_rows.insertionSort fun a b => a.chain_seq ≤ b.chain_seq)
  ordered := by
    apply List.pairwise_append.mpr
    constructor
    · exact t.ordered
    constructor
    · apply chain_rows_ordered
    · intro row present next fresh
      have below : row.id ≤ last_id t.rows := CursorPage.le_last t.ordered present
      have above := chain_rows_above _ _ _ _ fresh
      omega
  positive := by
    intro row member
    cases List.mem_append.mp member with
    | inl present => exact t.positive row present
    | inr fresh =>
      have above := chain_rows_above _ _ _ _ fresh
      omega

def expired (cutoff : Datetime) (row : DBAuditLog) : Bool := decide (row.ts.instant < cutoff.instant)

def AuditTable.delete_expired (t : AuditTable) (cutoff : Datetime) : AuditTable where
  rows := t.rows.filter fun row => !expired cutoff row
  ordered := t.ordered.filter _
  positive row kept := t.positive row (List.mem_of_mem_filter kept)

/-- `_audit` -/
def audit_rows (config : AuditConfig) (row : PendingRow) : List PendingRow := if config.AUDIT_ENABLED then [row] else []

structure Pruned where
  deleted : Nat
  would_delete : Option Nat
  dry_run : Bool

/-- `prune_audit_log`; `none` where the cutoff overflows. -/
def prune_audit_log (config : AuditConfig) (sign : String → Option String) (identity : Option String) (before_days : Nat)
    (dry_run : Bool) (now later : Datetime) (chain_seq ids_used : Nat) (t : AuditTable) : Option (AuditTable × Pruned) :=
  (now.minus_days before_days).map fun cutoff =>
    let deleted := t.rows.countP (expired cutoff)
    if dry_run then (t,⟨0,some deleted,true⟩)
    else ((t.delete_expired cutoff).flush H sign ids_used (audit_rows config ⟨chain_seq,none,later,identity,"audit.prune",none,
      some (Dict.ofList [("deleted",natural deleted),("before_days",natural before_days)]),some 200,none⟩),⟨deleted,none,false⟩)

/-- The retention step of `run_garbage_collection`, and the audit row after it. -/
def retention_sweep (config : AuditConfig) (sign : String → Option String) (now : Datetime) (ids_used : Nat) (row : PendingRow)
    (t : AuditTable) : Option AuditTable :=
  (now.minus_days config.AUDIT_RETENTION_DAYS).map fun audit_cutoff =>
    (t.delete_expired audit_cutoff).flush H sign ids_used (audit_rows config row)

/-- `GET /api/admin/audit/verify`; `none` for a 404. -/
def verify_audit_chain (signing : AuditSigning) (since_id limit : Nat) (t : AuditTable) : Option AuditReport :=
  let prev_hash := if since_id = 0 then some none else (t.rows.find? fun row => row.id = since_id).map fun row => some row.chain_hash
  let rows := t.rows.filter fun row => since_id < row.id
  prev_hash.map fun prev_hash => walk_chain H signing.verify signing.public_key_hex prev_hash
    ⟨true,if since_id = 0 then none else some since_id,0,⟨0,0,0⟩⟩
    ((if limit = 0 then rows else rows.take limit).map audit_row_dict)

/-! What a run does to the table. -/

inductive AuditCall
  | audited (ids_used : Nat) (new_rows : List PendingRow)
  | prune_audit_log (identity : Option String) (before_days : Nat) (dry_run : Bool) (now later : Datetime) (chain_seq ids_used : Nat)
  | run_garbage_collection (now : Datetime) (ids_used : Nat) (row : PendingRow)

variable (config : AuditConfig) (signing : AuditSigning)

def AuditCall.apply (t : AuditTable) : AuditCall → AuditTable
  | audited ids_used new_rows => t.flush H signing.sign ids_used new_rows
  | prune_audit_log identity before_days dry_run now later chain_seq ids_used =>
    (AetherVault.prune_audit_log H config signing.sign identity before_days dry_run now later chain_seq ids_used t).elim t Prod.fst
  | run_garbage_collection now ids_used row => (retention_sweep H config signing.sign now ids_used row t).getD t

/-- The cutoff of the rows that a call deletes. -/
def AuditCall.cutoff : AuditCall → Option Datetime
  | audited _ _ => none
  | prune_audit_log _ before_days dry_run now _ _ _ => if dry_run then none else now.minus_days before_days
  | run_garbage_collection now _ _ => now.minus_days config.AUDIT_RETENTION_DAYS

/-- Every row after one that is deleted is deleted too. -/
def AuditCall.Trims (t : AuditTable) (call : AuditCall) : Prop :=
  ∀ cutoff ∈ call.cutoff config, t.rows.Pairwise fun row next => expired cutoff row → expired cutoff next

/-- The check answers for the whole table and after any row of it, to any length, and finds
no break. -/
def AuditTable.Intact (t : AuditTable) : Prop := ∀ since_id limit : Nat, since_id = 0 ∨ since_id ∈ t.rows.map DBAuditLog.id →
  ∃ report, verify_audit_chain H signing since_id limit t = some report ∧ report.ok = true

/-- The tables after the runs all of whose calls trim. -/
inductive TrimmedRun : AuditTable → Prop
  | start : TrimmedRun ∅
  | next {t : AuditTable} (call : AuditCall) : TrimmedRun t → call.Trims config t → TrimmedRun (call.apply H config signing t)

def AuditTable.Chained (t : AuditTable) : Prop := AetherVault.Chained H none (t.rows.map audit_row_dict)


variable {H}

theorem chain_rows_chained (sign : String → Option String) (prev_hash : Option String) (id : Nat) (new_rows : List PendingRow) :
    AetherVault.Chained H prev_hash ((chain_rows H sign prev_hash id new_rows).map audit_row_dict) := by
  induction new_rows generalizing prev_hash id with
  | nil => trivial
  | cons row rest ih => exact ⟨rfl,ih _ _⟩

theorem flush_nil (sign : String → Option String) (t : AuditTable) (ids_used : Nat) : t.flush H sign ids_used [] = t := by
  cases t
  simp [AuditTable.flush,chain_rows]

theorem flush_chained_iff (sign : String → Option String) (t : AuditTable) (ids_used : Nat) (new_rows : List PendingRow) :
    (t.flush H sign ids_used new_rows).Chained H ↔ t.Chained H := by
  have last_hash : HashChain.last ExportRow.chain_hash none (t.rows.map audit_row_dict) = t.rows.getLast?.map DBAuditLog.chain_hash := by
    simp [HashChain.last,List.getLast?_map,Function.comp_def,audit_row_dict]
  unfold AuditTable.Chained AetherVault.Chained AuditTable.flush
  rw [List.map_append,HashChain.linked_append,last_hash]
  exact and_iff_left (chain_rows_chained sign _ _ _)

theorem delete_expired_chained {t : AuditTable} {cutoff : Datetime} (chained : t.Chained H)
    (trims : t.rows.Pairwise fun row next => expired cutoff row → expired cutoff next) : (t.delete_expired cutoff).Chained H := by
  have first := (HashChain.filter_prefix_iff (expired cutoff) t.rows).mpr trims
  exact HashChain.Linked.of_prefix _ _ chained (first.map audit_row_dict)

theorem AuditCall.apply_eq (t : AuditTable) (call : AuditCall) : ∃ ids_used new_rows, call.apply H config signing t =
    ((call.cutoff config).elim t t.delete_expired).flush H signing.sign ids_used new_rows := by
  cases call with
  | audited ids_used new_rows => exact ⟨ids_used,new_rows,rfl⟩
  | prune_audit_log identity before_days dry_run now later chain_seq ids_used =>
    simp only [apply,cutoff,AetherVault.prune_audit_log]
    cases now.minus_days before_days with
    | none =>
      rw [ite_self]
      exact ⟨0,[],(flush_nil signing.sign t 0).symm⟩
    | some at_day =>
      cases dry_run with
      | true => exact ⟨0,[],(flush_nil signing.sign t 0).symm⟩
      | false => exact ⟨ids_used,_,rfl⟩
  | run_garbage_collection now ids_used row =>
    simp only [apply,cutoff,retention_sweep]
    cases now.minus_days config.AUDIT_RETENTION_DAYS with
    | none => exact ⟨0,[],(flush_nil signing.sign t 0).symm⟩
    | some at_day => exact ⟨ids_used,_,rfl⟩

theorem AuditCall.apply_chained {t : AuditTable} {call : AuditCall} (chained : t.Chained H) (trims : call.Trims config t) :
    (call.apply H config signing t).Chained H := by
  obtain ⟨ids_used,new_rows,applied⟩ := call.apply_eq (H := H) config signing t
  rw [applied,flush_chained_iff]
  cases cutoff : call.cutoff config with
  | none => exact chained
  | some at_day => exact delete_expired_chained chained (trims at_day cutoff)

theorem TrimmedRun.chained {t : AuditTable} (run : TrimmedRun H config signing t) : t.Chained H := by
  induction run with
  | start => trivial
  | next call _ trims ih => exact call.apply_chained config signing ih trims

theorem rows_after {rows : List DBAuditLog} (ordered : rows.Pairwise fun row next => row.id < next.id) {row : DBAuditLog}
    (present : row ∈ rows) : ∃ before after, rows = before ++ row::after ∧
      rows.find? (fun other => other.id = row.id) = some row ∧ rows.filter (fun other => row.id < other.id) = after := by
  obtain ⟨before,after,rfl⟩ := List.append_of_mem present
  obtain ⟨-,tail,across⟩ := List.pairwise_append.mp ordered
  have earlier : ∀ other ∈ before, other.id < row.id := fun other member => across other member row List.mem_cons_self
  have later : ∀ other ∈ after, row.id < other.id := (List.pairwise_cons.mp tail).1
  have none_before : before.find? (fun other => other.id = row.id) = none := by
    apply List.find?_eq_none.mpr
    intro other member same
    have less := earlier other member
    simp at same
    omega
  have none_kept : before.filter (fun other => row.id < other.id) = [] := by
    apply List.filter_eq_nil_iff.mpr
    intro other member kept
    have less := earlier other member
    simp at kept
    omega
  have all_kept : after.filter (fun other => row.id < other.id) = after := by
    apply List.filter_eq_self.mpr
    intro other member
    exact decide_eq_true (later other member)
  exact ⟨before,after,rfl,by simp [none_before],by simp [none_kept,all_kept]⟩

theorem intact_of_chained {t : AuditTable} (chained : t.Chained H) : t.Intact H signing := by
  intro since_id limit asked
  -- the rows that are walked are a beginning of those after `since_id`
  have walked : ∀ (prev_hash : Option String) (rows : List DBAuditLog) (so_far : AuditReport), so_far.ok = true →
      AetherVault.Chained H prev_hash (rows.map audit_row_dict) →
      (walk_chain H signing.verify signing.public_key_hex prev_hash so_far
        ((if limit = 0 then rows else rows.take limit).map audit_row_dict)).ok = true := by
    intro prev_hash rows so_far fine linked
    apply (walk_chain_ok _ _ _ _ fine _).mpr
    apply HashChain.Linked.of_prefix _ _ linked
    split
    · exact List.prefix_rfl
    · exact (List.take_prefix limit rows).map audit_row_dict
  by_cases genesis : since_id = 0
  · subst since_id
    have all : t.rows.filter (fun row => 0 < row.id) = t.rows := by
      apply List.filter_eq_self.mpr
      intro row present
      exact decide_eq_true (t.positive row present)
    simp only [verify_audit_chain,if_true,all]
    exact ⟨_,rfl,walked none t.rows _ rfl chained⟩
  · obtain ⟨row,present,rfl⟩ := List.mem_map.mp (asked.resolve_left genesis)
    obtain ⟨before,after,split,found,rest⟩ := rows_after t.ordered present
    have linked : AetherVault.Chained H (some row.chain_hash) (after.map audit_row_dict) := by
      unfold AuditTable.Chained at chained
      rw [split,List.map_append] at chained
      exact ((HashChain.linked_append _ _ _ _ _).mp chained).2.2
    simp only [verify_audit_chain,if_neg genesis,found,rest]
    exact ⟨_,rfl,walked _ _ _ rfl linked⟩

theorem chained_of_intact {t : AuditTable} (intact : t.Intact H signing) : t.Chained H := by
  obtain ⟨report,answer,ok⟩ := intact 0 0 (.inl rfl)
  have all : t.rows.filter (fun row => 0 < row.id) = t.rows := by
    apply List.filter_eq_self.mpr
    intro row present
    exact decide_eq_true (t.positive row present)
  simp only [verify_audit_chain,if_true,all,Option.map_some,Option.some.injEq] at answer
  subst answer
  exact (walk_chain_ok _ _ _ _ rfl _).mp ok

/-- A call keeps an intact log intact exactly when it trims. -/
theorem intact_after_iff (injective : Function.Injective (sha256 : Bytes → H)) {t : AuditTable} (intact : t.Intact H signing)
    (call : AuditCall) : (call.apply H config signing t).Intact H signing ↔ call.Trims config t := by
  have chained := chained_of_intact signing intact
  obtain ⟨ids_used,new_rows,applied⟩ := call.apply_eq (H := H) config signing t
  constructor
  · intro still cutoff given
    have kept := chained_of_intact signing still
    rw [applied,flush_chained_iff,given] at kept
    have binds : ∀ (prev : Option String) (row : DBAuditLog) (prev' : Option String) (row' : DBAuditLog),
        compute_chain_hash H prev (audit_row_dict row).fields = compute_chain_hash H prev' (audit_row_dict row').fields →
        prev = prev' ∧ (audit_row_dict row).fields.Agrees (audit_row_dict row').fields :=
      fun _ _ _ _ same => compute_chain_hash_binds injective _ _ _ _ same
    have linked := (HashChain.linked_map _ _ audit_row_dict none t.rows).mp chained
    have linked_kept := (HashChain.linked_map _ _ audit_row_dict none (t.delete_expired cutoff).rows).mp kept
    apply (HashChain.filter_prefix_iff (expired cutoff) t.rows).mp
    exact (HashChain.Linked.kept_iff binds linked List.filter_sublist).mp linked_kept
  · intro trims
    exact intact_of_chained signing (call.apply_chained config signing chained trims)

section Pruned

def unsigned : AuditSigning := ⟨fun _ => none,none,fun _ _ _ => false⟩

def january_second : Datetime := ⟨2026,1,2,0,0,0,0,rfl⟩

def pushed (now : Datetime) : PendingRow := ⟨0,none,now,some "ada","commit.push",none,none,some 201,none⟩

def two_pushes : List AuditCall := [.audited 0 [pushed ⟨2026,1,1,0,0,0,0,rfl⟩],.audited 0 [pushed january_second]]

def prune_both : AuditCall := .prune_audit_log none 0 false ⟨2026,1,3,0,0,0,0,rfl⟩ ⟨2026,1,3,0,0,0,0,rfl⟩ 1 0

def prune_first : AuditCall := .prune_audit_log none 0 false january_second january_second 1 0

theorem two_pushes_run : TrimmedRun Name ⟨true,90⟩ unsigned (two_pushes.foldl (AuditCall.apply Name ⟨true,90⟩ unsigned) ∅) := by
  apply TrimmedRun.next (.audited 0 [pushed january_second])
  · apply TrimmedRun.next (.audited 0 [pushed _]) .start
    intro cutoff given
    contradiction
  · intro cutoff given
    contradiction

end Pruned

end AetherVault
