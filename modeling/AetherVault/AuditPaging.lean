import AetherVault.AuditLog
import AetherVault.Lib.CodePoints
import AetherVault.Lib.JsonReader
import AetherVault.Lib.KeysetWalk
import AetherVault.Lib.UrlText
import Mathlib.Order.OrderDual

/-! The audit log page by page (`get_audit_log`): its filters, the cursors it hands out as text, and what a
reader who follows them gets while rows are written and pruned. -/
namespace AetherVault.AuditPaging

open Lib Lib.UrlText

/-! `LIKE`. -/

/-- A pattern with the escape character `\\`. -/
def like : List Char → List Char → Bool
  | [],text => text.isEmpty
  | c::pattern,text =>
    if c = '%' then text.tails.any (like pattern)
    else if c = '_' then !text.isEmpty && like pattern text.tail
    else if c = '\\' then match pattern with
      | [] => false
      | d::rest => decide (text.head? = some d) && like rest text.tail
    else decide (text.head? = some c) && like pattern text.tail

def replace (c : Char) (new text : List Char) : List Char := text.flatMap fun x => if x = c then new else [x]

/-- The wildcards of the user's own prefix escaped. -/
def escaped (action_prefix_ : List Char) : List Char :=
  replace '_' ['\\','_'] (replace '%' ['\\','%'] (replace '\\' ['\\','\\'] action_prefix_))

def escape_char (c : Char) : List Char := if c = '\\' ∨ c = '%' ∨ c = '_' then ['\\',c] else [c]

theorem escaped_eq (action_prefix_ : List Char) : escaped action_prefix_ = action_prefix_.flatMap escape_char := by
  rw [escaped,replace,replace,replace,List.flatMap_assoc,List.flatMap_assoc]
  refine List.flatMap_congr fun c _ => ?_
  rw [escape_char]
  by_cases back : c = '\\'
  · subst back
    rfl
  · by_cases percent : c = '%'
    · subst percent
      rfl
    · by_cases low : c = '_'
      · subst low
        rfl
      · simp [back,percent,low]

theorem like_escape_char (c : Char) (pattern text : List Char) :
    like (escape_char c ++ pattern) text = (decide (text.head? = some c) && like pattern text.tail) := by
  rw [escape_char]
  split
  · rfl
  · rename_i plain
    obtain ⟨back,plain⟩ := not_or.mp plain
    obtain ⟨percent,low⟩ := not_or.mp plain
    simp only [List.singleton_append,like.eq_def (c::pattern),percent,low,back,↓reduceIte]

/-- An escaped prefix with a wildcard after it finds the actions that begin with the prefix, and no others. -/
theorem like_escaped (action_prefix_ text : List Char) :
    like (escaped action_prefix_ ++ ['%']) text = true ↔ action_prefix_ <+: text := by
  rw [escaped_eq]
  induction action_prefix_ generalizing text with
  | nil =>
    refine iff_of_true ?_ List.nil_prefix
    rw [List.flatMap_nil,List.nil_append,like,if_pos rfl,List.any_eq_true]
    exact ⟨[],(List.mem_tails ..).mpr List.nil_suffix,rfl⟩
  | cons c rest ih =>
    rw [List.flatMap_cons,List.append_assoc,like_escape_char,Bool.and_eq_true,decide_eq_true_eq,ih]
    cases text with
    | nil => simp
    | cons first text =>
      rw [List.head?_cons,Option.some.injEq,List.tail_cons,List.cons_prefix_cons,eq_comm]

/-! One request. -/

structure AuditFilters where
  project_id : Option String
  action : Option String
  action_prefix_ : Option String
  username : Option String
  status_code : Option Int
  outcome : Option String
  since : Option String
  until_ : Option String

/-- An empty text stands for none. -/
def given (text : Option String) : Option String := text.filter (· ≠ "")

def same (wanted : Option String) (held : Option String) : Bool := (given wanted).all fun text => held = some text

/-- `column.like(f"{escaped}%", escape="\\")` -/
def begins (wanted : Option String) (held : String) : Bool :=
  (given wanted).all fun text => like (escaped text.toList ++ ['%']) held.toList

def _outcome (outcome : Option String) : Except Nat (Option Nat → Bool) :=
  match given outcome with
  | none => .ok fun _ => true
  | some text =>
    if text = "ok" then .ok fun status => status.any (· < 400)
    else if text = "error" then .ok fun status => status.any (400 ≤ ·)
    else .error 422

/-- A bound on the time, as `_parse_iso_dt` reads it. -/
def _bound (_parse_iso_dt : String → Except Nat Datetime) (text : Option String) : Except Nat (Option Datetime) :=
  match given text with
  | none => .ok none
  | some text => (_parse_iso_dt text).map some

def _apply_audit_filters (_parse_iso_dt : String → Except Nat Datetime) (f : AuditFilters) : Except Nat (DBAuditLog → Bool) := do
  let outcome ← _outcome f.outcome
  let since ← _bound _parse_iso_dt f.since
  let until_ ← _bound _parse_iso_dt f.until_
  .ok fun a => same f.project_id a.project_id && same f.action (some a.action) && begins f.action_prefix_ a.action &&
    same f.username a.username && f.status_code.all (fun code => a.status_code.map Int.ofNat = some code) &&
    outcome a.status_code && since.all (fun cutoff => decide (cutoff.instant ≤ a.ts.instant)) &&
    until_.all (fun cutoff => decide (a.ts.instant ≤ cutoff.instant))

def _encode_id_cursor (row_id : Nat) : List Char :=
  encode_cursor ((CodePoints.lit "id:" ++ CodePoints.decimal row_id).map UInt8.ofNat)

/-- `none` for a 422. -/
def _decode_id_cursor (decimals : CodePoints.Decimals) (cursor : List Char) : Option Int :=
  (decode_cursor cursor).bind fun bytes => (JsonReader.decode_utf8 bytes).bind fun raw =>
    let text := raw.map Char.toNat
    if CodePoints.lit "id:" <+: text then CodePoints.int decimals (text.drop 3) else none

structure AuditPage where
  entries : List DBAuditLog
  total : Nat
  limit : Nat
  offset : Nat
  next_cursor : Option (List Char)

structure Reading where
  decimals : CodePoints.Decimals
  _parse_iso_dt : String → Except Nat Datetime

def newest_first (rows : List DBAuditLog) : List DBAuditLog := rows.insertionSort fun a b => b.id ≤ a.id

def page_rows (reading : Reading) (found : List DBAuditLog) (limit offset : Nat) (cursor : Option (List Char)) :
    Except Nat (List DBAuditLog) :=
  match cursor.filter (· ≠ []) with
  | none => .ok (((newest_first found).drop offset).take limit)
  | some text => match _decode_id_cursor reading.decimals text with
    | none => .error 422
    | some id => .ok ((newest_first (found.filter fun a => (a.id : Int) < id)).take limit)

def get_audit_log (reading : Reading) (t : AuditTable) (limit offset : Nat) (cursor : Option (List Char)) (f : AuditFilters) :
    Except Nat AuditPage :=
  if limit < 1 ∨ 500 < limit then .error 422
  else if cursor.any (· ≠ []) ∧ offset ≠ 0 then .error 422
  else (_apply_audit_filters reading._parse_iso_dt f).bind fun fits =>
    (page_rows reading (t.rows.filter fits) limit offset cursor).map fun rows =>
      ⟨rows,(t.rows.filter fits).length,limit,offset,
        if rows.length = limit then rows.getLast?.map fun a => _encode_id_cursor a.id else none⟩

/-- A reader who asks again with every `next_cursor`; each request finds a table of its own. -/
def follow (reading : Reading) (limit : Nat) (f : AuditFilters) : List AuditTable → Option (List Char) → List (List DBAuditLog)
  | [],_ => []
  | t::later,cursor => match get_audit_log reading t limit 0 cursor f with
    | .error _ => []
    | .ok page => page.entries::match page.next_cursor with
      | none => []
      | some next => follow reading limit f later (some next)

theorem decode_ascii {text : CodePoints.Str} (ascii : ∀ n ∈ text, n < 0x80) :
    (JsonReader.decode_utf8 (text.map UInt8.ofNat)).map (List.map Char.toNat) = some text := by
  have small (n : Nat) (among : n ∈ text) : (Char.ofNat n).toNat = n := by
    have bound := ascii n among
    have valid : n.isValidChar := .inl (by omega)
    rw [Char.ofNat,dif_pos valid]
    rfl
  have chars : (text.map Char.ofNat).map Char.toNat = text := by
    rw [List.map_map]
    exact (List.map_congr_left small).trans (List.map_id _)
  have bytes : text.map UInt8.ofNat = (text.map Char.ofNat).map fun c => UInt8.ofNat c.toNat := by
    rw [List.map_map]
    exact List.map_congr_left fun n among => congrArg UInt8.ofNat (small n among).symm
  rw [bytes,JsonReader.decode_utf8_ascii,Option.map_some,chars]
  intro c among
  obtain ⟨n,inside,rfl⟩ := List.mem_map.mp among
  rw [small n inside]
  exact ascii n inside

theorem id_cursor_read (decimals : CodePoints.Decimals) (row_id : Nat) :
    _decode_id_cursor decimals (_encode_id_cursor row_id) = some (row_id : Int) := by
  have ascii (n : Nat) (among : n ∈ CodePoints.lit "id:" ++ CodePoints.decimal row_id) : n < 0x80 := by
    have front : ∀ n ∈ CodePoints.lit "id:", n < 0x80 := by decide
    rcases List.mem_append.mp among with mark | digit
    · exact front n mark
    · have bound := CodePoints.decimal_digit digit
      omega
  have read := decode_ascii ascii
  rw [_decode_id_cursor,_encode_id_cursor,decode_encode_cursor,Option.bind_some]
  obtain ⟨raw,decoded,text⟩ := Option.map_eq_some_iff.mp read
  rw [decoded,Option.bind_some]
  dsimp only
  rw [text,if_pos (List.prefix_append _ _)]
  exact CodePoints.int_decimal decimals row_id

/-! The newest row comes first: the walk goes down the ids. -/

def down (a : DBAuditLog) : Natᵒᵈ := OrderDual.toDual a.id

theorem newest_first_eq (rows : List DBAuditLog) : newest_first rows = rows.insertionSort fun a b => down a ≤ down b := by
  rw [newest_first]
  congr

theorem encode_ne_nil (row_id : Nat) : _encode_id_cursor row_id ≠ [] := by
  intro empty
  have read := id_cursor_read .plain row_id
  have unread : _decode_id_cursor .plain [] = none := by decide
  rw [empty,unread] at read
  contradiction

def cursor_text (after : Option Natᵒᵈ) : Option (List Char) := after.map fun id => _encode_id_cursor (OrderDual.ofDual id)

theorem page_rows_walk (reading : Reading) (found : List DBAuditLog) (limit : Nat) (after : Option Natᵒᵈ) :
    page_rows reading found limit 0 (cursor_text after) = .ok (KeysetWalk.page down found after limit) := by
  cases after with
  | none =>
    have all : found.filter (fun a => KeysetWalk.beyond (none : Option Natᵒᵈ) (down a)) = found := List.filter_true found
    rw [KeysetWalk.page,KeysetWalk.listing,all,← newest_first_eq]
    rfl
  | some id =>
    have kept : (cursor_text (some id)).filter (· ≠ []) = some (_encode_id_cursor (OrderDual.ofDual id)) := by
      simp [cursor_text,Option.filter,encode_ne_nil]
    have older : (found.filter fun a => (a.id : Int) < ((OrderDual.ofDual id : Nat) : Int)) =
        found.filter fun a => KeysetWalk.beyond (some id) (down a) := by
      refine List.filter_congr fun a _ => decide_eq_decide.mpr ?_
      exact Int.ofNat_lt
    rw [page_rows,kept]
    dsimp only
    rw [id_cursor_read]
    dsimp only
    rw [older,KeysetWalk.page,KeysetWalk.listing,← newest_first_eq]

variable {reading : Reading} {limit : Nat} {f : AuditFilters} {fits : DBAuditLog → Bool}

/-- The text of a cursor carries the walk on from the row it was made for. -/
theorem follow_walk (legal : 1 ≤ limit ∧ limit ≤ 500) (read : _apply_audit_filters reading._parse_iso_dt f = .ok fits)
    (tables : List AuditTable) (after : Option Natᵒᵈ) :
    follow reading limit f tables (cursor_text after) =
      KeysetWalk.walk down limit (tables.map fun t => t.rows.filter fits) after := by
  induction tables generalizing after with
  | nil => rfl
  | cons t later ih =>
    have range : ¬(limit < 1 ∨ 500 < limit) := by omega
    have page : get_audit_log reading t limit 0 (cursor_text after) f =
        .ok ⟨KeysetWalk.page down (t.rows.filter fits) after limit,(t.rows.filter fits).length,limit,0,
          if (KeysetWalk.page down (t.rows.filter fits) after limit).length = limit then
            (KeysetWalk.page down (t.rows.filter fits) after limit).getLast?.map fun a => _encode_id_cursor a.id else none⟩ := by
      rw [get_audit_log,if_neg range,if_neg (fun both => both.2 rfl),read,Except.bind,page_rows_walk]
      rfl
    rw [follow,page,List.map_cons,KeysetWalk.walk]
    dsimp only
    refine congrArg _ ?_
    by_cases full : (KeysetWalk.page down (t.rows.filter fits) after limit).length = limit
    · obtain ⟨last,final⟩ := KeysetWalk.full_last legal.1 full
      rw [if_pos full,if_pos full,final]
      exact ih (some (down last))
    · rw [if_neg full,if_neg full]

theorem filtered_distinct (t : AuditTable) (fits : DBAuditLog → Bool) : ((t.rows.filter fits).map down).Nodup := by
  have ordered := t.ordered.sublist (List.filter_sublist (p := fits))
  exact (List.pairwise_map.mpr (ordered.imp fun apart => Nat.ne_of_lt apart))

/-- Following the cursors gives the matching rows from the newest one down, none twice, though rows are
written and pruned meanwhile; a walk that ends has every row that was there all along. -/
theorem audit_walk (legal : 1 ≤ limit ∧ limit ≤ 500) (read : _apply_audit_filters reading._parse_iso_dt f = .ok fits)
    (tables : List AuditTable) :
    (follow reading limit f tables none).flatten.Pairwise (fun a b => b.id < a.id) ∧
      (∀ a ∈ (follow reading limit f tables none).flatten, fits a = true ∧ ∃ t ∈ tables, a ∈ t.rows) ∧
      (KeysetWalk.Finished limit (follow reading limit f tables none) → ∀ id,
        (∀ t ∈ tables, ∃ a ∈ t.rows, fits a = true ∧ a.id = id) →
          ∃ a ∈ (follow reading limit f tables none).flatten, a.id = id) := by
  have walk := follow_walk legal read tables none
  rw [cursor_text,Option.map_none] at walk
  have distinct (rows : List DBAuditLog) (among : rows ∈ tables.map fun t => t.rows.filter fits) : (rows.map down).Nodup := by
    obtain ⟨t,-,rfl⟩ := List.mem_map.mp among
    exact filtered_distinct t fits
  rw [walk]
  refine ⟨(KeysetWalk.walk_ordered legal.1 distinct).imp fun apart => apart,fun a shown => ?_,fun finished id stays => ?_⟩
  · obtain ⟨rows,among,present⟩ := KeysetWalk.walk_source shown
    obtain ⟨t,inside,rfl⟩ := List.mem_map.mp among
    exact ⟨List.of_mem_filter present,t,inside,List.mem_of_mem_filter present⟩
  · have listed : OrderDual.toDual id ∈ (KeysetWalk.walk down limit (tables.map fun t => t.rows.filter fits) none).flatten.map down := by
      refine KeysetWalk.walk_complete distinct finished rfl fun rows among => ?_
      obtain ⟨t,inside,rfl⟩ := List.mem_map.mp among
      obtain ⟨a,present,good,same⟩ := stays t inside
      exact List.mem_map.mpr ⟨a,List.mem_filter.mpr ⟨present,good⟩,congrArg OrderDual.toDual same⟩
    obtain ⟨a,shown,same⟩ := List.mem_map.mp listed
    exact ⟨a,shown,congrArg OrderDual.ofDual same⟩

def logged (id : Nat) : DBAuditLog := ⟨id,january_second,some "ada","commit.push",none,some 201,none,"",none⟩

def two_logged : AuditTable := ⟨[logged 1,logged 2],by simp [logged],by simp [logged]⟩

def three_logged : AuditTable := ⟨[logged 1,logged 2,logged 3],by simp [logged],by simp [logged]⟩

def plain_reading : Reading := ⟨.plain,fun _ => .error 422⟩

def pushes : AuditFilters := ⟨none,none,some "commit",none,none,some "ok",none,none⟩

theorem audit_walk_grown :
    ∃ fits, _apply_audit_filters plain_reading._parse_iso_dt pushes = .ok fits ∧
      (follow plain_reading 1 pushes [two_logged,three_logged,three_logged] none).flatten.Pairwise (fun a b => b.id < a.id) ∧
      (∀ a ∈ (follow plain_reading 1 pushes [two_logged,three_logged,three_logged] none).flatten,
        fits a = true ∧ ∃ t ∈ [two_logged,three_logged,three_logged], a ∈ t.rows) ∧
      (KeysetWalk.Finished 1 (follow plain_reading 1 pushes [two_logged,three_logged,three_logged] none) → ∀ id,
        (∀ t ∈ [two_logged,three_logged,three_logged], ∃ a ∈ t.rows, fits a = true ∧ a.id = id) →
          ∃ a ∈ (follow plain_reading 1 pushes [two_logged,three_logged,three_logged] none).flatten, a.id = id) :=
  ⟨_,rfl,audit_walk ⟨by decide,by decide⟩ rfl [two_logged,three_logged,three_logged]⟩

end AetherVault.AuditPaging
