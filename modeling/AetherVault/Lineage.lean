import AetherVault.Lib.Dict
import AetherVault.Lib.PagedWalk

/-! The lineage endpoints of the server: the chain of parents of a run, and of an improver
version, a page at a time. A page guards against a cycle with what it has listed itself. -/
namespace AetherVault.Lineage
open Lib PagedWalk

structure HTTPException where
  status_code : Nat
  detail : String
  deriving DecidableEq

/-- What the two endpoints differ in. An entry shows the id of its row. -/
structure View (Row Entry : Type) where
  id : Row → String
  parent : Row → Option String
  entry : Row → Entry
  shown_id : Entry → String
  shows : ∀ row, shown_id (entry row) = id row
  max_depth : Nat
  not_found : String
  what : String

/-- Rows under their own ids, and no id is empty. -/
structure Table {Row Entry : Type} (view : View Row Entry) where
  rows : Dict String Row
  keyed : ∀ id row, rows.get? id = some row → view.id row = id
  named : ∀ row, rows.get? "" ≠ some row

structure Page (Entry : Type) where
  id : String
  lineage : List Entry
  next_cursor : Option String

variable {Row Entry : Type} {view : View Row Entry} (table : Table view)

def truthy (text : Option String) : Option String := text.filter (· ≠ "")

/-- The loop: `chain` and the node that is not listed yet. -/
def walk : Nat → Option Row → List String → List Row × Option Row
  | 0,node,_ => ([],node)
  | _+1,none,_ => ([],none)
  | n+1,some node,seen =>
    if view.id node ∈ seen then ([],none)
    else match truthy (view.parent node) with
      | none => ([node],none)
      | some parent =>
        let rest := walk n (table.rows.get? parent) (view.id node::seen)
        (node::rest.1,rest.2)

def get_lineage (repr : String → String) (id : String) (depth : Int) (cursor : Option String) :
    Except HTTPException (Page Entry) :=
  match table.rows.get? id with
  | none => .error ⟨404,view.not_found⟩
  | some r =>
    if depth < 1 ∨ depth > view.max_depth then .error ⟨422,s!"depth must be between 1 and {view.max_depth}"⟩
    else
      let node := (truthy cursor).elim (some r) table.rows.get?
      if (truthy cursor).isSome ∧ node.isNone then
        .error ⟨422,"Invalid cursor: unknown " ++ view.what ++ " " ++ (truthy cursor).elim "" repr⟩
      else
        let walked := walk table depth.toNat node []
        .ok ⟨id,walked.1.map view.entry,if walked.1.length = depth.toNat then walked.2.map view.id else none⟩

/-- The pages that a client reads from the first on, each from the cursor of the one before. -/
inductive Follows (repr : String → String) (id : String) (depth : Int) : Option String → List (Page Entry) → Prop
  | last {cursor : Option String} {page : Page Entry} (ok : get_lineage table repr id depth cursor = .ok page)
      (done : page.next_cursor = none) : Follows repr id depth cursor [page]
  | more {cursor : Option String} {page : Page Entry} {next : String} {rest : List (Page Entry)}
      (ok : get_lineage table repr id depth cursor = .ok page) (goes_on : page.next_cursor = some next)
      (later : Follows repr id depth (some next) rest) : Follows repr id depth cursor (page::rest)

/-- The parent of a row, when there is a row of that id. -/
def parent_of (id : String) : Option String :=
  (table.rows.get? id).bind fun row => (truthy (view.parent row)).bind fun parent => (table.rows.get? parent).map view.id

/-- Paging ends, and lists each row of the chain of parents once, in its order. -/
def Exact (repr : String → String) (id : String) (depth : Int) : Prop :=
  ∃ pages nodes, Follows table repr id depth none pages ∧ Trace (parent_of table) id nodes ∧
    (pages.flatMap (·.lineage)).map view.shown_id = nodes

/-- A cycle that the chain runs into closes in the page that enters it, with room to spare. -/
def ClosesInPage (id : String) (depth : Int) : Prop :=
  ∀ tail cycle, Loops (parent_of table) id tail cycle → tail.length % depth.toNat + cycle.length < depth.toNat

/-! The endpoints. -/

structure Run where
  id : String
  name : Option String
  status : String
  project_id : String
  parent_run_id : Option String
  deriving DecidableEq

def run_view : View Run Run where
  id := Run.id
  parent := Run.parent_run_id
  entry := fun node => node
  shown_id := Run.id
  shows := fun _ => rfl
  max_depth := 500
  not_found := "Run not found"
  what := "run"

structure ImproverVersion where
  id : String
  project_id : String
  manifest_object_id : String
  parent_id : Option String
  created_by : Option String
  created_at : Option String
  deriving DecidableEq

def improver_view : View ImproverVersion ImproverVersion where
  id := ImproverVersion.id
  parent := ImproverVersion.parent_id
  entry := fun node => node
  shown_id := ImproverVersion.id
  shows := fun _ => rfl
  max_depth := 500
  not_found := "Improver version not found"
  what := "improver"

def get_run_lineage (runs : Table run_view) := get_lineage runs

def get_improver_lineage (improvers : Table improver_view) := get_lineage improvers

/-! A page is a page of the walk along the parents. -/

variable {table}

theorem parent_of_row {row : Row} (held : table.rows.get? (view.id row) = some row) :
    parent_of table (view.id row) =
      (truthy (view.parent row)).bind fun parent => (table.rows.get? parent).map view.id := by
  rw [parent_of,held]
  rfl

theorem parent_known (a b : String) (step : parent_of table a = some b) : b ∈ table.rows.keys := by
  obtain ⟨row,-,step⟩ := Option.bind_eq_some_iff.mp step
  obtain ⟨parent,-,step⟩ := Option.bind_eq_some_iff.mp step
  obtain ⟨above,held,rfl⟩ := Option.map_eq_some_iff.mp step
  rw [table.keyed parent above held]
  exact (Dict.mem_keys _ _).mpr ⟨above,held⟩

theorem walk_eq_page (n : Nat) (node : Option Row) (seen : List String)
    (held : ∀ row ∈ node, table.rows.get? (view.id row) = some row) :
    (walk table n node seen).1.map view.id = (PagedWalk.page (parent_of table) n (node.map view.id) seen).1 ∧
      (walk table n node seen).2.map view.id = (PagedWalk.page (parent_of table) n (node.map view.id) seen).2 := by
  induction n generalizing node seen with
  | zero => exact ⟨rfl,rfl⟩
  | succ n ih =>
    cases node with
    | none => exact ⟨rfl,rfl⟩
    | some row =>
      have held := held row rfl
      by_cases again : view.id row ∈ seen
      · simp [walk,PagedWalk.page,again]
      · have step := parent_of_row held
        cases parent : truthy (view.parent row) with
        | none =>
          rw [parent] at step
          cases n <;> simp [walk,PagedWalk.page,again,parent,step]
        | some above =>
          rw [parent,Option.bind_some] at step
          obtain ⟨listed,last⟩ := ih (table.rows.get? above) (view.id row::seen) (by
            intro next found
            rw [table.keyed above next found]
            exact found)
          simp [walk,PagedWalk.page,again,parent,step,listed,last]

theorem shown_entries (rows : List Row) : (rows.map view.entry).map view.shown_id = rows.map view.id := by
  rw [List.map_map]
  exact List.map_congr_left fun row _ => view.shows row

variable {repr : String → String} {id : String} {depth : Int} {row : Row}

theorem truthy_some {text : String} (nonempty : text ≠ "") : truthy (some text) = some text := by
  simp [truthy,Option.filter,nonempty]

variable (repr) in
/-- Where a page starts: at the row that is asked about, or at its cursor. -/
theorem get_lineage_eq (present : table.rows.get? id = some row) (low : 1 ≤ depth) (high : depth ≤ view.max_depth)
    {cursor : Option String} (known : ∀ next ∈ cursor, ∃ row, table.rows.get? next = some row) :
    ∃ shown, get_lineage table repr id depth cursor = .ok shown ∧
      shown.lineage.map view.shown_id = (PagedWalk.page (parent_of table) depth.toNat (some (cursor.getD id)) []).1 ∧
      shown.next_cursor = (PagedWalk.page (parent_of table) depth.toNat (some (cursor.getD id)) []).2 := by
  have starts : ∃ node, (truthy cursor).elim (some row) table.rows.get? = some node ∧
      table.rows.get? (cursor.getD id) = some node := by
    cases cursor with
    | none => exact ⟨row,rfl,present⟩
    | some next =>
      obtain ⟨node,held⟩ := known next rfl
      have nonempty : next ≠ "" := fun empty => table.named node (empty ▸ held)
      exact ⟨node,by rw [truthy_some nonempty]; exact held,held⟩
  obtain ⟨node,found,held⟩ := starts
  have named := table.keyed _ _ held
  rw [← named] at held
  obtain ⟨listed,last⟩ := walk_eq_page depth.toNat (some node) [] fun other same => Option.some.inj same ▸ held
  rw [Option.map_some,named] at listed last
  have bounds : ¬(depth < 1 ∨ depth > view.max_depth) := by omega
  refine ⟨_,by rw [get_lineage,present]; simp only [bounds,if_false,found]; rw [if_neg (by simp)],?_,?_⟩
  · rw [← listed]
    exact shown_entries _
  · dsimp only
    rw [← last]
    split
    · rfl
    · rename_i short
      cases stop : (walk table depth.toNat (some node) []).2 with
      | none => rfl
      | some next =>
        rw [stop] at last
        have full := (page_length (parent_of table) depth.toNat (some (cursor.getD id)) []).2.1 _ last.symm
        rw [← listed,List.length_map] at full
        exact absurd full short

theorem page_stops_known {n : Nat} {x y : String} (goes_on : (PagedWalk.page (parent_of table) n (some x) []).2 = some y)
    (positive : 0 < n) : ∃ row, table.rows.get? y = some row := by
  have full := page_length (parent_of table) n (some x) []
  have stop := full.2.2 (full.2.1 y goes_on)
  cases last : (PagedWalk.page (parent_of table) n (some x) []).1.getLast? with
  | none =>
    have empty := full.2.1 y goes_on
    rw [List.getLast?_eq_none_iff.mp last] at empty
    exact absurd empty (by simp; omega)
  | some a =>
    rw [goes_on,last] at stop
    exact (Dict.mem_keys _ _).mp (parent_known a y stop.symm)

variable (repr) in
theorem follows_of_pages (present : table.rows.get? id = some row) (low : 1 ≤ depth) (high : depth ≤ view.max_depth)
    {x : String} {ids : List (List String)} (turned : Pages (parent_of table) depth.toNat x ids) (cursor : Option String)
    (here : cursor.getD id = x) (known : ∀ next ∈ cursor, ∃ row, table.rows.get? next = some row) :
    ∃ pages, Follows table repr id depth cursor pages ∧ pages.map (fun page => page.lineage.map view.shown_id) = ids := by
  induction turned generalizing cursor with
  | @last x done =>
    obtain ⟨page,ok,listed,stop⟩ := get_lineage_eq repr present low high known
    rw [here] at listed stop
    exact ⟨[page],.last ok (stop.trans done),by rw [← listed]; rfl⟩
  | @more x y rest goes_on later ih =>
    obtain ⟨page,ok,listed,stop⟩ := get_lineage_eq repr present low high known
    rw [here] at listed stop
    obtain ⟨pages,follows,shown⟩ := ih (some y) rfl (by
      intro next same
      exact Option.some.inj same ▸ page_stops_known goes_on (by omega))
    exact ⟨page::pages,.more ok (stop.trans goes_on) follows,by rw [← listed,← shown]; rfl⟩

theorem pages_of_follows (present : table.rows.get? id = some row) (low : 1 ≤ depth) (high : depth ≤ view.max_depth)
    {cursor : Option String} (known : ∀ next ∈ cursor, ∃ row, table.rows.get? next = some row) {pages : List (Page Entry)}
    (follows : Follows table repr id depth cursor pages) :
    Pages (parent_of table) depth.toNat (cursor.getD id) (pages.map fun page => page.lineage.map view.shown_id) := by
  induction follows with
  | @last cursor shown ok done =>
    obtain ⟨page,again,listed,stop⟩ := get_lineage_eq repr present low high known
    obtain rfl := Except.ok.inj (ok.symm.trans again)
    rw [List.map_singleton,listed]
    exact .last (stop.symm.trans done)
  | @more cursor shown next rest ok goes_on later ih =>
    obtain ⟨page,again,listed,stop⟩ := get_lineage_eq repr present low high known
    obtain rfl := Except.ok.inj (ok.symm.trans again)
    have turns := stop.symm.trans goes_on
    rw [List.map_cons,listed]
    refine .more turns (ih ?_)
    intro other same
    exact Option.some.inj same ▸ page_stops_known turns (by omega)

theorem exact_iff (present : table.rows.get? id = some row) (low : 1 ≤ depth) (high : depth ≤ view.max_depth) :
    Exact table repr id depth ↔ ClosesInPage table id depth := by
  have positive : 0 < depth.toNat := by omega
  unfold ClosesInPage
  rw [← pages_exact_iff parent_known positive]
  have flat (pages : List (Page Entry)) : (pages.flatMap (·.lineage)).map view.shown_id =
      (pages.map fun page => page.lineage.map view.shown_id).flatten := by
    simp [List.flatMap,List.map_flatten,Function.comp_def]
  constructor
  · intro listed
    obtain ⟨pages,nodes,follows,trace,rfl⟩ := listed
    exact ⟨_,pages_of_follows present low high (by simp) follows,flat pages ▸ trace⟩
  · intro listed
    obtain ⟨ids,turned,trace⟩ := listed
    obtain ⟨pages,follows,rfl⟩ := follows_of_pages repr present low high turned none rfl (by simp)
    exact ⟨pages,_,follows,trace,flat pages⟩

/-- Both endpoints page through a chain of parents exactly when a cycle that it runs into
closes within the page that enters it. -/
theorem lineage_exact_iff (repr : String → String) (runs : Table run_view) (improvers : Table improver_view) (depth : Int)
    (low : 1 ≤ depth) (high : depth ≤ 500) :
    (∀ run_id, runs.rows.contains run_id = true → (Exact runs repr run_id depth ↔ ClosesInPage runs run_id depth)) ∧
      ∀ improver_id, improvers.rows.contains improver_id = true →
        (Exact improvers repr improver_id depth ↔ ClosesInPage improvers improver_id depth) := by
  constructor
  · intro run_id present
    obtain ⟨row,present⟩ := (Dict.contains_iff _ _).mp present
    exact exact_iff present low high
  · intro improver_id present
    obtain ⟨row,present⟩ := (Dict.contains_iff _ _).mp present
    exact exact_iff present low high

/-- A run that was created as its own parent. -/
def self_parent : Table run_view where
  rows := Dict.empty.set "r" ⟨"r",none,"running","p",some "r"⟩
  keyed id row held := by
    rw [Dict.get?_set] at held
    split at held
    · rename_i same
      rw [← Option.some.inj held,same]
      rfl
    · contradiction
  named row held := by
    rw [Dict.get?_set_other _ _ _ _ (by decide)] at held
    contradiction

theorem lineage_exact_iff_self_parent :
    (1 : Int) ≤ 2 ∧ (Exact self_parent String.quote "r" 2 ↔ ClosesInPage self_parent "r" 2) :=
  ⟨by decide,(lineage_exact_iff String.quote self_parent ⟨∅,by simp,by simp⟩ 2 (by decide) (by decide)).1 "r" (by decide)⟩

/-- Read one run at a time, its lineage has no last page. -/
theorem self_parent_never_ends : ¬∃ pages, Follows self_parent String.quote "r" 1 none pages := by
  have again : ∀ cursor : Option String, cursor.getD "r" = "r" →
      ∃ page, get_run_lineage self_parent String.quote "r" 1 cursor = .ok page ∧ page.next_cursor = some "r" := by
    intro cursor same
    cases cursor with
    | none => exact ⟨_,rfl,rfl⟩
    | some next =>
      obtain rfl : next = "r" := same
      exact ⟨_,rfl,rfl⟩
  have endless : ∀ cursor pages, Follows self_parent String.quote "r" 1 cursor pages → cursor.getD "r" ≠ "r" := by
    intro cursor pages follows same
    induction follows with
    | last ok done =>
      obtain ⟨page,answer,goes_on⟩ := again _ same
      obtain rfl := Except.ok.inj (ok.symm.trans answer)
      exact absurd (done.symm.trans goes_on) (by simp)
    | more ok goes_on later ih =>
      obtain ⟨page,answer,turns⟩ := again _ same
      obtain rfl := Except.ok.inj (ok.symm.trans answer)
      exact ih (Option.some.inj (goes_on.symm.trans turns))
  intro ends
  obtain ⟨pages,follows⟩ := ends
  exact endless none pages follows rfl

end AetherVault.Lineage
