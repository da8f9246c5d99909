import AetherVault.PullCompleteness
import AetherVault.Restored

/-! What a clone has brought when it reports success: the database may return commits of one
timestamp in another order for each page, and each request may fail. -/
namespace AetherVault
open Lib Hashing
open Lib.Prog (Only call forEach foldEach)
open Lib.Discipline (Meets)

variable {H : Type} [DecidableEq H] [Hashing H]

/-- For the page at each offset: nothing if its request fails, or the order in which the database
has the project's commits then. -/
structure PageOrders (server : Server H) where
  order : Nat → Option (List (H × CommitData H))
  rows : ∀ offset listing, order offset = some listing → listing.Perm server.commits.entries
  newest_first : ∀ offset listing, order offset = some listing → listing.Pairwise fun a b => b.2.timestamp ≤ a.2.timestamp

namespace PageOrders

variable {server : Server H} (orders : PageOrders server)

def answered (n : Nat) : Prop := (orders.order (n * page_size)).isSome = true

def page (n : Nat) : List (H × CommitData H) := (orders.order (n * page_size)).elim [] fun listing =>
  ((listing.drop (n * page_size)).take page_size).filterMap fun item => (server.get_commit item.1).map (item.1,·)

/-- On a page that comes, after pages that come. -/
def Listed (h : H) : Prop := ∃ n, (∀ j ≤ n, orders.answered j) ∧ h ∈ (orders.page n).map Prod.fst

end PageOrders

/-- The same refs, and the same commits in some order. -/
structure Reordered (s t : World H) : Prop where
  refs : t.server.refs = s.server.refs
  commits : t.server.commits.entries.Perm s.server.commits.entries

/-- A clone among databases that reorder; a lively one has no request rejected and finds the registry up. -/
def cloning (env : Env) (me : Nat) (w : World H) (orders : PageOrders w.server) (refs_answered lively : Bool) :
    Discipline (Op H) (World H) Choice where
  exec := World.exec env me
  may := fun β c o s => (lively = true → c.net ≠ .refused) ∧ match β,o with
    | _,.list_commits _ offset => match orders.order offset with
      | none => c.net ≠ .answered
      | some listing => c.net = .answered ∧ s.server.listing = listing
    | _,.list_refs => c.net = .answered ↔ refs_answered = true
    | _,.server_available => lively = true → c.net = .answered
    | _,_ => True
  inv := Reordered w
  rely := fun s t => t.repo = s.repo ∧ Reordered s t
  pre := fun β _ o _ => match β,o with
    | _,.write_commit _ _ => True
    | _,.write_ref _ _ => True
    | _,.write_head _ => True
    | _,.save_index _ => True
    | _,o => o.Quiet

variable {env : Env} {me : Nat} {w : World H} {orders : PageOrders w.server} {refs_answered lively : Bool}

theorem cloning_keeps : (cloning env me w orders refs_answered lively).Keeps := by
  intro β c o s reordered allowed required
  have calm (quiet : Op.Quiet β o) : Reordered w (World.exec env me β c o s).2 := by
    have same := exec_quiet env me β c o s quiet
    exact ⟨same.server_refs.trans reordered.refs,same.server_commits ▸ reordered.commits⟩
  cases o with
  | save_index => exact ⟨reordered.refs,reordered.commits⟩
  | write_head => exact ⟨reordered.refs,reordered.commits⟩
  | write_ref => exact ⟨reordered.refs,reordered.commits⟩
  | write_commit => exact ⟨reordered.refs,reordered.commits⟩
  | _ => exact calm required

theorem cloning_solitary : Solitary env me (cloning env me w orders refs_answered lively) where
  exec := rfl
  repo := fun _ _ moved => moved.1
  quiet := by
    intro β c o s quiet _ _
    cases o <;> trivial
  save := fun _ _ _ _ _ => trivial

theorem Reordered.served {s t : World H} (same : Reordered s t) : t.server.get_commit = s.server.get_commit := by
  funext h
  simp only [Server.get_commit,Dict.get?_of_perm same.commits h]

theorem list_commits_page {s : World H} (same : Reordered w s) {n : Nat} {listing : List (H × CommitData H)}
    (ordered : orders.order (n * page_size) = some listing) (now : s.server.listing = listing) :
    s.server.list_commits page_size (n * page_size) = (orders.page n,
      if n * page_size + page_size < listing.length then some (n * page_size + page_size) else none) := by
  simp only [Server.list_commits,PageOrders.page,ordered,Option.elim_some,now,same.served]

theorem page_nonempty {n : Nat} {listing : List (H × CommitData H)} (ordered : orders.order (n * page_size) = some listing)
    (within : n * page_size < listing.length) : orders.page n ≠ [] := by
  have perm := orders.rows _ listing ordered
  obtain ⟨item,rest,cut⟩ := List.exists_cons_of_length_pos (l := (listing.drop (n * page_size)).take page_size)
    (by rw [List.length_take,List.length_drop]; exact Nat.lt_min.mpr ⟨by decide,by omega⟩)
  have listed : item ∈ listing := List.mem_of_mem_drop (List.mem_of_mem_take (cut ▸ List.mem_cons_self))
  have stored : w.server.commits.get? item.1 = some item.2 := (Dict.mem_entries _ _ _).mp (perm.mem_iff.mp listed)
  obtain ⟨data,served⟩ := get_commit_served ((Dict.contains_iff _ _).mpr ⟨_,stored⟩)
  simp [PageOrders.page,ordered,cut,served]

theorem page_past {n : Nat} (past : w.server.commits.entries.length ≤ n * page_size) : orders.page n = [] := by
  unfold PageOrders.page
  cases ordered : orders.order (n * page_size) with
  | none => rfl
  | some listing =>
    have long := (orders.rows _ listing ordered).length_eq
    simp [List.drop_of_length_le (by omega : listing.length ≤ n * page_size)]

/-- The commit that the new branch is put on. -/
def clone_tip (env : Env) (orders : PageOrders w.server) (refs_answered : Bool) : Option H :=
  let refs := if refs_answered then w.server.refs else ∅
  ((pick_default_branch env refs).bind fun name => refs.get? (remote_ref env name)) <|> (orders.page 0).head?.map Prod.fst

/-- What is here after so many pages and some rows of the next one. -/
structure Gathered (orders : PageOrders w.server) (given : Option H) (n : Nat) (done : List (H × CommitData H)) (so_far : Cloned H)
    (s : World H) : Prop where
  arrived : ∀ j < n, orders.answered j
  some_rows : ∀ j < n, orders.page j ≠ []
  held : ∀ h, s.repo.commits.contains h = true ↔ (∃ j < n, h ∈ (orders.page j).map Prod.fst) ∨ h ∈ done.map Prod.fst
  served : ∀ h data, s.repo.commits.get? h = some data → w.server.get_commit h = some data
  started : so_far.count = 0 ↔ n = 0 ∧ done = []
  tip : so_far.tip_hash = if so_far.count = 0 then given else given <|> (orders.page 0).head?.map Prod.fst
  tree : ∀ tip, so_far.tip_hash = some tip → so_far.tip_tree = (s.repo.commits.get? tip).map CommitData.tree
  bare : so_far.tip_hash = none → so_far.tip_tree = none
  files : s.repo.files = ∅
  index : s.repo.index = .empty

/-- What is here once the pages are through. -/
structure Fetched (orders : PageOrders w.server) (given : Option H) (fetched : Cloned H) (t : World H) : Prop where
  held : ∀ h, t.repo.commits.contains h = true ↔ orders.Listed h
  served : ∀ h data, t.repo.commits.get? h = some data → w.server.get_commit h = some data
  first : fetched.count = 0 ↔ orders.page 0 = []
  tip : fetched.count ≠ 0 → fetched.tip_hash = (given <|> (orders.page 0).head?.map Prod.fst)
  tree : ∀ tip, fetched.tip_hash = some tip → fetched.tip_tree = (t.repo.commits.get? tip).map CommitData.tree
  files : t.repo.files = ∅
  index : t.repo.index = .empty

theorem page_served {n : Nat} {row : H × CommitData H} (member : row ∈ orders.page n) : w.server.get_commit row.1 = some row.2 := by
  unfold PageOrders.page at member
  cases ordered : orders.order (n * page_size) with
  | none =>
    rw [ordered] at member
    contradiction
  | some listing =>
    rw [ordered] at member
    obtain ⟨item,-,served⟩ := List.mem_filterMap.mp member
    obtain ⟨data,found,rfl⟩ := Option.map_eq_some_iff.mp served
    exact found

section Gathering

variable {given : Option H} {n : Nat} {done : List (H × CommitData H)} {so_far : Cloned H} {s : World H}

theorem clone_row_gathers (gathered : Gathered orders given n done so_far s) {row : H × CommitData H} {rest : List (H × CommitData H)}
    (split : orders.page n = done ++ row::rest) : (cloning env me w orders refs_answered lively).Meets (clone_row so_far row)
      (fun r t => ∃ later, r = .ok later ∧ Gathered orders given n (done ++ [row]) later t) s := by
  have member : row ∈ orders.page n := by rw [split]; simp
  have served := page_served member
  have first : so_far.count = 0 → (orders.page 0).head?.map Prod.fst = some row.1 := by
    intro none_yet
    obtain ⟨rfl,rfl⟩ := gathered.started.mp none_yet
    simp [split]
  apply Meets.bind
  apply Meets.call
  intro c t moved reordered allowed
  refine ⟨trivial,_,rfl,?_⟩
  constructor
  · exact gathered.arrived
  · exact gathered.some_rows
  · intro h
    have before := gathered.held h
    simp only [cloning,World.exec,moved.1,Dict.contains_iff,Dict.get?_set,List.map_append,List.mem_append,List.map_cons,
      List.map_nil,List.mem_singleton,← or_assoc] at before ⊢
    rw [← before]
    split
    · rename_i here
      simp [here]
    · rename_i other
      simp [other]
  · intro h data found
    simp only [cloning,World.exec,moved.1,Dict.get?_set] at found
    split at found
    · rename_i here
      rw [here,served,Option.some.inj found]
    · exact gathered.served h data found
  · simp
  · have now := gathered.tip
    simp only [Nat.add_one_ne_zero,if_false]
    split
    · rename_i none_yet
      rw [if_pos none_yet] at now
      rw [now,first none_yet]
    · rename_i counted
      rw [if_neg counted] at now
      exact now
  · intro tip is_tip
    simp only [cloning,World.exec,moved.1,Dict.get?_set] at is_tip ⊢
    rw [is_tip]
    by_cases here : tip = row.1
    · simp [here]
    · rw [if_neg (fun same => here (Option.some.inj same)),if_neg here]
      apply gathered.tree
      split at is_tip
      · cases before : so_far.tip_hash with
        | some other =>
          rw [before] at is_tip
          exact is_tip
        | none =>
          rw [before] at is_tip
          exact absurd (Option.some.inj is_tip).symm here
      · exact is_tip
  · intro no_tip
    simp only [] at no_tip ⊢
    rw [no_tip]
    simp only [reduceCtorEq,if_false]
    apply gathered.bare
    split at no_tip
    · cases before : so_far.tip_hash with
      | some other =>
        rw [before] at no_tip
        contradiction
      | none => rfl
    · exact no_tip
  · simp only [cloning,World.exec,moved.1]
    exact gathered.files
  · simp only [cloning,World.exec,moved.1]
    exact gathered.index

theorem Gathered.rows (gathered : Gathered orders given n [] so_far s) : (cloning env me w orders refs_answered lively).Meets
    (foldEach clone_row (orders.page n) so_far)
    (fun r t => ∃ later, r = .ok later ∧ Gathered orders given n (orders.page n) later t) s := by
  let Read (rest : List (H × CommitData H)) (so_far : Cloned H) (t : World H) : Prop :=
    ∃ done, orders.page n = done ++ rest ∧ Gathered orders given n done so_far t
  apply Meets.foldEach (J := Read) (orders.page n) so_far ⟨[],rfl,gathered⟩
  · intro row rest so_far t read
    obtain ⟨done,split,gathered⟩ := read
    apply (clone_row_gathers gathered split).mono
    intro r u reached
    obtain ⟨later,rfl,gathered⟩ := reached
    exact ⟨done ++ [row],by simp [split],gathered⟩
  · intro so_far t read
    obtain ⟨done,split,gathered⟩ := read
    rw [List.append_nil] at split
    exact ⟨so_far,rfl,split ▸ gathered⟩

theorem Gathered.next (gathered : Gathered orders given n (orders.page n) so_far s) (answered : orders.answered n)
    (some_rows : orders.page n ≠ []) : Gathered orders given (n + 1) [] so_far s where
  arrived := by
    intro j below
    cases Nat.lt_succ_iff_lt_or_eq.mp below with
    | inl earlier => exact gathered.arrived j earlier
    | inr now => exact now ▸ answered
  some_rows := by
    intro j below
    cases Nat.lt_succ_iff_lt_or_eq.mp below with
    | inl earlier => exact gathered.some_rows j earlier
    | inr now => exact now ▸ some_rows
  held := by
    intro h
    rw [gathered.held]
    constructor
    · intro known
      cases known with
      | inl earlier =>
        obtain ⟨j,below,listed⟩ := earlier
        exact .inl ⟨j,Nat.lt_succ_of_lt below,listed⟩
      | inr here => exact .inl ⟨n,Nat.lt_succ_self n,here⟩
    · intro known
      cases known with
      | inl earlier =>
        obtain ⟨j,below,listed⟩ := earlier
        cases Nat.lt_succ_iff_lt_or_eq.mp below with
        | inl before => exact .inl ⟨j,before,listed⟩
        | inr now => exact .inr (now ▸ listed)
      | inr impossible => contradiction
  served := gathered.served
  started := by
    rw [gathered.started]
    simp [some_rows]
  tip := gathered.tip
  tree := gathered.tree
  bare := gathered.bare
  files := gathered.files
  index := gathered.index

/-- The listing ends where no further page would come or hold anything. -/
theorem Gathered.fetched (gathered : Gathered orders given n done so_far s)
    (first : so_far.count = 0 ↔ orders.page 0 = [])
    (all : ∀ h, orders.Listed h ↔ (∃ j < n, h ∈ (orders.page j).map Prod.fst) ∨ h ∈ done.map Prod.fst) :
    Fetched orders given so_far s where
  held h := (gathered.held h).trans (all h).symm
  served := gathered.served
  first := first
  tip := by
    intro some_rows
    rw [gathered.tip,if_neg some_rows]
  tree := gathered.tree
  files := gathered.files
  index := gathered.index

theorem Gathered.stopped (gathered : Gathered orders given n [] so_far s) (failed : orders.order (n * page_size) = none) :
    Fetched orders given so_far s := by
  have first : so_far.count = 0 ↔ orders.page 0 = [] := by
    rw [gathered.started]
    constructor
    · intro start
      rw [start.1] at failed
      simp only [PageOrders.page,failed,Option.elim_none]
    · intro empty
      by_contra further
      have later : 0 < n := Nat.pos_of_ne_zero fun start => further ⟨start,rfl⟩
      exact gathered.some_rows 0 later empty
  apply gathered.fetched first
  intro h
  constructor
  · intro listed
    obtain ⟨k,comes,here⟩ := listed
    have below : k < n := by
      by_contra beyond
      have answered := comes n (by omega)
      simp [PageOrders.answered,failed] at answered
    exact .inl ⟨k,below,here⟩
  · intro known
    cases known with
    | inl earlier =>
      obtain ⟨j,below,listed⟩ := earlier
      exact ⟨j,fun i within => gathered.arrived i (by omega),listed⟩
    | inr impossible => contradiction

theorem Gathered.ended (gathered : Gathered orders given n (orders.page n) so_far s) (answered : orders.answered n)
    (last : w.server.commits.entries.length ≤ n * page_size + page_size) : Fetched orders given so_far s := by
  have first : so_far.count = 0 ↔ orders.page 0 = [] := by
    rw [gathered.started]
    by_cases start : n = 0
    · simp [start]
    · have some_rows := gathered.some_rows 0 (Nat.pos_of_ne_zero start)
      simp [start,some_rows]
  apply gathered.fetched first
  intro h
  constructor
  · intro listed
    obtain ⟨k,comes,here⟩ := listed
    rcases Nat.lt_trichotomy k n with below | same | beyond
    · exact .inl ⟨k,below,here⟩
    · exact .inr (same ▸ here)
    · have past : w.server.commits.entries.length ≤ k * page_size :=
        Nat.le_trans last (by rw [← Nat.succ_mul]; exact Nat.mul_le_mul_right _ beyond)
      rw [page_past past] at here
      contradiction
  · intro known
    cases known with
    | inl earlier =>
      obtain ⟨j,below,listed⟩ := earlier
      exact ⟨j,fun i within => gathered.arrived i (by omega),listed⟩
    | inr here =>
      refine ⟨n,?_,here⟩
      intro j within
      cases Nat.lt_or_eq_of_le within with
      | inl earlier => exact gathered.arrived j earlier
      | inr now => exact now ▸ answered

theorem Gathered.of_repo (gathered : Gathered orders given n done so_far s) {t : World H} (same : t.repo = s.repo) :
    Gathered orders given n done so_far t := by
  obtain ⟨arrived,some_rows,held,served,started,tip,tree,bare,files,index⟩ := gathered
  rw [← same] at held served tree files index
  exact ⟨arrived,some_rows,held,served,started,tip,tree,bare,files,index⟩

theorem clone_pages_fetches {fuel : Nat} (gathered : Gathered orders given n [] so_far s) :
    (cloning env me w orders refs_answered lively).Meets (clone_pages fuel (n * page_size) so_far)
      (fun r t => (∀ later, r = .ok later → Fetched orders given later t) ∧
        (lively = true → 0 < fuel → w.server.commits.entries.length ≤ (n + fuel) * page_size → ∃ later, r = .ok later)) s := by
  induction fuel generalizing n so_far s with
  | zero =>
    constructor
    · intro later impossible
      contradiction
    · intro _ impossible
      omega
  | succ fuel ih =>
    apply Meets.bind
    apply Meets.bind
    apply Meets.call
    intro c t moved reordered allowed
    refine ⟨trivial,?_⟩
    have here := gathered.of_repo moved.1
    have unread (u : World H) (same : u.repo = t.repo) (failed : orders.order (n * page_size) = none) :
        (∀ later, (.ok so_far : Except (Failure H) (Cloned H)) = .ok later → Fetched orders given later u) ∧
          (lively = true → 0 < fuel + 1 → w.server.commits.entries.length ≤ (n + (fuel + 1)) * page_size →
            ∃ later, (.ok so_far : Except (Failure H) (Cloned H)) = .ok later) := by
      constructor
      · intro later ended
        rw [← Except.ok.inj ended]
        exact (here.of_repo same).stopped failed
      · intro _ _ _
        exact ⟨so_far,rfl⟩
    simp only [cloning] at allowed
    simp only [cloning,World.exec,World.request]
    cases ordered : orders.order (n * page_size) with
    | none =>
      rw [ordered] at allowed
      cases net : c.net with
      | answered => exact absurd net allowed.2
      | refused =>
        constructor
        · intro later impossible
          contradiction
        · intro lives
          exact absurd net (allowed.1 lives)
      | lost => exact unread _ rfl ordered
      | unanswered => exact unread _ rfl ordered
    | some listing =>
      rw [ordered] at allowed
      obtain ⟨-,net,now⟩ := allowed
      rw [net]
      have answered : orders.answered n := by simp [PageOrders.answered,ordered]
      have long := (orders.rows _ listing ordered).length_eq
      simp only [VaultClient.received,list_commits_page (reordered : Reordered w t) ordered now]
      apply Meets.bind
      apply here.rows.mono
      intro r u read
      obtain ⟨later,rfl,gathered⟩ := read
      dsimp only
      by_cases more : n * page_size + page_size < listing.length
      · have some_rows := page_nonempty ordered (by omega : n * page_size < listing.length)
        rw [if_pos more]
        dsimp only
        rw [if_neg some_rows]
        have next := ih (gathered.next answered some_rows)
        rw [Nat.succ_mul] at next
        apply next.mono
        intro r v reached
        constructor
        · exact reached.1
        · intro lives _ enough
          have room : 0 < fuel := by
            by_contra empty
            obtain rfl : fuel = 0 := by omega
            rw [Nat.add_mul] at enough
            omega
          exact reached.2 lives room (by rw [Nat.add_right_comm]; exact enough)
      · rw [if_neg more]
        constructor
        · intro final ended
          rw [← Except.ok.inj ended]
          exact gathered.ended answered (by omega)
        · intro _ _ _
          exact ⟨later,rfl⟩

end Gathering

section Whole

variable {s : World H}

/-- Neither fetching nor what is fetched moves anything but objects. -/
structure LeavesRepo (s t : World H) : Prop where
  files : t.repo.files = s.repo.files
  index : t.repo.index = s.repo.index
  head : t.repo.head = s.repo.head
  refs : t.repo.refs = s.repo.refs
  commits : t.repo.commits = s.repo.commits

theorem cloning_fetching {α : Type} {p : Command H α} (only : p.Only Op.Fetching) :
    (cloning env me w orders refs_answered lively).Meets p (fun _ t => LeavesRepo s t) s := by
  have accepted := cloning_solitary.accepts (D := cloning env me w orders refs_answered lively) (only.mono Op.Fetching.quiet) s
  have framed := Meets.within (D := cloning env me w orders refs_answered lively) (R := LeavesRepo) only
    (fun _ _ _ first later => ⟨later.files.trans first.files,later.index.trans first.index,later.head.trans first.head,
      later.refs.trans first.refs,later.commits.trans first.commits⟩)
    (fun _ _ moved => by
      have same := moved.1
      exact ⟨by rw [same],by rw [same],by rw [same],by rw [same],by rw [same]⟩)
    (fun _ c o t fetches _ _ _ => by
      have quietly := exec_quiet env me _ c o t (Op.Fetching.quiet _ o fetches)
      exact ⟨exec_fetching env me _ c o t fetches,quietly.index,quietly.head,quietly.refs,quietly.commits⟩)
    ⟨rfl,rfl,rfl,rfl,rfl⟩ accepted
  exact framed.mono fun _ _ reached => reached.2

theorem cloning_materializes {tree : Tree H} (flat : tree_is_flat tree = true) (bare : s.repo.files = ∅) :
    (cloning env me w orders refs_answered lively).Meets (_materialize_tree tree .empty false)
      (fun r t => (∀ final, r = .ok final → Shows ∅ tree.entries t) ∧ t.repo.head = s.repo.head ∧ t.repo.refs = s.repo.refs ∧
        t.repo.commits = s.repo.commits) s := by
  have shown := cloning_solitary.materialize_tree (D := cloning env me w orders refs_answered lively) (s := s) tree flat .empty rfl false
  rw [bare] at shown
  apply Meets.within (D := cloning env me w orders refs_answered lively)
    (R := fun a b : World H => b.repo.head = a.repo.head ∧ b.repo.refs = a.repo.refs ∧ b.repo.commits = a.repo.commits)
    (materialize_tree_only Op.Quiet.restoring Op.restoring_save tree .empty false) _ _ _ ⟨rfl,rfl,rfl⟩ shown
  · intro a b c first later
    exact ⟨later.1.trans first.1,later.2.1.trans first.2.1,later.2.2.trans first.2.2⟩
  · intro a b moved
    have same := moved.1
    exact ⟨by rw [same],by rw [same],by rw [same]⟩
  · intro β c o t restoring _ _ _
    have kept := exec_restoring env me β c o t restoring
    have calm (quiet : Op.Quiet β o) := exec_quiet env me β c o t quiet
    cases o with
    | save_index => exact ⟨rfl,rfl,rfl⟩
    | _ => exact ⟨(calm restoring).head,kept⟩

/-- What a clone that reports success has made. -/
structure Established (orders : PageOrders w.server) (tip : Option H) (t : World H) : Prop where
  held : ∀ h, t.repo.commits.contains h = true ↔ orders.Listed h
  at_tip : ∃ branch h, tip = some h ∧ t.repo.head = .branch branch ∧ t.repo.refs.get? branch = some (some h) ∧
    Shows ∅ (((t.repo.commits.get? h).map CommitData.tree).getD ∅).entries t

theorem clone_lands {branch : String} {h : H} {tree : Tree H} (flat : tree_is_flat tree = true) (files : s.repo.files = ∅)
    (index : s.repo.index = .empty) : (cloning env me w orders refs_answered lively).Meets (do
      call (.write_ref branch (some h))
      call (.write_head (.branch branch))
      ensure_objects_local tree
      let idx ← call .load_index
      let _ ← _materialize_tree tree idx false
      .pure ())
    (fun r t => r = .ok () → t.repo.commits = s.repo.commits ∧ t.repo.head = .branch branch ∧
      t.repo.refs.get? branch = some (some h) ∧ Shows ∅ tree.entries t) s := by
  apply Meets.bind
  apply Meets.call
  intro c t moved _ _
  refine ⟨trivial,?_⟩
  apply Meets.bind
  apply Meets.call
  intro c u turned _ _
  refine ⟨trivial,?_⟩
  have placed := turned.1
  simp only [cloning,World.exec,moved.1] at placed
  apply Meets.bind
  apply (cloning_fetching (ensure_objects_local_fetching tree)).mono
  intro r v ensured
  cases r with
  | error e =>
    intro impossible
    contradiction
  | ok _ =>
    apply Meets.bind
    apply Meets.call
    intro c x again _ _
    refine ⟨trivial,?_⟩
    obtain ⟨same_files,same_index,same_head,same_refs,same_commits⟩ := ensured
    simp only [cloning,World.exec,placed] at same_files same_index same_head same_refs same_commits
    rw [← again.1] at same_files same_index same_head same_refs same_commits
    simp only [cloning,World.exec,same_index.trans index]
    apply Meets.bind
    apply (cloning_materializes flat (same_files.trans files)).mono
    intro r y restored
    obtain ⟨shown,kept_head,kept_refs,kept_commits⟩ := restored
    cases r with
    | error e =>
      intro impossible
      contradiction
    | ok final =>
      intro _
      refine ⟨kept_commits.trans same_commits,kept_head.trans same_head,?_,shown final rfl⟩
      rw [kept_refs,same_refs]
      simp

theorem none_gathered (given : Option H) (start : s.repo = Repo.init) : Gathered orders given 0 [] ⟨given,none,0⟩ s where
  arrived := by
    intro j impossible
    omega
  some_rows := by
    intro j impossible
    omega
  held := by
    intro h
    simp [start,Repo.init,Dict.contains]
  served := by
    intro h data found
    simp [start,Repo.init] at found
  started := by simp
  tip := by simp
  tree := by
    intro tip _
    simp [start,Repo.init]
  bare := by
    intro _
    rfl
  files := by rw [start,Repo.init]
  index := by rw [start,Repo.init]

theorem clone_project_establishes {fuel : Nat} {refs : Dict String H} (start : s.repo = Repo.init)
    (listed : refs = if refs_answered then w.server.refs else ∅) :
    (cloning env me w orders refs_answered lively).Meets (clone_project env fuel refs)
      (fun r t => r = .ok () → Established orders (clone_tip env orders refs_answered) t) s := by
  have pages : (cloning env me w orders refs_answered lively).Meets (clone_pages fuel (0 * page_size) ⟨_,none,0⟩) _ s :=
    clone_pages_fetches (none_gathered ((pick_default_branch env refs).bind fun name => refs.get? (remote_ref env name)) start)
  rw [Nat.zero_mul] at pages
  apply Meets.bind
  apply pages.mono
  intro r t reached
  cases r with
  | error e =>
    intro impossible
    contradiction
  | ok fetched =>
    have here := reached.1 fetched rfl
    dsimp only
    split
    · intro impossible
      contradiction
    · rename_i counted
      have is_tip : fetched.tip_hash = clone_tip env orders refs_answered := by
        rw [here.tip counted,clone_tip,← listed]
      obtain ⟨row,rest,rows⟩ := List.exists_cons_of_ne_nil fun empty => counted (here.first.mpr empty)
      obtain ⟨h,tip⟩ : ∃ h, clone_tip env orders refs_answered = some h := by
        rw [← is_tip,here.tip counted,rows]
        cases ((pick_default_branch env refs).bind fun name => refs.get? (remote_ref env name)) with
        | some h => exact ⟨h,rfl⟩
        | none => exact ⟨row.1,rfl⟩
      rw [tip] at is_tip
      have tree := here.tree h is_tip
      have flat : tree_is_flat (fetched.tip_tree.getD ∅) = true := by
        rw [tree]
        cases held : t.repo.commits.get? h with
        | none => rfl
        | some data => exact get_commit_flat (here.served h data held)
      rw [is_tip]
      apply (clone_lands flat here.files here.index).mono
      intro r u landed done
      obtain ⟨commits,head,ref,shown⟩ := landed done
      constructor
      · intro g
        rw [commits]
        exact here.held g
      · refine ⟨_,h,tip,head,ref,?_⟩
        rw [commits,← tree]
        exact shown

theorem clone_establishes {fuel : Nat} (start : s.repo = Repo.init) : (cloning env me w orders refs_answered lively).Meets (clone env fuel)
    (fun r t => r = .ok () → Established orders (clone_tip env orders refs_answered) t) s := by
  apply Meets.bind
  apply Meets.call
  intro c t moved _ _
  refine ⟨trivial,?_⟩
  show (cloning env me w orders refs_answered lively).Meets (if decide (c.net = .answered) = true then _ else _) _ _
  split
  · apply Meets.bind
    apply Meets.bind
    apply Meets.call
    intro c u again reordered allowed
    refine ⟨trivial,?_⟩
    have fresh : u.repo = Repo.init := (again.1.trans moved.1).trans start
    have none_answered (silent : c.net ≠ .answered) : (∅ : Dict String H) = if refs_answered then w.server.refs else ∅ := by
      rw [if_neg (fun answered => silent (allowed.2.mpr answered))]
    have answered (net : c.net = .answered) : u.server.refs = if refs_answered then w.server.refs else ∅ := by
      rw [if_pos (allowed.2.mp net),reordered.refs]
    simp only [cloning,World.exec,World.request]
    cases net : c.net with
    | answered => exact clone_project_establishes fresh (answered net)
    | refused =>
      intro impossible
      contradiction
    | lost => exact clone_project_establishes fresh (none_answered (by simp [net]))
    | unanswered => exact clone_project_establishes fresh (none_answered (by simp [net]))
  · intro impossible
    contradiction

end Whole

/-- Every commit of the project is here, the branch is at a commit that is here with all its ancestors, and the
working tree is that commit's tree. -/
structure CompleteClone (w t : World H) : Prop where
  commits : ∀ h, w.server.commits.contains h = true → t.repo.commits.contains h = true
  at_tip : ∃ branch tip data, t.repo.head = .branch branch ∧ t.repo.refs.get? branch = some (some tip) ∧
    (∀ h, Search.Reach (parents_of w.server.commits) tip h → t.repo.commits.contains h = true) ∧
    t.repo.commits.get? tip = some data ∧ Shows ∅ data.tree.entries t

theorem Reordered.trans {a b c : World H} (first : Reordered a b) (later : Reordered b c) : Reordered a c :=
  ⟨later.refs.trans first.refs,later.commits.trans first.commits⟩

theorem page_listed {n : Nat} {h : H} (here : h ∈ (orders.page n).map Prod.fst) : w.serves h := by
  obtain ⟨row,member,rfl⟩ := List.mem_map.mp here
  obtain ⟨stored,found,-⟩ := Option.map_eq_some_iff.mp (page_served member)
  exact (Dict.contains_iff _ _).mpr ⟨stored,found⟩

theorem page_length (orders : PageOrders w.server) (n : Nat) : (orders.page n).length ≤ page_size := by
  unfold PageOrders.page
  cases orders.order (n * page_size) with
  | none => exact Nat.zero_le _
  | some listing => exact Nat.le_trans (List.length_filterMap_le _ _) (List.length_take_le _ _)

theorem pages_length (orders : PageOrders w.server) (n : Nat) :
    ((List.range n).flatMap fun j => (orders.page j).map Prod.fst).length ≤ n * page_size := by
  induction n with
  | zero => simp
  | succ n ih =>
    have last := page_length orders n
    rw [List.range_succ,List.flatMap_append,List.length_append,Nat.succ_mul]
    simp only [List.flatMap_cons,List.flatMap_nil,List.append_nil,List.length_map]
    omega

/-- All is listed exactly when each page comes and each commit is on one: fewer pages have no room for all. -/
theorem all_listed_iff : (∀ h, w.serves h → orders.Listed h) ↔
    (∀ n, n * page_size < w.server.commits.entries.length → orders.answered n) ∧
      ∀ h, w.serves h → ∃ n, h ∈ (orders.page n).map Prod.fst := by
  constructor
  · intro all
    constructor
    · intro n within
      by_contra silent
      let shown := (List.range n).flatMap fun j => (orders.page j).map Prod.fst
      have room : shown.length ≤ n * page_size := pages_length orders n
      have covered : w.server.commits.keys ⊆ shown := by
        intro h stored
        obtain ⟨value,found⟩ := (Dict.mem_keys _ _).mp stored
        obtain ⟨k,comes,here⟩ := all h ((Dict.contains_iff _ _).mpr ⟨value,found⟩)
        have below : k < n := by
          by_contra beyond
          exact silent (comes n (by omega))
        exact List.mem_flatMap.mpr ⟨k,List.mem_range.mpr below,here⟩
      have count := List.Nodup.length_le_of_subset w.server.commits.distinct covered
      simp only [List.length_map] at count
      omega
    · intro h stored
      obtain ⟨n,-,here⟩ := all h stored
      exact ⟨n,here⟩
  · intro both h stored
    obtain ⟨comes,covered⟩ := both
    obtain ⟨n,here⟩ := covered h stored
    refine ⟨n,?_,here⟩
    intro j within
    apply comes
    by_contra past
    have empty : orders.page n = [] := page_past (Nat.le_trans (Nat.le_of_not_lt past) (Nat.mul_le_mul_right _ within))
    rw [empty] at here
    contradiction

/-- A clone that reports success is complete exactly when each page of the listing comes, each commit is, in the order that
the database has when it is asked for that page, on some page, and the tip and its ancestors are commits of the project. -/
theorem clone_complete_iff (env : Env) (me : Nat) (w : World H) (orders : PageOrders w.server) (refs_answered : Bool) (fuel : Nat)
    (t : World H) (ran : (cloning env me w orders refs_answered false).Outcome (clone env fuel) w.fresh (.ok ()) t) :
    CompleteClone w t ↔ ((∀ n, n * page_size < w.server.commits.entries.length → orders.answered n) ∧
      ∀ h, w.serves h → ∃ n, h ∈ (orders.page n).map Prod.fst) ∧
      ∀ tip, clone_tip env orders refs_answered = some tip → ∀ h, Search.Reach (parents_of w.server.commits) tip h → w.serves h := by
  have established : Established orders (clone_tip env orders refs_answered) t :=
    (Meets.outcome cloning_keeps (fun _ _ first moved => first.trans moved.2) ran ⟨rfl,.refl _⟩ (clone_establishes rfl)).2 rfl
  obtain ⟨branch,tip,is_tip,head,ref,shown⟩ := established.at_tip
  rw [← all_listed_iff]
  constructor
  · intro complete
    obtain ⟨other,at_ref,data,head',ref',ancestors,-,-⟩ := complete.at_tip
    obtain rfl : branch = other := Head.branch.inj (head.symm.trans head')
    obtain rfl : tip = at_ref := Option.some.inj (Option.some.inj (ref.symm.trans ref'))
    constructor
    · intro h stored
      exact (established.held h).mp (complete.commits h stored)
    · intro again same h path
      obtain rfl : tip = again := Option.some.inj (is_tip.symm.trans same)
      obtain ⟨n,-,here⟩ := (established.held h).mp (ancestors h path)
      exact page_listed here
  · intro condition
    obtain ⟨all,closed⟩ := condition
    have held : ∀ h, w.serves h → t.repo.commits.contains h = true := fun h stored => (established.held h).mpr (all h stored)
    have ancestors : ∀ h, Search.Reach (parents_of w.server.commits) tip h → t.repo.commits.contains h = true :=
      fun h path => held h (closed tip is_tip h path)
    obtain ⟨data,found⟩ := (Dict.contains_iff _ _).mp (ancestors tip .refl)
    rw [found] at shown
    exact ⟨held,branch,tip,data,head,ref,ancestors,found,shown⟩

/-! A clone that is answered comes to an end, and the page it is not given is one it does without. -/

section Lively

theorem list_rows_again {server : Server H} {listing : List (H × CommitData H)} (perm : listing.Perm server.commits.entries)
    (newest_first : listing.Pairwise fun a b => b.2.timestamp ≤ a.2.timestamp) :
    ∃ commits : Dict H (CommitData H), commits.entries = listing ∧ ({server with commits := commits} : Server H).listing = listing := by
  have distinct : (listing.map Prod.fst).Nodup := (perm.map Prod.fst).nodup_iff.mpr server.commits.distinct
  exact ⟨⟨listing,distinct⟩,rfl,newest_first.insertionSort_eq⟩

theorem cloning_responds (β : Type) (o : Op H β) (s : World H) (reordered : Reordered w s) : ∃ c t,
    (cloning env me w orders refs_answered lively).rely s t ∧ (cloning env me w orders refs_answered lively).inv t ∧
      (cloning env me w orders refs_answered lively).may β c o t := by
  have still : (cloning env me w orders refs_answered lively).rely s s := ⟨rfl,rfl,.refl _⟩
  have reached : lively = true → Net.answered ≠ Net.refused := fun _ same => by contradiction
  cases o with
  | list_commits limit offset =>
    cases ordered : orders.order offset with
    | none =>
      refine ⟨⟨.lost,false,0⟩,s,still,reordered,?_⟩
      simp [cloning,ordered]
    | some listing =>
      have perm := (orders.rows _ listing ordered).trans reordered.commits.symm
      obtain ⟨commits,entries,now⟩ := list_rows_again perm (orders.newest_first _ listing ordered)
      have moved : Reordered s {s with server := {s.server with commits := commits}} := ⟨rfl,by simpa [entries] using perm⟩
      refine ⟨⟨.answered,false,0⟩,{s with server := {s.server with commits := commits}},⟨rfl,moved⟩,reordered.trans moved,?_⟩
      simp [cloning,ordered,now]
  | list_refs =>
    cases refs_answered with
    | true => exact ⟨⟨.answered,false,0⟩,s,still,reordered,by simp [cloning]⟩
    | false => exact ⟨⟨.lost,false,0⟩,s,still,reordered,by simp [cloning]⟩
  | server_available => exact ⟨⟨.answered,false,0⟩,s,still,reordered,reached,fun _ => rfl⟩
  | _ => exact ⟨⟨.answered,false,0⟩,s,still,reordered,reached,trivial⟩

theorem ensure_nothing : ensure_objects_local (∅ : Tree H) = .pure () := rfl

variable {s : World H}

theorem check_nothing (verify : Bool) : (cloning env me w orders refs_answered lively).Meets (check_restorable (∅ : Tree H) verify)
    (fun r t => (∃ up, r = .ok up) ∧ t.repo = s.repo) s := by
  apply Meets.bind
  apply Meets.call
  intro c t moved _ _
  refine ⟨trivial,?_⟩
  show (cloning env me w orders refs_answered lively).Meets (if decide (c.net = .answered) = true then _ else _) _ _
  split
  · exact ⟨⟨true,rfl⟩,moved.1⟩
  · exact ⟨⟨false,rfl⟩,moved.1⟩

theorem clone_lands_nothing {branch : String} {h : H} (index : s.repo.index = .empty) :
    (cloning env me w orders refs_answered lively).Meets (do
      call (.write_ref branch (some h))
      call (.write_head (.branch branch))
      ensure_objects_local (∅ : Tree H)
      let idx ← call .load_index
      let _ ← _materialize_tree (∅ : Tree H) idx false
      .pure ())
    (fun r _ => r = .ok ()) s := by
  apply Meets.bind
  apply Meets.call
  intro c t moved _ _
  refine ⟨trivial,?_⟩
  apply Meets.bind
  apply Meets.call
  intro c u turned _ _
  refine ⟨trivial,?_⟩
  have placed := turned.1
  simp only [cloning,World.exec,moved.1] at placed
  rw [ensure_nothing]
  apply Meets.bind
  apply Meets.bind
  apply Meets.call
  intro c x again _ _
  refine ⟨trivial,?_⟩
  have loaded : ((cloning env me w orders refs_answered lively).exec _ c .load_index x).1 = .empty := by
    show x.repo.index = .empty
    rw [again.1]
    show u.repo.index = .empty
    rw [placed]
    exact index
  rw [loaded]
  apply Meets.bind
  have flat : tree_is_flat (∅ : Tree H) = true := rfl
  rw [_materialize_tree,if_pos flat]
  apply Meets.bind
  apply Meets.bind
  apply (check_nothing false).mono
  intro r y checked
  obtain ⟨up,rfl⟩ := checked.1
  cases up with
  | true =>
    intro c z _ _ _
    exact ⟨trivial,rfl⟩
  | false =>
    intro c z _ _ _
    exact ⟨trivial,rfl⟩

theorem clone_project_lives {fuel : Nat} {refs : Dict String H} (start : s.repo = Repo.init) (plain : ∀ h data, w.server.get_commit h = some data → data.tree = ∅)
    (first : orders.page 0 ≠ []) (fueled : 0 < fuel) (enough : w.server.commits.entries.length ≤ fuel * page_size) :
    (cloning env me w orders refs_answered true).Meets (clone_project env fuel refs) (fun r _ => r = .ok ()) s := by
  have pages : (cloning env me w orders refs_answered true).Meets (clone_pages fuel (0 * page_size) ⟨_,none,0⟩) _ s :=
    clone_pages_fetches (none_gathered ((pick_default_branch env refs).bind fun name => refs.get? (remote_ref env name)) start)
  rw [Nat.zero_mul] at pages
  apply Meets.bind
  apply pages.mono
  intro r t reached
  obtain ⟨fetched,rfl⟩ := reached.2 rfl fueled (by rw [Nat.zero_add]; exact enough)
  have here := reached.1 fetched rfl
  have counted : fetched.count ≠ 0 := fun none_yet => first (here.first.mp none_yet)
  obtain ⟨row,rest,rows⟩ := List.exists_cons_of_ne_nil first
  obtain ⟨h,tip⟩ : ∃ h, fetched.tip_hash = some h := by
    rw [here.tip counted,rows]
    cases ((pick_default_branch env refs).bind fun name => refs.get? (remote_ref env name)) with
    | some h => exact ⟨h,rfl⟩
    | none => exact ⟨row.1,rfl⟩
  have nothing : fetched.tip_tree.getD ∅ = ∅ := by
    rw [here.tree h tip]
    cases held : t.repo.commits.get? h with
    | none => rfl
    | some data => exact plain h data (here.served h data held)
  dsimp only
  rw [if_neg counted,nothing,tip]
  exact clone_lands_nothing here.index

theorem clone_lives {fuel : Nat} (start : s.repo = Repo.init) (plain : ∀ h data, w.server.get_commit h = some data → data.tree = ∅)
    (first : orders.page 0 ≠ []) (fueled : 0 < fuel) (enough : w.server.commits.entries.length ≤ fuel * page_size) :
    (cloning env me w orders true true).Meets (clone env fuel) (fun r _ => r = .ok ()) s := by
  apply Meets.bind
  apply Meets.call
  intro c t moved _ allowed
  refine ⟨trivial,?_⟩
  have up : c.net = .answered := allowed.2 rfl
  show (cloning env me w orders true true).Meets (if decide (c.net = .answered) = true then _ else _) _ _
  rw [if_pos (decide_eq_true up)]
  apply Meets.bind
  apply Meets.bind
  apply Meets.call
  intro c u again reordered allowed
  refine ⟨trivial,?_⟩
  have fresh : u.repo = Repo.init := (again.1.trans moved.1).trans start
  have net : c.net = .answered := allowed.2.mpr rfl
  have read : ((cloning env me w orders true true).exec _ c .list_refs u) = (.answered u.server.refs,u) := by
    show World.request u c (fun server => (server.refs,server)) = _
    rw [World.request,net]
  rw [read]
  exact clone_project_lives fresh plain first fueled enough

theorem clone_runs (env : Env) (me : Nat) (w : World H) (orders : PageOrders w.server) (fuel : Nat)
    (plain : ∀ h data, w.server.get_commit h = some data → data.tree = ∅) (first : orders.page 0 ≠ []) (fueled : 0 < fuel)
    (enough : w.server.commits.entries.length ≤ fuel * page_size) :
    ∃ t, (cloning env me w orders true false).Outcome (clone env fuel) w.fresh (.ok ()) t := by
  have started : (cloning env me w orders true true).inv w.fresh := ⟨rfl,.refl _⟩
  obtain ⟨r,t,ran,ended⟩ := Meets.exists_outcome cloning_keeps cloning_responds started
    (clone_lives (s := w.fresh) rfl plain first fueled enough)
  rw [ended] at ran
  have same : (cloning env me w orders true false).exec = (cloning env me w orders true true).exec := rfl
  refine ⟨t,ran.weaken same (fun _ _ moved => moved) ?_⟩
  intro β c o s allowed
  constructor
  · intro impossible
    contradiction
  · have served := allowed.2
    cases o with
    | server_available =>
      intro impossible
      contradiction
    | _ => exact served

end Lively

/-- The first page comes, as the listing has it, and no other does. -/
def PageOrders.first_only (server : Server H) : PageOrders server where
  order := fun offset => if offset = 0 then some server.listing else none
  rows := by
    intro offset listing came
    split at came
    · rw [← Option.some.inj came]
      exact List.perm_insertionSort _ _
    · contradiction
  newest_first := by
    intro offset listing came
    split at came
    · rw [← Option.some.inj came]
      have total : Std.Total fun a b : H × CommitData H => b.2.timestamp ≤ a.2.timestamp := ⟨fun a b => Nat.le_total _ _⟩
      have trans : IsTrans (H × CommitData H) fun a b => b.2.timestamp ≤ a.2.timestamp := ⟨fun a b c ab bc => Nat.le_trans bc ab⟩
      exact List.pairwise_insertionSort _ _
    · contradiction

theorem served_plain {server : Server H} (plain : ∀ h data, server.commits.get? h = some data → data.tree = ∅) (h : H)
    (data : CommitData H) (served : server.get_commit h = some data) : data.tree = ∅ := by
  obtain ⟨stored,found,rfl⟩ := Option.map_eq_some_iff.mp served
  have bare := plain h stored found
  split
  · exact bare
  · rename_i legacy
    rw [bare] at legacy
    exact absurd rfl legacy

theorem clone_complete_one_page : ∃ t, (cloning desk 0 early (.first_only early.server) true false).Outcome (clone desk 3) early.fresh
    (.ok ()) t ∧ CompleteClone early t := by
  have row {h : Name} {data : CommitData Name} (found : early.server.commits.get? h = some data) :
      (data = base ∨ data = mine) ∧ commit_hash data = h := by
    obtain ⟨row,same⟩ := registry_rows found
    simp only [List.mem_cons,List.not_mem_nil,or_false] at row
    exact ⟨row,same⟩
  have plain : ∀ h data, early.server.commits.get? h = some data → data.tree = ∅ := by
    intro h data found
    rcases (row found).1 with rfl | rfl <;> rfl
  have listed : ∀ h, early.serves h → h ∈ (PageOrders.page (.first_only early.server) 0).map Prod.fst := by
    intro h stored
    obtain ⟨data,found⟩ := (Dict.contains_iff _ _).mp stored
    obtain ⟨which,rfl⟩ := row found
    rcases which with rfl | rfl <;> decide
  have dag : early.server.Dag := registry_dag (by decide) (by decide)
  obtain ⟨t,ran⟩ := clone_runs desk 0 early (.first_only early.server) 3 (served_plain plain) (by decide) (by decide) (by decide)
  refine ⟨t,ran,(clone_complete_iff desk 0 early _ true 3 t ran).mpr ⟨⟨?_,fun h stored => ⟨0,listed h stored⟩⟩,?_⟩⟩
  · intro n within
    have one_page : early.server.commits.entries.length = 2 := by decide
    have first : n = 0 := by
      by_contra later
      have beyond : 1 * page_size ≤ n * page_size := Nat.mul_le_mul_right _ (Nat.pos_of_ne_zero later)
      have wide : 2 < 1 * page_size := by decide
      omega
    rw [first]
    rfl
  · intro tip is_tip h path
    have at_mine : clone_tip desk (.first_only early.server) true = some (commit_hash mine) := by decide
    rw [at_mine] at is_tip
    obtain rfl := Option.some.inj is_tip
    exact dag.reach (by decide) path

def roots (n : Nat) : Server Name :=
  {Server.empty 0 with
    commits := ⟨(List.range n).map fun k => (commit_hash (change [] "" k),change [] "" k),by
      rw [List.map_map]
      apply List.Nodup.map _ List.nodup_range
      intro a b same
      have sizes := congrArg (fun h : Name => h.bytes.length) same
      simpa [commit_hash,sha256,Canonical.canonical_commit_bytes,change,letters,marked] using sizes⟩}

theorem roots_plain {n : Nat} (h : Name) (data : CommitData Name) (found : (roots n).commits.get? h = some data) : data.tree = ∅ := by
  obtain ⟨k,-,same⟩ := List.mem_map.mp ((Dict.mem_entries _ _ _).mpr found)
  rw [← (Prod.mk.inj same).2]
  rfl

theorem roots_length (n : Nat) : (roots n).commits.entries.length = n := by simp [roots]

theorem roots_cut {n : Nat} (long : page_size < n) : ∃ t,
    (cloning desk 0 ⟨Repo.init,roots n,true⟩ (.first_only (roots n)) true false).Outcome (clone desk n)
      (World.fresh ⟨Repo.init,roots n,true⟩) (.ok ()) t ∧ ¬CompleteClone ⟨Repo.init,roots n,true⟩ t := by
  have sized := roots_length n
  have first : PageOrders.page (.first_only (roots n)) 0 ≠ [] := by
    apply page_nonempty (w := ⟨Repo.init,roots n,true⟩) rfl
    rw [Nat.zero_mul,Server.listing,List.length_insertionSort,sized]
    exact Nat.zero_lt_of_lt long
  obtain ⟨t,ran⟩ := clone_runs desk 0 ⟨Repo.init,roots n,true⟩ (.first_only (roots n)) n (served_plain roots_plain) first
    (Nat.zero_lt_of_lt long) (by rw [sized]; exact Nat.le_mul_of_pos_right n (by decide))
  refine ⟨t,ran,fun complete => ?_⟩
  have pages := ((clone_complete_iff desk 0 _ _ true n t ran).mp complete).1.1
  have answered := pages 1 (by rw [sized,Nat.one_mul]; exact long)
  contradiction

theorem second_page_lost : ¬∀ (w : World Name) (orders : PageOrders w.server) (refs_answered : Bool) (fuel : Nat) (t : World Name),
    (cloning desk 0 w orders refs_answered false).Outcome (clone desk fuel) w.fresh (.ok ()) t → CompleteClone w t := by
  intro claimed
  obtain ⟨t,ran,incomplete⟩ := roots_cut (Nat.lt_succ_self page_size)
  exact incomplete (claimed _ _ true _ t ran)

end AetherVault
