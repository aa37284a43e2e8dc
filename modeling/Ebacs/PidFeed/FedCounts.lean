import Ebacs.Lib.Admission
import Ebacs.PageAccess.History
import Ebacs.PidFeed.Exactness

/-! # From the feed to the counts

The receiver and the probes share `pid_map`: the receiver adds to it while the
probes ask it, in any order. What it holds at any moment is the first 120
distinct PIDs among the lines taken so far, so the accesses that are counted
are known from the feed alone.
-/
namespace Ebacs.PidFeed
open Lib PageAccess
set_option autoImplicit false

/-- The PIDs of the lines that the receiver took, in that order. -/
def Feed.pids (s : Feed) : List Pid := s.handed.filterMap (fun x => sscanf x.2)

theorem foldl_addLine (lines : List Text) (m : PidMap) :
    lines.foldl addLine m = (lines.filterMap sscanf).foldl (BoundedMap.offer 1) m := by
  induction lines generalizing m with
  | nil => rfl
  | cons line lines ih =>
    rw [List.foldl_cons, ih, addLine]
    cases hPid : sscanf line with
    | none => rw [List.filterMap_cons_none hPid]
    | some pid =>
      rw [List.filterMap_cons_some hPid, List.foldl_cons]
      rfl

theorem Feed.pids_eq (s : Feed) : s.pids = (s.handed.map Prod.snd).filterMap sscanf := by
  rw [List.filterMap_map]
  rfl

theorem Feed.Fed.mem_iff {bucket : Pid → Nat} {s : Feed} (h : s.Fed bucket) (pid : Pid) :
    pid ∈ s.pidMap ↔ pid ∈ admitted maxPids s.pids := by
  rw [h, foldl_addLine, s.pids_eq]
  exact BoundedMap.mem_foldl_offer bucket 1 _ pid

theorem Synced.pids {s : Feed} {bodies consumed : List Text} (h : Synced s bodies consumed)
    (hLines : ∀ body ∈ consumed, FeedLine body) : s.pids = consumed.filterMap linePid := by
  rw [s.pids_eq, h.handed, List.filterMap_map]
  refine List.filterMap_congr ?_
  intro body hBody
  exact sscanf_feedLine (hLines body hBody)

/-- The user's side of the feed and the probes of the kernel over one `pid_map`. -/
structure Machine where
  feed : Feed
  pageAccessMap : PageAccessMap
  staticCounter : StaticCounter

def Machine.init (pageBucket : PageKey → Nat) (pidBucket : Pid → Nat) : Machine :=
  ⟨.init pidBucket, .empty pageBucket, counterCell 0⟩

def Machine.maps (s : Machine) : Maps := ⟨s.pageAccessMap, s.staticCounter, s.feed.pidMap⟩

def Machine.setMaps (s : Machine) (maps : Maps) : Machine where
  feed := { s.feed with pidMap := maps.pidMap }
  pageAccessMap := maps.pageAccessMap
  staticCounter := maps.staticCounter

inductive Move where
  | user (a : Act)
  | folioMarkAccessed (pidTgid : UInt64) (f1 : Folio)
  | filemapFreeFolio (pidTgid : UInt64) (tmpMapping : UInt64) (f1 : Folio)
  deriving DecidableEq, Repr

def move (s : Machine) : Move → Machine
  | .user a => { s with feed := step s.feed a }
  | .folioMarkAccessed pidTgid f1 => s.setMaps (folioMarkAccessed s.maps pidTgid f1)
  | .filemapFreeFolio pidTgid tmpMapping f1 =>
    s.setMaps (filemapFreeFolio s.maps pidTgid tmpMapping f1)

def together (pageBucket : PageKey → Nat) (pidBucket : Pid → Nat) (moves : List Move) : Machine :=
  moves.foldl move (.init pageBucket pidBucket)

abbrev Instant := Machine × Move

def instants (pageBucket : PageKey → Nat) (pidBucket : Pid → Nat) (moves : List Move) :
    List Instant :=
  trace move (.init pageBucket pidBucket) moves

/-- An access of the page by one of the first 120 distinct PIDs taken from the feed so far. -/
def Counts (k : PageKey) (x : Instant) : Prop :=
  match x.2 with
  | .folioMarkAccessed pidTgid f1 =>
    f1.key = k ∧ currentPid pidTgid ∈ admitted maxPids x.1.feed.pids
  | _ => False

def Evicts (k : PageKey) (x : Instant) : Prop :=
  match x.2 with
  | .filemapFreeFolio _ tmpMapping f1 => (⟨tmpMapping, f1.index⟩ : PageKey) = k
  | _ => False

def HasSpace (x : Instant) : Prop := x.1.pageAccessMap.size < maxPages

instance (k : PageKey) : DecidablePred (Counts k)
  | (s, .folioMarkAccessed pidTgid f1) =>
    inferInstanceAs (Decidable (f1.key = k ∧ currentPid pidTgid ∈ admitted maxPids s.feed.pids))
  | (_, .user _) => .isFalse id
  | (_, .filemapFreeFolio _ _ _) => .isFalse id

instance (k : PageKey) : DecidablePred (Evicts k)
  | (_, .filemapFreeFolio _ tmpMapping f1) =>
    inferInstanceAs (Decidable ((⟨tmpMapping, f1.index⟩ : PageKey) = k))
  | (_, .user _) => .isFalse id
  | (_, .folioMarkAccessed _ _) => .isFalse id

instance : DecidablePred HasSpace := fun x =>
  inferInstanceAs (Decidable (x.1.pageAccessMap.size < maxPages))

/-- The instants from the access that put the page into the map. -/
def lifetime (k : PageKey) (xs : List Instant) : List Instant :=
  lifespan (Evicts k) (fun x => Counts k x ∧ HasSpace x) xs

/-- What the probes and the updates of `pid_map` make of an instant. -/
def observed (x : Instant) : Option Moment :=
  match x.2 with
  | .user a =>
    ((step x.1.feed a).handed.drop x.1.feed.handed.length).head?.bind fun line =>
      (sscanf line.2).map fun pid => (x.1.maps, .addPid pid)
  | .folioMarkAccessed pidTgid f1 => some (x.1.maps, .folioMarkAccessed pidTgid f1)
  | .filemapFreeFolio pidTgid tmpMapping f1 =>
    some (x.1.maps, .filemapFreeFolio pidTgid tmpMapping f1)

theorem step_feed_cases (s : Feed) (a : Act) :
    (∃ x, (step s a).handed = s.handed ++ [x] ∧ (step s a).pidMap = addLine s.pidMap x.2) ∨
    (step s a).handed = s.handed ∧ (step s a).pidMap = s.pidMap := by
  cases a with
  | receiver n =>
    obtain ⟨line, stream, hHand⟩ | ⟨hMap, hHanded, _⟩ := pidReceiver_cases s n
    · refine Or.inl ⟨(s.polls, line), ?_, ?_⟩ <;> rw [PidFeed.step, hHand] <;> rfl
    · exact Or.inr ⟨hHanded, hMap⟩
  | append lines => exact Or.inr ⟨rfl, rfl⟩
  | truncate => exact Or.inr ⟨rfl, rfl⟩
  | sigInt => exact Or.inr ⟨rfl, rfl⟩

theorem feed_folioMarkAccessed (s : Machine) (pidTgid : UInt64) (f1 : Folio) :
    (folioMarkAccessed s.maps pidTgid f1).pidMap = s.feed.pidMap := by
  by_cases hPid : currentPid pidTgid ∈ s.maps.pidMap
  · exact (folioMarkAccessed_tracked f1 hPid).1
  · rw [folioMarkAccessed_untracked f1 hPid]
    rfl

/-- The feed runs as if it were alone. -/
theorem feed_move (s : Machine) (m : Move) :
    (move s m).feed = match m with
      | .user a => step s.feed a
      | _ => s.feed := by
  cases m with
  | user a => rfl
  | folioMarkAccessed pidTgid f1 =>
    rw [move, Machine.setMaps, feed_folioMarkAccessed]
  | filemapFreeFolio pidTgid tmpMapping f1 =>
    rw [move, Machine.setMaps, filemapFreeFolio_pidMap]
    rfl

theorem maps_move (s : Machine) (m : Move) :
    (move s m).maps = match observed (s, m) with
      | some x => PageAccess.step s.maps x.2
      | none => s.maps := by
  cases m with
  | user a =>
    obtain ⟨x, hHanded, hMap⟩ | ⟨hHanded, hMap⟩ := step_feed_cases s.feed a
    · simp only [observed, hHanded, List.drop_left, List.head?_cons, Option.bind_some]
      simp only [move, Machine.maps, hMap, addLine]
      cases sscanf x.2 <;> rfl
    · simp only [observed, hHanded, List.drop_length, List.head?_nil, Option.bind_none]
      simp only [move, Machine.maps, hMap]
  | folioMarkAccessed pidTgid f1 => rfl
  | filemapFreeFolio pidTgid tmpMapping f1 => rfl

theorem observed_fst {x : Instant} {y : Moment} (h : observed x = some y) : y.1 = x.1.maps := by
  obtain ⟨s, m⟩ := x
  cases m with
  | user a =>
    obtain ⟨line, _, hLine⟩ := Option.bind_eq_some_iff.mp h
    obtain ⟨pid, _, rfl⟩ := Option.map_eq_some_iff.mp hLine
    rfl
  | folioMarkAccessed pidTgid f1 =>
    cases h
    rfl
  | filemapFreeFolio pidTgid tmpMapping f1 =>
    cases h
    rfl

section Instants

variable (pageBucket : PageKey → Nat) (pidBucket : Pid → Nat) (moves : List Move)

/-- The events that the kernel sees of a run. -/
def events : List Event :=
  ((instants pageBucket pidBucket moves).filterMap observed).map Prod.snd

theorem together_concat (m : Move) :
    together pageBucket pidBucket (moves ++ [m]) =
      move (together pageBucket pidBucket moves) m := by
  rw [together, List.foldl_append]
  rfl

theorem maps_together :
    (together pageBucket pidBucket moves).maps =
      PageAccess.run pageBucket pidBucket (events pageBucket pidBucket moves) ∧
    (instants pageBucket pidBucket moves).filterMap observed =
      history pageBucket pidBucket (events pageBucket pidBucket moves) := by
  induction moves using List.reverseRecOn with
  | nil => exact ⟨rfl, rfl⟩
  | append_singleton moves m ih =>
    obtain ⟨hMaps, hHistory⟩ := ih
    have hInstants : instants pageBucket pidBucket (moves ++ [m]) =
        instants pageBucket pidBucket moves ++ [(together pageBucket pidBucket moves, m)] :=
      trace_concat _ _ _ _
    have hStep := maps_move (together pageBucket pidBucket moves) m
    rw [together_concat, hStep, events, hInstants, List.filterMap_append, List.map_append]
    cases hObserved : observed (together pageBucket pidBucket moves, m) with
    | none =>
      rw [List.filterMap_cons_none hObserved, List.filterMap_nil, List.map_nil, List.append_nil,
        List.append_nil]
      exact ⟨hMaps, hHistory⟩
    | some x =>
      have hFst := observed_fst hObserved
      rw [List.filterMap_cons_some hObserved, List.filterMap_nil, List.map_singleton]
      constructor
      · rw [PageAccess.run, List.foldl_append, ← PageAccess.run, hMaps]
        rfl
      · rw [history, trace_concat, ← history]
        change _ ++ _ = history pageBucket pidBucket (events pageBucket pidBucket moves) ++
          [(PageAccess.run pageBucket pidBucket (events pageBucket pidBucket moves), x.2)]
        rw [← hMaps, ← hHistory, ← hFst]

theorem fed_instants : ∀ x ∈ instants pageBucket pidBucket moves, x.1.feed.Fed pidBucket := by
  refine trace_invariant (fun s : Machine => s.feed.Fed pidBucket) (fun _ _ => True) ?_ rfl
    (fun _ _ => trivial)
  intro s m _ h
  rw [feed_move]
  cases m with
  | user a => exact h.step a
  | folioMarkAccessed pidTgid f1 => exact h
  | filemapFreeFolio pidTgid tmpMapping f1 => exact h

end Instants

/-- An instant and what the kernel sees of it agree on what happens to the page. -/
theorem observed_agrees {bucket : Pid → Nat} {x : Instant} (hFed : x.1.feed.Fed bucket)
    (k : PageKey) :
    (∀ y, observed x = some y → ((Tracked k y ↔ Counts k x) ∧ (Frees k y ↔ Evicts k x) ∧
      (FoundRoom y ↔ HasSpace x))) ∧
    (observed x = none → ¬Counts k x ∧ ¬Evicts k x) := by
  obtain ⟨s, m⟩ := x
  cases m with
  | user a =>
    refine ⟨?_, fun _ => ⟨id, id⟩⟩
    intro y hy
    have hFst := observed_fst hy
    obtain ⟨line, _, hLine⟩ := Option.bind_eq_some_iff.mp hy
    obtain ⟨pid, _, rfl⟩ := Option.map_eq_some_iff.mp hLine
    exact ⟨iff_of_false (by simp [Tracked, trackedKey]) id, Iff.rfl, Iff.rfl⟩
  | folioMarkAccessed pidTgid f1 =>
    refine ⟨?_, fun hNone => by cases hNone⟩
    rintro y ⟨rfl⟩
    refine ⟨?_, Iff.rfl, Iff.rfl⟩
    have hPid := hFed.mem_iff (currentPid pidTgid)
    simp only [Tracked, trackedKey, Counts, Machine.maps, hPid]
    split <;> simp_all
  | filemapFreeFolio pidTgid tmpMapping f1 =>
    refine ⟨?_, fun hNone => by cases hNone⟩
    rintro y ⟨rfl⟩
    exact ⟨iff_of_false (by simp [Tracked, trackedKey]) id, Iff.rfl, Iff.rfl⟩

theorem observed_lifetime (pageBucket : PageKey → Nat) (pidBucket : Pid → Nat)
    (moves : List Move) (k : PageKey) :
    let xs := instants pageBucket pidBucket moves
    (lifetime k xs).filterMap observed = fromInsertion k (xs.filterMap observed) ∧
    (lifetime k xs = [] ↔ fromInsertion k (xs.filterMap observed) = []) := by
  intro xs
  refine lifespan_filterMap ?_ ?_
  · intro x hx hNone
    obtain ⟨hCounts, hEvicts⟩ := (observed_agrees (fed_instants _ _ _ x hx) k).2 hNone
    exact ⟨fun hStart => hCounts hStart.1, hEvicts⟩
  · intro x hx y hy
    obtain ⟨hTracked, hFrees, hRoom⟩ := (observed_agrees (fed_instants _ _ _ x hx) k).1 y hy
    exact ⟨and_congr hTracked hRoom, hFrees⟩

theorem countP_observed {xs : List Instant} {bucket : Pid → Nat}
    (hFed : ∀ x ∈ xs, x.1.feed.Fed bucket) (k : PageKey) :
    (xs.filterMap observed).countP (fun y => Tracked k y) = xs.countP (fun x => Counts k x) := by
  rw [List.countP_filterMap]
  refine List.countP_congr ?_
  intro x hx
  obtain ⟨hSome, hNone⟩ := observed_agrees (hFed x hx) k
  cases hObserved : observed x with
  | none => simp [(hNone hObserved).1]
  | some y => simp [(hSome y hObserved).1]

def callerOf : Instant → Option (Pid × UInt64)
  | (_, .folioMarkAccessed pidTgid f1) => some (currentPid pidTgid, f1.folioNrPages.toUInt64)
  | _ => none

def lastAccess (k : PageKey) (xs : List Instant) : Option (Pid × UInt64) :=
  (xs.filter (fun x => Counts k x)).getLast?.bind callerOf

theorem lastAccess_concat (k : PageKey) (xs : List Instant) (x : Instant) :
    lastAccess k (xs ++ [x]) = if Counts k x then callerOf x else lastAccess k xs := by
  by_cases hCounts : Counts k x <;> simp [lastAccess, List.filter_append, hCounts]

theorem caller_observed {k : PageKey} {x : Instant} {y : Moment} (hCounts : Counts k x)
    (h : observed x = some y) : caller y.2 = callerOf x := by
  obtain ⟨s, m⟩ := x
  cases m with
  | folioMarkAccessed pidTgid f1 =>
    cases h
    rfl
  | user a => exact hCounts.elim
  | filemapFreeFolio pidTgid tmpMapping f1 => exact hCounts.elim

theorem latestAccess_observed {xs : List Instant} {bucket : Pid → Nat}
    (hFed : ∀ x ∈ xs, x.1.feed.Fed bucket) (k : PageKey) :
    latestAccess k (xs.filterMap observed) = lastAccess k xs := by
  induction xs using List.reverseRecOn with
  | nil => rfl
  | append_singleton xs x ih =>
    have hBefore := ih (fun y hy => hFed y (List.mem_append_left _ hy))
    have hx := hFed x (List.mem_append_right _ (List.mem_singleton_self x))
    obtain ⟨hSome, hNone⟩ := observed_agrees hx k
    rw [List.filterMap_append, lastAccess_concat]
    cases hObserved : observed x with
    | none =>
      rw [List.filterMap_cons_none hObserved, List.filterMap_nil, List.append_nil,
        if_neg (hNone hObserved).1]
      exact hBefore
    | some y =>
      rw [List.filterMap_cons_some hObserved, List.filterMap_nil, latestAccess_concat, hBefore]
      simp only [(hSome y hObserved).1]
      split
      · rename_i hCounts
        exact caller_observed hCounts hObserved
      · rfl

/-- The entry of a page, or that there is none, is what the accesses from the feed make it. -/
structure Counted (s : Machine) (xs : List Instant) (k : PageKey) : Prop where
  live : k ∈ s.pageAccessMap ↔ lifetime k xs ≠ []
  count : ∀ v, s.pageAccessMap.lookupElem k = some v →
    v.refCount = UInt64.ofNat ((lifetime k xs).countP (fun x => Counts k x))
  latest : ∀ v, s.pageAccessMap.lookupElem k = some v →
    lastAccess k xs = some (v.pid, v.pageCount)

theorem counted_together (pageBucket : PageKey → Nat) (pidBucket : Pid → Nat)
    (moves : List Move) (k : PageKey) :
    Counted (together pageBucket pidBucket moves) (instants pageBucket pidBucket moves) k := by
  have hFed := fed_instants pageBucket pidBucket moves
  obtain ⟨hMaps, hHistory⟩ := maps_together pageBucket pidBucket moves
  obtain ⟨hLife, hNil⟩ := observed_lifetime pageBucket pidBucket moves k
  have hAgrees := agrees_run pageBucket pidBucket (events pageBucket pidBucket moves) k
  rw [← hMaps, ← hHistory] at hAgrees
  refine ⟨hAgrees.live.trans hNil.not.symm, fun v hv => ?_, fun v hv => ?_⟩
  · have hAlive : ∀ x ∈ lifetime k (instants pageBucket pidBucket moves),
        x.1.feed.Fed pidBucket := by
      intro x hx
      exact hFed x (mem_of_mem_lifespan hx)
    rw [hAgrees.count v hv, accessCount, ← hLife, countP_observed hAlive]
  · rw [← latestAccess_observed hFed, hAgrees.latest v hv]

/-- In every interleaving of the feed, the receiver and the probes a page is in the map when one
of the first 120 distinct PIDs taken from the feed accessed it since it was freed, and found
room; its count is the number of such accesses from then on. -/
theorem accesses_counted_from_feed (pageBucket : PageKey → Nat) (pidBucket : Pid → Nat)
    (moves : List Move) (k : PageKey) :
    let s := together pageBucket pidBucket moves
    let xs := instants pageBucket pidBucket moves
    (k ∈ s.pageAccessMap ↔ lifetime k xs ≠ []) ∧
    ∀ v, s.pageAccessMap.lookupElem k = some v →
      v.refCount = UInt64.ofNat ((lifetime k xs).countP (fun x => Counts k x)) ∧
      lastAccess k xs = some (v.pid, v.pageCount) := by
  intro s xs
  have hCounted := counted_together pageBucket pidBucket moves k
  exact ⟨hCounted.live, fun v hv => ⟨hCounted.count v hv, hCounted.latest v hv⟩⟩

end Ebacs.PidFeed
