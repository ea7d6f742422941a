import Futurehead.Base.Table

/-!
# A table behind two caches

Values are put into the first cache. A flush moves the first cache to the place of the second and
writes it to the database, and what it writes is seen by others once it is committed. A reader looks
into both caches and then into a database that was the committed one at some earlier moment.
-/

universe u v w

/-- Two caches in front of a database. -/
structure WriteBack (K : Type u) (V : Type v) where
  l1 : Table K V
  l2 : Table K V
  database : Table K V
  /-- What was committed before, the newest first. -/
  older : List (Table K V)
  /-- The second cache is being written and not yet committed. -/
  flushing : Bool

namespace WriteBack

variable {K : Type u} {V : Type v} [DecidableEq K]

def new (database : Table K V) : WriteBack K V := ⟨∅, ∅, database, [], false⟩

variable (s : WriteBack K V)

/-- What a transaction reads after which `age` flushes were committed. -/
def snapshot (age : Nat) : Option (Table K V) := (s.database :: s.older)[age]?

/-- What a reader finds that has the snapshot. -/
def current (snapshot : Table K V) (k : K) : Option V :=
  (s.l1.lookup k).or ((s.l2.lookup k).or (snapshot.lookup k))

def latest (k : K) : Option V := s.current s.database k

def put (k : K) (x : V) : WriteBack K V := { s with l1 := s.l1.insert k x }

/-- The caches are swapped, and the first one is cleared. -/
def flush : WriteBack K V := { s with l1 := ∅, l2 := s.l1, flushing := true }

def commit : WriteBack K V :=
  { s with
    database := s.l2 ∪ s.database
    older := s.database :: s.older
    flushing := false }

/-- What a reader finds in the database is what is committed, as far as `f` tells. -/
def Fresh {β : Type w} (f : V → β) (snapshot : Table K V) (k : K) : Prop :=
  s.l1.lookup k = none → s.l2.lookup k = none →
    (snapshot.lookup k).map f = (s.database.lookup k).map f

/-- While no flush is under way, the database has what is in the second cache, and for every other
key what it had before the last commit. -/
structure Ok : Prop where
  written : s.flushing = false → ∀ {k x}, s.l2.lookup k = some x → s.database.lookup k = some x
  unwritten : s.flushing = false → ∀ {previous}, s.older.head? = some previous →
    ∀ {k}, s.l2.lookup k = none → previous.lookup k = s.database.lookup k

variable {s} {k k' : K} {x : V}

theorem lookup_union (m m' : Table K V) (k : K) :
    (m ∪ m').lookup k = (m.lookup k).or (m'.lookup k) := by
  cases h : m.lookup k with
  | some x => rw [Finmap.lookup_union_left (Finmap.mem_of_lookup_eq_some h), h, Option.some_or]
  | none => rw [Finmap.lookup_union_right (Finmap.lookup_eq_none.1 h), Option.none_or]

/-! ## The latest value -/

theorem current_map_eq {β : Type w} {f : V → β} {snapshot : Table K V} (h : s.Fresh f snapshot k) :
    (s.current snapshot k).map f = (s.latest k).map f := by
  unfold latest current
  cases h1 : s.l1.lookup k with
  | some x => rfl
  | none =>
    cases h2 : s.l2.lookup k with
    | some x => rfl
    | none => exact h h1 h2

theorem latest_put : (s.put k x).latest k' = if k' = k then some x else s.latest k' := by
  unfold latest current put
  dsimp only
  rw [Finmap.lookup_insert_eq]
  split <;> rfl

theorem latest_flush (h : s.Ok) (hidle : s.flushing = false) : s.flush.latest k = s.latest k := by
  unfold latest current flush
  dsimp only
  rw [Finmap.lookup_empty]
  cases s.l1.lookup k with
  | some x => rfl
  | none =>
    cases h2 : s.l2.lookup k with
    | some x => exact h.written hidle h2
    | none => rfl

theorem latest_commit : s.commit.latest k = s.latest k := by
  unfold latest current commit
  dsimp only
  rw [lookup_union]
  cases s.l1.lookup k with
  | some x => rfl
  | none => cases s.l2.lookup k <;> rfl

/-! ## The invariant -/

theorem ok_new (database : Table K V) : (new database).Ok := by
  refine ⟨fun _ k x h => ?_, fun _ _ h => by cases h⟩
  change (∅ : Table K V).lookup k = some x at h
  rw [Finmap.lookup_empty] at h
  cases h

theorem Ok.put (h : s.Ok) (k : K) (x : V) : (s.put k x).Ok := ⟨h.written, h.unwritten⟩

theorem ok_flush (s : WriteBack K V) : s.flush.Ok where
  written hidle := by cases hidle
  unwritten hidle := by cases hidle

theorem ok_commit (s : WriteBack K V) : s.commit.Ok := by
  refine ⟨fun _ k x h => ?_, fun _ previous hprv k h => ?_⟩
  · change (s.l2 ∪ s.database).lookup k = some x
    rw [lookup_union, show s.l2.lookup k = some x from h, Option.some_or]
  · obtain rfl := Option.some.inj hprv
    change s.database.lookup k = (s.l2 ∪ s.database).lookup k
    rw [lookup_union, show s.l2.lookup k = none from h, Option.none_or]

theorem Ok.fresh_of_recent {β : Type w} {f : V → β} (h : s.Ok) {age : Nat} {snapshot : Table K V}
    (hsnap : s.snapshot age = some snapshot)
    (hage : age = 0 ∨ age = 1 ∧ s.flushing = false) : s.Fresh f snapshot k := by
  intro _ h2
  rcases hage with rfl | ⟨rfl, hidle⟩
  · cases hsnap
    rfl
  · have hprv : s.older.head? = some snapshot := by
      rw [List.head?_eq_getElem?]
      exact hsnap
    rw [h.unwritten hidle hprv h2]

end WriteBack
