import Futurehead.Voting.Candidates
import Futurehead.Voting.Restart
import Futurehead.Wire.Vote

/-!
# The index of active elections (`futurehead/node/active_transactions`)

The running elections are registered twice: `roots` has each under its root, and `blocks` leads from
the hash of a candidate to its election, so that votes find it. Candidates are added by
`active_transactions::insert` and `publish`; `election::cleanup` takes them out of the index, and its
callers take the election out of `roots`. All of this happens under one mutex.

A pointer to an election is its number in `elections`, where elections stay after the end. What a call
reads from the rest of the node is part of the action, so that a run covers every choice.
-/

namespace Futurehead

open List Finmap

/-- The part of `active_transactions` that registers elections. -/
structure ActiveTransactions where
  /-- All elections that were ever started. -/
  elections : List Election := []
  roots : Table QualifiedRoot Nat := ∅
  blocks : Table BlockHash Nat := ∅
  recentlyConfirmed : List (QualifiedRoot × BlockHash) := []
  recentlyDropped : DroppedElections := {}
  /-- For each call of `cleanup` the number of candidates, and the values of `erased`. -/
  cleanups : List (Nat × Multiset Nat) := []

namespace ActiveTransactions

/-! ## The code -/

def recentlyConfirmedSize : Nat := 65536

/-- `active_transactions::add_recently_confirmed`. Roots and hashes are unique in the container. -/
def addRecentlyConfirmed (root : QualifiedRoot) (hash : BlockHash)
    (recent : List (QualifiedRoot × BlockHash)) : List (QualifiedRoot × BlockHash) :=
  let recent :=
    if recent.any fun x => x.1 = root || x.2 = hash then recent else recent ++ [(root, hash)]
  if recentlyConfirmedSize < recent.length then recent.tail else recent

/-- `blocks.emplace`: nothing happens if the hash is there already. -/
def emplaceBlock (hash : BlockHash) (i : Nat) (s : ActiveTransactions) : ActiveTransactions :=
  if hash ∈ s.blocks then s else { s with blocks := s.blocks.insert hash i }

/-- One round of the loop of `election::cleanup`. -/
def eraseCandidate (x : Table BlockHash Nat × Multiset Nat) (hash : BlockHash) :
    Table BlockHash Nat × Multiset Nat :=
  (x.1.erase hash, (if hash ∈ x.1 then 1 else 0) ::ₘ x.2)

/-- The order of the candidates does not matter. -/
instance eraseCandidateComm : RightCommutative eraseCandidate where
  right_comm x hash hash' := by
    by_cases heq : hash = hash'
    · rw [heq]
    · unfold eraseCandidate
      have herase : (x.1.erase hash).erase hash' = (x.1.erase hash').erase hash :=
        erase_erase
      simp only [Finmap.mem_erase, heq, Ne.symm heq, ne_eq, not_false_eq_true, true_and, herase]
      rw [Multiset.cons_swap]

/-- `election::cleanup` with what it does to the node. -/
def cleanup (i : Nat) (now : Nat) (s : ActiveTransactions) : Option ActiveTransactions := do
  let e ← s.elections[i]?
  let (blocks, erased) := e.blocks.keys.val.foldl eraseCandidate (s.blocks, 0)
  return { s with
    elections := s.elections.set i e.cleanup
    blocks := blocks
    recentlyDropped := if e.confirmed then s.recentlyDropped
      else s.recentlyDropped.add e.status.winner.hashables.qualifiedRoot now
    cleanups := s.cleanups ++ [(e.blocks.keys.card, erased)] }

/-- `cleanup`, and the election is taken out of `roots`. -/
def eraseElection (root : QualifiedRoot) (i : Nat) (now : Nat) (s : ActiveTransactions) :
    Option ActiveTransactions := do
  let s ← s.cleanup i now
  return { s with roots := s.roots.erase root }

/-- A pass of `request_confirm`. -/
structure ConfirmPass where
  /-- The roots by descending difficulty, each with what its call finds in the node. -/
  roots : List (QualifiedRoot × NodeView)
  loopTarget : Nat
  activeElectionsSize : Nat
  electionTtlCutoff : Int
  watched : QualifiedRoot → Bool
  now : QualifiedRoot → Nat

/-- Whether an election is over, and the election itself. An election that is old is dropped when
there are too many. -/
def ConfirmPass.visit (pass : ConfirmPass) (root : QualifiedRoot) (node : NodeView)
    (unconfirmedCount : Nat) (e : Election) : Bool × Election :=
  let overflow := decide (pass.activeElectionsSize < unconfirmedCount) &&
    decide (e.electionStart < pass.electionTtlCutoff) && !pass.watched root
  if overflow then (true, e) else e.transitionTime node

variable (p : Params) (notAnAccount : Account)

/-- A call of an election, with what it adds to `recently_confirmed`. -/
def callElection (view : ElectionView) (i : Nat) (call : Election.Call) (s : ActiveTransactions) :
    Option ActiveTransactions := do
  let e ← s.elections[i]?
  let e' ← e.call p view call
  return { s with
    elections := s.elections.set i e'
    recentlyConfirmed := (e'.confirmations.drop e.confirmations.length).foldl (fun recent status =>
      addRecentlyConfirmed status.winner.hashables.qualifiedRoot (p.hash status.winner) recent)
      s.recentlyConfirmed }

/-- `active_transactions::insert_impl`: the election that is started. -/
def insertImpl (view : ElectionView) (block : Block) (s : ActiveTransactions) :
    Option (ActiveTransactions × Option Nat) :=
  let root := block.hashables.qualifiedRoot
  if root ∈ s.roots then some (s, none)
  else if s.recentlyConfirmed.any fun x => x.1 = root then some (s, none)
  else do
    let i := s.elections.length
    let s := { s with
      elections := s.elections ++ [Election.start p view.node notAnAccount block]
      roots := s.roots.insert root i }
    let s := s.emplaceBlock (p.hash block) i
    let s ← s.callElection p view i (.insertInactiveVotesCache (p.hash block))
    return (s, some i)

def publish (view : ElectionView) (block : Block) (s : ActiveTransactions) :
    Option ActiveTransactions :=
  match s.roots.lookup block.hashables.qualifiedRoot with
  | none => some s
  | some i => do
    let e ← s.elections[i]?
    let s ← s.callElection p view i (.publish block)
    return if e.publishResult p view.node block then s else s.emplaceBlock (p.hash block) i

def electionOf (s : ActiveTransactions) : VoteBlock → Option Nat
  | .hash hash => s.blocks.lookup hash
  | .block b => s.roots.lookup b.hashables.qualifiedRoot

def hashOf : VoteBlock → BlockHash
  | .hash hash => hash
  | .block b => p.hash b

/-- The loop of `active_transactions::vote`. A vote without an election goes to the cache for
inactive votes, which is in the views. -/
def vote (account : Account) (sequence : Nat) :
    List (ElectionView × VoteBlock) → ActiveTransactions → Option ActiveTransactions
  | [], s => some s
  | (view, voteBlock) :: rest, s =>
    match s.electionOf voteBlock with
    | none => vote account sequence rest s
    | some i => do
      let s ← s.callElection p view i (.vote account sequence (hashOf p voteBlock))
      vote account sequence rest s

/-- The loop of `active_transactions::request_confirm`. The elections that `activate_dependencies`
starts afterwards are insertions of their own: the mutex is released in between. -/
def requestConfirm (pass : ConfirmPass) :
    List (QualifiedRoot × NodeView) → Nat → ActiveTransactions → Option ActiveTransactions
  | [], _, s => some s
  | (root, node) :: rest, unconfirmedCount, s =>
    if unconfirmedCount < pass.loopTarget then
      match s.roots.lookup root with
      | none => requestConfirm pass rest unconfirmedCount s
      | some i => do
        let e ← s.elections[i]?
        let unconfirmedCount := if e.confirmed then unconfirmedCount else unconfirmedCount + 1
        let (ended, e) := pass.visit root node unconfirmedCount e
        let s := { s with elections := s.elections.set i e }
        let s ← if ended then s.eraseElection root i (pass.now root) else some s
        requestConfirm pass rest unconfirmedCount s
    else some s

def erase (now : Nat) (block : Block) (s : ActiveTransactions) : Option ActiveTransactions :=
  let root := block.hashables.qualifiedRoot
  match s.roots.lookup root with
  | none => some s
  | some i => s.eraseElection root i now

/-- `active_transactions::restart`; what it does to the ledger is in `Ledger.restartElection`. -/
def restart (view : ElectionView) (l : Ledger) (processing : BlockHash → Bool) (now : Nat)
    (b : Block) (s : ActiveTransactions) : Option ActiveTransactions := do
  let (_, insertion) ← l.restartElection p ⟨s.recentlyDropped, now, processing⟩ b
  match insertion with
  | none => return s
  | some (block, _) => do
    let (s, inserted) ← s.insertImpl p notAnAccount view block
    match inserted with
    | none => return s
    | some i => do
      let s ← s.callElection p view i .transitionActive
      return { s with
        recentlyDropped := s.recentlyDropped.erase block.hashables.qualifiedRoot }

/-- A call of the election with a root, if there is one. -/
def callRoot (view : ElectionView) (root : QualifiedRoot) (call : Election.Call)
    (s : ActiveTransactions) : Option ActiveTransactions :=
  match s.roots.lookup root with
  | none => some s
  | some i => s.callElection p view i call

def confirmBlock (view : ElectionView) (hash : BlockHash) (s : ActiveTransactions) :
    Option ActiveTransactions :=
  match s.blocks.lookup hash with
  | none => some s
  | some i => s.callElection p view i (.confirmBlock hash)

/-- What is done under the mutex. -/
inductive Action where
  | insert (view : ElectionView) (block : Block)
  | publish (view : ElectionView) (block : Block)
  | vote (account : Account) (sequence : Nat) (blocks : List (ElectionView × VoteBlock))
  | requestConfirm (pass : ConfirmPass)
  | erase (now : Nat) (block : Block)
  | restart (view : ElectionView) (l : Ledger) (processing : BlockHash → Bool) (now : Nat) (b : Block)
  | transitionActive (view : ElectionView) (root : QualifiedRoot)
  | transitionPassive (view : ElectionView) (root : QualifiedRoot)
  | confirmBlock (view : ElectionView) (hash : BlockHash)

def exec (s : ActiveTransactions) : Action → Option ActiveTransactions
  | .insert view block => (s.insertImpl p notAnAccount view block).map (·.1)
  | .publish view block => s.publish p view block
  | .vote account sequence blocks => s.vote p account sequence blocks
  | .requestConfirm pass => s.requestConfirm pass pass.roots 0
  | .erase now block => s.erase now block
  | .restart view l processing now b => s.restart p notAnAccount view l processing now b
  | .transitionActive view root => s.callRoot p view root .transitionActive
  | .transitionPassive view root => s.callRoot p view root .transitionPassive
  | .confirmBlock view hash => s.confirmBlock p view hash

/-- The blocks are known, nobody votes as `not_an_account`, and a restart finds its block in the
ledger. -/
def Allowed (known : Block → Prop) (s : ActiveTransactions) : Action → Prop
  | .insert view block => view.node.Fair notAnAccount ∧ known block
  | .publish view block => view.node.Fair notAnAccount ∧ known block
  | .vote account _ blocks => account ≠ notAnAccount ∧ ∀ x ∈ blocks, x.1.node.Fair notAnAccount
  | .requestConfirm _ => True
  | .erase _ _ => True
  | .restart view l processing now b => view.node.Fair notAnAccount ∧
    ∃ l' insertion, l.restartElection p ⟨s.recentlyDropped, now, processing⟩ b = some (l', insertion) ∧
      ∀ x ∈ insertion, known x.1
  | .transitionActive view _ => view.node.Fair notAnAccount
  | .transitionPassive view _ => view.node.Fair notAnAccount
  | .confirmBlock view _ => view.node.Fair notAnAccount

end ActiveTransactions

/-- No two known blocks of different roots have the same hash. -/
def DeterminesRoot (p : Params) (known : Block → Prop) : Prop :=
  ∀ b b', known b → known b' → p.hash b = p.hash b' →
    b.hashables.qualifiedRoot = b'.hashables.qualifiedRoot

namespace ActiveTransactions

/-! ## The registers agree -/

variable {p : Params} {known : Block → Prop} {notAnAccount : Account} {root root' : QualifiedRoot}
  {s : ActiveTransactions} {e e' : Election} {i : Nat} {hash : BlockHash} {block : Block}

structure Indexed (p : Params) (known : Block → Prop) (notAnAccount : Account)
    (s : ActiveTransactions) : Prop where
  seated : ∀ {root i}, s.roots.lookup root = some i →
    ∃ e, s.elections[i]? = some e ∧ e.Seated p known notAnAccount root
  index : ∀ hash i, s.blocks.lookup hash = some i ↔ ∃ root e, s.roots.lookup root = some i ∧
    s.elections[i]? = some e ∧ hash ∈ e.blocks
  erased : ∀ c ∈ s.cleanups, c.2 = Multiset.replicate c.1 1

section

variable (h : s.Indexed p known notAnAccount)

include h

theorem Indexed.root_unique (hi : s.roots.lookup root = some i)
    (hi' : s.roots.lookup root' = some i) : root' = root := by
  obtain ⟨e, he, hseat⟩ := h.seated hi
  obtain ⟨e', he', hseat'⟩ := h.seated hi'
  cases he.symm.trans he'
  rw [← (hseat.candidate hseat.winner).2.2, (hseat'.candidate hseat.winner).2.2]

theorem Indexed.lookup_iff (hi : s.roots.lookup root = some i) (he : s.elections[i]? = some e) :
    s.blocks.lookup hash = some i ↔ hash ∈ e.blocks := by
  rw [h.index]
  constructor
  · rintro ⟨-, e', -, he', hmem⟩
    cases he.symm.trans he'
    exact hmem
  · exact fun hmem => ⟨root, e, hi, he, hmem⟩

theorem Indexed.lookup_root (D : DeterminesRoot p known) (hkn : known block)
    (hlk : s.blocks.lookup (p.hash block) = some i) :
    s.roots.lookup block.hashables.qualifiedRoot = some i := by
  obtain ⟨root, e, hi, he, hmem⟩ := (h.index _ _).1 hlk
  obtain ⟨e', he', hseat⟩ := h.seated hi
  cases he.symm.trans he'
  obtain ⟨b, hb⟩ := mem_iff.1 hmem
  obtain ⟨hkn', hhash, hroot⟩ := hseat.candidate hb
  rw [D block b hkn hkn' hhash.symm, hroot, hi]

theorem Indexed.set (hi : s.roots.lookup root = some i)
    (hseat : e'.Seated p known notAnAccount root) {blocks : Table BlockHash Nat}
    (hbs : ∀ hash j, blocks.lookup hash = some j ↔
      if j = i then hash ∈ e'.blocks else s.blocks.lookup hash = some j)
    (recent : List (QualifiedRoot × BlockHash)) : Indexed p known notAnAccount { s with
      elections := s.elections.set i e', blocks := blocks, recentlyConfirmed := recent } := by
  obtain ⟨e, he, -⟩ := h.seated hi
  have hset : (s.elections.set i e')[i]? = some e' :=
    getElem?_set_self (List.getElem?_eq_some_iff.1 he).1
  have hoth {j : Nat} (hj : j ≠ i) : (s.elections.set i e')[j]? = s.elections[j]? :=
    getElem?_set_ne (Ne.symm hj)
  refine ⟨fun {root' j} hroot' => ?_, fun hash j => ?_, h.erased⟩
  · by_cases hj : j = i
    · subst hj
      obtain rfl := h.root_unique hi hroot'
      exact ⟨e', hset, hseat⟩
    · obtain ⟨e'', he'', hseat''⟩ := h.seated hroot'
      exact ⟨e'', (hoth hj).trans he'', hseat''⟩
  · refine (hbs hash j).trans ?_
    split
    · next hj =>
      subst hj
      constructor
      · exact fun hmem => ⟨root, e', hi, hset, hmem⟩
      · rintro ⟨-, e'', -, he'', hmem⟩
        cases hset.symm.trans he''
        exact hmem
    · next hj =>
      rw [h.index]
      constructor
      · exact fun ⟨root', e'', hroot', he'', hmem⟩ => ⟨root', e'', hroot', (hoth hj).trans he'', hmem⟩
      · exact fun ⟨root', e'', hroot', he'', hmem⟩ =>
          ⟨root', e'', hroot', (hoth hj).symm.trans he'', hmem⟩

theorem Indexed.set_same (hi : s.roots.lookup root = some i) (he : s.elections[i]? = some e)
    (hseat : e'.Seated p known notAnAccount root)
    (hsame : ∀ hash, hash ∈ e'.blocks ↔ hash ∈ e.blocks) (recent : List (QualifiedRoot × BlockHash)) :
    Indexed p known notAnAccount { s with
      elections := s.elections.set i e', recentlyConfirmed := recent } := by
  refine h.set hi hseat (fun hash j => ?_) recent
  split
  · next hj => rw [hj, hsame hash, h.lookup_iff hi he]
  · exact Iff.rfl

theorem Indexed.push (hroot : root ∉ s.roots) (hseat : e.Seated p known notAnAccount root)
    (hfree : hash ∉ s.blocks) (hbs : ∀ hash', hash' ∈ e.blocks ↔ hash' = hash) :
    Indexed p known notAnAccount { s with
      elections := s.elections ++ [e]
      roots := s.roots.insert root s.elections.length
      blocks := s.blocks.insert hash s.elections.length } := by
  have hnew : (s.elections ++ [e])[s.elections.length]? = some e := by simp
  have hold {j : Nat} {e' : Election} (he' : s.elections[j]? = some e') :
      (s.elections ++ [e])[j]? = some e' := by
    rw [getElem?_append_left (List.getElem?_eq_some_iff.1 he').1, he']
  refine ⟨fun {root' j} hroot' => ?_, fun hash' j => ?_, h.erased⟩
  · rcases (Finmap.lookup_insert_eq_some hroot).1 hroot' with ⟨rfl, rfl⟩ | hroot'
    · exact ⟨e, hnew, hseat⟩
    · obtain ⟨e', he', hseat'⟩ := h.seated hroot'
      exact ⟨e', hold he', hseat'⟩
  · refine (Finmap.lookup_insert_eq_some hfree).trans ?_
    constructor
    · rintro (⟨rfl, rfl⟩ | hlk)
      · exact ⟨root, e, lookup_insert _, hnew, (hbs _).2 rfl⟩
      · obtain ⟨root', e', hroot', he', hmem⟩ := (h.index _ _).1 hlk
        exact ⟨root', e', (Finmap.lookup_insert_eq_some hroot).2 (.inr hroot'), hold he', hmem⟩
    · rintro ⟨root', e', hroot', he', hmem⟩
      rcases (Finmap.lookup_insert_eq_some hroot).1 hroot' with ⟨rfl, rfl⟩ | hroot'
      · cases hnew.symm.trans he'
        exact .inl ⟨(hbs _).1 hmem, rfl⟩
      · obtain ⟨e'', he'', -⟩ := h.seated hroot'
        cases (hold he'').symm.trans he'
        exact .inr ((h.index _ _).2 ⟨root', _, hroot', he'', hmem⟩)

end

/-! ## Cleanup -/

variable {hashes : Multiset BlockHash} {x : Table BlockHash Nat × Multiset Nat}

theorem lookup_foldl_eraseCandidate : (hashes.foldl eraseCandidate x).1.lookup hash = some i ↔
      hash ∉ hashes ∧ x.1.lookup hash = some i := by
  induction hashes using Multiset.induction_on generalizing x with
  | empty => simp
  | cons hash' hashes ih =>
    rw [Multiset.foldl_cons, ih, eraseCandidate, Finmap.lookup_erase_eq_some, Multiset.mem_cons]
    tauto

theorem erased_foldl_eraseCandidate (hnd : hashes.Nodup) (hmem : ∀ hash ∈ hashes, hash ∈ x.1) :
    (hashes.foldl eraseCandidate x).2 = Multiset.replicate hashes.card 1 + x.2 := by
  induction hashes using Multiset.induction_on generalizing x with
  | empty => simp
  | cons hash hashes ih =>
    rw [Multiset.nodup_cons] at hnd
    rw [Multiset.foldl_cons, ih hnd.2]
    · unfold eraseCandidate
      rw [if_pos (hmem hash (Multiset.mem_cons_self _ _)), Multiset.card_cons, Multiset.replicate_succ,
        Multiset.cons_add, Multiset.add_cons]
    · intro hash' hmem'
      refine Finmap.mem_erase.2 ⟨?_, hmem hash' (Multiset.mem_cons_of_mem hmem')⟩
      rintro rfl
      exact hnd.1 hmem'

theorem Indexed.eraseElection (h : s.Indexed p known notAnAccount)
    (hi : s.roots.lookup root = some i) (now : Nat) :
    ∃ s', s.eraseElection root i now = some s' ∧ s'.Indexed p known notAnAccount := by
  obtain ⟨e, he, hseat⟩ := h.seated hi
  unfold ActiveTransactions.eraseElection cleanup
  simp only [he, Option.bind_eq_bind, Option.bind_some, Option.pure_def]
  have hoth {root' : QualifiedRoot} {j : Nat} (hne : root' ≠ root)
      (hroot' : s.roots.lookup root' = some j) : i ≠ j := by
    rintro rfl
    exact hne (h.root_unique hi hroot')
  refine ⟨_, rfl, fun {root' j} hroot' => ?_, fun hash j => ?_, fun c hc => ?_⟩
  · obtain ⟨hne, hroot'⟩ := Finmap.lookup_erase_eq_some.1 hroot'
    obtain ⟨e', he', hseat'⟩ := h.seated hroot'
    exact ⟨e', (getElem?_set_ne (hoth hne hroot')).trans he', hseat'⟩
  · refine lookup_foldl_eraseCandidate.trans ?_
    constructor
    · rintro ⟨hnot, hlk⟩
      obtain ⟨root', e', hroot', he', hmem⟩ := (h.index _ _).1 hlk
      have hne : root' ≠ root := by
        rintro rfl
        cases hi.symm.trans hroot'
        cases he.symm.trans he'
        exact hnot (Finmap.mem_keys.2 hmem)
      exact ⟨root', e', Finmap.lookup_erase_eq_some.2 ⟨hne, hroot'⟩,
        (getElem?_set_ne (hoth hne hroot')).trans he', hmem⟩
    · rintro ⟨root', e', hroot', he', hmem⟩
      obtain ⟨hne, hroot'⟩ := Finmap.lookup_erase_eq_some.1 hroot'
      have hij := hoth hne hroot'
      rw [getElem?_set_ne hij] at he'
      have hlk := (h.index _ _).2 ⟨root', e', hroot', he', hmem⟩
      refine ⟨fun hmem' => hij ?_, hlk⟩
      have hlk' := (h.lookup_iff hi he).2 (Finmap.mem_keys.1 hmem')
      exact Option.some.inj (hlk'.symm.trans hlk)
  · rcases mem_append.1 hc with hc | hc
    · exact h.erased c hc
    · rw [List.mem_singleton.1 hc]
      refine (erased_foldl_eraseCandidate e.blocks.keys.nodup fun hash hmem => ?_).trans (add_zero _)
      exact mem_iff.2 ⟨i, (h.lookup_iff hi he).2 (Finmap.mem_keys.1 hmem)⟩

/-! ## Calls -/

variable {view : ElectionView}

section

variable (h : s.Indexed p known notAnAccount)

include h

theorem Indexed.callElection (hi : s.roots.lookup root = some i)
    (hfair : view.node.Fair notAnAccount) (call : Election.Call) (hcall : call.Counts notAnAccount) :
    ∃ s', s.callElection p view i call = some s' ∧ s'.Indexed p known notAnAccount ∧
      s'.roots = s.roots := by
  obtain ⟨e, he, hseat⟩ := h.seated hi
  obtain ⟨e', hrun, hseat', hsame⟩ := hseat.call hfair hcall
  unfold ActiveTransactions.callElection
  simp only [he, hrun, Option.bind_eq_bind, Option.bind_some, Option.pure_def]
  exact ⟨_, rfl, h.set_same hi he hseat' (fun hash => by rw [hsame]) _, rfl⟩

theorem Indexed.insertImpl (D : DeterminesRoot p known) (hfair : view.node.Fair notAnAccount)
    (hkn : known block) :
    ∃ s' inserted, s.insertImpl p notAnAccount view block = some (s', inserted) ∧
      s'.Indexed p known notAnAccount ∧
      ∀ i, inserted = some i → s'.roots.lookup block.hashables.qualifiedRoot = some i := by
  unfold ActiveTransactions.insertImpl
  dsimp only
  split_ifs with hroot hrecent
  · exact ⟨s, none, rfl, h, nofun⟩
  · exact ⟨s, none, rfl, h, nofun⟩
  · -- the hash is not in the index, or its root would be registered
    have hfree : p.hash block ∉ s.blocks := by
      intro hmem
      obtain ⟨j, hj⟩ := mem_iff.1 hmem
      exact hroot (mem_iff.2 ⟨j, h.lookup_root D hkn hj⟩)
    have hpush := h.push hroot (Election.seated_start (p := p) view.node hkn) hfree
      fun hash' => by simp [Election.start, mem_insert, notMem_empty]
    obtain ⟨s', hrun, hidx, hroots⟩ := hpush.callElection (lookup_insert _) hfair
      (.insertInactiveVotesCache (p.hash block)) trivial
    rw [emplaceBlock, if_neg hfree]
    simp only [hrun, Option.bind_eq_bind, Option.bind_some, Option.pure_def]
    refine ⟨s', _, rfl, hidx, fun i hi => ?_⟩
    cases hi
    rw [hroots]
    exact lookup_insert _

theorem Indexed.publish (D : DeterminesRoot p known) (hfair : view.node.Fair notAnAccount)
    (hkn : known block) :
    ∃ s', s.publish p view block = some s' ∧ s'.Indexed p known notAnAccount := by
  unfold ActiveTransactions.publish
  split
  · exact ⟨s, rfl, h⟩
  · next i hi =>
    obtain ⟨e, he, hseat⟩ := h.seated hi
    have hnode : (e.nodeOf p view (.publish block)).Fair notAnAccount := hfair
    obtain ⟨e', hrun, hseat', hkeys⟩ := hseat.publish hkn rfl hnode
      (e.ordered_nodeOf p view (.publish block))
    have hcall : e.call p view (.publish block) = some e' := hrun
    have hkeys : ∀ hash, hash ∈ e'.blocks ↔
        hash ∈ e.blocks ∨ e.publishResult p view.node block = false ∧ hash = p.hash block := hkeys
    unfold ActiveTransactions.callElection
    simp only [he, hcall, Option.bind_eq_bind, Option.bind_some, Option.pure_def]
    refine ⟨_, rfl, ?_⟩
    split
    · next hres =>
      refine h.set_same hi he hseat' (fun hash => (hkeys hash).trans (or_iff_left fun hnew => ?_)) _
      rw [hres] at hnew
      cases hnew.1
    · next hres =>
      have hnew : p.hash block ∉ e.blocks := by
        intro hmem
        exact hres (by simp [Election.publishResult, hmem])
      have hfree : p.hash block ∉ s.blocks := by
        intro hmem
        obtain ⟨j, hj⟩ := mem_iff.1 hmem
        cases (h.lookup_root D hkn hj).symm.trans hi
        exact hnew ((h.lookup_iff hi he).1 hj)
      rw [emplaceBlock, if_neg hfree]
      refine h.set hi hseat' (fun hash j => (Finmap.lookup_insert_eq_some hfree).trans ?_) _
      split
      · next hj =>
        rw [hj, hkeys, h.lookup_iff hi he, Bool.eq_false_of_not_eq_true hres]
        tauto
      · next hj => simp [Ne.symm hj]

theorem Indexed.vote {acc : Account} {sequence : Nat} (hne : acc ≠ notAnAccount)
    {blocks : List (ElectionView × VoteBlock)} (hfair : ∀ x ∈ blocks, x.1.node.Fair notAnAccount) :
    ∃ s', s.vote p acc sequence blocks = some s' ∧ s'.Indexed p known notAnAccount := by
  induction blocks generalizing s with
  | nil => exact ⟨s, rfl, h⟩
  | cons x rest ih =>
    obtain ⟨view, voteBlock⟩ := x
    have hrest (x) (hx : x ∈ rest) := hfair x (mem_cons_of_mem _ hx)
    unfold ActiveTransactions.vote
    split
    · exact ih h hrest
    · next i hi =>
      have hregistered : ∃ root, s.roots.lookup root = some i := by
        cases voteBlock with
        | block b => exact ⟨_, hi⟩
        | hash hash =>
          obtain ⟨root, -, hroot, -, -⟩ := (h.index hash i).1 hi
          exact ⟨root, hroot⟩
      obtain ⟨root, hroot⟩ := hregistered
      obtain ⟨s', hrun, hidx, -⟩ := h.callElection hroot (hfair _ mem_cons_self)
        (.vote acc sequence (hashOf p voteBlock)) hne
      simp only [hrun, Option.bind_eq_bind, Option.bind_some]
      exact ih hidx hrest

end

theorem ConfirmPass.visit_moves (pass : ConfirmPass) (root : QualifiedRoot) (node : NodeView)
    (unconfirmedCount : Nat) (e : Election) :
    Election.Moves e (pass.visit root node unconfirmedCount e).2 := by
  unfold ConfirmPass.visit
  dsimp only
  split
  · exact ⟨rfl, rfl, rfl⟩
  · exact Election.transitionTime_moves

section

variable (h : s.Indexed p known notAnAccount)

include h

theorem Indexed.requestConfirm (pass : ConfirmPass) (roots : List (QualifiedRoot × NodeView))
    (unconfirmedCount : Nat) : ∃ s', s.requestConfirm pass roots unconfirmedCount = some s' ∧
      s'.Indexed p known notAnAccount := by
  induction roots generalizing s unconfirmedCount with
  | nil => exact ⟨s, rfl, h⟩
  | cons x rest ih =>
    obtain ⟨root, node⟩ := x
    unfold ActiveTransactions.requestConfirm
    split
    · split
      · exact ih h _
      · next i hi =>
        obtain ⟨e, he, hseat⟩ := h.seated hi
        simp only [he, Option.bind_eq_bind, Option.bind_some]
        generalize (if e.confirmed then unconfirmedCount else unconfirmedCount + 1) = count
        have hmvs := pass.visit_moves root node count e
        have hmv := h.set_same hi he (hseat.moves hmvs) (fun hash => by rw [hmvs.blocks])
          s.recentlyConfirmed
        split
        · obtain ⟨s', hrun, hidx⟩ := hmv.eraseElection hi (pass.now root)
          simp only [hrun, Option.bind_some]
          exact ih hidx _
        · exact ih hmv _
    · exact ⟨s, rfl, h⟩

theorem Indexed.erase (now : Nat) (block : Block) :
    ∃ s', s.erase now block = some s' ∧ s'.Indexed p known notAnAccount := by
  unfold ActiveTransactions.erase
  dsimp only
  split
  · exact ⟨s, rfl, h⟩
  · next i hi => exact h.eraseElection hi now

theorem Indexed.restart (D : DeterminesRoot p known) (hfair : view.node.Fair notAnAccount)
    {l l' : Ledger} {processing : BlockHash → Bool} {now : Nat}
    {insertion : Option (Block × Amount)}
    (hlg : l.restartElection p ⟨s.recentlyDropped, now, processing⟩ block = some (l', insertion))
    (hkn : ∀ x ∈ insertion, known x.1) :
    ∃ s', s.restart p notAnAccount view l processing now block = some s' ∧
      s'.Indexed p known notAnAccount := by
  unfold ActiveTransactions.restart
  simp only [hlg, Option.bind_eq_bind, Option.bind_some]
  cases insertion with
  | none => exact ⟨s, rfl, h⟩
  | some x =>
    obtain ⟨s1, inserted, hins, hidx, hroot⟩ := h.insertImpl D hfair (hkn x rfl)
    simp only [hins, Option.bind_some]
    cases inserted with
    | none => exact ⟨s1, rfl, hidx⟩
    | some i =>
      obtain ⟨s2, hrun, hidx2, -⟩ := hidx.callElection (hroot i rfl) hfair
        .transitionActive trivial
      simp only [hrun, Option.bind_some]
      exact ⟨_, rfl, hidx2.seated, hidx2.index, hidx2.erased⟩

theorem Indexed.callRoot (hfair : view.node.Fair notAnAccount) {call : Election.Call}
    (hcall : call.Counts notAnAccount) :
    ∃ s', s.callRoot p view root call = some s' ∧ s'.Indexed p known notAnAccount := by
  unfold ActiveTransactions.callRoot
  split
  · exact ⟨s, rfl, h⟩
  · next i hi =>
    obtain ⟨s', hrun, hidx, -⟩ := h.callElection hi hfair call hcall
    exact ⟨s', hrun, hidx⟩

theorem Indexed.confirmBlock (hfair : view.node.Fair notAnAccount) (hash : BlockHash) :
    ∃ s', s.confirmBlock p view hash = some s' ∧ s'.Indexed p known notAnAccount := by
  unfold ActiveTransactions.confirmBlock
  split
  · exact ⟨s, rfl, h⟩
  · next i hi =>
    obtain ⟨root, -, hroot, -, -⟩ := (h.index hash i).1 hi
    obtain ⟨s', hrun, hidx, -⟩ := h.callElection hroot hfair (.confirmBlock hash) trivial
    exact ⟨s', hrun, hidx⟩

theorem exec_spec (D : DeterminesRoot p known) {action : Action}
    (hallowed : s.Allowed p notAnAccount known action) :
    ∃ s', s.exec p notAnAccount action = some s' ∧ s'.Indexed p known notAnAccount := by
  cases action with
  | insert view block =>
    obtain ⟨s', inserted, hrun, hidx, -⟩ := h.insertImpl D hallowed.1 hallowed.2
    refine ⟨s', ?_, hidx⟩
    rw [exec, hrun, Option.map_some]
  | publish view block => exact h.publish D hallowed.1 hallowed.2
  | vote acc sequence blocks => exact h.vote hallowed.1 hallowed.2
  | requestConfirm pass => exact h.requestConfirm pass pass.roots 0
  | erase now block => exact h.erase now block
  | restart view l processing now b =>
    obtain ⟨hfair, l', insertion, hlg, hkn⟩ := hallowed
    exact h.restart D hfair hlg hkn
  | transitionActive view root | transitionPassive view root => exact h.callRoot hallowed trivial
  | confirmBlock view hash => exact h.confirmBlock hallowed hash

end

theorem indexed_empty : Indexed p known notAnAccount {} where
  seated h := nomatch h
  index hash i := by
    constructor
    · intro h
      cases h
    · rintro ⟨root, e, h, -⟩
      cases h
  erased _ h := nomatch h

def Reached (p : Params) (known : Block → Prop) (notAnAccount : Account) (s : ActiveTransactions) :
    Prop :=
  Reaches (fun s action s' => s.exec p notAnAccount action = some s') (Allowed p notAnAccount known)
    {} s

/-- After every run the index has exactly the candidates of the registered elections. They have the
root of their election, and its winner is one of them. So a hash leads to one election, `cleanup` has
found each candidate in the index once, and the tally is never empty: every call returns. -/
theorem active_index_consistent (D : DeterminesRoot p known) (h : Reached p known notAnAccount s) :
    (∀ hash i, s.blocks.lookup hash = some i ↔ ∃ root e, s.roots.lookup root = some i ∧
      s.elections[i]? = some e ∧ hash ∈ e.blocks) ∧
    (∀ root i, s.roots.lookup root = some i → ∃ e, s.elections[i]? = some e ∧
      (∀ hash block, e.blocks.lookup hash = some block →
        p.hash block = hash ∧ block.hashables.qualifiedRoot = root) ∧
      e.blocks.lookup (p.hash e.status.winner) = some e.status.winner ∧
      ∀ node, e.Ordered node → e.tally node ≠ []) ∧
    (∀ root root' i j e e' hash, s.roots.lookup root = some i → s.roots.lookup root' = some j →
      s.elections[i]? = some e → s.elections[j]? = some e' → hash ∈ e.blocks → hash ∈ e'.blocks →
      i = j) ∧
    (∀ c ∈ s.cleanups, c.2 = Multiset.replicate c.1 1) ∧
    ∀ action, s.Allowed p notAnAccount known action →
      ∃ s', s.exec p notAnAccount action = some s' := by
  have hidx : s.Indexed p known notAnAccount := by
    refine h.invariant (I := Indexed p known notAnAccount) indexed_empty
      fun t action t' ht hallowed hstep => ?_
    obtain ⟨t'', hrun, ht''⟩ := exec_spec ht D hallowed
    cases hrun.symm.trans hstep
    exact ht''
  refine ⟨hidx.index, fun root i hi => ?_, ?_, hidx.erased, fun action hallowed => ?_⟩
  · obtain ⟨e, he, hseat⟩ := hidx.seated hi
    refine ⟨e, he, fun hash block hget => (hseat.candidate hget).2, hseat.winner,
      fun node hord hemp => ?_⟩
    obtain ⟨weight, block, rest, htally, -⟩ := hseat.tally hord
    rw [hemp] at htally
    cases htally
  · intro root root' i j e e' hash hi hj he he' hmem hmem'
    have hlk := (hidx.lookup_iff hi he).2 hmem
    have hlk' := (hidx.lookup_iff hj he').2 hmem'
    exact Option.some.inj (hlk.symm.trans hlk')
  · obtain ⟨s', hrun, -⟩ := exec_spec hidx D hallowed
    exact ⟨s', hrun⟩

end ActiveTransactions

namespace Sample

/-- The hash of A comes before that of B, and any order is taken for other hashes. -/
noncomputable def mapOrder : MapOrder where
  list keys := if keys ⊆ {hashA, hashB} then [hashA, hashB].filter (· ∈ keys) else keys.toList
  nodup keys := by
    have hne : hashA ≠ hashB := by decide +kernel
    split
    · exact List.Nodup.filter _ (by simp [hne])
    · exact keys.nodup_toList
  mem keys hash := by
    split
    · next hsub =>
      have hmem : hash ∈ keys → hash = hashA ∨ hash = hashB := fun h => by simpa using hsub h
      simpa using hmem
    · exact Finset.mem_toList

noncomputable def electionView : ElectionView := ⟨view, mapOrder⟩

noncomputable def forkedActions : List ActiveTransactions.Action :=
  [.insert electionView wordsSend, .publish electionView wordsReceive,
    .vote 21 1 [(electionView, .hash hashB)], .erase 0 wordsSend]

theorem determinesRoot_words : DeterminesRoot byteParams (· ∈ [wordsSend, wordsReceive]) := by
  intro b b' hb hb' _
  simp only [mem_cons, not_mem_nil, or_false] at hb hb'
  rcases hb with rfl | rfl <;> rcases hb' with rfl | rfl <;> rfl

theorem electionView_fair : electionView.node.Fair 99 := fun _ => not_mem_nil

end Sample

open Sample

theorem active_index_consistent_forked : ∃ s : ActiveTransactions,
    forkedActions.foldlM (ActiveTransactions.exec byteParams 99) {} = some s ∧
      s.cleanups = [(2, {1, 1})] ∧ ∀ hash i, s.blocks.lookup hash = some i ↔
        ∃ root e, s.roots.lookup root = some i ∧ s.elections[i]? = some e ∧ hash ∈ e.blocks := by
  obtain ⟨s, hrun, hcleanups⟩ := Option.map_eq_some_iff.1 (show
    (forkedActions.foldlM (ActiveTransactions.exec byteParams 99) {}).map
      (fun s => s.cleanups.map (·.1)) = some [2] by decide +kernel)
  have hrch : ActiveTransactions.Reached byteParams
      (· ∈ [wordsSend, wordsReceive]) 99 s := by
    have hsteps := hrun
    simp only [forkedActions, foldlM_cons, foldlM_nil, Option.bind_eq_bind,
      Option.bind_eq_some_iff, Option.pure_def, Option.some.injEq] at hsteps
    obtain ⟨s1, h1, s2, h2, s3, h3, s4, h4, rfl⟩ := hsteps
    have hfair := electionView_fair
    have hvs : ∀ x ∈ [(electionView, VoteBlock.hash hashB)], x.1.node.Fair 99 := by
      intro x hx
      rw [List.mem_singleton.1 hx]
      exact hfair
    exact .tail (a := .erase 0 wordsSend)
      (.tail (a := .vote 21 1 [(electionView, .hash hashB)])
        (.tail (a := .publish electionView wordsReceive)
          (.tail (a := .insert electionView wordsSend) .refl ⟨hfair, by simp⟩ h1)
          ⟨hfair, by simp⟩ h2)
        ⟨by decide, hvs⟩ h3) trivial h4
  obtain ⟨hindex, -, -, herased, -⟩ :=
    ActiveTransactions.active_index_consistent determinesRoot_words hrch
  refine ⟨s, hrun, ?_, hindex⟩
  obtain ⟨⟨n, erased⟩, hlist, hn⟩ := map_eq_singleton_iff.1 hcleanups
  have hone := herased _ (hlist ▸ mem_singleton_self _)
  dsimp only at hn hone
  rw [hlist, hone, hn]
  rfl

end Futurehead
