import Futurehead.Processing.BlockProcessor
import Futurehead.Voting.Restart

/-!
# The count of unchecked blocks (`ledger_cache::unchecked_count`)

The number of entries of the unchecked table is kept in a counter that every writer of the table
maintains by hand: `process_one` counts a key that it did not find, `queue_unchecked` and
`unchecked_cleanup` count their deletions, and clearing the table resets it. A cleanup collects the
keys of old entries in a read transaction and deletes them later, in batches.

The queues are left out here (`Processing/BlockProcessor` has them); the times of the entries and the
flag `disable_block_processor_unchecked_deletion` are added.
-/

namespace Futurehead

open List Option

/-- `futurehead::unchecked_info` with the time at which the block was first seen. -/
structure UncheckedRecord where
  info : UncheckedInfo
  /-- `modified`, in seconds. Zero if it has not been set. -/
  modified : BitVec 64 := 0
  deriving DecidableEq

structure UncheckedNode where
  ledger : Ledger
  unchecked : AList (fun _ : UncheckedKey => UncheckedRecord) := ∅
  /-- `ledger.cache.unchecked_count`. -/
  uncheckedCount : Nat := 0
  /-- `cleaning_list` of the cleanup that is running. -/
  cleaningList : List UncheckedKey := []

/-- What `process_old` finds: whether an election took the new difficulty, and what a restart reads. -/
structure OldView where
  updated : Bool
  restart : RestartView

namespace UncheckedNode

variable (p : Params) (deletion : Bool) (s : UncheckedNode)

def keyLe (x y : UncheckedKey) : Bool :=
  decide (x.previous < y.previous) || (x.previous == y.previous && decide (x.hash ≤ y.hash))

def entries : List (UncheckedKey × UncheckedRecord) :=
  (s.unchecked.entries.map fun entry => (entry.1, entry.2)).insertionSort fun x y =>
    keyLe x.1 y.1 = true

/-- `unchecked_get`: the entries whose key starts with the hash. -/
def uncheckedGet (hash : BlockHash) : List UncheckedRecord :=
  (s.entries.filter fun entry => entry.1.previous == hash).map (·.2)

/-- The part of `process_one` that is the same for both gaps: the entry is written, and counted if the
key was not there. -/
def uncheckedPut (missing : BlockHash) (record : UncheckedRecord)
    (verified : SignatureVerification) (now : BitVec 64) : UncheckedNode :=
  let modified := if record.modified = 0 then now else record.modified
  let key : UncheckedKey := ⟨missing, p.hash record.info.block⟩
  let isNew := decide (key ∉ s.unchecked)
  { s with
    unchecked := s.unchecked.insert key ⟨{ record.info with verified }, modified⟩
    uncheckedCount := if isNew then s.uncheckedCount + 1 else s.uncheckedCount }

/-- `unchecked_del` and the decrement after it. The store aborts if the key is not there; a counter at
zero would wrap around. -/
def uncheckedDel (key : UncheckedKey) : Option UncheckedNode :=
  if key ∈ s.unchecked ∧ 0 < s.uncheckedCount then
    some { s with
      unchecked := s.unchecked.erase key
      uncheckedCount := s.uncheckedCount - 1 }
  else none

/-- The body of the loop of `queue_unchecked`, without the queue. -/
def requeue (hash : BlockHash) (s : UncheckedNode) (record : UncheckedRecord) :
    Option UncheckedNode :=
  if deletion then s.uncheckedDel ⟨hash, p.hash record.info.block⟩ else some s

/-- `queue_unchecked`. `deletion` is the flag against it, negated. -/
def queueUnchecked (hash : BlockHash) : Option UncheckedNode :=
  (s.uncheckedGet hash).foldlM (requeue p deletion hash) s

/-- `process_old` on the ledger. -/
def processOld (view : OldView) (b : Block) : Option UncheckedNode :=
  if view.updated then some s
  else do
    let (ledger, _) ← s.ledger.restartElection p view.restart b
    return { s with ledger }

/-- `process_one`. `now` is the reading of the clock. -/
def processOne (record : UncheckedRecord) (now : BitVec 64) (view : OldView) :
    Option UncheckedNode := do
  let info := record.info
  let (result, ledger) ← s.ledger.process p info.block info.verified
  let s := { s with ledger }
  match result.code with
  | .progress =>
    if info.account = 0 ∨ info.account = result.account then
      s.queueUnchecked p deletion (p.hash info.block)
    else none
  | .gapPrevious => return s.uncheckedPut p info.block.hashables.previous record result.verified now
  | .gapSource => do
    let source ← s.ledger.blockSource info.block
    return s.uncheckedPut p source record result.verified now
  | .old => s.processOld p view info.block
  | _ => return s

/-- The keys that `unchecked_cleanup` collects: those of the entries older than `cutoff`, of which it
keeps at most 1024 * 1024. The loop ends after `read` entries if it takes longer than two minutes. -/
def collectOld (now cutoff : BitVec 64) (read : Nat) : List UncheckedKey :=
  (((s.entries.take read).filter fun entry => cutoff < now - entry.2.modified).map (·.1)).take
    (1024 * 1024)

/-- The first part of `unchecked_cleanup`. `enabled` stands for the conditions on the flags, the
number of blocks and the bootstrap attempt. -/
def cleanupCollect (enabled : Bool) (now cutoff : BitVec 64) (read : Nat) : UncheckedNode :=
  if enabled then { s with cleaningList := s.collectOld now cutoff read } else s

/-- A key of the cleaning list is deleted if it is still there. -/
def cleanOne (s : UncheckedNode) (key : UncheckedKey) : Option UncheckedNode :=
  if key ∈ s.unchecked then s.uncheckedDel key else some s

/-- A write transaction of `unchecked_cleanup`. -/
def cleanBatch : Option UncheckedNode :=
  (s.cleaningList.take (2 * 1024)).foldlM cleanOne
    { s with cleaningList := s.cleaningList.drop (2 * 1024) }

/-- `unchecked_clear`, with the counter. -/
def uncheckedClear : UncheckedNode := { s with unchecked := ∅, uncheckedCount := 0 }

/-- The write transactions that change the table or the ledger, and the collection of old keys. -/
inductive Event where
  | processOne (record : UncheckedRecord) (now : BitVec 64) (view : OldView)
  | queueUnchecked (hash : BlockHash)
  /-- The next cleanup starts when there is nothing left to clean. -/
  | cleanupCollect (enabled : Bool) (now cutoff : BitVec 64) (read : Nat)
  | cleanBatch
  | uncheckedClear
  /-- The ledger is changed by something else, such as a rollback. -/
  | ledger (l : Ledger)

def exec : Event → Option UncheckedNode
  | .processOne record now view => s.processOne p deletion record now view
  | .queueUnchecked hash => s.queueUnchecked p deletion hash
  | .cleanupCollect enabled now cutoff read =>
    if s.cleaningList = [] then some (s.cleanupCollect enabled now cutoff read) else none
  | .cleanBatch => s.cleanBatch
  | .uncheckedClear => some s.uncheckedClear
  | .ledger l => some { s with ledger := l }

/-- The counter is the number of entries, and every key ends with the hash of its own block. -/
structure CountsUnchecked : Prop where
  count : s.uncheckedCount = s.unchecked.keys.length
  named : ∀ key record, s.unchecked.lookup key = some record → key.hash = p.hash record.info.block

variable {p deletion s}

/-! ## Entries -/

theorem mem_entries {entry : UncheckedKey × UncheckedRecord} :
    entry ∈ s.entries ↔ s.unchecked.lookup entry.1 = some entry.2 := by
  obtain ⟨key, record⟩ := entry
  unfold entries
  rw [mem_insertionSort, List.mem_map]
  constructor
  · rintro ⟨⟨key', record'⟩, hmem, heq⟩
    cases heq
    exact AList.mem_lookup_iff.2 hmem
  · intro hlk
    exact ⟨⟨key, record⟩, AList.mem_lookup_iff.1 hlk, rfl⟩

theorem nodup_entries : (s.entries.map (·.1)).Nodup := by
  unfold entries
  refine ((perm_insertionSort _ _).map _).nodup_iff.2 ?_
  rw [List.map_map]
  exact s.unchecked.nodupKeys

/-- The keys under which the waiting blocks of `unchecked_get` are stored. -/
def waitingKeys (s : UncheckedNode) (hash : BlockHash) : List UncheckedKey :=
  (s.entries.filter fun entry => entry.1.previous == hash).map (·.1)

theorem nodup_waitingKeys (s : UncheckedNode) (hash : BlockHash) : (s.waitingKeys hash).Nodup :=
  nodup_entries.sublist (filter_sublist.map _)

theorem mem_waitingKeys {hash : BlockHash} {key : UncheckedKey} :
    key ∈ s.waitingKeys hash ↔ key ∈ s.unchecked ∧ key.previous = hash := by
  unfold waitingKeys
  rw [List.mem_map]
  constructor
  · rintro ⟨entry, hmem, rfl⟩
    obtain ⟨hmem, hhash⟩ := mem_filter.1 hmem
    exact ⟨AList.lookup_isSome.1 (isSome_of_eq_some (mem_entries.1 hmem)), eq_of_beq hhash⟩
  · rintro ⟨hmem, hhash⟩
    obtain ⟨record, hrecord⟩ := isSome_iff_exists.1 (AList.lookup_isSome.2 hmem)
    exact ⟨(key, record), mem_filter.2 ⟨mem_entries.2 hrecord, beq_iff_eq.2 hhash⟩, rfl⟩

theorem map_uncheckedGet (h : s.CountsUnchecked p) (hash : BlockHash) :
    (s.uncheckedGet hash).map (fun record => UncheckedKey.mk hash (p.hash record.info.block)) =
      s.waitingKeys hash := by
  unfold uncheckedGet waitingKeys
  rw [List.map_map]
  refine map_congr_left fun entry hmem => ?_
  obtain ⟨hmem, hhash⟩ := mem_filter.1 hmem
  obtain ⟨⟨prev, hash'⟩, record⟩ := entry
  have hprv : prev = hash := eq_of_beq hhash
  have hnamed : hash' = p.hash record.info.block := h.named _ _ (mem_entries.1 hmem)
  rw [hprv, hnamed]
  rfl

/-! ## One write -/

namespace CountsUnchecked

theorem of_eq {t : UncheckedNode} (h : s.CountsUnchecked p) (htable : t.unchecked = s.unchecked)
    (hcnt : t.uncheckedCount = s.uncheckedCount) : t.CountsUnchecked p where
  count := by rw [hcnt, htable, h.count]
  named := by rw [htable]; exact h.named

theorem empty (htable : s.unchecked = ∅) (hcnt : s.uncheckedCount = 0) : s.CountsUnchecked p where
  count := by rw [hcnt, htable]; rfl
  named := by
    intro key record hlk
    rw [htable, AList.lookup_empty] at hlk
    cases hlk

theorem put (h : s.CountsUnchecked p) (missing : BlockHash) (record : UncheckedRecord)
    (verified : SignatureVerification) (now : BitVec 64) :
    (s.uncheckedPut p missing record verified now).CountsUnchecked p where
  count := by
    unfold uncheckedPut
    simp only [AList.keys_insert, length_cons]
    by_cases hmem : (⟨missing, p.hash record.info.block⟩ : UncheckedKey) ∈ s.unchecked
    · have hpos := length_pos_of_mem (AList.mem_keys.1 hmem)
      rw [length_erase_of_mem (AList.mem_keys.1 hmem)]
      simp only [hmem, not_true_eq_false, decide_false, Bool.false_eq_true, if_false, h.count]
      omega
    · rw [erase_of_not_mem (fun hkey => hmem (AList.mem_keys.2 hkey))]
      simp [hmem, h.count]
  named := by
    intro key stored hlk
    unfold uncheckedPut at hlk
    by_cases hkey : key = ⟨missing, p.hash record.info.block⟩
    · rw [hkey, AList.lookup_insert] at hlk
      cases hlk
      rw [hkey]
    · rw [AList.lookup_insert_ne hkey] at hlk
      exact h.named key stored hlk

theorem del (h : s.CountsUnchecked p) {key : UncheckedKey} (hmem : key ∈ s.unchecked) :
    ∃ t, s.uncheckedDel key = some t ∧ t.unchecked = s.unchecked.erase key ∧
      t.CountsUnchecked p := by
  have hlen := length_erase_of_mem (AList.mem_keys.1 hmem)
  have hpos : 0 < s.uncheckedCount := by
    rw [h.count]
    exact length_pos_of_mem (AList.mem_keys.1 hmem)
  refine ⟨_, if_pos ⟨hmem, hpos⟩, rfl, ?_, fun key' record hlk => ?_⟩
  · rw [AList.keys_erase, hlen, h.count]
  · by_cases hkey : key' = key
    · rw [hkey, AList.lookup_erase] at hlk
      cases hlk
    · rw [AList.lookup_erase_ne hkey] at hlk
      exact h.named key' record hlk

end CountsUnchecked

/-! ## The loops that delete -/

theorem foldlM_uncheckedDel {keys : List UncheckedKey} (h : s.CountsUnchecked p) (hnd : keys.Nodup)
    (hmem : ∀ key ∈ keys, key ∈ s.unchecked) :
    ∃ t, keys.foldlM uncheckedDel s = some t ∧ t.CountsUnchecked p ∧
      ∀ key, key ∈ t.unchecked ↔ key ∈ s.unchecked ∧ key ∉ keys := by
  induction keys generalizing s with
  | nil => exact ⟨s, rfl, h, by simp⟩
  | cons key keys ih =>
    obtain ⟨hnot, hnd⟩ := nodup_cons.1 hnd
    obtain ⟨next, hdel, htable, hnext⟩ := h.del (hmem key mem_cons_self)
    have hleft : ∀ k ∈ keys, k ∈ next.unchecked := by
      intro k hk
      rw [htable, AList.mem_erase]
      exact ⟨fun heq => hnot (heq ▸ hk), hmem k (mem_cons_of_mem _ hk)⟩
    obtain ⟨t, hrun, ht, hkeys⟩ := ih hnext hnd hleft
    refine ⟨t, ?_, ht, fun k => ?_⟩
    · rw [foldlM_cons, hdel]
      exact hrun
    · rw [hkeys, htable, AList.mem_erase, mem_cons]
      tauto

theorem queueUnchecked_spec (deletion : Bool) (h : s.CountsUnchecked p) (hash : BlockHash) :
    ∃ t, s.queueUnchecked p deletion hash = some t ∧ t.CountsUnchecked p ∧
      ∀ key, key ∈ t.unchecked ↔ key ∈ s.unchecked ∧ ¬ (deletion ∧ key.previous = hash) := by
  unfold queueUnchecked
  cases deletion with
  | false =>
    refine ⟨s, ?_, h, by simp⟩
    induction s.uncheckedGet hash with
    | nil => rfl
    | cons record records ih => exact ih
  | true =>
    obtain ⟨t, hrun, ht, hkeys⟩ := foldlM_uncheckedDel h (nodup_waitingKeys s hash) fun key hkey =>
      (mem_waitingKeys.1 hkey).1
    refine ⟨t, ?_, ht, fun key => ?_⟩
    · rw [← map_uncheckedGet h hash, foldlM_map] at hrun
      exact hrun
    · rw [hkeys, mem_waitingKeys]
      tauto

theorem foldlM_cleanOne (h : s.CountsUnchecked p) (keys : List UncheckedKey) :
    ∃ t, keys.foldlM cleanOne s = some t ∧ t.CountsUnchecked p := by
  induction keys generalizing s with
  | nil => exact ⟨s, rfl, h⟩
  | cons key keys ih =>
    rw [foldlM_cons]
    by_cases hmem : key ∈ s.unchecked
    · obtain ⟨next, hdel, -, hnext⟩ := h.del hmem
      have hclean : s.cleanOne key = some next := (if_pos hmem).trans hdel
      rw [hclean]
      exact ih hnext
    · have hclean : s.cleanOne key = some s := if_neg hmem
      rw [hclean]
      exact ih h

theorem cleanBatch_spec (h : s.CountsUnchecked p) :
    ∃ t, s.cleanBatch = some t ∧ t.CountsUnchecked p := by
  have hdrop : ({ s with cleaningList := s.cleaningList.drop (2 * 1024) } :
      UncheckedNode).CountsUnchecked p := h.of_eq rfl rfl
  exact foldlM_cleanOne hdrop _

/-! ## Whole runs -/

theorem CountsUnchecked.processOne (h : s.CountsUnchecked p) {record : UncheckedRecord}
    {now : BitVec 64} {view : OldView} {t : UncheckedNode}
    (hstep : s.processOne p deletion record now view = some t) : t.CountsUnchecked p := by
  unfold UncheckedNode.processOne at hstep
  obtain ⟨⟨result, ledger⟩, -, hstep⟩ := bind_eq_some_iff.1 hstep
  have hl : ({ s with ledger } : UncheckedNode).CountsUnchecked p := h.of_eq rfl rfl
  dsimp only at hstep
  split at hstep
  · split at hstep
    · obtain ⟨t', hrun, ht', -⟩ := queueUnchecked_spec deletion hl
        (p.hash record.info.block)
      rw [hrun] at hstep
      cases hstep
      exact ht'
    · cases hstep
  · cases hstep
    exact hl.put _ _ _ _
  · obtain ⟨source, -, hstep⟩ := bind_eq_some_iff.1 hstep
    cases hstep
    exact hl.put _ _ _ _
  · unfold processOld at hstep
    split at hstep
    · cases hstep
      exact hl
    · obtain ⟨⟨ledger', _⟩, -, hstep⟩ := bind_eq_some_iff.1 hstep
      cases hstep
      exact h.of_eq rfl rfl
  · cases hstep
    exact hl

theorem CountsUnchecked.exec (h : s.CountsUnchecked p) {event : Event} {t : UncheckedNode}
    (hstep : s.exec p deletion event = some t) : t.CountsUnchecked p := by
  cases event with
  | processOne record now view => exact h.processOne hstep
  | queueUnchecked hash =>
    obtain ⟨t', hrun, ht', -⟩ := queueUnchecked_spec deletion h hash
    cases hrun.symm.trans hstep
    exact ht'
  | cleanupCollect enabled now cutoff read =>
    simp only [UncheckedNode.exec, UncheckedNode.cleanupCollect] at hstep
    split at hstep
    · split at hstep
      · cases hstep
        exact h.of_eq rfl rfl
      · cases hstep
        exact h
    · cases hstep
  | cleanBatch =>
    obtain ⟨t', hrun, ht'⟩ := cleanBatch_spec h
    cases hrun.symm.trans hstep
    exact ht'
  | uncheckedClear =>
    cases hstep
    exact .empty rfl rfl
  | ledger l =>
    cases hstep
    exact h.of_eq rfl rfl

/-- In every state that is reached the counter is the number of entries and every key ends with the
hash of its own block. No deletion fails there: neither is a key missing nor is a counter at zero
decremented. -/
theorem unchecked_count_exact {s0 s : UncheckedNode} (start : s0.CountsUnchecked p)
    (h : Reaches (fun s event t => s.exec p deletion event = some t) (fun _ _ => True) s0 s) :
    (s.uncheckedCount = s.unchecked.keys.length ∧
      ∀ key record, s.unchecked.lookup key = some record → key.hash = p.hash record.info.block) ∧
    (∀ hash, (s.queueUnchecked p deletion hash).isSome) ∧ s.cleanBatch.isSome := by
  have hs : s.CountsUnchecked p :=
    h.invariant (I := fun s => s.CountsUnchecked p) start fun _ _ _ hs _ hstep => hs.exec hstep
  refine ⟨⟨hs.count, hs.named⟩, fun hash => ?_, ?_⟩
  · obtain ⟨t, hrun, -⟩ := queueUnchecked_spec deletion hs hash
    exact isSome_of_eq_some hrun
  · obtain ⟨t, hrun, -⟩ := cleanBatch_spec hs
    exact isSome_of_eq_some hrun

namespace Sample

/-- An open block that waits for its source arrives twice, with a block that waits for its previous
block in between. The open block is old enough for the cleanup. -/
def gaps : List Event :=
  let first : UncheckedRecord := ⟨{ block := Sample.openB }, 5⟩
  let second : UncheckedRecord := ⟨{ block := Sample.changeB }, 0⟩
  let view : OldView := ⟨true, ⟨{}, 0, fun _ => false⟩⟩
  [.processOne first 10 view, .processOne second 10 view, .processOne first 20 view,
    .cleanupCollect true 10 4 100]

end Sample

/-- Two entries are counted after three arrivals. -/
theorem unchecked_count_exact_gaps :
    ∃ s : UncheckedNode, Reaches (fun s event t => s.exec Sample.params true event = some t)
        (fun _ _ => True) { ledger := {} } s ∧
      s.uncheckedCount = 2 ∧ s.cleaningList.length = 1 ∧ s.unchecked.keys.length = 2 ∧
      s.cleanBatch.isSome := by
  have hrun : ((Sample.gaps.foldlM
      (fun s event => if True then exec Sample.params true s event else none)
      { ledger := {} }).map fun s => (s.uncheckedCount, s.cleaningList.length)) = some (2, 1) := by
    decide +kernel
  obtain ⟨s, hs, hcounts⟩ := map_eq_some_iff.1 hrun
  have hreaches : Reaches (fun s event t => exec Sample.params true s event = some t)
      (fun _ _ => True) { ledger := {} } s := .of_foldlM hs
  obtain ⟨⟨hcnt, -⟩, -, hclean⟩ := unchecked_count_exact (.empty rfl rfl) hreaches
  obtain ⟨htwo, hone⟩ := Prod.mk.inj hcounts
  exact ⟨s, hreaches, htwo, hone, hcnt ▸ htwo, hclean⟩

end UncheckedNode

end Futurehead
