import Futurehead.Base.WriteBack
import Futurehead.Wallet.Keys
import Futurehead.Wire.Vote

/-!
# Sequences of the node's own votes (`block_store_partial`: `vote_generate`, `vote_max`, `flush`)

The latest vote of each account is in one of two caches or in the database. A vote that was flushed
twice is in the database only, and the caller's transaction may have been opened before it was
written.
-/

namespace Futurehead

open List Option BitVec

/-- The constructors of `vote` that sign. -/
def Vote.sign (c : Crypto) (digest : Bytes → BlockHash) (account : Account) (prv : RawKey)
    (sequence : BitVec 64) (blocks : List VoteBlock) : Vote :=
  let vote : Vote := ⟨account, 0, sequence, blocks⟩
  { vote with signature := c.signMessage prv account (vote.hash digest) }

abbrev VoteStore := WriteBack Account Vote

namespace VoteStore

variable (c : Crypto) (digest : Bytes → BlockHash) (s : VoteStore) (snapshot : Table Account Vote)

/-- Both overloads of `vote_generate`, which differ in the blocks. -/
def voteGenerateFor (account : Account) (prv : RawKey) (blocks : List VoteBlock) : Vote × VoteStore :=
  let sequence := (match s.current snapshot account with
    | some vote => vote.sequence
    | none => 0) + 1
  let result := Vote.sign c digest account prv sequence blocks
  (result, s.put account result)

/-- `vote_generate` for a block. -/
def voteGenerateBlock (account : Account) (prv : RawKey) (block : Block) : Vote × VoteStore :=
  voteGenerateFor c digest s snapshot account prv [.block block]

/-- `vote_generate` for hashes. -/
def voteGenerate (account : Account) (prv : RawKey) (hashes : List BlockHash) : Vote × VoteStore :=
  voteGenerateFor c digest s snapshot account prv (hashes.map .hash)

def voteMax (vote : Vote) : Vote × VoteStore :=
  let result := match s.current snapshot vote.account with
    | some current => if vote.sequence < current.sequence then current else vote
    | none => vote
  (result, s.put vote.account result)

/-! ## Runs -/

/-- The calls. Each one with a transaction has the number of commits since it was opened. -/
inductive Event where
  | generateBlock (age : Nat) (account : Account) (prv : RawKey) (block : Block)
  | generate (age : Nat) (account : Account) (prv : RawKey) (hashes : List BlockHash)
  | voteMax (age : Nat) (vote : Vote)
  | flush
  | commit

/-- A vote that was generated, or one that `vote_max` has accepted. -/
inductive Record where
  | generated (vote : Vote)
  | accepted (vote : Vote)

def Record.vote : Record → Vote
  | .generated vote => vote
  | .accepted vote => vote

structure Recorded where
  store : VoteStore
  log : List Record

/-- One call. There is no second flush before the first one is committed. -/
def Recorded.exec (t : Recorded) : Event → Option Recorded
  | .generateBlock age account prv block => do
    let snapshot ← t.store.snapshot age
    let (vote, store) := voteGenerateBlock c digest t.store snapshot account prv block
    some ⟨store, .generated vote :: t.log⟩
  | .generate age account prv hashes => do
    let snapshot ← t.store.snapshot age
    let (vote, store) := voteGenerate c digest t.store snapshot account prv hashes
    some ⟨store, .generated vote :: t.log⟩
  | .voteMax age vote => do
    let snapshot ← t.store.snapshot age
    let (result, store) := voteMax t.store snapshot vote
    some ⟨store, if result = vote then .accepted vote :: t.log else t.log⟩
  | .flush => if t.store.flushing then none else some { t with store := t.store.flush }
  | .commit => if t.store.flushing then some { t with store := t.store.commit } else none

def Recorded.Step (t : Recorded) (event : Event) (t' : Recorded) : Prop :=
  t.exec c digest event = some t'

def Event.reads : Event → Option (Account × Nat)
  | .generateBlock age account _ _ | .generate age account _ _ => some (account, age)
  | .voteMax age vote => some (vote.account, age)
  | .flush | .commit => none

/-- If the account is in no cache, the transaction sees the sequence that is committed for it. -/
def Event.Fresh (event : Event) : Prop :=
  ∀ account age, event.reads = some (account, age) → ∀ snapshot, s.snapshot age = some snapshot →
    s.Fresh Vote.sequence snapshot account

/-- At most one flush has begun since the transaction was opened. -/
def Event.Recent (event : Event) : Prop :=
  ∀ account age, event.reads = some (account, age) → age = 0 ∨ age = 1 ∧ s.flushing = false

/-- The latest sequence of the account is not the largest number. -/
def Event.InRange (event : Event) : Prop :=
  ∀ account age, event.reads = some (account, age) → ∀ vote ∈ s.latest account,
    vote.sequence.toNat + 1 < 2 ^ 64

/-- The one vote is above the other if it was generated for the same account. -/
def Record.Above : Record → Record → Prop
  | .generated vote, older =>
    older.vote.account = vote.account → older.vote.sequence < vote.sequence
  | .accepted _, _ => True

/-- The latest vote of an account is at least as high as all recorded ones. -/
structure RecordedOk (t : Recorded) : Prop where
  store : t.store.Ok
  latest : ∀ r ∈ t.log, ∃ vote, t.store.latest r.vote.account = some vote ∧
    r.vote.sequence ≤ vote.sequence
  above : t.log.Pairwise Record.Above

variable {c digest} {t t' : Recorded} {account : Account} {snapshot : Table Account Vote} {vote : Vote}

theorem recordedOk_new (database : Table Account Vote) : RecordedOk ⟨.new database, []⟩ where
  store := WriteBack.ok_new database
  latest _ hr := by cases hr
  above := .nil

theorem latest_put_le (h : RecordedOk t) (vote : Vote)
    (hle : ∀ old ∈ t.store.latest account, old.sequence ≤ vote.sequence) :
    ∀ r ∈ t.log, ∃ latest, (t.store.put account vote).latest r.vote.account = some latest ∧
      r.vote.sequence ≤ latest.sequence := by
  intro r hr
  obtain ⟨old, hold, hrle⟩ := h.latest r hr
  rw [WriteBack.latest_put]
  split
  · rename_i hacc
    rw [hacc] at hold
    exact ⟨vote, rfl, BitVec.le_trans hrle (hle old hold)⟩
  · exact ⟨old, hold, hrle⟩

theorem RecordedOk.generate (h : RecordedOk t) {prv : RawKey} {blocks : List VoteBlock}
    (hfresh : t.store.Fresh Vote.sequence snapshot account)
    (hrange : ∀ old ∈ t.store.latest account, old.sequence.toNat + 1 < 2 ^ 64) :
    RecordedOk ⟨(voteGenerateFor c digest t.store snapshot account prv blocks).2,
      .generated (voteGenerateFor c digest t.store snapshot account prv blocks).1 :: t.log⟩ := by
  have hcur := WriteBack.current_map_eq hfresh
  set vote := (voteGenerateFor c digest t.store snapshot account prv blocks).1 with hvote
  -- the new sequence is above the latest one, which the transaction sees
  have hlt : ∀ old ∈ t.store.latest account, old.sequence < vote.sequence := by
    intro old hold
    rw [mem_def.1 hold, map_some] at hcur
    obtain ⟨found, hfnd, hseq⟩ := map_eq_some_iff.1 hcur
    have hnew : vote.sequence = old.sequence + 1 := by
      rw [hvote, ← hseq]
      unfold voteGenerateFor
      rw [hfnd]
      rfl
    have := hrange old hold
    rw [hnew, lt_def, toNat_add, show (1 : BitVec 64).toNat = 1 from rfl,
      Nat.mod_eq_of_lt this]
    exact Nat.lt_succ_self _
  refine ⟨h.store.put _ _, fun r hr => ?_, pairwise_cons.2 ⟨fun r hr hacc => ?_, h.above⟩⟩
  · rcases mem_cons.1 hr with rfl | hr
    · exact ⟨vote, WriteBack.latest_put.trans (if_pos rfl), BitVec.le_refl _⟩
    · exact latest_put_le h vote (fun old hold => BitVec.le_of_lt (hlt old hold)) r hr
  · obtain ⟨old, hold, hle⟩ := h.latest r hr
    rw [hacc] at hold
    exact Nat.lt_of_le_of_lt (le_def.1 hle) (lt_def.1 (hlt old hold))

theorem le_voteMax (s : VoteStore) (snapshot : Table Account Vote) (vote : Vote) :
    vote.sequence ≤ (voteMax s snapshot vote).1.sequence ∧
      ∀ old ∈ s.current snapshot vote.account, old.sequence ≤ (voteMax s snapshot vote).1.sequence := by
  unfold voteMax
  cases s.current snapshot vote.account with
  | none => exact ⟨BitVec.le_refl _, fun _ h => by cases h⟩
  | some old =>
    dsimp only
    split
    · rename_i hlt
      exact ⟨BitVec.le_of_lt hlt, fun _ h => by cases h; exact BitVec.le_refl _⟩
    · rename_i hle
      exact ⟨BitVec.le_refl _, fun _ h => by cases h; exact BitVec.not_lt.1 hle⟩

theorem RecordedOk.voteMax (h : RecordedOk t)
    (hfresh : t.store.Fresh Vote.sequence snapshot vote.account) :
    RecordedOk ⟨(voteMax t.store snapshot vote).2,
      if (voteMax t.store snapshot vote).1 = vote then .accepted vote :: t.log else t.log⟩ := by
  have hcur := WriteBack.current_map_eq hfresh
  obtain ⟨hvote, hold⟩ := le_voteMax t.store snapshot vote
  have hlat : ∀ old ∈ t.store.latest vote.account,
      old.sequence ≤ (VoteStore.voteMax t.store snapshot vote).1.sequence := by
    intro old hmem
    rw [mem_def.1 hmem, map_some] at hcur
    obtain ⟨found, hfnd, hseq⟩ := map_eq_some_iff.1 hcur
    rw [← hseq]
    exact hold found hfnd
  have hput := latest_put_le h _ hlat
  refine ⟨h.store.put _ _, ?_, ?_⟩
  · split
    · intro r hr
      rcases mem_cons.1 hr with rfl | hr
      · exact ⟨_, WriteBack.latest_put.trans (if_pos rfl), hvote⟩
      · exact hput r hr
    · exact hput
  · split
    · exact pairwise_cons.2 ⟨fun _ _ => trivial, h.above⟩
    · exact h.above

theorem RecordedOk.exec (h : RecordedOk t) {event : Event} (hfresh : event.Fresh t.store)
    (hrange : event.InRange t.store) (hexec : t.exec c digest event = some t') : RecordedOk t' := by
  cases event with
  | generateBlock age account prv block | generate age account prv hashes =>
    obtain ⟨snapshot, hsnap, hexec⟩ := bind_eq_some_iff.1 hexec
    cases hexec
    exact h.generate (hfresh _ _ rfl _ hsnap) (hrange _ _ rfl)
  | voteMax age vote =>
    obtain ⟨snapshot, hsnap, hexec⟩ := bind_eq_some_iff.1 hexec
    cases hexec
    exact h.voteMax (hfresh _ _ rfl _ hsnap)
  | flush =>
    obtain ⟨hidle, hexec⟩ := ite_none_left_eq_some.1 hexec
    cases hexec
    refine ⟨WriteBack.ok_flush _, fun r hr => ?_, h.above⟩
    dsimp only
    rw [WriteBack.latest_flush h.store (Bool.eq_false_iff.2 hidle)]
    exact h.latest r hr
  | commit =>
    obtain ⟨-, hexec⟩ := ite_none_right_eq_some.1 hexec
    cases hexec
    refine ⟨WriteBack.ok_commit _, fun r hr => ?_, h.above⟩
    dsimp only
    rw [WriteBack.latest_commit]
    exact h.latest r hr

theorem ok_exec (h : t.store.Ok) {event : Event} (hexec : t.exec c digest event = some t') :
    t'.store.Ok := by
  cases event with
  | generateBlock | generate | voteMax =>
    obtain ⟨snapshot, -, hexec⟩ := bind_eq_some_iff.1 hexec
    cases hexec
    exact h.put _ _
  | flush =>
    obtain ⟨-, hexec⟩ := ite_none_left_eq_some.1 hexec
    cases hexec
    exact WriteBack.ok_flush _
  | commit =>
    obtain ⟨-, hexec⟩ := ite_none_right_eq_some.1 hexec
    cases hexec
    exact WriteBack.ok_commit _

theorem Event.fresh_of_recent {ok : Recorded → Event → Prop} {database : Table Account Vote}
    (hrun : Reaches (Recorded.Step c digest) ok ⟨.new database, []⟩ t) {event : Event}
    (hrecent : event.Recent t.store) : event.Fresh t.store := by
  have hsto : t.store.Ok := hrun.invariant (I := fun t => t.store.Ok) (WriteBack.ok_new database)
    fun _ _ _ h _ hstep => ok_exec h hstep
  intro account age hreads snapshot hsnap
  exact hsto.fresh_of_recent hsnap (hrecent account age hreads)

/-- In every run from any database, in which the transactions are fresh for the accounts they are
used for: the sequence of each generated vote is above those of all votes that were generated or
accepted for the account before. -/
theorem sequences_increase (database : Table Account Vote)
    (hrun : Reaches (Recorded.Step c digest)
      (fun t event => event.Fresh t.store ∧ event.InRange t.store) ⟨.new database, []⟩ t) :
    t.log.Pairwise Record.Above := by
  have h : RecordedOk t := hrun.invariant (I := RecordedOk) (recordedOk_new database)
    fun _ _ _ h hok hstep => h.exec hok.1 hok.2 hstep
  exact h.above

def Recorded.run (c : Crypto) (digest : Bytes → BlockHash) : List Event → Recorded → Option Recorded
  | [], t => some t
  | event :: events, t => (t.exec c digest event).bind (run c digest events)

end VoteStore

namespace Sample

def voted : VoteStore.Recorded :=
  let (vote, store) := VoteStore.voteGenerate crypto digest (.new ∅) ∅ 1005 5 [1]
  ⟨store, [.generated vote]⟩

end Sample

open Sample

open VoteStore in
/-- A transaction is used for a vote, and again after one flush. -/
theorem sequences_increase_flush :
    ∃ t : Recorded, Reaches (Recorded.Step crypto digest)
        (fun t event => event.Fresh t.store ∧ event.InRange t.store) ⟨.new ∅, []⟩ t ∧
      t.log.map (·.vote.sequence) = [2, 1] ∧ t.log.Pairwise Record.Above := by
  have hquiet {t : Recorded} {event : Event} (h : event.reads = none) :
      event.Fresh t.store ∧ event.InRange t.store := by
    constructor
    · intro _ _ hreads
      cases h.symm.trans hreads
    · intro _ _ hreads
      cases h.symm.trans hreads
  let ok (t : Recorded) (event : Event) := event.Fresh t.store ∧ event.InRange t.store
  -- nothing is stored at first
  have hfst : Reaches (Recorded.Step crypto digest) ok ⟨.new ∅, []⟩
      voted := by
    refine .tail (a := .generate 0 1005 5 [1]) .refl ⟨?_, ?_⟩ rfl
    · have hstart : Reaches (Recorded.Step crypto digest) ok ⟨.new ∅, []⟩
          ⟨.new ∅, []⟩ := .refl
      exact Event.fresh_of_recent hstart fun _ _ h => by cases h; exact .inl rfl
    · intro _ _ h vote hvote
      cases h
      cases hvote
  have hflushed : Reaches (Recorded.Step crypto digest) ok ⟨.new ∅, []⟩
      ⟨voted.store.flush.commit, voted.log⟩ :=
    .tail (a := .commit) (.tail (a := .flush) hfst (hquiet rfl) rfl) (hquiet rfl) rfl
  have hsec : ok ⟨voted.store.flush.commit, voted.log⟩ (.generate 1 1005 5 [2]) := by
    constructor
    · exact Event.fresh_of_recent hflushed fun _ _ h => by cases h; exact .inr ⟨rfl, rfl⟩
    · intro _ _ h vote hvote
      cases h
      cases hvote
      decide +kernel
  have hrun : Reaches (Recorded.Step crypto digest) ok ⟨.new ∅, []⟩ _ := .tail hflushed hsec rfl
  exact ⟨_, hrun, by decide +kernel, sequences_increase ∅ hrun⟩

open VoteStore in
/-- A transaction is used for a vote, and again after two flushes. Both votes have sequence 1. -/
theorem sequence_repeated :
    ∃ t : Recorded, Recorded.run crypto digest
        [.generate 0 1005 5 [1], .flush, .commit, .flush, .commit, .generate 2 1005 5 [2]]
        ⟨.new ∅, []⟩ = some t ∧
      t.log.map (fun r => (r.vote.account, r.vote.sequence)) = [(1005, 1), (1005, 1)] ∧
      ¬ t.log.Pairwise Record.Above := by
  refine ⟨_, rfl, by decide +kernel, fun h => ?_⟩
  have habove := (pairwise_cons.1 h).1 _ mem_cons_self
  exact absurd (habove rfl) (by decide +kernel)

end Futurehead
