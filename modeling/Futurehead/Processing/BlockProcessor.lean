import Mathlib.Data.List.AList
import Mathlib.Data.List.Sort
import Futurehead.Base.Run
import Futurehead.Ledger.Processor

/-!
# The block processor (`futurehead/node/blockprocessor`, `state_block_signature_verification`)

Blocks from the network come with the account that the peer says they belong to. `add` sends them
to a thread that checks signatures in batches, or straight to the queue of blocks; `process_one`
takes them from there to the ledger. A block whose previous or source block is missing waits in the
unchecked table, and is queued again when that block has been processed. What is known of the
signature travels with the block as a tag.

Forced blocks have a file of their own (`Processing/Forced`). The times and the `confirmed` mark of an
entry are left out.
-/

namespace Futurehead

open List

structure UncheckedInfo where
  block : Block
  /-- The account that the block is said to belong to, zero if nothing is said. -/
  account : Account := 0
  verified : SignatureVerification := .unknown
  deriving DecidableEq

/-- `futurehead::unchecked_key`: the missing block and the block that waits for it. -/
structure UncheckedKey where
  previous : BlockHash
  hash : BlockHash
  deriving DecidableEq

abbrev Unchecked := AList (fun _ : UncheckedKey => UncheckedInfo)

/-- `unchecked_get`: the blocks that wait for a block, in the order of the table. -/
def Unchecked.get (table : Unchecked) (hash : BlockHash) : List (UncheckedKey × UncheckedInfo) :=
  ((table.entries.filter fun entry => entry.1.previous == hash).map fun entry =>
    (entry.1, entry.2)).insertionSort fun x y => x.1.hash ≤ y.1.hash

/-- `ledger::block_source` of a block without a sideband. -/
def Ledger.blockSource (l : Ledger) (b : Block) : Option BlockHash :=
  match b.hashables with
  | .stateBlock _ previous _ balance link =>
    if previous = 0 then some link
    else do
      let previousBalance ← l.balance previous
      some (if balance < previousBalance then 0 else link)
  | h => some h.source

/-- `block_processor` with the ledger and the unchecked table. -/
structure BlockProcessor where
  ledger : Ledger
  /-- The queue of `state_block_signature_verification`. -/
  stateBlocks : List UncheckedInfo := []
  /-- `blocks`. -/
  blocks : List UncheckedInfo := []
  unchecked : Unchecked := ∅

namespace BlockProcessor

variable (p : Params) (fullSize : Nat) (s : BlockProcessor)

def size : Nat := s.blocks.length + s.stateBlocks.length

/-- `add`. `fullSize` is `block_processor_full_size`. -/
def add (info : UncheckedInfo) (pushFrontPreference : Bool) : BlockProcessor :=
  let quarterFull := decide (s.size > fullSize / 4)
  let type := info.block.hashables.type
  if info.verified = .unknown ∧ (type = .state ∨ type = BlockType.open ∨ info.account ≠ 0) then
    { s with stateBlocks := s.stateBlocks ++ [info] }
  else if pushFrontPreference ∧ ¬ quarterFull then { s with blocks := info :: s.blocks }
  else { s with blocks := s.blocks ++ [info] }

/-! ## Signatures -/

/-- The account against which `verify_state_blocks` checks a signature. The source also asks that
an epoch link is not zero; none is. -/
def signer (info : UncheckedInfo) : Account :=
  match p.epochInfo info.block.hashables.link with
  | some epoch => epoch.signer
  | none => if info.account ≠ 0 then info.account else info.block.hashables.account

/-- `process_verified_state_blocks` for one block: its new tag, or nothing if it is dropped. -/
def verify (info : UncheckedInfo) : Option UncheckedInfo :=
  let verification := !p.validateMessage (signer p info) (p.hash info.block) info.block.signature
  if p.isEpochLink info.block.hashables.link then
    -- Possible regular state blocks with epoch link (send subtype)
    some { info with verified := if verification then .validEpoch else .unknown }
  else if verification then some { info with verified := .valid }
  else none

/-- `verify_state_blocks` and `process_verified_state_blocks` for the next `count` blocks. -/
def verifyStateBlocks (count : Nat) : BlockProcessor :=
  { s with
    stateBlocks := s.stateBlocks.drop count
    blocks := s.blocks ++ (s.stateBlocks.take count).filterMap (verify p) }

/-! ## Blocks -/

/-- The body of the loop of `queue_unchecked`. -/
def requeue (entry : UncheckedKey × UncheckedInfo) : BlockProcessor :=
  add fullSize { s with unchecked := s.unchecked.erase entry.1 } entry.2 true

/-- `queue_unchecked`: the blocks that wait for `hash` are queued and leave the table. -/
def queueUnchecked (hash : BlockHash) : BlockProcessor :=
  (s.unchecked.get hash).foldl (requeue fullSize) s

/-- `unchecked_put` with what is known of the signature. -/
def uncheckedPut (missing : BlockHash) (info : UncheckedInfo) (verified : SignatureVerification) :
    BlockProcessor :=
  { s with unchecked :=
      s.unchecked.insert ⟨missing, p.hash info.block⟩ { info with verified := verified } }

/-- `process_one`. The node stops if the block was accepted for another account than the one it was
said to belong to. -/
def processOne (info : UncheckedInfo) : Option BlockProcessor := do
  let (result, ledger) ← s.ledger.process p info.block info.verified
  let s := { s with ledger }
  match result.code with
  | .progress =>
    if info.account = 0 ∨ info.account = result.account then
      some (s.queueUnchecked fullSize (p.hash info.block))
    else none
  | .gapPrevious => some (s.uncheckedPut p info.block.hashables.previous info result.verified)
  | .gapSource => do
    let source ← s.ledger.blockSource info.block
    some (s.uncheckedPut p source info result.verified)
  | _ => some s

inductive Event where
  /-- A block arrives, with the account that it is said to belong to. -/
  | add (block : Block) (account : Account)
  /-- The next `count` signatures are checked. -/
  | verify (count : Nat)
  /-- The next block of the queue is processed. -/
  | process

def exec : Event → Option BlockProcessor
  | .add block account => some (s.add fullSize { block, account } false)
  | .verify count => some (s.verifyStateBlocks p count)
  | .process =>
    match s.blocks with
    | [] => some s
    | info :: blocks => processOne p fullSize { s with blocks } info

def Event.Given (known : Block → Prop) : Event → Prop
  | .add block _ => known block
  | _ => True

instance {known : Block → Prop} [DecidablePred known] (event : Event) :
    Decidable (event.Given known) :=
  match event with
  | .add block _ => inferInstanceAs (Decidable (known block))
  | .verify _ => .isTrue trivial
  | .process => .isTrue trivial

/-- What is reached from the genesis ledger by events with known blocks. -/
def Reached (known : Block → Prop) (s : BlockProcessor) : Prop :=
  ∃ l, Ledger.genesis p = some l ∧
    Reaches (fun s event s' => s.exec p fullSize event = some s') (fun _ event => event.Given known)
      { ledger := l } s

def execAll : List Event → BlockProcessor → Option BlockProcessor
  | [], s => some s
  | event :: events, s => (s.exec p fullSize event).bind (execAll events)

variable {p fullSize s}

theorem reached_of_execAll {known : Block → Prop} {events : List Event}
    (hall : ∀ event ∈ events, event.Given known)
    (h : (Ledger.genesis p).bind (fun l => execAll p fullSize events { ledger := l }) = some s) :
    Reached p fullSize known s := by
  obtain ⟨l, hl, hrun⟩ := Option.bind_eq_some_iff.1 h
  refine ⟨l, hl, ?_⟩
  clear h
  generalize BlockProcessor.mk l [] [] ∅ = start at hrun
  induction events generalizing start with
  | nil => cases hrun; exact .refl
  | cons event events ih =>
    obtain ⟨next, hexec, hrest⟩ := Option.bind_eq_some_iff.1 hrun
    have hone : Reaches (fun s event s' => s.exec p fullSize event = some s')
        (fun _ event => event.Given known) start next :=
      .tail .refl (hall event mem_cons_self) hexec
    exact hone.trans (ih (fun e he => hall e (mem_cons_of_mem _ he)) next hrest)

/-! ## What is waiting -/

/-- The block is in a queue or in the unchecked table. -/
def Carries (s : BlockProcessor) (info : UncheckedInfo) : Prop :=
  info ∈ s.stateBlocks ∨ info ∈ s.blocks ∨ ∃ key, s.unchecked.lookup key = some info

variable {entry : UncheckedKey × UncheckedInfo} {hash : BlockHash} {info i : UncheckedInfo}
  {front : Bool}

theorem carries_add : (s.add fullSize info front).Carries i ↔ i = info ∨ s.Carries i := by
  unfold add
  dsimp only
  split
  · simp [Carries, or_assoc, or_left_comm]
  · split
    · simp [Carries, or_assoc, or_left_comm]
    · simp [Carries, or_assoc, or_left_comm]

@[simp] theorem add_unchecked : (s.add fullSize info front).unchecked = s.unchecked := by
  unfold add
  dsimp only
  split
  · rfl
  · split <;> rfl

@[simp] theorem add_ledger : (s.add fullSize info front).ledger = s.ledger := by
  unfold add
  dsimp only
  split
  · rfl
  · split <;> rfl

@[simp] theorem requeue_unchecked :
    (s.requeue fullSize entry).unchecked = s.unchecked.erase entry.1 := by
  unfold requeue
  rw [add_unchecked]

@[simp] theorem requeue_ledger : (s.requeue fullSize entry).ledger = s.ledger := by
  unfold requeue
  rw [add_ledger]

theorem carries_requeue (h : s.unchecked.lookup entry.1 = some entry.2) :
    (s.requeue fullSize entry).Carries i ↔ s.Carries i := by
  have herase : (∃ key, (s.unchecked.erase entry.1).lookup key = some i) ∨ i = entry.2 ↔
      ∃ key, s.unchecked.lookup key = some i := by
    constructor
    · rintro (⟨key, hkey⟩ | rfl)
      · by_cases hk : key = entry.1
        · rw [hk, AList.lookup_erase] at hkey
          cases hkey
        · exact ⟨key, AList.lookup_erase_ne hk ▸ hkey⟩
      · exact ⟨entry.1, h⟩
    · rintro ⟨key, hkey⟩
      by_cases hk : key = entry.1
      · rw [hk, h] at hkey
        exact .inr (Option.some.inj hkey).symm
      · exact .inl ⟨key, (AList.lookup_erase_ne hk).trans hkey⟩
  unfold requeue
  rw [carries_add]
  unfold Carries
  rw [← herase]
  tauto

theorem mem_get {table : Unchecked} :
    entry ∈ table.get hash ↔ table.lookup entry.1 = some entry.2 ∧ entry.1.previous = hash := by
  obtain ⟨key, info⟩ := entry
  unfold Unchecked.get
  rw [mem_insertionSort, mem_map]
  constructor
  · rintro ⟨⟨key', info'⟩, hmem, heq⟩
    cases heq
    obtain ⟨hmem, hkey⟩ := mem_filter.1 hmem
    exact ⟨AList.mem_lookup_iff.2 hmem, eq_of_beq hkey⟩
  · rintro ⟨hlk, hkey⟩
    exact ⟨⟨key, info⟩, mem_filter.2 ⟨AList.mem_lookup_iff.1 hlk, beq_iff_eq.2 hkey⟩, rfl⟩

theorem nodup_get (table : Unchecked) (hash : BlockHash) : ((table.get hash).map (·.1)).Nodup := by
  unfold Unchecked.get
  refine ((perm_insertionSort _ _).map _).nodup_iff.2 ?_
  rw [map_map]
  exact List.NodupKeys.sublist filter_sublist table.nodupKeys

theorem queueUnchecked_induct {I : BlockProcessor → Prop} (start : I s)
    (turn : ∀ (s : BlockProcessor) entry, I s → s.unchecked.lookup entry.1 = some entry.2 →
      entry.1.previous = hash → I (s.requeue fullSize entry)) :
    I (s.queueUnchecked fullSize hash) := by
  unfold queueUnchecked
  -- the entries that are left are those of the table
  have key : ∀ (entries : List (UncheckedKey × UncheckedInfo)) (s : BlockProcessor), I s →
      (∀ entry ∈ entries, s.unchecked.lookup entry.1 = some entry.2 ∧ entry.1.previous = hash) →
      (entries.map (·.1)).Nodup → I (entries.foldl (requeue fullSize) s) := by
    intro entries
    induction entries with
    | nil => exact fun s hs _ _ => hs
    | cons entry entries ih =>
      intro s hs hmem hnd
      obtain ⟨hlk, hprev⟩ := hmem entry mem_cons_self
      obtain ⟨hne, hnd⟩ := nodup_cons.1 hnd
      refine ih _ (turn s entry hs hlk hprev) (fun e he => ?_) hnd
      obtain ⟨hl, hp⟩ := hmem e (mem_cons_of_mem _ he)
      rw [requeue_unchecked]
      refine ⟨(AList.lookup_erase_ne fun heq => hne ?_).trans hl, hp⟩
      exact mem_map.2 ⟨e, he, heq⟩
  exact key _ s start (fun entry he => mem_get.1 he) (nodup_get _ _)

theorem carries_queueUnchecked : (s.queueUnchecked fullSize hash).Carries i ↔ s.Carries i :=
  queueUnchecked_induct (I := fun s' => s'.Carries i ↔ s.Carries i) Iff.rfl
    fun _ _ ih hlk _ => (carries_requeue hlk).trans ih

@[simp] theorem queueUnchecked_ledger : (s.queueUnchecked fullSize hash).ledger = s.ledger :=
  queueUnchecked_induct (I := fun s' => s'.ledger = s.ledger) rfl
    fun _ _ ih _ _ => requeue_ledger.trans ih

end BlockProcessor

end Futurehead
