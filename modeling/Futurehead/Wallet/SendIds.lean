import Futurehead.Ledger.Writes
import Futurehead.Wallet.Actions

/-!
# Send ids

Several calls of `send_action` carry the same id, source, destination and amount. `prepare_send`
runs in a write transaction of the wallets, so no two of these overlap, but it reads the ledger as it
was when it began. Its block reaches the ledger later, if ever, and in between a call that does not
find the recorded block builds a new one and records that.
-/

namespace Futurehead

open List Option

structure Transfer where
  id : Text
  source : Account
  destination : Account
  amount : Amount

/-- The fields of the block that a call builds for an account. -/
def Transfer.hashables (t : Transfer) (info : AccountInfo) : Hashables :=
  .stateBlock t.source info.head info.representative (info.balance - t.amount) t.destination

/-- `snapshot` is the ledger that the call in `prepare_send` reads. -/
structure SendRun where
  ledger : Ledger
  ids : Table Text BlockHash
  snapshot : Option Ledger := none
  created : List Block := []

inductive SendRun.Event where
  /-- Any operation of the ledger, of the processing of a created block in particular. -/
  | ledger (action : Action)
  /-- A call begins its transactions. -/
  | begin
  /-- `prepare_send` ends, with the wallet as it is then. -/
  | finish (store : WalletStore) (memory : RawKey) (failures : Failures) (work : BitVec 64)
  /-- A call with another id records its block. -/
  | record (other : Text) (hash : BlockHash)

section

variable (p : Params) (c : Crypto) (t : Transfer)

/-- `prepare_send` of a call on a snapshot. -/
def Transfer.prepare (ids : Table Text BlockHash) (l : Ledger) (store : WalletStore)
    (memory : RawKey) (failures : Failures) (work : BitVec 64) : Prepared × Table Text BlockHash :=
  prepareSend p c l store memory ids failures t.source t.destination t.amount work (some t.id)

/-- The end of `prepare_send` on the snapshot `l`. -/
def SendRun.finish (s : SendRun) (l : Ledger) (store : WalletStore) (memory : RawKey)
    (failures : Failures) (work : BitVec 64) : SendRun :=
  let (prepared, ids) := t.prepare p c s.ids l store memory failures work
  { s with
    ids := ids
    snapshot := none
    created := if prepared.cachedBlock then s.created else prepared.block.toList ++ s.created }

def SendRun.Step (s : SendRun) : Event → SendRun → Prop
  | .ledger action, s' => ∃ l, Futurehead.Step p s.ledger action l ∧ s' = { s with ledger := l }
  | .begin, s' => s.snapshot = none ∧ s' = { s with snapshot := some s.ledger }
  | .finish store memory failures work, s' =>
    ∃ l, s.snapshot = some l ∧ s' = s.finish p c t l store memory failures work
  | .record other hash, s' => s' = { s with ids := s.ids.insert other hash }

/-- Nothing is rolled back, the id is left to the calls, and all blocks are known. -/
def SendRun.Ok (known : Block → Prop) (s : SendRun) : Event → Prop
  | .ledger action => action.Given known ∧ action.Forward
  | .begin => True
  | .finish store memory failures work => ∀ l, s.snapshot = some l →
    ∀ b ∈ (s.finish p c t l store memory failures work).created, known b
  | .record other _ => other ≠ t.id

end

/-! ## Created blocks -/

variable {p : Params} {known : Block → Prop} {c : Crypto} {t : Transfer} {l l' : Ledger} {b : Block}

/-- The block was built for the account, and it is still the block that would be built as long as
the account has the same head. -/
structure Good (t : Transfer) (l : Ledger) (b : Block) : Prop where
  built : ∃ info, b.hashables = t.hashables info
  opened : ∃ info, l.accountGet t.source = some info
  previous : l.blockExists b.hashables.previous
  same : ∀ info, l.accountGet t.source = some info → info.head = b.hashables.previous →
    b.hashables = t.hashables info

/-- The block is not stored, and the account has gone on without it. -/
structure Dead (p : Params) (t : Transfer) (l : Ledger) (b : Block) : Prop where
  not_stored : l.blockExists (p.hash b) = false
  passed : ∀ info, l.accountGet t.source = some info → info.head ≠ b.hashables.previous

theorem Good.type (h : Good t l b) : b.hashables.type = .state := by
  obtain ⟨info, hb⟩ := h.built
  rw [hb]
  rfl

theorem Good.hashables_eq (H : HashAssumptions p known) (h : Good t l b) {b' : Block}
    (hkn : known b) (hkn' : known b') (heq : p.hash b' = p.hash b) : b'.hashables = b.hashables :=
  (Hashables.eq_of_hashInput (H.collisionFree hkn hkn' heq.symm) (.inr h.type)).symm

section

theorem Good.same_tables (h : Good t l b) (hs : SameTables l l') : Good t l' b where
  built := h.built
  opened := by rw [hs.accountGet]; exact h.opened
  previous := by rw [hs.blockExists]; exact h.previous
  same info hinfo := h.same info (hs.accountGet _ ▸ hinfo)

theorem Dead.same_tables (h : Dead p t l b) (hs : SameTables l l') : Dead p t l' b where
  not_stored := by rw [hs.blockExists]; exact h.not_stored
  passed info hinfo := h.passed info (hs.accountGet _ ▸ hinfo)

variable (H : HashAssumptions p known) (hl : Filed p known l) {x : Block} {a : Account}
  (hw : Writes p l x a l') (hx : known x)

include H hl hw hx

theorem account_writes {info : AccountInfo} (hinfo : l'.accountGet t.source = some info)
    {h : BlockHash} (hh : l.blockExists h) (hhead : info.head = h) :
    l.accountGet t.source = some info := by
  obtain ⟨new, hnew, haccs⟩ := hw.accounts
  rw [haccs] at hinfo
  split at hinfo
  · cases hinfo
    rw [← hhead, hnew, hw.not_stored H hl hx] at hh
    cases hh
  · exact hinfo

theorem Good.writes (h : Good t l b) : Good t l' b where
  built := h.built
  opened := by
    obtain ⟨new, -, haccs⟩ := hw.accounts
    rw [haccs]
    split
    · exact ⟨new, rfl⟩
    · exact h.opened
  previous := (hw.blockExists_iff _).2 (.inr h.previous)
  same info hinfo hhead := h.same info (account_writes H hl hw hx hinfo h.previous hhead) hhead

theorem Dead.writes (h : Dead p t l b) (hg : Good t l b) (hkn : known b) : Dead p t l' b where
  not_stored := by
    by_contra hex
    rcases (hw.blockExists_iff _).1 (Bool.eq_true_of_not_eq_false hex) with heq | hex
    · -- the accepted block would stand on the head of the account
      have hb := hg.hashables_eq H hkn hx heq.symm
      obtain ⟨info0, hbt⟩ := hg.built
      obtain ⟨hacc, hhead⟩ := hw.state (by rw [hb]; exact hg.type)
      obtain ⟨info, hinfo⟩ := hg.opened
      obtain rfl : t.source = a := by rw [← hacc, hb, hbt]; rfl
      exact h.passed info hinfo (by rw [hhead info hinfo, hb])
    · rw [h.not_stored] at hex
      cases hex
  passed info hinfo hhead := h.passed info (account_writes H hl hw hx hinfo hg.previous hhead) hhead

end

/-! ## The invariant -/

/-- What is known of a ledger: all created blocks other than the recorded one are dead. -/
structure Traced (p : Params) (known : Block → Prop) (t : Transfer) (recorded : Option BlockHash)
    (created : List Block) (l : Ledger) : Prop where
  filed : Filed p known l
  given : ∀ b ∈ created, known b
  good : ∀ b ∈ created, Good t l b
  dead : ∀ b ∈ created, recorded ≠ some (p.hash b) → Dead p t l b

variable {recorded : Option BlockHash} {created : List Block}

theorem Traced.step (H : HashAssumptions p known) (h : Traced p known t recorded created l)
    {action : Action} (hgiv : action.Given known) (hforward : action.Forward)
    (hstep : Step p l action l') : Traced p known t recorded created l' := by
  rcases forward_cases H hgiv hforward hstep with hs | ⟨x, a, hx, hw⟩
  · exact ⟨h.filed.same hs, h.given, fun b hb => (h.good b hb).same_tables hs,
      fun b hb hne => (h.dead b hb hne).same_tables hs⟩
  · exact ⟨h.filed.writes H hw hx, h.given, fun b hb => (h.good b hb).writes H h.filed hw hx,
      fun b hb hne => (h.dead b hb hne).writes H h.filed hw hx (h.good b hb) (h.given b hb)⟩

theorem Traced.recorded_of_stored (h : Traced p known t recorded created l) (hb : b ∈ created)
    (hst : l.blockExists (p.hash b)) : recorded = some (p.hash b) := by
  by_contra hne
  rw [(h.dead b hb hne).not_stored] at hst
  cases hst

theorem Traced.create (h : Traced p known t recorded created l) {info : AccountInfo}
    (hinfo : l.accountGet t.source = some info) (hb : b.hashables = t.hashables info)
    (hkn : known b) (hmiss : ∀ hash, recorded = some hash → l.blockExists hash = false) :
    Traced p known t (some (p.hash b)) (b :: created) l := by
  have hgood : Good t l b := by
    have hprev : b.hashables.previous = info.head := by rw [hb]; rfl
    refine ⟨⟨info, hb⟩, ⟨info, hinfo⟩, hprev ▸ h.filed.head hinfo, fun info' hinfo' _ => ?_⟩
    rw [hinfo] at hinfo'
    cases hinfo'
    exact hb
  refine ⟨h.filed, forall_mem_cons.2 ⟨hkn, h.given⟩,
    forall_mem_cons.2 ⟨hgood, h.good⟩, forall_mem_cons.2 ⟨fun hne => absurd rfl hne, ?_⟩⟩
  intro x hx hne
  by_cases hrec : recorded = some (p.hash x)
  · -- the block that was recorded before: with the same head it would have been built again
    refine ⟨hmiss _ hrec, fun info' hinfo' hhead => hne ?_⟩
    rw [hinfo] at hinfo'
    cases hinfo'
    have hsame := (h.good x hx).same info hinfo hhead
    unfold Params.hash
    rw [hb, hsame]
  · exact h.dead x hx hrec

theorem Traced.prepare {ids ids' : Table Text BlockHash} {store : WalletStore} {memory : RawKey}
    {failures : Failures} {work : BitVec 64} {prepared : Prepared}
    (h : Traced p known t (ids.lookup t.id) created l)
    (hprep : t.prepare p c ids l store memory failures work = (prepared, ids'))
    (hkn : ∀ b ∈ if prepared.cachedBlock then created else prepared.block.toList ++ created,
      known b) :
    Traced p known t (ids'.lookup t.id)
      (if prepared.cachedBlock then created else prepared.block.toList ++ created) l := by
  unfold Transfer.prepare at hprep
  rcases prepareSend_cases hprep with ⟨stored, -, rfl, rfl⟩ | ⟨hnone, rfl⟩ |
    ⟨built, hbt, hmiss, rfl, rfl⟩
  · exact h
  · rw [hnone]
    split <;> exact h
  · obtain ⟨info, hinfo, -, rfl⟩ := buildSend_eq_some hbt
    rw [elim_some, Finmap.lookup_insert]
    refine h.create hinfo rfl (hkn _ (by simp)) fun hash hrec => ?_
    have hget : l.blockGet hash = none := by simpa [hrec] using hmiss
    rw [← blockGet_isSome, hget]
    rfl

/-- What is known in a run: it holds of the ledger and of the snapshot, which the ledger has grown
from. -/
structure SendRun.Inv (p : Params) (known : Block → Prop) (t : Transfer) (s : SendRun) : Prop where
  ledger : Traced p known t (s.ids.lookup t.id) s.created s.ledger
  snapshot : ∀ l, s.snapshot = some l → Traced p known t (s.ids.lookup t.id) s.created l ∧
    Reaches (Futurehead.Step p) (fun _ action => action.Given known ∧ action.Forward) l s.ledger

theorem SendRun.Inv.step (H : HashAssumptions p known) {s s' : SendRun} {event : SendRun.Event}
    (h : s.Inv p known t) (hok : s.Ok p c t known event) (hstep : s.Step p c t event s') :
    s'.Inv p known t := by
  cases event with
  | ledger action =>
    obtain ⟨l', hstep, rfl⟩ := hstep
    refine ⟨h.ledger.step H hok.1 hok.2 hstep, fun l hl => ?_⟩
    exact ⟨(h.snapshot l hl).1, (h.snapshot l hl).2.tail (a := action) hok hstep⟩
  | begin =>
    obtain ⟨-, rfl⟩ := hstep
    refine ⟨h.ledger, fun l hl => ?_⟩
    cases hl
    exact ⟨h.ledger, .refl⟩
  | finish store memory failures work =>
    obtain ⟨l, hl, rfl⟩ := hstep
    obtain ⟨htraced, hgrown⟩ := h.snapshot l hl
    have hkn := hok l hl
    unfold SendRun.finish at hkn ⊢
    cases hprep : t.prepare p c s.ids l store memory failures work with
    | mk prepared ids =>
      rw [hprep] at hkn
      refine ⟨?_, fun l hl => by cases hl⟩
      -- the call has settled what holds of its snapshot, and the ledger has only grown since
      refine hgrown.invariant (htraced.prepare hprep hkn) fun l action l' h hok hstep => ?_
      exact h.step H hok.1 hok.2 hstep
  | record other hash =>
    obtain rfl := hstep
    have hlk : (s.ids.insert other hash).lookup t.id = s.ids.lookup t.id :=
      Finmap.lookup_insert_of_ne _ (Ne.symm hok)
    refine ⟨?_, fun l hl => ?_⟩
    · rw [hlk]
      exact h.ledger
    · rw [hlk]
      exact h.snapshot l hl

/-- Over every interleaving, the created blocks that are in the ledger are all the same block, and a
call that begins when it is there returns it. -/
theorem send_once (H : HashAssumptions p known) {l0 : Ledger}
    (hl : Reached p known (NoForeignEpoch p) l0 ∨
      Reached p known (fun _ action => action.Forward) l0)
    (ids : Table Text BlockHash) {s : SendRun}
    (hrun : Reaches (SendRun.Step p c t) (SendRun.Ok p c t known) ⟨l0, ids, none, []⟩ s) :
    (∀ b ∈ s.created, ∀ b' ∈ s.created, s.ledger.blockExists (p.hash b) →
      s.ledger.blockExists (p.hash b') → b.hashables = b'.hashables) ∧
    (∀ l, s.snapshot = some l → ∀ b ∈ s.created, l.blockExists (p.hash b) →
      ∃ stored, l.blockGet (p.hash b) = some stored ∧ stored.block.hashables = b.hashables ∧
        ∀ store memory failures work, failures.get = false →
          t.prepare p c s.ids l store memory failures work =
            ({ block := some stored.block, cachedBlock := true }, s.ids)) := by
  have hstart : SendRun.Inv p known t ⟨l0, ids, none, []⟩ :=
    ⟨⟨Reached.filed H hl, by simp, by simp, by simp⟩, fun l hl => by cases hl⟩
  have hinv := hrun.invariant hstart fun _ _ _ h hok hstep => h.step H hok hstep
  constructor
  · intro b hb b' hb' hst hst'
    have hrec := hinv.ledger.recorded_of_stored hb hst
    have hrec' := hinv.ledger.recorded_of_stored hb' hst'
    exact (hinv.ledger.good b' hb').hashables_eq H (hinv.ledger.given b' hb')
      (hinv.ledger.given b hb) (Option.some.inj (hrec.symm.trans hrec'))
  · intro l hl b hb hst
    have htraced := (hinv.snapshot l hl).1
    have hrec := htraced.recorded_of_stored hb hst
    obtain ⟨stored, hget⟩ : ∃ stored, l.blockGet (p.hash b) = some stored := by
      rw [← isSome_iff_exists, blockGet_isSome]
      exact hst
    refine ⟨stored, hget, ?_, fun store memory failures work hfail => ?_⟩
    · obtain ⟨type, hblk⟩ := block?_of_blockGet hget
      obtain ⟨hkn, hk⟩ := htraced.filed.stored hblk
      exact (htraced.good b hb).hashables_eq H (htraced.given b hb) hkn (congrArg Prod.snd hk).symm
    · unfold Transfer.prepare prepareSend
      rw [hfail]
      simp [hrec, hget]

namespace Sample

def transfer : Transfer := ⟨['x'], 1005, 2000, 3⟩

/-- The two calls: the first one builds a block, which is processed before the second one begins. -/
def firstCall (l : Ledger) : SendRun :=
  SendRun.finish signingParams signingCrypto transfer ⟨l, ∅, some l, []⟩ l walletW 0 {} 0

end Sample

open Sample in
/-- A block is built and processed, and a second call with the id finds it. -/
theorem send_once_retry :
    ∃ l0 s l stored, signedRun [put sendW, put openW] = some l0 ∧
      Reaches (SendRun.Step signingParams signingCrypto transfer)
        (SendRun.Ok signingParams signingCrypto transfer (· ∈ signedBlocks)) ⟨l0, ∅, none, []⟩ s ∧
      s.created = [payW] ∧ s.snapshot = some l ∧
      l.blockGet (signingParams.hash payW) = some stored ∧
      transfer.prepare signingParams signingCrypto s.ids l walletW 0 {} 0 =
        ({ block := some stored.block, cachedBlock := true }, s.ids) := by
  obtain ⟨l0, hl0, hview⟩ := map_eq_some_iff.1
    (show (signedRun [put sendW, put openW]).map (fun l => ((firstCall l).created,
      ((l.exec signingParams 20 (put payW)).map (·.blockExists (signingParams.hash payW))))) =
      some ([payW], some true) by decide +kernel)
  obtain ⟨hcreated, hexec⟩ := Prod.mk.inj hview
  obtain ⟨l, hexec, hst⟩ := map_eq_some_iff.1 hexec
  have hcl : (firstCall l0).snapshot = none := by simp only [firstCall, SendRun.finish]
  have hrch : Reached signingParams (· ∈ signedBlocks) (NoForeignEpoch signingParams) l0 :=
    reached_of_no_epochLink (by decide +kernel) hl0
  have hfst : Reaches (SendRun.Step signingParams signingCrypto transfer)
      (SendRun.Ok signingParams signingCrypto transfer (· ∈ signedBlocks)) ⟨l0, ∅, none, []⟩
      (firstCall l0) := by
    refine .tail (a := .finish walletW 0 {} 0)
      (.tail (a := .begin) .refl trivial ⟨rfl, rfl⟩) (fun l hl b hb => ?_) ⟨l0, rfl, rfl⟩
    cases hl
    change b ∈ (firstCall l0).created at hb
    rw [hcreated] at hb
    obtain rfl := mem_singleton.1 hb
    decide +kernel
  have hlg : (firstCall l0).ledger = l0 := by simp only [firstCall, SendRun.finish]
  generalize firstCall l0 = s at hfst hcreated hcl hlg
  have hrun : Reaches (SendRun.Step signingParams signingCrypto transfer)
      (SendRun.Ok signingParams signingCrypto transfer (· ∈ signedBlocks)) ⟨l0, ∅, none, []⟩
      { s with ledger := l, snapshot := some l } := by
    refine .tail (a := .begin) (.tail (a := .ledger (put payW)) hfst
      ⟨by decide +kernel, trivial⟩ ⟨l, ⟨20, hlg ▸ hexec⟩, rfl⟩) trivial ⟨hcl, rfl⟩
  have hmem : payW ∈ s.created := by
    rw [hcreated]
    exact mem_cons_self
  obtain ⟨stored, hget, -, hprepare⟩ :=
    (send_once signedAssumptions (.inl hrch) ∅ hrun).2 l rfl payW hmem hst
  exact ⟨l0, _, l, stored, hl0, hrun, hcreated, rfl, hget, hprepare walletW 0 {} 0 rfl⟩

end Futurehead
