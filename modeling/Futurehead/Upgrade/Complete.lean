import Futurehead.Ledger.System
import Futurehead.Upgrade.Sideband

/-!
# The sideband upgrade as a whole

The upgrade does the accounts in their order, and the blocks of an account from the oldest one on.
`SidebandUpgrade.Inv` says what has been done at each place. A restart goes back to the last commit,
where every entry is still of one of the two kinds, and starts with the first account.
-/

namespace Futurehead

open Wire List Option

variable {fuel n : Nat} {sideband : SidebandV14} {notAnAccount a : Account} {c chain : List Entry}
  {s t : SidebandUpgrade} {e : Entry}

variable {p : Params} {known : Block → Prop}

/-- No state block has a successor: every chain has one at most, and it is the newest block. -/
def Lattice.NoStateSuccessor (L : Lattice p known) : Prop :=
  ∀ a e x c, L.At a e (x :: c) → x.type ≠ .state

namespace SidebandUpgrade

variable {L : Lattice p known}

/-! ## One block -/

@[simp] theorem commit_db : s.commit.db = s.db := by
  unfold commit
  split <;> rfl

@[simp] theorem commit_notAnAccount : s.commit.notAnAccount = s.notAnAccount := by
  unfold commit
  split <;> rfl

theorem commit_committed : s.commit.committed = s.committed ∨ s.commit.committed = s.db := by
  unfold commit
  split
  · exact .inr rfl
  · exact .inl rfl

/-- What a round of the inner loop does with the block of `e`. -/
structure BlockDone (L : Lattice p known) (a : Account) (e : Entry) (c : List Entry)
    (s t : SidebandUpgrade) : Prop where
  upgrading : t.db.Upgrading L
  new : t.db.NewEntry L a e c
  keep : ∀ {a' e' c'}, L.At a' e' c' → s.db.NewEntry L a' e' c' → t.db.NewEntry L a' e' c'
  committed : t.committed = s.committed ∨ t.committed = s.db
  notAnAccount : t.notAnAccount = s.notAnAccount
  position : ∃ sideband,
    t.position = .chain a (L.successor a c) (BitVec.ofNat 64 (c.length + 2)) sideband

section Block

variable (H : HashAssumptions p known) (hsta : L.NoStateSuccessor) (hdb : s.db.Upgrading L)
  (hat : L.At a e c) (hblw : ∀ x d, c = x :: d → s.db.NewEntry L a x d)

include H hsta hdb hat hblw

theorem nextBlock_of_reading
    {r : Option Block × SidebandV14 × Bool}
    (hr : s.db.blockGetV14 p fuel (e.hash p) sideband = some r) :
    ∃ t, s.nextBlock p fuel a (e.hash p) (BitVec.ofNat 64 (c.length + 1)) sideband = some t ∧
      BlockDone L a e c s t := by
  have hreading := hdb.reading H hat hblw hr
  obtain ⟨block, read, v1⟩ := r
  obtain ⟨hblk, hsucc, ⟨value, hraw⟩, hwritten, hfull⟩ := hreading
  dsimp only at hblk hsucc hraw hwritten hfull
  subst hblk
  have hht : BitVec.ofNat 64 (c.length + 1) + 1 = BitVec.ofNat 64 (c.length + 2) :=
    (BitVec.ofNat_add (c.length + 1) 1).symm
  have hne := Lattice.hash_ne_zero H hat
  by_cases hzero : read.height = 0
  · obtain ⟨hput, hnew, hkeep⟩ := hdb.put H hat hraw
    have hset := Database.blockPredecessorSet_eq H hat (fun x d hc => hsta a e x d (hc ▸ hat))
      fun x d hc => hkeep (hc ▸ hat).below (hblw x d hc)
    refine ⟨{ s.commit with
      db := s.db.blockRawPut (e.hash p)
        ⟨e.type, e.block.serialize ++ (L.sidebandAt a e c).serialize e.type, v1⟩
      cost := s.commit.cost + 16
      position := .chain a (L.successor a c) (BitVec.ofNat 64 (c.length + 2))
        { read with height := BitVec.ofNat 64 (c.length + 1) } }, ?_, ?_⟩
    · unfold nextBlock
      rw [if_neg hne]
      unfold Entry.type at hset hwritten
      simp only [commit_db, hr, bind_eq_bind, bind_some, hzero, if_true, hwritten,
        hset, Option.pure_def, hht, ← hsucc]
      rfl
    · exact ⟨hput, hnew, hkeep, commit_committed, commit_notAnAccount, _, rfl⟩
  · refine ⟨{ s.commit with
      cost := s.commit.cost + 1
      position := .chain a (L.successor a c) (BitVec.ofNat 64 (c.length + 2)) read }, ?_, ?_⟩
    · unfold nextBlock
      rw [if_neg hne]
      simp only [commit_db, hr, bind_eq_bind, bind_some, hzero, if_false, Option.pure_def,
        hht, ← hsucc]
    · have hsame : s.commit.db = s.db := commit_db
      exact ⟨hsame ▸ hdb, hsame ▸ hfull hzero, fun _ h => hsame ▸ h, commit_committed,
        commit_notAnAccount, _, rfl⟩

theorem nextBlock_done
    (h : s.nextBlock p fuel a (e.hash p) (BitVec.ofNat 64 (c.length + 1)) sideband = some t) :
    BlockDone L a e c s t := by
  cases hr : s.db.blockGetV14 p fuel (e.hash p) sideband with
  | none =>
    unfold nextBlock at h
    rw [if_neg (Lattice.hash_ne_zero H hat)] at h
    simp only [commit_db, hr, bind_eq_bind, bind_none] at h
    cases h
  | some r =>
    obtain ⟨t', h', hdone⟩ := nextBlock_of_reading H hsta hdb hat hblw hr
    rw [h] at h'
    cases h'
    exact hdone

theorem exists_nextBlock (sideband : SidebandV14) : ∃ fuel t,
    s.nextBlock p fuel a (e.hash p) (BitVec.ofNat 64 (c.length + 1)) sideband = some t := by
  obtain ⟨fuel, r, hr⟩ := hdb.exists_reading H hat hblw sideband
  obtain ⟨t, ht, -⟩ := nextBlock_of_reading H hsta hdb hat hblw hr
  exact ⟨fuel, t, ht⟩

end Block

/-! ## Whole runs -/

def NewChain (db : Database) (L : Lattice p known) (a : Account) : Prop :=
  ∀ e c, L.At a e c → db.NewEntry L a e c

/-- The number that ends the walk does not end it before the last account. -/
def EndMark (L : Lattice p known) (notAnAccount : Account) : Prop :=
  notAnAccount ≠ 0 ∧ ∀ a, notAnAccount ≤ a → L.chain a ≠ [] → L.chain (notAnAccount - 1) = []

/-- The upgrade has done the accounts before `first`, and its blocks up to `c`. -/
structure ChainDone (L : Lattice p known) (first : Account) (c : List Entry) (db : Database) :
    Prop where
  upgrading : db.Upgrading L
  ne_nil : L.chain first ≠ []
  before : ∀ a < first, NewChain db L a
  suffix : c <:+ L.chain first
  below : ∀ e d, e :: d <:+ c → db.NewEntry L first e d

/-- What has been done when the upgrade is at a place. -/
def DoneAt (L : Lattice p known) (s : SidebandUpgrade) : UpgradePosition → Prop
  | .accounts account =>
    s.db.Upgrading L ∧ ∀ a, a < account ∨ account = s.notAnAccount → NewChain s.db L a
  | .chain first hash height _ =>
    ∃ c, ChainDone L first c s.db ∧ hash = hashAt p (L.chain first) (c.length + 1) ∧
      height = BitVec.ofNat 64 (c.length + 1)
  | .finished => s.db.version = 13 ∧ ∀ a, NewChain s.db L a

structure Inv (L : Lattice p known) (s : SidebandUpgrade) : Prop where
  committed : s.committed.Upgrading L
  mark : EndMark L s.notAnAccount
  position : s.DoneAt L s.position

theorem inv_start {db : Database} (hdb : db.Upgrading L)
    (hmark : EndMark L notAnAccount) (batchSize : BitVec 64) :
    Inv L (start batchSize notAnAccount db) where
  committed := hdb
  mark := hmark
  position := by
    refine ⟨hdb, ?_⟩
    rintro a (ha | h0)
    · exact absurd ha (by simp)
    · exact absurd h0.symm hmark.1

section Run

variable (H : HashAssumptions p known) (hsta : L.NoStateSuccessor)
  (hlast : L.chain (BitVec.allOnes 256) = [])

variable {first account : Account} {db : Database}

theorem newChain_of_nil (h : L.chain a = []) : NewChain db L a := by
  intro e c hat
  exact absurd h hat.ne_nil

theorem newChain_of_first {x : Account × AccountInfoV13} (hdb : db.Upgrading L)
    (hx : FirstFrom db.HasAccount account x) (hnew : ∀ a < account, NewChain db L a) (ha : a < x.1) :
    NewChain db L a := by
  by_cases hlt : a < account
  · exact hnew a hlt
  · apply newChain_of_nil
    by_contra hne
    obtain ⟨info, hinfo⟩ := hdb.listed hne
    exact BitVec.not_le.2 ha (hx.least _ hinfo (BitVec.not_lt.1 hlt))

theorem inv_nextAccount (hinv : Inv L s) (hpos : s.position = .accounts account) :
    Inv L (s.nextAccount account) := by
  obtain ⟨hcom, hmark, hdone⟩ := hinv
  rw [hpos] at hdone
  obtain ⟨hdb, hnew⟩ := hdone
  unfold nextAccount
  by_cases hend : account = s.notAnAccount
  · rw [if_neg (not_not.2 hend)]
    exact ⟨hcom, hmark, rfl, fun a => hnew a (.inr hend)⟩
  · rw [if_pos hend]
    cases hleast : s.db.leastAccount account with
    | none =>
      refine ⟨hcom, hmark, hdb, fun a _ => ?_⟩
      by_cases hlt : a < account
      · exact hnew a (.inl hlt)
      · apply newChain_of_nil
        by_contra hne
        obtain ⟨info, hinfo⟩ := hdb.listed hne
        exact Database.leastAccount_eq_none hleast hinfo (BitVec.not_lt.1 hlt)
    | some x =>
      obtain ⟨first, info⟩ := x
      have hfst := Database.firstFrom_leastAccount hleast
      obtain ⟨hne, hopen⟩ := hdb.account hfst.mem
      obtain ⟨e, c, hc⟩ := exists_cons_of_ne_nil hne
      obtain ⟨amount, epoch, hx⟩ := Lattice.extends_at (Chains.at_head hc)
      simp only [ne_eq, hx.account_ne_zero, not_false_eq_true, if_true]
      refine ⟨hcom, hmark, [], ⟨hdb, hne, ?_, nil_suffix, ?_⟩, ?_, rfl⟩
      · exact fun a ha => newChain_of_first hdb hfst (fun a ha => hnew a (.inl ha)) ha
      · intro e d h
        exact absurd h (by simp)
      · rw [hopen, chainOpen_eq_hashAt hne]
        rfl

theorem ChainDone.newChain (hdone : ChainDone L first (L.chain first) s.db)
    (hmark : EndMark L s.notAnAccount) (hlast : L.chain (BitVec.allOnes 256) = []) (a : Account)
    (ha : a < first + 1 ∨ first + 1 = s.notAnAccount) : NewChain s.db L a := by
  have hfst : first ≠ BitVec.allOnes 256 := by
    rintro rfl
    exact hdone.ne_nil hlast
  by_cases hlt : a < first + 1
  · rw [lt_succ_iff hfst] at hlt
    by_cases heq : a = first
    · exact heq ▸ hdone.below
    · exact hdone.before a (BitVec.lt_of_le_ne hlt heq)
  · have hmark' := ha.resolve_left hlt
    apply newChain_of_nil
    by_contra hch
    have hnil := hmark.2 a (hmark' ▸ BitVec.not_lt.1 hlt) hch
    rw [← hmark', BitVec.add_sub_cancel] at hnil
    exact hdone.ne_nil hnil

theorem ChainDone.next (hdone : ChainDone L first c s.db) (hblk : BlockDone L first e c s t)
    (hat : L.At first e c) : ChainDone L first (e :: c) t.db where
  upgrading := hblk.upgrading
  ne_nil := hdone.ne_nil
  before a ha e c hat := hblk.keep hat (hdone.before a ha e c hat)
  suffix := hat
  below x d hxd := by
    rcases suffix_cons_iff.1 hxd with heq | hsuf
    · cases heq
      exact hblk.new
    · exact hblk.keep (hsuf.trans hdone.suffix) (hdone.below x d hsuf)

theorem ChainDone.head (hdone : ChainDone L first c s.db) (x : Entry) (d : List Entry)
    (hc : c = x :: d) : s.db.NewEntry L first x d :=
  hdone.below x d (hc ▸ suffix_refl _)

theorem exists_above (hc : c <:+ L.chain a) :
    (∃ e, L.At a e c ∧ hashAt p (L.chain a) (c.length + 1) = e.hash p) ∨
      c = L.chain a ∧ hashAt p (L.chain a) (c.length + 1) = 0 := by
  obtain ⟨above, habove⟩ := hc
  rcases eq_nil_or_concat above with rfl | ⟨rest, e, rfl⟩
  · rw [nil_append] at habove
    exact .inr ⟨habove, hashAt_of_length_lt (by rw [habove]; omega)⟩
  · have hat : L.At a e c := ⟨rest, by rw [← habove, concat_append]⟩
    exact .inl ⟨e, hat, hashAt_suffix hat⟩

include H hsta hlast

theorem inv_nextBlock {hash : BlockHash} {height : BitVec 64} (hinv : Inv L s)
    (hpos : s.position = .chain first hash height sideband)
    (h : s.nextBlock p fuel first hash height sideband = some t) : Inv L t := by
  obtain ⟨hcom, hmark, hdone⟩ := hinv
  rw [hpos] at hdone
  obtain ⟨c, hdone, rfl, rfl⟩ := hdone
  rcases exists_above hdone.suffix with ⟨e, hat, hhash⟩ | ⟨rfl, hhash⟩
  · rw [hhash] at h
    have hblk := nextBlock_done H hsta hdone.upgrading hat hdone.head h
    obtain ⟨sideband', hposition⟩ := hblk.position
    refine ⟨?_, hblk.notAnAccount ▸ hmark, ?_⟩
    · rcases hblk.committed with heq | heq
      · rw [heq]
        exact hcom
      · rw [heq]
        exact hdone.upgrading
    · rw [hposition]
      exact ⟨e :: c, hdone.next hblk hat, rfl, rfl⟩
  · unfold nextBlock at h
    rw [if_pos hhash] at h
    cases h
    exact ⟨hcom, hmark, hdone.upgrading, hdone.newChain hmark hlast⟩

theorem inv_step {action : Action} (hinv : Inv L s) (hok : ∀ b n, action = .restart b n → EndMark L n)
    (h : Step p s action t) : Inv L t := by
  cases h with
  | iterate fuel h =>
    unfold iterate at h
    cases hpos : s.position with
    | accounts account =>
      rw [hpos] at h
      cases h
      exact inv_nextAccount hinv hpos
    | chain first hash height sideband =>
      rw [hpos] at h
      exact inv_nextBlock H hsta hlast hinv hpos h
    | finished =>
      rw [hpos] at h
      cases h
  | restart batchSize notAnAccount =>
    exact inv_start hinv.committed (hok batchSize notAnAccount rfl) batchSize

/-- The upgrade goes on from `s` to `t` without being stopped. -/
abbrev Runs (p : Params) : SidebandUpgrade → SidebandUpgrade → Prop :=
  Reaches (Step p) fun _ action => action = .iterate

omit hlast in
theorem exists_run_chain (hdone : ChainDone L first c s.db)
    (hn : (L.chain first).length = c.length + n)
    (hpos : s.position = .chain first (hashAt p (L.chain first) (c.length + 1))
      (BitVec.ofNat 64 (c.length + 1)) sideband) :
    ∃ t, Runs p s t ∧ t.position = .accounts (first + 1) := by
  induction n generalizing s c sideband with
  | zero =>
    have hhash : hashAt p (L.chain first) (c.length + 1) = 0 := hashAt_of_length_lt (by omega)
    refine ⟨{ s with position := .accounts (first + 1) }, ?_, rfl⟩
    refine Reaches.refl.tail rfl (.iterate 0 ?_)
    rw [iterate, hpos]
    exact if_pos hhash
  | succ n ih =>
    rcases exists_above hdone.suffix with ⟨e, hat, hhash⟩ | ⟨rfl, -⟩
    · rw [hhash] at hpos
      obtain ⟨fuel, t, ht⟩ := exists_nextBlock H hsta hdone.upgrading hat hdone.head sideband
      have hblk := nextBlock_done H hsta hdone.upgrading hat hdone.head ht
      obtain ⟨sideband', hposition⟩ := hblk.position
      obtain ⟨t', hrun, hend⟩ := ih (hdone.next hblk hat) (by rw [length_cons]; omega) hposition
      refine ⟨t', Reaches.trans (.tail .refl rfl (.iterate fuel ?_)) hrun, hend⟩
      rw [iterate, hpos]
      exact ht
    · omega

theorem inv_runs (hinv : Inv L s) (h : Runs p s t) : Inv L t := by
  refine h.invariant (I := Inv L) hinv fun s action t hs haction hstep => ?_
  refine inv_step H hsta hlast hs (fun b n hrst => ?_) hstep
  rw [haction] at hrst
  cases hrst

omit H hsta hlast in
theorem runs_nextAccount (hpos : s.position = .accounts account) :
    Runs p s (s.nextAccount account) := by
  refine .tail .refl rfl (.iterate 0 ?_)
  rw [iterate, hpos]

theorem exists_run_accounts (hinv : Inv L s) (hpos : s.position = .accounts account) :
    ∃ t, Runs p s t ∧ t.position = .finished := by
  obtain ⟨n, hn⟩ : ∃ n, 2 ^ 256 - account.toNat = n := ⟨_, rfl⟩
  induction n using Nat.strong_induction_on generalizing s account with
  | _ n ih =>
    have hstep := runs_nextAccount (p := p) hpos
    have hnext := inv_nextAccount hinv hpos
    unfold nextAccount at hstep hnext
    by_cases hend : account = s.notAnAccount
    · rw [if_neg (not_not.2 hend)] at hstep
      exact ⟨_, hstep, rfl⟩
    · rw [if_pos hend] at hstep hnext
      have hmarked : ∀ t : SidebandUpgrade, t.position = .accounts t.notAnAccount →
          ∃ t', Runs p t t' ∧ t'.position = .finished := by
        intro t ht
        refine ⟨_, runs_nextAccount ht, ?_⟩
        rw [nextAccount, if_neg (not_not.2 rfl)]
      cases hleast : s.db.leastAccount account with
      | none =>
        rw [hleast] at hstep
        obtain ⟨t, hrun, hfin⟩ := hmarked { s with position := .accounts s.notAnAccount } rfl
        exact ⟨t, hstep.trans hrun, hfin⟩
      | some x =>
        obtain ⟨first, info⟩ := x
        rw [hleast] at hstep hnext
        simp only at hstep hnext
        by_cases hzero : first = 0
        · rw [if_neg (not_not.2 hzero)] at hstep
          obtain ⟨t, hrun, hfin⟩ := hmarked { s with position := .accounts s.notAnAccount } rfl
          exact ⟨t, hstep.trans hrun, hfin⟩
        · rw [if_pos hzero] at hstep hnext
          obtain ⟨c, hdone, hhash, hht⟩ := hnext.position
          obtain ⟨t, hrun, hpos'⟩ := exists_run_chain H hsta hdone
            (Nat.add_sub_cancel' hdone.suffix.length_le).symm (by rw [← hhash, ← hht])
          have hfrom : account ≤ first := (Database.firstFrom_leastAccount hleast).from_le
          have hfst : first ≠ BitVec.allOnes 256 := by
            rintro rfl
            exact hdone.ne_nil hlast
          have hless : 2 ^ 256 - (first + 1).toNat < n := by
            have := first.isLt
            rw [BitVec.le_def] at hfrom
            rw [toNat_succ hfst]
            omega
          obtain ⟨t', hrun', hfin⟩ := ih _ hless (inv_runs H hsta hlast hnext hrun) hpos' rfl
          exact ⟨t', (hstep.trans hrun).trans hrun', hfin⟩

theorem exists_run_finished (hinv : Inv L s) : ∃ t, Runs p s t ∧ t.position = .finished := by
  cases hpos : s.position with
  | accounts account => exact exists_run_accounts H hsta hlast hinv hpos
  | chain first hash height sideband =>
    have hdone := hinv.position
    rw [hpos] at hdone
    obtain ⟨c, hdone, rfl, rfl⟩ := hdone
    obtain ⟨t, hrun, hpos'⟩ := exists_run_chain H hsta hdone
      (Nat.add_sub_cancel' hdone.suffix.length_le).symm hpos
    obtain ⟨t', hrun', hfin⟩ :=
      exists_run_accounts H hsta hlast (inv_runs H hsta hlast hinv hrun) hpos'
    exact ⟨t', hrun.trans hrun', hfin⟩
  | finished => exact ⟨s, .refl, hpos⟩

end Run

end SidebandUpgrade

/-! ## Reading back -/

/-- Every block is read with the sideband of its place: the successor, the height, the account and
the balance, of which a block type may state the last two itself. -/
def Database.ReadsBack (db : Database) (L : Lattice p known) : Prop :=
  ∀ a e c, L.At a e c → ∀ fuel s, ∃ sideband v1,
    db.blockGetV14 p fuel (e.hash p) s = some (some e.block, sideband, v1) ∧
    sideband.accountOf e.block = a ∧ sideband.successor = hashAt p (L.chain a) (c.length + 2) ∧
    sideband.balanceOf e.block = e.balance ∧ sideband.height = BitVec.ofNat 64 (c.length + 1)

theorem Database.readsBack_of_new {L : Lattice p known} {db : Database}
    (h : ∀ a, SidebandUpgrade.NewChain db L a) : db.ReadsBack L := by
  intro a e c hat fuel s
  obtain ⟨v1, -, hget⟩ := (h a e c hat).blockGetV14 fuel s
  obtain ⟨amount, epoch, hx⟩ := Lattice.extends_at hat
  have hacc := hx.account
  have hne := hx.account_ne_zero
  have hopen := hx.open_first
  have hstated := hx.stated
  refine ⟨_, v1, hget, ?_, rfl, ?_, ?_⟩ <;> unfold Entry.type at * <;>
    cases hh : e.block.hashables <;>
    simp_all [SidebandV14.accountOf, SidebandV14.balanceOf, SidebandV14.overwrite,
      Lattice.sidebandAt, Hashables.account, Hashables.type, Hashables.statedBalance,
      BlockType.hasSidebandAccount, BlockType.hasSidebandBalance, BlockType.hasSidebandHeight]

namespace SidebandUpgrade

/-- A node that is started again has an end mark that fits. -/
def Marked (L : Lattice p known) (_ : SidebandUpgrade) : Action → Prop
  | .iterate => True
  | .restart _ notAnAccount => EndMark L notAnAccount

end SidebandUpgrade

/-- The upgrade of a database in which no state block has a successor: however often the node is
stopped and started again, the upgrade gets to its end, and there every block reads back. -/
theorem sideband_upgrade (H : HashAssumptions p known) {L : Lattice p known} {db : Database}
    (hdb : db.HoldsV12 L) (hsta : L.NoStateSuccessor)
    (hlast : L.chain (BitVec.allOnes 256) = []) {batchSize : BitVec 64}
    (hmark : SidebandUpgrade.EndMark L notAnAccount)
    (hrun : Reaches (SidebandUpgrade.Step p) (SidebandUpgrade.Marked L)
      (SidebandUpgrade.start batchSize notAnAccount db) s) :
    (s.position = .finished → s.db.ReadsBack L) ∧
      ∃ t, SidebandUpgrade.Runs p s t ∧ t.position = .finished ∧ t.db.ReadsBack L := by
  have hupgrading : db.Upgrading L := ⟨hdb.toCovers, fun hat => .inl (hdb.entry hat)⟩
  have hinv : s.Inv L := by
    refine hrun.invariant (I := SidebandUpgrade.Inv L)
      (SidebandUpgrade.inv_start hupgrading hmark batchSize) ?_
    intro s action t hs hok hstep
    refine SidebandUpgrade.inv_step H hsta hlast hs ?_ hstep
    rintro b n rfl
    exact hok
  have hback {t : SidebandUpgrade} (ht : t.Inv L) (hfin : t.position = .finished) :
      t.db.ReadsBack L := by
    have hdone := ht.position
    rw [hfin] at hdone
    exact Database.readsBack_of_new hdone.2
  obtain ⟨t, hst, hfin⟩ := SidebandUpgrade.exists_run_finished H hsta hlast hinv
  exact ⟨hback hinv, t, hst, hfin, hback (SidebandUpgrade.inv_runs H hsta hlast hinv hst) hfin⟩

/-! ## State blocks with a successor -/

def Chains.single (a : Account) (chain : List Entry) : Chains :=
  fun a' => if a' = a then chain else []

theorem Chains.at_single {a' : Account}
    (h : (Chains.single a chain).At a' e c) : a' = a ∧ e :: c <:+ chain := by
  unfold Chains.At Chains.single at h
  split at h
  · exact ⟨‹_›, h⟩
  · simp at h

/-- The lattice of one account that receives nothing. -/
def Lattice.single (a : Account) (chain : List Entry) (rank : BlockHash → Nat)
    (hkn : ∀ e ∈ chain, known e.block)
    (hextends : ∀ e c, e :: c <:+ chain → Extends p a c e 0 .epoch0 ∧ ∀ s, e.kind p c ≠ .receive s)
    (hrank : ∀ e x c, e :: x :: c <:+ chain → rank (x.hash p) < rank (e.hash p)) :
    Lattice p known where
  chain := Chains.single a chain
  rank := rank
  known_at hat := hkn _ ((Chains.at_single hat).2.subset mem_cons_self)
  valid hat := by
    obtain ⟨rfl, hsuf⟩ := Chains.at_single hat
    obtain ⟨hx, hk⟩ := hextends _ _ hsuf
    exact ⟨0, .epoch0, hx, fun s hs => absurd hs (hk s)⟩
  received_once hat _ hk _ := absurd hk ((hextends _ _ (Chains.at_single hat).2).2 _)
  rank_previous hat := hrank _ _ _ (Chains.at_single hat).2
  rank_source hat hk := absurd hk ((hextends _ _ (Chains.at_single hat).2).2 _)

namespace SidebandUpgrade

def rounds (p : Params) (fuel : Nat) : Nat → SidebandUpgrade → Option SidebandUpgrade
  | 0, s => some s
  | n + 1, s => (rounds p fuel n s).bind (iterate p fuel)

theorem runs_rounds (h : rounds p fuel n s = some t) : Runs p s t := by
  induction n generalizing t with
  | zero =>
    cases h
    exact .refl
  | succ n ih =>
    obtain ⟨r, hr, ht⟩ := bind_eq_some_iff.1 h
    exact (ih hr).tail rfl (.iterate fuel ht)

end SidebandUpgrade

namespace Sample

def stateA : Block := block (.stateBlock 1 (hash params.genesisBlock) 5 genesisAmount 0)

def stateB : Block := block (.stateBlock 1 (hash stateA) 6 genesisAmount 0)

def stateBlocks : List Block := [params.genesisBlock, stateA, stateB]

theorem stateAssumptions : HashAssumptions params (· ∈ stateBlocks) :=
  hashAssumptions_of_list (by decide +kernel) (by decide) (by decide +kernel)

def entry (b : Block) : Entry := ⟨b, genesisAmount, {}⟩

theorem extends_change {b : Block} {x : Entry}
    (hb : ∃ r, b = block (.stateBlock 1 (x.hash params) r genesisAmount 0))
    (hbal : x.balance = genesisAmount) (hep : x.details.epoch = .epoch0) :
    Extends params 1 (x :: c) (entry b) 0 .epoch0 ∧
      ∀ s, (entry b).kind params (x :: c) ≠ .receive s := by
  obtain ⟨r, rfl⟩ := hb
  have hk : (entry (block (.stateBlock 1 (x.hash params) r genesisAmount 0))).kind params (x :: c) =
      .neutral := by
    simp [Entry.kind, entry, block, Hashables.kind, chainBal, hbal]
  have hrcv (s : BlockHash) : (entry (block (.stateBlock 1 (x.hash params) r genesisAmount
      0))).kind params (x :: c) ≠ .receive s := by
    rw [hk]
    intro h
    cases h
  refine ⟨⟨by decide, rfl, by simp, by rintro ⟨⟩, fun _ => rfl, fun h => absurd rfl h, ?_, ?_,
    fun s h => absurd h (hrcv s), fun s h => absurd h (hrcv s), fun _ => hbal.symm, ?_, ?_⟩, hrcv⟩
  · rintro _ ⟨⟩
    rfl
  · rw [hk]
    rintro _ ⟨⟩
  · rw [hk]
    intro h
    cases h
  · have hinfo : params.epochInfo 0 = none := by decide
    unfold Entry.kind at hk
    simp only [entry, block] at hk ⊢
    simp only [chainDetails, hk, hinfo, chainEpoch, hep]

theorem extends_genesis : Extends params 1 [] (entry params.genesisBlock) 0 .epoch0 ∧
    ∀ s, (entry params.genesisBlock).kind params [] ≠ .receive s := by
  have hk : (entry params.genesisBlock).kind params [] = .genesis := by
    simp [Entry.kind, entry, Params.genesisBlock, Hashables.kind]
  have hstated : (entry params.genesisBlock).block.hashables.statedBalance = none := by
    simp only [entry, Params.genesisBlock, Hashables.statedBalance]
  refine ⟨⟨by decide, rfl, fun _ => .inl rfl, fun _ => rfl, fun _ => rfl, ?_, ?_, ?_, ?_, ?_, ?_,
    fun _ => ⟨rfl, rfl⟩, rfl⟩, ?_⟩
  · intro _ x hx
    cases hx
  all_goals simp [hk, hstated]

def stateChain : List Entry := [entry stateB, entry stateA, entry params.genesisBlock]

theorem stateExtends (h : e :: c <:+ stateChain) :
    Extends params 1 c e 0 .epoch0 ∧ ∀ s, e.kind params c ≠ .receive s := by
  simp only [stateChain, suffix_cons_iff, List.cons.injEq, suffix_nil, reduceCtorEq, or_false] at h
  rcases h with ⟨rfl, rfl⟩ | ⟨rfl, rfl⟩ | ⟨rfl, rfl⟩
  · exact extends_change ⟨6, rfl⟩ rfl rfl
  · exact extends_change ⟨5, rfl⟩ rfl rfl
  · exact extends_genesis

def stateRank (h : BlockHash) : Nat :=
  if h = hash stateB then 2 else if h = hash stateA then 1 else 0

def stateLattice (chain : List Entry) (h : chain <:+ stateChain) :
    Lattice params (· ∈ stateBlocks) :=
  Lattice.single 1 chain stateRank
    (fun e he => by
      have := h.subset he
      simp only [stateChain, mem_cons, not_mem_nil, or_false] at this
      rcases this with rfl | rfl | rfl <;> simp [stateBlocks, entry])
    (fun _ _ hsuf => stateExtends (hsuf.trans h))
    (fun e x c hsuf => by
      have hsuf := hsuf.trans h
      simp only [stateChain, suffix_cons_iff, List.cons.injEq, suffix_nil, reduceCtorEq,
        or_false, and_false] at hsuf
      rcases hsuf with ⟨rfl, rfl, -⟩ | ⟨rfl, rfl, -⟩ <;> decide +kernel)

def oldBlocks : List (Block × BlockHash) → Table (BlockType × BlockHash) Bytes
  | [] => ∅
  | (b, successor) :: rest =>
    (oldBlocks rest).insert (b.hashables.type, hash b) (b.serialize ++ u256.write successor)

variable {xs : List (Block × BlockHash)}

theorem exists_of_oldBlocks {k : BlockType × BlockHash} {value : Bytes}
    (h : (oldBlocks xs).lookup k = some value) : ∃ x ∈ xs, hash x.1 = k.2 := by
  induction xs with
  | nil => simp [oldBlocks] at h
  | cons x rest ih =>
    unfold oldBlocks at h
    rw [Finmap.lookup_insert_eq] at h
    split at h
    · rename_i hk
      exact ⟨x, mem_cons_self, by rw [hk]⟩
    · obtain ⟨y, hy, hhash⟩ := ih h
      exact ⟨y, mem_cons_of_mem x hy, hhash⟩

/-- A database of version 12 with all its state blocks in the table of epoch 0. -/
def oldDatabase (xs : List (Block × BlockHash)) : Database where
  version := 12
  accountsV0 := ⟨[(1, { openBlock := hash params.genesisBlock })], pairwise_singleton _ _⟩
  accountsV1 := .empty
  blocks := oldBlocks xs
  stateBlocksV1 := ∅
  blocksInfo := ∅
  frontiers := ∅

theorem holdsV12_of (hch : chain <:+ stateChain) (hne : chain ≠ [])
    (hxs : ∀ x ∈ xs, ∃ e c, e :: c <:+ chain ∧ e.block = x.1)
    (hent : ∀ e c, e :: c <:+ chain → (oldDatabase xs).blockRawGetV14 (e.hash params) = some
      ⟨e.type, e.block.serialize ++ u256.write (hashAt params chain (c.length + 2)), false⟩) :
    (oldDatabase xs).HoldsV12 (stateLattice chain hch) := by
  have hown : (stateLattice chain hch).chain 1 = chain := by
    simp only [stateLattice, Lattice.single, Chains.single, if_true]
  have hopen : chainOpen params chain = hash params.genesisBlock := by
    simp only [stateChain, suffix_cons_iff, suffix_nil, hne, or_false] at hch
    rcases hch with rfl | rfl | rfl <;> rfl
  refine ⟨⟨rfl, ?_, ?_, ?_, ?_⟩, ?_⟩
  · intro a info h
    have h : (a, info) ∈ [((1 : Account), ({ openBlock := hash params.genesisBlock } :
      AccountInfoV13))] := h.resolve_right not_mem_nil
    cases mem_singleton.1 h
    rw [hown]
    exact ⟨hne, hopen.symm⟩
  · intro a ha
    have h1 : a = 1 := by
      by_contra h1
      exact ha (if_neg h1)
    subst h1
    exact ⟨_, .inl (mem_singleton.2 rfl)⟩
  · intro h entry hraw
    have hget : ((oldDatabase xs).blockRawGet h).map (fun x => ⟨x.1, x.2, false⟩) = some entry := hraw
    obtain ⟨y, hy, -⟩ := map_eq_some_iff.1 hget
    obtain ⟨type, -, hlk⟩ := exists_of_findSome?_eq_some hy
    obtain ⟨value, hval, -⟩ := map_eq_some_iff.1 hlk
    obtain ⟨x, hx, rfl⟩ := exists_of_oldBlocks hval
    obtain ⟨e, c, hsuf, hblk⟩ := hxs x hx
    have hat : e :: c <:+ (stateLattice chain hch).chain 1 := by rwa [hown]
    exact ⟨1, e, c, hat, congrArg hash hblk⟩
  · intro a e c hat info hinfo
    simp [oldDatabase] at hinfo
  · intro a e c hat
    obtain ⟨rfl, hsuf⟩ := Chains.at_single hat
    refine ⟨false, ?_⟩
    rw [hent e c hsuf, Lattice.successor, hown]

theorem holdsV12_one : (oldDatabase [(params.genesisBlock, hash stateA), (stateA, 0)]).HoldsV12
    (stateLattice [entry stateA, entry params.genesisBlock] (suffix_cons _ _)) := by
  refine holdsV12_of _ (by simp) ?_ ?_
  · intro x hx
    simp only [mem_cons, not_mem_nil, or_false] at hx
    rcases hx with rfl | rfl
    · exact ⟨entry params.genesisBlock, [], suffix_cons _ _, rfl⟩
    · exact ⟨entry stateA, _, suffix_refl _, rfl⟩
  · intro e c h
    simp only [suffix_cons_iff, List.cons.injEq, suffix_nil, reduceCtorEq, or_false] at h
    rcases h with ⟨rfl, rfl⟩ | ⟨rfl, rfl⟩ <;> decide +kernel

/-- The blocks of the chain with their successors. -/
def stateEntries : List (Block × BlockHash) :=
  [(params.genesisBlock, hash stateA), (stateA, hash stateB), (stateB, 0)]

theorem holdsV12_two : (oldDatabase stateEntries).HoldsV12 (stateLattice stateChain (suffix_refl _)) := by
  refine holdsV12_of _ (by simp [stateChain]) ?_ ?_
  · intro x hx
    simp only [stateEntries, mem_cons, not_mem_nil, or_false] at hx
    rcases hx with rfl | rfl | rfl
    · exact ⟨entry params.genesisBlock, [], ⟨[entry stateB, entry stateA], rfl⟩, rfl⟩
    · exact ⟨entry stateA, [entry params.genesisBlock], suffix_cons _ _, rfl⟩
    · exact ⟨entry stateB, _, suffix_refl _, rfl⟩
  · intro e c h
    simp only [stateChain, suffix_cons_iff, List.cons.injEq, suffix_nil, reduceCtorEq,
      or_false] at h
    rcases h with ⟨rfl, rfl⟩ | ⟨rfl, rfl⟩ | ⟨rfl, rfl⟩ <;> decide +kernel

theorem endMark_nine (h : chain <:+ stateChain) :
    SidebandUpgrade.EndMark (stateLattice chain h) 9 := by
  refine ⟨by decide, fun a _ _ => ?_⟩
  simp only [stateLattice, Lattice.single, Chains.single]
  exact if_neg (by decide)

theorem stateLattice_last (h : chain <:+ stateChain) :
    (stateLattice chain h).chain (BitVec.allOnes 256) = [] := by
  simp only [stateLattice, Lattice.single, Chains.single]
  exact if_neg (by decide)

end Sample

open Sample

/-- The upgrade of a chain of a legacy block and a state block. -/
theorem sideband_upgrade_one : ∃ t, SidebandUpgrade.Runs params
    (.start 50 9 (oldDatabase [(params.genesisBlock, Sample.hash stateA),
      (stateA, 0)])) t ∧ t.position = .finished ∧
    t.db.ReadsBack (stateLattice
      [entry stateA, entry params.genesisBlock] (suffix_cons _ _)) := by
  refine (sideband_upgrade stateAssumptions holdsV12_one ?_
    (stateLattice_last _) (endMark_nine _) .refl).2
  intro a e x c hat
  obtain ⟨rfl, hsuf⟩ := Chains.at_single hat
  simp only [suffix_cons_iff, List.cons.injEq, suffix_nil, reduceCtorEq, or_false,
    and_false] at hsuf
  obtain ⟨rfl, rfl, rfl⟩ := hsuf
  decide

/-- Two state blocks in a row: the upgrade finishes, and the first of them has another successor. -/
theorem sideband_upgrade_fails : ∃ t, SidebandUpgrade.Runs params
    (.start 50 9 (oldDatabase stateEntries)) t ∧
    t.position = .finished ∧
    (oldDatabase stateEntries).HoldsV12
      (stateLattice stateChain (suffix_refl _)) ∧
    ¬ t.db.ReadsBack (stateLattice stateChain (suffix_refl _)) := by
  have hrun : (SidebandUpgrade.rounds params 20 7 (.start 50 9 (oldDatabase stateEntries))).any fun t =>
      t.position = .finished ∧
        (t.db.blockGetV14 params 0 (Sample.hash stateA) {}).any fun r =>
          r.2.1.successor ≠ Sample.hash stateB := by
    decide +kernel
  obtain ⟨t, ht, hend⟩ := (Option.any_eq_true _ _).1 hrun
  obtain ⟨hfin, hread⟩ := of_decide_eq_true hend
  refine ⟨t, SidebandUpgrade.runs_rounds ht, hfin, holdsV12_two, fun hback => ?_⟩
  have hat : (stateLattice stateChain (suffix_refl _)).At 1
      (entry stateA) [entry params.genesisBlock] :=
    suffix_cons _ _
  obtain ⟨sideband, v1, hget, -, hsucc, -⟩ := hback _ _ _ hat 0 {}
  have hgot : t.db.blockGetV14 params 0 (Sample.hash stateA) {} =
      some (some stateA, sideband, v1) := hget
  rw [hgot] at hread
  exact of_decide_eq_true hread hsucc

end Futurehead
