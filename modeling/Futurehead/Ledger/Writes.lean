import Futurehead.Ledger.System

/-!
# What processing writes

The lattice says what processing does to a ledger that holds one. This file says what it does to the
block, account and frontier tables of any ledger, so also after a foreign epoch block.
-/

namespace Futurehead

open Option Finmap Ledger

variable {account a : Account} {link : Link} {stored : StoredBlock} {head : BlockHash}
  {new old info info' : AccountInfo} {sideband : Sideband} {p : Params} {b : Block}

def Ledger.block? (l : Ledger) (k : BlockType × BlockHash) : Option Block :=
  (l.blocks.lookup k).map (·.block)

/-- The block `b` of account `a` is accepted and takes `l` to `l'`. -/
structure Writes (p : Params) (l : Ledger) (b : Block) (a : Account) (l' : Ledger) : Prop where
  fresh : l.block? (b.hashables.type, p.hash b) = none
  /-- A legacy block stands on a stored block that is a frontier. -/
  legacy : b.hashables.type ≠ BlockType.open → b.hashables.type ≠ .state →
    l.blockExists b.hashables.previous ∧ l.frontiers.lookup b.hashables.previous = some a
  /-- A state block stands on the head of its account, if the account is open. -/
  state : b.hashables.type = .state →
    b.hashables.account = a ∧ ∀ info, l.accountGet a = some info → info.head = b.hashables.previous
  blocks : ∀ k, l'.block? k = if k = (b.hashables.type, p.hash b) then some b else l.block? k
  accounts : ∃ info : AccountInfo, info.head = p.hash b ∧
    ∀ x, l'.accountGet x = if x = a then some info else l.accountGet x
  frontiers : ∀ {h x}, l'.frontiers.lookup h = some x →
    (b.hashables.type ≠ .state ∧ h = p.hash b ∧ x = a) ∨ l.frontiers.lookup h = some x ∧
      (b.hashables.type ≠ BlockType.open → b.hashables.type ≠ .state → h ≠ b.hashables.previous)

/-! ## The parts of a commit -/

structure SameTables (l l' : Ledger) : Prop where
  blocks : l'.blocks = l.blocks
  accounts : l'.accounts = l.accounts
  frontiers : l'.frontiers = l.frontiers

section

variable {l l' : Ledger}

variable {hash : BlockHash} {l1 l2 l3 : Ledger}

theorem SameTables.trans (h : SameTables l1 l2) (h' : SameTables l2 l3) : SameTables l1 l3 :=
  ⟨h'.blocks.trans h.blocks, h'.accounts.trans h.accounts, h'.frontiers.trans h.frontiers⟩

theorem representationAdd_same (rep : Account) (x : Amount) :
    SameTables l (l.representationAdd rep x) := ⟨rfl, rfl, rfl⟩

theorem pendingPut_same (key : PendingKey) (info : PendingInfo) :
    SameTables l (l.pendingPut key info) := ⟨rfl, rfl, rfl⟩

theorem pendingDel_same {key : PendingKey} (h : l.pendingDel key = some l') : SameTables l l' := by
  unfold pendingDel at h
  split at h <;> cases h
  exact ⟨rfl, rfl, rfl⟩

theorem stateWeight_same (info : AccountInfo) (representative : Account) (balance : Amount) :
    SameTables l (l.stateWeight info representative balance) := by
  unfold stateWeight
  dsimp only
  split <;> exact ⟨rfl, rfl, rfl⟩

theorem statePending_same {amt : Amount}
    {det : BlockDetails} (h : l.statePending hash account link amt det = some l') :
    SameTables l l' := by
  unfold statePending at h
  split at h
  · cases h
    exact pendingPut_same _ _
  · split at h
    · exact pendingDel_same h
    · cases h
      exact ⟨rfl, rfl, rfl⟩

theorem lookup_of_blockRawGet {type : BlockType}
    (h : l.blockRawGet hash = some (type, stored)) :
    l.blocks.lookup (type, hash) = some stored := by
  unfold Ledger.blockRawGet at h
  obtain ⟨type', -, htype⟩ := List.exists_of_findSome?_eq_some h
  obtain ⟨stored', hlk, heq⟩ := map_eq_some_iff.1 htype
  obtain ⟨rfl, rfl⟩ := Prod.mk.inj heq
  exact hlk

theorem blockSuccessorSet_writes {successor : BlockHash}
    (h : l.blockSuccessorSet hash successor = some l') :
    (∀ k, l'.block? k = l.block? k) ∧ l'.accounts = l.accounts ∧ l'.frontiers = l.frontiers := by
  obtain ⟨⟨type, stored⟩, hget, rfl⟩ := map_eq_some_iff.1 h
  refine ⟨fun k => ?_, rfl, rfl⟩
  have hlk := lookup_of_blockRawGet hget
  unfold Ledger.block?
  dsimp only
  rw [Finmap.lookup_insert_eq]
  split
  · rename_i hk
    rw [hk, hlk]
    rfl
  · rfl

theorem block?_insert (l : Ledger) (k : BlockType × BlockHash) (stored : StoredBlock)
    (k' : BlockType × BlockHash) : Ledger.block? { l with blocks := l.blocks.insert k stored } k' =
      if k' = k then some stored.block else l.block? k' := by
  unfold Ledger.block?
  dsimp only
  rw [Finmap.lookup_insert_eq]
  split <;> rfl

theorem blockPut_writes (h : l.blockPut hash b sideband = some l') :
    (∀ k, l'.block? k = if k = (b.hashables.type, hash) then some b else l.block? k) ∧
      l'.accounts = l.accounts ∧ l'.frontiers = l.frontiers := by
  have hput := block?_insert l (b.hashables.type, hash) ⟨b, sideband.stored b.hashables.type⟩
  unfold Ledger.blockPut at h
  dsimp only at h
  split at h
  · cases h
    exact ⟨hput, rfl, rfl⟩
  · split at h
    · cases h
      exact ⟨hput, rfl, rfl⟩
    · obtain ⟨hbs, haccs, hfrs⟩ := blockSuccessorSet_writes h
      exact ⟨fun k => (hbs k).trans (hput k), haccs, hfrs⟩
  · obtain ⟨hbs, haccs, hfrs⟩ := blockSuccessorSet_writes h
    exact ⟨fun k => (hbs k).trans (hput k), haccs, hfrs⟩

theorem accountDel_writes (h : l.accountDel a = some l') :
    (∀ x, x ≠ a → l'.accounts.lookup x = l.accounts.lookup x) ∧ l'.blocks = l.blocks ∧
      l'.frontiers = l.frontiers := by
  unfold accountDel at h
  split at h <;> cases h
  exact ⟨fun x hx => lookup_erase_ne hx, rfl, rfl⟩

theorem accountPut_writes (l : Ledger) (a x : Account) (info : AccountInfo) :
    (l.accountPut a info).accountGet x = if x = a then some info else l.accountGet x := by
  unfold Ledger.accountGet accountPut
  dsimp only
  rw [Finmap.lookup_insert_eq]

theorem changeLatest_writes (hnew : new.head ≠ 0) (h : l.changeLatest a old new = some l') :
    (∀ x, l'.accountGet x = if x = a then some new else l.accountGet x) ∧
      l'.blocks = l.blocks ∧ l'.frontiers = l.frontiers := by
  unfold changeLatest at h
  rw [if_pos hnew] at h
  dsimp only at h
  generalize hopen : (if old.head = 0 ∧ new.openBlock = new.head then _ else l) = l0 at h
  have hsame : SameTables l l0 := by
    rw [← hopen]
    split <;> exact ⟨rfl, rfl, rfl⟩
  split at h
  · obtain ⟨l1, hdel, h⟩ := bind_eq_some_iff.1 h
    cases h
    obtain ⟨haccs, hbs, hfrs⟩ := accountDel_writes hdel
    refine ⟨fun x => ?_, hbs.trans hsame.blocks, hfrs.trans hsame.frontiers⟩
    rw [accountPut_writes]
    split
    · rfl
    · rename_i hx
      exact (haccs x hx).trans (congrArg (Finmap.lookup x) hsame.accounts)
  · cases h
    refine ⟨fun x => ?_, hsame.blocks, hsame.frontiers⟩
    rw [accountPut_writes]
    exact congrArg (fun t => if x = a then _ else Finmap.lookup x t) hsame.accounts

theorem frontierDel_writes (h : l.frontierDel hash = some l') :
    (∀ {x a}, l'.frontiers.lookup x = some a → l.frontiers.lookup x = some a ∧ x ≠ hash) ∧
      l'.blocks = l.blocks ∧ l'.accounts = l.accounts := by
  unfold frontierDel at h
  split at h <;> cases h
  refine ⟨fun {x a} hx => ?_, rfl, rfl⟩
  rw [Finmap.lookup_erase_eq] at hx
  split at hx
  · cases hx
  · rename_i hne
    exact ⟨hx, hne⟩

theorem stateFrontier_writes (h : l.stateFrontier head = some l') :
    (∀ {x a}, l'.frontiers.lookup x = some a → l.frontiers.lookup x = some a) ∧
      l'.blocks = l.blocks ∧ l'.accounts = l.accounts := by
  unfold stateFrontier at h
  split at h
  · obtain ⟨hfrs, hrest⟩ := frontierDel_writes h
    exact ⟨fun hx => (hfrs hx).1, hrest⟩
  · cases h
    exact ⟨id, rfl, rfl⟩

theorem lookup_frontierPut {x : BlockHash} {y : Account}
    (h : (l.frontierPut hash a).frontiers.lookup x = some y) :
    x = hash ∧ y = a ∨ l.frontiers.lookup x = some y := by
  unfold frontierPut at h
  rw [Finmap.lookup_insert_eq] at h
  split at h
  · rename_i hx
    cases h
    exact .inl ⟨hx, rfl⟩
  · exact .inr h

theorem lookup_of_frontierGet (h : l.frontierGet hash ≠ 0) :
    l.frontiers.lookup hash = some (l.frontierGet hash) := by
  unfold Ledger.frontierGet at h ⊢
  cases hlk : l.frontiers.lookup hash with
  | none => rw [hlk] at h; exact absurd rfl h
  | some a => rfl

theorem putLatest_writes {l0 : Ledger} (h0 : SameTables l l0)
    (hput : l0.blockPut hash b sideband = some l1) (h1 : SameTables l1 l2) (hnew : new.head ≠ 0)
    (hlat : l2.changeLatest a old new = some l3) :
    (∀ k, l3.block? k = if k = (b.hashables.type, hash) then some b else l.block? k) ∧
      (∀ x, l3.accountGet x = if x = a then some new else l.accountGet x) ∧
      l3.frontiers = l.frontiers := by
  obtain ⟨hb, ha, hf⟩ := blockPut_writes hput
  obtain ⟨ha', hb', hf'⟩ := changeLatest_writes hnew hlat
  refine ⟨fun k => ?_, fun x => ?_, ?_⟩
  · unfold Ledger.block? at hb ⊢
    rw [hb', h1.blocks, hb k, h0.blocks]
  · unfold Ledger.accountGet at ha' ⊢
    rw [ha' x, h1.accounts, ha, h0.accounts]
  · rw [hf', h1.frontiers, hf, h0.frontiers]

end

/-! ## The commits -/

section

variable {l : Ledger} {tag : SignatureVerification} {x : Processed}
  {representative : Account} {previous : BlockHash} {balance : Amount}

theorem block?_eq_none (h : l.blockExistsType b.hashables.type (p.hash b) = false) :
    l.block? (b.hashables.type, p.hash b) = none := by
  unfold blockExistsType at h
  rw [Ledger.block?, isSome_eq_false_iff.1 h |> isNone_iff_eq_none.1]
  rfl

theorem OnFrontier.writes {l3 l4 l5 : Ledger} (place : OnFrontier p l b tag)
    (hhead : new.head = p.hash b)
    (h3 : (∀ k, l3.block? k = if k = (b.hashables.type, p.hash b) then some b else l.block? k) ∧
      (∀ x, l3.accountGet x = if x = l.frontierGet b.hashables.previous then some new
        else l.accountGet x) ∧ l3.frontiers = l.frontiers)
    (h4 : SameTables l3 l4) (hdel : l4.frontierDel b.hashables.previous = some l5) :
    Writes p l b (l.home b) (l5.frontierPut (p.hash b) (l.frontierGet b.hashables.previous)) := by
  obtain ⟨hbs, haccs, hfrs⟩ := h3
  obtain ⟨hf, hb, ha⟩ := frontierDel_writes hdel
  obtain ⟨prev, hget, -⟩ := place.below
  rw [place.home]
  refine ⟨block?_eq_none place.fresh,
    fun _ _ => ⟨blockExists_of_blockGet hget, lookup_of_frontierGet place.frontier⟩,
    fun h => absurd h place.legacy.2, fun k => ?_, ⟨new, hhead, fun x => ?_⟩, fun {h y} hlk => ?_⟩
  · unfold Ledger.block? frontierPut at *
    dsimp only at *
    rw [hb, h4.blocks, hbs k]
  · unfold Ledger.accountGet frontierPut at *
    dsimp only at *
    rw [ha, h4.accounts, haccs x]
  · rcases lookup_frontierPut hlk with hnew | hlk
    · exact .inl ⟨place.legacy.2, hnew⟩
    · obtain ⟨hlk, hne⟩ := hf hlk
      rw [h4.frontiers, hfrs] at hlk
      exact .inr ⟨hlk, fun _ _ => hne⟩

theorem writes_state (hne : p.hash b ≠ 0)
    (hb : b.hashables = .stateBlock account previous representative balance link)
    (hfresh : l.blockExistsType b.hashables.type (p.hash b) = false)
    {l1 l2 l3 l' : Ledger}
    (hprev : ∀ info, l.accountGet account = some info → info.head = previous)
    (hput : l.blockPut (p.hash b) b sideband = some l1) (h1 : SameTables l1 l2)
    (hhead : new.head = p.hash b) (hlat : l2.changeLatest account old new = some l3)
    (hfro : l3.stateFrontier head = some l') : Writes p l b (l.home b) l' := by
  have ht : b.hashables.type = .state := by rw [hb]; rfl
  obtain ⟨hbs, haccs, hfrs⟩ :=
    putLatest_writes ⟨rfl, rfl, rfl⟩ hput h1 (hhead ▸ hne) hlat
  obtain ⟨hf, hb', ha'⟩ := stateFrontier_writes hfro
  rw [home_state hb]
  refine ⟨block?_eq_none hfresh, fun _ hs => absurd ht hs, fun _ => ⟨by rw [hb]; rfl, ?_⟩,
    fun k => ?_, ⟨new, hhead, fun x => ?_⟩, fun hlk => .inr ⟨hfrs ▸ hf hlk, fun _ hs => ?_⟩⟩
  · rw [hb]
    exact hprev
  · unfold Ledger.block? at *
    rw [hb', hbs k]
  · unfold Ledger.accountGet at *
    rw [ha', haccs x]
  · exact absurd ht hs

theorem StatePlace.head_eq (h : StatePlace l account previous link info)
    (hinfo : l.accountGet account = some info') : info'.head = previous := by
  cases h with
  | opened get _ _ head => cases get.symm.trans hinfo; exact head.symm
  | unopened get => cases get.symm.trans hinfo

theorem EpochPlace.head_eq {epoch : Epoch}
    (h : EpochPlace l account previous representative epoch info)
    (hinfo : l.accountGet account = some info') : info'.head = previous := by
  cases h with
  | opened get _ head => cases get.symm.trans hinfo; exact head.symm
  | unopened get => cases get.symm.trans hinfo

theorem Passed.writes (hne : p.hash b ≠ 0) (h : Passed p l b tag x) :
    Returns x fun _ l' => Writes p l b (l.home b) l' := by
  cases h with
  | @send previous _ _ hb place =>
    obtain rfl : b.hashables.previous = previous := by rw [hb]; rfl
    refine .bind fun l1 hput => .bind fun l3 hlat => .bind fun l5 hdel => .some ?_
    exact place.writes rfl (putLatest_writes (representationAdd_same _ _) hput ⟨rfl, rfl, rfl⟩ hne
      hlat) (pendingPut_same _ _) hdel
  | @change previous _ hb place =>
    obtain rfl : b.hashables.previous = previous := by rw [hb]; rfl
    refine .bind fun l1 hput => .bind fun _ _ => .bind fun l3 hlat => .bind fun l5 hdel =>
      .some ?_
    exact place.writes rfl (putLatest_writes ⟨rfl, rfl, rfl⟩ hput ((representationAdd_same _ _).trans
      (representationAdd_same _ _)) hne hlat) ⟨rfl, rfl, rfl⟩ hdel
  | @receive previous _ _ hb place =>
    obtain rfl : b.hashables.previous = previous := by rw [hb]; rfl
    refine .bind fun l0 hpnd => .bind fun l1 hput => .bind fun l3 hlat =>
      .bind fun l5 hdel => .some ?_
    exact place.writes rfl (putLatest_writes (pendingDel_same hpnd) hput ⟨rfl, rfl, rfl⟩ hne
      hlat) (representationAdd_same _ _) hdel
  | opens hb fresh =>
    have ht : b.hashables.type = BlockType.open := by rw [hb]; rfl
    have hsta : b.hashables.type ≠ .state := by rw [ht]; decide
    refine .bind fun l0 hpnd => .bind fun l1 hput => .bind fun l3 hlat => .some ?_
    obtain ⟨hbs, haccs, hfrs⟩ :=
      putLatest_writes (pendingDel_same hpnd) hput ⟨rfl, rfl, rfl⟩ hne hlat
    rw [home_open hb]
    refine ⟨block?_eq_none fresh, fun hopen => absurd ht hopen, fun hs => absurd hs hsta, hbs,
      ⟨_, rfl, haccs⟩, fun hlk => ?_⟩
    refine (lookup_frontierPut hlk).imp (fun hnew => ⟨hsta, hnew⟩) fun hold => ?_
    exact ⟨hfrs ▸ hold, fun hopen => absurd ht hopen⟩
  | state hb fresh _ _ _ place =>
    refine .bind fun l1 hput => .bind fun l2 hpnd => .bind fun l3 hlat =>
      .bind fun l' hfro => .some ?_
    exact writes_state hne hb fresh (fun _ => place.head_eq) hput
      ((stateWeight_same _ _ _).trans (statePending_same hpnd)) rfl hlat hfro
  | epoch hb fresh _ _ _ _ _ _ place =>
    refine .bind fun l1 hput => .bind fun l3 hlat => .bind fun l' hfro => .some ?_
    have hwrites := writes_state hne hb fresh (fun _ => place.head_eq) hput ⟨rfl, rfl, rfl⟩ rfl
      hlat hfro
    split
    · exact ⟨hwrites.fresh, hwrites.legacy, hwrites.state, hwrites.blocks, hwrites.accounts,
        hwrites.frontiers⟩
    · exact hwrites

theorem process_writes (hne : p.hash b ≠ 0) (tag : SignatureVerification) :
    Returns (l.process p b tag) fun r l' =>
      (Rejected p l b tag r ∧ l' = l) ∨ Accepted p l b tag r ∧ Writes p l b (l.home b) l' := by
  refine .bind fun ⟨r, l'⟩ hvis => ?_
  have hwrote : (Rejected p l b tag r ∧ l' = l) ∨
      Accepted p l b tag r ∧ Writes p l b (l.home b) l' := by
    revert r l'
    refine Returns.visit (fun r hr => .inl ⟨hr, rfl⟩) fun x hx r l' heq => .inr ?_
    exact ⟨hx.accepted r l' heq, hx.writes hne r l' heq⟩
  dsimp only
  split
  · rename_i hcode
    rcases hwrote with ⟨hr, -⟩ | ⟨hr, hw⟩
    · exact absurd hcode hr.code
    · exact .some (.inr ⟨hr, hw.fresh, hw.legacy, hw.state, hw.blocks, hw.accounts, hw.frontiers⟩)
  · exact .some hwrote

end

/-! ## Ledgers that only grow -/

def Action.Forward : Action → Prop
  | .rollback _ => False
  | _ => True

theorem blockExists_iff_block? (l : Ledger) (h : BlockHash) :
    l.blockExists h ↔ ∃ type b, l.block? (type, h) = some b := by
  unfold Ledger.blockExists blockExistsType Ledger.block?
  simp only [Bool.or_eq_true, isSome_iff_exists, map_eq_some_iff]
  constructor
  · rintro ((((⟨b, hb⟩ | ⟨b, hb⟩) | ⟨b, hb⟩) | ⟨b, hb⟩) | ⟨b, hb⟩) <;> exact ⟨_, _, b, hb, rfl⟩
  · rintro ⟨type, -, b, hb, -⟩
    cases type <;> simp [hb]

theorem block?_of_blockGet {l : Ledger} {h : BlockHash}
    (hget : l.blockGet h = some stored) : ∃ type, l.block? (type, h) = some stored.block := by
  obtain ⟨⟨type, b⟩, hraw, rfl⟩ := map_eq_some_iff.1 hget
  exact ⟨type, by rw [Ledger.block?, lookup_of_blockRawGet hraw]; rfl⟩

/-- Blocks are stored under their hashes, heads are stored, and a legacy block has taken the place
of the frontier that it stands on. -/
structure Filed (p : Params) (known : Block → Prop) (l : Ledger) : Prop where
  stored : ∀ {k b}, l.block? k = some b → known b ∧ k = (b.hashables.type, p.hash b)
  head : ∀ {a info}, l.accountGet a = some info → l.blockExists info.head
  previous : ∀ {k b}, l.block? k = some b → b.hashables.type ≠ BlockType.open →
    b.hashables.type ≠ .state →
      l.blockExists b.hashables.previous ∧ b.hashables.previous ∉ l.frontiers

section

variable {known : Block → Prop} (H : HashAssumptions p known) {l l' : Ledger}

theorem SameTables.block? (h : SameTables l l') (k : BlockType × BlockHash) :
    l'.block? k = l.block? k := by
  unfold Ledger.block?
  rw [h.blocks]

theorem SameTables.accountGet (h : SameTables l l') (x : Account) :
    l'.accountGet x = l.accountGet x := congrArg (Finmap.lookup x) h.accounts

theorem SameTables.blockExists (h : SameTables l l') (hash : BlockHash) :
    l'.blockExists hash = l.blockExists hash := by
  rw [Bool.eq_iff_iff, blockExists_iff_block?, blockExists_iff_block?]
  simp only [h.block?]

theorem Writes.blockExists_iff (h : Writes p l b a l') (hash : BlockHash) :
    l'.blockExists hash ↔ hash = p.hash b ∨ l.blockExists hash := by
  rw [blockExists_iff_block?, blockExists_iff_block?]
  simp only [h.blocks, Prod.mk.injEq]
  constructor
  · rintro ⟨type, b', hb'⟩
    split at hb'
    · rename_i heq
      exact .inl heq.2
    · exact .inr ⟨type, b', hb'⟩
  · rintro (rfl | ⟨type, b', hb'⟩)
    · exact ⟨_, b, if_pos ⟨rfl, rfl⟩⟩
    · by_cases heq : type = b.hashables.type ∧ hash = p.hash b
      · exact ⟨type, b, if_pos heq⟩
      · exact ⟨type, b', (if_neg heq).trans hb'⟩

include H in
theorem Writes.not_stored (h : Writes p l b a l') (hl : Filed p known l) (hkn : known b) :
    l.blockExists (p.hash b) = false := by
  by_contra hex
  obtain ⟨type, b', hb'⟩ := (blockExists_iff_block? l _).1 (Bool.eq_true_of_not_eq_false hex)
  obtain ⟨hkn', hk⟩ := hl.stored hb'
  obtain ⟨rfl, hhash⟩ := Prod.mk.inj hk
  have hin := H.collisionFree hkn hkn' hhash
  have hprev := Hashables.hashInput_previous hin
  have hdouble (hb : b.hashables.type = .receive ∨ b.hashables.type = .change)
      (ht : b'.hashables.type = .receive ∨ b'.hashables.type = .change) : False := by
    have hfro := (h.legacy (by rcases hb with hb | hb <;> rw [hb] <;> decide)
      (by rcases hb with hb | hb <;> rw [hb] <;> decide)).2
    have hgone := (hl.previous hb' (by rcases ht with ht | ht <;> rw [ht] <;> decide)
      (by rcases ht with ht | ht <;> rw [ht] <;> decide)).2
    exact hgone (hprev ▸ mem_of_lookup_eq_some hfro)
  rcases Hashables.hashInput_eq hin with heq | ⟨hb, ht⟩ | ⟨hb, ht⟩
  · have hfresh := h.fresh
    rw [heq, hb'] at hfresh
    cases hfresh
  · exact hdouble (.inl hb) (.inr ht)
  · exact hdouble (.inr hb) (.inl ht)

theorem Filed.same (h : Filed p known l) (hs : SameTables l l') : Filed p known l' where
  stored hb := h.stored (hs.block? _ ▸ hb)
  head ha := by rw [hs.blockExists]; exact h.head (hs.accountGet _ ▸ ha)
  previous hb ho ht := by
    rw [hs.blockExists, hs.frontiers]
    exact h.previous (hs.block? _ ▸ hb) ho ht

include H

theorem Filed.writes (h : Filed p known l) (hw : Writes p l b a l') (hkn : known b) :
    Filed p known l' := by
  have hnew := hw.not_stored H h hkn
  have hne {x : BlockHash} (hx : l.blockExists x) : x ≠ p.hash b := fun heq => by
    rw [heq, hnew] at hx
    cases hx
  refine ⟨fun {k b'} hb' => ?_, fun {x info} hinfo => ?_, fun {k b'} hb' ho ht => ?_⟩
  · rw [hw.blocks] at hb'
    split at hb'
    · rename_i hk
      cases hb'
      exact ⟨hkn, hk⟩
    · exact h.stored hb'
  · obtain ⟨new, hhead, haccs⟩ := hw.accounts
    rw [hw.blockExists_iff]
    rw [haccs] at hinfo
    split at hinfo
    · cases hinfo
      exact .inl hhead
    · exact .inr (h.head hinfo)
  · rw [hw.blockExists_iff]
    -- what a legacy block stands on was stored before, so it is not the new frontier
    have hold : l.blockExists b'.hashables.previous ∧
        (b'.hashables.previous ∈ l.frontiers → b' = b) := by
      rw [hw.blocks] at hb'
      split at hb'
      · cases hb'
        exact ⟨(hw.legacy ho ht).1, fun _ => rfl⟩
      · obtain ⟨hst, hgone⟩ := h.previous hb' ho ht
        exact ⟨hst, fun hmem => absurd hmem hgone⟩
    refine ⟨.inr hold.1, fun hmem => ?_⟩
    obtain ⟨y, hy⟩ := mem_iff.1 hmem
    rcases hw.frontiers hy with ⟨-, heq, -⟩ | ⟨hlk, hne'⟩
    · exact hne hold.1 heq
    · obtain rfl := hold.2 (mem_of_lookup_eq_some hlk)
      exact hne' ho ht rfl

theorem forward_cases {action : Action} (hgiv : action.Given known) (hforward : action.Forward)
    (hstep : Step p l action l') : SameTables l l' ∨ ∃ b a, known b ∧ Writes p l b a l' := by
  obtain ⟨fuel, hexec⟩ := hstep
  cases action with
  | process b verification =>
    obtain ⟨⟨r, l1⟩, hproc, rfl⟩ := map_eq_some_iff.1 hexec
    rcases process_writes (H.ne_zero hgiv) verification r l1 hproc with ⟨-, rfl⟩ | ⟨-, hw⟩
    · exact .inl ⟨rfl, rfl, rfl⟩
    · exact .inr ⟨b, _, hgiv, hw⟩
  | rollback hash => exact hforward.elim
  | cement account info =>
    obtain ⟨old, -, hexec⟩ := bind_eq_some_iff.1 hexec
    obtain ⟨accountInfo, -, hexec⟩ := bind_eq_some_iff.1 hexec
    split at hexec <;> cases hexec
    exact .inl ⟨rfl, rfl, rfl⟩

theorem Represents.filed {L : Lattice p known} {shift : Account → Amount} (h : Represents l L shift) :
    Filed p known l := by
  have hat {k : BlockType × BlockHash} {b : Block} (hb : l.block? k = some b) :
      ∃ a e c, L.At a e c ∧ e.block = b ∧ k = e.key p := by
    obtain ⟨stored, hlk, rfl⟩ := map_eq_some_iff.1 hb
    obtain ⟨a, e, c, hat, rfl⟩ := h.blocks.only hlk
    rw [h.blocks.stored hat] at hlk
    cases hlk
    exact ⟨a, e, c, hat, rfl, rfl⟩
  refine ⟨fun hb => ?_, fun {a info} hinfo => ?_, fun hb ho ht => ?_⟩
  · obtain ⟨a, e, c, hat, rfl, rfl⟩ := hat hb
    exact ⟨L.known_at hat, rfl⟩
  · obtain ⟨hne, rfl⟩ := accountGet_some h.accounts hinfo
    obtain ⟨e, c, hc⟩ := List.exists_cons_of_ne_nil hne
    rw [hc]
    exact blockExists_at H h.blocks (Chains.at_head hc)
  · obtain ⟨a, e, c, hat, rfl, -⟩ := hat hb
    obtain ⟨_, _, hx⟩ := Lattice.extends_at hat
    obtain ⟨x, c, rfl, -⟩ := hx.exists_below ho ht
    rw [hx.previous]
    refine ⟨blockExists_at H h.blocks hat.below, fun hmem => ?_⟩
    obtain ⟨y, hlk⟩ := mem_iff.1 hmem
    obtain ⟨-, hhead⟩ := (h.frontiers _ _).1 hlk
    obtain ⟨rfl, hch⟩ := eq_head_of_hash H hat.below hhead.symm
    rw [Lattice.At, hch] at hat
    exact Chains.Grows.not_at_self _ hat

theorem Reached.filed (hl : Reached p known (NoForeignEpoch p) l ∨
    Reached p known (fun _ action => action.Forward) l) : Filed p known l := by
  rcases hl with hl | ⟨l0, hgen, hrun⟩
  · obtain ⟨L, h⟩ := hl.holds H
    exact h.represents.filed H
  · refine hrun.invariant ((genesis_holds H hgen).represents.filed H) ?_
    rintro l action l' h ⟨hgiv, hforward⟩ hstep
    rcases forward_cases H hgiv hforward hstep with hs | ⟨b, a, hkn, hw⟩
    · exact h.same hs
    · exact h.writes H hw hkn

end

end Futurehead
