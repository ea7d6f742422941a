import Futurehead.Processing.Gaps

/-!
# Blocks in any order

A set of blocks that the ledger accepts in some order is given to `process_one` in any order. Blocks
that miss something wait in the unchecked table and are queued again when it arrives.
-/

namespace Futurehead

open List Option

/-! ## Blocks that are accepted in order -/

instance (p : Params) (l : Ledger) (b : Block) : Decidable (ForeignEpoch p l b) :=
  inferInstanceAs (Decidable (_ ∧ _ ∧ _ ∧ _ ∧ _ ∧ _ ∧ _ ∧ ∃ i ∈ _, (_ = true) ∧ _))

/-- The ledger after blocks that are accepted one after the other, each on a chain of its account. -/
def Ledger.acceptAll (p : Params) : List Block → Ledger → Option Ledger
  | [], l => some l
  | b :: bs, l => do
    let (r, l') ← l.process p b .unknown
    if r.code = .progress ∧ ¬ ForeignEpoch p l b then acceptAll p bs l' else none

section

variable {p : Params} {known : Block → Prop} (H : HashAssumptions p known)

include H

theorem admissible_of_acceptAll {order : List Block} {l l' : Ledger} {L : Lattice p known}
    (h : Represents l L fun _ => 0) (hrun : Ledger.acceptAll p order l = some l')
    (hknown : ∀ b ∈ order, known b) :
    ∃ τ : Lattice p known, L.chain.Within τ.chain ∧ (∀ b ∈ order, Admissible τ b) ∧
      (∀ {a e c}, τ.At a e c → e.block ∈ order ∨ L.At a e c) ∧ order.Nodup ∧
      ∀ b ∈ order, ¬ l.Stores p b := by
  induction order generalizing l L with
  | nil =>
    exact ⟨L, .refl _, fun b hb => (not_mem_nil hb).elim, fun hat => .inr hat, nodup_nil,
      fun b hb => (not_mem_nil hb).elim⟩
  | cons b bs ih =>
    obtain ⟨⟨r, l1⟩, hproc, hrest⟩ := bind_eq_some_iff.1 hrun
    dsimp only at hrest
    split at hrest
    · rename_i hok
      obtain ⟨hcode, hfor⟩ := hok
      rcases process_represents H h (hknown b mem_cons_self) hproc with
        ⟨hne, -⟩ | ⟨-, hf | ⟨a, n, amt, epoch, hp, rfl, -, h1, -⟩⟩
      · exact absurd hcode hne
      · exact absurd hf hfor
      have g := L.push_grows a n hp
      obtain ⟨τ, w, hadm, honly, hnd, hnew⟩ :=
        ih h1 hrest fun b hb => hknown b (mem_cons_of_mem _ hb)
      refine ⟨τ, g.within.trans w, fun b hb => ?_, fun hat => ?_, ?_, fun b hb => ?_⟩
      · rcases mem_cons.1 hb with rfl | hb
        · exact ⟨l, L, a, n, h, g.within.trans w, w.at g.at_new, rfl, hfor,
            by rw [hproc, ← hcode]; rfl⟩
        · exact hadm b hb
      · rcases honly hat with hmem | hpush
        · exact .inl (mem_cons_of_mem _ hmem)
        · rcases g.at_iff.1 hpush with ⟨-, rfl, -⟩ | hold
          · exact .inl mem_cons_self
          · exact .inr hold
      · refine nodup_cons.2 ⟨fun hmem => hnew _ hmem ?_, hnd⟩
        exact (stores_iff H h1.blocks _).2 ⟨a, n, _, g.at_new, rfl⟩
      · rcases mem_cons.1 hb with rfl | hb
        · intro hst
          obtain ⟨y, e, c, hat, he⟩ := (stores_iff H h.blocks _).1 hst
          refine hp.fresh hat ?_
          unfold Entry.hash
          rw [he]
        · intro hst
          obtain ⟨y, e, c, hat, rfl⟩ := (stores_iff H h.blocks _).1 hst
          exact hnew _ hb ((stores_iff H h1.blocks _).2 ⟨y, e, c, g.at_of_at hat, rfl⟩)
    · cases hrest

theorem Admissible.eq_of_hash {τ : Lattice p known} {b b' : Block} (h : Admissible τ b)
    (h' : Admissible τ b') (heq : p.hash b = p.hash b') : b = b' := by
  obtain ⟨l, L, a, e, -, -, hat, rfl, -⟩ := h.accepted
  obtain ⟨l', L', a', e', -, -, hat', rfl, -⟩ := h'.accepted
  obtain ⟨-, rfl, -⟩ := Lattice.at_unique H hat hat' heq
  rfl

end

/-! ## Steps -/

namespace BlockProcessor

variable (p : Params) (fullSize : Nat) (s : BlockProcessor)

/-- `process_one` of a block. -/
def processBlock (b : Block) : Option BlockProcessor :=
  s.processOne p fullSize { block := b, account := b.hashables.account }

inductive Feed where
  /-- A block arrives and is processed. -/
  | arrive (block : Block)
  /-- The next block of the queue is processed. -/
  | next
  deriving DecidableEq

def feed : Feed → Option BlockProcessor
  | .arrive b => s.processBlock p fullSize b
  | .next => s.exec p fullSize .process

def feedAll : List Feed → BlockProcessor → Option BlockProcessor
  | [], s => some s
  | event :: events, s => (s.feed p fullSize event).bind (feedAll events)

def arrivals (events : List Feed) : List Block :=
  events.filterMap fun
    | .arrive b => some b
    | .next => none

def processed : Feed → Option Block
  | .arrive b => some b
  | .next => s.blocks.head?.map (·.block)

/-- No step processes an epoch block too early. -/
def InTime : List Feed → BlockProcessor → Prop
  | [], _ => True
  | event :: events, s => (∀ b ∈ s.processed event, ¬ s.ledger.Early p b) ∧
      ∀ s', s.feed p fullSize event = some s' → InTime events s'

variable {p fullSize} in
theorem feedAll_append (events events' : List Feed) (s : BlockProcessor) :
    feedAll p fullSize (events ++ events') s =
      (feedAll p fullSize events s).bind (feedAll p fullSize events') := by
  induction events generalizing s with
  | nil => rfl
  | cons event events ih =>
    simp only [cons_append, feedAll, bind_assoc, ih]

variable {p fullSize} in
theorem feedAll_idle (n : Nat) {s : BlockProcessor} (h : s.blocks = []) :
    feedAll p fullSize (List.replicate n .next) s = some s := by
  have hstep : s.feed p fullSize .next = some s := by
    unfold feed exec
    rw [h]
  induction n with
  | zero => rfl
  | succ n ih => rw [replicate_succ, feedAll, hstep, bind_some, ih]

/-- The blocks in the queue and in the unchecked table. -/
def waiting : List Block := s.blocks.map (·.block) ++ s.unchecked.entries.map (·.2.block)

/-! ## The queue and the table -/

variable {p fullSize s} {info : UncheckedInfo} {known : Block → Prop}

theorem entries_erase_perm {table : Unchecked} {key : UncheckedKey}
    (h : table.lookup key = some info) :
    table.entries.Perm (⟨key, info⟩ :: (table.erase key).entries) := by
  have hnd : (⟨key, info⟩ :: (table.erase key).entries : List (Σ _ : UncheckedKey, _)).Nodup := by
    refine nodup_cons.2 ⟨fun hmem => ?_, (table.erase key).nodupKeys.nodup⟩
    have := AList.mem_lookup_iff.2 hmem
    rw [AList.lookup_erase] at this
    cases this
  refine (perm_ext_iff_of_nodup table.nodupKeys.nodup hnd).2 fun ⟨key', info'⟩ => ?_
  rw [mem_cons, ← AList.mem_lookup_iff, ← AList.mem_lookup_iff]
  by_cases hk : key' = key
  · subst hk
    rw [AList.lookup_erase, h]
    simp [eq_comm]
  · rw [AList.lookup_erase_ne hk]
    simp [hk]

/-- The block of an entry does not go back to the verification thread. -/
def Returning (info : UncheckedInfo) : Prop :=
  info.account = info.block.hashables.account ∧ Settles info.block info.verified

theorem add_returning (h : Returning info) {front : Bool} :
    (s.add fullSize info front).stateBlocks = s.stateBlocks ∧
      (s.add fullSize info front).waiting.Perm (info.block :: s.waiting) := by
  have hnot : ¬ (info.verified = .unknown ∧ (info.block.hashables.type = .state ∨
      info.block.hashables.type = BlockType.open ∨ info.account ≠ 0)) := by
    rintro ⟨hv, ht | ht | hne⟩
    · exact h.2 (.inr ht) hv
    · exact h.2 (.inl ht) hv
    · rw [h.1] at hne
      refine h.2 ?_ hv
      cases hh : info.block.hashables <;> simp_all [Hashables.type, Hashables.account]
  unfold add
  dsimp only
  rw [if_neg hnot]
  split
  · exact ⟨rfl, by simp [waiting]⟩
  · refine ⟨rfl, ?_⟩
    simp only [waiting, map_append, map_cons, map_nil, append_assoc, singleton_append]
    exact perm_middle

theorem requeue_waiting {entry : UncheckedKey × UncheckedInfo}
    (hlookup : s.unchecked.lookup entry.1 = some entry.2) (h : Returning entry.2) :
    (s.requeue fullSize entry).stateBlocks = s.stateBlocks ∧
      (s.requeue fullSize entry).waiting.Perm s.waiting := by
  unfold requeue
  obtain ⟨hsta, hperm⟩ := add_returning (s := { s with unchecked := s.unchecked.erase entry.1 }) h
  refine ⟨hsta, hperm.trans ?_⟩
  have hents := (entries_erase_perm hlookup).map fun e => e.2.block
  exact perm_middle.symm.trans (hents.symm.append_left _)

theorem queueUnchecked_waiting (fullSize : Nat) (hash : BlockHash)
    (h : ∀ key info, s.unchecked.lookup key = some info → Returning info) :
    (s.queueUnchecked fullSize hash).stateBlocks = s.stateBlocks ∧
      (s.queueUnchecked fullSize hash).waiting.Perm s.waiting := by
  refine (queueUnchecked_induct (I := fun s' =>
    (∀ key info, s'.unchecked.lookup key = some info → Returning info) ∧
      s'.stateBlocks = s.stateBlocks ∧ s'.waiting.Perm s.waiting) ⟨h, rfl, .rfl⟩ ?_).2
  rintro s' entry ⟨hall, hsta, hperm⟩ hlookup -
  obtain ⟨hsta', hperm'⟩ := requeue_waiting hlookup (hall _ _ hlookup)
  refine ⟨fun key info hkey => ?_, hsta'.trans hsta, hperm'.trans hperm⟩
  rw [requeue_unchecked] at hkey
  by_cases hk : key = entry.1
  · rw [hk, AList.lookup_erase] at hkey
    cases hkey
  · rw [AList.lookup_erase_ne hk] at hkey
    exact hall key info hkey

theorem queueUnchecked_lookup {hash : BlockHash} (key : UncheckedKey) :
    (s.queueUnchecked fullSize hash).unchecked.lookup key =
      if key.previous = hash then none else s.unchecked.lookup key := by
  have hfold : ∀ (entries : List (UncheckedKey × UncheckedInfo)) (s : BlockProcessor),
      (entries.foldl (requeue fullSize) s).unchecked.lookup key =
        if key ∈ entries.map (·.1) then none else s.unchecked.lookup key := by
    intro entries
    induction entries with
    | nil => intro s; rfl
    | cons entry entries ih =>
      intro s
      rw [foldl_cons, ih, requeue_unchecked]
      by_cases hk : key = entry.1
      · rw [hk, AList.lookup_erase, ite_self, map_cons, if_pos mem_cons_self]
      · rw [AList.lookup_erase_ne hk, map_cons]
        simp only [mem_cons, hk, false_or]
  unfold queueUnchecked
  rw [hfold]
  by_cases hprev : key.previous = hash
  · rw [if_pos hprev]
    split
    · rfl
    · rename_i hnot
      cases hlk : s.unchecked.lookup key with
      | none => rfl
      | some info =>
        exact absurd (List.mem_map.2 ⟨(key, info), mem_get.2 ⟨hlk, hprev⟩, rfl⟩) hnot
  · rw [if_neg hprev, if_neg]
    intro hmem
    obtain ⟨entry, hent, rfl⟩ := List.mem_map.1 hmem
    exact hprev (mem_get.1 hent).2

theorem mem_waiting {b : Block} :
    b ∈ s.waiting ↔ (∃ info ∈ s.blocks, info.block = b) ∨
      ∃ key info, s.unchecked.lookup key = some info ∧ info.block = b := by
  unfold waiting
  rw [mem_append, List.mem_map, List.mem_map]
  refine or_congr Iff.rfl ⟨?_, ?_⟩
  · rintro ⟨⟨key, info⟩, hmem, rfl⟩
    exact ⟨key, info, AList.mem_lookup_iff.2 hmem, rfl⟩
  · rintro ⟨key, info, hlookup, rfl⟩
    exact ⟨⟨key, info⟩, AList.mem_lookup_iff.1 hlookup, rfl⟩

/-! ## The invariant -/

/-- What holds while blocks of `order`, which lead from `l₀` to the lattice, are processed. The
blocks `arriving` are still to come. -/
structure Converging (l0 : Ledger) (τ : Lattice p known) (order arriving : List Block)
    (s : BlockProcessor) : Prop where
  lattice : ∃ L : Lattice p known, Represents s.ledger L (fun _ => 0) ∧ L.chain.Within τ.chain
  tagged : Tagged p known s
  start : ∀ b, l0.Stores p b → s.ledger.Stores p b
  thread : s.stateBlocks = []
  account : ∀ info, s.Carries info → info.account = info.block.hashables.account
  awaits : ∀ key info, s.unchecked.lookup key = some info → key.hash = p.hash info.block ∧
    Settles info.block info.verified ∧ Awaits τ s.ledger info.block key.previous
  distinct : (arriving ++ s.waiting).Nodup
  fresh : ∀ b ∈ arriving ++ s.waiting, b ∈ order ∧ ¬ s.ledger.Stores p b

/-- Nothing is lost. -/
def Complete (p : Params) (order arriving : List Block) (s : BlockProcessor) : Prop :=
  ∀ b ∈ order, s.ledger.Stores p b ∨ b ∈ arriving ++ s.waiting

/-- What a step does to the block that it processes. -/
inductive Handled (p : Params) (s : BlockProcessor) (b : Block) (s' : BlockProcessor) : Prop
  | accepted (intime : ¬ s.ledger.Early p b) (waiting : s'.waiting.Perm s.waiting)
      (stores : ∀ b', s'.ledger.Stores p b' ↔ b' = b ∨ s.ledger.Stores p b')
  | waits (intime : ¬ s.ledger.Early p b) (waiting : s'.waiting.Perm (b :: s.waiting))
      (ledger : s'.ledger = s.ledger) (queue : s'.blocks = s.blocks)
  | lost (early : s.ledger.Early p b) (same : s' = s)

section

variable {r : ProcessReturn} {l' : Ledger}

variable (H : HashAssumptions p known) {l0 : Ledger} {τ : Lattice p known}
  {order arriving : List Block}

include H in
theorem missing_of_accepted {L' : Lattice p known} {shift : Account → Amount} {l : Ledger}
    {b : Block} {m : BlockHash} (h' : Represents l' L' shift)
    (hsto : ∀ b', l'.Stores p b' ↔ b' = b ∨ l.Stores p b') (hm : l.blockExists m = false)
    (hne : m ≠ p.hash b) : l'.blockExists m = false := by
  by_contra hex
  obtain ⟨a, x, c, hat, rfl⟩ := at_of_blockExists h'.blocks (Bool.eq_true_of_not_eq_false hex)
  rcases (hsto x.block).1 ((stores_iff H h'.blocks _).2 ⟨a, x, c, hat, rfl⟩) with hx | ⟨st, hget, -⟩
  · exact hne (congrArg p.hash hx)
  · have := blockExists_of_blockGet hget
    rw [show p.hash x.block = x.hash p from rfl, hm] at this
    cases this

section

variable (hI : Converging l0 τ order arriving s)

include hI

theorem Converging.returning (key : UncheckedKey) (info : UncheckedInfo)
    (hlookup : s.unchecked.lookup key = some info) : Returning info :=
  ⟨hI.account info (.inr (.inr ⟨key, hlookup⟩)), (hI.awaits key info hlookup).2.1⟩

include H in
theorem Converging.accept (hnot : info.block ∉ arriving ++ s.waiting)
    (hlattice : ∃ L' : Lattice p known, Represents l' L' (fun _ => 0) ∧ L'.chain.Within τ.chain)
    (hsto : ∀ b', l'.Stores p b' ↔ b' = info.block ∨ s.ledger.Stores p b')
    (htgd : Tagged p known
      ({ s with ledger := l' }.queueUnchecked fullSize (p.hash info.block))) :
    Converging l0 τ order arriving
        ({ s with ledger := l' }.queueUnchecked fullSize (p.hash info.block)) ∧
      ({ s with ledger := l' }.queueUnchecked fullSize (p.hash info.block)).waiting.Perm
        s.waiting := by
  obtain ⟨hthread, hperm⟩ := queueUnchecked_waiting (s := { s with ledger := l' }) fullSize
    (p.hash info.block) hI.returning
  have hmem (b : Block) := (hperm.append_left arriving).mem_iff (a := b)
  refine ⟨⟨?_, htgd, fun b hb => ?_, hthread.trans hI.thread, fun i hi => ?_,
    fun key i hlookup => ?_, ?_, fun b hb => ?_⟩, hperm⟩
  · rw [queueUnchecked_ledger]
    exact hlattice
  · rw [queueUnchecked_ledger]
    exact (hsto b).2 (.inr (hI.start b hb))
  · have hcar := carries_queueUnchecked.1 hi
    exact hI.account i hcar
  · rw [queueUnchecked_lookup] at hlookup
    split at hlookup
    · cases hlookup
    · rename_i hne
      obtain ⟨hkey, hset, hblk, hrank, hmiss⟩ := hI.awaits key i hlookup
      obtain ⟨L', h', -⟩ := hlattice
      rw [queueUnchecked_ledger]
      exact ⟨hkey, hset, hblk, hrank, missing_of_accepted H h' hsto hmiss hne⟩
  · exact (hperm.append_left arriving).nodup_iff.2 hI.distinct
  · obtain ⟨horder, hnew⟩ := hI.fresh b ((hmem b).1 hb)
    rw [queueUnchecked_ledger, hsto]
    refine ⟨horder, not_or.2 ⟨?_, hnew⟩⟩
    rintro rfl
    exact hnot ((hmem _).1 hb)

section

variable (hadm : ∀ b ∈ order, Admissible τ b)

include hadm

include H

theorem Converging.wait (horder : info.block ∈ order) (hnew : ¬ s.ledger.Stores p info.block)
    (hnot : info.block ∉ arriving ++ s.waiting)
    (hacc : info.account = info.block.hashables.account) {m : BlockHash}
    {verified : SignatureVerification} (hawaits : Awaits τ s.ledger info.block m)
    (hset : Settles info.block verified)
    (htgd : Tagged p known (s.uncheckedPut p m info verified)) :
    Converging l0 τ order arriving (s.uncheckedPut p m info verified) ∧
      (s.uncheckedPut p m info verified).waiting.Perm (info.block :: s.waiting) := by
  -- the entry is new: the same block would wait twice
  have hfree : (⟨m, p.hash info.block⟩ : UncheckedKey) ∉ s.unchecked := by
    intro hmem
    obtain ⟨i, hi⟩ := isSome_iff_exists.1 (AList.lookup_isSome.2 hmem)
    have hwaits : i.block ∈ s.waiting := mem_waiting.2 (.inr ⟨_, i, hi, rfl⟩)
    have hi' := (hI.fresh i.block (mem_append_right _ hwaits)).1
    have heq := (hadm _ horder).eq_of_hash H (hadm _ hi') (hI.awaits _ i hi).1
    exact hnot (mem_append_right _ (heq ▸ hwaits))
  have hents : (s.uncheckedPut p m info verified).unchecked.entries =
      ⟨⟨m, p.hash info.block⟩, { info with verified := verified }⟩ :: s.unchecked.entries :=
    AList.entries_insert_of_notMem hfree
  have hperm : (s.uncheckedPut p m info verified).waiting.Perm (info.block :: s.waiting) := by
    unfold waiting
    rw [hents]
    exact perm_middle
  have hlookup {key : UncheckedKey} {i : UncheckedInfo}
      (h : (s.uncheckedPut p m info verified).unchecked.lookup key = some i) :
      (key = ⟨m, p.hash info.block⟩ ∧ i = { info with verified := verified }) ∨
        s.unchecked.lookup key = some i := by
    unfold uncheckedPut at h
    by_cases hkey : key = ⟨m, p.hash info.block⟩
    · rw [hkey, AList.lookup_insert] at h
      exact .inl ⟨hkey, (Option.some.inj h).symm⟩
    · rw [AList.lookup_insert_ne hkey] at h
      exact .inr h
  have hmem : ∀ b, b ∈ arriving ++ (s.uncheckedPut p m info verified).waiting ↔
      b = info.block ∨ b ∈ arriving ++ s.waiting := fun b => by
    rw [((hperm.append_left arriving).trans perm_middle).mem_iff, mem_cons]
  refine ⟨⟨hI.lattice, htgd, hI.start, hI.thread, fun i hi => ?_, fun key i hi => ?_, ?_,
    fun b hb => ?_⟩, hperm⟩
  · rcases hi with hi | hi | ⟨key, hi⟩
    · exact hI.account i (.inl hi)
    · exact hI.account i (.inr (.inl hi))
    · rcases hlookup hi with ⟨-, rfl⟩ | hi
      · exact hacc
      · exact hI.account i (.inr (.inr ⟨key, hi⟩))
  · rcases hlookup hi with ⟨rfl, rfl⟩ | hi
    · exact ⟨rfl, hset, hawaits⟩
    · exact hI.awaits key i hi
  · rw [((hperm.append_left arriving).trans perm_middle).nodup_iff]
    exact nodup_cons.2 ⟨hnot, hI.distinct⟩
  · rcases (hmem b).1 hb with rfl | hb
    · exact ⟨horder, hnew⟩
    · exact hI.fresh b hb

theorem Converging.processOne (hknown : ∀ b ∈ order, known b) (horder : info.block ∈ order)
    (hnew : ¬ s.ledger.Stores p info.block) (hnot : info.block ∉ arriving ++ s.waiting)
    (hacc : info.account = info.block.hashables.account)
    (htag : Vouched p known info.block info.account info.verified) :
    ∃ s', s.processOne p fullSize info = some s' ∧ Converging l0 τ order arriving s' ∧
      Handled p s info.block s' := by
  obtain ⟨L, h, w⟩ := hI.lattice
  have hkn := hknown _ horder
  obtain ⟨r, l', hproc, hfate⟩ := (hadm _ horder).fate H w h hkn hnew info.verified
  have hlate (hearly : s.ledger.Early p info.block) := process_early info.verified hearly r l' hproc
  have htgd {s' : BlockProcessor} (hstep : s.processOne p fullSize info = some s') :=
    hI.tagged.processOne H hkn htag hstep
  cases hfate with
  | accepted hcode hlattice hsto =>
    have hsettled := process_settled H hkn hI.tagged.owned htag r l' hproc
    have hassert : info.account = 0 ∨ info.account = r.account := by
      rw [hacc, (hsettled.accepted hcode).1]
      unfold Ledger.home
      cases info.block.hashables <;> simp [Hashables.account]
    have hstep : s.processOne p fullSize info =
        some ({ s with ledger := l' }.queueUnchecked fullSize (p.hash info.block)) := by
      simp only [BlockProcessor.processOne, hproc, bind_eq_bind, bind_some, hcode, if_pos hassert]
    obtain ⟨hI', hperm⟩ := hI.accept H hnot hlattice hsto (htgd hstep)
    refine ⟨_, hstep, hI', .accepted (fun hearly => (hlate hearly).1 hcode) hperm ?_⟩
    rw [queueUnchecked_ledger]
    exact hsto
  | gapPrevious hcode hsame hawaits hset =>
    rw [hsame] at hproc
    have hstep : s.processOne p fullSize info =
        some (s.uncheckedPut p info.block.hashables.previous info r.verified) := by
      simp [BlockProcessor.processOne, hproc, hcode]
    obtain ⟨hI', hperm⟩ := hI.wait H hadm horder hnew hnot hacc hawaits hset (htgd hstep)
    exact ⟨_, hstep, hI', .waits (fun hearly => (hlate hearly).2.1 hcode) hperm rfl rfl⟩
  | gapSource source hcode hsame hsrc hawaits hset =>
    rw [hsame] at hproc
    have hstep : s.processOne p fullSize info = some (s.uncheckedPut p source info r.verified) := by
      simp [BlockProcessor.processOne, hproc, hcode, hsrc]
    obtain ⟨hI', hperm⟩ := hI.wait H hadm horder hnew hnot hacc hawaits hset (htgd hstep)
    exact ⟨_, hstep, hI', .waits (fun hearly => (hlate hearly).2.2 hcode) hperm rfl rfl⟩
  | early hcode hsame hearly =>
    rw [hsame] at hproc
    exact ⟨s, by simp [BlockProcessor.processOne, hproc, hcode], hI, .lost hearly rfl⟩

theorem Converging.next (hknown : ∀ b ∈ order, known b) {rest : List UncheckedInfo}
    (hbs : s.blocks = info :: rest) :
    ∃ s', s.feed p fullSize .next = some s' ∧ Converging l0 τ order arriving s' ∧
      Handled p { s with blocks := rest } info.block s' := by
  have hwait : s.waiting = info.block :: { s with blocks := rest }.waiting := by
    unfold waiting
    rw [hbs]
    rfl
  have hcar {i : UncheckedInfo} (hi : { s with blocks := rest }.Carries i) : s.Carries i :=
    hi.imp_right fun hi => hi.imp_left fun hi => by
      rw [hbs]
      exact mem_cons_of_mem _ hi
  have hinfo : s.Carries info := .inr (.inl (by rw [hbs]; exact mem_cons_self))
  have hperm : (arriving ++ s.waiting).Perm
      (info.block :: (arriving ++ { s with blocks := rest }.waiting)) := by
    rw [hwait]
    exact perm_middle
  obtain ⟨hnot, hdist⟩ := nodup_cons.1 (hperm.nodup_iff.1 hI.distinct)
  obtain ⟨horder, hnew⟩ := hI.fresh _ (hperm.mem_iff.2 mem_cons_self)
  have hrest : Converging l0 τ order arriving { s with blocks := rest } :=
    { lattice := hI.lattice
      tagged := ⟨hI.tagged.owned, fun i hi => hI.tagged.known_of i (hcar hi),
        fun i hi => hI.tagged.vouched i (hcar hi), hI.tagged.named⟩
      start := hI.start
      thread := hI.thread
      account := fun i hi => hI.account i (hcar hi)
      awaits := hI.awaits
      distinct := hdist
      fresh := fun b hb => hI.fresh b (hperm.mem_iff.2 (mem_cons_of_mem _ hb)) }
  obtain ⟨s', hstep, hI', hhdd⟩ := hrest.processOne H hadm hknown horder hnew hnot
    (hI.account info hinfo) (hI.tagged.vouched info hinfo)
  refine ⟨s', ?_, hI', hhdd⟩
  unfold feed exec
  dsimp only
  rw [hbs]
  exact hstep

end

end

include H in
theorem Converging.arrive {b : Block} (hI : Converging l0 τ order (b :: arriving) s)
    (hadm : ∀ b ∈ order, Admissible τ b) (hknown : ∀ b ∈ order, known b) :
    ∃ s', s.feed p fullSize (.arrive b) = some s' ∧ Converging l0 τ order arriving s' ∧
      Handled p s b s' := by
  obtain ⟨hnot, hdist⟩ := nodup_cons.1 hI.distinct
  obtain ⟨horder, hnew⟩ := hI.fresh b mem_cons_self
  have hrest : Converging l0 τ order arriving s :=
    { hI with
      distinct := hdist
      fresh := fun b hb => hI.fresh b (mem_cons_of_mem _ hb) }
  unfold feed processBlock
  exact hrest.processOne H hadm hknown horder hnew hnot rfl trivial

theorem complete_handled {s' : BlockProcessor} {b : Block} (h : Handled p s b s')
    (horder : b ∈ order) (hnew : ¬ s.ledger.Stores p b) (hnot : b ∉ arriving ++ s.waiting) :
    Complete p order arriving s' ↔ ¬ s.ledger.Early p b ∧
      ∀ b' ∈ order, s.ledger.Stores p b' ∨ b' = b ∨ b' ∈ arriving ++ s.waiting := by
  cases h with
  | accepted hintime hwait hsto =>
    unfold Complete
    simp only [(hwait.append_left arriving).mem_iff, hsto, hintime, not_false_eq_true, true_and]
    exact forall₂_congr fun _ _ => by tauto
  | waits hintime hwait hlg hqueue =>
    unfold Complete
    simp only [((hwait.append_left arriving).trans perm_middle).mem_iff, hlg, hintime,
      not_false_eq_true, true_and, mem_cons]
  | lost hearly hsame =>
    rw [hsame]
    refine ⟨fun hall => ?_, fun hall => absurd hearly hall.1⟩
    exact absurd (hall b horder) (not_or.2 ⟨hnew, hnot⟩)

variable (hadm : ∀ b ∈ order, Admissible τ b) (hknown : ∀ b ∈ order, known b)
include H hadm hknown

theorem feed_converging {event : Feed} {events : List Feed}
    (hI : Converging l0 τ order (arrivals (event :: events)) s) :
    ∃ s', s.feed p fullSize event = some s' ∧ Converging l0 τ order (arrivals events) s' ∧
      (Complete p order (arrivals events) s' ↔
        Complete p order (arrivals (event :: events)) s ∧
          ∀ b ∈ s.processed event, ¬ s.ledger.Early p b) := by
  cases event with
  | arrive b =>
    have harrivals : arrivals (.arrive b :: events) = b :: arrivals events := rfl
    rw [harrivals] at hI ⊢
    obtain ⟨s', hstep, hI', hhdd⟩ := hI.arrive H hadm hknown
    obtain ⟨horder, hnew⟩ := hI.fresh b mem_cons_self
    refine ⟨s', hstep, hI', ?_⟩
    rw [complete_handled hhdd horder hnew (nodup_cons.1 hI.distinct).1]
    simp [Complete, processed, and_comm]
  | next =>
    have harrivals : arrivals (.next :: events) = arrivals events := rfl
    rw [harrivals] at hI ⊢
    cases hbs : s.blocks with
    | nil =>
      refine ⟨s, ?_, hI, ?_⟩
      · unfold feed exec
        dsimp only
        rw [hbs]
      · simp [processed, hbs]
    | cons info rest =>
      obtain ⟨s', hstep, hI', hhdd⟩ := hI.next H hadm hknown hbs
      have hperm : (arrivals events ++ s.waiting).Perm
          (info.block :: (arrivals events ++ { s with blocks := rest }.waiting)) := by
        unfold waiting
        rw [hbs]
        exact perm_middle
      obtain ⟨horder, hnew⟩ := hI.fresh _ (hperm.mem_iff.2 mem_cons_self)
      refine ⟨s', hstep, hI', ?_⟩
      rw [complete_handled hhdd horder hnew
        (nodup_cons.1 (hperm.nodup_iff.1 hI.distinct)).1]
      simp only [Complete, hperm.mem_iff, mem_cons, processed, hbs, head?_cons,
        map_some, mem_some_iff, forall_eq', and_comm]

theorem feedAll_converging (fullSize : Nat) (events : List Feed)
    (hI : Converging l0 τ order (arrivals events) s) :
    ∃ s', feedAll p fullSize events s = some s' ∧ Converging l0 τ order [] s' ∧
      (Complete p order [] s' ↔
        Complete p order (arrivals events) s ∧ InTime p fullSize events s) := by
  induction events generalizing s with
  | nil => exact ⟨s, rfl, hI, by simp [InTime, arrivals]⟩
  | cons event events ih =>
    obtain ⟨s1, hstep, hI1, hiff1⟩ := feed_converging H hadm hknown hI
    obtain ⟨s', hrun, hI', hiff⟩ := ih hI1
    refine ⟨s', bind_eq_some_iff.2 ⟨s1, hstep, hrun⟩, hI', ?_⟩
    rw [hiff, hiff1, InTime, hstep]
    simp [and_assoc]

theorem exists_drained (fullSize : Nat) (hI : Converging l0 τ order [] s) :
    ∃ n s', feedAll p fullSize (List.replicate n .next) s = some s' ∧ s'.blocks = [] := by
  induction hw : s.waiting.length using Nat.strong_induction_on generalizing s with
  | _ size ihw =>
    induction hq : s.blocks generalizing s with
    | nil => exact ⟨0, s, rfl, hq⟩
    | cons info rest ihq =>
      obtain ⟨s', hstep, hI', hhdd⟩ := hI.next H hadm hknown hq
      have hlen : size = { s with blocks := rest }.waiting.length + 1 := by
        rw [← hw]
        unfold waiting
        rw [hq]
        simp only [map_cons, cons_append, length_cons]
      have hnext : ∃ n t, feedAll p fullSize (List.replicate n .next) s' = some t ∧
          t.blocks = [] := by
        cases hhdd with
        | accepted _ hwait _ => exact ihw _ (by rw [hwait.length_eq]; omega) hI' rfl
        | waits _ hwait _ hqueue =>
          refine ihq hI' ?_ hqueue
          rw [hwait.length_eq, length_cons, hlen]
        | lost _ hsame => exact ihw _ (by rw [hsame]; omega) hI' rfl
      obtain ⟨n, t, hrun, hemp⟩ := hnext
      exact ⟨n + 1, t, bind_eq_some_iff.2 ⟨s', hstep, hrun⟩, hemp⟩

omit H hadm hknown in
theorem complete_iff_stored (hI : Converging l0 τ order [] s) (hqueue : s.blocks = [])
    (honly : ∀ {a e c}, τ.At a e c → e.block ∈ order ∨ l0.Stores p e.block) :
    Complete p order [] s ↔ (∀ b ∈ order, s.ledger.Stores p b) ∧ s.unchecked = ∅ := by
  constructor
  · intro hcomplete
    have hstored : ∀ b ∈ order, s.ledger.Stores p b := by
      intro b hb
      induction hrank : τ.rank (p.hash b) using Nat.strong_induction_on generalizing b with
      | _ k ih =>
        rcases hcomplete b hb with hst | hwaits
        · exact hst
        · rcases mem_waiting.1 hwaits with ⟨info, hinfo, -⟩ | ⟨key, info, hlookup, rfl⟩
          · rw [hqueue] at hinfo
            cases hinfo
          · obtain ⟨-, -, ⟨a, x, d, hat, hm⟩, hlt, hmiss⟩ := hI.awaits key info hlookup
            have hst : s.ledger.Stores p x.block := by
              rcases honly hat with hx | hx
              · exact ih (τ.rank (x.hash p)) (by rw [hm, ← hrank]; exact hlt) x.block hx rfl
              · exact hI.start _ hx
            obtain ⟨st, hget, -⟩ := hst
            have hex := blockExists_of_blockGet hget
            rw [show p.hash x.block = key.previous from hm, hmiss] at hex
            cases hex
    refine ⟨hstored, AList.ext (eq_nil_iff_forall_not_mem.2 fun ⟨key, info⟩ hmem => ?_)⟩
    have hwaits : info.block ∈ s.waiting :=
      mem_waiting.2 (.inr ⟨key, info, AList.mem_lookup_iff.2 hmem, rfl⟩)
    obtain ⟨horder, hnew⟩ := hI.fresh _ hwaits
    exact hnew (hstored _ horder)
  · rintro ⟨hstored, -⟩ b hb
    exact .inl (hstored b hb)

end

/-- The blocks of `order` are accepted one after the other. They arrive in any order, at any time
between the steps of the queue. Processing the queue then ends, and every block is stored with none
left in the table exactly if no epoch block was processed too early. -/
theorem arrival_order_iff (H : HashAssumptions p known) {l0 l1 : Ledger}
    (hgenesis : Ledger.genesis p = some l0) {order : List Block}
    (hval : Ledger.acceptAll p order l0 = some l1) (hknown : ∀ b ∈ order, known b)
    {events : List Feed} (harrivals : (arrivals events).Perm order) :
    ∃ n t, feedAll p fullSize (events ++ List.replicate n .next) { ledger := l0 } = some t ∧
      t.blocks = [] ∧ t.stateBlocks = [] ∧
      ((∀ b ∈ order, t.ledger.Stores p b) ∧ t.unchecked = ∅ ↔
        InTime p fullSize (events ++ List.replicate n .next) { ledger := l0 }) := by
  have h0 := genesis_represents H hgenesis
  obtain ⟨τ, w, hadm, honly, hnd, hnew⟩ := admissible_of_acceptAll H h0 hval hknown
  have harr (n : Nat) : arrivals (events ++ List.replicate n .next) = arrivals events := by
    simp [arrivals, filterMap_append]
  have hstart : Converging l0 τ order (arrivals events) { ledger := l0 } :=
    { lattice := ⟨_, h0, w⟩
      tagged := genesis_tagged H hgenesis
      start := fun _ hb => hb
      thread := rfl
      account := fun i hi => by rcases hi with hi | hi | ⟨key, hi⟩ <;> cases hi
      awaits := fun key i hi => by cases hi
      distinct := by
        rw [show BlockProcessor.waiting { ledger := l0 } = [] from rfl, append_nil]
        exact harrivals.nodup_iff.2 hnd
      fresh := fun b hb => by
        rw [show BlockProcessor.waiting { ledger := l0 } = [] from rfl, append_nil] at hb
        exact ⟨harrivals.mem_iff.1 hb, hnew b (harrivals.mem_iff.1 hb)⟩ }
  have hcomplete : Complete p order (arrivals events) { ledger := l0 } := fun b hb =>
    .inr (mem_append_left _ (harrivals.mem_iff.2 hb))
  obtain ⟨s, hrun, hI, -⟩ := feedAll_converging H hadm hknown fullSize events hstart
  obtain ⟨n, t, hdrain, hemp⟩ := exists_drained H hadm hknown fullSize hI
  have hrun' : feedAll p fullSize (events ++ List.replicate n .next) { ledger := l0 } = some t := by
    rw [feedAll_append, hrun]
    exact hdrain
  rw [← harr n] at hstart hcomplete
  obtain ⟨t', ht', hI', hiff⟩ := feedAll_converging H hadm hknown fullSize
    (events ++ List.replicate n .next) hstart
  obtain rfl := Option.some.inj (hrun'.symm.trans ht')
  refine ⟨n, t, hrun', hemp, hI'.thread, ?_⟩
  have honly' {a : Account} {e : Entry} {c : List Entry} (hat : τ.At a e c) :
      e.block ∈ order ∨ l0.Stores p e.block :=
    (honly hat).imp_right fun hgen => (stores_iff H h0.blocks _).2 ⟨a, e, c, hgen, rfl⟩
  rw [← complete_iff_stored hI' hemp honly', hiff]
  exact and_iff_right hcomplete

end BlockProcessor

namespace Sample

def epochOpenA : Block := block (.stateBlock accountA 0 0 0 epochLinkV1)

/-- Account B receives, and account A is opened by an epoch block once there is a send to it. -/
def upgrades : List Block := [sendZero, openB, sendB, receiveB, sendA, epochOpenA]

def upgradeBlocks : List Block := params.genesisBlock :: upgrades

/-- The epoch block is the last to arrive. -/
def lateEpoch : List BlockProcessor.Feed :=
  upgrades.dropLast.reverse.map .arrive ++ List.replicate 6 .next ++ [.arrive epochOpenA, .next]

theorem upgradeAssumptions : HashAssumptions params (· ∈ upgradeBlocks) :=
  hashAssumptions_of_list (by decide +kernel) (by decide) (by decide +kernel)

end Sample

open Sample

/-- All but the epoch block arrive in the opposite order. They are processed, and then it arrives. -/
theorem arrival_order_reverse : ∃ l0 l1 n t, Ledger.genesis params = some l0 ∧
    Ledger.acceptAll params upgrades l0 = some l1 ∧
    BlockProcessor.feedAll params 65536 (lateEpoch ++ List.replicate n .next) { ledger := l0 } =
      some t ∧
    BlockProcessor.InTime params 65536 (lateEpoch ++ List.replicate n .next) { ledger := l0 } := by
  obtain ⟨l0, hgenesis, ⟨l1, hval, -⟩, s, hs, hbs, hstored, hunchecked⟩ :
    ∃ l0 ∈ Ledger.genesis params, (∃ l1 ∈ Ledger.acceptAll params upgrades l0, True) ∧
    ∃ s ∈ BlockProcessor.feedAll params 65536 lateEpoch { ledger := l0 }, s.blocks = [] ∧
      (∀ b ∈ upgrades, ∃ st ∈ s.ledger.blockGet (params.hash b), st.block = b) ∧
      s.unchecked.entries = [] := by decide +kernel
  obtain ⟨n, t, hrun, -, -, hiff⟩ := @BlockProcessor.arrival_order_iff params 65536 _
    upgradeAssumptions _ _ hgenesis _ hval (fun b hb => mem_cons_of_mem _ hb) lateEpoch
    (by decide +kernel)
  have hidle := hrun
  rw [BlockProcessor.feedAll_append, hs, bind_some, BlockProcessor.feedAll_idle n hbs] at hidle
  obtain rfl := Option.some.inj hidle
  exact ⟨l0, l1, n, s, hgenesis, hval, hrun, hiff.1 ⟨hstored, AList.ext hunchecked⟩⟩

/-- The epoch block arrives first. It is dropped, and nothing brings it back. -/
theorem arrival_order_fails : HashAssumptions params (· ∈ upgradeBlocks) ∧
    ∃ l0 l1 t, Ledger.genesis params = some l0 ∧
      Ledger.acceptAll params upgrades l0 = some l1 ∧
      (BlockProcessor.arrivals (upgrades.reverse.map .arrive ++
        List.replicate 6 .next)).Perm upgrades ∧
      BlockProcessor.feedAll params 65536
        (upgrades.reverse.map .arrive ++ List.replicate 6 .next) { ledger := l0 } = some t ∧
      t.blocks = [] ∧ t.stateBlocks = [] ∧
      ¬ t.ledger.Stores params epochOpenA := by
  obtain ⟨l0, hgenesis, ⟨l1, hval, -⟩, t, hrun, hbs, hthread, hmiss⟩ :
    ∃ l0 ∈ Ledger.genesis params,
    (∃ l1 ∈ Ledger.acceptAll params upgrades l0, True) ∧
    ∃ t ∈ BlockProcessor.feedAll params 65536
        (upgrades.reverse.map .arrive ++ List.replicate 6 .next) { ledger := l0 },
      t.blocks = [] ∧ t.stateBlocks = [] ∧
      ¬ t.ledger.blockExists (params.hash epochOpenA) := by decide +kernel
  refine ⟨upgradeAssumptions, l0, l1, t, hgenesis, hval, by decide +kernel, hrun, hbs,
    hthread, ?_⟩
  rintro ⟨st, hget, -⟩
  exact hmiss (blockExists_of_blockGet hget)

end Futurehead
