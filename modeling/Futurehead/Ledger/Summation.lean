import Futurehead.Base.Machine
import Futurehead.Lattice.Basic

/-!
# Balances worked out from the blocks (`summation_visitor` of `futurehead/secure/blockstore`)

A receive, open or change block does not state the balance after it. `summation_visitor` works it
out from the blocks below: the balance after a receive is that before it and the amount of its
source, and the amount of a send is the difference of two balances. The two computations call each
other, on a stack of frames of their own.
-/

namespace Futurehead

open Futurehead.Lattice

variable {s i value : Amount} {hash : BlockHash} {known : Block → Prop}

/-! ## The visitor -/

structure BlockInfo where
  account : Account
  balance : Amount

structure BlockStore where
  /-- The block with a hash, null if there is none. -/
  blockGet : BlockHash → Option Block
  /-- `block_info_get`: what an old table tells about a block, if it does. A failed `release_assert`
  has no result. -/
  blockInfoGet : BlockHash → Option (Option BlockInfo)

inductive SummationType where
  | balance
  | amount
  deriving DecidableEq

/-- `summation_visitor::frame`. -/
structure SummationFrame where
  type : SummationType
  sum : Amount := 0
  balanceHash : BlockHash := 0
  amountHash : BlockHash := 0
  awaitingResult : Bool := false
  incomingResult : Amount := 0
  deriving DecidableEq

/-- The stack of frames, and the last sum of any of them. -/
structure SummationVisitor where
  frames : List SummationFrame
  result : Amount := 0
  deriving DecidableEq

namespace SummationFrame

/-- The frame that `push` makes. -/
def new : SummationType → BlockHash → SummationFrame
  | .balance, hash => { type := .balance, balanceHash := hash }
  | .amount, hash => { type := .amount, amountHash := hash }

def sumAdd (f : SummationFrame) (addend : Amount) : SummationFrame :=
  { f with sum := f.sum + addend }

def sumSet (f : SummationFrame) (value : Amount) : SummationFrame := { f with sum := value }

variable (p : Params) (info : Option (Option BlockInfo))

/-- The balance of a block that `blocks_info` knows, and otherwise what is done without it. -/
def addInfo (f : SummationFrame) (otherwise : SummationFrame) : Option (SummationFrame × Bool) :=
  info.map fun
    | some info => ({ f.sumAdd info.balance with balanceHash := 0 }, true)
    | none => (otherwise, false)

/-- The visit of a block by a balance frame, and whether it changes the sum. -/
def visitBalance (f : SummationFrame) : Hashables → Option (SummationFrame × Bool)
  | .sendBlock _ _ balance => some ({ f.sumAdd balance with balanceHash := 0 }, true)
  | .stateBlock _ _ _ balance _ => some ({ f.sumSet balance with balanceHash := 0 }, true)
  | .receiveBlock previous source =>
    addInfo info f { f with amountHash := source, balanceHash := previous }
  | .openBlock source _ _ => some ({ f with amountHash := source, balanceHash := 0 }, false)
  | .changeBlock previous _ => addInfo info f { f with balanceHash := previous }

/-- The visit of a block by an amount frame. -/
def visitAmount (f : SummationFrame) : Hashables → SummationFrame × Bool
  | .sendBlock previous _ balance =>
    ({ f.sumSet balance with balanceHash := previous, amountHash := 0 }, true)
  | .stateBlock _ previous _ balance _ =>
    ({ f.sumSet balance with balanceHash := previous, amountHash := 0 }, true)
  | .receiveBlock _ source => ({ f with amountHash := source }, false)
  | .openBlock source _ _ =>
    if source ≠ p.genesisAccount then ({ f with amountHash := source }, false)
    else ({ f.sumSet genesisAmount with amountHash := 0 }, true)
  | .changeBlock .. => ({ f.sumSet 0 with amountHash := 0 }, true)

/-- The difference of two balances, either way. -/
def difference (sum incoming : Amount) : Amount :=
  if sum < incoming then incoming - sum else sum - incoming

/-- The result of a call is added to a balance. An amount is the difference of two balances. -/
def resume (f : SummationFrame) : SummationFrame :=
  match f.type with
  | .balance => { f.sumAdd f.incomingResult with awaitingResult := false }
  | .amount => { f.sumSet (difference f.sum f.incomingResult) with awaitingResult := false }

end SummationFrame

namespace SummationVisitor

/-- The frame below gets the result. -/
def deliver (value : Amount) : List SummationFrame → List SummationFrame
  | [] => []
  | f :: rest => { f with incomingResult := value } :: rest

/-- `epilogue` of a frame that awaits nothing. -/
def epilogue (f : SummationFrame) (rest : List SummationFrame) (result : Amount) :
    SummationVisitor :=
  ⟨deliver f.sum rest, result⟩

/-- A frame after a visit, on top of the stack. -/
def visited (x : SummationFrame × Bool) (rest : List SummationFrame) (result : Amount) :
    SummationVisitor :=
  ⟨x.1 :: rest, if x.2 then x.1.sum else result⟩

/-- One round of `compute_internal`. -/
def step (p : Params) (store : BlockStore) : SummationVisitor → Option SummationVisitor
  | ⟨[], _⟩ => none
  | ⟨f :: rest, result⟩ =>
    if f.awaitingResult then some (visited (f.resume, true) rest result)
    else
      match f.type with
      | .balance =>
        if f.amountHash ≠ 0 then
          some ⟨.new .amount f.amountHash ::
            { f with awaitingResult := true, amountHash := 0 } :: rest, result⟩
        else if f.balanceHash ≠ 0 then
          (store.blockGet f.balanceHash).bind fun b =>
            (f.visitBalance (store.blockInfoGet (p.hash b)) b.hashables).map fun x =>
              visited x rest result
        else some (epilogue f rest result)
      | .amount =>
        if f.amountHash ≠ 0 then
          match store.blockGet f.amountHash with
          | some b => some (visited (f.visitAmount p b.hashables) rest result)
          | none =>
            -- the source of the genesis block is no block but the genesis account
            let value := if f.amountHash = p.genesisAccount then BitVec.allOnes 128 else 0
            some (visited ({ f.sumSet value with amountHash := 0 }, true) rest result)
        else if f.balanceHash ≠ 0 then
          some ⟨.new .balance f.balanceHash ::
            { f with awaitingResult := true, balanceHash := 0 } :: rest, result⟩
        else some (epilogue f rest result)

def done (v : SummationVisitor) : Bool := v.frames.isEmpty

def computeInternal (p : Params) (store : BlockStore) (fuel : Nat) (type : SummationType)
    (hash : BlockHash) : Option Amount :=
  (Machine.run (step p store) done fuel ⟨[.new type hash], 0⟩).map (·.result)

def computeBalance (p : Params) (store : BlockStore) (fuel : Nat) (hash : BlockHash) :
    Option Amount :=
  computeInternal p store fuel .balance hash

def computeAmount (p : Params) (store : BlockStore) (fuel : Nat) (hash : BlockHash) :
    Option Amount :=
  computeInternal p store fuel .amount hash

end SummationVisitor

/-! ## What it computes -/

/-- The store has the blocks of the lattice, and `block_info_get` is right about them. -/
structure BlockStore.HasBlocks {p : Params} (store : BlockStore)
    (L : Lattice p known) : Prop where
  block : ∀ {a e c}, L.At a e c → store.blockGet (e.hash p) = some e.block
  genesisAccount : store.blockGet p.genesisAccount = none
  info : ∀ {a e c}, L.At a e c → ∃ info, store.blockInfoGet (e.hash p) = some info ∧
    ∀ i ∈ info, i.balance = e.balance

section

variable {p : Params} {store : BlockStore} {L : Lattice p known}

open Machine SummationVisitor

/-- The frame on top of the stack runs, and the frame below gets `value`. -/
def SummationFrame.Evaluates (p : Params) (store : BlockStore) (f : SummationFrame) (value : Amount) :
    Prop :=
  ∀ rest result, Steps (step p store) ⟨f :: rest, result⟩ ⟨deliver value rest, value⟩

namespace SummationFrame

variable {f : SummationFrame} {h : BlockHash}

theorem steps_epilogue (type : SummationType) (s i : Amount) (rest : List SummationFrame) :
    Steps (step p store) ⟨⟨type, s, 0, 0, false, i⟩ :: rest, s⟩ ⟨deliver s rest, s⟩ := by
  refine .head ?_ (.refl _)
  cases type <;> simp [step, epilogue]

theorem steps_amount (hv : (new .amount h).Evaluates p store value) (hh : h ≠ 0) (s i : Amount)
    (b : BlockHash) (rest : List SummationFrame) (result : Amount) :
    Steps (step p store) ⟨⟨.balance, s, b, h, false, i⟩ :: rest, result⟩
      ⟨⟨.balance, s + value, b, 0, false, value⟩ :: rest, s + value⟩ := by
  have hcall : step p store ⟨⟨.balance, s, b, h, false, i⟩ :: rest, result⟩ =
      some ⟨new .amount h :: ⟨.balance, s, b, 0, true, i⟩ :: rest, result⟩ := by
    simp only [step, Bool.false_eq_true, if_false, if_pos hh]
  have hresume : step p store ⟨⟨.balance, s, b, 0, true, value⟩ :: rest, value⟩ =
      some ⟨⟨.balance, s + value, b, 0, false, value⟩ :: rest, s + value⟩ := by
    simp [step, visited, resume, sumAdd]
  exact .head hcall ((hv _ _).trans (.head hresume (.refl _)))

theorem steps_balance (hv : (new .balance h).Evaluates p store value) (hh : h ≠ 0) (s i : Amount)
    (rest : List SummationFrame) (result : Amount) :
    Steps (step p store) ⟨⟨.amount, s, h, 0, false, i⟩ :: rest, result⟩
      ⟨⟨.amount, difference s value, 0, 0, false, value⟩ :: rest, difference s value⟩ := by
  have hcall : step p store ⟨⟨.amount, s, h, 0, false, i⟩ :: rest, result⟩ =
      some ⟨new .balance h :: ⟨.amount, s, 0, 0, true, i⟩ :: rest, result⟩ := by
    simp only [step, Bool.false_eq_true, if_false, ne_eq, not_true, if_pos hh]
  have hresume : step p store ⟨⟨.amount, s, 0, 0, true, value⟩ :: rest, value⟩ =
      some ⟨⟨.amount, difference s value, 0, 0, false, value⟩ :: rest, difference s value⟩ := by
    simp [step, visited, resume, sumSet]
  exact .head hcall ((hv _ _).trans (.head hresume (.refl _)))

theorem step_visitBalance {b : Block} (hb : store.blockGet h = some b) (hh : h ≠ 0) (s i : Amount)
    (rest : List SummationFrame) (result : Amount) {x : SummationFrame × Bool}
    (hx : visitBalance (store.blockInfoGet (p.hash b)) ⟨.balance, s, h, 0, false, i⟩ b.hashables =
      some x) :
    step p store ⟨⟨.balance, s, h, 0, false, i⟩ :: rest, result⟩ = some (visited x rest result) := by
  simp only [step, Bool.false_eq_true, if_false, ne_eq, not_true, if_pos hh, hb, Option.bind_some, hx,
    Option.map_some]

theorem step_visitAmount {b : Block} (hb : store.blockGet h = some b) (hh : h ≠ 0) (s i : Amount)
    (rest : List SummationFrame) (result : Amount) :
    step p store ⟨⟨.amount, s, 0, h, false, i⟩ :: rest, result⟩ =
      some (visited (visitAmount p ⟨.amount, s, 0, h, false, i⟩ b.hashables) rest result) := by
  simp only [step, Bool.false_eq_true, if_false, if_pos hh, hb]

end SummationFrame

section

open SummationFrame

variable (H : HashAssumptions p known) (hsto : store.HasBlocks L) {a : Account} {e : Entry}
  {c : List Entry}

/-- A balance frame on the block of `e`, whatever it has summed up so far. Only the sum of a state
block is not added to: it comes first in its frame. -/
def BalanceEvaluates (p : Params) (store : BlockStore) (e : Entry) : Prop :=
  ∀ s i, (e.type = .state → s = 0) →
    Evaluates p store ⟨.balance, s, e.hash p, 0, false, i⟩ (s + e.balance)

/-- The amount of a received block, and what it does to the balance. -/
def SourceEvaluates (p : Params) (store : BlockStore) (e : Entry) (c : List Entry)
    (source : BlockHash) : Prop :=
  source ≠ 0 ∧ ∃ amount, Evaluates p store (new .amount source) amount ∧
    e.balance.toNat = (chainBal c).toNat + amount.toNat

theorem difference_of_add {x y amount : Amount} (h : x.toNat = y.toNat + amount.toNat) :
    x = y + amount ∧ difference x y = amount := by
  have hx := x.isLt
  have hadd : x = y + amount := by
    apply BitVec.eq_of_toNat_eq
    rw [BitVec.toNat_add, ← h, Nat.mod_eq_of_lt hx]
  have hle : ¬ x < y := by
    rw [BitVec.lt_def]
    omega
  refine ⟨hadd, ?_⟩
  rw [difference, if_neg hle, hadd, add_sub_cancel_left]

theorem difference_self (x : Amount) : difference x x = 0 := by
  rw [difference, if_neg (BitVec.lt_irrefl x), sub_self]

include H hsto

theorem genesis_evaluates : Evaluates p store (new .amount p.genesisAccount) genesisAmount := by
  intro rest result
  have hvis : step p store ⟨new .amount p.genesisAccount :: rest, result⟩ =
      some ⟨⟨.amount, genesisAmount, 0, 0, false, 0⟩ :: rest, genesisAmount⟩ := by
    simp only [step, new, Bool.false_eq_true, if_false, ne_eq, H.genesisAccount_ne_zero,
      not_false_eq_true, if_true, hsto.genesisAccount, visited, sumSet, genesisAmount]
  exact .head hvis (steps_epilogue .amount genesisAmount 0 rest)

theorem open_evaluates (h : L.At a e []) {source : BlockHash} {rep account : Account}
    (hh : e.block.hashables = .openBlock source rep account)
    (hsrc : ∀ source, e.kind p [] = .receive source → SourceEvaluates p store e [] source) :
    SourceEvaluates p store e [] source := by
  obtain ⟨amount, epoch, hx⟩ := extends_at h
  by_cases hg : source = p.genesisAccount
  · have hgen := hx.genesis (by simp [Entry.kind, hh, Hashables.kind, hg])
    refine ⟨hg ▸ H.genesisAccount_ne_zero, genesisAmount, hg ▸ genesis_evaluates H hsto, ?_⟩
    rw [hgen.2]
    simp [chainBal]
  · exact hsrc source (by simp [Entry.kind, hh, Hashables.kind, hg])

omit H hsto in
theorem addInfo_steps {info : Option BlockInfo} {b : BlockHash}
    (hinfo : ∀ x ∈ info, x.balance = e.balance) {otherwise : SummationFrame}
    {rest : List SummationFrame} {result : Amount}
    (hrest : info = none → Steps (step p store) ⟨otherwise :: rest, result⟩
      ⟨deliver (s + e.balance) rest, s + e.balance⟩) :
    ∃ x, addInfo (some info) ⟨.balance, s, b, 0, false, i⟩ otherwise = some x ∧
      Steps (step p store) (visited x rest result) ⟨deliver (s + e.balance) rest, s + e.balance⟩ := by
  refine ⟨_, rfl, ?_⟩
  cases info with
  | none => exact hrest rfl
  | some info =>
    rw [← hinfo info rfl]
    exact steps_epilogue .balance (s + info.balance) i rest

theorem balanceEvaluates_of (h : L.At a e c)
    (hblw : ∀ x d, c = x :: d → BalanceEvaluates p store x)
    (hsrc : ∀ source, e.kind p c = .receive source → SourceEvaluates p store e c source) :
    BalanceEvaluates p store e := by
  intro s i hs rest result
  obtain ⟨amount, epoch, hx⟩ := extends_at h
  have hne := hash_ne_zero H h
  obtain ⟨info, hget, hinfo⟩ := hsto.info h
  have hprev := hx.previous
  suffices hvis : ∃ x, visitBalance (store.blockInfoGet (p.hash e.block))
      ⟨.balance, s, e.hash p, 0, false, i⟩ e.block.hashables = some x ∧
      Steps (step p store) (visited x rest result) ⟨deliver (s + e.balance) rest, s + e.balance⟩ by
    obtain ⟨x, hx, hsteps⟩ := hvis
    exact .head (step_visitBalance (hsto.block h) hne s i rest result hx) hsteps
  have hget' : store.blockInfoGet (p.hash e.block) = some info := hget
  rw [hget']
  cases hh : e.block.hashables with
  | sendBlock previous dest balance =>
    have hstated : e.balance = balance := hx.stated balance (by simp [hh, Hashables.statedBalance])
    rw [hstated]
    exact ⟨_, rfl, steps_epilogue .balance (s + balance) i rest⟩
  | stateBlock account previous rep balance link =>
    have hstated : e.balance = balance := hx.stated balance (by simp [hh, Hashables.statedBalance])
    have hsum : s + e.balance = balance := by
      rw [hs (by simp [Entry.type, hh, Hashables.type]), hstated, zero_add]
    rw [hsum]
    exact ⟨_, rfl, steps_epilogue .balance balance i rest⟩
  | receiveBlock previous source =>
    refine addInfo_steps hinfo fun _ => ?_
    obtain ⟨x, d, rfl, hxs⟩ := hx.exists_below (by simp [Entry.type, hh, Hashables.type])
      (by simp [Entry.type, hh, Hashables.type])
    obtain ⟨hsne, v, hv, hadd⟩ := hsrc source (by simp [Entry.kind, hh, Hashables.kind])
    rw [hh] at hprev
    obtain rfl : previous = x.hash p := hprev
    have hrest := hblw x d rfl (s + v) v (fun ht => absurd ht hxs) rest (s + v)
    have hsum : s + v + x.balance = s + e.balance := by
      rw [(difference_of_add hadd).1, chainBal, add_assoc, add_comm v]
    rw [← hsum]
    exact (steps_amount hv hsne s i _ rest result).trans hrest
  | openBlock source rep account =>
    obtain rfl : c = [] := hx.open_first (by simp [Entry.type, hh, Hashables.type])
    obtain ⟨hsne, v, hv, hadd⟩ := open_evaluates H hsto h hh hsrc
    have hsum : s + v = s + e.balance := by rw [(difference_of_add hadd).1, chainBal, zero_add]
    rw [← hsum]
    exact ⟨_, rfl, (steps_amount hv hsne s i 0 rest result).trans
      (steps_epilogue .balance (s + v) v rest)⟩
  | changeBlock previous rep =>
    refine addInfo_steps hinfo fun _ => ?_
    obtain ⟨x, d, rfl, hxs⟩ := hx.exists_below (by simp [Entry.type, hh, Hashables.type])
      (by simp [Entry.type, hh, Hashables.type])
    rw [hh] at hprev
    obtain rfl : previous = x.hash p := hprev
    rw [hx.neutral (by simp [Entry.kind, hh, Hashables.kind])]
    exact hblw x d rfl s i (fun ht => absurd ht hxs) rest result

omit hsto in
theorem amount_steps_stated (h : L.At a e c) {previous : BlockHash}
    (hblw : ∀ x d, c = x :: d → BalanceEvaluates p store x) (hp : previous = headHash p c)
    (rest : List SummationFrame) :
    Steps (step p store) ⟨⟨.amount, e.balance, previous, 0, false, 0⟩ :: rest, e.balance⟩
      ⟨deliver (difference e.balance (chainBal c)) rest,
        difference e.balance (chainBal c)⟩ := by
  subst hp
  cases c with
  | nil =>
    have hzero : difference e.balance (chainBal []) = e.balance := by
      rw [difference, if_neg (by simp [chainBal]), chainBal, sub_zero]
    rw [hzero]
    exact steps_epilogue .amount e.balance 0 rest
  | cons x c =>
    have hx0 := hash_ne_zero H h.below
    have hv : Evaluates p store (new .balance (x.hash p)) x.balance := by
      have := hblw x c rfl 0 0 (fun _ => rfl)
      rwa [zero_add] at this
    exact (steps_balance hv hx0 e.balance 0 rest _).trans (steps_epilogue .amount _ _ rest)

theorem amountEvaluates_of (h : L.At a e c)
    (hblw : ∀ x d, c = x :: d → BalanceEvaluates p store x)
    (hsrc : ∀ source, e.kind p c = .receive source → SourceEvaluates p store e c source) :
    Evaluates p store (new .amount (e.hash p)) (difference e.balance (chainBal c)) := by
  intro rest result
  obtain ⟨amount, epoch, hx⟩ := extends_at h
  have hne := hash_ne_zero H h
  have hprev := hx.previous
  refine .head (step_visitAmount (hsto.block h) hne 0 0 rest result) ?_
  cases hh : e.block.hashables with
  | sendBlock previous dest balance
  | stateBlock account previous rep balance link =>
    have hstated : e.balance = balance := hx.stated balance (by simp [hh, Hashables.statedBalance])
    subst hstated
    rw [hh] at hprev
    exact amount_steps_stated H h hblw hprev rest
  | receiveBlock previous source =>
    obtain ⟨-, v, hv, hadd⟩ := hsrc source (by simp [Entry.kind, hh, Hashables.kind])
    rw [(difference_of_add hadd).2]
    exact hv rest result
  | openBlock source rep account =>
    obtain rfl : c = [] := hx.open_first (by simp [Entry.type, hh, Hashables.type])
    by_cases hg : source = p.genesisAccount
    · have hgen := hx.genesis (by simp [Entry.kind, hh, Hashables.kind, hg])
      have hzero : difference e.balance (chainBal []) = genesisAmount := by
        rw [hgen.2, difference, if_neg (by simp [chainBal]), chainBal, sub_zero]
      rw [hzero]
      simp only [visitAmount, hg, ne_eq, not_true, if_false, visited, if_true]
      exact steps_epilogue .amount genesisAmount 0 rest
    · obtain ⟨-, v, hv, hadd⟩ := hsrc source (by simp [Entry.kind, hh, Hashables.kind, hg])
      rw [(difference_of_add hadd).2]
      simp only [visitAmount, ne_eq, hg, not_false_eq_true, if_true]
      exact hv rest result
  | changeBlock previous rep =>
    rw [hx.neutral (by simp [Entry.kind, hh, Hashables.kind]), difference_self]
    exact steps_epilogue .amount 0 0 rest

theorem frames_evaluate (h : L.At a e c) : BalanceEvaluates p store e ∧
    Evaluates p store (new .amount (e.hash p)) (difference e.balance (chainBal c)) := by
  obtain ⟨n, hn⟩ : ∃ n, L.rank (e.hash p) = n := ⟨_, rfl⟩
  induction n using Nat.strong_induction_on generalizing a e c with
  | _ n ih =>
    subst hn
    have hblw (x : Entry) (d : List Entry) (hc : c = x :: d) : BalanceEvaluates p store x := by
      subst hc
      exact (ih _ (L.rank_previous h) h.below rfl).1
    have hsrc (source : BlockHash) (hk : e.kind p c = .receive source) :
        SourceEvaluates p store e c source := by
      obtain ⟨amount, epoch, hx, hsends⟩ := L.valid h
      obtain ⟨a', e', c', hat, rfl, hsend, rfl, -⟩ := hsends source hk
      obtain ⟨_, _, hx'⟩ := extends_at hat
      have hsent : difference e'.balance (chainBal c') = e'.sent c' := by
        rw [difference]
        split
        · rfl
        · rename_i hlt
          rw [Entry.sent, BitVec.le_antisymm (hx'.send _ hsend) (BitVec.not_lt.1 hlt), sub_self]
      exact ⟨hash_ne_zero H hat, _, hsent ▸ (ih _ (L.rank_source h hk) hat rfl).2, hx.receive _ hk⟩
    exact ⟨balanceEvaluates_of H hsto h hblw hsrc, amountEvaluates_of H hsto h hblw hsrc⟩

omit H hsto in
theorem step_done (v : SummationVisitor) (hv : v.done) : step p store v = none := by
  obtain ⟨frames, result⟩ := v
  cases frames with
  | nil => rfl
  | cons f rest => cases hv

omit H hsto in
theorem computeInternal_of_evaluates {type : SummationType}
    (h : (new type hash).Evaluates p store value) :
    ∃ n, ∀ fuel, n ≤ fuel → computeInternal p store fuel type hash = some value := by
  obtain ⟨n, hn⟩ := run_of_steps done step_done (h [] 0) rfl
  exact ⟨n, fun fuel hfuel => congrArg (Option.map SummationVisitor.result) (hn fuel hfuel)⟩

theorem computeBalance_eq (h : L.At a e c) :
    ∃ n, ∀ fuel, n ≤ fuel → computeBalance p store fuel (e.hash p) = some e.balance := by
  have hv := (frames_evaluate H hsto h).1 0 0 (fun _ => rfl)
  rw [zero_add] at hv
  exact computeInternal_of_evaluates hv

theorem computeAmount_eq (h : L.At a e c) : ∃ n, ∀ fuel, n ≤ fuel →
    computeAmount p store fuel (e.hash p) = some (difference e.balance (chainBal c)) :=
  computeInternal_of_evaluates (frames_evaluate H hsto h).2

omit H hsto in
theorem computeInternal_unique {type : SummationType} {value' : Amount}
    (h : ∃ n, ∀ fuel, n ≤ fuel → computeInternal p store fuel type hash = some value) {fuel : Nat}
    (h' : computeInternal p store fuel type hash = some value') : value' = value := by
  obtain ⟨n, hn⟩ := h
  obtain ⟨v, hrun, rfl⟩ := Option.map_eq_some_iff.1 h'
  have hmore := congrArg (Option.map SummationVisitor.result) (run_mono hrun (Nat.le_max_left fuel n))
  rw [← Option.some_inj, ← hn _ (Nat.le_max_right fuel n)]
  exact hmore.symm

end

end

end Futurehead
