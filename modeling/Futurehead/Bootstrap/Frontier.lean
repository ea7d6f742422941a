import Futurehead.Base.Cursor
import Futurehead.Base.MergeJoin
import Futurehead.Bootstrap.Pulls

/-!
# Exchanging frontiers (`futurehead/node/bootstrap/bootstrap_frontier`)

A frontier request asks a node for the head block of each of its accounts. `frontier_req_server`
reads its account table in batches and sends one record after the other, then a record of zeros.
`frontier_req_client` reads its own account table in the same way, next to the records it receives,
and notes which accounts to pull from the server and which blocks to push to it.
-/

namespace Futurehead

open List

/-! ## Account tables -/

/-- The fields of an `account_info` that are read here. -/
structure FrontierInfo where
  head : BlockHash
  modified : BitVec 64

/-- An account table, in the order in which the database iterates it. -/
structure AccountTable where
  entries : List (Account × FrontierInfo)
  ascending : Ascending entries

abbrev FrontierRecord := Account × BlockHash

namespace AccountTable

variable (t : AccountTable)

def contains (account : Account) : Prop := ∃ info, (account, info) ∈ t.entries

/-- `latest_begin`: the entries from an account on. -/
def latestBegin (account : Account) : List (Account × FrontierInfo) :=
  t.entries.dropWhile fun x => x.1 < account

def frontiers : List FrontierRecord := t.entries.map fun x => (x.1, x.2.head)

end AccountTable

/-! ## Reading a table in batches -/

/-- The cursor that both sides have: the account it is on, with its head, and the rest of the last
batch. The cursor is on account zero when the table has been read. -/
structure AccountCursor where
  current : Account
  frontier : BlockHash
  accounts : List FrontierRecord

namespace AccountCursor

def maxSize : Nat := 128

/-- A batch that is not full is the last one, and gets a record of zeros. -/
def finish (accounts : List FrontierRecord) : List FrontierRecord :=
  if accounts.length ≠ maxSize then accounts ++ [(0, 0)] else accounts

/-- A new batch: the accounts after `current` that are accepted. -/
def batch (t : AccountTable) (accept : FrontierInfo → Bool) (current : Account) :
    List FrontierRecord :=
  finish ((((t.latestBegin (current + 1)).filter fun x => accept x.2).take maxSize).map
    fun x => (x.1, x.2.head))

/-- `next` of both sides. -/
def next (t : AccountTable) (accept : FrontierInfo → Bool) (c : AccountCursor) : AccountCursor :=
  let accounts := if c.accounts = [] then batch t accept c.current else c.accounts
  match accounts with
  | [] => c  -- a batch has a record
  | x :: rest => ⟨x.1, x.2, rest⟩

end AccountCursor

/-! ## The server -/

/-- A `frontier_req`. -/
structure FrontierReq where
  start : Account
  age : BitVec 32
  count : BitVec 32

structure FrontierReqServer extends AccountCursor where
  request : FrontierReq
  count : Nat
  /-- The record of zeros has been sent. -/
  finished : Bool

namespace FrontierReqServer

/-- Accounts that changed within the requested age; the greatest age means all of them. -/
def accepts (request : FrontierReq) (now : BitVec 64) (info : FrontierInfo) : Bool :=
  let skipOld := request.age ≠ BitVec.allOnes 32
  ¬ skipOld ∨ (now - info.modified).toNat ≤ request.age.toNat

def next (t : AccountTable) (now : BitVec 64) (s : FrontierReqServer) : FrontierReqServer :=
  { s with toAccountCursor := s.toAccountCursor.next t (accepts s.request now) }

def new (t : AccountTable) (now : BitVec 64) (request : FrontierReq) : FrontierReqServer :=
  next t now { current := request.start - 1, frontier := 0, accounts := [], request, count := 0,
               finished := false }

/-- `send_next`, and `sent_action` once the record is written. -/
def sendNext (t : AccountTable) (now : BitVec 64) (s : FrontierReqServer) :
    Option FrontierRecord × FrontierReqServer :=
  if s.finished then (none, s)
  else if s.current ≠ 0 ∧ s.count < s.request.count.toNat then
    (some (s.current, s.frontier), { s.next t now with count := s.count + 1 })
  else (some (0, 0), { s with finished := true })

/-- `sendNext` of a server that reads the time from a clock. -/
def sendNextAt (t : AccountTable) (s : FrontierReqServer × (Nat → BitVec 64)) :
    Option FrontierRecord × FrontierReqServer × (Nat → BitVec 64) :=
  let (record, server) := s.1.sendNext t (s.2 0)
  (record, server, fun i => s.2 (i + 1))

end FrontierReqServer

/-! ## The client -/

/-- What the client asks of the attempt. -/
structure PullLog where
  /-- `incremental_id` of the attempt, and the retry limit of the network. -/
  incrementalId : Nat
  retryLimit : BitVec 32
  bulkPushCost : Nat
  /-- The calls of `add_frontier` and `add_bulk_push_target`. -/
  pulls : List PullInfo
  bulkPushTargets : List (BlockHash × BlockHash)
  /-- The calls of `unsynced`. -/
  unsyncedCalls : List (BlockHash × BlockHash)

namespace PullLog

def bulkPushCostLimit : Nat := 200

def unsynced (head last : BlockHash) (log : PullLog) : PullLog :=
  let log := { log with unsyncedCalls := log.unsyncedCalls ++ [(head, last)] }
  if log.bulkPushCost < bulkPushCostLimit then
    { log with
      bulkPushTargets := log.bulkPushTargets ++ [(head, last)]
      bulkPushCost := log.bulkPushCost + if last = 0 then 2 else 1 }
  else log

/-- The pull of an account from the head that the server has down to `last`. -/
def pull (log : PullLog) (account : Account) (latest last : BlockHash) : PullInfo :=
  { accountOrHead := account, head := latest, last
    retryLimit := log.retryLimit, bootstrapId := log.incrementalId }

def addFrontier (account : Account) (latest last : BlockHash) (log : PullLog) : PullLog :=
  { log with pulls := log.pulls ++ [log.pull account latest last] }

/-- Both sides have the account. -/
def compare (stored : BlockHash → Bool) (account : Account) (latest frontier : BlockHash)
    (log : PullLog) : PullLog :=
  if latest = frontier then log
  else if stored latest then log.unsynced frontier latest
  else
    let log := log.addFrontier account latest frontier
    { log with bulkPushCost := log.bulkPushCost + 5 }

end PullLog

structure FrontierReqClient extends AccountCursor where
  log : PullLog
  /-- A read of the next record is waiting. -/
  reading : Bool
  /-- The value of the promise: whether the request failed. -/
  promise : Option Bool

namespace FrontierReqClient

def next (t : AccountTable) (c : FrontierReqClient) : FrontierReqClient :=
  { c with toAccountCursor := c.toAccountCursor.next t fun _ => true }

def new (t : AccountTable) (incrementalId : Nat) (retryLimit : BitVec 32) : FrontierReqClient :=
  next t { current := 0, frontier := 0, accounts := [], reading := true, promise := none
           log := ⟨incrementalId, retryLimit, 0, [], [], []⟩ }

/-- The loops that pass over own accounts that the server does not have. They do not end on a table
that wraps around; then no amount of `fuel` is enough. -/
def passWhile (t : AccountTable) (cond : Account → Bool) :
    Nat → FrontierReqClient → Option FrontierReqClient
  | 0, _ => none
  | fuel + 1, c =>
    if c.current ≠ 0 ∧ cond c.current then
      passWhile t cond fuel (next t { c with log := c.log.unsynced c.frontier 0 })
    else some c

/-- `received_frontier`: `ec` is an error of the read, `tooSlow` the outcome of the measurement of
the rate, `stored` is `block_exists` of the client's ledger. -/
def receivedFrontier (t : AccountTable) (stored : BlockHash → Bool) (fuel : Nat) (ec tooSlow : Bool)
    (record : FrontierRecord) (c : FrontierReqClient) : Option FrontierReqClient :=
  let (account, latest) := record
  if ec then some { c with reading := false }
  else if tooSlow then some { c with reading := false, promise := some true }
  else if account ≠ 0 then do
    let c ← passWhile t (· < account) fuel c
    if c.current ≠ 0 ∧ account = c.current then
      some (next t { c with log := c.log.compare stored account latest c.frontier })
    else some { c with log := c.log.addFrontier account latest 0 }
  else do
    let c ← passWhile t (fun _ => true) fuel c
    some { c with reading := false, promise := some false }

def receive (t : AccountTable) (stored : BlockHash → Bool) (fuel : Nat) (c : FrontierReqClient)
    (record : FrontierRecord) : Option FrontierReqClient :=
  if c.reading then c.receivedFrontier t stored fuel false false record else some c

end FrontierReqClient

/-! ## The cursor -/

/-- Account zero ends a stream and the account after the greatest one is account zero, so neither
can be exchanged. -/
structure AccountTable.Exchangeable (t : AccountTable) : Prop where
  zero : ¬ t.contains 0
  max : ¬ t.contains (BitVec.allOnes 256)

section

variable {t : AccountTable}

theorem AccountTable.latestBegin_zero : t.latestBegin 0 = t.entries := by
  unfold AccountTable.latestBegin
  cases t.entries with
  | nil => rfl
  | cons x xs => rw [dropWhile_cons_of_neg (by simp)]

theorem AccountTable.latestBegin_succ (hmax : ¬ t.contains (BitVec.allOnes 256)) {a : Account}
    {before after : List (Account × FrontierInfo)} {x : Account × FrontierInfo}
    (h : t.latestBegin a = before ++ x :: after) : t.latestBegin (x.1 + 1) = after := by
  obtain ⟨skipped, hents⟩ : ∃ skipped, t.entries = skipped ++ (before ++ x :: after) := by
    refine ⟨t.entries.takeWhile fun x => x.1 < a, ?_⟩
    rw [← h]
    exact takeWhile_append_dropWhile.symm
  have hx : x.1 ≠ BitVec.allOnes 256 := by
    intro heq
    exact hmax ⟨x.2, by rw [hents, ← heq]; simp⟩
  have hasc := t.ascending
  rw [hents, ← append_assoc] at hasc
  obtain ⟨-, hrest, hlt⟩ := pairwise_append.1 hasc
  have hfro : ∀ y ∈ skipped ++ before ++ [x], y.1 < x.1 + 1 := by
    intro y hy
    rw [lt_succ_iff hx]
    rcases mem_append.1 hy with hy | hy
    · exact BitVec.le_of_lt (hlt y hy x (by simp))
    · rw [mem_singleton.1 hy]
      exact BitVec.le_refl _
  unfold AccountTable.latestBegin
  have hspl : t.entries = skipped ++ before ++ [x] ++ after := by simp [hents]
  rw [hspl, dropWhile_append_of_pos (by simpa using hfro)]
  cases after with
  | nil => rfl
  | cons y after =>
    have hxy : x.1 < y.1 := Ascending.head_lt hrest (by simp)
    refine dropWhile_cons_of_neg ?_
    rw [decide_eq_true_eq, lt_succ_iff hx, BitVec.not_le]
    exact hxy

end

namespace AccountCursor

/-- The account up to which the table has been read. -/
def lastRead (c : AccountCursor) : Account := (c.accounts.map (·.1)).getLastD c.current

/-- The cursor has the records `xs` still to read: they are the rest of the last batch, or the rest
of some other batch and the entries of the table after it. -/
def Before (t : AccountTable) (c : AccountCursor) (xs : List FrontierRecord) : Prop :=
  c.accounts = xs ++ [(0, 0)] ∨
    xs = c.accounts ++ (t.latestBegin (c.lastRead + 1)).map fun x => (x.1, x.2.head)

variable {t : AccountTable} {accept : FrontierInfo → Bool} {c : AccountCursor}
  {x : FrontierRecord} {xs : List FrontierRecord}

theorem next_of_cons (t : AccountTable) (accept : FrontierInfo → Bool)
    (h : c.accounts = x :: xs) : c.next t accept = ⟨x.1, x.2, xs⟩ := by
  simp [next, h]

theorem finish_ne_nil (accs : List FrontierRecord) : finish accs ≠ [] := by
  unfold finish
  split
  · simp
  · rename_i hfull
    rintro rfl
    simp [maxSize] at hfull

def refill (t : AccountTable) (accept : FrontierInfo → Bool) (c : AccountCursor) : AccountCursor :=
  { c with accounts := batch t accept c.current }

theorem refill_ne_nil : (c.refill t accept).accounts ≠ [] := finish_ne_nil _

theorem next_of_nil (t : AccountTable) (accept : FrontierInfo → Bool) (h : c.accounts = []) :
    c.next t accept = (c.refill t accept).next t accept := by
  obtain ⟨x, xs, hbatch⟩ := exists_cons_of_ne_nil (refill_ne_nil (c := c) (t := t))
  rw [next_of_cons t accept hbatch, next, if_pos h, show batch t accept c.current = _ from hbatch]

theorem Before.next_of_ne_nil (accept : FrontierInfo → Bool) (h : c.Before t (x :: xs))
    (hne : c.accounts ≠ []) :
    (c.next t accept).current = x.1 ∧ (c.next t accept).frontier = x.2 ∧
      (c.next t accept).Before t xs := by
  rcases h with h | h
  · have hnext := next_of_cons t accept h
    rw [hnext]
    exact ⟨rfl, rfl, .inl rfl⟩
  · obtain ⟨y, rest, hrest⟩ := exists_cons_of_ne_nil hne
    rw [hrest, cons_append] at h
    obtain ⟨rfl, hxs⟩ := List.cons.inj h
    have hnext := next_of_cons t accept hrest
    have hlast : (c.next t accept).lastRead = c.lastRead := by
      rw [hnext, lastRead, lastRead, hrest, map_cons, getLastD_cons]
    rw [Before, hlast, hnext]
    exact ⟨rfl, rfl, .inr hxs⟩

/-- The cursor is on the first of the records `xs`, and on account zero if there is none. -/
def On (t : AccountTable) (c : AccountCursor) (xs : List FrontierRecord) : Prop :=
  (∀ x ∈ xs, x.1 ≠ 0) ∧
    match xs with
    | [] => c.current = 0
    | x :: rest => c.current = x.1 ∧ c.frontier = x.2 ∧ c.Before t rest

section

variable (hmax : ¬ t.contains (BitVec.allOnes 256)) (hacpt : ∀ info, accept info)

include hmax hacpt

theorem Before.refill (h : c.Before t xs) (hnil : c.accounts = []) :
    (c.refill t accept).Before t xs := by
  obtain ⟨ys, hys⟩ : ∃ ys, t.latestBegin (c.current + 1) = ys := ⟨_, rfl⟩
  have hxs : xs = ys.map fun x => (x.1, x.2.head) := by
    rcases h with h | h
    · simp [hnil] at h
    · rw [hnil, nil_append, lastRead, hnil] at h
      rw [← hys]
      exact h
  have haccs : (c.refill t accept).accounts =
      finish ((ys.take maxSize).map fun x => (x.1, x.2.head)) := by
    have hfilter : ys.filter (fun x => accept x.2) = ys :=
      filter_eq_self.2 fun x _ => hacpt x.2
    rw [AccountCursor.refill, batch, hys, hfilter]
  by_cases hfull : ys.length < maxSize
  · -- the table ends in this batch
    left
    rw [haccs, take_of_length_le (by omega), ← hxs, finish, if_pos]
    rw [hxs, length_map]
    omega
  · right
    have hlen : (ys.take maxSize).length = maxSize := by
      rw [length_take]
      omega
    rw [finish, length_map, hlen, if_neg (by simp)] at haccs
    have hne : ys.take maxSize ≠ [] := by
      intro h
      rw [h] at hlen
      simp [maxSize] at hlen
    obtain ⟨init, y, hlast⟩ := (eq_nil_or_concat' (ys.take maxSize)).resolve_left hne
    have hread : (c.refill t accept).lastRead = y.1 := by
      rw [lastRead, haccs, hlast]
      simp
    have hspl : t.latestBegin (c.current + 1) = init ++ y :: ys.drop maxSize := by
      rw [hys]
      conv => lhs; rw [← take_append_drop maxSize ys, hlast]
      simp
    rw [hread, AccountTable.latestBegin_succ hmax hspl, haccs, ← map_append, take_append_drop]
    exact hxs

theorem Before.next (h : c.Before t (x :: xs)) :
    (c.next t accept).current = x.1 ∧ (c.next t accept).frontier = x.2 ∧
      (c.next t accept).Before t xs := by
  by_cases hnil : c.accounts = []
  · rw [next_of_nil t accept hnil]
    exact (h.refill hmax hacpt hnil).next_of_ne_nil accept refill_ne_nil
  · exact h.next_of_ne_nil accept hnil

theorem Before.next_nil (h : c.Before t []) : (c.next t accept).current = 0 := by
  have hend {c : AccountCursor} (h : c.Before t []) (hne : c.accounts ≠ []) :
      (c.next t accept).current = 0 := by
    rcases h with h | h
    · rw [next_of_cons t accept h]
    · exact absurd (append_eq_nil_iff.1 h.symm).1 hne
  by_cases hnil : c.accounts = []
  · rw [next_of_nil t accept hnil]
    exact hend (h.refill hmax hacpt hnil) refill_ne_nil
  · exact hend h hnil

theorem Before.on_next (h : c.Before t xs) (hzero : ∀ x ∈ xs, x.1 ≠ 0) :
    (c.next t accept).On t xs := by
  refine ⟨hzero, ?_⟩
  cases xs with
  | nil => exact h.next_nil hmax hacpt
  | cons x xs => exact h.next hmax hacpt

theorem On.next (h : c.On t (x :: xs)) : (c.next t accept).On t xs :=
  h.2.2.2.on_next hmax hacpt fun y hy => h.1 y (mem_cons_of_mem x hy)

end

theorem before_frontiers (h : t.latestBegin (c.current + 1) = t.entries) (hnil : c.accounts = []) :
    c.Before t t.frontiers := by
  right
  rw [lastRead, hnil]
  exact congrArg _ h.symm

end AccountCursor

theorem AccountTable.Exchangeable.frontiers_ne_zero {t : AccountTable} (ht : t.Exchangeable) :
    ∀ x ∈ t.frontiers, x.1 ≠ 0 := by
  intro x hx hzero
  obtain ⟨y, hy, rfl⟩ := mem_map.1 hx
  exact ht.zero ⟨y.2, hzero ▸ hy⟩

theorem AccountTable.frontiers_ascending (t : AccountTable) : Ascending t.frontiers := by
  unfold Ascending AccountTable.frontiers
  rw [pairwise_map]
  exact t.ascending

/-! ## The records of the server -/

/-- A request for all accounts of a table. -/
structure FrontierReq.Unlimited (request : FrontierReq) (t : AccountTable) : Prop where
  start : request.start = 0
  age : request.age = BitVec.allOnes 32
  count : t.entries.length ≤ request.count.toNat

namespace FrontierReqServer

variable {t : AccountTable} {s : FrontierReqServer} {xs : List FrontierRecord}

theorem accepts_of_age {req : FrontierReq} (h : req.age = BitVec.allOnes 32)
    (now : BitVec 64) (info : FrontierInfo) : accepts req now info := by
  simp [accepts, h]

/-- The server has the records `xs` and the record of zeros still to send. -/
structure Sends (t : AccountTable) (s : FrontierReqServer) (xs : List FrontierRecord) : Prop where
  on : s.toAccountCursor.On t xs
  age : s.request.age = BitVec.allOnes 32
  count : s.count + xs.length ≤ s.request.count.toNat
  unfinished : s.finished = false

theorem sends_new (ht : t.Exchangeable) {req : FrontierReq} (h : req.Unlimited t)
    (now : BitVec 64) : (new t now req).Sends t t.frontiers := by
  have hstart : req.start - 1 + 1 = 0 := by rw [h.start]; rfl
  refine ⟨?_, h.age, ?_, rfl⟩
  · refine AccountCursor.Before.on_next ht.max (accepts_of_age h.age now) ?_ ht.frontiers_ne_zero
    refine AccountCursor.before_frontiers ?_ rfl
    rw [hstart, AccountTable.latestBegin_zero]
  · have := h.count
    simpa [new, next, AccountTable.frontiers] using this

/-- What is still to be sent, with the record of zeros. -/
inductive Remains (t : AccountTable) (s : FrontierReqServer × (Nat → BitVec 64)) :
    List FrontierRecord → Prop
  | sends {xs : List FrontierRecord} (h : s.1.Sends t xs) : Remains t s (xs ++ [(0, 0)])
  | finished (h : s.1.finished = true) : Remains t s []

theorem Sends.sendNext_cons (ht : t.Exchangeable) {x : FrontierRecord} (h : s.Sends t (x :: xs))
    (now : BitVec 64) : (s.sendNext t now).1 = some x ∧ (s.sendNext t now).2.Sends t xs := by
  obtain ⟨⟨hzero, hcur, hfr, hbef⟩, hage, hcnt, hfin⟩ := h
  have hsend : s.current ≠ 0 ∧ s.count < s.request.count.toNat := by
    rw [length_cons] at hcnt
    exact ⟨hcur ▸ hzero x (by simp), by omega⟩
  rw [sendNext, if_neg (by simp [hfin]), if_pos hsend, hcur, hfr]
  refine ⟨rfl, ?_, hage, ?_, hfin⟩
  · exact hbef.on_next ht.max (accepts_of_age hage now)
      fun y hy => hzero y (mem_cons_of_mem x hy)
  · rw [length_cons] at hcnt
    show s.count + 1 + xs.length ≤ s.request.count.toNat
    omega

theorem Sends.sendNext_nil (h : s.Sends t []) (now : BitVec 64) :
    s.sendNext t now = (some (0, 0), { s with finished := true }) := by
  have hcur : s.current = 0 := h.on.2
  rw [sendNext, if_neg (by simp [h.unfinished]), if_neg (by simp [hcur])]

theorem Remains.head {c : FrontierReqServer × (Nat → BitVec 64)} (ht : t.Exchangeable)
    (h : Remains t c xs) : (sendNextAt t c).1 = xs.head? := by
  cases h with
  | finished h => simp [sendNextAt, sendNext, h]
  | @sends xs h =>
    cases xs with
    | nil => simp [sendNextAt, h.sendNext_nil]
    | cons x xs => exact (h.sendNext_cons ht (c.2 0)).1

theorem Remains.tail {c : FrontierReqServer × (Nat → BitVec 64)} (ht : t.Exchangeable)
    (h : Remains t c xs) : Remains t (sendNextAt t c).2 xs.tail := by
  cases h with
  | finished h => exact .finished (by simp [sendNextAt, sendNext, h])
  | @sends xs h =>
    cases xs with
    | nil => exact .finished (by simp [sendNextAt, h.sendNext_nil])
    | cons x xs => exact .sends (h.sendNext_cons ht (c.2 0)).2

theorem sent_stream (ht : t.Exchangeable) {req : FrontierReq} (h : req.Unlimited t)
    (now : BitVec 64) (clock : Nat → BitVec 64) (n : Nat) :
    Cursor.call (sendNextAt t) n (new t now req, clock) = (t.frontiers ++ [(0, 0)])[n]? :=
  Cursor.call_eq_getElem? (R := Remains t) (·.head ht) (·.tail ht) (.sends (sends_new ht h now)) n

end FrontierReqServer

/-! ## The client joins the tables -/

/-- What the client does for an item of the merge join of the server's table with its own. -/
def PullLog.meet (stored : BlockHash → Bool) (log : PullLog) :
    JoinItem Account BlockHash BlockHash → PullLog
  | .left account latest => log.addFrontier account latest 0
  | .right _ head => log.unsynced head 0
  | .both account latest head => log.compare stored account latest head

namespace FrontierReqClient

variable {t : AccountTable} {stored : BlockHash → Bool} {fuel : Nat} {zs : List FrontierRecord}

theorem passWhile_eq (ht : t.Exchangeable) (stored : BlockHash → Bool) (cond : Account → Bool)
    {c : FrontierReqClient} (h : c.toAccountCursor.On t zs) (hfuel : zs.length < fuel) :
    ∃ cursor : AccountCursor, cursor.On t (zs.dropWhile fun z => cond z.1) ∧
      passWhile t cond fuel c = some { c with
        toAccountCursor := cursor
        log := ((zs.takeWhile fun z => cond z.1).map fun z => JoinItem.right z.1 z.2).foldl
          (PullLog.meet stored) c.log } := by
  induction zs generalizing c fuel with
  | nil =>
    obtain ⟨fuel, rfl⟩ : ∃ n, fuel = n + 1 := ⟨fuel - 1, by omega⟩
    have hcur : c.current = 0 := h.2
    exact ⟨c.toAccountCursor, h, by rw [passWhile, if_neg (by simp [hcur])]; rfl⟩
  | cons z zs ih =>
    obtain ⟨fuel, rfl⟩ : ∃ n, fuel = n + 1 := ⟨fuel - 1, by omega⟩
    rw [length_cons] at hfuel
    obtain ⟨hzero, hcur, hfr, -⟩ := id h
    have hne : z.1 ≠ 0 := hzero z (by simp)
    by_cases hcond : cond z.1
    · have hon : (next t { c with log := c.log.unsynced c.frontier 0 }).toAccountCursor.On t zs :=
        AccountCursor.On.next ht.max (fun _ => rfl) h
      obtain ⟨cursor, hcursor, hpass⟩ := ih hon (Nat.lt_of_succ_lt_succ hfuel)
      simp only [dropWhile_cons, takeWhile_cons, hcond, ↓reduceIte]
      refine ⟨cursor, hcursor, ?_⟩
      rw [passWhile, if_pos ⟨hcur ▸ hne, hcur ▸ hcond⟩, hpass, map_cons, foldl_cons]
      simp only [next, PullLog.meet, hfr]
    · simp only [dropWhile_cons, takeWhile_cons, hcond]
      refine ⟨c.toAccountCursor, h, ?_⟩
      rw [passWhile, if_neg (by simp [hcur, hcond])]
      rfl

theorem receive_record (ht : t.Exchangeable) (stored : BlockHash → Bool) {c : FrontierReqClient}
    (hread : c.reading = true) (h : c.toAccountCursor.On t zs) (hfuel : zs.length < fuel)
    {x : FrontierRecord} (hx : x.1 ≠ 0) :
    ∃ (items : List (JoinItem Account BlockHash BlockHash)) (rest : List FrontierRecord)
      (cursor : AccountCursor), (∀ xs, mergeJoin (x :: xs) zs = items ++ mergeJoin xs rest) ∧
      rest.length ≤ zs.length ∧ cursor.On t rest ∧
      c.receive t stored fuel x = some { c with
        toAccountCursor := cursor, log := items.foldl (PullLog.meet stored) c.log } := by
  obtain ⟨cursor, hon, hpass⟩ := passWhile_eq ht stored (fun a => a < x.1) h hfuel
  have hrcv : c.receive t stored fuel x = (passWhile t (· < x.1) fuel c).bind fun c =>
      if c.current ≠ 0 ∧ x.1 = c.current then
        some (next t { c with log := c.log.compare stored x.1 x.2 c.frontier })
      else some { c with log := c.log.addFrontier x.1 x.2 0 } := by
    rw [receive, if_pos hread, receivedFrontier]
    simp only [Bool.false_eq_true, ↓reduceIte, ne_eq, hx, not_false_eq_true]
    rfl
  have hlen : (zs.dropWhile fun z => z.1 < x.1).length ≤ zs.length :=
    (dropWhile_sublist _).length_le
  rw [hrcv, hpass, Option.bind_some]
  by_cases hkey : cursor.current ≠ 0 ∧ x.1 = cursor.current
  · cases hdrop : zs.dropWhile fun z => z.1 < x.1 with
    | nil =>
      rw [hdrop] at hon
      exact absurd hon.2 hkey.1
    | cons z rest =>
      rw [hdrop] at hon hlen
      obtain ⟨-, hcur, hfr, -⟩ := id hon
      rw [if_pos hkey]
      refine ⟨(zs.takeWhile fun z => z.1 < x.1).map (fun z => .right z.1 z.2) ++
        [.both x.1 x.2 z.2], rest, cursor.next t fun _ => true, fun xs => ?_,
        (Nat.le_succ _).trans hlen, hon.next ht.max (fun _ => rfl), ?_⟩
      · rw [mergeJoin_cons_both hdrop (hcur ▸ hkey.2), append_assoc]
        rfl
      · rw [foldl_append]
        simp only [next, hfr]
        rfl
  · rw [if_neg hkey]
    refine ⟨(zs.takeWhile fun z => z.1 < x.1).map (fun z => .right z.1 z.2) ++ [.left x.1 x.2],
      zs.dropWhile fun z => z.1 < x.1, cursor, fun xs => ?_, hlen, hon, ?_⟩
    · rw [mergeJoin_cons_left, append_assoc]
      · rfl
      · intro z rest hdrop hsame
        rw [hdrop] at hon
        obtain ⟨hzero, hcur, -, -⟩ := hon
        exact hkey ⟨hcur ▸ hzero z (by simp), hcur ▸ hsame⟩
    · rw [foldl_append]
      rfl

theorem receive_stream (ht : t.Exchangeable) (stored : BlockHash → Bool)
    {xs : List FrontierRecord} (hxs : ∀ x ∈ xs, x.1 ≠ 0) {c : FrontierReqClient}
    (hread : c.reading = true) (h : c.toAccountCursor.On t zs) (hfuel : zs.length < fuel) :
    ∃ cursor, (xs ++ [(0, 0)]).foldlM (receive t stored fuel) c = some
      { toAccountCursor := cursor, log := (mergeJoin xs zs).foldl (PullLog.meet stored) c.log
        reading := false, promise := some false } := by
  induction xs generalizing c zs with
  | nil =>
    obtain ⟨cursor, -, hpass⟩ := passWhile_eq ht stored (fun _ => true) h hfuel
    have hall : (zs.takeWhile fun _ => true) = zs := takeWhile_eq_self_iff.2 fun _ _ => rfl
    rw [hall] at hpass
    refine ⟨cursor, ?_⟩
    have hrcv : c.receive t stored fuel (0, 0) = (passWhile t (fun _ => true) fuel c).bind
        fun c => some { c with reading := false, promise := some false } := by
      rw [receive, if_pos hread]
      rfl
    rw [nil_append, foldlM_cons, hrcv, hpass]
    rfl
  | cons x xs ih =>
    obtain ⟨items, rest, cursor, hjoin, hlen, hon, hrcv⟩ :=
      receive_record ht stored hread h hfuel (hxs x (by simp))
    obtain ⟨cursor', hrest⟩ := ih (c := { c with
      toAccountCursor := cursor, log := items.foldl (PullLog.meet stored) c.log })
      (fun y hy => hxs y (mem_cons_of_mem x hy)) hread hon (hlen.trans_lt hfuel)
    refine ⟨cursor', ?_⟩
    rw [cons_append, foldlM_cons, hrcv, hjoin, foldl_append]
    exact hrest

end FrontierReqClient

/-! ## The difference of the tables -/

section

variable (stored : BlockHash → Bool)

/-- The pull for an account of the server, if its head is unknown: down to the own head. -/
def PullLog.pullFor (log : PullLog) (x : Account × BlockHash × Option BlockHash) :
    Option PullInfo :=
  match x.2.2 with
  | none => some (log.pull x.1 x.2.1 0)
  | some head =>
    if x.2.1 = head ∨ stored x.2.1 then none else some (log.pull x.1 x.2.1 head)

/-- The push for an own account that the server lacks, or of which it has an older head. -/
def pushFor (x : Account × BlockHash × Option BlockHash) : Option (BlockHash × BlockHash) :=
  match x.2.2 with
  | none => some (x.2.1, 0)
  | some latest =>
    if latest ≠ x.2.1 ∧ stored latest then some (x.2.1, latest) else none

namespace PullLog

variable (log : PullLog)

theorem unsynced_pulls (head last : BlockHash) : (log.unsynced head last).pulls = log.pulls := by
  unfold unsynced
  simp only
  split <;> rfl

theorem unsynced_pull (head last : BlockHash) : (log.unsynced head last).pull = log.pull := by
  unfold unsynced
  simp only
  split <;> rfl

theorem unsynced_calls (head last : BlockHash) :
    (log.unsynced head last).unsyncedCalls = log.unsyncedCalls ++ [(head, last)] := by
  unfold unsynced
  simp only
  split <;> rfl

theorem meet_log (j : JoinItem Account BlockHash BlockHash) :
    (log.meet stored j).pull = log.pull ∧
      (log.meet stored j).pulls = log.pulls ++ (j.left?.bind (log.pullFor stored)).toList ∧
      (log.meet stored j).unsyncedCalls =
        log.unsyncedCalls ++ (j.right?.bind (pushFor stored)).toList := by
  cases j with
  | left acc latest => simp [meet, addFrontier, JoinItem.left?, JoinItem.right?, pullFor]; rfl
  | right acc head =>
    simp [meet, unsynced_pull, unsynced_pulls, unsynced_calls, JoinItem.left?, JoinItem.right?, pushFor]
  | both acc latest head =>
    simp only [meet, compare, JoinItem.left?, JoinItem.right?, Option.bind_some, pullFor, pushFor]
    by_cases heq : latest = head
    · simp [heq]
    · by_cases hst : stored latest
      · simp [heq, hst, unsynced_pull, unsynced_pulls, unsynced_calls]
      · simp [heq, hst, addFrontier]
        rfl

theorem foldl_meet_log (js : List (JoinItem Account BlockHash BlockHash)) :
    (js.foldl (meet stored) log).pulls =
        log.pulls ++ (js.filterMap JoinItem.left?).filterMap (log.pullFor stored) ∧
      (js.foldl (meet stored) log).unsyncedCalls =
        log.unsyncedCalls ++ (js.filterMap JoinItem.right?).filterMap (pushFor stored) := by
  simp only [filterMap_filterMap]
  induction js generalizing log with
  | nil => simp
  | cons j js ih =>
    obtain ⟨hpull, hpulls, hcs⟩ := log.meet_log stored j
    have hfor : (log.meet stored j).pullFor stored = log.pullFor stored := by
      funext x
      simp only [pullFor, hpull]
    have hcons {β : Type} (f : JoinItem Account BlockHash BlockHash → Option β) :
        (j :: js).filterMap f = (f j).toList ++ js.filterMap f := by
      rw [filterMap_cons]
      cases f j <;> rfl
    obtain ⟨hih, hih'⟩ := ih (log.meet stored j)
    rw [foldl_cons, hih, hih', hpulls, hcs, hfor, hcons, hcons, append_assoc, append_assoc]
    exact ⟨rfl, rfl⟩

end PullLog

theorem FrontierReqClient.on_new {t : AccountTable} (ht : t.Exchangeable)
    (incrementalId : Nat) (retryLimit : BitVec 32) :
    (new t incrementalId retryLimit).toAccountCursor.On t t.frontiers := by
  refine AccountCursor.Before.on_next ht.max (fun _ => rfl) ?_ ht.frontiers_ne_zero
  refine AccountCursor.before_frontiers ?_ rfl
  -- the table is read from account one on
  unfold AccountTable.latestBegin
  cases hents : t.entries with
  | nil => rfl
  | cons x xs =>
    refine dropWhile_cons_of_neg ?_
    have hx : x.1 ≠ 0 := fun h => ht.zero ⟨x.2, by rw [hents, ← h]; simp⟩
    show ¬ decide (x.1 < (0 : Account) + 1) = true
    rw [decide_eq_true_eq, lt_succ_iff (by decide)]
    intro hle
    exact hx (BitVec.le_zero_iff.1 hle)

/-- What has to be pulled: the accounts of the server that the client does not have, or whose head
it does not have, down to its own head. -/
def pullsFor (own server : AccountTable) (incrementalId : Nat) (retryLimit : BitVec 32) :
    List PullInfo :=
  server.frontiers.filterMap fun x =>
    match own.frontiers.lookup x.1 with
    | none => some ⟨x.1, x.2, 0, 0, 0, 0, retryLimit, incrementalId⟩
    | some head => if stored x.2 then none else some ⟨x.1, x.2, head, 0, 0, 0, retryLimit, incrementalId⟩

/-- What is to be pushed: the own accounts that the server does not have, or of which it has another
block that the client knows. -/
def pushesFor (own server : AccountTable) : List (BlockHash × BlockHash) :=
  own.frontiers.filterMap fun x =>
    match server.frontiers.lookup x.1 with
    | none => some (x.2, 0)
    | some latest => if latest ≠ x.2 ∧ stored latest then some (x.2, latest) else none

theorem filterMap_pullFor {own server : AccountTable} (hheads : ∀ x ∈ own.frontiers, stored x.2)
    (log : PullLog) :
    ((mergeJoin server.frontiers own.frontiers).filterMap JoinItem.left?).filterMap
      (log.pullFor stored) = pullsFor stored own server log.incrementalId log.retryLimit := by
  rw [MergeJoin.filterMap_left_mergeJoin server.frontiers_ascending own.frontiers_ascending,
    filterMap_map, pullsFor]
  refine filterMap_congr fun x _ => ?_
  simp only [Function.comp_apply, PullLog.pullFor]
  cases hlk : own.frontiers.lookup x.1 with
  | none => rfl
  | some head =>
    obtain ⟨front, back, hspl, -⟩ := lookup_eq_some_iff.1 hlk
    have hkn : stored head := hheads (x.1, head) (by rw [hspl]; simp)
    by_cases heq : x.2 = head
    · simp [heq, hkn]
    · simp [heq, PullLog.pull]

theorem filterMap_pushFor (own server : AccountTable) :
    ((mergeJoin server.frontiers own.frontiers).filterMap JoinItem.right?).filterMap
      (pushFor stored) = pushesFor stored own server := by
  rw [MergeJoin.filterMap_right_mergeJoin server.frontiers_ascending own.frontiers_ascending,
    filterMap_map, pushesFor]
  rfl

end

/-- Frontiers are exchanged exactly: the server sends each of its accounts with its head, in
ascending order, and then zeros; the client, given these records, adds a frontier for each account
to pull and calls `unsynced` for each account to push. -/
theorem frontier_exchange {server own : AccountTable} (hserver : server.Exchangeable)
    (hown : own.Exchangeable) (stored : BlockHash → Bool)
    (hheads : ∀ x ∈ own.frontiers, stored x.2) {req : FrontierReq}
    (hreq : req.Unlimited server) (now : BitVec 64) (clock : Nat → BitVec 64)
    (incrementalId : Nat) (retryLimit : BitVec 32) {fuel : Nat} (hfuel : own.entries.length < fuel) :
    (∀ n, Cursor.call (FrontierReqServer.sendNextAt server) n
      (FrontierReqServer.new server now req, clock) = (server.frontiers ++ [(0, 0)])[n]?) ∧
    ∃ client, (server.frontiers ++ [(0, 0)]).foldlM (FrontierReqClient.receive own stored fuel)
        (FrontierReqClient.new own incrementalId retryLimit) = some client ∧
      client.promise = some false ∧
      client.log.pulls = pullsFor stored own server incrementalId retryLimit ∧
      client.log.unsyncedCalls = pushesFor stored own server := by
  refine ⟨FrontierReqServer.sent_stream hserver hreq now clock, ?_⟩
  obtain ⟨cursor, hstream⟩ := FrontierReqClient.receive_stream hown stored
    hserver.frontiers_ne_zero rfl (FrontierReqClient.on_new hown incrementalId retryLimit)
    (by simpa [AccountTable.frontiers] using hfuel)
  obtain ⟨hpulls, hcs⟩ := PullLog.foldl_meet_log stored
    (FrontierReqClient.new own incrementalId retryLimit).log
    (mergeJoin server.frontiers own.frontiers)
  refine ⟨_, hstream, rfl, hpulls.trans ?_, hcs.trans ?_⟩
  · rw [filterMap_pullFor stored hheads]
    rfl
  · rw [filterMap_pushFor]
    rfl

namespace Sample

/-- A request as `frontier_req_client::run` sends it. -/
def frontierReq : FrontierReq := ⟨0, BitVec.allOnes 32, BitVec.allOnes 32⟩

def serverTable : AccountTable where
  entries := [(5, ⟨50, 0⟩), (7, ⟨70, 0⟩)]
  ascending := by simp [Ascending]

def clientTable : AccountTable where
  entries := [(5, ⟨51, 0⟩), (9, ⟨90, 0⟩)]
  ascending := by simp [Ascending]

def zeroTable : AccountTable where
  entries := [(0, ⟨70, 0⟩)]
  ascending := by simp [Ascending]

end Sample

open Sample

/-- The server lacks account 9, has an account that the client lacks, and of account 5 a block that
the client knows. -/
theorem frontier_exchange_sample :
    ∃ client, (serverTable.frontiers ++ [(0, 0)]).foldlM
        (FrontierReqClient.receive clientTable (· ∈ [50, 51, 90]) 3)
        (FrontierReqClient.new clientTable 1 16) = some client ∧
      client.log.pulls = [⟨7, 70, 0, 0, 0, 0, 16, 1⟩] ∧
      client.log.unsyncedCalls = [(51, 50), (90, 0)] := by
  have hserver : serverTable.Exchangeable :=
    ⟨by simp [AccountTable.contains, serverTable], by simp [AccountTable.contains, serverTable]⟩
  have hclient : clientTable.Exchangeable :=
    ⟨by simp [AccountTable.contains, clientTable], by simp [AccountTable.contains, clientTable]⟩
  have hreq : Sample.frontierReq.Unlimited serverTable := ⟨rfl, rfl, by decide⟩
  have hfuel : clientTable.entries.length < 3 := by decide
  obtain ⟨-, client, hstream, -, hpulls, hcs⟩ := frontier_exchange hserver hclient
    (fun hash => hash ∈ [50, 51, 90]) (by simp [AccountTable.frontiers, clientTable])
    hreq 0 (fun _ => 0) 1 16 hfuel
  exact ⟨client, hstream, hpulls, hcs⟩

/-- The record of account zero would end the stream, and the server does not send it. A client that
has not stored its own heads pulls nothing for them, although they are unknown. -/
theorem frontier_exchange_zero_account :
    (¬ zeroTable.contains (BitVec.allOnes 256) ∧
      Sample.frontierReq.Unlimited zeroTable ∧
      ¬ ∀ n, Cursor.call (FrontierReqServer.sendNextAt zeroTable) n
        (FrontierReqServer.new zeroTable 0 Sample.frontierReq, fun _ => 0) =
          (zeroTable.frontiers ++ [(0, 0)])[n]?) ∧
    ∃ client, (clientTable.frontiers ++ [(0, 0)]).foldlM
        (FrontierReqClient.receive clientTable (fun _ => false) 3)
        (FrontierReqClient.new clientTable 1 16) = some client ∧
      client.log.pulls ≠ pullsFor (fun _ => false) clientTable clientTable 1 16 := by
  refine ⟨⟨by simp [AccountTable.contains, zeroTable], ⟨rfl, rfl, by decide⟩, fun h => ?_⟩,
    by decide +kernel⟩
  have hend : Cursor.call (FrontierReqServer.sendNextAt zeroTable) 1
      (FrontierReqServer.new zeroTable 0 Sample.frontierReq, fun _ => 0) = none := by
    decide +kernel
  rw [h 1] at hend
  cases hend

end Futurehead
