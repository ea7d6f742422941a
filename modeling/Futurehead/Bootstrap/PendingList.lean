import Futurehead.Store
import Mathlib.Data.Finset.Card
import Mathlib.Data.List.TakeWhile

/-!
# Serving a pending list (`futurehead/node/bootstrap/bootstrap_bulk_pull`)

`bulk_pull_account_server` answers a request for the pending entries of an account. Every iteration
of `get_next` looks up the entry at `current_key` again and puts the key behind it. If only the
addresses of the senders are asked for, a set of those already sent is kept, and emptied when it
grows too large.
-/

namespace Futurehead

open List

/-! ## The server -/

/-- The order of the pending table: by account, then by hash. -/
def PendingKey.before (x y : PendingKey) : Bool :=
  x.account < y.account ∨ x.account = y.account ∧ x.hash < y.hash

abbrev PendingEntry := PendingKey × PendingInfo

structure PendingTable where
  entries : List PendingEntry
  sorted : entries.Pairwise fun x y => x.1.before y.1

/-- `pending_begin`: the entries from a key on. -/
def PendingTable.pendingBegin (t : PendingTable) (key : PendingKey) :
    List PendingEntry :=
  t.entries.dropWhile fun x => x.1.before key

/-- A `bulk_pull_account` request; any byte can arrive as its flags. -/
structure BulkPullAccount where
  account : Account
  minimumAmount : Amount
  flags : BitVec 8

def pendingHashAndAmount : BitVec 8 := 0x0

def pendingAddressOnly : BitVec 8 := 0x1

def pendingHashAmountAndAddress : BitVec 8 := 0x2

structure BulkPullAccountServer where
  request : BulkPullAccount
  currentKey : PendingKey
  addressOnly : Bool
  deduplication : Finset Account

/-- `set_params`: nothing is sent for a request with other flags. -/
def BulkPullAccount.setParams (request : BulkPullAccount) : Option BulkPullAccountServer :=
  let server : BulkPullAccountServer :=
    { request, currentKey := ⟨request.account, 0⟩, addressOnly := false, deduplication := ∅ }
  if request.flags = pendingAddressOnly then some { server with addressOnly := true }
  else if request.flags = pendingHashAmountAndAddress then some server
  else if request.flags = pendingHashAndAmount then some server
  else none

namespace BulkPullAccountServer

def maxDeduplication : Nat := 4096

/-- The loop of `get_next`: the entry to send, or null. -/
def getNextLoop (t : PendingTable) :
    Nat → BulkPullAccountServer → Option (Option PendingEntry × BulkPullAccountServer)
  | 0, _ => none
  | fuel + 1, s =>
    match t.pendingBegin s.currentKey with
    | [] => some (none, s)
    | x :: _ =>
      let moved := { s with currentKey := ⟨x.1.account, x.1.hash + 1⟩ }
      if x.1.account ≠ s.request.account then some (none, moved)
      else if x.2.amount < s.request.minimumAmount then getNextLoop t fuel moved
      else if s.addressOnly then
        if x.2.source ∈ s.deduplication then
          getNextLoop t fuel { moved with
            deduplication := if s.deduplication.card > maxDeduplication then ∅ else s.deduplication }
        else some (some x, { moved with deduplication := insert x.2.source s.deduplication })
      else some (some x, moved)

/-- `get_next`. An iteration that passes no entry has come back to one, so the loop never ends. -/
def getNext (t : PendingTable) (s : BulkPullAccountServer) :
    Option (Option PendingEntry × BulkPullAccountServer) :=
  getNextLoop t (t.entries.length + 1) s

/-- The entries that at most `n` calls of `get_next` return before the first null. -/
def replies (t : PendingTable) :
    Nat → BulkPullAccountServer → Option (List PendingEntry)
  | 0, _ => some []
  | n + 1, s => do
    let next ← s.getNext t
    match next.1 with
    | none => some []
    | some x => (replies t n next.2).map (x :: ·)

end BulkPullAccountServer

/-! ## Moving through the table -/

/-- The entries of the account with at least the minimum amount. -/
def BulkPullAccount.wants (request : BulkPullAccount) (x : PendingEntry) : Bool :=
  x.1.account = request.account ∧ ¬ x.2.amount < request.minimumAmount

namespace PendingTable

variable {t : PendingTable} {key : PendingKey} {x : PendingEntry}
  {xs : List PendingEntry}

theorem before_iff {x y : PendingKey} : x.before y ↔ x.account.toNat < y.account.toNat ∨
    x.account.toNat = y.account.toNat ∧ x.hash.toNat < y.hash.toNat := by
  simp [PendingKey.before, BitVec.lt_def, BitVec.toNat_inj]

theorem pendingBegin_succ (h : t.pendingBegin key = x :: xs)
    (hmax : x.1.hash ≠ BitVec.allOnes 256) : t.pendingBegin ⟨x.1.account, x.1.hash + 1⟩ = xs := by
  have hspl : t.entries = t.entries.takeWhile (fun y => y.1.before key) ++ x :: xs := by
    rw [← h, pendingBegin, takeWhile_append_dropWhile]
  have hsorted := t.sorted
  rw [hspl, pairwise_append, pairwise_cons] at hsorted
  have hsucc := toNat_succ hmax
  have hx : x.1.before ⟨x.1.account, x.1.hash + 1⟩ :=
    before_iff.2 (.inr ⟨rfl, lt_of_lt_of_eq (Nat.lt_succ_self _) hsucc.symm⟩)
  rw [pendingBegin, hspl, dropWhile_append_of_pos, dropWhile_cons, if_pos hx]
  · cases xs with
    | nil => rfl
    | cons y xs =>
      refine dropWhile_cons_of_neg fun hy => ?_
      have hxy := before_iff.1 (hsorted.2.1.1 y (mem_cons_self ..))
      have := before_iff.1 hy
      simp only [hsucc] at this
      omega
  · intro y hy
    have := before_iff.1 (hsorted.2.2 y hy x (mem_cons_self ..))
    refine before_iff.2 ?_
    simp only [hsucc]
    omega

theorem pendingBegin_length_le : (t.pendingBegin key).length ≤ t.entries.length :=
  (dropWhile_suffix _).length_le

theorem pendingBegin_sorted (t : PendingTable) (key : PendingKey) :
    (t.pendingBegin key).Pairwise fun x y => x.1.before y.1 :=
  t.sorted.sublist (dropWhile_sublist _)

theorem account_le_of_before {x y : PendingKey} (h : x.before y) : x.account ≤ y.account := by
  rw [before_iff] at h
  rw [BitVec.le_def]
  omega

theorem pendingBegin_start (acc : Account) : ∀ x ∈ t.pendingBegin ⟨acc, 0⟩, acc ≤ x.1.account := by
  have hsorted := t.pendingBegin_sorted ⟨acc, 0⟩
  cases hrest : t.pendingBegin ⟨acc, 0⟩ with
  | nil => exact fun _ h => absurd h not_mem_nil
  | cons y rest =>
    have hy : acc ≤ y.1.account := by
      have hhead := head?_dropWhile_not (fun x => x.1.before ⟨acc, 0⟩) t.entries
      rw [← pendingBegin, hrest] at hhead
      have hnot : ¬ y.1.before ⟨acc, 0⟩ := by simpa using hhead
      rw [before_iff] at hnot
      rw [BitVec.le_def]
      simp only at hnot
      omega
    intro x hx
    rw [hrest, pairwise_cons] at hsorted
    rcases mem_cons.1 hx with rfl | hx
    · exact hy
    · exact BitVec.le_trans hy (account_le_of_before (hsorted.1 x hx))

end PendingTable

/-! ## What is sent -/

/-- The entries that are sent of those that are wanted. -/
def BulkPullAccountServer.report (addressOnly : Bool) :
    Finset Account → List PendingEntry → List PendingEntry
  | _, [] => []
  | sent, x :: xs =>
    if addressOnly then
      if x.2.source ∈ sent then
        report addressOnly (if sent.card > maxDeduplication then ∅ else sent) xs
      else x :: report addressOnly (insert x.2.source sent) xs
    else x :: report addressOnly sent xs

namespace BulkPullAccountServer

variable {t : PendingTable} {s : BulkPullAccountServer} {sent : Finset Account}
  {xs : List PendingEntry}

theorem report_all : report false sent xs = xs := by
  induction xs with
  | nil => rfl
  | cons x xs ih => simp [report, ih]

theorem report_sublist : (report true sent xs).Sublist xs := by
  induction xs generalizing sent with
  | nil => exact .slnil
  | cons x xs ih =>
    simp only [report, if_true]
    split
    · exact ih.cons x
    · exact ih.cons_cons x

theorem source_mem_report {x : PendingEntry} (hx : x ∈ xs) :
    x.2.source ∈ sent ∨ x.2.source ∈ (report true sent xs).map (·.2.source) := by
  induction xs generalizing sent with
  | nil => cases hx
  | cons y xs ih =>
    simp only [report, if_true]
    split
    · rename_i hy
      rcases mem_cons.1 hx with rfl | hx
      · exact .inl hy
      · refine (ih hx).imp (fun h => ?_) id
        split at h
        · exact absurd h (Finset.notMem_empty _)
        · exact h
    · rw [map_cons, mem_cons]
      rcases mem_cons.1 hx with rfl | hx
      · exact .inr (.inl rfl)
      · rcases ih hx with h | h
        · rcases Finset.mem_insert.1 h with h | h
          · exact .inr (.inl h)
          · exact .inl h
        · exact .inr (.inr h)

theorem report_nodup (h : (sent ∪ (xs.map (·.2.source)).toFinset).card ≤ maxDeduplication) :
    ((report true sent xs).map (·.2.source)).Nodup ∧
      ∀ a ∈ sent, a ∉ (report true sent xs).map (·.2.source) := by
  induction xs generalizing sent with
  | nil => exact ⟨nodup_nil, fun _ _ => not_mem_nil⟩
  | cons x xs ih =>
    rw [map_cons, toFinset_cons] at h
    simp only [report, if_true]
    split
    · have hsent : ¬ sent.card > maxDeduplication :=
        not_lt.2 ((Finset.card_le_card Finset.subset_union_left).trans h)
      rw [if_neg hsent]
      refine ih ((Finset.card_le_card ?_).trans h)
      exact Finset.union_subset_union_right (Finset.subset_insert ..)
    · rename_i hx
      obtain ⟨hnd, hnew⟩ := @ih (insert x.2.source sent) (by
        rwa [Finset.insert_union, ← Finset.union_insert])
      rw [map_cons]
      refine ⟨nodup_cons.2 ⟨hnew _ (Finset.mem_insert_self ..), hnd⟩, fun a ha => ?_⟩
      rw [mem_cons, not_or]
      exact ⟨fun heq => hx (heq ▸ ha), hnew a (Finset.mem_insert_of_mem ha)⟩

/-- The server is about to send `xs`. -/
structure Pends (t : PendingTable) (s : BulkPullAccountServer)
    (xs : List PendingEntry) : Prop where
  le : ∀ x ∈ t.pendingBegin s.currentKey, s.request.account ≤ x.1.account
  eq : report s.addressOnly s.deduplication ((t.pendingBegin s.currentKey).filter s.request.wants) =
    xs

theorem filter_wants_eq_nil {x : PendingEntry} {rest : List PendingEntry}
    (hrest : t.pendingBegin s.currentKey = x :: rest) (hle : s.request.account ≤ x.1.account)
    (hne : x.1.account ≠ s.request.account) : (x :: rest).filter s.request.wants = [] := by
  have hsorted := t.pendingBegin_sorted s.currentKey
  rw [hrest, pairwise_cons] at hsorted
  rw [filter_eq_nil_iff]
  intro y hy hwants
  have hacc : y.1.account = s.request.account := (of_decide_eq_true hwants).1
  rcases mem_cons.1 hy with rfl | hy
  · exact hne hacc
  · have := PendingTable.account_le_of_before (hsorted.1 y hy)
    rw [hacc] at this
    exact hne (BitVec.le_antisymm this hle)

theorem getNextLoop_spec (hmax : ∀ x ∈ t.entries, x.1.hash ≠ BitVec.allOnes 256) {fuel : Nat}
    (hfuel : (t.pendingBegin s.currentKey).length < fuel) (h : s.Pends t xs) :
    ∃ s', s.getNextLoop t fuel = some (xs.head?, s') ∧ s'.Pends t xs.tail := by
  induction fuel generalizing s with
  | zero => omega
  | succ fuel ih =>
    obtain ⟨hle, heq⟩ := h
    unfold getNextLoop
    cases hrest : t.pendingBegin s.currentKey with
    | nil =>
      simp only [hrest, filter_nil, report] at heq
      subst heq
      exact ⟨s, rfl, hle, by simp [hrest, report]⟩
    | cons x rest =>
      have hx : x ∈ t.entries :=
        (dropWhile_sublist _).subset (hrest ▸ mem_cons_self .. : x ∈ t.pendingBegin _)
      have hmv : t.pendingBegin ⟨x.1.account, x.1.hash + 1⟩ = rest :=
        PendingTable.pendingBegin_succ hrest (hmax x hx)
      have hle' : ∀ y ∈ rest, s.request.account ≤ y.1.account := fun y hy =>
        hle y (hrest ▸ mem_cons_of_mem x hy)
      rw [hrest, length_cons] at hfuel
      have hless : rest.length < fuel := by omega
      dsimp only
      split
      · rename_i hne
        have hnil := filter_wants_eq_nil hrest (hle x (hrest ▸ mem_cons_self ..)) hne
        rw [hrest, hnil, report] at heq
        subst heq
        refine ⟨_, rfl, by rwa [hmv], ?_⟩
        rw [filter_cons] at hnil
        split at hnil
        · cases hnil
        · simp only [hmv, hnil, report, tail_nil]
      · rename_i hacc
        rw [not_not] at hacc
        split
        · rename_i hsmall
          rw [hrest, filter_cons_of_neg (by simp [BulkPullAccount.wants, hsmall])] at heq
          exact ih (by rwa [hmv]) ⟨by rwa [hmv], by rwa [hmv]⟩
        · rename_i hlg
          rw [hrest, filter_cons_of_pos (by simp [BulkPullAccount.wants, hacc, hlg])]
            at heq
          cases hall : s.addressOnly with
          | false =>
            rw [hall, report_all] at heq
            subst heq
            exact ⟨_, rfl, by rwa [hmv], by rw [hmv]; exact report_all⟩
          | true =>
            rw [hall] at heq
            simp only [report, if_true] at heq ⊢
            split
            · rename_i hsent
              rw [if_pos hsent] at heq
              exact ih (by rwa [hmv]) ⟨by rwa [hmv], by rw [hmv]; exact heq⟩
            · rename_i hnew
              rw [if_neg hnew] at heq
              subst heq
              exact ⟨_, rfl, by rwa [hmv], by rw [hmv]; rfl⟩

theorem replies_spec (hmax : ∀ x ∈ t.entries, x.1.hash ≠ BitVec.allOnes 256) (n : Nat)
    (h : s.Pends t xs) : s.replies t n = some (xs.take n) := by
  induction n generalizing s xs with
  | zero => rfl
  | succ n ih =>
    obtain ⟨s', hnext, h'⟩ := getNextLoop_spec hmax
      (Nat.lt_succ_of_le t.pendingBegin_length_le) h
    rw [replies, getNext, hnext]
    cases xs with
    | nil => rfl
    | cons x xs =>
      simp only [Option.bind_eq_bind, Option.bind_some, head?_cons, ih h', tail_cons,
        Option.map_some, take_succ_cons]

end BulkPullAccountServer

def BulkPullAccount.wanted (t : PendingTable) (request : BulkPullAccount) :
    List PendingEntry :=
  t.entries.filter request.wants

/-- What a request gets: `replies n` are the first `n` of the entries `sent`. -/
structure BulkPullAccount.Serves (t : PendingTable) (request : BulkPullAccount)
    (s : BulkPullAccountServer) (sent : List PendingEntry) : Prop where
  replies : ∀ n, s.replies t n = some (sent.take n)
  ascending : sent.Pairwise fun x y => x.1.hash < y.1.hash
  all : request.flags ≠ pendingAddressOnly → sent = request.wanted t
  sublist : sent.Sublist (request.wanted t)
  sender : ∀ x ∈ request.wanted t, x.2.source ∈ sent.map (·.2.source)
  once : request.flags = pendingAddressOnly →
    ((request.wanted t).map (·.2.source)).toFinset.card ≤ 4096 →
      ∀ x ∈ request.wanted t, (sent.map (·.2.source)).count x.2.source = 1

namespace BulkPullAccount

variable {t : PendingTable} {request : BulkPullAccount} {s : BulkPullAccountServer}

theorem wants_account {x : PendingEntry} (h : request.wants x) : x.1.account = request.account :=
  (of_decide_eq_true h).1

theorem wanted_ascending : (request.wanted t).Pairwise fun x y => x.1.hash < y.1.hash := by
  refine (t.sorted.sublist filter_sublist).imp_of_mem fun hx hy hbef => ?_
  have hx := wants_account (of_mem_filter hx)
  have hy := wants_account (of_mem_filter hy)
  rw [PendingTable.before_iff, hx, hy] at hbef
  rw [BitVec.lt_def]
  omega

theorem filter_pendingBegin :
    (t.pendingBegin ⟨request.account, 0⟩).filter request.wants = request.wanted t := by
  have hbef : (t.entries.takeWhile fun x => x.1.before ⟨request.account, 0⟩).filter
      request.wants = [] := by
    rw [filter_eq_nil_iff]
    intro x hx hwants
    have hkey : x.1.before ⟨request.account, 0⟩ := by simpa using mem_takeWhile_imp hx
    rw [PendingTable.before_iff, wants_account hwants] at hkey
    simp at hkey
  rw [wanted, ← takeWhile_append_dropWhile
    (p := fun x => x.1.before ⟨request.account, 0⟩) (l := t.entries), filter_append, hbef,
    PendingTable.pendingBegin, nil_append]

theorem setParams_eq (h : request.setParams = some s) : s.request = request ∧
    s.currentKey = ⟨request.account, 0⟩ ∧ s.deduplication = ∅ ∧
    (s.addressOnly ↔ request.flags = pendingAddressOnly) := by
  unfold setParams at h
  split_ifs at h with haddr hboth hplain <;> cases h <;> simp_all

/-- Every request with known flags gets the entries of its account, or their senders. -/
theorem pending_list_served (hmax : ∀ x ∈ t.entries, x.1.hash ≠ BitVec.allOnes 256)
    (h : request.setParams = some s) : ∃ sent, request.Serves t s sent := by
  obtain ⟨hreq, hkey, hemp, hflag⟩ := setParams_eq h
  have hpends : s.Pends t (BulkPullAccountServer.report s.addressOnly ∅ (request.wanted t)) := by
    refine ⟨?_, ?_⟩
    · rw [hkey, hreq]
      exact t.pendingBegin_start request.account
    · rw [hkey, hreq, hemp, filter_pendingBegin]
  have hreplies := fun n => BulkPullAccountServer.replies_spec hmax n hpends
  cases hall : s.addressOnly with
  | false =>
    have hne : request.flags ≠ pendingAddressOnly := fun heq => by
      rw [hflag.2 heq] at hall
      cases hall
    rw [hall, BulkPullAccountServer.report_all] at hreplies
    exact ⟨_, hreplies, wanted_ascending, fun _ => rfl, List.Sublist.refl _,
      fun x hx => mem_map_of_mem hx, fun heq => absurd heq hne⟩
  | true =>
    rw [hall] at hreplies
    have hsender : ∀ x ∈ request.wanted t, x.2.source ∈
        (BulkPullAccountServer.report true ∅ (request.wanted t)).map (·.2.source) := fun x hx =>
      (BulkPullAccountServer.source_mem_report hx).resolve_left (Finset.notMem_empty _)
    refine ⟨_, hreplies, wanted_ascending.sublist BulkPullAccountServer.report_sublist,
      fun hne => absurd (hflag.1 hall) hne, BulkPullAccountServer.report_sublist, hsender, ?_⟩
    intro _ hcard x hx
    refine count_eq_one_of_mem (BulkPullAccountServer.report_nodup ?_).1 (hsender x hx)
    rwa [Finset.empty_union]

end BulkPullAccount

/-- Account 7 has three entries, two of them from one sender; the first is too small. -/
theorem BulkPullAccount.pending_list_served_senders :
    let t : PendingTable := ⟨[(⟨7, 1⟩, ⟨3, 4, .epoch0⟩), (⟨7, 2⟩, ⟨5, 10, .epoch0⟩),
      (⟨7, 3⟩, ⟨5, 20, .epoch0⟩), (⟨8, 4⟩, ⟨3, 30, .epoch0⟩)], by decide⟩
    let request : BulkPullAccount := ⟨7, 5, pendingAddressOnly⟩
    let s : BulkPullAccountServer := ⟨request, ⟨7, 0⟩, true, ∅⟩
    request.setParams = some s ∧
      s.replies t 4 = some [(⟨7, 2⟩, ⟨5, 10, .epoch0⟩)] ∧ ∃ sent, request.Serves t s sent :=
  ⟨rfl, by decide, BulkPullAccount.pending_list_served (by decide) rfl⟩

end Futurehead
