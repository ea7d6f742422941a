import Futurehead.Base.Cursor
import Futurehead.Ledger.Structure
import Mathlib.Data.List.TakeWhile

/-!
# Serving a bulk pull (`futurehead/node/bootstrap/bootstrap_bulk_pull`)

`bulk_pull_server` answers a request for the blocks of a chain, newest first. Its cursor `current`
doubles as the end marker: the server is done when the cursor is on `end`, so `set_current_end`
puts it there when there is nothing to send, and `get_next` does so after the open block.
-/

namespace Futurehead

open List Option

/-! ## The server -/

/-- A `bulk_pull` request; `last` is its `end`. -/
structure BulkPull where
  start : Uint256
  last : BlockHash
  count : BitVec 32
  isCountPresent : Bool

/-- The fields of a `bulk_pull_server` that answering a request uses; `last` is the `end` of the
request it keeps. -/
structure BulkPullServer where
  last : BlockHash
  current : BlockHash
  includeStart : Bool
  maxCount : BitVec 32
  sentCount : BitVec 32

def BulkPull.setCurrentEnd (l : Ledger) (request : BulkPull) : BulkPullServer :=
  let last := if l.blockExists request.last then request.last else 0
  let current :=
    if l.blockExists request.start then request.start
    else
      match l.accountGet request.start with
      | none => last
      | some info => if last ≠ 0 ∧ l.account last ≠ some request.start then last else info.head
  { last, current, includeStart := l.blockExists request.start, sentCount := 0
    maxCount := if request.isCountPresent then request.count else 0 }

/-- The server has sent as many blocks as the request allows. -/
def BulkPullServer.Exhausted (s : BulkPullServer) : Prop :=
  s.maxCount ≠ 0 ∧ s.sentCount ≥ s.maxCount

instance (s : BulkPullServer) : Decidable s.Exhausted :=
  inferInstanceAs (Decidable (s.maxCount ≠ 0 ∧ s.sentCount ≥ s.maxCount))

/-- `get_next`: the block to send, or null. -/
def BulkPullServer.getNext (l : Ledger) (s : BulkPullServer) : Option Block × BulkPullServer :=
  let setCurrentToEnd : Bool := s.current = s.last ∧ s.includeStart
  let sendCurrent : Bool := (s.current ≠ s.last ∨ setCurrentToEnd) ∧ ¬ s.Exhausted
  if sendCurrent then
    let result := (l.blockGet s.current).map (·.block)
    let current :=
      match result with
      | some block =>
        if setCurrentToEnd then s.last
        else if block.hashables.previous ≠ 0 then block.hashables.previous
        else s.last
      | none => s.last
    (result, { s with current, sentCount := s.sentCount + 1, includeStart := false })
  else (none, { s with includeStart := false })

/-! ## What the request asks for -/

/-- Every account has a chain that agrees with its record, and every stored block lies on one. -/
structure WellFormedChains (l : Ledger) : Prop where
  agrees : ∀ account info, l.accountGet account = some info → l.ChainAgrees account info
  covers : ∀ hash, l.blockExists hash → ∃ account info, l.accountGet account = some info ∧
    hash ∈ (l.chainOf info).map (·.1)

theorem ChainStructure.wellFormed {l : Ledger} (h : ChainStructure l) : WellFormedChains l where
  agrees := h.agrees
  covers := fun hash hex => (h.covers hash hex).exists

/-- The blocks from `hash` down through the previous fields. There are no more of them than stored
blocks. -/
def Ledger.chainFrom (l : Ledger) (hash : BlockHash) : List (BlockHash × StoredBlock) :=
  l.walk l.blocks.keys.card hash

/-- The blocks of a chain above `last`, all of them if `last` does not lie on it. -/
def blocksAbove (last : BlockHash) (chain : List (BlockHash × StoredBlock)) : List Block :=
  (chain.takeWhile fun x => x.1 ≠ last).map fun x => x.2.block

/-- The blocks that the request asks for, before the count is applied. -/
def BulkPull.range (l : Ledger) (request : BulkPull) : List Block :=
  if l.blockExists request.start then
    -- the start is sent even if it is also the end
    if request.last = request.start then
      ((l.chainFrom request.start).take 1).map fun x => x.2.block
    else blocksAbove request.last (l.chainFrom request.start)
  else
    match l.accountGet request.start with
    | none => []
    | some info =>
      if l.blockExists request.last ∧ l.account request.last ≠ some request.start then []
      else blocksAbove request.last (l.chainFrom info.head)

def BulkPull.expected (l : Ledger) (request : BulkPull) : List Block :=
  if request.isCountPresent ∧ request.count ≠ 0 then
    (request.range l).take request.count.toNat
  else request.range l

/-! ## Chains -/

section Walk

variable {l : Ledger} {hash : BlockHash} {k : Nat} {x : BlockHash × StoredBlock}

theorem walk_of_none (hget : l.blockGet hash = none) : l.walk k hash = [] := by
  cases k with
  | zero => rfl
  | succ k => rw [Ledger.walk, hget]

theorem walk_of_some {b : StoredBlock} (hget : l.blockGet hash = some b) :
    l.walk (k + 1) hash = (hash, b) :: l.walk k b.block.hashables.previous := by
  rw [Ledger.walk, hget]

theorem walk_stored (hx : x ∈ l.walk k hash) : l.blockGet x.1 = some x.2 := by
  induction k generalizing hash with
  | zero => cases hx
  | succ k ih =>
    cases hget : l.blockGet hash with
    | none => rw [walk_of_none hget] at hx; cases hx
    | some b =>
      rw [walk_of_some hget] at hx
      rcases mem_cons.1 hx with rfl | hx
      · exact hget
      · exact ih hx

theorem walk_eq_take (hend : (l.walk k hash).length < k) (m : Nat) :
    l.walk m hash = (l.walk k hash).take m := by
  induction k generalizing hash m with
  | zero => omega
  | succ k ih =>
    cases hget : l.blockGet hash with
    | none => rw [walk_of_none hget, walk_of_none hget, take_nil]
    | some b =>
      rw [walk_of_some hget, length_cons] at hend
      cases m with
      | zero => rfl
      | succ m =>
        rw [walk_of_some hget, walk_of_some hget, take_succ_cons, ih (by omega) m]

theorem walk_of_mem (hend : (l.walk k hash).length < k) (hx : x ∈ l.walk k hash) :
    ∃ m, (l.walk m x.1).length < m ∧ l.walk m x.1 <:+ l.walk k hash := by
  induction k generalizing hash with
  | zero => cases hx
  | succ k ih =>
    cases hget : l.blockGet hash with
    | none => rw [walk_of_none hget] at hx; cases hx
    | some b =>
      have hwalk := walk_of_some (k := k) hget
      rw [hwalk] at hx
      rcases mem_cons.1 hx with rfl | hx
      · exact ⟨k + 1, hend, suffix_refl _⟩
      · rw [hwalk, length_cons] at hend
        obtain ⟨m, hm, hsuffix⟩ := ih (by omega) hx
        refine ⟨m, hm, ?_⟩
        rw [hwalk]
        exact hsuffix.trans (suffix_cons _ _)

theorem walk_getLast? (hend : (l.walk k hash).length < k) (hx : (l.walk k hash).getLast? = some x) :
    l.blockGet x.2.block.hashables.previous = none := by
  induction k generalizing hash with
  | zero => cases hx
  | succ k ih =>
    cases hget : l.blockGet hash with
    | none => rw [walk_of_none hget] at hx; cases hx
    | some b =>
      rw [walk_of_some hget] at hend hx
      rw [length_cons] at hend
      cases hrest : l.walk k b.block.hashables.previous with
      | nil =>
        rw [hrest, getLast?_singleton] at hx
        obtain rfl := Option.some.inj hx
        cases hprev : l.blockGet b.block.hashables.previous with
        | none => rfl
        | some b' =>
          obtain ⟨k, rfl⟩ : ∃ n, k = n + 1 := ⟨k - 1, by omega⟩
          rw [walk_of_some hprev] at hrest
          cases hrest
      | cons y ys =>
        rw [hrest, getLast?_cons_cons, ← hrest] at hx
        exact ih (by omega) hx

theorem Ledger.ChainAgrees.nodup {acc : Account} {info : AccountInfo}
    (h : l.ChainAgrees acc info) : ((l.chainOf info).map (·.1)).Nodup := by
  rw [nodup_iff_getElem?_ne_getElem?]
  intro i j hij hj heq
  rw [length_map] at hj
  have hi : i < (l.chainOf info).length := by omega
  simp only [getElem?_map, getElem?_eq_getElem hi, getElem?_eq_getElem hj,
    map_some, Option.some.injEq] at heq
  have hsame : (l.chainOf info)[i].2 = (l.chainOf info)[j].2 := by
    have hgi := walk_stored (getElem_mem hi)
    have hgj := walk_stored (getElem_mem hj)
    rw [heq] at hgi
    exact Option.some.inj (hgi.symm.trans hgj)
  have hti := h.height i _ (getElem?_eq_getElem hi)
  have htj := h.height j _ (getElem?_eq_getElem hj)
  rw [hsame] at hti
  omega

theorem Ledger.ChainAgrees.ended {acc : Account} {info : AccountInfo}
    (h : l.ChainAgrees acc info) :
    (l.walk (info.blockCount + 1) info.head).length < info.blockCount + 1 := by
  have := h.length
  unfold Ledger.chainOf at this
  omega

theorem length_le_card_of_nodup {xs : List (BlockHash × StoredBlock)}
    (hnd : (xs.map (·.1)).Nodup) (hst : ∀ x ∈ xs, l.blockGet x.1 = some x.2) :
    xs.length ≤ l.blocks.keys.card := by
  have hsub : (xs.map (·.1)).toFinset ⊆ l.blocks.keys.image (·.2) := by
    intro h hh
    obtain ⟨x, hx, rfl⟩ := List.mem_map.1 (List.mem_toFinset.1 hh)
    obtain ⟨⟨type, b⟩, hraw, -⟩ := map_eq_some_iff.1 (hst x hx)
    obtain ⟨type', -, hfind⟩ := exists_of_findSome?_eq_some hraw
    obtain ⟨b', hlk, -⟩ := map_eq_some_iff.1 hfind
    refine Finset.mem_image.2 ⟨(type', x.1), ?_, rfl⟩
    exact Finmap.mem_keys.2 (Finmap.mem_iff.2 ⟨b', hlk⟩)
  calc xs.length = (xs.map (·.1)).toFinset.card := by
        rw [toFinset_card_of_nodup hnd, length_map]
    _ ≤ (l.blocks.keys.image (·.2)).card := Finset.card_le_card hsub
    _ ≤ l.blocks.keys.card := Finset.card_image_le

end Walk

section Chains

variable {l : Ledger} (hl : WellFormedChains l) {hash : BlockHash}

include hl

theorem WellFormedChains.walk_ends (hash : BlockHash) :
    ∃ k, (l.walk k hash).length < k ∧ ((l.walk k hash).map (·.1)).Nodup := by
  cases hget : l.blockGet hash with
  | none => exact ⟨1, by simp [walk_of_none hget], by simp [walk_of_none hget]⟩
  | some b =>
    obtain ⟨acc, info, hacc, hmem⟩ := hl.covers hash (blockExists_of_blockGet hget)
    obtain ⟨x, hx, rfl⟩ := List.mem_map.1 hmem
    have hagrees := hl.agrees acc info hacc
    obtain ⟨k, hk, hsuffix⟩ := walk_of_mem hagrees.ended hx
    exact ⟨k, hk, hagrees.nodup.sublist (hsuffix.map _).sublist⟩

theorem WellFormedChains.walk_card (hash : BlockHash) :
    l.walk (l.blocks.keys.card + 1) hash = l.chainFrom hash := by
  obtain ⟨k, hk, hnd⟩ := hl.walk_ends hash
  have hcard := length_le_card_of_nodup hnd fun x => walk_stored
  unfold Ledger.chainFrom
  rw [walk_eq_take hk (_ + 1), walk_eq_take hk (Finset.card _), take_of_length_le (by omega),
    take_of_length_le hcard]

theorem WellFormedChains.chainFrom_of_some {b : StoredBlock} (hget : l.blockGet hash = some b) :
    l.chainFrom hash = (hash, b) :: l.chainFrom b.block.hashables.previous := by
  rw [← hl.walk_card, walk_of_some hget]
  rfl

theorem WellFormedChains.blockGet_zero : l.blockGet 0 = none := by
  cases hget : l.blockGet 0 with
  | none => rfl
  | some b =>
    obtain ⟨acc, info, hacc, -⟩ := hl.covers 0 (blockExists_of_blockGet hget)
    have hagrees := hl.agrees acc info hacc
    obtain ⟨x, hlast, hx⟩ := map_eq_some_iff.1 hagrees.first
    have hblw := walk_getLast? hagrees.ended hlast
    rw [(Prod.mk.inj hx).2, hget] at hblw
    cases hblw

theorem WellFormedChains.chainFrom_zero : l.chainFrom 0 = [] := walk_of_none hl.blockGet_zero

theorem WellFormedChains.not_blockExists_zero : ¬ l.blockExists 0 := by
  rw [← blockGet_isSome, hl.blockGet_zero]
  simp

theorem WellFormedChains.ne_zero (hex : l.blockExists hash) : hash ≠ 0 := by
  rintro rfl
  exact hl.not_blockExists_zero hex

theorem WellFormedChains.blocksAbove_cleared (last : BlockHash) :
    blocksAbove (if l.blockExists last then last else 0) (l.chainFrom hash) =
      blocksAbove last (l.chainFrom hash) := by
  have hst (x : BlockHash × StoredBlock) (hx : x ∈ l.chainFrom hash) : l.blockExists x.1 :=
    blockExists_of_blockGet (walk_stored hx)
  have hkeep {last : BlockHash} (hnot : ¬ l.blockExists last) :
      (l.chainFrom hash).takeWhile (fun x => x.1 ≠ last) = l.chainFrom hash := by
    rw [takeWhile_eq_self_iff]
    intro x hx
    have hne : x.1 ≠ last := by
      rintro rfl
      exact hnot (hst x hx)
    exact decide_eq_true hne
  unfold blocksAbove
  split
  · rfl
  · rename_i hlast
    rw [hkeep hlast, hkeep hl.not_blockExists_zero]

end Chains

/-! ## Calls -/

/-- What the server would still send without a limit on the number of blocks. -/
def BulkPullServer.rest (l : Ledger) (s : BulkPullServer) : List Block :=
  if s.current = s.last then
    if s.includeStart then ((l.chainFrom s.current).take 1).map fun x => x.2.block else []
  else blocksAbove s.last (l.chainFrom s.current)

def BulkPullServer.remaining (l : Ledger) (s : BulkPullServer) : List Block :=
  if s.maxCount = 0 then s.rest l
  else (s.rest l).take (s.maxCount.toNat - s.sentCount.toNat)

section Calls

variable {l : Ledger} {s : BulkPullServer}

theorem BulkPullServer.Exhausted.getNext (h : s.Exhausted) :
    s.getNext l = (none, { s with includeStart := false }) := by
  simp [BulkPullServer.getNext, h]

theorem BulkPullServer.Exhausted.remaining (h : s.Exhausted) : s.remaining l = [] := by
  have hle : s.maxCount.toNat ≤ s.sentCount.toNat := h.2
  rw [BulkPullServer.remaining, if_neg h.1, Nat.sub_eq_zero_of_le hle, take_zero]

/-- What a call below the limit does to the blocks still to send. -/
structure BulkPullServer.Takes (l : Ledger) (s : BulkPullServer)
    (next : Option Block × BulkPullServer) : Prop where
  head : next.1 = (s.rest l).head?
  tail : next.2.rest l = (s.rest l).tail
  maxCount : next.2.maxCount = s.maxCount
  sentCount : s.rest l ≠ [] → next.2.sentCount = s.sentCount + 1

theorem blocksAbove_cons_of_ne {last : BlockHash} {x : BlockHash × StoredBlock}
    {chain : List (BlockHash × StoredBlock)} (h : x.1 ≠ last) :
    blocksAbove last (x :: chain) = x.2.block :: blocksAbove last chain := by
  unfold blocksAbove
  rw [takeWhile_cons_of_pos (by simpa using h), map_cons]

theorem blocksAbove_self (last : BlockHash) : blocksAbove last (l.chainFrom last) = [] := by
  unfold blocksAbove Ledger.chainFrom
  cases hget : l.blockGet last with
  | none => rw [walk_of_none hget]; rfl
  | some b =>
    cases l.blocks.keys.card with
    | zero => rfl
    | succ k => rw [walk_of_some hget, takeWhile_cons_of_neg (by simp)]; rfl

theorem BulkPullServer.rest_eq_blocksAbove (hstart : s.includeStart = false) :
    s.rest l = blocksAbove s.last (l.chainFrom s.current) := by
  rw [BulkPullServer.rest]
  split
  · rename_i hcur
    rw [if_neg (by simp [hstart]), hcur, blocksAbove_self]
  · rfl

theorem BulkPullServer.rest_of_done (h : s.current = s.last) (hstart : s.includeStart = false) :
    s.rest l = [] := by
  rw [BulkPullServer.rest_eq_blocksAbove hstart, h, blocksAbove_self]

section

variable (hl : WellFormedChains l)

include hl

theorem WellFormedChains.getNext_at_end (h : ¬ s.Exhausted) (hcur : s.current = s.last) :
    s.Takes l (s.getNext l) := by
  cases hstart : s.includeStart with
  | false =>
    have hrest := s.rest_of_done (l := l) hcur hstart
    have hnext : s.getNext l = (none, { s with includeStart := false }) := by
      simp [BulkPullServer.getNext, hcur, hstart]
    rw [hnext]
    exact ⟨by rw [hrest]; rfl, by rw [hrest]; exact BulkPullServer.rest_of_done hcur rfl, rfl,
      fun hne => absurd hrest hne⟩
  | true =>
    have hrest : s.rest l = ((l.blockGet s.current).map (·.block)).toList := by
      rw [BulkPullServer.rest, if_pos hcur, if_pos hstart]
      cases hget : l.blockGet s.current with
      | none => rw [Ledger.chainFrom, walk_of_none hget]; rfl
      | some b => rw [hl.chainFrom_of_some hget]; rfl
    have hnext : s.getNext l = ((l.blockGet s.current).map (·.block),
        { s with current := s.last, sentCount := s.sentCount + 1, includeStart := false }) := by
      unfold BulkPullServer.getNext
      cases hget : l.blockGet s.current <;> simp [hcur, hstart, h]
    rw [hnext]
    refine ⟨?_, ?_, rfl, fun _ => rfl⟩
    · rw [hrest]
      cases l.blockGet s.current <;> rfl
    · rw [hrest, BulkPullServer.rest_of_done rfl rfl]
      cases l.blockGet s.current <;> rfl

theorem WellFormedChains.getNext_above_end (h : ¬ s.Exhausted) (hcur : s.current ≠ s.last) :
    s.Takes l (s.getNext l) := by
  have hrest : s.rest l = blocksAbove s.last (l.chainFrom s.current) := by
    rw [BulkPullServer.rest, if_neg hcur]
  cases hget : l.blockGet s.current with
  | none =>
    have hnil : s.rest l = [] := by
      rw [hrest, Ledger.chainFrom, walk_of_none hget]
      rfl
    have hnext : s.getNext l = (none,
        { s with current := s.last, sentCount := s.sentCount + 1, includeStart := false }) := by
      simp [BulkPullServer.getNext, hcur, h, hget]
    rw [hnext]
    exact ⟨by rw [hnil]; rfl, by rw [hnil]; exact BulkPullServer.rest_of_done rfl rfl, rfl,
      fun _ => rfl⟩
  | some b =>
    have hcons : s.rest l =
        b.block :: blocksAbove s.last (l.chainFrom b.block.hashables.previous) := by
      rw [hrest, hl.chainFrom_of_some hget, blocksAbove_cons_of_ne hcur]
    have hnext : s.getNext l = (some b.block,
        { s with
          current := if b.block.hashables.previous ≠ 0 then b.block.hashables.previous else s.last
          sentCount := s.sentCount + 1, includeStart := false }) := by
      simp [BulkPullServer.getNext, hcur, h, hget]
    rw [hnext]
    refine ⟨by rw [hcons]; rfl, ?_, rfl, fun _ => rfl⟩
    rw [hcons, tail_cons, BulkPullServer.rest_eq_blocksAbove rfl]
    by_cases hprev : b.block.hashables.previous = 0
    · -- the block was the open block
      rw [if_neg (by simp [hprev]), blocksAbove_self, hprev, hl.chainFrom_zero]
      rfl
    · rw [if_pos hprev]

theorem WellFormedChains.getNext_takes (h : ¬ s.Exhausted) : s.Takes l (s.getNext l) := by
  by_cases hcur : s.current = s.last
  · exact hl.getNext_at_end h hcur
  · exact hl.getNext_above_end h hcur

theorem WellFormedChains.getNext_head (s : BulkPullServer) :
    (s.getNext l).1 = (s.remaining l).head? := by
  by_cases h : s.Exhausted
  · rw [h.getNext, h.remaining]
    rfl
  · rw [(hl.getNext_takes h).head, BulkPullServer.remaining]
    split
    · rfl
    · rename_i hmax
      have hlt : s.sentCount < s.maxCount := by
        by_contra hge
        exact h ⟨hmax, BitVec.not_lt.1 hge⟩
      have hpos : 0 < s.maxCount.toNat - s.sentCount.toNat := Nat.sub_pos_of_lt hlt
      rw [head?_take, if_neg (by omega)]

theorem WellFormedChains.getNext_tail (s : BulkPullServer) :
    (s.getNext l).2.remaining l = (s.remaining l).tail := by
  by_cases h : s.Exhausted
  · have hstill : ({ s with includeStart := false } : BulkPullServer).Exhausted := h
    rw [h.getNext, hstill.remaining, h.remaining]
    rfl
  · obtain ⟨-, htail, hmaxCount, hsentCount⟩ := hl.getNext_takes h
    rw [BulkPullServer.remaining, BulkPullServer.remaining, hmaxCount, htail]
    split
    · rfl
    · rename_i hmax
      have hlt : s.sentCount.toNat < s.maxCount.toNat := by
        by_contra hge
        exact h ⟨hmax, Nat.le_of_not_lt hge⟩
      cases hrest : s.rest l with
      | nil => simp
      | cons b bs =>
        have hsent : (s.getNext l).2.sentCount.toNat = s.sentCount.toNat + 1 := by
          have := s.maxCount.isLt
          rw [hsentCount (by simp [hrest]), BitVec.toNat_add]
          exact Nat.mod_eq_of_lt (by simp; omega)
        obtain ⟨k, hk⟩ : ∃ k, s.maxCount.toNat - s.sentCount.toNat = k + 1 :=
          ⟨s.maxCount.toNat - s.sentCount.toNat - 1, by omega⟩
        rw [hsent, hk, tail_cons, take_succ_cons, tail_cons]
        congr 1
        omega

theorem WellFormedChains.rest_setCurrentEnd (req : BulkPull) :
    (req.setCurrentEnd l).rest l = req.range l := by
  rw [BulkPull.range]
  split
  · rename_i hstart
    unfold BulkPull.setCurrentEnd BulkPullServer.rest
    simp only [hstart, ↓reduceIte]
    by_cases heq : req.last = req.start
    · rw [heq, if_pos hstart, if_pos rfl]
    · have hne : req.start ≠ if l.blockExists req.last then req.last else 0 := by
        split
        · exact Ne.symm heq
        · exact hl.ne_zero hstart
      rw [if_neg hne, if_neg heq, hl.blocksAbove_cleared]
  · rename_i hstart
    rw [BulkPullServer.rest_eq_blocksAbove (by simp [BulkPull.setCurrentEnd, hstart])]
    unfold BulkPull.setCurrentEnd
    simp only [hstart, Bool.false_eq_true, ↓reduceIte]
    cases hacc : l.accountGet req.start with
    | none => exact blocksAbove_self _
    | some info =>
      by_cases hlast : l.blockExists req.last
      · simp only [hlast, ↓reduceIte, true_and, hl.ne_zero hlast, ne_eq, not_false_eq_true]
        split
        · exact blocksAbove_self _
        · rfl
      · simp only [hlast, Bool.false_eq_true, ↓reduceIte, ne_eq, not_true_eq_false, false_and]
        have hcleared := @WellFormedChains.blocksAbove_cleared l hl info.head req.last
        simpa [hlast] using hcleared

theorem WellFormedChains.remaining_setCurrentEnd (req : BulkPull) :
    (req.setCurrentEnd l).remaining l = req.expected l := by
  rw [BulkPullServer.remaining, hl.rest_setCurrentEnd, BulkPull.expected]
  cases hpresent : req.isCountPresent with
  | false => simp [BulkPull.setCurrentEnd, hpresent]
  | true =>
    by_cases hcnt : req.count = 0
    · simp [BulkPull.setCurrentEnd, hpresent, hcnt]
    · rw [if_neg (by simpa [BulkPull.setCurrentEnd, hpresent] using hcnt), if_pos ⟨rfl, hcnt⟩]
      simp [BulkPull.setCurrentEnd, hpresent]

end

end Calls

/-- The calls of `get_next` return the blocks that the request asks for, in order, and null in every
call after them. -/
theorem bulk_pull_output {l : Ledger} (hl : WellFormedChains l) (req : BulkPull) (n : Nat) :
    Cursor.call (BulkPullServer.getNext l) n (req.setCurrentEnd l) = (req.expected l)[n]? := by
  have hremains := hl.remaining_setCurrentEnd req
  refine Cursor.call_eq_getElem? (R := fun s xs => s.remaining l = xs) ?_ ?_ hremains n
  · rintro s _ rfl
    exact hl.getNext_head s
  · rintro s _ rfl
    exact hl.getNext_tail s

open Sample

/-- The genesis account has sent twice; a pull from its second send ends above the genesis block. -/
theorem bulk_pull_output_receives :
    ∃ l, run receives = some l ∧
      ∀ n, Cursor.call (BulkPullServer.getNext l) n
        (BulkPull.setCurrentEnd l
          ⟨Sample.hash sendB, Sample.hash params.genesisBlock, 0, false⟩) =
        [sendB, sendZero][n]? := by
  obtain ⟨l, hl, hexpected⟩ := map_eq_some_iff.1
    (show (run receives).map (BulkPull.expected ·
      ⟨Sample.hash sendB, Sample.hash params.genesisBlock, 0, false⟩) =
      some [sendB, sendZero] by decide +kernel)
  obtain ⟨L, h⟩ := (reached_of_no_epochLink (by decide +kernel) hl).holds hashAssumptions
  have hchains := (h.represents.chainStructure hashAssumptions).wellFormed
  refine ⟨l, hl, fun n => ?_⟩
  rw [← hexpected]
  exact bulk_pull_output hchains _ n

end Futurehead
