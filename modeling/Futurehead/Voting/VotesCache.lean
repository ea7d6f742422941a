import Futurehead.Base.UniqueQueue
import Futurehead.Wire.Vote

/-!
# The cache of local votes (`votes_cache`, `futurehead/node/voting`)

The cache keeps the votes of the local representatives for each hash. The number of hashes is limited,
and the limit is computed from the number of representatives in every call. A new hash takes the place of
one old hash, whatever the limit is. If there are more representatives than the cache may have hashes, the
limit is zero and the first hash takes the place of none.
-/

namespace Futurehead

open List Function

def maxCache (isTestNetwork : Bool) : Nat := if isTestNetwork then 2 else 64 * 1024

structure VotesCache where
  /-- `cached_votes` in the order of `tag_sequence`, one for each hash. -/
  cache : UniqueQueue BlockHash (List Vote)
  /-- Ghost: the votes added for a hash since its entry was made, the last one first. -/
  added : BlockHash → List Vote

namespace VotesCache

/-- A new vote replaces the one of the same account. -/
def addVote (vote : Vote) : List Vote → List Vote
  | [] => [vote]
  | v :: votes => if v.account = vote.account then vote :: votes else v :: addVote vote votes

def size (s : VotesCache) : Nat := s.cache.entries.length

/-- Clean old votes. To pop from an empty sequence has no result. -/
def clean (maxCacheSize : Nat) (s : VotesCache) : Option (UniqueQueue BlockHash (List Vote)) :=
  if maxCacheSize ≤ s.size then if s.size = 0 then none else some s.cache.popFront else some s.cache

/-- The body of the loop of `add`. -/
def addHash (maxCacheSize : Nat) (vote : Vote) (s : VotesCache) (hash : BlockHash) : Option VotesCache :=
  match s.cache.find? hash with
  | none =>
    -- Insert new votes (new hash)
    (s.clean maxCacheSize).map fun cache =>
      ⟨cache.emplaceBack hash [vote], Function.update s.added hash [vote]⟩
  | some _ =>
    -- Insert new votes (old hash)
    some ⟨s.cache.modify hash (addVote vote), Function.update s.added hash (vote :: s.added hash)⟩

/-- `add`, with the number of local representatives. A vote that carries a block makes `boost::get`
throw. -/
def add (isTestNetwork : Bool) (voting : Nat) (s : VotesCache) (vote : Vote) : Option VotesCache :=
  if voting = 0 then some s
  else vote.blocks.foldlM (fun s block =>
    match block with
    | .hash hash => s.addHash (maxCache isTestNetwork / max voting 1) vote hash
    | .block _ => none) s

def find (s : VotesCache) (hash : BlockHash) : List Vote := (s.cache.find? hash).getD []

def remove (s : VotesCache) (hash : BlockHash) : VotesCache := { s with cache := s.cache.erase hash }

def empty : VotesCache := ⟨.empty, fun _ => []⟩

inductive Call where
  | add (voting : Nat) (vote : Vote)
  | find (hash : BlockHash)
  | remove (hash : BlockHash)

def exec (isTestNetwork : Bool) (s : VotesCache) : Call → Option VotesCache
  | .add voting vote => s.add isTestNetwork voting vote
  | .find _ => some s
  | .remove hash => some (s.remove hash)

/-- The vote names its blocks by hash, as those of the generator do. -/
def ByHash (vote : Vote) : Prop := ∃ hashes : List BlockHash, vote.blocks = hashes.map .hash

/-- Votes are given by hash. -/
def Call.Ok : Call → Prop
  | .add _ vote => ByHash vote
  | _ => True

variable {net : Bool} {limit voting : Nat} {vote : Vote} {s s' : VotesCache} {hash : BlockHash}

theorem addHash_cases (h : s.addHash limit vote hash = some s') :
    (∃ cache, s.cache.find? hash = none ∧
      (s.size < limit ∧ cache = s.cache ∨ limit ≤ s.size ∧ 0 < s.size ∧ cache = s.cache.popFront) ∧
      s' = ⟨cache.emplaceBack hash [vote], Function.update s.added hash [vote]⟩) ∨
    ∃ votes, s.cache.find? hash = some votes ∧
      s' = ⟨s.cache.modify hash (addVote vote), Function.update s.added hash (vote :: s.added hash)⟩ := by
  unfold addHash at h
  cases hfind : s.cache.find? hash with
  | none =>
    rw [hfind] at h
    obtain ⟨cache, hcache, rfl⟩ := Option.map_eq_some_iff.1 h
    refine .inl ⟨cache, rfl, ?_, rfl⟩
    unfold clean at hcache
    split at hcache
    · rename_i hfull
      split at hcache
      · cases hcache
      · rename_i hne
        exact .inr ⟨hfull, Nat.pos_of_ne_zero hne, (Option.some.inj hcache).symm⟩
    · rename_i hroom
      exact .inl ⟨Nat.lt_of_not_le hroom, (Option.some.inj hcache).symm⟩
  | some votes =>
    rw [hfind] at h
    exact .inr ⟨votes, rfl, (Option.some.inj h).symm⟩

/-! ## The number of hashes -/

theorem length_emplaceBack {q : UniqueQueue BlockHash (List Vote)} (h : q.find? hash = none)
    (votes : List Vote) : (q.emplaceBack hash votes).entries.length = q.entries.length + 1 := by
  unfold UniqueQueue.emplaceBack
  rw [dif_neg (UniqueQueue.find?_eq_none.1 h), length_append, length_singleton]

theorem find?_popFront_none {q : UniqueQueue BlockHash (List Vote)} (h : q.find? hash = none) :
    q.popFront.find? hash = none := UniqueQueue.find?_popFront.elim (·.trans h) id

theorem addHash_size (h : s.addHash limit vote hash = some s') :
    s.size ≤ s'.size ∧ s'.size ≤ max s.size limit ∧ 0 < s'.size := by
  obtain ⟨cache, hfind, ⟨hroom, rfl⟩ | ⟨-, hpos, rfl⟩, rfl⟩ | ⟨votes, hfind, rfl⟩ := addHash_cases h
  · have hlen := length_emplaceBack hfind [vote]
    unfold size at hroom ⊢
    dsimp only
    omega
  · have hlen := length_emplaceBack (find?_popFront_none hfind) [vote]
    unfold size at hpos ⊢
    simp only [UniqueQueue.popFront, length_tail] at hlen ⊢
    omega
  · have hsize : size ⟨s.cache.modify hash (addVote vote), s.added⟩ = s.size := length_map _
    have hpos : 0 < s.size := length_pos_of_mem (UniqueQueue.mem_of_find? hfind)
    unfold size at hsize hpos ⊢
    dsimp only at hsize ⊢
    omega

theorem addHash_isSome (vote : Vote) (hash : BlockHash) (h : 0 < limit ∨ 0 < s.size) :
    ∃ s', s.addHash limit vote hash = some s' := by
  unfold addHash
  split
  · have hclean : ∃ cache, s.clean limit = some cache := by
      unfold clean
      split
      · exact ⟨_, if_neg (by omega)⟩
      · exact ⟨_, rfl⟩
    obtain ⟨cache, hcache⟩ := hclean
    exact ⟨_, by rw [hcache]; rfl⟩
  · exact ⟨_, rfl⟩

theorem addHash_eq_none (hlimit : limit = 0) (hsize : s.size = 0) :
    s.addHash limit vote hash = none := by
  have hfind : s.cache.find? hash = none := by
    simp [UniqueQueue.find?, length_eq_zero_iff.1 hsize]
  unfold addHash
  rw [hfind]
  simp [clean, hlimit, hsize]

theorem addHashes_spec (vote : Vote) (h : 0 < limit ∨ 0 < s.size) (hashes : List BlockHash) :
    ∃ s', hashes.foldlM (addHash limit vote) s = some s' ∧ s.size ≤ s'.size ∧
      s'.size ≤ max s.size limit := by
  induction hashes generalizing s with
  | nil => exact ⟨s, rfl, le_rfl, le_max_left _ _⟩
  | cons hash hashes ih =>
    obtain ⟨s1, hadd⟩ := addHash_isSome vote hash h
    obtain ⟨hle1, hmax1, hpos1⟩ := addHash_size hadd
    obtain ⟨s', hrest, hle, hmax⟩ := ih (.inr hpos1)
    refine ⟨s', ?_, by omega, by omega⟩
    rw [foldlM_cons, hadd]
    exact hrest

theorem add_eq {hashes : List BlockHash} (hvote : vote.blocks = hashes.map .hash) (hvot : 0 < voting) :
    s.add net voting vote = hashes.foldlM (addHash (maxCache net / voting) vote) s := by
  unfold add
  rw [if_neg (by omega), hvote, foldlM_map, Nat.max_eq_left hvot]

theorem add_bounded_iff (hvote : ByHash vote) (hvot : 0 < voting) :
    (∃ s', s.add net voting vote = some s' ∧ s'.size ≤ max 1 (maxCache net / voting)) ↔
      s.size ≤ max 1 (maxCache net / voting) ∧
        (maxCache net / voting = 0 → s.size = 0 → vote.blocks = []) := by
  obtain ⟨hashes, hhs⟩ := hvote
  rw [add_eq hhs hvot]
  by_cases hroom : 0 < maxCache net / voting ∨ 0 < s.size
  · obtain ⟨s', hadd, hle, hmax⟩ := addHashes_spec vote hroom hashes
    rw [hadd]
    constructor
    · rintro ⟨_, heq, hbound⟩
      cases heq
      exact ⟨hle.trans hbound, by omega⟩
    · rintro ⟨hbound, -⟩
      exact ⟨s', rfl, by omega⟩
  · have hzero : maxCache net / voting = 0 := Nat.eq_zero_of_not_pos fun h => hroom (.inl h)
    cases hashes with
    | nil => exact ⟨fun _ => ⟨by omega, fun _ _ => hhs⟩, fun _ => ⟨s, rfl, by omega⟩⟩
    | cons hash hashes =>
      rw [foldlM_cons, addHash_eq_none hzero (by omega)]
      constructor
      · rintro ⟨_, h, -⟩
        cases h
      · rintro ⟨-, hnone⟩
        rw [hhs] at hnone
        cases hnone hzero (by omega)

/-! ## The votes of a hash -/

/-- A hash has one vote for each account, the last one that was added. -/
def Latest (s : VotesCache) : Prop :=
  ∀ hash votes, s.cache.find? hash = some votes → (votes.map Vote.account).Nodup ∧
    ∀ account, votes.find? (·.account = account) = (s.added hash).find? (·.account = account)

theorem find?_addVote (vote : Vote) (votes : List Vote) (acc : Account) :
    (addVote vote votes).find? (·.account = acc) =
      if vote.account = acc then some vote else votes.find? (·.account = acc) := by
  induction votes with
  | nil => by_cases ha : vote.account = acc <;> simp [addVote, ha]
  | cons v votes ih =>
    unfold addVote
    split
    · rename_i hsame
      by_cases ha : vote.account = acc <;> simp [hsame, ha]
    · rename_i hne
      by_cases ha : v.account = acc
      · subst ha
        simp [Ne.symm hne]
      · simp [ha, ih]

theorem map_account_addVote (vote : Vote) (votes : List Vote) :
    (addVote vote votes).map Vote.account = if vote.account ∈ votes.map Vote.account then
      votes.map Vote.account else votes.map Vote.account ++ [vote.account] := by
  induction votes with
  | nil => rfl
  | cons v votes ih =>
    unfold addVote
    split
    · rename_i hsame
      simp [hsame]
    · rename_i hne
      rw [map_cons, ih]
      by_cases hmem : vote.account ∈ votes.map Vote.account <;> simp [hmem, Ne.symm hne]

theorem nodup_addVote {votes : List Vote} (h : (votes.map Vote.account).Nodup) (vote : Vote) :
    ((addVote vote votes).map Vote.account).Nodup := by
  rw [map_account_addVote]
  split
  · exact h
  · rename_i hnew
    exact nodup_append.2 ⟨h, nodup_singleton _, by
      rintro a ha b hb rfl
      exact hnew (mem_singleton.1 hb ▸ ha)⟩

theorem Latest.addHash (h : s.Latest) (hadd : s.addHash limit vote hash = some s') : s'.Latest := by
  intro hash' votes' hfind'
  obtain ⟨cache, hfind, hcache, rfl⟩ | ⟨votes, hfind, rfl⟩ := addHash_cases hadd
  · have hcache' (k) : cache.find? k = s.cache.find? k ∨ cache.find? k = none := by
      obtain ⟨-, rfl⟩ | ⟨-, -, rfl⟩ := hcache
      · exact .inl rfl
      · exact UniqueQueue.find?_popFront
    have hnew : cache.find? hash = none := (hcache' hash).elim (·.trans hfind) id
    by_cases hsame : hash' = hash
    · subst hsame
      have hself := (UniqueQueue.behind_emplaceBack (UniqueQueue.find?_eq_none.1 hnew) [vote] ∅).find?
      obtain rfl := Option.some.inj (hself.symm.trans hfind')
      simp
    · dsimp only at hfind' ⊢
      rw [UniqueQueue.find?_emplaceBack_ne hsame] at hfind'
      obtain hold | hnone := hcache' hash'
      · rw [update_of_ne hsame]
        exact h hash' votes' (hold.symm.trans hfind')
      · rw [hnone] at hfind'
        cases hfind'
  · dsimp only at hfind' ⊢
    rw [UniqueQueue.find?_modify] at hfind'
    by_cases hsame : hash' = hash
    · subst hsame
      rw [if_pos rfl, hfind] at hfind'
      obtain rfl := Option.some.inj hfind'
      obtain ⟨hnd, hlat⟩ := h hash' votes hfind
      refine ⟨nodup_addVote hnd vote, fun acc => ?_⟩
      rw [find?_addVote, update_self, find?_cons, hlat]
      by_cases ha : vote.account = acc <;> simp [ha]
    · rw [if_neg hsame] at hfind'
      rw [update_of_ne hsame]
      exact h hash' votes' hfind'

/-! ## Histories -/

/-- What holds of the cache in every history. -/
structure Good (net : Bool) (s : VotesCache) : Prop where
  size_le : s.size ≤ maxCache net
  latest : s.Latest

theorem Good.exec {call : Call} (h : s.Good net) (hok : call.Ok) (hexec : s.exec net call = some s') :
    s'.Good net := by
  cases call with
  | add voting vote =>
    obtain rfl | hvot := Nat.eq_zero_or_pos voting
    · cases hexec
      exact h
    · obtain ⟨hashes, hhs⟩ := hok
      have hlimit : maxCache net / voting ≤ maxCache net := Nat.div_le_self ..
      rw [show s.exec net (.add voting vote) = _ from add_eq hhs hvot] at hexec
      clear hhs
      induction hashes generalizing s with
      | nil =>
        cases hexec
        exact h
      | cons hash hashes ih =>
        rw [foldlM_cons] at hexec
        obtain ⟨s1, hadd, hrest⟩ := Option.bind_eq_some_iff.1 hexec
        have hsize := h.size_le
        obtain ⟨-, hmax, -⟩ := addHash_size hadd
        exact ih ⟨by omega, h.latest.addHash hadd⟩ hrest
  | find _ =>
    cases hexec
    exact h
  | remove hash =>
    cases hexec
    refine ⟨UniqueQueue.length_erase_le.trans h.size_le, fun hash' votes hfind => ?_⟩
    by_cases hsame : hash' = hash
    · subst hsame
      rw [remove, UniqueQueue.find?_erase_self] at hfind
      cases hfind
    · rw [remove, UniqueQueue.find?_erase_ne hsame] at hfind
      exact h.latest hash' votes hfind

/-- In every history, the limit holds after a call exactly if there were not more hashes before, and the
limit is not zero when there is nothing to drop. Each hash has one vote for each account, the last one
that was added. -/
theorem votes_cache_iff (hrun : Reaches (fun s call s' => exec net s call = some s')
      (fun _ call => call.Ok) empty s) :
    (∀ voting vote, ByHash vote → 0 < voting →
      ((∃ s', s.add net voting vote = some s' ∧ s'.size ≤ max 1 (maxCache net / voting)) ↔
        s.size ≤ max 1 (maxCache net / voting) ∧
          (maxCache net / voting = 0 → s.size = 0 → vote.blocks = []))) ∧
    (∀ vote, s.add net 0 vote = some s ∧ s.size ≤ maxCache net) ∧
    ∀ hash votes, s.cache.find? hash = some votes →
      s.find hash = votes ∧ (votes.map Vote.account).Nodup ∧
        ∀ acc, votes.find? (·.account = acc) = (s.added hash).find? (·.account = acc) := by
  have hgood : s.Good net := hrun.invariant (I := Good net)
    ⟨Nat.zero_le _, fun _ _ hfind => by cases hfind⟩ fun _ _ _ h hok hexec => h.exec hok hexec
  refine ⟨fun _ _ hvote hvot => add_bounded_iff hvote hvot, fun _ => ⟨rfl, hgood.size_le⟩,
    fun hash votes hfind => ⟨?_, hgood.latest hash votes hfind⟩⟩
  rw [find, hfind]
  rfl

end VotesCache

namespace Sample

def localVote (account : Account) (hash : BlockHash) : Vote := ⟨account, 0, 1, [.hash hash]⟩

/-- The calls in the test network, whose cache has two hashes, with the number of representatives. -/
def votesCache (calls : List (Nat × Vote)) : Option VotesCache :=
  calls.foldlM (fun s call => s.add true call.1 call.2) .empty

end Sample

open Sample

/-- Three representatives have nothing to drop. With one more representative, the two hashes are more than
the limit. -/
theorem votes_cache_exceeded :
    votesCache [(3, localVote 7 1)] = none ∧
    maxCache true / 2 = 1 ∧
    (votesCache [(1, localVote 7 1), (1, localVote 7 2),
      (2, localVote 7 3)]).map VotesCache.size = some 2 := by
  decide +kernel

open VotesCache in
/-- Two representatives vote for a hash, and then there are two and one of them votes again. -/
theorem votes_cache_replaced :
    ∃ s votes, votesCache [(1, localVote 7 1), (1, localVote 8 1)] = some s ∧
      s.cache.find? 1 = some votes ∧ (votes.map Vote.account).Nodup ∧
      ∃ s', s.add true 2 (localVote 7 1) = some s' ∧ s'.size ≤ 1 := by
  have hok (acc : Account) : Call.Ok (.add 1 (localVote acc 1)) := ⟨[1], rfl⟩
  obtain ⟨hlimit, -, hvs⟩ := @votes_cache_iff true _
    (.tail (a := .add 1 (localVote 8 1))
      (.tail (a := .add 1 (localVote 7 1)) .refl (hok 7) rfl) (hok 8) rfl)
  exact ⟨_, _, rfl, rfl, (hvs 1 _ rfl).2.1,
    (hlimit 2 (localVote 7 1) ⟨[1], rfl⟩ (by decide)).2 (by decide +kernel)⟩

end Futurehead
