import Futurehead.Base.Run
import Futurehead.Wire.Block

/-!
# Votes and the uniquers (`futurehead/secure/common`, `futurehead/lib/blocks`)

A vote names its blocks by hash or carries them. `vote_uniquer` keeps one copy of each vote, found by
`vote::full_hash`, and `block_uniquer` one copy of each block, found by `block::full_hash`. Both hold
weak pointers: an entry may expire at any time.
-/

namespace Futurehead

open List Option

/-- `boost::variant<std::shared_ptr<block>, block_hash>`. -/
inductive VoteBlock where
  | block (b : Block)
  | hash (h : BlockHash)
  deriving DecidableEq

structure Vote where
  account : Account
  signature : Signature
  sequence : BitVec 64
  blocks : List VoteBlock
  deriving DecidableEq

/-! ## Hashing -/

section Votes

variable (digest : Bytes → BlockHash)

/-- `iterate_vote_blocks_as_hash`. -/
def VoteBlock.toHash : VoteBlock → BlockHash
  | .block b => digest b.hashables.hashBytes
  | .hash h => h

namespace Vote

open Wire

variable (v : Vote)

/-- `hash_prefix`: the bytes `"vote "`. -/
def hashPrefix : Bytes := [0x76, 0x6f, 0x74, 0x65, 0x20]

/-- Only a vote that carries a single block is hashed without the text in front. -/
def prefixed : Bool :=
  match v.blocks with
  | [] => false
  | [.block _] => false
  | _ => true

def hashes : List BlockHash := v.blocks.map (VoteBlock.toHash digest)

/-- What `vote::hash` gives to `blake2b`. -/
def hashBytes : Bytes :=
  (if v.prefixed then hashPrefix else []) ++ (v.hashes digest).flatMap u256.write ++
    u64.write v.sequence

def hash : BlockHash := digest (v.hashBytes digest)

/-- What `vote::full_hash` gives to `blake2b`. The sizes it takes of the account and of the
signature are those of a pointer. -/
def fullHashBytes : Bytes :=
  u256.write (v.hash digest) ++ (u256.write v.account).take 8 ++ (u512.write v.signature).take 8

def fullHash : BlockHash := digest (v.fullHashBytes digest)

end Vote

/-- What `block::full_hash` gives to `blake2b`. -/
def Block.fullHashBytes (b : Block) : Bytes :=
  Wire.u256.write (digest b.hashables.hashBytes) ++ Wire.u512.write b.signature ++
    Wire.u64.write b.work

def Block.fullHash (b : Block) : BlockHash := digest (b.fullHashBytes digest)

/-! ## The uniquers -/

/-- The map of a uniquer. An entry without a value is a weak pointer that has expired. -/
abbrev Cache (α : Type) := Table BlockHash (Option α)

namespace Cache

variable {α : Type}

/-- The live value under a key. -/
def get (cache : Cache α) (key : BlockHash) : Option α := (cache.lookup key).join

/-- The entries that were looked at are erased if they have expired. -/
def cleanup (cache : Cache α) (offsets : List BlockHash) : Cache α :=
  offsets.foldl (fun cache key =>
    match cache.lookup key with
    | some none => cache.erase key
    | _ => cache) cache

/-- `unique`: the live value under the key, or else the new one. `offsets` are the random choices of
the cleanup. That the map has fewer than `2^32` entries is not checked here. -/
def unique (cache : Cache α) (key : BlockHash) (x : α) (offsets : List BlockHash) : α × Cache α :=
  match cache.get key with
  | some existing => (existing, cache.cleanup offsets)
  | none => (x, Cache.cleanup (cache.insert key (some x)) offsets)

/-- The last owner of a value lets go of it. -/
def expire (cache : Cache α) (key : BlockHash) : Cache α :=
  if key ∈ cache then cache.insert key none else cache

end Cache

/-- `vote_uniquer` with the `block_uniquer` it uses. -/
structure Uniquers where
  votes : Cache Vote := ∅
  blocks : Cache Block := ∅

/-- What happens to the uniquers. -/
inductive Uniquers.Event where
  | vote (v : Vote) (blockOffsets offsets : List BlockHash)
  | block (b : Block) (offsets : List BlockHash)
  | expireVote (key : BlockHash)
  | expireBlock (key : BlockHash)

namespace Uniquers

variable (u : Uniquers)

/-- `block_uniquer::unique`. -/
def uniqueBlock (b : Block) (offsets : List BlockHash) : Block × Uniquers :=
  let (result, blocks) := u.blocks.unique (b.fullHash digest) b offsets
  (result, { u with blocks := blocks })

/-- The part of `vote_uniquer::unique` that looks up the vote. -/
def uniqueByKey (v : Vote) (offsets : List BlockHash) : Vote × Uniquers :=
  let (result, votes) := u.votes.unique (v.fullHash digest) v offsets
  (result, { u with votes := votes })

/-- `vote_uniquer::unique`. A block in front of the list is replaced by its unique copy first. -/
def unique (v : Vote) (blockOffsets offsets : List BlockHash) : Vote × Uniquers :=
  match v.blocks with
  | [] => (v, u)
  | .block b :: rest =>
    let (b, u) := u.uniqueBlock digest b blockOffsets
    u.uniqueByKey digest { v with blocks := .block b :: rest } offsets
  | .hash _ :: _ => u.uniqueByKey digest v offsets

def exec : Event → Uniquers
  | .vote v blockOffsets offsets => (u.unique digest v blockOffsets offsets).2
  | .block b offsets => (u.uniqueBlock digest b offsets).2
  | .expireVote key => { u with votes := u.votes.expire key }
  | .expireBlock key => { u with blocks := u.blocks.expire key }

end Uniquers

/-! ## What a key says -/

/-- What two votes with the same key share: the hashes, the sequence, and the first eight bytes of
the account and of the signature. -/
structure Vote.SameKey (v w : Vote) : Prop where
  prefixed : v.prefixed = w.prefixed
  hashes : v.hashes digest = w.hashes digest
  sequence : v.sequence = w.sequence
  account : (Wire.u256.write v.account).take 8 = (Wire.u256.write w.account).take 8
  signature : (Wire.u512.write v.signature).take 8 = (Wire.u512.write w.signature).take 8

/-- Everything that is hashed for the keys of a block was hashed before. -/
structure Block.Given (inputs : Set Bytes) (b : Block) : Prop where
  hash : b.hashables.hashBytes ∈ inputs
  fullHash : b.fullHashBytes digest ∈ inputs

/-- The same for a vote and the block in front. -/
structure Vote.Given (inputs : Set Bytes) (v : Vote) : Prop where
  hash : v.hashBytes digest ∈ inputs
  fullHash : v.fullHashBytes digest ∈ inputs
  front : ∀ b, v.blocks.head? = some (.block b) → b.Given digest inputs

variable {digest} {inputs : Set Bytes}

theorem Vote.hashBytes_eq_iff {v w : Vote} : v.hashBytes digest = w.hashBytes digest ↔
    v.prefixed = w.prefixed ∧ v.hashes digest = w.hashes digest ∧ v.sequence = w.sequence := by
  refine ⟨fun heq => ?_, fun ⟨hp, hh, hs⟩ => by simp [hashBytes, hp, hh, hs]⟩
  unfold hashBytes at heq
  -- the length says whether there is a text in front, and how many hashes there are
  have hlen := congrArg List.length heq
  have hsize : Wire.u256.size = 32 := rfl
  simp only [length_append, Format.length_flatMap_write, Format.length_write, hsize,
    apply_ite List.length] at hlen
  have htext : hashPrefix.length = 5 := rfl
  rw [htext, length_nil] at hlen
  have hp : v.prefixed = w.prefixed := by
    cases hv : v.prefixed <;> cases hw : w.prefixed <;> simp [hv, hw] at hlen ⊢ <;> omega
  rw [hp] at heq hlen
  have hcnt : (v.hashes digest).length = (w.hashes digest).length := by omega
  obtain ⟨hfro, hseq⟩ := append_inj heq (by simp [hcnt])
  exact ⟨hp, Wire.u256.flatMap_write_inj hcnt (append_cancel_left hfro), Wire.u64.write_inj.1 hseq⟩

section Keys

variable (hinj : Set.InjOn digest inputs)
include hinj

theorem Vote.fullHash_eq_iff {v w : Vote} (hv : v.Given digest inputs)
    (hw : w.Given digest inputs) : v.fullHash digest = w.fullHash digest ↔ v.SameKey digest w := by
  have hhash : v.hash digest = w.hash digest ↔
      v.prefixed = w.prefixed ∧ v.hashes digest = w.hashes digest ∧ v.sequence = w.sequence :=
    (hinj.eq_iff hv.hash hw.hash).trans hashBytes_eq_iff
  constructor
  · intro heq
    have hbytes := hinj hv.fullHash hw.fullHash heq
    unfold fullHashBytes at hbytes
    rw [append_assoc, append_assoc, Format.write_append_inj, hhash] at hbytes
    obtain ⟨⟨hp, hh, hs⟩, hrest⟩ := hbytes
    obtain ⟨ha, hsig⟩ := append_inj hrest (by simp)
    exact ⟨hp, hh, hs, ha, hsig⟩
  · rintro ⟨hp, hh, hs, ha, hsig⟩
    unfold fullHash fullHashBytes
    rw [hhash.2 ⟨hp, hh, hs⟩, ha, hsig]

theorem Block.fullHash_eq_iff {b b' : Block} (hb : b.Given digest inputs)
    (hb' : b'.Given digest inputs) :
    b.fullHash digest = b'.fullHash digest ↔ b = b' ∨
      b.hashables.Twins b'.hashables ∧ b.signature = b'.signature ∧ b.work = b'.work := by
  have hhash : digest b.hashables.hashBytes = digest b'.hashables.hashBytes ↔
      b.hashables = b'.hashables ∨ b.hashables.Twins b'.hashables := by
    rw [hinj.eq_iff hb.hash hb'.hash, Hashables.hashBytes_eq, Hashables.hashInput_eq_iff]
  unfold fullHash
  rw [hinj.eq_iff hb.fullHash hb'.fullHash]
  unfold fullHashBytes
  rw [append_assoc, append_assoc, Format.write_append_inj, Format.write_append_inj,
    Format.write_inj, hhash]
  obtain ⟨h, sig, work⟩ := b
  obtain ⟨h', signature', work'⟩ := b'
  simp only [Block.mk.injEq]
  tauto

end Keys

/-! ## Histories -/

namespace Cache

variable {α : Type} {cache : Cache α} {key k : BlockHash} {x : α} {offsets : List BlockHash}

theorem get_cleanup (cache : Cache α) (offsets : List BlockHash) (k : BlockHash) :
    (cache.cleanup offsets).get k = cache.get k := by
  induction offsets generalizing cache with
  | nil => rfl
  | cons key offsets ih =>
    unfold cleanup at ih ⊢
    rw [foldl_cons, ih]
    split
    · next hexp =>
      unfold get
      rw [Finmap.lookup_erase_eq]
      split
      · next heq => rw [heq, hexp]; rfl
      · rfl
    · rfl

theorem get_insert (cache : Cache α) (entry : Option α) :
    get (cache.insert key entry) k = if k = key then entry else cache.get k := by
  unfold get
  rw [Finmap.lookup_insert_eq]
  split <;> rfl

theorem unique_fst : (cache.unique key x offsets).1 = (cache.get key).getD x := by
  unfold unique
  split <;> simp_all

theorem get_unique : (cache.unique key x offsets).2.get k =
    if k = key then some (cache.unique key x offsets).1 else cache.get k := by
  unfold unique
  split
  · next existing hget =>
    rw [get_cleanup]
    split
    · next heq => rw [heq, hget]
    · rfl
  · rw [get_cleanup, get_insert]

theorem get_of_expire (h : (cache.expire key).get k = some x) : cache.get k = some x := by
  unfold expire at h
  split at h
  · rw [get_insert] at h
    split at h
    · cases h
    · exact h
  · exact h

end Cache

namespace Uniquers

/-- Every live entry is found under its own key. -/
structure Sound (digest : Bytes → BlockHash) (inputs : Set Bytes) (u : Uniquers) : Prop where
  votes : ∀ {k w}, u.votes.get k = some w →
    w.fullHash digest = k ∧ w.Given digest inputs ∧ w.blocks ≠ []
  blocks : ∀ {k b}, u.blocks.get k = some b → b.fullHash digest = k ∧ b.Given digest inputs

/-- What an event brings was hashed before. -/
def Event.Given (digest : Bytes → BlockHash) (inputs : Set Bytes) : Event → Prop
  | .vote v _ _ => v.Given digest inputs
  | .block b _ => b.Given digest inputs
  | _ => True

variable {u : Uniquers} {v : Vote} {b b' : Block} {rest : List VoteBlock}
  {blockOffsets offsets : List BlockHash}

theorem Sound.uniqueBlock_fst (hu : u.Sound digest inputs) (hb : b.Given digest inputs) :
    (u.uniqueBlock digest b offsets).1.fullHash digest = b.fullHash digest ∧
      (u.uniqueBlock digest b offsets).1.Given digest inputs := by
  change ((u.blocks.unique (b.fullHash digest) b offsets).1).fullHash digest = _ ∧
    ((u.blocks.unique (b.fullHash digest) b offsets).1).Given digest inputs
  rw [Cache.unique_fst]
  cases hget : u.blocks.get (b.fullHash digest) with
  | none => exact ⟨rfl, hb⟩
  | some b' => exact hu.blocks hget

theorem Sound.uniqueBlock (hu : u.Sound digest inputs) (hb : b.Given digest inputs) :
    (u.uniqueBlock digest b offsets).2.Sound digest inputs where
  votes := hu.votes
  blocks {k b'} hget := by
    have hget' : (u.blocks.unique (b.fullHash digest) b offsets).2.get k = some b' := hget
    rw [Cache.get_unique] at hget'
    split at hget'
    · next heq =>
      cases hget'
      rw [heq]
      exact hu.uniqueBlock_fst hb
    · exact hu.blocks hget'

theorem Sound.uniqueByKey (hu : u.Sound digest inputs) (hv : v.Given digest inputs)
    (hne : v.blocks ≠ []) : (u.uniqueByKey digest v offsets).2.Sound digest inputs where
  blocks := hu.blocks
  votes {k w} hget := by
    have hget' : (u.votes.unique (v.fullHash digest) v offsets).2.get k = some w := hget
    rw [Cache.get_unique, Cache.unique_fst] at hget'
    split at hget'
    · next heq =>
      cases hold : u.votes.get (v.fullHash digest) with
      | none =>
        rw [hold] at hget'
        cases hget'
        exact ⟨heq.symm, hv, hne⟩
      | some existing =>
        rw [hold] at hget'
        cases hget'
        rw [heq]
        exact hu.votes hold
    · exact hu.votes hget'

def withFront (v : Vote) (b : Block) (rest : List VoteBlock) : Vote :=
  { v with blocks := .block b :: rest }

section

variable (hinj : Set.InjOn digest inputs)
include hinj

theorem withFront_bytes (hb : b.Given digest inputs) (hb' : b'.Given digest inputs)
    (heq : b'.fullHash digest = b.fullHash digest) (hbs : v.blocks = .block b :: rest) :
    (withFront v b' rest).hashBytes digest = v.hashBytes digest ∧
      (withFront v b' rest).fullHashBytes digest = v.fullHashBytes digest := by
  have hbytes := hinj hb'.fullHash hb.fullHash heq
  unfold Block.fullHashBytes at hbytes
  rw [append_assoc, append_assoc, Format.write_append_inj] at hbytes
  have hhash : (withFront v b' rest).hashBytes digest = v.hashBytes digest := by
    refine Vote.hashBytes_eq_iff.2 ⟨?_, ?_, rfl⟩
    · unfold Vote.prefixed withFront
      rw [hbs]
      cases rest <;> rfl
    · simp [Vote.hashes, withFront, hbs, VoteBlock.toHash, hbytes.1]
  refine ⟨hhash, ?_⟩
  unfold Vote.fullHashBytes Vote.hash
  rw [hhash]
  rfl

theorem withFront_given (hv : v.Given digest inputs) (hb' : b'.Given digest inputs)
    (heq : b'.fullHash digest = b.fullHash digest) (hbs : v.blocks = .block b :: rest) :
    (withFront v b' rest).Given digest inputs := by
  obtain ⟨hhash, hfull⟩ := withFront_bytes hinj (hv.front b (by rw [hbs]; rfl)) hb' heq hbs
  refine ⟨hhash ▸ hv.hash, hfull ▸ hv.fullHash, fun x hx => ?_⟩
  cases hx
  exact hb'

theorem Sound.exec (hu : u.Sound digest inputs) {event : Event}
    (hg : event.Given digest inputs) : (u.exec digest event).Sound digest inputs := by
  cases event with
  | vote v blockOffsets offsets =>
    have hv : v.Given digest inputs := hg
    unfold Uniquers.exec Uniquers.unique
    dsimp only
    split
    · exact hu
    · next b rest hbs =>
      have hb := hv.front b (by rw [hbs]; rfl)
      obtain ⟨heq, hb'⟩ : (u.uniqueBlock digest b blockOffsets).1.fullHash digest = _ ∧ _ :=
        hu.uniqueBlock_fst hb
      exact (hu.uniqueBlock hb).uniqueByKey (withFront_given hinj hv hb' heq hbs)
        (cons_ne_nil _ _)
    · next h rest hbs => exact hu.uniqueByKey hv (by rw [hbs]; exact cons_ne_nil _ _)
  | block b offsets => exact hu.uniqueBlock hg
  | expireVote key => exact ⟨fun hget => hu.votes (Cache.get_of_expire hget), hu.blocks⟩
  | expireBlock key => exact ⟨hu.votes, fun hget => hu.blocks (Cache.get_of_expire hget)⟩

end

def Reached (digest : Bytes → BlockHash) (inputs : Set Bytes) : Uniquers → Prop :=
  Reaches (fun u event u' => u' = u.exec digest event)
    (fun _ event => event.Given digest inputs) {}

theorem Reached.sound (hinj : Set.InjOn digest inputs) (h : Reached digest inputs u) :
    u.Sound digest inputs := by
  refine h.invariant ⟨fun hget => ?_, fun hget => ?_⟩ ?_
  · exact absurd hget (by simp [Cache.get])
  · exact absurd hget (by simp [Cache.get])
  · rintro t event _ ht hg rfl
    exact ht.exec hinj hg

/-- No live vote is taken for this one although it is another one, and if the vote is new then its
block is not taken for another one either. -/
structure Distinguishes (digest : Bytes → BlockHash) (u : Uniquers) (v : Vote) : Prop where
  votes : ∀ k w, u.votes.get k = some w → w.SameKey digest v → w = v
  blocks : (∀ k w, u.votes.get k = some w → ¬ w.SameKey digest v) →
    ∀ k b b', v.blocks.head? = some (.block b) → u.blocks.get k = some b' →
      b'.signature = b.signature → b'.work = b.work → ¬ b'.hashables.Twins b.hashables

section

variable (hinj : Set.InjOn digest inputs) (hu : u.Sound digest inputs)
include hinj hu

theorem Sound.get_fullHash_iff (hv : v.Given digest inputs) {w : Vote} :
    u.votes.get (v.fullHash digest) = some w ↔
      (∃ k, u.votes.get k = some w) ∧ w.SameKey digest v := by
  constructor
  · intro hget
    obtain ⟨hkey, hw, -⟩ := hu.votes hget
    exact ⟨⟨_, hget⟩, (Vote.fullHash_eq_iff hinj hw hv).1 hkey⟩
  · rintro ⟨⟨k, hget⟩, hsame⟩
    obtain ⟨hkey, hw, -⟩ := hu.votes hget
    rw [← (Vote.fullHash_eq_iff hinj hw hv).2 hsame, hkey]
    exact hget

theorem Sound.distinguishes_of_some (hv : v.Given digest inputs) {w : Vote}
    (hget : u.votes.get (v.fullHash digest) = some w) : u.Distinguishes digest v ↔ w = v := by
  obtain ⟨⟨k, hk⟩, hsame⟩ := (hu.get_fullHash_iff hinj hv).1 hget
  constructor
  · intro hd
    exact hd.votes k w hk hsame
  · rintro rfl
    refine ⟨fun k' w' hk' hsame' => ?_, fun hno => absurd hsame (hno k w hk)⟩
    rw [(hu.get_fullHash_iff hinj hv).2 ⟨⟨k', hk'⟩, hsame'⟩] at hget
    exact Option.some.inj hget

theorem Sound.distinguishes_of_none (hv : v.Given digest inputs)
    (hnone : u.votes.get (v.fullHash digest) = none) (offsets : List BlockHash) :
    u.Distinguishes digest v ↔ ∀ b, v.blocks.head? = some (.block b) →
      (u.uniqueBlock digest b offsets).1 = b := by
  have hno : ∀ k w, u.votes.get k = some w → ¬ w.SameKey digest v := fun k w hk hsame => by
    rw [(hu.get_fullHash_iff hinj hv).2 ⟨⟨k, hk⟩, hsame⟩] at hnone
    cases hnone
  have hfst (b) : (u.uniqueBlock digest b offsets).1 =
      (u.blocks.get (b.fullHash digest)).getD b := Cache.unique_fst
  constructor
  · intro hd b hfro
    rw [hfst]
    cases hget : u.blocks.get (b.fullHash digest) with
    | none => rfl
    | some b' =>
      obtain ⟨hkey, hb'⟩ := hu.blocks hget
      rcases (Block.fullHash_eq_iff hinj hb' (hv.front b hfro)).1 hkey with heq | ⟨ht, hs, hw⟩
      · exact heq
      · exact absurd ht (hd.blocks hno _ b b' hfro hget hs hw)
  · intro hsame
    refine ⟨fun k w hk hw => absurd hw (hno k w hk), fun _ k b b' hfro hget hs hw ht => ?_⟩
    obtain ⟨hkey, hb'⟩ := hu.blocks hget
    have hfull := (Block.fullHash_eq_iff hinj hb' (hv.front b hfro)).2 (.inr ⟨ht, hs, hw⟩)
    have hb := hsame b hfro
    rw [hfst, ← hfull, hkey, hget, getD_some] at hb
    exact ht.ne (congrArg Block.hashables hb)

end

/-- In every history, `unique` returns a vote that is equal to the one it was given exactly when
the live entries are distinguished from it. -/
theorem unique_faithful_iff (hinj : Set.InjOn digest inputs) (h : Reached digest inputs u)
    (hv : v.Given digest inputs) (blockOffsets offsets : List BlockHash) :
    (u.unique digest v blockOffsets offsets).1 = v ↔ u.Distinguishes digest v := by
  have hu := h.sound hinj
  have hfst (u' : Uniquers) (v' : Vote) : (u'.uniqueByKey digest v' offsets).1 =
      (u'.votes.get (v'.fullHash digest)).getD v' := Cache.unique_fst
  unfold unique
  split
  · next hbs =>
    -- an empty vote is never stored
    have hnone : u.votes.get (v.fullHash digest) = none := by
      by_contra hne
      obtain ⟨w, hget⟩ := ne_none_iff_exists'.1 hne
      have hw := ((hu.get_fullHash_iff hinj hv).1 hget).2.hashes
      simp [Vote.hashes, hbs] at hw
      exact (hu.votes hget).2.2 hw
    rw [hu.distinguishes_of_none hinj hv hnone []]
    simp [hbs]
  · next b rest hbs =>
    have hfro : v.blocks.head? = some (.block b) := by rw [hbs]; rfl
    obtain ⟨heq, hb'⟩ : (u.uniqueBlock digest b blockOffsets).1.fullHash digest = _ ∧ _ :=
      hu.uniqueBlock_fst (hv.front b hfro)
    have hbytes := (withFront_bytes hinj (hv.front b hfro) hb' heq hbs).2
    change ((u.uniqueBlock digest b blockOffsets).2.uniqueByKey digest
      (withFront v (u.uniqueBlock digest b blockOffsets).1 rest) offsets).1 = v ↔ _
    rw [hfst, Vote.fullHash, hbytes]
    change (u.votes.get (v.fullHash digest)).getD _ = v ↔ _
    cases hget : u.votes.get (v.fullHash digest) with
    | some w => exact (hu.distinguishes_of_some hinj hv hget).symm
    | none =>
      rw [hu.distinguishes_of_none hinj hv hget blockOffsets, getD_none]
      constructor
      · intro hsame b1 hfront1
        have hlist := congrArg Vote.blocks hsame
        rw [hfro] at hfront1
        simp [withFront, hbs] at hlist hfront1
        rw [← hfront1, hlist]
      · intro hsame
        rw [hsame b hfro, withFront, ← hbs]
  · next hash rest hbs =>
    rw [hfst]
    cases hget : u.votes.get (v.fullHash digest) with
    | some w => exact (hu.distinguishes_of_some hinj hv hget).symm
    | none =>
      rw [hu.distinguishes_of_none hinj hv hget []]
      simp [hbs]

end Uniquers

end Votes

namespace Sample

def voteA : Vote := ⟨17, 18, 1, [.hash 40]⟩

def voteForged : Vote := { voteA with signature := 19 }

def voteLater : Vote := { voteA with sequence := 2 }

def votes : List Vote := [voteA, voteForged, voteLater]

/-- What is hashed for the votes. The first two have the same key. -/
def hashed : List Bytes :=
  [voteA.hashBytes digest, voteA.fullHashBytes digest, voteLater.hashBytes digest,
    voteLater.fullHashBytes digest]

theorem digest_injOn_hashed : Set.InjOn digest {x | x ∈ hashed} :=
  fun _ hx _ hy => inj_on_of_nodup_map (by decide +kernel) hx hy

theorem votes_given {v : Vote} (hv : v ∈ votes) : v.Given digest {x | x ∈ hashed} := by
  have hall : ∀ v ∈ votes, v.hashBytes digest ∈ hashed ∧ v.fullHashBytes digest ∈ hashed ∧
      v.blocks = [.hash 40] := by decide +kernel
  obtain ⟨hhash, hfull, hbs⟩ := hall v hv
  exact ⟨hhash, hfull, fun b hb => by rw [hbs] at hb; cases hb⟩

def afterForged : Uniquers := Uniquers.exec digest {} (.vote voteForged [] [])

theorem afterForged_reached : Uniquers.Reached digest {x | x ∈ hashed} afterForged :=
  .tail (a := .vote voteForged [] []) .refl (votes_given (by simp [votes])) rfl

end Sample

open Sample

/-- A vote with another sequence is not taken for the one before. -/
theorem unique_faithful_later :
    (afterForged.unique digest voteLater [] []).1 = voteLater ∧
      afterForged.Distinguishes digest voteLater := by
  have hsame : (afterForged.unique digest voteLater [] []).1 = voteLater := by decide +kernel
  exact ⟨hsame, (Uniquers.unique_faithful_iff digest_injOn_hashed afterForged_reached
    (votes_given (by simp [votes])) [] []).1 hsame⟩

/-- A vote with the same first bytes of the signature takes the place of the vote. -/
theorem unique_faithful_fails :
    Set.InjOn digest {x | x ∈ hashed} ∧
    Uniquers.Reached digest {x | x ∈ hashed} afterForged ∧
    voteA.Given digest {x | x ∈ hashed} ∧
    (afterForged.unique digest voteA [] []).1 = voteForged ∧
    voteForged.signature ≠ voteA.signature :=
  ⟨digest_injOn_hashed, afterForged_reached,
    votes_given (by simp [votes]), by decide +kernel, by decide +kernel⟩

end Futurehead
