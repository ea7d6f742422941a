import Mathlib.Logic.Function.Basic
import Futurehead.Wire.Parser

/-!
# The duplicate filter (`network_filter`)

The filter has one place for all digests with the same remainder. A new digest overwrites the one that is
there, and clearing a digest has an effect only if it is still there. A block that was not confirmed is
cleared by its own serialization, so this has to be the payload from which it was read.
-/

namespace Futurehead

open List Option Function

abbrev Digest := BitVec 128

structure NetworkFilter (n : Nat) where
  items : Fin n → Digest
  /-- Siphash with the random key. -/
  hash : Bytes → Digest

namespace NetworkFilter

variable {n : Nat} [NeZero n] (f : NetworkFilter n)

def new (hash : Bytes → Digest) : NetworkFilter n := ⟨fun _ => 0, hash⟩

/-- The place of `get_element`. -/
def index (digest : Digest) : Fin n := Fin.ofNat n digest.toNat

/-- `apply`: whether the digest existed, and the digest. -/
def apply (bytes : Bytes) : Bool × Digest × NetworkFilter n :=
  let digest := f.hash bytes
  let existed := f.items (index digest) == digest
  -- Replace likely old element with a new one
  (existed, digest, if existed then f else { f with items := Function.update f.items (index digest) digest })

/-- `clear` of a digest. -/
def clear (digest : Digest) : NetworkFilter n :=
  if f.items (index digest) = digest then { f with items := Function.update f.items (index digest) 0 }
  else f

/-- `clear` of many digests. -/
def clearDigests (digests : List Digest) : NetworkFilter n := digests.foldl clear f

/-- `clear` of what has been received. -/
def clearBytes (bytes : Bytes) : NetworkFilter n := f.clear (f.hash bytes)

/-- `hash` of a block. -/
def hashBlock (block : Block) : Digest := f.hash block.serialize

/-- `clear` of a block. -/
def clearBlock (block : Block) : NetworkFilter n := f.clear (f.hashBlock block)

/-- `clear` of everything. -/
def clearAll : NetworkFilter n := { f with items := fun _ => 0 }

/-- What `election::cleanup` does to the filter. -/
def electionCleanup (confirmed : Bool) (blocks : List Block) : NetworkFilter n :=
  if confirmed then f else blocks.foldl clearBlock f

/-- What `unchecked_cleanup` does to the filter, with the blocks of the old entries. -/
def uncheckedCleanup (blocks : List Block) : NetworkFilter n := f.clearDigests (blocks.map f.hashBlock)

inductive Call where
  | apply (bytes : Bytes)
  | clear (digest : Digest)
  | clearDigests (digests : List Digest)
  | clearBytes (bytes : Bytes)
  | clearBlock (block : Block)
  | clearAll
  deriving DecidableEq

def exec : Call → NetworkFilter n
  | .apply bytes => (f.apply bytes).2.2
  | .clear digest => f.clear digest
  | .clearDigests digests => f.clearDigests digests
  | .clearBytes bytes => f.clearBytes bytes
  | .clearBlock block => f.clearBlock block
  | .clearAll => f.clearAll

def run (calls : List Call) : NetworkFilter n := calls.foldl exec f

def lastChange (i : Fin n) : List Call → NetworkFilter n → Option Call
  | [], _ => none
  | call :: calls, f =>
    (lastChange i calls (f.exec call)).or
      (if (f.exec call).items i = f.items i then none else some call)

variable {f} {i : Fin n} {digest : Digest} {bytes : Bytes} {call : Call}

/-! ## Places -/

theorem items_clear : (f.clear digest).items i = f.items i ∨ (f.clear digest).items i = 0 := by
  unfold clear
  split
  · by_cases hi : i = index digest
    · subst hi
      exact .inr (update_self ..)
    · exact .inl (update_of_ne hi ..)
  · exact .inl rfl

theorem hash_clear : (f.clear digest).hash = f.hash := by
  unfold clear
  split <;> rfl

theorem items_clear_self (h : digest ≠ 0) : (f.clear digest).items (index digest) ≠ digest := by
  unfold clear
  split
  · exact (update_self (index digest) 0 f.items).trans_ne h.symm
  · assumption

theorem clearDigests_spec (digests : List Digest) (f : NetworkFilter n) :
    (f.clearDigests digests).hash = f.hash ∧
      ((f.clearDigests digests).items i = f.items i ∨ (f.clearDigests digests).items i = 0) := by
  induction digests generalizing f with
  | nil => exact ⟨rfl, .inl rfl⟩
  | cons digest digests ih =>
    obtain ⟨hhash, hitems⟩ := ih (f.clear digest)
    refine ⟨hhash.trans hash_clear, ?_⟩
    obtain hsame | hzero := hitems
    · exact items_clear.imp hsame.trans hsame.trans
    · exact .inr hzero

theorem items_clearDigests {digests : List Digest} (hmem : digest ∈ digests) (h : digest ≠ 0) :
    (f.clearDigests digests).items (index digest) ≠ digest := by
  induction digests generalizing f with
  | nil => cases hmem
  | cons first digests ih =>
    obtain rfl | hmem := mem_cons.1 hmem
    · obtain ⟨-, hsame | hzero⟩ := clearDigests_spec (i := index digest) digests (f.clear digest)
      · rw [show f.clearDigests (digest :: digests) = (f.clear digest).clearDigests digests from rfl, hsame]
        exact items_clear_self h
      · exact fun heq => h (heq.symm.trans hzero)
    · exact ih hmem

theorem items_apply : (f.apply bytes).2.2.items i =
    if i = index (f.hash bytes) then f.hash bytes else f.items i := by
  unfold apply
  dsimp only
  rw [apply_ite NetworkFilter.items, ite_apply]
  split
  · rename_i hexisted
    split
    · rename_i hi
      rw [hi, eq_of_beq hexisted]
    · rfl
  · exact update_apply ..

theorem exec_items (h : (f.exec call).items i ≠ f.items i) :
    (∃ bytes, call = .apply bytes ∧ (f.exec call).items i = f.hash bytes) ∨
      (∀ bytes, call ≠ .apply bytes) ∧ (f.exec call).items i = 0 := by
  cases call with
  | apply bytes =>
    refine .inl ⟨bytes, rfl, ?_⟩
    change (f.apply bytes).2.2.items i = _
    change (f.apply bytes).2.2.items i ≠ _ at h
    rw [items_apply] at h ⊢
    split at h
    · exact if_pos ‹_›
    · exact absurd rfl h
  | clear digest | clearBytes bytes | clearBlock block =>
    exact .inr ⟨by simp, items_clear.resolve_left h⟩
  | clearDigests digests => exact .inr ⟨by simp, (clearDigests_spec digests f).2.resolve_left h⟩
  | clearAll => exact .inr ⟨by simp, rfl⟩

theorem hash_exec : (f.exec call).hash = f.hash := by
  cases call with
  | apply bytes =>
    unfold exec apply
    dsimp only
    split <;> rfl
  | clear | clearBytes | clearBlock => exact hash_clear
  | clearDigests digests => exact (clearDigests_spec (i := 0) digests f).1
  | clearAll => rfl

theorem items_run (h : digest ≠ 0) (calls : List Call) (f : NetworkFilter n) :
    (f.run calls).items i = digest ↔
      (∃ bytes, lastChange i calls f = some (.apply bytes) ∧ f.hash bytes = digest) ∨
        lastChange i calls f = none ∧ f.items i = digest := by
  induction calls generalizing f with
  | nil => simp [run, lastChange]
  | cons call calls ih =>
    rw [show f.run (call :: calls) = (f.exec call).run calls from rfl, ih, hash_exec, lastChange]
    cases hlast : lastChange i calls (f.exec call) with
    | some last => simp
    | none =>
      by_cases hsame : (f.exec call).items i = f.items i
      · simp [hsame]
      · rw [if_neg hsame]
        obtain ⟨bytes, rfl, hst⟩ | ⟨hnot, hzero⟩ := exec_items hsame
        · simp [hst]
        · simpa [hzero, hnot] using h.symm

theorem apply_existed : (f.apply bytes).1 = true ↔ f.items (index (f.hash bytes)) = f.hash bytes :=
  beq_iff_eq

/-! ## Payloads -/

omit [NeZero n] in
theorem hash_payload {header : MessageHeader} {uniquing : Uniquing} (huniq : ∀ b, uniquing.block b = b)
    {payload rest : Bytes} {b : Block}
    (hread : header.readPublish uniquing payload = some (.publish b, rest))
    (hend : rest = [] ∨ payload.length = header.lengthAs .publish) : f.hash payload = f.hashBlock b := by
  obtain ⟨⟨b', tail⟩, hblk, hpure⟩ := bind_eq_some_iff.1 hread
  cases hpure
  rw [huniq]
  unfold deserializeBlock at hblk
  cases htype : BlockType.ofCode header.blockType with
  | none =>
    rw [htype] at hblk
    cases hblk
  | some type =>
    rw [htype] at hblk
    obtain ⟨rfl, hb⟩ := serialize_of_readBlock hblk
    have hnil : rest = [] := hend.elim id fun hlen => by
      rw [MessageHeader.lengthAs, blockSize, htype, map_some, getD_some,
        length_append, Block.length_serialize, hb] at hlen
      exact length_eq_zero_iff.1 (by omega)
    rw [hnil, append_nil, hashBlock]

theorem clearBlocks_eq (blocks : List Block) (f : NetworkFilter n) :
    blocks.foldl clearBlock f = f.clearDigests (blocks.map f.hashBlock) := by
  induction blocks generalizing f with
  | nil => rfl
  | cons block blocks ih =>
    have hhash : (f.clearBlock block).hashBlock = f.hashBlock := by
      unfold hashBlock
      rw [clearBlock, hash_clear]
    rw [foldl_cons, ih, hhash]
    rfl

theorem apply_cleared {b : Block} {blocks : List Block} {payload : Bytes} (hb : b ∈ blocks)
    (hpayload : f.hash payload = f.hashBlock b) (hne : f.hash payload ≠ 0) :
    ((f.clearDigests (blocks.map f.hashBlock)).apply payload).1 = false := by
  rw [← Bool.not_eq_true, apply_existed, (clearDigests_spec (i := 0) _ f).1]
  exact items_clearDigests (hpayload ▸ List.mem_map_of_mem hb) hne

theorem hash_run (calls : List Call) (f : NetworkFilter n) : (f.run calls).hash = f.hash := by
  induction calls generalizing f with
  | nil => rfl
  | cons call calls ih => exact (ih _).trans hash_exec

/-- After any calls, a digest is reported as a duplicate exactly if the last call that changed its place
stored it. The digest that is recorded for a publish message is the one of the block in it, so the
message is no duplicate after the block has been cleared. -/
theorem filter_duplicates {hash : Bytes → Digest} {calls : List Call} {f : NetworkFilter n}
    (hf : f = (new hash).run calls) :
    (∀ bytes, hash bytes ≠ 0 → ((f.apply bytes).1 = true ↔
      ∃ bytes', lastChange (index (hash bytes)) calls (new hash : NetworkFilter n) =
        some (.apply bytes') ∧ hash bytes' = hash bytes)) ∧
    ∀ (header : MessageHeader) (uniquing : Uniquing) payload b rest, (∀ b, uniquing.block b = b) →
      header.readPublish uniquing payload = some (.publish b, rest) →
      (rest = [] ∨ payload.length = header.lengthAs .publish) →
      (f.apply payload).2.1 = f.hashBlock b ∧ (hash payload ≠ 0 → ∀ blocks, b ∈ blocks →
        ((f.electionCleanup false blocks).apply payload).1 = false ∧
        ((f.uncheckedCleanup blocks).apply payload).1 = false) := by
  have hhash : f.hash = hash := by
    rw [hf, hash_run]
    rfl
  refine ⟨fun bytes hne => ?_, fun header uniquing payload b rest huniq hread hend => ?_⟩
  · rw [apply_existed, hhash, hf, items_run hne]
    have hzero : (new hash : NetworkFilter n).items (index (hash bytes)) ≠ hash bytes := hne.symm
    simp only [hzero, and_false, or_false]
    rfl
  · have hpayload : f.hash payload = f.hashBlock b := hash_payload huniq hread hend
    refine ⟨hpayload, fun hne blocks hb => ?_⟩
    have hcleared := apply_cleared hb hpayload (hhash ▸ hne)
    refine ⟨?_, hcleared⟩
    unfold electionCleanup
    rwa [if_neg Bool.false_ne_true, clearBlocks_eq]

end NetworkFilter

open Sample

open NetworkFilter in
/-- A block is received, and the election for it is dropped. -/
theorem filter_duplicates_dropped :
    let f : NetworkFilter 4 := (new fun bytes => BitVec.ofNat 128 (natLE bytes + 1)).run
      [.apply wordsSend.serialize]
    (f.apply wordsSend.serialize).1 = true ∧
      ((f.electionCleanup false [wordsSend]).apply wordsSend.serialize).1 = false := by
  obtain ⟨hduplicate, hpublish⟩ := @filter_duplicates 4 _
    (fun bytes => BitVec.ofNat 128 (natLE bytes + 1)) [.apply wordsSend.serialize] _ rfl
  have hne : BitVec.ofNat 128 (natLE wordsSend.serialize + 1) ≠ 0 := by decide +kernel
  refine ⟨(hduplicate _ hne).2 ⟨_, by decide +kernel, rfl⟩, ?_⟩
  exact ((hpublish (Message.publish protocol wordsSend).header .null _ wordsSend []
    (fun _ => rfl) (by decide +kernel) (.inl rfl)).2 hne [wordsSend] (by simp)).1

end Futurehead
