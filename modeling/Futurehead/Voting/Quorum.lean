import Futurehead.Voting.Confirmation

/-!
# Quorum

`confirm_if_quorum` compares the first two weights of the tally. The tally is a map from weights to
blocks, so of several candidates with the same weight only one is in it, and the comparison is made
with wrapping arithmetic.
-/

namespace Futurehead

open List Finmap Option

/-! ## The tally -/

namespace Tally

variable {weight w : Amount} {block : Block} {tally : Tally} {x : Amount × Block}

theorem mem_of_mem_emplace (h : x ∈ emplace weight block tally) :
    x = (weight, block) ∨ x ∈ tally := by
  induction tally with
  | nil => simpa [emplace] using h
  | cons y rest ih =>
    unfold emplace at h
    split at h
    · simpa using h
    · split at h
      · exact .inr h
      · rcases mem_cons.1 h with rfl | h
        · exact .inr mem_cons_self
        · exact (ih h).imp_right (mem_cons_of_mem _)

theorem mem_map_emplace :
    w ∈ (emplace weight block tally).map (·.1) ↔ w = weight ∨ w ∈ tally.map (·.1) := by
  induction tally with
  | nil => simp [emplace]
  | cons y rest ih =>
    unfold emplace
    split
    · simp
    · split
      · next heq => simp [heq]
      · rw [map_cons, mem_cons, ih, map_cons, mem_cons]
        tauto

/-- The weights are in descending order, without repetition. -/
def Sorted (tally : Tally) : Prop := (tally.map (·.1)).Pairwise fun a b => b < a

theorem Sorted.emplace (h : Sorted tally) : Sorted (emplace weight block tally) := by
  induction tally with
  | nil => simp [Tally.emplace, Sorted]
  | cons y rest ih =>
    obtain ⟨hy, hrest⟩ := pairwise_cons.1 h
    unfold Tally.emplace
    split
    · next hlt =>
      refine pairwise_cons.2 ⟨fun w hw => ?_, h⟩
      rcases mem_cons.1 hw with rfl | hw
      · exact hlt
      · exact BitVec.lt_trans (hy w hw) hlt
    · split
      · exact h
      · next hge hne =>
        refine pairwise_cons.2 ⟨fun w hw => ?_, ih hrest⟩
        rcases mem_map_emplace.1 hw with rfl | hw
        · bv_omega
        · exact hy w hw

end Tally

namespace Election

variable {p : Params} {node : NodeView} {e e' : Election}

/-- The tally has the weights of the candidates that were voted for, in descending order. -/
structure TallySpec (node : NodeView) (e : Election) (hashes : List BlockHash) (tally : Tally) :
    Prop where
  sorted : tally.Sorted
  entry : ∀ {x}, x ∈ tally → ∃ hash ∈ hashes, e.blocks.lookup hash = some x.2 ∧
    e.blockWeight node hash = x.1
  weight : ∀ {hash}, hash ∈ hashes → hash ∈ e.blocks → e.blockWeight node hash ∈ tally.map (·.1)

theorem TallySpec.next {hashes : List BlockHash} {tally : Tally} (h : TallySpec node e hashes tally)
    (hash : BlockHash) : TallySpec node e (hash :: hashes)
      (match e.blocks.lookup hash with
      | some block => Tally.emplace (e.blockWeight node hash) block tally
      | none => tally) := by
  cases hget : e.blocks.lookup hash with
  | none =>
    refine ⟨h.sorted, fun hx => ?_, fun hmem hblk => ?_⟩
    · obtain ⟨hash', hmem, hrest⟩ := h.entry hx
      exact ⟨hash', mem_cons_of_mem _ hmem, hrest⟩
    · rcases mem_cons.1 hmem with rfl | hmem
      · rw [mem_iff, hget] at hblk
        obtain ⟨b, hb⟩ := hblk
        cases hb
      · exact h.weight hmem hblk
  | some block =>
    refine ⟨h.sorted.emplace, fun hx => ?_, fun hmem hblk => ?_⟩
    · rcases Tally.mem_of_mem_emplace hx with rfl | hx
      · exact ⟨hash, mem_cons_self, hget, rfl⟩
      · obtain ⟨hash', hmem, hrest⟩ := h.entry hx
        exact ⟨hash', mem_cons_of_mem _ hmem, hrest⟩
    · rw [Tally.mem_map_emplace]
      rcases mem_cons.1 hmem with rfl | hmem
      · exact .inl rfl
      · exact .inr (h.weight hmem hblk)

theorem tally_spec (node : NodeView) (e : Election) :
    TallySpec node e node.order (e.tally node) := by
  have hloop : ∀ (order hashes : List BlockHash) (tally : Tally), TallySpec node e hashes tally →
      TallySpec node e (order.reverse ++ hashes) (order.foldl (fun result hash =>
        match e.blocks.lookup hash with
        | some block => Tally.emplace (e.blockWeight node hash) block result
        | none => result) tally) := by
    intro order
    induction order with
    | nil => exact fun _ _ h => h
    | cons hash order ih =>
      intro hashes tally h
      rw [foldl_cons, reverse_cons, append_assoc]
      exact ih _ _ (h.next hash)
  have hspec := hloop node.order [] [] ⟨.nil, nofun, nofun⟩
  rw [append_nil] at hspec
  exact ⟨hspec.sorted, fun hx => by simpa using hspec.entry hx,
    fun hmem => hspec.weight (by simpa using hmem)⟩

/-! ## Weights -/

/-- The summed weight of a candidate, as an unbounded integer. -/
def weightOf (node : NodeView) (e : Election) (hash : BlockHash) : Nat :=
  (e.lastVotes.entries.map fun vote =>
    if vote.2.hash = hash then (node.weight vote.1).toNat else 0).sum

def votedWeight (node : NodeView) (e : Election) : Nat :=
  (e.lastVotes.entries.map fun vote => (node.weight vote.1).toNat).sum

theorem toNat_sum {α : Type} {s : Multiset α} {f : α → Amount}
    (h : (s.map fun x => (f x).toNat).sum < 2 ^ 128) :
    (s.map f).sum.toNat = (s.map fun x => (f x).toNat).sum := by
  induction s using Multiset.induction_on with
  | empty => rfl
  | cons x s ih =>
    rw [Multiset.map_cons, Multiset.sum_cons] at h ⊢
    rw [Multiset.map_cons, Multiset.sum_cons, BitVec.toNat_add, ih (by omega), Nat.mod_eq_of_lt h]

theorem weightOf_le_votedWeight (hash : BlockHash) : e.weightOf node hash ≤ e.votedWeight node := by
  refine Multiset.sum_map_le_sum_map _ _ fun vote _ => ?_
  split
  · exact le_rfl
  · exact Nat.zero_le _

theorem toNat_blockWeight (h : e.votedWeight node < 2 ^ 128) (hash : BlockHash) :
    (e.blockWeight node hash).toNat = e.weightOf node hash := by
  have hlt := (weightOf_le_votedWeight hash).trans_lt h
  have hite : (fun vote : (_ : Account) × VoteInfo =>
      (if vote.2.hash = hash then node.weight vote.1 else 0).toNat) =
      fun vote => if vote.2.hash = hash then (node.weight vote.1).toNat else 0 := by
    funext vote
    split <;> rfl
  unfold blockWeight
  rw [toNat_sum (by rw [hite]; exact hlt), hite, weightOf]

theorem weightOf_eq_zero {hash : BlockHash} (h : hash ∉ e.votedFor) : e.weightOf node hash = 0 := by
  unfold weightOf
  refine Multiset.sum_eq_zero fun x hx => ?_
  obtain ⟨vote, hvote, rfl⟩ := Multiset.mem_map.1 hx
  refine if_neg fun heq => h ?_
  rw [votedFor, Multiset.mem_toFinset]
  exact Multiset.mem_map.2 ⟨vote, hvote, heq⟩

/-- `delta` as an unbounded integer. -/
def deltaOf (node : NodeView) : Nat := node.onlineStake.toNat / 100 * node.onlineWeightQuorum

theorem toNat_delta (h : node.onlineWeightQuorum ≤ 100) : node.delta.toNat = deltaOf node := by
  have hstake := node.onlineStake.isLt
  have hle : node.onlineStake.toNat / 100 * node.onlineWeightQuorum ≤ node.onlineStake.toNat :=
    (Nat.mul_le_mul_left _ h).trans (Nat.div_mul_le_self _ _)
  unfold NodeView.delta deltaOf
  rw [BitVec.toNat_mul, BitVec.toNat_udiv, BitVec.toNat_ofNat]
  have hquo : node.onlineWeightQuorum % 2 ^ 128 = node.onlineWeightQuorum :=
    Nat.mod_eq_of_lt (by omega)
  rw [hquo]
  exact Nat.mod_eq_of_lt (hle.trans_lt hstake)

/-! ## Confirmation -/

theorem changeWinner_winner {sum : Amount} {block : Block} (h : node.onlineWeightMinimum ≤ sum) :
    p.hash (e.changeWinner p node sum block).status.winner = p.hash block := by
  unfold changeWinner
  dsimp only
  split
  · unfold removeVotes
    split <;> rfl
  · next hno =>
    have heq := not_and.1 hno h
    rw [not_not] at heq
    exact heq.symm

theorem confirmIfQuorum_confirms (hrun : e.confirmIfQuorum p node = some e')
    (hstart : e.confirmed = false) (hend : e'.state = .confirmed) :
    ∃ weight block rest, e.tally node = (weight, block) :: rest ∧
      (rest.head?.map (·.1)).getD 0 + node.delta < weight ∧
      p.hash e'.status.winner = p.hash block := by
  unfold confirmIfQuorum at hrun
  simp only [bind_eq_bind, bind_eq_some_iff] at hrun
  obtain ⟨⟨weight, block⟩, hhead, quorum, hquo, hrun⟩ := hrun
  split at hrun <;> cases hrun
  · next hq =>
    subst hq
    cases htally : e.tally node with
    | nil => rw [htally] at hhead; cases hhead
    | cons first rest =>
      rw [htally] at hhead hquo
      cases hhead
      unfold haveQuorum at hquo
      split at hquo
      · next hmin =>
        refine ⟨weight, block, rest, rfl, by simpa using hquo, ?_⟩
        rw [(confirmOnce_moves _).winner]
        exact changeWinner_winner hmin
      · cases hquo
  · rw [(changeWinner_same _ _).1] at hend
    have hsta : e.state = .confirmed := hend
    simp [confirmed, hsta] at hstart

/-- The map of candidates is keyed by their hashes. -/
def Keyed (p : Params) (e : Election) : Prop :=
  ∀ hash block, e.blocks.lookup hash = some block → p.hash block = hash

/-- A candidate that is more than `delta` ahead of every other one. -/
def Wins (node : NodeView) (e : Election) (hash : BlockHash) : Prop :=
  hash ∈ e.blocks ∧ ∀ other ∈ e.blocks, other ≠ hash →
    e.weightOf node other + deltaOf node < e.weightOf node hash

/-- No candidate is as heavy as the heaviest one, and `delta` can be added to its weight. -/
def Decided (node : NodeView) (e : Election) : Prop :=
  ∀ hash ∈ e.blocks, (∀ other ∈ e.blocks, e.weightOf node other ≤ e.weightOf node hash) →
    ∀ other ∈ e.blocks, other ≠ hash → e.weightOf node other ≠ e.weightOf node hash ∧
      e.weightOf node other + deltaOf node < 2 ^ 128

theorem heaviest_of_tally (hord : e.Ordered node) (htotal : e.votedWeight node < 2 ^ 128)
    {weight : Amount} {block : Block} {rest : Tally} (htally : e.tally node = (weight, block) :: rest)
    {other : BlockHash} (hoth : other ∈ e.blocks) :
    e.weightOf node other ≤ weight.toNat ∧
      (e.weightOf node other ≠ weight.toNat → e.weightOf node other ≠ 0 →
        ∃ second ∈ rest.head?, e.weightOf node other ≤ second.1.toNat) := by
  have hspec := tally_spec node e
  rw [htally] at hspec
  obtain ⟨hfst, hrest⟩ := pairwise_cons.1 hspec.sorted
  by_cases hvoted : other ∈ e.votedFor
  · have hmem := hspec.weight ((hord.2 other).2 hvoted) hoth
    rw [← toNat_blockWeight htotal]
    rcases mem_cons.1 hmem with heq | hmem
    · rw [heq]
      exact ⟨le_rfl, fun h => absurd rfl h⟩
    · refine ⟨(BitVec.lt_def.1 (hfst _ hmem)).le, fun _ _ => ?_⟩
      cases rest with
      | nil => cases hmem
      | cons second rest =>
        refine ⟨second, rfl, ?_⟩
        rcases mem_cons.1 hmem with heq | hmem
        · rw [heq]
        · exact (BitVec.lt_def.1 ((pairwise_cons.1 hrest).1 _ hmem)).le
  · rw [weightOf_eq_zero hvoted]
    exact ⟨Nat.zero_le _, fun _ h => absurd rfl h⟩

/-- If `confirm_if_quorum` confirms an election, its winner is a candidate that is more than `delta`
ahead of every other one exactly when no other candidate ties with the heaviest one and no sum
overflows. -/
theorem quorum_safety_iff (hkeyed : e.Keyed p) (hord : e.Ordered node)
    (htotal : e.votedWeight node < 2 ^ 128) (hquo : node.onlineWeightQuorum ≤ 100)
    (hstart : e.confirmed = false) (hrun : e.confirmIfQuorum p node = some e')
    (hend : e'.state = .confirmed) : e.Wins node (p.hash e'.status.winner) ↔ e.Decided node := by
  obtain ⟨weight, block, rest, htally, hlt, hwin⟩ := confirmIfQuorum_confirms hrun hstart hend
  have hspec := tally_spec node e
  rw [htally] at hspec
  obtain ⟨hash, -, hget, hwt⟩ := hspec.entry mem_cons_self
  dsimp only at hget hwt
  have hmem : hash ∈ e.blocks := mem_iff.2 ⟨block, hget⟩
  rw [hwin, hkeyed hash block hget]
  have hnat : weight.toNat = e.weightOf node hash := by
    rw [← hwt, toNat_blockWeight htotal]
  have hheav (other) (hoth : other ∈ e.blocks) :=
    heaviest_of_tally hord htotal htally hoth
  rw [hnat] at hheav
  have hbound : e.weightOf node hash < 2 ^ 128 := (weightOf_le_votedWeight hash).trans_lt htotal
  constructor
  · rintro ⟨-, hwins⟩ top htop hmax other hoth hne
    -- the heaviest candidate is the winner
    obtain rfl : top = hash := by
      by_contra hne'
      have := hwins top htop hne'
      have := hmax hash hmem
      omega
    have := hwins other hoth hne
    exact ⟨by omega, by omega⟩
  · intro hdecided
    refine ⟨hmem, fun other hoth hne => ?_⟩
    have hdec := hdecided hash hmem (fun x hx => (hheav x hx).1)
    have hdelta := toNat_delta hquo
    -- the second weight of the tally is at least that of the other candidate
    cases hsec : rest.head? with
    | none =>
      rw [hsec] at hlt
      have hzero : e.weightOf node other = 0 := by
        by_contra h0
        obtain ⟨second, hs, -⟩ := (hheav other hoth).2 (hdec other hoth hne).1 h0
        rw [hsec] at hs
        cases hs
      have hlt' := BitVec.lt_def.1 hlt
      simp only [map_none, getD_none, zero_add] at hlt'
      rw [hdelta, hnat] at hlt'
      omega
    | some second =>
      rw [hsec] at hlt
      have hin : second ∈ rest := mem_of_mem_head? hsec
      obtain ⟨hash2, -, hget2, hwt2⟩ := hspec.entry (mem_cons_of_mem _ hin)
      have hlt2 : second.1 < weight :=
        (pairwise_cons.1 hspec.sorted).1 _ (mem_map_of_mem hin)
      have hne2 : hash2 ≠ hash := by
        rintro rfl
        rw [← hwt2, hwt] at hlt2
        exact absurd hlt2 (BitVec.lt_irrefl _)
      have hnat2 : second.1.toNat = e.weightOf node hash2 := by
        rw [← hwt2, toNat_blockWeight htotal]
      have hfits := (hdec hash2 (mem_iff.2 ⟨_, hget2⟩) hne2).2
      have hle : e.weightOf node other ≤ second.1.toNat := by
        by_cases h0 : e.weightOf node other = 0
        · omega
        · obtain ⟨x, hx, hle⟩ := (hheav other hoth).2 (hdec other hoth hne).1 h0
          rw [hsec] at hx
          cases hx
          exact hle
      have hlt' := BitVec.lt_def.1 hlt
      simp only [map_some, getD_some, BitVec.toNat_add] at hlt'
      rw [hdelta, hnat, hnat2, Nat.mod_eq_of_lt hfits] at hlt'
      omega

end Election

namespace Sample

def hashA : BlockHash := byteParams.hash wordsSend

def hashB : BlockHash := byteParams.hash wordsReceive

def candidates : Election := { election with blocks := election.blocks.insert hashB wordsReceive }

theorem candidates_keyed : candidates.Keyed byteParams := by
  intro hash block hget
  simp only [candidates, election, Election.start, Finmap.lookup_insert_eq] at hget
  split_ifs at hget with hB hA
  · cases hget; exact hB.symm
  · cases hget; exact hA.symm
  · cases hget

def votes₂ (hash1 hash2 : BlockHash) : Table Account VoteInfo :=
  ((∅ : Table Account VoteInfo).insert 21 ⟨some 0, 1, hash1⟩).insert 22 ⟨some 0, 1, hash2⟩

def ahead : Election := { candidates with lastVotes := votes₂ hashA hashA }

def tied : Election := { candidates with lastVotes := votes₂ hashA hashB }

def viewAhead : NodeView := { view with order := [hashA] }

def viewTied : NodeView := { view with order := [hashA, hashB] }

theorem ahead_ordered : ahead.Ordered viewAhead := by
  have hvoted : ahead.votedFor = {hashA} := by decide +kernel
  simp [Election.Ordered, hvoted, viewAhead]

theorem tied_ordered : tied.Ordered viewTied := by
  have hvoted : tied.votedFor = {hashA, hashB} := by decide +kernel
  have hne : hashA ≠ hashB := by decide +kernel
  simp [Election.Ordered, hvoted, viewTied, hne]

theorem exists_confirmed (e : Election) (node : NodeView)
    (h : (e.confirmIfQuorum byteParams node).map (·.state) = some .confirmed) :
    ∃ e', e.confirmIfQuorum byteParams node = some e' ∧ e'.state = .confirmed :=
  map_eq_some_iff.1 h

end Sample

open Sample

/-- Both votes are for one candidate, and it wins. -/
theorem quorum_safety_ahead :
    ∃ e', ahead.confirmIfQuorum byteParams viewAhead = some e' ∧
      ahead.Wins viewAhead (byteParams.hash e'.status.winner) ∧ ahead.Decided viewAhead := by
  obtain ⟨e', hrun, hend⟩ := exists_confirmed ahead viewAhead
    (by decide +kernel)
  have hwins : ahead.Wins viewAhead (byteParams.hash e'.status.winner) := by
    have hmap : (ahead.confirmIfQuorum byteParams viewAhead).map
        (fun e => byteParams.hash e.status.winner) = some hashA := by decide +kernel
    rw [hrun, map_some] at hmap
    rw [Option.some.inj hmap]
    refine ⟨by decide +kernel, fun other hoth hne => ?_⟩
    obtain rfl : other = hashB := by
      simp only [ahead, candidates, election, Election.start, mem_insert] at hoth
      rcases hoth with hB | hA | hnone
      · exact hB
      · exact absurd hA hne
      · exact absurd hnone notMem_empty
    decide +kernel
  have hiff : ahead.Wins viewAhead (byteParams.hash e'.status.winner) ↔ ahead.Decided viewAhead :=
    Election.quorum_safety_iff candidates_keyed ahead_ordered (by decide +kernel) (by decide)
      (by decide) hrun hend
  exact ⟨e', hrun, hwins, hiff.1 hwins⟩

/-- Two candidates of the same weight, and the election is confirmed. -/
theorem quorum_safety_fails :
    tied.Keyed byteParams ∧ tied.Ordered viewTied ∧
    tied.votedWeight viewTied < 2 ^ 128 ∧
    viewTied.onlineWeightQuorum ≤ 100 ∧ tied.confirmed = false ∧
    ∃ e', tied.confirmIfQuorum byteParams viewTied = some e' ∧
      e'.state = .confirmed ∧ ¬ tied.Wins viewTied (byteParams.hash e'.status.winner) := by
  obtain ⟨e', hrun, hend⟩ := exists_confirmed tied viewTied
    (by decide +kernel)
  refine ⟨candidates_keyed, tied_ordered, by decide +kernel, by decide, by decide,
    e', hrun, hend, fun hwins => ?_⟩
  -- the winner is A, and B has the same weight
  have hwin : byteParams.hash e'.status.winner = hashA := by
    have hmap : (tied.confirmIfQuorum byteParams viewTied).map
        (fun e => byteParams.hash e.status.winner) = some hashA := by decide +kernel
    rw [hrun] at hmap
    exact Option.some.inj hmap
  rw [hwin] at hwins
  exact absurd (hwins.2 hashB (by decide +kernel) (by decide +kernel)) (by decide +kernel)

end Futurehead
