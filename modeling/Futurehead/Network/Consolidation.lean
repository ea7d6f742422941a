import Mathlib.Algebra.Order.BigOperators.Group.List
import Mathlib.Data.List.Sort
import Futurehead.Wire.Message

/-!
# Consolidated telemetry (`futurehead/node/telemetry`)

`consolidate_telemetry_data` takes one set of data from those of all peers: averages without the
lowest and the highest tenth, and the most frequent values of the fields that have no average. The
code counts values in unordered maps, whose order of iteration can be any (`CountsOrder`). A result
`none` is an exception, or an iterator that is moved past the end of a collection.

`consolidate_telemetry_sound` says which data are consolidated in every order: the condition on the
limits and versions (`Usable`) is necessary, and with times of one side of the epoch (`OneSided`) it
is sufficient.
-/

namespace Futurehead

open List Option BitVec

/-- An order in which an `unordered_map` that counts the values `xs` is iterated. -/
structure CountsOrder {K : Type} [DecidableEq K] (xs : List K) where
  entries : List (K × Nat)
  keys_nodup : (entries.map Prod.fst).Nodup
  mem_iff : ∀ k n, (k, n) ∈ entries ↔ k ∈ xs ∧ n = xs.count k

section

variable {K : Type}

/-- `std::max_element` on the counts: the first of the largest ones. -/
def maxElement : List (K × Nat) → Option (K × Nat)
  | [] => none
  | e :: entries => some (entries.foldl (fun max e => if max.2 < e.2 then e else max) e)

/-- `set_mode`: a most frequent value. -/
def setMode (collection : List (K × Nat)) : Option K := do
  let max ← maxElement collection
  let first ← collection.head?
  -- Just pick the first one
  return if 1 < max.2 then max.1 else first.1

/-- `set_mode_or_average`: a most frequent value, or the average if no value is repeated. -/
def setModeOrAverage (collection : List (BitVec 64 × Nat)) (sum size : Nat) :
    Option (BitVec 64) := do
  let max ← maxElement collection
  return if 1 < max.2 then max.1 else BitVec.ofNat 64 (sum / size)

theorem foldl_max_spec (e : K × Nat) (entries : List (K × Nat)) :
    let m := entries.foldl (fun max e => if max.2 < e.2 then e else max) e
    m ∈ e :: entries ∧ ∀ x ∈ e :: entries, x.2 ≤ m.2 := by
  induction entries generalizing e with
  | nil => simp
  | cons x entries ih =>
    obtain ⟨hmem, hmax⟩ := ih (if e.2 < x.2 then x else e)
    have hnext := hmax _ mem_cons_self
    have hstep : e.2 ≤ (if e.2 < x.2 then x else e).2 ∧ x.2 ≤ (if e.2 < x.2 then x else e).2 := by
      split <;> omega
    simp only [foldl_cons]
    constructor
    · rcases mem_cons.1 hmem with hm | hm
      · rw [hm]
        split
        · exact mem_cons_of_mem _ mem_cons_self
        · exact mem_cons_self
      · exact mem_cons_of_mem _ (mem_cons_of_mem _ hm)
    · intro y hy
      rcases mem_cons.1 hy with rfl | hy
      · exact hstep.1.trans hnext
      · rcases mem_cons.1 hy with rfl | hy
        · exact hstep.2.trans hnext
        · exact hmax y (mem_cons_of_mem _ hy)

theorem foldl_max_eq {e : K × Nat} {entries : List (K × Nat)} (h : ∀ x ∈ entries, x.2 ≤ e.2) :
    entries.foldl (fun max e => if max.2 < e.2 then e else max) e = e := by
  induction entries with
  | nil => rfl
  | cons x entries ih =>
    rw [foldl_cons, if_neg (h x mem_cons_self).not_gt]
    exact ih fun y hy => h y (mem_cons_of_mem x hy)

/-- No value occurs more often. -/
def MostFrequent [DecidableEq K] (xs : List K) (k : K) : Prop := ∀ k', xs.count k' ≤ xs.count k

variable [DecidableEq K] {xs : List K} (order : CountsOrder xs)

theorem CountsOrder.maxElement_spec (hne : xs ≠ []) :
    ∃ m, maxElement order.entries = some m ∧ (m.1 ∈ xs ∧ m.2 = xs.count m.1) ∧
      ∀ k, xs.count k ≤ m.2 := by
  obtain ⟨x, hx⟩ := exists_mem_of_ne_nil xs hne
  have hin := (order.mem_iff x _).2 ⟨hx, rfl⟩
  cases hents : order.entries with
  | nil => simp [hents] at hin
  | cons e entries =>
    obtain ⟨hmem, hmax⟩ := foldl_max_spec e entries
    rw [← hents] at hmem hmax
    refine ⟨_, rfl, (order.mem_iff _ _).1 hmem, fun k => ?_⟩
    by_cases hk : k ∈ xs
    · exact hmax _ ((order.mem_iff k _).2 ⟨hk, rfl⟩)
    · rw [count_eq_zero_of_not_mem hk]
      exact Nat.zero_le _

theorem CountsOrder.setMode_spec (hne : xs ≠ []) :
    ∃ k ∈ xs, setMode order.entries = some k ∧ MostFrequent xs k := by
  obtain ⟨m, hm, ⟨hmem, hcnt⟩, hmax⟩ := order.maxElement_spec hne
  cases hents : order.entries with
  | nil => rw [hents] at hm; cases hm
  | cons e entries =>
    have he := ((order.mem_iff e.1 e.2).1 (by rw [hents]; exact mem_cons_self)).1
    rw [hents] at hm
    refine ⟨if 1 < m.2 then m.1 else e.1, ?_, ?_, ?_⟩
    · split
      · exact hmem
      · exact he
    · simp only [setMode, hm, bind_eq_bind, bind_some, head?_cons, Option.pure_def]
    · intro k'
      split
      · exact hcnt ▸ hmax k'
      · -- nothing is repeated, and the first value is there
        have hpos := count_pos_iff.2 he
        have hle := hmax k'
        omega

/-- The order with a given value in front. -/
def CountsOrder.first {k : K} (hk : k ∈ xs) : CountsOrder xs where
  entries := (k :: xs.dedup.erase k).map fun k => (k, xs.count k)
  keys_nodup := by
    have hnd := xs.nodup_dedup
    rw [List.map_map]
    simpa [Function.comp_def, hnd.mem_erase_iff] using hnd.erase k
  mem_iff k' n := by
    have hmem : k' ∈ k :: xs.dedup.erase k ↔ k' ∈ xs := by
      rw [← (perm_cons_erase (mem_dedup.2 hk)).mem_iff, mem_dedup]
    rw [← hmem, List.mem_map]
    constructor
    · rintro ⟨_, hk', heq⟩
      obtain ⟨rfl, rfl⟩ := Prod.mk.inj heq
      exact ⟨hk', rfl⟩
    · rintro ⟨hk', rfl⟩
      exact ⟨k', hk', rfl⟩

theorem CountsOrder.setMode_first {k : K} (hk : k ∈ xs) (hmax : MostFrequent xs k) :
    setMode (CountsOrder.first hk).entries = some k := by
  have hle : ∀ x ∈ (xs.dedup.erase k).map fun k => (k, xs.count k), x.2 ≤ xs.count k := by
    intro x hx
    obtain ⟨k', -, rfl⟩ := List.mem_map.1 hx
    exact hmax k'
  have hfold := foldl_max_eq (e := (k, xs.count k)) hle
  simp [setMode, maxElement, CountsOrder.first, hfold]

end

/-- `boost::numeric_cast` to an unsigned type, which throws if the number does not fit. -/
def numericCast {w : Nat} (n : Nat) : Option (BitVec w) :=
  if n < 2 ^ w then some (BitVec.ofNat w n) else none

/-- The elements of a multiset that `strip_outliers_and_sum` adds up. A vector has fewer than `2 ^ 64`
elements, so that their sum fits into 128 bits. -/
def stripOutliers (numEitherSideToRemove : Nat) (counts : List Nat) : Option (List Nat) :=
  let sorted := counts.insertionSort (· ≤ ·)
  if sorted.length < numEitherSideToRemove then none
  else
    let rest := sorted.drop numEitherSideToRemove
    if rest.length < numEitherSideToRemove then none
    else some (rest.take (rest.length - numEitherSideToRemove))

/-- The elements without the `num` smallest and the `num` largest ones. -/
def trimmed (num : Nat) (counts : List Nat) : List Nat :=
  ((counts.insertionSort (· ≤ ·)).drop num).take (counts.length - num * 2)

theorem stripOutliers_eq (num : Nat) (counts : List Nat) : stripOutliers num counts =
    if num * 2 ≤ counts.length then some (trimmed num counts) else none := by
  have hlen := length_insertionSort (· ≤ ·) counts
  unfold stripOutliers trimmed
  dsimp only
  rw [length_drop, hlen, show counts.length - num - num = counts.length - num * 2 by omega]
  split_ifs <;> first | rfl | omega

theorem length_trimmed (num : Nat) (counts : List Nat) :
    (trimmed num counts).length = counts.length - num * 2 := by
  rw [trimmed, length_take, length_drop, length_insertionSort]
  omega

theorem mem_of_mem_trimmed {num x : Nat} {counts : List Nat} (h : x ∈ trimmed num counts) :
    x ∈ counts :=
  (mem_insertionSort _).1 (mem_of_mem_drop (mem_of_mem_take h))

/-- An average is not below all numbers, and not above all of them. -/
theorem average_bounds {xs : List Nat} (hne : xs ≠ []) :
    (∃ x ∈ xs, x ≤ xs.sum / xs.length) ∧ ∃ x ∈ xs, xs.sum / xs.length ≤ x := by
  have hpos : 0 < xs.length := length_pos_of_ne_nil hne
  constructor
  · by_contra! hall
    have hsum := card_nsmul_le_sum xs (xs.sum / xs.length + 1) hall
    have hlt := Nat.lt_mul_div_succ xs.sum hpos
    rw [nsmul_eq_mul, Nat.cast_id] at hsum
    omega
  · by_contra! hall
    have hsum : xs.sum < xs.length * (xs.sum / xs.length) := by
      have hlt := sum_lt_sum_of_ne_nil hne id (fun _ => xs.sum / xs.length) hall
      simpa using hlt
    have hle := Nat.mul_div_le xs.sum xs.length
    omega

/-- The parts of the version of a node. -/
structure VendorVersion where
  major : Byte
  minor : Byte
  patch : Byte
  preRelease : Byte
  maker : Byte
  deriving DecidableEq

namespace VendorVersion

/-- The character that separates the parts in the text. -/
def dot : Byte := 46

/-- The bytes are written to the stream as characters. -/
def text (v : VendorVersion) : Bytes :=
  [v.major, dot, v.minor, dot, v.patch, dot, v.preRelease, dot, v.maker]

/-- `boost::lexical_cast<uint8_t>` reads a text of one character. -/
def lexicalCast : Bytes → Option Byte
  | [b] => some b
  | _ => none

/-- The version that is read from its text. -/
def parse (version : Bytes) : Option VendorVersion := do
  let versionFragments := version.splitOn dot
  let major ← versionFragments[0]? >>= lexicalCast
  let minor ← versionFragments[1]? >>= lexicalCast
  let patch ← versionFragments[2]? >>= lexicalCast
  let preRelease ← versionFragments[3]? >>= lexicalCast
  let maker ← versionFragments[4]? >>= lexicalCast
  return { major, minor, patch, preRelease, maker }

/-- None of the bytes is the character that separates them. -/
def Plain (v : VendorVersion) : Prop :=
  v.major ≠ dot ∧ v.minor ≠ dot ∧ v.patch ≠ dot ∧ v.preRelease ≠ dot ∧ v.maker ≠ dot

instance (v : VendorVersion) : Decidable v.Plain := inferInstanceAs (Decidable (_ ∧ _))

theorem splitOn_singleton (b : Byte) :
    [b].splitOn dot = if b = dot then [[], []] else [[b]] := by
  rw [List.splitOn, splitOnP_cons_eq_if_modifyHead]
  simp

/-- A byte that is the separator leaves an empty fragment, and this is not read. -/
theorem parse_text (v : VendorVersion) : parse v.text = if v.Plain then some v else none := by
  have hspl : v.text.splitOn dot = [v.major].splitOn dot ++ ([v.minor].splitOn dot ++
      ([v.patch].splitOn dot ++ ([v.preRelease].splitOn dot ++ [v.maker].splitOn dot))) := by
    simp only [← splitOn_append_cons_self]
    rfl
  unfold parse
  rw [hspl]
  simp only [splitOn_singleton, Plain]
  by_cases hmajor : v.major = dot
  · simp [hmajor, lexicalCast]
  by_cases hminor : v.minor = dot
  · simp [hmajor, hminor, lexicalCast]
  by_cases hpatch : v.patch = dot
  · simp [hmajor, hminor, hpatch, lexicalCast]
  by_cases hpre : v.preRelease = dot
  · simp [hmajor, hminor, hpatch, hpre, lexicalCast]
  by_cases hmaker : v.maker = dot
  · simp [hmajor, hminor, hpatch, hpre, hmaker, lexicalCast]
  · simp [hmajor, hminor, hpatch, hpre, hmaker, lexicalCast]

end VendorVersion

namespace TelemetryData

/-- The version of the node that sent the data. -/
def vendorVersion (data : TelemetryData) : VendorVersion :=
  ⟨data.majorVersion, data.minorVersion, data.patchVersion, data.preReleaseVersion, data.maker⟩

/-- The time in milliseconds, towards the epoch. -/
def milliseconds (data : TelemetryData) : BitVec 64 := data.timestamp.sdiv 1000000

/-- The order in which each of the four maps is iterated. -/
structure Orders (datas : List TelemetryData) where
  protocolVersions : CountsOrder (datas.map protocolVersion)
  vendorVersions : CountsOrder (datas.map (·.vendorVersion.text))
  bandwidthCaps : CountsOrder (datas.map bandwidthCap)
  genesisBlocks : CountsOrder (datas.map genesisBlock)

/-- A field that is averaged over what is left of all its values. -/
def average {w : Nat} (datas : List TelemetryData) (count : TelemetryData → BitVec w) :
    Option (BitVec w) := do
  let numEitherSideToRemove := datas.length / 10
  let counts ← stripOutliers numEitherSideToRemove (datas.map fun data => (count data).toNat)
  numericCast (counts.sum / (datas.length - numEitherSideToRemove * 2))

/-- The limits that are averaged: 0 has a special meaning (unlimited). -/
def bandwidths (datas : List TelemetryData) : List Nat :=
  (datas.map fun data => data.bandwidthCap.toNat).filter (· ≠ 0)

/-- `consolidate_telemetry_data`. -/
def consolidateTelemetryData (datas : List TelemetryData) (orders : Orders datas) :
    Option TelemetryData :=
  if datas.length = 0 then some {}
  else if datas.length = 1 then datas.head?
  else do
    let numEitherSideToRemove := datas.length / 10
    let accountCount ← average datas accountCount
    let blockCount ← average datas blockCount
    let cementedCount ← average datas cementedCount
    let peerCount ← average datas peerCount
    let uncheckedCount ← average datas uncheckedCount
    let uptime ← average datas uptime
    let bandwidths ← stripOutliers numEitherSideToRemove (bandwidths datas)
    let activeDifficulty ← average datas activeDifficulty
    let timestamps ← stripOutliers numEitherSideToRemove
      (datas.map fun data => data.milliseconds.toNat)
    -- a negative number of milliseconds is a large unsigned one
    let milliseconds ← numericCast (timestamps.sum / timestamps.length)
    let bandwidthCap ← setModeOrAverage orders.bandwidthCaps.entries bandwidths.sum
      (datas.length - numEitherSideToRemove * 2)
    let protocolVersion ← setMode orders.protocolVersions.entries
    let genesisBlock ← setMode orders.genesisBlocks.entries
    let version ← setMode orders.vendorVersions.entries >>= VendorVersion.parse
    return {
      accountCount, blockCount, cementedCount, peerCount, uncheckedCount, uptime, activeDifficulty
      bandwidthCap, protocolVersion, genesisBlock, timestamp := milliseconds * 1000000
      majorVersion := version.major, minorVersion := version.minor, patchVersion := version.patch
      preReleaseVersion := version.preRelease, maker := version.maker }

/-! ## What is consolidated -/

/-- The value of a field is between the smallest and the largest one of the data. -/
def Between (datas : List TelemetryData) (field : TelemetryData → Int) (r : TelemetryData) : Prop :=
  (∃ data ∈ datas, field data ≤ field r) ∧ ∃ data ∈ datas, field r ≤ field data

/-- The fields that are averaged, with the time in milliseconds. -/
def averagedFields : List (TelemetryData → Int) :=
  [fun data => data.accountCount.toNat, fun data => data.blockCount.toNat,
    fun data => data.cementedCount.toNat, fun data => data.peerCount.toNat,
    fun data => data.uncheckedCount.toNat, fun data => data.uptime.toNat,
    fun data => data.activeDifficulty.toNat, fun data => data.milliseconds.toInt]

/-- A limit is one of the data, or it is between two that are not 0. -/
def LimitOk (datas : List TelemetryData) (cap : BitVec 64) : Prop :=
  cap ∈ datas.map bandwidthCap ∨
    (∃ data ∈ datas.filter (·.bandwidthCap ≠ 0), data.bandwidthCap.toNat ≤ cap.toNat) ∧
      ∃ data ∈ datas.filter (·.bandwidthCap ≠ 0), cap.toNat ≤ data.bandwidthCap.toNat

/-- What the result of a consolidation has to do with the data. -/
structure Consolidated (datas : List TelemetryData) (r : TelemetryData) : Prop where
  averaged : ∀ field ∈ averagedFields, Between datas field r
  bandwidthCap : LimitOk datas r.bandwidthCap
  vendorVersion : r.vendorVersion ∈ datas.map vendorVersion

/-- The number of data without a tenth on either side. -/
def size (datas : List TelemetryData) : Nat := datas.length - datas.length / 10 * 2

/-- The sum of the limits of the bandwidth that are averaged. -/
def bandwidthSum (datas : List TelemetryData) : Nat :=
  (trimmed (datas.length / 10) (bandwidths datas)).sum

/-- Enough data have a limit of the bandwidth. If no limit is repeated, some limit is not above the
average that is taken; a limit of 0 is only if the average is 0. No version that is repeated most
often has the byte of the separator. -/
structure Usable (datas : List TelemetryData) : Prop where
  caps : datas.length / 10 * 2 ≤ (bandwidths datas).length
  limit : (datas.map bandwidthCap).Nodup → ∃ data ∈ datas,
    data.bandwidthCap.toNat * size datas ≤ bandwidthSum datas ∧
      (data.bandwidthCap = 0 → bandwidthSum datas < size datas)
  plain : ∀ data ∈ datas, MostFrequent (datas.map (·.vendorVersion.text)) data.vendorVersion.text →
    data.vendorVersion.Plain

/-- The times that are averaged are all before the epoch, or all not before it. -/
def OneSided (datas : List TelemetryData) : Prop :=
  let times := trimmed (datas.length / 10) (datas.map fun data => data.milliseconds.toNat)
  (∀ ms ∈ times, ms < 2 ^ 63) ∨ ∀ ms ∈ times, 2 ^ 63 ≤ ms

theorem numericCast_of_le {w n : Nat} {x : BitVec w} (h : n ≤ x.toNat) :
    ∃ r : BitVec w, numericCast n = some r ∧ r.toNat = n := by
  have hlt : n < 2 ^ w := h.trans_lt x.isLt
  exact ⟨BitVec.ofNat w n, if_pos hlt, by rw [BitVec.toNat_ofNat, Nat.mod_eq_of_lt hlt]⟩

variable {datas : List TelemetryData}

theorem kept_spec {w : Nat} (hne : datas ≠ []) (count : TelemetryData → BitVec w)
    {kept : List Nat}
    (hkept : trimmed (datas.length / 10) (datas.map fun data => (count data).toNat) = kept) :
    stripOutliers (datas.length / 10) (datas.map fun data => (count data).toNat) = some kept ∧
      kept.length = datas.length - datas.length / 10 * 2 ∧
      (∃ low ∈ datas, (count low).toNat ∈ kept ∧ (count low).toNat ≤ kept.sum / kept.length) ∧
      ∃ high ∈ datas, (count high).toNat ∈ kept ∧ kept.sum / kept.length ≤ (count high).toNat := by
  subst hkept
  have hpos := length_pos_of_ne_nil hne
  have hlen := length_trimmed (datas.length / 10) (datas.map fun data => (count data).toNat)
  rw [length_map] at hlen
  obtain ⟨⟨x, hx, hlo⟩, y, hy, hhi⟩ := average_bounds (ne_nil_of_length_pos (by omega) :
    trimmed (datas.length / 10) (datas.map fun data => (count data).toNat) ≠ [])
  obtain ⟨low, hlow, rfl⟩ := List.mem_map.1 (mem_of_mem_trimmed hx)
  obtain ⟨high, hhigh, rfl⟩ := List.mem_map.1 (mem_of_mem_trimmed hy)
  refine ⟨?_, hlen, ⟨low, hlow, hx, hlo⟩, high, hhigh, hy, hhi⟩
  rw [stripOutliers_eq, length_map, if_pos (by omega)]

theorem average_spec {w : Nat} (hne : datas ≠ []) (count : TelemetryData → BitVec w) :
    ∃ value, average datas count = some value ∧ ∀ r, count r = value →
      Between datas (fun data => (count data).toNat) r := by
  obtain ⟨hkept, hlen, ⟨low, hlow, -, hlo⟩, high, hhigh, -, hhi⟩ := kept_spec hne count rfl
  obtain ⟨value, hcast, hval⟩ := numericCast_of_le hhi
  rw [← hval] at hlo hhi
  refine ⟨value, ?_, ?_⟩
  · simp only [average, hkept, bind_eq_bind, bind_some, ← hlen, hcast]
  · rintro r rfl
    exact ⟨⟨low, hlow, Int.ofNat_le.2 hlo⟩, high, hhigh, Int.ofNat_le.2 hhi⟩

/-! ## The time -/

theorem sdiv_mul_cancel {ms : BitVec 64} {low high : TelemetryData}
    (hlow : low.milliseconds.toInt ≤ ms.toInt) (hhigh : ms.toInt ≤ high.milliseconds.toInt) :
    (ms * 1000000).sdiv 1000000 = ms := by
  have hmillion : (1000000 : BitVec 64).toInt = 1000000 := by decide
  have hl := natAbs_tdiv_million low.timestamp
  have hh := natAbs_tdiv_million high.timestamp
  rw [milliseconds, toInt_sdiv_million] at hlow hhigh
  have hlt := ms.toInt_lt
  have hle := ms.le_toInt
  have hmul : (ms * 1000000).toInt = ms.toInt * 1000000 := by
    rw [toInt_mul, hmillion]
    exact Int.bmod_eq_of_le (by omega) (by omega)
  apply eq_of_toInt_eq
  rw [toInt_sdiv, hmul, hmillion, Int.mul_tdiv_cancel _ (by decide)]
  exact Int.bmod_eq_of_le (by omega) (by omega)

/-- On one side of the epoch the order of the times is that of their bits. -/
theorem time_spec (hne : datas ≠ []) :
    ∃ kept ms, stripOutliers (datas.length / 10) (datas.map fun data => data.milliseconds.toNat) =
        some kept ∧ numericCast (kept.sum / kept.length) = some ms ∧
      (OneSided datas → ∀ r : TelemetryData, r.timestamp = ms * 1000000 →
        Between datas (fun data => data.milliseconds.toInt) r) := by
  obtain ⟨hkept, -, ⟨low, hlow, hlowKept, hlo⟩, high, hhigh, hhighKept, hhi⟩ :=
    kept_spec hne milliseconds rfl
  obtain ⟨ms, hms, hval⟩ := numericCast_of_le hhi
  rw [← hval] at hlo hhi
  refine ⟨_, ms, hkept, hms, fun hside r hr => ?_⟩
  have hsig : low.milliseconds.toInt ≤ ms.toInt ∧ ms.toInt ≤ high.milliseconds.toInt := by
    have hboth : (low.milliseconds.toNat < 2 ^ 63 ∧ high.milliseconds.toNat < 2 ^ 63) ∨
        (2 ^ 63 ≤ low.milliseconds.toNat ∧ 2 ^ 63 ≤ high.milliseconds.toNat) :=
      hside.imp (fun h => ⟨h _ hlowKept, h _ hhighKept⟩) fun h => ⟨h _ hlowKept, h _ hhighKept⟩
    simp only [toInt_eq_toNat_cond]
    have hlt := high.milliseconds.isLt
    split_ifs <;> omega
  have hback : r.milliseconds = ms := by
    rw [milliseconds, hr]
    exact sdiv_mul_cancel hsig.1 hsig.2
  rw [← hback] at hsig
  exact ⟨⟨low, hlow, hsig.1⟩, high, hhigh, hsig.2⟩

/-! ## The limit of the bandwidth -/

theorem mem_bandwidths {cap : Nat} (h : cap ∈ bandwidths datas) :
    ∃ data ∈ datas.filter (·.bandwidthCap ≠ 0), data.bandwidthCap.toNat = cap := by
  obtain ⟨hmem, hne⟩ := mem_filter.1 h
  obtain ⟨data, hdata, rfl⟩ := List.mem_map.1 hmem
  refine ⟨data, mem_filter.2 ⟨hdata, ?_⟩, rfl⟩
  simpa [← toNat_inj] using hne

section

variable {sum size : Nat} (order : CountsOrder (datas.map bandwidthCap))

theorem setModeOrAverage_repeated (h : ¬ (datas.map bandwidthCap).Nodup) :
    ∃ cap ∈ datas.map bandwidthCap, setModeOrAverage order.entries sum size = some cap := by
  have hne : datas.map bandwidthCap ≠ [] := fun hnil => h (hnil ▸ nodup_nil)
  obtain ⟨m, hm, ⟨hmem, -⟩, hmax⟩ := order.maxElement_spec hne
  rw [nodup_iff_count_le_one] at h
  push Not at h
  obtain ⟨cap, hcap⟩ := h
  refine ⟨m.1, hmem, ?_⟩
  simp only [setModeOrAverage, hm, bind_eq_bind, bind_some, Option.pure_def,
    if_pos (hcap.trans_le (hmax cap))]

theorem setModeOrAverage_nodup (hne : datas ≠ []) (h : (datas.map bandwidthCap).Nodup) :
    setModeOrAverage order.entries sum size = some (BitVec.ofNat 64 (sum / size)) := by
  obtain ⟨m, hm, ⟨-, hcnt⟩, -⟩ := order.maxElement_spec (by simpa using hne)
  have hle := nodup_iff_count_le_one.1 h m.1
  simp only [setModeOrAverage, hm, bind_eq_bind, bind_some, Option.pure_def,
    if_neg (show ¬ 1 < m.2 by omega)]

end

theorem size_pos (hne : datas ≠ []) : 0 < size datas := by
  have hpos := length_pos_of_ne_nil hne
  unfold size
  omega

/-- The average of the limits is not above all of them. -/
theorem mean_le (hne : trimmed (datas.length / 10) (bandwidths datas) ≠ []) :
    ∃ data ∈ datas.filter (·.bandwidthCap ≠ 0),
      bandwidthSum datas / size datas ≤ data.bandwidthCap.toNat := by
  obtain ⟨-, cap, hcap, hle⟩ := average_bounds hne
  obtain ⟨data, hdata, rfl⟩ := mem_bandwidths (mem_of_mem_trimmed hcap)
  refine ⟨data, hdata, (Nat.div_le_div_left ?_ (length_pos_of_ne_nil hne)).trans hle⟩
  have hfew : (bandwidths datas).length ≤ datas.length :=
    (length_filter_le _ _).trans (length_map _).le
  rw [length_trimmed, size]
  omega

theorem mean_lt : bandwidthSum datas / size datas < 2 ^ 64 := by
  by_cases hne : trimmed (datas.length / 10) (bandwidths datas) = []
  · rw [bandwidthSum, hne, sum_nil, Nat.zero_div]
    decide
  · obtain ⟨data, -, hle⟩ := mean_le hne
    exact hle.trans_lt data.bandwidthCap.isLt

theorem limitOk_mean_iff (hne : datas ≠ []) :
    LimitOk datas (BitVec.ofNat 64 (bandwidthSum datas / size datas)) ↔
      ∃ data ∈ datas, data.bandwidthCap.toNat * size datas ≤ bandwidthSum datas ∧
        (data.bandwidthCap = 0 → bandwidthSum datas < size datas) := by
  have hsize := size_pos hne
  have hmean : (BitVec.ofNat 64 (bandwidthSum datas / size datas)).toNat = _ :=
    (BitVec.toNat_ofNat ..).trans (Nat.mod_eq_of_lt mean_lt)
  unfold LimitOk
  rw [hmean]
  constructor
  · rintro (hmem | ⟨⟨data, hdata, hle⟩, -⟩)
    · obtain ⟨data, hdata, hcap⟩ := List.mem_map.1 hmem
      rw [← toNat_inj, hmean] at hcap
      refine ⟨data, hdata, (Nat.le_div_iff_mul_le hsize).1 hcap.le, fun hzero => ?_⟩
      rw [hzero] at hcap
      exact (Nat.div_eq_zero_iff.1 hcap.symm).resolve_left hsize.ne'
    · obtain ⟨hdata, hcap⟩ := mem_filter.1 hdata
      exact ⟨data, hdata, (Nat.le_div_iff_mul_le hsize).1 hle, fun hzero => by simp [hzero] at hcap⟩
  · rintro ⟨data, hdata, hle, hlt⟩
    by_cases hzero : data.bandwidthCap = 0
    · refine .inl (List.mem_map.2 ⟨data, hdata, ?_⟩)
      rw [hzero, Nat.div_eq_of_lt (hlt hzero)]
      rfl
    · have hfilter : data ∈ datas.filter (·.bandwidthCap ≠ 0) :=
        mem_filter.2 ⟨hdata, decide_eq_true hzero⟩
      refine .inr ⟨⟨data, hfilter, (Nat.le_div_iff_mul_le hsize).2 hle⟩, mean_le fun hnil => hzero ?_⟩
      rw [bandwidthSum, hnil, sum_nil, Nat.le_zero, Nat.mul_eq_zero] at hle
      exact eq_of_toNat_eq (hle.resolve_right hsize.ne')

theorem bandwidthCap_spec (hne : datas ≠ []) (h : Usable datas)
    (order : CountsOrder (datas.map bandwidthCap)) :
    ∃ cap, setModeOrAverage order.entries (bandwidthSum datas) (size datas) = some cap ∧
      LimitOk datas cap := by
  by_cases hnd : (datas.map bandwidthCap).Nodup
  · exact ⟨_, setModeOrAverage_nodup order hne hnd, (limitOk_mean_iff hne).2 (h.limit hnd)⟩
  · obtain ⟨cap, hcap, hset⟩ := setModeOrAverage_repeated order hnd
    exact ⟨cap, hset, .inl hcap⟩

/-! ## The result -/

theorem Consolidated.self (data : TelemetryData) : Consolidated [data] data where
  averaged _ _ := ⟨⟨data, mem_singleton_self _, le_rfl⟩, data, mem_singleton_self _, le_rfl⟩
  bandwidthCap := .inl (mem_singleton_self _)
  vendorVersion := mem_singleton_self _

theorem consolidate_eq_some {orders : Orders datas} {r : TelemetryData} (hlen : 1 < datas.length)
    (h : consolidateTelemetryData datas orders = some r) :
    datas.length / 10 * 2 ≤ (bandwidths datas).length ∧
      setModeOrAverage orders.bandwidthCaps.entries (bandwidthSum datas) (size datas) =
        some r.bandwidthCap ∧
      ∃ text, setMode orders.vendorVersions.entries = some text ∧
        (VendorVersion.parse text).isSome := by
  unfold consolidateTelemetryData at h
  rw [if_neg (by omega), if_neg (by omega)] at h
  obtain ⟨accs, -, h⟩ := bind_eq_some_iff.1 h
  obtain ⟨blocks, -, h⟩ := bind_eq_some_iff.1 h
  obtain ⟨cemented, -, h⟩ := bind_eq_some_iff.1 h
  obtain ⟨peers, -, h⟩ := bind_eq_some_iff.1 h
  obtain ⟨unchecked, -, h⟩ := bind_eq_some_iff.1 h
  obtain ⟨up, -, h⟩ := bind_eq_some_iff.1 h
  obtain ⟨kept, hkept, h⟩ := bind_eq_some_iff.1 h
  obtain ⟨difficulty, -, h⟩ := bind_eq_some_iff.1 h
  obtain ⟨times, -, h⟩ := bind_eq_some_iff.1 h
  obtain ⟨ms, -, h⟩ := bind_eq_some_iff.1 h
  obtain ⟨cap, hcap, h⟩ := bind_eq_some_iff.1 h
  obtain ⟨protocol, -, h⟩ := bind_eq_some_iff.1 h
  obtain ⟨genesis, -, h⟩ := bind_eq_some_iff.1 h
  obtain ⟨version, hver, h⟩ := bind_eq_some_iff.1 h
  obtain ⟨text, htext, hparse⟩ := bind_eq_some_iff.1 hver
  obtain rfl := Option.some.inj h
  rw [stripOutliers_eq, ite_none_right_eq_some] at hkept
  obtain ⟨hcaps, hkept⟩ := hkept
  obtain rfl := Option.some.inj hkept
  exact ⟨hcaps, hcap, text, htext, by rw [hparse]; rfl⟩

theorem usable_of_consolidated (hlen : 1 < datas.length) (orders : Orders datas)
    (h : ∀ orders, ∃ r, consolidateTelemetryData datas orders = some r ∧ Consolidated datas r) :
    Usable datas := by
  obtain ⟨r, hr, hok⟩ := h orders
  obtain ⟨hcaps, hcap, -⟩ := consolidate_eq_some hlen hr
  have hne : datas ≠ [] := ne_nil_of_length_pos (by omega)
  refine ⟨hcaps, fun hnd => (limitOk_mean_iff hne).1 ?_, fun data hdata hmax => ?_⟩
  · rw [setModeOrAverage_nodup _ hne hnd, Option.some.injEq] at hcap
    rw [hcap]
    exact hok.bandwidthCap
  · -- the order in which this version comes first
    have hmem : data.vendorVersion.text ∈ datas.map (·.vendorVersion.text) :=
      List.mem_map.2 ⟨data, hdata, rfl⟩
    obtain ⟨r, hr, -⟩ := h { orders with vendorVersions := .first hmem }
    obtain ⟨-, -, text, htext, hparse⟩ := consolidate_eq_some hlen hr
    rw [CountsOrder.setMode_first hmem hmax, Option.some.injEq] at htext
    rw [← htext, VendorVersion.parse_text] at hparse
    by_contra hplain
    rw [if_neg hplain] at hparse
    cases hparse

theorem Usable.consolidated (husable : Usable datas) (hlen : 1 < datas.length)
    (hside : OneSided datas) (orders : Orders datas) :
    ∃ r, consolidateTelemetryData datas orders = some r ∧ Consolidated datas r := by
  have hne : datas ≠ [] := ne_nil_of_length_pos (by omega)
  have hmap {K : Type} (f : TelemetryData → K) : datas.map f ≠ [] := by simpa using hne
  have hcaps := stripOutliers_eq (datas.length / 10) (bandwidths datas)
  rw [if_pos husable.caps] at hcaps
  obtain ⟨accs, haccs, haccountCount⟩ := average_spec hne accountCount
  obtain ⟨blocks, hbs, hblockCount⟩ := average_spec hne blockCount
  obtain ⟨cemented, hcemented, hcementedCount⟩ := average_spec hne cementedCount
  obtain ⟨peers, hprs, hpeerCount⟩ := average_spec hne peerCount
  obtain ⟨unchecked, hunchecked, huncheckedCount⟩ := average_spec hne uncheckedCount
  obtain ⟨up, hup, huptime⟩ := average_spec hne uptime
  obtain ⟨difficulty, hdifficulty, hactiveDifficulty⟩ := average_spec hne activeDifficulty
  obtain ⟨times, ms, htimes, hms, htime⟩ := time_spec hne
  obtain ⟨cap, hcap, hbandwidth⟩ := bandwidthCap_spec hne husable orders.bandwidthCaps
  obtain ⟨protocol, -, hprotocol, -⟩ := orders.protocolVersions.setMode_spec (hmap _)
  obtain ⟨genesis, -, hgen, -⟩ := orders.genesisBlocks.setMode_spec (hmap _)
  obtain ⟨text, htext, hver, hmax⟩ := orders.vendorVersions.setMode_spec (hmap _)
  obtain ⟨data, hdata, rfl⟩ := List.mem_map.1 htext
  have hparse := data.vendorVersion.parse_text
  rw [if_pos (husable.plain data hdata hmax)] at hparse
  refine ⟨{
    accountCount := accs, blockCount := blocks, cementedCount := cemented
    peerCount := peers, uncheckedCount := unchecked, uptime := up
    activeDifficulty := difficulty, bandwidthCap := cap, protocolVersion := protocol
    genesisBlock := genesis, timestamp := ms * 1000000, majorVersion := data.majorVersion
    minorVersion := data.minorVersion, patchVersion := data.patchVersion
    preReleaseVersion := data.preReleaseVersion, maker := data.maker },
    ?_, fun field hfield => ?_, hbandwidth, List.mem_map.2 ⟨data, hdata, rfl⟩⟩
  · unfold bandwidthSum size at hcap
    unfold consolidateTelemetryData
    rw [if_neg (by omega), if_neg (by omega)]
    simp only [haccs, hbs, hcemented, hprs, hunchecked, hup, hcaps, hdifficulty, htimes,
      hms, hcap, hprotocol, hgen, hver, hparse, bind_eq_bind, bind_some]
    rfl
  · simp only [averagedFields, mem_cons, not_mem_nil, or_false] at hfield
    rcases hfield with rfl | rfl | rfl | rfl | rfl | rfl | rfl | rfl
    · exact haccountCount _ rfl
    · exact hblockCount _ rfl
    · exact hcementedCount _ rfl
    · exact hpeerCount _ rfl
    · exact huncheckedCount _ rfl
    · exact huptime _ rfl
    · exact hactiveDifficulty _ rfl
    · exact htime hside _ rfl

/-- More than one set of data are consolidated in every order of the maps only if they are usable,
and if the times are on one side of the epoch, they are then. -/
theorem consolidate_telemetry_sound (hne : datas ≠ []) (orders : Orders datas) :
    ((∀ orders, ∃ r, consolidateTelemetryData datas orders = some r ∧ Consolidated datas r) →
      datas.length = 1 ∨ Usable datas) ∧
    (OneSided datas → datas.length = 1 ∨ Usable datas →
      ∃ r, consolidateTelemetryData datas orders = some r ∧ Consolidated datas r) := by
  have hpos := length_pos_of_ne_nil hne
  by_cases hone : datas.length = 1
  · obtain ⟨data, rfl⟩ := length_eq_one_iff.1 hone
    exact ⟨fun _ => .inl rfl, fun _ _ => ⟨data, rfl, .self data⟩⟩
  · have hlen : 1 < datas.length := by omega
    exact ⟨fun h => .inr (usable_of_consolidated hlen orders h),
      fun hside husable => (husable.resolve_left hone).consolidated hlen hside orders⟩

end TelemetryData

/-- The values in the order of their last occurrences. -/
def CountsOrder.ofList {K : Type} [DecidableEq K] (xs : List K) : CountsOrder xs where
  entries := xs.dedup.map fun k => (k, xs.count k)
  keys_nodup := by simpa [Function.comp_def] using xs.nodup_dedup
  mem_iff k n := by
    simp only [List.mem_map, mem_dedup, Prod.mk.injEq]
    constructor
    · rintro ⟨_, hk, rfl, rfl⟩
      exact ⟨hk, rfl⟩
    · rintro ⟨hk, rfl⟩
      exact ⟨k, hk, rfl, rfl⟩

def TelemetryData.Orders.ofList (datas : List TelemetryData) : Orders datas :=
  ⟨.ofList _, .ofList _, .ofList _, .ofList _⟩

open TelemetryData

namespace Sample

/-- Three peers. The version of the last one has the byte of the separator, and is in the minority. -/
def peers : List TelemetryData :=
  [{ blockCount := 3, bandwidthCap := 1 }, { bandwidthCap := 4 },
    { majorVersion := 46, bandwidthCap := 9 }]

theorem usable_peers : Usable peers where
  caps := by decide
  limit := fun _ => ⟨_, mem_cons_self, by decide, by decide⟩
  plain := fun data hdata hmost => by
    have hcnt := hmost (TelemetryData.vendorVersion {}).text
    clear hmost
    revert data
    decide

end Sample

theorem consolidate_telemetry_two :
    ∃ r, consolidateTelemetryData Sample.peers (.ofList _) = some r ∧ Consolidated Sample.peers r :=
  (consolidate_telemetry_sound (by decide) _).2 (.inl (by decide)) (.inr Sample.usable_peers)

/-- Nothing can be taken from the limits of ten peers without a limit, the mean of the limits 10 and
none is 5, and a version with the byte of the dot is not read. -/
theorem consolidate_telemetry_fails :
    consolidateTelemetryData (List.replicate 10 {}) (.ofList _) = none ∧
    (∃ r, consolidateTelemetryData [{ bandwidthCap := 10 }, {}] (.ofList _) = some r ∧
      ¬ Consolidated [{ bandwidthCap := 10 }, {}] r) ∧
    consolidateTelemetryData [{ majorVersion := 46 }, { majorVersion := 46 }] (.ofList _) = none := by
  refine ⟨by decide +kernel, ⟨{ bandwidthCap := 5 }, by decide +kernel, fun h => ?_⟩,
    by decide +kernel⟩
  rcases h.bandwidthCap with hmem | ⟨⟨data, hdata, hle⟩, -⟩
  · revert hmem
    decide
  · obtain rfl : data = { bandwidthCap := 10 } := by simpa using hdata
    revert hle
    decide

end Futurehead
