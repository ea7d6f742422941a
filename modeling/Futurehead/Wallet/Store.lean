import Std.Data.ExtTreeMap
import Futurehead.Wallet.Hex

/-!
# The wallet store (`futurehead/node/wallet`, `wallet_store` and `fan`)

A wallet is a table from accounts to values. Seven small numbers are not accounts but names of
special entries. The wallet key encrypts the ad-hoc keys and the seed, from which the deterministic
keys are derived, and is itself encrypted with a key that is derived from the password. The password
key and the encrypted wallet key are kept in memory, each as the exclusive or of several parts.
-/

namespace Futurehead

open List

/-- A key of any kind, `raw_key` and `private_key`. -/
abbrev RawKey := Uint256

/-- The primitives that the wallet calls. -/
structure Crypto where
  /-- AES in counter mode: the text, the key and the initialisation vector. -/
  encrypt : Uint256 → RawKey → BitVec 128 → Uint256
  decrypt : Uint256 → RawKey → BitVec 128 → RawKey
  /-- `kdf::phs`: the password and the salt. -/
  phs : Text → Uint256 → RawKey
  pubKey : RawKey → Account
  /-- `futurehead::deterministic_key`: the seed and the index. -/
  deterministicKey : RawKey → BitVec 32 → RawKey
  /-- `sign_message`. -/
  signMessage : RawKey → Account → BlockHash → Signature

/-- `owords`: the two halves of a number, the upper one first. -/
def oword (x : Uint256) (i : Fin 2) : BitVec 128 := x.extractLsb' (128 * (1 - i.val)) 128

-- the modules on wallets share these proofs, for a half's index and for a look-up in a table
instance neZero_halves : NeZero 2 := ⟨two_ne_zero⟩

instance transOrd_account : Std.TransOrd Uint256 := BitVec.instTransOrd

/-! ## The fan -/

/-- `fan`: a value as the exclusive or of several parts. -/
structure Fan where
  values : List Uint256
  nonempty : values ≠ []

namespace Fan

/-- `fan::fan`, with the random parts. -/
def new (key : Uint256) (random : List Uint256) : Fan where
  values := random ++ [random.foldl (· ^^^ ·) key]
  nonempty := append_ne_nil_of_right_ne_nil _ (cons_ne_nil _ _)

/-- `value_get`. -/
def value (fan : Fan) : Uint256 := fan.values.foldl (· ^^^ ·) 0

/-- `value_set`: the first part is changed. -/
def valueSet (fan : Fan) (value : Uint256) : Fan where
  values := (fan.values.head fan.nonempty ^^^ fan.value ^^^ value) :: fan.values.tail
  nonempty := cons_ne_nil _ _

end Fan

/-! ## The store -/

structure WalletValue where
  key : Uint256
  work : BitVec 64
  deriving DecidableEq

/-- `key_type`, without the value no entry has. -/
inductive KeyType where
  | unknown
  | adhoc
  | deterministic
  deriving DecidableEq

abbrev Entries := Std.ExtTreeMap Account WalletValue

/-- `wallet_store`: the table, and what is in memory. -/
structure WalletStore where
  entries : Entries
  password : Fan
  walletKeyMem : Fan

/-- Wallet version number. -/
def versionSpecial : Account := 0
/-- Random number used to salt private key encryption. -/
def saltSpecial : Account := 1
/-- Key used to encrypt wallet keys, encrypted itself by the user password. -/
def walletKeySpecial : Account := 2
/-- Check value used to see if the password is valid. -/
def checkSpecial : Account := 3
/-- Representative account to be used if we open a new account. -/
def representativeSpecial : Account := 4
/-- Wallet seed for deterministic key generation. -/
def seedSpecial : Account := 5
/-- Current key index for deterministic keys. -/
def deterministicIndexSpecial : Account := 6
def specialCount : Account := 7
def checkIvIndex : Fin 2 := 0
def seedIvIndex : Fin 2 := 1
def versionCurrent : Nat := 4

namespace WalletStore

variable (c : Crypto) (s : WalletStore)

/-! ## Entries -/

/-- `entry_get_raw`: zero if there is no entry. -/
def entryGetRaw (pub : Account) : WalletValue := s.entries[pub]?.getD ⟨0, 0⟩

def entryPutRaw (pub : Account) (entry : WalletValue) : WalletStore :=
  { s with entries := s.entries.insert pub entry }

def erase (pub : Account) : WalletStore := { s with entries := s.entries.erase pub }

def validPublicKey (pub : Account) : Bool := decide (specialCount ≤ pub)

/-- `exists`. -/
def accountExists (pub : Account) : Bool := validPublicKey pub && s.entries.contains pub

/-- `accounts`: what the iterator from `begin` to `end` visits. -/
def accounts : List Account := s.entries.keys.filter validPublicKey

def check : Uint256 := (s.entryGetRaw checkSpecial).key

def salt : Uint256 := (s.entryGetRaw saltSpecial).key

/-- `version`: the last byte of the entry. -/
def version : Nat := (s.entryGetRaw versionSpecial).key.toNat % 256

def versionPut (version : Nat) : WalletStore :=
  s.entryPutRaw versionSpecial ⟨BitVec.ofNat 256 version, 0⟩

def keyType (value : WalletValue) : KeyType :=
  if 2 ^ 64 ≤ value.key.toNat then .adhoc
  else if value.key.toNat / 2 ^ 32 = 1 then .deterministic
  else .unknown

/-! ## Keys -/

def walletKey : RawKey := c.decrypt s.walletKeyMem.value s.password.value (oword s.salt 0)

def validPassword : Bool := s.check == c.encrypt 0 (s.walletKey c) (oword s.salt checkIvIndex)

def seed : RawKey :=
  c.decrypt (s.entryGetRaw seedSpecial).key (s.walletKey c) (oword s.salt seedIvIndex)

def deterministicKey (index : BitVec 32) : RawKey := c.deterministicKey (s.seed c) index

def deterministicIndexGet : BitVec 32 := (s.entryGetRaw deterministicIndexSpecial).key.setWidth 32

def deterministicIndexSet (index : BitVec 32) : WalletStore :=
  s.entryPutRaw deterministicIndexSpecial ⟨index.setWidth 256, 0⟩

def deterministicClear : WalletStore :=
  (s.accounts.foldl (fun s account =>
    if keyType (s.entryGetRaw account) = .deterministic then s.erase account else s) s
    ).deterministicIndexSet 0

def seedSet (prv : RawKey) : WalletStore :=
  let ciphertext := c.encrypt prv (s.walletKey c) (oword s.salt seedIvIndex)
  (s.entryPutRaw seedSpecial ⟨ciphertext, 0⟩).deterministicClear

/-- The value of a deterministic account: a marker and the index. -/
def marker (index : BitVec 32) : Uint256 := (1 : Uint256) <<< 32 ||| index.setWidth 256

/-- The loop of `deterministic_insert`: the first index whose account is not in the store. -/
def deterministicSearch : (fuel : Nat) → BitVec 32 → Option (BitVec 32)
  | 0, _ => none
  | fuel + 1, index =>
    if s.accountExists (c.pubKey (s.deterministicKey c index)) then deterministicSearch fuel (index + 1)
    else some index

/-- `deterministic_insert` at an index. -/
def deterministicInsertAt (index : BitVec 32) : Account × WalletStore :=
  let result := c.pubKey (s.deterministicKey c index)
  (result, s.entryPutRaw result ⟨marker index, 0⟩)

/-- `deterministic_insert`. The search does not end if all accounts are in the store. -/
def deterministicInsert : Option (Account × WalletStore) := do
  let index ← s.deterministicSearch c (2 ^ 32) s.deterministicIndexGet
  let (result, s) := s.deterministicInsertAt c index
  some (result, s.deterministicIndexSet (index + 1))

def insertAdhoc (prv : RawKey) : Account × WalletStore :=
  let pub := c.pubKey prv
  let ciphertext := c.encrypt prv (s.walletKey c) (oword pub 0)
  (pub, s.entryPutRaw pub ⟨ciphertext, 0⟩)

/-- `insert_watch`. The first component is the error. -/
def insertWatch (pub : Account) : Bool × WalletStore :=
  if validPublicKey pub then (false, s.entryPutRaw pub ⟨0, 0⟩) else (true, s)

/-- `fetch` up to its last check. `prv` is what the argument holds before. -/
def fetchRaw (pub : Account) (prv : RawKey) : Bool × RawKey :=
  if s.validPassword c then
    let value := s.entryGetRaw pub
    if value.key ≠ 0 then
      match keyType value with
      | .deterministic => (false, s.deterministicKey c (value.key.setWidth 32))
      | .adhoc => (false, c.decrypt value.key (s.walletKey c) (oword pub 0))
      | .unknown => (true, prv)
    else (true, prv)
  else (true, prv)

/-- `fetch`: the error, and what the argument holds afterwards. -/
def fetch (pub : Account) (prv : RawKey) : Bool × RawKey :=
  let (result, prv) := s.fetchRaw c pub prv
  (result || c.pubKey prv != pub, prv)

/-! ## The password -/

def deriveKey (password : Text) : RawKey := c.phs password s.salt

/-- The body of the loop of `upgrade_v1_v2`: a key that was encrypted with another wallet key. -/
def upgradeV1V2Entry (zeroPassword emptyPassword : RawKey) (s : WalletStore) (key : Account) :
    WalletStore :=
  if (s.fetch c key 0).1 then
    -- Key failed to decrypt despite valid password
    let data := s.entryGetRaw key
    let prv := c.decrypt data.key zeroPassword (oword s.salt 0)
    if c.pubKey prv = key then (s.insertAdhoc c prv).2
    else
      -- Also try the empty password
      let prv := c.decrypt data.key emptyPassword (oword s.salt 0)
      if c.pubKey prv = key then (s.insertAdhoc c prv).2 else s
  else s

def upgradeV1V2 : WalletStore :=
  let value := s.entryGetRaw walletKeySpecial
  let zeroPassword := c.decrypt value.key 0 (oword s.salt 0)
  let emptyPassword := c.decrypt value.key (s.deriveKey c []) (oword s.salt 0)
  (s.accounts.foldl (upgradeV1V2Entry c zeroPassword emptyPassword) s).versionPut 2

/-- `upgrade_v2_v3`, with the random seed. -/
def upgradeV2V3 (seed : RawKey) : WalletStore :=
  ((s.seedSet c seed).entryPutRaw deterministicIndexSpecial ⟨0, 0⟩).versionPut 3

/-- The body of the loop of `upgrade_v3_v4`: an ad-hoc key that was encrypted with another
initialisation vector. -/
def upgradeV3V4Entry (walletKey : RawKey) (s : WalletStore) (pub : Account) : WalletStore :=
  let value := s.entryGetRaw pub
  if value.key ≠ 0 ∧ keyType value = .adhoc ∧ (s.fetch c pub 0).1 then
    let key := c.decrypt value.key walletKey (oword s.salt 0)
    (s.erase pub).entryPutRaw pub ⟨c.encrypt key walletKey (oword pub 0), value.work⟩
  else s

def upgradeV3V4 : WalletStore :=
  let s := s.versionPut 4
  let walletKey := s.walletKey c
  let seed := c.decrypt (s.entryGetRaw seedSpecial).key walletKey (oword s.salt 0)
  let s := s.entryPutRaw seedSpecial ⟨c.encrypt seed walletKey (oword s.salt seedIvIndex), 0⟩
  s.accounts.foldl (upgradeV3V4Entry c walletKey) s

/-- The upgrades after the wallet was unlocked. -/
def upgrade (seed : RawKey) : WalletStore :=
  match s.version with
  | 1 => (((s.upgradeV1V2 c).upgradeV2V3 c seed).upgradeV3V4 c)
  | 2 => ((s.upgradeV2V3 c seed).upgradeV3V4 c)
  | 3 => s.upgradeV3V4 c
  | _ => s

/-- `attempt_password`. The first component is the error, and `seed` the random number that an
upgrade takes. -/
def attemptPassword (password : Text) (seed : RawKey) : Bool × WalletStore :=
  let s := { s with password := s.password.valueSet (s.deriveKey c password) }
  if s.validPassword c then (false, s.upgrade c seed) else (true, s)

/-- `rekey`. The first component is the error. -/
def rekey (password : Text) : Bool × WalletStore :=
  if s.validPassword c then
    let passwordNew := s.deriveKey c password
    let encrypted := c.encrypt (s.walletKey c) passwordNew (oword s.salt 0)
    let s := { s with
      password := s.password.valueSet passwordNew
      walletKeyMem := s.walletKeyMem.valueSet encrypted }
    (false, s.entryPutRaw walletKeySpecial ⟨encrypted, 0⟩)
  else (true, s)

/-! ## Opening a store -/

/-- The random numbers of a constructor. -/
structure Random where
  salt : Uint256
  walletKey : RawKey
  seed : RawKey
  /-- The parts of the two fans. -/
  password : List Uint256
  walletKeyMem : List Uint256

def fill (random : Random) (representative : Account) : WalletStore :=
  let salt := random.salt
  let encrypted := c.encrypt random.walletKey 0 (oword salt 0)
  let s := (s.versionPut versionCurrent).entryPutRaw saltSpecial ⟨salt, 0⟩
  let s := { s with password := s.password.valueSet 0 }
  let s := s.entryPutRaw walletKeySpecial ⟨encrypted, 0⟩
  let s := { s with walletKeyMem := s.walletKeyMem.valueSet encrypted }
  let s := s.entryPutRaw checkSpecial ⟨c.encrypt 0 random.walletKey (oword salt checkIvIndex), 0⟩
  let s := s.entryPutRaw representativeSpecial ⟨representative, 0⟩
  let s := s.seedSet c random.seed
  s.entryPutRaw deterministicIndexSpecial ⟨0, 0⟩

/-- The constructor: a table without a version is filled, any other one is opened. -/
def new (entries : Entries) (random : Random) (representative : Account) : WalletStore :=
  let s : WalletStore := ⟨entries, .new 0 random.password, .new 0 random.walletKeyMem⟩
  let s := if s.entries.contains versionSpecial then s else s.fill c random representative
  { s with walletKeyMem := s.walletKeyMem.valueSet (s.entryGetRaw walletKeySpecial).key }

/-! ## JSON -/

/-- An object of pairs of strings, as the library reads and writes it. -/
abbrev Tree := List (Text × Text)

def serializeJson : Tree :=
  s.entries.toList.map fun entry => (encodeHex entry.1, encodeHex entry.2.key)

/-- `ptree::get`: the first child with the name. -/
def getChild (tree : Tree) (name : Text) : Option Text := tree.lookup name

/-- The body of the loop of the constructor from JSON. The error of one turn replaces that of the
turn before. -/
def loadEntry (tree : Tree) (s : WalletStore) (name : Text) : Option (Bool × WalletStore) :=
  match decodeHex name with
  | .throws => none
  | .error => some (true, s)
  | .value key => do
    let text ← getChild tree name
    match decodeHex text with
    | .throws => none
    | .error => some (true, s)
    | .value value => some (false, s.entryPutRaw key ⟨value, 0⟩)

/-- The loop of the constructor from JSON. -/
def loadEntries (tree : Tree) : Tree → Bool → WalletStore → Option (Bool × WalletStore)
  | [], error, s => some (error, s)
  | (name, _) :: rest, _, s => do
    let (error, s) ← loadEntry tree s name
    loadEntries tree rest error s

/-- The entries that a wallet must have. -/
def requiredSpecials : List Account :=
  [versionSpecial, walletKeySpecial, saltSpecial, checkSpecial, representativeSpecial]

/-- The constructor from JSON, into an empty table. There is no tree if the text cannot be read, and
no result if an exception leaves the constructor. The first component is the error. -/
def ofJson (tree : Option Tree) (random : Random) : Option (Bool × WalletStore) := do
  let s : WalletStore := ⟨∅, .new 0 random.password, .new 0 random.walletKeyMem⟩
  let tree' := tree.getD []
  let (error, s) ← loadEntries tree' tree' tree.isNone s
  let error := error || !requiredSpecials.all s.entries.contains
  let s := { s with password := s.password.valueSet 0 }
  some (error, { s with walletKeyMem := s.walletKeyMem.valueSet (s.entryGetRaw walletKeySpecial).key })

/-! ## Import -/

/-- The body of the loop of `import`. The error is never taken back, and an account is moved only
while there is none. -/
def importEntry (state : Bool × WalletStore × WalletStore) (account : Account) :
    Bool × WalletStore × WalletStore :=
  let (result, s, other) := state
  let (error, prv) := other.fetch c account 0
  let result := result || error
  if result then (result, s, other)
  else
    let s := if prv ≠ 0 then (s.insertAdhoc c prv).2 else (s.insertWatch account).2
    (result, s, other.erase account)

/-- `import`: the error, and both stores afterwards. -/
def importStore (other : WalletStore) : Bool × WalletStore × WalletStore :=
  other.accounts.foldl (importEntry c) (false, s, other)

end WalletStore

/-! ## Lemmas for the parts of a store -/

namespace Fan

theorem foldl_xor (x : Uint256) (xs : List Uint256) :
    xs.foldl (· ^^^ ·) x = x ^^^ xs.foldl (· ^^^ ·) 0 := by
  induction xs generalizing x with
  | nil => simp
  | cons y ys ih =>
    have hzero : (0 : Uint256) ^^^ y = y := BitVec.zero_xor
    rw [foldl_cons, ih, foldl_cons, ih (0 ^^^ y), hzero, BitVec.xor_assoc]

@[simp] theorem value_valueSet (fan : Fan) (x : Uint256) : (fan.valueSet x).value = x := by
  obtain ⟨_ | ⟨y, ys⟩, h⟩ := fan
  · exact absurd rfl h
  · change ((y ^^^ Fan.value ⟨y :: ys, h⟩ ^^^ x) :: ys).foldl (· ^^^ ·) 0 = x
    have hval : Fan.value ⟨y :: ys, h⟩ = y ^^^ ys.foldl (· ^^^ ·) 0 := by
      change (y :: ys).foldl (· ^^^ ·) 0 = _
      rw [foldl_cons, foldl_xor]
      exact congrArg (· ^^^ _) BitVec.zero_xor
    rw [foldl_cons, foldl_xor, hval]
    generalize ys.foldl (· ^^^ ·) 0 = z
    -- both parts occur twice
    calc (0 ^^^ (y ^^^ (y ^^^ z) ^^^ x)) ^^^ z = (y ^^^ y) ^^^ (z ^^^ z) ^^^ x := by ac_rfl
      _ = x := by simp

end Fan

namespace WalletStore

variable (s : WalletStore)

theorem getElem?_put (a b : Account) (v : WalletValue) :
    (s.entryPutRaw a v).entries[b]? = if b = a then some v else s.entries[b]? := by
  change (s.entries.insert a v)[b]? = _
  rw [Std.ExtTreeMap.getElem?_insert]
  simp only [Std.LawfulEqCmp.compare_eq_iff_eq, @eq_comm _ a b]

theorem getElem?_erase (a b : Account) :
    (s.erase a).entries[b]? = if b = a then none else s.entries[b]? := by
  change (s.entries.erase a)[b]? = _
  rw [Std.ExtTreeMap.getElem?_erase]
  simp only [Std.LawfulEqCmp.compare_eq_iff_eq, @eq_comm _ a b]

theorem entryGetRaw_put (a b : Account) (v : WalletValue) :
    (s.entryPutRaw a v).entryGetRaw b = if b = a then v else s.entryGetRaw b := by
  unfold entryGetRaw
  rw [getElem?_put]
  split <;> rfl

theorem entryGetRaw_erase (a b : Account) :
    (s.erase a).entryGetRaw b = if b = a then ⟨0, 0⟩ else s.entryGetRaw b := by
  unfold entryGetRaw
  rw [getElem?_erase]
  split <;> rfl

variable {s} in
theorem entryGetRaw_put_ne {a b : Account} (hb : b ≠ a) (v : WalletValue) :
    (s.entryPutRaw a v).entryGetRaw b = s.entryGetRaw b := by
  rw [entryGetRaw_put, if_neg hb]

variable {s} in
theorem entryGetRaw_erase_ne {a b : Account} (hb : b ≠ a) :
    (s.erase a).entryGetRaw b = s.entryGetRaw b := by
  rw [entryGetRaw_erase, if_neg hb]

theorem mem_accounts {a : Account} : a ∈ s.accounts ↔ validPublicKey a ∧ s.entries[a]?.isSome := by
  unfold accounts
  rw [mem_filter, Std.ExtTreeMap.mem_keys, Std.ExtTreeMap.mem_iff_isSome_getElem?, and_comm]

theorem nodup_accounts : s.accounts.Nodup := by
  refine List.Nodup.filter _ (s.entries.distinct_keys.imp fun h heq => h ?_)
  rw [heq]
  exact Std.ReflCmp.compare_self

end WalletStore

end Futurehead
